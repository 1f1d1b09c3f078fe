import EntitySql.Proofs.Include.Related
import EntitySql.Proofs.Query.Origins
import EntitySql.Proofs.Sql.Invariant
import EntitySql.Schema.Catalogue

-- The tables that the columns of a statement are taken from. A member of a
-- parameter is looked up in the entity of the parameter and written as a column
-- of the root, without regard to whether that entity is the root.

namespace EntitySql

-- The column that a member stands for: that of a field, or the foreign key of a
-- reference.
def Entity.columnFor? (e : Entity) (member : Text) : Option Text :=
  match e.property? member with
  | some f => some f.column
  | none =>
    match (e.navigation? member).map Navigation.relationship with
    | some (.reference foreignKey) => some foreignKey
    | _ => none

namespace Expr

-- The expression reads a member of a row, and not through a navigation.
def Reads (e : Expr) (x : Parameter) (member : Text) : Prop :=
  x.group = false ∧ ∃ id owner, Expr.member id (.parameter owner x) member ∈ e.nodes

theorem exists_parameter {owner : Expr} {x : Parameter} (hroot : owner.rootParameter? = some x)
    (hpath : owner.memberPath.isEmpty = true) : ∃ id, owner = .parameter id x := by
  cases owner with
  | parameter id y =>
    cases hroot
    exact ⟨id, rfl⟩
  | member id owner name => simp [memberPath] at hpath
  | _ => cases hroot

end Expr

namespace Sql.Compiler

variable {c : Compiler}

theorem rootColumn_eq_ok {column : Text} {t : Term} :
    c.rootColumn column = .ok t ↔ identifierFault? column = none ∧ t = .column c.rootAlias? column := by
  unfold rootColumn Compiler.column
  cases identifierFault? column with
  | some fault => simp
  | none => simp [eq_comm]

theorem rootMember_eq_ok {entity : Entity} {source : Expr} {member : Text} {t : Term} :
    c.rootMember entity source member = .ok t ↔
      ∃ column, entity.columnFor? member = some column ∧ c.rootColumn column = .ok t := by
  unfold rootMember Entity.columnFor?
  cases entity.property? member with
  | some f => simp
  | none =>
    cases (entity.navigation? member).map Navigation.relationship with
    | none => simp
    | some relationship => cases relationship <;> simp

theorem rowMember_parameter {x : Parameter} {source : Expr} {id : NodeId} {member : Text} {t : Term} :
    c.rowMember x source (.parameter id x) member = .ok t ↔
      ∃ entity, c.registry.get x.entity = .ok entity ∧
        ∃ column, entity.columnFor? member = some column ∧ c.rootColumn column = .ok t := by
  unfold rowMember
  rw [Result.bind_eq_ok]
  simp only [Expr.memberPath, List.isEmpty_nil, if_true, rootMember_eq_ok]

-- A member behind navigations is a column of the include that they lead to.
theorem rowMember_of_path {x : Parameter} {source owner : Expr} {member : Text} {t : Term}
    (hpath : owner.memberPath ≠ []) (h : c.rowMember x source owner member = .ok t) :
    ∃ plan node f, c.includes = some plan ∧ plan.find? (navigationPath owner) = some node ∧
      node.target.property? member = some f ∧ t = .column (some node.aliasName) f.column := by
  obtain ⟨entity, -, h⟩ := Result.bind_eq_ok.mp h
  rw [if_neg (by simpa using hpath), includedMember] at h
  split at h
  · cases h
  · next node hincluded =>
    obtain ⟨plan, hincludes, hfound⟩ := Option.bind_eq_some_iff.mp hincluded
    split at h
    · cases h
    · next f hfield => exact ⟨plan, node, f, hincludes, hfound, hfield, eq_of_column h⟩

-- A member of a parameter is a column of the root, whatever its entity.
theorem yields_parameterMember {x : Parameter} (hx : x.group = false) {group : GroupColumns}
    {id owner : NodeId} {member : Text} {before after : State} {t : Term} :
    Yields (c.term group (.member id (.parameter owner x) member)) before t after ↔
      (∃ entity column, c.registry.get x.entity = .ok entity ∧
        entity.columnFor? member = some column ∧ identifierFault? column = none ∧
        t = .column c.rootAlias? column) ∧ after = before := by
  have hlength : c.isLengthOf (.parameter owner x) member = false := by
    simp [isLengthOf, field?]
  have hterm : c.term group (.member id (.parameter owner x) member) =
      liftM (c.rowMember x (.member id (.parameter owner x) member) (.parameter owner x) member) := by
    rw [term, known, if_pos (by rfl), Compiler.member]
    simp [Expr.rootParameter?, hx, hlength]
  rw [hterm, Yields.lift_iff, rowMember_parameter]
  simp only [rootColumn_eq_ok, exists_and_left]

end Sql.Compiler

namespace Query

open Sql (Term Compiler)
open Sql.Compiler (Step State)

-- A column of the root: one of its own entity, or else one of another entity
-- whose parameter an expression reads.
inductive Plan.OwnColumn (registry : Registry) (p : Plan) (expressions : List Expr)
    (column : Text) : Prop where
  | ofRoot {entity member} (hentity : registry.get p.root.type = .ok entity)
      (hcolumn : entity.columnFor? member = some column)
  | ofParameter {e x member entity} (he : e ∈ expressions) (hread : e.Reads x member)
      (hforeign : x.entity ≠ p.root.type) (hentity : registry.get x.entity = .ok entity)
      (hcolumn : entity.columnFor? member = some column)

-- A column behind an include: the names of the navigations lead to it, whatever
-- the parameter that they start from.
inductive JoinedColumn (includes : Option Include.Plan) (expressions : List Expr)
    (aliasName column : Text) : Prop where
  | mk {e id owner member plan node f} (he : e ∈ expressions)
      (hnode : Expr.member id owner member ∈ e.nodes) (hincludes : includes = some plan)
      (hfound : plan.find? (Compiler.navigationPath owner) = some node)
      (halias : node.aliasName = aliasName)
      (hfield : node.target.property? member = some f) (hcolumn : f.column = column)

variable {s : Services} {env : Environment} {c : Compiler} {p : Plan} {expressions : List Expr}

-- A column that is attributed by one of the two.
inductive Attributes (c : Compiler) (p : Plan) (expressions : List Expr) :
    Option Text → Text → Prop where
  | own {column} (h : p.OwnColumn c.registry expressions column) :
      Attributes c p expressions c.rootAlias? column
  | joined {aliasName column} (h : JoinedColumn c.includes expressions aliasName column) :
      Attributes c p expressions (some aliasName) column

def Attributed (c : Compiler) (p : Plan) (expressions : List Expr) (t : Term) : Prop :=
  ∀ table column, (Term.column table column).Occurs t → Attributes c p expressions table column

theorem Plan.ownColumn_of_reads {e : Expr} (he : e ∈ expressions) {x : Parameter} {member : Text}
    (hread : e.Reads x member) {entity : Entity} (hentity : c.registry.get x.entity = .ok entity)
    {column : Text} (hcolumn : entity.columnFor? member = some column) :
    p.OwnColumn c.registry expressions column := by
  by_cases hroot : x.entity = p.root.type
  · exact .ofRoot (hroot ▸ hentity) hcolumn
  · exact .ofParameter he hread hroot hentity hcolumn

theorem attributed_column {table : Option Text} {column : Text}
    (h : Attributes c p expressions table column) :
    Attributed c p expressions (.column table column) := by
  intro table' column' hoccurs
  cases hoccurs with
  | here => exact h
  | inside hmem _ => cases hmem

theorem attributed_of_not_column {t : Term} (hoperands : t.operands = [])
    (ht : ∀ table column, t ≠ .column table column) : Attributed c p expressions t := by
  intro table column hoccurs
  cases hoccurs with
  | here => exact absurd rfl (ht table column)
  | inside hmem _ =>
    rw [hoperands] at hmem
    cases hmem

theorem attributed_rowMember {e : Expr} (he : e ∈ expressions) {id : NodeId} {owner : Expr}
    {member : Text} (hnode : .member id owner member ∈ e.nodes) {x : Parameter}
    (hroot : owner.rootParameter? = some x) (hx : x.group = false) {t : Term}
    (ht : c.rowMember x (.member id owner member) owner member = .ok t) :
    Attributed c p expressions t := by
  by_cases hpath : owner.memberPath.isEmpty = true
  · obtain ⟨id, rfl⟩ := Expr.exists_parameter hroot hpath
    obtain ⟨entity, hentity, column, hcolumn, ht⟩ := Compiler.rowMember_parameter.mp ht
    rw [(Compiler.rootColumn_eq_ok.mp ht).2]
    exact attributed_column (.own (p.ownColumn_of_reads he ⟨hx, _, _, hnode⟩ hentity hcolumn))
  · obtain ⟨plan, node, f, hincludes, hfound, hfield, rfl⟩ :=
      Compiler.rowMember_of_path (by simpa using hpath) ht
    exact attributed_column (.joined (.mk he hnode hincludes hfound rfl hfield rfl))

theorem attributing (c : Compiler) (p : Plan) (expressions : List Expr)
    (group : Compiler.GroupColumns) :
    c.Invariant group (fun n => ∃ e ∈ expressions, n ∈ e.nodes) (Attributed c p expressions) where
  frame := by
    intro t ht hoperands table column hoccurs
    obtain ⟨o, ho, hoccurs⟩ := hoccurs.exists_operand ht id
    exact hoperands o ho table column hoccurs
  value _ := attributed_of_not_column rfl (by simp)
  placeholder _ := attributed_of_not_column rfl (by simp)
  groupKey _ _ := attributed_of_not_column rfl (by simp)
  row := by
    rintro id owner name x t ⟨e, he, hnode⟩ hroot hx ht
    exact attributed_rowMember he hnode hroot hx ht

-- A group key is looked up like a member, but is never a reference.
theorem attributed_keyColumn (hkeys : p.clauses.groupKeys ⊆ expressions) {t : Term}
    (h : KeyColumn c p t) : Attributed c p expressions t := by
  obtain ⟨key, hkey, h⟩ := h
  unfold Compiler.selectedColumn? at h
  split at h
  · next id owner x member hbody =>
    split at h
    · cases h
    · next f hfound =>
      have hx : x.group = false := by
        by_contra hx
        simp [hx] at hfound
      simp only [hx, Bool.false_eq_true, if_false, Option.bind_eq_some_iff] at hfound
      obtain ⟨entity, hentity, hproperty⟩ := hfound
      have hget : c.registry.get x.entity = .ok entity := by rw [Registry.get, hentity]
      have hcolumn : entity.columnFor? member = some f.column := by
        rw [Entity.columnFor?, hproperty]
      have hread : key.Reads x member :=
        ⟨hx, id, owner, Expr.mem_nodes_of_body (hbody ▸ Expr.mem_nodes_self _)⟩
      cases hroot : c.rootColumn f.column with
      | error e =>
        rw [hroot] at h
        cases h
      | ok u =>
        rw [hroot] at h
        cases h
        rw [(Compiler.rootColumn_eq_ok.mp hroot).2]
        exact attributed_column (.own (p.ownColumn_of_reads (hkeys hkey) hread hget hcolumn))
  · cases h

theorem attributed_namedColumn {name : Text} {t : Term} (h : p.clauses.namedColumn c name = .ok t) :
    Attributed c p expressions t := by
  unfold Clauses.namedColumn at h
  split at h
  · cases h
  · obtain ⟨entity, hentity, column, hcolumn, ht⟩ := Compiler.rowMember_parameter.mp h
    rw [(Compiler.rootColumn_eq_ok.mp ht).2]
    exact attributed_column (.own (.ofRoot hentity hcolumn))

theorem Origin.attributed (hkeys : p.clauses.groupKeys ⊆ expressions) {t : Term}
    (h : Origin c p expressions t) : Attributed c p expressions t := by
  cases h with
  | expression he hgroup h => exact (attributing c p expressions _).good_of_term (fun n hn => ⟨_, he, hn⟩) h
  | constant h => exact (attributing c p expressions none).good_of_constant h
  | groupKey h => exact attributed_keyColumn hkeys h
  | named hname h => exact attributed_namedColumn h

-- The columns of one SELECT that is made from the plan.
structure Select.AttributedTo (s : Services) (env : Environment) (v : Variant) (p : Plan)
    (includes : Option Include.Plan) (q : Select) : Prop where
  includePlan : p.clauses.includePlan s v = .ok includes
  source : p.clauses.source (s.compiler env p.root includes).rootAlias? = .ok q.parts.source
  own : ∀ t ∈ q.terms, ∀ column,
    (Term.column (s.compiler env p.root includes).rootAlias? column).Occurs t →
      p.OwnColumn s.registry (p.ownExpressions ++ v.expressions) column
  joined : ∀ t ∈ q.terms, ∀ table column, (Term.column table column).Occurs t →
    table ≠ (s.compiler env p.root includes).rootAlias? → ∃ aliasName, table = some aliasName ∧
      JoinedColumn includes (p.ownExpressions ++ v.expressions) aliasName column
  parameter : ∀ x, x.group = false → ∀ id owner member before after t,
    Yields ((s.compiler env p.root includes).expression
      (some (.member id (.parameter owner x) member))) before t after ↔
      (∃ entity column, s.registry.get x.entity = .ok entity ∧
        entity.columnFor? member = some column ∧ Sql.identifierFault? column = none ∧
        t = .column (s.compiler env p.root includes).rootAlias? column) ∧ after = before

-- The root has an alias that no include has.
theorem rootAlias?_ne_of_joinedColumn {v : Variant} {includes : Option Include.Plan}
    (hincludes : p.clauses.includePlan s v = .ok includes) {aliasName column : Text}
    (h : JoinedColumn includes expressions aliasName column) :
    (s.compiler env p.root includes).rootAlias? ≠ some aliasName := by
  obtain ⟨-, -, rfl, hfound, rfl, -, -⟩ := h
  rename_i plan node _
  obtain ⟨hsound, -⟩ := Include.Plan.sound_ofPaths (Clauses.ofPaths_of_includePlan hincludes)
  have hnode : node ∈ plan.nodes := Compiler.mem_nodes_of_find? hfound
  obtain ⟨i, hi⟩ := List.mem_iff_getElem?.mp hnode
  have hnumber := hsound.number i node hi
  intro hroot
  rcases rootAlias?_eq (s.compiler env p.root (some plan)) with hnone | hsome
  · rw [hnone] at hroot
    cases hroot
  · rw [hsome, Include.Node.rootAlias_eq] at hroot
    have hzero := Include.Node.aliasOf_injective (Option.some.inj hroot)
    omega

theorem Select.MadeFrom.attributedTo {v : Variant} {q : Select} (h : q.MadeFrom s env v p) :
    ∃ includes, q.AttributedTo s env v p includes := by
  obtain ⟨includes, hincludes, hsource, hterms⟩ := h.exists_compiler
  have hkeys : p.clauses.groupKeys ⊆ p.ownExpressions ++ v.expressions := fun e he => by
    simp [Plan.ownExpressions, he]
  have hall : ∀ t ∈ q.terms, Attributed (s.compiler env p.root includes) p
      (p.ownExpressions ++ v.expressions) t := fun t ht => (hterms t ht).attributed hkeys
  refine ⟨includes, hincludes, hsource, fun t ht column hoccurs => ?_,
    fun t ht table column hoccurs hne => ?_, fun x hx id owner member before after t =>
      Compiler.yields_parameterMember hx⟩
  · generalize hroot : (s.compiler env p.root includes).rootAlias? = table at hoccurs
    cases hall t ht table column hoccurs with
    | own hcolumn => exact hcolumn
    | joined hjoined => exact absurd hroot (rootAlias?_ne_of_joinedColumn hincludes hjoined)
  · cases hall t ht table column hoccurs with
    | own _ => exact absurd rfl hne
    | joined hjoined => exact ⟨_, rfl, hjoined⟩

-- Every column of a statement is one of the tables that its own SELECT reads.
theorem attributes_columns {v : Variant} {p : Plan} {before after : State} {q : Select}
    {includes : Option Include.Plan} (h : Yields (select s env v p) before (q, includes) after) :
    (∃ includes, q.AttributedTo s env v p includes) ∧
      ∀ r ∈ q.inner, ∃ p' ∈ p.subplans, ∃ includes, r.AttributedTo s env {} p' includes := by
  obtain ⟨hmade, hinner⟩ := origins_select p h
  refine ⟨hmade.attributedTo, fun r hr => ?_⟩
  obtain ⟨p', hp', hmade'⟩ := hinner r hr
  exact ⟨p', hp', hmade'.attributedTo⟩

-- The posts that have been commented on. The key of the post, which the query
-- around this one reads, has become the key of the comment.

def commentsOfPost : Plan where
  clauses := { root := Catalogue.commentEntity }
  conditions :=
    [.predicate (.binary 4 .equal
      (.member 1 (.parameter 0 ⟨"c", Catalogue.comment, false⟩) "PostId")
      (.member 3 (.parameter 2 ⟨"p", Catalogue.post, false⟩) "Id"))]

def commentedPosts : Plan where
  clauses := { root := Catalogue.postEntity }
  conditions := [.exists commentsOfPost false]

theorem attributes_columns_commentedPosts :
    ∃ q includes after,
      Yields (select readServices readEnvironment {} commentedPosts) {}
        (q, includes) after ∧
      q.text = "SELECT \"posts\".* FROM \"posts\" WHERE EXISTS (SELECT \"comments\".* " ++
        "FROM \"comments\" WHERE (\"post_id\" = \"id\"))" ∧
      ∀ r ∈ q.inner, ∃ p' ∈ commentedPosts.subplans, ∃ includes,
        r.AttributedTo readServices readEnvironment {} p' includes := by
  obtain ⟨q, includes, after, hrender, htext⟩ : ∃ q includes after,
      Yields (select readServices readEnvironment {} commentedPosts) {}
        (q, includes) after ∧
      q.text = "SELECT \"posts\".* FROM \"posts\" WHERE EXISTS (SELECT \"comments\".* " ++
        "FROM \"comments\" WHERE (\"post_id\" = \"id\"))" :=
    ⟨_, _, _, rfl, by decide⟩
  exact ⟨q, includes, after, hrender, htext, (attributes_columns hrender).2⟩

end Query

end EntitySql
