import EntitySql.Sql.Compiler

-- Members of rows and of groups as columns. A chain of references must have
-- been included, and then reads a column of the table joined for it.

namespace EntitySql.Sql.Compiler

-- Expressions over groups may use the group columns; elsewhere there are
-- none.
abbrev GroupColumns := Option (List Text)

-- A group has one member: its key, if that is a single column.
def groupMember (group : GroupColumns) (source owner : Expr) (name : Text) : Result Term :=
  if owner.memberPath.isEmpty && name == "Key" then
    match group with
    | none => .error (.unsupported .keyOutsideHaving source.text)
    | some [] => .error (.contract .havingWithoutGroupColumns)
    | some [column] => .ok (.groupKey column)
    | some (_ :: _ :: _) => .error (.contract (.compositeKey source.text))
  else .error (.unsupported .groupMember source.text)

-- A field of the root. A reference stands for its foreign key, so that it
-- can be compared with null.
def rootMember (c : Compiler) (entity : Entity) (source : Expr) (name : Text) : Result Term :=
  match entity.property? name with
  | some f => c.rootColumn f.column
  | none =>
    match (entity.navigation? name).map Navigation.relationship with
    | some (.reference foreignKey) => c.rootColumn foreignKey
    | _ => .error (.unresolved (.mappedProperty name entity.name) source.text)

def includedMember (c : Compiler) (source owner : Expr) (name : Text) : Result Term :=
  match c.included? owner with
  | none => .error (.unresolved (.notIncluded (navigationPath owner)) source.text)
  | some node =>
    match node.target.property? name with
    | none => .error (.unresolved (.mappedProperty name node.target.name) source.text)
    | some f => column (some node.aliasName) f.column

-- Whether the length of the owner is meant and not a member of that name.
def isLengthOf (c : Compiler) (owner : Expr) (name : Text) : Bool :=
  name == "Length" && ((c.field? owner).map (·.type.isTextual)).getD false

def rowMember (c : Compiler) (p : Parameter) (source owner : Expr) (name : Text) : Result Term := do
  let entity ← c.registry.get p.entity
  if owner.memberPath.isEmpty then c.rootMember entity source name
  else c.includedMember source owner name

-- A member of an expression, given the owner's own term.
def member (c : Compiler) (group : GroupColumns) (source owner : Expr) (name : Text)
    (ownerTerm : Step Term) : Step Term :=
  match owner.rootParameter? with
  | none =>
    if name == "Length" then return .apply .length (← ownerTerm)
    else throw (.unsupported (.member name) source.text)
  | some p =>
    if p.group then liftM (groupMember group source owner name)
    else if c.isLengthOf owner name then return .apply .length (← ownerTerm)
    else liftM (c.rowMember p source owner name)

end EntitySql.Sql.Compiler
