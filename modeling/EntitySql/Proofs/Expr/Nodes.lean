import EntitySql.Expr

-- The nodes of an expression tree, itself among them.

namespace EntitySql.Expr

mutual

def nodes : Expr → List Expr
  | .parameter id p => [.parameter id p]
  | .member id owner name => .member id owner name :: nodes owner
  | .constant id v => [.constant id v]
  | .captured id name slot => [.captured id name slot]
  | .call id target method args =>
    .call id target method args :: (nodes target ++ nodesOf args)
  | .staticCall id method args => .staticCall id method args :: nodesOf args
  | .binary id op l r => .binary id op l r :: (nodes l ++ nodes r)
  | .not id e => .not id e :: nodes e
  | .negate id e => .negate id e :: nodes e
  | .convert id e type => .convert id e type :: nodes e
  | .conditional id test a b => .conditional id test a b :: (nodes test ++ nodes a ++ nodes b)
  | .array id items => .array id items :: nodesOf items
  | .initializer id entity bindings => .initializer id entity bindings :: nodesOfBindings bindings
  | .lambda id p b => .lambda id p b :: nodes b

def nodesOf : List Expr → List Expr
  | [] => []
  | e :: rest => nodes e ++ nodesOf rest

def nodesOfBindings : List (Text × Expr) → List Expr
  | [] => []
  | (_, e) :: rest => nodes e ++ nodesOfBindings rest

end

theorem mem_nodes_self (e : Expr) : e ∈ e.nodes := by
  cases e <;> simp [nodes]

theorem mem_nodes_of_body {e n : Expr} (h : n ∈ e.body.nodes) : n ∈ e.nodes := by
  cases e with
  | lambda id p body => exact List.mem_cons_of_mem _ h
  | _ => exact h

theorem mem_nodesOfBindings {bindings : List (Text × Expr)} {b : Text × Expr} {n : Expr}
    (hb : b ∈ bindings) (hn : n ∈ b.2.nodes) : n ∈ nodesOfBindings bindings := by
  induction bindings with
  | nil => cases hb
  | cons first rest ih =>
    rw [nodesOfBindings, List.mem_append]
    rcases List.mem_cons.mp hb with rfl | hb
    · exact .inl hn
    · exact .inr (ih hb)

end EntitySql.Expr
