import EntitySql.Schema

-- Expression trees over entities. Every node has an identity of its own, by
-- which compiled accessors are remembered; a node that several trees share
-- is one node.

namespace EntitySql

abbrev NodeId := Nat

structure Parameter where
  name : Text
  entity : EntityType
  group : Bool := false
  deriving DecidableEq

inductive Comparison where
  | less
  | lessOrEqual
  | greater
  | greaterOrEqual
  deriving DecidableEq

inductive Arithmetic where
  | add
  | subtract
  | multiply
  | divide
  | modulo
  deriving DecidableEq

inductive BinaryOp where
  | equal
  | notEqual
  | compare (c : Comparison)
  | and
  | or
  | arithmetic (a : Arithmetic)
  | coalesce
  deriving DecidableEq

def BinaryOp.symbol : BinaryOp → Text
  | .equal => "=="
  | .notEqual => "!="
  | .compare .less => "<"
  | .compare .lessOrEqual => "<="
  | .compare .greater => ">"
  | .compare .greaterOrEqual => ">="
  | .and => "&&"
  | .or => "||"
  | .arithmetic .add => "+"
  | .arithmetic .subtract => "-"
  | .arithmetic .multiply => "*"
  | .arithmetic .divide => "/"
  | .arithmetic .modulo => "%"
  | .coalesce => "??"

def BinaryOp.all : List BinaryOp :=
  [.equal, .notEqual, .compare .less, .compare .lessOrEqual, .compare .greater,
    .compare .greaterOrEqual, .and, .or, .arithmetic .add, .arithmetic .subtract,
    .arithmetic .multiply, .arithmetic .divide, .arithmetic .modulo, .coalesce]

def BinaryOp.ofSymbol? (t : Text) : Option BinaryOp := all.find? (·.symbol == t)

-- A captured variable is read from its slot among the variables of the host.
inductive Expr where
  | parameter (id : NodeId) (p : Parameter)
  | member (id : NodeId) (owner : Expr) (name : Text)
  | constant (id : NodeId) (value : Value)
  | captured (id : NodeId) (name : Text) (slot : Nat)
  | call (id : NodeId) (target : Expr) (method : Text) (args : List Expr)
  | staticCall (id : NodeId) (method : Text) (args : List Expr)
  | binary (id : NodeId) (op : BinaryOp) (left right : Expr)
  | not (id : NodeId) (operand : Expr)
  | negate (id : NodeId) (operand : Expr)
  | convert (id : NodeId) (operand : Expr) (type : Option FieldType)
  | conditional (id : NodeId) (test ifTrue ifFalse : Expr)
  | array (id : NodeId) (elements : List Expr)
  | initializer (id : NodeId) (entity : EntityType) (bindings : List (Text × Expr))
  | lambda (id : NodeId) (p : Parameter) (body : Expr)

namespace Expr

def id : Expr → NodeId
  | .parameter id _ => id
  | .member id _ _ => id
  | .constant id _ => id
  | .captured id _ _ => id
  | .call id _ _ _ => id
  | .staticCall id _ _ => id
  | .binary id _ _ _ => id
  | .not id _ => id
  | .negate id _ => id
  | .convert id _ _ => id
  | .conditional id _ _ _ => id
  | .array id _ => id
  | .initializer id _ _ => id
  | .lambda id _ _ => id

def kindName : Expr → Text
  | .parameter .. => "Parameter"
  | .member .. => "Member"
  | .constant .. => "Constant"
  | .captured .. => "Captured"
  | .call .. => "MethodCall"
  | .staticCall .. => "MethodCall"
  | .binary .. => "Binary"
  | .not .. => "Unary"
  | .negate .. => "Unary"
  | .convert .. => "Unary"
  | .conditional .. => "Conditional"
  | .array .. => "NewArray"
  | .initializer .. => "MemberInit"
  | .lambda .. => "Lambda"

-- The parameter at the start of a chain of members.
def rootParameter? : Expr → Option Parameter
  | .parameter _ p => some p
  | .member _ owner _ => owner.rootParameter?
  | _ => none

-- The member names of a chain, from the start outwards.
def memberPath : Expr → List Text
  | .member _ owner name => owner.memberPath ++ [name]
  | _ => []

mutual

-- Whether a value of the expression can depend on a row; a lambda always
-- does.
def referencesParameter : Expr → Bool
  | .parameter .. => true
  | .member _ owner _ => referencesParameter owner
  | .constant .. => false
  | .captured .. => false
  | .call _ target _ args => referencesParameter target || anyReferencesParameter args
  | .staticCall _ _ args => anyReferencesParameter args
  | .binary _ _ l r => referencesParameter l || referencesParameter r
  | .not _ e => referencesParameter e
  | .negate _ e => referencesParameter e
  | .convert _ e _ => referencesParameter e
  | .conditional _ t a b =>
    referencesParameter t || referencesParameter a || referencesParameter b
  | .array _ elements => anyReferencesParameter elements
  | .initializer _ _ bindings => anyBindingReferencesParameter bindings
  | .lambda .. => true

def anyReferencesParameter : List Expr → Bool
  | [] => false
  | e :: rest => referencesParameter e || anyReferencesParameter rest

def anyBindingReferencesParameter : List (Text × Expr) → Bool
  | [] => false
  | (_, e) :: rest => referencesParameter e || anyBindingReferencesParameter rest

end

mutual

-- The first parameter of the tree, from left to right.
def findParameter? : Expr → Option Parameter
  | .parameter _ p => some p
  | .member _ owner _ => findParameter? owner
  | .constant .. => none
  | .captured .. => none
  | .call _ target _ args => (findParameter? target).or (findParameterIn? args)
  | .staticCall _ _ args => findParameterIn? args
  | .binary _ _ l r => (findParameter? l).or (findParameter? r)
  | .not _ e => findParameter? e
  | .negate _ e => findParameter? e
  | .convert _ e _ => findParameter? e
  | .conditional _ t a b => (findParameter? t).or ((findParameter? a).or (findParameter? b))
  | .array _ elements => findParameterIn? elements
  | .initializer _ _ bindings => findParameterInBindings? bindings
  | .lambda _ p _ => some p

def findParameterIn? : List Expr → Option Parameter
  | [] => none
  | e :: rest => (findParameter? e).or (findParameterIn? rest)

def findParameterInBindings? : List (Text × Expr) → Option Parameter
  | [] => none
  | (_, e) :: rest => (findParameter? e).or (findParameterInBindings? rest)

end

-- The body of a lambda; any other expression is its own body.
def body : Expr → Expr
  | .lambda _ _ b => b
  | e => e

end Expr

end EntitySql
