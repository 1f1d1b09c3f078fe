import EntitySql.Conversion.Generic
import EntitySql.Eval.Operators
import EntitySql.Store

-- Evaluating expressions. An expression is first turned into an accessor,
-- which fails if its form has no value; the accessor then reads an entity
-- and the captured variables as they are at that time. A navigation that
-- leads nowhere has the value null.

namespace EntitySql

-- The current values of the captured variables, by slot.
abbrev Captures := Nat → Value

structure Scope where
  captures : Captures
  store : Store := {}
  entity : Option InstanceId := none

abbrev Accessor := Scope → Result Value

namespace Eval

-- An expression that stands for an entity, and how to find its instance.
structure Path where
  entity : Entity
  locate : Scope → Option InstanceId

def follow (n : Navigation) (locate : Scope → Option InstanceId) (s : Scope) :
    Option InstanceId := do
  let instance_ ← s.store.get? (← locate s)
  (instance_.linked n).head?

-- Parameters over rows and the references behind them stand for entities.
def path? (registry : Registry) : Expr → Result (Option Path)
  | .parameter _ p =>
    if p.group then .ok none
    else (registry.get p.entity).map fun e => some ⟨e, fun s => s.entity⟩
  | .member _ owner name => do
    match ← path? registry owner with
    | none => return none
    | some path =>
      match path.entity.navigation? name with
      | none => return none
      | some n =>
        if n.isCollection then return none
        else do
          let target ← registry.get n.target
          return some ⟨target, follow n path.locate⟩
  | _ => .ok none

def readField (f : Field) (locate : Scope → Option InstanceId) (s : Scope) : Result Value :=
  match locate s with
  | none => .ok .null
  | some id => .ok (((s.store.get? id).map (·.value f)).getD .null)

-- The right operand of equality and arithmetic is evaluated first.
def binaryAccessor (op : BinaryOp) (l r : Accessor) (source : Expr) : Accessor := fun s =>
  match op with
  | .and => do
    if ← isTrue (← l s) then return .bool (← isTrue (← r s)) else return .bool false
  | .or => do
    if ← isTrue (← l s) then return .bool true else return .bool (← isTrue (← r s))
  | .coalesce => do
    let a ← l s
    if a.isNull then r s else return a
  | .equal => do
    let b ← r s
    let a ← l s
    return .bool (valuesEqual a b)
  | .notEqual => do
    let b ← r s
    let a ← l s
    return .bool (!valuesEqual a b)
  | .compare c => do
    let a ← l s
    let b ← r s
    if a.isNull || b.isNull then return .bool false
    else return .bool (holds c (← compareValues a b source))
  | .arithmetic op => do
    let b ← r s
    let a ← l s
    arithmetic op a b source

def noValue (e : Expr) : Result Accessor := .error (.unsupported (.noValue e.kindName) e.text)

def collect (items : List Accessor) (s : Scope) : Result (List Value) := items.mapM (· s)

def methodAccessor (method : Text) (target : Accessor) (args : List Accessor) (source : Expr) :
    Accessor := fun s => do
  let t ← target s
  let values ← collect args s
  applyMethod method t values source

mutual

def accessor (registry : Registry) : Expr → Result Accessor
  | .constant _ v => .ok fun _ => .ok v
  | .captured _ _ slot => .ok fun s => .ok (s.captures slot)
  | .member id owner name => do
    match ← path? registry owner with
    | some path =>
      match path.entity.property? name with
      | some f => return readField f path.locate
      | none =>
        throw (.unresolved (.mappedColumn name path.entity.name) (Expr.member id owner name).text)
    | none =>
      let object ← accessor registry owner
      return fun s => do memberOf (← object s) name (.member id owner name)
  | .binary id op l r => do
    let left ← accessor registry l
    let right ← accessor registry r
    return binaryAccessor op left right (.binary id op l r)
  | .not _ e => do
    let operand ← accessor registry e
    return fun s => do
      let v ← operand s
      if v.isNull then return .null else return .bool (!(← v.asBool))
  | .negate id e => do
    let operand ← accessor registry e
    return fun s => do negated (← operand s) (.negate id e)
  | .convert _ e type => do
    let operand ← accessor registry e
    match type with
    | none => return operand
    | some t => return fun s => do Conversion.fromDatabase t t (← operand s)
  | .conditional _ test a b => do
    let test ← accessor registry test
    let a ← accessor registry a
    let b ← accessor registry b
    return fun s => do if ← isTrue (← test s) then a s else b s
  | .array _ elements => do
    let items ← accessors registry elements
    return fun s => (collect items s).map .array
  | .call id target method args =>
    if methods.elem method then do
      let t ← accessor registry target
      let rest ← accessors registry args
      return methodAccessor method t rest (.call id target method args)
    else .error (.unsupportedMethod method (Expr.call id target method args).text)
  | .staticCall id method args =>
    if methods.elem method then
      match args with
      | [] => .error (.unsupportedMethod method (Expr.staticCall id method []).text)
      | target :: others => do
        let t ← accessor registry target
        let rest ← accessors registry others
        return methodAccessor method t rest (.staticCall id method (target :: others))
    else .error (.unsupportedMethod method (Expr.staticCall id method args).text)
  | .parameter id p => noValue (.parameter id p)
  | .initializer id entity bindings => noValue (.initializer id entity bindings)
  | .lambda id p b => noValue (.lambda id p b)

def accessors (registry : Registry) : List Expr → Result (List Accessor)
  | [] => .ok []
  | e :: rest => do
    let first ← accessor registry e
    let others ← accessors registry rest
    return first :: others

end

end Eval

end EntitySql
