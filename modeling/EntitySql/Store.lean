import EntitySql.Schema

-- Instances of entities. They refer to each other by their place in a
-- store, so shared and cyclic graphs are plain data.

namespace EntitySql

abbrev InstanceId := Nat

structure Instance where
  type : EntityType
  values : List (Text × Value)
  links : List (Text × List InstanceId)

namespace Instance

-- Every member as in a new instance, and no links.
def new (e : Entity) : Instance :=
  ⟨e.type, e.fields.map fun f => (f.property, f.member.initial),
    e.navigations.map fun n => (n.property, [])⟩

def value (i : Instance) (f : Field) : Value := (i.values.lookup f.property).getD .null

def replace {α : Type} (key : Text) (change : α → α) : List (Text × α) → List (Text × α)
  | [] => []
  | (k, a) :: rest => if k = key then (k, change a) :: rest else (k, a) :: replace key change rest

-- Stores a value as the member of the field takes it.
def set (i : Instance) (f : Field) (v : Value) : Result Instance := do
  let accepted ← f.member.accept v
  return { i with values := replace f.property (fun _ => accepted) i.values }

def linked (i : Instance) (n : Navigation) : List InstanceId :=
  (i.links.lookup n.property).getD []

-- A reference is replaced, a collection grows at its end.
def link (i : Instance) (n : Navigation) (target : InstanceId) : Instance :=
  let add (targets : List InstanceId) := if n.isCollection then targets ++ [target] else [target]
  { i with links := replace n.property add i.links }

end Instance

structure Store where
  instances : List Instance := []

namespace Store

def get? (s : Store) (id : InstanceId) : Option Instance := s.instances[id]?

def size (s : Store) : Nat := s.instances.length

def insert (s : Store) (i : Instance) : Store × InstanceId :=
  (⟨s.instances ++ [i]⟩, s.instances.length)

def update (s : Store) (id : InstanceId) (change : Instance → Instance) : Store :=
  ⟨s.instances.modify id change⟩

end Store

end EntitySql
