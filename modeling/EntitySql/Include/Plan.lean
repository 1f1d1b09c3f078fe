import EntitySql.Include.Path
import EntitySql.Schema

-- The tree of navigations that a list of include paths asks for. Paths with
-- a common beginning share its nodes. Nodes are numbered from 1 in the order
-- in which they are first needed, so a node always follows its parent.

namespace EntitySql.Include

structure Node where
  number : Nat
  parent : Option Nat
  path : Text
  navigation : Navigation
  source : Entity
  target : Entity
  deriving DecidableEq

namespace Node

def rootAlias : Text := "t0"

def aliasOf (number : Nat) : Text := "t" ++ Text.ofNat number

def aliasName (n : Node) : Text := aliasOf n.number

def parentAlias (n : Node) : Text := (n.parent.map aliasOf).getD rootAlias

def junctionAlias (n : Node) : Text := "jt_" ++ n.aliasName

-- Only a many-to-many hop has a junction table.
def junctionAlias? (n : Node) : Option Text :=
  match n.navigation.relationship with
  | .manyToMany .. => some n.junctionAlias
  | _ => none

def isCollection (n : Node) : Bool := n.navigation.isCollection

end Node

structure Plan where
  root : Entity
  nodes : List Node := []

namespace Plan

def isEmpty (p : Plan) : Bool := p.nodes.isEmpty

-- By the exact dotted path, or else the first that differs only in case.
def find? (p : Plan) (path : Text) : Option Node :=
  (p.nodes.find? (·.path = path)).or (p.nodes.find? fun n => Text.sameFolded n.path path)

-- The name in the result set of a column behind an alias.
def columnAlias (aliasName column : Text) : Text := aliasName ++ Byte.underscore :: column

-- The keys that a hop joins on must exist. A reference needs its column on
-- the declaring entity, a collection on the target.
def checkKeys (source target : Entity) (n : Navigation) : Result Unit :=
  match n.relationship with
  | .reference column =>
    if (source.column? column).isNone then
      .error (.contract (.unmappedForeignKey column source.name))
    else if target.primaryKey?.isNone then .error (.contract (.noKeyToJoin target.name))
    else .ok ()
  | .collection column =>
    if (target.column? column).isNone then
      .error (.contract (.unmappedForeignKey column target.name))
    else if source.primaryKey?.isNone then .error (.contract (.noKeyToJoin source.name))
    else .ok ()
  | .manyToMany .. =>
    if source.primaryKey?.isNone || target.primaryKey?.isNone then
      .error (.contract (.junctionWithoutKeys n.property))
    else .ok ()

def newNode (registry : Registry) (p : Plan) (parent : Option Node) (segment fullPath : Text) :
    Result Node := do
  let source := (parent.map Node.target).getD p.root
  match source.navigation? segment with
  | none => throw (.unresolved (.navigation segment source.name) fullPath)
  | some navigation =>
    let target ← registry.get navigation.target
    checkKeys source target navigation
    let path := match parent with
      | none => navigation.property
      | some node => node.path ++ Byte.dot :: navigation.property
    return ⟨p.nodes.length + 1, parent.map Node.number, path, navigation, source, target⟩

def child? (p : Plan) (parent : Option Node) (segment : Text) : Option Node :=
  p.nodes.find? fun n => n.parent = parent.map Node.number ∧ n.navigation.property = segment

-- Walks down the segments below a node and adds the nodes that are missing.
def addSegments (registry : Registry) (fullPath : Text) (p : Plan) (parent : Option Node) :
    List Text → Result Plan
  | [] => .ok p
  | segment :: rest =>
    match p.child? parent segment with
    | some node => addSegments registry fullPath p (some node) rest
    | none => do
      let node ← newNode registry p parent segment fullPath
      addSegments registry fullPath { p with nodes := p.nodes ++ [node] } (some node) rest

def addPath (registry : Registry) (maxDepth : Int) (p : Plan) (path : Text) : Result Plan :=
  match fault? maxDepth path with
  | some fault => .error (.contract (.path fault))
  | none => addSegments registry path p none (segments path)

def ofPaths (registry : Registry) (maxDepth : Int) (root : Entity) (paths : List Text) :
    Result Plan :=
  if maxDepth < 1 then .error (.configuration .includeDepth)
  else paths.foldlM (addPath registry maxDepth) { root }

end Plan

-- A node with the nodes below it, in the order of their numbers.
inductive Tree where
  | node (data : Node) (children : List Tree)

namespace Tree

def data : Tree → Node
  | .node data _ => data

def children : Tree → List Tree
  | .node _ children => children

end Tree

-- From the last node to the first, every node takes its children from those
-- that still wait for their parent.
def Plan.waiting (nodes : List Node) : List (Option Nat × Tree) :=
  nodes.foldr (fun n waiting =>
    let (mine, others) := waiting.partition fun w => w.1 = some n.number
    (n.parent, .node n (mine.map (·.2))) :: others) []

def Plan.trees (p : Plan) : List Tree := (Plan.waiting p.nodes).map (·.2)

end EntitySql.Include
