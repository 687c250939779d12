import VersionedXml.Path.Parser
import VersionedXml.Store.Reading

/-!
# Selecting nodes

A path selects elements below a context, which is a document or an element.  The strings of the
path are looked up in the pool once.  A string that was never interned occurs nowhere in the
document, so a path with such a string selects nothing.
-/

namespace VersionedXml

/-- A step whose strings are identified by a pool. -/
structure ResolvedStep where
  name : StrId
  condition : Option (StrId × StrId)
  deriving DecidableEq, Repr

def Condition.resolve? (pool : Pool) (condition : Condition) : Option (StrId × StrId) :=
  match pool.find? (Text.encode condition.name), pool.find? (Text.encode condition.value) with
  | some name, some value => some (name, value)
  | _, _ => none

def PathStep.resolve? (pool : Pool) (step : PathStep) : Option ResolvedStep :=
  match pool.find? (Text.encode step.name) with
  | none => none
  | some name =>
      match step.condition with
      | none => some ⟨name, none⟩
      | some condition => (condition.resolve? pool).map fun resolved => ⟨name, some resolved⟩

namespace Store

def isPair (store : Store) (pair : StrId × StrId) (id : NodeId) : Bool :=
  (store.get? id).map Node.data = some (.attribute pair.1 pair.2)

def isMatch (store : Store) (step : ResolvedStep) (id : NodeId) : Bool :=
  match (store.get? id).map Node.data with
  | some (.element name _ _) =>
      name == step.name &&
        step.condition.all fun pair => (store.attributes id).any (store.isPair pair)
  | _ => false

/-- Goes down one step from every node, and stops when no node is left. -/
def descend (store : Store) : List ResolvedStep → List NodeId → List NodeId
  | [], nodes => nodes
  | _ :: _, [] => []
  | step :: rest, nodes =>
      store.descend rest (nodes.flatMap fun id => (store.children id).filter (store.isMatch step))

/-- The elements that a path selects below a context, in document order. -/
def select (store : Store) (context : NodeId) (path : Path) : List NodeId :=
  if (store.table.links? .children context).isSome then
    match path.steps.mapM (PathStep.resolve? store.pool) with
    | none => []
    | some steps => store.descend steps [context]
  else
    []

def query (store : Store) (context : NodeId) (expression : String) :
    Except PathError (List NodeId) :=
  (Path.parse expression).map (store.select context)

def queryMany (store : Store) (context : NodeId) (expressions : List String) :
    List (Except PathError (List NodeId)) :=
  expressions.map (store.query context)

def selectMany (store : Store) (context : NodeId) (paths : List Path) : List (List NodeId) :=
  paths.map (store.select context)

def queryMap {α : Type} (store : Store) (context : NodeId) (expression : String)
    (view : Store → NodeId → α) : Except PathError (List α) :=
  (store.query context expression).map fun ids => ids.map (view store)

/-- The answers to several expressions, each under its key; the first failure is the answer to
all. -/
def queryKeyed (store : Store) (context : NodeId) (queries : List (String × String)) :
    Except PathError (List (String × List NodeId)) :=
  queries.mapM fun keyed => (store.query context keyed.2).map fun ids => (keyed.1, ids)

end Store

end VersionedXml
