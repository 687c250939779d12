/-!
# Paths

A path names elements from the outermost one inwards.  Each step may ask for an attribute with a
certain value.
-/

namespace VersionedXml

/-- The demand that an attribute has a value. -/
structure Condition where
  name : String
  value : String
  deriving DecidableEq, Repr

structure PathStep where
  name : String
  condition : Option Condition
  deriving DecidableEq, Repr

structure Path where
  steps : List PathStep
  deriving DecidableEq, Repr

/-- The quote around a value: the single one if the value contains the double one. -/
def Condition.quote (condition : Condition) : Char :=
  if condition.value.toList.contains '"' then '\'' else '"'

def Condition.render (condition : Condition) : List Char :=
  ['[', '@'] ++ condition.name.toList ++ ['=', condition.quote] ++ condition.value.toList ++
    [condition.quote, ']']

def PathStep.render (step : PathStep) : List Char :=
  '/' :: step.name.toList ++ (step.condition.map Condition.render).getD []

namespace Path

def depth (path : Path) : Nat := path.steps.length

def leaf? (path : Path) : Option PathStep := path.steps.getLast?

def render (path : Path) : String :=
  String.ofList (path.steps.flatMap PathStep.render)

end Path

end VersionedXml
