import VersionedXml.Path
import VersionedXml.Path.Token

/-!
# Parsing path expressions

A path is a slash and a step, once or more often.  A step is a name, and behind it there may be one
condition in brackets: an at sign, a name, an equals sign and a literal.

The parser takes one token after the other.  Before each token it awaits something definite, so a
token that cannot follow is reported where it stands, whatever comes behind it.
-/

namespace VersionedXml

inductive Awaiting where
  | firstSlash
  | stepName
  | afterName (name : String)
  | atSign (name : String)
  | attributeName (name : String)
  | equals (name key : String)
  | literal (name key : String)
  | closeBracket (name key value : String)
  | afterCondition (step : PathStep)
  deriving DecidableEq, Repr

namespace Awaiting

def step? : Awaiting → Option PathStep
  | afterName name => some ⟨name, none⟩
  | afterCondition step => some step
  | _ => none

def fault : Awaiting → PathFault
  | firstSlash => .expected .slash
  | stepName => .expected .name
  | afterName _ => .trailingInput
  | atSign _ => .expected .atSign
  | attributeName _ => .expected .name
  | equals _ _ => .expected .equals
  | literal _ _ => .expected .literal
  | closeBracket _ _ _ => .expected .closeBracket
  | afterCondition _ => .trailingInput

end Awaiting

/-- The steps that are complete, innermost first, and what may come next. -/
structure PathParser where
  steps : List PathStep
  awaiting : Awaiting
  deriving DecidableEq, Repr

namespace PathParser

def start : PathParser := ⟨[], .firstSlash⟩

/-- Takes one token, if it may come next. -/
def accept (parser : PathParser) (token : Token) : Option PathParser :=
  match parser.awaiting, token with
  | .firstSlash, .slash => some ⟨parser.steps, .stepName⟩
  | .stepName, .name name => some ⟨parser.steps, .afterName name⟩
  | .afterName name, .slash => some ⟨⟨name, none⟩ :: parser.steps, .stepName⟩
  | .afterName name, .openBracket => some ⟨parser.steps, .atSign name⟩
  | .atSign name, .atSign => some ⟨parser.steps, .attributeName name⟩
  | .attributeName name, .name key => some ⟨parser.steps, .equals name key⟩
  | .equals name key, .equals => some ⟨parser.steps, .literal name key⟩
  | .literal name key, .literal value => some ⟨parser.steps, .closeBracket name key value⟩
  | .closeBracket name key value, .closeBracket =>
      some ⟨parser.steps, .afterCondition ⟨name, some ⟨key, value⟩⟩⟩
  | .afterCondition step, .slash => some ⟨step :: parser.steps, .stepName⟩
  | _, _ => none

def path? (parser : PathParser) : Option Path :=
  parser.awaiting.step?.map fun step => ⟨(step :: parser.steps).reverse⟩

def run (ending : Ending) (parser : PathParser) : List Lexeme → Except PathError Path
  | lexeme :: rest =>
      match parser.accept lexeme.token with
      | some next => run ending next rest
      | none => .error ⟨parser.awaiting.fault, lexeme.position⟩
  | [] =>
      match ending with
      | .failed error => .error error
      | .done position =>
          match parser.path? with
          | some path => .ok path
          | none => .error ⟨parser.awaiting.fault, position⟩

end PathParser

def Path.parse (expression : String) : Except PathError Path :=
  let read := lexemes expression
  PathParser.start.run read.2 read.1

end VersionedXml
