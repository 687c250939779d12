import VersionedXml.Path.Parser

/-!
# Parsing path expressions by descent

The parser as the grammar is written: one function for each of its rules.  Each of them finds the token
at hand and leaves the first one that it has not taken, so one token is always read ahead.
-/

namespace VersionedXml

namespace Token

def name? : Token → Option String
  | name text => some text
  | _ => none

def literal? : Token → Option String
  | literal text => some text
  | _ => none

end Token

/-- The token at hand with its offset, or the end of the expression, and the place behind it. -/
structure PathReader where
  lexer : Lexer
  current : Option Token
  position : Nat

namespace PathReader

/-- A rule of the grammar takes tokens from a reader, or fails. -/
abbrev Rule := StateT PathReader (Except PathError)

def read (lexer : Lexer) : Except PathError PathReader :=
  match lexer.next.1 with
  | .lexeme lexeme => .ok ⟨lexer.next.2, some lexeme.token, lexeme.position⟩
  | .ended (.done position) => .ok ⟨lexer.next.2, none, position⟩
  | .ended (.failed error) => .error error

def start (expression : String) : Except PathError PathReader :=
  read (Lexer.start expression)

/-- Takes the token at hand.  What is wrong with the next one is wrong here already. -/
def advance : Rule Unit := fun reader =>
  (read reader.lexer).map fun next => ((), next)

def missing {α : Type} (wanted : Wanted) : Rule α := fun reader =>
  .error ⟨.expected wanted, reader.position⟩

def expect (token : Token) (wanted : Wanted) : Rule Unit := do
  if (← get).current = some token then advance else missing wanted

/-- Takes a token with a text. -/
def expectText (text? : Token → Option String) (wanted : Wanted) : Rule String := do
  match (← get).current.bind text? with
  | some text =>
      advance
      return text
  | none => missing wanted

def parseCondition : Rule Condition := do
  expect .atSign .atSign
  let name ← expectText Token.name? .name
  expect .equals .equals
  let value ← expectText Token.literal? .literal
  expect .closeBracket .closeBracket
  return ⟨name, value⟩

def parseStep : Rule PathStep := do
  let name ← expectText Token.name? .name
  if (← get).current = some .openBracket then
    advance
    let condition ← parseCondition
    return ⟨name, some condition⟩
  else
    return ⟨name, none⟩

/-! ## What is left -/

/-- The token at hand counts as one character. -/
def ahead (reader : PathReader) : Nat :=
  reader.lexer.rest.length + reader.current.toList.length

section

variable {α β : Type} {lexer : Lexer} {reader next : PathReader}

theorem ahead_le_of_read (hread : read lexer = .ok reader) :
    reader.ahead ≤ lexer.rest.length := by
  unfold read at hread
  cases hnext : lexer.next.1 with
  | lexeme lexeme =>
      rw [hnext] at hread
      obtain rfl := Except.ok.inj hread
      exact Lexer.length_rest_next_lt hnext
  | ended ending =>
      rw [hnext] at hread
      cases ending with
      | failed error => cases hread
      | done position =>
          obtain rfl := Except.ok.inj hread
          exact Lexer.length_rest_next_le hnext

theorem ahead_advance_le {taken : Unit × PathReader} (htaken : advance reader = .ok taken) :
    taken.2.ahead ≤ reader.lexer.rest.length := by
  unfold advance at htaken
  cases hread : read reader.lexer with
  | error error =>
      rw [hread] at htaken
      cases htaken
  | ok next =>
      rw [hread] at htaken
      obtain rfl := Except.ok.inj htaken
      exact ahead_le_of_read hread

/-- A rule leaves no more than it finds. -/
def Rule.Shrinks (rule : Rule α) : Prop :=
  ∀ reader taken, rule reader = .ok taken → taken.2.ahead ≤ reader.ahead

theorem Rule.Shrinks.bind {rule : Rule α} {rules : α → Rule β} (hrule : rule.Shrinks)
    (hrules : ∀ value, (rules value).Shrinks) : (rule >>= rules).Shrinks := by
  intro reader taken htaken
  change (rule reader).bind (fun before => rules before.1 before.2) = .ok taken at htaken
  cases hbefore : rule reader with
  | error error =>
      rw [hbefore] at htaken
      cases htaken
  | ok before =>
      rw [hbefore] at htaken
      exact Nat.le_trans (hrules before.1 before.2 taken htaken) (hrule reader before hbefore)

theorem shrinks_pure (value : α) : (pure value : Rule α).Shrinks := by
  rintro reader taken ⟨⟩
  exact Nat.le_refl _

theorem shrinks_missing (wanted : Wanted) : (missing wanted : Rule α).Shrinks :=
  fun _ _ => nofun

theorem shrinks_advance : advance.Shrinks := fun _ _ htaken =>
  Nat.le_trans (ahead_advance_le htaken) (Nat.le_add_right _ _)

/-- A rule may look at the token at hand. -/
theorem shrinks_get {rules : PathReader → Rule α} (hrules : ∀ reader, (rules reader).Shrinks) :
    (get >>= rules).Shrinks :=
  fun reader taken htaken => hrules reader reader taken htaken

theorem shrinks_expect (token : Token) (wanted : Wanted) : (expect token wanted).Shrinks := by
  refine shrinks_get fun reader => ?_
  split
  · exact shrinks_advance
  · exact shrinks_missing wanted

theorem shrinks_expectText (text? : Token → Option String) (wanted : Wanted) :
    (expectText text? wanted).Shrinks := by
  refine shrinks_get fun reader => ?_
  split
  · exact shrinks_advance.bind fun _ => shrinks_pure _
  · exact shrinks_missing wanted

theorem shrinks_parseCondition : parseCondition.Shrinks :=
  (shrinks_expect _ _).bind fun _ => (shrinks_expectText _ _).bind fun _ =>
    (shrinks_expect _ _).bind fun _ => (shrinks_expectText _ _).bind fun _ =>
      (shrinks_expect _ _).bind fun _ => shrinks_pure _

theorem shrinks_parseStep : parseStep.Shrinks := by
  refine (shrinks_expectText _ _).bind fun name => shrinks_get fun reader => ?_
  split
  · exact shrinks_advance.bind fun _ => shrinks_parseCondition.bind fun _ => shrinks_pure _
  · exact shrinks_pure _

/-- A token that has to stand at a place is taken there. -/
theorem ahead_lt_of_expect {token : Token} {wanted : Wanted} {rules : Unit → Rule α}
    {taken : α × PathReader} (hrules : (rules ()).Shrinks)
    (htaken : (expect token wanted >>= rules) reader = .ok taken) :
    taken.2.ahead < reader.ahead := by
  have hexpect : (expect token wanted >>= rules) reader =
      ((if reader.current = some token then advance else missing wanted : Rule Unit) reader).bind
        fun before => rules before.1 before.2 := rfl
  rw [hexpect] at htaken
  split at htaken
  · rename_i hcurrent
    cases hbefore : advance reader with
    | error error =>
        rw [hbefore] at htaken
        cases htaken
    | ok before =>
        rw [hbefore] at htaken
        have hless : reader.lexer.rest.length < reader.ahead := by
          rw [ahead, hcurrent]
          exact Nat.lt_succ_self _
        exact Nat.lt_of_le_of_lt (Nat.le_trans (hrules before.2 taken htaken)
          (ahead_advance_le hbefore)) hless
  · cases htaken

end

/-- The steps that are left, behind those that are known. -/
def parseSteps (known : Array PathStep) (reader : PathReader) : Except PathError Path :=
  match htaken : (do expect .slash .slash; parseStep : Rule PathStep) reader with
  | .error error => .error error
  | .ok (step, next) =>
      match next.current with
      | some .slash =>
          have := ahead_lt_of_expect shrinks_parseStep htaken
          parseSteps (known.push step) next
      | none => .ok ⟨(known.push step).toList⟩
      | some _ => .error ⟨.trailingInput, next.position⟩
  termination_by reader.ahead

def parse (expression : String) : Except PathError Path := do
  let reader ← start expression
  parseSteps #[] reader

end PathReader

end VersionedXml
