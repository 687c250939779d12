import VersionedXml.Error
import VersionedXml.Text.Alphanumeric
import VersionedXml.Text.Blank

/-!
# Tokens of path expressions

An expression is cut into signs, names and quoted literals.  White space separates them and has no
other meaning.  Offsets count the bytes of the expression.
-/

namespace VersionedXml

inductive Token where
  | slash
  | atSign
  | equals
  | openBracket
  | closeBracket
  /-- A quoted literal, without its quotes. -/
  | literal (text : String)
  /-- A run of letters, numbers, `_` and `-`. -/
  | name (text : String)
  deriving DecidableEq, Repr

/-- A token and the offset of its first character. -/
structure Lexeme where
  token : Token
  position : Nat
  deriving DecidableEq, Repr

def isNameChar (c : Char) : Bool :=
  Text.isAlphanumeric c || c == '_' || c == '-'

/-- White space stands in no name, so a name ends before it. -/
theorem isNameChar_of_isBlank {c : Char} (hblank : Text.isBlank c = true) :
    isNameChar c = false := by
  have hsigns : Text.covers Text.blankRanges '_'.toNat = false ∧
      Text.covers Text.blankRanges '-'.toNat = false := by decide
  have hascii : ∀ code : Nat, code < 0x80 → Text.covers Text.blankRanges code = true →
      (Char.ofNat code).isAlphanum = false := by decide +kernel
  have hapart : Text.areApart Text.blankRanges Text.alphanumericRanges = true := by
    decide +kernel
  have hunderscore : c ≠ '_' := by
    rintro rfl
    exact absurd hblank (by rw [Text.isBlank, hsigns.1]; simp)
  have hdash : c ≠ '-' := by
    rintro rfl
    exact absurd hblank (by rw [Text.isBlank, hsigns.2]; simp)
  have halphanumeric : Text.isAlphanumeric c = false := by
    unfold Text.isAlphanumeric
    split
    · rename_i hlow
      have := hascii c.toNat hlow hblank
      rwa [Char.ofNat_toNat] at this
    · exact Text.not_covers_of_areApart hapart hblank
  simp [isNameChar, halphanumeric, hunderscore, hdash]

def Token.ofSign? : Char → Option Token
  | '/' => some slash
  | '@' => some atSign
  | '=' => some equals
  | '[' => some openBracket
  | ']' => some closeBracket
  | _ => none

theorem Token.ofSign?_eq_some_iff {c : Char} {token : Token} :
    ofSign? c = some token ↔
      (c, token) ∈ [('/', slash), ('@', atSign), ('=', equals), ('[', openBracket),
        (']', closeBracket)] := by
  unfold ofSign?
  constructor
  · intro hsign
    split at hsign <;> cases hsign <;> decide
  · intro hmember
    simp only [List.mem_cons, Prod.mk.injEq, List.not_mem_nil, or_false] at hmember
    rcases hmember with ⟨rfl, rfl⟩ | ⟨rfl, rfl⟩ | ⟨rfl, rfl⟩ | ⟨rfl, rfl⟩ | ⟨rfl, rfl⟩ <;> rfl

def utf8Length (chars : List Char) : Nat :=
  chars.foldl (fun length c => length + c.utf8Size) 0

/-- A place in an expression: its offset, and the characters ahead. -/
structure Lexer where
  position : Nat
  rest : List Char
  deriving DecidableEq, Repr

inductive Ending where
  | done (position : Nat)
  | failed (error : PathError)
  deriving DecidableEq, Repr

/-- What is read at a place of an expression. -/
inductive Lexed where
  | lexeme (lexeme : Lexeme)
  | ended (ending : Ending)
  deriving DecidableEq, Repr

namespace Lexer

def start (expression : String) : Lexer := ⟨0, expression.toList⟩

def skip (lexer : Lexer) (chars : List Char) : Lexer :=
  ⟨lexer.position + utf8Length chars, lexer.rest.drop chars.length⟩

def skipBlank (lexer : Lexer) : Lexer :=
  lexer.skip (lexer.rest.takeWhile Text.isBlank)

/-- Reads a literal behind its opening quote, which stands at `position`.  Without a closing quote
the place stays behind the opening one. -/
def readLiteral (quote : Char) (position : Nat) (inside : Lexer) : Lexed × Lexer :=
  let text := inside.rest.takeWhile (· != quote)
  let behind := inside.skip text
  if behind.rest.isEmpty then
    (.ended (.failed ⟨.unterminatedLiteral, position⟩), inside)
  else
    (.lexeme ⟨.literal (String.ofList text), position⟩, behind.skip [quote])

def readFrom (c : Char) (lexer : Lexer) : Lexed × Lexer :=
  match Token.ofSign? c with
  | some token => (.lexeme ⟨token, lexer.position⟩, lexer.skip [c])
  | none =>
      if c = '"' ∨ c = '\'' then
        readLiteral c lexer.position (lexer.skip [c])
      else if isNameChar c then
        let text := lexer.rest.takeWhile isNameChar
        (.lexeme ⟨.name (String.ofList text), lexer.position⟩, lexer.skip text)
      else
        (.ended (.failed ⟨.invalidCharacter c, lexer.position⟩), lexer)

/-- Reads the next token, and goes behind it.  At an invalid character the place stays. -/
def next (lexer : Lexer) : Lexed × Lexer :=
  let here := lexer.skipBlank
  match here.rest with
  | [] => (.ended (.done here.position), here)
  | c :: _ => readFrom c here

@[simp]
theorem rest_skip (lexer : Lexer) (chars : List Char) :
    (lexer.skip chars).rest = lexer.rest.drop chars.length := rfl

theorem length_rest_skipBlank_le (lexer : Lexer) :
    lexer.skipBlank.rest.length ≤ lexer.rest.length := by
  simp only [skipBlank, rest_skip, List.length_drop]
  omega

/-- Reading a token consumes at least its first character. -/
theorem length_rest_readFrom_lt {lexer : Lexer} {c : Char} {tail : List Char} {lexeme : Lexeme}
    (hrest : lexer.rest = c :: tail) (hread : (readFrom c lexer).1 = .lexeme lexeme) :
    (readFrom c lexer).2.rest.length < lexer.rest.length := by
  unfold readFrom at hread ⊢
  split
  · simp [hrest]
  · rename_i hsign
    rw [hsign] at hread
    dsimp only at hread
    split
    · rename_i hquote
      rw [if_pos hquote] at hread
      unfold readLiteral at hread ⊢
      dsimp only at hread ⊢
      split
      · rename_i hopen
        rw [if_pos hopen] at hread
        cases hread
      · simp only [rest_skip, hrest, List.length_drop, List.length_cons, List.length_nil,
          List.drop_succ_cons, List.drop_zero]
        omega
    · rename_i hquote
      rw [if_neg hquote] at hread
      split
      · rename_i hname
        simp only [rest_skip, hrest, List.length_drop, List.length_cons, List.takeWhile_cons,
          hname, if_true]
        omega
      · rename_i hname
        rw [if_neg hname] at hread
        cases hread

theorem length_rest_next_lt {lexer : Lexer} {lexeme : Lexeme}
    (hread : lexer.next.1 = .lexeme lexeme) :
    lexer.next.2.rest.length < lexer.rest.length := by
  have hblank := length_rest_skipBlank_le lexer
  unfold next at hread ⊢
  dsimp only at hread ⊢
  cases hrest : lexer.skipBlank.rest with
  | nil =>
      rw [hrest] at hread
      cases hread
  | cons c tail =>
      rw [hrest] at hread
      have := length_rest_readFrom_lt hrest hread
      dsimp only
      omega

theorem readFrom_ne_done (c : Char) (lexer : Lexer) (position : Nat) :
    (readFrom c lexer).1 ≠ .ended (.done position) := by
  unfold readFrom readLiteral
  split
  · exact nofun
  · split
    · dsimp only
      split
      · exact nofun
      · exact nofun
    · split
      · exact nofun
      · exact nofun

theorem length_rest_next_le {lexer : Lexer} {position : Nat}
    (hread : lexer.next.1 = .ended (.done position)) :
    lexer.next.2.rest.length ≤ lexer.rest.length := by
  unfold next at hread ⊢
  dsimp only at hread ⊢
  cases hrest : lexer.skipBlank.rest with
  | nil => exact length_rest_skipBlank_le lexer
  | cons c tail =>
      rw [hrest] at hread
      exact absurd hread (readFrom_ne_done c _ position)

def readAll (known : Array Lexeme) (lexer : Lexer) : List Lexeme × Ending :=
  match hread : lexer.next.1 with
  | .ended ending => (known.toList, ending)
  | .lexeme lexeme =>
      have := length_rest_next_lt hread
      readAll (known.push lexeme) lexer.next.2
  termination_by lexer.rest.length

end Lexer

def lexemes (expression : String) : List Lexeme × Ending :=
  (Lexer.start expression).readAll #[]

def tokenize (expression : String) : Except PathError (List Lexeme) :=
  match lexemes expression with
  | (read, .done _) => .ok read
  | (_, .failed error) => .error error

end VersionedXml
