import Mathlib.Data.List.Chain
import VersionedXml.Proofs.Path.Grammar
import VersionedXml.Proofs.Path.Lexing

/-!
# Spacing of tokens

White space may stand before the first token of an expression and behind every token, and it has to
stand between two names.  Every expression that is written in this way is lexed to the tokens it is
written with, and no other expression is lexed to its end.  The offset of a token counts the bytes of
everything before it.
-/

namespace VersionedXml

/-- Counting the bytes of characters gives the size of the string that they make. -/
theorem utf8ByteSize_ofList (chars : List Char) :
    (String.ofList chars).utf8ByteSize = utf8Length chars := by
  induction chars with
  | nil => rfl
  | cons c rest ih =>
      rw [← List.singleton_append, String.ofList_append, String.utf8ByteSize_append, ih,
        utf8Length_append, ← String.singleton_eq_ofList, String.utf8ByteSize_singleton]
      simp [utf8Length]

/-! ## Where tokens meet -/

namespace Token

def isName : Token → Bool
  | .name _ => true
  | _ => false

theorem isName_of_sign {c : Char} {token : Token} (hsign : ofSign? c = some token) :
    token.isName = false := by
  unfold ofSign? at hsign
  split at hsign
  case h_6 => cases hsign
  all_goals
    cases hsign
    rfl

theorem IsSpelled.isNameChar_head {token : Token} {text : List Char} {c : Char}
    (hspelled : token.IsSpelled text) (hc : text.head? = some c) : isNameChar c = token.isName := by
  cases hspelled with
  | sign hsign =>
      cases hc
      rw [isName_of_sign hsign, (isBlank_of_sign hsign).2.1]
  | literal hquote _ =>
      cases hc
      exact (isBlank_of_quote hquote).2.2
  | name _ hchars => exact hchars c (List.mem_of_head? hc)

theorem endsBefore_iff {token : Token} {behind : List Char} :
    token.EndsBefore behind ↔
      (token.isName = true → ∀ c, behind.head? = some c → isNameChar c = false) := by
  cases token <;> simp [EndsBefore, isName]

end Token

structure SpacedToken where
  token : Token
  text : List Char
  space : List Char
  deriving DecidableEq, Repr

namespace SpacedToken

def chars (piece : SpacedToken) : List Char :=
  piece.text ++ piece.space

structure IsWritten (piece : SpacedToken) : Prop where
  spelled : piece.token.IsSpelled piece.text
  blank : ∀ c ∈ piece.space, Text.isBlank c = true

/-- Between two names there is white space. -/
def MayPrecede (before after : SpacedToken) : Prop :=
  before.token.isName = true → after.token.isName = true → before.space ≠ []

/-- A token ends where its white space begins, unless both it and the token behind it are names that
nothing separates. -/
theorem IsWritten.endsBefore_iff {piece : SpacedToken} {row : List SpacedToken}
    (hpiece : piece.IsWritten) (hrow : ∀ next ∈ row, next.IsWritten) :
    piece.token.EndsBefore (piece.space ++ row.flatMap chars) ↔
      ∀ next ∈ row.head?, piece.MayPrecede next := by
  rw [Token.endsBefore_iff]
  cases hspace : piece.space with
  | cons c space =>
      have hc : isNameChar c = false :=
        isNameChar_of_isBlank (hpiece.blank c (hspace ▸ List.mem_cons_self))
      simp [MayPrecede, hspace, hc]
  | nil =>
      cases row with
      | nil => simp
      | cons next rest =>
          have hnext := (hrow next List.mem_cons_self).spelled
          obtain ⟨c, text, htext⟩ := List.exists_cons_of_ne_nil hnext.ne_nil
          have hc : isNameChar c = next.token.isName := hnext.isNameChar_head (by rw [htext]; rfl)
          simp [MayPrecede, chars, hspace, htext, hc]

end SpacedToken

/-! ## Spacings of an expression -/

/-- Some characters are white space and behind it a row of written tokens, where no two names
touch. -/
structure IsSpacing (chars blanks : List Char) (row : List SpacedToken) : Prop where
  chars_eq : chars = blanks ++ row.flatMap SpacedToken.chars
  blank : ∀ c ∈ blanks, Text.isBlank c = true
  written : ∀ piece ∈ row, piece.IsWritten
  apart : row.IsChain SpacedToken.MayPrecede

namespace SpacedToken

def lexemes (position : Nat) (blanks : List Char) (row : List SpacedToken) : List Lexeme :=
  row.mapIdx fun i piece =>
    ⟨piece.token, position + utf8Length (blanks ++ (row.take i).flatMap chars)⟩

theorem lexemes_cons (position : Nat) (blanks : List Char) (piece : SpacedToken)
    (row : List SpacedToken) :
    lexemes position blanks (piece :: row) =
      ⟨piece.token, position + utf8Length blanks⟩ ::
        lexemes (position + utf8Length (blanks ++ piece.text)) piece.space row := by
  rw [lexemes, List.mapIdx_cons, lexemes]
  simp [chars, utf8Length_append, Nat.add_assoc]

end SpacedToken

open SpacedToken (lexemes_cons)

variable {position : Nat} {front : List Char} {read : List Lexeme}

theorem IsSpacing.row {blanks : List Char} {row : List SpacedToken}
    (hspacing : IsSpacing front blanks row) (position : Nat) :
    Lexeme.Row [] position front (SpacedToken.lexemes position blanks row) := by
  obtain ⟨rfl, hblanks, hwritten, hapart⟩ := hspacing
  induction row generalizing position blanks with
  | nil =>
      rw [List.flatMap_nil, List.append_nil]
      exact .blank hblanks
  | cons piece row ih =>
      obtain ⟨hpiece, hrest⟩ := List.forall_mem_cons.mp hwritten
      obtain ⟨hnext, hlater⟩ := List.isChain_cons.mp hapart
      rw [lexemes_cons, List.flatMap_cons, SpacedToken.chars, List.append_assoc]
      refine .cons hblanks hpiece.spelled ?_ (ih _ hpiece.blank hrest hlater)
      rw [List.append_nil]
      exact (hpiece.endsBefore_iff hrest).mpr hnext

/-- What is read token by token is a spacing of these tokens. -/
theorem Lexeme.Row.exists_isSpacing (hrow : Lexeme.Row [] position front read) :
    ∃ blanks row, IsSpacing front blanks row ∧ read = SpacedToken.lexemes position blanks row := by
  induction hrow with
  | @blank position blanks hblanks =>
      exact ⟨blanks, [], ⟨(List.append_nil blanks).symm, hblanks, nofun, .nil⟩, rfl⟩
  | @cons position blanks text rest token read hblanks hspelled hends hrest ih =>
      -- The white space before the tokens that follow is the white space behind this one.
      obtain ⟨space, row, ⟨rfl, hspace, hwritten, hapart⟩, rfl⟩ := ih
      let piece : SpacedToken := ⟨token, text, space⟩
      have hpiece : piece.IsWritten := ⟨hspelled, hspace⟩
      rw [List.append_nil] at hends
      refine ⟨blanks, piece :: row, ⟨?_, hblanks, ?_, ?_⟩, ?_⟩
      · rw [List.flatMap_cons, SpacedToken.chars, List.append_assoc]
      · exact List.forall_mem_cons.mpr ⟨hpiece, hwritten⟩
      · exact List.isChain_cons.mpr ⟨(hpiece.endsBefore_iff hwritten).mp hends, hapart⟩
      · rw [lexemes_cons]

theorem row_of_lexemes {expression : String} {stop : Nat}
    (hread : lexemes expression = (read, .done stop)) :
    Lexeme.Row [] 0 expression.toList read := by
  have hitems : (Lexer.start expression).items = read.map .lexeme ++ [.ended (.done stop)] := by
    rw [Lexer.items, ← lexemes, hread]
  obtain ⟨front, text, behind, hrest, hrow, hstands⟩ := Lexer.exists_row hitems
  cases hstands
  have hall : expression.toList = front := hrest.trans (by simp)
  exact hall ▸ hrow

/-- An expression is lexed without a fault exactly if it is a spacing of some tokens, and then these
are the tokens that are read.  The offset of a token is the number of bytes of what stands before
it. -/
theorem tokenize_eq_ok_iff_isSpacing (expression : String) (read : List Lexeme) :
    tokenize expression = .ok read ↔
      ∃ (blanks : List Char) (row : List SpacedToken), IsSpacing expression.toList blanks row ∧
        read = row.mapIdx fun i piece =>
          ⟨piece.token,
            (String.ofList (blanks ++ (row.take i).flatMap SpacedToken.chars)).utf8ByteSize⟩ := by
  have hlexemes : ∀ blanks row, SpacedToken.lexemes 0 blanks row =
      row.mapIdx fun i piece => ⟨piece.token,
        (String.ofList (blanks ++ (row.take i).flatMap SpacedToken.chars)).utf8ByteSize⟩ := by
    intro blanks row
    simp only [SpacedToken.lexemes, utf8ByteSize_ofList, Nat.zero_add]
  simp only [tokenize_eq_ok_iff, ← hlexemes]
  constructor
  · rintro ⟨stop, hread⟩
    exact (row_of_lexemes hread).exists_isSpacing
  · rintro ⟨blanks, row, hspacing, rfl⟩
    exact ⟨_, (hspacing.row 0).readAll_eq⟩

/-- Offsets count bytes, and a literal may hold blanks and the other quote. -/
example : tokenize "é[ @b='c \"']" =
    .ok [⟨.name "é", 0⟩, ⟨.openBracket, 2⟩, ⟨.atSign, 4⟩, ⟨.name "b", 5⟩, ⟨.equals, 6⟩,
      ⟨.literal "c \"", 7⟩, ⟨.closeBracket, 12⟩] := by
  decide +kernel

end VersionedXml
