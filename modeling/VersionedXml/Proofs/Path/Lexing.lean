import Mathlib.Data.List.Basic
import Mathlib.Data.List.TakeWhile
import VersionedXml.Path.Token

/-!
# Reading tokens

An expression is a row of tokens with white space around them, up to its end or to a place where no
token can be read.  What is read at a place is told by the characters that spell it.  The characters
behind them matter only to a name, which ends where no further character of a name follows.
-/

namespace VersionedXml

/-! ## Offsets -/

theorem utf8Length_cons (c : Char) (chars : List Char) :
    utf8Length (c :: chars) = c.utf8Size + utf8Length chars := by
  have hstart : ∀ length, chars.foldl (fun length c => length + c.utf8Size) length =
      length + utf8Length chars := by
    unfold utf8Length
    induction chars with
    | nil => simp
    | cons d rest ih =>
        intro length
        rw [List.foldl_cons, List.foldl_cons, ih, ih (0 + d.utf8Size)]
        omega
  exact (hstart (0 + c.utf8Size)).trans (by omega)

theorem utf8Length_append (left right : List Char) :
    utf8Length (left ++ right) = utf8Length left + utf8Length right := by
  induction left with
  | nil => exact (Nat.zero_add _).symm
  | cons c rest ih =>
      rw [List.cons_append, utf8Length_cons, utf8Length_cons, ih]
      omega

/-! ## Spelling -/

inductive Token.IsSpelled : Token → List Char → Prop where
  | sign {token : Token} {c : Char} (hsign : ofSign? c = some token) : IsSpelled token [c]
  /-- The text between two quotes does not contain their character. -/
  | literal {quote : Char} {text : List Char} (hquote : quote = '"' ∨ quote = '\'')
      (htext : quote ∉ text) :
      IsSpelled (.literal (String.ofList text)) (quote :: (text ++ [quote]))
  | name {text : List Char} (hne : text ≠ []) (hchars : ∀ c ∈ text, isNameChar c = true) :
      IsSpelled (.name (String.ofList text)) text

/-- A token that `behind` follows ends there: behind a name there is no character of a name. -/
def Token.EndsBefore (token : Token) (behind : List Char) : Prop :=
  match token with
  | .name _ => ∀ c, behind.head? = some c → isNameChar c = false
  | _ => True

structure IsStray (c : Char) : Prop where
  blank : Text.isBlank c = false
  sign : Token.ofSign? c = none
  quote : ¬ (c = '"' ∨ c = '\'')
  name : isNameChar c = false

/-- What is read at an offset, the characters that it takes, and those behind it. -/
inductive Lexed.StandsAt : Lexed → Nat → List Char → List Char → Prop where
  | lexeme {token : Token} {position : Nat} {text behind : List Char}
      (hspelled : token.IsSpelled text) (hends : token.EndsBefore behind) :
      StandsAt (.lexeme ⟨token, position⟩) position text behind
  | done {position : Nat} : StandsAt (.ended (.done position)) position [] []
  /-- A quote that is not closed takes all characters to the end. -/
  | unterminated {quote : Char} {position : Nat} {text : List Char}
      (hquote : quote = '"' ∨ quote = '\'') (htext : quote ∉ text) :
      StandsAt (.ended (.failed ⟨.unterminatedLiteral, position⟩)) position (quote :: text) []
  | invalid {c : Char} {position : Nat} {behind : List Char} (hstray : IsStray c) :
      StandsAt (.ended (.failed ⟨.invalidCharacter c, position⟩)) position [c] behind

/-- The signs are neither white space nor characters of a name, and make no names. -/
theorem isBlank_of_sign {c : Char} {token : Token} (hsign : Token.ofSign? c = some token) :
    Text.isBlank c = false ∧ isNameChar c = false ∧ ∀ behind, token.EndsBefore behind := by
  unfold Token.ofSign? at hsign
  split at hsign
  case h_6 => cases hsign
  all_goals
    cases hsign
    exact ⟨by decide, by decide, fun _ => trivial⟩

theorem isBlank_of_quote {c : Char} (hquote : c = '"' ∨ c = '\'') :
    Text.isBlank c = false ∧ Token.ofSign? c = none ∧ isNameChar c = false := by
  rcases hquote with rfl | rfl
  · exact ⟨by decide, rfl, by decide⟩
  · exact ⟨by decide, rfl, by decide⟩

theorem isBlank_of_isNameChar {c : Char} (hname : isNameChar c = true) :
    Text.isBlank c = false ∧ Token.ofSign? c = none ∧ ¬ (c = '"' ∨ c = '\'') := by
  refine ⟨?_, ?_, ?_⟩
  · rw [Bool.eq_false_iff]
    intro hblank
    cases hname.symm.trans (isNameChar_of_isBlank hblank)
  · rw [Option.eq_none_iff_forall_ne_some]
    intro token hsign
    cases hname.symm.trans (isBlank_of_sign hsign).2.1
  · intro hquote
    cases hname.symm.trans (isBlank_of_quote hquote).2.2

theorem Token.IsSpelled.ne_nil {token : Token} {text : List Char}
    (hspelled : token.IsSpelled text) : text ≠ [] := by
  cases hspelled with
  | sign _ => exact List.cons_ne_nil _ _
  | literal _ _ => exact List.cons_ne_nil _ _
  | name hne _ => exact hne

theorem Token.IsSpelled.isBlank_head {token : Token} {text : List Char} {c : Char}
    (hspelled : token.IsSpelled text) (hc : text.head? = some c) : Text.isBlank c = false := by
  cases hspelled with
  | sign hsign =>
      cases hc
      exact (isBlank_of_sign hsign).1
  | literal hquote _ =>
      cases hc
      exact (isBlank_of_quote hquote).1
  | name _ hchars => exact (isBlank_of_isNameChar (hchars c (List.mem_of_head? hc))).1

namespace Lexed.StandsAt

variable {item : Lexed} {position : Nat} {text behind : List Char}

theorem isBlank_head (hitem : item.StandsAt position text behind) {c : Char}
    (hc : (text ++ behind).head? = some c) : Text.isBlank c = false := by
  cases hitem with
  | lexeme hspelled _ =>
      obtain ⟨first, rest, rfl⟩ := List.exists_cons_of_ne_nil hspelled.ne_nil
      exact hspelled.isBlank_head hc
  | done => cases hc
  | unterminated hquote _ =>
      cases hc
      exact (isBlank_of_quote hquote).1
  | invalid hstray =>
      cases hc
      exact hstray.blank

end Lexed.StandsAt

/-! ## One token -/

/-- Of characters with a property and others behind them, the longest run with it are the former. -/
theorem takeWhile_append_eq {property : Char → Bool} {run behind : List Char}
    (hrun : ∀ c ∈ run, property c = true)
    (hbehind : ∀ c, behind.head? = some c → property c = false) :
    (run ++ behind).takeWhile property = run := by
  rw [List.takeWhile_append_of_pos hrun]
  cases behind with
  | nil => simp
  | cons c rest => simp [hbehind c rfl]

/-- Behind the longest run of characters with a property stands one without it. -/
theorem head?_dropWhile {property : Char → Bool} {chars : List Char} {c : Char}
    (hc : (chars.dropWhile property).head? = some c) : property c = false := by
  have hnot := List.head?_dropWhile_not property chars
  rw [hc] at hnot
  simpa using hnot

namespace Lexer

theorem skip_append (position : Nat) (chars behind : List Char) :
    (⟨position, chars ++ behind⟩ : Lexer).skip chars =
      ⟨position + utf8Length chars, behind⟩ := by
  simp [skip]

theorem skip_singleton (position : Nat) (c : Char) (behind : List Char) :
    (⟨position, c :: behind⟩ : Lexer).skip [c] = ⟨position + utf8Length [c], behind⟩ :=
  skip_append position [c] behind

theorem skipBlank_append {blanks ahead : List Char} (position : Nat)
    (hblanks : ∀ c ∈ blanks, Text.isBlank c = true)
    (hahead : ∀ c, ahead.head? = some c → Text.isBlank c = false) :
    (⟨position, blanks ++ ahead⟩ : Lexer).skipBlank =
      ⟨position + utf8Length blanks, ahead⟩ := by
  rw [skipBlank, takeWhile_append_eq hblanks hahead, skip_append]

section ReadFrom

variable {position : Nat} {text behind : List Char}

theorem readFrom_sign {token : Token} {c : Char} (hsign : Token.ofSign? c = some token) :
    readFrom c ⟨position, c :: behind⟩ =
      (.lexeme ⟨token, position⟩, ⟨position + utf8Length [c], behind⟩) := by
  simp only [readFrom, hsign, skip_singleton]

theorem readFrom_quote {quote : Char} (hquote : quote = '"' ∨ quote = '\'')
    (htext : quote ∉ text) :
    readFrom quote ⟨position, quote :: (text ++ quote :: behind)⟩ =
      (.lexeme ⟨.literal (String.ofList text), position⟩,
        ⟨position + utf8Length (quote :: (text ++ [quote])), behind⟩) := by
  have hrun : (text ++ quote :: behind).takeWhile (· != quote) = text := by
    refine takeWhile_append_eq (fun c hc => ?_) (by simp)
    simpa using fun heq : c = quote => htext (heq ▸ hc)
  have hlength : utf8Length (quote :: (text ++ [quote])) =
      utf8Length [quote] + utf8Length text + utf8Length [quote] := by
    rw [← List.singleton_append, utf8Length_append, utf8Length_append, Nat.add_assoc]
  simp only [readFrom, (isBlank_of_quote hquote).2.1, if_pos hquote, readLiteral, skip_singleton,
    hrun, skip_append, hlength, Nat.add_assoc]
  rfl

/-- Without a second quote there is no literal, and the place is behind the first. -/
theorem readFrom_open {quote : Char} (hquote : quote = '"' ∨ quote = '\'')
    (htext : quote ∉ text) :
    readFrom quote ⟨position, quote :: text⟩ =
      (.ended (.failed ⟨.unterminatedLiteral, position⟩), ⟨position + utf8Length [quote], text⟩) := by
  have hrun : text.takeWhile (· != quote) = text := by
    refine List.takeWhile_eq_self_iff.mpr fun c hc => ?_
    simpa using fun heq : c = quote => htext (heq ▸ hc)
  simp [readFrom, (isBlank_of_quote hquote).2.1, if_pos hquote, readLiteral, skip_singleton, hrun]

theorem readFrom_name {c : Char} (hchars : ∀ d ∈ c :: text, isNameChar d = true)
    (hbehind : ∀ d, behind.head? = some d → isNameChar d = false) :
    readFrom c ⟨position, c :: text ++ behind⟩ =
      (.lexeme ⟨.name (String.ofList (c :: text)), position⟩,
        ⟨position + utf8Length (c :: text), behind⟩) := by
  obtain ⟨-, hsign, hquote⟩ := isBlank_of_isNameChar (hchars c List.mem_cons_self)
  simp only [readFrom, hsign, if_neg hquote, hchars c List.mem_cons_self, if_true,
    takeWhile_append_eq hchars hbehind, skip_append]

end ReadFrom

variable {item : Lexed} {position : Nat} {blanks text behind : List Char}

/-- White space is skipped, and then the next character says what is read. -/
theorem next_append {c : Char} {tail : List Char} (position : Nat)
    (hblanks : ∀ d ∈ blanks, Text.isBlank d = true) (hc : Text.isBlank c = false) :
    (⟨position, blanks ++ c :: tail⟩ : Lexer).next =
      readFrom c ⟨position + utf8Length blanks, c :: tail⟩ := by
  have hahead : ∀ d, (c :: tail).head? = some d → Text.isBlank d = false := by
    intro d hd
    cases hd
    exact hc
  rw [next, skipBlank_append position hblanks hahead]

/-- A token behind white space is read, and the place is behind it. -/
theorem next_of_isSpelled {token : Token} (position : Nat)
    (hblanks : ∀ c ∈ blanks, Text.isBlank c = true) (hspelled : token.IsSpelled text)
    (hends : token.EndsBefore behind) :
    (⟨position, blanks ++ (text ++ behind)⟩ : Lexer).next =
      (.lexeme ⟨token, position + utf8Length blanks⟩,
        ⟨position + utf8Length (blanks ++ text), behind⟩) := by
  rw [utf8Length_append, ← Nat.add_assoc]
  cases hspelled with
  | sign hsign =>
      rw [List.singleton_append, next_append position hblanks (isBlank_of_sign hsign).1,
        readFrom_sign hsign]
  | literal hquote htext =>
      rw [List.cons_append, next_append position hblanks (isBlank_of_quote hquote).1,
        List.append_assoc, List.singleton_append, readFrom_quote hquote htext]
  | name hne hchars =>
      obtain ⟨c, rest, rfl⟩ := List.exists_cons_of_ne_nil hne
      have hblank := (isBlank_of_isNameChar (hchars c List.mem_cons_self)).1
      rw [List.cons_append, next_append position hblanks hblank, ← List.cons_append,
        readFrom_name hchars hends]

theorem next_of_standsAt (hblanks : ∀ c ∈ blanks, Text.isBlank c = true)
    (hitem : item.StandsAt (position + utf8Length blanks) text behind) :
    (⟨position, blanks ++ (text ++ behind)⟩ : Lexer).next.1 = item := by
  cases hitem with
  | lexeme hspelled hends => rw [next_of_isSpelled position hblanks hspelled hends]
  | done =>
      rw [next, skipBlank_append position hblanks fun c hc => by cases hc]
      rfl
  | unterminated hquote htext =>
      rw [List.append_nil, next_append position hblanks (isBlank_of_quote hquote).1,
        readFrom_open hquote htext]
  | invalid hstray =>
      rw [List.singleton_append, next_append position hblanks hstray.blank]
      simp [readFrom, hstray.sign, hstray.quote, hstray.name]

/-- Behind the white space of any characters something stands. -/
theorem exists_standsAt (position : Nat) (chars : List Char) :
    ∃ blanks text behind item, chars = blanks ++ (text ++ behind) ∧
      (∀ c ∈ blanks, Text.isBlank c = true) ∧
      Lexed.StandsAt item (position + utf8Length blanks) text behind := by
  have hsplit : chars = chars.takeWhile Text.isBlank ++ chars.dropWhile Text.isBlank :=
    List.takeWhile_append_dropWhile.symm
  have hblanks : ∀ c ∈ chars.takeWhile Text.isBlank, Text.isBlank c = true :=
    fun _ hc => List.all_eq_true.mp (List.all_takeWhile) _ hc
  generalize hplace : position + utf8Length (chars.takeWhile Text.isBlank) = place
  suffices hahead : ∃ text behind item, chars.dropWhile Text.isBlank = text ++ behind ∧
      Lexed.StandsAt item place text behind by
    obtain ⟨text, behind, item, hchars, hitem⟩ := hahead
    exact ⟨_, text, behind, item, hsplit.trans (by rw [hchars]), hblanks, hplace ▸ hitem⟩
  cases hrest : chars.dropWhile Text.isBlank with
  | nil => exact ⟨[], [], _, rfl, .done⟩
  | cons c tail =>
      have hblank : Text.isBlank c = false := head?_dropWhile (by rw [hrest]; rfl)
      cases hsign : Token.ofSign? c with
      | some token =>
          exact ⟨[c], tail, _, rfl, .lexeme (.sign hsign) ((isBlank_of_sign hsign).2.2 tail)⟩
      | none =>
          by_cases hquote : c = '"' ∨ c = '\''
          · by_cases hclosed : c ∈ tail
            · obtain ⟨text, behind, rfl, htext⟩ := List.eq_append_cons_of_mem hclosed
              exact ⟨c :: (text ++ [c]), behind, _, by simp, .lexeme (.literal hquote htext) trivial⟩
            · exact ⟨c :: tail, [], _, by simp, .unterminated hquote hclosed⟩
          · cases hname : isNameChar c with
            | false => exact ⟨[c], tail, _, rfl, .invalid ⟨hblank, hsign, hquote, hname⟩⟩
            | true =>
                refine ⟨(c :: tail).takeWhile isNameChar, (c :: tail).dropWhile isNameChar, _,
                  List.takeWhile_append_dropWhile.symm, .lexeme (.name ?_ ?_) ?_⟩
                · simp [hname]
                · exact fun _ hc => List.all_eq_true.mp (List.all_takeWhile) _ hc
                · exact fun d hd => head?_dropWhile hd

theorem exists_of_next (lexer : Lexer) :
    ∃ blanks text behind, lexer.rest = blanks ++ (text ++ behind) ∧
      (∀ c ∈ blanks, Text.isBlank c = true) ∧
      lexer.next.1.StandsAt (lexer.position + utf8Length blanks) text behind ∧
      ∀ lexeme, lexer.next.1 = .lexeme lexeme →
        lexer.next.2 = ⟨lexer.position + utf8Length (blanks ++ text), behind⟩ := by
  obtain ⟨position, chars⟩ := lexer
  obtain ⟨blanks, text, behind, item, rfl, hblanks, hitem⟩ := exists_standsAt position chars
  have hnext := next_of_standsAt hblanks hitem
  refine ⟨blanks, text, behind, rfl, hblanks, hnext.symm ▸ hitem, ?_⟩
  intro lexeme hlexeme
  cases hnext.symm.trans hlexeme
  cases hitem with
  | lexeme hspelled hends => rw [next_of_isSpelled position hblanks hspelled hends]

/-! ## Many tokens -/

theorem readAll_of_ended {lexer : Lexer} {ending : Ending} (known : Array Lexeme)
    (hnext : lexer.next.1 = .ended ending) : lexer.readAll known = (known.toList, ending) := by
  rw [readAll]
  split
  · rename_i other hother
    cases hother.symm.trans hnext
    rfl
  · rename_i lexeme hlexeme
    cases hlexeme.symm.trans hnext

theorem readAll_of_lexeme {lexer : Lexer} {lexeme : Lexeme} (known : Array Lexeme)
    (hnext : lexer.next.1 = .lexeme lexeme) :
    lexer.readAll known = lexer.next.2.readAll (known.push lexeme) := by
  rw [readAll]
  split
  · rename_i ending hending
    cases hending.symm.trans hnext
  · rename_i other hother
    cases hother.symm.trans hnext
    rfl

/-- What has been read already stays before all that is read. -/
theorem readAll_eq_append (known : Array Lexeme) (lexer : Lexer) :
    lexer.readAll known = (known.toList ++ (lexer.readAll #[]).1, (lexer.readAll #[]).2) := by
  induction hlength : lexer.rest.length using Nat.strongRecOn generalizing known lexer with
  | ind length ih =>
      cases hnext : lexer.next.1 with
      | ended ending => simp [readAll_of_ended _ hnext]
      | lexeme lexeme =>
          have hshorter := length_rest_next_lt hnext
          have hread := fun known => ih _ (hlength ▸ hshorter) known lexer.next.2 rfl
          rw [readAll_of_lexeme _ hnext, readAll_of_lexeme _ hnext, hread, hread (#[].push lexeme)]
          simp

def items (lexer : Lexer) : List Lexed :=
  (lexer.readAll #[]).1.map .lexeme ++ [.ended (lexer.readAll #[]).2]

theorem items_of_ended {lexer : Lexer} {ending : Ending} (hnext : lexer.next.1 = .ended ending) :
    lexer.items = [.ended ending] := by
  simp [items, readAll_of_ended _ hnext]

theorem items_of_lexeme {lexer : Lexer} {lexeme : Lexeme} (hnext : lexer.next.1 = .lexeme lexeme) :
    lexer.items = .lexeme lexeme :: lexer.next.2.items := by
  simp [items, readAll_of_lexeme _ hnext, readAll_eq_append #[lexeme]]

theorem exists_items_eq_cons (lexer : Lexer) : ∃ after, lexer.items = lexer.next.1 :: after := by
  cases hnext : lexer.next.1 with
  | ended ending => exact ⟨[], items_of_ended hnext⟩
  | lexeme lexeme => exact ⟨_, items_of_lexeme hnext⟩

theorem readAll_eq_of_items {lexer : Lexer} {read : List Lexeme} {ending : Ending}
    {after : List Lexed} (hitems : lexer.items = read.map .lexeme ++ .ended ending :: after) :
    lexer.readAll #[] = (read, ending) := by
  have hnot : Lexed.ended ending ∉ (lexer.readAll #[]).1.map .lexeme := by simp
  obtain ⟨hread, hending, -⟩ :=
    (List.append_cons_inj_of_notMem hnot List.not_mem_nil).mp hitems
  have hsame := List.map_injective_iff.mpr (fun _ _ heq => Lexed.lexeme.inj heq) hread
  exact Prod.ext hsame (Lexed.ended.inj hending)

end Lexer

/-- The characters `front` stand at an offset and before the characters `behind`: tokens, each with
white space before it, and white space at the end. -/
inductive Lexeme.Row (behind : List Char) : Nat → List Char → List Lexeme → Prop where
  | blank {position : Nat} {blanks : List Char} (hblanks : ∀ c ∈ blanks, Text.isBlank c = true) :
      Row behind position blanks []
  | cons {position : Nat} {blanks text rest : List Char} {token : Token} {lexemes : List Lexeme}
      (hblanks : ∀ c ∈ blanks, Text.isBlank c = true) (hspelled : token.IsSpelled text)
      (hends : token.EndsBefore (rest ++ behind))
      (hrest : Row behind (position + utf8Length (blanks ++ text)) rest lexemes) :
      Row behind position (blanks ++ (text ++ rest))
        (⟨token, position + utf8Length blanks⟩ :: lexemes)

namespace Lexeme.Row

variable {behind other front text : List Char} {position : Nat} {lexemes : List Lexeme}
  {item : Lexed}

/-- Of the characters behind a row only the first matters. -/
theorem congr (hhead : ∀ c, other.head? = some c → behind.head? = some c)
    (hrow : Row behind position front lexemes) : Row other position front lexemes := by
  induction hrow with
  | blank hblanks => exact .blank hblanks
  | @cons position blanks text rest token lexemes hblanks hspelled hends hrest ih =>
      refine .cons hblanks hspelled ?_ ih
      cases token with
      | name _ =>
          intro c hc
          refine hends c ?_
          rw [List.head?_append] at hc ⊢
          cases hfirst : rest.head? with
          | some d => rwa [hfirst] at hc
          | none =>
              rw [hfirst] at hc
              exact hhead c hc
      | _ => trivial

/-- A row is read token by token, and then what stands behind it. -/
theorem exists_items_eq (hrow : Row (text ++ behind) position front lexemes)
    (hitem : item.StandsAt (position + utf8Length front) text behind) :
    ∃ after, (⟨position, front ++ (text ++ behind)⟩ : Lexer).items =
      lexemes.map .lexeme ++ item :: after := by
  induction hrow with
  | blank hblanks =>
      have hnext := Lexer.next_of_standsAt hblanks hitem
      exact hnext ▸ Lexer.exists_items_eq_cons _
  | @cons position blanks spelling rest token lexemes hblanks hspelled hends hrest ih =>
      rw [← List.append_assoc, utf8Length_append, ← Nat.add_assoc] at hitem
      obtain ⟨after, hafter⟩ := ih hitem
      have hnext := Lexer.next_of_isSpelled position hblanks hspelled hends
      rw [List.append_assoc, List.append_assoc, Lexer.items_of_lexeme (congrArg Prod.fst hnext),
        hnext, hafter]
      exact ⟨after, rfl⟩

theorem readAll_eq (hrow : Row [] position front lexemes) :
    (⟨position, front⟩ : Lexer).readAll #[] = (lexemes, .done (position + utf8Length front)) := by
  have hnil : Row ([] ++ []) position front lexemes := hrow
  obtain ⟨after, hafter⟩ := hnil.exists_items_eq .done
  rw [List.append_nil, List.append_nil] at hafter
  exact Lexer.readAll_eq_of_items hafter

end Lexeme.Row

/-- Before an item of an expression there is a row of the tokens that come before it. -/
theorem Lexer.exists_row {lexer : Lexer} {before : List Lexeme} {item : Lexed} {after : List Lexed}
    (hitems : lexer.items = before.map .lexeme ++ item :: after) :
    ∃ front text behind, lexer.rest = front ++ (text ++ behind) ∧
      Lexeme.Row (text ++ behind) lexer.position front before ∧
      item.StandsAt (lexer.position + utf8Length front) text behind := by
  induction before generalizing lexer with
  | nil =>
      obtain ⟨blanks, text, behind, hrest, hblanks, hstands, -⟩ := lexer.exists_of_next
      obtain ⟨others, hothers⟩ := lexer.exists_items_eq_cons
      cases hothers.symm.trans hitems
      exact ⟨blanks, text, behind, hrest, .blank hblanks, hstands⟩
  | cons first before ih =>
      obtain ⟨blanks, text, behind, hrest, hblanks, hstands, hplace⟩ := lexer.exists_of_next
      obtain ⟨others, hothers⟩ := lexer.exists_items_eq_cons
      have hnext : lexer.next.1 = .lexeme first := (List.cons.inj (hothers.symm.trans hitems)).1
      have hlater : lexer.next.2.items = before.map .lexeme ++ item :: after :=
        (List.cons.inj ((items_of_lexeme hnext).symm.trans hitems)).2
      obtain ⟨front, last, tail, hbehind, hrow, hitem⟩ := ih hlater
      rw [hplace first hnext] at hbehind hrow hitem
      cases (show behind = front ++ (last ++ tail) from hbehind)
      rw [hnext] at hstands
      cases hstands with
      | lexeme hspelled hends =>
          refine ⟨blanks ++ (text ++ front), last, tail, ?_, .cons hblanks hspelled ?_ hrow, ?_⟩
          · rw [hrest, List.append_assoc, List.append_assoc]
          · exact hends
          · rwa [← List.append_assoc, utf8Length_append, ← Nat.add_assoc]

end VersionedXml
