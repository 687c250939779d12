import Mathlib.Logic.Function.Iterate
import Mathlib.Order.Monotone.Basic
import VersionedXml.Proofs.Path.Spacing

/-!
# Asking for token after token

A lexer may be asked for a token any number of times, also behind the end and behind a failure.  Its
place is always between two characters, and it never goes back.  A token takes it forward, and so
does a quote that is not closed.  At the end and at a stray character it stays, and there every
further answer is the same.
-/

namespace VersionedXml

/-- So many bytes are those of the first characters of an expression. -/
def IsBoundary (expression : String) (offset : Nat) : Prop :=
  ∃ before behind : String, expression = before ++ behind ∧ before.utf8ByteSize = offset

theorem utf8Length_pos {chars : List Char} (hne : chars ≠ []) : 0 < utf8Length chars := by
  obtain ⟨c, rest, rfl⟩ := List.exists_cons_of_ne_nil hne
  rw [utf8Length_cons]
  exact Nat.add_pos_left c.utf8Size_pos _

def Lexed.position : Lexed → Nat
  | .lexeme read => read.position
  | .ended (.done position) => position
  | .ended (.failed error) => error.position

/-- What is read at a place with no white space ahead, and where the next call begins. -/
inductive Lexed.Leaves : Lexed → Lexer → Lexer → Prop where
  | lexeme {here : Lexer} {token : Token} {text behind : List Char}
      (hrest : here.rest = text ++ behind) (hspelled : token.IsSpelled text) :
      Leaves (.lexeme ⟨token, here.position⟩) here (here.skip text)
  | done {here : Lexer} (hrest : here.rest = []) :
      Leaves (.ended (.done here.position)) here here
  /-- Only the quote is taken, and what is behind it is read again. -/
  | unterminated {here : Lexer} {quote : Char} {text : List Char}
      (hrest : here.rest = quote :: text) (hquote : quote = '"' ∨ quote = '\'')
      (htext : quote ∉ text) :
      Leaves (.ended (.failed ⟨.unterminatedLiteral, here.position⟩)) here (here.skip [quote])
  | invalid {here : Lexer} {c : Char} {behind : List Char} (hrest : here.rest = c :: behind) :
      Leaves (.ended (.failed ⟨.invalidCharacter c, here.position⟩)) here here

namespace Lexer

/-- A place between two characters of an expression: ahead are the characters behind its offset. -/
def IsIn (lexer : Lexer) (expression : String) : Prop :=
  ∃ before : List Char,
    expression.toList = before ++ lexer.rest ∧ lexer.position = utf8Length before

section Step

variable {lexer here there : Lexer} {expression : String} {item : Lexed}

theorem isIn_start (expression : String) : (start expression).IsIn expression :=
  ⟨[], rfl, rfl⟩

theorem IsIn.skip {chars : List Char} (hin : lexer.IsIn expression)
    (hchars : chars <+: lexer.rest) : (lexer.skip chars).IsIn expression := by
  obtain ⟨before, hbefore, hposition⟩ := hin
  obtain ⟨behind, hbehind⟩ := hchars
  refine ⟨before ++ chars, ?_, ?_⟩
  · rw [rest_skip, ← hbehind, List.drop_left, hbefore, ← hbehind, List.append_assoc]
  · rw [Lexer.skip, hposition, utf8Length_append]

theorem IsIn.skipBlank (hin : lexer.IsIn expression) : lexer.skipBlank.IsIn expression :=
  hin.skip (List.takeWhile_prefix Text.isBlank)

theorem IsIn.exists_append (hin : lexer.IsIn expression) :
    ∃ before : String, expression = before ++ String.ofList lexer.rest ∧
      before.utf8ByteSize = lexer.position := by
  obtain ⟨before, hbefore, hposition⟩ := hin
  refine ⟨String.ofList before, ?_, by rw [utf8ByteSize_ofList, hposition]⟩
  rw [← String.ofList_append, ← hbefore, String.ofList_toList]

theorem IsIn.isBoundary (hin : lexer.IsIn expression) : IsBoundary expression lexer.position := by
  obtain ⟨before, hbefore, hposition⟩ := hin.exists_append
  exact ⟨before, _, hbefore, hposition⟩

/-- A call reads behind the white space ahead. -/
theorem leaves_next (lexer : Lexer) : lexer.next.1.Leaves lexer.skipBlank lexer.next.2 := by
  obtain ⟨position, chars⟩ := lexer
  obtain ⟨blanks, text, behind, item, rfl, hblanks, hitem⟩ := exists_standsAt position chars
  rw [skipBlank_append position hblanks fun c hc => hitem.isBlank_head hc]
  have hhere : ∀ ahead, (⟨position + utf8Length blanks, ahead⟩ : Lexer).rest = ahead := fun _ => rfl
  cases hitem with
  | lexeme hspelled hends =>
      rw [next_of_isSpelled position hblanks hspelled hends, utf8Length_append, ← Nat.add_assoc,
        ← skip_append]
      exact .lexeme (hhere _) hspelled
  | done =>
      rw [next, skipBlank_append position hblanks (by simp)]
      exact .done (hhere _)
  | unterminated hquote htext =>
      rw [List.append_nil, next_append position hblanks (isBlank_of_quote hquote).1,
        readFrom_open hquote htext, ← skip_singleton]
      exact .unterminated (hhere _) hquote htext
  | @invalid c _ behind hstray =>
      have hread : readFrom c ⟨position + utf8Length blanks, c :: behind⟩ =
          (.ended (.failed ⟨.invalidCharacter c, position + utf8Length blanks⟩),
            ⟨position + utf8Length blanks, c :: behind⟩) := by
        simp [readFrom, hstray.sign, hstray.quote, hstray.name]
      rw [List.singleton_append, next_append position hblanks hstray.blank, hread]
      exact .invalid (hhere _)

theorem next_skipBlank (lexer : Lexer) : lexer.skipBlank.next = lexer.next := by
  have hagain : lexer.skipBlank.skipBlank = lexer.skipBlank := by
    obtain ⟨position, chars⟩ := lexer
    obtain ⟨blanks, text, behind, item, rfl, hblanks, hitem⟩ := exists_standsAt position chars
    rw [skipBlank_append position hblanks fun c hc => hitem.isBlank_head hc]
    exact skipBlank_append _ (List.forall_mem_nil _) fun c hc => hitem.isBlank_head hc
  rw [next, hagain, next]

end Step

end Lexer

namespace Lexed.Leaves

variable {here there : Lexer} {item : Lexed} {expression : String}

theorem position_eq (hleaves : item.Leaves here there) : item.position = here.position := by
  cases hleaves <;> rfl

theorem isIn (hleaves : item.Leaves here there) (hin : here.IsIn expression) :
    there.IsIn expression := by
  cases hleaves with
  | lexeme hrest _ => exact hin.skip ⟨_, hrest.symm⟩
  | done _ => exact hin
  | unterminated hrest _ _ => exact hin.skip ⟨_, hrest.symm⟩
  | invalid _ => exact hin

theorem position_le (hleaves : item.Leaves here there) : here.position ≤ there.position := by
  cases hleaves with
  | lexeme _ _ => exact Nat.le_add_right _ _
  | done _ => exact Nat.le_refl _
  | unterminated _ _ _ => exact Nat.le_add_right _ _
  | invalid _ => exact Nat.le_refl _

theorem position_lt_of_lexeme {read : Lexeme} (hleaves : (Lexed.lexeme read).Leaves here there) :
    read.position < there.position := by
  cases hleaves with
  | lexeme _ hspelled => exact Nat.lt_add_of_pos_right (utf8Length_pos hspelled.ne_nil)

theorem eq_of_done {stop : Nat} (hleaves : (Lexed.ended (.done stop)).Leaves here there) :
    here.rest = [] ∧ here.position = stop ∧ there = here := by
  cases hleaves with
  | done hrest => exact ⟨hrest, rfl, rfl⟩

theorem fault_eq {error : PathError} (hleaves : (Lexed.ended (.failed error)).Leaves here there) :
    error.fault = .unterminatedLiteral ∨ ∃ c, error.fault = .invalidCharacter c := by
  cases hleaves with
  | unterminated _ _ _ => exact .inl rfl
  | invalid _ => exact .inr ⟨_, rfl⟩

theorem eq_of_invalid {c : Char} {position : Nat}
    (hleaves : (Lexed.ended (.failed ⟨.invalidCharacter c, position⟩)).Leaves here there) :
    here.rest.head? = some c ∧ here.position = position ∧ there = here := by
  cases hleaves with
  | invalid hrest => exact ⟨by rw [hrest, List.head?_cons], rfl, rfl⟩

theorem eq_of_unterminated {position : Nat}
    (hleaves : (Lexed.ended (.failed ⟨.unterminatedLiteral, position⟩)).Leaves here there) :
    here.position = position ∧ there.position = position + 1 ∧ ∃ quote,
      here.rest = quote :: there.rest ∧ (quote = '"' ∨ quote = '\'') ∧ quote ∉ there.rest := by
  cases hleaves with
  | @unterminated _ quote text hrest hquote htext =>
      have hbyte : utf8Length [quote] = 1 := by
        rcases hquote with rfl | rfl
        · rfl
        · rfl
      have hbehind : (here.skip [quote]).rest = text := by
        rw [Lexer.rest_skip, hrest, List.length_singleton, List.drop_one, List.tail_cons]
      refine ⟨rfl, congrArg _ hbyte, quote, ?_, hquote, ?_⟩
      · rw [hbehind, hrest]
      · rwa [hbehind]

end Lexed.Leaves

namespace Lexer

/-! ## Many calls -/

def after (lexer : Lexer) (calls : Nat) : Lexer :=
  (fun place : Lexer => place.next.2)^[calls] lexer

/-- What a call for a token does at a place of an expression. -/
structure Advances (lexer : Lexer) (expression : String) : Prop where
  /-- The characters ahead are those of the expression behind the offset of the place. -/
  place : ∃ before : String, expression = before ++ String.ofList lexer.rest ∧
    before.utf8ByteSize = lexer.position
  reported : IsBoundary expression lexer.next.1.position
  position_le : lexer.position ≤ lexer.next.1.position
  le_next : lexer.next.1.position ≤ lexer.next.2.position
  lexeme : ∀ read, lexer.next.1 = .lexeme read → read.position < lexer.next.2.position
  /-- At the end no further call changes anything. -/
  done : ∀ stop, lexer.next.1 = .ended (.done stop) →
    stop = expression.utf8ByteSize ∧ ∀ calls, (lexer.next.2.after calls).next = lexer.next
  /-- There are no failures but the two that follow. -/
  fault : ∀ error, lexer.next.1 = .ended (.failed error) →
    error.fault = .unterminatedLiteral ∨ ∃ c, error.fault = .invalidCharacter c
  /-- Before a stray character no further call changes anything. -/
  invalid : ∀ c position, lexer.next.1 = .ended (.failed ⟨.invalidCharacter c, position⟩) →
    lexer.next.2.rest.head? = some c ∧ lexer.next.2.position = position ∧
      ∀ calls, (lexer.next.2.after calls).next = lexer.next
  /-- A quote stands at the reported offset, and there is no other one behind it. -/
  unterminated : ∀ position, lexer.next.1 = .ended (.failed ⟨.unterminatedLiteral, position⟩) →
    lexer.next.2.position = position + 1 ∧ ∃ (before : String) (quote : Char),
      expression = before ++ String.ofList (quote :: lexer.next.2.rest) ∧
      before.utf8ByteSize = position ∧ (quote = '"' ∨ quote = '\'') ∧ quote ∉ lexer.next.2.rest

variable {lexer : Lexer} {expression : String}

theorem after_succ (lexer : Lexer) (calls : Nat) :
    lexer.after (calls + 1) = (lexer.after calls).next.2 :=
  Function.iterate_succ_apply' _ calls lexer

/-- A call that only skips white space is the last one that does anything. -/
theorem next_after_of_eq_skipBlank (hstay : lexer.next.2 = lexer.skipBlank) (calls : Nat) :
    (lexer.next.2.after calls).next = lexer.next := by
  have hnext : lexer.next.2.next = lexer.next := hstay ▸ lexer.next_skipBlank
  have hplace : lexer.next.2.after calls = lexer.next.2 :=
    Function.iterate_fixed (congrArg Prod.snd hnext) calls
  rw [hplace, hnext]

theorem IsIn.advances (hin : lexer.IsIn expression) : lexer.Advances expression := by
  have hleaves := lexer.leaves_next
  have hhere := hin.skipBlank
  have hblank : lexer.position ≤ lexer.skipBlank.position := Nat.le_add_right _ _
  have hanswer : ∀ {item}, lexer.next.1 = item → item.Leaves lexer.skipBlank lexer.next.2 :=
    fun heq => heq ▸ hleaves
  refine {
    place := hin.exists_append
    reported := hleaves.position_eq ▸ hhere.isBoundary
    position_le := hleaves.position_eq ▸ hblank
    le_next := hleaves.position_eq ▸ hleaves.position_le
    lexeme := fun _ hread => (hanswer hread).position_lt_of_lexeme
    done := ?done
    fault := fun _ hfailed => (hanswer hfailed).fault_eq
    invalid := ?invalid
    unterminated := ?unterminated }
  case done =>
    intro stop hdone
    obtain ⟨hrest, hstop, hstay⟩ := (hanswer hdone).eq_of_done
    obtain ⟨before, hbefore, hposition⟩ := hhere.exists_append
    refine ⟨?_, next_after_of_eq_skipBlank hstay⟩
    rw [← hstop, ← hposition, hbefore, hrest, String.ofList_nil, String.append_empty]
  case invalid =>
    intro c position hinvalid
    obtain ⟨hrest, hposition, hstay⟩ := (hanswer hinvalid).eq_of_invalid
    exact ⟨hstay ▸ hrest, hstay ▸ hposition, next_after_of_eq_skipBlank hstay⟩
  case unterminated =>
    intro position hopen
    obtain ⟨hquoted, hnext, quote, hrest, hquote, hnone⟩ := (hanswer hopen).eq_of_unterminated
    obtain ⟨before, hbefore, hposition⟩ := hhere.exists_append
    exact ⟨hnext, before, quote, hrest ▸ hbefore, hposition.trans hquoted, hquote, hnone⟩

theorem IsIn.after (hin : lexer.IsIn expression) (calls : Nat) :
    (lexer.after calls).IsIn expression := by
  induction calls with
  | zero => exact hin
  | succ calls ih =>
      rw [after_succ]
      exact (lexer.after calls).leaves_next.isIn ih.skipBlank

theorem IsIn.monotone_position_after (hin : lexer.IsIn expression) :
    Monotone fun calls => (lexer.after calls).position := by
  refine monotone_nat_of_le_succ fun calls => ?_
  have hcall := (hin.after calls).advances
  rw [after_succ]
  exact hcall.position_le.trans hcall.le_next

theorem IsIn.monotone_position_next (hin : lexer.IsIn expression) :
    Monotone fun calls => (lexer.after calls).next.1.position := by
  refine monotone_nat_of_le_succ fun calls => ?_
  have hle := (hin.after calls).advances.le_next
  rw [← after_succ] at hle
  exact hle.trans (hin.after (calls + 1)).advances.position_le

/-- The calls answer with the items of the expression, one after the other. -/
theorem next_after_of_items {calls : Nat} {item : Lexed} (hitem : lexer.items[calls]? = some item) :
    (lexer.after calls).next.1 = item := by
  induction calls generalizing lexer with
  | zero =>
      obtain ⟨others, hothers⟩ := lexer.exists_items_eq_cons
      rw [hothers] at hitem
      exact Option.some.inj hitem
  | succ calls ih =>
      cases hnext : lexer.next.1 with
      | ended ending =>
          rw [items_of_ended hnext] at hitem
          cases hitem
      | lexeme read =>
          rw [items_of_lexeme hnext, List.getElem?_cons_succ] at hitem
          exact ih hitem

theorem length_items_le (lexer : Lexer) : lexer.items.length ≤ lexer.rest.length + 1 := by
  induction hlength : lexer.rest.length using Nat.strongRecOn generalizing lexer with
  | ind length ih =>
      cases hnext : lexer.next.1 with
      | ended ending =>
          rw [items_of_ended hnext, List.length_singleton]
          omega
      | lexeme read =>
          have hshorter := length_rest_next_lt hnext
          have hread := ih _ (hlength ▸ hshorter) lexer.next.2 rfl
          rw [items_of_lexeme hnext, List.length_cons]
          omega

/-- A lexer may be asked for a token any number of times.  All places that it comes to are between
two characters of the expression, and so are the offsets that it reports; neither ever goes back.
Its answers are the tokens of the expression, which has at least as many characters, and then how
the expression ends. -/
theorem advances_after_start (expression : String) :
    let place := (start expression).after
    (∀ calls, (place calls).Advances expression) ∧
      (∀ earlier later, earlier ≤ later →
        (place earlier).position ≤ (place later).position ∧
        (place earlier).next.1.position ≤ (place later).next.1.position) ∧
      ∃ read ending, lexemes expression = (read, ending) ∧ read.length ≤ expression.length ∧
        (∀ calls lexeme, read[calls]? = some lexeme → (place calls).next.1 = .lexeme lexeme) ∧
        (place read.length).next.1 = .ended ending ∧
        tokenize expression = match ending with
          | .done _ => .ok read
          | .failed error => .error error := by
  intro place
  have hstart := isIn_start expression
  refine ⟨fun calls => (hstart.after calls).advances, fun _ _ hle =>
    ⟨hstart.monotone_position_after hle, hstart.monotone_position_next hle⟩, ?_⟩
  generalize hread : lexemes expression = answer
  obtain ⟨read, ending⟩ := answer
  have hitems : (start expression).items = read.map .lexeme ++ [.ended ending] := by
    rw [items, ← lexemes, hread]
  refine ⟨read, ending, rfl, ?_, ?_, ?_, ?_⟩
  · have hlength := (start expression).length_items_le
    rw [hitems, List.length_append, List.length_map] at hlength
    exact Nat.le_of_succ_le_succ hlength
  · intro calls lexeme hlexeme
    obtain ⟨hcalls, -⟩ := List.getElem?_eq_some_iff.mp hlexeme
    refine next_after_of_items ?_
    rw [hitems, List.getElem?_append_left (by rwa [List.length_map]), List.getElem?_map, hlexeme]
    rfl
  · refine next_after_of_items ?_
    rw [hitems, List.getElem?_append_right (List.length_map _).le, List.length_map, Nat.sub_self]
    rfl
  · rw [tokenize, hread]
    cases ending <;> rfl

/-- Behind a quote that is not closed the calls go on, up to a character that begins no token. -/
theorem advances_after_start_openQuote :
    ((start "é 'b!").after 1).next =
        (.ended (.failed ⟨.unterminatedLiteral, 3⟩), ⟨4, ['b', '!']⟩) ∧
      ((start "é 'b!").after 3).next.1 = .ended (.failed ⟨.invalidCharacter '!', 5⟩) ∧
      (∀ calls, (((start "é 'b!").after 3).next.2.after calls).next =
        ((start "é 'b!").after 3).next) ∧
      ((start "é 'b!").after 1).position ≤ ((start "é 'b!").after 3).position := by
  obtain ⟨hadvances, hforward, -⟩ := advances_after_start "é 'b!"
  have hinvalid : ((start "é 'b!").after 3).next.1 =
      .ended (.failed ⟨.invalidCharacter '!', 5⟩) := by
    decide +kernel
  exact ⟨by decide +kernel, hinvalid, ((hadvances 3).invalid _ _ hinvalid).2.2,
    (hforward 1 3 (by decide)).1⟩

end Lexer

end VersionedXml
