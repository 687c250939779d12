import VersionedXml.Proofs.Path.Grammar
import VersionedXml.Proofs.Path.Lexing

/-!
# Faults of expressions

An expression that has no path is refused at one place, the leftmost one that is wrong: the tokens
before it are the beginning of some path, and what is read there cannot follow them.  The fault is
told by the tokens before it, or by the characters there if they spell no token.  Nothing that comes
behind changes it.
-/

namespace VersionedXml

def Lexed.takesRest : Lexed → Bool
  | .lexeme _ => false
  | .ended (.done _) => true
  | .ended (.failed error) => error.fault = .unterminatedLiteral

def Lexed.errorOf (fault : PathFault) : Lexed → PathError
  | .lexeme read => ⟨fault, read.position⟩
  | .ended (.done position) => ⟨fault, position⟩
  | .ended (.failed error) => error

namespace Grammar

/-- Some tokens are the beginning of a path. -/
def IsViable (before : List Token) : Prop :=
  ∃ rest steps, IsPath (before ++ rest) steps

def MayFollow (before : List Token) : Lexed → Prop
  | .lexeme lexeme => IsViable (before ++ [lexeme.token])
  | .ended (.done _) => ∃ steps, IsPath before steps
  | .ended (.failed _) => False

/-- What is wrong behind the beginning of a path if it does not go on as it has to.  The last token
tells it, and for a name the token before it. -/
def faultAfter (before : List Token) : PathFault :=
  match before.reverse with
  | [] => .expected .slash
  | .slash :: _ => .expected .name
  | .openBracket :: _ => .expected .atSign
  | .atSign :: _ => .expected .name
  | .name _ :: .atSign :: _ => .expected .equals
  | .equals :: _ => .expected .literal
  | .literal _ :: _ => .expected .closeBracket
  | .name _ :: _ => .trailingInput
  | .closeBracket :: _ => .trailingInput

end Grammar

/-! ## States of the parser -/

/-- The tokens of the step in progress can be completed to those of a step. -/
theorem Awaiting.exists_completion (awaiting : Awaiting) :
    ∃ rest step, awaiting.read ++ rest = PathStep.tokens step := by
  cases awaiting with
  | firstSlash => exact ⟨_, ⟨"a", none⟩, List.nil_append _⟩
  | stepName => exact ⟨[.name "a"], ⟨"a", none⟩, rfl⟩
  | afterName name => exact ⟨[], ⟨name, none⟩, rfl⟩
  | atSign name =>
      exact ⟨[.atSign, .name "k", .equals, .literal "v", .closeBracket],
        ⟨name, some ⟨"k", "v"⟩⟩, rfl⟩
  | attributeName name =>
      exact ⟨[.name "k", .equals, .literal "v", .closeBracket], ⟨name, some ⟨"k", "v"⟩⟩, rfl⟩
  | equals name key =>
      exact ⟨[.equals, .literal "v", .closeBracket], ⟨name, some ⟨key, "v"⟩⟩, rfl⟩
  | literal name key => exact ⟨[.literal "v", .closeBracket], ⟨name, some ⟨key, "v"⟩⟩, rfl⟩
  | closeBracket name key value => exact ⟨[.closeBracket], ⟨name, some ⟨key, value⟩⟩, rfl⟩
  | afterCondition step => exact ⟨[], step, List.append_nil _⟩

namespace PathParser

variable {parser next last : PathParser} {tokens : List Token} {item : Lexed}

theorem isViable_read (parser : PathParser) : Grammar.IsViable parser.read := by
  obtain ⟨rest, step, hstep⟩ := parser.awaiting.exists_completion
  refine ⟨rest, parser.steps.reverse ++ [step], Grammar.isPath_iff.mpr ⟨by simp, ?_⟩⟩
  rw [read, List.append_assoc, hstep, List.flatMap_append, List.flatMap_singleton]

def Refuses (parser : PathParser) : Lexed → Prop
  | .lexeme lexeme => parser.accept lexeme.token = none
  | .ended (.done _) => parser.path? = none
  | .ended (.failed _) => True

/-- What does not fit cannot follow in any path. -/
theorem not_mayFollow (htokens : tokens.foldlM accept start = some last)
    (hrefuses : last.Refuses item) : ¬ Grammar.MayFollow tokens item := by
  have haccepted : ∀ {all : List Token} {steps : List PathStep}, Grammar.IsPath all steps →
      ∃ final, all.foldlM accept start = some final ∧ final.path? = some ⟨steps⟩ :=
    fun hpath => foldlM_accept_start.mpr hpath
  match item with
  | .lexeme lexeme =>
      rintro ⟨rest, steps, hpath⟩
      obtain ⟨final, hfinal, -⟩ := haccepted hpath
      have hnone : last.accept lexeme.token = none := hrefuses
      rw [List.append_assoc, List.foldlM_append, htokens] at hfinal
      simp [hnone] at hfinal
  | .ended (.done position) =>
      rintro ⟨steps, hpath⟩
      obtain ⟨final, hfinal, hcomplete⟩ := haccepted hpath
      cases htokens.symm.trans hfinal
      cases hcomplete.symm.trans hrefuses
  | .ended (.failed error) => exact id

theorem awaiting_ne_firstSlash {token : Token} (haccept : parser.accept token = some next) :
    next.awaiting ≠ .firstSlash := by
  unfold accept at haccept
  split at haccept
  case h_11 => cases haccept
  all_goals
    cases haccept
    exact Awaiting.noConfusion

/-- The tokens that have been accepted tell what is awaited. -/
theorem fault_eq_faultAfter (htokens : tokens.foldlM accept start = some last) :
    last.awaiting.fault = Grammar.faultAfter tokens := by
  rcases List.eq_nil_or_concat tokens with rfl | ⟨front, token, rfl⟩
  · cases htokens
    rfl
  have hread : last.read = front.concat token := read_foldlM_accept htokens
  have hfirst : last.awaiting ≠ .firstSlash := by
    rw [List.concat_eq_append, List.foldlM_append] at htokens
    obtain ⟨middle, -, hlast⟩ := Option.bind_eq_some_iff.mp htokens
    exact awaiting_ne_firstSlash (by simpa using hlast)
  rw [← hread]
  obtain ⟨steps, awaiting⟩ := last
  cases awaiting with
  | firstSlash => exact absurd rfl hfirst
  | afterCondition step =>
      obtain ⟨name, condition⟩ := step
      cases condition <;> simp [Grammar.faultAfter, read, Awaiting.read, Awaiting.fault,
        PathStep.tokens, Condition.tokens]
  | _ => simp [Grammar.faultAfter, read, Awaiting.read, Awaiting.fault]

/-! ## The place of a fault -/

/-- Parsing fails at an item that is refused behind tokens that are accepted. -/
theorem run_eq_error {ending : Ending} {lexemes before : List Lexeme} {after : List Lexed}
    (hitems : lexemes.map .lexeme ++ [.ended ending] = before.map .lexeme ++ item :: after)
    (hbefore : (before.map Lexeme.token).foldlM accept parser = some last)
    (hrefuses : last.Refuses item) :
    run ending parser lexemes = .error (item.errorOf last.awaiting.fault) := by
  induction before generalizing parser lexemes with
  | nil =>
      cases hbefore
      cases lexemes with
      | nil =>
          cases hitems
          match ending with
          | .done position =>
              have hnone : last.path? = none := hrefuses
              simp [run, hnone, Lexed.errorOf]
          | .failed error => rfl
      | cons lexeme rest =>
          cases hitems
          have hnone : last.accept lexeme.token = none := hrefuses
          simp [run, hnone, Lexed.errorOf]
  | cons first before ih =>
      cases lexemes with
      | nil => cases before <;> cases hitems
      | cons lexeme rest =>
          simp only [List.map_cons, List.cons_append, List.cons.injEq, Lexed.lexeme.injEq] at hitems
          obtain ⟨rfl, hrest⟩ := hitems
          rw [List.map_cons, List.foldlM_cons] at hbefore
          obtain ⟨next, hnext, hlater⟩ := Option.bind_eq_some_iff.mp hbefore
          rw [run, hnext]
          exact ih hrest hlater

/-- Parsing fails at no other place. -/
theorem exists_of_run_eq_error {ending : Ending} {lexemes : List Lexeme} {error : PathError}
    (hrun : run ending parser lexemes = .error error) :
    ∃ (before : List Lexeme) (item : Lexed) (after : List Lexed) (last : PathParser),
      lexemes.map .lexeme ++ [.ended ending] = before.map .lexeme ++ item :: after ∧
      (before.map Lexeme.token).foldlM accept parser = some last ∧ last.Refuses item := by
  induction lexemes generalizing parser with
  | nil =>
      refine ⟨[], .ended ending, [], parser, rfl, rfl, ?_⟩
      match ending with
      | .done position =>
          cases hpath : parser.path? with
          | none => exact hpath
          | some path => simp [run, hpath] at hrun
      | .failed _ => trivial
  | cons lexeme rest ih =>
      cases haccept : parser.accept lexeme.token with
      | none =>
          exact ⟨[], .lexeme lexeme, rest.map .lexeme ++ [.ended ending], parser, rfl, rfl,
            haccept⟩
      | some next =>
          rw [run, haccept] at hrun
          obtain ⟨before, item, after, last, hitems, hbefore, hrefuses⟩ := ih hrun
          refine ⟨lexeme :: before, item, after, last, ?_, ?_, hrefuses⟩
          · rw [List.map_cons, List.cons_append, hitems]
            rfl
          · rw [List.map_cons, List.foldlM_cons, haccept]
            exact hbefore

theorem accept_name {text other : String} (hnone : parser.accept (.name text) = none) :
    parser.accept (.name other) = none := by
  obtain ⟨steps, awaiting⟩ := parser
  cases awaiting with
  | stepName => cases hnone
  | attributeName name => cases hnone
  | _ => rfl

end PathParser

/-- Whatever comes behind an item that does not reach the end, what is read there is refused where
the item is, and with the same error.  Only a name can become another item, a longer name. -/
theorem Lexed.StandsAt.exists_extended {item : Lexed} {position : Nat} {text behind : List Char}
    (hitem : item.StandsAt position text behind) (other : List Char)
    (hother : item.takesRest = true → other = []) :
    ∃ item' text' behind', StandsAt item' position text' behind' ∧
      text' ++ behind' = text ++ other ∧
      (∀ parser : PathParser, parser.Refuses item → parser.Refuses item') ∧
      ∀ fault, item'.errorOf fault = item.errorOf fault := by
  cases hitem with
  | done =>
      cases hother rfl
      exact ⟨_, _, _, .done, rfl, fun _ => id, fun _ => rfl⟩
  | unterminated hquote htext =>
      cases hother rfl
      exact ⟨_, _, _, .unterminated hquote htext, rfl, fun _ => id, fun _ => rfl⟩
  | invalid hstray => exact ⟨_, _, _, .invalid hstray, rfl, fun _ => id, fun _ => rfl⟩
  | @lexeme token _ _ _ hspelled hends =>
      cases hspelled with
      | sign hsign =>
          exact ⟨_, _, _, .lexeme (.sign hsign) ((isBlank_of_sign hsign).2.2 other), rfl,
            fun _ => id, fun _ => rfl⟩
      | literal hquote htext =>
          exact ⟨_, _, _, .lexeme (.literal hquote htext) trivial, rfl, fun _ => id, fun _ => rfl⟩
      | name hne hchars =>
          have hsplit : other.takeWhile isNameChar ++ other.dropWhile isNameChar = other :=
            List.takeWhile_append_dropWhile
          have hlonger : ∀ c ∈ text ++ other.takeWhile isNameChar, isNameChar c = true := by
            intro c hc
            rcases List.mem_append.mp hc with hold | hnew
            · exact hchars c hold
            · exact List.all_eq_true.mp List.all_takeWhile c hnew
          refine ⟨_, text ++ other.takeWhile isNameChar, other.dropWhile isNameChar,
            .lexeme (.name ?_ hlonger) fun c hc => head?_dropWhile hc, ?_, ?_, fun _ => rfl⟩
          · exact List.append_ne_nil_of_left_ne_nil hne _
          · rw [List.append_assoc, hsplit]
          · exact fun _ hrefuses => PathParser.accept_name hrefuses

theorem Lexed.StandsAt.takesRest_of_nil {item : Lexed} {position : Nat} {behind : List Char}
    (hitem : item.StandsAt position [] behind) : item.takesRest = true := by
  cases hitem with
  | done => rfl
  | lexeme hspelled _ => exact absurd rfl hspelled.ne_nil

theorem Lexer.start_ofList (chars : List Char) : start (String.ofList chars) = ⟨0, chars⟩ := by
  rw [start, String.toList_ofList]

namespace Path

/-- Parsing fails at an item that is refused behind a row of tokens that are accepted. -/
theorem parse_eq_error {before : List Lexeme} {item : Lexed} {front text behind : List Char}
    {last : PathParser} (hrow : Lexeme.Row (text ++ behind) 0 front before)
    (hstands : item.StandsAt (0 + utf8Length front) text behind)
    (hbefore : (before.map Lexeme.token).foldlM PathParser.accept .start = some last)
    (hrefuses : last.Refuses item) :
    parse (String.ofList (front ++ (text ++ behind))) =
      .error (item.errorOf (Grammar.faultAfter (before.map Lexeme.token))) := by
  obtain ⟨after, hitems⟩ := hrow.exists_items_eq hstands
  rw [← Lexer.start_ofList] at hitems
  rw [← PathParser.fault_eq_faultAfter hbefore]
  exact PathParser.run_eq_error hitems hbefore hrefuses

/-- An expression is refused at an item: behind the characters `front`, which are read without a
fault and to the end as the tokens `before`, stands `item`, which takes the characters `text`. -/
structure RefusedAt (expression : String) (error : PathError) (before : List Lexeme) (item : Lexed)
    (front text behind : List Char) : Prop where
  /-- The item comes right behind the tokens. -/
  items : ∃ after, (Lexer.start expression).items = before.map .lexeme ++ item :: after
  chars : expression.toList = front ++ (text ++ behind)
  read : lexemes (String.ofList front) = (before, .done (utf8Length front))
  stands : item.StandsAt (utf8Length front) text behind
  /-- The tokens are the beginning of a path. -/
  viable : Grammar.IsViable (before.map Lexeme.token)
  /-- The item cannot follow them in any path. -/
  offends : ¬ Grammar.MayFollow (before.map Lexeme.token) item
  /-- The fault is the item's own, or it is told by the tokens. -/
  error_eq : error = item.errorOf (Grammar.faultAfter (before.map Lexeme.token))
  /-- Nothing behind the item matters. -/
  settled : ∀ other, (item.takesRest = true → other = []) →
    parse (String.ofList (front ++ (text ++ other))) = .error error

/-- An expression that has no path is refused at the leftmost item that cannot follow. -/
theorem exists_refusedAt {expression : String} {error : PathError}
    (hparse : parse expression = .error error) :
    ∃ before item front text behind, RefusedAt expression error before item front text behind := by
  obtain ⟨before, item, after, last, hitems, hbefore, hrefuses⟩ :=
    PathParser.exists_of_run_eq_error hparse
  have hstart : (Lexer.start expression).items = before.map .lexeme ++ item :: after := hitems
  obtain ⟨front, text, behind, hchars, hrow, hstands⟩ := Lexer.exists_row hstart
  have herror : error = item.errorOf (Grammar.faultAfter (before.map Lexeme.token)) := by
    have hagain := parse_eq_error hrow hstands hbefore hrefuses
    rw [← hchars] at hagain
    simpa [Lexer.start, hparse] using hagain
  have hviable : Grammar.IsViable (before.map Lexeme.token) := by
    have hread : last.read = before.map Lexeme.token := PathParser.read_foldlM_accept hbefore
    exact hread ▸ last.isViable_read
  refine ⟨before, item, front, text, behind, ⟨⟨after, hstart⟩, hchars, ?_, ?_, hviable,
    PathParser.not_mayFollow hbefore hrefuses, herror, ?_⟩⟩
  · have halone : Lexeme.Row [] 0 front before := hrow.congr fun c hc => by cases hc
    have hread := halone.readAll_eq
    rwa [← Lexer.start_ofList, Nat.zero_add] at hread
  · exact Nat.zero_add (utf8Length front) ▸ hstands
  · intro other hother
    obtain ⟨item', text', behind', hstands', hsame, hrefuses', herror'⟩ :=
      hstands.exists_extended other hother
    have hrow' : Lexeme.Row (text' ++ behind') 0 front before := by
      rw [hsame]
      refine hrow.congr fun c hc => ?_
      cases text with
      | nil =>
          rw [hother hstands.takesRest_of_nil] at hc
          cases hc
      | cons first rest => exact hc
    rw [← hsame, parse_eq_error hrow' hstands' hbefore (hrefuses' last hrefuses), herror', herror]

/-- The second name is refused where it stands, before the stray character behind it is read, and
the offset counts two bytes for the first one. -/
theorem exists_refusedAt_secondName :
    parse "/é b|" = .error ⟨.trailingInput, 4⟩ ∧ ∃ before item front text behind,
      RefusedAt "/é b|" ⟨.trailingInput, 4⟩ before item front text behind := by
  have hparse : parse "/é b|" = .error ⟨.trailingInput, 4⟩ := by decide +kernel
  exact ⟨hparse, exists_refusedAt hparse⟩

end Path

end VersionedXml
