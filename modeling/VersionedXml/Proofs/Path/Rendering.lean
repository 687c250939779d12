import VersionedXml.Proofs.Path.Grammar
import VersionedXml.Proofs.Path.Lexing

/-!
# Expressions of paths

The expression of a path has its tokens one behind the other, with no white space.  A name that has
been parsed is a run of characters of a name, and a literal that has been parsed lacks one of the
two quotes, so the quote that is chosen by the value does not occur in it.  Reading the expression
therefore gives the same tokens, and with them the same path.
-/

namespace VersionedXml

/-! ## Reading characters back -/

/-- Wherever the characters stand, they are read as the tokens. -/
def Token.Spell (chars : List Char) (tokens : List Token) : Prop :=
  ∀ position, ∃ lexemes, Lexeme.Row [] position chars lexemes ∧ lexemes.map Lexeme.token = tokens

namespace Token.Spell

theorem nil : Spell [] [] :=
  fun _ => ⟨[], .blank fun _ hc => absurd hc List.not_mem_nil, rfl⟩

theorem cons {token : Token} {tokens : List Token} {text rest : List Char}
    (hspelled : token.IsSpelled text) (hends : token.EndsBefore rest) (hrest : Spell rest tokens) :
    Spell (text ++ rest) (token :: tokens) := by
  intro position
  obtain ⟨lexemes, hrow, rfl⟩ := hrest (position + utf8Length ([] ++ text))
  have hbehind : token.EndsBefore (rest ++ []) := (List.append_nil rest).symm ▸ hends
  exact ⟨_, .cons (fun _ hc => absurd hc List.not_mem_nil) hspelled hbehind hrow, rfl⟩

theorem sign {c : Char} {token : Token} {tokens : List Token} {rest : List Char}
    (hsign : ofSign? c = some token) (hrest : Spell rest tokens) :
    Spell (c :: rest) (token :: tokens) :=
  cons (.sign hsign) ((isBlank_of_sign hsign).2.2 rest) hrest

theorem lexemes_eq {chars : List Char} {tokens : List Token} (hspell : Spell chars tokens) :
    ∃ read position, lexemes (String.ofList chars) = (read, .done position) ∧
      read.map Lexeme.token = tokens := by
  obtain ⟨read, hrow, htokens⟩ := hspell 0
  refine ⟨read, 0 + utf8Length chars, ?_, htokens⟩
  rw [lexemes, Lexer.start, String.toList_ofList]
  exact hrow.readAll_eq

end Token.Spell

/-- Every token that is read is spelled by some characters. -/
theorem exists_isSpelled_of_mem_lexemes {expression : String} {token : Token}
    (htoken : token ∈ (lexemes expression).1.map Lexeme.token) : ∃ text, token.IsSpelled text := by
  obtain ⟨lexeme, hlexeme, rfl⟩ := List.mem_map.mp htoken
  have hnext : ∀ {lexer : Lexer} {lexeme : Lexeme}, lexer.next.1 = .lexeme lexeme →
      ∃ text, lexeme.token.IsSpelled text := by
    intro lexer lexeme hread
    obtain ⟨_, text, _, _, _, hstands, _⟩ := lexer.exists_of_next
    rw [hread] at hstands
    cases hstands with
    | lexeme hspelled _ => exact ⟨text, hspelled⟩
  exact Lexer.readAll_induction hnext (by simp) (Lexer.start expression) lexeme hlexeme

namespace Path

theorem parse_eq_ok_iff {expression : String} {path : Path} :
    parse expression = .ok path ↔ (∃ position, (lexemes expression).2 = .done position) ∧
      Grammar.IsPath ((lexemes expression).1.map Lexeme.token) path.steps := by
  rw [← PathParser.foldlM_accept_start]
  exact PathParser.run_eq_ok_iff

theorem parse_of_spell {chars : List Char} {tokens : List Token} {path : Path}
    (hspell : Token.Spell chars tokens) (hpath : Grammar.IsPath tokens path.steps) :
    parse (String.ofList chars) = .ok path := by
  obtain ⟨read, position, hread, rfl⟩ := hspell.lexemes_eq
  rw [parse_eq_ok_iff, hread]
  exact ⟨⟨position, rfl⟩, hpath⟩

end Path

/-! ## Names and literals -/

theorem Token.ne_of_sign {c : Char} {token : Token} (hsign : ofSign? c = some token)
    (text : String) : token ≠ .name text ∧ token ≠ .literal text := by
  unfold ofSign? at hsign
  split at hsign
  case h_6 => cases hsign
  all_goals
    cases hsign
    exact ⟨Token.noConfusion, Token.noConfusion⟩

theorem Token.IsSpelled.toList {name : String} {text : List Char}
    (hspelled : IsSpelled (.name name) text) : IsSpelled (.name name) name.toList := by
  cases hspelled with
  | sign hsign => exact absurd rfl (ne_of_sign hsign name).1
  | name hne hchars =>
      rw [String.toList_ofList]
      exact .name hne hchars

theorem Token.IsSpelled.exists_quote {value : String} {text : List Char}
    (hspelled : IsSpelled (.literal value) text) :
    ∃ quote, (quote = '"' ∨ quote = '\'') ∧ quote ∉ value.toList := by
  cases hspelled with
  | sign hsign => exact absurd rfl (ne_of_sign hsign value).2
  | @literal quote inner hquote htext =>
      rw [String.toList_ofList]
      exact ⟨quote, hquote, htext⟩

/-- The quote that is chosen by the value does not occur in it, if one of the two does not. -/
theorem Condition.isSpelled_value (condition : Condition) {text : List Char}
    (hspelled : Token.IsSpelled (.literal condition.value) text) :
    Token.IsSpelled (.literal condition.value)
      (condition.quote :: (condition.value.toList ++ [condition.quote])) := by
  obtain ⟨quote, hquote, habsent⟩ := hspelled.exists_quote
  have hchosen : (condition.quote = '"' ∨ condition.quote = '\'') ∧
      condition.quote ∉ condition.value.toList := by
    unfold Condition.quote
    split
    · rename_i hdouble
      refine ⟨.inr rfl, ?_⟩
      rcases hquote with rfl | rfl
      · exact absurd (List.contains_iff_mem.mp hdouble) habsent
      · exact habsent
    · rename_i hdouble
      exact ⟨.inl rfl, fun hmember => hdouble (List.contains_iff_mem.mpr hmember)⟩
  have hliteral := Token.IsSpelled.literal hchosen.1 hchosen.2
  rwa [String.ofList_toList] at hliteral

/-! ## Expressions -/

def Token.AllSpelled (tokens : List Token) : Prop :=
  ∀ token ∈ tokens, ∃ text, token.IsSpelled text

open Token (Spell AllSpelled)

/-- The expression of a condition is read as its tokens. -/
theorem Condition.spell_render {condition : Condition} (hspelled : AllSpelled condition.tokens)
    {rest : List Char} {tokens : List Token} (hrest : Spell rest tokens) :
    Spell (condition.render ++ rest) (condition.tokens ++ tokens) := by
  obtain ⟨_, hname⟩ := hspelled (.name condition.name) (by simp [Condition.tokens])
  obtain ⟨_, hvalue⟩ := hspelled (.literal condition.value) (by simp [Condition.tokens])
  have hchars : condition.render ++ rest =
      '[' :: '@' :: (condition.name.toList ++ '=' ::
        ((condition.quote :: (condition.value.toList ++ [condition.quote])) ++ ']' :: rest)) := by
    simp [Condition.render]
  rw [hchars]
  refine .sign rfl (.sign rfl (.cons hname.toList ?_ (.sign rfl
    (.cons (condition.isSpelled_value hvalue) trivial (.sign rfl hrest)))))
  intro c hc
  cases hc
  decide

/-- The expression of a step is read as its tokens, where its name ends with it. -/
theorem PathStep.spell_render {step : PathStep} (hspelled : AllSpelled step.tokens)
    {rest : List Char} {tokens : List Token} (hrest : Spell rest tokens)
    (hhead : ∀ c, rest.head? = some c → isNameChar c = false) :
    Spell (step.render ++ rest) (step.tokens ++ tokens) := by
  obtain ⟨name, condition⟩ := step
  obtain ⟨_, hname⟩ := hspelled (.name name) (by simp [PathStep.tokens])
  cases condition with
  | none =>
      have hchars : PathStep.render ⟨name, none⟩ ++ rest = '/' :: (name.toList ++ rest) := by
        simp [PathStep.render]
      rw [hchars]
      exact .sign rfl (.cons hname.toList hhead hrest)
  | some condition =>
      have hchars : PathStep.render ⟨name, some condition⟩ ++ rest =
          '/' :: (name.toList ++ (condition.render ++ rest)) := by
        simp [PathStep.render]
      have hcondition : AllSpelled condition.tokens := fun token htoken =>
        hspelled token (by simp [PathStep.tokens, htoken])
      rw [hchars]
      refine .sign rfl (.cons hname.toList ?_ (Condition.spell_render hcondition hrest))
      intro c hc
      cases hc
      decide

/-- The expression of some steps is read as their tokens. -/
theorem spell_flatMap_render {steps : List PathStep}
    (hspelled : AllSpelled (steps.flatMap PathStep.tokens)) :
    Spell (steps.flatMap PathStep.render) (steps.flatMap PathStep.tokens) := by
  induction steps with
  | nil => exact .nil
  | cons step steps ih =>
      rw [List.flatMap_cons] at hspelled
      have hstep : AllSpelled step.tokens := fun token htoken =>
        hspelled token (List.mem_append_left _ htoken)
      have hsteps := ih fun token htoken => hspelled token (List.mem_append_right _ htoken)
      refine PathStep.spell_render hstep hsteps fun c hc => ?_
      -- the next step begins with its slash
      cases steps with
      | nil => cases hc
      | cons next steps =>
          cases hc
          decide

/-- Parsing the expression of a path that has been parsed gives the path back. -/
theorem Path.parse_render {expression : String} {path : Path}
    (hparse : parse expression = .ok path) : parse path.render = .ok path := by
  obtain ⟨-, hpath⟩ := parse_eq_ok_iff.mp hparse
  obtain ⟨hne, htokens⟩ := Grammar.isPath_iff.mp hpath
  have hspelled : AllSpelled (path.steps.flatMap PathStep.tokens) := by
    rw [← htokens]
    exact fun token htoken => exists_isSpelled_of_mem_lexemes htoken
  exact parse_of_spell (spell_flatMap_render hspelled) (Grammar.isPath_iff.mpr ⟨hne, rfl⟩)

/-- A value with double quotes and brackets, an empty one, and a name in another script. -/
theorem Path.parse_render_quotes :
    parse " /a[ @k = 'x\"]' ] /é[@q='']" =
        .ok ⟨[⟨"a", some ⟨"k", "x\"]"⟩⟩, ⟨"é", some ⟨"q", ""⟩⟩]⟩ ∧
      render ⟨[⟨"a", some ⟨"k", "x\"]"⟩⟩, ⟨"é", some ⟨"q", ""⟩⟩]⟩ =
        "/a[@k='x\"]']/é[@q=\"\"]" ∧
      parse "/a[@k='x\"]']/é[@q=\"\"]" =
        .ok ⟨[⟨"a", some ⟨"k", "x\"]"⟩⟩, ⟨"é", some ⟨"q", ""⟩⟩]⟩ := by
  have hparse : parse " /a[ @k = 'x\"]' ] /é[@q='']" =
      .ok ⟨[⟨"a", some ⟨"k", "x\"]"⟩⟩, ⟨"é", some ⟨"q", ""⟩⟩]⟩ := by
    decide +kernel
  have hrender : render ⟨[⟨"a", some ⟨"k", "x\"]"⟩⟩, ⟨"é", some ⟨"q", ""⟩⟩]⟩ =
      "/a[@k='x\"]']/é[@q=\"\"]" := by
    decide +kernel
  exact ⟨hparse, hrender, hrender ▸ parse_render hparse⟩

end VersionedXml
