import Mathlib.Control.Monad.Basic
import VersionedXml.Path.Parser

/-!
# The grammar of paths

A path is a slash and a step, once or more often.  A step is a name, and behind it there may be a
condition in brackets.  The parser accepts exactly the expressions whose tokens are derived in this
way, and the path that it gives has the names and values of the derivation.  Each state of the parser
determines the tokens that led to it, so no sequence of tokens is derived in two ways.
-/

namespace VersionedXml

/-! ## Derivations -/

namespace Grammar

/-- A condition: an open bracket, an at sign, a name, an equals sign, a literal and a close
bracket. -/
inductive IsCondition : List Token → Condition → Prop where
  | brackets (key value : String) :
      IsCondition [.openBracket, .atSign, .name key, .equals, .literal value, .closeBracket]
        ⟨key, value⟩

/-- A step: a name, which a condition may follow. -/
inductive IsStep : List Token → PathStep → Prop where
  | plain (name : String) : IsStep [.name name] ⟨name, none⟩
  | conditional (name : String) {tokens : List Token} {condition : Condition}
      (hcondition : IsCondition tokens condition) :
      IsStep (.name name :: tokens) ⟨name, some condition⟩

/-- A path: a slash and a step, which more of them may follow. -/
inductive IsPath : List Token → List PathStep → Prop where
  | last {tokens : List Token} {step : PathStep} (hstep : IsStep tokens step) :
      IsPath (.slash :: tokens) [step]
  | more {tokens rest : List Token} {step : PathStep} {steps : List PathStep}
      (hstep : IsStep tokens step) (hrest : IsPath rest steps) :
      IsPath (.slash :: tokens ++ rest) (step :: steps)

end Grammar

def Condition.tokens (condition : Condition) : List Token :=
  [.openBracket, .atSign, .name condition.name, .equals, .literal condition.value, .closeBracket]

def PathStep.tokens (step : PathStep) : List Token :=
  .slash :: .name step.name :: (step.condition.map Condition.tokens).getD []

namespace Grammar

theorem isStep_iff {tokens : List Token} {step : PathStep} :
    IsStep tokens step ↔ .slash :: tokens = step.tokens := by
  constructor
  · rintro (⟨name⟩ | ⟨name, ⟨key, value⟩⟩)
    · rfl
    · rfl
  · intro htokens
    obtain ⟨name, condition⟩ := step
    cases condition with
    | none =>
        cases htokens
        exact .plain name
    | some condition =>
        cases htokens
        exact .conditional name (.brackets condition.name condition.value)

/-- A path has steps, and its tokens are those of its steps. -/
theorem isPath_iff {tokens : List Token} {steps : List PathStep} :
    IsPath tokens steps ↔ steps ≠ [] ∧ tokens = steps.flatMap PathStep.tokens := by
  constructor
  · intro hpath
    induction hpath with
    | last hstep => simp [isStep_iff.mp hstep]
    | more hstep _ ih => simp [← isStep_iff.mp hstep, ih.2]
  · rintro ⟨hne, rfl⟩
    induction steps with
    | nil => exact absurd rfl hne
    | cons step steps ih =>
        have hstep : IsStep step.tokens.tail step := isStep_iff.mpr rfl
        cases steps with
        | nil => simpa [PathStep.tokens] using IsPath.last hstep
        | cons next steps =>
            simpa [PathStep.tokens] using IsPath.more hstep (ih (List.cons_ne_nil next steps))

theorem IsPath.name_mem {tokens : List Token} {steps : List PathStep} (hpath : IsPath tokens steps)
    {step : PathStep} (hstep : step ∈ steps) :
    .name step.name ∈ tokens ∧ ∀ condition ∈ step.condition, .name condition.name ∈ tokens := by
  have hmember : ∀ token ∈ step.tokens, token ∈ tokens := by
    intro token htoken
    rw [(isPath_iff.mp hpath).2]
    exact List.mem_flatMap.mpr ⟨step, hstep, htoken⟩
  constructor
  · exact hmember _ (by simp [PathStep.tokens])
  · intro condition hcondition
    exact hmember _ (by simp [PathStep.tokens, Option.mem_def.mp hcondition, Condition.tokens])

end Grammar

/-! ## What the parser has read -/

def Awaiting.read : Awaiting → List Token
  | firstSlash => []
  | stepName => [.slash]
  | afterName name => [.slash, .name name]
  | atSign name => [.slash, .name name, .openBracket]
  | attributeName name => [.slash, .name name, .openBracket, .atSign]
  | equals name key => [.slash, .name name, .openBracket, .atSign, .name key]
  | literal name key => [.slash, .name name, .openBracket, .atSign, .name key, .equals]
  | closeBracket name key value =>
      [.slash, .name name, .openBracket, .atSign, .name key, .equals, .literal value]
  | afterCondition step => step.tokens

namespace PathParser

variable {parser next last : PathParser}

def read (parser : PathParser) : List Token :=
  parser.steps.reverse.flatMap PathStep.tokens ++ parser.awaiting.read

/-- A token that is accepted has been read behind all others. -/
theorem read_accept {token : Token} (haccept : parser.accept token = some next) :
    next.read = parser.read ++ [token] := by
  obtain ⟨steps, awaiting⟩ := parser
  unfold accept at haccept
  dsimp only at haccept
  split at haccept
  case h_11 => cases haccept
  all_goals
    cases haccept
    simp [read, Awaiting.read, PathStep.tokens, Condition.tokens]

theorem read_foldlM_accept {tokens : List Token} (haccept : tokens.foldlM accept parser = some last) :
    last.read = parser.read ++ tokens := by
  induction tokens generalizing parser with
  | nil =>
      cases haccept
      exact (List.append_nil _).symm
  | cons token tokens ih =>
      rw [List.foldlM_cons] at haccept
      obtain ⟨next, hnext, hlast⟩ := Option.bind_eq_some_iff.mp haccept
      rw [ih hlast, read_accept hnext, List.append_assoc, List.singleton_append]

/-- Where an expression may end, the tokens of a path have been read. -/
theorem isPath_of_path? {path : Path} (hpath : parser.path? = some path) :
    Grammar.IsPath parser.read path.steps := by
  obtain ⟨step, hstep, rfl⟩ := Option.map_eq_some_iff.mp hpath
  rw [Grammar.isPath_iff]
  refine ⟨by simp, ?_⟩
  have hread : parser.awaiting.read = step.tokens := by
    cases hawaiting : parser.awaiting with
    | afterName name =>
        rw [hawaiting] at hstep
        cases hstep
        rfl
    | afterCondition complete =>
        rw [hawaiting] at hstep
        cases hstep
        rfl
    | _ =>
        rw [hawaiting] at hstep
        cases hstep
  rw [read, hread, List.reverse_cons, List.flatMap_append, List.flatMap_singleton]

/-! ## Accepting a path -/

def HasRead (parser : PathParser) (steps : List PathStep) : Prop :=
  (parser = start ∧ steps = []) ∨ parser.path? = some ⟨steps⟩

/-- Behind any number of complete steps a slash may come. -/
theorem HasRead.accept_slash {steps : List PathStep} (hread : parser.HasRead steps) :
    parser.accept .slash = some ⟨steps.reverse, .stepName⟩ := by
  rcases hread with ⟨rfl, rfl⟩ | hpath
  · rfl
  · obtain ⟨step, hstep, hsteps⟩ := Option.map_eq_some_iff.mp hpath
    have hreverse : steps.reverse = step :: parser.steps := by
      cases hsteps
      exact List.reverse_reverse _
    obtain ⟨known, awaiting⟩ := parser
    rw [hreverse]
    cases awaiting with
    | afterName name =>
        cases hstep
        rfl
    | afterCondition complete =>
        cases hstep
        rfl
    | _ => cases hstep

theorem HasRead.foldlM_step {steps : List PathStep} (hread : parser.HasRead steps)
    (step : PathStep) :
    ∃ last, step.tokens.foldlM accept parser = some last ∧ last.HasRead (steps ++ [step]) := by
  have hpath : ∀ awaiting, Awaiting.step? awaiting = some step →
      HasRead ⟨steps.reverse, awaiting⟩ (steps ++ [step]) := by
    intro awaiting hstep
    right
    simp [path?, hstep]
  obtain ⟨name, condition⟩ := step
  rw [PathStep.tokens, List.foldlM_cons, hread.accept_slash]
  cases condition with
  | none => exact ⟨⟨steps.reverse, .afterName name⟩, rfl, hpath _ rfl⟩
  | some condition =>
      exact ⟨⟨steps.reverse, .afterCondition ⟨name, some condition⟩⟩, rfl, hpath _ rfl⟩

theorem HasRead.foldlM_steps {known : List PathStep} (hread : parser.HasRead known)
    (steps : List PathStep) :
    ∃ last, (steps.flatMap PathStep.tokens).foldlM accept parser = some last ∧
      last.HasRead (known ++ steps) := by
  induction steps generalizing parser known with
  | nil => exact ⟨parser, rfl, by rwa [List.append_nil]⟩
  | cons step steps ih =>
      obtain ⟨middle, hmiddle, hfirst⟩ := hread.foldlM_step step
      obtain ⟨last, hlast, hall⟩ := ih hfirst
      refine ⟨last, ?_, by rwa [List.append_assoc] at hall⟩
      rw [List.flatMap_cons, List.foldlM_append, hmiddle]
      exact hlast

/-- A path ends where the tokens that have been accepted are its own. -/
theorem foldlM_accept_start {tokens : List Token} {path : Path} :
    (∃ last, tokens.foldlM accept start = some last ∧ last.path? = some path) ↔
      Grammar.IsPath tokens path.steps := by
  constructor
  · rintro ⟨last, haccept, hpath⟩
    have hread : last.read = tokens := read_foldlM_accept haccept
    exact hread ▸ isPath_of_path? hpath
  · intro hpath
    obtain ⟨hne, rfl⟩ := Grammar.isPath_iff.mp hpath
    have hstart : start.HasRead [] := .inl ⟨rfl, rfl⟩
    obtain ⟨last, hlast, hread⟩ := hstart.foldlM_steps path.steps
    rcases hread with ⟨-, hnil⟩ | hall
    · exact absurd hnil hne
    · exact ⟨last, hlast, hall⟩

/-- Parsing succeeds where all tokens are accepted, the expression is lexed to its end, and a step is
complete there. -/
theorem run_eq_ok_iff {ending : Ending} {lexemes : List Lexeme} {path : Path} :
    run ending parser lexemes = .ok path ↔ (∃ position, ending = .done position) ∧
      ∃ last, (lexemes.map Lexeme.token).foldlM accept parser = some last ∧
        last.path? = some path := by
  induction lexemes generalizing parser with
  | nil =>
      cases ending with
      | failed error => simp [run]
      | done position => cases hpath : parser.path? <;> simp [run, hpath]
  | cons lexeme rest ih =>
      rw [run, List.map_cons, List.foldlM_cons]
      cases haccept : parser.accept lexeme.token with
      | none => simp
      | some next => exact ih

end PathParser

theorem Grammar.IsPath.unique {tokens : List Token} {first second : List PathStep}
    (hfirst : IsPath tokens first) (hsecond : IsPath tokens second) : first = second := by
  have haccepted : ∀ steps, IsPath tokens steps → ∃ last,
      tokens.foldlM PathParser.accept .start = some last ∧ last.path? = some ⟨steps⟩ :=
    fun steps hsteps => PathParser.foldlM_accept_start.mpr hsteps
  obtain ⟨last, hlast, hone⟩ := haccepted first hfirst
  obtain ⟨other, hother, htwo⟩ := haccepted second hsecond
  cases hlast.symm.trans hother
  cases hone.symm.trans htwo
  rfl

/-! ## Names of tokens -/

/-- A name that is read has characters. -/
theorem Lexer.ne_empty_of_next {lexer : Lexer} {position : Nat} {text : String}
    (hnext : lexer.next.1 = .lexeme ⟨.name text, position⟩) : text ≠ "" := by
  unfold next at hnext
  dsimp only at hnext
  cases hrest : lexer.skipBlank.rest with
  | nil =>
      rw [hrest] at hnext
      cases hnext
  | cons c tail =>
      rw [hrest] at hnext
      simp only [readFrom] at hnext
      split at hnext
      · rename_i token hsign
        cases hnext
        unfold Token.ofSign? at hsign
        split at hsign <;> cases hsign
      · split at hnext
        · unfold readLiteral at hnext
          dsimp only at hnext
          split at hnext <;> cases hnext
        · split at hnext
          · rename_i hname
            cases hnext
            rw [hrest]
            simp [hname]
          · cases hnext

/-- What every token has that is read at some place holds of all tokens. -/
theorem Lexer.readAll_induction {property : Lexeme → Prop}
    (hnext : ∀ {lexer : Lexer} {lexeme : Lexeme}, lexer.next.1 = .lexeme lexeme → property lexeme)
    {known : Array Lexeme} (hknown : ∀ lexeme ∈ known, property lexeme) (lexer : Lexer) :
    ∀ lexeme ∈ (lexer.readAll known).1, property lexeme := by
  fun_induction Lexer.readAll known lexer with
  | case1 known lexer ending hread => exact fun lexeme hlexeme => hknown lexeme (by simpa using hlexeme)
  | case2 known lexer lexeme hread _ ih =>
      refine ih ?_
      intro other hother
      rcases Array.mem_push.mp hother with hold | rfl
      · exact hknown other hold
      · exact hnext hread

theorem ne_empty_of_mem_lexemes {expression text : String}
    (hname : .name text ∈ (lexemes expression).1.map Lexeme.token) : text ≠ "" := by
  obtain ⟨lexeme, hlexeme, htoken⟩ := List.mem_map.mp hname
  have hall : ∀ lexeme ∈ (lexemes expression).1, ∀ text, lexeme.token = .name text → text ≠ "" := by
    refine Lexer.readAll_induction ?_ (by simp) (Lexer.start expression)
    rintro lexer ⟨token, position⟩ hnext text rfl
    exact Lexer.ne_empty_of_next hnext
  exact hall lexeme hlexeme text htoken

theorem tokenize_eq_ok_iff {expression : String} {read : List Lexeme} :
    tokenize expression = .ok read ↔ ∃ position, lexemes expression = (read, .done position) := by
  unfold tokenize
  split
  · rename_i tokens position hlexemes
    simp [hlexemes]
  · rename_i tokens error hlexemes
    simp [hlexemes]

namespace Path

/-- An expression has a path exactly if it is lexed to its end without a fault and its tokens are
derived from the grammar, and then the path has the steps of the derivation, of which there is only
one.  A path has steps, and its names have characters. -/
theorem parse_eq_ok_iff_isPath (expression : String) :
    (∀ path, parse expression = .ok path ↔
      ∃ read, tokenize expression = .ok read ∧
        Grammar.IsPath (read.map Lexeme.token) path.steps) ∧
    (∀ tokens first second, Grammar.IsPath tokens first → Grammar.IsPath tokens second →
      first = second) ∧
    ∀ path, parse expression = .ok path →
      path.steps ≠ [] ∧ ∀ step ∈ path.steps,
        step.name ≠ "" ∧ ∀ condition ∈ step.condition, condition.name ≠ "" := by
  have hparse : ∀ path, parse expression = .ok path ↔
      (∃ position, (lexemes expression).2 = .done position) ∧
        Grammar.IsPath ((lexemes expression).1.map Lexeme.token) path.steps := by
    intro path
    rw [← PathParser.foldlM_accept_start]
    exact PathParser.run_eq_ok_iff
  refine ⟨?_, fun _ _ _ hfirst hsecond => hfirst.unique hsecond, ?_⟩
  · intro path
    rw [hparse]
    constructor
    · rintro ⟨⟨position, hdone⟩, hpath⟩
      exact ⟨(lexemes expression).1, tokenize_eq_ok_iff.mpr ⟨position, Prod.ext rfl hdone⟩, hpath⟩
    · rintro ⟨read, hread, hpath⟩
      obtain ⟨position, hlexemes⟩ := tokenize_eq_ok_iff.mp hread
      rw [hlexemes]
      exact ⟨⟨position, rfl⟩, hpath⟩
  · intro path hok
    obtain ⟨-, hpath⟩ := (hparse path).mp hok
    refine ⟨(Grammar.isPath_iff.mp hpath).1, fun step hstep => ?_⟩
    obtain ⟨hname, hcondition⟩ := hpath.name_mem hstep
    exact ⟨ne_empty_of_mem_lexemes hname,
      fun condition hmember => ne_empty_of_mem_lexemes (hcondition condition hmember)⟩

/-- Two steps, with blanks between the tokens and a bracket in the literal. -/
theorem parse_eq_ok_iff_isPath_spaced :
    parse " / a[ @k='x]' ]/b" = .ok ⟨[⟨"a", some ⟨"k", "x]"⟩⟩, ⟨"b", none⟩]⟩ ∧
      (∃ read, tokenize " / a[ @k='x]' ]/b" = .ok read ∧
        Grammar.IsPath (read.map Lexeme.token) [⟨"a", some ⟨"k", "x]"⟩⟩, ⟨"b", none⟩]) ∧
      ¬ ∃ read, tokenize " / a[ @k='x]' ]/b" = .ok read ∧
        Grammar.IsPath (read.map Lexeme.token) [⟨"a", none⟩, ⟨"b", none⟩] := by
  have hparse : parse " / a[ @k='x]' ]/b" = .ok ⟨[⟨"a", some ⟨"k", "x]"⟩⟩, ⟨"b", none⟩]⟩ := by
    decide +kernel
  obtain ⟨hiff, -, -⟩ := parse_eq_ok_iff_isPath " / a[ @k='x]' ]/b"
  refine ⟨hparse, (hiff _).mp hparse, fun hother => ?_⟩
  have hsame := hparse.symm.trans ((hiff ⟨[⟨"a", none⟩, ⟨"b", none⟩]⟩).mpr hother)
  simp at hsame

end Path

end VersionedXml
