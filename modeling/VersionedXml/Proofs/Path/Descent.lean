import VersionedXml.Path.Descent
import VersionedXml.Proofs.Path.Lexing

/-!
# Descent and the tokens of an expression

A parser by descent reads one token ahead, and its place in the grammar is where its functions have
come to.  What it awaits there is what the parser that takes one token after the other awaits, so both
accept the same expressions with the same paths and refuse the others in the same way.  A token is
looked at before the next one is read, so a failure behind it never comes first.
-/

namespace VersionedXml

namespace PathReader

variable {reader next : PathReader} {parser after : PathParser} {α β : Type}

def left (reader : PathReader) : List Lexeme × Ending :=
  match reader.current with
  | none => ([], .done reader.position)
  | some token =>
      let behind := reader.lexer.readAll #[]
      (⟨token, reader.position⟩ :: behind.1, behind.2)

theorem left_of_read {lexer : Lexer} (hread : read lexer = .ok reader) :
    reader.left = lexer.readAll #[] := by
  unfold read at hread
  cases hnext : lexer.next.1 with
  | lexeme lexeme =>
      rw [hnext] at hread
      obtain rfl := Except.ok.inj hread
      rw [Lexer.readAll_of_lexeme _ hnext, Lexer.readAll_eq_append]
      rfl
  | ended ending =>
      rw [hnext] at hread
      cases ending with
      | failed error => cases hread
      | done position =>
          obtain rfl := Except.ok.inj hread
          rw [Lexer.readAll_of_ended _ hnext]
          rfl

theorem readAll_of_read {lexer : Lexer} {error : PathError} (hread : read lexer = .error error) :
    lexer.readAll #[] = ([], .failed error) := by
  unfold read at hread
  cases hnext : lexer.next.1 with
  | lexeme lexeme =>
      rw [hnext] at hread
      cases hread
  | ended ending =>
      rw [hnext] at hread
      cases ending with
      | done position => cases hread
      | failed found =>
          obtain rfl := Except.error.inj hread
          exact Lexer.readAll_of_ended _ hnext

/-! ## Going on with the tokens that are left -/

def resume (parser : PathParser) (reader : PathReader) : Except PathError Path :=
  parser.run reader.left.2 reader.left.1

theorem resume_of_accept {token : Token} (hcurrent : reader.current = some token)
    (haccept : parser.accept token = some after) :
    resume parser reader =
      after.run (reader.lexer.readAll #[]).2 (reader.lexer.readAll #[]).1 := by
  simp only [resume, left, hcurrent, PathParser.run, haccept]

theorem resume_of_refuse
    (hrefuse : ∀ token, reader.current = some token → parser.accept token = none)
    (hend : reader.current = none → parser.path? = none) :
    resume parser reader = .error ⟨parser.awaiting.fault, reader.position⟩ := by
  cases hcurrent : reader.current with
  | none => simp only [resume, left, hcurrent, PathParser.run, hend hcurrent]
  | some token => simp only [resume, left, hcurrent, PathParser.run, hrefuse token hcurrent]

theorem resume_of_end {path : Path} (hcurrent : reader.current = none)
    (hpath : parser.path? = some path) : resume parser reader = .ok path := by
  simp only [resume, left, hcurrent, PathParser.run, hpath]

theorem resume_congr {other : PathParser} {token : Token} (hcurrent : reader.current = some token)
    (haccept : parser.accept token = other.accept token)
    (hfault : parser.awaiting.fault = other.awaiting.fault) :
    resume parser reader = resume other reader := by
  simp only [resume, left, hcurrent, PathParser.run, haccept, hfault]

/-! ## Rules -/

/-- A rule fails with the answer, or the parser behind it gives that answer to what the rule leaves. -/
inductive Outcome (answer : Except PathError Path) (behind : α → PathParser) :
    Except PathError (α × PathReader) → Prop where
  | failed {error : PathError} (hanswer : answer = .error error) :
      Outcome answer behind (.error error)
  | taken {value : α} {next : PathReader} (hanswer : answer = resume (behind value) next) :
      Outcome answer behind (.ok (value, next))

/-- What follows a rule gives the answer from where the rule has come to. -/
theorem Outcome.bind {answer : Except PathError Path} {behind : α → PathParser}
    {further : β → PathParser} {result : Except PathError (α × PathReader)} {rules : α → Rule β}
    (houtcome : Outcome answer behind result)
    (hrules : ∀ value next,
      Outcome (resume (behind value) next) further (rules value next)) :
    Outcome answer further (result >>= fun taken => rules taken.1 taken.2) := by
  cases houtcome with
  | failed hanswer => exact .failed hanswer
  | taken hanswer => exact hanswer ▸ hrules _ _

/-- Between two places in the grammar a rule does what the parser does with the tokens. -/
def Takes (before : PathParser) (rule : Rule α) (behind : α → PathParser) : Prop :=
  ∀ reader, Outcome (resume before reader) behind (rule reader)

theorem Takes.bind {before : PathParser} {rule : Rule α} {behind : α → PathParser}
    {rules : α → Rule β} {further : β → PathParser} (htakes : Takes before rule behind)
    (hrules : ∀ value, Takes (behind value) (rules value) further) :
    Takes before (rule >>= rules) further :=
  fun reader => (htakes reader).bind hrules

theorem Takes.resume_of_ok {before : PathParser} {rule : Rule α} {behind : α → PathParser}
    {value : α} (htakes : Takes before rule behind) (htaken : rule reader = .ok (value, next)) :
    resume before reader = resume (behind value) next := by
  have houtcome := htakes reader
  rw [htaken] at houtcome
  cases houtcome with
  | taken hanswer => exact hanswer

theorem Takes.resume_of_error {before : PathParser} {rule : Rule α} {behind : α → PathParser}
    {error : PathError} (htakes : Takes before rule behind) (hfailed : rule reader = .error error) :
    resume before reader = .error error := by
  have houtcome := htakes reader
  rw [hfailed] at houtcome
  cases houtcome with
  | failed hanswer => exact hanswer

theorem takes_pure (behind : α → PathParser) (value : α) :
    Takes (behind value) (pure value) behind :=
  fun _ => .taken rfl

/-- A rule that looks at the token at hand goes on from there. -/
theorem takes_get {before : PathParser} {rules : PathReader → Rule α} {behind : α → PathParser}
    (hrules : ∀ reader, Outcome (resume before reader) behind (rules reader reader)) :
    Takes before (get >>= rules) behind :=
  hrules

/-- A token that may come next is taken. -/
theorem outcome_advance {token : Token} (hcurrent : reader.current = some token)
    (haccept : parser.accept token = some after) :
    Outcome (resume parser reader) (fun _ => after) (advance reader) := by
  have hresume := resume_of_accept hcurrent haccept
  unfold advance
  cases hread : read reader.lexer with
  | error error =>
      rw [readAll_of_read hread] at hresume
      exact .failed hresume
  | ok next =>
      rw [← left_of_read hread] at hresume
      exact .taken hresume

theorem outcome_missing {wanted : Wanted} {behind : α → PathParser}
    (hrefuse : ∀ token, reader.current = some token → parser.accept token = none)
    (hend : parser.path? = none) (hfault : parser.awaiting.fault = .expected wanted) :
    Outcome (resume parser reader) behind (missing wanted reader) :=
  .failed (hfault ▸ resume_of_refuse hrefuse fun _ => hend)

/-- A parser that awaits one token only is at a place where that token is expected. -/
theorem takes_expect {token : Token} {wanted : Wanted}
    (haccept : ∀ other, parser.accept other = if other = token then some after else none)
    (hend : parser.path? = none) (hfault : parser.awaiting.fault = .expected wanted) :
    Takes parser (expect token wanted) fun _ => after := by
  refine takes_get fun reader => ?_
  split
  · rename_i hcurrent
    exact outcome_advance hcurrent ((haccept token).trans (if_pos rfl))
  · rename_i hother
    refine outcome_missing (fun other hcurrent => ?_) hend hfault
    refine (haccept other).trans (if_neg ?_)
    rintro rfl
    exact hother hcurrent

theorem takes_expectText {text? : Token → Option String} {wanted : Wanted}
    {behind : String → PathParser}
    (haccept : ∀ token, parser.accept token = (text? token).map behind)
    (hend : parser.path? = none) (hfault : parser.awaiting.fault = .expected wanted) :
    Takes parser (expectText text? wanted) behind := by
  refine takes_get fun reader => ?_
  cases htext : reader.current.bind text? with
  | some text =>
      obtain ⟨token, hcurrent, htoken⟩ := Option.bind_eq_some_iff.mp htext
      have hnext : parser.accept token = some (behind text) := by
        rw [haccept, htoken, Option.map_some]
      exact (outcome_advance hcurrent hnext).bind fun _ next => takes_pure behind text next
  | none =>
      refine outcome_missing (fun token hcurrent => ?_) hend hfault
      rw [hcurrent, Option.bind_some] at htext
      rw [haccept, htext, Option.map_none]

theorem takes_parseCondition (steps : List PathStep) (name : String) :
    Takes ⟨steps, .atSign name⟩ parseCondition fun condition =>
      ⟨steps, .afterCondition ⟨name, some condition⟩⟩ := by
  have hatSign : Takes ⟨steps, .atSign name⟩ (expect .atSign .atSign)
      fun _ => ⟨steps, .attributeName name⟩ :=
    takes_expect (fun other => by cases other <;> rfl) rfl rfl
  have hkey : Takes ⟨steps, .attributeName name⟩ (expectText Token.name? .name)
      fun key => ⟨steps, .equals name key⟩ :=
    takes_expectText (fun token => by cases token <;> rfl) rfl rfl
  have hequals : ∀ key, Takes ⟨steps, .equals name key⟩ (expect .equals .equals)
      fun _ => ⟨steps, .literal name key⟩ :=
    fun key => takes_expect (fun other => by cases other <;> rfl) rfl rfl
  have hvalue : ∀ key, Takes ⟨steps, .literal name key⟩ (expectText Token.literal? .literal)
      fun value => ⟨steps, .closeBracket name key value⟩ :=
    fun key => takes_expectText (fun token => by cases token <;> rfl) rfl rfl
  have hclose : ∀ key value, Takes ⟨steps, .closeBracket name key value⟩
      (expect .closeBracket .closeBracket)
      fun _ => ⟨steps, .afterCondition ⟨name, some ⟨key, value⟩⟩⟩ :=
    fun key value => takes_expect (fun other => by cases other <;> rfl) rfl rfl
  refine hatSign.bind fun _ => hkey.bind fun key => (hequals key).bind fun _ =>
    (hvalue key).bind fun value => (hclose key value).bind fun _ => ?_
  exact takes_pure (fun condition => ⟨steps, .afterCondition ⟨name, some condition⟩⟩) ⟨key, value⟩

/-- A step without a condition ends where no bracket opens. -/
theorem takes_parseStep (steps : List PathStep) :
    Takes ⟨steps, .stepName⟩ parseStep fun step => ⟨steps, .afterCondition step⟩ := by
  let behind := fun step : PathStep => (⟨steps, .afterCondition step⟩ : PathParser)
  have hname : Takes ⟨steps, .stepName⟩ (expectText Token.name? .name)
      fun name => ⟨steps, .afterName name⟩ :=
    takes_expectText (fun token => by cases token <;> rfl) rfl rfl
  refine hname.bind fun name => takes_get fun reader => ?_
  split
  · rename_i hcurrent
    have hopen : Outcome (resume ⟨steps, .afterName name⟩ reader)
        (fun _ => ⟨steps, .atSign name⟩) (advance reader) :=
      outcome_advance hcurrent rfl
    have hcondition := (takes_parseCondition steps name).bind fun condition =>
      takes_pure behind ⟨name, some condition⟩
    exact hopen.bind fun _ next => hcondition next
  · rename_i hother
    refine .taken ?_
    cases hcurrent : reader.current with
    | none => exact (resume_of_end hcurrent rfl).trans (resume_of_end hcurrent rfl).symm
    | some token =>
        refine resume_congr hcurrent ?_ rfl
        cases token with
        | openBracket => exact absurd hcurrent hother
        | _ => rfl

/-- Behind a complete step nothing but a slash may stand. -/
theorem resume_of_trailing {steps : List PathStep} {step : PathStep} {token : Token}
    (hcurrent : reader.current = some token)
    (hrefuse : PathParser.accept ⟨steps, .afterCondition step⟩ token = none) :
    resume ⟨steps, .afterCondition step⟩ reader = .error ⟨.trailingInput, reader.position⟩ :=
  resume_of_refuse (fun _ htoken => Option.some.inj (hcurrent.symm.trans htoken) ▸ hrefuse)
    fun hnone => nomatch hcurrent.symm.trans hnone

/-- Descent takes the steps that the parser takes, from the slash before the first of them on. -/
theorem parseSteps_eq (known : Array PathStep) (reader : PathReader) :
    parseSteps known reader = resume ⟨known.toList.reverse, .firstSlash⟩ reader := by
  have hslash : ∀ steps, Takes ⟨steps, .firstSlash⟩ (expect .slash .slash)
      fun _ => ⟨steps, .stepName⟩ :=
    fun steps => takes_expect (fun other => by cases other <;> rfl) rfl rfl
  have hstep := fun known : Array PathStep =>
    (hslash known.toList.reverse).bind fun _ => takes_parseStep known.toList.reverse
  have hpush : ∀ (known : Array PathStep) (step : PathStep),
      (known.push step).toList.reverse = step :: known.toList.reverse := fun known step => by
    rw [Array.toList_push, List.reverse_concat]
  fun_induction parseSteps known reader with
  | case1 known reader error hfailed => exact ((hstep known).resume_of_error hfailed).symm
  | case2 known reader step next htaken hcurrent _ ih =>
      rw [ih, hpush, (hstep known).resume_of_ok htaken]
      exact (resume_of_accept hcurrent rfl).trans (resume_of_accept hcurrent rfl).symm
  | case3 known reader step next htaken hcurrent =>
      have hpath : (⟨(known.push step).toList⟩ : Path) =
          ⟨(step :: known.toList.reverse).reverse⟩ := by
        rw [← hpush, List.reverse_reverse]
      rw [(hstep known).resume_of_ok htaken, hpath]
      exact (resume_of_end hcurrent rfl).symm
  | case4 known reader step next htaken token hother hcurrent =>
      rw [(hstep known).resume_of_ok htaken]
      refine (resume_of_trailing hcurrent ?_).symm
      cases token with
      | slash => exact absurd rfl hother
      | _ => rfl

/-- Parsing by descent gives the same path or the same error for every expression. -/
theorem parse_eq (expression : String) : parse expression = Path.parse expression := by
  unfold parse start
  cases hread : read (Lexer.start expression) with
  | error error =>
      have hlexemes : lexemes expression = ([], .failed error) := readAll_of_read hread
      rw [Path.parse, hlexemes]
      rfl
  | ok reader =>
      have hlexemes : reader.left = lexemes expression := left_of_read hread
      rw [Path.parse, ← hlexemes]
      exact parseSteps_eq #[] reader

end PathReader

end VersionedXml
