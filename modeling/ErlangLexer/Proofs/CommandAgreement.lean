import ErlangLexer.CommandLine.Report
import Mathlib.Algebra.Ring.Nat
import Mathlib.Data.List.TakeWhile

/-!
# The commands agree

`tokens` stops at the first error of a file and `forms` goes on behind it. Both are told by
what `forms` prints, line by line in the order of time, output and errors together:

* `formLines_eq_transcript`, `errors_eq_transcript`: the lines of `forms` on its two ways
  out are the lines of the transcript that belong there;
* `transcript_takeWhile`: the transcript of what comes before the first error is the part of
  the transcript before its first error line;
* `tokenLines_eq_transcript`, `length_tokens_eq_transcript`: the token lines of some outcomes
  are the lines of their transcript without the headers, and as many as the headers count.
-/

namespace ErlangLexer.CommandLine

/-- A line that `forms` prints of a file. -/
inductive Line where
  | header (number size : Nat) (finish : Location)
  | token (token : Token)
  | error (error : LexicalError)

namespace Line

@[simp]
def error? : Line → Option LexicalError
  | .error e => some e
  | _ => none

@[simp]
def isToken : Line → Bool
  | .token _ => true
  | _ => false

/-- The tokens that a line counts. -/
@[simp]
def size : Line → Nat
  | .header _ size _ => size
  | _ => 0

/-- A line as it is printed, but for its line break. -/
def text (path : String) (flags : Flags) : Line → String
  | .header number size finish =>
    "Form " ++ toString number ++ " (" ++ toString size ++ " tokens, ends at " ++
      finish.render ++ "):"
  | .token t => flags.tokenLine t
  | .error e => errorLine path e

end Line

/-- The lines of `forms` on some outcomes, in the order of time. The forms are numbered from
`number` on. -/
def transcript (number : Nat) : List Outcome → List Line
  | [] => []
  | .tokens list finish :: outcomes =>
    .header number list.size finish ::
      (list.toList.map .token ++ transcript (number + 1) outcomes)
  | .error error _ :: outcomes => .error error :: transcript number outcomes
  | .nothing _ :: outcomes => transcript number outcomes

/-! ## The tokens of a form -/

namespace Line

theorem filter_tokens (p : Line → Bool) (all : ∀ t, p (.token t) = true) (list : List Token) :
    (list.map token).filter p = list.map token := by
  rw [List.filter_eq_self]
  simp [all]

theorem filterMap_error?_tokens (list : List Token) : (list.map token).filterMap error? = [] := by
  simp

theorem sum_size_tokens (list : List Token) : ((list.map token).map size).sum = 0 := by
  induction list with
  | nil => rfl
  | cons t list ih => simpa using ih

theorem map_text_tokens (path : String) (flags : Flags) (list : List Token) :
    (list.map token).map (text path flags) = list.map flags.tokenLine := by
  simp [text]

end Line

/-! ## The lines of `forms` -/

theorem formLines_eq_transcript (path : String) (flags : Flags) (number : Nat)
    (outcomes : List Outcome) :
    formLines flags number outcomes =
      ((transcript number outcomes).filter (·.error?.isNone)).map (Line.text path flags) := by
  induction outcomes generalizing number with
  | nil => rfl
  | cons outcome outcomes ih =>
    cases outcome with
    | tokens list finish =>
      have kept := Line.filter_tokens (·.error?.isNone) (fun _ => rfl) list.toList
      rw [transcript, List.filter_cons_of_pos rfl, List.filter_append, kept, List.map_cons,
        List.map_append, Line.map_text_tokens, ← ih]
      rfl
    | nothing => exact ih number
    | error => exact ih number

theorem errors_eq_transcript (number : Nat) (outcomes : List Outcome) :
    outcomes.filterMap errorOf? = (transcript number outcomes).filterMap Line.error? := by
  induction outcomes generalizing number with
  | nil => rfl
  | cons outcome outcomes ih =>
    cases outcome with
    | tokens list finish =>
      simp only [transcript, errorOf?, Line.error?, List.filterMap_cons, List.filterMap_append,
        Line.filterMap_error?_tokens, List.nil_append]
      exact ih (number + 1)
    | nothing => exact ih number
    | error => simp [transcript, errorOf?, ih number]

/-! ## The lines of `tokens` -/

/-- Both stop rules cut at one place. -/
theorem transcript_takeWhile (number : Nat) (outcomes : List Outcome) :
    transcript number (outcomes.takeWhile fun o => (errorOf? o).isNone) =
      (transcript number outcomes).takeWhile (·.error?.isNone) := by
  induction outcomes generalizing number with
  | nil => rfl
  | cons outcome outcomes ih =>
    cases outcome with
    | tokens list finish =>
      have passed : ∀ line ∈ list.toList.map Line.token, line.error?.isNone = true := by simp
      rw [List.takeWhile_cons_of_pos rfl, transcript, transcript, List.takeWhile_cons_of_pos rfl,
        List.takeWhile_append_of_pos passed, ih]
    | nothing => exact ih number
    | error => rfl

theorem tokenLines_eq_transcript (path : String) (flags : Flags) (number : Nat)
    (outcomes : List Outcome) :
    (outcomes.flatMap tokensOf).map flags.tokenLine =
      ((transcript number outcomes).filter (·.isToken)).map (Line.text path flags) := by
  induction outcomes generalizing number with
  | nil => rfl
  | cons outcome outcomes ih =>
    cases outcome with
    | tokens list finish =>
      have kept := Line.filter_tokens (·.isToken) (fun _ => rfl) list.toList
      rw [List.flatMap_cons, List.map_append, transcript, List.filter_cons_of_neg Bool.noConfusion,
        List.filter_append, kept, List.map_append, Line.map_text_tokens, ← ih]
      rfl
    | nothing => exact ih number
    | error => exact ih number

theorem length_tokens_eq_transcript (number : Nat) (outcomes : List Outcome) :
    (outcomes.flatMap tokensOf).length = ((transcript number outcomes).map Line.size).sum := by
  induction outcomes generalizing number with
  | nil => rfl
  | cons outcome outcomes ih =>
    cases outcome with
    | tokens list finish =>
      simp only [List.flatMap_cons, tokensOf, List.length_append, Array.length_toList, transcript,
        List.map_cons, List.map_append, List.sum_cons, List.sum_append, Line.sum_size_tokens,
        Line.size, ih (number + 1), Nat.zero_add]
    | nothing => exact ih number
    | error => simpa [transcript, tokensOf] using ih number

/-! ## Both reports -/

theorem tokensReport_eq_transcript (path : String) (flags : Flags) (outcomes : List Outcome) :
    let printed := transcript 1 outcomes
    let before := printed.takeWhile (·.error?.isNone)
    (tokensReport path flags outcomes).output =
      unlines
        (("Tokens for '" ++ path ++ "' (" ++ toString (before.map Line.size).sum ++ " tokens):") ::
          (before.filter (·.isToken)).map (Line.text path flags)) ∧
    match printed.filterMap Line.error? with
    | [] =>
      (tokensReport path flags outcomes).exit = 0 ∧ (tokensReport path flags outcomes).errors = ""
    | e :: _ =>
      (tokensReport path flags outcomes).exit = 1 ∧
        (tokensReport path flags outcomes).errors = unlines ["error: " ++ errorLine path e] := by
  intro printed before
  have cut : transcript 1 (outcomes.takeWhile fun o => (errorOf? o).isNone) = before :=
    transcript_takeWhile 1 outcomes
  have lines := tokenLines_eq_transcript path flags 1
    (outcomes.takeWhile fun o => (errorOf? o).isNone)
  have count := length_tokens_eq_transcript 1 (outcomes.takeWhile fun o => (errorOf? o).isNone)
  have first : outcomes.findSome? errorOf? = (printed.filterMap Line.error?).head? := by
    rw [← List.head?_filterMap, errors_eq_transcript 1]
  rw [cut] at lines count
  simp only [tokensReport, lines, count, first]
  cases printed.filterMap Line.error? with
  | nil => exact ⟨rfl, rfl, rfl⟩
  | cons e later => exact ⟨rfl, rfl, rfl⟩

theorem formsReport_eq_transcript (path : String) (flags : Flags) (outcomes : List Outcome) :
    let printed := transcript 1 outcomes
    (formsReport path flags outcomes).output =
      unlines ((printed.filter (·.error?.isNone)).map (Line.text path flags)) ∧
    match printed.filterMap Line.error? with
    | [] =>
      (formsReport path flags outcomes).exit = 0 ∧ (formsReport path flags outcomes).errors = ""
    | e :: later =>
      (formsReport path flags outcomes).exit = 1 ∧
        (formsReport path flags outcomes).errors =
          unlines ((e :: later).map (errorLine path) ++
            ["error: " ++ toString (later.length + 1) ++ " form(s) in '" ++ path ++
              "' failed to scan"]) := by
  intro printed
  simp only [formsReport, formLines_eq_transcript path, errors_eq_transcript 1]
  cases (transcript 1 outcomes).filterMap Line.error? with
  | nil => exact ⟨rfl, rfl, rfl⟩
  | cons e later => exact ⟨rfl, rfl, rfl⟩

theorem takeWhile_of_no_error {lines : List Line} (none : lines.filterMap Line.error? = []) :
    lines.takeWhile (·.error?.isNone) = lines := by
  apply List.takeWhile_eq_self_iff.mpr
  intro line listed
  exact Option.isNone_iff_eq_none.mpr (List.filterMap_eq_nil_iff.mp none line listed)

end CommandLine

open CommandLine

/-- **The commands agree.** Given the same arguments, the two commands print of the same
lines: `forms` all of them, its headers and tokens on one way out and its errors on the
other, and `tokens` those of the tokens before the first error, under a header with the sum
of the counts of their forms. Both fail or neither does, and the error that `tokens` ends
with is the first one that `forms` prints. -/
theorem commands_agree (path : String) (arguments : List String) (flags : Flags)
    (environment : Option String) (text : String)
    (valid : Flags.ofArguments arguments = .ok flags) :
    let tokens :=
      (Request.ofArguments ("tokens" :: path :: arguments)).report environment (.ok text)
    let forms :=
      (Request.ofArguments ("forms" :: path :: arguments)).report environment (.ok text)
    let asked := flags.withEnvironment environment
    let printed := transcript 1 (asked.outcomes text.toList)
    let before := printed.takeWhile (·.error?.isNone)
    forms.output = unlines ((printed.filter (·.error?.isNone)).map (Line.text path asked)) ∧
    tokens.output =
      unlines
        (("Tokens for '" ++ path ++ "' (" ++ toString (before.map Line.size).sum ++ " tokens):") ::
          (before.filter (·.isToken)).map (Line.text path asked)) ∧
    (tokens.exit = 0 ↔ forms.exit = 0) ∧
    match printed.filterMap Line.error? with
    | [] =>
      before = printed ∧ tokens.exit = 0 ∧ forms.exit = 0 ∧ tokens.errors = "" ∧ forms.errors = ""
    | e :: later =>
      tokens.exit = 1 ∧ forms.exit = 1 ∧
        tokens.errors = unlines ["error: " ++ errorLine path e] ∧
        forms.errors =
          unlines ((e :: later).map (errorLine path) ++
            ["error: " ++ toString (later.length + 1) ++ " form(s) in '" ++ path ++
              "' failed to scan"]) := by
  intro tokens forms asked printed before
  have tokens_eq : tokens = tokensReport path asked (asked.outcomes text.toList) := by
    simp only [tokens, Request.ofArguments, Request.ofFile, valid]
    rfl
  have forms_eq : forms = formsReport path asked (asked.outcomes text.toList) := by
    simp only [forms, Request.ofArguments, Request.ofFile, valid]
    rfl
  obtain ⟨output, ending⟩ := tokensReport_eq_transcript path asked (asked.outcomes text.toList)
  obtain ⟨output', ending'⟩ := formsReport_eq_transcript path asked (asked.outcomes text.toList)
  rw [← tokens_eq] at output ending
  rw [← forms_eq] at output' ending'
  refine ⟨output', output, ?_⟩
  cases errors : printed.filterMap Line.error? with
  | nil =>
    simp only [printed] at errors
    simp only [errors] at ending ending'
    have whole : before = printed := takeWhile_of_no_error errors
    exact ⟨by simp [ending.1, ending'.1], whole, ending.1, ending'.1, ending.2, ending'.2⟩
  | cons e later =>
    simp only [printed] at errors
    simp only [errors] at ending ending'
    exact ⟨by simp [ending.1, ending'.1], ending.1, ending'.1, ending.2, ending'.2⟩

/-- A file with an error between two forms, which fails both commands. -/
theorem commands_agree_around_error :
    Flags.ofArguments ["--columns", "--feature=maybe"] =
        .ok ⟨true, false, false, ["maybe"], none⟩ ∧
      ((Request.ofArguments ["tokens", "a.erl", "--columns", "--feature=maybe"]).report
        (some "else") (.ok "a. 1__0. b.")).exit = 1 ∧
      ((Request.ofArguments ["forms", "a.erl", "--columns", "--feature=maybe"]).report
        (some "else") (.ok "a. 1__0. b.")).exit ≠ 0 := by
  have valid : Flags.ofArguments ["--columns", "--feature=maybe"] =
      .ok ⟨true, false, false, ["maybe"], none⟩ := rfl
  have fails : ((Request.ofArguments ["tokens", "a.erl", "--columns", "--feature=maybe"]).report
      (some "else") (.ok "a. 1__0. b.")).exit = 1 := by decide +kernel
  have agree := (commands_agree "a.erl" ["--columns", "--feature=maybe"] _ (some "else")
    "a. 1__0. b." valid).2.2.1
  refine ⟨valid, fails, fun passes => ?_⟩
  rw [agree.mpr passes] at fails
  exact absurd fails (by decide)

end ErlangLexer
