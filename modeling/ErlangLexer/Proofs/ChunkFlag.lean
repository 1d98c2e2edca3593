import ErlangLexer.CommandLine.Report
import ErlangLexer.Proofs.Feeding
import ErlangLexer.Proofs.FlagSpelling

/-!
# The chunk flag does not show

A file is reported on in the same words whether it is fed in chunks or not:

* `Flags.outcomes_unchunked`: the outcomes of a file do not depend on the chunk size;
* `Flags.add_unchunked`: no other flag depends on it;
* `report_insert_chunk`: so a chunk flag may stand anywhere in a command line.
-/

namespace ErlangLexer

namespace CommandLine

namespace Flags

/-! ## Flags but for the chunk size -/

/-- The flags, with the file fed in one piece. -/
def unchunked (flags : Flags) : Flags :=
  { flags with chunk := none }

theorem add_chunk (flags : Flags) {n : Nat} (positive : 0 < n) (bounded : n ≤ maxChunkSize) :
    flags.add ("--chunk=" ++ toString n) = .ok { flags with chunk := some n } :=
  add_of_spelled (.chunk (sizeSpelling_toString positive bounded)) flags

/-- An argument is judged the same whatever the chunk size. -/
theorem add_unchunked {flags others : Flags} (same : flags.unchunked = others.unchunked)
    (argument : String) :
    (flags.add argument).map unchunked = (others.add argument).map unchunked := by
  obtain ⟨columns, text, checks, features, chunk⟩ := flags
  obtain ⟨_, _, _, _, chunk'⟩ := others
  simp only [unchunked, mk.injEq, and_true] at same
  obtain ⟨rfl, rfl, rfl, rfl⟩ := same
  simp only [add]
  repeat' split
  all_goals rfl

theorem foldlM_add_unchunked {flags others : Flags}
    (same : flags.unchunked = others.unchunked) (arguments : List String) :
    (arguments.foldlM add flags).map unchunked = (arguments.foldlM add others).map unchunked := by
  induction arguments generalizing flags others with
  | nil => exact congrArg Except.ok same
  | cons argument arguments ih =>
    have next := add_unchunked same argument
    simp only [List.foldlM_cons, bind, Except.bind]
    cases here : flags.add argument with
    | error problem =>
      cases there : others.add argument with
      | error problem' => simpa [here, there, Except.map] using next
      | ok flags' => simp [here, there, Except.map] at next
    | ok flags' =>
      cases there : others.add argument with
      | error problem => simp [here, there, Except.map] at next
      | ok others' => exact ih (by simpa [here, there, Except.map] using next)

theorem ofArguments_insert_chunk (before after : List String) {n : Nat} (positive : 0 < n)
    (bounded : n ≤ maxChunkSize) :
    (ofArguments (before ++ ("--chunk=" ++ toString n) :: after)).map unchunked =
      (ofArguments (before ++ after)).map unchunked := by
  simp only [ofArguments, List.foldlM_append, List.foldlM_cons, bind, Except.bind]
  cases before.foldlM add unset with
  | error problem => rfl
  | ok flags =>
    simp only [add_chunk flags positive bounded]
    have same : { flags with chunk := some n }.unchunked = flags.unchunked := rfl
    exact foldlM_add_unchunked same after

/-! ## Reports -/

/-- The outcomes of a file do not depend on how it is fed. -/
theorem outcomes_unchunked (flags : Flags) (text : List Char) :
    flags.outcomes text = flags.unchunked.outcomes text := by
  cases chunk : flags.chunk with
  | none =>
    simp only [outcomes, unchunked, chunk]
    rfl
  | some size =>
    have fed := feed_chunks flags.options flags.start (chunks size text)
    rw [chunks_flatten] at fed
    simp only [outcomes, chunk]
    exact fed

theorem formLines_congr {flags others : Flags} (line : flags.tokenLine = others.tokenLine)
    (number : Nat) (outcomes : List Outcome) :
    formLines flags number outcomes = formLines others number outcomes := by
  induction outcomes generalizing number with
  | nil => rfl
  | cons outcome outcomes ih =>
    cases outcome with
    | tokens list finish => simp only [formLines, ih, line]
    | nothing | error => exact ih number

end Flags

theorem Command.report_unchunked (command : Command) (path : String) (flags : Flags)
    (text : String) :
    command.report path flags text = command.report path flags.unchunked text := by
  simp only [report, flags.outcomes_unchunked]
  cases command with
  | tokens => rfl
  | forms =>
    have line : flags.tokenLine = flags.unchunked.tokenLine := rfl
    simp only [formsReport, Flags.formLines_congr line]

/-- Requests for the same command on the same file, but for the chunk size, get the same
report. -/
theorem report_eq_of_unchunked (command : Command) (path : String) (environment : Option String)
    (contents : Except FileProblem String) {these those : Except Misuse Flags}
    (same : these.map Flags.unchunked = those.map Flags.unchunked) :
    (match these with
      | .ok flags => Request.file command path flags
      | .error problem => .misuse problem).report environment contents =
    (match those with
      | .ok flags => Request.file command path flags
      | .error problem => .misuse problem).report environment contents := by
  cases these with
  | error problem =>
    cases those with
    | error problem' =>
      simp only [Except.map, Except.error.injEq] at same
      rw [same]
    | ok flags' => simp [Except.map] at same
  | ok flags =>
    cases those with
    | error problem => simp [Except.map] at same
    | ok flags' =>
      have equal : flags.unchunked = flags'.unchunked := by simpa [Except.map] using same
      have later : (flags.withEnvironment environment).unchunked =
          (flags'.withEnvironment environment).unchunked := by
        simp only [Flags.unchunked, Flags.mk.injEq, and_true] at equal
        obtain ⟨columns, text, checks, features⟩ := equal
        simp only [Flags.withEnvironment, Flags.unchunked, columns, text, checks, features]
      cases contents with
      | error problem => rfl
      | ok text =>
        simp only [Request.report]
        rw [command.report_unchunked, later, ← command.report_unchunked]

theorem report_insert_chunk (command : Command) (path : String) (before after : List String)
    (environment : Option String) (contents : Except FileProblem String) {n : Nat}
    (positive : 0 < n) (bounded : n ≤ Flags.maxChunkSize) :
    (Request.ofFile command (path :: (before ++ ("--chunk=" ++ toString n) :: after))).report
        environment contents =
      (Request.ofFile command (path :: (before ++ after))).report environment contents :=
  report_eq_of_unchunked command path environment contents
    (Flags.ofArguments_insert_chunk before after positive bounded)

end CommandLine

open CommandLine

/-- **Chunks do not show.** Fed in chunks, a text shows exactly the outcomes of its forms,
in their order, wherever it is cut. So a command prints and exits the same with a chunk
flag as without, whatever the file, the environment and the other flags. -/
theorem chunks_do_not_show :
    (∀ (options : Options) (location : Location) (chunks : List (List Char)),
      (((Suspension.start options location).feed chunks).filterMap Step.outcome?).filter
          (!·.isNothing) =
        (Forms.ofText options location chunks.flatten).outcomes.filter (!·.isNothing)) ∧
    ∀ (command : Command) (path : String) (before after : List String)
      (environment : Option String) (contents : Except FileProblem String) (n : Nat),
      0 < n → n ≤ Flags.maxChunkSize →
        (Request.ofArguments
            (command.name :: path :: (before ++ ("--chunk=" ++ toString n) :: after))).report
            environment contents =
          (Request.ofArguments (command.name :: path :: (before ++ after))).report
            environment contents := by
  refine ⟨feed_chunks, fun command path before after environment contents n positive bounded => ?_⟩
  cases command with
  | tokens =>
    exact report_insert_chunk .tokens path before after environment contents positive bounded
  | forms =>
    exact report_insert_chunk .forms path before after environment contents positive bounded

/-- A file whose arrow is cut in two by chunks of three bytes. -/
theorem chunks_do_not_show_in_arrow :
    0 < 3 ∧ 3 ≤ Flags.maxChunkSize ∧
      (Request.ofArguments
          ["forms", "a.erl", "--text", "--chunk=" ++ toString 3, "--columns"]).report
          none (.ok "a -> 1__0. \"b\"\"c\".") =
        (Request.ofArguments ["forms", "a.erl", "--text", "--columns"]).report
          none (.ok "a -> 1__0. \"b\"\"c\".") :=
  ⟨by decide, by decide,
    chunks_do_not_show.2 .forms "a.erl" ["--text"] ["--columns"] none
      (.ok "a -> 1__0. \"b\"\"c\".") 3 (by decide) (by decide)⟩

end ErlangLexer
