import ErlangLexer.Proofs.Beginnings
import ErlangLexer.Proofs.QuotedText
import ErlangLexer.Proofs.Whereabouts

/-!
# Where an escape is found to be none

An escape that is none stops a scan at its backslash. The error ends behind the character that
rules the escape out, but in a triple-quoted string it never leaves the line of the backslash:

* `Layout.escape_at_fault`: in a layout, an illegal character is such a backslash;
* `State.Reached.quoted_escape`, `State.Reached.triple_quoted_escape`: the error of a scan that
  has come to such a backslash, or to the closing quotes behind it;
* `Suspension.Fed.escape_error_range`: together, whatever the chunks it was fed in.
-/

namespace ErlangLexer

/-- Behind some text there is a backslash, and what stands behind that is no escape: the last of
`width` characters rules it out. -/
structure MalformedEscape (text front behind : List Char) (width : Nat) : Prop where
  split : text = front ++ '\\' :: behind
  offends : Escape.Offends behind width

theorem MalformedEscape.within {text front behind : List Char} {width : Nat}
    (malformed : MalformedEscape text front behind width) (before after : List Char) :
    MalformedEscape (before ++ (text ++ after)) (before ++ front) (behind ++ after) width :=
  ⟨by simp [malformed.split], malformed.offends.append after⟩

namespace Layout

theorem wholeLines_stripLine (indent : List Char) {line : List Char}
    (last : line.getLast? = some '\n') : WholeLines ((stripLine indent line).getD []) := by
  unfold stripLine
  split
  · exact WholeLines.drop (.inr last) _
  · split
    · exact .inr rfl
    · exact .inl rfl

theorem line_of_stripLine {indent line front behind : List Char}
    (text : (stripLine indent line).getD [] = front ++ '\\' :: behind) :
    line = indent ++ (front ++ '\\' :: behind) := by
  unfold stripLine at text
  split at text
  · obtain ⟨rest, rfl⟩ := List.isPrefixOf_iff_prefix.mp ‹_›
    rw [Option.getD_some, List.drop_left] at text
    rw [text]
  · split at text
    · have broken : '\\' ∈ ['\n'] := by
        rw [show ['\n'] = front ++ '\\' :: behind from text]
        simp
      simp at broken
    · simp at text

theorem decodeLines_error {indent : List Char} {lines : List (List Char)} {offset : Nat}
    {fault : Escape.Fault} (ends : ∀ line ∈ lines, line.getLast? = some '\n')
    (faulty : decodeLines indent offset lines = .error fault) :
    ∃ front behind width, MalformedEscape lines.flatten front behind width ∧
      fault = ⟨offset + front.length, 1 + width⟩ := by
  induction lines generalizing offset with
  | nil => cases faulty
  | cons line lines ih =>
    obtain ⟨last, later⟩ := List.forall_mem_cons.mp ends
    unfold decodeLines at faulty
    split at faulty
    · rename_i found decoded
      obtain rfl := Except.error.inj faulty
      obtain ⟨front, behind, width, text, rfl, offends⟩ :=
        Escape.decodeFrom_error (wholeLines_stripLine indent last) decoded
      have indented := line_of_stripLine text
      refine ⟨indent ++ front, behind ++ lines.flatten, width, ?_, ?_⟩
      · exact ⟨by simp [indented], offends.append _⟩
      · rw [List.length_append, Nat.add_assoc]
    · cases below : decodeLines indent (offset + line.length) lines with
      | ok value =>
        rw [below] at faulty
        cases faulty
      | error found =>
        rw [below] at faulty
        obtain rfl := Except.error.inj faulty
        obtain ⟨front, behind, width, malformed, rfl⟩ := ih later below
        refine ⟨line ++ front, behind, width, ?_, ?_⟩
        · simpa using malformed.within line []
        · rw [List.length_append, Nat.add_assoc]

/-- An illegal character in a layout is the backslash of an escape that is none. -/
theorem escape_at_fault {layout : Layout} {verbatim : Bool} {fault : Fault}
    (ends : ∀ line ∈ layout.lines, line.getLast? = some '\n')
    (faulty : layout.value verbatim = .error fault) (cause : fault.cause = .illegal .character) :
    ∃ front behind width, MalformedEscape layout.source front behind width ∧
      fault = ⟨.illegal .character, front.length, 1 + width⟩ := by
  unfold value at faulty
  split at faulty
  · obtain rfl := Except.error.inj faulty
    cases cause
  · split at faulty
    · obtain rfl := Except.error.inj faulty
      cases cause
    · split at faulty
      · cases faulty
      · split at faulty
        · rename_i found decoded
          obtain rfl := Except.error.inj faulty
          obtain ⟨front, behind, width, malformed, rfl⟩ := decodeLines_error ends decoded
          let head := List.replicate layout.quotes '"' ++ (layout.opening ++ ['\n'])
          have whole : layout.source = head ++ (layout.lines.flatten ++ layout.indent) := by
            simp [source, head]
          have length : head.length = layout.bodyOffset := by
            simp only [head, bodyOffset, List.length_append, List.length_replicate,
              List.length_singleton]
            omega
          refine ⟨_, _, width, whole ▸ malformed.within head layout.indent, ?_⟩
          rw [List.length_append, length]
        · cases faulty

end Layout

namespace State.Reached

variable {options : Options} {extent : Extent} {ended : Bool} {origin finish : Location}
  {text rest left : List Char} {state : State} {error : LexicalError}

theorem close_ne_backslash (reached : Reached options extent ended origin text state rest)
    {draft : QuotedDraft} (mode : state.mode = .quoted draft) : draft.close ≠ '\\' := by
  have begun := reached.begun
  rw [mode] at begun
  obtain ⟨opening, -, -, delimits⟩ := begun
  cases quotation : draft.quotation with
  | atom =>
    rw [quotation] at delimits
    rw [delimits.2]
    decide
  | string =>
    rw [quotation] at delimits
    rw [delimits.2]
    decide
  | sigil verbatim =>
    rw [quotation] at delimits
    exact (delimiter_of_closing? delimits).no_backslash

/-- An escape of a quoted text that is none. All of it is read. -/
theorem quoted_escape {behind : List Char}
    (reached : Reached options extent ended origin text state ('\\' :: behind))
    {draft : QuotedDraft} (mode : state.mode = .quoted draft)
    (decoding : draft.quotation.isVerbatim = false) {width : Nat}
    (malformed : Escape.read behind ended = .malformed width)
    (stops : (fresh origin).run options extent ended text = .stopped (.error error finish) left) :
    ∃ front, MalformedEscape text front behind width ∧
      error = .illegal (origin.position front) .character ∧
      finish = origin.position (front ++ '\\' :: behind.take width) := by
  obtain ⟨read, split, here⟩ := reached.walked
  have inside := (reached.close_ne_backslash mode).symm
  have step : state.move options ended ('\\' :: behind) =
      .fail (1 + width) (.illegal state.location .character) := by
    simp only [move, mode, QuotedDraft.move, inside, ↓reduceIte, decoding, decide_true,
      Bool.not_false, Bool.and_self, QuotedDraft.escape, malformed]
  rw [reached.run_eq, State.run_eq, step] at stops
  obtain ⟨same, -⟩ := Halt.stopped.inj stops
  obtain ⟨rfl, rfl⟩ := Outcome.error.inj same
  refine ⟨read, ⟨split, Escape.offends_of_malformed malformed⟩, ?_, ?_⟩
  · rw [here, Location.walk_eq_position]
  · rw [here, ← Location.walk_append, Location.walk_eq_position, Nat.add_comm, List.take_succ_cons]

/-- An escape of a triple-quoted string that is none. The error ends on the line of its
backslash. -/
theorem triple_quoted_escape (reached : Reached options extent ended origin text state rest)
    {draft : TripleQuotedDraft} (mode : state.mode = .tripleQuoted draft) {fault : Layout.Fault}
    (faulty : draft.AtFault rest fault) (cause : fault.cause = .illegal .character)
    (stops : (fresh origin).run options extent ended text = .stopped (.error error finish) left) :
    ∃ front behind width, MalformedEscape text front behind width ∧
      error = .illegal (origin.position front) .character ∧
      finish = (origin.position front).shift (1 + width) := by
  obtain ⟨found, -⟩ := reached.outcome_of_atFault mode faulty stops
  obtain ⟨before, lexeme, amid, split⟩ := reached.amid
  have holds := amid.holds
  rw [mode] at holds
  obtain ⟨rfl, made⟩ := holds
  obtain ⟨closes, -, -, value⟩ := faulty
  have source := TripleQuotedDraft.source_layout made closes
  obtain ⟨front, behind, width, malformed, rfl⟩ :=
    Layout.escape_at_fault (TripleQuotedDraft.lines_layout made) value cause
  have place : draft.locate front.length = origin.position (before ++ front) := by
    rw [TripleQuotedDraft.locate, source, malformed.split, List.take_left, amid.start,
      ← Location.walk_append, Location.walk_eq_position]
  rw [source] at split
  obtain ⟨rfl, rfl⟩ := Outcome.error.inj found
  refine ⟨_, _, width, split ▸ malformed.within before rest, ?_, ?_⟩
  · rw [place]
    rfl
  · rw [place]

end State.Reached

/-- **Where an escape is found to be none.** Whatever the chunks that a scan was fed in, if it
stops because what stands behind a backslash is no escape, then it reports an illegal character at
the position of this backslash. In a quoted text the error ends at the position behind the
character that rules the escape out. So it does in a triple-quoted string, unless this character is
a line break: there the end is counted by columns, and stays on the line of the backslash. -/
theorem Suspension.Fed.escape_error_range {options : Options} {origin : Location}
    {fed : List Char} {scan : Suspension} (given : Fed options origin fed scan) {input : Input}
    {error : LexicalError} {finish : Location} {rest : Option (List Char)}
    (finished : scan.resume input = .finished (.error error finish) rest) :
    let text := fed ++ input.text
    let Reached := State.Reached options .form input.isEnd origin text
    (∀ state draft behind width, Reached state ('\\' :: behind) →
      state.mode = .quoted draft → draft.quotation.isVerbatim = false →
      Escape.read behind input.isEnd = .malformed width →
      ∃ front, MalformedEscape text front behind width ∧
        error = .illegal (origin.position front) .character ∧
        finish = origin.position (front ++ '\\' :: behind.take width)) ∧
    ∀ state draft ahead fault, Reached state ahead →
      state.mode = .tripleQuoted draft → draft.AtFault ahead fault →
      fault.cause = .illegal .character →
      ∃ front behind width, MalformedEscape text front behind width ∧
        error = .illegal (origin.position front) .character ∧
        finish = (origin.position front).shift (1 + width) ∧
        (behind[width - 1]? ≠ some '\n' →
          finish = origin.position (front ++ '\\' :: behind.take width)) := by
  intro text Reached
  have stops := given.stops finished
  refine ⟨?_, ?_⟩
  · intro state draft behind width reached mode decoding malformed
    exact reached.quoted_escape mode decoding malformed stops
  · intro state draft ahead fault reached mode faulty cause
    obtain ⟨front, behind, width, malformed, located, ended⟩ :=
      reached.triple_quoted_escape mode faulty cause stops
    refine ⟨front, behind, width, malformed, located, ended, ?_⟩
    intro no_break
    have inline : '\n' ∉ '\\' :: behind.take width := by
      simpa using malformed.offends.inline no_break
    have length : ('\\' :: behind.take width).length = 1 + width := by
      rw [List.length_cons, List.length_take_of_le malformed.offends.short, Nat.add_comm]
    have there : origin.position (front ++ '\\' :: behind.take width) =
        (origin.position front).position ('\\' :: behind.take width) := by
      simp only [← Location.walk_eq_position, Location.walk_append]
    rw [ended, there, Location.position_inline _ inline, length]

/-- A hexadecimal escape that is cut by a line break, in a string and in a triple-quoted string of a
sigil: the first error ends on the next line, the second on the line of its backslash. -/
theorem Suspension.escape_error_range_at_line_break :
    (∃ front, MalformedEscape ['"', '\\', 'x', '\n'] front ['x', '\n'] 2 ∧
      LexicalError.illegal ⟨1, some 2⟩ .character =
        .illegal (Location.position ⟨1, some 1⟩ front) .character ∧
      (⟨2, some 1⟩ : Location) =
        Location.position ⟨1, some 1⟩ (front ++ '\\' :: ['x', '\n'].take 2)) ∧
    ∃ front behind width, MalformedEscape "~s\"\"\"\n\\x\n\"\"\"".toList front behind width ∧
      LexicalError.illegal ⟨2, some 1⟩ .character =
        .illegal (Location.position ⟨1, some 1⟩ front) .character ∧
      (⟨2, some 4⟩ : Location) = (Location.position ⟨1, some 1⟩ front).shift (1 + width) ∧
      (behind[width - 1]? ≠ some '\n' →
        (⟨2, some 4⟩ : Location) =
          Location.position ⟨1, some 1⟩ (front ++ '\\' :: behind.take width)) := by
  constructor
  · have stops : (State.fresh ⟨1, some 1⟩).run default .form false ['"', '\\', 'x', '\n'] =
        .stopped (.error (.illegal ⟨1, some 2⟩ .character) ⟨2, some 1⟩) [] := by decide +kernel
    have finished := finished_of_run (start default ⟨1, some 1⟩) ['"', '\\', 'x', '\n'] stops
    let draft : QuotedDraft := ⟨⟨⟨1, some 1⟩, "\""⟩, .string, '"', ""⟩
    have step : (State.fresh ⟨1, some 1⟩).move default false ['"', '\\', 'x', '\n'] =
        .read 1 (.quoted draft) := by decide +kernel
    exact (Fed.start.escape_error_range finished).1 _ draft ['x', '\n'] 2 (.read .start step) rfl
      rfl rfl
  · let draft : TripleQuotedDraft :=
      ⟨⟨⟨1, some 3⟩, "\"\"\"\n\\x\n"⟩, 3, some ⟨⟨1, some 1⟩, false⟩, "",
        some ⟨#[⟨2, "\\x\n"⟩], 3, "", true, by decide⟩⟩
    let within : State :=
      ⟨⟨3, some 1⟩, #[⟨.sigilPrefix "s", ⟨1, some 1⟩, none⟩], false, .tripleQuoted draft⟩
    have waits : (State.fresh ⟨1, some 1⟩).run default .form false
        "~s\"\"\"\n\\x\n\"\"\"".toList = .suspended within ['"', '"', '"'] := by decide +kernel
    have stops : within.run default .form true ['"', '"', '"'] =
        .stopped (.error (.illegal ⟨2, some 1⟩ .character) ⟨2, some 4⟩) [] := by decide +kernel
    have given := Fed.of_run waits
    have finished := finished_of_run_ended ⟨default, within, ['"', '"', '"']⟩ stops
    obtain ⟨read, split, behind_text | at_fault⟩ := State.stopped_at (given.stops finished)
    · rw [Option.getD_none, List.append_nil] at split
      exact absurd (split ▸ behind_text) (by decide +kernel)
    · obtain ⟨state, rest, draft, fault, reached, mode, faulty, found, -⟩ := at_fault
      have cause := congrArg LexicalError.cause (Outcome.error.inj found).1
      obtain ⟨front, behind, width, malformed, located, ended, range⟩ :=
        (given.escape_error_range finished).2 state draft rest fault reached mode faulty cause.symm
      exact ⟨front, behind, width, malformed, located, ended, range⟩

end ErlangLexer
