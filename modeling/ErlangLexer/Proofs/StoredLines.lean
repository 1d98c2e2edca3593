import ErlangLexer.Proofs.EscapeErrors
import ErlangLexer.Proofs.LayoutVerdict
import ErlangLexer.Proofs.Progress

/-!
# What is stored of a triple-quoted string

A triple-quoted string is kept line by line until its closing quotes are found, and then looked at
as a whole. By then its lines are whole:

* `TripleQuotedDraft.Stored`: the lines of a literal being read have one line break each, the
  opening line and the last one have none, and all of it is text;
* `State.stored_of_read`, `Completes.stored`: no move changes that, so it holds along every run
  (`State.Moves.stored`), however often it is suspended;
* `TripleQuotedDraft.NoDefaults`: in such lines every place that is looked for is found, so the
  defaults for places that are not found are never used.
-/

namespace ErlangLexer

/-- A line with its line break, and no other. -/
def WholeLine (line : List Char) : Prop :=
  ∃ front, line = front ++ ['\n'] ∧ '\n' ∉ front

theorem WholeLine.getLast? {line : List Char} (whole : WholeLine line) :
    line.getLast? = some '\n' := by
  obtain ⟨front, rfl, -⟩ := whole
  simp

/-- The opening line and the one being read have no line breaks, and those between them one
each. -/
structure Layout.InLines (layout : Layout) : Prop where
  opening : '\n' ∉ layout.opening
  lines : ∀ line ∈ layout.lines, WholeLine line
  indent : '\n' ∉ layout.indent

/-- What is stored of a literal being read. -/
structure TripleQuotedDraft.Stored (draft : TripleQuotedDraft) : Prop where
  inLines : draft.layout.InLines
  text : ∀ c ∈ draft.interior, isText c = true
  /-- The quotes, the opening line, and once that is over a line break and the lines behind it. -/
  source : draft.lexeme.source.toList = List.replicate draft.quotes '"' ++ draft.interior

/-! ## Reading -/

theorem Layout.InLines.push {layout : Layout} (inLines : layout.InLines) (c : Char) :
    (layout.push c).InLines := by
  obtain ⟨opening, lines, indent⟩ := inLines
  unfold Layout.push
  split
  · refine ⟨opening, ?_, List.not_mem_nil⟩
    intro line listed
    rcases List.mem_append.mp listed with old | new
    · exact lines line old
    · exact ⟨layout.indent, List.mem_singleton.mp new, indent⟩
  · rename_i inside
    refine ⟨opening, lines, ?_⟩
    simp [indent, Ne.symm inside]

namespace TripleQuotedDraft

theorem layout_push {draft : TripleQuotedDraft} {body : TripleQuotedBody}
    (opened : draft.body = some body) (c : Char) :
    (draft.push c).layout = draft.layout.push c := by
  simp only [push, opened, layout, lines, indent, TripleQuotedBody.push, Layout.push,
    Option.map_some, Option.getD_some]
  split
  · subst_vars
    simp [TripleQuotedBody.empty]
  · simp

theorem inLines_push {draft : TripleQuotedDraft} (inLines : draft.layout.InLines) (c : Char) :
    (draft.push c).layout.InLines := by
  obtain ⟨lexeme, quotes, sigil, opening, body⟩ := draft
  cases body with
  | none =>
    by_cases ends : c = '\n'
    · simp only [push, ends, ↓reduceIte]
      exact ⟨inLines.opening, by simp [layout, lines, TripleQuotedBody.empty],
        by simp [layout, indent, TripleQuotedBody.empty]⟩
    · have before : '\n' ∉ opening.toList := inLines.opening
      have line : '\n' ∉ (opening.push c).toList := by simp [before, Ne.symm ends]
      simp only [push, ends, ↓reduceIte]
      exact ⟨line, inLines.lines, inLines.indent⟩
  | some body =>
    rw [layout_push rfl]
    exact inLines.push c

namespace Stored

variable {draft : TripleQuotedDraft}

theorem push (stored : draft.Stored) {c : Char} (text : isText c = true) :
    (draft.push c).Stored := by
  refine ⟨inLines_push stored.inLines c, ?_, source_push stored.source c⟩
  intro d listed
  rw [interior_push] at listed
  rcases List.mem_append.mp listed with old | new
  · exact stored.text d old
  · exact List.mem_singleton.mp new ▸ text

theorem pushQuotes (stored : draft.Stored) (text : List Char) :
    (draft.pushFront text (runLength '"' text)).Stored := by
  have pushed (n : Nat) (draft : TripleQuotedDraft) (stored : draft.Stored) :
      ((List.replicate n '"').foldl TripleQuotedDraft.push draft).Stored := by
    induction n generalizing draft with
    | zero => exact stored
    | succ n ih => exact ih _ (stored.push (by decide))
  rw [pushFront, take_runLength]
  exact pushed _ draft stored

theorem openMove (here : Location) (sigil : Option Sigil) (text : List Char) :
    Stored ⟨.front here text (runLength '"' text), runLength '"' text, sigil, "", none⟩ :=
  ⟨⟨List.not_mem_nil, by simp [layout, lines], List.not_mem_nil⟩, by simp [interior],
    (made_openMove here sigil text).source⟩

end Stored

theorem isText_of_read {draft : TripleQuotedDraft} {here : Location} {c : Char} {rest : List Char}
    {ended : Bool} {width : Nat} {next : Mode}
    (step : draft.move here (c :: rest) ended = .read width next) : isText c = true := by
  by_contra foreign
  rw [Bool.not_eq_true] at foreign
  simp [move, foreign] at step

end TripleQuotedDraft

/-- What a mode stores of a triple-quoted string. -/
def Mode.Stored : Mode → Prop
  | .tripleQuoted draft => draft.Stored
  | _ => True

theorem Completes.stored {options : Options} {checking : Bool} {mode next : Mode} {kind : Kind}
    (completes : Completes options checking mode kind next) : next.Stored := by
  cases completes with
  | name draft =>
    unfold NameDraft.next
    repeat' split
    all_goals trivial
  | _ => trivial

namespace State

variable {options : Options} {extent : Extent} {ended : Bool} {state last : State}
  {text rest : List Char}

theorem stored_of_read {width : Nat} {next : Mode}
    (step : state.move options ended text = .read width next) (stored : state.mode.Stored) :
    next.Stored := by
  obtain ⟨location, tokens, checking, mode⟩ := state
  cases proceeds_of_read step with
  | tripleQuoted quotes => exact .openMove location none text
  | sigilTripleQuoted quotes => exact .openMove location _ text
  | content draft c rest =>
    have known : isText c = true := TripleQuotedDraft.isText_of_read step
    exact TripleQuotedDraft.Stored.push stored known
  | quotes draft text => exact TripleQuotedDraft.Stored.pushQuotes stored text
  | _ => trivial

theorem Moves.stored {n : Nat} (moves : Moves options extent ended n state text last rest)
    (stored : state.mode.Stored) : last.mode.Stored := by
  induction moves with
  | none state text => exact stored
  | read step later ih => exact ih (stored_of_read step stored)
  | emit step goes_on later ih => exact ih (completes_of_emit step).stored

theorem moves_of_suspended (suspends : state.run options extent ended text = .suspended last rest) :
    ∃ n, Moves options extent ended n state text last rest := by
  obtain ⟨n, halted, left, moves, halts⟩ := state.exists_halt options extent ended text
  rw [moves.run_eq, State.run_eq] at suspends
  cases step : halted.move options ended left with
  | wait =>
    rw [step] at suspends
    obtain ⟨rfl, rfl⟩ := Halt.suspended.inj suspends
    exact ⟨n, moves⟩
  | read width next => rw [step] at halts; exact halts.elim
  | emit width kind lexeme next =>
    rw [step] at suspends halts
    simp only [show kind = .dot ∧ extent = .form from halts, and_self, ↓reduceIte] at suspends
    cases suspends
  | finish | fail width error | reject width error finish =>
    rw [step] at suspends
    cases suspends

end State

/-! ## Whole lines leave nothing to a default -/

theorem Escape.getLast?_of_decodeFrom {text value : List Char} {offset : Nat}
    (last : text.getLast? = some '\n') (decoded : decodeFrom offset text = .ok value) :
    value.getLast? = some '\n' := by
  rcases decodes_cases (.inr last) with ⟨found, decodes⟩ | ⟨behind, found, width, decodes, wrong⟩
  · have same : found ++ [] = value := by
      rw [decodeFrom_of_decodes decodes, decodeFrom] at decoded
      exact Except.ok.inj decoded
    rw [List.append_nil] at same
    subst same
    refine (decodes.wholeLines (.inr last)).resolve_left ?_
    rintro rfl
    cases decodes with
    | nothing => cases last
  · rw [decodeFrom_of_decodes decodes, decodeFrom_malformed wrong] at decoded
    cases decoded

/-- What is looked for at the quotes that close a literal is there:

* in a line that lacks the indentation, a first character that differs from it;
* behind a backslash that decoding comes to, more than the beginning of an escape;
* at the end of the value, before it is decided whether to drop it, a line break. -/
structure TripleQuotedDraft.NoDefaults (draft : TripleQuotedDraft) : Prop where
  differs : ∀ line ∈ draft.lines, ¬draft.indent <+: line.text.toList →
    ∃ common c behind d missing, line.text.toList = common ++ c :: behind ∧
      draft.indent = common ++ d :: missing ∧ c ≠ d ∧
      ((line.text.toList.zip draft.indent).findIdx? fun pair => pair.1 != pair.2) =
        some common.length
  escapes : ∀ line ∈ draft.lines, ∀ stripped,
    Layout.stripLine draft.indent line.text.toList = some stripped →
      ∀ behind value, Escape.Decodes ('\\' :: behind) stripped value →
        Escape.read behind true ≠ .incomplete
  plain : draft.lines ≠ [] → (Layout.strip draft.indent draft.lines).bad = none →
    (Layout.strip draft.indent draft.lines).texts.flatten.getLast? = some '\n'
  decoded : draft.lines ≠ [] → (Layout.strip draft.indent draft.lines).bad = none →
    ∀ content, Layout.decode (Layout.strip draft.indent draft.lines).texts draft.lines =
      .ok content → content.getLast? = some '\n'

namespace Layout

variable {indent line stripped : List Char} {lines : List (List Char)}

/-- A line is no part of the indentation, because of its line break. -/
theorem not_prefix_indent (whole : WholeLine line) (inline : '\n' ∉ indent) :
    ¬line <+: indent := by
  obtain ⟨front, rfl, -⟩ := whole
  exact fun within => inline (within.subset (by simp))

/-- For the same reason more of it is left than the indentation. -/
theorem getLast?_stripLine (whole : WholeLine line) (inline : '\n' ∉ indent)
    (strips : stripLine indent line = some stripped) : stripped.getLast? = some '\n' := by
  have ends := wholeLines_stripLine indent whole.getLast?
  rw [strips, Option.getD_some] at ends
  refine ends.resolve_left ?_
  rintro rfl
  unfold stripLine at strips
  split at strips
  · obtain ⟨rest, rfl⟩ := List.isPrefixOf_iff_prefix.mp ‹_›
    rw [Option.some.injEq, List.drop_left] at strips
    subst strips
    exact not_prefix_indent whole inline (by simp)
  · split at strips
    · cases strips
    · cases strips

theorem exists_stripLine {offset : Nat} (passes : badIndent? indent offset lines = none) :
    ∀ line ∈ lines, ∃ stripped, stripLine indent line = some stripped := by
  induction lines generalizing offset with
  | nil => exact fun line listed => absurd listed List.not_mem_nil
  | cons line lines ih =>
    unfold badIndent? at passes
    split at passes
    · cases passes
    · rename_i stripped strips
      exact List.forall_mem_cons.mpr ⟨⟨stripped, strips⟩, ih passes⟩

theorem getLast?_plainLines (some_line : lines ≠ [])
    (strips : ∀ line ∈ lines, ∃ stripped, stripLine indent line = some stripped ∧
      stripped.getLast? = some '\n') : (plainLines indent lines).getLast? = some '\n' := by
  obtain ⟨above, line, rfl⟩ := List.eq_nil_or_concat lines |>.resolve_left some_line
  obtain ⟨stripped, found, last⟩ := strips line (by simp)
  simp [plainLines, found, last]

theorem getLast?_decodeLines {offset : Nat} {content : List Char} (some_line : lines ≠ [])
    (strips : ∀ line ∈ lines, ∃ stripped, stripLine indent line = some stripped ∧
      stripped.getLast? = some '\n')
    (decoded : decodeLines indent offset lines = .ok content) : content.getLast? = some '\n' := by
  induction lines generalizing offset content with
  | nil => exact absurd rfl some_line
  | cons line lines ih =>
    obtain ⟨⟨stripped, found, last⟩, later⟩ := List.forall_mem_cons.mp strips
    rw [decodeLines, found, Option.getD_some] at decoded
    cases here : Escape.decodeFrom (offset + indent.length) stripped with
    | error fault => simp [here] at decoded
    | ok value =>
      cases below : decodeLines indent (offset + line.length) lines with
      | error fault => simp [here, below, Except.map] at decoded
      | ok more =>
        obtain rfl : value ++ more = content := by simpa [here, below, Except.map] using decoded
        have last_value := Escape.getLast?_of_decodeFrom last here
        cases lines with
        | nil =>
          obtain rfl : [] = more := by simpa [decodeLines] using below
          rwa [List.append_nil]
        | cons next lines =>
          rw [List.getLast?_append, ih (List.cons_ne_nil _ _) later below]
          rfl

end Layout

namespace TripleQuotedDraft

open Layout

variable {draft : TripleQuotedDraft}

theorem Stored.wholeLines (stored : draft.Stored) :
    ∀ line ∈ draft.lines, WholeLine line.text.toList :=
  fun _ listed => stored.inLines.lines _ (List.mem_map_of_mem listed)

theorem Stored.strips (stored : draft.Stored)
    (passes : badIndent? draft.indent draft.layout.bodyOffset draft.layout.lines = none) :
    ∀ line ∈ draft.layout.lines, ∃ stripped, stripLine draft.indent line = some stripped ∧
      stripped.getLast? = some '\n' := by
  intro line listed
  obtain ⟨stripped, found⟩ := exists_stripLine passes line listed
  exact ⟨stripped, found,
    getLast?_stripLine (stored.inLines.lines line listed) stored.inLines.indent found⟩

theorem Stored.noDefaults (stored : draft.Stored) : draft.NoDefaults := by
  have indent : '\n' ∉ draft.indent := stored.inLines.indent
  have some_layout (some_line : draft.lines ≠ []) : draft.layout.lines ≠ [] :=
    mt List.map_eq_nil_iff.mp some_line
  refine ⟨?_, ?_, ?_, ?_⟩
  · intro line listed not_indented
    rcases prefix_or_difference line.text.toList draft.indent with
      within | front | ⟨common, c, behind, d, missing, whole, expected, differs⟩
    · exact absurd within (not_prefix_indent (stored.wholeLines line listed) indent)
    · exact absurd front not_indented
    · refine ⟨common, c, behind, d, missing, whole, expected, differs, ?_⟩
      rw [whole, expected]
      exact findIdx?_of_difference differs
  · intro line listed stripped found behind value decodes
    have last := getLast?_stripLine (stored.wholeLines line listed) indent found
    obtain ⟨front, rfl⟩ := decodes.suffix
    have whole : WholeLines ('\\' :: behind) := by
      simpa using WholeLines.drop (.inr last) front.length
    exact Escape.read_ne_incomplete (whole.mem_tail (by decide)) true
  · intro some_line found
    have passes := passes_of_strip found draft.layout.bodyOffset
    rw [strip_eq passes]
    exact getLast?_plainLines (some_layout some_line) (stored.strips passes)
  · intro some_line found content decoded
    have passes := passes_of_strip found draft.layout.bodyOffset
    exact getLast?_decodeLines (some_layout some_line) (stored.strips passes)
      (decodeLines_of_decode passes decoded)

end TripleQuotedDraft

/-- **No default is used for a triple-quoted string.** Whatever the chunks that a scan was fed in,
in every state that it passes within a triple-quoted string what is stored is text: lines with one
line break each, and an opening line and a current line with none, which together with the quotes
are the source text of the literal. So if the literal is closed here, its lines are looked at
without resort to a default. -/
theorem Suspension.Fed.stored_in_lines {options : Options} {origin : Location} {fed : List Char}
    {scan : Suspension} (given : Fed options origin fed scan) {extent : Extent} {ended : Bool}
    {n : Nat} {state : State} {more rest : List Char} {draft : TripleQuotedDraft}
    (moves : State.Moves options extent ended n scan.state (scan.pending ++ more) state rest)
    (mode : state.mode = .tripleQuoted draft) : draft.Stored ∧ draft.NoDefaults := by
  obtain ⟨before, earlier⟩ := State.moves_of_suspended given.suspends
  have stored := moves.stored (earlier.stored trivial)
  rw [mode] at stored
  exact ⟨stored, stored.noDefaults⟩

/-- In front of the quotes that close a literal, one blank behind where a chunk ended. -/
theorem Suspension.stored_in_lines_behind_chunk :
    ∃ scan state draft, Fed default .start "~s\"\"\"\n a\\n\n\n".toList scan ∧
      State.Moves default .form true 1 scan.state (scan.pending ++ " \"\"\"".toList) state
        "\"\"\"".toList ∧
      state.mode = .tripleQuoted draft ∧
      draft.layout = ⟨3, [], [" a\\n\n".toList, ['\n']], [' ']⟩ ∧
      draft.Stored ∧ draft.NoDefaults := by
  let draft : TripleQuotedDraft :=
    ⟨⟨⟨1, none⟩, "\"\"\"\n a\\n\n\n"⟩, 3, some ⟨.start, false⟩, "",
      some ⟨#[⟨2, " a\\n\n"⟩, ⟨3, "\n"⟩], 4, "", true, by decide⟩⟩
  let within : State := ⟨⟨4, none⟩, #[⟨.sigilPrefix "s", .start, none⟩], false, .tripleQuoted draft⟩
  have waits : (State.fresh .start).run default .form false "~s\"\"\"\n a\\n\n\n".toList =
      .suspended within [] := by decide +kernel
  have given := Fed.of_run waits
  have moves : State.Moves default .form true 1 within " \"\"\"".toList
      (within.read " \"\"\"".toList 1 (.tripleQuoted (draft.push ' '))) "\"\"\"".toList :=
    .read (by decide +kernel) (.none _ _)
  exact ⟨_, _, _, given, moves, rfl, by decide, given.stored_in_lines moves rfl⟩

end ErlangLexer
