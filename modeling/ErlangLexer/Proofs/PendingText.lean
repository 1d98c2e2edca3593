import ErlangLexer.Proofs.Beginnings
import ErlangLexer.Proofs.EscapeSpelling
import ErlangLexer.Proofs.NumberReading
import ErlangLexer.Proofs.Whereabouts

/-!
# What a suspended scan leaves pending

A suspended scan keeps text back only where the next character may change what this text is:

* `Undecided`: the texts that are kept back, mode by mode, told off the text alone;
* `State.Reached.behind_digit`, `TripleQuotedDraft.blank_line`, `State.Reached.in_front_of_sigil`:
  what stands in front of such a text and behind it;
* `LooseEnd.undecided`: a scan waits in front of nothing else;
* `Suspension.Fed.pending_undecided`: so it is with every suspended scan, and what it has read
  stays read.
-/

namespace ErlangLexer

/-- The text is the beginning of a word and not all of it. -/
structure Begins (text word : List Char) : Prop where
  some : text ≠ []
  front : text <+: word
  short : text ≠ word

/-- What a mode keeps back, behind the text that is read. -/
inductive Undecided (options : Options) (read : List Char) : Mode → List Char → Prop where
  /-- A sigil is waited for no delimiter but in front of quotes. -/
  | nothing {mode : Mode} (other : ∀ sigil, mode ≠ .sigil sigil) : Undecided options read mode []
  /-- Underscores behind a digit of the part that is read. -/
  | separators {draft : NumberDraft} {c : Char} (has : draft.part.hasDigit = true)
      (last : read.getLast? = some c) (digit : isDigitOf draft.part.base c = true) (more : Nat) :
      Undecided options read (.number draft) (List.replicate (more + 1) '_')
  /-- The point of a float, or the dot behind a decimal integer. -/
  | point {draft : NumberDraft} {value : Nat} (whole : draft.part = .whole value) :
      Undecided options read (.number draft) ['.']
  | escape {draft : QuotedDraft} {rest : List Char} (escapes : draft.quotation.isVerbatim = false)
      (cut : Escape.CutOff rest) : Undecided options read (.quoted draft) ('\\' :: rest)
  | delimiter (sigil : Sigil) (more : Nat) :
      Undecided options read (.sigil sigil) (List.replicate (more + 1) '"')
  /-- Quotes that have nothing but blanks in front of them on their line. -/
  | closing (draft : TripleQuotedDraft) {before blanks : List Char}
      (line : read = before ++ '\n' :: blanks) (blank : ∀ c ∈ blanks, isInlineBlank c = true)
      (more : Nat) :
      Undecided options read (.tripleQuoted draft) (List.replicate (more + 1) '"')
  | opening (more : Nat) : Undecided options read .between (List.replicate (more + 1) '"')
  /-- One or two dots are among these. -/
  | operator {op : Operator} {text : List Char} (begins : Begins text op.spelling) :
      Undecided options read .between text
  | dollar : Undecided options read .between ['$']
  | char {rest : List Char} (cut : Escape.CutOff rest) :
      Undecided options read .between ('$' :: '\\' :: rest)
  | marker {text : List Char} (checks : options.checkComments = true)
      (begins : Begins text Comment.marker) : Undecided options read .between text

/-! ## In front of what is kept back -/

/-- Once a part of a number has a digit, the text ends with a digit of it. -/
def Mode.BehindDigit (read : List Char) : Mode → Prop
  | .number draft => draft.part.hasDigit = true →
      ∃ c, read.getLast? = some c ∧ isDigitOf draft.part.base c = true
  | _ => True

/-- A move that leads into digits of a number has read one last. -/
def Move.LeavesDigit (text : List Char) : Move → Prop
  | .read width next => next.BehindDigit (text.take width)
  | _ => True

theorem Mode.BehindDigit.prepend {mode : Mode} {read : List Char} (behind : mode.BehindDigit read)
    (before : List Char) : mode.BehindDigit (before ++ read) := by
  cases mode with
  | number draft =>
    intro has
    obtain ⟨c, last, digit⟩ := behind has
    exact ⟨c, by rw [List.getLast?_append, last]; rfl, digit⟩
  | _ => trivial

theorem NameDraft.behindDigit_next (draft : NameDraft) (read : List Char) :
    draft.next.BehindDigit read := by
  simp only [next]
  repeat' split
  all_goals trivial

namespace NumberPart

theorem isDigitOf_of_digit? {part next : NumberPart} {c : Char}
    (found : part.digit? c = some next) : isDigitOf next.base c = true := by
  cases part with
  | sign => cases found
  | whole | based | fraction | exponent =>
    obtain ⟨value, digit, rfl⟩ := Option.map_eq_some_iff.mp found
    exact Option.isSome_of_eq_some digit

end NumberPart

namespace NumberDraft

variable (draft : NumberDraft)

theorem readTo_leavesDigit {part next : NumberPart} {text : List Char} {width : Nat} {c : Char}
    (last : (text.take width).getLast? = some c) (found : part.digit? c = some next) :
    (draft.readTo text width next).LeavesDigit text := by
  intro _
  exact ⟨c, last, NumberPart.isDigitOf_of_digit? found⟩

theorem readTo_leavesDigit_of_none {part : NumberPart} (none : part.hasDigit = false)
    (text : List Char) (width : Nat) : (draft.readTo text width part).LeavesDigit text := by
  intro digit
  rw [none] at digit
  cases digit

theorem complete_leavesDigit (text : List Char) : draft.complete.LeavesDigit text := by
  simp only [complete]
  split <;> trivial

theorem underscores_leavesDigit (text : List Char) (ended : Bool) :
    (draft.underscores text ended).LeavesDigit text := by
  simp only [underscores]
  split
  · split <;> trivial
  · split
    · exact draft.readTo_leavesDigit rfl ‹_›
    · split <;> trivial
  · exact draft.complete_leavesDigit _

theorem point_leavesDigit (value : Nat) (c : Char) (rest : List Char) (ended : Bool) :
    (draft.point value (c :: rest) ended).LeavesDigit (c :: rest) := by
  simp only [point, List.drop_succ_cons, List.drop_zero]
  split
  · split
    · exact draft.complete_leavesDigit _
    · trivial
  · split
    · exact draft.readTo_leavesDigit rfl ‹_›
    · exact draft.complete_leavesDigit _

theorem mark_leavesDigit (c : Char) (rest : List Char) (ended : Bool) :
    (draft.mark c (c :: rest) ended).LeavesDigit (c :: rest) := by
  have completes := draft.complete_leavesDigit (c :: rest)
  simp only [mark, base]
  repeat' split
  · exact draft.point_leavesDigit _ c rest ended
  · exact draft.readTo_leavesDigit_of_none rfl _ 1
  · trivial
  · exact completes
  · exact draft.readTo_leavesDigit_of_none rfl _ 1
  · exact completes
  · exact draft.readTo_leavesDigit_of_none rfl _ 1
  · exact draft.readTo_leavesDigit_of_none rfl _ 1
  · exact draft.readTo_leavesDigit rfl ‹_›
  · exact completes
  · exact completes
  · exact completes

theorem move_leavesDigit (text : List Char) (ended : Bool) :
    (draft.move text ended).LeavesDigit text := by
  simp only [move]
  split
  · split
    · exact draft.complete_leavesDigit _
    · trivial
  · split
    · exact draft.readTo_leavesDigit rfl ‹_›
    · split
      · exact draft.underscores_leavesDigit _ ended
      · exact draft.mark_leavesDigit _ _ ended

end NumberDraft

/-- A triple-quoted string may close behind nothing but blanks on a line of its own. -/
theorem TripleQuotedDraft.blank_line {draft : TripleQuotedDraft} (made : draft.Made)
    (closes : draft.mayClose = true) :
    ∃ before blanks, draft.lexeme.source.toList = before ++ '\n' :: blanks ∧
      ∀ c ∈ blanks, isInlineBlank c = true := by
  have whole := lines_layout made
  rw [source_layout made closes, Layout.source]
  obtain ⟨lexeme, quotes, sigil, opening, body⟩ := draft
  cases body with
  | none => cases closes
  | some body =>
    have blank : ∀ c ∈ body.current.toList, isInlineBlank c = true := by
      have all : body.blank = true := closes
      rw [body.blank_eq, List.all_eq_true] at all
      exact all
    have behind (lines : List (List Char)) (ends : ∀ line ∈ lines, line.getLast? = some '\n') :
        ∃ before, '\n' :: lines.flatten = before ++ ['\n'] := by
      induction lines using List.reverseRec with
      | nil => exact ⟨[], rfl⟩
      | append_singleton lines line ih =>
        obtain ⟨front, rfl⟩ := List.getLast?_eq_some_iff.mp (ends line (by simp))
        exact ⟨'\n' :: (lines.flatten ++ front), by simp⟩
    obtain ⟨before, last⟩ := behind _ whole
    refine ⟨List.replicate quotes '"' ++ (opening.toList ++ before), body.current.toList, ?_, blank⟩
    rw [← List.cons_append, last]
    simp [layout, indent]

namespace State

variable {options : Options} {extent : Extent} {ended : Bool} {origin : Location}
  {text rest : List Char} {state : State}

theorem Reached.of_suspended {later : State} {left : List Char}
    (reached : Reached options extent ended origin text state rest)
    (suspends : state.run options extent ended rest = .suspended later left) :
    Reached options extent ended origin text later left := by
  fun_induction State.run options extent ended state rest with
  | case1 state rest step =>
    obtain ⟨rfl, rfl⟩ := Halt.suspended.inj suspends
    exact reached
  | case2 state rest step => cases suspends
  | case3 state rest width next step ih => exact ih (reached.read step) suspends
  | case4 state rest width kind lexeme next step state' stops => cases suspends
  | case5 state rest width kind lexeme next step state' goes_on ih =>
    exact ih (reached.emit step goes_on) suspends
  | case6 state rest width error step => cases suspends
  | case7 state rest width error finish step => cases suspends

namespace Reached

/-- Within the digits of a number a digit has been read last. -/
theorem behind_digit (reached : Reached options extent ended origin text state rest) :
    ∃ read, text = read ++ rest ∧ state.mode.BehindDigit read := by
  induction reached with
  | start => exact ⟨[], rfl, trivial⟩
  | @read state rest width next earlier step ih =>
    obtain ⟨read, split, -⟩ := ih
    have behind : next.BehindDigit (rest.take width) := by
      obtain ⟨location, tokens, checking, mode⟩ := state
      cases proceeds_of_read step with
      | @digit c rest digit => exact fun _ => ⟨c, rfl, (isDigitOf_ten c).trans digit⟩
      | number draft rest part positive =>
        have leaves := draft.move_leavesDigit rest ended
        have moved : draft.move rest ended = _ := step
        rw [moved] at leaves
        exact leaves
      | _ => trivial
    exact ⟨read ++ rest.take width, by simp [split], behind.prepend read⟩
  | @emit state rest width kind emitted next earlier step goes_on ih =>
    obtain ⟨read, split, -⟩ := ih
    refine ⟨read ++ rest.take width, by simp [split], ?_⟩
    obtain ⟨location, tokens, checking, mode⟩ := state
    cases completes_of_emit step with
    | name draft => exact draft.behindDigit_next _
    | _ => trivial

/-- The name of a sigil ends in front of a character, which may be its delimiter. -/
theorem in_front_of_sigil (reached : Reached options extent false origin text state rest)
    {sigil : Sigil} (mode : state.mode = .sigil sigil) : rest ≠ [] := by
  induction reached with
  | start => cases mode
  | @read state rest width next earlier step ih =>
    obtain rfl : next = .sigil sigil := mode
    obtain ⟨location, tokens, checking, mode⟩ := state
    cases proceeds_of_read step
  | @emit state rest width kind emitted next earlier step goes_on ih =>
    obtain rfl : next = .sigil sigil := mode
    obtain ⟨location, tokens, checking, mode⟩ := state
    generalize into : Mode.sigil sigil = next at step
    cases completes_of_emit step with
    | name draft =>
      obtain ⟨rfl, -⟩ := NameDraft.of_emit step
      rintro rfl
      cases step
    | _ => cases into

end Reached

end State

/-! ## What is kept back -/

theorem exists_replicate_of_isRun {c : Char} {text : List Char} (run : isRun c text = true)
    (some : text ≠ []) : ∃ more, text = List.replicate (more + 1) c := by
  cases text with
  | nil => exact absurd rfl some
  | cons d rest =>
    refine ⟨rest.length, List.eq_replicate_iff.mpr ⟨rfl, ?_⟩⟩
    intro e listed
    simpa using List.all_eq_true.mp run e listed

theorem begins_of_breaksOff {text word : List Char} (some : text ≠ [])
    (cut : breaksOffWithin text word = true) : Begins text word := by
  obtain ⟨front, short⟩ := prefix_of_breaksOff cut
  exact ⟨some, front, short⟩

/-- A scan waits in front of nothing else than what a mode keeps back. -/
theorem LooseEnd.undecided {options : Options} {mode : Mode} {read text : List Char}
    (loose : LooseEnd options mode text) (digit : mode.BehindDigit read)
    (line : ∀ draft, mode = .tripleQuoted draft → draft.mayClose = true →
      ∃ before blanks, read = before ++ '\n' :: blanks ∧ ∀ c ∈ blanks, isInlineBlank c = true)
    (front : ∀ sigil, mode = .sigil sigil → text ≠ []) : Undecided options read mode text := by
  by_cases some : text = []
  · subst some
    exact .nothing fun sigil wrong => front sigil wrong rfl
  · cases loose with
    | nothing => exact absurd rfl some
    | opening run =>
      obtain ⟨more, rfl⟩ := exists_replicate_of_isRun run some
      exact .opening more
    | delimiter sigil run =>
      obtain ⟨more, rfl⟩ := exists_replicate_of_isRun run some
      exact .delimiter sigil more
    | @closing draft _ closes run =>
      obtain ⟨more, rfl⟩ := exists_replicate_of_isRun run some
      obtain ⟨before, blanks, line, blank⟩ := line draft rfl closes
      exact .closing draft line blank more
    | operator grows =>
      obtain ⟨op, -, cut⟩ := List.any_eq_true.mp grows
      exact .operator (begins_of_breaksOff some cut)
    | char cut =>
      rcases cut with rfl | ⟨behind, rfl, cut⟩
      · exact .dollar
      · exact .char (Escape.read_eq_incomplete_iff.mp cut)
    | marker checks cut => exact .marker checks (begins_of_breaksOff some cut)
    | separators has run =>
      obtain ⟨more, rfl⟩ := exists_replicate_of_isRun run some
      obtain ⟨c, last, digit⟩ := digit has
      exact .separators has last digit more
    | point whole => exact .point whole
    | escape inside escapes cut => exact .escape escapes (Escape.read_eq_incomplete_iff.mp cut)

namespace State

theorem Reached.undecided {options : Options} {origin : Location} {text rest : List Char}
    {state : State} (reached : Reached options .form false origin text state rest)
    (waits : state.move options false rest = .wait) :
    ∃ read, text = read ++ rest ∧ Undecided options read state.mode rest := by
  obtain ⟨read, split, digit⟩ := reached.behind_digit
  refine ⟨read, split, (looseEnd_of_wait waits).undecided digit ?_ fun _ mode =>
    reached.in_front_of_sigil mode⟩
  intro draft mode closes
  obtain ⟨before, lexeme, amid, split'⟩ := reached.amid
  have holds := amid.holds
  rw [mode] at holds
  obtain ⟨rfl, made⟩ := holds
  obtain ⟨front, blanks, source, blank⟩ := TripleQuotedDraft.blank_line made closes
  have same : read = before ++ (front ++ '\n' :: blanks) := by
    rw [← source]
    exact List.append_cancel_right (split.symm.trans (split'.trans (List.append_assoc _ _ _).symm))
  exact ⟨before ++ front, blanks, by rw [same, List.append_assoc], blank⟩

end State

namespace Suspension.Fed

variable {options : Options} {origin : Location} {fed : List Char} {scan : Suspension}

theorem resume_nothing (given : Fed options origin fed scan) :
    scan.resume (.chunk []) = .suspended scan := by
  have run : scan.state.run scan.options .form false scan.pending =
      .suspended scan.state scan.pending := by
    rw [State.run_eq, given.options_eq, wait_of_suspended given.suspends]
  simp only [resume, Input.isEnd, Input.text, List.append_nil, run]

/-- **A suspended scan keeps back no more than it must.** Of the text that it has been fed it
has read all but a beginning of a mark, of an escape or of a run, that the mode it is in may go
on with. What it has read is never read again, and without any text it stays what it is. -/
theorem pending_undecided (given : Fed options origin fed scan) :
    ∃ read, fed = read ++ scan.pending ∧
      Undecided options read scan.state.mode scan.pending ∧
      scan.resume (.chunk []) = .suspended scan ∧
      ∀ text later, scan.resume (.chunk text) = .suspended later →
        ∃ more, fed ++ text = read ++ (more ++ later.pending) := by
  have reached := State.Reached.start.of_suspended given.suspends
  obtain ⟨read, split, undecided⟩ := reached.undecided (wait_of_suspended given.suspends)
  refine ⟨read, split, undecided, given.resume_nothing, ?_⟩
  intro text later resumed
  obtain ⟨more, text, -⟩ := State.suspended_at (run_of_suspended resumed).1
  refine ⟨more, ?_⟩
  rw [split, List.append_assoc]
  exact congrArg (read ++ ·) text

/-- An integer to base sixteen that is cut behind an underscore. -/
theorem pending_behind_digit :
    ∃ scan, Fed default .start ['1', '6', '#', 'f', '_'] scan ∧ scan.pending = ['_'] ∧
      ∃ read, ['1', '6', '#', 'f', '_'] = read ++ scan.pending ∧
        Undecided default read scan.state.mode scan.pending ∧
        scan.resume (.chunk []) = .suspended scan ∧
        ∀ text later, scan.resume (.chunk text) = .suspended later →
          ∃ more, ['1', '6', '#', 'f', '_'] ++ text = read ++ (more ++ later.pending) := by
  have waits : (State.fresh .start).run default .form false ['1', '6', '#', 'f', '_'] =
      .suspended ⟨.start, #[], false,
        .number ⟨⟨.start, "16#f"⟩, .based 16 (some 15)⟩⟩ ['_'] := by decide +kernel
  have given := Fed.of_run waits
  exact ⟨_, given, rfl, given.pending_undecided⟩

end Suspension.Fed

end ErlangLexer
