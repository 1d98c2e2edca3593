import ErlangLexer.Proofs.Fed
import ErlangLexer.Proofs.OffsetScan

/-!
# Offsets between characters

A scan by byte offsets never looks into the middle of a character or beyond its text:

* `OffsetScan.Visited`: the scans that chunks of any source lead to, buffer by buffer;
* `OffsetScan.Bounded`: the position and the saved position are boundaries in their order;
* `Suspension.Fed.visited`: whatever chunks a scan has been fed, it goes on with such a scan;
* `OffsetForms`: the forms of a text by the offset of the next one;
* `OffsetForms.Stands.next`: each of them starts at a boundary, and they are the forms of the text;
* `offsets_at_boundaries`: so no slice is ever missing, and what is counted in bytes of a single
  character each is counted right.
-/

namespace ErlangLexer

open CommandLine (bytes bytes_nil bytes_cons bytes_append IsBoundary isBoundary_front)

/-! ## Scans -/

namespace OffsetScan

/-- The scans that some chunks lead to. What a suspended scan has not read is put in front of the
next chunk, in a new buffer. -/
inductive Visited (search : ByteSearch) (options : Options) (extent : Extent) :
    OffsetScan → Prop where
  | start (ended : Bool) (origin : Location) (text : List Char) :
      Visited search options extent (ofText ended (.fresh origin) text)
  | next {scan later : OffsetScan} (visited : Visited search options extent scan)
      (turn : scan.turn? search options extent = some (.next later)) :
      Visited search options extent later
  | resume {scan : OffsetScan} {state : State} {cursor : Cursor} {pending : List Char}
      (visited : Visited search options extent scan)
      (turn : scan.turn? search options extent = some (.suspend state cursor))
      (rest : cursor.rest? = some pending) (input : Input) :
      Visited search options extent (ofText input.isEnd state (pending ++ input.text))

/-- Every offset of a scan is between characters of its buffer: the saved position is not behind
the position, and as many characters are between them as have been counted. -/
structure Bounded (scan : OffsetScan) : Prop where
  position : IsBoundary scan.cursor.text scan.cursor.position
  within : scan.cursor.position ≤ bytes scan.cursor.text
  saved : ∀ saved ∈ scan.saved?, saved.start ≤ scan.cursor.position ∧
    IsBoundary scan.cursor.text saved.start ∧
    ∃ run, scan.cursor.since? saved.start = some run ∧ run.length = saved.count

variable {search : ByteSearch} {options : Options} {extent : Extent} {scan : OffsetScan}

theorem Stands.bounded {front run rest : List Char} (stands : scan.Stands front run rest) :
    scan.Bounded := by
  have cursor := stands.cursor
  refine ⟨?_, ?_, ?_⟩
  · rw [cursor]
    exact isBoundary_front (front ++ run) rest
  · rw [cursor]
    exact CommandLine.bytes_le_of_prefix (List.prefix_append _ _)
  · intro saved listed
    obtain rfl : saved = ⟨bytes front, run.length⟩ := by
      rw [← stands.saved, OffsetScan.saved, Option.mem_def.mp listed]
      rfl
    rw [cursor]
    refine ⟨?_, ?_, run, Cursor.since?_between front rest run, rfl⟩
    · rw [Cursor.position_between, bytes_append]
      exact Nat.le_add_right _ _
    · rw [Cursor.between, List.append_assoc]
      exact isBoundary_front _ _

theorem Visited.stands (visited : Visited search options extent scan) :
    ∃ front run rest, scan.Stands front run rest := by
  induction visited with
  | start ended origin text => exact ⟨[], [], text, stands_ofText ..⟩
  | next visited turn ih =>
    obtain ⟨front, run, rest, stands⟩ := ih
    cases stands.follows turn with
    | next passed later => exact ⟨_, _, _, later⟩
  | resume visited turn rest input ih => exact ⟨[], [], _, stands_ofText ..⟩

/-- A scan that chunks lead to has a next turn. The turn leaves the cursor between characters of
the same buffer and no further back, and the text behind it can be sliced off. -/
theorem Visited.exists_turn (visited : Visited search options extent scan) :
    ∃ turn, scan.turn? search options extent = some turn ∧
      turn.cursor.text = scan.cursor.text ∧
      scan.cursor.position ≤ turn.cursor.position ∧
      IsBoundary scan.cursor.text turn.cursor.position ∧
      ∃ rest, turn.cursor.rest? = some rest := by
  obtain ⟨front, run, rest, stands⟩ := visited.stands
  obtain ⟨turn, turns, follows⟩ := stands.turn?_follows search options extent
  obtain ⟨passed, left, rfl, behind⟩ := follows.between
  have same : front ++ run ++ (passed ++ left) = front ++ run ++ passed ++ left :=
    (List.append_assoc ..).symm
  refine ⟨turn, turns, ?_, ?_, ?_, left, ?_⟩
  · rw [behind, stands.cursor, Cursor.between, Cursor.between, same]
  · rw [behind, stands.cursor]
    exact CommandLine.bytes_le_of_prefix (List.prefix_append _ _)
  · rw [behind, stands.cursor, Cursor.between, same]
    exact isBoundary_front _ _
  · rw [behind, Cursor.rest?_between]

theorem exists_halt (search : ByteSearch) (options : Options) (extent : Extent) (ended : Bool)
    (state : State) (text : List Char) :
    ∃ halt, Halts search options extent (.ofText ended state text) halt ∧
      halt.halt? = some (state.run options extent ended text) := by
  have stands := stands_ofText ended state text
  obtain ⟨halt, halts⟩ := stands.halts search options extent
  obtain ⟨-, -, -, -, agrees⟩ := halts.agrees stands
  exact ⟨halt, halts, agrees⟩

/-- The turns of a scan that chunks lead to end with the turn of one. -/
theorem Halts.last {halt : Turn} (halts : Halts search options extent scan halt)
    (visited : Visited search options extent scan) :
    ∃ last, Visited search options extent last ∧ last.turn? search options extent = some halt := by
  induction halts with
  | suspend turn => exact ⟨_, visited, turn⟩
  | stop turn => exact ⟨_, visited, turn⟩
  | next turn halts ih => exact ih (.next visited turn)

end OffsetScan

/-- However a scan has been fed, it goes on in a buffer of what it has not read and of what comes
next. -/
theorem Suspension.Fed.visited {options : Options} {origin : Location} {fed : List Char}
    {scan : Suspension} (given : Suspension.Fed options origin fed scan) (search : ByteSearch)
    (input : Input) :
    (OffsetScan.ofText input.isEnd scan.state (scan.pending ++ input.text)).Visited search options
      .form := by
  induction given generalizing input with
  | start => exact .start input.isEnd origin input.text
  | @next fed text scan later earlier resumed ih =>
    obtain ⟨run, -⟩ := run_of_suspended resumed
    rw [earlier.options_eq] at run
    obtain ⟨halt, halts, agrees⟩ := OffsetScan.exists_halt search options .form false scan.state
      (scan.pending ++ text)
    obtain ⟨last, visited, turn⟩ := halts.last (ih (.chunk text))
    have suspended : halt.halt? = some (.suspended later.state later.pending) :=
      agrees.trans (congrArg some run)
    cases halt with
    | next scan => cases suspended
    | suspend state cursor =>
      obtain ⟨pending, rest, same⟩ := Option.map_eq_some_iff.mp suspended
      obtain ⟨rfl, rfl⟩ := Halt.suspended.inj same
      exact .resume visited turn rest input
    | stop outcome cursor =>
      obtain ⟨_, -, other⟩ := Option.map_eq_some_iff.mp suspended
      cases other

/-! ## Forms -/

/-- The forms of a complete text that are still to come, by the offset of the next one. -/
structure OffsetForms where
  text : List Char
  offset : Nat
  location : Location
  options : Options
  done : Bool

namespace OffsetForms

/-- All forms of a text. -/
def ofText (options : Options) (location : Location) (text : List Char) : OffsetForms :=
  ⟨text, 0, location, options, false⟩

/-- The text from the offset on. -/
def rest? (forms : OffsetForms) : Option (List Char) :=
  behind? forms.text forms.offset

/-- The forms behind one that a scan has stopped at. -/
def behind (forms : OffsetForms) (outcome : Outcome) (cursor : Cursor) : OffsetForms :=
  let offset := forms.offset + cursor.position
  { forms with
    offset := offset
    location := outcome.finish
    done := offset == bytes forms.text || outcome.isNothing }

/-- The next outcome and the forms behind it. -/
inductive Next (search : ByteSearch) : OffsetForms → Outcome → OffsetForms → Prop where
  | scan {forms : OffsetForms} {rest : List Char} {outcome : Outcome} {cursor : Cursor}
      (going : forms.done = false) (slice : forms.rest? = some rest)
      (halts : OffsetScan.Halts search forms.options .form
        (.ofText true (.fresh forms.location) rest) (.stop outcome cursor)) :
      Next search forms outcome (forms.behind outcome cursor)

/-- The forms that a text leads to. -/
inductive Reached (search : ByteSearch) : OffsetForms → Prop where
  | start (options : Options) (location : Location) (text : List Char) :
      Reached search (ofText options location text)
  | next {forms later : OffsetForms} {outcome : Outcome} (reached : Reached search forms)
      (next : Next search forms outcome later) : Reached search later

/-- The offset is between characters. -/
def Stands (forms : OffsetForms) (front rest : List Char) : Prop :=
  forms.text = front ++ rest ∧ forms.offset = bytes front

/-- The forms with the text behind the offset. -/
def view (forms : OffsetForms) (rest : List Char) : Forms :=
  ⟨rest, forms.location, forms.options, forms.done⟩

variable {search : ByteSearch} {forms later : OffsetForms} {front rest : List Char}
  {outcome : Outcome}

theorem Stands.rest? (stands : forms.Stands front rest) : forms.rest? = some rest := by
  rw [OffsetForms.rest?, stands.1, stands.2, behind?_front]

/-- The next form is the one of the text behind the offset, and the forms behind it start between
characters. -/
theorem Stands.next (stands : forms.Stands front rest) (next : Next search forms outcome later) :
    ∃ passed left, rest = passed ++ left ∧ later.Stands (front ++ passed) left ∧
      (forms.view rest).next? = some (outcome, later.view left) := by
  cases next with
  | scan going slice halts =>
    obtain rfl := Option.some.inj (stands.rest?.symm.trans slice)
    obtain ⟨passed, left, rfl, cursor, agrees⟩ := halts.agrees (OffsetScan.stands_ofText ..)
    obtain rfl : _ = Cursor.between passed left := cursor
    have halted : (State.fresh forms.location).run forms.options .form true (passed ++ left) =
        .stopped outcome left := by
      rw [Turn.halt?, Cursor.rest?_between] at agrees
      exact (Option.some.inj agrees).symm
    have ends : (forms.offset + bytes passed == bytes forms.text) = left.isEmpty := by
      rw [stands.1, stands.2, bytes_append, bytes_append]
      cases left with
      | nil => simp
      | cons c left =>
        have := c.utf8Size_pos
        rw [bytes_cons, List.isEmpty_cons, beq_eq_false_iff_ne]
        omega
    refine ⟨passed, left, rfl, ⟨?_, ?_⟩, ?_⟩
    · rw [behind, stands.1, List.append_assoc]
    · rw [behind, stands.2, Cursor.position_between, bytes_append]
    · simp only [Forms.next?, view, going, scanEnded, halted, Halt.settle, behind,
        Cursor.position_between, ends, Bool.false_eq_true, ↓reduceIte]

theorem Reached.stands (reached : Reached search forms) :
    ∃ front rest, forms.Stands front rest := by
  induction reached with
  | start options location text => exact ⟨[], text, rfl, rfl⟩
  | next reached next ih =>
    obtain ⟨front, rest, stands⟩ := ih
    obtain ⟨passed, left, -, later, -⟩ := stands.next next
    exact ⟨_, _, later⟩

theorem Stands.exists_next (stands : forms.Stands front rest) (search : ByteSearch)
    (going : forms.done = false) : ∃ outcome later, Next search forms outcome later := by
  obtain ⟨halt, halts, agrees⟩ := OffsetScan.exists_halt search forms.options .form true
    (.fresh forms.location) rest
  obtain ⟨outcome, behind, stopped⟩ :=
    (State.fresh forms.location).run_ended forms.options .form rest
  have ended : halt.halt? = some (.stopped outcome behind) := agrees.trans (congrArg some stopped)
  cases halt with
  | next later => cases ended
  | suspend state cursor =>
    obtain ⟨_, -, other⟩ := Option.map_eq_some_iff.mp ended
    cases other
  | stop outcome cursor => exact ⟨outcome, _, .scan going stands.rest? halts⟩

/-- The forms that a text leads to start between characters, the text behind them can be sliced
off, and the next one is the next form of that text. -/
theorem Reached.slices (reached : Reached search forms) :
    IsBoundary forms.text forms.offset ∧ ∃ rest, forms.rest? = some rest ∧
      (forms.done = false → ∃ outcome later, Next search forms outcome later) ∧
      ∀ outcome later, Next search forms outcome later →
        ∃ left, later.rest? = some left ∧
          (forms.view rest).next? = some (outcome, later.view left) := by
  obtain ⟨front, rest, stands⟩ := reached.stands
  refine ⟨?_, rest, stands.rest?, stands.exists_next search, ?_⟩
  · rw [stands.1, stands.2]
    exact isBoundary_front front rest
  · intro outcome later next
    obtain ⟨passed, left, -, behind, agrees⟩ := stands.next next
    exact ⟨left, behind.rest?, agrees⟩

end OffsetForms

/-! ## No offset within a character -/

/-- The repetitions of a character of one byte, which its byte counts, are all there are, and
their bytes count them. -/
theorem byteRun_counts {c : Char} (single : c.utf8Size = 1) (inline : c ≠ '\n')
    (text : List Char) :
    text.takeWhile (· == c) = List.replicate (byteRun c text) c ∧
      bytes (List.replicate (byteRun c text) c) = byteRun c text ∧
      ByteCounted (List.replicate (byteRun c text) c) := by
  refine ⟨?_, ?_, byteCounted_byteRun single inline text⟩
  · rw [byteRun_eq single, takeWhile_beq]
  · rw [bytes_eq_length, List.length_replicate]
    intro d listed
    rw [List.eq_of_mem_replicate listed, single]

/-- **Offsets are at boundaries.** There is a slice of a text just between two offsets that are
between its characters and in their order. Every scan that chunks of a source lead to, whatever
they are, has its position and its saved position there, and has a next turn: no slice that it
asks for is missing. The turn does not go back, leaves the cursor at such a place, and the text
behind it can be sliced off. Such are the scans that go on with what has been fed in some chunks,
in the buffer of the text not read and of what comes next. The turns of any scan of a buffer come
to a halt, and it is the halt of the run over the text of the buffer, with the same text left.
Every form of a text starts at such a place, its text can be sliced off, and unless they are done
there is a next one, which is the next form of that text. An escape, and the escapes of a whole
text, are decoded by slices whatever the text is. The repetitions of a character that are counted
by their bytes, an operator and the marker of a check annotation have as many characters as bytes:
a cursor that passes as many passes just them, and they are as many columns wide. -/
theorem offsets_at_boundaries (search : ByteSearch) (options : Options) :
    (∀ (text : List Char) (start finish : Nat), (slice? text start finish).isSome = true ↔
      start ≤ finish ∧ IsBoundary text start ∧ IsBoundary text finish) ∧
    (∀ (extent : Extent) (scan : OffsetScan), scan.Visited search options extent →
      scan.Bounded ∧ ∃ turn, scan.turn? search options extent = some turn ∧
        turn.cursor.text = scan.cursor.text ∧
        scan.cursor.position ≤ turn.cursor.position ∧
        IsBoundary scan.cursor.text turn.cursor.position ∧
        ∃ rest, turn.cursor.rest? = some rest) ∧
    (∀ (origin : Location) (fed : List Char) (scan : Suspension),
      Suspension.Fed options origin fed scan → ∀ input : Input,
        (OffsetScan.ofText input.isEnd scan.state (scan.pending ++ input.text)).Visited search
          options .form) ∧
    (∀ (extent : Extent) (ended : Bool) (state : State) (text : List Char),
      ∃ halt, OffsetScan.Halts search options extent (.ofText ended state text) halt ∧
        halt.halt? = some (state.run options extent ended text)) ∧
    (∀ forms : OffsetForms, forms.Reached search →
      IsBoundary forms.text forms.offset ∧ ∃ rest, forms.rest? = some rest ∧
        (forms.done = false → ∃ outcome later, OffsetForms.Next search forms outcome later) ∧
        ∀ outcome later, OffsetForms.Next search forms outcome later →
          ∃ left, later.rest? = some left ∧
            (forms.view rest).next? = some (outcome, later.view left)) ∧
    (∀ (text : List Char) (ended : Bool),
      Escape.readSlices? text ended = some (Escape.read text ended)) ∧
    (∀ (text : List Char) (offset : Nat),
      Escape.decodeSlices? offset text = some (Escape.decodeFrom offset text)) ∧
    (∀ c : Char, c.utf8Size = 1 → c ≠ '\n' → ∀ text : List Char,
      text.takeWhile (· == c) = List.replicate (byteRun c text) c ∧
        bytes (List.replicate (byteRun c text) c) = byteRun c text ∧
        ByteCounted (List.replicate (byteRun c text) c)) ∧
    (∀ op : Operator, ByteCounted op.spelling) ∧ ByteCounted Comment.marker := by
  refine ⟨?_, ?_, ?_, ?_, ?_, Escape.readSlices?_eq, ?_, ?_, byteCounted_spelling,
    byteCounted_marker⟩
  · intro text start finish
    exact isSome_slice?_iff
  · intro extent scan visited
    obtain ⟨front, run, rest, stands⟩ := visited.stands
    exact ⟨stands.bounded, visited.exists_turn⟩
  · intro origin fed scan given input
    exact given.visited search input
  · intro extent ended state text
    exact OffsetScan.exists_halt search options extent ended state text
  · intro forms reached
    exact reached.slices
  · intro text offset
    exact Escape.decodeSlices?_eq offset text
  · intro c single inline text
    exact byteRun_counts single inline text

/-- In the middle of a name with characters of two bytes, behind a chunk that a hex escape is cut
off in, behind a form that a noncharacter of three bytes has ended, and in front of two double
quotes and a wider character. -/
theorem offsets_at_boundaries_among_wide_characters :
    let name := ['é', 'ß', '.']
    let scan : OffsetScan := ⟨false, ⟨⟨1, some 1⟩, #[], false, .name ⟨⟨1, some 1⟩, .atom, ""⟩⟩,
      ⟨name, 2⟩, some ⟨0, 1⟩⟩
    let cut : Suspension := ⟨default, .fresh ⟨2, some 1⟩, ['$', '\\', 'x']⟩
    let text := ['\ufffe', 'é']
    let forms := (OffsetForms.ofText default ⟨1, some 1⟩ text).behind
      (.error (.illegal ⟨1, some 1⟩ .character) ⟨1, some 2⟩) ⟨text, 3⟩
    scan.Visited .plain default .form ∧ scan.Bounded ∧ ¬IsBoundary name 1 ∧ ¬IsBoundary name 3 ∧
      Suspension.Fed default ⟨1, some 1⟩ ['\n', '$', '\\', 'x'] cut ∧
      (OffsetScan.ofText false cut.state ['$', '\\', 'x', 'é']).Visited .plain default .form ∧
      forms.Reached .plain ∧ IsBoundary text 3 ∧ ¬IsBoundary text 1 ∧
      (∃ outcome later, OffsetForms.Next .plain forms outcome later) ∧
      ByteCounted (List.replicate (byteRun '"' ['"', '"', 'é']) '"') := by
  intro name scan cut text forms
  obtain ⟨slices, scans, chunks, -, sources, -, -, counts, -⟩ :=
    offsets_at_boundaries .plain default
  have visited : scan.Visited .plain default .form := .next (.start false ⟨1, some 1⟩ name) rfl
  have fed : Suspension.Fed default ⟨1, some 1⟩ ['\n', '$', '\\', 'x'] cut :=
    .of_run (by decide +kernel)
  have stopped : OffsetScan.turn? .plain default .form (.ofText true (.fresh ⟨1, some 1⟩) text) =
      some (.stop (.error (.illegal ⟨1, some 1⟩ .character) ⟨1, some 2⟩) ⟨text, 3⟩) := rfl
  have reached : forms.Reached .plain :=
    .next (.start default ⟨1, some 1⟩ text) (.scan rfl rfl (.stop stopped))
  have within {text : List Char} {offset : Nat}
      (missing : (slice? text offset offset).isSome = false) : ¬IsBoundary text offset := by
    intro boundary
    have slice := (slices text offset offset).mpr ⟨Nat.le_refl _, boundary, boundary⟩
    rw [missing] at slice
    cases slice
  obtain ⟨boundary, rest, -, next, -⟩ := sources forms reached
  exact ⟨visited, (scans .form scan visited).1, within rfl, within rfl,
    fed, chunks _ _ cut fed (.chunk ['é']), reached, boundary, within rfl, next rfl,
    (counts '"' rfl (by decide) _).2.2⟩

end ErlangLexer
