import ErlangLexer.Proofs.Beginnings
import ErlangLexer.Proofs.Fed

/-!
# The range of an error

An error is told by where it is and by where its text ends. As long as lines and columns can
still be counted, both lie within the text that is read:

* `Location.compare_position`, `Location.compare_shift`: a location behind some text or further
  on in its line comes later, up to the largest line and column there are;
* `LexicalError.Within`: an error is in front of a character that is read;
* `Fails.within`: so is every error that a move finds, whatever it is measured from;
* `State.Reached.layout_range`: a fault of layout ends on its own line, and the literal does not;
* `Suspension.Fed.error_range`: together, for every scan, whatever the chunks it was fed in.
-/

namespace ErlangLexer

/-! ## The order of locations -/

namespace Location

/-- Neither the line nor the column is the largest there is. -/
structure IsFree (location : Location) : Prop where
  line : location.line.toInt < 0x7fffffff
  column : ∀ c, location.column = some c → c.toNat < 0xffffffff

theorem compare_of_line_lt {a b : Location} (less : a.line.toInt < b.line.toInt) :
    a.compare b = .lt := by
  have lines : Ord.compare a.line.toInt b.line.toInt = .lt := Int.compare_eq_lt.mpr less
  rw [compare, lines]
  rfl

theorem compare_of_line_eq {a b : Location} (same : a.line.toInt = b.line.toInt) :
    a.compare b = compareColumn a.column b.column := by
  have lines : Ord.compare a.line.toInt b.line.toInt = .eq := Int.compare_eq_eq.mpr same
  rw [compare, lines]
  rfl

theorem isLE_compare_self (location : Location) : (location.compare location).isLE = true := by
  rw [compare_of_line_eq rfl]
  cases location.column with
  | none => rfl
  | some c => exact Nat.isLE_compare.mpr (Nat.le_refl _)

/-- Columns that are counted on come in order, and later if they are counted on at all. -/
theorem compareColumn_of_le {a b : UInt32} (le : a.toNat ≤ b.toNat) :
    (compareColumn (some a) (some b)).isLE = true ∧
      (a.toNat < b.toNat → compareColumn (some a) (some b) = .lt) :=
  ⟨Nat.isLE_compare.mpr le, fun less => Nat.compare_eq_lt.mpr less⟩

theorem toNat_column {n : Nat} (free : (UInt32.ofNat (min n 0xffffffff)).toNat < 0xffffffff) :
    (UInt32.ofNat (min n 0xffffffff)).toNat = n := by
  have bound : min n 0xffffffff < UInt32.size :=
    Nat.lt_of_le_of_lt (Nat.min_le_right _ _) (by decide)
  rw [UInt32.toNat_ofNat_of_lt' bound] at free ⊢
  omega

/-- The location behind a text comes later, if it is not at the bound. -/
theorem compare_position {origin : Location} {text : List Char}
    (free : (origin.position text).IsFree) :
    (origin.compare (origin.position text)).isLE = true ∧
      (text ≠ [] → origin.hasColumn = true → origin.compare (origin.position text) = .lt) := by
  have lines := origin.toInt_line_position text
  have bound := free.line
  by_cases broken : '\n' ∈ text
  · have some_line : 0 < text.count '\n' := List.count_pos_iff.mpr broken
    have later : origin.compare (origin.position text) = .lt :=
      compare_of_line_lt (by omega)
    rw [later]
    exact ⟨rfl, fun _ _ => rfl⟩
  · have one_line : text.count '\n' = 0 := List.count_eq_zero.mpr broken
    have same : origin.line.toInt = (origin.position text).line.toInt := by omega
    rw [compare_of_line_eq same]
    obtain ⟨line, column⟩ := origin
    cases column with
    | none => exact ⟨rfl, fun _ tracked => absurd tracked (by simp [hasColumn])⟩
    | some c =>
      have counted := toNat_column (free.column _ rfl)
      simp only [columnBehind, broken, ↓reduceIte] at counted
      simp only [position, columnBehind, broken, ↓reduceIte, Option.map_some]
      obtain ⟨le, less⟩ := compareColumn_of_le (a := c)
        (b := UInt32.ofNat (min (c.toNat + text.length) 0xffffffff)) (by omega)
      refine ⟨le, fun some_text _ => less ?_⟩
      have positive := List.length_pos_iff.mpr some_text
      omega

/-- So does a location further on in its line. -/
theorem compare_shift {location : Location} (free : location.IsFree) {width : Nat}
    (positive : 0 < width) :
    (location.compare (location.shift width)).isLE = true ∧
      (location.hasColumn = true → location.compare (location.shift width) = .lt) := by
  rw [compare_of_line_eq (by rw [line_shift])]
  obtain ⟨line, column⟩ := location
  cases column with
  | none => exact ⟨rfl, fun tracked => absurd tracked (by simp [hasColumn])⟩
  | some c =>
    have room := free.column c rfl
    have bound : min (c.toNat + width) 0xffffffff < UInt32.size :=
      Nat.lt_of_le_of_lt (Nat.min_le_right _ _) (by decide)
    have shifted := UInt32.toNat_ofNat_of_lt' bound
    simp only [shift, Option.map_some]
    obtain ⟨le, less⟩ := compareColumn_of_le (a := c)
      (b := UInt32.ofNat (min (c.toNat + width) 0xffffffff)) (by omega)
    exact ⟨le, fun _ => less (by omega)⟩

end Location

/-! ## Where moves find errors -/

/-- The error is in front of a character of the text. -/
def LexicalError.Within (origin : Location) (text : List Char) (error : LexicalError) : Prop :=
  ∃ front behind, text = front ++ behind ∧ behind ≠ [] ∧ error.location = origin.walk front

namespace State

variable {options : Options} {extent : Extent} {ended : Bool} {origin : Location}
  {before rest : List Char} {lexeme : Lexeme} {state : State} {width : Nat} {error : LexicalError}

/-- An error at the place of a scan is in front of what it reads there. -/
theorem Amid.within_here (amid : state.Amid origin before lexeme) (here : error.location =
    state.location) (read : rest.take width ≠ []) :
    error.Within origin (before ++ (lexeme.source.toList ++ rest.take width)) := by
  refine ⟨before ++ lexeme.source.toList, rest.take width, ?_, read, ?_⟩
  · rw [List.append_assoc]
  · rw [here, amid.here, amid.start, Location.walk_append]

theorem Amid.within_start (amid : state.Amid origin before lexeme)
    (start : error.location = lexeme.start) (held : lexeme.source.toList ≠ []) :
    error.Within origin (before ++ (lexeme.source.toList ++ rest.take width)) := by
  refine ⟨before, _, rfl, ?_, start.trans amid.start⟩
  intro none
  exact held (List.append_eq_nil_iff.mp none).1

/-- A move finds no error but in front of some character that is read. -/
theorem Amid.within (amid : state.Amid origin before lexeme) (begun : state.mode.Begun)
    (introduced : state.mode.Introduced origin before)
    (step : state.move options ended rest = .fail width error) :
    error.Within origin (before ++ (lexeme.source.toList ++ rest.take width)) := by
  have fails := fails_of_fail step
  obtain ⟨location, tokens, checking, mode⟩ := state
  cases fails with
  | openChar | foreign | quotedForeign | adjacent | delimiter | tripleQuotedForeign =>
    exact amid.within_here rfl (by simp)
  | cutChar last cut => exact amid.within_here rfl (by simp)
  | charEscape wrong => exact amid.within_here rfl (by simp)
  | quotedEscape wrong => exact amid.within_here rfl (by simp)
  | @charForeign c behind foreign =>
    have unread : lexeme.source = "" := amid.holds
    have here := amid.here
    rw [unread] at here
    refine ⟨before ++ ['$'], [c], ?_, by simp, ?_⟩
    · simp [unread]
    · rw [Location.walk_append, ← amid.start]
      exact congrArg (Location.next · '$') here
  | @longName draft text long =>
    obtain rfl := amid.holds
    refine amid.within_start rfl ?_
    intro none
    have short : draft.name.toList = [] := by
      unfold NameDraft.source at none
      split at none
      · rw [String.toList_append] at none
        exact (List.append_eq_nil_iff.mp none).2
      · exact none
    rw [← String.length_toList, short] at long
    exact absurd long (by decide)
  | number draft text width =>
    obtain rfl := amid.holds
    exact amid.within_start rfl begun
  | base draft text value =>
    obtain rfl := amid.holds
    exact amid.within_start rfl begun
  | openQuoted last =>
    obtain rfl := amid.holds
    obtain ⟨opening, body, source, -⟩ := begun
    exact amid.within_start rfl (by simp [source])
  | cutQuoted last inside escapes cut =>
    obtain rfl := amid.holds
    obtain ⟨opening, body, source, -⟩ := begun
    exact amid.within_start rfl (by simp [source])
  | longAtom atom long =>
    obtain rfl := amid.holds
    obtain ⟨opening, body, source, -⟩ := begun
    exact amid.within_start rfl (by simp [source])
  | openSigil last =>
    obtain ⟨front, name, rfl, -, place, -⟩ := introduced
    exact ⟨front, _, List.append_assoc _ _ _, by simp, place⟩
  | openTripleQuoted last =>
    obtain ⟨rfl, made⟩ := amid.holds
    refine amid.within_start rfl ?_
    rw [made.source]
    intro none
    have quotes := begun.1
    simp only [List.append_eq_nil_iff, List.replicate_eq_nil_iff] at none
    omega

end State

/-! ## Faults of layout -/

theorem Escape.width_fault_pos {offset : Nat} {text : List Char} {fault : Escape.Fault}
    (faulty : decodeFrom offset text = .error fault) : 0 < fault.width := by
  have map_error {f : List Char → List Char} {result : Except Escape.Fault (List Char)}
      (h : result.map f = .error fault) : result = .error fault := by
    cases result with
    | ok value => cases h
    | error found => exact congrArg Except.error (Except.error.inj h)
  fun_induction decodeFrom offset text with
  | case1 => cases faulty
  | case2 offset rest value width read ih => exact ih (map_error faulty)
  | case3 offset rest read ih => exact ih (map_error faulty)
  | case4 offset rest read =>
    obtain rfl := Except.error.inj faulty
    exact Nat.one_pos
  | case5 offset rest width read =>
    obtain rfl := Except.error.inj faulty
    simp only
    omega
  | case6 offset c rest plain ih => exact ih (map_error faulty)

namespace Layout

theorem width_decodeLines_pos {indent : List Char} {offset : Nat} {lines : List (List Char)}
    {fault : Escape.Fault} (faulty : decodeLines indent offset lines = .error fault) :
    0 < fault.width := by
  induction lines generalizing offset with
  | nil => cases faulty
  | cons line lines ih =>
    unfold decodeLines at faulty
    split at faulty
    · rename_i found decoded
      obtain rfl := Except.error.inj faulty
      exact Escape.width_fault_pos decoded
    · cases later : decodeLines indent (offset + line.length) lines with
      | ok value =>
        rw [later] at faulty
        cases faulty
      | error found =>
        rw [later] at faulty
        obtain rfl := Except.error.inj faulty
        exact ih later

theorem width_fault_pos {layout : Layout} {verbatim : Bool} {fault : Fault}
    (faulty : layout.value verbatim = .error fault) : 0 < fault.width := by
  unfold value at faulty
  split at faulty
  · obtain rfl := Except.error.inj faulty
    exact Nat.one_pos
  · split at faulty
    · obtain rfl := Except.error.inj faulty
      exact Nat.one_pos
    · split at faulty
      · cases faulty
      · split at faulty
        · rename_i found decoded
          obtain rfl := Except.error.inj faulty
          exact width_decodeLines_pos decoded
        · cases faulty

end Layout

/-! ## Ranges -/

/-- The error and the end of its text lie within a text that starts at `origin`, in this order. -/
structure ErrorRange (origin : Location) (text : List Char) (error : LexicalError)
    (finish : Location) : Prop where
  start_le : (origin.compare error.location).isLE = true
  le_finish : (error.location.compare finish).isLE = true
  finish_le : (finish.compare (origin.position text)).isLE = true
  /-- With columns the range is not empty. -/
  lt_finish : origin.hasColumn = true → error.location.compare finish = .lt

/-- In front of every character of the text, and behind it, neither the line nor the column is
the largest there is. -/
def Countable (origin : Location) (text : List Char) : Prop :=
  ∀ front, front <+: text → (origin.position front).IsFree

/-- A text with fewer characters than there are lines and columns left can be counted. -/
theorem countable_of_short {origin : Location} {text : List Char}
    (lines : origin.line.toInt + text.length < 0x7fffffff)
    (columns : ∀ c, origin.column = some c → c.toNat + text.length + 1 < 0xffffffff) :
    Countable origin text := by
  intro front within
  have short := within.length_le
  constructor
  · have line := origin.toInt_line_position front
    have few : front.count '\n' ≤ front.length := List.count_le_length
    omega
  · intro d found
    obtain ⟨c, tracked, rfl⟩ := Option.map_eq_some_iff.mp found
    have room := columns c tracked
    have behind : Location.columnBehind c.toNat front ≤ c.toNat + front.length + 1 := by
      unfold Location.columnBehind
      split
      · have part : (front.rtakeWhile (· != '\n')).length ≤ front.length :=
          (List.rtakeWhile_suffix _ _).length_le
        omega
      · omega
    have bound : min (Location.columnBehind c.toNat front) 0xffffffff < UInt32.size :=
      Nat.lt_of_le_of_lt (Nat.min_le_right _ _) (by decide)
    rw [UInt32.toNat_ofNat_of_lt' bound]
    omega

theorem LexicalError.Within.range {origin : Location} {text : List Char} {error : LexicalError}
    (within : error.Within origin text) (countable : Countable origin text) :
    ErrorRange origin text error (origin.walk text) := by
  obtain ⟨front, behind, rfl, some_text, place⟩ := within
  have first := countable front (List.prefix_append front behind)
  have last := countable (front ++ behind) (List.prefix_refl _)
  have there : origin.position (front ++ behind) = (origin.position front).position behind := by
    simp only [← Location.walk_eq_position, Location.walk_append]
  have later := Location.compare_position (there ▸ last)
  rw [Location.walk_eq_position] at place
  rw [Location.walk_eq_position]
  refine ⟨?_, ?_, Location.isLE_compare_self _, ?_⟩
  · rw [place]
    exact (Location.compare_position first).1
  · rw [place, there]
    exact later.1
  · intro tracked
    rw [place, there]
    refine later.2 some_text ?_
    rw [← Location.walk_eq_position, Location.hasColumn_walk]
    exact tracked

namespace State

variable {options : Options} {extent : Extent} {ended : Bool} {origin : Location}
  {text rest left : List Char} {state : State} {error : LexicalError}

/-- A fault of layout ends on its own line, which comes before the line of the closing quotes. -/
theorem Reached.layout_range (reached : Reached options extent ended origin text state rest)
    {width : Nat} {finish : Location}
    (step : state.move options ended rest = .reject width error finish) :
    ∃ read, text = read ++ rest.drop width ∧
      (Countable origin read → ErrorRange origin read error finish) := by
  obtain ⟨before, lexeme, amid, split⟩ := reached.amid
  obtain ⟨draft, fault, mode, faulty⟩ := reached.atFault_of_reject step
  obtain ⟨location, tokens, checking, _⟩ := state
  obtain rfl : _ = Mode.tripleQuoted draft := mode
  obtain ⟨rfl, made⟩ := amid.holds
  have moved : draft.move location rest ended = .reject width error finish := step
  rcases TripleQuotedDraft.move_of_atFault location ended made amid.columns faulty with
    waits | rejects
  · rw [waits] at moved
    cases moved
  rw [rejects] at moved
  obtain ⟨rfl, rfl, rfl⟩ := Move.reject.inj moved
  have behind := TripleQuotedDraft.lineBreak_behind_fault made faulty
  have width := Layout.width_fault_pos faulty.2.2.2
  have place : draft.locate fault.offset =
      origin.position (before ++ draft.lexeme.source.toList.take fault.offset) := by
    rw [TripleQuotedDraft.locate, amid.start, ← Location.walk_append, Location.walk_eq_position]
  refine ⟨before ++ (draft.lexeme.source.toList ++ rest.take draft.quotes), ?_, ?_⟩
  · rw [List.append_assoc, List.append_assoc, List.take_append_drop]
    exact split
  · intro countable
    have last := countable _ (List.prefix_refl _)
    have first := countable (before ++ draft.lexeme.source.toList.take fault.offset)
      ((List.prefix_append_right_inj before).mpr
        ((List.take_prefix _ _).trans (List.prefix_append _ _)))
    have shifted := Location.compare_shift (place ▸ first) width
    have lines := origin.toInt_line_position
      (before ++ (draft.lexeme.source.toList ++ rest.take draft.quotes))
    have lines_before := origin.line_walk_le
      (before ++ draft.lexeme.source.toList.take fault.offset)
    have more : 0 < (draft.lexeme.source.toList.drop fault.offset).count '\n' :=
      List.count_pos_iff.mpr behind
    have source := congrArg (List.count '\n') (List.take_append_drop fault.offset
      draft.lexeme.source.toList)
    have bound := last.line
    refine ⟨?_, shifted.1, ?_, ?_⟩
    · simp only [place]
      exact (Location.compare_position first).1
    · have earlier : ((draft.locate fault.offset).shift fault.width).compare (origin.position
          (before ++ (draft.lexeme.source.toList ++ rest.take draft.quotes))) = .lt := by
        apply Location.compare_of_line_lt
        rw [Location.line_shift, place, ← Location.walk_eq_position]
        simp only [List.count_append] at lines lines_before source
        omega
      rw [earlier]
      rfl
    · intro tracked
      refine shifted.2 ?_
      rw [place, ← Location.walk_eq_position, Location.hasColumn_walk]
      exact tracked

theorem range_of_stopped {finish : Location}
    (stops : (fresh origin).run options extent ended text = .stopped (.error error finish) left) :
    ∃ read, text = read ++ left ∧
      (Countable origin read → ErrorRange origin read error finish) := by
  obtain ⟨last, rest, width, reached, rfl, ⟨step, rfl⟩ | step⟩ := Reached.start.exists_error stops
  · obtain ⟨before, lexeme, amid, split, introduced⟩ := reached.introduced
    have within := amid.within reached.begun introduced step
    have here : last.location.walk (rest.take width) =
        origin.walk (before ++ (lexeme.source.toList ++ rest.take width)) := by
      rw [amid.here, amid.start, Location.walk_append, Location.walk_append]
    refine ⟨before ++ (lexeme.source.toList ++ rest.take width), ?_, ?_⟩
    · rw [List.append_assoc, List.append_assoc, List.take_append_drop]
      exact split
    · intro countable
      rw [here]
      exact within.range countable
  · exact reached.layout_range step

end State

/-- **Errors lie within the text.** Whatever the chunks that a scan was fed in, if it finishes
with an error while lines and columns can be counted, then the error does not come before the
start of the scan, nor the end of its text before the error, nor what the scan has read ends
before that. With columns the error comes before the end of its text. -/
theorem Suspension.Fed.error_range {options : Options} {origin : Location} {fed : List Char}
    {scan : Suspension} (given : Fed options origin fed scan) {input : Input}
    {error : LexicalError} {finish : Location} {rest : Option (List Char)}
    (finished : scan.resume input = .finished (.error error finish) rest) :
    ∃ read, fed ++ input.text = read ++ rest.getD [] ∧
      (Countable origin read → ErrorRange origin read error finish) :=
  State.range_of_stopped (given.stops finished)

/-- A string with a line that is not indented: the error ends on the second line, and the scan in
the third. -/
theorem Suspension.error_range_of_bad_indentation :
    ∃ scan, Fed default ⟨1, some 1⟩ ['"', '"', '"', '\n', 'x', '\n', ' '] scan ∧
      scan.resume (.chunk [' ', '"', '"', '"', '.']) =
        .finished (.error ⟨⟨2, some 1⟩, .indentation⟩ ⟨2, some 2⟩) (some ['.']) ∧
      ErrorRange ⟨1, some 1⟩ ['"', '"', '"', '\n', 'x', '\n', ' ', ' ', '"', '"', '"']
        ⟨⟨2, some 1⟩, .indentation⟩ ⟨2, some 2⟩ := by
  let draft : TripleQuotedDraft :=
    ⟨⟨⟨1, some 1⟩, "\"\"\"\nx\n "⟩, 3, none, "", some ⟨#[⟨2, "x\n"⟩], 3, " ", true, by decide⟩⟩
  have waits : (State.fresh ⟨1, some 1⟩).run default .form false
      ['"', '"', '"', '\n', 'x', '\n', ' '] =
        .suspended ⟨⟨3, some 2⟩, #[], false, .tripleQuoted draft⟩ [] := by decide +kernel
  have stops : State.run default .form false ⟨⟨3, some 2⟩, #[], false, .tripleQuoted draft⟩
      [' ', '"', '"', '"', '.'] =
        .stopped (.error ⟨⟨2, some 1⟩, .indentation⟩ ⟨2, some 2⟩) ['.'] := by decide +kernel
  have given := Fed.of_run waits
  have finished := finished_of_run ⟨default, _, []⟩ [' ', '"', '"', '"', '.'] stops
  obtain ⟨read, split, range⟩ := given.error_range finished
  have all : ['"', '"', '"', '\n', 'x', '\n', ' ', ' ', '"', '"', '"'] = read :=
    (List.append_left_inj ['.']).mp split
  subst all
  refine ⟨_, given, finished, range (countable_of_short (by decide) ?_)⟩
  intro c column
  obtain rfl := Option.some.inj column
  decide

end ErlangLexer
