import ErlangLexer.Proofs.Beginnings
import ErlangLexer.Proofs.OffsetMoves
import ErlangLexer.Proofs.Resumption

/-!
# Scans by byte offsets

A scan can know its place in a buffer by an offset into the bytes of it. It goes on by turns: it
passes over one character of a run, it reads the slice of a run that is over, or it makes a move.
A slice or a character that is not there would leave it without a turn.

* `OffsetScan`, `OffsetScan.turn?`: such a scan, and its next turn;
* `OffsetScan.Stands`: the offsets of a scan that stands between characters;
* `OffsetScan.Stands.turn?_follows`: there it has a turn, and stands between characters behind it;
* `OffsetScan.Stands.halts`, `OffsetScan.Halts.agrees`: so it comes to a halt, the one of the run.
-/

namespace ErlangLexer

open CommandLine (bytes bytes_append)

/-! ## Runs that are read at once -/

/-- The name with some more characters. -/
def NameDraft.extend (draft : NameDraft) (run : List Char) : NameDraft :=
  { draft with name := run.foldl String.push draft.name }

/-- The quoted text with some more characters that stand for themselves. -/
def QuotedDraft.extend (draft : QuotedDraft) (run : List Char) : QuotedDraft :=
  { draft with
    lexeme := ⟨draft.lexeme.start, run.foldl String.push draft.lexeme.source⟩
    value := run.foldl String.push draft.value }

namespace Mode

/-- The characters that a mode passes over before it reads all of them at once. -/
def passes : Mode → Char → Bool
  | .name _ => continuesName
  | .quoted draft => draft.goesOn
  | _ => fun _ => false

/-- The mode when it has read some of them. -/
def extend (run : List Char) : Mode → Mode
  | .name draft => .name (draft.extend run)
  | .quoted draft => .quoted (draft.extend run)
  | mode => mode

variable (mode : Mode)

@[simp] theorem passes_extend (run : List Char) : (mode.extend run).passes = mode.passes := by
  cases mode <;> rfl

@[simp] theorem rank_extend (run : List Char) : (mode.extend run).rank = mode.rank := by
  cases mode <;> rfl

@[simp] theorem extend_nil : mode.extend [] = mode := by
  cases mode <;> rfl

theorem extend_extend (run more : List Char) :
    (mode.extend run).extend more = mode.extend (run ++ more) := by
  cases mode <;> simp [extend, NameDraft.extend, QuotedDraft.extend, List.foldl_append]

theorem ne_lineBreak_of_passes {mode : Mode} {c : Char} (passes : mode.passes c = true) :
    c ≠ '\n' := by
  rintro rfl
  cases mode with
  | quoted draft => simp [Mode.passes, QuotedDraft.goesOn] at passes
  | name draft => exact absurd (show continuesName '\n' = true from passes) (by decide)
  | _ => cases passes

end Mode

theorem Comment.move_behind {rest : List Char} (stops : ∀ c ∈ rest.head?, skips c = false)
    (ended : Bool) :
    move rest ended = if !ended && rest.isEmpty then .wait else .read 0 .between := by
  cases rest with
  | nil => cases ended <;> rfl
  | cons c rest => simp [move, stops c rfl]

theorem NameDraft.move_behind {rest : List Char} (stops : ∀ c ∈ rest.head?, continuesName c = false)
    (options : Options) (draft : NameDraft) (ended : Bool) :
    draft.move options rest ended =
      if !ended && rest.isEmpty then .wait else draft.complete options := by
  cases rest with
  | nil => cases ended <;> rfl
  | cons c rest => simp [move, stops c rfl]

namespace State

variable {options : Options} {extent : Extent} {ended : Bool}

/-- Behind a run of characters that the mode passes over. -/
def behindRun (state : State) (run : List Char) : State :=
  { state with location := state.location.walk run, mode := state.mode.extend run }

theorem move_of_passes (state : State) (options : Options) (ended : Bool) {c : Char}
    (passes : state.mode.passes c = true) (rest : List Char) :
    state.move options ended (c :: rest) = .read 1 (state.mode.extend [c]) := by
  obtain ⟨location, tokens, checking, mode⟩ := state
  cases mode with
  | name draft => exact if_pos passes
  | quoted draft =>
    simp only [Mode.passes, QuotedDraft.goesOn, Bool.not_or, Bool.and_eq_true, Bool.not_eq_true',
      decide_eq_false_iff_not, Bool.not_not] at passes
    obtain ⟨⟨⟨open_end, -⟩, plain⟩, text⟩ := passes
    simp only [move, QuotedDraft.move, open_end, plain, text, Bool.false_eq_true, ↓reduceIte]
    rfl
  | _ => cases passes

theorem run_of_passes {state : State} {run : List Char}
    (passes : ∀ c ∈ run, state.mode.passes c = true) (rest : List Char) :
    state.run options extent ended (run ++ rest) =
      (state.behindRun run).run options extent ended rest := by
  induction run generalizing state with
  | nil => simp [behindRun]
  | cons c run ih =>
    obtain ⟨here, later⟩ := List.forall_mem_cons.mp passes
    rw [List.cons_append, run_eq, state.move_of_passes options ended here]
    have reads : (state.read (c :: (run ++ rest)) 1 (state.mode.extend [c])).behindRun run =
        state.behindRun (c :: run) := by
      simp only [behindRun, read, Mode.extend_extend]
      rfl
    rw [← reads]
    exact ih (by simpa [read] using later)

theorem read_take (state : State) (text : List Char) (width : Nat) (next : Mode) :
    state.read (text.take width) width next = state.read text width next := by
  simp only [read, List.take_take, Nat.min_self]

end State

/-! ## Turns -/

/-- A saved position, and how many characters have been passed since. -/
structure Saved where
  start : Nat
  count : Nat
  deriving DecidableEq

/-- A scan of a buffer by byte offsets. With `ended` no more text will come. -/
structure OffsetScan where
  ended : Bool
  state : State
  cursor : Cursor
  /-- Within a run of characters that is to be read at once, where it starts. -/
  saved? : Option Saved

/-- What one turn comes to. -/
inductive Turn where
  | next (scan : OffsetScan)
  | suspend (state : State) (cursor : Cursor)
  | stop (outcome : Outcome) (cursor : Cursor)

namespace Turn

def cursor : Turn → Cursor
  | .next scan => scan.cursor
  | .suspend _ cursor | .stop _ cursor => cursor

/-- The halt, if it is one, with the slice of the text behind it. -/
def halt? : Turn → Option Halt
  | .next _ => none
  | .suspend state cursor => cursor.rest?.map (.suspended state)
  | .stop outcome cursor => cursor.rest?.map (.stopped outcome)

end Turn

namespace OffsetScan

/-- A scan of a new buffer. -/
def ofText (ended : Bool) (state : State) (text : List Char) : OffsetScan :=
  ⟨ended, state, ⟨text, 0⟩, none⟩

/-- The saved position. A run that is not begun would start here. -/
def saved (scan : OffsetScan) : Saved :=
  scan.saved?.getD ⟨scan.cursor.position, 0⟩

/-- Go on behind a move that has been made. -/
def make (options : Options) (extent : Extent) (scan : OffsetScan) (passage : Passage) : Turn :=
  let ⟨move, passed, behind⟩ := passage
  match move with
  | .wait => .suspend scan.state behind
  | .finish => .stop scan.state.outcome behind
  | .read width next => .next ⟨scan.ended, scan.state.read passed width next, behind, none⟩
  | .emit width kind lexeme next =>
    let state := (scan.state.record options kind lexeme).read passed width next
    if kind = .dot ∧ extent = .form then .stop state.outcome behind
    else .next ⟨scan.ended, state, behind, none⟩
  | .fail _ error => .stop (.error error (scan.state.location.walk passed)) behind
  | .reject _ error finish => .stop (.error error finish) behind

/-- Go on behind a move, if it can be made. -/
def go (options : Options) (extent : Extent) (scan : OffsetScan) (passage? : Option Passage) :
    Option Turn :=
  passage?.map (scan.make options extent)

/-- In another mode, with nothing passed. -/
def enter (scan : OffsetScan) (mode : Mode) : OffsetScan :=
  ⟨scan.ended, { scan.state with mode := mode }, scan.cursor, none⟩

/-- Pass over one more character of a run. -/
def passOne? (scan : OffsetScan) : Option OffsetScan := do
  let (_, behind) ← scan.cursor.pass? 1
  let saved := scan.saved
  return ⟨scan.ended, scan.state, behind, some ⟨saved.start, saved.count + 1⟩⟩

/-- The run that has been passed is read. -/
def readRun (scan : OffsetScan) (run : List Char) : OffsetScan :=
  let state := scan.state
  ⟨scan.ended,
    { state with
      location := state.location.shift scan.saved.count
      mode := state.mode.extend run },
    scan.cursor, none⟩

/-- The move behind a run, unless it may go on. -/
def orWait (scan : OffsetScan) (move : Move) : Move :=
  if !scan.ended && scan.cursor.atEnd then .wait else move

/-- Within a run: pass over one more character of it, or slice it off and read it. -/
def run? (options : Options) (extent : Extent) (scan : OffsetScan)
    (behind : OffsetScan → List Char → Option Passage) : Option Turn := do
  let next ← scan.cursor.current?
  if next.any scan.state.mode.passes then scan.passOne?.map .next
  else
    let run ← scan.cursor.since? scan.saved.start
    (scan.readRun run).go options extent (behind (scan.readRun run) run)

/-- Within a comment. -/
def comment? (search : ByteSearch) (options : Options) (extent : Extent) (scan : OffsetScan) :
    Option Turn := do
  let (behind, skipped) ← scan.cursor.skipComment? search
  let state := scan.state
  let scan : OffsetScan :=
    ⟨scan.ended, { state with location := state.location.shift skipped }, behind, none⟩
  scan.go options extent (scan.cursor.make? (scan.orWait (.read 0 .between)))

/-- Between tokens. -/
def between? (search : ByteSearch) (options : Options) (extent : Extent) (scan : OffsetScan) :
    Option Turn := do
  let ⟨ended, state, cursor, _⟩ := scan
  let here := state.location
  match ← cursor.current? with
  | none => scan.go options extent (cursor.make? (if ended then .finish else .wait))
  | some c =>
    if isBlank c then scan.go options extent (cursor.make? (.read 1 .between))
    else if isDigit c then
      scan.go options extent (cursor.make? (.read 1 (.number (.ofDigit here c))))
    else if isLower c then
      (scan.enter (.name ⟨here, .atom, ""⟩)).passOne?.map .next
    else if startsVariable c then
      (scan.enter (.name ⟨here, .variable, ""⟩)).passOne?.map .next
    else if c = '"' then scan.go options extent (QuoteRun.readAt? here none cursor ended)
    else if c = '\'' then scan.go options extent (QuotedDraft.openAt? here .atom c cursor)
    else if c = '$' then scan.go options extent (CharLiteral.readAt? here cursor ended)
    else if c = '~' then
      scan.go options extent (cursor.make? (.read 1 (.name ⟨here, .sigilPrefix, ""⟩)))
    else if c = '%' then
      match ← Comment.markerAt? options state.checking here cursor ended with
      | some passage => return scan.make options extent passage
      | none => (scan.enter .comment).comment? search options extent
    else scan.go options extent (Punctuation.readAt? state.checking here c cursor ended)

/-- The next turn, if every slice and every character that it asks for is there. -/
def turn? (search : ByteSearch) (options : Options) (extent : Extent) (scan : OffsetScan) :
    Option Turn :=
  let ⟨ended, state, cursor, _⟩ := scan
  match state.mode with
  | .between => scan.between? search options extent
  | .comment => scan.comment? search options extent
  | .name draft => scan.run? options extent fun scan run =>
    scan.cursor.make? (scan.orWait ((draft.extend run).complete options))
  | .number draft => scan.go options extent (draft.readAt? cursor ended)
  | .quoted draft => scan.run? options extent fun scan run =>
    (draft.extend run).readAt? scan.state.location scan.cursor scan.ended
  | .afterString => scan.go options extent (AfterString.readAt? state.location cursor ended)
  | .sigil sigil => scan.go options extent (sigil.readAt? state.location cursor ended)
  | .tripleQuoted draft => scan.go options extent (draft.readAt? state.location cursor ended)

/-- The turns of a scan come to a halt. -/
inductive Halts (search : ByteSearch) (options : Options) (extent : Extent) :
    OffsetScan → Turn → Prop where
  | suspend {scan : OffsetScan} {state : State} {cursor : Cursor}
      (turn : scan.turn? search options extent = some (.suspend state cursor)) :
      Halts search options extent scan (.suspend state cursor)
  | stop {scan : OffsetScan} {outcome : Outcome} {cursor : Cursor}
      (turn : scan.turn? search options extent = some (.stop outcome cursor)) :
      Halts search options extent scan (.stop outcome cursor)
  | next {scan later : OffsetScan} {halt : Turn}
      (turn : scan.turn? search options extent = some (.next later))
      (halts : Halts search options extent later halt) : Halts search options extent scan halt

/-! ## Scans between characters -/

/-- The offsets of a scan are between characters: some are in front of the saved position, some
have been passed since, which its mode passes over, and the others are still ahead. -/
structure Stands (scan : OffsetScan) (front run rest : List Char) : Prop where
  cursor : scan.cursor = .between (front ++ run) rest
  saved : scan.saved = ⟨bytes front, run.length⟩
  passes : ∀ c ∈ run, scan.state.mode.passes c = true

theorem stands_of_cursor (ended : Bool) (state : State) (front rest : List Char) :
    Stands ⟨ended, state, .between front rest, none⟩ front [] rest :=
  ⟨congrArg (Cursor.between · rest) (List.append_nil front).symm, rfl,
    fun _ listed => absurd listed List.not_mem_nil⟩

theorem stands_enter {scan : OffsetScan} {front rest : List Char}
    (cursor : scan.cursor = .between front rest) (mode : Mode) :
    (scan.enter mode).Stands front [] rest := by
  rw [enter, cursor]
  exact stands_of_cursor ..

theorem stands_ofText (ended : Bool) (state : State) (text : List Char) :
    (ofText ended state text).Stands [] [] text :=
  stands_of_cursor ended state [] text

end OffsetScan

/-- Where a turn may go from a place in a text, on the way to a halt: to a later place, from which
a run comes to the same halt and less is left to be done, or to the halt itself. -/
inductive Turn.Follows (options : Options) (extent : Extent) (ended : Bool)
    (behind rest : List Char) (halt : Halt) (potential : Nat) : Turn → Prop where
  | next {later : OffsetScan} {front run left : List Char} (passed : List Char)
      (stands : later.Stands front run left) (text : rest = passed ++ left)
      (place : front ++ run = behind ++ passed) (same : later.ended = ended)
      (agrees : later.state.run options extent ended (run ++ left) = halt)
      (less : later.state.potential left < potential) :
      Follows options extent ended behind rest halt potential (.next later)
  | suspend {state : State} (passed left : List Char) (text : rest = passed ++ left)
      (agrees : halt = .suspended state left) :
      Follows options extent ended behind rest halt potential
        (.suspend state (.between (behind ++ passed) left))
  | stop {outcome : Outcome} (passed left : List Char) (text : rest = passed ++ left)
      (agrees : halt = .stopped outcome left) :
      Follows options extent ended behind rest halt potential
        (.stop outcome (.between (behind ++ passed) left))

/-- What follows from a later place, with no more left to be done, follows from an earlier one. -/
theorem Turn.Follows.of_later {options : Options} {extent : Extent} {ended : Bool}
    {behind passed rest : List Char} {halt : Halt} {potential more : Nat} {turn : Turn}
    (follows : turn.Follows options extent ended (behind ++ passed) rest halt potential)
    (le : potential ≤ more) :
    turn.Follows options extent ended behind (passed ++ rest) halt more := by
  cases follows with
  | next further stands text place same agrees less =>
    subst text
    refine .next (passed ++ further) stands (List.append_assoc ..).symm ?_ same agrees ?_
    · rw [place, List.append_assoc]
    · exact Nat.lt_of_lt_of_le less le
  | suspend further left text agrees =>
    subst text
    rw [List.append_assoc behind]
    exact .suspend (passed ++ further) left (List.append_assoc ..).symm agrees
  | stop further left text agrees =>
    subst text
    rw [List.append_assoc behind]
    exact .stop (passed ++ further) left (List.append_assoc ..).symm agrees

theorem Turn.Follows.between {options : Options} {extent : Extent} {ended : Bool}
    {behind rest : List Char} {halt : Halt} {potential : Nat} {turn : Turn}
    (follows : turn.Follows options extent ended behind rest halt potential) :
    ∃ passed left, rest = passed ++ left ∧ turn.cursor = .between (behind ++ passed) left := by
  cases follows with
  | next passed later text place same agrees less =>
    refine ⟨passed, _, text, ?_⟩
    rw [Turn.cursor, later.cursor, place]
  | suspend passed left text agrees => exact ⟨passed, left, text, rfl⟩
  | stop passed left text agrees => exact ⟨passed, left, text, rfl⟩

/-- A turn that halts comes to the halt, and the text behind it can be sliced off. -/
theorem Turn.Follows.halt?_eq {options : Options} {extent : Extent} {ended : Bool}
    {behind rest : List Char} {halt : Halt} {potential : Nat} {turn : Turn}
    (follows : turn.Follows options extent ended behind rest halt potential)
    (halts : ∀ later, turn ≠ .next later) : turn.halt? = some halt := by
  cases follows with
  | next => exact absurd rfl (halts _)
  | suspend passed left text agrees =>
    rw [Turn.halt?, Cursor.rest?_between, agrees]
    rfl
  | stop passed left text agrees =>
    rw [Turn.halt?, Cursor.rest?_between, agrees]
    rfl

namespace OffsetScan

variable {search : ByteSearch} {options : Options} {extent : Extent} {scan : OffsetScan}
  {front run rest : List Char}

theorem make_follows (scan : OffsetScan) (front rest : List Char) :
    (scan.make options extent (.of front rest (scan.state.move options scan.ended rest))).Follows
      options extent scan.ended front rest (scan.state.run options extent scan.ended rest)
      (scan.state.potential rest) := by
  have fits := scan.state.move_fits options scan.ended rest
  rw [State.run_eq]
  generalize scan.state.move options scan.ended rest = move at fits
  have behind (width : Nat) : rest = rest.take width ++ rest.drop width :=
    (List.take_append_drop width rest).symm
  cases move with
  | wait => exact .suspend [] rest rfl rfl
  | finish => exact .stop [] rest rfl rfl
  | read width next =>
    simp only [make, Passage.of, Move.width, State.read_take]
    exact .next _ (stands_of_cursor ..) (behind width) (List.append_nil _) rfl rfl
      (State.potential_read_lt fits)
  | emit width kind lexeme next =>
    simp only [make, Passage.of, Move.width, State.read_take]
    split
    · exact .stop _ _ (behind width) rfl
    · exact .next _ (stands_of_cursor ..) (behind width) (List.append_nil _) rfl rfl
        (State.potential_read_lt fits)
  | fail width error => exact .stop _ _ (behind width) rfl
  | reject width error finish => exact .stop _ _ (behind width) rfl

theorem go_follows (extent : Extent) {passage? : Option Passage}
    (makes : passage? = some (.of front rest (scan.state.move options scan.ended rest))) :
    ∃ turn, scan.go options extent passage? = some turn ∧
      turn.Follows options extent scan.ended front rest
        (scan.state.run options extent scan.ended rest) (scan.state.potential rest) := by
  subst makes
  exact ⟨_, rfl, scan.make_follows front rest⟩

theorem orWait_between (ended : Bool) (state : State) (front rest : List Char)
    (saved? : Option Saved) (move : Move) :
    orWait ⟨ended, state, .between front rest, saved?⟩ move =
      if !ended && rest.isEmpty then .wait else move := by
  rw [orWait, Cursor.atEnd_between]

/-! ## Turns within a run -/

theorem Stands.passOne? {c : Char} (stands : scan.Stands front run (c :: rest))
    (passes : scan.state.mode.passes c = true) :
    ∃ later, scan.passOne? = some later ∧ later.Stands front (run ++ [c]) rest ∧
      later.state = scan.state ∧ later.ended = scan.ended := by
  refine ⟨⟨scan.ended, scan.state, .between (front ++ (run ++ [c])) rest,
    some ⟨bytes front, (run ++ [c]).length⟩⟩, ?_, ⟨rfl, rfl, ?_⟩, rfl, rfl⟩
  · simp only [OffsetScan.passOne?, stands.cursor, stands.saved, Cursor.pass?_between,
      List.take_succ_cons, List.take_zero, List.drop_succ_cons, List.drop_zero, List.append_assoc,
      Option.bind_eq_bind, Option.bind_some, Option.pure_def, List.length_append,
      List.length_singleton]
  · intro d listed
    rcases List.mem_append.mp listed with before | last
    · exact stands.passes d before
    · rw [List.mem_singleton.mp last]
      exact passes

theorem Stands.follows_passOne? {c : Char} (stands : scan.Stands front run (c :: rest))
    (extent : Extent) (passes : scan.state.mode.passes c = true) {halt : Halt} {potential : Nat}
    (agrees : scan.state.run options extent scan.ended (run ++ c :: rest) = halt)
    (less : scan.state.potential rest < potential) :
    ∃ later, scan.passOne? = some later ∧
      (Turn.next later).Follows options extent scan.ended (front ++ run) (c :: rest) halt
        potential := by
  obtain ⟨later, passed, stands_later, state, same⟩ := stands.passOne? passes
  refine ⟨later, passed, .next [c] stands_later rfl (List.append_assoc ..).symm same ?_ ?_⟩
  · rw [state, ← agrees, List.append_assoc]
    rfl
  · rw [state]
    exact less

theorem Stands.readRun (stands : scan.Stands front run rest) :
    (scan.readRun run).state = scan.state.behindRun run := by
  have inline : '\n' ∉ run := fun listed =>
    absurd rfl (Mode.ne_lineBreak_of_passes (stands.passes _ listed))
  simp only [OffsetScan.readRun, State.behindRun, stands.saved,
    scan.state.location.walk_inline inline]

theorem Stands.run?_follows {behind : OffsetScan → List Char → Option Passage}
    (stands : scan.Stands front run rest)
    (makes : (∀ c ∈ rest.head?, scan.state.mode.passes c = false) →
      behind (scan.readRun run) run = some (.of (front ++ run) rest
        ((scan.readRun run).state.move options scan.ended rest))) :
    ∃ turn, scan.run? options extent behind = some turn ∧
      turn.Follows options extent scan.ended (front ++ run) rest
        (scan.state.run options extent scan.ended (run ++ rest)) (scan.state.potential rest) := by
  simp only [run?, stands.cursor, stands.saved, Cursor.current?_between, Cursor.since?_between,
    Option.bind_eq_bind, Option.bind_some]
  by_cases goes_on : rest.head?.any scan.state.mode.passes = true
  · obtain ⟨c, left, rfl⟩ : ∃ c left, rest = c :: left := by
      cases rest with
      | nil => cases goes_on
      | cons c left => exact ⟨c, left, rfl⟩
    have less : scan.state.potential left < scan.state.potential (c :: left) := by
      simp only [State.potential, List.length_cons]
      omega
    obtain ⟨later, passed, follows⟩ := stands.follows_passOne? extent goes_on rfl less
    refine ⟨.next later, ?_, follows⟩
    rw [if_pos goes_on, passed]
    rfl
  · have stops : ∀ c ∈ rest.head?, scan.state.mode.passes c = false := by
      intro c head
      rw [Option.mem_def.mp head] at goes_on
      exact Bool.eq_false_iff.mpr goes_on
    obtain ⟨turn, goes, follows⟩ := go_follows extent (makes stops)
    refine ⟨turn, by simpa [goes_on] using goes, ?_⟩
    rw [State.run_of_passes stands.passes, ← stands.readRun]
    have same : (scan.readRun run).state.potential rest = scan.state.potential rest := by
      simp only [State.potential, OffsetScan.readRun, Mode.rank_extend]
    exact same ▸ follows

/-! ## Turns in every mode -/

theorem comment?_follows (search : ByteSearch) (options : Options) (extent : Extent)
    {scan : OffsetScan} (cursor : scan.cursor = .between front rest)
    (mode : scan.state.mode = .comment) :
    ∃ turn, scan.comment? search options extent = some turn ∧
      turn.Follows options extent scan.ended (front ++ rest.takeWhile Comment.skips)
        (rest.dropWhile Comment.skips) (scan.state.run options extent scan.ended rest)
        (3 * (rest.dropWhile Comment.skips).length + 1) := by
  have skipped : ∀ c ∈ rest.takeWhile Comment.skips, Comment.skips c = true :=
    fun c listed => List.mem_takeWhile_imp listed
  have runs : scan.state.run options extent scan.ended rest =
      (scan.state.commenting (rest.takeWhile Comment.skips)).run options extent scan.ended
        (rest.dropWhile Comment.skips) := by
    rw [← State.run_comment options mode skipped, List.takeWhile_append_dropWhile]
  have inline : '\n' ∉ rest.takeWhile Comment.skips := fun listed =>
    absurd (skipped _ listed) (by decide)
  obtain ⟨ended, ⟨location, tokens, checking, _⟩, _, saved?⟩ := scan
  obtain rfl : _ = Mode.comment := mode
  obtain rfl : _ = Cursor.between front rest := cursor
  simp only [comment?, Cursor.skipComment?_between, Option.bind_eq_bind, Option.bind_some,
    Cursor.make?_between, runs, ← location.walk_inline inline]
  have stops : ∀ c ∈ (rest.dropWhile Comment.skips).head?, Comment.skips c = false := by
    intro c head
    have := List.head?_dropWhile_not Comment.skips rest
    rwa [Option.mem_def.mp head] at this
  rw [orWait_between, ← Comment.move_behind stops]
  exact go_follows extent rfl

/-- What a turn between tokens does in front of a character, for what a scan does: it makes the
move, or it begins a name or a comment with the character. -/
inductive Begins (search : ByteSearch) (options : Options) (extent : Extent) (scan : OffsetScan)
    (front : List Char) (c : Char) (rest : List Char) : Move → Option Turn → Prop where
  | move (move : Move) : Begins search options extent scan front c rest move
      (scan.go options extent (some (.of front (c :: rest) move)))
  | name (role : NameRole) (continues : continuesName c = true) :
      Begins search options extent scan front c rest
        (.read 1 (.name ⟨scan.state.location, role, c.toString⟩))
        ((scan.enter (.name ⟨scan.state.location, role, ""⟩)).passOne?.map .next)
  | comment (percent : c = '%') : Begins search options extent scan front c rest (.read 1 .comment)
      ((scan.enter .comment).comment? search options extent)

theorem begins (search : ByteSearch) (options : Options) (extent : Extent) (ended : Bool)
    (state : State) (saved? : Option Saved) (front : List Char) (c : Char) (rest : List Char) :
    Begins search options extent ⟨ended, state, .between front (c :: rest), saved?⟩ front c rest
      (Between.move options state.checking state.location (c :: rest) ended)
      (between? search options extent ⟨ended, state, .between front (c :: rest), saved?⟩) := by
  simp only [between?, Between.move, Cursor.current?_between, Cursor.make?_between,
    List.head?_cons, Option.bind_eq_bind, Option.bind_some, QuotedDraft.openAt?_between,
    Punctuation.readAt?_between]
  by_cases blank : isBlank c = true
  · rw [if_pos blank, if_pos blank]
    exact .move _
  rw [if_neg blank, if_neg blank]
  by_cases digit : isDigit c = true
  · rw [if_pos digit, if_pos digit]
    exact .move _
  rw [if_neg digit, if_neg digit]
  by_cases lower : isLower c = true
  · rw [if_pos lower, if_pos lower]
    exact .name .atom (continuesName_of_isLower lower)
  rw [if_neg lower, if_neg lower]
  by_cases starts : startsVariable c = true
  · rw [if_pos starts, if_pos starts]
    exact .name .variable (continuesName_of_startsVariable starts)
  rw [if_neg starts, if_neg starts]
  by_cases double : c = '"'
  · subst double
    rw [if_pos rfl, if_pos rfl, QuoteRun.readAt?_between]
    exact .move _
  rw [if_neg double, if_neg double]
  by_cases quote : c = '\''
  · rw [if_pos quote, if_pos quote]
    exact .move _
  rw [if_neg quote, if_neg quote]
  by_cases dollar : c = '$'
  · subst dollar
    rw [if_pos rfl, if_pos rfl, CharLiteral.readAt?_between]
    exact .move _
  rw [if_neg dollar, if_neg dollar]
  by_cases tilde : c = '~'
  · rw [if_pos tilde, if_pos tilde]
    exact .move _
  rw [if_neg tilde, if_neg tilde]
  by_cases percent : c = '%'
  · rw [if_pos percent, if_pos percent]
    rcases Comment.markerAt?_between options state.checking state.location front (c :: rest)
      ended with marked | ⟨unmarked, opens⟩
    · rw [marked]
      exact .move _
    · rw [unmarked, opens]
      exact .comment percent
  rw [if_neg percent, if_neg percent]
  exact .move _

/-- To enter a mode and read a character there is what the move does that reads it at once. -/
theorem run_enter (scan : OffsetScan) (extent : Extent) {mode next : Mode} {c : Char}
    (reads : (scan.enter mode).state.move options scan.ended (c :: rest) = .read 1 next)
    (made : scan.state.move options scan.ended (c :: rest) = .read 1 next) :
    (scan.enter mode).state.run options extent scan.ended (c :: rest) =
      scan.state.run options extent scan.ended (c :: rest) := by
  rw [State.run_eq, reads, State.run_eq, made]
  rfl

theorem Begins.follows {c : Char} {move : Move} {turn? : Option Turn}
    (begins : Begins search options extent scan front c rest move turn?)
    (cursor : scan.cursor = .between front (c :: rest)) (mode : scan.state.mode = .between)
    (made : scan.state.move options scan.ended (c :: rest) = move) :
    ∃ turn, turn? = some turn ∧ turn.Follows options extent scan.ended front (c :: rest)
      (scan.state.run options extent scan.ended (c :: rest))
      (scan.state.potential (c :: rest)) := by
  have potential : scan.state.potential (c :: rest) = 3 * rest.length + 3 := by
    simp only [State.potential, mode, Mode.rank, List.length_cons]
    omega
  cases begins with
  | move =>
    subst made
    exact go_follows extent rfl
  | name role continues =>
    have stands := stands_enter cursor (.name ⟨scan.state.location, role, ""⟩)
    have reads := (scan.enter (.name ⟨scan.state.location, role, ""⟩)).state.move_of_passes
      options scan.ended continues rest
    have less : (scan.enter (.name ⟨scan.state.location, role, ""⟩)).state.potential rest <
        scan.state.potential (c :: rest) := by
      rw [potential]
      exact Nat.lt_succ_self _
    obtain ⟨later, passed, follows⟩ := stands.follows_passOne? extent continues
      (scan.run_enter extent reads made) less
    rw [List.append_nil] at follows
    exact ⟨.next later, by rw [passed]; rfl, follows⟩
  | comment percent =>
    have skips : Comment.skips c = true := percent ▸ rfl
    have entered : (scan.enter .comment).cursor = .between front (c :: rest) := cursor
    obtain ⟨turn, turns, follows⟩ := comment?_follows search options extent entered rfl
    have shorter : (List.dropWhile Comment.skips (c :: rest)).length ≤ rest.length := by
      rw [List.dropWhile_cons_of_pos skips]
      exact (List.dropWhile_suffix _).length_le
    have later := follows.of_later (show _ ≤ scan.state.potential (c :: rest) by omega)
    rw [List.takeWhile_append_dropWhile] at later
    have same : (scan.enter .comment).state.run options extent scan.ended (c :: rest) =
        scan.state.run options extent scan.ended (c :: rest) :=
      scan.run_enter extent (if_pos skips) made
    exact ⟨turn, turns, same ▸ later⟩

theorem between?_follows (cursor : scan.cursor = .between front rest)
    (mode : scan.state.mode = .between) :
    ∃ turn, scan.between? search options extent = some turn ∧
      turn.Follows options extent scan.ended front rest
        (scan.state.run options extent scan.ended rest) (scan.state.potential rest) := by
  obtain ⟨ended, ⟨location, tokens, checking, _⟩, _, saved?⟩ := scan
  obtain rfl : _ = Mode.between := mode
  obtain rfl : _ = Cursor.between front rest := cursor
  cases rest with
  | nil =>
    simp only [between?, Cursor.current?_between, Cursor.make?_between, List.head?_nil,
      Option.bind_eq_bind, Option.bind_some]
    exact go_follows extent rfl
  | cons c rest =>
    have ways := begins search options extent ended ⟨location, tokens, checking, .between⟩ saved?
      front c rest
    exact ways.follows rfl rfl rfl

theorem Stands.eq_nil (stands : scan.Stands front run rest)
    (none : ∀ c, scan.state.mode.passes c = false) : run = [] := by
  refine List.eq_nil_iff_forall_not_mem.mpr fun c listed => ?_
  exact absurd (stands.passes c listed) (Bool.eq_false_iff.mp (none c))

/-- A scan that stands between characters has a next turn, and it leads where the run goes. -/
theorem Stands.turn?_follows (stands : scan.Stands front run rest) (search : ByteSearch)
    (options : Options) (extent : Extent) :
    ∃ turn, scan.turn? search options extent = some turn ∧
      turn.Follows options extent scan.ended (front ++ run) rest
        (scan.state.run options extent scan.ended (run ++ rest)) (scan.state.potential rest) := by
  obtain ⟨ended, ⟨location, tokens, checking, mode⟩, cursor, saved?⟩ := scan
  obtain rfl : cursor = .between (front ++ run) rest := stands.cursor
  cases mode with
  | name draft =>
    simp only [turn?]
    refine stands.run?_follows fun stops => ?_
    simp only [OffsetScan.readRun, Cursor.make?_between, orWait_between,
      ← NameDraft.move_behind stops]
    rfl
  | quoted draft =>
    simp only [turn?]
    refine stands.run?_follows fun stops => ?_
    simp only [OffsetScan.readRun]
    exact (draft.extend run).readAt?_between _ rest _ ended stops
  | comment =>
    obtain rfl := stands.eq_nil fun _ => rfl
    obtain ⟨turn, turns, follows⟩ := comment?_follows search options extent stands.cursor rfl
    refine ⟨turn, turns, ?_⟩
    have shorter := (List.dropWhile_suffix (l := rest) Comment.skips).length_le
    have later := follows.of_later (show _ ≤ 3 * rest.length + 1 by omega)
    rw [List.takeWhile_append_dropWhile] at later
    exact later
  | between =>
    obtain rfl := stands.eq_nil fun _ => rfl
    simp only [turn?]
    exact between?_follows rfl rfl
  | number draft =>
    obtain rfl := stands.eq_nil fun _ => rfl
    exact go_follows extent (draft.readAt?_between _ rest ended)
  | afterString =>
    obtain rfl := stands.eq_nil fun _ => rfl
    exact go_follows extent (AfterString.readAt?_between location _ rest ended)
  | sigil sigil =>
    obtain rfl := stands.eq_nil fun _ => rfl
    exact go_follows extent (sigil.readAt?_between location _ rest ended)
  | tripleQuoted draft =>
    obtain rfl := stands.eq_nil fun _ => rfl
    exact go_follows extent (draft.readAt?_between location _ rest ended)

/-! ## Runs of turns -/

/-- The turns of a scan that stands between characters come to a halt. -/
theorem Stands.halts (stands : scan.Stands front run rest) (search : ByteSearch)
    (options : Options) (extent : Extent) : ∃ halt, Halts search options extent scan halt := by
  induction bound : scan.state.potential rest using Nat.strongRecOn
    generalizing scan front run rest with
  | ind bound ih =>
    obtain ⟨turn, turns, follows⟩ := stands.turn?_follows search options extent
    cases follows with
    | next passed later text place same agrees less =>
      obtain ⟨halt, halts⟩ := ih _ (by omega) later rfl
      exact ⟨halt, .next turns halts⟩
    | suspend passed left text agrees => exact ⟨_, .suspend turns⟩
    | stop passed left text agrees => exact ⟨_, .stop turns⟩

theorem Stands.follows {turn : Turn} (stands : scan.Stands front run rest)
    (turns : scan.turn? search options extent = some turn) :
    turn.Follows options extent scan.ended (front ++ run) rest
      (scan.state.run options extent scan.ended (run ++ rest)) (scan.state.potential rest) := by
  obtain ⟨_, found, follows⟩ := stands.turn?_follows search options extent
  rw [turns] at found
  exact Option.some.inj found ▸ follows

/-- Where they halt, they have passed some more characters and come to what the run comes to. -/
theorem Halts.agrees {halt : Turn} (halts : Halts search options extent scan halt)
    (stands : scan.Stands front run rest) :
    ∃ passed left, rest = passed ++ left ∧
      halt.cursor = .between (front ++ run ++ passed) left ∧
      halt.halt? = some (scan.state.run options extent scan.ended (run ++ rest)) := by
  induction halts generalizing front run rest with
  | suspend turn =>
    obtain ⟨passed, left, text, cursor⟩ := (stands.follows turn).between
    exact ⟨passed, left, text, cursor, (stands.follows turn).halt?_eq (by simp)⟩
  | stop turn =>
    obtain ⟨passed, left, text, cursor⟩ := (stands.follows turn).between
    exact ⟨passed, left, text, cursor, (stands.follows turn).halt?_eq (by simp)⟩
  | next turn halts ih =>
    cases stands.follows turn with
    | next passed later text place same agrees less =>
      obtain ⟨further, left, behind, cursor, halted⟩ := ih later
      refine ⟨passed ++ further, left, ?_, ?_, ?_⟩
      · rw [text, behind, List.append_assoc]
      · rw [cursor, place, List.append_assoc _ passed]
      · rw [halted, same, agrees]

end OffsetScan

end ErlangLexer
