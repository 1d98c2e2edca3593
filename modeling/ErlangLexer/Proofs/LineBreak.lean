import ErlangLexer.Proofs.LineEnd
import ErlangLexer.Proofs.Progress
import ErlangLexer.Proofs.TokenOrder
import ErlangLexer.Proofs.WholeText

/-!
# A line break is a boundary

A text that a scan can be at the end of may as well be followed by the end of a line: the tokens
are the same, and behind the line break the scan is where a new one would start.

* `LineEnd`: a line break, perhaps with a comment in front of it;
* `State.Ends`: a scan that goes on to the end of the text finds no error;
* `State.Sealed`: what it comes to at the end of the text, it comes to at the end of a line;
* `LooseEnd.sealed`: so it is for every text that a scan may wait in front of;
* `line_break_is_boundary`: so the text up to a line break and the text behind it are scanned one
  after the other.
-/

namespace ErlangLexer

/-- What ends a line: a line break, and a comment in front of it if comments are not checked. -/
inductive LineEnd (options : Options) : List Char → Prop where
  | lineBreak : LineEnd options ['\n']
  | comment {body : List Char} (unchecked : options.checkComments = false)
      (line : ∀ c ∈ body, Comment.skips c = true) : LineEnd options ('%' :: (body ++ ['\n']))

/-- The first character of it ends every lexeme that the end of the text ends. -/
theorem LineEnd.cons {options : Options} {border : List Char} (line : LineEnd options border) :
    ∃ c rest, border = c :: rest ∧ Bars c := by
  cases line with
  | lineBreak => exact ⟨_, _, rfl, .inl rfl⟩
  | comment unchecked skipped => exact ⟨_, _, rfl, .inr rfl⟩

/-- Behind the name of a sigil its string is due, behind its suffix no other string may be, and
behind other names there is nothing to look out for. -/
theorem NameDraft.next_cases (draft : NameDraft) :
    draft.next = .between ∨ draft.next = .afterString ∨ ∃ sigil, draft.next = .sigil sigil := by
  unfold next
  split
  · exact .inr (.inr ⟨_, rfl⟩)
  · split
    · exact .inr (.inl rfl)
    · exact .inl rfl
  · exact .inl rfl

namespace State

variable {options : Options} {extent : Extent} {ended : Bool} {border text rest : List Char}
  {state last : State} {n : Nat}

/-! ## Moves -/

namespace Moves

theorem checks (moves : Moves options extent ended n state text last rest)
    (annotations : ChecksInOrder options (kinds state.tokens) state.checking) :
    ChecksInOrder options (kinds last.tokens) last.checking := by
  induction moves with
  | none state text => exact annotations
  | read step later ih => exact ih annotations
  | @emit n state last text rest width kind lexeme next step goes_on later ih =>
    apply ih
    have kept := checks_of_emit annotations step
    rw [← kinds_push state.tokens ⟨kind, lexeme.start, _⟩] at kept
    exact kept

end Moves

/-- The scan goes on to the end of the text, and is between two tokens there. -/
def Ends (options : Options) (state : State) (text : List Char) (last : State) : Prop :=
  ∃ n, Moves options .text true n state text last [] ∧ last.mode = .between

theorem ends_of_stopped {outcome : Outcome} {list : List Token}
    (stops : state.run options .text true text = .stopped outcome rest)
    (found : outcome.tokens? = some list) :
    ∃ last, state.Ends options text last ∧ list = last.tokens.toList ∧
      outcome.finish = last.location := by
  obtain ⟨n, last, left, moves, halts⟩ := state.exists_halt options .text true text
  rw [moves.run_eq, run_eq] at stops
  cases step : last.move options true left with
  | wait =>
    have open_end : true = false := fits_of_move step
    cases open_end
  | finish =>
    rw [step] at stops
    obtain ⟨rfl, -⟩ := Halt.stopped.inj stops
    obtain ⟨rfl, -⟩ := fits_of_move step
    rw [tokens?_outcome] at found
    exact ⟨last, ⟨n, moves, mode_of_finish step⟩, (Option.some.inj found).symm,
      last.finish_outcome⟩
  | read width next =>
    rw [step] at halts
    exact halts.elim
  | emit width kind lexeme next =>
    rw [step] at halts
    cases halts.2
  | fail width error =>
    rw [step] at stops
    obtain ⟨rfl, -⟩ := Halt.stopped.inj stops
    cases found
  | reject width error finish =>
    rw [step] at stops
    obtain ⟨rfl, -⟩ := Halt.stopped.inj stops
    cases found

namespace Ends

variable {width : Nat} {next : Mode}

theorem eq_of_between (ends : state.Ends options [] last) (mode : state.mode = .between) :
    last = state := by
  have finishes : state.move options true [] = .finish := by
    simp only [move, mode]
    rfl
  obtain ⟨n, moves, -⟩ := ends
  cases moves with
  | none => rfl
  | read step later =>
    rw [finishes] at step
    cases step
  | emit step goes_on later =>
    rw [finishes] at step
    cases step

theorem step_of_ne (ends : state.Ends options text last)
    (more : state.move options true text ≠ .finish) :
    (∃ width next, state.move options true text = .read width next ∧
        (state.read text width next).Ends options (text.drop width) last) ∨
      ∃ width kind lexeme next, state.move options true text = .emit width kind lexeme next ∧
        ((state.record options kind lexeme).read text width next).Ends options (text.drop width)
          last := by
  obtain ⟨n, moves, between⟩ := ends
  cases moves with
  | none =>
    refine absurd ?_ more
    simp only [move, between]
    rfl
  | read step later => exact .inl ⟨_, _, step, _, later, between⟩
  | emit step goes_on later => exact .inr ⟨_, _, _, _, step, _, later, between⟩

theorem of_read (ends : state.Ends options text last)
    (step : state.move options true text = .read width next) :
    (state.read text width next).Ends options (text.drop width) last := by
  rcases ends.step_of_ne (by simp [step]) with ⟨w, m, same, later⟩ | ⟨w, k, l, m, other, -⟩
  · rw [step] at same
    obtain ⟨rfl, rfl⟩ := Move.read.inj same
    exact later
  · rw [step] at other
    cases other

theorem of_emit {kind : Kind} {lexeme : Lexeme} (ends : state.Ends options text last)
    (step : state.move options true text = .emit width kind lexeme next) :
    ((state.record options kind lexeme).read text width next).Ends options (text.drop width)
      last := by
  rcases ends.step_of_ne (by simp [step]) with ⟨w, m, other, -⟩ | ⟨w, k, l, m, same, later⟩
  · rw [step] at other
    cases other
  · rw [step] at same
    obtain ⟨rfl, rfl, rfl, rfl⟩ := Move.emit.inj same
    exact later

end Ends

/-- The move finds an error. -/
def Finds : Move → Prop
  | .fail _ _ | .reject _ _ _ => True
  | _ => False

theorem not_ends_of_finds (finds : Finds (state.move options true text)) :
    ¬state.Ends options text last := by
  intro ends
  have more : state.move options true text ≠ .finish := by
    intro finishes
    rw [finishes] at finds
    exact finds
  rcases ends.step_of_ne more with ⟨w, m, step, -⟩ | ⟨w, k, l, m, step, -⟩
  · rw [step] at finds
    exact finds
  · rw [step] at finds
    exact finds

/-! ## The end of a line -/

theorem moves_comment (mode : state.mode = .comment) (body : List Char)
    (line : ∀ c ∈ body, Comment.skips c = true) (more : List Char) :
    ∃ n, Moves options .text true n state (body ++ ['\n'] ++ more)
      ⟨state.location.walk (body ++ ['\n']), state.tokens, state.checking, .between⟩ more := by
  obtain ⟨location, tokens, checking, _⟩ := state
  obtain rfl : _ = Mode.comment := mode
  induction body generalizing location with
  | nil => exact ⟨2, .read rfl (.read rfl (.none _ _))⟩
  | cons c body ih =>
    have skipped := line c List.mem_cons_self
    have step : State.move options true ⟨location, tokens, checking, .comment⟩
        (c :: (body ++ ['\n'] ++ more)) = .read 1 .comment := if_pos skipped
    obtain ⟨n, moves⟩ := ih (fun d listed => line d (List.mem_cons_of_mem c listed))
      (location.next c)
    exact ⟨n + 1, .read step moves⟩

theorem moves_line (line : LineEnd options border) (mode : state.mode = .between)
    (more : List Char) :
    ∃ n, Moves options .text true n state (border ++ more)
      ⟨state.location.walk border, state.tokens, state.checking, .between⟩ more := by
  obtain ⟨location, tokens, checking, _⟩ := state
  obtain rfl : _ = Mode.between := mode
  cases line with
  | lineBreak => exact ⟨1, .read rfl (.none _ _)⟩
  | @comment body unchecked skipped =>
    have opens : Comment.openMove options checking location ('%' :: (body ++ ['\n'] ++ more)) true =
        .read 1 .comment := by simp [Comment.openMove, unchecked]
    have mode : State.mode ⟨location.next '%', tokens, checking, .comment⟩ = .comment := rfl
    obtain ⟨n, moves⟩ := moves_comment mode body skipped more
    exact ⟨n + 1, .read opens moves⟩

/-- Whatever the scan comes to at the end of the text, it comes to at the end of a line as well,
and is behind that then. -/
def Sealed (options : Options) (border : List Char) (state : State) (text : List Char) : Prop :=
  ∀ last, state.Ends options text last → ∀ more, ∃ n,
    Moves options .text true n state (text ++ (border ++ more))
      ⟨state.location.walk (text ++ border), last.tokens, last.checking, .between⟩ more

theorem walk_take_drop (location : Location) (text border : List Char) (width : Nat) :
    (location.walk (text.take width)).walk (text.drop width ++ border) =
      location.walk (text ++ border) := by
  rw [← Location.walk_append, ← List.append_assoc, List.take_append_drop]

namespace Sealed

variable {width : Nat} {next : Mode}

theorem of_finds (finds : Finds (state.move options true text)) :
    Sealed options border state text :=
  fun _ ends => absurd ends (not_ends_of_finds finds)

/-- One move further back, if the end of the line makes no difference to it. -/
theorem read (step : state.move options true text = .read width next)
    (longer : ∀ more, state.move options true (text ++ (border ++ more)) = .read width next)
    (later : Sealed options border (state.read text width next) (text.drop width)) :
    Sealed options border state text := by
  intro last ends more
  obtain ⟨n, moves⟩ := later last (ends.of_read step) more
  have short := (fits_of_move step).1
  refine ⟨n + 1, .read (longer more) ?_⟩
  rw [state.read_append (border ++ more) next short, List.drop_append_of_le_length short]
  rw [← walk_take_drop state.location text border width]
  exact moves

theorem emit {kind : Kind} {lexeme : Lexeme}
    (step : state.move options true text = .emit width kind lexeme next)
    (longer : ∀ more,
      state.move options true (text ++ (border ++ more)) = .emit width kind lexeme next)
    (later : Sealed options border ((state.record options kind lexeme).read text width next)
      (text.drop width)) : Sealed options border state text := by
  intro last ends more
  obtain ⟨n, moves⟩ := later last (ends.of_emit step) more
  have short := (fits_of_move step).1
  refine ⟨n + 1, .emit (longer more) (by simp) ?_⟩
  rw [(state.record options kind lexeme).read_append (border ++ more) next short,
    List.drop_append_of_le_length short]
  rw [← walk_take_drop state.location text border width]
  exact moves

/-- Moves that do not wait for more are the same in front of the end of a line. -/
theorem of_moves {before : State} (moves : Moves options .text false n state text before rest)
    (later : Sealed options border before rest) : Sealed options border state text := by
  induction moves with
  | none => exact later
  | read step moves ih =>
    have same := move_append [] true step (by simp)
    rw [List.append_nil] at same
    exact .read same (fun more => move_append (border ++ more) true step (by simp)) (ih later)
  | emit step goes_on moves ih =>
    have same := move_append [] true step (by simp)
    rw [List.append_nil] at same
    exact .emit same (fun more => move_append (border ++ more) true step (by simp)) (ih later)

/-! ### Modes with no text in front of them -/

theorem between (line : LineEnd options border) (mode : state.mode = .between) :
    Sealed options border state [] := by
  intro last ends more
  obtain rfl := ends.eq_of_between mode
  exact moves_line line mode more

theorem comment (line : LineEnd options border) (mode : state.mode = .comment) :
    Sealed options border state [] := by
  intro last ends more
  have ended : state.move options true [] = .read 0 .between := by
    simp only [move, mode]
    rfl
  obtain rfl := (ends.of_read ended).eq_of_between rfl
  cases line with
  | lineBreak => exact moves_comment mode [] (by simp) more
  | @comment body unchecked skipped =>
    refine moves_comment mode ('%' :: body) ?_ more
    intro c listed
    rcases List.mem_cons.mp listed with rfl | inside
    · decide
    · exact skipped c inside

theorem afterString (line : LineEnd options border) (mode : state.mode = .afterString) :
    Sealed options border state [] := by
  obtain ⟨c, rest, rfl, bars⟩ := line.cons
  obtain ⟨location, tokens, checking, _⟩ := state
  obtain rfl : _ = Mode.afterString := mode
  exact .read rfl (fun more => AfterString.move_barred location bars (rest ++ more))
    (.between line rfl)

theorem sigil {sigil : Sigil} (mode : state.mode = .sigil sigil) :
    Sealed options border state [] := by
  apply of_finds
  simp only [move, mode]
  trivial

theorem name (line : LineEnd options border) {draft : NameDraft} (mode : state.mode = .name draft) :
    Sealed options border state [] := by
  obtain ⟨c, rest, rfl, bars⟩ := line.cons
  obtain ⟨location, tokens, checking, _⟩ := state
  obtain rfl : _ = Mode.name draft := mode
  have complete : State.move options true ⟨location, tokens, checking, .name draft⟩ [] =
      draft.complete options := rfl
  by_cases long : maxNameLength < draft.name.length
  · apply of_finds
    rw [complete, NameDraft.complete, if_pos long]
    trivial
  · rw [NameDraft.complete, if_neg long] at complete
    refine .emit complete (fun more => ?_) ?_
    · have same := draft.move_barred options bars (rest ++ more)
      rw [NameDraft.complete, if_neg long] at same
      exact same
    · rcases draft.next_cases with next | next | ⟨opened, next⟩
      · exact between line next
      · exact afterString line next
      · exact sigil next

theorem number (line : LineEnd options border) {draft : NumberDraft}
    (mode : state.mode = .number draft) : Sealed options border state [] := by
  obtain ⟨c, rest, rfl, bars⟩ := line.cons
  obtain ⟨location, tokens, checking, _⟩ := state
  obtain rfl : _ = Mode.number draft := mode
  have complete : State.move options true ⟨location, tokens, checking, .number draft⟩ [] =
      draft.complete := rfl
  have longer (more : List Char) :
      State.move options true ⟨location, tokens, checking, .number draft⟩ (c :: rest ++ more) =
        draft.complete := draft.move_barred bars (rest ++ more)
  cases value : draft.part.kind? with
  | some kind =>
    simp only [NumberDraft.complete, value] at complete longer
    exact .emit complete longer (.between line rfl)
  | none =>
    apply of_finds
    simp only [complete, NumberDraft.complete, value]
    trivial

/-- Where there is no more text, the end of a line is the end of the text. -/
theorem nothing (line : LineEnd options border) (state : State) :
    Sealed options border state [] := by
  cases mode : state.mode with
  | between => exact between line mode
  | comment => exact comment line mode
  | name draft => exact name line mode
  | number draft => exact number line mode
  | afterString => exact afterString line mode
  | sigil sigil => exact .sigil mode
  | quoted draft =>
    apply of_finds
    simp only [move, mode, QuotedDraft.move, ↓reduceIte, QuotedDraft.unterminated]
    trivial
  | tripleQuoted draft =>
    apply of_finds
    simp only [move, mode, TripleQuotedDraft.move, ↓reduceIte, TripleQuotedDraft.unterminated]
    trivial

/-- A text that one move reads to its end, if the end of the line makes no difference to it. -/
theorem of_same (line : LineEnd options border) (some_text : text ≠ [])
    (all : (state.move options true text).ReadsAll text)
    (same : ∀ more, state.move options true (text ++ (border ++ more)) =
      state.move options true text) : Sealed options border state text := by
  cases step : state.move options true text with
  | wait =>
    rw [step] at all
    exact all.elim
  | finish =>
    rw [step] at all
    exact absurd all some_text
  | read width next =>
    rw [step] at all
    refine .read step (fun more => (same more).trans step) ?_
    rw [List.drop_eq_nil_of_le (Nat.le_of_eq all.symm)]
    exact nothing line _
  | emit width kind lexeme next =>
    rw [step] at all
    refine .emit step (fun more => (same more).trans step) ?_
    rw [List.drop_eq_nil_of_le (Nat.le_of_eq all.symm)]
    exact nothing line _
  | fail width error =>
    apply of_finds
    rw [step]
    trivial
  | reject width error finish =>
    apply of_finds
    rw [step]
    trivial

/-! ### Texts between two tokens -/

/-- A single dot is the end of a form or of an annotation, and takes a line break with it. -/
theorem dot (line : LineEnd options border) (uncaptured : options.captureText = false)
    (mode : state.mode = .between) : Sealed options border state ['.'] := by
  intro last ends more
  obtain ⟨location, tokens, checking, _⟩ := state
  obtain rfl : _ = Mode.between := mode
  obtain rfl := (ends.of_emit rfl).eq_of_between rfl
  cases line with
  | lineBreak =>
    refine ⟨1, .emit rfl (by simp) ?_⟩
    simp only [record, uncaptured]
    exact .none _ _
  | @comment body unchecked skipped =>
    have mode : ((record options ⟨location, tokens, checking, .between⟩
        (if checking then .checkClose else .dot) (.front location ['.'] 1)).read ['.'] 1
          .between).mode = .between := rfl
    obtain ⟨n, moves⟩ := moves_line (.comment unchecked skipped) mode more
    refine ⟨n + 1, .emit rfl (by simp) ?_⟩
    simp only [record, uncaptured] at moves ⊢
    exact moves

theorem operator (line : LineEnd options border) (uncaptured : options.captureText = false)
    (mode : state.mode = .between) (grows : Operator.mayGrow text = true) :
    Sealed options border state text := by
  obtain ⟨c, behind, rfl, bars⟩ := line.cons
  induction text generalizing state with
  | nil => exact nothing line state
  | cons d rest ih =>
    obtain ⟨location, tokens, checking, _⟩ := state
    obtain rfl : _ = Mode.between := mode
    by_cases single : d :: rest = ['.']
    · rw [single]
      exact dot line uncaptured rfl
    · have same (more : List Char) := Between.move_barred options checking location grows single
        bars (behind ++ more)
      rcases Between.move_of_beginning options checking location grows with all | twice
      · exact of_same line (by simp) all same
      · obtain ⟨op, lexeme, step, -, again⟩ := twice
        exact .emit step (fun more => (same more).trans step) (ih rfl again)

theorem skipped (line : LineEnd options border) (mode : state.mode = .comment)
    (all : ∀ c ∈ text, Comment.skips c = true) : Sealed options border state text := by
  induction text generalizing state with
  | nil => exact comment line mode
  | cons c text ih =>
    obtain ⟨location, tokens, checking, _⟩ := state
    obtain rfl : _ = Mode.comment := mode
    have skips := all c List.mem_cons_self
    exact .read (if_pos skips) (fun more => if_pos skips)
      (ih rfl fun d listed => all d (List.mem_cons_of_mem c listed))

theorem marker (line : LineEnd options border) (mode : state.mode = .between)
    (checks : options.checkComments = true) (cut : breaksOffWithin text Comment.marker = true) :
    Sealed options border state text := by
  obtain ⟨location, tokens, checking, _⟩ := state
  obtain rfl : _ = Mode.between := mode
  obtain ⟨front, short⟩ := prefix_of_breaksOff cut
  cases text with
  | nil => exact nothing line _
  | cons c rest =>
    obtain rfl : c = '%' := (List.cons_prefix_cons.mp front).1
    have unmarked (more : List Char) :
        Comment.marker.isPrefixOf ('%' :: rest ++ (border ++ more)) = false := by
      rw [Bool.eq_false_iff, ne_eq, List.isPrefixOf_iff_prefix]
      intro whole
      obtain ⟨behind, split⟩ := front
      cases line with
      | lineBreak =>
        rw [← split, List.prefix_append_right_inj] at whole
        cases behind with
        | nil => exact short ((List.append_nil _).symm.trans split)
        | cons d behind =>
          obtain ⟨rfl, -⟩ := List.cons_prefix_cons.mp whole
          have inside : '\n' ∈ Comment.marker := by
            rw [← split]
            simp
          exact absurd inside (by decide)
      | comment unchecked skipped =>
        rw [checks] at unchecked
        cases unchecked
    have alone := Comment.unmarked_of_breaksOff cut
    refine .read (Comment.openMove_of_unmarked options checking location alone)
      (fun more => Comment.openMove_of_unmarked options checking location (unmarked more))
      (skipped line rfl ?_)
    intro d listed
    exact Comment.skips_of_mem_marker (front.subset (List.mem_cons_of_mem '%' listed))

/-- A character literal that breaks off is not closed, or it is all of its octal digits. -/
theorem char (line : LineEnd options border) (mode : state.mode = .between) {behind : List Char}
    (cut : CharLiteral.BreaksOff behind) : Sealed options border state ('$' :: behind) := by
  obtain ⟨c, rest, rfl, bars⟩ := line.cons
  obtain ⟨location, tokens, checking, _⟩ := state
  obtain rfl : _ = Mode.between := mode
  have all : (State.move options true ⟨location, tokens, checking, .between⟩
      ('$' :: behind)).ReadsAll ('$' :: behind) := CharLiteral.readsAll location cut
  rcases cut with rfl | ⟨digits, rfl, cut⟩
  · exact of_finds trivial
  · have step : State.move options true ⟨location, tokens, checking, .between⟩
        ('$' :: '\\' :: digits) = CharLiteral.move location ('\\' :: digits) true := rfl
    cases read : Escape.read digits true with
    | char value width =>
      exact of_same line (by simp) all fun more =>
        CharLiteral.move_barred location cut read bars (rest ++ more)
    | lineBreak => exact absurd read (Escape.read_ne_lineBreak_of_incomplete cut)
    | incomplete =>
      apply of_finds
      simp only [step, CharLiteral.move, ↓reduceIte, read]
      trivial
    | malformed width =>
      apply of_finds
      simp only [step, CharLiteral.move, ↓reduceIte, read]
      trivial

/-- A quoted text is not closed by an escape, whether it breaks off or not. -/
theorem escape (line : LineEnd options border) {draft : QuotedDraft}
    (mode : state.mode = .quoted draft) {behind : List Char} (inside : draft.close ≠ '\\')
    (escapes : draft.quotation.isVerbatim = false) (cut : Escape.read behind false = .incomplete) :
    Sealed options border state ('\\' :: behind) := by
  obtain ⟨c, rest, rfl, bars⟩ := line.cons
  obtain ⟨location, tokens, checking, _⟩ := state
  obtain rfl : _ = Mode.quoted draft := mode
  have all : (State.move options true ⟨location, tokens, checking, .quoted draft⟩
      ('\\' :: behind)).ReadsAll ('\\' :: behind) :=
    QuotedDraft.readsAll location inside escapes cut
  have step : State.move options true ⟨location, tokens, checking, .quoted draft⟩
      ('\\' :: behind) = draft.escape location ('\\' :: behind) behind true := by
    simp only [move, QuotedDraft.move, inside.symm, escapes, ↓reduceIte, Bool.not_false,
      decide_true, Bool.and_self]
  cases read : Escape.read behind true with
  | char value width =>
    exact of_same line (by simp) all fun more =>
      QuotedDraft.move_barred location inside escapes cut read bars (rest ++ more)
  | lineBreak => exact absurd read (Escape.read_ne_lineBreak_of_incomplete cut)
  | incomplete =>
    apply of_finds
    simp only [step, QuotedDraft.escape, read, ↓reduceIte, QuotedDraft.unterminated]
    trivial
  | malformed width =>
    apply of_finds
    simp only [step, QuotedDraft.escape, read]
    trivial

theorem point (line : LineEnd options border) (uncaptured : options.captureText = false)
    {draft : NumberDraft} {value : Nat} (mode : state.mode = .number draft)
    (part : draft.part = .whole value) : Sealed options border state ['.'] := by
  obtain ⟨c, rest, rfl, bars⟩ := line.cons
  obtain ⟨location, tokens, checking, _⟩ := state
  obtain rfl : _ = Mode.number draft := mode
  exact .emit (draft.move_of_point part)
    (fun more => draft.move_of_point_barred part bars (rest ++ more)) (dot line uncaptured rfl)

end Sealed

end State

/-- In front of a loose end of a text the end of a line does what the end of the text does. -/
theorem LooseEnd.sealed {options : Options} {border : List Char} (line : LineEnd options border)
    (uncaptured : options.captureText = false) {state : State} {text : List Char}
    (loose : LooseEnd options state.mode text) : State.Sealed options border state text := by
  have whole := State.Sealed.nothing line state
  obtain ⟨c, behind, same, bars⟩ := line.cons
  obtain ⟨location, tokens, checking, mode⟩ := state
  cases loose with
  | nothing => exact whole
  | opening run =>
    cases text with
    | nil => exact whole
    | cons d rest =>
      obtain rfl := head_of_isRun run
      refine .of_same line (by simp) (QuoteRun.readsAll location none run) fun more => ?_
      rw [same]
      exact QuoteRun.move_barred location none run (by simp) bars (behind ++ more)
  | delimiter sigil run =>
    by_cases none : text = []
    · exact none ▸ whole
    · refine .of_same line none (sigil.readsAll location run) fun more => ?_
      rw [same]
      exact sigil.move_barred location run none bars (behind ++ more)
  | closing blank run =>
    by_cases none : text = []
    · exact none ▸ whole
    · refine .of_same line none (TripleQuotedDraft.readsAll location blank run) fun more => ?_
      rw [same]
      exact TripleQuotedDraft.move_barred location blank run none bars (behind ++ more)
  | operator grows => exact .operator line uncaptured rfl grows
  | char cut => exact .char line rfl cut
  | marker checks cut => exact .marker line rfl checks cut
  | @separators draft _ digits run =>
    by_cases none : text = []
    · exact none ▸ whole
    · apply State.Sealed.of_finds
      simp only [State.move, NumberDraft.move_of_separators digits run none]
      trivial
  | point part => exact .point line uncaptured rfl part
  | escape inside escapes cut => exact .escape line rfl inside escapes cut

/-- Every scan comes at the end of a line to what it comes to at the end of the text. -/
theorem State.sealed {options : Options} {border : List Char} (line : LineEnd options border)
    (uncaptured : options.captureText = false) (state : State) (text : List Char) :
    State.Sealed options border state text := by
  obtain ⟨n, before, rest, moves, halts⟩ := state.exists_halt options .text false text
  refine .of_moves moves ?_
  have decided (known : before.move options false rest ≠ .wait) :
      before.move options true rest = before.move options false rest := by
    simpa using before.move_stable options rest [] true known
  cases step : before.move options false rest with
  | wait => exact (looseEnd_of_wait step).sealed line uncaptured
  | finish =>
    obtain ⟨-, closed⟩ := fits_of_move step
    cases closed
  | read width next =>
    rw [step] at halts
    exact halts.elim
  | emit width kind lexeme next =>
    rw [step] at halts
    cases halts.2
  | fail width error =>
    apply State.Sealed.of_finds
    rw [decided (by simp [step]), step]
    trivial
  | reject width error finish =>
    apply State.Sealed.of_finds
    rw [decided (by simp [step]), step]
    trivial

/-- **A line break is a boundary.** A text of which a scan finds all tokens, and in which every
check annotation is closed, may have the end of a line behind it: a line break, or a comment and
a line break if comments are not checked. The text behind the line break is then scanned as if
it stood alone at its position, and its tokens come behind those of the first text, its error is
the error of the whole, and its end is the end of the whole. -/
theorem line_break_is_boundary {options : Options} {origin : Location} {text comment : List Char}
    {list : Array Token} {finish : Location} (uncaptured : options.captureText = false)
    (skipped : comment = [] ∨ options.checkComments = false ∧
      ∃ body, comment = '%' :: body ∧ ∀ c ∈ body, c ≠ '\n' ∧ isText c = true)
    (scanned : scanText options origin text = .ok (list, finish))
    (closed : ∀ front behind, kinds list = front ++ .checkOpen :: behind → .checkClose ∈ behind)
    (more : List Char) :
    scanText options origin (text ++ comment ++ '\n' :: more) =
      (scanText options (origin.position (text ++ comment ++ ['\n'])) more).map fun later =>
        (list ++ later.1, later.2) := by
  have line : LineEnd options (comment ++ ['\n']) := by
    rcases skipped with rfl | ⟨unchecked, body, rfl, all⟩
    · exact .lineBreak
    · refine .comment unchecked fun c listed => ?_
      simpa [Comment.skips] using all c listed
  obtain ⟨found, -⟩ := tokens?_of_scanText scanned
  obtain ⟨last, ends, tokens, -⟩ :=
    State.ends_of_stopped (scanEnded_stops options .text origin text) found
  have list_eq : last.tokens = list := Array.toList_inj.mp tokens.symm
  have outside : last.checking = false := by
    obtain ⟨m, moves, -⟩ := ends
    have annotations := moves.checks (State.InOrder.fresh options origin).annotations
    rw [list_eq] at annotations
    exact annotations.outside_of_closed closed
  obtain ⟨n, moves⟩ := State.sealed line uncaptured (.fresh origin) text last ends more
  have split : text ++ comment ++ '\n' :: more = text ++ (comment ++ ['\n'] ++ more) := by simp
  rw [split]
  refine scanText_of_behind (moves.run_eq.trans ?_)
  rw [outside, list_eq, ← List.append_assoc, ← Location.walk_eq_position]
  simp [State.behind, State.fresh]

/-- The dot that closes an annotation takes the line break with it, and an octal escape that the
end of the text would complete is complete in front of a comment. -/
theorem line_break_is_boundary_behind_dot :
    (scanText ⟨default, false, true⟩ ⟨1, some 1⟩ ['%', 's', 's', 'a', '%', '1', '.'] =
        .ok (#[⟨.checkOpen, ⟨1, some 1⟩, none⟩, ⟨.integer 1, ⟨1, some 6⟩, none⟩,
          ⟨.checkClose, ⟨1, some 7⟩, none⟩], ⟨1, some 8⟩) ∧
      scanText ⟨default, false, true⟩ ⟨1, some 1⟩
          (['%', 's', 's', 'a', '%', '1', '.'] ++ [] ++ '\n' :: ['$']) =
        (scanText ⟨default, false, true⟩
          (Location.position ⟨1, some 1⟩ (['%', 's', 's', 'a', '%', '1', '.'] ++ [] ++ ['\n']))
          ['$']).map fun later =>
            (#[⟨.checkOpen, ⟨1, some 1⟩, none⟩, ⟨.integer 1, ⟨1, some 6⟩, none⟩,
              ⟨.checkClose, ⟨1, some 7⟩, none⟩] ++ later.1, later.2)) ∧
    (scanText default ⟨1, some 1⟩ ['$', '\\', '1'] =
        .ok (#[⟨.char '\x01', ⟨1, some 1⟩, none⟩], ⟨1, some 4⟩) ∧
      scanText default ⟨1, some 1⟩ (['$', '\\', '1'] ++ ['%', '1'] ++ '\n' :: ['a']) =
        (scanText default (Location.position ⟨1, some 1⟩ (['$', '\\', '1'] ++ ['%', '1'] ++ ['\n']))
          ['a']).map fun later =>
            (#[⟨.char '\x01', ⟨1, some 1⟩, none⟩] ++ later.1, later.2)) := by
  have annotated :
      scanText ⟨default, false, true⟩ ⟨1, some 1⟩ ['%', 's', 's', 'a', '%', '1', '.'] =
        .ok (#[⟨.checkOpen, ⟨1, some 1⟩, none⟩, ⟨.integer 1, ⟨1, some 6⟩, none⟩,
          ⟨.checkClose, ⟨1, some 7⟩, none⟩], ⟨1, some 8⟩) := by
    decide +kernel
  have escape : scanText default ⟨1, some 1⟩ ['$', '\\', '1'] =
      .ok (#[⟨.char '\x01', ⟨1, some 1⟩, none⟩], ⟨1, some 4⟩) := by
    decide +kernel
  have line : ∀ c ∈ ['1'], c ≠ '\n' ∧ isText c = true := by
    intro c listed
    obtain rfl := List.mem_singleton.mp listed
    decide
  refine ⟨⟨annotated, line_break_is_boundary rfl (.inl rfl) annotated ?_ _⟩,
    ⟨escape, line_break_is_boundary rfl (.inr ⟨rfl, ['1'], rfl, line⟩) escape ?_ _⟩⟩
  · intro front behind split
    obtain ⟨-, dotted⟩ : front = [] ∧ behind = [.integer 1, .checkClose] := by
      simpa [kinds, List.cons_eq_append_iff] using split
    simp [dotted]
  · intro front behind split
    simp [kinds, List.cons_eq_append_iff] at split

end ErlangLexer
