import ErlangLexer.Proofs.Beginnings
import ErlangLexer.Proofs.Fed
import ErlangLexer.Proofs.WholeText

/-!
# Literals that are not closed

Only the end of the source shows that a literal is not closed:

* `Unclosed`: what a quoted text that goes on to the end of the source stands for;
* `State.Reached.decodes`: the value of a quoted text so far is what it stands for so far;
* `Unterminated`: a literal that goes on to the end of the source, and its error with the first
  16 characters of what it stands for;
* `State.unterminated_of_stopped`: a scan finds such an error at the end of the source only, and
  tells where the literal starts and how it goes on;
* `unterminated_only_at_end`: so it is for chunks, and for the forms of a text.
-/

namespace ErlangLexer

/-- The text behind an opening delimiter goes on to the end of the source without the closing
one. It stands for the second text; an escape that breaks off stands for nothing. -/
inductive Unclosed (close : Char) (verbatim : Bool) : List Char → List Char → Prop where
  | nothing : Unclosed close verbatim [] []
  | cut {rest : List Char} (inside : close ≠ '\\') (escapes : verbatim = false)
      (cut : Escape.read rest true = .incomplete) : Unclosed close verbatim ('\\' :: rest) []
  | plain {c : Char} {rest value : List Char} (inside : c ≠ close)
      (plain : c = '\\' → verbatim = true) (known : isText c = true)
      (later : Unclosed close verbatim rest value) :
      Unclosed close verbatim (c :: rest) (c :: value)
  | escape {c : Char} {rest value : List Char} {width : Nat} (inside : close ≠ '\\')
      (escapes : verbatim = false) (read : Escape.read rest true = .char c width)
      (later : Unclosed close verbatim (rest.drop width) value) :
      Unclosed close verbatim ('\\' :: rest) (c :: value)
  | lineBreak {rest value : List Char} (inside : close ≠ '\\') (escapes : verbatim = false)
      (read : Escape.read rest true = .lineBreak)
      (later : Unclosed close verbatim (rest.drop 1) value) :
      Unclosed close verbatim ('\\' :: rest) ('\n' :: value)

/-- The text behind the first line. -/
def behindLine (text : List Char) : List Char :=
  (text.dropWhile (· != '\n')).drop 1

/-- The literal behind `before` goes on to the end of the source, and this is what is wrong
with it. The error shows the first 16 characters of what the literal stands for, or of the lines
behind the first one of a triple-quoted string. -/
inductive Unterminated (before : List Char) : List Char → Cause → Prop where
  | char : Unterminated before ['$'] .unterminatedChar
  | charEscape {rest : List Char} (cut : Escape.read rest true = .incomplete) :
      Unterminated before ('$' :: '\\' :: rest) .unterminatedChar
  | atom {body value : List Char} (open_end : Unclosed '\'' false body value) :
      Unterminated before ('\'' :: body) (.unterminatedAtom (String.ofList (value.take 16)))
  | string {body value : List Char} (open_end : Unclosed '"' false body value) :
      Unterminated before ('"' :: body) (.unterminatedString (String.ofList (value.take 16)))
  /-- The string of a sigil, whose tilde and name stand in front of it. -/
  | sigilString {front name body value : List Char} {opening close : Char}
      (sigil : before = front ++ '~' :: name) (named : ∀ c ∈ name, continuesName c = true)
      (closes : closing? opening = some close)
      (open_end : Unclosed close (!(name == ['s'] || name == ['b'])) body value) :
      Unterminated before (opening :: body) (.unterminatedSigil (String.ofList (value.take 16)))
  /-- A sigil without a delimiter. -/
  | sigil {name : List Char} (named : ∀ c ∈ name, continuesName c = true) :
      Unterminated before ('~' :: name) (.unterminatedSigil "")
  | tripleQuoted {literal : List Char} (quotes : 3 ≤ runLength '"' literal) :
      Unterminated before literal
        (.unterminatedTripleQuoted (String.ofList ((behindLine literal).take 16)))
  | sigilTripleQuoted {front name literal : List Char} (sigil : before = front ++ '~' :: name)
      (named : ∀ c ∈ name, continuesName c = true) (quotes : 3 ≤ runLength '"' literal) :
      Unterminated before literal
        (.unterminatedSigil (String.ofList ((behindLine literal).take 16)))

/-- The error is that of a literal of the text, which starts where the error is and goes on to
the end. -/
def LexicalError.TellsEnd (origin : Location) (text : List Char) (error : LexicalError) : Prop :=
  ∃ before literal, text = before ++ literal ∧ error.location = origin.position before ∧
    Unterminated before literal error.cause

/-! ## What quoted texts stand for -/

/-- Whatever the text in front stands for, all of the text behind the opening delimiter stands
for the value so far and that. -/
def Mode.Decodes (rest : List Char) : Mode → Prop
  | .quoted draft =>
    ∀ opening body value, draft.lexeme.source.toList = opening :: body →
      Unclosed draft.close draft.quotation.isVerbatim rest value →
        Unclosed draft.close draft.quotation.isVerbatim (body ++ rest)
          (draft.value.toList ++ value)
  | _ => True

theorem QuotedDraft.decodes_open (here : Location) (quotation : Quotation) (c close : Char)
    (rest : List Char) :
    (Mode.quoted ⟨.front here (c :: rest) 1, quotation, close, ""⟩).Decodes
      ((c :: rest).drop 1) := by
  intro opening body value source open_end
  rw [toList_front_one] at source
  obtain ⟨-, rfl⟩ := List.cons.inj source
  simpa using open_end

theorem QuotedDraft.decodes_read {draft : QuotedDraft} {text : List Char} {width : Nat} {c : Char}
    (begun : (Mode.quoted draft).Begun) (decodes : (Mode.quoted draft).Decodes text)
    (reads : ∀ value, Unclosed draft.close draft.quotation.isVerbatim (text.drop width) value →
      Unclosed draft.close draft.quotation.isVerbatim text (c :: value)) :
    (Mode.quoted ⟨draft.lexeme.extend text width, draft.quotation, draft.close,
      draft.value.push c⟩).Decodes (text.drop width) := by
  intro opening body value source open_end
  obtain ⟨first, earlier, started, -⟩ := begun
  rw [Lexeme.toList_extend, started] at source
  obtain ⟨rfl, rfl⟩ := List.cons.inj source
  have whole := decodes first earlier (c :: value) started (reads value open_end)
  simpa [List.take_append_drop] using whole

theorem Proceeds.decodes {here : Location} {mode next : Mode} {text : List Char} {width : Nat}
    (proceeds : Proceeds true here mode text width next) (begun : mode.Begun)
    (decodes : mode.Decodes text) : next.Decodes (text.drop width) := by
  cases proceeds with
  | quotedAtom rest => exact QuotedDraft.decodes_open here .atom '\'' '\'' rest
  | string rest => exact QuotedDraft.decodes_open here .string '"' '"' rest
  | @sigilString sigil c close rest closes =>
    exact QuotedDraft.decodes_open here (.sigil sigil.verbatim) c close rest
  | plain inside plain known =>
    exact QuotedDraft.decodes_read begun decodes fun value open_end =>
      .plain inside plain known open_end
  | @escape draft rest value width inside escapes read =>
    refine QuotedDraft.decodes_read begun decodes fun value open_end => ?_
    rw [Nat.add_comm, List.drop_succ_cons] at open_end
    exact .escape inside escapes read open_end
  | lineBreak inside escapes read =>
    exact QuotedDraft.decodes_read begun decodes fun value open_end =>
      .lineBreak inside escapes read open_end
  | _ => trivial

theorem Completes.decodes {options : Options} {checking : Bool} {mode next : Mode} {kind : Kind}
    (completes : Completes options checking mode kind next) (rest : List Char) :
    next.Decodes rest := by
  cases completes with
  | name draft =>
    unfold NameDraft.next
    split
    · trivial
    · split <;> trivial
    · trivial
  | _ => trivial

/-- The value of a quoted text so far is what the text so far stands for. -/
theorem State.Reached.decodes {options : Options} {extent : Extent} {origin : Location}
    {text rest : List Char} {state : State}
    (reached : Reached options extent true origin text state rest) : state.mode.Decodes rest := by
  induction reached with
  | start => trivial
  | read earlier step ih => exact (proceeds_of_read step).decodes earlier.begun ih
  | emit earlier step goes_on ih => exact (completes_of_emit step).decodes _

/-! ## The end of the source -/

/-- Only at the end of the source is a literal known not to be closed. -/
theorem Fails.ended_of_unterminated {ended : Bool} {here : Location} {mode : Mode}
    {text : List Char} {width : Nat} {error : LexicalError}
    (fails : Fails ended here mode text width error)
    (unterminated : error.cause.isUnterminated = true) : ended = true := by
  cases fails with
  | openChar last | openQuoted last | openSigil last | openTripleQuoted last => exact last
  | cutChar last cut => exact last
  | cutQuoted last inside escapes cut => exact last
  | _ => cases unterminated

theorem Fails.reads_all {ended : Bool} {here : Location} {mode : Mode} {text : List Char}
    {width : Nat} {error : LexicalError} (fails : Fails ended here mode text width error)
    (unterminated : error.cause.isUnterminated = true) : text.drop width = [] := by
  cases fails with
  | openChar | openQuoted | openSigil | openTripleQuoted => rfl
  | cutChar last cut => exact List.drop_eq_nil_of_le (by simp)
  | cutQuoted last inside escapes cut => exact List.drop_eq_nil_of_le (by simp)
  | _ => cases unterminated

theorem Layout.cause_of_fault {layout : Layout} {verbatim : Bool} {fault : Layout.Fault}
    (faulty : layout.value verbatim = .error fault) :
    fault.cause = .whiteSpace ∨ fault.cause = .indentation ∨ fault.cause = .illegal .character := by
  unfold value at faulty
  split at faulty
  · obtain rfl := Except.error.inj faulty
    exact .inl rfl
  · split at faulty
    · obtain rfl := Except.error.inj faulty
      exact .inr (.inl rfl)
    · split at faulty
      · cases faulty
      · split at faulty
        · obtain rfl := Except.error.inj faulty
          exact .inr (.inr rfl)
        · cases faulty

theorem Layout.isUnterminated_fault {layout : Layout} {verbatim : Bool} {fault : Layout.Fault}
    (faulty : layout.value verbatim = .error fault) : fault.cause.isUnterminated = false := by
  rcases cause_of_fault faulty with cause | cause | cause
  all_goals
    rw [cause]
    rfl

theorem errorHead_eq (content : List Char) :
    errorHead content = String.ofList (content.take 16) := rfl

/-- A quoted text that goes on to the end, with the error that its kind has. -/
theorem QuotedDraft.unterminated_of_unclosed {draft : QuotedDraft} {origin : Location}
    {before body value : List Char} {opening : Char}
    (introduced : (Mode.quoted draft).Introduced origin before)
    (delimits : draft.quotation.Delimits opening draft.close)
    (open_end : Unclosed draft.close draft.quotation.isVerbatim body value) :
    Unterminated before (opening :: body) (draft.quotation.unclosed (errorHead value)) := by
  obtain ⟨lexeme, quotation, close, _⟩ := draft
  rw [errorHead_eq]
  cases quotation with
  | atom =>
    obtain ⟨rfl, rfl⟩ := delimits
    exact .atom open_end
  | string =>
    obtain ⟨rfl, rfl⟩ := delimits
    exact .string open_end
  | sigil verbatim =>
    obtain ⟨sigil, rfl, front, name, split, named, -, same⟩ := introduced verbatim rfl
    rw [Quotation.isVerbatim, same] at open_end
    exact .sigilString split named delimits open_end

namespace TripleQuotedDraft

theorem behindLine_source {draft : TripleQuotedDraft} (made : draft.Made)
    (begun : (Mode.tripleQuoted draft).Begun) :
    behindLine draft.lexeme.source.toList = draft.content := by
  have quotes : (List.replicate draft.quotes '"').all (· != '\n') = true := by simp
  have opening : draft.opening.toList.all (· != '\n') = true := by
    rw [List.all_eq_true]
    intro c listed
    have inside : c ≠ '\n' := fun wrong => begun.2 (wrong ▸ listed)
    simp [inside]
  rw [behindLine, made.source, interior,
    List.dropWhile_append_of_pos (List.all_eq_true.mp quotes),
    List.dropWhile_append_of_pos (List.all_eq_true.mp opening)]
  cases found : draft.body with
  | none => simp [content, found]
  | some body => simp [content, found]

theorem quotes_le_runLength {draft : TripleQuotedDraft} (made : draft.Made) :
    draft.quotes ≤ runLength '"' draft.lexeme.source.toList := by
  have quotes : ∀ c ∈ List.replicate draft.quotes '"', (c == '"') = true := by simp
  rw [runLength, made.source, List.takeWhile_append_of_pos quotes, List.length_append,
    List.length_replicate]
  exact Nat.le_add_right _ _

theorem unterminated_source {draft : TripleQuotedDraft} {origin : Location} {before : List Char}
    (introduced : (Mode.tripleQuoted draft).Introduced origin before) (made : draft.Made)
    (begun : (Mode.tripleQuoted draft).Begun) :
    Unterminated before draft.lexeme.source.toList
      (Sigil.unclosed (errorHead draft.content) draft.sigil) := by
  have quotes := Nat.le_trans begun.1 (quotes_le_runLength made)
  rw [errorHead_eq, ← behindLine_source made begun]
  cases found : draft.sigil with
  | none => exact .tripleQuoted quotes
  | some sigil =>
    obtain ⟨front, name, split, named, -⟩ := introduced sigil found
    exact .sigilTripleQuoted split named quotes

end TripleQuotedDraft

namespace State

variable {options : Options} {extent : Extent} {origin : Location} {text rest left : List Char}
  {state : State} {error : LexicalError}

/-- Where a scan fails because the source ends, a literal goes on to its end. -/
theorem Reached.tellsEnd (reached : Reached options extent true origin text state rest)
    {width : Nat} (step : state.move options true rest = .fail width error)
    (unterminated : error.cause.isUnterminated = true) : error.TellsEnd origin text := by
  obtain ⟨before, lexeme, amid, split, introduced⟩ := reached.introduced
  have begun := reached.begun
  have decodes := reached.decodes
  have fails := fails_of_fail step
  have start : lexeme.start = origin.position before :=
    amid.start.trans (origin.walk_eq_position before)
  obtain ⟨location, tokens, checking, mode⟩ := state
  cases fails with
  | openChar last =>
    have unread : lexeme.source = "" := amid.holds
    have here := amid.here
    rw [unread] at split here
    exact ⟨before, _, split, here.trans start, .char⟩
  | cutChar last cut =>
    have unread : lexeme.source = "" := amid.holds
    have here := amid.here
    rw [unread] at split here
    exact ⟨before, _, split, here.trans start, .charEscape cut⟩
  | openQuoted last =>
    obtain rfl := amid.holds
    obtain ⟨opening, body, source, delimits⟩ := begun
    have open_end := decodes opening body [] source .nothing
    rw [List.append_nil] at split
    rw [List.append_nil, List.append_nil] at open_end
    rw [source] at split
    exact ⟨before, _, split, start,
      QuotedDraft.unterminated_of_unclosed introduced delimits open_end⟩
  | cutQuoted last inside escapes cut =>
    obtain rfl := amid.holds
    obtain ⟨opening, body, source, delimits⟩ := begun
    have open_end := decodes opening body [] source (.cut inside escapes cut)
    rw [List.append_nil] at open_end
    rw [source] at split
    exact ⟨before, _, split, start,
      QuotedDraft.unterminated_of_unclosed introduced delimits open_end⟩
  | openSigil last =>
    obtain ⟨front, name, rfl, named, place, -⟩ := introduced
    have unread : lexeme.source = "" := amid.holds
    rw [unread] at split
    refine ⟨front, '~' :: name, ?_, place.trans (origin.walk_eq_position front), .sigil named⟩
    rw [split]
    simp
  | openTripleQuoted last =>
    obtain ⟨rfl, made⟩ := amid.holds
    rw [List.append_nil] at split
    exact ⟨before, _, split, start,
      TripleQuotedDraft.unterminated_source introduced made begun⟩
  | _ => cases unterminated

theorem Reached.cause_of_reject {ended : Bool}
    (reached : Reached options extent ended origin text state rest) {width : Nat}
    {finish : Location} (step : state.move options ended rest = .reject width error finish) :
    error.cause = .whiteSpace ∨ error.cause = .indentation ∨ error.cause = .illegal .character := by
  obtain ⟨draft, fault, mode, faulty⟩ := reached.atFault_of_reject step
  have moved : state.move options ended rest = draft.move state.location rest ended := by
    simp only [move, mode]
  rw [moved] at step
  rcases TripleQuotedDraft.exists_reject state.location ended faulty with
    waits | ⟨_, -, rejects⟩
  · rw [waits] at step
    cases step
  · rw [rejects] at step
    obtain ⟨-, rfl, -⟩ := Move.reject.inj step
    exact Layout.cause_of_fault faulty.2.2.2

theorem Reached.closed_of_reject {ended : Bool}
    (reached : Reached options extent ended origin text state rest) {width : Nat}
    {finish : Location} (step : state.move options ended rest = .reject width error finish) :
    error.cause.isUnterminated = false := by
  rcases reached.cause_of_reject step with cause | cause | cause
  all_goals
    rw [cause]
    rfl

/-- A scan that tells of a literal that is not closed has come to the end of the source. -/
theorem unterminated_of_stopped {ended : Bool} {finish : Location}
    (stops : (fresh origin).run options extent ended text = .stopped (.error error finish) left)
    (unterminated : error.cause.isUnterminated = true) :
    ended = true ∧ left = [] ∧ error.TellsEnd origin text := by
  obtain ⟨last, behind, width, reached, rfl, ⟨step, -⟩ | step⟩ := Reached.start.exists_error stops
  · have fails := fails_of_fail step
    obtain rfl := fails.ended_of_unterminated unterminated
    exact ⟨rfl, fails.reads_all unterminated, reached.tellsEnd step unterminated⟩
  · rw [reached.closed_of_reject step] at unterminated
    cases unterminated

end State

end ErlangLexer
