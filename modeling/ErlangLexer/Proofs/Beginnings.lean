import ErlangLexer.Proofs.FormLocation
import ErlangLexer.Proofs.Completion
import ErlangLexer.Proofs.Transitions

/-!
# How literals begin

What a mode has read of a literal begins as its kind of literal must, and the string of a sigil
has the tilde and the name of the sigil in front of it:

* `Mode.Begun`: what is read of a literal begins right, which every move preserves;
* `Sigil.Introduced`: the tilde and the name of a sigil end the text that is read;
* `State.Reached.introduced`: so they do in front of every string of a sigil that a scan is in.
-/

namespace ErlangLexer

/-- The text starts with a small letter. -/
def startsSmall (text : String) : Bool :=
  text.toList.head?.any isLower

/-- The delimiters between which such a text stands. -/
def Quotation.Delimits (opening close : Char) : Quotation → Prop
  | .atom => opening = '\'' ∧ close = '\''
  | .string => opening = '"' ∧ close = '"'
  | .sigil _ => closing? opening = some close

/-- What has been read of a literal begins as such a literal does. -/
def Mode.Begun : Mode → Prop
  | .name draft =>
    (∀ c ∈ draft.name.toList, continuesName c = true) ∧
      (draft.role = .atom → startsSmall draft.name = true)
  | .number draft => draft.lexeme.source.toList ≠ []
  | .quoted draft =>
    ∃ opening body, draft.lexeme.source.toList = opening :: body ∧
      draft.quotation.Delimits opening draft.close
  | .tripleQuoted draft => 3 ≤ draft.quotes ∧ '\n' ∉ draft.opening.toList
  | .between | .comment | .afterString | .sigil _ => True

/-! ## Every move keeps to it -/

theorem continuesName_of_isLower {c : Char} (lower : isLower c = true) :
    continuesName c = true := by
  simp [continuesName, isLetter, lower]

theorem continuesName_of_startsVariable {c : Char} (starts : startsVariable c = true) :
    continuesName c = true := by
  simp only [startsVariable, Bool.or_eq_true] at starts
  rcases starts with underscore | upper
  · simp [continuesName, underscore]
  · simp [continuesName, isLetter, upper]

theorem startsSmall_push {text : String} (starts : startsSmall text = true) (c : Char) :
    startsSmall (text.push c) = true := by
  unfold startsSmall at starts ⊢
  rw [String.toList_push]
  cases first : text.toList with
  | nil => simp [first] at starts
  | cons d rest => simpa [first] using starts

theorem toList_front_one (here : Location) (c : Char) (rest : List Char) :
    (Lexeme.front here (c :: rest) 1).source.toList = [c] := by
  simp [Lexeme.front]

namespace TripleQuotedDraft

theorem begun_push {draft : TripleQuotedDraft} (begun : (Mode.tripleQuoted draft).Begun)
    (c : Char) : (Mode.tripleQuoted (draft.push c)).Begun := by
  obtain ⟨quotes, line⟩ := begun
  refine ⟨(draft.quotes_push c).symm ▸ quotes, ?_⟩
  simp only [push]
  split
  · exact line
  · split
    · exact line
    · rename_i inside
      simp [line, Ne.symm inside]

theorem begun_pushFront {draft : TripleQuotedDraft} (begun : (Mode.tripleQuoted draft).Begun)
    (text : List Char) (width : Nat) : (Mode.tripleQuoted (draft.pushFront text width)).Begun := by
  have pushed (front : List Char) (draft : TripleQuotedDraft)
      (begun : (Mode.tripleQuoted draft).Begun) :
      (Mode.tripleQuoted (front.foldl push draft)).Begun := by
    induction front generalizing draft with
    | nil => exact begun
    | cons c front ih => exact ih (draft.push c) (begun_push begun c)
  exact pushed (text.take width) draft begun

end TripleQuotedDraft

theorem QuotedDraft.begun_extend {draft : QuotedDraft} (begun : (Mode.quoted draft).Begun)
    (text : List Char) (width : Nat) (value : String) :
    (Mode.quoted ⟨draft.lexeme.extend text width, draft.quotation, draft.close, value⟩).Begun := by
  obtain ⟨opening, body, source, delimits⟩ := begun
  refine ⟨opening, body ++ text.take width, ?_, delimits⟩
  rw [Lexeme.toList_extend, source]
  rfl

theorem Proceeds.begun {ended : Bool} {here : Location} {mode next : Mode} {text : List Char}
    {width : Nat} (proceeds : Proceeds ended here mode text width next) (begun : mode.Begun) :
    next.Begun := by
  cases proceeds with
  | blank | marker | percent | comment | line | behindString => trivial
  | digit digit => simp [Mode.Begun, NumberDraft.ofDigit]
  | @smallName c rest lower =>
    refine ⟨?_, fun _ => ?_⟩
    · simp [continuesName_of_isLower lower]
    · simp [startsSmall, lower]
  | @variableName c rest starts =>
    refine ⟨?_, fun wrong => ?_⟩
    · simp [continuesName_of_startsVariable starts]
    · cases wrong
  | tilde rest =>
    refine ⟨?_, fun wrong => ?_⟩
    · simp
    · cases wrong
  | quotedAtom rest => exact ⟨_, _, toList_front_one here _ rest, rfl, rfl⟩
  | string rest => exact ⟨_, _, toList_front_one here _ rest, rfl, rfl⟩
  | sigilString closes => exact ⟨_, _, toList_front_one here _ _, closes⟩
  | tripleQuoted quotes => exact ⟨quotes, by simp⟩
  | sigilTripleQuoted quotes => exact ⟨quotes, by simp⟩
  | @name draft c rest continues =>
    obtain ⟨all, small⟩ := begun
    refine ⟨?_, fun atom => startsSmall_push (small atom) c⟩
    intro d listed
    simp only [String.toList_push, List.mem_append, List.mem_singleton] at listed
    rcases listed with old | rfl
    · exact all d old
    · exact continues
  | number draft text part positive =>
    intro none
    rw [Lexeme.toList_extend, List.append_eq_nil_iff] at none
    exact begun none.1
  | plain inside plain known => exact QuotedDraft.begun_extend begun _ _ _
  | escape inside escapes read => exact QuotedDraft.begun_extend begun _ _ _
  | lineBreak inside escapes read => exact QuotedDraft.begun_extend begun _ _ _
  | content draft c rest => exact TripleQuotedDraft.begun_push begun c
  | quotes draft text => exact TripleQuotedDraft.begun_pushFront begun text _

theorem NameDraft.begun_next (draft : NameDraft) : draft.next.Begun := by
  unfold next
  split
  · trivial
  · split <;> trivial
  · trivial

theorem Completes.begun {options : Options} {checking : Bool} {mode next : Mode} {kind : Kind}
    (completes : Completes options checking mode kind next) : next.Begun := by
  have suffix (start : Location) (quoted : Bool) :
      (Mode.name ⟨start, .sigilSuffix quoted, ""⟩).Begun := by
    refine ⟨?_, fun wrong => ?_⟩
    · simp
    · cases wrong
  cases completes with
  | name draft => exact draft.begun_next
  | sigilString sigil start quoted => exact suffix start quoted
  | emptySigil sigil start => exact suffix start true
  | tripleQuotedSigil sigils value start => exact suffix start false
  | _ => trivial

namespace State

theorem begun_of_suspended {options : Options} {extent : Extent} {ended : Bool}
    {state later : State} {text rest : List Char} (begun : state.mode.Begun)
    (suspends : state.run options extent ended text = .suspended later rest) :
    later.mode.Begun := by
  fun_induction State.run options extent ended state text with
  | case1 state text step =>
    obtain ⟨rfl, rfl⟩ := Halt.suspended.inj suspends
    exact begun
  | case2 state text step => cases suspends
  | case3 state text width next step ih => exact ih ((proceeds_of_read step).begun begun) suspends
  | case4 state text width kind lexeme next step state' stops => cases suspends
  | case5 state text width kind lexeme next step state' goes_on ih =>
    exact ih (completes_of_emit step).begun suspends
  | case6 state text width error step => cases suspends
  | case7 state text width error finish step => cases suspends

end State

/-! ## Sigils -/

/-- The text ends with the tilde and the name of the sigil. -/
def Sigil.Introduced (origin : Location) (before : List Char) (sigil : Sigil) : Prop :=
  ∃ front name, before = front ++ '~' :: name ∧ (∀ c ∈ name, continuesName c = true) ∧
    sigil.start = origin.walk front ∧ sigil.verbatim = !(name == ['s'] || name == ['b'])

/-- The string of a sigil has the sigil in front of it. -/
def Mode.Introduced (origin : Location) (before : List Char) : Mode → Prop
  | .sigil behind => behind.Introduced origin before
  | .quoted draft =>
    ∀ verbatim, draft.quotation = .sigil verbatim →
      ∃ behind : Sigil, behind.verbatim = verbatim ∧ behind.Introduced origin before
  | .tripleQuoted draft => ∀ sigil, draft.sigil = some sigil → sigil.Introduced origin before
  | .between | .comment | .name _ | .number _ | .afterString => True

theorem Proceeds.introduced {ended : Bool} {here : Location} {mode next : Mode}
    {text : List Char} {width : Nat} {origin : Location} {before : List Char}
    (proceeds : Proceeds ended here mode text width next)
    (introduced : mode.Introduced origin before) : next.Introduced origin before := by
  cases proceeds with
  | quotedAtom | string | tripleQuoted =>
    intro sigil wrong
    cases wrong
  | @sigilString sigil c close rest closes =>
    intro verbatim same
    exact ⟨sigil, Quotation.sigil.inj same, introduced⟩
  | @sigilTripleQuoted sigil text quotes =>
    intro other same
    exact Option.some.inj same ▸ introduced
  | plain | escape | lineBreak => exact introduced
  | content draft c rest =>
    intro sigil found
    rw [draft.sigil_push] at found
    exact introduced sigil found
  | quotes draft text =>
    intro sigil found
    rw [draft.sigil_pushFront] at found
    exact introduced sigil found
  | _ => trivial

/-- A name becomes a token as a whole, in front of the character that ends it. -/
theorem NameDraft.of_emit {options : Options} {draft : NameDraft} {text : List Char}
    {ended : Bool} {width : Nat} {kind : Kind} {lexeme : Lexeme} {next : Mode}
    (step : draft.move options text ended = .emit width kind lexeme next) :
    width = 0 ∧ kind = draft.kind options ∧ lexeme = ⟨draft.start, draft.source⟩ := by
  have completes (step : draft.complete options = .emit width kind lexeme next) :
      width = 0 ∧ kind = draft.kind options ∧ lexeme = ⟨draft.start, draft.source⟩ := by
    unfold complete at step
    split at step
    · cases step
    · obtain ⟨rfl, rfl, rfl, -⟩ := Move.emit.inj step
      exact ⟨rfl, rfl, rfl⟩
  cases text with
  | nil =>
    simp only [move] at step
    split at step
    · exact completes step
    · cases step
  | cons c rest =>
    simp only [move] at step
    split at step
    · cases step
    · exact completes step

theorem NameDraft.next_introduced {draft : NameDraft} {origin : Location} {before : List Char}
    (begun : (Mode.name draft).Begun) (start : draft.start = origin.walk before) :
    draft.next.Introduced origin (before ++ draft.source.toList) := by
  obtain ⟨here, role, name⟩ := draft
  have named (literal : String) : (name == literal) = (name.toList == literal.toList) := by
    rw [Bool.eq_iff_iff, beq_iff_eq, beq_iff_eq, String.toList_inj]
  cases role with
  | sigilPrefix =>
    refine ⟨before, name.toList, ?_, begun.1, start, ?_⟩
    · simp [source]
    · simp only [isVerbatim, named]
      rfl
  | sigilSuffix quoted =>
    cases quoted with
    | false => trivial
    | true =>
      simp only [next]
      split <;> trivial
  | _ => trivial

namespace State

variable {options : Options} {extent : Extent} {ended : Bool} {origin : Location}
  {text rest : List Char} {state : State}

theorem Amid.introduced {before : List Char} {lexeme emitted : Lexeme} {width : Nat} {kind : Kind}
    {next : Mode} (amid : state.Amid origin before lexeme) (begun : state.mode.Begun)
    (step : state.move options ended text = .emit width kind emitted next) :
    next.Introduced origin (before ++ (lexeme.extend text width).source.toList) := by
  obtain ⟨location, tokens, checking, mode⟩ := state
  cases completes_of_emit step with
  | name draft =>
    obtain ⟨rfl, -⟩ := NameDraft.of_emit step
    obtain rfl : lexeme = ⟨draft.start, draft.source⟩ := amid.holds
    exact NameDraft.next_introduced begun amid.start
  | _ => trivial

namespace Reached

theorem begun (reached : Reached options extent ended origin text state rest) :
    state.mode.Begun := by
  induction reached with
  | start => trivial
  | read earlier step ih => exact (proceeds_of_read step).begun ih
  | emit earlier step goes_on ih => exact (completes_of_emit step).begun

/-- All of the text is read before a state, held by it or in front of it, and the string of a
sigil has the sigil in front of it. -/
theorem introduced (reached : Reached options extent ended origin text state rest) :
    ∃ before lexeme, state.Amid origin before lexeme ∧
      text = before ++ (lexeme.source.toList ++ rest) ∧ state.mode.Introduced origin before := by
  induction reached with
  | start => exact ⟨[], _, amid_fresh origin [], rfl, trivial⟩
  | @read state rest width next earlier step ih =>
    obtain ⟨before, lexeme, amid, split, introduced⟩ := ih
    have later := (proceeds_of_read step).introduced introduced
    rw [← lexeme.extend_drop rest width] at split
    rcases amid.keeps step (by simp) (by simp) with held | ⟨rfl, _⟩
    · exact ⟨before, _, amid.read held, split, later⟩
    · exact ⟨_, _, amid.renew rfl, split.trans (List.append_assoc _ _ _).symm, trivial⟩
  | @emit state rest width kind emitted next earlier step goes_on ih =>
    obtain ⟨before, lexeme, amid, split, _⟩ := ih
    have later := amid.introduced earlier.begun step
    rw [← lexeme.extend_drop rest width] at split
    obtain ⟨rfl, holds⟩ := amid.keeps step (by simp) (by simp)
    exact ⟨_, _, amid.emit options kind holds, split.trans (List.append_assoc _ _ _).symm, later⟩

end Reached

end State

end ErlangLexer
