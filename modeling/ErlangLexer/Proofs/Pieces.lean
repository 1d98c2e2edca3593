import ErlangLexer.Proofs.FaultPlace
import ErlangLexer.Scan

/-!
# The pieces of a text

A scan reads its text in pieces: a token, a blank, a comment or, within a check
annotation, a marker. What has been read of the piece it is in is never lost:

* `Gap`: the pieces that are no tokens;
* `Mode.Holds`: a mode has read a lexeme and not yet made it a token;
* `Move.Keeps`: a move adds the characters it reads to that lexeme, and a token
  has all of it for its source text;
* `State.move_keeps`: so does every move in every mode, but at a triple-quoted string
  whose layout is at fault.
-/

namespace ErlangLexer

namespace Lexeme

/-- A lexeme with nothing read of it yet. -/
def empty (start : Location) : Lexeme := ⟨start, ""⟩

theorem toList_foldl_push (source : String) (text : List Char) :
    (text.foldl String.push source).toList = source.toList ++ text := by
  induction text generalizing source with
  | nil => simp
  | cons c text ih => simp [ih]

theorem toList_extend (lexeme : Lexeme) (text : List Char) (width : Nat) :
    (lexeme.extend text width).source.toList = lexeme.source.toList ++ text.take width :=
  toList_foldl_push lexeme.source (text.take width)

theorem extend_drop (lexeme : Lexeme) (text : List Char) (width : Nat) :
    (lexeme.extend text width).source.toList ++ text.drop width = lexeme.source.toList ++ text := by
  rw [toList_extend, List.append_assoc, List.take_append_drop]

theorem extend_zero (lexeme : Lexeme) (text : List Char) : lexeme.extend text 0 = lexeme := rfl

theorem extend_empty (start : Location) (text : List Char) (width : Nat) :
    (empty start).extend text width = front start text width := by
  have same : (text.take width).foldl String.push "" = String.ofList (text.take width) := by
    rw [← String.toList_inj, toList_foldl_push]
    simp
  simp only [extend, empty, front, same]

end Lexeme

/-- The text is at the end of its line. -/
def EndsLine (text : List Char) : Prop :=
  ∀ c, text.head? = some c → c = '\n'

/-- A piece that is no token, before the given text. -/
inductive Gap (checking : Bool) : List Char → List Char → Prop where
  | blank {c : Char} {behind : List Char} (blank : isBlank c = true) : Gap checking [c] behind
  /-- A comment goes on to the end of its line. -/
  | comment {body behind : List Char} (line : '\n' ∉ body) (ends : EndsLine behind) :
      Gap checking ('%' :: body) behind
  /-- A check annotation does not begin again before it has ended. -/
  | marker {behind : List Char} (within : checking = true) :
      Gap checking Comment.marker behind

theorem Gap.of_append {checking : Bool} {piece behind more : List Char}
    (gap : Gap checking piece (behind ++ more)) : Gap checking piece behind := by
  cases gap with
  | blank blank => exact .blank blank
  | comment line ends =>
    refine .comment line ?_
    intro c first
    exact ends c (by simp [first])
  | marker within => exact .marker within

/-- The first character is not text, so that no scan gets past it. -/
def Foreign (text : List Char) : Prop :=
  ∃ c rest, text = c :: rest ∧ isText c = false

/-- The lexeme is what a mode has read of the piece it is in. -/
def Mode.Holds (lexeme : Lexeme) : Mode → Prop
  | .between | .afterString | .sigil _ => lexeme.source = ""
  | .comment => ∃ body, lexeme.source.toList = '%' :: body ∧ '\n' ∉ body
  | .name draft => lexeme = ⟨draft.start, draft.source⟩
  | .number draft => lexeme = draft.lexeme
  | .quoted draft => lexeme = draft.lexeme
  | .tripleQuoted draft => lexeme = draft.lexeme ∧ draft.Made

/-- A move from `here`, in front of `text`, loses nothing of the lexeme that is held. It
is held with the characters read behind it, unless these end a gap; a token has it for
its source text, and the next mode has read nothing. An error is where the scan is. -/
def Move.Keeps (checking : Bool) (here : Location) (lexeme : Lexeme) (text : List Char) :
    Move → Prop
  | .read width next =>
    next.Holds (lexeme.extend text width) ∨
      (next = .between ∧
        (Gap checking (lexeme.extend text width).source.toList (text.drop width) ∨
          Foreign (text.drop width)))
  | .emit width _ emitted next =>
    emitted = lexeme.extend text width ∧ next.Holds (.empty (here.walk (text.take width)))
  | .finish => lexeme.source = ""
  | .wait | .fail _ _ => True
  | .reject _ _ _ => False

theorem Comment.move_keeps (checking : Bool) (here : Location) {lexeme : Lexeme}
    {body : List Char} (text : List Char) (ended : Bool)
    (opened : lexeme.source.toList = '%' :: body) (line : '\n' ∉ body) :
    (move text ended).Keeps checking here lexeme text := by
  have closes (ends : EndsLine text) :
      Gap checking (lexeme.extend text 0).source.toList (text.drop 0) := by
    rw [Lexeme.extend_zero, opened]
    exact .comment line ends
  cases text with
  | nil =>
    cases ended with
    | true => exact .inr ⟨rfl, .inl (closes (by simp [EndsLine]))⟩
    | false => trivial
  | cons c rest =>
    by_cases skipped : skips c = true
    · have inside : c ≠ '\n' ∧ isText c = true := by simpa [skips] using skipped
      simp only [move, skipped, ↓reduceIte]
      refine .inl ⟨body ++ [c], ?_, ?_⟩
      · simp [Lexeme.toList_extend, opened]
      · simp [line, inside.1.symm]
    · simp only [move, skipped, Bool.false_eq_true, ↓reduceIte]
      refine .inr ⟨rfl, ?_⟩
      by_cases known : isText c = true
      · have lineBreak : c = '\n' := by simpa [skips, known] using skipped
        refine .inl (closes ?_)
        intro d first
        rw [lineBreak] at first
        exact (Option.some.inj first).symm
      · exact .inr ⟨c, rest, rfl, by simpa using known⟩

theorem Comment.openMove_keeps (options : Options) (checking : Bool) (here : Location)
    (rest : List Char) (ended : Bool) :
    (openMove options checking here ('%' :: rest) ended).Keeps checking here (.empty here)
      ('%' :: rest) := by
  simp only [openMove]
  split
  · rename_i marked
    have front : ('%' :: rest).take 5 = marker := by
      simp only [Bool.and_eq_true, List.isPrefixOf_iff_prefix] at marked
      exact (List.prefix_iff_eq_take.mp marked.2).symm
    split
    · rename_i within
      refine .inr ⟨rfl, .inl ?_⟩
      rw [Lexeme.toList_extend, front]
      exact .marker within
    · exact ⟨(Lexeme.extend_empty here _ 5).symm, rfl⟩
  · split
    · trivial
    · refine .inl ⟨[], ?_, List.not_mem_nil⟩
      rw [Lexeme.toList_extend]
      rfl

theorem Move.keeps_token (checking : Bool) (here : Location) (text : List Char) (width : Nat)
    (kind : Kind) :
    (Move.emit width kind (.front here text width) .between).Keeps checking here (.empty here)
      text :=
  ⟨(Lexeme.extend_empty here text width).symm, rfl⟩

theorem CharLiteral.move_keeps (checking : Bool) (here : Location) (rest : List Char)
    (ended : Bool) :
    (move here rest ended).Keeps checking here (.empty here) ('$' :: rest) := by
  simp only [move]
  split
  · split <;> trivial
  · split
    · split
      · exact Move.keeps_token _ _ _ _ _
      · exact Move.keeps_token _ _ _ _ _
      · split <;> trivial
      · trivial
    · split
      · exact Move.keeps_token _ _ _ _ _
      · trivial

theorem Punctuation.move_keeps (checking : Bool) (here : Location) (c : Char) (rest : List Char)
    (ended : Bool) :
    (move checking here c rest ended).Keeps checking here (.empty here) (c :: rest) := by
  simp only [move]
  split
  · trivial
  · split
    · split
      · exact Move.keeps_token _ _ _ _ _
      · exact Move.keeps_token _ _ _ _ _
    · split
      · exact Move.keeps_token _ _ _ _ _
      · trivial

namespace NameDraft

theorem source_push (draft : NameDraft) (c : Char) :
    ({ draft with name := draft.name.push c } : NameDraft).source = draft.source.push c := by
  obtain ⟨start, role, name⟩ := draft
  cases role with
  | sigilPrefix => simp [source, ← String.toList_inj]
  | _ => rfl

theorem next_holds (draft : NameDraft) (here : Location) : draft.next.Holds (.empty here) := by
  simp only [next]
  repeat' split
  all_goals rfl

theorem complete_keeps (options : Options) (draft : NameDraft) (checking : Bool)
    (here : Location) (text : List Char) :
    (draft.complete options).Keeps checking here ⟨draft.start, draft.source⟩ text := by
  simp only [complete]
  split
  · trivial
  · exact ⟨rfl, draft.next_holds here⟩

theorem move_keeps (options : Options) (draft : NameDraft) (checking : Bool) (here : Location)
    (text : List Char) (ended : Bool) :
    (draft.move options text ended).Keeps checking here ⟨draft.start, draft.source⟩ text := by
  simp only [move]
  split
  · split
    · exact draft.complete_keeps options checking here []
    · trivial
  · split
    · exact .inl (congrArg (Lexeme.mk draft.start) (draft.source_push _).symm)
    · exact draft.complete_keeps options checking here _

end NameDraft

namespace NumberDraft

variable (draft : NumberDraft) (checking : Bool) (here : Location)

theorem readTo_keeps (text : List Char) (width : Nat) (part : NumberPart) :
    (draft.readTo text width part).Keeps checking here draft.lexeme text :=
  .inl rfl

theorem complete_keeps (text : List Char) :
    draft.complete.Keeps checking here draft.lexeme text := by
  simp only [complete]
  split
  · exact ⟨rfl, rfl⟩
  · trivial

theorem underscores_keeps (text : List Char) (ended : Bool) :
    (draft.underscores text ended).Keeps checking here draft.lexeme text := by
  simp only [underscores]
  split
  · split <;> trivial
  · split
    · exact draft.readTo_keeps checking here _ 2 _
    · split <;> trivial
  · exact draft.complete_keeps checking here _

theorem point_keeps (value : Nat) (text : List Char) (ended : Bool) :
    (draft.point value text ended).Keeps checking here draft.lexeme text := by
  simp only [point]
  split
  · split
    · exact draft.complete_keeps checking here text
    · trivial
  · split
    · exact draft.readTo_keeps checking here text 2 _
    · exact draft.complete_keeps checking here text

theorem mark_keeps (c : Char) (text : List Char) (ended : Bool) :
    (draft.mark c text ended).Keeps checking here draft.lexeme text := by
  simp only [mark, base]
  repeat' split
  · exact draft.point_keeps checking here _ text ended
  · exact draft.readTo_keeps checking here text 1 _
  · trivial
  · exact draft.complete_keeps checking here text
  · exact draft.readTo_keeps checking here text 1 _
  · exact draft.complete_keeps checking here text
  · exact draft.readTo_keeps checking here text 1 _
  · exact draft.readTo_keeps checking here text 1 _
  · exact draft.readTo_keeps checking here text 1 _
  · exact draft.complete_keeps checking here text
  · exact draft.complete_keeps checking here text
  · exact draft.complete_keeps checking here text

theorem move_keeps (text : List Char) (ended : Bool) :
    (draft.move text ended).Keeps checking here draft.lexeme text := by
  simp only [move]
  split
  · split
    · exact draft.complete_keeps checking here []
    · trivial
  · split
    · exact draft.readTo_keeps checking here _ 1 _
    · split
      · exact draft.underscores_keeps checking here _ ended
      · exact draft.mark_keeps checking here _ _ ended

end NumberDraft

namespace QuotedDraft

theorem openMove_keeps (checking : Bool) (here : Location) (quotation : Quotation) (close : Char)
    (text : List Char) :
    (openMove here quotation close text).Keeps checking here (.empty here) text :=
  .inl (Lexeme.extend_empty here text 1)

variable (draft : QuotedDraft) (checking : Bool) (here : Location)

theorem readValue_keeps (text : List Char) (width : Nat) (value : Char) :
    (draft.readValue text width value).Keeps checking here draft.lexeme text :=
  .inl rfl

theorem complete_keeps (rest : List Char) :
    (draft.complete here (draft.close :: rest)).Keeps checking here draft.lexeme
      (draft.close :: rest) := by
  simp only [complete]
  split
  · split
    · trivial
    · exact ⟨rfl, rfl⟩
  · exact ⟨rfl, rfl⟩
  · exact ⟨rfl, rfl⟩

theorem escape_keeps (text rest : List Char) (ended : Bool) :
    (draft.escape here text rest ended).Keeps checking here draft.lexeme text := by
  simp only [escape]
  split
  · exact draft.readValue_keeps checking here text _ _
  · exact draft.readValue_keeps checking here text 2 _
  · split <;> trivial
  · trivial

theorem move_keeps (text : List Char) (ended : Bool) :
    (draft.move here text ended).Keeps checking here draft.lexeme text := by
  simp only [move]
  split
  · split <;> trivial
  · split
    · subst_vars
      exact draft.complete_keeps checking here _
    · split
      · exact draft.escape_keeps checking here _ _ ended
      · split
        · exact draft.readValue_keeps checking here _ 1 _
        · trivial

end QuotedDraft

theorem AfterString.move_keeps (checking : Bool) (here : Location) (text : List Char)
    (ended : Bool) : (move here text ended).Keeps checking here (.empty here) text := by
  simp only [move]
  split
  · split
    · exact .inl rfl
    · trivial
  · split
    · trivial
    · exact .inl rfl

namespace TripleQuotedDraft

theorem made_openMove (here : Location) (sigil : Option Sigil) (text : List Char) :
    Made ⟨.front here text (runLength '"' text), runLength '"' text, sigil, "", none⟩ := by
  constructor
  · simp [Lexeme.front, interior, take_runLength]
  · simp
  · simp
  · simp

theorem openMove_keeps (checking : Bool) (here : Location) (sigil : Option Sigil)
    (text : List Char) :
    (openMove here sigil text (runLength '"' text)).Keeps checking here (.empty here) text :=
  .inl ⟨Lexeme.extend_empty here text _, made_openMove here sigil text⟩

theorem lexeme_pushFront (draft : TripleQuotedDraft) (text : List Char) (width : Nat) :
    (draft.pushFront text width).lexeme = draft.lexeme.extend text width := by
  have pushed (front : List Char) (draft : TripleQuotedDraft) :
      (front.foldl push draft).lexeme =
        ⟨draft.lexeme.start, front.foldl String.push draft.lexeme.source⟩ := by
    induction front generalizing draft with
    | nil => rfl
    | cons c front ih => rw [List.foldl_cons, ih, lexeme_push, List.foldl_cons]
  exact pushed (text.take width) draft

variable {draft : TripleQuotedDraft} (checking : Bool) (here : Location)

theorem complete_keeps (text : List Char) :
    (draft.complete here text).Keeps checking here draft.lexeme text ∨
      ∃ fault, draft.layout.value draft.isVerbatim = .error fault := by
  simp only [complete]
  split
  · split
    · exact .inl ⟨rfl, rfl⟩
    · exact .inl ⟨rfl, rfl⟩
  · rename_i misfit wrong
    exact .inr (exists_fault_of_value wrong)

theorem quoteRun_keeps (made : draft.Made) (text : List Char) (ended : Bool) :
    (draft.quoteRun here text ended).Keeps checking here draft.lexeme text ∨
      runLength '"' text = draft.quotes ∧
        ∃ fault, draft.layout.value draft.isVerbatim = .error fault := by
  simp only [quoteRun]
  split
  · exact .inl trivial
  · split
    · rename_i closes
      exact (complete_keeps checking here text).imp_right fun faulty => ⟨closes, faulty⟩
    · exact .inl (.inl ⟨(draft.lexeme_pushFront text _).symm, made_pushFront made text _⟩)

theorem move_keeps (made : draft.Made) (text : List Char) (ended : Bool) :
    (draft.move here text ended).Keeps checking here draft.lexeme text ∨
      ∃ fault, draft.AtFault text fault := by
  simp only [move]
  split
  · exact .inl (by split <;> trivial)
  · split
    · exact .inl trivial
    · split
      · rename_i quote
        simp only [Bool.and_eq_true, beq_iff_eq] at quote
        obtain ⟨rfl, closes⟩ := quote
        rcases quoteRun_keeps checking here made _ ended with keeps | ⟨run, fault, value⟩
        · exact .inl keeps
        · exact .inr ⟨fault, closes, rfl, run, value⟩
      · exact .inl (.inl ⟨(draft.lexeme_push _).symm, made_push made _⟩)

/-- At a fault the literal is read, and rejected where the fault is. -/
theorem exists_reject {text : List Char} {fault : Layout.Fault} (ended : Bool)
    (faulty : draft.AtFault text fault) :
    draft.move here text ended = .wait ∨
      ∃ location, draft.PlacedAt here fault.offset location ∧
        draft.move here text ended = .reject draft.quotes ⟨location, fault.cause⟩
          (location.shift fault.width) := by
  obtain ⟨closes, first, run, laid⟩ := faulty
  obtain ⟨location, placed, value⟩ := value_of_fault here laid
  cases text with
  | nil => cases first
  | cons c rest =>
    obtain rfl := Option.some.inj first
    have known : isText '"' = true := by decide
    simp only [move, known, closes, quoteRun, run, complete, value, Bool.not_true,
      Bool.false_eq_true, ↓reduceIte, beq_self_eq_true, Bool.and_self]
    split
    · exact .inl rfl
    · exact .inr ⟨location, placed, rfl⟩

theorem move_of_atFault {text : List Char} {fault : Layout.Fault} (ended : Bool)
    (made : draft.Made) (columns : here.hasColumn = draft.lexeme.start.hasColumn)
    (faulty : draft.AtFault text fault) :
    draft.move here text ended = .wait ∨
      draft.move here text ended = .reject draft.quotes ⟨draft.locate fault.offset, fault.cause⟩
        ((draft.locate fault.offset).shift fault.width) := by
  rcases exists_reject here ended faulty with waits | ⟨location, placed, rejects⟩
  · exact .inl waits
  · rw [placed.eq_locate made columns] at rejects
    exact .inr rejects

end TripleQuotedDraft

theorem QuoteRun.move_keeps (checking : Bool) (here : Location) (sigil : Option Sigil)
    (text : List Char) (ended : Bool) :
    (move here sigil text ended).Keeps checking here (.empty here) text := by
  simp only [move]
  split
  · trivial
  · split
    · exact QuotedDraft.openMove_keeps checking here _ _ text
    · split
      · refine ⟨(Lexeme.extend_empty here text 2).symm, ?_⟩
        cases sigil with
        | none => rfl
        | some => rfl
      · exact TripleQuotedDraft.openMove_keeps checking here sigil text

theorem Sigil.move_keeps (sigil : Sigil) (checking : Bool) (here : Location) (text : List Char)
    (ended : Bool) : (sigil.move here text ended).Keeps checking here (.empty here) text := by
  simp only [move]
  split
  · split <;> trivial
  · split
    · exact QuoteRun.move_keeps checking here (some sigil) _ ended
    · split
      · exact QuotedDraft.openMove_keeps checking here _ _ _
      · trivial

theorem Between.move_keeps (options : Options) (checking : Bool) (here : Location)
    (text : List Char) (ended : Bool) :
    (move options checking here text ended).Keeps checking here (.empty here) text := by
  simp only [move]
  split
  · split
    · exact rfl
    · trivial
  repeat' split
  · rename_i blank
    refine .inr ⟨rfl, .inl ?_⟩
    rw [Lexeme.toList_extend]
    exact .blank blank
  · exact .inl rfl
  · exact .inl rfl
  · exact .inl rfl
  · exact QuoteRun.move_keeps checking here none _ ended
  · exact QuotedDraft.openMove_keeps checking here _ _ _
  · subst_vars
    exact CharLiteral.move_keeps checking here _ ended
  · subst_vars
    exact .inl rfl
  · subst_vars
    exact Comment.openMove_keeps options checking here _ ended
  · exact Punctuation.move_keeps checking here _ _ ended

/-- The scan is at the end of a triple-quoted string whose layout is at fault. -/
def State.AtFault (state : State) (text : List Char) : Prop :=
  ∃ draft fault, state.mode = .tripleQuoted draft ∧ draft.AtFault text fault

/-- Every move keeps the lexeme that its mode holds, but at a fault of layout. -/
theorem State.move_keeps (options : Options) (ended : Bool) (state : State) (text : List Char)
    {lexeme : Lexeme} (here : state.location = lexeme.start.walk lexeme.source.toList)
    (holds : state.mode.Holds lexeme) :
    (state.move options ended text).Keeps state.checking state.location lexeme text ∨
      state.AtFault text := by
  obtain ⟨location, tokens, checking, mode⟩ := state
  have nothing (unread : lexeme.source = "") : lexeme = .empty location := by
    obtain ⟨start, source⟩ := lexeme
    subst unread
    exact congrArg (Lexeme.mk · "") here.symm
  cases mode with
  | between =>
    rw [nothing holds]
    exact .inl (Between.move_keeps options checking location text ended)
  | comment =>
    obtain ⟨body, opened, line⟩ := holds
    exact .inl (Comment.move_keeps checking location text ended opened line)
  | name draft =>
    subst holds
    exact .inl (draft.move_keeps options checking location text ended)
  | number draft =>
    subst holds
    exact .inl (draft.move_keeps checking location text ended)
  | quoted draft =>
    subst holds
    exact .inl (draft.move_keeps checking location text ended)
  | afterString =>
    rw [nothing holds]
    exact .inl (AfterString.move_keeps checking location text ended)
  | sigil sigil =>
    rw [nothing holds]
    exact .inl (sigil.move_keeps checking location text ended)
  | tripleQuoted draft =>
    obtain ⟨rfl, made⟩ := holds
    rcases TripleQuotedDraft.move_keeps checking location made text ended with keeps | faulty
    · exact .inl keeps
    · obtain ⟨fault, faulty⟩ := faulty
      exact .inr ⟨draft, fault, rfl, faulty⟩

theorem State.move_of_atFault (options : Options) (ended : Bool) {state : State}
    {text : List Char} (faulty : state.AtFault text) :
    state.move options ended text = .wait ∨
      ∃ width error finish, state.move options ended text = .reject width error finish := by
  obtain ⟨location, tokens, checking, mode⟩ := state
  obtain ⟨draft, fault, rfl, at_fault⟩ := faulty
  rcases TripleQuotedDraft.exists_reject location ended at_fault with waits | ⟨_, -, rejects⟩
  · exact .inl waits
  · exact .inr ⟨_, _, _, rejects⟩

end ErlangLexer
