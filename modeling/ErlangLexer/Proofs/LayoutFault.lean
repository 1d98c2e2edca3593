import ErlangLexer.Lexeme.TripleQuoted
import ErlangLexer.Proofs.Position
import Mathlib.Data.List.TakeWhile

/-!
# Faults of layout

A triple-quoted string is read to its closing quotes before its layout is looked at, so a
fault is always found on a line that is over:

* `Layout`: a literal divided into its lines, with no regard to where it is in the source;
* `Layout.value`: its value, or the first fault with its offset in the text of the literal;
* `Layout.lineBreak_behind_fault`: behind the offset of a fault the text goes on to a
  line break;
* `TripleQuotedDraft.Made`: a literal being read is made of its layout, and stays so
  with every character.
-/

namespace ErlangLexer

/-- A triple-quoted string whose closing quotes have been found. Content lines keep
their line breaks. -/
structure Layout where
  quotes : Nat
  opening : List Char
  lines : List (List Char)
  indent : List Char
  deriving DecidableEq

namespace Layout

/-- What is wrong, at which offset in the source text, and how many characters it takes. -/
structure Fault where
  cause : Cause
  offset : Nat
  width : Nat
  deriving DecidableEq

/-- The offset of the first character that breaks the indentation. -/
def badIndent? (indent : List Char) (offset : Nat) : List (List Char) → Option Nat
  | [] => none
  | line :: lines =>
    match stripLine indent line with
    | none => some (offset + mismatch indent line)
    | some _ => badIndent? indent (offset + line.length) lines

/-- The stripped lines with their escapes decoded, or the first faulty escape. -/
def decodeLines (indent : List Char) (offset : Nat) :
    List (List Char) → Except Escape.Fault (List Char)
  | [] => .ok []
  | line :: lines =>
    match Escape.decodeFrom (offset + indent.length) ((stripLine indent line).getD []) with
    | .error fault => .error fault
    | .ok value => (decodeLines indent (offset + line.length) lines).map (value ++ ·)

/-- The stripped lines as they are. -/
def plainLines (indent : List Char) (lines : List (List Char)) : List Char :=
  (lines.filterMap (stripLine indent)).flatten

/-- The offset of the first content line. -/
def bodyOffset (layout : Layout) : Nat :=
  layout.quotes + layout.opening.length + 1

/-- The value of a string, or what is wrong with its layout. -/
def value (layout : Layout) (verbatim : Bool) : Except Fault (List Char) :=
  match layout.opening.findIdx? fun c => !isInlineBlank c with
  | some index => .error ⟨.whiteSpace, layout.quotes + index, 1⟩
  | none =>
    match badIndent? layout.indent layout.bodyOffset layout.lines with
    | some offset => .error ⟨.indentation, offset, 1⟩
    | none =>
      if verbatim then .ok (dropLastBreak layout.lines (plainLines layout.indent layout.lines))
      else
        match decodeLines layout.indent layout.bodyOffset layout.lines with
        | .error fault => .error ⟨.illegal .character, fault.offset, fault.width⟩
        | .ok content => .ok (dropLastBreak layout.lines content)

end Layout

/-- The layout of the literal, should the quotes in front close it. -/
def TripleQuotedDraft.layout (draft : TripleQuotedDraft) : Layout :=
  ⟨draft.quotes, draft.opening.toList, draft.lines.map (·.text.toList), draft.indent⟩

/-- Where an offset of the literal is in the source. -/
def TripleQuotedDraft.locate (draft : TripleQuotedDraft) (offset : Nat) : Location :=
  draft.lexeme.start.walk (draft.lexeme.source.toList.take offset)

theorem mem_drop_of_getLast? {α : Type} {list : List α} {a : α} {offset : Nat}
    (last : list.getLast? = some a) (within : offset < list.length) : a ∈ list.drop offset := by
  apply List.mem_of_getLast?
  rw [List.getLast?_drop, if_neg (by omega)]
  exact last

theorem Escape.fault_within {offset : Nat} {text : List Char} {fault : Escape.Fault}
    (faulty : decodeFrom offset text = .error fault) :
    offset ≤ fault.offset ∧ fault.offset < offset + text.length := by
  have map_error {α : Type} {f : List Char → α} {result : Except Escape.Fault (List Char)}
      (h : result.map f = .error fault) : result = .error fault := by
    cases result with
    | ok value => cases h
    | error found => exact congrArg Except.error (Except.error.inj h)
  fun_induction decodeFrom offset text with
  | case1 => cases faulty
  | case2 offset rest value width read ih =>
    have later := ih (map_error faulty)
    simp only [List.length_drop, List.length_cons] at later ⊢
    omega
  | case3 offset rest read ih =>
    have later := ih (map_error faulty)
    simp only [List.length_drop, List.length_cons] at later ⊢
    omega
  | case4 offset rest read =>
    obtain rfl := Except.error.inj faulty
    simp
  | case5 offset rest width read =>
    obtain rfl := Except.error.inj faulty
    simp
  | case6 offset c rest plain ih =>
    have later := ih (map_error faulty)
    simp only [List.length_cons]
    omega

namespace Layout

/-- The text of a literal with this layout, up to its closing quotes. -/
def source (layout : Layout) : List Char :=
  List.replicate layout.quotes '"' ++
    (layout.opening ++ '\n' :: (layout.lines.flatten ++ layout.indent))

theorem mismatch_lt (indent : List Char) {line : List Char} (some_text : line ≠ []) :
    mismatch indent line < line.length := by
  have positive := List.length_pos_iff.mpr some_text
  unfold mismatch
  cases found : (line.zip indent).findIdx? fun pair => pair.1 != pair.2 with
  | none => exact positive
  | some index =>
    have short := (List.findIdx?_eq_some_iff_findIdx_eq.mp found).1
    rw [List.length_zip] at short
    simp only [Option.getD_some]
    omega

theorem lineBreak_mem_flatten {line : List Char} (lines : List (List Char)) {k : Nat}
    (ends : line.getLast? = some '\n') (within : k < line.length) :
    '\n' ∈ (line :: lines).flatten.drop k := by
  rw [List.flatten_cons, List.drop_append_of_le_length (Nat.le_of_lt within)]
  exact List.mem_append_left _ (mem_drop_of_getLast? ends within)

theorem drop_flatten_cons (line : List Char) (lines : List (List Char)) (k : Nat) :
    (line :: lines).flatten.drop (line.length + k) = lines.flatten.drop k := by
  rw [List.flatten_cons, List.drop_append]
  simp

theorem badIndent?_spec (indent : List Char) {offset found : Nat} {lines : List (List Char)}
    (ends : ∀ line ∈ lines, line.getLast? = some '\n')
    (bad : badIndent? indent offset lines = some found) :
    ∃ k, found = offset + k ∧ '\n' ∈ lines.flatten.drop k := by
  induction lines generalizing offset with
  | nil => cases bad
  | cons line lines ih =>
    have last := ends line List.mem_cons_self
    unfold badIndent? at bad
    split at bad
    · obtain rfl := Option.some.inj bad
      have some_text : line ≠ [] := by
        rintro rfl
        cases last
      exact ⟨_, rfl, lineBreak_mem_flatten lines last (mismatch_lt indent some_text)⟩
    · obtain ⟨k, rfl, behind⟩ :=
        ih (fun line listed => ends line (List.mem_cons_of_mem _ listed)) bad
      refine ⟨line.length + k, by omega, ?_⟩
      rw [drop_flatten_cons]
      exact behind

/-- A faulty escape is in a line that has the indentation: a blank line has no escapes. -/
theorem fault_within_line {indent line : List Char} {offset : Nat} {fault : Escape.Fault}
    (faulty : Escape.decodeFrom (offset + indent.length) ((stripLine indent line).getD []) =
      .error fault) :
    ∃ k, fault.offset = offset + k ∧ k < line.length := by
  have within := Escape.fault_within faulty
  by_cases indented : indent.isPrefixOf line = true
  · simp only [stripLine, indented, ↓reduceIte, Option.getD_some, List.length_drop] at within
    exact ⟨fault.offset - offset, by omega, by omega⟩
  · exfalso
    simp only [stripLine, indented, Bool.false_eq_true, ↓reduceIte] at faulty
    split at faulty
    · simp [Escape.decodeFrom, Except.map] at faulty
    · simp [Escape.decodeFrom] at faulty

theorem decodeLines_spec {indent : List Char} {offset : Nat} {lines : List (List Char)}
    {fault : Escape.Fault} (ends : ∀ line ∈ lines, line.getLast? = some '\n')
    (faulty : decodeLines indent offset lines = .error fault) :
    ∃ k, fault.offset = offset + k ∧ '\n' ∈ lines.flatten.drop k := by
  induction lines generalizing offset with
  | nil => cases faulty
  | cons line lines ih =>
    unfold decodeLines at faulty
    split at faulty
    · rename_i found decoded
      obtain rfl := Except.error.inj faulty
      obtain ⟨k, at_offset, within⟩ := fault_within_line decoded
      exact ⟨k, at_offset, lineBreak_mem_flatten lines (ends line List.mem_cons_self) within⟩
    · cases later : decodeLines indent (offset + line.length) lines with
      | ok value =>
        rw [later] at faulty
        cases faulty
      | error found =>
        rw [later] at faulty
        obtain rfl := Except.error.inj faulty
        obtain ⟨k, at_offset, behind⟩ :=
          ih (fun line listed => ends line (List.mem_cons_of_mem _ listed)) later
        refine ⟨line.length + k, by omega, ?_⟩
        rw [drop_flatten_cons]
        exact behind

/-- A line break behind an offset of the lines is one behind their offset in the literal. -/
theorem mem_drop_source {layout : Layout} {k : Nat}
    (behind : '\n' ∈ layout.lines.flatten.drop k) :
    '\n' ∈ layout.source.drop (layout.bodyOffset + k) := by
  have before : (List.replicate layout.quotes '"' ++ (layout.opening ++ ['\n'])).length =
      layout.bodyOffset := by
    simp only [bodyOffset, List.length_append, List.length_replicate, List.length_singleton]
    omega
  have whole : layout.source = (List.replicate layout.quotes '"' ++ (layout.opening ++ ['\n'])) ++
      (layout.lines.flatten ++ layout.indent) := by
    simp [source]
  rw [whole, ← before, List.drop_append]
  simp only [Nat.add_sub_cancel_left, List.drop_append]
  exact List.mem_append_right _ (List.mem_append_left _ behind)

/-- **A fault is not on the last line.** Behind the offset of a fault of layout the text of
the literal goes on to a line break. -/
theorem lineBreak_behind_fault {layout : Layout} {verbatim : Bool} {fault : Fault}
    (ends : ∀ line ∈ layout.lines, line.getLast? = some '\n')
    (faulty : layout.value verbatim = .error fault) :
    '\n' ∈ layout.source.drop fault.offset := by
  unfold value at faulty
  split at faulty
  · rename_i index found
    obtain rfl := Except.error.inj faulty
    have short := (List.findIdx?_eq_some_iff_findIdx_eq.mp found).1
    have skip : layout.source.drop (layout.quotes + index) =
        (layout.opening ++ '\n' :: (layout.lines.flatten ++ layout.indent)).drop index := by
      rw [source, List.drop_append]
      simp
    rw [skip, List.drop_append_of_le_length (Nat.le_of_lt short)]
    simp
  · split at faulty
    · rename_i offset found
      obtain rfl := Except.error.inj faulty
      obtain ⟨k, rfl, behind⟩ := badIndent?_spec layout.indent ends found
      exact mem_drop_source behind
    · split at faulty
      · cases faulty
      · split at faulty
        · rename_i found decoded
          obtain rfl := Except.error.inj faulty
          obtain ⟨k, at_offset, behind⟩ := decodeLines_spec ends decoded
          simp only [at_offset]
          exact mem_drop_source behind
        · cases faulty

end Layout

/-! ## The parts of a literal being read -/

namespace TripleQuotedBody

/-- Every whole line has its line break. -/
def LinesEnd (body : TripleQuotedBody) : Prop :=
  ∀ line ∈ body.lines.toList, line.text.toList.getLast? = some '\n'

theorem content_push (body : TripleQuotedBody) (c : Char) :
    (body.push c).content = body.content ++ [c] := by
  unfold push
  split
  · subst_vars
    simp [content, empty]
  · simp [content]

theorem linesEnd_push {body : TripleQuotedBody} (ends : body.LinesEnd) (c : Char) :
    (body.push c).LinesEnd := by
  unfold push
  split
  · subst_vars
    intro line listed
    rw [Array.toList_push] at listed
    rcases List.mem_append.mp listed with old | new
    · exact ends line old
    · obtain rfl := List.mem_singleton.mp new
      simp
  · exact ends

/-- Each line is stored with the line of the source that it is. The body starts at `origin`. -/
structure Placed (origin : Location) (body : TripleQuotedBody) : Prop where
  lines : ∀ above line below, body.lines.toList = above ++ line :: below →
    '\n' ∉ line.text.toList.dropLast ∧
      line.line = (origin.walk (above.map (·.text.toList)).flatten).line
  current : '\n' ∉ body.current.toList
  line : body.line = (origin.walk body.content).line

theorem placed_empty (origin : Location) : (empty origin.line).Placed origin where
  lines := by simp [empty]
  current := by simp [empty]
  line := by simp [empty, content]

theorem line_walk_inline (origin : Location) {text : List Char} (inline : '\n' ∉ text) :
    (origin.walk text).line = origin.line := by
  rw [origin.walk_inline inline]
  rfl

theorem placed_push {origin : Location} {body : TripleQuotedBody} (placed : body.Placed origin)
    (c : Char) : (body.push c).Placed origin := by
  obtain ⟨lines, current, line⟩ := placed
  have content := body.content_push c
  by_cases ends : c = '\n'
  · subst ends
    have whole : (body.push '\n').lines.toList =
        body.lines.toList ++ [⟨body.line, body.current.push '\n'⟩] := by simp [push]
    refine ⟨?_, by simp [push, empty], ?_⟩
    · intro above stored below split
      rw [whole] at split
      rcases List.eq_nil_or_concat below with rfl | ⟨below, last, rfl⟩
      · obtain ⟨rfl, same⟩ := List.append_inj' split rfl
        obtain rfl := List.singleton_inj.mp same
        refine ⟨by simpa using current, ?_⟩
        have here := line_walk_inline
          (origin.walk (body.lines.toList.map (·.text.toList)).flatten) current
        rw [← Location.walk_append] at here
        exact line.trans here
      · have front : body.lines.toList = above ++ stored :: below := by
          rw [List.concat_eq_append, ← List.cons_append, ← List.append_assoc] at split
          exact (List.append_inj' split rfl).1
        exact lines above stored below front
    · have next : (body.push '\n').line = Location.lineBelow body.line := by simp [push, empty]
      rw [content, Location.walk_append, next, line]
      rfl
  · have pushed : body.push c =
        ⟨body.lines, body.line, body.current.push c, body.blank && isInlineBlank c, by
          simp [body.blank_eq]⟩ := if_neg ends
    have inline : '\n' ∉ [c] := by simpa using Ne.symm ends
    refine ⟨?_, ?_, ?_⟩
    · rw [pushed]
      exact lines
    · simp [pushed, current, Ne.symm ends]
    · rw [content, Location.walk_append, line_walk_inline _ inline, pushed]
      exact line

end TripleQuotedBody

namespace TripleQuotedDraft

/-- What has been read behind the opening quotes. -/
def interior (draft : TripleQuotedDraft) : List Char :=
  draft.opening.toList ++
    match draft.body with
    | none => []
    | some body => '\n' :: body.content

/-- Where the first content line starts. -/
def bodyStart (draft : TripleQuotedDraft) : Location :=
  draft.lexeme.start.walk (List.replicate draft.quotes '"' ++ (draft.opening.toList ++ ['\n']))

/-- The source text of the literal is made of its parts, and its lines are where it has them. -/
structure Made (draft : TripleQuotedDraft) : Prop where
  source : draft.lexeme.source.toList = List.replicate draft.quotes '"' ++ draft.interior
  lines : ∀ body, draft.body = some body → body.LinesEnd
  opening : '\n' ∉ draft.opening.toList
  placed : ∀ body, draft.body = some body → body.Placed draft.bodyStart

theorem lexeme_push (draft : TripleQuotedDraft) (c : Char) :
    (draft.push c).lexeme = ⟨draft.lexeme.start, draft.lexeme.source.push c⟩ := by
  simp only [push]
  split
  · rfl
  · split <;> rfl

theorem quotes_push (draft : TripleQuotedDraft) (c : Char) :
    (draft.push c).quotes = draft.quotes := by
  simp only [push]
  split
  · rfl
  · split <;> rfl

theorem interior_push (draft : TripleQuotedDraft) (c : Char) :
    (draft.push c).interior = draft.interior ++ [c] := by
  obtain ⟨lexeme, quotes, sigil, opening, body⟩ := draft
  cases body with
  | some body => simp [push, interior, body.content_push]
  | none =>
    by_cases ends : c = '\n'
    · simp [push, interior, ends, TripleQuotedBody.content, TripleQuotedBody.empty]
    · simp [push, interior, ends]

theorem source_push {draft : TripleQuotedDraft}
    (source : draft.lexeme.source.toList = List.replicate draft.quotes '"' ++ draft.interior)
    (c : Char) : (draft.push c).lexeme.source.toList =
      List.replicate (draft.push c).quotes '"' ++ (draft.push c).interior := by
  rw [lexeme_push, quotes_push, interior_push, ← List.append_assoc, ← source]
  simp

theorem line_bodyStart {draft : TripleQuotedDraft} (inline : '\n' ∉ draft.opening.toList) :
    draft.bodyStart.line = Location.lineBelow draft.lexeme.start.line := by
  have front : '\n' ∉ List.replicate draft.quotes '"' ++ draft.opening.toList := by
    simp [inline]
  have line := TripleQuotedBody.line_walk_inline draft.lexeme.start front
  rw [bodyStart, ← List.append_assoc, Location.walk_append, ← line]
  rfl

theorem made_push {draft : TripleQuotedDraft} (made : draft.Made) (c : Char) :
    (draft.push c).Made := by
  have source := source_push made.source c
  have first := line_bodyStart made.opening
  obtain ⟨lexeme, quotes, sigil, opening, old⟩ := draft
  cases old with
  | some old =>
    refine ⟨source, ?_, made.opening, ?_⟩
    · intro body pushed
      obtain rfl := Option.some.inj pushed
      exact TripleQuotedBody.linesEnd_push (made.lines old rfl) c
    · intro body pushed
      obtain rfl := Option.some.inj pushed
      exact TripleQuotedBody.placed_push (made.placed old rfl) c
  | none =>
    by_cases ends : c = '\n'
    · subst ends
      refine ⟨source, ?_, made.opening, ?_⟩
      · intro body pushed
        obtain rfl := Option.some.inj pushed
        simp [TripleQuotedBody.LinesEnd, TripleQuotedBody.empty]
      · intro body pushed
        obtain rfl := Option.some.inj pushed
        dsimp only
        rw [← first]
        exact TripleQuotedBody.placed_empty _
    · have pushed : push ⟨lexeme, quotes, sigil, opening, none⟩ c =
          ⟨⟨lexeme.start, lexeme.source.push c⟩, quotes, sigil, opening.push c, none⟩ :=
        if_neg ends
      have inline : '\n' ∉ opening.toList := made.opening
      rw [pushed] at source ⊢
      refine ⟨source, by simp, ?_, by simp⟩
      simp [inline, Ne.symm ends]

theorem made_foldl {draft : TripleQuotedDraft} (made : draft.Made) (text : List Char) :
    (text.foldl push draft).Made := by
  induction text generalizing draft with
  | nil => exact made
  | cons c text ih => exact ih (made_push made c)

theorem made_pushFront {draft : TripleQuotedDraft} (made : draft.Made) (text : List Char)
    (width : Nat) : (draft.pushFront text width).Made :=
  made_foldl made (text.take width)

theorem source_layout {draft : TripleQuotedDraft} (made : draft.Made)
    (closes : draft.mayClose = true) : draft.lexeme.source.toList = draft.layout.source := by
  rw [made.source]
  obtain ⟨lexeme, quotes, sigil, opening, body⟩ := draft
  cases body with
  | none => cases closes
  | some body => simp [interior, Layout.source, layout, lines, indent, TripleQuotedBody.content]

/-- The quotes in front close the literal, and its layout is at fault. -/
def AtFault (draft : TripleQuotedDraft) (text : List Char) (fault : Layout.Fault) : Prop :=
  draft.mayClose = true ∧ text.head? = some '"' ∧ runLength '"' text = draft.quotes ∧
    draft.layout.value draft.isVerbatim = .error fault

theorem lines_layout {draft : TripleQuotedDraft} (made : draft.Made) :
    ∀ line ∈ draft.layout.lines, line.getLast? = some '\n' := by
  intro line listed
  obtain ⟨stored, here, rfl⟩ := List.mem_map.mp listed
  cases body : draft.body with
  | none => simp [lines, body] at here
  | some whole =>
    simp only [lines, body, Option.map_some, Option.getD_some] at here
    exact made.lines whole body stored here

/-- A line break stands between a fault and the closing quotes. -/
theorem lineBreak_behind_fault {draft : TripleQuotedDraft} {text : List Char}
    {fault : Layout.Fault} (made : draft.Made) (faulty : draft.AtFault text fault) :
    '\n' ∈ draft.lexeme.source.toList.drop fault.offset := by
  obtain ⟨closes, _, _, value⟩ := faulty
  rw [source_layout made closes]
  exact Layout.lineBreak_behind_fault (lines_layout made) value

end TripleQuotedDraft

theorem take_runLength (c : Char) (text : List Char) :
    text.take (runLength c text) = List.replicate (runLength c text) c := by
  have front : text.take (runLength c text) = text.takeWhile (· == c) :=
    (List.prefix_iff_eq_take.mp (List.takeWhile_prefix _)).symm
  rw [front, List.eq_replicate_iff]
  refine ⟨rfl, ?_⟩
  intro d listed
  simpa using List.mem_takeWhile_imp listed

theorem head?_drop_runLength (c : Char) (text : List Char) :
    (text.drop (runLength c text)).head? ≠ some c := by
  induction text with
  | nil => simp
  | cons d text ih =>
    by_cases same : d = c
    · subst same
      simpa [runLength] using ih
    · simp [runLength, same]

end ErlangLexer
