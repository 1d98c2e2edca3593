import ErlangLexer.Proofs.LayoutFault

/-!
# Where a fault of layout is

At its closing quotes a literal is looked at line by line, from the last one up, and a fault is
reported on the line that is stored with the one it is on. This comes to the same as to look at
the text of the literal from its beginning and to walk to the fault:

* `Layout.strip_eq`, `Layout.exists_bad`: looked at upwards, the lines are stripped as they are
  downwards, or the topmost one that cannot be is told;
* `TripleQuotedDraft.PlacedAt`: the offset of a character and the location that is told for it;
* `TripleQuotedDraft.value_agrees`: the literal comes to the value of its layout, or to the
  first fault of it;
* `TripleQuotedDraft.PlacedAt.eq_locate`: the location is the one that a walk over the text of
  the literal leads to.
-/

namespace ErlangLexer

namespace Escape

/-- The fault in a text with more in front. -/
def Fault.behind (front : Nat) (fault : Fault) : Fault :=
  ⟨front + fault.offset, fault.width⟩

theorem mapError_map {f : List Char → List Char} (front : Nat)
    (result : Except Fault (List Char)) :
    (result.mapError (Fault.behind front)).map f = (result.map f).mapError (.behind front) := by
  cases result <;> rfl

theorem decodeFrom_add (front offset : Nat) (text : List Char) :
    decodeFrom (front + offset) text = (decodeFrom offset text).mapError (.behind front) := by
  fun_induction decodeFrom offset text with
  | case1 offset =>
    rw [decodeFrom]
    rfl
  | case2 offset rest value width read ih =>
    rw [decodeFrom, ← mapError_map, ← ih]
    simp only [↓reduceIte, read, Nat.add_assoc]
  | case3 offset rest read ih =>
    rw [decodeFrom, ← mapError_map, ← ih]
    simp only [↓reduceIte, read, Nat.add_assoc]
  | case4 offset rest read =>
    rw [decodeFrom]
    simp only [↓reduceIte, read]
    rfl
  | case5 offset rest width read =>
    rw [decodeFrom]
    simp only [↓reduceIte, read]
    rfl
  | case6 offset c rest plain ih =>
    rw [decodeFrom, ← mapError_map, ← ih, if_neg plain, Nat.add_assoc]

/-- A text is decoded as it is by itself, or its first fault is further behind. -/
theorem decodeFrom_eq (offset : Nat) (text : List Char) :
    decodeFrom offset text = (decodeText text).mapError (.behind offset) :=
  decodeFrom_add offset 0 text

end Escape

namespace Layout

variable {indent : List Char} {offset : Nat} {lines : List ContentLine}

/-- Lines that have the indentation lose it. -/
theorem strip_eq (passes : badIndent? indent offset (lines.map (·.text.toList)) = none) :
    strip indent lines = ⟨(lines.map (·.text.toList)).filterMap (stripLine indent), none⟩ := by
  induction lines generalizing offset with
  | nil => rfl
  | cons line lines ih =>
    rw [List.map_cons, badIndent?] at passes
    cases strips : stripLine indent line.text.toList with
    | none => simp [strips] at passes
    | some text =>
      rw [strips] at passes
      have below := ih passes
      rw [strip] at below
      rw [strip, List.foldr_cons, below, Stripped.add, strips, List.map_cons,
        List.filterMap_cons_some strips]

/-- Of the lines that lack the indentation the topmost one is told. -/
theorem exists_bad {found : Nat}
    (stops : badIndent? indent offset (lines.map (·.text.toList)) = some found) :
    ∃ above line below, lines = above ++ line :: below ∧
      (strip indent lines).bad = some (line.line, mismatch indent line.text.toList) ∧
      found = offset + (above.map (·.text.toList)).flatten.length +
        mismatch indent line.text.toList := by
  induction lines generalizing offset with
  | nil => cases stops
  | cons line lines ih =>
    rw [List.map_cons, badIndent?] at stops
    cases strips : stripLine indent line.text.toList with
    | none =>
      rw [strips] at stops
      refine ⟨[], line, lines, rfl, ?_, ?_⟩
      · rw [strip, List.foldr_cons, Stripped.add, strips]
      · exact (Option.some.inj stops).symm
    | some text =>
      rw [strips] at stops
      obtain ⟨above, bad, below, rfl, told, place⟩ := ih stops
      refine ⟨line :: above, bad, below, rfl, ?_, ?_⟩
      · rw [strip] at told
        rw [strip, List.foldr_cons, Stripped.add, strips]
        exact told
      · rw [place, List.map_cons, List.flatten_cons, List.length_append]
        omega

theorem decode_of_ok {content : List Char}
    (passes : badIndent? indent offset (lines.map (·.text.toList)) = none)
    (decoded : decodeLines indent offset (lines.map (·.text.toList)) = .ok content) :
    decode ((lines.map (·.text.toList)).filterMap (stripLine indent)) lines = .ok content := by
  induction lines generalizing offset content with
  | nil =>
    obtain rfl := Except.ok.inj decoded
    rfl
  | cons line lines ih =>
    rw [List.map_cons, badIndent?] at passes
    rw [List.map_cons, decodeLines] at decoded
    cases strips : stripLine indent line.text.toList with
    | none => simp [strips] at passes
    | some text =>
      rw [strips] at passes decoded
      rw [Option.getD_some, Escape.decodeFrom_eq] at decoded
      rw [List.map_cons, List.filterMap_cons_some strips, decode]
      cases here : Escape.decodeText text with
      | error fault => simp [here, Except.mapError] at decoded
      | ok value =>
        simp only [here, Except.mapError] at decoded
        cases later : decodeLines indent (offset + line.text.toList.length)
            (lines.map (·.text.toList)) with
        | error fault => simp [later, Except.map] at decoded
        | ok more =>
          rw [later] at decoded
          obtain rfl := Except.ok.inj decoded
          dsimp only
          rw [ih passes later]
          rfl

/-- The first escape that is none is told by the line that it is on. -/
theorem exists_decode_fault {fault : Escape.Fault}
    (passes : badIndent? indent offset (lines.map (·.text.toList)) = none)
    (faulty : decodeLines indent offset (lines.map (·.text.toList)) = .error fault) :
    ∃ above line below index, lines = above ++ line :: below ∧
      decode ((lines.map (·.text.toList)).filterMap (stripLine indent)) lines =
        .error (line.line, ⟨index, fault.width⟩) ∧
      fault.offset = offset + (above.map (·.text.toList)).flatten.length +
        (indent.length + index) ∧
      indent.length + index < line.text.toList.length := by
  induction lines generalizing offset with
  | nil => cases faulty
  | cons line lines ih =>
    rw [List.map_cons, badIndent?] at passes
    rw [List.map_cons, decodeLines] at faulty
    cases strips : stripLine indent line.text.toList with
    | none => simp [strips] at passes
    | some text =>
      rw [strips] at passes
      rw [List.map_cons, List.filterMap_cons_some strips, decode]
      have same := Escape.decodeFrom_eq (offset + indent.length) text
      cases here : Escape.decodeText text with
      | error found =>
        have wrong : Escape.decodeFrom (offset + indent.length)
            ((stripLine indent line.text.toList).getD []) =
              .error (found.behind (offset + indent.length)) := by
          rw [strips, Option.getD_some, same, here]
          rfl
        obtain ⟨k, place, short⟩ := fault_within_line wrong
        rw [wrong] at faulty
        obtain rfl := Except.error.inj faulty
        simp only [Escape.Fault.behind] at place ⊢
        refine ⟨[], line, lines, found.offset, rfl, rfl, ?_, by omega⟩
        simp only [List.map_nil, List.flatten_nil, List.length_nil]
        omega
      | ok value =>
        rw [strips, Option.getD_some, same, here] at faulty
        simp only [Except.mapError] at faulty
        cases later : decodeLines indent (offset + line.text.toList.length)
            (lines.map (·.text.toList)) with
        | ok more => simp [later, Except.map] at faulty
        | error found =>
          rw [later] at faulty
          obtain rfl := Except.error.inj faulty
          obtain ⟨above, bad, below, index, rfl, told, place, short⟩ := ih passes later
          refine ⟨line :: above, bad, below, index, rfl, ?_, ?_, short⟩
          · dsimp only
            rw [told]
            rfl
          · rw [place, List.map_cons, List.flatten_cons, List.length_append]
            omega

theorem passes_of_strip (found : (strip indent lines).bad = none) (offset : Nat) :
    badIndent? indent offset (lines.map (·.text.toList)) = none := by
  cases stops : badIndent? indent offset (lines.map (·.text.toList)) with
  | none => rfl
  | some place =>
    obtain ⟨above, line, below, -, told, -⟩ := exists_bad stops
    rw [told] at found
    cases found

theorem decodeLines_of_decode {content : List Char}
    (passes : badIndent? indent offset (lines.map (·.text.toList)) = none)
    (decoded : decode (strip indent lines).texts lines = .ok content) :
    decodeLines indent offset (lines.map (·.text.toList)) = .ok content := by
  rw [strip_eq passes] at decoded
  cases found : decodeLines indent offset (lines.map (·.text.toList)) with
  | ok other =>
    obtain rfl := Except.ok.inj ((decode_of_ok passes found).symm.trans decoded)
    rfl
  | error fault =>
    obtain ⟨above, line, below, index, -, told, -⟩ := exists_decode_fault passes found
    cases told.symm.trans decoded

end Layout

namespace TripleQuotedDraft

variable {draft : TripleQuotedDraft} {here : Location}

/-- The character at an offset of the literal is told to be at this location. On the opening line
it is so many columns behind the opening quotes; on another one it is on the line stored with
it, behind so many characters of that line. -/
inductive PlacedAt (draft : TripleQuotedDraft) (here : Location) : Nat → Location → Prop where
  | opening {index : Nat} (within : index < draft.opening.toList.length) :
      PlacedAt draft here (draft.quotes + index)
        (draft.lexeme.start.shift (draft.quotes + index))
  | content {above below : List ContentLine} {line : ContentLine} {index : Nat}
      (split : draft.lines = above ++ line :: below)
      (within : line.text.toList ≠ [] → index < line.text.toList.length) :
      PlacedAt draft here
        (draft.layout.bodyOffset + (above.map (·.text.toList)).flatten.length + index)
        (here.onLine line.line (index + 1))

/-- What a literal comes to agrees with what its layout comes to. -/
inductive Agrees (draft : TripleQuotedDraft) (here : Location) :
    Except Misfit (List Char) → Except Layout.Fault (List Char) → Prop where
  | value (value : List Char) : Agrees draft here (.ok value) (.ok value)
  | fault {cause : Cause} {offset width : Nat} {location : Location}
      (placed : draft.PlacedAt here offset location) :
      Agrees draft here (.error ⟨⟨location, cause⟩, width⟩) (.error ⟨cause, offset, width⟩)

theorem value_agrees (draft : TripleQuotedDraft) (here : Location) :
    draft.Agrees here (draft.value here) (draft.layout.value draft.isVerbatim) := by
  unfold TripleQuotedDraft.value Layout.value
  simp only [layout]
  cases nonblank : draft.opening.toList.findIdx? fun c => !isInlineBlank c with
  | some index =>
    exact .fault (.opening (List.findIdx?_eq_some_iff_findIdx_eq.mp nonblank).1)
  | none =>
    cases passes : Layout.badIndent? draft.indent draft.layout.bodyOffset
        (draft.lines.map (·.text.toList)) with
    | some found =>
      obtain ⟨above, line, below, split, told, rfl⟩ := Layout.exists_bad passes
      simp only [layout] at passes
      simp only [passes, told]
      exact .fault (.content split (Layout.mismatch_lt draft.indent))
    | none =>
      have strips := Layout.strip_eq passes
      cases decoded : Layout.decodeLines draft.indent draft.layout.bodyOffset
          (draft.lines.map (·.text.toList)) with
      | ok content =>
        have same := Layout.decode_of_ok passes decoded
        simp only [layout] at passes decoded
        simp only [passes, decoded, strips, same, Layout.dropLastBreak_map]
        split
        · exact .value _
        · exact .value _
      | error fault =>
        obtain ⟨above, line, below, index, split, told, place, short⟩ :=
          Layout.exists_decode_fault passes decoded
        simp only [layout] at passes decoded
        simp only [passes, decoded, strips, told, Layout.dropLastBreak_map]
        split
        · exact .value _
        · have placed : draft.PlacedAt here fault.offset
              (here.onLine line.line (draft.indent.length + index + 1)) := by
            rw [place]
            exact .content split fun _ => short
          exact .fault placed

theorem value_eq_ok_iff {value : List Char} :
    draft.value here = .ok value ↔ draft.layout.value draft.isVerbatim = .ok value := by
  have agrees := draft.value_agrees here
  generalize draft.value here = found at agrees ⊢
  generalize draft.layout.value draft.isVerbatim = laid at agrees ⊢
  cases agrees with
  | value other => simp
  | fault placed => simp

theorem value_of_fault (here : Location) {fault : Layout.Fault}
    (faulty : draft.layout.value draft.isVerbatim = .error fault) :
    ∃ location, draft.PlacedAt here fault.offset location ∧
      draft.value here = .error ⟨⟨location, fault.cause⟩, fault.width⟩ := by
  have agrees := draft.value_agrees here
  rw [faulty] at agrees
  generalize draft.value here = found at agrees ⊢
  cases agrees with
  | fault placed => exact ⟨_, placed, rfl⟩

theorem exists_fault_of_value {misfit : Misfit} (wrong : draft.value here = .error misfit) :
    ∃ fault, draft.layout.value draft.isVerbatim = .error fault := by
  have agrees := draft.value_agrees here
  rw [wrong] at agrees
  generalize draft.layout.value draft.isVerbatim = laid at agrees ⊢
  cases agrees with
  | fault placed => exact ⟨_, rfl⟩

/-- A content line is told with the line that a walk to it leads to, in its first column. -/
theorem Made.walk_above (made : draft.Made) {above below : List ContentLine} {line : ContentLine}
    (split : draft.lines = above ++ line :: below) :
    '\n' ∉ line.text.toList.dropLast ∧
      draft.bodyStart.walk (above.map (·.text.toList)).flatten =
        ⟨line.line, draft.lexeme.start.column.map fun _ => 1⟩ := by
  cases found : draft.body with
  | none => simp [TripleQuotedDraft.lines, found] at split
  | some body =>
    have stored : body.lines.toList = above ++ line :: below := by
      simpa only [TripleQuotedDraft.lines, found, Option.map_some, Option.getD_some] using split
    obtain ⟨inline, number⟩ := (made.placed body found).lines above line below stored
    refine ⟨inline, ?_⟩
    have first : draft.bodyStart.column = draft.lexeme.start.column.map fun _ => 1 := by
      rw [bodyStart, ← List.append_assoc, Location.column_walk_lineBreak]
    have column : (draft.bodyStart.walk (above.map (·.text.toList)).flatten).column =
        draft.lexeme.start.column.map fun _ => 1 := by
      rcases List.eq_nil_or_concat above with rfl | ⟨above, last, rfl⟩
      · exact first
      · have ends := made.lines body found last (by simp [stored])
        obtain ⟨front, whole⟩ := List.getLast?_eq_some_iff.mp ends
        rw [List.concat_eq_append, List.map_append, List.flatten_append, List.map_singleton,
          List.flatten_singleton, whole, ← List.append_assoc, Location.column_walk_lineBreak, first,
          Option.map_map]
        rfl
    rw [number, ← column]

theorem exists_behind_line {above below : List ContentLine} {line : ContentLine}
    (split : draft.lines = above ++ line :: below) :
    ∃ behind, draft.interior = draft.opening.toList ++ '\n' ::
      ((above.map (·.text.toList)).flatten ++ (line.text.toList ++ behind)) := by
  cases found : draft.body with
  | none => simp [lines, found] at split
  | some body =>
    have stored : body.lines.toList = above ++ line :: below := by
      simpa only [lines, found, Option.map_some, Option.getD_some] using split
    refine ⟨(below.map (·.text.toList)).flatten ++ body.current.toList, ?_⟩
    simp [interior, found, TripleQuotedBody.content, stored]

theorem shift_of_first (columns : here.hasColumn = draft.lexeme.start.hasColumn) (line : Int32)
    (index : Nat) :
    here.onLine line (index + 1) =
      Location.shift ⟨line, draft.lexeme.start.column.map fun _ => 1⟩ index := by
  simp only [Location.onLine, Location.shift, Location.hasColumn] at columns ⊢
  cases one : here.column with
  | none =>
    rw [one] at columns
    rw [Option.isSome_eq_false_iff.mp columns.symm |> Option.isNone_iff_eq_none.mp]
    rfl
  | some c =>
    rw [one] at columns
    obtain ⟨d, other⟩ := Option.isSome_iff_exists.mp columns.symm
    rw [other]
    simp only [Option.map_some, Option.some.injEq, Location.mk.injEq, true_and]
    rw [Nat.add_comm]
    rfl

theorem take_opening {index : Nat} (within : index < draft.opening.toList.length) :
    (List.replicate draft.quotes '"' ++ draft.interior).take (draft.quotes + index) =
      List.replicate draft.quotes '"' ++ draft.opening.toList.take index := by
  rw [List.take_append, interior, List.take_append_of_le_length (by simp; omega)]
  simp

theorem take_line {above below : List ContentLine} {line : ContentLine} {index : Nat}
    (split : draft.lines = above ++ line :: below) (within : index ≤ line.text.toList.length) :
    (List.replicate draft.quotes '"' ++ draft.interior).take
        (draft.layout.bodyOffset + (above.map (·.text.toList)).flatten.length + index) =
      List.replicate draft.quotes '"' ++ (draft.opening.toList ++ ['\n']) ++
        ((above.map (·.text.toList)).flatten ++ line.text.toList.take index) := by
  obtain ⟨behind, interior⟩ := exists_behind_line split
  have whole : List.replicate draft.quotes '"' ++ draft.interior =
      (List.replicate draft.quotes '"' ++ (draft.opening.toList ++ ['\n']) ++
        ((above.map (·.text.toList)).flatten ++ line.text.toList.take index)) ++
          (line.text.toList.drop index ++ behind) := by
    rw [interior, List.append_assoc _ _ (line.text.toList.drop index ++ behind),
      List.append_assoc _ (line.text.toList.take index),
      ← List.append_assoc (line.text.toList.take index), List.take_append_drop]
    simp
  rw [whole]
  apply List.take_left'
  simp only [List.length_append, List.length_replicate, List.length_singleton,
    List.length_take, Layout.bodyOffset, layout]
  omega

/-- The location that is told is the one that a walk leads to. -/
theorem PlacedAt.eq_locate {offset : Nat} {location : Location} (made : draft.Made)
    (columns : here.hasColumn = draft.lexeme.start.hasColumn)
    (placed : draft.PlacedAt here offset location) : location = draft.locate offset := by
  rw [locate, made.source]
  cases placed with
  | @opening index within =>
    have inline : '\n' ∉ List.replicate draft.quotes '"' ++ draft.opening.toList.take index := by
      simp only [List.mem_append, List.mem_replicate, not_or]
      exact ⟨by simp, fun listed => made.opening (List.mem_of_mem_take listed)⟩
    rw [take_opening within, Location.walk_inline _ inline, List.length_append,
      List.length_replicate, List.length_take, Nat.min_eq_left (Nat.le_of_lt within)]
  | @content above below line index split within =>
    obtain ⟨inline, above_line⟩ := made.walk_above split
    have short : index < line.text.toList.length := by
      apply within
      intro nothing
      have ends := lines_layout made _ (List.mem_map.mpr ⟨line, by simp [split], rfl⟩)
      rw [nothing] at ends
      cases ends
    have inline_front : '\n' ∉ line.text.toList.take index := by
      have before : line.text.toList.take index = line.text.toList.dropLast.take index := by
        rw [List.dropLast_eq_take, List.take_take, Nat.min_eq_left (by omega)]
      rw [before]
      exact fun listed => inline (List.mem_of_mem_take listed)
    rw [take_line split (Nat.le_of_lt short), Location.walk_append, ← bodyStart,
      Location.walk_append, above_line, Location.walk_inline _ inline_front, List.length_take,
      Nat.min_eq_left (Nat.le_of_lt short)]
    exact shift_of_first columns line.line index

end TripleQuotedDraft

end ErlangLexer
