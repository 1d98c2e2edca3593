import ErlangLexer.Proofs.EscapedText
import ErlangLexer.Proofs.TripleQuotedText

/-!
# The verdict on a triple-quoted string

A literal whose closing quotes have been found is a string, or it is at fault at one character:

* `Verdict`: what a literal comes to, by the first check that does not pass and the first
  character that shows it;
* `exists_verdict`, `Verdict.unique`: every literal has exactly one verdict;
* `Verdict.value`: the layout of the literal comes to its verdict;
* `State.run_verdict`: so does a scan, which reports the fault where that character is.
-/

namespace ErlangLexer

/-- Lines with their line breaks. -/
def unlines (lines : List (List Char)) : List Char :=
  (lines.map (· ++ ['\n'])).flatten

theorem unlines_cons (line : List Char) (lines : List (List Char)) :
    unlines (line :: lines) = line ++ ['\n'] ++ unlines lines := rfl

theorem length_unlines_cons (line : List Char) (lines : List (List Char)) :
    (unlines (line :: lines)).length = (line ++ ['\n']).length + (unlines lines).length :=
  List.length_append

theorem unlines_append (above below : List (List Char)) :
    unlines (above ++ below) = unlines above ++ unlines below := by
  simp [unlines]

theorem wholeLines_unlines (lines : List (List Char)) : WholeLines (unlines lines) := by
  induction lines using List.reverseRec with
  | nil => exact .inl rfl
  | append_singleton lines line ih =>
    rw [unlines_append, show unlines [line] = line ++ ['\n'] from List.append_nil _,
      ← List.append_assoc]
    exact .concat _

/-- The line has the indentation, or nothing but white space. -/
def Indented (indent line : List Char) : Prop :=
  indent <+: line ∨ ∀ c ∈ line, isBlank c = true

/-- The lines stand for these values when they have lost their indentation. -/
def DecodesLines (indent : List Char) : List (List Char) → List (List Char) → Prop :=
  List.Forall₂ fun line value => Escape.Decodes [] (unindent indent line ++ ['\n']) value

/-- The text of a literal in front of a line, when these are the lines above it. -/
def literalAbove (quotes : Nat) (opening : List Char) (above : List (List Char)) : List Char :=
  List.replicate quotes '"' ++ (opening ++ '\n' :: unlines above)

/-- What a literal comes to. It is its value, or a cause with the text of the literal in front of
the character that is at fault, and then nothing that is looked at earlier is at fault. -/
inductive Verdict (quotes : Nat) (opening indent : List Char) (lines : List (List Char))
    (verbatim : Bool) : Except (Cause × List Char) (List Char) → Prop where
  /-- The first character of the opening line that is no white space. -/
  | whiteSpace {front behind : List Char} {c : Char}
      (split : opening = front ++ c :: behind)
      (blank : ∀ d ∈ front, isBlank d = true)
      (other : isBlank c = false) :
      Verdict quotes opening indent lines verbatim
        (.error (.whiteSpace, List.replicate quotes '"' ++ front))
  /-- The first character that is not of the indentation, in the topmost such line. -/
  | indentation {above below : List (List Char)} {common behind missing : List Char} {c d : Char}
      (opening_blank : ∀ c ∈ opening, isBlank c = true)
      (split : lines = above ++ (common ++ c :: behind) :: below)
      (indented : ∀ line ∈ above, Indented indent line)
      (not_indented : ¬Indented indent (common ++ c :: behind))
      (expected : indent = common ++ d :: missing)
      (differs : c ≠ d) :
      Verdict quotes opening indent lines verbatim
        (.error (.indentation, literalAbove quotes opening above ++ common))
  /-- The backslash of the first escape that is none. -/
  | escape {above below values : List (List Char)} {front behind value : List Char} {width : Nat}
      (decoding : verbatim = false)
      (opening_blank : ∀ c ∈ opening, isBlank c = true)
      (indented : ∀ line ∈ lines, Indented indent line)
      (split : lines = above ++ (indent ++ (front ++ '\\' :: behind)) :: below)
      (decodes_above : DecodesLines indent above values)
      (decodes : Escape.Decodes ('\\' :: (behind ++ ['\n']))
        (front ++ '\\' :: (behind ++ ['\n'])) value)
      (malformed : Escape.read (behind ++ ['\n']) true = .malformed width) :
      Verdict quotes opening indent lines verbatim
        (.error (.illegal .character, literalAbove quotes opening above ++ (indent ++ front)))
  | verbatim
      (plain : verbatim = true)
      (opening_blank : ∀ c ∈ opening, isBlank c = true)
      (indented : ∀ line ∈ lines, Indented indent line) :
      Verdict quotes opening indent lines verbatim (.ok (content indent lines))
  /-- Of several lines the last line break is dropped. -/
  | decoded {values : List (List Char)}
      (decoding : verbatim = false)
      (opening_blank : ∀ c ∈ opening, isBlank c = true)
      (indented : ∀ line ∈ lines, Indented indent line)
      (decodes : DecodesLines indent lines values) :
      Verdict quotes opening indent lines verbatim
        (.ok (if 1 < lines.length then values.flatten.dropLast else values.flatten))

/-! ## The layout comes to its verdict -/

theorem isInlineBlank_eq_isBlank {c : Char} (inline : c ≠ '\n') : isInlineBlank c = isBlank c := by
  simp [isInlineBlank, inline]

theorem findIdx?_first {α : Type} {p : α → Bool} {front : List α} {a : α}
    (before : ∀ b ∈ front, p b = false) (here : p a = true) (behind : List α) :
    (front ++ a :: behind).findIdx? p = some front.length := by
  have none_before : front.findIdx? p = none := List.findIdx?_eq_none_iff.mpr before
  rw [List.findIdx?_append, none_before, List.findIdx?_cons, here]
  simp

/-- Two lists go on from one another, or there is a first place at which they differ. -/
theorem prefix_or_difference {α : Type} (s t : List α) :
    s <+: t ∨ t <+: s ∨ ∃ common a s' b t', s = common ++ a :: s' ∧ t = common ++ b :: t' ∧
      a ≠ b := by
  induction s generalizing t with
  | nil => exact .inl (List.nil_prefix)
  | cons a s ih =>
    cases t with
    | nil => exact .inr (.inl List.nil_prefix)
    | cons b t =>
      by_cases same : a = b
      · subst same
        rcases ih t with front | front | ⟨common, c, s', d, t', rfl, rfl, other⟩
        · exact .inl (List.cons_prefix_cons.mpr ⟨rfl, front⟩)
        · exact .inr (.inl (List.cons_prefix_cons.mpr ⟨rfl, front⟩))
        · exact .inr (.inr ⟨a :: common, c, s', d, t', rfl, rfl, other⟩)
      · exact .inr (.inr ⟨[], a, s, b, t, rfl, rfl, same⟩)

/-- A line that is not indented differs from the indentation at one of its own characters. -/
theorem exists_difference {indent line : List Char} (blank : ∀ c ∈ indent, isBlank c = true)
    (not_indented : ¬Indented indent line) :
    ∃ common c behind d missing, line = common ++ c :: behind ∧ indent = common ++ d :: missing ∧
      c ≠ d := by
  rcases prefix_or_difference line indent with front | front | differ
  · exact absurd (.inr fun c listed => blank c (front.subset listed)) not_indented
  · exact absurd (.inl front) not_indented
  · exact differ

namespace Layout

theorem literalAbove_prefix (quotes : Nat) (opening indent : List Char)
    (above below : List (List Char)) (front rest : List Char) :
    literalAbove quotes opening above ++ front <+:
      (ofLines quotes opening indent (above ++ (front ++ rest) :: below)).source :=
  ⟨rest ++ '\n' :: (unlines below ++ indent), by simp [source, ofLines, literalAbove, unlines]⟩

theorem length_literalAbove (quotes : Nat) (opening indent : List Char)
    (above lines : List (List Char)) :
    (literalAbove quotes opening above).length =
      (ofLines quotes opening indent lines).bodyOffset + (unlines above).length := by
  simp only [literalAbove, bodyOffset, ofLines, List.length_append, List.length_replicate,
    List.length_cons]
  omega

theorem findIdx?_of_difference {common behind missing : List Char} {c d : Char}
    (differs : c ≠ d) :
    (((common ++ c :: behind).zip (common ++ d :: missing)).findIdx? fun pair =>
      pair.1 != pair.2) = some common.length := by
  have twice : common.zip common = common.map fun e => (e, e) := by
    simpa using List.zip_map' (f := id) (g := id) (l := common)
  have same : ∀ pair ∈ common.zip common, (pair.1 != pair.2) = false := by simp [twice]
  have first := findIdx?_first (p := fun pair : Char × Char => pair.1 != pair.2) same
    (a := (c, d)) (by simpa using differs) (behind.zip missing)
  rw [List.zip_append rfl, List.zip_cons_cons, first]
  simp

theorem mismatch_of_difference {common behind missing : List Char} {c d : Char} (differs : c ≠ d) :
    mismatch (common ++ d :: missing) (common ++ c :: behind) = common.length := by
  rw [mismatch, findIdx?_of_difference differs, Option.getD_some]

theorem stripLine_of_not_indented {indent line : List Char} (inline : '\n' ∉ indent)
    (not_indented : ¬Indented indent line) : stripLine indent (line ++ ['\n']) = none := by
  obtain ⟨not_front, not_blank⟩ := not_or.mp not_indented
  have no_front : indent.isPrefixOf (line ++ ['\n']) = false := by
    rw [isPrefixOf_lineBreak inline]
    exact Bool.eq_false_iff.mpr fun front => not_front (List.isPrefixOf_iff_prefix.mp front)
  have other : (line ++ ['\n']).all isBlank = false := by
    refine Bool.eq_false_iff.mpr fun all => not_blank fun c listed => ?_
    exact List.all_eq_true.mp all c (List.mem_append_left _ listed)
  simp [stripLine, no_front, other]

theorem decodeLines_append {indent : List Char} (inline : '\n' ∉ indent)
    {above values : List (List Char)} (indented : ∀ line ∈ above, Indented indent line)
    (decodes : DecodesLines indent above values) (below : List (List Char)) (offset : Nat) :
    decodeLines indent offset (above.map (· ++ ['\n']) ++ below) =
      (decodeLines indent (offset + (unlines above).length) below).map (values.flatten ++ ·) := by
  induction decodes generalizing offset with
  | nil =>
    simp only [List.map_nil, List.nil_append, unlines, List.flatten_nil, List.length_nil,
      Nat.add_zero]
    cases decodeLines indent offset below <;> rfl
  | @cons line value above values decodes _ ih =>
    obtain ⟨here, later⟩ := List.forall_mem_cons.mp indented
    have decoded : Escape.decodeFrom (offset + indent.length) (unindent indent line ++ ['\n']) =
        .ok value := by
      rw [Escape.decodeFrom_of_decodes decodes, Escape.decodeFrom]
      exact congrArg Except.ok (List.append_nil value)
    rw [List.map_cons, List.cons_append, decodeLines, stripLine_lineBreak inline here]
    dsimp only [Option.getD_some]
    rw [decoded]
    dsimp only
    rw [ih later, length_unlines_cons, Nat.add_assoc, List.flatten_cons]
    cases decodeLines indent (offset + ((line ++ ['\n']).length + (unlines above).length)) below
    · rfl
    · exact congrArg Except.ok (List.append_assoc _ _ _).symm

end Layout

namespace DecodesLines

variable {indent : List Char} {lines values : List (List Char)}

theorem whole (decodes : DecodesLines indent lines values) :
    Escape.Decodes [] (unlines (lines.map (unindent indent))) values.flatten := by
  induction decodes with
  | nil => exact .nothing
  | cons decodes _ ih => exact (decodes.append (.concat _) _).trans ih

theorem getLast?_flatten (decodes : DecodesLines indent lines values) (some_line : lines ≠ []) :
    values.flatten.getLast? = some '\n' := by
  refine (decodes.whole.wholeLines (wholeLines_unlines _)).resolve_left ?_
  intro nothing
  have none_left := decodes.whole
  rw [nothing] at none_left
  obtain ⟨line, lines, rfl⟩ := List.exists_cons_of_ne_nil some_line
  generalize text : unlines _ = t at none_left
  cases none_left with
  | nothing => simp [unlines] at text

theorem dropLastBreak_flatten (decodes : DecodesLines indent lines values) :
    Layout.dropLastBreak (lines.map (· ++ ['\n'])) values.flatten =
      if 1 < lines.length then values.flatten.dropLast else values.flatten := by
  rw [Layout.dropLastBreak, List.length_map]
  by_cases several : 1 < lines.length
  · have some_line : lines ≠ [] := by
      rintro rfl
      cases several
    simp [several, decodes.getLast?_flatten some_line]
  · simp [several]

end DecodesLines

namespace Layout

variable {indent : List Char}

theorem badIndent?_first {above : List (List Char)} (below : List (List Char))
    {common behind missing : List Char} {c d : Char} (inline : '\n' ∉ common ++ d :: missing)
    (indented : ∀ line ∈ above, Indented (common ++ d :: missing) line)
    (not_indented : ¬Indented (common ++ d :: missing) (common ++ c :: behind)) (differs : c ≠ d)
    (offset : Nat) :
    badIndent? (common ++ d :: missing) offset
        ((above ++ (common ++ c :: behind) :: below).map (· ++ ['\n'])) =
      some (offset + (unlines above).length + common.length) := by
  have stripped := stripLine_of_not_indented inline not_indented
  rw [List.map_append, badIndent?_append inline indented, List.map_cons, badIndent?, stripped]
  dsimp only
  rw [List.append_assoc, List.cons_append, mismatch_of_difference differs]
  rfl

theorem decodeLines_first {above values : List (List Char)} (below : List (List Char))
    {front behind value : List Char} {width : Nat} (inline : '\n' ∉ indent)
    (indented : ∀ line ∈ above, Indented indent line)
    (decodes_above : DecodesLines indent above values)
    (decodes : Escape.Decodes ('\\' :: (behind ++ ['\n'])) (front ++ '\\' :: (behind ++ ['\n']))
      value)
    (malformed : Escape.read (behind ++ ['\n']) true = .malformed width) (offset : Nat) :
    decodeLines indent offset
        ((above ++ (indent ++ (front ++ '\\' :: behind)) :: below).map (· ++ ['\n'])) =
      .error ⟨offset + (unlines above).length + (indent ++ front).length, 1 + width⟩ := by
  have here : unindent indent (indent ++ (front ++ '\\' :: behind)) = front ++ '\\' :: behind := by
    simp [unindent]
  have stripped := stripLine_lineBreak inline
    (.inl (List.prefix_append indent (front ++ '\\' :: behind)))
  have whole : front ++ '\\' :: behind ++ ['\n'] = front ++ '\\' :: (behind ++ ['\n']) := by simp
  have front_length : (front ++ '\\' :: (behind ++ ['\n'])).length -
      ('\\' :: (behind ++ ['\n'])).length = front.length := by
    rw [List.length_append]
    omega
  have both : (indent ++ front).length = indent.length + front.length := List.length_append
  rw [List.map_append, decodeLines_append inline indented decodes_above, List.map_cons, decodeLines,
    stripped, here]
  dsimp only [Option.getD_some]
  rw [whole, Escape.decodeFrom_of_decodes decodes, Escape.decodeFrom_malformed malformed,
    front_length, both, ← Nat.add_assoc]
  rfl

end Layout

/-! ## Every literal has one verdict -/

theorem decodes_line_cases (line : List Char) :
    (∃ value, Escape.Decodes [] (line ++ ['\n']) value) ∨
      ∃ front behind value width, line = front ++ '\\' :: behind ∧
        Escape.Decodes ('\\' :: (behind ++ ['\n'])) (front ++ '\\' :: (behind ++ ['\n'])) value ∧
        Escape.read (behind ++ ['\n']) true = .malformed width := by
  rcases Escape.decodes_cases (WholeLines.concat line) with
    sound | ⟨rest, value, width, decodes, malformed⟩
  · exact .inl sound
  · obtain ⟨front, same⟩ := decodes.suffix
    have some_rest : rest ≠ [] := by
      rintro rfl
      cases malformed
    obtain ⟨behind, last, rfl⟩ := List.eq_nil_or_concat' rest |>.resolve_left some_rest
    rw [← List.cons_append, ← List.append_assoc] at same
    obtain ⟨rfl, single⟩ := List.append_inj' same rfl
    obtain rfl : last = '\n' := by simpa using single
    refine .inr ⟨front, behind, value, width, rfl, ?_, malformed⟩
    rw [List.append_assoc, List.cons_append] at decodes
    exact decodes

theorem line_of_unindent {indent line front behind : List Char} {c : Char}
    (text : unindent indent line = front ++ c :: behind) :
    line = indent ++ (front ++ c :: behind) := by
  rw [unindent] at text
  split at text
  · obtain ⟨rest, rfl⟩ := List.isPrefixOf_iff_prefix.mp ‹_›
    rw [List.drop_left] at text
    rw [text]
  · simp at text

theorem exists_decodesLines {indent : List Char} {lines : List (List Char)}
    (sound : ∀ line ∈ lines,
      ∃ value, Escape.Decodes [] (unindent indent line ++ ['\n']) value) :
    ∃ values, DecodesLines indent lines values := by
  induction lines with
  | nil => exact ⟨[], .nil⟩
  | cons line lines ih =>
    obtain ⟨⟨value, here⟩, later⟩ := List.forall_mem_cons.mp sound
    obtain ⟨values, decodes⟩ := ih later
    exact ⟨value :: values, .cons here decodes⟩

section

variable {quotes : Nat} {opening indent : List Char} {lines : List (List Char)} {verbatim : Bool}
  {verdict : Except (Cause × List Char) (List Char)}

/-- A layout comes to a verdict. -/
def Layout.ComesTo (layout : Layout) (verbatim : Bool) :
    Except (Cause × List Char) (List Char) → Prop
  | .error (cause, front) =>
    front <+: layout.source ∧
      ∃ width, layout.value verbatim = .error ⟨cause, front.length, width⟩
  | .ok value => layout.value verbatim = .ok value

theorem Layout.ComesTo.unique {layout : Layout} {other : Except (Cause × List Char) (List Char)}
    (one : layout.ComesTo verbatim verdict) (two : layout.ComesTo verbatim other) :
    verdict = other := by
  match verdict, other with
  | .ok value, .ok more => exact congrArg Except.ok (Except.ok.inj (one.symm.trans two))
  | .ok value, .error (cause, front) =>
    obtain ⟨-, width, faulty⟩ := two
    cases one.symm.trans faulty
  | .error (cause, front), .ok value =>
    obtain ⟨-, width, faulty⟩ := one
    cases faulty.symm.trans two
  | .error (cause, front), .error (cause', front') =>
    obtain ⟨within, width, faulty⟩ := one
    obtain ⟨within', width', faulty'⟩ := two
    have same := Except.error.inj (faulty.symm.trans faulty')
    obtain ⟨rfl, length, -⟩ := Layout.Fault.mk.inj same
    rw [List.prefix_iff_eq_take.mp within, List.prefix_iff_eq_take.mp within', length]

theorem Enclosed.opening_passes (enclosed : Enclosed quotes opening indent lines)
    {front : List Char} (part : ∀ c ∈ front, c ∈ opening) (blank : ∀ c ∈ front, isBlank c = true) :
    ∀ c ∈ front, (!isInlineBlank c) = false := by
  intro c listed
  rw [isInlineBlank_eq_isBlank (enclosed.opening_text c (part c listed)).2, blank c listed]
  rfl

theorem Verdict.comesTo (enclosed : Enclosed quotes opening indent lines)
    (judged : Verdict quotes opening indent lines verbatim verdict) :
    (Layout.ofLines quotes opening indent lines).ComesTo verbatim verdict := by
  have inline := enclosed.inline
  have opening_none (blank : ∀ c ∈ opening, isBlank c = true) :
      opening.findIdx? (fun c => !isInlineBlank c) = none :=
    List.findIdx?_eq_none_iff.mpr (enclosed.opening_passes (fun _ listed => listed) blank)
  cases judged with
  | @whiteSpace front behind c split blank other =>
    subst split
    have before := enclosed.opening_passes (fun d listed => List.mem_append_left _ listed) blank
    have here : (!isInlineBlank c) = true := by
      rw [isInlineBlank_eq_isBlank (enclosed.opening_text c (by simp)).2, other]
      rfl
    refine ⟨by simp [Layout.source, Layout.ofLines], 1, ?_⟩
    simp only [Layout.value, Layout.ofLines, findIdx?_first before here, List.length_append,
      List.length_replicate]
  | @indentation above below common behind missing c d opening_blank split indented not_indented
      expected differs =>
    subst split expected
    have stops := Layout.badIndent?_first below inline indented not_indented differs
    refine ⟨Layout.literalAbove_prefix quotes opening _ above below common (c :: behind), 1, ?_⟩
    rw [List.length_append, Layout.length_literalAbove]
    simp only [Layout.value, Layout.ofLines, opening_none opening_blank, stops]
    rfl
  | @escape above below values front behind value width decoding opening_blank indented split
      decodes_above decodes malformed =>
    have passes := Layout.badIndent?_lines inline indented
    subst split decoding
    have indented_above : ∀ line ∈ above, Indented indent line :=
      fun line listed => indented line (List.mem_append_left _ listed)
    have stops := Layout.decodeLines_first below inline indented_above decodes_above
      decodes malformed
    have within := Layout.literalAbove_prefix quotes opening indent above below (indent ++ front)
      ('\\' :: behind)
    rw [List.append_assoc] at within
    refine ⟨within, 1 + width, ?_⟩
    rw [List.length_append, Layout.length_literalAbove]
    simp only [Layout.value, Layout.ofLines, opening_none opening_blank, stops, passes]
    rfl
  | verbatim plain opening_blank indented =>
    have opening_inline : ∀ c ∈ opening, isInlineBlank c = true := by
      intro c listed
      rw [isInlineBlank_eq_isBlank (enclosed.opening_text c listed).2, opening_blank c listed]
    subst plain
    exact Layout.value_ofLines ⟨enclosed.enough, opening_inline, enclosed.indent_blank,
      enclosed.text, indented, enclosed.not_closing⟩
  | @decoded values decoding opening_blank indented decodes =>
    have passes := Layout.badIndent?_lines inline indented
    have decoded := Layout.decodeLines_append inline indented decodes []
    subst decoding
    rw [List.append_nil] at decoded
    simp only [Layout.ComesTo, Layout.value, Layout.ofLines, opening_none opening_blank, passes,
      decoded, Layout.decodeLines, Except.map, List.append_nil, decodes.dropLastBreak_flatten]
    rfl

/-- Every literal has a verdict. -/
theorem exists_verdict (enclosed : Enclosed quotes opening indent lines) (verbatim : Bool) :
    ∃ verdict, Verdict quotes opening indent lines verbatim verdict := by
  have indent_blank : ∀ c ∈ indent, isBlank c = true := by
    intro c listed
    have blank := enclosed.indent_blank c listed
    rw [isInlineBlank, Bool.and_eq_true] at blank
    exact blank.2
  rcases all_or_first (fun c => isBlank c = true) opening with
    opening_blank | ⟨front, c, behind, split, blank, other⟩
  · rcases all_or_first (Indented indent) lines with
      indented | ⟨above, line, below, split, indented, not_indented⟩
    · cases decoding : verbatim with
      | true => exact ⟨_, .verbatim rfl opening_blank indented⟩
      | false =>
        rcases all_or_first (fun line =>
            ∃ value, Escape.Decodes [] (unindent indent line ++ ['\n']) value) lines with
          sound | ⟨above, line, below, split, sound, unsound⟩
        · obtain ⟨values, decodes⟩ := exists_decodesLines sound
          exact ⟨_, .decoded rfl opening_blank indented decodes⟩
        · obtain ⟨values, decodes_above⟩ := exists_decodesLines sound
          obtain ⟨front, behind, value, width, same, decodes, malformed⟩ :=
            (decodes_line_cases _).resolve_left unsound
          obtain rfl := line_of_unindent same
          exact ⟨_, .escape rfl opening_blank indented split decodes_above decodes malformed⟩
    · obtain ⟨common, c, behind, d, missing, rfl, expected, differs⟩ :=
        exists_difference indent_blank not_indented
      exact ⟨_, .indentation opening_blank split indented not_indented expected differs⟩
  · exact ⟨_, .whiteSpace split blank (Bool.eq_false_iff.mpr other)⟩

theorem Verdict.unique {other : Except (Cause × List Char) (List Char)}
    (enclosed : Enclosed quotes opening indent lines)
    (one : Verdict quotes opening indent lines verbatim verdict)
    (two : Verdict quotes opening indent lines verbatim other) : verdict = other :=
  (one.comesTo enclosed).unique (two.comesTo enclosed)

end

/-! ## Scans come to the verdict -/

namespace State

variable {options : Options} {extent : Extent} {state : State} {quotes : Nat}
  {opening indent behind : List Char} {lines : List (List Char)} {name : Option (List Char)}

/-- Directly behind a literal, and in front of the name that ends its sigil if it has one. -/
def behindLiteral (options : Options) (state : State) (name : Option (List Char))
    (literal : List Char) (value : String) : State :=
  { (state.atString options name).behindToken options (.string value) literal with
    mode := modeBehind ((state.atString options name).location.walk literal)
      (state.sigilOf name) }

theorem verbatim_sigilOf (state : State) (name : Option (List Char)) :
    (state.sigilOf name).all (·.verbatim) = name.all keepsBackslashes := by
  cases name <;> rfl

theorem Enclosed.made (enclosed : Enclosed quotes opening indent lines) (start : Location)
    (sigil : Option Sigil) :
    (TripleQuotedDraft.ofLayout start sigil (.ofLines quotes opening indent lines)).Made := by
  apply made_ofLayout
  · exact fun listed => (enclosed.opening_text _ listed).2 rfl
  · intro line listed
    obtain ⟨front, stands, rfl⟩ := List.mem_map.mp listed
    exact ⟨front, rfl, fun inside => (enclosed.text front stands _ inside).2 rfl⟩
  · exact enclosed.inline

/-- A literal and the sigil in front of it are read to the quotes that close it. -/
theorem run_to_verdict (enclosed : Enclosed quotes opening indent lines)
    (valid : ∀ n ∈ name, SigilName n) (mode : state.mode = .between) (behind : List Char) :
    let layout := Layout.ofLines quotes opening indent lines
    state.run options extent true (sigilSource name ++ (layout.literal ++ behind)) =
      ((state.atString options name).within (state.sigilOf name) layout).run options extent true
        (List.replicate quotes '"' ++ behind) := by
  intro layout
  obtain ⟨rest, front⟩ := Layout.exists_quote_literal enclosed.positive opening indent lines behind
  rw [front, run_atString valid mode, ← front]
  exact run_to_closing enclosed (move_atString mode name) behind

theorem run_faulty {cause : Cause} {front : List Char}
    (enclosed : Enclosed quotes opening indent lines) (valid : ∀ n ∈ name, SigilName n)
    (mode : state.mode = .between) (ends : behind.head? ≠ some '"')
    (judged : Verdict quotes opening indent lines (name.all keepsBackslashes)
      (.error (cause, front))) :
    ∃ finish, state.run options extent true
        (sigilSource name ++ ((Layout.ofLines quotes opening indent lines).literal ++ behind)) =
      .stopped (.error ⟨state.location.position (sigilSource name ++ front), cause⟩ finish)
        behind := by
  obtain ⟨within, width, faulty⟩ := judged.comesTo enclosed
  rw [← verbatim_sigilOf state name] at faulty
  have place : ((state.atString options name).location.walk
      ((Layout.ofLines quotes opening indent lines).source.take front.length)) =
        state.location.position (sigilSource name ++ front) := by
    rw [← List.prefix_iff_eq_take.mp within, location_atString, ← Location.walk_append,
      Location.walk_eq_position]
  refine ⟨(state.location.position (sigilSource name ++ front)).shift width, ?_⟩
  rw [run_to_verdict enclosed valid mode behind, ← place]
  exact run_fault (Enclosed.made enclosed _ _) enclosed.all_blank enclosed.positive faulty ends

theorem run_sound {value : List Char} (enclosed : Enclosed quotes opening indent lines)
    (valid : ∀ n ∈ name, SigilName n) (mode : state.mode = .between)
    (ends : behind.head? ≠ some '"')
    (judged : Verdict quotes opening indent lines (name.all keepsBackslashes) (.ok value)) :
    let literal := (Layout.ofLines quotes opening indent lines).literal
    state.run options extent true (sigilSource name ++ (literal ++ behind)) =
      (state.behindLiteral options name literal (String.ofList value)).run options extent true
        behind := by
  intro literal
  have laid := judged.comesTo enclosed
  rw [← verbatim_sigilOf state name] at laid
  exact (run_to_verdict enclosed valid mode behind).trans
    (run_closing enclosed.all_blank enclosed.positive laid ends)

end State

/-- **The first fault of a triple-quoted string is reported where it is.** A literal whose closing
quotes have been found, plain or of any sigil, has exactly one verdict. If it is at fault, what is
found is its cause, at the position of the character that shows it; else the scan goes on behind a
string with its value. So it is in whatever chunks the text comes. -/
theorem triple_quoted_fault_is_the_first {quotes : Nat} {opening indent : List Char}
    {lines : List (List Char)} {name : Option (List Char)}
    (enclosed : Enclosed quotes opening indent lines) (valid : ∀ n ∈ name, SigilName n) :
    let verdict := Verdict quotes opening indent lines (name.all keepsBackslashes)
    let literal := (Layout.ofLines quotes opening indent lines).literal
    (∃! found, verdict found) ∧
    ∀ (scan : Suspension) (queue : List (List Char)) (behind : List Char),
      scan.state.mode = .between → behind.head? ≠ some '"' →
        scan.pending ++ queue.flatten = sigilSource name ++ (literal ++ behind) →
        (∀ cause front, verdict (.error (cause, front)) →
          ∃ finish, scan.found queue =
            .error ⟨scan.state.location.position (sigilSource name ++ front), cause⟩ finish ::
              (Suspension.start scan.options finish).found [behind]) ∧
        ∀ value, verdict (.ok value) →
          scan.found queue =
            Suspension.goOn scan.options
              (scan.state.behindLiteral scan.options name literal (String.ofList value))
              behind := by
  intro verdict literal
  refine ⟨?_, ?_⟩
  · obtain ⟨found, judged⟩ := exists_verdict enclosed (name.all keepsBackslashes)
    exact ⟨found, judged, fun other other_judged => other_judged.unique enclosed judged⟩
  · intro scan queue behind mode ends whole
    refine ⟨?_, ?_⟩
    · intro cause front judged
      obtain ⟨finish, stops⟩ := State.run_faulty enclosed valid mode ends judged
      exact ⟨finish, Suspension.found_of_stopped (by rw [Suspension.ahead, whole]; exact stops) rfl⟩
    · intro value judged
      refine Suspension.found_of_run_state ?_
      rw [Suspension.ahead, whole]
      exact State.run_sound enclosed valid mode ends judged

/-- A line that lacks the indentation, below an escape that is none. -/
theorem triple_quoted_fault_is_the_first_below_an_escape :
    Enclosed 3 [] [' ', ' '] [[' ', ' ', 'a'], [' ', ' ', 'é', '\\', 'x', 'g'], [' ', 'b']] ∧
      (∀ n ∈ some ['s'], SigilName n) ∧
      ∃ finish, (Suspension.start default ⟨1, some 1⟩).found
          ["~s\"\"".toList, "\"\n  a\n  é\\xg".toList, "\n b\n  \"\"".toList, ['"']] =
        [.error ⟨⟨4, some 2⟩, .indentation⟩ finish] := by
  have enclosed : Enclosed 3 [] [' ', ' ']
      [[' ', ' ', 'a'], [' ', ' ', 'é', '\\', 'x', 'g'], [' ', 'b']] :=
    { enough := by decide
      no_quote := by decide
      opening_text := by simp
      indent_blank := by simp [isInlineBlank, isBlank]
      text := by simp [isText, isTextCode]
      not_closing := by simp [isInlineBlank, isBlank, runLength] }
  have valid : ∀ n ∈ some ['s'], SigilName n := by
    rintro n same
    obtain rfl := Option.some.inj same
    exact .of_letter (by decide)
  have split : [[' ', ' ', 'a'], [' ', ' ', 'é', '\\', 'x', 'g'], [' ', 'b']] =
      [[' ', ' ', 'a'], [' ', ' ', 'é', '\\', 'x', 'g']] ++ ([' '] ++ 'b' :: []) :: [] := rfl
  have expected : [' ', ' '] = [' '] ++ ' ' :: [] := rfl
  have judged : Verdict 3 [] [' ', ' ']
      [[' ', ' ', 'a'], [' ', ' ', 'é', '\\', 'x', 'g'], [' ', 'b']] false
      (.error (.indentation, literalAbove 3 []
        [[' ', ' ', 'a'], [' ', ' ', 'é', '\\', 'x', 'g']] ++ [' '])) :=
    .indentation (by simp) split (by simp [Indented]) (by simp [Indented, isBlank]) expected
      (by decide)
  refine ⟨enclosed, valid, ?_⟩
  obtain ⟨finish, found⟩ := ((triple_quoted_fault_is_the_first enclosed valid).2
    (Suspension.start default ⟨1, some 1⟩)
    ["~s\"\"".toList, "\"\n  a\n  é\\xg".toList, "\n b\n  \"\"".toList, ['"']] [] rfl
    (by decide) rfl).1 _ _ judged
  rw [Suspension.found_nothing] at found
  exact ⟨finish, found⟩

end ErlangLexer
