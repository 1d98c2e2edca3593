import ErlangLexer.Proofs.AllText
import ErlangLexer.Proofs.LayoutFault
import ErlangLexer.Proofs.LineEnd
import ErlangLexer.Proofs.Pieces
import ErlangLexer.Proofs.SigilName

/-!
# Triple-quoted text is read back

Text that is written line by line between three or more quotes, and indented as far as the
quotes that close it, is read back without its indentation:

* `Enclosed` says which lines the quotes of a literal enclose, `WellLaid` which of them may stand
  in one, and `content` what they come to;
* `Layout.value_ofLines`: the layout of these lines has their content;
* `State.within`, `TripleQuotedDraft.ofLayout`: a scan within a literal, told by the layout of
  what is read, to which every character and every line is added (`State.run_line`);
* `State.run_to_closing`: a scan comes to the quotes that close a literal, where
  `State.run_closing` and `State.run_fault` tell its value or what is wrong with it;
* `State.run_string`: a scan reads the literal and its sigil to their end.
-/

namespace ErlangLexer

/-! ## Content -/

/-- A line of a literal without its indentation, which a blank line need not have. -/
def unindent (indent line : List Char) : List Char :=
  if indent.isPrefixOf line then line.drop indent.length else []

/-- Lines put together: of more than one, the last has no line break. -/
def joined : List (List Char) → List Char
  | [] => []
  | [line] => line ++ ['\n']
  | lines => List.intercalate ['\n'] lines

/-- What the lines of a literal come to. -/
def content (indent : List Char) (lines : List (List Char)) : List Char :=
  joined (lines.map (unindent indent))

/-- Lines, without their line breaks, between the opening line of a literal of so many quotes and
the quotes that close it behind some blanks: none of the lines closes the literal. -/
structure Enclosed (quotes : Nat) (opening indent : List Char) (lines : List (List Char)) :
    Prop where
  enough : 3 ≤ quotes
  no_quote : opening.head? ≠ some '"'
  opening_text : ∀ c ∈ opening, isText c = true ∧ c ≠ '\n'
  indent_blank : ∀ c ∈ indent, isInlineBlank c = true
  text : ∀ line ∈ lines, ∀ c ∈ line, isText c = true ∧ c ≠ '\n'
  not_closing : ∀ line ∈ lines, runLength '"' (line.dropWhile isInlineBlank) ≠ quotes

/-- Lines, without their line breaks, that may stand in a literal of so many quotes: each is
indented or blank, and none closes the literal. -/
structure WellLaid (quotes : Nat) (opening indent : List Char) (lines : List (List Char)) :
    Prop where
  enough : 3 ≤ quotes
  opening_blank : ∀ c ∈ opening, isInlineBlank c = true
  indent_blank : ∀ c ∈ indent, isInlineBlank c = true
  text : ∀ line ∈ lines, ∀ c ∈ line, isText c = true ∧ c ≠ '\n'
  indented : ∀ line ∈ lines, indent <+: line ∨ ∀ c ∈ line, isBlank c = true
  not_closing : ∀ line ∈ lines, runLength '"' (line.dropWhile isInlineBlank) ≠ quotes

theorem plain_of_inlineBlank {c : Char} (blank : isInlineBlank c = true) :
    isText c = true ∧ c ≠ '"' := by
  refine ⟨isText_of_class (by decide) (by decide) blank, ?_⟩
  rintro rfl
  exact absurd blank (by decide)

theorem WellLaid.enclosed {quotes : Nat} {opening indent : List Char} {lines : List (List Char)}
    (laid : WellLaid quotes opening indent lines) : Enclosed quotes opening indent lines := by
  refine ⟨laid.enough, ?_, ?_, laid.indent_blank, laid.text, laid.not_closing⟩
  · intro quote
    exact (plain_of_inlineBlank (laid.opening_blank _ (List.mem_of_head? quote))).2 rfl
  · intro c listed
    have blank := laid.opening_blank c listed
    refine ⟨(plain_of_inlineBlank blank).1, ?_⟩
    rintro rfl
    exact absurd blank (by decide)

namespace Enclosed

variable {quotes : Nat} {opening indent : List Char} {lines : List (List Char)}

theorem positive (enclosed : Enclosed quotes opening indent lines) : 0 < quotes :=
  Nat.lt_of_lt_of_le (by decide) enclosed.enough

theorem all_blank (enclosed : Enclosed quotes opening indent lines) :
    indent.all isInlineBlank = true :=
  List.all_eq_true.mpr enclosed.indent_blank

theorem inline (enclosed : Enclosed quotes opening indent lines) : '\n' ∉ indent :=
  fun listed => absurd (enclosed.indent_blank _ listed) (by decide)

end Enclosed

/-- The name of a verbatim sigil, which may be empty. -/
structure VerbatimName (name : List Char) : Prop where
  continues : ∀ c ∈ name, continuesName c = true
  short : name.length ≤ maxNameLength
  verbatim : name ≠ ['s'] ∧ name ≠ ['b']

theorem VerbatimName.sigilName {name : List Char} (valid : VerbatimName name) : SigilName name :=
  ⟨valid.continues, valid.short⟩

theorem VerbatimName.keepsBackslashes {name : List Char} (valid : VerbatimName name) :
    keepsBackslashes name = true := by
  simp [ErlangLexer.keepsBackslashes, valid.verbatim]

/-- The tokens of a string, and of the verbatim sigil of which it may be the string. -/
def stringKinds (value : String) : Option (List Char) → List Kind
  | none => [.string value]
  | some name => [.sigilPrefix (String.ofList name), .string value, .sigilSuffix ""]

namespace Layout

/-- The layout of some lines without their line breaks. -/
def ofLines (quotes : Nat) (opening indent : List Char) (lines : List (List Char)) : Layout :=
  ⟨quotes, opening, lines.map (· ++ ['\n']), indent⟩

/-- The source text of a literal, its closing quotes included. -/
def literal (layout : Layout) : List Char :=
  layout.source ++ List.replicate layout.quotes '"'

theorem literal_ofLines (quotes : Nat) (opening indent : List Char) (lines : List (List Char))
    (behind : List Char) :
    (ofLines quotes opening indent lines).literal ++ behind =
      List.replicate quotes '"' ++ (opening ++ '\n' :: ((lines.map (· ++ ['\n'])).flatten ++
        (indent ++ (List.replicate quotes '"' ++ behind)))) := by
  simp [literal, source, ofLines]

theorem exists_quote {quotes : Nat} (positive : 0 < quotes) (rest : List Char) :
    ∃ tail, List.replicate quotes '"' ++ rest = '"' :: tail := by
  obtain ⟨more, rfl⟩ := Nat.exists_eq_add_of_lt positive
  rw [Nat.zero_add]
  exact ⟨List.replicate more '"' ++ rest, rfl⟩

theorem exists_quote_literal {quotes : Nat} (positive : 0 < quotes) (opening indent : List Char)
    (lines : List (List Char)) (behind : List Char) :
    ∃ rest, (ofLines quotes opening indent lines).literal ++ behind = '"' :: rest := by
  rw [literal_ofLines]
  exact exists_quote positive _

theorem isPrefixOf_lineBreak {indent line : List Char} (inline : '\n' ∉ indent) :
    indent.isPrefixOf (line ++ ['\n']) = indent.isPrefixOf line := by
  rw [Bool.eq_iff_iff, List.isPrefixOf_iff_prefix, List.isPrefixOf_iff_prefix]
  constructor
  · intro front
    rcases List.prefix_concat_iff.mp front with whole | within
    · exact absurd (whole ▸ List.mem_append_right line (List.mem_singleton.mpr rfl)) inline
    · exact within
  · exact fun front => front.trans (List.prefix_append line ['\n'])

theorem stripLine_lineBreak {indent line : List Char} (inline : '\n' ∉ indent)
    (indented : indent <+: line ∨ ∀ c ∈ line, isBlank c = true) :
    stripLine indent (line ++ ['\n']) = some (unindent indent line ++ ['\n']) := by
  rw [stripLine, isPrefixOf_lineBreak inline, unindent]
  by_cases front : indent.isPrefixOf line = true
  · have short := (List.isPrefixOf_iff_prefix.mp front).length_le
    rw [if_pos front, if_pos front, List.drop_append_of_le_length short]
  · have blank : (line ++ ['\n']).all isBlank = true := by
      have all := indented.resolve_left fun h => front (List.isPrefixOf_iff_prefix.mpr h)
      simp only [List.all_append, Bool.and_eq_true, List.all_eq_true]
      exact ⟨all, by simp [isBlank]⟩
    rw [if_neg front, if_neg front, if_pos blank]
    rfl

theorem badIndent?_append {indent : List Char} (inline : '\n' ∉ indent)
    {above : List (List Char)}
    (indented : ∀ line ∈ above, indent <+: line ∨ ∀ c ∈ line, isBlank c = true)
    (below : List (List Char)) (offset : Nat) :
    badIndent? indent offset (above.map (· ++ ['\n']) ++ below) =
      badIndent? indent (offset + (above.map (· ++ ['\n'])).flatten.length) below := by
  induction above generalizing offset with
  | nil => rfl
  | cons line above ih =>
    obtain ⟨here, later⟩ := List.forall_mem_cons.mp indented
    rw [List.map_cons, List.cons_append, badIndent?, stripLine_lineBreak inline here]
    dsimp only
    rw [ih later]
    simp only [List.flatten_cons, List.length_append, Nat.add_assoc]

theorem badIndent?_lines {indent : List Char} (inline : '\n' ∉ indent) {lines : List (List Char)}
    (indented : ∀ line ∈ lines, indent <+: line ∨ ∀ c ∈ line, isBlank c = true) (offset : Nat) :
    badIndent? indent offset (lines.map (· ++ ['\n'])) = none := by
  have passed := badIndent?_append inline indented [] offset
  rwa [List.append_nil] at passed

theorem plainLines_lines {indent : List Char} (inline : '\n' ∉ indent) {lines : List (List Char)}
    (indented : ∀ line ∈ lines, indent <+: line ∨ ∀ c ∈ line, isBlank c = true) :
    plainLines indent (lines.map (· ++ ['\n'])) =
      ((lines.map (unindent indent)).map (· ++ ['\n'])).flatten := by
  have stripped : (lines.map (· ++ ['\n'])).filterMap (stripLine indent) =
      (lines.map (unindent indent)).map (· ++ ['\n']) := by
    rw [List.filterMap_map, List.map_map, ← List.filterMap_eq_map]
    exact List.filterMap_congr fun line listed => stripLine_lineBreak inline (indented line listed)
  rw [plainLines, stripped]

theorem flatten_lineBreaks (line : List Char) (lines : List (List Char)) :
    ((line :: lines).map (· ++ ['\n'])).flatten =
      List.intercalate ['\n'] (line :: lines) ++ ['\n'] := by
  induction lines generalizing line with
  | nil => simp
  | cons next lines ih =>
    rw [List.map_cons, List.flatten_cons, ih, List.intercalate_cons_cons]
    simp only [List.append_assoc]

theorem dropLastBreak_lineBreaks {lines parts : List (List Char)}
    (length : lines.length = parts.length) :
    dropLastBreak lines (parts.map (· ++ ['\n'])).flatten = joined parts := by
  match parts with
  | [] => simp [dropLastBreak, joined]
  | [line] => simp [dropLastBreak, joined, length]
  | line :: next :: parts =>
    have several : 1 < lines.length := by
      rw [length]
      simp
    rw [flatten_lineBreaks, dropLastBreak, List.getLast?_concat, List.dropLast_concat]
    simp [several, joined]

/-- The layout of some lines has their content. -/
theorem value_ofLines {quotes : Nat} {opening indent : List Char} {lines : List (List Char)}
    (laid : WellLaid quotes opening indent lines) :
    (ofLines quotes opening indent lines).value true = .ok (content indent lines) := by
  have inline := laid.enclosed.inline
  have blank : opening.findIdx? (fun c => !isInlineBlank c) = none := by
    rw [List.findIdx?_eq_none_iff]
    intro c listed
    simp [laid.opening_blank c listed]
  simp only [value, ofLines, blank, badIndent?_lines inline laid.indented, ↓reduceIte,
    plainLines_lines inline laid.indented, Except.ok.injEq]
  refine dropLastBreak_lineBreaks ?_
  rw [List.length_map, List.length_map]

/-! ## Literals being read -/

/-- A layout with one more character, in the line that may yet be the last. -/
def push (layout : Layout) (c : Char) : Layout :=
  if c = '\n' then { layout with lines := layout.lines ++ [layout.indent ++ ['\n']], indent := [] }
  else { layout with indent := layout.indent ++ [c] }

theorem source_push (layout : Layout) (c : Char) :
    (layout.push c).source = layout.source ++ [c] := by
  unfold push
  split
  · subst_vars
    simp [source]
  · simp [source]

theorem foldl_push {piece : List Char} (inline : ∀ c ∈ piece, c ≠ '\n') (layout : Layout) :
    piece.foldl push layout = { layout with indent := layout.indent ++ piece } := by
  induction piece generalizing layout with
  | nil => simp
  | cons c piece ih =>
    have step : layout.push c = { layout with indent := layout.indent ++ [c] } :=
      if_neg (inline c List.mem_cons_self)
    rw [List.foldl_cons, step, ih fun d listed => inline d (List.mem_cons_of_mem c listed)]
    simp

end Layout

namespace TripleQuotedDraft

/-- Lines with the lines of the source that they are. -/
def numbered (line : Int32) : List (List Char) → List ContentLine
  | [] => []
  | text :: lines => ⟨line, String.ofList text⟩ :: numbered (Location.lineBelow line) lines

/-- The line of the source below some lines. -/
def lineBehind (line : Int32) (lines : List (List Char)) : Int32 :=
  lines.foldl (fun line _ => Location.lineBelow line) line

theorem numbered_concat (line : Int32) (lines : List (List Char)) (text : List Char) :
    numbered line (lines ++ [text]) =
      numbered line lines ++ [⟨lineBehind line lines, String.ofList text⟩] := by
  induction lines generalizing line with
  | nil => rfl
  | cons above lines ih => rw [List.cons_append, numbered, ih, numbered, lineBehind]; rfl

theorem texts_numbered (line : Int32) (lines : List (List Char)) :
    (numbered line lines).map (·.text.toList) = lines := by
  induction lines generalizing line with
  | nil => rfl
  | cons text lines ih => rw [numbered, List.map_cons, ih, String.toList_ofList]

/-- A literal with this layout, but for its closing quotes. -/
def ofLayout (start : Location) (sigil : Option Sigil) (layout : Layout) : TripleQuotedDraft :=
  let first := Location.lineBelow start.line
  ⟨⟨start, String.ofList layout.source⟩, layout.quotes, sigil, String.ofList layout.opening,
    some ⟨(numbered first layout.lines).toArray, lineBehind first layout.lines,
      String.ofList layout.indent, layout.indent.all isInlineBlank, by rw [String.toList_ofList]⟩⟩

theorem layout_ofLayout (start : Location) (sigil : Option Sigil) (layout : Layout) :
    (ofLayout start sigil layout).layout = layout := by
  simp [ofLayout, TripleQuotedDraft.layout, lines, indent, texts_numbered]

theorem push_ofLayout (start : Location) (sigil : Option Sigil) (layout : Layout) (c : Char) :
    (ofLayout start sigil layout).push c = ofLayout start sigil (layout.push c) := by
  have source := layout.source_push c
  simp only [ofLayout, push, source, ofList_push, TripleQuotedBody.push]
  unfold Layout.push
  split
  · subst_vars
    simp [TripleQuotedBody.empty, numbered_concat, lineBehind]
  · simp

/-- A literal whose opening line has not ended. -/
def ofOpening (start : Location) (sigil : Option Sigil) (quotes : Nat) (line : List Char) :
    TripleQuotedDraft :=
  ⟨⟨start, String.ofList (List.replicate quotes '"' ++ line)⟩, quotes, sigil,
    String.ofList line, none⟩

theorem push_ofOpening (start : Location) (sigil : Option Sigil) (quotes : Nat) (line : List Char)
    {c : Char} (inline : c ≠ '\n') :
    (ofOpening start sigil quotes line).push c = ofOpening start sigil quotes (line ++ [c]) := by
  simp only [ofOpening, push, inline, ↓reduceIte, ofList_push, List.append_assoc]

theorem made_ofOpening (start : Location) (sigil : Option Sigil) (quotes : Nat) {line : List Char}
    (inline : '\n' ∉ line) : (ofOpening start sigil quotes line).Made where
  source := by simp [ofOpening, interior]
  lines := by simp [ofOpening]
  opening := by simpa [ofOpening] using inline
  placed := by simp [ofOpening]

theorem push_lineBreak_ofOpening (start : Location) (sigil : Option Sigil) (quotes : Nat)
    (line : List Char) :
    (ofOpening start sigil quotes line).push '\n' =
      ofLayout start sigil ⟨quotes, line, [], []⟩ := by
  simp only [ofOpening, push, ↓reduceIte, ofList_push, List.append_assoc]
  rfl

end TripleQuotedDraft

namespace State

variable {options : Options} {extent : Extent} {state : State} {sigil : Option Sigil}
  {layout : Layout}

/-- Within a literal that starts where the state is, when so much of it is read. -/
def within (state : State) (sigil : Option Sigil) (layout : Layout) : State :=
  { state with
    location := state.location.walk layout.source
    mode := .tripleQuoted (.ofLayout state.location sigil layout) }

theorem move_within (options : Options) (text : List Char) :
    (state.within sigil layout).move options true text =
      (TripleQuotedDraft.ofLayout state.location sigil layout).move
        (state.location.walk layout.source) text true := rfl

theorem foldl_push_ofLayout (start : Location) (layout : Layout) (text : List Char) :
    text.foldl TripleQuotedDraft.push (.ofLayout start sigil layout) =
      .ofLayout start sigil (text.foldl Layout.push layout) := by
  induction text generalizing layout with
  | nil => rfl
  | cons c text ih => rw [List.foldl_cons, List.foldl_cons, TripleQuotedDraft.push_ofLayout, ih]

theorem made_ofLayout (start : Location) (sigil : Option Sigil) (layout : Layout)
    (opening : '\n' ∉ layout.opening)
    (lines : ∀ line ∈ layout.lines, ∃ front, line = front ++ ['\n'] ∧ '\n' ∉ front)
    (indent : '\n' ∉ layout.indent) : (TripleQuotedDraft.ofLayout start sigil layout).Made := by
  obtain ⟨quotes, line, above, last⟩ := layout
  dsimp only at opening lines indent
  have whole : (TripleQuotedDraft.ofLayout start sigil ⟨quotes, line, above, []⟩).Made := by
    induction above using List.reverseRecOn with
    | nil =>
      rw [← TripleQuotedDraft.push_lineBreak_ofOpening]
      exact TripleQuotedDraft.made_push
        (TripleQuotedDraft.made_ofOpening start sigil quotes opening) '\n'
    | append_singleton above text ih =>
      obtain ⟨front, rfl, inline⟩ := lines text (by simp)
      have made := TripleQuotedDraft.made_foldl
        (ih fun other listed => lines other (List.mem_append_left _ listed)) (front ++ ['\n'])
      have pushed : (front ++ ['\n']).foldl Layout.push ⟨quotes, line, above, []⟩ =
          ⟨quotes, line, above ++ [front ++ ['\n']], []⟩ := by
        rw [List.foldl_append, Layout.foldl_push fun c listed same => inline (same ▸ listed)]
        simp [Layout.push]
      rw [foldl_push_ofLayout, pushed] at made
      exact made
  have made := TripleQuotedDraft.made_foldl whole last
  rw [foldl_push_ofLayout, Layout.foldl_push fun c listed same => indent (same ▸ listed)] at made
  exact made

theorem source_foldl_push (layout : Layout) (text : List Char) :
    (text.foldl Layout.push layout).source = layout.source ++ text := by
  induction text generalizing layout with
  | nil => simp
  | cons c text ih =>
    rw [List.foldl_cons, ih, Layout.source_push, List.append_assoc, List.singleton_append]

theorem read_within (text : List Char) (width : Nat) :
    (state.within sigil layout).read text width
        (.tripleQuoted ((text.take width).foldl TripleQuotedDraft.push
          (.ofLayout state.location sigil layout))) =
      state.within sigil ((text.take width).foldl Layout.push layout) := by
  rw [foldl_push_ofLayout]
  simp only [within, read, source_foldl_push, Location.walk_append]

theorem run_content {here : State} {draft : TripleQuotedDraft} {ended : Bool} {c : Char}
    (rest : List Char) (mode : here.mode = .tripleQuoted draft) (text : isText c = true)
    (not_closing : c = '"' → draft.mayClose = false) :
    here.run options extent ended (c :: rest) =
      (here.read (c :: rest) 1 (.tripleQuoted (draft.push c))).run options extent ended rest := by
  have open_end : (c == '"' && draft.mayClose) = false := by
    by_cases quote : c = '"'
    · rw [not_closing quote, Bool.and_false]
    · simp [quote]
  have step : here.move options ended (c :: rest) = .read 1 (.tripleQuoted (draft.push c)) := by
    simp only [move, mode, TripleQuotedDraft.move, text, open_end, Bool.not_true,
      Bool.false_eq_true, ↓reduceIte]
  rw [run_eq, step]
  simp only [List.drop_succ_cons, List.drop_zero]

theorem run_content_quotes {here : State} {draft : TripleQuotedDraft} {rest : List Char}
    (mode : here.mode = .tripleQuoted draft) (closes : draft.mayClose = true)
    (other : runLength '"' ('"' :: rest) ≠ draft.quotes) :
    here.run options extent true ('"' :: rest) =
      (here.read ('"' :: rest) (runLength '"' ('"' :: rest))
        (.tripleQuoted (draft.pushFront ('"' :: rest) (runLength '"' ('"' :: rest))))).run
        options extent true (('"' :: rest).drop (runLength '"' ('"' :: rest))) := by
  have text : isText '"' = true := by decide
  have step : here.move options true ('"' :: rest) = .read (runLength '"' ('"' :: rest))
      (.tripleQuoted (draft.pushFront ('"' :: rest) (runLength '"' ('"' :: rest)))) := by
    simp only [move, mode, TripleQuotedDraft.move, text, closes, Bool.not_true,
      Bool.false_eq_true, ↓reduceIte, beq_self_eq_true, Bool.and_self,
      TripleQuotedDraft.quoteRun, Bool.false_and, other]
  rw [run_eq, step]

theorem run_push {c : Char} {rest : List Char} (text : isText c = true)
    (not_closing : c = '"' → layout.indent.all isInlineBlank = false) :
    (state.within sigil layout).run options extent true (c :: rest) =
      (state.within sigil (layout.push c)).run options extent true rest := by
  have later : (state.within sigil layout).read (c :: rest) 1
      (.tripleQuoted ((TripleQuotedDraft.ofLayout state.location sigil layout).push c)) =
        state.within sigil (layout.push c) := read_within (c :: rest) 1
  have open_end : c = '"' →
      (TripleQuotedDraft.ofLayout state.location sigil layout).mayClose = false := not_closing
  rw [run_content rest rfl text open_end, later]

theorem run_unquoted {piece : List Char} (text : ∀ c ∈ piece, isText c = true ∧ c ≠ '"')
    (rest : List Char) :
    (state.within sigil layout).run options extent true (piece ++ rest) =
      (state.within sigil (piece.foldl Layout.push layout)).run options extent true rest := by
  induction piece generalizing layout with
  | nil => rfl
  | cons c piece ih =>
    obtain ⟨text_c, no_quote⟩ := text c List.mem_cons_self
    rw [List.cons_append, run_push text_c fun quote => absurd quote no_quote,
      ih fun d listed => text d (List.mem_cons_of_mem c listed), List.foldl_cons]

/-- Behind other text on its line, quotes belong to the literal as well. -/
theorem run_behind_text {piece : List Char} (text : ∀ c ∈ piece, isText c = true ∧ c ≠ '\n')
    (other : layout.indent.all isInlineBlank = false) (rest : List Char) :
    (state.within sigil layout).run options extent true (piece ++ rest) =
      (state.within sigil (piece.foldl Layout.push layout)).run options extent true rest := by
  induction piece generalizing layout with
  | nil => rfl
  | cons c piece ih =>
    obtain ⟨text_c, inline⟩ := text c List.mem_cons_self
    have still_other : (layout.push c).indent.all isInlineBlank = false := by
      rw [Layout.push, if_neg inline]
      simp only [List.all_append, other, Bool.false_and]
    rw [List.cons_append, run_push text_c fun _ => other,
      ih (fun d listed => text d (List.mem_cons_of_mem c listed)) still_other, List.foldl_cons]

theorem run_quotes {rest : List Char} (blank : layout.indent.all isInlineBlank = true)
    (other : runLength '"' ('"' :: rest) ≠ layout.quotes) :
    (state.within sigil layout).run options extent true ('"' :: rest) =
      (state.within sigil
          ((List.replicate (runLength '"' ('"' :: rest)) '"').foldl Layout.push layout)).run
        options extent true (('"' :: rest).drop (runLength '"' ('"' :: rest))) := by
  have mayClose : (TripleQuotedDraft.ofLayout state.location sigil layout).mayClose = true :=
    blank
  have differs : runLength '"' ('"' :: rest) ≠
      (TripleQuotedDraft.ofLayout state.location sigil layout).quotes := other
  rw [run_content_quotes rfl mayClose differs]
  simp only [TripleQuotedDraft.pushFront, read_within]
  rw [take_runLength]

theorem run_lineBreak (rest : List Char) :
    (state.within sigil layout).run options extent true ('\n' :: rest) =
      (state.within sigil (layout.push '\n')).run options extent true rest :=
  run_push (by decide) fun quote => absurd quote (by decide)

theorem not_blank_of_mem (layout : Layout) {piece : List Char} {c : Char}
    (inline : ∀ c ∈ piece, c ≠ '\n') (listed : c ∈ piece) (other : isInlineBlank c = false) :
    (piece.foldl Layout.push layout).indent.all isInlineBlank = false := by
  rw [Layout.foldl_push inline, List.all_append, List.all_eq_false.mpr ⟨c, listed, by simp [other]⟩,
    Bool.and_false]

/-- A run of quotes that does not close the literal, and the line behind it. -/
theorem run_behind_quotes {tail : List Char} (blank : layout.indent.all isInlineBlank = true)
    (text : ∀ c ∈ tail, isText c = true ∧ c ≠ '\n')
    (not_closing : runLength '"' ('"' :: tail) ≠ layout.quotes) (rest : List Char) :
    (state.within sigil layout).run options extent true ('"' :: (tail ++ '\n' :: rest)) =
      (state.within sigil (('"' :: tail).foldl Layout.push layout)).run options extent true
        ('\n' :: rest) := by
  have run : runLength '"' ('"' :: (tail ++ '\n' :: rest)) = runLength '"' ('"' :: tail) :=
    runLength_append_cons ('"' :: tail) rest (by decide)
  have whole : List.replicate (runLength '"' ('"' :: tail)) '"' ++
      ('"' :: tail).drop (runLength '"' ('"' :: tail)) = '"' :: tail := by
    rw [← take_runLength, List.take_append_drop]
  have positive := runLength_pos '"' tail
  have behind : ∀ c ∈ ('"' :: tail).drop (runLength '"' ('"' :: tail)),
      isText c = true ∧ c ≠ '\n' := by
    intro c listed
    obtain ⟨length, counted⟩ := Nat.exists_eq_add_of_lt positive
    rw [counted, Nat.zero_add, List.drop_succ_cons] at listed
    exact text c (List.mem_of_mem_drop listed)
  rw [run_quotes blank (run ▸ not_closing), run, ← List.cons_append,
    List.drop_append_of_le_length (runLength_le '"' ('"' :: tail))]
  generalize runLength '"' ('"' :: tail) = length at whole positive behind
  have inline : ∀ c ∈ List.replicate length '"', c ≠ '\n' := by
    intro c listed
    rw [List.eq_of_mem_replicate listed]
    decide
  have other := not_blank_of_mem layout inline
    (List.mem_replicate.mpr ⟨Nat.ne_of_gt positive, rfl⟩) (by decide)
  rw [run_behind_text behind other, ← List.foldl_append, whole]

/-- The text of a line behind its blanks, which may start with quotes. -/
theorem run_behind_blanks {tail : List Char} (blank : layout.indent.all isInlineBlank = true)
    (text : ∀ c ∈ tail, isText c = true ∧ c ≠ '\n')
    (front : ∀ c, tail.head? = some c → isInlineBlank c = false)
    (not_closing : runLength '"' tail ≠ layout.quotes) (rest : List Char) :
    (state.within sigil layout).run options extent true (tail ++ '\n' :: rest) =
      (state.within sigil (tail.foldl Layout.push layout)).run options extent true
        ('\n' :: rest) := by
  cases tail with
  | nil => rfl
  | cons c tail =>
    have behind : ∀ d ∈ tail, isText d = true ∧ d ≠ '\n' :=
      fun d listed => text d (List.mem_cons_of_mem c listed)
    by_cases quote : c = '"'
    · subst quote
      exact run_behind_quotes blank behind not_closing rest
    · obtain ⟨text_c, inline_c⟩ := text c List.mem_cons_self
      have inline : ∀ d ∈ [c], d ≠ '\n' :=
        fun d listed => List.mem_singleton.mp listed ▸ inline_c
      have other := not_blank_of_mem layout inline (List.mem_singleton.mpr rfl) (front c rfl)
      rw [List.cons_append, run_push text_c fun same => absurd same quote]
      exact run_behind_text behind other _

/-- A line that does not close the literal belongs to it. -/
theorem run_line {line : List Char} (start : layout.indent = [])
    (text : ∀ c ∈ line, isText c = true ∧ c ≠ '\n')
    (not_closing : runLength '"' (line.dropWhile isInlineBlank) ≠ layout.quotes)
    (rest : List Char) :
    (state.within sigil layout).run options extent true (line ++ '\n' :: rest) =
      (state.within sigil { layout with lines := layout.lines ++ [line ++ ['\n']] }).run
        options extent true rest := by
  have split : line.takeWhile isInlineBlank ++ line.dropWhile isInlineBlank = line :=
    List.takeWhile_append_dropWhile
  have plain : ∀ c ∈ line.takeWhile isInlineBlank, isText c = true ∧ c ≠ '"' :=
    fun c listed => plain_of_inlineBlank (List.mem_takeWhile_imp listed)
  have inline : ∀ c ∈ line, c ≠ '\n' := fun c listed => (text c listed).2
  have inline_blanks : ∀ c ∈ line.takeWhile isInlineBlank, c ≠ '\n' :=
    fun c listed => inline c ((List.takeWhile_sublist _).subset listed)
  have blank : ((line.takeWhile isInlineBlank).foldl Layout.push layout).indent.all isInlineBlank =
      true := by
    rw [Layout.foldl_push inline_blanks, start, List.nil_append]
    exact List.all_eq_true.mpr fun c listed => List.mem_takeWhile_imp listed
  have behind : ∀ c ∈ line.dropWhile isInlineBlank, isText c = true ∧ c ≠ '\n' :=
    fun c listed => text c ((List.dropWhile_sublist _).subset listed)
  have front : ∀ c, (line.dropWhile isInlineBlank).head? = some c → isInlineBlank c = false := by
    intro c head
    have first := List.head?_dropWhile_not isInlineBlank line
    rw [head] at first
    exact first
  have quotes : ((line.takeWhile isInlineBlank).foldl Layout.push layout).quotes =
      layout.quotes := by
    rw [Layout.foldl_push inline_blanks]
  rw [← quotes] at not_closing
  have read : (state.within sigil layout).run options extent true (line ++ '\n' :: rest) =
      (state.within sigil (line.foldl Layout.push layout)).run options extent true
        ('\n' :: rest) := by
    conv => lhs; rw [← split, List.append_assoc]
    rw [run_unquoted plain, run_behind_blanks blank behind front not_closing, ← List.foldl_append,
      split]
  rw [read, run_lineBreak, Layout.foldl_push inline, start]
  rfl

theorem run_lines {lines : List (List Char)} (start : layout.indent = [])
    (text : ∀ line ∈ lines, ∀ c ∈ line, isText c = true ∧ c ≠ '\n')
    (not_closing : ∀ line ∈ lines, runLength '"' (line.dropWhile isInlineBlank) ≠ layout.quotes)
    (rest : List Char) :
    (state.within sigil layout).run options extent true
        ((lines.map (· ++ ['\n'])).flatten ++ rest) =
      (state.within sigil { layout with
          lines := layout.lines ++ lines.map (· ++ ['\n']) }).run options extent true rest := by
  induction lines generalizing layout with
  | nil => simp
  | cons line lines ih =>
    have later : (state.within sigil { layout with
          lines := layout.lines ++ [line ++ ['\n']] }).run options extent true
        ((lines.map (· ++ ['\n'])).flatten ++ rest) = _ :=
      ih start (fun other listed => text other (List.mem_cons_of_mem line listed))
      (fun other listed => not_closing other (List.mem_cons_of_mem line listed))
    rw [List.map_cons, List.flatten_cons, List.append_assoc, List.append_assoc,
      List.singleton_append, run_line start (text line List.mem_cons_self)
        (not_closing line List.mem_cons_self), later]
    simp only [List.append_assoc, List.singleton_append]

/-! ## Whole literals -/

/-- The mode behind a literal. -/
def modeBehind (here : Location) : Option Sigil → Mode
  | some _ => .name ⟨here, .sigilSuffix false, ""⟩
  | none => .between

theorem runLength_quotes (quotes : Nat) {behind : List Char} (ends : behind.head? ≠ some '"') :
    runLength '"' (List.replicate quotes '"' ++ behind) = quotes := by
  have run : isRun '"' (List.replicate quotes '"') = true := by simp [isRun]
  cases behind with
  | nil => rw [List.append_nil, runLength_of_isRun run, List.length_replicate]
  | cons c behind =>
    have other : c ≠ '"' := fun same => ends (congrArg some same)
    rw [runLength_append_cons _ _ other, runLength_of_isRun run, List.length_replicate]

theorem lexeme_closing (start : Location) (sigil : Option Sigil) (layout : Layout)
    (behind : List Char) :
    (TripleQuotedDraft.ofLayout start sigil layout).lexeme.extend
        (List.replicate layout.quotes '"' ++ behind) layout.quotes =
      ⟨start, String.ofList layout.literal⟩ := by
  have source : ((TripleQuotedDraft.ofLayout start sigil layout).lexeme.extend
      (List.replicate layout.quotes '"' ++ behind) layout.quotes).source =
        String.ofList layout.literal := by
    rw [← String.toList_inj, Lexeme.toList_extend]
    simp [TripleQuotedDraft.ofLayout, Layout.literal]
  exact congrArg (Lexeme.mk start) source

theorem move_closing {behind : List Char} (blank : layout.indent.all isInlineBlank = true)
    (positive : 0 < layout.quotes) (ends : behind.head? ≠ some '"') :
    (state.within sigil layout).move options true
        (List.replicate layout.quotes '"' ++ behind) =
      (TripleQuotedDraft.ofLayout state.location sigil layout).complete
        (state.location.walk layout.source) (List.replicate layout.quotes '"' ++ behind) := by
  have run := runLength_quotes layout.quotes ends
  obtain ⟨tail, quote⟩ := Layout.exists_quote positive behind
  rw [quote] at run ⊢
  have mayClose : (TripleQuotedDraft.ofLayout state.location sigil layout).mayClose = true :=
    blank
  have quotes : (TripleQuotedDraft.ofLayout state.location sigil layout).quotes =
      layout.quotes := rfl
  have text : isText '"' = true := by decide
  simp only [move_within, TripleQuotedDraft.move, text, Bool.not_true, Bool.false_eq_true,
    ↓reduceIte, mayClose, beq_self_eq_true, Bool.and_self, TripleQuotedDraft.quoteRun, run,
    Bool.false_and, quotes]

theorem take_quotes (quotes : Nat) (behind : List Char) :
    (List.replicate quotes '"' ++ behind).take quotes = List.replicate quotes '"' := by
  simp

/-- Quotes where they close a literal. -/
theorem run_closing {value behind : List Char} (blank : layout.indent.all isInlineBlank = true)
    (positive : 0 < layout.quotes) (laid : layout.value (sigil.all (·.verbatim)) = .ok value)
    (ends : behind.head? ≠ some '"') :
    (state.within sigil layout).run options extent true
        (List.replicate layout.quotes '"' ++ behind) =
      { state.behindToken options (.string (String.ofList value)) layout.literal with
        mode := modeBehind (state.location.walk layout.literal) sigil }.run
          options extent true behind := by
  have front := take_quotes layout.quotes behind
  have lexeme := lexeme_closing state.location sigil layout behind
  have completes : (TripleQuotedDraft.ofLayout state.location sigil layout).complete
      (state.location.walk layout.source) (List.replicate layout.quotes '"' ++ behind) =
        .emit layout.quotes (.string (String.ofList value))
          ⟨state.location, String.ofList layout.literal⟩
          (modeBehind (state.location.walk layout.literal) sigil) := by
    have quotes : (TripleQuotedDraft.ofLayout state.location sigil layout).quotes =
        layout.quotes := rfl
    rw [← TripleQuotedDraft.layout_ofLayout state.location sigil layout] at laid
    have valued : (TripleQuotedDraft.ofLayout state.location sigil layout).value
        (state.location.walk layout.source) = .ok value :=
      TripleQuotedDraft.value_eq_ok_iff.mpr laid
    simp only [TripleQuotedDraft.complete, valued, quotes, lexeme, front, Layout.literal,
      Location.walk_append]
    cases sigil <;> rfl
  have later : ((state.within sigil layout).record options (.string (String.ofList value))
      ⟨state.location, String.ofList layout.literal⟩).read
        (List.replicate layout.quotes '"' ++ behind) layout.quotes
        (modeBehind (state.location.walk layout.literal) sigil) =
      { state.behindToken options (.string (String.ofList value)) layout.literal with
        mode := modeBehind (state.location.walk layout.literal) sigil } := by
    simp only [read, front, behindToken_eq, record, within, Layout.literal, Location.walk_append]
  rw [run_eq, move_closing blank positive ends, completes]
  simp only [reduceCtorEq, false_and, ↓reduceIte]
  rw [later]
  simp

/-- Quotes that close a literal whose layout is at fault. -/
theorem run_fault {fault : Layout.Fault} {behind : List Char}
    (made : (TripleQuotedDraft.ofLayout state.location sigil layout).Made)
    (blank : layout.indent.all isInlineBlank = true) (positive : 0 < layout.quotes)
    (faulty : layout.value (sigil.all (·.verbatim)) = .error fault)
    (ends : behind.head? ≠ some '"') :
    (state.within sigil layout).run options extent true
        (List.replicate layout.quotes '"' ++ behind) =
      .stopped (.error ⟨state.location.walk (layout.source.take fault.offset), fault.cause⟩
        ((state.location.walk (layout.source.take fault.offset)).shift fault.width)) behind := by
  have columns : (state.location.walk layout.source).hasColumn =
      (TripleQuotedDraft.ofLayout state.location sigil layout).lexeme.start.hasColumn :=
    state.location.hasColumn_walk layout.source
  have rejects : (TripleQuotedDraft.ofLayout state.location sigil layout).complete
      (state.location.walk layout.source) (List.replicate layout.quotes '"' ++ behind) =
        .reject layout.quotes
          ⟨state.location.walk (layout.source.take fault.offset), fault.cause⟩
          ((state.location.walk (layout.source.take fault.offset)).shift fault.width) := by
    have quotes : (TripleQuotedDraft.ofLayout state.location sigil layout).quotes =
        layout.quotes := rfl
    rw [← TripleQuotedDraft.layout_ofLayout state.location sigil layout] at faulty
    obtain ⟨location, placed, wrong⟩ := TripleQuotedDraft.value_of_fault
      (state.location.walk layout.source) faulty
    obtain rfl := placed.eq_locate made columns
    simp only [TripleQuotedDraft.complete, wrong, quotes]
    simp only [TripleQuotedDraft.locate, TripleQuotedDraft.ofLayout, String.toList_ofList]
  rw [run_eq, move_closing blank positive ends, rejects]
  simp

/-- Within the opening line of a literal. -/
def opening (state : State) (sigil : Option Sigil) (quotes : Nat) (line : List Char) : State :=
  { state with
    location := state.location.walk (List.replicate quotes '"' ++ line)
    mode := .tripleQuoted (.ofOpening state.location sigil quotes line) }

theorem run_opening_push {quotes : Nat} {line rest : List Char} {c : Char}
    (text : isText c = true) :
    (state.opening sigil quotes line).run options extent true (c :: rest) =
      { state with
        location := state.location.walk (List.replicate quotes '"' ++ (line ++ [c]))
        mode := .tripleQuoted
          ((TripleQuotedDraft.ofOpening state.location sigil quotes line).push c) }.run
        options extent true rest := by
  rw [run_content rest rfl text fun _ => rfl, ← List.append_assoc, Location.walk_append]
  rfl

theorem run_opening_line {quotes : Nat} {line more : List Char}
    (text : ∀ c ∈ more, isText c = true ∧ c ≠ '\n') (rest : List Char) :
    (state.opening sigil quotes line).run options extent true (more ++ '\n' :: rest) =
      (state.within sigil ⟨quotes, line ++ more, [], []⟩).run options extent true rest := by
  induction more generalizing line with
  | nil =>
    rw [List.nil_append, List.append_nil, run_opening_push (by decide),
      TripleQuotedDraft.push_lineBreak_ofOpening]
    rfl
  | cons c more ih =>
    obtain ⟨text_c, inline⟩ := text c List.mem_cons_self
    rw [List.cons_append, run_opening_push text_c,
      TripleQuotedDraft.push_ofOpening _ _ _ _ inline, List.append_cons line c more]
    exact ih fun d listed => text d (List.mem_cons_of_mem c listed)

theorem move_opening {quotes : Nat} {behind : List Char} (enough : 3 ≤ quotes)
    (ends : behind.head? ≠ some '"')
    (opens : ∀ text, state.move options true ('"' :: text) =
      QuoteRun.move state.location sigil ('"' :: text) true) :
    state.move options true (List.replicate quotes '"' ++ behind) =
      .read quotes (.tripleQuoted (.ofOpening state.location sigil quotes [])) := by
  have run := runLength_quotes quotes ends
  have front : (List.replicate quotes '"' ++ behind).take quotes = List.replicate quotes '"' := by
    simp
  obtain ⟨tail, quote⟩ := Layout.exists_quote (show 0 < quotes by omega) behind
  have not_one : quotes ≠ 1 := by omega
  have not_two : quotes ≠ 2 := by omega
  rw [quote] at run front ⊢
  simp only [opens, QuoteRun.move, run, Bool.not_true, Bool.false_and, Bool.false_eq_true,
    ↓reduceIte, not_one, not_two, TripleQuotedDraft.openMove, Lexeme.front, front,
    TripleQuotedDraft.ofOpening, List.append_nil]

theorem run_opening {quotes : Nat} {line rest : List Char} (enough : 3 ≤ quotes)
    (no_quote : line.head? ≠ some '"') (text : ∀ c ∈ line, isText c = true ∧ c ≠ '\n')
    (opens : ∀ text, state.move options true ('"' :: text) =
      QuoteRun.move state.location sigil ('"' :: text) true) :
    state.run options extent true (List.replicate quotes '"' ++ (line ++ '\n' :: rest)) =
      (state.within sigil ⟨quotes, line, [], []⟩).run options extent true rest := by
  have ends : (line ++ '\n' :: rest).head? ≠ some '"' := by
    cases line with
    | nil => simp
    | cons c line => exact no_quote
  have later : state.read (List.replicate quotes '"' ++ (line ++ '\n' :: rest)) quotes
      (.tripleQuoted (.ofOpening state.location sigil quotes [])) =
        state.opening sigil quotes [] := by
    simp [read, opening]
  have behind : (List.replicate quotes '"' ++ (line ++ '\n' :: rest)).drop quotes =
      line ++ '\n' :: rest := by simp
  rw [run_eq, move_opening enough ends opens]
  simp only [later, behind]
  exact run_opening_line text rest

/-- A literal is read to the quotes that close it. -/
theorem run_to_closing {quotes : Nat} {opening indent : List Char} {lines : List (List Char)}
    (enclosed : Enclosed quotes opening indent lines)
    (opens : ∀ text, state.move options true ('"' :: text) =
      QuoteRun.move state.location sigil ('"' :: text) true) (behind : List Char) :
    state.run options extent true
        ((Layout.ofLines quotes opening indent lines).literal ++ behind) =
      (state.within sigil (Layout.ofLines quotes opening indent lines)).run options extent true
        (List.replicate quotes '"' ++ behind) := by
  have plain : ∀ c ∈ indent, isText c = true ∧ c ≠ '"' :=
    fun c listed => plain_of_inlineBlank (enclosed.indent_blank c listed)
  rw [Layout.literal_ofLines,
    run_opening enclosed.enough enclosed.no_quote enclosed.opening_text opens,
    run_lines rfl enclosed.text enclosed.not_closing, run_unquoted plain,
    Layout.foldl_push fun c listed same => enclosed.inline (same ▸ listed)]
  rfl

theorem run_literal {quotes : Nat} {opening indent behind : List Char}
    {lines : List (List Char)} (laid : WellLaid quotes opening indent lines)
    (opens : ∀ text, state.move options true ('"' :: text) =
      QuoteRun.move state.location sigil ('"' :: text) true)
    (verbatim : sigil.all (·.verbatim) = true) (ends : behind.head? ≠ some '"') :
    let layout := Layout.ofLines quotes opening indent lines
    state.run options extent true (layout.literal ++ behind) =
      { state.behindToken options (.string (String.ofList (content indent lines)))
          layout.literal with
        mode := modeBehind (state.location.walk layout.literal) sigil }.run
          options extent true behind := by
  intro layout
  rw [run_to_closing laid.enclosed opens]
  exact run_closing laid.enclosed.all_blank laid.enclosed.positive
    (verbatim ▸ Layout.value_ofLines laid) ends

/-! ## Strings with their sigils -/

theorem not_quote_of_blank {c : Char} (blank : isBlank c = true) : c ≠ '"' := by
  rintro rfl
  exact absurd blank (by decide)

theorem not_continuesName_of_blank {c : Char} (blank : isBlank c = true) :
    continuesName c = false := by
  by_contra continues
  simp only [isBlank, continuesName, isLetter, isLower, isUpper, isDigit, Char.le_def,
    UInt32.le_iff_toNat_le, Bool.or_eq_true, Bool.and_eq_true, decide_eq_true_eq,
    Bool.not_eq_false, beq_iff_eq, Char.ext_iff, ← UInt32.toNat_inj] at blank continues
  simp only [Char.reduceVal, UInt32.reduceToNat] at blank continues
  omega

/-- A scan behind a string, and behind the verbatim sigil of which it may be the string. -/
def behindString (options : Options) (state : State) (sigil : Option (List Char))
    (literal : List Char) (value : String) : State :=
  match sigil with
  | none => state.behindToken options (.string value) literal
  | some name =>
    ((state.behindToken options (.sigilPrefix (String.ofList name)) ('~' :: name)).behindToken
      options (.string value) literal).behindToken options (.sigilSuffix "") []

theorem kinds_behindString (options : Options) (state : State) (sigil : Option (List Char))
    (literal : List Char) (value : String) :
    (state.behindString options sigil literal value).tokens.toList.map (·.kind) =
      state.tokens.toList.map (·.kind) ++ stringKinds value sigil := by
  cases sigil <;> simp [behindString, behindToken, stringKinds]

theorem location_behindString (options : Options) (state : State) (sigil : Option (List Char))
    (literal : List Char) (value : String) :
    (state.behindString options sigil literal value).location =
      state.location.walk (sigilSource sigil ++ literal) := by
  cases sigil with
  | none => rfl
  | some name => exact (Location.walk_append _ ('~' :: name) literal).symm

/-- A string and its sigil are read to their end. -/
theorem run_string {quotes : Nat} {opening indent behind : List Char} {lines : List (List Char)}
    (laid : WellLaid quotes opening indent lines) {name : Option (List Char)}
    (valid : ∀ n ∈ name, VerbatimName n) (mode : state.mode = .between)
    (ends : ∀ c, behind.head? = some c → isBlank c = true) :
    let literal := (Layout.ofLines quotes opening indent lines).literal
    state.run options extent true (sigilSource name ++ (literal ++ behind)) =
      (state.behindString options name literal
        (String.ofList (content indent lines))).run options extent true behind := by
  intro literal
  have no_quote : behind.head? ≠ some '"' := fun quote => not_quote_of_blank (ends _ quote) rfl
  have verbatim : (state.sigilOf name).all (·.verbatim) = true := by
    cases name with
    | none => rfl
    | some name => exact (valid name rfl).keepsBackslashes
  obtain ⟨rest, front⟩ := Layout.exists_quote_literal laid.enclosed.positive opening indent lines
    behind
  rw [front, run_atString (fun n same => (valid n same).sigilName) mode, ← front]
  refine (run_literal laid (move_atString mode name) verbatim no_quote).trans ?_
  cases name with
  | none => rfl
  | some name => exact run_sigilSuffix false fun c head => not_continuesName_of_blank (ends c head)

theorem run_blanks {blanks : List Char} (mode : state.mode = .between)
    (blank : ∀ c ∈ blanks, isBlank c = true) :
    state.run options extent true blanks =
      .stopped { state with location := state.location.walk blanks }.outcome [] := by
  obtain ⟨location, tokens, checking, _⟩ := state
  obtain rfl : _ = Mode.between := mode
  induction blanks generalizing location with
  | nil =>
    rw [run_eq]
    rfl
  | cons c blanks ih =>
    have step : State.move options true ⟨location, tokens, checking, .between⟩ (c :: blanks) =
        .read 1 .between := if_pos (blank c List.mem_cons_self)
    rw [run_eq, step]
    exact ih (fun d listed => blank d (List.mem_cons_of_mem c listed)) (location.next c)

end State

/-! ## Chunks -/

namespace Suspension

variable {quotes : Nat} {opening indent : List Char} {lines : List (List Char)}
  {name : Option (List Char)}

theorem found_string {scan : Suspension} {queue : List (List Char)} {behind : List Char}
    (laid : WellLaid quotes opening indent lines) (valid : ∀ n ∈ name, VerbatimName n)
    (mode : scan.state.mode = .between) (ends : ∀ c, behind.head? = some c → isBlank c = true)
    (whole : scan.pending ++ queue.flatten =
      sigilSource name ++ ((Layout.ofLines quotes opening indent lines).literal ++ behind)) :
    scan.found queue =
      goOn scan.options
        (scan.state.behindString scan.options name
          (Layout.ofLines quotes opening indent lines).literal
          (String.ofList (content indent lines))) behind := by
  refine found_of_run_state ?_
  rw [ahead, whole]
  exact State.run_string laid valid mode ends

/-- All that is found in a string and its sigil with blanks behind them is their tokens. -/
theorem found_whole_string {options : Options} {origin : Location} {queue : List (List Char)}
    {blanks : List Char} (laid : WellLaid quotes opening indent lines)
    (valid : ∀ n ∈ name, VerbatimName n) (blank : ∀ c ∈ blanks, isBlank c = true)
    (whole : queue.flatten =
      sigilSource name ++ ((Layout.ofLines quotes opening indent lines).literal ++ blanks)) :
    ∃ tokens, (start options origin).found queue = [.tokens tokens (origin.walk queue.flatten)] ∧
      tokens.toList.map (·.kind) = stringKinds (String.ofList (content indent lines)) name := by
  have ends : ∀ c, blanks.head? = some c → isBlank c = true :=
    fun c head => blank c (List.mem_of_head? head)
  let later := (State.fresh origin).behindString options name
    (Layout.ofLines quotes opening indent lines).literal (String.ofList (content indent lines))
  have kinds := (State.fresh origin).kinds_behindString options name
    (Layout.ofLines quotes opening indent lines).literal (String.ofList (content indent lines))
  have location := (State.fresh origin).location_behindString options name
    (Layout.ofLines quotes opening indent lines).literal (String.ofList (content indent lines))
  have mode : later.mode = .between := by cases name <;> rfl
  have some_tokens : later.tokens.isEmpty = false := by cases name <;> rfl
  have goes_on : (start options origin).ahead queue = later.run options .form true blanks := by
    rw [ahead, whole]
    exact State.run_string laid valid rfl ends
  have finish : later.location.walk blanks = origin.walk queue.flatten := by
    rw [show later.location = _ from location, ← Location.walk_append, List.append_assoc, ← whole]
    rfl
  have stops : (start options origin).ahead queue =
      .stopped (.tokens later.tokens (origin.walk queue.flatten)) [] := by
    rw [goes_on, State.run_blanks mode blank, ← finish]
    simp only [State.outcome, some_tokens, Bool.false_eq_true, ↓reduceIte]
  refine ⟨later.tokens, ?_, kinds⟩
  rw [found_of_stopped stops rfl, found_nothing]

end Suspension

/-- **Triple-quoted text is read back.** Lines that are well laid in a triple-quoted string, plain
or of a verbatim sigil, scan as one string with their content, in front of white space or the end
of the text. So it is in whatever chunks the text comes, and where there is nothing else in it,
the tokens of the string are all that is found. -/
theorem triple_quoted_text_read_back {quotes : Nat} {opening indent : List Char}
    {lines : List (List Char)} {name : Option (List Char)}
    (laid : WellLaid quotes opening indent lines) (valid : ∀ n ∈ name, VerbatimName n) :
    let literal := (Layout.ofLines quotes opening indent lines).literal
    let value := String.ofList (content indent lines)
    (∀ (options : Options) (extent : Extent) (state : State) (behind : List Char),
      state.mode = .between → (∀ c, behind.head? = some c → isBlank c = true) →
        state.run options extent true (sigilSource name ++ (literal ++ behind)) =
          (state.behindString options name literal value).run options extent true behind) ∧
    (∀ (scan : Suspension) (queue : List (List Char)) (behind : List Char),
      scan.state.mode = .between → (∀ c, behind.head? = some c → isBlank c = true) →
        scan.pending ++ queue.flatten = sigilSource name ++ (literal ++ behind) →
        scan.found queue =
          Suspension.goOn scan.options
            (scan.state.behindString scan.options name literal value) behind) ∧
    ∀ (options : Options) (origin : Location) (queue : List (List Char)) (blanks : List Char),
      (∀ c ∈ blanks, isBlank c = true) →
        queue.flatten = sigilSource name ++ (literal ++ blanks) →
        ∃ tokens,
          (Suspension.start options origin).found queue =
            [.tokens tokens (origin.walk queue.flatten)] ∧
          tokens.toList.map (·.kind) = stringKinds value name := by
  refine ⟨?_, ?_, ?_⟩
  · intro options extent state behind mode ends
    exact State.run_string laid valid mode ends
  · intro scan queue behind mode ends whole
    exact Suspension.found_string laid valid mode ends whole
  · intro options origin queue blanks blank whole
    exact Suspension.found_whole_string laid valid blank whole

/-- Three quotes behind other text, a blank line that is too short and a line of four quotes,
in a sigil without a name that is cut within the quotes that close it. -/
theorem triple_quoted_text_read_back_across_chunks :
    WellLaid 3 [' '] [' ', ' ']
        [[' ', ' ', 'a', '"', '"', '"'], [' '], [' ', ' ', '"', '"', '"', '"']] ∧
      (∀ n ∈ some [], VerbatimName n) ∧
      ∃ tokens,
        (Suspension.start default .start).found
            ["~\"\"".toList, "\" \n  a\"\"\"\n ".toList, "\n  \"\"\"\"\n  \"\"".toList,
              ['"', '\n']] =
          [.tokens tokens ⟨6, none⟩] ∧
        tokens.toList.map (·.kind) =
          [.sigilPrefix "", .string "a\"\"\"\n\n\"\"\"\"", .sigilSuffix ""] := by
  have laid : WellLaid 3 [' '] [' ', ' ']
      [[' ', ' ', 'a', '"', '"', '"'], [' '], [' ', ' ', '"', '"', '"', '"']] :=
    { enough := by decide
      opening_blank := by simp [isInlineBlank, isBlank]
      indent_blank := by simp [isInlineBlank, isBlank]
      text := by simp [isText, isTextCode]
      indented := by simp [isBlank]
      not_closing := by simp [isInlineBlank, isBlank, runLength] }
  have valid : ∀ n ∈ some [], VerbatimName n := by
    rintro n same
    obtain rfl := Option.some.inj same
    exact ⟨by simp, by simp, by simp⟩
  refine ⟨laid, valid, ?_⟩
  exact (triple_quoted_text_read_back laid valid).2.2 default .start _ ['\n']
    (by simp [isBlank]) rfl

end ErlangLexer
