import ErlangLexer.Proofs.LayoutVerdict
import ErlangLexer.Proofs.QuotedText

/-!
# Two ways of decoding agree

The escapes of a triple-quoted string are decoded line by line when all of it is read, those of a
quoted text while it is read. Lines without quotes come to the same either way:

* `State.run_decodes`: a quoted text is read up to any place to which it can be decoded;
* `State.run_sound_to_end`: so is a triple-quoted one that has a value;
* `escape_paths_agree`: both have the same value, or stop at the same escape.
-/

namespace ErlangLexer

theorem map_unindent_nil (lines : List (List Char)) : lines.map (unindent []) = lines :=
  List.map_id lines

namespace State

variable {options : Options} {extent : Extent} {state : State} {quotation : Quotation}
  {close : Char} {source value : List Char}

/-- Text that can be decoded is read. -/
theorem run_decodes {front rest text : List Char} (decoding : quotation.isVerbatim = false)
    (delimiter : close ≠ '\\') (plain : ∀ c ∈ front, isText c = true ∧ c ≠ close)
    (decodes : Escape.Decodes rest (front ++ rest) text) :
    (state.quoting quotation close source value).run options extent true (front ++ rest) =
      (state.quoting quotation close (source ++ front) (value ++ text)).run options extent true
        rest := by
  generalize whole : front ++ rest = all at decodes
  induction decodes generalizing front source value with
  | nothing =>
    obtain rfl : front = [] := by simpa using whole
    simp
  | @plain c all text no_backslash later ih =>
    have longer := later.suffix.length_le
    cases front with
    | nil =>
      have same := congrArg List.length whole
      simp only [List.nil_append, List.length_cons] at same
      omega
    | cons d front =>
      obtain ⟨rfl, rfl⟩ := List.cons.inj whole
      obtain ⟨here, behind⟩ := List.forall_mem_cons.mp plain
      rw [run_character here.1 here.2 fun backslash => absurd backslash no_backslash,
        ih behind rfl]
      simp
  | @escape all text c width stands later ih =>
    have longer := later.suffix.length_le
    rw [List.length_drop] at longer
    cases front with
    | nil =>
      have same := congrArg List.length whole
      simp only [List.nil_append, List.length_cons] at same
      omega
    | cons d front =>
      obtain ⟨rfl, rfl⟩ := List.cons.inj whole
      have within := (Escape.within_of_value? stands).2
      have short : width ≤ front.length := by
        simp only [List.append_eq, List.length_append] at longer within
        omega
      have behind : ∀ c ∈ front.drop width, isText c = true ∧ c ≠ close :=
        fun c listed => plain c (List.mem_cons_of_mem _ (List.mem_of_mem_drop listed))
      have split : front.drop width ++ rest = (front ++ rest).drop width :=
        (List.drop_append_of_le_length short).symm
      rw [run_escape decoding delimiter stands, ih behind split]
      simp [List.take_append_of_le_length short]

/-- A literal with a value that is all that is left, and the sigil of which it may be the string. -/
theorem run_sound_to_end {quotes : Nat} {opening indent : List Char} {lines : List (List Char)}
    {name : Option (List Char)} (enclosed : Enclosed quotes opening indent lines)
    (named : ∀ n ∈ name, SigilName n) (mode : state.mode = .between)
    (judged : Verdict quotes opening indent lines (name.all keepsBackslashes) (.ok value)) :
    let literal := (Layout.ofLines quotes opening indent lines).literal
    state.run options extent true (sigilSource name ++ literal) =
      .stopped (.tokens (state.behindString options name literal (String.ofList value)).tokens
        (state.location.walk (sigilSource name ++ literal))) [] := by
  intro literal
  have whole : sigilSource name ++ literal = sigilSource name ++ (literal ++ []) := by
    rw [List.append_nil]
  rw [← location_behindString options state name literal (String.ofList value), whole]
  refine (run_sound enclosed named mode (by decide) judged).trans ?_
  cases name with
  | none => exact run_behindToken_nil
  | some name => exact (run_sigilSuffix false (by simp)).trans run_behindToken_nil

end State

/-! ## Lines without quotes -/

/-- Lines may be written between double quotes as they are, but for their escapes. -/
def Unquoted (lines : List (List Char)) : Prop :=
  ∀ line ∈ lines, ∀ c ∈ line, isText c = true ∧ c ≠ '\n' ∧ c ≠ '"'

namespace Unquoted

variable {lines : List (List Char)}

theorem enclosed (unquoted : Unquoted lines) : Enclosed 3 [] [] lines := by
  refine ⟨by decide, by decide, by simp, by simp, ?_, ?_⟩
  · intro line among c listed
    exact ⟨(unquoted line among c listed).1, (unquoted line among c listed).2.1⟩
  · intro line among
    have no_quotes : (line.dropWhile isInlineBlank).takeWhile (· == '"') = [] := by
      rw [List.eq_nil_iff_forall_not_mem]
      intro c listed
      have within := (List.dropWhile_sublist _).subset ((List.takeWhile_sublist _).subset listed)
      have quote := List.mem_takeWhile_imp listed
      exact (unquoted line among c within).2.2 (by simpa using quote)
    rw [runLength, no_quotes]
    decide

theorem plain (unquoted : Unquoted lines) :
    ∀ c ∈ unlines lines, isText c = true ∧ c ≠ '"' := by
  intro c listed
  obtain ⟨_, broken, within⟩ := List.mem_flatten.mp listed
  obtain ⟨line, among, rfl⟩ := List.mem_map.mp broken
  rcases List.mem_append.mp within with within | within
  · exact ⟨(unquoted line among c within).1, (unquoted line among c within).2.2⟩
  · obtain rfl := List.mem_singleton.mp within
    exact ⟨by decide, by decide⟩

theorem head?_unlines (unquoted : Unquoted lines) (some_line : lines ≠ []) (rest : List Char) :
    (unlines lines ++ rest).head? ≠ some '"' := by
  have some_text : unlines lines ≠ [] := by
    obtain ⟨line, lines, rfl⟩ := List.exists_cons_of_ne_nil some_line
    simp [unlines]
  rw [List.head?_append_of_ne_nil _ some_text]
  intro quote
  exact (unquoted.plain _ (List.mem_of_head? quote)).2 rfl

end Unquoted

/-- Lines whose text can be decoded up to an escape that is none, which may be followed by more. -/
theorem decodes_to_escape {above values : List (List Char)} {front behind value : List Char}
    (decodes_above : DecodesLines [] above values)
    (decodes : Escape.Decodes ('\\' :: (behind ++ ['\n'])) (front ++ '\\' :: (behind ++ ['\n']))
      value) (more : List Char) :
    Escape.Decodes ('\\' :: (behind ++ '\n' :: more))
      ((unlines above ++ front) ++ '\\' :: (behind ++ '\n' :: more)) (values.flatten ++ value) := by
  have lines_above := decodes_above.whole
  rw [map_unindent_nil] at lines_above
  have whole_line : WholeLines (front ++ '\\' :: (behind ++ ['\n'])) := by
    rw [← List.cons_append, ← List.append_assoc]
    exact .concat _
  have line := decodes.append whole_line more
  have both := (lines_above.append (wholeLines_unlines above) _).trans line
  simpa using both

namespace Suspension

variable {options : Options} {origin : Location} {queue : List (List Char)}

/-- What is found first is an illegal character at this location. -/
def FindsIllegal (options : Options) (origin : Location) (queue : List (List Char))
    (location : Location) : Prop :=
  ∃ finish later,
    (start options origin).found queue = .error (.illegal location .character) finish :: later

theorem FindsOnly.unique {options : Options} {origin : Location} {queue : List (List Char)}
    {kinds others : List Kind} (one : FindsOnly options origin queue kinds)
    (two : FindsOnly options origin queue others) : kinds = others := by
  obtain ⟨tokens, found, rfl⟩ := one
  obtain ⟨more, again, rfl⟩ := two
  have same := List.singleton_inj.mp (found.symm.trans again)
  rw [(Outcome.tokens.inj same).1]

theorem FindsIllegal.not_findsOnly {options : Options} {origin location : Location}
    {queue : List (List Char)} {kinds : List Kind}
    (illegal : FindsIllegal options origin queue location) :
    ¬FindsOnly options origin queue kinds := by
  rintro ⟨tokens, found, -⟩
  obtain ⟨finish, later, error⟩ := illegal
  cases found.symm.trans error

theorem found_sound (name : Option (List Char)) {quotes : Nat} {opening indent value : List Char}
    {lines : List (List Char)} (enclosed : Enclosed quotes opening indent lines)
    (named : ∀ n ∈ name, SigilName n)
    (judged : Verdict quotes opening indent lines (name.all keepsBackslashes) (.ok value))
    (whole : queue.flatten =
      sigilSource name ++ (Layout.ofLines quotes opening indent lines).literal) :
    FindsOnly options origin queue (stringKinds (String.ofList value) name) :=
  findsOnly_string name whole (State.run_sound_to_end enclosed named rfl judged)

theorem found_faulty (name : Option (List Char)) {quotes : Nat} {opening indent front : List Char}
    {lines : List (List Char)} (enclosed : Enclosed quotes opening indent lines)
    (named : ∀ n ∈ name, SigilName n)
    (judged : Verdict quotes opening indent lines (name.all keepsBackslashes)
      (.error (.illegal .character, front)))
    (whole : queue.flatten =
      sigilSource name ++ (Layout.ofLines quotes opening indent lines).literal) :
    FindsIllegal options origin queue (origin.position (sigilSource name ++ front)) := by
  obtain ⟨finish, stops⟩ : ∃ finish, (State.fresh origin).run options .form true
      (sigilSource name ++ ((Layout.ofLines quotes opening indent lines).literal ++ [])) =
        .stopped (.error (.illegal (origin.position (sigilSource name ++ front)) .character)
          finish) [] := State.run_faulty enclosed named rfl (by decide) judged
  rw [List.append_nil, ← whole, ← ahead_start] at stops
  exact ⟨finish, _, found_of_stopped stops rfl⟩

theorem ahead_quoted {text : List Char} (alone : text.head? ≠ some '"')
    (whole : queue.flatten = '"' :: text) :
    (start options origin).ahead queue =
      ((State.fresh origin).quoting .string '"' ['"'] []).run options .form true text := by
  have opens (text : List Char) : (State.fresh origin).move options true ('"' :: text) =
      QuoteRun.move origin none ('"' :: text) true :=
    State.move_atString rfl none text
  rw [ahead_start, whole]
  exact State.run_open (State.move_double_quote opens alone)

variable {lines : List (List Char)}

theorem found_quoted_lines {values : List (List Char)} (unquoted : Unquoted lines)
    (some_line : lines ≠ []) (decodes : DecodesLines [] lines values)
    (whole : queue.flatten = '"' :: (unlines lines ++ ['"'])) :
    FindsOnly options origin queue [.string (String.ofList values.flatten)] := by
  have text := decodes.whole.append (wholeLines_unlines _) ['"']
  rw [map_unindent_nil] at text
  have read : (start options origin).ahead queue = _ :=
    ahead_quoted (unquoted.head?_unlines some_line ['"']) whole
  have body := read.trans (State.run_decodes rfl (by decide) unquoted.plain text)
  have closed := body.trans (State.run_close (by decide) [])
  have stops := closed.trans (State.run_afterString_nil.trans State.run_behindToken_nil)
  rw [ahead_start, whole] at stops
  exact findsOnly_string none whole stops

theorem found_quoted_fault {above below values : List (List Char)}
    {front behind value : List Char} {width : Nat} (unquoted : Unquoted lines)
    (split : lines = above ++ (front ++ '\\' :: behind) :: below)
    (decodes_above : DecodesLines [] above values)
    (decodes : Escape.Decodes ('\\' :: (behind ++ ['\n'])) (front ++ '\\' :: (behind ++ ['\n']))
      value)
    (malformed : Escape.read (behind ++ ['\n']) true = .malformed width)
    (whole : queue.flatten = '"' :: (unlines lines ++ ['"'])) :
    FindsIllegal options origin queue (origin.position ('"' :: (unlines above ++ front))) := by
  have some_line : lines ≠ [] := by simp [split]
  have lines_text : unlines lines ++ ['"'] =
      (unlines above ++ front) ++ '\\' :: (behind ++ '\n' :: (unlines below ++ ['"'])) := by
    simp [split, unlines]
  have plain : ∀ c ∈ unlines above ++ front, isText c = true ∧ c ≠ '"' := by
    intro c listed
    refine unquoted.plain c ?_
    simp only [split, unlines_append, unlines_cons, List.mem_append] at listed ⊢
    tauto
  have read : (start options origin).ahead queue = _ :=
    ahead_quoted (unquoted.head?_unlines some_line ['"']) whole
  rw [lines_text] at read
  have text := decodes_to_escape decodes_above decodes (unlines below ++ ['"'])
  have broken : '\n' ∈ behind ++ ['\n'] := by simp
  have still := Escape.read_append_of_broken broken (unlines below ++ ['"'])
  rw [malformed, List.append_assoc, List.singleton_append] at still
  have body := read.trans (State.run_decodes rfl (by decide) plain text)
  have stops := body.trans (State.run_malformed rfl (by decide) still)
  rw [Location.walk_eq_position] at stops
  exact ⟨_, _, found_of_stopped stops rfl⟩

end Suspension

/-- **The two ways of decoding escapes agree.** Lines without quotes are written in a sigil that
decodes escapes, between three quotes and without any indentation, and between double quotes.
Either both are a string, and only the second has the line break of the last of several lines, or
both are reported to have an illegal character at the backslash of the same escape. So it is in
whatever chunks either text comes. -/
theorem escape_paths_agree {lines : List (List Char)} (some_line : lines ≠ [])
    (unquoted : Unquoted lines) (options : Options) (here there : Location)
    (triple single : List (List Char))
    (is_triple : triple.flatten = '~' :: 's' :: (Layout.ofLines 3 [] [] lines).literal)
    (is_single : single.flatten = '"' :: (unlines lines ++ ['"'])) :
    (∃ value,
      Suspension.FindsOnly options here triple
        [.sigilPrefix "s", .string (String.ofList value), .sigilSuffix ""] ∧
      Suspension.FindsOnly options there single
        [.string (String.ofList (if lines.length = 1 then value else value ++ ['\n']))]) ∨
    ∃ above front behind below, lines = above ++ (front ++ '\\' :: behind) :: below ∧
      Suspension.FindsIllegal options here triple
        (here.position ('~' :: 's' :: (literalAbove 3 [] above ++ front))) ∧
      Suspension.FindsIllegal options there single
        (there.position ('"' :: (unlines above ++ front))) := by
  have enclosed := unquoted.enclosed
  have named : ∀ n ∈ some ['s'], SigilName n := by
    rintro n same
    obtain rfl := Option.some.inj same
    exact .of_letter (by decide)
  obtain ⟨verdict, judged⟩ := exists_verdict enclosed false
  have first := judged
  cases judged with
  | whiteSpace split => simp at split
  | indentation _ _ _ _ expected _ => simp at expected
  | escape _ _ _ split decodes_above decodes malformed =>
    refine .inr ⟨_, _, _, _, split, ?_, ?_⟩
    · exact Suspension.found_faulty (some ['s']) enclosed named first is_triple
    · exact Suspension.found_quoted_fault unquoted split decodes_above decodes malformed is_single
  | verbatim plain _ _ => cases plain
  | @decoded values _ _ _ decodes =>
    refine .inl ⟨_, Suspension.found_sound (some ['s']) enclosed named first is_triple, ?_⟩
    have quoted : Suspension.FindsOnly options there single _ :=
      Suspension.found_quoted_lines unquoted some_line decodes is_single
    by_cases several : 1 < lines.length
    · have not_one : lines.length ≠ 1 := by omega
      have last : values.flatten.dropLast ++ ['\n'] = values.flatten :=
        List.dropLast_append_getLast? _ (decodes.getLast?_flatten some_line)
      rw [if_pos several, if_neg not_one, last]
      exact quoted
    · have one : lines.length = 1 := by
        have positive := List.length_pos_iff.mpr some_line
        omega
      rw [if_neg several, if_pos one]
      exact quoted

/-- A line break that is escaped, in texts that are cut behind its backslash, and an escape that a
line break cuts off. The first stand for a value, the others stop at the backslash. -/
theorem escape_paths_agree_on_a_broken_line :
    ([['a', '\\'], ['b']] : List (List Char)) ≠ [] ∧ Unquoted [['a', '\\'], ['b']] ∧
      Suspension.FindsOnly default .start ["~s\"\"\"\na\\".toList, "\nb\n\"\"\"".toList]
        [.sigilPrefix "s", .string "a\nb", .sigilSuffix ""] ∧
      Suspension.FindsOnly default .start ["\"a\\".toList, "\nb\n\"".toList]
        [.string "a\nb\n"] ∧
    ([['a'], ['b', '\\', 'x']] : List (List Char)) ≠ [] ∧ Unquoted [['a'], ['b', '\\', 'x']] ∧
      Suspension.FindsIllegal default ⟨1, some 1⟩ ["~s\"\"\"\na\nb\\x\n\"\"\"".toList]
        ⟨3, some 2⟩ ∧
      Suspension.FindsIllegal default ⟨1, some 1⟩ ["\"a\nb\\x\n\"".toList] ⟨2, some 2⟩ := by
  have some_line : ([['a', '\\'], ['b']] : List (List Char)) ≠ [] := by simp
  have unquoted : Unquoted [['a', '\\'], ['b']] := by simp [Unquoted, isText, isTextCode]
  have other_line : ([['a'], ['b', '\\', 'x']] : List (List Char)) ≠ [] := by simp
  have also_unquoted : Unquoted [['a'], ['b', '\\', 'x']] := by
    simp [Unquoted, isText, isTextCode]
  have sound := escape_paths_agree some_line unquoted default .start .start
    ["~s\"\"\"\na\\".toList, "\nb\n\"\"\"".toList] ["\"a\\".toList, "\nb\n\"".toList] rfl rfl
  have faulty := escape_paths_agree other_line also_unquoted default ⟨1, some 1⟩ ⟨1, some 1⟩
    ["~s\"\"\"\na\nb\\x\n\"\"\"".toList] ["\"a\nb\\x\n\"".toList] rfl rfl
  have string : (Suspension.start default .start).ahead ["\"a\\".toList, "\nb\n\"".toList] =
      .stopped (.tokens #[⟨.string "a\nb\n", .start, none⟩] ⟨3, none⟩) [] := by decide +kernel
  have error : (Suspension.start default ⟨1, some 1⟩).ahead ["\"a\nb\\x\n\"".toList] =
      .stopped (.error (.illegal ⟨2, some 2⟩ .character) ⟨3, some 1⟩) ['"'] := by decide +kernel
  have found_string : Suspension.FindsOnly default .start
      ["\"a\\".toList, "\nb\n\"".toList] [.string "a\nb\n"] := by
    refine ⟨#[⟨.string "a\nb\n", .start, none⟩], ?_, rfl⟩
    rw [Suspension.found_of_stopped string rfl, Suspension.found_nothing]
    rfl
  have found_error : Suspension.FindsIllegal default ⟨1, some 1⟩
      ["\"a\nb\\x\n\"".toList] ⟨2, some 2⟩ := ⟨_, _, Suspension.found_of_stopped error rfl⟩
  rcases sound with ⟨value, triple, single⟩ | ⟨_, _, _, _, -, -, illegal⟩
  · have same := single.unique found_string
    obtain rfl : value = ['a', '\n', 'b'] := by
      have text := congrArg String.toList (Kind.string.inj (List.singleton_inj.mp same))
      rw [String.toList_ofList] at text
      exact (List.append_inj' text rfl).1
    rcases faulty with ⟨_, -, other⟩ | ⟨above, front, behind, below, split, illegal, -⟩
    · exact absurd other found_error.not_findsOnly
    · obtain ⟨rfl, ⟨rfl, -⟩, -⟩ : above = [['a']] ∧ (front = ['b'] ∧ behind = ['x']) ∧
          below = [] := by
        simpa [List.cons_eq_append_iff, List.append_eq_cons_iff] using split
      exact ⟨some_line, unquoted, triple, found_string, other_line, also_unquoted, illegal,
        found_error⟩
  · exact absurd found_string illegal.not_findsOnly

end ErlangLexer
