import ErlangLexer.Proofs.Readings
import Mathlib.Data.List.Nodup

/-!
# Punctuation is read as far as it goes

In front of a character that starts nothing else a scan reads dots, an operator or a symbol. Which
of them it is follows from the text alone:

* `Operator.IsLongest`: the longest operator in front of a text (`Operator.longest?_eq_some_iff`);
* `Punctuates`: what is read off a text, with the dots apart, of which a single one may end a form;
* `Punctuation.move_of_punctuates`, `Punctuation.exists_punctuates`: there is always something to
  be read, and a scan reads it;
* `State.punctuation_as_far_as_it_goes`: so does every scan, however its text is cut.
-/

namespace ErlangLexer

namespace Operator

/-- No longer operator stands in front of the text. -/
structure IsLongest (op : Operator) (text : List Char) : Prop where
  front : op.spelling <+: text
  longest : ∀ other : Operator, other.spelling <+: text →
    other.spelling.length ≤ op.spelling.length

theorem spelling_injective : Function.Injective spelling := by
  have nodup : (table.map spelling).Nodup := by decide
  intro op other same
  exact List.inj_on_of_nodup_map nodup (mem_table op) (mem_table other) same

theorem IsLongest.unique {op other : Operator} {text : List Char} (one : op.IsLongest text)
    (two : other.IsLongest text) : op = other := by
  have length := Nat.le_antisymm (two.longest op one.front) (one.longest other two.front)
  have front := List.prefix_of_prefix_length_le one.front two.front (Nat.le_of_eq length)
  exact spelling_injective (front.eq_of_length length)

/-- The table is in the order of length, so the first operator that fits is the longest. -/
theorem isLongest_of_longest? {op : Operator} {text : List Char} (found : longest? text = some op) :
    op.IsLongest text := by
  obtain ⟨fits, front, behind, split, shorter⟩ := List.find?_eq_some_iff_append.mp found
  refine ⟨List.isPrefixOf_iff_prefix.mp fits, ?_⟩
  intro other fits'
  have sorted := table_longest_first
  rw [split, List.pairwise_append] at sorted
  have listed := mem_table other
  rw [split, List.mem_append, List.mem_cons] at listed
  rcases listed with before | rfl | later
  · have absent := shorter other before
    rw [List.isPrefixOf_iff_prefix.mpr fits'] at absent
    cases absent
  · exact Nat.le_refl _
  · exact List.rel_of_pairwise_cons sorted.2.1 later

theorem longest?_eq_none_iff {text : List Char} :
    longest? text = none ↔ ∀ op : Operator, ¬op.spelling <+: text := by
  rw [longest?, List.find?_eq_none]
  constructor
  · intro none op fits
    exact none op (mem_table op) (List.isPrefixOf_iff_prefix.mpr fits)
  · intro none op _ fits
    exact none op (List.isPrefixOf_iff_prefix.mp fits)

theorem longest?_eq_some_iff {op : Operator} {text : List Char} :
    longest? text = some op ↔ op.IsLongest text := by
  constructor
  · exact isLongest_of_longest?
  · intro longest
    cases found : longest? text with
    | none => exact absurd longest.front (longest?_eq_none_iff.mp found op)
    | some other => rw [(isLongest_of_longest? found).unique longest]

theorem eq_dots_of_prefix {op : Operator} {rest : List Char} (front : op.spelling <+: '.' :: rest) :
    op = .dotDotDot ∨ op = .dotDot ∨ op = .dot := by
  have dots : ∀ op ∈ table, op.spelling.head? = some '.' →
      op = .dotDotDot ∨ op = .dotDot ∨ op = .dot := by decide
  obtain ⟨c, more, same⟩ := List.exists_cons_of_ne_nil op.spelling_ne_nil
  rw [same] at front
  obtain rfl := (List.cons_prefix_cons.mp front).1
  exact dots op (mem_table op) (by rw [same]; rfl)

end Operator

/-! ## What is to be read -/

/-- The character starts neither a blank nor a comment nor any literal. -/
structure StartsPunctuation (c : Char) : Prop where
  blank : isBlank c = false
  digit : isDigit c = false
  lower : isLower c = false
  capital : startsVariable c = false
  delimiter : c ∉ ['"', '\'', '$', '~', '%']

/-- The dot that ends a form, or a check annotation. -/
def terminator (checking : Bool) : Kind :=
  if checking then .checkClose else .dot

/-- What stands in front of a text that starts nothing else. -/
inductive Punctuates (checking : Bool) : List Char → Reading → Prop where
  | threeDots (rest : List Char) :
      Punctuates checking ('.' :: '.' :: '.' :: rest) (.token (.operator .dotDotDot) 3)
  | twoDots {rest : List Char} (no_third : rest.head? ≠ some '.') :
      Punctuates checking ('.' :: '.' :: rest) (.token (.operator .dotDot) 2)
  /-- The end takes one blank with it. -/
  | endInBlank {c : Char} (rest : List Char) (blank : isBlank c = true) :
      Punctuates checking ('.' :: c :: rest) (.token (terminator checking) 2)
  | endInComment (rest : List Char) :
      Punctuates checking ('.' :: '%' :: rest) (.token (terminator checking) 1)
  | endOfText : Punctuates checking ['.'] (.token (terminator checking) 1)
  | dot {c : Char} {rest : List Char} (single : c ≠ '.') (inside : isBlank c = false)
      (open_end : c ≠ '%') : Punctuates checking ('.' :: c :: rest) (.token (.operator .dot) 1)
  | operator {op : Operator} {c : Char} {rest : List Char} (other : c ≠ '.')
      (longest : op.IsLongest (c :: rest)) :
      Punctuates checking (c :: rest) (.token (.operator op) op.spelling.length)
  | symbol {c : Char} {rest : List Char} (none : ∀ op : Operator, ¬op.spelling <+: c :: rest)
      (text : isText c = true) : Punctuates checking (c :: rest) (.token (.symbol c) 1)
  | foreign {c : Char} {rest : List Char} (none : ∀ op : Operator, ¬op.spelling <+: c :: rest)
      (nonchar : c = '\ufffe' ∨ c = '\uffff') :
      Punctuates checking (c :: rest) (.wrong (.illegal .character) 1)

namespace Punctuation

variable {checking : Bool} {here : Location}

/-! ### Dots -/

theorem longest?_dots (rest : List Char) :
    Operator.longest? ('.' :: '.' :: '.' :: rest) = some .dotDotDot := by
  simp [Operator.longest?, Operator.table, Operator.spelling]

theorem longest?_twoDots {rest : List Char} (no_third : rest.head? ≠ some '.') :
    Operator.longest? ('.' :: '.' :: rest) = some .dotDot := by
  rw [Operator.longest?_eq_some_iff]
  refine ⟨⟨rest, rfl⟩, ?_⟩
  intro other front
  rcases Operator.eq_dots_of_prefix front with rfl | rfl | rfl
  · obtain ⟨more, same⟩ := front
    obtain rfl : '.' :: more = rest := by simpa [Operator.spelling] using same
    exact absurd rfl no_third
  · exact Nat.le_refl _
  · decide

theorem longest?_dot {rest : List Char} (single : rest.head? ≠ some '.') :
    Operator.longest? ('.' :: rest) = some .dot := by
  rw [Operator.longest?_eq_some_iff]
  refine ⟨⟨rest, rfl⟩, ?_⟩
  intro other front
  rcases Operator.eq_dots_of_prefix front with rfl | rfl | rfl
  · obtain ⟨more, same⟩ := front
    obtain rfl : '.' :: '.' :: more = rest := by simpa [Operator.spelling] using same
    exact absurd rfl single
  · obtain ⟨more, same⟩ := front
    obtain rfl : '.' :: more = rest := by simpa [Operator.spelling] using same
    exact absurd rfl single
  · exact Nat.le_refl _

/-! ### Every text -/

theorem move_of_longest? {op : Operator} {c : Char} {rest : List Char}
    (found : Operator.longest? (c :: rest) = some op)
    (inner : ¬(op = .dot ∧ endsForm rest = true)) :
    move checking here c rest true =
      Reading.move here (c :: rest) .between (.token (.operator op) op.spelling.length) := by
  simp only [move, Bool.not_true, Bool.false_and, Bool.false_eq_true, ↓reduceIte, found, inner,
    Reading.move]

theorem move_of_end {rest : List Char} (single : rest.head? ≠ some '.')
    (ends : endsForm rest = true) : move checking here '.' rest true =
      Reading.move here ('.' :: rest) .between
        (.token (terminator checking) (terminatorWidth rest)) := by
  simp only [move, Bool.not_true, Bool.false_and, Bool.false_eq_true, ↓reduceIte,
    longest?_dot single, ends, and_self, Reading.move, terminator]

/-- A scan reads what punctuates its text. -/
theorem move_of_punctuates (here : Location) {c : Char} {rest : List Char} {reading : Reading}
    (punctuates : Punctuates checking (c :: rest) reading) :
    move checking here c rest true = reading.move here (c :: rest) .between := by
  cases punctuates with
  | threeDots rest => exact move_of_longest? (longest?_dots rest) (by simp)
  | twoDots no_third => exact move_of_longest? (longest?_twoDots no_third) (by simp)
  | @endInBlank c rest blank =>
    have single : (c :: rest).head? ≠ some '.' := by
      rintro ⟨⟩
      exact absurd blank (by decide)
    have width : terminatorWidth (c :: rest) = 2 := if_pos blank
    rw [move_of_end single (by simp [endsForm, blank]), width]
  | endInComment rest => exact move_of_end (by simp) rfl
  | endOfText => exact move_of_end (by simp) rfl
  | @dot c rest single inside open_end =>
    exact move_of_longest? (longest?_dot (by simpa using single))
      (by simp [endsForm, inside, open_end])
  | operator other longest =>
    refine move_of_longest? (Operator.longest?_eq_some_iff.mpr longest) ?_
    rintro ⟨rfl, -⟩
    exact other (List.cons_prefix_cons.mp longest.front).1.symm
  | symbol none text =>
    simp only [move, Bool.not_true, Bool.false_and, Bool.false_eq_true, ↓reduceIte,
      Operator.longest?_eq_none_iff.mpr none, text, Reading.move]
  | foreign none nonchar =>
    have foreign : isText c = false := by rcases nonchar with rfl | rfl <;> decide
    simp only [move, Bool.not_true, Bool.false_and, Bool.false_eq_true, ↓reduceIte,
      Operator.longest?_eq_none_iff.mpr none, foreign, Reading.move, LexicalError.illegal]

theorem exists_punctuates_dot (checking : Bool) (rest : List Char) :
    ∃ reading, Punctuates checking ('.' :: rest) reading := by
  cases rest with
  | nil => exact ⟨_, .endOfText⟩
  | cons c rest =>
    by_cases again : c = '.'
    · subst again
      by_cases third : rest.head? = some '.'
      · obtain ⟨more, rfl⟩ := List.head?_eq_some_iff.mp third
        exact ⟨_, .threeDots more⟩
      · exact ⟨_, .twoDots third⟩
    · by_cases blank : isBlank c = true
      · exact ⟨_, .endInBlank rest blank⟩
      · by_cases comment : c = '%'
        · subst comment
          exact ⟨_, .endInComment rest⟩
        · exact ⟨_, .dot again (Bool.eq_false_iff.mpr blank) comment⟩

/-- There is always something to be read. -/
theorem exists_punctuates (checking : Bool) (c : Char) (rest : List Char) :
    ∃ reading, Punctuates checking (c :: rest) reading := by
  by_cases dot : c = '.'
  · subst dot
    exact exists_punctuates_dot checking rest
  · cases found : Operator.longest? (c :: rest) with
    | some op => exact ⟨_, .operator dot (Operator.longest?_eq_some_iff.mp found)⟩
    | none =>
      have none := Operator.longest?_eq_none_iff.mp found
      cases text : isText c with
      | true => exact ⟨_, .symbol none text⟩
      | false => exact ⟨_, .foreign none (eq_nonchar_of_foreign text)⟩

end Punctuation

theorem Punctuates.unique {checking : Bool} {c : Char} {rest : List Char} {one other : Reading}
    (first : Punctuates checking (c :: rest) one) (second : Punctuates checking (c :: rest) other) :
    one = other := by
  have same := (Punctuation.move_of_punctuates .start first).symm.trans
    (Punctuation.move_of_punctuates .start second)
  exact Reading.move_inj same

theorem Between.move_of_startsPunctuation (options : Options) (checking : Bool) (here : Location)
    {c : Char} (starts : StartsPunctuation c) (rest : List Char) (ended : Bool) :
    move options checking here (c :: rest) ended =
      Punctuation.move checking here c rest ended := by
  obtain ⟨blank, digit, lower, capital, delimiter⟩ := starts
  simp only [List.mem_cons, List.not_mem_nil, or_false, not_or] at delimiter
  obtain ⟨quote, apostrophe, dollar, tilde, percent⟩ := delimiter
  simp only [move, blank, digit, lower, capital, quote, apostrophe, dollar, tilde, percent,
    Bool.false_eq_true, ↓reduceIte]

namespace State

variable {options : Options} {extent : Extent} {origin : Location} {source : List Char}
  {state : State} {c : Char} {rest : List Char} {reading : Reading}

theorem move_of_punctuates (mode : state.mode = .between) (starts : StartsPunctuation c)
    (punctuates : Punctuates state.checking (c :: rest) reading) :
    state.move options true (c :: rest) =
      reading.move state.location (c :: rest) .between := by
  rw [move, mode]
  exact (Between.move_of_startsPunctuation options _ _ starts rest true).trans
    (Punctuation.move_of_punctuates _ punctuates)

/-- **Punctuation is read as far as it goes.** Between two tokens, in front of a character that
starts nothing else, a scan of a source reads what punctuates all of the source from there on, of
which there is one reading. As long as it has seen some of this only, it waits or it reads the
same. So whatever chunks the source comes in, what they show is what the reading shows. -/
theorem punctuation_as_far_as_it_goes
    (reached : Reached options extent true origin source state (c :: rest))
    (mode : state.mode = .between) (starts : StartsPunctuation c) :
    ∃ reading, Punctuates state.checking (c :: rest) reading ∧
      (∀ other, Punctuates state.checking (c :: rest) other → other = reading) ∧
      (fresh origin).run options extent true source =
        state.past options extent true (c :: rest) .between reading ∧
      (∀ seen unseen, c :: rest = seen ++ unseen →
        state.run options extent false seen = .suspended state seen ∨
          reading.width ≤ seen.length ∧ state.run options extent false seen =
            state.past options extent false seen .between reading) ∧
      (extent = .form → ∀ queue : List (List Char), queue.flatten = source →
        (Suspension.start options origin).found queue =
          Suspension.foundPast options state (c :: rest) .between reading) := by
  obtain ⟨reading, punctuates⟩ := Punctuation.exists_punctuates state.checking c rest
  have step : state.move options true (c :: rest) = _ := move_of_punctuates mode starts punctuates
  refine ⟨reading, punctuates, ?_, ?_, ?_, ?_⟩
  · intro other punctuates'
    exact punctuates'.unique punctuates
  · rw [reached.run_eq]
    exact run_of_reading step
  · intro seen unseen split
    rw [split] at step
    exact run_seen step
  · rintro rfl queue rfl
    refine Suspension.found_of_past ?_
    rw [Suspension.ahead_of_reached reached]
    exact run_of_reading step

/-- The three characters of an operator come one by one. -/
theorem operator_across_chunks :
    StartsPunctuation '=' ∧ Operator.exactlyEqual.IsLongest ['=', ':', '=', 'x'] ∧
      (Suspension.start default .start).found [['='], [':'], ['=', 'x']] =
        Suspension.foundPast default (.fresh .start) ['=', ':', '=', 'x'] .between
          (.token (.operator .exactlyEqual) 3) := by
  have starts : StartsPunctuation '=' := by constructor <;> decide
  have longest : Operator.exactlyEqual.IsLongest ['=', ':', '=', 'x'] :=
    Operator.longest?_eq_some_iff.mp (by decide)
  have reached : Reached default .form true .start ['=', ':', '=', 'x'] (.fresh .start)
      ['=', ':', '=', 'x'] := .start
  obtain ⟨reading, -, unique, -, -, found⟩ := punctuation_as_far_as_it_goes reached rfl starts
  obtain rfl := unique _ (.operator (by decide) longest)
  exact ⟨starts, longest, found rfl _ rfl⟩

end State

end ErlangLexer
