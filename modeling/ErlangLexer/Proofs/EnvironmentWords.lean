import ErlangLexer.CommandLine.Flags
import Mathlib.Data.List.TakeWhile

/-!
# The words of the environment

The environment lists feature words between commas, perhaps with white space around them:

* `Flags.Trimmed`, `Flags.trim_eq_iff`: a word without the white space around it;
* `Flags.Listed`, `Flags.mem_words_iff`: the words of a list, told from the text as it is.
-/

namespace ErlangLexer.CommandLine.Flags

/-- The word is the entry without the white space around it. -/
def Trimmed (entry word : List Char) : Prop :=
  ∃ left right, entry = left ++ (word ++ right) ∧ (∀ c ∈ left, isSpace c = true) ∧
    (∀ c ∈ right, isSpace c = true) ∧ (∀ c, word.head? = some c → isSpace c = false) ∧
    ∀ c, word.getLast? = some c → isSpace c = false

/-- The word is an entry of a list with commas, and not empty. -/
def Listed (list word : String) : Prop :=
  word ≠ "" ∧ ∃ before entry behind, list.toList = before ++ (entry ++ behind) ∧ ',' ∉ entry ∧
    (before = [] ∨ before.getLast? = some ',') ∧ (behind = [] ∨ behind.head? = some ',') ∧
    Trimmed entry word.toList

theorem dropWhile_append {p : Char → Bool} {left rest : List Char} (all : ∀ c ∈ left, p c = true)
    (stops : ∀ c, rest.head? = some c → p c = false) : (left ++ rest).dropWhile p = rest := by
  rw [List.dropWhile_append_of_pos all]
  cases rest with
  | nil => rfl
  | cons c rest => exact List.dropWhile_cons_of_neg (by simp [stops c rfl])

theorem head?_dropWhile {p : Char → Bool} {text : List Char} {c : Char}
    (first : (text.dropWhile p).head? = some c) : p c = false := by
  have stops := List.head?_dropWhile_not p text
  rw [first] at stops
  simpa using stops

/-- Trimming finds the one word that there is. -/
theorem trim_eq_iff {entry word : List Char} : trim entry = word ↔ Trimmed entry word := by
  constructor
  · rintro rfl
    let inner := entry.dropWhile isSpace
    have split : inner = trim entry ++ (inner.reverse.takeWhile isSpace).reverse := by
      rw [trim, ← List.reverse_append, List.takeWhile_append_dropWhile, List.reverse_reverse]
    refine ⟨entry.takeWhile isSpace, (inner.reverse.takeWhile isSpace).reverse, ?_, ?_, ?_, ?_, ?_⟩
    · rw [← split, List.takeWhile_append_dropWhile]
    · exact fun c listed => List.mem_takeWhile_imp listed
    · intro c listed
      exact List.mem_takeWhile_imp (List.mem_reverse.mp listed)
    · intro c first
      have inside : inner.head? = some c := by
        rw [split, List.head?_append, first]
        rfl
      exact head?_dropWhile inside
    · intro c last
      rw [trim, List.getLast?_reverse] at last
      exact head?_dropWhile last
  · rintro ⟨left, right, rfl, left_spaces, right_spaces, first, last⟩
    by_cases nothing : word = []
    · subst nothing
      have all : ∀ c ∈ left ++ ([] ++ right), isSpace c = true := by
        intro c listed
        rcases List.mem_append.mp listed with here | there
        · exact left_spaces c here
        · exact right_spaces c there
      have dropped := dropWhile_append all (by simp : ∀ c, [].head? = some c → isSpace c = false)
      rw [List.append_nil] at dropped
      rw [trim, dropped]
      rfl
    · have first : ∀ c, (word ++ right).head? = some c → isSpace c = false := by
        intro c here
        obtain ⟨d, rest, rfl⟩ := List.exists_cons_of_ne_nil nothing
        exact first c here
      have spaces : ∀ c ∈ right.reverse, isSpace c = true :=
        fun c listed => right_spaces c (List.mem_reverse.mp listed)
      have last : ∀ c, word.reverse.head? = some c → isSpace c = false := by
        intro c here
        exact last c (by rwa [List.head?_reverse] at here)
      rw [trim, dropWhile_append left_spaces first, List.reverse_append,
        dropWhile_append spaces last, List.reverse_reverse]

/-- The pieces between separators are those that have none, and one or an end on either side. -/
theorem mem_splitOn_iff {separator : Char} {text piece : List Char} :
    piece ∈ text.splitOn separator ↔
      ∃ before behind, text = before ++ (piece ++ behind) ∧ separator ∉ piece ∧
        (before = [] ∨ before.getLast? = some separator) ∧
        (behind = [] ∨ behind.head? = some separator) := by
  have cut (front rest : List Char) : (front ++ separator :: rest).splitOn separator =
      front.splitOn separator ++ rest.splitOn separator :=
    List.splitOnP_append_cons front rest (by simp)
  constructor
  · intro listed
    -- The pieces behind the first separator are those of a shorter text.
    induction size : text.length using Nat.strongRecOn generalizing text with
    | ind n ih =>
      by_cases separated : separator ∈ text
      · obtain ⟨front, rest, rfl, unseparated⟩ := List.eq_append_cons_of_mem separated
        rw [cut, List.splitOn_eq_singleton unseparated] at listed
        rcases List.mem_cons.mp listed with rfl | later
        · exact ⟨[], separator :: rest, rfl, unseparated, .inl rfl, .inr rfl⟩
        · have shorter : rest.length < n := by
            rw [← size, List.length_append, List.length_cons]
            omega
          obtain ⟨before, behind, rfl, inside, opens, closes⟩ := ih _ shorter later rfl
          refine ⟨front ++ separator :: before, behind, by simp, inside, .inr ?_, closes⟩
          rcases opens with rfl | last
          · simp
          · rw [List.getLast?_append, List.getLast?_cons, last]
            rfl
      · rw [List.splitOn_eq_singleton separated, List.mem_singleton] at listed
        subst listed
        exact ⟨[], [], by simp, separated, .inl rfl, .inl rfl⟩
  · rintro ⟨before, behind, rfl, inside, opens, closes⟩
    have here : piece ∈ (piece ++ behind).splitOn separator := by
      have alone := List.splitOn_eq_singleton inside
      cases behind with
      | nil => rw [List.append_nil, alone]; exact List.mem_singleton.mpr rfl
      | cons c rest =>
        obtain rfl : c = separator := by simpa using closes
        rw [cut, alone]
        exact List.mem_append_left _ (List.mem_singleton.mpr rfl)
    rcases opens with rfl | last
    · exact here
    · obtain ⟨front, rfl⟩ := List.getLast?_eq_some_iff.mp last
      rw [List.append_assoc, List.singleton_append, cut]
      exact List.mem_append_right _ here

/-- The words of the environment are told from the text as it is. -/
theorem mem_words_iff {list word : String} : word ∈ words list ↔ Listed list word := by
  have spelled (entry : List Char) :
      (if (trim entry).isEmpty then none else some (String.ofList (trim entry))) = some word ↔
        word ≠ "" ∧ Trimmed entry word.toList := by
    rw [← trim_eq_iff, Option.ite_none_left_eq_some, Option.some.injEq, ← String.toList_inj,
      String.toList_ofList, List.isEmpty_iff]
    constructor
    · rintro ⟨some_letter, same⟩
      refine ⟨?_, same⟩
      rintro rfl
      exact some_letter same
    · rintro ⟨some_letter, same⟩
      exact ⟨same ▸ mt String.toList_eq_nil_iff.mp some_letter, same⟩
  simp only [words, List.filterMap_map, List.mem_filterMap, Function.comp_apply, spelled,
    mem_splitOn_iff]
  constructor
  · rintro ⟨entry, ⟨before, behind, split, inside, opens, closes⟩, some_letter, trimmed⟩
    exact ⟨some_letter, before, entry, behind, split, inside, opens, closes, trimmed⟩
  · rintro ⟨some_letter, before, entry, behind, split, inside, opens, closes, trimmed⟩
    exact ⟨entry, ⟨before, behind, split, inside, opens, closes⟩, some_letter, trimmed⟩

end ErlangLexer.CommandLine.Flags
