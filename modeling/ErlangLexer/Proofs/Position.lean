import ErlangLexer.Location
import Mathlib.Data.List.DropRight
import Mathlib.Data.List.Induction

/-!
# Positions by arithmetic

Where a walk ends can be told from the text alone:

* `Location.position`: the line is counted by the line breaks, and a tracked column by
  the characters behind the last of them, each up to the largest value it can hold;
* `Location.walk_eq_position`: a walk of one character at a time ends there;
* `Location.walk_inline`: within a line, it is counted by columns alone.
-/

namespace ErlangLexer.Location

/-- The column behind a text that starts in the given one, without a bound. -/
def columnBehind (column : Nat) (text : List Char) : Nat :=
  if '\n' ∈ text then 1 + (text.rtakeWhile (· != '\n')).length else column + text.length

/-- The location behind a text that starts at `origin`. -/
def position (origin : Location) (text : List Char) : Location where
  line := Int32.ofInt (min (origin.line.toInt + text.count '\n') 0x7fffffff)
  column := origin.column.map fun c =>
    UInt32.ofNat (min (columnBehind c.toNat text) 0xffffffff)

theorem columnBehind_lineBreak (column : Nat) (text : List Char) :
    columnBehind column (text ++ ['\n']) = 1 := by
  simp [columnBehind]

theorem columnBehind_concat (column : Nat) (text : List Char) {c : Char} (within : c ≠ '\n') :
    columnBehind column (text ++ [c]) = columnBehind column text + 1 := by
  have same : '\n' ∈ text ++ [c] ↔ '\n' ∈ text := by simp [within.symm]
  by_cases broken : '\n' ∈ text
  · simp [columnBehind, broken, within, Nat.add_assoc]
  · simp [columnBehind, same, broken, Nat.add_assoc]

/-- The line is never beyond the greatest one, so the bound does not show at once. -/
theorem toInt_line_position (origin : Location) (text : List Char) :
    (origin.position text).line.toInt = min (origin.line.toInt + text.count '\n') 0x7fffffff := by
  have low := origin.line.le_toInt
  exact Int32.toInt_ofInt_of_le (by omega) (by omega)

theorem position_nil (origin : Location) : origin.position [] = origin := by
  have line := origin.line.toInt_lt
  have least : min (origin.line.toInt + ([] : List Char).count '\n') 0x7fffffff =
      origin.line.toInt := by
    simp only [List.count_nil]
    omega
  obtain ⟨l, column⟩ := origin
  simp only [position, least, Int32.ofInt_toInt, mk.injEq, true_and]
  cases column with
  | none => rfl
  | some c =>
    have bound := c.toNat_lt
    have same : min (columnBehind c.toNat []) 0xffffffff = c.toNat := by
      simp only [columnBehind, List.not_mem_nil, ↓reduceIte, List.length_nil]
      omega
    simp [same]

theorem position_lineBreak (origin : Location) (text : List Char) :
    origin.position (text ++ ['\n']) = (origin.position text).lineBreak := by
  have line : min (origin.line.toInt + (text ++ ['\n']).count '\n') 0x7fffffff =
      min ((origin.position text).line.toInt + 1) 0x7fffffff := by
    simp only [toInt_line_position, List.count_append, List.count_singleton_self]
    omega
  rw [lineBreak, lineBelow, ← line, position, position]
  cases origin.column <;> simp [columnBehind_lineBreak]

theorem position_shift (origin : Location) (text : List Char) {c : Char} (within : c ≠ '\n') :
    origin.position (text ++ [c]) = (origin.position text).shift 1 := by
  have count : (text ++ [c]).count '\n' = text.count '\n' := by simp [within]
  simp only [position, shift, count, mk.injEq, true_and, Option.map_map]
  cases origin.column with
  | none => rfl
  | some d =>
    have bound : min (columnBehind d.toNat text) 0xffffffff < UInt32.size :=
      Nat.lt_of_le_of_lt (Nat.min_le_right _ _) (by decide)
    simp only [Option.map_some, Function.comp_apply, UInt32.toNat_ofNat_of_lt' bound,
      columnBehind_concat d.toNat text within, Option.some.injEq]
    congr 1
    omega

/-- A walk ends where arithmetic says. -/
theorem walk_eq_position (origin : Location) (text : List Char) :
    origin.walk text = origin.position text := by
  induction text using List.reverseRec with
  | nil => exact origin.position_nil.symm
  | append_singleton text c ih =>
    rw [walk_append, ih, walk_cons, walk_nil, next]
    split
    · subst_vars
      exact (origin.position_lineBreak text).symm
    · exact (origin.position_shift text ‹_›).symm

theorem position_inline (origin : Location) {text : List Char} (inline : '\n' ∉ text) :
    origin.position text = origin.shift text.length := by
  have one_line : (origin.position text).line = origin.line := by
    rw [← Int32.toInt_inj, toInt_line_position, List.count_eq_zero.mpr inline]
    have bound := origin.line.toInt_lt
    omega
  have column : (origin.position text).column = (origin.shift text.length).column := by
    simp only [position, shift, columnBehind, inline, ↓reduceIte]
  exact (Location.mk.injEq ..).mpr ⟨one_line, column⟩

/-- A walk within a line goes one column further with each character. -/
theorem walk_inline (origin : Location) {text : List Char} (inline : '\n' ∉ text) :
    origin.walk text = origin.shift text.length := by
  rw [walk_eq_position, position_inline origin inline]

theorem hasColumn_walk (location : Location) (text : List Char) :
    (location.walk text).hasColumn = location.hasColumn := by
  rw [walk_eq_position]
  obtain ⟨line, column⟩ := location
  cases column <;> rfl

theorem column_walk_lineBreak (location : Location) (text : List Char) :
    (location.walk (text ++ ['\n'])).column = location.column.map fun _ => 1 := by
  have tracked := location.hasColumn_walk text
  rw [walk_append]
  simp only [walk_cons, walk_nil, next, ↓reduceIte, lineBreak, hasColumn] at tracked ⊢
  cases behind : (location.walk text).column <;> cases column : location.column <;>
    simp_all

theorem line_walk_le (location : Location) (text : List Char) :
    (location.walk text).line.toInt ≤ location.line.toInt + text.count '\n' := by
  rw [walk_eq_position, toInt_line_position]
  exact Int.min_le_left _ _

@[simp] theorem line_shift (location : Location) (width : Nat) :
    (location.shift width).line = location.line := rfl

end ErlangLexer.Location
