import ErlangLexer.Alphabet
import ErlangLexer.Mode
import ErlangLexer.Operator

/-!
# Operators, dots and symbols

The longest operator at the front of the text is read. A single dot before a blank,
a comment or the end of the text ends a form and takes the blank with it. Every
other character is a symbol of its own.
-/

namespace ErlangLexer.Punctuation

/-- The text behind a single dot makes it the end of a form. -/
def endsForm : List Char → Bool
  | [] => true
  | c :: _ => isBlank c || c == '%'

/-- The end of a form takes one blank with it. -/
def terminatorWidth : List Char → Nat
  | [] => 1
  | c :: _ => if isBlank c then 2 else 1

/-- At a character that starts nothing else. -/
def move (checking : Bool) (here : Location) (c : Char) (rest : List Char) (ended : Bool) : Move :=
  let text := c :: rest
  if !ended && Operator.mayGrow text then .wait
  else
    match Operator.longest? text with
    | some op =>
      if op = .dot ∧ endsForm rest = true then
        let width := terminatorWidth rest
        .emit width (if checking then .checkClose else .dot) (.front here text width) .between
      else
        let width := op.spelling.length
        .emit width (.operator op) (.front here text width) .between
    | none =>
      if isText c then .emit 1 (.symbol c) (.front here text 1) .between
      else .fail 1 (.illegal here .character)

theorem terminatorWidth_pos (rest : List Char) : 0 < terminatorWidth rest := by
  cases rest <;> simp only [terminatorWidth]
  · decide
  · split <;> decide

theorem terminatorWidth_le (rest : List Char) : terminatorWidth rest ≤ rest.length + 1 := by
  cases rest <;> simp only [terminatorWidth]
  · simp
  · split <;> simp

theorem move_fits (checking : Bool) (here : Location) (c : Char) (rest : List Char)
    (ended : Bool) : (move checking here c rest ended).Fits (c :: rest) ended .between := by
  simp only [move]
  split
  · simp_all [Move.Fits]
  · split
    · rename_i op found
      have positive := List.length_pos_iff.mpr op.spelling_ne_nil
      have short := op.length_le_of_longest? found
      split
      · have := terminatorWidth_pos rest
        exact ⟨terminatorWidth_le rest, by simp only [Mode.rank]; omega⟩
      · exact ⟨short, by simp only [Mode.rank]; omega⟩
    · split <;> simp [Move.Fits, Mode.rank]

end ErlangLexer.Punctuation
