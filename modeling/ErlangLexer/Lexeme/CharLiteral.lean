import ErlangLexer.Escape
import ErlangLexer.Mode

/-!
# Character literals

A dollar sign stands before a character or an escape. The literal is read in one
move, so one that breaks off is read again from its dollar sign.
-/

namespace ErlangLexer.CharLiteral

/-- At a dollar sign; `rest` is the text behind it. -/
def move (here : Location) (rest : List Char) (ended : Bool) : Move :=
  let literal (value : Char) (width : Nat) :=
    Move.emit width (.char value) (.front here ('$' :: rest) width) .between
  match rest with
  | [] => if ended then .fail 1 ⟨here, .unterminatedChar⟩ else .wait
  | c :: behind =>
    if c = '\\' then
      match Escape.read behind ended with
      | .char value width => literal value (2 + width)
      | .lineBreak => literal '\n' 3
      | .incomplete =>
        if ended then .fail (behind.length + 2) ⟨here, .unterminatedChar⟩ else .wait
      | .malformed width => .fail (2 + width) (.illegal here .character)
    else if isText c then literal c 2
    else .fail 2 (.illegal (here.next '$') .character)

theorem move_fits (here : Location) (rest : List Char) (ended : Bool) :
    (move here rest ended).Fits ('$' :: rest) ended .between := by
  simp only [move]
  split
  · split <;> simp_all [Move.Fits, Mode.rank]
  · rename_i c behind
    split
    · have within := Escape.read_within behind ended
      split <;> rename_i read <;> rw [read] at within
      · have := within.2
        exact ⟨by simp only [List.length_cons]; omega, by simp only [Mode.rank]; omega⟩
      · have := List.length_pos_iff.mpr within
        exact ⟨by simp only [List.length_cons]; omega, by simp only [Mode.rank]; omega⟩
      · split <;> simp_all [Move.Fits, Mode.rank]
      · have := within.2
        exact ⟨by simp only [List.length_cons]; omega, by simp only [Mode.rank]; omega⟩
    · split <;> simp [Move.Fits, Mode.rank]

end ErlangLexer.CharLiteral
