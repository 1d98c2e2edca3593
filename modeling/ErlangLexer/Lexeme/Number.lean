import ErlangLexer.Digits
import ErlangLexer.Mode

/-!
# Numbers

A number is decimal digits, `Base#` and digits of a base up to 36, or decimal digits
with a point, a fraction and perhaps an exponent. One underscore may stand between
two digits. Where a number may go on with more than one character, an underscore or
a point and the digit behind it, both are read by one move.
-/

namespace ErlangLexer

/-- A value with one more digit, which may be its first. -/
def appendDigit (base : Nat) (value : Option Nat) (digit : Nat) : Nat :=
  value.getD 0 * base + digit

namespace NumberPart

/-- The part with one more digit, if the character is a digit of it. -/
def digit? (part : NumberPart) (c : Char) : Option NumberPart :=
  match part with
  | .whole value =>
    (digitValue? 10 c).map fun d => .whole (appendDigit 10 (some value) d)
  | .based base value =>
    (digitValue? base c).map fun d => .based base (some (appendDigit base value d))
  | .fraction mantissa places =>
    (digitValue? 10 c).map fun d => .fraction (appendDigit 10 (some mantissa) d) (places + 1)
  | .sign _ _ => none
  | .exponent mantissa places negative value =>
    (digitValue? 10 c).map fun d =>
      .exponent mantissa places negative (some (appendDigit 10 value d))

/-- An underscore may follow: the part has a digit. -/
def hasDigit : NumberPart → Bool
  | .whole _ | .fraction _ _ => true
  | .based _ value | .exponent _ _ _ value => value.isSome
  | .sign _ _ => false

/-- What is illegal about a number that goes wrong in this part. -/
def illegal : NumberPart → Illegal
  | .whole _ | .based _ _ => .integer
  | _ => .float

/-- The value of a number that ends with this part. A float beyond the greatest double
has none. -/
def kind? : NumberPart → Option Kind
  | .whole value => some (.integer value)
  | .based _ value => value.map .integer
  | .fraction mantissa places => (Binary64.ofDecimal? mantissa (-places)).map .float
  | .sign _ _ => none
  | .exponent mantissa places negative value =>
    value.bind fun e =>
      (Binary64.ofDecimal? mantissa ((if negative then -e else e : Int) - places)).map .float

end NumberPart

namespace NumberDraft

/-- A number that starts with a decimal digit. -/
def ofDigit (here : Location) (c : Char) : NumberDraft :=
  ⟨⟨here, c.toString⟩, .whole ((digitValue? 10 c).getD 0)⟩

/-- Read some characters and go on in `part`. -/
def readTo (draft : NumberDraft) (text : List Char) (width : Nat) (part : NumberPart) : Move :=
  .read width (.number ⟨draft.lexeme.extend text width, part⟩)

/-- The number is wrong in its present part. -/
def fault (draft : NumberDraft) (width : Nat) : Move :=
  .fail width (.illegal draft.lexeme.start draft.part.illegal)

/-- The number has no further character. -/
def complete (draft : NumberDraft) : Move :=
  match draft.part.kind? with
  | some kind => .emit 0 kind draft.lexeme .between
  | none => draft.fault 0

/-- At underscores behind a digit. One with a digit behind it is read; any others are an
error that takes all of them. -/
def underscores (draft : NumberDraft) (text : List Char) (ended : Bool) : Move :=
  match text with
  | [_] => if ended then draft.fault 1 else .wait
  | _ :: d :: _ =>
    match draft.part.digit? d with
    | some part => draft.readTo text 2 part
    | none => if !ended && isRun '_' text then .wait else draft.fault (runLength '_' text)
  | [] => draft.complete

/-- At the point behind the whole part: with a digit behind it the number is a float. -/
def point (draft : NumberDraft) (value : Nat) (text : List Char) (ended : Bool) : Move :=
  match text.drop 1 with
  | [] => if ended then draft.complete else .wait
  | d :: _ =>
    match (NumberPart.fraction value 0).digit? d with
    | some part => draft.readTo text 2 part
    | none => draft.complete

/-- At the `#` behind the whole part. Outside 2 to 36 it is no base, and the `#` is left
to be read as any other character. -/
def base (draft : NumberDraft) (value : Nat) (text : List Char) : Move :=
  if 2 ≤ value ∧ value ≤ 36 then draft.readTo text 1 (.based value none)
  else .fail 0 ⟨draft.lexeme.start, .illegalBase (toString value)⟩

/-- At a character that is no digit of the present part. -/
def mark (draft : NumberDraft) (c : Char) (text : List Char) (ended : Bool) : Move :=
  match draft.part with
  | .whole value =>
    if c = '.' then draft.point value text ended
    else if c = '#' then draft.base value text
    else draft.complete
  | .fraction mantissa places =>
    if c = 'e' || c = 'E' then draft.readTo text 1 (.sign mantissa places)
    else draft.complete
  | .sign mantissa places =>
    if c = '+' then draft.readTo text 1 (.exponent mantissa places false none)
    else if c = '-' then draft.readTo text 1 (.exponent mantissa places true none)
    else
      match (NumberPart.exponent mantissa places false none).digit? c with
      | some part => draft.readTo text 1 part
      | none => draft.complete
  | .based _ _ | .exponent _ _ _ _ => draft.complete

/-- Within a number. -/
def move (draft : NumberDraft) (text : List Char) (ended : Bool) : Move :=
  match text with
  | [] => if ended then draft.complete else .wait
  | c :: _ =>
    match draft.part.digit? c with
    | some part => draft.readTo text 1 part
    | none =>
      if c = '_' && draft.part.hasDigit then draft.underscores text ended
      else draft.mark c text ended

theorem readTo_fits (draft : NumberDraft) {text : List Char} {width : Nat}
    (part : NumberPart) (ended : Bool) (positive : 0 < width) (short : width ≤ text.length) :
    (draft.readTo text width part).Fits text ended (.number draft) :=
  ⟨short, by simp only [Mode.rank]; omega⟩

theorem fault_fits (draft : NumberDraft) {text : List Char} (ended : Bool) {width : Nat}
    (short : width ≤ text.length) :
    (draft.fault width).Fits text ended (.number draft) :=
  ⟨short, by simp only [Mode.rank]; omega⟩

theorem complete_fits (draft : NumberDraft) (text : List Char) (ended : Bool) :
    draft.complete.Fits text ended (.number draft) := by
  simp only [complete]
  split
  · simp [Move.Fits, Mode.rank]
  · exact draft.fault_fits ended (Nat.zero_le _)

theorem underscores_fits (draft : NumberDraft) (text : List Char) (ended : Bool) :
    (draft.underscores text ended).Fits text ended (.number draft) := by
  simp only [underscores]
  repeat' split
  · exact draft.fault_fits _ (by simp)
  · simp_all [Move.Fits]
  · exact draft.readTo_fits _ _ (by decide) (by simp)
  · simp_all [Move.Fits]
  · exact draft.fault_fits _ (runLength_le _ _)
  · exact draft.complete_fits _ _

theorem point_fits (draft : NumberDraft) (value : Nat) (c : Char) (text : List Char)
    (ended : Bool) :
    (draft.point value (c :: text) ended).Fits (c :: text) ended (.number draft) := by
  simp only [point]
  split
  · split
    · exact draft.complete_fits _ _
    · simp_all [Move.Fits]
  · rename_i digits
    simp only [List.drop_succ_cons, List.drop_zero] at digits
    split
    · exact draft.readTo_fits _ _ (by decide) (by simp [digits])
    · exact draft.complete_fits _ _

theorem base_fits (draft : NumberDraft) (value : Nat) (c : Char) (text : List Char)
    (ended : Bool) :
    (draft.base value (c :: text)).Fits (c :: text) ended (.number draft) := by
  simp only [base]
  split
  · exact draft.readTo_fits _ _ (by decide) (by simp)
  · simp [Move.Fits, Mode.rank]

theorem mark_fits (draft : NumberDraft) (c : Char) (text : List Char) (ended : Bool) :
    (draft.mark c (c :: text) ended).Fits (c :: text) ended (.number draft) := by
  have read (part : NumberPart) :
      (draft.readTo (c :: text) 1 part).Fits (c :: text) ended (.number draft) :=
    draft.readTo_fits _ _ (by decide) (by simp)
  simp only [mark]
  repeat' split
  · exact draft.point_fits _ _ _ _
  · exact draft.base_fits _ _ _ _
  · exact draft.complete_fits _ _
  · exact read _
  · exact draft.complete_fits _ _
  · exact read _
  · exact read _
  · exact read _
  · exact draft.complete_fits _ _
  · exact draft.complete_fits _ _
  · exact draft.complete_fits _ _

theorem move_fits (draft : NumberDraft) (text : List Char) (ended : Bool) :
    (draft.move text ended).Fits text ended (.number draft) := by
  simp only [move]
  repeat' split
  · exact draft.complete_fits _ _
  · simp_all [Move.Fits]
  · exact draft.readTo_fits _ _ (by decide) (by simp)
  · exact draft.underscores_fits _ _
  · exact draft.mark_fits _ _ _

end NumberDraft

end ErlangLexer
