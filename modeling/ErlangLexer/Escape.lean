import ErlangLexer.Digits

/-!
# Escapes

The characters behind a backslash stand for one character. `Escape.read` decides
what they stand for and how many of them belong to the escape:

* one to three octal digits, as many as there are;
* `x` with two hexadecimal digits, or with any number of them in braces;
* `^` with a letter or a neighbour of the capitals for a control, or with `?`;
* a letter for a named control, a line break for itself, and every other
  character for itself.

Only octal digits may go on behind what is already an escape, so only they ask
whether the text has ended. `Escape.decodeText` decodes a whole text.
-/

namespace ErlangLexer

/-- What the text behind a backslash amounts to. -/
inductive Escape where
  /-- A character, spelled with the first `width` characters. -/
  | char (value : Char) (width : Nat)
  /-- The line break itself. -/
  | lineBreak
  /-- The text stops before the escape is complete. -/
  | incomplete
  /-- No escape; the character that rules it out is the last of `width`. -/
  | malformed (width : Nat)
  deriving DecidableEq

namespace Escape

def isOctal (c : Char) : Bool :=
  '0' ≤ c && c ≤ '7'

/-- The character of a code, if it may stand in text. -/
def ofCode (code width : Nat) : Escape :=
  if isTextCode code then .char (Char.ofNat code) width else .malformed width

/-- One to three octal digits. -/
def readOctal (text : List Char) (ended : Bool) : Escape :=
  let digits := (text.take 3).takeWhile isOctal
  if digits.length < 3 && (text.drop digits.length).isEmpty && !ended then .incomplete
  else ofCode (digitsValue 8 digits) digits.length

/-- The digits in braces and the closing brace, behind the opening one. -/
def readBraced (text : List Char) : Escape :=
  let digits := text.takeWhile fun c => (digitValue? 16 c).isSome
  let width := digits.length + 3
  match text.drop digits.length with
  | [] => .incomplete
  | c :: _ =>
    if c = '\x7d' && !digits.isEmpty then ofCode (digitsValue 16 digits) width
    else .malformed width

/-- What follows `x`. -/
def readHex : List Char → Escape
  | [] => .incomplete
  | '\x7b' :: text => readBraced text
  | c :: text =>
    match digitValue? 16 c, text with
    | none, _ => .malformed 2
    | some _, [] => .incomplete
    | some high, d :: _ =>
      match digitValue? 16 d with
      | none => .malformed 3
      | some low => ofCode (high * 16 + low) 3

/-- The control character behind `^`. -/
def control? (c : Char) : Option Char :=
  if c = '?' then some '\x7f'
  else if ('@' ≤ c && c ≤ '_') || ('a' ≤ c && c ≤ 'z') then some (Char.ofNat (c.toNat % 32))
  else none

/-- The controls that have a letter; every other character names itself. -/
def named (c : Char) : Char :=
  match c with
  | 'n' => '\n'
  | 'r' => '\r'
  | 't' => '\t'
  | 'v' => '\x0b'
  | 'b' => '\x08'
  | 'f' => '\x0c'
  | 'e' => '\x1b'
  | 's' => ' '
  | 'd' => '\x7f'
  | _ => c

/-- What the text behind a backslash amounts to. With `ended` the text is all that
will ever come. -/
def read (text : List Char) (ended : Bool) : Escape :=
  match text with
  | [] => .incomplete
  | c :: rest =>
    if isOctal c then readOctal text ended
    else if c = 'x' then readHex rest
    else if c = '^' then
      match rest with
      | [] => .incomplete
      | d :: _ =>
        match control? d with
        | some value => .char value 2
        | none => .malformed 2
    else if c = '\n' then .lineBreak
    else if isText c then .char (named c) 1
    else .malformed 1

/-- The width of an escape is that of some text in front. -/
def Within (text : List Char) : Escape → Prop
  | .char _ width | .malformed width => 0 < width ∧ width ≤ text.length
  | .lineBreak => text ≠ []
  | .incomplete => True

theorem ofCode_within {text : List Char} {code width : Nat} (positive : 0 < width)
    (le : width ≤ text.length) : (ofCode code width).Within text := by
  unfold ofCode
  split <;> exact ⟨positive, le⟩

theorem readOctal_within {c : Char} {rest : List Char} (ended : Bool) (octal : isOctal c = true) :
    (readOctal (c :: rest) ended).Within (c :: rest) := by
  have digits : 0 < (((c :: rest).take 3).takeWhile isOctal).length := by simp [octal]
  have short : (((c :: rest).take 3).takeWhile isOctal).length ≤ (c :: rest).length :=
    Nat.le_trans (List.takeWhile_sublist _).length_le (List.length_take_le' _ _)
  unfold readOctal
  dsimp only
  split
  · trivial
  · exact ofCode_within digits short

theorem readBraced_within (text : List Char) :
    (readBraced text).Within ('x' :: '\x7b' :: text) := by
  have short : (text.takeWhile fun c => (digitValue? 16 c).isSome).length ≤ text.length :=
    (List.takeWhile_sublist _).length_le
  unfold readBraced
  dsimp only
  split
  · trivial
  · rename_i c behind h
    have less := congrArg List.length h
    simp only [List.length_drop, List.length_cons] at less
    split
    · refine ofCode_within (by omega) ?_
      simp only [List.length_cons]
      omega
    · refine ⟨by omega, ?_⟩
      simp only [List.length_cons]
      omega

theorem readHex_within (text : List Char) : (readHex text).Within ('x' :: text) := by
  unfold readHex
  repeat' split
  · trivial
  · exact readBraced_within _
  · simp [Within]
  · trivial
  · simp [Within]
  · exact ofCode_within (by decide) (by simp)

/-- An escape never takes more than there is. -/
theorem read_within (text : List Char) (ended : Bool) : (read text ended).Within text := by
  unfold read
  repeat' split
  · trivial
  · exact readOctal_within _ ‹_›
  · subst_vars
    exact readHex_within _
  · trivial
  · simp [Within]
  · simp [Within]
  · simp [Within]
  · simp [Within]
  · simp [Within]

/-- An escape of a text that could not be decoded: where its backslash is and how
many characters it takes with the one that rules it out. -/
structure Fault where
  offset : Nat
  width : Nat
  deriving DecidableEq

/-- A text with every escape decoded, or its first faulty escape. The text is
`offset` characters into some longer one. -/
def decodeFrom (offset : Nat) : List Char → Except Fault (List Char)
  | [] => .ok []
  | c :: rest =>
    if c = '\\' then
      match read rest true with
      | .char value width =>
        (decodeFrom (offset + 1 + width) (rest.drop width)).map (value :: ·)
      | .lineBreak => (decodeFrom (offset + 2) (rest.drop 1)).map ('\n' :: ·)
      | .incomplete => .error ⟨offset, 1⟩
      | .malformed width => .error ⟨offset, 1 + width⟩
    else (decodeFrom (offset + 1) rest).map (c :: ·)
termination_by text => text.length
decreasing_by all_goals simp only [List.length_cons, List.length_drop]; omega

/-- A text with every escape decoded, or its first faulty escape. -/
def decodeText (text : List Char) : Except Fault (List Char) :=
  decodeFrom 0 text

end Escape

end ErlangLexer
