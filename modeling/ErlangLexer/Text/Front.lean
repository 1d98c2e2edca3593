/-!
# The front of a text

How long a run of one character goes on at the front of a text, and whether a text
stops where more of the same, or the rest of a word, could still follow.
-/

namespace ErlangLexer

/-- The number of times `c` is repeated at the front of a text. -/
def runLength (c : Char) (text : List Char) : Nat :=
  (text.takeWhile (· == c)).length

/-- The text is nothing but repetitions of `c`, so that more of them may follow. -/
def isRun (c : Char) (text : List Char) : Bool :=
  text.all (· == c)

/-- The text breaks off within `word`. -/
def breaksOffWithin (text word : List Char) : Bool :=
  text.isPrefixOf word && text != word

theorem runLength_le (c : Char) (text : List Char) : runLength c text ≤ text.length :=
  (List.takeWhile_sublist _).length_le

theorem runLength_pos (c : Char) (text : List Char) : 0 < runLength c (c :: text) := by
  simp [runLength]

end ErlangLexer
