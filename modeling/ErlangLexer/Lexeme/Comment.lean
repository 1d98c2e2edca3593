import ErlangLexer.Alphabet
import ErlangLexer.Mode
import ErlangLexer.Options

/-!
# Comments and check markers

A comment runs from a percent sign up to the next line break. With check comments
on, the marker `%ssa%` opens a check annotation instead, and within one it is
blank. A text that breaks off within the marker may still become it.
-/

namespace ErlangLexer.Comment

/-- The marker of a check annotation. -/
def marker : List Char := ['%', 's', 's', 'a', '%']

/-- Text that a comment passes over. -/
def skips (c : Char) : Bool :=
  c != '\n' && isText c

/-- At a percent sign. -/
def openMove (options : Options) (checking : Bool) (here : Location) (text : List Char)
    (ended : Bool) : Move :=
  if options.checkComments && marker.isPrefixOf text then
    if checking then .read 5 .between
    else .emit 5 .checkOpen (.front here text 5) .between
  else if options.checkComments && !ended && breaksOffWithin text marker then .wait
  else .read 1 .comment

/-- Within a comment. The character that ends it is left to be read as any other. -/
def move (text : List Char) (ended : Bool) : Move :=
  match text with
  | [] => if ended then .read 0 .between else .wait
  | c :: _ => if skips c then .read 1 .comment else .read 0 .between

theorem openMove_fits (options : Options) (checking : Bool) (here : Location) (c : Char)
    (text : List Char) (ended : Bool) :
    (openMove options checking here (c :: text) ended).Fits (c :: text) ended .between := by
  simp only [openMove]
  split
  · rename_i marked
    simp only [Bool.and_eq_true, List.isPrefixOf_iff_prefix] at marked
    have long : 5 ≤ (c :: text).length := marked.2.length_le
    split
    · exact ⟨long, by decide⟩
    · exact ⟨long, by decide⟩
  · split
    · simp_all [Move.Fits]
    · simp [Move.Fits, Mode.rank]

theorem move_fits (text : List Char) (ended : Bool) :
    (move text ended).Fits text ended .comment := by
  simp only [move]
  repeat' split
  all_goals simp_all [Move.Fits, Mode.rank]

end ErlangLexer.Comment
