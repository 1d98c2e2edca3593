import ErlangLexer.Mode
import ErlangLexer.Options

/-!
# Atoms, variables and the names of sigils

A name is the longest run of name characters, at most 255 of them. Of the names of
sigils only `s` and `b` let backslashes escape.
-/

namespace ErlangLexer

/-- The most characters an atom, a variable or the name of a sigil may have. -/
def maxNameLength : Nat := 255

/-- What is illegal about a name that is too long. -/
def NameRole.illegal : NameRole → Illegal
  | .atom => .atom
  | .variable => .variable
  | .sigilPrefix => .sigilPrefix
  | .sigilSuffix _ => .sigilSuffix

namespace NameDraft

/-- The source text of the name: the tilde belongs to the name behind it. -/
def source (draft : NameDraft) : String :=
  match draft.role with
  | .sigilPrefix => "~" ++ draft.name
  | _ => draft.name

def kind (options : Options) (draft : NameDraft) : Kind :=
  match draft.role with
  | .atom => if options.reserved.holds draft.name then .reserved draft.name else .atom draft.name
  | .variable => .variable draft.name
  | .sigilPrefix => .sigilPrefix draft.name
  | .sigilSuffix _ => .sigilSuffix draft.name

/-- Backslashes are plain text in the string of this sigil. -/
def isVerbatim (draft : NameDraft) : Bool :=
  !(draft.name == "s" || draft.name == "b")

/-- The mode behind the name. -/
def next (draft : NameDraft) : Mode :=
  match draft.role with
  | .sigilPrefix => .sigil ⟨draft.start, draft.isVerbatim⟩
  | .sigilSuffix true => if draft.name = "" then .afterString else .between
  | _ => .between

/-- The name has no further character. -/
def complete (options : Options) (draft : NameDraft) : Move :=
  if maxNameLength < draft.name.length then .fail 0 (.illegal draft.start draft.role.illegal)
  else .emit 0 (draft.kind options) ⟨draft.start, draft.source⟩ draft.next

/-- Within a name. -/
def move (options : Options) (draft : NameDraft) (text : List Char) (ended : Bool) : Move :=
  match text with
  | [] => if ended then draft.complete options else .wait
  | c :: _ =>
    if continuesName c then .read 1 (.name { draft with name := draft.name.push c })
    else draft.complete options

theorem rank_next (draft : NameDraft) : draft.next.rank ≤ 1 := by
  simp only [next]
  repeat' split
  all_goals simp [Mode.rank]

theorem complete_fits (options : Options) (draft : NameDraft) (text : List Char)
    (ended : Bool) : (draft.complete options).Fits text ended (.name draft) := by
  have := draft.rank_next
  simp only [complete]
  split
  · simp [Move.Fits, Mode.rank]
  · exact ⟨Nat.zero_le _, by simp only [Mode.rank] at this ⊢; omega⟩

theorem move_fits (options : Options) (draft : NameDraft) (text : List Char)
    (ended : Bool) : (draft.move options text ended).Fits text ended (.name draft) := by
  simp only [move]
  split <;> split
  · exact draft.complete_fits options _ _
  · simp_all [Move.Fits]
  · simp [Move.Fits, Mode.rank]
  · exact draft.complete_fits options _ _

end NameDraft

end ErlangLexer
