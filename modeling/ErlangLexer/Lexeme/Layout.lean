import ErlangLexer.Escape
import ErlangLexer.Mode

/-!
# The layout of triple-quoted strings

The blanks before the closing quotes are the indentation of the whole string. Its
opening line must be blank, and every content line starts with the indentation or is
blank. Only then are escapes decoded, if at all.

The first fault counts: of the opening line, else of the indentation, else of the
escapes. One on a content line is reported on the line that is stored with it.
-/

namespace ErlangLexer

namespace Layout

/-- A line without its indentation. A blank line may do without. -/
def stripLine (indent line : List Char) : Option (List Char) :=
  if indent.isPrefixOf line then some (line.drop indent.length)
  else if line.all isBlank then some ['\n']
  else none

/-- Where a line first differs from the indentation. -/
def mismatch (indent line : List Char) : Nat :=
  ((line.zip indent).findIdx? fun pair => pair.1 != pair.2).getD 0

/-- Lines that have lost their indentation, and the line that lacks it, with the number
of characters in front of the first that differs. -/
structure Stripped where
  texts : List (List Char)
  bad : Option (Int32 × Nat)

/-- One more line, above the others. -/
def Stripped.add (indent : List Char) (line : ContentLine) (below : Stripped) : Stripped :=
  match stripLine indent line.text.toList with
  | some text => { below with texts := text :: below.texts }
  | none => { below with bad := some (line.line, mismatch indent line.text.toList) }

/-- The lines are looked at from the last one up, so the topmost bad one counts. -/
def strip (indent : List Char) (lines : List ContentLine) : Stripped :=
  lines.foldr (Stripped.add indent) ⟨[], none⟩

/-- The stripped lines with their escapes decoded, or the first faulty escape and the
line that it is on. -/
def decode : List (List Char) → List ContentLine → Except (Int32 × Escape.Fault) (List Char)
  | text :: texts, line :: lines =>
    match Escape.decodeText text with
    | .error fault => .error (line.line, fault)
    | .ok value => (decode texts lines).map (value ++ ·)
  | _, _ => .ok []

/-- Of several lines, the last line break belongs to the layout. -/
def dropLastBreak {α : Type} (lines : List α) (value : List Char) : List Char :=
  if 1 < lines.length && value.getLast? == some '\n' then value.dropLast else value

theorem dropLastBreak_map {α β : Type} (f : α → β) (lines : List α) (value : List Char) :
    dropLastBreak (lines.map f) value = dropLastBreak lines value := by
  simp only [dropLastBreak, List.length_map]

end Layout

end ErlangLexer
