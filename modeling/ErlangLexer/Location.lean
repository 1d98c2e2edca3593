/-!
# Source locations

A location is a line and, when columns are tracked, a column:

* `Location.next` moves past one character and `Location.walk` past a text, so
  every location of a scan is a walk from its start;
* whether columns are tracked never changes along a walk;
* both numbers stop at the largest value they can hold.
-/

namespace ErlangLexer

/-- A line and, when columns are tracked, the column counted from one. -/
structure Location where
  line : Int32
  column : Option UInt32
  deriving DecidableEq

namespace Location

instance : Inhabited Location := ⟨⟨1, none⟩⟩

/-- The first line, without columns. -/
def start : Location := ⟨1, none⟩

/-- The same line, `width` columns further on. -/
def shift (l : Location) (width : Nat) : Location :=
  { l with column := l.column.map fun c => UInt32.ofNat (min (c.toNat + width) 0xffffffff) }

/-- The line below one. -/
def lineBelow (line : Int32) : Int32 :=
  Int32.ofInt (min (line.toInt + 1) 0x7fffffff)

/-- A column of some line, if columns are tracked. -/
def onLine (l : Location) (line : Int32) (column : Nat) : Location :=
  ⟨line, l.column.map fun _ => UInt32.ofNat (min column 0xffffffff)⟩

/-- The first column of the following line. -/
def lineBreak (l : Location) : Location :=
  ⟨lineBelow l.line, l.column.map fun _ => 1⟩

/-- The location behind one character. -/
def next (l : Location) (c : Char) : Location :=
  if c = '\n' then l.lineBreak else l.shift 1

/-- The location behind a text. -/
def walk (l : Location) (text : List Char) : Location :=
  text.foldl next l

@[simp] theorem walk_nil (l : Location) : l.walk [] = l := rfl

@[simp] theorem walk_cons (l : Location) (c : Char) (text : List Char) :
    l.walk (c :: text) = (l.next c).walk text := rfl

theorem walk_append (l : Location) (s t : List Char) :
    l.walk (s ++ t) = (l.walk s).walk t := by
  simp [walk, List.foldl_append]

/-- No column comes before every column. -/
def compareColumn : Option UInt32 → Option UInt32 → Ordering
  | none, none => .eq
  | none, some _ => .lt
  | some _, none => .gt
  | some a, some b => compare a.toNat b.toNat

/-- Lines first, then columns. -/
def compare (a b : Location) : Ordering :=
  (Ord.compare a.line.toInt b.line.toInt).then (compareColumn a.column b.column)

/-- Whether columns are tracked. -/
def hasColumn (l : Location) : Bool := l.column.isSome

/-- The line, and behind a colon the column if there is one. -/
def render (l : Location) : String :=
  match l.column with
  | none => toString l.line.toInt
  | some c => toString l.line.toInt ++ ":" ++ toString c.toNat

end Location

end ErlangLexer
