import ErlangLexer.Binary64.Shortest
import ErlangLexer.Location
import ErlangLexer.Operator
import ErlangLexer.Text.Quoted

/-!
# Tokens

A token is a kind, which carries the value of a literal, the location of its first
character, and its source text if the scan captures it.
-/

namespace ErlangLexer

inductive Kind where
  | atom (name : String)
  | variable (name : String)
  | integer (value : Nat)
  | float (value : Binary64)
  | string (value : String)
  | char (value : Char)
  /-- The end of a form. -/
  | dot
  /-- The marker that opens a check annotation. -/
  | checkOpen
  /-- The dot that closes a check annotation. -/
  | checkClose
  /-- The name behind the tilde of a sigil. -/
  | sigilPrefix (name : String)
  /-- The name behind the closing delimiter of a sigil. -/
  | sigilSuffix (name : String)
  | reserved (word : String)
  | operator (op : Operator)
  /-- A character that is nothing else. -/
  | symbol (c : Char)
  deriving DecidableEq

namespace Kind

/-- The category a parser goes by: reserved words, operators and symbols are their own. -/
def category : Kind → String
  | .atom _ => "atom"
  | .variable _ => "var"
  | .integer _ => "integer"
  | .float _ => "float"
  | .string _ => "string"
  | .char _ => "char"
  | .dot => "dot"
  | .checkOpen => "%ssa%"
  | .checkClose => "ssa_check_end"
  | .sigilPrefix _ => "sigil_prefix"
  | .sigilSuffix _ => "sigil_suffix"
  | .reserved word => word
  | .operator op => op.render
  | .symbol c => c.toString

/-- The value of a literal as text. -/
def renderValue? : Kind → Option String
  | .atom name | .variable name | .sigilPrefix name | .sigilSuffix name => some name
  | .integer value => some (toString value)
  | .float value => some value.render
  | .string value => some (Text.quote value)
  | .char value => some ("$" ++ value.toString)
  | _ => none

end Kind

structure Token where
  kind : Kind
  location : Location
  text : Option String
  deriving DecidableEq

/-- A text filled up with spaces to a width. -/
def padRight (width : Nat) (text : String) : String :=
  text ++ String.ofList (List.replicate (width - text.length) ' ')

/-- The category in a column of twelve, the value and the location. -/
def Token.render (t : Token) : String :=
  let value := match t.kind.renderValue? with
    | some value => " " ++ value
    | none => ""
  padRight 12 t.kind.category ++ value ++ " @ " ++ t.location.render

end ErlangLexer
