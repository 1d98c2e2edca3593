import ErlangLexer.Location

/-!
# Lexical errors

An error is a cause and the location of what is wrong. Unterminated literals are
the errors that more text could have avoided; all of them but the character show
the beginning of the literal.
-/

namespace ErlangLexer

/-- What is illegal. -/
inductive Illegal where
  | character
  | atom
  | variable
  | string
  | sigilPrefix
  | sigilSuffix
  | integer
  | float
  deriving DecidableEq

def Illegal.render : Illegal → String
  | .character => "character"
  | .atom => "atom"
  | .variable => "var"
  | .string => "string"
  | .sigilPrefix => "sigil_prefix"
  | .sigilSuffix => "sigil_suffix"
  | .integer => "integer"
  | .float => "float"

inductive Cause where
  | unterminatedChar
  | unterminatedAtom (head : String)
  | unterminatedString (head : String)
  | unterminatedTripleQuoted (head : String)
  | unterminatedSigil (head : String)
  | illegal (what : Illegal)
  /-- The base of an integer is out of range. Its value is told, not how it is written. -/
  | illegalBase (base : String)
  /-- A line of a triple-quoted string does not have the indentation of the last one. -/
  | indentation
  /-- The opening quotes of a triple-quoted string are followed by more than blanks. -/
  | whiteSpace
  /-- A string follows directly upon another. -/
  | adjacentStrings
  deriving DecidableEq

namespace Cause

def message : Cause → String
  | .unterminatedChar => "unterminated character"
  | .unterminatedAtom head => "unterminated atom starting with '" ++ head ++ "'"
  | .unterminatedString head => "unterminated string starting with \"" ++ head ++ "\""
  | .unterminatedTripleQuoted head =>
    "unterminated triple-quoted string starting with \"" ++ head ++ "\""
  | .unterminatedSigil head => "unterminated sigil string starting with \"" ++ head ++ "\""
  | .illegal what => "illegal " ++ what.render
  | .illegalBase base => "illegal base '" ++ base ++ "'"
  | .indentation => "bad indentation in triple-quoted string"
  | .whiteSpace => "white space expected after the opening quotes of a triple-quoted string"
  | .adjacentStrings => "adjacent string literals without intervening white space"

/-- More text could have avoided the error. -/
def isUnterminated : Cause → Bool
  | .unterminatedChar | .unterminatedAtom _ | .unterminatedString _
  | .unterminatedTripleQuoted _ | .unterminatedSigil _ => true
  | _ => false

end Cause

structure LexicalError where
  location : Location
  cause : Cause
  deriving DecidableEq

/-- Something illegal at a location. -/
def LexicalError.illegal (location : Location) (what : Illegal) : LexicalError :=
  ⟨location, .illegal what⟩

def LexicalError.render (e : LexicalError) : String :=
  e.location.render ++ ": " ++ e.cause.message

/-- The characters of an unterminated literal that its error shows. -/
def errorHead (content : List Char) : String :=
  String.ofList (content.take 16)

end ErlangLexer
