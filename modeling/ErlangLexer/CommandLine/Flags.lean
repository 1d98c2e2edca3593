import ErlangLexer.Digits
import ErlangLexer.Options

/-!
# Flags

The flags behind the file of a command, read from left to right. The first that is
wrong is reported. Feature words add up, also with those of the environment, and the
last chunk size counts.
-/

namespace ErlangLexer.CommandLine

inductive Command where
  | tokens
  | forms
  deriving DecidableEq

def Command.name : Command → String
  | .tokens => "tokens"
  | .forms => "forms"

/-- What is wrong with a command line. -/
inductive Misuse where
  | unknownCommand (name : String)
  | missingPath (command : Command)
  | emptyFeature (argument : String)
  | invalidChunkSize (size : String)
  | unknownOption (argument : String)
  deriving DecidableEq

def Misuse.message : Misuse → String
  | .unknownCommand name => "unknown command '" ++ name ++ "'"
  | .missingPath command => "missing file path for '" ++ command.name ++ "'"
  | .emptyFeature argument => "empty feature keyword in '" ++ argument ++ "'"
  | .invalidChunkSize size =>
    "invalid chunk size '" ++ size ++ "': expected a positive integer"
  | .unknownOption argument => "unknown option '" ++ argument ++ "'"

/-- The flags that both commands share. -/
structure Flags where
  columns : Bool
  text : Bool
  checks : Bool
  features : List String
  /-- Feed the file in chunks of this many bytes. -/
  chunk : Option Nat
  deriving DecidableEq

namespace Flags

/-- No flag is given. -/
def unset : Flags := ⟨false, false, false, [], none⟩

/-- The text behind some leading characters. -/
def after? (lead text : List Char) : Option (List Char) :=
  if lead.isPrefixOf text then some (text.drop lead.length) else none

/-- The value of a nonempty row of decimal digits. -/
def decimal? (digits : List Char) : Option Nat :=
  if digits.isEmpty || !digits.all isDigit then none else some (digitsValue 10 digits)

/-- The greatest chunk size: sixty-four bits. -/
def maxChunkSize : Nat := 0xffffffffffffffff

/-- A chunk size: a positive decimal, perhaps behind a plus sign. -/
def chunkSize? (text : List Char) : Option Nat :=
  (decimal? ((after? ['+'] text).getD text)).filter fun size => 0 < size && size ≤ maxChunkSize

/-- The flags with one more argument. -/
def add (flags : Flags) (argument : String) : Except Misuse Flags :=
  if argument = "--columns" then .ok { flags with columns := true }
  else if argument = "--text" then .ok { flags with text := true }
  else if argument = "--ssa-checks" then .ok { flags with checks := true }
  else
    match after? "--feature=".toList argument.toList with
    | some [] => .error (.emptyFeature argument)
    | some word => .ok { flags with features := flags.features ++ [String.ofList word] }
    | none =>
      match after? "--chunk=".toList argument.toList with
      | some size =>
        match chunkSize? size with
        | some size => .ok { flags with chunk := some size }
        | none => .error (.invalidChunkSize (String.ofList size))
      | none => .error (.unknownOption argument)

/-- The flags of all arguments. -/
def ofArguments (arguments : List String) : Except Misuse Flags :=
  arguments.foldlM add unset

/-- White space around the words of the environment, by its Unicode property. -/
def isSpace (c : Char) : Bool :=
  ('\t' ≤ c && c ≤ '\r') || c == ' ' || c == '\u0085' || c == '\u00a0' || c == '\u1680' ||
    ('\u2000' ≤ c && c ≤ '\u200a') || c == '\u2028' || c == '\u2029' || c == '\u202f' ||
    c == '\u205f' || c == '\u3000'

/-- A text without the white space around it. -/
def trim (text : List Char) : List Char :=
  ((text.dropWhile isSpace).reverse.dropWhile isSpace).reverse

/-- The words between the commas of a text. -/
def words (text : String) : List String :=
  ((text.toList.splitOn ',').map trim).filterMap fun word =>
    if word.isEmpty then none else some (String.ofList word)

/-- The flags with the feature words of the environment, if it has any. -/
def withEnvironment (flags : Flags) (environment : Option String) : Flags :=
  { flags with features := flags.features ++ (environment.map words).getD [] }

/-- The options of the scans that the flags ask for. -/
def options (flags : Flags) : Options :=
  ⟨.features flags.features, flags.text, flags.checks⟩

end Flags

end ErlangLexer.CommandLine
