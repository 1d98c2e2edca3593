import ErlangLexer.CommandLine.Chunks
import ErlangLexer.CommandLine.Flags
import ErlangLexer.Feed
import ErlangLexer.Forms

/-!
# Reports of the command line

A command line asks for the usage, or for a file and what to print of it. `tokens`
prints every token up to the first error, and `forms` prints the tokens form by form
and goes on behind errors. In chunks or at once, a file is scanned with the same outcomes.
-/

namespace ErlangLexer.CommandLine

/-- What a run of the program prints and how it exits. -/
structure Report where
  exit : Nat
  output : String
  errors : String
  deriving DecidableEq

/-- Why a file could not be read as text. -/
inductive FileProblem where
  | notFound
  | permissionDenied
  | invalidEncoding
  | unreadable (reason : String)
  deriving DecidableEq

def FileProblem.message (path : String) : FileProblem → String
  | .notFound => "cannot find file '" ++ path ++ "'"
  | .permissionDenied => "permission denied reading '" ++ path ++ "'"
  | .invalidEncoding => "'" ++ path ++ "' contains invalid UTF-8 data"
  | .unreadable reason => "error reading '" ++ path ++ "': " ++ reason

/-- Lines of text, each with its line break. -/
def unlines (lines : List String) : String :=
  String.join (lines.map (· ++ "\n"))

/-- The variable of the environment that lists feature words. -/
def featuresVariable : String := "ERLSCAN_FEATURES"

def usage : String :=
  unlines [
    "Usage: erlscan <command> <file> [options]",
    "",
    "Commands:",
    "  tokens    Print every token, stopping at the first error",
    "  forms     Print tokens form by form, continuing after errors",
    "",
    "Options:",
    "  --columns          Track columns as well as lines",
    "  --text             Show each token's source text",
    "  --ssa-checks       Recognize %ssa% check comments",
    "  --feature=<word>   Reserve a feature keyword (repeatable)",
    "  --chunk=<n>        Feed the file in n-byte chunks",
    "",
    "Environment:",
    "  " ++ featuresVariable ++ "   Comma-separated feature keywords",
    "  RUST_LOG           Enable tracing output"]

/-- The usage, as asked for. -/
def Report.usage : Report := ⟨0, "", CommandLine.usage⟩

/-- A failure, in one line. -/
def Report.failure (message : String) : Report := ⟨1, "", unlines ["error: " ++ message]⟩

/-- A wrong command line, and how to write one. -/
def Report.misuse (problem : Misuse) : Report :=
  ⟨1, "", unlines ["error: " ++ problem.message, ""] ++ CommandLine.usage⟩

/-- Where a file starts. -/
def Flags.start (flags : Flags) : Location :=
  ⟨1, if flags.columns then some 1 else none⟩

/-- The forms and errors of a file, in chunks or at once. -/
def Flags.outcomes (flags : Flags) (text : List Char) : List Outcome :=
  let all := match flags.chunk with
    | none => (Forms.ofText flags.options flags.start text).outcomes
    | some size =>
      ((Suspension.start flags.options flags.start).feed (chunks size text)).filterMap
        Step.outcome?
  all.filter (!·.isNothing)

/-- A token on a line of its own, with its source text if that is asked for. -/
def Flags.tokenLine (flags : Flags) (t : Token) : String :=
  match t.text with
  | some text =>
    if flags.text then "  " ++ t.render ++ "  " ++ Text.quote text else "  " ++ t.render
  | none => "  " ++ t.render

/-- The error of an outcome. -/
def errorOf? : Outcome → Option LexicalError
  | .error error _ => some error
  | _ => none

/-- The tokens of an outcome. -/
def tokensOf : Outcome → List Token
  | .tokens list _ => list.toList
  | _ => []

/-- An error with the path of its file. -/
def errorLine (path : String) (error : LexicalError) : String :=
  path ++ ":" ++ error.render

/-- All tokens up to the first error. -/
def tokensReport (path : String) (flags : Flags) (outcomes : List Outcome) : Report :=
  let read := (outcomes.takeWhile fun o => (errorOf? o).isNone).flatMap tokensOf
  let output := unlines
    (("Tokens for '" ++ path ++ "' (" ++ toString read.length ++ " tokens):") ::
      read.map flags.tokenLine)
  match outcomes.findSome? errorOf? with
  | some error => { Report.failure (errorLine path error) with output := output }
  | none => ⟨0, output, ""⟩

/-- The lines of the forms, numbered from `number` on. -/
def formLines (flags : Flags) (number : Nat) : List Outcome → List String
  | [] => []
  | .tokens list finish :: outcomes =>
    ("Form " ++ toString number ++ " (" ++ toString list.size ++ " tokens, ends at " ++
        finish.render ++ "):") ::
      list.toList.map flags.tokenLine ++ formLines flags (number + 1) outcomes
  | _ :: outcomes => formLines flags number outcomes

/-- All forms, and all errors between them. -/
def formsReport (path : String) (flags : Flags) (outcomes : List Outcome) : Report :=
  let output := unlines (formLines flags 1 outcomes)
  let errors := outcomes.filterMap errorOf?
  if errors.isEmpty then ⟨0, output, ""⟩
  else
    ⟨1, output, unlines (errors.map (errorLine path) ++
      ["error: " ++ toString errors.length ++ " form(s) in '" ++ path ++ "' failed to scan"])⟩

/-- What a command prints of a text. -/
def Command.report (command : Command) (path : String) (flags : Flags) (text : String) : Report :=
  let outcomes := flags.outcomes text.toList
  match command with
  | .tokens => tokensReport path flags outcomes
  | .forms => formsReport path flags outcomes

/-- What a command line asks for. -/
inductive Request where
  | usage
  | misuse (problem : Misuse)
  | file (command : Command) (path : String) (flags : Flags)
  deriving DecidableEq

namespace Request

/-- A command on a file. -/
def ofFile (command : Command) : List String → Request
  | [] => .misuse (.missingPath command)
  | path :: arguments =>
    match Flags.ofArguments arguments with
    | .ok flags => .file command path flags
    | .error problem => .misuse problem

/-- The request of a whole command line. -/
def ofArguments : List String → Request
  | [] => .usage
  | name :: arguments =>
    if name = "tokens" then ofFile .tokens arguments
    else if name = "forms" then ofFile .forms arguments
    else if name = "help" || name = "--help" || name = "-h" then .usage
    else .misuse (.unknownCommand name)

/-- The file that has to be read. -/
def path? : Request → Option String
  | .file _ path _ => some path
  | _ => none

/-- The report on a request, given the feature words of the environment and what reading
the file came to. -/
def report (request : Request) (environment : Option String)
    (contents : Except FileProblem String) : Report :=
  match request, contents with
  | .usage, _ => .usage
  | .misuse problem, _ => .misuse problem
  | .file _ path _, .error problem => .failure (problem.message path)
  | .file command path flags, .ok text =>
    command.report path (flags.withEnvironment environment) text

end Request

end ErlangLexer.CommandLine
