import ErlangLexer.Text.Front

/-!
# Operators and punctuation

The fixed table of operators. It is written longest first, so the first operator
that fits is the longest one (`Operator.longest?`); a text that breaks off within
an operator may still become it (`Operator.mayGrow`).
-/

namespace ErlangLexer

inductive Operator where
  | dotDotDot
  | exactlyEqual
  | exactlyUnequal
  | arrow
  | subtractList
  | appendList
  | unequal
  | equal
  | lessOrEqual
  | doubleArrow
  | greaterOrEqual
  | binaryClose
  | binaryOpen
  | binaryGenerator
  | generator
  | typeOf
  | mapMatch
  | doubleBar
  | doubleQuestion
  | questionEqual
  | dotDot
  | parenOpen
  | parenClose
  | bracketOpen
  | bracketClose
  | braceOpen
  | braceClose
  | semicolon
  | comma
  | bar
  | bang
  | plus
  | minus
  | star
  | slash
  | matches
  | less
  | greater
  | colon
  | hash
  | question
  | dot
  deriving DecidableEq

namespace Operator

/-- The characters of an operator. -/
def spelling : Operator → List Char
  | .dotDotDot => ['.', '.', '.']
  | .exactlyEqual => ['=', ':', '=']
  | .exactlyUnequal => ['=', '/', '=']
  | .arrow => ['-', '>']
  | .subtractList => ['-', '-']
  | .appendList => ['+', '+']
  | .unequal => ['/', '=']
  | .equal => ['=', '=']
  | .lessOrEqual => ['=', '<']
  | .doubleArrow => ['=', '>']
  | .greaterOrEqual => ['>', '=']
  | .binaryClose => ['>', '>']
  | .binaryOpen => ['<', '<']
  | .binaryGenerator => ['<', '=']
  | .generator => ['<', '-']
  | .typeOf => [':', ':']
  | .mapMatch => [':', '=']
  | .doubleBar => ['|', '|']
  | .doubleQuestion => ['?', '?']
  | .questionEqual => ['?', '=']
  | .dotDot => ['.', '.']
  | .parenOpen => ['(']
  | .parenClose => [')']
  | .bracketOpen => ['[']
  | .bracketClose => [']']
  | .braceOpen => ['\x7b']
  | .braceClose => ['\x7d']
  | .semicolon => [';']
  | .comma => [',']
  | .bar => ['|']
  | .bang => ['!']
  | .plus => ['+']
  | .minus => ['-']
  | .star => ['*']
  | .slash => ['/']
  | .matches => ['=']
  | .less => ['<']
  | .greater => ['>']
  | .colon => [':']
  | .hash => ['#']
  | .question => ['?']
  | .dot => ['.']

/-- Every operator, none before a longer one. -/
def table : List Operator :=
  [.dotDotDot, .exactlyEqual, .exactlyUnequal, .arrow, .subtractList, .appendList, .unequal,
   .equal, .lessOrEqual, .doubleArrow, .greaterOrEqual, .binaryClose, .binaryOpen,
   .binaryGenerator, .generator, .typeOf, .mapMatch, .doubleBar, .doubleQuestion,
   .questionEqual, .dotDot, .parenOpen, .parenClose, .bracketOpen, .bracketClose, .braceOpen,
   .braceClose, .semicolon, .comma, .bar, .bang, .plus, .minus, .star, .slash, .matches,
   .less, .greater, .colon, .hash, .question, .dot]

/-- The operator as text. -/
def render (op : Operator) : String :=
  String.ofList op.spelling

/-- The longest operator at the front of a text. -/
def longest? (text : List Char) : Option Operator :=
  table.find? fun op => op.spelling.isPrefixOf text

/-- The whole text is the beginning of some longer operator. -/
def mayGrow (text : List Char) : Bool :=
  table.any fun op => breaksOffWithin text op.spelling

theorem mem_table (op : Operator) : op ∈ table := by
  cases op <;> decide

/-- No operator stands in the table before a longer one. -/
theorem table_longest_first :
    table.Pairwise fun a b => b.spelling.length ≤ a.spelling.length := by
  decide

theorem length_le_of_longest? (op : Operator) {text : List Char} (h : longest? text = some op) :
    op.spelling.length ≤ text.length := by
  have fits := List.find?_some h
  exact (List.isPrefixOf_iff_prefix.mp fits).length_le

theorem spelling_ne_nil (op : Operator) : op.spelling ≠ [] := by
  cases op <;> decide

end Operator

end ErlangLexer
