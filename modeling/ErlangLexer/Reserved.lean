import ErlangLexer.Text.Quoted

/-!
# Reserved words

The fixed words of the language are always reserved, and each enabled feature
adds its own; or a caller's predicate takes the place of both.
-/

namespace ErlangLexer

/-- The words of a size that are reserved whatever features are enabled. -/
def fixedWordsOfSize : Nat → List String
  | 2 => ["if", "of", "or"]
  | 3 => ["and", "bor", "bsl", "bsr", "div", "end", "fun", "let", "not", "rem", "try", "xor"]
  | 4 => ["band", "bnot", "bxor", "case", "cond", "when"]
  | 5 => ["after", "begin", "catch"]
  | 6 => ["orelse"]
  | 7 => ["andalso", "receive"]
  | _ => []

/-- The word is one of the fixed ones. Most words are none by their size or their first
letter. -/
def isFixedWord (word : String) : Bool :=
  let size := word.utf8ByteSize
  if !(2 ≤ size && size ≤ 7) || !word.toList.head?.any Char.isLower then false
  else (fixedWordsOfSize size).contains word

/-- Which unquoted atoms are reserved words. -/
inductive ReservedWords where
  /-- The fixed words and the words of the enabled features. -/
  | features (words : List String)
  /-- The words a caller's predicate holds of, and no others. -/
  | custom (reserves : String → Bool)

namespace ReservedWords

instance : Inhabited ReservedWords := ⟨.features []⟩

def holds : ReservedWords → String → Bool
  | .features words, word => isFixedWord word || words.contains word
  | .custom reserves, word => reserves word

/-- Each word once, in the order of their code points. -/
def distinctSorted (words : List String) : List String :=
  words.eraseDups.mergeSort fun a b => decide (a ≤ b)

/-- A description for diagnostics; a predicate cannot be shown. -/
def describe : ReservedWords → String
  | .custom _ => "Custom(..)"
  | .features words =>
    "Default \x7b features: [" ++
      String.intercalate ", " ((distinctSorted words).map Text.quote) ++ "] \x7d"

end ReservedWords

end ErlangLexer
