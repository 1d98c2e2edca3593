/-!
# Cutting a text into chunks

A chunk is the shortest piece of whole characters with at least a given number of
bytes in UTF-8, and at least one character. Only the last chunk may have fewer.
-/

namespace ErlangLexer.CommandLine

/-- How many characters fill `room` bytes, or as many as there are. -/
def fill (room : Nat) (text : List Char) (count : Nat) : Nat :=
  match room, text with
  | 0, _ | _, [] => count
  | room + 1, c :: text => fill (room + 1 - c.utf8Size) text (count + 1)

/-- A text in chunks of at least `size` bytes. -/
def chunks (size : Nat) (text : List Char) : List (List Char) :=
  match text with
  | [] => []
  | c :: rest =>
    let more := fill (size - c.utf8Size) rest 0
    (c :: rest.take more) :: chunks size (rest.drop more)
termination_by text.length
decreasing_by
  simp only [List.length_drop, List.length_cons]
  omega

theorem chunks_flatten (size : Nat) (text : List Char) : (chunks size text).flatten = text := by
  fun_induction chunks size text with
  | case1 => rfl
  | case2 c rest more ih => simp [ih, more]

end ErlangLexer.CommandLine
