import ErlangLexer.Suspension

/-!
# Feeding chunks

A queue of chunks is fed to one scan after the other. The text that a finished scan
leaves goes back to the front of the queue, and the end of the text follows the last
chunk. An error ends its scan and not the feed.
-/

namespace ErlangLexer

/-- The first chunk of a queue, or the end of the text. -/
def Input.ofQueue : List (List Char) → Input
  | [] => .ended
  | text :: _ => .chunk text

theorem Input.length_ofQueue (queue : List (List Char)) :
    (Input.ofQueue queue).text.length + queue.tail.flatten.length = queue.flatten.length := by
  cases queue <;> simp [Input.ofQueue, Input.text]

namespace Suspension

/-- What is left to be done with the chunks of a queue. -/
def work (scan : Suspension) (queue : List (List Char)) : Nat :=
  scan.potential + 3 * queue.flatten.length

/-- Every step of feeding the chunks of a queue, up to the end of the text. -/
def feed (scan : Suspension) (queue : List (List Char)) : List Step :=
  match _h : scan.resume (.ofQueue queue) with
  | .suspended next => .suspended next :: feed next queue.tail
  | .finished outcome none => [.finished outcome none]
  | .finished outcome (some rest) =>
    .finished outcome (some rest) ::
      if outcome.isNothing then []
      else feed (.start scan.options outcome.finish) (rest :: queue.tail)
termination_by (scan.work queue, queue.length)
decreasing_by
  all_goals
    have within := scan.resume_within (.ofQueue queue)
    have total := Input.length_ofQueue queue
    rw [_h] at within
  · obtain ⟨open_end, _, less⟩ := within
    have shorter : queue.tail.length < queue.length := by
      cases queue with
      | nil => exact absurd open_end (by decide)
      | cons chunk later => simp
    rcases Nat.lt_or_eq_of_le (show next.work queue.tail ≤ scan.work queue by
      simp only [work]; omega) with lower | same
    · exact Prod.Lex.left _ _ lower
    · exact same ▸ Prod.Lex.right _ shorter
  · apply Prod.Lex.left
    simp only [work, potential_start, List.flatten_cons, List.length_append]
    simp only at within
    omega

end Suspension

end ErlangLexer
