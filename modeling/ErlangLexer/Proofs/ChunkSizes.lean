import ErlangLexer.CommandLine.Chunks
import ErlangLexer.CommandLine.Flags

/-!
# The sizes of chunks

Chunks are whole characters, and each is as short as its number of bytes allows. So cutting a text
at byte offsets, which are machine words, comes to the same chunks:

* `bytes`, `IsBoundary`: the bytes of a text in UTF-8, and the offsets between its characters;
* `Chunked`: pieces of a text none of which is longer than it must be;
* `Cuts`: to cut at byte offsets, which ends only if every sum of them is a machine word;
* `chunked_chunks`, `Chunked.cuts`, `Cuts.unique`: the chunks of a text are such pieces, and such
  pieces are what cutting ends with;
* `chunks_are_tight`: so each of the three is the same.
-/

namespace ErlangLexer.CommandLine

/-- The bytes of a text in UTF-8. -/
def bytes (text : List Char) : Nat :=
  (String.ofList text).utf8ByteSize

@[simp] theorem bytes_nil : bytes [] = 0 := rfl

@[simp] theorem bytes_append (text more : List Char) :
    bytes (text ++ more) = bytes text + bytes more := by
  rw [bytes, String.ofList_append, String.utf8ByteSize_append]
  rfl

@[simp] theorem bytes_cons (c : Char) (text : List Char) :
    bytes (c :: text) = c.utf8Size + bytes text := by
  have lone : bytes [c] = c.utf8Size := String.utf8ByteSize_singleton
  rw [← List.singleton_append, bytes_append, lone]

theorem bytes_pos {text : List Char} (some : text ≠ []) : 0 < bytes text := by
  obtain ⟨c, rest, rfl⟩ := List.exists_cons_of_ne_nil some
  have := c.utf8Size_pos
  rw [bytes_cons]
  omega

theorem bytes_le_of_prefix {text more : List Char} (front : text <+: more) :
    bytes text ≤ bytes more := by
  obtain ⟨behind, rfl⟩ := front
  rw [bytes_append]
  exact Nat.le_add_right _ _

theorem eq_of_prefix_of_bytes {text more : List Char} (front : text <+: more)
    (same : bytes text = bytes more) : text = more := by
  obtain ⟨behind, rfl⟩ := front
  by_cases none : behind = []
  · rw [none, List.append_nil]
  · have := bytes_pos none
    rw [bytes_append] at same
    omega

/-- Of the beginnings of a text no two have the same number of bytes. -/
theorem front_eq_of_bytes {one other behind below : List Char}
    (same : one ++ behind = other ++ below) (bytes_eq : bytes one = bytes other) :
    one = other := by
  rcases List.prefix_or_prefix_of_prefix (List.prefix_append one behind)
    (same ▸ List.prefix_append other below) with shorter | longer
  · exact eq_of_prefix_of_bytes shorter bytes_eq
  · exact (eq_of_prefix_of_bytes longer bytes_eq.symm).symm

/-- The offset is between two characters of the text, or at one of its ends. -/
def IsBoundary (text : List Char) (offset : Nat) : Prop :=
  String.Pos.Raw.IsValid (String.ofList text) ⟨offset⟩

theorem isBoundary_iff {text : List Char} {offset : Nat} :
    IsBoundary text offset ↔ ∃ front behind, text = front ++ behind ∧ bytes front = offset := by
  rw [IsBoundary, String.Pos.Raw.isValid_ofList]
  constructor
  · rintro ⟨i, same⟩
    exact ⟨text.take i, text.drop i, (List.take_append_drop i text).symm, same.symm⟩
  · rintro ⟨front, behind, rfl, rfl⟩
    exact ⟨front.length, by rw [List.take_left]; rfl⟩

theorem isBoundary_front (front behind : List Char) :
    IsBoundary (front ++ behind) (bytes front) :=
  isBoundary_iff.mpr ⟨front, behind, rfl, rfl⟩

/-! ## Pieces as short as can be -/

/-- Pieces of a text: each has as many bytes as it should, and would not without its last
character. Only the last piece may have fewer. -/
structure Chunked (size : Nat) (text : List Char) (pieces : List (List Char)) : Prop where
  whole : pieces.flatten = text
  some : ∀ piece ∈ pieces, piece ≠ []
  full : ∀ piece ∈ pieces.dropLast, max size 1 ≤ bytes piece
  tight : ∀ piece ∈ pieces, bytes piece.dropLast < max size 1

theorem Chunked.cons {size : Nat} {piece rest : List Char} {later : List (List Char)}
    (some : piece ≠ []) (full : later ≠ [] → max size 1 ≤ bytes piece)
    (tight : bytes piece.dropLast < max size 1) (chunked : Chunked size rest later) :
    Chunked size (piece ++ rest) (piece :: later) := by
  refine ⟨?_, ?_, ?_, ?_⟩
  · rw [List.flatten_cons, chunked.whole]
  · exact List.forall_mem_cons.mpr ⟨some, chunked.some⟩
  · cases later with
    | nil => simp
    | cons next later =>
      rw [List.dropLast_cons_cons]
      exact List.forall_mem_cons.mpr ⟨full (by simp), chunked.full⟩
  · exact List.forall_mem_cons.mpr ⟨tight, chunked.tight⟩

theorem Chunked.tail {size : Nat} {text piece : List Char} {later : List (List Char)}
    (chunked : Chunked size text (piece :: later)) : Chunked size later.flatten later := by
  refine ⟨rfl, ?_, ?_, ?_⟩
  · exact (List.forall_mem_cons.mp chunked.some).2
  · intro other listed
    refine chunked.full other ?_
    cases later with
    | nil => simp at listed
    | cons next later =>
      rw [List.dropLast_cons_cons]
      exact List.mem_cons_of_mem piece listed
  · exact (List.forall_mem_cons.mp chunked.tight).2

/-! ### Chunks -/

theorem fill_count (room : Nat) (text : List Char) (count : Nat) :
    fill room text count = count + fill room text 0 := by
  induction text generalizing room count with
  | nil => cases room <;> rfl
  | cons c text ih =>
    cases room with
    | zero => rfl
    | succ room =>
      rw [fill, fill, ih _ (count + 1), ih _ (0 + 1)]
      omega

/-- The characters that fill some room. -/
def filling (room : Nat) (text : List Char) : List Char :=
  text.take (fill room text 0)

theorem filling_succ (room : Nat) (c : Char) (text : List Char) :
    filling (room + 1) (c :: text) = c :: filling (room + 1 - c.utf8Size) text := by
  rw [filling, fill, fill_count, Nat.add_comm, Nat.zero_add, List.take_succ_cons]
  rfl

theorem le_bytes_filling (room : Nat) (text : List Char)
    (more : text.drop (fill room text 0) ≠ []) : room ≤ bytes (filling room text) := by
  induction text generalizing room with
  | nil => simp at more
  | cons c text ih =>
    cases room with
    | zero => exact Nat.zero_le _
    | succ room =>
      rw [fill, fill_count, Nat.add_comm, Nat.zero_add, List.drop_succ_cons] at more
      have filled := ih _ more
      rw [filling_succ, bytes_cons]
      omega

theorem bytes_dropLast_filling {room : Nat} {text : List Char} (some : filling room text ≠ []) :
    bytes (filling room text).dropLast < room := by
  induction text generalizing room with
  | nil => simp [filling] at some
  | cons c text ih =>
    cases room with
    | zero => simp [filling, fill] at some
    | succ room =>
      rw [filling_succ]
      by_cases last : filling (room + 1 - c.utf8Size) text = []
      · rw [last]
        simp
      · have short := ih last
        rw [List.dropLast_cons_of_ne_nil last, bytes_cons]
        omega

/-- The chunks of a text are as short as can be. -/
theorem chunked_chunks (size : Nat) (text : List Char) :
    Chunked size text (chunks size text) := by
  fun_induction chunks size text with
  | case1 => exact ⟨rfl, by simp, by simp, by simp⟩
  | case2 c rest more ih =>
    have split : c :: rest = (c :: rest.take more) ++ rest.drop more := by
      rw [List.cons_append, List.take_append_drop]
    have positive := c.utf8Size_pos
    rw [split]
    refine .cons (List.cons_ne_nil _ _) ?_ ?_ ih
    · intro goes_on
      have some_left : rest.drop more ≠ [] := by
        intro none
        rw [none, chunks] at goes_on
        exact goes_on rfl
      have filled := le_bytes_filling (size - c.utf8Size) rest some_left
      rw [bytes_cons]
      change _ ≤ _ + bytes (filling (size - c.utf8Size) rest)
      omega
    · change bytes (c :: filling (size - c.utf8Size) rest).dropLast < _
      by_cases lone : filling (size - c.utf8Size) rest = []
      · rw [lone]
        exact Nat.lt_of_lt_of_le Nat.one_pos (Nat.le_max_right size 1)
      · have short := bytes_dropLast_filling lone
        rw [List.dropLast_cons_of_ne_nil lone, bytes_cons]
        omega

/-! ## Cutting at offsets -/

/-- The first boundary that is not in front of an offset. -/
structure FirstBoundary (text : List Char) (offset boundary : Nat) : Prop where
  is_boundary : IsBoundary text boundary
  not_before : offset ≤ boundary
  first : ∀ other, IsBoundary text other → offset ≤ other → boundary ≤ other

/-- The characters between two offsets of a text. -/
def Between (text : List Char) (start finish : Nat) (piece : List Char) : Prop :=
  ∃ front behind, text = front ++ (piece ++ behind) ∧ bytes front = start ∧
    start + bytes piece = finish

/-- To cut a text from an offset on. A cut is due `size` bytes further on, or where the text ends,
and is made at the first boundary from there on. No sum may be beyond the greatest machine
word. -/
inductive Cuts (greatest size : Nat) (text : List Char) : Nat → List (List Char) → Prop where
  | done {start : Nat} (at_end : bytes text ≤ start) : Cuts greatest size text start []
  | cut {start finish : Nat} {piece : List Char} {later : List (List Char)}
      (more : start < bytes text) (fits : start + max size 1 ≤ greatest)
      (ends : FirstBoundary text (min (start + max size 1) (bytes text)) finish)
      (between : Between text start finish piece)
      (rest : Cuts greatest size text finish later) :
      Cuts greatest size text start (piece :: later)

theorem FirstBoundary.unique {text : List Char} {offset one other : Nat}
    (first : FirstBoundary text offset one) (second : FirstBoundary text offset other) :
    one = other :=
  Nat.le_antisymm (first.first other second.is_boundary second.not_before)
    (second.first one first.is_boundary first.not_before)

theorem Between.unique {text one other : List Char} {start finish : Nat}
    (first : Between text start finish one) (second : Between text start finish other) :
    one = other := by
  obtain ⟨front, behind, rfl, rfl, ends⟩ := first
  obtain ⟨front', behind', split, starts, ends'⟩ := second
  obtain rfl := front_eq_of_bytes split starts.symm
  exact front_eq_of_bytes (List.append_cancel_left split) (by omega)

/-- There is only one way to cut a text. -/
theorem Cuts.unique {greatest size start : Nat} {text : List Char} {one other : List (List Char)}
    (first : Cuts greatest size text start one) (second : Cuts greatest size text start other) :
    one = other := by
  induction first generalizing other with
  | done at_end =>
    cases second with
    | done => rfl
    | cut more => exact absurd more (Nat.not_lt.mpr at_end)
  | cut more fits ends between rest ih =>
    cases second with
    | done at_end => exact absurd more (Nat.not_lt.mpr at_end)
    | cut more' fits' ends' between' rest' =>
      obtain rfl := ends.unique ends'
      rw [between.unique between', ih rest']

theorem firstBoundary_of_tight {size : Nat} {front piece behind : List Char} (some : piece ≠ [])
    (full : behind ≠ [] → max size 1 ≤ bytes piece) (tight : bytes piece.dropLast < max size 1) :
    FirstBoundary (front ++ (piece ++ behind))
      (min (bytes front + max size 1) (bytes (front ++ (piece ++ behind))))
      (bytes front + bytes piece) := by
  obtain ⟨init, c, rfl⟩ := (List.eq_nil_or_concat piece).resolve_left some
  rw [List.concat_eq_append] at full tight ⊢
  rw [List.dropLast_concat] at tight
  have split : front ++ (init ++ [c] ++ behind) = (front ++ (init ++ [c])) ++ behind :=
    (List.append_assoc _ _ _).symm
  refine ⟨?_, ?_, ?_⟩
  · rw [split, ← bytes_append]
    exact isBoundary_front _ _
  · by_cases last : behind = []
    · rw [last, List.append_nil, bytes_append]
      exact Nat.min_le_right _ _
    · have := full last
      omega
  · intro other boundary due
    obtain ⟨before, after, same, rfl⟩ := isBoundary_iff.mp boundary
    rw [split] at same
    rw [← bytes_append]
    rcases List.prefix_or_prefix_of_prefix (List.prefix_append _ behind)
      (same ▸ List.prefix_append before after) with longer | shorter
    · exact bytes_le_of_prefix longer
    · rw [← List.append_assoc] at shorter
      rcases List.prefix_concat_iff.mp shorter with rfl | within
      · exact Nat.le_of_eq (congrArg bytes (List.append_assoc _ _ _).symm)
      · have few := bytes_le_of_prefix within
        have positive := c.utf8Size_pos
        simp only [bytes_append, bytes_cons, bytes_nil] at few due
        omega

/-- Pieces that are as short as can be are what a text is cut into. The sums are machine words:
behind the first piece, an offset is no less than the size. -/
theorem Chunked.cuts {greatest size : Nat} {rest : List Char} {pieces : List (List Char)}
    (chunked : Chunked size rest pieces) (front : List Char)
    (begun : front = [] ∨ max size 1 ≤ bytes front) (word : size ≤ greatest)
    (short : 2 * bytes (front ++ rest) ≤ greatest) :
    Cuts greatest size (front ++ rest) (bytes front) pieces := by
  induction pieces generalizing front rest with
  | nil =>
    obtain rfl : [] = rest := chunked.whole
    rw [List.append_nil]
    exact .done (Nat.le_refl _)
  | cons piece later ih =>
    obtain rfl : piece ++ later.flatten = rest := chunked.whole
    have some := chunked.some piece List.mem_cons_self
    have tight := chunked.tight piece List.mem_cons_self
    have full : later.flatten ≠ [] → max size 1 ≤ bytes piece := by
      intro goes_on
      refine chunked.full piece ?_
      cases later with
      | nil => exact absurd rfl goes_on
      | cons next later => exact List.mem_cons_self
    have positive := bytes_pos some
    have split : front ++ (piece ++ later.flatten) = (front ++ piece) ++ later.flatten :=
      (List.append_assoc _ _ _).symm
    refine .cut ?_ ?_ (firstBoundary_of_tight some full tight)
      ⟨front, later.flatten, rfl, rfl, rfl⟩ ?_
    · simp only [bytes_append]
      omega
    · simp only [bytes_append] at short
      rcases begun with rfl | reached
      · simp only [bytes_nil] at short ⊢
        omega
      · omega
    · rw [split] at short ⊢
      rw [← bytes_append]
      by_cases last : later = []
      · subst last
        rw [List.flatten_nil, List.append_nil]
        exact .done (Nat.le_refl _)
      · refine ih chunked.tail (front ++ piece) (.inr ?_) short
        have more : later.flatten ≠ [] := by
          obtain ⟨next, behind, rfl⟩ := List.exists_cons_of_ne_nil last
          have next_some := chunked.tail.some next List.mem_cons_self
          simp [next_some]
        have := full more
        rw [bytes_append]
        omega

/-- **Chunks are as short as can be.** The chunks of a text are the one way to divide it into
pieces of whole characters, none of them empty, of which each but the last has at least as many
bytes as it should, and each would have fewer without its last character; a size of zero counts as
one. Each begins and ends between two characters. A text of no more than half as many bytes as
the greatest machine word counts can be cut at offsets that are machine words, whatever the size:
cutting it ends, and with its chunks. -/
theorem chunks_are_tight (size : Nat) (text : List Char) :
    (∀ pieces, Chunked size text pieces ↔ pieces = chunks size text) ∧
    (∀ before piece behind, chunks size text = before ++ piece :: behind →
      IsBoundary text (bytes before.flatten) ∧
        IsBoundary text (bytes before.flatten + bytes piece)) ∧
    (chunks size text = [] ↔ text = []) ∧
    ∀ greatest, size ≤ greatest → 2 * bytes text ≤ greatest →
      ∀ pieces, Cuts greatest size text 0 pieces ↔ pieces = chunks size text := by
  have chunked := chunked_chunks size text
  have cuts {greatest : Nat} {pieces : List (List Char)} (chunked : Chunked size text pieces)
      (word : size ≤ greatest) (short : 2 * bytes text ≤ greatest) :
      Cuts greatest size text 0 pieces := chunked.cuts [] (.inl rfl) word short
  refine ⟨?_, ?_, ?_, ?_⟩
  · intro pieces
    constructor
    · intro other
      have word := Nat.le_max_left size (2 * bytes text)
      have short := Nat.le_max_right size (2 * bytes text)
      exact (cuts other word short).unique (cuts chunked word short)
    · rintro rfl
      exact chunked
  · intro before piece behind split
    have whole := chunked.whole
    rw [split, List.flatten_append, List.flatten_cons] at whole
    subst whole
    refine ⟨isBoundary_front _ _, ?_⟩
    rw [← bytes_append, ← List.append_assoc]
    exact isBoundary_front _ _
  · constructor
    · intro none
      rw [← chunked.whole, none, List.flatten_nil]
    · rintro rfl
      rw [chunks]
  · intro greatest word short pieces
    constructor
    · intro cut
      exact cut.unique (cuts chunked word short)
    · rintro rfl
      exact cuts chunked word short

/-- A cut that is due within a character of two bytes is made behind it. With the greatest size
that a flag can give, the sum at the start is the greatest word. -/
theorem chunks_are_tight_within_character :
    chunks 2 ['a', 'é', 'b'] = [] ++ ['a', 'é'] :: [['b']] ∧
      IsBoundary ['a', 'é', 'b'] (bytes [] + bytes ['a', 'é']) ∧
      2 ≤ Flags.maxChunkSize ∧ 2 * bytes ['a', 'é', 'b'] ≤ Flags.maxChunkSize ∧
      Cuts Flags.maxChunkSize 2 ['a', 'é', 'b'] 0 [['a', 'é'], ['b']] ∧
      Cuts Flags.maxChunkSize Flags.maxChunkSize ['a', 'é', 'b'] 0 [['a', 'é', 'b']] := by
  have pieces : chunks 2 ['a', 'é', 'b'] = [['a', 'é'], ['b']] := by decide +kernel
  have whole : chunks Flags.maxChunkSize ['a', 'é', 'b'] = [['a', 'é', 'b']] := by decide +kernel
  have short : 2 * bytes ['a', 'é', 'b'] ≤ Flags.maxChunkSize := by decide
  obtain ⟨-, boundaries, -, cuts⟩ := chunks_are_tight 2 ['a', 'é', 'b']
  have greatest := (chunks_are_tight Flags.maxChunkSize ['a', 'é', 'b']).2.2.2
  exact ⟨pieces, (boundaries [] _ _ pieces).2, by decide, short,
    (cuts _ (by decide) short _).mpr pieces.symm,
    (greatest _ (Nat.le_refl _) short _).mpr whole.symm⟩

end ErlangLexer.CommandLine
