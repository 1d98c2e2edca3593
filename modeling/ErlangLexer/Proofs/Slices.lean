import ErlangLexer.Proofs.CommentSearch

/-!
# Slices at byte offsets

A text in UTF-8 can be gone through by an offset into its bytes. What is in front of the offset,
and what has been passed since an offset was saved, are slices of the text, which there are only
between characters:

* `slice?_eq_some_iff`, `isSome_slice?_iff`: there is a slice just if both ends are boundaries in
  their order;
* `Cursor.between`: a cursor with some characters in front of it and some behind it;
* `Cursor.rest?`, `Cursor.since?`, `Cursor.pass?`: what it sees, what it has passed since an
  offset, and how it passes characters, each of which a cursor between characters can do;
* `ByteSearch.commentEnd?`, `Cursor.skipComment?`: the search for the end of a comment, which never
  leaves the bytes;
* `byteRun`: how often a character is repeated, told by its byte;
* `ByteCounted`: a word whose bytes may be counted for its characters, as those of one character
  repeated (`byteCounted_byteRun`) and of the operators (`byteCounted_spelling`) may.
-/

namespace ErlangLexer

open CommandLine (bytes bytes_nil bytes_cons bytes_append IsBoundary isBoundary_iff
  isBoundary_front front_eq_of_bytes)

/-! ## Slices -/

theorem charsOf?_eq_some_iff {count : Nat} {text front : List Char} :
    charsOf? count text = some front ↔ front <+: text ∧ bytes front = count := by
  constructor
  · intro found
    fun_induction charsOf? count text generalizing front with
    | case1 text =>
      cases found
      exact ⟨List.nil_prefix, rfl⟩
    | case2 count => cases found
    | case3 count c text fits ih =>
      obtain ⟨behind, later, rfl⟩ := Option.map_eq_some_iff.mp found
      obtain ⟨prefixed, size⟩ := ih later
      refine ⟨List.cons_prefix_cons.mpr ⟨rfl, prefixed⟩, ?_⟩
      rw [bytes_cons]
      omega
    | case4 count c text wide => cases found
  · rintro ⟨⟨behind, rfl⟩, rfl⟩
    exact charsOf?_front front behind

theorem slice?_eq_some_iff {text piece : List Char} {start finish : Nat} :
    slice? text start finish = some piece ↔
      ∃ front behind, text = front ++ (piece ++ behind) ∧ bytes front = start ∧
        bytes (front ++ piece) = finish := by
  constructor
  · intro found
    unfold slice? at found
    split at found
    · rename_i order
      obtain ⟨front, first, second⟩ := Option.bind_eq_some_iff.mp found
      obtain ⟨⟨rest, rfl⟩, rfl⟩ := charsOf?_eq_some_iff.mp first
      rw [List.drop_left] at second
      obtain ⟨⟨behind, rfl⟩, size⟩ := charsOf?_eq_some_iff.mp second
      refine ⟨front, behind, rfl, rfl, ?_⟩
      rw [bytes_append]
      omega
    · cases found
  · rintro ⟨front, behind, rfl, rfl, rfl⟩
    exact slice?_between front piece behind

/-- There is a slice between two offsets just if they are boundaries in their order. -/
theorem isSome_slice?_iff {text : List Char} {start finish : Nat} :
    (slice? text start finish).isSome = true ↔
      start ≤ finish ∧ IsBoundary text start ∧ IsBoundary text finish := by
  rw [Option.isSome_iff_exists]
  constructor
  · rintro ⟨piece, found⟩
    obtain ⟨front, behind, rfl, rfl, rfl⟩ := slice?_eq_some_iff.mp found
    refine ⟨?_, isBoundary_front _ _, ?_⟩
    · rw [bytes_append]
      exact Nat.le_add_right _ _
    · rw [← List.append_assoc]
      exact isBoundary_front _ _
  · rintro ⟨order, first, second⟩
    obtain ⟨front, rest, rfl, rfl⟩ := isBoundary_iff.mp first
    obtain ⟨longer, behind, same, rfl⟩ := isBoundary_iff.mp second
    have nested : front <+: longer := by
      rcases List.prefix_or_prefix_of_prefix (List.prefix_append front rest)
        (same ▸ List.prefix_append longer behind) with within | beyond
      · exact within
      · have : longer = front := CommandLine.eq_of_prefix_of_bytes beyond
          (Nat.le_antisymm (CommandLine.bytes_le_of_prefix beyond) order)
        exact this ▸ List.prefix_rfl
    obtain ⟨piece, rfl⟩ := nested
    exact ⟨piece, slice?_eq_some_iff.mpr ⟨front, behind, by rw [same, List.append_assoc], rfl, rfl⟩⟩

theorem length_le_of_slice? {text piece : List Char} {start finish : Nat}
    (found : slice? text start finish = some piece) : piece.length ≤ text.length := by
  obtain ⟨front, behind, rfl, -, -⟩ := slice?_eq_some_iff.mp found
  simp only [List.length_append]
  omega

/-- The text behind an offset. -/
def behind? (text : List Char) (offset : Nat) : Option (List Char) :=
  slice? text offset (bytes text)

theorem behind?_front (front rest : List Char) :
    behind? (front ++ rest) (bytes front) = some rest :=
  slice?_eq_some_iff.mpr ⟨front, [], by rw [List.append_nil], rfl, rfl⟩

theorem behind?_one {c : Char} (single : c.utf8Size = 1) (rest : List Char) :
    behind? (c :: rest) 1 = some rest := by
  have size : bytes [c] = 1 := by rw [bytes_cons, single, bytes_nil]
  exact size ▸ behind?_front [c] rest

theorem length_lt_of_behind? {text rest : List Char} {offset : Nat} (positive : 0 < offset)
    (found : behind? text offset = some rest) : rest.length < text.length := by
  obtain ⟨front, behind, rfl, start, -⟩ := slice?_eq_some_iff.mp found
  have some : 0 < front.length := by
    rw [List.length_pos_iff]
    rintro rfl
    rw [bytes_nil] at start
    omega
  simp only [List.length_append]
  omega

/-! ## Cursors -/

namespace Cursor

/-- The cursor behind some characters and in front of others. -/
def between (front rest : List Char) : Cursor :=
  ⟨front ++ rest, bytes front⟩

/-- The text from the position on. -/
def rest? (cursor : Cursor) : Option (List Char) :=
  behind? cursor.text cursor.position

/-- The text from a saved offset up to the position. -/
def since? (cursor : Cursor) (start : Nat) : Option (List Char) :=
  slice? cursor.text start cursor.position

/-- The character at the position. There is none at the end of the text. -/
def current? (cursor : Cursor) : Option (Option Char) :=
  cursor.rest?.map (·[0]?)

/-- The character behind the one at the position. -/
def peek? (cursor : Cursor) : Option (Option Char) :=
  cursor.rest?.map (·[1]?)

/-- Pass over some characters one by one, or over fewer where the text ends first. -/
def pass? : Nat → Cursor → Option (List Char × Cursor)
  | 0, cursor => some ([], cursor)
  | count + 1, cursor => do
    match ← cursor.current? with
    | none => some ([], cursor)
    | some c =>
      let (passed, behind) ← pass? count ⟨cursor.text, cursor.position + c.utf8Size⟩
      return (c :: passed, behind)

/-- The position is at the end of the text or beyond. -/
def atEnd (cursor : Cursor) : Bool :=
  bytes cursor.text ≤ cursor.position

variable (front rest : List Char)

@[simp] theorem rest?_between : (between front rest).rest? = some rest :=
  behind?_front front rest

@[simp] theorem since?_between (passed : List Char) :
    (between (front ++ passed) rest).since? (bytes front) = some passed :=
  slice?_eq_some_iff.mpr ⟨front, rest, List.append_assoc front passed rest, rfl, rfl⟩

@[simp] theorem current?_between : (between front rest).current? = some rest.head? := by
  rw [current?, rest?_between, Option.map_some, List.head?_eq_getElem?]

@[simp] theorem peek?_between : (between front rest).peek? = some rest[1]? := by
  rw [peek?, rest?_between, Option.map_some]

theorem atEnd_between : (between front rest).atEnd = rest.isEmpty := by
  cases rest with
  | nil => simp [atEnd, between]
  | cons c rest =>
    have := c.utf8Size_pos
    simp only [atEnd, between, bytes_append, bytes_cons, List.isEmpty_cons]
    exact decide_eq_false (by omega)

theorem position_between : (between front rest).position = bytes front := rfl

theorem between_next (c : Char) :
    (⟨(between front (c :: rest)).text, (between front (c :: rest)).position + c.utf8Size⟩ :
      Cursor) = between (front ++ [c]) rest := by
  simp [between]

/-- However many characters are to be passed, the cursor stays between characters. -/
@[simp] theorem pass?_between (count : Nat) :
    (between front rest).pass? count =
      some (rest.take count, between (front ++ rest.take count) (rest.drop count)) := by
  induction count generalizing front rest with
  | zero => simp [pass?]
  | succ count ih =>
    cases rest with
    | nil => simp [pass?]
    | cons c rest =>
      simp only [pass?, current?_between, List.head?_cons, Option.bind_eq_bind, Option.bind_some,
        between_next, ih, Option.pure_def, List.take_succ_cons, List.drop_succ_cons,
        List.append_assoc, List.singleton_append]

end Cursor

/-! ## Comments -/

/-- The end of a comment, unless the search goes on from an offset beyond the bytes or looks at a
byte that is not there. -/
def ByteSearch.commentEnd? (search : ByteSearch) (list : List UInt8) (start : Nat) : Option Nat :=
  if start ≤ list.length then
    match search.first 0x0a 0xef (list.drop start) with
    | none => some list.length
    | some found => do
      let byte ← list[start + found]?
      if stops byte (list.drop (start + found + 1)) then some (start + found)
      else search.commentEnd? list (start + found + 1)
  else none
termination_by list.length + 1 - start

theorem ByteSearch.commentEnd?_eq (search : ByteSearch) (list : List UInt8) {start : Nat}
    (within : start ≤ list.length) :
    search.commentEnd? list start = some (search.commentEnd list start) := by
  fun_induction ByteSearch.commentEnd search list start with
  | case1 start none => rw [commentEnd?, if_pos within, none]
  | case2 start found some stops_here =>
    have short := (search.parts some).1
    rw [List.getD_eq_getElem?_getD, List.getElem?_eq_getElem short, Option.getD_some] at stops_here
    rw [commentEnd?, if_pos within, some]
    simp only [List.getElem?_eq_getElem short, Option.bind_eq_bind, Option.bind_some, stops_here,
      ↓reduceIte]
  | case3 start found some goes_on ih =>
    have short := (search.parts some).1
    rw [List.getD_eq_getElem?_getD, List.getElem?_eq_getElem short, Option.getD_some] at goes_on
    rw [commentEnd?, if_pos within, some]
    simp only [List.getElem?_eq_getElem short, Option.bind_eq_bind, Option.bind_some, goes_on,
      Bool.false_eq_true, ↓reduceIte]
    exact ih short

/-- Pass over the rest of a comment, with the number of characters in it. -/
def Cursor.skipComment? (search : ByteSearch) (cursor : Cursor) : Option (Cursor × Nat) := do
  let finish ← search.commentEnd? (utf8 cursor.text) cursor.position
  let skipped ← slice? cursor.text cursor.position finish
  return (⟨cursor.text, finish⟩, skipped.length)

theorem Cursor.skipComment?_between (search : ByteSearch) (front rest : List Char) :
    (between front rest).skipComment? search =
      some (between (front ++ rest.takeWhile Comment.skips) (rest.dropWhile Comment.skips),
        (rest.takeWhile Comment.skips).length) := by
  have within : bytes front ≤ (utf8 (front ++ rest)).length := by
    rw [length_utf8, bytes_append]
    exact Nat.le_add_right _ _
  have passes := passComment?_front search front rest
  have behind : front ++ rest.takeWhile Comment.skips ++ rest.dropWhile Comment.skips =
      front ++ rest := by
    rw [List.append_assoc, List.takeWhile_append_dropWhile]
  simp only [skipComment?, between, search.commentEnd?_eq _ within, Option.bind_eq_bind,
    Option.bind_some, behind]
  rw [← passes, passComment?]
  cases slice? (front ++ rest) (bytes front)
    (search.commentEnd (utf8 (front ++ rest)) (bytes front)) <;> rfl

/-! ## Characters counted by their bytes -/

/-- How often the byte of a character is repeated at the front of a text. -/
def byteRun (c : Char) (text : List Char) : Nat :=
  ((utf8 text).takeWhile (· == c.toUInt8)).length

/-- The first byte of another character is not that of a character with a single one. -/
theorem firstByte_ne {c d : Char} (single : c.utf8Size = 1) (other : d ≠ c) :
    ∃ byte rest, String.utf8EncodeChar d = byte :: rest ∧ byte ≠ c.toUInt8 := by
  have small : c.val.toNat ≤ 0x7f := by
    simpa [Char.utf8Size_eq_one_iff, UInt32.le_iff_toNat_le] using single
  have code : d.val.toNat ≠ c.val.toNat := by
    intro same
    exact other (Char.toNat_inj.mp same)
  have number : c.toUInt8.toNat = c.val.toNat := by
    rw [Char.toUInt8, UInt32.toNat_toUInt8]
    omega
  have differs {n : Nat} (short : n < 256) (away : n ≠ c.val.toNat) :
      UInt8.ofNat n ≠ c.toUInt8 := by
    rw [ne_eq, ofNat_eq_iff short, number]
    exact away
  unfold String.utf8EncodeChar
  dsimp only
  generalize d.val.toNat = v at code ⊢
  repeat' split
  · exact ⟨_, _, rfl, differs (by omega) code⟩
  · exact ⟨_, _, rfl, differs (by omega) (by omega)⟩
  · exact ⟨_, _, rfl, differs (by omega) (by omega)⟩
  · exact ⟨_, _, rfl, differs (by omega) (by omega)⟩

/-- Counted by their bytes, the repetitions of a character of one byte are as many. -/
theorem byteRun_eq {c : Char} (single : c.utf8Size = 1) (text : List Char) :
    byteRun c text = runLength c text := by
  induction text with
  | nil => rfl
  | cons d text ih =>
    by_cases same : d = c
    · subst same
      have encoded : String.utf8EncodeChar d = [d.toUInt8] :=
        String.utf8EncodeChar_eq_singleton single
      simp only [byteRun, runLength, utf8, List.flatMap_cons, encoded, List.singleton_append,
        List.takeWhile_cons, beq_self_eq_true, ↓reduceIte, List.length_cons] at ih ⊢
      rw [ih]
    · obtain ⟨byte, rest, encoded, differs⟩ := firstByte_ne single same
      simp [byteRun, runLength, utf8, encoded, differs, same]

theorem length_le_bytes (text : List Char) : text.length ≤ bytes text := by
  induction text with
  | nil => exact Nat.le_refl _
  | cons c text ih =>
    have := c.utf8Size_pos
    rw [bytes_cons, List.length_cons]
    omega

theorem bytes_eq_length {text : List Char} (single : ∀ c ∈ text, c.utf8Size = 1) :
    bytes text = text.length := by
  induction text with
  | nil => rfl
  | cons c text ih =>
    obtain ⟨here, later⟩ := List.forall_mem_cons.mp single
    rw [bytes_cons, here, ih later, List.length_cons, Nat.add_comm]

theorem takeWhile_beq (c : Char) (text : List Char) :
    text.takeWhile (· == c) = List.replicate (runLength c text) c :=
  (List.prefix_iff_eq_take.mp (List.takeWhile_prefix _)).trans (take_runLength c text)

/-- A text has as many repetitions of a character of one byte at its front as it has bytes, just
if it is nothing else. -/
theorem runLength_beq_bytes {c : Char} (single : c.utf8Size = 1) (text : List Char) :
    (runLength c text == bytes text) = isRun c text := by
  rw [Bool.eq_iff_iff, beq_iff_eq, isRun, List.all_eq_true]
  constructor
  · intro all
    have whole : text.takeWhile (· == c) = text := by
      refine (List.takeWhile_prefix _).eq_of_length_le ?_
      exact Nat.le_trans (length_le_bytes text) (Nat.le_of_eq all.symm)
    exact List.takeWhile_eq_self_iff.mp whole
  · intro all
    rw [runLength, List.takeWhile_eq_self_iff.mpr all]
    refine (bytes_eq_length fun d listed => ?_).symm
    rw [show d = c by simpa using all d listed, single]

/-- The text is a beginning of a word and has fewer bytes. -/
def shortOf (text word : List Char) : Bool :=
  decide (bytes text < bytes word) && text.isPrefixOf word

theorem shortOf_eq (text word : List Char) : shortOf text word = breaksOffWithin text word := by
  rw [Bool.eq_iff_iff]
  simp only [shortOf, breaksOffWithin, Bool.and_eq_true, decide_eq_true_eq,
    List.isPrefixOf_iff_prefix, bne_iff_ne]
  constructor
  · rintro ⟨fewer, front⟩
    exact ⟨front, fun same => absurd fewer (same ▸ Nat.lt_irrefl _)⟩
  · rintro ⟨front, differs⟩
    refine ⟨Nat.lt_of_le_of_ne (CommandLine.bytes_le_of_prefix front) ?_, front⟩
    exact fun same => differs (CommandLine.eq_of_prefix_of_bytes front same)

/-- The bytes of a word count its characters: a cursor that passes over as many passes over the
word and no more, and the column behind it is that many further on. -/
structure ByteCounted (word : List Char) : Prop where
  passes : ∀ front rest, (Cursor.between front (word ++ rest)).pass? (bytes word) =
    some (word, .between (front ++ word) rest)
  walks : ∀ location : Location, location.walk word = location.shift (bytes word)

theorem byteCounted_of_single {word : List Char} (single : ∀ c ∈ word, c.utf8Size = 1)
    (inline : ∀ c ∈ word, c ≠ '\n') : ByteCounted word := by
  refine ⟨?_, ?_⟩
  · intro front rest
    rw [bytes_eq_length single, Cursor.pass?_between, List.take_left, List.drop_left]
  · intro location
    rw [bytes_eq_length single]
    exact location.walk_inline fun listed => absurd rfl (inline _ listed)

/-- The repetitions of a character of one byte may be counted by their bytes. -/
theorem byteCounted_byteRun {c : Char} (single : c.utf8Size = 1) (inline : c ≠ '\n')
    (text : List Char) : ByteCounted (List.replicate (byteRun c text) c) := by
  refine byteCounted_of_single ?_ ?_
  · intro d listed
    rw [List.eq_of_mem_replicate listed, single]
  · intro d listed
    rw [List.eq_of_mem_replicate listed]
    exact inline

theorem byteCounted_of_all {word : List Char}
    (all : (word.all fun c => c.utf8Size == 1 && c != '\n') = true) : ByteCounted word := by
  simp only [List.all_eq_true, Bool.and_eq_true, beq_iff_eq, bne_iff_ne] at all
  exact byteCounted_of_single (fun c listed => (all c listed).1) fun c listed => (all c listed).2

theorem byteCounted_spelling (op : Operator) : ByteCounted op.spelling :=
  byteCounted_of_all (by cases op <;> rfl)

theorem byteCounted_marker : ByteCounted Comment.marker :=
  byteCounted_of_all rfl

end ErlangLexer
