import ErlangLexer.Proofs.AllText
import ErlangLexer.Proofs.ChunkSizes
import ErlangLexer.Proofs.UnmarkedText

/-!
# Searching a comment for its end

A comment may be passed over without decoding it. Its end is looked for among the bytes of the
text in UTF-8: the byte of the line break is that of no other character, and the noncharacters
share their first byte with other characters, from which the two bytes behind it tell them apart.

* `utf8`: the bytes of a text;
* `ByteSearch`: any search for the first one of two bytes;
* `ByteSearch.commentEnd`: where the comment ends, in a search that goes on behind each first byte
  of another character;
* `firstStop`: the same byte by byte, `ByteSearch.commentEnd_eq`;
* `firstStop_utf8`: and character by character, as a comment is scanned;
* `Cursor.passComment?_front`: so a cursor in a comment comes to where a scan does.
-/

namespace ErlangLexer

open CommandLine (bytes bytes_append bytes_cons IsBoundary isBoundary_iff isBoundary_front)

/-- The bytes of a text in UTF-8. -/
def utf8 (text : List Char) : List UInt8 :=
  text.flatMap String.utf8EncodeChar

theorem utf8_append (text more : List Char) : utf8 (text ++ more) = utf8 text ++ utf8 more :=
  List.flatMap_append

theorem length_utf8 (text : List Char) : (utf8 text).length = bytes text := by
  induction text with
  | nil => rfl
  | cons c text ih =>
    rw [utf8, List.flatMap_cons, List.length_append, String.length_utf8EncodeChar, bytes_cons]
    exact congrArg (c.utf8Size + ·) ih

/-! ## Searches for bytes -/

/-- A search for the first byte that is one of two. -/
structure ByteSearch where
  first : UInt8 → UInt8 → List UInt8 → Option Nat
  first_eq : ∀ one other list,
    first one other list = list.findIdx? fun byte => byte == one || byte == other

/-- The search that looks at one byte after the other. -/
def ByteSearch.plain : ByteSearch :=
  ⟨fun one other list => list.findIdx? fun byte => byte == one || byte == other,
    fun _ _ _ => rfl⟩

/-- The byte may be the first one of what ends a comment: a line break, or a noncharacter. -/
def mayStop (byte : UInt8) : Bool :=
  byte == 0x0a || byte == 0xef

/-- Such a byte, with the bytes behind it, is the line break or a noncharacter. -/
def stops (byte : UInt8) (behind : List UInt8) : Bool :=
  byte == 0x0a || behind.take 2 == [0xbf, 0xbe] || behind.take 2 == [0xbf, 0xbf]

/-- The offset behind `start` at which a comment ends, or where its bytes end. -/
def ByteSearch.commentEnd (search : ByteSearch) (list : List UInt8) (start : Nat) : Nat :=
  match _h : search.first 0x0a 0xef (list.drop start) with
  | none => list.length
  | some found =>
    if stops (list.getD (start + found) 0) (list.drop (start + found + 1)) then start + found
    else search.commentEnd list (start + found + 1)
termination_by list.length - start
decreasing_by
  rw [search.first_eq] at _h
  have within := (List.findIdx?_eq_some_iff_getElem.mp _h).1
  rw [List.length_drop] at within
  omega

/-- How many bytes are in front of the end of a comment. -/
def firstStop : List UInt8 → Nat
  | [] => 0
  | byte :: behind => if mayStop byte && stops byte behind then 0 else firstStop behind + 1

theorem firstStop_cons {byte : UInt8} {behind : List UInt8}
    (goes_on : (mayStop byte && stops byte behind) = false) :
    firstStop (byte :: behind) = firstStop behind + 1 := by
  rw [firstStop, goes_on]
  rfl

theorem firstStop_append {front : List UInt8} (none : ∀ byte ∈ front, mayStop byte = false)
    (behind : List UInt8) : firstStop (front ++ behind) = front.length + firstStop behind := by
  induction front with
  | nil => simp
  | cons byte front ih =>
    obtain ⟨here, later⟩ := List.forall_mem_cons.mp none
    rw [List.cons_append, firstStop_cons (by simp [here]), ih later, List.length_cons]
    omega

/-- What a search has found parts the bytes, and none of those in front of it may stop. -/
theorem ByteSearch.parts (search : ByteSearch) {list : List UInt8} {start found : Nat}
    (some : search.first 0x0a 0xef (list.drop start) = some found) :
    start + found < list.length ∧ mayStop (list.getD (start + found) 0) = true ∧
      ∃ front, front.length = found ∧ (∀ byte ∈ front, mayStop byte = false) ∧
        list.drop start =
          front ++ list.getD (start + found) 0 :: list.drop (start + found + 1) := by
  rw [search.first_eq] at some
  obtain ⟨within, here, before⟩ := List.findIdx?_eq_some_iff_getElem.mp some
  have short : start + found < list.length := by
    rw [List.length_drop] at within
    omega
  have byte : list.getD (start + found) 0 = (list.drop start)[found] := by
    rw [List.getElem_drop]
    rw [List.getD_eq_getElem?_getD, List.getElem?_eq_getElem short, Option.getD_some]
  refine ⟨short, byte ▸ here, (list.drop start).take found, ?_, ?_, ?_⟩
  · exact List.length_take_of_le (Nat.le_of_lt within)
  · intro other listed
    obtain ⟨place, early, rfl⟩ := List.getElem_of_mem listed
    rw [List.length_take] at early
    rw [List.getElem_take]
    exact Bool.eq_false_iff.mpr (before place (by omega))
  · rw [byte, Nat.add_assoc, ← List.drop_drop, ← List.drop_eq_getElem_cons within,
      List.take_append_drop]

/-- A search that leaps from one first byte to the next comes to the same end. -/
theorem ByteSearch.commentEnd_eq (search : ByteSearch) (list : List UInt8) {start : Nat}
    (within : start ≤ list.length) :
    search.commentEnd list start = start + firstStop (list.drop start) := by
  fun_induction ByteSearch.commentEnd search list start with
  | case1 start none =>
    rw [search.first_eq, List.findIdx?_eq_none_iff] at none
    have passed := firstStop_append none []
    rw [List.append_nil] at passed
    rw [passed, List.length_drop, firstStop]
    omega
  | case2 start found some stops_here =>
    obtain ⟨-, here, front, rfl, before, split⟩ := search.parts some
    rw [split, firstStop_append before, firstStop, here, stops_here]
    rfl
  | case3 start found some goes_on ih =>
    obtain ⟨short, -, front, rfl, before, split⟩ := search.parts some
    rw [ih short, split, firstStop_append before, firstStop_cons ?_]
    · omega
    · rw [Bool.eq_false_iff.mpr goes_on, Bool.and_false]

/-! ## Characters among the bytes -/

theorem ofNat_eq_iff {n : Nat} (small : n < 256) (byte : UInt8) :
    UInt8.ofNat n = byte ↔ n = byte.toNat := by
  rw [← UInt8.toNat_inj, UInt8.toNat_ofNat_of_lt' small]

theorem mayStop_ofNat {n : Nat} (small : n < 256) :
    mayStop (UInt8.ofNat n) = true ↔ n = 0x0a ∨ n = 0xef := by
  rw [mayStop, Bool.or_eq_true, beq_iff_eq, beq_iff_eq, ofNat_eq_iff small, ofNat_eq_iff small]
  rfl

/-- The bytes behind the first one of a character are none that may stop. -/
theorem mayStop_continuation (n : Nat) : mayStop (UInt8.ofNat (n % 0x40 + 0x80)) = false := by
  rw [Bool.eq_false_iff, ne_eq, mayStop_ofNat (by omega)]
  omega

/-- The bytes of a character that a comment passes over: the search stops at none of them. -/
theorem bytes_of_skipped {c : Char} (skipped : Comment.skips c = true) (behind : List UInt8) :
    ∃ byte rest, String.utf8EncodeChar c = byte :: rest ∧
      (∀ other ∈ rest, mayStop other = false) ∧
      (mayStop byte && stops byte (rest ++ behind)) = false := by
  obtain ⟨inline, text⟩ : c ≠ '\n' ∧ isText c = true := by
    simpa [Comment.skips] using skipped
  obtain ⟨one, other⟩ := isText_iff.mp text
  have code (d : Char) (ne : c ≠ d) : c.val.toNat ≠ d.toNat := by
    intro same
    exact ne (Char.toNat_inj.mp same)
  have inline : c.val.toNat ≠ 0x0a := code _ inline
  have one : c.val.toNat ≠ 0xfffe := code _ one
  have other : c.val.toNat ≠ 0xffff := code _ other
  unfold String.utf8EncodeChar
  dsimp only
  generalize c.val.toNat = v at inline one other ⊢
  repeat' split
  · refine ⟨_, _, rfl, by simp, ?_⟩
    have first : mayStop (UInt8.ofNat v) = false := by
      rw [Bool.eq_false_iff, ne_eq, mayStop_ofNat (by omega)]
      omega
    rw [first, Bool.false_and]
  · refine ⟨_, _, rfl, List.forall_mem_singleton.mpr (mayStop_continuation _), ?_⟩
    have first : mayStop (UInt8.ofNat (v / 64 % 0x20 + 0xc0)) = false := by
      rw [Bool.eq_false_iff, ne_eq, mayStop_ofNat (by omega)]
      omega
    rw [first, Bool.false_and]
  · refine ⟨_, _, rfl, List.forall_mem_cons.mpr ⟨mayStop_continuation _,
      List.forall_mem_singleton.mpr (mayStop_continuation _)⟩, ?_⟩
    by_cases lead : v / 4096 = 15
    · have second_third : ¬(v / 64 % 64 = 63 ∧ (v % 64 = 62 ∨ v % 64 = 63)) := by omega
      have stays : stops (UInt8.ofNat (v / 4096 % 0x10 + 0xe0))
          ([UInt8.ofNat (v / 64 % 0x40 + 0x80), UInt8.ofNat (v % 0x40 + 0x80)] ++ behind) =
            false := by
        rw [Bool.eq_false_iff, ne_eq]
        simp only [stops, Bool.or_eq_true, beq_iff_eq, List.cons_append, List.take_succ_cons,
          List.take_zero, List.cons.injEq, and_true]
        rw [ofNat_eq_iff (by omega), ofNat_eq_iff (by omega), ofNat_eq_iff (by omega),
          ofNat_eq_iff (by omega)]
        simp only [UInt8.reduceToNat]
        omega
      rw [stays, Bool.and_false]
    · have first : mayStop (UInt8.ofNat (v / 4096 % 0x10 + 0xe0)) = false := by
        rw [Bool.eq_false_iff, ne_eq, mayStop_ofNat (by omega)]
        omega
      rw [first, Bool.false_and]
  · refine ⟨_, _, rfl, List.forall_mem_cons.mpr ⟨mayStop_continuation _,
      List.forall_mem_cons.mpr ⟨mayStop_continuation _,
        List.forall_mem_singleton.mpr (mayStop_continuation _)⟩⟩, ?_⟩
    have first : mayStop (UInt8.ofNat (v / 262144 % 0x08 + 0xf0)) = false := by
      rw [Bool.eq_false_iff, ne_eq, mayStop_ofNat (by omega)]
      omega
    rw [first, Bool.false_and]

theorem firstStop_skipped {c : Char} (skipped : Comment.skips c = true) (behind : List UInt8) :
    firstStop (String.utf8EncodeChar c ++ behind) = c.utf8Size + firstStop behind := by
  obtain ⟨byte, rest, encoded, continued, goes_on⟩ := bytes_of_skipped skipped behind
  rw [← String.length_utf8EncodeChar, encoded, List.cons_append, firstStop_cons goes_on,
    firstStop_append continued, List.length_cons]
  omega

theorem Comment.eq_of_not_skips {c : Char} (ends : skips c = false) :
    c = '\n' ∨ c = '\ufffe' ∨ c = '\uffff' := by
  by_cases line : c = '\n'
  · exact .inl line
  · have foreign : isText c = false := by simpa [skips, line] using ends
    exact .inr (eq_nonchar_of_foreign foreign)

theorem firstStop_ending {c : Char} (ends : Comment.skips c = false) (behind : List UInt8) :
    firstStop (String.utf8EncodeChar c ++ behind) = 0 := by
  rcases Comment.eq_of_not_skips ends with rfl | rfl | rfl
  · rfl
  · rfl
  · rfl

/-- Byte by byte, a comment ends where it does character by character. -/
theorem firstStop_utf8 (text : List Char) :
    firstStop (utf8 text) = bytes (text.takeWhile Comment.skips) := by
  induction text with
  | nil => rfl
  | cons c text ih =>
    rw [utf8, List.flatMap_cons]
    cases skipped : Comment.skips c with
    | true =>
      rw [firstStop_skipped skipped, List.takeWhile_cons_of_pos skipped, bytes_cons]
      exact congrArg (c.utf8Size + ·) ih
    | false =>
      rw [firstStop_ending skipped, List.takeWhile_cons_of_neg (by simp [skipped])]
      rfl

/-! ## Cursors -/

/-- The characters that make up the first bytes of a text, if that many bytes are whole
characters. -/
def charsOf? : Nat → List Char → Option (List Char)
  | 0, _ => some []
  | _ + 1, [] => none
  | count + 1, c :: text =>
    if c.utf8Size ≤ count + 1 then (charsOf? (count + 1 - c.utf8Size) text).map (c :: ·) else none

theorem charsOf?_front (front behind : List Char) :
    charsOf? (bytes front) (front ++ behind) = some front := by
  induction front with
  | nil => cases behind <;> rfl
  | cons c front ih =>
    obtain ⟨more, size⟩ := Nat.exists_eq_add_of_lt c.utf8Size_pos
    rw [bytes_cons, List.cons_append,
      show c.utf8Size + bytes front = more + bytes front + 1 by omega, charsOf?, if_pos (by omega),
      show more + bytes front + 1 - c.utf8Size = bytes front by omega, ih]
    rfl

/-- The characters between two offsets of a text, if both are boundaries and in their order. -/
def slice? (text : List Char) (start finish : Nat) : Option (List Char) :=
  if start ≤ finish then
    (charsOf? start text).bind fun front => charsOf? (finish - start) (text.drop front.length)
  else none

theorem slice?_between (front middle behind : List Char) :
    slice? (front ++ (middle ++ behind)) (bytes front) (bytes (front ++ middle)) = some middle := by
  have order : bytes front ≤ bytes (front ++ middle) := by
    rw [bytes_append]
    exact Nat.le_add_right _ _
  rw [slice?, if_pos order, charsOf?_front, Option.bind_some, List.drop_left, bytes_append,
    Nat.add_sub_cancel_left, charsOf?_front]

/-- A text and an offset into its bytes. -/
structure Cursor where
  text : List Char
  position : Nat
  deriving DecidableEq

/-- Pass over the rest of a comment, with the number of characters in it. There is no answer
should the bytes that are passed be no whole characters. -/
def Cursor.passComment? (search : ByteSearch) (cursor : Cursor) : Option (Cursor × Nat) :=
  let finish := search.commentEnd (utf8 cursor.text) cursor.position
  (slice? cursor.text cursor.position finish).map fun skipped =>
    (⟨cursor.text, finish⟩, skipped.length)

/-- A cursor in front of some text comes behind what a comment skips of it. -/
theorem Cursor.passComment?_front (search : ByteSearch) (front rest : List Char) :
    passComment? search ⟨front ++ rest, bytes front⟩ =
      some (⟨front ++ rest, bytes (front ++ rest.takeWhile Comment.skips)⟩,
        (rest.takeWhile Comment.skips).length) := by
  have within : bytes front ≤ (utf8 (front ++ rest)).length := by
    rw [length_utf8, bytes_append]
    exact Nat.le_add_right _ _
  have ahead : (utf8 (front ++ rest)).drop (bytes front) = utf8 rest := by
    rw [utf8_append, ← length_utf8, List.drop_left]
  have finish : search.commentEnd (utf8 (front ++ rest)) (bytes front) =
      bytes (front ++ rest.takeWhile Comment.skips) := by
    rw [search.commentEnd_eq _ within, ahead, firstStop_utf8, bytes_append]
  have skipped := slice?_between front (rest.takeWhile Comment.skips)
    (rest.dropWhile Comment.skips)
  rw [List.takeWhile_append_dropWhile] at skipped
  simp only [passComment?, finish, skipped, Option.map_some]

/-- **A search among bytes finds the end of a comment.** From any boundary of a text, a cursor that
passes over a comment by its bytes comes behind the characters up to the first line break or
noncharacter, or behind all of them, counts them, and stands at a boundary. So does a scan that is
in a comment there, one character at a time. -/
theorem comment_ends_among_bytes (search : ByteSearch) {text : List Char} {position : Nat}
    (boundary : IsBoundary text position) :
    ∃ before skipped behind, text = before ++ (skipped ++ behind) ∧ bytes before = position ∧
      (∀ c ∈ skipped, c ≠ '\n' ∧ c ≠ '\ufffe' ∧ c ≠ '\uffff') ∧
      (∀ c ∈ behind.head?, c = '\n' ∨ c = '\ufffe' ∨ c = '\uffff') ∧
      Cursor.passComment? search ⟨text, position⟩ =
        some (⟨text, bytes (before ++ skipped)⟩, skipped.length) ∧
      IsBoundary text (bytes (before ++ skipped)) ∧
      ∀ (options : Options) (extent : Extent) (ended : Bool) (state : State),
        state.mode = .comment →
          state.run options extent ended (skipped ++ behind) =
            (state.commenting skipped).run options extent ended behind := by
  obtain ⟨before, rest, rfl, rfl⟩ := isBoundary_iff.mp boundary
  have skips : ∀ c ∈ rest.takeWhile Comment.skips, Comment.skips c = true :=
    fun c listed => List.mem_takeWhile_imp listed
  have split : before ++ rest =
      before ++ (rest.takeWhile Comment.skips ++ rest.dropWhile Comment.skips) := by
    rw [List.takeWhile_append_dropWhile]
  refine ⟨before, rest.takeWhile Comment.skips, rest.dropWhile Comment.skips, split, rfl, ?_, ?_,
    Cursor.passComment?_front search before rest, ?_, ?_⟩
  · intro c listed
    obtain ⟨inline, text⟩ : c ≠ '\n' ∧ isText c = true := by
      simpa [Comment.skips] using skips c listed
    exact ⟨inline, isText_iff.mp text⟩
  · intro c first
    have ends := List.head?_dropWhile_not Comment.skips rest
    rw [Option.mem_def.mp first] at ends
    exact Comment.eq_of_not_skips (by simpa using ends)
  · rw [split, ← List.append_assoc]
    exact isBoundary_front _ _
  · intro options extent ended state mode
    exact State.run_comment options mode skips _

/-- Two characters that share their first byte with the noncharacters, and a noncharacter at the
end of the text. -/
theorem comment_ends_among_bytes_at_noncharacter :
    let text := ['a', '%', '\ufffd', '\uf000', '\uffff']
    IsBoundary text 1 ∧
      ∃ before skipped behind, text = before ++ (skipped ++ behind) ∧ bytes before = 1 ∧
        (∀ c ∈ skipped, c ≠ '\n' ∧ c ≠ '\ufffe' ∧ c ≠ '\uffff') ∧
        (∀ c ∈ behind.head?, c = '\n' ∨ c = '\ufffe' ∨ c = '\uffff') ∧
        Cursor.passComment? .plain ⟨text, 1⟩ = some (⟨text, 8⟩, 3) ∧
        bytes (before ++ skipped) = 8 ∧ skipped.length = 3 := by
  intro text
  have boundary : IsBoundary text 1 := isBoundary_front ['a'] _
  have skips : ['%', '\ufffd', '\uf000', '\uffff'].takeWhile Comment.skips =
      ['%', '\ufffd', '\uf000'] := by decide
  have comes := Cursor.passComment?_front .plain ['a'] ['%', '\ufffd', '\uf000', '\uffff']
  rw [skips] at comes
  obtain ⟨before, skipped, behind, split, start, within, ends, passes, -⟩ :=
    comment_ends_among_bytes .plain boundary
  obtain ⟨cursor, count⟩ := Prod.mk.inj (Option.some.inj (passes.symm.trans comes))
  exact ⟨boundary, before, skipped, behind, split, start, within, ends, comes,
    (Cursor.mk.inj cursor).2, count⟩

end ErlangLexer
