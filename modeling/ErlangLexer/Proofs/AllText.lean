import ErlangLexer.Proofs.Tiling

/-!
# Text without noncharacters

Text is every character but U+FFFE and U+FFFF. Escapes make characters out of digits, and the
layout of a triple-quoted string puts its lines together anew; neither leads out of text:

* `AllText`: a text without the two noncharacters;
* `isText_of_class`: a class of characters is text if it leaves out these two;
* `Escape.read_takesText`: an escape is spelled in text and stands for text;
* `Layout.allText_value`: the value of a triple-quoted string is text if its lines are.
-/

namespace ErlangLexer

/-! ## Text -/

/-- None of the characters is a noncharacter. -/
def AllText (text : List Char) : Prop :=
  '\ufffe' ∉ text ∧ '\uffff' ∉ text

theorem isText_iff {c : Char} : isText c = true ↔ c ≠ '\ufffe' ∧ c ≠ '\uffff' := by
  constructor
  · intro text
    constructor
    · rintro rfl
      exact absurd text (by decide)
    · rintro rfl
      exact absurd text (by decide)
  · rintro ⟨one, other⟩
    by_contra foreign
    rcases eq_nonchar_of_foreign (eq_false_of_ne_true foreign) with rfl | rfl
    · exact one rfl
    · exact other rfl

theorem allText_iff {text : List Char} : AllText text ↔ ∀ c ∈ text, isText c = true := by
  simp only [isText_iff]
  constructor
  · rintro ⟨one, other⟩ c listed
    constructor
    · rintro rfl
      exact one listed
    · rintro rfl
      exact other listed
  · intro all
    exact ⟨fun listed => (all _ listed).1 rfl, fun listed => (all _ listed).2 rfl⟩

@[simp] theorem allText_nil : AllText [] :=
  ⟨List.not_mem_nil, List.not_mem_nil⟩

@[simp] theorem allText_cons {c : Char} {text : List Char} :
    AllText (c :: text) ↔ isText c = true ∧ AllText text := by
  simp [allText_iff]

@[simp] theorem allText_append {text more : List Char} :
    AllText (text ++ more) ↔ AllText text ∧ AllText more := by
  simp [allText_iff, or_imp, forall_and]

theorem AllText.of_subset {text more : List Char} (all : AllText more) (within : text ⊆ more) :
    AllText text :=
  ⟨fun listed => all.1 (within listed), fun listed => all.2 (within listed)⟩

theorem allText_flatten {lines : List (List Char)} :
    AllText lines.flatten ↔ ∀ line ∈ lines, AllText line := by
  induction lines with
  | nil => simp
  | cons line lines ih => simp [ih]

theorem allText_quotes (text : List Char) : AllText (text.take (runLength '"' text)) := by
  rw [take_runLength]
  apply allText_iff.mpr
  intro c listed
  rw [List.eq_of_mem_replicate listed]
  decide

theorem allText_takeWhile {p : Char → Bool} (within : ∀ {c : Char}, p c = true → isText c = true)
    (text : List Char) : AllText (text.takeWhile p) :=
  allText_iff.mpr fun _ listed => within (List.mem_takeWhile_imp listed)

theorem of_code_lt {bound : Nat} {p : Char → Prop} (all : ∀ n < bound, p (Char.ofNat n)) {c : Char}
    (below : c.toNat < bound) : p c := by
  have here := all c.toNat below
  rwa [Char.ofNat_toNat] at here

/-- A class of characters is text if it leaves out the two noncharacters. -/
theorem isText_of_class {p : Char → Bool} (one : p '\ufffe' = false) (other : p '\uffff' = false)
    {c : Char} (member : p c = true) : isText c = true := by
  apply isText_iff.mpr
  constructor
  · rintro rfl
    rw [one] at member
    cases member
  · rintro rfl
    rw [other] at member
    cases member

theorem isText_of_digit {base : Nat} {c : Char} (digit : (digitValue? base c).isSome = true) :
    isText c = true :=
  isText_of_class (p := fun c => (digitValue? base c).isSome) (by simp [digitValue?, isDigit])
    (by simp [digitValue?, isDigit]) digit

theorem toNat_ofNat_of_isTextCode {code : Nat} (text : isTextCode code = true) :
    (Char.ofNat code).toNat = code := by
  have valid : code.isValidChar := by
    simp only [isTextCode, Bool.or_eq_true, Bool.and_eq_true, decide_eq_true_eq] at text
    simp only [Nat.isValidChar]
    omega
  rw [Char.ofNat, dif_pos valid]
  rfl

theorem isText_ofNat {code : Nat} (text : isTextCode code = true) :
    isText (Char.ofNat code) = true := by
  rw [isText, toNat_ofNat_of_isTextCode text]
  exact text

/-! ## Escapes -/

namespace Escape

/-- The escape is spelled in text, and what it stands for is text. -/
def TakesText (text : List Char) : Escape → Prop
  | .char value width => isText value = true ∧ AllText (text.take width)
  | .lineBreak => text.head? = some '\n'
  | .incomplete | .malformed _ => True

theorem ofCode_takesText {text : List Char} {width : Nat} (code : Nat)
    (spelled : AllText (text.take width)) : (ofCode code width).TakesText text := by
  unfold ofCode
  split
  · rename_i code_text
    exact ⟨isText_ofNat code_text, spelled⟩
  · trivial

theorem readOctal_takesText (text : List Char) (ended : Bool) :
    (readOctal text ended).TakesText text := by
  unfold readOctal
  dsimp only
  split
  · trivial
  · have spelled := List.prefix_iff_eq_take.mp
      ((List.takeWhile_prefix isOctal).trans (List.take_prefix 3 text))
    apply ofCode_takesText
    rw [← spelled]
    exact allText_takeWhile (isText_of_class rfl rfl) _

theorem readBraced_takesText (text : List Char) :
    (readBraced text).TakesText ('x' :: '\x7b' :: text) := by
  unfold readBraced
  dsimp only
  split
  · trivial
  · rename_i c behind rest
    split
    · rename_i closed
      obtain ⟨rfl, -⟩ : c = '\x7d' ∧ _ := by
        simpa only [Bool.and_eq_true, decide_eq_true_eq] using closed
      have digits := List.prefix_iff_eq_take.mp
        (List.takeWhile_prefix (l := text) fun c => (digitValue? 16 c).isSome)
      apply ofCode_takesText
      simp only [List.take_succ_cons, List.take_add, ← digits, rest]
      simp +decide [allText_takeWhile isText_of_digit]
    · trivial

theorem readHex_takesText (text : List Char) : (readHex text).TakesText ('x' :: text) := by
  unfold readHex
  repeat' split
  · trivial
  · exact readBraced_takesText _
  · trivial
  · trivial
  · trivial
  · rename_i first _ _ second
    apply ofCode_takesText
    simp +decide [isText_of_digit (Option.isSome_of_eq_some first),
      isText_of_digit (Option.isSome_of_eq_some second)]

theorem isText_control {c value : Char} (control : control? c = some value) :
    isText value = true := by
  unfold control? at control
  split at control
  · obtain rfl := Option.some.inj control
    decide
  · split at control
    · obtain rfl := Option.some.inj control
      apply isText_ofNat
      have small : c.toNat % 32 ≤ 0xd7ff := by omega
      simp [isTextCode, small]
    · cases control

theorem isText_of_control {c value : Char} (control : control? c = some value) :
    isText c = true :=
  isText_of_class (p := fun c => (control? c).isSome) (by decide) (by decide)
    (Option.isSome_of_eq_some control)

theorem isText_named {c : Char} (text : isText c = true) : isText (named c) = true := by
  unfold named
  split
  all_goals first | rfl | exact text

/-- An escape is spelled in text and stands for text. -/
theorem read_takesText (text : List Char) (ended : Bool) :
    (read text ended).TakesText text := by
  unfold read
  repeat' split
  · trivial
  · exact readOctal_takesText _ ended
  · subst_vars
    exact readHex_takesText _
  · trivial
  · rename_i control
    subst_vars
    exact ⟨isText_control control, by simp +decide [isText_of_control control]⟩
  · trivial
  · subst_vars
    rfl
  · rename_i text
    exact ⟨isText_named text, by simp [text]⟩
  · trivial

theorem isText_of_char {text : List Char} {ended : Bool} {value : Char} {width : Nat}
    (escape : read text ended = .char value width) :
    isText value = true ∧ AllText (text.take width) := by
  have takes := read_takesText text ended
  rw [escape] at takes
  exact takes

theorem allText_decodeFrom {offset : Nat} {text value : List Char} (all : AllText text)
    (decoded : decodeFrom offset text = .ok value) : AllText value := by
  have of_map {c : Char} {result : Except Escape.Fault (List Char)} {value : List Char}
      (mapped : result.map (c :: ·) = .ok value) : ∃ found, result = .ok found ∧
        value = c :: found := by
    cases result with
    | error fault => cases mapped
    | ok found => exact ⟨found, rfl, (Except.ok.inj mapped).symm⟩
  fun_induction decodeFrom offset text generalizing value with
  | case1 =>
    obtain rfl := Except.ok.inj decoded
    exact allText_nil
  | case2 offset rest c width escape ih =>
    obtain ⟨found, later, rfl⟩ := of_map decoded
    have behind : AllText (rest.drop width) :=
      (allText_cons.mp all).2.of_subset (List.drop_subset _ _)
    exact allText_cons.mpr ⟨(isText_of_char escape).1, ih behind later⟩
  | case3 offset rest escape ih =>
    obtain ⟨found, later, rfl⟩ := of_map decoded
    have behind : AllText (rest.drop 1) :=
      (allText_cons.mp all).2.of_subset (List.drop_subset _ _)
    exact allText_cons.mpr ⟨by decide, ih behind later⟩
  | case4 offset rest escape => cases decoded
  | case5 offset rest width escape => cases decoded
  | case6 offset c rest plain ih =>
    obtain ⟨found, later, rfl⟩ := of_map decoded
    obtain ⟨text, behind⟩ := allText_cons.mp all
    exact allText_cons.mpr ⟨text, ih behind later⟩

end Escape

/-! ## Layout -/

namespace Layout

theorem allText_stripLine {indent line stripped : List Char} (all : AllText line)
    (strips : stripLine indent line = some stripped) : AllText stripped := by
  unfold stripLine at strips
  split at strips
  · obtain rfl := Option.some.inj strips
    exact all.of_subset (List.drop_subset _ _)
  · split at strips
    · obtain rfl := Option.some.inj strips
      simp +decide
    · cases strips

theorem allText_plainLines {lines : List (List Char)} (all : ∀ line ∈ lines, AllText line)
    (indent : List Char) : AllText (plainLines indent lines) := by
  apply allText_flatten.mpr
  intro stripped listed
  obtain ⟨line, listed, strips⟩ := List.mem_filterMap.mp listed
  exact allText_stripLine (all line listed) strips

theorem allText_decodeLines {lines : List (List Char)} (all : ∀ line ∈ lines, AllText line)
    {indent value : List Char} {offset : Nat}
    (decoded : decodeLines indent offset lines = .ok value) : AllText value := by
  induction lines generalizing offset value with
  | nil =>
    obtain rfl := Except.ok.inj decoded
    exact allText_nil
  | cons line lines ih =>
    have stripped : AllText ((stripLine indent line).getD []) := by
      cases strips : stripLine indent line with
      | none => exact allText_nil
      | some stripped => exact allText_stripLine (all line List.mem_cons_self) strips
    unfold decodeLines at decoded
    split at decoded
    · cases decoded
    · rename_i first of_first
      cases later : decodeLines indent (offset + line.length) lines with
      | error fault =>
        rw [later] at decoded
        cases decoded
      | ok behind =>
        rw [later] at decoded
        obtain rfl := Except.ok.inj decoded
        have rest := ih (fun line listed => all line (List.mem_cons_of_mem _ listed)) later
        exact allText_append.mpr ⟨Escape.allText_decodeFrom stripped of_first, rest⟩

theorem allText_dropLastBreak {value : List Char} (all : AllText value)
    (lines : List (List Char)) : AllText (dropLastBreak lines value) := by
  unfold dropLastBreak
  split
  · exact all.of_subset (List.dropLast_subset _)
  · exact all

/-- The value of a string whose lines are text is text. -/
theorem allText_value {layout : Layout} {verbatim : Bool} {value : List Char}
    (all : ∀ line ∈ layout.lines, AllText line) (valued : layout.value verbatim = .ok value) :
    AllText value := by
  unfold Layout.value at valued
  split at valued
  · cases valued
  · split at valued
    · cases valued
    · split at valued
      · obtain rfl := Except.ok.inj valued
        exact allText_dropLastBreak (allText_plainLines all _) _
      · split at valued
        · cases valued
        · rename_i content decoded
          obtain rfl := Except.ok.inj valued
          exact allText_dropLastBreak (allText_decodeLines all decoded) _

end Layout

end ErlangLexer
