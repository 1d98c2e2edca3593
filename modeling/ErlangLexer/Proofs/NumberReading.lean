import ErlangLexer.Proofs.Findings
import ErlangLexer.Proofs.LooseEnds
import ErlangLexer.Proofs.Numeral
import ErlangLexer.Proofs.Pieces
import ErlangLexer.Proofs.WholeText

/-!
# Numbers are read as they are written

A scan reads a number character by character and through several parts of it. What comes
of it is what `Reading.ofText` reads off the text, however that is cut:

* `State.run_numeral`: the digits of a part are the longest numeral in front of it;
* `State.run_last`: the digits of a part behind which there is no other, and what may be wrong;
* `State.Mantissa`: a text that is a float up to its fraction, which the parts behind go on with;
* `State.run_based`, `State.run_exponent`, `State.run_fraction`: the parts behind the first;
* `State.run_number`: the whole number.
-/

namespace ErlangLexer

theorem Lexeme.extend_front (start : Location) (text : List Char) (width more : Nat) :
    (front start text width).extend (text.drop width) more = front start text (width + more) := by
  have same : ((front start text width).extend (text.drop width) more).source =
      (front start text (width + more)).source := by
    rw [← String.toList_inj, toList_extend]
    simp only [front, String.toList_ofList, List.take_add]
  exact congrArg (Lexeme.mk start) same

namespace NumberPart

/-- The base of the digits of a part. -/
def base : NumberPart → Nat
  | .based base _ => base
  | _ => 10

/-- A part of digits, as all are but the sign of an exponent. -/
def takesDigits : NumberPart → Bool
  | .sign _ _ => false
  | _ => true

/-- Behind the digits of this part there is no other. -/
def isLast : NumberPart → Bool
  | .based _ _ | .exponent _ _ _ _ => true
  | _ => false

/-- The part with all digits of a numeral. -/
def take (part : NumberPart) (digits : List Char) : NumberPart :=
  digits.foldl (fun part c => (part.digit? c).getD part) part

theorem takesDigits_of_hasDigit {part : NumberPart} (digits : part.hasDigit = true) :
    part.takesDigits = true := by
  cases part with
  | sign => cases digits
  | _ => rfl

theorem takesDigits_of_isLast {part : NumberPart} (last : part.isLast = true) :
    part.takesDigits = true := by
  cases part with
  | based | exponent => rfl
  | whole | fraction | sign => cases last

theorem kind?_of_isLast {part : NumberPart} (last : part.isLast = true)
    (first : part.hasDigit = false) : part.kind? = none := by
  cases part with
  | based base value => simpa [hasDigit, kind?] using first
  | exponent mantissa places negative value =>
    have none : value = none := by simpa [hasDigit] using first
    simp [kind?, none]
  | whole | fraction | sign => cases last

theorem digit?_of_digit {part : NumberPart} {c : Char} (takes : part.takesDigits = true)
    (digit : isDigitOf part.base c = true) :
    ∃ next, part.digit? c = some next ∧ next.hasDigit = true ∧ next.base = part.base := by
  obtain ⟨value, found⟩ := Option.isSome_iff_exists.mp digit
  cases part with
  | sign => cases takes
  | whole | based | fraction | exponent =>
    simp only [base] at found
    simp [digit?, found, hasDigit, base]

theorem digit?_keeps {part next : NumberPart} {c : Char} (found : part.digit? c = some next) :
    next.base = part.base ∧ next.illegal = part.illegal ∧ next.isLast = part.isLast ∧
      next.hasDigit = true := by
  cases part with
  | sign => cases found
  | whole | based | fraction | exponent =>
    obtain ⟨value, -, rfl⟩ := Option.map_eq_some_iff.mp found
    exact ⟨rfl, rfl, rfl, rfl⟩

theorem take_keeps (part : NumberPart) (digits : List Char) :
    (part.take digits).base = part.base ∧ (part.take digits).illegal = part.illegal ∧
      (part.take digits).isLast = part.isLast := by
  induction digits generalizing part with
  | nil => exact ⟨rfl, rfl, rfl⟩
  | cons c digits ih =>
    obtain ⟨base, illegal, last⟩ := ih ((part.digit? c).getD part)
    cases found : part.digit? c with
    | none => simpa [take, found] using ih part
    | some next =>
      obtain ⟨base', illegal', last', -⟩ := digit?_keeps found
      simp only [found, Option.getD_some] at base illegal last
      simp only [take, List.foldl_cons, found, Option.getD_some]
      exact ⟨base.trans base', illegal.trans illegal', last.trans last'⟩

theorem hasDigit_take {part : NumberPart} (has : part.hasDigit = true) (digits : List Char) :
    (part.take digits).hasDigit = true := by
  induction digits generalizing part with
  | nil => exact has
  | cons c digits ih =>
    cases found : part.digit? c with
    | none => simpa [take, found] using ih has
    | some next => simpa [take, found] using ih (digit?_keeps found).2.2.2

theorem hasDigit_take_numeral {part : NumberPart} {text : List Char}
    (takes : part.takesDigits = true) (some : numeral part.base text ≠ []) :
    (part.take (numeral part.base text)).hasDigit = true := by
  obtain none | ⟨c, rest, -, digit, same⟩ := numeral_cases part.base text
  · exact absurd none some
  · obtain ⟨next, found, has, -⟩ := digit?_of_digit takes digit
    have later := hasDigit_take has (digitsBehind part.base rest)
    rw [same]
    simpa [take, found] using later

theorem digit?_eq_none {part : NumberPart} {c : Char} (other : isDigitOf part.base c = false) :
    part.digit? c = none := by
  have none : digitValue? part.base c = none := by simpa [isDigitOf] using other
  cases part <;> simp_all [base, digit?]

/-! ### Values -/

theorem take_counted (f : Nat → Nat → NumberPart) {base : Nat}
    (counts : ∀ value places c, (f value places).digit? c =
      (digitValue? base c).map fun d => f (value * base + d) (places + 1))
    {digits : List Char} (spelled : ∀ c ∈ digits, c = '_' ∨ isDigitOf base c = true)
    (value places : Nat) :
    (f value places).take digits =
      f ((plain digits).foldl (fun value c => value * base + (digitValue? base c).getD 0) value)
        (places + (plain digits).length) := by
  induction digits generalizing value places with
  | nil => rfl
  | cons c digits ih =>
    have later := ih fun d listed => spelled d (List.mem_cons_of_mem c listed)
    rcases spelled c List.mem_cons_self with rfl | digit
    · have skipped : (f value places).take ('_' :: digits) = (f value places).take digits := by
        simp [take, digit?_underscore]
      exact skipped.trans (later value places)
    · obtain ⟨d, found⟩ := Option.isSome_iff_exists.mp digit
      have read : (f value places).take (c :: digits) =
          (f (value * base + d) (places + 1)).take digits := by
        simp [take, counts, found]
      have kept : plain (c :: digits) = c :: plain digits :=
        List.filter_cons_of_pos (by simpa using ne_underscore_of_digit digit)
      rw [read, later, kept, List.foldl_cons, List.length_cons, found]
      simp only [Option.getD_some, Nat.add_assoc, Nat.add_comm 1]

theorem take_whole (text : List Char) :
    (whole 0).take (numeral 10 text) = .whole (numeralValue 10 (numeral 10 text)) :=
  take_counted (fun value _ => .whole value) (fun _ _ _ => rfl) (fun _ => mem_numeral) 0 0

theorem take_of_first (part counted : NumberPart) {text : List Char}
    (takes : part.takesDigits = true) (same : part.digit? = counted.digit?)
    (some : numeral part.base text ≠ []) :
    part.take (numeral part.base text) = counted.take (numeral part.base text) := by
  obtain none | ⟨c, rest, -, digit, spelled⟩ := numeral_cases part.base text
  · exact absurd none some
  · obtain ⟨next, found, -⟩ := digit?_of_digit takes digit
    simp [spelled, take, ← same, found]

theorem take_based {base : Nat} {text : List Char} (some : numeral base text ≠ []) :
    (based base none).take (numeral base text) =
      .based base (numeralValue base (numeral base text)) := by
  have first := take_of_first (.based base none) (.based base (Option.some 0)) rfl rfl some
  exact first.trans (take_counted (fun value _ => .based base (Option.some value))
    (fun _ _ _ => rfl) (fun _ => mem_numeral) 0 0)

theorem take_exponent (mantissa places : Nat) (negative : Bool) {text : List Char}
    (some : numeral 10 text ≠ []) :
    (exponent mantissa places negative none).take (numeral 10 text) =
      .exponent mantissa places negative (numeralValue 10 (numeral 10 text)) := by
  have first := take_of_first (.exponent mantissa places negative none)
    (.exponent mantissa places negative (Option.some 0)) rfl rfl some
  exact first.trans (take_counted
    (fun value _ => .exponent mantissa places negative (Option.some value))
    (fun _ _ _ => rfl) (fun _ => mem_numeral) 0 0)

theorem take_fraction (mantissa places : Nat) (text : List Char) :
    (fraction mantissa places).take (numeral 10 text) =
      .fraction
        ((plain (numeral 10 text)).foldl (fun value c => value * 10 + (digitValue? 10 c).getD 0)
          mantissa)
        (places + (plain (numeral 10 text)).length) :=
  take_counted .fraction (fun _ _ _ => rfl) (fun _ => mem_numeral) mantissa places

end NumberPart

namespace State

variable {options : Options} {extent : Extent} {state : State} {text : List Char}
  {width : Nat} {part : NumberPart}

/-- In front of a text that starts with a number, when so many characters of it are read. -/
def amidst (state : State) (text : List Char) (width : Nat) (part : NumberPart) : State :=
  state.read text width (.number ⟨.front state.location text width, part⟩)

theorem move_amidst (options : Options) (ended : Bool) (rest : List Char) :
    (state.amidst text width part).move options ended rest =
      NumberDraft.move ⟨.front state.location text width, part⟩ rest ended := rfl

theorem run_amidst_read {more : Nat} {next : NumberPart}
    (step : NumberDraft.move ⟨.front state.location text width, part⟩ (text.drop width) true =
      NumberDraft.readTo ⟨.front state.location text width, part⟩ (text.drop width) more next) :
    (state.amidst text width part).run options extent true (text.drop width) =
      (state.amidst text (width + more) next).run options extent true
        (text.drop (width + more)) := by
  have later : (state.amidst text width part).read (text.drop width) more
      (.number ⟨.front state.location text (width + more), next⟩) =
        state.amidst text (width + more) next := by
    simp only [amidst, read, List.take_add, Location.walk_append]
  rw [run_eq, move_amidst, step]
  simp only [NumberDraft.readTo, Lexeme.extend_front, later, List.drop_drop]

/-- How a scan goes on from where a number was read. -/
def after (options : Options) (extent : Extent) (state : State) (text : List Char) :
    Reading → Halt
  | .token kind width =>
    (state.behindToken options kind (text.take width)).run options extent true (text.drop width)
  | .wrong cause width =>
    .stopped (.error ⟨state.location, cause⟩ (state.location.walk (text.take width)))
      (text.drop width)

theorem run_amidst_fault {more : Nat}
    (step : NumberDraft.move ⟨.front state.location text width, part⟩ (text.drop width) true =
      NumberDraft.fault ⟨.front state.location text width, part⟩ more) :
    (state.amidst text width part).run options extent true (text.drop width) =
      state.after options extent text (.wrong (.illegal part.illegal) (width + more)) := by
  have location : (state.amidst text width part).location.walk ((text.drop width).take more) =
      state.location.walk (text.take (width + more)) := by
    simp only [amidst, read, List.take_add, Location.walk_append]
  rw [run_eq, move_amidst, step]
  simp only [NumberDraft.fault, location, List.drop_drop]
  rfl

/-- The number ends here. -/
def stopAt (part : NumberPart) (width : Nat) : Reading :=
  match part.kind? with
  | some kind => .token kind width
  | none => .wrong (.illegal part.illegal) width

theorem run_amidst_complete
    (step : NumberDraft.move ⟨.front state.location text width, part⟩ (text.drop width) true =
      NumberDraft.complete ⟨.front state.location text width, part⟩) :
    (state.amidst text width part).run options extent true (text.drop width) =
      state.after options extent text (stopAt part width) := by
  cases value : part.kind? with
  | none =>
    have fault : NumberDraft.complete ⟨.front state.location text width, part⟩ =
        NumberDraft.fault ⟨.front state.location text width, part⟩ 0 := by
      simp only [NumberDraft.complete, value]
    rw [stopAt, value]
    exact run_amidst_fault (step.trans fault)
  | some kind =>
    have goes_on : ¬(kind = .dot ∧ extent = .form) :=
      fun dot => part.kind?_ne_dot (dot.1 ▸ value)
    have emits : NumberDraft.complete ⟨.front state.location text width, part⟩ =
        .emit 0 kind (.front state.location text width) .between := by
      simp only [NumberDraft.complete, value]
    rw [stopAt, value, run_eq, move_amidst, step, emits]
    exact if_neg goes_on

/-! ## Digits -/

theorem drop_of_front {c : Char} {rest : List Char} (front : text.drop width = c :: rest) :
    text.drop (width + 1) = rest := by
  rw [← List.drop_drop, front]
  rfl

theorem run_digit (part : NumberPart) {c : Char} {rest : List Char}
    (takes : part.takesDigits = true) (digit : isDigitOf part.base c = true)
    (front : text.drop width = c :: rest) :
    ∃ next, part.digit? c = some next ∧ next.hasDigit = true ∧ next.base = part.base ∧
      (state.amidst text width part).run options extent true (text.drop width) =
        (state.amidst text (width + 1) next).run options extent true (text.drop (width + 1)) := by
  obtain ⟨next, found, digits, base⟩ := part.digit?_of_digit takes digit
  refine ⟨next, found, digits, base, run_amidst_read ?_⟩
  rw [front]
  simp only [NumberDraft.move, found]

theorem run_digitsBehind {base : Nat} {rest : List Char} (digits : part.hasDigit = true)
    (same : part.base = base) (front : text.drop width = rest) :
    (state.amidst text width part).run options extent true (text.drop width) =
      (state.amidst text (width + (digitsBehind base rest).length)
          (part.take (digitsBehind base rest))).run options extent true
        (text.drop (width + (digitsBehind base rest).length)) := by
  have takes := part.takesDigits_of_hasDigit digits
  fun_induction digitsBehind base rest generalizing width part with
  | case1 d rest digit ih =>
    obtain ⟨next, found, digits', base'⟩ := part.digit?_of_digit takes (same ▸ digit)
    have step : NumberDraft.move ⟨.front state.location text width, part⟩ (text.drop width) true =
        NumberDraft.readTo ⟨.front state.location text width, part⟩ (text.drop width) 2 next := by
      rw [front]
      simp [NumberDraft.move, part.digit?_underscore, digits, NumberDraft.underscores, found]
    have behind : text.drop (width + 2) = rest := drop_of_front (drop_of_front front)
    have spelled : part.take ('_' :: d :: digitsBehind base rest) =
        next.take (digitsBehind base rest) := by
      simp [NumberPart.take, part.digit?_underscore, found]
    rw [run_amidst_read step, spelled,
      ih digits' (base'.trans same) behind (next.takesDigits_of_hasDigit digits')]
    simp only [List.length_cons, Nat.add_assoc, Nat.add_comm 2]
  | case3 c rest _ digit ih =>
    obtain ⟨next, found, digits', base', read⟩ := run_digit part takes (same ▸ digit) front
    have spelled : part.take (c :: digitsBehind base rest) =
        next.take (digitsBehind base rest) := by
      simp [NumberPart.take, found]
    rw [read, spelled, ih digits' (base'.trans same) (drop_of_front front)
      (next.takesDigits_of_hasDigit digits')]
    simp only [List.length_cons, Nat.add_assoc, Nat.add_comm 1]
  | case2 | case4 | case5 => rfl

/-- The digits of a part are the longest numeral in front of it. -/
theorem run_numeral {digits : List Char} (takes : part.takesDigits = true)
    (spelled : numeral part.base (text.drop width) = digits) :
    (state.amidst text width part).run options extent true (text.drop width) =
      (state.amidst text (width + digits.length) (part.take digits)).run options extent true
        (text.drop (width + digits.length)) := by
  obtain none | ⟨c, rest, front, digit, some⟩ := numeral_cases part.base (text.drop width)
  · obtain rfl : [] = digits := none.symm.trans spelled
    rfl
  · obtain ⟨next, found, digits', base', read⟩ := run_digit part takes digit front
    obtain rfl : c :: digitsBehind part.base rest = digits := some.symm.trans spelled
    have later : part.take (c :: digitsBehind part.base rest) =
        next.take (digitsBehind part.base rest) := by
      simp [NumberPart.take, found]
    rw [read, later, run_digitsBehind digits' base' (drop_of_front front)]
    simp only [List.length_cons, Nat.add_assoc, Nat.add_comm 1]

/-! ## Ends of parts -/

theorem head?_of_loose {rest : List Char} (loose : 0 < runLength '_' rest) :
    ∃ behind, rest = '_' :: behind := by
  cases rest with
  | nil => exact absurd loose (by simp [runLength])
  | cons c behind =>
    by_cases underscore : c = '_'
    · exact ⟨behind, by rw [underscore]⟩
    · simp [runLength, underscore] at loose

theorem run_loose {base : Nat} {rest : List Char} (digits : part.hasDigit = true)
    (same : part.base = base) (front : text.drop width = rest)
    (none_more : digitsBehind base rest = []) (loose : 0 < runLength '_' rest) :
    (state.amidst text width part).run options extent true (text.drop width) =
      state.after options extent text
        (.wrong (.illegal part.illegal) (width + runLength '_' rest)) := by
  refine run_amidst_fault ?_
  obtain ⟨behind, rfl⟩ := head?_of_loose loose
  rw [front]
  cases behind with
  | nil =>
    simp [NumberDraft.move, part.digit?_underscore, digits, NumberDraft.underscores, runLength]
  | cons d behind =>
    have other : isDigitOf part.base d = false := by
      cases digit : isDigitOf part.base d with
      | false => rfl
      | true => simp [digitsBehind, ← same, digit] at none_more
    simp [NumberDraft.move, part.digit?_underscore, digits, NumberDraft.underscores,
      part.digit?_eq_none other]

/-- In front of a character that neither goes on with the digits of a part nor is loose. -/
theorem move_mark {draft : NumberDraft} {c : Char} {rest : List Char}
    (other : isDigitOf draft.part.base c = false)
    (not_loose : draft.part.hasDigit = true → c ≠ '_') :
    draft.move (c :: rest) true = draft.mark c (c :: rest) true := by
  have none := draft.part.digit?_eq_none other
  simp only [NumberDraft.move, none]
  refine if_neg ?_
  simp only [Bool.and_eq_true, decide_eq_true_eq]
  exact fun both => not_loose both.2 both.1

theorem mark_of_last {draft : NumberDraft} (last : draft.part.isLast = true) (c : Char)
    (rest : List Char) : draft.mark c rest true = draft.complete := by
  obtain ⟨lexeme, part⟩ := draft
  cases part with
  | based | exponent => rfl
  | whole | fraction | sign => cases last

theorem run_stop (last : part.isLast = true)
    (other : ∀ c, (text.drop width).head? = some c →
      isDigitOf part.base c = false ∧ (part.hasDigit = true → c ≠ '_')) :
    (state.amidst text width part).run options extent true (text.drop width) =
      state.after options extent text (stopAt part width) := by
  refine run_amidst_complete ?_
  cases front : text.drop width with
  | nil => rfl
  | cons c rest =>
    obtain ⟨none, not_loose⟩ := other c (by rw [front]; rfl)
    rw [move_mark none not_loose]
    exact mark_of_last last c _

theorem head?_not_digit {base : Nat} {rest : List Char} (none_more : digitsBehind base rest = [])
    {c : Char} (front : rest.head? = some c) : isDigitOf base c = false := by
  obtain ⟨behind, rfl⟩ := List.head?_eq_some_iff.mp front
  cases digit : isDigitOf base c with
  | false => rfl
  | true => simp [digitsBehind_of_digit digit] at none_more

theorem head?_not_numeral {base : Nat} {rest : List Char} (none : numeral base rest = [])
    {c : Char} (front : rest.head? = some c) : isDigitOf base c = false := by
  obtain ⟨behind, rfl⟩ := List.head?_eq_some_iff.mp front
  cases digit : isDigitOf base c with
  | false => rfl
  | true => simp [numeral_of_digit digit] at none

theorem head?_ne_underscore {rest : List Char} (tight : ¬0 < runLength '_' rest) {c : Char}
    (front : rest.head? = some c) : c ≠ '_' := by
  rintro rfl
  obtain ⟨behind, rfl⟩ := List.head?_eq_some_iff.mp front
  exact tight (runLength_pos '_' behind)

/-- The digits of the last part, and what may be wrong with them. -/
theorem run_last (last : part.isLast = true) (first : part.hasDigit = false) {digits : List Char}
    (spelled : numeral part.base (text.drop width) = digits) :
    let stop := width + digits.length
    let loose := runLength '_' (text.drop stop)
    (state.amidst text width part).run options extent true (text.drop width) =
      state.after options extent text
        (if digits = [] then .wrong (.illegal part.illegal) width
        else if 0 < loose then .wrong (.illegal part.illegal) (stop + loose)
        else stopAt (part.take digits) stop) := by
  intro stop loose
  have takes := NumberPart.takesDigits_of_isLast last
  obtain ⟨base, illegal, last'⟩ := part.take_keeps digits
  by_cases empty : digits = []
  · have ends : stopAt part width = .wrong (.illegal part.illegal) width := by
      simp only [stopAt, NumberPart.kind?_of_isLast last first]
    rw [if_pos empty, ← ends]
    refine run_stop last fun c front => ⟨?_, by simp [first]⟩
    exact head?_not_numeral (spelled.trans empty) front
  · subst spelled
    have none_more : digitsBehind part.base (text.drop stop) = [] := numeral_drop_drop empty
    have digits' := NumberPart.hasDigit_take_numeral takes empty
    rw [if_neg empty, run_numeral takes rfl]
    by_cases some_loose : 0 < loose
    · rw [if_pos some_loose, ← illegal]
      exact run_loose digits' base rfl none_more some_loose
    · rw [if_neg some_loose]
      refine run_stop (last'.trans last) fun c front => ⟨?_, fun _ => ?_⟩
      · rw [base]
        exact head?_not_digit none_more front
      · exact head?_ne_underscore some_loose front

/-! ## Parts of a number -/

/-- The digits behind the `#` of a base. -/
theorem run_based (base : Nat) :
    (state.amidst text width (.based base none)).run options extent true (text.drop width) =
      state.after options extent text (.based text base width) := by
  rw [run_last rfl rfl rfl, Reading.based]
  by_cases empty : numeral base (text.drop width) = []
  · simp only [NumberPart.base, empty, ↓reduceIte]
    rfl
  · simp only [NumberPart.base, empty, ↓reduceIte, NumberPart.take_based empty]
    rfl

/-- So much of a text is a float up to its fraction, with this mantissa. -/
def Mantissa (text : List Char) (width mantissa places : Nat) (behind : List Char) : Prop :=
  ∃ whole fraction, plain (text.take width) = whole ++ '.' :: (fraction ++ behind) ∧
    (∀ c ∈ whole, isDigit c = true) ∧ (∀ c ∈ fraction, isDigit c = true) ∧
    digitsValue 10 (whole ++ fraction) = mantissa ∧ fraction.length = places

theorem Mantissa.ofLiteral? {mantissa places : Nat} {behind : List Char}
    (float : Mantissa text width mantissa places behind)
    (other : ∀ c, behind.head? = some c → isDigit c = false) :
    Binary64.ofLiteral? (plain (text.take width)) =
      Binary64.ofDecimal? mantissa (exponentValue (behind.drop 1) - places) := by
  obtain ⟨whole, fraction, literal, whole_digits, fraction_digits, rfl, rfl⟩ := float
  rw [literal]
  exact Binary64.ofLiteral?_append whole_digits fraction_digits other

theorem stopAt_of_float (float : part.kind? =
      (Binary64.ofLiteral? (plain (text.take width))).map .float)
    (illegal : part.illegal = .float) : stopAt part width = .float text width := by
  rw [stopAt, float, Reading.float, illegal]
  cases Binary64.ofLiteral? (plain (text.take width)) <;> rfl

theorem Mantissa.read {mantissa places : Nat} {behind digits : List Char}
    (float : Mantissa text width mantissa places behind) (front : digits <+: text.drop width) :
    Mantissa text (width + digits.length) mantissa places (behind ++ plain digits) := by
  obtain ⟨whole, fraction, literal, rest⟩ := float
  refine ⟨whole, fraction, ?_, rest⟩
  rw [List.take_add, ← List.prefix_iff_eq_take.mp front, plain_append, literal]
  simp only [List.append_assoc, List.cons_append]

theorem Mantissa.read_one {mantissa places : Nat} {behind rest : List Char} {c : Char}
    (float : Mantissa text width mantissa places behind) (front : text.drop width = c :: rest)
    (other : c ≠ '_') : Mantissa text (width + 1) mantissa places (behind ++ [c]) := by
  have kept : plain [c] = [c] := List.filter_cons_of_pos (by simpa using other)
  have later := float.read (show [c] <+: text.drop width from front ▸ ⟨rest, rfl⟩)
  rw [kept] at later
  exact later

theorem Mantissa.extend {mantissa places : Nat} (float : Mantissa text width mantissa places []) :
    let digits := numeral 10 (text.drop width)
    Mantissa text (width + digits.length)
      ((plain digits).foldl (fun value c => value * 10 + (digitValue? 10 c).getD 0) mantissa)
      (places + (plain digits).length) [] := by
  intro digits
  obtain ⟨whole, fraction, literal, whole_digits, fraction_digits, rfl, rfl⟩ := float
  have front : digits <+: text.drop width := numeral_isPrefix 10 (text.drop width)
  refine ⟨whole, fraction ++ plain digits, ?_, whole_digits, ?_, ?_, List.length_append⟩
  · rw [List.take_add, ← List.prefix_iff_eq_take.mp front, plain_append, literal]
    simp only [List.append_assoc, List.cons_append, List.append_nil]
  · intro c listed
    rcases List.mem_append.mp listed with old | new
    · exact fraction_digits c old
    · exact isDigitOf_ten c ▸ isDigitOf_of_mem_plain new
  · rw [← List.append_assoc, digitsValue, List.foldl_append]
    rfl

theorem exponentValue_sign {sign digits : List Char}
    (signs : sign = [] ∨ sign = ['+'] ∨ sign = ['-'])
    (all : ∀ c ∈ digits, isDigitOf 10 c = true) :
    exponentValue (sign ++ digits) =
      if sign == ['-'] then -(digitsValue 10 digits : Int) else digitsValue 10 digits := by
  obtain rfl | rfl | rfl := signs
  · cases digits with
    | nil => rfl
    | cons c digits =>
      have digit := all c List.mem_cons_self
      have minus : c ≠ '-' := by
        rintro rfl
        cases digit
      have plus : c ≠ '+' := by
        rintro rfl
        cases digit
      rw [List.nil_append, exponentValue]
      · rfl
      · exact fun _ h => minus (List.cons.inj h).1
      · exact fun _ h => plus (List.cons.inj h).1
  · rfl
  · rfl

/-- An exponent behind its mark and its sign. -/
theorem run_exponent {mantissa places : Nat} {mark : Char} {sign : List Char}
    (float : Mantissa text width mantissa places (mark :: sign)) (other : isDigit mark = false)
    (signs : sign = [] ∨ sign = ['+'] ∨ sign = ['-']) :
    (state.amidst text width (.exponent mantissa places (sign == ['-']) none)).run options extent
        true (text.drop width) =
      state.after options extent text (.exponent text width) := by
  rw [run_last rfl rfl rfl, Reading.exponent]
  by_cases empty : numeral 10 (text.drop width) = []
  · simp only [NumberPart.base, empty, ↓reduceIte]
    rfl
  · have literal := (float.read (numeral_isPrefix 10 (text.drop width))).ofLiteral? (by
      intro c front
      obtain rfl := Option.some.inj front
      exact other)
    have digits : ∀ c ∈ plain (numeral 10 (text.drop width)), isDigitOf 10 c = true :=
      fun _ => isDigitOf_of_mem_plain
    have value := exponentValue_sign signs digits
    have ends : stopAt (.exponent mantissa places (sign == ['-'])
        (some (numeralValue 10 (numeral 10 (text.drop width)))))
          (width + (numeral 10 (text.drop width)).length) =
        .float text (width + (numeral 10 (text.drop width)).length) := by
      refine stopAt_of_float ?_ rfl
      rw [literal]
      simp only [List.cons_append, List.drop_succ_cons, List.drop_zero, value]
      rfl
    simp only [NumberPart.base, empty, ↓reduceIte, NumberPart.take_exponent _ _ _ empty, ends]
    rfl

theorem move_unsigned (lexeme : Lexeme) (mantissa places : Nat) {c : Char} (rest : List Char)
    (unsigned : c ≠ '+' ∧ c ≠ '-') :
    NumberDraft.move ⟨lexeme, .sign mantissa places⟩ (c :: rest) true =
      match (NumberPart.exponent mantissa places false none).digit? c with
      | some part => NumberDraft.readTo ⟨lexeme, .sign mantissa places⟩ (c :: rest) 1 part
      | none => NumberDraft.complete ⟨lexeme, .sign mantissa places⟩ := by
  have skipped : (NumberPart.sign mantissa places).digit? c = none := rfl
  cases found : (NumberPart.exponent mantissa places false none).digit? c <;>
    simp [NumberDraft.move, skipped, NumberPart.hasDigit, NumberDraft.mark, unsigned, found]

/-- Without a sign the digits of an exponent follow its mark directly. -/
theorem run_unsigned {mantissa places : Nat} {rest : List Char} (front : text.drop width = rest)
    (unsigned : ¬(rest.head? = some '+' ∨ rest.head? = some '-')) :
    (state.amidst text width (.sign mantissa places)).run options extent true (text.drop width) =
      (state.amidst text width (.exponent mantissa places false none)).run options extent true
        (text.drop width) := by
  cases rest with
  | nil =>
    rw [run_amidst_complete (by rw [front]; rfl), run_amidst_complete (by rw [front]; rfl)]
    rfl
  | cons c rest =>
    simp only [List.head?_cons, Option.some.injEq, not_or] at unsigned
    cases found : (NumberPart.exponent mantissa places false none).digit? c with
    | none =>
      have completes (lexeme : Lexeme) : NumberDraft.move
          ⟨lexeme, .exponent mantissa places false none⟩ (c :: rest) true =
            NumberDraft.complete ⟨lexeme, .exponent mantissa places false none⟩ := by
        simp only [NumberDraft.move, found, NumberPart.hasDigit, Option.isSome_none, Bool.and_false,
          Bool.false_eq_true, ↓reduceIte, NumberDraft.mark]
      rw [run_amidst_complete (by rw [front, move_unsigned _ _ _ _ unsigned, found]),
        run_amidst_complete (by rw [front, completes])]
      rfl
    | some next =>
      have reads (lexeme : Lexeme) : NumberDraft.move
          ⟨lexeme, .exponent mantissa places false none⟩ (c :: rest) true =
            NumberDraft.readTo ⟨lexeme, .exponent mantissa places false none⟩ (c :: rest) 1
              next := by
        simp only [NumberDraft.move, found]
      exact (run_amidst_read (by rw [front, move_unsigned _ _ _ _ unsigned, found])).trans
        (run_amidst_read (by rw [front, reads])).symm

theorem run_sign {mantissa places : Nat} {mark : Char} {rest : List Char}
    (float : Mantissa text width mantissa places [mark]) (other : isDigit mark = false)
    (front : text.drop width = rest) :
    (state.amidst text width (.sign mantissa places)).run options extent true (text.drop width) =
      state.after options extent text
        (if rest.head? = some '+' ∨ rest.head? = some '-' then .exponent text (width + 1)
        else .exponent text width) := by
  by_cases signed : rest.head? = some '+' ∨ rest.head? = some '-'
  · obtain ⟨c, behind, rfl, signs⟩ : ∃ c behind, rest = c :: behind ∧ (c = '+' ∨ c = '-') := by
      rcases signed with plus | minus
      · obtain ⟨behind, rfl⟩ := List.head?_eq_some_iff.mp plus
        exact ⟨'+', behind, rfl, .inl rfl⟩
      · obtain ⟨behind, rfl⟩ := List.head?_eq_some_iff.mp minus
        exact ⟨'-', behind, rfl, .inr rfl⟩
    have step (lexeme : Lexeme) : NumberDraft.move ⟨lexeme, .sign mantissa places⟩
        (c :: behind) true =
          NumberDraft.readTo ⟨lexeme, .sign mantissa places⟩ (c :: behind) 1
            (.exponent mantissa places ([c] == ['-']) none) := by
      rcases signs with rfl | rfl <;> rfl
    have later := float.read_one front (by rcases signs with rfl | rfl <;> decide)
    rw [if_pos signed, run_amidst_read (by rw [front, step])]
    refine run_exponent later other ?_
    rcases signs with rfl | rfl
    · exact .inr (.inl rfl)
    · exact .inr (.inr rfl)
  · rw [if_neg signed, run_unsigned front signed]
    exact run_exponent float other (.inl rfl)

theorem stopAt_fraction {mantissa places : Nat} (float : Mantissa text width mantissa places []) :
    stopAt (.fraction mantissa places) width = .float text width := by
  have literal := float.ofLiteral? (by simp)
  refine stopAt_of_float ?_ rfl
  rw [literal, show exponentValue (List.drop 1 []) - (places : Int) = -(places : Int) from
    Int.zero_sub _]
  rfl

theorem behindFraction_of_other {c : Char} {behind : List Char}
    (front : text.drop width = c :: behind) (other : c ≠ 'e' ∧ c ≠ 'E') :
    Reading.behindFraction text width = .float text width := by
  rw [Reading.behindFraction, front]
  split
  · rename_i same
    exact absurd (List.cons.inj same).1 other.1
  · rename_i same
    exact absurd (List.cons.inj same).1 other.2
  · rfl

theorem run_behind_fraction {mantissa places : Nat}
    (float : Mantissa text width mantissa places [])
    (none_more : digitsBehind 10 (text.drop width) = [])
    (tight : ¬0 < runLength '_' (text.drop width)) :
    (state.amidst text width (.fraction mantissa places)).run options extent true
        (text.drop width) =
      state.after options extent text (.behindFraction text width) := by
  cases front : text.drop width with
  | nil =>
    rw [← front, run_amidst_complete (by rw [front]; rfl), stopAt_fraction float,
      Reading.behindFraction, front]
  | cons c behind =>
    rw [front] at none_more tight
    have other : isDigitOf 10 c = false := head?_not_digit none_more rfl
    have step (lexeme : Lexeme) : NumberDraft.move ⟨lexeme, .fraction mantissa places⟩
        (c :: behind) true = NumberDraft.mark ⟨lexeme, .fraction mantissa places⟩ c
          (c :: behind) true :=
      move_mark other fun _ => head?_ne_underscore tight rfl
    by_cases mark : c = 'e' ∨ c = 'E'
    · have reads (lexeme : Lexeme) : NumberDraft.mark ⟨lexeme, .fraction mantissa places⟩ c
          (c :: behind) true =
            NumberDraft.readTo ⟨lexeme, .fraction mantissa places⟩ (c :: behind) 1
              (.sign mantissa places) := by
        rcases mark with rfl | rfl <;> rfl
      have later := float.read_one front (head?_ne_underscore tight rfl)
      rw [← front, run_amidst_read (by rw [front, step, reads]),
        run_sign later (isDigitOf_ten c ▸ other) (drop_of_front front), Reading.behindFraction,
        front]
      rcases mark with rfl | rfl <;> rfl
    · have completes (lexeme : Lexeme) : NumberDraft.mark ⟨lexeme, .fraction mantissa places⟩ c
          (c :: behind) true = NumberDraft.complete ⟨lexeme, .fraction mantissa places⟩ :=
        if_neg (by simpa using mark)
      rw [← front, run_amidst_complete (by rw [front, step, completes]), stopAt_fraction float,
        behindFraction_of_other front (not_or.mp mark)]

/-- The digits behind the point, of which there is one. -/
theorem run_fraction {mantissa places : Nat} (float : Mantissa text width mantissa places [])
    (some : numeral 10 (text.drop width) ≠ []) :
    (state.amidst text width (.fraction mantissa places)).run options extent true
        (text.drop width) =
      state.after options extent text (.fraction text width) := by
  have later := float.extend
  have none_more := numeral_drop_drop some
  rw [run_numeral rfl rfl]
  simp only [NumberPart.base, NumberPart.take_fraction, Reading.fraction]
  by_cases loose : 0 < runLength '_' (text.drop
      (width + (numeral 10 (text.drop width)).length))
  · rw [if_pos loose]
    exact run_loose rfl rfl rfl none_more loose
  · rw [if_neg loose]
    exact run_behind_fraction later none_more loose

theorem run_illegal_base {value : Nat} {behind : List Char}
    (front : text.drop width = '#' :: behind) (out_of_range : ¬(2 ≤ value ∧ value ≤ 36)) :
    (state.amidst text width (.whole value)).run options extent true (text.drop width) =
      state.after options extent text (.wrong (.illegalBase (toString value)) width) := by
  have step (lexeme : Lexeme) : NumberDraft.move ⟨lexeme, .whole value⟩ ('#' :: behind) true =
      .fail 0 ⟨lexeme.start, .illegalBase (toString value)⟩ :=
    if_neg out_of_range
  rw [front, run_eq, move_amidst, step]
  simp only [after, front]
  rfl

theorem run_point {value : Nat} {d : Char} {behind : List Char}
    (front : text.drop width = '.' :: d :: behind) (digit : isDigit d = true) :
    (state.amidst text width (.whole value)).run options extent true (text.drop width) =
      (state.amidst text (width + 1) (.fraction value 0)).run options extent true
        (text.drop (width + 1)) := by
  have decimal : isDigitOf 10 d = true := (isDigitOf_ten d).trans digit
  obtain ⟨next, found, -, -, reads⟩ := run_digit (.fraction value 0) rfl decimal
    (drop_of_front front)
  have step (lexeme : Lexeme) : NumberDraft.move ⟨lexeme, .whole value⟩ ('.' :: d :: behind) true =
      NumberDraft.readTo ⟨lexeme, .whole value⟩ ('.' :: d :: behind) 2 next := by
    rw [move_mark rfl fun _ => by decide]
    simp only [NumberDraft.mark, ↓reduceIte, NumberDraft.point, List.drop_succ_cons, List.drop_zero,
      found]
  rw [run_amidst_read (by rw [front, step]), reads]

theorem behindWhole_of_other {value : Nat} {rest : List Char} (front : text.drop width = rest)
    (base : rest.head? ≠ some '#')
    (point : ∀ d behind, rest = '.' :: d :: behind → isDigit d = false) :
    Reading.behindWhole text value width = .token (.integer value) width := by
  rw [Reading.behindWhole, front]
  split
  · exact absurd rfl base
  · exact if_neg (by simp [point _ _ rfl])
  · rfl

theorem mark_whole_of_other (lexeme : Lexeme) {value : Nat} {c : Char} {behind : List Char}
    (base : c ≠ '#') (point : ∀ d more, c :: behind = '.' :: d :: more → isDigit d = false) :
    NumberDraft.mark ⟨lexeme, .whole value⟩ c (c :: behind) true =
      NumberDraft.complete ⟨lexeme, .whole value⟩ := by
  by_cases dot : c = '.'
  · subst dot
    cases behind with
    | nil => rfl
    | cons d more =>
      have other : isDigitOf 10 d = false := (isDigitOf_ten d).trans (point d more rfl)
      have none : (NumberPart.fraction value 0).digit? d = none := NumberPart.digit?_eq_none other
      simp only [NumberDraft.mark, ↓reduceIte, NumberDraft.point, List.drop_succ_cons,
        List.drop_zero, none]
  · simp only [NumberDraft.mark, dot, base, ↓reduceIte]

theorem run_base {value : Nat} {behind : List Char} (front : text.drop width = '#' :: behind) :
    (state.amidst text width (.whole value)).run options extent true (text.drop width) =
      state.after options extent text (.behindWhole text value width) := by
  by_cases in_range : 2 ≤ value ∧ value ≤ 36
  · have step (lexeme : Lexeme) : NumberDraft.move ⟨lexeme, .whole value⟩ ('#' :: behind) true =
        NumberDraft.readTo ⟨lexeme, .whole value⟩ ('#' :: behind) 1 (.based value none) :=
      if_pos in_range
    rw [run_amidst_read (by rw [front, step]), run_based, Reading.behindWhole, front]
    simp only [in_range, and_self, ↓reduceIte]
  · rw [run_illegal_base front in_range, Reading.behindWhole, front]
    simp only [in_range, ↓reduceIte]

theorem run_whole_point {value : Nat} {d : Char} {more : List Char}
    (front : text.drop width = '.' :: d :: more) (digit : isDigit d = true)
    (float : Mantissa text (width + 1) value 0 []) :
    (state.amidst text width (.whole value)).run options extent true (text.drop width) =
      state.after options extent text (.behindWhole text value width) := by
  have some : numeral 10 (text.drop (width + 1)) ≠ [] := by
    rw [drop_of_front front]
    exact numeral_ne_nil ((isDigitOf_ten d).trans digit) more
  rw [run_point front digit, run_fraction float some, Reading.behindWhole, front]
  simp only [digit, ↓reduceIte]

theorem run_whole_end {value : Nat} {c : Char} {behind : List Char}
    (front : text.drop width = c :: behind) (other : isDigitOf 10 c = false)
    (tight : c ≠ '_') (base : c ≠ '#')
    (point : ∀ d more, c :: behind = '.' :: d :: more → isDigit d = false) :
    (state.amidst text width (.whole value)).run options extent true (text.drop width) =
      state.after options extent text (.behindWhole text value width) := by
  have step (lexeme : Lexeme) : NumberDraft.move ⟨lexeme, .whole value⟩ (c :: behind) true =
      NumberDraft.mark ⟨lexeme, .whole value⟩ c (c :: behind) true :=
    move_mark other fun _ => tight
  rw [run_amidst_complete (by rw [front, step, mark_whole_of_other _ base point]),
    behindWhole_of_other front (by simpa using base) point]
  rfl

theorem run_behind_whole {value : Nat}
    (float : ∀ behind, text.drop width = '.' :: behind → Mantissa text (width + 1) value 0 [])
    (none_more : digitsBehind 10 (text.drop width) = [])
    (tight : ¬0 < runLength '_' (text.drop width)) :
    (state.amidst text width (.whole value)).run options extent true (text.drop width) =
      state.after options extent text (.behindWhole text value width) := by
  cases front : text.drop width with
  | nil =>
    rw [← front, run_amidst_complete (by rw [front]; rfl), behindWhole_of_other front (by simp)
      (by simp)]
    rfl
  | cons c behind =>
    rw [front] at none_more tight
    by_cases base : c = '#'
    · rw [← front]
      exact run_base (base ▸ front)
    · by_cases point : ∃ d more, c :: behind = '.' :: d :: more ∧ isDigit d = true
      · obtain ⟨d, more, same, digit⟩ := point
        rw [← front]
        exact run_whole_point (front.trans same) digit (float _ (front.trans same))
      · have no_point : ∀ d more, c :: behind = '.' :: d :: more → isDigit d = false := by
          intro d more same
          by_contra digit
          exact point ⟨d, more, same, by simpa using digit⟩
        rw [← front]
        exact run_whole_end front (head?_not_digit none_more rfl)
          (head?_ne_underscore tight rfl) base no_point

theorem isBlank_of_digit {c : Char} (digit : isDigit c = true) : isBlank c = false := by
  simp only [isDigit, Bool.and_eq_true, decide_eq_true_eq] at digit
  have low : 48 ≤ c.toNat := digit.1
  have high : c.toNat ≤ 57 := digit.2
  have not_low : ¬c ≤ ' ' := fun blank => by
    have : c.toNat ≤ 32 := blank
    omega
  have not_high : ¬ '\u0080' ≤ c := fun blank => by
    have : 128 ≤ c.toNat := blank
    omega
  simp [isBlank, not_low, not_high]

theorem run_first_digit {c : Char} {rest : List Char} (mode : state.mode = .between)
    (digit : isDigit c = true) :
    state.run options extent true (c :: rest) =
      (state.amidst (c :: rest) 0 (.whole 0)).run options extent true (c :: rest) := by
  have decimal : isDigitOf 10 c = true := (isDigitOf_ten c).trans digit
  obtain ⟨d, value⟩ := Option.isSome_iff_exists.mp decimal
  have lexeme : (⟨state.location, c.toString⟩ : Lexeme) = .front state.location (c :: rest) 1 := by
    simp only [Lexeme.front, List.take_succ_cons, List.take_zero, Lexeme.mk.injEq, true_and]
    rw [← String.toList_inj, String.toList_ofList]
    simp
  have step : state.move options true (c :: rest) =
      .read 1 (.number ⟨.front state.location (c :: rest) 1, .whole (0 * 10 + d)⟩) := by
    simp only [move, mode, Between.move, isBlank_of_digit digit, digit, Bool.false_eq_true,
      ↓reduceIte, NumberDraft.ofDigit, value, Option.getD_some, Nat.zero_mul, Nat.zero_add, lexeme]
  have read (lexeme : Lexeme) : NumberDraft.move ⟨lexeme, .whole 0⟩ (c :: rest) true =
      NumberDraft.readTo ⟨lexeme, .whole 0⟩ (c :: rest) 1 (.whole (0 * 10 + d)) := by
    have found : (NumberPart.whole 0).digit? c = some (.whole (0 * 10 + d)) := by
      simp only [NumberPart.digit?, value, Option.map_some]
      rfl
    simp only [NumberDraft.move, found]
  have later : (state.amidst (c :: rest) 0 (.whole 0)).run options extent true
      ((c :: rest).drop 0) = _ := run_amidst_read (read _)
  rw [run_eq, step]
  exact later.symm

theorem mantissa_numeral {behind : List Char}
    (front : text.drop (numeral 10 text).length = '.' :: behind) :
    Mantissa text ((numeral 10 text).length + 1) (numeralValue 10 (numeral 10 text)) 0 [] := by
  have whole := List.prefix_iff_eq_take.mp (numeral_isPrefix 10 text)
  refine ⟨plain (numeral 10 text), [], ?_, ?_, by simp, ?_, rfl⟩
  · rw [List.take_add, ← whole, front, plain_append]
    rfl
  · exact fun c listed => isDigitOf_ten c ▸ isDigitOf_of_mem_plain listed
  · rw [List.append_nil]
    rfl

/-- A scan in front of a number goes on as the number reads. -/
theorem run_number {c : Char} {rest : List Char} (mode : state.mode = .between)
    (digit : isDigit c = true) :
    state.run options extent true (c :: rest) =
      state.after options extent (c :: rest) (.ofText (c :: rest)) := by
  have some := numeral_ne_nil ((isDigitOf_ten c).trans digit) rest
  rw [run_first_digit mode digit]
  generalize c :: rest = text at some ⊢
  have none_more := numeral_drop 10 some
  have whole : (state.amidst text 0 (.whole 0)).run options extent true (text.drop 0) = _ :=
    run_numeral rfl rfl
  simp only [List.drop_zero, Nat.zero_add, NumberPart.base, NumberPart.take_whole] at whole
  rw [whole, Reading.ofText]
  by_cases loose : 0 < runLength '_' (text.drop (numeral 10 text).length)
  · rw [if_pos loose]
    exact run_loose rfl rfl rfl none_more loose
  · rw [if_neg loose]
    exact run_behind_whole (fun _ => mantissa_numeral) none_more loose

end State

/-! ## Chunks -/

namespace Suspension

/-- What is found in front of a number, and behind it. -/
def foundAfter (scan : Suspension) (text : List Char) : Reading → List Outcome
  | .token kind width =>
    goOn scan.options (scan.state.behindToken scan.options kind (text.take width))
      (text.drop width)
  | .wrong cause width =>
    let finish := scan.state.location.walk (text.take width)
    .error ⟨scan.state.location, cause⟩ finish ::
      (start scan.options finish).found [text.drop width]

theorem found_number {scan : Suspension} {queue : List (List Char)} {text : List Char}
    (whole : scan.pending ++ queue.flatten = text) (mode : scan.state.mode = .between)
    (digit : text.head?.any isDigit = true) :
    scan.found queue = scan.foundAfter text (.ofText text) := by
  have ahead : scan.ahead queue = scan.state.after scan.options .form text (.ofText text) := by
    rw [Suspension.ahead, whole]
    cases text with
    | nil => cases digit
    | cons c rest => exact State.run_number mode digit
  cases reading : Reading.ofText text with
  | token kind width =>
    rw [reading] at ahead
    exact found_of_run_state ahead
  | wrong cause width =>
    rw [reading] at ahead
    exact found_of_stopped ahead rfl

end Suspension

/-- **Numbers are read as they are written.** In front of a digit a scan between two tokens
reads the number that `Reading.ofText` tells off the text, whose digits are the longest numerals
there. It goes on behind the number with one more token, or it stops with the error of it. So
it is in whatever chunks the text comes. -/
theorem numbers_read_as_written :
    (∀ (base : Nat) (text : List Char), IsLongestNumeral base text (numeral base text)) ∧
    (∀ (options : Options) (extent : Extent) (state : State) (text : List Char),
      state.mode = .between → text.head?.any isDigit = true →
        state.run options extent true text = state.after options extent text (.ofText text)) ∧
    ∀ (scan : Suspension) (queue : List (List Char)) (text : List Char),
      scan.pending ++ queue.flatten = text → scan.state.mode = .between →
        text.head?.any isDigit = true →
        scan.found queue = scan.foundAfter text (.ofText text) := by
  refine ⟨numeral_isLongest, ?_, ?_⟩
  · intro options extent state text mode digit
    cases text with
    | nil => cases digit
    | cons c rest => exact State.run_number mode digit
  · intro scan queue text whole mode digit
    exact Suspension.found_number whole mode digit

/-- An integer to base sixteen, cut behind its base and at an underscore. -/
theorem numbers_read_as_written_across_chunks :
    (State.fresh .start).mode = .between ∧
      "1_6#f_F.".toList.head?.any isDigit = true ∧
      Reading.ofText "1_6#f_F.".toList = .token (.integer 255) 7 ∧
      (State.fresh .start).run default .form true "1_6#f_F.".toList =
        (State.fresh .start).after default .form "1_6#f_F.".toList (.token (.integer 255) 7) ∧
      (Suspension.start default .start).found ["1_6".toList, "#f_".toList, "F.".toList] =
        (Suspension.start default .start).foundAfter "1_6#f_F.".toList
          (.token (.integer 255) 7) := by
  have reading : Reading.ofText "1_6#f_F.".toList = .token (.integer 255) 7 := by decide
  have run := numbers_read_as_written.2.1 default .form (.fresh .start) "1_6#f_F.".toList rfl
    (by decide)
  have found := numbers_read_as_written.2.2 (.start default .start)
    ["1_6".toList, "#f_".toList, "F.".toList] "1_6#f_F.".toList rfl rfl (by decide)
  rw [reading] at run found
  exact ⟨rfl, by decide, reading, run, found⟩

end ErlangLexer
