import ErlangLexer.CommandLine.Flags
import ErlangLexer.Proofs.EscapedText

/-!
# How flags are spelled

The arguments of a command are told without reading them:

* `Flag.Spelled`: how a flag is spelled as an argument, and `Misuse.Blames`: which arguments are
  no flags, and what is wrong with them;
* `Flags.add_of_spelled`, `Flags.add_of_blamed`: one argument is added, or blamed;
* `Flags.Sums`: what some flags come to, whatever is between them (`Flags.Sums.apply`);
* `Flags.ofArguments_eq_ok_iff`, `Flags.ofArguments_eq_error_iff`: all arguments are read, or the
  first that is no flag is blamed.
-/

namespace ErlangLexer

/-! ## Decimal digits -/

theorem isDigit_iff_char {c : Char} : isDigit c = true ↔ c.isDigit = true := by
  simp only [Char.isDigit, isDigit, Bool.and_eq_true, decide_eq_true_eq]
  rfl

theorem digitValue?_of_isDigit {c : Char} (digit : c.isDigit = true) :
    digitValue? 10 c = some (c.toNat - '0'.toNat) := by
  have decimal := isDigit_iff_char.mpr digit
  have small : c.toNat ≤ 57 := by
    simp only [Char.isDigit, Bool.and_eq_true, decide_eq_true_eq] at digit
    exact digit.2
  have less : c.toNat - '0'.toNat < 10 := by
    have : '0'.toNat = 48 := rfl
    omega
  simp only [digitValue?, decimal, ↓reduceIte, less]

theorem foldl_digitValue {digits : List Char} (all : ∀ c ∈ digits, c.isDigit = true)
    (value : Nat) :
    digits.foldl (fun value c => value * 10 + (digitValue? 10 c).getD 0) value =
      Nat.ofDigitChars 10 digits value := by
  induction digits generalizing value with
  | nil => simp
  | cons c digits ih =>
    rw [List.foldl_cons, Nat.ofDigitChars_cons, ih fun d listed => all d (by simp [listed]),
      digitValue?_of_isDigit (all c (by simp)), Nat.mul_comm]
    rfl

namespace CommandLine

/-! ## Spellings -/

/-- What an argument says. -/
inductive Flag where
  | columns
  | text
  | checks
  | feature (word : String)
  | chunk (size : Nat)
  deriving DecidableEq

/-- A row of decimal digits and the number that it is. There may be zeros in front. -/
structure DecimalRow (digits : List Char) (value : Nat) : Prop where
  some_digit : digits ≠ []
  all : ∀ c ∈ digits, c.isDigit = true
  value : Nat.ofDigitChars 10 digits 0 = value

/-- A chunk size is a positive decimal of sixty-four bits, perhaps behind a plus sign. -/
def SizeSpelling (text : String) (size : Nat) : Prop :=
  ∃ sign digits : String, text = sign ++ digits ∧ (sign = "" ∨ sign = "+") ∧
    DecimalRow digits.toList size ∧ 0 < size ∧ size ≤ Flags.maxChunkSize

theorem sizeSpelling_toString {n : Nat} (positive : 0 < n) (bounded : n ≤ Flags.maxChunkSize) :
    SizeSpelling (toString n) n := by
  have row : DecimalRow (toString n).toList n := by
    rw [Nat.toString_eq_repr, Nat.toList_repr]
    exact ⟨Nat.toDigits_ne_nil, fun c => Nat.isDigit_of_mem_toDigits (by decide) (by decide),
      Nat.ofDigitChars_ten_toDigits⟩
  exact ⟨"", toString n, by simp, .inl rfl, row, positive, bounded⟩

/-- How a flag is spelled. -/
inductive Flag.Spelled : Flag → String → Prop where
  | columns : Spelled .columns "--columns"
  | text : Spelled .text "--text"
  | checks : Spelled .checks "--ssa-checks"
  | feature {word : String} (some_text : word ≠ "") : Spelled (.feature word) ("--feature=" ++ word)
  | chunk {text : String} {size : Nat} (spelling : SizeSpelling text size) :
      Spelled (.chunk size) ("--chunk=" ++ text)

/-- The flags without a value. -/
def switches : List String := ["--columns", "--text", "--ssa-checks"]

/-- What is wrong with an argument that is no flag. -/
inductive Misuse.Blames : Misuse → String → Prop where
  | emptyFeature : Blames (.emptyFeature "--feature=") "--feature="
  | invalidChunkSize {text : String} (no_size : ∀ size, ¬SizeSpelling text size) :
      Blames (.invalidChunkSize text) ("--chunk=" ++ text)
  | unknownOption {argument : String}
      (no_switch : argument ∉ switches)
      (no_feature : ∀ word, argument ≠ "--feature=" ++ word)
      (no_chunk : ∀ text, argument ≠ "--chunk=" ++ text) :
      Blames (.unknownOption argument) argument

/-- The flags with one more. -/
def Flag.apply (flags : Flags) : Flag → Flags
  | .columns => { flags with columns := true }
  | .text => { flags with text := true }
  | .checks => { flags with checks := true }
  | .feature word => { flags with features := flags.features ++ [word] }
  | .chunk size => { flags with chunk := some size }

namespace Flag

/-- The word of a feature flag. -/
def word? : Flag → Option String
  | .feature word => some word
  | _ => none

/-- The size of a chunk flag. -/
def size? : Flag → Option Nat
  | .chunk size => some size
  | _ => none

end Flag

/-- What some flags come to: switches are on if they are given, feature words add up, and of the
chunk sizes the last counts. -/
structure Flags.Sums (flags : Flags) (given : List Flag) : Prop where
  columns : flags.columns = true ↔ .columns ∈ given
  text : flags.text = true ↔ .text ∈ given
  checks : flags.checks = true ↔ .checks ∈ given
  features : flags.features = given.filterMap Flag.word?
  chunk : flags.chunk = (given.filterMap Flag.size?).getLast?

namespace Flags

/-! ## One argument -/

theorem after?_eq_some_iff {lead text rest : List Char} :
    after? lead text = some rest ↔ text = lead ++ rest := by
  unfold after?
  constructor
  · intro found
    split at found
    · obtain ⟨behind, rfl⟩ := List.isPrefixOf_iff_prefix.mp ‹_›
      rw [Option.some.injEq, List.drop_left] at found
      rw [found]
    · cases found
  · rintro rfl
    simp

theorem after?_append (lead rest : String) :
    after? lead.toList (lead ++ rest).toList = some rest.toList := by
  rw [after?_eq_some_iff, String.toList_append]

theorem eq_append_of_after? {lead argument : String} {rest : List Char}
    (found : after? lead.toList argument.toList = some rest) :
    argument = lead ++ String.ofList rest := by
  rw [← String.toList_inj, String.toList_append, String.toList_ofList]
  exact after?_eq_some_iff.mp found

theorem decimal?_eq_some_iff {digits : List Char} {value : Nat} :
    decimal? digits = some value ↔ DecimalRow digits value := by
  have all : digits.all isDigit = true ↔ ∀ c ∈ digits, c.isDigit = true := by
    simp only [List.all_eq_true, isDigit_iff_char]
  unfold decimal?
  by_cases row : digits ≠ [] ∧ ∀ c ∈ digits, c.isDigit = true
  · obtain ⟨some_digit, each⟩ := row
    have valued : digitsValue 10 digits = Nat.ofDigitChars 10 digits 0 := foldl_digitValue each 0
    simp only [List.isEmpty_eq_false_iff.mpr some_digit, all.mpr each, valued, Bool.not_true,
      Bool.or_self, Bool.false_eq_true, ↓reduceIte, Option.some.injEq]
    exact ⟨fun value => ⟨some_digit, each, value⟩, fun row => row.value⟩
  · rw [if_pos]
    · constructor
      · intro wrong
        cases wrong
      · intro found
        exact absurd ⟨found.some_digit, found.all⟩ row
    · by_contra passes
      simp only [Bool.or_eq_true, List.isEmpty_iff, Bool.not_eq_true', not_or,
        Bool.not_eq_false, all] at passes
      exact row passes

theorem exists_unsigned (text : String) :
    ∃ sign digits : String, text = sign ++ digits ∧ (sign = "" ∨ sign = "+") ∧
      (after? ['+'] text.toList).getD text.toList = digits.toList := by
  cases signed : after? ['+'] text.toList with
  | none => exact ⟨"", text, by simp, .inl rfl, rfl⟩
  | some digits =>
    have split : text = "+" ++ String.ofList digits := eq_append_of_after? signed
    exact ⟨"+", String.ofList digits, split, .inr rfl, String.toList_ofList.symm⟩

theorem unsigned_of_row {sign digits : String} {value : Nat} (signed : sign = "" ∨ sign = "+")
    (row : DecimalRow digits.toList value) :
    (after? ['+'] (sign ++ digits).toList).getD (sign ++ digits).toList = digits.toList := by
  rcases signed with rfl | rfl
  · rw [String.empty_append]
    cases found : after? ['+'] digits.toList with
    | none => rfl
    | some rest =>
      rw [after?_eq_some_iff] at found
      have digit := row.all '+' (by simp [found])
      exact absurd digit (by decide)
  · have behind : after? ['+'] ("+" ++ digits).toList = some digits.toList :=
      after?_append "+" digits
    rw [behind, Option.getD_some]

theorem chunkSize?_eq_some_iff {text : String} {size : Nat} :
    chunkSize? text.toList = some size ↔ SizeSpelling text size := by
  unfold chunkSize?
  simp only [Option.filter_eq_some_iff, decimal?_eq_some_iff, Bool.and_eq_true, decide_eq_true_eq]
  constructor
  · rintro ⟨row, positive, bounded⟩
    obtain ⟨sign, digits, split, signed, unsigned⟩ := exists_unsigned text
    rw [unsigned] at row
    exact ⟨sign, digits, split, signed, row, positive, bounded⟩
  · rintro ⟨sign, digits, rfl, signed, row, positive, bounded⟩
    rw [unsigned_of_row signed row]
    exact ⟨row, positive, bounded⟩

theorem not_switch_iff {argument : String} :
    argument ∉ switches ↔
      argument ≠ "--columns" ∧ argument ≠ "--text" ∧ argument ≠ "--ssa-checks" := by
  simp [switches]

theorem append_not_switch (lead rest : String)
    (other : ∀ switch ∈ switches, ¬lead.toList <+: switch.toList) : lead ++ rest ∉ switches := by
  intro listed
  refine other _ listed ?_
  rw [String.toList_append]
  exact List.prefix_append _ _

theorem add_feature {word : String} (some_text : word ≠ "") (flags : Flags) :
    flags.add ("--feature=" ++ word) = .ok (Flag.apply flags (.feature word)) := by
  obtain ⟨columns, text, checks⟩ :=
    not_switch_iff.mp (append_not_switch "--feature=" word (by decide))
  obtain ⟨c, rest, letters⟩ := List.exists_cons_of_ne_nil (mt String.toList_eq_nil_iff.mp some_text)
  have behind := after?_append "--feature=" word
  rw [letters] at behind
  simp only [add, columns, text, checks, ↓reduceIte, behind]
  rw [← letters, String.ofList_toList]
  rfl

theorem add_chunk_text (flags : Flags) (size : String) :
    flags.add ("--chunk=" ++ size) =
      match chunkSize? size.toList with
      | some n => .ok (Flag.apply flags (.chunk n))
      | none => .error (.invalidChunkSize size) := by
  obtain ⟨columns, text, checks⟩ :=
    not_switch_iff.mp (append_not_switch "--chunk=" size (by decide))
  have no_feature : after? "--feature=".toList ("--chunk=" ++ size).toList = none := by
    rw [String.toList_append]
    rfl
  simp only [add, columns, text, checks, ↓reduceIte, no_feature, after?_append,
    String.ofList_toList]
  rfl

theorem add_of_spelled {flag : Flag} {argument : String} (spelled : flag.Spelled argument)
    (flags : Flags) : flags.add argument = .ok (flag.apply flags) := by
  cases spelled with
  | columns | text | checks => rfl
  | feature some_text => exact add_feature some_text flags
  | @chunk text size spelling =>
    rw [add_chunk_text, chunkSize?_eq_some_iff.mpr spelling]

theorem add_of_blamed {problem : Misuse} {argument : String} (blamed : problem.Blames argument)
    (flags : Flags) : flags.add argument = .error problem := by
  cases blamed with
  | emptyFeature => rfl
  | @invalidChunkSize text no_size =>
    have none_found : chunkSize? text.toList = none := by
      rw [Option.eq_none_iff_forall_ne_some]
      intro size found
      exact no_size size (chunkSize?_eq_some_iff.mp found)
    rw [add_chunk_text, none_found]
  | unknownOption no_switch no_feature no_chunk =>
    have not_behind {lead : String} (other : ∀ rest, argument ≠ lead ++ rest) :
        after? lead.toList argument.toList = none := by
      rw [Option.eq_none_iff_forall_ne_some]
      intro rest found
      exact other _ (eq_append_of_after? found)
    obtain ⟨columns, text, checks⟩ := not_switch_iff.mp no_switch
    simp only [add, columns, text, checks, ↓reduceIte, not_behind no_feature, not_behind no_chunk]

theorem spelled_or_blamed (argument : String) :
    (∃ flag : Flag, flag.Spelled argument) ∨ ∃ problem : Misuse, problem.Blames argument := by
  by_cases switch : argument ∈ switches
  · simp only [switches, List.mem_cons, List.not_mem_nil, or_false] at switch
    rcases switch with rfl | rfl | rfl
    · exact .inl ⟨_, .columns⟩
    · exact .inl ⟨_, .text⟩
    · exact .inl ⟨_, .checks⟩
  by_cases feature : ∃ word, argument = "--feature=" ++ word
  · obtain ⟨word, rfl⟩ := feature
    by_cases nothing : word = ""
    · subst nothing
      exact .inr ⟨_, .emptyFeature⟩
    · exact .inl ⟨_, .feature nothing⟩
  by_cases chunk : ∃ text, argument = "--chunk=" ++ text
  · obtain ⟨text, rfl⟩ := chunk
    by_cases sized : ∃ size, SizeSpelling text size
    · obtain ⟨size, spelling⟩ := sized
      exact .inl ⟨_, .chunk spelling⟩
    · exact .inr ⟨_, .invalidChunkSize (not_exists.mp sized)⟩
  exact .inr ⟨_, .unknownOption switch (not_exists.mp feature) (not_exists.mp chunk)⟩

/-! ## All arguments -/

theorem Sums.unset : Flags.unset.Sums [] :=
  ⟨by simp [Flags.unset], by simp [Flags.unset], by simp [Flags.unset], rfl, rfl⟩

/-- One more flag. -/
theorem Sums.apply {flags : Flags} {given : List Flag} (sums : flags.Sums given) (flag : Flag) :
    (flag.apply flags).Sums (given ++ [flag]) := by
  obtain ⟨columns, text, checks, features, chunk⟩ := sums
  cases flag with
  | columns | text | checks | feature word | chunk size =>
    constructor <;>
      simp [Flag.apply, Flag.word?, Flag.size?, columns, text, checks, features, chunk]

theorem Sums.unique {flags others : Flags} {given : List Flag} (these : flags.Sums given)
    (those : others.Sums given) : flags = others := by
  have columns : flags.columns = others.columns :=
    Bool.eq_iff_iff.mpr (these.columns.trans those.columns.symm)
  have text : flags.text = others.text := Bool.eq_iff_iff.mpr (these.text.trans those.text.symm)
  have checks : flags.checks = others.checks :=
    Bool.eq_iff_iff.mpr (these.checks.trans those.checks.symm)
  have features := these.features.trans those.features.symm
  have chunk := these.chunk.trans those.chunk.symm
  obtain ⟨_, _, _, _, _⟩ := flags
  obtain ⟨_, _, _, _, _⟩ := others
  simp_all only

theorem exists_sums {given : List Flag} {arguments : List String}
    (spelled : List.Forall₂ Flag.Spelled given arguments) :
    ∃ flags, ofArguments arguments = .ok flags ∧ flags.Sums given := by
  have added (before : List Flag) (flags : Flags) (sums : flags.Sums before) :
      ∃ later, arguments.foldlM add flags = .ok later ∧ later.Sums (before ++ given) := by
    induction spelled generalizing before flags with
    | nil => exact ⟨flags, rfl, by simpa using sums⟩
    | @cons flag argument given arguments here _ ih =>
      obtain ⟨later, found, total⟩ := ih (before ++ [flag]) (flag.apply flags) (sums.apply flag)
      refine ⟨later, ?_, by simpa using total⟩
      rw [List.foldlM_cons, add_of_spelled here]
      exact found
  obtain ⟨flags, found, sums⟩ := added [] unset .unset
  exact ⟨flags, found, sums⟩

theorem ofArguments_of_blamed {given : List Flag} {front : List String} {bad : String}
    {problem : Misuse} (spelled : List.Forall₂ Flag.Spelled given front)
    (blamed : problem.Blames bad) (behind : List String) :
    ofArguments (front ++ bad :: behind) = .error problem := by
  obtain ⟨flags, found, -⟩ := exists_sums spelled
  rw [ofArguments] at found ⊢
  rw [List.foldlM_append, found]
  change (bad :: behind).foldlM add flags = _
  rw [List.foldlM_cons, add_of_blamed blamed]
  rfl

theorem exists_given_iff {arguments : List String} :
    (∃ given, List.Forall₂ Flag.Spelled given arguments) ↔
      ∀ argument ∈ arguments, ∃ flag : Flag, flag.Spelled argument := by
  constructor
  · rintro ⟨given, spelled⟩
    induction spelled with
    | nil => exact fun argument listed => absurd listed List.not_mem_nil
    | cons here _ ih => exact List.forall_mem_cons.mpr ⟨⟨_, here⟩, ih⟩
  · intro all
    induction arguments with
    | nil => exact ⟨[], .nil⟩
    | cons argument arguments ih =>
      obtain ⟨⟨flag, here⟩, later⟩ := List.forall_mem_cons.mp all
      obtain ⟨given, spelled⟩ := ih later
      exact ⟨flag :: given, .cons here spelled⟩

/-- All arguments are flags, or one of them is the first that is none. -/
theorem given_or_blamed (arguments : List String) :
    (∃ given, List.Forall₂ Flag.Spelled given arguments) ∨
      ∃ given front bad behind problem, arguments = front ++ bad :: behind ∧
        List.Forall₂ Flag.Spelled given front ∧ Misuse.Blames problem bad := by
  rcases all_or_first (fun argument => ∃ flag : Flag, flag.Spelled argument) arguments with
    all | ⟨front, bad, behind, split, before, none_here⟩
  · exact .inl (exists_given_iff.mpr all)
  · obtain ⟨given, spelled⟩ := exists_given_iff.mpr before
    obtain ⟨problem, blamed⟩ := (spelled_or_blamed bad).resolve_left none_here
    exact .inr ⟨given, front, bad, behind, problem, split, spelled, blamed⟩

theorem ofArguments_eq_ok_iff {arguments : List String} {flags : Flags} :
    ofArguments arguments = .ok flags ↔
      ∃ given, List.Forall₂ Flag.Spelled given arguments ∧ flags.Sums given := by
  constructor
  · intro found
    rcases given_or_blamed arguments with
      ⟨given, spelled⟩ | ⟨given, front, bad, behind, problem, rfl, spelled, blamed⟩
    · obtain ⟨others, also, sums⟩ := exists_sums spelled
      obtain rfl := Except.ok.inj (also.symm.trans found)
      exact ⟨given, spelled, sums⟩
    · rw [ofArguments_of_blamed spelled blamed] at found
      cases found
  · rintro ⟨given, spelled, sums⟩
    obtain ⟨others, found, also⟩ := exists_sums spelled
    rw [found, also.unique sums]

theorem ofArguments_eq_error_iff {arguments : List String} {problem : Misuse} :
    ofArguments arguments = .error problem ↔
      ∃ given front bad behind, arguments = front ++ bad :: behind ∧
        List.Forall₂ Flag.Spelled given front ∧ problem.Blames bad := by
  constructor
  · intro found
    rcases given_or_blamed arguments with
      ⟨given, spelled⟩ | ⟨given, front, bad, behind, other, rfl, spelled, blamed⟩
    · obtain ⟨flags, also, -⟩ := exists_sums spelled
      cases also.symm.trans found
    · rw [ofArguments_of_blamed spelled blamed] at found
      obtain rfl := Except.error.inj found
      exact ⟨given, front, bad, behind, rfl, spelled, blamed⟩
  · rintro ⟨given, front, bad, behind, rfl, spelled, blamed⟩
    exact ofArguments_of_blamed spelled blamed behind

end Flags

end CommandLine

end ErlangLexer
