import ErlangLexer.Proofs.AllText
import ErlangLexer.Proofs.Beginnings
import ErlangLexer.Proofs.NameReading

/-!
# Names are read as a whole

A name is the longest run of its characters, and there is one limit to its length for all names:

* `FrontsName`: where a name starts, which for a sigil may have no characters;
* `State.closes_sigil`: behind the string of a sigil there always comes one;
* `FrontsName.enters`: in front of a name a scan collects its characters;
* `FrontsName.names_as_long_as_they_go`: so every scan reads all of a name, however its text is
  cut.
-/

namespace ErlangLexer

/-! ## What stands in front of a name -/

theorem isBlank_of_isLower {c : Char} (lower : isLower c = true) :
    isBlank c = false ∧ isDigit c = false := by
  have below : c.toNat < 256 := by
    simp only [isLower, Bool.or_eq_true, Bool.and_eq_true, decide_eq_true_eq] at lower
    rcases lower with ⟨-, ascii⟩ | ⟨⟨-, latin⟩, -⟩
    · exact Nat.lt_of_le_of_lt ascii (by decide)
    · exact Nat.lt_of_le_of_lt latin (by decide)
  exact of_code_lt (p := fun c => isLower c = true → isBlank c = false ∧ isDigit c = false)
    (by decide +kernel) below lower

theorem isBlank_of_startsVariable {c : Char} (starts : startsVariable c = true) :
    isBlank c = false ∧ isDigit c = false ∧ isLower c = false := by
  have below : c.toNat < 256 := by
    simp only [startsVariable, isUpper, Bool.or_eq_true, Bool.and_eq_true, decide_eq_true_eq,
      beq_iff_eq] at starts
    rcases starts with rfl | ⟨-, ascii⟩ | ⟨⟨-, latin⟩, -⟩
    · decide
    · exact Nat.lt_of_le_of_lt ascii (by decide)
    · exact Nat.lt_of_le_of_lt latin (by decide)
  exact of_code_lt
    (p := fun c => startsVariable c = true →
      isBlank c = false ∧ isDigit c = false ∧ isLower c = false)
    (by decide +kernel) below starts

/-- A scan of the source comes to a place where a name starts: it is in front of the sign of the
name and of the text behind, and what may be illegal about the name tells the kinds of names. -/
inductive FrontsName (options : Options) (extent : Extent) (origin : Location)
    (source : List Char) : State → List Char → List Char → Illegal → Prop where
  | atom {state : State} {c : Char} {rest : List Char}
      (reached : State.Reached options extent true origin source state (c :: rest))
      (mode : state.mode = .between) (lower : isLower c = true) :
      FrontsName options extent origin source state [] (c :: rest) .atom
  | capital {state : State} {c : Char} {rest : List Char}
      (reached : State.Reached options extent true origin source state (c :: rest))
      (mode : state.mode = .between) (starts : startsVariable c = true) :
      FrontsName options extent origin source state [] (c :: rest) .variable
  /-- The tilde is the sign of the name in front of a string. -/
  | sigilPrefix {state : State} {rest : List Char}
      (reached : State.Reached options extent true origin source state ('~' :: rest))
      (mode : state.mode = .between) :
      FrontsName options extent origin source state ['~'] rest .sigilPrefix
  /-- Directly behind the closing delimiter, with which the string of a sigil becomes a token. -/
  | sigilSuffix {earlier : State} {text : List Char} {width : Nat} {kind : Kind}
      {lexeme : Lexeme} {next : Mode}
      (reached : State.Reached options extent true origin source earlier text)
      (within : earlier.mode.stage = .behindPrefix)
      (closes : earlier.move options true text = .emit width kind lexeme next) :
      FrontsName options extent origin source
        ((earlier.record options kind lexeme).read text width next) [] (text.drop width)
        .sigilSuffix

namespace State

variable {options : Options} {extent : Extent} {ended : Bool} {state : State} {role : NameRole}

/-! ## Into a name -/

theorem run_letter {c : Char} {text : List Char} (sign : role.sign = [])
    (step : state.move options ended (c :: text) =
      .read 1 (.name ⟨state.location, role, c.toString⟩)) :
    state.run options extent ended (c :: text) =
      (state.withinName role [c]).run options extent ended text := by
  have named : c.toString = String.ofList [c] := by
    rw [← String.toList_inj]
    simp
  have first : state.read (c :: text) 1 (.name ⟨state.location, role, c.toString⟩) =
      state.withinName role [c] := by
    simp only [read, withinName, sign, named, List.take_succ_cons, List.take_zero, List.nil_append]
  rw [run_eq, step]
  simp only [first, List.drop_succ_cons, List.drop_zero]

theorem move_of_isLower (mode : state.mode = .between) {c : Char} (lower : isLower c = true)
    (ended : Bool) (text : List Char) : state.move options ended (c :: text) =
      .read 1 (.name ⟨state.location, .atom, c.toString⟩) := by
  obtain ⟨blank, digit⟩ := isBlank_of_isLower lower
  simp only [move, mode, Between.move, blank, digit, lower, Bool.false_eq_true, ↓reduceIte]

theorem move_of_startsVariable (mode : state.mode = .between) {c : Char}
    (starts : startsVariable c = true) (ended : Bool) (text : List Char) :
    state.move options ended (c :: text) =
      .read 1 (.name ⟨state.location, .variable, c.toString⟩) := by
  obtain ⟨blank, digit, lower⟩ := isBlank_of_startsVariable starts
  simp only [move, mode, Between.move, blank, digit, lower, starts, Bool.false_eq_true, ↓reduceIte]

/-- What ends the string of a sigil is a string, and the name behind it comes next. -/
theorem closes_sigil {text : List Char} {width : Nat} {kind : Kind} {lexeme : Lexeme} {next : Mode}
    (within : state.mode.stage = .behindPrefix)
    (closes : state.move options ended text = .emit width kind lexeme next) :
    ∃ value quoted start, kind = .string value ∧ next = .name ⟨start, .sigilSuffix quoted, ""⟩ := by
  obtain ⟨location, tokens, checking, mode⟩ := state
  cases completes_of_emit closes with
  | sigilString | emptySigil | tripleQuotedSigil => exact ⟨_, _, _, rfl, rfl⟩
  | char | emptyString | checkOpen | checkClose | dot | operator | symbol | number => cases within
  | name draft =>
    obtain ⟨start, role, name⟩ := draft
    cases role <;> cases within
  | quotedAtom atom => simp [Mode.stage, atom, Quotation.stage] at within
  | string string => simp [Mode.stage, string, Quotation.stage] at within
  | tripleQuoted plain => simp [Mode.stage, plain, Sigil.stage] at within

theorem Reached.behind_sigil {origin : Location} {source text : List Char} {width : Nat}
    {kind : Kind} {lexeme : Lexeme} {next : Mode}
    (reached : Reached options extent ended origin source state text)
    (within : state.mode.stage = .behindPrefix)
    (closes : state.move options ended text = .emit width kind lexeme next) :
    ∃ quoted, ((state.record options kind lexeme).read text width next).withinName
      (.sigilSuffix quoted) [] = (state.record options kind lexeme).read text width next := by
  obtain ⟨value, quoted, start, rfl, rfl⟩ := closes_sigil within closes
  obtain ⟨before, held, amid, -⟩ := reached.amid
  have holds := (amid.keeps closes (by simp) (by simp)).2
  obtain rfl : state.location.walk (text.take width) = start := congrArg Lexeme.start holds
  exact ⟨quoted, rfl⟩

end State

namespace FrontsName

variable {options : Options} {extent : Extent} {origin : Location} {source : List Char}
  {state : State} {sign name rest : List Char} {what : Illegal}

/-- A scan collects the characters of a name in front of it, as far as they are there. -/
def Enters (options : Options) (extent : Extent) (state : State) (role : NameRole)
    (name : List Char) : Prop :=
  ∀ ended part more, part <+: name → part = name ∨ role.sign ++ part ≠ [] →
    state.run options extent ended (role.sign ++ (part ++ more)) =
      (state.withinName role part).run options extent ended more

theorem enters_letter {role : NameRole} {c : Char} {behind : List Char} (sign : role.sign = [])
    (letter : continuesName c = true)
    (step : ∀ ended text, state.move options ended (c :: text) =
      .read 1 (.name ⟨state.location, role, c.toString⟩))
    (split : c :: behind = name ++ rest) (whole : ∀ c ∈ name, continuesName c = true)
    (ends : ∀ c, rest.head? = some c → continuesName c = false) :
    Enters options extent state role name := by
  obtain ⟨later, rfl⟩ : ∃ later, name = c :: later := by
    cases name with
    | nil =>
      have other := ends c (by rw [← List.nil_append rest, ← split]; rfl)
      rw [letter] at other
      cases other
    | cons d later => exact ⟨later, by rw [(List.cons.inj split).1]⟩
  intro ended part more front some
  rw [sign, List.nil_append] at some ⊢
  cases part with
  | nil => exact absurd rfl (some.elim (fun same => absurd same (List.cons_ne_nil c later).symm) id)
  | cons d part =>
    obtain ⟨rfl, behind⟩ := List.cons_prefix_cons.mp front
    have continues (e : Char) (listed : e ∈ part) : continuesName e = true :=
      whole e (List.mem_cons_of_mem _ (behind.subset listed))
    rw [List.cons_append, State.run_letter sign (step ended _), State.run_withinName continues]
    rfl

theorem enters_of_withinName {role : NameRole} (sign : role.sign = [])
    (same : state.withinName role [] = state) (whole : ∀ c ∈ name, continuesName c = true) :
    state.run options extent false [] = .suspended state [] ∧
      Enters options extent state role name := by
  constructor
  · have waits : (state.withinName role []).run options extent false [] = _ :=
      state.run_withinName_nothing role []
    rwa [same] at waits
  · intro ended part more front _
    have continues (c : Char) (listed : c ∈ part) := whole c (front.subset listed)
    have run : (state.withinName role []).run options extent ended (part ++ more) = _ :=
      State.run_withinName continues more
    rw [same, List.nil_append] at run
    rw [sign, List.nil_append]
    exact run

/-- Where a name starts a scan enters it, and without any text it waits there. -/
theorem enters (front : FrontsName options extent origin source state sign (name ++ rest) what)
    (whole : ∀ c ∈ name, continuesName c = true)
    (ends : ∀ c, rest.head? = some c → continuesName c = false) :
    ∃ role : NameRole, role.illegal = what ∧ role.sign = sign ∧
      State.Reached options extent true origin source state (sign ++ (name ++ rest)) ∧
      state.run options extent false [] = .suspended state [] ∧
      Enters options extent state role name := by
  have waits (mode : state.mode = .between) :
      state.run options extent false [] = .suspended state [] := by
    have step : state.move options false [] = .wait := by
      rw [State.move, mode]
      rfl
    rw [State.run_eq, step]
  generalize split : name ++ rest = behind at front
  cases front with
  | atom reached mode lower =>
    exact ⟨.atom, rfl, rfl, reached, waits mode, enters_letter rfl (continuesName_of_isLower lower)
      (State.move_of_isLower mode lower) split.symm whole ends⟩
  | capital reached mode starts =>
    exact ⟨.variable, rfl, rfl, reached, waits mode,
      enters_letter rfl (continuesName_of_startsVariable starts)
        (State.move_of_startsVariable mode starts) split.symm whole ends⟩
  | sigilPrefix reached mode =>
    refine ⟨.sigilPrefix, rfl, rfl, reached, waits mode, ?_⟩
    intro ended part more front _
    have continues (c : Char) (listed : c ∈ part) := whole c (front.subset listed)
    exact (State.run_tilde mode _).trans (State.run_withinName continues more)
  | sigilSuffix reached within closes =>
    obtain ⟨value, -, -, string, -⟩ := State.closes_sigil within closes
    have later := reached.emit closes (fun dot => by rw [string] at dot; cases dot.1)
    obtain ⟨quoted, same⟩ := reached.behind_sigil within closes
    exact ⟨.sigilSuffix quoted, rfl, rfl, later, enters_of_withinName rfl same whole⟩

/-- **Names are read as long as they go.** Where a name starts, a scan of a source reads the
longest run of name characters, and nothing of it is a token before its end is seen. A name of at
most 255 characters is one token, and the scan goes on behind it; a longer one is an error where
the name starts, and all of it is read. So whatever chunks the source comes in, what they show is
what the reading of the name shows. -/
theorem names_as_long_as_they_go
    (front : FrontsName options extent origin source state sign (name ++ rest) what)
    (whole : ∀ c ∈ name, continuesName c = true)
    (ends : ∀ c, rest.head? = some c → continuesName c = false) :
    ∃ role : NameRole, role.illegal = what ∧ role.sign = sign ∧
      (State.fresh origin).run options extent true source =
        state.past options extent true (sign ++ (name ++ rest)) (state.behindName role name)
          (role.reading options name) ∧
      (∀ seen unseen, rest = seen ++ unseen → seen ≠ [] →
        state.run options extent false (sign ++ (name ++ seen)) =
          state.past options extent false (sign ++ (name ++ seen)) (state.behindName role name)
            (role.reading options name)) ∧
      (∀ seen unseen, sign ++ name = seen ++ unseen →
        ∃ later, state.run options extent false seen = .suspended later [] ∧
          later.tokens = state.tokens) ∧
      (extent = .form → ∀ queue : List (List Char), queue.flatten = source →
        (Suspension.start options origin).found queue =
          Suspension.foundPast options state (sign ++ (name ++ rest)) (state.behindName role name)
            (role.reading options name)) := by
  obtain ⟨role, illegal, rfl, reached, waits, enters⟩ := front.enters whole ends
  have run : state.run options extent true (role.sign ++ (name ++ rest)) = _ :=
    (enters true name rest (List.prefix_refl name) (.inl rfl)).trans
      (State.run_behind_name ends (.inr rfl))
  refine ⟨role, illegal, rfl, reached.run_eq.trans run, ?_, ?_, ?_⟩
  · rintro seen unseen rfl behind
    have ends' (c : Char) (first : seen.head? = some c) : continuesName c = false := by
      refine ends c ?_
      rw [List.head?_append, first]
      rfl
    exact (enters false name seen (List.prefix_refl name) (.inl rfl)).trans
      (State.run_behind_name ends' (.inl behind))
  · intro seen unseen split
    by_cases none : seen = []
    · subst none
      exact ⟨state, waits, rfl⟩
    · obtain ⟨part, rfl, front⟩ := NameRole.exists_part ⟨unseen, split.symm⟩ none
      have collected := enters false part [] front (.inr none)
      rw [List.append_nil] at collected
      exact ⟨_, collected.trans (state.run_withinName_nothing role part), rfl⟩
  · rintro rfl queue rfl
    refine Suspension.found_of_past ?_
    rw [Suspension.ahead_of_reached reached]
    exact run

/-- An atom of two characters in two chunks, and a name of 256 characters behind the tilde of a
sigil, which is cut behind 200 of them. -/
theorem atom_across_chunks :
    FrontsName default .form .start ['a', 'b', '.'] (.fresh .start) [] ['a', 'b', '.'] .atom ∧
      (Suspension.start default .start).found [['a'], ['b', '.']] =
        Suspension.foundPast default (.fresh .start) ['a', 'b', '.'] .between
          (.token (.atom "ab") 2) ∧
    FrontsName default .form ⟨1, some 1⟩ ('~' :: (List.replicate 256 'a' ++ ['[']))
        (.fresh ⟨1, some 1⟩) ['~'] (List.replicate 256 'a' ++ ['[']) .sigilPrefix ∧
      (Suspension.start default ⟨1, some 1⟩).found
          ['~' :: List.replicate 200 'a', List.replicate 56 'a' ++ ['[']] =
        .error ⟨⟨1, some 1⟩, .illegal .sigilPrefix⟩ ⟨1, some 258⟩ ::
          (Suspension.start default ⟨1, some 258⟩).found [['[']] := by
  have front : FrontsName default .form .start ['a', 'b', '.'] (.fresh .start) []
      (['a', 'b'] ++ ['.']) .atom := .atom .start rfl (by decide)
  have whole : ∀ c ∈ ['a', 'b'], continuesName c = true := List.all_eq_true.mp (by decide)
  have ends : ∀ c, ['.'].head? = some c → continuesName c = false := by
    rintro c ⟨⟩
    decide
  obtain ⟨role, illegal, -, -, -, -, found⟩ := names_as_long_as_they_go front whole ends
  obtain rfl : role = .atom := by cases role <;> first | rfl | cases illegal
  have reading : NameRole.atom.reading default ['a', 'b'] = .token (.atom "ab") 2 := by decide
  rw [reading] at found
  have tilde : FrontsName default .form ⟨1, some 1⟩ ('~' :: (List.replicate 256 'a' ++ ['[']))
      (.fresh ⟨1, some 1⟩) ['~'] (List.replicate 256 'a' ++ ['[']) .sigilPrefix :=
    .sigilPrefix .start rfl
  have letters : ∀ c ∈ List.replicate 256 'a', continuesName c = true := by
    intro c listed
    rw [List.eq_of_mem_replicate listed]
    decide
  have delimited : ∀ c, ['['].head? = some c → continuesName c = false := by
    rintro c ⟨⟩
    decide
  obtain ⟨prefixed, wrong, -, -, -, -, told⟩ := names_as_long_as_they_go tilde letters delimited
  obtain rfl : prefixed = .sigilPrefix := by cases prefixed <;> first | rfl | cases wrong
  have long : NameRole.sigilPrefix.reading default (List.replicate 256 'a') =
      .wrong (.illegal .sigilPrefix) 257 := by
    rw [NameRole.reading, List.length_append, List.length_replicate]
    rfl
  have cut : ['~' :: List.replicate 200 'a', List.replicate 56 'a' ++ ['[']].flatten =
      '~' :: (List.replicate 256 'a' ++ ['[']) := by decide +kernel
  have finish : Location.walk ⟨1, some 1⟩
      (('~' :: (List.replicate 256 'a' ++ ['['])).take 257) = ⟨1, some 258⟩ := by decide +kernel
  have behind : ('~' :: (List.replicate 256 'a' ++ ['['])).drop 257 = ['['] := by decide +kernel
  have error := told rfl _ cut
  rw [long] at error
  simp only [Suspension.foundPast, State.fresh, List.singleton_append, finish,
    behind] at error
  exact ⟨front, found rfl _ rfl, tilde, error⟩

end FrontsName

end ErlangLexer
