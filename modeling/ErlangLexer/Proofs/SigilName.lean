import ErlangLexer.Proofs.NameReading

/-!
# The names of sigils

A tilde and a name stand in front of the string of a sigil, and a name that may be empty behind
it:

* `SigilName`: the names that a sigil may have;
* `keepsBackslashes`: those of which the string is verbatim;
* `State.run_sigilPrefix`, `State.run_sigilSuffix`: a scan reads them;
* `State.atString`: a scan in front of a double quote, which opens a string with or without a
  sigil (`State.run_atString`).
-/

namespace ErlangLexer

/-- The name of a sigil, which may be empty. -/
structure SigilName (name : List Char) : Prop where
  continues : ∀ c ∈ name, continuesName c = true
  short : name.length ≤ maxNameLength

theorem SigilName.of_letter {c : Char} (continues : continuesName c = true) : SigilName [c] :=
  ⟨List.forall_mem_singleton.mpr continues, Nat.le_of_ble_eq_true rfl⟩

/-- Backslashes are plain text in the string of a sigil with this name. -/
def keepsBackslashes (name : List Char) : Bool :=
  !(name == ['s'] || name == ['b'])

/-- The source text of a sigil in front of its string. -/
def sigilSource : Option (List Char) → List Char
  | none => []
  | some name => '~' :: name

theorem isVerbatim_ofList (start : Location) (role : NameRole) (name : List Char) :
    NameDraft.isVerbatim ⟨start, role, String.ofList name⟩ = keepsBackslashes name := by
  have same (letter : Char) :
      (String.ofList name == String.ofList [letter]) = (name == [letter]) := by
    rw [Bool.eq_iff_iff, beq_iff_eq, beq_iff_eq]
    exact ⟨fun same => String.ofList_injective same, congrArg String.ofList⟩
  have s := same 's'
  have b := same 'b'
  exact congrArg Bool.not (congrArg₂ Bool.or s b)

namespace State

variable {options : Options} {extent : Extent} {state : State}

/-- A tilde and a name in front of a delimiter. -/
theorem run_sigilPrefix {name : List Char} (valid : SigilName name)
    (mode : state.mode = .between) {opening : Char} (ends : continuesName opening = false)
    (rest : List Char) :
    state.run options extent true ('~' :: (name ++ opening :: rest)) =
      { state.behindToken options (.sigilPrefix (String.ofList name)) ('~' :: name) with
        mode := .sigil ⟨state.location, keepsBackslashes name⟩ }.run options extent true
          (opening :: rest) := by
  have next : state.behindName .sigilPrefix name =
      .sigil ⟨state.location, keepsBackslashes name⟩ :=
    congrArg (fun verbatim => Mode.sigil ⟨state.location, verbatim⟩)
      (isVerbatim_ofList state.location .sigilPrefix name)
  have ends' : ∀ c, (opening :: rest).head? = some c → continuesName c = false := by
    rintro c ⟨⟩
    exact ends
  rw [run_tilde mode, run_withinName valid.continues, List.nil_append,
    run_behind_name ends' (.inr rfl), past_short_name valid.short, next]
  rfl

/-- In front of a string, behind the name of the sigil of which it may be the string. -/
def atString (options : Options) (state : State) : Option (List Char) → State
  | none => state
  | some name =>
    { state.behindToken options (.sigilPrefix (String.ofList name)) ('~' :: name) with
      mode := .sigil ⟨state.location, keepsBackslashes name⟩ }

/-- The sigil of which a string may be the string. -/
def sigilOf (state : State) (name : Option (List Char)) : Option Sigil :=
  name.map fun name => ⟨state.location, keepsBackslashes name⟩

theorem location_atString (options : Options) (state : State) (name : Option (List Char)) :
    (state.atString options name).location = state.location.walk (sigilSource name) := by
  cases name <;> rfl

theorem move_atString (mode : state.mode = .between) (name : Option (List Char))
    (text : List Char) :
    (state.atString options name).move options true ('"' :: text) =
      QuoteRun.move (state.atString options name).location (state.sigilOf name) ('"' :: text)
        true := by
  cases name with
  | none =>
    rw [atString, move, mode]
    rfl
  | some name => rfl

/-- The sigil of a string is read. -/
theorem run_atString {name : Option (List Char)} (valid : ∀ n ∈ name, SigilName n)
    (mode : state.mode = .between) (rest : List Char) :
    state.run options extent true (sigilSource name ++ '"' :: rest) =
      (state.atString options name).run options extent true ('"' :: rest) := by
  cases name with
  | none => rfl
  | some name => exact run_sigilPrefix (valid name rfl) mode (by decide) rest

/-- Behind a string there is no more of its sigil. -/
theorem run_sigilSuffix {behind : List Char} (quoted : Bool)
    (ends : ∀ c, behind.head? = some c → continuesName c = false) :
    { state with mode := .name ⟨state.location, .sigilSuffix quoted, ""⟩ }.run options extent true
        behind =
      { state.behindToken options (.sigilSuffix "") [] with
        mode := if quoted then .afterString else .between }.run options extent true behind := by
  have next : state.behindName (.sigilSuffix quoted) [] =
      if quoted then .afterString else .between := by
    cases quoted <;> rfl
  have named : (state.withinName (.sigilSuffix quoted) []).run options extent true behind = _ :=
    run_behind_name ends (.inr rfl)
  rw [past_short_name (Nat.zero_le _), next] at named
  exact named

theorem run_afterString_nil :
    { state with mode := .afterString }.run options extent true [] =
      { state with mode := .between }.run options extent true [] := by
  rw [run_eq]
  rfl

end State

end ErlangLexer
