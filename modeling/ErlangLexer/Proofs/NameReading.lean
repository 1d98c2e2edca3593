import ErlangLexer.Proofs.Readings

/-!
# What a name comes to

A scan collects the characters of a name one by one. In front of another character, or at the end
of the text, the name is a token if it is short enough, and an error otherwise:

* `NameRole.reading`: what a name comes to;
* `State.withinName`: a scan that has read some characters of a name;
* `State.run_withinName`: it reads the others;
* `State.run_behind_name`: and the name comes to what its reading says.
-/

namespace ErlangLexer

theorem ofList_push (text : List Char) (c : Char) :
    (String.ofList text).push c = String.ofList (text ++ [c]) := by
  rw [← String.toList_inj]
  simp

namespace NameRole

/-- What stands in front of the characters of a name. -/
def sign : NameRole → List Char
  | .sigilPrefix => ['~']
  | _ => []

/-- The token of a name. -/
def token (options : Options) (name : String) : NameRole → Kind
  | .atom => if options.reserved.holds name then .reserved name else .atom name
  | .variable => .variable name
  | .sigilPrefix => .sigilPrefix name
  | .sigilSuffix _ => .sigilSuffix name

/-- What a name comes to: it has at most 255 characters. -/
def reading (options : Options) (role : NameRole) (name : List Char) : Reading :=
  let width := (role.sign ++ name).length
  if name.length ≤ 255 then .token (role.token options (String.ofList name)) width
  else .wrong (.illegal role.illegal) width

/-- Some of a name and its sign is the sign and some of the name, for the sign is no more than one
character. -/
theorem exists_part {role : NameRole} {name seen : List Char} (front : seen <+: role.sign ++ name)
    (some : seen ≠ []) : ∃ part, seen = role.sign ++ part ∧ part <+: name := by
  cases role with
  | sigilPrefix =>
    cases seen with
    | nil => exact absurd rfl some
    | cons c part =>
      obtain ⟨rfl, behind⟩ := List.cons_prefix_cons.mp front
      exact ⟨part, rfl, behind⟩
  | _ => exact ⟨seen, rfl, front⟩

theorem token_ne_dot (options : Options) (name : String) (role : NameRole) :
    role.token options name ≠ .dot := by
  cases role with
  | atom =>
    simp only [token]
    split <;> simp
  | _ => simp [token]

end NameRole

namespace NameDraft

theorem kind_eq_token (options : Options) (draft : NameDraft) :
    draft.kind options = draft.role.token options draft.name := by
  unfold kind NameRole.token
  cases draft.role <;> rfl

theorem source_ofList (start : Location) (role : NameRole) (name : List Char) :
    source ⟨start, role, String.ofList name⟩ = String.ofList (role.sign ++ name) := by
  rw [← String.toList_inj]
  cases role <;> simp [source, NameRole.sign]

end NameDraft

namespace State

variable {options : Options} {extent : Extent} {ended : Bool} {state : State} {role : NameRole}
  {name rest : List Char}

/-- In front of a name, when some characters of it are read. -/
def withinName (state : State) (role : NameRole) (name : List Char) : State :=
  { state with
    location := state.location.walk (role.sign ++ name)
    mode := .name ⟨state.location, role, String.ofList name⟩ }

/-- The mode behind a name. -/
def behindName (state : State) (role : NameRole) (name : List Char) : Mode :=
  NameDraft.next ⟨state.location, role, String.ofList name⟩

/-- The characters of a name are read. -/
theorem run_withinName {front : List Char} (continues : ∀ c ∈ name, continuesName c = true)
    (rest : List Char) :
    (state.withinName role front).run options extent ended (name ++ rest) =
      (state.withinName role (front ++ name)).run options extent ended rest := by
  induction name generalizing front with
  | nil => rw [List.append_nil, List.nil_append]
  | cons c name ih =>
    have step : (state.withinName role front).move options ended (c :: (name ++ rest)) =
        .read 1 (.name ⟨state.location, role, (String.ofList front).push c⟩) :=
      if_pos (continues c List.mem_cons_self)
    have later : (state.withinName role front).read (c :: (name ++ rest)) 1
        (.name ⟨state.location, role, (String.ofList front).push c⟩) =
          state.withinName role (front ++ [c]) := by
      simp only [read, withinName, ofList_push, ← List.append_assoc, Location.walk_append]
      rfl
    rw [List.cons_append, run_eq, step, List.append_cons front c name]
    simp only [later]
    exact ih fun d listed => continues d (List.mem_cons_of_mem c listed)

theorem run_withinName_nothing (state : State) (role : NameRole) (name : List Char) :
    (state.withinName role name).run options extent false [] =
      .suspended (state.withinName role name) [] := by
  rw [run_eq]
  rfl

theorem take_name (role : NameRole) (name rest : List Char) :
    (role.sign ++ (name ++ rest)).take (role.sign ++ name).length = role.sign ++ name := by
  rw [← List.append_assoc, List.take_left]

theorem drop_name (role : NameRole) (name rest : List Char) :
    (role.sign ++ (name ++ rest)).drop (role.sign ++ name).length = rest := by
  rw [← List.append_assoc, List.drop_left]

/-- Behind a name that is short enough the scan goes on with one more token. -/
theorem past_short_name (short : name.length ≤ 255) (rest : List Char) (next : Mode) :
    state.past options extent ended (role.sign ++ (name ++ rest)) next (role.reading options name) =
      (state.beyond options (role.token options (String.ofList name)) (role.sign ++ name)
        next).run options extent ended rest := by
  have inner := role.token_ne_dot options (String.ofList name)
  simp only [NameRole.reading, short, ↓reduceIte, past, take_name, drop_name, inner, false_and]

/-- Behind the last of its characters a name comes to what its reading says. -/
theorem run_behind_name (ends : ∀ c, rest.head? = some c → continuesName c = false)
    (known : rest ≠ [] ∨ ended = true) :
    (state.withinName role name).run options extent ended rest =
      state.past options extent ended (role.sign ++ (name ++ rest)) (state.behindName role name)
        (role.reading options name) := by
  have step : (state.withinName role name).move options ended rest =
      NameDraft.complete options ⟨state.location, role, String.ofList name⟩ := by
    cases rest with
    | nil => exact if_pos (known.resolve_left (absurd rfl))
    | cons c rest => exact if_neg (by simp [ends c rfl])
  rw [run_eq, step]
  by_cases short : name.length ≤ 255
  · have inner := role.token_ne_dot options (String.ofList name)
    have limit : ¬maxNameLength < (String.ofList name).length := by
      rw [String.length_ofList]
      exact Nat.not_lt.mpr short
    have token := NameDraft.kind_eq_token options ⟨state.location, role, String.ofList name⟩
    have source := NameDraft.source_ofList state.location role name
    simp only [past_short_name short, NameDraft.complete, limit, ↓reduceIte, token, source, inner,
      false_and]
    rfl
  · have limit : maxNameLength < (String.ofList name).length := by
      rw [String.length_ofList]
      exact Nat.lt_of_not_le short
    simp only [NameDraft.complete, limit, ↓reduceIte, NameRole.reading, short, past, take_name,
      drop_name]
    rfl

theorem run_tilde (mode : state.mode = .between) (text : List Char) :
    state.run options extent ended ('~' :: text) =
      (state.withinName .sigilPrefix []).run options extent ended text := by
  have step : state.move options ended ('~' :: text) =
      .read 1 (.name ⟨state.location, .sigilPrefix, ""⟩) := by
    rw [move, mode]
    rfl
  rw [run_eq, step]
  rfl

end State

end ErlangLexer
