import ErlangLexer.Suspension

/-!
# The forms of a complete text

A complete text is scanned form by form, an error ending its form like a dot, or as a
whole up to the first error.

* `scanEnded_shorter`: a scan of some text leaves less of it, so the forms of a text
  come to an end.
-/

namespace ErlangLexer

/-- What a scan of a complete text has found, and the text behind it. Such a scan is never
left suspended. -/
def Halt.settle : Halt → Outcome × List Char
  | .stopped outcome rest => (outcome, rest)
  | .suspended state rest => (state.outcome, rest)

/-- Scan a complete text. -/
def scanEnded (options : Options) (extent : Extent) (location : Location) (text : List Char) :
    Outcome × List Char :=
  ((State.fresh location).run options extent true text).settle

theorem scanEnded_shorter (options : Options) (extent : Extent) (location : Location)
    (text : List Char) (more : (scanEnded options extent location text).2 ≠ []) :
    (scanEnded options extent location text).2.length < text.length := by
  have within := (State.fresh location).run_within options extent true text
  obtain ⟨outcome, rest, stops⟩ := (State.fresh location).run_ended options extent text
  simp only [scanEnded, stops, Halt.settle] at within more ⊢
  have less : 3 * rest.length < 3 * text.length + 0 :=
    within.resolve_right fun empty => more empty.2
  omega

/-- Scan a complete text as a whole: all of its tokens and where it ends, or the first
error and where the text of that ends. -/
def scanText (options : Options) (location : Location) (text : List Char) :
    Except (LexicalError × Location) (Array Token × Location) :=
  match (scanEnded options .text location text).1 with
  | .tokens list finish => .ok (list, finish)
  | .nothing finish => .ok (#[], finish)
  | .error error finish => .error (error, finish)

/-- The forms of a complete text that are still to come. -/
structure Forms where
  rest : List Char
  /-- Where the next form starts. -/
  location : Location
  options : Options
  done : Bool

namespace Forms

/-- All forms of a text. -/
def ofText (options : Options) (location : Location) (text : List Char) : Forms :=
  ⟨text, location, options, false⟩

/-- The next outcome and the forms behind it. An error does not end the forms. -/
def next? (forms : Forms) : Option (Outcome × Forms) :=
  if forms.done then none
  else
    let found := scanEnded forms.options .form forms.location forms.rest
    some (found.1, { forms with
      rest := found.2
      location := found.1.finish
      done := found.2.isEmpty || found.1.isNothing })

/-- The next form with tokens or an error, and where the forms behind it start. -/
def nextForm? (forms : Forms) : Option (Except LexicalError (Array Token)) × Forms :=
  match forms.next? with
  | none => (none, forms)
  | some (.tokens list _, rest) => (some (.ok list), rest)
  | some (.error error _, rest) => (some (.error error), rest)
  | some (.nothing _, rest) => (none, rest)

/-- The most outcomes that can still come. -/
def bound (forms : Forms) : Nat :=
  if forms.done then 0 else forms.rest.length + 1

theorem bound_next {forms later : Forms} {outcome : Outcome}
    (h : forms.next? = some (outcome, later)) : later.bound < forms.bound := by
  unfold next? at h
  split at h
  · simp at h
  · rename_i going
    simp only [Option.some.injEq, Prod.mk.injEq] at h
    obtain ⟨_, rfl⟩ := h
    have shorter := scanEnded_shorter forms.options .form forms.location forms.rest
    simp only [bound, going]
    split
    · simp
    · rename_i more
      have := shorter (by intro empty; simp [empty] at more)
      simp only [Bool.false_eq_true, ↓reduceIte]
      omega

/-- The outcomes of all forms, up to the end of the text. -/
def outcomes (forms : Forms) : List Outcome :=
  match _h : forms.next? with
  | none => []
  | some (outcome, later) => outcome :: later.outcomes
termination_by forms.bound
decreasing_by exact bound_next _h

end Forms

end ErlangLexer
