import ErlangLexer.Proofs.Completion
import ErlangLexer.Proofs.Feeding
import ErlangLexer.Proofs.FormLocation

/-!
# A text as a whole and form by form

A scan that goes on behind the end of a form does what a new scan does there:

* `State.run_behind`: the tokens found so far have no say in what is found next;
* `State.run_text_of_form`: to the end of the text is to the end of the form, and then to
  the end of the text from there;
* `scanText_of_behind`: a scan that comes to where a new one starts finds what that finds;
* `scanText_of_form`: so a text is its first form and the text behind it;
* `Forms.joined`: what all of the forms come to together;
* `Forms.item?`: what an iteration over the forms shows with each of its calls;
* `scanText_is_fold`: a scan of a whole text is the fold of its forms.
-/

namespace ErlangLexer

/-! ## Behind other tokens -/

/-- The outcome of a scan that has found some tokens before. -/
def Outcome.behind (front : Array Token) : Outcome → Outcome
  | .tokens list finish => .tokens (front ++ list) finish
  | .nothing finish => if front.isEmpty then .nothing finish else .tokens front finish
  | .error found finish => .error found finish

/-- The scan with some tokens found before its own. -/
def State.behind (front : Array Token) (state : State) : State :=
  { state with tokens := front ++ state.tokens }

def Halt.behind (front : Array Token) : Halt → Halt
  | .suspended state rest => .suspended (state.behind front) rest
  | .stopped outcome rest => .stopped (outcome.behind front) rest

namespace State

theorem outcome_behind (front : Array Token) (state : State) :
    (state.behind front).outcome = state.outcome.behind front := by
  by_cases none : state.tokens = #[]
  · simp [outcome, behind, none, Outcome.behind]
  · simp [outcome, behind, none, Outcome.behind]

theorem record_behind (front : Array Token) (options : Options) (state : State) (kind : Kind)
    (lexeme : Lexeme) :
    (state.behind front).record options kind lexeme =
      (state.record options kind lexeme).behind front := by
  simp [record, behind, Array.push_append]

/-- The tokens found so far have no say in what is found next. -/
theorem run_behind (front : Array Token) (options : Options) (extent : Extent) (ended : Bool)
    (state : State) (text : List Char) :
    (state.behind front).run options extent ended text =
      (state.run options extent ended text).behind front := by
  have same (state : State) (text : List Char) :
      (state.behind front).move options ended text = state.move options ended text := rfl
  fun_induction State.run options extent ended state text with
  | case1 state text step =>
    rw [run_eq, same, step]
    rfl
  | case2 state text step =>
    rw [run_eq, same, step]
    exact congrArg (Halt.stopped · text) (state.outcome_behind front)
  | case3 state text width next step ih =>
    rw [run_eq, same, step]
    exact ih
  | case4 state text width kind lexeme next step state' stops =>
    rw [run_eq, same, step]
    simp only [record_behind]
    rw [if_pos stops]
    exact congrArg (Halt.stopped · (text.drop width)) (state'.outcome_behind front)
  | case5 state text width kind lexeme next step state' goes_on ih =>
    rw [run_eq, same, step]
    simp only [record_behind]
    rw [if_neg goes_on]
    exact ih
  | case6 state text width error step =>
    rw [run_eq, same, step]
    rfl
  | case7 state text width error finish step =>
    rw [run_eq, same, step]
    rfl

end State

/-! ## Behind the end of a form -/

/-- A scan that has stopped at the end of a form goes on to the end of the text. -/
def Halt.toText (options : Options) : Halt → Halt
  | .stopped (.tokens list finish) rest =>
    ((State.fresh finish).behind list).run options .text true rest
  | halt => halt

theorem NameDraft.kind_ne_dot (options : Options) (draft : NameDraft) :
    draft.kind options ≠ .dot := by
  unfold kind
  split
  · split <;> simp
  · simp
  · simp
  · simp

theorem NumberPart.kind?_ne_dot (part : NumberPart) : part.kind? ≠ some .dot := by
  cases part <;> simp [kind?, Option.bind_eq_some_iff]

theorem Completes.of_dot {options : Options} {checking : Bool} {mode next : Mode}
    (completes : Completes options checking mode .dot next) :
    checking = false ∧ next = .between := by
  generalize same : Kind.dot = kind at completes
  cases completes with
  | dot outside => exact ⟨outside, rfl⟩
  | name draft => exact absurd same.symm (draft.kind_ne_dot options)
  | number value => exact absurd (same ▸ value) (NumberPart.kind?_ne_dot _)
  | _ => cases same

namespace State

theorem toText_outcome (options : Options) (state : State) :
    (Halt.stopped state.outcome []).toText options = .stopped state.outcome [] := by
  by_cases none : state.tokens = #[]
  · simp [outcome, none, Halt.toText]
  · simp [outcome, none, Halt.toText, behind, fresh, run_eq, move, Between.move]

/-- A form ends outside of a check annotation and between two tokens: the scan that goes on
to the end of the text is there what a new scan is. -/
theorem run_text_of_form (options : Options) (state : State) (text : List Char) :
    state.run options .text true text = (state.run options .form true text).toText options := by
  fun_induction State.run options .form true state text with
  | case1 state text step =>
    have open_end : true = false := fits_of_move step
    exact absurd open_end (by decide)
  | case2 state text step =>
    obtain ⟨rfl, _⟩ := fits_of_move step
    rw [run_eq, step, toText_outcome]
  | case3 state text width next step ih =>
    rw [run_eq, step]
    exact ih
  | case4 state text width kind lexeme next step state' stops =>
    obtain ⟨rfl, _⟩ := stops
    obtain ⟨outside, rfl⟩ := (completes_of_emit step).of_dot
    have found : state'.outcome = .tokens state'.tokens state'.location := by
      simp [outcome, state', read, record]
    have new : (fresh state'.location).behind state'.tokens = state' := by
      simp [behind, fresh, state', read, record, checkingAfter, outside]
    rw [run_eq, step, found]
    simp only [Halt.toText, new]
    exact if_neg (by simp)
  | case5 state text width kind lexeme next step state' goes_on ih =>
    have no_dot : ¬(kind = .dot ∧ Extent.text = .form) := by simp
    rw [run_eq, step]
    exact (if_neg no_dot).trans ih
  | case6 state text width error step =>
    rw [run_eq, step]
    rfl
  | case7 state text width error finish step =>
    rw [run_eq, step]
    rfl

end State

/-! ## The forms of a text -/

theorem scanText_nil (options : Options) (location : Location) :
    scanText options location [] = .ok (#[], location) := by
  rw [scanText, scanEnded, State.run_eq]
  rfl

/-- What a scan of a whole text comes to when its first form is found. -/
def Outcome.goOn (options : Options) (rest : List Char) :
    Outcome → Except (LexicalError × Location) (Array Token × Location)
  | .tokens list finish =>
    (scanText options finish rest).map fun later => (list ++ later.1, later.2)
  | .nothing finish => .ok (#[], finish)
  | .error found finish => .error (found, finish)

/-- A scan that comes to where a new one starts finds what that finds, behind its own tokens. -/
theorem scanText_of_behind {options : Options} {location there : Location} {front : Array Token}
    {text rest : List Char}
    (comes : (State.fresh location).run options .text true text =
      ((State.fresh there).behind front).run options .text true rest) :
    scanText options location text =
      (scanText options there rest).map fun later => (front ++ later.1, later.2) := by
  simp only [State.run_behind, scanEnded_stops, Halt.behind] at comes
  rw [scanText, (Halt.stopped.inj comes).1, scanText]
  cases (scanEnded options .text there rest).1 with
  | tokens more at_end => rfl
  | nothing at_end =>
    by_cases none : front = #[]
    · simp [Outcome.behind, none, Except.map]
    · simp [Outcome.behind, none, Except.map]
  | error found at_end => rfl

/-- A text is its first form and the text behind it. -/
theorem scanText_of_form (options : Options) (location : Location) (text : List Char) :
    scanText options location text =
      (scanEnded options .form location text).1.goOn options
        (scanEnded options .form location text).2 := by
  have whole := State.run_text_of_form options (.fresh location) text
  rw [scanEnded_stops, scanEnded_stops] at whole
  cases form : (scanEnded options .form location text).1 with
  | tokens list finish =>
    rw [form] at whole
    exact scanText_of_behind ((scanEnded_stops options .text location text).trans whole)
  | nothing finish =>
    rw [form] at whole
    rw [scanText, (Halt.stopped.inj whole).1]
    rfl
  | error found finish =>
    rw [form] at whole
    rw [scanText, (Halt.stopped.inj whole).1]
    rfl

namespace Outcome

/-- The error of an outcome, and where its text ends. -/
def failure? : Outcome → Option (LexicalError × Location)
  | .error found finish => some (found, finish)
  | _ => none

/-- What an iteration over the forms shows of an outcome: the end of the text is nothing. -/
def item? : Outcome → Option (Except LexicalError (Array Token))
  | .tokens list _ => some (.ok list)
  | .nothing _ => none
  | .error found _ => some (.error found)

end Outcome

namespace Forms

/-- The forms of a text when all of them have been called for. -/
def drained (forms : Forms) : Forms :=
  match _h : forms.next? with
  | none => forms
  | some (_, later) => later.drained
termination_by forms.bound
decreasing_by exact bound_next _h

/-- What the call behind `n` others shows, in an iteration over the forms. -/
def item? (forms : Forms) : Nat → Option (Except LexicalError (Array Token))
  | 0 => forms.nextForm?.1
  | n + 1 => forms.nextForm?.2.item? n

variable {forms later : Forms} {outcome : Outcome}

theorem outcomes_of_next? (found : forms.next? = some (outcome, later)) :
    forms.outcomes = outcome :: later.outcomes := by
  rw [outcomes]
  split
  · rename_i none
    rw [found] at none
    cases none
  · rename_i other behind same
    obtain ⟨rfl, rfl⟩ := Prod.mk.inj (Option.some.inj (found.symm.trans same))
    rfl

theorem drained_of_next? (found : forms.next? = some (outcome, later)) :
    forms.drained = later.drained := by
  rw [drained]
  split
  · rename_i none
    rw [found] at none
    cases none
  · rename_i other behind same
    obtain ⟨rfl, rfl⟩ := Prod.mk.inj (Option.some.inj (found.symm.trans same))
    rfl

theorem next?_eq_none_iff : forms.next? = none ↔ forms.done = true := by
  simp [next?]

theorem drained_of_done (done : forms.done = true) : forms.drained = forms := by
  rw [drained]
  split
  · rfl
  · rename_i found
    rw [next?_eq_none_iff.mpr done] at found
    cases found

theorem done_of_next? (found : forms.next? = some (outcome, later)) :
    later.done = (later.rest.isEmpty || outcome.isNothing) := by
  unfold next? at found
  split at found
  · cases found
  · obtain ⟨rfl, rfl⟩ := Prod.mk.inj (Option.some.inj found)
    rfl

/-! ### Together -/

/-- What the forms come to together: their first error, or all of their tokens and where the
last of them ends. -/
def joined (forms : Forms) : Except (LexicalError × Location) (Array Token × Location) :=
  match forms.outcomes.findSome? Outcome.failure? with
  | some failure => .error failure
  | none => .ok ((forms.outcomes.filterMap Outcome.tokens?).flatten.toArray, forms.drained.location)

theorem joined_of_done (done : forms.done = true) : forms.joined = .ok (#[], forms.location) := by
  simp [joined, outcomes_of_done done, drained_of_done done]

theorem joined_of_error {found : LexicalError} {finish : Location}
    (next : forms.next? = some (.error found finish, later)) :
    forms.joined = .error (found, finish) := by
  rw [joined, outcomes_of_next? next]
  rfl

theorem joined_of_tokens {list : List Token} (next : forms.next? = some (outcome, later))
    (listed : outcome.tokens? = some list) :
    forms.joined = later.joined.map fun behind => (list.toArray ++ behind.1, behind.2) := by
  have sound : outcome.failure? = none := by
    cases outcome with
    | error found finish => cases listed
    | _ => rfl
  simp only [joined, outcomes_of_next? next, drained_of_next? next, List.findSome?_cons, sound,
    List.filterMap_cons, listed, List.flatten_cons]
  cases later.outcomes.findSome? Outcome.failure? with
  | none => simp [Except.map]
  | some failure => rfl

/-- A text that is not at its end yet comes to what its forms come to. -/
theorem scanText_eq_joined (forms : Forms) (going : forms.done = false) :
    scanText forms.options forms.location forms.rest = forms.joined := by
  fun_induction drained forms with
  | case1 forms none =>
    rw [next?_eq_none_iff, going] at none
    cases none
  | case2 forms outcome later next ih =>
    obtain ⟨found, rest, location, options⟩ := of_next? next
    have done := done_of_next? next
    rw [scanText_of_form, ← found, ← rest]
    cases outcome with
    | tokens list finish =>
      have behind : scanText forms.options finish later.rest = later.joined := by
        by_cases last : later.done = true
        · simp only [last, Outcome.isNothing, Bool.or_false] at done
          rw [joined_of_done last, List.isEmpty_iff.mp done.symm, scanText_nil, location]
          rfl
        · rw [← ih (Bool.eq_false_iff.mpr last), options, location]
          rfl
      rw [Outcome.goOn, behind, joined_of_tokens next rfl]
    | nothing finish =>
      have last : later.done = true := by
        rw [done, Outcome.isNothing, Bool.or_true]
      rw [Outcome.goOn, joined_of_tokens next rfl, joined_of_done last, location]
      rfl
    | error found finish => rw [Outcome.goOn, joined_of_error next]

/-! ### One after the other -/

theorem nextForm?_of_next? (found : forms.next? = some (outcome, later)) :
    forms.nextForm? = (outcome.item?, later) := by
  unfold nextForm?
  rw [found]
  cases outcome <;> rfl

theorem item?_of_done (done : forms.done = true) (n : Nat) : forms.item? n = none := by
  have stays : forms.nextForm? = (none, forms) := by
    unfold nextForm?
    rw [next?_eq_none_iff.mpr done]
  induction n with
  | zero => rw [item?, stays]
  | succ n ih => rw [item?, stays, ih]

/-- The calls of an iteration show the outcomes in order, but for the end of the text. -/
theorem item?_eq_getElem? (forms : Forms) (n : Nat) :
    forms.item? n = (forms.outcomes.filterMap Outcome.item?)[n]? := by
  fun_induction drained forms generalizing n with
  | case1 forms none =>
    have done := next?_eq_none_iff.mp none
    rw [item?_of_done done, outcomes_of_done done]
    rfl
  | case2 forms outcome later next ih =>
    rw [outcomes_of_next? next]
    cases shows : outcome.item? with
    | none =>
      have last : later.done = true := by
        cases outcome with
        | nothing finish => rw [done_of_next? next, Outcome.isNothing, Bool.or_true]
        | tokens list finish => cases shows
        | error found finish => cases shows
      rw [List.filterMap_cons_none shows, ← ih]
      cases n with
      | zero => rw [item?, nextForm?_of_next? next, shows, item?_of_done last]
      | succ n => rw [item?, nextForm?_of_next? next, item?_of_done last, item?_of_done last]
    | some item =>
      rw [List.filterMap_cons_some shows]
      cases n with
      | zero =>
        rw [item?, nextForm?_of_next? next, shows]
        rfl
      | succ n =>
        rw [item?, nextForm?_of_next? next, ih]
        rfl

end Forms

/-- **A text is its forms.** A scan of a whole text finds the tokens of its forms one after
the other and ends where the last of them ends, or it fails with their first error. An
iteration over the forms shows the same tokens and errors, one with each call, and nothing
more once it has shown nothing. -/
theorem scanText_is_fold (options : Options) (origin : Location) (text : List Char) :
    scanText options origin text = (Forms.ofText options origin text).joined ∧
      (∀ n, (Forms.ofText options origin text).item? n =
        ((Forms.ofText options origin text).outcomes.filterMap Outcome.item?)[n]?) ∧
      ∀ n later, n ≤ later → (Forms.ofText options origin text).item? n = none →
        (Forms.ofText options origin text).item? later = none := by
  have items := (Forms.ofText options origin text).item?_eq_getElem?
  refine ⟨(Forms.ofText options origin text).scanText_eq_joined rfl, items, ?_⟩
  intro n later behind none_left
  rw [items, List.getElem?_eq_none_iff] at none_left ⊢
  omega

/-- A base that is none splits a form in two, which are two of the four items. -/
theorem scanText_is_fold_at_bad_base :
    scanText default .start "a. 37#1. b.".toList =
        (Forms.ofText default .start "a. 37#1. b.".toList).joined ∧
      (Forms.ofText default .start "a. 37#1. b.".toList).item? 4 = none ∧
      (Forms.ofText default .start "a. 37#1. b.".toList).item? 9 = none := by
  obtain ⟨joined, items, stays⟩ := scanText_is_fold default .start "a. 37#1. b.".toList
  have none_left : (Forms.ofText default .start "a. 37#1. b.".toList).item? 4 = none := by
    decide +kernel
  exact ⟨joined, none_left, stays 4 9 (by decide) none_left⟩

end ErlangLexer
