import ErlangLexer.Proofs.Resumption

/-!
# Views of a scan

A view places the locations of a scan elsewhere and may drop the source texts of its
tokens. It keeps everything else, and the moves of a scan go by nothing but that:

* `View`: how locations are placed, in step with the characters read;
* `View.nowhere`: the view that places all of them alike;
* `State.move_view`: a scan in view moves as the scan does;
* `State.run_view`: so its run is the run of the scan, in view.
-/

namespace ErlangLexer

/-- Another place for every location, another line for every line, and whether source texts are
kept. -/
structure View where
  place : Location → Location
  line : Int32 → Int32
  texts : Bool
  place_next : ∀ location c, place (location.next c) = (place location).next c
  place_shift : ∀ location width, place (location.shift width) = (place location).shift width
  place_line : ∀ location, (place location).line = line location.line
  place_onLine : ∀ location number column,
    place (location.onLine number column) = (place location).onLine (line number) column

namespace View

variable (view : View)

/-- The options of a scan that finds no source texts to drop. -/
def options (options : Options) : Options :=
  { options with captureText := view.texts && options.captureText }

def lexeme (lexeme : Lexeme) : Lexeme :=
  { lexeme with start := view.place lexeme.start }

def name (draft : NameDraft) : NameDraft :=
  { draft with start := view.place draft.start }

def number (draft : NumberDraft) : NumberDraft :=
  { draft with lexeme := view.lexeme draft.lexeme }

def quoted (draft : QuotedDraft) : QuotedDraft :=
  { draft with lexeme := view.lexeme draft.lexeme }

def sigil (sigil : Sigil) : Sigil :=
  { sigil with start := view.place sigil.start }

def contentLine (stored : ContentLine) : ContentLine :=
  { stored with line := view.line stored.line }

def body (body : TripleQuotedBody) : TripleQuotedBody :=
  { body with lines := body.lines.map view.contentLine, line := view.line body.line }

def tripleQuoted (draft : TripleQuotedDraft) : TripleQuotedDraft :=
  { draft with
    lexeme := view.lexeme draft.lexeme
    sigil := draft.sigil.map view.sigil
    body := draft.body.map view.body }

def mode : Mode → Mode
  | .between => .between
  | .comment => .comment
  | .name draft => .name (view.name draft)
  | .number draft => .number (view.number draft)
  | .quoted draft => .quoted (view.quoted draft)
  | .afterString => .afterString
  | .sigil sigil => .sigil (view.sigil sigil)
  | .tripleQuoted draft => .tripleQuoted (view.tripleQuoted draft)

def error (error : LexicalError) : LexicalError :=
  { error with location := view.place error.location }

def token (token : Token) : Token :=
  ⟨token.kind, view.place token.location, if view.texts then token.text else none⟩

def stripped (stripped : Layout.Stripped) : Layout.Stripped :=
  { stripped with bad := stripped.bad.map fun bad => (view.line bad.1, bad.2) }

def misfit (misfit : TripleQuotedDraft.Misfit) : TripleQuotedDraft.Misfit :=
  { misfit with error := view.error misfit.error }

def move : Move → Move
  | .wait => .wait
  | .finish => .finish
  | .read width next => .read width (view.mode next)
  | .emit width kind lexeme next => .emit width kind (view.lexeme lexeme) (view.mode next)
  | .fail width error => .fail width (view.error error)
  | .reject width error finish => .reject width (view.error error) (view.place finish)

def outcome : Outcome → Outcome
  | .tokens list finish => .tokens (list.map view.token) (view.place finish)
  | .nothing finish => .nothing (view.place finish)
  | .error error finish => .error (view.error error) (view.place finish)

def state (state : State) : State :=
  ⟨view.place state.location, state.tokens.map view.token, state.checking, view.mode state.mode⟩

def halt : Halt → Halt
  | .suspended state rest => .suspended (view.state state) rest
  | .stopped outcome rest => .stopped (view.outcome outcome) rest

theorem place_walk (location : Location) (text : List Char) :
    view.place (location.walk text) = (view.place location).walk text := by
  induction text generalizing location with
  | nil => rfl
  | cons c text ih => rw [Location.walk_cons, Location.walk_cons, ih, view.place_next]

/-- All locations in one place: on the last line of all, without a column, where nothing moves
them. -/
def nowhere (texts : Bool) : View where
  place _ := ⟨0x7fffffff, none⟩
  line _ := 0x7fffffff
  texts := texts
  place_next location c := by
    simp only [Location.next]
    split <;> rfl
  place_shift _ _ := rfl
  place_line _ := rfl
  place_onLine _ _ _ := rfl

theorem line_below (line : Int32) :
    view.line (Location.lineBelow line) = Location.lineBelow (view.line line) := by
  have next := congrArg Location.line (view.place_next ⟨line, none⟩ '\n')
  have here := view.place_line ⟨line, none⟩
  rw [view.place_line] at next
  dsimp only at here
  rw [← here]
  exact next

theorem move_ite {p : Prop} [Decidable p] (a b : Move) :
    view.move (if p then a else b) = if p then view.move a else view.move b :=
  apply_ite view.move p a b

end View

/-! ## Moves -/

variable (view : View)

theorem Comment.move_view (text : List Char) (ended : Bool) :
    view.move (move text ended) = move text ended := by
  simp only [move]
  split <;> split <;> rfl

theorem Comment.openMove_view (options : Options) (checking : Bool) (here : Location)
    (text : List Char) (ended : Bool) :
    openMove (view.options options) checking (view.place here) text ended =
      view.move (openMove options checking here text ended) := by
  simp only [openMove, View.move_ite]
  rfl

theorem AfterString.move_view (here : Location) (text : List Char) (ended : Bool) :
    move (view.place here) text ended = view.move (move here text ended) := by
  simp only [move]
  split <;> split <;> rfl

namespace NameDraft

theorem next_view (draft : NameDraft) : (view.name draft).next = view.mode draft.next := by
  obtain ⟨start, role, name⟩ := draft
  simp only [next, View.name]
  split
  · rfl
  · exact (apply_ite view.mode (name = "") .afterString .between).symm
  · rfl

theorem complete_view (draft : NameDraft) (options : Options) :
    (view.name draft).complete (view.options options) = view.move (draft.complete options) := by
  simp only [complete, next_view, View.move_ite]
  rfl

theorem move_view (draft : NameDraft) (options : Options) (text : List Char) (ended : Bool) :
    (view.name draft).move (view.options options) text ended =
      view.move (draft.move options text ended) := by
  simp only [move]
  split
  · simp only [complete_view, View.move_ite]
    rfl
  · simp only [complete_view, View.move_ite]
    rfl

end NameDraft

namespace NumberDraft

theorem complete_view (draft : NumberDraft) :
    (view.number draft).complete = view.move draft.complete := by
  simp only [complete, View.number]
  split <;> rfl

theorem underscores_view (draft : NumberDraft) (text : List Char) (ended : Bool) :
    (view.number draft).underscores text ended = view.move (draft.underscores text ended) := by
  simp only [underscores]
  split
  · split <;> rfl
  · simp only [View.number]
    split
    · rfl
    · split <;> rfl
  · exact draft.complete_view view

theorem point_view (draft : NumberDraft) (value : Nat) (text : List Char) (ended : Bool) :
    (view.number draft).point value text ended = view.move (draft.point value text ended) := by
  simp only [point]
  split
  · split
    · exact draft.complete_view view
    · rfl
  · split
    · rfl
    · exact draft.complete_view view

theorem base_view (draft : NumberDraft) (value : Nat) (text : List Char) :
    (view.number draft).base value text = view.move (draft.base value text) := by
  simp only [base]
  split <;> rfl

theorem mark_view (draft : NumberDraft) (c : Char) (text : List Char) (ended : Bool) :
    (view.number draft).mark c text ended = view.move (draft.mark c text ended) := by
  have complete := draft.complete_view view
  have part : (view.number draft).part = draft.part := rfl
  simp only [mark, part]
  split
  · simp only [point_view, base_view, complete, View.move_ite]
  · simp only [complete, View.move_ite]
    rfl
  · split
    · rfl
    · split
      · rfl
      · split
        · rfl
        · exact complete
  · exact complete
  · exact complete

theorem move_view (draft : NumberDraft) (text : List Char) (ended : Bool) :
    (view.number draft).move text ended = view.move (draft.move text ended) := by
  have part : (view.number draft).part = draft.part := rfl
  simp only [move, part]
  split
  · split
    · exact draft.complete_view view
    · rfl
  · split
    · rfl
    · simp only [underscores_view, mark_view, View.move_ite]

end NumberDraft

namespace QuotedDraft

theorem complete_view (draft : QuotedDraft) (here : Location) (text : List Char) :
    (view.quoted draft).complete (view.place here) text = view.move (draft.complete here text) := by
  have quotation : (view.quoted draft).quotation = draft.quotation := rfl
  simp only [complete, quotation]
  split
  · simp only [View.move_ite]
    rfl
  · rfl
  · simp only [View.move, View.mode, View.name, view.place_next]
    rfl

theorem escape_view (draft : QuotedDraft) (here : Location) (text rest : List Char)
    (ended : Bool) :
    (view.quoted draft).escape (view.place here) text rest ended =
      view.move (draft.escape here text rest ended) := by
  simp only [escape]
  split
  · rfl
  · rfl
  · split <;> rfl
  · rfl

theorem move_view (draft : QuotedDraft) (here : Location) (text : List Char) (ended : Bool) :
    (view.quoted draft).move (view.place here) text ended =
      view.move (draft.move here text ended) := by
  simp only [move]
  split
  · split <;> rfl
  · simp only [complete_view, escape_view, View.move_ite]
    rfl

end QuotedDraft

namespace TripleQuotedDraft

theorem push_body (body : TripleQuotedBody) (c : Char) :
    (view.body body).push c = view.body (body.push c) := by
  simp only [TripleQuotedBody.push, View.body]
  split
  · simp only [TripleQuotedBody.empty, Array.map_push, view.line_below]
    rfl
  · rfl

theorem push_view (draft : TripleQuotedDraft) (c : Char) :
    (view.tripleQuoted draft).push c = view.tripleQuoted (draft.push c) := by
  obtain ⟨lexeme, quotes, sigil, opening, body⟩ := draft
  cases body with
  | some body =>
    simp only [push, View.tripleQuoted, Option.map_some, push_body]
    rfl
  | none =>
    simp only [push, View.tripleQuoted, Option.map_none]
    split
    · simp only [Option.map_some, View.lexeme, view.place_line, ← view.line_below, View.body,
        TripleQuotedBody.empty, Array.map_empty]
    · rfl

theorem pushFront_view (draft : TripleQuotedDraft) (text : List Char) (width : Nat) :
    (view.tripleQuoted draft).pushFront text width =
      view.tripleQuoted (draft.pushFront text width) := by
  have pushed (front : List Char) (draft : TripleQuotedDraft) :
      front.foldl push (view.tripleQuoted draft) = view.tripleQuoted (front.foldl push draft) := by
    induction front generalizing draft with
    | nil => rfl
    | cons c front ih => rw [List.foldl_cons, List.foldl_cons, push_view, ih]
  exact pushed (text.take width) draft

theorem content_body (body : TripleQuotedBody) : (view.body body).content = body.content := by
  simp only [TripleQuotedBody.content, View.body, Array.toList_map, List.map_map]
  rfl

theorem unterminated_view (draft : TripleQuotedDraft) :
    (view.tripleQuoted draft).unterminated = view.move draft.unterminated := by
  obtain ⟨lexeme, quotes, sigil, opening, body⟩ := draft
  simp only [unterminated, View.tripleQuoted, Option.map_map, Function.comp_def, content_body]
  cases sigil <;> rfl

theorem isVerbatim_view (draft : TripleQuotedDraft) :
    (view.tripleQuoted draft).isVerbatim = draft.isVerbatim := by
  obtain ⟨lexeme, quotes, sigil, opening, body⟩ := draft
  cases sigil <;> rfl

theorem strip_view (indent : List Char) (lines : List ContentLine) :
    Layout.strip indent (lines.map view.contentLine) =
      view.stripped (Layout.strip indent lines) := by
  induction lines with
  | nil => rfl
  | cons line lines ih =>
    simp only [Layout.strip, List.map_cons, List.foldr_cons] at ih ⊢
    rw [ih]
    simp only [Layout.Stripped.add, View.contentLine]
    cases Layout.stripLine indent line.text.toList <;> rfl

theorem decode_view (texts : List (List Char)) (lines : List ContentLine) :
    Layout.decode texts (lines.map view.contentLine) =
      (Layout.decode texts lines).mapError fun wrong => (view.line wrong.1, wrong.2) := by
  induction texts generalizing lines with
  | nil => rfl
  | cons text texts ih =>
    cases lines with
    | nil => rfl
    | cons line lines =>
      simp only [List.map_cons, Layout.decode, ih]
      cases Escape.decodeText text with
      | error fault => rfl
      | ok value => cases Layout.decode texts lines <;> rfl

theorem lines_view (draft : TripleQuotedDraft) :
    (view.tripleQuoted draft).lines = draft.lines.map view.contentLine := by
  obtain ⟨lexeme, quotes, sigil, opening, body⟩ := draft
  cases body with
  | none => rfl
  | some body => simp [View.tripleQuoted, TripleQuotedDraft.lines, View.body]

theorem indent_view (draft : TripleQuotedDraft) :
    (view.tripleQuoted draft).indent = draft.indent := by
  obtain ⟨lexeme, quotes, sigil, opening, body⟩ := draft
  cases body <;> rfl

theorem value_view (draft : TripleQuotedDraft) (here : Location) :
    (view.tripleQuoted draft).value (view.place here) =
      (draft.value here).mapError view.misfit := by
  unfold TripleQuotedDraft.value
  rw [isVerbatim_view, lines_view, indent_view, strip_view]
  simp only [decode_view, Layout.dropLastBreak_map]
  have shifted (width : Nat) : (view.tripleQuoted draft).lexeme.start.shift width =
      view.place (draft.lexeme.start.shift width) := (view.place_shift _ _).symm
  have opening : (view.tripleQuoted draft).opening = draft.opening := rfl
  have quotes : (view.tripleQuoted draft).quotes = draft.quotes := rfl
  rw [opening]
  cases draft.opening.toList.findIdx? fun c => !isInlineBlank c with
  | some index =>
    simp only [shifted, quotes]
    rfl
  | none =>
    simp only [View.stripped]
    cases (Layout.strip draft.indent draft.lines).bad with
    | some bad =>
      simp only [Option.map_some, ← view.place_onLine]
      rfl
    | none =>
      simp only [Option.map_none]
      cases draft.isVerbatim with
      | true => rfl
      | false =>
        simp only [Bool.false_eq_true, ↓reduceIte]
        cases Layout.decode (Layout.strip draft.indent draft.lines).texts draft.lines with
        | ok content => rfl
        | error wrong =>
          simp only [Except.mapError, ← view.place_onLine]
          rfl

theorem mayClose_view (draft : TripleQuotedDraft) :
    (view.tripleQuoted draft).mayClose = draft.mayClose := by
  obtain ⟨lexeme, quotes, sigil, opening, body⟩ := draft
  cases body <;> rfl

theorem complete_view (draft : TripleQuotedDraft) (here : Location) (text : List Char) :
    (view.tripleQuoted draft).complete (view.place here) text =
      view.move (draft.complete here text) := by
  have quotes : (view.tripleQuoted draft).quotes = draft.quotes := rfl
  simp only [complete, quotes, value_view]
  cases draft.value here with
  | ok value =>
    simp only [View.tripleQuoted, Except.mapError]
    cases draft.sigil with
    | none => rfl
    | some sigil =>
      simp only [View.move, View.mode, View.name, view.place_walk]
      rfl
  | error wrong =>
    simp only [Except.mapError, View.misfit, View.move, View.error, view.place_shift]

theorem quoteRun_view (draft : TripleQuotedDraft) (here : Location) (text : List Char)
    (ended : Bool) :
    (view.tripleQuoted draft).quoteRun (view.place here) text ended =
      view.move (draft.quoteRun here text ended) := by
  simp only [quoteRun, complete_view, pushFront_view, View.move_ite]
  rfl

theorem move_view (draft : TripleQuotedDraft) (here : Location) (text : List Char)
    (ended : Bool) :
    (view.tripleQuoted draft).move (view.place here) text ended =
      view.move (draft.move here text ended) := by
  simp only [move]
  split
  · split
    · exact draft.unterminated_view view
    · rfl
  · simp only [quoteRun_view, push_view, mayClose_view, View.move_ite]
    rfl

end TripleQuotedDraft

theorem QuoteRun.move_view (here : Location) (sigil : Option Sigil) (text : List Char)
    (ended : Bool) :
    move (view.place here) (sigil.map view.sigil) text ended =
      view.move (move here sigil text ended) := by
  have quotation : quotation (sigil.map view.sigil) = quotation sigil := by
    cases sigil <;> rfl
  have after : afterEmpty ((view.place here).walk (text.take 2)) (sigil.map view.sigil) =
      view.mode (afterEmpty (here.walk (text.take 2)) sigil) := by
    cases sigil with
    | none => rfl
    | some sigil => simp only [afterEmpty, Option.map_some, View.mode, View.name, view.place_walk]
  simp only [move, quotation, after, View.move_ite]
  rfl

theorem Sigil.move_view (sigil : Sigil) (here : Location) (text : List Char) (ended : Bool) :
    (view.sigil sigil).move (view.place here) text ended =
      view.move (sigil.move here text ended) := by
  simp only [move]
  split
  · split <;> rfl
  · split
    · exact QuoteRun.move_view view here (some sigil) _ ended
    · split <;> rfl

theorem CharLiteral.move_view (here : Location) (rest : List Char) (ended : Bool) :
    move (view.place here) rest ended = view.move (move here rest ended) := by
  simp only [move]
  split
  · split <;> rfl
  · split
    · split
      · rfl
      · rfl
      · split <;> rfl
      · rfl
    · split
      · rfl
      · simp only [View.move, LexicalError.illegal, View.error, view.place_next]

theorem Punctuation.move_view (checking : Bool) (here : Location) (c : Char) (rest : List Char)
    (ended : Bool) :
    move checking (view.place here) c rest ended = view.move (move checking here c rest ended) := by
  simp only [move]
  split
  · rfl
  · split
    · split <;> rfl
    · split <;> rfl

theorem Between.move_view (options : Options) (checking : Bool) (here : Location)
    (text : List Char) (ended : Bool) :
    move (view.options options) checking (view.place here) text ended =
      view.move (move options checking here text ended) := by
  have quotes (text : List Char) :
      QuoteRun.move (view.place here) none text ended =
        view.move (QuoteRun.move here none text ended) :=
    QuoteRun.move_view view here none text ended
  simp only [move]
  split
  · split <;> rfl
  · simp only [quotes, CharLiteral.move_view, Comment.openMove_view, Punctuation.move_view,
      View.move_ite]
    rfl

/-- A scan in view moves as the scan does. -/
theorem State.move_view (options : Options) (ended : Bool) (state : State) (text : List Char) :
    (view.state state).move (view.options options) ended text =
      view.move (state.move options ended text) := by
  obtain ⟨location, tokens, checking, mode⟩ := state
  cases mode with
  | between => exact Between.move_view view options checking location text ended
  | comment => exact (Comment.move_view view text ended).symm
  | name draft => exact draft.move_view view options text ended
  | number draft => exact draft.move_view view text ended
  | quoted draft => exact draft.move_view view location text ended
  | afterString => exact AfterString.move_view view location text ended
  | sigil sigil => exact sigil.move_view view location text ended
  | tripleQuoted draft => exact draft.move_view view location text ended

/-! ## Runs -/

namespace State

theorem outcome_view (state : State) :
    (view.state state).outcome = view.outcome state.outcome := by
  have none : (view.state state).tokens.isEmpty = state.tokens.isEmpty := by
    simp only [View.state, Array.isEmpty, Array.size_map]
  simp only [outcome, none]
  split <;> rfl

theorem read_view (state : State) (text : List Char) (width : Nat) (next : Mode) :
    (view.state state).read text width (view.mode next) =
      view.state (state.read text width next) := by
  simp only [read, View.state, view.place_walk]

theorem record_view (options : Options) (state : State) (kind : Kind) (lexeme : Lexeme) :
    (view.state state).record (view.options options) kind (view.lexeme lexeme) =
      view.state (state.record options kind lexeme) := by
  have kept : (if (view.options options).captureText then some lexeme.source else none) =
      if view.texts then if options.captureText then some lexeme.source else none else none := by
    by_cases texts : view.texts = true
    · simp [View.options, texts]
    · simp [View.options, texts]
  simp only [record, View.state, View.lexeme, Array.map_push, View.token, kept]

theorem fresh_view (location : Location) :
    view.state (fresh location) = fresh (view.place location) := by
  simp only [View.state, fresh, View.mode, Array.map_empty]

/-- The run of a scan in view is the run of the scan, in view. -/
theorem run_view (options : Options) (extent : Extent) (ended : Bool) (state : State)
    (text : List Char) :
    (view.state state).run (view.options options) extent ended text =
      view.halt (state.run options extent ended text) := by
  fun_induction State.run options extent ended state text with
  | case1 state text step =>
    rw [run_eq, move_view, step]
    rfl
  | case2 state text step =>
    rw [run_eq, move_view, step]
    exact congrArg (Halt.stopped · text) (state.outcome_view view)
  | case3 state text width next step ih =>
    rw [run_eq, move_view, step]
    simp only [View.move, read_view]
    exact ih
  | case4 state text width kind lexeme next step state' stops =>
    rw [run_eq, move_view, step]
    simp only [View.move, record_view, read_view]
    rw [if_pos stops, outcome_view]
    rfl
  | case5 state text width kind lexeme next step state' goes_on ih =>
    rw [run_eq, move_view, step]
    simp only [View.move, record_view, read_view]
    rw [if_neg goes_on]
    exact ih
  | case6 state text width error step =>
    rw [run_eq, move_view, step]
    simp only [View.move, View.halt, View.outcome, view.place_walk]
    rfl
  | case7 state text width error finish step =>
    rw [run_eq, move_view, step]
    rfl

end State

/-! ## Suspended scans -/

namespace View

def suspension (scan : Suspension) : Suspension :=
  ⟨view.options scan.options, view.state scan.state, scan.pending⟩

def step : Step → Step
  | .suspended scan => .suspended (view.suspension scan)
  | .finished outcome rest => .finished (view.outcome outcome) rest

end View

theorem Suspension.resume_view (scan : Suspension) (input : Input) :
    (view.suspension scan).resume input = view.step (scan.resume input) := by
  have run := scan.state.run_view view scan.options .form input.isEnd (scan.pending ++ input.text)
  simp only [resume, View.suspension, run]
  cases scan.state.run scan.options .form input.isEnd (scan.pending ++ input.text) with
  | suspended state rest => rfl
  | stopped outcome rest => rfl

theorem scan_view (suspension : Option Suspension) (input : Input) (location : Location)
    (options : Options) :
    scan (suspension.map view.suspension) input (view.place location) (view.options options) =
      view.step (scan suspension input location options) := by
  cases suspension with
  | none =>
    have start : view.suspension (.start options location) =
        .start (view.options options) (view.place location) := by
      simp only [View.suspension, Suspension.start, State.fresh_view]
    simp only [scan, Option.map_none, Option.getD_none, ← start, Suspension.resume_view]
  | some suspension => exact suspension.resume_view view input

end ErlangLexer
