import ErlangLexer.Proofs.Completion
import ErlangLexer.Proofs.Severance
import ErlangLexer.Proofs.Tiling
import ErlangLexer.Proofs.View

/-!
# Tokens are read again from their source texts

The source text of a token is all that there is to it: scanned on its own, anywhere, it is
that token again. The three tokens of a sigil need each other and are read again together.
What a dot is depends on its surroundings, so the dot that closes a check annotation and the
one that ends nothing are left out.

* `units`: the tokens of a scan, one by one but for those of a sigil;
* `State.alone`: a scan that has read nothing but the unit it is in;
* `Rereads`: a new scan of what is read of a unit comes to be where this scan is;
* `Rereads.read`, `Rereads.emit`: which every move of the scan preserves;
* `State.run_units`: so each unit that a run completes is read again from its sources;
* `units_read_again`: and so are all units of a text that is scanned without an error.
-/

namespace ErlangLexer

/-! ## Units -/

/-- What a token is, wherever it is. -/
def Token.content (token : Token) : Kind × Option String :=
  (token.kind, token.text)

/-- The source texts of some tokens. -/
def sources (tokens : List Token) : List Char :=
  tokens.flatMap fun token => (token.text.getD "").toList

def Kind.isSigilPrefix : Kind → Bool
  | .sigilPrefix _ => true
  | _ => false

/-- The tokens one by one, but for those of a sigil, which are its prefix and the two tokens
behind it. -/
def units : List Token → List (List Token)
  | opening :: string :: closing :: tokens =>
    if opening.kind.isSigilPrefix then [opening, string, closing] :: units tokens
    else [opening] :: units (string :: closing :: tokens)
  | tokens => tokens.map ([·])

/-- A token that belongs to no sigil, or all tokens of one. -/
inductive IsUnit : List Token → Prop where
  | lone {token : Token} (opens : ∀ name, token.kind ≠ .sigilPrefix name)
      (closes : ∀ name, token.kind ≠ .sigilSuffix name) : IsUnit [token]
  | sigil {opening string closing : Token} {before value behind : String}
      (opens : opening.kind = .sigilPrefix before) (holds : string.kind = .string value)
      (closes : closing.kind = .sigilSuffix behind) : IsUnit [opening, string, closing]

theorem flatten_units (tokens : List Token) : (units tokens).flatten = tokens := by
  have singletons (tokens : List Token) : (tokens.map ([·])).flatten = tokens := by
    induction tokens with
    | nil => rfl
    | cons token tokens ih => rw [List.map_cons, List.flatten_cons, ih, List.singleton_append]
  fun_induction units tokens with
  | case1 opening string closing tokens opens ih => simp [ih]
  | case2 opening string closing tokens other ih => simp [ih]
  | case3 tokens few => exact singletons tokens

theorem units_cons {token : Token} (tokens : List Token)
    (opens : ∀ name, token.kind ≠ .sigilPrefix name) :
    units (token :: tokens) = [token] :: units tokens := by
  have other : token.kind.isSigilPrefix = false := by
    cases kind : token.kind with
    | sigilPrefix name => exact absurd kind (opens name)
    | _ => rfl
  cases tokens with
  | nil => rfl
  | cons second tokens =>
    cases tokens with
    | nil => rfl
    | cons third tokens => simp [units, other]

theorem units_flatten {groups : List (List Token)} (all : ∀ unit ∈ groups, IsUnit unit) :
    units groups.flatten = groups := by
  induction groups with
  | nil => rfl
  | cons unit groups ih =>
    have later := ih fun unit listed => all unit (List.mem_cons_of_mem _ listed)
    rw [List.flatten_cons]
    cases all unit List.mem_cons_self with
    | lone opens closes => rw [List.singleton_append, units_cons _ opens, later]
    | sigil opens holds closes =>
      simp only [List.cons_append, List.nil_append, units, opens, Kind.isSigilPrefix, ↓reduceIte,
        later]

/-- Scanned on their own, the source texts of a unit are its tokens again. -/
def ReadsAgain (options : Options) (unit : List Token) : Prop :=
  ∀ location, ∃ again finish, scanText options location (sources unit) = .ok (again, finish) ∧
    again.toList.map Token.content = unit.map Token.content

/-- The unit is a dot that is not what it is by itself. -/
def IsContextual (unit : List Token) : Prop :=
  ∃ token, unit = [token] ∧ (token.kind = .checkClose ∨ token.kind = .operator .dot)

/-! ## Scans of one unit -/

/-- The scan as if it had read nothing but the unit it is in, and that outside a check
annotation. -/
def State.alone (state : State) (found : List Token) : State :=
  { state with tokens := found.toArray, checking := false }

/-- The move neither passes over a gap nor ends a check annotation. -/
def Move.InUnit : Move → Prop
  | .read _ next => next ≠ .between
  | .emit _ kind _ _ => kind ≠ .checkClose ∧ kind ≠ .operator .dot
  | _ => False

theorem Comment.openMove_unchecked {options : Options} {checking : Bool} {here : Location}
    {text : List Char} (inside : (openMove options checking here text true).InUnit) :
    openMove options false here text true = openMove options checking here text true := by
  revert inside
  simp only [openMove]
  split
  · cases checking with
    | false => exact fun _ => rfl
    | true => exact fun gap => absurd rfl gap
  · exact fun _ => rfl

theorem Punctuation.move_unchecked {checking : Bool} {here : Location} {c : Char}
    {rest : List Char} (inside : (move checking here c rest true).InUnit) :
    move false here c rest true = move checking here c rest true := by
  revert inside
  simp only [move]
  split
  · exact fun _ => rfl
  · split
    · split
      · cases checking with
        | false => exact fun _ => rfl
        | true => exact fun closes => absurd rfl closes.1
      · exact fun _ => rfl
    · exact fun _ => rfl

/-- Within a unit it does not matter whether a check annotation is open. -/
theorem Between.move_unchecked {options : Options} {checking : Bool} {here : Location}
    {text : List Char} (inside : (move options checking here text true).InUnit) :
    move options false here text true = move options checking here text true := by
  cases text with
  | nil => rfl
  | cons c rest =>
    revert inside
    simp only [move]
    repeat' split
    all_goals intro inside
    · rfl
    · rfl
    · rfl
    · rfl
    · rfl
    · rfl
    · rfl
    · rfl
    · exact Comment.openMove_unchecked inside
    · exact Punctuation.move_unchecked inside

namespace State

variable {options : Options} {state : State} {text : List Char}

theorem move_alone (found : List Token)
    (inside : (state.move options true text).InUnit) :
    (state.alone found).move options true text = state.move options true text := by
  obtain ⟨location, tokens, checking, mode⟩ := state
  cases mode with
  | between => exact Between.move_unchecked inside
  | _ => rfl

/-- A scan of nothing but the unit makes the same move, when all that it reads is there. -/
theorem move_alone_severed (found : List Token) {front rest : List Char} {move : Move}
    (step : state.move options true (front ++ rest) = move) (inside : move.InUnit)
    (seen : move.SeenIn front) : (state.alone found).move options true front = move := by
  subst step
  have severed := state.move_severed options front rest seen
  rw [← severed] at inside ⊢
  exact move_alone found inside

end State

/-- A new scan of what is read of a unit, and of any more of the text, comes to what this scan
comes to with only the tokens of the unit. Where it starts is of no account. Where the unit will
end is not known yet, so `front` is any front of the text. -/
def Rereads (options : Options) (done : List Char) (found : List Token) (state : State)
    (text : List Char) : Prop :=
  ∀ start front rest, text = front ++ rest →
    (View.nowhere true).halt ((State.fresh start).run options .text true (done ++ front)) =
      (View.nowhere true).halt ((state.alone found).run options .text true front)

namespace Rereads

variable {options : Options} {state : State} {text : List Char} {found : List Token}
  {done : List Char} {width : Nat} {next : Mode}

theorem between (options : Options) (text : List Char) (mode : state.mode = .between) :
    Rereads options [] [] state text := by
  intro start front rest split
  have new : (View.nowhere true).state (.fresh start) =
      (View.nowhere true).state (state.alone []) := by
    simp only [View.state, State.fresh, State.alone, mode]
    rfl
  rw [← State.run_view, ← State.run_view, new, List.nil_append]

/-- What a move reads is in front of the scan of the unit too, and it makes the same move. -/
theorem step {move : Move} (rereads : Rereads options done found state text)
    (moved : state.move options true text = move) (inside : move.InUnit)
    (seen : ∀ front, move.SeenIn (text.take width ++ front)) (start : Location)
    {front rest : List Char} (split : text.drop width = front ++ rest) :
    (View.nowhere true).halt
          ((State.fresh start).run options .text true (done ++ text.take width ++ front)) =
        (View.nowhere true).halt
          ((state.alone found).run options .text true (text.take width ++ front)) ∧
      (state.alone found).move options true (text.take width ++ front) = move := by
  have whole : text = text.take width ++ front ++ rest := by
    rw [List.append_assoc, ← split, List.take_append_drop]
  rw [List.append_assoc]
  refine ⟨rereads start _ rest whole, ?_⟩
  rw [whole] at moved
  exact State.move_alone_severed found moved inside (seen front)

/-- A move that ends no token. -/
theorem read (rereads : Rereads options done found state text)
    (moved : state.move options true text = .read width next) (inside : next ≠ .between) :
    Rereads options (done ++ text.take width) found (state.read text width next)
      (text.drop width) := by
  intro start front rest split
  have short : width ≤ text.length := (State.fits_of_move moved).1
  have length : (text.take width).length = width := List.length_take_of_le short
  have seen (front : List Char) : (Move.read width next).SeenIn (text.take width ++ front) := by
    simp only [Move.SeenIn, List.length_append, length]
    omega
  obtain ⟨again, moves⟩ := rereads.step moved inside seen start split
  rw [again, State.run_eq, moves]
  simp only [State.read, List.take_left' length, List.drop_left' length]
  rfl

/-- A move that ends a token of the unit. -/
theorem emit {kind : Kind} {lexeme : Lexeme} (rereads : Rereads options done found state text)
    (moved : state.move options true text = .emit width kind lexeme next)
    (inside : (Move.emit width kind lexeme next).InUnit) (start : Location)
    {front rest : List Char} (split : text.drop width = front ++ rest) :
    (View.nowhere true).halt
        ((State.fresh start).run options .text true (done ++ text.take width ++ front)) =
      (View.nowhere true).halt
        ((((state.alone found).record options kind lexeme).read text width next).run options .text
          true front) := by
  have short : width ≤ text.length := (State.fits_of_move moved).1
  have length : (text.take width).length = width := List.length_take_of_le short
  have seen (front : List Char) :
      (Move.emit width kind lexeme next).SeenIn (text.take width ++ front) := by
    refine ⟨?_, inside.2⟩
    rw [List.length_append, length]
    omega
  have no_end : ¬(kind = .dot ∧ Extent.text = .form) := by simp
  obtain ⟨again, moves⟩ := rereads.step moved inside seen start split
  rw [again, State.run_eq, moves]
  simp only [no_end, ↓reduceIte, State.read, List.take_left' length, List.drop_left' length]

end Rereads

/-! ### The end of a unit -/

/-- A lexeme that has become a token, with its source text. -/
def Lexeme.token (lexeme : Lexeme) (kind : Kind) : Token :=
  ⟨kind, lexeme.start, some lexeme.source⟩

/-- A scan that comes to the end of the text behind a token has nothing more to find. -/
theorem State.run_rests (state : State) (options : Options) (rests : state.mode.Rests) :
    state.run options .text true [] = .stopped state.outcome [] := by
  obtain ⟨location, tokens, checking, mode⟩ := state
  rcases rests with rfl | rfl
  · rw [run_eq]
    rfl
  · rw [run_eq]
    simp only [move, AfterString.move, ↓reduceIte, List.drop_nil]
    rw [run_eq]
    rfl

/-- A scan with the outcome of another, but for the locations, finds the same tokens. -/
theorem scanText_of_view {options : Options} {location : Location} {text : List Char}
    {list : Array Token} {finish : Location}
    (found : (View.nowhere true).outcome (scanEnded options .text location text).1 =
      (View.nowhere true).outcome (.tokens list finish)) :
    ∃ again finish, scanText options location text = .ok (again, finish) ∧
      again.toList.map Token.content = list.toList.map Token.content := by
  unfold scanText
  cases outcome : (scanEnded options .text location text).1 with
  | tokens again at_end =>
    rw [outcome] at found
    refine ⟨again, at_end, rfl, ?_⟩
    have views := congrArg Array.toList (Outcome.tokens.inj found).1
    rw [Array.toList_map, Array.toList_map] at views
    have contents := congrArg (List.map Token.content) views
    rw [List.map_map, List.map_map] at contents
    exact contents
  | nothing at_end =>
    rw [outcome] at found
    cases found
  | error problem at_end =>
    rw [outcome] at found
    cases found

theorem Rereads.readsAgain {options : Options} (captures : options.captureText = true)
    {state : State} {text done : List Char} {found : List Token} {width : Nat} {kind : Kind}
    {lexeme : Lexeme} {next : Mode} (rereads : Rereads options done found state text)
    (moved : state.move options true text = .emit width kind lexeme next)
    (inside : (Move.emit width kind lexeme next).InUnit) (rests : next.Rests)
    (source : done ++ text.take width =
      sources (found ++ [lexeme.token kind])) :
    ReadsAgain options (found ++ [lexeme.token kind]) := by
  intro location
  let last := ((state.alone found).record options kind lexeme).read text width next
  have listed : last.tokens.toList = found ++ [lexeme.token kind] := by
    simp [last, State.read, State.record, State.alone, captures, Lexeme.token]
  have outcome : last.outcome = .tokens last.tokens last.location := by
    simp [State.outcome, last, State.read, State.record]
  have halts := rereads.emit moved inside location (List.nil_append (text.drop width)).symm
  rw [List.append_nil, source, scanEnded_stops, last.run_rests options rests] at halts
  have same := (Halt.stopped.inj halts).1
  rw [outcome] at same
  rw [← listed] at same ⊢
  exact scanText_of_view same

/-! ## Runs -/

/-- What a unit is to be: complete, and read again unless it depends on its surroundings. -/
def Recovers (options : Options) (unit : List Token) : Prop :=
  IsUnit unit ∧ (¬IsContextual unit → ReadsAgain options unit)

/-- The tokens of a unit that a stage has found so far. -/
def Stage.Finds : Stage → List Token → Prop
  | .outside, found => found = []
  | .behindPrefix, found => ∃ opening name, found = [opening] ∧ opening.kind = .sigilPrefix name
  | .behindString, found => ∃ opening name string value, found = [opening, string] ∧
      opening.kind = .sigilPrefix name ∧ string.kind = .string value

/-- Comments, and the place behind a string, are in no unit. -/
def Mode.Idle (mode : Mode) : Prop :=
  mode = .comment ∨ mode = .afterString

/-- The scan has completed some units and is in another, of which it holds a lexeme. -/
structure Amidst (options : Options) (groups : List (List Token)) (found : List Token)
    (lexeme : Lexeme) (state : State) (text : List Char) : Prop where
  tokens : state.tokens.toList = groups.flatten ++ found
  complete : ∀ unit ∈ groups, Recovers options unit
  stage : state.mode.stage.Finds found
  rereads : state.mode.Idle ∨
    Rereads options (sources found ++ lexeme.source.toList) found state text

namespace Amidst

variable {options : Options} {groups : List (List Token)} {found : List Token} {lexeme : Lexeme}
  {state : State} {text : List Char} {width : Nat} {next : Mode}

theorem sources_concat (found : List Token) (lexeme : Lexeme) (kind : Kind) :
    sources (found ++ [lexeme.token kind]) = sources found ++ lexeme.source.toList := by
  simp [sources, Lexeme.token]

theorem renew (groups : List (List Token)) (complete : ∀ unit ∈ groups, Recovers options unit)
    (tokens : state.tokens.toList = groups.flatten) (stage : state.mode.stage = .outside)
    (lexeme : Lexeme) (mode : state.mode.Idle ∨ state.mode = .between ∧ lexeme.source = "") :
    Amidst options groups [] lexeme state text where
  tokens := by rw [tokens, List.append_nil]
  complete := complete
  stage := by rw [stage]; rfl
  rereads := by
    rcases mode with idle | ⟨between, unread⟩
    · exact .inl idle
    · refine .inr ?_
      rw [unread]
      exact Rereads.between options text between

theorem read_of_idle (idle : state.mode.Idle)
    (moved : state.move options true text = .read width next) : next = .between ∨ next.Idle := by
  obtain ⟨location, tokens, checking, mode⟩ := state
  rcases idle with rfl | rfl
  · simp only [State.move, Comment.move, ↓reduceIte] at moved
    repeat' split at moved
    all_goals obtain ⟨-, rfl⟩ := Move.read.inj moved
    · exact .inl rfl
    · exact .inr (.inl rfl)
    · exact .inl rfl
  · simp only [State.move, AfterString.move, ↓reduceIte] at moved
    repeat' split at moved
    · exact .inl (Move.read.inj moved).2.symm
    · cases moved
    · exact .inl (Move.read.inj moved).2.symm

theorem leave (amidst : Amidst options groups found lexeme state text)
    (moved : state.move options true text = .read width next) (later : Lexeme)
    (outside : next.Idle ∨ next = .between ∧ later.source = "") :
    Amidst options groups found later (state.read text width next) (text.drop width) := by
  have level : next.stage = .outside := by
    rcases outside with (rfl | rfl) | ⟨rfl, _⟩ <;> rfl
  have none : found = [] := by
    have finds := amidst.stage
    rw [← State.stage_of_read moved, level] at finds
    exact finds
  subst none
  refine renew groups amidst.complete ?_ level later outside
  exact amidst.tokens.trans (List.append_nil _)

/-- A move that ends no token of the unit. -/
theorem read (amidst : Amidst options groups found lexeme state text)
    (moved : state.move options true text = .read width next)
    (inside : ¬next.Idle ∧ next ≠ .between) :
    Amidst options groups found (lexeme.extend text width) (state.read text width next)
      (text.drop width) := by
  have rereads : Rereads options (sources found ++ lexeme.source.toList) found state text := by
    rcases amidst.rereads with idle | rereads
    · rcases read_of_idle idle moved with between | idle
      · exact absurd between inside.2
      · exact absurd idle inside.1
    · exact rereads
  refine ⟨amidst.tokens, amidst.complete, ?_, .inr ?_⟩
  · have finds := amidst.stage
    rw [← State.stage_of_read moved] at finds
    exact finds
  · rw [Lexeme.toList_extend, ← List.append_assoc]
    exact rereads.read moved inside.2

/-- A token comes from within a unit, so what is read of it is read again. -/
theorem rereads_of_emit (amidst : Amidst options groups found lexeme state text) {kind : Kind}
    {emitted : Lexeme} (moved : state.move options true text = .emit width kind emitted next) :
    Rereads options (sources found ++ lexeme.source.toList) found state text := by
  rcases amidst.rereads with idle | rereads
  · have completes := State.completes_of_emit moved
    rcases idle with comment | behind
    · rw [comment] at completes
      cases completes
    · rw [behind] at completes
      cases completes
  · exact rereads

theorem tokens_record (captures : options.captureText = true) (kind : Kind) (emitted : Lexeme)
    (tokens : state.tokens.toList = groups.flatten ++ found) :
    (state.record options kind emitted).tokens.toList =
      groups.flatten ++ (found ++ [emitted.token kind]) := by
  rw [← List.append_assoc, ← tokens]
  simp [State.record, captures, Lexeme.token]

theorem sources_extend (found : List Token) (lexeme : Lexeme) (text : List Char) (width : Nat)
    (kind : Kind) :
    sources found ++ lexeme.source.toList ++ text.take width =
      sources (found ++ [(lexeme.extend text width).token kind]) := by
  rw [sources_concat, Lexeme.toList_extend, List.append_assoc]

/-- A token that is not the last one of its unit. -/
theorem emit (amidst : Amidst options groups found lexeme state text) {kind : Kind}
    (captures : options.captureText = true)
    (moved : state.move options true text = .emit width kind (lexeme.extend text width) next)
    (finds : next.stage.Finds (found ++ [(lexeme.extend text width).token kind]))
    (plain : (Move.emit width kind (lexeme.extend text width) next).InUnit)
    (unchecked : State.checkingAfter false kind = false) (start : Location) :
    Amidst options groups (found ++ [(lexeme.extend text width).token kind]) (.empty start)
      ((state.record options kind (lexeme.extend text width)).read text width next)
      (text.drop width) := by
  refine ⟨tokens_record captures kind _ amidst.tokens, amidst.complete, finds, .inr ?_⟩
  intro location front rest split
  have again := (amidst.rereads_of_emit moved).emit moved plain location split
  have alone : ((state.alone found).record options kind (lexeme.extend text width)).read text
        width next =
      (((state.record options kind (lexeme.extend text width)).read text width next).alone
        (found ++ [(lexeme.extend text width).token kind])) := by
    simp [State.alone, State.record, State.read, captures, unchecked, Lexeme.token]
  rw [sources_extend found lexeme text width kind, alone] at again
  rw [Lexeme.empty, String.toList_empty, List.append_nil]
  exact again

theorem complete_unit (amidst : Amidst options groups found lexeme state text) {kind : Kind}
    (captures : options.captureText = true)
    (moved : state.move options true text = .emit width kind (lexeme.extend text width) next)
    (unit : IsUnit (found ++ [(lexeme.extend text width).token kind]))
    (plain : ¬IsContextual (found ++ [(lexeme.extend text width).token kind]) →
      (Move.emit width kind (lexeme.extend text width) next).InUnit)
    (rests : next.Rests) (start : Location) :
    Amidst options (groups ++ [found ++ [(lexeme.extend text width).token kind]]) []
      (.empty start) ((state.record options kind (lexeme.extend text width)).read text width next)
      (text.drop width) := by
  have level : next.stage = .outside := by
    rcases rests with rfl | rfl <;> rfl
  have recovers : Recovers options (found ++ [(lexeme.extend text width).token kind]) := by
    refine ⟨unit, ?_⟩
    intro free
    exact (amidst.rereads_of_emit moved).readsAgain captures moved (plain free) rests
      (sources_extend found lexeme text width kind)
  refine renew _ ?_ ?_ level _ ?_
  · intro unit listed
    rcases List.mem_append.mp listed with earlier | last
    · exact amidst.complete unit earlier
    · exact List.mem_singleton.mp last ▸ recovers
  · rw [List.flatten_concat]
    exact tokens_record captures kind _ amidst.tokens
  · rcases rests with between | behind
    · exact .inr ⟨between, rfl⟩
    · exact .inl (.inr behind)

theorem advance (amidst : Amidst options groups found lexeme state text) {kind : Kind}
    (captures : options.captureText = true)
    (moved : state.move options true text = .emit width kind (lexeme.extend text width) next)
    (start : Location) :
    ∃ groups found, Amidst options groups found (.empty start)
      ((state.record options kind (lexeme.extend text width)).read text width next)
      (text.drop width) := by
  have advances := (State.completes_of_emit moved).advances
  have finds := amidst.stage
  generalize state.mode.stage = stage at advances finds
  cases advances with
  | lone opens closes rests =>
    obtain rfl : found = [] := finds
    refine ⟨_, _, amidst.complete_unit captures moved (.lone opens closes) ?_ rests start⟩
    intro free
    constructor
    · intro close
      exact free ⟨_, rfl, .inl close⟩
    · intro dot
      exact free ⟨_, rfl, .inr dot⟩
  | opens name stage =>
    obtain rfl : found = [] := finds
    have finds' :
        next.stage.Finds ([] ++ [(lexeme.extend text width).token (.sigilPrefix name)]) := by
      rw [stage]
      exact ⟨_, name, rfl, rfl⟩
    exact ⟨_, _, amidst.emit captures moved finds' ⟨by simp, by simp⟩ rfl start⟩
  | holds value stage =>
    obtain ⟨opening, name, rfl, opens⟩ := finds
    have finds' :
        next.stage.Finds ([opening] ++ [(lexeme.extend text width).token (.string value)]) := by
      rw [stage]
      exact ⟨opening, name, _, value, rfl, opens, rfl⟩
    exact ⟨_, _, amidst.emit captures moved finds' ⟨by simp, by simp⟩ rfl start⟩
  | closes name rests =>
    obtain ⟨opening, before, string, value, rfl, opens, holds⟩ := finds
    exact ⟨_, _, amidst.complete_unit captures moved (.sigil opens holds rfl)
      (fun _ => ⟨by simp, by simp⟩) rests start⟩

end Amidst

/-- A run that finds no error finds units, and each of them is read again. -/
theorem State.run_units {options : Options} (captures : options.captureText = true)
    (origin : Location) (state : State) (text : List Char) {outcome : Outcome} {rest : List Char}
    {list : List Token} (stops : state.run options .text true text = .stopped outcome rest)
    (listed : outcome.tokens? = some list) :
    ∀ before lexeme groups found, state.Amid origin before lexeme →
      Amidst options groups found lexeme state text →
      ∃ groups : List (List Token), list = groups.flatten ∧
        ∀ unit ∈ groups, Recovers options unit := by
  fun_induction State.run options .text true state text with
  | case1 state text step => cases stops
  | case2 state text step =>
    intro before lexeme groups found amid amidst
    obtain ⟨rfl, rfl⟩ := Halt.stopped.inj stops
    have finds := amidst.stage
    rw [mode_of_finish step] at finds
    obtain rfl : found = [] := finds
    rw [tokens?_outcome, amidst.tokens, List.append_nil] at listed
    exact ⟨groups, (Option.some.inj listed).symm, amidst.complete⟩
  | case3 state text width next step ih =>
    intro before lexeme groups found amid amidst
    rcases amid.keeps step (by simp) (by simp) with held | ⟨rfl, gap⟩
    · by_cases outside : next.Idle ∨ next = .between
      · have leaves : next.Idle ∨ next = .between ∧ (lexeme.extend text width).source = "" := by
          rcases outside with idle | rfl
          · exact .inl idle
          · exact .inr ⟨rfl, held⟩
        exact ih stops _ _ _ _ (amid.read held) (amidst.leave step _ leaves)
      · exact ih stops _ _ _ _ (amid.read held) (amidst.read step (not_or.mp outside))
    · exact ih stops _ _ _ _ (amid.renew rfl) (amidst.leave step _ (.inr ⟨rfl, rfl⟩))
  | case4 state text width kind emitted next step state' stops_here => cases stops_here.2
  | case5 state text width kind emitted next step state' goes_on ih =>
    intro before lexeme groups found amid amidst
    obtain ⟨rfl, holds⟩ := amid.keeps step (by simp) (by simp)
    obtain ⟨groups', found', later⟩ := amidst.advance captures step _
    exact ih stops _ _ groups' found' (amid.emit options kind holds) later
  | case6 state text width error step =>
    obtain ⟨rfl, rfl⟩ := Halt.stopped.inj stops
    cases listed
  | case7 state text width error finish step =>
    obtain ⟨rfl, rfl⟩ := Halt.stopped.inj stops
    cases listed

/-- **Source texts say what their tokens are.** The tokens of a text that is scanned without an
error fall into sigils, of three tokens each, and tokens that belong to none. Scanned on its
own, anywhere, the source text of such a token is the token again, and the source texts of a
sigil are its three tokens again, with the same kinds, values and source texts. Left out are
the dot that closes a check annotation and the single dot that is an operator. -/
theorem units_read_again {options : Options} (captures : options.captureText = true)
    {origin : Location} {text : List Char} {tokens : Array Token} {finish : Location}
    (scanned : scanText options origin text = .ok (tokens, finish)) :
    (units tokens.toList).flatten = tokens.toList ∧
      ∀ unit ∈ units tokens.toList, IsUnit unit ∧
        (¬IsContextual unit → ReadsAgain options unit) := by
  obtain ⟨listed, _⟩ := tokens?_of_scanText scanned
  have fresh : Amidst options [] [] (.empty origin) (.fresh origin) text :=
    Amidst.renew [] (by simp) rfl rfl _ (.inr ⟨rfl, rfl⟩)
  obtain ⟨groups, split, recovers⟩ := State.run_units captures origin (.fresh origin) text
    (scanEnded_stops options .text origin text) listed [] _ [] [] (State.amid_fresh origin []) fresh
  refine ⟨flatten_units tokens.toList, ?_⟩
  rw [split, units_flatten fun unit group => (recovers unit group).1]
  exact recovers

/-- A sigil, and a character whose escape would go on with an octal digit. -/
theorem units_read_again_before_digit :
    ReadsAgain ⟨default, true, false⟩
        [⟨.sigilPrefix "s", .start, some "~s"⟩, ⟨.string "a\n", .start, some "(a\\n)"⟩,
          ⟨.sigilSuffix "b", .start, some "b"⟩] ∧
      ReadsAgain ⟨default, true, false⟩ [⟨.char '\n', .start, some "$\\12"⟩] := by
  have scanned : scanText ⟨default, true, false⟩ .start "~s(a\\n)b$\\128".toList =
      .ok (#[⟨.sigilPrefix "s", .start, some "~s"⟩, ⟨.string "a\n", .start, some "(a\\n)"⟩,
        ⟨.sigilSuffix "b", .start, some "b"⟩, ⟨.char '\n', .start, some "$\\12"⟩,
        ⟨.integer 8, .start, some "8"⟩], .start) := by decide +kernel
  obtain ⟨_, all⟩ := units_read_again rfl scanned
  constructor
  · refine (all _ (by decide +kernel)).2 ?_
    rintro ⟨token, alone, _⟩
    cases alone
  · refine (all _ (by decide +kernel)).2 ?_
    rintro ⟨token, alone, contextual⟩
    obtain rfl := List.singleton_inj.mp alone
    rcases contextual with closes | dot
    · cases closes
    · cases dot

end ErlangLexer
