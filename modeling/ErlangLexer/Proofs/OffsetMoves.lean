import ErlangLexer.Proofs.EscapedText
import ErlangLexer.Proofs.Slices

/-!
# Moves by byte offsets

Every move of a scan can be made by a cursor that knows no more of its text than slices and counts
of bytes. Between two characters it finds the slices that it asks for, and makes the move that the
characters in front of it decide on:

* `Passage`: a move that a cursor has made;
* `Escape.readSlices?`, `Escape.decodeSlices?`: escapes read and decoded by slices;
* `CharLiteral.readAt?_between`, `Punctuation.readAt?_between`, `QuoteRun.readAt?_between`,
  `NumberDraft.readAt?_between`, `QuotedDraft.readAt?_between`,
  `TripleQuotedDraft.readAt?_between`: each lexeme read by offsets comes to its move.
-/

namespace ErlangLexer

open CommandLine (bytes bytes_nil bytes_cons bytes_append)

/-! ## Passages -/

/-- How many characters a move reads. -/
def Move.width : Move → Nat
  | .wait | .finish => 0
  | .read width _ | .emit width _ _ _ | .fail width _ | .reject width _ _ => width

/-- A move, the characters that were passed for it, and the cursor behind them. -/
structure Passage where
  move : Move
  passed : List Char
  cursor : Cursor

/-- The move made between some characters and others: it passes over as many as it reads. -/
def Passage.of (front rest : List Char) (move : Move) : Passage :=
  ⟨move, rest.take move.width, .between (front ++ rest.take move.width) (rest.drop move.width)⟩

namespace Cursor

/-- Make a move: pass over as many characters as it counts. -/
def make? (cursor : Cursor) (move : Move) : Option Passage := do
  let (passed, behind) ← cursor.pass? move.width
  return ⟨move, passed, behind⟩

/-- Save the position, pass over some characters, and make the move that the text since the saved
position decides on. -/
def makeSince? (cursor : Cursor) (width : Nat) (move : List Char → Move) : Option Passage := do
  let (passed, behind) ← cursor.pass? width
  let since ← behind.since? cursor.position
  return ⟨move since, passed, behind⟩

variable (front rest : List Char)

@[simp] theorem make?_between (move : Move) :
    (between front rest).make? move = some (.of front rest move) := by
  simp only [make?, pass?_between, Option.bind_eq_bind, Option.bind_some, Option.pure_def,
    Passage.of]

theorem makeSince?_between {width : Nat} {move : List Char → Move}
    (counts : (move (rest.take width)).width = width) :
    (between front rest).makeSince? width move =
      some (.of front rest (move (rest.take width))) := by
  simp only [makeSince?, pass?_between, Option.bind_eq_bind, Option.bind_some, position_between,
    since?_between, Option.pure_def, Passage.of, counts]

end Cursor

/-! ## Escapes -/

namespace Escape

/-- What the text behind a backslash amounts to. The text behind an `x` is sliced off. -/
def readSlices? (text : List Char) (ended : Bool) : Option Escape :=
  match text with
  | 'x' :: _ => (behind? text 1).map readHex
  | _ => some (read text ended)

theorem readSlices?_eq (text : List Char) (ended : Bool) :
    readSlices? text ended = some (read text ended) := by
  unfold readSlices?
  split
  · rw [behind?_one (by decide)]
    rfl
  · rfl

/-- How many characters a text that is no escape takes with its backslash. -/
def faultWidth : Escape → Nat
  | .malformed width => 1 + width
  | _ => 1

/-- The byte offset of the first backslash. -/
def backslash? (text : List Char) : Option Nat :=
  if '\\' ∈ text then some (bytes (text.takeWhile (· != '\\'))) else none

/-- The text in front of the first backslash, what the text behind it amounts to, and that text. -/
def next? (text : List Char) : Option (Option (List Char × Escape × List Char)) :=
  match backslash? text with
  | none => some none
  | some place => do
    let plain ← slice? text 0 place
    let rest ← behind? text (place + 1)
    let escape ← readSlices? rest true
    return some (plain, escape, rest)

theorem length_lt_of_next? {text plain rest : List Char} {escape : Escape}
    (found : next? text = some (some (plain, escape, rest))) : rest.length < text.length := by
  unfold next? at found
  split at found
  · cases found
  · obtain ⟨front, -, found⟩ := Option.bind_eq_some_iff.mp found
    obtain ⟨behind, sliced, found⟩ := Option.bind_eq_some_iff.mp found
    obtain ⟨read, -, found⟩ := Option.bind_eq_some_iff.mp found
    cases found
    exact length_lt_of_behind? (Nat.succ_pos _) sliced

/-- A text with every escape decoded, or its first faulty escape, by slices from one backslash to
the next. -/
def decodeSlices? (offset : Nat) (text : List Char) : Option (Except Fault (List Char)) :=
  match _found : next? text with
  | none => none
  | some none => some (.ok text)
  | some (some (plain, escape, rest)) =>
    match escape.value? with
    | none => some (.error ⟨offset + plain.length, escape.faultWidth⟩)
    | some (value, width) =>
      match _left : behind? rest (bytes (rest.take width)) with
      | none => none
      | some more => (decodeSlices? (offset + plain.length + (1 + width)) more).map
          fun decoded => decoded.map (plain ++ value :: ·)
termination_by text.length
decreasing_by exact Nat.lt_of_le_of_lt (length_le_of_slice? _left) (length_lt_of_next? _found)

theorem Decodes.of_plain {plain : List Char} (free : '\\' ∉ plain) (rest : List Char) :
    Decodes rest (plain ++ rest) plain := by
  induction plain with
  | nil => exact .nothing
  | cons c plain ih =>
    obtain ⟨here, later⟩ := not_or.mp (List.mem_cons.not.mp free)
    exact .plain (Ne.symm here) (ih later)

theorem next?_of_plain {text : List Char} (free : '\\' ∉ text) : next? text = some none := by
  rw [next?, backslash?, if_neg free]

theorem next?_of_backslash {plain : List Char} (free : '\\' ∉ plain) (rest : List Char) :
    next? (plain ++ '\\' :: rest) = some (some (plain, read rest true, rest)) := by
  have all : ∀ c ∈ plain, (c != '\\') = true := by
    intro c listed
    exact bne_iff_ne.mpr fun same => free (same ▸ listed)
  have place : backslash? (plain ++ '\\' :: rest) = some (bytes plain) := by
    rw [backslash?, if_pos (by simp), List.takeWhile_append_of_pos all,
      List.takeWhile_cons_of_neg (by simp), List.append_nil]
  have front : slice? (plain ++ '\\' :: rest) 0 (bytes plain) = some plain :=
    slice?_between [] plain ('\\' :: rest)
  have behind : behind? (plain ++ '\\' :: rest) (bytes plain + 1) = some rest := by
    have sliced := behind?_front (plain ++ ['\\']) rest
    rw [List.append_assoc, bytes_append] at sliced
    exact sliced
  simp only [next?, place, front, behind, readSlices?_eq, Option.bind_eq_bind, Option.bind_some,
    Option.pure_def]

theorem next?_cases (text : List Char) :
    ('\\' ∉ text ∧ next? text = some none) ∨
      ∃ plain rest, text = plain ++ '\\' :: rest ∧ '\\' ∉ plain ∧
        next? text = some (some (plain, read rest true, rest)) := by
  by_cases listed : '\\' ∈ text
  · obtain ⟨plain, rest, rfl, free⟩ := List.eq_append_cons_of_mem listed
    exact .inr ⟨plain, rest, rfl, free, next?_of_backslash free rest⟩
  · exact .inl ⟨listed, next?_of_plain listed⟩

theorem decodeFrom_append_plain {plain : List Char} (free : '\\' ∉ plain) (offset : Nat)
    (rest : List Char) : decodeFrom offset (plain ++ rest) =
      (decodeFrom (offset + plain.length) rest).map (plain ++ ·) := by
  rw [decodeFrom_of_decodes (Decodes.of_plain free rest), List.length_append, Nat.add_sub_cancel]

theorem decodeFrom_of_value?_eq_none {rest : List Char} (none : (read rest true).value? = none)
    (offset : Nat) :
    decodeFrom offset ('\\' :: rest) = .error ⟨offset, (read rest true).faultWidth⟩ := by
  rw [decodeFrom, if_pos rfl]
  rcases (read rest true).value?_cases with ⟨c, width, stands⟩ | cut | ⟨width, wrong⟩
  · rw [none] at stands
    cases stands
  · rw [cut]
    rfl
  · rw [wrong]
    rfl

theorem decodeSlices?_eq (offset : Nat) (text : List Char) :
    decodeSlices? offset text = some (decodeFrom offset text) := by
  have split {text plain rest : List Char} {escape : Escape}
      (found : next? text = some (some (plain, escape, rest))) :
      text = plain ++ '\\' :: rest ∧ '\\' ∉ plain ∧ escape = read rest true := by
    rcases next?_cases text with ⟨-, other⟩ | ⟨_, _, same, free, other⟩ <;>
      rw [found] at other <;> cases other
    exact ⟨same, free, rfl⟩
  fun_induction decodeSlices? offset text with
  | case1 offset text missing =>
    rcases next?_cases text with ⟨-, found⟩ | ⟨_, _, -, -, found⟩ <;>
      rw [missing] at found <;> cases found
  | case2 offset text found =>
    rcases next?_cases text with ⟨free, -⟩ | ⟨_, _, -, -, other⟩
    · have plain := decodeFrom_append_plain free offset []
      rw [List.append_nil, decodeFrom] at plain
      rw [plain, Except.map, List.append_nil]
    · rw [found] at other
      cases other
  | case3 offset text plain escape rest found none =>
    obtain ⟨rfl, free, rfl⟩ := split found
    rw [decodeFrom_append_plain free, decodeFrom_of_value?_eq_none none]
    rfl
  | case4 offset text plain escape rest found value width stands missing =>
    have left := behind?_front (rest.take width) (rest.drop width)
    rw [List.take_append_drop, missing] at left
    cases left
  | case5 offset text plain escape rest found value width stands more left ih =>
    obtain ⟨rfl, free, rfl⟩ := split found
    have ahead := behind?_front (rest.take width) (rest.drop width)
    rw [List.take_append_drop, left] at ahead
    obtain rfl := Option.some.inj ahead
    rw [ih, decodeFrom_append_plain free, decodeFrom_escape stands, Option.map_some]
    cases decodeFrom (offset + plain.length + (1 + width)) (rest.drop width) <;> rfl

end Escape

namespace Layout

/-- The stripped lines with their escapes decoded by slices, or the first faulty escape and the
line that it is on. -/
def decodeSlices? :
    List (List Char) → List ContentLine → Option (Except (Int32 × Escape.Fault) (List Char))
  | text :: texts, line :: lines => do
    match ← Escape.decodeSlices? 0 text with
    | .error fault => some (.error (line.line, fault))
    | .ok value =>
      let later ← decodeSlices? texts lines
      return later.map (value ++ ·)
  | _, _ => some (.ok [])

theorem decodeSlices?_eq (texts : List (List Char)) (lines : List ContentLine) :
    decodeSlices? texts lines = some (decode texts lines) := by
  induction texts generalizing lines with
  | nil => rfl
  | cons text texts ih =>
    cases lines with
    | nil => rfl
    | cons line lines =>
      simp only [decodeSlices?, decode, Escape.decodeSlices?_eq, ih, Option.bind_eq_bind,
        Option.bind_some, Option.pure_def, Escape.decodeText]
      cases Escape.decodeFrom 0 text <;> rfl

end Layout

/-! ## Lexemes by offsets -/

namespace Comment

/-- At a percent sign: the move of a marker, or of a text that may become one. -/
def markerAt? (options : Options) (checking : Bool) (here : Location) (cursor : Cursor)
    (ended : Bool) : Option (Option Passage) := do
  let rest ← cursor.rest?
  if options.checkComments && marker.isPrefixOf rest then
    let width := bytes marker
    let move :=
      if checking then Move.read width .between
      else .emit width .checkOpen ⟨here, String.ofList marker⟩ .between
    return some (← cursor.make? move)
  else if options.checkComments && !ended && shortOf rest marker then
    return some (← cursor.make? .wait)
  else return none

theorem markerAt?_between (options : Options) (checking : Bool) (here : Location)
    (front rest : List Char) (ended : Bool) :
    markerAt? options checking here (.between front rest) ended =
        some (some (.of front rest (openMove options checking here rest ended))) ∨
      markerAt? options checking here (.between front rest) ended = some none ∧
        openMove options checking here rest ended = .read 1 .comment := by
  simp only [markerAt?, openMove, Cursor.rest?_between, Cursor.make?_between, shortOf_eq,
    Option.bind_eq_bind, Option.bind_some, Option.pure_def]
  split
  · rename_i marked
    simp only [Bool.and_eq_true, List.isPrefixOf_iff_prefix] at marked
    obtain ⟨behind, rfl⟩ := marked.2
    left
    split <;> rfl
  · split
    · exact .inl rfl
    · exact .inr ⟨rfl, rfl⟩

end Comment

namespace CharLiteral

/-- A character literal of some width. -/
def literalAt? (here : Location) (cursor : Cursor) (value : Char) (width : Nat) :
    Option Passage :=
  cursor.makeSince? width fun since =>
    .emit width (.char value) ⟨here, String.ofList since⟩ .between

/-- At a dollar sign. -/
def readAt? (here : Location) (cursor : Cursor) (ended : Bool) : Option Passage := do
  match ← cursor.peek? with
  | none => cursor.make? (if ended then .fail 1 ⟨here, .unterminatedChar⟩ else .wait)
  | some c =>
    if c = '\\' then
      let rest ← cursor.rest?
      let behind ← behind? rest 2
      match ← Escape.readSlices? behind ended with
      | .char value width => literalAt? here cursor value (2 + width)
      | .lineBreak => literalAt? here cursor '\n' 3
      | .incomplete =>
        cursor.make? (if ended then .fail rest.length ⟨here, .unterminatedChar⟩ else .wait)
      | .malformed width => cursor.make? (.fail (2 + width) (.illegal here .character))
    else if isText c then literalAt? here cursor c 2
    else cursor.make? (.fail 2 (.illegal (here.next '$') .character))

theorem literalAt?_between (here : Location) (front rest : List Char) (value : Char)
    (width : Nat) :
    literalAt? here (.between front rest) value width =
      some (.of front rest (.emit width (.char value) (.front here rest width) .between)) :=
  Cursor.makeSince?_between front rest rfl

theorem readAt?_between (here : Location) (front rest : List Char) (ended : Bool) :
    readAt? here (.between front ('$' :: rest)) ended =
      some (.of front ('$' :: rest) (move here rest ended)) := by
  simp only [readAt?, move, Cursor.peek?_between, Cursor.rest?_between, Cursor.make?_between,
    List.getElem?_cons_succ, Option.bind_eq_bind, Option.bind_some, literalAt?_between]
  cases rest with
  | nil => rfl
  | cons c rest =>
    simp only [List.getElem?_cons_zero]
    split
    · subst_vars
      have behind : behind? ('$' :: '\\' :: rest) 2 = some rest :=
        behind?_front ['$', '\\'] rest
      simp only [behind, Option.bind_some, Escape.readSlices?_eq]
      cases Escape.read rest ended <;> rfl
    · split <;> rfl

end CharLiteral

namespace Punctuation

/-- At a dot that ends a form: it takes one blank with it. -/
def terminatorAt? (checking : Bool) (here : Location) (cursor : Cursor) : Option Passage := do
  let (dot, behind) ← cursor.pass? 1
  let blank ← behind.current?
  let (taken, behind) ← behind.pass? (if blank.any isBlank then 1 else 0)
  let since ← behind.since? cursor.position
  let passed := dot ++ taken
  return ⟨.emit passed.length (if checking then .checkClose else .dot)
    ⟨here, String.ofList since⟩ .between, passed, behind⟩

/-- At an operator. It is as wide as its spelling has bytes. -/
def operatorAt? (here : Location) (cursor : Cursor) (op : Operator) : Option Passage :=
  let width := bytes op.spelling
  cursor.makeSince? width fun since =>
    .emit width (.operator op) ⟨here, String.ofList since⟩ .between

/-- At a character that starts nothing else. -/
def readAt? (checking : Bool) (here : Location) (c : Char) (cursor : Cursor) (ended : Bool) :
    Option Passage := do
  let rest ← cursor.rest?
  if !ended && Operator.table.any fun op => shortOf rest op.spelling then cursor.make? .wait
  else
    match Operator.longest? rest with
    | some op =>
      let next ← cursor.peek?
      if op = .dot ∧ next.all (fun d => isBlank d || d == '%') = true then
        terminatorAt? checking here cursor
      else operatorAt? here cursor op
    | none =>
      if isText c then
        cursor.make? (.emit 1 (.symbol c) ⟨here, String.ofList [c]⟩ .between)
      else cursor.make? (.fail 1 (.illegal here .character))

theorem terminatorAt?_between (checking : Bool) (here : Location) (front : List Char) (c : Char)
    (rest : List Char) :
    terminatorAt? checking here (.between front (c :: rest)) =
      some (.of front (c :: rest) (.emit (terminatorWidth rest)
        (if checking then .checkClose else .dot)
        (.front here (c :: rest) (terminatorWidth rest)) .between)) := by
  have since (taken behind : List Char) :
      (Cursor.between (front ++ [c] ++ taken) behind).since? (bytes front) = some (c :: taken) := by
    rw [List.append_assoc, Cursor.since?_between]
    rfl
  simp only [terminatorAt?, Cursor.pass?_between, Cursor.current?_between, Cursor.position_between,
    List.take_succ_cons, List.take_zero, List.drop_succ_cons, List.drop_zero, since,
    Option.bind_eq_bind, Option.bind_some, Option.pure_def]
  cases rest with
  | nil => simp [terminatorWidth, Passage.of, Move.width, Lexeme.front]
  | cons d rest =>
    cases blank : isBlank d <;> simp [blank, terminatorWidth, Passage.of, Move.width, Lexeme.front]

theorem operatorAt?_between (here : Location) (front rest : List Char) (op : Operator) :
    operatorAt? here (.between front rest) op =
      some (.of front rest (.emit op.spelling.length (.operator op)
        (.front here rest op.spelling.length) .between)) := by
  have width : bytes op.spelling = op.spelling.length := by cases op <;> rfl
  rw [operatorAt?, width]
  exact Cursor.makeSince?_between front rest rfl

theorem readAt?_between (checking : Bool) (here : Location) (front : List Char) (c : Char)
    (rest : List Char) (ended : Bool) :
    readAt? checking here c (.between front (c :: rest)) ended =
      some (.of front (c :: rest) (move checking here c rest ended)) := by
  have ends : (rest.head?.all fun d => isBlank d || d == '%') = endsForm rest := by
    cases rest <;> rfl
  have grows : (Operator.table.any fun op => shortOf (c :: rest) op.spelling) =
      Operator.mayGrow (c :: rest) := by
    simp only [shortOf_eq, Operator.mayGrow]
  simp only [readAt?, move, Cursor.rest?_between, Cursor.peek?_between, Cursor.make?_between,
    List.getElem?_cons_succ, ← List.head?_eq_getElem?, ends, grows, terminatorAt?_between,
    operatorAt?_between, Option.bind_eq_bind, Option.bind_some]
  by_cases waits : (!ended && Operator.mayGrow (c :: rest)) = true
  · simp only [waits, ↓reduceIte]
  · simp only [waits, Bool.false_eq_true, ↓reduceIte]
    cases Operator.longest? (c :: rest) with
    | none => cases isText c <;> rfl
    | some op =>
      dsimp only
      split <;> rfl

end Punctuation

namespace QuotedDraft

/-- At an opening delimiter. -/
def openAt? (here : Location) (quotation : Quotation) (close : Char) (cursor : Cursor) :
    Option Passage := do
  let opening ← cursor.current?
  let source := String.ofList [opening.getD close]
  cursor.make? (.read 1 (.quoted ⟨⟨here, source⟩, quotation, close, ""⟩))

/-- The text goes on with this character, which stands for itself. -/
def goesOn (draft : QuotedDraft) (c : Char) : Bool :=
  !(c = draft.close || c = '\n' || (c = '\\' && !draft.quotation.isVerbatim) || !isText c)

/-- At a backslash that escapes. -/
def escapeAt? (draft : QuotedDraft) (here : Location) (cursor : Cursor) (ended : Bool) :
    Option Passage := do
  let rest ← cursor.rest?
  let behind ← behind? rest 1
  match ← Escape.readSlices? behind ended with
  | .char value width =>
    cursor.makeSince? (1 + width) fun since => draft.readValue since (1 + width) value
  | .lineBreak => cursor.makeSince? 2 fun since => draft.readValue since 2 '\n'
  | .incomplete => cursor.make? (if ended then draft.unterminated rest.length else .wait)
  | .malformed width => cursor.make? (.fail (1 + width) (.illegal here .character))

/-- At a character that does not stand for itself, or at the end of the text. -/
def readAt? (draft : QuotedDraft) (here : Location) (cursor : Cursor) (ended : Bool) :
    Option Passage := do
  match ← cursor.current? with
  | none => cursor.make? (if ended then draft.unterminated 0 else .wait)
  | some c =>
    if c = draft.close then cursor.make? (draft.complete here [c])
    else if c = '\n' then cursor.make? (draft.readValue [c] 1 c)
    else if c = '\\' && !draft.quotation.isVerbatim then draft.escapeAt? here cursor ended
    else cursor.make? (.fail 1 (.illegal here .character))

variable (front rest : List Char)

theorem openAt?_between (here : Location) (quotation : Quotation) (close c : Char) :
    openAt? here quotation close (.between front (c :: rest)) =
      some (.of front (c :: rest) (openMove here quotation close (c :: rest))) := by
  simp only [openAt?, Cursor.current?_between, Cursor.make?_between, Option.bind_eq_bind,
    Option.bind_some]
  rfl

theorem readValue_take (draft : QuotedDraft) (width : Nat) (value : Char) :
    draft.readValue (rest.take width) width value = draft.readValue rest width value := by
  simp only [readValue, Lexeme.extend, List.take_take, Nat.min_self]

theorem escapeAt?_between (draft : QuotedDraft) (here : Location) (ended : Bool) :
    draft.escapeAt? here (.between front ('\\' :: rest)) ended =
      some (.of front ('\\' :: rest) (draft.escape here ('\\' :: rest) rest ended)) := by
  have reads (width : Nat) (value : Char) :
      (Cursor.between front ('\\' :: rest)).makeSince? width
        (fun since => draft.readValue since width value) =
      some (.of front ('\\' :: rest) (draft.readValue ('\\' :: rest) width value)) := by
    rw [Cursor.makeSince?_between front _ rfl, readValue_take]
  simp only [escapeAt?, escape, Cursor.rest?_between, Cursor.make?_between,
    behind?_one (c := '\\') (by decide), Escape.readSlices?_eq, reads, Option.bind_eq_bind,
    Option.bind_some]
  cases Escape.read rest ended <;> rfl

theorem readAt?_between (draft : QuotedDraft) (here : Location) (ended : Bool)
    (stops : ∀ c ∈ rest.head?, draft.goesOn c = false) :
    draft.readAt? here (.between front rest) ended =
      some (.of front rest (draft.move here rest ended)) := by
  simp only [readAt?, move, Cursor.current?_between, Cursor.make?_between, Option.bind_eq_bind,
    Option.bind_some]
  cases rest with
  | nil => rfl
  | cons c rest =>
    have stop := stops c rfl
    simp only [goesOn, List.head?_cons] at stop ⊢
    by_cases closes : c = draft.close
    · simp only [closes, ↓reduceIte]
      rfl
    · by_cases line : c = '\n'
      · subst line
        have text : isText '\n' = true := by decide
        simp only [closes, text, Char.reduceEq, decide_false, Bool.false_and, Bool.false_eq_true,
          ↓reduceIte]
        rfl
      · by_cases backslash : c = '\\' ∧ draft.quotation.isVerbatim = false
        · obtain ⟨rfl, escapes⟩ := backslash
          simp only [closes, escapes, Char.reduceEq, decide_true, Bool.not_false, Bool.and_self,
            ↓reduceIte]
          exact escapeAt?_between front rest draft here ended
        · have plain : (c = '\\' && !draft.quotation.isVerbatim) = false := by simpa using backslash
          have foreign : isText c = false := by
            simpa only [closes, line, plain, decide_false, Bool.false_or, Bool.not_not] using stop
          simp only [closes, line, plain, foreign, Bool.false_eq_true, ↓reduceIte]

end QuotedDraft

namespace QuoteRun

/-- At a double quote that opens a string. The quotes are counted by their bytes. -/
def readAt? (here : Location) (sigil : Option Sigil) (cursor : Cursor) (ended : Bool) :
    Option Passage := do
  let rest ← cursor.rest?
  let run := byteRun '"' rest
  if !ended && run == bytes rest then cursor.make? .wait
  else if run = 1 then QuotedDraft.openAt? here (quotation sigil) '"' cursor
  else if run = 2 then
    cursor.make? (.emit 2 (.string "") ⟨here, "\"\""⟩ (afterEmpty (here.shift 2) sigil))
  else
    let source := String.ofList (List.replicate run '"')
    cursor.make? (.read run (.tripleQuoted ⟨⟨here, source⟩, run, sigil, "", none⟩))

theorem readAt?_between (here : Location) (sigil : Option Sigil) (front rest : List Char)
    (ended : Bool) :
    readAt? here sigil (.between front ('"' :: rest)) ended =
      some (.of front ('"' :: rest) (move here sigil ('"' :: rest) ended)) := by
  have count := byteRun_eq (c := '"') (by decide) ('"' :: rest)
  have whole := runLength_beq_bytes (c := '"') (by decide) ('"' :: rest)
  simp only [readAt?, move, Cursor.rest?_between, Cursor.make?_between, count, whole,
    QuotedDraft.openAt?_between, Option.bind_eq_bind, Option.bind_some]
  by_cases waits : (!ended && isRun '"' ('"' :: rest)) = true
  · simp only [waits, ↓reduceIte]
  · simp only [waits, Bool.false_eq_true, ↓reduceIte]
    by_cases one : runLength '"' ('"' :: rest) = 1
    · simp only [one, ↓reduceIte]
    · by_cases two : runLength '"' ('"' :: rest) = 2
      · have quotes := take_runLength '"' ('"' :: rest)
        rw [two] at quotes
        have behind : here.walk (List.replicate 2 '"') = here.shift 2 :=
          here.walk_inline (by decide)
        simp only [two, Lexeme.front, quotes, behind, Nat.reduceEqDiff, ↓reduceIte]
        rfl
      · simp only [one, two, ↓reduceIte, TripleQuotedDraft.openMove, Lexeme.front, take_runLength]

end QuoteRun

namespace Sigil

/-- Behind the name of a sigil. -/
def readAt? (sigil : Sigil) (here : Location) (cursor : Cursor) (ended : Bool) :
    Option Passage := do
  match ← cursor.current? with
  | none => cursor.make? (if ended then .fail 0 ⟨sigil.start, .unterminatedSigil ""⟩ else .wait)
  | some c =>
    if c = '"' then QuoteRun.readAt? here (some sigil) cursor ended
    else
      match closing? c with
      | some close => QuotedDraft.openAt? here (.sigil sigil.verbatim) close cursor
      | none => cursor.make? (.fail 1 (.illegal here .string))

theorem readAt?_between (sigil : Sigil) (here : Location) (front rest : List Char)
    (ended : Bool) :
    sigil.readAt? here (.between front rest) ended =
      some (.of front rest (sigil.move here rest ended)) := by
  simp only [readAt?, move, Cursor.current?_between, Cursor.make?_between, Option.bind_eq_bind,
    Option.bind_some]
  cases rest with
  | nil => rfl
  | cons c rest =>
    simp only [List.head?_cons]
    by_cases quote : c = '"'
    · subst quote
      simp only [↓reduceIte]
      exact QuoteRun.readAt?_between here (some sigil) front rest ended
    · simp only [quote, ↓reduceIte]
      cases closing? c with
      | some close => exact QuotedDraft.openAt?_between front rest here _ close c
      | none => rfl

end Sigil

namespace AfterString

/-- Directly behind a string in double quotes. -/
def readAt? (here : Location) (cursor : Cursor) (ended : Bool) : Option Passage := do
  match ← cursor.current? with
  | none => cursor.make? (if ended then .read 0 .between else .wait)
  | some c => cursor.make? (if c = '"' then .fail 1 ⟨here, .adjacentStrings⟩ else .read 0 .between)

theorem readAt?_between (here : Location) (front rest : List Char) (ended : Bool) :
    readAt? here (.between front rest) ended =
      some (.of front rest (move here rest ended)) := by
  simp only [readAt?, move, Cursor.current?_between, Cursor.make?_between, Option.bind_eq_bind,
    Option.bind_some]
  cases rest <;> rfl

end AfterString

namespace NumberDraft

/-- At underscores behind a digit. They are counted by their bytes. -/
def underscoresAt? (draft : NumberDraft) (cursor : Cursor) (ended : Bool) : Option Passage := do
  let next ← cursor.peek?
  match next.bind draft.part.digit? with
  | some part => cursor.make? (draft.readTo ('_' :: next.toList) 2 part)
  | none =>
    let rest ← cursor.rest?
    let run := byteRun '_' rest
    cursor.make? (if !ended && run == bytes rest then .wait else draft.fault run)

/-- Within a number. -/
def readAt? (draft : NumberDraft) (cursor : Cursor) (ended : Bool) : Option Passage := do
  match ← cursor.current? with
  | none => cursor.make? (if ended then draft.complete else .wait)
  | some c =>
    match draft.part.digit? c with
    | some part => cursor.make? (draft.readTo [c] 1 part)
    | none =>
      if c = '_' && draft.part.hasDigit then draft.underscoresAt? cursor ended
      else do
        let next ← cursor.peek?
        cursor.make? (draft.mark c (c :: next.toList) ended)

variable (draft : NumberDraft) (front rest : List Char) (ended : Bool)

theorem underscoresAt?_between :
    draft.underscoresAt? (.between front ('_' :: rest)) ended =
      some (.of front ('_' :: rest) (draft.underscores ('_' :: rest) ended)) := by
  have count := byteRun_eq (c := '_') (by decide) ('_' :: rest)
  have whole := runLength_beq_bytes (c := '_') (by decide) ('_' :: rest)
  simp only [underscoresAt?, underscores, Cursor.peek?_between, Cursor.rest?_between,
    Cursor.make?_between, List.getElem?_cons_succ, count, whole, Option.bind_eq_bind,
    Option.bind_some]
  cases rest with
  | nil => cases ended <;> rfl
  | cons d rest =>
    simp only [List.getElem?_cons_zero, Option.bind_some]
    cases draft.part.digit? d <;> rfl

/-- What is made of a character that is no digit depends on no more than the next one. -/
theorem mark_head (c : Char) :
    draft.mark c (c :: rest.head?.toList) ended = draft.mark c (c :: rest) ended := by
  cases rest with
  | nil => rfl
  | cons d rest => rfl

theorem readAt?_between :
    draft.readAt? (.between front rest) ended = some (.of front rest (draft.move rest ended)) := by
  simp only [readAt?, move, Cursor.current?_between, Cursor.peek?_between, Cursor.make?_between,
    Option.bind_eq_bind, Option.bind_some]
  cases rest with
  | nil => rfl
  | cons c rest =>
    simp only [List.head?_cons, List.getElem?_cons_succ, ← List.head?_eq_getElem?, mark_head]
    cases draft.part.digit? c with
    | some part => rfl
    | none =>
      dsimp only
      split
      · rename_i underscore
        obtain ⟨rfl, -⟩ : c = '_' ∧ draft.part.hasDigit = true := by simpa using underscore
        exact draft.underscoresAt?_between front rest ended
      · rfl

end NumberDraft

namespace TripleQuotedDraft

/-- The value of a literal, its escapes decoded by slices, or what is wrong with its layout. -/
def valueSlices? (draft : TripleQuotedDraft) (here : Location) :
    Option (Except Misfit (List Char)) :=
  match draft.opening.toList.findIdx? fun c => !isInlineBlank c with
  | some index =>
    some (.error ⟨⟨draft.lexeme.start.shift (draft.quotes + index), .whiteSpace⟩, 1⟩)
  | none =>
    let stripped := Layout.strip draft.indent draft.lines
    match stripped.bad with
    | some (line, index) => some (.error ⟨⟨here.onLine line (index + 1), .indentation⟩, 1⟩)
    | none =>
      if draft.isVerbatim then
        some (.ok (Layout.dropLastBreak draft.lines stripped.texts.flatten))
      else do
        match ← Layout.decodeSlices? stripped.texts draft.lines with
        | .error (line, fault) =>
          let location := here.onLine line (draft.indent.length + fault.offset + 1)
          some (.error ⟨.illegal location .character, fault.width⟩)
        | .ok content => some (.ok (Layout.dropLastBreak draft.lines content))

theorem valueSlices?_eq (draft : TripleQuotedDraft) (here : Location) :
    draft.valueSlices? here = some (draft.value here) := by
  simp only [valueSlices?, value, Layout.decodeSlices?_eq, Option.bind_eq_bind, Option.bind_some]
  cases draft.opening.toList.findIdx? fun c => !isInlineBlank c with
  | some index => rfl
  | none =>
    cases (Layout.strip draft.indent draft.lines).bad with
    | some bad => rfl
    | none =>
      cases draft.isVerbatim with
      | true => rfl
      | false =>
        cases Layout.decode (Layout.strip draft.indent draft.lines).texts draft.lines <;> rfl

/-- The move at the closing quotes, for the value or for what is wrong with the layout. -/
def settle (draft : TripleQuotedDraft) (here : Location) (value : Except Misfit (List Char)) :
    Move :=
  let quotes := List.replicate draft.quotes '"'
  match value with
  | .ok value =>
    let next := match draft.sigil with
      | some _ => Mode.name ⟨here.shift draft.quotes, .sigilSuffix false, ""⟩
      | none => .between
    .emit draft.quotes (.string (String.ofList value))
      (draft.lexeme.extend quotes draft.quotes) next
  | .error misfit =>
    .reject draft.quotes misfit.error (misfit.error.location.shift misfit.width)

/-- At a run of quotes that may close the string. The quotes are counted by their bytes. -/
def quoteRunAt? (draft : TripleQuotedDraft) (here : Location) (cursor : Cursor) (ended : Bool) :
    Option Passage := do
  let rest ← cursor.rest?
  let run := byteRun '"' rest
  if !ended && run == bytes rest then cursor.make? .wait
  else if run = draft.quotes then
    let value ← draft.valueSlices? here
    cursor.make? (draft.settle here value)
  else
    let quotes := List.replicate run '"'
    cursor.make? (.read run (.tripleQuoted (draft.pushFront quotes run)))

/-- Within a triple-quoted string. -/
def readAt? (draft : TripleQuotedDraft) (here : Location) (cursor : Cursor) (ended : Bool) :
    Option Passage := do
  match ← cursor.current? with
  | none => cursor.make? (if ended then draft.unterminated else .wait)
  | some c =>
    if !isText c then cursor.make? (.fail 1 (.illegal here .character))
    else if c == '"' && draft.mayClose then draft.quoteRunAt? here cursor ended
    else cursor.make? (.read 1 (.tripleQuoted (draft.push c)))

variable (draft : TripleQuotedDraft) (here : Location) (front rest : List Char) (ended : Bool)

theorem settle_eq {text : List Char}
    (quotes : text.take draft.quotes = List.replicate draft.quotes '"') :
    draft.settle here (draft.value here) = draft.complete here text := by
  have behind : here.walk (List.replicate draft.quotes '"') = here.shift draft.quotes := by
    have := here.walk_inline (show '\n' ∉ List.replicate draft.quotes '"' by simp)
    rwa [List.length_replicate] at this
  unfold settle complete
  cases draft.value here with
  | ok value =>
    cases draft.sigil <;>
      simp only [Lexeme.extend, quotes, behind, List.take_replicate, Nat.min_self]
  | error misfit => rfl

theorem quoteRunAt?_between :
    draft.quoteRunAt? here (.between front ('"' :: rest)) ended =
      some (.of front ('"' :: rest) (draft.quoteRun here ('"' :: rest) ended)) := by
  have count := byteRun_eq (c := '"') (by decide) ('"' :: rest)
  have whole := runLength_beq_bytes (c := '"') (by decide) ('"' :: rest)
  have quotes := take_runLength '"' ('"' :: rest)
  simp only [quoteRunAt?, quoteRun, Cursor.rest?_between, Cursor.make?_between, count, whole,
    valueSlices?_eq, pushFront, quotes, List.take_replicate, Nat.min_self,
    Option.bind_eq_bind, Option.bind_some]
  split
  · rfl
  · split
    · rename_i closes
      rw [closes] at quotes
      rw [draft.settle_eq here quotes]
    · rfl

theorem readAt?_between :
    draft.readAt? here (.between front rest) ended =
      some (.of front rest (draft.move here rest ended)) := by
  simp only [readAt?, move, Cursor.current?_between, Cursor.make?_between, Option.bind_eq_bind,
    Option.bind_some]
  cases rest with
  | nil => rfl
  | cons c rest =>
    simp only [List.head?_cons]
    split
    · rfl
    · split
      · rename_i quote
        obtain ⟨rfl, -⟩ : c = '"' ∧ draft.mayClose = true := by
          simpa only [Bool.and_eq_true, beq_iff_eq] using quote
        exact draft.quoteRunAt?_between here front rest ended
      · rfl

end TripleQuotedDraft

end ErlangLexer
