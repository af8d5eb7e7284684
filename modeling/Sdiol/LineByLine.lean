import Sdiol.Reader

namespace Sdiol

/-!
# Parsing line by line

What `main_read` is meant to do with a byte stream says nothing about buffers: `linesOf` are the
lines that end with a newline, and `lineEvent` is the event of a line of five numbers with
colons in between.

`parses` follows the loop of `main_read` and records for every line that it finds what was
handed to `sscanf`: the bytes of the line that are still in the buffer, and the C string that
starts there.  The records are those of the lines of the stream (`parses_lines`) and their
events are what is written (`parses_events`).  `Parse.alone_iff` says when a line is parsed
from its own bytes and for what it is.
-/

/-! ### The lines of a stream and their events -/

/-- The lines that end with a newline. -/
def linesOf (stream : List UInt8) : List (List UInt8) := (stream.splitOn newline).dropLast

/-- The numbers of a line, if it consists of numbers with colons in between. -/
def lineNumbers (line : List UInt8) : Option (List UInt64) :=
  let parts := line.splitOn colon
  if ∀ p ∈ parts, p ≠ [] ∧ ∀ b ∈ p, Decimal.isDigit b = true then
    some (parts.map (Scanf.convert false))
  else none

/-- The event of a line of the form `number:number:number:number:number`. -/
def lineEvent (line : List UInt8) : Option InputEvent := (lineNumbers line).bind eventOf

theorem linesOf_of_notMem {stream : List UInt8} (h : newline ∉ stream) : linesOf stream = [] := by
  unfold linesOf
  rw [List.splitOn_eq_singleton h]
  rfl

/-- The first line comes off. -/
theorem linesOf_cons {line rest : List UInt8} (h : newline ∉ line) :
    linesOf (line ++ newline :: rest) = line :: linesOf rest := by
  unfold linesOf
  rw [List.splitOn_append_cons_self, List.splitOn_eq_singleton h, List.singleton_append,
    List.dropLast_cons_of_ne_nil (List.splitOn_ne_nil newline rest)]

/-- A number of digits has no colon in it. -/
theorem colon_notMem_digits {b : List UInt8} {v : UInt64} (h : Scanf.Digits b v) : colon ∉ b := by
  intro hmem
  exact absurd (h.2.1 colon hmem) (by decide)

/-- Numbers with colons between them. -/
theorem separated_intercalate {parts : List (List UInt8)} (hne : parts ≠ [])
    (hall : ∀ p ∈ parts, p ≠ [] ∧ ∀ b ∈ p, Decimal.isDigit b = true) :
    Scanf.Separated Scanf.Digits colon (parts.map (Scanf.convert false))
      ([colon].intercalate parts) := by
  induction parts with
  | nil => exact absurd rfl hne
  | cons p parts ih =>
    obtain ⟨hp, hdigits⟩ := hall p List.mem_cons_self
    cases parts with
    | nil =>
      rw [List.intercalate_singleton]
      exact .last ⟨hp, hdigits, rfl⟩
    | cons q parts =>
      rw [List.intercalate_cons_cons, List.append_assoc, List.singleton_append]
      refine .cons ⟨hp, hdigits, rfl⟩ (ih (by simp) fun x hx => ?_)
      exact hall x (List.mem_cons_of_mem _ hx)

/-- The other way round, the colons split them again. -/
theorem splitOn_of_separated {line : List UInt8} {vs : List UInt64}
    (h : Scanf.Separated Scanf.Digits colon vs line) :
    (∀ p ∈ line.splitOn colon, p ≠ [] ∧ ∀ b ∈ p, Decimal.isDigit b = true) ∧
      (line.splitOn colon).map (Scanf.convert false) = vs := by
  induction h with
  | last hnum =>
    obtain ⟨hne, hdigits, rfl⟩ := id hnum
    rw [List.splitOn_eq_singleton (colon_notMem_digits hnum)]
    exact ⟨by simpa using ⟨hne, hdigits⟩, rfl⟩
  | cons hnum _ ih =>
    obtain ⟨hne, hdigits, rfl⟩ := id hnum
    rw [List.splitOn_append_cons_self, List.splitOn_eq_singleton (colon_notMem_digits hnum),
      List.singleton_append, List.map_cons, ih.2]
    refine ⟨fun p hp => ?_, rfl⟩
    rcases List.mem_cons.mp hp with rfl | hp
    · exact ⟨hne, hdigits⟩
    · exact ih.1 p hp

theorem lineNumbers_iff {line : List UInt8} {vs : List UInt64} :
    lineNumbers line = some vs ↔ Scanf.Separated Scanf.Digits colon vs line := by
  constructor
  · intro h
    unfold lineNumbers at h
    simp only at h
    split at h
    · rename_i hparts
      obtain rfl := Option.some.inj h
      have hline := separated_intercalate (List.splitOn_ne_nil colon line) hparts
      rwa [List.intercalate_splitOn] at hline
    · exact absurd h (by simp)
  · intro h
    obtain ⟨hparts, hnumbers⟩ := splitOn_of_separated h
    unfold lineNumbers
    simp only
    rw [if_pos hparts, hnumbers]

/-- An event takes five numbers. -/
theorem length_of_eventOf {vs : List UInt64} {ev : InputEvent} (h : eventOf vs = some ev) :
    vs.length = 5 := by
  unfold eventOf at h
  split at h
  · rfl
  · exact absurd h (by simp)

theorem eventOf_isSome {vs : List UInt64} (h : vs.length = 5) : (eventOf vs).isSome = true := by
  match vs, h with
  | [_, _, _, _, _], _ => rfl

theorem lineEvent_eq_some {line : List UInt8} {ev : InputEvent} :
    lineEvent line = some ev ↔
      ∃ vs, Scanf.Separated Scanf.Digits colon vs line ∧ eventOf vs = some ev := by
  unfold lineEvent
  rw [Option.bind_eq_some_iff]
  simp only [lineNumbers_iff]

/-- `sscanf` yields an event exactly if the string starts with five numbers. -/
theorem parseEvent_eq_some {s : List UInt8} {ev : InputEvent} :
    parseEvent s = some ev ↔
      ∃ vs used rest, Scanf.Scanned colon vs s used rest ∧ eventOf vs = some ev := by
  unfold parseEvent
  constructor
  · intro h
    obtain ⟨_, used, rest, hscan⟩ :=
      (Scanf.fields_iff isDigit_colon).mp ⟨rfl, length_of_eventOf h⟩
    exact ⟨_, used, rest, hscan, h⟩
  · rintro ⟨vs, used, rest, hscan, hev⟩
    obtain ⟨hfields, _⟩ :=
      (Scanf.fields_iff isDigit_colon).mpr ⟨length_of_eventOf hev, used, rest, hscan⟩
    rw [hfields]
    exact hev

/-! ### What `main_read` parses -/

/-- A line as the loop of `main_read` meets it: the bytes of the line that were lost when the
    buffer was emptied, those that are in the buffer, and the C string that starts there. -/
structure Parse where
  lost : List UInt8
  kept : List UInt8
  string : List UInt8

/-- The line. -/
def Parse.line (p : Parse) : List UInt8 := p.lost ++ p.kept

/-- What `sscanf` makes of it. -/
def Parse.event (p : Parse) : Option InputEvent := parseEvent p.string

@[simp] theorem Parse.event_mk (lost kept string : List UInt8) :
    Parse.event ⟨lost, kept, string⟩ = parseEvent string := rfl

/-- The lines that the loop over lines finds, and what is lost of the line behind them. -/
def lineParses (behind : List UInt8) : Nat → List UInt8 → Reader → List Parse × List UInt8
  | 0, lost, _ => ([], lost)
  | fuel + 1, lost, r =>
    match firstNewline r.buffer r.blen with
    | none => ([], lost)
    | some idx =>
      let (ps, lost') := lineParses behind fuel [] (r.discard idx)
      (⟨lost, Buffer.slice r.buffer 0 idx, cString behind r.buffer⟩ :: ps, lost')

/-- What is lost of an unfinished line once the buffer is emptied if it is more than half
    full. -/
def Reader.loses (r : Reader) (lost : List UInt8) : List UInt8 :=
  if r.blen > bufferSize / 2 then lost ++ r.received else lost

/-- The buffer with the bytes of one `read` behind those that it holds. -/
def Reader.append (r : Reader) (chunk : List UInt8) : Reader :=
  { buffer := Buffer.copy r.buffer r.blen chunk, blen := r.blen + chunk.length }

/-- The lines that the loop of `main_read` finds. -/
def parses (behind : List UInt8) : List Received → List UInt8 → Reader → List Parse
  | [], _, _ => []
  | x :: reads, lost, r =>
    match x with
    | .interrupted => parses behind reads (r.loses lost) r.makeRoom
    | .failed => []
    | .closed => []
    | .bytes chunk =>
      let full := r.makeRoom.append chunk
      let (ps, lost') := lineParses behind full.blen (r.loses lost) full
      ps ++ parses behind reads lost' (readLines behind full.blen full).1

/-- `read` returns at most the 512 bytes it is asked for, and at least one. -/
def Received.Fits : Received → Prop
  | .bytes chunk => 1 ≤ chunk.length ∧ chunk.length ≤ bufferSize / 2
  | _ => True

instance (x : Received) : Decidable x.Fits :=
  match x with
  | .bytes chunk => inferInstanceAs (Decidable (1 ≤ chunk.length ∧ chunk.length ≤ bufferSize / 2))
  | .interrupted | .failed | .closed => isTrue trivial

/-- The loop of `main_read` goes on after this `read`. -/
def Received.goesOn : Received → Bool
  | .bytes _ => true
  | .interrupted => true
  | _ => false

/-- The byte stream: what is received until `read` fails or the other end closes. -/
def stream (reads : List Received) : List UInt8 := receivedBytes (reads.takeWhile Received.goesOn)

section Parses

variable {behind : List UInt8} {fuel : Nat} {lost : List UInt8} {r : Reader}

/-- The events of the lines found are those written. -/
theorem lineParses_events :
    (lineParses behind fuel lost r).1.filterMap Parse.event = (readLines behind fuel r).2 := by
  induction fuel generalizing lost r with
  | zero => rfl
  | succ fuel ih =>
    cases hfirst : firstNewline r.buffer r.blen with
    | none =>
      rw [lineParses, readLines]
      simp only [hfirst]
      rfl
    | some idx =>
      have hrest := @ih [] (r.discard idx)
      have hevent := Parse.event_mk lost (Buffer.slice r.buffer 0 idx) (cString behind r.buffer)
      rw [readLines_line behind fuel hfirst, lineParses]
      simp only [hfirst]
      rw [← hrest]
      cases hev : parseEvent (cString behind r.buffer) with
      | none =>
        rw [List.filterMap_cons_none (hevent.trans hev)]
        rfl
      | some ev =>
        rw [List.filterMap_cons_some (hevent.trans hev)]
        rfl

/-- **Events.** What `main_read` writes are the events of the lines it finds. -/
theorem parses_events (reads : List Received) :
    (parses behind reads lost r).filterMap Parse.event = (mainReadLoop behind reads r).2 := by
  induction reads generalizing lost r with
  | nil => rfl
  | cons x reads ih =>
    cases x with
    | interrupted => exact ih
    | failed => rfl
    | closed => rfl
    | bytes chunk =>
      show (_ ++ _ : List Parse).filterMap Parse.event = _ ++ _
      rw [List.filterMap_append, lineParses_events, ih]
      rfl

/-- What the loop over lines finds are the lines in the buffer, the first one continuing what
    is lost; what it leaves has no newline. -/
theorem lineParses_lines (hfuel : r.blen ≤ fuel) (hlost : newline ∉ lost) (s : List UInt8) :
    linesOf (lost ++ (r.received ++ s)) = (lineParses behind fuel lost r).1.map Parse.line ++
        linesOf ((lineParses behind fuel lost r).2 ++
          ((readLines behind fuel r).1.received ++ s)) ∧
      newline ∉ (lineParses behind fuel lost r).2 ∧
      newline ∉ (readLines behind fuel r).1.received ∧
      (readLines behind fuel r).1.blen ≤ r.blen := by
  induction fuel generalizing lost r with
  | zero =>
    have hempty : r.blen = 0 := by omega
    refine ⟨rfl, hlost, ?_, le_rfl⟩
    show newline ∉ Buffer.slice r.buffer 0 r.blen
    rw [hempty]
    simp
  | succ fuel ih =>
    cases hfirst : firstNewline r.buffer r.blen with
    | none =>
      -- without a newline the loop stops, and nothing is lost
      have hstop : readLines behind (fuel + 1) r = (r, []) := by
        rw [readLines]
        simp only [hfirst]
      have hnone : lineParses behind (fuel + 1) lost r = ([], lost) := by
        rw [lineParses]
        simp only [hfirst]
      rw [hstop, hnone]
      refine ⟨rfl, hlost, fun hmem => ?_, le_rfl⟩
      obtain ⟨i, hi, hget⟩ := List.mem_map.mp hmem
      have hnot := List.find?_eq_none.mp hfirst i hi
      rw [Nat.zero_add] at hget
      exact hnot (by rw [hget]; rfl)
    | some idx =>
      -- the first line is cut off, and the loop goes on with the rest
      obtain ⟨hline, rest, hsplit⟩ := firstNewline_split hfirst
      have hrest : (r.discard idx).received = rest := by
        have h := Reader.received_discard (r := r) hsplit
        rwa [Buffer.length_slice] at h
      have hblen : (r.discard idx).blen ≤ fuel := by
        show r.blen - (idx + 1) ≤ fuel
        omega
      obtain ⟨hlines, hlost', hopen, hle⟩ := @ih [] (r.discard idx) hblen (by simp)
      have hstep : lineParses behind (fuel + 1) lost r =
          (⟨lost, Buffer.slice r.buffer 0 idx, cString behind r.buffer⟩ ::
            (lineParses behind fuel [] (r.discard idx)).1,
            (lineParses behind fuel [] (r.discard idx)).2) := by
        rw [lineParses]
        simp only [hfirst]
      rw [readLines_line behind fuel hfirst, hstep]
      refine ⟨?_, hlost', hopen, ?_⟩
      · have hstart : newline ∉ lost ++ Buffer.slice r.buffer 0 idx := by
          rw [List.mem_append, not_or]
          exact ⟨hlost, hline⟩
        rw [List.map_cons, List.cons_append, ← hlines]
        show linesOf (lost ++ (Buffer.slice r.buffer 0 r.blen ++ s)) = _ :: linesOf (_ ++ s)
        rw [hsplit, hrest, List.append_assoc, ← List.append_assoc lost, List.cons_append,
          linesOf_cons hstart]
        rfl
      · refine le_trans hle ?_
        show r.blen - (idx + 1) ≤ r.blen
        omega

/-- The C string of a line: the line as far as it is kept, its newline, and whatever is behind
    it in the buffer, up to a byte 0. -/
def Parse.Buffered (p : Parse) : Prop :=
  ∃ more, p.string = (p.kept ++ newline :: more).takeWhile fun b => b != 0

theorem lineParses_buffered (hroom : r.blen ≤ bufferSize) :
    ∀ p ∈ (lineParses behind fuel lost r).1, p.Buffered := by
  induction fuel generalizing lost r with
  | zero => exact fun p hp => absurd hp (by simp [lineParses])
  | succ fuel ih =>
    cases hfirst : firstNewline r.buffer r.blen with
    | none =>
      rw [lineParses]
      simp only [hfirst]
      exact fun p hp => absurd hp (by simp)
    | some idx =>
      have hroom' : (r.discard idx).blen ≤ bufferSize := by
        show r.blen - (idx + 1) ≤ bufferSize
        omega
      rw [lineParses]
      simp only [hfirst]
      intro p hp
      rcases List.mem_cons.mp hp with rfl | hp
      · obtain ⟨_, rest, hsplit⟩ := firstNewline_split hfirst
        obtain ⟨k, hk⟩ := Nat.exists_eq_add_of_le hroom
        refine ⟨rest ++ (Buffer.slice r.buffer (0 + r.blen) k ++ behind), ?_⟩
        unfold cString
        rw [hk, Buffer.slice_add, hsplit, List.append_assoc, List.append_assoc, List.cons_append]
      · exact ih hroom' p hp

theorem Reader.makeRoom_blen : r.makeRoom.blen ≤ bufferSize / 2 := by
  unfold Reader.makeRoom
  split
  · exact Nat.zero_le _
  · rename_i h
    omega

/-- Emptying the buffer moves what it holds to what is lost. -/
theorem Reader.loses_makeRoom : r.loses lost ++ r.makeRoom.received = lost ++ r.received := by
  unfold Reader.loses Reader.makeRoom
  split
  · exact List.append_nil _
  · rfl

theorem Reader.received_append (chunk : List UInt8) :
    (r.append chunk).received = r.received ++ chunk :=
  Buffer.slice_append_copy r.buffer r.blen chunk

theorem newline_notMem_makeRoom (hlost : newline ∉ lost) (hopen : newline ∉ r.received) :
    newline ∉ r.loses lost ∧ newline ∉ r.makeRoom.received := by
  have hnone : newline ∉ r.loses lost ++ r.makeRoom.received := by
    rw [Reader.loses_makeRoom, List.mem_append, not_or]
    exact ⟨hlost, hopen⟩
  rwa [List.mem_append, not_or] at hnone

/-- **Lines.** The lines that `main_read` finds are the lines of the stream. -/
theorem parses_lines (reads : List Received) (hlost : newline ∉ lost)
    (hopen : newline ∉ r.received) :
    (parses behind reads lost r).map Parse.line =
      linesOf (lost ++ (r.received ++ stream reads)) := by
  have hnone : newline ∉ lost ++ r.received := by
    rw [List.mem_append, not_or]
    exact ⟨hlost, hopen⟩
  induction reads generalizing lost r with
  | nil =>
    show [] = linesOf (lost ++ (r.received ++ []))
    rw [List.append_nil, linesOf_of_notMem hnone]
  | cons x reads ih =>
    obtain ⟨hlost', hopen'⟩ := newline_notMem_makeRoom hlost hopen
    -- what does not fit is lost, but it is still a part of the line
    have hkeep : ∀ s, lost ++ (r.received ++ s) = r.loses lost ++ (r.makeRoom.received ++ s) := by
      intro s
      rw [← List.append_assoc, ← List.append_assoc, Reader.loses_makeRoom]
    cases x with
    | interrupted =>
      show (parses behind reads (r.loses lost) r.makeRoom).map Parse.line = _
      rw [hkeep]
      refine ih hlost' hopen' ?_
      rw [Reader.loses_makeRoom]
      exact hnone
    | failed | closed =>
      show [] = linesOf (lost ++ (r.received ++ []))
      rw [List.append_nil, linesOf_of_notMem hnone]
    | bytes chunk =>
      obtain ⟨hlines, hlost₂, hopen₂, _⟩ := @lineParses_lines behind _ _
        (r.makeRoom.append chunk) le_rfl hlost' (stream reads)
      show (_ ++ _ : List Parse).map Parse.line
        = linesOf (lost ++ (r.received ++ (chunk ++ stream reads)))
      rw [hkeep, ← List.append_assoc r.makeRoom.received, ← Reader.received_append, hlines,
        List.map_append, ih hlost₂ hopen₂ (by rw [List.mem_append, not_or]; exact ⟨hlost₂, hopen₂⟩)]

theorem parses_buffered {reads : List Received} (hfits : ∀ x ∈ reads, x.Fits) :
    ∀ p ∈ parses behind reads lost r, p.Buffered := by
  induction reads generalizing lost r with
  | nil => exact fun p hp => absurd hp (by simp [parses])
  | cons x reads ih =>
    have hrest : ∀ y ∈ reads, y.Fits := fun y hy => hfits y (List.mem_cons_of_mem _ hy)
    cases x with
    | interrupted => exact ih hrest
    | failed | closed => exact fun p hp => absurd hp (by simp [parses])
    | bytes chunk =>
      obtain ⟨_, hmax⟩ : 1 ≤ chunk.length ∧ chunk.length ≤ bufferSize / 2 :=
        hfits (.bytes chunk) List.mem_cons_self
      have hroom : (r.makeRoom.append chunk).blen ≤ bufferSize := by
        have hhalf : r.makeRoom.blen ≤ bufferSize / 2 := Reader.makeRoom_blen
        show r.makeRoom.blen + chunk.length ≤ bufferSize
        omega
      intro p hp
      rcases List.mem_append.mp hp with hp | hp
      · exact lineParses_buffered hroom p hp
      · exact ih hrest p hp

end Parses

/-! ### Lines that are parsed alone -/

/-- The event of the line is the one of its numbers, and it is made of bytes of the line. -/
structure Parse.Alone (p : Parse) : Prop where
  event : p.event = lineEvent p.line
  own : ∀ ev, p.event = some ev → ∃ vs used rest,
    Scanf.Scanned colon vs p.string used rest ∧ eventOf vs = some ev ∧ used <+: p.kept

/-- If the line has the form, what is kept of it has the form and the same event; if it does
    not, the C string does not start with five numbers, each with white space and a sign before
    it if need be. -/
structure Parse.Readable (p : Parse) : Prop where
  formed : ∀ ev, lineEvent p.line = some ev → lineEvent p.kept = some ev
  malformed : lineEvent p.line = none → ∀ vs used rest,
    Scanf.Scanned colon vs p.string used rest → vs.length ≠ 5

/-- The bytes of a line of the form: digits and four colons. -/
theorem bytes_of_lineEvent {line : List UInt8} {ev : InputEvent} (h : lineEvent line = some ev) :
    (∀ b ∈ line, Decimal.isDigit b = true ∨ b = colon) ∧ line.count colon = 4 := by
  obtain ⟨vs, hnums, hev⟩ := lineEvent_eq_some.mp h
  have hcount := hnums.count fun _ _ hnum => colon_notMem_digits hnum
  rw [length_of_eventOf hev] at hcount
  exact ⟨hnums.forall_mem (.inr rfl) fun _ _ hnum x hx => .inl (hnum.2.1 x hx), by omega⟩

theorem colon_notMem_numeral {b : List UInt8} {v : UInt64} (h : Scanf.Numeral b v) :
    colon ∉ b := by
  intro hmem
  rcases h.mem hmem with hc | hc | hc | hc <;> exact absurd hc (by decide)

/-- Digits and colons are no bytes 0. -/
theorem ne_zero_of_digit_or_colon {b : UInt8} (h : Decimal.isDigit b = true ∨ b = colon) :
    (b != 0) = true := by
  rcases h with h | rfl
  · have hne : b ≠ 0 := by
      rintro rfl
      exact absurd h (by decide)
    exact bne_iff_ne.mpr hne
  · rfl

/-- White space and signs are neither digits nor colons. -/
theorem clean_of_digit_or_colon {b : UInt8} (h : Decimal.isDigit b = true ∨ b = colon) :
    Scanf.isSpace b = false ∧ b ≠ 43 ∧ b ≠ 45 := by
  rcases h with h | rfl
  · refine ⟨Scanf.not_isSpace_of_isDigit h, ?_, ?_⟩
    · rintro rfl
      exact absurd h (by decide)
    · rintro rfl
      exact absurd h (by decide)
  · decide

section Alone

variable {p : Parse} {ev : InputEvent}

/-- Up to the newline, digits and colons are in the C string. -/
theorem Parse.Buffered.string_eq (h : p.Buffered)
    (hbytes : ∀ b ∈ p.kept, Decimal.isDigit b = true ∨ b = colon) :
    ∃ more, p.string = p.kept ++ newline :: more := by
  obtain ⟨more, hstring⟩ := h
  refine ⟨more.takeWhile fun b => b != 0, ?_⟩
  rw [hstring, List.takeWhile_append_of_pos fun b hb => ne_zero_of_digit_or_colon (hbytes b hb),
    List.takeWhile_cons_of_pos (by decide)]

/-- What is kept of a line and has the form is parsed as its event. -/
theorem Parse.Buffered.scanned (h : p.Buffered) (hkept : lineEvent p.kept = some ev) :
    ∃ vs rest, Scanf.Scanned colon vs p.string p.kept rest ∧ eventOf vs = some ev := by
  obtain ⟨vs, hnums, hev⟩ := lineEvent_eq_some.mp hkept
  obtain ⟨more, hstring⟩ := h.string_eq (bytes_of_lineEvent hkept).1
  refine ⟨vs, newline :: more, ⟨hstring, hnums.mono fun _ _ => Scanf.Digits.numeral, ?_⟩, hev⟩
  rintro b ⟨⟩
  decide

/-- Of a line of the form, five numbers within what is kept are all that is kept. -/
theorem Parse.Buffered.kept_eq (h : p.Buffered) {ev' : InputEvent}
    (hline : lineEvent p.line = some ev') {vs : List UInt64} {used rest : List UInt8}
    (hscan : Scanf.Scanned colon vs p.string used rest) (hev : eventOf vs = some ev)
    (hused : used <+: p.kept) : lineEvent p.kept = some ev := by
  obtain ⟨hbytes, hfour⟩ := bytes_of_lineEvent hline
  have hkept : ∀ b ∈ p.kept, Decimal.isDigit b = true ∨ b = colon :=
    fun b hb => hbytes b (List.mem_append_right _ hb)
  obtain ⟨more, hstring⟩ := h.string_eq hkept
  obtain ⟨hsplit, hnums, hend⟩ := hscan
  obtain ⟨t, ht⟩ := hused
  have hrest : rest = t ++ newline :: more := by
    rw [hstring, ← ht, List.append_assoc] at hsplit
    exact (List.append_cancel_left hsplit).symm
  -- no colon is left for what is kept behind the five numbers
  have hcolon : colon ∉ t := by
    have hcount := hnums.count fun _ _ hnum => colon_notMem_numeral hnum
    rw [length_of_eventOf hev] at hcount
    rw [Parse.line, List.count_append, ← ht, List.count_append] at hfour
    apply List.count_eq_zero.mp
    omega
  have hnil : t = [] := by
    cases t with
    | nil => rfl
    | cons b t =>
      have hnot := hend b (by rw [hrest]; rfl)
      rcases hkept b (by rw [← ht]; simp) with hdigit | hc
      · rw [hdigit] at hnot
        exact absurd hnot (by simp)
      · rw [hc] at hcolon
        exact absurd List.mem_cons_self hcolon
  rw [hnil, List.append_nil] at ht
  rw [ht] at hnums
  apply lineEvent_eq_some.mpr
  exact ⟨vs, hnums.digits fun b hb => clean_of_digit_or_colon (hkept b hb), hev⟩

/-- **One line.** A line is parsed alone exactly if it is readable. -/
theorem Parse.alone_iff (h : p.Buffered) : p.Alone ↔ p.Readable := by
  constructor
  · intro halone
    constructor
    · -- the line has the form, and so has what `sscanf` read
      intro ev hline
      obtain ⟨vs, used, rest, hscan, hev, hused⟩ := halone.own ev (halone.event.trans hline)
      exact h.kept_eq hline hscan hev hused
    · -- five numbers would be an event that the line does not stand for
      intro hline vs used rest hscan hlen
      obtain ⟨ev, hev⟩ := Option.isSome_iff_exists.mp (eventOf_isSome hlen)
      have hevent : p.event = some ev := parseEvent_eq_some.mpr ⟨vs, used, rest, hscan, hev⟩
      rw [halone.event, hline] at hevent
      exact absurd hevent (by simp)
  · intro hread
    cases hline : lineEvent p.line with
    | none =>
      have hnone : p.event = none := by
        apply Option.eq_none_iff_forall_ne_some.mpr
        intro ev hev
        obtain ⟨vs, used, rest, hscan, hev⟩ := parseEvent_eq_some.mp hev
        exact hread.malformed hline vs used rest hscan (length_of_eventOf hev)
      refine ⟨hnone.trans hline.symm, fun ev hev => ?_⟩
      rw [hnone] at hev
      exact absurd hev (by simp)
    | some ev =>
      obtain ⟨vs, rest, hscan, hev⟩ := h.scanned (hread.formed ev hline)
      have hevent : p.event = some ev := parseEvent_eq_some.mpr ⟨vs, p.kept, rest, hscan, hev⟩
      refine ⟨hevent.trans hline.symm, fun ev' hev' => ?_⟩
      obtain rfl := Option.some.inj (hevent.symm.trans hev')
      exact ⟨vs, p.kept, rest, hscan, hev, List.prefix_rfl⟩

end Alone

/-- Lines that are parsed alone yield the events of the lines. -/
theorem filterMap_event_of_alone {ps : List Parse} (h : ∀ p ∈ ps, p.Alone) :
    ps.filterMap Parse.event = (ps.map Parse.line).filterMap lineEvent := by
  rw [List.filterMap_map]
  exact List.filterMap_congr fun p hp => (h p hp).event

/-- **Line by line.** However `read` splits the stream, `main_read` finds its lines in order and
    writes what `sscanf` makes of each.  Each line is parsed from its own bytes and for what it
    is exactly if it is readable; if all lines are, the events written are those of the lines
    of the form `number:number:number:number:number`, which do not depend on the splitting. -/
theorem parses_line_by_line (behind : List UInt8) (buffer : Nat → UInt8) (reads : List Received)
    (hfits : ∀ x ∈ reads, x.Fits) :
    (parses behind reads [] ⟨buffer, 0⟩).map Parse.line = linesOf (stream reads) ∧
    (mainRead behind buffer reads).2
      = (parses behind reads [] ⟨buffer, 0⟩).filterMap Parse.event ∧
    (∀ p ∈ parses behind reads [] ⟨buffer, 0⟩, p.Alone ↔ p.Readable) ∧
    ((∀ p ∈ parses behind reads [] ⟨buffer, 0⟩, p.Readable) →
      (mainRead behind buffer reads).2 = (linesOf (stream reads)).filterMap lineEvent) := by
  have hlines := @parses_lines behind [] ⟨buffer, 0⟩ reads (by simp) (by simp [Reader.received])
  have hevents : (mainRead behind buffer reads).2
      = (parses behind reads [] ⟨buffer, 0⟩).filterMap Parse.event :=
    (parses_events reads).symm
  have halone : ∀ p ∈ parses behind reads [] ⟨buffer, 0⟩, p.Alone ↔ p.Readable :=
    fun p hp => Parse.alone_iff (parses_buffered hfits p hp)
  refine ⟨hlines, hevents, halone, fun hread => ?_⟩
  have hall : ∀ p ∈ parses behind reads [] ⟨buffer, 0⟩, p.Alone :=
    fun p hp => (halone p hp).mpr (hread p hp)
  rw [hevents, filterMap_event_of_alone hall, hlines]
  rfl

/-- A line that arrives in two parts. -/
theorem parses_line_by_line_cut :
    (mainRead [] (fun _ => 57)
      [.bytes "1:1:3".toUTF8.toList, .bytes "0:0:0\n".toUTF8.toList, .closed]).2
      = [⟨⟨0, 0⟩, 1, 30, 1⟩] := by
  have hfits : ∀ x ∈ [Received.bytes "1:1:3".toUTF8.toList, .bytes "0:0:0\n".toUTF8.toList,
      .closed], x.Fits := by
    decide +kernel
  obtain ⟨_, _, _, hread⟩ := parses_line_by_line [] (fun _ => 57) _ hfits
  refine (hread fun p hp => ?_).trans (by decide +kernel)
  have hparses : (parses [] [.bytes "1:1:3".toUTF8.toList, .bytes "0:0:0\n".toUTF8.toList, .closed]
      [] ⟨fun _ => 57, 0⟩).map (fun p => (p.lost, p.kept)) =
    [([], "1:1:30:0:0".toUTF8.toList)] := by
    decide +kernel
  have hmem : (p.lost, p.kept) ∈ [([], "1:1:30:0:0".toUTF8.toList)] := by
    rw [← hparses]
    exact List.mem_map_of_mem hp
  obtain ⟨hlost, hkept⟩ := Prod.mk.inj (List.mem_singleton.mp hmem)
  have hline : p.line = p.kept := by rw [Parse.line, hlost, List.nil_append]
  have hform : (lineEvent p.line).isSome = true := by
    rw [hline, hkept]
    decide +kernel
  constructor
  · intro ev hev
    rw [← hline]
    exact hev
  · intro hnone
    rw [hnone] at hform
    exact absurd hform (by simp)

/-- A blank line in front of a line in the same `read` is parsed as that line, which is then
    parsed again; in a `read` of its own it is not.  Behind a line that does not have the form,
    a blank line is parsed from bytes that were discarded. -/
theorem blank_line_parsed :
    let blank : List UInt8 := "\n".toUTF8.toList
    let line : List UInt8 := "1:1:30:0:0\n".toUTF8.toList
    let other : List UInt8 := "x1:1:30:0:0\n".toUTF8.toList
    let ev : InputEvent := ⟨⟨0, 0⟩, 1, 30, 1⟩
    (linesOf (blank ++ line)).filterMap lineEvent = [ev] ∧
    (mainRead [] (fun _ => 0) [.bytes (blank ++ line), .closed]).2 = [ev, ev] ∧
    (mainRead [] (fun _ => 0) [.bytes blank, .bytes line, .closed]).2 = [ev] ∧
    (linesOf (other ++ blank)).filterMap lineEvent = [] ∧
    (mainRead [] (fun _ => 0) [.bytes other, .bytes blank, .closed]).2 = [ev] := by
  refine ⟨?_, ?_, ?_, ?_, ?_⟩
  · decide +kernel
  · decide +kernel
  · decide +kernel
  · decide +kernel
  · decide +kernel

end Sdiol
