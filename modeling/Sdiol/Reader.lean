import Sdiol.Wire
import Sdiol.Lib.Buffer
import Sdiol.Lib.Scanf

namespace Sdiol

/-!
# The reader

`main_read` of `sdiol.c`: it collects what it reads in `char buffer[1024]` and hands every line
to `sscanf`.  Each line is shifted out of the buffer by a `memmove`.

`sscanf` is given the buffer as a C string, which need not end where the received bytes do:
`cString` continues with what is left in the buffer from before and with `behind`, the memory
behind the buffer, up to a byte 0.

`wire_round_trip` says that however the lines of `server_send_event` are cut into reads, their
events are written in order and each once.
-/

/-! ### Parsing a line -/

/-- The conversions of the five `unsigned long`s to the fields of `struct input_event`, if
    `sscanf` found five. -/
def eventOf : List UInt64 → Option InputEvent
  | [type, value, code, sec, usec] =>
    some { type := type.toUInt16
           value := value.toInt64.toInt32
           code := code.toUInt16
           time := { tvSec := sec.toInt64, tvUsec := usec.toInt64 } }
  | _ => none

/-- `sscanf(buffer, "%lu:%lu:%lu:%lu:%lu\n", …)` and the event made of it. -/
def parseEvent (buffer : List UInt8) : Option InputEvent := eventOf (Scanf.fields colon 5 buffer)

/-! ### The buffer -/

/-- `sizeof(buffer)` -/
def bufferSize : Nat := 1024

/-- `buffer` and `blen` -/
structure Reader where
  buffer : Nat → UInt8
  blen : Nat

/-- The bytes received and not consumed yet. -/
def Reader.received (r : Reader) : List UInt8 := Buffer.slice r.buffer 0 r.blen

/-- The C string that starts at the buffer. -/
def cString (behind : List UInt8) (buffer : Nat → UInt8) : List UInt8 :=
  (Buffer.slice buffer 0 bufferSize ++ behind).takeWhile fun b => b != 0

/-- `first_newline` -/
def firstNewline (string : Nat → UInt8) (maxlen : Nat) : Option Nat :=
  (List.range maxlen).find? fun i => string i == newline

/-- The loop over complete lines: the events written to the output device.  Every line takes a
    byte from the buffer, so as many iterations as there are bytes are enough. -/
def readLines (behind : List UInt8) : Nat → Reader → Reader × List InputEvent
  | 0, r => (r, [])
  | fuel + 1, r =>
    match firstNewline r.buffer r.blen with
    | none => (r, [])
    | some idx =>
      -- try to unmarshal an event
      let evs := (parseEvent (cString behind r.buffer)).toList
      -- discard the line
      let r := { buffer := Buffer.move r.buffer 0 (idx + 1) (r.blen - idx - 1)
                 blen := r.blen - (idx + 1) }
      let (r, evs') := readLines behind fuel r
      (r, evs ++ evs')

/-- If the buffer is more than half full, it is emptied before the next `read`. -/
def Reader.makeRoom (r : Reader) : Reader :=
  if r.blen > bufferSize / 2 then { r with blen := 0 } else r

/-- What is done with the bytes of one `read`. -/
def readChunk (behind : List UInt8) (chunk : List UInt8) (r : Reader) : Reader × List InputEvent :=
  let r := { buffer := Buffer.copy r.buffer r.blen chunk, blen := r.blen + chunk.length }
  readLines behind r.blen r

/-- What one call of `read` can return. -/
inductive Received where
  | bytes (chunk : List UInt8)
  /-- -1 with `errno == EINTR` -/
  | interrupted
  /-- -1 with another `errno` -/
  | failed
  /-- 0 -/
  | closed

/-- The loop of `main_read` from a given buffer on: what it returns, and the events written.  It
    stops when `keep_going` is cleared, which is the end of the list. -/
def mainReadLoop (behind : List UInt8) : List Received → Reader → Int × List InputEvent
  | [], _ => (0, [])
  | x :: rest, r =>
    let r := r.makeRoom
    match x with
    | .interrupted => mainReadLoop behind rest r
    | .failed => (2, [])
    -- normal shutdown on other end
    | .closed => (0, [])
    | .bytes chunk =>
      let (r, evs) := readChunk behind chunk r
      let (retval, evs') := mainReadLoop behind rest r
      (retval, evs ++ evs')

/-- `main_read`, with what is in the buffer before anything is read. -/
def mainRead (behind : List UInt8) (buffer : Nat → UInt8) (reads : List Received) :
    Int × List InputEvent :=
  mainReadLoop behind reads ⟨buffer, 0⟩

/-! ### One line -/

/-- The fields of an event come back from the numbers they are printed as. -/
theorem eventOf_fields (ev : InputEvent) : eventOf ev.fields = some ev := by
  obtain ⟨⟨sec, usec⟩, type, code, value⟩ := ev
  simp [InputEvent.fields, eventOf]

theorem isDigit_colon : Decimal.isDigit colon = false := by decide

/-- Numbers separated by colons are read back, whatever follows that is no digit. -/
theorem fields_joinFields (ns : List UInt64) {rest : List UInt8}
    (hrest : ∀ b ∈ rest.head?, Decimal.isDigit b = false) :
    Scanf.fields colon ns.length (joinFields ns ++ rest) = ns := by
  induction ns with
  | nil => rfl
  | cons n ns ih =>
    cases ns with
    | nil => exact Scanf.fields_one colon n hrest
    | cons m ns =>
      have hcons : joinFields (n :: m :: ns) ++ rest
          = Decimal.render n.toNat ++ colon :: (joinFields (m :: ns) ++ rest) := by
        show (Decimal.render n.toNat ++ colon :: joinFields (m :: ns)) ++ rest = _
        rw [List.append_assoc, List.cons_append]
      rw [hcons, List.length_cons, Scanf.fields_cons colon isDigit_colon, ih]

/-- **One line.** The line of an event is parsed as that event, whatever is behind it. -/
theorem parseEvent_encode (ev : InputEvent) (rest : List UInt8) :
    parseEvent (encode ev ++ rest) = some ev := by
  have hend : ∀ b ∈ (newline :: rest).head?, Decimal.isDigit b = false := by
    rintro b ⟨⟩
    decide
  have hread := fields_joinFields ev.fields hend
  unfold parseEvent encode
  rw [List.append_assoc]
  exact (congrArg eventOf hread).trans (eventOf_fields ev)

-- a value of -1 goes through the line as a 64-bit number
example : encode ⟨⟨3, 250000⟩, 1, 30, -1⟩ = "1:18446744073709551615:30:3:250000\n".toUTF8.toList ∧
    parseEvent "1:18446744073709551615:30:3:250000\n".toUTF8.toList
      = some ⟨⟨3, 250000⟩, 1, 30, -1⟩ := by decide +kernel

/-! ### The bytes of a line -/

/-- The bytes of a line before its newline: digits and colons. -/
theorem mem_joinFields {ns : List UInt64} {b : UInt8} (h : b ∈ joinFields ns) :
    Decimal.isDigit b = true ∨ b = colon := by
  induction ns with
  | nil => exact absurd h (by simp [joinFields])
  | cons n ns ih =>
    cases ns with
    | nil => exact .inl (Decimal.isDigit_render n.toNat b h)
    | cons m ns =>
      have h : b ∈ Decimal.render n.toNat ++ colon :: joinFields (m :: ns) := h
      rcases List.mem_append.mp h with h | h
      · exact .inl (Decimal.isDigit_render n.toNat b h)
      · rcases List.mem_cons.mp h with h | h
        · exact .inr h
        · exact ih h

theorem newline_notMem_joinFields (ns : List UInt64) : newline ∉ joinFields ns := by
  intro h
  rcases mem_joinFields h with h | h
  · exact absurd h (by decide)
  · exact absurd h (by decide)

theorem ne_zero_of_mem_encode {ev : InputEvent} {b : UInt8} (h : b ∈ encode ev) : b ≠ 0 := by
  rintro rfl
  rcases List.mem_append.mp h with h | h
  · rcases mem_joinFields h with h | h
    · exact absurd h (by decide)
    · exact absurd h (by decide)
  · exact absurd (List.mem_singleton.mp h) (by decide)

/-! ### Lines in the buffer -/

/-- The first newline of a buffer that starts with a line. -/
theorem firstNewline_line {string : Nat → UInt8} {n : Nat} {line rest : List UInt8}
    (h : Buffer.slice string 0 n = line ++ newline :: rest) (hline : newline ∉ line) :
    firstNewline string n = some line.length := by
  have hget : ∀ i, i < n → (Buffer.slice string 0 n)[i]? = some (string i) := by
    intro i hi
    rw [Buffer.getElem?_slice, if_pos hi, Nat.zero_add]
  have hlen : line.length < n := by
    have hall := congrArg List.length h
    rw [Buffer.length_slice, List.length_append, List.length_cons] at hall
    omega
  unfold firstNewline
  rw [List.find?_range_eq_some]
  refine ⟨?_, List.mem_range.mpr hlen, fun j hj => ?_⟩
  · have hat := hget line.length hlen
    rw [h, List.getElem?_append_right le_rfl, Nat.sub_self, List.getElem?_cons_zero,
      Option.some.injEq] at hat
    rw [← hat]
    exact beq_self_eq_true newline
  · -- the bytes in front of it are those of the line
    have hat := hget j (by omega)
    rw [h, List.getElem?_append_left hj] at hat
    have hmem : string j ∈ line := List.mem_of_getElem? hat
    have hne : string j ≠ newline := by
      intro heq
      rw [heq] at hmem
      exact hline hmem
    simp [hne]

/-- A buffer without a newline has no complete line. -/
theorem firstNewline_none {string : Nat → UInt8} {n : Nat}
    (h : newline ∉ Buffer.slice string 0 n) : firstNewline string n = none := by
  unfold firstNewline
  rw [List.find?_range_eq_none]
  intro i hi
  have hmem : string i ∈ Buffer.slice string 0 n := by
    refine List.mem_of_getElem? (i := i) ?_
    rw [Buffer.getElem?_slice, if_pos hi, Nat.zero_add]
  have hne : string i ≠ newline := by
    intro heq
    rw [heq] at hmem
    exact h hmem
  simp [hne]

/-- The first newline that is found ends the first line. -/
theorem firstNewline_split {string : Nat → UInt8} {n idx : Nat}
    (h : firstNewline string n = some idx) :
    newline ∉ Buffer.slice string 0 idx ∧
      ∃ rest, Buffer.slice string 0 n = Buffer.slice string 0 idx ++ newline :: rest := by
  unfold firstNewline at h
  rw [List.find?_range_eq_some] at h
  obtain ⟨hat, hmem, hbefore⟩ := h
  have hlt := List.mem_range.mp hmem
  constructor
  · intro hline
    obtain ⟨j, hj, hget⟩ := List.mem_map.mp hline
    have hne := hbefore j (List.mem_range.mp hj)
    rw [Nat.zero_add] at hget
    rw [hget] at hne
    exact absurd hne (by simp)
  · obtain ⟨m, rfl⟩ := Nat.exists_eq_add_of_lt hlt
    have hone : Buffer.slice string idx 1 = [newline] := by
      show [string (idx + 0)] = [newline]
      rw [Nat.add_zero, eq_of_beq hat]
    refine ⟨Buffer.slice string (idx + 1) m, ?_⟩
    rw [Nat.add_assoc, Nat.add_comm m 1, Buffer.slice_add, Buffer.slice_add, Nat.zero_add, hone]
    rfl

/-- The buffer without its first line, which ends at `idx`. -/
def Reader.discard (r : Reader) (idx : Nat) : Reader :=
  { buffer := Buffer.move r.buffer 0 (idx + 1) (r.blen - idx - 1), blen := r.blen - (idx + 1) }

/-- Discarding the first line leaves what is behind its newline. -/
theorem Reader.received_discard {r : Reader} {line rest : List UInt8}
    (h : r.received = line ++ newline :: rest) : (r.discard line.length).received = rest := by
  have hlen : line.length + 1 ≤ r.blen := by
    have hall := congrArg List.length h
    rw [Reader.received, Buffer.length_slice, List.length_append, List.length_cons] at hall
    omega
  have hmove := Buffer.slice_move r.buffer (line.length + 1) (r.blen - (line.length + 1))
  rw [Nat.add_sub_cancel' hlen] at hmove
  unfold Reader.received Reader.discard
  rw [Nat.sub_sub, hmove]
  show r.received.drop _ = _
  rw [h, List.append_cons]
  exact List.drop_left' (by simp)

/-- One iteration of the loop over lines. -/
theorem readLines_line (behind : List UInt8) (fuel : Nat) {r : Reader} {idx : Nat}
    (h : firstNewline r.buffer r.blen = some idx) :
    readLines behind (fuel + 1) r = ((readLines behind fuel (r.discard idx)).1,
      (parseEvent (cString behind r.buffer)).toList ++
        (readLines behind fuel (r.discard idx)).2) := by
  rw [readLines]
  simp only [h]
  rfl

/-- The loop over lines ends with no complete line in the buffer. -/
theorem readLines_done (behind : List UInt8) {fuel : Nat} {r : Reader} (hfuel : r.blen ≤ fuel) :
    firstNewline (readLines behind fuel r).1.buffer (readLines behind fuel r).1.blen = none := by
  induction fuel generalizing r with
  | zero =>
    have hempty : r.blen = 0 := by omega
    show firstNewline r.buffer r.blen = none
    rw [hempty]
    rfl
  | succ fuel ih =>
    cases hfirst : firstNewline r.buffer r.blen with
    | none =>
      rw [readLines]
      simp only [hfirst]
    | some idx =>
      have hrest : (r.discard idx).blen ≤ fuel := by
        show r.blen - (idx + 1) ≤ fuel
        omega
      have hdone := ih hrest
      rw [readLines_line behind fuel hfirst]
      exact hdone

/-- The C string at the buffer starts with the received bytes, up to the first byte 0. -/
theorem cString_received (behind : List UInt8) {buffer : Nat → UInt8} {n : Nat} {ev : InputEvent}
    {rest : List UInt8} (hn : n ≤ bufferSize) (h : Buffer.slice buffer 0 n = encode ev ++ rest) :
    ∃ tail, cString behind buffer = encode ev ++ tail := by
  obtain ⟨k, hk⟩ := Nat.exists_eq_add_of_le hn
  have hnonzero : ∀ b ∈ encode ev, (b != 0) = true := by
    intro b hb
    simpa using ne_zero_of_mem_encode hb
  unfold cString
  rw [hk, Buffer.slice_add, h, List.append_assoc, List.append_assoc,
    List.takeWhile_append_of_pos hnonzero]
  exact ⟨_, rfl⟩

/-- **Lines.** From a buffer with the lines of some events and the beginning of another line,
    the events are written and the beginning is kept. -/
theorem readLines_encode (behind : List UInt8) {fuel : Nat} {evs : List InputEvent}
    {part : List UInt8} {r : Reader} (hr : r.received = evs.flatMap encode ++ part)
    (hpart : newline ∉ part) (hroom : r.blen ≤ bufferSize) (hfuel : evs.length ≤ fuel) :
    ∃ r', readLines behind fuel r = (r', evs) ∧ r'.received = part := by
  induction evs generalizing fuel r with
  -- only the beginning of a line is left
  | nil =>
    refine ⟨r, ?_, hr⟩
    cases fuel with
    | zero => rfl
    | succ fuel =>
      have hnone : firstNewline r.buffer r.blen = none := firstNewline_none (by
        show newline ∉ r.received
        rw [hr]
        exact hpart)
      unfold readLines
      rw [hnone]
  | cons ev evs ih =>
    obtain ⟨fuel, rfl⟩ : ∃ n, fuel = n + 1 := by
      simp only [List.length_cons] at hfuel
      exact ⟨fuel - 1, by omega⟩
    rw [List.flatMap_cons, List.append_assoc] at hr
    have hline : r.received = joinFields ev.fields ++ newline :: (evs.flatMap encode ++ part) := by
      rw [hr]
      unfold encode
      rw [List.append_assoc, List.singleton_append]
    -- the first line is that of `ev`, and `sscanf` reads it back
    have hfirst := firstNewline_line hline (newline_notMem_joinFields ev.fields)
    obtain ⟨tail, hstring⟩ := cString_received behind hroom hr
    have hshift := Reader.received_discard hline
    have hroom' : (r.discard (joinFields ev.fields).length).blen ≤ bufferSize := by
      show r.blen - _ ≤ bufferSize
      omega
    obtain ⟨r', hread, hrest⟩ := ih hshift hroom' (Nat.le_of_succ_le_succ hfuel)
    refine ⟨r', ?_, hrest⟩
    rw [readLines_line behind fuel hfirst, hstring, parseEvent_encode, hread]
    rfl

/-! ### Cutting the stream -/

/-- **Cut.** Wherever a sequence of lines is cut, the first part is some whole lines and the
    beginning of the next line, without its newline. -/
theorem split_lines {evs : List InputEvent} {xs ys : List UInt8}
    (h : xs ++ ys = evs.flatMap encode) :
    ∃ evs₁ evs₂ part, evs = evs₁ ++ evs₂ ∧ xs = evs₁.flatMap encode ++ part ∧
      part ++ ys = evs₂.flatMap encode ∧ newline ∉ part ∧ part.length ≤ 105 := by
  induction evs generalizing xs with
  | nil =>
    obtain ⟨rfl, rfl⟩ := List.append_eq_nil_iff.mp h
    exact ⟨[], [], [], rfl, rfl, rfl, by simp, by simp⟩
  | cons ev evs ih =>
    rw [List.flatMap_cons] at h
    rcases List.append_eq_append_iff.mp h with ⟨d, hev, hys⟩ | ⟨d, hxs, hrest⟩
    · rcases List.eq_nil_or_concat d with rfl | ⟨d, last, rfl⟩
      · -- cut right behind the line
        rw [List.append_nil] at hev
        refine ⟨[ev], evs, [], rfl, ?_, hys, by simp, by simp⟩
        rw [List.flatMap_singleton, List.append_nil]
        exact hev.symm
      · -- cut inside the line
        have hbody : joinFields ev.fields = xs ++ d := by
          unfold encode at hev
          rw [List.concat_eq_append, ← List.append_assoc] at hev
          exact (List.append_inj' hev rfl).1
        have hlen := length_joinFields ev.fields
        have hfive : ev.fields.length = 5 := rfl
        refine ⟨[], ev :: evs, xs, rfl, rfl, ?_, fun hmem => ?_, ?_⟩
        · rw [List.flatMap_cons, h]
        · refine newline_notMem_joinFields ev.fields ?_
          rw [hbody]
          exact List.mem_append_left _ hmem
        · rw [hbody, List.length_append] at hlen
          omega
    · -- cut behind the line of `ev`
      obtain ⟨evs₁, evs₂, part, rfl, rfl, hpart, hno, hlen⟩ := ih hrest.symm
      refine ⟨ev :: evs₁, evs₂, part, rfl, ?_, hpart, hno, hlen⟩
      rw [hxs, List.flatMap_cons, List.append_assoc]

/-- Every line has a byte. -/
theorem length_le_flatMap_encode (evs : List InputEvent) :
    evs.length ≤ (evs.flatMap encode).length := by
  induction evs with
  | nil => exact le_rfl
  | cons ev evs ih =>
    have hpos := List.length_pos_iff.mpr (encode_ne_nil ev)
    rw [List.flatMap_cons, List.length_append, List.length_cons]
    omega

/-- The bytes received, in order. -/
def receivedBytes (reads : List Received) : List UInt8 :=
  reads.flatMap fun
    | .bytes chunk => chunk
    | _ => []

/-- 1 to 512 bytes, or an interruption. -/
def Received.Goes : Received → Prop
  | .bytes chunk => 1 ≤ chunk.length ∧ chunk.length ≤ bufferSize / 2
  | .interrupted => True
  | _ => False

instance (x : Received) : Decidable x.Goes :=
  match x with
  | .bytes chunk => inferInstanceAs (Decidable (1 ≤ chunk.length ∧ chunk.length ≤ bufferSize / 2))
  | .interrupted => inferInstanceAs (Decidable True)
  | .failed => inferInstanceAs (Decidable False)
  | .closed => inferInstanceAs (Decidable False)

theorem Reader.makeRoom_of_le {r : Reader} (h : r.blen ≤ bufferSize / 2) : r.makeRoom = r :=
  if_neg (by omega)

/-- **Reads.** With the beginning of a line in the buffer, the rest of the stream yields the
    events of all its lines. -/
theorem mainReadLoop_lines (behind : List UInt8) {reads : List Received} {evs : List InputEvent}
    {r : Reader} (hgoes : ∀ x ∈ reads, x.Goes)
    (hbytes : r.received ++ receivedBytes reads = evs.flatMap encode)
    (hopen : newline ∉ r.received) :
    mainReadLoop behind (reads ++ [.closed]) r = (0, evs) := by
  induction reads generalizing evs r with
  | nil =>
    have hnone : evs = [] := by
      cases evs with
      | nil => rfl
      | cons ev evs =>
        have hmem : newline ∈ (ev :: evs).flatMap encode :=
          List.mem_flatMap.mpr ⟨ev, List.mem_cons_self, List.mem_append_right _ List.mem_cons_self⟩
        rw [← hbytes] at hmem
        exact absurd (by simpa [receivedBytes] using hmem) hopen
    rw [hnone]
    rfl
  | cons x reads ih =>
    have hrest : ∀ y ∈ reads, y.Goes := fun y hy => hgoes y (List.mem_cons_of_mem _ hy)
    -- what is in the buffer is the beginning of one line
    have hshort : r.blen ≤ 105 := by
      obtain ⟨evs₁, _, part, _, hsplit, _, _, hlen⟩ := split_lines hbytes
      have hnil : evs₁ = [] := by
        cases evs₁ with
        | nil => rfl
        | cons ev evs₁ =>
          refine absurd ?_ hopen
          rw [hsplit]
          refine List.mem_append_left _ (List.mem_flatMap.mpr ⟨ev, List.mem_cons_self, ?_⟩)
          exact List.mem_append_right _ List.mem_cons_self
      rw [hnil] at hsplit
      have hcount := congrArg List.length hsplit
      rw [Reader.received, Buffer.length_slice] at hcount
      simp only [List.flatMap_nil, List.nil_append] at hcount
      omega
    have hroom : r.makeRoom = r := Reader.makeRoom_of_le (by unfold bufferSize; omega)
    cases x with
    | interrupted =>
      show mainReadLoop behind (reads ++ [.closed]) r.makeRoom = (0, evs)
      rw [hroom]
      exact ih hrest hbytes hopen
    | failed => exact (hgoes .failed List.mem_cons_self).elim
    | closed => exact (hgoes .closed List.mem_cons_self).elim
    | bytes chunk =>
      obtain ⟨_, hmax⟩ : 1 ≤ chunk.length ∧ chunk.length ≤ bufferSize / 2 :=
        hgoes (.bytes chunk) List.mem_cons_self
      have hsplit : (r.received ++ chunk) ++ receivedBytes reads = evs.flatMap encode := by
        rw [List.append_assoc]
        exact hbytes
      obtain ⟨evs₁, evs₂, part, rfl, hlines, hpart, hno, _⟩ := split_lines hsplit
      have hfull : (Reader.mk (Buffer.copy r.buffer r.blen chunk) (r.blen + chunk.length)).received
          = evs₁.flatMap encode ++ part := by
        rw [← hlines]
        exact Buffer.slice_append_copy r.buffer r.blen chunk
      have hfuel : evs₁.length ≤ r.blen + chunk.length := by
        have hcount : r.blen + chunk.length = (evs₁.flatMap encode ++ part).length := by
          rw [← hfull]
          exact (Buffer.length_slice ..).symm
        have hle := length_le_flatMap_encode evs₁
        rw [hcount, List.length_append]
        omega
      obtain ⟨r', hread, hkept⟩ := readLines_encode behind hfull hno
        (by show r.blen + chunk.length ≤ bufferSize; unfold bufferSize at hmax ⊢; omega) hfuel
      have hnext : mainReadLoop behind (reads ++ [.closed]) r' = (0, evs₂) :=
        ih hrest (by rw [hkept]; exact hpart) (by rw [hkept]; exact hno)
      have hchunk : readChunk behind chunk r = (r', evs₁) := hread
      show (let (r, evs) := readChunk behind chunk r.makeRoom
        let (retval, evs') := mainReadLoop behind (reads ++ [Received.closed]) r
        (retval, evs ++ evs')) = _
      rw [hroom, hchunk]
      simp only [hnext]

/-- **Wire format.** For every list of events, and every way of cutting the concatenation of
    their lines into reads of 1 to 512 bytes, interrupted or not, whatever is in the buffer
    before and in the memory behind it: `main_read` writes exactly these events, in order. -/
theorem wire_round_trip (evs : List InputEvent) (reads : List Received)
    (hgoes : ∀ x ∈ reads, x.Goes) (hbytes : receivedBytes reads = evs.flatMap encode)
    (buffer : Nat → UInt8) (behind : List UInt8) :
    mainRead behind buffer (reads ++ [.closed]) = (0, evs) :=
  mainReadLoop_lines behind hgoes hbytes (by simp [Reader.received])

/-- Two events, one with a negative value and one with a negative time, cut inside a number and
    inside the second line. -/
theorem wire_round_trip_cut :
    mainRead [] (fun _ => 57)
      ([.bytes "1:184".toUTF8.toList, .interrupted,
        .bytes "46744073709551615:30:3:250000\n4:".toUTF8.toList,
        .bytes "4:4:18446744073709551615:7\n".toUTF8.toList] ++ [.closed])
      = (0, [⟨⟨3, 250000⟩, 1, 30, -1⟩, ⟨⟨-1, 7⟩, 4, 4, 4⟩]) :=
  wire_round_trip _ _ (by decide +kernel) (by decide +kernel) _ _

end Sdiol
