import Sdiol.Clients
import Sdiol.Stream

namespace Sdiol

/-!
# What a new client receives

`for_client` is written in one place, by the `memcpy` of `server_send_event`, and outlives the
client it was filled for.  `Provenance` follows that `memcpy` with a second array, which holds
for every cell the event and the offset its byte comes from; a `Delivery` is what one `send`
took from both arrays.

Every way to lose a client but one empties the buffer: a newcomer that kicks the client finds
what is pending for its predecessor.  `client_isolated` says that exactly the clients that were
accepted with bytes pending get bytes that are not theirs: `Clean` says of the state before a
call that it does not write to such a client.
-/

/-! ### Where bytes come from -/

/-- A byte of a line: the number of the event among those that `server_send_event` accepted,
    and the position in its line. -/
structure Origin where
  event : Nat
  offset : Nat
deriving DecidableEq

/-- What one `send` took. -/
structure Delivery where
  /-- the bytes, with their origins -/
  cells : List (UInt8 × Origin)
  /-- how many events had been accepted when the client became active -/
  since : Nat
  /-- whether nothing was sent to the client before -/
  first : Bool
  /-- `fc_len` when the client was accepted -/
  inherited : Nat

/-- What is known beside the state of the server. -/
structure Provenance where
  origin : Nat → Origin
  events : List InputEvent
  since : Nat
  first : Bool
  inherited : Nat

def Provenance.init : Provenance := ⟨fun _ => ⟨0, 0⟩, [], 0, true, 0⟩

/-- The origins of the bytes of a line. -/
def lineOrigins (event : Nat) (ev : InputEvent) : List Origin :=
  (List.range (encode ev).length).map (Origin.mk event)

/-- What a `send` of `len` bytes of `pending` delivers. -/
def Provenance.delivery (p : Provenance) (pending : List UInt8) (len : Nat) : Delivery where
  cells := (pending.take len).zip (Buffer.slice p.origin 0 len)
  since := p.since
  first := p.first
  inherited := p.inherited

/-- The `memcpy` of a line to `for_client[fcLen]`. -/
def Provenance.queue (p : Provenance) (fcLen : Nat) (ev : InputEvent) : Provenance :=
  { p with origin := Buffer.copy p.origin fcLen (lineOrigins p.events.length ev)
           events := p.events ++ [ev] }

/-- One effect of a call that starts in `s` and ends in `s'`. -/
def trackEffect (s s' : KbdServer) (p : Provenance) : ServerEffect → Provenance × List Delivery
  | .queued ev => (p.queue s.fcLen ev, [])
  | .sent _ pending len =>
    ({ p with first := false }, [p.delivery pending len])
  | .accepted _ =>
    ({ p with since := p.events.length, first := true, inherited := s'.fcLen }, [])
  | .dropped _ | .closed _ => (p, [])

/-- The effects of a call, one after the other. -/
def track (s s' : KbdServer) : Provenance → List ServerEffect → Provenance × List Delivery
  | p, [] => (p, [])
  | p, x :: l =>
    let (p₁, ds₁) := trackEffect s s' p x
    let (p₂, ds₂) := track s s' p₁ l
    (p₂, ds₁ ++ ds₂)

/-- One call, with what it delivers. -/
def trackedStep (i : ServerInput) (x : KbdServer × Provenance) :
    Except ServerAbort ((KbdServer × Provenance) × List Delivery) := do
  let (s, l) ← handleStep i x.1
  let (p, ds) := track x.1 s x.2 l
  .ok ((s, p), ds)

/-- Any calls from the zeroed state on, with what they deliver. -/
def runTracked (acceptFd : Fd) (inputs : List ServerInput) :
    Except ServerAbort ((KbdServer × Provenance) × List Delivery) :=
  Steps.run trackedStep inputs (serverInit acceptFd, Provenance.init)

/-- The client receives bytes of events accepted since it became active, and the first of them
    is the first of a line. -/
def Delivery.Own (d : Delivery) : Prop :=
  (∀ c ∈ d.cells, d.since ≤ c.2.event) ∧
    (d.first = true → ∀ c, d.cells.head? = some c → c.2.offset = 0)

/-- The byte is the one at its origin. -/
def FromLine (events : List InputEvent) (c : UInt8 × Origin) : Prop :=
  ∃ ev, events[c.2.event]? = some ev ∧ (encode ev)[c.2.offset]? = some c.1

theorem track_append (s s' : KbdServer) (p : Provenance) (l₁ l₂ : List ServerEffect) :
    track s s' p (l₁ ++ l₂) = ((track s s' (track s s' p l₁).1 l₂).1,
      (track s s' p l₁).2 ++ (track s s' (track s s' p l₁).1 l₂).2) := by
  induction l₁ generalizing p with
  | nil => rfl
  | cons x l₁ ih =>
    cases hx : trackEffect s s' p x with
    | mk p₁ ds₁ => simp only [List.cons_append, track, hx, ih, List.append_assoc]

theorem FromLine.append {events : List InputEvent} {c : UInt8 × Origin} (h : FromLine events c)
    (ev : InputEvent) : FromLine (events ++ [ev]) c := by
  obtain ⟨e, he, hbyte⟩ := h
  obtain ⟨hlt, _⟩ := List.getElem?_eq_some_iff.mp he
  exact ⟨e, by rw [List.getElem?_append_left hlt, he], hbyte⟩

/-! ### The invariant -/

/-- What ties the origins to the buffer, and the deliveries so far to what clients were
    accepted with. -/
structure Tracked (ds : List Delivery) (s : KbdServer) (p : Provenance) : Prop where
  bytes : ∀ i < s.fcLen, FromLine p.events (s.forClient i, p.origin i)
  since_le : p.since ≤ p.events.length
  /-- nothing inherited: what is pending is the client's own -/
  recent : p.inherited = 0 → ∀ i < s.fcLen, p.since ≤ (p.origin i).event
  start : p.inherited = 0 → p.first = true → 0 < s.fcLen → (p.origin 0).offset = 0
  /-- something inherited: it is still there until the client gets it -/
  leftover : 0 < p.inherited → p.first = true → 0 < s.nclients →
    0 < s.fcLen ∧ (p.origin 0).event < p.since
  spoilt : 0 < p.inherited → p.first = false → ∃ d ∈ ds, ¬ d.Own
  own : ∀ d ∈ ds, d.inherited = 0 → d.Own
  foreign : (∃ d ∈ ds, 0 < d.inherited) → ∃ d ∈ ds, ¬ d.Own
  delivered : ∀ d ∈ ds, ∀ c ∈ d.cells, FromLine p.events c

theorem tracked_init (acceptFd : Fd) : Tracked [] (serverInit acceptFd) Provenance.init where
  bytes := fun i hi => absurd hi (Nat.not_lt_zero i)
  since_le := le_rfl
  recent := fun _ i hi => absurd hi (Nat.not_lt_zero i)
  start := fun _ _ hlt => absurd hlt (Nat.lt_irrefl 0)
  leftover := fun hlt => absurd hlt (Nat.lt_irrefl 0)
  spoilt := fun hlt => absurd hlt (Nat.lt_irrefl 0)
  own := by simp
  foreign := by simp
  delivered := by simp

/-- A delivery takes the first cells of the buffer and of the origins. -/
theorem cells_eq {s : KbdServer} {len : Nat} (hlen : len ≤ s.fcLen) (p : Provenance) :
    (p.delivery s.pending len).cells
      = (List.range len).map fun i => (s.forClient i, p.origin i) := by
  show (s.pending.take len).zip (Buffer.slice p.origin 0 len) = _
  unfold KbdServer.pending
  rw [Buffer.take_slice _ _ hlen]
  unfold Buffer.slice
  rw [List.zip_map']
  simp only [Nat.zero_add]

theorem mem_cells {s : KbdServer} {len : Nat} (hlen : len ≤ s.fcLen) {p : Provenance}
    {c : UInt8 × Origin} : c ∈ (p.delivery s.pending len).cells ↔
      ∃ i < len, c = (s.forClient i, p.origin i) := by
  rw [cells_eq hlen, List.mem_map]
  simp only [List.mem_range, eq_comm]

theorem head?_cells {s : KbdServer} {len : Nat} (hpos : 0 < len) (hlen : len ≤ s.fcLen)
    (p : Provenance) :
    (p.delivery s.pending len).cells.head? = some (s.forClient 0, p.origin 0) := by
  obtain ⟨n, rfl⟩ := Nat.exists_eq_succ_of_ne_zero hpos.ne'
  rw [cells_eq hlen, List.range_succ_eq_map]
  rfl

section Parts

variable {ds : List Delivery} {s s' : KbdServer} {p : Provenance} {l : List ServerEffect}

/-- Closing the client empties the buffer. -/
theorem Tracked.emptied (h : Tracked ds s p) (hlen : s'.fcLen = 0) (hn : s'.nclients = 0) :
    Tracked ds s' p where
  bytes := fun i hi => absurd hi (by omega)
  since_le := h.since_le
  recent := fun _ i hi => absurd hi (by omega)
  start := fun _ _ hlt => absurd hlt (by omega)
  leftover := fun _ _ hlt => absurd hlt (by omega)
  spoilt := h.spoilt
  own := h.own
  foreign := h.foreign
  delivered := h.delivered

/-- What is delivered with nothing inherited is the client's own. -/
theorem Tracked.delivery_own {len : Nat} (h : Tracked ds s p) (hpos : 0 < len)
    (hlen : len ≤ s.fcLen) (hzero : p.inherited = 0) : (p.delivery s.pending len).Own := by
  refine ⟨fun c hc => ?_, fun hfirst c hc => ?_⟩
  · obtain ⟨i, hi, rfl⟩ := (mem_cells hlen).mp hc
    exact h.recent hzero i (by omega)
  · rw [head?_cells hpos hlen, Option.some.injEq] at hc
    rw [← hc]
    exact h.start hzero hfirst (by omega)

/-- The first bytes of what was inherited are older than the client. -/
theorem Tracked.delivery_foreign {len : Nat} (h : Tracked ds s p) (hn : 0 < s.nclients)
    (hpos : 0 < len) (hlen : len ≤ s.fcLen) (hinherited : 0 < p.inherited) :
    ∃ d ∈ ds ++ [p.delivery s.pending len], ¬ d.Own := by
  cases hfirst : p.first with
  | true =>
    obtain ⟨_, hold⟩ := h.leftover hinherited hfirst hn
    refine ⟨_, List.mem_append_right _ List.mem_cons_self, fun hown => ?_⟩
    have hrecent : p.since ≤ (p.origin 0).event :=
      hown.1 _ ((mem_cells hlen).mpr ⟨0, hpos, rfl⟩)
    omega
  | false =>
    obtain ⟨d, hd, hbad⟩ := h.spoilt hinherited hfirst
    exact ⟨d, List.mem_append_left _ hd, hbad⟩

/-- **Writing.** The client gets the first bytes of the buffer, and as many fewer are left. -/
theorem Tracked.deliver {len : Nat} (h : Tracked ds s p) (hn : 0 < s.nclients) (hpos : 0 < len)
    (hlen : len ≤ s.fcLen) (hforClient : s'.forClient = s.forClient)
    (hfcLen : s'.fcLen = s.fcLen - len) :
    Tracked (ds ++ [p.delivery s.pending len]) s' { p with first := false } where
  bytes := by
    intro i hi
    rw [hforClient]
    exact h.bytes i (by omega)
  since_le := h.since_le
  recent := fun hzero i hi => h.recent hzero i (by omega)
  start := by simp
  leftover := by simp
  spoilt := fun hinherited _ => h.delivery_foreign hn hpos hlen hinherited
  own := by
    intro d hd hzero
    rcases List.mem_append.mp hd with hd | hd
    · exact h.own d hd hzero
    · cases List.mem_singleton.mp hd
      exact h.delivery_own hpos hlen hzero
  -- a delivery that was foreign stays one, and this one may be the first
  foreign := by
    rintro ⟨d, hd, hinherited⟩
    rcases List.mem_append.mp hd with hd | hd
    · obtain ⟨d', hd', hbad⟩ := h.foreign ⟨d, hd, hinherited⟩
      exact ⟨d', List.mem_append_left _ hd', hbad⟩
    · cases List.mem_singleton.mp hd
      exact h.delivery_foreign hn hpos hlen hinherited
  delivered := by
    intro d hd c hc
    rcases List.mem_append.mp hd with hd | hd
    · exact h.delivered d hd c hc
    · cases List.mem_singleton.mp hd
      obtain ⟨i, hi, rfl⟩ := (mem_cells hlen).mp hc
      exact h.bytes i (by omega)

/-- **Accepting.** Nothing is pending that was accepted after the newcomer. -/
theorem Tracked.accepted (h : Tracked ds s p) (hforClient : s'.forClient = s.forClient)
    (hfcLen : s'.fcLen = s.fcLen) :
    Tracked ds s' { p with since := p.events.length, first := true, inherited := s'.fcLen } where
  bytes := by
    intro i hi
    rw [hforClient]
    exact h.bytes i (by omega)
  since_le := le_rfl
  recent := fun hzero i hi => absurd hi (by simp only at hzero; omega)
  start := fun hzero _ hlt => absurd hlt (by simp only at hzero; omega)
  leftover := by
    intro hinherited _ _
    obtain ⟨ev, hev, _⟩ := h.bytes 0 (by simp only at hinherited; omega)
    exact ⟨hinherited, (List.getElem?_eq_some_iff.mp hev).1⟩
  spoilt := by simp
  own := h.own
  foreign := h.foreign
  delivered := h.delivered

/-- **Appending a line.** The cells that are written get the origins of the line. -/
theorem Tracked.queue (h : Tracked ds s p) {ev : InputEvent}
    (hforClient : s'.forClient = Buffer.copy s.forClient s.fcLen (encode ev))
    (hfcLen : s'.fcLen = s.fcLen + (encode ev).length) (hn : s'.nclients = s.nclients) :
    Tracked ds s' (p.queue s.fcLen ev) := by
  -- a cell is an old one, or it is a cell of the line
  have hcell : ∀ i < s'.fcLen,
      (i < s.fcLen ∧ s'.forClient i = s.forClient i ∧
        (p.queue s.fcLen ev).origin i = p.origin i) ∨
      ∃ k, i = s.fcLen + k ∧ (encode ev)[k]? = some (s'.forClient i) ∧
        (p.queue s.fcLen ev).origin i = ⟨p.events.length, k⟩ := by
    intro i hi
    rw [hforClient]
    show (_ ∧ _ ∧ Buffer.copy p.origin _ _ i = _) ∨ ∃ k, _ ∧ _ ∧ Buffer.copy p.origin _ _ i = _
    by_cases hold : i < s.fcLen
    · exact .inl ⟨hold, Buffer.copy_of_lt _ _ hold, Buffer.copy_of_lt _ _ hold⟩
    · obtain ⟨k, rfl⟩ := Nat.exists_eq_add_of_le (Nat.not_lt.mp hold)
      have hk : k < (encode ev).length := by omega
      refine .inr ⟨k, rfl, ?_, ?_⟩
      · rw [Buffer.copy_add, List.getElem?_eq_getElem hk]
        rfl
      · rw [Buffer.copy_add, lineOrigins, List.getElem?_map, List.getElem?_range hk]
        rfl
  exact {
    bytes := by
      intro i hi
      rcases hcell i hi with ⟨hold, hbyte, horigin⟩ | ⟨k, _, hbyte, horigin⟩
      · rw [hbyte, horigin]
        exact (h.bytes i hold).append ev
      · rw [horigin]
        exact ⟨ev, List.getElem?_concat_length, hbyte⟩
    since_le := by
      have hle := h.since_le
      show p.since ≤ (p.events ++ [ev]).length
      rw [List.length_append]
      omega
    recent := by
      intro hzero i hi
      rcases hcell i hi with ⟨hold, _, horigin⟩ | ⟨k, _, _, horigin⟩
      · rw [horigin]
        exact h.recent hzero i hold
      · rw [horigin]
        exact h.since_le
    start := by
      intro hzero hfirst hlt
      rcases hcell 0 hlt with ⟨hold, _, horigin⟩ | ⟨k, hk, _, horigin⟩
      · rw [horigin]
        exact h.start hzero hfirst hold
      · rw [horigin]
        show k = 0
        omega
    leftover := by
      intro hinherited hfirst hlt
      obtain ⟨hpos, hold⟩ := h.leftover hinherited hfirst (by omega)
      refine ⟨by omega, ?_⟩
      rcases hcell 0 (by omega) with ⟨_, _, horigin⟩ | ⟨k, hk, _, _⟩
      · rw [horigin]
        exact hold
      · omega
    spoilt := h.spoilt
    own := h.own
    foreign := h.foreign
    delivered := fun d hd c hc => (h.delivered d hd c hc).append ev }

/-! ### The parts of a call -/

variable {log : List ServerEffect}

/-- With a client connected, closing it. -/
theorem Tracked.close (h : Tracked ds s p) (htable : ClientTable log s) (hn : s.nclients = 1) :
    Tracked ds (serverCloseClient s 0).1 p := by
  have hactive := htable.active
  refine h.emptied ?_ ?_
  · simp [serverCloseClient, hactive]
  · simp [serverCloseClient, hn]

theorem ClientTable.nclients_le (h : ClientTable log s) : s.nclients ≤ 1 := by
  cases h.slots with
  | empty hn _ _ => omega
  | one hn _ => exact hn.le

theorem Tracked.write {o : Answers} (h : Tracked ds s p) (htable : ClientTable log s)
    (hsend : o.send ≤ s.fcLen) (hstep : writeActive o s = (s', l)) (a b : KbdServer) :
    Tracked (ds ++ (track a b p l).2) s' (track a b p l).1 := by
  have hle := htable.nclients_le
  unfold writeActive at hstep
  split at hstep
  · rename_i hready
    split at hstep
    · -- the write failed
      rw [htable.active] at hstep
      have hclose := h.close htable (by omega)
      cases hstep
      show Tracked (ds ++ []) (serverCloseClient s 0).1 p
      rwa [List.append_nil]
    · cases hstep
      exact h.deliver hready.1 (by omega) (by omega) rfl rfl
  · cases hstep
    show Tracked (ds ++ []) s p
    rwa [List.append_nil]

theorem Tracked.check {o : Answers} (h : Tracked ds s p) (htable : ClientTable log s)
    (hstep : checkClients o s.nclients 0 s = (s', l)) (a b : KbdServer) :
    Tracked (ds ++ (track a b p l).2) s' (track a b p l).1 := by
  have hidle : Tracked (ds ++ []) s p := by rwa [List.append_nil]
  cases htable.slots with
  | empty hn _ _ =>
    rw [hn] at hstep
    cases hstep
    exact hidle
  | one hn _ =>
    rw [hn] at hstep
    unfold checkClients at hstep
    split at hstep
    · split at hstep
      · cases hstep
        exact hidle
      · cases hstep
        show Tracked (ds ++ []) (serverCloseClient s 0).1 p
        rw [List.append_nil]
        exact h.close htable hn
    · cases hstep
      exact hidle

theorem Tracked.accept {o : Answers} (h : Tracked ds s p) (htable : ClientTable log s)
    (hstep : handleAccept o s = .ok (s', l)) (a : KbdServer) :
    Tracked (ds ++ (track a s' p l).2) s' (track a s' p l).1 := by
  have hle := htable.nclients_le
  unfold handleAccept at hstep
  split at hstep
  · split at hstep
    · exact absurd hstep (by simp)
    simp only at hstep
    rw [if_neg (by unfold maxClients; omega)] at hstep
    split at hstep
    · cases hstep
      show Tracked (ds ++ []) _ { p with since := _, first := true, inherited := s.fcLen }
      rw [List.append_nil]
      exact h.accepted rfl rfl
    · cases hstep
      show Tracked (ds ++ []) _ { p with since := _, first := true, inherited := s.fcLen }
      rw [List.append_nil]
      exact h.accepted rfl rfl
  · cases hstep
    show Tracked (ds ++ []) s p
    rwa [List.append_nil]

theorem Tracked.event {ev : InputEvent} (h : Tracked ds s p)
    (hstep : (serverSendEvent ev s).2 = (s', l)) :
    Tracked (ds ++ (track s s' p l).2) s' (track s s' p l).1 := by
  have hidle : Tracked (ds ++ []) s p := by rwa [List.append_nil]
  unfold serverSendEvent at hstep
  split at hstep
  · cases hstep
    exact hidle
  · simp only at hstep
    split at hstep
    · cases hstep
      exact hidle
    · cases hstep
      show Tracked (ds ++ []) _ (p.queue s.fcLen ev)
      rw [List.append_nil]
      exact h.queue rfl rfl rfl

/-- **Step.** -/
theorem Tracked.step {i : ServerInput} (h : Tracked ds s p) (htable : ClientTable log s)
    (hstep : handleStep i s = .ok (s', l)) :
    Tracked (ds ++ (track s s' p l).2) s' (track s s' p l).1 := by
  cases i with
  | event ev => exact h.event (Except.ok.inj hstep)
  | select o =>
    have hstep : (if o.send ≤ s.fcLen then serverHandleSelect o s else .error .notPromised)
        = .ok (s', l) := hstep
    split at hstep
    · rename_i hsend
      obtain ⟨s₁, l₁, s₂, l₂, l₃, hwrite, hcheck, haccept, rfl⟩ := serverHandleSelect_ok hstep
      have htable₁ := htable.write hwrite
      have h₁ := h.write htable hsend hwrite s s'
      have h₂ := h₁.check htable₁ hcheck s s'
      have h₃ := h₂.accept (htable₁.check hcheck) haccept s
      rw [track_append, track_append]
      simpa only [List.append_assoc] using h₃
    · exact absurd hstep (by simp)

end Parts

/-- **Run.** The calls are those of `runHandles`, and the invariant holds after them. -/
theorem runTracked_tracked {acceptFd : Fd} {inputs : List ServerInput} {s : KbdServer}
    {p : Provenance} {ds : List Delivery}
    (h : runTracked acceptFd inputs = .ok ((s, p), ds)) : Tracked ds s p := by
  have hboth : (∃ log, ClientTable log s) ∧ Tracked ds s p := by
    refine Steps.run_inv (fun ds (x : KbdServer × Provenance) =>
      (∃ log, ClientTable log x.1) ∧ Tracked ds x.1 x.2) ?_
      ⟨⟨[], clientTable_init acceptFd⟩, tracked_init acceptFd⟩ h
    rintro i _ ds ⟨s, p⟩ ⟨s', p'⟩ ds' ⟨⟨log, htable⟩, htracked⟩ hstep
    obtain ⟨⟨s₁, l⟩, hcall, hstep⟩ := Steps.bind_eq_ok.mp hstep
    cases hstep
    exact ⟨⟨_, htable.step hcall⟩, htracked.step htable hcall⟩
  exact hboth.2

/-! ### Clean calls -/

/-- If the call writes to its client, then nothing was pending when that client was accepted. -/
def Clean : ServerInput → KbdServer × Provenance → Prop
  | .event _, _ => True
  | .select o, (s, p) =>
    s.nclients > 0 ∧ s.clients s.activeClient ∈ o.wFds → o.send > 0 → p.inherited = 0

/-- Nothing was sent. -/
def Unsent (l : List ServerEffect) : Prop := ∀ client pending len, .sent client pending len ∉ l

theorem track_unsent {s s' : KbdServer} {p : Provenance} {l : List ServerEffect} (h : Unsent l) :
    (track s s' p l).2 = [] := by
  induction l generalizing p with
  | nil => rfl
  | cons x l ih =>
    have hrest : ∀ p, (track s s' p l).2 = [] := fun p =>
      ih fun client pending len hmem => h client pending len (List.mem_cons_of_mem x hmem)
    cases x with
    | sent client pending len => exact absurd List.mem_cons_self (h client pending len)
    | _ => exact hrest _

theorem checkClients_unsent (o : Answers) (n i : Nat) (s : KbdServer) :
    Unsent (checkClients o n i s).2 := by
  induction n generalizing i s with
  | zero => exact fun _ _ _ hmem => absurd hmem (by simp [checkClients])
  | succ n ih =>
    unfold checkClients
    split
    · split
      · exact ih (i + 1) s
      · intro client pending len hmem
        rcases List.mem_append.mp hmem with hmem | hmem
        · exact absurd hmem (by simp [serverCloseClient])
        · exact ih i _ client pending len hmem
    · exact ih (i + 1) s

theorem handleAccept_unsent {o : Answers} {s s' : KbdServer} {l : List ServerEffect}
    (h : handleAccept o s = .ok (s', l)) : Unsent l := by
  intro client pending len hmem
  unfold handleAccept at h
  split at h
  · split at h
    · exact absurd h (by simp)
    · simp only at h
      split at h
      · cases h
        exact absurd hmem (by simp)
      · split at h <;> (cases h; exact absurd hmem (by simp))
  · cases h
    exact absurd hmem (by simp)

/-- A call is clean exactly if all it delivers goes to a client accepted with nothing pending. -/
theorem trackedStep_clean {i : ServerInput} {x x' : KbdServer × Provenance} {ds : List Delivery}
    (h : trackedStep i x = .ok (x', ds)) : Clean i x ↔ ∀ d ∈ ds, d.inherited = 0 := by
  obtain ⟨s, p⟩ := x
  obtain ⟨⟨s', l⟩, hstep, h⟩ := Steps.bind_eq_ok.mp h
  cases h
  cases i with
  | event ev =>
    have hunsent : Unsent l := by
      obtain ⟨rfl, rfl⟩ := Prod.mk.inj (Except.ok.inj hstep)
      intro client pending len hmem
      unfold serverSendEvent at hmem
      split at hmem
      · exact absurd hmem (by simp)
      · simp only at hmem
        split at hmem <;> exact absurd hmem (by simp)
    rw [track_unsent hunsent]
    exact iff_of_true trivial (by simp)
  | select o =>
    have hstep : (if o.send ≤ s.fcLen then serverHandleSelect o s else .error .notPromised)
        = .ok (s', l) := hstep
    split at hstep
    swap
    · exact absurd hstep (by simp)
    obtain ⟨s₁, l₁, s₂, l₂, l₃, hwrite, hcheck, haccept, rfl⟩ := serverHandleSelect_ok hstep
    have hunsent₂ : Unsent l₂ := by
      have hnone := checkClients_unsent o s₁.nclients 0 s₁
      rwa [hcheck] at hnone
    have hunsent₃ : Unsent l₃ := handleAccept_unsent haccept
    rw [track_append, track_append, track_unsent hunsent₂, track_unsent hunsent₃, List.append_nil,
      List.append_nil]
    -- what is left is what the write delivers
    unfold writeActive at hwrite
    split at hwrite
    · rename_i hready
      split at hwrite
      · rename_i hfail
        cases hwrite
        exact iff_of_true (fun _ hpos => absurd hpos (by omega)) (by simp [track, trackEffect])
      · rename_i hok
        cases hwrite
        show _ ↔ ∀ d ∈ [p.delivery s.pending o.send.toNat], d.inherited = 0
        constructor
        · intro hclean d hd
          rw [List.mem_singleton.mp hd]
          exact hclean hready (by omega)
        · intro hall _ _
          exact hall _ List.mem_cons_self
    · rename_i hidle
      cases hwrite
      exact iff_of_true (fun hready => absurd hready hidle) (by simp [track])

/-- **Run.** Every call is clean exactly if no delivery goes to a client that was accepted with
    bytes pending. -/
theorem runTracked_clean {acceptFd : Fd} {inputs : List ServerInput}
    {x : KbdServer × Provenance} {ds : List Delivery}
    (h : runTracked acceptFd inputs = .ok (x, ds)) :
    Steps.RunAll trackedStep Clean inputs (serverInit acceptFd, Provenance.init) ↔
      ∀ d ∈ ds, d.inherited = 0 :=
  Steps.runAll_iff (fun _ _ _ _ hstep => trackedStep_clean hstep) h

/-- **The bytes of the predecessor.** In every run from the zeroed state, every client receives
    only bytes of events that were accepted after it became active, from the first byte of a
    line on, exactly if no call writes to a client that was accepted while bytes were pending.
    The origins are those of the bytes: each byte that is sent is the one in the line of its
    event. -/
theorem client_isolated {acceptFd : Fd} {inputs : List ServerInput} {s : KbdServer}
    {p : Provenance} {ds : List Delivery}
    (h : runTracked acceptFd inputs = .ok ((s, p), ds)) :
    ((∀ d ∈ ds, d.Own) ↔
      Steps.RunAll trackedStep Clean inputs (serverInit acceptFd, Provenance.init)) ∧
      ∀ d ∈ ds, ∀ c ∈ d.cells, FromLine p.events c := by
  have hinv := runTracked_tracked h
  rw [runTracked_clean h]
  refine ⟨⟨fun hown d hd => ?_, fun hnone d hd => hinv.own d hd (hnone d hd)⟩, hinv.delivered⟩
  by_contra hinherited
  obtain ⟨d', hd', hbad⟩ := hinv.foreign ⟨d, hd, Nat.pos_of_ne_zero hinherited⟩
  exact hbad (hown d' hd')

/-- Descriptor `client` can take bytes, and `send` accepts `len` of them. -/
def delivers (client : Fd) (len : Nat) : ServerInput := .select ⟨[], [client], len, fun _ => 0, 0⟩

/-- A client that comes when nothing is pending receives its own line. -/
theorem client_isolated_own : ∃ s p ds,
    runTracked 3 [connects 5, press30, delivers 5 11] = .ok ((s, p), ds) ∧ ds.length = 1 ∧
      ∀ d ∈ ds, d.Own := by
  have hrun : (runTracked 3 [connects 5, press30, delivers 5 11]).map (fun x =>
      decide (x.2.map (fun d => d.inherited) = [0])) = .ok true := by decide +kernel
  obtain ⟨⟨⟨s, p⟩, ds⟩, hok, hshape⟩ := Steps.map_eq_ok hrun
  have hinherited := of_decide_eq_true hshape
  have hlen : ds.length = 1 := by simpa using congrArg List.length hinherited
  have hclean := (runTracked_clean hok).mpr
  refine ⟨s, p, ds, hok, hlen, (client_isolated hok).1.mpr (hclean fun d hd => ?_)⟩
  have hmem : d.inherited ∈ ds.map fun d => d.inherited := List.mem_map_of_mem hd
  rw [hinherited] at hmem
  exact List.mem_singleton.mp hmem

/-- A key goes down while client 5 is connected, client 6 kicks client 5 and receives the line. -/
theorem predecessor_line_sent : ∃ s p d,
    runTracked 3 [connects 5, press30, connects 6, delivers 6 11] = .ok ((s, p), [d]) ∧
      d.cells.map Prod.fst = encode ⟨Timeval.zero, evKey, 30, 1⟩ ∧ d.since = 1 ∧ ¬ d.Own ∧
      ∃ s log, runServer (serverInit 3) [connects 5, press30, connects 6, delivers 6 11]
        = .ok (s, log) := by
  have hrun : (runTracked 3 [connects 5, press30, connects 6, delivers 6 11]).map (fun x =>
      x.2.map fun d => (d.cells, d.since)) = .ok [((encode ⟨Timeval.zero, evKey, 30, 1⟩).zip
        (lineOrigins 0 ⟨Timeval.zero, evKey, 30, 1⟩), 1)] := by decide +kernel
  have hreal : (runServer (serverInit 3) [connects 5, press30, connects 6, delivers 6 11]).map
      (fun _ => ()) = .ok () := by decide +kernel
  obtain ⟨⟨⟨s, p⟩, ds⟩, hok, hshape⟩ := Steps.map_eq_ok hrun
  obtain ⟨⟨s', log⟩, hok', _⟩ := Steps.map_eq_ok hreal
  obtain ⟨d, rfl, hd⟩ := List.map_eq_singleton_iff.mp hshape
  obtain ⟨hcells, hsince⟩ := Prod.mk.inj hd
  refine ⟨s, p, d, hok, ?_, hsince, fun hown => ?_, s', log, hok'⟩
  · rw [hcells]
    decide +kernel
  · have hfirst : (49, ⟨0, 0⟩) ∈ d.cells := by
      rw [hcells]
      decide +kernel
    have hrecent := hown.1 _ hfirst
    rw [hsince] at hrecent
    exact absurd hrecent (by decide)

end Sdiol
