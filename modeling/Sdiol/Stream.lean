import Sdiol.Server

namespace Sdiol

/-!
# The stream of one client

While one client stays connected, what was sent to it and what is still in `for_client` should
be the lines of the events that were accepted.  After a short write `server_handle_select`
lowers `fc_len` but leaves the unsent bytes where they are, behind those it sent, so the front
of the buffer is sent again and its end is lost.  `uncorrupted_stream` says exactly which
writes do no harm: full ones, and short ones of a buffer that repeats itself with the period
that was sent.
-/

/-! ### Reading the log -/

/-- The bytes `send` accepted, in order. -/
def sentBytes (log : List ServerEffect) : List UInt8 :=
  log.flatMap fun
    | .sent _ pending len => pending.take len
    | _ => []

/-- The events that were appended to `for_client`, in order. -/
def queuedEvents (log : List ServerEffect) : List InputEvent :=
  log.filterMap fun
    | .queued ev => some ev
    | _ => none

/-- Whether the clients stay as they are. -/
def ServerEffect.keepsClients : ServerEffect → Bool
  | .accepted _ | .closed _ => false
  | _ => true

/-- No client came or went. -/
def Tenure (log : List ServerEffect) : Prop := ∀ x ∈ log, x.keepsClients = true

instance (log : List ServerEffect) : Decidable (Tenure log) :=
  inferInstanceAs (Decidable (∀ x ∈ log, x.keepsClients = true))

/-- The bytes sent and those still to be sent are the lines of the events accepted. -/
def Uncorrupted (log : List ServerEffect) (s : KbdServer) : Prop :=
  sentBytes log ++ s.pending = (queuedEvents log).flatMap encode

/-- After its first `len` bytes, the list starts again. -/
def Repeats (len : Nat) (pending : List UInt8) : Prop :=
  pending.drop len = pending.take (pending.length - len)

@[simp] theorem sentBytes_append (l₁ l₂ : List ServerEffect) :
    sentBytes (l₁ ++ l₂) = sentBytes l₁ ++ sentBytes l₂ := List.flatMap_append

@[simp] theorem queuedEvents_append (l₁ l₂ : List ServerEffect) :
    queuedEvents (l₁ ++ l₂) = queuedEvents l₁ ++ queuedEvents l₂ := List.filterMap_append

instance (len : Nat) (pending : List UInt8) : Decidable (Repeats len pending) :=
  inferInstanceAs (Decidable (_ = _))

theorem Tenure.left {l₁ l₂ : List ServerEffect} (h : Tenure (l₁ ++ l₂)) : Tenure l₁ :=
  fun x hx => h x (List.mem_append_left _ hx)

theorem Tenure.right {l₁ l₂ : List ServerEffect} (h : Tenure (l₁ ++ l₂)) : Tenure l₂ :=
  fun x hx => h x (List.mem_append_right _ hx)

theorem Tenure.not_closed {log : List ServerEffect} (h : Tenure log) (client : Fd) :
    .closed client ∉ log := by
  intro hmem
  exact absurd (h _ hmem) (by simp [ServerEffect.keepsClients])

theorem Tenure.not_accepted {log : List ServerEffect} (h : Tenure log) (client : Fd) :
    .accepted client ∉ log := by
  intro hmem
  exact absurd (h _ hmem) (by simp [ServerEffect.keepsClients])

@[simp] theorem KbdServer.length_pending (s : KbdServer) : s.pending.length = s.fcLen :=
  Buffer.length_slice ..

/-! ### One call -/

/-- **Accepted or dropped.** With a client, an event that fits is appended to what is pending,
    and one that does not is dropped and changes nothing. -/
theorem serverSendEvent_cases (ev : InputEvent) {s : KbdServer} (hclient : 0 < s.nclients) :
    (s.fcLen + (encode ev).length ≤ forClientSize ∧
        (serverSendEvent ev s).2.2 = [.queued ev] ∧
        (serverSendEvent ev s).2.1.nclients = s.nclients ∧
        (serverSendEvent ev s).2.1.pending = s.pending ++ encode ev) ∨
      (forClientSize < s.fcLen + (encode ev).length ∧
        (serverSendEvent ev s).2 = (s, [.dropped ev])) := by
  unfold serverSendEvent
  rw [if_neg (by omega)]
  by_cases hfits : s.fcLen + (encode ev).length ≤ forClientSize
  · rw [if_neg (by omega)]
    exact .inl ⟨hfits, rfl, rfl, Buffer.slice_append_copy s.forClient s.fcLen (encode ev)⟩
  · rw [if_pos (by omega)]
    exact .inr ⟨by omega, rfl⟩

/-- If no client is closed, then looking for broken connections changes nothing. -/
theorem checkClients_tenure {o : Answers} {n i : Nat} {s : KbdServer}
    (h : Tenure (checkClients o n i s).2) : checkClients o n i s = (s, []) := by
  induction n generalizing i with
  | zero => rfl
  | succ n ih =>
    unfold checkClients at h ⊢
    by_cases hready : s.clients i ∈ o.rFds
    · rw [if_pos hready] at h ⊢
      by_cases hread : o.read (s.clients i) > 1
      · rw [if_pos hread] at h ⊢
        exact ih h
      · rw [if_neg hread] at h
        exact absurd (List.mem_append_left _ List.mem_cons_self) (h.not_closed (s.clients i))
    · rw [if_neg hready] at h ⊢
      exact ih h

/-- If no client is accepted, then nothing happens at the listening socket. -/
theorem handleAccept_tenure {o : Answers} {s s' : KbdServer} {l : List ServerEffect}
    (h : handleAccept o s = .ok (s', l)) (hl : Tenure l) : s' = s ∧ l = [] := by
  unfold handleAccept at h
  by_cases hready : s.acceptFd ∈ o.rFds
  · rw [if_pos hready] at h
    split at h
    · exact absurd h (by simp)
    · have hmem : .accepted o.accept.toNat ∈ l := by
        simp only at h
        split at h
        · cases h
          exact List.mem_cons_self
        · split at h <;> (cases h; exact List.mem_cons_self)
      exact absurd hmem (hl.not_accepted _)
  · rw [if_neg hready] at h
    cases h
    exact ⟨rfl, rfl⟩

/-- What writing to the active client can do if it does not lose the client. -/
theorem writeActive_tenure {o : Answers} {s : KbdServer} (hsend : o.send ≤ s.fcLen)
    (hl : Tenure (writeActive o s).2) :
    writeActive o s = (s, []) ∨
      ∃ client len, len ≤ s.fcLen ∧ (writeActive o s).2 = [.sent client s.pending len] ∧
        (writeActive o s).1.nclients = s.nclients ∧
        (writeActive o s).1.pending = s.pending.take (s.fcLen - len) := by
  unfold writeActive at hl ⊢
  by_cases hready : s.nclients > 0 ∧ s.clients s.activeClient ∈ o.wFds
  · rw [if_pos hready] at hl ⊢
    by_cases hfail : o.send ≤ 0
    · rw [if_pos hfail] at hl
      exact absurd List.mem_cons_self (hl.not_closed (s.clients s.activeClient))
    · rw [if_neg hfail]
      refine .inr ⟨s.clients s.activeClient, o.send.toNat, by omega, rfl, rfl, ?_⟩
      exact (Buffer.take_slice s.forClient 0 (Nat.sub_le s.fcLen o.send.toNat)).symm
  · rw [if_neg hready]
    exact .inl rfl

/-- **One call.** While the client stays, a call appends one line, or drops an event, or sends
    the first bytes of what is pending and keeps as many fewer of its first bytes, or does
    nothing. -/
theorem serverStep_tenure {i : ServerInput} {s s' : KbdServer} {l : List ServerEffect}
    (h : serverStep i s = .ok (s', l)) (hl : Tenure l) (hclient : 0 < s.nclients) :
    s'.nclients = s.nclients ∧
      ((∃ ev, l = [.queued ev] ∧ s'.pending = s.pending ++ encode ev) ∨
        (∃ ev, l = [.dropped ev] ∧ s'.pending = s.pending) ∨
        (∃ client len, l = [.sent client s.pending len] ∧ len ≤ s.fcLen ∧
          s'.pending = s.pending.take (s.fcLen - len)) ∨
        (l = [] ∧ s'.pending = s.pending)) := by
  cases i with
  -- `kbd_server_send_event` appends a line if it fits
  | event ev =>
    have hs : (serverSendEvent ev s).2 = (s', l) := Except.ok.inj h
    rcases serverSendEvent_cases ev hclient with ⟨_, hlog, hn, hpending⟩ | ⟨_, hdrop⟩
    · rw [hs] at hlog hn hpending
      exact ⟨hn, .inl ⟨ev, hlog, hpending⟩⟩
    · rw [hs] at hdrop
      cases hdrop
      exact ⟨rfl, .inr (.inl ⟨ev, rfl, rfl⟩)⟩
  | select o =>
    have hstep : (if Possible s o then serverHandleSelect o s else .error .notPromised)
        = .ok (s', l) := h
    by_cases hpossible : Possible s o
    · rw [if_pos hpossible] at hstep
      obtain ⟨s₁, l₁, s₂, l₂, l₃, hwrite, hcheck, haccept, rfl⟩ := serverHandleSelect_ok hstep
      -- no client comes or goes, so that only the write is left
      obtain ⟨rfl, rfl⟩ := handleAccept_tenure haccept hl.right
      have hnone := checkClients_tenure (by rw [hcheck]; exact hl.left.right)
      obtain ⟨rfl, rfl⟩ := Prod.mk.inj (hcheck.symm.trans hnone)
      rw [List.append_nil, List.append_nil]
      rcases writeActive_tenure hpossible.2.2 (by rw [hwrite]; exact hl.left.left) with
        hidle | ⟨client, len, hlen, hlog, hn, hpending⟩
      · obtain ⟨rfl, rfl⟩ := Prod.mk.inj (hwrite.symm.trans hidle)
        exact ⟨rfl, .inr (.inr (.inr ⟨rfl, rfl⟩))⟩
      · rw [hwrite] at hlog hn hpending
        exact ⟨hn, .inr (.inr (.inl ⟨client, len, hlog, hlen, hpending⟩))⟩
    · rw [if_neg hpossible] at hstep
      exact absurd hstep (by simp)

/-! ### Runs -/

theorem sentBytes_sent (client : Fd) (pending : List UInt8) (len : Nat) :
    sentBytes [.sent client pending len] = pending.take len := List.append_nil _

/-- What has to be pending after a write of `len` bytes is what is pending in the code exactly
    if what was pending repeats itself. -/
theorem uncorrupted_sent_iff {log : List ServerEffect} {s s' : KbdServer} {client : Fd} {len : Nat}
    (h : Uncorrupted log s) (hpending : s'.pending = s.pending.take (s.fcLen - len)) :
    Uncorrupted (log ++ [.sent client s.pending len]) s' ↔ Repeats len s.pending := by
  have hsplit : s.pending = s.pending.take len ++ s.pending.drop len :=
    (List.take_append_drop len s.pending).symm
  have hqueued : queuedEvents (log ++ [.sent client s.pending len]) = queuedEvents log := by
    rw [queuedEvents_append]
    exact List.append_nil _
  unfold Uncorrupted at h ⊢
  unfold Repeats
  rw [sentBytes_append, sentBytes_sent, hqueued, ← h, hpending, List.append_assoc,
    KbdServer.length_pending]
  constructor
  · intro heq
    have hboth := List.append_cancel_left heq
    exact (List.append_cancel_left (hboth.trans hsplit)).symm
  · intro hrepeats
    rw [← hrepeats, ← hsplit]

/-- **Step.** While the client stays, a call keeps the stream uncorrupted exactly if what it
    sends from repeats itself. -/
theorem serverStep_uncorrupted {log l : List ServerEffect} {i : ServerInput} {s s' : KbdServer}
    (hclient : 0 < s.nclients) (hs : Uncorrupted log s) (h : serverStep i s = .ok (s', l))
    (hl : Tenure l) : s'.nclients = s.nclients ∧
      (Uncorrupted (log ++ l) s' ↔
        ∀ client pending len, .sent client pending len ∈ l → Repeats len pending) := by
  obtain ⟨hn, hcase⟩ := serverStep_tenure h hl hclient
  refine ⟨hn, ?_⟩
  rcases hcase with ⟨ev, rfl, hpending⟩ | ⟨ev, rfl, hpending⟩ | ⟨client, len, rfl, _, hpending⟩ |
    ⟨rfl, hpending⟩
  · -- the line of the event is accepted and pending
    have hdone : Uncorrupted (log ++ [.queued ev]) s' := by
      have hsent : sentBytes (log ++ [.queued ev]) = sentBytes log := by
        rw [sentBytes_append]
        exact List.append_nil _
      have hqueued : queuedEvents (log ++ [.queued ev]) = queuedEvents log ++ [ev] := by
        rw [queuedEvents_append]
        rfl
      unfold Uncorrupted at hs ⊢
      rw [hsent, hqueued, hpending, ← List.append_assoc, hs, List.flatMap_append,
        List.flatMap_singleton]
    exact iff_of_true hdone (by simp)
  · -- an event that is dropped is not in the stream
    have hdone : Uncorrupted (log ++ [.dropped ev]) s' := by
      unfold Uncorrupted at hs ⊢
      rw [sentBytes_append, queuedEvents_append, hpending]
      simpa [sentBytes, queuedEvents] using hs
    exact iff_of_true hdone (by simp)
  · -- a write
    rw [uncorrupted_sent_iff hs hpending]
    constructor
    · rintro hrepeats c p n hmem
      cases List.mem_singleton.mp hmem
      exact hrepeats
    · intro hall
      exact hall client s.pending len List.mem_cons_self
  · rw [List.append_nil]
    unfold Uncorrupted at hs ⊢
    rw [hpending]
    exact iff_of_true hs (by simp)

/-- The client stays as long as none comes or goes. -/
theorem runServer_keeps_client {s₀ s : KbdServer} {inputs : List ServerInput}
    {log : List ServerEffect} (hclient : 0 < s₀.nclients)
    (h : runServer s₀ inputs = .ok (s, log)) (htenure : Tenure log) : 0 < s.nclients := by
  refine Steps.run_inv (fun log s => Tenure log → 0 < s.nclients) ?_ (fun _ => hclient) h htenure
  intro i _ log s s' l hinv hstep htenure
  rw [(serverStep_tenure hstep htenure.right (hinv htenure.left)).1]
  exact hinv htenure.left

/-- **Run.** If every write was harmless, the stream is uncorrupted. -/
theorem runServer_uncorrupted {s₀ s : KbdServer} {inputs : List ServerInput}
    {log : List ServerEffect} (hclient : 0 < s₀.nclients) (hempty : s₀.fcLen = 0)
    (h : runServer s₀ inputs = .ok (s, log)) (htenure : Tenure log)
    (hall : ∀ client pending len, .sent client pending len ∈ log → Repeats len pending) :
    0 < s.nclients ∧ Uncorrupted log s := by
  have hinit : Uncorrupted [] s₀ := by
    have hnil : s₀.pending = [] := List.length_eq_zero_iff.mp (by rw [s₀.length_pending, hempty])
    unfold Uncorrupted
    rw [hnil]
    rfl
  refine Steps.run_inv (fun log s => Tenure log →
    (∀ client pending len, .sent client pending len ∈ log → Repeats len pending) →
      0 < s.nclients ∧ Uncorrupted log s) ?_ (fun _ _ => ⟨hclient, hinit⟩) h htenure hall
  intro i _ log s s' l hinv hstep htenure hall
  obtain ⟨hn, hs⟩ := hinv htenure.left fun client pending len hmem =>
    hall client pending len (List.mem_append_left _ hmem)
  obtain ⟨hn', hiff⟩ := serverStep_uncorrupted hn hs hstep htenure.right
  refine ⟨by omega, hiff.mpr fun client pending len hmem => ?_⟩
  exact hall client pending len (List.mem_append_right _ hmem)

/-- **The stream of one client.** From a state with a client and nothing to send, over any
    calls during which no client comes or goes: after every call what was sent and what is
    pending are the lines of the events accepted, exactly if every write is full or is from a
    buffer that repeats itself with the length of what was sent.  An event is accepted whole
    or dropped whole. -/
theorem uncorrupted_stream {s₀ s : KbdServer} {inputs : List ServerInput}
    {log : List ServerEffect} (hclient : 0 < s₀.nclients) (hempty : s₀.fcLen = 0)
    (h : runServer s₀ inputs = .ok (s, log)) (htenure : Tenure log) :
    ((∀ is js s' l, inputs = is ++ js → runServer s₀ is = .ok (s', l) → Uncorrupted l s') ↔
      ∀ client pending len, .sent client pending len ∈ log → Repeats len pending) ∧
    ∀ is js s' l ev, inputs = is ++ .event ev :: js → runServer s₀ is = .ok (s', l) →
      (s'.fcLen + (encode ev).length ≤ forClientSize ∧
          (serverSendEvent ev s').2.2 = [.queued ev] ∧
          (serverSendEvent ev s').2.1.pending = s'.pending ++ encode ev) ∨
        (forClientSize < s'.fcLen + (encode ev).length ∧
          (serverSendEvent ev s').2 = (s', [.dropped ev])) := by
  -- the log of a part of the calls is the beginning of the log
  have hprefix : ∀ is js s' l, inputs = is ++ js → runServer s₀ is = .ok (s', l) →
      ∃ l', log = l ++ l' := by
    rintro is js s' l rfl his
    obtain ⟨s₁, l₁, l₂, h₁, _, rfl⟩ := Steps.run_append_ok.mp h
    obtain ⟨rfl, rfl⟩ := Prod.mk.inj (Except.ok.inj (h₁.symm.trans his))
    exact ⟨l₂, rfl⟩
  refine ⟨⟨fun halways client pending len hmem => ?_, fun hall is js s' l hsplit his => ?_⟩, ?_⟩
  · -- the property holds before and after the call that sent these bytes
    obtain ⟨js, i, ks, s₁, l₁, s₂, l₂, hsplit, hjs, hi, hboth, hmem⟩ := Steps.mem_run h hmem
    have hbefore := halways js (i :: ks) s₁ l₁ hsplit hjs
    have hafter := halways (js ++ [i]) ks s₂ (l₁ ++ l₂) (by rw [hsplit, List.append_assoc]; rfl)
      hboth
    obtain ⟨l', hl'⟩ := hprefix (js ++ [i]) ks s₂ (l₁ ++ l₂)
      (by rw [hsplit, List.append_assoc]; rfl) hboth
    have hten : Tenure (l₁ ++ l₂) := by
      rw [hl'] at htenure
      exact htenure.left
    have hn := runServer_keeps_client hclient hjs hten.left
    exact (serverStep_uncorrupted hn hbefore hi hten.right).2.mp hafter client pending len hmem
  · -- all writes up to there repeat themselves
    obtain ⟨l', rfl⟩ := hprefix is js s' l hsplit his
    exact (runServer_uncorrupted hclient hempty his htenure.left fun client pending len hmem =>
      hall client pending len (List.mem_append_left _ hmem)).2
  · intro is js s' l ev hsplit his
    obtain ⟨l', rfl⟩ := hprefix is _ s' l hsplit his
    have hn := runServer_keeps_client hclient his htenure.left
    rcases serverSendEvent_cases ev hn with ⟨hfits, hlog, _, hpending⟩ | hdrop
    · exact .inl ⟨hfits, hlog, hpending⟩
    · exact .inr hdrop

/-- A server with one client, 5, and nothing to send. -/
def oneClient : KbdServer := { serverInit 3 with clients := fun _ => 5, nclients := 1 }

/-- The client can take bytes, and `send` accepts `len` of them. -/
def takes (len : Nat) : ServerInput := .select ⟨[], [5], len, fun _ => 0, 0⟩

/-- Key 30 goes down: `1:1:30:0:0` and a newline. -/
def press30 : ServerInput := .event ⟨Timeval.zero, evKey, 30, 1⟩

/-- After a full write the client has the whole line. -/
theorem uncorrupted_stream_full :
    ∃ s log, runServer oneClient [press30, takes 11] = .ok (s, log) ∧
      sentBytes log ++ s.pending = encode ⟨Timeval.zero, evKey, 30, 1⟩ := by
  have hrun : (runServer oneClient [press30, takes 11]).map (fun x =>
      decide (Tenure x.2 ∧ queuedEvents x.2 = [⟨Timeval.zero, evKey, 30, 1⟩] ∧
        x.2.all fun e => match e with
          | .sent _ pending len => decide (Repeats len pending)
          | _ => true)) = .ok true := by
    decide +kernel
  obtain ⟨⟨s, log⟩, hok, hshape⟩ := Steps.map_eq_ok hrun
  obtain ⟨htenure, hqueued, hrepeats⟩ := of_decide_eq_true hshape
  have hall : ∀ client pending len, .sent client pending len ∈ log → Repeats len pending := by
    intro client pending len hmem
    exact of_decide_eq_true (List.all_eq_true.mp hrepeats _ hmem)
  have hstream := (uncorrupted_stream (by decide) rfl hok htenure).1.mpr hall
    [press30, takes 11] [] s log rfl hok
  refine ⟨s, log, hok, ?_⟩
  unfold Uncorrupted at hstream
  rw [hstream]
  simp only at hqueued
  rw [hqueued]
  exact List.append_nil _

/-- After a write of 5 of the 11 bytes the first 6 are sent next: the client gets `1:1:31:1:30`,
    and no newline. -/
theorem short_write_corrupts :
    ∃ s log, runServer oneClient [press30, takes 5, takes 6] = .ok (s, log) ∧ Tenure log ∧
      sentBytes log = "1:1:31:1:30".toUTF8.toList ∧ s.pending = [] ∧ ¬ Uncorrupted log s := by
  have hrun : (runServer oneClient [press30, takes 5, takes 6]).map (fun x =>
      decide (Tenure x.2 ∧ sentBytes x.2 = "1:1:31:1:30".toUTF8.toList ∧ x.1.pending = [] ∧
        ¬ sentBytes x.2 ++ x.1.pending = (queuedEvents x.2).flatMap encode)) = .ok true := by
    decide +kernel
  obtain ⟨⟨s, log⟩, hok, hshape⟩ := Steps.map_eq_ok hrun
  obtain ⟨htenure, hsent, hnil, hcorrupt⟩ := of_decide_eq_true hshape
  exact ⟨s, log, hok, htenure, hsent, hnil, hcorrupt⟩

end Sdiol
