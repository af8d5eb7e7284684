import Sdiol.Server

namespace Sdiol

/-!
# The client table

`server_handle_select` removes clients by index inside its loop, when a write fails, and when a
newcomer takes slot 0.  `ClientTable` is the invariant that survives all of these: there is at
most one client, it is the one accepted last, and every other connection was closed once.  It is
kept by each part of `server_handle_select` on its own, whatever the descriptor sets hold
and whatever `send` and `read` return.
-/

/-! ### Calls with any answers -/

/-- One call.  The two sets are arbitrary; `send` accepts at most what it is given. -/
def handleStep : ServerInput → KbdServer → Except ServerAbort (KbdServer × List ServerEffect)
  | .event ev, s => .ok (serverSendEvent ev s).2
  | .select o, s => if o.send ≤ s.fcLen then serverHandleSelect o s else .error .notPromised

/-- Any calls, from a given state on. -/
def runHandles (s : KbdServer) (inputs : List ServerInput) :
    Except ServerAbort (KbdServer × List ServerEffect) := Steps.run handleStep inputs s

/-- The connections `accept` returned, in order. -/
def acceptedClients (log : List ServerEffect) : List Fd :=
  log.filterMap fun
    | .accepted client => some client
    | _ => none

/-- The connections that were closed, in order. -/
def closedClients (log : List ServerEffect) : List Fd :=
  log.filterMap fun
    | .closed client => some client
    | _ => none

@[simp] theorem acceptedClients_append (l₁ l₂ : List ServerEffect) :
    acceptedClients (l₁ ++ l₂) = acceptedClients l₁ ++ acceptedClients l₂ := List.filterMap_append

@[simp] theorem closedClients_append (l₁ l₂ : List ServerEffect) :
    closedClients (l₁ ++ l₂) = closedClients l₁ ++ closedClients l₂ := List.filterMap_append

/-- What `select` promises is more than `handleStep` asks for. -/
theorem handleStep_of_serverStep {i : ServerInput} {s s' : KbdServer} {l : List ServerEffect}
    (h : serverStep i s = .ok (s', l)) : handleStep i s = .ok (s', l) := by
  cases i with
  | event ev => exact h
  | select o =>
    have hstep : (if Possible s o then serverHandleSelect o s else .error .notPromised)
        = .ok (s', l) := h
    by_cases hpossible : Possible s o
    · rw [if_pos hpossible] at hstep
      show (if o.send ≤ s.fcLen then serverHandleSelect o s else .error .notPromised) = _
      rw [if_pos hpossible.2.2]
      exact hstep
    · rw [if_neg hpossible] at hstep
      exact absurd hstep (by simp)

theorem runHandles_of_runServer {s s' : KbdServer} {inputs : List ServerInput}
    {log : List ServerEffect} (h : runServer s inputs = .ok (s', log)) :
    runHandles s inputs = .ok (s', log) :=
  Steps.run_congr handleStep (fun _ => True)
    (fun _ _ _ _ hstep _ => handleStep_of_serverStep hstep) h fun _ _ => trivial

/-! ### The invariant -/

/-- The slots of the table: none is used, or the first one by the client accepted last. -/
inductive Slots (log : List ServerEffect) (s : KbdServer) : Prop
  | empty (hn : s.nclients = 0) (hlen : s.fcLen = 0)
      (hclosed : closedClients log = acceptedClients log) : Slots log s
  | one (hn : s.nclients = 1)
      (haccepted : acceptedClients log = closedClients log ++ [s.clients 0]) : Slots log s

/-- The invariant of the client table. -/
structure ClientTable (log : List ServerEffect) (s : KbdServer) : Prop where
  active : s.activeClient = 0
  room : s.fcLen ≤ forClientSize
  slots : Slots log s

theorem clientTable_init (acceptFd : Fd) : ClientTable [] (serverInit acceptFd) where
  active := rfl
  room := Nat.zero_le _
  slots := .empty rfl rfl rfl

section Parts

variable {log l : List ServerEffect} {s s' : KbdServer}

/-- What neither accepts nor closes a connection leaves the slots as they are. -/
theorem Slots.frame (h : Slots log s) (haccepted : acceptedClients l = [])
    (hclosed : closedClients l = []) (hn : s'.nclients = s.nclients)
    (hclients : s'.clients = s.clients) (hlen : s.nclients = 0 → s'.fcLen = s.fcLen) :
    Slots (log ++ l) s' := by
  have hsame : acceptedClients (log ++ l) = acceptedClients log := by
    rw [acceptedClients_append, haccepted, List.append_nil]
  have hsame' : closedClients (log ++ l) = closedClients log := by
    rw [closedClients_append, hclosed, List.append_nil]
  cases h with
  | empty hzero hfc heq =>
    exact .empty (hn.trans hzero) ((hlen hzero).trans hfc) (by rw [hsame, hsame', heq])
  | one hone heq => exact .one (hn.trans hone) (by rw [hsame, hsame', heq, hclients])

theorem ClientTable.event {ev : InputEvent} (h : ClientTable log s)
    (hstep : (serverSendEvent ev s).2 = (s', l)) : ClientTable (log ++ l) s' := by
  unfold serverSendEvent at hstep
  split at hstep
  · cases hstep
    exact ⟨h.active, h.room, h.slots.frame rfl rfl rfl rfl fun _ => rfl⟩
  · rename_i hn
    simp only at hstep
    split at hstep
    · cases hstep
      exact ⟨h.active, h.room, h.slots.frame rfl rfl rfl rfl fun _ => rfl⟩
    · cases hstep
      exact ⟨h.active, by simp only; omega,
        h.slots.frame rfl rfl rfl rfl fun hzero => absurd hzero hn⟩

/-- **Closing the client.** -/
theorem ClientTable.close (h : ClientTable log s) (hn : s.nclients = 1) :
    ClientTable (log ++ (serverCloseClient s 0).2) (serverCloseClient s 0).1 := by
  have hactive : s.activeClient = 0 := h.active
  cases h.slots with
  | empty hzero _ _ => exact absurd (hzero.symm.trans hn) (by simp)
  | one _ haccepted =>
    refine ⟨?_, ?_, .empty ?_ ?_ ?_⟩
    · simp [serverCloseClient, hactive]
    · simp [serverCloseClient, hactive]
    · simp [serverCloseClient, hn]
    · simp [serverCloseClient, hactive]
    · rw [acceptedClients_append, closedClients_append, haccepted]
      simp [serverCloseClient, acceptedClients, closedClients]

theorem ClientTable.write {o : Answers} (h : ClientTable log s)
    (hstep : writeActive o s = (s', l)) : ClientTable (log ++ l) s' := by
  unfold writeActive at hstep
  split at hstep
  · rename_i hready
    split at hstep
    · -- the write failed
      have hn : s.nclients = 1 := by
        cases h.slots with
        | empty hn _ _ => omega
        | one hn _ => exact hn
      rw [h.active] at hstep
      have hclose := h.close hn
      rwa [hstep] at hclose
    · cases hstep
      have hroom := h.room
      exact ⟨h.active, by simp only; omega,
        h.slots.frame rfl rfl rfl rfl fun hzero => absurd hready.1 (by omega)⟩
  · cases hstep
    rwa [List.append_nil]

theorem ClientTable.check {o : Answers} (h : ClientTable log s)
    (hstep : checkClients o s.nclients 0 s = (s', l)) : ClientTable (log ++ l) s' := by
  cases h.slots with
  | empty hn _ _ =>
    rw [hn] at hstep
    cases hstep
    rwa [List.append_nil]
  | one hn _ =>
    rw [hn] at hstep
    unfold checkClients at hstep
    split at hstep
    · split at hstep
      · cases hstep
        rwa [List.append_nil]
      · cases hstep
        show ClientTable (log ++ ((serverCloseClient s 0).2 ++ [])) (serverCloseClient s 0).1
        rw [List.append_nil]
        exact h.close hn
    · cases hstep
      rwa [List.append_nil]

theorem ClientTable.accept {o : Answers} (h : ClientTable log s)
    (hstep : handleAccept o s = .ok (s', l)) : ClientTable (log ++ l) s' := by
  unfold handleAccept at hstep
  split at hstep
  · split at hstep
    · exact absurd hstep (by simp)
    simp only at hstep
    cases h.slots with
    | empty hn hlen hclosed =>
      rw [hn, if_neg (by decide), if_neg (by decide)] at hstep
      cases hstep
      refine ⟨h.active, h.room, .one rfl ?_⟩
      rw [acceptedClients_append, closedClients_append, hclosed]
      simp [acceptedClients, closedClients]
    | one hn haccepted =>
      -- the newcomer takes the slot of the client it kicks
      rw [hn, if_neg (by decide), if_pos (by decide)] at hstep
      cases hstep
      refine ⟨h.active, h.room, .one rfl ?_⟩
      rw [acceptedClients_append, closedClients_append, haccepted]
      simp [acceptedClients, closedClients]
  · cases hstep
    rwa [List.append_nil]

/-- **Step.** A call of `server_send_event` or `server_handle_select` keeps the invariant. -/
theorem ClientTable.step {i : ServerInput} (h : ClientTable log s)
    (hstep : handleStep i s = .ok (s', l)) : ClientTable (log ++ l) s' := by
  cases i with
  | event ev => exact h.event (Except.ok.inj hstep)
  | select o =>
    have hstep : (if o.send ≤ s.fcLen then serverHandleSelect o s else .error .notPromised)
        = .ok (s', l) := hstep
    split at hstep
    · obtain ⟨s₁, l₁, s₂, l₂, l₃, hwrite, hcheck, haccept, rfl⟩ := serverHandleSelect_ok hstep
      have h₁ := h.write hwrite
      have h₂ := h₁.check hcheck
      have h₃ := h₂.accept haccept
      rwa [List.append_assoc, List.append_assoc, ← List.append_assoc l₁] at h₃
    · exact absurd hstep (by simp)

end Parts

/-- **Run.** Any calls from the zeroed state on keep the invariant. -/
theorem runHandles_clientTable {acceptFd : Fd} {inputs : List ServerInput} {s : KbdServer}
    {log : List ServerEffect} (h : runHandles (serverInit acceptFd) inputs = .ok (s, log)) :
    ClientTable log s :=
  Steps.run_inv ClientTable (fun _ _ _ _ _ _ hs hstep => hs.step hstep)
    (clientTable_init acceptFd) h

/-- **The client table.** After any calls of `server_send_event` and `server_handle_select`,
    with any sets, any outcomes of `send` and `read` and any successful `accept`s: there is at
    most one client and it is the active one; `for_client` is not overrun and is empty without
    a client; a client is the connection accepted last; and the connections closed so far, in
    order, are those accepted so far, up to the one that is still a client. -/
theorem client_table {acceptFd : Fd} {inputs : List ServerInput} {s : KbdServer}
    {log : List ServerEffect} (h : runHandles (serverInit acceptFd) inputs = .ok (s, log)) :
    s.nclients ≤ 1 ∧ s.activeClient = 0 ∧ s.fcLen ≤ forClientSize ∧
      (s.nclients = 0 → s.fcLen = 0 ∧ closedClients log = acceptedClients log) ∧
      (s.nclients = 1 → (acceptedClients log).getLast? = some (s.clients 0) ∧
        closedClients log = (acceptedClients log).dropLast) := by
  have hinv := runHandles_clientTable h
  cases hinv.slots with
  | empty hn hlen hclosed =>
    have hone : ¬ s.nclients = 1 := by omega
    exact ⟨by omega, hinv.active, hinv.room, fun _ => ⟨hlen, hclosed⟩, fun hn => absurd hn hone⟩
  | one hn haccepted =>
    have hzero : ¬ s.nclients = 0 := by omega
    refine ⟨hn.le, hinv.active, hinv.room, fun hn => absurd hn hzero, fun _ => ?_⟩
    rw [haccepted, List.getLast?_concat, List.dropLast_concat]
    exact ⟨rfl, rfl⟩

/-- A connection comes in as descriptor `client`. -/
def connects (client : Fd) : ServerInput := .select ⟨[3], [], 0, fun _ => 0, client⟩

/-- Client 6 kicks client 5. -/
theorem client_table_kick : ∃ s log, runHandles (serverInit 3) [connects 5, connects 6]
    = .ok (s, log) ∧ acceptedClients log = [5, 6] ∧ closedClients log = [5] := by
  have hrun : (runHandles (serverInit 3) [connects 5, connects 6]).map (fun x =>
      decide (x.1.nclients = 1 ∧ acceptedClients x.2 = [5, 6])) = .ok true := by decide +kernel
  obtain ⟨⟨s, log⟩, hok, hshape⟩ := Steps.map_eq_ok hrun
  obtain ⟨hn, haccepted⟩ := of_decide_eq_true hshape
  obtain ⟨_, _, _, _, hone⟩ := client_table hok
  have hclosed := (hone hn).2
  simp only at haccepted
  rw [haccepted] at hclosed
  exact ⟨s, log, hok, haccepted, hclosed⟩

end Sdiol
