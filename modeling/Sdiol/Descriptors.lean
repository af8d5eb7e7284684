import Sdiol.Clients
import Sdiol.Hotplug
import Sdiol.SocketLock
import Sdiol.Lib.Handles

namespace Sdiol

open Devices Handles

/-!
# Descriptors

The kernel gives the number of a descriptor that was closed to the next one that is opened, so
that a `close` too many would hit a keyboard, a client or a socket that is in use.  Each command
is followed here from its first descriptor to its last `close`: `gai_open` or `unix_socket_open`,
`serve_loop` with the clients of `server_handle_select` and the devices of `open_input`, and what
`main_serve_unix`, `main_serve_tcp`, `main_local`, `main_connect` and `main_read` close at their
end.  The `FdCall`s of a command are all it does to the table of descriptors.

* `handleStep_trades`, `hotplugStep_trades` — what is open is what the tables of clients and
  devices say, and a step closes nothing else;
* `gaiOpen_trades`, `unixSocketOpen_trades` — nothing is left of the attempts that fail;
* `descriptors_owned` — no command closes what it has not opened, or for what it is not open, and
  what is left at its end are the devices that are ignored, and without a keyboard inotify.
-/

variable {n : Nat}

/-- What a descriptor is open for. -/
inductive Purpose (n : Nat) where
  /-- it was open when the program was started -/
  | inherited
  /-- `lockfd` -/
  | lock
  /-- `accept_fd` -/
  | listener
  /-- an element of `clients` -/
  | client
  /-- the socket of `main_connect` -/
  | connection
  /-- `/dev/uinput` -/
  | output
  | inotify
  /-- a device that is grabbed, or without a grab one that is ignored -/
  | input (grab : Option (Fin n))
  /-- a device for which `EVIOCGRAB` fails -/
  | refused
deriving DecidableEq

abbrev FdCall (n : Nat) := Call Fd (Purpose n)

/-- Descriptors that are open. -/
abbrev Fds (n : Nat) := List (Fd × Purpose n)

/-- What a command does not close: devices that are ignored, and if there were no keyboards
    inotify. -/
def Purpose.stays (noInputs : Bool) : Purpose n → Bool
  | .input none => true
  | .inotify => noInputs
  | _ => false

/-- The descriptors that calls open for what stays. -/
def leftOver (noInputs : Bool) (cs : List (FdCall n)) : Fds n :=
  openedFor (Purpose.stays noInputs) cs

/-- To close descriptors, in order. -/
def closes (l : Fds n) : List (FdCall n) := l.map fun x => .closed x.1 x.2

/-! ### Clients -/

/-- What the server does to descriptors. -/
def serverCalls (l : List ServerEffect) : List (FdCall n) :=
  l.filterMap fun
    | .accepted client => some (.opened client .client)
    | .closed client => some (.closed client .client)
    | _ => none

@[simp] theorem serverCalls_append (l₁ l₂ : List ServerEffect) :
    serverCalls (n := n) (l₁ ++ l₂) = serverCalls l₁ ++ serverCalls l₂ := List.filterMap_append

/-- The clients of a server. -/
def clientsOf (s : KbdServer) : Fds n := (Buffer.slice s.clients 0 s.nclients).map (·, .client)

theorem serverCalls_spares (noInputs : Bool) (l : List ServerEffect) :
    Spares (Purpose.stays (n := n) noInputs) (serverCalls l) := by
  intro fd p hmem
  obtain ⟨x, -, hx⟩ := List.mem_filterMap.mp hmem
  cases x with
  | closed client =>
    cases hx
    rfl
  | _ => simp at hx

section Clients

variable {log l : List ServerEffect} {s s' : KbdServer}

theorem clientsOf_zero (h : s.nclients = 0) : clientsOf (n := n) s = [] := by
  unfold clientsOf
  rw [h]
  rfl

theorem clientsOf_one (h : s.nclients = 1) :
    clientsOf (n := n) s = [(s.clients 0, .client)] := by
  unfold clientsOf
  rw [h]
  rfl

/-- The client is closed. -/
theorem serverCloseClient_trades (hn : s.nclients = 1) :
    Trades (serverCalls (n := n) (serverCloseClient s 0).2) (clientsOf s)
      (clientsOf (serverCloseClient s 0).1) := by
  have hnone : (serverCloseClient s 0).1.nclients = 0 := by simp [serverCloseClient, hn]
  rw [clientsOf_one hn, clientsOf_zero hnone]
  exact Trades.closed (s.clients 0) Purpose.client []

theorem writeActive_trades {o : Answers} (h : ClientTable log s)
    (hstep : writeActive o s = (s', l)) :
    Trades (serverCalls (n := n) l) (clientsOf s) (clientsOf s') := by
  unfold writeActive at hstep
  split at hstep
  · rename_i hready
    split at hstep
    · -- the write failed
      have hn : s.nclients = 1 := by
        cases h.slots with
        | empty hn _ _ => omega
        | one hn _ => exact hn
      rw [h.active] at hstep
      have hclose := serverCloseClient_trades (n := n) hn
      rwa [hstep] at hclose
    · cases hstep
      exact .nil _
  · cases hstep
    exact .nil _

theorem checkClients_trades {o : Answers} (h : ClientTable log s)
    (hstep : checkClients o s.nclients 0 s = (s', l)) :
    Trades (serverCalls (n := n) l) (clientsOf s) (clientsOf s') := by
  cases h.slots with
  | empty hn _ _ =>
    rw [hn] at hstep
    cases hstep
    exact .nil _
  | one hn _ =>
    rw [hn] at hstep
    unfold checkClients at hstep
    split at hstep
    · split at hstep
      · cases hstep
        exact .nil _
      · cases hstep
        exact serverCloseClient_trades hn
    · cases hstep
      exact .nil _

theorem handleAccept_trades {o : Answers} (h : ClientTable log s)
    (hstep : handleAccept o s = .ok (s', l)) :
    Trades (serverCalls (n := n) l) (clientsOf s) (clientsOf s') := by
  unfold handleAccept at hstep
  split at hstep
  · split at hstep
    · exact absurd hstep (by simp)
    simp only at hstep
    cases h.slots with
    | empty hn _ _ =>
      rw [hn, if_neg (by decide), if_neg (by decide)] at hstep
      cases hstep
      rw [clientsOf_zero hn, clientsOf_one rfl]
      exact Trades.opened _ Purpose.client []
    | one hn _ =>
      -- the newcomer is accepted first, and the other client closed then
      rw [hn, if_neg (by decide), if_pos (by decide)] at hstep
      cases hstep
      rw [clientsOf_one hn, clientsOf_one rfl]
      have hopened := Trades.opened o.accept.toNat Purpose.client (clientsOf (n := n) s)
      have hclosed := Trades.closed (s.clients 0) (Purpose.client (n := n))
        [(o.accept.toNat, Purpose.client)]
      rw [clientsOf_one hn] at hopened
      exact hopened.append (hclosed.perm (List.Perm.swap _ _ _) (List.Perm.refl _))
  · cases hstep
    exact .nil _

/-- **A call of the server** closes the clients that it gives up, and no other descriptor. -/
theorem handleStep_trades {i : ServerInput} (h : ClientTable log s)
    (hstep : handleStep i s = .ok (s', l)) :
    Trades (serverCalls (n := n) l) (clientsOf s) (clientsOf s') := by
  cases i with
  | event ev =>
    have hstep : (serverSendEvent ev s).2 = (s', l) := Except.ok.inj hstep
    unfold serverSendEvent at hstep
    split at hstep
    · cases hstep
      exact .nil _
    · simp only at hstep
      split at hstep
      · cases hstep
        exact .nil _
      · cases hstep
        exact .nil _
  | select o =>
    have hstep : (if o.send ≤ s.fcLen then serverHandleSelect o s else .error .notPromised)
        = .ok (s', l) := hstep
    split at hstep
    · obtain ⟨s₁, l₁, s₂, l₂, l₃, hwrite, hcheck, haccept, rfl⟩ := serverHandleSelect_ok hstep
      have h₁ := h.write hwrite
      have h₂ := h₁.check hcheck
      rw [serverCalls_append, serverCalls_append]
      exact ((writeActive_trades h hwrite).append (checkClients_trades h₁ hcheck)).append
        (handleAccept_trades h₂ haccept)
    · exact absurd hstep (by simp)

end Clients

/-! ### Devices -/

/-- What one device, or the loss of one, does to descriptors. -/
def deviceCall : HotplugEffect n → List (FdCall n)
  | .tried _ _ (.ignored fd) => [.opened fd (.input none)]
  | .tried _ _ (.busy fd) => [.opened fd .refused, .closed fd .refused]
  | .tried _ _ (.grabbed kb) => [.opened kb.fd (.input (some kb.grab))]
  | .closed kb => [.closed kb.fd (.input (some kb.grab))]
  | _ => []

def deviceCalls (l : List (HotplugEffect n)) : List (FdCall n) := l.flatMap deviceCall

@[simp] theorem deviceCalls_append (l₁ l₂ : List (HotplugEffect n)) :
    deviceCalls (l₁ ++ l₂) = deviceCalls l₁ ++ deviceCalls l₂ := List.flatMap_append

theorem deviceCalls_spares (noInputs : Bool) (l : List (HotplugEffect n)) :
    Spares (Purpose.stays noInputs) (deviceCalls l) := by
  intro fd p hmem
  obtain ⟨x, -, hx⟩ := List.mem_flatMap.mp hmem
  unfold deviceCall at hx
  split at hx
  · simp at hx
  · obtain ⟨-, rfl⟩ : fd = _ ∧ p = .refused := by simpa using hx
    rfl
  · simp at hx
  · obtain ⟨-, rfl⟩ : fd = _ ∧ p = .input _ := by simpa using hx
    rfl
  · exact absurd hx List.not_mem_nil

/-- A descriptor of a device in the table. -/
def Devices.Descriptor.entry (d : Descriptor n) : Fd × Purpose n := (d.fd, .input d.grab)

/-- The descriptors of devices. -/
def Devices.Hotplug.entries (s : Hotplug n) : Fds n := s.fds.map Descriptor.entry

section Input

variable {grabs : Fin n → Grab} {s s' : Hotplug n}

theorem tryStep_trades {x : List UInt8 × OpenAnswer} {l : List (List UInt8 × Outcome n)}
    (hstep : tryStep grabs x s = .ok (s', l)) (watched : Bool) :
    Trades (deviceCalls (l.map fun x => .tried watched x.1 x.2)) s.entries s'.entries := by
  have hpush : ∀ d : Descriptor n, Trades [.opened d.fd (.input d.grab)] s.entries
      ((s.fds ++ [d]).map Descriptor.entry) := by
    intro d
    refine (Trades.opened d.fd (.input d.grab) s.entries).perm (List.Perm.refl _) ?_
    rw [List.map_append]
    exact (List.perm_append_singleton d.entry s.entries).symm
  rcases tryStep_cases hstep with ⟨outcome, rfl, rfl, hignored, hgrabbed⟩ |
    ⟨d, _, _, _, _, hgrab, rfl, rfl⟩ | ⟨d, kb, _, hkb, _, _, _, rfl, rfl⟩
  · cases outcome with
    | noRoom => exact .nil _
    | notOpened => exact .nil _
    | ignored fd => exact absurd rfl (hignored fd)
    | busy fd =>
      exact (Trades.opened fd .refused s'.entries).append (Trades.closed fd .refused s'.entries)
    | grabbed kb => exact absurd rfl (hgrabbed kb)
  · have hopened := hpush d
    rw [hgrab] at hopened
    exact hopened
  · obtain ⟨g, hg, rfl⟩ : ∃ g, d.grab = some g ∧ Keyboard.mk d.fd g = kb := by
      simpa [Descriptor.keyboard] using hkb
    have hopened := hpush d
    rw [hg] at hopened
    exact hopened

theorem tryStep_run_trades {devices : List (List UInt8 × OpenAnswer)}
    {l : List (List UInt8 × Outcome n)} (hrun : Steps.run (tryStep grabs) devices s = .ok (s', l))
    (watched : Bool) :
    Trades (deviceCalls (l.map fun x => .tried watched x.1 x.2)) s.entries s'.entries := by
  refine Steps.run_inv (fun l s' => Trades (deviceCalls (l.map fun x => .tried watched x.1 x.2))
    s.entries (Hotplug.entries s')) ?_ (.nil _) hrun
  intro x _ l s₁ s₂ l₂ hl hstep
  rw [List.map_append, deviceCalls_append]
  exact hl.append (tryStep_trades hstep watched)

/-- The descriptor of a keyboard is one of a device that was grabbed, and the only one with this
    number. -/
theorem entries_keyboard {log : List (HotplugEffect n)} (h : Devices.Accounted grabs log s)
    {i : Nat} (hi : i < s.nKbs) :
    s.entries.Perm (((s.kbs i).fd, .input (some (s.kbs i).grab)) ::
      (s.fds.filter fun d => d.fd ≠ (s.kbs i).fd).map Descriptor.entry) := by
  have hmem : s.kbs i ∈ s.fds.filterMap Descriptor.keyboard := by
    rw [← h.keyboards]
    refine List.mem_of_getElem? (i := i) ?_
    unfold Inputs.connected
    rw [Buffer.getElem?_slice, if_pos hi, Nat.zero_add]
  obtain ⟨d, hd, hkb⟩ := List.mem_filterMap.mp hmem
  obtain ⟨g, hg, hsame⟩ : ∃ g, d.grab = some g ∧ Keyboard.mk d.fd g = s.kbs i := by
    simpa [Descriptor.keyboard] using hkb
  obtain ⟨j, hj, hat⟩ := List.getElem_of_mem hd
  have herase := eraseIdx_eq_filter h.distinct ((List.getElem?_eq_getElem hj).trans
    (congrArg some hat))
  have hperm := List.getElem_cons_eraseIdx_perm hj
  rw [hat, herase] at hperm
  have hentry : d.entry = ((s.kbs i).fd, .input (some (s.kbs i).grab)) := by
    rw [← hsame, Descriptor.entry, hg]
  have hfd : d.fd = (s.kbs i).fd := by rw [← hsame]
  rw [← hentry, ← hfd, ← List.map_cons]
  exact hperm.symm.map _

/-- **A step** of the devices opens those that it tries and closes those that it loses. -/
theorem hotplugStep_trades {log : List (HotplugEffect n)} (h : Devices.Accounted grabs log s)
    {i : HotplugInput n} {l : List (HotplugEffect n)}
    (hstep : hotplugStep grabs i s = .ok (s', l)) :
    Trades (deviceCalls l) s.entries s'.entries := by
  cases hotplugStep_ok hstep with
  | quiet _ hfds _ =>
    unfold Hotplug.entries
    rw [hfds]
    exact .nil _
  | appeared _ hfds _ =>
    unfold Hotplug.entries
    rw [hfds]
    exact .nil _
  | entry htry => exact tryStep_trades htry false
  | inotify _ hrun hs' =>
    subst hs'
    exact tryStep_run_trades hrun true
  | @close i hi hs' =>
    subst hs'
    exact (Trades.closed (s.kbs i).fd (Purpose.input (some (s.kbs i).grab)) _).perm
      (entries_keyboard h hi).symm (List.Perm.refl _)

end Input

/-! ### Sockets -/

/-- What the system calls of `gai_open` return for one address. -/
structure AddressAnswers where
  socket : Int
  bind : Int
  setsockopt : Int
  listen : Int
  connect : Int
  /-- -1 can neither be bound nor connected -/
  noSocket : socket < 0 → bind ≠ 0 ∧ connect ≠ 0

/-- One of the calls after `socket` fails. -/
def AddressAnswers.fails (a : AddressAnswers) (serverSide : Bool) : Bool :=
  if serverSide then a.bind != 0 || a.setsockopt != 0 || a.listen != 0 else a.connect != 0

/-- What `open` or `socket` returned, if it is a descriptor. -/
def opens (fd : Int) (p : Purpose n) : Fds n := if fd < 0 then [] else [(fd.toNat, p)]

/-- To open descriptors, in order. -/
def openings (l : Fds n) : List (FdCall n) := l.map fun x => .opened x.1 x.2

/-- The loop of `gai_open` over the addresses. -/
def gaiAttempts (serverSide : Bool) (p : Purpose n) : List AddressAnswers → Int × List (FdCall n)
  | [] => (-1, [])
  | a :: rest =>
    -- this is meant for what `socket` returns when it fails, which is -1
    if a.socket < -1 then gaiAttempts serverSide p rest
    else if a.fails serverSide then
      -- `close(-1)` does nothing
      let tried := openings (opens a.socket p) ++ closes (opens a.socket p)
      let (fd, cs) := gaiAttempts serverSide p rest
      (fd, tried ++ cs)
    else (a.socket, openings (opens a.socket p))

/-- `gai_open`, with the addresses if `getaddrinfo` finds some. -/
def gaiOpen (serverSide : Bool) (p : Purpose n) : Option (List AddressAnswers) →
    Int × List (FdCall n)
  | none => (-1, [])
  | some addresses => gaiAttempts serverSide p addresses

/-- What `open(lock, …)`, `fcntl(*lockfd, F_SETLK, …)`, `socket` and `bind` return. -/
structure UnixAnswers where
  lockfd : Int
  setLock : Int
  sockfd : Int
  bind : Int

/-- `unix_socket_open` -/
def unixSocketOpen (sock : List UInt8) (a : UnixAnswers) : Int × List (FdCall n) :=
  if sock.length ≥ unixPathMax then (-1, [])
  else if a.lockfd < 0 then (-1, [])
  else
    let lock := (a.lockfd.toNat, Purpose.lock)
    let listener := (a.sockfd.toNat, Purpose.listener)
    if a.setLock = -1 then (-1, openings [lock] ++ closes [lock])
    else if a.sockfd < 0 then (-1, openings [lock] ++ closes [lock])
    else if a.bind = -1 then (-1, openings [lock, listener] ++ closes [listener, lock])
    else (a.sockfd, openings [lock, listener])

/-- To open descriptors one after the other. -/
theorem Trades.openings (l a : Fds n) : Trades (openings l) a (l ++ a) := by
  induction l generalizing a with
  | nil => exact .nil a
  | cons x l ih =>
    refine ((Trades.opened x.1 x.2 a).append (ih (x :: a))).perm (List.Perm.refl _) ?_
    exact List.perm_middle

/-- What is opened and closed again is as if it had not been there. -/
theorem trades_attempt {l l' : Fds n} (h : l.Perm l') (a : Fds n) :
    Trades (openings l ++ closes l') a a :=
  (Trades.openings l a).append
    ((Trades.closeAll l' a).perm (h.symm.append_right a) (List.Perm.refl a))

theorem attempt_spares {keep : Purpose n → Bool} (l : Fds n) {l' : Fds n}
    (h : ∀ x ∈ l', keep x.2 = false) : Spares keep (openings l ++ closes l') :=
  (Spares.opened l).append (Spares.closed h)

/-- What `open` or `socket` returned is open for this only. -/
theorem mem_opens {fd : Int} {p : Purpose n} {x : Fd × Purpose n} (h : x ∈ opens fd p) :
    x.2 = p := by
  unfold opens at h
  split at h
  · exact absurd h List.not_mem_nil
  · rw [List.mem_singleton.mp h]

/-- **`gai_open`** leaves the descriptor that it returns. -/
theorem gaiAttempts_trades (serverSide : Bool) (p : Purpose n) (addresses : List AddressAnswers)
    (a : Fds n) :
    Trades (gaiAttempts serverSide p addresses).2 a
      (opens (gaiAttempts serverSide p addresses).1 p ++ a) := by
  induction addresses with
  | nil => exact .nil a
  | cons x rest ih =>
    unfold gaiAttempts
    by_cases hbelow : x.socket < -1
    · rw [if_pos hbelow]
      exact ih
    · rw [if_neg hbelow]
      by_cases hfails : x.fails serverSide = true
      · rw [if_pos hfails]
        exact (trades_attempt (List.Perm.refl _) a).append ih
      · rw [if_neg hfails]
        exact Trades.openings _ a

theorem gaiOpen_trades (serverSide : Bool) (p : Purpose n) (ai : Option (List AddressAnswers))
    (a : Fds n) :
    Trades (gaiOpen serverSide p ai).2 a (opens (gaiOpen serverSide p ai).1 p ++ a) := by
  cases ai with
  | none => exact .nil a
  | some addresses => exact gaiAttempts_trades serverSide p addresses a

theorem gaiOpen_spares {keep : Purpose n → Bool} (serverSide : Bool) {p : Purpose n}
    (hp : keep p = false) (ai : Option (List AddressAnswers)) :
    Spares keep (gaiOpen serverSide p ai).2 := by
  have hattempts : ∀ addresses, Spares keep (gaiAttempts serverSide p addresses).2 := by
    intro addresses
    induction addresses with
    | nil => exact .nil
    | cons x rest ih =>
      unfold gaiAttempts
      split
      · exact ih
      · split
        · refine Spares.append (attempt_spares _ fun y hy => ?_) ih
          rw [mem_opens hy]
          exact hp
        · exact .opened _
  cases ai with
  | none => exact .nil
  | some addresses => exact hattempts addresses

/-- The socket that is returned is that of an address for which nothing failed, and there is none
    only if something failed for every address. -/
theorem gaiAttempts_fst (serverSide : Bool) (p : Purpose n) (addresses : List AddressAnswers) :
    (∃ x ∈ addresses, (gaiAttempts serverSide p addresses).1 = x.socket ∧ 0 ≤ x.socket ∧
        x.fails serverSide = false) ∨
      (gaiAttempts serverSide p addresses).1 = -1 ∧ ∀ x ∈ addresses, 0 ≤ x.socket →
        x.fails serverSide = true := by
  induction addresses with
  | nil => exact .inr ⟨rfl, fun x hx => absurd hx List.not_mem_nil⟩
  | cons x rest ih =>
    have hlater : ∀ fd, (0 ≤ x.socket → x.fails serverSide = true) →
        fd = (gaiAttempts serverSide p rest).1 →
        (∃ y ∈ x :: rest, fd = y.socket ∧ 0 ≤ y.socket ∧ y.fails serverSide = false) ∨
          fd = -1 ∧ ∀ y ∈ x :: rest, 0 ≤ y.socket → y.fails serverSide = true := by
      rintro fd hx rfl
      rcases ih with ⟨y, hy, hfd, hok⟩ | ⟨hfd, hall⟩
      · exact .inl ⟨y, List.mem_cons_of_mem _ hy, hfd, hok⟩
      · refine .inr ⟨hfd, fun y hy => ?_⟩
        rcases List.mem_cons.mp hy with rfl | hy
        · exact hx
        · exact hall y hy
    unfold gaiAttempts
    by_cases hbelow : x.socket < -1
    · rw [if_pos hbelow]
      exact hlater _ (fun hsocket => absurd hbelow (by omega)) rfl
    · rw [if_neg hbelow]
      cases hfails : x.fails serverSide with
      | true => exact hlater _ (fun _ => hfails) rfl
      | false =>
        have hsocket : 0 ≤ x.socket := by
          by_contra hneg
          -- `bind` and `connect` would have failed
          obtain ⟨hbind, hconnect⟩ := x.noSocket (by omega)
          unfold AddressAnswers.fails at hfails
          cases serverSide <;> simp_all
        exact .inl ⟨x, List.mem_cons_self, rfl, hsocket, hfails⟩

/-- **`unix_socket_open`** leaves the socket and the lock file if it returns the socket. -/
theorem unixSocketOpen_trades (sock : List UInt8) (x : UnixAnswers) (a : Fds n) :
    (unixSocketOpen (n := n) sock x).1 = -1 ∧ Trades (unixSocketOpen sock x).2 a a ∨
      (unixSocketOpen (n := n) sock x).1 = x.sockfd ∧ 0 ≤ x.sockfd ∧
        Trades (unixSocketOpen sock x).2 a
          ((x.lockfd.toNat, .lock) :: (x.sockfd.toNat, .listener) :: a) := by
  unfold unixSocketOpen
  split
  · exact .inl ⟨rfl, .nil a⟩
  · split
    · exact .inl ⟨rfl, .nil a⟩
    · simp only
      split
      · exact .inl ⟨rfl, trades_attempt (List.Perm.refl _) a⟩
      · split
        · exact .inl ⟨rfl, trades_attempt (List.Perm.refl _) a⟩
        · rename_i hsocket
          split
          · exact .inl ⟨rfl, trades_attempt (List.Perm.swap _ _ _) a⟩
          · exact .inr ⟨rfl, by omega, Trades.openings _ a⟩

theorem unixSocketOpen_spares {keep : Purpose n → Bool} (hlock : keep .lock = false)
    (hlistener : keep .listener = false) (sock : List UInt8) (x : UnixAnswers) :
    Spares keep (unixSocketOpen sock x).2 := by
  unfold unixSocketOpen
  split
  · exact .nil
  · split
    · exact .nil
    · simp only
      split
      · exact attempt_spares _ (by simp [hlock])
      · split
        · exact attempt_spares _ (by simp [hlock])
        · split
          · exact attempt_spares _ (by simp [hlock, hlistener])
          · exact .opened _

/-! ### `serve_loop` -/

/-- What happens while the loop runs. -/
inductive FdInput (n : Nat) where
  /-- a call of `app.send` or of `app.handle_select` -/
  | app (i : ServerInput)
  | device (i : HotplugInput n)

inductive FdStop where
  | app (e : ServerAbort)
  | device (e : NotPromised)
deriving DecidableEq

/-- One of these; `app` does nothing to descriptors unless it is the server. -/
def fdStep (grabs : Fin n → Grab) (served : Bool) (i : FdInput n) (s : KbdServer × Hotplug n) :
    Except FdStop ((KbdServer × Hotplug n) × List (FdCall n)) :=
  match i with
  | .app i =>
    if served then do
      let (server, l) ← (handleStep i s.1).mapError .app
      .ok ((server, s.2), serverCalls l)
    else .ok (s, [])
  | .device i => do
    let (d, l) ← (hotplugStep grabs i s.2).mapError .device
    .ok ((s.1, d), deviceCalls l)

/-- The descriptors in the array of keyboards. -/
def Devices.Hotplug.keyboardFds (s : Hotplug n) : Fds n :=
  s.connected.map fun kb => (kb.fd, .input (some kb.grab))

/-- What `serve_loop` meets: the array before, the files in `/dev/input`, what happens until
    `open_inotify` has returned `inot`, and what happens then. -/
structure ServeFds (n : Nat) where
  kbs : Nat → Keyboard n
  nodes : List UInt8 → Option Device
  listing : List (HotplugInput n)
  inot : Fd
  loop : List (FdInput n)

/-- `serve_loop`: what became of the server, whether there were no keyboards, and the calls. -/
def serveLoopFds (grabs : Fin n → Grab) (served : Bool) (x : ServeFds n) (server : KbdServer) :
    Except FdStop (KbdServer × Bool × List (FdCall n)) := do
  let (d, l) ← (runHotplug grabs (hotplugInit x.kbs x.nodes) x.listing).mapError .device
  let (d, _) ← (hotplugStep grabs .watch d).mapError .device
  let opened := deviceCalls l ++ openings [(x.inot, .inotify)]
  -- couldn't open any inputs
  if d.nKbs = 0 then .ok (server, true, opened)
  else do
    let (s, l') ← Steps.run (fdStep grabs served) x.loop (server, d)
    .ok (s.1, false, opened ++ l' ++ closes (s.2.keyboardFds ++ [(x.inot, .inotify)]))

section ServeLoop

variable {grabs : Fin n → Grab}

/-- What every step keeps. -/
def FdsKept (grabs : Fin n → Grab) (s : KbdServer × Hotplug n) : Prop :=
  (∃ log, ClientTable log s.1) ∧ ∃ log, Devices.Accounted grabs log s.2

/-- **Step.** -/
theorem fdStep_trades {served : Bool} (i : FdInput n) (s s' : KbdServer × Hotplug n)
    (l : List (FdCall n)) (hs : FdsKept grabs s) (h : fdStep grabs served i s = .ok (s', l)) :
    FdsKept grabs s' ∧
      Trades l (clientsOf s.1 ++ s.2.entries) (clientsOf s'.1 ++ s'.2.entries) := by
  obtain ⟨⟨slog, hclients⟩, hlog, hdevices⟩ := hs
  unfold fdStep at h
  cases i with
  | app i =>
    cases served with
    | true =>
      obtain ⟨⟨server, l₁⟩, hstep, h⟩ := Steps.bind_eq_ok.mp h
      rw [Steps.mapError_eq_ok] at hstep
      cases h
      exact ⟨⟨⟨slog ++ l₁, hclients.step hstep⟩, hlog, hdevices⟩,
        (handleStep_trades hclients hstep).frame s.2.entries⟩
    | false =>
      cases h
      exact ⟨⟨⟨slog, hclients⟩, hlog, hdevices⟩, .nil _⟩
  | device i =>
    obtain ⟨⟨d, l₁⟩, hstep, h⟩ := Steps.bind_eq_ok.mp h
    rw [Steps.mapError_eq_ok] at hstep
    cases h
    exact ⟨⟨⟨slog, hclients⟩, hlog ++ l₁, hdevices.step hstep⟩,
      ((hotplugStep_trades hdevices hstep).frame (clientsOf s.1)).perm
        List.perm_append_comm List.perm_append_comm⟩

/-- What is open for devices are the keyboards and the devices that are ignored. -/
theorem entries_perm {log : List (HotplugEffect n)} {s : Hotplug n}
    (h : Devices.Accounted grabs log s) :
    s.entries.Perm (s.keyboardFds ++
      (s.fds.filter fun d => !d.grab.isSome).map Descriptor.entry) := by
  have hkeyboards : s.keyboardFds
      = (s.fds.filter fun d => d.grab.isSome).map Descriptor.entry := by
    unfold Hotplug.keyboardFds
    rw [h.keyboards, List.map_filterMap, ← List.filterMap_eq_map, List.filterMap_filter]
    apply List.filterMap_congr
    intro d _
    cases hgrab : d.grab <;> simp [Descriptor.keyboard, Descriptor.entry, hgrab]
  rw [hkeyboards, ← List.map_append]
  exact (List.filter_append_perm _ s.fds).symm.map _

/-- Until `open_inotify`. -/
theorem runHotplug_trades {kbs : Nat → Keyboard n} {nodes : List UInt8 → Option Device}
    {inputs : List (HotplugInput n)} {d : Hotplug n} {l : List (HotplugEffect n)}
    (h : runHotplug grabs (hotplugInit kbs nodes) inputs = .ok (d, l)) :
    Devices.Accounted grabs l d ∧ Trades (deviceCalls l) [] d.entries := by
  refine Steps.run_inv (fun l (d : Hotplug n) =>
    Devices.Accounted grabs l d ∧ Trades (deviceCalls l) [] d.entries) ?_
    ⟨accounted_init grabs kbs nodes, .nil _⟩ h
  rintro i _ l s₁ s₂ l₂ ⟨hs₁, hl⟩ hstep
  refine ⟨hs₁.step hstep, ?_⟩
  rw [deviceCalls_append]
  exact hl.append (hotplugStep_trades hs₁ hstep)

/-- **`serve_loop`** leaves the clients to its caller. -/
theorem serveLoopFds_trades {served noInputs : Bool} {x : ServeFds n} {server server' : KbdServer}
    {cs : List (FdCall n)} (hserver : ∃ log, ClientTable log server)
    (h : serveLoopFds grabs served x server = .ok (server', noInputs, cs)) :
    ∃ left, Trades cs (clientsOf server) (clientsOf server' ++ left) ∧
      ∀ y ∈ left, Purpose.stays noInputs y.2 = true := by
  unfold serveLoopFds at h
  obtain ⟨⟨d, l⟩, hlist, h⟩ := Steps.bind_eq_ok.mp h
  obtain ⟨⟨d₁, l₁⟩, hwatch, h⟩ := Steps.bind_eq_ok.mp h
  rw [Steps.mapError_eq_ok] at hlist hwatch
  obtain ⟨hd, hlisted⟩ := runHotplug_trades hlist
  have hd₁ := hd.step hwatch
  have hentries : d₁.entries = d.entries := by
    unfold hotplugStep at hwatch
    simp only at hwatch
    split at hwatch
    · exact absurd hwatch (by simp)
    · cases hwatch
      rfl
  have hopened : Trades (deviceCalls l ++ openings [(x.inot, .inotify)]) (clientsOf server)
      ((x.inot, .inotify) :: (clientsOf server ++ d₁.entries)) := by
    have hinotify := Trades.openings [(x.inot, .inotify)] (d.entries ++ clientsOf server)
    rw [← hentries] at hinotify hlisted
    exact ((hlisted.frame (clientsOf server)).append hinotify).perm (List.Perm.refl _)
      (List.perm_append_comm.append_left [(x.inot, Purpose.inotify)])
  -- what is ignored stays open
  have hignored : ∀ (s : Hotplug n) (noInputs : Bool),
      ∀ y ∈ (s.fds.filter fun d => !d.grab.isSome).map Descriptor.entry,
        Purpose.stays noInputs y.2 = true := by
    intro s noInputs y hy
    obtain ⟨d, hmem, rfl⟩ := List.mem_map.mp hy
    have hnone : d.grab = none := by simpa using (List.mem_filter.mp hmem).2
    show Purpose.stays noInputs (.input d.grab) = true
    rw [hnone]
    rfl
  simp only at h
  split at h
  · rename_i hnone
    cases h
    have hperm := entries_perm hd₁
    have hempty : d₁.keyboardFds = [] := by
      unfold Hotplug.keyboardFds Inputs.connected
      rw [hnone]
      rfl
    rw [hempty, List.nil_append] at hperm
    refine ⟨(x.inot, .inotify) :: (d₁.fds.filter fun d => !d.grab.isSome).map Descriptor.entry,
      ?_, ?_⟩
    · refine hopened.perm (List.Perm.refl _) ?_
      exact ((hperm.append_left _).cons _).trans List.perm_middle.symm
    · intro y hy
      rcases List.mem_cons.mp hy with rfl | hy
      · rfl
      · exact hignored d₁ true y hy
  · obtain ⟨⟨s, l'⟩, hrun, h⟩ := Steps.bind_eq_ok.mp h
    cases h
    obtain ⟨⟨_, hlog, hdevices⟩, hloop⟩ :=
      Trades.run fdStep_trades ⟨hserver, l ++ l₁, hd₁⟩ hrun
    refine ⟨(s.2.fds.filter fun d => !d.grab.isSome).map Descriptor.entry, ?_,
      hignored s.2 false⟩
    have hlooped := hopened.append ((hloop.frame [(x.inot, .inotify)]).perm
      List.perm_append_comm (List.Perm.refl _))
    refine hlooped.append ((Trades.closeAll _ _).perm ?_ (List.Perm.refl _))
    have hentries := Multiset.coe_eq_coe.mpr (entries_perm hdevices)
    rw [← Multiset.coe_eq_coe]
    simp only [← Multiset.coe_add] at hentries ⊢
    rw [hentries]
    abel

/-- It closes nothing that stays. -/
theorem serveLoopFds_spares {served noInputs : Bool} {x : ServeFds n} {server server' : KbdServer}
    {cs : List (FdCall n)} (h : serveLoopFds grabs served x server = .ok (server', noInputs, cs)) :
    Spares (Purpose.stays noInputs) cs := by
  unfold serveLoopFds at h
  obtain ⟨⟨d, l⟩, _, h⟩ := Steps.bind_eq_ok.mp h
  obtain ⟨⟨d₁, l₁⟩, _, h⟩ := Steps.bind_eq_ok.mp h
  have hopened : ∀ noInputs : Bool, Spares (Purpose.stays noInputs)
      (deviceCalls l ++ openings [(x.inot, .inotify)]) :=
    fun noInputs => (deviceCalls_spares noInputs l).append (.opened _)
  simp only at h
  split at h
  · cases h
    exact hopened true
  · obtain ⟨⟨s, l'⟩, hrun, h⟩ := Steps.bind_eq_ok.mp h
    cases h
    have hloop : Spares (Purpose.stays false) l' := by
      refine Steps.run_inv (fun cs _ => Spares (Purpose.stays false) cs) ?_ .nil hrun
      intro i _ cs s₁ s₂ l₂ hcs hstep
      refine hcs.append ?_
      unfold fdStep at hstep
      cases i with
      | app i =>
        cases served with
        | true =>
          obtain ⟨⟨server₂, l₃⟩, _, hstep⟩ := Steps.bind_eq_ok.mp hstep
          cases hstep
          exact serverCalls_spares false l₃
        | false =>
          cases hstep
          exact .nil
      | device i =>
        obtain ⟨⟨d₂, l₃⟩, _, hstep⟩ := Steps.bind_eq_ok.mp hstep
        cases hstep
        exact deviceCalls_spares false l₃
    refine ((hopened false).append hloop).append (.closed fun y hy => ?_)
    rcases List.mem_append.mp hy with hy | hy
    · obtain ⟨kb, -, rfl⟩ := List.mem_map.mp hy
      rfl
    · rw [List.mem_singleton.mp hy]
      rfl

/-- Without a server there are no clients. -/
theorem serveLoopFds_local {noInputs : Bool} {x : ServeFds n} {server server' : KbdServer}
    {cs : List (FdCall n)}
    (h : serveLoopFds grabs false x server = .ok (server', noInputs, cs)) : server' = server := by
  unfold serveLoopFds at h
  obtain ⟨⟨d, l⟩, _, h⟩ := Steps.bind_eq_ok.mp h
  obtain ⟨⟨d₁, l₁⟩, _, h⟩ := Steps.bind_eq_ok.mp h
  simp only at h
  split at h
  · cases h
    rfl
  · obtain ⟨⟨s, l'⟩, hrun, h⟩ := Steps.bind_eq_ok.mp h
    cases h
    refine Steps.run_inv (fun _ (s : KbdServer × Hotplug n) => s.1 = server) ?_ rfl hrun
    intro i _ _ s₁ s₂ l₂ hs₁ hstep
    unfold fdStep at hstep
    cases i with
    | app i =>
      cases hstep
      exact hs₁
    | device i =>
      obtain ⟨⟨d₂, l₃⟩, _, hstep⟩ := Steps.bind_eq_ok.mp hstep
      cases hstep
      exact hs₁

end ServeLoop

/-! ### The commands -/

/-- `main_read` -/
def mainReadFds (out : Int) : List (FdCall n) :=
  openings (opens out .output) ++ closes (opens out .output)

/-- `main_connect` -/
def mainConnectFds (ai : Option (List AddressAnswers)) (out : Int) : List (FdCall n) :=
  let (sock, cs) := gaiOpen false .connection ai
  if sock < 0 then cs else cs ++ mainReadFds out ++ closes (opens sock .connection)

/-- `main_local` -/
def mainLocalFds (grabs : Fin n → Grab) (out : Int) (x : ServeFds n) :
    Except FdStop (Bool × List (FdCall n)) :=
  if out < 0 then .ok (false, [])
  else do
    let (_, noInputs, cs) ← serveLoopFds grabs false x (serverInit 0)
    .ok (noInputs, openings (opens out .output) ++ cs ++ closes (opens out .output))

/-- `main_serve_tcp` -/
def mainServeTcpFds (grabs : Fin n → Grab) (ai : Option (List AddressAnswers)) (x : ServeFds n) :
    Except FdStop (Bool × List (FdCall n)) :=
  let (fd, cs) := gaiOpen true .listener ai
  if fd < 0 then .ok (false, cs)
  else do
    let (server, noInputs, cs') ← serveLoopFds grabs true x (serverInit fd.toNat)
    .ok (noInputs, cs ++ cs' ++ closes (clientsOf server ++ opens fd .listener))

/-- `main_serve_unix`, with what `set_file_perms` and `listen` return. -/
def mainServeUnixFds (grabs : Fin n → Grab) (sock : List UInt8) (a : UnixAnswers)
    (perms listen : Int) (x : ServeFds n) : Except FdStop (Bool × List (FdCall n)) :=
  let (sockfd, cs) := unixSocketOpen sock a
  if sockfd < 0 then .ok (false, cs)
  else
    let sockets := [(sockfd.toNat, .listener), (a.lockfd.toNat, .lock)]
    if perms ≠ 0 ∨ listen ≠ 0 then .ok (false, cs ++ closes sockets)
    else do
      let (server, noInputs, cs') ← serveLoopFds grabs true x (serverInit sockfd.toNat)
      .ok (noInputs, cs ++ cs' ++ closes (clientsOf server ++ sockets))

/-- A command, with what it is told. -/
inductive FdRun (n : Nat) where
  | mainLocal (out : Int) (x : ServeFds n)
  | mainServeUnix (sock : List UInt8) (a : UnixAnswers) (perms listen : Int) (x : ServeFds n)
  | mainServeTcp (ai : Option (List AddressAnswers)) (x : ServeFds n)
  | mainRead (out : Int)
  | mainConnect (ai : Option (List AddressAnswers)) (out : Int)

/-- Whether `serve_loop` found no keyboards, and the calls. -/
def FdRun.calls (grabs : Fin n → Grab) : FdRun n → Except FdStop (Bool × List (FdCall n))
  | .mainLocal out x => mainLocalFds grabs out x
  | .mainServeUnix sock a perms listen x => mainServeUnixFds grabs sock a perms listen x
  | .mainServeTcp ai x => mainServeTcpFds grabs ai x
  | .mainRead out => .ok (false, mainReadFds out)
  | .mainConnect ai out => .ok (false, mainConnectFds ai out)

section Commands

variable {grabs : Fin n → Grab} {x : ServeFds n} {noInputs : Bool} {cs : List (FdCall n)}

/-- The calls need nothing to be open; they leave nothing that does not stay, and close nothing
    that does. -/
structure Owned (noInputs : Bool) (cs : List (FdCall n)) : Prop where
  trades : ∃ left, Trades cs [] left ∧ ∀ y ∈ left, Purpose.stays noInputs y.2 = true
  spares : Spares (Purpose.stays noInputs) cs

/-- Nothing is left. -/
theorem Owned.of_nil (h : Trades cs [] []) (hspares : Spares (Purpose.stays noInputs) cs) :
    Owned noInputs cs :=
  ⟨⟨[], h, fun _ hy => absurd hy List.not_mem_nil⟩, hspares⟩

theorem clientsOf_spares (server : KbdServer) :
    ∀ y ∈ clientsOf (n := n) server, Purpose.stays noInputs y.2 = false := by
  intro y hy
  obtain ⟨client, -, rfl⟩ := List.mem_map.mp hy
  rfl

theorem opens_spares {fd : Int} {p : Purpose n} (hp : Purpose.stays noInputs p = false) :
    ∀ y ∈ opens fd p, Purpose.stays noInputs y.2 = false :=
  fun y hy => by rwa [mem_opens hy]

theorem mainReadFds_trades (out : Int) (a : Fds n) : Trades (mainReadFds out) a a :=
  trades_attempt (List.Perm.refl _) a

theorem mainReadFds_spares (out : Int) :
    Spares (Purpose.stays (n := n) noInputs) (mainReadFds out) :=
  attempt_spares _ (opens_spares rfl)

theorem mainConnectFds_owned (ai : Option (List AddressAnswers)) (out : Int) :
    Owned (n := n) noInputs (mainConnectFds ai out) := by
  have hopen := gaiOpen_trades false (Purpose.connection (n := n)) ai []
  have hspares : Spares (Purpose.stays (n := n) noInputs) (gaiOpen false .connection ai).2 :=
    gaiOpen_spares false rfl ai
  unfold mainConnectFds
  simp only
  split
  · rename_i hneg
    rw [opens, if_pos hneg] at hopen
    exact .of_nil hopen hspares
  · exact .of_nil ((hopen.append (mainReadFds_trades out _)).append (Trades.closeAll _ _))
      ((hspares.append (mainReadFds_spares out)).append (.closed (opens_spares rfl)))

/-- `serve_loop` between the opening and the closing of sockets or a device. -/
theorem serveLoopFds_between {served : Bool} {server server' : KbdServer} {sockets : Fds n}
    {before after : List (FdCall n)} (hserver : ∃ log, ClientTable log server)
    (hnone : clientsOf (n := n) server = []) (hbefore : Trades before [] sockets)
    (hafter : ∀ a, Trades after (clientsOf server' ++ (sockets ++ a)) a)
    (hkept : Spares (Purpose.stays noInputs) before)
    (hkept' : Spares (Purpose.stays noInputs) after)
    (h : serveLoopFds grabs served x server = .ok (server', noInputs, cs)) :
    Owned noInputs (before ++ cs ++ after) := by
  obtain ⟨left, hloop, hleft⟩ := serveLoopFds_trades hserver h
  rw [hnone] at hloop
  refine ⟨⟨left, (hbefore.append (hloop.frame sockets)).append ((hafter left).perm ?_
    (List.Perm.refl _)), hleft⟩, (hkept.append (serveLoopFds_spares h)).append hkept'⟩
  rw [List.append_assoc]
  exact List.perm_append_comm.append_left _

theorem mainLocalFds_owned {out : Int} (h : mainLocalFds grabs out x = .ok (noInputs, cs)) :
    Owned noInputs cs := by
  unfold mainLocalFds at h
  split at h
  · cases h
    exact .of_nil (.nil _) .nil
  · obtain ⟨⟨server, noInputs₁, cs₁⟩, hloop, h⟩ := Steps.bind_eq_ok.mp h
    cases h
    have hlocal := serveLoopFds_local hloop
    have hopened := Trades.openings (opens out (Purpose.output (n := n))) []
    rw [List.append_nil] at hopened
    refine serveLoopFds_between ⟨[], clientTable_init 0⟩ rfl hopened (fun a => ?_) (.opened _)
      (.closed (opens_spares rfl)) hloop
    rw [hlocal]
    exact Trades.closeAll _ a

theorem mainServeTcpFds_owned {ai : Option (List AddressAnswers)}
    (h : mainServeTcpFds grabs ai x = .ok (noInputs, cs)) : Owned noInputs cs := by
  have hopen := gaiOpen_trades true (Purpose.listener (n := n)) ai []
  rw [List.append_nil] at hopen
  have hspares : ∀ noInputs, Spares (Purpose.stays (n := n) noInputs)
      (gaiOpen true .listener ai).2 := fun _ => gaiOpen_spares true rfl ai
  unfold mainServeTcpFds at h
  simp only at h
  split at h
  · rename_i hneg
    cases h
    rw [opens, if_pos hneg] at hopen
    exact .of_nil hopen (hspares false)
  · obtain ⟨⟨server, noInputs₁, cs₁⟩, hloop, h⟩ := Steps.bind_eq_ok.mp h
    cases h
    refine serveLoopFds_between ⟨[], clientTable_init _⟩ rfl hopen (fun a => ?_) (hspares _)
      (.closed (List.forall_mem_append.mpr ⟨clientsOf_spares server, opens_spares rfl⟩)) hloop
    rw [← List.append_assoc]
    exact Trades.closeAll _ a

theorem mainServeUnixFds_owned {sock : List UInt8} {a : UnixAnswers} {perms listen : Int}
    (h : mainServeUnixFds grabs sock a perms listen x = .ok (noInputs, cs)) :
    Owned noInputs cs := by
  have hspares : ∀ noInputs, Spares (Purpose.stays (n := n) noInputs)
      (unixSocketOpen sock a).2 := fun _ => unixSocketOpen_spares rfl rfl sock a
  have hsockets : ∀ noInputs, ∀ y ∈ [(a.sockfd.toNat, Purpose.listener (n := n)),
      (a.lockfd.toNat, .lock)], Purpose.stays noInputs y.2 = false := by simp [Purpose.stays]
  unfold mainServeUnixFds at h
  simp only at h
  rcases unixSocketOpen_trades (n := n) sock a [] with ⟨hfd, hopen⟩ | ⟨hfd, hpos, hopen⟩
  · rw [if_pos (by omega)] at h
    cases h
    exact .of_nil hopen (hspares false)
  · rw [if_neg (by omega), hfd] at h
    have hopened := hopen.perm (List.Perm.refl _) (List.Perm.swap _ _ _)
    split at h
    · cases h
      have hclosed := Trades.closeAll
        [(a.sockfd.toNat, Purpose.listener (n := n)), (a.lockfd.toNat, Purpose.lock)] []
      exact .of_nil (hopened.append hclosed) ((hspares false).append (.closed (hsockets false)))
    · obtain ⟨⟨server, noInputs₁, cs₁⟩, hloop, h⟩ := Steps.bind_eq_ok.mp h
      cases h
      refine serveLoopFds_between ⟨[], clientTable_init _⟩ rfl hopened (fun b => ?_) (hspares _)
        (.closed (List.forall_mem_append.mpr ⟨clientsOf_spares server, hsockets _⟩)) hloop
      rw [← List.append_assoc]
      exact Trades.closeAll _ b

/-- **Descriptors.** Whatever the system calls of a command answer, and whatever devices and
    clients come and go: unless the kernel gives out a number that is in use, the command closes
    only what it has opened, for what it has opened it, and once.  At its end exactly the
    descriptors are open that were before, those of devices that it ignored, and that of inotify
    if there were no keyboards. -/
theorem descriptors_owned {r : FdRun n} (h : r.calls grabs = .ok (noInputs, cs)) {t : Fds n}
    (ht : (t.map Prod.fst).Nodup) :
    Handles.calls cs t = .error .reissued ∨
      ∃ t', Handles.calls cs t = .ok t' ∧ t'.Perm (leftOver noInputs cs ++ t) ∧
        (t'.map Prod.fst).Nodup := by
  have howned : Owned noInputs cs := by
    cases r with
    | mainLocal out x => exact mainLocalFds_owned h
    | mainServeUnix sock a perms listen x => exact mainServeUnixFds_owned h
    | mainServeTcp ai x => exact mainServeTcpFds_owned h
    | mainRead out =>
      cases h
      exact .of_nil (mainReadFds_trades out []) (mainReadFds_spares out)
    | mainConnect ai out =>
      cases h
      exact mainConnectFds_owned ai out
  obtain ⟨left, hcs, hleft⟩ := howned.trades
  rcases hcs.leaves hleft howned.spares t with hfault | ⟨t', hok, hperm⟩
  · exact .inl hfault
  · exact .inr ⟨t', hok, hperm, Handles.calls_nodup hok ht⟩

end Commands

/-- `sdiol serve-tcp`: the first address is in use; there is one keyboard and one device that is
    ignored; a client is kicked by another, the keyboard is lost, and a third client gets its
    number. -/
def numberReused : FdRun 2 :=
  .mainServeTcp (some [⟨3, -1, 0, 0, 0, by decide⟩, ⟨3, 0, 0, 0, 0, by decide⟩])
    { kbs := fun _ => ⟨0, Fin.last 1⟩
      nodes := fun _ => none
      listing := [.create (eventFile 0) ⟨0, some [75, 66]⟩ .queued,
        .entry (eventFile 0) ⟨4, [75, 66], 0⟩, .create (eventFile 1) ⟨1, some [77]⟩ .queued,
        .entry (eventFile 1) ⟨5, [77], 0⟩]
      inot := 6
      loop := [.app (connects 7), .app (connects 8), .device (.close 0), .app (connects 4)] }

/-- The descriptor of the device that is ignored is left. -/
theorem descriptors_owned_reused : ∃ cs t', numberReused.calls ignoresShort = .ok (false, cs) ∧
    Handles.calls cs [(0, .inherited)] = .ok t' ∧ leftOver false cs = [(5, .input none)] ∧
    t'.Perm [(5, .input none), (0, .inherited)] := by
  have hrun : (numberReused.calls ignoresShort).map (fun x => decide (x.1 = false ∧
      leftOver false x.2 = [(5, .input none)] ∧
      (Handles.calls x.2 [(0, .inherited)]).toOption.isSome)) = .ok true := by
    decide +kernel
  obtain ⟨⟨noInputs, cs⟩, hok, hshape⟩ := Steps.map_eq_ok hrun
  obtain ⟨rfl, hleft, hcalls⟩ : noInputs = false ∧ _ := of_decide_eq_true hshape
  rcases descriptors_owned hok (t := [(0, .inherited)]) (by decide) with hfault |
    ⟨t', ht', hperm, _⟩
  · rw [hfault] at hcalls
    exact absurd hcalls (by simp [Except.toOption])
  · rw [hleft] at hperm
    exact ⟨cs, t', hok, ht', hleft, hperm⟩

end Sdiol
