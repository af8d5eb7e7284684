import Sdiol.Wire
import Sdiol.Lib.Buffer
import Sdiol.Lib.Steps

namespace Sdiol

/-!
# The server

`server.c`, function by function, over `kbd_server_t`.  What the operating system answers in
one iteration of `serve_loop` is the input `Answers`; `Possible` is what `select` and `send`
promise about it: `select` reports only descriptors that `server_prep_select` asked for, and
`send` accepts at most what it is given.

As in the resolver, a function returns beside the new state the list of what it did.
-/

/-! ### State, answers and effects -/

/-- `fd_set`; `FD_ISSET(fd, set)` is `fd ∈ set`. -/
abbrev FdSet := List Fd

/-- `sizeof(s->clients) / sizeof(*s->clients)` -/
def maxClients : Nat := 8

/-- `sizeof(s->for_client)` -/
def forClientSize : Nat := 8192

/-- `kbd_server_t` -/
structure KbdServer where
  clients : Nat → Fd
  nclients : Nat
  activeClient : Nat
  forClient : Nat → UInt8
  fcLen : Nat
  acceptFd : Fd

/-- A server with no client yet. -/
def serverInit (acceptFd : Fd) : KbdServer := ⟨fun _ => 0, 0, 0, fun _ => 0, 0, acceptFd⟩

/-- What `select` leaves in the two sets, and what `send`, `read` and `accept` return. -/
structure Answers where
  rFds : FdSet
  wFds : FdSet
  send : Int
  read : Fd → Int
  accept : Int

/-- What a call does, in program order. -/
inductive ServerEffect where
  /-- the event was appended to `for_client` -/
  | queued (ev : InputEvent)
  /-- there was no client, or no room for the event -/
  | dropped (ev : InputEvent)
  /-- `send` accepted `len` bytes of `pending` for the client -/
  | sent (client : Fd) (pending : List UInt8) (len : Nat)
  | accepted (client : Fd)
  | closed (client : Fd)

/-- `perror("accept"); exit(7)`, and answers no operating system gives. -/
inductive ServerAbort where
  | accept
  | notPromised
deriving DecidableEq

/-! ### `server_send_event` -/

/-- The bytes still to be sent. -/
def KbdServer.pending (s : KbdServer) : List UInt8 := Buffer.slice s.forClient 0 s.fcLen

/-- `server_send_event`; the first component is what it returns. -/
def serverSendEvent (ev : InputEvent) (s : KbdServer) : Nat × KbdServer × List ServerEffect :=
  -- drop the event if we have no clients
  if s.nclients = 0 then (0, s, [.dropped ev])
  else
    let buffer := encode ev
    let len := buffer.length
    -- if there's not room to buffer the entire event, just drop it
    if s.fcLen + len > forClientSize then (0, s, [.dropped ev])
    else
      (len, { s with forClient := Buffer.copy s.forClient s.fcLen buffer
                     fcLen := s.fcLen + len }, [.queued ev])

/-! ### `server_prep_select` -/

/-- `server_prep_select`: the highest descriptor, and those to watch for reading and for
    writing. -/
def serverPrepSelect (s : KbdServer) : Int × FdSet × FdSet :=
  -- incoming connections, and broken connections
  let rFds := s.acceptFd :: Buffer.slice s.clients 0 s.nclients
  -- do we need to write to the active client?
  let wFds := if s.nclients > 0 ∧ s.fcLen > 0 then [s.clients s.activeClient] else []
  let maxFd := (rFds ++ wFds).foldl (fun (m : Int) fd => if (fd : Int) > m then fd else m) (-1)
  (maxFd, rFds, wFds)

/-! ### `server_handle_select` -/

/-- `server_close_client` -/
def serverCloseClient (s : KbdServer) (i : Nat) : KbdServer × List ServerEffect :=
  let nafter := maxClients - i - 1
  let clients := Buffer.move s.clients i (i + 1) nafter
  -- how to update active_client?
  let (activeClient, fcLen) :=
    if s.activeClient = i then (0, 0)
    else if s.activeClient > i then (s.activeClient - 1, s.fcLen)
    else (s.activeClient, s.fcLen)
  ({ s with clients, activeClient, fcLen, nclients := s.nclients - 1 }, [.closed (s.clients i)])

/-- The part of `server_handle_select` that writes to the active client. -/
def writeActive (o : Answers) (s : KbdServer) : KbdServer × List ServerEffect :=
  if s.nclients > 0 ∧ s.clients s.activeClient ∈ o.wFds then
    if o.send ≤ 0 then serverCloseClient s s.activeClient
    else ({ s with fcLen := s.fcLen - o.send.toNat },
      [.sent (s.clients s.activeClient) s.pending o.send.toNat])
  else (s, [])

/-- The loop over disconnected clients from index `i` on; the first argument is
    `s->nclients - i`, which every iteration lowers: it goes on to the next index or closes the
    client, which keeps the index. -/
def checkClients (o : Answers) : Nat → Nat → KbdServer → KbdServer × List ServerEffect
  | 0, _, s => (s, [])
  | left + 1, i, s =>
    if s.clients i ∈ o.rFds then
      -- we never actually expect to read from a client
      if o.read (s.clients i) > 1 then checkClients o left (i + 1) s
      else
        let (s, log) := serverCloseClient s i
        let (s, log') := checkClients o left i s
        (s, log ++ log')
    else checkClients o left (i + 1) s

/-- The part of `server_handle_select` that accepts a client. -/
def handleAccept (o : Answers) (s : KbdServer) :
    Except ServerAbort (KbdServer × List ServerEffect) :=
  if s.acceptFd ∈ o.rFds then
    if o.accept < 0 then .error .accept
    else
      let client := o.accept.toNat
      -- too many clients already
      if s.nclients + 1 > maxClients then .ok (s, [.accepted client, .closed client])
      else
        let s := { s with clients := Function.update s.clients s.nclients client
                          nclients := s.nclients + 1 }
        -- make the latest client active and kick the previous client
        if s.nclients > 1 then
          .ok ({ s with nclients := s.nclients - 1
                        clients := Function.update s.clients 0 client },
            [.accepted client, .closed (s.clients 0)])
        else .ok (s, [.accepted client])
  else .ok (s, [])

/-- `server_handle_select` -/
def serverHandleSelect (o : Answers) (s : KbdServer) :
    Except ServerAbort (KbdServer × List ServerEffect) := do
  let (s, log₁) := writeActive o s
  let (s, log₂) := checkClients o s.nclients 0 s
  let (s, log₃) ← handleAccept o s
  .ok (s, log₁ ++ log₂ ++ log₃)

/-- The three parts of `server_handle_select`, one after the other. -/
theorem serverHandleSelect_ok {o : Answers} {s s' : KbdServer} {l : List ServerEffect}
    (h : serverHandleSelect o s = .ok (s', l)) :
    ∃ s₁ l₁ s₂ l₂ l₃, writeActive o s = (s₁, l₁) ∧ checkClients o s₁.nclients 0 s₁ = (s₂, l₂) ∧
      handleAccept o s₂ = .ok (s', l₃) ∧ l = l₁ ++ l₂ ++ l₃ := by
  unfold serverHandleSelect at h
  obtain ⟨⟨s₃, l₃⟩, haccept, h⟩ := Steps.bind_eq_ok.mp h
  obtain ⟨rfl, rfl⟩ := Prod.mk.inj (Except.ok.inj h)
  exact ⟨_, _, _, _, l₃, rfl, rfl, haccept, rfl⟩

/-! ### Runs -/

/-- What `select` and `send` promise. -/
def Possible (s : KbdServer) (o : Answers) : Prop :=
  o.rFds ⊆ (serverPrepSelect s).2.1 ∧ o.wFds ⊆ (serverPrepSelect s).2.2 ∧ o.send ≤ s.fcLen

instance (s : KbdServer) (o : Answers) : Decidable (Possible s o) :=
  inferInstanceAs (Decidable (_ ∧ _ ∧ _))

/-- A call of one of the functions in `app_t`. -/
inductive ServerInput where
  | event (ev : InputEvent)
  | select (o : Answers)

/-- One call.  Nothing happens to the server between `server_prep_select` and
    `server_handle_select`. -/
def serverStep : ServerInput → KbdServer → Except ServerAbort (KbdServer × List ServerEffect)
  | .event ev, s => .ok (serverSendEvent ev s).2
  | .select o, s => if Possible s o then serverHandleSelect o s else .error .notPromised

/-- The server from a given state on. -/
def runServer (s : KbdServer) (inputs : List ServerInput) :
    Except ServerAbort (KbdServer × List ServerEffect) := Steps.run serverStep inputs s

end Sdiol
