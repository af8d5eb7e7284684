import Sdiol.Deadline
import Sdiol.Reader
import Sdiol.Stream

namespace Sdiol

/-!
# From the keyboards to the other machine

`sdiol serve` on one machine and `sdiol read` or `sdiol connect` on another: the turns of
`serve_loop` with `kbd_server_t` as its `app`, a connection that keeps bytes in order and delivers
them in pieces of any size, and the loop of `main_read` at its other end.  A `RemoteInput` is a
turn of the one program or a `read` of the other, in any order.

* `remote_local` — the loop does what it does in `main_local`, whatever happens at the sockets;
* `Conveyed` — what the client stands to be given is, in order, what it was given, what it holds
  as the beginning of a line, what is on its way and what is in `for_client`;
* `remote_refines_local` — so at any time the events written at the other end are the first of
  those that the server accepted, and these are the events of `main_local` but for dropped ones.
-/

variable {n : Nat}

/-! ### The two programs -/

/-- A turn of `serve_loop` with a server as its `app`: also what the operating system answers
    about the sockets. -/
structure SocketTurn (n : Nat) extends Turn n where
  answers : Answers

/-- `sdiol serve`, the bytes that `send` has accepted and `read` has not returned, and the buffer
    of `main_read` at the other end. -/
structure Remote (n : Nat) where
  world : World n
  server : KbdServer
  inFlight : List UInt8
  reader : Reader

inductive RemoteInput (n : Nat) where
  /-- a turn of `serve_loop` -/
  | turn (t : SocketTurn n)
  /-- `read` of `main_read` returns `len` bytes -/
  | receive (len : Nat)
  /-- `read` of `main_read` returns -1 with `EINTR` -/
  | interrupt

inductive RemoteEffect (n : Nat) where
  | server (x : ServerEffect)
  | read (x : Received)
  /-- an event is written to the output device of the other machine -/
  | wrote (ev : InputEvent)

/-- Why `serve_loop` ended, or what no connection does: to deliver bytes that were not sent, or
    more than were asked for. -/
inductive RemoteEnd where
  | loop (e : LoopEnd)
  | server (e : ServerAbort)
  | notConveyed
deriving DecidableEq

/-- The events passed to `app.send` between two states of the loop. -/
def World.sentSince (w w' : World n) : List InputEvent :=
  w'.loop.output.drop w.loop.output.length

/-- `app.handle_select` is called if `select` has returned no error. -/
def SocketTurn.handleSelect (t : SocketTurn n) (s : KbdServer) :
    Except ServerAbort (KbdServer × List ServerEffect) :=
  match t.selected with
  | .ready _ _ _ => serverStep (.select t.answers) s
  | _ => .ok (s, [])

/-- A step of one of the programs. -/
def remoteStep (exit : Option Timeval) (behind : List UInt8) (i : RemoteInput n) (m : Remote n) :
    Except RemoteEnd (Remote n × List (RemoteEffect n)) :=
  match i with
  | .turn t => do
    -- before the timeout is looked at and the keyboards are read
    let (s, l) ← (t.handleSelect m.server).mapError .server
    let (w, _) ← (serveTurn exit t.toTurn m.world).mapError .loop
    -- the loop does not look at the server that `send_dedup` passes the events to
    let (s, l') ← (runServer s ((m.world.sentSince w).map .event)).mapError .server
    .ok (⟨w, s, m.inFlight ++ sentBytes (l ++ l'), m.reader⟩, (l ++ l').map .server)
  | .receive len =>
    if 1 ≤ len ∧ len ≤ bufferSize / 2 ∧ len ≤ m.inFlight.length then
      let chunk := m.inFlight.take len
      let (r, evs) := readChunk behind chunk m.reader.makeRoom
      .ok ({ m with inFlight := m.inFlight.drop len, reader := r },
        .read (.bytes chunk) :: evs.map .wrote)
    else .error .notConveyed
  | .interrupt => .ok ({ m with reader := m.reader.makeRoom }, [.read .interrupted])

/-- Both programs and the connection, from a given state on. -/
def runRemote (exit : Option Timeval) (behind : List UInt8) (m : Remote n)
    (inputs : List (RemoteInput n)) : Except RemoteEnd (Remote n × List (RemoteEffect n)) :=
  Steps.run (remoteStep exit behind) inputs m

/-! ### Reading the log -/

/-- What the server did. -/
def serverLog (log : List (RemoteEffect n)) : List ServerEffect :=
  log.filterMap fun
    | .server x => some x
    | _ => none

/-- What `read` returned to `main_read`. -/
def readsOf (log : List (RemoteEffect n)) : List Received :=
  log.filterMap fun
    | .read x => some x
    | _ => none

/-- The events written at the other end. -/
def writtenEvents (log : List (RemoteEffect n)) : List InputEvent :=
  log.filterMap fun
    | .wrote ev => some ev
    | _ => none

/-- The events that `server_send_event` was called with. -/
def offeredEvents (log : List ServerEffect) : List InputEvent :=
  log.filterMap fun
    | .queued ev => some ev
    | .dropped ev => some ev
    | _ => none

/-- The turns of `serve_loop`, without the sockets. -/
def loopTurns (inputs : List (RemoteInput n)) : List (Turn n) :=
  inputs.filterMap fun
    | .turn t => some t.toTurn
    | _ => none

@[simp] theorem serverLog_append (l₁ l₂ : List (RemoteEffect n)) :
    serverLog (l₁ ++ l₂) = serverLog l₁ ++ serverLog l₂ := List.filterMap_append

@[simp] theorem readsOf_append (l₁ l₂ : List (RemoteEffect n)) :
    readsOf (l₁ ++ l₂) = readsOf l₁ ++ readsOf l₂ := List.filterMap_append

@[simp] theorem writtenEvents_append (l₁ l₂ : List (RemoteEffect n)) :
    writtenEvents (l₁ ++ l₂) = writtenEvents l₁ ++ writtenEvents l₂ := List.filterMap_append

@[simp] theorem offeredEvents_append (l₁ l₂ : List ServerEffect) :
    offeredEvents (l₁ ++ l₂) = offeredEvents l₁ ++ offeredEvents l₂ := List.filterMap_append

/-- A turn logs what the server does. -/
theorem log_server (l : List ServerEffect) :
    serverLog (l.map (RemoteEffect.server (n := n))) = l ∧
      readsOf (l.map (RemoteEffect.server (n := n))) = [] ∧
      writtenEvents (l.map (RemoteEffect.server (n := n))) = [] := by
  simp [serverLog, readsOf, writtenEvents, List.filterMap_map]

/-- A `read` logs what it returned and the events written. -/
theorem log_read (x : Received) (evs : List InputEvent) :
    serverLog (RemoteEffect.read (n := n) x :: evs.map .wrote) = [] ∧
      readsOf (RemoteEffect.read (n := n) x :: evs.map .wrote) = [x] ∧
      writtenEvents (RemoteEffect.read (n := n) x :: evs.map .wrote) = evs := by
  simp [serverLog, readsOf, writtenEvents, List.filterMap_map]

/-- The events accepted are some of those offered, in order, and all if none was dropped. -/
theorem queuedEvents_offered (log : List ServerEffect) :
    (queuedEvents log).Sublist (offeredEvents log) ∧
      ((∀ ev, .dropped ev ∉ log) → queuedEvents log = offeredEvents log) := by
  induction log with
  | nil => exact ⟨List.Sublist.slnil, fun _ => rfl⟩
  | cons x log ih =>
    obtain ⟨hsub, heq⟩ := ih
    have hrest : (∀ ev, .dropped ev ∉ x :: log) → queuedEvents log = offeredEvents log :=
      fun hno => heq fun ev hmem => hno ev (List.mem_cons_of_mem _ hmem)
    cases x with
    | queued ev => exact ⟨hsub.cons_cons ev, fun hno => congrArg (ev :: ·) (hrest hno)⟩
    | dropped ev => exact ⟨hsub.cons ev, fun hno => absurd List.mem_cons_self (hno ev)⟩
    | sent client pending len => exact ⟨hsub, hrest⟩
    | accepted client => exact ⟨hsub, hrest⟩
    | closed client => exact ⟨hsub, hrest⟩

/-! ### One step -/

/-- **One step** of the two programs. -/
theorem remoteStep_cases {exit : Option Timeval} {behind : List UInt8} {i : RemoteInput n}
    {m m' : Remote n} {l : List (RemoteEffect n)} (h : remoteStep exit behind i m = .ok (m', l)) :
    (∃ t s₁ l₁ w s₂ l₂ log, i = .turn t ∧ t.handleSelect m.server = .ok (s₁, l₁) ∧
      serveTurn exit t.toTurn m.world = .ok (w, log) ∧
      runServer s₁ ((m.world.sentSince w).map .event) = .ok (s₂, l₂) ∧
      m' = ⟨w, s₂, m.inFlight ++ sentBytes (l₁ ++ l₂), m.reader⟩ ∧
      l = (l₁ ++ l₂).map .server) ∨
    (∃ len r evs, i = .receive len ∧ (1 ≤ len ∧ len ≤ bufferSize / 2 ∧ len ≤ m.inFlight.length) ∧
      readChunk behind (m.inFlight.take len) m.reader.makeRoom = (r, evs) ∧
      m' = { m with inFlight := m.inFlight.drop len, reader := r } ∧
      l = .read (.bytes (m.inFlight.take len)) :: evs.map .wrote) ∨
    i = .interrupt ∧ m' = { m with reader := m.reader.makeRoom } ∧ l = [.read .interrupted] := by
  cases i with
  | turn t =>
    unfold remoteStep at h
    obtain ⟨⟨s₁, l₁⟩, hhandle, h⟩ := Steps.bind_eq_ok.mp h
    obtain ⟨⟨w, log⟩, hturn, h⟩ := Steps.bind_eq_ok.mp h
    obtain ⟨⟨s₂, l₂⟩, hsend, h⟩ := Steps.bind_eq_ok.mp h
    cases h
    exact .inl ⟨t, s₁, l₁, w, s₂, l₂, log, rfl, Steps.mapError_eq_ok.mp hhandle,
      Steps.mapError_eq_ok.mp hturn, Steps.mapError_eq_ok.mp hsend, rfl, rfl⟩
  | receive len =>
    unfold remoteStep at h
    simp only at h
    split at h
    · rename_i hlen
      cases h
      exact .inr (.inl ⟨len, _, _, rfl, hlen, rfl, rfl, rfl⟩)
    · exact absurd h (by simp)
  | interrupt =>
    cases h
    exact .inr (.inr ⟨rfl, rfl, rfl⟩)

/-! ### The loop does not notice the server -/

/-- What was sent stays sent. -/
theorem run_serveStep_output {inputs : List (GrabReading n)} {s s' : ServeState n}
    {log : List (Fin n × Effect)} (h : Steps.run serveStep inputs s = .ok (s', log)) :
    s.output <+: s'.output := by
  refine Steps.run_inv (fun _ (t : ServeState n) => s.output <+: t.output) ?_
    (List.prefix_refl _) h
  intro i _ log t t' l hs hstep
  obtain ⟨_, _, _, out, _, _, rfl, _⟩ := serveStep_ok hstep
  exact hs.trans (List.prefix_append t.output out)

theorem serveTurn_output {exit : Option Timeval} {t : Turn n} {w w' : World n}
    {l : List (LoopEffect n)} (h : serveTurn exit t w = .ok (w', l)) :
    w'.loop.output = w.loop.output ++ w.sentSince w' := by
  obtain ⟨inputs, hrun⟩ := serveTurn_serve h
  exact List.prefix_iff_eq_append.mp (run_serveStep_output hrun) |>.symm

/-- **Local.** The keyboards, the resolvers and the filter do what they do in the same turns of
    `main_local`, which has no sockets. -/
theorem remote_local {exit : Option Timeval} {behind : List UInt8} {m m' : Remote n}
    {inputs : List (RemoteInput n)} {log : List (RemoteEffect n)}
    (h : runRemote exit behind m inputs = .ok (m', log)) :
    ∃ l, Steps.run (serveTurn exit) (loopTurns inputs) m.world = .ok (m'.world, l) := by
  unfold runRemote at h
  induction inputs generalizing m log with
  | nil =>
    obtain ⟨rfl, rfl⟩ := Steps.run_nil_ok.mp h
    exact ⟨[], rfl⟩
  | cons i inputs ih =>
    obtain ⟨m₁, l₁, l₂, hstep, hrest, rfl⟩ := Steps.run_cons_ok.mp h
    obtain ⟨l, hlocal⟩ := ih hrest
    rcases remoteStep_cases hstep with ⟨t, _, _, w, _, _, log', rfl, _, hturn, _, rfl, _⟩ |
      ⟨_, _, _, rfl, _, _, rfl, _⟩ | ⟨rfl, rfl, _⟩
    · exact ⟨log' ++ l, Steps.run_cons_ok.mpr ⟨w, log', l, hturn, hlocal, rfl⟩⟩
    · exact ⟨l, hlocal⟩
    · exact ⟨l, hlocal⟩

/-! ### The other end is `main_read` -/

/-- **The reader.** What is written at the other end is what `main_read` writes when its calls of
    `read` return what they did. -/
theorem remote_mainRead {exit : Option Timeval} {behind : List UInt8} {m m' : Remote n}
    {inputs : List (RemoteInput n)} {log : List (RemoteEffect n)}
    (h : runRemote exit behind m inputs = .ok (m', log)) :
    mainReadLoop behind (readsOf log) m.reader = (0, writtenEvents log) := by
  have hall : ∀ rest, mainReadLoop behind (readsOf log ++ rest) m.reader
      = ((mainReadLoop behind rest m'.reader).1,
        writtenEvents log ++ (mainReadLoop behind rest m'.reader).2) := by
    refine Steps.run_inv (fun log (m' : Remote n) => ∀ rest,
      mainReadLoop behind (readsOf log ++ rest) m.reader
        = ((mainReadLoop behind rest m'.reader).1,
          writtenEvents log ++ (mainReadLoop behind rest m'.reader).2)) ?_ (fun rest => rfl) h
    intro i _ log m₁ m₂ l hloop hstep rest
    rcases remoteStep_cases hstep with ⟨_, s₁, l₁, w, s₂, l₂, _, _, _, _, _, rfl, rfl⟩ |
      ⟨len, r, evs, _, _, hchunk, rfl, rfl⟩ | ⟨_, rfl, rfl⟩
    · obtain ⟨_, hreads, hwritten⟩ := log_server (n := n) (l₁ ++ l₂)
      rw [readsOf_append, writtenEvents_append, hreads, hwritten, List.append_nil,
        List.append_nil]
      exact hloop rest
    · obtain ⟨_, hreads, hwritten⟩ := log_read (n := n) (.bytes (m₁.inFlight.take len)) evs
      rw [readsOf_append, writtenEvents_append, hreads, hwritten, List.append_assoc, hloop]
      simp only [List.singleton_append, mainReadLoop, hchunk, List.append_assoc]
    · rw [readsOf_append, writtenEvents_append, List.append_assoc, hloop]
      simp [readsOf, writtenEvents, mainReadLoop]
  have hend := hall []
  rw [List.append_nil] at hend
  rw [hend]
  simp [mainReadLoop]

/-! ### Lines -/

/-- The lines of events say which events they are of: what starts with the lines of some events
    and is the lines of others is of events that start with the former. -/
theorem lines_prefix {evs₁ evs₂ : List InputEvent} {rest : List UInt8}
    (h : evs₁.flatMap encode ++ rest = evs₂.flatMap encode) :
    ∃ later, evs₂ = evs₁ ++ later ∧ rest = later.flatMap encode := by
  induction evs₁ generalizing evs₂ with
  | nil => exact ⟨evs₂, rfl, h⟩
  | cons ev evs₁ ih =>
    cases evs₂ with
    | nil =>
      rw [List.flatMap_cons, List.append_assoc] at h
      exact absurd (List.append_eq_nil_iff.mp h).1 (encode_ne_nil ev)
    | cons ev' evs₂ =>
      rw [List.flatMap_cons, List.append_assoc, List.flatMap_cons] at h
      -- `sscanf` finds both events in the same line
      have hfirst := parseEvent_encode ev (evs₁.flatMap encode ++ rest)
      rw [h, parseEvent_encode] at hfirst
      obtain rfl := Option.some.inj hfirst
      obtain ⟨later, rfl, hrest⟩ := ih (List.append_cancel_left h)
      exact ⟨later, rfl, hrest⟩

/-- The beginning of a line is short. -/
theorem length_open_le {part rest : List UInt8} {evs : List InputEvent}
    (h : part ++ rest = evs.flatMap encode) (hopen : newline ∉ part) : part.length ≤ 105 := by
  obtain ⟨evs₁, _, part', _, rfl, _, _, hlen⟩ := split_lines h
  cases evs₁ with
  | nil => exact hlen
  | cons ev evs₁ =>
    refine absurd (List.mem_append_left _ (List.mem_flatMap.mpr ⟨ev, List.mem_cons_self, ?_⟩)) hopen
    exact List.mem_append_right _ List.mem_cons_self

/-! ### What happens to the stream -/

/-- The writes that do no harm to the stream. -/
def KeepsStream (log : List ServerEffect) : Prop :=
  ∀ client pending len, .sent client pending len ∈ log → Repeats len pending

/-- `KeepsStream` for one entry of the log. -/
def ServerEffect.keepsStream : ServerEffect → Bool
  | .sent _ pending len => decide (Repeats len pending)
  | _ => true

instance (log : List ServerEffect) : Decidable (KeepsStream log) :=
  decidable_of_iff (log.all ServerEffect.keepsStream = true) <| by
    rw [List.all_eq_true]
    constructor
    · intro h client pending len hmem
      exact of_decide_eq_true (h _ hmem)
    · intro h x hmem
      cases x with
      | sent client pending len => exact decide_eq_true (h client pending len hmem)
      | _ => rfl

theorem KeepsStream.left {l₁ l₂ : List ServerEffect} (h : KeepsStream (l₁ ++ l₂)) :
    KeepsStream l₁ :=
  fun client pending len hmem => h client pending len (List.mem_append_left _ hmem)

theorem KeepsStream.right {l₁ l₂ : List ServerEffect} (h : KeepsStream (l₁ ++ l₂)) :
    KeepsStream l₂ :=
  fun client pending len hmem => h client pending len (List.mem_append_right _ hmem)

/-- **Calls of the server** keep the stream uncorrupted, whatever was done before. -/
theorem runServer_stream {log l : List ServerEffect} {s s' : KbdServer}
    {inputs : List ServerInput} (hclient : 0 < s.nclients) (hs : Uncorrupted log s)
    (h : runServer s inputs = .ok (s', l)) (htenure : Tenure l) (hkeeps : KeepsStream l) :
    0 < s'.nclients ∧ Uncorrupted (log ++ l) s' := by
  unfold runServer at h
  induction inputs generalizing log s l with
  | nil =>
    obtain ⟨rfl, rfl⟩ := Steps.run_nil_ok.mp h
    rw [List.append_nil]
    exact ⟨hclient, hs⟩
  | cons i inputs ih =>
    obtain ⟨s₁, l₁, l₂, hstep, hrest, rfl⟩ := Steps.run_cons_ok.mp h
    obtain ⟨hn, hiff⟩ := serverStep_uncorrupted hclient hs hstep htenure.left
    rw [← List.append_assoc]
    exact ih (by omega) (hiff.mpr hkeeps.left) hrest htenure.right hkeeps.right

/-- `app.handle_select` is a call of the server, or none, and offers it no event. -/
theorem handleSelect_calls {t : SocketTurn n} {s s' : KbdServer} {l : List ServerEffect}
    (h : t.handleSelect s = .ok (s', l)) (htenure : Tenure l) :
    (∃ inputs, runServer s inputs = .ok (s', l)) ∧ offeredEvents l = [] := by
  unfold SocketTurn.handleSelect at h
  split at h
  · refine ⟨⟨[.select t.answers], Steps.run_cons_ok.mpr ⟨s', l, [], h, rfl, by simp⟩⟩, ?_⟩
    have hstep : (if Possible s t.answers then serverHandleSelect t.answers s
        else .error .notPromised) = .ok (s', l) := h
    split at hstep
    · rename_i hpossible
      obtain ⟨s₁, l₁, s₂, l₂, l₃, hwrite, hcheck, haccept, rfl⟩ := serverHandleSelect_ok hstep
      obtain ⟨rfl, rfl⟩ := handleAccept_tenure haccept htenure.right
      have hnone := checkClients_tenure (by rw [hcheck]; exact htenure.left.right)
      obtain ⟨_, rfl⟩ := Prod.mk.inj (hcheck.symm.trans hnone)
      rcases writeActive_tenure hpossible.2.2 (by rw [hwrite]; exact htenure.left.left) with
        hidle | ⟨client, len, _, hlog, _⟩
      · obtain ⟨_, rfl⟩ := Prod.mk.inj (hwrite.symm.trans hidle)
        rfl
      · rw [hwrite] at hlog
        obtain rfl : l₁ = [.sent client s.pending len] := hlog
        rfl
    · exact absurd hstep (by simp)
  · cases h
    exact ⟨⟨[], rfl⟩, rfl⟩

/-- Every event passed to `server_send_event` is accepted or dropped, and nothing is sent. -/
theorem runServer_events {evs : List InputEvent} {s s' : KbdServer} {l : List ServerEffect}
    (h : runServer s (evs.map .event) = .ok (s', l)) :
    offeredEvents l = evs ∧ sentBytes l = [] := by
  unfold runServer at h
  induction evs generalizing s l with
  | nil =>
    obtain ⟨rfl, rfl⟩ := Steps.run_nil_ok.mp h
    exact ⟨rfl, rfl⟩
  | cons ev evs ih =>
    obtain ⟨s₁, l₁, l₂, hstep, hrest, rfl⟩ := Steps.run_cons_ok.mp h
    obtain ⟨hoffered, hsent⟩ := ih hrest
    have hl₁ : l₁ = [.queued ev] ∨ l₁ = [.dropped ev] := by
      have hcall : (serverSendEvent ev s).2 = (s₁, l₁) := Except.ok.inj hstep
      obtain ⟨_, rfl⟩ := Prod.mk.inj hcall.symm
      unfold serverSendEvent
      split
      · exact .inr rfl
      · simp only
        split
        · exact .inr rfl
        · exact .inl rfl
    rw [offeredEvents_append, sentBytes_append, hoffered, hsent]
    rcases hl₁ with rfl | rfl
    · exact ⟨rfl, rfl⟩
    · exact ⟨rfl, rfl⟩

/-! ### The invariant -/

/-- While the client stays: the bytes sent are the lines of the events written at the other end,
    the beginning of a line in the buffer there, and what is on its way. -/
structure Conveyed (m₀ : Remote n) (log : List (RemoteEffect n)) (m : Remote n) : Prop where
  client : 0 < m.server.nclients
  stream : Uncorrupted (serverLog log) m.server
  wire : sentBytes (serverLog log)
    = (writtenEvents log).flatMap encode ++ (m.reader.received ++ m.inFlight)
  opened : newline ∉ m.reader.received
  output : m.world.loop.output = m₀.world.loop.output ++ offeredEvents (serverLog log)

section Step

variable {exit : Option Timeval} {behind : List UInt8} {m₀ m m' : Remote n}
  {log l : List (RemoteEffect n)}

/-- The events accepted are those written and some later ones, whose lines are the bytes in the
    buffer of the client, on their way, and in `for_client`. -/
theorem Conveyed.waiting (h : Conveyed m₀ log m) :
    ∃ later, queuedEvents (serverLog log) = writtenEvents log ++ later ∧
      m.reader.received ++ (m.inFlight ++ m.server.pending) = later.flatMap encode := by
  have hstream : sentBytes (serverLog log) ++ m.server.pending
      = (queuedEvents (serverLog log)).flatMap encode := h.stream
  rw [h.wire, List.append_assoc, List.append_assoc] at hstream
  exact lines_prefix hstream

/-- Once nothing is pending and nothing is on its way, every event accepted was written. -/
theorem Conveyed.written_all (h : Conveyed m₀ log m) (hpending : m.server.fcLen = 0)
    (hflight : m.inFlight = []) : writtenEvents log = queuedEvents (serverLog log) := by
  obtain ⟨later, hqueued, hlater⟩ := h.waiting
  have hnil : m.server.pending = [] :=
    List.length_eq_zero_iff.mp (by rw [m.server.length_pending, hpending])
  rw [hflight, hnil, List.append_nil, List.append_nil] at hlater
  cases later with
  | nil => rw [hqueued, List.append_nil]
  -- the beginning of a line is left only if the rest of it is to come
  | cons ev later =>
    refine absurd ?_ h.opened
    rw [hlater]
    exact List.mem_flatMap.mpr
      ⟨ev, List.mem_cons_self, List.mem_append_right _ List.mem_cons_self⟩

/-- There is always room for another `read`. -/
theorem Conveyed.makeRoom (h : Conveyed m₀ log m) : m.reader.makeRoom = m.reader := by
  obtain ⟨later, _, hlater⟩ := h.waiting
  have hshort := length_open_le hlater h.opened
  rw [Reader.received, Buffer.length_slice] at hshort
  exact Reader.makeRoom_of_le (by unfold bufferSize; omega)

/-- **A turn** of `serve_loop`. -/
theorem Conveyed.turn {t : SocketTurn n} {s₁ s₂ : KbdServer} {l₁ l₂ : List ServerEffect}
    {w : World n} {log' : List (LoopEffect n)} (h : Conveyed m₀ log m)
    (hhandle : t.handleSelect m.server = .ok (s₁, l₁))
    (hturn : serveTurn exit t.toTurn m.world = .ok (w, log'))
    (hsend : runServer s₁ ((m.world.sentSince w).map .event) = .ok (s₂, l₂))
    (htenure : Tenure (l₁ ++ l₂)) (hkeeps : KeepsStream (l₁ ++ l₂)) :
    Conveyed m₀ (log ++ (l₁ ++ l₂).map .server)
      ⟨w, s₂, m.inFlight ++ sentBytes (l₁ ++ l₂), m.reader⟩ := by
  obtain ⟨hserver, _, hwritten⟩ := log_server (n := n) (l₁ ++ l₂)
  obtain ⟨⟨inputs, hcalls⟩, hnone⟩ := handleSelect_calls hhandle htenure.left
  obtain ⟨hoffered, _⟩ := runServer_events hsend
  obtain ⟨hn, hstream⟩ := runServer_stream h.client h.stream hcalls htenure.left hkeeps.left
  obtain ⟨hn', hstream'⟩ := runServer_stream hn hstream hsend htenure.right hkeeps.right
  refine ⟨hn', ?_, ?_, h.opened, ?_⟩
  · rw [serverLog_append, hserver, ← List.append_assoc]
    exact hstream'
  · rw [serverLog_append, hserver, writtenEvents_append, hwritten, List.append_nil,
      sentBytes_append, h.wire, List.append_assoc, List.append_assoc]
  · show w.loop.output = _
    rw [serverLog_append, hserver, offeredEvents_append, offeredEvents_append, hnone, hoffered,
      List.nil_append, ← List.append_assoc, ← h.output]
    exact serveTurn_output hturn

/-- **A `read`** of `main_read`, of any of the bytes on their way. -/
theorem Conveyed.receive {len : Nat} {r : Reader} {evs : List InputEvent}
    (h : Conveyed m₀ log m) (hlen : len ≤ bufferSize / 2)
    (hchunk : readChunk behind (m.inFlight.take len) m.reader.makeRoom = (r, evs)) :
    Conveyed m₀ (log ++ .read (.bytes (m.inFlight.take len)) :: evs.map .wrote)
      { m with inFlight := m.inFlight.drop len, reader := r } := by
  obtain ⟨hserver, _, hwritten⟩ := log_read (n := n) (.bytes (m.inFlight.take len)) evs
  obtain ⟨later, _, hlater⟩ := h.waiting
  rw [h.makeRoom] at hchunk
  -- where this `read` cuts the stream
  have hcut : (m.reader.received ++ m.inFlight.take len)
      ++ (m.inFlight.drop len ++ m.server.pending) = later.flatMap encode := by
    rw [← hlater, List.append_assoc, ← List.append_assoc (m.inFlight.take len),
      List.take_append_drop]
  obtain ⟨evs₁, evs₂, part, _, hlines, _, hno, _⟩ := split_lines hcut
  have hshort := length_open_le hlater h.opened
  rw [Reader.received, Buffer.length_slice] at hshort
  have htake : (m.inFlight.take len).length ≤ bufferSize / 2 :=
    (List.length_take_le len m.inFlight).trans hlen
  have hfull : (Reader.mk (Buffer.copy m.reader.buffer m.reader.blen (m.inFlight.take len))
      (m.reader.blen + (m.inFlight.take len).length)).received
      = evs₁.flatMap encode ++ part := by
    rw [← hlines]
    exact Buffer.slice_append_copy m.reader.buffer m.reader.blen (m.inFlight.take len)
  have hfuel : evs₁.length ≤ m.reader.blen + (m.inFlight.take len).length := by
    have hcount : m.reader.blen + (m.inFlight.take len).length
        = (evs₁.flatMap encode ++ part).length := by
      rw [← hfull]
      exact (Buffer.length_slice ..).symm
    have hle := length_le_flatMap_encode evs₁
    rw [hcount, List.length_append]
    omega
  obtain ⟨r', hread, hkept⟩ := readLines_encode behind hfull hno
    (by show m.reader.blen + _ ≤ bufferSize; unfold bufferSize at htake ⊢; omega) hfuel
  have hdone : readChunk behind (m.inFlight.take len) m.reader = (r', evs₁) := hread
  obtain ⟨rfl, rfl⟩ := Prod.mk.inj (hchunk.symm.trans hdone)
  refine ⟨h.client, ?_, ?_, ?_, ?_⟩
  · rw [serverLog_append, hserver, List.append_nil]
    exact h.stream
  · rw [serverLog_append, hserver, List.append_nil, writtenEvents_append, hwritten, h.wire]
    show _ = _ ++ (r.received ++ m.inFlight.drop len)
    rw [hkept, List.flatMap_append, List.append_assoc, ← List.append_assoc (evs.flatMap encode),
      ← hlines, List.append_assoc, List.take_append_drop]
  · show newline ∉ r.received
    rw [hkept]
    exact hno
  · rw [serverLog_append, hserver, List.append_nil]
    exact h.output

/-- **Step.** Whatever either program does next, what was sent is delivered. -/
theorem Conveyed.step {i : RemoteInput n} (h : Conveyed m₀ log m)
    (hstep : remoteStep exit behind i m = .ok (m', l)) (htenure : Tenure (serverLog l))
    (hkeeps : KeepsStream (serverLog l)) : Conveyed m₀ (log ++ l) m' := by
  rcases remoteStep_cases hstep with ⟨t, s₁, l₁, w, s₂, l₂, log', _, hhandle, hturn, hsend, rfl,
    rfl⟩ | ⟨len, r, evs, _, ⟨_, hlen, _⟩, hchunk, rfl, rfl⟩ | ⟨_, rfl, rfl⟩
  · rw [(log_server (n := n) (l₁ ++ l₂)).1] at htenure hkeeps
    exact h.turn hhandle hturn hsend htenure hkeeps
  · exact h.receive hlen hchunk
  · obtain ⟨hserver, _, hwritten⟩ := log_read (n := n) .interrupted []
    rw [List.map_nil] at hserver hwritten
    refine ⟨h.client, ?_, ?_, ?_, ?_⟩
    · rw [serverLog_append, hserver, List.append_nil]
      exact h.stream
    · rw [serverLog_append, hserver, writtenEvents_append, hwritten, List.append_nil,
        List.append_nil, h.makeRoom]
      exact h.wire
    · rw [h.makeRoom]
      exact h.opened
    · rw [serverLog_append, hserver, List.append_nil]
      exact h.output

end Step

/-- A client is connected, and nothing was sent to it yet. -/
structure Remote.Fresh (m : Remote n) : Prop where
  client : 0 < m.server.nclients
  nothingPending : m.server.fcLen = 0
  nothingInFlight : m.inFlight = []
  nothingReceived : m.reader.blen = 0

theorem Remote.Fresh.conveyed {m : Remote n} (h : m.Fresh) : Conveyed m [] m := by
  have hpending : m.server.pending = [] :=
    List.length_eq_zero_iff.mp (by rw [m.server.length_pending, h.nothingPending])
  have hreceived : m.reader.received = [] :=
    List.length_eq_zero_iff.mp (by rw [Reader.received, Buffer.length_slice, h.nothingReceived])
  refine ⟨h.client, ?_, ?_, ?_, ?_⟩
  · unfold Uncorrupted
    rw [hpending]
    rfl
  · rw [hreceived, h.nothingInFlight]
    rfl
  · rw [hreceived]
    exact List.not_mem_nil
  · exact (List.append_nil _).symm

/-- **Run.** In every state of both programs what was sent is delivered. -/
theorem runRemote_conveyed {exit : Option Timeval} {behind : List UInt8} {m₀ m : Remote n}
    {inputs : List (RemoteInput n)} {log : List (RemoteEffect n)} (hfresh : m₀.Fresh)
    (h : runRemote exit behind m₀ inputs = .ok (m, log)) (htenure : Tenure (serverLog log))
    (hkeeps : KeepsStream (serverLog log)) : Conveyed m₀ log m := by
  refine Steps.run_inv (fun log m => Tenure (serverLog log) → KeepsStream (serverLog log) →
    Conveyed m₀ log m) ?_ (fun _ _ => hfresh.conveyed) h htenure hkeeps
  intro i _ log m m' l hinv hstep htenure hkeeps
  rw [serverLog_append] at htenure hkeeps
  exact (hinv htenure.left hkeeps.left).step hstep htenure.right hkeeps.right

/-! ### Remote mode refines local mode -/

/-- **From the keyboards to the other machine.** While one client stays and the writes to it are
    harmless, however the turns of `serve_loop` and the `read`s of `main_read` are interleaved
    and wherever the latter cut the stream: the loop does what `main_local` does; what is written
    at the other end is what `main_read` writes for these `read`s; it is the beginning of the
    events accepted by the server, and all of them once no byte is on its way; and the events
    accepted or dropped are, in order, those `main_local` would have written. -/
theorem remote_refines_local {exit : Option Timeval} {behind : List UInt8} {m₀ m : Remote n}
    {inputs : List (RemoteInput n)} {log : List (RemoteEffect n)} (hfresh : m₀.Fresh)
    (h : runRemote exit behind m₀ inputs = .ok (m, log)) (htenure : Tenure (serverLog log))
    (hkeeps : KeepsStream (serverLog log)) :
    (∃ l, Steps.run (serveTurn exit) (loopTurns inputs) m₀.world = .ok (m.world, l)) ∧
      mainRead behind m₀.reader.buffer (readsOf log) = (0, writtenEvents log) ∧
      writtenEvents log <+: queuedEvents (serverLog log) ∧
      (m.server.fcLen = 0 ∧ m.inFlight = [] →
        writtenEvents log = queuedEvents (serverLog log)) ∧
      m.world.loop.output = m₀.world.loop.output ++ offeredEvents (serverLog log) ∧
      (queuedEvents (serverLog log)).Sublist (offeredEvents (serverLog log)) ∧
      ((∀ ev, .dropped ev ∉ serverLog log) →
        queuedEvents (serverLog log) = offeredEvents (serverLog log)) := by
  have hconveyed := runRemote_conveyed hfresh h htenure hkeeps
  obtain ⟨later, hqueued, _⟩ := hconveyed.waiting
  obtain ⟨hsub, hall⟩ := queuedEvents_offered (serverLog log)
  refine ⟨remote_local h, ?_, ?_, ?_, hconveyed.output, hsub, hall⟩
  · have hread := remote_mainRead h
    have hreader : m₀.reader = ⟨m₀.reader.buffer, 0⟩ := by
      rw [← hfresh.nothingReceived]
    rw [hreader] at hread
    exact hread
  · rw [hqueued]
    exact List.prefix_append _ _
  · rintro ⟨hpending, hflight⟩
    exact hconveyed.written_all hpending hflight

/-- One keyboard, and one client that has just connected. -/
def remoteStart : Remote 1 where
  world := openInput ⟨7, soleGrab⟩
    (worldInit (fun _ => ⟨0, soleGrab⟩) fun _ => (shiftOn45 .tapOnRollover).root)
  server := oneClient
  inFlight := []
  reader := ⟨fun _ => 57, 0⟩

/-- The keyboard sends `r`, and the client accepts `len` bytes if it is `asked`. -/
def keyTurn (r : Reading) (asked : Bool) (len : Nat) : RemoteInput 1 :=
  .turn { now := ClockTime.zero
          selected := .ready Timeval.zero (fun fd => decide (fd = 7)) false
          reads := fun _ => .event r
          opened := []
          answers := ⟨[], if asked then [5] else [], len, fun _ => 0, 0⟩ }

/-- Key 46 goes down and up; its press is received in two pieces, its release is still pending. -/
def pressReceived : List (RemoteInput 1) :=
  [keyTurn (keyAt 0 46 1) false 0, keyTurn (keyAt 5 46 0) true 11, .receive 4, .interrupt,
    .receive 7]

theorem remoteStart_fresh : remoteStart.Fresh := ⟨by decide, rfl, rfl, rfl⟩

/-- A run in which the press arrives. -/
theorem pressReceived_ok : ∃ m log, runRemote none [] remoteStart pressReceived = .ok (m, log) ∧
    Tenure (serverLog log) ∧ KeepsStream (serverLog log) ∧
    (writtenEvents log).map InputEvent.value = [1] ∧
    m.world.loop.output.map InputEvent.value = [1, 0] := by
  have hrun : (runRemote none [] remoteStart pressReceived).map (fun x =>
      decide (Tenure (serverLog x.2) ∧ KeepsStream (serverLog x.2) ∧
        (writtenEvents x.2).map InputEvent.value = [1] ∧
        x.1.world.loop.output.map InputEvent.value = [1, 0])) = .ok true := by
    decide +kernel
  obtain ⟨⟨m, log⟩, hok, hshape⟩ := Steps.map_eq_ok hrun
  exact ⟨m, log, hok, of_decide_eq_true hshape⟩

/-- The press is what `main_read` writes, and the first event accepted. -/
theorem remote_refines_local_press :
    ∃ m log, runRemote none [] remoteStart pressReceived = .ok (m, log) ∧
      (writtenEvents log).map InputEvent.value = [1] ∧
      mainRead [] (fun _ => 57) (readsOf log) = (0, writtenEvents log) ∧
      writtenEvents log <+: queuedEvents (serverLog log) := by
  obtain ⟨m, log, hok, htenure, hkeeps, hwritten, _⟩ := pressReceived_ok
  obtain ⟨_, hread, hfirst, _⟩ := remote_refines_local remoteStart_fresh hok htenure hkeeps
  exact ⟨m, log, hok, hwritten, hread, hfirst⟩

/-! ### Nothing is stuck -/

/-- Without a keyboard that is readable, the client can take everything that is pending. -/
def drainTurn (s : KbdServer) : SocketTurn n where
  now := ClockTime.zero
  selected := .ready ⟨1, 0⟩ (fun _ => false) false
  reads := fun _ => .again
  opened := []
  answers := ⟨[], (serverPrepSelect s).2.2, s.fcLen, fun _ => 0, 0⟩

theorem checkClients_none {o : Answers} (ho : o.rFds = []) (left i : Nat) (s : KbdServer) :
    checkClients o left i s = (s, []) := by
  induction left generalizing i with
  | zero => rfl
  | succ left ih =>
    unfold checkClients
    rw [if_neg (by simp [ho]), ih]

/-- The write of everything that is pending is harmless. -/
theorem handleSelect_drain {s : KbdServer} (hclient : 0 < s.nclients) :
    ∃ s' l, (drainTurn (n := n) s).handleSelect s = .ok (s', l) ∧ s'.fcLen = 0 ∧ Tenure l ∧
      KeepsStream l ∧ queuedEvents l = [] := by
  have hpossible : Possible s (drainTurn (n := n) s).answers :=
    ⟨List.nil_subset _, List.Subset.refl _, le_rfl⟩
  have hcall : (drainTurn (n := n) s).handleSelect s
      = .ok (writeActive (drainTurn (n := n) s).answers s) := by
    show (if Possible s (drainTurn (n := n) s).answers
      then serverHandleSelect (drainTurn (n := n) s).answers s else .error .notPromised) = _
    rw [if_pos hpossible]
    unfold serverHandleSelect handleAccept
    simp only [checkClients_none (o := (drainTurn (n := n) s).answers) rfl]
    simp [drainTurn, bind, Except.bind]
  rw [hcall]
  by_cases hpending : s.fcLen = 0
  · -- the client is not asked to take anything
    have hidle : writeActive (drainTurn (n := n) s).answers s = (s, []) := by
      unfold writeActive
      rw [if_neg]
      simp [drainTurn, serverPrepSelect, hpending]
    exact ⟨s, [], by rw [hidle], hpending, by simp [Tenure], by simp [KeepsStream], rfl⟩
  · have hwrite : writeActive (drainTurn (n := n) s).answers s
        = ({ s with fcLen := 0 }, [.sent (s.clients s.activeClient) s.pending s.fcLen]) := by
      have hasked : s.nclients > 0 ∧
          s.clients s.activeClient ∈ (drainTurn (n := n) s).answers.wFds := by
        refine ⟨hclient, ?_⟩
        show _ ∈ (serverPrepSelect s).2.2
        unfold serverPrepSelect
        simp only
        rw [if_pos ⟨hclient, by omega⟩]
        exact List.mem_singleton_self _
      unfold writeActive
      rw [if_pos hasked, if_neg (by show ¬ (s.fcLen : Int) ≤ 0; omega)]
      simp [drainTurn]
    refine ⟨_, _, by rw [hwrite], rfl, by simp [Tenure, ServerEffect.keepsClients], ?_, rfl⟩
    intro client pending len hmem
    cases List.mem_singleton.mp hmem
    unfold Repeats
    rw [KbdServer.length_pending, Nat.sub_self, List.take_zero]
    exact List.drop_of_length_le (by rw [s.length_pending])

/-- The loop does nothing in such a turn. -/
theorem serveTurn_drain (exit : Option Timeval) (s : KbdServer) (w : World n) :
    serveTurn exit (drainTurn s).toTurn w
      = .ok (w, [.select (loopTimeout exit ClockTime.zero)]) := by
  have hleft : ¬ ((loopTimeout exit ClockTime.zero).isSome = true ∧
      (⟨1, 0⟩ : Timeval) = Timeval.zero) := fun h => absurd h.2 (by decide)
  show (if (loopTimeout exit ClockTime.zero).isSome = true ∧ (⟨1, 0⟩ : Timeval) = Timeval.zero
    then Except.error LoopEnd.timeout
    else do
      let (w, l) ← (readKeyboards (fun _ => false) w.nKbs (fun _ => .again) 0 w).mapError .program
      .ok (w, .select (loopTimeout exit ClockTime.zero) :: l)) = _
  rw [if_neg hleft, readKeyboards_quiet fun _ => rfl]
  rfl

/-- Bytes on their way can arrive, one after the other. -/
theorem receive_all (exit : Option Timeval) (behind : List UInt8) (m : Remote n) :
    ∃ m' log, runRemote exit behind m (List.replicate m.inFlight.length (.receive 1))
        = .ok (m', log) ∧ m'.inFlight = [] ∧ m'.server = m.server ∧ m'.world = m.world ∧
      serverLog log = [] := by
  generalize hcount : m.inFlight.length = count
  induction count generalizing m with
  | zero => exact ⟨m, [], rfl, List.length_eq_zero_iff.mp hcount, rfl, rfl, rfl⟩
  | succ count ih =>
    have hlen : 1 ≤ 1 ∧ 1 ≤ bufferSize / 2 ∧ 1 ≤ m.inFlight.length := ⟨le_rfl, by decide, by omega⟩
    obtain ⟨⟨r, evs⟩, hchunk⟩ :
        ∃ x, readChunk behind (m.inFlight.take 1) m.reader.makeRoom = x := ⟨_, rfl⟩
    have hstep : remoteStep exit behind (.receive 1) m
        = .ok ({ m with inFlight := m.inFlight.drop 1, reader := r },
          .read (.bytes (m.inFlight.take 1)) :: evs.map .wrote) := by
      unfold remoteStep
      simp only [if_pos hlen, hchunk]
    obtain ⟨m', log, hrun, hnil, hserver, hworld, hlog⟩ :=
      ih { m with inFlight := m.inFlight.drop 1, reader := r } (by simp [hcount])
    refine ⟨m', _, Steps.run_cons_ok.mpr ⟨_, _, log, hstep, hrun, rfl⟩, hnil, hserver, hworld, ?_⟩
    rw [serverLog_append, (log_read (n := n) _ evs).1, hlog]
    rfl

/-- **Nothing is stuck.** Wherever a run has come while one client stays and the writes are
    harmless, every event that the server accepted can still be written at the other end, with
    nothing done at the keyboards. -/
theorem remote_drains {exit : Option Timeval} {behind : List UInt8} {m₀ m : Remote n}
    {inputs : List (RemoteInput n)} {log : List (RemoteEffect n)} (hfresh : m₀.Fresh)
    (h : runRemote exit behind m₀ inputs = .ok (m, log)) (htenure : Tenure (serverLog log))
    (hkeeps : KeepsStream (serverLog log)) :
    ∃ more m' log', runRemote exit behind m₀ (inputs ++ more) = .ok (m', log ++ log') ∧
      m'.world = m.world ∧ queuedEvents (serverLog (log ++ log')) = queuedEvents (serverLog log) ∧
      writtenEvents (log ++ log') = queuedEvents (serverLog log) := by
  have hconveyed := runRemote_conveyed hfresh h htenure hkeeps
  obtain ⟨s, l, hhandle, hempty, htenure', hkeeps', hnone⟩ :=
    handleSelect_drain (n := n) hconveyed.client
  -- one turn sends what is pending
  have hturn := serveTurn_drain exit m.server m.world
  have hsilent : m.world.sentSince m.world = [] := by simp [World.sentSince]
  have hstep : remoteStep exit behind (.turn (drainTurn m.server)) m
      = .ok (⟨m.world, s, m.inFlight ++ sentBytes l, m.reader⟩, l.map .server) := by
    unfold remoteStep
    simp only [hhandle, hturn, hsilent, Except.mapError, bind, Except.bind]
    simp [runServer, Steps.run]
  -- and then the bytes arrive
  obtain ⟨m', log', hrun, hflight, hserver, hworld, hlog⟩ :=
    receive_all exit behind ⟨m.world, s, m.inFlight ++ sentBytes l, m.reader⟩
  have hall : runRemote exit behind m₀ (inputs ++ _)
      = .ok (m', log ++ (l.map .server ++ log')) :=
    Steps.run_append_ok.mpr ⟨m, log, _, h, Steps.run_cons_ok.mpr ⟨_, _, _, hstep, hrun, rfl⟩, rfl⟩
  have hserverLog :
      serverLog (log ++ (l.map RemoteEffect.server ++ log')) = serverLog log ++ l := by
    rw [serverLog_append, serverLog_append, hlog, List.append_nil, (log_server l).1]
  have hdone := runRemote_conveyed hfresh hall
    (by rw [hserverLog]; exact List.forall_mem_append.mpr ⟨htenure, htenure'⟩)
    (by
      rw [hserverLog]
      intro client pending len hmem
      rcases List.mem_append.mp hmem with hmem | hmem
      · exact hkeeps client pending len hmem
      · exact hkeeps' client pending len hmem)
  have haccepted : queuedEvents (serverLog (log ++ (l.map RemoteEffect.server ++ log')))
      = queuedEvents (serverLog log) := by
    rw [hserverLog, queuedEvents_append, hnone, List.append_nil]
  have hwritten := hdone.written_all (by rw [hserver]; exact hempty) hflight
  exact ⟨_, m', _, hall, hworld, haccepted, hwritten.trans haccepted⟩

/-- From where only the press has arrived, the release can. -/
theorem remote_drains_release :
    ∃ more m log, runRemote none [] remoteStart (pressReceived ++ more) = .ok (m, log) ∧
      writtenEvents log = queuedEvents (serverLog log) := by
  obtain ⟨m, log, hok, htenure, hkeeps, _⟩ := pressReceived_ok
  obtain ⟨more, m', log', hall, _, hserved, hwritten⟩ :=
    remote_drains remoteStart_fresh hok htenure hkeeps
  exact ⟨more, m', log ++ log', hall, by rw [hwritten, hserved]⟩

end Sdiol
