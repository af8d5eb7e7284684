import Sdiol.Permissions
import Sdiol.Lib.Steps

namespace Sdiol

open Getopt

/-!
# One server for one socket

Any number of processes run `sdiol serve` on the same path.  A process opens the file
`path.lock`, takes a write lock on it without waiting, and while it has the lock it removes what
the path names, binds a new socket there, sets owner and mode, and listens.  `Pc` is the place in
`unix_socket_open`, `main_serve_unix` and `unix_socket_close` that a process has reached, with the
system call it makes there, and `Pc.next` where it goes on when the call succeeds or fails.

`Kernel` is what the kernel keeps: the owner of the lock, the file that the path names, and the
owner, the mode and the state of each process's socket.  `kernelCall` is what a system call does
to it.  Every call may fail at any time; a process may be killed at any time, and its lock and its
socket then go away one after the other in any order; clients may connect at any time.  Nothing
but these processes touches the path and the lock file.
-/

/-! ### The program -/

/-- Where a process is: the call it makes next.  A number is the value to be returned. -/
inductive Pc where
  /-- `unix_socket_open` is about to be called. -/
  | start
  /-- `open(lock, …)` -/
  | openLock
  /-- `fcntl(*lockfd, F_SETLK, …)` with `F_WRLCK` -/
  | setLock
  /-- `unlink(sock)` -/
  | unlink
  /-- `socket(AF_UNIX, …)` -/
  | socket
  /-- `bind(sockfd, …)` -/
  | bind
  /-- `set_file_perms` with what it has still to do -/
  | perms (rest : Perms)
  /-- `listen(sockfd, 5)` -/
  | listen
  /-- `serve_loop` -/
  | serve
  /-- `close(sockfd)` -/
  | closeSock (ret : Int)
  /-- `fcntl(lockfd, F_SETLK, …)` with `F_UNLCK` -/
  | unlock (ret : Int)
  /-- `close(lockfd)` -/
  | closeLock (ret : Int)
  | exited (ret : Int)
  /-- killed, or ended by `exit` or `abort` -/
  | dead
deriving DecidableEq

/-- `UNIX_PATH_MAX` -/
def unixPathMax : Nat := 108

/-- How the next call goes on, where `sock` is the path and `perms` what `set_file_perms` does for
    this process.  `serve_loop` is not a call: it ends with `LockEvent.returns`. -/
def Pc.next (sock : Arg) (perms : Perms) : Pc → Bool → Pc
  | .start, _ => if sock.length ≥ unixPathMax then .exited 1 else .openLock
  | .openLock, ok => if ok then .setLock else .exited 1
  | .setLock, ok => if ok then .unlink else .closeLock 1
  | .unlink, _ => .socket
  | .socket, ok => if ok then .bind else .unlock 1
  | .bind, ok => if ok then .perms perms else .closeSock 1
  | .perms .ok, _ => .listen
  | .perms (.fail _), _ => .closeSock (-1)
  | .perms (.call _ rest), ok => if ok then .perms rest else .closeSock (-1)
  | .listen, ok => if ok then .serve else .closeSock (-1)
  | .closeSock ret, _ => .unlock ret
  | .unlock ret, _ => .closeLock ret
  | .closeLock ret, _ => .exited ret
  | .serve, _ => .serve
  | .exited ret, _ => .exited ret
  | .dead, _ => .dead

/-! ### The kernel -/

/-- Owner, group and mode of a file. -/
structure FileAttrs where
  uid : UInt32
  gid : UInt32
  mode : UInt32
deriving DecidableEq

/-- `chown` leaves what is given as -1, and `chmod` knows twelve bits. -/
def FileAttrs.apply (a : FileAttrs) : FileCall → FileAttrs
  | .chown uid gid =>
    { a with
      uid := if uid = 0xffffffff then a.uid else uid
      gid := if gid = 0xffffffff then a.gid else gid }
  | .chmod mode => { a with mode := mode &&& 0o7777 }

/-- A process that wants to connect: its user and its groups. -/
structure Client where
  uid : UInt32
  gids : List UInt32
deriving DecidableEq

/-- To connect needs the permission to write. -/
def mayConnect (c : Client) (a : FileAttrs) : Bool :=
  c.uid == 0 ||
    (if c.uid = a.uid then a.mode &&& 0o200 != 0
    else if a.gid ∈ c.gids then a.mode &&& 0o020 != 0
    else a.mode &&& 0o002 != 0)

/-- What the path of the socket names. -/
inductive PathEntry (P : Type) where
  | absent
  /-- A file that none of the processes made. -/
  | foreign
  /-- The socket that a process bound. -/
  | socket (p : P)
deriving DecidableEq

/-- The state of the kernel and the processes. -/
structure Kernel (P : Type) where
  pc : P → Pc
  /-- Who has the lock on the lock file. -/
  lock : Option P
  path : PathEntry P
  /-- Owner and mode of a process's socket. -/
  attrs : P → FileAttrs
  /-- Whether a process's socket accepts connections. -/
  listening : P → Bool

/-- What is fixed for a process. -/
structure ServeProc where
  /-- `runopts`, without what only `serve_loop` reads -/
  user : Option Arg
  group : Option Arg
  mode : Option Arg
  /-- Owner, group and mode of a socket that the process binds. -/
  created : FileAttrs

/-- A call that the kernel does not answer so. -/
inductive NotAnswered where
  | mk
deriving DecidableEq

/-- Things that happen. -/
inductive LockEvent (P : Type) where
  /-- A process makes its next call, and it succeeds or fails. -/
  | call (p : P) (ok : Bool)
  /-- `serve_loop` returns. -/
  | returns (p : P) (ret : Int)
  /-- A process ends without doing anything more. -/
  | kill (p : P)
  /-- The kernel closes the lock file of a dead process. -/
  | reapLock (p : P)
  /-- The kernel closes the socket of a dead process. -/
  | reapSock (p : P)
  | connect (c : Client)
deriving DecidableEq

section System

variable {P : Type} [DecidableEq P]

def Kernel.setPc (w : Kernel P) (p : P) (c : Pc) : Kernel P :=
  { w with pc := Function.update w.pc p c }

def Kernel.releaseLock (w : Kernel P) (p : P) : Kernel P :=
  { w with lock := if w.lock = some p then none else w.lock }

def Kernel.setListening (w : Kernel P) (p : P) (listening : Bool) : Kernel P :=
  { w with listening := Function.update w.listening p listening }

/-- What a call of `p` does when it succeeds (`ok`) or fails. -/
def kernelCall (created : FileAttrs) (p : P) (w : Kernel P) :
    Pc → Bool → Except NotAnswered (Kernel P)
  | .setLock, true =>
    if w.lock = none ∨ w.lock = some p then .ok { w with lock := some p } else .error .mk
  | .unlink, true => .ok { w with path := .absent }
  | .bind, true =>
    if w.path = .absent then
      .ok { w with path := .socket p, attrs := Function.update w.attrs p created }
    else .error .mk
  | .perms (.call c _), true =>
    match w.path with
    | .absent => .error .mk
    | .foreign => .ok w
    | .socket q => .ok { w with attrs := Function.update w.attrs q ((w.attrs q).apply c) }
  | .listen, true => .ok (w.setListening p true)
  | .closeSock _, _ => .ok (w.setListening p false)
  | .unlock _, true => .ok (w.releaseLock p)
  -- closing a file gives up the locks on it
  | .closeLock _, _ => .ok (w.releaseLock p)
  | .serve, _ | .exited _, _ | .dead, _ => .error .mk
  | _, _ => .ok w

/-- The mode when there is no `--chmod-socket`. -/
def defaultMode : Arg := bytes "600"

variable (getpwnam getgrnam : Arg → NameLookup)

/-- `set_file_perms` as `main_serve_unix` calls it. -/
def ServeProc.perms (s : ServeProc) : Perms :=
  setFilePerms getpwnam getgrnam s.user s.group (some (s.mode.getD defaultMode))

variable (sock : Arg) (procs : P → ServeProc)

/-- One event, and who connected to which process. -/
def lockStep (e : LockEvent P) (w : Kernel P) :
    Except NotAnswered (Kernel P × List (Client × P)) :=
  match e with
  | .call p ok => do
    let w' ← kernelCall (procs p).created p w (w.pc p) ok
    .ok (w'.setPc p ((w.pc p).next sock ((procs p).perms getpwnam getgrnam) ok), [])
  | .returns p ret =>
    if w.pc p = .serve then .ok (w.setPc p (.closeSock ret), []) else .error .mk
  | .kill p =>
    match w.pc p with
    | .exited _ => .error .mk
    | _ => .ok (w.setPc p .dead, [])
  | .reapLock p => if w.pc p = .dead then .ok (w.releaseLock p, []) else .error .mk
  | .reapSock p => if w.pc p = .dead then .ok (w.setListening p false, []) else .error .mk
  | .connect c =>
    match w.path with
    | .socket q => .ok (w, if w.listening q && mayConnect c (w.attrs q) then [(c, q)] else [])
    | _ => .ok (w, [])

/-- Events one after the other. -/
def runLock (events : List (LockEvent P)) (w : Kernel P) :
    Except NotAnswered (Kernel P × List (Client × P)) :=
  Steps.run (lockStep getpwnam getgrnam sock procs) events w

/-- No process has started, and the path names nothing or anything. -/
structure Kernel.Fresh (w : Kernel P) : Prop where
  pc : ∀ p, w.pc p = .start
  lock : w.lock = none
  path : ∀ p, w.path ≠ .socket p
  listening : ∀ p, w.listening p = false

/-! ### What a place in the program says about the kernel -/

/-- What remains of `set_file_perms`, applied to the attributes of the file; `none` if it fails. -/
@[simp] def Perms.result : Perms → FileAttrs → Option FileAttrs
  | .ok, a => some a
  | .fail _, _ => none
  | .call c next, a => next.result (a.apply c)

/-- Owner and mode that the options ask for. -/
def ServeProc.requested (s : ServeProc) : Option FileAttrs :=
  (s.perms getpwnam getgrnam).result s.created

/-- From the lock to the end of it. -/
@[simp] def Pc.critical : Pc → Bool
  | .unlink | .socket | .bind | .perms _ | .listen | .serve | .closeSock _ | .unlock _ => true
  | _ => false

/-- The lock may still be there. -/
@[simp] def Pc.leaving : Pc → Bool
  | .closeLock _ | .dead => true
  | _ => false

/-- The path names the socket of the process. -/
@[simp] def Pc.bound : Pc → Bool
  | .perms _ | .listen | .serve => true
  | _ => false

/-- The socket can accept connections. -/
@[simp] def Pc.up : Pc → Bool
  | .serve | .closeSock _ | .dead => true
  | _ => false

theorem Pc.critical_of_bound {c : Pc} (h : c.bound = true) : c.critical = true := by
  cases c <;> simp_all

variable {getpwnam getgrnam sock procs}

/-- The invariant of a process at `c`: `lock` and `path` are the kernel's, `a` and `listening`
    are those of its socket, and `req` is what its options ask for. -/
structure AtPc (req : Option FileAttrs) (p : P) (c : Pc) (lock : Option P) (path : PathEntry P)
    (a : FileAttrs) (listening : Bool) : Prop where
  locks : c.critical = true → lock = some p
  leaves : lock = some p → c.critical = true ∨ c.leaving = true
  named : c.bound = true → path = .socket p
  still : ∀ rest, c = .perms rest → rest.result a = req
  ready : c = .listen ∨ c = .serve ∨ listening = true → req = some a
  served : c = .serve → listening = true
  up : listening = true → c.up = true

theorem kernelCall_setLock (created : FileAttrs) (p : P) (w : Kernel P) :
    kernelCall created p w .setLock true =
      if w.lock = none ∨ w.lock = some p then .ok { w with lock := some p } else .error .mk := rfl

theorem kernelCall_bind (created : FileAttrs) (p : P) (w : Kernel P) :
    kernelCall created p w .bind true =
      if w.path = .absent then
        .ok { w with path := .socket p, attrs := Function.update w.attrs p created }
      else .error .mk := rfl

/-- The step of the process itself. -/
theorem AtPc.call {s : ServeProc} {p : P} {w k : Kernel P} {c : Pc} {ok : Bool}
    (h : AtPc (s.requested getpwnam getgrnam) p c w.lock w.path (w.attrs p) (w.listening p))
    (hk : kernelCall s.created p w c ok = .ok k) :
    AtPc (s.requested getpwnam getgrnam) p (c.next sock (s.perms getpwnam getgrnam) ok)
      k.lock k.path (k.attrs p) (k.listening p) := by
  obtain ⟨hlocks, hleaves, hnamed, hstill, hready, hserved, hup⟩ := h
  cases c with
  | start =>
    cases hk
    by_cases hlong : sock.length ≥ unixPathMax
    · rw [show Pc.next sock _ .start ok = .exited 1 from if_pos hlong]
      constructor <;> simp_all
    · rw [show Pc.next sock _ .start ok = .openLock from if_neg hlong]
      constructor <;> simp_all
  | setLock =>
    cases ok with
    | true =>
      rw [kernelCall_setLock] at hk
      split_ifs at hk
      cases hk
      constructor <;> simp_all [Pc.next]
    | false =>
      cases hk
      constructor <;> simp_all [Pc.next]
  | bind =>
    cases ok with
    | true =>
      rw [kernelCall_bind] at hk
      split_ifs at hk
      cases hk
      constructor <;> simp_all [Pc.next, ServeProc.requested]
    | false =>
      cases hk
      constructor <;> simp_all [Pc.next]
  | perms rest =>
    cases rest with
    | call c rest =>
      cases ok with
      | true =>
        -- the path names the socket of this process
        have hpath := hnamed rfl
        simp only [kernelCall, hpath] at hk
        cases hk
        constructor <;> simp_all [Pc.next]
      | false =>
        cases hk
        constructor <;> simp_all [Pc.next]
    | _ =>
      cases hk
      constructor <;> simp_all [Pc.next]
  | serve | exited ret | dead => exact absurd hk (by simp [kernelCall])
  | _ =>
    cases ok <;> cases hk <;> constructor <;>
      simp_all [Pc.next, Kernel.setListening, Kernel.releaseLock]

/-- What a step of another process leaves to `q`. -/
structure Untouched (q : P) (w w' : Kernel P) : Prop where
  pc : w'.pc q = w.pc q
  attrs : w'.attrs q = w.attrs q
  listening : w'.listening q = w.listening q
  lock : w'.lock = some q ↔ w.lock = some q
  path : w.lock = some q → w'.path = w.path

omit [DecidableEq P] in
theorem Untouched.place {req : Option FileAttrs} {q : P} {w w' : Kernel P}
    (h : Untouched q w w')
    (hq : AtPc req q (w.pc q) w.lock w.path (w.attrs q) (w.listening q)) :
    AtPc req q (w'.pc q) w'.lock w'.path (w'.attrs q) (w'.listening q) := by
  rw [h.pc, h.attrs, h.listening]
  refine ⟨fun hc => h.lock.mpr (hq.locks hc), fun hl => hq.leaves (h.lock.mp hl), fun hb => ?_,
    hq.still, hq.ready, hq.served, hq.up⟩
  -- a process whose socket is there has the lock
  rw [h.path (hq.locks (Pc.critical_of_bound hb))]
  exact hq.named hb

omit [DecidableEq P] in
/-- A process that has the lock shares it with no other. -/
theorem AtPc.excludes {req : Option FileAttrs} {p q : P} {c : Pc} {w : Kernel P} {a : FileAttrs}
    {l : Bool} (h : AtPc req p c w.lock w.path a l) (hc : c.critical = true) (hq : q ≠ p) :
    w.lock ≠ some q := by
  rw [h.locks hc]
  exact fun heq => hq (Option.some.inj heq).symm

theorem Kernel.releaseLock_untouched (w : Kernel P) {p q : P} (hq : q ≠ p) :
    Untouched q w (w.releaseLock p) := by
  refine ⟨rfl, rfl, rfl, ?_, fun _ => rfl⟩
  show (if w.lock = some p then none else w.lock) = some q ↔ w.lock = some q
  by_cases hlock : w.lock = some p
  · rw [if_pos hlock, hlock]
    simp [Ne.symm hq]
  · rw [if_neg hlock]

theorem Kernel.setListening_untouched (w : Kernel P) {p q : P} (hq : q ≠ p) (l : Bool) :
    Untouched q w (w.setListening p l) :=
  ⟨rfl, rfl, Function.update_of_ne hq _ _, Iff.rfl, fun _ => rfl⟩

/-- **A call of another process.** -/
theorem kernelCall_untouched {created : FileAttrs} {req : Option FileAttrs} {p q : P}
    {w k : Kernel P} {c : Pc} {ok : Bool} {a : FileAttrs} {l : Bool}
    (h : AtPc req p c w.lock w.path a l)
    (hk : kernelCall created p w c ok = .ok k) (hq : q ≠ p) : Untouched q w k := by
  have hsame : Untouched q w w := ⟨rfl, rfl, rfl, Iff.rfl, fun _ => rfl⟩
  cases c with
  | setLock =>
    cases ok with
    | false =>
      cases hk
      exact hsame
    | true =>
      rw [kernelCall_setLock] at hk
      split_ifs at hk with hfree
      cases hk
      refine ⟨rfl, rfl, rfl, ?_, fun _ => rfl⟩
      rcases hfree with hfree | hfree <;> simp [hfree, Ne.symm hq]
  | unlink =>
    cases ok with
    | false =>
      cases hk
      exact hsame
    | true =>
      cases hk
      exact ⟨rfl, rfl, rfl, Iff.rfl, fun hlock => absurd hlock (h.excludes rfl hq)⟩
  | bind =>
    cases ok with
    | false =>
      cases hk
      exact hsame
    | true =>
      rw [kernelCall_bind] at hk
      split_ifs at hk
      cases hk
      exact ⟨rfl, Function.update_of_ne hq _ _, rfl, Iff.rfl,
        fun hlock => absurd hlock (h.excludes rfl hq)⟩
  | perms rest =>
    cases rest with
    | call c rest =>
      cases ok with
      | false =>
        cases hk
        exact hsame
      | true =>
        have hpath := h.named rfl
        simp only [kernelCall, hpath] at hk
        cases hk
        exact ⟨rfl, Function.update_of_ne hq _ _, rfl, Iff.rfl, fun _ => hpath.symm⟩
    | _ =>
      cases hk
      exact hsame
  | listen =>
    cases ok with
    | false =>
      cases hk
      exact hsame
    | true =>
      cases hk
      exact w.setListening_untouched hq true
  | closeSock ret =>
    cases hk
    exact w.setListening_untouched hq false
  | unlock ret =>
    cases ok with
    | false =>
      cases hk
      exact hsame
    | true =>
      cases hk
      exact w.releaseLock_untouched hq
  | closeLock ret =>
    cases hk
    exact w.releaseLock_untouched hq
  | serve | exited ret | dead => exact absurd hk (by simp [kernelCall])
  | _ =>
    cases hk
    exact hsame

/-! ### Runs -/

/-- The invariant of every process. -/
def Kernel.Safe (getpwnam getgrnam : Arg → NameLookup) (procs : P → ServeProc) (w : Kernel P) :
    Prop :=
  ∀ p, AtPc ((procs p).requested getpwnam getgrnam) p (w.pc p) w.lock w.path (w.attrs p)
    (w.listening p)

/-- Whom an event is about. -/
def LockEvent.proc : LockEvent P → Option P
  | .call p _ | .returns p _ | .kill p | .reapLock p | .reapSock p => some p
  | .connect _ => none

/-- What can happen in a step. -/
theorem lockStep_cases {e : LockEvent P} {w w' : Kernel P} {log : List (Client × P)}
    (h : lockStep getpwnam getgrnam sock procs e w = .ok (w', log)) :
    (∃ p ok k, e = .call p ok ∧ kernelCall (procs p).created p w (w.pc p) ok = .ok k ∧
      w' = k.setPc p ((w.pc p).next sock ((procs p).perms getpwnam getgrnam) ok) ∧ log = []) ∨
    (∃ p ret, e = .returns p ret ∧ w.pc p = .serve ∧ w' = w.setPc p (.closeSock ret) ∧
      log = []) ∨
    (∃ p, e = .kill p ∧ (∀ ret, w.pc p ≠ .exited ret) ∧ w' = w.setPc p .dead ∧ log = []) ∨
    (∃ p, e = .reapLock p ∧ w.pc p = .dead ∧ w' = w.releaseLock p ∧ log = []) ∨
    (∃ p, e = .reapSock p ∧ w.pc p = .dead ∧ w' = w.setListening p false ∧ log = []) ∨
    (∃ c, e = .connect c ∧ w' = w ∧ ∀ x ∈ log, x.1 = c ∧ w.path = .socket x.2 ∧
      w.listening x.2 = true ∧ mayConnect c (w.attrs x.2) = true) := by
  cases e with
  | call p ok =>
    obtain ⟨k, hk, hw⟩ := Steps.bind_eq_ok.mp h
    obtain ⟨rfl, rfl⟩ := Prod.mk.inj (Except.ok.inj hw)
    exact .inl ⟨p, ok, k, rfl, hk, rfl, rfl⟩
  | returns p ret =>
    simp only [lockStep] at h
    split_ifs at h with hserve
    obtain ⟨rfl, rfl⟩ := Prod.mk.inj (Except.ok.inj h)
    exact .inr (.inl ⟨p, ret, rfl, hserve, rfl, rfl⟩)
  | kill p =>
    simp only [lockStep] at h
    split at h
    · exact absurd h (by simp)
    · rename_i hrunning
      obtain ⟨rfl, rfl⟩ := Prod.mk.inj (Except.ok.inj h)
      exact .inr (.inr (.inl ⟨p, rfl, hrunning, rfl, rfl⟩))
  | reapLock p =>
    simp only [lockStep] at h
    split_ifs at h with hdead
    obtain ⟨rfl, rfl⟩ := Prod.mk.inj (Except.ok.inj h)
    exact .inr (.inr (.inr (.inl ⟨p, rfl, hdead, rfl, rfl⟩)))
  | reapSock p =>
    simp only [lockStep] at h
    split_ifs at h with hdead
    obtain ⟨rfl, rfl⟩ := Prod.mk.inj (Except.ok.inj h)
    exact .inr (.inr (.inr (.inr (.inl ⟨p, rfl, hdead, rfl, rfl⟩))))
  | connect c =>
    refine .inr (.inr (.inr (.inr (.inr ⟨c, rfl, ?_⟩))))
    simp only [lockStep] at h
    split at h
    · rename_i q hpath
      obtain ⟨rfl, rfl⟩ := Prod.mk.inj (Except.ok.inj h)
      refine ⟨rfl, fun x hx => ?_⟩
      split_ifs at hx with hup
      · rw [List.mem_singleton.mp hx]
        rw [Bool.and_eq_true] at hup
        exact ⟨rfl, hpath, hup.1, hup.2⟩
      · exact absurd hx (by simp)
    · obtain ⟨rfl, rfl⟩ := Prod.mk.inj (Except.ok.inj h)
      exact ⟨rfl, fun x hx => absurd hx (by simp)⟩

@[simp] theorem Kernel.setPc_self (w : Kernel P) (p : P) (c : Pc) : (w.setPc p c).pc p = c := by
  simp [Kernel.setPc]

theorem Kernel.setPc_untouched (w : Kernel P) {p q : P} (hq : q ≠ p) (c : Pc) :
    Untouched q w (w.setPc p c) :=
  ⟨Function.update_of_ne hq _ _, rfl, rfl, Iff.rfl, fun _ => rfl⟩

omit [DecidableEq P] in
theorem Untouched.trans {q : P} {w w' w'' : Kernel P} (h : Untouched q w w')
    (h' : Untouched q w' w'') : Untouched q w w'' :=
  ⟨h'.pc.trans h.pc, h'.attrs.trans h.attrs, h'.listening.trans h.listening,
    h'.lock.trans h.lock, fun hlock => (h'.path (h.lock.mpr hlock)).trans (h.path hlock)⟩

/-- **A step of another process.** -/
theorem lockStep_untouched {e : LockEvent P} {w w' : Kernel P} {log : List (Client × P)}
    (hsafe : w.Safe getpwnam getgrnam procs)
    (h : lockStep getpwnam getgrnam sock procs e w = .ok (w', log)) {q : P}
    (hq : e.proc ≠ some q) : Untouched q w w' := by
  have hne : ∀ p, e.proc = some p → q ≠ p := by
    rintro p hp rfl
    exact hq hp
  rcases lockStep_cases h with ⟨p, ok, k, rfl, hk, rfl, -⟩ | ⟨p, ret, rfl, -, rfl, -⟩ |
    ⟨p, rfl, -, rfl, -⟩ | ⟨p, rfl, -, rfl, -⟩ | ⟨p, rfl, -, rfl, -⟩ | ⟨c, rfl, rfl, -⟩
  · exact (kernelCall_untouched (hsafe p) hk (hne p rfl)).trans
      (k.setPc_untouched (hne p rfl) _)
  · exact w.setPc_untouched (hne p rfl) _
  · exact w.setPc_untouched (hne p rfl) _
  · exact w.releaseLock_untouched (hne p rfl)
  · exact w.setListening_untouched (hne p rfl) false
  · exact ⟨rfl, rfl, rfl, Iff.rfl, fun _ => rfl⟩

/-- **The process itself.** -/
theorem lockStep_place {e : LockEvent P} {w w' : Kernel P} {log : List (Client × P)}
    (h : lockStep getpwnam getgrnam sock procs e w = .ok (w', log)) {p : P}
    (hp : e.proc = some p)
    (hplace : AtPc ((procs p).requested getpwnam getgrnam) p (w.pc p) w.lock w.path (w.attrs p)
      (w.listening p)) :
    AtPc ((procs p).requested getpwnam getgrnam) p (w'.pc p) w'.lock w'.path (w'.attrs p)
      (w'.listening p) := by
  rcases lockStep_cases h with ⟨q, ok, k, rfl, hk, rfl, -⟩ | ⟨q, ret, rfl, hserve, rfl, -⟩ |
    ⟨q, rfl, -, rfl, -⟩ | ⟨q, rfl, hdead, rfl, -⟩ | ⟨q, rfl, hdead, rfl, -⟩ | ⟨c, rfl, rfl, -⟩
  · cases hp
    rw [Kernel.setPc_self]
    have hcall : AtPc _ p (Pc.next sock _ (w.pc p) ok) k.lock k.path (k.attrs p) (k.listening p) :=
      hplace.call hk
    exact hcall
  · cases hp
    rw [Kernel.setPc_self]
    rw [hserve] at hplace
    obtain ⟨hlocks, hleaves, hnamed, hstill, hready, hserved, hup⟩ := hplace
    constructor <;> simp_all [Kernel.setPc]
  · cases hp
    rw [Kernel.setPc_self]
    obtain ⟨hlocks, hleaves, hnamed, hstill, hready, hserved, hup⟩ := hplace
    constructor <;> simp_all [Kernel.setPc]
  · cases hp
    rw [show (w.releaseLock p).pc p = .dead from hdead]
    rw [hdead] at hplace
    obtain ⟨hlocks, hleaves, hnamed, hstill, hready, hserved, hup⟩ := hplace
    constructor <;> simp_all [Kernel.releaseLock]
  · cases hp
    rw [show (w.setListening p false).pc p = .dead from hdead]
    rw [hdead] at hplace
    obtain ⟨hlocks, hleaves, hnamed, hstill, hready, hserved, hup⟩ := hplace
    constructor <;> simp_all [Kernel.setListening]
  · cases hp

/-- **Step lemma.** -/
theorem lockStep_safe {e : LockEvent P} {w w' : Kernel P} {log : List (Client × P)}
    (hsafe : w.Safe getpwnam getgrnam procs)
    (h : lockStep getpwnam getgrnam sock procs e w = .ok (w', log)) :
    w'.Safe getpwnam getgrnam procs := by
  intro p
  by_cases hp : e.proc = some p
  · exact lockStep_place h hp (hsafe p)
  · exact (lockStep_untouched hsafe h hp).place (hsafe p)

omit [DecidableEq P] in
theorem Kernel.Fresh.safe {w : Kernel P} (h : w.Fresh) : w.Safe getpwnam getgrnam procs := by
  intro p
  rw [h.pc p, h.lock, h.listening p]
  constructor <;> simp

/-- **Run lemma.** -/
theorem runLock_safe {events : List (LockEvent P)} {w w' : Kernel P} {log : List (Client × P)}
    (hsafe : w.Safe getpwnam getgrnam procs)
    (h : runLock getpwnam getgrnam sock procs events w = .ok (w', log)) :
    w'.Safe getpwnam getgrnam procs :=
  Steps.run_inv (fun _ w => w.Safe getpwnam getgrnam procs)
    (fun _ _ _ _ _ _ hw hstep => lockStep_safe hw hstep) hsafe h

/-- **Runs of the others.** -/
theorem runLock_untouched {events : List (LockEvent P)} {w w' : Kernel P}
    {log : List (Client × P)} (hsafe : w.Safe getpwnam getgrnam procs) {q : P}
    (hq : ∀ e ∈ events, e.proc ≠ some q)
    (h : runLock getpwnam getgrnam sock procs events w = .ok (w', log)) : Untouched q w w' :=
  (Steps.run_inv (fun _ v => v.Safe getpwnam getgrnam procs ∧ Untouched q w v)
    (fun e he _ _ _ _ hv hstep => ⟨lockStep_safe hv.1 hstep,
      hv.2.trans (lockStep_untouched hv.1 hstep (hq e he))⟩)
    ⟨hsafe, rfl, rfl, rfl, Iff.rfl, fun _ => rfl⟩ h).2

/-- Who connected was allowed to by the mode that the options ask for. -/
theorem runLock_connected {events : List (LockEvent P)} {w w' : Kernel P}
    {log : List (Client × P)} (hsafe : w.Safe getpwnam getgrnam procs)
    (h : runLock getpwnam getgrnam sock procs events w = .ok (w', log)) :
    ∀ x ∈ log, ∃ a, (procs x.2).requested getpwnam getgrnam = some a ∧ mayConnect x.1 a = true := by
  have hinv := Steps.run_inv (fun (log : List (Client × P)) w => w.Safe getpwnam getgrnam procs ∧
      ∀ x ∈ log, ∃ a, (procs x.2).requested getpwnam getgrnam = some a ∧ mayConnect x.1 a = true)
    (fun e _ log w w' l hw hstep => by
      refine ⟨lockStep_safe hw.1 hstep, fun x hx => ?_⟩
      rcases List.mem_append.mp hx with hx | hx
      · exact hw.2 x hx
      · rcases lockStep_cases hstep with ⟨_, _, _, -, -, -, rfl⟩ | ⟨_, _, -, -, -, rfl⟩ |
          ⟨_, -, -, -, rfl⟩ | ⟨_, -, -, -, rfl⟩ | ⟨_, -, -, -, rfl⟩ | ⟨c, -, -, hlog⟩
        -- only a client that connects is in the log
        iterate 5 exact absurd hx (by simp)
        obtain ⟨rfl, -, hlistening, hmay⟩ := hlog x hx
        exact ⟨_, (hw.1 x.2).ready (.inr (.inr hlistening)), hmay⟩)
    ⟨hsafe, fun x hx => absurd hx (by simp)⟩ h
  exact hinv.2

end System

/-! ### Two processes -/

/-- An unused path. -/
def unusedPath : Kernel Nat :=
  ⟨fun _ => .start, none, .absent, fun _ => ⟨0, 0, 0⟩, fun _ => false⟩

theorem unusedPath_fresh : unusedPath.Fresh :=
  ⟨fun _ => rfl, rfl, by simp [unusedPath], fun _ => rfl⟩

/-- Servers of two users, without options, where no user has a name. -/
def plainProcs (p : Nat) : ServeProc := ⟨none, none, none, ⟨1000 + UInt32.ofNat p, 1000, 0o755⟩⟩

def noNames : Arg → NameLookup := fun _ => .notFound

/-- The first one starts. -/
def firstStarts : List (LockEvent Nat) := List.replicate 9 (.call 0 true)

/-- The second one finds the lock taken; its user and root connect. -/
def secondFails : List (LockEvent Nat) :=
  [.call 1 true, .call 1 true, .call 1 false, .call 1 true, .connect ⟨1001, [1000]⟩,
    .connect ⟨0, []⟩]

theorem firstStarts_run : ∃ w log w' log',
    runLock noNames noNames [115] plainProcs firstStarts unusedPath = .ok (w, log) ∧
      runLock noNames noNames [115] plainProcs secondFails w = .ok (w', log') ∧
      w.pc 0 = .serve ∧ w'.pc 1 = .exited 1 ∧ log' = [(⟨0, []⟩, 0)] := by
  have hcheck : (match runLock noNames noNames [115] plainProcs firstStarts unusedPath with
      | .ok (w, _) =>
        match runLock noNames noNames [115] plainProcs secondFails w with
        | .ok (w', log') => decide (w.pc 0 = .serve ∧ w'.pc 1 = .exited 1 ∧
            log' = [(⟨0, []⟩, 0)])
        | .error _ => false
      | .error _ => false) = true := by decide +kernel
  cases hfirst : runLock noNames noNames [115] plainProcs firstStarts unusedPath with
  | error e =>
    rw [hfirst] at hcheck
    exact absurd hcheck (by simp)
  | ok x =>
    rw [hfirst] at hcheck
    simp only at hcheck
    cases hsecond : runLock noNames noNames [115] plainProcs secondFails x.1 with
    | error e =>
      rw [hsecond] at hcheck
      exact absurd hcheck (by simp)
    | ok y =>
      rw [hsecond] at hcheck
      exact ⟨x.1, x.2, y.1, y.2, rfl, hsecond, of_decide_eq_true hcheck⟩

/-! ### Safety -/

section Safety

variable {P : Type} [DecidableEq P]

/-- **One server.** However the calls of any number of processes are interleaved, fail or are cut
    short by a kill: one process at a time is between the lock and the unlock; the path names
    the socket of the process that serves, which has the requested owner and mode; every client
    that ever connected to a process was allowed to by these; and a process that has returned
    has neither the lock nor a socket. -/
theorem one_server (getpwnam getgrnam : Arg → NameLookup) (sock : Arg) (procs : P → ServeProc)
    (events : List (LockEvent P)) {w w' : Kernel P} {log : List (Client × P)} (hfresh : w.Fresh)
    (h : runLock getpwnam getgrnam sock procs events w = .ok (w', log)) :
    (∀ p q, (w'.pc p).critical = true → (w'.pc q).critical = true → p = q) ∧
    (∀ p, w'.pc p = .serve → w'.path = .socket p ∧ w'.listening p = true ∧
      (procs p).requested getpwnam getgrnam = some (w'.attrs p)) ∧
    (∀ x ∈ log, ∃ a, (procs x.2).requested getpwnam getgrnam = some a ∧
      mayConnect x.1 a = true) ∧
    ∀ p ret, w'.pc p = .exited ret → w'.lock ≠ some p ∧ w'.listening p = false := by
  have hsafe := runLock_safe hfresh.safe h
  refine ⟨fun p q hp hq => ?_, fun p hp => ?_, runLock_connected hfresh.safe h,
    fun p ret hp => ⟨fun hlock => ?_, ?_⟩⟩
  · have hlock := (hsafe p).locks hp
    rw [(hsafe q).locks hq] at hlock
    exact (Option.some.inj hlock).symm
  · exact ⟨(hsafe p).named (by rw [hp]; rfl), (hsafe p).served hp,
      (hsafe p).ready (.inr (.inl hp))⟩
  · have hleaves := (hsafe p).leaves hlock
    rw [hp] at hleaves
    exact absurd hleaves (by simp)
  · have hup := (hsafe p).up
    rw [hp] at hup
    simpa using hup

/-- With two processes. -/
theorem one_server_two : ∃ w log,
    runLock noNames noNames [115] plainProcs (firstStarts ++ secondFails) unusedPath
        = .ok (w, log) ∧
      (⟨0, []⟩, 0) ∈ log ∧ w.pc 1 = .exited 1 ∧ w.listening 1 = false := by
  obtain ⟨w, log, w', log', hfirst, hsecond, -, hexited, rfl⟩ := firstStarts_run
  have hrun := Steps.run_append_ok.mpr ⟨w, log, _, hfirst, hsecond, rfl⟩
  have h := one_server noNames noNames [115] plainProcs _ unusedPath_fresh hrun
  exact ⟨w', _, hrun, by simp, hexited, (h.2.2.2 1 1 hexited).2⟩

/-- **No server is displaced.** While a process serves and is not killed, nothing that other
    processes do, in any number and order, takes the lock or the path from it, and who may
    connect, and only who may, gets a connection to this process. -/
theorem server_undisturbed (getpwnam getgrnam : Arg → NameLookup) (sock : Arg)
    (procs : P → ServeProc) (before after : List (LockEvent P)) {w w' w'' : Kernel P}
    {log log' : List (Client × P)} {p : P} (hfresh : w.Fresh)
    (hbefore : runLock getpwnam getgrnam sock procs before w = .ok (w', log))
    (hserve : w'.pc p = .serve) (hothers : ∀ e ∈ after, e.proc ≠ some p)
    (hafter : runLock getpwnam getgrnam sock procs after w' = .ok (w'', log')) :
    w''.pc p = .serve ∧ w''.lock = some p ∧
      ∃ a, (procs p).requested getpwnam getgrnam = some a ∧
        ∀ c, lockStep getpwnam getgrnam sock procs (.connect c) w'' =
          .ok (w'', if mayConnect c a then [(c, p)] else []) := by
  have hrunning := runLock_safe hfresh.safe hbefore
  have hsafe := runLock_safe hrunning hafter
  have hpc : w''.pc p = .serve := (runLock_untouched hrunning hothers hafter).pc.trans hserve
  have hlock := (hsafe p).locks (by rw [hpc]; rfl)
  have hpath := (hsafe p).named (by rw [hpc]; rfl)
  refine ⟨hpc, hlock, w''.attrs p, (hsafe p).ready (.inr (.inl hpc)), fun c => ?_⟩
  simp only [lockStep, hpath, (hsafe p).served hpc, Bool.true_and]

/-- The second process does not disturb the first one. -/
theorem server_undisturbed_two : ∃ w w' log',
    runLock noNames noNames [115] plainProcs secondFails w = .ok (w', log') ∧
      w.pc 0 = .serve ∧ w'.pc 0 = .serve ∧ w'.lock = some 0 := by
  obtain ⟨w, log, w', log', hfirst, hsecond, hserve, -⟩ := firstStarts_run
  have hothers : ∀ e ∈ secondFails, e.proc ≠ some 0 := by decide
  have h := server_undisturbed noNames noNames [115] plainProcs _ _ unusedPath_fresh hfirst hserve
    hothers hsecond
  exact ⟨w, w', log', hsecond, hserve, h.1, h.2.1⟩

end Safety

/-! ### The next server -/

section Next

variable {P : Type} [DecidableEq P] {getpwnam getgrnam : Arg → NameLookup} {sock : Arg}
  {procs : P → ServeProc}

/-- A run in which `p` makes calls that succeed, and the kernel closes lock files. -/
def Goes (getpwnam getgrnam : Arg → NameLookup) (sock : Arg) (procs : P → ServeProc) (p : P)
    (w w' : Kernel P) : Prop :=
  ∃ events, (∀ e ∈ events, e = .call p true ∨ ∃ q, e = .reapLock q) ∧
    runLock getpwnam getgrnam sock procs events w = .ok (w', [])

theorem Goes.refl (p : P) (w : Kernel P) : Goes getpwnam getgrnam sock procs p w w :=
  ⟨[], by simp, rfl⟩

theorem Goes.step {p : P} {w w' w'' : Kernel P} {e : LockEvent P}
    (h : Goes getpwnam getgrnam sock procs p w w')
    (he : e = .call p true ∨ ∃ q, e = .reapLock q)
    (hstep : lockStep getpwnam getgrnam sock procs e w' = .ok (w'', [])) :
    Goes getpwnam getgrnam sock procs p w w'' := by
  obtain ⟨events, hevents, hrun⟩ := h
  refine ⟨events ++ [e], fun e' he' => ?_, ?_⟩
  · rcases List.mem_append.mp he' with he' | he'
    · exact hevents e' he'
    · rwa [List.mem_singleton.mp he']
  · exact Steps.run_append_ok.mpr ⟨w', [], [], hrun,
      Steps.run_cons_ok.mpr ⟨w'', [], [], hstep, rfl, rfl⟩, rfl⟩

/-- A call that succeeds. -/
theorem Goes.call {p : P} {w w' k : Kernel P} {c : Pc}
    (h : Goes getpwnam getgrnam sock procs p w w') (hc : w'.pc p = c)
    (hk : kernelCall (procs p).created p w' c true = .ok k) :
    ∃ w'', Goes getpwnam getgrnam sock procs p w w'' ∧
      w''.pc p = c.next sock ((procs p).perms getpwnam getgrnam) true ∧
      w''.lock = k.lock ∧ w''.path = k.path ∧ w''.attrs = k.attrs := by
  refine ⟨k.setPc p (c.next sock ((procs p).perms getpwnam getgrnam) true), h.step (.inl rfl) ?_,
    Kernel.setPc_self .., rfl, rfl, rfl⟩
  show (kernelCall (procs p).created p w' (w'.pc p) true >>= fun k => .ok (k.setPc p
    ((w'.pc p).next sock ((procs p).perms getpwnam getgrnam) true), [])) = _
  rw [hc, hk]
  rfl

/-- `set_file_perms` succeeds if the options can be understood. -/
theorem Goes.perms {p : P} {w w' : Kernel P} {rest : Perms} {a : FileAttrs}
    (h : Goes getpwnam getgrnam sock procs p w w') (hpc : w'.pc p = .perms rest)
    (hpath : w'.path = .socket p) (hresult : rest.result (w'.attrs p) = some a) :
    ∃ w'', Goes getpwnam getgrnam sock procs p w w'' ∧ w''.pc p = .listen := by
  induction rest generalizing w' with
  | ok =>
    obtain ⟨w'', hgoes, hlisten, -⟩ := h.call hpc rfl
    exact ⟨w'', hgoes, hlisten⟩
  | fail text => exact absurd hresult (by simp)
  | call c rest ih =>
    have hk : kernelCall (procs p).created p w' (.perms (.call c rest)) true =
        .ok { w' with attrs := Function.update w'.attrs p ((w'.attrs p).apply c) } := by
      simp only [kernelCall, hpath]
    obtain ⟨w'', hgoes, hrest, -, hpath', hattrs⟩ := h.call hpc hk
    refine ih hgoes hrest (hpath'.trans hpath) ?_
    rw [hattrs]
    show rest.result (Function.update w'.attrs p ((w'.attrs p).apply c) p) = some a
    rw [Function.update_self]
    exact hresult

/-- **No lockout.** Whatever happened before, servers that were killed at any place included: if
    no process that runs has the lock, a process whose options can be understood and whose path
    is short enough can start to serve, and then has the lock and the path. -/
theorem next_server (getpwnam getgrnam : Arg → NameLookup) (sock : Arg) (procs : P → ServeProc)
    (events : List (LockEvent P)) {w w' : Kernel P} {log : List (Client × P)} {p : P}
    (hfresh : w.Fresh) (h : runLock getpwnam getgrnam sock procs events w = .ok (w', log))
    (hp : w'.pc p = .start) (hshort : sock.length < unixPathMax)
    (hrequested : ((procs p).requested getpwnam getgrnam).isSome = true)
    (hfree : ∀ q, w'.lock = some q → w'.pc q = .dead) :
    ∃ w'', Goes getpwnam getgrnam sock procs p w' w'' ∧ w''.pc p = .serve ∧
      w''.lock = some p ∧ w''.path = .socket p ∧ w''.listening p = true := by
  -- who still has the lock was killed
  have hreaped : ∃ v, Goes getpwnam getgrnam sock procs p w' v ∧ v.pc p = .start ∧
      v.lock = none := by
    cases hlock : w'.lock with
    | none => exact ⟨w', Goes.refl p w', hp, hlock⟩
    | some q =>
      have hdead := hfree q hlock
      refine ⟨w'.releaseLock q, (Goes.refl p w').step (.inr ⟨q, rfl⟩) (if_pos hdead), hp, ?_⟩
      exact if_pos hlock
  obtain ⟨v, hv, hpc, hlock⟩ := hreaped
  obtain ⟨v₁, h₁, hpc₁, hlock₁, -⟩ := hv.call hpc rfl
  rw [show Pc.next sock _ .start true = .openLock from if_neg (by omega)] at hpc₁
  obtain ⟨v₂, h₂, hpc₂, hlock₂, -⟩ := h₁.call hpc₁ rfl
  have hnone : v₂.lock = none := hlock₂.trans (hlock₁.trans hlock)
  obtain ⟨v₃, h₃, hpc₃, -⟩ := h₂.call hpc₂ (if_pos (.inl hnone))
  obtain ⟨v₄, h₄, hpc₄, -, hpath₄, -⟩ := h₃.call hpc₃ rfl
  obtain ⟨v₅, h₅, hpc₅, -, hpath₅, -⟩ := h₄.call hpc₄ rfl
  have habsent : v₅.path = .absent := hpath₅.trans hpath₄
  obtain ⟨v₆, h₆, hpc₆, -, hpath₆, hattrs₆⟩ := h₅.call hpc₅ (if_pos habsent)
  obtain ⟨a, ha⟩ := Option.isSome_iff_exists.mp hrequested
  have hresult : ((procs p).perms getpwnam getgrnam).result (v₆.attrs p) = some a := by
    rw [hattrs₆]
    show ((procs p).perms getpwnam getgrnam).result
      (Function.update v₅.attrs p (procs p).created p) = some a
    rw [Function.update_self]
    exact ha
  obtain ⟨v₇, h₇, hpc₇⟩ := h₆.perms hpc₆ hpath₆ hresult
  obtain ⟨v₈, h₈, hpc₈, -⟩ := h₇.call hpc₇ rfl
  have hserve : v₈.pc p = .serve := hpc₈
  -- the run up to here is one of several processes, and so is safe
  obtain ⟨more, -, hmore⟩ := id h₈
  have hsafe := runLock_safe hfresh.safe (Steps.run_append_ok.mpr ⟨w', log, [], h, hmore, rfl⟩) p
  exact ⟨v₈, h₈, hserve, hsafe.locks (by rw [hserve]; rfl), hsafe.named (by rw [hserve]; rfl),
    hsafe.served hserve⟩

/-- The first server is killed while it has the lock, before it binds its socket. -/
theorem next_server_killed : ∃ w w', runLock noNames noNames [115] plainProcs
      (List.replicate 5 (.call 0 true) ++ [.kill 0]) unusedPath = .ok (w, []) ∧
    w.lock = some 0 ∧ Goes noNames noNames [115] plainProcs 1 w w' ∧ w'.pc 1 = .serve ∧
    w'.lock = some 1 := by
  obtain ⟨w, hrun, hlock, hzero⟩ : ∃ w, runLock noNames noNames [115] plainProcs
      (List.replicate 5 (.call 0 true) ++ [.kill 0]) unusedPath = .ok (w, []) ∧
      w.lock = some 0 ∧ w.pc 0 = .dead := ⟨_, rfl, rfl, rfl⟩
  have hothers : ∀ q, q ≠ 0 → w.pc q = .start := by
    intro q hq
    have hsafe : unusedPath.Safe noNames noNames plainProcs := unusedPath_fresh.safe
    have hevents : ∀ e ∈ List.replicate 5 (LockEvent.call 0 true) ++ [.kill 0],
        e.proc ≠ some q := by
      simp [LockEvent.proc, Ne.symm hq]
    exact (runLock_untouched hsafe hevents hrun).pc
  have hfree : ∀ q, w.lock = some q → w.pc q = .dead := by
    intro q hq
    cases hlock.symm.trans hq
    exact hzero
  have hrequested : ((plainProcs 1).requested noNames noNames).isSome = true := by
    decide +kernel
  obtain ⟨w', hgoes, hserve, hlocked, -⟩ := next_server noNames noNames [115] plainProcs _
    unusedPath_fresh hrun (hothers 1 (by decide)) (by decide) hrequested hfree
  exact ⟨w, w', hrun, hlock, hgoes, hserve, hlocked⟩

end Next

end Sdiol
