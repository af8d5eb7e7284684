import Sdiol.Resolver

namespace Sdiol

/-!
# The resolver over a plain queue

The ring `(unresolved, ur_start, ur_len)` is a list that is consumed at both ends.
`PlainResolver` is the resolver with that list as its queue, and `plainResolve` is `resolve`
on it: it pops the head or removes the last element and does nothing else to the queue
(`plainResolve_queue`).  `resolve_plain` and `runResolver_plain` say that the ring resolver is
this one, call by call and over whole runs, with the same effects.

`plainResolve` takes the treatment of the newest event as an argument, so that the resolver
can be compared with one that leaves releases in the queue.  The source's own treatment is
`earlyRelease`.
-/

/-- The resolver with a list as its queue. -/
structure PlainResolver extends KeyState where
  queue : List InputEvent

/-- What to do with the newest event while the oldest is unresolved. -/
abbrev EarlyBranch := KeyState → InputEvent → Option (KeyState × List Effect)

/-- `resolve` over a plain queue. -/
def plainResolve (early : EarlyBranch) (now : Timeval) (p : PlainResolver) :
    Except Abort (Bool × PlainResolver × List Effect) :=
  match p.queue with
  | [] => .ok (false, p, [])
  | ev :: rest => do
    let s := { p.toKeyState with useResolvableTime := false }
    let (resolved, s, log) ← resolveEvent s now ev rest
    if resolved then .ok (true, ⟨s, rest⟩, log)
    else
      match early s ((ev :: rest).getLast (List.cons_ne_nil _ _)) with
      | some (s, log') => .ok (false, ⟨s, (ev :: rest).dropLast⟩, log ++ log')
      | none => .ok (false, ⟨s, ev :: rest⟩, log)

/-- `serveEvent` over a plain queue of bounded or unbounded capacity. -/
def plainEvent (early : EarlyBranch) (capacity : Option Nat) (clk : Nat → Timeval)
    (ev : InputEvent) (p : PlainResolver) : Except Abort (PlainResolver × List Effect) := do
  let (pass, s) ← resolveDedupInput p.toKeyState ev
  if pass then
    if capacity = some p.queue.length then .error .overflow
    else
      let queue := p.queue ++ [ev]
      let (p, log) ← Steps.loop (plainResolve early) (queue.length + 1) clk ⟨s, queue⟩
      .ok (p, .arrive ev :: log)
  else .ok (⟨s, p.queue⟩, [])

/-- A run of the plain resolver from its initial state. -/
def runPlain (early : EarlyBranch) (capacity : Option Nat) (root : KeyAction)
    (inputs : List Reading) : Except Abort (PlainResolver × List Effect) :=
  Steps.run (fun (i : Reading) => plainEvent early capacity i.clk i.ev) inputs
    ⟨KeyState.init root, []⟩

/-- The queue is only ever popped at the head or shortened at the end. -/
theorem plainResolve_queue {early : EarlyBranch} {now : Timeval} {p p' : PlainResolver} {b : Bool}
    {l : List Effect} (h : plainResolve early now p = .ok (b, p', l)) :
    p'.queue = p.queue ∨ p'.queue = p.queue.tail ∨ p'.queue = p.queue.dropLast := by
  unfold plainResolve at h
  split at h
  · cases h
    exact .inl rfl
  · rename_i ev rest hq
    obtain ⟨⟨resolved, s, log⟩, _, h⟩ := Steps.bind_eq_ok.mp h
    rw [hq]
    simp only at h
    split at h
    · cases h
      exact .inr (.inl rfl)
    · split at h
      · cases h
        exact .inr (.inr rfl)
      · cases h
        exact .inl rfl

/-- No call of `resolve` queues an event. -/
theorem mem_of_plainResolve {early : EarlyBranch} {now : Timeval} {p p' : PlainResolver} {b : Bool}
    {l : List Effect} (h : plainResolve early now p = .ok (b, p', l)) {e : InputEvent}
    (he : e ∈ p'.queue) : e ∈ p.queue := by
  rcases plainResolve_queue h with hq | hq | hq
  · exact hq ▸ he
  · exact List.mem_of_mem_tail (hq ▸ he)
  · exact List.mem_of_mem_dropLast (hq ▸ he)

/-! ### The ring is a plain queue -/

/-- The list of events the ring represents. -/
def Resolver.queue (r : Resolver) : List InputEvent :=
  RingBuffer.contents urMax r.unresolved r.urStart r.urLen

/-- The plain resolver a ring resolver represents. -/
def Resolver.plain (r : Resolver) : PlainResolver := ⟨r.toKeyState, r.queue⟩

@[simp] theorem Resolver.length_queue (r : Resolver) : r.queue.length = r.urLen :=
  RingBuffer.length_contents ..

@[simp] theorem Resolver.plain_toKeyState (r : Resolver) : r.plain.toKeyState = r.toKeyState := rfl

@[simp] theorem Resolver.plain_queue (r : Resolver) : r.plain.queue = r.queue := rfl

/-- A nonempty ring: its oldest event, and the events `check_waveform` is given. -/
theorem Resolver.queue_cons {r : Resolver} (h : r.urLen ≠ 0) :
    r.queue = r.unresolved (r.urStart % urMax) :: r.queued := by
  have hlen : r.urLen = r.urLen - 1 + 1 := by omega
  unfold Resolver.queue Resolver.queued
  rw [RingBuffer.contents_rest, ← RingBuffer.contents_succ, ← hlen]

/-- A nonempty ring: its newest event, and what is left without it. -/
theorem Resolver.queue_concat {r : Resolver} (h : r.urLen ≠ 0) :
    r.queue = RingBuffer.contents urMax r.unresolved r.urStart (r.urLen - 1)
      ++ [r.unresolved ((r.urStart + r.urLen - 1) % urMax)] := by
  have hlen : r.urLen = r.urLen - 1 + 1 := by omega
  have hlast : r.urStart + r.urLen - 1 = r.urStart + (r.urLen - 1) := by omega
  rw [hlast, ← RingBuffer.contents_succ_last, ← hlen]
  rfl

/-- **One call.** `resolve` on the ring is `plainResolve` on the list it represents. -/
theorem resolve_plain (now : Timeval) (r : Resolver) :
    (resolve now r).map (Prod.map id (Prod.map Resolver.plain id))
      = plainResolve earlyRelease now r.plain := by
  by_cases hlen : r.urLen = 0
  · have hq : r.plain.queue = [] := by
      rw [Resolver.plain_queue, ← List.length_eq_zero_iff, Resolver.length_queue, hlen]
    unfold resolve plainResolve
    rw [if_pos hlen, hq]
    rfl
  · -- the first and the last cell of the ring are the ends of the list
    have hcons := Resolver.queue_cons hlen
    have hlast := Resolver.queue_concat hlen
    have hrest : RingBuffer.contents urMax r.unresolved ((r.urStart + 1) % urMax) (r.urLen - 1)
        = r.queued := by
      rw [← RingBuffer.contents_rest]
      rfl
    unfold resolve plainResolve
    rw [if_neg hlen, Resolver.plain_queue, hcons]
    simp only [Resolver.plain_toKeyState]
    cases hres : resolveEvent { r.toKeyState with useResolvableTime := false } now
        (r.unresolved (r.urStart % urMax)) r.queued with
    | error e => rfl
    | ok x =>
      obtain ⟨resolved, s, log⟩ := x
      cases resolved with
      | true =>
        simp only [bind, Except.bind, Except.map, if_true, Prod.map, id]
        rw [show Resolver.plain { r with toKeyState := s
                                         urLen := r.urLen - 1
                                         urStart := (r.urStart + 1) % urMax }
          = ⟨s, r.queued⟩ from by rw [← hrest]; rfl]
      | false =>
        simp only [bind, Except.bind, Bool.false_eq_true, if_false]
        have hnewest : (r.unresolved (r.urStart % urMax) :: r.queued).getLast
            (List.cons_ne_nil _ _) = r.unresolved ((r.urStart + r.urLen - 1) % urMax) := by
          simp only [← hcons, hlast, List.getLast_append_singleton]
        have hdrop : (r.unresolved (r.urStart % urMax) :: r.queued).dropLast
            = RingBuffer.contents urMax r.unresolved r.urStart (r.urLen - 1) := by
          rw [← hcons, hlast, List.dropLast_concat]
        rw [hnewest, hdrop, ← hcons]
        cases earlyRelease s (r.unresolved ((r.urStart + r.urLen - 1) % urMax)) with
        | none => rfl
        | some y => rfl

theorem resolve_plain_ok {now : Timeval} {r r' : Resolver} {b : Bool} {l : List Effect}
    (h : resolve now r = .ok (b, r', l)) :
    plainResolve earlyRelease now r.plain = .ok (b, r'.plain, l) := by
  rw [← resolve_plain, h]
  rfl

/-- The bounds of the ring. -/
def Resolver.InBounds (r : Resolver) : Prop := r.urStart < urMax ∧ r.urLen ≤ urMax

theorem resolve_inBounds {now : Timeval} {r r' : Resolver} {b : Bool} {l : List Effect}
    (h : resolve now r = .ok (b, r', l)) (hr : r.InBounds) : r'.InBounds := by
  obtain ⟨hstart, hlen⟩ := hr
  have hmod : (r.urStart + 1) % urMax < urMax := Nat.mod_lt _ (by decide)
  unfold resolve at h
  split at h
  · cases h
    exact ⟨hstart, hlen⟩
  · obtain ⟨⟨resolved, s, log⟩, _, h⟩ := Steps.bind_eq_ok.mp h
    simp only at h
    split at h
    · cases h
      exact ⟨hmod, by simp only; omega⟩
    · split at h
      · cases h
        exact ⟨hstart, by simp only; omega⟩
      · cases h
        exact ⟨hstart, hlen⟩

theorem serveEvent_inBounds {clk : Nat → Timeval} {ev : InputEvent} {r r' : Resolver}
    {l : List Effect} (hr : r.InBounds) (h : serveEvent clk ev r = .ok (r', l)) :
    r'.InBounds := by
  obtain ⟨hstart, hlen⟩ := hr
  unfold serveEvent at h
  obtain ⟨⟨pass, s⟩, _, h⟩ := Steps.bind_eq_ok.mp h
  simp only at h
  split at h
  · split at h
    · exact absurd h (by simp)
    · rename_i hfull
      obtain ⟨⟨r₁, log⟩, hloop, h⟩ := Steps.bind_eq_ok.mp h
      cases h
      refine Steps.loop_inv (fun _ r => r.InBounds) ?_ [] ?_ hloop
      · exact fun _ _ _ _ _ _ hr hstep => resolve_inBounds hstep hr
      · exact ⟨hstart, by simp only; omega⟩
  · cases h
    exact ⟨hstart, hlen⟩

/-- **One event.** `serveEvent` on the ring is `plainEvent` with capacity `URMAX`. -/
theorem serveEvent_plain (clk : Nat → Timeval) (ev : InputEvent) {r : Resolver}
    (hr : r.InBounds) :
    (serveEvent clk ev r).map (Prod.map Resolver.plain id)
      = plainEvent earlyRelease (some urMax) clk ev r.plain := by
  unfold serveEvent plainEvent
  rw [Resolver.plain_toKeyState, Resolver.plain_queue, Resolver.length_queue]
  cases resolveDedupInput r.toKeyState ev with
  | error e => rfl
  | ok x =>
    obtain ⟨pass, s⟩ := x
    cases pass with
    | false => rfl
    | true =>
      simp only [bind, Except.bind, if_true]
      by_cases hfull : r.urLen = urMax
      · rw [if_pos hfull, if_pos (by rw [hfull])]
        rfl
      · have hlen : r.urLen < urMax := by
          have := hr.2
          omega
        have hne : ¬ some urMax = some r.urLen := by
          intro h
          exact hfull (Option.some.inj h).symm
        rw [if_neg hfull, if_neg hne]
        -- writing behind the last cell is appending to the list
        have hpush : Resolver.plain { r with
            toKeyState := s
            unresolved := Function.update r.unresolved ((r.urStart + r.urLen) % urMax) ev
            urLen := r.urLen + 1 } = ⟨s, r.queue ++ [ev]⟩ := by
          simp only [Resolver.plain, Resolver.queue, RingBuffer.contents_push _ _ _ _ _ hlen]
        have hloop := Steps.loop_map Resolver.plain resolve_plain (r.urLen + 1 + 1) clk
          { r with toKeyState := s
                   unresolved := Function.update r.unresolved ((r.urStart + r.urLen) % urMax) ev
                   urLen := r.urLen + 1 }
        rw [hpush] at hloop
        have hfuel : (r.queue ++ [ev]).length + 1 = r.urLen + 1 + 1 := by simp
        rw [hfuel, ← hloop]
        cases Steps.loop resolve (r.urLen + 1 + 1) clk _ <;> rfl

theorem resolverInit_inBounds (root : KeyAction) : (resolverInit root).InBounds :=
  ⟨show 0 < urMax by decide, Nat.zero_le _⟩

theorem runResolver_inBounds {root : KeyAction} {inputs : List Reading} {r : Resolver}
    {log : List Effect} (h : runResolver root inputs = .ok (r, log)) : r.InBounds :=
  Steps.run_inv (fun _ r => r.InBounds)
    (fun _ _ _ _ _ _ hr hstep => serveEvent_inBounds hr hstep) (resolverInit_inBounds root) h

/-- **Whole runs.** A run of the ring resolver is a run of the plain one, with the same
    effects and the same failures. -/
theorem runResolver_plain (root : KeyAction) (inputs : List Reading) :
    (runResolver root inputs).map (Prod.map Resolver.plain id)
      = runPlain earlyRelease (some urMax) root inputs :=
  Steps.run_map Resolver.plain Resolver.InBounds
    (fun _ _ _ _ hr hstep => serveEvent_inBounds hr hstep)
    (fun i _ hr => serveEvent_plain i.clk i.ev hr) inputs (resolverInit_inBounds root)

/-- The run of the plain resolver behind a successful run of the ring resolver. -/
theorem runPlain_of_runResolver {root : KeyAction} {inputs : List Reading} {r : Resolver}
    {log : List Effect} (h : runResolver root inputs = .ok (r, log)) :
    runPlain earlyRelease (some urMax) root inputs = .ok (r.plain, log) := by
  rw [← runResolver_plain, h]
  rfl

end Sdiol
