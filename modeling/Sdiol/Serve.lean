import Sdiol.Trace

namespace Sdiol

/-!
# Several grabs, one output

`serve_loop` keeps a resolver for each grab of the configuration and one `send_dedup_t` that
all of them send through.  `serveStep` is its treatment of one event read from a keyboard; the
effects are logged with the grab they belong to.

* `serve_grab` — seen from one grab, a run of `serve_loop` is a run of its resolver;
* `serve_pressCountMap` — the counts of the shared filter are the clamped counters run over
  everything that was sent;
* `serve_inv` — the induction over runs of all grabs together;
* `serve_total` — no run fails, except that a queue may overflow.
-/

variable {n : Nat}

/-! ### The state of `serve_loop` -/

/-- The resolvers of the `n` grabs, the filter they share, and what it forwarded to
    `app.send`. -/
structure ServeState (n : Nat) where
  resolvers : Fin n → Resolver
  deduper : SendDedup
  output : List InputEvent

/-- An event read from a keyboard of `grab`. -/
structure GrabReading (n : Nat) extends Reading where
  grab : Fin n

/-- The grab of a configuration that has one. -/
def soleGrab : Fin 1 := 0

/-- `serve_loop` before its first event. -/
def serveInit (roots : Fin n → KeyAction) : ServeState n where
  resolvers := fun g => resolverInit (roots g)
  deduper := SendDedup.init
  output := []

/-- What `serve_loop` does with one event.  The resolver never looks at the filter, so what it
    sends is filtered after it has returned. -/
def serveStep (i : GrabReading n) (s : ServeState n) :
    Except Abort (ServeState n × List (Fin n × Effect)) := do
  let (r, log) ← serveEvent i.clk i.ev (s.resolvers i.grab)
  let (d, out) ← sendAll (sends log) s.deduper
  .ok (⟨Function.update s.resolvers i.grab r, d, s.output ++ out⟩, log.map (Prod.mk i.grab))

/-- A run of `serve_loop`. -/
def serve (roots : Fin n → KeyAction) (inputs : List (GrabReading n)) :
    Except Abort (ServeState n × List (Fin n × Effect)) :=
  Steps.run serveStep inputs (serveInit roots)

/-! ### The log of one grab, the sends of all -/

/-- The effects that belong to grab `g`. -/
def logOf (g : Fin n) (log : List (Fin n × Effect)) : List Effect :=
  log.filterMap fun x => if x.1 = g then some x.2 else none

/-- The inputs that belong to grab `g`. -/
def inputsOf (g : Fin n) (inputs : List (GrabReading n)) : List Reading :=
  inputs.filterMap fun i => if i.grab = g then some i.toReading else none

/-- The events given to `send_dedup` by any of the resolvers, in order. -/
def allSends (log : List (Fin n × Effect)) : List InputEvent := sends (log.map Prod.snd)

@[simp] theorem logOf_append (g : Fin n) (l₁ l₂ : List (Fin n × Effect)) :
    logOf g (l₁ ++ l₂) = logOf g l₁ ++ logOf g l₂ := List.filterMap_append

@[simp] theorem logOf_map_self (g : Fin n) (l : List Effect) :
    logOf g (l.map (Prod.mk g)) = l := by
  simp [logOf, List.filterMap_map]

theorem logOf_map_of_ne {g j : Fin n} (h : j ≠ g) (l : List Effect) :
    logOf g (l.map (Prod.mk j)) = [] := by
  simp [logOf, h]

@[simp] theorem allSends_append (l₁ l₂ : List (Fin n × Effect)) :
    allSends (l₁ ++ l₂) = allSends l₁ ++ allSends l₂ := by
  simp [allSends]

@[simp] theorem allSends_map (g : Fin n) (l : List Effect) :
    allSends (l.map (Prod.mk g)) = sends l := by
  simp [allSends, Function.comp_def]

/-- One event handled: what the grab's resolver did, and what became of the filter. -/
theorem serveStep_ok {i : GrabReading n} {s s' : ServeState n} {l : List (Fin n × Effect)}
    (h : serveStep i s = .ok (s', l)) :
    ∃ r log d out, serveEvent i.clk i.ev (s.resolvers i.grab) = .ok (r, log) ∧
      sendAll (sends log) s.deduper = .ok (d, out) ∧
      s' = ⟨Function.update s.resolvers i.grab r, d, s.output ++ out⟩ ∧
      l = log.map (Prod.mk i.grab) := by
  unfold serveStep at h
  obtain ⟨⟨r, log⟩, hr, h⟩ := Steps.bind_eq_ok.mp h
  obtain ⟨⟨d, out⟩, hd, h⟩ := Steps.bind_eq_ok.mp h
  cases h
  exact ⟨r, log, d, out, hr, hd, rfl, rfl⟩

/-- From any state on, a grab sees the events of its own keyboards. -/
theorem run_serveStep_grab (g : Fin n) {inputs : List (GrabReading n)} {s₀ s : ServeState n}
    {log : List (Fin n × Effect)} (h : Steps.run serveStep inputs s₀ = .ok (s, log)) :
    Steps.run (fun (i : Reading) => serveEvent i.clk i.ev) (inputsOf g inputs) (s₀.resolvers g)
      = .ok (s.resolvers g, logOf g log) := by
  induction inputs generalizing s₀ log with
  | nil =>
    obtain ⟨rfl, rfl⟩ := Steps.run_nil_ok.mp h
    rfl
  | cons i inputs ih =>
    obtain ⟨s₁, l₁, l₂, h₁, h₂, rfl⟩ := Steps.run_cons_ok.mp h
    obtain ⟨r, l, d, out, hr, _, rfl, rfl⟩ := serveStep_ok h₁
    have hrest := ih h₂
    by_cases hg : i.grab = g
    · subst hg
      have hinputs : inputsOf i.grab (i :: inputs) = i.toReading :: inputsOf i.grab inputs := by
        simp [inputsOf]
      simp only [Function.update_self] at hrest
      rw [hinputs, logOf_append, logOf_map_self]
      exact Steps.run_cons_ok.mpr ⟨r, l, _, hr, hrest, rfl⟩
    · -- an event of another grab
      have hinputs : inputsOf g (i :: inputs) = inputsOf g inputs := by
        simp [inputsOf, hg]
      simp only [Function.update_of_ne (Ne.symm hg)] at hrest
      rw [hinputs, logOf_append, logOf_map_of_ne hg, List.nil_append]
      exact hrest

/-- **One grab.** Seen from a grab, a run of `serve_loop` is a run of its resolver on the
    events of its keyboards. -/
theorem serve_grab {roots : Fin n → KeyAction} {inputs : List (GrabReading n)}
    {s : ServeState n} {log : List (Fin n × Effect)} (h : serve roots inputs = .ok (s, log))
    (g : Fin n) :
    runResolver (roots g) (inputsOf g inputs) = .ok (s.resolvers g, logOf g log) :=
  run_serveStep_grab g h

/-- The run of the plain resolver of a grab. -/
theorem serve_grab_plain {roots : Fin n → KeyAction} {inputs : List (GrabReading n)}
    {s : ServeState n} {log : List (Fin n × Effect)} (h : serve roots inputs = .ok (s, log))
    (g : Fin n) :
    runPlain earlyRelease (some urMax) (roots g) (inputsOf g inputs)
      = .ok ((s.resolvers g).plain, logOf g log) :=
  runPlain_of_runResolver (serve_grab h g)

/-- **The shared counts.** The count of `c` is the clamped counter over everything sent. -/
theorem serve_pressCountMap {roots : Fin n → KeyAction} {inputs : List (GrabReading n)}
    {s : ServeState n} {log : List (Fin n × Effect)} (h : serve roots inputs = .ok (s, log))
    (c : KeyCode) : s.deduper.pressCountMap c
      = (keyEdges c (allSends log)).foldl Counter.bump 0 := by
  refine Steps.run_inv (fun log (s : ServeState n) =>
    s.deduper.pressCountMap c = (keyEdges c (allSends log)).foldl Counter.bump 0) ?_ rfl h
  intro i _ log s s' l hs hstep
  obtain ⟨r, l, d, out, _, hd, rfl, rfl⟩ := serveStep_ok hstep
  rw [allSends_append, allSends_map, keyEdges_append, List.foldl_append, ← hs]
  exact sendAll_pressCountMap hd c

/-! ### Induction over runs -/

/-- The plain resolvers the rings represent. -/
def ServeState.plain (s : ServeState n) (g : Fin n) : PlainResolver := (s.resolvers g).plain

section Invariants

variable (Inv : List (Fin n × Effect) → (Fin n → PlainResolver) → Prop)
  (Good : InputEvent → Prop)
  (hdrop : ∀ log ps g ev s, Inv log ps →
    resolveDedupInput (ps g).toKeyState ev = .ok (false, s) →
    Inv log (Function.update ps g ⟨s, (ps g).queue⟩))
  (harrive : ∀ log ps g ev s, Inv log ps → Good ev →
    resolveDedupInput (ps g).toKeyState ev = .ok (true, s) →
    Inv (log ++ [(g, .arrive ev)]) (Function.update ps g ⟨s, (ps g).queue ++ [ev]⟩))
  (hresolve : ∀ now log ps g b p' l, Inv log ps →
    plainResolve earlyRelease now (ps g) = .ok (b, p', l) →
    Inv (log ++ l.map (Prod.mk g)) (Function.update ps g p'))

include hdrop harrive hresolve

/-- **Run invariants of all grabs.** What survives each kind of step of any one grab holds
    after a run. -/
theorem serve_inv {roots : Fin n → KeyAction} {inputs : List (GrabReading n)}
    {s : ServeState n} {log : List (Fin n × Effect)} (hgood : ∀ i ∈ inputs, Good i.ev)
    (hinit : Inv [] fun g => ⟨KeyState.init (roots g), []⟩)
    (h : serve roots inputs = .ok (s, log)) : Inv log s.plain := by
  have hstart : Inv [] (serveInit roots).plain := hinit
  have hboth : Inv log s.plain ∧ ∀ g, (s.resolvers g).InBounds := by
    refine Steps.run_inv (fun log (s : ServeState n) =>
      Inv log s.plain ∧ ∀ g, (s.resolvers g).InBounds) ?_
      ⟨hstart, fun g => resolverInit_inBounds (roots g)⟩ h
    rintro i hi log s s' l ⟨hs, hb⟩ hstep
    obtain ⟨r, l, d, out, hr, _, rfl, rfl⟩ := serveStep_ok hstep
    refine ⟨?_, fun g => ?_⟩
    · -- the event is one of the plain resolver, whose steps the other grabs do not see
      have hplain := serveEvent_plain i.clk i.ev (hb i.grab)
      rw [hr] at hplain
      have hupdate : ServeState.plain
          ⟨Function.update s.resolvers i.grab r, d, s.output ++ out⟩
            = Function.update s.plain i.grab r.plain := by
        funext g
        by_cases hg : g = i.grab
        · subst hg; simp [ServeState.plain]
        · simp [ServeState.plain, hg]
      rw [hupdate]
      refine plainEvent_inv (fun l p => Inv (log ++ l.map (Prod.mk i.grab))
        (Function.update s.plain i.grab p)) Good ?_ ?_ ?_ [] ?_ (hgood i hi) hplain.symm
      · intro l p ev s₁ hp hd
        have := hdrop _ _ i.grab ev s₁ hp (by simpa using hd)
        simpa using this
      · intro l p ev s₁ hp hev ha
        have := harrive _ _ i.grab ev s₁ hp hev (by simpa using ha)
        simpa using this
      · intro now l p b p' l' hp hstep
        have := hresolve now _ _ i.grab b p' l' hp (by simpa using hstep)
        simpa using this
      · show Inv (log ++ []) (Function.update s.plain i.grab (s.plain i.grab))
        rw [List.append_nil, Function.update_eq_self]
        exact hs
    · by_cases hg : g = i.grab
      · subst hg
        simp only [Function.update_self]
        exact serveEvent_inBounds (hb i.grab) hr
      · simp only [Function.update_of_ne hg]
        exact hb g
  exact hboth.1

end Invariants

/-- A step of grab `g` leaves what is known of the other grabs alone. -/
theorem forall_update {I : List Effect → PlainResolver → Prop} {log : List (Fin n × Effect)}
    {ps : Fin n → PlainResolver} (h : ∀ j, I (logOf j log) (ps j)) {g : Fin n} {l : List Effect}
    {p : PlainResolver} (hg : I (logOf g log ++ l) p) (j : Fin n) :
    I (logOf j (log ++ l.map (Prod.mk g))) (Function.update ps g p j) := by
  rw [logOf_append]
  by_cases hj : j = g
  · subst hj
    rw [logOf_map_self, Function.update_self]
    exact hg
  · rw [logOf_map_of_ne (Ne.symm hj), List.append_nil, Function.update_of_ne hj]
    exact h j

/-- A step of grab `g` changes the stake of that grab only. -/
theorem stakes_update (stake : List Effect → PlainResolver → Nat) (log : List (Fin n × Effect))
    (ps : Fin n → PlainResolver) (g : Fin n) (l : List Effect) (p : PlainResolver) :
    (fun j => stake (logOf j (log ++ l.map (Prod.mk g))) (Function.update ps g p j))
      = Function.update (fun j => stake (logOf j log) (ps j)) g (stake (logOf g log ++ l) p) := by
  funext j
  rw [logOf_append]
  by_cases hj : j = g
  · subst hj
    rw [logOf_map_self, Function.update_self, Function.update_self]
  · rw [logOf_map_of_ne (Ne.symm hj), List.append_nil, Function.update_of_ne hj,
      Function.update_of_ne hj]

/-! ### No run fails -/

section Progress

variable {P : DualConfig → Prop}

theorem Acted.sends_inRange {s s' : KeyState} {ev : InputEvent} {k : KeyCode} {ka : KeyAction}
    {l : List Effect} (h : Acted s ev k ka s' l) : ∀ e ∈ Sdiol.sends l, CodeInRange e := by
  have hcode : ∀ (c : KeyCode) (e : InputEvent), e.code = codeOf c → CodeInRange e := by
    intro c e he _
    rw [he, codeOf_toNat]
    exact c.isLt
  intro e he
  rw [h.sends] at he
  cases h with
  | simple c =>
    obtain rfl : e = { ev with code := codeOf c } := by simpa [actionSends] using he
    exact hcode c _ rfl
  | chain ch =>
    obtain ⟨m, _, hm⟩ : ∃ m ∈ ch, e ∈ macroSends m := by simpa [actionSends] using he
    rcases List.mem_pair.mp hm with rfl | rfl
    · exact hcode m.code _ rfl
    · intro hkey
      exact absurd hkey (by decide)
  | layer map => simp [actionSends] at he

/-- Whatever handling the oldest event sends has a code that `send_dedup` can count. -/
theorem Handled.sends_inRange {s s' : KeyState} {now : Timeval} {ev : InputEvent}
    {queued : List InputEvent} {b : Bool} {l : List Effect}
    (h : Handled s now ev queued b s' l) (hs : Ready P s) : ∀ e ∈ sends l, CodeInRange e := by
  -- what `release_map` has, other than `RESET_KEYMAP`, is a code of some key
  have hmapped : ∀ (k : KeyCode), s.releaseMap k ≠ resetKeymap →
      CodeInRange { ev with code := s.releaseMap k } := by
    intro k hne _
    exact (hs.codes k).resolve_left hne
  cases h with
  | ignored _ => intro e he; simp [sends] at he
  | passed hkey =>
    intro e he htype
    obtain rfl : e = ev := by simpa [sends] using he
    exact absurd htype hkey
  | repeated k _ _ hmap _ =>
    intro e he
    obtain rfl : e = { ev with code := s.releaseMap k } := by simpa [sends] using he
    exact hmapped k hmap
  | releasedLayer _ _ _ _ => intro e he; simp [sends] at he
  | releasedNothing _ _ _ _ => intro e he; simp [sends] at he
  | releasedCode k _ _ hmap _ =>
    intro e he
    obtain rfl : e = { ev with code := s.releaseMap k } := by simpa [sends] using he
    exact hmapped k hmap
  | pressed _ _ hchosen hacted =>
    rw [sends_append, hchosen.sends, List.nil_append]
    exact hacted.sends_inRange
  | waiting _ _ _ _ => intro e he; simp [sends] at he

theorem earlyRelease_sends_inRange {s s' : KeyState} {ev : InputEvent} {l : List Effect}
    (h : earlyRelease s ev = some (s', l)) (hs : Ready P s) :
    ∀ e ∈ sends l, CodeInRange e := by
  obtain ⟨k, _, _, ⟨_, _, rfl⟩ | ⟨hmap, _, _, rfl⟩⟩ := earlyRelease_eq_some h
  · intro e he
    simp [sends] at he
  · intro e he
    have he' : e = { ev with code := s.releaseMap k } ∨ e = synEvent := by
      simpa [sends] using he
    rcases he' with rfl | rfl
    · intro _
      exact (hs.codes k).resolve_left hmap
    · intro hkey
      exact absurd hkey (by decide)

theorem plainResolve_sends_inRange {now : Timeval} {p p' : PlainResolver} {b : Bool}
    {l : List Effect} (hp : Ready P p.toKeyState)
    (h : plainResolve earlyRelease now p = .ok (b, p', l)) : ∀ e ∈ sends l, CodeInRange e := by
  have hs : Ready P { p.toKeyState with useResolvableTime := false } := hp.of_eq rfl rfl rfl
  rcases plainResolve_cases h with ⟨_, _, _, rfl⟩ | ⟨ev, rest, s', _, _, _, hh⟩ |
    ⟨ev, rest, newest, s₁, l₁, _, _, _, hh, ⟨_, _, rfl⟩ | ⟨s₂, l₂, hearly, _, rfl⟩⟩
  · intro e he
    simp [sends] at he
  · exact hh.sends_inRange hs
  · exact hh.sends_inRange hs
  · -- the oldest event waits, and the newest is taken
    intro e he
    rw [sends_append] at he
    rcases List.mem_append.mp he with he | he
    · exact hh.sends_inRange hs e he
    · exact earlyRelease_sends_inRange hearly (hh.ready hs) e he

/-- A state that cannot fail, reached by sending only what `send_dedup` can count. -/
structure SendsInRange (P : DualConfig → Prop) (log : List Effect) (p : PlainResolver) :
    Prop where
  ready : RunReady P p
  sent : ∀ e ∈ sends log, CodeInRange e

theorem SendsInRange.drop {log : List Effect} {p : PlainResolver} {ev : InputEvent}
    {s : KeyState} (hp : SendsInRange P log p)
    (h : resolveDedupInput p.toKeyState ev = .ok (false, s)) : SendsInRange P log ⟨s, p.queue⟩ :=
  ⟨hp.ready.dedup h, hp.sent⟩

theorem SendsInRange.arrive {log : List Effect} {p : PlainResolver} {ev : InputEvent}
    {s : KeyState} (hp : SendsInRange P log p) (hev : CodeInRange ev)
    (h : resolveDedupInput p.toKeyState ev = .ok (true, s)) :
    SendsInRange P (log ++ [.arrive ev]) ⟨s, p.queue ++ [ev]⟩ := by
  refine ⟨(hp.ready.dedup h).push hev, ?_⟩
  rw [sends_append]
  simpa [sends] using hp.sent

theorem SendsInRange.resolve {log : List Effect} {now : Timeval} {p p' : PlainResolver} {b : Bool}
    {l : List Effect} (hp : SendsInRange P log p)
    (h : plainResolve earlyRelease now p = .ok (b, p', l)) : SendsInRange P (log ++ l) p' := by
  refine ⟨plainResolve_runReady h hp.ready, fun e he => ?_⟩
  rw [sends_append] at he
  rcases List.mem_append.mp he with he | he
  · exact hp.sent e he
  · exact plainResolve_sends_inRange hp.ready.1 h e he

theorem plainEvent_sends_inRange {capacity : Option Nat} {clk : Nat → Timeval} {ev : InputEvent}
    {p p' : PlainResolver} {l : List Effect} (hp : RunReady P p) (hev : CodeInRange ev)
    (h : plainEvent earlyRelease capacity clk ev p = .ok (p', l)) :
    ∀ e ∈ sends l, CodeInRange e :=
  (plainEvent_inv (SendsInRange P) CodeInRange (fun _ _ _ _ hp hd => hp.drop hd)
    (fun _ _ _ _ hp hev ha => hp.arrive hev ha) (fun _ _ _ _ _ _ hp hstep => hp.resolve hstep)
    [] ⟨hp, by simp [sends]⟩ hev h).sent

/-- Whatever a run sends can be counted by `send_dedup`. -/
theorem runPlain_sends_inRange {capacity : Option Nat} {root : KeyAction}
    (hmap : root.isMap = true) (hroot : root.Usable P) {inputs : List Reading}
    (hin : ∀ i ∈ inputs, CodeInRange i.ev) {p : PlainResolver} {log : List Effect}
    (h : runPlain earlyRelease capacity root inputs = .ok (p, log)) :
    ∀ e ∈ sends log, CodeInRange e :=
  (runPlain_inv (SendsInRange P) CodeInRange (fun _ _ _ _ hp hd => hp.drop hd)
    (fun _ _ _ _ hp hev ha => hp.arrive hev ha) (fun _ _ _ _ _ _ hp hstep => hp.resolve hstep)
    hin ⟨⟨ready_init hmap hroot, by simp⟩, by simp [sends]⟩ h).sent

theorem inputsOf_inRange {inputs : List (GrabReading n)} (hin : ∀ i ∈ inputs, CodeInRange i.ev)
    (g : Fin n) : ∀ i ∈ inputsOf g inputs, CodeInRange i.ev := by
  intro i hi
  obtain ⟨j, hj, hsome⟩ := List.mem_filterMap.mp hi
  split at hsome
  · cases hsome
    exact hin j hj
  · exact absurd hsome (by simp)

/-- Whatever a grab sends is among the sends of all. -/
theorem mem_sends_of_mem_allSends {log : List (Fin n × Effect)} {e : InputEvent}
    (h : e ∈ allSends log) : ∃ g, e ∈ sends (logOf g log) := by
  obtain ⟨x, hx, hsome⟩ := List.mem_filterMap.mp h
  obtain ⟨⟨g, y⟩, hy, rfl⟩ := List.mem_map.mp hx
  exact ⟨g, List.mem_filterMap.mpr ⟨y, List.mem_filterMap.mpr ⟨(g, y), hy, if_pos rfl⟩, hsome⟩⟩

/-- Whatever is sent through the shared filter can be counted by it. -/
theorem serve_sends_inRange {roots : Fin n → KeyAction} (hmap : ∀ g, (roots g).isMap = true)
    (hroots : ∀ g, (roots g).Usable P) {inputs : List (GrabReading n)}
    (hin : ∀ i ∈ inputs, CodeInRange i.ev) {s : ServeState n} {log : List (Fin n × Effect)}
    (h : serve roots inputs = .ok (s, log)) : ∀ e ∈ allSends log, CodeInRange e := by
  intro e he
  obtain ⟨g, hg⟩ := mem_sends_of_mem_allSends he
  exact runPlain_sends_inRange (hmap g) (hroots g) (inputsOf_inRange hin g)
    (serve_grab_plain h g) e hg

/-- What the totality of a run of all grabs rests on. -/
def ServeReady (P : DualConfig → Prop) (s : ServeState n) : Prop :=
  ∀ g, RunReady P (s.plain g) ∧ (s.resolvers g).InBounds

theorem serveInit_ready {roots : Fin n → KeyAction} (hmap : ∀ g, (roots g).isMap = true)
    (hroots : ∀ g, (roots g).Usable P) : ServeReady P (serveInit roots) := by
  intro g
  have hempty : (resolverInit (roots g)).queue = [] := rfl
  refine ⟨⟨ready_init (hmap g) (hroots g), ?_⟩, resolverInit_inBounds (roots g)⟩
  show ∀ ev ∈ (resolverInit (roots g)).queue, CodeInRange ev
  rw [hempty]
  exact fun ev hev => absurd hev (by simp)

theorem serveStep_total {i : GrabReading n} (hi : CodeInRange i.ev) {s : ServeState n}
    (hs : ServeReady P s) :
    (∃ e, serveStep i s = .error e ∧ e = .overflow) ∨
      ∃ s' l, serveStep i s = .ok (s', l) ∧ ServeReady P s' := by
  have hplain := serveEvent_plain i.clk i.ev (hs i.grab).2
  cases hr : serveEvent i.clk i.ev (s.resolvers i.grab) with
  -- the resolver fails, which it does only because its queue is full
  | error e =>
    rw [hr] at hplain
    refine .inl ⟨e, by simp [serveStep, hr, bind, Except.bind], ?_⟩
    rcases plainEvent_total i.clk hi (hs i.grab).1 with ⟨e', he', rfl⟩ | ⟨p', l, hp, _⟩
    · exact Except.error.inj (hplain.trans he')
    · exact absurd (hplain.trans hp) (by simp [Except.map])
  | ok x =>
    obtain ⟨r, l⟩ := x
    rw [hr] at hplain
    have hevent : plainEvent earlyRelease (some urMax) i.clk i.ev (s.resolvers i.grab).plain
        = .ok (r.plain, l) := hplain.symm
    -- what the resolver sends is in range, so that the filter does not fail
    obtain ⟨d, out, hd⟩ :=
      sendAll_total (plainEvent_sends_inRange (hs i.grab).1 hi hevent) s.deduper
    have hstep : serveStep i s = .ok (⟨Function.update s.resolvers i.grab r, d,
        s.output ++ out⟩, l.map (Prod.mk i.grab)) := by
      unfold serveStep
      simp only [hr, hd, bind, Except.bind]
    refine .inr ⟨_, _, hstep, fun g => ?_⟩
    by_cases hg : g = i.grab
    · subst hg
      simp only [ServeState.plain, Function.update_self]
      refine ⟨?_, serveEvent_inBounds (hs i.grab).2 hr⟩
      rcases plainEvent_total i.clk hi (hs i.grab).1 with ⟨e', he', _⟩ | ⟨p', l', hp, h⟩
      · exact absurd (hevent.symm.trans he') (by simp)
      · have hfst : r.plain = p' := congrArg Prod.fst (Except.ok.inj (hevent.symm.trans hp))
        rw [hfst]
        exact h
    · simp only [ServeState.plain, Function.update_of_ne hg]
      exact hs g

/-- **No run of `serve_loop` fails** on key codes below `KEY_MAX`, except that the queue of a
    grab may overflow. -/
theorem serve_total {roots : Fin n → KeyAction} (hmap : ∀ g, (roots g).isMap = true)
    (hroots : ∀ g, (roots g).Usable P) {inputs : List (GrabReading n)}
    (hin : ∀ i ∈ inputs, CodeInRange i.ev) :
    serve roots inputs = .error .overflow ∨ ∃ s log, serve roots inputs = .ok (s, log) := by
  rcases Steps.run_progress (ServeReady P) (fun e => e = Abort.overflow)
      (fun i hi s hs => serveStep_total (hin i hi) hs) (serveInit_ready hmap hroots) with
      ⟨e, he, rfl⟩ | ⟨s, log, h, _⟩
  · exact .inl he
  · exact .inr ⟨s, log, h⟩

end Progress

end Sdiol
