import Mathlib.Data.List.Basic

namespace Steps

/-!
# Runs of a fallible step that writes a log

A *step* takes an input and a state and either fails or returns a new state together with
the log of what it did.  Two ways of iterating a step are needed:

* `run step is s` — one step for each input of a list, the logs appended;
* `loop step fuel clk s` — repeat a step that also answers "go on?" until it answers no,
  reading the `i`-th external input `clk i` in iteration `i`.

For each there is one induction rule (`run_inv`, `loop_inv`): an invariant of the *log so
far* and the state that one step preserves holds at the end.  `loop_exit` adds that with
enough fuel the last iteration is one that answered no, and `run_append` splits a run.

`RunAll` and `LoopAll` put a condition on the states in which a particular run starts its
steps; `run_inv_all` and `loop_inv_all` are the induction rules for steps that keep the
invariant where the condition holds.
-/

universe u

variable {ε σ τ ι : Type*}

/-- Two computations in sequence succeed exactly when both do. -/
theorem bind_eq_ok {α β : Type u} {x : Except ε α} {f : α → Except ε β} {b : β} :
    (x >>= f) = .ok b ↔ ∃ a, x = .ok a ∧ f a = .ok b := by
  cases x with
  | error e => simp [bind, Except.bind]
  | ok a => simp [bind, Except.bind]

/-- A computation whose result has a known image has a result. -/
theorem map_eq_ok {α β : Type u} {x : Except ε α} {f : α → β} {b : β} (h : x.map f = .ok b) :
    ∃ a, x = .ok a ∧ f a = b := by
  cases x with
  | error e => exact absurd h (by simp [Except.map])
  | ok a => exact ⟨a, rfl, Except.ok.inj h⟩

/-- Renaming the errors changes no result. -/
theorem mapError_eq_ok {ε' : Type*} {α : Type u} {x : Except ε α} {f : ε → ε'} {a : α} :
    x.mapError f = .ok a ↔ x = .ok a := by
  cases x with
  | error e => simp [Except.mapError]
  | ok b => simp [Except.mapError]

/-- One step for each input, the logs appended. -/
def run (step : ι → σ → Except ε (σ × List τ)) : List ι → σ → Except ε (σ × List τ)
  | [], s => .ok (s, [])
  | i :: is, s => do
      let (s', l) ← step i s
      let (s'', l') ← run step is s'
      .ok (s'', l ++ l')

/-- Repeat a step while it answers `true`; iteration `i` reads `clk i`. -/
def loop (step : ι → σ → Except ε (Bool × σ × List τ)) :
    Nat → (Nat → ι) → σ → Except ε (σ × List τ)
  | 0, _, s => .ok (s, [])
  | fuel + 1, clk, s => do
      let (again, s', l) ← step (clk 0) s
      if again then
        let (s'', l') ← loop step fuel (fun i => clk (i + 1)) s'
        .ok (s'', l ++ l')
      else .ok (s', l)

section Run

variable {step : ι → σ → Except ε (σ × List τ)}

theorem run_nil_ok {s s' : σ} {l : List τ} : run step [] s = .ok (s', l) ↔ s' = s ∧ l = [] := by
  simp [run, eq_comm]

theorem run_cons_ok {i : ι} {is : List ι} {s s' : σ} {l : List τ} :
    run step (i :: is) s = .ok (s', l) ↔
      ∃ s₁ l₁ l₂, step i s = .ok (s₁, l₁) ∧ run step is s₁ = .ok (s', l₂) ∧ l = l₁ ++ l₂ := by
  simp only [run, bind_eq_ok, Prod.exists, Except.ok.injEq, Prod.mk.injEq]
  constructor
  · rintro ⟨s₁, l₁, h₁, s₂, l₂, h₂, rfl, rfl⟩
    exact ⟨s₁, l₁, l₂, h₁, h₂, rfl⟩
  · rintro ⟨s₁, l₁, l₂, h₁, h₂, rfl⟩
    exact ⟨s₁, l₁, h₁, s', l₂, h₂, rfl, rfl⟩

/-- A run over `is ++ js` is a run over `is` followed by a run over `js`. -/
theorem run_append_ok {is js : List ι} {s s' : σ} {l : List τ} :
    run step (is ++ js) s = .ok (s', l) ↔
      ∃ s₁ l₁ l₂, run step is s = .ok (s₁, l₁) ∧ run step js s₁ = .ok (s', l₂) ∧ l = l₁ ++ l₂ := by
  induction is generalizing s l with
  | nil =>
    simp only [List.nil_append, run_nil_ok]
    constructor
    · intro h
      exact ⟨s, [], l, ⟨rfl, rfl⟩, h, rfl⟩
    · rintro ⟨s₁, l₁, l₂, ⟨rfl, rfl⟩, h, rfl⟩
      exact h
  | cons i is ih =>
    simp only [List.cons_append, run_cons_ok, ih]
    constructor
    · rintro ⟨s₁, l₁, _, h₁, ⟨s₂, l₂, l₃, h₂, h₃, rfl⟩, rfl⟩
      exact ⟨s₂, l₁ ++ l₂, l₃, ⟨s₁, l₁, l₂, h₁, h₂, rfl⟩, h₃, (List.append_assoc ..).symm⟩
    · rintro ⟨s₂, _, l₃, ⟨s₁, l₁, l₂, h₁, h₂, rfl⟩, h₃, rfl⟩
      exact ⟨s₁, l₁, l₂ ++ l₃, h₁, ⟨s₂, l₂, l₃, h₂, h₃, rfl⟩, List.append_assoc ..⟩

/-- What one step preserves, a run preserves, whatever was logged before it. -/
theorem run_inv_from (Inv : List τ → σ → Prop) {is : List ι}
    (hstep : ∀ i ∈ is, ∀ log s s' l, Inv log s → step i s = .ok (s', l) → Inv (log ++ l) s')
    (log : List τ) {s s' : σ} {l : List τ} (hs : Inv log s)
    (hrun : run step is s = .ok (s', l)) : Inv (log ++ l) s' := by
  induction is generalizing log s l with
  | nil =>
    obtain ⟨rfl, rfl⟩ := run_nil_ok.mp hrun
    simpa using hs
  | cons i is ih =>
    obtain ⟨s₁, l₁, l₂, h₁, h₂, rfl⟩ := run_cons_ok.mp hrun
    rw [← List.append_assoc]
    exact ih (fun j hj => hstep j (List.mem_cons_of_mem _ hj)) _
      (hstep i List.mem_cons_self _ _ _ _ hs h₁) h₂

/-- **Run rule.** What holds of the empty log and one step preserves holds after a run. -/
theorem run_inv (Inv : List τ → σ → Prop) {is : List ι}
    (hstep : ∀ i ∈ is, ∀ log s s' l, Inv log s → step i s = .ok (s', l) → Inv (log ++ l) s')
    {s s' : σ} {l : List τ} (hs : Inv [] s) (hrun : run step is s = .ok (s', l)) : Inv l s' :=
  run_inv_from Inv hstep [] hs hrun

/-- An entry of the log of a run was logged by one of its steps. -/
theorem mem_run {is : List ι} {s s' : σ} {l : List τ} {x : τ} (hrun : run step is s = .ok (s', l))
    (hx : x ∈ l) : ∃ js i ks s₁ l₁ s₂ l₂, is = js ++ i :: ks ∧ run step js s = .ok (s₁, l₁) ∧
      step i s₁ = .ok (s₂, l₂) ∧ run step (js ++ [i]) s = .ok (s₂, l₁ ++ l₂) ∧ x ∈ l₂ := by
  induction is generalizing s l with
  | nil =>
    obtain ⟨rfl, rfl⟩ := run_nil_ok.mp hrun
    exact absurd hx (by simp)
  | cons i is ih =>
    obtain ⟨s₁, l₁, l₂, h₁, h₂, rfl⟩ := run_cons_ok.mp hrun
    rcases List.mem_append.mp hx with hx | hx
    · have hone : run step ([] ++ [i]) s = .ok (s₁, [] ++ l₁) :=
        run_cons_ok.mpr ⟨s₁, l₁, [], h₁, rfl, (List.append_nil l₁).symm⟩
      exact ⟨[], i, is, s, [], s₁, l₁, rfl, rfl, h₁, hone, hx⟩
    · obtain ⟨js, j, ks, t₁, m₁, t₂, m₂, rfl, hjs, hj, hjj, hx⟩ := ih h₂ hx
      refine ⟨i :: js, j, ks, t₁, l₁ ++ m₁, t₂, m₂, rfl, ?_, hj, ?_, hx⟩
      · exact run_cons_ok.mpr ⟨s₁, l₁, m₁, h₁, hjs, rfl⟩
      · rw [List.append_assoc]
        exact run_cons_ok.mpr ⟨s₁, l₁, m₁ ++ m₂, h₁, hjj, rfl⟩

/-- **Progress rule.** If the step never fails from states that satisfy an invariant it
    preserves, except with an error in `Stop`, then neither does a run. -/
theorem run_progress (Inv : σ → Prop) (Stop : ε → Prop) {is : List ι}
    (hstep : ∀ i ∈ is, ∀ s, Inv s →
      (∃ e, step i s = .error e ∧ Stop e) ∨ ∃ s' l, step i s = .ok (s', l) ∧ Inv s')
    {s : σ} (hs : Inv s) :
    (∃ e, run step is s = .error e ∧ Stop e) ∨ ∃ s' l, run step is s = .ok (s', l) ∧ Inv s' := by
  induction is generalizing s with
  | nil => exact .inr ⟨s, [], rfl, hs⟩
  | cons i is ih =>
    rcases hstep i List.mem_cons_self s hs with ⟨e, he, hstop⟩ | ⟨s₁, l₁, h₁, hs₁⟩
    · exact .inl ⟨e, by simp [run, he, bind, Except.bind], hstop⟩
    · rcases ih (fun j hj => hstep j (List.mem_cons_of_mem _ hj)) hs₁ with
        ⟨e, he, hstop⟩ | ⟨s₂, l₂, h₂, hs₂⟩
      · exact .inl ⟨e, by simp [run, h₁, he, bind, Except.bind], hstop⟩
      · exact .inr ⟨s₂, l₁ ++ l₂, by simp [run, h₁, h₂, bind, Except.bind], hs₂⟩

/-- **Run refinement.** If, from states that satisfy an invariant the step keeps, a step and
    its image under `f` agree, then so do their runs. -/
theorem run_map {σ' : Type*} {step' : ι → σ' → Except ε (σ' × List τ)} (f : σ → σ')
    (Inv : σ → Prop) (hinv : ∀ i s s' l, Inv s → step i s = .ok (s', l) → Inv s')
    (hmap : ∀ i s, Inv s → (step i s).map (Prod.map f id) = step' i (f s))
    (is : List ι) {s : σ} (hs : Inv s) :
    (run step is s).map (Prod.map f id) = run step' is (f s) := by
  induction is generalizing s with
  | nil => rfl
  | cons i is ih =>
    have hi := hmap i s hs
    cases hstep : step i s with
    | error e =>
      rw [hstep] at hi
      simp [run, hstep, ← hi, bind, Except.bind, Except.map]
    | ok x =>
      obtain ⟨s₁, l₁⟩ := x
      rw [hstep] at hi
      have hrec := ih (hinv _ _ _ _ hs hstep)
      simp only [run, hstep, ← hi, bind, Except.bind, Except.map, Prod.map, id] at hrec ⊢
      rw [← hrec]
      cases run step is s₁ <;> rfl

/-- **Run simulation.** If a step from one of two related states is matched by a step from the
    other, so that the states stay related and the logs of the two steps are related, then a
    run is matched by a run. -/
theorem run_sim {σ' τ' : Type*} {step' : ι → σ' → Except ε (σ' × List τ')}
    (R : List τ → σ → σ' → Prop) (T : List τ → List τ' → Prop) (hnil : T [] [])
    (happend : ∀ l₁ l₂ l₁' l₂', T l₁ l₁' → T l₂ l₂' → T (l₁ ++ l₂) (l₁' ++ l₂')) {is : List ι}
    (hstep : ∀ i ∈ is, ∀ log s s₁ l s', R log s s' → step i s = .ok (s₁, l) →
      ∃ s₁' l', step' i s' = .ok (s₁', l') ∧ R (log ++ l) s₁ s₁' ∧ T l l')
    {log : List τ} {s s₁ : σ} {l : List τ} {s' : σ'} (hR : R log s s')
    (hrun : run step is s = .ok (s₁, l)) :
    ∃ s₁' l', run step' is s' = .ok (s₁', l') ∧ R (log ++ l) s₁ s₁' ∧ T l l' := by
  induction is generalizing log s l s' with
  | nil =>
    obtain ⟨rfl, rfl⟩ := run_nil_ok.mp hrun
    exact ⟨s', [], rfl, by rwa [List.append_nil], hnil⟩
  | cons i is ih =>
    obtain ⟨s₂, l₁, l₂, h₁, h₂, rfl⟩ := run_cons_ok.mp hrun
    obtain ⟨s₂', l₁', h₁', hR₁, hT₁⟩ := hstep i List.mem_cons_self _ _ _ _ _ hR h₁
    obtain ⟨s₁', l₂', h₂', hR₂, hT₂⟩ :=
      ih (fun j hj => hstep j (List.mem_cons_of_mem _ hj)) hR₁ h₂
    refine ⟨s₁', l₁' ++ l₂', run_cons_ok.mpr ⟨s₂', l₁', l₂', h₁', h₂', rfl⟩, ?_,
      happend _ _ _ _ hT₁ hT₂⟩
    rwa [← List.append_assoc]

/-- A run whose log satisfies `Q` is a run of any step that agrees where `Q` holds. -/
theorem run_congr (step' : ι → σ → Except ε (σ × List τ)) (Q : τ → Prop)
    (hstep : ∀ i s s' l, step i s = .ok (s', l) → (∀ x ∈ l, Q x) → step' i s = .ok (s', l))
    {is : List ι} {s s' : σ} {l : List τ} (hrun : run step is s = .ok (s', l))
    (hl : ∀ x ∈ l, Q x) : run step' is s = .ok (s', l) := by
  induction is generalizing s l with
  | nil => exact run_nil_ok.mpr (run_nil_ok.mp hrun)
  | cons i is ih =>
    obtain ⟨s₁, l₁, l₂, h₁, h₂, rfl⟩ := run_cons_ok.mp hrun
    refine run_cons_ok.mpr ⟨s₁, l₁, l₂, hstep _ _ _ _ h₁ fun x hx => hl x ?_, ih h₂ fun x hx =>
      hl x ?_, rfl⟩
    · exact List.mem_append_left _ hx
    · exact List.mem_append_right _ hx

end Run

section Loop

variable {step : ι → σ → Except ε (Bool × σ × List τ)}

theorem loop_succ_ok {fuel : Nat} {clk : Nat → ι} {s s' : σ} {l : List τ} :
    loop step (fuel + 1) clk s = .ok (s', l) ↔
      step (clk 0) s = .ok (false, s', l) ∨
      ∃ s₁ l₁ l₂, step (clk 0) s = .ok (true, s₁, l₁) ∧
        loop step fuel (fun i => clk (i + 1)) s₁ = .ok (s', l₂) ∧ l = l₁ ++ l₂ := by
  simp only [loop, bind_eq_ok, Prod.exists]
  constructor
  · rintro ⟨again, s₁, l₁, h₁, h⟩
    cases again with
    | false =>
      simp only [Bool.false_eq_true, if_false, Except.ok.injEq, Prod.mk.injEq] at h
      obtain ⟨rfl, rfl⟩ := h
      exact .inl h₁
    | true =>
      simp only [if_true, bind_eq_ok, Prod.exists, Except.ok.injEq, Prod.mk.injEq] at h
      obtain ⟨s₂, l₂, h₂, rfl, rfl⟩ := h
      exact .inr ⟨s₁, l₁, l₂, h₁, h₂, rfl⟩
  · rintro (h | ⟨s₁, l₁, l₂, h₁, h₂, rfl⟩)
    · exact ⟨false, s', l, h, by simp⟩
    · refine ⟨true, s₁, l₁, h₁, ?_⟩
      simp only [if_true, bind_eq_ok, Prod.exists, Except.ok.injEq, Prod.mk.injEq]
      exact ⟨s', l₂, h₂, rfl, rfl⟩

/-- **Loop rule.** What one iteration preserves, the loop preserves. -/
theorem loop_inv (Inv : List τ → σ → Prop)
    (hstep : ∀ i again log s s' l, Inv log s → step i s = .ok (again, s', l) → Inv (log ++ l) s')
    {fuel : Nat} {clk : Nat → ι} (log : List τ) {s s' : σ} {l : List τ} (hs : Inv log s)
    (hloop : loop step fuel clk s = .ok (s', l)) : Inv (log ++ l) s' := by
  induction fuel generalizing clk log s l with
  | zero =>
    simp only [loop, Except.ok.injEq, Prod.mk.injEq] at hloop
    obtain ⟨rfl, rfl⟩ := hloop
    simpa using hs
  | succ fuel ih =>
    rcases loop_succ_ok.mp hloop with h | ⟨s₁, l₁, l₂, h₁, h₂, rfl⟩
    · exact hstep _ _ _ _ _ _ hs h
    · rw [← List.append_assoc]
      exact ih _ (hstep _ _ _ _ _ _ hs h₁) h₂

/-- **Exit rule.** If every iteration that answers `true` lowers a measure and there is more
    fuel than the measure, the loop ends with an iteration that answers `false`; the
    invariant holds where that iteration starts. -/
theorem loop_exit (Inv : List τ → σ → Prop) (measure : σ → Nat)
    (hstep : ∀ i again log s s' l, Inv log s → step i s = .ok (again, s', l) → Inv (log ++ l) s')
    (hdec : ∀ i s s' l, step i s = .ok (true, s', l) → measure s' < measure s)
    {fuel : Nat} {clk : Nat → ι} (log : List τ) {s s' : σ} {l : List τ} (hs : Inv log s)
    (hfuel : measure s < fuel) (hloop : loop step fuel clk s = .ok (s', l)) :
    ∃ i s₀ l₀ l₁, l = l₀ ++ l₁ ∧ Inv (log ++ l₀) s₀ ∧ step i s₀ = .ok (false, s', l₁) := by
  induction fuel generalizing clk log s l with
  | zero => omega
  | succ fuel ih =>
    rcases loop_succ_ok.mp hloop with h | ⟨s₁, l₁, l₂, h₁, h₂, rfl⟩
    · exact ⟨clk 0, s, [], l, rfl, by simpa using hs, h⟩
    · have hlt : measure s₁ < fuel := by
        have := hdec _ _ _ _ h₁
        omega
      obtain ⟨i, s₀, l₃, l₄, rfl, hinv, hlast⟩ := ih _ (hstep _ _ _ _ _ _ hs h₁) hlt h₂
      refine ⟨i, s₀, l₁ ++ l₃, l₄, (List.append_assoc ..).symm, ?_, hlast⟩
      rwa [← List.append_assoc]

/-- The same, with the external input that the last iteration reads. -/
theorem loop_exit_at (Inv : σ → Prop) (measure : σ → Nat)
    (hstep : ∀ i s s' l, Inv s → step i s = .ok (true, s', l) → Inv s')
    (hdec : ∀ i s s' l, step i s = .ok (true, s', l) → measure s' < measure s)
    {fuel : Nat} {clk : Nat → ι} {s s' : σ} {l : List τ} (hs : Inv s)
    (hfuel : measure s < fuel) (hloop : loop step fuel clk s = .ok (s', l)) :
    ∃ k s₀ l₁, Inv s₀ ∧ step (clk k) s₀ = .ok (false, s', l₁) := by
  induction fuel generalizing clk s l with
  | zero => omega
  | succ fuel ih =>
    rcases loop_succ_ok.mp hloop with h | ⟨s₁, l₁, l₂, h₁, h₂, rfl⟩
    · exact ⟨0, s, l, hs, h⟩
    · have hlt := hdec _ _ _ _ h₁
      obtain ⟨k, s₀, l₃, hinv, hlast⟩ := ih (hstep _ _ _ _ hs h₁) (by omega) h₂
      exact ⟨k + 1, s₀, l₃, hinv, hlast⟩

/-- **Loop progress.** An iteration that never fails from invariant states gives a loop that
    never fails. -/
theorem loop_progress (Inv : σ → Prop)
    (hstep : ∀ i s, Inv s → ∃ again s' l, step i s = .ok (again, s', l) ∧ Inv s')
    (fuel : Nat) (clk : Nat → ι) {s : σ} (hs : Inv s) :
    ∃ s' l, loop step fuel clk s = .ok (s', l) ∧ Inv s' := by
  induction fuel generalizing clk s with
  | zero => exact ⟨s, [], rfl, hs⟩
  | succ fuel ih =>
    obtain ⟨again, s₁, l₁, h₁, hs₁⟩ := hstep (clk 0) s hs
    cases again with
    | false => exact ⟨s₁, l₁, loop_succ_ok.mpr (.inl h₁), hs₁⟩
    | true =>
      obtain ⟨s₂, l₂, h₂, hs₂⟩ := ih (fun i => clk (i + 1)) hs₁
      exact ⟨s₂, l₁ ++ l₂, loop_succ_ok.mpr (.inr ⟨s₁, l₁, l₂, h₁, h₂, rfl⟩), hs₂⟩

/-- **Loop refinement.** If an iteration and its image under `f` agree, then so do the
    loops. -/
theorem loop_map {σ' : Type*} {step' : ι → σ' → Except ε (Bool × σ' × List τ)} (f : σ → σ')
    (hmap : ∀ i s, (step i s).map (Prod.map id (Prod.map f id)) = step' i (f s))
    (fuel : Nat) (clk : Nat → ι) (s : σ) :
    (loop step fuel clk s).map (Prod.map f id) = loop step' fuel clk (f s) := by
  induction fuel generalizing clk s with
  | zero => rfl
  | succ fuel ih =>
    have hi := hmap (clk 0) s
    cases hstep : step (clk 0) s with
    | error e =>
      rw [hstep] at hi
      simp [loop, hstep, ← hi, bind, Except.bind, Except.map]
    | ok x =>
      obtain ⟨again, s₁, l₁⟩ := x
      rw [hstep] at hi
      have hrec := ih (fun i => clk (i + 1)) s₁
      cases again with
      | false => simp [loop, hstep, ← hi, bind, Except.bind, Except.map]
      | true =>
        simp only [loop, hstep, ← hi, bind, Except.bind, Except.map, Prod.map, id] at hrec ⊢
        simp only [if_true, ← hrec]
        cases loop step fuel (fun i => clk (i + 1)) s₁ <;> rfl

/-- A loop whose log satisfies `Q` is a loop of any step that agrees where `Q` holds. -/
theorem loop_congr (step' : ι → σ → Except ε (Bool × σ × List τ)) (Q : τ → Prop)
    (hstep : ∀ i s b s' l, step i s = .ok (b, s', l) → (∀ x ∈ l, Q x) →
      step' i s = .ok (b, s', l))
    {fuel : Nat} {clk : Nat → ι} {s s' : σ} {l : List τ}
    (hloop : loop step fuel clk s = .ok (s', l)) (hl : ∀ x ∈ l, Q x) :
    loop step' fuel clk s = .ok (s', l) := by
  induction fuel generalizing clk s l with
  | zero => exact hloop
  | succ fuel ih =>
    rcases loop_succ_ok.mp hloop with h | ⟨s₁, l₁, l₂, h₁, h₂, rfl⟩
    · exact loop_succ_ok.mpr (.inl (hstep _ _ _ _ _ h hl))
    · refine loop_succ_ok.mpr (.inr ⟨s₁, l₁, l₂, hstep _ _ _ _ _ h₁ fun x hx => hl x ?_,
        ih h₂ fun x hx => hl x ?_, rfl⟩)
      · exact List.mem_append_left _ hx
      · exact List.mem_append_right _ hx

end Loop

/-! ### Conditions on every step -/

/-- `P` holds wherever the run starts a step. -/
def RunAll (step : ι → σ → Except ε (σ × List τ)) (P : ι → σ → Prop) : List ι → σ → Prop
  | [], _ => True
  | i :: is, s => P i s ∧ ∀ s' l, step i s = .ok (s', l) → RunAll step P is s'

/-- `P` holds wherever the loop starts an iteration. -/
def LoopAll (step : ι → σ → Except ε (Bool × σ × List τ)) (P : ι → σ → Prop) :
    Nat → (Nat → ι) → σ → Prop
  | 0, _, _ => True
  | fuel + 1, clk, s => P (clk 0) s ∧
      ∀ s' l, step (clk 0) s = .ok (true, s', l) → LoopAll step P fuel (fun i => clk (i + 1)) s'

/-- What a step preserves where `P` holds, a run preserves in which `P` holds everywhere. -/
theorem run_inv_all {step : ι → σ → Except ε (σ × List τ)} {P : ι → σ → Prop}
    (Inv : List τ → σ → Prop)
    (hstep : ∀ i log s s' l, Inv log s → P i s → step i s = .ok (s', l) → Inv (log ++ l) s')
    {is : List ι} (log : List τ) {s s' : σ} {l : List τ} (hs : Inv log s)
    (hall : RunAll step P is s) (hrun : run step is s = .ok (s', l)) : Inv (log ++ l) s' := by
  induction is generalizing log s l with
  | nil =>
    obtain ⟨rfl, rfl⟩ := run_nil_ok.mp hrun
    rwa [List.append_nil]
  | cons i is ih =>
    obtain ⟨s₁, l₁, l₂, h₁, h₂, rfl⟩ := run_cons_ok.mp hrun
    obtain ⟨hP, hrest⟩ := hall
    rw [← List.append_assoc]
    exact ih _ (hstep i log s s₁ l₁ hs hP h₁) (hrest s₁ l₁ h₁) h₂

/-- What an iteration preserves where `P` holds, a loop preserves in which `P` holds
    everywhere. -/
theorem loop_inv_all {step : ι → σ → Except ε (Bool × σ × List τ)} {P : ι → σ → Prop}
    (Inv : List τ → σ → Prop)
    (hstep : ∀ i b log s s' l, Inv log s → P i s → step i s = .ok (b, s', l) → Inv (log ++ l) s')
    {fuel : Nat} {clk : Nat → ι} (log : List τ) {s s' : σ} {l : List τ} (hs : Inv log s)
    (hall : LoopAll step P fuel clk s) (hloop : loop step fuel clk s = .ok (s', l)) :
    Inv (log ++ l) s' := by
  induction fuel generalizing clk log s l with
  | zero =>
    simp only [loop, Except.ok.injEq, Prod.mk.injEq] at hloop
    obtain ⟨rfl, rfl⟩ := hloop
    rwa [List.append_nil]
  | succ fuel ih =>
    obtain ⟨hP, hrest⟩ := hall
    rcases loop_succ_ok.mp hloop with h | ⟨s₁, l₁, l₂, h₁, h₂, rfl⟩
    · exact hstep _ _ _ _ _ _ hs hP h
    · rw [← List.append_assoc]
      exact ih _ (hstep _ _ _ _ _ _ hs hP h₁) (hrest s₁ l₁ h₁) h₂

/-- A condition that holds of a step exactly if its log satisfies `Q` holds everywhere in a run
    exactly if the log of the run does. -/
theorem runAll_iff {step : ι → σ → Except ε (σ × List τ)} {P : ι → σ → Prop} {Q : τ → Prop}
    (hstep : ∀ i s s' l, step i s = .ok (s', l) → (P i s ↔ ∀ x ∈ l, Q x)) {is : List ι}
    {s s' : σ} {l : List τ} (hrun : run step is s = .ok (s', l)) :
    RunAll step P is s ↔ ∀ x ∈ l, Q x := by
  induction is generalizing s l with
  | nil =>
    obtain ⟨rfl, rfl⟩ := run_nil_ok.mp hrun
    exact iff_of_true trivial (by simp)
  | cons i is ih =>
    obtain ⟨s₁, l₁, l₂, h₁, h₂, rfl⟩ := run_cons_ok.mp hrun
    have hfirst := hstep i s s₁ l₁ h₁
    have hrest := ih h₂
    constructor
    · rintro ⟨hP, hall⟩ x hx
      rcases List.mem_append.mp hx with hx | hx
      · exact hfirst.mp hP x hx
      · exact hrest.mp (hall s₁ l₁ h₁) x hx
    · intro hall
      refine ⟨hfirst.mpr fun x hx => hall x (List.mem_append_left _ hx), fun s₂ l₃ h₃ => ?_⟩
      obtain ⟨rfl, rfl⟩ := Prod.mk.inj (Except.ok.inj (h₁.symm.trans h₃))
      exact hrest.mpr fun x hx => hall x (List.mem_append_right _ hx)

/-- The same for a loop. -/
theorem loopAll_iff {step : ι → σ → Except ε (Bool × σ × List τ)} {P : ι → σ → Prop}
    {Q : τ → Prop}
    (hstep : ∀ i b s s' l, step i s = .ok (b, s', l) → (P i s ↔ ∀ x ∈ l, Q x)) {fuel : Nat}
    {clk : Nat → ι} {s s' : σ} {l : List τ} (hloop : loop step fuel clk s = .ok (s', l)) :
    LoopAll step P fuel clk s ↔ ∀ x ∈ l, Q x := by
  induction fuel generalizing clk s l with
  | zero =>
    simp only [loop, Except.ok.injEq, Prod.mk.injEq] at hloop
    obtain ⟨_, rfl⟩ := hloop
    exact iff_of_true trivial (by simp)
  | succ fuel ih =>
    rcases loop_succ_ok.mp hloop with h | ⟨s₁, l₁, l₂, h₁, h₂, rfl⟩
    · have hlast := hstep _ _ _ _ _ h
      constructor
      · rintro ⟨hP, _⟩
        exact hlast.mp hP
      · intro hall
        refine ⟨hlast.mpr hall, fun s₁ l₁ h₁ => ?_⟩
        exact absurd (h.symm.trans h₁) (by simp)
    · have hfirst := hstep _ _ _ _ _ h₁
      have hrest := ih h₂
      constructor
      · rintro ⟨hP, hall⟩ x hx
        rcases List.mem_append.mp hx with hx | hx
        · exact hfirst.mp hP x hx
        · exact hrest.mp (hall s₁ l₁ h₁) x hx
      · intro hall
        refine ⟨hfirst.mpr fun x hx => hall x (List.mem_append_left _ hx), fun s₂ l₃ h₃ => ?_⟩
        cases h₁.symm.trans h₃
        exact hrest.mpr fun x hx => hall x (List.mem_append_right _ hx)

/-- A condition that follows from an invariant holds everywhere in a run. -/
theorem runAll_of_inv {step : ι → σ → Except ε (σ × List τ)} {P : ι → σ → Prop} (Inv : σ → Prop)
    {is : List ι} (hstep : ∀ i ∈ is, ∀ s s' l, Inv s → step i s = .ok (s', l) → Inv s')
    (hP : ∀ i ∈ is, ∀ s, Inv s → P i s) {s : σ} (hs : Inv s) : RunAll step P is s := by
  induction is generalizing s with
  | nil => exact trivial
  | cons i is ih =>
    refine ⟨hP i List.mem_cons_self s hs, fun s' l h => ?_⟩
    exact ih (fun j hj => hstep j (List.mem_cons_of_mem _ hj))
      (fun j hj => hP j (List.mem_cons_of_mem _ hj)) (hstep i List.mem_cons_self s s' l hs h)

/-- A condition that follows from an invariant holds everywhere in a loop. -/
theorem loopAll_of_inv {step : ι → σ → Except ε (Bool × σ × List τ)} {P : ι → σ → Prop}
    (Inv : σ → Prop) (hstep : ∀ i b s s' l, Inv s → step i s = .ok (b, s', l) → Inv s')
    (hP : ∀ i s, Inv s → P i s) (fuel : Nat) (clk : Nat → ι) {s : σ} (hs : Inv s) :
    LoopAll step P fuel clk s := by
  induction fuel generalizing clk s with
  | zero => exact trivial
  | succ fuel ih => exact ⟨hP _ s hs, fun s' l h => ih _ (hstep _ _ _ _ _ hs h)⟩

/-! ### Properties of every entry of a log -/

/-- `Φ before x after` holds at every entry `x` of the log. -/
def Along (Φ : List τ → τ → List τ → Prop) (log : List τ) : Prop :=
  ∀ l₁ x l₂, log = l₁ ++ x :: l₂ → Φ l₁ x l₂

theorem along_nil (Φ : List τ → τ → List τ → Prop) : Along Φ [] := by
  intro l₁ x l₂ h
  simp at h

theorem along_of_forall {Φ : List τ → τ → List τ → Prop} {log : List τ}
    (h : ∀ x ∈ log, ∀ l₁ l₂, Φ l₁ x l₂) : Along Φ log := by
  rintro l₁ x l₂ rfl
  exact h x (by simp) l₁ l₂

theorem along_cons {Φ : List τ → τ → List τ → Prop} {x : τ} {l : List τ} :
    Along Φ (x :: l) ↔ Φ [] x l ∧ Along (fun l₁ => Φ (x :: l₁)) l := by
  constructor
  · intro h
    refine ⟨h [] x l rfl, fun l₁ y l₂ hl => ?_⟩
    exact h (x :: l₁) y l₂ (by rw [hl, List.cons_append])
  · rintro ⟨hx, hl⟩ l₁ y l₂ h
    cases l₁ with
    | nil =>
      obtain ⟨rfl, rfl⟩ := List.cons.inj h
      exact hx
    | cons z l₁ =>
      obtain ⟨rfl, hrest⟩ := List.cons.inj h
      exact hl l₁ y l₂ hrest

/-- A property that later entries cannot make true holds along every initial part of a log. -/
theorem Along.left {Φ : List τ → τ → List τ → Prop}
    (hsuffix : ∀ l₁ x l₂ l, Φ l₁ x (l₂ ++ l) → Φ l₁ x l₂) {log l : List τ}
    (h : Along Φ (log ++ l)) : Along Φ log := by
  rintro l₁ x l₂ rfl
  refine hsuffix l₁ x l₂ l (h l₁ x (l₂ ++ l) ?_)
  rw [List.append_assoc, List.cons_append]

theorem Along.right {Φ : List τ → τ → List τ → Prop} {log l : List τ}
    (h : Along Φ (log ++ l)) : Along (fun l₁ => Φ (log ++ l₁)) l := by
  rintro l₁ x l₂ rfl
  exact h (log ++ l₁) x l₂ (List.append_assoc ..).symm

/-- **Growing logs.** What is not spoilt by entries that come later holds along a log that
    grows by entries at which it holds. -/
theorem Along.append {Φ : List τ → τ → List τ → Prop}
    (hmono : ∀ l₁ x l₂ l, Φ l₁ x l₂ → Φ l₁ x (l₂ ++ l)) {log l : List τ} (h : Along Φ log)
    (hl : Along (fun l₁ => Φ (log ++ l₁)) l) : Along Φ (log ++ l) := by
  intro l₁ x l₂ heq
  rcases List.append_eq_append_iff.mp heq with ⟨d, hd₁, hd₂⟩ | ⟨d, hd₁, hd₂⟩
  · -- the entry lies in `l`
    rw [hd₁]
    exact hl d x l₂ hd₂
  · cases d with
    | nil =>
      simp only [List.append_nil] at hd₁
      subst hd₁
      simpa using hl [] x l₂ (by simpa using hd₂.symm)
    | cons y d =>
      -- the entry lies in `log`
      rw [List.cons_append] at hd₂
      obtain ⟨rfl, rfl⟩ := List.cons.inj hd₂
      exact hmono _ _ _ _ (h l₁ x d hd₁)

end Steps
