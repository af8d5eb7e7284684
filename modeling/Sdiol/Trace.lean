import Sdiol.Safety

namespace Sdiol

/-!
# Reading a trace of effects

Projections of the effects of a run: what was queued (`arrivals`), which presses were acted on
and how (`performed`), what was sent (`sends`), and, for one key, whether it is down as far as
the resolver has got (`keyDown`) and what its latest press did (`lastAction`).  Each comes
with its value on a concatenation and on the effects of one action.
-/

/-! ### Projections -/

/-- The events appended to the queue, in order. -/
def arrivals (log : List Effect) : List InputEvent :=
  log.filterMap fun
    | .arrive ev => some ev
    | _ => none

/-- The presses whose action was performed, with the action, in order. -/
def performed (log : List Effect) : List (InputEvent × KeyAction) :=
  log.filterMap fun
    | .keypress ev ka => some (ev, ka)
    | _ => none

/-- The code of a simple key. -/
def KeyAction.code : KeyAction → Option KeyCode
  | ktSimple c => some c
  | _ => none

/-- The events given to `r->send`, in order. -/
def sends (log : List Effect) : List InputEvent :=
  log.filterMap fun
    | .send ev => some ev
    | _ => none

/-- The events taken from the queue as releases, in order. -/
def released (log : List Effect) : List InputEvent :=
  log.filterMap fun
    | .released ev _ _ => some ev
    | _ => none

/-- The presses of a list of events. -/
def presses (evs : List InputEvent) : List InputEvent := evs.filter InputEvent.isPress

theorem mem_arrivals {log : List Effect} {ev : InputEvent} :
    ev ∈ arrivals log ↔ .arrive ev ∈ log := by
  rw [arrivals, List.mem_filterMap]
  constructor
  · rintro ⟨x, hx, hsome⟩
    cases x with
    | arrive e =>
      obtain rfl : e = ev := Option.some.inj hsome
      exact hx
    | _ => exact absurd hsome (by simp)
  · intro h
    exact ⟨_, h, rfl⟩

@[simp] theorem arrivals_append (l₁ l₂ : List Effect) :
    arrivals (l₁ ++ l₂) = arrivals l₁ ++ arrivals l₂ := List.filterMap_append

@[simp] theorem performed_append (l₁ l₂ : List Effect) :
    performed (l₁ ++ l₂) = performed l₁ ++ performed l₂ := List.filterMap_append

@[simp] theorem sends_append (l₁ l₂ : List Effect) :
    sends (l₁ ++ l₂) = sends l₁ ++ sends l₂ := List.filterMap_append

@[simp] theorem released_append (l₁ l₂ : List Effect) :
    released (l₁ ++ l₂) = released l₁ ++ released l₂ := List.filterMap_append

@[simp] theorem presses_append (l₁ l₂ : List InputEvent) :
    presses (l₁ ++ l₂) = presses l₁ ++ presses l₂ := List.filter_append ..

@[simp] theorem sends_map_send (evs : List InputEvent) : sends (evs.map .send) = evs := by
  simp [sends, List.filterMap_map]

@[simp] theorem performed_map_send (evs : List InputEvent) : performed (evs.map .send) = [] := by
  simp [performed]

@[simp] theorem arrivals_map_send (evs : List InputEvent) : arrivals (evs.map .send) = [] := by
  simp [arrivals]

@[simp] theorem released_map_send (evs : List InputEvent) : released (evs.map .send) = [] := by
  simp [released]

/-- A property of releases holds along effects that have none. -/
theorem along_of_released_eq_nil {Φ : List Effect → Effect → List Effect → Prop}
    (hΦ : ∀ l₁ x l₂, (∀ ev code early, x ≠ .released ev code early) → Φ l₁ x l₂)
    {l : List Effect} (h : released l = []) : Steps.Along Φ l := by
  rintro l₁ x l₂ rfl
  refine hΦ l₁ x l₂ ?_
  rintro ev code early rfl
  rw [released_append] at h
  exact absurd h (by simp [released])

/-! ### One key -/

/-- An effect on "key `k` is down as far as the resolver has got". -/
def downStep (k : KeyCode) (down : Bool) : Effect → Bool
  | .keypress ev _ => if ev.code = codeOf k then true else down
  | .released ev _ _ => if ev.code = codeOf k ∧ ev.isRelease = true then false else down
  | _ => down

/-- Whether the latest press of `k` was acted on and its release was not taken from the queue
    yet. -/
def keyDown (k : KeyCode) (log : List Effect) : Bool := log.foldl (downStep k) false

/-- An effect on "what the latest press of key `k` did". -/
def actionStep (k : KeyCode) (last : Option KeyAction) : Effect → Option KeyAction
  | .keypress ev ka => if ev.code = codeOf k then some ka else last
  | _ => last

/-- What the latest press of `k` that was acted on did. -/
def lastAction (k : KeyCode) (log : List Effect) : Option KeyAction :=
  log.foldl (actionStep k) none

theorem keyDown_append (k : KeyCode) (log l : List Effect) :
    keyDown k (log ++ l) = l.foldl (downStep k) (keyDown k log) := List.foldl_append

theorem lastAction_append (k : KeyCode) (log l : List Effect) :
    lastAction k (log ++ l) = l.foldl (actionStep k) (lastAction k log) := List.foldl_append

/-- Sending does not move a key. -/
theorem foldl_downStep_sends (k : KeyCode) (d : Bool) (evs : List InputEvent) :
    (evs.map Effect.send).foldl (downStep k) d = d := by
  induction evs with
  | nil => rfl
  | cons ev evs ih => exact ih

theorem foldl_actionStep_sends (k : KeyCode) (a : Option KeyAction) (evs : List InputEvent) :
    (evs.map Effect.send).foldl (actionStep k) a = a := by
  induction evs with
  | nil => rfl
  | cons ev evs ih => exact ih

/-- What the latest press of a key did was performed. -/
theorem performed_of_lastAction {k : KeyCode} {log : List Effect} {ka : KeyAction}
    (h : lastAction k log = some ka) : ∃ p ∈ performed log, p.2 = ka := by
  induction log using List.reverseRecOn with
  | nil => exact absurd h (by simp [lastAction])
  | append_singleton log x ih =>
    rw [lastAction_append] at h
    rw [performed_append]
    cases x with
    | keypress ev ka' =>
      simp only [List.foldl_cons, List.foldl_nil, actionStep] at h
      split at h
      · cases h
        exact ⟨(ev, ka), List.mem_append_right _ List.mem_cons_self, rfl⟩
      · obtain ⟨p, hp, hp'⟩ := ih h
        exact ⟨p, List.mem_append_left _ hp, hp'⟩
    | _ =>
      obtain ⟨p, hp, hp'⟩ := ih h
      exact ⟨p, List.mem_append_left _ hp, hp'⟩

/-- Acting on presses of other keys does not change what the latest press of `k` did. -/
theorem foldl_actionStep_of_performed {k : KeyCode} {l : List Effect}
    (h : ∀ p ∈ performed l, p.1.code ≠ codeOf k) (a : Option KeyAction) :
    l.foldl (actionStep k) a = a := by
  induction l with
  | nil => rfl
  | cons x l ih =>
    have hrest : ∀ p ∈ performed l, p.1.code ≠ codeOf k := by
      intro p hp
      refine h p ?_
      rw [← List.singleton_append, performed_append]
      exact List.mem_append_right _ hp
    have hx : actionStep k a x = a := by
      cases x with
      | keypress ev ka => exact if_neg (h (ev, ka) List.mem_cons_self)
      | _ => rfl
    rw [List.foldl_cons, hx]
    exact ih hrest

/-! ### The effects of one action -/

/-- What `do_keypress` sends for a press `ev` that is acted on as `ka`. -/
def actionSends (ev : InputEvent) : KeyAction → List InputEvent
  | .ktSimple c => [{ ev with code := codeOf c }]
  | .ktMacro chain => chain.flatMap macroSends
  | _ => []

section Acted

variable {s s' : KeyState} {ev : InputEvent} {k : KeyCode} {ka : KeyAction} {l : List Effect}

/-- Acting on a press logs the press first and then only what it sends. -/
theorem Acted.log_eq (h : Acted s ev k ka s' l) :
    l = .keypress ev ka :: (actionSends ev ka).map .send := by
  cases h with
  | simple c => rfl
  | chain ch => rfl
  | layer map => rfl

theorem Acted.performed (h : Acted s ev k ka s' l) : performed l = [(ev, ka)] := by
  rw [h.log_eq]
  show (ev, ka) :: Sdiol.performed ((actionSends ev ka).map .send) = [(ev, ka)]
  rw [performed_map_send]

theorem Acted.arrivals (h : Acted s ev k ka s' l) : arrivals l = [] := by
  rw [h.log_eq]
  exact arrivals_map_send (actionSends ev ka)

theorem Acted.released (h : Acted s ev k ka s' l) : released l = [] := by
  rw [h.log_eq]
  exact released_map_send (actionSends ev ka)

theorem Acted.sends (h : Acted s ev k ka s' l) : sends l = actionSends ev ka := by
  rw [h.log_eq]
  exact sends_map_send (actionSends ev ka)

theorem Acted.foldl_downStep (h : Acted s ev k ka s' l) (j : KeyCode) (d : Bool) :
    l.foldl (downStep j) d = if ev.code = codeOf j then true else d := by
  rw [h.log_eq]
  exact foldl_downStep_sends j _ (actionSends ev ka)

theorem Acted.foldl_actionStep (h : Acted s ev k ka s' l) (j : KeyCode) (a : Option KeyAction) :
    l.foldl (actionStep j) a = if ev.code = codeOf j then some ka else a := by
  rw [h.log_eq]
  exact foldl_actionStep_sends j _ (actionSends ev ka)

end Acted

/-- What `resolve_press` logs before acting is at most the answer of `check_waveform`. -/
theorem Chosen.log_eq {s : KeyState} {now : Timeval} {ev : InputEvent} {queued : List InputEvent}
    {k : KeyCode} {ka : KeyAction} {pre : List Effect} {t : LastTap}
    (h : Chosen s now ev queued k ka pre t) :
    pre = [] ∨ ∃ dual last w, pre = [.checked ev dual now last w] := by
  cases h with
  | plain _ _ => exact .inl rfl
  | tap _ _ => exact .inr ⟨_, _, _, rfl⟩
  | hold _ _ => exact .inr ⟨_, _, _, rfl⟩

section Chosen

variable {s : KeyState} {now : Timeval} {ev : InputEvent} {queued : List InputEvent}
  {k : KeyCode} {ka : KeyAction} {pre : List Effect} {t : LastTap}

theorem Chosen.performed (h : Chosen s now ev queued k ka pre t) : performed pre = [] := by
  rcases h.log_eq with rfl | ⟨_, _, _, rfl⟩ <;> rfl

theorem Chosen.arrivals (h : Chosen s now ev queued k ka pre t) : arrivals pre = [] := by
  rcases h.log_eq with rfl | ⟨_, _, _, rfl⟩ <;> rfl

theorem Chosen.released (h : Chosen s now ev queued k ka pre t) : released pre = [] := by
  rcases h.log_eq with rfl | ⟨_, _, _, rfl⟩ <;> rfl

theorem Chosen.sends (h : Chosen s now ev queued k ka pre t) : sends pre = [] := by
  rcases h.log_eq with rfl | ⟨_, _, _, rfl⟩ <;> rfl

theorem Chosen.foldl_downStep (h : Chosen s now ev queued k ka pre t) (j : KeyCode) (d : Bool) :
    pre.foldl (downStep j) d = d := by
  rcases h.log_eq with rfl | ⟨_, _, _, rfl⟩ <;> rfl

theorem Chosen.foldl_actionStep (h : Chosen s now ev queued k ka pre t) (j : KeyCode)
    (a : Option KeyAction) : pre.foldl (actionStep j) a = a := by
  rcases h.log_eq with rfl | ⟨_, _, _, rfl⟩ <;> rfl

end Chosen

/-- Nothing was taken early. -/
def NoEarly (log : List Effect) : Prop := ∀ ev code, .released ev code true ∉ log

/-- Handling the oldest event takes nothing early. -/
theorem Handled.noEarly {s s' : KeyState} {now : Timeval} {ev : InputEvent}
    {queued : List InputEvent} {b : Bool} {l : List Effect}
    (h : Handled s now ev queued b s' l) : NoEarly l := by
  intro e code hmem
  cases h with
  | pressed _ _ hchosen hacted =>
    rw [hacted.log_eq] at hmem
    rcases hchosen.log_eq with rfl | ⟨_, _, _, rfl⟩ <;> simp at hmem
  | _ => simp at hmem

/-- What an event taken early logs: that it was taken, and then what is sent. -/
theorem earlyRelease_log {s s' : KeyState} {ev : InputEvent} {l : List Effect}
    (h : earlyRelease s ev = some (s', l)) :
    ∃ code, ∃ evs : List InputEvent, l = .released ev code true :: evs.map Effect.send := by
  obtain ⟨k, _, _, ⟨_, _, rfl⟩ | ⟨_, _, _, rfl⟩⟩ := earlyRelease_eq_some h
  · exact ⟨_, [], rfl⟩
  · exact ⟨_, [{ ev with code := s.releaseMap k }, synEvent], rfl⟩

theorem earlyRelease_released {s s' : KeyState} {ev : InputEvent} {l : List Effect}
    (h : earlyRelease s ev = some (s', l)) : released l = [ev] := by
  obtain ⟨code, evs, rfl⟩ := earlyRelease_log h
  show ev :: released (evs.map Effect.send) = [ev]
  rw [released_map_send]

/-- The only event that a call of `resolve` takes early is the newest one. -/
theorem Handled.early_eq {s s₁ s₂ : KeyState} {now : Timeval} {ev newest R : InputEvent}
    {rest : List InputEvent} {code : UInt16} {l₁ l₂ : List Effect}
    (hh : Handled s now ev rest false s₁ l₁) (h : earlyRelease s₁ newest = some (s₂, l₂))
    (hmem : .released R code true ∈ l₁ ++ l₂) :
    R = newest ∧ ∃ evs : List InputEvent, l₂ = .released R code true :: evs.map Effect.send := by
  obtain ⟨code', evs, rfl⟩ := earlyRelease_log h
  rcases List.mem_append.mp hmem with hmem | hmem
  · exact absurd hmem (hh.noEarly R code)
  · rcases List.mem_cons.mp hmem with heq | hmem
    · obtain ⟨rfl, rfl, _⟩ := Effect.released.inj heq
      exact ⟨rfl, evs, rfl⟩
    · exact absurd hmem (by simp)

end Sdiol
