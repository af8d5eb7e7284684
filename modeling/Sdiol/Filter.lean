import Sdiol.Serve
import Sdiol.Lib.Alternation

namespace Sdiol

/-!
# What the output filter lets through

`send_dedup` is called by any number of sources, in any order.  What it forwards is the logical
OR of the sources, in frames: the presses and releases of a code alternate, the code is down
at the output exactly while its count is positive, which is while some source holds it, and
no `EV_SYN` ends an empty frame.

`Filtering d out` is the invariant that ties what was forwarded to the state of the filter;
`output_is_or` reads the properties off it, and `serve_filtering` says that it holds of
`serve_loop`.
-/

variable {n : Nat}

/-! ### What was forwarded -/

/-- The events since the last `EV_SYN`. -/
def frame (out : List InputEvent) : List InputEvent := out.rtakeWhile fun ev => ev.type ≠ evSyn

/-- The calls of one code, with the source that made each. -/
def taggedEdges (c : KeyCode) (evs : List (Fin n × InputEvent)) : List (Fin n × Bool) :=
  evs.filterMap fun x => (keyEdge c x.2).map (Prod.mk x.1)

/-- What ties the forwarded events to the filter. -/
structure Filtering (d : SendDedup) (out : List InputEvent) : Prop where
  nonneg : ∀ c, 0 ≤ d.pressCountMap c
  alternates : ∀ c, Alternation.settle false (keyEdges c out)
    = some (decide (0 < d.pressCountMap c))
  frames : d.sentSomething = true ↔ frame out ≠ []

@[simp] theorem frame_nil : frame [] = [] := rfl

theorem frame_append_syn {out : List InputEvent} {ev : InputEvent} (h : ev.type = evSyn) :
    frame (out ++ [ev]) = [] := by
  unfold frame
  rw [List.rtakeWhile_concat_neg _ _ _ (by simp [h])]

theorem frame_append_ne {out : List InputEvent} {ev : InputEvent} (h : ev.type ≠ evSyn) :
    frame (out ++ [ev]) ≠ [] := by
  unfold frame
  rw [List.rtakeWhile_concat_pos _ _ _ (by simp [h])]
  simp

theorem keyEdges_source (c : KeyCode) (evs : List (Fin n × InputEvent)) :
    keyEdges c (evs.map Prod.snd) = (taggedEdges c evs).map Prod.snd := by
  unfold keyEdges taggedEdges
  rw [List.filterMap_map, List.map_filterMap]
  congr 1
  funext x
  simp [Function.comp_def]

theorem keyEdges_part (c : KeyCode) (i : Fin n) (evs : List (Fin n × InputEvent)) :
    keyEdges c (Counter.part i evs) = Counter.part i (taggedEdges c evs) := by
  induction evs with
  | nil => rfl
  | cons x evs ih =>
    have htagged : taggedEdges c (x :: evs)
        = ((keyEdge c x.2).map (Prod.mk x.1)).toList ++ taggedEdges c evs := by
      unfold taggedEdges
      cases h : keyEdge c x.2 <;> simp [h]
    rw [htagged, Counter.part_cons]
    cases h : keyEdge c x.2 with
    | none =>
      by_cases hi : x.1 = i <;> simp [hi, keyEdges_cons, h, ih]
    | some e =>
      by_cases hi : x.1 = i <;> simp [hi, keyEdges_cons, h, ih, Counter.part_cons]

/-! ### Step and run -/

theorem filtering_init : Filtering SendDedup.init [] where
  nonneg := fun _ => le_rfl
  alternates := fun _ => rfl
  frames := by simp [SendDedup.init]

/-- Nothing is forwarded, and the one count that changes stays zero or stays positive. -/
theorem Filtering.silent {d : SendDedup} {out : List InputEvent} {k : KeyCode} {count : Int}
    (h : Filtering d out) (hcount : 0 ≤ count) (hsame : 0 < count ↔ 0 < d.pressCountMap k) :
    Filtering ⟨Function.update d.pressCountMap k count, d.sentSomething⟩ (out ++ []) where
  nonneg := (Function.forall_update_iff _ fun _ x => 0 ≤ x).mpr ⟨hcount, fun c _ => h.nonneg c⟩
  alternates := by
    have hsign : ∀ c, 0 < Function.update d.pressCountMap k count c ↔ 0 < d.pressCountMap c := by
      refine (Function.forall_update_iff _ fun c x => 0 < x ↔ 0 < d.pressCountMap c).mpr ?_
      exact ⟨hsame, fun _ _ => Iff.rfl⟩
    intro c
    rw [List.append_nil, h.alternates c]
    simp [hsign c]
  frames := by rw [List.append_nil, h.frames]

/-- An edge is forwarded and turns the sign of one count. -/
theorem Filtering.edge {d : SendDedup} {out : List InputEvent} {ev : InputEvent} {k : KeyCode}
    {count : Int} (h : Filtering d out) (hcount : 0 ≤ count)
    (hedge : ∀ c, keyEdge c ev = if c = k then some (decide (0 < count)) else none)
    (hturn : 0 < count ↔ ¬ 0 < d.pressCountMap k) (htype : ev.type ≠ evSyn) :
    Filtering ⟨Function.update d.pressCountMap k count, true⟩ (out ++ [ev]) where
  nonneg := (Function.forall_update_iff _ fun _ x => 0 ≤ x).mpr ⟨hcount, fun c _ => h.nonneg c⟩
  alternates := by
    refine (Function.forall_update_iff _ fun c x =>
      Alternation.settle false (keyEdges c (out ++ [ev])) = some (decide (0 < x))).mpr
        ⟨?_, fun c hc => ?_⟩
    · have hone : keyEdges k [ev] = [decide (0 < count)] := by simp [keyEdges_cons, hedge]
      rw [keyEdges_append, hone, Alternation.settle_append]
      refine ⟨_, h.alternates k, Alternation.settle_cons.mpr ⟨?_, rfl⟩⟩
      rw [ne_eq, decide_eq_decide, hturn]
      exact not_iff_self
    · have hnone : keyEdges c [ev] = [] := by simp [keyEdges_cons, hedge, hc]
      rw [keyEdges_append, hnone, List.append_nil]
      exact h.alternates c
  frames := by simp [frame_append_ne htype]

/-- An event that is no press or release is forwarded. -/
theorem Filtering.forward {d : SendDedup} {out : List InputEvent} {ev : InputEvent}
    (h : Filtering d out) (hedge : ∀ c, keyEdge c ev = none) :
    Filtering ⟨d.pressCountMap, decide (ev.type ≠ evSyn)⟩ (out ++ [ev]) where
  nonneg := h.nonneg
  alternates := by
    intro c
    have hnone : keyEdges c [ev] = [] := by simp [keyEdges_cons, hedge]
    rw [keyEdges_append, hnone, List.append_nil]
    exact h.alternates c
  frames := by
    by_cases hsyn : ev.type = evSyn
    · simp [hsyn, frame_append_syn hsyn]
    · simp [hsyn, frame_append_ne hsyn]

/-- **Step.** A call of `send_dedup` keeps the invariant. -/
theorem Filtering.step {d d' : SendDedup} {out l : List InputEvent} {ev : InputEvent}
    (h : Filtering d out) (hstep : sendDedup ev d = .ok (d', l)) : Filtering d' (out ++ l) := by
  have hnotsyn : ev.type = evKey → ev.type ≠ evSyn := by
    rintro hkey
    rw [hkey]
    decide
  cases sendDedup_filtered hstep with
  | dropped _ _ => rwa [List.append_nil]
  | invalidRelease _ _ _ _ => rwa [List.append_nil]
  -- the edges that are forwarded are those between 0 and 1
  | lastRelease k hev hcode hcount =>
    refine h.edge le_rfl (fun c => ?_) ?_ (hnotsyn (InputEvent.isRelease_iff.mp hev).1)
    · rw [keyEdge_release hev, hcode]
      simp [eq_comm]
    · rw [hcount]
      decide
  | release k hev hcode hcount => exact h.silent (by omega) (by omega)
  | firstPress k hev hcode hcount =>
    refine h.edge Int.one_nonneg (fun c => ?_) ?_ (hnotsyn (InputEvent.isPress_iff.mp hev).1)
    · rw [keyEdge_press hev, hcode]
      simp [eq_comm]
    · rw [hcount]
      decide
  | press k hev hcode hcount =>
    have hnonneg := h.nonneg k
    exact h.silent (by omega) (by omega)
  | passed hedge htype =>
    have hforward := h.forward hedge
    rwa [decide_eq_true htype] at hforward
  | syn htype _ =>
    have hedge : ∀ c, keyEdge c ev = none := fun c =>
      keyEdge_of_not_key (by rw [htype]; decide)
    have hforward := h.forward hedge
    rwa [decide_eq_false (not_not.mpr htype)] at hforward

/-- **Run.** Any calls of `send_dedup` keep the invariant. -/
theorem Filtering.run {d d' : SendDedup} {out l evs : List InputEvent} (h : Filtering d out)
    (hrun : sendAll evs d = .ok (d', l)) : Filtering d' (out ++ l) :=
  Steps.run_inv_from (fun out d => Filtering d out) (fun _ _ _ _ _ _ hd hstep => hd.step hstep)
    out h hrun

/-! ### The output -/

/-- **The logical OR of its sources.** Whatever `n` sources send in whatever order, no call
    fails, and after it: no count is negative; the forwarded presses and releases of each code
    alternate from a press on, and the code is down exactly while its count is positive; if
    no source releases more than it pressed, the code is down exactly while some source holds
    it; and the next event is forwarded if it is an `EV_SYN` that ends a frame with an event in
    it, and unchanged if it is neither an `EV_SYN` nor a key event. -/
theorem output_is_or {evs : List (Fin n × InputEvent)} (hcodes : ∀ x ∈ evs, CodeInRange x.2) :
    ∃ d out, sendAll (evs.map Prod.snd) SendDedup.init = .ok (d, out) ∧
      (∀ c, 0 ≤ d.pressCountMap c) ∧
      (∀ c, Alternation.settle false (keyEdges c out)
        = some (decide (0 < d.pressCountMap c))) ∧
      (∀ c, (∀ i, Counter.Covered 0 (keyEdges c (Counter.part i evs))) →
        (0 < d.pressCountMap c ↔ ∃ i, 0 < Counter.balance (keyEdges c (Counter.part i evs)))) ∧
      (∀ ev, ev.type = evSyn →
        ∃ d', sendDedup ev d = .ok (d', if frame out = [] then [] else [ev])) ∧
      (∀ ev, ev.type ≠ evSyn → ev.type ≠ evKey → ∃ d', sendDedup ev d = .ok (d', [ev])) := by
  have hinRange : ∀ ev ∈ evs.map Prod.snd, CodeInRange ev := by
    intro ev hev
    obtain ⟨x, hx, rfl⟩ := List.mem_map.mp hev
    exact hcodes x hx
  obtain ⟨d, out, hrun⟩ := sendAll_total hinRange SendDedup.init
  have hinv : Filtering d out := filtering_init.run hrun
  refine ⟨d, out, hrun, hinv.nonneg, hinv.alternates, fun c hcovered => ?_, fun ev hsyn => ?_,
    fun ev hsyn hkey => ?_⟩
  · -- no release was ignored, so the count is the sum of what the sources hold
    simp only [keyEdges_part] at hcovered ⊢
    have hmerge := Counter.covered_merge hcovered
    have hcount : d.pressCountMap c = Counter.balance ((taggedEdges c evs).map Prod.snd) := by
      rw [sendAll_pressCountMap hrun c, keyEdges_source]
      show List.foldl Counter.bump 0 _ = _
      rw [Counter.foldl_bump_of_covered hmerge, zero_add]
    rw [hcount]
    exact Counter.balance_merge_pos hcovered
  · -- `EV_SYN` is forwarded if something was sent in its frame
    have hkey : ev.type ≠ evKey := by rw [hsyn]; decide
    unfold sendDedup
    rw [if_neg hkey, if_pos hsyn]
    by_cases hsent : d.sentSomething = true
    · rw [if_pos hsent, if_neg (hinv.frames.mp hsent)]
      exact ⟨_, rfl⟩
    · have hempty : frame out = [] := not_not.mp fun hne => hsent (hinv.frames.mpr hne)
      rw [if_neg hsent, if_pos hempty]
      exact ⟨_, rfl⟩
  · unfold sendDedup
    rw [if_neg hkey, if_neg hsyn]
    exact ⟨_, rfl⟩

/-- Two grabs press key 30 and the first one lets go of it. -/
def twoHolders : List (Fin 2 × InputEvent) :=
  [(0, (keyAt 0 30 1).ev), (1, (keyAt 1 30 1).ev), (0, (keyAt 2 30 0).ev)]

/-- Then key 30 is still down. -/
theorem output_is_or_shared :
    ∃ d out, sendAll (twoHolders.map Prod.snd) SendDedup.init = .ok (d, out) ∧
      0 < d.pressCountMap 30 ∧ Alternation.settle false (keyEdges 30 out) = some true := by
  have hcodes : ∀ x ∈ twoHolders, CodeInRange x.2 := by decide
  obtain ⟨d, out, hrun, _, halternates, hheld, _, _⟩ := output_is_or hcodes
  have hcovered : ∀ i : Fin 2, Counter.Covered 0 (keyEdges 30 (Counter.part i twoHolders)) := by
    refine Fin.forall_fin_two.mpr ⟨?_, ?_⟩
    · exact Counter.balanced_nil.wrap.1
    · exact Counter.covered_cons.mpr ⟨le_rfl, Counter.covered_nil Int.one_nonneg⟩
  have hdown : 0 < d.pressCountMap 30 := (hheld 30 hcovered).mpr ⟨1, by decide⟩
  refine ⟨d, out, hrun, hdown, ?_⟩
  rw [halternates 30, decide_eq_true hdown]

/-- **In `serve_loop`.** What all resolvers together send went through the filter that way. -/
theorem serve_filtering {roots : Fin n → KeyAction} {inputs : List (GrabReading n)}
    {s : ServeState n} {log : List (Fin n × Effect)} (h : serve roots inputs = .ok (s, log)) :
    sendAll (allSends log) SendDedup.init = .ok (s.deduper, s.output) ∧
      Filtering s.deduper s.output := by
  have hrun : sendAll (allSends log) SendDedup.init = .ok (s.deduper, s.output) := by
    refine Steps.run_inv (fun log (s : ServeState n) =>
      sendAll (allSends log) SendDedup.init = .ok (s.deduper, s.output)) ?_ rfl h
    intro i _ log s s' l hs hstep
    obtain ⟨r, l, d, out, _, hd, rfl, rfl⟩ := serveStep_ok hstep
    rw [allSends_append, allSends_map]
    exact Steps.run_append_ok.mpr ⟨s.deduper, s.output, out, hs, hd, rfl⟩
  exact ⟨hrun, filtering_init.run hrun⟩

end Sdiol
