import Sdiol.Deadline

namespace Sdiol

/-!
# One pass over the keyboards

After `select` has returned, `serve_loop` goes once through its array of keyboards and reads
from those that are ready.  A keyboard whose `read` fails is closed and removed *in the array
that is being walked*: `memmove` shifts the keyboards behind it one to the front, `n_kbs`
becomes one less, and `i` stays where it is for the next iteration.

`PassCall` is what an iteration calls and `passCalls` lists the calls of a pass.  In front of
index `i` stand the keyboards that stay, and from `i` on those that are still to be visited
(`readKeyboard_split`); so the pass does what one walk through a list would do, which keeps or
drops each element (`answers`).  `pass_exact` says the same without indices.
-/

variable {n : Nat}

/-! ### The calls of a pass -/

/-- What is called for a keyboard in the loop over the keyboards. -/
inductive PassCall where
  /-- `read`, and what it returned -/
  | read (fd : Fd) (r : KeyboardRead)
  | close (fd : Fd)
  /-- `memmove(&kbs[dst], &kbs[src], sizeof(*kbs) * count)` -/
  | memmove (dst src : Nat) (count : Int)

/-- Neither the cells that are read nor those that are written lie outside `kbs`. -/
def PassCall.Inside : PassCall → Prop
  | .memmove dst src count => 0 ≤ count ∧ dst + count ≤ maxKbs ∧ src + count ≤ maxKbs
  | _ => True

/-- The calls of one iteration. -/
def keyboardCalls (ready : Fd → Bool) (i : Nat) (r : KeyboardRead) (w : World n) :
    List PassCall :=
  if ready (w.kbs i).fd then
    match r with
    | .failed =>
      [.read (w.kbs i).fd r, .close (w.kbs i).fd, .memmove i (i + 1) ((maxKbs : Int) - i - 1)]
    | _ => [.read (w.kbs i).fd r]
  else []

/-- The calls of `readKeyboards`, up to where the program stops if it does. -/
def passCalls (ready : Fd → Bool) :
    Nat → (Nat → KeyboardRead) → Nat → World n → List PassCall
  | 0, _, _, _ => []
  | fuel + 1, reads, i, w =>
    if i < w.nKbs then
      keyboardCalls ready i (reads 0) w ++
        match readKeyboard ready i (reads 0) w with
        | .ok (i', w', _) => passCalls ready fuel (fun j => reads (j + 1)) i' w'
        | .error _ => []
    else []

/-- The descriptors that were read, in this order. -/
def readFds (calls : List PassCall) : List Fd :=
  calls.filterMap fun
    | .read fd _ => some fd
    | _ => none

/-- Those of which `read` failed with another error than `EAGAIN`. -/
def failedFds (calls : List PassCall) : List Fd :=
  calls.filterMap fun
    | .read fd .failed => some fd
    | _ => none

def closedFds (calls : List PassCall) : List Fd :=
  calls.filterMap fun
    | .close fd => some fd
    | _ => none

/-- The keyboards that the log says were closed. -/
def closedKeyboards (log : List (LoopEffect n)) : List (Keyboard n) :=
  log.filterMap fun
    | .keyboard (.closed kb _) => some kb
    | _ => none

/-- What a pass that starts at `w` and ends at `w'` is for. -/
structure PassExact (ready : Fd → Bool) (w : World n) (calls : List PassCall) (w' : World n)
    (log : List (LoopEffect n)) : Prop where
  order : readFds calls = (w.connected.filter fun kb => ready kb.fd).map Keyboard.fd
  once : ∀ fd, (readFds calls).count fd =
    if fd ∈ w.connected.map Keyboard.fd ∧ ready fd = true then 1 else 0
  connected : w'.connected = w.connected.filter fun kb => kb.fd ∉ failedFds calls
  closed : closedKeyboards log = w.connected.filter fun kb => kb.fd ∈ failedFds calls
  closed_once : ∀ fd, (closedFds calls).count fd = if fd ∈ failedFds calls then 1 else 0

/-! ### A walk through a list -/

/-- `read` failed. -/
def KeyboardRead.isFailed : KeyboardRead → Bool
  | .failed => true
  | _ => false

/-- Each keyboard with whether its `read` fails, if the `j`-th visit is answered by `reads j`. -/
def answers (ready : Fd → Bool) :
    (Nat → KeyboardRead) → List (Keyboard n) → List (Keyboard n × Bool)
  | _, [] => []
  | reads, kb :: kbs =>
    (kb, ready kb.fd && (reads 0).isFailed) :: answers ready (fun j => reads (j + 1)) kbs

theorem answers_fst (ready : Fd → Bool) (reads : Nat → KeyboardRead) (kbs : List (Keyboard n)) :
    (answers ready reads kbs).map Prod.fst = kbs := by
  induction kbs generalizing reads with
  | nil => rfl
  | cons kb kbs ih => rw [answers, List.map_cons, ih]

/-- If all elements have different keys, those that are marked are those with a marked key. -/
theorem filter_marked {α κ : Type*} [DecidableEq κ] (key : α → κ) (as : List (α × Bool))
    (h : ((as.map Prod.fst).map key).Nodup) :
    let keys := ((as.filter fun a => a.2).map Prod.fst).map key
    (as.filter fun a => a.2).map Prod.fst = (as.map Prod.fst).filter (fun a => key a ∈ keys) ∧
      (as.filter fun a => !a.2).map Prod.fst =
        (as.map Prod.fst).filter (fun a => key a ∉ keys) := by
  intro keys
  have hmarked : ∀ a ∈ as, a.2 = true ↔ key a.1 ∈ keys := by
    intro a ha
    constructor
    · intro hmark
      exact List.mem_map_of_mem (List.mem_map_of_mem (List.mem_filter.mpr ⟨ha, hmark⟩))
    · intro hkey
      rw [List.map_map] at h
      obtain ⟨_, hfst, heq⟩ := List.mem_map.mp hkey
      obtain ⟨b, hmarked, rfl⟩ := List.mem_map.mp hfst
      obtain ⟨hb, hmark⟩ := List.mem_filter.mp hmarked
      obtain rfl := List.inj_on_of_nodup_map h hb ha heq
      exact hmark
  rw [List.filter_map, List.filter_map]
  constructor
  · congr 1
    apply List.filter_congr
    intro a ha
    rw [Bool.eq_iff_iff, hmarked a ha]
    simp
  · congr 1
    apply List.filter_congr
    intro a ha
    rw [Bool.eq_iff_iff, Bool.not_eq_true', ← Bool.not_eq_true, hmarked a ha]
    simp

/-! ### One iteration -/

section Iteration

variable {ready : Fd → Bool} {i i' : Nat} {r : KeyboardRead} {w w' : World n}
  {l : List (LoopEffect n)} {kept rest : List (Keyboard n)} {kb : Keyboard n}

theorem kbs_of_connected (hw : w.connected = kept ++ kb :: rest) :
    w.kbs kept.length = kb ∧ kept.length < w.nKbs := by
  have hlen : kept.length < w.connected.length := by
    rw [hw, List.length_append, List.length_cons]
    omega
  have hget := w.getElem_connected hlen
  refine ⟨?_, by rwa [World.connected, Buffer.length_slice] at hlen⟩
  rw [← hget]
  simp [hw]

theorem connected_close (hw : w.connected = kept ++ kb :: rest) (hroom : w.nKbs ≤ maxKbs) :
    (closeKeyboard kept.length w).connected = kept ++ rest := by
  obtain ⟨_, hlt⟩ := kbs_of_connected hw
  have hclose : (closeKeyboard kept.length w).connected = w.connected.eraseIdx kept.length :=
    Buffer.slice_close w.kbs hlt (by omega)
  rw [hclose, hw, List.eraseIdx_append_of_length_le (le_refl _), Nat.sub_self]
  rfl

/-- Nothing that the resolver does is the end of a keyboard. -/
theorem closedKeyboards_event (pass : Bool) (g : Fin n) (log : List (Fin n × Effect)) :
    closedKeyboards ((if pass then [.resolve g] else []) ++
      log.map fun x => .keyboard (.loop x)) = [] := by
  apply List.filterMap_eq_nil_iff.mpr
  intro x hx
  rcases List.mem_append.mp hx with hx | hx
  · cases pass with
    | true =>
      rw [List.mem_singleton.mp hx]
    | false => exact absurd hx List.not_mem_nil
  · obtain ⟨y, _, rfl⟩ := List.mem_map.mp hx
    rfl

/-- **One iteration.** The keyboard at the border is visited: it stays, and the border moves on,
    or it is removed, and the keyboards behind it move up. -/
theorem readKeyboard_split (hw : w.connected = kept ++ kb :: rest) (hroom : w.nKbs ≤ maxKbs)
    (h : readKeyboard ready kept.length r w = .ok (i', w', l)) :
    w'.nKbs ≤ maxKbs ∧
      if ready kb.fd && r.isFailed then
        i' = kept.length ∧ w'.connected = kept ++ rest ∧ closedKeyboards l = [kb]
      else i' = (kept ++ [kb]).length ∧ w'.connected = (kept ++ [kb]) ++ rest ∧
        closedKeyboards l = [] := by
  have hsame : w.connected = (kept ++ [kb]) ++ rest := by rw [hw, List.append_cons]
  have hlen : kept.length + 1 = (kept ++ [kb]).length := by simp
  obtain ⟨hkb, _⟩ := kbs_of_connected hw
  have hcases := readKeyboard_cases h
  rw [hkb] at hcases
  rcases hcases with ⟨hnone, rfl, rfl, rfl⟩ | ⟨hready, rfl, rfl, rfl, rfl⟩ |
    ⟨input, pass, _, loop, log, _, rfl, _, _, rfl, rfl, rfl⟩
  · -- it is not ready, or has sent nothing
    have hstays : (ready kb.fd && r.isFailed) = false := by
      rcases hnone with hready | rfl
      · rw [hready, Bool.false_and]
      · exact Bool.and_false _
    rw [hstays]
    exact ⟨hroom, hlen, hsame, rfl⟩
  · -- its `read` failed
    rw [hready]
    exact ⟨(Nat.sub_le _ _).trans hroom, rfl, connected_close hw hroom, rfl⟩
  · -- it has sent an event
    have hstays : (ready kb.fd && (KeyboardRead.event input).isFailed) = false :=
      Bool.and_false _
    rw [hstays]
    exact ⟨hroom, hlen, hsame, closedKeyboards_event pass kb.grab log⟩

/-- Either way the border is in front of the next keyboard. -/
theorem readKeyboard_border (hw : w.connected = kept ++ kb :: rest) (hroom : w.nKbs ≤ maxKbs)
    (h : readKeyboard ready kept.length r w = .ok (i', w', l)) :
    w'.nKbs ≤ maxKbs ∧ ∃ kept', w'.connected = kept' ++ rest ∧ i' = kept'.length := by
  obtain ⟨hroom', hsplit⟩ := readKeyboard_split hw hroom h
  refine ⟨hroom', ?_⟩
  split at hsplit
  · exact ⟨kept, hsplit.2.1, hsplit.1⟩
  · exact ⟨kept ++ [kb], hsplit.2.1, hsplit.1⟩

theorem readKeyboard_nKbs (h : readKeyboard ready i r w = .ok (i', w', l)) :
    w'.nKbs ≤ w.nKbs := by
  rcases readKeyboard_cases h with ⟨_, _, rfl, _⟩ | ⟨_, _, _, rfl, _⟩ |
    ⟨_, _, _, _, _, _, _, _, _, _, rfl, _⟩
  · exact le_refl _
  · exact Nat.sub_le _ _
  · exact le_refl _

/-- The program stops only because of an event. -/
theorem readKeyboard_error {a : Abort} (h : readKeyboard ready i r w = .error a) :
    ready (w.kbs i).fd = true ∧ ∃ ev, r = .event ev := by
  unfold readKeyboard at h
  split at h
  · rename_i hready
    cases r with
    | again => exact absurd h (by simp)
    | failed => exact absurd h (by simp [handleInput, bind, Except.bind])
    | event ev => exact ⟨hready, ev, rfl⟩
  · exact absurd h (by simp)

/-- The calls of one iteration. -/
theorem keyboardCalls_fds (ready : Fd → Bool) (r : KeyboardRead) (hkb : w.kbs i = kb) :
    readFds (keyboardCalls ready i r w) = (if ready kb.fd then [kb.fd] else []) ∧
      failedFds (keyboardCalls ready i r w) =
        (if ready kb.fd && r.isFailed then [kb.fd] else []) ∧
      closedFds (keyboardCalls ready i r w) = failedFds (keyboardCalls ready i r w) := by
  subst hkb
  unfold keyboardCalls
  cases hready : ready (w.kbs i).fd with
  | false => exact ⟨rfl, rfl, rfl⟩
  | true =>
    cases r with
    | again => exact ⟨rfl, rfl, rfl⟩
    | failed => exact ⟨rfl, rfl, rfl⟩
    | event ev => exact ⟨rfl, rfl, rfl⟩

/-- `memmove` moves the cells behind the `i`-th one. -/
theorem keyboardCalls_inside (ready : Fd → Bool) (r : KeyboardRead) (w : World n)
    (hi : i < maxKbs) :
    ∀ c ∈ keyboardCalls ready i r w, c.Inside := by
  intro c hc
  unfold keyboardCalls at hc
  split at hc
  · cases r with
    | failed =>
      simp only [List.mem_cons, List.not_mem_nil, or_false] at hc
      rcases hc with rfl | rfl | rfl
      · trivial
      · trivial
      · show (0 : Int) ≤ (maxKbs : Int) - i - 1 ∧ (i : Int) + ((maxKbs : Int) - i - 1) ≤ maxKbs ∧
          ((i + 1 : Nat) : Int) + ((maxKbs : Int) - i - 1) ≤ maxKbs
        omega
    | again =>
      rw [List.mem_singleton.mp hc]
      trivial
    | event ev =>
      rw [List.mem_singleton.mp hc]
      trivial
  · exact absurd hc List.not_mem_nil

end Iteration

/-! ### The whole pass -/

section Pass

variable {ready : Fd → Bool} {fuel : Nat} {reads : Nat → KeyboardRead} {w w' : World n}
  {l : List (LoopEffect n)} {kept rest : List (Keyboard n)}

theorem readFds_append (c₁ c₂ : List PassCall) : readFds (c₁ ++ c₂) = readFds c₁ ++ readFds c₂ :=
  List.filterMap_append

theorem failedFds_append (c₁ c₂ : List PassCall) :
    failedFds (c₁ ++ c₂) = failedFds c₁ ++ failedFds c₂ := List.filterMap_append

theorem closedFds_append (c₁ c₂ : List PassCall) :
    closedFds (c₁ ++ c₂) = closedFds c₁ ++ closedFds c₂ := List.filterMap_append

theorem closedKeyboards_append (l₁ l₂ : List (LoopEffect n)) :
    closedKeyboards (l₁ ++ l₂) = closedKeyboards l₁ ++ closedKeyboards l₂ :=
  List.filterMap_append

theorem readyFds_cons (ready : Fd → Bool) (kb : Keyboard n) (rest : List (Keyboard n)) :
    ((kb :: rest).filter fun kb => ready kb.fd).map Keyboard.fd =
      (if ready kb.fd then [kb.fd] else []) ++
        (rest.filter fun kb => ready kb.fd).map Keyboard.fd := by
  cases hready : ready kb.fd <;> simp [hready]

theorem passCalls_ok {i i' : Nat} (hi : i < w.nKbs)
    (h : readKeyboard ready i (reads 0) w = .ok (i', w', l)) :
    passCalls ready (fuel + 1) reads i w =
      keyboardCalls ready i (reads 0) w ++ passCalls ready fuel (fun j => reads (j + 1)) i' w' := by
  rw [passCalls, if_pos hi, h]

theorem passCalls_error {i : Nat} {a : Abort} (hi : i < w.nKbs)
    (h : readKeyboard ready i (reads 0) w = .error a) :
    passCalls ready (fuel + 1) reads i w = keyboardCalls ready i (reads 0) w := by
  rw [passCalls, if_pos hi, h]
  exact List.append_nil _

/-- Nothing is left to be visited. -/
theorem readKeyboards_done (ready : Fd → Bool) (fuel : Nat) (reads : Nat → KeyboardRead)
    (hw : w.connected = kept ++ []) :
    readKeyboards ready fuel reads kept.length w = .ok (w, []) ∧
      passCalls ready fuel reads kept.length w = [] := by
  have hdone : ¬ kept.length < w.nKbs := by
    have hlen := congrArg List.length hw
    rw [World.connected, Buffer.length_slice, List.append_nil] at hlen
    omega
  cases fuel with
  | zero => exact ⟨rfl, rfl⟩
  | succ fuel =>
    rw [readKeyboards, passCalls, if_neg hdone, if_neg hdone]
    exact ⟨rfl, rfl⟩

/-- **The walk.** In front of `i` are the keyboards that stay, from `i` on those that are still
    to be visited, and a pass does to them what the walk through a list does. -/
theorem readKeyboards_walk (hw : w.connected = kept ++ rest) (hroom : w.nKbs ≤ maxKbs)
    (hfuel : rest.length ≤ fuel)
    (h : readKeyboards ready fuel reads kept.length w = .ok (w', l)) :
    (w'.connected = kept ++ ((answers ready reads rest).filter fun a => !a.2).map Prod.fst ∧
      closedKeyboards l = ((answers ready reads rest).filter fun a => a.2).map Prod.fst) ∧
    readFds (passCalls ready fuel reads kept.length w) =
        (rest.filter fun kb => ready kb.fd).map Keyboard.fd ∧
      failedFds (passCalls ready fuel reads kept.length w) =
        (((answers ready reads rest).filter fun a => a.2).map Prod.fst).map Keyboard.fd := by
  induction rest generalizing kept fuel reads w l with
  | nil =>
    obtain ⟨hrun, hcalls⟩ := readKeyboards_done ready fuel reads hw
    rw [hcalls]
    cases hrun.symm.trans h
    exact ⟨⟨hw, rfl⟩, rfl, rfl⟩
  | cons kb rest ih =>
    obtain ⟨fuel, rfl⟩ : ∃ m, fuel = m + 1 := Nat.exists_eq_succ_of_ne_zero (by
      rw [List.length_cons] at hfuel
      omega)
    obtain ⟨hkb, hi⟩ := kbs_of_connected hw
    rw [readKeyboards, if_pos hi] at h
    obtain ⟨⟨i', w₁, l₁⟩, hread, h⟩ := Steps.bind_eq_ok.mp h
    obtain ⟨⟨w₂, l₂⟩, hrest, h⟩ := Steps.bind_eq_ok.mp h
    cases h
    obtain ⟨hroom', hsplit⟩ := readKeyboard_split hw hroom hread
    obtain ⟨hreads, hfails, _⟩ := keyboardCalls_fds ready (reads 0) hkb
    rw [passCalls_ok hi hread, readFds_append, failedFds_append, hreads, hfails,
      closedKeyboards_append, answers]
    have hfuel' : rest.length ≤ fuel := Nat.le_of_succ_le_succ hfuel
    cases hfail : ready kb.fd && (reads 0).isFailed with
    | true =>
      rw [hfail, if_pos rfl] at hsplit
      obtain ⟨rfl, hw', hclosed⟩ := hsplit
      obtain ⟨⟨hkept, hlog⟩, hreads', hfails'⟩ := ih hw' hroom' hfuel' hrest
      have hready : ready kb.fd = true := (Bool.and_eq_true_iff.mp hfail).1
      rw [hkept, hlog, hreads', hfails', hclosed, hready]
      simp [hready]
    | false =>
      rw [hfail, if_neg Bool.false_ne_true] at hsplit
      obtain ⟨rfl, hw', hclosed⟩ := hsplit
      obtain ⟨⟨hkept, hlog⟩, hreads', hfails'⟩ := ih hw' hroom' hfuel' hrest
      rw [hkept, hlog, hreads', hfails', hclosed]
      cases hready : ready kb.fd <;> simp [hready]

/-- If the program stops in a pass, the reads so far are those of the first ready keyboards. -/
theorem readKeyboards_cut {a : Abort} (hw : w.connected = kept ++ rest) (hroom : w.nKbs ≤ maxKbs)
    (h : readKeyboards ready fuel reads kept.length w = .error a) :
    readFds (passCalls ready fuel reads kept.length w) <+:
        (rest.filter fun kb => ready kb.fd).map Keyboard.fd ∧
      ∃ front fd ev,
        passCalls ready fuel reads kept.length w = front ++ [.read fd (.event ev)] := by
  induction fuel generalizing kept rest reads w with
  | zero => exact absurd h (by simp [readKeyboards])
  | succ fuel ih =>
    cases rest with
    | nil => exact absurd ((readKeyboards_done ready (fuel + 1) reads hw).1.symm.trans h) (by simp)
    | cons kb rest =>
      obtain ⟨hkb, hi⟩ := kbs_of_connected hw
      obtain ⟨hreads, _⟩ := keyboardCalls_fds ready (reads 0) hkb
      rw [readKeyboards, if_pos hi] at h
      rw [readyFds_cons, ← hreads]
      cases hread : readKeyboard ready kept.length (reads 0) w with
      | error e =>
        obtain ⟨hready, ev, hev⟩ := readKeyboard_error hread
        rw [passCalls_error hi hread]
        refine ⟨List.prefix_append _ _, [], (w.kbs kept.length).fd, ev, ?_⟩
        unfold keyboardCalls
        rw [hev, if_pos hready]
        rfl
      | ok x =>
        obtain ⟨i', w₁, l₁⟩ := x
        obtain ⟨hroom', kept', hw', rfl⟩ := readKeyboard_border hw hroom hread
        rw [passCalls_ok hi hread, readFds_append]
        have hstop : readKeyboards ready fuel (fun j => reads (j + 1)) kept'.length w₁ =
            .error a := by
          rw [hread] at h
          cases hrest : readKeyboards ready fuel (fun j => reads (j + 1)) kept'.length w₁ with
          | error e =>
            simp only [bind, Except.bind, hrest] at h
            exact h
          | ok x => exact absurd h (by simp [bind, Except.bind, hrest])
        obtain ⟨hfront, front, fd, ev, hlast⟩ := ih hw' hroom' hstop
        refine ⟨(List.prefix_append_right_inj _).mpr hfront,
          keyboardCalls ready kept.length (reads 0) w ++ front, fd, ev, ?_⟩
        rw [hlast, List.append_assoc]

/-- Whatever is removed, `memmove` stays inside the array. -/
theorem passCalls_inside (hroom : w.nKbs ≤ maxKbs) {i : Nat} :
    ∀ c ∈ passCalls ready fuel reads i w, c.Inside := by
  induction fuel generalizing reads i w with
  | zero => exact fun c hc => absurd hc List.not_mem_nil
  | succ fuel ih =>
    by_cases hi : i < w.nKbs
    · have hfirst := keyboardCalls_inside ready (reads 0) w (hi.trans_le hroom)
      cases hread : readKeyboard ready i (reads 0) w with
      | error e =>
        rw [passCalls_error hi hread]
        exact hfirst
      | ok x =>
        obtain ⟨i', w₁, l₁⟩ := x
        rw [passCalls_ok hi hread]
        exact List.forall_mem_append.mpr ⟨hfirst, ih ((readKeyboard_nKbs hread).trans hroom)⟩
    · rw [passCalls, if_neg hi]
      exact fun c hc => absurd hc List.not_mem_nil

/-- Exactly the keyboards whose `read` failed are closed. -/
theorem passCalls_closed {i : Nat} :
    closedFds (passCalls ready fuel reads i w) = failedFds (passCalls ready fuel reads i w) := by
  induction fuel generalizing reads i w with
  | zero => rfl
  | succ fuel ih =>
    by_cases hi : i < w.nKbs
    · obtain ⟨_, _, hclosed⟩ :=
        keyboardCalls_fds ready (reads 0) (i := i) (w := w) rfl
      cases hread : readKeyboard ready i (reads 0) w with
      | error e =>
        rw [passCalls_error hi hread]
        exact hclosed
      | ok x =>
        obtain ⟨i', w₁, l₁⟩ := x
        rw [passCalls_ok hi hread, closedFds_append, failedFds_append, hclosed, ih]
    · rw [passCalls, if_neg hi]
      rfl

end Pass

/-- **One pass.** Each ready keyboard of the table is read once and no other descriptor is; the
    keyboards whose `read` failed are closed once and are the only ones that are removed.  If
    the program stops in the resolver, the pass ends with the event that was read last. -/
theorem pass_exact (ready : Fd → Bool) (reads : Nat → KeyboardRead) {w : World n}
    (hroom : w.nKbs ≤ maxKbs) (hfds : (w.connected.map Keyboard.fd).Nodup) :
    (∀ c ∈ passCalls ready w.nKbs reads 0 w, c.Inside) ∧
    match readKeyboards ready w.nKbs reads 0 w with
    | .ok (w', log) => PassExact ready w (passCalls ready w.nKbs reads 0 w) w' log
    | .error _ =>
      readFds (passCalls ready w.nKbs reads 0 w) <+:
          (w.connected.filter fun kb => ready kb.fd).map Keyboard.fd ∧
        ∃ front fd ev, passCalls ready w.nKbs reads 0 w = front ++ [.read fd (.event ev)] := by
  refine ⟨passCalls_inside hroom, ?_⟩
  have hstart : w.connected = [] ++ w.connected := rfl
  cases h : readKeyboards ready w.nKbs reads 0 w with
  | error a => exact readKeyboards_cut hstart hroom h
  | ok x =>
    obtain ⟨w', log⟩ := x
    have hfuel : w.connected.length ≤ w.nKbs := by rw [World.connected, Buffer.length_slice]
    obtain ⟨⟨hkept, hlog⟩, hreads, hfails⟩ := readKeyboards_walk hstart hroom hfuel h
    rw [List.length_nil] at hreads hfails
    have hfst := answers_fst ready reads w.connected
    obtain ⟨hmarked, hunmarked⟩ := filter_marked Keyboard.fd
      (answers ready reads w.connected) (by rwa [hfst])
    rw [hfst] at hmarked hunmarked
    have hnodup : ∀ {p : Keyboard n → Bool}, ((w.connected.filter p).map Keyboard.fd).Nodup :=
      hfds.sublist (List.filter_sublist.map _)
    refine ⟨hreads, fun fd => ?_, ?_, ?_, fun fd => ?_⟩
    · show (readFds (passCalls ready w.nKbs reads 0 w)).count fd = _
      have hmem : fd ∈ (w.connected.filter fun kb => ready kb.fd).map Keyboard.fd ↔
          fd ∈ w.connected.map Keyboard.fd ∧ ready fd = true := by
        simp only [List.mem_map, List.mem_filter]
        constructor
        · rintro ⟨kb, ⟨hkb, hready⟩, rfl⟩
          exact ⟨⟨kb, hkb, rfl⟩, hready⟩
        · rintro ⟨⟨kb, hkb, rfl⟩, hready⟩
          exact ⟨kb, ⟨hkb, hready⟩, rfl⟩
      rw [hreads, hnodup.count]
      simp only [hmem]
    · rw [hkept, hfails]
      exact hunmarked
    · rw [hlog, hfails]
      exact hmarked
    · show (closedFds (passCalls ready w.nKbs reads 0 w)).count fd = _
      have hfailed : (failedFds (passCalls ready w.nKbs reads 0 w)).Nodup := by
        rw [hfails, hmarked]
        exact hnodup
      rw [passCalls_closed, hfailed.count]

/-- Four keyboards, at the descriptors from 3 to 6. -/
def fourKeyboards : World 1 :=
  { worldInit (fun j => ⟨j + 3, soleGrab⟩) fun _ => .ktMap fun _ => .ktNone with nKbs := 4 }

/-- Both first keyboards and the last one are unplugged, and the third one is not ready. -/
theorem pass_exact_four :
    let ready : Fd → Bool := fun fd => decide (fd ≠ 5)
    ∃ w' log, readKeyboards ready 4 (fun _ => .failed) 0 fourKeyboards = .ok (w', log) ∧
      w'.connected = [⟨5, soleGrab⟩] ∧
      PassExact ready fourKeyboards (passCalls ready 4 (fun _ => .failed) 0 fourKeyboards) w'
        log := by
  intro ready
  have hpass := (pass_exact ready (fun _ => .failed) (w := fourKeyboards) (by decide) (by decide)).2
  exact ⟨_, _, rfl, rfl, hpass⟩

end Sdiol
