import Sdiol.Lua
import Sdiol.Ownership

namespace Sdiol

/-!
# Copies of key actions

`key_action_dup` when `malloc` may fail at any point.  A copy that succeeds is laid out in new
blocks and stands for what the original stands for.  One that fails returns -1 and leaves the
input alone, but it does not always free what it has allocated: the dual key frees the two
cells and not what the tap holds, and the loop that takes back the elements of a map frees the
first one over and over.  `Unwinds` says when nothing is left behind.
-/

/-! ### When nothing is left behind -/

/-- The elements of a map, from some element on, when `malloc` succeeds `k` times more: those
    that were copied own nothing, except the first, and the one that fails leaves nothing
    behind. -/
def EntriesUnwind (size : KeyCode → Nat) (unwinds : KeyCode → Nat → Prop) :
    List KeyCode → Nat → Prop
  | [], _ => True
  | i :: is, k =>
    if k < size i then unwinds i k
    else (i = 0 ∨ size i = 0) ∧ EntriesUnwind size unwinds is (k - size i)

/-- A copy that `malloc` fails after `k` calls leaves nothing behind: wherever the hold of a
    dual key fails the tap owns nothing, and wherever an element of a map fails those between
    the first one and it own nothing. -/
def KeyAction.Unwinds : KeyAction → Nat → Prop
  | ktNone, _ | ktRef _, _ | ktSimple _, _ => True
  | ktMacro _, _ => True
  | ktDual _ _ _, 0 => True
  | ktDual tap hold _, k + 1 =>
    if k < tap.mallocs then tap.Unwinds k
    else tap.mallocs = 0 ∧ (k = tap.mallocs ∨ hold.Unwinds (k - tap.mallocs - 1))
  | ktMap _, 0 => True
  | ktMap map, k + 1 =>
    EntriesUnwind (fun i => (map i).mallocs) (fun i => (map i).Unwinds) indices k

namespace Mem

open Heap (Freed Wrote Swept Extends Clean)

variable {refs : Nat → KeyAction → Prop} {h h' H : Mem} {ms : List MacroEvent}

/-! ### `key_macro_dup` -/

/-- The copy of a chain so far: the events up to `e`, at `new`, which is the copy of the one at
    `old`. -/
structure Growing (h : Mem) (done : List MacroEvent) (e : MacroEvent) (rest : List MacroEvent)
    (old new : Nat) (H : Mem) : Prop where
  ext : Extends h H
  copied : Segment H none (done ++ [e]) h.next H.next
  last : new + 1 = H.next
  chain : Chain h (e :: rest) (some old)

variable {done rest : List MacroEvent} {e e' : MacroEvent} {old new copy fuel : Nat}

theorem Growing.event (hg : Growing h done e rest old new H) :
    Segment H (some new) done h.next new ∧ H.block new = some (.event e none) := by
  obtain ⟨m, hdone, he, hm⟩ := Segment.append_iff.mp hg.copied
  have hnext : H.next = m + 1 := hm
  have hlast := hg.last
  obtain rfl : m = new := by omega
  exact ⟨hdone, he⟩

/-- One event more. -/
theorem Growing.step (hg : Growing h done e (e' :: rest) old new H) (copy fuel : Nat)
    (hleft : H.left ≠ 0) :
    ∃ H' old', keyMacroDupLoop copy (fuel + 1) old new H =
        keyMacroDupLoop copy fuel old' H.next H' ∧
      Growing h (done ++ [e]) e' rest old' H.next H' := by
  obtain ⟨p, next, hp, hold, q, next', rfl, hq, hrest⟩ := hg.chain
  obtain rfl : old = p := Option.some.inj hp
  have hold := hg.ext.block hold
  have hcopied := hg.ext.block hq
  obtain ⟨hdone, hnew⟩ := hg.event
  have hlast := hg.last
  have hpush := Heap.extends_push hleft (Block.event e' none)
  obtain ⟨H', hstore, hwrote⟩ :=
    Heap.exists_store (hpush.block hnew) (.event e (some H.next))
  have hnext' : H'.next = H.next + 1 := hwrote.next
  have hother : ∀ r, r ≠ new → r ≠ H.next → H'.block r = H.block r := by
    intro r hne hne'
    rw [hwrote.elsewhere r hne, Heap.push_block_of_ne H _ hne']
  -- the new event is allocated first, and then the last one is made to point to it
  refine ⟨H', q, ?_, (hg.ext.trans hpush).wrote hwrote ?_, ?_, hnext'.symm, ?_⟩
  · simp only [keyMacroDupLoop, keyMacroNew, Heap.malloc_of_left hleft, eventAt_eq hold,
      eventAt_eq hcopied, eventAt_eq (hpush.block hnew), hstore, Option.bind_eq_bind,
      Option.bind_some]
  · have hle := hdone.length
    omega
  · rw [hnext']
    refine Segment.append_iff.mpr ⟨H.next, Segment.append_iff.mpr ⟨new, ?_, ?_, ?_⟩, ?_, rfl⟩
    · refine hdone.congr fun r _ hlt => hother r (by omega) (by omega)
    · exact hwrote.here
    · exact hlast.symm
    · rw [hwrote.elsewhere _ (by omega)]
      exact Heap.push_block_next H _
  · exact ⟨q, next', rfl, hq, hrest⟩

/-- There is nothing left to copy. -/
theorem Growing.stop (hg : Growing h done e [] old new H) :
    keyMacroDupLoop copy (fuel + 1) old new H = some (H, some copy) := by
  obtain ⟨p, next, hp, hold, hnext⟩ := hg.chain
  obtain rfl : old = p := Option.some.inj hp
  obtain rfl : next = none := hnext
  simp only [keyMacroDupLoop, eventAt_eq (hg.ext.block hold), Option.bind_eq_bind,
    Option.bind_some]

/-- The copy so far is freed. -/
theorem Growing.fail (hg : Growing h done e (e' :: rest) old new H) (fuel : Nat)
    (hleft : H.left = 0) :
    ∃ H', keyMacroDupLoop h.next (fuel + 1) old new H = some (H', none) ∧
      Freed h.next H.next H H' := by
  obtain ⟨p, next, hp, hold, q, next', rfl, hq, hrest⟩ := hg.chain
  obtain rfl : old = p := Option.some.inj hp
  obtain ⟨hdone, hnew⟩ := hg.event
  have hlen := hg.copied.length
  obtain ⟨H', hrun, hfreed⟩ :=
    keyMacroFree_segment hg.copied (show (done ++ [e]).length ≤ H.next by omega)
  have hstart : start none (done ++ [e]) h.next = some h.next := if_neg (by simp)
  rw [hstart] at hrun
  refine ⟨H', ?_, hfreed⟩
  simp only [keyMacroDupLoop, keyMacroNew, Heap.malloc_of_none hleft,
    eventAt_eq (hg.ext.block hold), eventAt_eq (hg.ext.block hq), eventAt_eq hnew,
    Heap.store_self hnew, hrun, Option.bind_eq_bind, Option.bind_some]

/-- **Loop.** The loop of `key_macro_dup` copies the rest of the chain, or frees the copy. -/
theorem Growing.loop (hg : Growing h done e rest old new H) (hfuel : rest.length < fuel) :
    (rest.length ≤ H.left → ∃ H', keyMacroDupLoop h.next fuel old new H = some (H', some h.next) ∧
      Extends h H' ∧ Segment H' none (done ++ e :: rest) h.next H'.next) ∧
    (H.left < rest.length → ∃ H', keyMacroDupLoop h.next fuel old new H = some (H', none) ∧
      Extends h H' ∧ Clean h.next H') := by
  obtain ⟨fuel, rfl⟩ := Nat.exists_eq_add_of_le' (Nat.one_le_of_lt hfuel)
  induction rest generalizing done e old new H fuel with
  | nil =>
    refine ⟨fun _ => ⟨H, hg.stop, hg.ext, hg.copied⟩, fun hlt => ?_⟩
    exact absurd hlt (Nat.not_lt_zero _)
  | cons e' rest ih =>
    rw [List.length_cons] at hfuel
    by_cases hleft : H.left = 0
    · -- `key_macro_new` fails
      refine ⟨fun hle => absurd hle (by simp [hleft]), fun _ => ?_⟩
      obtain ⟨H', hrun, hfreed⟩ := hg.fail fuel hleft
      exact ⟨H', hrun, hg.ext.freed hfreed le_rfl, hfreed.clean⟩
    · -- one event more
      obtain ⟨H', old', hrun, hg'⟩ := hg.step h.next fuel hleft
      obtain ⟨fuel, rfl⟩ := Nat.exists_eq_add_of_le' (show 1 ≤ fuel by omega)
      obtain ⟨hok, hfail⟩ := ih hg' fuel (by omega)
      have hbudget := hg.ext.budget
      have hbudget' := hg'.ext.budget
      have hlast := hg'.last
      rw [hrun, List.length_cons]
      refine ⟨fun hle => ?_, fun hlt => hfail (by omega)⟩
      have happ : done ++ e :: e' :: rest = done ++ [e] ++ e' :: rest := by simp
      rw [happ]
      exact hok (by omega)

/-- **Macros.** `key_macro_dup` makes a copy in new blocks, or frees what it has allocated. -/
theorem keyMacroDup_spec {p : Nat} (hne : ms ≠ []) (hchain : Chain h ms (some p))
    (hfuel : ms.length ≤ fuel) :
    (ms.length ≤ h.left → ∃ h', keyMacroDup fuel p h = some (h', some h.next) ∧
      Extends h h' ∧ Segment h' none ms h.next h'.next) ∧
    (h.left < ms.length → ∃ h', keyMacroDup fuel p h = some (h', none) ∧
      Extends h h' ∧ Clean h.next h') := by
  cases ms with
  | nil => exact absurd rfl hne
  | cons e rest =>
    obtain ⟨q, next, hq, he, hrest⟩ := hchain
    obtain rfl : p = q := Option.some.inj hq
    rw [List.length_cons] at hfuel ⊢
    by_cases hleft : h.left = 0
    · -- not even the first event is allocated
      refine ⟨fun hle => absurd hle (by simp [hleft]), fun _ => ⟨h, ?_, Extends.refl h, h.fresh⟩⟩
      simp only [keyMacroDup, keyMacroNew, eventAt_eq he, Heap.malloc_of_none hleft,
        Option.bind_eq_bind, Option.bind_some]
    · -- after it, the loop starts with a copy of one event
      have hg : Growing h [] e rest p h.next (h.push (.event e none)) :=
        { ext := Heap.extends_push hleft _
          copied := ⟨Heap.push_block_next h _, rfl⟩
          last := rfl
          chain := ⟨p, next, rfl, he, hrest⟩ }
      have hrun : keyMacroDup fuel p h =
          keyMacroDupLoop h.next fuel p h.next (h.push (.event e none)) := by
        simp only [keyMacroDup, keyMacroNew, eventAt_eq he, Heap.malloc_of_left hleft,
          Option.bind_eq_bind, Option.bind_some]
      have hloop := hg.loop hfuel
      rw [← hrun, Heap.push_left] at hloop
      exact ⟨fun hle => hloop.1 (by omega), fun hlt => hloop.2 (by omega)⟩

/-! ### The elements of a map -/

variable {cells : KeyCode → Cell}

/-- What `dup` makes of a tree: a copy in new blocks, or nothing that `*out` points to. -/
def Dups (refs : Nat → KeyAction → Prop) (dup : Cell → Mem → Option (Mem × Int32 × Cell))
    (tree : KeyAction) : Prop :=
  ∀ h ka, Represents refs h tree ka →
    (tree.mallocs ≤ h.left → ∃ h' out, dup ka h = some (h', 0, out) ∧ Extends h h' ∧
      Laid refs h' tree h.next h'.next out) ∧
    (h.left < tree.mallocs → ∃ h', dup ka h = some (h', -1, .zero) ∧ Extends h h' ∧
      (Clean h.next h' ↔ tree.Unwinds h.left))

/-- Once the first element is zero, freeing it does nothing. -/
theorem unwindMap_zero {out : Nat} (hout : h.block out = some (.actions cells))
    (hzero : cells 0 = .zero) (i : UInt64) : unwindMap out i h = some h := by
  -- the counter runs until it is 0 again
  induction i, h using unwindMap.induct with
  | case1 h => rw [unwindMap, if_pos rfl]
  | case2 i h hi ih =>
    rw [unwindMap, if_neg hi, freeEntry_zero hout hzero]
    exact ih h hout

/-- The copy of a map so far, whose first element ends at `m`. -/
structure Filling (refs : Nat → KeyAction → Prop) (h : Mem) (first : KeyAction) (m : Nat)
    (copies : KeyCode → Cell) (H : Mem) : Prop where
  ext : Extends h H
  here : H.block h.next = some (.actions copies)
  first : Laid refs H first (h.next + 1) m (copies 0)
  le : m ≤ H.next
  live : ∀ p, m ≤ p → p < H.next → H.block p ≠ none

variable {first tree : KeyAction} {copies : KeyCode → Cell} {m p : Nat} {ka : Cell}
  {i : KeyCode} {H₁ H₂ : Mem}

/-- What an element adds to the copy. -/
theorem Filling.copied (hf : Filling refs h first m copies H) (hi : i ≠ 0)
    (hext : Extends H H₁) (hl : Laid refs H₁ tree H.next H₁.next ka)
    (hw : Wrote h.next (some (.actions (Function.update copies i ka))) H₁ H₂) :
    Filling refs h first m (Function.update copies i ka) H₂ ∧
      Laid refs H₂ tree H.next H₂.next ka ∧
      ∀ q, q ≠ h.next → q < H.next → H₂.block q = H.block q := by
  have hlt := Heap.lt_next hf.here
  have hle := hf.le
  have hm := hf.first.le
  have hold : ∀ q, q ≠ h.next → q < H.next → H₂.block q = H.block q :=
    fun _ hne hq => hext.kept_wrote hw hne hq
  have hl₂ : Laid refs H₂ tree H.next H₂.next ka := by
    rw [hw.next]
    exact hl.congr fun q hq _ => hw.elsewhere q (by omega)
  refine ⟨?_, hl₂, hold⟩
  -- the first element and the live blocks are below what is new
  constructor
  · exact (hf.ext.trans hext).wrote hw le_rfl
  · exact hw.here
  · rw [Function.update_of_ne hi.symm]
    exact hf.first.congr fun q hq hq' => hold q (by omega) (by omega)
  · exact hle.trans hl₂.le
  · intro q hq hq'
    by_cases hnew : q < H.next
    · rw [hold q (by omega) hnew]
      exact hf.live q hq hnew
    · exact hl₂.live (by omega) hq'

theorem ofNat_ne_zero (hi : i ≠ 0) : UInt64.ofNat i.val ≠ 0 := by
  intro heq
  have hnat : i.val % 2 ^ 64 = 0 := congrArg UInt64.toNat heq
  have hlt : i.val < 2 ^ 64 := i.isLt.trans (by decide)
  rw [Nat.mod_eq_of_lt hlt] at hnat
  exact hi (Fin.ext hnat)

/-- **Unwinding.** If an element fails, the first one is freed, and the map; what the elements
    between them own is lost. -/
theorem Filling.unwind (hf : Filling refs h first m copies H) (hi : i ≠ 0)
    (hext : Extends H H₁)
    (hw : Wrote h.next (some (.actions (Function.update copies i .zero))) H₁ H₂) :
    ∃ H₃ H', unwindMap h.next (UInt64.ofNat i.val) H₂ = some H₃ ∧ H₃.free h.next = some H' ∧
      Extends h H' ∧ (Clean h.next H' ↔ m = H.next ∧ Clean H.next H₁) := by
  have hlt := Heap.lt_next hf.here
  have hle := hf.le
  have hmsize := hf.first.size
  have hnext := hext.next.trans_eq hw.next.symm
  have hold : ∀ q, q ≠ h.next → q < H.next → H₂.block q = H.block q :=
    fun _ hne hq => hext.kept_wrote hw hne hq
  have hfirst : Laid refs H₂ first (h.next + 1) m (Function.update copies i .zero 0) := by
    rw [Function.update_of_ne hi.symm]
    exact hf.first.congr fun q hq hq' => hold q (by omega) (by omega)
  -- the first time around, the first element is freed
  obtain ⟨H₃, hrun, hswept⟩ :=
    freeEntry_laid (keyActionFree_laid (show first.mallocs < H₂.next + 1 by omega)) hw.here hfirst
      (Nat.lt_succ_self h.next)
  -- from then on there is nothing to free
  have hrun' : unwindMap h.next (UInt64.ofNat i.val) H₂ = some H₃ := by
    rw [unwindMap, if_neg (ofNat_ne_zero hi), hrun]
    exact unwindMap_zero hswept.here (Function.update_self ..) _
  obtain ⟨H', hfree, hfreed⟩ := Heap.exists_free hswept.here
  have hgone := hswept.freed hfreed hf.first.le
  have hext' := ((hf.ext.trans hext).wrote hw le_rfl).freed hgone le_rfl
  refine ⟨H₃, H', hrun', hfree, hext', ?_⟩
  constructor
  · intro hclean
    have hclean' : ∀ q, m ≤ q → H₁.block q = none := by
      intro q hq
      rw [← hw.elsewhere q (by omega), ← hgone.kept q (.inr hq)]
      exact hclean q (by omega)
    refine ⟨?_, fun q hq => hclean' q (by omega)⟩
    -- a block between the first element and the one that failed would still be there
    by_contra hne
    apply hf.live m le_rfl (by omega)
    rw [← hext.kept m (by omega)]
    exact hclean' m le_rfl
  · rintro ⟨rfl, hclean⟩ q hq
    by_cases hqm : q < H.next
    · exact hgone.gone q hq hqm
    · rw [hgone.kept q (.inr (by omega)), hw.elsewhere q (by omega)]
      exact hclean q (by omega)

/-- The blocks that the elements of a map take. -/
def entriesSize (map : KeyCode → KeyAction) (is : List KeyCode) : Nat :=
  (is.map fun i => (map i).mallocs).sum

/-- What `Unwinds` asks of the elements of a map. -/
def EntriesClean (map : KeyCode → KeyAction) (is : List KeyCode) (k : Nat) : Prop :=
  EntriesUnwind (fun i => (map i).mallocs) (fun i => (map i).Unwinds) is k

variable {dup : Cell → Mem → Option (Mem × Int32 × Cell)} {map : KeyCode → KeyAction}
  {is : List KeyCode} {out : Nat}

/-- An element that is copied. -/
theorem Dups.copied (hdup : Dups refs dup tree) (hrep : Represents refs H tree (cells i))
    (hp : H.block p = some (.actions cells)) (hout : H.block out = some (.actions copies))
    (hle : tree.mallocs ≤ H.left) (is : List KeyCode) :
    ∃ H₁ H₂ ka, dupEntries dup p out (i :: is) H = dupEntries dup p out is H₂ ∧ Extends H H₁ ∧
      Laid refs H₁ tree H.next H₁.next ka ∧
      Wrote out (some (.actions (Function.update copies i ka))) H₁ H₂ := by
  obtain ⟨H₁, ka, hrun, hext, hlaid⟩ := (hdup H (cells i) hrep).1 hle
  obtain ⟨H₂, hstore, hwrote⟩ :=
    Heap.exists_store (hext.block hout) (.actions (Function.update copies i ka))
  have hret : ¬ (0 : Int32) ≠ 0 := not_not_intro rfl
  refine ⟨H₁, H₂, ka, ?_, hext, hlaid, hwrote⟩
  simp only [dupEntries, actionsAt_eq hp, hrun, actionsAt_eq (hext.block hout), hstore,
    if_neg hret, Option.bind_eq_bind, Option.bind_some]

/-- An element that fails. -/
theorem Dups.failed (hdup : Dups refs dup tree) (hrep : Represents refs H tree (cells i))
    (hp : H.block p = some (.actions cells)) (hout : H.block out = some (.actions copies))
    (hlt : H.left < tree.mallocs) (is : List KeyCode) :
    ∃ H₁ H₂, (∀ H₃ H', unwindMap out (UInt64.ofNat i.val) H₂ = some H₃ → H₃.free out = some H' →
        dupEntries dup p out (i :: is) H = some (H', false)) ∧ Extends H H₁ ∧
      (Clean H.next H₁ ↔ tree.Unwinds H.left) ∧
      Wrote out (some (.actions (Function.update copies i .zero))) H₁ H₂ := by
  obtain ⟨H₁, hrun, hext, hclean⟩ := (hdup H (cells i) hrep).2 hlt
  obtain ⟨H₂, hstore, hwrote⟩ :=
    Heap.exists_store (hext.block hout) (.actions (Function.update copies i .zero))
  have hret : (-1 : Int32) ≠ 0 := by decide
  refine ⟨H₁, H₂, fun H₃ H' hunwind hfree => ?_, hext, hclean, hwrote⟩
  simp only [dupEntries, actionsAt_eq hp, hrun, actionsAt_eq (hext.block hout), hstore,
    if_pos hret, hunwind, hfree, Option.bind_eq_bind, Option.bind_some]

/-- A list of elements takes what its first one takes and what the others take. -/
theorem entriesSize_cons (map : KeyCode → KeyAction) (i : KeyCode) (is : List KeyCode) :
    entriesSize map (i :: is) = (map i).mallocs + entriesSize map is := by
  rw [entriesSize, List.map_cons, List.sum_cons, entriesSize]

/-- **Maps.** The elements behind the first one are copied one after the other, until one
    fails. -/
theorem Filling.entries (hdup : ∀ i, Dups refs dup (map i))
    (hp : h.block p = some (.actions cells)) (hmap : ∀ i, Represents refs h (map i) (cells i))
    (h0 : 0 ∉ is) (hnodup : is.Nodup) (hf : Filling refs h first m copies H) :
    (entriesSize map is ≤ H.left → ∃ H' copies', dupEntries dup p h.next is H = some (H', true) ∧
      Filling refs h first m copies' H' ∧ (∀ j, j ∉ is → copies' j = copies j) ∧
      (∀ q, q ≠ h.next → q < H.next → H'.block q = H.block q) ∧
      Row (fun i a b => Laid refs H' (map i) a b (copies' i)) is H.next H'.next) ∧
    (H.left < entriesSize map is → ∃ H', dupEntries dup p h.next is H = some (H', false) ∧
      Extends h H' ∧ (Clean h.next H' ↔ m = H.next ∧ EntriesClean map is H.left)) := by
  induction is generalizing copies H with
  | nil =>
    refine ⟨fun _ => ⟨H, copies, rfl, hf, fun _ _ => rfl, fun _ _ _ => rfl, rfl⟩, fun hlt => ?_⟩
    exact absurd hlt (Nat.not_lt_zero _)
  | cons i is ih =>
    obtain ⟨hi0, h0⟩ := not_or.mp (mt List.mem_cons.mpr h0)
    obtain ⟨hi, hnodup⟩ := List.nodup_cons.mp hnodup
    have hrep := (hmap i).extends hf.ext
    have hcells := hf.ext.block hp
    have hsize := entriesSize_cons map i is
    by_cases hleft : H.left < (map i).mallocs
    · -- this element fails
      refine ⟨fun hle => absurd hle (by omega), fun _ => ?_⟩
      obtain ⟨H₁, H₂, hrun, hext, hclean, hwrote⟩ :=
        (hdup i).failed hrep hcells hf.here hleft is
      obtain ⟨H₃, H', hunwind, hfree, hext', hiff⟩ := hf.unwind (Ne.symm hi0) hext hwrote
      refine ⟨H', hrun H₃ H' hunwind hfree, hext', ?_⟩
      rw [hiff, hclean, EntriesClean, EntriesUnwind, if_pos hleft]
    · -- this element is copied, and the others are written behind it
      obtain ⟨H₁, H₂, ka, hstep, hext, hlaid, hwrote⟩ :=
        (hdup i).copied hrep hcells hf.here (by omega) is
      obtain ⟨hf₂, hlaid₂, hold⟩ := hf.copied (Ne.symm hi0) hext hlaid hwrote
      have hnext : H₂.next = H.next + (map i).mallocs := hlaid₂.size
      have hbudget := hf.ext.budget
      have hbudget₂ := hf₂.ext.budget
      obtain ⟨hok', hfail'⟩ := ih h0 hnodup hf₂
      rw [hstep, hsize]
      refine ⟨fun hle => ?_, fun hlt => ?_⟩
      · obtain ⟨H', copies', hrun', hf', hother, hold', hrow⟩ := hok' (by omega)
        refine ⟨H', copies', hrun', hf', fun j hj => ?_, fun q hne hq => ?_, H₂.next, ?_, hrow⟩
        · obtain ⟨hji, hj⟩ := not_or.mp (mt List.mem_cons.mpr hj)
          rw [hother j hj, Function.update_of_ne hji]
        · rw [hold' q hne (by omega), hold q hne hq]
        · show Laid refs H' (map i) H.next H₂.next (copies' i)
          rw [hother i hi, Function.update_self]
          have hout := Heap.lt_next hf.here
          exact hlaid₂.congr fun q hq hq' => hold' q (by omega) hq'
      · obtain ⟨H', hrun', hext', hiff⟩ := hfail' (by omega)
        refine ⟨H', hrun', hext', hiff.trans ?_⟩
        -- what the loop has copied so far stays, unless it owns nothing
        have hle := hf.le
        have hrest : H₂.left = H.left - (map i).mallocs := by omega
        rw [EntriesClean, EntriesClean, EntriesUnwind, if_neg hleft, hrest]
        constructor
        · rintro ⟨hm, hclean⟩
          exact ⟨by omega, .inr (by omega), hclean⟩
        · rintro ⟨hm, hzero, hclean⟩
          have hsize0 := hzero.resolve_left (Ne.symm hi0)
          exact ⟨by omega, hclean⟩

/-- **Maps.** All elements are copied, or the first that fails takes the map down with it. -/
theorem dupEntries_spec (hdup : ∀ i, Dups refs dup (map i))
    (hp : h.block p = some (.actions cells)) (hmap : ∀ i, Represents refs h (map i) (cells i))
    (hext : Extends h H) (hnext : H.next = h.next + 1)
    (hout : H.block h.next = some (.actions copies)) :
    (entriesSize map indices ≤ H.left → ∃ H' copies',
      dupEntries dup p h.next indices H = some (H', true) ∧ Extends h H' ∧
      H'.block h.next = some (.actions copies') ∧
      Row (fun i a b => Laid refs H' (map i) a b (copies' i)) indices (h.next + 1) H'.next) ∧
    (H.left < entriesSize map indices → ∃ H',
      dupEntries dup p h.next indices H = some (H', false) ∧ Extends h H' ∧
      (Clean h.next H' ↔ EntriesClean map indices H.left)) := by
  obtain ⟨is, hindices, h0⟩ := exists_indices_eq
  have hnodup := nodup_indices
  rw [hindices] at hnodup ⊢
  have hcells := hext.block hp
  have hrep := (hmap 0).extends hext
  have hsize := entriesSize_cons map 0 is
  by_cases hleft : H.left < (map 0).mallocs
  · -- the first element fails
    refine ⟨fun hle => absurd hle (by omega), fun _ => ?_⟩
    obtain ⟨H₁, H₂, hrun, hext₁, hclean, hwrote⟩ := (hdup 0).failed hrep hcells hout hleft is
    have hunwind : unwindMap h.next (UInt64.ofNat (0 : KeyCode).val) H₂ = some H₂ := by
      rw [unwindMap]
      exact if_pos rfl
    obtain ⟨H', hfree, hfreed⟩ := Heap.exists_free hwrote.here
    refine ⟨H', hrun H₂ H' hunwind hfree,
      ((hext.trans hext₁).wrote hwrote le_rfl).freed hfreed le_rfl, ?_⟩
    rw [hwrote.clean_iff hfreed, EntriesClean, EntriesUnwind, if_pos hleft, ← hclean, hnext]
  · -- the first element is copied: the loop over the others can start
    obtain ⟨H₁, H₂, ka, hstep, hext₁, hlaid, hwrote⟩ :=
      (hdup 0).copied hrep hcells hout (by omega) is
    rw [hnext] at hlaid
    have hf : Filling refs h (map 0) H₂.next (Function.update copies 0 ka) H₂ := by
      constructor
      · exact (hext.trans hext₁).wrote hwrote le_rfl
      · exact hwrote.here
      · rw [Function.update_self, hwrote.next]
        exact hlaid.congr fun q hq _ => hwrote.elsewhere q (by omega)
      · exact le_rfl
      · exact fun q hq hq' => absurd hq (by omega)
    have hsize₂ := hf.first.size
    have hbudget := hext.budget
    have hbudget₂ := hf.ext.budget
    obtain ⟨hok', hfail'⟩ := hf.entries hdup hp hmap h0 (List.nodup_cons.mp hnodup).2
    rw [hstep, hsize]
    refine ⟨fun hle => ?_, fun hlt => ?_⟩
    · obtain ⟨H', copies', hrun', hf', _, _, hrow⟩ := hok' (by omega)
      exact ⟨H', copies', hrun', hf'.ext, hf'.here, H₂.next, hf'.first, hrow⟩
    · obtain ⟨H', hrun', hext', hiff⟩ := hfail' (by omega)
      have hrest : H₂.left = H.left - (map 0).mallocs := by omega
      refine ⟨H', hrun', hext', ?_⟩
      rw [hiff, EntriesClean, EntriesClean, EntriesUnwind, if_neg hleft, hrest]
      constructor
      · rintro ⟨_, hclean⟩
        exact ⟨.inl rfl, hclean⟩
      · rintro ⟨_, hclean⟩
        exact ⟨rfl, hclean⟩

/-! ### `key_action_dup` -/

/-- Nothing is left of a tree from its first block on just if it has no block. -/
theorem Laid.clean_iff {a : Nat} (hl : Laid refs h tree a h.next ka) :
    Clean a h ↔ tree.mallocs = 0 := by
  have hsize := hl.size
  constructor
  · intro hclean
    by_contra hne
    exact hl.live le_rfl (by omega) (hclean a le_rfl)
  · intro hzero p hp
    exact h.fresh p (by omega)

variable {fuel : Nat} {tap hold : KeyAction} {dual : DualConfig} {c : Cell}

/-- The copy of a dual key whose tap was copied. -/
structure TapCopied (refs : Nat → KeyAction → Prop) (h : Mem) (tap : KeyAction) (c : Cell)
    (H : Mem) : Prop where
  ext : Extends h H
  here : H.block h.next = some (.action c)
  laid : Laid refs H tap (h.next + 1) H.next c

/-- **Unwinding.** If the hold fails, the two cells are freed; what the tap owns is lost. -/
theorem TapCopied.unwind (ht : TapCopied refs h tap c H)
    (hext : Extends (H.push (.action .zero)) H₁)
    (hpush : Extends H (H.push (.action .zero)))
    (hw : Wrote H.next (some (.action .zero)) H₁ H₂) :
    ∃ H₃ H', H₂.free h.next = some H₃ ∧ H₃.free H.next = some H' ∧ Extends h H' ∧
      (Clean h.next H' ↔ tap.mallocs = 0 ∧ Clean (H.next + 1) H₁) := by
  have hlt := Heap.lt_next ht.here
  have hsize := ht.laid.size
  have hkept : ∀ r, r < H.next → H₂.block r = H.block r :=
    fun r hr => (hpush.trans hext).kept_wrote hw (by omega) hr
  obtain ⟨H₃, hfree, hfreed⟩ := Heap.exists_free ((hkept h.next hlt).trans ht.here)
  have hhold : H₃.block H.next = some (.action .zero) := by
    rw [hfreed.kept _ (.inr (by omega)), hw.here]
  obtain ⟨H', hfree', hfreed'⟩ := Heap.exists_free hhold
  have hext₂ := ((ht.ext.trans hpush).trans hext).wrote hw (by omega)
  have hrest : ∀ r, r ≠ h.next → r ≠ H.next → H'.block r = H₂.block r := by
    intro r hne hne'
    rw [hfreed'.kept r (by omega), hfreed.kept r (by omega)]
  refine ⟨H₃, H', hfree, hfree', (hext₂.freed hfreed le_rfl).freed hfreed' (by omega), ?_⟩
  constructor
  · intro hclean
    refine ⟨?_, fun r hr => ?_⟩
    · -- the first block of the tap would still be there
      by_contra hsome
      apply ht.laid.live le_rfl (show h.next + 1 < H.next by omega)
      rw [← hkept _ (by omega), ← hrest _ (by omega) (by omega)]
      exact hclean _ (by omega)
    · rw [← hw.elsewhere r (by omega), ← hrest r (by omega) (by omega)]
      exact hclean r (by omega)
  · rintro ⟨hzero, hclean⟩ r hr
    -- the cell of the tap, the cell of the hold, and what the hold has left
    by_cases hrh : r = h.next
    · rw [hrh, hfreed'.kept _ (.inl hlt)]
      exact hfreed.gone _ le_rfl (by omega)
    by_cases hr' : r = H.next
    · rw [hr']
      exact hfreed'.gone _ le_rfl (by omega)
    · rw [hrest r hrh hr', hw.elsewhere r hr']
      exact hclean r (by omega)

/-- **Dual keys.** The hold, once the tap was copied. -/
theorem TapCopied.matchHold (ht : TapCopied refs h tap c H) (dual : DualConfig)
    (hdup : Dups refs dup hold)
    (hp : h.block p = some (.action ka)) (hrep : Represents refs h hold ka) :
    (1 + hold.mallocs ≤ H.left → ∃ h', dupHold dup p h.next dual H =
        some (h', 0, .ktDual h.next H.next dual) ∧ Extends h h' ∧
      Laid refs h' (.ktDual tap hold dual) h.next h'.next (.ktDual h.next H.next dual)) ∧
    (H.left < 1 + hold.mallocs → ∃ h', dupHold dup p h.next dual H = some (h', -1, .zero) ∧
      Extends h h' ∧
      (Clean h.next h' ↔ tap.mallocs = 0 ∧ (H.left = 0 ∨ hold.Unwinds (H.left - 1)))) := by
  have hlt := Heap.lt_next ht.here
  by_cases hleft : H.left = 0
  · -- there is no memory for the cell
    refine ⟨fun hle => absurd hle (by omega), fun _ => ?_⟩
    obtain ⟨H', hfree, hfreed⟩ := Heap.exists_free ht.here
    refine ⟨H', ?_, ht.ext.freed hfreed le_rfl, ?_⟩
    · simp only [dupHold, Heap.malloc_of_none hleft, hfree, Option.bind_eq_bind,
        Option.bind_some]
    · have hself : Wrote h.next (some (.action c)) H H := ⟨rfl, rfl, ht.here, fun _ _ => rfl⟩
      rw [hself.clean_iff hfreed, Laid.clean_iff ht.laid]
      exact ⟨fun hzero => ⟨hzero, .inl hleft⟩, fun hboth => hboth.1⟩
  have hpush := Heap.extends_push hleft (Block.action .zero)
  have hext := ht.ext.trans hpush
  obtain ⟨hok, hfail⟩ := hdup _ ka (hrep.extends hext)
  have hnext : (H.push (Block.action .zero)).next = H.next + 1 := rfl
  rw [Heap.push_left] at hok hfail
  by_cases hholdfail : H.left - 1 < hold.mallocs
  · -- the hold fails
    refine ⟨fun hle => absurd hle (by omega), fun _ => ?_⟩
    obtain ⟨H₁, hrun, hext₁, hclean⟩ := hfail hholdfail
    obtain ⟨H₂, hstore, hwrote⟩ :=
      Heap.exists_store (hext₁.block (Heap.push_block_next H _)) (.action .zero)
    obtain ⟨H₃, H', hfree, hfree', hext', hiff⟩ := ht.unwind hext₁ hpush hwrote
    have hret : (-1 : Int32) ≠ 0 := by decide
    refine ⟨H', ?_, hext', ?_⟩
    · simp only [dupHold, Heap.malloc_of_left hleft, actionAt_eq (hext.block hp), hrun, hstore,
        if_pos hret, hfree, hfree', Option.bind_eq_bind, Option.bind_some]
    · rw [hiff, or_iff_right hleft, ← hclean, hnext]
  · -- both are copied
    obtain ⟨H₁, c', hrun, hext₁, hlaid⟩ := hok (by omega)
    obtain ⟨H₂, hstore, hwrote⟩ :=
      Heap.exists_store (hext₁.block (Heap.push_block_next H _)) (.action c')
    have hret : ¬ (0 : Int32) ≠ 0 := not_not_intro rfl
    have hkept : ∀ r, r < H.next → H₂.block r = H.block r :=
      fun r hr => (hpush.trans hext₁).kept_wrote hwrote (by omega) hr
    refine ⟨fun _ => ⟨H₂, ?_, (hext.trans hext₁).wrote hwrote (by omega), ?_⟩,
      fun hlt' => absurd hlt' (by omega)⟩
    · simp only [dupHold, Heap.malloc_of_left hleft, actionAt_eq (hext.block hp), hrun, hstore,
        if_neg hret, Option.bind_eq_bind, Option.bind_some]
    · refine ⟨H.next, c, c', rfl, ?_, ?_, hwrote.here, ?_⟩
      · rw [hkept h.next hlt]
        exact ht.here
      · exact ht.laid.congr fun r _ hr => hkept r hr
      · rw [hwrote.next]
        exact hlaid.congr fun r hr _ => hwrote.elsewhere r (by omega)

/-- **Dual keys.** -/
theorem keyActionDup_dual (htap : Dups refs (keyActionDup fuel) tap)
    (hhold : Dups refs (keyActionDup fuel) hold) :
    Dups refs (keyActionDup (fuel + 1)) (.ktDual tap hold dual) := by
  rintro h ka ⟨p, q, t, u, rfl, hp, ht, hq, hu⟩
  rw [KeyAction.mallocs]
  by_cases hleft : h.left = 0
  · -- there is no memory for the cell of the tap
    refine ⟨fun hle => absurd hle (by omega), fun _ => ⟨h, ?_, Extends.refl h, ?_⟩⟩
    · simp only [keyActionDup, Heap.malloc_of_none hleft]
    · rw [hleft]
      exact iff_of_true h.fresh trivial
  obtain ⟨k, hk⟩ := Nat.exists_eq_succ_of_ne_zero hleft
  have hpush := Heap.extends_push hleft (Block.action .zero)
  obtain ⟨hok, hfail⟩ := htap _ t (ht.extends hpush)
  have hleft₁ : (h.push (Block.action .zero)).left = k := by rw [Heap.push_left, hk]; rfl
  rw [hleft₁] at hok hfail
  by_cases htapfail : k < tap.mallocs
  · -- the tap fails
    refine ⟨fun hle => absurd hle (by omega), fun _ => ?_⟩
    obtain ⟨H₁, hrun, hext, hclean⟩ := hfail htapfail
    obtain ⟨H₂, hstore, hwrote⟩ :=
      Heap.exists_store (hext.block (Heap.push_block_next h _)) (.action .zero)
    obtain ⟨H', hfree, hfreed⟩ := Heap.exists_free hwrote.here
    have hret : (-1 : Int32) ≠ 0 := by decide
    refine ⟨H', ?_, ((hpush.trans hext).wrote hwrote le_rfl).freed hfreed le_rfl, ?_⟩
    · simp only [keyActionDup, Heap.malloc_of_left hleft, actionAt_eq (hpush.block hp), hrun,
        hstore, hfree, if_pos hret, Option.bind_eq_bind, Option.bind_some]
    · rw [hwrote.clean_iff hfreed, hk, KeyAction.Unwinds, if_pos htapfail]
      exact hclean
  · -- the tap is copied, and what follows is about the hold
    obtain ⟨H₁, c, hrun, hext, hlaid⟩ := hok (by omega)
    rw [Heap.push_next] at hlaid
    obtain ⟨H₂, hstore, hwrote⟩ :=
      Heap.exists_store (hext.block (Heap.push_block_next h _)) (.action c)
    have hcopied : TapCopied refs h tap c H₂ := by
      refine ⟨(hpush.trans hext).wrote hwrote le_rfl, hwrote.here, ?_⟩
      rw [hwrote.next]
      exact hlaid.congr fun r hr _ => hwrote.elsewhere r (by omega)
    have hret : ¬ (0 : Int32) ≠ 0 := not_not_intro rfl
    have hstep : keyActionDup (fuel + 1) (.ktDual p q dual) h =
        dupHold (keyActionDup fuel) q h.next dual H₂ := by
      simp only [keyActionDup, Heap.malloc_of_left hleft, actionAt_eq (hpush.block hp), hrun,
        hstore, if_neg hret, Option.bind_eq_bind, Option.bind_some]
    have hsize := hcopied.laid.size
    have hbudget := hcopied.ext.budget
    obtain ⟨hok', hfail'⟩ := hcopied.matchHold dual hhold hq hu
    rw [hstep]
    refine ⟨fun hle => ?_, fun hlt => ?_⟩
    · obtain ⟨h', hrun', hext', hlaid'⟩ := hok' (by omega)
      exact ⟨h', _, hrun', hext', hlaid'⟩
    · obtain ⟨h', hrun', hext', hiff⟩ := hfail' (by omega)
      refine ⟨h', hrun', hext', ?_⟩
      have hrest : H₂.left = k - tap.mallocs := by omega
      have hzero : k - tap.mallocs = 0 ↔ k = tap.mallocs := by omega
      rw [hiff, hk, KeyAction.Unwinds, if_neg htapfail, hrest, hzero]

/-- **Macros.** -/
theorem keyActionDup_macro {chain : List MacroEvent} (hne : chain ≠ [])
    (hfuel : chain.length ≤ fuel) : Dups refs (keyActionDup (fuel + 1)) (.ktMacro chain) := by
  rintro h ka ⟨p, rfl, hchain⟩
  cases p with
  | none =>
    cases chain with
    | nil => exact absurd rfl hne
    | cons e rest =>
      obtain ⟨q, _, hq, _⟩ := hchain
      exact absurd hq (by simp)
  | some p =>
    obtain ⟨hok, hfail⟩ := keyMacroDup_spec hne hchain hfuel
    rw [KeyAction.mallocs]
    refine ⟨fun hle => ?_, fun hlt => ?_⟩
    · obtain ⟨h', hrun, hext, hseg⟩ := hok hle
      refine ⟨h', .ktMacro (some h.next), ?_, hext, ?_, hseg⟩
      · simp only [keyActionDup, hrun, Option.bind_eq_bind, Option.bind_some]
      · rw [start, if_neg hne]
    · obtain ⟨h', hrun, hext, hclean⟩ := hfail hlt
      refine ⟨h', ?_, hext, iff_of_true hclean trivial⟩
      simp only [keyActionDup, hrun, Option.bind_eq_bind, Option.bind_some]

/-- **Maps.** -/
theorem keyActionDup_map (hdup : ∀ i, Dups refs (keyActionDup fuel) (map i)) :
    Dups refs (keyActionDup (fuel + 1)) (.ktMap map) := by
  rintro h ka ⟨p, cells, rfl, hp, hmap⟩
  have hmallocs : (KeyAction.ktMap map).mallocs = 1 + entriesSize map indices := by
    rw [KeyAction.mallocs, entriesSize]
  rw [hmallocs]
  by_cases hleft : h.left = 0
  · -- there is no memory for the array
    refine ⟨fun hle => absurd hle (by omega), fun _ => ⟨h, ?_, Extends.refl h, ?_⟩⟩
    · simp only [keyActionDup, Heap.malloc_of_none hleft]
    · rw [hleft]
      exact iff_of_true h.fresh trivial
  obtain ⟨k, hk⟩ := Nat.exists_eq_succ_of_ne_zero hleft
  have hext := Heap.extends_push hleft (Block.actions fun _ => .zero)
  have hleft₁ : (h.push (Block.actions fun _ => .zero)).left = k := by rw [Heap.push_left, hk]; rfl
  obtain ⟨hok, hfail⟩ :=
    dupEntries_spec hdup hp hmap hext rfl (Heap.push_block_next h _)
  refine ⟨fun hle => ?_, fun hlt => ?_⟩
  · obtain ⟨h', copies, hrun, hext', hout, hrow⟩ := hok (by omega)
    refine ⟨h', .ktMap h.next, ?_, hext', copies, rfl, hout, hrow⟩
    simp only [keyActionDup, Heap.malloc_of_left hleft, hrun, if_true, Option.bind_eq_bind,
      Option.bind_some]
  · obtain ⟨h', hrun, hext', hiff⟩ := hfail (by omega)
    refine ⟨h', ?_, hext', ?_⟩
    · simp only [keyActionDup, Heap.malloc_of_left hleft, hrun, Bool.false_eq_true, if_false,
        Option.bind_eq_bind, Option.bind_some]
    · rw [hiff, hleft₁, hk]
      rfl

/-- **Other actions.** What owns no block is copied as it is. -/
theorem dups_of_leaf (hzero : tree.mallocs = 0) (hleaf : ∀ h ka, Represents refs h tree ka →
    dup ka h = some (h, 0, ka) ∧ Laid refs h tree h.next h.next ka) : Dups refs dup tree := by
  intro h ka hrep
  obtain ⟨hrun, hlaid⟩ := hleaf h ka hrep
  exact ⟨fun _ => ⟨h, ka, hrun, Extends.refl h, hlaid⟩, fun hlt => absurd hlt (by omega)⟩

/-- **Copying.** What `key_action_dup` makes of a tree, wherever `malloc` fails. -/
theorem keyActionDup_spec (hfuel : tree.steps < fuel) (hchained : tree.Chained) :
    Dups refs (keyActionDup fuel) tree := by
  -- one unit of fuel for each level of the tree, or for each event of a macro
  obtain ⟨fuel, rfl⟩ := Nat.exists_eq_add_of_le' (Nat.one_le_of_lt hfuel)
  induction tree generalizing fuel with
  | ktNone =>
    apply dups_of_leaf rfl
    rintro h ka rfl
    exact ⟨rfl, rfl, rfl⟩
  | ktRef ref _ =>
    apply dups_of_leaf rfl
    rintro h ka ⟨p, rfl, hp⟩
    exact ⟨rfl, ⟨p, rfl, hp⟩, rfl⟩
  | ktSimple c =>
    apply dups_of_leaf rfl
    rintro h ka rfl
    exact ⟨rfl, rfl, rfl⟩
  | ktMacro chain => exact keyActionDup_macro hchained (Nat.le_of_lt_succ hfuel)
  | ktDual tap hold dual ihTap ihHold =>
    have hle : max tap.steps hold.steps < fuel := Nat.lt_of_succ_lt_succ hfuel
    obtain ⟨fuel, rfl⟩ := Nat.exists_eq_add_of_le' (Nat.one_le_of_lt hle)
    exact keyActionDup_dual (ihTap hchained.1 fuel ((le_max_left ..).trans_lt hle))
      (ihHold hchained.2 fuel ((le_max_right ..).trans_lt hle))
  | ktMap map ih =>
    have hle : (Finset.univ.sup fun i => (map i).steps) < fuel := Nat.lt_of_succ_lt_succ hfuel
    obtain ⟨fuel, rfl⟩ := Nat.exists_eq_add_of_le' (Nat.one_le_of_lt hle)
    have hsteps : ∀ i, (map i).steps < fuel + 1 := fun i =>
      (Finset.le_sup (f := fun i => (map i).steps) (Finset.mem_univ i)).trans_lt hle
    exact keyActionDup_map fun i => ih i (hchained i) fuel (hsteps i)

/-! ### All or nothing -/

/-- `key_action_dup` terminates.  If `malloc` fails somewhere it returns -1, `*out` is zeroed
    and memory holds what it held before; otherwise it returns 0 and `*out` is a copy, and what
    memory held is unchanged. -/
def AllOrNothing (refs : Nat → KeyAction → Prop) (tree : KeyAction) (ka : Cell) (h : Mem) : Prop :=
  ∀ fuel, tree.steps < fuel → ∃ h' ret out, keyActionDup fuel ka h = some (h', ret, out) ∧
    (h.left < tree.mallocs → ret = -1 ∧ out = .zero ∧ h'.block = h.block) ∧
    (tree.mallocs ≤ h.left → ret = 0 ∧ Represents refs h' tree out ∧
      ∀ p, p < h.next → h'.block p = h.block p)

/-- **All or nothing.** The copy of a key action is all or nothing if and only if `malloc` does
    not fail where something is left behind. -/
theorem dup_all_or_nothing (hrep : Represents refs h tree ka) (hchained : tree.Chained) :
    AllOrNothing refs tree ka h ↔ (h.left < tree.mallocs → tree.Unwinds h.left) := by
  constructor
  · intro hall hlt
    obtain ⟨h', ret, out, hrun, hfailed, _⟩ := hall _ (Nat.lt_succ_self tree.steps)
    obtain ⟨_, hfail⟩ := keyActionDup_spec (Nat.lt_succ_self tree.steps) hchained h ka hrep
    obtain ⟨h₁, hrun₁, hext, hclean⟩ := hfail hlt
    obtain ⟨rfl, _⟩ := Prod.mk.inj (Option.some.inj (hrun₁.symm.trans hrun))
    exact hclean.mp (hext.block_eq_iff.mp (hfailed hlt).2.2)
  · intro hunwinds fuel hfuel
    obtain ⟨hok, hfail⟩ := keyActionDup_spec hfuel hchained h ka hrep
    by_cases hlt : h.left < tree.mallocs
    · obtain ⟨h', hrun, hext, hclean⟩ := hfail hlt
      refine ⟨h', -1, .zero, hrun, fun _ => ⟨rfl, rfl, ?_⟩, fun hle => absurd hle (by omega)⟩
      exact hext.block_eq_iff.mpr (hclean.mpr (hunwinds hlt))
    · obtain ⟨h', out, hrun, hext, hlaid⟩ := hok (by omega)
      exact ⟨h', 0, out, hrun, fun hlt' => absurd hlt' hlt,
        fun _ => ⟨rfl, hlaid.represents, hext.kept⟩⟩

/-- `dual_key(macro("A"), "B")` -/
def macroOrB : KeyAction := .ktDual (.ktMacro [⟨30, true⟩, ⟨30, false⟩]) (.ktSimple 48) defaultDual

/-- Memory that holds `macroOrB`, for whose copy `malloc` succeeds `left` times. -/
def macroOrBMemory (left : Nat) : Mem :=
  ((((Heap.empty (left + 4)).push (.action (.ktMacro (some 2)))).push
    (.action (.ktSimple 48))).push (.event ⟨30, true⟩ (some 3))).push (.event ⟨30, false⟩ none)

theorem represents_macroOrB (left : Nat) :
    Represents refs (macroOrBMemory left) macroOrB (.ktDual 0 1 defaultDual) := by
  refine ⟨0, 1, .ktMacro (some 2), .ktSimple 48, rfl, rfl, ⟨some 2, rfl, ?_⟩, rfl, rfl⟩
  exact ⟨2, some 3, rfl, rfl, 3, none, rfl, rfl, rfl⟩

theorem macroOrB_chained : macroOrB.Chained := ⟨by simp [KeyAction.Chained], trivial⟩

/-- If the copy fails in the macro, everything is freed. -/
theorem dup_all_or_nothing_macro :
    AllOrNothing (fun _ _ => False) macroOrB (.ktDual 0 1 defaultDual) (macroOrBMemory 2) :=
  (dup_all_or_nothing (represents_macroOrB 2) macroOrB_chained).mpr fun _ => trivial

/-- If there is no memory for the hold, the events of the macro are lost. -/
theorem macro_lost :
    ¬ AllOrNothing (fun _ _ => False) macroOrB (.ktDual 0 1 defaultDual) (macroOrBMemory 3) := by
  intro hall
  have hrep : Represents (fun _ _ => False) (macroOrBMemory 3) macroOrB _ := represents_macroOrB 3
  obtain ⟨_, hfail⟩ :=
    keyActionDup_spec (Nat.lt_succ_self macroOrB.steps) macroOrB_chained _ _ hrep
  obtain ⟨h₁, hrun₁, hext, hclean⟩ := hfail (by decide)
  obtain ⟨h', ret, out, hrun, hfailed, _⟩ := hall _ (Nat.lt_succ_self macroOrB.steps)
  obtain ⟨rfl, _⟩ := Prod.mk.inj (Option.some.inj (hrun₁.symm.trans hrun))
  have hunwinds := hclean.mp (hext.block_eq_iff.mp (hfailed (by decide)).2.2)
  obtain ⟨hzero, _⟩ : 2 = 0 ∧ _ := hunwinds
  exact absurd hzero (by decide)

end Mem

end Sdiol
