import Sdiol.Memory

namespace Sdiol

/-!
# Which blocks belong to a key action

`Represents` reads a tree from memory: what a `key_action_t` and the blocks behind it stand for.
It says nothing about sharing.  `Laid` is about a tree that was copied: its blocks are all those
from one address up to another, in the order in which they were allocated, so that the cells of
a dual key stand in front of what they hold, and the elements of a map one after the other
behind the map.

`mallocs` is how many blocks a tree takes.  `keyActionFree_laid` says that `key_action_free`
releases the blocks of a tree that is laid out, each once, and nothing else.
-/

/-! ### Sizes -/

/-- The blocks that a copy of the action takes. -/
def KeyAction.mallocs : KeyAction → Nat
  | ktNone | ktRef _ | ktSimple _ => 0
  | ktMacro chain => chain.length
  | ktDual tap hold _ => 1 + tap.mallocs + (1 + hold.mallocs)
  | ktMap map => 1 + (indices.map fun i => (map i).mallocs).sum

/-- A bound on the depth of the action and on the lengths of its chains. -/
def KeyAction.steps : KeyAction → Nat
  | ktNone | ktRef _ | ktSimple _ => 0
  | ktMacro chain => chain.length
  | ktDual tap hold _ => max tap.steps hold.steps + 1
  | ktMap map => (Finset.univ.sup fun i => (map i).steps) + 1

/-- A `KT_MACRO` has a chain of at least one event, which `key_macro_dup` dereferences. -/
def KeyAction.Chained : KeyAction → Prop
  | ktNone | ktRef _ | ktSimple _ => True
  | ktMacro chain => chain ≠ []
  | ktDual tap hold _ => tap.Chained ∧ hold.Chained
  | ktMap map => ∀ i, (map i).Chained

theorem BuiltChain.ne_nil {chain : List MacroEvent} (h : BuiltChain chain) : chain ≠ [] := by
  induction h with
  | key c => exact List.cons_ne_nil _ _
  | append _ _ ih _ => exact List.append_ne_nil_of_left_ne_nil ih _
  | modified c _ _ => exact List.cons_ne_nil _ _

/-- The macros that a script builds have events. -/
theorem KeyAction.Accepted.chained {ka : KeyAction} (h : ka.Accepted) : ka.Chained := by
  induction ka with
  | ktNone => exact trivial
  | ktRef ref _ => exact trivial
  | ktSimple c => exact trivial
  | ktMacro chain => exact BuiltChain.ne_nil h
  | ktDual tap hold dual ihTap ihHold => exact ⟨ihTap h.2.2.1, ihHold h.2.2.2⟩
  | ktMap map ih => exact fun i => ih i (h i)

/-- Pieces one after the other, from `a` up to `b`. -/
def Row {ι : Type*} (P : ι → Nat → Nat → Prop) : List ι → Nat → Nat → Prop
  | [], a, b => b = a
  | i :: is, a, b => ∃ m, P i a m ∧ Row P is m b

namespace Row

variable {ι : Type*} {P Q : ι → Nat → Nat → Prop} {is js : List ι} {a b m : Nat}

theorem append (h : Row P is a m) (h' : Row P js m b) : Row P (is ++ js) a b := by
  induction is generalizing a with
  | nil =>
    obtain rfl : m = a := h
    exact h'
  | cons i is ih =>
    obtain ⟨n, hi, hrest⟩ := h
    exact ⟨n, hi, ih hrest⟩

theorem le (h : Row P is a b) (hP : ∀ i a b, P i a b → a ≤ b) : a ≤ b := by
  induction is generalizing a with
  | nil => exact Nat.le_of_eq (Eq.symm h)
  | cons i is ih =>
    obtain ⟨n, hi, hrest⟩ := h
    exact (hP i a n hi).trans (ih hrest)

/-- What holds of each piece where it is. -/
theorem mono (h : Row P is a b) (hP : ∀ i a b, P i a b → a ≤ b)
    (himp : ∀ i ∈ is, ∀ a' b', a ≤ a' → b' ≤ b → P i a' b' → Q i a' b') : Row Q is a b := by
  induction is generalizing a with
  | nil => exact h
  | cons i is ih =>
    obtain ⟨n, hi, hrest⟩ := h
    have han := hP i a n hi
    refine ⟨n, himp i List.mem_cons_self a n le_rfl (hrest.le hP) hi, ih hrest ?_⟩
    exact fun j hj a' b' ha hb => himp j (List.mem_cons_of_mem _ hj) a' b' (han.trans ha) hb

theorem exists_mem (h : Row P is a b) {i : ι} (hi : i ∈ is) : ∃ a' b', P i a' b' := by
  induction is generalizing a with
  | nil => exact absurd hi (by simp)
  | cons j is ih =>
    obtain ⟨n, hj, hrest⟩ := h
    rcases List.mem_cons.mp hi with rfl | hi
    · exact ⟨a, n, hj⟩
    · exact ih hrest hi

theorem sum (h : Row P is a b) {n : ι → Nat} (hP : ∀ i a b, P i a b → b = a + n i) :
    b = a + (is.map n).sum := by
  induction is generalizing a with
  | nil => exact h
  | cons i is ih =>
    obtain ⟨m, hi, hrest⟩ := h
    rw [ih hrest, hP i a m hi, List.map_cons, List.sum_cons, Nat.add_assoc]

/-- Every address belongs to a piece. -/
theorem exists_piece (h : Row P is a b) {p : Nat} (hle : a ≤ p) (hlt : p < b) :
    ∃ i ∈ is, ∃ a' b', P i a' b' ∧ a' ≤ p ∧ p < b' := by
  induction is generalizing a with
  | nil =>
    have hba : b = a := h
    omega
  | cons i is ih =>
    obtain ⟨n, hi, hrest⟩ := h
    by_cases hpn : p < n
    · exact ⟨i, List.mem_cons_self, a, n, hi, hle, hpn⟩
    · obtain ⟨j, hj, hpiece⟩ := ih hrest (by omega)
      exact ⟨j, List.mem_cons_of_mem _ hj, hpiece⟩

end Row

namespace Mem

open Heap (Freed Wrote Swept Extends Clean)

/-! ### What memory stands for -/

/-- The chain that starts at a pointer. -/
def Chain (h : Mem) : List MacroEvent → Option Nat → Prop
  | [], p => p = none
  | m :: ms, p => ∃ q next, p = some q ∧ h.block q = some (.event m next) ∧ Chain h ms next

/-- What a `key_action_t` stands for.  `refs` says what the pointers of a `KT_NONE` stand for,
    which belong to some other action. -/
def Represents (refs : Nat → KeyAction → Prop) (h : Mem) : KeyAction → Cell → Prop
  | .ktNone, ka => ka = .ktNone none
  | .ktRef ref, ka => ∃ p, ka = .ktNone (some p) ∧ refs p ref
  | .ktSimple c, ka => ka = .ktSimple c
  | .ktMacro chain, ka => ∃ p, ka = .ktMacro p ∧ Chain h chain p
  | .ktDual tap hold dual, ka => ∃ p q t u, ka = .ktDual p q dual ∧
      h.block p = some (.action t) ∧ Represents refs h tap t ∧
      h.block q = some (.action u) ∧ Represents refs h hold u
  | .ktMap map, ka => ∃ p cells, ka = .ktMap p ∧ h.block p = some (.actions cells) ∧
      ∀ i, Represents refs h (map i) (cells i)

/-- The pointer to a chain at `a`; the one that ends the chain if it is empty. -/
def start (last : Option Nat) (ms : List MacroEvent) (a : Nat) : Option Nat :=
  if ms = [] then last else some a

/-- A chain in the blocks from `a` up to `b`, ended by the pointer `last`. -/
def Segment (h : Mem) (last : Option Nat) : List MacroEvent → Nat → Nat → Prop
  | [], a, b => b = a
  | m :: ms, a, b => h.block a = some (.event m (start last ms (a + 1))) ∧
      Segment h last ms (a + 1) b

/-- A tree in the blocks from `a` up to `b`. -/
def Laid (refs : Nat → KeyAction → Prop) (h : Mem) : KeyAction → Nat → Nat → Cell → Prop
  | .ktNone, a, b, ka => ka = .ktNone none ∧ b = a
  | .ktRef ref, a, b, ka => (∃ p, ka = .ktNone (some p) ∧ refs p ref) ∧ b = a
  | .ktSimple c, a, b, ka => ka = .ktSimple c ∧ b = a
  | .ktMacro chain, a, b, ka => ka = .ktMacro (start none chain a) ∧ Segment h none chain a b
  | .ktDual tap hold dual, a, b, ka => ∃ m t u, ka = .ktDual a m dual ∧
      h.block a = some (.action t) ∧ Laid refs h tap (a + 1) m t ∧
      h.block m = some (.action u) ∧ Laid refs h hold (m + 1) b u
  | .ktMap map, a, b, ka => ∃ cells, ka = .ktMap a ∧ h.block a = some (.actions cells) ∧
      Row (fun i a b => Laid refs h (map i) a b (cells i)) indices (a + 1) b

/-! ### Reading -/

variable {refs : Nat → KeyAction → Prop} {h h' : Mem} {ms ns : List MacroEvent}
  {last : Option Nat} {a b p : Nat}

theorem eventAt_eq {m : MacroEvent} {next : Option Nat} (hp : h.block p = some (.event m next)) :
    eventAt p h = some (m, next) := by
  rw [eventAt, hp]

theorem actionAt_eq {ka : Cell} (hp : h.block p = some (.action ka)) :
    actionAt p h = some ka := by
  rw [actionAt, hp]

theorem actionsAt_eq {cells : KeyCode → Cell} (hp : h.block p = some (.actions cells)) :
    actionsAt p h = some cells := by
  rw [actionsAt, hp]

/-- A chain is there as long as its blocks are. -/
theorem Chain.extends {q : Option Nat} (hchain : Chain h ms q) (hext : Extends h h') :
    Chain h' ms q := by
  induction ms generalizing q with
  | nil => exact hchain
  | cons m ms ih =>
    obtain ⟨p, next, hq, hp, hrest⟩ := hchain
    exact ⟨p, next, hq, hext.block hp, ih hrest⟩

theorem Chain.unique {ms' : List MacroEvent} {q : Option Nat} (hchain : Chain h ms q)
    (hchain' : Chain h ms' q) : ms = ms' := by
  induction ms generalizing ms' q with
  | nil =>
    obtain rfl : q = none := hchain
    cases ms' with
    | nil => rfl
    | cons m' ms' =>
      obtain ⟨p, _, hp, _⟩ := hchain'
      exact absurd hp (by simp)
  | cons m ms ih =>
    obtain ⟨p, next, rfl, hp, hrest⟩ := hchain
    cases ms' with
    | nil => exact absurd hchain' (by simp [Chain])
    | cons m' ms' =>
      obtain ⟨p', next', hp', hblock, hrest'⟩ := hchain'
      obtain rfl : p = p' := Option.some.inj hp'
      obtain ⟨rfl, rfl⟩ := Block.event.inj (Option.some.inj (hp.symm.trans hblock))
      rw [ih hrest hrest']

/-- The events of a chain are at different addresses. -/
theorem Chain.exists_nodes {q : Option Nat} (hchain : Chain h ms q) :
    ∃ nodes : List Nat, nodes.length = ms.length ∧ nodes.Nodup ∧
      ∀ p ∈ nodes, p < h.next ∧ ∃ ms', Chain h ms' (some p) ∧ ms'.length ≤ ms.length := by
  induction ms generalizing q with
  | nil => exact ⟨[], rfl, List.nodup_nil, by simp⟩
  | cons m ms ih =>
    have hwhole := hchain
    obtain ⟨p, next, rfl, hp, hrest⟩ := hchain
    obtain ⟨nodes, hlen, hnodup, hnodes⟩ := ih hrest
    refine ⟨p :: nodes, by simp [hlen], List.nodup_cons.mpr ⟨fun hmem => ?_, hnodup⟩, ?_⟩
    · -- what follows is shorter, so the chain does not come back to `p`
      obtain ⟨_, ms', hms', hle⟩ := hnodes p hmem
      rw [← hwhole.unique hms', List.length_cons] at hle
      omega
    · intro r hr
      rcases List.mem_cons.mp hr with rfl | hr
      · exact ⟨Heap.lt_next hp, m :: ms, hwhole, le_rfl⟩
      · obtain ⟨hlt, ms', hms', hle⟩ := hnodes r hr
        exact ⟨hlt, ms', hms', hle.trans (Nat.le_succ _)⟩

/-- A chain has no more events than there are blocks. -/
theorem Chain.length_le {q : Option Nat} (hchain : Chain h ms q) : ms.length ≤ h.next := by
  obtain ⟨nodes, hlen, hnodup, hnodes⟩ := hchain.exists_nodes
  have hsub : nodes ⊆ List.range h.next := fun p hp => List.mem_range.mpr (hnodes p hp).1
  have hle := (hnodup.subperm hsub).length_le
  rwa [hlen, List.length_range] at hle

/-- **Frame.** Memory stands for what it did if there is only more of it. -/
theorem Represents.extends {tree : KeyAction} {ka : Cell} (hrep : Represents refs h tree ka)
    (hext : Extends h h') : Represents refs h' tree ka := by
  induction tree generalizing ka with
  | ktNone => exact hrep
  | ktRef ref _ => exact hrep
  | ktSimple c => exact hrep
  | ktMacro chain =>
    obtain ⟨p, hka, hchain⟩ := hrep
    exact ⟨p, hka, hchain.extends hext⟩
  | ktDual tap hold dual ihTap ihHold =>
    obtain ⟨p, q, t, u, hka, hp, htap, hq, hhold⟩ := hrep
    exact ⟨p, q, t, u, hka, hext.block hp, ihTap htap, hext.block hq, ihHold hhold⟩
  | ktMap map ih =>
    obtain ⟨p, cells, hka, hp, hmap⟩ := hrep
    exact ⟨p, cells, hka, hext.block hp, fun i => ih i (hmap i)⟩

/-! ### Chains that are laid out -/

namespace Segment

theorem length (hs : Segment h last ms a b) : b = a + ms.length := by
  induction ms generalizing a with
  | nil => exact hs
  | cons m ms ih =>
    rw [ih hs.2, List.length_cons]
    omega

theorem congr (hs : Segment h last ms a b)
    (heq : ∀ p, a ≤ p → p < b → h'.block p = h.block p) : Segment h' last ms a b := by
  induction ms generalizing a with
  | nil => exact hs
  | cons m ms ih =>
    have hlen := hs.length
    rw [List.length_cons] at hlen
    refine ⟨?_, ih hs.2 fun p hle hlt => heq p (by omega) hlt⟩
    rw [heq a le_rfl (by omega)]
    exact hs.1

/-- Where two chains meet, the first one points to the second one. -/
theorem append_iff : Segment h last (ms ++ ns) a b ↔
    ∃ m, Segment h (start last ns m) ms a m ∧ Segment h last ns m b := by
  induction ms generalizing a with
  | nil =>
    constructor
    · intro hs
      exact ⟨a, rfl, hs⟩
    · rintro ⟨m, hm, hs⟩
      obtain rfl : m = a := hm
      exact hs
  | cons e ms ih =>
    -- `e` points to what comes next, which is the second chain if the first one ends here
    have hstart : ∀ m, Segment h (start last ns m) ms (a + 1) m →
        start (start last ns m) ms (a + 1) = start last (ms ++ ns) (a + 1) := by
      intro m hs
      by_cases hms : ms = []
      · subst hms
        obtain rfl : m = a + 1 := hs
        rw [start, if_pos rfl, List.nil_append]
      · rw [start, if_neg hms, start, if_neg (by simp [hms])]
    constructor
    · rintro ⟨ha, hrest⟩
      obtain ⟨m, hms, hns⟩ := ih.mp hrest
      refine ⟨m, ⟨?_, hms⟩, hns⟩
      rw [hstart m hms]
      exact ha
    · rintro ⟨m, ⟨ha, hms⟩, hns⟩
      refine ⟨?_, ih.mpr ⟨m, hms, hns⟩⟩
      show h.block a = some (.event e (start last (ms ++ ns) (a + 1)))
      rw [← hstart m hms]
      exact ha

theorem live (hs : Segment h last ms a b) (hle : a ≤ p) (hlt : p < b) : h.block p ≠ none := by
  induction ms generalizing a with
  | nil =>
    have hba : b = a := hs
    omega
  | cons m ms ih =>
    by_cases hpa : p = a
    · rw [hpa, hs.1]
      exact Option.some_ne_none _
    · exact ih hs.2 (by omega)

theorem le_next (hs : Segment h last ms a b) (ha : a ≤ h.next) : b ≤ h.next := by
  by_contra hlt
  exact hs.live ha (by omega) (h.fresh _ le_rfl)

theorem chain (hs : Segment h none ms a b) : Chain h ms (start none ms a) := by
  induction ms generalizing a with
  | nil => exact if_pos rfl
  | cons m ms ih => exact ⟨a, _, if_neg (by simp), hs.1, ih hs.2⟩

end Segment

/-- **Macros.** `key_macro_free` frees the events of a chain. -/
theorem keyMacroFree_segment (hs : Segment h none ms a b) {fuel : Nat}
    (hfuel : ms.length ≤ fuel) :
    ∃ h', keyMacroFree fuel (start none ms a) h = some h' ∧ Freed a b h h' := by
  induction ms generalizing a h fuel with
  | nil =>
    obtain rfl : b = a := hs
    refine ⟨h, ?_, Freed.refl h b⟩
    rw [start, if_pos rfl, keyMacroFree]
  | cons m ms ih =>
    have hlen := hs.length
    rw [List.length_cons] at hfuel hlen
    obtain ⟨fuel, rfl⟩ := Nat.exists_eq_add_of_le' (Nat.one_le_of_lt hfuel)
    obtain ⟨h₁, hfree, hfreed⟩ := Heap.exists_free hs.1
    have hrest : Segment h₁ none ms (a + 1) b :=
      hs.2.congr fun p hle _ => hfreed.kept p (.inr hle)
    obtain ⟨h₂, hloop, hfreed'⟩ := ih hrest (show ms.length ≤ fuel by omega)
    refine ⟨h₂, ?_, hfreed.trans hfreed' (by omega) (by omega)⟩
    rw [start, if_neg (by simp), keyMacroFree, eventAt_eq hs.1]
    show (h.free a).bind _ = some h₂
    rw [hfree]
    exact hloop

/-! ### Trees that are laid out -/

namespace Laid

variable {tree : KeyAction} {ka : Cell}

/-- **Size.** A tree takes as many blocks as `key_action_dup` allocates for it. -/
theorem size (hl : Laid refs h tree a b ka) : b = a + tree.mallocs := by
  induction tree generalizing a b ka with
  | ktNone => exact hl.2
  | ktRef ref _ => exact hl.2
  | ktSimple c => exact hl.2
  | ktMacro chain => exact hl.2.length
  | ktDual tap hold dual ihTap ihHold =>
    obtain ⟨m, t, u, _, _, htap, _, hhold⟩ := hl
    rw [ihHold hhold, ihTap htap, KeyAction.mallocs]
    omega
  | ktMap map ih =>
    obtain ⟨cells, _, _, hrow⟩ := hl
    rw [hrow.sum fun i a b => ih i, KeyAction.mallocs]
    omega

theorem le (hl : Laid refs h tree a b ka) : a ≤ b := by
  rw [hl.size]
  exact Nat.le_add_right a _

theorem congr (hl : Laid refs h tree a b ka)
    (heq : ∀ p, a ≤ p → p < b → h'.block p = h.block p) : Laid refs h' tree a b ka := by
  induction tree generalizing a b ka with
  | ktNone => exact hl
  | ktRef ref _ => exact hl
  | ktSimple c => exact hl
  | ktMacro chain => exact ⟨hl.1, hl.2.congr heq⟩
  | ktDual tap hold dual ihTap ihHold =>
    obtain ⟨m, t, u, hka, ha, htap, hm, hhold⟩ := hl
    have ham := htap.le
    have hmb := hhold.le
    refine ⟨m, t, u, hka, ?_, ihTap htap fun p hle hlt => heq p (by omega) (by omega), ?_,
      ihHold hhold fun p hle hlt => heq p (by omega) hlt⟩
    · rw [heq a le_rfl (by omega)]
      exact ha
    · rw [heq m (by omega) (by omega)]
      exact hm
  | ktMap map ih =>
    obtain ⟨cells, hka, ha, hrow⟩ := hl
    have hab := hrow.le fun i a b => le
    refine ⟨cells, hka, ?_, hrow.mono (fun i a b => le) fun i _ a' b' hle hge hpiece => ?_⟩
    · rw [heq a le_rfl (by omega)]
      exact ha
    · exact ih i hpiece fun p hp hp' => heq p (by omega) (by omega)

/-- Every block of a tree is there. -/
theorem live (hl : Laid refs h tree a b ka) (hle : a ≤ p) (hlt : p < b) : h.block p ≠ none := by
  induction tree generalizing a b ka with
  | ktNone => exact absurd hl.2 (by omega)
  | ktRef ref _ => exact absurd hl.2 (by omega)
  | ktSimple c => exact absurd hl.2 (by omega)
  | ktMacro chain => exact hl.2.live hle hlt
  | ktDual tap hold dual ihTap ihHold =>
    obtain ⟨m, t, u, _, ha, htap, hm, hhold⟩ := hl
    -- one of the two cells, or what one of them holds
    by_cases hpa : p = a
    · rw [hpa, ha]
      exact Option.some_ne_none _
    by_cases hpm : p < m
    · exact ihTap htap (by omega) hpm
    by_cases hpm' : p = m
    · rw [hpm', hm]
      exact Option.some_ne_none _
    · exact ihHold hhold (by omega) hlt
  | ktMap map ih =>
    obtain ⟨cells, _, ha, hrow⟩ := hl
    by_cases hpa : p = a
    · rw [hpa, ha]
      exact Option.some_ne_none _
    · obtain ⟨i, _, a', b', hpiece, hle', hlt'⟩ := hrow.exists_piece (by omega) hlt
      exact ih i hpiece hle' hlt'

/-- **Meaning.** A tree that is laid out is what memory stands for. -/
theorem represents (hl : Laid refs h tree a b ka) : Represents refs h tree ka := by
  induction tree generalizing a b ka with
  | ktNone => exact hl.1
  | ktRef ref _ => exact hl.1
  | ktSimple c => exact hl.1
  | ktMacro chain => exact ⟨_, hl.1, hl.2.chain⟩
  | ktDual tap hold dual ihTap ihHold =>
    obtain ⟨m, t, u, hka, ha, htap, hm, hhold⟩ := hl
    exact ⟨a, m, t, u, hka, ha, ihTap htap, hm, ihHold hhold⟩
  | ktMap map ih =>
    obtain ⟨cells, hka, ha, hrow⟩ := hl
    refine ⟨a, cells, hka, ha, fun i => ?_⟩
    obtain ⟨a', b', hpiece⟩ := hrow.exists_mem (mem_indices i)
    exact ih i hpiece

end Laid

/-! ### `key_action_free` -/

/-- What `free` does to a tree that is laid out. -/
def Frees (refs : Nat → KeyAction → Prop) (free : Cell → Mem → Option Mem) (tree : KeyAction) :
    Prop :=
  ∀ h a b ka, Laid refs h tree a b ka → ∃ h', free ka h = some h' ∧ Freed a b h h'

variable {free : Cell → Mem → Option Mem}

/-- The action behind a pointer is left zero. -/
theorem freeAction_laid {tree : KeyAction} (hfree : Frees refs free tree) {ka : Cell}
    (hp : h.block p = some (.action ka)) (hl : Laid refs h tree a b ka) (hpa : p < a) :
    ∃ h', freeAction free p h = some h' ∧ Swept p (some (.action .zero)) a b h h' := by
  obtain ⟨h₁, hrun, hfreed⟩ := hfree h a b ka hl
  have hp₁ : h₁.block p = some (.action ka) := by rw [hfreed.kept p (.inl hpa), hp]
  obtain ⟨h₂, hstore, hwrote⟩ := Heap.exists_store hp₁ (.action .zero)
  refine ⟨h₂, ?_, hfreed.swept hwrote hpa⟩
  rw [freeAction, actionAt_eq hp]
  show (free ka h).bind _ = some h₂
  rw [hrun]
  exact hstore

/-- `key_action_free(ka->key.dual.tap)` and `free` of the pointer, and so for the hold. -/
theorem freeAction_free {tree : KeyAction} (hfree : Frees refs free tree) {ka : Cell}
    (hp : h.block p = some (.action ka)) (hl : Laid refs h tree (p + 1) b ka) :
    ∃ h₁ h', freeAction free p h = some h₁ ∧ h₁.free p = some h' ∧ Freed p b h h' := by
  obtain ⟨h₁, hrun, hswept⟩ := freeAction_laid hfree hp hl (Nat.lt_succ_self p)
  obtain ⟨h₂, hrun', hfreed⟩ := Heap.exists_free hswept.here
  exact ⟨h₁, h₂, hrun, hrun', hswept.freed hfreed hl.le⟩

/-- An element of a map is left zero. -/
theorem freeEntry_laid {tree : KeyAction} (hfree : Frees refs free tree)
    {cells : KeyCode → Cell} (hp : h.block p = some (.actions cells)) {i : KeyCode}
    (hl : Laid refs h tree a b (cells i)) (hpa : p < a) :
    ∃ h', freeEntry free p i h = some h' ∧
      Swept p (some (.actions (Function.update cells i .zero))) a b h h' := by
  obtain ⟨h₁, hrun, hfreed⟩ := hfree h a b (cells i) hl
  have hp₁ : h₁.block p = some (.actions cells) := by rw [hfreed.kept p (.inl hpa), hp]
  obtain ⟨h₂, hstore, hwrote⟩ :=
    Heap.exists_store hp₁ (.actions (Function.update cells i .zero))
  refine ⟨h₂, ?_, hfreed.swept hwrote hpa⟩
  rw [freeEntry, actionsAt_eq hp]
  show (free (cells i) h).bind _ = some h₂
  rw [hrun]
  show (actionsAt p h₁).bind _ = some h₂
  rw [actionsAt_eq hp₁]
  exact hstore

/-- An element that is zero already stays so. -/
theorem freeEntry_zero {cells : KeyCode → Cell} (hp : h.block p = some (.actions cells))
    {i : KeyCode} (hi : cells i = .zero) (fuel : Nat) :
    freeEntry (keyActionFree (fuel + 1)) p i h = some h := by
  have hsame : Function.update cells i .zero = cells := by rw [← hi, Function.update_eq_self]
  rw [freeEntry, actionsAt_eq hp]
  show (keyActionFree (fuel + 1) (cells i) h).bind _ = some h
  rw [hi, Cell.zero, keyActionFree]
  show (actionsAt p h).bind _ = some h
  rw [actionsAt_eq hp]
  show h.store p (.actions (Function.update cells i .zero)) = some h
  rw [hsame]
  exact Heap.store_self hp

/-- **Maps.** The elements are freed one after the other; freeing one leaves the others alone. -/
theorem freeEntries_laid {map : KeyCode → KeyAction} (hfree : ∀ i, Frees refs free (map i))
    {is : List KeyCode} (hnodup : is.Nodup) {cells : KeyCode → Cell}
    (hp : h.block p = some (.actions cells))
    (hrow : Row (fun i a b => Laid refs h (map i) a b (cells i)) is a b) (hpa : p < a) :
    ∃ h' o, freeEntries free p is h = some h' ∧ Swept p (some o) a b h h' := by
  induction is generalizing a h cells with
  | nil =>
    obtain rfl : b = a := hrow
    have hswept := Swept.refl h p b
    rw [hp] at hswept
    exact ⟨h, _, rfl, hswept⟩
  | cons i is ih =>
    obtain ⟨hi, hnodup⟩ := List.nodup_cons.mp hnodup
    obtain ⟨m, hpiece, hrest⟩ := hrow
    obtain ⟨h₁, hrun, hswept⟩ := freeEntry_laid (hfree i) hp hpiece hpa
    have ham := hpiece.le
    have hmb := hrest.le fun j a b => Laid.le
    -- the other elements are where they were
    have hrest₁ : Row (fun j a b => Laid refs h₁ (map j) a b
        (Function.update cells i .zero j)) is m b := by
      refine hrest.mono (fun j a b => Laid.le) fun j hj a' b' hle hge hl => ?_
      have hji : j ≠ i := fun heq => hi (heq ▸ hj)
      rw [Function.update_of_ne hji]
      exact hl.congr fun q hq hq' => hswept.kept q (by omega) (.inr (by omega))
    obtain ⟨h₂, o, hrun', hswept'⟩ := ih hnodup hswept.here hrest₁ (by omega)
    refine ⟨h₂, o, ?_, hswept.trans hswept' hpa ham hmb⟩
    rw [freeEntries, hrun]
    exact hrun'

theorem mallocs_lt_of_map (map : KeyCode → KeyAction) (i : KeyCode) :
    (map i).mallocs < (KeyAction.ktMap map).mallocs := by
  have hmem : (map i).mallocs ∈ indices.map fun i => (map i).mallocs :=
    List.mem_map_of_mem (mem_indices i)
  have hle := List.le_sum_of_mem hmem
  rw [KeyAction.mallocs]
  omega

/-- **Freeing.** `key_action_free` releases the blocks of a tree, each once, and nothing
    else. -/
theorem keyActionFree_laid {tree : KeyAction} {fuel : Nat} (hfuel : tree.mallocs < fuel) :
    Frees refs (keyActionFree fuel) tree := by
  induction tree generalizing fuel with
  | ktNone =>
    rintro h a b ka ⟨rfl, rfl⟩
    obtain ⟨fuel, rfl⟩ := Nat.exists_eq_add_of_le' (Nat.one_le_of_lt hfuel)
    exact ⟨h, rfl, Freed.refl h b⟩
  | ktRef ref _ =>
    rintro h a b ka ⟨⟨p, rfl, _⟩, rfl⟩
    obtain ⟨fuel, rfl⟩ := Nat.exists_eq_add_of_le' (Nat.one_le_of_lt hfuel)
    exact ⟨h, rfl, Freed.refl h b⟩
  | ktSimple c =>
    rintro h a b ka ⟨rfl, rfl⟩
    obtain ⟨fuel, rfl⟩ := Nat.exists_eq_add_of_le' (Nat.one_le_of_lt hfuel)
    exact ⟨h, rfl, Freed.refl h b⟩
  | ktMacro chain =>
    rintro h a b ka ⟨rfl, hseg⟩
    obtain ⟨fuel, rfl⟩ := Nat.exists_eq_add_of_le' (Nat.one_le_of_lt hfuel)
    exact keyMacroFree_segment hseg (Nat.le_of_lt_succ hfuel)
  | ktDual tap hold dual ihTap ihHold =>
    rintro h a b ka ⟨m, t, u, rfl, ha, htap, hm, hhold⟩
    obtain ⟨fuel, rfl⟩ := Nat.exists_eq_add_of_le' (Nat.one_le_of_lt hfuel)
    rw [KeyAction.mallocs] at hfuel
    have ham := htap.le
    have hmb := hhold.le
    obtain ⟨h₁, h₂, hrun₁, hrun₂, hfreed⟩ :=
      freeAction_free (ihTap (show tap.mallocs < fuel by omega)) ha htap
    -- the hold is where it was
    have hkept : ∀ q, m ≤ q → h₂.block q = h.block q := fun q hq => hfreed.kept q (.inr hq)
    have hm₂ : h₂.block m = some (.action u) := by rw [hkept m le_rfl, hm]
    have hhold₂ : Laid refs h₂ hold (m + 1) b u :=
      hhold.congr fun q hle _ => hkept q (by omega)
    obtain ⟨h₃, h₄, hrun₃, hrun₄, hfreed'⟩ :=
      freeAction_free (ihHold (show hold.mallocs < fuel by omega)) hm₂ hhold₂
    refine ⟨h₄, ?_, hfreed.trans hfreed' (by omega) (by omega)⟩
    rw [keyActionFree, hrun₁]
    show (h₁.free a).bind _ = some h₄
    rw [hrun₂]
    show (freeAction _ m h₂).bind _ = some h₄
    rw [hrun₃]
    exact hrun₄
  | ktMap map ih =>
    rintro h a b ka ⟨cells, rfl, ha, hrow⟩
    obtain ⟨fuel, rfl⟩ := Nat.exists_eq_add_of_le' (Nat.one_le_of_lt hfuel)
    have hfree : ∀ i, Frees refs (keyActionFree fuel) (map i) := fun i => by
      have hlt := mallocs_lt_of_map map i
      exact ih i (by omega)
    obtain ⟨h₁, o, hrun₁, hswept⟩ :=
      freeEntries_laid hfree nodup_indices ha hrow (Nat.lt_succ_self a)
    obtain ⟨h₂, hrun₂, hfreed⟩ := Heap.exists_free hswept.here
    refine ⟨h₂, ?_, hswept.freed hfreed (hrow.le fun i a b => Laid.le)⟩
    rw [keyActionFree, hrun₁]
    exact hrun₂

end Mem

end Sdiol
