import Sdiol.Copying

namespace Sdiol

/-!
# Macros in memory

`lua_macro` and the functions of `DEF_LUA_MOD` with their pointers.  They build a chain by
writing through a `key_macro_t **` that is moved to its end after each argument.

`Holds h es b` is the invariant: since `h`, the events `es` were put into new blocks, which the
variable `macro` leads to, and `endAt h es` is where the next one belongs.  A call either
delivers what the functions of the same names say that work on lists, or raises an error; either
way memory keeps what it had.
-/

namespace Mem

open Heap (Freed Wrote Extends Clean)

/-! ### The functions -/

/-- `key_macro_t **`: the address of the variable `macro`, or of the `next` of an event. -/
inductive Tail where
  | start
  | next (p : Nat)

/-- The variable `macro` beside the memory. -/
structure Building where
  chain : Option Nat
  mem : Mem

/-- What is on the stack of Lua, as far as `append_copy_to_macro` looks at it. -/
inductive Arg where
  | integer (n : Int64)
  | userdata (p : Nat)
  | other

/-- The errors that are raised. -/
inductive MacroError where
  /-- "macro() requires at least one argument" -/
  | noArgument
  /-- "macro() failed to copy an argument" -/
  | copyFailed
  /-- "macro() failed to allocate memory" -/
  | noMemory

/-- `*tail` -/
def deref (tail : Tail) (b : Building) : Option (Option Nat) :=
  match tail with
  | .start => some b.chain
  | .next p => (eventAt p b.mem).map Prod.snd

/-- `*tail = v` -/
def assign (tail : Tail) (v : Option Nat) (b : Building) : Option Building :=
  match tail with
  | .start => some { b with chain := v }
  | .next p => do
    let (m, _) ← eventAt p b.mem
    let h ← b.mem.store p (.event m v)
    some { b with mem := h }

/-- `append_simple_key_to_macro` -/
def appendSimpleKeyToMacro (n : Int) (tail : Tail) (b : Building) : Option (Building × Int32) :=
  match checkedCode n with
  | .error _ => some (b, -1)
  | .ok c => do
    -- append a key press
    let (h, press) := keyMacroNew ⟨c, true⟩ b.mem
    let b ← assign tail press { b with mem := h }
    match press with
    | none => some (b, -1)
    | some p => do
      -- append a key release
      let (h, release) := keyMacroNew ⟨c, false⟩ b.mem
      let b ← assign (.next p) release { b with mem := h }
      if release.isNone then some (b, -1) else some (b, 0)

/-- `append_copy_to_macro` -/
def appendCopyToMacro (arg : Arg) (tail : Tail) (b : Building) : Option (Building × Int32) :=
  match arg with
  | .integer n => appendSimpleKeyToMacro n.toInt32.toInt tail b
  | .userdata p => do
    let ka ← actionAt p b.mem
    match ka with
    | .ktSimple c => appendSimpleKeyToMacro c.val tail b
    | .ktMacro none => none
    | .ktMacro (some chain) => do
      let (h, copy) ← keyMacroDup b.mem.next chain b.mem
      let b ← assign tail copy { b with mem := h }
      if copy.isNone then some (b, -1) else some (b, 0)
    | _ => some (b, -1)
  | .other => some (b, -1)

/-- `while(*tail){ tail = &(*tail)->next; }` -/
def findTail : Nat → Tail → Building → Option Tail
  | 0, _, _ => none
  | fuel + 1, tail, b => do
    let next ← deref tail b
    match next with
    | none => some tail
    | some p => findTail fuel (.next p) b

/-- The loop over the arguments: the new tail, unless an argument was not copied. -/
def appendArgs : List Arg → Tail → Building → Option (Building × Option Tail)
  | [], tail, b => some (b, some tail)
  | arg :: args, tail, b => do
    -- append a copy of the argument (as a macro) to the tail
    let (b, ret) ← appendCopyToMacro arg tail b
    if ret < 0 then some (b, none)
    else do
      -- find the new tail
      let tail ← findTail (b.mem.next + 1) tail b
      appendArgs args tail b

/-- `fail_macro` -/
def failMacro (error : MacroError) (b : Building) : Option (Mem × Except MacroError Nat) := do
  let h ← keyMacroFree b.mem.next b.chain b.mem
  some (h, .error error)

/-- The end of `lua_macro` and of `DEF_LUA_MOD`: a new key action for the chain. -/
def pushMacro (b : Building) : Option (Mem × Except MacroError Nat) :=
  let (h, ka) := b.mem.malloc (.action .zero)
  match ka with
  | none => failMacro .noMemory { b with mem := h }
  | some ka => do
    let h ← h.store ka (.action (.ktMacro b.chain))
    some (h, .ok ka)

/-- `lua_macro` -/
def luaMacro (args : List Arg) (h : Mem) : Option (Mem × Except MacroError Nat) :=
  if args = [] then some (h, .error .noArgument)
  else do
    -- build a macro chain from all the arguments
    let (b, tail) ← appendArgs args .start ⟨none, h⟩
    match tail with
    | none => failMacro .copyFailed b
    | some _ => pushMacro b

/-- The end of `DEF_LUA_MOD`. -/
def endMod (num : KeyCode) (tail : Tail) (b : Building) :
    Option (Mem × Except MacroError Nat) := do
  -- end by releasing the mod key
  let (h, release) := keyMacroNew ⟨num, false⟩ b.mem
  let b ← assign tail release { b with mem := h }
  -- here the chain is not freed
  if release.isNone then some (b.mem, .error .noMemory) else pushMacro b

/-- `DEF_LUA_MOD(name, num)` -/
def luaMod (num : KeyCode) (args : List Arg) (h : Mem) : Option (Mem × Except MacroError Nat) :=
  if args = [] then some (h, .error .noArgument)
  else
    -- build a macro chain from all the arguments, starting with mod press
    let (h, press) := keyMacroNew ⟨num, true⟩ h
    match press with
    | none => some (h, .error .noMemory)
    | some p => do
      let (b, tail) ← appendArgs args (.next p) ⟨some p, h⟩
      match tail with
      | none => failMacro .copyFailed b
      | some tail => endMod num tail b

/-! ### The chain so far -/

/-- Since `h`, the events `es` were put into new blocks. -/
structure Holds (h : Mem) (es : List MacroEvent) (b : Building) : Prop where
  ext : Extends h b.mem
  chain : b.chain = start none es h.next
  events : Segment b.mem none es h.next b.mem.next

/-- Where the next event belongs. -/
def endAt (h : Mem) (es : List MacroEvent) : Tail :=
  if es = [] then .start else .next (h.next + es.length - 1)

/-- The chain can be freed, and then memory holds what it held. -/
def Disposable (h : Mem) (b : Building) : Prop :=
  ∃ h', keyMacroFree b.mem.next b.chain b.mem = some h' ∧ Extends h h'

variable {h H : Mem} {es ns : List MacroEvent} {b : Building} {n : Int} {c : KeyCode}

theorem disposable_of_segment {m : Nat} (hext : Extends h b.mem)
    (hchain : b.chain = start none es h.next) (hseg : Segment b.mem none es h.next m) :
    Disposable h b := by
  have hlen := hseg.length
  have hle := hseg.le_next hext.next
  obtain ⟨h', hrun, hfreed⟩ :=
    keyMacroFree_segment hseg (show es.length ≤ b.mem.next by omega)
  rw [← hchain] at hrun
  exact ⟨h', hrun, hext.freed hfreed le_rfl⟩

theorem Holds.disposable (hb : Holds h es b) : Disposable h b :=
  disposable_of_segment hb.ext hb.chain hb.events

/-- Nothing was appended yet. -/
theorem holds_nil (h : Mem) : Holds h [] ⟨none, h⟩ := ⟨Extends.refl h, rfl, rfl⟩

/-- The last event. -/
theorem Holds.last {e : MacroEvent} (hb : Holds h (es ++ [e]) b) :
    ∃ m, endAt h (es ++ [e]) = .next m ∧ b.mem.next = m + 1 ∧
      Segment b.mem (some m) es h.next m ∧ b.mem.block m = some (.event e none) := by
  obtain ⟨m, hes, he, hm⟩ := Segment.append_iff.mp hb.events
  have hlen := hes.length
  refine ⟨m, ?_, hm, hes, he⟩
  have hlength : (es ++ [e]).length = es.length + 1 := by simp
  have hpos : h.next + (es ++ [e]).length - 1 = m := by omega
  rw [endAt, if_neg (by simp), hpos]

/-- **Link.** Events in new blocks are appended by a write to the tail. -/
theorem Holds.link (hb : Holds h es b) (hext : Extends b.mem H)
    (hseg : Segment H none ns b.mem.next H.next) (hne : ns ≠ []) :
    ∃ b', assign (endAt h es) (some b.mem.next) ⟨b.chain, H⟩ = some b' ∧
      Holds h (es ++ ns) b' ∧ b'.mem.next = H.next ∧
      ∀ p, b.mem.next ≤ p → b'.mem.block p = H.block p := by
  rcases List.eq_nil_or_concat es with rfl | ⟨init, e, rfl⟩
  · -- the variable `macro` is set
    have hnext : b.mem.next = h.next := hb.events
    refine ⟨⟨some b.mem.next, H⟩, rfl, ⟨hb.ext.trans hext, ?_, ?_⟩, rfl, fun _ _ => rfl⟩
    · rw [List.nil_append, start, if_neg hne, hnext]
    · rw [List.nil_append, ← hnext]
      exact hseg
  · -- the last event points to the new ones
    rw [List.concat_eq_append] at hb ⊢
    obtain ⟨m, hend, hnext, hinit, hlast⟩ := hb.last
    obtain ⟨H', hstore, hwrote⟩ :=
      Heap.exists_store (hext.block hlast) (.event e (some b.mem.next))
    refine ⟨⟨b.chain, H'⟩, ?_, ⟨?_, ?_, ?_⟩, hwrote.next, fun p hp => hwrote.elsewhere p (by omega)⟩
    · rw [hend, assign]
      show (eventAt m H).bind _ = _
      rw [eventAt_eq (hext.block hlast)]
      show (H.store m _).bind _ = _
      rw [hstore]
      rfl
    · have hle := hinit.length
      exact (hb.ext.trans hext).wrote hwrote (by omega)
    · rw [hb.chain, start, if_neg (by simp), start, if_neg (by simp)]
    · refine Segment.append_iff.mpr ⟨b.mem.next, Segment.append_iff.mpr ⟨m, ?_, ?_, hnext⟩, ?_⟩
      · refine hinit.congr fun p _ hp => ?_
        rw [hwrote.elsewhere p (by omega), hext.kept p (by omega)]
      · rw [hwrote.here, start, start, if_neg hne, if_pos rfl]
      · rw [hwrote.next]
        exact hseg.congr fun p hp _ => hwrote.elsewhere p (by omega)

/-- Writing `NULL` to the tail changes nothing. -/
theorem Holds.assign_none (hb : Holds h es b) (hext : Extends b.mem H) :
    assign (endAt h es) none ⟨b.chain, H⟩ = some ⟨b.chain, H⟩ := by
  rcases List.eq_nil_or_concat es with rfl | ⟨init, e, rfl⟩
  · rw [endAt, if_pos rfl, assign, hb.chain, start, if_pos rfl]
  · rw [List.concat_eq_append] at hb ⊢
    obtain ⟨m, hend, _, _, hlast⟩ := hb.last
    rw [hend, assign]
    show (eventAt m H).bind _ = _
    rw [eventAt_eq (hext.block hlast)]
    show (H.store m _).bind _ = _
    rw [Heap.store_self (hext.block hlast)]
    rfl

/-- If an argument is not copied, the chain so far can still be freed. -/
theorem Holds.assign_failed (hb : Holds h es b) (hext : Extends b.mem H) :
    Disposable h ⟨b.chain, H⟩ :=
  disposable_of_segment (hb.ext.trans hext) hb.chain
    (hb.events.congr fun p _ hp => hext.kept p hp)

/-- **New tail.** It is found behind the events that were appended. -/
theorem findTail_segment {a m fuel : Nat} {tail : Tail} (hseg : Segment b.mem none ns a m)
    (hne : ns ≠ []) (htail : deref tail b = some (some a)) (hfuel : ns.length < fuel) :
    findTail fuel tail b = some (.next (m - 1)) := by
  induction ns generalizing a tail fuel with
  | nil => exact absurd rfl hne
  | cons e ns ih =>
    obtain ⟨ha, hrest⟩ := hseg
    obtain ⟨fuel, rfl⟩ := Nat.exists_eq_add_of_le' (Nat.one_le_of_lt hfuel)
    rw [List.length_cons] at hfuel
    have hstep : findTail (fuel + 1) tail b = findTail fuel (.next a) b := by
      rw [findTail, htail]
      rfl
    have hnext : deref (.next a) b = some (start none ns (a + 1)) := by
      rw [deref, eventAt_eq ha]
      rfl
    rw [hstep]
    by_cases hns : ns = []
    · subst hns
      obtain rfl : m = a + 1 := hrest
      obtain ⟨fuel, rfl⟩ := Nat.exists_eq_add_of_le' (show 1 ≤ fuel by omega)
      rw [findTail, hnext]
      rfl
    · refine ih hrest hns ?_ (by omega)
      rw [hnext, start, if_neg hns]

theorem Holds.findTail (hb : Holds h (es ++ ns) b) (hne : ns ≠ []) :
    findTail (b.mem.next + 1) (endAt h es) b = some (endAt h (es ++ ns)) := by
  obtain ⟨m, hes, hns⟩ := Segment.append_iff.mp hb.events
  have hlen := hes.length
  have hlen' := hns.length
  have hlength : (es ++ ns).length = es.length + ns.length := List.length_append
  have hend : endAt h (es ++ ns) = .next (b.mem.next - 1) := by
    have hlast : h.next + (es ++ ns).length - 1 = b.mem.next - 1 := by omega
    rw [endAt, if_neg (by simp [hne]), hlast]
  rw [hend]
  apply findTail_segment hns hne _ (by omega)
  -- the tail that was, `macro` itself or the last event before the new ones, points to them
  rcases List.eq_nil_or_concat es with rfl | ⟨init, e, rfl⟩
  · obtain rfl : m = h.next := hes
    rw [endAt, if_pos rfl, deref, hb.chain, start, if_neg (by simp [hne])]
  · rw [List.concat_eq_append] at hes ⊢
    obtain ⟨k, _, hlast, hk⟩ := Segment.append_iff.mp hes
    have hm : m = k + 1 := hk
    have hpos : h.next + (init ++ [e]).length - 1 = k := by
      rw [List.concat_eq_append] at hlen
      omega
    rw [endAt, if_neg (by simp), hpos, deref, eventAt_eq hlast, start, if_pos rfl, start,
      if_neg hne]
    rfl

/-! ### One argument -/

/-- One event more. -/
theorem Holds.event (hb : Holds h es b) (e : MacroEvent) (hleft : b.mem.left ≠ 0) :
    ∃ b', assign (endAt h es) (some b.mem.next) ⟨b.chain, b.mem.push (.event e none)⟩ = some b' ∧
      Holds h (es ++ [e]) b' ∧ endAt h (es ++ [e]) = .next b.mem.next := by
  have hext := Heap.extends_push hleft (Block.event e none)
  have hseg : Segment (b.mem.push (.event e none)) none [e] b.mem.next (b.mem.next + 1) :=
    ⟨Heap.push_block_next b.mem _, rfl⟩
  obtain ⟨b', hrun, hb', hnext, _⟩ := hb.link hext hseg (List.cons_ne_nil e [])
  obtain ⟨m, hend, hm, _⟩ := hb'.last
  rw [Heap.push_next] at hnext
  obtain rfl : m = b.mem.next := by omega
  exact ⟨b', hrun, hb', hend⟩

theorem Holds.budget (hb : Holds h es b) : b.mem.left + es.length = h.left := by
  have hlen := hb.events.length
  have hbudget := hb.ext.budget
  omega

/-- **Keys.** A press and a release are appended, or there is no memory for both. -/
theorem Holds.appendSimple (hb : Holds h es b) (hc : checkedCode n = .ok c) :
    (2 ≤ b.mem.left → ∃ b', appendSimpleKeyToMacro n (endAt h es) b = some (b', 0) ∧
      Holds h (es ++ [⟨c, true⟩, ⟨c, false⟩]) b') ∧
    (b.mem.left < 2 → ∃ b', appendSimpleKeyToMacro n (endAt h es) b = some (b', -1) ∧
      Disposable h b') := by
  by_cases hleft : b.mem.left = 0
  · refine ⟨fun hle => absurd hle (by omega), fun _ => ⟨b, ?_, hb.disposable⟩⟩
    have hassign := hb.assign_none (Extends.refl b.mem)
    simp only [appendSimpleKeyToMacro, hc, keyMacroNew, Heap.malloc_of_none hleft, hassign,
      Option.bind_eq_bind, Option.bind_some]
  -- the press is appended, whatever becomes of the release
  obtain ⟨b₁, hassign, hb₁, hend⟩ := hb.event ⟨c, true⟩ hleft
  have hbudget := hb.budget
  have hbudget₁ := hb₁.budget
  rw [List.length_append, List.length_singleton] at hbudget₁
  by_cases hleft₁ : b₁.mem.left = 0
  · refine ⟨fun hle => absurd hle (by omega), fun _ => ⟨b₁, ?_, hb₁.disposable⟩⟩
    have hassign₁ := hb₁.assign_none (Extends.refl b₁.mem)
    rw [hend] at hassign₁
    simp only [appendSimpleKeyToMacro, hc, keyMacroNew, Heap.malloc_of_left hleft, hassign,
      Heap.malloc_of_none hleft₁, hassign₁, Option.isNone_none, if_true, Option.bind_eq_bind,
      Option.bind_some]
  · obtain ⟨b₂, hassign₂, hb₂, _⟩ := hb₁.event ⟨c, false⟩ hleft₁
    rw [hend] at hassign₂
    rw [List.append_assoc] at hb₂
    refine ⟨fun _ => ⟨b₂, ?_, hb₂⟩, fun hlt => absurd hlt (by omega)⟩
    simp only [appendSimpleKeyToMacro, hc, keyMacroNew, Heap.malloc_of_left hleft, hassign,
      Heap.malloc_of_left hleft₁, hassign₂, Option.isNone_some, Bool.false_eq_true, if_false,
      Option.bind_eq_bind, Option.bind_some]

/-- What is on the stack stands for a value. -/
def Arg.Stands (h : Mem) : Arg → LuaValue → Prop
  | .integer n, v => v = .integer n
  | .userdata p, v => ∃ tree ka, v = .userdata tree ∧ h.block p = some (.action ka) ∧
      Represents (fun _ _ => False) h tree ka ∧ tree.Chained
  | .other, v => (∀ n, v ≠ .integer n) ∧ ∀ tree, v ≠ .userdata tree

theorem Arg.Stands.extends {arg : Arg} {v : LuaValue} (harg : arg.Stands h v)
    (hext : Extends h H) : arg.Stands H v := by
  cases arg with
  | integer n => exact harg
  | userdata p =>
    obtain ⟨tree, ka, hv, hp, hrep, hchained⟩ := harg
    exact ⟨tree, ka, hv, hext.block hp, hrep.extends hext, hchained⟩
  | other => exact harg

/-- The events that `copied` says are appended if there is memory for them; otherwise nothing is,
    and the chain can be freed. -/
def Appends (h : Mem) (es : List MacroEvent) (b : Building)
    (copied : Except ConfigError (List MacroEvent)) (run : Option (Building × Int32)) : Prop :=
  (∀ ns, copied = .ok ns → ns.length ≤ b.mem.left →
    ∃ b', run = some (b', 0) ∧ Holds h (es ++ ns) b' ∧ ns ≠ []) ∧
  ((∀ ns, copied = .ok ns → b.mem.left < ns.length) →
    ∃ b', run = some (b', -1) ∧ Disposable h b')

theorem Holds.appendSimple_spec (hb : Holds h es b) (n : Int) :
    Appends h es b (Sdiol.appendSimpleKeyToMacro n) (appendSimpleKeyToMacro n (endAt h es) b) := by
  cases hc : checkedCode n with
  | error e =>
    have hcopied : Sdiol.appendSimpleKeyToMacro n = .error e := by
      rw [Sdiol.appendSimpleKeyToMacro, hc]
      rfl
    rw [hcopied]
    refine ⟨fun ns hns => absurd hns (by simp), fun _ => ⟨b, ?_, hb.disposable⟩⟩
    rw [appendSimpleKeyToMacro, hc]
  | ok c =>
    have hcopied : Sdiol.appendSimpleKeyToMacro n = .ok [⟨c, true⟩, ⟨c, false⟩] := by
      rw [Sdiol.appendSimpleKeyToMacro, hc]
      rfl
    obtain ⟨hok, hfail⟩ := hb.appendSimple hc
    rw [hcopied]
    refine ⟨fun ns hns hle => ?_, fun hlt => hfail (hlt _ rfl)⟩
    obtain rfl := Except.ok.inj hns
    obtain ⟨b', hrun, hb'⟩ := hok hle
    exact ⟨b', hrun, hb', List.cons_ne_nil _ _⟩

/-- A macro is copied, and the copy is appended. -/
theorem Holds.appendMacro (hb : Holds h es b) {p : Nat} {q : Option Nat}
    (hp : actionAt p b.mem = some (.ktMacro q)) (hchain : Chain b.mem ns q) (hne : ns ≠ []) :
    Appends h es b (.ok ns) (appendCopyToMacro (.userdata p) (endAt h es) b) := by
  cases q with
  | none =>
    cases ns with
    | nil => exact absurd rfl hne
    | cons e ns =>
      obtain ⟨_, _, hq, _⟩ := hchain
      exact absurd hq (by simp)
  | some q =>
    obtain ⟨hok, hfail⟩ := keyMacroDup_spec hne hchain hchain.length_le
    refine ⟨fun ns' hns hle => ?_, fun hlt => ?_⟩
    · obtain rfl := Except.ok.inj hns
      obtain ⟨H, hrun, hext, hseg⟩ := hok hle
      obtain ⟨b', hassign, hb', _⟩ := hb.link hext hseg hne
      refine ⟨b', ?_, hb', hne⟩
      simp only [appendCopyToMacro, hp, hrun, hassign, Option.isNone_some, Bool.false_eq_true,
        if_false, Option.bind_eq_bind, Option.bind_some]
    · obtain ⟨H, hrun, hext, _⟩ := hfail (hlt ns rfl)
      refine ⟨⟨b.chain, H⟩, ?_, hb.assign_failed hext⟩
      simp only [appendCopyToMacro, hp, hrun, hb.assign_none hext, Option.isNone_none, if_true,
        Option.bind_eq_bind, Option.bind_some]

/-- **Arguments.** `append_copy_to_macro` appends what its namesake says. -/
theorem Holds.appendCopy_spec (hb : Holds h es b) {arg : Arg} {v : LuaValue}
    (harg : arg.Stands h v) :
    Appends h es b (Sdiol.appendCopyToMacro v) (appendCopyToMacro arg (endAt h es) b) := by
  have hrefused : ∀ {copied : Except ConfigError (List MacroEvent)},
      copied = .error .unallowedType → Appends h es b copied (some (b, -1)) := by
    rintro _ rfl
    exact ⟨fun ns hns => absurd hns (by simp), fun _ => ⟨b, rfl, hb.disposable⟩⟩
  cases arg with
  | integer n =>
    obtain rfl : v = .integer n := harg
    exact hb.appendSimple_spec n.toInt32.toInt
  | other =>
    obtain ⟨hint, huser⟩ := harg
    apply hrefused
    unfold Sdiol.appendCopyToMacro
    split
    · exact absurd rfl (hint _)
    · exact absurd rfl (huser _)
    · exact absurd rfl (huser _)
    · rfl
  | userdata p =>
    obtain ⟨tree, ka, rfl, hp, hrep, hchained⟩ := harg
    have haction := actionAt_eq (hb.ext.block hp)
    cases tree with
    | ktNone =>
      obtain rfl : ka = .ktNone none := hrep
      simp only [appendCopyToMacro, haction, Option.bind_eq_bind, Option.bind_some]
      exact hrefused rfl
    | ktRef ref =>
      obtain ⟨q, rfl, _⟩ := hrep
      simp only [appendCopyToMacro, haction, Option.bind_eq_bind, Option.bind_some]
      exact hrefused rfl
    | ktSimple c =>
      obtain rfl : ka = .ktSimple c := hrep
      simp only [appendCopyToMacro, haction, Option.bind_eq_bind, Option.bind_some]
      exact hb.appendSimple_spec c.val
    | ktDual tap hold dual =>
      obtain ⟨q, r, t, u, rfl, _⟩ := hrep
      simp only [appendCopyToMacro, haction, Option.bind_eq_bind, Option.bind_some]
      exact hrefused rfl
    | ktMap map =>
      obtain ⟨q, cells, rfl, _⟩ := hrep
      simp only [appendCopyToMacro, haction, Option.bind_eq_bind, Option.bind_some]
      exact hrefused rfl
    | ktMacro chain =>
      obtain ⟨q, rfl, hchain⟩ := hrep
      exact hb.appendMacro haction (hchain.extends hb.ext) hchained

/-! ### All arguments -/

theorem lt_of_not_fits {copied : Except ConfigError (List MacroEvent)} {n : Nat}
    (hfits : ¬ ∃ ns, copied = .ok ns ∧ ns.length ≤ n) :
    ∀ ns, copied = .ok ns → n < ns.length := by
  intro ns hns
  by_contra hle
  exact hfits ⟨ns, hns, by omega⟩

/-- **Loop.** The arguments are appended one after the other, until one fails. -/
theorem Holds.appendArgs_spec (hb : Holds h es b) {args : List Arg} {vs : List LuaValue}
    (hargs : List.Forall₂ (Arg.Stands h) args vs) :
    (∀ ns, appendCopies vs = .ok ns → ns.length ≤ b.mem.left → ∃ b',
      appendArgs args (endAt h es) b = some (b', some (endAt h (es ++ ns))) ∧
        Holds h (es ++ ns) b' ∧ (args ≠ [] → ns ≠ [])) ∧
    ((∀ ns, appendCopies vs = .ok ns → b.mem.left < ns.length) → ∃ b',
      appendArgs args (endAt h es) b = some (b', none) ∧ Disposable h b') := by
  induction hargs generalizing es b with
  | nil =>
    refine ⟨fun ns hns _ => ?_, fun hlt => absurd (hlt [] rfl) (by simp)⟩
    obtain rfl := Except.ok.inj hns
    rw [List.append_nil]
    exact ⟨b, rfl, hb, fun hnil => absurd rfl hnil⟩
  | @cons arg v args vs harg _ ih =>
    obtain ⟨hok, hfail⟩ := hb.appendCopy_spec harg
    by_cases hfits : ∃ ns, Sdiol.appendCopyToMacro v = .ok ns ∧ ns.length ≤ b.mem.left
    · -- this argument is appended, and the rest of them behind it
      obtain ⟨ns₁, hns₁, hle₁⟩ := hfits
      obtain ⟨b₁, hrun, hb₁, hne⟩ := hok ns₁ hns₁ hle₁
      have hret : ¬ (0 : Int32) < 0 := by decide
      have hstep : appendArgs (arg :: args) (endAt h es) b =
          appendArgs args (endAt h (es ++ ns₁)) b₁ := by
        simp only [appendArgs, hrun, if_neg hret, hb₁.findTail hne, Option.bind_eq_bind,
          Option.bind_some]
      have hbudget := hb.budget
      have hbudget₁ := hb₁.budget
      rw [List.length_append] at hbudget₁
      obtain ⟨hok', hfail'⟩ := ih hb₁
      rw [hstep]
      refine ⟨fun ns hns hle => ?_, fun hlt => hfail' fun ns₂ hns₂ => ?_⟩
      · obtain ⟨ns₁', hns₁', hns⟩ := Steps.bind_eq_ok.mp hns
        obtain ⟨ns₂, hns₂, hns⟩ := Steps.bind_eq_ok.mp hns
        obtain rfl := Except.ok.inj hns
        obtain rfl := Except.ok.inj (hns₁.symm.trans hns₁')
        rw [List.length_append] at hle
        rw [← List.append_assoc]
        obtain ⟨b', hrun', hb', _⟩ := hok' ns₂ hns₂ (by omega)
        exact ⟨b', hrun', hb', fun _ => List.append_ne_nil_of_left_ne_nil hne ns₂⟩
      · have hboth : appendCopies (v :: vs) = .ok (ns₁ ++ ns₂) := by
          rw [appendCopies, hns₁, hns₂]
          rfl
        have hlt := hlt _ hboth
        rw [List.length_append] at hlt
        omega
    · -- this argument fails
      have hlt := lt_of_not_fits hfits
      obtain ⟨b₁, hrun, hdisposable⟩ := hfail hlt
      have hret : (-1 : Int32) < 0 := by decide
      refine ⟨fun ns hns hle => ?_, fun _ => ⟨b₁, ?_, hdisposable⟩⟩
      · obtain ⟨ns₁, hns₁, hns⟩ := Steps.bind_eq_ok.mp hns
        obtain ⟨ns₂, _, hns⟩ := Steps.bind_eq_ok.mp hns
        obtain rfl := Except.ok.inj hns
        rw [List.length_append] at hle
        exact absurd (hlt ns₁ hns₁) (by omega)
      · simp only [appendArgs, hrun, if_pos hret, Option.bind_eq_bind, Option.bind_some]

/-! ### The calls -/

theorem failMacro_extends (hb : Disposable h b) (error : MacroError) :
    ∃ h', failMacro error b = some (h', .error error) ∧ Extends h h' := by
  obtain ⟨h', hrun, hext⟩ := hb
  refine ⟨h', ?_, hext⟩
  rw [failMacro, hrun]
  rfl

/-- The chain becomes a value, unless there is no memory for it. -/
theorem Holds.pushMacro_spec (hb : Holds h es b) (hne : es ≠ []) :
    (b.mem.left ≠ 0 → ∃ h' p, pushMacro b = some (h', .ok p) ∧ Extends h h' ∧
      (Arg.userdata p).Stands h' (.userdata (.ktMacro es))) ∧
    (b.mem.left = 0 → ∃ h' e, pushMacro b = some (h', .error e) ∧ Extends h h') := by
  refine ⟨fun hleft => ?_, fun hleft => ?_⟩
  · have hpush := Heap.extends_push hleft (Block.action .zero)
    obtain ⟨h', hstore, hwrote⟩ := Heap.exists_store
      (Heap.push_block_next b.mem (.action .zero)) (.action (.ktMacro b.chain))
    refine ⟨h', b.mem.next, ?_, (hb.ext.trans hpush).wrote hwrote hb.ext.next, .ktMacro es,
      .ktMacro b.chain, rfl, hwrote.here, ⟨b.chain, rfl, ?_⟩, hne⟩
    · simp only [pushMacro, Heap.malloc_of_left hleft, hstore, Option.bind_eq_bind,
        Option.bind_some]
    · rw [hb.chain]
      exact hb.events.chain.extends ((Extends.refl b.mem).trans hpush |>.wrote hwrote le_rfl)
  · obtain ⟨h', hrun, hext⟩ := failMacro_extends hb.disposable .noMemory
    refine ⟨h', .noMemory, ?_, hext⟩
    rw [pushMacro, Heap.malloc_of_none hleft]
    exact hrun

/-- A call delivers the value `made` if there is memory for its events and for itself; otherwise
    it raises an error.  Either way memory keeps what it had. -/
def Delivers (h : Mem) (made : Except ConfigError LuaValue)
    (run : Option (Mem × Except MacroError Nat)) : Prop :=
  (∀ chain, made = .ok (.userdata (.ktMacro chain)) → chain.length < h.left →
    ∃ h' p, run = some (h', .ok p) ∧ Extends h h' ∧
      (Arg.userdata p).Stands h' (.userdata (.ktMacro chain))) ∧
  ((∀ chain, made = .ok (.userdata (.ktMacro chain)) → h.left ≤ chain.length) →
    ∃ h' e, run = some (h', .error e) ∧ Extends h h')

variable {args : List Arg} {vs : List LuaValue} {num : KeyCode}

theorem ne_nil_of_forall₂ (hargs : List.Forall₂ (Arg.Stands h) args vs) (hne : args ≠ []) :
    vs ≠ [] := by
  rintro rfl
  exact hne (List.forall₂_nil_right_iff.mp hargs)

theorem luaMacro_eq_ok {chain : List MacroEvent} :
    Sdiol.luaMacro vs = .ok (.userdata (.ktMacro chain)) ↔
      vs ≠ [] ∧ appendCopies vs = .ok chain := by
  by_cases hnone : vs = []
  · simp [Sdiol.luaMacro, hnone]
  · rw [Sdiol.luaMacro, if_neg hnone]
    cases appendCopies vs with
    | error e => simp [bind, Except.bind]
    | ok ns => simp [bind, Except.bind, hnone]

theorem luaMod_eq_ok {chain : List MacroEvent} :
    Sdiol.luaMod num vs = .ok (.userdata (.ktMacro chain)) ↔
      vs ≠ [] ∧ ∃ ns, appendCopies vs = .ok ns ∧
        chain = ⟨num, true⟩ :: (ns ++ [⟨num, false⟩]) := by
  by_cases hnone : vs = []
  · simp [Sdiol.luaMod, hnone]
  · rw [Sdiol.luaMod, if_neg hnone]
    cases appendCopies vs with
    | error e => simp [bind, Except.bind]
    | ok ns => simp [bind, Except.bind, hnone, eq_comm]

/-- **Refinement.** `lua_macro` in memory delivers what `lua_macro` on lists does. -/
theorem luaMacro_delivers (hargs : List.Forall₂ (Arg.Stands h) args vs) :
    Delivers h (Sdiol.luaMacro vs) (luaMacro args h) := by
  by_cases hnone : args = []
  · -- without arguments both fail
    subst hnone
    obtain rfl := List.forall₂_nil_left_iff.mp hargs
    exact ⟨fun chain hmade => absurd rfl (luaMacro_eq_ok.mp hmade).1,
      fun _ => ⟨h, .noArgument, rfl, Extends.refl h⟩⟩
  have hmade : ∀ chain, Sdiol.luaMacro vs = .ok (.userdata (.ktMacro chain)) ↔
      appendCopies vs = .ok chain := by
    intro chain
    rw [luaMacro_eq_ok, and_iff_right (ne_nil_of_forall₂ hargs hnone)]
  simp only [Delivers, hmade]
  obtain ⟨hok, hfail⟩ := (holds_nil h).appendArgs_spec hargs
  have hstart : endAt h [] = .start := if_pos rfl
  rw [hstart] at hok hfail
  by_cases hfits : ∃ ns, appendCopies vs = .ok ns ∧ ns.length ≤ h.left
  · -- the arguments are appended, and the chain becomes a value if it can
    obtain ⟨ns, hns, hle⟩ := hfits
    obtain ⟨b, hrun, hb, hne⟩ := hok ns hns hle
    have hstep : luaMacro args h = pushMacro b := by
      simp only [luaMacro, if_neg hnone, hrun, Option.bind_eq_bind, Option.bind_some]
    have hbudget := hb.budget
    obtain ⟨hpush, hfailed⟩ := hb.pushMacro_spec (hne hnone)
    rw [List.nil_append] at hbudget hpush
    rw [hstep]
    refine ⟨fun chain hchain hlt => ?_, fun hlt => ?_⟩
    · obtain rfl := Except.ok.inj (hns.symm.trans hchain)
      exact hpush (by omega)
    · have hle' := hlt ns hns
      exact hfailed (by omega)
  · -- an argument fails
    have hlt := lt_of_not_fits hfits
    obtain ⟨b, hrun, hdisposable⟩ := hfail hlt
    obtain ⟨h', hrun', hext⟩ := failMacro_extends hdisposable .copyFailed
    refine ⟨fun chain hchain hle => ?_, fun _ => ⟨h', .copyFailed, ?_, hext⟩⟩
    · have hlt' := hlt chain hchain
      omega
    · simp only [luaMacro, if_neg hnone, hrun, Option.bind_eq_bind, Option.bind_some]
      exact hrun'

/-- The release of the modifier is appended, and the chain becomes a value. -/
theorem Holds.endMod_spec (hb : Holds h es b) (num : KeyCode) :
    (2 ≤ b.mem.left → ∃ h' p, endMod num (endAt h es) b = some (h', .ok p) ∧ Extends h h' ∧
      (Arg.userdata p).Stands h' (.userdata (.ktMacro (es ++ [⟨num, false⟩])))) ∧
    (b.mem.left < 2 → ∃ h' e, endMod num (endAt h es) b = some (h', .error e) ∧
      Extends h h') := by
  by_cases hleft : b.mem.left = 0
  · refine ⟨fun hle => absurd hle (by omega), fun _ => ⟨b.mem, .noMemory, ?_, hb.ext⟩⟩
    simp only [endMod, keyMacroNew, Heap.malloc_of_none hleft,
      hb.assign_none (Extends.refl b.mem), Option.isNone_none, if_true, Option.bind_eq_bind,
      Option.bind_some]
  · obtain ⟨b', hassign, hb', _⟩ := hb.event ⟨num, false⟩ hleft
    have hstep : endMod num (endAt h es) b = pushMacro b' := by
      simp only [endMod, keyMacroNew, Heap.malloc_of_left hleft, hassign, Option.isNone_some,
        Bool.false_eq_true, if_false, Option.bind_eq_bind, Option.bind_some]
    obtain ⟨hpush, hfailed⟩ := hb'.pushMacro_spec (by simp)
    have hbudget := hb.budget
    have hbudget' := hb'.budget
    rw [List.length_append, List.length_singleton] at hbudget'
    rw [hstep]
    exact ⟨fun hle => hpush (by omega), fun hlt => hfailed (by omega)⟩

/-- **Refinement.** So do the functions of `DEF_LUA_MOD`. -/
theorem luaMod_delivers (hargs : List.Forall₂ (Arg.Stands h) args vs) :
    Delivers h (Sdiol.luaMod num vs) (luaMod num args h) := by
  by_cases hnone : args = []
  · subst hnone
    obtain rfl := List.forall₂_nil_left_iff.mp hargs
    exact ⟨fun chain hmade => absurd rfl (luaMod_eq_ok.mp hmade).1,
      fun _ => ⟨h, .noArgument, rfl, Extends.refl h⟩⟩
  have hmade : ∀ chain, Sdiol.luaMod num vs = .ok (.userdata (.ktMacro chain)) ↔
      ∃ ns, appendCopies vs = .ok ns ∧ chain = ⟨num, true⟩ :: (ns ++ [⟨num, false⟩]) := by
    intro chain
    rw [luaMod_eq_ok, and_iff_right (ne_nil_of_forall₂ hargs hnone)]
  have hlength : ∀ ns : List MacroEvent,
      (⟨num, true⟩ :: (ns ++ [⟨num, false⟩]) : List MacroEvent).length = ns.length + 2 := by simp
  simp only [Delivers, hmade]
  by_cases hleft : h.left = 0
  · refine ⟨fun chain _ hlt => absurd hlt (by omega), fun _ => ⟨h, .noMemory, ?_, Extends.refl h⟩⟩
    simp only [luaMod, if_neg hnone, keyMacroNew, Heap.malloc_of_none hleft]
  -- the chain starts with the press of the modifier
  obtain ⟨b₀, hassign, hb₀, hend⟩ := (holds_nil h).event ⟨num, true⟩ hleft
  obtain rfl : ⟨some h.next, h.push (.event ⟨num, true⟩ none)⟩ = b₀ := Option.some.inj hassign
  rw [List.nil_append] at hb₀ hend
  obtain ⟨hok, hfail⟩ := hb₀.appendArgs_spec hargs
  rw [hend] at hok hfail
  by_cases hfits : ∃ ns, appendCopies vs = .ok ns ∧ ns.length ≤ h.left - 1
  · obtain ⟨ns, hns, hle⟩ := hfits
    obtain ⟨b, hrun, hb, _⟩ := hok ns hns hle
    have hbudget := hb.budget
    rw [List.length_append, List.length_singleton] at hbudget
    obtain ⟨hpush, hfailed⟩ := hb.endMod_spec num
    have hstep : luaMod num args h = endMod num (endAt h ([⟨num, true⟩] ++ ns)) b := by
      simp only [luaMod, if_neg hnone, keyMacroNew, Heap.malloc_of_left hleft, hrun,
        Option.bind_eq_bind, Option.bind_some]
    rw [hstep]
    refine ⟨?_, fun hlt => ?_⟩
    · rintro chain ⟨ns', hns', rfl⟩ hlt
      obtain rfl := Except.ok.inj (hns.symm.trans hns')
      rw [hlength] at hlt
      exact hpush (by omega)
    · have hle' := hlt _ ⟨ns, hns, rfl⟩
      rw [hlength] at hle'
      exact hfailed (by omega)
  · -- an argument fails
    have hlt := lt_of_not_fits hfits
    obtain ⟨b, hrun, hdisposable⟩ := hfail hlt
    obtain ⟨h', hrun', hext⟩ := failMacro_extends hdisposable .copyFailed
    refine ⟨?_, fun _ => ⟨h', .copyFailed, ?_, hext⟩⟩
    · rintro chain ⟨ns, hns, rfl⟩ hlt'
      have hlt₁ := hlt ns hns
      rw [hlength] at hlt'
      omega
    · simp only [luaMod, if_neg hnone, keyMacroNew, Heap.malloc_of_left hleft, hrun,
        Option.bind_eq_bind, Option.bind_some]
      exact hrun'

end Mem

end Sdiol
