import Sdiol.Appending
import Sdiol.Ledger

namespace Sdiol

/-!
# Scripts that build macros

Any number of calls of `macro()`, `shift()`, `ctrl()`, `alt()` and `meta()`, in memory, each with
key codes and values of earlier calls as its arguments, one value as often as one likes.

`Call.Makes` says what a call is meant to make: the events of its arguments one after the other,
in the case of a modifier between its press and its release.  `Script.call_spec` is the step
lemma; it keeps `Script.Stands`, which says which events belong to each value.
-/

/-! ### Presses before releases -/

/-- The presses of a code. -/
def codePresses (c : KeyCode) (es : List MacroEvent) : Nat :=
  es.countP fun m => m.code = c ∧ m.press = true

/-- The releases of a code. -/
def codeReleases (c : KeyCode) (es : List MacroEvent) : Nat :=
  es.countP fun m => m.code = c ∧ m.press = false

/-- No code is released more often than it was pressed, and each is released as often in the
    end. -/
def PressedFirst (chain : List MacroEvent) : Prop :=
  ∀ c, (∀ pre, pre <+: chain → codeReleases c pre ≤ codePresses c pre) ∧
    codeReleases c chain = codePresses c chain

/-- Sending the macro leaves all counts of `send_dedup` as they are, whatever was sent before. -/
def Inert (chain : List MacroEvent) : Prop :=
  ∀ evs d out, sendAll evs SendDedup.init = .ok (d, out) →
    ∀ s ev, ∃ s' log d' out', doKeypress s ev (.ktMacro chain) = .ok (s', log) ∧
      sendAll (sends log) d = .ok (d', out') ∧ d'.pressCountMap = d.pressCountMap

theorem balance_chainEdges (c : KeyCode) (es : List MacroEvent) :
    Counter.balance (chainEdges c es) = codePresses c es - codeReleases c es := by
  induction es with
  | nil => rfl
  | cons m es ih =>
    by_cases hc : m.code = c
    · cases hpress : m.press with
      | true =>
        have hedges : chainEdges c (m :: es) = true :: chainEdges c es := by
          simp [chainEdges, hc, hpress]
        have hp : codePresses c (m :: es) = codePresses c es + 1 := by
          simp [codePresses, hc, hpress]
        have hr : codeReleases c (m :: es) = codeReleases c es := by simp [codeReleases, hpress]
        rw [hedges, Counter.balance_true, ih, hp, hr]
        push_cast
        omega
      | false =>
        have hedges : chainEdges c (m :: es) = false :: chainEdges c es := by
          simp [chainEdges, hc, hpress]
        have hp : codePresses c (m :: es) = codePresses c es := by simp [codePresses, hpress]
        have hr : codeReleases c (m :: es) = codeReleases c es + 1 := by
          simp [codeReleases, hc, hpress]
        rw [hedges, Counter.balance_false, ih, hp, hr]
        push_cast
        omega
    · have hedges : chainEdges c (m :: es) = chainEdges c es := by simp [chainEdges, hc]
      have hp : codePresses c (m :: es) = codePresses c es := by simp [codePresses, hc]
      have hr : codeReleases c (m :: es) = codeReleases c es := by simp [codeReleases, hc]
      rw [hedges, ih, hp, hr]

/-- **Balance.** -/
theorem BalancedChain.pressedFirst {chain : List MacroEvent} (h : BalancedChain chain) :
    PressedFirst chain := by
  intro c
  obtain ⟨hcovered, hbalance⟩ := h c
  refine ⟨fun pre hpre => ?_, ?_⟩
  · have hedges : chainEdges c pre <+: chainEdges c chain := hpre.filterMap _
    have hle := hcovered _ hedges
    rw [balance_chainEdges] at hle
    omega
  · rw [balance_chainEdges] at hbalance
    omega

theorem macroSends_inRange (chain : List MacroEvent) :
    ∀ ev ∈ chain.flatMap macroSends, CodeInRange ev := by
  intro ev hev
  obtain ⟨m, _, hm⟩ := List.mem_flatMap.mp hev
  rcases List.mem_cons.mp hm with rfl | hm
  · intro _
    show (codeOf m.code).toNat < keyMax
    rw [codeOf_toNat]
    exact m.code.isLt
  · obtain rfl := List.mem_singleton.mp hm
    exact fun hkey => absurd hkey (by decide)

/-- **Counts.** -/
theorem BalancedChain.inert {chain : List MacroEvent} (h : BalancedChain chain) : Inert chain := by
  intro evs d out hd s ev
  obtain ⟨d', out', hrun⟩ := sendAll_total (macroSends_inRange chain) d
  have hsends : sends (.keypress ev (.ktMacro chain) :: (chain.flatMap macroSends).map .send) =
      chain.flatMap macroSends := sends_map_send _
  refine ⟨s, _, d', out', rfl, ?_, ?_⟩
  · rw [hsends]
    exact hrun
  · funext c
    -- no count is ever negative
    have hnonneg : 0 ≤ d.pressCountMap c := by
      rw [sendAll_pressCountMap hd c]
      exact Counter.foldl_bump_nonneg le_rfl _
    have hedges : keyEdges c (chain.flatMap macroSends) = chainEdges c chain :=
      keyEdges_chain c ev chain
    rw [sendAll_pressCountMap hrun c, hedges]
    exact Counter.foldl_bump_of_balanced hnonneg (h c)

namespace Mem

open Heap (Extends)

/-! ### Calls -/

/-- The functions that build macros. -/
inductive Maker where
  | luaMacro
  | luaShift
  | luaCtrl
  | luaAlt
  | luaMeta

/-- What is made of the events of the arguments. -/
def Maker.events : Maker → List MacroEvent → List MacroEvent
  | .luaMacro, es => es
  | .luaShift, es => ⟨42, true⟩ :: (es ++ [⟨42, false⟩])
  | .luaCtrl, es => ⟨29, true⟩ :: (es ++ [⟨29, false⟩])
  | .luaAlt, es => ⟨56, true⟩ :: (es ++ [⟨56, false⟩])
  | .luaMeta, es => ⟨125, true⟩ :: (es ++ [⟨125, false⟩])

/-- The function in memory. -/
def Maker.run : Maker → List Arg → Mem → Option (Mem × Except MacroError Nat)
  | .luaMacro => Mem.luaMacro
  | .luaShift => luaMod 42
  | .luaCtrl => luaMod 29
  | .luaAlt => luaMod 56
  | .luaMeta => luaMod 125

/-- The function on lists. -/
def Maker.onLists : Maker → List LuaValue → Except ConfigError LuaValue
  | .luaMacro => Sdiol.luaMacro
  | .luaShift => Sdiol.luaShift
  | .luaCtrl => Sdiol.luaCtrl
  | .luaAlt => Sdiol.luaAlt
  | .luaMeta => Sdiol.luaMeta

/-- An argument of a call: a key code, or the value of an earlier call. -/
inductive Operand where
  | code (n : Int64)
  | value (i : Nat)

structure Call where
  maker : Maker
  operands : List Operand

/-- A script that is run: the memory and the values it has built. -/
structure Script where
  mem : Mem
  values : List Nat

/-- What is on the stack for an argument. -/
def Operand.arg (values : List Nat) : Operand → Arg
  | .code n => .integer n
  | .value i =>
    match values[i]? with
    | some p => .userdata p
    | none => .other

/-- One call.  After an error, which a script may catch, there is no new value. -/
def Script.call (c : Call) (s : Script) : Option Script := do
  let (h, result) ← c.maker.run (c.operands.map (Operand.arg s.values)) s.mem
  match result with
  | .ok p => some ⟨h, s.values ++ [p]⟩
  | .error _ => some ⟨h, s.values⟩

/-- One call after the other. -/
def Script.run : List Call → Script → Option Script
  | [], s => some s
  | c :: calls, s => (s.call c).bind (Script.run calls)

/-! ### What they make -/

/-- The events of an argument, where `chains` are those of the values. -/
def Operand.events (chains : List (List MacroEvent)) : Operand → Option (List MacroEvent)
  | .code n =>
    match checkedCode n.toInt32.toInt with
    | .ok c => some [⟨c, true⟩, ⟨c, false⟩]
    | .error _ => none
  | .value i => chains[i]?

/-- The events of the value of a call: its function's, of those of its arguments one after the
    other. -/
def Call.Makes (c : Call) (chains : List (List MacroEvent)) (made : List MacroEvent) : Prop :=
  c.operands ≠ [] ∧ ∃ parts, List.Forall₂ (fun o part => o.events chains = some part)
    c.operands parts ∧ made = c.maker.events parts.flatten

/-- The value at `p` is a `KT_MACRO` with these events. -/
def IsMacro (h : Mem) (p : Nat) (chain : List MacroEvent) : Prop :=
  ∃ q, h.block p = some (.action (.ktMacro q)) ∧ Chain h chain q

/-- The argument as a value of the functions on lists. -/
def Operand.onLists (chains : List (List MacroEvent)) : Operand → LuaValue
  | .code n => .integer n
  | .value i =>
    match chains[i]? with
    | some chain => .userdata (.ktMacro chain)
    | none => .nil

variable {h H : Mem} {p : Nat} {chain made : List MacroEvent} {chains : List (List MacroEvent)}
  {values : List Nat} {s : Script} {c : Call}

theorem stands_iff : (Arg.userdata p).Stands h (.userdata (.ktMacro chain)) ↔
    IsMacro h p chain ∧ chain ≠ [] := by
  constructor
  · rintro ⟨_, ka, ⟨rfl⟩, hp, ⟨q, rfl, hchain⟩, hne⟩
    exact ⟨⟨q, hp, hchain⟩, hne⟩
  · rintro ⟨⟨q, hp, hchain⟩, hne⟩
    exact ⟨_, _, rfl, hp, ⟨q, rfl, hchain⟩, hne⟩

theorem IsMacro.extends (hp : IsMacro h p chain) (hext : Extends h H) : IsMacro H p chain := by
  obtain ⟨q, hblock, hchain⟩ := hp
  exact ⟨q, hext.block hblock, hchain.extends hext⟩

theorem appendCopyToMacro_onLists (o : Operand) (part : List MacroEvent) :
    Sdiol.appendCopyToMacro (o.onLists chains) = .ok part ↔ o.events chains = some part := by
  cases o with
  | code n =>
    show Sdiol.appendSimpleKeyToMacro n.toInt32.toInt = .ok part ↔ _
    rw [Sdiol.appendSimpleKeyToMacro, Operand.events]
    cases checkedCode n.toInt32.toInt with
    | error e => simp [bind, Except.bind]
    | ok c => simp [bind, Except.bind]
  | value i =>
    rw [Operand.onLists, Operand.events]
    cases chains[i]? with
    | none => simp [Sdiol.appendCopyToMacro]
    | some chain => simp [Sdiol.appendCopyToMacro]

/-- The loop over the arguments concatenates. -/
theorem appendCopies_onLists (os : List Operand) (es : List MacroEvent) :
    appendCopies (os.map (Operand.onLists chains)) = .ok es ↔
      ∃ parts, List.Forall₂ (fun o part => o.events chains = some part) os parts ∧
        es = parts.flatten := by
  induction os generalizing es with
  | nil =>
    constructor
    · intro hes
      obtain rfl := Except.ok.inj hes
      exact ⟨[], .nil, rfl⟩
    · rintro ⟨parts, hparts, rfl⟩
      obtain rfl := List.forall₂_nil_left_iff.mp hparts
      rfl
  | cons o os ih =>
    rw [List.map_cons, appendCopies]
    constructor
    · intro hes
      obtain ⟨part, hpart, hes⟩ := Steps.bind_eq_ok.mp hes
      obtain ⟨rest, hrest, hes⟩ := Steps.bind_eq_ok.mp hes
      obtain rfl := Except.ok.inj hes
      obtain ⟨parts, hparts, rfl⟩ := (ih rest).mp hrest
      exact ⟨part :: parts, .cons ((appendCopyToMacro_onLists o part).mp hpart) hparts, rfl⟩
    · rintro ⟨parts, hparts, rfl⟩
      obtain ⟨part, parts, hpart, hrest, rfl⟩ := List.forall₂_cons_left_iff.mp hparts
      rw [(appendCopyToMacro_onLists o part).mpr hpart, (ih _).mpr ⟨parts, hrest, rfl⟩]
      rfl

/-- **Lists.** A call makes what the function on lists does. -/
theorem Call.makes_iff : c.Makes chains made ↔
    c.maker.onLists (c.operands.map (Operand.onLists chains)) =
      .ok (.userdata (.ktMacro made)) := by
  have hmods : ∀ num, Sdiol.luaMod num (c.operands.map (Operand.onLists chains)) =
      .ok (.userdata (.ktMacro made)) ↔
      c.operands ≠ [] ∧ ∃ parts, List.Forall₂ (fun o part => o.events chains = some part)
        c.operands parts ∧ made = ⟨num, true⟩ :: (parts.flatten ++ [⟨num, false⟩]) := by
    intro num
    simp only [luaMod_eq_ok, appendCopies_onLists, ne_eq, List.map_eq_nil_iff]
    constructor
    · rintro ⟨hne, _, ⟨parts, hparts, rfl⟩, rfl⟩
      exact ⟨hne, parts, hparts, rfl⟩
    · rintro ⟨hne, parts, hparts, rfl⟩
      exact ⟨hne, _, ⟨parts, hparts, rfl⟩, rfl⟩
  unfold Makes
  cases hmaker : c.maker with
  | luaMacro =>
    show _ ↔ Sdiol.luaMacro _ = _
    rw [luaMacro_eq_ok, appendCopies_onLists, ne_eq, ne_eq, List.map_eq_nil_iff]
    rfl
  | luaShift => exact (hmods 42).symm
  | luaCtrl => exact (hmods 29).symm
  | luaAlt => exact (hmods 56).symm
  | luaMeta => exact (hmods 125).symm

theorem Maker.delivers {args : List Arg} {vs : List LuaValue} (f : Maker)
    (hargs : List.Forall₂ (Arg.Stands h) args vs) : Delivers h (f.onLists vs) (f.run args h) := by
  cases f with
  | luaMacro => exact luaMacro_delivers hargs
  | luaShift => exact luaMod_delivers hargs
  | luaCtrl => exact luaMod_delivers hargs
  | luaAlt => exact luaMod_delivers hargs
  | luaMeta => exact luaMod_delivers hargs

/-! ### Runs -/

/-- The invariant: each value is a macro with its events, which a script can build. -/
def Script.Stands (s : Script) (chains : List (List MacroEvent)) : Prop :=
  List.Forall₂ (fun p chain => IsMacro s.mem p chain ∧ BuiltChain chain) s.values chains

/-- What is on the stack for an argument stands for it. -/
theorem Operand.stands (hs : s.Stands chains) (o : Operand) :
    (o.arg s.values).Stands s.mem (o.onLists chains) := by
  cases o with
  | code n => exact rfl
  | value i =>
    rw [Operand.arg, Operand.onLists]
    obtain ⟨hlen, hget⟩ := List.forall₂_iff_get.mp hs
    by_cases hi : i < s.values.length
    · have hi' : i < chains.length := hlen ▸ hi
      obtain ⟨hp, hbuilt⟩ := hget i hi hi'
      rw [List.getElem?_eq_getElem hi, List.getElem?_eq_getElem hi']
      exact stands_iff.mpr ⟨hp, hbuilt.ne_nil⟩
    · rw [List.getElem?_eq_none (by omega), List.getElem?_eq_none (by omega)]
      exact ⟨fun n => by simp, fun tree => by simp⟩

theorem Script.Stands.extends (hs : s.Stands chains) (hext : Extends s.mem H) :
    Script.Stands ⟨H, s.values⟩ chains :=
  List.Forall₂.imp (fun _ _ hp => ⟨hp.1.extends hext, hp.2⟩) hs

theorem Operand.accepted (hchains : ∀ chain ∈ chains, BuiltChain chain) (o : Operand)
    {ka : KeyAction} (hka : copyToKeyAction (o.onLists chains) = .ok ka) : ka.Accepted := by
  cases o with
  | code n =>
    rw [Operand.onLists, copyToKeyAction] at hka
    obtain ⟨d, _, hka⟩ := Steps.bind_eq_ok.mp hka
    obtain rfl := Except.ok.inj hka
    exact trivial
  | value i =>
    rw [Operand.onLists] at hka
    cases hi : chains[i]? with
    | none =>
      rw [hi] at hka
      have hnil : copyToKeyAction .nil = .ok .ktNone := by rw [copyToKeyAction]
      obtain rfl := Except.ok.inj (hnil.symm.trans hka)
      exact trivial
    | some chain =>
      rw [hi] at hka
      obtain rfl := Except.ok.inj ((copyToKeyAction_userdata _).symm.trans hka)
      exact hchains chain (List.mem_of_getElem? hi)

/-- What a call makes of macros that a script can build is one, too. -/
theorem Call.Makes.built (hmade : c.Makes chains made)
    (hchains : ∀ chain ∈ chains, BuiltChain chain) : BuiltChain made := by
  have hargs : ∀ arg ∈ c.operands.map (Operand.onLists chains),
      ∀ ka, copyToKeyAction arg = .ok ka → ka.Accepted := by
    intro arg harg ka hka
    obtain ⟨o, _, rfl⟩ := List.mem_map.mp harg
    exact o.accepted hchains hka
  have hlists := Call.makes_iff.mp hmade
  have haccepted : ∃ ka, LuaValue.userdata (.ktMacro made) = .userdata ka ∧ ka.Accepted := by
    cases hmaker : c.maker with
    | luaMacro => rw [hmaker] at hlists; exact luaMacro_accepted hargs hlists
    | luaShift => rw [hmaker] at hlists; exact luaMod_accepted hargs hlists
    | luaCtrl => rw [hmaker] at hlists; exact luaMod_accepted hargs hlists
    | luaAlt => rw [hmaker] at hlists; exact luaMod_accepted hargs hlists
    | luaMeta => rw [hmaker] at hlists; exact luaMod_accepted hargs hlists
  obtain ⟨ka, heq, hka⟩ := haccepted
  obtain rfl := LuaValue.userdata.inj heq
  exact hka

theorem Script.Stands.built (hs : s.Stands chains) : ∀ chain ∈ chains, BuiltChain chain := by
  intro chain hchain
  obtain ⟨hlen, hget⟩ := List.forall₂_iff_get.mp hs
  obtain ⟨i, hi, rfl⟩ := List.getElem_of_mem hchain
  exact (hget i (hlen ▸ hi) hi).2

/-- **One call.** It gives a value that is what the call makes, if there is memory for that, and
    leaves the values there are as they are. -/
theorem Script.call_spec (hs : s.Stands chains) (c : Call) :
    ∃ s', s.call c = some s' ∧ Extends s.mem s'.mem ∧
      ((∃ made p, c.Makes chains made ∧ made.length < s.mem.left ∧
          s'.values = s.values ++ [p] ∧ IsMacro s'.mem p made ∧
          s'.Stands (chains ++ [made])) ∨
        (¬ ∃ made, c.Makes chains made ∧ made.length < s.mem.left) ∧ s'.values = s.values) := by
  have hargs : List.Forall₂ (Arg.Stands s.mem) (c.operands.map (Operand.arg s.values))
      (c.operands.map (Operand.onLists chains)) := by
    rw [List.forall₂_map_left_iff, List.forall₂_map_right_iff]
    exact List.forall₂_same.mpr fun o _ => o.stands hs
  obtain ⟨hok, hfail⟩ := c.maker.delivers hargs
  by_cases hmakes : ∃ made, c.Makes chains made ∧ made.length < s.mem.left
  · obtain ⟨made, hmade, hlt⟩ := hmakes
    obtain ⟨h', p, hrun, hext, hstands⟩ := hok made (Call.makes_iff.mp hmade) hlt
    have hvalue := (stands_iff.mp hstands).1
    refine ⟨⟨h', s.values ++ [p]⟩, ?_, hext, .inl ⟨made, p, hmade, hlt, rfl, hvalue, ?_⟩⟩
    · simp only [Script.call, hrun, Option.bind_eq_bind, Option.bind_some]
    · exact List.rel_append (hs.extends hext) (.cons ⟨hvalue, hmade.built hs.built⟩ .nil)
  · have hle : ∀ made, c.maker.onLists (c.operands.map (Operand.onLists chains)) =
        .ok (.userdata (.ktMacro made)) → s.mem.left ≤ made.length := by
      intro made hmade
      by_contra hlt
      exact hmakes ⟨made, Call.makes_iff.mpr hmade, by omega⟩
    obtain ⟨h', e, hrun, hext⟩ := hfail hle
    refine ⟨⟨h', s.values⟩, ?_, hext, .inr ⟨hmakes, rfl⟩⟩
    simp only [Script.call, hrun, Option.bind_eq_bind, Option.bind_some]

/-- **Any number of calls.** Each value is what some call makes of those before it. -/
theorem Script.run_spec (hs : s.Stands chains) (calls : List Call) :
    ∃ s' new, Script.run calls s = some s' ∧ s'.Stands (chains ++ new) ∧
      ∀ i (hi : i < new.length), ∃ c ∈ calls, c.Makes (chains ++ new.take i) new[i] := by
  induction calls generalizing s chains with
  | nil => exact ⟨s, [], rfl, by rwa [List.append_nil], fun i hi => absurd hi (Nat.not_lt_zero i)⟩
  | cons c calls ih =>
    obtain ⟨s₁, hcall, hext, hresult⟩ := s.call_spec hs c
    have hstep : Script.run (c :: calls) s = Script.run calls s₁ := by
      rw [Script.run, hcall]
      rfl
    rw [hstep]
    rcases hresult with ⟨made, p, hmade, _, _, _, hs₁⟩ | ⟨_, hvalues⟩
    · -- the call has given a value
      obtain ⟨s', new, hrun, hs', hnew⟩ := ih hs₁
      refine ⟨s', made :: new, hrun, ?_, fun i hi => ?_⟩
      · rwa [List.append_assoc] at hs'
      · cases i with
        | zero =>
          refine ⟨c, List.mem_cons_self, ?_⟩
          rwa [List.take_zero, List.append_nil]
        | succ i =>
          obtain ⟨c', hc', hmakes⟩ := hnew i (Nat.lt_of_succ_lt_succ hi)
          refine ⟨c', List.mem_cons_of_mem c hc', ?_⟩
          rwa [List.append_assoc] at hmakes
    · -- it has raised an error
      have hs₁ : s₁.Stands chains := by
        have hkept := hs.extends hext
        rwa [← hvalues] at hkept
      obtain ⟨s', new, hrun, hs', hnew⟩ := ih hs₁
      refine ⟨s', new, hrun, hs', fun i hi => ?_⟩
      obtain ⟨c', hc', hmakes⟩ := hnew i hi
      exact ⟨c', List.mem_cons_of_mem c hc', hmakes⟩

/-- One call more: it gives the value that it makes if it makes one and there is memory for it,
    and the values before it keep their events. -/
def Script.Composes (s : Script) (chains : List (List MacroEvent)) : Prop :=
  ∀ c, ∃ s', s.call c = some s' ∧ List.Forall₂ (IsMacro s'.mem) s.values chains ∧
    ((∃ made p, c.Makes chains made ∧ made.length < s.mem.left ∧
        s'.values = s.values ++ [p] ∧ IsMacro s'.mem p made) ∨
      (¬ ∃ made, c.Makes chains made ∧ made.length < s.mem.left) ∧ s'.values = s.values)

/-- **Macros.** Whatever a script builds, in any memory: each value has the events that its call
    makes of the values before it, which no later call alters; it presses before it releases; and
    sending it leaves the counts of `send_dedup` unchanged. -/
theorem macros_compose (h₀ : Mem) (calls : List Call) :
    ∃ s chains, Script.run calls ⟨h₀, []⟩ = some s ∧
      List.Forall₂ (IsMacro s.mem) s.values chains ∧
      (∀ i (hi : i < chains.length), ∃ c ∈ calls, c.Makes (chains.take i) chains[i]) ∧
      s.Composes chains ∧
      ∀ chain ∈ chains, PressedFirst chain ∧ Inert chain := by
  obtain ⟨s, chains, hrun, hs, hmakes⟩ := @Script.run_spec [] ⟨h₀, []⟩ .nil calls
  rw [List.nil_append] at hs
  have hmacros : ∀ {s' : Script}, s'.Stands chains →
      List.Forall₂ (IsMacro s'.mem) s'.values chains :=
    fun hs' => List.Forall₂.imp (fun _ _ hp => hp.1) hs'
  refine ⟨s, chains, hrun, hmacros hs, hmakes, fun c => ?_, fun chain hchain => ?_⟩
  · obtain ⟨s', hcall, hext, hresult⟩ := s.call_spec hs c
    refine ⟨s', hcall, hmacros (hs.extends hext), ?_⟩
    rcases hresult with ⟨made, p, hmade, hlt, hvalues, hvalue, _⟩ | hnone
    · exact .inl ⟨made, p, hmade, hlt, hvalues, hvalue⟩
    · exact .inr hnone
  · have hbalanced := (hs.built chain hchain).balanced
    exact ⟨hbalanced.pressedFirst, hbalanced.inert⟩

end Mem

end Sdiol
