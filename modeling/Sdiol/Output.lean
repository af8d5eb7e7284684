import Sdiol.NameTables

namespace Sdiol

/-!
# The output device

`open_output` tells `/dev/uinput` which events the new device has, describes it, and creates it.
`OutputCall` are the calls on the descriptor; the program does not look at what they return.
`Uinput.call` is what a call does in the kernel, which refuses to enable anything once there is a
device, or what is out of range, and creates no device that was not described.

* `calls_enabled` — what is enabled before there is a device is what was asked for;
* `output_keybits` — the device that `open_output` creates from the tables that `names_init` leaves.
-/

/-! ### The program -/

def evRel : UInt16 := 2
def evMsc : UInt16 := 4
def relX : Nat := 0
def relMax : Nat := 0x0f
def busUsb : UInt16 := 3

/-- What a device can be enabled for: the arguments of `UI_SET_EVBIT`, `UI_SET_KEYBIT` and
    `UI_SET_RELBIT`. -/
inductive Capability where
  | evbit (type : UInt16)
  | keybit (key : UInt16)
  | relbit (rel : Nat)
deriving DecidableEq

/-- A `struct uinput_user_dev`, of which the rest is 0. -/
structure UinputUserDev where
  name : List UInt8
  bustype : UInt16
  vendor : UInt16
  product : UInt16
  version : UInt16

inductive OutputCall where
  /-- `ioctl(fd, UI_SET_EVBIT, …)` and the like -/
  | set (c : Capability)
  /-- `write(fd, &uidev, sizeof(uidev))` -/
  | write (uidev : UinputUserDev)
  /-- `ioctl(fd, UI_DEV_CREATE)` -/
  | devCreate

/-- `enable_ev_key_value` -/
def enableEvKeyValue (entry : List UInt8 × UInt16) : Capability := .keybit entry.2

/-- `uidev` -/
def sdiolDev : UinputUserDev := ⟨literal "sdiol", busUsb, 0x1111, 0x0001, 1⟩

/-- What the device is enabled for: types of events, then the keys and buttons that
    `for_each_value` visits, then all rel events. -/
def outputCapabilities (t : NameTables) : List Capability :=
  [evKey, evSyn, evMsc, evRel].map .evbit ++ t.forEachValue.map enableEvKeyValue ++
    (List.range' relX (relMax + 1 - relX)).map .relbit

/-- `open_output`, for which `open` returns `fd`. -/
def openOutput (t : NameTables) (fd : Int) : Int × List OutputCall :=
  if fd < 0 then (-1, [])
  else (fd, (outputCapabilities t).map .set ++ [.write sdiolDev, .devCreate])

/-! ### The kernel -/

/-- `EV_MAX` -/
def evMax : Nat := 0x1f

/-- The kernel knows of it. -/
def Capability.inRange : Capability → Bool
  | .evbit type => decide (type.toNat ≤ evMax)
  | .keybit key => decide (key.toNat ≤ keyMax)
  | .relbit rel => decide (rel ≤ relMax)

/-- What the kernel keeps for a descriptor of `/dev/uinput`. -/
structure Uinput where
  enabled : Capability → Bool
  described : Option UinputUserDev
  created : Bool

/-- After `open`. -/
def uinputInit : Uinput := ⟨fun _ => false, none, false⟩

/-- What a call does. -/
def Uinput.call (d : Uinput) : OutputCall → Uinput
  | .set c =>
    if d.created = false ∧ c.inRange then { d with enabled := Function.update d.enabled c true }
    else d
  | .write uidev => if d.created then d else { d with described := some uidev }
  | .devCreate => if d.described.isSome then { d with created := true } else d

/-- What some calls do, one after the other. -/
def Uinput.calls (d : Uinput) (l : List OutputCall) : Uinput := l.foldl Uinput.call d

/-! ### The device -/

/-- Before there is a device, what is in range is enabled. -/
theorem calls_enabled {d : Uinput} (h : d.created = false) (cs : List Capability) :
    (d.calls (cs.map .set)).created = false ∧ ∀ c, (d.calls (cs.map .set)).enabled c = true ↔
      d.enabled c = true ∨ c ∈ cs ∧ c.inRange = true := by
  induction cs generalizing d with
  | nil => exact ⟨h, by simp [Uinput.calls]⟩
  | cons c₁ cs ih =>
    show ((d.call (.set c₁)).calls (cs.map .set)).created = false ∧ ∀ c,
      ((d.call (.set c₁)).calls (cs.map .set)).enabled c = true ↔ _
    have hcreated : (d.call (.set c₁)).created = false := by
      simp only [Uinput.call]
      split <;> exact h
    have henabled : ∀ c, (d.call (.set c₁)).enabled c = true ↔
        d.enabled c = true ∨ c = c₁ ∧ c.inRange = true := by
      intro c
      by_cases hrange : c₁.inRange = true
      · simp only [Uinput.call, if_pos (And.intro h hrange)]
        by_cases hc : c = c₁
        · simp [hc, hrange]
        · simp [hc]
      · simp only [Uinput.call, if_neg (fun hh : _ ∧ _ => hrange hh.2)]
        refine iff_self_or.mpr ?_
        rintro ⟨rfl, hc⟩
        exact absurd hc hrange
    obtain ⟨hrest, hall⟩ := ih hcreated
    refine ⟨hrest, fun c => ?_⟩
    rw [hall, henabled, List.mem_cons, or_and_right, or_assoc]

/-- The kernel knows of everything that is asked for. -/
theorem outputCapabilities_inRange {t : NameTables} (h : t.Answers) :
    ∀ c ∈ outputCapabilities t, c.inRange = true := by
  have htypes : ∀ c ∈ [evKey, evSyn, evMsc, evRel].map Capability.evbit, c.inRange = true := by
    decide
  have haxes : ∀ c ∈ (List.range' relX (relMax + 1 - relX)).map Capability.relbit,
      c.inRange = true := by
    decide
  intro c hc
  unfold outputCapabilities at hc
  rcases List.mem_append.mp hc with hc | hc
  · rcases List.mem_append.mp hc with hc | hc
    · exact htypes c hc
    · obtain ⟨⟨name, value⟩, hvalue, rfl⟩ := List.mem_map.mp hc
      obtain ⟨entry, hentry, rfl⟩ := List.mem_map.mp ((h.eachValue.2 name value).mp hvalue).1
      have hlt := inputNames_inRange entry (List.mem_of_mem_take hentry)
      exact decide_eq_true (Nat.le_of_lt hlt)
  · exact haxes c hc

/-- Nothing is asked for twice. -/
theorem outputCapabilities_nodup {t : NameTables} (h : t.Answers) :
    (outputCapabilities t).Nodup := by
  have htypes : ([evKey, evSyn, evMsc, evRel].map Capability.evbit).Nodup := by decide
  have haxes : ((List.range' relX (relMax + 1 - relX)).map Capability.relbit).Nodup := by decide
  have hkeys : (t.forEachValue.map enableEvKeyValue).Nodup := by
    have hmap := h.eachValue.1.map (f := Capability.keybit) fun a b hab => by simpa using hab
    rwa [List.map_map] at hmap
  have hkey : ∀ c ∈ t.forEachValue.map enableEvKeyValue, ∃ key, c = .keybit key := by
    intro c hc
    obtain ⟨entry, -, rfl⟩ := List.mem_map.mp hc
    exact ⟨entry.2, rfl⟩
  refine (htypes.append hkeys fun c hc hc' => ?_).append haxes fun c hc hc' => ?_
  · obtain ⟨key, rfl⟩ := hkey c hc'
    simp at hc
  · obtain ⟨rel, -, rfl⟩ := List.mem_map.mp hc'
    rcases List.mem_append.mp hc with hc | hc
    · simp at hc
    · obtain ⟨key, heq⟩ := hkey _ hc
      simp at heq

/-- **The output device.** The device that `open_output` creates, when it has told everything,
    has the four types of events, the rel events up to `REL_MAX`, and the keys and buttons that
    have an `ADD_KEY` line in `names_init`, of which 0 is none; it has nothing else, and nothing is
    asked for twice. -/
theorem output_keybits {alloc : NamesAlloc} {t : NameTables} (h : namesInit alloc = .ok t)
    {fd : Int} (hfd : 0 ≤ fd) :
    ∃ (cs : List Capability) (d : Uinput), cs.Nodup ∧
      openOutput t fd = (fd, cs.map .set ++ [.write sdiolDev, .devCreate]) ∧
      uinputInit.calls (openOutput t fd).2 = d ∧ d.created = true ∧
      d.described = some sdiolDev ∧ (∀ c, d.enabled c = true ↔ c ∈ cs) ∧
      (∀ type, .evbit type ∈ cs ↔ type ∈ [evKey, evSyn, evMsc, evRel]) ∧
      (∀ key, .keybit key ∈ cs ↔ key ∈ keyNames.map Prod.snd) ∧ .keybit 0 ∉ cs ∧
      ∀ rel, .relbit rel ∈ cs ↔ rel ≤ relMax := by
  have hanswers := namesInit_answers h
  have hcalls : openOutput t fd = (fd, (outputCapabilities t).map .set ++
      [.write sdiolDev, .devCreate]) := if_neg (by omega)
  obtain ⟨hcreated, henabled⟩ := calls_enabled (d := uinputInit) rfl (outputCapabilities t)
  -- what `UI_DEV_CREATE` finds
  have hdev : uinputInit.calls (openOutput t fd).2 =
      { uinputInit.calls ((outputCapabilities t).map .set) with
        described := some sdiolDev
        created := true } := by
    rw [hcalls, Uinput.calls, List.foldl_append]
    show ((uinputInit.calls _).call (.write sdiolDev)).call .devCreate = _
    simp [Uinput.call, hcreated]
  have hkeys : ∀ key, .keybit key ∈ outputCapabilities t ↔ key ∈ keyNames.map Prod.snd := by
    intro key
    have hvisited : .keybit key ∈ outputCapabilities t ↔ key ∈ t.forEachValue.map Prod.snd := by
      simp [outputCapabilities, enableEvKeyValue]
    rw [hvisited, List.mem_map]
    constructor
    · rintro ⟨⟨name, value⟩, hvalue, rfl⟩
      exact ((hanswers.eachValue.2 name value).mp hvalue).1
    · intro hkey
      exact ⟨(getInputName key, key), (hanswers.eachValue.2 _ _).mpr ⟨hkey, rfl⟩, rfl⟩
  refine ⟨outputCapabilities t, _, outputCapabilities_nodup hanswers, hcalls, hdev, rfl, rfl,
    fun c => ?_, fun type => ?_, hkeys, ?_, fun rel => ?_⟩
  · show (uinputInit.calls _).enabled c = true ↔ _
    rw [henabled]
    have hrange := outputCapabilities_inRange hanswers c
    simpa [uinputInit] using hrange
  · simp [outputCapabilities, enableEvKeyValue]
  · rw [hkeys]
    decide +kernel
  · simp [outputCapabilities, enableEvKeyValue, relX, relMax]
    omega

/-- Code 195 has no name, and code 0 only one that is an alias. -/
theorem output_keybits_195 : ∃ t, ∃ cs : List Capability, namesInit .ok = .ok t ∧
    openOutput t 3 = (3, cs.map .set ++ [.write sdiolDev, .devCreate]) ∧
    Capability.keybit 30 ∈ cs ∧ Capability.keybit 195 ∉ cs ∧ Capability.keybit 0 ∉ cs := by
  obtain ⟨t, hinit⟩ := namesInit_ok
  have hfd : (0 : Int) ≤ 3 := by decide
  obtain ⟨cs, d, -, hopen, -, -, -, -, -, hkeys, hzero, -⟩ := output_keybits hinit hfd
  refine ⟨t, cs, hinit, hopen, (hkeys 30).mpr (by decide +kernel), fun h => ?_, hzero⟩
  exact absurd ((hkeys 195).mp h) (by decide +kernel)

end Sdiol
