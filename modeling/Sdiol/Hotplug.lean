import Sdiol.Devices

namespace Sdiol.Devices

/-!
# Devices that come and go

The files in `/dev/input` and the queue of inotify on one side, the descriptors and the array of
`serve_loop` on the other.  Devices appear and disappear at any time: while `open_inputs` lists the
directory, before `open_inotify` watches it, and between any two calls of `serve_loop`.  What the
system calls return is free but for what the kernel promises (`Hotplug.Promises`).  Inotify may
merge the event for a file with the last one if that is the same and still unread, and it may lose
events, for which the program reads one that has no name.

* `Accounted` — the array holds exactly the descriptors that were grabbed, each for the grab that
  `check_grabs` chooses; what else is open belongs to devices that are ignored;
* `inputs_accounted` — in every state, and after `serve_loop` has closed its keyboards;
* `announced_once` — unless events are lost, each event for a file is answered by one try, in
  order, and no file that appears under the watch is missed.
-/

variable {n : Nat}

/-! ### The kernel and the program -/

/-- What a file in `/dev/input` stands for: an input device with its name, or something that is
    no input device and has none. -/
structure Device where
  id : Nat
  name : Option (List UInt8)
deriving DecidableEq

/-- An open descriptor of a device, and the grab for which `EVIOCGRAB` was called on it. -/
structure Descriptor (n : Nat) where
  fd : Fd
  device : Device
  grab : Option (Fin n)

/-- An event that inotify keeps for the program. -/
inductive Notice where
  | created (file : List UInt8)
  /-- there was no room for others -/
  | overflow
deriving DecidableEq

/-- What inotify does when a file appears. -/
inductive Notified where
  | queued
  /-- the last event was for the same file, and is not read yet -/
  | merged
  /-- there was no room -/
  | lost
deriving DecidableEq

/-- The array of `serve_loop`, the files in `/dev/input`, the descriptors of devices that the
    program has open, and the events that inotify keeps for it. -/
structure Hotplug (n : Nat) extends Inputs n where
  nodes : List UInt8 → Option Device
  fds : List (Descriptor n)
  queue : List Notice
  watching : Bool

/-- Before `open_inputs`; the array is uninitialised. -/
def hotplugInit (kbs : Nat → Keyboard n) (nodes : List UInt8 → Option Device) : Hotplug n where
  kbs := kbs
  nKbs := 0
  nodes := nodes
  fds := []
  queue := []
  watching := false

/-- The connected keyboards. -/
def Inputs.connected (s : Inputs n) : List (Keyboard n) := Buffer.slice s.kbs 0 s.nKbs

/-- The keyboard of a descriptor that was grabbed. -/
def Descriptor.keyboard (d : Descriptor n) : Option (Keyboard n) := d.grab.map (Keyboard.mk d.fd)

/-- An event as `read` returns it. -/
inductive NoticeRecord where
  | created (e : InotifyEvent)
  | overflow

def NoticeRecord.notice : NoticeRecord → Notice
  | .created e => .created e.name
  | .overflow => .overflow

/-- The bytes of it. -/
def NoticeRecord.encode : NoticeRecord → List UInt8
  | .created e => e.encode
  | .overflow => overflowEvent

inductive HotplugInput (n : Nat) where
  /-- a file appears, and inotify does this if the directory is watched -/
  | create (file : List UInt8) (dev : Device) (answer : Notified)
  | remove (file : List UInt8)
  /-- `readdir` returns an entry to `open_inputs` -/
  | entry (name : List UInt8) (a : OpenAnswer)
  /-- `open_inotify` -/
  | watch
  /-- `handle_inotify_events`, for which `read` returns these events -/
  | inotify (events : List NoticeRecord) (mem : Nat → UInt8) (answers : Nat → OpenAnswer)
  /-- `read` of the `i`-th keyboard fails -/
  | close (i : Nat)

inductive HotplugEffect (n : Nat) where
  /-- a file appeared while the directory was watched -/
  | appeared (file : List UInt8) (answer : Notified)
  /-- `open_inputs`, or if `watched` then `handle_inotify_events`, got to the path -/
  | tried (watched : Bool) (path : List UInt8) (outcome : Outcome n)
  | closed (kb : Keyboard n)

/-- Something happened that the kernel does not do. -/
structure NotPromised where
deriving DecidableEq

/-- The device at a path. -/
def Hotplug.lookup (s : Hotplug n) (path : List UInt8) : Option Device :=
  if devDir <+: path then s.nodes (path.drop devDir.length) else none

/-- What the kernel promises of the system calls of `open_input`: only a device is opened; a
    descriptor that is open is not given out again; `EVIOCGRAB` fails for what is no input device,
    and for a device that is grabbed; and `EVIOCGNAME` returns the name of an input device. -/
def Hotplug.Promises (s : Hotplug n) (path : List UInt8) (a : OpenAnswer) : Prop :=
  match s.lookup path with
  | none => a.fd < 0
  | some dev => a.fd < 0 ∨ a.fd.toNat ∉ s.fds.map Descriptor.fd ∧
      (dev.name = none → a.grab < 0) ∧ (∀ name ∈ dev.name, a.name = name) ∧
      (0 ≤ a.grab → ∀ d ∈ s.fds, d.device = dev → d.grab = none)

instance (s : Hotplug n) (path : List UInt8) (a : OpenAnswer) : Decidable (s.Promises path a) := by
  unfold Hotplug.Promises
  split <;> infer_instance

/-- What is open afterwards. -/
def Outcome.descriptors (dev : Option Device) : Outcome n → List (Descriptor n)
  | .ignored fd => dev.toList.map fun d => ⟨fd, d, none⟩
  | .grabbed kb => dev.toList.map fun d => ⟨kb.fd, d, some kb.grab⟩
  | _ => []

/-- `tryDevice`, with the descriptors. -/
def tryStep (grabs : Fin n → Grab) (x : List UInt8 × OpenAnswer) (s : Hotplug n) :
    Except NotPromised (Hotplug n × List (List UInt8 × Outcome n)) :=
  if s.nKbs < maxKbs → s.Promises (devPath x.1) x.2 then
    let (inputs, outcome) := tryDevice grabs x.2 s.toInputs
    .ok ({ s with toInputs := inputs
                  fds := s.fds ++ outcome.descriptors (s.lookup (devPath x.1)) },
      [(devPath x.1, outcome)])
  else .error .mk

/-- The queue of inotify after a file has appeared. -/
def notify (file : List UInt8) (queue : List Notice) : Notified → Except NotPromised (List Notice)
  | .queued => .ok (queue ++ [.created file])
  | .merged => if queue.getLast? = some (.created file) then .ok queue else .error .mk
  -- this is said once
  | .lost => .ok (if .overflow ∈ queue then queue else queue ++ [.overflow])

/-- One step of the kernel or the program. -/
def hotplugStep (grabs : Fin n → Grab) (i : HotplugInput n) (s : Hotplug n) :
    Except NotPromised (Hotplug n × List (HotplugEffect n)) :=
  match i with
  | .create file dev answer =>
    if s.nodes file = none ∧ 0 ∉ file ∧ file.length ≤ 255 then
      if s.watching then do
        let queue ← notify file s.queue answer
        .ok ({ s with nodes := Function.update s.nodes file (some dev), queue },
          [.appeared file answer])
      else .ok ({ s with nodes := Function.update s.nodes file (some dev) }, [])
    else .error .mk
  | .remove file => .ok ({ s with nodes := Function.update s.nodes file none }, [])
  | .entry name a =>
    -- `open_inputs` is called before `open_inotify`
    if s.watching then .error .mk
    else if isEvent name then do
      let (s, l) ← tryStep grabs (name, a) s
      .ok (s, l.map fun x => .tried false x.1 x.2)
    else .ok (s, [])
  | .watch => if s.watching then .error .mk else .ok ({ s with watching := true }, [])
  | .inotify events mem answers =>
    let content := events.flatMap NoticeRecord.encode
    if s.watching ∧ events.map NoticeRecord.notice <+: s.queue ∧
        content.length ≤ inotifySize then do
      let names := eventNames (Buffer.copy mem 0 content) content.length
      let (s', l) ← Steps.run (tryStep grabs) (names.zipIdx.map fun x => (x.1, answers x.2)) s
      .ok ({ s' with queue := s.queue.drop events.length }, l.map fun x => .tried true x.1 x.2)
    else .error .mk
  | .close i =>
    if s.watching ∧ i < s.nKbs then
      .ok ({ s with kbs := Buffer.move s.kbs i (i + 1) (maxKbs - i - 1)
                    nKbs := s.nKbs - 1
                    fds := s.fds.filter fun d => d.fd ≠ (s.kbs i).fd },
        [.closed (s.kbs i)])
    else .error .mk

/-- A run of the kernel and the program. -/
def runHotplug (grabs : Fin n → Grab) (s : Hotplug n) (inputs : List (HotplugInput n)) :
    Except NotPromised (Hotplug n × List (HotplugEffect n)) :=
  Steps.run (hotplugStep grabs) inputs s

/-! ### One device -/

/-- What `open_input` answers. -/
theorem openInput_cases (grabs : Fin n → Grab) (a : OpenAnswer) :
    openInput grabs a = .notOpened ∨
    (∃ g, ¬ a.fd < 0 ∧ checkGrabs grabs a.name = some g ∧
      (a.grab < 0 ∧ openInput grabs a = .busy a.fd.toNat ∨
        ¬ a.grab < 0 ∧ openInput grabs a = .grabbed ⟨a.fd.toNat, g⟩)) ∨
    ¬ a.fd < 0 ∧ checkGrabs grabs a.name = none ∧ openInput grabs a = .ignored a.fd.toNat := by
  unfold openInput
  by_cases hfd : a.fd < 0
  · rw [if_pos hfd]
    exact .inl rfl
  · rw [if_neg hfd]
    cases hcheck : checkGrabs grabs a.name with
    | none => exact .inr (.inr ⟨hfd, rfl, rfl⟩)
    | some g =>
      by_cases hgrab : a.grab < 0
      · exact .inr (.inl ⟨g, hfd, rfl, .inl ⟨hgrab, if_pos hgrab⟩⟩)
      · exact .inr (.inl ⟨g, hfd, rfl, .inr ⟨hgrab, if_neg hgrab⟩⟩)

/-- **One device**: nothing is left open, or a descriptor that was not open before, which is
    grabbed exactly if `check_grabs` finds a grab for its device. -/
theorem tryStep_cases {grabs : Fin n → Grab} {x : List UInt8 × OpenAnswer} {s s' : Hotplug n}
    {l : List (List UInt8 × Outcome n)} (h : tryStep grabs x s = .ok (s', l)) :
    (∃ outcome, s' = s ∧ l = [(devPath x.1, outcome)] ∧ (∀ fd, outcome ≠ .ignored fd) ∧
      ∀ kb, outcome ≠ .grabbed kb) ∨
    (∃ d name, d.fd ∉ s.fds.map Descriptor.fd ∧ (∀ nm ∈ d.device.name, name = nm) ∧
      checkGrabs grabs name = none ∧ d.grab = none ∧ s' = { s with fds := s.fds ++ [d] } ∧
      l = [(devPath x.1, .ignored d.fd)]) ∨
    ∃ d kb, s.nKbs < maxKbs ∧ d.keyboard = some kb ∧ d.fd ∉ s.fds.map Descriptor.fd ∧
      (∃ name ∈ d.device.name, checkGrabs grabs name = d.grab) ∧
      (∀ d' ∈ s.fds, d'.device = d.device → d'.grab = none) ∧
      s' = { s with kbs := Function.update s.kbs s.nKbs kb
                    nKbs := s.nKbs + 1
                    fds := s.fds ++ [d] } ∧
      l = [(devPath x.1, .grabbed kb)] := by
  unfold tryStep at h
  split at h
  · rename_i hpromise
    have hdevice : ¬ x.2.fd < 0 → s.nKbs < maxKbs → ∃ dev, s.lookup (devPath x.1) = some dev ∧
        x.2.fd.toNat ∉ s.fds.map Descriptor.fd ∧ (dev.name = none → x.2.grab < 0) ∧
        (∀ name ∈ dev.name, x.2.name = name) ∧
        (0 ≤ x.2.grab → ∀ d ∈ s.fds, d.device = dev → d.grab = none) := by
      intro hfd hroom
      have hkept := hpromise hroom
      unfold Hotplug.Promises at hkept
      cases hlookup : s.lookup (devPath x.1) with
      | none =>
        rw [hlookup] at hkept
        exact absurd hkept hfd
      | some dev =>
        rw [hlookup] at hkept
        exact ⟨dev, rfl, hkept.resolve_left hfd⟩
    rcases tryDevice_cases grabs x.2 s.toInputs with ⟨kb, hroom, hopen, htry⟩ |
      ⟨outcome, htry, hno, hwhy⟩
    · -- a keyboard
      rw [htry] at h
      rcases openInput_cases grabs x.2 with hopen' |
        ⟨g, hfd, hcheck, ⟨_, hopen'⟩ | ⟨hgrab, hopen'⟩⟩ | ⟨_, _, hopen'⟩
      · exact absurd (hopen.symm.trans hopen') (by simp)
      · exact absurd (hopen.symm.trans hopen') (by simp)
      · obtain ⟨dev, hlookup, hfresh, hunnamed, hname, hfree⟩ := hdevice hfd hroom
        obtain rfl : kb = ⟨x.2.fd.toNat, g⟩ := by simpa using hopen.symm.trans hopen'
        cases h
        refine .inr (.inr ⟨⟨x.2.fd.toNat, dev, some g⟩, _, hroom, rfl, hfresh, ?_,
          hfree (by omega), ?_, rfl⟩)
        · cases hdev : dev.name with
          | none => exact absurd (hunnamed hdev) hgrab
          | some name =>
            refine ⟨name, rfl, ?_⟩
            rw [← hname name hdev]
            exact hcheck
        · rw [hlookup]
          rfl
      · exact absurd (hopen.symm.trans hopen') (by simp)
    · rw [htry] at h
      cases h
      rcases hwhy with ⟨hroom, rfl⟩ | ⟨_, rfl⟩
      · rcases openInput_cases grabs x.2 with hopen | ⟨g, _, _, ⟨_, hopen⟩ | ⟨_, hopen⟩⟩ |
          ⟨hfd, hcheck, hopen⟩
        · refine .inl ⟨_, ?_, rfl, by simp [hopen], hno⟩
          rw [hopen]
          exact congrArg (fun fds => { s with fds := fds }) (List.append_nil _)
        · refine .inl ⟨_, ?_, rfl, by simp [hopen], hno⟩
          rw [hopen]
          exact congrArg (fun fds => { s with fds := fds }) (List.append_nil _)
        · exact absurd hopen (hno _)
        · -- the descriptor is not closed
          obtain ⟨dev, hlookup, hfresh, _, hname, _⟩ := hdevice hfd hroom
          refine .inr (.inl ⟨⟨x.2.fd.toNat, dev, none⟩, x.2.name, hfresh, hname, hcheck, rfl,
            ?_, ?_⟩)
          · rw [hopen, hlookup]
            rfl
          · rw [hopen]
      · refine .inl ⟨_, ?_, rfl, by simp, hno⟩
        exact congrArg (fun fds => { s with fds := fds }) (List.append_nil _)
  · exact absurd h (by simp)

/-! ### One step -/

/-- What a step does to the array, the descriptors and the queue. -/
inductive HotplugStep (grabs : Fin n → Grab) (s s' : Hotplug n) :
    HotplugInput n → List (HotplugEffect n) → Prop
  | quiet {i : HotplugInput n} (hinputs : s'.toInputs = s.toInputs) (hfds : s'.fds = s.fds)
      (hqueue : s'.queue = s.queue) : HotplugStep grabs s s' i []
  | appeared {file : List UInt8} {dev : Device} {answer : Notified}
      (hinputs : s'.toInputs = s.toInputs) (hfds : s'.fds = s.fds)
      (hqueue : notify file s.queue answer = .ok s'.queue) :
      HotplugStep grabs s s' (.create file dev answer) [.appeared file answer]
  | entry {name : List UInt8} {a : OpenAnswer} {l : List (List UInt8 × Outcome n)}
      (htry : tryStep grabs (name, a) s = .ok (s', l)) :
      HotplugStep grabs s s' (.entry name a) (l.map fun x => .tried false x.1 x.2)
  | inotify {records : List NoticeRecord} {mem : Nat → UInt8} {answers : Nat → OpenAnswer}
      {s₁ : Hotplug n} {l : List (List UInt8 × Outcome n)}
      (hread : records.map NoticeRecord.notice <+: s.queue)
      (hrun : Steps.run (tryStep grabs) ((eventNames
        (Buffer.copy mem 0 (records.flatMap NoticeRecord.encode))
        (records.flatMap NoticeRecord.encode).length).zipIdx.map fun x => (x.1, answers x.2)) s
          = .ok (s₁, l))
      (hs' : s' = { s₁ with queue := s.queue.drop records.length }) :
      HotplugStep grabs s s' (.inotify records mem answers) (l.map fun x => .tried true x.1 x.2)
  | close {i : Nat} (hi : i < s.nKbs)
      (hs' : s' = { s with kbs := Buffer.move s.kbs i (i + 1) (maxKbs - i - 1)
                           nKbs := s.nKbs - 1
                           fds := s.fds.filter fun d => d.fd ≠ (s.kbs i).fd }) :
      HotplugStep grabs s s' (.close i) [.closed (s.kbs i)]

theorem hotplugStep_ok {grabs : Fin n → Grab} {i : HotplugInput n} {s s' : Hotplug n}
    {l : List (HotplugEffect n)} (h : hotplugStep grabs i s = .ok (s', l)) :
    HotplugStep grabs s s' i l := by
  unfold hotplugStep at h
  cases i with
  | create file dev answer =>
    simp only at h
    split at h
    · split at h
      · obtain ⟨queue, hqueue, h⟩ := Steps.bind_eq_ok.mp h
        cases h
        exact .appeared rfl rfl hqueue
      · cases h
        exact .quiet rfl rfl rfl
    · exact absurd h (by simp)
  | remove file =>
    cases h
    exact .quiet rfl rfl rfl
  | entry name a =>
    simp only at h
    split at h
    · exact absurd h (by simp)
    · split at h
      · obtain ⟨⟨s₁, l₁⟩, htry, h⟩ := Steps.bind_eq_ok.mp h
        cases h
        exact .entry htry
      · cases h
        exact .quiet rfl rfl rfl
  | watch =>
    simp only at h
    split at h
    · exact absurd h (by simp)
    · cases h
      exact .quiet rfl rfl rfl
  | inotify records mem answers =>
    simp only at h
    split at h
    · rename_i hread
      obtain ⟨⟨s₁, l₁⟩, hrun, h⟩ := Steps.bind_eq_ok.mp h
      cases h
      exact .inotify hread.2.1 hrun rfl
    · exact absurd h (by simp)
  | close i =>
    simp only at h
    split at h
    · rename_i hi
      cases h
      exact .close hi.2 rfl
    · exact absurd h (by simp)

/-! ### The invariant -/

/-- The descriptors that were left open for devices that are to be ignored. -/
def ignoredFds (log : List (HotplugEffect n)) : List Fd :=
  log.filterMap fun
    | .tried _ _ (.ignored fd) => some fd
    | _ => none

/-- The array is the list of the descriptors that were grabbed, each for the grab that
    `check_grabs` finds for its device, and of different devices; every other descriptor is of a
    device that is to be ignored. -/
structure Accounted (grabs : Fin n → Grab) (log : List (HotplugEffect n)) (s : Hotplug n) :
    Prop where
  room : s.nKbs ≤ maxKbs
  distinct : (s.fds.map Descriptor.fd).Nodup
  keyboards : s.connected = s.fds.filterMap Descriptor.keyboard
  exclusive : ((s.fds.filter fun d => d.grab.isSome).map Descriptor.device).Nodup
  named : ∀ d ∈ s.fds, d.grab.isSome = true → d.device.name.isSome = true
  decided : ∀ d ∈ s.fds, ∀ name ∈ d.device.name, d.grab = checkGrabs grabs name
  ignored : (s.fds.filter fun d => d.grab.isNone).map Descriptor.fd = ignoredFds log

@[simp] theorem ignoredFds_append (l₁ l₂ : List (HotplugEffect n)) :
    ignoredFds (l₁ ++ l₂) = ignoredFds l₁ ++ ignoredFds l₂ := List.filterMap_append

theorem accounted_init (grabs : Fin n → Grab) (kbs : Nat → Keyboard n)
    (nodes : List UInt8 → Option Device) : Accounted grabs [] (hotplugInit kbs nodes) where
  room := Nat.zero_le _
  distinct := List.nodup_nil
  keyboards := rfl
  exclusive := List.nodup_nil
  named _ hd := absurd hd List.not_mem_nil
  decided _ hd := absurd hd List.not_mem_nil
  ignored := rfl

/-- In a list whose elements have different keys, erasing one is filtering by its key. -/
theorem eraseIdx_eq_filter {α κ : Type*} [DecidableEq κ] {key : α → κ} {l : List α}
    (h : (l.map key).Nodup) {i : Nat} {a : α} (ha : l[i]? = some a) :
    l.eraseIdx i = l.filter fun x => key x ≠ key a := by
  induction l generalizing i with
  | nil => exact absurd ha (by simp)
  | cons x l ih =>
    rw [List.map_cons, List.nodup_cons] at h
    obtain ⟨hx, hl⟩ := h
    cases i with
    | zero =>
      obtain rfl : x = a := by simpa using ha
      have hkeep : l.filter (fun y => key y ≠ key x) = l := by
        rw [List.filter_eq_self]
        intro y hy
        simpa using fun heq : key y = key x => hx (heq ▸ List.mem_map_of_mem hy)
      rw [List.eraseIdx_zero, List.tail_cons, List.filter_cons_of_neg (by simp), hkeep]
    | succ i =>
      have hat : l[i]? = some a := by simpa using ha
      have hne : key x ≠ key a := fun heq =>
        hx (heq ▸ List.mem_map_of_mem (List.mem_of_getElem? hat))
      rw [List.eraseIdx_cons_succ, ih hl hat, List.filter_cons_of_pos (by simpa using hne)]

section Kept

variable {grabs : Fin n → Grab} {log : List (HotplugEffect n)} {s s' : Hotplug n}

/-- Nothing that matters here changes. -/
theorem Accounted.frame (h : Accounted grabs log s) (hinputs : s'.toInputs = s.toInputs)
    (hfds : s'.fds = s.fds) {l : List (HotplugEffect n)} (hl : ignoredFds l = []) :
    Accounted grabs (log ++ l) s' := by
  obtain ⟨room, distinct, keyboards, exclusive, named, decided, ignored⟩ := h
  refine ⟨?_, ?_, ?_, ?_, ?_, ?_, ?_⟩
  · rw [hinputs]
    exact room
  · rw [hfds]
    exact distinct
  · rw [hinputs, hfds]
    exact keyboards
  · rw [hfds]
    exact exclusive
  · rw [hfds]
    exact named
  · rw [hfds]
    exact decided
  · rw [hfds, ignoredFds_append, hl, List.append_nil]
    exact ignored

/-- A descriptor that was not open is opened. -/
theorem Accounted.nodup_append (h : Accounted grabs log s) {d : Descriptor n}
    (hd : d.fd ∉ s.fds.map Descriptor.fd) : ((s.fds ++ [d]).map Descriptor.fd).Nodup := by
  rw [List.map_append, List.nodup_append_comm]
  exact List.nodup_cons.mpr ⟨hd, h.distinct⟩

/-- **Tried.** -/
theorem Accounted.tried (h : Accounted grabs log s) {x : List UInt8 × OpenAnswer}
    {l : List (List UInt8 × Outcome n)} (hstep : tryStep grabs x s = .ok (s', l))
    (watched : Bool) : Accounted grabs (log ++ l.map fun x => .tried watched x.1 x.2) s' := by
  rcases tryStep_cases hstep with ⟨outcome, rfl, rfl, hno, _⟩ |
    ⟨d, name, hfresh, hname, hcheck, hgrab, rfl, rfl⟩ |
    ⟨d, kb, hroom, hkb, hfresh, ⟨name, hname, hcheck⟩, hfree, rfl, rfl⟩
  · refine h.frame rfl rfl ?_
    cases outcome with
    | ignored fd => exact absurd rfl (hno fd)
    | _ => rfl
  · -- a descriptor stays open that is not in the array
    have hnone : d.keyboard = none := by simp [Descriptor.keyboard, hgrab]
    refine ⟨h.room, h.nodup_append hfresh, ?_, ?_, ?_, ?_, ?_⟩
    · show s.connected = (s.fds ++ [d]).filterMap Descriptor.keyboard
      rw [List.filterMap_append, List.filterMap_cons_none hnone, List.filterMap_nil,
        List.append_nil]
      exact h.keyboards
    · show (((s.fds ++ [d]).filter fun d => d.grab.isSome).map Descriptor.device).Nodup
      rw [List.filter_append, List.filter_singleton, hgrab]
      simpa using h.exclusive
    · intro d' hd' hsome
      rcases List.mem_append.mp hd' with hd' | hd'
      · exact h.named d' hd' hsome
      · rw [List.mem_singleton.mp hd', hgrab] at hsome
        exact absurd hsome (by simp)
    · intro d' hd' name' hname'
      rcases List.mem_append.mp hd' with hd' | hd'
      · exact h.decided d' hd' name' hname'
      · obtain rfl := List.mem_singleton.mp hd'
        rw [hgrab, ← hname name' hname', hcheck]
    · show ((s.fds ++ [d]).filter fun d => d.grab.isNone).map Descriptor.fd = _
      rw [List.filter_append, List.filter_singleton, hgrab, ignoredFds_append, List.map_append,
        h.ignored]
      rfl
  · -- a keyboard
    obtain ⟨g, hg, rfl⟩ : ∃ g, d.grab = some g ∧ Keyboard.mk d.fd g = kb := by
      simpa [Descriptor.keyboard] using hkb
    refine ⟨hroom, h.nodup_append hfresh, ?_, ?_, ?_, ?_, ?_⟩
    · show Buffer.slice (Function.update s.kbs s.nKbs ⟨d.fd, g⟩) 0 (s.nKbs + 1)
        = (s.fds ++ [d]).filterMap Descriptor.keyboard
      rw [Buffer.slice_push, List.filterMap_append, List.filterMap_cons_some hkb,
        List.filterMap_nil, ← h.keyboards]
      rfl
    · show (((s.fds ++ [d]).filter fun d => d.grab.isSome).map Descriptor.device).Nodup
      rw [List.filter_append, List.filter_singleton, hg, List.map_append, List.nodup_append_comm]
      refine List.nodup_cons.mpr ⟨fun hmem => ?_, h.exclusive⟩
      -- `EVIOCGRAB` would have failed
      obtain ⟨d', hd', hsame⟩ := List.mem_map.mp hmem
      obtain ⟨hd', hsome⟩ := List.mem_filter.mp hd'
      rw [hfree d' hd' hsame] at hsome
      exact absurd hsome (by simp)
    · intro d' hd' hsome
      rcases List.mem_append.mp hd' with hd' | hd'
      · exact h.named d' hd' hsome
      · rw [List.mem_singleton.mp hd']
        exact Option.isSome_iff_exists.mpr ⟨name, hname⟩
    · intro d' hd' name' hname'
      rcases List.mem_append.mp hd' with hd' | hd'
      · exact h.decided d' hd' name' hname'
      · obtain rfl := List.mem_singleton.mp hd'
        obtain rfl := Option.mem_unique hname hname'
        exact hcheck.symm
    · show ((s.fds ++ [d]).filter fun d => d.grab.isNone).map Descriptor.fd = _
      have hnone : ignoredFds [HotplugEffect.tried watched (devPath x.1)
          (.grabbed (Keyboard.mk d.fd g))] = [] := rfl
      rw [List.filter_append, List.filter_singleton, hg, ignoredFds_append, List.map_singleton,
        hnone, List.append_nil]
      simpa using h.ignored

/-- **Closed.** The descriptor of a keyboard is closed, and no other. -/
theorem Accounted.close (h : Accounted grabs log s) {i : Nat} (hi : i < s.nKbs) :
    Accounted grabs (log ++ [.closed (s.kbs i)])
      { s with kbs := Buffer.move s.kbs i (i + 1) (maxKbs - i - 1)
               nKbs := s.nKbs - 1
               fds := s.fds.filter fun d => d.fd ≠ (s.kbs i).fd } := by
  have hroom := h.room
  have hat : s.connected[i]? = some (s.kbs i) := by
    unfold Inputs.connected
    rw [Buffer.getElem?_slice, if_pos hi, Nat.zero_add]
  -- the descriptor of the keyboard
  obtain ⟨d, hd, hkb⟩ : ∃ d ∈ s.fds, d.keyboard = some (s.kbs i) := by
    have hmem := List.mem_of_getElem? hat
    rw [h.keyboards] at hmem
    exact List.mem_filterMap.mp hmem
  obtain ⟨g, hg, hsame⟩ : ∃ g, d.grab = some g ∧ Keyboard.mk d.fd g = s.kbs i := by
    simpa [Descriptor.keyboard] using hkb
  have hfd : (s.kbs i).fd = d.fd := by rw [← hsame]
  have hfdOf : ∀ (d' : Descriptor n) kb, d'.keyboard = some kb → kb.fd = d'.fd := by
    intro d' kb hkb'
    obtain ⟨_, _, rfl⟩ : ∃ g, d'.grab = some g ∧ Keyboard.mk d'.fd g = kb := by
      simpa [Descriptor.keyboard] using hkb'
    rfl
  have hsub : (s.fds.filter fun d => d.fd ≠ (s.kbs i).fd).Sublist s.fds := List.filter_sublist
  refine ⟨(Nat.sub_le _ _).trans hroom, h.distinct.sublist (hsub.map _), ?_,
    h.exclusive.sublist ((hsub.filter _).map _), fun d' hd' => h.named d' (hsub.subset hd'),
    fun d' hd' => h.decided d' (hsub.subset hd'), ?_⟩
  · have hkeys : (s.connected.map Keyboard.fd).Nodup := by
      rw [h.keyboards]
      refine h.distinct.sublist ?_
      rw [List.map_filterMap]
      have hmap : s.fds.filterMap (fun d' => d'.keyboard.map Keyboard.fd)
          = (s.fds.filter fun d' => d'.grab.isSome).map Descriptor.fd := by
        rw [← List.filterMap_eq_map, List.filterMap_filter]
        apply List.filterMap_congr
        intro d' _
        cases hd' : d'.grab <;> simp [Descriptor.keyboard, hd']
      rw [hmap]
      exact List.filter_sublist.map _
    show Buffer.slice (Buffer.move s.kbs i (i + 1) (maxKbs - i - 1)) 0 (s.nKbs - 1)
      = (s.fds.filter fun d => d.fd ≠ (s.kbs i).fd).filterMap Descriptor.keyboard
    rw [Buffer.slice_close s.kbs hi (by omega)]
    have herase := eraseIdx_eq_filter hkeys hat
    rw [Inputs.connected] at herase
    rw [herase, ← Inputs.connected, h.keyboards, List.filter_filterMap, List.filterMap_filter]
    apply List.filterMap_congr
    intro d' _
    cases hd' : d'.keyboard with
    | none => simp
    | some kb => simp [Option.filter, hfdOf d' kb hd']
  · rw [ignoredFds_append]
    show ((s.fds.filter fun d => d.fd ≠ (s.kbs i).fd).filter _).map Descriptor.fd = _ ++ []
    rw [List.append_nil, ← h.ignored, List.filter_filter]
    congr 1
    apply List.filter_congr
    intro d' hd'
    -- a descriptor that is not grabbed is not that of the keyboard
    by_cases hnone : d'.grab.isNone = true
    · have hne : d'.fd ≠ (s.kbs i).fd := by
        intro heq
        have hsame := List.inj_on_of_nodup_map h.distinct hd' hd (heq.trans hfd)
        rw [hsame, hg] at hnone
        exact absurd hnone (by simp)
      simp [hnone, hne]
    · simp [hnone]

/-- A call of `handle_inotify_events`. -/
theorem Accounted.tried_all (h : Accounted grabs log s)
    {devices : List (List UInt8 × OpenAnswer)} {l : List (List UInt8 × Outcome n)}
    (hrun : Steps.run (tryStep grabs) devices s = .ok (s', l)) (watched : Bool) :
    Accounted grabs (log ++ l.map fun x => .tried watched x.1 x.2) s' := by
  refine Steps.run_inv (fun l s' => Accounted grabs (log ++ l.map fun x => .tried watched x.1 x.2)
    s') ?_ (by simpa using h) hrun
  intro x _ l s₁ s₂ l' hinv hstep
  rw [List.map_append, ← List.append_assoc]
  exact hinv.tried hstep watched

/-- **Step.** -/
theorem Accounted.step (h : Accounted grabs log s) {i : HotplugInput n}
    {l : List (HotplugEffect n)} (hstep : hotplugStep grabs i s = .ok (s', l)) :
    Accounted grabs (log ++ l) s' := by
  cases hotplugStep_ok hstep with
  | quiet hinputs hfds _ => exact h.frame hinputs hfds rfl
  | appeared hinputs hfds _ => exact h.frame hinputs hfds rfl
  | entry htry => exact h.tried htry false
  | @inotify records _ _ s₁ l _ hrun hs' =>
    subst hs'
    -- the queue has no part in the invariant
    have hkept : Accounted grabs (log ++ (l.map fun x => .tried true x.1 x.2) ++ [])
        { s₁ with queue := s.queue.drop records.length } :=
      (h.tried_all hrun true).frame (by rfl) (by rfl) rfl
    rw [List.append_nil] at hkept
    exact hkept
  | close hi hs' =>
    subst hs'
    exact h.close hi

end Kept

/-- **Run.** -/
theorem runHotplug_accounted {grabs : Fin n → Grab} {kbs : Nat → Keyboard n}
    {nodes : List UInt8 → Option Device} {inputs : List (HotplugInput n)} {s : Hotplug n}
    {log : List (HotplugEffect n)}
    (h : runHotplug grabs (hotplugInit kbs nodes) inputs = .ok (s, log)) :
    Accounted grabs log s :=
  Steps.run_inv (Accounted grabs) (fun _ _ _ _ _ _ hinv hstep => hinv.step hstep)
    (accounted_init grabs kbs nodes) h

/-- What is open when `serve_loop` has closed its keyboards. -/
def Hotplug.leftOpen (s : Hotplug n) : List (Descriptor n) :=
  s.fds.filter fun d => d.fd ∉ s.connected.map Keyboard.fd

/-- **Accounting.** Whatever devices appear and disappear, in every state of every run: the array
    is the list of the descriptors that were grabbed, at most 16 and all different; each is of a
    device whose name is taken by its grab first, and no device is in it twice; and the only
    descriptors of devices that outlive `serve_loop` are those of devices that were looked at and
    ignored, one for each time. -/
theorem inputs_accounted {grabs : Fin n → Grab} {kbs : Nat → Keyboard n}
    {nodes : List UInt8 → Option Device} {inputs : List (HotplugInput n)} {s : Hotplug n}
    {log : List (HotplugEffect n)}
    (h : runHotplug grabs (hotplugInit kbs nodes) inputs = .ok (s, log)) :
    (s.connected = s.fds.filterMap Descriptor.keyboard ∧ s.connected.length ≤ 16 ∧
        (s.fds.map Descriptor.fd).Nodup) ∧
      (∀ d ∈ s.fds, ∀ g, d.grab = some g ↔ ∃ name ∈ d.device.name,
        (grabs g).Takes name ∧ (grabs g).ignore = false ∧ ∀ j, j < g → ¬ (grabs j).Takes name) ∧
      ((s.fds.filter fun d => d.grab.isSome).map Descriptor.device).Nodup ∧
      s.leftOpen.map Descriptor.fd = ignoredFds log := by
  obtain ⟨room, distinct, keyboards, exclusive, named, decided, ignored⟩ := runHotplug_accounted h
  refine ⟨⟨keyboards, ?_, distinct⟩, fun d hd g => ⟨fun hg => ?_, ?_⟩, exclusive, ?_⟩
  · show (Buffer.slice s.kbs 0 s.nKbs).length ≤ maxKbs
    rw [Buffer.length_slice]
    exact room
  · obtain ⟨name, hname⟩ := Option.isSome_iff_exists.mp (named d hd (by rw [hg]; rfl))
    exact ⟨name, hname, checkGrabs_eq_some.mp ((decided d hd name hname).symm.trans hg)⟩
  · rintro ⟨name, hname, hfirst⟩
    exact (decided d hd name hname).trans (checkGrabs_eq_some.mpr hfirst)
  · rw [← ignored]
    unfold Hotplug.leftOpen
    congr 1
    apply List.filter_congr
    intro d hd
    have hmem : d.fd ∈ s.connected.map Keyboard.fd ↔ d.grab.isSome = true := by
      rw [keyboards]
      constructor
      · intro hmem
        obtain ⟨kb, hkb, hfd⟩ := List.mem_map.mp hmem
        obtain ⟨d', hd', hsome⟩ := List.mem_filterMap.mp hkb
        obtain ⟨g, hg, rfl⟩ : ∃ g, d'.grab = some g ∧ Keyboard.mk d'.fd g = kb := by
          simpa [Descriptor.keyboard] using hsome
        obtain rfl := List.inj_on_of_nodup_map distinct hd' hd hfd
        rw [hg]
        rfl
      · intro hsome
        obtain ⟨g, hg⟩ := Option.isSome_iff_exists.mp hsome
        refine List.mem_map.mpr ⟨⟨d.fd, g⟩, List.mem_filterMap.mpr ⟨d, hd, ?_⟩, rfl⟩
        rw [Descriptor.keyboard, hg]
        rfl
    rw [decide_not, decide_eq_decide.mpr hmem, Bool.decide_coe, Option.not_isSome]

/-- The paths that `handle_inotify_events` got to. -/
def triedPaths (log : List (HotplugEffect n)) : List (List UInt8) :=
  log.filterMap fun
    | .tried true path _ => some path
    | _ => none

/-- What inotify did about the files that appeared. -/
def notifiedOf (log : List (HotplugEffect n)) : List Notified :=
  log.filterMap fun
    | .appeared _ answer => some answer
    | _ => none

/-- Inotify lost no event. -/
def Lossless (log : List (HotplugEffect n)) : Prop := .lost ∉ notifiedOf log

/-- Inotify merged no events. -/
def Unmerged (log : List (HotplugEffect n)) : Prop := .merged ∉ notifiedOf log

instance (log : List (HotplugEffect n)) : Decidable (Lossless log) :=
  inferInstanceAs (Decidable (_ ∉ _))

/-- Devices with a name of one letter are to be ignored, and all others belong to the second
    grab. -/
def ignoresShort (g : Fin 2) : Grab :=
  if g = Fin.last 1 then ⟨fun _ => 0, false⟩
  else ⟨fun name => if name.length = 1 then 0 else regNoMatch, true⟩

/-- "event0", "event1", … -/
def eventFile (i : UInt8) : List UInt8 := [101, 118, 101, 110, 116, 48 + i]

/-- The event of inotify for such a file. -/
def createdEvent (i : UInt8) (h : 0 ∉ eventFile i) : InotifyEvent :=
  ⟨1, 256, 0, eventFile i, 10, h, by simp [eventFile], by decide⟩

/-- One keyboard is there when `open_inputs` is called; then a device named "M" is plugged in,
    unplugged and plugged in again, then another keyboard, and the first keyboard is unplugged. -/
def pluggedIn : List (HotplugInput 2) :=
  [.create (eventFile 0) ⟨0, some [75, 66]⟩ .queued, .entry (eventFile 0) ⟨3, [75, 66], 0⟩,
    .entry [109, 105, 99, 101] ⟨4, [75, 66], 0⟩, .watch,
    .create (eventFile 1) ⟨1, some [77]⟩ .queued, .remove (eventFile 1),
    .create (eventFile 1) ⟨2, some [77]⟩ .merged, .create (eventFile 2) ⟨3, some [75, 66]⟩ .queued,
    .inotify [.created (createdEvent 1 (by decide)), .created (createdEvent 2 (by decide))]
      (fun _ => 7) (fun i => if i = 0 then ⟨4, [77], 0⟩ else ⟨5, [75, 66], 0⟩),
    .close 0]

theorem pluggedIn_ok : ∃ s log,
    runHotplug ignoresShort (hotplugInit (fun _ => ⟨0, 0⟩) fun _ => none) pluggedIn = .ok (s, log) ∧
      s.fds.map Descriptor.fd = [4, 5] ∧ s.nKbs = 1 ∧ ignoredFds log = [4] ∧
      triedPaths log = [devDir ++ eventFile 1, devDir ++ eventFile 2] ∧ Lossless log := by
  have hrun : (runHotplug ignoresShort (hotplugInit (fun _ => ⟨0, 0⟩) fun _ => none) pluggedIn).map
      (fun x => decide (x.1.fds.map Descriptor.fd = [4, 5] ∧ x.1.nKbs = 1 ∧
        ignoredFds x.2 = [4] ∧
        triedPaths x.2 = [devDir ++ eventFile 1, devDir ++ eventFile 2] ∧ Lossless x.2))
      = .ok true := by
    decide +kernel
  obtain ⟨⟨s, log⟩, hok, hshape⟩ := Steps.map_eq_ok hrun
  exact ⟨s, log, hok, of_decide_eq_true hshape⟩

/-- The descriptor of the device named "M" is left open. -/
theorem inputs_accounted_ignored : ∃ s log,
    runHotplug ignoresShort (hotplugInit (fun _ => ⟨0, 0⟩) fun _ => none) pluggedIn = .ok (s, log) ∧
      s.connected.length = 1 ∧ s.leftOpen.map Descriptor.fd = [4] := by
  obtain ⟨s, log, hok, _, hcount, hignored, _⟩ := pluggedIn_ok
  refine ⟨s, log, hok, ?_, (inputs_accounted hok).2.2.2.trans hignored⟩
  rw [Inputs.connected, Buffer.length_slice, hcount]

/-! ### No file is missed -/

/-- The files that appeared while the directory was watched. -/
def appearedPaths (log : List (HotplugEffect n)) : List (List UInt8) :=
  log.filterMap fun
    | .appeared file _ => some (devDir ++ file)
    | _ => none

/-- Those for which an event was queued. -/
def queuedPaths (log : List (HotplugEffect n)) : List (List UInt8) :=
  log.filterMap fun
    | .appeared file .queued => some (devDir ++ file)
    | _ => none

/-- Those for which inotify still has an event. -/
def Hotplug.unreadPaths (s : Hotplug n) : List (List UInt8) :=
  s.queue.filterMap fun
    | .created file => some (devDir ++ file)
    | .overflow => none

@[simp] theorem queuedPaths_append (l₁ l₂ : List (HotplugEffect n)) :
    queuedPaths (l₁ ++ l₂) = queuedPaths l₁ ++ queuedPaths l₂ := List.filterMap_append

@[simp] theorem triedPaths_append (l₁ l₂ : List (HotplugEffect n)) :
    triedPaths (l₁ ++ l₂) = triedPaths l₁ ++ triedPaths l₂ := List.filterMap_append

@[simp] theorem notifiedOf_append (l₁ l₂ : List (HotplugEffect n)) :
    notifiedOf (l₁ ++ l₂) = notifiedOf l₁ ++ notifiedOf l₂ := List.filterMap_append

/-- If no event is lost or merged, there is one for each file. -/
theorem queuedPaths_eq {log : List (HotplugEffect n)} (hlost : Lossless log)
    (hmerged : Unmerged log) : queuedPaths log = appearedPaths log := by
  apply List.filterMap_congr
  intro x hx
  cases x with
  | appeared file answer =>
    have hmem : answer ∈ notifiedOf log := List.mem_filterMap.mpr ⟨_, hx, rfl⟩
    cases answer with
    | queued => rfl
    | merged => exact absurd hmem hmerged
    | lost => exact absurd hmem hlost
  | _ => rfl

/-- The loop gets to each path once and in order, and does what `tryDevices` does. -/
theorem run_tryStep_ok {grabs : Fin n → Grab} {devices : List (List UInt8 × OpenAnswer)}
    {s s' : Hotplug n} {l : List (List UInt8 × Outcome n)}
    (h : Steps.run (tryStep grabs) devices s = .ok (s', l)) :
    tryDevices grabs devices s.toInputs = (s'.toInputs, l) ∧
      l.map Prod.fst = devices.map (fun x => devPath x.1) ∧ s'.queue = s.queue := by
  induction devices generalizing s l with
  | nil =>
    obtain ⟨rfl, rfl⟩ := Steps.run_nil_ok.mp h
    exact ⟨rfl, rfl, rfl⟩
  | cons x devices ih =>
    obtain ⟨s₁, l₁, l₂, hstep, hrest, rfl⟩ := Steps.run_cons_ok.mp h
    obtain ⟨hinputs, hpaths, hqueue⟩ := ih hrest
    unfold tryStep at hstep
    split at hstep
    · obtain ⟨⟨inputs, outcome⟩, htry⟩ : ∃ t, tryDevice grabs x.2 s.toInputs = t := ⟨_, rfl⟩
      rw [htry] at hstep
      cases hstep
      refine ⟨?_, ?_, hqueue⟩
      · simp only at hinputs
        simp only [tryDevices, htry, hinputs, List.singleton_append]
      · rw [List.singleton_append, List.map_cons, List.map_cons, hpaths]
    · exact absurd hstep (by simp)

/-- Events that say of no loss are of files. -/
theorem records_created {records : List NoticeRecord}
    (h : .overflow ∉ records.map NoticeRecord.notice) :
    ∃ events : List InotifyEvent, records = events.map .created := by
  induction records with
  | nil => exact ⟨[], rfl⟩
  | cons r records ih =>
    rw [List.map_cons, List.mem_cons, not_or] at h
    obtain ⟨events, rfl⟩ := ih h.2
    cases r with
    | created e => exact ⟨e :: events, rfl⟩
    | overflow => exact absurd rfl h.1

/-- What a step of `handle_inotify_events` is, if nothing was lost. -/
theorem hotplug_inotify {grabs : Fin n → Grab} {records : List NoticeRecord} {mem : Nat → UInt8}
    {answers : Nat → OpenAnswer} {s s' : Hotplug n} {l : List (HotplugEffect n)}
    (hlost : .overflow ∉ s.queue)
    (h : hotplugStep grabs (.inotify records mem answers) s = .ok (s', l)) :
    ∃ l', handleInotifyEvents grabs (.bytes (records.flatMap NoticeRecord.encode)) mem answers
        s.toInputs = some (s'.toInputs, l') ∧ l = l'.map (fun x => .tried true x.1 x.2) ∧
      s.unreadPaths = l'.map Prod.fst ++ s'.unreadPaths ∧
      s.queue = records.map NoticeRecord.notice ++ s'.queue := by
  unfold hotplugStep at h
  simp only at h
  split at h
  · rename_i hread
    obtain ⟨⟨s₁, l₁⟩, hrun, h⟩ := Steps.bind_eq_ok.mp h
    cases h
    obtain ⟨hinputs, hpaths, _⟩ := run_tryStep_ok hrun
    obtain ⟨rest, hrest⟩ := hread.2.1
    obtain ⟨events, rfl⟩ := records_created fun hmem =>
      hlost (hrest ▸ List.mem_append_left rest hmem)
    have hbytes : (events.map NoticeRecord.created).flatMap NoticeRecord.encode
        = events.flatMap InotifyEvent.encode := List.flatMap_map ..
    have hdrop : s.queue.drop (events.map NoticeRecord.created).length = rest := by
      rw [← hrest, List.drop_left' (by simp)]
    refine ⟨l₁, congrArg some hinputs, rfl, ?_, ?_⟩
    · have hnames : ∀ names : List (List UInt8),
          names.zipIdx.map ((fun x => devPath x.1) ∘ fun x => (x.1, answers x.2))
            = names.map devPath := by
        intro names
        rw [← List.zipIdx_map_fst 0 names, List.map_map, List.zipIdx_map_fst]
        rfl
      have htried : l₁.map Prod.fst = events.map fun e => devDir ++ e.name := by
        rw [hpaths, List.map_map, hnames, hbytes, eventNames_encode, List.map_map]
        exact List.map_congr_left fun e _ => devPath_eq e.short
      unfold Hotplug.unreadPaths
      simp only [hdrop]
      rw [← hrest, List.filterMap_append, htried]
      simp [List.filterMap_map, NoticeRecord.notice, Function.comp_def]
    · simp only [hdrop]
      exact hrest.symm
  · exact absurd h (by simp)

/-- Unless the event is lost, there is one for the file. -/
theorem notify_ok {file : List UInt8} {queue queue' : List Notice} {answer : Notified}
    (hlost : answer ≠ .lost) (h : notify file queue answer = .ok queue') :
    .created file ∈ queue' ∧ (answer = .queued ∧ queue' = queue ++ [.created file] ∨
      answer = .merged ∧ queue' = queue) := by
  cases answer with
  | queued =>
    obtain rfl := Except.ok.inj h
    exact ⟨List.mem_append_right _ List.mem_cons_self, .inl ⟨rfl, rfl⟩⟩
  | merged =>
    have h : (if queue.getLast? = some (.created file) then Except.ok queue
        else .error NotPromised.mk) = .ok queue' := h
    split at h
    · rename_i hlast
      obtain rfl := Except.ok.inj h
      exact ⟨List.mem_of_getLast? hlast, .inr ⟨rfl, rfl⟩⟩
    · exact absurd h (by simp)
  | lost => exact absurd rfl hlost

/-- As long as inotify loses no event: an event for a file is answered by one try, in order, and
    whenever a file appears, a try follows or an event is unread. -/
structure Followed (log : List (HotplugEffect n)) (s : Hotplug n) : Prop where
  noOverflow : .overflow ∉ s.queue
  inOrder : queuedPaths log = triedPaths log ++ s.unreadPaths
  missesNone : ∀ before file answer after, log = before ++ .appeared file answer :: after →
    devDir ++ file ∈ triedPaths after ++ s.unreadPaths

section Follow

variable {grabs : Fin n → Grab} {log l : List (HotplugEffect n)} {s s' : Hotplug n}

/-- Nothing appears, and what is tried was unread. -/
theorem Followed.frame (h : Followed log s) (hnone : ∀ file answer, .appeared file answer ∉ l)
    (hqueue : s.unreadPaths = triedPaths l ++ s'.unreadPaths) (hsub : s'.queue ⊆ s.queue) :
    Followed (log ++ l) s' := by
  obtain ⟨noOverflow, inOrder, missesNone⟩ := h
  have hqueued : queuedPaths l = [] := by
    refine List.filterMap_eq_nil_iff.mpr fun x hx => ?_
    cases x with
    | appeared file answer => exact absurd hx (hnone file answer)
    | _ => rfl
  refine ⟨fun hmem => noOverflow (hsub hmem), ?_, ?_⟩
  · rw [queuedPaths_append, triedPaths_append, hqueued, List.append_nil, inOrder, hqueue,
      List.append_assoc]
  · intro before file answer after hsplit
    rcases List.append_eq_append_iff.mp hsplit with ⟨m, rfl, hm⟩ | ⟨m, rfl, hm⟩
    · -- the file would have appeared now
      exact absurd (hm ▸ List.mem_append_right m List.mem_cons_self) (hnone file answer)
    · cases m with
      | nil =>
        rw [List.nil_append] at hm
        exact absurd (hm ▸ List.mem_cons_self) (hnone file answer)
      | cons x m =>
        obtain ⟨rfl, rfl⟩ := List.cons_eq_cons.mp hm
        have hmem := missesNone before file answer m rfl
        rw [hqueue, ← List.append_assoc, ← triedPaths_append] at hmem
        exact hmem

/-- A file appears. -/
theorem Followed.appeared (h : Followed log s) {file : List UInt8} {answer : Notified}
    (hlost : answer ≠ .lost) (hqueue : notify file s.queue answer = .ok s'.queue) :
    Followed (log ++ [.appeared file answer]) s' := by
  obtain ⟨noOverflow, inOrder, missesNone⟩ := h
  obtain ⟨hfile, hcases⟩ := notify_ok hlost hqueue
  have hunread : devDir ++ file ∈ s'.unreadPaths := List.mem_filterMap.mpr ⟨_, hfile, rfl⟩
  have htried : triedPaths [HotplugEffect.appeared (n := n) file answer] = [] := rfl
  obtain ⟨more, hmore, hqueued, hnone⟩ : ∃ more, s'.unreadPaths = s.unreadPaths ++ more ∧
      queuedPaths [HotplugEffect.appeared (n := n) file answer] = more ∧
      .overflow ∉ s'.queue := by
    unfold Hotplug.unreadPaths
    rcases hcases with ⟨rfl, hq⟩ | ⟨rfl, hq⟩
    · refine ⟨[devDir ++ file], ?_, rfl, by simp [hq, noOverflow]⟩
      rw [hq, List.filterMap_append]
      rfl
    · refine ⟨[], ?_, rfl, hq ▸ noOverflow⟩
      rw [hq, List.append_nil]
  refine ⟨hnone, ?_, ?_⟩
  · rw [queuedPaths_append, triedPaths_append, hqueued, htried, List.append_nil, inOrder, hmore,
      List.append_assoc]
  · intro before file' answer' after hsplit
    rcases List.eq_nil_or_concat after with rfl | ⟨after, x, rfl⟩
    · obtain ⟨_, heq⟩ := List.append_inj' hsplit rfl
      cases heq
      exact List.mem_append_right _ hunread
    · rw [List.concat_eq_append, ← List.cons_append, ← List.append_assoc] at hsplit
      obtain ⟨rfl, heq⟩ := List.append_inj' hsplit rfl
      cases heq
      have hmem := missesNone before file' answer' after rfl
      rw [List.concat_eq_append, triedPaths_append, htried, List.append_nil, hmore,
        ← List.append_assoc]
      exact List.mem_append_left more hmem

/-- **Step.** -/
theorem Followed.step (h : Followed log s) {i : HotplugInput n} (hlost : Lossless l)
    (hstep : hotplugStep grabs i s = .ok (s', l)) : Followed (log ++ l) s' := by
  have hunread : s'.queue = s.queue → s.unreadPaths = s'.unreadPaths := fun hqueue => by
    unfold Hotplug.unreadPaths
    rw [hqueue]
  cases hotplugStep_ok hstep with
  | quiet _ _ hqueue => exact h.frame (by simp) (hunread hqueue) (by rw [hqueue]; exact fun _ => id)
  | appeared _ _ hqueue =>
    refine h.appeared (fun heq => hlost ?_) hqueue
    rw [heq]
    exact List.mem_cons_self
  | @entry name a l₁ htry =>
    have hrun : Steps.run (tryStep grabs) [(name, a)] s = .ok (s', l₁) :=
      Steps.run_cons_ok.mpr ⟨s', l₁, [], htry, rfl, by simp⟩
    have hqueue := (run_tryStep_ok hrun).2.2
    refine h.frame (by simp) ?_ (by rw [hqueue]; exact fun _ => id)
    rw [hunread hqueue]
    simp [triedPaths, List.filterMap_map]
  | inotify _ _ _ =>
    obtain ⟨l', _, hl, hread, hqueue⟩ := hotplug_inotify h.noOverflow hstep
    rw [hl]
    refine h.frame (by simp) ?_ (by rw [hqueue]; exact List.subset_append_right _ _)
    rw [hread]
    simp [triedPaths, List.filterMap_map]
  | close _ hs' =>
    have hqueue : s'.queue = s.queue := by rw [hs']
    exact h.frame (by simp) (hunread hqueue) (by rw [hqueue]; exact fun _ => id)

end Follow

/-- **Announced once, tried once.** In every run in which inotify loses no event, the files for
    which it queues one are, in this order, those that `handle_inotify_events` gets to, each once,
    and those with an event that is still unread.  If no events are merged these are all files
    that appear while the directory is watched; and if some are, none of these files is missed: a
    try follows, or an event is unread. -/
theorem announced_once {grabs : Fin n → Grab} {kbs : Nat → Keyboard n}
    {nodes : List UInt8 → Option Device} {inputs : List (HotplugInput n)} {s : Hotplug n}
    {log : List (HotplugEffect n)}
    (h : runHotplug grabs (hotplugInit kbs nodes) inputs = .ok (s, log)) (hlost : Lossless log) :
    queuedPaths log = triedPaths log ++ s.unreadPaths ∧
      (Unmerged log → appearedPaths log = triedPaths log ++ s.unreadPaths) ∧
      ∀ before file answer after, log = before ++ .appeared file answer :: after →
        devDir ++ file ∈ triedPaths after ++ s.unreadPaths := by
  have hfollowed : Followed log s := by
    refine Steps.run_inv (fun log s => Lossless log → Followed log s) ?_ (fun _ => ?_) h hlost
    · intro i _ log s s' l hinv hstep hlost
      unfold Lossless at hlost
      rw [notifiedOf_append, List.mem_append, not_or] at hlost
      exact (hinv hlost.1).step hlost.2 hstep
    · exact ⟨by simp [hotplugInit], rfl, by simp⟩
  refine ⟨hfollowed.inOrder, fun hmerged => ?_, hfollowed.missesNone⟩
  rw [← queuedPaths_eq hlost hmerged]
  exact hfollowed.inOrder

/-- Both devices that were plugged in were tried, in this order, and the first of them once. -/
theorem announced_once_two : ∃ s log,
    runHotplug ignoresShort (hotplugInit (fun _ => ⟨0, 0⟩) fun _ => none) pluggedIn = .ok (s, log) ∧
      queuedPaths log = [devDir ++ eventFile 1, devDir ++ eventFile 2] ++ s.unreadPaths := by
  obtain ⟨s, log, hok, _, _, _, htried, hlost⟩ := pluggedIn_ok
  exact ⟨s, log, hok, (announced_once hok hlost).1.trans (by rw [htried])⟩

end Sdiol.Devices
