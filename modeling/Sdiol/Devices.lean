import Sdiol.Deadline
import Sdiol.Lib.Records

namespace Sdiol.Devices

/-!
# Input devices

`devices.c`: `check_grabs` looks for the first grab of the configuration whose pattern matches
the name of a device, `open_input` opens a device and grabs it, and `open_inputs` and
`handle_inotify_events` do so for the files that `readdir` lists and for those that inotify
announces.  `OpenAnswer` is what the system calls of `open_input` return.

* `checkGrabs_eq_some` — the grab of a device is the first that matches, if that is no
  `ignore_keyboard`;
* `eventNames_encode` — from the bytes of any inotify events, `handle_inotify_events` takes their
  file names, in order and each once;
* `devPath_eq` — none of which is cut off;
* `tryDevices_openInputs` — the array of keyboards becomes what `openInputs` says for those
  devices that were grabbed.
-/

variable {n : Nat}

/-! ### Grabs -/

/-- Of a `grab_t`, what decides on a device: what `regexec` returns for a name, and `ignore`. -/
structure Grab where
  regexec : List UInt8 → Int
  ignore : Bool

/-- `REG_NOMATCH` -/
def regNoMatch : Int := 1

/-- The pattern matches, or `regexec` failed. -/
def Grab.Takes (g : Grab) (name : List UInt8) : Prop := g.regexec name ≠ regNoMatch

instance (g : Grab) (name : List UInt8) : Decidable (g.Takes name) :=
  inferInstanceAs (Decidable (_ ≠ _))

/-- The loop of `check_grabs`, from some grab of the list on. -/
def checkGrabsFrom (grabs : Fin n → Grab) (name : List UInt8) : List (Fin n) → Option (Fin n)
  | [] => none
  | g :: rest =>
    if (grabs g).Takes name then if (grabs g).ignore then none else some g
    else checkGrabsFrom grabs name rest

/-- `check_grabs` -/
def checkGrabs (grabs : Fin n → Grab) (name : List UInt8) : Option (Fin n) :=
  checkGrabsFrom grabs name (List.finRange n)

theorem checkGrabsFrom_eq_some {grabs : Fin n → Grab} {name : List UInt8} {gs : List (Fin n)}
    (hsorted : gs.Pairwise (· < ·)) {g : Fin n} :
    checkGrabsFrom grabs name gs = some g ↔
      g ∈ gs ∧ (grabs g).Takes name ∧ (grabs g).ignore = false ∧
        ∀ j ∈ gs, j < g → ¬ (grabs j).Takes name := by
  induction gs with
  | nil => simp [checkGrabsFrom]
  | cons first rest ih =>
    obtain ⟨hfirst, hrest⟩ := List.pairwise_cons.mp hsorted
    unfold checkGrabsFrom
    by_cases htakes : (grabs first).Takes name
    · rw [if_pos htakes]
      constructor
      · intro h
        split at h
        · exact absurd h (by simp)
        · rename_i hignore
          obtain rfl := Option.some.inj h
          refine ⟨List.mem_cons_self, htakes, Bool.eq_false_iff.mpr hignore, fun j hj hlt => ?_⟩
          rcases List.mem_cons.mp hj with rfl | hj
          · exact absurd hlt (lt_irrefl j)
          · exact absurd hlt (not_lt_of_gt (hfirst j hj))
      · rintro ⟨hmem, _, hignore, hnone⟩
        -- a later grab would come after `first`, which takes the device
        rcases List.mem_cons.mp hmem with rfl | hmem
        · rw [if_neg (by simp [hignore])]
        · exact absurd htakes (hnone first List.mem_cons_self (hfirst g hmem))
    · rw [if_neg htakes, ih hrest]
      constructor
      · rintro ⟨hmem, hg, hignore, hnone⟩
        refine ⟨List.mem_cons_of_mem _ hmem, hg, hignore, fun j hj hlt => ?_⟩
        rcases List.mem_cons.mp hj with rfl | hj
        · exact htakes
        · exact hnone j hj hlt
      · rintro ⟨hmem, hg, hignore, hnone⟩
        rcases List.mem_cons.mp hmem with rfl | hmem
        · exact absurd hg htakes
        · exact ⟨hmem, hg, hignore, fun j hj => hnone j (List.mem_cons_of_mem _ hj)⟩

/-- **The first match decides**: a device belongs to the first grab that takes its name, and to
    none if that one is an `ignore_keyboard`. -/
theorem checkGrabs_eq_some {grabs : Fin n → Grab} {name : List UInt8} {g : Fin n} :
    checkGrabs grabs name = some g ↔ (grabs g).Takes name ∧ (grabs g).ignore = false ∧
      ∀ j, j < g → ¬ (grabs j).Takes name := by
  unfold checkGrabs
  rw [checkGrabsFrom_eq_some (List.pairwise_lt_finRange n)]
  simp

/-! ### `open_input` -/

/-- What `open`, `ioctl(fd, EVIOCGNAME(…))` and `ioctl(fd, EVIOCGRAB, 1)` answer: the name is
    what stands in `buf` then. -/
structure OpenAnswer where
  fd : Int
  name : List UInt8
  grab : Int

/-- What became of a device. -/
inductive Outcome (n : Nat) where
  /-- there were `MAX_KBS` keyboards -/
  | noRoom
  | notOpened
  /-- no grab takes the name, or one that is to be ignored; the descriptor stays open -/
  | ignored (fd : Fd)
  /-- `EVIOCGRAB` failed, and the descriptor was closed -/
  | busy (fd : Fd)
  | grabbed (kb : Keyboard n)

/-- `open_input`, which returns `true` for `grabbed`. -/
def openInput (grabs : Fin n → Grab) (a : OpenAnswer) : Outcome n :=
  if a.fd < 0 then .notOpened
  else
    match checkGrabs grabs a.name with
    | some g => if a.grab < 0 then .busy a.fd.toNat else .grabbed ⟨a.fd.toNat, g⟩
    | none => .ignored a.fd.toNat

/-! ### The loops over devices -/

/-- `kbs` and `n_kbs` -/
structure Inputs (n : Nat) where
  kbs : Nat → Keyboard n
  nKbs : Nat

/-- "/dev/input/" -/
def devDir : List UInt8 := "/dev/input/".toUTF8.toList

/-- `sizeof(dev)` -/
def devSize : Nat := 512

/-- `snprintf(dev, sizeof(dev), "/dev/input/%s", name)` -/
def devPath (name : List UInt8) : List UInt8 := (devDir ++ name).take (devSize - 1)

/-- What both loops do with the name of a device. -/
def tryDevice (grabs : Fin n → Grab) (a : OpenAnswer) (s : Inputs n) : Inputs n × Outcome n :=
  if s.nKbs < maxKbs then
    match openInput grabs a with
    | .grabbed kb => (⟨Function.update s.kbs s.nKbs kb, s.nKbs + 1⟩, .grabbed kb)
    | outcome => (s, outcome)
  else (s, .noRoom)

/-- Both loops: the names in order, with what the system calls answer if the device is tried.
    Beside the new array, what became of each path. -/
def tryDevices (grabs : Fin n → Grab) :
    List (List UInt8 × OpenAnswer) → Inputs n → Inputs n × List (List UInt8 × Outcome n)
  | [], s => (s, [])
  | (name, a) :: rest, s =>
    let (s, outcome) := tryDevice grabs a s
    let (s, l) := tryDevices grabs rest s
    (s, (devPath name, outcome) :: l)

/-- `ent->d_name == strstr(ent->d_name, "event")` -/
def isEvent (name : List UInt8) : Bool := "event".toUTF8.toList.isPrefixOf name

/-- `open_inputs`, with the entries that `readdir` returns and the array before. -/
def openInputs (grabs : Fin n → Grab) (entries : List (List UInt8 × OpenAnswer))
    (kbs : Nat → Keyboard n) : Inputs n × List (List UInt8 × Outcome n) :=
  tryDevices grabs (entries.filter fun e => isEvent e.1) ⟨kbs, 0⟩

/-- What becomes of one device. -/
theorem tryDevice_cases (grabs : Fin n → Grab) (a : OpenAnswer) (s : Inputs n) :
    (∃ kb, s.nKbs < maxKbs ∧ openInput grabs a = .grabbed kb ∧
      tryDevice grabs a s = (⟨Function.update s.kbs s.nKbs kb, s.nKbs + 1⟩, .grabbed kb)) ∨
    ∃ outcome, tryDevice grabs a s = (s, outcome) ∧ (∀ kb, outcome ≠ .grabbed kb) ∧
      ((s.nKbs < maxKbs ∧ outcome = openInput grabs a) ∨
        (maxKbs ≤ s.nKbs ∧ outcome = .noRoom)) := by
  unfold tryDevice
  by_cases hroom : s.nKbs < maxKbs
  · rw [if_pos hroom]
    cases hopen : openInput grabs a with
    | grabbed kb => exact .inl ⟨kb, hroom, rfl, rfl⟩
    | noRoom => exact .inr ⟨.noRoom, rfl, by simp, .inl ⟨hroom, rfl⟩⟩
    | notOpened => exact .inr ⟨.notOpened, rfl, by simp, .inl ⟨hroom, rfl⟩⟩
    | ignored fd => exact .inr ⟨.ignored fd, rfl, by simp, .inl ⟨hroom, rfl⟩⟩
    | busy fd => exact .inr ⟨.busy fd, rfl, by simp, .inl ⟨hroom, rfl⟩⟩
  · rw [if_neg hroom]
    exact .inr ⟨.noRoom, rfl, by simp, .inr ⟨by omega, rfl⟩⟩

/-- The keyboards among the devices that were tried. -/
def grabbedKeyboards (l : List (List UInt8 × Outcome n)) : List (Keyboard n) :=
  l.filterMap fun
    | (_, .grabbed kb) => some kb
    | _ => none

/-- **The keyboards of `serve_loop`.** The loops over devices do to the array what `openInputs`
    does with the keyboards that were grabbed. -/
theorem tryDevices_openInputs (grabs : Fin n → Grab) (devices : List (List UInt8 × OpenAnswer))
    (w : World n) :
    let tried := tryDevices grabs devices ⟨w.kbs, w.nKbs⟩
    (Sdiol.openInputs (grabbedKeyboards tried.2) w).kbs = tried.1.kbs ∧
      (Sdiol.openInputs (grabbedKeyboards tried.2) w).nKbs = tried.1.nKbs := by
  induction devices generalizing w with
  | nil => exact ⟨rfl, rfl⟩
  | cons d devices ih =>
    obtain ⟨name, a⟩ := d
    rcases tryDevice_cases grabs a ⟨w.kbs, w.nKbs⟩ with ⟨kb, hroom, _, htry⟩ |
      ⟨outcome, htry, hno, _⟩
    · have hopen : Sdiol.openInput kb w
          = { w with kbs := Function.update w.kbs w.nKbs kb
                     nKbs := w.nKbs + 1
                     held := Function.update w.held kb.fd fun _ => false } := if_pos hroom
      have hrest := ih (Sdiol.openInput kb w)
      rw [hopen] at hrest
      have hfirst : ∀ l, Sdiol.openInputs (grabbedKeyboards ((devPath name, .grabbed kb) :: l)) w
          = Sdiol.openInputs (grabbedKeyboards l) (Sdiol.openInput kb w) := fun _ => rfl
      simp only [tryDevices, htry, hfirst, hopen]
      exact hrest
    · have hskip : ∀ l, grabbedKeyboards ((devPath name, outcome) :: l) = grabbedKeyboards l := by
        intro l
        cases outcome with
        | grabbed kb => exact absurd rfl (hno kb)
        | _ => rfl
      simp only [tryDevices, htry, hskip]
      exact ih w

/-! ### `handle_inotify_events` -/

/-- `sizeof(buf)` -/
def inotifySize : Nat := 4096

/-- `sizeof(struct inotify_event)` -/
def eventHeader : Nat := 16

/-- `sizeof(struct inotify_event) + event->len` for the event at `i`. -/
def eventSize (mem : Nat → UInt8) (i : Nat) : Nat := eventHeader + Records.le32At mem (i + 12)

/-- `event->name` for the event at `i`, as far as it fits into `dev` behind "/dev/input/". -/
def eventName (mem : Nat → UInt8) (i : Nat) : List UInt8 :=
  (Buffer.slice mem (i + eventHeader) (devSize - 1 - devDir.length)).takeWhile fun b => b != 0

/-- The names in the `len` bytes that were read to the start of `mem`.  Each iteration moves on,
    so `len` of them are enough. -/
def eventNames (mem : Nat → UInt8) (len : Nat) : List (List UInt8) :=
  (Records.starts (eventSize mem) len len 0).map (eventName mem)

/-- The loop has ended by then: every event is at least as long as its header. -/
theorem eventNames_complete (mem : Nat → UInt8) (len more : Nat) :
    (Records.starts (eventSize mem) len (len + more) 0).map (eventName mem)
      = eventNames mem len := by
  have hsize : ∀ i, 0 < eventSize mem i := fun i => by
    unfold eventSize eventHeader
    omega
  rw [Records.starts_fuel hsize (by omega) more, eventNames]

/-- What `read` returns for the inotify descriptor. -/
inductive InotifyRead where
  /-- -1, and whether `errno` is `EAGAIN` -/
  | error (again : Bool)
  | bytes (content : List UInt8)

/-- `handle_inotify_events`, with what is in `buf` and behind it before; `none` is `exit(3)`.
    `answers i` is for the `i`-th name. -/
def handleInotifyEvents (grabs : Fin n → Grab) (r : InotifyRead) (mem : Nat → UInt8)
    (answers : Nat → OpenAnswer) (s : Inputs n) :
    Option (Inputs n × List (List UInt8 × Outcome n)) :=
  match r with
  | .error again => if again then some (s, []) else none
  | .bytes content =>
    let names := eventNames (Buffer.copy mem 0 content) content.length
    some (tryDevices grabs (names.zipIdx.map fun x => (x.1, answers x.2)) s)

/-! ### What the kernel writes -/

/-- An event of inotify for a directory that is watched: the name of the file is followed by at
    least one byte 0. -/
structure InotifyEvent where
  wd : Nat
  mask : Nat
  cookie : Nat
  name : List UInt8
  padding : Nat
  named : 0 ∉ name
  short : name.length ≤ 255
  padded : 1 ≤ padding ∧ padding ≤ 256

/-- The bytes of an event. -/
def InotifyEvent.encode (e : InotifyEvent) : List UInt8 :=
  Records.le32 e.wd ++ Records.le32 e.mask ++ Records.le32 e.cookie ++
    Records.le32 (e.name.length + e.padding) ++ (e.name ++ List.replicate e.padding 0)

/-- The bytes of the event for a queue that was full: `wd` is -1, `mask` is `IN_Q_OVERFLOW`, and
    there is no name. -/
def overflowEvent : List UInt8 :=
  Records.le32 0xffffffff ++ Records.le32 0x4000 ++ Records.le32 0 ++ Records.le32 0

theorem InotifyEvent.length_encode (e : InotifyEvent) :
    e.encode.length = eventHeader + (e.name.length + e.padding) := by
  simp only [InotifyEvent.encode, List.length_append, Records.length_le32, List.length_replicate]
  unfold eventHeader
  omega

section Event

variable {mem : Nat → UInt8} {i : Nat} {e : InotifyEvent}

/-- Where the fields of an event stand. -/
theorem InotifyEvent.fields (h : Buffer.slice mem i e.encode.length = e.encode) :
    Buffer.slice mem (i + 12) 4 = Records.le32 (e.name.length + e.padding) ∧
      Buffer.slice mem (i + eventHeader) (e.name.length + e.padding)
        = e.name ++ List.replicate e.padding 0 := by
  have hsplit : e.encode.length = 12 + (4 + (e.name.length + e.padding)) := by
    rw [e.length_encode]
    unfold eventHeader
    omega
  rw [hsplit, Buffer.slice_add, Buffer.slice_add] at h
  unfold InotifyEvent.encode at h
  rw [List.append_assoc (_ ++ _ ++ _)] at h
  obtain ⟨_, hrest⟩ := List.append_inj h (by simp)
  exact List.append_inj hrest (by simp)

theorem eventSize_encode (h : Buffer.slice mem i e.encode.length = e.encode) :
    eventSize mem i = e.encode.length := by
  have hshort := e.short
  obtain ⟨_, hpadding⟩ := e.padded
  unfold eventSize
  rw [Records.le32At_of_slice (by omega) (InotifyEvent.fields h).1, e.length_encode]

theorem eventName_encode (h : Buffer.slice mem i e.encode.length = e.encode) :
    eventName mem i = e.name := by
  have hshort := e.short
  obtain ⟨hpadding, _⟩ := e.padded
  have hname := (InotifyEvent.fields h).2
  -- the name and the first byte behind it
  have hzero : Buffer.slice mem (i + eventHeader) (e.name.length + 1) = e.name ++ [0] := by
    have htake := congrArg (List.take (e.name.length + 1)) hname
    rw [Buffer.take_slice _ _ (by omega)] at htake
    rw [htake, List.take_append, Nat.add_sub_cancel_left, List.take_of_length_le (by omega),
      List.take_replicate, Nat.min_eq_left hpadding]
    rfl
  have hroom : devSize - 1 - devDir.length = (e.name.length + 1) + (499 - e.name.length) := by
    have hdir : devDir.length = 11 := by decide +kernel
    unfold devSize
    omega
  have hnonzero : ∀ b ∈ e.name, (b != 0) = true := by
    intro b hb
    have hne : b ≠ 0 := fun heq => e.named (heq ▸ hb)
    simpa using hne
  unfold eventName
  rw [hroom, Buffer.slice_add, hzero, List.append_assoc, List.takeWhile_append_of_pos hnonzero]
  simp

end Event

/-- **Round trip.** From the bytes of any events, `handle_inotify_events` takes their names, in
    order and each once, whatever is in the buffer behind them. -/
theorem eventNames_encode (mem : Nat → UInt8) (events : List InotifyEvent) :
    eventNames (Buffer.copy mem 0 (events.flatMap InotifyEvent.encode))
      (events.flatMap InotifyEvent.encode).length = events.map InotifyEvent.name := by
  have hbuf := Buffer.slice_copy mem 0 (events.flatMap InotifyEvent.encode)
  have hfuel : events.length ≤ (events.flatMap InotifyEvent.encode).length := by
    clear hbuf
    induction events with
    | nil => exact le_rfl
    | cons e events ih =>
      rw [List.flatMap_cons, List.length_append, List.length_cons, e.length_encode]
      unfold eventHeader
      omega
  have hnonempty : ∀ e ∈ events, e.encode ≠ [] := by
    intro e _ hnil
    have hlen := e.length_encode
    rw [hnil, List.length_nil] at hlen
    unfold eventHeader at hlen
    omega
  have hmap := Records.starts_map hnonempty (fun e _ i h => eventSize_encode h)
    (fun e _ i h => eventName_encode h) hbuf hfuel
  rw [Nat.zero_add] at hmap
  exact hmap

/-- No file name is cut off. -/
theorem devPath_eq {name : List UInt8} (h : name.length ≤ 255) : devPath name = devDir ++ name := by
  have hdir : devDir.length = 11 := by decide +kernel
  unfold devPath
  apply List.take_of_length_le
  rw [List.length_append]
  unfold devSize
  omega

end Sdiol.Devices
