import Sdiol.Options
import Sdiol.Wire
import Sdiol.Lib.Strtol

namespace Sdiol

open Getopt Strtol

/-!
# Owner and mode of the socket

`--chown-socket USER:GROUP` is cut at its colon by `split_user_group`; `set_file_perms` then reads
both parts, each a number or a name, and the mode, an octal number, and calls `chown` and `chmod`.
It is a program that makes at most these two calls, and goes on or gives up as they succeed or
fail: `Perms`.

`NamesId` says which number a part stands for, `Permissions` which calls the options ask for.
`set_file_perms_iff` is that these calls are made, and no others, exactly if the options can be
understood.
-/

/-- The text that `printf` writes for `%ld`. -/
def printLd (z : Int) : Arg :=
  if z < 0 then 45 :: Decimal.render z.natAbs else Decimal.render z.toNat

/-- `UINT_MAX` -/
def uintMax : Int := 2 ^ 32 - 1

/-- The checks of a `long` before it becomes a `uid_t`, a `gid_t` or a `mode_t`, with the message
    when one fails. -/
def checkRange (label : Arg) (l : Int) : Except Arg UInt32 :=
  if l > uintMax then .error (label ++ bytes " " ++ printLd l ++ bytes " too big\n")
  else if l < 0 then .error (label ++ bytes " " ++ printLd l ++ bytes " cannot be negative\n")
  else .ok (UInt32.ofNat l.toNat)

/-- What `getpwnam_r` and `getgrnam_r` find for a name. -/
inductive NameLookup where
  /-- A return value other than 0. -/
  | failed
  | notFound
  | found (id : UInt32)
deriving DecidableEq

/-- What differs between `get_uid_from_string` and `get_gid_from_string`. -/
structure IdKind where
  label : Arg
  noun : Arg
  call : Arg

/-- Both of them: the number, or what is written to `stderr`, without the text that `perror` adds
    for `errno`. -/
def getIdFromString (kind : IdKind) (lookup : Arg → NameLookup) (s : Arg) : Except Arg UInt32 :=
  let (l, endptr) := strtol 0 s
  if s ≠ [] ∧ endptr = [] then checkRange kind.label l
  else
    match lookup s with
    | .failed => .error kind.call
    | .notFound => .error (kind.noun ++ bytes " " ++ s ++ bytes " not found\n")
    | .found id => .ok id

def getUidFromString (getpwnam : Arg → NameLookup) (user : Arg) : Except Arg UInt32 :=
  getIdFromString ⟨bytes "UID", bytes "user", bytes "getpwnam_r"⟩ getpwnam user

def getGidFromString (getgrnam : Arg → NameLookup) (group : Arg) : Except Arg UInt32 :=
  getIdFromString ⟨bytes "GID", bytes "group", bytes "getgrnam_r"⟩ getgrnam group

/-- The mode in `set_file_perms`. -/
def modeFromString (mode : Arg) : Except Arg UInt32 :=
  let (l, endptr) := strtol 8 mode
  if mode = [] ∨ endptr ≠ [] then .error (bytes "invalid permissions: " ++ mode ++ bytes "\n")
  else checkRange (bytes "mode") l

/-! ### `set_file_perms` -/

/-- A call that changes the file. -/
inductive FileCall where
  | chown (uid gid : UInt32)
  | chmod (mode : UInt32)
deriving DecidableEq

/-- What `set_file_perms` has still to do. -/
inductive Perms where
  /-- 0 is returned. -/
  | ok
  /-- The text is written to `stderr`, and -1 is returned. -/
  | fail (text : Arg)
  /-- The call is made; if it fails, `perror(file)`, and -1 is returned. -/
  | call (c : FileCall) (next : Perms)
deriving DecidableEq

/-- `set_file_perms` from the mode on. -/
def setFileMode (mode : Option Arg) : Perms :=
  match mode with
  | none => .ok
  | some mode =>
    match modeFromString mode with
    | .error text => .fail text
    | .ok m => .call (.chmod m) .ok

/-- `set_file_perms` -/
def setFilePerms (getpwnam getgrnam : Arg → NameLookup) (user group mode : Option Arg) : Perms :=
  match user, group with
  | none, none => setFileMode mode
  | some user, some group =>
    match getUidFromString getpwnam user with
    | .error text => .fail text
    | .ok uid =>
      match getGidFromString getgrnam group with
      | .error text => .fail text
      | .ok gid => .call (.chown uid gid) (setFileMode mode)
  | _, _ => .fail (bytes "user and group must both be NULL or non-NULL\n")

/-- The calls that are made, where `answer` says which of them succeed, and whether 0 is
    returned. -/
def Perms.run (answer : FileCall → Bool) : Perms → List FileCall × Bool
  | .ok => ([], true)
  | .fail _ => ([], false)
  | .call c next =>
    if answer c = true then (c :: (next.run answer).1, (next.run answer).2) else ([c], false)

/-! ### `split_user_group` -/

/-- The loop over the characters, from number `i` on: where the only colon is, or `none` at the
    second one. -/
def findColon : Nat → Option Nat → Arg → Option (Option Nat)
  | _, found, [] => some found
  | i, found, b :: s =>
    if b ≠ colon then findColon (i + 1) found s
    else if found.isSome then none
    else findColon (i + 1) (some i) s

/-- `split_user_group`, where the two calls of `malloc` succeed or fail: `*user` and `*group`, or
    what is written to `stderr`. -/
def splitUserGroup (mallocs : Bool × Bool) (userGroup : Option Arg) :
    Except Arg (Option Arg × Option Arg) :=
  match userGroup with
  | none => .ok (none, none)
  | some userGroup =>
    match findColon 0 none userGroup with
    | some (some i) =>
      if !mallocs.1 then .error (bytes "malloc")
      else if !mallocs.2 then .error (bytes "malloc")
      else .ok (some (userGroup.take i), some (userGroup.drop (i + 1)))
    | _ => .error (bytes "invalid USER:GROUP: " ++ userGroup ++ bytes "\n")

/-! ### What the options mean -/

/-- The string is a number, or else a name, that stands for the identifier. -/
def NamesId (lookup : Arg → NameLookup) (s : Arg) (id : UInt32) : Prop :=
  Numeral 0 s id.toNat ∨ (¬ ∃ z, Numeral 0 s z) ∧ lookup s = .found id

/-- The two parts of `USER:GROUP`. -/
def SplitsAt (arg user group : Arg) : Prop :=
  arg = user ++ colon :: group ∧ colon ∉ user ∧ colon ∉ group

/-- The call that `--chown-socket` asks for, if it is there. -/
inductive Owner (getpwnam getgrnam : Arg → NameLookup) : Option Arg → List FileCall → Prop
  | none : Owner getpwnam getgrnam none []
  | some {arg user group : Arg} {uid gid : UInt32} (hsplit : SplitsAt arg user group)
      (huser : NamesId getpwnam user uid) (hgroup : NamesId getgrnam group gid) :
      Owner getpwnam getgrnam (some arg) [.chown uid gid]

/-- The calls that the options ask for. -/
inductive Permissions (getpwnam getgrnam : Arg → NameLookup) (arg : Option Arg) (mode : Arg) :
    List FileCall → Prop
  | mk {owner : List FileCall} {m : UInt32} (howner : Owner getpwnam getgrnam arg owner)
      (hmode : Numeral 8 mode m.toNat) :
      Permissions getpwnam getgrnam arg mode (owner ++ [.chmod m])

/-! ### The numbers -/

/-- Numbers in range, and no others, pass the checks. -/
theorem checkRange_iff {label : Arg} {z : Int} {id : UInt32} :
    checkRange label (clamp z) = .ok id ↔ z = id.toNat := by
  have hlt := id.toNat_lt
  have hrange : (0 ≤ clamp z ∧ clamp z ≤ uintMax) ↔ (0 ≤ z ∧ z ≤ uintMax) :=
    clamp_between (by decide) (by decide) z
  unfold checkRange
  by_cases hin : 0 ≤ z ∧ z ≤ uintMax
  · obtain ⟨hpos, hle⟩ := hrange.mpr hin
    have hz : clamp z = z := by
      apply clamp_eq
      · have : longMin ≤ 0 := by decide
        omega
      · have : uintMax ≤ longMax := by decide
        omega
    rw [if_neg (by omega), if_neg (by omega), hz, Except.ok.injEq]
    have hsmall : z.toNat < 2 ^ 32 := by
      have : uintMax = 2 ^ 32 - 1 := rfl
      omega
    constructor
    · rintro rfl
      rw [UInt32.toNat_ofNat_of_lt' hsmall]
      omega
    · rintro rfl
      rw [Int.toNat_natCast, UInt32.ofNat_toNat]
  · have hnot : z ≠ id.toNat := by
      have : uintMax = 2 ^ 32 - 1 := rfl
      omega
    have hout := mt hrange.mp hin
    by_cases hbig : clamp z > uintMax
    · rw [if_pos hbig]
      simp [hnot]
    · rw [if_neg hbig, if_pos (by omega)]
      simp [hnot]

/-- Of a string that writes a number, the checks let pass what it writes. -/
theorem checkRange_strtol {base : Nat} (hbase : base ≤ 36) {label s : Arg} {z : Int} {id : UInt32}
    (h : Numeral base s z) :
    checkRange label (strtol base s).1 = .ok id ↔ Numeral base s id.toNat := by
  rw [strtol_numeral hbase h]
  constructor
  · intro hok
    rw [← checkRange_iff.mp hok]
    exact h
  · intro hid
    have hclamp : clamp z = clamp id.toNat :=
      congrArg Prod.fst ((strtol_numeral hbase h).symm.trans (strtol_numeral hbase hid))
    show checkRange label (clamp z) = .ok id
    rw [hclamp]
    exact checkRange_iff.mpr rfl

/-- It writes one number only. -/
theorem numeral_unique {base : Nat} (hbase : base ≤ 36) {s : Arg} {id id' : UInt32}
    (h : Numeral base s id.toNat) (h' : Numeral base s id'.toNat) : id = id' := by
  have hid : checkRange [] (strtol base s).1 = .ok id := (checkRange_strtol hbase h).mpr h
  have hid' : checkRange [] (strtol base s).1 = .ok id' := (checkRange_strtol hbase h).mpr h'
  exact Except.ok.inj (hid.symm.trans hid')

/-- **A user or group.** It is a number, or else a name. -/
theorem getIdFromString_iff {kind : IdKind} {lookup : Arg → NameLookup} {s : Arg} {id : UInt32} :
    getIdFromString kind lookup s = .ok id ↔ NamesId lookup s id := by
  unfold getIdFromString NamesId
  by_cases hnum : ∃ z, Numeral 0 s z
  · have hs := (strtol_iff (by decide)).mpr hnum
    obtain ⟨z, hz⟩ := hnum
    simp only [hs, ne_eq, not_false_eq_true, and_self, if_true]
    rw [checkRange_strtol (by decide) hz]
    constructor
    · exact .inl
    · rintro (hid | ⟨hnot, -⟩)
      · exact hid
      · exact absurd ⟨z, hz⟩ hnot
  · have hnot : ¬ (s ≠ [] ∧ (strtol 0 s).2 = []) := mt (strtol_iff (by decide)).mp hnum
    have hno : ¬ Numeral 0 s id.toNat := fun h => hnum ⟨_, h⟩
    simp only [hnot, if_false, hno, false_or, hnum, not_false_eq_true, true_and]
    cases lookup s <;> simp

/-- **The mode.** -/
theorem modeFromString_iff {mode : Arg} {m : UInt32} :
    modeFromString mode = .ok m ↔ Numeral 8 mode m.toNat := by
  unfold modeFromString
  by_cases hnum : ∃ z, Numeral 8 mode z
  · have hs := (strtol_iff (by decide)).mpr hnum
    obtain ⟨z, hz⟩ := hnum
    simp only [hs, ne_eq, not_true_eq_false, or_self, if_false]
    exact checkRange_strtol (by decide) hz
  · have hbad : mode = [] ∨ (strtol 8 mode).2 ≠ [] := by
      by_contra hgood
      push Not at hgood
      exact hnum ((strtol_iff (by decide)).mp hgood)
    have hno : ¬ Numeral 8 mode m.toNat := fun h => hnum ⟨_, h⟩
    simp only [hbad, if_true, hno, iff_false]
    simp

/-! ### The colon -/

/-- After the first colon there is no other one. -/
theorem findColon_some (i j : Nat) (s : Arg) :
    findColon i (some j) s = if colon ∈ s then none else some (some j) := by
  induction s generalizing i with
  | nil => rfl
  | cons b s ih =>
    unfold findColon
    by_cases hb : b = colon
    · rw [if_neg (by simpa using hb), Option.isSome_some, if_pos rfl, if_pos (by simp [hb])]
    · rw [if_pos hb, ih (i + 1)]
      simp [Ne.symm hb]

/-- **The colon.** It is found exactly if it is the only one. -/
theorem findColon_iff {i j : Nat} {s : Arg} : findColon i none s = some (some j) ↔
    ∃ user group, SplitsAt s user group ∧ j = i + user.length := by
  induction s generalizing i with
  | nil =>
    constructor
    · intro h
      exact absurd h (by simp [findColon])
    · rintro ⟨user, group, ⟨hs, -⟩, -⟩
      exact absurd hs (by simp)
  | cons b s ih =>
    unfold findColon
    by_cases hb : b = colon
    · subst hb
      rw [if_neg (by simp), if_neg (by simp), findColon_some]
      constructor
      · intro h
        split_ifs at h with hmem
        cases h
        exact ⟨[], s, ⟨rfl, by simp, hmem⟩, rfl⟩
      · rintro ⟨user, group, ⟨hs, huser, hgroup⟩, rfl⟩
        cases user with
        | nil =>
          obtain ⟨-, rfl⟩ := List.cons.inj hs
          rw [if_neg hgroup]
          rfl
        | cons c user =>
          obtain ⟨rfl, -⟩ := List.cons.inj hs
          exact absurd List.mem_cons_self huser
    · rw [if_pos hb, ih]
      constructor
      · rintro ⟨user, group, ⟨rfl, huser, hgroup⟩, rfl⟩
        refine ⟨b :: user, group, ⟨rfl, ?_, hgroup⟩, ?_⟩
        · simp [huser, Ne.symm hb]
        · rw [List.length_cons]
          omega
      · rintro ⟨user, group, ⟨hs, huser, hgroup⟩, rfl⟩
        cases user with
        | nil => exact absurd (List.cons.inj hs).1 hb
        | cons c user =>
          obtain ⟨rfl, rfl⟩ := List.cons.inj hs
          refine ⟨user, group, ⟨rfl, fun h => huser (List.mem_cons_of_mem _ h), hgroup⟩, ?_⟩
          rw [List.length_cons]
          omega

/-- There is one way to split. -/
theorem SplitsAt.unique {arg u g u' g' : Arg} (h : SplitsAt arg u g) (h' : SplitsAt arg u' g') :
    u = u' ∧ g = g' := by
  have hlen : 0 + u.length = 0 + u'.length :=
    Option.some.inj (Option.some.inj ((findColon_iff.mpr ⟨u, g, h, rfl⟩).symm.trans
      (findColon_iff.mpr ⟨u', g', h', rfl⟩)))
  obtain ⟨hu, hg⟩ := List.append_inj (h.1.symm.trans h'.1) (by omega)
  exact ⟨hu, (List.cons.inj hg).2⟩

/-- **`USER:GROUP`.** Both parts are returned, without the colon. -/
theorem splitUserGroup_iff {mallocs : Bool × Bool} {arg : Arg} {user group : Option Arg} :
    splitUserGroup mallocs (some arg) = .ok (user, group) ↔
      mallocs = (true, true) ∧ ∃ u g, SplitsAt arg u g ∧ user = some u ∧ group = some g := by
  have hparts : ∀ {i u g}, SplitsAt arg u g → i = 0 + u.length →
      arg.take i = u ∧ arg.drop (i + 1) = g := by
    rintro i u g ⟨rfl, -⟩ rfl
    rw [Nat.zero_add]
    exact ⟨List.take_left, by simp⟩
  unfold splitUserGroup
  constructor
  · intro h
    simp only at h
    split at h
    · rename_i i hi
      obtain ⟨u, g, hsplit, hlen⟩ := findColon_iff.mp hi
      obtain ⟨hu, hg⟩ := hparts hsplit hlen
      obtain ⟨m, n⟩ := mallocs
      cases m
      · exact absurd h (by simp)
      · cases n
        · exact absurd h (by simp)
        · obtain ⟨rfl, rfl⟩ := Prod.mk.inj (Except.ok.inj h)
          exact ⟨rfl, u, g, hsplit, congrArg some hu, congrArg some hg⟩
    · exact absurd h (by simp)
  · rintro ⟨rfl, u, g, hsplit, rfl, rfl⟩
    obtain ⟨hu, hg⟩ := hparts hsplit rfl
    have hfound : findColon 0 none arg = some (some (0 + u.length)) :=
      findColon_iff.mpr ⟨u, g, hsplit, rfl⟩
    simp only [hfound, hu, hg]
    rfl

/-! ### The calls -/

/-- Calls, and what is done when all of them succeeded. -/
def Perms.after (calls : List FileCall) (p : Perms) : Perms := calls.foldr .call p

theorem Perms.run_after {answer : FileCall → Bool} {calls : List FileCall} (p : Perms)
    (h : ∀ c ∈ calls, answer c = true) :
    (Perms.after calls p).run answer = (calls ++ (p.run answer).1, (p.run answer).2) := by
  induction calls with
  | nil => rfl
  | cons c calls ih =>
    have hrest := ih fun c' hc' => h c' (List.mem_cons_of_mem c hc')
    show (Perms.call c (Perms.after calls p)).run answer = _
    rw [Perms.run, if_pos (h c List.mem_cons_self), hrest]
    rfl

/-- The first call that fails is the last one. -/
theorem Perms.run_after_failed {answer : FileCall → Bool} {calls : List FileCall} (p : Perms)
    (h : ∃ c ∈ calls, answer c = false) :
    ((Perms.after calls p).run answer).2 = false ∧
      ∀ c ∈ ((Perms.after calls p).run answer).1, c ∈ calls := by
  induction calls with
  | nil =>
    obtain ⟨c, hc, -⟩ := h
    exact absurd hc (by simp)
  | cons c calls ih =>
    show ((Perms.call c (Perms.after calls p)).run answer).2 = false ∧
      ∀ d ∈ ((Perms.call c (Perms.after calls p)).run answer).1, d ∈ c :: calls
    rw [Perms.run]
    by_cases hc : answer c = true
    · rw [if_pos hc]
      have hrest : ∃ d ∈ calls, answer d = false := by
        obtain ⟨d, hd, hfalse⟩ := h
        refine ⟨d, (List.mem_cons.mp hd).resolve_left ?_, hfalse⟩
        rintro rfl
        exact absurd (hc.symm.trans hfalse) (by decide)
      obtain ⟨hdone, hmem⟩ := ih hrest
      refine ⟨hdone, fun d hd => ?_⟩
      rcases List.mem_cons.mp hd with rfl | hd
      · exact List.mem_cons_self
      · exact List.mem_cons_of_mem c (hmem d hd)
    · rw [if_neg hc]
      refine ⟨rfl, fun d hd => ?_⟩
      rw [List.mem_singleton.mp hd]
      exact List.mem_cons_self

theorem setFileMode_ok {mode : Arg} {m : UInt32} (h : Numeral 8 mode m.toNat) :
    setFileMode (some mode) = Perms.after [.chmod m] .ok := by
  unfold setFileMode
  simp only [modeFromString_iff.mpr h]
  rfl

theorem setFileMode_fail {mode : Arg} (h : ¬ ∃ m : UInt32, Numeral 8 mode m.toNat) :
    ∃ text, setFileMode (some mode) = .fail text := by
  cases hm : modeFromString mode with
  | error text => exact ⟨text, by simp only [setFileMode, hm]⟩
  | ok m => exact absurd ⟨m, modeFromString_iff.mp hm⟩ h

section Calls

variable {getpwnam getgrnam : Arg → NameLookup} {arg user group mode : Option Arg}
  {mallocs : Bool × Bool}

/-- The owner that is asked for is set before the mode. -/
theorem setFilePerms_owner {owner : List FileCall} (howner : Owner getpwnam getgrnam arg owner)
    (hsplit : splitUserGroup mallocs arg = .ok (user, group)) :
    setFilePerms getpwnam getgrnam user group mode = Perms.after owner (setFileMode mode) := by
  cases howner with
  | none =>
    obtain ⟨rfl, rfl⟩ := Prod.mk.inj (Except.ok.inj hsplit)
    rfl
  | @some arg u g uid gid hat huser hgroup =>
    obtain ⟨-, u', g', hat', rfl, rfl⟩ := splitUserGroup_iff.mp hsplit
    obtain ⟨rfl, rfl⟩ := hat.unique hat'
    have huid : getUidFromString getpwnam u = .ok uid := getIdFromString_iff.mpr huser
    have hgid : getGidFromString getgrnam g = .ok gid := getIdFromString_iff.mpr hgroup
    simp only [setFilePerms, huid, hgid]
    rfl

/-- Nothing is called if the owner is not understood. -/
theorem setFilePerms_fail (howner : ¬ ∃ owner, Owner getpwnam getgrnam arg owner)
    (hsplit : splitUserGroup mallocs arg = .ok (user, group)) :
    ∃ text, setFilePerms getpwnam getgrnam user group mode = .fail text := by
  cases arg with
  | none => exact absurd ⟨[], .none⟩ howner
  | some arg =>
    obtain ⟨-, u, g, hat, rfl, rfl⟩ := splitUserGroup_iff.mp hsplit
    cases huid : getUidFromString getpwnam u with
    | error text => exact ⟨text, by simp only [setFilePerms, huid]⟩
    | ok uid =>
      cases hgid : getGidFromString getgrnam g with
      | error text => exact ⟨text, by simp only [setFilePerms, huid, hgid]⟩
      | ok gid =>
        exact absurd ⟨_, .some hat (getIdFromString_iff.mp huid) (getIdFromString_iff.mp hgid)⟩
          howner

/-- **Complete.** What the options ask for is done. -/
theorem setFilePerms_complete {answer : FileCall → Bool} {mode : Arg} {calls : List FileCall}
    (h : Permissions getpwnam getgrnam arg mode calls)
    (hsplit : splitUserGroup mallocs arg = .ok (user, group))
    (hanswer : ∀ c ∈ calls, answer c = true) :
    (setFilePerms getpwnam getgrnam user group (some mode)).run answer = (calls, true) := by
  cases h with
  | mk howner hm =>
    rw [setFilePerms_owner howner hsplit, setFileMode_ok hm,
      Perms.run_after _ fun c hc => hanswer c (List.mem_append_left _ hc),
      Perms.run_after _ fun c hc => hanswer c (List.mem_append_right _ hc)]
    simp [Perms.run]

/-- **Sound.** Nothing else is done. -/
theorem setFilePerms_sound {answer : FileCall → Bool} {mode : Arg} {calls : List FileCall}
    (hsplit : splitUserGroup mallocs arg = .ok (user, group))
    (h : (setFilePerms getpwnam getgrnam user group (some mode)).run answer = (calls, true)) :
    Permissions getpwnam getgrnam arg mode calls ∧ ∀ c ∈ calls, answer c = true := by
  by_cases howner : ∃ owner, Owner getpwnam getgrnam arg owner
  · obtain ⟨owner, howner⟩ := howner
    rw [setFilePerms_owner howner hsplit] at h
    by_cases hanswer : ∀ c ∈ owner, answer c = true
    · rw [Perms.run_after _ hanswer] at h
      obtain ⟨rfl, hdone⟩ := Prod.mk.inj h
      by_cases hmode : ∃ m : UInt32, Numeral 8 mode m.toNat
      · obtain ⟨m, hm⟩ := hmode
        rw [setFileMode_ok hm] at hdone ⊢
        by_cases hchmod : ∀ c ∈ [FileCall.chmod m], answer c = true
        · rw [Perms.run_after _ hchmod]
          refine ⟨.mk howner hm, fun c hc => ?_⟩
          rcases List.mem_append.mp hc with hc | hc
          · exact hanswer c hc
          · exact hchmod c (by simpa [Perms.run] using hc)
        · have hno : ∃ c ∈ [FileCall.chmod m], answer c = false := by simpa using hchmod
          exact absurd (hdone.symm.trans (Perms.run_after_failed .ok hno).1) (by decide)
      · obtain ⟨text, hfail⟩ := setFileMode_fail hmode
        rw [hfail] at hdone
        exact absurd hdone (by simp [Perms.run])
    · have hno : ∃ c ∈ owner, answer c = false := by simpa using hanswer
      have hfailed := (Perms.run_after_failed (setFileMode (some mode)) hno).1
      rw [h] at hfailed
      exact absurd hfailed (by simp)
  · obtain ⟨text, hfail⟩ := setFilePerms_fail howner hsplit
    rw [hfail] at h
    exact absurd (congrArg Prod.snd h) (by simp [Perms.run])

/-- **Order.** The mode is set after the owner. -/
theorem setFilePerms_order {answer : FileCall → Bool} {m : UInt32}
    (hsplit : splitUserGroup mallocs arg = .ok (user, group))
    (h : .chmod m ∈ ((setFilePerms getpwnam getgrnam user group mode).run answer).1) :
    ∃ owner, Owner getpwnam getgrnam arg owner ∧ ∀ c ∈ owner, answer c = true := by
  by_cases howner : ∃ owner, Owner getpwnam getgrnam arg owner
  · obtain ⟨owner, howner⟩ := howner
    refine ⟨owner, howner, ?_⟩
    by_contra hanswer
    have hno : ∃ c ∈ owner, answer c = false := by simpa using hanswer
    rw [setFilePerms_owner howner hsplit] at h
    have hcalled := (Perms.run_after_failed (setFileMode mode) hno).2 _ h
    cases howner with
    | none => exact absurd hcalled (by simp)
    | some => exact absurd hcalled (by simp)
  · obtain ⟨text, hfail⟩ := setFilePerms_fail howner hsplit
    rw [hfail] at h
    exact absurd h (by simp [Perms.run])

end Calls

/-- **Owner and mode.** `set_file_perms` makes the calls that the options ask for, and returns 0,
    exactly if both options can be understood and each call succeeds; and it never sets the mode
    of a file whose owner it was asked to set and did not. -/
theorem set_file_perms_iff (getpwnam getgrnam : Arg → NameLookup) (arg : Option Arg) (mode : Arg)
    (answer : FileCall → Bool) {user group : Option Arg}
    (hsplit : splitUserGroup (true, true) arg = .ok (user, group)) :
    (∀ calls, (setFilePerms getpwnam getgrnam user group (some mode)).run answer = (calls, true) ↔
      Permissions getpwnam getgrnam arg mode calls ∧ ∀ c ∈ calls, answer c = true) ∧
    ∀ m, .chmod m ∈ ((setFilePerms getpwnam getgrnam user group (some mode)).run answer).1 →
      ∃ owner, Owner getpwnam getgrnam arg owner ∧ ∀ c ∈ owner, answer c = true := by
  refine ⟨fun calls => ⟨setFilePerms_sound hsplit, ?_⟩, fun m => setFilePerms_order hsplit⟩
  rintro ⟨h, hanswer⟩
  exact setFilePerms_complete h hsplit hanswer

/-- `--chown-socket 0:wheel --chmod-socket 660`, where `wheel` is group 10. -/
theorem set_file_perms_wheel :
    let getgrnam := fun name => if name = bytes "wheel" then NameLookup.found 10 else .notFound
    splitUserGroup (true, true) (some (bytes "0:wheel")) =
        .ok (some (bytes "0"), some (bytes "wheel")) ∧
      (setFilePerms (fun _ => .notFound) getgrnam (some (bytes "0")) (some (bytes "wheel"))
        (some (bytes "660"))).run (fun _ => true) = ([.chown 0 10, .chmod 432], true) ∧
      Permissions (fun _ => .notFound) getgrnam (some (bytes "0:wheel")) (bytes "660")
        [.chown 0 10, .chmod 432] := by
  intro getgrnam
  have hsplit : splitUserGroup (true, true) (some (bytes "0:wheel")) =
      .ok (some (bytes "0"), some (bytes "wheel")) := by decide +kernel
  have hrun : (setFilePerms (fun _ => .notFound) getgrnam (some (bytes "0"))
      (some (bytes "wheel")) (some (bytes "660"))).run (fun _ => true) =
        ([.chown 0 10, .chmod 432], true) := by decide +kernel
  exact ⟨hsplit, hrun, (((set_file_perms_iff _ getgrnam _ _ (fun _ => true) hsplit).1 _).mp hrun).1⟩

/-! ### Numbers -/

theorem colon_not_mem_render (n : Nat) : colon ∉ render 10 n := by
  intro h
  have hdigit := (render_spec (by decide) (by decide : 10 ≤ 16) n).2.1 colon h
  exact absurd hdigit (by decide)

/-- **Round trip.** Every user and group can be given by its number in decimal, and every mode in
    octal, whatever names there are. -/
theorem set_file_perms_numbers (getpwnam getgrnam : Arg → NameLookup) (uid gid m : UInt32)
    (answer : FileCall → Bool) :
    ∃ user group,
      splitUserGroup (true, true)
          (some (render 10 uid.toNat ++ colon :: render 10 gid.toNat)) = .ok (user, group) ∧
        ((setFilePerms getpwnam getgrnam user group (some (render 8 m.toNat))).run answer =
            ([.chown uid gid, .chmod m], true) ↔
          answer (.chown uid gid) = true ∧ answer (.chmod m) = true) := by
  have hat : SplitsAt (render 10 uid.toNat ++ colon :: render 10 gid.toNat) (render 10 uid.toNat)
      (render 10 gid.toNat) := ⟨rfl, colon_not_mem_render _, colon_not_mem_render _⟩
  have hsplit := splitUserGroup_iff.mpr ⟨rfl, _, _, hat, rfl, rfl⟩
  have hperms : Permissions getpwnam getgrnam
      (some (render 10 uid.toNat ++ colon :: render 10 gid.toNat)) (render 8 m.toNat)
      ([.chown uid gid] ++ [.chmod m]) :=
    .mk (.some hat (.inl (numeral_decimal _)) (.inl (numeral_decimal _)))
      (numeral_render (by decide) (by decide) _)
  refine ⟨_, _, hsplit, ?_⟩
  constructor
  · intro h
    have hanswer := (setFilePerms_sound hsplit h).2
    exact ⟨hanswer _ (by simp), hanswer _ (by simp)⟩
  · rintro ⟨hchown, hchmod⟩
    refine setFilePerms_complete hperms hsplit fun c hc => ?_
    have hc : c = .chown uid gid ∨ c = .chmod m := by simpa using hc
    rcases hc with rfl | rfl
    · exact hchown
    · exact hchmod

end Sdiol
