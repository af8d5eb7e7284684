import Sdiol.TableOrder

namespace Sdiol

/-!
# Tables that contain tables

In a script a table is an object that can be referred to from several places, from within
itself among them.  `LuaHeap` is the memory these objects live in, and `copyRef` and
`extractRef` are `copy_to_key_action` and `extract_table_to_key_map` over it.  The recursion
has no bound of its own; the number of nested calls that are allowed is an argument here, and
`none` says that they were not enough.

* `copyRef_unfolds` — on a value without cycles this is the copy of the tree that the value
  unfolds to;
* `copy_terminates_iff` — the copy of a value ends, with an action or an error, exactly if no
  infinite path of tables starts in it, where a path enters a table only behind entries that
  are accepted.
-/

/-- The address of a table. -/
abbrev TableRef := Nat

/-- A Lua value, as far as `config.c` looks at it, with tables by address. -/
inductive LuaRef where
  | nil
  | integer (n : Int64)
  | table (t : TableRef)
  | userdata (ka : KeyAction)
  /-- a boolean, a float, a string, a function, a thread -/
  | other

/-- The entries of all tables, in the order in which `lua_next` visits them. -/
abbrev LuaHeap := TableRef → List (TableKey × LuaRef)

/-- `extract_table_to_key_map`, with the call of `copy_to_key_action` as an argument. -/
def extractRef (copy : LuaRef → Option (Except ConfigError KeyAction)) :
    List (TableKey × LuaRef) → (KeyCode → KeyAction) →
      Option (Except ConfigError (KeyCode → KeyAction))
  | [], map => some (.ok map)
  | (.text name, value) :: entries, map =>
    let key := getInputValue (untilNul name)
    if key = 0 then some (.error .noKeyWithName)
    else
      match copy value with
      | none => none
      | some (.error err) => some (.error err)
      | some (.ok ka) =>
        let i : KeyCode := ⟨key.toNat, tableKey_inRange name⟩
        extractRef copy entries (Function.update map i ka)
  | (.other, _) :: _, _ => some (.error .invalidKeyType)

/-- `copy_to_key_action`, with at most `fuel` nested calls for tables. -/
def copyRef (heap : LuaHeap) : Nat → LuaRef → Option (Except ConfigError KeyAction)
  -- nil objects are actually valid
  | _, .nil => some (.ok .ktNone)
  | _, .integer n => some (checkedCode n.toInt >>= fun c => .ok (.ktSimple c))
  | 0, .table _ => none
  | fuel + 1, .table t =>
    (extractRef (copyRef heap fuel) (heap t) fun _ => .ktNone).map (Except.map .ktMap)
  | _, .userdata ka => some (.ok (keyActionDup ka))
  | _, .other => some (.error .unallowedType)

/-- The copy of a value ends. -/
def CopyTerminates (heap : LuaHeap) (v : LuaRef) : Prop := ∃ fuel r, copyRef heap fuel v = some r

/-- The values that are accepted: finitely nested, with codes in range and names that
    exist. -/
inductive AcceptedRef (heap : LuaHeap) : LuaRef → Prop
  | nil : AcceptedRef heap .nil
  | integer {n : Int64} (h : 0 ≤ n.toInt ∧ n.toInt < keyMax) : AcceptedRef heap (.integer n)
  | userdata (ka : KeyAction) : AcceptedRef heap (.userdata ka)
  | table {t : TableRef} (hnamed : ∀ e ∈ heap t, ∃ c, tableKeyCode e.1 = some c)
      (hvalues : ∀ e ∈ heap t, AcceptedRef heap e.2) : AcceptedRef heap (.table t)

/-- `t'` is entered from `t`: it is the value of an entry of `t` whose key names an input, and
    all entries that are visited before are accepted. -/
def EnteredFrom (heap : LuaHeap) (t' t : TableRef) : Prop :=
  ∃ before key after, heap t = before ++ (key, .table t') :: after ∧
    (∃ c, tableKeyCode key = some c) ∧
    ∀ e ∈ before, (∃ c, tableKeyCode e.1 = some c) ∧ AcceptedRef heap e.2

/-- The tree that a value without cycles unfolds to. -/
inductive Unfolds (heap : LuaHeap) : LuaRef → LuaValue → Prop
  | nil : Unfolds heap .nil .nil
  | integer (n : Int64) : Unfolds heap (.integer n) (.integer n)
  | userdata (ka : KeyAction) : Unfolds heap (.userdata ka) (.userdata ka)
  | other : Unfolds heap .other .other
  | table {t : TableRef} {entries : List (TableKey × LuaValue)}
      (hkeys : (heap t).map Prod.fst = entries.map Prod.fst)
      (hvalues : ∀ p ∈ (heap t).zip entries, Unfolds heap p.1.2 p.2.2) :
      Unfolds heap (.table t) (.table entries)

/-! ### Fuel -/

/-- **One entry.** The table is refused, or the value of the entry is copied and the rest of
    the table decides. -/
theorem extractRef_cons (copy : LuaRef → Option (Except ConfigError KeyAction))
    (e : TableKey × LuaRef) (entries : List (TableKey × LuaRef)) (map : KeyCode → KeyAction) :
    (tableKeyCode e.1 = none ∧ ∃ err, extractRef copy (e :: entries) map = some (.error err)) ∨
    ∃ c, tableKeyCode e.1 = some c ∧ extractRef copy (e :: entries) map =
      (copy e.2).bind fun r =>
        match r with
        | .error err => some (.error err)
        | .ok ka => extractRef copy entries (Function.update map c ka) := by
  obtain ⟨key, value⟩ := e
  cases key with
  | other => exact .inl ⟨rfl, _, rfl⟩
  | text name =>
    simp only [extractRef, tableKeyCode]
    by_cases hzero : getInputValue (untilNul name) = 0
    · rw [if_pos hzero, if_pos hzero]
      exact .inl ⟨rfl, _, rfl⟩
    · rw [if_neg hzero, if_neg hzero]
      refine .inr ⟨_, rfl, ?_⟩
      cases copy value with
      | none => rfl
      | some r => cases r <;> rfl

/-- Calls that end where others do make no difference to a table. -/
theorem extractRef_mono {copy copy' : LuaRef → Option (Except ConfigError KeyAction)}
    (hcopy : ∀ v r, copy v = some r → copy' v = some r) {entries : List (TableKey × LuaRef)}
    {map : KeyCode → KeyAction} {r : Except ConfigError (KeyCode → KeyAction)}
    (h : extractRef copy entries map = some r) : extractRef copy' entries map = some r := by
  induction entries generalizing map with
  | nil => exact h
  | cons e entries ih =>
    obtain ⟨key, value⟩ := e
    cases key with
    | other => exact h
    | text name =>
      simp only [extractRef] at h ⊢
      split at h
      · -- a key that is no name ends both loops
        rename_i hzero
        rw [if_pos hzero]
        exact h
      · rename_i hzero
        rw [if_neg hzero]
        cases hvalue : copy value with
        | none =>
          rw [hvalue] at h
          exact absurd h (by simp)
        | some x =>
          rw [hvalue] at h
          rw [hcopy _ _ hvalue]
          cases x with
          | error err => exact h
          | ok ka => exact ih h

theorem copyRef_succ {heap : LuaHeap} {fuel : Nat} {v : LuaRef}
    {r : Except ConfigError KeyAction} (h : copyRef heap fuel v = some r) :
    copyRef heap (fuel + 1) v = some r := by
  induction fuel generalizing v r with
  | zero =>
    cases v with
    | table t => exact absurd h (by simp [copyRef])
    | _ => exact h
  | succ fuel ih =>
    cases v with
    | table t =>
      rw [copyRef] at h ⊢
      obtain ⟨x, hx, hr⟩ := Option.map_eq_some_iff.mp h
      exact Option.map_eq_some_iff.mpr ⟨x, extractRef_mono (fun _ _ => ih) hx, hr⟩
    | _ => exact h

/-- **Fuel.** More calls than needed change nothing. -/
theorem copyRef_mono {heap : LuaHeap} {fuel fuel' : Nat} (hle : fuel ≤ fuel') {v : LuaRef}
    {r : Except ConfigError KeyAction} (h : copyRef heap fuel v = some r) :
    copyRef heap fuel' v = some r := by
  induction hle with
  | refl => exact h
  | step _ ih => exact copyRef_succ ih

theorem copyRef_unique {heap : LuaHeap} {fuel fuel' : Nat} {v : LuaRef}
    {r r' : Except ConfigError KeyAction} (h : copyRef heap fuel v = some r)
    (h' : copyRef heap fuel' v = some r') : r = r' := by
  have hmax := copyRef_mono (Nat.le_max_left fuel fuel') h
  have hmax' := copyRef_mono (Nat.le_max_right fuel fuel') h'
  exact Option.some.inj (hmax.symm.trans hmax')

/-! ### Values that are accepted -/

section Heap

variable {heap : LuaHeap}

theorem checkedCode_inRange {n : Int} {c : KeyCode} (h : checkedCode n = .ok c) :
    0 ≤ n ∧ n < keyMax := by
  unfold checkedCode at h
  split at h
  · assumption
  · exact absurd h (by simp)

/-- What is copied to an action is accepted. -/
theorem accepted_of_copyRef {fuel : Nat} {v : LuaRef} {ka : KeyAction}
    (h : copyRef heap fuel v = some (.ok ka)) : AcceptedRef heap v := by
  induction fuel generalizing v ka with
  | zero =>
    cases v with
    | nil => exact .nil
    | integer n =>
      obtain ⟨c, hc, _⟩ := Steps.bind_eq_ok.mp (Option.some.inj h)
      exact .integer (checkedCode_inRange hc)
    | table t => exact absurd h (by simp [copyRef])
    | userdata ka => exact .userdata ka
    | other => exact absurd h (by simp [copyRef])
  | succ fuel ih =>
    cases v with
    | nil => exact .nil
    | integer n =>
      obtain ⟨c, hc, _⟩ := Steps.bind_eq_ok.mp (Option.some.inj h)
      exact .integer (checkedCode_inRange hc)
    | table t =>
      rw [copyRef] at h
      obtain ⟨x, hx, hmap⟩ := Option.map_eq_some_iff.mp h
      obtain ⟨map, rfl, _⟩ := Steps.map_eq_ok hmap
      -- every entry of the table was copied
      have hentries : ∀ (entries : List (TableKey × LuaRef)) (map map' : KeyCode → KeyAction),
          extractRef (copyRef heap fuel) entries map = some (.ok map') →
          ∀ e ∈ entries, (∃ c, tableKeyCode e.1 = some c) ∧ AcceptedRef heap e.2 := by
        intro entries
        induction entries with
        | nil => exact fun _ _ _ e he => absurd he List.not_mem_nil
        | cons e entries ihEntries =>
          intro map map' hrest
          rcases extractRef_cons (copyRef heap fuel) e entries map with
            ⟨_, err, herr⟩ | ⟨c, hc, hstep⟩
          · rw [herr] at hrest
            exact absurd hrest (by simp)
          · rw [hstep] at hrest
            obtain ⟨r, hr, hrest⟩ := Option.bind_eq_some_iff.mp hrest
            cases r with
            | error err => exact absurd hrest (by simp)
            | ok ka => exact List.forall_mem_cons.mpr ⟨⟨⟨c, hc⟩, ih hr⟩, ihEntries _ _ hrest⟩
      exact .table (fun e he => (hentries _ _ _ hx e he).1) fun e he => (hentries _ _ _ hx e he).2
    | userdata ka => exact .userdata ka
    | other => exact absurd h (by simp [copyRef])

/-- **One table.** The loop over its entries ends if the copy of each value ends that it
    comes to, behind entries that are accepted. -/
theorem extractRef_terminates {entries : List (TableKey × LuaRef)}
    (h : ∀ before e after, entries = before ++ e :: after → (∃ c, tableKeyCode e.1 = some c) →
      (∀ e' ∈ before, (∃ c, tableKeyCode e'.1 = some c) ∧ AcceptedRef heap e'.2) →
      CopyTerminates heap e.2) (map : KeyCode → KeyAction) :
    ∃ fuel r, extractRef (copyRef heap fuel) entries map = some r := by
  induction entries generalizing map with
  | nil => exact ⟨0, _, rfl⟩
  | cons e entries ih =>
    rcases extractRef_cons (copyRef heap 0) e entries map with ⟨_, err, herr⟩ | ⟨c, hc, _⟩
    · exact ⟨0, _, herr⟩
    obtain ⟨fuel, x, hx⟩ := h [] e entries rfl ⟨c, hc⟩ (by simp)
    -- what the loop does once the value of `e` is copied
    have hstep : ∀ fuel', fuel ≤ fuel' → extractRef (copyRef heap fuel') (e :: entries) map =
        (some x).bind fun r =>
          match r with
          | .error err => some (.error err)
          | .ok ka => extractRef (copyRef heap fuel') entries (Function.update map c ka) := by
      intro fuel' hle
      rcases extractRef_cons (copyRef heap fuel') e entries map with ⟨hnone, _⟩ | ⟨c', hc', hcons⟩
      · rw [hnone] at hc
        exact absurd hc (by simp)
      · obtain rfl := Option.some.inj (hc'.symm.trans hc)
        rw [hcons, copyRef_mono hle hx]
    cases x with
    | error err => exact ⟨fuel, _, hstep fuel le_rfl⟩
    | ok ka =>
      have haccepted : (∃ c, tableKeyCode e.1 = some c) ∧ AcceptedRef heap e.2 :=
        ⟨⟨c, hc⟩, accepted_of_copyRef hx⟩
      obtain ⟨fuel', r, hr⟩ := ih (fun before e' after hsplit hnamed hbefore =>
        h (e :: before) e' after (by rw [hsplit]; rfl) hnamed
          (List.forall_mem_cons.mpr ⟨haccepted, hbefore⟩)) (Function.update map c ka)
      refine ⟨max fuel fuel', r, (hstep _ (Nat.le_max_left ..)).trans ?_⟩
      exact extractRef_mono (fun _ _ => copyRef_mono (Nat.le_max_right fuel fuel')) hr

/-- A value that is no table is copied at once. -/
theorem copyTerminates_of_flat {v : LuaRef} (h : ∀ t, v ≠ .table t) : CopyTerminates heap v := by
  refine ⟨0, ?_⟩
  cases v with
  | table t => exact absurd rfl (h t)
  | _ => exact ⟨_, rfl⟩

/-- **Tables.** The copy of a table ends if the copies of the tables end that are entered from
    it. -/
theorem copyTerminates_table {t : TableRef}
    (h : ∀ t', EnteredFrom heap t' t → CopyTerminates heap (.table t')) :
    CopyTerminates heap (.table t) := by
  have hvalues : ∀ before e after, heap t = before ++ e :: after →
      (∃ c, tableKeyCode e.1 = some c) →
      (∀ e' ∈ before, (∃ c, tableKeyCode e'.1 = some c) ∧ AcceptedRef heap e'.2) →
      CopyTerminates heap e.2 := by
    rintro before ⟨key, value⟩ after hsplit hnamed hbefore
    by_cases htable : ∃ t', value = .table t'
    · obtain ⟨t', rfl⟩ := htable
      exact h t' ⟨before, key, after, hsplit, hnamed, hbefore⟩
    · exact copyTerminates_of_flat fun t' ht' => htable ⟨t', ht'⟩
  obtain ⟨fuel, r, hr⟩ := extractRef_terminates hvalues fun _ => .ktNone
  exact ⟨fuel + 1, _, by rw [copyRef, hr]; rfl⟩

/-- A loop that ends came to every entry behind accepted ones, and copied its value. -/
theorem copyRef_of_extractRef {fuel : Nat} {before after : List (TableKey × LuaRef)}
    {e : TableKey × LuaRef} {map : KeyCode → KeyAction}
    {r : Except ConfigError (KeyCode → KeyAction)} (hnamed : ∃ c, tableKeyCode e.1 = some c)
    (hbefore : ∀ e' ∈ before, (∃ c, tableKeyCode e'.1 = some c) ∧
      ∀ x, copyRef heap fuel e'.2 = some x → ∃ ka, x = .ok ka)
    (h : extractRef (copyRef heap fuel) (before ++ e :: after) map = some r) :
    ∃ x, copyRef heap fuel e.2 = some x := by
  induction before generalizing map with
  | nil =>
    -- the entry is the first one
    obtain ⟨c, hc⟩ := hnamed
    rcases extractRef_cons (copyRef heap fuel) e after map with ⟨hnone, _⟩ | ⟨_, _, hcons⟩
    · rw [hnone] at hc
      exact absurd hc (by simp)
    · rw [List.nil_append, hcons] at h
      obtain ⟨x, hx, _⟩ := Option.bind_eq_some_iff.mp h
      exact ⟨x, hx⟩
  | cons e' before ih =>
    obtain ⟨⟨⟨c, hc⟩, hok⟩, hbefore⟩ := List.forall_mem_cons.mp hbefore
    rcases extractRef_cons (copyRef heap fuel) e' (before ++ e :: after) map with
      ⟨hnone, _⟩ | ⟨_, _, hcons⟩
    · rw [hnone] at hc
      exact absurd hc (by simp)
    · rw [List.cons_append, hcons] at h
      obtain ⟨x, hx, h⟩ := Option.bind_eq_some_iff.mp h
      obtain ⟨ka, rfl⟩ := hok x hx
      exact ih hbefore h

/-- A loop over accepted entries does not end with an error. -/
theorem extractRef_ok {copy : LuaRef → Option (Except ConfigError KeyAction)}
    {entries : List (TableKey × LuaRef)} {map : KeyCode → KeyAction}
    {x : Except ConfigError (KeyCode → KeyAction)}
    (hnamed : ∀ e ∈ entries, ∃ c, tableKeyCode e.1 = some c)
    (hvalues : ∀ e ∈ entries, ∀ r, copy e.2 = some r → ∃ ka, r = .ok ka)
    (h : extractRef copy entries map = some x) : ∃ map', x = .ok map' := by
  induction entries generalizing map with
  | nil => exact ⟨map, (Option.some.inj h).symm⟩
  | cons e entries ih =>
    obtain ⟨⟨c, hc⟩, hnamed⟩ := List.forall_mem_cons.mp hnamed
    obtain ⟨hvalue, hvalues⟩ := List.forall_mem_cons.mp hvalues
    rcases extractRef_cons copy e entries map with ⟨hnone, _⟩ | ⟨_, _, hcons⟩
    · rw [hnone] at hc
      exact absurd hc (by simp)
    · rw [hcons] at h
      obtain ⟨y, hy, h⟩ := Option.bind_eq_some_iff.mp h
      obtain ⟨ka, rfl⟩ := hvalue y hy
      exact ih hnamed hvalues h

/-- The copy of an accepted value ends, with an action. -/
theorem copyRef_of_accepted {v : LuaRef} (h : AcceptedRef heap v) :
    CopyTerminates heap v ∧ ∀ fuel r, copyRef heap fuel v = some r → ∃ ka, r = .ok ka := by
  induction h with
  | nil =>
    refine ⟨copyTerminates_of_flat (by simp), fun fuel r hr => ?_⟩
    cases fuel <;> exact ⟨_, (Option.some.inj hr).symm⟩
  | @integer n hrange =>
    refine ⟨copyTerminates_of_flat (by simp), fun fuel r hr => ?_⟩
    have hcode : checkedCode n.toInt = .ok ⟨n.toInt.toNat, by omega⟩ := dif_pos hrange
    cases fuel <;> (rw [copyRef, hcode] at hr; exact ⟨_, (Option.some.inj hr).symm⟩)
  | userdata ka =>
    refine ⟨copyTerminates_of_flat (by simp), fun fuel r hr => ?_⟩
    cases fuel <;> exact ⟨_, (Option.some.inj hr).symm⟩
  -- a table is copied in one call more than the tables in it
  | @table t hnamed hvalues ih =>
    constructor
    · apply copyTerminates_table
      rintro t' ⟨before, key, after, hsplit, _⟩
      exact (ih (key, .table t') (by simp [hsplit])).1
    · intro fuel r hr
      cases fuel with
      | zero => exact absurd hr (by simp [copyRef])
      | succ fuel =>
        rw [copyRef] at hr
        obtain ⟨x, hx, rfl⟩ := Option.map_eq_some_iff.mp hr
        obtain ⟨map', rfl⟩ := extractRef_ok hnamed (fun e he => (ih e he).2 fuel) hx
        exact ⟨_, rfl⟩

/-- **Termination.** The copy of a value ends, with an action or an error, exactly if no
    infinite path of tables starts in it, where a table is entered from another one only
    behind entries that are accepted. -/
theorem copy_terminates_iff (heap : LuaHeap) (v : LuaRef) :
    CopyTerminates heap v ↔ ∀ t, v = .table t → Acc (EnteredFrom heap) t := by
  constructor
  · rintro ⟨fuel, r, hr⟩ t rfl
    induction fuel generalizing t r with
    | zero => exact absurd hr (by simp [copyRef])
    | succ fuel ih =>
      apply Acc.intro
      rintro t' ⟨before, key, after, hsplit, hnamed, hbefore⟩
      rw [copyRef] at hr
      obtain ⟨x, hx, _⟩ := Option.map_eq_some_iff.mp hr
      rw [hsplit] at hx
      obtain ⟨y, hy⟩ := copyRef_of_extractRef hnamed
        (fun e he => ⟨(hbefore e he).1, (copyRef_of_accepted (hbefore e he).2).2 fuel⟩) hx
      exact ih y t' hy
  · intro h
    by_cases htable : ∃ t, v = .table t
    · obtain ⟨t, rfl⟩ := htable
      have hacc := h t rfl
      clear h
      induction hacc with
      | intro t _ ih => exact copyTerminates_table ih
    · exact copyTerminates_of_flat fun t ht => htable ⟨t, ht⟩

/-- The layer `L`, created by `L = {}; L.KEY_A = L`. -/
def selfLayer : LuaHeap := fun _ => [(keyNamed "KEY_A", .table 0)]

/-- No number of nested calls is enough for it. -/
theorem selfLayer_not_copied : ¬ CopyTerminates selfLayer (.table 0) := by
  have hnone : ∀ fuel, copyRef selfLayer fuel (.table 0) = none := by
    intro fuel
    induction fuel with
    | zero => rfl
    | succ fuel ih =>
      rw [copyRef]
      rcases extractRef_cons (copyRef selfLayer fuel) (keyNamed "KEY_A", .table 0) []
        (fun _ => .ktNone) with ⟨hnone, _⟩ | ⟨_, _, hcons⟩
      · rw [tableKeyCode_a] at hnone
        exact absurd hnone (by simp)
      · rw [show selfLayer 0 = [(keyNamed "KEY_A", .table 0)] from rfl, hcons, ih]
        rfl
  rintro ⟨fuel, r, hr⟩
  rw [hnone] at hr
  exact absurd hr (by simp)

/-! ### Values without cycles -/

/-- One table and the entries of its tree. -/
theorem extractRef_unfolds {fuel : Nat} {refs : List (TableKey × LuaRef)}
    {entries : List (TableKey × LuaValue)} (hkeys : refs.map Prod.fst = entries.map Prod.fst)
    (hvalues : ∀ p ∈ refs.zip entries, ∀ r, copyRef heap fuel p.1.2 = some r →
      r = copyToKeyAction p.2.2) {map : KeyCode → KeyAction}
    {x : Except ConfigError (KeyCode → KeyAction)}
    (h : extractRef (copyRef heap fuel) refs map = some x) :
    x = extractTableToKeyMap entries map := by
  induction refs generalizing entries map with
  | nil =>
    cases entries with
    | nil =>
      rw [extractTableToKeyMap]
      exact (Option.some.inj h).symm
    | cons e entries => exact absurd hkeys (by simp)
  | cons e refs ih =>
    cases entries with
    | nil => exact absurd hkeys (by simp)
    | cons e' entries =>
      obtain ⟨key, value⟩ := e
      obtain ⟨key', value'⟩ := e'
      rw [List.map_cons, List.map_cons, List.cons.injEq] at hkeys
      obtain ⟨rfl, hkeys⟩ := hkeys
      rw [List.zip_cons_cons, List.forall_mem_cons] at hvalues
      obtain ⟨hvalue, hvalues⟩ := hvalues
      cases key with
      | other =>
        rw [extractTableToKeyMap]
        exact (Option.some.inj h).symm
      | text name =>
        rw [extractTableToKeyMap]
        simp only [extractRef] at h ⊢
        by_cases hzero : getInputValue (untilNul name) = 0
        · rw [if_pos hzero] at h ⊢
          exact (Option.some.inj h).symm
        · rw [if_neg hzero] at h ⊢
          cases hcopy : copyRef heap fuel value with
          | none =>
            rw [hcopy] at h
            exact absurd h (by simp)
          | some r =>
            rw [hcopy] at h
            rw [← hvalue r hcopy]
            cases r with
            | error err => exact (Option.some.inj h).symm
            | ok ka => exact ih hkeys hvalues h

/-- **Trees.** A value without cycles is copied like the tree it unfolds to. -/
theorem copyRef_unfolds {v : LuaRef} {tree : LuaValue} (h : Unfolds heap v tree) :
    ∃ fuel, copyRef heap fuel v = some (copyToKeyAction tree) := by
  have hboth : CopyTerminates heap v ∧
      ∀ fuel r, copyRef heap fuel v = some r → r = copyToKeyAction tree := by
    induction h with
    | nil =>
      refine ⟨copyTerminates_of_flat (by simp), fun fuel r hr => ?_⟩
      rw [copyToKeyAction]
      cases fuel <;> exact (Option.some.inj hr).symm
    | integer n =>
      refine ⟨copyTerminates_of_flat (by simp), fun fuel r hr => ?_⟩
      rw [copyToKeyAction]
      cases fuel <;> exact (Option.some.inj hr).symm
    | userdata ka =>
      refine ⟨copyTerminates_of_flat (by simp), fun fuel r hr => ?_⟩
      rw [copyToKeyAction]
      cases fuel <;> exact (Option.some.inj hr).symm
    | other =>
      refine ⟨copyTerminates_of_flat (by simp), fun fuel r hr => ?_⟩
      rw [copyToKeyAction]
      cases fuel <;> exact (Option.some.inj hr).symm
    | @table t entries hkeys _ ih =>
      constructor
      · -- an entry that is a table is one in the tree, too
        apply copyTerminates_table
        rintro t' ⟨before, key, after, hsplit, _⟩
        obtain ⟨e', _, hzip, _⟩ := (zip_of_keys hkeys).2 (key, .table t') (by simp [hsplit])
        exact (ih _ hzip).1
      · intro fuel r hr
        cases fuel with
        | zero => exact absurd hr (by simp [copyRef])
        | succ fuel =>
          rw [copyRef] at hr
          obtain ⟨x, hx, rfl⟩ := Option.map_eq_some_iff.mp hr
          rw [copyToKeyAction, ← extractRef_unfolds hkeys (fun p hp => (ih p hp).2 fuel) hx]
          cases x <;> rfl
  obtain ⟨⟨fuel, r, hr⟩, hagree⟩ := hboth
  exact ⟨fuel, by rw [hr, hagree fuel r hr]⟩

end Heap

end Sdiol
