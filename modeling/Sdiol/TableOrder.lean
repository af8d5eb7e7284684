import Sdiol.Lib.LastWrite
import Sdiol.Lua

namespace Sdiol

open LastWrite

/-!
# The order of a keymap's entries

`lua_next` visits the entries of a table in an order that the script does not see.
`extract_table_to_key_map` writes each entry to the slot of its input code, and two names can
stand for one code: an alias and the name it is an alias of, or two strings that agree up to a
byte 0.  Then the entry that is visited last counts.

* `Denotes v ka` — what a value of a script means, without any order: every entry of a table
  is bound to what its value means;
* `copyToKeyAction_of_denotes` — a value that means something is copied to what it means;
* `Conflict v` — two entries of one table, at any depth, give one code two meanings;
* `order_independent_iff` — an accepted value is copied to the same action in every order of
  its tables exactly if there is no conflict in it.
-/

/-! ### Meanings -/

/-- The input code of a key of a keymap table; `none` for one that is not accepted. -/
def tableKeyCode : TableKey → Option KeyCode
  | .text name =>
    if getInputValue (untilNul name) = 0 then none
    else some ⟨(getInputValue (untilNul name)).toNat, tableKey_inRange name⟩
  | .other => none

/-- The meaning of a value: a table means the map that binds each of its codes to what every
    entry for that code means, and leaves the other codes unmapped. -/
inductive Denotes : LuaValue → KeyAction → Prop
  | nil : Denotes .nil .ktNone
  | integer {n : Int64} {c : KeyCode} (h : n.toInt = c.val) : Denotes (.integer n) (.ktSimple c)
  | userdata (ka : KeyAction) : Denotes (.userdata ka) ka
  | table {entries : List (TableKey × LuaValue)} {map : KeyCode → KeyAction}
      (hnamed : ∀ e ∈ entries, ∃ c, tableKeyCode e.1 = some c)
      (hbound : ∀ e ∈ entries, ∀ c, tableKeyCode e.1 = some c → Denotes e.2 (map c))
      (hfree : ∀ c, (∀ e ∈ entries, tableKeyCode e.1 ≠ some c) → map c = .ktNone) :
      Denotes (.table entries) (.ktMap map)

/-- Two entries of a table, at any depth, are for one code and mean different actions. -/
inductive Conflict : LuaValue → Prop
  | here {entries : List (TableKey × LuaValue)} {e₁ e₂ : TableKey × LuaValue} {c : KeyCode}
      {a₁ a₂ : KeyAction} (h₁ : e₁ ∈ entries) (h₂ : e₂ ∈ entries)
      (hc₁ : tableKeyCode e₁.1 = some c) (hc₂ : tableKeyCode e₂.1 = some c)
      (ha₁ : Denotes e₁.2 a₁) (ha₂ : Denotes e₂.2 a₂) (hne : a₁ ≠ a₂) :
      Conflict (.table entries)
  | inside {entries : List (TableKey × LuaValue)} {e : TableKey × LuaValue} (he : e ∈ entries)
      (h : Conflict e.2) : Conflict (.table entries)

/-- The second value is the first one with the entries of its tables, at any depth, in another
    order. -/
inductive Reordered : LuaValue → LuaValue → Prop
  | same (v : LuaValue) : Reordered v v
  | table {entries mid entries' : List (TableKey × LuaValue)} (hperm : mid.Perm entries)
      (hkeys : mid.map Prod.fst = entries'.map Prod.fst)
      (hvalues : ∀ p ∈ mid.zip entries', Reordered p.1.2 p.2.2) :
      Reordered (.table entries) (.table entries')

/-! ### The loop -/

/-- What an entry writes to the map; `none` if it is refused. -/
def entryBinding (e : TableKey × LuaValue) : Option (KeyCode × KeyAction) :=
  match tableKeyCode e.1, copyToKeyAction e.2 with
  | some c, .ok ka => some (c, ka)
  | _, _ => none

theorem entryBinding_eq_some {e : TableKey × LuaValue} {w : KeyCode × KeyAction} :
    entryBinding e = some w ↔ tableKeyCode e.1 = some w.1 ∧ copyToKeyAction e.2 = .ok w.2 := by
  obtain ⟨c, ka⟩ := w
  unfold entryBinding
  split
  · rename_i c' ka' hc hka
    simp [hc, hka]
  · rename_i hnone
    refine iff_of_false (by simp) ?_
    rintro ⟨hc, hka⟩
    exact hnone c ka hc hka

/-- **One entry.** It is refused, or written to the slot of its code. -/
theorem extractTableToKeyMap_cons (e : TableKey × LuaValue)
    (entries : List (TableKey × LuaValue)) (map : KeyCode → KeyAction) :
    (∃ w, entryBinding e = some w ∧ extractTableToKeyMap (e :: entries) map =
      extractTableToKeyMap entries (Function.update map w.1 w.2)) ∨
    (entryBinding e = none ∧ ∃ err, extractTableToKeyMap (e :: entries) map = .error err) := by
  obtain ⟨key, value⟩ := e
  cases key with
  | other =>
    refine .inr ⟨?_, _, by rw [extractTableToKeyMap]⟩
    rfl
  | text name =>
    rw [extractTableToKeyMap]
    simp only [entryBinding, tableKeyCode]
    by_cases hzero : getInputValue (untilNul name) = 0
    · rw [if_pos hzero, if_pos hzero]
      exact .inr ⟨rfl, _, rfl⟩
    · rw [if_neg hzero, if_neg hzero]
      cases copyToKeyAction value with
      | error err => exact .inr ⟨rfl, err, rfl⟩
      | ok ka => exact .inl ⟨_, rfl, rfl⟩

/-- **The loop.** It refuses the table if it refuses an entry; otherwise the entries are
    written one after the other. -/
theorem extractTableToKeyMap_write (entries : List (TableKey × LuaValue))
    (map : KeyCode → KeyAction) :
    ((∃ map', extractTableToKeyMap entries map = .ok map') ↔
      ∀ e ∈ entries, ∃ w, entryBinding e = some w) ∧
    ∀ map', extractTableToKeyMap entries map = .ok map' →
      map' = writeAll (entries.filterMap entryBinding) map := by
  induction entries generalizing map with
  | nil =>
    rw [extractTableToKeyMap]
    refine ⟨iff_of_true ⟨map, rfl⟩ (by simp), ?_⟩
    intro map' h
    cases h
    rfl
  | cons e entries ih =>
    rcases extractTableToKeyMap_cons e entries map with ⟨w, hw, hstep⟩ | ⟨hnone, err, herr⟩
    · rw [hstep, List.forall_mem_cons, List.filterMap_cons_some hw, writeAll_cons]
      obtain ⟨hiff, hwrites⟩ := ih (Function.update map w.1 w.2)
      exact ⟨hiff.trans (and_iff_right ⟨w, hw⟩).symm, hwrites⟩
    · rw [herr, List.forall_mem_cons, hnone]
      simp

/-- **Tables.** A table is accepted exactly if all its entries are, and copied to the map its
    entries are written to. -/
theorem copyToKeyAction_table {entries : List (TableKey × LuaValue)} {ka : KeyAction} :
    copyToKeyAction (.table entries) = .ok ka ↔
      (∀ e ∈ entries, ∃ w, entryBinding e = some w) ∧
        ka = .ktMap (writeAll (entries.filterMap entryBinding) fun _ => .ktNone) := by
  rw [copyToKeyAction, Steps.bind_eq_ok]
  obtain ⟨hiff, hwrites⟩ := extractTableToKeyMap_write entries fun _ => .ktNone
  constructor
  · rintro ⟨map, hmap, h⟩
    cases h
    exact ⟨hiff.mp ⟨map, hmap⟩, by rw [hwrites map hmap]⟩
  · rintro ⟨hentries, rfl⟩
    obtain ⟨map, hmap⟩ := hiff.mpr hentries
    exact ⟨map, hmap, by rw [hwrites map hmap]⟩

/-! ### Values with a meaning -/

/-- **Copies.** A value that means something is copied to what it means. -/
theorem copyToKeyAction_of_denotes {v : LuaValue} {ka : KeyAction} (h : Denotes v ka) :
    copyToKeyAction v = .ok ka := by
  induction h with
  | nil => rw [copyToKeyAction]
  | @integer n c h =>
    have hcode : checkedCode n.toInt = .ok c := by
      have hrange : 0 ≤ n.toInt ∧ n.toInt < keyMax := by
        have hlt : c.val < keyMax := c.isLt
        omega
      rw [checkedCode, dif_pos hrange]
      congr 1
      ext
      show n.toInt.toNat = c.val
      omega
    rw [copyToKeyAction, hcode]
    rfl
  | userdata ka => exact copyToKeyAction_userdata ka
  | @table entries map hnamed hbound hfree ih =>
    have hwrite : ∀ e ∈ entries, ∀ c, tableKeyCode e.1 = some c →
        entryBinding e = some (c, map c) :=
      fun e he c hc => entryBinding_eq_some.mpr ⟨hc, ih e he c hc⟩
    -- what the entries write is what the map has for their codes
    have hmem : ∀ {w : KeyCode × KeyAction}, w ∈ entries.filterMap entryBinding ↔
        w.2 = map w.1 ∧ ∃ e ∈ entries, tableKeyCode e.1 = some w.1 := by
      intro w
      rw [List.mem_filterMap]
      constructor
      · rintro ⟨e, he, hew⟩
        have hc := (entryBinding_eq_some.mp hew).1
        have heq := Option.some.inj ((hwrite e he w.1 hc).symm.trans hew)
        exact ⟨(congrArg Prod.snd heq).symm, e, he, hc⟩
      · rintro ⟨heq, e, he, hc⟩
        refine ⟨e, he, (hwrite e he w.1 hc).trans ?_⟩
        rw [← heq]
    refine copyToKeyAction_table.mpr ⟨fun e he => ?_, ?_⟩
    · obtain ⟨c, hc⟩ := hnamed e he
      exact ⟨_, hwrite e he c hc⟩
    congr 1
    ext c
    rcases writeAll_cases (entries.filterMap entryBinding) (fun _ => KeyAction.ktNone) c with
      hwritten | ⟨hnone, hkept⟩
    · exact (hmem.mp hwritten).1.symm
    · -- no entry is for this code
      rw [hkept]
      apply hfree
      intro e he hc
      exact hnone (map c) (hmem.mpr ⟨rfl, e, he, hc⟩)

theorem Denotes.unique {v : LuaValue} {ka ka' : KeyAction} (h : Denotes v ka)
    (h' : Denotes v ka') : ka = ka' :=
  Except.ok.inj ((copyToKeyAction_of_denotes h).symm.trans (copyToKeyAction_of_denotes h'))

/-- Induction over the entries of tables. -/
theorem LuaValue.table_induction {P : LuaValue → Prop}
    (hflat : ∀ v, (∀ entries, v ≠ .table entries) → P v)
    (htable : ∀ entries : List (TableKey × LuaValue), (∀ e ∈ entries, P e.2) → P (.table entries))
    (v : LuaValue) : P v :=
  match v with
  | .table entries => htable entries fun e _ => table_induction hflat htable e.2
  | .nil => hflat _ (by simp)
  | .integer _ => hflat _ (by simp)
  | .userdata _ => hflat _ (by simp)
  | .other => hflat _ (by simp)
termination_by sizeOf v
decreasing_by
  rename_i he
  have hentry := List.sizeOf_lt_of_mem he
  obtain ⟨key, value⟩ := e
  simp only [LuaValue.table.sizeOf_spec, Prod.mk.sizeOf_spec] at hentry ⊢
  omega

/-- An accepted value that is no table has a meaning. -/
theorem denotes_of_flat {v : LuaValue} {ka : KeyAction} (hflat : ∀ entries, v ≠ .table entries)
    (h : copyToKeyAction v = .ok ka) : Denotes v ka := by
  cases v with
  | nil =>
    rw [copyToKeyAction] at h
    cases h
    exact .nil
  | integer n =>
    rw [copyToKeyAction, Steps.bind_eq_ok] at h
    obtain ⟨c, hc, h⟩ := h
    cases h
    unfold checkedCode at hc
    split at hc
    · rename_i hrange
      cases hc
      exact .integer (by simp only; omega)
    · exact absurd hc (by simp)
  | table entries => exact absurd rfl (hflat entries)
  | userdata a =>
    rw [copyToKeyAction_userdata] at h
    cases h
    exact .userdata _
  | other => exact absurd h (by simp [copyToKeyAction])

/-- **Conflicts.** An accepted value has a meaning exactly if there is no conflict in it. -/
theorem denotes_iff_no_conflict {v : LuaValue} {ka : KeyAction} (h : copyToKeyAction v = .ok ka) :
    Denotes v ka ↔ ¬ Conflict v := by
  constructor
  · clear h
    intro hmeans hconflict
    induction hconflict generalizing ka with
    | here h₁ h₂ hc₁ hc₂ ha₁ ha₂ hne =>
      cases hmeans with
      | table _ hbound _ =>
        have heq₁ := ha₁.unique (hbound _ h₁ _ hc₁)
        have heq₂ := ha₂.unique (hbound _ h₂ _ hc₂)
        exact hne (heq₁.trans heq₂.symm)
    | inside he _ ih =>
      cases hmeans with
      | table hnamed hbound _ =>
        obtain ⟨c, hc⟩ := hnamed _ he
        exact ih (hbound _ he c hc)
  · intro hnone
    induction v using LuaValue.table_induction generalizing ka with
    | hflat v hflat => exact denotes_of_flat hflat h
    | htable entries ih =>
      obtain ⟨hentries, rfl⟩ := copyToKeyAction_table.mp h
      have hnamed : ∀ e ∈ entries, ∃ c, tableKeyCode e.1 = some c := by
        intro e he
        obtain ⟨w, hw⟩ := hentries e he
        exact ⟨w.1, (entryBinding_eq_some.mp hw).1⟩
      have hmeans : ∀ e ∈ entries, ∀ w, entryBinding e = some w → Denotes e.2 w.2 := by
        intro e he w hw
        exact ih e he (entryBinding_eq_some.mp hw).2 fun hconflict => hnone (.inside he hconflict)
      refine .table hnamed (fun e he c hc => ?_) fun c hfree => ?_
      · obtain ⟨w, hw⟩ := hentries e he
        have hcode := (entryBinding_eq_some.mp hw).1
        obtain rfl := Option.some.inj (hc.symm.trans hcode)
        -- the entry that counts for the code means the same as this one
        have hwritten : (w.1, writeAll (entries.filterMap entryBinding) (fun _ => .ktNone) w.1) ∈
            entries.filterMap entryBinding := by
          have hcases :=
            writeAll_cases (entries.filterMap entryBinding) (fun _ => KeyAction.ktNone) w.1
          rcases hcases with hmem | ⟨hfree, _⟩
          · exact hmem
          · exact absurd (List.mem_filterMap.mpr ⟨e, he, hw⟩) (hfree w.2)
        obtain ⟨e', he', hw'⟩ := List.mem_filterMap.mp hwritten
        by_contra hdiffers
        refine hnone (.here he he' hcode (entryBinding_eq_some.mp hw').1 (hmeans e he w hw)
          (hmeans e' he' _ hw') ?_)
        rintro (heq : w.2 = writeAll (entries.filterMap entryBinding) (fun _ => .ktNone) w.1)
        rw [← heq] at hdiffers
        exact hdiffers (hmeans e he w hw)
      · apply writeAll_of_not_mem
        intro a ha
        obtain ⟨e, he, hw⟩ := List.mem_filterMap.mp ha
        exact hfree e he (entryBinding_eq_some.mp hw).1

/-! ### Orders -/

/-- Two lists with the same keys pair each entry of one with an entry of the other. -/
theorem zip_of_keys {κ α β : Type*} {mid : List (κ × α)} {entries' : List (κ × β)}
    (hkeys : mid.map Prod.fst = entries'.map Prod.fst) :
    (∀ e' ∈ entries', ∃ e ∈ mid, (e, e') ∈ mid.zip entries' ∧ e.1 = e'.1) ∧
      ∀ e ∈ mid, ∃ e' ∈ entries', (e, e') ∈ mid.zip entries' ∧ e.1 = e'.1 := by
  induction mid generalizing entries' with
  | nil =>
    cases entries' with
    | nil => simp
    | cons e' entries' => exact absurd hkeys (by simp)
  | cons e mid ih =>
    cases entries' with
    | nil => exact absurd hkeys (by simp)
    | cons e' entries' =>
      rw [List.map_cons, List.map_cons, List.cons.injEq] at hkeys
      obtain ⟨hleft, hright⟩ := ih hkeys.2
      constructor
      · intro x hx
        rcases List.mem_cons.mp hx with rfl | hx
        · exact ⟨e, List.mem_cons_self, List.mem_cons_self, hkeys.1⟩
        · obtain ⟨y, hy, hzip, hkey⟩ := hleft x hx
          exact ⟨y, List.mem_cons_of_mem e hy, List.mem_cons_of_mem _ hzip, hkey⟩
      · intro x hx
        rcases List.mem_cons.mp hx with rfl | hx
        · exact ⟨e', List.mem_cons_self, List.mem_cons_self, hkeys.1⟩
        · obtain ⟨y, hy, hzip, hkey⟩ := hright x hx
          exact ⟨y, List.mem_cons_of_mem e' hy, List.mem_cons_of_mem _ hzip, hkey⟩

/-- A meaning does not depend on any order. -/
theorem Denotes.reordered {v v' : LuaValue} {ka : KeyAction} (h : Denotes v ka)
    (hreorder : Reordered v v') : Denotes v' ka := by
  induction hreorder generalizing ka with
  | same v => exact h
  | table hperm hkeys _ ih =>
    obtain ⟨hleft, hright⟩ := zip_of_keys hkeys
    cases h with
    | table hnamed hbound hfree =>
      refine .table (fun e' he' => ?_) (fun e' he' c hc => ?_) fun c hnone => ?_
      · obtain ⟨e, he, _, hkey⟩ := hleft e' he'
        rw [← hkey]
        exact hnamed e (hperm.mem_iff.mp he)
      · obtain ⟨e, he, hzip, hkey⟩ := hleft e' he'
        rw [← hkey] at hc
        exact ih (e, e') hzip (hbound e (hperm.mem_iff.mp he) c hc)
      · apply hfree
        intro e he hc
        obtain ⟨e', he', _, hkey⟩ := hright e (hperm.mem_iff.mpr he)
        rw [hkey] at hc
        exact hnone e' he' hc

/-- **Last.** Any entry of a table can be visited last, with its value reordered. -/
theorem exists_visited_last {entries : List (TableKey × LuaValue)} {e : TableKey × LuaValue}
    {value : LuaValue} (he : e ∈ entries) (hvalue : Reordered e.2 value) :
    ∃ front, Reordered (.table entries) (.table (front ++ [(e.1, value)])) := by
  obtain ⟨front, hperm⟩ := exists_perm_concat (k := e.1) (v := e.2) he
  refine ⟨front, .table hperm (by simp) ?_⟩
  intro p hp
  rw [List.zip_append rfl] at hp
  rcases List.mem_append.mp hp with hp | hp
  · have heq : p.1 = p.2 := by
      obtain ⟨i, hi, rfl⟩ := List.mem_iff_getElem.mp hp
      rw [List.getElem_zip]
    rw [heq]
    exact .same _
  · rw [List.zip_cons_cons, List.zip_nil_left, List.mem_singleton] at hp
    rw [hp]
    exact hvalue

/-- An accepted value that is copied to one action in all orders has a meaning. -/
theorem denotes_of_order_independent {v : LuaValue} {ka : KeyAction}
    (h : ∀ v', Reordered v v' → copyToKeyAction v' = .ok ka) : Denotes v ka := by
  induction v using LuaValue.table_induction generalizing ka with
  | hflat v hflat => exact denotes_of_flat hflat (h v (.same v))
  | htable entries ih =>
    obtain ⟨hentries, rfl⟩ := copyToKeyAction_table.mp (h _ (.same _))
    have hnamed : ∀ e ∈ entries, ∃ c, tableKeyCode e.1 = some c := by
      intro e he
      obtain ⟨w, hw⟩ := hentries e he
      exact ⟨w.1, (entryBinding_eq_some.mp hw).1⟩
    refine .table hnamed (fun e he c hc => ih e he ?_) fun c hfree => ?_
    · -- an entry that is visited last is the one that counts
      intro value hvalue
      obtain ⟨front, hlast⟩ := exists_visited_last he hvalue
      obtain ⟨hentries', hmap⟩ := copyToKeyAction_table.mp (h _ hlast)
      obtain ⟨w, hw⟩ := hentries' (e.1, value) (by simp)
      obtain ⟨hcode, hcopy⟩ := entryBinding_eq_some.mp hw
      obtain rfl := Option.some.inj (hc.symm.trans hcode)
      rw [List.filterMap_append, List.filterMap_cons_some hw, List.filterMap_nil] at hmap
      have hslot := congrFun (KeyAction.ktMap.inj hmap) w.1
      rw [writeAll_concat] at hslot
      rw [hcopy, ← hslot]
    · apply writeAll_of_not_mem
      intro a ha
      obtain ⟨e, he, hw⟩ := List.mem_filterMap.mp ha
      exact hfree e he (entryBinding_eq_some.mp hw).1

/-- **Order.** Let a value be accepted.  It is copied to the same action in every order of the
    entries of its tables, at every depth, exactly if no table in it has two entries for one
    code that mean different actions. -/
theorem order_independent_iff {v : LuaValue} {ka : KeyAction} (h : copyToKeyAction v = .ok ka) :
    (∀ v', Reordered v v' → copyToKeyAction v' = .ok ka) ↔ ¬ Conflict v := by
  rw [← denotes_iff_no_conflict h]
  constructor
  · exact denotes_of_order_independent
  · exact fun hmeans v' hreorder => copyToKeyAction_of_denotes (hmeans.reordered hreorder)

/-- A string as the key of a table. -/
def keyNamed (name : String) : TableKey := .text name.toUTF8.toList

/-- Without two entries for one code there is no conflict. -/
theorem not_conflict_table {entries : List (TableKey × LuaValue)}
    (hcodes : (entries.map fun e => tableKeyCode e.1).Nodup)
    (h : ∀ e ∈ entries, ¬ Conflict e.2) : ¬ Conflict (.table entries) := by
  intro hconflict
  cases hconflict with
  | here h₁ h₂ hc₁ hc₂ ha₁ ha₂ hne =>
    obtain rfl := List.inj_on_of_nodup_map hcodes h₁ h₂ (hc₁.trans hc₂.symm)
    exact hne (ha₁.unique ha₂)
  | inside he hinside => exact h _ he hinside

theorem tableKeyCode_hangeul : tableKeyCode (keyNamed "KEY_HANGEUL") = some 122 := by
  decide +kernel

theorem tableKeyCode_hanguel : tableKeyCode (keyNamed "KEY_HANGUEL") = some 122 := by
  decide +kernel

theorem tableKeyCode_a : tableKeyCode (keyNamed "KEY_A") = some 30 := by
  decide +kernel

theorem copyToKeyAction_48 : copyToKeyAction (.integer 48) = .ok (.ktSimple 48) :=
  copyToKeyAction_of_denotes (.integer rfl)

theorem copyToKeyAction_30 : copyToKeyAction (.integer 30) = .ok (.ktSimple 30) :=
  copyToKeyAction_of_denotes (.integer rfl)

/-- `{KEY_A = 48, KEY_HANGUEL = 30}` -/
def twoNames : List (TableKey × LuaValue) :=
  [(keyNamed "KEY_A", .integer 48), (keyNamed "KEY_HANGUEL", .integer 30)]

/-- `{KEY_HANGEUL = {KEY_A = 48, KEY_HANGUEL = 30}, KEY_A = 48}` is copied to the same map in every
    order of both tables. -/
theorem order_independent_layer : ∃ ka, ∀ v',
    Reordered (.table [(keyNamed "KEY_HANGEUL", .table twoNames), (keyNamed "KEY_A", .integer 48)])
      v' → copyToKeyAction v' = .ok ka := by
  have hinner : ∀ e ∈ twoNames, ∃ w, entryBinding e = some w := by
    intro e he
    rcases List.mem_pair.mp he with rfl | rfl
    · exact ⟨(30, .ktSimple 48), entryBinding_eq_some.mpr ⟨tableKeyCode_a, copyToKeyAction_48⟩⟩
    · exact ⟨(122, .ktSimple 30),
        entryBinding_eq_some.mpr ⟨tableKeyCode_hanguel, copyToKeyAction_30⟩⟩
  obtain ⟨layer, hlayer⟩ : ∃ ka, copyToKeyAction (.table twoNames) = .ok ka :=
    ⟨_, copyToKeyAction_table.mpr ⟨hinner, rfl⟩⟩
  have houter : ∀ e ∈ [(keyNamed "KEY_HANGEUL", LuaValue.table twoNames),
      (keyNamed "KEY_A", .integer 48)], ∃ w, entryBinding e = some w := by
    intro e he
    rcases List.mem_pair.mp he with rfl | rfl
    · exact ⟨(122, layer), entryBinding_eq_some.mpr ⟨tableKeyCode_hangeul, hlayer⟩⟩
    · exact ⟨(30, .ktSimple 48), entryBinding_eq_some.mpr ⟨tableKeyCode_a, copyToKeyAction_48⟩⟩
  have hinteger : ∀ m : Int64, ¬ Conflict (.integer m) := by
    intro m hconflict
    cases hconflict
  refine ⟨_, (order_independent_iff (copyToKeyAction_table.mpr ⟨houter, rfl⟩)).mpr
    (not_conflict_table ?_ ?_)⟩
  · rw [List.map_cons, List.map_singleton, tableKeyCode_hangeul, tableKeyCode_a]
    decide
  · intro e he
    rcases List.mem_pair.mp he with rfl | rfl
    · refine not_conflict_table ?_ ?_
      · unfold twoNames
        rw [List.map_cons, List.map_singleton, tableKeyCode_a, tableKeyCode_hanguel]
        decide
      · intro e he
        rcases List.mem_pair.mp he with rfl | rfl
        · exact hinteger 48
        · exact hinteger 30
    · exact hinteger 48

/-- `{KEY_HANGEUL = 30, KEY_HANGUEL = 48}`, where both names stand for code 122 -/
def aliasTable : LuaValue :=
  .table [(keyNamed "KEY_HANGEUL", .integer 30), (keyNamed "KEY_HANGUEL", .integer 48)]

/-- That table is accepted, and it depends on the order what code 122 is bound to. -/
theorem alias_order_dependent :
    ∃ ka, copyToKeyAction aliasTable = .ok ka ∧ Conflict aliasTable ∧
      ¬ ∀ v', Reordered aliasTable v' → copyToKeyAction v' = .ok ka := by
  have hbound : ∀ e ∈ [(keyNamed "KEY_HANGEUL", LuaValue.integer 30),
      (keyNamed "KEY_HANGUEL", .integer 48)], ∃ w, entryBinding e = some w := by
    intro e he
    rcases List.mem_pair.mp he with rfl | rfl
    · exact ⟨(122, .ktSimple 30), entryBinding_eq_some.mpr
        ⟨tableKeyCode_hangeul, copyToKeyAction_30⟩⟩
    · exact ⟨(122, .ktSimple 48), entryBinding_eq_some.mpr
        ⟨tableKeyCode_hanguel, copyToKeyAction_48⟩⟩
  have hok := copyToKeyAction_table.mpr ⟨hbound, rfl⟩
  have hconflict : Conflict aliasTable := by
    have hne : KeyAction.ktSimple 30 ≠ .ktSimple 48 := by
      intro heq
      exact absurd (KeyAction.ktSimple.inj heq) (by decide)
    exact .here List.mem_cons_self (List.mem_cons_of_mem _ List.mem_cons_self)
      tableKeyCode_hangeul tableKeyCode_hanguel (.integer rfl) (.integer rfl) hne
  exact ⟨_, hok, hconflict,
    fun hsame => (denotes_iff_no_conflict hok).mp (denotes_of_order_independent hsame) hconflict⟩

end Sdiol
