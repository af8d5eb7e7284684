import Sdiol.KhashMap
import Sdiol.Names
import Sdiol.Lib.LastWrite

namespace Sdiol

open LastWrite

/-!
# The tables of key names

`names_init` fills two hash tables: from names to codes, and from codes to names.  Every lookup
and every loop over the tables is answered by `khash.h`; `names_init_refines` says that the
answers are those of the list `inputNames`, in whatever order the buckets are visited.

`set_lua_globals` loops over one of the tables: `lua_globals` says what the configuration script
finds in its variables.
-/

/-- The bytes of a C string literal. -/
def literal (s : String) : List UInt8 := s.toUTF8.toList

/-- `(khint_t)*s`, for the signed `char` of the target. -/
def charValue (c : UInt8) : UInt32 := c.toInt8.toInt32.toUInt32

/-- `__ac_X31_hash_string` -/
def acX31HashString : List UInt8 → UInt32
  | [] => 0
  | c :: s => s.foldl (fun h c => (h <<< 5) - h + charValue c) (charValue c)

/-- The tables `n2v` and `v2n`. -/
structure NameTables where
  n2v : Khash (List UInt8) UInt16
  v2n : Khash UInt32 (List UInt8)

/-- How `names_init` may end without the tables: out of memory, or not at all. -/
inductive NamesStop where
  | noMemory
  | endless
deriving DecidableEq

/-- `ADD_NAME` -/
def addName (alloc : ResizeAlloc) (name : List UInt8) (value : UInt16) (t : NameTables) :
    Except NamesStop NameTables :=
  match khPut (fun s => (acX31HashString s).toNat) alloc name t.n2v with
  | none => .error .endless
  | some (k, ret, h) =>
    if ret = -1 then .error .noMemory else .ok { t with n2v := h.setVal k value }

/-- `ADD_VALUE` -/
def addValue (alloc : ResizeAlloc) (value : UInt16) (name : List UInt8) (t : NameTables) :
    Except NamesStop NameTables :=
  match khPut UInt32.toNat alloc value.toUInt32 t.v2n with
  | none => .error .endless
  | some (k, ret, h) =>
    if ret = -1 then .error .noMemory else .ok { t with v2n := h.setVal k name }

/-- The last entries of the list come from `ADD_ALIAS`. -/
def aliasCount : Nat := 10

/-- The `ADD_KEY` lines. -/
def keyNames : List (String × UInt16) := inputNames.take (inputNames.length - aliasCount)

/-- The `ADD_ALIAS` lines. -/
def aliasNames : List (String × UInt16) := inputNames.drop (inputNames.length - aliasCount)

/-- What the allocations of `names_init` come to: those of `kh_init`, and those of each line. -/
structure NamesAlloc where
  n2v : Bool
  v2n : Bool
  names : Nat → ResizeAlloc
  values : Nat → ResizeAlloc

/-- Every allocation succeeds. -/
def NamesAlloc.ok : NamesAlloc := ⟨true, true, fun _ => .ok, fun _ => .ok⟩

/-- `ADD_KEY`, as the `i`-th line. -/
def addKey (alloc : NamesAlloc) (t : NameTables) (line : (String × UInt16) × Nat) :
    Except NamesStop NameTables := do
  let t ← addName (alloc.names line.2) (literal line.1.1) line.1.2 t
  addValue (alloc.values line.2) line.1.2 (literal line.1.1) t

/-- `ADD_ALIAS`, as the `i`-th line. -/
def addAlias (alloc : NamesAlloc) (t : NameTables) (line : (String × UInt16) × Nat) :
    Except NamesStop NameTables :=
  addName (alloc.names line.2) (literal line.1.1) line.1.2 t

/-- `names_init` -/
def namesInit (alloc : NamesAlloc) : Except NamesStop NameTables :=
  if !alloc.n2v then .error .noMemory
  else if !alloc.v2n then .error .noMemory
  else do
    let t ← keyNames.zipIdx.foldlM (addKey alloc) ⟨khInit, khInit⟩
    (aliasNames.zipIdx keyNames.length).foldlM (addAlias alloc) t

/-- `get_input_name`, on the table. -/
def NameTables.inputName (t : NameTables) (value : UInt16) : Option (List UInt8) := do
  let k ← khGet UInt32.toNat t.v2n value.toUInt32
  some (if k = t.v2n.nBuckets then literal "unknown_key_value" else t.v2n.vals k)

/-- `get_input_value`, on the table. -/
def NameTables.inputValue (t : NameTables) (name : List UInt8) : Option UInt16 := do
  let k ← khGet (fun s => (acX31HashString s).toNat) t.n2v name
  some (if k = t.n2v.nBuckets then 0 else t.n2v.vals k)

/-- What `for_each_name` calls its hook with. -/
def NameTables.forEachName (t : NameTables) : List (List UInt8 × UInt16) := t.n2v.entries

/-- What `for_each_value` calls its hook with; the key is handed on as a `uint16_t`. -/
def NameTables.forEachValue (t : NameTables) : List (List UInt8 × UInt16) :=
  t.v2n.entries.map fun entry => (entry.2, entry.1.toUInt16)

/-- The name on a line. -/
def lineName : Option (String × UInt16) → List UInt8
  | some entry => literal entry.1
  | none => literal "unknown_key_value"

/-- The last of some lines with a code. -/
def lastLine (lines : List (String × UInt16)) (value : UInt16) : Option (String × UInt16) :=
  lines.reverse.find? fun entry => entry.2 == value

/-- What a lookup by code finds: the name of the last `ADD_KEY` line with the code. -/
def getInputName (value : UInt16) : List UInt8 := lineName (lastLine keyNames value)

/-- The functions of `config.c` that a script can call. -/
inductive CFunction where
  | luaPrint
  | luaMacro
  | luaShift
  | luaCtrl
  | luaAlt
  | luaMeta
  | luaDualKey
  | luaGrabKeyboard
  | luaIgnoreKeyboard
deriving DecidableEq

/-- What a global variable of the script holds. -/
inductive LuaGlobal where
  | nil
  | config
  | function (f : CFunction)
  | integer (n : Int)
deriving DecidableEq

/-- The globals that `set_lua_globals` sets by name. -/
def fixedGlobals : List (List UInt8 × LuaGlobal) :=
  [(literal "__config", .config),
   (literal "print", .function .luaPrint),
   (literal "macro", .function .luaMacro),
   (literal "shift", .function .luaShift),
   (literal "ctrl", .function .luaCtrl),
   (literal "alt", .function .luaAlt),
   (literal "meta", .function .luaMeta),
   (literal "dual_key", .function .luaDualKey),
   (literal "TAP_ON_ROLLOVER", .integer 0),
   (literal "HOLD_ON_ROLLOVER", .integer 1),
   (literal "TIMEOUT_ONLY", .integer 2),
   (literal "grab_keyboard", .function .luaGrabKeyboard),
   (literal "ignore_keyboard", .function .luaIgnoreKeyboard)]

/-- `add_global` -/
def addGlobal (entry : List UInt8 × UInt16) : List UInt8 × LuaGlobal :=
  (entry.1, .integer entry.2.toNat)

/-- `set_lua_globals`: the calls of `lua_setglobal`. -/
def setLuaGlobals (t : NameTables) : List (List UInt8 × LuaGlobal) :=
  fixedGlobals ++ t.forEachName.map addGlobal

/-- The variables of the script when it starts. -/
def luaGlobals (t : NameTables) : List UInt8 → LuaGlobal := writeAll (setLuaGlobals t) fun _ => .nil

/-! ### The list of the names -/

/-- Distinct numbers, each marked in a bit set. -/
def marks (seen : Nat) : List Nat → Bool
  | [] => true
  | n :: ns => !seen.testBit n && marks (seen ||| 2 ^ n) ns

theorem nodup_of_marks {ns : List Nat} {seen : Nat} (h : marks seen ns = true) :
    ns.Nodup ∧ ∀ n ∈ ns, seen.testBit n = false := by
  induction ns generalizing seen with
  | nil => exact ⟨List.nodup_nil, fun _ hn => absurd hn List.not_mem_nil⟩
  | cons n ns ih =>
    rw [marks, Bool.and_eq_true, Bool.not_eq_true'] at h
    obtain ⟨hnodup, hunseen⟩ := ih h.2
    have hnew : ∀ k ∈ ns, seen.testBit k = false ∧ k ≠ n := by
      intro k hk
      have hbit := hunseen k hk
      rw [Nat.testBit_or, Bool.or_eq_false_iff, Nat.testBit_two_pow] at hbit
      exact ⟨hbit.1, fun hkn => by simp [hkn] at hbit⟩
    refine ⟨List.nodup_cons.mpr ⟨fun hn => (hnew n hn).2 rfl, hnodup⟩, ?_⟩
    intro k hk
    rcases List.mem_cons.mp hk with rfl | hk
    · exact h.1
    · exact (hnew k hk).1

/-- The bytes as a number, modulo one that tells the names apart. -/
def residue (name : List UInt8) : Nat := name.foldl (fun h c => (h * 256 + c.toNat) % 19939) 0

/-- The names with their bytes. -/
def nameEntries : List (List UInt8 × UInt16) :=
  inputNames.map fun entry => (literal entry.1, entry.2)

/-- **No name is given twice**, and none is that of a global. -/
theorem names_nodup : (fixedGlobals.map Prod.fst ++ nameEntries.map Prod.fst).Nodup := by
  have hmarks : marks 0 ((fixedGlobals.map Prod.fst ++ nameEntries.map Prod.fst).map residue)
      = true := by
    decide +kernel
  exact List.Nodup.of_map residue (nodup_of_marks hmarks).1

theorem inputNames_split : keyNames ++ aliasNames = inputNames := List.take_append_drop _ _

/-- A name has one code. -/
theorem nameEntries_functional {name : List UInt8} {v v' : UInt16} (h : (name, v) ∈ nameEntries)
    (h' : (name, v') ∈ nameEntries) : v = v' := by
  have hnodup := (List.nodup_append.mp names_nodup).2.1
  exact congrArg Prod.snd (List.inj_on_of_nodup_map hnodup h h' rfl)

theorem getInputValue_cases (name : List UInt8) :
    (name, getInputValue name) ∈ nameEntries ∨
      (∀ v, (name, v) ∉ nameEntries) ∧ getInputValue name = 0 := by
  unfold getInputValue
  split
  · rename_i entry hentry
    refine Or.inl (List.mem_map.mpr ⟨entry, List.mem_of_find?_eq_some hentry, ?_⟩)
    have hname := List.find?_some hentry
    rw [beq_iff_eq] at hname
    rw [literal, hname]
  · rename_i hnone
    refine Or.inr ⟨fun v hv => ?_, rfl⟩
    obtain ⟨entry, hentry, heq⟩ := List.mem_map.mp hv
    have := List.find?_eq_none.mp hnone entry hentry
    rw [beq_iff_eq] at this
    exact this (congrArg Prod.fst heq)

/-! ### The run of `names_init` -/

/-- The two tables hold what was written to them. -/
structure NameTables.Holds (t : NameTables) (names : List (List UInt8 × Option UInt16))
    (values : List (UInt32 × Option (List UInt8))) : Prop where
  n2v : t.n2v.IsMap (fun s => (acX31HashString s).toNat) (writeAll names fun _ => none)
  v2n : t.v2n.IsMap UInt32.toNat (writeAll values fun _ => none)
  namesSize : t.n2v.size ≤ names.length
  valuesSize : t.v2n.size ≤ values.length

/-- What one line of `names_init` does: the name is written, and `value` may be. -/
def LineWrites (step : NameTables → Except NamesStop NameTables) (ok : Prop)
    (name : List UInt8 × Option UInt16) (value : List (UInt32 × Option (List UInt8))) : Prop :=
  ∀ t names values, NameTables.Holds t names values → names.length < 2 ^ 30 →
    values.length < 2 ^ 30 →
    step t = .error .noMemory ∧ ¬ ok ∨
      ∃ t', step t = .ok t' ∧ t'.Holds (names ++ [name]) (values ++ value)

theorem writeAll_append_one {κ ν : Type} [DecidableEq κ] (ws : List (κ × ν)) (f : κ → ν) (k : κ)
    (v : ν) : writeAll (ws ++ [(k, v)]) f = Function.update (writeAll ws f) k v := by
  rw [writeAll, List.foldl_append]
  rfl

theorem addName_writes (alloc : ResizeAlloc) (name : List UInt8) (value : UInt16) :
    LineWrites (addName alloc name value) (alloc = .ok) (name, some value) [] := by
  intro t names values h hnames _
  obtain ⟨x, ret, h', hput, hsize, hcases⟩ :=
    khPut_isMap h.n2v (Nat.lt_of_le_of_lt h.namesSize hnames) alloc name
  unfold addName
  rw [hput]
  rcases hcases with ⟨rfl, halloc, -⟩ | ⟨hret, -, hstored⟩
  · exact Or.inl ⟨if_pos rfl, halloc⟩
  · refine Or.inr ⟨_, if_neg hret, ?_, by rw [List.append_nil]; exact h.v2n, ?_, ?_⟩
    · rw [writeAll_append_one]
      exact hstored value
    · have := h.namesSize
      rw [List.length_append, List.length_singleton]
      exact Nat.le_trans hsize (Nat.succ_le_succ this)
    · rw [List.append_nil]
      exact h.valuesSize

theorem addKey_writes (alloc : NamesAlloc) (line : (String × UInt16) × Nat) :
    LineWrites (fun t => addKey alloc t line) (alloc = .ok) (literal line.1.1, some line.1.2)
      [(line.1.2.toUInt32, some (literal line.1.1))] := by
  intro t names values h hnames hvalues
  rcases addName_writes (alloc.names line.2) (literal line.1.1) line.1.2 t names values h hnames
    hvalues with ⟨hfailed, halloc⟩ | ⟨t₁, hname, h₁⟩
  · refine Or.inl ⟨?_, fun hok => halloc (by rw [hok]; rfl)⟩
    simp only [addKey, hfailed]
    rfl
  obtain ⟨x, ret, h', hput, hsize, hcases⟩ := khPut_isMap h₁.v2n
    (Nat.lt_of_le_of_lt h₁.valuesSize (by simpa using hvalues)) (alloc.values line.2)
    line.1.2.toUInt32
  have hrest : addKey alloc t line
      = addValue (alloc.values line.2) line.1.2 (literal line.1.1) t₁ := by
    simp only [addKey, hname]
    rfl
  rw [show (fun t => addKey alloc t line) t = addKey alloc t line from rfl, hrest]
  unfold addValue
  rw [hput]
  rcases hcases with ⟨rfl, halloc, -⟩ | ⟨hret, -, hstored⟩
  · exact Or.inl ⟨if_pos rfl, fun hok => halloc (by rw [hok]; rfl)⟩
  · refine Or.inr ⟨_, if_neg hret, h₁.n2v, ?_, h₁.namesSize, ?_⟩
    · rw [writeAll_append_one]
      have := hstored (literal line.1.1)
      rwa [List.append_nil] at this
    · have hle := h₁.valuesSize
      rw [List.append_nil] at hle
      rw [List.length_append, List.length_singleton]
      exact Nat.le_trans hsize (Nat.succ_le_succ hle)

theorem addAlias_writes (alloc : NamesAlloc) (line : (String × UInt16) × Nat) :
    LineWrites (fun t => addAlias alloc t line) (alloc = .ok) (literal line.1.1, some line.1.2)
      [] := by
  intro t names values h hnames hvalues
  rcases addName_writes (alloc.names line.2) (literal line.1.1) line.1.2 t names values h hnames
    hvalues with ⟨hfailed, halloc⟩ | hok
  · exact Or.inl ⟨hfailed, fun hok => halloc (by rw [hok]; rfl)⟩
  · exact Or.inr hok

/-- The lines in sequence. -/
theorem lines_write {step : NameTables → (String × UInt16) × Nat → Except NamesStop NameTables}
    {ok : Prop} (value : (String × UInt16) × Nat → List (UInt32 × Option (List UInt8)))
    (hvalue : ∀ line, (value line).length ≤ 1)
    (hstep : ∀ line, LineWrites (fun t => step t line) ok (literal line.1.1, some line.1.2)
      (value line))
    (lines : List ((String × UInt16) × Nat)) {t : NameTables}
    {names : List (List UInt8 × Option UInt16)} {values : List (UInt32 × Option (List UInt8))}
    (h : t.Holds names values) (hnames : names.length + lines.length ≤ 2 ^ 30)
    (hvalues : values.length + lines.length ≤ 2 ^ 30) :
    lines.foldlM step t = .error .noMemory ∧ ¬ ok ∨
      ∃ t', lines.foldlM step t = .ok t' ∧
        t'.Holds (names ++ lines.map fun line => (literal line.1.1, some line.1.2))
          (values ++ lines.flatMap value) := by
  induction lines generalizing t names values with
  | nil => exact Or.inr ⟨t, rfl, by simpa using h⟩
  | cons line lines ih =>
    rw [List.length_cons] at hnames hvalues
    rw [List.foldlM_cons]
    rcases hstep line t names values h (by omega) (by omega) with ⟨hfailed, hok⟩ | ⟨t₁, hok, h₁⟩
    · exact Or.inl ⟨by simp only [hfailed]; rfl, hok⟩
    · have hlen := hvalue line
      rcases ih h₁ (by rw [List.length_append, List.length_singleton]; omega)
        (by rw [List.length_append]; omega) with ⟨hfailed, hnot⟩ | ⟨t', hrest, h'⟩
      · exact Or.inl ⟨by simp only [hok]; exact hfailed, hnot⟩
      · refine Or.inr ⟨t', by simp only [hok]; exact hrest, ?_⟩
        simpa [List.append_assoc] using h'

/-- The lines without their numbers. -/
theorem map_zipIdx_fst {β : Type} (f : String × UInt16 → β) (lines : List (String × UInt16))
    (i : Nat) : (lines.zipIdx i).map (fun line => f line.1) = lines.map f := by
  induction lines generalizing i with
  | nil => rfl
  | cons line lines ih => rw [List.zipIdx_cons, List.map_cons, List.map_cons, ih]

/-- All lines, on the empty tables. -/
theorem tables_written (alloc : NamesAlloc) {keys aliases : List (String × UInt16)}
    (hcount : keys.length + aliases.length ≤ 2 ^ 30) :
    (keys.zipIdx.foldlM (addKey alloc) ⟨khInit, khInit⟩ >>= fun t =>
        (aliases.zipIdx keys.length).foldlM (addAlias alloc) t) = .error .noMemory ∧ alloc ≠ .ok ∨
      ∃ t, (keys.zipIdx.foldlM (addKey alloc) ⟨khInit, khInit⟩ >>= fun t =>
          (aliases.zipIdx keys.length).foldlM (addAlias alloc) t) = .ok t ∧
        t.Holds ((keys ++ aliases).map fun entry => (literal entry.1, some entry.2))
          (keys.map fun entry => (entry.2.toUInt32, some (literal entry.1))) := by
  have hinit : NameTables.Holds ⟨khInit, khInit⟩ [] [] :=
    ⟨khInit_isMap _, khInit_isMap _, le_refl _, le_refl _⟩
  rcases lines_write _ (fun _ => le_refl 1) (addKey_writes alloc) keys.zipIdx hinit
    (by rw [List.length_zipIdx, List.length_nil]; omega)
    (by rw [List.length_zipIdx, List.length_nil]; omega)
    with ⟨hfailed, halloc⟩ | ⟨t₁, hkeys, h₁⟩
  · exact Or.inl ⟨by rw [hfailed]; rfl, halloc⟩
  rw [← List.map_eq_flatMap, List.nil_append, List.nil_append,
    map_zipIdx_fst (fun e => (literal e.1, some e.2)),
    map_zipIdx_fst (fun e => (e.2.toUInt32, some (literal e.1)))] at h₁
  rcases lines_write (fun _ => []) (fun _ => Nat.zero_le 1) (addAlias_writes alloc)
    (aliases.zipIdx keys.length) h₁
    (by rw [List.length_zipIdx, List.length_map]; omega)
    (by rw [List.length_zipIdx, List.length_map]; omega)
    with ⟨hfailed, halloc⟩ | ⟨t, haliases, h⟩
  · exact Or.inl ⟨by rw [hkeys]; exact hfailed, halloc⟩
  · refine Or.inr ⟨t, by rw [hkeys]; exact haliases, ?_⟩
    have hnone : (aliases.zipIdx keys.length).flatMap
        (fun _ => ([] : List (UInt32 × Option (List UInt8)))) = [] := by
      rw [List.flatMap_eq_nil_iff]
      exact fun _ _ => rfl
    rw [map_zipIdx_fst (fun e => (literal e.1, some e.2)), ← List.map_append, hnone,
      List.append_nil] at h
    exact h

/-- The writes to `v2n`. -/
def valueEntries : List (UInt32 × Option (List UInt8)) :=
  keyNames.map fun entry => (entry.2.toUInt32, some (literal entry.1))

/-- `names_init` writes every line, or runs out of memory. -/
theorem namesInit_holds (alloc : NamesAlloc) :
    namesInit alloc = .error .noMemory ∧ alloc ≠ .ok ∨
      ∃ t, namesInit alloc = .ok t ∧
        t.Holds (nameEntries.map fun entry => (entry.1, some entry.2)) valueEntries := by
  have hcount : keyNames.length + aliasNames.length ≤ 2 ^ 30 := by
    rw [← List.length_append, inputNames_split]
    decide +kernel
  unfold namesInit
  by_cases hn2v : alloc.n2v = false
  · rw [if_pos (by simp [hn2v])]
    exact Or.inl ⟨rfl, fun hok => by simp [hok, NamesAlloc.ok] at hn2v⟩
  rw [if_neg (by simpa using hn2v)]
  by_cases hv2n : alloc.v2n = false
  · rw [if_pos (by simp [hv2n])]
    exact Or.inl ⟨rfl, fun hok => by simp [hok, NamesAlloc.ok] at hv2n⟩
  rw [if_neg (by simpa using hv2n), nameEntries, List.map_map]
  have hwritten := tables_written alloc hcount
  rw [inputNames_split] at hwritten
  exact hwritten

/-! ### The answers of the tables -/

/-- The tables answer as the list of the names does, and a loop over a table visits each of its
    keys once. -/
structure NameTables.Answers (t : NameTables) : Prop where
  inputValue : ∀ name, t.inputValue name = some (getInputValue name)
  inputName : ∀ value, t.inputName value = some (getInputName value)
  eachName : (t.forEachName.map Prod.fst).Nodup ∧
    ∀ entry, entry ∈ t.forEachName ↔ entry ∈ nameEntries
  eachValue : (t.forEachValue.map Prod.snd).Nodup ∧
    ∀ name value, (name, value) ∈ t.forEachValue ↔
      value ∈ keyNames.map Prod.snd ∧ name = getInputName value

/-- What is written for a name. -/
theorem writeAll_names (name : List UInt8) :
    writeAll (nameEntries.map fun entry => (entry.1, some entry.2)) (fun _ => none) name
      = if (name, getInputValue name) ∈ nameEntries then some (getInputValue name) else none := by
  rcases getInputValue_cases name with hmem | ⟨hnone, -⟩
  · rw [if_pos hmem]
    apply Functional.writeAll_eq
    · intro k v v' hv hv'
      obtain ⟨⟨k₁, v₁⟩, h₁, heq⟩ := List.mem_map.mp hv
      obtain ⟨⟨k₂, v₂⟩, h₂, heq'⟩ := List.mem_map.mp hv'
      obtain ⟨rfl, rfl⟩ := Prod.mk.inj heq
      obtain ⟨rfl, rfl⟩ := Prod.mk.inj heq'
      exact congrArg some (nameEntries_functional h₁ h₂)
    · exact List.mem_map.mpr ⟨_, hmem, rfl⟩
  · rw [if_neg (hnone _)]
    apply writeAll_of_not_mem
    intro v hv
    obtain ⟨⟨k₁, v₁⟩, h₁, heq⟩ := List.mem_map.mp hv
    obtain ⟨rfl, rfl⟩ := Prod.mk.inj heq
    exact hnone v₁ h₁

theorem exists_lastLine_iff (lines : List (String × UInt16)) (value : UInt16) :
    (∃ entry, lastLine lines value = some entry) ↔ value ∈ lines.map Prod.snd := by
  rw [lastLine, ← Option.isSome_iff_exists, List.find?_isSome, List.mem_map]
  simp

/-- What lines write for a code: the last line with the code counts. -/
theorem writeAll_lines (lines : List (String × UInt16)) (value : UInt16) (name : List UInt8) :
    writeAll (lines.map fun entry => (entry.2.toUInt32, some (literal entry.1))) (fun _ => none)
        value.toUInt32 = some name ↔
      value ∈ lines.map Prod.snd ∧ name = lineName (lastLine lines value) := by
  have hkey : ∀ a b : UInt16, (a.toUInt32 == b.toUInt32) = (a == b) := fun a b => by
    rw [Bool.eq_iff_iff, beq_iff_eq, beq_iff_eq, ← UInt32.toNat_inj, ← UInt16.toNat_inj]
    rfl
  have hfind : writeAll (lines.map fun entry => (entry.2.toUInt32, some (literal entry.1)))
      (fun _ => none) value.toUInt32 = (lastLine lines value).map fun entry => literal entry.1 := by
    rw [writeAll_eq_find?, ← List.map_reverse, List.find?_map, lastLine]
    simp only [Function.comp_def, hkey]
    cases lines.reverse.find? fun entry => entry.2 == value <;> rfl
  rw [hfind, ← exists_lastLine_iff]
  cases lastLine lines value with
  | none => simp
  | some entry =>
    rw [Option.map_some, Option.some.injEq]
    exact ⟨fun h => ⟨⟨entry, rfl⟩, h.symm⟩, fun h => h.2.symm⟩

/-- What is written for a code. -/
theorem writeAll_values (value : UInt16) (name : List UInt8) :
    writeAll valueEntries (fun _ => none) value.toUInt32 = some name ↔
      value ∈ keyNames.map Prod.snd ∧ name = getInputName value :=
  writeAll_lines keyNames value name

theorem getInputName_of_not_mem {value : UInt16} (h : value ∉ keyNames.map Prod.snd) :
    getInputName value = literal "unknown_key_value" := by
  rw [← exists_lastLine_iff] at h
  unfold getInputName
  generalize lastLine keyNames value = line at h
  cases line with
  | none => rfl
  | some entry => exact absurd ⟨entry, rfl⟩ h

theorem NameTables.Holds.answers {t : NameTables}
    (h : t.Holds (nameEntries.map fun entry => (entry.1, some entry.2)) valueEntries) :
    t.Answers where
  inputValue name := by
    obtain ⟨x, hget, hx⟩ := khGet_isMap h.n2v name
    unfold NameTables.inputValue
    rw [hget]
    rw [writeAll_names] at hx
    rcases hx with ⟨rfl, hnone⟩ | ⟨hlive, -, hval⟩
    · have hmem : (name, getInputValue name) ∉ nameEntries := by
        intro hmem
        rw [if_pos hmem] at hnone
        exact absurd hnone (by simp)
      rcases getInputValue_cases name with hin | ⟨-, hzero⟩
      · exact absurd hin hmem
      · rw [hzero]
        exact congrArg some (if_pos rfl)
    · have hmem : (name, getInputValue name) ∈ nameEntries := by
        by_contra hmem
        rw [if_neg hmem] at hval
        exact absurd hval (by simp)
      rw [if_pos hmem] at hval
      exact (congrArg some (if_neg (Nat.ne_of_lt hlive.1))).trans hval.symm
  inputName value := by
    obtain ⟨x, hget, hx⟩ := khGet_isMap h.v2n value.toUInt32
    unfold NameTables.inputName
    rw [hget]
    rcases hx with ⟨rfl, hnone⟩ | ⟨hlive, -, hval⟩
    · have hmem : value ∉ keyNames.map Prod.snd := by
        intro hmem
        rw [(writeAll_values value _).mpr ⟨hmem, rfl⟩] at hnone
        exact absurd hnone (by simp)
      rw [getInputName_of_not_mem hmem]
      exact congrArg some (if_pos rfl)
    · rw [← ((writeAll_values value _).mp hval).2]
      exact congrArg some (if_neg (Nat.ne_of_lt hlive.1))
  eachName := by
    obtain ⟨hnodup, hentries⟩ := entries_isMap h.n2v
    refine ⟨hnodup, ?_⟩
    rintro ⟨name, value⟩
    rw [show t.forEachName = t.n2v.entries from rfl, hentries, writeAll_names]
    constructor
    · intro hwritten
      split at hwritten
      · rename_i hmem
        rwa [← Option.some.inj hwritten]
      · exact absurd hwritten (by simp)
    · intro hmem
      rcases getInputValue_cases name with hin | ⟨hnone, -⟩
      · rw [if_pos hin, nameEntries_functional hin hmem]
      · exact absurd hmem (hnone value)
  eachValue := by
    obtain ⟨hnodup, hentries⟩ := entries_isMap h.v2n
    -- Every code in the table is one of sixteen bits.
    have hcode : ∀ code name, (code, name) ∈ t.v2n.entries → ∃ value : UInt16,
        value ∈ keyNames.map Prod.snd ∧ code = value.toUInt32 := by
      intro code name hmem
      have hwritten := (hentries code name).mp hmem
      rcases writeAll_cases valueEntries (fun _ => none) code with hin | ⟨-, hnone⟩
      · obtain ⟨entry, hentry, heq⟩ := List.mem_map.mp hin
        exact ⟨entry.2, List.mem_map.mpr ⟨entry, hentry, rfl⟩, (congrArg Prod.fst heq).symm⟩
      · rw [hnone] at hwritten
        exact absurd hwritten (by simp)
    have hback : ∀ value : UInt16, value.toUInt32.toUInt16 = value := fun value => by simp
    constructor
    · rw [NameTables.forEachValue, List.map_map]
      have hmap : t.v2n.entries.map (Prod.snd ∘ fun entry => (entry.2, entry.1.toUInt16))
          = (t.v2n.entries.map Prod.fst).map UInt32.toUInt16 := by
        rw [List.map_map]
        rfl
      rw [hmap]
      apply List.Nodup.map_on _ hnodup
      intro a ha b hb hab
      obtain ⟨⟨a', na⟩, hina, rfl⟩ := List.mem_map.mp ha
      obtain ⟨⟨b', nb⟩, hinb, rfl⟩ := List.mem_map.mp hb
      obtain ⟨va, -, rfl⟩ := hcode _ _ hina
      obtain ⟨vb, -, rfl⟩ := hcode _ _ hinb
      rw [hback, hback] at hab
      rw [hab]
    · intro name value
      have hvisited : (name, value) ∈ t.forEachValue ↔ (value.toUInt32, name) ∈ t.v2n.entries := by
        rw [NameTables.forEachValue, List.mem_map]
        constructor
        · rintro ⟨⟨code, name'⟩, hin, heq⟩
          obtain ⟨rfl, rfl⟩ := Prod.mk.inj heq
          obtain ⟨v, -, rfl⟩ := hcode _ _ hin
          rwa [hback]
        · intro hin
          exact ⟨_, hin, by rw [hback]⟩
      rw [hvisited, hentries, writeAll_values]

/-- **The tables are the list of the names.** Whatever the allocations come to, `names_init`
    ends; it fails only if one of them does, and otherwise every lookup and every loop over the
    tables gives what the list of the `ADD_KEY` and `ADD_ALIAS` lines says. -/
theorem names_init_refines (alloc : NamesAlloc) :
    namesInit alloc = .error .noMemory ∧ alloc ≠ .ok ∨
      ∃ t, namesInit alloc = .ok t ∧ t.Answers := by
  rcases namesInit_holds alloc with hfailed | ⟨t, hinit, h⟩
  · exact Or.inl hfailed
  · exact Or.inr ⟨t, hinit, h.answers⟩

/-- With enough memory there are tables. -/
theorem namesInit_ok : ∃ t, namesInit .ok = .ok t := by
  rcases namesInit_holds .ok with ⟨-, hok⟩ | ⟨t, hinit, -⟩
  · exact absurd rfl hok
  · exact ⟨t, hinit⟩

/-- The tables of a successful `names_init`. -/
theorem namesInit_answers {alloc : NamesAlloc} {t : NameTables} (h : namesInit alloc = .ok t) :
    t.Answers := by
  rcases namesInit_holds alloc with ⟨hfailed, -⟩ | ⟨t', hinit, hholds⟩
  · rw [hfailed] at h
    exact absurd h (by simp)
  · rw [hinit] at h
    rw [← Except.ok.inj h]
    exact hholds.answers

/-! ### The script's variables -/

/-- **The script's variables.** When a script starts, `__config`, the functions and the modes are
    where `set_lua_globals` put them, the variable of every key name holds the code that the name
    has as the key of a keymap, and no other variable is set. -/
theorem lua_globals {alloc : NamesAlloc} {t : NameTables} (h : namesInit alloc = .ok t) :
    (∀ entry ∈ fixedGlobals, luaGlobals t entry.1 = entry.2) ∧
    (∀ entry ∈ inputNames, entry.2 = getInputValue (literal entry.1) ∧
      luaGlobals t (literal entry.1) = .integer (getInputValue (literal entry.1)).toNat) ∧
    ∀ name, luaGlobals t name ≠ .nil →
      name ∈ fixedGlobals.map Prod.fst ∨ name ∈ inputNames.map fun entry => literal entry.1 := by
  have hanswers := namesInit_answers h
  have hsplit := List.nodup_append.mp names_nodup
  -- The names do not hide the functions, and no name is set twice.
  have hfunctional : Functional (setLuaGlobals t) := by
    intro k v v' hv hv'
    have hcases : ∀ w, (k, w) ∈ setLuaGlobals t →
        (k, w) ∈ fixedGlobals ∨ ∃ n, (k, n) ∈ nameEntries ∧ w = .integer n.toNat := by
      intro w hw
      rcases List.mem_append.mp hw with hw | hw
      · exact Or.inl hw
      · obtain ⟨entry, hentry, heq⟩ := List.mem_map.mp hw
        obtain ⟨rfl, rfl⟩ := Prod.mk.inj heq
        exact Or.inr ⟨entry.2, (hanswers.eachName.2 entry).mp hentry, rfl⟩
    rcases hcases v hv with hfix | ⟨n, hn, rfl⟩
    · rcases hcases v' hv' with hfix' | ⟨n', hn', rfl⟩
      · exact congrArg Prod.snd (List.inj_on_of_nodup_map hsplit.1 hfix hfix' rfl)
      · exact absurd rfl (hsplit.2.2 k (List.mem_map.mpr ⟨_, hfix, rfl⟩) k
          (List.mem_map.mpr ⟨_, hn', rfl⟩))
    · rcases hcases v' hv' with hfix' | ⟨n', hn', rfl⟩
      · exact absurd rfl (hsplit.2.2 k (List.mem_map.mpr ⟨_, hfix', rfl⟩) k
          (List.mem_map.mpr ⟨_, hn, rfl⟩))
      · rw [nameEntries_functional hn hn']
  refine ⟨?_, ?_, ?_⟩
  · rintro ⟨name, v⟩ hentry
    exact hfunctional.writeAll_eq (List.mem_append_left _ hentry)
  · intro entry hentry
    have hmem : (literal entry.1, entry.2) ∈ nameEntries := List.mem_map.mpr ⟨entry, hentry, rfl⟩
    have hvalue : entry.2 = getInputValue (literal entry.1) := by
      rcases getInputValue_cases (literal entry.1) with hin | ⟨hnone, -⟩
      · exact nameEntries_functional hmem hin
      · exact absurd hmem (hnone _)
    refine ⟨hvalue, ?_⟩
    rw [← hvalue]
    exact hfunctional.writeAll_eq (List.mem_append_right _
      (List.mem_map.mpr ⟨_, (hanswers.eachName.2 _).mpr hmem, rfl⟩))
  · intro name hname
    rcases writeAll_cases (setLuaGlobals t) (fun _ => .nil) name with hin | ⟨-, hnil⟩
    · rcases List.mem_append.mp hin with hfix | heach
      · exact Or.inl (List.mem_map.mpr ⟨_, hfix, rfl⟩)
      · obtain ⟨entry, hentry, heq⟩ := List.mem_map.mp heach
        have hmem := (hanswers.eachName.2 entry).mp hentry
        obtain ⟨e, he, rfl⟩ := List.mem_map.mp hmem
        exact Or.inr (List.mem_map.mpr ⟨e, he, congrArg Prod.fst heq⟩)
    · exact absurd hnil hname

/-- The variables of a script when no allocation failed. -/
theorem lua_globals_ok : ∃ t, namesInit .ok = .ok t ∧
    luaGlobals t (literal "KEY_A") = .integer 30 := by
  obtain ⟨t, hinit⟩ := namesInit_ok
  have hmem : ("KEY_A", 30) ∈ inputNames := by decide +kernel
  obtain ⟨hvalue, hglobal⟩ := (lua_globals hinit).2.1 _ hmem
  rw [← hvalue] at hglobal
  exact ⟨t, hinit, hglobal⟩

end Sdiol
