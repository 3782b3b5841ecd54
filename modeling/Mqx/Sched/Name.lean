import Mathlib.Data.List.Basic
import Mathlib.Tactic

/-!
# Name tables

Model of `name.c` for one name handle. A handle is a chain of tables; a name is put into the
first free slot, or by index into a given one, and the chain grows by a table when the slot is
not there.
-/

namespace Mqx.Sched

open Function (update)

/-- `NAME_STRUCT`: the characters before the end of `NAME`, and `NUMBER`. A free slot has an
empty name. -/
structure NameSlot where
  name : List UInt8
  number : ℕ
deriving DecidableEq

/-- `NAME_MAX_NAME_SIZE`. -/
def nameMaxNameSize : ℕ := 32

/-- A table of the chain. Of its `NUMBER_IN_BLOCK` entries `names` are those inside the memory
block. -/
structure NameTable where
  maxNumber : ℕ
  totalNumber : ℕ
  numberInBlock : ℕ
  growNumber : ℕ
  names : List NameSlot

/-- A handle: the `NUMBER` of its base table, the chain and the bytes allocated for it. -/
structure NameComponent where
  number : ℕ
  tables : List NameTable
  allocated : ℕ

/-- `MQX_OK`, `MQX_OUT_OF_MEMORY` and the codes of the name component. -/
inductive NameStatus where
  | ok
  | outOfMemory
  | nameTableFull
  | nameExists
  | nameNotFound
  | nameTooShort
  | nameTooLong
deriving DecidableEq

/-- The size that is asked for: `sizeof(NAME_COMPONENT_STRUCT) + (n - 1) * sizeof(NAME_STRUCT)`,
with 92 and 36 bytes. -/
def tableBytes (n : ℕ) : ℕ := (56 + 36 * n) % 2 ^ 32

/-- `_name_create_handle_internal`. The blocks have different addresses of 32 bits, so their
sizes are together at most `2 ^ 32`; `granted` says whether the allocator has the memory. -/
def createTable (allocated : ℕ) (granted : Bool)
    (initialNumber growNumber maximumNumber totalSoFar : ℕ) : Option NameTable :=
  if granted = true ∧ allocated + tableBytes initialNumber ≤ 2 ^ 32 then
    some
      { maxNumber :=
          if maximumNumber = 0 then 2 ^ 32 - 1
          else if maximumNumber < initialNumber then initialNumber else maximumNumber
        totalNumber := totalSoFar
        numberInBlock := initialNumber
        growNumber := growNumber
        names := List.replicate ((tableBytes initialNumber - 56) / 36) ⟨[], 0⟩ }
  else none

/-- The table that is linked behind `last`, with the limits of a table of the chain. -/
def extend (limits last : NameTable) (allocated : ℕ) (granted : Bool) :
    Except NameStatus NameTable :=
  if limits.growNumber ≠ 0 ∧
      (last.totalNumber + limits.growNumber) % 2 ^ 32 ≤ limits.maxNumber then
    match createTable allocated granted limits.growNumber limits.growNumber limits.maxNumber
        ((last.totalNumber + limits.growNumber) % 2 ^ 32) with
    | none => .error .outOfMemory
    | some t => .ok t
  else .error .nameTableFull

/-- The loop through the chain for the first entry with a property, counted over the tables.
Without an outer result an entry outside its block is read. -/
def search (p : NameSlot → Bool) : List NameTable → ℕ → Option (Option ℕ)
  | [], _ => some none
  | t :: rest, base =>
    match (t.names.take t.numberInBlock).findIdx? p with
    | some i => some (some (base + i))
    | none =>
      if t.names.length < t.numberInBlock then none else search p rest (base + t.numberInBlock)

/-- The entry with an index, inside its block. -/
def getSlot : List NameTable → ℕ → Option NameSlot
  | [], _ => none
  | t :: rest, index =>
    if index < t.numberInBlock then t.names[index]? else getSlot rest (index - t.numberInBlock)

/-- Writing the entry with an index. -/
def setSlot : List NameTable → ℕ → NameSlot → Option (List NameTable)
  | [], _, _ => none
  | t :: rest, index, slot =>
    if index < t.numberInBlock then
      if index < t.names.length then some ({ t with names := t.names.set index slot } :: rest)
      else none
    else (setSlot rest (index - t.numberInBlock) slot).map (t :: ·)

/-- The walk by index comes to the end of the chain. -/
def beyond : List NameTable → ℕ → Bool
  | [], _ => true
  | t :: rest, index =>
    if index < t.numberInBlock then false else beyond rest (index - t.numberInBlock)

/-- `strncmp` of an occupied entry with a name, over `NAME_MAX_NAME_SIZE - 1` characters. -/
def NameSlot.holds (name : List UInt8) (s : NameSlot) : Bool :=
  s.name ≠ [] ∧ s.name.take (nameMaxNameSize - 1) = name.take (nameMaxNameSize - 1)

def NameSlot.free (s : NameSlot) : Bool := s.name = []

/-- The checks of a name. -/
def checkName (name : List UInt8) : Option NameStatus :=
  if name = [] then some .nameTooShort
  else if name.length ≥ nameMaxNameSize then some .nameTooLong
  else none

namespace NameComponent

/-- A new handle. -/
def create (initialNumber growNumber maximumNumber : ℕ) (granted : Bool) : Option NameComponent :=
  (createTable 0 granted initialNumber growNumber maximumNumber initialNumber).map fun t =>
    { number := 0, tables := [t], allocated := tableBytes initialNumber }

/-- A name and its number are stored, and counted in the base table. -/
def occupy (c : NameComponent) (index : ℕ) (name : List UInt8) (number : ℕ) :
    Option NameComponent :=
  (setSlot c.tables index ⟨name.take (nameMaxNameSize - 1), number⟩).map fun tables =>
    { c with tables := tables, number := (c.number + 1) % 2 ^ 32 }

/-- An entry is freed. -/
def vacate (c : NameComponent) (index : ℕ) : Option NameComponent :=
  (setSlot c.tables index ⟨[], 0⟩).map fun tables =>
    { c with tables := tables, number := (c.number + 2 ^ 32 - 1) % 2 ^ 32 }

/-- The number of entries of the chain. -/
def capacity (c : NameComponent) : ℕ := (c.tables.map NameTable.numberInBlock).sum

/-- `_name_add_internal` without a free entry: the limits are those of the base table, and the
name goes into the first entry of the new one. -/
def addGrowing (c : NameComponent) (name : List UInt8) (number : ℕ) (granted : Bool) :
    Option (NameComponent × NameStatus) :=
  match c.tables.head?, c.tables.getLast? with
  | some base, some last =>
    match extend base last c.allocated granted with
    | .error e => some (c, e)
    | .ok t =>
      (occupy { c with
        tables := c.tables ++ [t]
        allocated := c.allocated + tableBytes base.growNumber } c.capacity name number).map
          fun c => (c, .ok)
  | _, _ => none

/-- `_name_add_internal`. The source looks for the name and the first free entry in one loop. -/
def add (c : NameComponent) (name : List UInt8) (number : ℕ) (granted : Bool) :
    Option (NameComponent × NameStatus) :=
  match checkName name with
  | some e => some (c, e)
  | none =>
    match search (NameSlot.holds name) c.tables 0 with
    | none => none
    | some (some _) => some (c, .nameExists)
    | some none =>
      match search NameSlot.free c.tables 0 with
      | none => none
      | some (some index) => (c.occupy index name number).map fun c => (c, .ok)
      | some none => c.addGrowing name number granted

/-- The loop of `_name_add_internal_by_index` from a table of the chain on, and the storing of
the entry. The `k`-th allocation of the call succeeds when `granted k`. -/
def addByIndexLoop (granted : ℕ → Bool) (slot : NameSlot) :
    ℕ → ℕ → List NameTable → ℕ → ℕ → Option (List NameTable × ℕ × NameStatus)
  | 0, _, _, _, _ => none
  | _ + 1, _, [], _, _ => none
  | fuel + 1, k, t :: rest, allocated, index =>
    if index < t.numberInBlock then
      match t.names[index]? with
      | none => none
      | some s =>
        if s.name = [] then
          some ({ t with names := t.names.set index slot } :: rest, allocated, .ok)
        else some (t :: rest, allocated, .nameExists)
    else
      match rest with
      | t' :: rest' =>
        (addByIndexLoop granted slot fuel k (t' :: rest') allocated
          (index - t.numberInBlock)).map fun r => (t :: r.1, r.2)
      | [] =>
        match extend t t allocated (granted k) with
        | .error e => some ([t], allocated, e)
        | .ok t' =>
          (addByIndexLoop granted slot fuel (k + 1) [t'] (allocated + tableBytes t.growNumber)
            (index - t.numberInBlock)).map fun r => (t :: r.1, r.2)

/-- `_name_add_internal_by_index`. -/
def addByIndex (c : NameComponent) (name : List UInt8) (number index : ℕ) (granted : ℕ → Bool) :
    Option (NameComponent × NameStatus) :=
  (addByIndexLoop granted ⟨name.take (nameMaxNameSize - 1), number⟩
    (c.tables.length + index + 2) 0 c.tables c.allocated index).map fun r =>
      ({ tables := r.1
         allocated := r.2.1
         number := if r.2.2 = .ok then (c.number + 1) % 2 ^ 32 else c.number }, r.2.2)

/-- `_name_delete_internal`. -/
def delete (c : NameComponent) (name : List UInt8) : Option (NameComponent × NameStatus) :=
  match checkName name with
  | some e => some (c, e)
  | none =>
    match search (NameSlot.holds name) c.tables 0 with
    | none => none
    | some none => some (c, .nameNotFound)
    | some (some index) => (c.vacate index).map fun c => (c, .ok)

/-- `_name_delete_internal_by_index`, which returns `MQX_OK` whatever it finds. -/
def deleteByIndex (c : NameComponent) (index : ℕ) : Option (NameComponent × NameStatus) :=
  if beyond c.tables index then some (c, .ok) else (c.vacate index).map fun c => (c, .ok)

/-- `_name_find_internal`. -/
def find (c : NameComponent) (name : List UInt8) : Option (Except NameStatus ℕ) :=
  match checkName name with
  | some e => some (.error e)
  | none =>
    match search (NameSlot.holds name) c.tables 0 with
    | none => none
    | some none => some (.error .nameNotFound)
    | some (some index) => (getSlot c.tables index).map fun s => .ok s.number

/-- `_name_find_internal_by_index`. -/
def findByIndex (c : NameComponent) (index : ℕ) : Option (Except NameStatus ℕ) :=
  if beyond c.tables index then some (.error .nameNotFound)
  else (getSlot c.tables index).map fun s =>
    if s.name = [] then .error .nameNotFound else .ok s.number

end NameComponent

/-- The calls that change a handle. -/
inductive NameOp where
  | add (name : List UInt8) (number : ℕ) (granted : Bool)
  | addByIndex (name : List UInt8) (number index : ℕ) (granted : ℕ → Bool)
  | delete (name : List UInt8)
  | deleteByIndex (index : ℕ)

/-- The purpose of a handle: numbers with names, in numbered places. -/
abbrev NameMap := ℕ → Option (List UInt8 × ℕ)

namespace NameMap

/-- What a call may do to the map, by its status: store a new name in a free place, take a name
away, or nothing. -/
inductive Step (m : NameMap) : NameOp → NameStatus → NameMap → Prop where
  | added {name : List UInt8} {number i : ℕ} {granted : Bool} :
      (∀ j n, m j ≠ some (name, n)) → m i = none →
        Step m (.add name number granted) .ok (update m i (some (name, number)))
  | addedAt {name : List UInt8} {number i : ℕ} {granted : ℕ → Bool} :
      (∀ j n, m j ≠ some (name, n)) → m i = none →
        Step m (.addByIndex name number i granted) .ok (update m i (some (name, number)))
  | deleted {name : List UInt8} {i n : ℕ} : m i = some (name, n) →
      Step m (.delete name) .ok (update m i none)
  | deletedAt {i : ℕ} {e : List UInt8 × ℕ} : m i = some e →
      Step m (.deleteByIndex i) .ok (update m i none)
  | refused {op : NameOp} {st : NameStatus} : st ≠ .ok → Step m op st m

/-- What a sequence of calls does. -/
inductive Run : NameMap → List NameOp → List NameStatus → NameMap → Prop where
  | nil {m : NameMap} : Run m [] [] m
  | cons {m m' m'' : NameMap} {op : NameOp} {st : NameStatus} {ops : List NameOp}
      {sts : List NameStatus} : Step m op st m' → Run m' ops sts m'' →
        Run m (op :: ops) (st :: sts) m''

end NameMap

namespace NameComponent

def apply (c : NameComponent) : NameOp → Option (NameComponent × NameStatus)
  | .add name number granted => c.add name number granted
  | .addByIndex name number index granted => c.addByIndex name number index granted
  | .delete name => c.delete name
  | .deleteByIndex index => c.deleteByIndex index

/-- The handle after the calls, and their statuses. -/
def run : NameComponent → List NameOp → Option (NameComponent × List NameStatus)
  | c, [] => some (c, [])
  | c, op :: ops =>
    match c.apply op with
    | none => none
    | some (c, st) => (run c ops).map fun r => (r.1, st :: r.2)

/-- The entries of the chain. -/
def slots (tables : List NameTable) : List NameSlot := tables.flatMap NameTable.names

/-- The place of a map that an entry stands for. -/
def entryOf (l : List NameSlot) : NameMap := fun i =>
  l[i]?.bind fun s => if s.name = [] then none else some (s.name, s.number)

/-- The map that a handle stands for. -/
def entry (c : NameComponent) : NameMap := entryOf (slots c.tables)

/-- The limits that all tables carry. -/
def growNumber (c : NameComponent) : ℕ := (c.tables.head?.map NameTable.growNumber).getD 0

def maxNumber (c : NameComponent) : ℕ := (c.tables.head?.map NameTable.maxNumber).getD 0

/-- A growth asks for a size below `2 ^ 32`, or is refused. -/
def GrowthFits (c : NameComponent) : Prop :=
  56 + 36 * c.growNumber < 2 ^ 32 ∨ c.maxNumber < (c.capacity + c.growNumber) % 2 ^ 32

/-- A call by index comes to the place: it is there, or the limits and the allocations of the
call let the chain grow to it. -/
def Comes (c : NameComponent) (index : ℕ) (granted : ℕ → Bool) : Prop :=
  index < c.capacity ∨ 0 < c.growNumber ∧
    c.capacity + ((index - c.capacity) / c.growNumber + 1) * c.growNumber ≤ c.maxNumber ∧
      ∀ j ≤ (index - c.capacity) / c.growNumber, granted j = true

/-- A chain that has to grow asks for a size below `2 ^ 32`; a name added by index to a free place
is a proper one that is not in the map; and a place emptied by index is occupied. -/
def Regular (c : NameComponent) : NameOp → Prop
  | .add name _ _ => checkName name = none → (∀ j n, c.entry j ≠ some (name, n)) →
      (∀ i < c.capacity, c.entry i ≠ none) → c.GrowthFits
  | .addByIndex name _ index granted => (c.capacity ≤ index → c.GrowthFits) ∧
      (c.entry index = none → c.Comes index granted →
        checkName name = none ∧ ∀ j n, c.entry j ≠ some (name, n))
  | .delete _ => True
  | .deleteByIndex index => c.entry index ≠ none

/-- A run all of whose calls meet the condition. -/
def RegularRun : NameComponent → List NameOp → Prop
  | _, [] => True
  | c, op :: ops => c.Regular op ∧ ∀ c' st, c.apply op = some (c', st) → RegularRun c' ops

variable {l : List NameSlot} {tables : List NameTable} {slot : NameSlot} {name : List UInt8}
  {g m before i j n : ℕ}

/-! ## Entries -/

theorem entryOf_eq_some {e : List UInt8 × ℕ} :
    entryOf l i = some e ↔
      ∃ s, l[i]? = some s ∧ s.name ≠ [] ∧ (s.name, s.number) = e := by
  unfold entryOf
  rw [Option.bind_eq_some_iff]
  constructor
  · rintro ⟨s, hs, he⟩
    by_cases hfree : s.name = []
    · simp [hfree] at he
    · exact ⟨s, hs, hfree, by simpa [hfree] using he⟩
  · rintro ⟨s, hs, hfree, he⟩
    exact ⟨s, hs, by simpa [hfree] using he⟩

theorem entryOf_eq_none (hi : i < l.length) : entryOf l i = none ↔ l[i].name = [] := by
  unfold entryOf
  rw [List.getElem?_eq_getElem hi, Option.bind_some]
  by_cases hfree : l[i].name = [] <;> simp [hfree]

theorem entryOf_beyond (hi : l.length ≤ i) : entryOf l i = none := by
  simp [entryOf, List.getElem?_eq_none hi]

/-- The entries of a new table. -/
def freeSlots (n : ℕ) : List NameSlot := List.replicate n ⟨[], 0⟩

theorem freeSlots_append (n n' : ℕ) : freeSlots n ++ freeSlots n' = freeSlots (n + n') :=
  List.replicate_append_replicate

/-- Free entries behind the others. -/
theorem entryOf_append_free (l : List NameSlot) (n : ℕ) :
    entryOf (l ++ freeSlots n) = entryOf l := by
  funext i
  by_cases hi : i < l.length
  · simp [entryOf, List.getElem?_append_left hi]
  · have hle : l.length ≤ i := by omega
    rw [entryOf_beyond hle]
    unfold entryOf
    rw [List.getElem?_append_right hle, freeSlots, List.getElem?_replicate]
    by_cases hn : i - l.length < n <;> simp [hn]

theorem entryOf_append_right (l l' : List NameSlot) (hi : l.length ≤ i) :
    entryOf (l ++ l') i = entryOf l' (i - l.length) := by
  rw [entryOf, List.getElem?_append_right hi, entryOf]

theorem entryOf_set (hi : i < l.length) (s : NameSlot) :
    entryOf (l.set i s) =
      update (entryOf l) i (if s.name = [] then none else some (s.name, s.number)) := by
  funext j
  by_cases hj : j = i
  · subst hj
    simp [entryOf, hi]
  · simp [entryOf, hj, List.getElem?_set_ne (Ne.symm hj)]

theorem checkName_none : checkName name = none ↔ name ≠ [] ∧ name.length ≤ 31 := by
  unfold checkName nameMaxNameSize
  by_cases hname : name = []
  · simp [hname]
  · by_cases hlen : name.length ≥ 32
    · simp [hname, hlen]
      omega
    · simp [hname, hlen]
      omega

/-- The search for a proper name among entries that have proper ones. -/
theorem holds_iff (hname : checkName name = none) {s : NameSlot} (hs : s.name.length ≤ 31) :
    s.holds name = true ↔ s.name = name := by
  obtain ⟨hne, hlen⟩ := checkName_none.mp hname
  unfold NameSlot.holds nameMaxNameSize
  rw [decide_eq_true_iff, List.take_of_length_le hs, List.take_of_length_le hlen]
  constructor
  · exact fun h => h.2
  · rintro rfl
    exact ⟨hne, rfl⟩

theorem find_holds (hname : checkName name = none) (hshort : ∀ s ∈ l, s.name.length ≤ 31)
    (h : l.findIdx? (NameSlot.holds name) = some i) :
    ∃ hi : i < l.length, entryOf l i = some (name, l[i].number) := by
  obtain ⟨hi, hp, -⟩ := List.findIdx?_eq_some_iff_getElem.mp h
  have he := (holds_iff hname (hshort _ (List.getElem_mem hi))).mp hp
  refine ⟨hi, entryOf_eq_some.mpr ⟨l[i], List.getElem?_eq_getElem hi, ?_, by rw [he]⟩⟩
  rw [he]
  exact (checkName_none.mp hname).1

theorem find_not_holds (hname : checkName name = none) (hshort : ∀ s ∈ l, s.name.length ≤ 31)
    (h : l.findIdx? (NameSlot.holds name) = none) : ∀ j n, entryOf l j ≠ some (name, n) := by
  intro j n hj
  obtain ⟨s, hs, -, he⟩ := entryOf_eq_some.mp hj
  have hmem := List.mem_of_getElem? hs
  have hno := List.findIdx?_eq_none_iff.mp h s hmem
  have hyes := (holds_iff hname (hshort s hmem)).mpr (Prod.mk.inj he).1
  exact absurd (hyes.symm.trans hno) (by simp)

theorem find_free (h : l.findIdx? NameSlot.free = some i) : i < l.length ∧ entryOf l i = none := by
  obtain ⟨hi, hp, -⟩ := List.findIdx?_eq_some_iff_getElem.mp h
  exact ⟨hi, (entryOf_eq_none hi).mpr (by simpa [NameSlot.free] using hp)⟩

theorem find_not_free (h : l.findIdx? NameSlot.free = none) :
    ∀ i < l.length, entryOf l i ≠ none := by
  intro i hi hnone
  have hno := List.findIdx?_eq_none_iff.mp h l[i] (List.getElem_mem hi)
  simp [NameSlot.free, (entryOf_eq_none hi).mp hnone] at hno

/-- The number of occupied entries. -/
def occupied (l : List NameSlot) : ℕ := l.countP fun s => s.name ≠ []

theorem occupied_store {s : NameSlot} (hi : i < l.length) (hfree : entryOf l i = none) (hs : s.name ≠ []) :
    occupied (l.set i s) = occupied l + 1 := by
  have hname := (entryOf_eq_none hi).mp hfree
  simp [occupied, List.countP_set, hi, hname, hs]

theorem occupied_clear (hi : i < l.length) (hfull : entryOf l i ≠ none) :
    occupied (l.set i ⟨[], 0⟩) + 1 = occupied l := by
  have hname : l[i].name ≠ [] := fun h => hfull ((entryOf_eq_none hi).mpr h)
  have hpos : 0 < occupied l := List.countP_pos_iff.mpr ⟨l[i], List.getElem_mem hi, by simpa⟩
  have hcount : occupied (l.set i ⟨[], 0⟩) = occupied l - 1 := by
    simp [occupied, List.countP_set, hi, hname]
  omega

/-! ## The chain -/

/-- The tables of a chain: all carry the same limits, and the sizes agree with the memory. -/
def Linked (g m : ℕ) : ℕ → List NameTable → Prop
  | _, [] => True
  | before, t :: rest => t.growNumber = g ∧ t.maxNumber = m ∧ t.names.length = t.numberInBlock ∧
      t.totalNumber = before + t.numberInBlock ∧ (∀ t' ∈ rest, 0 < t'.numberInBlock) ∧
        Linked g m t.totalNumber rest

theorem slots_cons (t : NameTable) (rest : List NameTable) :
    slots (t :: rest) = t.names ++ slots rest := rfl

theorem slots_append (tables tables' : List NameTable) :
    slots (tables ++ tables') = slots tables ++ slots tables' := List.flatMap_append

theorem Linked.search (h : Linked g m before tables) (p : NameSlot → Bool) (base : ℕ) :
    search p tables base = some (((slots tables).findIdx? p).map (base + ·)) := by
  induction tables generalizing before base with
  | nil => rfl
  | cons t rest ih =>
    obtain ⟨-, -, hlen, -, -, hrest⟩ := h
    rw [Mqx.Sched.search, slots_cons, List.findIdx?_append,
      List.take_of_length_le (Nat.le_of_eq hlen)]
    cases hfind : t.names.findIdx? p with
    | some i => simp
    | none =>
      simp only [if_neg (by omega : ¬ t.names.length < t.numberInBlock), ih hrest]
      simp only [Option.none_or, Option.map_map]
      congr 2
      funext i
      simp only [Function.comp_apply]
      omega

theorem Linked.getSlot (h : Linked g m before tables) (i : ℕ) :
    getSlot tables i = (slots tables)[i]? := by
  induction tables generalizing before i with
  | nil => rfl
  | cons t rest ih =>
    obtain ⟨-, -, hlen, -, -, hrest⟩ := h
    rw [Mqx.Sched.getSlot, slots_cons]
    by_cases hi : i < t.numberInBlock
    · rw [if_pos hi, List.getElem?_append_left (by omega)]
    · rw [if_neg hi, List.getElem?_append_right (by omega), ih hrest, hlen]

theorem Linked.beyond (h : Linked g m before tables) (i : ℕ) :
    beyond tables i = true ↔ (slots tables).length ≤ i := by
  induction tables generalizing before i with
  | nil => simp [Mqx.Sched.beyond, slots]
  | cons t rest ih =>
    obtain ⟨-, -, hlen, -, -, hrest⟩ := h
    rw [Mqx.Sched.beyond, slots_cons, List.length_append, hlen]
    by_cases hi : i < t.numberInBlock
    · rw [if_pos hi]
      simp only [Bool.false_eq_true, false_iff]
      omega
    · rw [if_neg hi, ih hrest]
      omega

theorem Linked.setSlot (h : Linked g m before tables) (hi : i < (slots tables).length)
    (slot : NameSlot) :
    ∃ tables', setSlot tables i slot = some tables' ∧ Linked g m before tables' ∧
      slots tables' = (slots tables).set i slot ∧
      tables'.map NameTable.numberInBlock = tables.map NameTable.numberInBlock := by
  induction tables generalizing before i with
  | nil => simp [slots] at hi
  | cons t rest ih =>
    obtain ⟨hg, hm, hlen, htotal, hpos, hrest⟩ := h
    rw [slots_cons, List.length_append] at hi
    rw [Mqx.Sched.setSlot, slots_cons]
    by_cases hlt : i < t.numberInBlock
    · rw [if_pos hlt, if_pos (by omega)]
      refine ⟨_, rfl, ⟨hg, hm, by simpa using hlen, htotal, hpos, hrest⟩, ?_, by simp⟩
      rw [slots_cons, List.set_append_left _ _ (by omega)]
    · rw [if_neg hlt]
      obtain ⟨rest', hset, hlinked, hslots, hmap⟩ := ih hrest (i := i - t.numberInBlock) (by omega)
      refine ⟨t :: rest', by rw [hset]; rfl, ⟨hg, hm, hlen, htotal, ?_, hlinked⟩, ?_,
        by simp [hmap]⟩
      · intro t' ht'
        have hmem : t'.numberInBlock ∈ rest.map NameTable.numberInBlock :=
          hmap ▸ List.mem_map_of_mem ht'
        obtain ⟨u, hu, hut⟩ := List.mem_map.mp hmem
        exact hut ▸ hpos u hu
      · rw [slots_cons, hslots, List.set_append_right _ _ (by omega), hlen]

theorem Linked.capacity (h : Linked g m before tables) :
    (tables.map NameTable.numberInBlock).sum = (slots tables).length := by
  induction tables generalizing before with
  | nil => rfl
  | cons t rest ih =>
    obtain ⟨-, -, hlen, -, -, hrest⟩ := h
    rw [slots_cons, List.map_cons, List.sum_cons, List.length_append, ih hrest, hlen]

theorem Linked.last (h : Linked g m before tables) {t : NameTable}
    (ht : tables.getLast? = some t) :
    t.growNumber = g ∧ t.maxNumber = m ∧ t.totalNumber = before + (slots tables).length := by
  induction tables generalizing before with
  | nil => simp at ht
  | cons u rest ih =>
    obtain ⟨hg, hm, hlen, htotal, -, hrest⟩ := h
    cases rest with
    | nil =>
      obtain rfl : u = t := by simpa using ht
      exact ⟨hg, hm, by simp [slots, hlen, htotal]⟩
    | cons v rest =>
      obtain ⟨hg', hm', htotal'⟩ := ih hrest (by simpa using ht)
      refine ⟨hg', hm', ?_⟩
      rw [htotal', htotal, slots_cons u, List.length_append, hlen]
      omega

/-- A table behind the last one. -/
theorem Linked.append (h : Linked g m before tables) {t : NameTable} (hg : t.growNumber = g)
    (hm : t.maxNumber = m) (hlen : t.names.length = t.numberInBlock) (hpos : 0 < t.numberInBlock)
    (htotal : t.totalNumber = before + (slots tables).length + t.numberInBlock) :
    Linked g m before (tables ++ [t]) := by
  induction tables generalizing before with
  | nil =>
    refine ⟨hg, hm, hlen, ?_, by simp, trivial⟩
    simpa [slots] using htotal
  | cons u rest ih =>
    obtain ⟨hg', hm', hlen', htotal', hpos', hrest⟩ := h
    refine ⟨hg', hm', hlen', htotal', ?_, ?_⟩
    · intro t' ht'
      rcases List.mem_append.mp ht' with ht' | ht'
      · exact hpos' t' ht'
      · rw [List.mem_singleton.mp ht']
        exact hpos
    · refine ih hrest ?_
      rw [htotal, htotal', slots_cons, List.length_append, hlen']
      omega

/-! ## Growth -/

/-- The room of a chain: its entries are within the limit and in the memory. -/
structure Room (m total allocated : ℕ) : Prop where
  below : total ≤ m
  limit : m < 2 ^ 32
  bytes : 56 + 36 * total ≤ allocated
  memory : allocated ≤ 2 ^ 32

/-- A growth is refused, or adds a table with free entries. -/
theorem extend_spec {limits last : NameTable} {allocated : ℕ} (hg : limits.growNumber = g)
    (hm : limits.maxNumber = m) (hroom : Room m last.totalNumber allocated)
    (hfits : 56 + 36 * g < 2 ^ 32 ∨ m < (last.totalNumber + g) % 2 ^ 32) (granted : Bool) :
    (∃ e, extend limits last allocated granted = .error e ∧ e ≠ .ok) ∨
      ∃ t, extend limits last allocated granted = .ok t ∧ granted = true ∧ 0 < g ∧
        Room m (last.totalNumber + g) (allocated + tableBytes g) ∧ t.growNumber = g ∧
        t.maxNumber = m ∧ t.numberInBlock = g ∧ t.totalNumber = last.totalNumber + g ∧
        t.names = freeSlots g := by
  obtain ⟨htotal, hlimit, hbytes, hmemory⟩ := hroom
  unfold extend
  rw [hg, hm]
  by_cases hgrow : g ≠ 0 ∧ (last.totalNumber + g) % 2 ^ 32 ≤ m
  case neg =>
    rw [if_neg hgrow]
    exact Or.inl ⟨_, rfl, by decide⟩
  rw [if_pos hgrow]
  have hsize : 56 + 36 * g < 2 ^ 32 := by
    rcases hfits with hfits | hfits
    · exact hfits
    · omega
  have htable : tableBytes g = 56 + 36 * g := Nat.mod_eq_of_lt hsize
  have hsum : (last.totalNumber + g) % 2 ^ 32 = last.totalNumber + g :=
    Nat.mod_eq_of_lt (by omega)
  rw [hsum] at hgrow ⊢
  unfold createTable
  rw [htable]
  by_cases hgranted : granted = true ∧ allocated + (56 + 36 * g) ≤ 2 ^ 32
  · rw [if_pos hgranted]
    refine Or.inr ⟨_, rfl, hgranted.1, by omega, ⟨hgrow.2, hlimit, by omega, hgranted.2⟩, rfl, ?_,
      rfl, rfl, ?_⟩
    · simp only
      rw [if_neg (by omega), if_neg (by omega)]
    · simp only
      congr 1
      omega
  · rw [if_neg hgranted]
    exact Or.inl ⟨_, rfl, by decide⟩

/-- One growth more. -/
theorem comes_succ {total k d : ℕ} {granted : ℕ → Bool} (hg : 0 < g) (hbelow : total + g ≤ m)
    (hgranted : granted k = true)
    (h : d < g ∨ 0 < g ∧ total + g + ((d - g) / g + 1) * g ≤ m ∧
      ∀ j ≤ (d - g) / g, granted (k + 1 + j) = true) :
    total + (d / g + 1) * g ≤ m ∧ ∀ j ≤ d / g, granted (k + j) = true := by
  by_cases hd : d < g
  · rw [Nat.div_eq_of_lt hd]
    refine ⟨by omega, fun j hj => ?_⟩
    obtain rfl : j = 0 := by omega
    exact hgranted
  · obtain ⟨-, hsum, hall⟩ := h.resolve_left hd
    rw [Nat.div_eq_sub_div hg (by omega)]
    refine ⟨?_, fun j hj => ?_⟩
    · rw [Nat.add_mul ((d - g) / g + 1) 1 g]
      omega
    · cases j with
      | zero => exact hgranted
      | succ j =>
        have hk : k + (j + 1) = k + 1 + j := by omega
        rw [hk]
        exact hall j (by omega)

theorem addByIndexLoop_here (granted : ℕ → Bool) (slot : NameSlot) (fuel k : ℕ) (t : NameTable)
    (rest : List NameTable) (allocated : ℕ) {index : ℕ} (hlt : index < t.numberInBlock)
    (hi : index < t.names.length) :
    addByIndexLoop granted slot (fuel + 1) k (t :: rest) allocated index =
      if t.names[index].name = [] then
        some ({ t with names := t.names.set index slot } :: rest, allocated, .ok)
      else some (t :: rest, allocated, .nameExists) := by
  unfold addByIndexLoop
  rw [if_pos hlt, List.getElem?_eq_getElem hi]

theorem addByIndexLoop_next (granted : ℕ → Bool) (slot : NameSlot) (fuel k : ℕ) (t t' : NameTable)
    (rest : List NameTable) (allocated : ℕ) {index : ℕ} (hlt : ¬ index < t.numberInBlock) :
    addByIndexLoop granted slot (fuel + 1) k (t :: t' :: rest) allocated index =
      (addByIndexLoop granted slot fuel k (t' :: rest) allocated (index - t.numberInBlock)).map
        fun r => (t :: r.1, r.2) := by
  rw [addByIndexLoop, if_neg hlt]

theorem addByIndexLoop_last (granted : ℕ → Bool) (slot : NameSlot) (fuel k : ℕ) (t : NameTable)
    (allocated : ℕ) {index : ℕ} (hlt : ¬ index < t.numberInBlock) :
    addByIndexLoop granted slot (fuel + 1) k [t] allocated index =
      match extend t t allocated (granted k) with
      | .error e => some ([t], allocated, e)
      | .ok t' =>
        (addByIndexLoop granted slot fuel (k + 1) [t'] (allocated + tableBytes t.growNumber)
          (index - t.numberInBlock)).map fun r => (t :: r.1, r.2) := by
  rw [addByIndexLoop, if_neg hlt]

/-- What the walk of `_name_add_internal_by_index` does from a table on: it may grow the chain,
and stores the entry in a free place or nowhere. -/
theorem addByIndexLoop_spec (granted : ℕ → Bool) (slot : NameSlot) {fuel k allocated i : ℕ}
    (hlinked : Linked g m before tables) (hne : tables ≠ [])
    (hroom : Room m (before + (slots tables).length) allocated)
    (hfits : (slots tables).length ≤ i →
      56 + 36 * g < 2 ^ 32 ∨ m < (before + (slots tables).length + g) % 2 ^ 32)
    (hfuel : tables.length + i + (if (tables.head hne).numberInBlock = 0 then 2 else 1) ≤
      fuel) :
    ∃ tables' allocated' st n,
      addByIndexLoop granted slot fuel k tables allocated i = some (tables', allocated', st) ∧
      tables' ≠ [] ∧ Linked g m before tables' ∧
      ((∀ t ∈ tables, 0 < t.numberInBlock) → ∀ t ∈ tables', 0 < t.numberInBlock) ∧
      Room m (before + (slots tables).length + n) allocated' ∧
      (st ≠ .ok ∧ slots tables' = slots tables ++ freeSlots n ∨
        st = .ok ∧ i < (slots tables).length + n ∧
          entryOf (slots tables) i = none ∧
          slots tables' = (slots tables ++ freeSlots n).set i slot ∧
          (i < (slots tables).length ∨ 0 < g ∧ before + (slots tables).length +
            ((i - (slots tables).length) / g + 1) * g ≤ m ∧
            ∀ j ≤ (i - (slots tables).length) / g, granted (k + j) = true)) := by
  induction fuel generalizing k tables before allocated i with
  | zero =>
    have hpos := List.length_pos_iff.mpr hne
    omega
  | succ fuel ih =>
    cases tables with
    | nil => exact absurd rfl hne
    | cons t rest =>
      obtain ⟨hg, hm, hlen, htotal, hpos, hrest⟩ := hlinked
      rw [List.length_cons, List.head_cons] at hfuel
      have hsum : (slots (t :: rest)).length = t.numberInBlock + (slots rest).length := by
        rw [slots_cons, List.length_append, hlen]
      have hsame : before + (slots (t :: rest)).length = t.totalNumber + (slots rest).length := by
        omega
      by_cases hlt : i < t.numberInBlock
      · have hi : i < t.names.length := by omega
        have hi' : i < (slots (t :: rest)).length := by
          rw [slots_cons, List.length_append]
          omega
        have hget : (slots (t :: rest))[i] = t.names[i] := by
          simp only [slots_cons, List.getElem_append_left hi]
        rw [addByIndexLoop_here granted slot fuel k t rest allocated hlt hi]
        by_cases hfree : t.names[i].name = []
        · simp only [hfree, if_true]
          refine ⟨_, _, _, 0, rfl, by simp, ⟨hg, hm, by simpa using hlen, htotal, hpos, hrest⟩,
            by simp, hroom, Or.inr ⟨rfl, hi', ?_, ?_, Or.inl hi'⟩⟩
          · exact (entryOf_eq_none hi').mpr (hget ▸ hfree)
          · simp only [slots_cons, freeSlots, List.replicate_zero, List.append_nil]
            rw [List.set_append_left _ _ hi]
        · simp only [hfree, if_false]
          exact ⟨_, _, _, 0, rfl, by simp, ⟨hg, hm, hlen, htotal, hpos, hrest⟩, fun h => h,
            hroom, Or.inl ⟨by decide, by simp [freeSlots]⟩⟩
      · cases rest with
        | cons t' rest' =>
          have hpos' : 0 < t'.numberInBlock := hpos t' (by simp)
          obtain ⟨tables', allocated', st, n, hloop, hne', hlinked', hpositive, hroom', hend⟩ :=
            ih (k := k) (i := i - t.numberInBlock) hrest (by simp) (hsame ▸ hroom)
              (fun hle => hsame ▸ hfits (by omega)) (by
                rw [List.head_cons, if_neg (by omega)]
                split_ifs at hfuel <;> omega)
          refine ⟨t :: tables', allocated', st, n, ?_, by simp,
            ⟨hg, hm, hlen, htotal, hpositive hpos, hlinked'⟩, ?_, hsame ▸ hroom', ?_⟩
          · rw [addByIndexLoop_next granted slot fuel k t t' rest' allocated hlt, hloop]
            rfl
          · intro hall u hu
            rcases List.mem_cons.mp hu with rfl | hu
            · exact hall u (by simp)
            · exact hpositive hpos u hu
          · have hindex : i - (slots (t :: t' :: rest')).length =
                i - t.numberInBlock - (slots (t' :: rest')).length := by omega
            rw [hindex, hsame]
            rcases hend with ⟨hst, hslots⟩ | ⟨hst, hlt', hfree, hslots, hcomes⟩
            · exact Or.inl ⟨hst, by rw [slots_cons, hslots, slots_cons t, List.append_assoc]⟩
            · refine Or.inr ⟨hst, by omega, ?_, ?_, hcomes.imp (by omega) id⟩
              · rw [slots_cons, entryOf_append_right _ _ (by omega), hlen]
                exact hfree
              · have hset := List.set_append_right (s := t.names)
                  (t := slots (t' :: rest') ++ freeSlots n) i slot (by omega)
                rw [slots_cons, hslots, slots_cons t, List.append_assoc, hset, hlen]
        | nil =>
          have hsum' : (slots [t]).length = t.numberInBlock := by simpa [slots] using hlen
          have htotal' : t.totalNumber = before + (slots [t]).length := by omega
          rw [addByIndexLoop_last granted slot fuel k t allocated hlt]
          rcases extend_spec hg hm (htotal' ▸ hroom) (htotal' ▸ hfits (by omega)) (granted k) with
            ⟨e, hext, he⟩ | ⟨t', hext, hgranted, hpos', hroom', hg', hm', hblock, hsize, hnames⟩
          · simp only [hext]
            exact ⟨_, _, _, 0, rfl, by simp, ⟨hg, hm, hlen, htotal, hpos, hrest⟩, fun h => h,
              hroom, Or.inl ⟨he, by simp [freeSlots]⟩⟩
          · have hlen' : t'.names.length = t'.numberInBlock := by
              rw [hnames, hblock]
              simp [freeSlots]
            have hslots' : slots [t'] = freeSlots g := by simp [slots, hnames]
            have hcount : (slots [t']).length = g := by simp [hslots', freeSlots]
            have hsmall : 56 + 36 * g < 2 ^ 32 := by
              rcases hfits (by omega) with hfits | hfits
              · exact hfits
              · have hbelow := hroom'.below
                have hlimit := hroom'.limit
                rw [Nat.mod_eq_of_lt (by omega)] at hfits
                omega
            have hlast : Linked g m t.totalNumber [t'] :=
              ⟨hg', hm', hlen', by omega, by simp, trivial⟩
            obtain ⟨tables', allocated', st, n, hloop, hne', hlinked', hpositive, hroom'', hend⟩ :=
              ih (k := k + 1) (i := i - t.numberInBlock) hlast (by simp)
                (by rwa [hcount]) (fun _ => Or.inl hsmall) (by
                  rw [List.head_cons, if_neg (by omega), List.length_singleton]
                  rw [List.length_nil] at hfuel
                  split_ifs at hfuel <;> omega)
            have hpositive' : ∀ u ∈ tables', 0 < u.numberInBlock := by
              refine hpositive fun u hu => ?_
              rw [List.mem_singleton.mp hu]
              omega
            refine ⟨t :: tables', allocated', st, g + n, ?_, by simp,
              ⟨hg, hm, hlen, htotal, hpositive', hlinked'⟩, ?_, ?_, ?_⟩
            · simp only [hext, hg, hloop, Option.map_some]
            · intro hall u hu
              rcases List.mem_cons.mp hu with rfl | hu
              · exact hall u (by simp)
              · exact hpositive' u hu
            · rwa [hcount, htotal', Nat.add_assoc] at hroom''
            · have happend : slots [t'] ++ freeSlots n = freeSlots (g + n) := by
                rw [hslots', freeSlots_append]
              have hnames' : slots [t] = t.names := by simp [slots]
              rw [happend] at hend
              rcases hend with ⟨hst, hslots⟩ | ⟨hst, hlt', -, hslots, hcomes⟩
              · exact Or.inl ⟨hst, by rw [slots_cons, hslots, hnames']⟩
              · refine Or.inr ⟨hst, by omega, entryOf_beyond (by omega), ?_, Or.inr ⟨hpos', ?_⟩⟩
                · have hset := List.set_append_right (s := t.names) (t := freeSlots (g + n)) i
                    slot (by omega)
                  rw [slots_cons, hslots, hnames', hset, hlen]
                · rw [hcount] at hcomes
                  rw [hsum', ← htotal] 
                  exact comes_succ hpos' hroom'.below hgranted hcomes

/-! ## Calls -/

variable {c c' : NameComponent} {number index : ℕ} {st : NameStatus}

/-- What is kept between the calls. -/
structure Kept (c : NameComponent) (g m : ℕ) : Prop where
  linked : Linked g m 0 c.tables
  nonempty : c.tables ≠ []
  room : Room m (slots c.tables).length c.allocated
  short : ∀ s ∈ slots c.tables, s.name.length ≤ 31
  distinct : ∀ i j name a b, c.entry i = some (name, a) → c.entry j = some (name, b) → i = j
  counted : c.number = occupied (slots c.tables)

theorem Kept.capacity (h : c.Kept g m) : c.capacity = (slots c.tables).length :=
  h.linked.capacity

theorem Kept.limits (h : c.Kept g m) : c.growNumber = g ∧ c.maxNumber = m := by
  have hlinked := h.linked
  unfold growNumber maxNumber
  cases htables : c.tables with
  | nil => exact absurd htables h.nonempty
  | cons t rest =>
    rw [htables] at hlinked
    exact ⟨hlinked.1, hlinked.2.1⟩

/-- A name is stored in a free place. -/
theorem Kept.store {d : NameComponent} (h : c.Kept g m) (hlinked : Linked g m 0 d.tables) (hne : d.tables ≠ [])
    (hroom : Room m ((slots c.tables).length + n) d.allocated)
    (hslots : slots d.tables =
      (slots c.tables ++ freeSlots n).set i ⟨name.take (nameMaxNameSize - 1), number⟩)
    (hi : i < (slots c.tables).length + n) (hfree : c.entry i = none)
    (hname : checkName name = none) (hnew : ∀ j n, c.entry j ≠ some (name, n))
    (hnumber : d.number = (c.number + 1) % 2 ^ 32) :
    d.Kept g m ∧ d.entry = update c.entry i (some (name, number)) := by
  obtain ⟨hnil, hlen⟩ := checkName_none.mp hname
  have htake : name.take (nameMaxNameSize - 1) = name := List.take_of_length_le hlen
  rw [htake] at hslots
  have hi' : i < (slots c.tables ++ freeSlots n).length := by simpa [freeSlots] using hi
  have hall : entryOf (slots c.tables ++ freeSlots n) = c.entry := entryOf_append_free _ _
  have hentry : d.entry = update c.entry i (some (name, number)) := by
    unfold entry at hall ⊢
    rw [hslots, entryOf_set hi', hall]
    simp [hnil]
  have hocc : occupied (slots c.tables ++ freeSlots n) = occupied (slots c.tables) := by
    simp [occupied, freeSlots, List.countP_replicate]
  have hlength : (slots d.tables).length = (slots c.tables).length + n := by
    rw [hslots, List.length_set, List.length_append]
    simp [freeSlots]
  refine ⟨⟨hlinked, hne, hlength ▸ hroom, ?_, ?_, ?_⟩, hentry⟩
  · intro s hs
    rw [hslots] at hs
    rcases List.mem_or_eq_of_mem_set hs with hs | rfl
    · rcases List.mem_append.mp hs with hs | hs
      · exact h.short s hs
      · rw [List.eq_of_mem_replicate hs]
        simp
    · exact hlen
  · intro j j' nm a b hj hj'
    rw [hentry] at hj hj'
    by_cases he : j = i
    · subst he
      by_cases he' : j' = j
      · exact he'.symm
      · rw [Function.update_self] at hj
        rw [Function.update_of_ne he'] at hj'
        obtain ⟨rfl, -⟩ := Prod.mk.inj (Option.some.inj hj)
        exact absurd hj' (hnew j' b)
    · rw [Function.update_of_ne he] at hj
      by_cases he' : j' = i
      · subst he'
        rw [Function.update_self] at hj'
        obtain ⟨rfl, -⟩ := Prod.mk.inj (Option.some.inj hj')
        exact absurd hj (hnew j a)
      · rw [Function.update_of_ne he'] at hj'
        exact h.distinct j j' nm a b hj hj'
  · have hbound : occupied (slots c.tables) ≤ (slots c.tables).length := List.countP_le_length
    have hbytes := h.room.bytes
    have hmemory := h.room.memory
    have hcount := occupied_store hi' (hall ▸ hfree) (s := ⟨name, number⟩) hnil
    rw [hnumber, hslots, hcount, hocc, ← h.counted, Nat.mod_eq_of_lt]
    rw [h.counted]
    omega

/-- A place is emptied. -/
theorem Kept.vacate (h : c.Kept g m) (hfull : c.entry i ≠ none) :
    ∃ c', c.vacate i = some c' ∧ c'.Kept g m ∧ c'.entry = update c.entry i none := by
  have hi : i < (slots c.tables).length := by
    by_contra hle
    exact hfull (entryOf_beyond (by omega))
  obtain ⟨tables', hset, hlinked, hslots, hmap⟩ := h.linked.setSlot hi ⟨[], 0⟩
  have hentry : entryOf (slots tables') = update c.entry i none := by
    rw [hslots, entryOf_set hi]
    rfl
  refine ⟨{ c with tables := tables', number := (c.number + 2 ^ 32 - 1) % 2 ^ 32 },
    by rw [NameComponent.vacate, hset]; rfl, ⟨hlinked, ?_, ?_, ?_, ?_, ?_⟩, hentry⟩
  · rintro rfl
    have hnil : c.tables = [] := by simpa using hmap.symm
    exact h.nonempty hnil
  · rw [hslots, List.length_set]
    exact h.room
  · intro s hs
    simp only [hslots] at hs
    rcases List.mem_or_eq_of_mem_set hs with hs | rfl
    · exact h.short s hs
    · simp
  · intro j j' nm a b hj hj'
    have hj₀ : update c.entry i none j = some (nm, a) := hentry ▸ hj
    have hj₁ : update c.entry i none j' = some (nm, b) := hentry ▸ hj'
    by_cases he : j = i
    · simp [he] at hj₀
    · by_cases he' : j' = i
      · simp [he'] at hj₁
      · rw [Function.update_of_ne he] at hj₀
        rw [Function.update_of_ne he'] at hj₁
        exact h.distinct j j' nm a b hj₀ hj₁
  · have hbound : occupied (slots c.tables) ≤ (slots c.tables).length := List.countP_le_length
    have hbytes := h.room.bytes
    have hmemory := h.room.memory
    have hcount := occupied_clear hi hfull
    simp only [hslots]
    rw [h.counted]
    omega

/-- A place that is there is written. -/
theorem Kept.occupy (h : c.Kept g m) (hi : i < (slots c.tables).length) (hfree : c.entry i = none)
    (hname : checkName name = none) (hnew : ∀ j n, c.entry j ≠ some (name, n)) (number : ℕ) :
    ∃ c', c.occupy i name number = some c' ∧ c'.Kept g m ∧
      c'.entry = update c.entry i (some (name, number)) := by
  obtain ⟨tables', hset, hlinked, hslots, hmap⟩ :=
    h.linked.setSlot hi ⟨name.take (nameMaxNameSize - 1), number⟩
  refine ⟨_, by rw [NameComponent.occupy, hset]; rfl, ?_⟩
  refine h.store hlinked ?_ (n := 0) h.room (by simpa [freeSlots] using hslots) hi hfree hname
    hnew rfl
  rintro rfl
  have hnil : c.tables = [] := by simpa using hmap.symm
  exact h.nonempty hnil

/-- What a call does to the map. -/
def Does (c : NameComponent) (op : NameOp) (g m : ℕ) : Prop :=
  ∃ c' st, c.apply op = some (c', st) ∧ c'.Kept g m ∧ NameMap.Step c.entry op st c'.entry

theorem Kept.refuses (h : c.Kept g m) {op : NameOp} {s : NameStatus}
    (happly : c.apply op = some (c, s)) (hst : s ≠ .ok) : c.Does op g m :=
  ⟨c, s, happly, h, .refused hst⟩

theorem checkName_ne_ok {e : NameStatus} (h : checkName name = some e) : e ≠ .ok := by
  unfold checkName at h
  split_ifs at h
  · simp [← Option.some.inj h]
  · simp [← Option.some.inj h]

/-- A name that finds no free place in the chain. -/
theorem Kept.addGrowing (h : c.Kept g m) {granted : Bool} (hname : checkName name = none)
    (hnew : ∀ j n, c.entry j ≠ some (name, n))
    (hfits : 56 + 36 * g < 2 ^ 32 ∨ m < ((slots c.tables).length + g) % 2 ^ 32)
    (hcall : c.apply (.add name number granted) = c.addGrowing name number granted) :
    c.Does (.add name number granted) g m := by
  obtain ⟨base, hbase⟩ : ∃ base, c.tables.head? = some base :=
    Option.ne_none_iff_exists'.mp (by simpa using h.nonempty)
  obtain ⟨last, hlast⟩ : ∃ last, c.tables.getLast? = some last :=
    Option.ne_none_iff_exists'.mp (by simpa using h.nonempty)
  obtain ⟨-, -, htotal⟩ := h.linked.last hlast
  rw [Nat.zero_add] at htotal
  obtain ⟨hgrow, hmax⟩ := h.limits
  have hg : base.growNumber = g := by simpa [growNumber, hbase] using hgrow
  have hm : base.maxNumber = m := by simpa [maxNumber, hbase] using hmax
  unfold NameComponent.addGrowing at hcall
  simp only [hbase, hlast] at hcall
  rcases extend_spec hg hm (htotal ▸ h.room) (htotal ▸ hfits) granted with
    ⟨e, hext, he⟩ | ⟨t, hext, -, hpos, hroom, hgt, hmt, hblock, hsize, hnames⟩
  · simp only [hext] at hcall
    exact h.refuses hcall he
  · simp only [hext, hg] at hcall
    have hlen : t.names.length = t.numberInBlock := by
      rw [hnames, hblock]
      simp [freeSlots]
    have hlinked : Linked g m 0 (c.tables ++ [t]) :=
      h.linked.append hgt hmt hlen (by omega) (by omega)
    have hslots : slots (c.tables ++ [t]) = slots c.tables ++ freeSlots g := by
      rw [slots_append]
      simp [slots, hnames]
    have hi : (slots c.tables).length < (slots (c.tables ++ [t])).length := by
      rw [hslots, List.length_append]
      simpa [freeSlots] using hpos
    obtain ⟨tables', hset, hlinked', hslots', hmap⟩ :=
      hlinked.setSlot hi ⟨name.take (nameMaxNameSize - 1), number⟩
    have hne : tables' ≠ [] := by
      rintro rfl
      simp at hmap
    have hstore := h.store (d := { c with
        tables := tables'
        allocated := c.allocated + tableBytes g
        number := (c.number + 1) % 2 ^ 32 }) hlinked' hne (htotal ▸ hroom)
      (hslots'.trans (by rw [hslots])) (by omega) (entryOf_beyond (Nat.le_refl _)) hname hnew rfl
    refine ⟨_, .ok, ?_, hstore.1, hstore.2 ▸ .added hnew (entryOf_beyond (Nat.le_refl _))⟩
    rw [hcall, NameComponent.occupy, h.capacity]
    simp only [hset, Option.map_some]

theorem Kept.add (h : c.Kept g m) {granted : Bool} (hreg : c.Regular (.add name number granted)) :
    c.Does (.add name number granted) g m := by
  have happly : c.apply (.add name number granted) = c.add name number granted := rfl
  cases hname : checkName name with
  | some e =>
    refine h.refuses (s := e) ?_ (checkName_ne_ok hname)
    rw [happly, NameComponent.add, hname]
  | none =>
    have hsearch := h.linked.search (NameSlot.holds name) 0
    cases hholds : (slots c.tables).findIdx? (NameSlot.holds name) with
    | some i =>
      refine h.refuses (s := .nameExists) ?_ (by decide)
      rw [happly, NameComponent.add, hname, hsearch, hholds]
      rfl
    | none =>
      have hnew : ∀ j n, c.entry j ≠ some (name, n) := find_not_holds hname h.short hholds
      have hsearch' := h.linked.search NameSlot.free 0
      rw [hholds] at hsearch
      cases hfind : (slots c.tables).findIdx? NameSlot.free with
      | some i =>
        obtain ⟨hi, hfree⟩ := find_free hfind
        obtain ⟨c', hc', hkept, hentry⟩ := h.occupy hi hfree hname hnew number
        refine ⟨c', .ok, ?_, hkept, hentry ▸ .added hnew hfree⟩
        rw [happly, NameComponent.add, hname, hsearch, hsearch', hfind]
        simp [hc']
      | none =>
        have hfits := hreg hname hnew fun i hi => find_not_free hfind i (h.capacity ▸ hi)
        obtain ⟨hgrow, hmax⟩ := h.limits
        unfold GrowthFits at hfits
        rw [hgrow, hmax, h.capacity] at hfits
        have hcall : c.apply (.add name number granted) = c.addGrowing name number granted := by
          rw [happly, NameComponent.add, hname, hsearch, hsearch', hfind]
          rfl
        exact h.addGrowing hname hnew hfits hcall

theorem Kept.addByIndex (h : c.Kept g m) {granted : ℕ → Bool}
    (hreg : c.Regular (.addByIndex name number index granted)) :
    c.Does (.addByIndex name number index granted) g m := by
  obtain ⟨hfits, hplace⟩ := hreg
  obtain ⟨hgrow, hmax⟩ := h.limits
  unfold GrowthFits at hfits
  unfold Comes at hplace
  rw [h.capacity, hgrow, hmax] at hfits hplace
  have hroom : Room m (0 + (slots c.tables).length) c.allocated := (Nat.zero_add _).symm ▸ h.room
  have hfuel : c.tables.length + index +
      (if (c.tables.head h.nonempty).numberInBlock = 0 then 2 else 1) ≤
        c.tables.length + index + 2 := by
    split_ifs <;> omega
  obtain ⟨tables', allocated', st, n, hloop, hne, hlinked, -, hroom', hend⟩ :=
    addByIndexLoop_spec granted ⟨name.take (nameMaxNameSize - 1), number⟩ (k := 0) h.linked
      h.nonempty hroom (by rwa [Nat.zero_add]) hfuel
  rw [Nat.zero_add] at hroom' hend
  have happly : c.apply (.addByIndex name number index granted) = some
      ({ tables := tables'
         allocated := allocated'
         number := if st = .ok then (c.number + 1) % 2 ^ 32 else c.number }, st) := by
    change c.addByIndex name number index granted = _
    rw [NameComponent.addByIndex, hloop]
    rfl
  rcases hend with ⟨hst, hslots⟩ | ⟨rfl, hlt, hfree, hslots, hcomes⟩
  · have hentry : entryOf (slots tables') = c.entry := by
      rw [hslots, entryOf_append_free]
      rfl
    refine ⟨_, st, happly, ⟨hlinked, hne, ?_, ?_, ?_, ?_⟩, ?_⟩
    · rw [hslots, List.length_append]
      simpa [freeSlots] using hroom'
    · intro s hs
      simp only [hslots] at hs
      rcases List.mem_append.mp hs with hs | hs
      · exact h.short s hs
      · rw [List.eq_of_mem_replicate hs]
        simp
    · intro i j nm a b hi hj
      exact h.distinct i j nm a b (hentry ▸ hi) (hentry ▸ hj)
    · simp only [if_neg hst, hslots]
      rw [h.counted]
      simp [occupied, freeSlots, List.countP_replicate]
    · have hsame : NameMap.Step c.entry (.addByIndex name number index granted) st c.entry :=
        .refused hst
      exact hentry.symm ▸ hsame
  · simp only [Nat.zero_add] at hcomes
    obtain ⟨hname, hnew⟩ := hplace hfree hcomes
    have hstore := h.store (d := ⟨(c.number + 1) % 2 ^ 32, tables', allocated'⟩) hlinked hne
      hroom' hslots hlt hfree hname hnew rfl
    rw [if_pos rfl] at happly
    exact ⟨_, .ok, happly, hstore.1, hstore.2 ▸ .addedAt hnew hfree⟩

theorem Kept.delete (h : c.Kept g m) : c.Does (.delete name) g m := by
  have happly : c.apply (.delete name) = c.delete name := rfl
  cases hname : checkName name with
  | some e =>
    refine h.refuses (s := e) ?_ (checkName_ne_ok hname)
    rw [happly, NameComponent.delete, hname]
  | none =>
    have hsearch := h.linked.search (NameSlot.holds name) 0
    cases hholds : (slots c.tables).findIdx? (NameSlot.holds name) with
    | none =>
      refine h.refuses (s := .nameNotFound) ?_ (by decide)
      rw [happly, NameComponent.delete, hname, hsearch, hholds]
      rfl
    | some i =>
      obtain ⟨hi, hfound⟩ := find_holds hname h.short hholds
      obtain ⟨c', hc', hkept, hentry⟩ :=
        h.vacate (i := i) (Option.ne_none_iff_exists'.mpr ⟨_, hfound⟩)
      refine ⟨c', .ok, ?_, hkept, hentry ▸ .deleted hfound⟩
      rw [happly, NameComponent.delete, hname, hsearch, hholds]
      simp [hc']

theorem Kept.deleteByIndex (h : c.Kept g m) (hreg : c.Regular (.deleteByIndex index)) :
    c.Does (.deleteByIndex index) g m := by
  obtain ⟨e, he⟩ := Option.ne_none_iff_exists'.mp hreg
  have hi : ¬ beyond c.tables index = true := by
    intro hbeyond
    exact hreg (entryOf_beyond ((h.linked.beyond index).mp hbeyond))
  obtain ⟨c', hc', hkept, hentry⟩ := h.vacate hreg
  refine ⟨c', .ok, ?_, hkept, hentry ▸ .deletedAt he⟩
  change c.deleteByIndex index = _
  rw [NameComponent.deleteByIndex, if_neg hi, hc']
  rfl

theorem Kept.step (h : c.Kept g m) {op : NameOp} (hreg : c.Regular op) : c.Does op g m := by
  cases op with
  | add name number granted => exact h.add hreg
  | addByIndex name number index granted => exact h.addByIndex hreg
  | delete name => exact h.delete
  | deleteByIndex index => exact h.deleteByIndex hreg

theorem Kept.run (h : c.Kept g m) {ops : List NameOp} (hops : c.RegularRun ops) :
    ∃ c' sts, c.run ops = some (c', sts) ∧ c'.Kept g m ∧ NameMap.Run c.entry ops sts c'.entry := by
  induction ops generalizing c with
  | nil => exact ⟨c, [], rfl, h, .nil⟩
  | cons op ops ih =>
    obtain ⟨c₁, st, hc₁, hkept, hstep⟩ := h.step hops.1
    obtain ⟨c₂, sts, hc₂, hkept', hrun⟩ := ih hkept (hops.2 c₁ st hc₁)
    refine ⟨c₂, st :: sts, ?_, hkept', .cons hstep hrun⟩
    rw [NameComponent.run, hc₁]
    simp [hc₂]

/-- What finding by name and by index answers. -/
theorem Kept.finds (h : c.Kept g m) (hname : checkName name = none) :
    (∀ i n, c.entry i = some (name, n) → c.find name = some (.ok n)) ∧
      ((∀ i n, c.entry i ≠ some (name, n)) → c.find name = some (.error .nameNotFound)) := by
  have hsearch := h.linked.search (NameSlot.holds name) 0
  cases hholds : (slots c.tables).findIdx? (NameSlot.holds name) with
  | none =>
    have hnew := find_not_holds hname h.short hholds
    refine ⟨fun i n hi => absurd hi (hnew i n), fun _ => ?_⟩
    rw [NameComponent.find, hname, hsearch, hholds]
    rfl
  | some i =>
    obtain ⟨hi, hfound⟩ := find_holds hname h.short hholds
    refine ⟨fun j n hj => ?_, fun hnone => absurd hfound (hnone i _)⟩
    obtain rfl := h.distinct i j name _ n hfound hj
    have hn := (Prod.mk.inj (Option.some.inj (hfound.symm.trans hj))).2
    rw [NameComponent.find, hname, hsearch, hholds]
    simp [h.linked.getSlot, List.getElem?_eq_getElem hi, hn]

theorem Kept.findsByIndex (h : c.Kept g m) (index : ℕ) :
    c.findByIndex index =
      some ((c.entry index).elim (.error .nameNotFound) fun e => .ok e.2) := by
  unfold NameComponent.findByIndex
  by_cases hbeyond : beyond c.tables index = true
  · have hnone : c.entry index = none := entryOf_beyond ((h.linked.beyond index).mp hbeyond)
    rw [if_pos hbeyond, hnone]
    rfl
  · have hi : index < (slots c.tables).length := by
      by_contra hle
      exact hbeyond ((h.linked.beyond index).mpr (by omega))
    rw [if_neg hbeyond, h.linked.getSlot, List.getElem?_eq_getElem hi]
    by_cases hfree : (slots c.tables)[index].name = []
    · have hnone : c.entry index = none := (entryOf_eq_none hi).mpr hfree
      simp [hnone, hfree]
    · have hsome : c.entry index = some _ :=
        entryOf_eq_some.mpr ⟨_, List.getElem?_eq_getElem hi, hfree, rfl⟩
      simp [hsome, hfree]

theorem create_kept {initial grow maximum : UInt32} {granted : Bool}
    (h : create initial.toNat grow.toNat maximum.toNat granted = some c)
    (hsize : 56 + 36 * initial.toNat < 2 ^ 32) :
    (∃ m, c.Kept grow.toNat m) ∧ c.entry = fun _ => none := by
  unfold create createTable at h
  have htable : tableBytes initial.toNat = 56 + 36 * initial.toNat := Nat.mod_eq_of_lt hsize
  by_cases hgranted : granted = true ∧ 0 + tableBytes initial.toNat ≤ 2 ^ 32
  swap
  · rw [if_neg hgranted] at h
    simp at h
  rw [if_pos hgranted] at h
  obtain rfl := Option.some.inj h
  have hnames : (tableBytes initial.toNat - 56) / 36 = initial.toNat := by omega
  rw [hnames]
  have hentry : entryOf (freeSlots initial.toNat) = fun _ => none := by
    have hnil := entryOf_append_free [] initial.toNat
    rw [List.nil_append] at hnil
    rw [hnil]
    funext i
    exact entryOf_beyond (Nat.zero_le i)
  have hlt := maximum.toNat_lt
  have hlt' := initial.toNat_lt
  refine ⟨⟨_, ⟨⟨rfl, rfl, by simp, by simp, by simp, trivial⟩, by simp, ⟨?_, ?_, ?_, ?_⟩, ?_,
    ?_, ?_⟩⟩, ?_⟩
  · simp only [slots, List.flatMap_singleton, List.length_replicate]
    split_ifs <;> omega
  · dsimp only
    split_ifs <;> omega
  · simp only [slots, List.flatMap_singleton, List.length_replicate]
    omega
  · simp only
    omega
  · intro s hs
    have hmem : s ∈ List.replicate initial.toNat ⟨[], 0⟩ := by simpa [slots] using hs
    simp [List.eq_of_mem_replicate hmem]
  · intro i j name a b hi
    have hnone : entryOf (freeSlots initial.toNat) i = some (name, a) := by
      simpa [entry, slots, freeSlots] using hi
    simp [hentry] at hnone
  · simp [occupied, slots, List.countP_replicate]
  · simpa [entry, slots, freeSlots] using hentry

/-- In a regular run a handle is a partial map from names to numbers: it follows the calls, finds
what they stored, and counts it. -/
theorem names_kept {initial grow maximum : UInt32} {granted : Bool} {ops : List NameOp}
    (h : create initial.toNat grow.toNat maximum.toNat granted = some c)
    (hsize : 56 + 36 * initial.toNat < 2 ^ 32) (hops : c.RegularRun ops) :
    ∃ c' sts, c.run ops = some (c', sts) ∧
      NameMap.Run (fun _ => none) ops sts c'.entry ∧
      (∀ i j name a b, c'.entry i = some (name, a) → c'.entry j = some (name, b) → i = j) ∧
      c'.number = occupied (slots c'.tables) ∧ c'.capacity ≤ c'.maxNumber ∧
      (∀ name i n, c'.entry i = some (name, n) → c'.find name = some (.ok n)) ∧
      (∀ name, checkName name = none → (∀ i n, c'.entry i ≠ some (name, n)) →
        c'.find name = some (.error .nameNotFound)) ∧
      ∀ index, c'.findByIndex index =
        some ((c'.entry index).elim (.error .nameNotFound) fun e => .ok e.2) := by
  obtain ⟨⟨m, hkept⟩, hentry⟩ := create_kept h hsize
  obtain ⟨c', sts, hrun, hkept', hmap⟩ := hkept.run hops
  refine ⟨c', sts, hrun, hentry ▸ hmap, hkept'.distinct, hkept'.counted, ?_, ?_, ?_,
    hkept'.findsByIndex⟩
  · rw [hkept'.capacity, hkept'.limits.2]
    exact hkept'.room.below
  · intro name i n hi
    obtain ⟨s, hs, hne, hpair⟩ := entryOf_eq_some.mp hi
    have he := (Prod.mk.inj hpair).1
    have hname : checkName name = none :=
      checkName_none.mpr ⟨he ▸ hne, he ▸ hkept'.short s (List.mem_of_getElem? hs)⟩
    exact (hkept'.finds hname).1 i n hi
  · intro name hname
    exact (hkept'.finds hname).2

/-- A handle with one entry takes a name, refuses another, and frees the entry. -/
theorem names_kept_one :
    ∃ c c' sts, create 1 0 1 true = some c ∧
      c.run [.add [97] 5 true, .add [98] 6 true, .deleteByIndex 0] = some (c', sts) ∧
      c'.number = occupied (slots c'.tables) := by
  obtain ⟨c, hc⟩ : ∃ c, create (1 : UInt32).toNat (0 : UInt32).toNat (1 : UInt32).toNat true =
    some c := ⟨_, rfl⟩
  have hops : c.RegularRun [.add [97] 5 true, .add [98] 6 true, .deleteByIndex 0] := by
    obtain rfl := Option.some.inj hc
    refine ⟨fun _ _ _ => Or.inl (by decide), ?_⟩
    intro c₁ st₁ h₁
    obtain ⟨rfl, -⟩ := Prod.mk.inj (Option.some.inj h₁)
    refine ⟨fun _ _ _ => Or.inl (by decide), ?_⟩
    intro c₂ st₂ h₂
    obtain ⟨rfl, -⟩ := Prod.mk.inj (Option.some.inj h₂)
    exact ⟨Option.some_ne_none ([97], 5), fun _ _ _ => trivial⟩
  obtain ⟨c', sts, hrun, -, -, hnumber, -⟩ := names_kept hc (by decide) hops
  exact ⟨c, c', sts, hc, hrun, hnumber⟩

/-- Emptying a free place by index is reported as done and counted; and a name added by index may
be in the table already. -/
theorem free_place_deleted :
    ((create 2 0 2 true).bind fun c => (c.run [.deleteByIndex 0]).map fun r =>
      (r.1.number, r.2)) = some (4294967295, [.ok]) ∧
    ((create 2 0 2 true).bind fun c => (c.run [.add [97] 1 true,
      .addByIndex [97] 2 1 fun _ => true]).map fun r => (r.1.entry 0, r.1.entry 1, r.2)) =
      some (some ([97], 1), some ([97], 2), [.ok, .ok]) := by
  decide

end NameComponent

end Mqx.Sched
