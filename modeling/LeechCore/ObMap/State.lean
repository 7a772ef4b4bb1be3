import Mathlib.Logic.Function.Basic
import Mathlib.Algebra.Group.Nat.Basic

/-!
# The `OB_MAP` record of `ob_map.c`

Entries are addressed by their logical index; `tableAt` and `storeAt` say which directory tables
and stores are allocated, and `trace` records the calls the map makes out.
-/

namespace LeechCore

set_option autoImplicit false

def OB_MAP_ENTRIES_DIRECTORY : Nat := 0x100
def OB_MAP_ENTRIES_TABLE : Nat := 0x200
def OB_MAP_ENTRIES_STORE : Nat := 0x100
def OB_MAP_TABLE_MAX_CAPACITY : Nat :=
  OB_MAP_ENTRIES_DIRECTORY * OB_MAP_ENTRIES_TABLE * OB_MAP_ENTRIES_STORE

theorem OB_MAP_TABLE_MAX_CAPACITY_eq : OB_MAP_TABLE_MAX_CAPACITY = 2 ^ 25 := rfl

/-- `_rotr16`, `_rotr` and `_rotr64`. -/
def rotr16 (x n : UInt16) : UInt16 := (x >>> n) ||| (x <<< (16 - n))
def rotr32 (x n : UInt32) : UInt32 := (x >>> n) ||| (x <<< (32 - n))
def rotr64 (x n : UInt64) : UInt64 := (x >>> n) ||| (x <<< (64 - n))

/-- `OB_MAP_HASH_FUNCTION`, in 64-bit arithmetic. -/
def hashFunction (v : UInt64) : UInt64 :=
  13 * (v + (rotr16 v.toUInt16 9).toUInt64 + (rotr32 v.toUInt32 17).toUInt64 + rotr64 v 31)

def indexDirectory (i : Nat) : Nat := (i >>> 17) &&& (OB_MAP_ENTRIES_DIRECTORY - 1)
def indexTable (i : Nat) : Nat := (i >>> 8) &&& (OB_MAP_ENTRIES_TABLE - 1)

/-- `OB_MAP_ENTRY`. -/
structure Entry where
  k : UInt64
  v : UInt64
deriving DecidableEq, Repr

/-- The `OB_MAP_FLAGS_*` bits that `ObMap_New` tests. -/
structure Flags where
  nokey : Bool
  objectOb : Bool
  objectLocalFree : Bool
deriving DecidableEq, Repr

/-- A call the map makes out: to the object manager, to the heap, or to a filter callback. -/
inductive Effect
  | incref (v : UInt64)
  | decref (v : UInt64)
  | localFree (v : UInt64)
  | filter (k v : UInt64)
deriving DecidableEq, Repr

/-- The `LocalAlloc` calls that can fail: those of the insert path, each made at most once per
push, and the scratch buffer of `_ObMap_SortEntryIndex`. -/
inductive AllocSite
  | growHashMap
  | growDirectory
  | pushTable
  | pushStore
  | sortBuffer
deriving DecidableEq, Repr

structure ObMap where
  c : Nat
  cHashMax : Nat
  cHashGrowThreshold : Nat
  fLargeMode : Bool
  fKey : Bool
  fObjectsOb : Bool
  fObjectsLocalFree : Bool
  hashMapKey : Nat → Nat
  hashMapValue : Nat → Nat
  tableAt : Nat → Bool
  storeAt : Nat → Nat → Bool
  entries : Nat → Entry
  trace : List Effect

namespace ObMap

/-- The map `ObMap_New` allocates: `c = 1`, `Directory[0]` is `_SmallTable`, whose one slot is
`Store00`, and both hash maps lie in the zeroed `_SmallHashMap`. -/
def empty (flags : Flags) : ObMap :=
  { c := 1, cHashMax := 0x100, cHashGrowThreshold := 0xc0, fLargeMode := false,
    fKey := !flags.nokey, fObjectsOb := flags.objectOb,
    fObjectsLocalFree := flags.objectLocalFree,
    hashMapKey := fun _ => 0, hashMapValue := fun _ => 0,
    tableAt := fun d => d == 0, storeAt := fun d t => d == 0 && t == 0,
    entries := fun _ => ⟨0, 0⟩, trace := [] }

/-- `ObMap_New`. -/
def new (flags : Flags) : Option ObMap :=
  if flags.objectOb && flags.objectLocalFree then none else some (empty flags)

variable (pm : ObMap)

/-- The address of entry `i` is formed through allocated tables only. -/
def Resolves (i : Nat) : Prop :=
  pm.tableAt (indexDirectory i) = true ∧ pm.storeAt (indexDirectory i) (indexTable i) = true

def dwHashMask : Nat := pm.cHashMax - 1

/-- `OB_MAP_HASH_FUNCTION(kv) & dwHashMask`. -/
def hashIndex (kv : UInt64) : Nat := (hashFunction kv).toNat &&& pm.dwHashMask

/-- `pHashMapValue` or `pHashMapKey`. -/
def hashTable (fValueHash : Bool) : Nat → Nat :=
  if fValueHash then pm.hashMapValue else pm.hashMapKey

/-- `_ObMap_GetFromIndex`. -/
def getFromIndex (iEntry : Nat) : Option Entry :=
  if iEntry = 0 ∨ pm.c ≤ iEntry then none else some (pm.entries iEntry)

/-- `_ObMap_GetFromEntryIndex`. -/
def getFromEntryIndex (fValueHash : Bool) (iEntry : Nat) : UInt64 :=
  match pm.getFromIndex iEntry with
  | some pe => if fValueHash then pe.v else pe.k
  | none => 0

/-- `_ObMap_SetHashIndex`. -/
def setHashIndex (fValueHash : Bool) (iHash iEntry : Nat) : ObMap :=
  if fValueHash then { pm with hashMapValue := Function.update pm.hashMapValue iHash iEntry }
  else if pm.fKey then { pm with hashMapKey := Function.update pm.hashMapKey iHash iEntry }
  else pm

/-- `Ob_INCREF`, `Ob_DECREF` and `LocalFree` of a value, as the calls the map makes. -/
def emit (e : Effect) : ObMap := { pm with trace := pm.trace ++ [e] }

/-- The home slot of the entry at `iEntry` in the hash map selected by `fValueHash`. -/
def home (fValueHash : Bool) (iEntry : Nat) : Nat :=
  pm.hashIndex (pm.getFromEntryIndex fValueHash iEntry)

section Lemmas

variable {pm}

@[simp] theorem getFromIndex_eq_some {i : Nat} (h0 : 0 < i) (hc : i < pm.c) :
    pm.getFromIndex i = some (pm.entries i) := by
  simp [getFromIndex]; omega

@[simp] theorem getFromIndex_eq_none {i : Nat} (h : i = 0 ∨ pm.c ≤ i) :
    pm.getFromIndex i = none := by
  simp [getFromIndex, h]

theorem getFromEntryIndex_of_live {i : Nat} (f : Bool) (h0 : 0 < i) (hc : i < pm.c) :
    pm.getFromEntryIndex f i = if f then (pm.entries i).v else (pm.entries i).k := by
  simp [getFromEntryIndex, h0, hc]

/-- Replace the hash map selected by `fValueHash`. -/
def setHashTable (pm : ObMap) (fValueHash : Bool) (t : Nat → Nat) : ObMap :=
  if fValueHash then { pm with hashMapValue := t } else { pm with hashMapKey := t }

theorem setHashIndex_eq {f : Bool} (hf : f = true ∨ pm.fKey = true) (p i : Nat) :
    pm.setHashIndex f p i = pm.setHashTable f (Function.update (pm.hashTable f) p i) := by
  cases f <;> simp_all [setHashIndex, setHashTable, hashTable]

@[simp] theorem setHashTable_hashTable (f : Bool) (t : Nat → Nat) :
    (pm.setHashTable f t).hashTable f = t := by
  cases f <;> rfl

@[simp] theorem setHashTable_hashTable_not (f : Bool) (t : Nat → Nat) :
    (pm.setHashTable f t).hashTable (!f) = pm.hashTable (!f) := by
  cases f <;> rfl

@[simp] theorem setHashTable_c (f : Bool) (t : Nat → Nat) : (pm.setHashTable f t).c = pm.c := by
  cases f <;> rfl

@[simp] theorem setHashTable_cHashMax (f : Bool) (t : Nat → Nat) :
    (pm.setHashTable f t).cHashMax = pm.cHashMax := by
  cases f <;> rfl

@[simp] theorem setHashTable_fKey (f : Bool) (t : Nat → Nat) :
    (pm.setHashTable f t).fKey = pm.fKey := by
  cases f <;> rfl

@[simp] theorem setHashTable_entries (f : Bool) (t : Nat → Nat) :
    (pm.setHashTable f t).entries = pm.entries := by
  cases f <;> rfl

@[simp] theorem setHashTable_cHashGrowThreshold (f : Bool) (t : Nat → Nat) :
    (pm.setHashTable f t).cHashGrowThreshold = pm.cHashGrowThreshold := by
  cases f <;> rfl

@[simp] theorem setHashTable_fLargeMode (f : Bool) (t : Nat → Nat) :
    (pm.setHashTable f t).fLargeMode = pm.fLargeMode := by
  cases f <;> rfl

@[simp] theorem setHashTable_fObjectsOb (f : Bool) (t : Nat → Nat) :
    (pm.setHashTable f t).fObjectsOb = pm.fObjectsOb := by
  cases f <;> rfl

@[simp] theorem setHashTable_fObjectsLocalFree (f : Bool) (t : Nat → Nat) :
    (pm.setHashTable f t).fObjectsLocalFree = pm.fObjectsLocalFree := by
  cases f <;> rfl

@[simp] theorem setHashTable_tableAt (f : Bool) (t : Nat → Nat) :
    (pm.setHashTable f t).tableAt = pm.tableAt := by
  cases f <;> rfl

@[simp] theorem setHashTable_storeAt (f : Bool) (t : Nat → Nat) :
    (pm.setHashTable f t).storeAt = pm.storeAt := by
  cases f <;> rfl

@[simp] theorem setHashTable_trace (f : Bool) (t : Nat → Nat) :
    (pm.setHashTable f t).trace = pm.trace := by
  cases f <;> rfl

@[simp] theorem setHashTable_hashMapValue_true (t : Nat → Nat) :
    (pm.setHashTable true t).hashMapValue = t := rfl

@[simp] theorem setHashTable_hashMapKey_true (t : Nat → Nat) :
    (pm.setHashTable true t).hashMapKey = pm.hashMapKey := rfl

@[simp] theorem setHashTable_hashMapValue_false (t : Nat → Nat) :
    (pm.setHashTable false t).hashMapValue = pm.hashMapValue := rfl

@[simp] theorem setHashTable_hashMapKey_false (t : Nat → Nat) :
    (pm.setHashTable false t).hashMapKey = t := rfl

@[simp] theorem hashTable_true : pm.hashTable true = pm.hashMapValue := rfl

@[simp] theorem hashTable_false : pm.hashTable false = pm.hashMapKey := rfl

@[simp] theorem setHashTable_setHashTable (f : Bool) (t t' : Nat → Nat) :
    (pm.setHashTable f t).setHashTable f t' = pm.setHashTable f t' := by
  cases f <;> rfl

@[simp] theorem setHashTable_hashTable_self (f : Bool) : pm.setHashTable f (pm.hashTable f) = pm := by
  cases f <;> rfl

end Lemmas

end ObMap

end LeechCore
