import LeechCore.ObMap.Hash
import Mathlib.Data.List.Sort

/-!
# The operations of `ob_map.c`

Each routine as a function of the map; `none` is a run that does not return, and
`AllocSite → Bool` says which `LocalAlloc` calls succeed. The `SRWLOCK` and the
`OB_MAP_IS_VALID` check are left out.
-/

namespace LeechCore.ObMap

set_option autoImplicit false

open Function

variable (pm : ObMap)

/-- DWORD subtraction. -/
def dwordSub (a b : Nat) : Nat := (a + 2 ^ 32 - b) % 2 ^ 32

/-- `_ObMap_Exists`. -/
def exists_ (fValueHash : Bool) (kv : UInt64) : Option Bool :=
  if (!fValueHash && !pm.fKey) || (fValueHash && kv == 0) then some false else
  (pm.getEntryIndexFromKeyOrValue fValueHash kv).map Option.isSome

/-- `_ObMap_GetByEntryIndex`: the value at `iEntry` (`0` when not live), with an `Ob_INCREF`. -/
def getByEntryIndex (iEntry : Nat) : ObMap × UInt64 :=
  let pvObObject := pm.getFromEntryIndex true iEntry
  (if pm.fObjectsOb then pm.emit (.incref pvObObject) else pm, pvObObject)

/-- `_ObMap_GetByKey`. -/
def getByKey (qwKey : UInt64) : Option (ObMap × UInt64) :=
  (pm.getEntryIndexFromKeyOrValue false qwKey).map fun
    | some iEntry => pm.getByEntryIndex iEntry
    | none => (pm, 0)

/-- `_ObMap_GetNext`. -/
def getNext (pvObject : UInt64) : Option (ObMap × UInt64) :=
  if pvObject = 0 then some (pm.getByEntryIndex 1) else
  let pm := if pm.fObjectsOb then pm.emit (.decref pvObject) else pm
  (pm.getEntryIndexFromKeyOrValue true pvObject).map fun
    | some iEntry => pm.getByEntryIndex (iEntry + 1)
    | none => (pm, 0)

/-- `_ObMap_GetNextByKey`. -/
def getNextByKey (qwKey pvObject : UInt64) : Option (ObMap × UInt64) :=
  if pvObject = 0 then some (pm.getByEntryIndex 1) else
  let pm := if pm.fObjectsOb then pm.emit (.decref pvObject) else pm
  (pm.getEntryIndexFromKeyOrValue false qwKey).map fun
    | some iEntry => pm.getByEntryIndex (iEntry + 1)
    | none => (pm, 0)

/-- `_ObMap_GetNextByIndex`, with the new value of `*pdwIndex`. -/
def getNextByIndex (dwIndex : UInt32) (pvObject : UInt64) : ObMap × UInt32 × UInt64 :=
  let dwIndex := if pvObject ≠ 0 then UInt32.ofNat (pm.c - 1) else dwIndex - 1
  let pm := if pm.fObjectsOb then pm.emit (.decref pvObject) else pm
  let r := pm.getByEntryIndex dwIndex.toNat
  (r.1, dwIndex, r.2)

/-- `for(i = 1; (x >> i); i++);`, for `x < 2 ^ 25`: the loop stops before the shift count reaches
`32`, where the `DWORD` shift would wrap. -/
def qFindBits (x : Nat) : Nat → Nat → Nat
  | 0, i => i
  | fuel + 1, i => if x >>> i ≠ 0 then qFindBits x fuel (i + 1) else i

/-- The halving loop of `_ObMap_QFind`: `.inl i` returns `TRUE` with `i`, `.inr i` leaves the
loop at `i`. -/
def qFindHalve (cMap : Nat) (qwKey : UInt64) : Nat → Nat → Nat → Nat ⊕ Nat
  | 0, i, _ => .inr i
  | fuel + 1, i, dwStep =>
    if dwStep > 1 then
      if (pm.entries i).k < qwKey then
        qFindHalve cMap qwKey fuel (if i + dwStep ≤ cMap then i + dwStep else i) (dwStep >>> 1)
      else if (pm.entries i).k > qwKey then
        qFindHalve cMap qwKey fuel (dwordSub i dwStep) (dwStep >>> 1)
      else .inl i
    else .inr i

/-- The stepping loop of `_ObMap_QFind`: `some (some i)` returns `TRUE` with `i`, `some none`
returns `FALSE`. -/
def qFindWalk (cMap : Nat) (qwKey : UInt64) : Nat → Nat → Option (Option Nat)
  | 0, _ => none
  | fuel + 1, i =>
    if (pm.entries i).k < qwKey then
      if i = cMap then some none
      else if (pm.entries (i + 1)).k ≥ qwKey then some (some (i + 1))
      else qFindWalk cMap qwKey fuel (i + 1)
    else if (pm.entries i).k > qwKey then
      if i = 1 then some (some 1)
      else if (pm.entries (dwordSub i 1)).k < qwKey then some (some (dwordSub i 1 + 1))
      else qFindWalk cMap qwKey fuel (dwordSub i 1)
    else some (some i)

/-- `_ObMap_QFind`. -/
def qFind (qwKey : UInt64) : Option (Option Nat) :=
  if pm.c ≤ 1 then some none else
  let cMap := pm.c - 1
  let i := qFindBits (cMap - 1) 32 1
  let i := min (1 <<< (i - 1)) ((cMap - 1) >>> 1)
  let i := if i = 0 then 1 else i
  match pm.qFindHalve cMap qwKey 32 i (i >>> 1) with
  | .inl i => some (some i)
  | .inr i => pm.qFindWalk cMap qwKey (cMap + 1) i

/-- `_ObMap_GetNextByKeySorted`. -/
def getNextByKeySorted (qwKey pvObject : UInt64) : Option (ObMap × UInt64) :=
  let pm := if pm.fObjectsOb then pm.emit (.decref pvObject) else pm
  let iEntry : Option (Option Nat) :=
    if qwKey = 0 then some (some 1) else
    match pm.getEntryIndexFromKeyOrValue false qwKey with
    | some (some iEntry) => some (some (iEntry + 1))
    | some none => pm.qFind qwKey
    | none => none
  iEntry.map fun
    | some iEntry => pm.getByEntryIndex iEntry
    | none => (pm, 0)

/-- `_ObMap_GetKey`. -/
def getKey (pvObject : UInt64) : Option UInt64 :=
  match pm.getEntryIndexFromKeyOrValue true pvObject with
  | some (some iEntry) => (pm.getFromIndex iEntry).map Entry.k
  | some none => some 0
  | none => none

/-- `_ObMap_Filter`: the callback is called on the entries `1..c-1` in order. -/
def filter : ObMap :=
  { pm with trace := pm.trace ++ (List.range (pm.c - 1)).map fun j =>
      .filter (pm.entries (j + 1)).k (pm.entries (j + 1)).v }

/-- `ObMap_Size`. -/
def size : Nat := pm.c - 1

/-- `ObMap_GetByIndex`, with its DWORD `index + 1`. -/
def getByIndex (index : UInt32) : ObMap × UInt64 := pm.getByEntryIndex (index + 1).toNat

/-- `ObMap_Peek`. -/
def peek : ObMap × UInt64 := pm.getByEntryIndex (pm.c - 1)

/-- `ObMap_PeekKey`. -/
def peekKey : UInt64 := pm.getFromEntryIndex false (pm.c - 1)

/-- `_ObMap_RetrieveAndRemoveByEntryIndex`: the value removed and `*pKey`, or `0` when `iEntry`
is not live. -/
def retrieveAndRemoveByEntryIndex (iEntry : Nat) : Option (ObMap × UInt64 × Option UInt64) :=
  match pm.getFromIndex iEntry with
  | none => some (pm, 0, none)
  | some pRemoveEntry => do
    let pm ← pm.removeHash false pRemoveEntry.k iEntry
    let pm ← pm.removeHash true pRemoveEntry.v iEntry
    let pm ← if iEntry < pm.c - 1 then do
        let pLastEntry := pm.entries (pm.c - 1)
        let pm ← pm.removeHash false pLastEntry.k (pm.c - 1)
        let pm ← pm.removeHash true pLastEntry.v (pm.c - 1)
        let pm := { pm with entries := update pm.entries iEntry pLastEntry }
        let pm ← pm.insertHash false iEntry
        pm.insertHash true iEntry
      else some pm
    some ({ pm with c := pm.c - 1 }, pRemoveEntry.v, some pRemoveEntry.k)

/-- `_ObMap_RemoveOrRemoveByKey`. -/
def removeOrRemoveByKey (fValueHash : Bool) (kv : UInt64) : Option (ObMap × UInt64) :=
  if fValueHash && kv == 0 then some (pm, 0) else
  match pm.getEntryIndexFromKeyOrValue fValueHash kv with
  | some (some iEntry) => (pm.retrieveAndRemoveByEntryIndex iEntry).map fun r => (r.1, r.2.1)
  | some none => some (pm, 0)
  | none => none

/-- `ObMap_Pop` and `ObMap_PopWithKey`. -/
def pop : Option (ObMap × UInt64 × Option UInt64) := pm.retrieveAndRemoveByEntryIndex (pm.c - 1)

/-- `Ob_DECREF` or `LocalFree` of a value, as the map's ownership policy asks. -/
def release (pv : UInt64) : ObMap :=
  let pm := if pm.fObjectsOb then pm.emit (.decref pv) else pm
  if pm.fObjectsLocalFree then pm.emit (.localFree pv) else pm

/-- The loop of `_ObMap_RemoveByFilter` over `iEntry, ..., 1`. -/
def removeByFilterLoop (pfn : UInt64 → UInt64 → Bool) : Nat → ObMap → Nat → Option (ObMap × Nat)
  | 0, pm, cRemove => some (pm, cRemove)
  | iEntry + 1, pm, cRemove =>
    let pEntry := pm.entries (iEntry + 1)
    let pm := pm.emit (.filter pEntry.k pEntry.v)
    if pfn pEntry.k pEntry.v then
      match pm.retrieveAndRemoveByEntryIndex (iEntry + 1) with
      | some (pm, pv, _) => removeByFilterLoop pfn iEntry (pm.release pv) (cRemove + 1)
      | none => none
    else removeByFilterLoop pfn iEntry pm cRemove

/-- `_ObMap_RemoveByFilter`. -/
def removeByFilter (pfn : UInt64 → UInt64 → Bool) : Option (ObMap × Nat) :=
  removeByFilterLoop pfn (pm.c - 1) pm 0

/-- `_ObMap_ObFreeAllObjects`. -/
def obFreeAllObjects : ObMap :=
  if pm.fObjectsOb then
    { pm with trace := pm.trace ++ (List.range (pm.c - 1)).map fun j => .decref (pm.entries (j + 1)).v }
  else if pm.fObjectsLocalFree then
    { pm with trace := pm.trace ++
      (List.range (pm.c - 1)).map fun j => .localFree (pm.entries (j + 1)).v }
  else pm

/-- `_ObMap_ObCloseCallback`, as far as the values go; the tables, stores and hash maps it
frees are not values. -/
def obCloseCallback : ObMap := pm.obFreeAllObjects

/-- `ObMap_Clear`. -/
def clear : ObMap :=
  if pm.c ≤ 1 then pm else
  { pm.obFreeAllObjects with hashMapValue := fun _ => 0, hashMapKey := fun _ => 0, c := 1 }

/-- `for(iEntry = 1; iEntry < k + 1; iEntry++) _ObMap_InsertHash(pm, fValueHash, iEntry);` -/
def insertHashUpTo (fValueHash : Bool) : Nat → ObMap → Option ObMap
  | 0, pm => some pm
  | k + 1, pm => (insertHashUpTo fValueHash k pm).bind (·.insertHash fValueHash (k + 1))

/-- The rehash loop of `_ObMap_Grow` over the indices `1..k`. -/
def growRehash : Nat → ObMap → Option ObMap
  | 0, pm => some pm
  | k + 1, pm => (growRehash k pm).bind fun pm =>
    (pm.insertHash true (k + 1)).bind (·.insertHash false (k + 1))

/-- The small-to-large switch of `_ObMap_Grow`: `Directory[0]` becomes a new table whose slot
`0` is `Store00`. -/
def toLargeMode : ObMap :=
  { pm with tableAt := update pm.tableAt 0 true, storeAt := update pm.storeAt 0 (fun t => t == 0),
            fLargeMode := true }

/-- The new hash maps of `_ObMap_Grow`: twice the size, zeroed. -/
def doubleHashMaps : ObMap :=
  { pm with cHashMax := pm.cHashMax * 2, cHashGrowThreshold := pm.cHashGrowThreshold * 2,
            hashMapValue := fun _ => 0, hashMapKey := fun _ => 0 }

/-- `_ObMap_Grow`, with whether it returned `TRUE`. -/
def grow (alloc : AllocSite → Bool) : Option (ObMap × Bool) :=
  if !alloc .growHashMap then some (pm, false) else
  if !pm.fLargeMode && !alloc .growDirectory then
    some ({ pm with tableAt := update pm.tableAt 0 false }, false)
  else
    let pm := (if pm.fLargeMode then pm else pm.toLargeMode).doubleHashMaps
    (growRehash (pm.c - 1) pm).map fun pm => (pm, true)

/-- The allocations of `_ObMap_Push` after the grow: the table and the store of `iEntry`. -/
def allocatePath (alloc : AllocSite → Bool) (iEntry : Nat) : ObMap × Bool :=
  let d := indexDirectory iEntry
  let t := indexTable iEntry
  if !pm.tableAt d && !alloc .pushTable then (pm, false) else
  let pm := if pm.tableAt d then pm else
    { pm with tableAt := update pm.tableAt d true, storeAt := update pm.storeAt d fun _ => false }
  if !pm.storeAt d t && !alloc .pushStore then (pm, false) else
  ({ pm with storeAt := update pm.storeAt d (update (pm.storeAt d) t true) }, true)

/-- The tail of `_ObMap_Push` once the path of `iEntry` is allocated: the reference taken, the
entry written, and its index inserted in both hash maps. -/
def storeEntry (iEntry : Nat) (qwKey pvObject : UInt64) : Option ObMap :=
  let pm := if pm.fObjectsOb then pm.emit (.incref pvObject) else pm
  let pm := { pm with c := pm.c + 1, entries := update pm.entries iEntry ⟨qwKey, pvObject⟩ }
  (pm.insertHash true iEntry).bind (·.insertHash false iEntry)

/-- `_ObMap_Push`. -/
def push (qwKey pvObject : UInt64) (alloc : AllocSite → Bool) : Option (ObMap × Bool) :=
  let iEntry := pm.c
  if pvObject = 0 then some (pm, false) else
  (pm.exists_ true pvObject).bind fun fValue => if fValue then some (pm, false) else
  (pm.exists_ false qwKey).bind fun fKey => if fKey then some (pm, false) else
  if iEntry = OB_MAP_TABLE_MAX_CAPACITY then some (pm, false) else
  (if iEntry = pm.cHashGrowThreshold then pm.grow alloc else some (pm, true)).bind fun r =>
  if !r.2 then some (r.1, false) else
  let r := r.1.allocatePath alloc iEntry
  if !r.2 then some (r.1, false) else
  (r.1.storeEntry iEntry qwKey pvObject).map fun pm => (pm, true)

/-- `_ObMap_PushCopy`; `pvObjectCopy` is the buffer `LocalAlloc` returned, `0` on failure. -/
def pushCopy (qwKey pvObjectCopy : UInt64) (alloc : AllocSite → Bool) : Option (ObMap × Bool) :=
  if !pm.fObjectsLocalFree || pvObjectCopy = 0 then some (pm, false) else
  (pm.push qwKey pvObjectCopy alloc).map fun r =>
    if r.2 then r else (r.1.emit (.localFree pvObjectCopy), false)

/-- `qsort` of the entries with the comparator `pfnSort`. -/
def qsort (pfnSort : Entry → Entry → Int) (l : List Entry) : List Entry :=
  l.mergeSort fun a b => decide (pfnSort a b ≤ 0)

/-- The entries `1..c-1`. -/
def liveEntries : List Entry := (List.range (pm.c - 1)).map fun j => pm.entries (j + 1)

/-- Write `l` back to the entries `1..l.length`. -/
def writeEntries (l : List Entry) : ObMap :=
  { pm with entries := fun i => if 0 < i ∧ i ≤ l.length then l.getD (i - 1) ⟨0, 0⟩ else pm.entries i }

/-- `_ObMap_SortEntryIndex`; `fAlloc` is whether the scratch buffer is allocated. -/
def sortEntryIndex (pfnSort : Entry → Entry → Int) (fAlloc : Bool) : Option (ObMap × Bool) :=
  if !fAlloc then some (pm, false) else
  let pm := pm.writeEntries (qsort pfnSort pm.liveEntries)
  let pmKey := if pm.fKey then insertHashUpTo false (pm.c - 1) (pm.setHashTable false fun _ => 0)
    else some pm
  (pmKey.bind fun pm => insertHashUpTo true (pm.c - 1) (pm.setHashTable true fun _ => 0)).map
    fun pm => (pm, true)

/-- `_ObMap_SortEntryIndexByKey_CmpSort`. -/
def sortEntryIndexByKeyCmpSort (p1 p2 : Entry) : Int :=
  if p1.k < p2.k then -1 else if p1.k > p2.k then 1 else 0

end LeechCore.ObMap
