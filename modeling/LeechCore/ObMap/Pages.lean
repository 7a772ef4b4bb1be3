import LeechCore.ObMap.Close

/-!
# The pages in memory

`Pages` are the pointers `Directory[d][t]` and the entries behind them, the hash array pointer
and the allocator calls the map makes for its own memory. `Mirrors` says that they hold what the
model says; each write through the pages keeps it.
-/

namespace LeechCore.ObMap

set_option autoImplicit false

open Function

/-- A pointer of the directory: `NULL`, `_SmallTable` or `Store00` inside `OB_MAP`, or the
`n`-th block `LocalAlloc` gave for a table or a store. -/
inductive Ptr
  | null
  | smallTable
  | store00
  | heap (n : Nat)
deriving DecidableEq, Repr

/-- A pointer of the map's own memory: `NULL`, a place inside `OB_MAP`, the `n`-th table or
store, or the `n`-th other block (a hash array or a sort buffer). -/
inductive MemPtr
  | null
  | inObMap
  | page (n : Nat)
  | block (n : Nat)
deriving DecidableEq, Repr

/-- A call the map makes to the allocator for its own memory. -/
inductive MemCall
  | localAlloc (p : MemPtr)
  | localFree (p : MemPtr)
deriving DecidableEq, Repr

/-- The pages of an `OB_MAP`, the hash array pointer, and the allocator calls made so far for the
map's own memory; `next` numbers the next table or store. -/
structure Pages where
  directory : Nat → Ptr
  smallTable : Ptr
  store00 : Nat → Entry
  heapTable : Nat → Nat → Ptr
  heapStore : Nat → Nat → Entry
  next : Nat
  pHashMapValue : MemPtr
  cBlock : Nat
  trace : List MemCall

namespace Pages

/-- The pages of the zeroed object `ObMap_New` allocates: `Directory[0] = _SmallTable` and
`_SmallTable[0] = Store00`, with `pHashMapValue = _SmallHashMap`. -/
def new : Pages :=
  { directory := fun d => if d = 0 then .smallTable else .null, smallTable := .store00,
    store00 := fun _ => ⟨0, 0⟩, heapTable := fun _ _ => .null, heapStore := fun _ _ => ⟨0, 0⟩,
    next := 0, pHashMapValue := .inObMap, cBlock := 0, trace := [] }

section Ops

variable (pg : Pages)

/-- Slot `t` of the table `p`; `_SmallTable` has one slot. -/
def slot : Ptr → Nat → Ptr
  | .smallTable, t => if t = 0 then pg.smallTable else .null
  | .heap n, t => pg.heapTable n t
  | _, _ => .null

/-- `Directory[d][t]`. -/
def store (d t : Nat) : Ptr := pg.slot (pg.directory d) t

/-- Entry `s` of the store `p`; nothing through a pointer that is not a store. -/
def cell : Ptr → Nat → Option Entry
  | .store00, s => some (pg.store00 s)
  | .heap n, s => some (pg.heapStore n s)
  | _, _ => none

/-- Entry `i` read at `Directory[d][t][s]`, the address `_ObMap_GetFromIndex` forms. -/
def read (i : Nat) : Option Entry :=
  pg.cell (pg.store (indexDirectory i) (indexTable i)) (indexStore i)

/-- Slot `t` of the table `p` set to `q`. -/
def setSlot : Ptr → Nat → Ptr → Pages
  | .smallTable, t, q => if t = 0 then { pg with smallTable := q } else pg
  | .heap n, t, q => { pg with heapTable := update pg.heapTable n (update (pg.heapTable n) t q) }
  | _, _, _ => pg

/-- Entry `s` of the store `p` set to `e`. -/
def setCell : Ptr → Nat → Entry → Pages
  | .store00, s, e => { pg with store00 := update pg.store00 s e }
  | .heap n, s, e => { pg with heapStore := update pg.heapStore n (update (pg.heapStore n) s e) }
  | _, _, _ => pg

/-- Entry `i` written at `Directory[d][t][s]`. -/
def write (i : Nat) (e : Entry) : Pages :=
  pg.setCell (pg.store (indexDirectory i) (indexTable i)) (indexStore i) e

/-- `Directory[d] = LocalAlloc(LMEM_ZEROINIT, ...)`: block `next`, a table of `NULL` slots. -/
def allocTable (d : Nat) : Pages :=
  { pg with directory := update pg.directory d (.heap pg.next),
            heapTable := update pg.heapTable pg.next fun _ => .null, next := pg.next + 1,
            trace := pg.trace ++ [.localAlloc (.page pg.next)] }

/-- `Directory[d][t] = LocalAlloc(LMEM_ZEROINIT, ...)`: block `next`, a zeroed store. -/
def allocStore (d t : Nat) : Pages :=
  setSlot { pg with heapStore := update pg.heapStore pg.next fun _ => ⟨0, 0⟩, next := pg.next + 1,
                    trace := pg.trace ++ [.localAlloc (.page pg.next)] }
    (pg.directory d) t (.heap pg.next)

/-- The switch of `_ObMap_Grow` to large mode: `Directory[0]` a new table whose slot `0` is
`Store00`, `Directory[1..]`, the bytes of `_SmallHashMap`, zeroed, and `pHashMapValue` `NULL`. -/
def toLargeMode : Pages :=
  let pg := (pg.allocTable 0).setSlot (.heap pg.next) 0 .store00
  { pg with directory := fun d => if d = 0 then pg.directory 0 else .null, pHashMapValue := .null }

/-- `_ObMap_Grow` on the pages of a map in mode `fLargeMode`, with whether it returns `TRUE`: the
new hash array `pdwNewAllocHashMap`, in a small map the switch to large mode, whose failed
`LocalAlloc` leaves `Directory[0]` `NULL`, and the old hash array freed. -/
def grow (fLargeMode : Bool) (alloc : AllocSite → Bool) : Pages × Bool :=
  if alloc .growHashMap = false then (pg, false) else
  let pdwNewAllocHashMap := MemPtr.block pg.cBlock
  let pg := { pg with cBlock := pg.cBlock + 1, trace := pg.trace ++ [MemCall.localAlloc pdwNewAllocHashMap] }
  if fLargeMode = false ∧ alloc .growDirectory = false then
    ({ pg with directory := update pg.directory 0 .null }, false) else
  let pg := if fLargeMode then pg else pg.toLargeMode
  ({ pg with trace := pg.trace ++ [MemCall.localFree pg.pHashMapValue],
              pHashMapValue := pdwNewAllocHashMap }, true)

/-- The allocations of `_ObMap_Push` on the pages: the table and the store of `iEntry` where they
are `NULL`, with whether both are there. -/
def allocatePath (alloc : AllocSite → Bool) (iEntry : Nat) : Pages × Bool :=
  let d := indexDirectory iEntry
  let t := indexTable iEntry
  if pg.directory d = .null ∧ alloc .pushTable = false then (pg, false) else
  let pg := if pg.directory d = .null then pg.allocTable d else pg
  if pg.store d t = .null ∧ alloc .pushStore = false then (pg, false) else
  (if pg.store d t = .null then pg.allocStore d t else pg, true)

/-- `_ObMap_Push` on the pages of the map `pm`: its checks read the map; then the grow at the
threshold, the allocations of the path of index `c`, and the entry written there. -/
def push (pm : ObMap) (qwKey pvObject : UInt64) (alloc : AllocSite → Bool) : Pages :=
  if pvObject = 0 ∨ pm.exists_ true pvObject = some true ∨ pm.exists_ false qwKey = some true ∨
      pm.c = OB_MAP_TABLE_MAX_CAPACITY then pg else
  let rG := if pm.c = pm.cHashGrowThreshold then pg.grow pm.fLargeMode alloc else (pg, true)
  if rG.2 = false then rG.1 else
  let rP := rG.1.allocatePath alloc pm.c
  if rP.2 = false then rP.1 else rP.1.write pm.c ⟨qwKey, pvObject⟩

/-- `_ObMap_RetrieveAndRemoveByEntryIndex` on the pages of `pm`: the last entry, read through the
directory, copied over the removed one unless that is the last. -/
def retrieveAndRemove (pm : ObMap) (iEntry : Nat) : Pages :=
  if 0 < iEntry ∧ iEntry < pm.c - 1 then
    match pg.read (pm.c - 1) with
    | some pLastEntry => pg.write iEntry pLastEntry
    | none => pg
  else pg

/-- `_ObMap_RemoveOrRemoveByKey` on the pages of `pm`. -/
def removeOrRemoveByKey (pm : ObMap) (fValueHash : Bool) (kv : UInt64) : Pages :=
  if (fValueHash && kv == 0) = true then pg else
  match pm.getEntryIndexFromKeyOrValue fValueHash kv with
  | some (some iEntry) => pg.retrieveAndRemove pm iEntry
  | _ => pg

end Ops

/-- The loop of `_ObMap_RemoveByFilter` on the pages, beside the map's own loop. -/
def removeByFilterLoop (pfn : UInt64 → UInt64 → Bool) : Nat → ObMap → Pages → Pages
  | 0, _, pages => pages
  | iEntry + 1, pm, pages =>
    let pEntry := pm.entries (iEntry + 1)
    let pm := pm.emit (.filter pEntry.k pEntry.v)
    if pfn pEntry.k pEntry.v then
      match pm.retrieveAndRemoveByEntryIndex (iEntry + 1) with
      | some (pm', pv, _) =>
        removeByFilterLoop pfn iEntry (pm'.release pv) (pages.retrieveAndRemove pm (iEntry + 1))
      | none => pages
    else removeByFilterLoop pfn iEntry pm pages

/-- The entries of `l` written through the directory at `i, i + 1, ...`. -/
def writeFrom : Nat → List Entry → Pages → Pages
  | _, [], pages => pages
  | i, e :: l, pages => writeFrom (i + 1) l (pages.write i e)

/-- `_ObMap_SortEntryIndex` on the pages of `pm`: the scratch buffer `pSort` from `LocalAlloc`,
the entries `1..c-1` copied through the directory into it, sorted, copied back, and `pSort`
freed. -/
def sortEntryIndex (pg : Pages) (pm : ObMap) (pfnSort : Entry → Entry → Int) (fAlloc : Bool) :
    Pages :=
  if fAlloc = false then pg else
  let pSort := MemPtr.block pg.cBlock
  let pg' := writeFrom 1
    (qsort pfnSort ((List.range (pm.c - 1)).map fun j => (pg.read (j + 1)).getD ⟨0, 0⟩))
    { pg with cBlock := pg.cBlock + 1, trace := pg.trace ++ [.localAlloc pSort] }
  { pg' with trace := pg'.trace ++ [.localFree pSort] }

/-- The writes through the pages of each public call on the map `pm`. -/
def call (pg : Pages) (pm : ObMap) (alloc : AllocSite → Bool) : Call → Pages
  | .push k v => pg.push pm k v alloc
  | .pushCopy k pv => if pm.fObjectsLocalFree = false ∨ pv = 0 then pg else pg.push pm k pv alloc
  | .remove v => pg.removeOrRemoveByKey pm true v
  | .removeByKey k => pg.removeOrRemoveByKey pm false k
  | .pop | .popWithKey => pg.retrieveAndRemove pm (pm.c - 1)
  | .removeByFilter pfn => removeByFilterLoop pfn (pm.c - 1) pm pg
  | .sortEntryIndex cmp => pg.sortEntryIndex pm cmp (alloc .sortBuffer)
  | .sortEntryIndexByKey => pg.sortEntryIndex pm sortEntryIndexByKeyCmpSort (alloc .sortBuffer)
  | _ => pg

/-- `_ObMap_ObFreeAllObjects` on the pages of `pm`: the `Ob_DECREF`, or else the `LocalFree`, of
the value read at `Directory[d][t][s]` for each index `1..c-1`; `none` when one of those reads
goes through a `NULL` pointer. -/
def obFreeAllObjects (pg : Pages) (pm : ObMap) : Option (List Effect) :=
  let values := (List.range (pm.c - 1)).mapM fun j => (pg.read (j + 1)).map Entry.v
  if pm.fObjectsOb then values.map (·.map .decref)
  else if pm.fObjectsLocalFree then values.map (·.map .localFree)
  else some []

/-- The pointer `_ObMap_ObCloseCallback` hands to `LocalFree` for a block of the pages:
`Directory[d]` for a table, `Directory[d][t]` for a store; the hash arrays are not pages. -/
def blockPtr (pg : Pages) : Block → Option Ptr
  | .hashMap => none
  | .table d => some (pg.directory d)
  | .store d t => some (pg.store d t)

section Lemmas

variable (pg : Pages) (p : Ptr) (s : Nat) (e : Entry)

@[simp] theorem setCell_directory : (pg.setCell p s e).directory = pg.directory := by cases p <;> rfl

@[simp] theorem setCell_next : (pg.setCell p s e).next = pg.next := by cases p <;> rfl

@[simp] theorem store_setCell (d t : Nat) : (pg.setCell p s e).store d t = pg.store d t := by
  cases p <;> rfl

theorem cell_setCell_of_ne {q : Ptr} {s' : Nat} (h : q ≠ p ∨ s' ≠ s) :
    (pg.setCell p s e).cell q s' = pg.cell q s' := by
  cases p <;> cases q <;> simp only [setCell, cell, update_apply] <;> split_ifs <;> simp_all

theorem cell_setCell_self (hp : p = .store00 ∨ ∃ n, p = .heap n) :
    (pg.setCell p s e).cell p s = some e := by
  rcases hp with rfl | ⟨n, rfl⟩ <;> simp [setCell, cell]

@[simp] theorem write_directory (i : Nat) : (pg.write i e).directory = pg.directory :=
  setCell_directory ..

@[simp] theorem write_next (i : Nat) : (pg.write i e).next = pg.next := setCell_next ..

@[simp] theorem store_write (i d t : Nat) : (pg.write i e).store d t = pg.store d t :=
  store_setCell ..

@[simp] theorem blockPtr_write (i : Nat) (b : Block) : (pg.write i e).blockPtr b = pg.blockPtr b := by
  cases b <;> simp [blockPtr]

theorem cell_allocTable (d : Nat) : (pg.allocTable d).cell p s = pg.cell p s := by cases p <;> rfl

theorem slot_allocTable (d t : Nat) (hp : p ≠ .heap pg.next) :
    (pg.allocTable d).slot p t = pg.slot p t := by
  cases p <;> simp_all [slot, allocTable]

section AllocStore

variable {d m : Nat} (hm : pg.directory d = .heap m) (t : Nat)
include hm

theorem allocStore_eq :
    pg.allocStore d t = { pg with
      heapTable := update pg.heapTable m (update (pg.heapTable m) t (.heap pg.next)),
      heapStore := update pg.heapStore pg.next fun _ => ⟨0, 0⟩, next := pg.next + 1,
      trace := pg.trace ++ [.localAlloc (.page pg.next)] } := by
  simp [allocStore, hm, setSlot]

theorem allocStore_directory : (pg.allocStore d t).directory = pg.directory := by
  rw [allocStore_eq pg hm]

theorem allocStore_next : (pg.allocStore d t).next = pg.next + 1 := by rw [allocStore_eq pg hm]

theorem slot_allocStore (t' : Nat) :
    (pg.allocStore d t).slot p t' = if p = .heap m ∧ t' = t then .heap pg.next else pg.slot p t' := by
  rw [allocStore_eq pg hm]
  rcases p with _ | _ | _ | n
  · simp [slot]
  · simp [slot]
  · simp [slot]
  · by_cases hn : n = m
    · subst hn; by_cases ht : t' = t <;> simp [slot, ht]
    · simp [slot, hn]

theorem cell_allocStore :
    (pg.allocStore d t).cell p s = if p = .heap pg.next then some ⟨0, 0⟩ else pg.cell p s := by
  rw [allocStore_eq pg hm]
  rcases p with _ | _ | _ | n
  · simp [cell]
  · simp [cell]
  · simp [cell]
  · by_cases hn : n = pg.next
    · subst hn; simp [cell]
    · simp [cell, hn]

end AllocStore

theorem toLargeMode_directory (d : Nat) :
    pg.toLargeMode.directory d = if d = 0 then .heap pg.next else .null := by
  simp [toLargeMode, allocTable, setSlot]

theorem toLargeMode_store (d t : Nat) :
    pg.toLargeMode.store d t = if d = 0 ∧ t = 0 then .store00 else .null := by
  by_cases hd : d = 0 <;> by_cases ht : t = 0 <;>
    simp [store, toLargeMode_directory, hd, ht, slot, toLargeMode, allocTable, setSlot]

theorem cell_toLargeMode : pg.toLargeMode.cell p s = pg.cell p s := by cases p <;> rfl

@[simp] theorem toLargeMode_next : pg.toLargeMode.next = pg.next + 1 := rfl

end Lemmas

end Pages

/-- The blocks `0..next-1` are each the block of exactly one place the map holds, and every place
it holds with a pointer is one of them. -/
structure Ledger (owns : Block → Bool) (ptr : Block → Option Ptr) (next : Nat) : Prop where
  heap : ∀ b p, owns b = true → ptr b = some p → ∃ n < next, p = .heap n
  inj : ∀ b b' n, owns b = true → owns b' = true → ptr b = some (.heap n) →
    ptr b' = some (.heap n) → b = b'
  onto : ∀ n < next, ∃ b, owns b = true ∧ ptr b = some (.heap n)

namespace Ledger

variable {owns owns' : Block → Bool} {ptr ptr' : Block → Option Ptr} {next : Nat}

theorem empty (hno : ∀ b, owns b = false) : Ledger owns ptr 0 :=
  ⟨fun b _ hb => absurd hb (by simp [hno]), fun b _ _ hb => absurd hb (by simp [hno]),
    fun _ hn => absurd hn (Nat.not_lt_zero _)⟩

theorem next_eq_zero (hl : Ledger owns ptr next) (hno : ∀ b, owns b = false) : next = 0 := by
  by_contra hn
  obtain ⟨b, hb, -⟩ := hl.onto 0 (Nat.pos_of_ne_zero hn)
  simp [hno] at hb

theorem congr (hl : Ledger owns ptr next) (ho : owns' = owns)
    (hp : ∀ b, owns b = true → ptr' b = ptr b) : Ledger owns' ptr' next := by
  subst ho
  exact ⟨fun b q hb hq => hl.heap b q hb (hp b hb ▸ hq),
    fun b b' n hb hb' hq hq' => hl.inj b b' n hb hb' (hp b hb ▸ hq) (hp b' hb' ▸ hq'),
    fun n hn => by obtain ⟨b, hb, hq⟩ := hl.onto n hn; exact ⟨b, hb, (hp b hb).trans hq⟩⟩

theorem extend (hl : Ledger owns ptr next) (b₀ : Block) (h₀ : owns' b₀ = true)
    (hp₀ : ptr' b₀ = some (.heap next))
    (hkeep : ∀ b, owns b = true → owns' b = true ∧ ptr' b = ptr b)
    (hnew : ∀ b, owns' b = true → owns b = true ∨ b = b₀ ∨ ptr' b = none) :
    Ledger owns' ptr' (next + 1) := by
  have hcase : ∀ b n, owns' b = true → ptr' b = some (.heap n) →
      b = b₀ ∧ n = next ∨ owns b = true ∧ ptr b = some (.heap n) ∧ n < next := by
    intro b n hb hq
    rcases hnew b hb with hb' | rfl | hn
    · rw [(hkeep b hb').2] at hq
      obtain ⟨m, hm, he⟩ := hl.heap b _ hb' hq
      cases he
      exact .inr ⟨hb', hq, hm⟩
    · rw [hp₀] at hq; cases hq; exact .inl ⟨rfl, rfl⟩
    · rw [hn] at hq; cases hq
  refine ⟨fun b q hb hq => ?_, fun b b' n hb hb' hq hq' => ?_, fun n hn => ?_⟩
  · rcases hnew b hb with hb' | rfl | hn
    · obtain ⟨n, hn, rfl⟩ := hl.heap b q hb' ((hkeep b hb').2 ▸ hq)
      exact ⟨n, by omega, rfl⟩
    · rw [hp₀] at hq; cases hq; exact ⟨next, by omega, rfl⟩
    · rw [hn] at hq; cases hq
  · rcases hcase b n hb hq with ⟨rfl, rfl⟩ | ⟨hb1, hq1, hn1⟩ <;>
      rcases hcase b' n hb' hq' with ⟨rfl, hn2⟩ | ⟨hb2, hq2, hn2⟩
    · rfl
    · omega
    · omega
    · exact hl.inj b b' n hb1 hb2 hq1 hq2
  · rcases Nat.lt_succ_iff_lt_or_eq.mp hn with hn | rfl
    · obtain ⟨b, hb, hq⟩ := hl.onto n hn
      exact ⟨b, (hkeep b hb).1, (hkeep b hb).2.trans hq⟩
    · exact ⟨b₀, h₀, hp₀⟩

end Ledger

/-- The pages hold what the model says. -/
structure Mirrors (pm : ObMap) (pg : Pages) : Prop where
  table : ∀ d, pm.tableAt d = true ↔ pg.directory d ≠ .null
  store : ∀ d t, pm.tableAt d = true → (pm.storeAt d t = true ↔ pg.store d t ≠ .null)
  store_table : ∀ d t, pm.storeAt d t = true → pm.tableAt d = true
  small : pm.fLargeMode = false → ∀ d, pm.tableAt d = true → d = 0 ∧ pg.directory d = .smallTable
  store00 : pm.tableAt 0 = true → pg.store 0 0 = .store00
  read : ∀ i < OB_MAP_TABLE_MAX_CAPACITY, pm.Resolves i → pg.read i = some (pm.entries i)
  zero : ∀ i < OB_MAP_TABLE_MAX_CAPACITY, ¬ pm.Resolves i → pm.entries i = ⟨0, 0⟩
  ledger : Ledger pm.owns pg.blockPtr pg.next

namespace Mirrors

variable {pm : ObMap} {pg : Pages}

theorem new (flags : Flags) : Mirrors (ObMap.empty flags) Pages.new := by
  refine ⟨fun d => ?_, fun d t hd => ?_, fun d t hs => ?_, fun _ d hd => ?_, fun _ => rfl,
    fun i _ hi => ?_, fun _ _ _ => rfl, Ledger.empty fun b => ?_⟩
  · by_cases hd : d = 0 <;> simp [ObMap.empty, Pages.new, hd]
  · simp only [ObMap.empty, beq_iff_eq] at hd; subst hd
    by_cases ht : t = 0 <;> simp [ObMap.empty, Pages.new, Pages.store, Pages.slot, ht]
  · simp only [ObMap.empty, Bool.and_eq_true, beq_iff_eq] at hs ⊢; exact hs.1
  · simp only [ObMap.empty, beq_iff_eq] at hd; subst hd; exact ⟨rfl, rfl⟩
  · obtain ⟨h1, h2⟩ := hi
    simp only [ObMap.empty, Bool.and_eq_true, beq_iff_eq] at h1 h2
    simp [Pages.read, Pages.store, Pages.slot, Pages.cell, Pages.new, h1, h2.2, ObMap.empty]
  · cases b <;> simp [owns, ObMap.empty]

theorem congr {pm' : ObMap} (h : Mirrors pm pg) (hL : pm'.fLargeMode = pm.fLargeMode)
    (hT : pm'.tableAt = pm.tableAt) (hS : pm'.storeAt = pm.storeAt)
    (hE : pm'.entries = pm.entries) : Mirrors pm' pg := by
  obtain ⟨⟩ := pm
  obtain ⟨⟩ := pm'
  simp only at hL hT hS hE
  subst hL hT hS hE
  exact ⟨h.1, h.2, h.3, h.4, h.5, h.6, h.7, h.8⟩

theorem withAlloc (h : Mirrors pm pg) (p : MemPtr) (n : Nat) (t : List MemCall) :
    Mirrors pm { pg with pHashMapValue := p, cBlock := n, trace := t } :=
  ⟨h.1, h.2, h.3, h.4, h.5, h.6, h.7, h.8⟩

theorem small_store (h : Mirrors pm pg) (hL : pm.fLargeMode = false) {d t : Nat}
    (hs : pm.storeAt d t = true) : d = 0 ∧ t = 0 := by
  obtain ⟨rfl, hd⟩ := h.small hL d (h.store_table d t hs)
  refine ⟨rfl, by_contra fun ht => ?_⟩
  have := (h.store 0 t (h.store_table 0 t hs)).1 hs
  simp [Pages.store, hd, Pages.slot, ht] at this

theorem table_ptr (h : Mirrors pm pg) {d : Nat} (ht : pm.tableAt d = true) :
    (pm.fLargeMode = false ∧ d = 0 ∧ pg.directory d = .smallTable) ∨
      (pm.owns (.table d) = true ∧ ∃ n < pg.next, pg.directory d = .heap n) := by
  cases hL : pm.fLargeMode
  · exact .inl ⟨rfl, h.small hL d ht⟩
  · have ho : pm.owns (.table d) = true := by simp [owns, hL, ht]
    obtain ⟨n, hn, he⟩ := h.ledger.heap _ _ ho rfl
    exact .inr ⟨ho, n, hn, he⟩

theorem store_ptr (h : Mirrors pm pg) {d t : Nat} (hs : pm.storeAt d t = true) :
    (d = 0 ∧ t = 0 ∧ pg.store d t = .store00) ∨
      (pm.owns (.store d t) = true ∧ ∃ n < pg.next, pg.store d t = .heap n) := by
  by_cases h0 : d = 0 ∧ t = 0
  · obtain ⟨rfl, rfl⟩ := h0
    exact .inl ⟨rfl, rfl, h.store00 (h.store_table 0 0 hs)⟩
  have hL : pm.fLargeMode = true := by
    cases hL : pm.fLargeMode
    · exact absurd (h.small_store hL hs) h0
    · rfl
  have ho : pm.owns (.store d t) = true := by
    simp only [owns, hL, hs, Bool.true_and, Bool.or_eq_true, bne_iff_ne, ne_eq]
    exact not_and_or.mp h0
  obtain ⟨n, hn, he⟩ := h.ledger.heap _ _ ho rfl
  exact .inr ⟨ho, n, hn, he⟩

theorem table_inj (h : Mirrors pm pg) {d d' : Nat} (ht : pm.tableAt d = true)
    (ht' : pm.tableAt d' = true) (he : pg.directory d = pg.directory d') : d = d' := by
  rcases h.table_ptr ht with ⟨-, rfl, h0⟩ | ⟨ho, n, -, hn⟩ <;>
    rcases h.table_ptr ht' with ⟨-, rfl, h0'⟩ | ⟨ho', n', -, hn'⟩
  · rfl
  · rw [h0, hn'] at he; cases he
  · rw [hn, h0'] at he; cases he
  · rw [hn, hn'] at he; cases he
    cases h.ledger.inj _ _ n ho ho' (by simp [Pages.blockPtr, hn]) (by simp [Pages.blockPtr, hn'])
    rfl

theorem store_inj (h : Mirrors pm pg) {d t d' t' : Nat} (hs : pm.storeAt d t = true)
    (hs' : pm.storeAt d' t' = true) (he : pg.store d t = pg.store d' t') : d = d' ∧ t = t' := by
  rcases h.store_ptr hs with ⟨rfl, rfl, h0⟩ | ⟨ho, n, -, hn⟩ <;>
    rcases h.store_ptr hs' with ⟨rfl, rfl, h0'⟩ | ⟨ho', n', -, hn'⟩
  · exact ⟨rfl, rfl⟩
  · rw [h0, hn'] at he; cases he
  · rw [hn, h0'] at he; cases he
  · rw [hn, hn'] at he; cases he
    cases h.ledger.inj _ _ n ho ho' (by simp [Pages.blockPtr, hn]) (by simp [Pages.blockPtr, hn'])
    exact ⟨rfl, rfl⟩

theorem directory_ne_next (h : Mirrors pm pg) (d : Nat) : pg.directory d ≠ .heap pg.next := by
  by_cases ht : pm.tableAt d = true
  · rcases h.table_ptr ht with ⟨-, -, h0⟩ | ⟨-, n, hn, he⟩
    · rw [h0]; exact Ptr.noConfusion
    · rw [he]; exact fun he' => by cases he'; omega
  · rw [not_not.mp (mt (h.table d).mpr ht)]; exact Ptr.noConfusion

theorem read_write (h : Mirrors pm pg) {i j : Nat} (hi : i < OB_MAP_TABLE_MAX_CAPACITY)
    (hj : j < OB_MAP_TABLE_MAX_CAPACITY) (hri : pm.Resolves i) (hrj : pm.Resolves j) (e : Entry) :
    (pg.write i e).read j = if j = i then some e else pg.read j := by
  simp only [Pages.read, Pages.write, Pages.store_setCell]
  split_ifs with hji
  · subst hji
    apply Pages.cell_setCell_self
    rcases h.store_ptr hri.2 with ⟨-, -, h0⟩ | ⟨-, n, -, hn⟩
    exacts [.inl h0, .inr ⟨n, hn⟩]
  · apply Pages.cell_setCell_of_ne
    by_contra hc
    push_neg at hc
    obtain ⟨hd, ht⟩ := h.store_inj hrj.2 hri.2 hc.1
    exact hji (eq_of_indices_eq hj hi hd ht hc.2)

theorem write (h : Mirrors pm pg) {i : Nat} (hi : i < OB_MAP_TABLE_MAX_CAPACITY)
    (hri : pm.Resolves i) (e : Entry) :
    Mirrors { pm with entries := update pm.entries i e } (pg.write i e) := by
  have hl : Ledger pm.owns (pg.write i e).blockPtr pg.next := h.ledger.congr rfl fun b _ => by simp
  refine ⟨fun d => by simpa using h.table d, fun d t hd => by simpa using h.store d t hd,
    h.store_table, fun hL d hd => by simpa using h.small hL d hd, fun h0 => by simpa using h.store00 h0,
    fun j hj hrj => ?_, fun j hj hnr => ?_, by simpa using hl⟩
  · rw [h.read_write hi hj hri hrj]
    split_ifs with hji
    · subst hji; simp
    · simp [update_noteq hji, h.read j hj hrj]
  · have hji : j ≠ i := fun hji => hnr (hji ▸ hri)
    simp [update_noteq hji, h.zero j hj hnr]

theorem allocTable (h : Mirrors pm pg) (hL : pm.fLargeMode = true) (h0 : pm.tableAt 0 = true)
    {d : Nat} (hd : pm.tableAt d = false) :
    Mirrors { pm with tableAt := update pm.tableAt d true, storeAt := update pm.storeAt d fun _ => false }
      (pg.allocTable d) := by
  have hd0 : 0 ≠ d := by rintro rfl; rw [h0] at hd; cases hd
  have hsd : ∀ t, pm.storeAt d t = false := fun t => Bool.eq_false_iff.mpr fun hs => by
    rw [h.store_table d t hs] at hd; cases hd
  have hdir : ∀ d', d' ≠ d → (pg.allocTable d).directory d' = pg.directory d' := fun d' hd' =>
    update_noteq hd' _ _
  have hstore : ∀ d' t, d' ≠ d → (pg.allocTable d).store d' t = pg.store d' t := fun d' t hd' => by
    rw [Pages.store, hdir d' hd', Pages.slot_allocTable _ _ _ _ (h.directory_ne_next d')]; rfl
  refine ⟨fun d' => ?_, fun d' t hd' => ?_, fun d' t hs => ?_, fun hL' => by simp [hL] at hL',
    fun _ => by rw [hstore 0 0 hd0]; exact h.store00 h0, fun i hi hri => ?_,
    fun i hi hnr => h.zero i hi fun hr => hnr ?_, h.ledger.extend (.table d) (by simp [owns, hL])
      (by simp [Pages.blockPtr, Pages.allocTable]) (fun b hb => ?_) (fun b hb => ?_)⟩
  · by_cases hdd : d' = d
    · subst hdd; simp [Pages.allocTable]
    · simpa [update_noteq hdd, hdir d' hdd] using h.table d'
  · by_cases hdd : d' = d
    · subst hdd; simp [Pages.store, Pages.allocTable, Pages.slot]
    · simpa [update_noteq hdd, hstore d' t hdd] using h.store d' t (by simpa [update_noteq hdd] using hd')
  · by_cases hdd : d' = d
    · subst hdd; simp at hs
    · simpa [update_noteq hdd] using h.store_table d' t (by simpa [update_noteq hdd] using hs)
  · obtain ⟨h1, h2⟩ := hri
    have hdi : indexDirectory i ≠ d := by rintro he; rw [he] at h2; simp at h2
    have hr : pm.Resolves i := ⟨by simpa [update_noteq hdi] using h1, by simpa [update_noteq hdi] using h2⟩
    rw [Pages.read, hstore _ _ hdi, Pages.cell_allocTable]
    exact h.read i hi hr
  · have hdi : indexDirectory i ≠ d := fun he => by
      have h1 := hr.1; rw [he, hd] at h1; exact Bool.false_ne_true h1
    exact ⟨by simpa [update_noteq hdi] using hr.1, by simpa [update_noteq hdi] using hr.2⟩
  · cases b with
    | hashMap => exact ⟨hb, rfl⟩
    | table d' =>
      have hdd : d' ≠ d := by rintro rfl; simp [owns, hd] at hb
      exact ⟨by simpa [owns, update_noteq hdd] using hb, by simp [Pages.blockPtr, hdir d' hdd]⟩
    | store d' t =>
      have hdd : d' ≠ d := by rintro rfl; simp [owns, hsd] at hb
      exact ⟨by simpa [owns, update_noteq hdd] using hb, by simp [Pages.blockPtr, hstore d' t hdd]⟩
  · cases b with
    | hashMap => exact .inl hb
    | table d' =>
      by_cases hdd : d' = d
      · exact .inr (.inl (hdd ▸ rfl))
      · exact .inl (by simpa [owns, update_noteq hdd] using hb)
    | store d' t =>
      have hdd : d' ≠ d := by rintro rfl; simp [owns] at hb
      exact .inl (by simpa [owns, update_noteq hdd] using hb)

theorem store_ne_next (h : Mirrors pm pg) {d t : Nat} (hs : pm.storeAt d t = true) :
    pg.store d t ≠ .heap pg.next := by
  rcases h.store_ptr hs with ⟨-, -, h0⟩ | ⟨-, n, hn, he⟩
  · rw [h0]; exact Ptr.noConfusion
  · rw [he]; exact fun he' => by cases he'; omega

theorem allocStore (h : Mirrors pm pg) (hL : pm.fLargeMode = true) {d t : Nat}
    (hd : pm.tableAt d = true) (hs : pm.storeAt d t = false) (h00 : pm.storeAt 0 0 = true) :
    Mirrors { pm with storeAt := update pm.storeAt d (update (pm.storeAt d) t true) }
      (pg.allocStore d t) := by
  obtain ⟨m, -, hdm⟩ : ∃ m < pg.next, pg.directory d = .heap m := by
    rcases h.table_ptr hd with ⟨hL', -⟩ | ⟨-, hm⟩
    · rw [hL] at hL'; cases hL'
    · exact hm
  have hdirm : ∀ d', pg.directory d' = .heap m ↔ d' = d := by
    refine fun d' => ⟨fun hd' => ?_, fun hd' => hd' ▸ hdm⟩
    by_cases ht' : pm.tableAt d' = true
    · exact h.table_inj ht' hd (hd'.trans hdm.symm)
    · rw [not_not.mp (mt (h.table d').mpr ht')] at hd'; cases hd'
  have hstore : ∀ d' t', (pg.allocStore d t).store d' t' =
      if d' = d ∧ t' = t then .heap pg.next else pg.store d' t' := fun d' t' => by
    simp only [Pages.store, Pages.allocStore_directory pg hdm, Pages.slot_allocStore pg _ hdm, hdirm]
  have hS : ∀ d' t', update pm.storeAt d (update (pm.storeAt d) t true) d' t' =
      if d' = d ∧ t' = t then true else pm.storeAt d' t' := fun d' t' => by
    by_cases hdd : d' = d
    · subst hdd; by_cases htt : t' = t <;> simp [htt]
    · simp [hdd]
  have hdt : ¬(d = 0 ∧ t = 0) := by rintro ⟨rfl, rfl⟩; rw [h00] at hs; cases hs
  refine ⟨fun d' => by simpa [Pages.allocStore_directory pg hdm] using h.table d',
    fun d' t' hd' => ?_, fun d' t' hs' => ?_, fun hL' => by simp [hL] at hL', fun _ => ?_,
    fun i hi hri => ?_, fun i hi hnr => h.zero i hi fun hr => hnr ⟨hr.1, ?_⟩, ?_⟩
  · simp only [hS, hstore]
    split_ifs
    · simp
    · exact h.store d' t' hd'
  · simp only [hS] at hs'
    split_ifs at hs' with hdd
    · exact hdd.1 ▸ hd
    · exact h.store_table d' t' hs'
  · rw [hstore, if_neg fun h' => hdt ⟨h'.1.symm, h'.2.symm⟩]
    exact h.store00 (h.store_table 0 0 h00)
  · obtain ⟨h1, h2⟩ := hri
    simp only [hS] at h2
    rw [Pages.read, hstore]
    split_ifs at h2 ⊢ with hp
    · rw [Pages.cell_allocStore pg _ _ hdm, if_pos rfl]
      have hnr : ¬ pm.Resolves i := fun hr => by
        have := hr.2; rw [hp.1, hp.2, hs] at this; cases this
      rw [h.zero i hi hnr]
    · rw [Pages.cell_allocStore pg _ _ hdm, if_neg (h.store_ne_next h2)]
      exact h.read i hi ⟨h1, h2⟩
  · simp only [hS]; split_ifs
    · rfl
    · exact hr.2
  · rw [Pages.allocStore_next pg hdm]
    refine h.ledger.extend (.store d t) ?_ ?_ (fun b hb => ?_) (fun b hb => ?_)
    · simp only [owns, hL, hS, and_self, if_true, Bool.true_and, Bool.or_eq_true, bne_iff_ne, ne_eq]
      exact not_and_or.mp hdt
    · simp [Pages.blockPtr, hstore]
    · cases b with
      | hashMap => exact ⟨hb, rfl⟩
      | table d' => exact ⟨hb, by simp [Pages.blockPtr, Pages.allocStore_directory pg hdm]⟩
      | store d' t' =>
        have hne : ¬(d' = d ∧ t' = t) := by rintro ⟨rfl, rfl⟩; simp [owns, hs] at hb
        exact ⟨by simpa [owns, hS, hne] using hb, by simp [Pages.blockPtr, hstore, hne]⟩
    · cases b with
      | hashMap => exact .inl hb
      | table d' => exact .inl hb
      | store d' t' =>
        by_cases hne : d' = d ∧ t' = t
        · obtain ⟨rfl, rfl⟩ := hne; exact .inr (.inl rfl)
        · exact .inl (by simpa [owns, hS, hne] using hb)

theorem toLargeMode (h : Mirrors pm pg) (hL : pm.fLargeMode = false)
    (h00 : pm.tableAt 0 = true ∧ pm.storeAt 0 0 = true) :
    Mirrors pm.toLargeMode pg.toLargeMode := by
  have hno : ∀ b, pm.owns b = false := fun b => by cases b <;> simp [owns, hL]
  have hT : ∀ d, pm.toLargeMode.tableAt d = true ↔ d = 0 := fun d => by
    by_cases hd : d = 0
    · subst hd; simp [ObMap.toLargeMode]
    · simp only [ObMap.toLargeMode, update_noteq hd, hd, iff_false]
      exact fun ht => hd (h.small hL d ht).1
  have hS : ∀ d t, pm.toLargeMode.storeAt d t = true ↔ d = 0 ∧ t = 0 := fun d t => by
    by_cases hd : d = 0
    · subst hd; simp [ObMap.toLargeMode]
    · simp only [ObMap.toLargeMode, update_noteq hd, hd, false_and, iff_false]
      exact fun hs => hd (h.small_store hL hs).1
  refine ⟨fun d => ?_, fun d t hd => ?_, fun d t hs => (hT d).mpr ((hS d t).mp hs).1,
    fun hL' => by simp [ObMap.toLargeMode] at hL', fun _ => by simp [Pages.toLargeMode_store],
    fun i hi hri => ?_, fun i hi hnr => h.zero i hi fun hr => hnr ?_, ?_⟩
  · by_cases hd : d = 0 <;> simp [hT, Pages.toLargeMode_directory, hd]
  · obtain rfl := (hT d).mp hd
    by_cases ht : t = 0 <;> simp [hS, Pages.toLargeMode_store, ht]
  · obtain ⟨hd, ht⟩ := (hS _ _).mp hri.2
    have hr : pm.Resolves i := ⟨hd ▸ h00.1, hd ▸ ht ▸ h00.2⟩
    show _ = some (pm.entries i)
    rw [← h.read i hi hr, Pages.read, Pages.read, Pages.toLargeMode_store, hd, ht,
      h.store00 h00.1, if_pos ⟨rfl, rfl⟩, Pages.cell_toLargeMode]
  · obtain ⟨hd, -⟩ := h.small hL _ hr.1
    exact ⟨(hT _).mpr hd, (hS _ _).mpr ⟨hd, (h.small_store hL hr.2).2⟩⟩
  · rw [Pages.toLargeMode_next]
    refine h.ledger.extend (.table 0) (by simp [owns, ObMap.toLargeMode])
      (by simp [Pages.blockPtr, Pages.toLargeMode_directory]) (fun b hb => ?_) (fun b hb => ?_)
    · rw [hno] at hb; cases hb
    · cases b with
      | hashMap => exact .inr (.inr rfl)
      | table d => exact .inr (.inl (by rw [(hT d).mp (by simp [owns] at hb; exact hb.2)]))
      | store d t =>
        obtain ⟨rfl, rfl⟩ := (hS d t).mp (by simp [owns] at hb; exact hb.1.2)
        simp [owns] at hb

end Mirrors

end LeechCore.ObMap
