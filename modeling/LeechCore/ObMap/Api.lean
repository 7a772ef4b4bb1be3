import LeechCore.ObMap.Filter
import LeechCore.ObMap.Sort

/-!
# The public calls and the reachable maps

`call` dispatches each public `ObMap_*` function; `Reachable` is every map `ObMap_New` and the
calls after it return with every allocation succeeding, and the invariant holds of each.
-/

namespace LeechCore.ObMap

set_option autoImplicit false

open Function Probe

/-- A public call on an existing map, with its arguments. -/
inductive Call
  | push (qwKey pvObject : UInt64)
  | pushCopy (qwKey pvObjectCopy : UInt64)
  | remove (pvObject : UInt64)
  | removeByKey (qwKey : UInt64)
  | pop
  | popWithKey
  | removeByFilter (pfn : UInt64 → UInt64 → Bool)
  | clear
  | sortEntryIndex (pfnSort : Entry → Entry → Int)
  | sortEntryIndexByKey
  | size
  | exists_ (pvObject : UInt64)
  | existsKey (qwKey : UInt64)
  | getByIndex (index : UInt32)
  | getByKey (qwKey : UInt64)
  | getNext (pvObject : UInt64)
  | getNextByKey (qwKey pvObject : UInt64)
  | getNextByKeySorted (qwKey pvObject : UInt64)
  | getNextByIndex (dwIndex : UInt32) (pvObject : UInt64)
  | getKey (pvObject : UInt64)
  | peek
  | peekKey
  | filter

/-- What a call returns: a `BOOL`, a pointer or `QWORD`, a `DWORD` count, a value with the key
written to `*pKey` (if any), or a value with the new cursor `*pdwIndex`. -/
inductive Ret
  | bool (b : Bool)
  | qword (x : UInt64)
  | count (n : Nat)
  | withKey (pv : UInt64) (k : Option UInt64)
  | withIndex (pv : UInt64) (dwIndex : UInt32)
deriving DecidableEq, Repr

/-- The routine each public call runs, with the outcome `alloc` of each `LocalAlloc`. -/
def call (alloc : AllocSite → Bool) (pm : ObMap) : Call → Option (ObMap × Ret)
  | .push k v => (pm.push k v alloc).map fun r => (r.1, .bool r.2)
  | .pushCopy k pv => (pm.pushCopy k pv alloc).map fun r => (r.1, .bool r.2)
  | .remove v => (pm.removeOrRemoveByKey true v).map fun r => (r.1, .qword r.2)
  | .removeByKey k => (pm.removeOrRemoveByKey false k).map fun r => (r.1, .qword r.2)
  | .pop => pm.pop.map fun r => (r.1, .qword r.2.1)
  | .popWithKey => pm.pop.map fun r => (r.1, .withKey r.2.1 r.2.2)
  | .removeByFilter pfn => (pm.removeByFilter pfn).map fun r => (r.1, .count r.2)
  | .clear => some (pm.clear, .bool true)
  | .sortEntryIndex cmp => (pm.sortEntryIndex cmp (alloc .sortBuffer)).map fun r => (r.1, .bool r.2)
  | .sortEntryIndexByKey =>
    (pm.sortEntryIndex sortEntryIndexByKeyCmpSort (alloc .sortBuffer)).map fun r => (r.1, .bool r.2)
  | .size => some (pm, .count pm.size)
  | .exists_ v => (pm.exists_ true v).map fun b => (pm, .bool b)
  | .existsKey k => (pm.exists_ false k).map fun b => (pm, .bool b)
  | .getByIndex index => some ((pm.getByIndex index).1, .qword (pm.getByIndex index).2)
  | .getByKey k => (pm.getByKey k).map fun r => (r.1, .qword r.2)
  | .getNext v => (pm.getNext v).map fun r => (r.1, .qword r.2)
  | .getNextByKey k v => (pm.getNextByKey k v).map fun r => (r.1, .qword r.2)
  | .getNextByKeySorted k v => (pm.getNextByKeySorted k v).map fun r => (r.1, .qword r.2)
  | .getNextByIndex idx v =>
    some ((pm.getNextByIndex idx v).1, .withIndex (pm.getNextByIndex idx v).2.2
      (pm.getNextByIndex idx v).2.1)
  | .getKey v => (pm.getKey v).map fun k => (pm, .qword k)
  | .peek => some (pm.peek.1, .qword pm.peek.2)
  | .peekKey => some (pm, .qword pm.peekKey)
  | .filter => some (pm.filter, .bool true)

/-- The maps a program can hold: one `ObMap_New` returned, and every map a public call leaves
when every allocation succeeds. -/
inductive Reachable : ObMap → Prop
  | new {flags : Flags} {pm : ObMap} : ObMap.new flags = some pm → Reachable pm
  | call {pm pm' : ObMap} {c : Call} {r : Ret} :
      Reachable pm → pm.call allocOk c = some (pm', r) → Reachable pm'

variable {pm : ObMap}

section Queries

@[simp] theorem core_ite_emit (b : Bool) (e : Effect) :
    (if b then pm.emit e else pm).core = pm.core := by
  cases b <;> rfl

@[simp] theorem core_getByEntryIndex (i : Nat) : (pm.getByEntryIndex i).1.core = pm.core :=
  core_ite_emit _ _

@[simp] theorem core_filter : pm.filter.core = pm.core := rfl

theorem core_getNextByIndex (idx : UInt32) (v : UInt64) :
    (pm.getNextByIndex idx v).1.core = pm.core := by
  simp only [getNextByIndex, core_getByEntryIndex, core_ite_emit]

theorem core_of_map {q : ObMap} {F : Option Nat → ObMap × UInt64} (hF : ∀ o, (F o).1.core = q.core)
    {res : Option (Option Nat)} {pm' : ObMap} {x : UInt64} (h : res.map F = some (pm', x)) :
    pm'.core = q.core := by
  obtain ⟨o, -, ho⟩ := Option.map_eq_some'.mp h
  rw [← hF o, ho]

theorem core_getByKey {k : UInt64} {pm' : ObMap} {x : UInt64}
    (h : pm.getByKey k = some (pm', x)) : pm'.core = pm.core :=
  core_of_map (fun o => by cases o <;> simp only [core_getByEntryIndex]) h

theorem core_getNext {v : UInt64} {pm' : ObMap} {x : UInt64}
    (h : pm.getNext v = some (pm', x)) : pm'.core = pm.core := by
  unfold getNext at h
  by_cases hv : v = 0
  · rw [if_pos hv] at h; cases h; exact core_getByEntryIndex 1
  · rw [if_neg hv] at h; dsimp only at h
    exact core_of_map (fun o => by cases o <;> simp only [core_getByEntryIndex, core_ite_emit]) h

theorem core_getNextByKey {k v : UInt64} {pm' : ObMap} {x : UInt64}
    (h : pm.getNextByKey k v = some (pm', x)) : pm'.core = pm.core := by
  unfold getNextByKey at h
  by_cases hv : v = 0
  · rw [if_pos hv] at h; cases h; exact core_getByEntryIndex 1
  · rw [if_neg hv] at h; dsimp only at h
    exact core_of_map (fun o => by cases o <;> simp only [core_getByEntryIndex, core_ite_emit]) h

theorem core_getNextByKeySorted {k v : UInt64} {pm' : ObMap} {x : UInt64}
    (h : pm.getNextByKeySorted k v = some (pm', x)) : pm'.core = pm.core := by
  unfold getNextByKeySorted at h; dsimp only at h
  exact core_of_map (fun o => by cases o <;> simp only [core_getByEntryIndex, core_ite_emit]) h

end Queries

theorem Inv.call (h : pm.Inv) {c : Call} {pm' : ObMap} {r : Ret}
    (hc : pm.call allocOk c = some (pm', r)) : pm'.Inv := by
  cases c <;> simp only [ObMap.call, Option.map_eq_some', Option.some.injEq, Prod.mk.injEq] at hc
  case push k v =>
    obtain ⟨r', hr', hinv, -⟩ := h.push k v
    obtain ⟨_, hp, rfl, -⟩ := hc
    rw [hr', Option.some.injEq] at hp; subst hp; exact hinv
  case pushCopy k v =>
    obtain ⟨r', hr', hinv, -⟩ := h.pushCopy k v
    obtain ⟨_, hp, rfl, -⟩ := hc
    rw [hr', Option.some.injEq] at hp; subst hp; exact hinv
  case remove v =>
    obtain ⟨r', hr', hinv, -⟩ := h.removeOrRemoveByKey true v
    obtain ⟨_, hp, rfl, -⟩ := hc
    rw [hr', Option.some.injEq] at hp; subst hp; exact hinv
  case removeByKey k =>
    obtain ⟨r', hr', hinv, -⟩ := h.removeOrRemoveByKey false k
    obtain ⟨_, hp, rfl, -⟩ := hc
    rw [hr', Option.some.injEq] at hp; subst hp; exact hinv
  case pop | popWithKey =>
    obtain ⟨_, hp, rfl, -⟩ := hc
    rcases h.pop with ⟨-, hpop⟩ | ⟨-, tk, tv, hpop, hinv⟩ <;>
      rw [hpop, Option.some.injEq] at hp <;> subst hp
    · exact h
    · exact hinv
  case removeByFilter pfn =>
    obtain ⟨pm'', n, hrun, hs⟩ := h.removeByFilter pfn
    obtain ⟨_, hp, rfl, -⟩ := hc
    rw [hrun, Option.some.injEq] at hp; subst hp; exact hs.inv
  case clear => obtain ⟨rfl, -⟩ := hc; exact h.clear.1
  case sortEntryIndex cmp =>
    obtain ⟨pm'', hs, hinv, -⟩ := h.sortEntryIndex cmp
    obtain ⟨_, hp, rfl, -⟩ := hc
    rw [show allocOk .sortBuffer = true from rfl, hs, Option.some.injEq] at hp; subst hp; exact hinv
  case sortEntryIndexByKey =>
    obtain ⟨pm'', hs, hinv, -⟩ := h.sortEntryIndex sortEntryIndexByKeyCmpSort
    obtain ⟨_, hp, rfl, -⟩ := hc
    rw [show allocOk .sortBuffer = true from rfl, hs, Option.some.injEq] at hp; subst hp; exact hinv
  case size => obtain ⟨rfl, -⟩ := hc; exact h
  case exists_ | existsKey => obtain ⟨_, -, rfl, -⟩ := hc; exact h
  case getByIndex => obtain ⟨rfl, -⟩ := hc; exact h.of_core (core_getByEntryIndex _)
  case getByKey => obtain ⟨_, hp, rfl, -⟩ := hc; exact h.of_core (core_getByKey hp)
  case getNext => obtain ⟨_, hp, rfl, -⟩ := hc; exact h.of_core (core_getNext hp)
  case getNextByKey => obtain ⟨_, hp, rfl, -⟩ := hc; exact h.of_core (core_getNextByKey hp)
  case getNextByKeySorted =>
    obtain ⟨_, hp, rfl, -⟩ := hc; exact h.of_core (core_getNextByKeySorted hp)
  case getNextByIndex => obtain ⟨rfl, -⟩ := hc; exact h.of_core (core_getNextByIndex _ _)
  case getKey => obtain ⟨_, -, rfl, -⟩ := hc; exact h
  case peek => obtain ⟨rfl, -⟩ := hc; exact h.of_core (core_getByEntryIndex _)
  case peekKey => obtain ⟨rfl, -⟩ := hc; exact h
  case filter => obtain ⟨rfl, -⟩ := hc; exact h.of_core core_filter

theorem Reachable.empty {flags : Flags} (h : (flags.objectOb && flags.objectLocalFree) = false) :
    Reachable (ObMap.empty flags) :=
  .new (show ObMap.new flags = _ by simp only [ObMap.new, h, Bool.false_eq_true, if_false])

theorem Reachable.inv (h : Reachable pm) : pm.Inv := by
  induction h with
  | new hnew =>
    unfold ObMap.new at hnew
    split_ifs at hnew
    cases hnew
    exact Inv.empty _
  | call _ hc ih => exact ih.call hc

theorem ofNat_ne_ofNat {a b : Nat} (ha : a < 2 ^ 64) (hb : b < 2 ^ 64) (hab : a ≠ b) :
    UInt64.ofNat a ≠ UInt64.ofNat b := fun he => hab <| by
  have := congrArg UInt64.toNat he
  rwa [UInt64.toNat_ofNat_of_lt ha, UInt64.toNat_ofNat_of_lt hb] at this

section Filled

/-- `ObMap_New(flags)`, then `ObMap_Push(pm, 2 * i, i)` for `i = 1, ..., n`. -/
def filled (flags : Flags) : Nat → ObMap
  | 0 => ObMap.empty flags
  | n + 1 => ((filled flags n).push (UInt64.ofNat (2 * (n + 1))) (UInt64.ofNat (n + 1))
      allocOk).elim (filled flags n) Prod.fst

/-- What `n` pushes of the fresh pairs `(2 * i, i)` leave in a new map. -/
structure Filled (flags : Flags) (n : Nat) (pm : ObMap) : Prop where
  reachable : Reachable pm
  c : pm.c = n + 1
  entries : ∀ i ∈ pm.live, pm.entries i = ⟨UInt64.ofNat (2 * i), UInt64.ofNat i⟩
  fKey : pm.fKey = !flags.nokey
  fObjectsOb : pm.fObjectsOb = flags.objectOb
  fObjectsLocalFree : pm.fObjectsLocalFree = flags.objectLocalFree
  small : n < 0xc0 → pm.fLargeMode = false ∧ pm.cHashGrowThreshold = 0xc0

variable {flags : Flags} {n : Nat}

theorem Filled.fresh (hs : Filled flags n pm) (hn : n + 1 < OB_MAP_TABLE_MAX_CAPACITY) :
    pm.Fresh (UInt64.ofNat (2 * (n + 1))) (UInt64.ofNat (n + 1)) := by
  rw [OB_MAP_TABLE_MAX_CAPACITY_eq] at hn
  have hlt : ∀ i ∈ pm.live, i < n + 1 := fun i hi => by rw [mem_live, hs.c] at hi; omega
  exact ⟨by simpa using ofNat_ne_ofNat (b := 0) (by omega) (by omega) (by omega),
    fun i hi => by
      rw [hs.entries i hi]; have := hlt i hi; exact ofNat_ne_ofNat (by omega) (by omega) (by omega),
    fun _ i hi => by
      rw [hs.entries i hi]; have := hlt i hi; exact ofNat_ne_ofNat (by omega) (by omega) (by omega),
    by rw [hs.c, OB_MAP_TABLE_MAX_CAPACITY_eq]; omega⟩

theorem Filled.push (hs : Filled flags n (filled flags n))
    (hn : n + 1 < OB_MAP_TABLE_MAX_CAPACITY) :
    (filled flags n).push (UInt64.ofNat (2 * (n + 1))) (UInt64.ofNat (n + 1)) allocOk =
        some (filled flags (n + 1), true) ∧
      Filled flags (n + 1) (filled flags (n + 1)) := by
  obtain ⟨r, hr, -, hok, -, hframe⟩ := hs.reachable.inv.push (UInt64.ofNat (2 * (n + 1)))
    (UInt64.ofNat (n + 1))
  obtain ⟨hr2, ha⟩ := hok (hs.fresh hn)
  have hfill : filled flags (n + 1) = r.1 := by simp only [filled, hr, Option.elim]
  rw [hfill, hr, ← hr2]
  refine ⟨rfl, .call hs.reachable (c := .push (UInt64.ofNat (2 * (n + 1))) (UInt64.ofNat (n + 1)))
    (r := .bool r.2) (by simp [ObMap.call, hr]),
    by rw [ha.c, hs.c], fun i hi => ?_, ha.fKey.trans hs.fKey, ha.fObjectsOb.trans hs.fObjectsOb,
    ha.fObjectsLocalFree.trans hs.fObjectsLocalFree, fun hn' => ?_⟩
  · rw [mem_live, ha.c, hs.c] at hi
    rw [ha.entries, update_apply]
    split_ifs with hi'
    · rw [hi', hs.c]
    · rw [hs.c] at hi'; exact hs.entries i (by rw [mem_live, hs.c]; omega)
  · obtain ⟨hL, hT⟩ := hs.small (by omega)
    obtain ⟨hL', hT'⟩ := hframe (by rw [hs.c, hT]; omega)
    exact ⟨hL'.trans hL, hT'.trans hT⟩

theorem filled_spec (flags : Flags) (hf : (flags.objectOb && flags.objectLocalFree) = false) :
    ∀ n, n < OB_MAP_TABLE_MAX_CAPACITY → Filled flags n (filled flags n)
  | 0, _ => ⟨.empty hf, rfl, fun i hi => absurd (mem_live.mp hi) (by show ¬(0 < i ∧ i < 1); omega),
      rfl, rfl, rfl, fun _ => ⟨rfl, rfl⟩⟩
  | n + 1, hn => ((filled_spec flags hf n (by omega)).push hn).2

theorem Filled.liveEntries (hs : Filled flags n pm) :
    pm.liveEntries =
      (List.range n).map fun i => ⟨UInt64.ofNat (2 * (i + 1)), UInt64.ofNat (i + 1)⟩ := by
  simp only [ObMap.liveEntries, hs.c, Nat.add_sub_cancel]
  exact List.map_congr_left fun i hi => hs.entries (i + 1) (by
    rw [mem_live, hs.c]; rw [List.mem_range] at hi; omega)

theorem Filled.large (hs : Filled flags n pm) (hn : 0xc0 ≤ n) : pm.fLargeMode = true := by
  have h := hs.reachable.inv
  by_contra hL
  have := h.small (by simpa using hL)
  have := h.threshold
  have := h.c_le
  rw [hs.c] at this
  omega

end Filled

/-- `ObMap_RemoveByFilter` shows the filter each pair once, from the last index down, releases
each removed value once, removes exactly the selected pairs, and keeps the invariant. -/
theorem removeByFilter_removes_selected (pm : ObMap) (h : pm.Inv) (pfn : UInt64 → UInt64 → Bool) :
    ∃ pm' cRemove, pm.removeByFilter pfn = some (pm', cRemove) ∧ pm'.Inv ∧
      pm'.liveEntries.Perm (pm.liveEntries.filter fun e => !pfn e.k e.v) ∧
      cRemove = (pm.liveEntries.filter fun e => pfn e.k e.v).length ∧
      pm'.trace = pm.trace ++ pm.liveEntries.reverse.flatMap (pm.filterEffects pfn) ∧
      ∀ e ∈ pm.liveEntries, pfn e.k e.v = false →
        ∃ i ∈ pm'.live, pm'.entries i = e ∧
          pm'.getEntryIndexFromKeyOrValue true e.v = some (some i) ∧
          (pm'.fKey = true → pm'.getEntryIndexFromKeyOrValue false e.k = some (some i)) := by
  obtain ⟨pm', cRemove, hrun, hinv, -, ⟨R, hL, hR⟩, hcount, htrace, -⟩ := h.removeByFilter pfn
  simp only [List.take_zero, List.nil_append, List.drop_zero] at hL hcount htrace
  refine ⟨pm', cRemove, hrun, hinv, hL ▸ hR, hcount, htrace, fun e he hf => ?_⟩
  have hmem : e ∈ pm'.liveEntries := by
    rw [hL]; exact hR.symm.subset (List.mem_filter.mpr ⟨he, by simp [hf]⟩)
  obtain ⟨n, hn, rfl⟩ := List.getElem_of_mem hmem
  rw [getElem_liveEntries] at hmem ⊢
  have hi : n + 1 ∈ pm'.live := by rw [mem_live]; simp at hn; omega
  refine ⟨n + 1, hi, rfl, ?_, fun hk => ?_⟩
  · obtain ⟨res, hres, hiff⟩ := hinv.lookup_value (pm'.entries (n + 1)).v
    rw [hres, (hiff (n + 1)).mpr ⟨hi, rfl⟩]
  · obtain ⟨res, hres, hiff⟩ := hinv.lookup_key hk (pm'.entries (n + 1)).k
    rw [hres, (hiff (n + 1)).mpr ⟨hi, rfl⟩]

theorem removeByFilter_removes_selected_middle :
    (filled ⟨false, true, false⟩ 3).Inv ∧
      ∃ pm' cRemove, (filled ⟨false, true, false⟩ 3).removeByFilter (fun _ v => v == 2) =
          some (pm', cRemove) ∧ pm'.Inv ∧ pm'.liveEntries.Perm [⟨2, 1⟩, ⟨6, 3⟩] ∧ cRemove = 1 ∧
        pm'.trace = (filled ⟨false, true, false⟩ 3).trace ++
          [.filter 6 3, .filter 4 2, .decref 2, .filter 2 1] ∧
        ∃ i ∈ pm'.live, pm'.entries i = ⟨6, 3⟩ ∧
          pm'.getEntryIndexFromKeyOrValue true 3 = some (some i) := by
  have hs := filled_spec ⟨false, true, false⟩ rfl 3 (by decide)
  obtain ⟨pm', n, hrun, hinv, hperm, hcount, htrace, hkept⟩ :=
    removeByFilter_removes_selected _ hs.reachable.inv (fun _ v => v == 2)
  rw [hs.liveEntries] at hperm hcount htrace hkept
  obtain ⟨i, hi, he, hv, -⟩ := hkept ⟨6, 3⟩ (by decide) rfl
  refine ⟨hs.reachable.inv, pm', n, hrun, hinv, hperm, hcount, ?_, i, hi, he, hv⟩
  rw [htrace]
  simp [filterEffects, releaseEffects, hs.fObjectsOb, hs.fObjectsLocalFree, List.range_succ]

/-- The representation invariant in the terms of the map's layout: (a) the counters, (b) the
paths of the live indices, (c) the values and keys, (d) the value hash map and (e) the key hash
map, each holding every live index in exactly one slot reachable from its hash. -/
structure Representation (pm : ObMap) : Prop where
  counters : 1 ≤ pm.c ∧ pm.c ≤ pm.cHashGrowThreshold ∧ (∃ m, pm.cHashMax = 2 ^ m) ∧
    pm.cHashGrowThreshold = 3 * pm.cHashMax / 4 ∧ pm.c ≤ 2 ^ 25
  small : pm.fLargeMode = false → pm.cHashMax = 0x100 ∧ pm.c ≤ 0xc0 ∧
    ∀ i ∈ pm.live, indexDirectory i = 0 ∧ indexTable i = 0
  paths : pm.tableAt 0 = true ∧ pm.storeAt 0 0 = true ∧ ∀ i ∈ pm.live, pm.Resolves i
  entries : (∀ i ∈ pm.live, (pm.entries i).v ≠ 0) ∧
    (∀ i ∈ pm.live, ∀ j ∈ pm.live, (pm.entries i).v = (pm.entries j).v → i = j) ∧
    (pm.fKey = true → ∀ i ∈ pm.live, ∀ j ∈ pm.live, (pm.entries i).k = (pm.entries j).k → i = j)
  valueHash : Valid pm.cHashMax (pm.home true) (pm.hashTable true) pm.live
  keyHash : pm.fKey = true → Valid pm.cHashMax (pm.home false) (pm.hashTable false) pm.live

theorem Inv.representation (h : pm.Inv) : pm.Representation := by
  have hT := h.threshold
  have hsmall : pm.fLargeMode = false → pm.cHashMax = 0x100 ∧ pm.c ≤ 0xc0 := fun hL => by
    have := h.small hL; have := h.c_le; omega
  refine ⟨⟨h.c_pos, h.c_le, h.pow2, by omega, OB_MAP_TABLE_MAX_CAPACITY_eq ▸ h.c_le_max⟩,
    fun hL => ⟨(hsmall hL).1, (hsmall hL).2, fun i hi => index_zero_of_lt ?_⟩,
    ⟨h.store00.1, h.store00.2, h.resolves⟩,
    ⟨h.value_ne_zero, fun i hi j hj => h.values_distinct hi hj,
      fun hk i hi j hj => h.keys_distinct hk hi hj⟩,
    h.hashValue.valid, fun hk => (h.hashKey hk).valid⟩
  have := (hsmall hL).2
  rw [mem_live] at hi; omega

end LeechCore.ObMap
