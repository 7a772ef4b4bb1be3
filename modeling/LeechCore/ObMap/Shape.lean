import LeechCore.ObMap.Allocation
import LeechCore.ObMap.Lock
import LeechCore.ObMap.Order

/-!
# The allocation shape

The three index macros address distinct cells within their arrays. Only `_ObMap_Push` changes
the hash size, the mode and the tables and stores allocated, so the map only gains memory, its
tables and stores are those of a prefix of the indices (`Paged`), and the `DWORD` doublings of
`_ObMap_Grow` never wrap.
-/

namespace LeechCore

set_option autoImplicit false

/-- `OB_MAP_INDEX_STORE`. -/
def indexStore (i : Nat) : Nat := i &&& (OB_MAP_ENTRIES_STORE - 1)

theorem indexDirectory_eq (i : Nat) : indexDirectory i = i / 2 ^ 17 % 2 ^ 8 := by
  rw [indexDirectory, Nat.shiftRight_eq_div_pow, show OB_MAP_ENTRIES_DIRECTORY = 2 ^ 8 from rfl,
    Nat.and_pow_two_sub_one_eq_mod]

theorem indexTable_eq (i : Nat) : indexTable i = i / 2 ^ 8 % 2 ^ 9 := by
  rw [indexTable, Nat.shiftRight_eq_div_pow, show OB_MAP_ENTRIES_TABLE = 2 ^ 9 from rfl,
    Nat.and_pow_two_sub_one_eq_mod]

theorem indexStore_eq (i : Nat) : indexStore i = i % 2 ^ 8 := by
  rw [indexStore, show OB_MAP_ENTRIES_STORE = 2 ^ 8 from rfl, Nat.and_pow_two_sub_one_eq_mod]

theorem eq_of_indices_eq {i j : Nat} (hi : i < OB_MAP_TABLE_MAX_CAPACITY)
    (hj : j < OB_MAP_TABLE_MAX_CAPACITY) (hd : indexDirectory i = indexDirectory j)
    (ht : indexTable i = indexTable j) (hs : indexStore i = indexStore j) : i = j := by
  rw [OB_MAP_TABLE_MAX_CAPACITY_eq] at hi hj
  simp only [indexDirectory_eq, indexTable_eq, indexStore_eq, Nat.reducePow] at hd ht hs
  omega

/-- The three index macros address `Directory[d][t][s]` within its three arrays for every index
below `OB_MAP_TABLE_MAX_CAPACITY`, and two such indices share a cell only if they are equal: the
macros take the bits `17..24`, `8..16` and `0..7` of the index. -/
theorem paged_addressing (i j : Nat) (hi : i < OB_MAP_TABLE_MAX_CAPACITY)
    (hj : j < OB_MAP_TABLE_MAX_CAPACITY) :
    indexDirectory i < OB_MAP_ENTRIES_DIRECTORY ∧ indexTable i < OB_MAP_ENTRIES_TABLE ∧
      indexStore i < OB_MAP_ENTRIES_STORE ∧
      (indexDirectory i = indexDirectory j ∧ indexTable i = indexTable j ∧
        indexStore i = indexStore j ↔ i = j) := by
  refine ⟨?_, ?_, ?_, fun ⟨hd, ht, hs⟩ => eq_of_indices_eq hi hj hd ht hs,
    by rintro rfl; exact ⟨rfl, rfl, rfl⟩⟩ <;>
    simp only [indexDirectory_eq, indexTable_eq, indexStore_eq, OB_MAP_ENTRIES_DIRECTORY,
      OB_MAP_ENTRIES_TABLE, OB_MAP_ENTRIES_STORE, Nat.reducePow] <;> omega

end LeechCore

namespace LeechCore.ObMap

set_option autoImplicit false

open Function

variable {pm : ObMap}

/-- Two maps of the same allocation shape: hash size, grow threshold, mode, directory tables and
stores. -/
structure SameShape (pm pm' : ObMap) : Prop where
  cHashMax : pm'.cHashMax = pm.cHashMax
  cHashGrowThreshold : pm'.cHashGrowThreshold = pm.cHashGrowThreshold
  fLargeMode : pm'.fLargeMode = pm.fLargeMode
  tableAt : pm'.tableAt = pm.tableAt
  storeAt : pm'.storeAt = pm.storeAt

namespace SameShape

theorem refl (pm : ObMap) : SameShape pm pm := ⟨rfl, rfl, rfl, rfl, rfl⟩

theorem trans {pm' pm'' : ObMap} (h : SameShape pm pm') (h' : SameShape pm' pm'') :
    SameShape pm pm'' :=
  ⟨h'.cHashMax.trans h.cHashMax, h'.cHashGrowThreshold.trans h.cHashGrowThreshold,
    h'.fLargeMode.trans h.fLargeMode, h'.tableAt.trans h.tableAt, h'.storeAt.trans h.storeAt⟩

theorem of_core {pm' : ObMap} (he : pm'.core = pm.core) : SameShape pm pm' := by
  obtain ⟨⟩ := pm; obtain ⟨⟩ := pm'
  simp only [core, ObMap.mk.injEq] at he
  obtain ⟨rfl, rfl, rfl, rfl, -, -, -, -, -, rfl, rfl, -⟩ := he
  exact ⟨rfl, rfl, rfl, rfl, rfl⟩

end SameShape

section Routines

theorem sameShape_emit (e : Effect) : SameShape pm (pm.emit e) := ⟨rfl, rfl, rfl, rfl, rfl⟩

theorem sameShape_setHashTable (f : Bool) (t : Nat → Nat) : SameShape pm (pm.setHashTable f t) := by
  cases f <;> exact ⟨rfl, rfl, rfl, rfl, rfl⟩

theorem sameShape_setHashIndex (f : Bool) (p i : Nat) : SameShape pm (pm.setHashIndex f p i) := by
  unfold setHashIndex; split_ifs <;> exact ⟨rfl, rfl, rfl, rfl, rfl⟩

theorem sameShape_insertHash {f : Bool} {i : Nat} {pm' : ObMap} (h : pm.insertHash f i = some pm') :
    SameShape pm pm' := by
  unfold insertHash at h
  split_ifs at h
  · cases h; exact .refl _
  · split at h <;> cases h; exact sameShape_setHashIndex _ _ _

theorem sameShape_removeHash {f : Bool} {kv : UInt64} {i : Nat} {pm' : ObMap}
    (h : pm.removeHash f kv i = some pm') : SameShape pm pm' := by
  unfold removeHash at h
  split_ifs at h
  · cases h; exact .refl _
  · obtain ⟨t, -, rfl⟩ := Option.map_eq_some'.mp h; exact sameShape_setHashTable _ _

theorem sameShape_retrieveAndRemoveByEntryIndex {i : Nat} {r : ObMap × UInt64 × Option UInt64}
    (h : pm.retrieveAndRemoveByEntryIndex i = some r) : SameShape pm r.1 := by
  unfold retrieveAndRemoveByEntryIndex at h
  split at h
  · cases h; exact .refl _
  simp only [Option.bind_eq_bind, Option.bind_eq_some] at h
  obtain ⟨pm1, h1, pm2, h2, h3⟩ := h
  have h12 := (sameShape_removeHash h1).trans (sameShape_removeHash h2)
  split_ifs at h3
  · simp only [Option.bind_eq_some, Option.some_bind, Option.some.injEq] at h3
    obtain ⟨pm4, h4, pm5, h5, pm6, h6, pm7, h7, rfl⟩ := h3
    refine (((((h12.trans (sameShape_removeHash h4)).trans (sameShape_removeHash h5)).trans ?_).trans
      (sameShape_insertHash h6)).trans (sameShape_insertHash h7)).trans ?_
    all_goals exact ⟨rfl, rfl, rfl, rfl, rfl⟩
  · simp only [Option.some_bind, Option.some.injEq] at h3
    subst h3; exact h12.trans ⟨rfl, rfl, rfl, rfl, rfl⟩

theorem sameShape_release (pv : UInt64) : SameShape pm (pm.release pv) := by
  rw [release_eq]; exact ⟨rfl, rfl, rfl, rfl, rfl⟩

theorem sameShape_removeByFilterLoop (pfn : UInt64 → UInt64 → Bool) :
    ∀ (n : Nat) (pm : ObMap) (cRemove : Nat) {r : ObMap × Nat},
      removeByFilterLoop pfn n pm cRemove = some r → SameShape pm r.1
  | 0, pm, _, _, h => by cases h; exact .refl _
  | n + 1, pm, cRemove, r, h => by
    simp only [removeByFilterLoop] at h
    split_ifs at h
    · split at h
      · rename_i pv _ hr
        exact (((sameShape_emit _).trans (sameShape_retrieveAndRemoveByEntryIndex hr)).trans
          (sameShape_release pv)).trans (sameShape_removeByFilterLoop pfn n _ _ h)
      · cases h
    · exact (sameShape_emit _).trans (sameShape_removeByFilterLoop pfn n _ _ h)

theorem sameShape_insertHashUpTo (f : Bool) :
    ∀ (k : Nat) (pm : ObMap) {pm' : ObMap}, insertHashUpTo f k pm = some pm' → SameShape pm pm'
  | 0, pm, _, h => by cases h; exact .refl _
  | k + 1, pm, _, h => by
    obtain ⟨pm1, h1, h2⟩ := Option.bind_eq_some.mp h
    exact (sameShape_insertHashUpTo f k pm h1).trans (sameShape_insertHash h2)

theorem sameShape_growRehash :
    ∀ (k : Nat) (pm : ObMap) {pm' : ObMap}, growRehash k pm = some pm' → SameShape pm pm'
  | 0, pm, _, h => by cases h; exact .refl _
  | k + 1, pm, _, h => by
    obtain ⟨pm1, h1, h2⟩ := Option.bind_eq_some.mp h
    obtain ⟨pm2, h3, h4⟩ := Option.bind_eq_some.mp h2
    exact ((sameShape_growRehash k pm h1).trans (sameShape_insertHash h3)).trans
      (sameShape_insertHash h4)

theorem sameShape_storeEntry {i : Nat} {k v : UInt64} {pm' : ObMap}
    (h : pm.storeEntry i k v = some pm') : SameShape pm pm' := by
  obtain ⟨pm1, h1, h2⟩ := Option.bind_eq_some.mp h
  have h0 : SameShape pm (if pm.fObjectsOb then pm.emit (.incref v) else pm) := by
    split_ifs <;> exact ⟨rfl, rfl, rfl, rfl, rfl⟩
  refine ((h0.trans ?_).trans (sameShape_insertHash h1)).trans (sameShape_insertHash h2)
  exact ⟨rfl, rfl, rfl, rfl, rfl⟩

theorem sameShape_clear : SameShape pm pm.clear := by
  unfold ObMap.clear obFreeAllObjects; split_ifs <;> exact ⟨rfl, rfl, rfl, rfl, rfl⟩

theorem sameShape_sortEntryIndex {cmp : Entry → Entry → Int} {b : Bool} {r : ObMap × Bool}
    (h : pm.sortEntryIndex cmp b = some r) : SameShape pm r.1 := by
  unfold sortEntryIndex at h
  split_ifs at h
  · cases h; exact .refl _
  obtain ⟨pm2, h2, rfl⟩ := Option.map_eq_some'.mp h
  obtain ⟨pm1, h1, h3⟩ := Option.bind_eq_some.mp h2
  have hW : SameShape pm (pm.writeEntries (qsort cmp pm.liveEntries)) := ⟨rfl, rfl, rfl, rfl, rfl⟩
  have hK : SameShape (pm.writeEntries (qsort cmp pm.liveEntries)) pm1 := by
    split_ifs at h1
    · exact (sameShape_setHashTable _ _).trans (sameShape_insertHashUpTo _ _ _ h1)
    · cases h1; exact .refl _
  exact ((hW.trans hK).trans (sameShape_setHashTable _ _)).trans (sameShape_insertHashUpTo _ _ _ h3)

theorem sameShape_removeOrRemoveByKey {f : Bool} {kv : UInt64} {r : ObMap × UInt64}
    (h : pm.removeOrRemoveByKey f kv = some r) : SameShape pm r.1 := by
  unfold removeOrRemoveByKey at h
  split_ifs at h
  · cases h; exact .refl _
  split at h
  · obtain ⟨r', hr', rfl⟩ := Option.map_eq_some'.mp h
    exact sameShape_retrieveAndRemoveByEntryIndex hr'
  · cases h; exact .refl _
  · cases h

theorem sameShape_call {alloc : AllocSite → Bool} {c : Call} {pm' : ObMap} {r : Ret}
    (hp : c.pushed = none) (hc : pm.call alloc c = some (pm', r)) : SameShape pm pm' := by
  cases hs : c.shared
  swap
  · exact .of_core (core_call_shared hs hc)
  cases c <;> simp only [Call.shared, Call.pushed, Bool.true_eq_false, reduceCtorEq] at hs hp <;>
    simp only [ObMap.call, Option.map_eq_some', Option.some.injEq, Prod.mk.injEq] at hc
  case remove | removeByKey => obtain ⟨_, hr, rfl, -⟩ := hc; exact sameShape_removeOrRemoveByKey hr
  case pop | popWithKey =>
    obtain ⟨_, hr, rfl, -⟩ := hc; exact sameShape_retrieveAndRemoveByEntryIndex hr
  case removeByFilter => obtain ⟨_, hr, rfl, -⟩ := hc; exact sameShape_removeByFilterLoop _ _ _ _ hr
  case clear => rw [← hc.1]; exact sameShape_clear
  case sortEntryIndex | sortEntryIndexByKey =>
    obtain ⟨_, hr, rfl, -⟩ := hc; exact sameShape_sortEntryIndex hr

end Routines

/-- The memory `pm'` holds includes all that `pm` holds: hash arrays as large or larger, large
mode kept, and every directory table and store of `pm` still allocated. -/
structure Retains (pm pm' : ObMap) : Prop where
  cHashMax : pm.cHashMax ≤ pm'.cHashMax
  fLargeMode : pm.fLargeMode = true → pm'.fLargeMode = true
  tableAt : ∀ d, pm.tableAt d = true → pm'.tableAt d = true
  storeAt : ∀ d t, pm.storeAt d t = true → pm'.storeAt d t = true

namespace Retains

theorem refl (pm : ObMap) : Retains pm pm := ⟨le_rfl, id, fun _ => id, fun _ _ => id⟩

theorem trans {pm' pm'' : ObMap} (h : Retains pm pm') (h' : Retains pm' pm'') : Retains pm pm'' :=
  ⟨h.cHashMax.trans h'.cHashMax, h'.fLargeMode ∘ h.fLargeMode, fun d hd => h'.tableAt d (h.tableAt d hd),
    fun d t hs => h'.storeAt d t (h.storeAt d t hs)⟩

end Retains

theorem SameShape.retains {pm' : ObMap} (h : SameShape pm pm') : Retains pm pm' :=
  ⟨h.cHashMax.ge, fun hl => h.fLargeMode.trans hl, fun d hd => (congrFun h.tableAt d).trans hd,
    fun d t hs => (congrFun (congrFun h.storeAt d) t).trans hs⟩

/-- The tables and stores allocated are those of a prefix of the indices, and in a small map
`Store00` only. -/
structure Paged (pm : ObMap) : Prop where
  table_of_store : ∀ d t, pm.storeAt d t = true → pm.tableAt d = true
  small : pm.fLargeMode = false → ∀ t, pm.storeAt 0 t = true → t = 0
  table_lt : ∀ d, pm.tableAt d = true → d < OB_MAP_ENTRIES_DIRECTORY
  table_prefix : ∀ d d', pm.tableAt d = true → d' ≤ d → pm.tableAt d' = true
  store_lt : ∀ d t, pm.storeAt d t = true → t < OB_MAP_ENTRIES_TABLE
  store_prefix : ∀ d t d' t', pm.storeAt d t = true → t' < OB_MAP_ENTRIES_TABLE →
    d' * OB_MAP_ENTRIES_TABLE + t' ≤ d * OB_MAP_ENTRIES_TABLE + t → pm.storeAt d' t' = true

theorem Paged.empty (flags : Flags) : (ObMap.empty flags).Paged := by
  have hT : ∀ d, (ObMap.empty flags).tableAt d = true ↔ d = 0 := fun d => by simp [ObMap.empty]
  have hS : ∀ d t, (ObMap.empty flags).storeAt d t = true ↔ d = 0 ∧ t = 0 := fun d t => by
    simp [ObMap.empty]
  refine ⟨fun d t h => ?_, fun _ t h => ?_, fun d h => ?_, fun d d' h hle => ?_, fun d t h => ?_,
    fun d t d' t' h _ hle => ?_⟩ <;>
    simp only [hT, hS, OB_MAP_ENTRIES_DIRECTORY, OB_MAP_ENTRIES_TABLE] at * <;> omega

theorem Paged.of_sameShape {pm' : ObMap} (hp : pm.Paged) (h : SameShape pm pm') : pm'.Paged := by
  obtain ⟨-, -, hL, hT, hS⟩ := h
  exact ⟨hT ▸ hS ▸ hp.1, hL ▸ hS ▸ hp.2, hT ▸ hp.3, hT ▸ hp.4, hS ▸ hp.5, hS ▸ hp.6⟩

theorem Paged.small_store (hp : pm.Paged) (hL : pm.fLargeMode = false) {d t : Nat}
    (hs : pm.storeAt d t = true) : d = 0 ∧ t = 0 := by
  by_contra hne
  have h01 := hp.store_prefix d t 0 1 hs (by decide) (by
    simp only [OB_MAP_ENTRIES_TABLE]; omega)
  exact absurd (hp.small hL 1 h01) (by decide)

/-- What one call does to the hash arrays: keeps them, or doubles them in a grow at the
threshold of a map below its capacity. -/
def HashStep (pm pm' : ObMap) : Prop :=
  pm'.cHashMax = pm.cHashMax ∨
    pm'.cHashMax = 2 * pm.cHashMax ∧ pm.c = pm.cHashGrowThreshold ∧ pm.c < OB_MAP_TABLE_MAX_CAPACITY

section Grow

theorem Paged.toLargeMode (hp : pm.Paged) (hL : pm.fLargeMode = false) :
    Retains pm pm.toLargeMode ∧ pm.toLargeMode.Paged := by
  have hS : ∀ d t, pm.toLargeMode.storeAt d t = true ↔ d = 0 ∧ t = 0 := fun d t => by
    by_cases h0 : d = 0
    · subst h0; simp [ObMap.toLargeMode]
    · simp only [ObMap.toLargeMode, update_noteq h0, h0, false_and, iff_false]
      exact fun hs => h0 (hp.small_store hL hs).1
  have hT : ∀ d, pm.toLargeMode.tableAt d = true ↔ d = 0 ∨ pm.tableAt d = true := fun d => by
    by_cases h0 : d = 0 <;> simp [ObMap.toLargeMode, h0]
  refine ⟨⟨le_rfl, fun _ => rfl, fun d hd => (hT d).2 (.inr hd),
    fun d t hs => (hS d t).2 (hp.small_store hL hs)⟩,
    ⟨fun d t hs => (hT d).2 (.inl ((hS d t).1 hs).1), fun h _ _ => absurd h (by simp [ObMap.toLargeMode]),
    fun d hd => ?_, fun d d' hd hle => ?_, fun d t hs => ?_, fun d t d' t' hs _ hle => ?_⟩⟩
  · rcases (hT d).1 hd with rfl | hd
    · decide
    · exact hp.table_lt d hd
  · rcases (hT d).1 hd with rfl | hd
    · exact (hT d').2 (.inl (Nat.le_zero.mp hle))
    · exact (hT d').2 (.inr (hp.table_prefix d d' hd hle))
  · rw [((hS d t).1 hs).2]; decide
  · obtain ⟨rfl, rfl⟩ := (hS d t).1 hs
    simp only [OB_MAP_ENTRIES_TABLE] at hle
    exact (hS d' t').2 ⟨by omega, by omega⟩

theorem retains_doubleHashMaps : Retains pm pm.doubleHashMaps :=
  ⟨by show pm.cHashMax ≤ pm.cHashMax * 2; omega, id, fun _ => id, fun _ _ => id⟩

theorem retains_growRehash {q pm' : ObMap} (hR : Retains pm q) (hP : q.Paged)
    (hL : q.fLargeMode = true) (hM : q.cHashMax = pm.cHashMax)
    (hg : growRehash (q.doubleHashMaps.c - 1) q.doubleHashMaps = some pm') :
    Retains pm pm' ∧ pm'.Paged ∧ pm'.fLargeMode = true ∧ pm'.cHashMax = 2 * pm.cHashMax := by
  have hS := sameShape_growRehash _ _ hg
  refine ⟨(hR.trans retains_doubleHashMaps).trans hS.retains,
    (show q.doubleHashMaps.Paged from ⟨hP.1, hP.2, hP.3, hP.4, hP.5, hP.6⟩).of_sameShape hS,
    hS.fLargeMode.trans hL, ?_⟩
  rw [hS.cHashMax]; show q.cHashMax * 2 = _; omega

theorem Paged.grow (hp : pm.Paged) {alloc : AllocSite → Bool} (hsafe : SafeAlloc alloc pm)
    {r : ObMap × Bool} (hg : pm.grow alloc = some r) :
    Retains pm r.1 ∧ r.1.Paged ∧ (r.2 = false → r.1 = pm) ∧
      (r.2 = true → r.1.fLargeMode = true ∧ r.1.cHashMax = 2 * pm.cHashMax) := by
  cases ha : alloc .growHashMap
  · simp only [ObMap.grow, ha, Bool.not_false, if_true, Option.some.injEq] at hg
    subst hg; exact ⟨.refl pm, hp, fun _ => rfl, fun h => absurd h Bool.false_ne_true⟩
  rw [grow_eq_allocOk ha hsafe] at hg
  obtain ⟨pm', rfl, hR, hP, hL, hM⟩ : ∃ pm', r = (pm', true) ∧ Retains pm pm' ∧ pm'.Paged ∧
      pm'.fLargeMode = true ∧ pm'.cHashMax = 2 * pm.cHashMax := by
    cases hL : pm.fLargeMode <;>
      simp only [ObMap.grow, allocOk, hL, Bool.not_true, Bool.not_false, Bool.false_eq_true,
        Bool.false_and, Bool.true_and, if_false, if_true] at hg <;>
      obtain ⟨pm', hR, rfl⟩ := Option.map_eq_some'.mp hg
    · exact ⟨pm', rfl, retains_growRehash (hp.toLargeMode hL).1 (hp.toLargeMode hL).2 rfl rfl hR⟩
    · exact ⟨pm', rfl, retains_growRehash (.refl pm) hp hL rfl hR⟩
  exact ⟨hR, hP, fun h => Bool.noConfusion h, fun _ => ⟨hL, hM⟩⟩

end Grow

section Path

variable {d t : Nat}

theorem tableAt_allocTable (e : Nat) :
    ({ pm with tableAt := update pm.tableAt d true,
               storeAt := update pm.storeAt d fun _ => false } : ObMap).tableAt e = true ↔
      e = d ∨ pm.tableAt e = true := by
  by_cases he : e = d
  · subst he; simp
  · simp [update_noteq he, he]

theorem storeAt_allocTable (e u : Nat) :
    ({ pm with tableAt := update pm.tableAt d true,
               storeAt := update pm.storeAt d fun _ => false } : ObMap).storeAt e u = true ↔
      e ≠ d ∧ pm.storeAt e u = true := by
  by_cases he : e = d
  · subst he; simp
  · simp [update_noteq he, he]

theorem storeAt_allocStore (e u : Nat) :
    ({ pm with storeAt := update pm.storeAt d (update (pm.storeAt d) t true) } : ObMap).storeAt e u =
      true ↔ (e = d ∧ u = t) ∨ pm.storeAt e u = true := by
  by_cases he : e = d
  · subst he; by_cases hu : u = t
    · subst hu; simp
    · simp [update_noteq hu, hu]
  · simp [update_noteq he, he]

theorem Paged.allocTable (hp : pm.Paged) (hd : pm.tableAt d = false)
    (hdlt : d < OB_MAP_ENTRIES_DIRECTORY) (hprev : ∀ d' < d, pm.tableAt d' = true) :
    Retains pm ({ pm with tableAt := update pm.tableAt d true,
                          storeAt := update pm.storeAt d fun _ => false } : ObMap) ∧
      ({ pm with tableAt := update pm.tableAt d true,
                 storeAt := update pm.storeAt d fun _ => false } : ObMap).Paged := by
  have hne : ∀ e u, pm.storeAt e u = true → e ≠ d := fun e u hs he => by
    subst he; rw [hp.table_of_store e u hs] at hd; cases hd
  refine ⟨⟨le_rfl, id, fun e he => (tableAt_allocTable e).2 (.inr he),
    fun e u hs => (storeAt_allocTable e u).2 ⟨hne e u hs, hs⟩⟩,
    ⟨fun e u hs => (tableAt_allocTable e).2
      (.inr (hp.table_of_store e u ((storeAt_allocTable e u).1 hs).2)),
    fun hl u hs => hp.small hl u ((storeAt_allocTable 0 u).1 hs).2, fun e he => ?_,
    fun e d' he hle => ?_, fun e u hs => hp.store_lt e u ((storeAt_allocTable e u).1 hs).2,
    fun e u d' t' hs ht hle => ?_⟩⟩
  · rcases (tableAt_allocTable e).1 he with rfl | he
    exacts [hdlt, hp.table_lt e he]
  · refine (tableAt_allocTable d').2 ?_
    by_cases hd' : d' = d
    · exact .inl hd'
    rcases (tableAt_allocTable e).1 he with rfl | he
    · exact .inr (hprev d' (by omega))
    · exact .inr (hp.table_prefix e d' he hle)
  · have hs' := hp.store_prefix e u d' t' ((storeAt_allocTable e u).1 hs).2 ht hle
    exact (storeAt_allocTable d' t').2 ⟨hne d' t' hs', hs'⟩

theorem Paged.allocStore (hp : pm.Paged) (hd : pm.tableAt d = true) (htlt : t < OB_MAP_ENTRIES_TABLE)
    (hprev : ∀ d' t', t' < OB_MAP_ENTRIES_TABLE →
      d' * OB_MAP_ENTRIES_TABLE + t' < d * OB_MAP_ENTRIES_TABLE + t → pm.storeAt d' t' = true)
    (hsmall : pm.fLargeMode = false → t = 0) :
    Retains pm ({ pm with storeAt := update pm.storeAt d (update (pm.storeAt d) t true) } : ObMap) ∧
      ({ pm with storeAt := update pm.storeAt d (update (pm.storeAt d) t true) } : ObMap).Paged := by
  refine ⟨⟨le_rfl, id, fun _ => id, fun e u hs => (storeAt_allocStore e u).2 (.inr hs)⟩,
    ⟨fun e u hs => ?_, fun hl u hs => ?_, hp.table_lt, hp.table_prefix, fun e u hs => ?_,
    fun e u d' t' hs ht hle => (storeAt_allocStore d' t').2 ?_⟩⟩
  · rcases (storeAt_allocStore e u).1 hs with ⟨rfl, -⟩ | hs
    exacts [hd, hp.table_of_store e u hs]
  · rcases (storeAt_allocStore 0 u).1 hs with ⟨rfl, rfl⟩ | hs
    exacts [hsmall hl, hp.small hl u hs]
  · rcases (storeAt_allocStore e u).1 hs with ⟨-, rfl⟩ | hs
    exacts [htlt, hp.store_lt e u hs]
  · by_cases hc : d' = d ∧ t' = t
    · exact .inl hc
    refine .inr ?_
    rcases (storeAt_allocStore e u).1 hs with ⟨rfl, rfl⟩ | hs
    · refine hprev d' t' ht (lt_of_le_of_ne hle fun he => hc ?_)
      simp only [OB_MAP_ENTRIES_TABLE] at he ht htlt; omega
    · exact hp.store_prefix e u d' t' hs ht hle

theorem resolves_cell {i : Nat} (hi : i < OB_MAP_TABLE_MAX_CAPACITY) (hres : ∀ j < i, pm.Resolves j)
    {d' t' : Nat} (ht' : t' < OB_MAP_ENTRIES_TABLE)
    (hlt : d' * OB_MAP_ENTRIES_TABLE + t' < indexDirectory i * OB_MAP_ENTRIES_TABLE + indexTable i) :
    pm.tableAt d' = true ∧ pm.storeAt d' t' = true := by
  rw [OB_MAP_TABLE_MAX_CAPACITY_eq] at hi
  simp only [OB_MAP_ENTRIES_TABLE, indexDirectory_eq, indexTable_eq, Nat.reducePow] at ht' hlt
  have hj := hres ((d' * 512 + t') * 256) (by omega)
  simp only [Resolves, indexDirectory_eq, indexTable_eq, Nat.reducePow] at hj
  rwa [show (d' * 512 + t') * 256 / 131072 % 256 = d' by omega,
    show (d' * 512 + t') * 256 / 256 % 512 = t' by omega] at hj

theorem Paged.allocatePath (hp : pm.Paged) (alloc : AllocSite → Bool) {i : Nat}
    (hi : i < OB_MAP_TABLE_MAX_CAPACITY) (hres : ∀ j < i, pm.Resolves j)
    (hsmall : pm.fLargeMode = false → indexTable i = 0) :
    Retains pm (pm.allocatePath alloc i).1 ∧ (pm.allocatePath alloc i).1.Paged := by
  obtain ⟨hdlt, htlt, -⟩ := paged_addressing i i hi hi
  have hcell : ∀ d' t', t' < OB_MAP_ENTRIES_TABLE →
      d' * OB_MAP_ENTRIES_TABLE + t' < indexDirectory i * OB_MAP_ENTRIES_TABLE + indexTable i →
      pm.tableAt d' = true ∧ pm.storeAt d' t' = true := fun _ _ ht' hlt => resolves_cell hi hres ht' hlt
  unfold ObMap.allocatePath
  dsimp only
  cases hd : pm.tableAt (indexDirectory i)
  · cases ha : alloc .pushTable
    · exact ⟨.refl pm, hp⟩
    obtain ⟨hR1, hP1⟩ := hp.allocTable hd hdlt fun d' hd' =>
      (hcell d' 0 (by decide) (by simp only [OB_MAP_ENTRIES_TABLE]; omega)).1
    simp only [Bool.not_false, Bool.not_true, Bool.and_false, Bool.false_eq_true, if_false]
    split_ifs
    · exact ⟨hR1, hP1⟩
    · obtain ⟨hR2, hP2⟩ := hP1.allocStore (d := indexDirectory i) (by simp) htlt (fun d' t' ht' hlt => by
        obtain ⟨-, hs⟩ := hcell d' t' ht' hlt
        refine (storeAt_allocTable d' t').2 ⟨fun he => ?_, hs⟩
        subst he; rw [hp.table_of_store _ t' hs] at hd; cases hd) hsmall
      exact ⟨hR1.trans hR2, hP2⟩
  · simp only [Bool.not_true, Bool.false_and, Bool.false_eq_true, if_false, if_true]
    split_ifs
    · exact ⟨.refl pm, hp⟩
    · exact hp.allocStore hd htlt (fun d' t' ht' hlt => (hcell d' t' ht' hlt).2) hsmall

theorem allocatePath_cHashMax (alloc : AllocSite → Bool) (i : Nat) :
    (pm.allocatePath alloc i).1.cHashMax = pm.cHashMax := by
  obtain ⟨ta, sa, ok, hP, -⟩ := allocatePath_spec pm alloc i
  rw [hP]

end Path

section Push

theorem Inv.resolves_lt (h : pm.Inv) : ∀ j < pm.c, pm.Resolves j := fun j hj => by
  rcases Nat.eq_zero_or_pos j with rfl | hpos
  · exact h.store00
  · exact h.resolves j (mem_live.mpr ⟨hpos, hj⟩)

theorem Inv.cHashMax_le_of_grow (h : pm.Inv) (ht : pm.c = pm.cHashGrowThreshold)
    (hlt : pm.c < OB_MAP_TABLE_MAX_CAPACITY) : pm.cHashMax ≤ 2 ^ 25 := by
  obtain ⟨m, hm⟩ := h.pow2
  have hthr := h.threshold
  rw [OB_MAP_TABLE_MAX_CAPACITY_eq] at hlt
  rw [hm] at hthr ⊢
  apply Nat.pow_le_pow_right Nat.zero_lt_two
  by_contra hm25
  have : 2 ^ 26 ≤ 2 ^ m := Nat.pow_le_pow_right Nat.zero_lt_two (by omega)
  omega

theorem Inv.growIfFull_retains (h : pm.Inv) (hp : pm.Paged) {alloc : AllocSite → Bool}
    (hsafe : SafeAlloc alloc pm) (hmax : pm.c < OB_MAP_TABLE_MAX_CAPACITY) {rG : ObMap × Bool}
    (hG : (if pm.c = pm.cHashGrowThreshold then pm.grow alloc else some (pm, true)) = some rG) :
    Retains pm rG.1 ∧ rG.1.Paged ∧ HashStep pm rG.1 ∧
      (rG.2 = true → rG.1.fLargeMode = false → indexTable pm.c = 0) := by
  split_ifs at hG with hT
  · obtain ⟨hR, hP, hF, hTr⟩ := hp.grow hsafe hG
    refine ⟨hR, hP, ?_, fun h2 hl => absurd ((hTr h2).1.symm.trans hl) (by decide)⟩
    cases h2 : rG.2
    · exact .inl (by rw [hF h2])
    · exact .inr ⟨(hTr h2).2, hT, hmax⟩
  · cases hG
    refine ⟨.refl pm, hp, .inl rfl, fun _ hl => (index_zero_of_lt ?_).2⟩
    have := h.c_le; have := h.threshold; have := h.small hl
    omega

theorem Inv.push_retains (h : pm.Inv) (hp : pm.Paged) {alloc : AllocSite → Bool}
    (hsafe : SafeAlloc alloc pm) (k v : UInt64) {r : ObMap × Bool}
    (hr : pm.push k v alloc = some r) : Retains pm r.1 ∧ r.1.Paged ∧ HashStep pm r.1 := by
  by_cases hf : pm.Fresh k v
  swap
  · rw [h.push_reject hf alloc] at hr; cases hr; exact ⟨.refl pm, hp, .inl rfl⟩
  rw [h.push_fresh hf alloc] at hr
  obtain ⟨rG, hG, hr⟩ := Option.bind_eq_some.mp hr
  obtain ⟨hRG, hPG, hHG, hsG⟩ := h.growIfFull_retains hp hsafe hf.2.2.2 hG
  have hres : ∀ j < pm.c, rG.1.Resolves j := by
    obtain ⟨pmG, okG, hG', hsG', hinvG, -⟩ := h.growIfFull_alloc hsafe
    rw [hG'] at hG; cases hG
    exact hsG'.c ▸ hinvG.resolves_lt
  suffices Retains rG.1 r.1 ∧ r.1.Paged ∧ r.1.cHashMax = rG.1.cHashMax by
    obtain ⟨hR, hP, hM⟩ := this
    exact ⟨hRG.trans hR, hP, by unfold HashStep; rw [hM]; exact hHG⟩
  cases h2 : rG.2
  · simp only [h2, Bool.not_false, if_true, Option.some.injEq] at hr
    subst hr; exact ⟨.refl _, hPG, rfl⟩
  obtain ⟨hRA, hPA⟩ := hPG.allocatePath alloc hf.2.2.2 hres (hsG h2)
  simp only [h2, Bool.not_true, Bool.false_eq_true, if_false] at hr
  split_ifs at hr
  · cases hr; exact ⟨hRA, hPA, allocatePath_cHashMax alloc pm.c⟩
  · obtain ⟨pm', hS, rfl⟩ := Option.map_eq_some'.mp hr
    have hS := sameShape_storeEntry hS
    exact ⟨hRA.trans hS.retains, hPA.of_sameShape hS,
      hS.cHashMax.trans (allocatePath_cHashMax alloc pm.c)⟩

theorem Inv.pushCopy_retains (h : pm.Inv) (hp : pm.Paged) {alloc : AllocSite → Bool}
    (hsafe : SafeAlloc alloc pm) (k pv : UInt64) {r : ObMap × Bool}
    (hr : pm.pushCopy k pv alloc = some r) : Retains pm r.1 ∧ r.1.Paged ∧ HashStep pm r.1 := by
  unfold ObMap.pushCopy at hr
  split_ifs at hr
  · cases hr; exact ⟨.refl pm, hp, .inl rfl⟩
  obtain ⟨r', hr', rfl⟩ := Option.map_eq_some'.mp hr
  obtain ⟨hR, hP, hH⟩ := h.push_retains hp hsafe k pv hr'
  split_ifs
  · exact ⟨hR, hP, hH⟩
  · exact ⟨hR.trans (sameShape_emit _).retains, hP.of_sameShape (sameShape_emit _), hH⟩

theorem Inv.call_retains (h : pm.Inv) (hp : pm.Paged) {alloc : AllocSite → Bool}
    (hsafe : SafeAlloc alloc pm) {c : Call} {pm' : ObMap} {r : Ret}
    (hc : pm.call alloc c = some (pm', r)) : Retains pm pm' ∧ pm'.Paged ∧ HashStep pm pm' := by
  cases hpush : c.pushed
  · have hs := sameShape_call hpush hc
    exact ⟨hs.retains, hp.of_sameShape hs, .inl hs.cHashMax⟩
  cases c <;> simp only [Call.pushed, reduceCtorEq] at hpush <;>
    simp only [ObMap.call, Option.map_eq_some', Option.some.injEq, Prod.mk.injEq] at hc <;>
    obtain ⟨_, hr, rfl, -⟩ := hc
  exacts [h.push_retains hp hsafe _ _ hr, h.pushCopy_retains hp hsafe _ _ hr]

end Push

theorem ReachableAlloc.paged (h : ReachableAlloc pm) : pm.Paged := by
  induction h with
  | new hnew =>
    unfold ObMap.new at hnew
    split_ifs at hnew
    cases hnew
    exact Paged.empty _
  | call hR hsafe hc ih => exact (hR.inv.call_retains ih hsafe hc).2.1

section Runs

/-- The hash arrays of every map a program can hold have at most `2 ^ 26` slots, and its grow
threshold is three quarters of that at most. -/
theorem hash_arrays_bounded (pm : ObMap) (h : ReachableAlloc pm) :
    pm.cHashMax ≤ 2 ^ 26 ∧ pm.cHashGrowThreshold ≤ 3 * 2 ^ 24 := by
  have hmax : pm.cHashMax ≤ 2 ^ 26 := by
    induction h with
    | new hnew =>
      unfold ObMap.new at hnew
      split_ifs at hnew
      cases hnew
      show 0x100 ≤ 2 ^ 26
      decide
    | call hR hsafe hc ih =>
      rcases (hR.inv.call_retains hR.paged hsafe hc).2.2 with heq | ⟨hd, ht, hlt⟩
      · rw [heq]; exact ih
      · have := hR.inv.cHashMax_le_of_grow ht hlt; omega
  have := h.inv.threshold
  omega

theorem hash_arrays_bounded_grown :
    ReachableAlloc (filled ⟨false, false, false⟩ 0xc0) ∧
      (filled ⟨false, false, false⟩ 0xc0).fLargeMode = true ∧
      (filled ⟨false, false, false⟩ 0xc0).cHashMax ≤ 2 ^ 26 ∧
      (filled ⟨false, false, false⟩ 0xc0).cHashGrowThreshold ≤ 3 * 2 ^ 24 :=
  have hs := filled_spec ⟨false, false, false⟩ rfl 0xc0 (by decide)
  ⟨hs.reachable.reachableAlloc, hs.large le_rfl,
    hash_arrays_bounded _ hs.reachable.reachableAlloc⟩

/-- The bytes `_ObMap_Grow` asks `LocalAlloc` for: `2 * sizeof(DWORD) * cHashMax`, twice that
in a keyed map, whose key hash map lies after the value hash map. -/
def growHashMapBytes (pm : ObMap) : Nat := 2 * 4 * pm.cHashMax * (if pm.fKey then 2 else 1)

/-- A call keeps the hash arrays, or doubles them at the threshold without wrapping a `DWORD` and
asks for at most `2 ^ 29` bytes. -/
theorem grow_fits_dword (pm : ObMap) (h : ReachableAlloc pm) {alloc : AllocSite → Bool}
    (hsafe : SafeAlloc alloc pm) (c : Call) {pm' : ObMap} {r : Ret}
    (hc : pm.call alloc c = some (pm', r)) :
    pm'.cHashMax = pm.cHashMax ∨
      pm.c = pm.cHashGrowThreshold ∧ pm'.cHashMax = 2 * pm.cHashMax ∧
        pm'.cHashGrowThreshold = 2 * pm.cHashGrowThreshold ∧
        2 * pm.cHashMax < 2 ^ 32 ∧ 2 * pm.cHashGrowThreshold < 2 ^ 32 ∧
        pm.growHashMapBytes ≤ 2 ^ 29 := by
  rcases (h.inv.call_retains h.paged hsafe hc).2.2 with heq | ⟨hd, ht, hlt⟩
  · exact .inl heq
  have hle := h.inv.cHashMax_le_of_grow ht hlt
  have h4 := h.inv.threshold
  have h4' := (h.inv.call_alloc hsafe hc).threshold
  refine .inr ⟨ht, hd, by omega, by omega, by omega, ?_⟩
  unfold growHashMapBytes
  split_ifs <;> omega

theorem filled_push_threshold :
    (filled ⟨false, false, false⟩ 0xbf).call allocOk (.push 0x180 0xc0) =
        some (filled ⟨false, false, false⟩ (0xbf + 1), .bool true) ∧
      Filled ⟨false, false, false⟩ 0xbf (filled ⟨false, false, false⟩ 0xbf) ∧
      Filled ⟨false, false, false⟩ (0xbf + 1) (filled ⟨false, false, false⟩ (0xbf + 1)) := by
  have hs := filled_spec ⟨false, false, false⟩ rfl 0xbf (by decide)
  obtain ⟨hpush, hs'⟩ := hs.push (by decide)
  rw [show UInt64.ofNat (2 * (0xbf + 1)) = 0x180 from rfl,
    show UInt64.ofNat (0xbf + 1) = 0xc0 from rfl] at hpush
  exact ⟨by simp [ObMap.call, hpush], hs, hs'⟩

theorem grow_fits_dword_threshold :
    (filled ⟨false, false, false⟩ 0xbf).c = (filled ⟨false, false, false⟩ 0xbf).cHashGrowThreshold ∧
      ∃ pm' r, (filled ⟨false, false, false⟩ 0xbf).call allocOk (.push 0x180 0xc0) =
          some (pm', r) ∧
        pm'.cHashMax = 2 * (filled ⟨false, false, false⟩ 0xbf).cHashMax ∧
        pm'.cHashGrowThreshold = 2 * (filled ⟨false, false, false⟩ 0xbf).cHashGrowThreshold ∧
        (filled ⟨false, false, false⟩ 0xbf).growHashMapBytes ≤ 2 ^ 29 := by
  obtain ⟨hcall, hs, hs'⟩ := filled_push_threshold
  generalize filled ⟨false, false, false⟩ (0xbf + 1) = pm' at hcall hs'
  generalize filled ⟨false, false, false⟩ 0xbf = pm at hcall hs ⊢
  obtain ⟨hL, hT⟩ := hs.small (by decide)
  have hT' : pm.c = pm.cHashGrowThreshold := by rw [hs.c, hT]
  rcases grow_fits_dword pm hs.reachable.reachableAlloc (safeAlloc_allocOk pm) _ hcall with
    heq | ⟨-, hd, ht, -, -, hb⟩
  · have h' := hs'.reachable.inv
    have h1 : pm'.cHashMax = 0x100 := heq.trans (hs.reachable.inv.small hL)
    have h2 := h'.threshold
    have h3 := h'.c_le
    rw [h1] at h2
    rw [hs'.c] at h3
    omega
  · exact ⟨hT', pm', _, hcall, hd, ht, hb⟩

/-- Along any run the map only gains memory: hash arrays, large mode, tables and stores. -/
theorem memory_retained (pm : ObMap) (h : ReachableAlloc pm) (run : List ((AllocSite → Bool) × Call))
    (hdir : ∀ a ∈ run, a.1 .growDirectory = true) :
    ∃ pm' rs, pm.runCallsWith run = some (pm', rs) ∧ ReachableAlloc pm' ∧ Retains pm pm' := by
  induction run generalizing pm with
  | nil => exact ⟨pm, [], rfl, h, .refl pm⟩
  | cons a run ih =>
    have hsafe : SafeAlloc a.1 pm := .inr (hdir a (List.mem_cons_self a run))
    obtain ⟨pm1, r1, hc, -⟩ := h.inv.moves_alloc a.2 hsafe
    have h1 : ReachableAlloc pm1 := .call h hsafe hc
    obtain ⟨pm', rs, hrun, h', hR⟩ := ih pm1 h1 fun b hb => hdir b (List.mem_cons_of_mem a hb)
    refine ⟨pm', r1 :: rs, by simp [runCallsWith, hc, hrun], h',
      (h.inv.call_retains h.paged hsafe hc).1.trans hR⟩

theorem memory_retained_first_grow :
    (filled ⟨false, false, false⟩ 0xbf).fLargeMode = false ∧
      ∃ pm' rs, (filled ⟨false, false, false⟩ 0xbf).runCallsWith [(allocOk, .push 0x180 0xc0)] =
          some (pm', rs) ∧ ReachableAlloc pm' ∧ Retains (filled ⟨false, false, false⟩ 0xbf) pm' ∧
        pm'.fLargeMode = true := by
  obtain ⟨hcall, hs, hs'⟩ := filled_push_threshold
  generalize filled ⟨false, false, false⟩ (0xbf + 1) = q at hcall hs'
  generalize filled ⟨false, false, false⟩ 0xbf = pm at hcall hs ⊢
  have hrun : pm.runCallsWith [(allocOk, .push 0x180 0xc0)] = some (q, [.bool true]) := by
    simp only [runCallsWith, hcall, Option.some_bind, Option.map_some']
  obtain ⟨pm', rs, hrun', hR, hRet⟩ := memory_retained _ hs.reachable.reachableAlloc
    [(allocOk, .push 0x180 0xc0)] (by decide)
  have hq : pm' = q := congrArg Prod.fst (Option.some.inj (hrun'.symm.trans hrun))
  exact ⟨(hs.small (by decide)).1, pm', rs, hrun', hR, hRet, hq ▸ hs'.large (by decide)⟩

end Runs

end LeechCore.ObMap
