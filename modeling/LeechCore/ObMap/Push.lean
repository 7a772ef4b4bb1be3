import LeechCore.ObMap.Remove

/-!
# Insertion

With every allocation succeeding, `_ObMap_Push` of a fresh pair keeps the invariant and appends
the pair; a rejected one changes nothing.
-/

namespace LeechCore.ObMap

set_option autoImplicit false

open Function Probe

variable {pm : ObMap}

/-- Every `LocalAlloc` of the insert path succeeds. -/
def allocOk : AllocSite → Bool := fun _ => true

/-- The same entries, count, mode flags and record of calls: two maps that differ at most in
their hash maps, hash size and allocated tables. -/
structure SameContent (pm pm' : ObMap) : Prop where
  c : pm'.c = pm.c
  entries : pm'.entries = pm.entries
  fKey : pm'.fKey = pm.fKey
  fObjectsOb : pm'.fObjectsOb = pm.fObjectsOb
  fObjectsLocalFree : pm'.fObjectsLocalFree = pm.fObjectsLocalFree
  trace : pm'.trace = pm.trace

theorem SameContent.refl (pm : ObMap) : SameContent pm pm := ⟨rfl, rfl, rfl, rfl, rfl, rfl⟩

theorem SameContent.trans {pm' pm'' : ObMap} (h : SameContent pm pm') (h' : SameContent pm' pm'') :
    SameContent pm pm'' :=
  ⟨h'.c.trans h.c, h'.entries.trans h.entries, h'.fKey.trans h.fKey,
    h'.fObjectsOb.trans h.fObjectsOb, h'.fObjectsLocalFree.trans h.fObjectsLocalFree,
    h'.trace.trans h.trace⟩

theorem SameContent.live {pm' : ObMap} (h : SameContent pm pm') : pm'.live = pm.live := by
  simp only [ObMap.live, h.c]

theorem SameContent.liveEntries {pm' : ObMap} (h : SameContent pm pm') :
    pm'.liveEntries = pm.liveEntries := by
  simp only [ObMap.liveEntries, h.c, h.entries]

theorem SameContent.getFromEntryIndex {pm' : ObMap} (h : SameContent pm pm') :
    pm'.getFromEntryIndex = pm.getFromEntryIndex := by
  funext f i; simp only [ObMap.getFromEntryIndex, getFromIndex, h.c, h.entries]

theorem Inv.of_sameContent {pm' : ObMap} (h : pm.Inv) (hs : SameContent pm pm')
    (hle : pm'.c ≤ pm'.cHashGrowThreshold) (hpow : ∃ m, pm'.cHashMax = 2 ^ m)
    (hmax : 0x100 ≤ pm'.cHashMax) (hthr : 4 * pm'.cHashGrowThreshold = 3 * pm'.cHashMax)
    (hsmall : pm'.fLargeMode = false → pm'.cHashMax = 0x100)
    (h00 : pm'.tableAt 0 = true ∧ pm'.storeAt 0 0 = true) (hres : ∀ i ∈ pm'.live, pm'.Resolves i)
    (hv : Valid pm'.cHashMax (pm'.home true) (pm'.hashTable true) pm'.live)
    (hk : pm'.fKey = true → Valid pm'.cHashMax (pm'.home false) (pm'.hashTable false) pm'.live) :
    pm'.Inv := by
  have hlive := hs.live
  have hfield := hs.getFromEntryIndex
  refine ⟨hs.c ▸ h.c_pos, hle, hs.c ▸ h.c_le_max, hpow, hmax, hthr, hsmall, h00, hres,
    fun i hi => ?_, ⟨hv, ?_, ?_⟩, fun hkey => ⟨hk hkey, ?_, ?_⟩⟩ <;>
    simp only [hlive, hfield, hs.entries, hs.c] at *
  · exact h.value_ne_zero i hi
  · exact h.hashValue.live
  · exact h.hashValue.distinct
  · exact (h.hashKey (hs.fKey ▸ hkey)).live
  · exact (h.hashKey (hs.fKey ▸ hkey)).distinct

theorem SameContent.setHashTable (f : Bool) (t : Nat → Nat) :
    SameContent pm (pm.setHashTable f t) := by
  constructor <;> simp

theorem setHashTable_false_true (t t' : Nat → Nat) :
    (pm.setHashTable false t).setHashTable true t' = (pm.setHashTable true t').setHashTable false t :=
  rfl

theorem index_zero_of_lt {i : Nat} (hi : i < 0x100) : indexDirectory i = 0 ∧ indexTable i = 0 := by
  simp only [indexDirectory, indexTable, Nat.shiftRight_eq_div_pow]
  rw [Nat.div_eq_of_lt (by omega), Nat.div_eq_of_lt (by omega)]
  exact ⟨Nat.zero_and _, Nat.zero_and _⟩

theorem growRehash_spec (pm0 : ObMap) {m : Nat} (hm : pm0.cHashMax = 2 ^ m)
    (hv0 : pm0.hashMapValue = fun _ => 0) (hk0 : pm0.hashMapKey = fun _ => 0) :
    ∀ k < pm0.cHashMax, ∃ tv tk,
      growRehash k pm0 = some ((pm0.setHashTable true tv).setHashTable false tk) ∧
      Valid pm0.cHashMax (pm0.home true) tv (Finset.Ico 1 (k + 1)) ∧
      (pm0.fKey = true → Valid pm0.cHashMax (pm0.home false) tk (Finset.Ico 1 (k + 1)))
  | 0, _ => ⟨pm0.hashTable true, pm0.hashTable false,
      by simp only [growRehash, setHashTable_hashTable_self],
      by simpa [hv0] using Valid.empty, fun _ => by simpa [hk0] using Valid.empty⟩
  | k + 1, hk => by
    obtain ⟨tv, tk, hrun, hv, hkv⟩ := growRehash_spec pm0 hm hv0 hk0 k (by omega)
    have hc : (Finset.Ico 1 (k + 1)).card < pm0.cHashMax := by simp; omega
    have hIco : Finset.Ico 1 (k + 1 + 1) = insert (k + 1) (Finset.Ico 1 (k + 1)) :=
      Nat.Ico_succ_right_eq_insert_Ico (by omega)
    obtain ⟨tv', h1, hv'⟩ := insertHash_step ((pm0.setHashTable true tv).setHashTable false tk) hm
      (f := true) (fun _ => by simpa using hv) (i := k + 1) (by omega) (by simp) hc
    obtain ⟨tk', h2, hk'⟩ := insertHash_step
      (((pm0.setHashTable true tv).setHashTable false tk).setHashTable true tv') hm (f := false)
      (fun hf => by simpa using hkv (by simpa using hf)) (i := k + 1) (by omega) (by simp) hc
    refine ⟨tv', tk', ?_, ?_, fun hf => ?_⟩
    · simp only [growRehash, hrun, Option.some_bind, h1, h2]
      simp [setHashTable_false_true]
    · simpa [hIco] using hv' (.inl rfl)
    · simpa [hIco] using hk' (.inr (by simpa using hf))

theorem Inv.grow_rehash (h : pm.Inv) (pmL : ObMap) (hs : SameContent pm pmL)
    (hL : pmL.fLargeMode = true) (hmax : pmL.cHashMax = pm.cHashMax)
    (hthr : pmL.cHashGrowThreshold = pm.cHashGrowThreshold)
    (h00 : pmL.tableAt 0 = true ∧ pmL.storeAt 0 0 = true) (hres : ∀ i ∈ pm.live, pmL.Resolves i) :
    ∃ pm', growRehash (pmL.doubleHashMaps.c - 1) pmL.doubleHashMaps = some pm' ∧
      SameContent pm pm' ∧ pm'.Inv ∧ pm'.cHashGrowThreshold = 2 * pm.cHashGrowThreshold := by
  obtain ⟨m, hm⟩ := h.pow2
  have := h.c_pos
  have := h.c_le
  have := h.max_ge
  have := h.threshold
  have hmD : pmL.doubleHashMaps.cHashMax = 2 ^ (m + 1) := by
    simp [doubleHashMaps, hmax, hm, pow_succ]
  have hc : pmL.doubleHashMaps.c - 1 < pmL.doubleHashMaps.cHashMax := by
    simp only [doubleHashMaps, hs.c, hmax]; omega
  obtain ⟨tv, tk, hrun, hv, hk⟩ := growRehash_spec _ hmD rfl rfl _ hc
  have hs' : SameContent pm ((pmL.doubleHashMaps.setHashTable true tv).setHashTable false tk) :=
    ((hs.trans (show SameContent pmL pmL.doubleHashMaps from ⟨rfl, rfl, rfl, rfl, rfl, rfl⟩)).trans
      (SameContent.setHashTable true tv)).trans (SameContent.setHashTable false tk)
  have hIco : Finset.Ico 1 (pmL.doubleHashMaps.c - 1 + 1) =
      ((pmL.doubleHashMaps.setHashTable true tv).setHashTable false tk).live := by
    rw [hs'.live]; simp only [doubleHashMaps, hs.c, live]; congr 1; omega
  refine ⟨_, hrun, hs', Inv.of_sameContent h hs' ?_ ⟨m + 1, by simpa using hmD⟩ ?_ ?_ ?_ ?_ ?_
    ?_ ?_, ?_⟩
  · simp only [setHashTable_c, setHashTable_cHashGrowThreshold, doubleHashMaps, hs.c, hthr]; omega
  · simp only [setHashTable_cHashMax, doubleHashMaps, hmax]; omega
  · simp only [setHashTable_cHashGrowThreshold, setHashTable_cHashMax, doubleHashMaps, hmax, hthr]
    omega
  · simp [doubleHashMaps, hL]
  · simpa [doubleHashMaps] using h00
  · rw [hs'.live]; intro i hi; simpa [Resolves, doubleHashMaps] using hres i hi
  · simpa [← hIco] using hv
  · intro hf; simpa [← hIco] using hk (by simpa [doubleHashMaps] using hf)
  · simp only [setHashTable_cHashGrowThreshold, doubleHashMaps, hthr]; omega

theorem Inv.grow (h : pm.Inv) {alloc : AllocSite → Bool} (ha : alloc .growHashMap = true)
    (hd : alloc .growDirectory = true) :
    ∃ pm', pm.grow alloc = some (pm', true) ∧ SameContent pm pm' ∧ pm'.Inv ∧
      pm'.cHashGrowThreshold = 2 * pm.cHashGrowThreshold := by
  cases hL : pm.fLargeMode
  · have hsmall := h.small hL
    have := h.threshold
    have := h.c_le
    obtain ⟨pm', hrun, hs, hinv, hthr⟩ := h.grow_rehash pm.toLargeMode ⟨rfl, rfl, rfl, rfl, rfl, rfl⟩
      rfl rfl rfl (by simp [toLargeMode]) fun i hi => by
        obtain ⟨hd0, ht0⟩ := index_zero_of_lt (i := i) (by rw [mem_live] at hi; omega)
        simp [Resolves, toLargeMode, hd0, ht0]
    exact ⟨pm', by simp [ObMap.grow, ha, hd, hL, hrun], hs, hinv, hthr⟩
  · obtain ⟨pm', hrun, hs, hinv, hthr⟩ :=
      h.grow_rehash pm (.refl pm) hL rfl rfl h.store00 h.resolves
    exact ⟨pm', by simp [ObMap.grow, ha, hL, hrun], hs, hinv, hthr⟩

theorem allocatePath_spec (pm : ObMap) (alloc : AllocSite → Bool) (iEntry : Nat) :
    ∃ ta sa ok, pm.allocatePath alloc iEntry = ({ pm with tableAt := ta, storeAt := sa }, ok) ∧
      (∀ i, pm.Resolves i → ta (indexDirectory i) = true ∧
        sa (indexDirectory i) (indexTable i) = true) ∧
      (ok = true → ta (indexDirectory iEntry) = true ∧
        sa (indexDirectory iEntry) (indexTable iEntry) = true) ∧
      (alloc .pushTable = true → alloc .pushStore = true → ok = true) := by
  set d := indexDirectory iEntry
  set t := indexTable iEntry
  unfold allocatePath
  by_cases hd : pm.tableAt d = true
  · by_cases ht : pm.storeAt d t = true
    · refine ⟨pm.tableAt, update pm.storeAt d (update (pm.storeAt d) t true), true,
        by simp [hd, ht], fun i hi => ?_, fun _ => by simp [hd], fun _ _ => rfl⟩
      rw [update_eq_self_iff.mpr (update_eq_self_iff.mpr ht.symm)]; exact hi
    · by_cases hs : alloc .pushStore = true
      · refine ⟨pm.tableAt, update pm.storeAt d (update (pm.storeAt d) t true), true,
          by simp [hd, ht, hs], fun i hi => ⟨hi.1, ?_⟩, fun _ => by simp [hd], fun _ _ => rfl⟩
        by_cases hid : indexDirectory i = d
        · rw [hid, update_same]
          by_cases hit : indexTable i = t
          · rw [hit, update_same]
          · rw [update_noteq hit, ← hid]; exact hi.2
        · rw [update_noteq hid]; exact hi.2
      · exact ⟨pm.tableAt, pm.storeAt, false, by simp [hd, ht, hs], fun i hi => hi,
          fun h => absurd h (by simp), fun _ h => absurd h hs⟩
  · have hfree : ∀ i, pm.Resolves i → indexDirectory i ≠ d := fun i hi he => hd (he ▸ hi.1)
    by_cases ha : alloc .pushTable = true
    · by_cases hs : alloc .pushStore = true
      · refine ⟨update pm.tableAt d true, update (update pm.storeAt d fun _ => false) d
          (update (fun _ => false) t true), true, by simp [hd, hs, ha], fun i hi => ?_,
          fun _ => by simp, fun _ _ => rfl⟩
        rw [update_noteq (hfree i hi), update_noteq (hfree i hi), update_noteq (hfree i hi)]
        exact hi
      · refine ⟨update pm.tableAt d true, update pm.storeAt d fun _ => false, false,
          by simp [hd, hs, ha], fun i hi => ?_, fun h => absurd h (by simp), fun _ h => absurd h hs⟩
        rw [update_noteq (hfree i hi), update_noteq (hfree i hi)]
        exact hi
    · exact ⟨pm.tableAt, pm.storeAt, false, by simp [hd, ha], fun i hi => hi,
        fun h => absurd h (by simp), fun h => absurd h ha⟩

/-- A pair `_ObMap_Push` accepts: a non-`NULL` value that no entry holds, a key that no entry
holds in keyed mode, and room for one more entry. -/
def Fresh (pm : ObMap) (k v : UInt64) : Prop :=
  v ≠ 0 ∧ (∀ i ∈ pm.live, (pm.entries i).v ≠ v) ∧
    (pm.fKey = true → ∀ i ∈ pm.live, (pm.entries i).k ≠ k) ∧ pm.c < OB_MAP_TABLE_MAX_CAPACITY

/-- `pm'` is `pm` with `(k, v)` written at index `c` and its reference taken, apart from the hash
maps, the hash size and the allocated tables. -/
structure Appended (pm pm' : ObMap) (k v : UInt64) : Prop where
  c : pm'.c = pm.c + 1
  entries : pm'.entries = update pm.entries pm.c ⟨k, v⟩
  fKey : pm'.fKey = pm.fKey
  fObjectsOb : pm'.fObjectsOb = pm.fObjectsOb
  fObjectsLocalFree : pm'.fObjectsLocalFree = pm.fObjectsLocalFree
  trace : pm'.trace = pm.trace ++ if pm.fObjectsOb then [.incref v] else []

theorem SameContent.fresh {pm' : ObMap} (hs : SameContent pm pm') {k v : UInt64}
    (hf : pm.Fresh k v) : pm'.Fresh k v := by
  simpa only [Fresh, hs.live, hs.entries, hs.fKey, hs.c] using hf

theorem SameContent.appended {pm' pm'' : ObMap} (hs : SameContent pm pm') {k v : UInt64}
    (ha : Appended pm' pm'' k v) : Appended pm pm'' k v :=
  ⟨ha.c.trans (by rw [hs.c]), ha.entries.trans (by rw [hs.entries, hs.c]),
    ha.fKey.trans hs.fKey, ha.fObjectsOb.trans hs.fObjectsOb,
    ha.fObjectsLocalFree.trans hs.fObjectsLocalFree, ha.trace.trans (by rw [hs.trace, hs.fObjectsOb])⟩

theorem Appended.liveEntries {pm' : ObMap} {k v : UInt64} (ha : Appended pm pm' k v)
    (hc : 1 ≤ pm.c) : pm'.liveEntries = pm.liveEntries ++ [⟨k, v⟩] := by
  obtain ⟨n, hn⟩ : ∃ n, pm.c = n + 1 := ⟨pm.c - 1, by omega⟩
  simp only [ObMap.liveEntries, ha.c, ha.entries, hn, Nat.add_sub_cancel, List.range_succ,
    List.map_append, List.map_cons, List.map_nil]
  rw [← hn, update_same]
  congr 1
  refine List.map_congr_left fun j hj => update_noteq ?_ _ _
  rw [List.mem_range] at hj; omega

theorem ite_emit (b : Bool) (e : Effect) :
    (if b then pm.emit e else pm) = { pm with trace := pm.trace ++ if b then [e] else [] } := by
  cases b <;> simp [emit]

theorem Inv.storeEntry (h : pm.Inv) (hlt : pm.c < pm.cHashGrowThreshold)
    (hres : pm.Resolves pm.c) {k v : UInt64} (hf : pm.Fresh k v) :
    ∃ pm', pm.storeEntry pm.c k v = some pm' ∧ Appended pm pm' k v ∧ pm'.Inv ∧
      pm'.fLargeMode = pm.fLargeMode ∧ pm'.cHashGrowThreshold = pm.cHashGrowThreshold := by
  obtain ⟨hv0, hv, hk, hmax⟩ := hf
  obtain ⟨m, hm⟩ := h.pow2
  have := h.c_pos
  have := h.c_lt_max
  set pmS : ObMap :=
    { pm with trace := pm.trace ++ (if pm.fObjectsOb then [.incref v] else []),
              c := pm.c + 1, entries := update pm.entries pm.c ⟨k, v⟩ } with hpmS
  have hliveS : pmS.live = insert pm.c pm.live := Nat.Ico_succ_right_eq_insert_Ico (by omega)
  have hnot : pm.c ∉ pm.live := by simp
  have hcard : pm.live.card < pm.cHashMax := by rw [card_live]; omega
  have hhome : ∀ f, ∀ j ∈ pm.live, pmS.home f j = pm.home f j := fun f j hj =>
    home_congr rfl hj (by rw [hliveS]; exact Finset.mem_insert_of_mem hj)
      (update_noteq (by rintro rfl; exact hnot hj) _ _)
  obtain ⟨tv, h1, hv1⟩ := insertHash_step pmS hm (f := true)
    (fun _ => h.hashValue.valid.congr_home (hhome true)) (by omega) hnot hcard
  obtain ⟨tk, h2, hk1⟩ := insertHash_step (pmS.setHashTable true tv) hm (f := false)
    (fun hf => by simpa using (h.hashKey (by simpa using hf)).valid.congr_home (hhome false))
    (by omega) hnot hcard
  have hne : ∀ j ∈ pm.live, j ≠ pm.c := fun j hj he => hnot (he ▸ hj)
  have hentry : ∀ i ∈ pmS.live, pmS.entries i = if i = pm.c then ⟨k, v⟩ else pm.entries i :=
    fun i _ => by simp only [hpmS, update_apply]
  have hfield : ∀ f, ∀ i ∈ pmS.live, ∀ j ∈ pmS.live,
      pmS.getFromEntryIndex f i = pmS.getFromEntryIndex f j → (f = true ∨ pm.fKey = true) →
        i = j := by
    intro f i hi j hj he hf
    rw [getFromEntryIndex_live hi, getFromEntryIndex_live hj, hentry i hi, hentry j hj] at he
    rw [hliveS, Finset.mem_insert] at hi hj
    rcases hi with rfl | hi <;> rcases hj with rfl | hj
    · rfl
    · cases f <;> simp only [if_pos, if_neg (hne j hj), Bool.false_eq_true, if_true,
        if_false] at he
      · exact absurd he.symm (hk (by simpa using hf) j hj)
      · exact absurd he.symm (hv j hj)
    · cases f <;> simp only [if_pos, if_neg (hne i hi), Bool.false_eq_true, if_true,
        if_false] at he
      · exact absurd he (hk (by simpa using hf) i hi)
      · exact absurd he (hv i hi)
    · cases f <;> simp only [if_neg (hne i hi), if_neg (hne j hj), Bool.false_eq_true, if_true,
        if_false] at he
      · exact h.keys_distinct (by simpa using hf) hi hj he
      · exact h.values_distinct hi hj he
  have hstore : pm.storeEntry pm.c k v = some ((pmS.setHashTable true tv).setHashTable false tk) := by
    simp only [ObMap.storeEntry, ite_emit, ← hpmS, h1, Option.some_bind, h2]
  have hlive' : ((pmS.setHashTable true tv).setHashTable false tk).live = pmS.live := by
    simp [ObMap.live]
  refine ⟨_, hstore, ⟨rfl, rfl, rfl, rfl, rfl, rfl⟩, ⟨show 1 ≤ pm.c + 1 by omega,
    show pm.c + 1 ≤ pm.cHashGrowThreshold by omega, show pm.c + 1 ≤ _ by omega, h.pow2, h.max_ge,
    h.threshold, h.small, h.store00, fun i hi => ?_, fun i hi => ?_,
    ⟨by simpa [hlive', hliveS] using hv1 (.inl rfl), fun i hi => mem_live.mp hi,
      fun i hi j hj he => hfield true i (hlive' ▸ hi) j (hlive' ▸ hj) (by simpa using he) (.inl rfl)⟩,
    fun hkey => ⟨by simpa [hlive', hliveS] using hk1 (.inr hkey), fun i hi => mem_live.mp hi,
      fun i hi j hj he =>
        hfield false i (hlive' ▸ hi) j (hlive' ▸ hj) (by simpa using he) (.inr hkey)⟩⟩,
    by simp [hpmS], by simp [hpmS]⟩ <;>
    rw [hlive', hliveS, Finset.mem_insert] at hi
  · rcases hi with rfl | hi
    · exact hres
    · exact h.resolves i hi
  · show (update pm.entries pm.c ⟨k, v⟩ i).v ≠ 0
    rcases hi with rfl | hi
    · simpa using hv0
    · rw [update_noteq (hne i hi)]; exact h.value_ne_zero i hi

theorem Inv.growIfFull (h : pm.Inv) :
    ∃ pmG, (if pm.c = pm.cHashGrowThreshold then pm.grow allocOk else some (pm, true)) =
        some (pmG, true) ∧ SameContent pm pmG ∧ pmG.Inv ∧ pm.c < pmG.cHashGrowThreshold ∧
      (pm.c < pm.cHashGrowThreshold → pmG = pm) := by
  by_cases hT : pm.c = pm.cHashGrowThreshold
  · obtain ⟨pmG, hg, hs, hi, ht⟩ := h.grow (show allocOk .growHashMap = true from rfl) rfl
    have := h.c_pos
    exact ⟨pmG, by rw [if_pos hT, hg], hs, hi, by omega, fun hlt => absurd hT (by omega)⟩
  · exact ⟨pm, if_neg hT, .refl pm, h, lt_of_le_of_ne h.c_le hT, fun _ => rfl⟩

theorem Inv.push (h : pm.Inv) (k v : UInt64) :
    ∃ r, pm.push k v allocOk = some r ∧ r.1.Inv ∧
      (pm.Fresh k v → r.2 = true ∧ Appended pm r.1 k v) ∧ (¬ pm.Fresh k v → r = (pm, false)) ∧
      (pm.c < pm.cHashGrowThreshold →
        r.1.fLargeMode = pm.fLargeMode ∧ r.1.cHashGrowThreshold = pm.cHashGrowThreshold) := by
  have hreject : ¬ pm.Fresh k v → pm.push k v allocOk = some (pm, false) →
      ∃ r, pm.push k v allocOk = some r ∧ r.1.Inv ∧
        (pm.Fresh k v → r.2 = true ∧ Appended pm r.1 k v) ∧ (¬ pm.Fresh k v → r = (pm, false)) ∧
        (pm.c < pm.cHashGrowThreshold →
          r.1.fLargeMode = pm.fLargeMode ∧ r.1.cHashGrowThreshold = pm.cHashGrowThreshold) :=
    fun hf hp => ⟨_, hp, h, fun h' => absurd h' hf, fun _ => rfl, fun _ => ⟨rfl, rfl⟩⟩
  by_cases hv0 : v = 0
  · exact hreject (fun hf => hf.1 hv0) (by simp [ObMap.push, hv0])
  obtain ⟨bv, hbv, hbv'⟩ := h.exists_value v
  by_cases hvt : bv
  · obtain ⟨-, i, hi, he⟩ := hbv'.mp hvt
    exact hreject (fun hf => hf.2.1 i hi he) (by simp [ObMap.push, hv0, hbv, hvt])
  rw [Bool.not_eq_true] at hvt
  subst hvt
  obtain ⟨bk, hbk, hbk'⟩ := h.exists_key k
  by_cases hkt : bk
  · obtain ⟨hk, i, hi, he⟩ := hbk'.mp hkt
    exact hreject (fun hf => hf.2.2.1 hk i hi he) (by simp [ObMap.push, hv0, hbv, hbk, hkt])
  rw [Bool.not_eq_true] at hkt
  subst hkt
  by_cases hcm : pm.c = OB_MAP_TABLE_MAX_CAPACITY
  · exact hreject (fun hf => absurd hcm (Nat.ne_of_lt hf.2.2.2))
      (by simp [ObMap.push, hv0, hbv, hbk, hcm])
  have hf : pm.Fresh k v := ⟨hv0, fun i hi he => Bool.false_ne_true (hbv'.mpr ⟨hv0, i, hi, he⟩),
    fun hk i hi he => Bool.false_ne_true (hbk'.mpr ⟨hk, i, hi, he⟩),
    lt_of_le_of_ne h.c_le_max hcm⟩
  obtain ⟨pmG, hG, hsG, hinvG, hltG, hsame⟩ := h.growIfFull
  obtain ⟨ta, sa, ok, hP, hres, hnew, hok⟩ := allocatePath_spec pmG allocOk pm.c
  obtain rfl := hok rfl rfl
  have hsP : SameContent pmG { pmG with tableAt := ta, storeAt := sa } := ⟨rfl, rfl, rfl, rfl, rfl, rfl⟩
  have hinvP : ({ pmG with tableAt := ta, storeAt := sa } : ObMap).Inv :=
    hinvG.of_sameContent hsP hinvG.c_le hinvG.pow2 hinvG.max_ge hinvG.threshold hinvG.small
      (by simpa [Resolves, indexDirectory, indexTable] using hres 0 (by
        simpa [Resolves, indexDirectory, indexTable] using hinvG.store00))
      (fun i hi => hres i (hinvG.resolves i (hsP.live ▸ hi))) hinvG.hashValue.valid
      fun hk => (hinvG.hashKey hk).valid
  have hcP : ({ pmG with tableAt := ta, storeAt := sa } : ObMap).c = pm.c := hsG.c
  obtain ⟨pm', hS, hA, hinv', hL', hT'⟩ := hinvP.storeEntry (by rw [hcP]; exact hltG)
    (by rw [hcP]; exact hnew rfl) ((hsG.trans hsP).fresh hf)
  refine ⟨(pm', true), ?_, hinv', fun _ => ⟨rfl, (hsG.trans hsP).appended hA⟩, fun h' => absurd hf h',
    fun hlt => by obtain rfl := hsame hlt; exact ⟨hL', hT'⟩⟩
  simp only [ObMap.push, hv0, hbv, hbk, hcm, hG, hP, if_false, Option.some_bind, Bool.false_eq_true,
    Bool.not_true]
  rw [← hcP, hS]
  rfl

theorem Inv.pushCopy (h : pm.Inv) (k pvCopy : UInt64) :
    ∃ r, pm.pushCopy k pvCopy allocOk = some r ∧ r.1.Inv ∧
      (pm.fObjectsLocalFree = true → pm.Fresh k pvCopy → r.2 = true ∧ Appended pm r.1 k pvCopy) ∧
      (pm.fObjectsLocalFree = true → pvCopy ≠ 0 → ¬ pm.Fresh k pvCopy →
        r = (pm.emit (.localFree pvCopy), false)) ∧
      (pm.fObjectsLocalFree = false ∨ pvCopy = 0 → r = (pm, false)) := by
  by_cases hskip : pm.fObjectsLocalFree = false ∨ pvCopy = 0
  · refine ⟨(pm, false), ?_, h, fun hl hf => ?_, fun hl hp _ => ?_, fun _ => rfl⟩
    · rcases hskip with hl | hp
      · simp [ObMap.pushCopy, hl]
      · simp [ObMap.pushCopy, hp]
    · exact absurd (hskip.resolve_left (by simp [hl])) hf.1
    · exact absurd (hskip.resolve_left (by simp [hl])) hp
  obtain ⟨hl, hp⟩ : pm.fObjectsLocalFree = true ∧ pvCopy ≠ 0 := by
    simpa [not_or] using hskip
  obtain ⟨r, hr, hinv, hok, hrej, -⟩ := h.push k pvCopy
  have hpc : pm.pushCopy k pvCopy allocOk =
      some (if r.2 then r else (r.1.emit (.localFree pvCopy), false)) := by
    simp [ObMap.pushCopy, hl, hp, hr]
  by_cases hf : pm.Fresh k pvCopy
  · obtain ⟨h2, ha⟩ := hok hf
    exact ⟨r, by rw [hpc, if_pos h2], hinv, fun _ _ => ⟨h2, ha⟩, fun _ _ h' => absurd hf h',
      fun h' => absurd h' hskip⟩
  · obtain rfl := hrej hf
    exact ⟨_, hpc, h.emit _, fun _ h' => absurd h' hf, fun _ _ _ => rfl, fun h' => absurd h' hskip⟩

end LeechCore.ObMap
