import LeechCore.ObMap.Push

/-!
# Sorting the entry index

`_ObMap_SortEntryIndex` permutes the live entries and rebuilds both hash maps over the same live
indices.
-/

namespace LeechCore.ObMap

set_option autoImplicit false

open Function Probe

variable {pm : ObMap}

theorem insertHashUpTo_spec (pm0 : ObMap) {f : Bool} (hf : f = true ∨ pm0.fKey = true) {m : Nat}
    (hm : pm0.cHashMax = 2 ^ m) (h0 : pm0.hashTable f = fun _ => 0) :
    ∀ k < pm0.cHashMax, ∃ t, insertHashUpTo f k pm0 = some (pm0.setHashTable f t) ∧
      Valid pm0.cHashMax (pm0.home f) t (Finset.Ico 1 (k + 1))
  | 0, _ => ⟨pm0.hashTable f, by simp [insertHashUpTo], by simpa [h0] using Valid.empty⟩
  | k + 1, hk => by
    obtain ⟨t, hrun, hv⟩ := insertHashUpTo_spec pm0 hf hm h0 k (by omega)
    obtain ⟨t', h1, hv'⟩ := insertHash_step (pm0.setHashTable f t) (by simpa using hm) (f := f)
      (fun _ => by simpa using hv) (i := k + 1) (by omega) (by simp) (by simp; omega)
    refine ⟨t', by simp [insertHashUpTo, hrun, h1], ?_⟩
    simpa [Nat.Ico_succ_right_eq_insert_Ico (by omega : 1 ≤ k + 1)] using hv' (by simpa using hf)

theorem nodup_liveEntries_iff {α : Type} (g : Entry → α) :
    (pm.liveEntries.map g).Nodup ↔
      ∀ i ∈ pm.live, ∀ j ∈ pm.live, g (pm.entries i) = g (pm.entries j) → i = j := by
  rw [ObMap.liveEntries, List.map_map, List.nodup_map_iff_inj_on (List.nodup_range _)]
  constructor
  · intro hinj i hi j hj he
    rw [mem_live] at hi hj
    have := hinj (i - 1) (by simp; omega) (j - 1) (by simp; omega)
      (by simp only [Function.comp]; rwa [Nat.sub_add_cancel hi.1, Nat.sub_add_cancel hj.1])
    omega
  · intro hinj i hi j hj he
    simp only [List.mem_range] at hi hj
    have := hinj (i + 1) (by rw [mem_live]; omega) (j + 1) (by rw [mem_live]; omega) he
    omega

theorem liveEntries_writeEntries {l : List Entry} (hl : l.length = pm.c - 1) :
    (pm.writeEntries l).liveEntries = l := by
  apply List.ext_getElem
  · simp [writeEntries, hl]
  · intro n h1 h2
    simp only [getElem_liveEntries, writeEntries]
    rw [if_pos ⟨by omega, by omega⟩, Nat.add_sub_cancel]
    simp [List.getD_eq_getElem?_getD, h2]

theorem mem_liveEntries {e : Entry} : e ∈ pm.liveEntries ↔ ∃ i ∈ pm.live, pm.entries i = e := by
  simp only [ObMap.liveEntries, List.mem_map, List.mem_range, mem_live]
  constructor
  · rintro ⟨j, hj, rfl⟩; exact ⟨j + 1, ⟨by omega, by omega⟩, rfl⟩
  · rintro ⟨i, hi, rfl⟩; exact ⟨i - 1, by omega, by rw [Nat.sub_add_cancel hi.1]⟩

theorem Inv.of_perm {pm' : ObMap} (h : pm.Inv) (hperm : pm'.liveEntries.Perm pm.liveEntries)
    (hc : pm'.c = pm.c) (hmax : pm'.cHashMax = pm.cHashMax)
    (hthr : pm'.cHashGrowThreshold = pm.cHashGrowThreshold) (hL : pm'.fLargeMode = pm.fLargeMode)
    (hk : pm'.fKey = pm.fKey) (hta : pm'.tableAt = pm.tableAt) (hsa : pm'.storeAt = pm.storeAt)
    (hv : Valid pm'.cHashMax (pm'.home true) (pm'.hashTable true) pm'.live)
    (hkv : pm'.fKey = true → Valid pm'.cHashMax (pm'.home false) (pm'.hashTable false) pm'.live) :
    pm'.Inv := by
  have hlive : pm'.live = pm.live := by simp only [ObMap.live, hc]
  have hdist : ∀ {α : Type} (g : Entry → α),
      (∀ i ∈ pm.live, ∀ j ∈ pm.live, g (pm.entries i) = g (pm.entries j) → i = j) →
      ∀ i ∈ pm'.live, ∀ j ∈ pm'.live, g (pm'.entries i) = g (pm'.entries j) → i = j :=
    fun g hg => (nodup_liveEntries_iff g).mp ((hperm.map g).nodup_iff.mpr
      ((nodup_liveEntries_iff g).mpr hg))
  have hfield : ∀ f, ∀ i ∈ pm'.live, pm'.getFromEntryIndex f i =
      (fun e : Entry => if f then e.v else e.k) (pm'.entries i) :=
    fun f i hi => getFromEntryIndex_live hi f
  refine ⟨hc ▸ h.c_pos, hc ▸ hthr ▸ h.c_le, hc ▸ h.c_le_max, hmax ▸ h.pow2, hmax ▸ h.max_ge,
    hmax ▸ hthr ▸ h.threshold, hL ▸ hmax ▸ h.small, hta ▸ hsa ▸ h.store00,
    fun i hi => ?_, fun i hi => ?_, ⟨hv, fun i hi => mem_live.mp hi, fun i hi j hj he => ?_⟩,
    fun hkey => ⟨hkv hkey, fun i hi => mem_live.mp hi, fun i hi j hj he => ?_⟩⟩
  · simpa [Resolves, hta, hsa] using h.resolves i (hlive ▸ hi)
  · obtain ⟨j, hj, he⟩ := mem_liveEntries.mp (hperm.subset (mem_liveEntries.mpr ⟨i, hi, rfl⟩))
    rw [← he]; exact h.value_ne_zero j hj
  · rw [hfield true i hi, hfield true j hj] at he
    refine hdist Entry.v (fun i hi j hj he => h.values_distinct hi hj he) i hi j hj he
  · rw [hfield false i hi, hfield false j hj] at he
    exact hdist Entry.k (fun i hi j hj he => h.keys_distinct (hk ▸ hkey) hi hj he) i hi j hj he

theorem length_qsort (cmp : Entry → Entry → Int) (l : List Entry) : (qsort cmp l).length = l.length :=
  List.length_mergeSort l

theorem Inv.sortEntryIndex (h : pm.Inv) (cmp : Entry → Entry → Int) :
    ∃ pm', pm.sortEntryIndex cmp true = some (pm', true) ∧ pm'.Inv ∧
      pm'.liveEntries = qsort cmp pm.liveEntries ∧ pm'.c = pm.c ∧ pm'.fKey = pm.fKey ∧
      pm'.fObjectsOb = pm.fObjectsOb ∧ pm'.fObjectsLocalFree = pm.fObjectsLocalFree ∧
      pm'.trace = pm.trace := by
  obtain ⟨m, hm⟩ := h.pow2
  have := h.c_pos
  have hc : pm.c - 1 < pm.cHashMax := by have := h.c_lt_max; omega
  set pmW := pm.writeEntries (qsort cmp pm.liveEntries) with hW
  have hWk : pmW.fKey = pm.fKey := rfl
  have hWl : pmW.liveEntries = qsort cmp pm.liveEntries :=
    liveEntries_writeEntries (by rw [length_qsort, length_liveEntries])
  have hIco : Finset.Ico 1 (pm.c - 1 + 1) = pmW.live := by
    simp only [ObMap.live, hW, writeEntries]; congr 1; omega
  obtain ⟨tk, hK, hKv⟩ : ∃ tk, (if pmW.fKey then
      insertHashUpTo false (pmW.c - 1) (pmW.setHashTable false fun _ => 0) else some pmW) =
        some (pmW.setHashTable false tk) ∧
      (pm.fKey = true → Valid pm.cHashMax (pmW.home false) tk pmW.live) := by
    cases hk : pm.fKey
    · exact ⟨pmW.hashTable false, by rw [setHashTable_hashTable_self, hWk, hk]; rfl,
        fun h => absurd h (by simp)⟩
    · obtain ⟨t, ht, hv⟩ := insertHashUpTo_spec (pmW.setHashTable false fun _ => 0) (f := false)
        (.inr (by simpa [hW, writeEntries] using hk)) (by simpa [hW, writeEntries] using hm)
        (by simp) (pm.c - 1) (by simpa [hW, writeEntries] using hc)
      refine ⟨t, ?_, fun _ => ?_⟩
      · simpa [hW, writeEntries, hk] using ht
      · simpa [hW, writeEntries, hIco] using hv
  obtain ⟨tv, hV, hVv⟩ := insertHashUpTo_spec
    ((pmW.setHashTable false tk).setHashTable true fun _ => 0) (f := true) (.inl rfl)
    (by simpa [hW, writeEntries] using hm) (by simp) (pm.c - 1) (by simpa [hW, writeEntries] using hc)
  have hsort : pm.sortEntryIndex cmp true = some ((pmW.setHashTable false tk).setHashTable true tv, true) := by
    simp only [ObMap.sortEntryIndex, Bool.not_true, Bool.false_eq_true, if_false, ← hW, hK,
      Option.some_bind, setHashTable_c]
    simp only [show pmW.c = pm.c from rfl, hV, Option.map_some', setHashTable_setHashTable]
  -- the fields the rebuilt hash maps leave alone, by the `setHashTable` lemmas rather than by
  -- unfolding, which is slow here
  refine ⟨_, hsort, Inv.of_perm h (by simpa [hWl, qsort] using List.mergeSort_perm _ _)
    ?_ ?_ ?_ ?_ ?_ ?_ ?_ (by simpa [hIco] using hVv) (fun hk => by simpa [hIco] using hKv hk),
    by simpa using hWl, ?_, ?_, ?_, ?_, ?_⟩ <;>
    simp only [setHashTable_c, setHashTable_cHashMax, setHashTable_cHashGrowThreshold,
      setHashTable_fLargeMode, setHashTable_fKey, setHashTable_tableAt, setHashTable_storeAt,
      setHashTable_fObjectsOb, setHashTable_fObjectsLocalFree, setHashTable_trace] <;> rfl

end LeechCore.ObMap
