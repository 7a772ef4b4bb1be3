import LeechCore.ObMap.Invariant
import LeechCore.ListModel

/-!
# Removal

`_ObMap_RetrieveAndRemoveByEntryIndex` writes the last entry over the removed one; on the list
of entries it is `ListModel.swapRemove`, and it keeps the invariant.
-/

namespace LeechCore.ObMap

set_option autoImplicit false

open Function Probe

variable {pm : ObMap}

/-- The map after the live index `i` is removed: the last entry in its place, `c` one less,
and the hash maps `tk` and `tv`. -/
def afterRemove (pm : ObMap) (i : Nat) (tk tv : Nat → Nat) : ObMap :=
  { pm with c := pm.c - 1, entries := update pm.entries i (pm.entries (pm.c - 1)),
            hashMapKey := tk, hashMapValue := tv }

theorem setHashTable_true (t : Nat → Nat) :
    pm.setHashTable true t = { pm with hashMapValue := t } := rfl

theorem setHashTable_false (t : Nat → Nat) :
    pm.setHashTable false t = { pm with hashMapKey := t } := rfl

theorem live_afterRemove {i : Nat} (tk tv : Nat → Nat) :
    (pm.afterRemove i tk tv).live = Finset.Ico 1 (pm.c - 1) := rfl

theorem afterRemove_entries {i j : Nat} (tk tv : Nat → Nat) :
    (pm.afterRemove i tk tv).entries j = pm.entries (if j = i then pm.c - 1 else j) := by
  by_cases hj : j = i
  · subst hj; simp [afterRemove]
  · simp [afterRemove, hj]

theorem Inv.afterRemove_of_valid (h : pm.Inv) {i : Nat} (hi : i ∈ pm.live) {tk tv : Nat → Nat}
    (hv : Valid pm.cHashMax ((pm.afterRemove i tk tv).home true) tv (Finset.Ico 1 (pm.c - 1)))
    (hk : pm.fKey = true →
      Valid pm.cHashMax ((pm.afterRemove i tk tv).home false) tk (Finset.Ico 1 (pm.c - 1))) :
    (pm.afterRemove i tk tv).Inv := by
  rw [mem_live] at hi
  have hsrc : ∀ j ∈ (pm.afterRemove i tk tv).live,
      (if j = i then pm.c - 1 else j) ∈ pm.live := fun j hj => by
    rw [live_afterRemove, Finset.mem_Ico] at hj
    rw [mem_live]; split <;> omega
  have hinj : ∀ j ∈ (pm.afterRemove i tk tv).live, ∀ j' ∈ (pm.afterRemove i tk tv).live,
      (if j = i then pm.c - 1 else j) = (if j' = i then pm.c - 1 else j') → j = j' := by
    intro j hj j' hj' he
    rw [live_afterRemove, Finset.mem_Ico] at hj hj'
    split at he <;> split at he <;> omega
  have hfield : ∀ j ∈ (pm.afterRemove i tk tv).live, ∀ f,
      (pm.afterRemove i tk tv).getFromEntryIndex f j =
        pm.getFromEntryIndex f (if j = i then pm.c - 1 else j) := fun j hj f => by
    rw [getFromEntryIndex_live hj, getFromEntryIndex_live (hsrc j hj), afterRemove_entries]
  refine ⟨?_, ?_, ?_, h.pow2, h.max_ge, h.threshold, h.small, h.store00, fun j hj => ?_,
    fun j hj => ?_, ⟨hv, fun j hj => ?_, fun j hj j' hj' he => ?_⟩,
    fun hkey => ⟨hk hkey, fun j hj => ?_, fun j hj j' hj' he => ?_⟩⟩
  · show 1 ≤ pm.c - 1; omega
  · show pm.c - 1 ≤ pm.cHashGrowThreshold; have := h.c_le; omega
  · show pm.c - 1 ≤ _; have := h.c_le_max; omega
  · rw [live_afterRemove, Finset.mem_Ico] at hj
    exact h.resolves j (by rw [mem_live]; omega)
  · rw [afterRemove_entries]; exact h.value_ne_zero _ (hsrc j hj)
  · rw [← mem_live]; exact hj
  · rw [hfield j hj, hfield j' hj'] at he
    exact hinj j hj j' hj' (h.hashValue.distinct _ (hsrc j hj) _ (hsrc j' hj') he)
  · rw [← mem_live]; exact hj
  · rw [hfield j hj, hfield j' hj'] at he
    exact hinj j hj j' hj' ((h.hashKey hkey).distinct _ (hsrc j hj) _ (hsrc j' hj') he)

theorem retrieveAndRemoveByEntryIndex_last {i : Nat} {e : Entry} {pm1 pm2 : ObMap}
    (hget : pm.getFromIndex i = some e) (h1 : pm.removeHash false e.k i = some pm1)
    (h2 : pm1.removeHash true e.v i = some pm2) (hlast : ¬ i < pm2.c - 1) :
    pm.retrieveAndRemoveByEntryIndex i = some ({ pm2 with c := pm2.c - 1 }, e.v, some e.k) := by
  simp only [retrieveAndRemoveByEntryIndex, hget, h1, h2, hlast, Option.bind_eq_bind,
    Option.some_bind, if_false]

theorem retrieveAndRemoveByEntryIndex_swap {i : Nat} {e : Entry}
    {pm1 pm2 pm3 pm4 pm5 pm6 : ObMap}
    (hget : pm.getFromIndex i = some e) (h1 : pm.removeHash false e.k i = some pm1)
    (h2 : pm1.removeHash true e.v i = some pm2) (hlast : i < pm2.c - 1)
    (h3 : pm2.removeHash false (pm2.entries (pm2.c - 1)).k (pm2.c - 1) = some pm3)
    (h4 : pm3.removeHash true (pm2.entries (pm2.c - 1)).v (pm3.c - 1) = some pm4)
    (h5 : ({ pm4 with entries := update pm4.entries i (pm2.entries (pm2.c - 1)) } : ObMap).insertHash
      false i = some pm5)
    (h6 : pm5.insertHash true i = some pm6) :
    pm.retrieveAndRemoveByEntryIndex i = some ({ pm6 with c := pm6.c - 1 }, e.v, some e.k) := by
  simp only [retrieveAndRemoveByEntryIndex, hget, h1, h2, hlast, h3, h4, h5, h6,
    Option.bind_eq_bind, Option.some_bind, if_true]

theorem removeHash_both (q : ObMap) {m : Nat} (hmax : q.cHashMax = 2 ^ m) {S : Finset Nat}
    (hv : Valid q.cHashMax (q.home true) q.hashMapValue S)
    (hk : q.fKey = true → Valid q.cHashMax (q.home false) q.hashMapKey S)
    {j : Nat} (hj : j ∈ S) (hc : S.card < q.cHashMax) (k v : UInt64) :
    ∃ tk tv, q.removeHash false k j = some (q.setHashTable false tk) ∧
      (q.setHashTable false tk).removeHash true v j =
        some ((q.setHashTable false tk).setHashTable true tv) ∧
      Valid q.cHashMax (q.home true) tv (S.erase j) ∧
      (q.fKey = true → Valid q.cHashMax (q.home false) tk (S.erase j)) := by
  obtain ⟨tk, h1, hk1⟩ := removeHash_step q hmax (f := false)
    (fun hf => by simpa using hk (by simpa using hf)) hj hc k
  obtain ⟨tv, h2, hv1⟩ := removeHash_step (q.setHashTable false tk) hmax (f := true)
    (fun _ => by simpa using hv) hj (by simpa using hc) v
  exact ⟨tk, tv, h1, h2, by simpa using hv1 (.inl rfl), fun hf => by simpa using hk1 (.inr hf)⟩

theorem insertHash_both (q : ObMap) {m : Nat} (hmax : q.cHashMax = 2 ^ m) {S : Finset Nat}
    (hv : Valid q.cHashMax (q.home true) q.hashMapValue S)
    (hk : q.fKey = true → Valid q.cHashMax (q.home false) q.hashMapKey S)
    {j : Nat} (hj0 : j ≠ 0) (hj : j ∉ S) (hc : S.card < q.cHashMax) :
    ∃ tk tv, q.insertHash false j = some (q.setHashTable false tk) ∧
      (q.setHashTable false tk).insertHash true j =
        some ((q.setHashTable false tk).setHashTable true tv) ∧
      Valid q.cHashMax (q.home true) tv (insert j S) ∧
      (q.fKey = true → Valid q.cHashMax (q.home false) tk (insert j S)) := by
  obtain ⟨tk, h1, hk1⟩ := insertHash_step q hmax (f := false)
    (fun hf => by simpa using hk (by simpa using hf)) hj0 hj hc
  obtain ⟨tv, h2, hv1⟩ := insertHash_step (q.setHashTable false tk) hmax (f := true)
    (fun _ => by simpa using hv) hj0 hj (by simpa using hc)
  exact ⟨tk, tv, h1, h2, by simpa using hv1 (.inl rfl), fun hf => by simpa using hk1 (.inr hf)⟩

theorem Inv.retrieveAndRemove (h : pm.Inv) {i : Nat} (hi : i ∈ pm.live) :
    ∃ tk tv, pm.retrieveAndRemoveByEntryIndex i =
        some (pm.afterRemove i tk tv, (pm.entries i).v, some (pm.entries i).k) ∧
      (pm.afterRemove i tk tv).Inv := by
  obtain ⟨m, hm⟩ := h.pow2
  have hi' := mem_live.mp hi
  have hget := getFromIndex_eq_some hi'.1 hi'.2
  have hcard : pm.live.card < pm.cHashMax := by rw [card_live]; have := h.c_lt_max; omega
  obtain ⟨tk1, tv1, h1, h2, hv1, hk1⟩ := removeHash_both pm hm h.hashValue.valid
    (fun hf => (h.hashKey hf).valid) hi hcard (pm.entries i).k (pm.entries i).v
  by_cases hlast : i < pm.c - 1
  case pos =>
    -- the last entry is taken out of both maps and inserted again at `i`
    have hL : pm.c - 1 ∈ pm.live.erase i := by simp; omega
    have hcard' : (pm.live.erase i).card < pm.cHashMax := Finset.card_erase_le.trans_lt hcard
    obtain ⟨tk2, tv2, h3, h4, hv2, hk2⟩ := removeHash_both
      ((pm.setHashTable false tk1).setHashTable true tv1) hm (by simpa using hv1)
      (fun hf => by simpa using hk1 hf) hL hcard' (pm.entries (pm.c - 1)).k (pm.entries (pm.c - 1)).v
    let pm5 : ObMap :=
      { (((pm.setHashTable false tk1).setHashTable true tv1).setHashTable false tk2).setHashTable
          true tv2 with entries := update pm.entries i (pm.entries (pm.c - 1)) }
    -- the fields of `pm5` by `simp`, not by unfolding: its nested updates make that slow
    have hmax5 : pm5.cHashMax = pm.cHashMax := by simp only [pm5, setHashTable_cHashMax]
    have hlive5 : pm5.live = pm.live := by simp only [live, pm5, setHashTable_c]
    have hhome : ∀ f, ∀ j ∈ (pm.live.erase i).erase (pm.c - 1), pm5.home f j = pm.home f j := by
      intro f j hj
      have hj' := Finset.mem_of_mem_erase (Finset.mem_of_mem_erase hj)
      exact home_congr hmax5 hj' (by rw [hlive5]; exact hj')
        (update_noteq (Finset.ne_of_mem_erase (Finset.mem_of_mem_erase hj)) _ _)
    obtain ⟨tk3, tv3, h6, h7, hv3, hk3⟩ := insertHash_both pm5 (hmax5.trans hm)
      (by rw [hmax5]; exact hv2.congr_home (hhome true))
      (fun hf => by rw [hmax5]; exact (hk2 hf).congr_home (hhome false)) hi'.1.ne'
      (by simp) (by rw [hmax5]; exact Finset.card_erase_le.trans_lt hcard')
    have hIco : insert i ((pm.live.erase i).erase (pm.c - 1)) = Finset.Ico 1 (pm.c - 1) := by
      ext j; simp only [Finset.mem_insert, Finset.mem_erase, mem_live, Finset.mem_Ico]; omega
    have hhome' : ∀ f, ∀ j ∈ Finset.Ico 1 (pm.c - 1),
        (pm.afterRemove i tk3 tv3).home f j = pm5.home f j := fun f j hj => by
      rw [Finset.mem_Ico] at hj
      exact home_congr hmax5.symm (by rw [hlive5, mem_live]; omega)
        (by rw [live_afterRemove, Finset.mem_Ico]; omega) rfl
    have hrec : ({ (pm5.setHashTable false tk3).setHashTable true tv3 with
        c := ((pm5.setHashTable false tk3).setHashTable true tv3).c - 1 } : ObMap) =
        pm.afterRemove i tk3 tv3 := by
      simp only [afterRemove, setHashTable_true, setHashTable_false, pm5]
    rw [hmax5, hIco] at hv3 hk3
    exact ⟨tk3, tv3, hrec ▸ retrieveAndRemoveByEntryIndex_swap hget h1 h2 hlast h3 h4 h6 h7,
      h.afterRemove_of_valid hi (hv3.congr_home (hhome' true))
        fun hk => (hk3 hk).congr_home (hhome' false)⟩
  case neg =>
    -- the removed index is the last one: nothing moves
    have hie : i = pm.c - 1 := by omega
    have hIco : pm.live.erase i = Finset.Ico 1 (pm.c - 1) := by
      ext j; simp only [Finset.mem_erase, mem_live, Finset.mem_Ico]; omega
    have hhome' : ∀ f, ∀ j ∈ Finset.Ico 1 (pm.c - 1),
        (pm.afterRemove i tk1 tv1).home f j = pm.home f j := fun f j hj => by
      rw [Finset.mem_Ico] at hj
      exact home_congr rfl (by rw [mem_live]; omega) (by rw [live_afterRemove, Finset.mem_Ico]; omega)
        (by rw [afterRemove_entries, if_neg (by omega)])
    refine ⟨tk1, tv1, ?_, h.afterRemove_of_valid hi ((hIco ▸ hv1).congr_home (hhome' true))
      fun hk => (hIco ▸ hk1 hk).congr_home (hhome' false)⟩
    rw [retrieveAndRemoveByEntryIndex_last hget h1 h2 (by simpa using hlast)]
    subst hie
    simp only [afterRemove, update_eq_self]
    rfl

theorem liveEntries_afterRemove {i : Nat} (hi : i ∈ pm.live) (tk tv : Nat → Nat) :
    (pm.afterRemove i tk tv).liveEntries = ListModel.swapRemove pm.liveEntries (i - 1) := by
  rw [mem_live] at hi
  simp only [ListModel.swapRemove, getLast?_liveEntries (by omega : 1 < pm.c)]
  apply List.ext_getElem
  · simp only [length_liveEntries, List.length_dropLast, List.length_set]; rfl
  · intro n h1 h2
    simp only [getElem_liveEntries, List.getElem_dropLast, List.getElem_set, afterRemove_entries]
    split_ifs <;> first | rfl | omega

theorem Inv.removeOrRemoveByKey (h : pm.Inv) (f : Bool) (kv : UInt64) :
    ∃ r, pm.removeOrRemoveByKey f kv = some r ∧ r.1.Inv ∧
      ((∃ i ∈ pm.live, (f = true ∨ pm.fKey = true) ∧ pm.getFromEntryIndex f i = kv ∧
          ∃ tk tv, r = (pm.afterRemove i tk tv, (pm.entries i).v)) ∨
        ((∀ i ∈ pm.live, (f = true ∨ pm.fKey = true) → pm.getFromEntryIndex f i ≠ kv) ∧
          r = (pm, 0))) := by
  by_cases hz : (f && kv == 0) = true
  · simp only [Bool.and_eq_true, beq_iff_eq] at hz
    obtain ⟨rfl, rfl⟩ := hz
    refine ⟨(pm, 0), by simp [ObMap.removeOrRemoveByKey], h, .inr ⟨fun i hi _ => ?_, rfl⟩⟩
    rw [getFromEntryIndex_live hi]
    exact h.value_ne_zero i hi
  by_cases hf : f = true ∨ pm.fKey = true
  · obtain ⟨res, hres, hiff⟩ := h.lookup hf kv
    cases res with
    | none =>
      refine ⟨(pm, 0), by simp [ObMap.removeOrRemoveByKey, hz, hres], h,
        .inr ⟨fun i hi _ he => ?_, rfl⟩⟩
      exact absurd ((hiff i).mpr ⟨hi, he⟩) (by simp)
    | some i =>
      obtain ⟨hi, he⟩ := (hiff i).mp rfl
      obtain ⟨tk, tv, hr, hinv⟩ := h.retrieveAndRemove hi
      exact ⟨_, by simp [ObMap.removeOrRemoveByKey, hz, hres, hr], hinv,
        .inl ⟨i, hi, hf, he, tk, tv, rfl⟩⟩
  · obtain ⟨rfl, hk⟩ : f = false ∧ pm.fKey = false := by cases f <;> simp_all
    exact ⟨(pm, 0), by simp [ObMap.removeOrRemoveByKey, getEntryIndexFromKeyOrValue_nokey hk], h,
      .inr ⟨fun i _ h' => absurd h' hf, rfl⟩⟩

theorem Inv.pop (h : pm.Inv) :
    (pm.c = 1 ∧ pm.pop = some (pm, 0, none)) ∨
      (1 < pm.c ∧ ∃ tk tv, pm.pop = some (pm.afterRemove (pm.c - 1) tk tv,
          (pm.entries (pm.c - 1)).v, some (pm.entries (pm.c - 1)).k) ∧
        (pm.afterRemove (pm.c - 1) tk tv).Inv) := by
  by_cases hc : pm.c = 1
  · exact .inl ⟨hc, by simp [ObMap.pop, retrieveAndRemoveByEntryIndex, hc]⟩
  · have := h.c_pos
    exact .inr ⟨by omega, h.retrieveAndRemove (by rw [mem_live]; omega)⟩

/-- The map `ObMap_Clear` leaves, apart from its record of outward calls: no entry, and both
hash maps zeroed. -/
def cleared (pm : ObMap) : ObMap :=
  { pm with hashMapValue := fun _ => 0, hashMapKey := fun _ => 0, c := 1 }

theorem clear_core (hc : 1 < pm.c) : pm.clear.core = pm.cleared.core := by
  unfold ObMap.clear obFreeAllObjects
  split_ifs <;> first | omega | rfl

theorem Inv.cleared (h : pm.Inv) : pm.cleared.Inv := by
  have hnone : ∀ i, i ∉ pm.cleared.live := fun i => by rw [mem_live]; show ¬(0 < i ∧ i < 1); omega
  have := h.c_le
  have := h.c_pos
  exact ⟨le_refl 1, show 1 ≤ pm.cHashGrowThreshold by omega,
    show 1 ≤ OB_MAP_TABLE_MAX_CAPACITY by decide, h.pow2, h.max_ge,
    h.threshold, h.small, h.store00, fun i hi => absurd hi (hnone i),
    fun i hi => absurd hi (hnone i),
    ⟨Valid.empty, fun i hi => absurd hi (hnone i), fun i hi => absurd hi (hnone i)⟩,
    fun _ => ⟨Valid.empty, fun i hi => absurd hi (hnone i), fun i hi => absurd hi (hnone i)⟩⟩

theorem Inv.clear (h : pm.Inv) : pm.clear.Inv ∧ pm.clear.c = 1 := by
  by_cases hc : 1 < pm.c
  · exact ⟨h.cleared.of_core (clear_core hc), congrArg ObMap.c (clear_core hc)⟩
  · have := h.c_pos
    have hclear : pm.clear = pm := by simp [ObMap.clear]; omega
    rw [hclear]; exact ⟨h, by omega⟩

end LeechCore.ObMap
