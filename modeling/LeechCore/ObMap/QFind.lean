import LeechCore.ObMap.Sorted

/-!
# What `_ObMap_QFind` reads

The indices `_ObMap_QFind` reads, listed as the code visits them: whatever the keys, all lie in
`1..c-1` and the answer depends on them alone; on ascending keys it is a linear scan's.
-/

namespace LeechCore.ObMap

set_option autoImplicit false

variable {pm : ObMap}

section Reads

variable (pm)

/-- The cursor of each round of the halving loop of `_ObMap_QFind`, where it reads `pe`. -/
def qFindHalveReads (cMap : Nat) (qwKey : UInt64) : Nat → Nat → Nat → List Nat
  | 0, _, _ => []
  | fuel + 1, i, dwStep =>
    if dwStep > 1 then
      i :: if (pm.entries i).k < qwKey then
        qFindHalveReads cMap qwKey fuel (if i + dwStep ≤ cMap then i + dwStep else i)
          (dwStep >>> 1)
      else if (pm.entries i).k > qwKey then
        qFindHalveReads cMap qwKey fuel (dwordSub i dwStep) (dwStep >>> 1)
      else []
    else []

/-- The cursors the stepping loop of `_ObMap_QFind` moves to from `i`, whose entry `pe` holds,
reading `pe` at each. -/
def qFindWalkReads (cMap : Nat) (qwKey : UInt64) : Nat → Nat → List Nat
  | 0, _ => []
  | fuel + 1, i =>
    if (pm.entries i).k < qwKey then
      if i = cMap then [] else
      (i + 1) :: if (pm.entries (i + 1)).k ≥ qwKey then []
        else qFindWalkReads cMap qwKey fuel (i + 1)
    else if (pm.entries i).k > qwKey then
      if i = 1 then [] else
      dwordSub i 1 :: if (pm.entries (dwordSub i 1)).k < qwKey then []
        else qFindWalkReads cMap qwKey fuel (dwordSub i 1)
    else []

/-- The indices `_ObMap_QFind` reads `pm->Directory` at, in order. -/
def qFindReads (qwKey : UInt64) : List Nat :=
  if pm.c ≤ 1 then [] else
  let i := qFindStart (pm.c - 1)
  pm.qFindHalveReads (pm.c - 1) qwKey 32 i (i >>> 1) ++
    match pm.qFindHalve (pm.c - 1) qwKey 32 i (i >>> 1) with
    | .inl _ => []
    | .inr i => i :: pm.qFindWalkReads (pm.c - 1) qwKey (pm.c - 1 + 1) i

end Reads

section Footprint

variable {pm' : ObMap} (cMap : Nat) (q : UInt64)

theorem qFindHalve_of_reads :
    ∀ fuel i dwStep,
      (∀ j ∈ pm.qFindHalveReads cMap q fuel i dwStep, pm'.entries j = pm.entries j) →
      pm'.qFindHalve cMap q fuel i dwStep = pm.qFindHalve cMap q fuel i dwStep
  | 0, _, _, _ => rfl
  | fuel + 1, i, dwStep, h => by
    unfold qFindHalveReads at h
    by_cases hd : dwStep > 1
    · rw [if_pos hd] at h
      have hrest := fun j hj => h j (List.mem_cons_of_mem _ hj)
      simp only [qFindHalve, if_pos hd, h i (List.mem_cons_self _ _)]
      split_ifs at hrest ⊢ <;> first | rfl | exact qFindHalve_of_reads fuel _ _ hrest
    · simp only [qFindHalve, if_neg hd]

theorem qFindWalk_of_reads :
    ∀ fuel i, pm'.entries i = pm.entries i →
      (∀ j ∈ pm.qFindWalkReads cMap q fuel i, pm'.entries j = pm.entries j) →
      pm'.qFindWalk cMap q fuel i = pm.qFindWalk cMap q fuel i
  | 0, _, _, _ => rfl
  | fuel + 1, i, hi, h => by
    unfold qFindWalkReads at h
    simp only [qFindWalk, hi]
    by_cases hlt : (pm.entries i).k < q
    · simp only [if_pos hlt] at h ⊢
      by_cases he : i = cMap
      · simp only [if_pos he]
      · simp only [if_neg he] at h ⊢
        rw [h (i + 1) (List.mem_cons_self _ _)]
        split_ifs at h ⊢
        · rfl
        · exact qFindWalk_of_reads fuel _ (h _ (List.mem_cons_self _ _))
            fun j hj => h j (List.mem_cons_of_mem _ hj)
    · simp only [if_neg hlt] at h ⊢
      by_cases hgt : (pm.entries i).k > q
      · simp only [if_pos hgt] at h ⊢
        by_cases h1 : i = 1
        · simp only [if_pos h1]
        · simp only [if_neg h1] at h ⊢
          rw [h (dwordSub i 1) (List.mem_cons_self _ _)]
          split_ifs at h ⊢
          · rfl
          · exact qFindWalk_of_reads fuel _ (h _ (List.mem_cons_self _ _))
              fun j hj => h j (List.mem_cons_of_mem _ hj)
      · simp only [if_neg hgt]

theorem qFind_of_reads {pm' : ObMap} (hc : pm'.c = pm.c) (q : UInt64)
    (h : ∀ j ∈ pm.qFindReads q, pm'.entries j = pm.entries j) : pm'.qFind q = pm.qFind q := by
  rw [qFind_eq_start, qFind_eq_start, hc]
  unfold qFindReads at h
  split_ifs at h ⊢
  · rfl
  · dsimp only at h
    rw [qFindHalve_of_reads _ q 32 _ _ fun j hj => h j (List.mem_append_left _ hj)]
    have hw := fun j hj => h j (List.mem_append_right _ hj)
    generalize pm.qFindHalve (pm.c - 1) q 32 (qFindStart (pm.c - 1))
      (qFindStart (pm.c - 1) >>> 1) = s at hw ⊢
    cases s with
    | inl i => rfl
    | inr i =>
      exact qFindWalk_of_reads _ q _ i (hw i (List.mem_cons_self _ _))
        fun j hj => hw j (List.mem_cons_of_mem _ hj)

end Footprint

section Range

variable {cMap : Nat} {q : UInt64}

theorem qFindHalveReads_range (hc32 : cMap < 2 ^ 32) :
    ∀ fuel i dwStep, 1 ≤ i → i ≤ cMap → 2 * dwStep ≤ i →
      ∀ j ∈ pm.qFindHalveReads cMap q fuel i dwStep, 1 ≤ j ∧ j ≤ cMap
  | 0, _, _, _, _, _, _, hj => absurd hj (List.not_mem_nil _)
  | fuel + 1, i, dwStep, h1, hi, hd, j, hj => by
    have hhalf : dwStep >>> 1 = dwStep / 2 := by rw [Nat.shiftRight_eq_div_pow, pow_one]
    by_cases hji : j = i
    · exact hji ▸ ⟨h1, hi⟩
    unfold qFindHalveReads at hj
    split_ifs at hj with hd1 hlt hup hgt <;>
      simp only [List.mem_cons, hji, false_or, List.not_mem_nil] at hj
    · exact qFindHalveReads_range hc32 fuel _ _ (by omega) hup (by omega) j hj
    · exact qFindHalveReads_range hc32 fuel _ _ h1 hi (by omega) j hj
    · have hsub : dwordSub i dwStep = i - dwStep := by unfold dwordSub; omega
      rw [hsub] at hj
      exact qFindHalveReads_range hc32 fuel _ _ (by omega) (by omega) (by omega) j hj

theorem qFindWalkReads_range (hc32 : cMap < 2 ^ 32) :
    ∀ fuel i, 1 ≤ i → i ≤ cMap →
      ∀ j ∈ pm.qFindWalkReads cMap q fuel i, 1 ≤ j ∧ j ≤ cMap
  | 0, _, _, _, _, hj => absurd hj (List.not_mem_nil _)
  | fuel + 1, i, h1, hi, j, hj => by
    have hsub : dwordSub i 1 = i - 1 := by unfold dwordSub; omega
    unfold qFindWalkReads at hj
    rw [hsub] at hj
    split_ifs at hj <;>
      simp only [List.mem_cons, List.mem_singleton, List.not_mem_nil, or_false] at hj
    all_goals first
      | exact ⟨by omega, by omega⟩
      | rcases hj with rfl | hj
        · exact ⟨by omega, by omega⟩
        · exact qFindWalkReads_range hc32 fuel _ (by omega) (by omega) j hj

end Range

theorem qFindReads_range (hc32 : pm.c ≤ 2 ^ 32) (q : UInt64) :
    ∀ j ∈ pm.qFindReads q, 1 ≤ j ∧ j ≤ pm.c - 1 := by
  intro j hj
  unfold qFindReads at hj
  split_ifs at hj with hc
  · exact absurd hj (List.not_mem_nil _)
  dsimp only at hj
  obtain ⟨h1, hle, hhalf⟩ := qFindStart_range (show 1 ≤ pm.c - 1 by omega)
  rcases List.mem_append.mp hj with hj | hj
  · exact qFindHalveReads_range (by omega) 32 _ _ h1 hle hhalf j hj
  · have hok : pm.HalveOk (pm.c - 1) q (pm.qFindHalve (pm.c - 1) q 32 (qFindStart (pm.c - 1))
        (qFindStart (pm.c - 1) >>> 1)) := qFindHalve_ok (by omega) 32 _ _ h1 hle hhalf
    generalize pm.qFindHalve (pm.c - 1) q 32 (qFindStart (pm.c - 1))
      (qFindStart (pm.c - 1) >>> 1) = s at hj hok
    cases s with
    | inl i => exact absurd hj (List.not_mem_nil _)
    | inr i =>
      rcases List.mem_cons.mp hj with rfl | hj
      · exact hok
      · exact qFindWalkReads_range (by omega) _ _ hok.1 hok.2 j hj

section Scan

variable {cMap : Nat} {q : UInt64}

/-- A linear scan of `1..cMap` for the first index whose key is at least `q`. -/
def lowerBoundScan (pm : ObMap) (cMap : Nat) (q : UInt64) : Option Nat :=
  (List.range' 1 cMap).find? fun i => q ≤ (pm.entries i).k

theorem isLowerBound_lowerBoundScan : pm.IsLowerBound cMap q (pm.lowerBoundScan cMap q) := by
  unfold lowerBoundScan
  cases h : (List.range' 1 cMap).find? fun i => q ≤ (pm.entries i).k with
  | none =>
    intro i h1 hi
    have := List.find?_eq_none.mp h i (List.mem_range'_1.mpr ⟨h1, by omega⟩)
    exact UInt64.not_le.mp (by simpa using this)
  | some j =>
    obtain ⟨hp, hmem, hbefore⟩ := List.find?_range'_eq_some.mp h
    rw [List.mem_range'_1] at hmem
    exact ⟨hmem.1, by omega, by simpa using hp,
      fun i h1 hij => UInt64.not_le.mp (by simpa using hbefore i h1 hij)⟩

theorem IsLowerBound.unique {r r' : Option Nat} (h : pm.IsLowerBound cMap q r)
    (h' : pm.IsLowerBound cMap q r') : r = r' :=
  match r, r', h, h' with
  | none, none, _, _ => rfl
  | none, some j, h, ⟨h1, hj, hle, _⟩ => absurd (h j h1 hj) (UInt64.not_lt.mpr hle)
  | some j, none, ⟨h1, hj, hle, _⟩, h' => absurd (h' j h1 hj) (UInt64.not_lt.mpr hle)
  | some j, some j', ⟨h1, _, hle, hlt⟩, ⟨h1', _, hle', hlt'⟩ => by
    rcases Nat.lt_trichotomy j j' with hjj | rfl | hjj
    · exact absurd (hlt' j h1 hjj) (UInt64.not_lt.mpr hle)
    · rfl
    · exact absurd (hlt j' h1' hjj) (UInt64.not_lt.mpr hle')

end Scan

/-- On ascending keys `_ObMap_QFind` answers as the linear scan for the least key at least `q`. -/
theorem qFind_eq_lowerBoundScan (pm : ObMap) (hs : pm.KeysAscending) (hc : 2 ≤ pm.c)
    (hcap : pm.c ≤ OB_MAP_TABLE_MAX_CAPACITY) (q : UInt64) :
    pm.qFind q = some (pm.lowerBoundScan (pm.c - 1) q) ∧
      pm.IsLowerBound (pm.c - 1) q (pm.lowerBoundScan (pm.c - 1) q) ∧
      (∀ j ∈ pm.qFindReads q, 1 ≤ j ∧ j ≤ pm.c - 1) ∧
      ∀ pm' : ObMap, pm'.c = pm.c → (∀ j ∈ pm.qFindReads q, pm'.entries j = pm.entries j) →
        pm'.qFind q = pm.qFind q := by
  have hc32 : pm.c ≤ 2 ^ 32 := le_trans hcap (by decide)
  obtain ⟨r, hq, hr⟩ := qFind_spec hs hc hc32 q
  exact ⟨by rw [hq, hr.unique isLowerBound_lowerBoundScan], isLowerBound_lowerBoundScan,
    qFindReads_range hc32 q, fun _ hc' h => qFind_of_reads hc' q h⟩

/-- The map of the keys `1..n` in order, each the value of its own key. -/
def ascendingKeys (n : Nat) : ObMap :=
  { ObMap.empty ⟨false, false, false⟩ with
    c := n + 1, entries := fun i => ⟨UInt64.ofNat i, UInt64.ofNat i⟩ }

theorem ascendingKeys_keysAscending {n : Nat} (hn : n < UInt64.size) :
    (ascendingKeys n).KeysAscending := by
  intro i j hi hij hj
  change j ≤ n + 1 - 1 at hj
  rw [uint64_lt_iff, ascendingKeys, UInt64.toNat_ofNat_of_lt (by omega),
    UInt64.toNat_ofNat_of_lt (by omega)]
  exact hij

theorem qFind_eq_lowerBoundScan_sixteen :
    (ascendingKeys 16).KeysAscending ∧ 2 ≤ (ascendingKeys 16).c ∧
      (ascendingKeys 16).c ≤ OB_MAP_TABLE_MAX_CAPACITY ∧
      (ascendingKeys 16).qFind 12 =
        some ((ascendingKeys 16).lowerBoundScan ((ascendingKeys 16).c - 1) 12) ∧
      (ascendingKeys 16).IsLowerBound ((ascendingKeys 16).c - 1) 12
        ((ascendingKeys 16).lowerBoundScan ((ascendingKeys 16).c - 1) 12) ∧
      (∀ j ∈ (ascendingKeys 16).qFindReads 12, 1 ≤ j ∧ j ≤ (ascendingKeys 16).c - 1) ∧
      ∀ pm' : ObMap, pm'.c = (ascendingKeys 16).c →
        (∀ j ∈ (ascendingKeys 16).qFindReads 12, pm'.entries j = (ascendingKeys 16).entries j) →
          pm'.qFind 12 = (ascendingKeys 16).qFind 12 :=
  ⟨ascendingKeys_keysAscending (by decide), by decide, by decide,
    qFind_eq_lowerBoundScan (ascendingKeys 16) (ascendingKeys_keysAscending (by decide))
      (by decide) (by decide) 12⟩

/- The search for `12` among the keys `1..16`: the halving loop reads `7` and steps up to `10`,
where it stops; the stepping loop walks up to the first key at least `12`. -/
example : (ascendingKeys 16).qFindReads 12 = [7, 10, 11, 12] := by decide

example : (ascendingKeys 16).qFind 12 = some (some 12) := by decide

/-- Whatever the keys, `_ObMap_QFind` returns, reads `1..c-1` only, and depends on those entries
alone. -/
theorem qFind_reads_within_any_keys (pm : ObMap) (hcap : pm.c ≤ OB_MAP_TABLE_MAX_CAPACITY)
    (q : UInt64) :
    (∃ r, pm.qFind q = some r) ∧ (∀ j ∈ pm.qFindReads q, 1 ≤ j ∧ j ≤ pm.c - 1) ∧
      ∀ pm' : ObMap, pm'.c = pm.c → (∀ j ∈ pm.qFindReads q, pm'.entries j = pm.entries j) →
        pm'.qFind q = pm.qFind q :=
  have hc32 : pm.c ≤ 2 ^ 32 := le_trans hcap (by decide)
  ⟨qFind_some hc32 q, qFindReads_range hc32 q, fun _ hc h => qFind_of_reads hc q h⟩

/-- The keys `10, 9, 8`, out of order. -/
def descendingKeys : ObMap :=
  { ObMap.empty ⟨false, false, false⟩ with
    c := 4, entries := fun i => ⟨UInt64.ofNat (11 - i), UInt64.ofNat i⟩ }

theorem qFind_reads_within_any_keys_descending :
    descendingKeys.c ≤ OB_MAP_TABLE_MAX_CAPACITY ∧ (∃ r, descendingKeys.qFind 9 = some r) ∧
      (∀ j ∈ descendingKeys.qFindReads 9, 1 ≤ j ∧ j ≤ descendingKeys.c - 1) ∧
      ∀ pm' : ObMap, pm'.c = descendingKeys.c →
        (∀ j ∈ descendingKeys.qFindReads 9, pm'.entries j = descendingKeys.entries j) →
          pm'.qFind 9 = descendingKeys.qFind 9 :=
  ⟨by decide, qFind_reads_within_any_keys descendingKeys (by decide) 9⟩

end LeechCore.ObMap
