import LeechCore.ObMap.Iterate

/-!
# Lookups in a map sorted by key

On ascending keys `_ObMap_QFind` finds the least index whose key is at least the one asked for,
and `ObMap_GetNextByKeySorted` the least whose key exceeds it; a map holding the key `0` cannot
be walked past its first entry.
-/

namespace LeechCore.ObMap

set_option autoImplicit false

open Function ListModel

variable {pm : ObMap}

theorem uint64_lt_iff {a b : UInt64} : a < b ↔ a.toNat < b.toNat := Iff.rfl

theorem uint64_le_iff {a b : UInt64} : a ≤ b ↔ a.toNat ≤ b.toNat := Iff.rfl

theorem uint64_lt_of_le_of_lt {a b c : UInt64} (hab : a ≤ b) (hbc : b < c) : a < c := by
  rw [uint64_le_iff] at hab; rw [uint64_lt_iff] at hbc ⊢; omega

theorem uint64_le_of_lt {a b : UInt64} (h : a < b) : a ≤ b := by
  rw [uint64_lt_iff] at h; rw [uint64_le_iff]; omega

theorem uint64_eq_of_not_lt_of_not_gt {a b : UInt64} (h1 : ¬a < b) (h2 : ¬a > b) : a = b := by
  apply UInt64.toNat.inj; rw [uint64_lt_iff] at h1; rw [gt_iff_lt, uint64_lt_iff] at h2; omega

/-- The keys at `1..cMap` ascend strictly. -/
def AscendingUpTo (pm : ObMap) (cMap : Nat) : Prop :=
  ∀ i j, 1 ≤ i → i < j → j ≤ cMap → (pm.entries i).k < (pm.entries j).k

/-- The keys at the live indices ascend strictly, as `ObMap_SortEntryIndexByKey` leaves them in
a keyed map. -/
def KeysAscending (pm : ObMap) : Prop := pm.AscendingUpTo (pm.c - 1)

theorem Filled.keysAscending {flags : Flags} {n : Nat} (hs : Filled flags n pm)
    (hn : n < OB_MAP_TABLE_MAX_CAPACITY) : pm.KeysAscending := fun i j hi hij hj => by
  rw [OB_MAP_TABLE_MAX_CAPACITY_eq] at hn
  have hc := hs.c
  rw [hs.entries i (by rw [mem_live]; omega), hs.entries j (by rw [mem_live]; omega), uint64_lt_iff,
    UInt64.toNat_ofNat_of_lt (show _ < 2 ^ 64 by omega),
    UInt64.toNat_ofNat_of_lt (show _ < 2 ^ 64 by omega)]
  omega

/-- The least index of `1..cMap` whose key is at least `q`, or (`none`) no such index. -/
def IsLowerBound (pm : ObMap) (cMap : Nat) (q : UInt64) : Option Nat → Prop
  | some j => 1 ≤ j ∧ j ≤ cMap ∧ q ≤ (pm.entries j).k ∧ ∀ i, 1 ≤ i → i < j → (pm.entries i).k < q
  | none => ∀ i, 1 ≤ i → i ≤ cMap → (pm.entries i).k < q

section QFind

variable {cMap : Nat} {q : UInt64} (hs : pm.AscendingUpTo cMap)
include hs

theorem AscendingUpTo.le {i j : Nat} (hi : 1 ≤ i) (hij : i ≤ j) (hj : j ≤ cMap) :
    (pm.entries i).k ≤ (pm.entries j).k := by
  rcases Nat.lt_or_eq_of_le hij with hlt | rfl
  · exact uint64_le_of_lt (hs i j hi hlt hj)
  · exact UInt64.le_refl _

theorem isLowerBound_of_eq {j : Nat} (hj : 1 ≤ j) (hjc : j ≤ cMap) (he : (pm.entries j).k = q) :
    pm.IsLowerBound cMap q (some j) :=
  ⟨hj, hjc, he ▸ UInt64.le_refl _, fun i hi hij => he ▸ hs i j hi hij hjc⟩

theorem qFindWalk_up :
    ∀ fuel i, 1 ≤ i → i ≤ cMap → cMap - i < fuel → (pm.entries i).k < q →
      ∃ r, pm.qFindWalk cMap q fuel i = some r ∧ pm.IsLowerBound cMap q r
  | 0, _, _, _, hf, _ => absurd hf (Nat.not_lt_zero _)
  | fuel + 1, i, h1, hi, hf, hlt => by
    have below : ∀ i', 1 ≤ i' → i' ≤ i → (pm.entries i').k < q := fun i' h1' hi' =>
      uint64_lt_of_le_of_lt (hs.le h1' hi' hi) hlt
    simp only [qFindWalk, if_pos hlt]
    by_cases he : i = cMap
    · exact ⟨none, by rw [if_pos he], fun i' h1' hi' => below i' h1' (he ▸ hi')⟩
    rw [if_neg he]
    by_cases hge : (pm.entries (i + 1)).k ≥ q
    · exact ⟨some (i + 1), by rw [if_pos hge], by omega, by omega, hge,
        fun i' h1' hi' => below i' h1' (by omega)⟩
    · rw [if_neg hge]
      exact qFindWalk_up fuel (i + 1) (by omega) (by omega) (by omega) (UInt64.not_le.mp hge)

theorem qFindWalk_down (hc32 : cMap < 2 ^ 32) :
    ∀ fuel i, 1 ≤ i → i ≤ cMap → i ≤ fuel → q ≤ (pm.entries i).k →
      ∃ r, pm.qFindWalk cMap q fuel i = some r ∧ pm.IsLowerBound cMap q r
  | 0, _, h1, _, hf, _ => absurd hf (by omega)
  | fuel + 1, i, h1, hi, hf, hge => by
    have hsub : dwordSub i 1 = i - 1 := by unfold dwordSub; omega
    simp only [qFindWalk, if_neg (UInt64.not_lt.mpr hge), hsub]
    by_cases hgt : (pm.entries i).k > q
    · rw [if_pos hgt]
      by_cases h1' : i = 1
      · exact ⟨some 1, by rw [if_pos h1'], le_refl 1, by omega, h1' ▸ hge,
          fun i' hi' hlt => absurd hlt (by omega)⟩
      rw [if_neg h1']
      by_cases hlt : (pm.entries (i - 1)).k < q
      · refine ⟨some i, by rw [if_pos hlt, Nat.sub_add_cancel h1], h1, hi, hge,
          fun i' hi' hlt' => uint64_lt_of_le_of_lt (hs.le hi' (by omega) (by omega)) hlt⟩
      · rw [if_neg hlt]
        exact qFindWalk_down hc32 fuel (i - 1) (by omega) (by omega) (by omega)
          (UInt64.not_lt.mp hlt)
    · have he : (pm.entries i).k = q :=
        uint64_eq_of_not_lt_of_not_gt (UInt64.not_lt.mpr hge) hgt
      exact ⟨some i, by rw [if_neg hgt], isLowerBound_of_eq hs h1 hi he⟩

/-- What the halving loop of `_ObMap_QFind` may end with: an index within `1..cMap` whose key
is `q`, or an index within `1..cMap` to step from. -/
def HalveOk (pm : ObMap) (cMap : Nat) (q : UInt64) : Nat ⊕ Nat → Prop
  | .inl j => 1 ≤ j ∧ j ≤ cMap ∧ (pm.entries j).k = q
  | .inr j => 1 ≤ j ∧ j ≤ cMap

omit hs in
theorem qFindHalve_ok (hc32 : cMap < 2 ^ 32) :
    ∀ fuel i dwStep, 1 ≤ i → i ≤ cMap → 2 * dwStep ≤ i →
      pm.HalveOk cMap q (pm.qFindHalve cMap q fuel i dwStep)
  | 0, i, _, h1, hi, _ => ⟨h1, hi⟩
  | fuel + 1, i, dwStep, h1, hi, hd => by
    have hhalf : dwStep >>> 1 = dwStep / 2 := by rw [Nat.shiftRight_eq_div_pow, pow_one]
    simp only [qFindHalve]
    by_cases hd1 : dwStep > 1
    · rw [if_pos hd1]
      by_cases hlt : (pm.entries i).k < q
      · rw [if_pos hlt]
        by_cases hup : i + dwStep ≤ cMap
        · rw [if_pos hup]; exact qFindHalve_ok hc32 fuel (i + dwStep) _ (by omega) hup (by omega)
        · rw [if_neg hup]; exact qFindHalve_ok hc32 fuel i _ h1 hi (by omega)
      · rw [if_neg hlt]
        by_cases hgt : (pm.entries i).k > q
        · have hsub : dwordSub i dwStep = i - dwStep := by unfold dwordSub; omega
          rw [if_pos hgt, hsub]
          exact qFindHalve_ok hc32 fuel (i - dwStep) _ (by omega) (by omega) (by omega)
        · rw [if_neg hgt]; exact ⟨h1, hi, uint64_eq_of_not_lt_of_not_gt hlt hgt⟩
    · rw [if_neg hd1]; exact ⟨h1, hi⟩

end QFind

theorem qFindWalk_some_up {cMap : Nat} (q : UInt64) :
    ∀ fuel i, i ≤ cMap → cMap - i < fuel → (pm.entries i).k < q →
      ∃ r, pm.qFindWalk cMap q fuel i = some r
  | 0, _, _, hf, _ => absurd hf (Nat.not_lt_zero _)
  | fuel + 1, i, hi, hf, hlt => by
    simp only [qFindWalk, if_pos hlt]
    split_ifs with he hge
    · exact ⟨_, rfl⟩
    · exact ⟨_, rfl⟩
    · exact qFindWalk_some_up q fuel (i + 1) (by omega) (by omega) (UInt64.not_le.mp hge)

theorem qFindWalk_some_down {cMap : Nat} (q : UInt64) (hc32 : cMap < 2 ^ 32) :
    ∀ fuel i, 1 ≤ i → i ≤ cMap → i ≤ fuel → ¬ (pm.entries i).k < q →
      ∃ r, pm.qFindWalk cMap q fuel i = some r
  | 0, _, h1, _, hf, _ => absurd hf (by omega)
  | fuel + 1, i, h1, hi, hf, hge => by
    have hsub : dwordSub i 1 = i - 1 := by unfold dwordSub; omega
    simp only [qFindWalk, if_neg hge, hsub]
    split_ifs with hgt h1' hlt
    · exact ⟨_, rfl⟩
    · exact ⟨_, rfl⟩
    · exact qFindWalk_some_down q hc32 fuel (i - 1) (by omega) (by omega) (by omega) hlt
    · exact ⟨_, rfl⟩

/-- The cursor `_ObMap_QFind` starts its halving loop at, for `cMap = c - 1`. -/
def qFindStart (cMap : Nat) : Nat :=
  let i := qFindBits (cMap - 1) 32 1
  let i := min (1 <<< (i - 1)) ((cMap - 1) >>> 1)
  if i = 0 then 1 else i

theorem qFind_eq_start (q : UInt64) :
    pm.qFind q = if pm.c ≤ 1 then some none else
      match pm.qFindHalve (pm.c - 1) q 32 (qFindStart (pm.c - 1))
          (qFindStart (pm.c - 1) >>> 1) with
      | .inl i => some (some i)
      | .inr i => pm.qFindWalk (pm.c - 1) q (pm.c - 1 + 1) i := rfl

theorem qFindStart_range {cMap : Nat} (hc : 1 ≤ cMap) :
    1 ≤ qFindStart cMap ∧ qFindStart cMap ≤ cMap ∧
      2 * (qFindStart cMap >>> 1) ≤ qFindStart cMap := by
  have hle : min (1 <<< (qFindBits (cMap - 1) 32 1 - 1)) ((cMap - 1) >>> 1) ≤ cMap - 1 :=
    (min_le_right _ _).trans (by rw [Nat.shiftRight_eq_div_pow, pow_one]; omega)
  simp only [qFindStart]
  generalize min (1 <<< (qFindBits (cMap - 1) 32 1 - 1)) ((cMap - 1) >>> 1) = i at hle ⊢
  rw [Nat.shiftRight_eq_div_pow, pow_one]
  split_ifs <;> omega

theorem qFind_eq_halve (hc : 2 ≤ pm.c) (hc32 : pm.c ≤ 2 ^ 32) (q : UInt64) :
    ∃ s, pm.HalveOk (pm.c - 1) q s ∧
      pm.qFind q = s.elim (fun j => some (some j)) (pm.qFindWalk (pm.c - 1) q (pm.c - 1 + 1)) := by
  obtain ⟨h1, hle, hhalf⟩ := qFindStart_range (show 1 ≤ pm.c - 1 by omega)
  refine ⟨_, qFindHalve_ok (by omega) 32 _ _ h1 hle hhalf, ?_⟩
  rw [qFind_eq_start, if_neg (show ¬pm.c ≤ 1 by omega)]
  split <;> next _ j hj => rw [hj]; rfl

theorem qFind_some (hc32 : pm.c ≤ 2 ^ 32) (q : UInt64) : ∃ r, pm.qFind q = some r := by
  by_cases hc : 2 ≤ pm.c
  · obtain ⟨s, hok, heq⟩ := qFind_eq_halve hc hc32 q
    rw [heq]
    cases s with
    | inl j => exact ⟨_, rfl⟩
    | inr j =>
      obtain ⟨hj1, hj2⟩ := hok
      by_cases hlt : (pm.entries j).k < q
      · exact qFindWalk_some_up q _ j hj2 (by omega) hlt
      · exact qFindWalk_some_down q (by omega) _ j hj1 hj2 (by omega) hlt
  · exact ⟨none, by simp [qFind, show pm.c ≤ 1 by omega]⟩

theorem qFind_spec (hs : pm.KeysAscending) (hc : 2 ≤ pm.c) (hc32 : pm.c ≤ 2 ^ 32) (q : UInt64) :
    ∃ r, pm.qFind q = some r ∧ pm.IsLowerBound (pm.c - 1) q r := by
  obtain ⟨s, hok, heq⟩ := qFind_eq_halve hc hc32 q
  rw [heq]
  cases s with
  | inl j => exact ⟨some j, rfl, isLowerBound_of_eq hs hok.1 hok.2.1 hok.2.2⟩
  | inr j =>
    obtain ⟨hj1, hj2⟩ := hok
    by_cases hlt : (pm.entries j).k < q
    · exact qFindWalk_up hs _ j hj1 hj2 (by omega) hlt
    · exact qFindWalk_down hs (by omega) _ j hj1 hj2 (by omega) (UInt64.not_lt.mp hlt)

section GetNextByKeySorted

theorem qFindWalk_congr {pm' : ObMap} (he : pm'.entries = pm.entries) (cMap : Nat) (q : UInt64) :
    ∀ fuel i, pm'.qFindWalk cMap q fuel i = pm.qFindWalk cMap q fuel i
  | 0, _ => rfl
  | fuel + 1, i => by simp only [qFindWalk, he, qFindWalk_congr he cMap q fuel]

theorem qFindHalve_congr {pm' : ObMap} (he : pm'.entries = pm.entries) (cMap : Nat) (q : UInt64) :
    ∀ fuel i dwStep, pm'.qFindHalve cMap q fuel i dwStep = pm.qFindHalve cMap q fuel i dwStep
  | 0, _, _ => rfl
  | fuel + 1, i, dwStep => by simp only [qFindHalve, he, qFindHalve_congr he cMap q fuel]

theorem qFind_congr {pm' : ObMap} (hc : pm'.c = pm.c) (he : pm'.entries = pm.entries) :
    pm'.qFind = pm.qFind := by
  funext q
  simp only [qFind, hc, qFindHalve_congr he, qFindWalk_congr he]

@[simp] theorem qFind_ite_emit (b : Bool) (e : Effect) :
    (if b then pm.emit e else pm).qFind = pm.qFind := by
  cases b
  · rfl
  · exact qFind_congr rfl rfl

theorem getByEntryIndex_ite_emit_snd (b : Bool) (e : Effect) (i : Nat) :
    ((if b then pm.emit e else pm).getByEntryIndex i).2 = pm.getFromEntryIndex true i := by
  cases b <;> rfl

/-- The least live index whose key exceeds `K`, or (`none`) every key is at most `K`. -/
def LeastGreater (pm : ObMap) (K : UInt64) : Option Nat → Prop
  | some j => j ∈ pm.live ∧ K < (pm.entries j).k ∧ ∀ i ∈ pm.live, i < j → (pm.entries i).k ≤ K
  | none => ∀ i ∈ pm.live, (pm.entries i).k ≤ K

/-- The value `ObMap_GetNextByKeySorted` returns for an answer: the value at the index, or `NULL`. -/
def valueAt (pm : ObMap) : Option Nat → UInt64
  | some j => (pm.entries j).v
  | none => 0

theorem leastGreater_of_mem (hs : pm.KeysAscending) {i : Nat} (hi : i ∈ pm.live) :
    ∃ o, pm.LeastGreater (pm.entries i).k o ∧ pm.valueAt o = pm.getFromEntryIndex true (i + 1) := by
  rw [mem_live] at hi
  by_cases hi1 : i + 1 < pm.c
  · refine ⟨some (i + 1), ⟨by rw [mem_live]; omega, hs i (i + 1) hi.1 (by omega) (by omega),
      fun i' hi' hlt => AscendingUpTo.le hs (mem_live.mp hi').1 (by omega) (by omega)⟩, ?_⟩
    rw [getFromEntryIndex_of_live true (by omega) hi1]; rfl
  · refine ⟨none, fun i' hi' => AscendingUpTo.le hs (mem_live.mp hi').1
      (by rw [mem_live] at hi'; omega) (by omega), ?_⟩
    rw [show i + 1 = pm.c by omega]
    simp [valueAt, getFromEntryIndex]

theorem leastGreater_of_lowerBound {K : UInt64} (habs : ∀ i ∈ pm.live, (pm.entries i).k ≠ K) {o : Option Nat}
    (hlb : pm.IsLowerBound (pm.c - 1) K o) : pm.LeastGreater K o := by
  cases o with
  | some j =>
    obtain ⟨hj1, hj2, hle, hlt⟩ := hlb
    have hj : j ∈ pm.live := by rw [mem_live]; omega
    refine ⟨hj, ?_, fun i hi hij => uint64_le_of_lt (hlt i (mem_live.mp hi).1 hij)⟩
    rw [uint64_lt_iff]; rw [uint64_le_iff] at hle
    have := mt UInt64.toNat.inj (habs j hj)
    omega
  | none =>
    exact fun i hi => uint64_le_of_lt (hlb i (mem_live.mp hi).1 (by rw [mem_live] at hi; omega))

/-- `ObMap_GetNextByKeySorted` with a key `K ≠ 0` on a keyed map whose keys ascend returns the
value at the least index whose key exceeds `K`, and `NULL` when no key does: by the index after
`K` when the key hash map finds `K`, and by `_ObMap_QFind` when it does not. -/
theorem getNextByKeySorted_least_greater (pm : ObMap) (h : pm.Inv) (hk : pm.fKey = true)
    (hs : pm.KeysAscending) (K : UInt64) (hK : K ≠ 0) (pvObject : UInt64) :
    ∃ r, pm.getNextByKeySorted K pvObject = some r ∧ r.1.core = pm.core ∧
      ∃ o, pm.LeastGreater K o ∧ r.2 = pm.valueAt o := by
  obtain ⟨res, hres, hiff⟩ := h.lookup_key hk K
  have hmax := h.c_le_max
  rw [OB_MAP_TABLE_MAX_CAPACITY_eq] at hmax
  cases res with
  | some i =>
    obtain ⟨hi, hki⟩ := (hiff i).mp rfl
    obtain ⟨o, ho, hv⟩ := leastGreater_of_mem hs hi
    refine ⟨(if pm.fObjectsOb then pm.emit (.decref pvObject) else pm).getByEntryIndex (i + 1),
      by simp only [getNextByKeySorted, if_neg hK, getEntryIndexFromKeyOrValue_ite_emit, hres,
        Option.map_some'], (core_getByEntryIndex _).trans (core_ite_emit _ _), o, hki ▸ ho, ?_⟩
    rw [getByEntryIndex_ite_emit_snd, hv]
  | none =>
    have habs : ∀ i ∈ pm.live, (pm.entries i).k ≠ K := fun i hi he =>
      absurd ((hiff i).mpr ⟨hi, he⟩) (by simp)
    obtain ⟨o, hq, hlb⟩ : ∃ o, pm.qFind K = some o ∧ pm.IsLowerBound (pm.c - 1) K o := by
      by_cases hc : 2 ≤ pm.c
      · exact qFind_spec hs hc (by omega) K
      · exact ⟨none, by simp [qFind, show pm.c ≤ 1 by omega],
          fun i hi1 hi => absurd hi (by omega)⟩
    have ho := leastGreater_of_lowerBound habs hlb
    cases o with
    | some j =>
      refine ⟨(if pm.fObjectsOb then pm.emit (.decref pvObject) else pm).getByEntryIndex j,
        by simp only [getNextByKeySorted, if_neg hK, getEntryIndexFromKeyOrValue_ite_emit, hres,
          qFind_ite_emit, hq, Option.map_some'],
        (core_getByEntryIndex _).trans (core_ite_emit _ _), some j, ho, ?_⟩
      rw [getByEntryIndex_ite_emit_snd, getFromEntryIndex_of_live true (mem_live.mp ho.1).1
        (mem_live.mp ho.1).2]
      rfl
    | none =>
      exact ⟨(if pm.fObjectsOb then pm.emit (.decref pvObject) else pm, 0),
        by simp only [getNextByKeySorted, if_neg hK, getEntryIndexFromKeyOrValue_ite_emit, hres,
          qFind_ite_emit, hq, Option.map_some'], core_ite_emit _ _, none, ho, rfl⟩

theorem getNextByKeySorted_least_greater_between :
    (filled ⟨false, false, false⟩ 3).Inv ∧ (filled ⟨false, false, false⟩ 3).fKey = true ∧
      (filled ⟨false, false, false⟩ 3).KeysAscending ∧ (3 : UInt64) ≠ 0 ∧
      ∃ r, (filled ⟨false, false, false⟩ 3).getNextByKeySorted 3 0 = some r ∧ r.2 = 2 := by
  have hs := filled_spec ⟨false, false, false⟩ rfl 3 (by decide)
  generalize filled ⟨false, false, false⟩ 3 = pm at hs ⊢
  have h := hs.reachable.inv
  have ha := hs.keysAscending (by decide)
  obtain ⟨r, hr, -, o, ho, hv⟩ := getNextByKeySorted_least_greater pm h hs.fKey ha 3 (by decide) 0
  have hkey : ∀ i ∈ pm.live, (pm.entries i).k.toNat = 2 * i := fun i hi => by
    rw [hs.entries i hi]; rw [mem_live, hs.c] at hi
    exact UInt64.toNat_ofNat_of_lt (show _ < 2 ^ 64 by omega)
  have h2 : 2 ∈ pm.live := by rw [mem_live, hs.c]; omega
  have h3 : (3 : UInt64).toNat = 3 := rfl
  obtain rfl : o = some 2 := by
    cases o with
    | none => exact absurd (ho 2 h2) (by rw [uint64_le_iff, hkey 2 h2, h3]; omega)
    | some j =>
      obtain ⟨hj, hlt, hle⟩ := ho
      rw [uint64_lt_iff, hkey j hj, h3] at hlt
      have hj3 := (mem_live.mp hj).2
      rw [hs.c] at hj3
      rcases (show j = 2 ∨ j = 3 by omega) with rfl | rfl
      · rfl
      · exact absurd (hle 2 h2 (by omega)) (by rw [uint64_le_iff, hkey 2 h2, h3]; omega)
  refine ⟨h, hs.fKey, ha, by decide, r, hr, ?_⟩
  rw [hv, valueAt, hs.entries 2 h2]
  rfl

end GetNextByKeySorted

section SortedIteration

/-- One call of an iteration over a map sorted by key, after the value `prev`:
`ObMap_GetNextByKeySorted` with the key `ObMap_GetKey` gives for `prev` (`0` for `NULL`). -/
def getNextSortedStep (pm : ObMap) (prev : UInt64) : Option (ObMap × UInt64) :=
  (pm.getKey prev).bind fun k => pm.getNextByKeySorted k prev

/-- A caller's iteration over a map sorted by key, from `prev`, for at most `fuel` calls or until
`NULL`. -/
def iterateSorted : Nat → ObMap → UInt64 → Option (List UInt64)
  | 0, _, _ => some []
  | fuel + 1, pm, prev => (getNextSortedStep pm prev).bind fun r =>
    if r.2 = 0 then some [] else (iterateSorted fuel r.1 r.2).map (r.2 :: ·)

theorem getKey_zero (h : pm.Inv) : pm.getKey 0 = some 0 := by
  rw [h.getKey_abs, Model.getKey, Model.indexOfValue_zero h.zero_not_mem_values]; rfl

theorem getKey_live (h : pm.Inv) {j : Nat} (hj : j ∈ pm.live) :
    pm.getKey (pm.entries j).v = some (pm.entries j).k := by
  obtain ⟨res, hres, hiff⟩ := h.lookup_value (pm.entries j).v
  rw [(hiff j).mpr ⟨hj, rfl⟩] at hres
  simp [getKey, hres, getFromIndex_eq_some (mem_live.mp hj).1 (mem_live.mp hj).2]

theorem getNextByKeySorted_live (h : pm.Inv) (hk : pm.fKey = true) {j : Nat} (hj : j ∈ pm.live)
    (hk0 : (pm.entries j).k ≠ 0) (prev : UInt64) :
    ∃ r, pm.getNextByKeySorted (pm.entries j).k prev = some r ∧ r.1.core = pm.core ∧
      r.2 = pm.getFromEntryIndex true (j + 1) := by
  obtain ⟨res, hres, hiff⟩ := h.lookup_key hk (pm.entries j).k
  rw [(hiff j).mpr ⟨hj, rfl⟩] at hres
  exact ⟨(if pm.fObjectsOb then pm.emit (.decref prev) else pm).getByEntryIndex (j + 1),
    by simp only [getNextByKeySorted, if_neg hk0, getEntryIndexFromKeyOrValue_ite_emit, hres,
      Option.map_some'], (core_getByEntryIndex _).trans (core_ite_emit _ _),
    getByEntryIndex_ite_emit_snd _ _ _⟩

theorem getNextByKeySorted_zero (prev : UInt64) :
    ∃ r, pm.getNextByKeySorted 0 prev = some r ∧ r.1.core = pm.core ∧
      r.2 = pm.getFromEntryIndex true 1 :=
  ⟨(if pm.fObjectsOb then pm.emit (.decref prev) else pm).getByEntryIndex 1,
    by simp only [getNextByKeySorted, eq_self_iff_true, if_true, Option.map_some'],
    (core_getByEntryIndex _).trans (core_ite_emit _ _), getByEntryIndex_ite_emit_snd _ _ _⟩

/-- Where a sorted iteration stands: at the start, or after the value at the live index `j`. -/
def SortedPos (pm : ObMap) (j : Nat) (prev : UInt64) : Prop :=
  (j = 0 ∧ prev = 0) ∨ (j ∈ pm.live ∧ prev = (pm.entries j).v)

theorem Inv.getNextSortedStep_pos (h : pm.Inv) (hk : pm.fKey = true)
    (h0 : ∀ i ∈ pm.live, (pm.entries i).k ≠ 0) {j : Nat} {prev : UInt64} (hp : pm.SortedPos j prev) :
    ∃ r, getNextSortedStep pm prev = some r ∧ r.1.core = pm.core ∧
      r.2 = pm.getFromEntryIndex true (j + 1) := by
  rcases hp with ⟨rfl, rfl⟩ | ⟨hj, rfl⟩
  · obtain ⟨r, hr, hc, hv⟩ := @getNextByKeySorted_zero pm 0
    exact ⟨r, by simp [getNextSortedStep, getKey_zero h, hr], hc, hv⟩
  · obtain ⟨r, hr, hc, hv⟩ := getNextByKeySorted_live h hk hj (h0 j hj) (pm.entries j).v
    exact ⟨r, by simp [getNextSortedStep, getKey_live h hj, hr], hc, hv⟩

theorem Inv.iterateSorted_from (h : pm.Inv) (hk : pm.fKey = true)
    (h0 : ∀ i ∈ pm.live, (pm.entries i).k ≠ 0) :
    ∀ fuel (pm' : ObMap) (j : Nat) (prev : UInt64), pm'.core = pm.core → pm.SortedPos j prev →
      pm.c - 1 - j < fuel → iterateSorted fuel pm' prev = some ((abs pm).values.drop j)
  | 0, _, _, _, _, _, hf => absurd hf (Nat.not_lt_zero _)
  | fuel + 1, pm', j, prev, he, hp, hf => by
    have h' := h.of_core he
    have hlive : pm'.live = pm.live := by
      have := congrArg (fun q : ObMap => q.c) he
      simp only [ObMap.live]; exact congrArg _ this
    have hent : pm'.entries = pm.entries := by
      have := congrArg (fun q : ObMap => q.entries) he; exact this
    have hp' : pm'.SortedPos j prev := by rw [SortedPos, hlive, hent]; exact hp
    have hk' : pm'.fKey = true := by
      have := congrArg (fun q : ObMap => q.fKey) he; exact this.trans hk
    obtain ⟨r, hr, hc, hv⟩ := h'.getNextSortedStep_pos hk' (by rw [hlive, hent]; exact h0) hp'
    rw [getFromEntryIndex_of_core he] at hv
    have hj : j ≤ pm.c - 1 := by
      rcases hp with ⟨rfl, -⟩ | ⟨hj, -⟩
      · omega
      · rw [mem_live] at hj; omega
    by_cases hj1 : j + 1 < pm.c
    · have hlive1 : j + 1 ∈ pm.live := by rw [mem_live]; omega
      rw [getFromEntryIndex_of_live true (by omega) hj1, if_pos rfl] at hv
      have hv0 := h.value_ne_zero (j + 1) hlive1
      have hdrop : (abs pm).values.drop j = r.2 :: (abs pm).values.drop (j + 1) := by
        rw [Model.values, abs_pairs, List.drop_eq_getElem_cons (by simp; omega), List.getElem_map,
          getElem_liveEntries, hv]
      rw [hdrop]
      simp only [iterateSorted, hr, Option.some_bind, hv, hv0, if_false]
      rw [Inv.iterateSorted_from h hk h0 fuel r.1 (j + 1) _ (hc.trans he) (.inr ⟨hlive1, rfl⟩)
        (by omega)]
      rfl
    · rw [show pm.getFromEntryIndex true (j + 1) = 0 by
        simp [getFromEntryIndex, getFromIndex_eq_none (.inr (show pm.c ≤ j + 1 by omega))]] at hv
      have hdrop : (abs pm).values.drop j = [] :=
        List.drop_eq_nil_of_le (by simp [Model.values]; omega)
      simp [iterateSorted, hr, hv, hdrop]

/-- With non-zero keys, the iteration `ObMap_GetNextByKeySorted(pm, 0, NULL)`, then with the key
of each value returned, returns every value once, in index order (ascending key order once the
keys ascend), and then `NULL`. -/
theorem sorted_iteration_visits_all (pm : ObMap) (h : pm.Inv) (hk : pm.fKey = true)
    (h0 : ∀ i ∈ pm.live, (pm.entries i).k ≠ 0) (fuel : Nat) (hfuel : pm.size < fuel) :
    iterateSorted fuel pm 0 = some (abs pm).values := by
  simpa using h.iterateSorted_from hk h0 fuel pm 0 0 rfl (.inl ⟨rfl, rfl⟩)
    (by simp [ObMap.size] at hfuel; omega)

theorem sorted_iteration_visits_all_three :
    (filled ⟨false, false, false⟩ 3).Inv ∧ (filled ⟨false, false, false⟩ 3).fKey = true ∧
      (∀ i ∈ (filled ⟨false, false, false⟩ 3).live,
        ((filled ⟨false, false, false⟩ 3).entries i).k ≠ 0) ∧
      (filled ⟨false, false, false⟩ 3).size < 4 ∧
      iterateSorted 4 (filled ⟨false, false, false⟩ 3) 0 = some [1, 2, 3] := by
  have hs := filled_spec ⟨false, false, false⟩ rfl 3 (by decide)
  generalize filled ⟨false, false, false⟩ 3 = pm at hs ⊢
  have h0 : ∀ i ∈ pm.live, (pm.entries i).k ≠ 0 := fun i hi => by
    rw [hs.entries i hi]; rw [mem_live, hs.c] at hi
    exact ofNat_ne_ofNat (b := 0) (by omega) (by omega) (by omega)
  have hsize : pm.size < 4 := by simp [ObMap.size, hs.c]
  refine ⟨hs.reachable.inv, hs.fKey, h0, hsize, ?_⟩
  rw [sorted_iteration_visits_all pm hs.reachable.inv hs.fKey h0 4 hsize]
  simp only [Model.values, abs_pairs, hs.liveEntries]
  rfl

/-- A reachable keyed map holding the one pair `(0, 1)`: its keys ascend, and the sorted
iteration returns the value `1` at every call, never `NULL`. -/
theorem sorted_iteration_repeats_zero_key :
    ∃ pm : ObMap, Reachable pm ∧ pm.fKey = true ∧ pm.KeysAscending ∧ pm.size = 1 ∧
      pm.entries 1 = ⟨0, 1⟩ ∧ ∀ fuel, iterateSorted fuel pm 0 = some (List.replicate fuel 1) := by
  have h0 := Inv.empty ⟨false, false, false⟩
  have hf : (ObMap.empty ⟨false, false, false⟩).Fresh 0 1 :=
    ⟨by decide, fun i hi => absurd (mem_live.mp hi) (by show ¬(0 < i ∧ i < 1); omega),
      fun _ i hi => absurd (mem_live.mp hi) (by show ¬(0 < i ∧ i < 1); omega), by decide⟩
  obtain ⟨r, hr, hinv, hok, -, -⟩ := h0.push 0 1
  obtain ⟨-, ha⟩ := hok hf
  have hR0 : Reachable (ObMap.empty ⟨false, false, false⟩) := .empty rfl
  have hR : Reachable r.1 := .call hR0 (c := .push 0 1) (r := .bool r.2)
    (by simp [ObMap.call, hr])
  have hc : r.1.c = 2 := ha.c
  have he1 : r.1.entries 1 = ⟨0, 1⟩ := by rw [ha.entries]; exact update_same _ _ _
  have hk : r.1.fKey = true := ha.fKey
  have hlive1 : 1 ∈ r.1.live := by rw [mem_live]; omega
  have hstep : ∀ (pm' : ObMap) (prev : UInt64), pm'.core = r.1.core → (prev = 0 ∨ prev = 1) →
      ∃ q, getNextSortedStep pm' prev = some q ∧ q.1.core = r.1.core ∧ q.2 = 1 := by
    intro pm' prev he hprev
    have h' := hinv.of_core he
    have hent : pm'.entries = r.1.entries := by
      have := congrArg (fun q : ObMap => q.entries) he; exact this
    have hc' : pm'.c = 2 := by
      have := congrArg (fun q : ObMap => q.c) he; exact this.trans hc
    have hkey : pm'.getKey prev = some 0 := by
      rcases hprev with rfl | rfl
      · exact getKey_zero h'
      · have := getKey_live h' (j := 1) (by rw [mem_live]; omega)
        rwa [hent, he1] at this
    obtain ⟨q, hq, hqc, hqv⟩ := @getNextByKeySorted_zero pm' prev
    refine ⟨q, by simp [getNextSortedStep, hkey, hq], hqc.trans he, ?_⟩
    rw [hqv, getFromEntryIndex_of_live true (by omega) (by omega), hent, he1]
    rfl
  have hrun : ∀ fuel (pm' : ObMap) (prev : UInt64), pm'.core = r.1.core → (prev = 0 ∨ prev = 1) →
      iterateSorted fuel pm' prev = some (List.replicate fuel 1) := by
    intro fuel
    induction fuel with
    | zero => intros; rfl
    | succ fuel ih =>
      intro pm' prev he hprev
      obtain ⟨q, hq, hqc, hqv⟩ := hstep pm' prev he hprev
      simp only [iterateSorted, hq, Option.some_bind, hqv, show ¬(1 : UInt64) = 0 by decide, if_false,
        ih q.1 1 hqc (.inr rfl), Option.map_some', List.replicate_succ]
  refine ⟨r.1, hR, hk, fun i j hi hij hj => absurd hij (by rw [hc] at hj; omega), by
    simp [ObMap.size, hc], he1, fun fuel => hrun fuel r.1 0 rfl (.inl rfl)⟩

end SortedIteration

end LeechCore.ObMap
