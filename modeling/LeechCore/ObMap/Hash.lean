import LeechCore.ObMap.State
import LeechCore.Probe.Remove

/-!
# The hash maps of `ob_map.c`

`_ObMap_InsertHash`, `_ObMap_RemoveHash` and `_ObMap_GetEntryIndexFromKeyOrValue`, correct on
every power-of-two table that satisfies `HashValid` and has an empty slot.
-/

namespace LeechCore.ObMap

set_option autoImplicit false

open Function Probe

variable (pm : ObMap)

/-- `_ObMap_InsertHash`. -/
def insertHash (fValueHash : Bool) (iEntry : Nat) : Option ObMap :=
  if !fValueHash && !pm.fKey then some pm else
  match findFree (pm.hashTable fValueHash) pm.dwHashMask pm.cHashMax (pm.home fValueHash iEntry) with
  | some iHash => some (pm.setHashIndex fValueHash iHash iEntry)
  | none => none

/-- `_ObMap_RemoveHash`. -/
def removeHash (fValueHash : Bool) (kv : UInt64) (iEntry : Nat) : Option ObMap :=
  if !fValueHash && !pm.fKey then some pm else
  (removeSlots (pm.hashTable fValueHash) pm.dwHashMask pm.cHashMax (pm.home fValueHash) iEntry
    (pm.hashIndex kv)).map (pm.setHashTable fValueHash)

/-- `_ObMap_GetEntryIndexFromKeyOrValue`: `some (some i)` is `TRUE` with `*piEntry = i`, and
`some none` is `FALSE`. -/
def getEntryIndexFromKeyOrValue (fValueHash : Bool) (kv : UInt64) : Option (Option Nat) :=
  if !fValueHash && !pm.fKey then some none else
  probe (fun s => pm.hashTable fValueHash s == 0 ||
      decide (kv = pm.getFromEntryIndex fValueHash (pm.hashTable fValueHash s)))
    (fun s => if pm.hashTable fValueHash s = 0 then none else some (pm.hashTable fValueHash s))
    pm.dwHashMask pm.cHashMax (pm.hashIndex kv)

/-- The probe invariant of the table `fValueHash` selects over the live indices `S`, whose
fields are pairwise distinct. -/
structure HashValid (fValueHash : Bool) (S : Finset Nat) : Prop where
  valid : Valid pm.cHashMax (pm.home fValueHash) (pm.hashTable fValueHash) S
  live : ∀ i ∈ S, 0 < i ∧ i < pm.c
  distinct : ∀ i ∈ S, ∀ j ∈ S,
    pm.getFromEntryIndex fValueHash i = pm.getFromEntryIndex fValueHash j → i = j

section Lemmas

variable {pm}

@[simp] theorem setHashTable_getFromEntryIndex (f f' : Bool) (t : Nat → Nat) :
    (pm.setHashTable f' t).getFromEntryIndex f = pm.getFromEntryIndex f := by
  funext i; simp [getFromEntryIndex, getFromIndex]

@[simp] theorem setHashTable_hashIndex (f' : Bool) (t : Nat → Nat) :
    (pm.setHashTable f' t).hashIndex = pm.hashIndex := by
  funext x; simp [hashIndex, dwHashMask]

@[simp] theorem setHashTable_home (f f' : Bool) (t : Nat → Nat) :
    (pm.setHashTable f' t).home f = pm.home f := by
  funext i; simp [home]

theorem hashMask_eq {m : Nat} (hmax : pm.cHashMax = 2 ^ m) (a : Nat) :
    a &&& pm.dwHashMask = a % pm.cHashMax := by
  rw [dwHashMask, hmax, Nat.and_pow_two_sub_one_eq_mod]

theorem hashIndex_lt {m : Nat} (hmax : pm.cHashMax = 2 ^ m) (x : UInt64) :
    pm.hashIndex x < pm.cHashMax := by
  rw [hashIndex, hashMask_eq hmax]; exact Nat.mod_lt _ (by rw [hmax]; exact Nat.two_pow_pos m)

theorem home_lt {m : Nat} (hmax : pm.cHashMax = 2 ^ m) (f : Bool) (i : Nat) :
    pm.home f i < pm.cHashMax := hashIndex_lt hmax _

theorem insertHash_nokey (hk : pm.fKey = false) (i : Nat) : pm.insertHash false i = some pm := by
  simp [insertHash, hk]

theorem removeHash_nokey (hk : pm.fKey = false) (kv : UInt64) (i : Nat) :
    pm.removeHash false kv i = some pm := by
  simp [removeHash, hk]

theorem getEntryIndexFromKeyOrValue_nokey (hk : pm.fKey = false) (kv : UInt64) :
    pm.getEntryIndexFromKeyOrValue false kv = some none := by
  simp [getEntryIndexFromKeyOrValue, hk]

variable {f : Bool} (hf : f = true ∨ pm.fKey = true) {m : Nat} (hmax : pm.cHashMax = 2 ^ m)
  {S : Finset Nat}
include hf hmax

theorem insertHash_spec (hv : Valid pm.cHashMax (pm.home f) (pm.hashTable f) S) {i : Nat}
    (hi0 : i ≠ 0) (hi : i ∉ S) (hz : ∃ z < pm.cHashMax, pm.hashTable f z = 0) :
    ∃ r < pm.cHashMax, pm.hashTable f r = 0 ∧
      pm.insertHash f i = some (pm.setHashTable f (update (pm.hashTable f) r i)) ∧
      Valid pm.cHashMax (pm.home f) (update (pm.hashTable f) r i) (insert i S) := by
  obtain ⟨r, hr, hr0, hfree, hv'⟩ := hv.insert (hashMask_eq hmax) (home_lt hmax f) hi0 hi hz
  have hne : (!f && !pm.fKey) = false := by cases f <;> simp_all
  exact ⟨r, hr, hr0, by simp only [insertHash, hne, hfree, setHashIndex_eq hf]; rfl, hv'⟩

theorem removeHash_spec (hv : Valid pm.cHashMax (pm.home f) (pm.hashTable f) S) {i : Nat}
    (hi : i ∈ S) (hz : ∃ z < pm.cHashMax, pm.hashTable f z = 0) (kv : UInt64) :
    ∃ t, pm.removeHash f kv i = some (pm.setHashTable f t) ∧
      Valid pm.cHashMax (pm.home f) t (S.erase i) := by
  obtain ⟨t, ht, hv'⟩ := hv.remove (hashMask_eq hmax) (home_lt hmax f) hi hz (hashIndex_lt hmax kv)
  have hne : (!f && !pm.fKey) = false := by cases f <;> simp_all
  exact ⟨t, by simp [removeHash, hne, ht], hv'⟩

theorem getEntryIndexFromKeyOrValue_spec (hS : pm.HashValid f S)
    (hz : ∃ z < pm.cHashMax, pm.hashTable f z = 0) (x : UInt64) :
    ∃ res, pm.getEntryIndexFromKeyOrValue f x = some res ∧
      ∀ i, res = some i ↔ i ∈ S ∧ pm.getFromEntryIndex f i = x := by
  have hne : (!f && !pm.fKey) = false := by cases f <;> simp_all
  simp only [getEntryIndexFromKeyOrValue, hne, Bool.false_eq_true, if_false]
  exact hS.valid.lookup (hashMask_eq hmax) (pm.getFromEntryIndex f) pm.hashIndex
    (hashIndex_lt hmax) hS.distinct hz x

end Lemmas

theorem HashValid.erase {pm : ObMap} {f : Bool} {S : Finset Nat} (hS : pm.HashValid f S)
    {t : Nat → Nat} {i : Nat}
    (hv : Valid pm.cHashMax (pm.home f) t (S.erase i)) : (pm.setHashTable f t).HashValid f (S.erase i) :=
  ⟨by simpa using hv, fun j hj => by simpa using hS.live j (Finset.mem_of_mem_erase hj),
    fun j hj j' hj' => by
      simpa using hS.distinct j (Finset.mem_of_mem_erase hj) j' (Finset.mem_of_mem_erase hj')⟩

/-- On a `2 ^ m`-slot table satisfying the probe invariant over `S` with an empty slot: lookup
finds exactly the indexed entry, insertion keeps the invariant over `S` and the new index, and
removal leaves it over the other indices. -/
theorem hash_routines_correct (pm : ObMap) (f : Bool) (hf : f = true ∨ pm.fKey = true) (m : Nat)
    (hmax : pm.cHashMax = 2 ^ m) (S : Finset Nat) (hS : pm.HashValid f S)
    (hz : ∃ z < pm.cHashMax, pm.hashTable f z = 0) :
    (∀ x, ∃ res, pm.getEntryIndexFromKeyOrValue f x = some res ∧
      ∀ i, res = some i ↔ i ∈ S ∧ pm.getFromEntryIndex f i = x) ∧
    (∀ i, 0 < i → i < pm.c → i ∉ S →
      (∃ a < pm.cHashMax, ∃ b < pm.cHashMax, a ≠ b ∧ pm.hashTable f a = 0 ∧ pm.hashTable f b = 0) →
      ∃ pm', pm.insertHash f i = some pm' ∧
        Valid pm'.cHashMax (pm'.home f) (pm'.hashTable f) (insert i S) ∧
        (∃ z < pm'.cHashMax, pm'.hashTable f z = 0) ∧
        ((∀ j ∈ S, pm.getFromEntryIndex f j ≠ pm.getFromEntryIndex f i) →
          pm'.HashValid f (insert i S))) ∧
    (∀ i ∈ S, ∀ kv, ∃ pm', pm.removeHash f kv i = some pm' ∧ pm'.HashValid f (S.erase i)) := by
  refine ⟨getEntryIndexFromKeyOrValue_spec hf hmax hS hz, fun i hi0 hic hi hab => ?_,
    fun i hi kv => ?_⟩
  · obtain ⟨a, ha, b, hb, hab, ha0, hb0⟩ := hab
    obtain ⟨r, hr, hr0, hins, hv⟩ :=
      insertHash_spec hf hmax hS.valid (Nat.pos_iff_ne_zero.mp hi0) hi ⟨a, ha, ha0⟩
    have hzero : ∃ z < pm.cHashMax, update (pm.hashTable f) r i z = 0 := by
      by_cases hra : r = a
      · exact ⟨b, hb, by rw [update_noteq (by rintro rfl; exact hab hra.symm), hb0]⟩
      · exact ⟨a, ha, by rw [update_noteq (Ne.symm hra), ha0]⟩
    refine ⟨_, hins, by simpa using hv, by simpa using hzero, fun hfresh => ⟨by simpa using hv,
      fun j hj => ?_, fun j hj j' hj' he => ?_⟩⟩
    · rcases Finset.mem_insert.mp hj with rfl | hj
      · exact ⟨hi0, by simpa using hic⟩
      · simpa using hS.live j hj
    · simp only [setHashTable_getFromEntryIndex] at he
      rcases Finset.mem_insert.mp hj with h1 | h1 <;> rcases Finset.mem_insert.mp hj' with h2 | h2
      · rw [h1, h2]
      · exact absurd (h1 ▸ he).symm (hfresh _ h2)
      · exact absurd (h2 ▸ he) (hfresh _ h1)
      · exact hS.distinct j h1 j' h2 he
  · obtain ⟨t, hrem, hv⟩ := removeHash_spec hf hmax hS.valid hi hz kv
    exact ⟨_, hrem, hS.erase hv⟩

/-- Three entries whose values `187`, `443` and `570` all hash to the last slot of the
`0x100`-slot value hash map. -/
def clusterMap : ObMap :=
  { ObMap.empty ⟨false, false, false⟩ with
    c := 4, entries := fun i => ⟨0, if i = 1 then 187 else if i = 2 then 443 else 570⟩ }

/-- `clusterMap` with entries `1` and `2` indexed: the cluster wraps around to slot `0`. -/
def clusterIndexed : ObMap :=
  ((clusterMap.insertHash true 1).bind fun pm => pm.insertHash true 2).getD clusterMap

theorem hash_routines_correct_cluster :
    clusterIndexed.hashMapValue 0xff = 1 ∧ clusterIndexed.hashMapValue 0 = 2 ∧
      clusterIndexed.HashValid true {2, 1} ∧
      clusterIndexed.getEntryIndexFromKeyOrValue true 443 = some (some 2) ∧
      (∃ pm', clusterIndexed.insertHash true 3 = some pm' ∧ pm'.hashMapValue 1 = 3 ∧
        pm'.HashValid true {3, 2, 1}) ∧
      ∃ pm', clusterIndexed.removeHash true 187 1 = some pm' ∧ pm'.hashMapValue 0xff = 2 ∧
        pm'.hashMapValue 0 = 0 ∧ pm'.HashValid true (({2, 1} : Finset Nat).erase 1) := by
  have h0 : clusterMap.HashValid true ∅ :=
    ⟨Valid.empty, fun i hi => absurd hi (Finset.not_mem_empty i),
      fun i hi => absurd hi (Finset.not_mem_empty i)⟩
  obtain ⟨pm1, hins1, -, -, hv1⟩ := (hash_routines_correct clusterMap true (.inl rfl) 8 rfl ∅ h0
    ⟨0, by decide, rfl⟩).2.1 1 (by decide) (by decide) (Finset.not_mem_empty 1)
    ⟨0, by decide, 1, by decide, by decide, rfl, rfl⟩
  obtain rfl : pm1 = (clusterMap.insertHash true 1).getD clusterMap := by rw [hins1]; rfl
  obtain ⟨pm2, hins2, -, -, hv2⟩ := (hash_routines_correct _ true (.inl rfl) 8 (by decide) {1}
    (hv1 (fun j hj => absurd hj (Finset.not_mem_empty j))) ⟨0, by decide, by decide⟩).2.1 2
    (by decide) (by decide) (by decide) ⟨1, by decide, 2, by decide, by decide, by decide, by decide⟩
  obtain rfl : pm2 = clusterIndexed := by
    rw [clusterIndexed, hins1, Option.some_bind, hins2]; rfl
  have hS := hv2 (by decide)
  obtain ⟨hget, hins, hrem⟩ := hash_routines_correct clusterIndexed true (.inl rfl) 8 (by decide)
    {2, 1} hS ⟨1, by decide, by decide⟩
  obtain ⟨res, hres, hiff⟩ := hget 443
  obtain ⟨pm3, hins3, -, -, hv3⟩ := hins 3 (by decide) (by decide) (by decide)
    ⟨1, by decide, 2, by decide, by decide, by decide, by decide⟩
  obtain ⟨pm4, hrem4, hv4⟩ := hrem 1 (by decide) 187
  obtain rfl : pm3 = (clusterIndexed.insertHash true 3).getD clusterIndexed := by rw [hins3]; rfl
  obtain rfl : pm4 = (clusterIndexed.removeHash true 187 1).getD clusterIndexed := by
    rw [hrem4]; rfl
  exact ⟨by decide, by decide, hS, by rw [hres, (hiff 2).mpr (by decide)], ⟨_, hins3, by decide,
    hv3 (by decide)⟩, _, hrem4, by decide, by decide, hv4⟩

end LeechCore.ObMap
