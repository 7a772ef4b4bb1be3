import LeechCore.ObMap.Operations
import Mathlib.Order.Interval.Finset.Nat

/-!
# The representation invariant

`Inv`: the counters, the allocated path of every live index, non-zero values and the probe
invariant of both hash maps over the live indices `1..c-1`.
-/

namespace LeechCore.ObMap

set_option autoImplicit false

open Function Probe

variable (pm : ObMap)

/-- The live logical indices `1..c-1`. -/
def live : Finset Nat := Finset.Ico 1 pm.c

/-- The representation invariant of an `OB_MAP`. -/
structure Inv : Prop where
  c_pos : 1 ≤ pm.c
  c_le : pm.c ≤ pm.cHashGrowThreshold
  c_le_max : pm.c ≤ OB_MAP_TABLE_MAX_CAPACITY
  pow2 : ∃ m, pm.cHashMax = 2 ^ m
  max_ge : 0x100 ≤ pm.cHashMax
  threshold : 4 * pm.cHashGrowThreshold = 3 * pm.cHashMax
  small : pm.fLargeMode = false → pm.cHashMax = 0x100
  store00 : pm.tableAt 0 = true ∧ pm.storeAt 0 0 = true
  resolves : ∀ i ∈ pm.live, pm.Resolves i
  value_ne_zero : ∀ i ∈ pm.live, (pm.entries i).v ≠ 0
  hashValue : pm.HashValid true pm.live
  hashKey : pm.fKey = true → pm.HashValid false pm.live

variable {pm}

@[simp] theorem mem_live {i : Nat} : i ∈ pm.live ↔ 0 < i ∧ i < pm.c := by
  simp [live, Nat.one_le_iff_ne_zero, Nat.pos_iff_ne_zero]

theorem card_live : pm.live.card = pm.c - 1 := by simp [live]

@[simp] theorem emit_live (e : Effect) : (pm.emit e).live = pm.live := rfl

@[simp] theorem length_liveEntries : pm.liveEntries.length = pm.c - 1 := by simp [liveEntries]

@[simp] theorem getElem_liveEntries {j : Nat} (h : j < pm.liveEntries.length) :
    pm.liveEntries[j] = pm.entries (j + 1) := by
  simp [liveEntries]

@[simp] theorem liveEntries_setHashTable (f : Bool) (t : Nat → Nat) :
    (pm.setHashTable f t).liveEntries = pm.liveEntries := by
  cases f <;> rfl

@[simp] theorem live_setHashTable (f : Bool) (t : Nat → Nat) :
    (pm.setHashTable f t).live = pm.live := by
  cases f <;> rfl

theorem getLast?_liveEntries (h : 1 < pm.c) :
    pm.liveEntries.getLast? = some (pm.entries (pm.c - 1)) := by
  rw [List.getLast?_eq_getElem?, List.getElem?_eq_getElem (by simp; omega), getElem_liveEntries]
  congr 2; simp; omega

/-- The map without the record of its outward calls. -/
def core (pm : ObMap) : ObMap := { pm with trace := [] }

@[simp] theorem emit_core (e : Effect) : (pm.emit e).core = pm.core := rfl

theorem Inv.of_core {pm' : ObMap} (h : pm.Inv) (he : pm'.core = pm.core) : pm'.Inv := by
  obtain ⟨⟩ := pm
  obtain ⟨⟩ := pm'
  simp only [core, ObMap.mk.injEq, and_true] at he
  obtain ⟨rfl, rfl, rfl, rfl, rfl, rfl, rfl, rfl, rfl, rfl, rfl, rfl⟩ := he
  exact ⟨h.1, h.2, h.3, h.4, h.5, h.6, h.7, h.8, h.9, h.10, ⟨h.11.1, h.11.2, h.11.3⟩,
    fun hk => ⟨(h.12 hk).1, (h.12 hk).2, (h.12 hk).3⟩⟩

theorem Inv.emit (h : pm.Inv) (e : Effect) : (pm.emit e).Inv := h.of_core rfl

theorem Inv.empty (flags : Flags) : (ObMap.empty flags).Inv := by
  have hlive : (ObMap.empty flags).live = ∅ := by simp [ObMap.live, ObMap.empty]
  refine ⟨le_refl 1, by simp [ObMap.empty], by show 1 ≤ OB_MAP_TABLE_MAX_CAPACITY; decide, ⟨8, rfl⟩,
    le_refl _, rfl, fun _ => rfl, ⟨rfl, rfl⟩, by simp [hlive], by simp [hlive],
    ⟨hlive ▸ Valid.empty, by simp [hlive], by simp [hlive]⟩,
    fun _ => ⟨hlive ▸ Valid.empty, by simp [hlive], by simp [hlive]⟩⟩

theorem getFromEntryIndex_live {i : Nat} (hi : i ∈ pm.live) (f : Bool) :
    pm.getFromEntryIndex f i = if f then (pm.entries i).v else (pm.entries i).k := by
  rw [mem_live] at hi; exact getFromEntryIndex_of_live f hi.1 hi.2

namespace Inv

variable (h : pm.Inv)
include h

theorem c_lt_max : pm.c < pm.cHashMax := by
  have := h.c_le; have := h.threshold; have := h.max_ge; omega

theorem table_valid {f : Bool} (hf : f = true ∨ pm.fKey = true) : pm.HashValid f pm.live := by
  cases f
  · exact h.hashKey (by simpa using hf)
  · exact h.hashValue

theorem exists_zero {f : Bool} (hf : f = true ∨ pm.fKey = true) :
    ∃ z < pm.cHashMax, pm.hashTable f z = 0 :=
  (h.table_valid hf).valid.exists_zero (by rw [card_live]; have := h.c_lt_max; omega)

theorem lookup {f : Bool} (hf : f = true ∨ pm.fKey = true) (x : UInt64) :
    ∃ res, pm.getEntryIndexFromKeyOrValue f x = some res ∧
      ∀ i, res = some i ↔ i ∈ pm.live ∧ pm.getFromEntryIndex f i = x := by
  obtain ⟨m, hm⟩ := h.pow2
  exact getEntryIndexFromKeyOrValue_spec hf hm (h.table_valid hf) (h.exists_zero hf) x

theorem lookup_value (x : UInt64) :
    ∃ res, pm.getEntryIndexFromKeyOrValue true x = some res ∧
      ∀ i, res = some i ↔ i ∈ pm.live ∧ (pm.entries i).v = x := by
  obtain ⟨res, hres, hiff⟩ := h.lookup (f := true) (.inl rfl) x
  refine ⟨res, hres, fun i => (hiff i).trans ?_⟩
  constructor <;> rintro ⟨hi, hx⟩ <;> exact ⟨hi, by simpa [getFromEntryIndex_live hi] using hx⟩

theorem lookup_key (hk : pm.fKey = true) (x : UInt64) :
    ∃ res, pm.getEntryIndexFromKeyOrValue false x = some res ∧
      ∀ i, res = some i ↔ i ∈ pm.live ∧ (pm.entries i).k = x := by
  obtain ⟨res, hres, hiff⟩ := h.lookup (f := false) (.inr hk) x
  refine ⟨res, hres, fun i => (hiff i).trans ?_⟩
  constructor <;> rintro ⟨hi, hx⟩ <;> exact ⟨hi, by simpa [getFromEntryIndex_live hi] using hx⟩

theorem values_distinct {i j : Nat} (hi : i ∈ pm.live) (hj : j ∈ pm.live)
    (he : (pm.entries i).v = (pm.entries j).v) : i = j :=
  h.hashValue.distinct i hi j hj (by simpa [getFromEntryIndex_live hi, getFromEntryIndex_live hj])

theorem keys_distinct (hk : pm.fKey = true) {i j : Nat} (hi : i ∈ pm.live) (hj : j ∈ pm.live)
    (he : (pm.entries i).k = (pm.entries j).k) : i = j :=
  (h.hashKey hk).distinct i hi j hj
    (by simpa [getFromEntryIndex_live hi, getFromEntryIndex_live hj])

theorem exists_value (x : UInt64) :
    ∃ b, pm.exists_ true x = some b ∧ (b = true ↔ x ≠ 0 ∧ ∃ i ∈ pm.live, (pm.entries i).v = x) := by
  by_cases hx : x = 0
  · exact ⟨false, by simp [exists_, hx], by simp [hx]⟩
  obtain ⟨res, hres, hiff⟩ := h.lookup_value x
  refine ⟨res.isSome, by simp [exists_, hx, hres], ?_⟩
  simp only [Option.isSome_iff_exists, hiff, ne_eq, hx, not_false_eq_true, true_and]

theorem exists_key (x : UInt64) :
    ∃ b, pm.exists_ false x = some b ∧
      (b = true ↔ pm.fKey = true ∧ ∃ i ∈ pm.live, (pm.entries i).k = x) := by
  cases hk : pm.fKey
  · exact ⟨false, by simp [exists_, hk], by simp⟩
  obtain ⟨res, hres, hiff⟩ := h.lookup_key hk x
  refine ⟨res.isSome, by simp [exists_, hk, hres], ?_⟩
  simp only [Option.isSome_iff_exists, hiff, true_and]

end Inv

theorem home_live {i : Nat} (hi : i ∈ pm.live) (f : Bool) :
    pm.home f i = pm.hashIndex (if f then (pm.entries i).v else (pm.entries i).k) := by
  rw [home, getFromEntryIndex_live hi]

theorem home_congr {pm' : ObMap} {f : Bool} {i : Nat} (hmax : pm'.cHashMax = pm.cHashMax)
    (hi : i ∈ pm.live) (hi' : i ∈ pm'.live) (he : pm'.entries i = pm.entries i) :
    pm'.home f i = pm.home f i := by
  rw [home_live hi, home_live hi', he]; simp [hashIndex, dwHashMask, hmax]

theorem removeHash_step (pm : ObMap) {m : Nat} (hmax : pm.cHashMax = 2 ^ m) {f : Bool}
    {S : Finset Nat}
    (hv : f = true ∨ pm.fKey = true → Valid pm.cHashMax (pm.home f) (pm.hashTable f) S)
    {i : Nat} (hi : i ∈ S) (hc : S.card < pm.cHashMax) (kv : UInt64) :
    ∃ t, pm.removeHash f kv i = some (pm.setHashTable f t) ∧
      (f = true ∨ pm.fKey = true → Valid pm.cHashMax (pm.home f) t (S.erase i)) := by
  by_cases hf : f = true ∨ pm.fKey = true
  · obtain ⟨t, ht, hv'⟩ := removeHash_spec hf hmax (hv hf) hi ((hv hf).exists_zero hc) kv
    exact ⟨t, ht, fun _ => hv'⟩
  · obtain ⟨rfl, hk⟩ : f = false ∧ pm.fKey = false := by cases f <;> simp_all
    exact ⟨pm.hashTable false, by rw [removeHash_nokey hk, setHashTable_hashTable_self],
      fun h => absurd h hf⟩

theorem insertHash_step (pm : ObMap) {m : Nat} (hmax : pm.cHashMax = 2 ^ m) {f : Bool}
    {S : Finset Nat}
    (hv : f = true ∨ pm.fKey = true → Valid pm.cHashMax (pm.home f) (pm.hashTable f) S)
    {i : Nat} (hi0 : i ≠ 0) (hi : i ∉ S) (hc : S.card < pm.cHashMax) :
    ∃ t, pm.insertHash f i = some (pm.setHashTable f t) ∧
      (f = true ∨ pm.fKey = true → Valid pm.cHashMax (pm.home f) t (insert i S)) := by
  by_cases hf : f = true ∨ pm.fKey = true
  · obtain ⟨r, -, -, ht, hv'⟩ := insertHash_spec hf hmax (hv hf) hi0 hi ((hv hf).exists_zero hc)
    exact ⟨_, ht, fun _ => hv'⟩
  · obtain ⟨rfl, hk⟩ : f = false ∧ pm.fKey = false := by cases f <;> simp_all
    exact ⟨pm.hashTable false, by rw [insertHash_nokey hk, setHashTable_hashTable_self],
      fun h => absurd h hf⟩

end LeechCore.ObMap
