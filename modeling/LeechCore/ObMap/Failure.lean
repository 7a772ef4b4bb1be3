import LeechCore.ObMap.Refinement

/-!
# Allocation failure on the insert path

When the `LocalAlloc` of the table replacing `_SmallTable` fails, `_ObMap_Grow` has already
stored `NULL` in `Directory[0]`; a map reaches that point after `0xbf` pushes.
-/

namespace LeechCore.ObMap

set_option autoImplicit false

open Function

variable {pm : ObMap}

/-- The map `_ObMap_Grow` leaves when the directory table of the small-to-large switch is not
allocated. -/
def lostSmallTable (pm : ObMap) : ObMap := { pm with tableAt := update pm.tableAt 0 false }

@[simp] theorem lostSmallTable_tableAt_zero : pm.lostSmallTable.tableAt 0 = false := by
  simp [lostSmallTable]

@[simp] theorem lostSmallTable_liveEntries : pm.lostSmallTable.liveEntries = pm.liveEntries := rfl

@[simp] theorem lostSmallTable_live : pm.lostSmallTable.live = pm.live := rfl

theorem lostSmallTable_not_resolves (h : pm.Inv) (hL : pm.fLargeMode = false) {i : Nat}
    (hi : i ∈ pm.live) : ¬ pm.lostSmallTable.Resolves i := by
  have := h.small hL
  have := h.threshold
  have := h.c_le
  obtain ⟨hd, -⟩ := index_zero_of_lt (i := i) (by rw [mem_live] at hi; omega)
  simp [Resolves, hd]

theorem Inv.push_lostSmallTable (h : pm.Inv) (hL : pm.fLargeMode = false)
    (hT : pm.c = pm.cHashGrowThreshold) {k v : UInt64} (hf : pm.Fresh k v)
    {alloc : AllocSite → Bool} (ha : alloc .growHashMap = true)
    (hd : alloc .growDirectory = false) :
    pm.push k v alloc = some (pm.lostSmallTable, false) := by
  obtain ⟨hv0, hv, hk, hmax⟩ := hf
  obtain ⟨bv, hbv, hbv'⟩ := h.exists_value v
  obtain ⟨bk, hbk, hbk'⟩ := h.exists_key k
  have hbv0 : bv = false := by
    rw [Bool.eq_false_iff]; intro hb; obtain ⟨-, i, hi, he⟩ := hbv'.mp hb; exact hv i hi he
  have hbk0 : bk = false := by
    rw [Bool.eq_false_iff]; intro hb; obtain ⟨hkey, i, hi, he⟩ := hbk'.mp hb; exact hk hkey i hi he
  have hgrow : pm.grow alloc = some (pm.lostSmallTable, false) := by
    simp [ObMap.grow, ha, hd, hL, lostSmallTable]
  simp only [ObMap.push, hv0, hbv, hbv0, hbk, hbk0, if_false, Option.some_bind, Bool.false_eq_true,
    if_neg (Nat.ne_of_lt hmax), if_pos hT, hgrow, Bool.not_false, if_true]

theorem Fresh.nokey {k v : UInt64} (hf : pm.Fresh k v) (hk : pm.fKey = false) (k' : UInt64) :
    pm.Fresh k' v :=
  ⟨hf.1, hf.2.1, fun h => absurd (hk.symm.trans h) Bool.false_ne_true, hf.2.2.2⟩

/-- A reachable small map at its grow threshold, and a fresh push on it whose new hash map is
allocated and whose new directory table is not: `ObMap_Push` returns `FALSE`, but the map it
leaves has lost `Directory[0]`, so that none of its entries resolves and the invariant fails. -/
theorem push_grow_failure_loses_small_table :
    ∃ pm : ObMap, Reachable pm ∧ pm.fLargeMode = false ∧ pm.c = 0xc0 ∧
      ∀ alloc : AllocSite → Bool, alloc .growHashMap = true → alloc .growDirectory = false →
        ∃ pm', pm.push 0 0xc0 alloc = some (pm', false) ∧ pm'.liveEntries = pm.liveEntries ∧
          pm'.tableAt 0 = false ∧ ¬ pm'.Inv ∧ ∀ i ∈ pm'.live, ¬ pm'.Resolves i := by
  obtain ⟨pm, hs⟩ : ∃ pm, Filled ⟨true, false, false⟩ 0xbf pm :=
    ⟨_, filled_spec ⟨true, false, false⟩ rfl 0xbf (by decide)⟩
  obtain ⟨hL, hT⟩ := hs.small (by omega)
  have h := hs.reachable.inv
  have hf : pm.Fresh 0 0xc0 := (hs.fresh (by decide)).nokey hs.fKey 0
  refine ⟨_, hs.reachable, hL, hs.c, fun alloc ha hd => ⟨_, h.push_lostSmallTable hL
    (by rw [hs.c, hT]) hf ha hd, rfl, lostSmallTable_tableAt_zero, fun h' => ?_,
    fun i hi => lostSmallTable_not_resolves h hL hi⟩⟩
  exact absurd h'.store00.1 (by simp)

end LeechCore.ObMap
