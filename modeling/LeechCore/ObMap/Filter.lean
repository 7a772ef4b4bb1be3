import LeechCore.ObMap.Remove

/-!
# Removal by filter

`_ObMap_RemoveByFilter` shows the filter every entry once, from the last index down, with its
original key and value, and releases each removed value once.
-/

namespace LeechCore.ObMap

set_option autoImplicit false

open ListModel

variable {pm : ObMap}

/-- The calls `Ob_DECREF` and `LocalFree` that releasing `pv` makes under the map's policy. -/
def releaseEffects (pm : ObMap) (pv : UInt64) : List Effect :=
  (if pm.fObjectsOb then [.decref pv] else []) ++ (if pm.fObjectsLocalFree then [.localFree pv] else [])

theorem release_eq (pv : UInt64) :
    pm.release pv = { pm with trace := pm.trace ++ pm.releaseEffects pv } := by
  rcases pm with ⟨c, m, g, l, k, ob, lf, hk, hv, ta, sa, en, tr⟩
  unfold release releaseEffects emit
  cases ob <;> cases lf <;> simp

@[simp] theorem liveEntries_emit (e : Effect) : (pm.emit e).liveEntries = pm.liveEntries := rfl

@[simp] theorem entries_emit (e : Effect) : (pm.emit e).entries = pm.entries := rfl

/-- The calls `_ObMap_RemoveByFilter` makes for one entry: the filter, then the release of its
value when the filter selects it. -/
def filterEffects (pm : ObMap) (pfn : UInt64 → UInt64 → Bool) (e : Entry) : List Effect :=
  .filter e.k e.v :: if pfn e.k e.v then pm.releaseEffects e.v else []

/-- The state of the walk before it visits the indices `1..j`: the original entries there, then
a permutation of the kept entries among the visited ones; the count of the removed ones and the
calls made so far. -/
structure FilterInv (pm0 : ObMap) (pfn : UInt64 → UInt64 → Bool) (j : Nat) (pm : ObMap)
    (cRemove : Nat) : Prop where
  inv : pm.Inv
  le : j ≤ pm0.liveEntries.length
  prefix_ : ∃ R, pm.liveEntries = pm0.liveEntries.take j ++ R ∧
    R.Perm ((pm0.liveEntries.drop j).filter fun e => !pfn e.k e.v)
  count : cRemove = ((pm0.liveEntries.drop j).filter fun e => pfn e.k e.v).length
  trace : pm.trace = pm0.trace ++ (pm0.liveEntries.drop j).reverse.flatMap (pm0.filterEffects pfn)
  flags : pm.fObjectsOb = pm0.fObjectsOb ∧ pm.fObjectsLocalFree = pm0.fObjectsLocalFree ∧
    pm.fKey = pm0.fKey

variable {pm0 : ObMap} {pfn : UInt64 → UInt64 → Bool}

theorem FilterInv.init (h : pm0.Inv) : FilterInv pm0 pfn pm0.liveEntries.length pm0 0 :=
  ⟨h, le_refl _, ⟨[], by rw [List.take_length, List.append_nil], by rw [List.drop_length]; exact .nil⟩,
    by rw [List.drop_length]; rfl, by rw [List.drop_length]; simp, ⟨rfl, rfl, rfl⟩⟩

theorem FilterInv.step {j : Nat} {cRemove : Nat} (hs : FilterInv pm0 pfn (j + 1) pm cRemove) :
    ∃ pm' cRemove', removeByFilterLoop pfn (j + 1) pm cRemove =
        removeByFilterLoop pfn j pm' cRemove' ∧ FilterInv pm0 pfn j pm' cRemove' := by
  obtain ⟨h, hle, ⟨R, hL, hR⟩, hcount, htrace, hflags⟩ := hs
  set L0 := pm0.liveEntries
  have hj : j < L0.length := hle
  set e := L0[j]
  have htake : L0.take (j + 1) = L0.take j ++ [e] := (List.take_concat_get' L0 j hj).symm
  have hdrop : L0.drop j = e :: L0.drop (j + 1) := List.drop_eq_getElem_cons hj
  have hlen : (L0.take j).length = j := List.length_take_of_le hj.le
  have hlive : j + 1 ∈ pm.live := by
    have := congrArg List.length hL
    simp only [length_liveEntries, List.length_append, List.length_take] at this
    rw [mem_live]; omega
  have hentry : pm.entries (j + 1) = e := by
    have hlt : j < pm.liveEntries.length := by rw [hL]; simp; omega
    have := getElem_liveEntries hlt
    rw [← this]; simp only [hL, htake, List.append_assoc, List.singleton_append]
    rw [List.getElem_append_right (by omega)]; simp [hlen]
  have hemit := h.emit (.filter e.k e.v)
  by_cases hf : pfn e.k e.v = true
  · obtain ⟨tk, tv, hr, hinv⟩ := hemit.retrieveAndRemove (i := j + 1) hlive
    refine ⟨((pm.emit (.filter e.k e.v)).afterRemove (j + 1) tk tv).release e.v, cRemove + 1,
      by simp only [removeByFilterLoop, hentry, hf, if_true, hr, entries_emit], ?_⟩
    obtain ⟨R', hR', hperm⟩ := swapRemove_append_cons (L0.take j) R e
    refine ⟨hinv.of_core (by rw [release_eq]; rfl), hj.le, ⟨R', ?_, ?_⟩, ?_, ?_, ?_⟩
    · rw [release_eq]
      show ((pm.emit _).afterRemove (j + 1) tk tv).liveEntries = _
      rw [liveEntries_afterRemove (show j + 1 ∈ (pm.emit (.filter e.k e.v)).live from hlive),
        liveEntries_emit, hL, htake, List.append_assoc,
        List.singleton_append, Nat.add_sub_cancel, ← hR', hlen]
    · rw [hdrop, List.filter_cons, hf]; exact hperm.trans hR
    · rw [hcount, hdrop, List.filter_cons, hf]; rfl
    · rw [release_eq]
      show (pm.trace ++ [_]) ++ ((pm.emit _).afterRemove (j + 1) tk tv).releaseEffects e.v = _
      rw [htrace, hdrop, List.reverse_cons, List.flatMap_append]
      simp [filterEffects, hf, releaseEffects, afterRemove, emit, hflags]
    · rw [release_eq]; exact hflags
  · have hf' : pfn e.k e.v = false := by simpa using hf
    refine ⟨pm.emit (.filter e.k e.v), cRemove,
      by simp only [removeByFilterLoop, hentry, hf', Bool.false_eq_true, if_false], ?_⟩
    refine ⟨hemit, hj.le, ⟨e :: R, ?_, ?_⟩, ?_, ?_, hflags⟩
    · rw [liveEntries_emit, hL, htake, List.append_assoc, List.singleton_append]
    · rw [hdrop, List.filter_cons, hf']; exact hR.cons e
    · rw [hcount, hdrop, List.filter_cons, hf']; rfl
    · show pm.trace ++ [_] = _
      rw [htrace, hdrop, List.reverse_cons, List.flatMap_append]
      simp [filterEffects, hf']

theorem FilterInv.run {j : Nat} {cRemove : Nat} (hs : FilterInv pm0 pfn j pm cRemove) :
    ∃ pm' cRemove', removeByFilterLoop pfn j pm cRemove = some (pm', cRemove') ∧
      FilterInv pm0 pfn 0 pm' cRemove' := by
  induction j generalizing pm cRemove with
  | zero => exact ⟨pm, cRemove, rfl, hs⟩
  | succ j ih =>
    obtain ⟨pm', cRemove', heq, hs'⟩ := hs.step
    rw [heq]
    exact ih hs'

theorem Inv.removeByFilter (h : pm.Inv) (pfn : UInt64 → UInt64 → Bool) :
    ∃ pm' cRemove, pm.removeByFilter pfn = some (pm', cRemove) ∧ FilterInv pm pfn 0 pm' cRemove := by
  have hinit : FilterInv pm pfn pm.liveEntries.length pm 0 := FilterInv.init h
  rw [length_liveEntries] at hinit
  exact hinit.run

end LeechCore.ObMap
