import LeechCore.ObMap.Ownership

/-!
# The order of the values

Along any run without a removal or a sort, the pairs are a sublist of those held at the start
followed by those pushed; pops drain the map in reverse, and `ObMap_SortEntryIndexByKey` leaves
the keys ascending.
-/

namespace LeechCore.ObMap

set_option autoImplicit false

open Function ListModel

variable {pm : ObMap}

/-- Whether a call keeps the order of the values held: every call but the removals the header
names and the sorts, which reorder by design. -/
def Call.keepsOrder : Call → Bool
  | .remove _ | .removeByKey _ | .removeByFilter _ | .sortEntryIndex _ | .sortEntryIndexByKey => false
  | _ => true

/-- The pair a call asks the map to push. -/
def Call.pushed : Call → Option Entry
  | .push k v | .pushCopy k v => some ⟨k, v⟩
  | _ => none

section SortByKey

theorem sortEntryIndexByKeyCmpSort_nonpos {a b : Entry} :
    sortEntryIndexByKeyCmpSort a b ≤ 0 ↔ a.k ≤ b.k := by
  unfold sortEntryIndexByKeyCmpSort
  rw [uint64_le_iff]
  split_ifs with h1 h2 <;> rw [uint64_lt_iff] at h1
  · exact iff_of_true (by decide) (by omega)
  · rw [gt_iff_lt, uint64_lt_iff] at h2; exact iff_of_false (by decide) (by omega)
  · rw [gt_iff_lt, uint64_lt_iff] at h2; exact iff_of_true (by decide) (by omega)

theorem cmpPreorder_byKey : Model.CmpPreorder sortEntryIndexByKeyCmpSort := by
  simp only [Model.CmpPreorder, sortEntryIndexByKeyCmpSort_nonpos, uint64_le_iff]
  exact ⟨fun _ _ _ => Nat.le_trans, fun a b => Nat.le_total _ _⟩

theorem keys_lt_qsort {l : List Entry} (hnd : (l.map Entry.k).Nodup) :
    (qsort sortEntryIndexByKeyCmpSort l).Pairwise fun a b => a.k < b.k := by
  have hnd' : ((qsort sortEntryIndexByKeyCmpSort l).map Entry.k).Nodup :=
    ((List.mergeSort_perm _ _).map Entry.k).nodup_iff.mpr hnd
  refine ((sorted_qsort cmpPreorder_byKey l).and (List.pairwise_map.mp hnd')).imp ?_
  rintro a b ⟨hle, hne⟩
  rw [sortEntryIndexByKeyCmpSort_nonpos, uint64_le_iff] at hle
  rw [uint64_lt_iff]
  exact lt_of_le_of_ne hle fun he => hne (UInt64.toNat.inj he)

theorem keysAscending_of_pairwise (hp : pm.liveEntries.Pairwise fun a b => a.k < b.k) :
    pm.KeysAscending := by
  intro i j hi hij hj
  have := List.pairwise_iff_getElem.mp hp (i - 1) (j - 1) (by simp; omega) (by simp; omega)
    (by omega)
  simpa only [getElem_liveEntries, Nat.sub_add_cancel hi, Nat.sub_add_cancel (by omega : 1 ≤ j)]
    using this

/-- `ObMap_SortEntryIndexByKey` on a reachable keyed map, its scratch buffer allocated, returns
`TRUE` and leaves a reachable map holding the same pairs, with keys strictly ascending with the
index: the order `_ObMap_QFind` and `ObMap_GetNextByKeySorted` rely on. -/
theorem sortEntryIndexByKey_ascending (pm : ObMap) (h : Reachable pm) (hk : pm.fKey = true) :
    ∃ pm', pm.call allocOk .sortEntryIndexByKey = some (pm', .bool true) ∧ Reachable pm' ∧
      pm'.KeysAscending ∧ (abs pm').pairs.Perm (abs pm).pairs := by
  obtain ⟨pm', hs, -, hl, -⟩ := h.inv.sortEntryIndex sortEntryIndexByKeyCmpSort
  have hcall : pm.call allocOk .sortEntryIndexByKey = some (pm', .bool true) := by
    simp [ObMap.call, allocOk, hs]
  refine ⟨pm', hcall, .call h hcall, keysAscending_of_pairwise ?_,
    by simpa only [abs_pairs, hl] using List.mergeSort_perm _ _⟩
  rw [hl]
  exact keys_lt_qsort ((nodup_liveEntries_iff Entry.k).mpr fun i hi j hj he =>
    h.inv.keys_distinct hk hi hj he)

theorem sortEntryIndexByKey_ascending_unsorted :
    Reachable ((ObMap.empty ⟨false, false, false⟩).after [.push 6 1, .push 2 2, .push 4 3]) ∧
      ((ObMap.empty ⟨false, false, false⟩).after [.push 6 1, .push 2 2, .push 4 3]).fKey = true ∧
      (abs ((ObMap.empty ⟨false, false, false⟩).after [.push 6 1, .push 2 2, .push 4 3])).keys =
        [6, 2, 4] ∧
      ∃ pm', ((ObMap.empty ⟨false, false, false⟩).after [.push 6 1, .push 2 2, .push 4 3]).call
          allocOk .sortEntryIndexByKey = some (pm', .bool true) ∧ Reachable pm' ∧
        pm'.KeysAscending ∧ (abs pm').pairs.Perm
          (abs ((ObMap.empty ⟨false, false, false⟩).after [.push 6 1, .push 2 2, .push 4 3])).pairs :=
  have hR := (Reachable.empty rfl : Reachable (ObMap.empty ⟨false, false, false⟩)).after
    [.push 6 1, .push 2 2, .push 4 3]
  ⟨hR, rfl, by decide, sortEntryIndexByKey_ascending _ hR rfl⟩

end SortByKey

section Kept

theorem step_sublist {m m' : Model} {c : Call} {r : Ret} (hs : m.Step c m' r)
    (hc : c.keepsOrder = true) : m'.pairs.Sublist (m.pairs ++ c.pushed.toList) := by
  cases c <;> simp only [Call.keepsOrder, Bool.false_eq_true] at hc <;>
    simp only [Model.Step] at hs
  case push k v =>
    rw [hs.1]; unfold Model.push; split_ifs
    · exact List.Sublist.refl _
    · exact List.sublist_append_left _ _
  case pop | popWithKey =>
    rw [hs.1]; unfold Model.pop; split
    · exact (List.dropLast_sublist _).trans (List.sublist_append_left _ _)
    · exact List.sublist_append_left _ _
  case clear => rw [hs.1]; exact List.nil_sublist _
  all_goals rw [hs.1]; exact List.sublist_append_left _ _

theorem Inv.keepsOrder_step (h : pm.Inv) (c : Call) (hc : c.keepsOrder = true) :
    ∃ pm' r, pm.call allocOk c = some (pm', r) ∧
      (abs pm').pairs.Sublist ((abs pm).pairs ++ c.pushed.toList) := by
  have hmodel : c.InModel = true → ∃ pm' r, pm.call allocOk c = some (pm', r) ∧
      (abs pm').pairs.Sublist ((abs pm).pairs ++ c.pushed.toList) := fun hin => by
    obtain ⟨pm', r, hcall, hs⟩ := h.refines c hin
    exact ⟨pm', r, hcall, step_sublist hs hc⟩
  have hsame : ∀ {pm' : ObMap}, abs pm' = abs pm →
      (abs pm').pairs.Sublist ((abs pm).pairs ++ c.pushed.toList) := fun he => by
    rw [he]; exact List.sublist_append_left _ _
  cases c
  case pushCopy k v =>
    obtain ⟨r, hr, -, hok, hfail, hskip⟩ := h.pushCopy k v
    refine ⟨r.1, .bool r.2, by simp [ObMap.call, hr], ?_⟩
    by_cases hs : pm.fObjectsLocalFree = false ∨ v = 0
    · rw [hskip hs]; exact hsame rfl
    have hlf : pm.fObjectsLocalFree = true := by simpa using (not_or.mp hs).1
    by_cases hf : pm.Fresh k v
    · rw [abs_pairs, (hok hlf hf).2.liveEntries h.c_pos]; exact List.Sublist.refl _
    · rw [hfail hlf (not_or.mp hs).2 hf]; exact hsame (abs_eq_of_core (emit_core _))
  case getNextByKeySorted k v =>
    obtain ⟨r, hr⟩ := h.getNextByKeySorted_some k v
    exact ⟨r.1, .qword r.2, by simp [ObMap.call, hr],
      hsame (abs_eq_of_core (core_getNextByKeySorted hr))⟩
  case getNextByIndex idx v =>
    exact ⟨_, _, rfl, hsame (abs_eq_of_core (core_getNextByIndex idx v))⟩
  all_goals exact hmodel rfl

/-- Along every run without removals or sorts, the pairs are a sublist of those held at the start
followed by those pushed, in order. -/
theorem order_kept (pm : ObMap) (h : Reachable pm) (cs : List Call)
    (hcs : ∀ c ∈ cs, c.keepsOrder = true) :
    ∃ pm' rs, pm.runCalls cs = some (pm', rs) ∧ Reachable pm' ∧
      (abs pm').pairs.Sublist ((abs pm).pairs ++ cs.filterMap Call.pushed) := by
  induction cs generalizing pm with
  | nil => exact ⟨pm, [], rfl, h, by simp⟩
  | cons c cs ih =>
    obtain ⟨pm1, r, hc, hsub⟩ := h.inv.keepsOrder_step c (hcs c (List.mem_cons_self c cs))
    obtain ⟨pm', rs, hrun, hR, hsub'⟩ :=
      ih pm1 (.call h hc) fun c' hc' => hcs c' (List.mem_cons_of_mem c hc')
    refine ⟨pm', r :: rs, by simp [runCalls, hc, hrun], hR, ?_⟩
    have hpushed : (c :: cs).filterMap Call.pushed = c.pushed.toList ++ cs.filterMap Call.pushed := by
      cases hp : c.pushed <;> simp [List.filterMap_cons, hp]
    rw [hpushed, ← List.append_assoc]
    exact hsub'.trans (hsub.append_right _)

theorem order_kept_new :
    Reachable (ObMap.empty ⟨false, false, false⟩) ∧
      (∀ c ∈ [Call.push 1 1, .push 2 2, .pop, .push 3 3], c.keepsOrder = true) ∧
      ∃ pm' rs, (ObMap.empty ⟨false, false, false⟩).runCalls [.push 1 1, .push 2 2, .pop, .push 3 3] =
          some (pm', rs) ∧ Reachable pm' ∧
        (abs pm').pairs.Sublist ((abs (ObMap.empty ⟨false, false, false⟩)).pairs ++
          [Call.push 1 1, .push 2 2, .pop, .push 3 3].filterMap Call.pushed) :=
  ⟨.empty rfl, by decide,
    order_kept (ObMap.empty ⟨false, false, false⟩) (.empty rfl) _ (by decide)⟩

end Kept

section RoundTrip

theorem pop_push_of_accepted {m : Model} {k v : UInt64} (hacc : (m.push k v).2 = true) :
    (m.push k v).1.pop = (m, v, some k) := by
  unfold Model.push at hacc ⊢
  split_ifs at hacc ⊢
  simp [Model.pop, List.getLast?_concat, List.dropLast_concat]

/-- An `ObMap_Push` that returns `TRUE` on a reachable map, followed by `ObMap_PopWithKey`: the pop
returns the pair pushed, and the map holds again the pairs it held before the push, whatever
the grow between the two did to the hash maps and to the mode. -/
theorem push_then_popWithKey (pm : ObMap) (h : Reachable pm) (k v : UInt64) {pm₁ : ObMap}
    (hpush : pm.call allocOk (.push k v) = some (pm₁, .bool true)) :
    ∃ pm₂, pm₁.call allocOk .popWithKey = some (pm₂, .withKey v (some k)) ∧ abs pm₂ = abs pm ∧
      Reachable pm₂ := by
  obtain ⟨pm₁', r, hc, habs, hr⟩ := h.inv.refines (.push k v) rfl
  rw [hpush, Option.some.injEq, Prod.mk.injEq] at hc
  obtain ⟨rfl, rfl⟩ := hc
  have hacc : ((abs pm).push k v).2 = true := by simpa using hr.symm
  have hR₁ : Reachable pm₁ := .call h hpush
  obtain ⟨pm₂, r₂, hc₂, habs₂, hr₂⟩ := hR₁.inv.refines .popWithKey rfl
  rw [habs, pop_push_of_accepted hacc] at habs₂ hr₂
  exact ⟨pm₂, by rw [hc₂, hr₂], habs₂, .call hR₁ hc₂⟩

theorem push_then_popWithKey_new :
    Reachable (ObMap.empty ⟨false, false, false⟩) ∧
      ∃ pm₁, (ObMap.empty ⟨false, false, false⟩).call allocOk (.push 7 1) = some (pm₁, .bool true) ∧
        ∃ pm₂, pm₁.call allocOk .popWithKey = some (pm₂, .withKey 1 (some 7)) ∧
          abs pm₂ = abs (ObMap.empty ⟨false, false, false⟩) ∧ Reachable pm₂ :=
  ⟨.empty rfl, _, rfl, push_then_popWithKey (ObMap.empty ⟨false, false, false⟩) (.empty rfl) 7 1 rfl⟩

theorem Reachable.popWithKey_last (h : Reachable pm) {l : List Entry} {e : Entry}
    (hl : (abs pm).pairs = l ++ [e]) :
    ∃ pm₁, pm.call allocOk .popWithKey = some (pm₁, .withKey e.v (some e.k)) ∧
      (abs pm₁).pairs = l ∧ Reachable pm₁ := by
  obtain ⟨pm₁, r, hc, habs, hr⟩ := h.inv.refines .popWithKey rfl
  have hpop : (abs pm).pop = (⟨(abs pm).keyed, l⟩, e.v, some e.k) := by
    simp only [Model.pop, hl, List.getLast?_concat, List.dropLast_concat]
  rw [hpop] at habs hr
  exact ⟨pm₁, by rw [hc, hr], by rw [habs], .call h hc⟩

/-- `ObMap_PopWithKey`, called on a reachable map as many times as it holds pairs, returns them
all with their keys, the last pushed first, and leaves the map empty. -/
theorem popWithKey_drains (pm : ObMap) (h : Reachable pm) :
    ∃ pm' rs, pm.runCalls (List.replicate (abs pm).pairs.length .popWithKey) = some (pm', rs) ∧
      rs = (abs pm).pairs.reverse.map (fun e => Ret.withKey e.v (some e.k)) ∧
      (abs pm').pairs = [] ∧ Reachable pm' := by
  generalize hl : (abs pm).pairs = l
  induction l using List.reverseRecOn generalizing pm with
  | nil => exact ⟨pm, [], rfl, rfl, hl, h⟩
  | append_singleton l e ih =>
    obtain ⟨pm₁, hc, hl₁, h₁⟩ := h.popWithKey_last hl
    obtain ⟨pm', rs, hrun, hrs, he, h'⟩ := ih pm₁ h₁ hl₁
    refine ⟨pm', .withKey e.v (some e.k) :: rs, ?_, by simp [hrs], he, h'⟩
    rw [List.length_append, List.length_singleton, List.replicate_succ]
    simp only [runCalls, hc, hrun, Option.some_bind, Option.map_some']

theorem popWithKey_drains_three :
    ∃ pm' rs, (filled ⟨false, false, false⟩ 3).runCalls
        (List.replicate (abs (filled ⟨false, false, false⟩ 3)).pairs.length .popWithKey) =
        some (pm', rs) ∧
      rs = [.withKey 3 (some 6), .withKey 2 (some 4), .withKey 1 (some 2)] ∧
      (abs pm').pairs = [] ∧ Reachable pm' := by
  have hs := filled_spec ⟨false, false, false⟩ rfl 3 (by decide)
  generalize filled ⟨false, false, false⟩ 3 = pm at hs ⊢
  obtain ⟨pm', rs, hrun, hrs, he, h'⟩ := popWithKey_drains _ hs.reachable
  rw [abs_pairs, hs.liveEntries] at hrun hrs ⊢
  exact ⟨pm', rs, hrun, hrs.trans (by decide), he, h'⟩

end RoundTrip

end LeechCore.ObMap
