import LeechCore.ObMap.Failure

/-!
# Iteration

`ObMap_GetNext` walks the pairs in index order, each once, pushes in between included.
`_ObMap_GetNextByIndex` swaps the two cases its documentation gives for `pvObject`.
-/

namespace LeechCore.ObMap

set_option autoImplicit false

open Function ListModel

variable {pm : ObMap}

section ByIndex

/-- A caller's reverse iteration: `ObMap_GetNextByIndex` with the cursor it keeps and the value
the call before returned, for at most `fuel` calls or until `NULL`. -/
def iterateByIndex : Nat → ObMap → UInt32 → UInt64 → List UInt64
  | 0, _, _, _ => []
  | fuel + 1, pm, dwIndex, prev =>
    let r := pm.getNextByIndex dwIndex prev
    if r.2.2 = 0 then [] else r.2.2 :: iterateByIndex fuel r.1 r.2.1 r.2.2

theorem getNextByIndex_of_ne {prev : UInt64} (hprev : prev ≠ 0) (hc : pm.c ≤ 2 ^ 32)
    (dwIndex : UInt32) :
    (pm.getNextByIndex dwIndex prev).2 = (UInt32.ofNat (pm.c - 1), pm.getFromEntryIndex true (pm.c - 1)) := by
  simp only [getNextByIndex, ne_eq, hprev, not_false_eq_true, if_true, getByEntryIndex]
  rw [UInt32.toNat_ofNat_of_lt (by unfold UInt32.size; omega), getFromEntryIndex_ite_emit]

theorem getFromEntryIndex_of_core {pm' : ObMap} (he : pm'.core = pm.core) :
    pm'.getFromEntryIndex = pm.getFromEntryIndex :=
  show pm'.core.getFromEntryIndex = pm.core.getFromEntryIndex by rw [he]

theorem Inv.iterateByIndex_repeats (h : pm.Inv) (hc : 1 < pm.c) :
    ∀ fuel (pm' : ObMap) (dwIndex : UInt32) (prev : UInt64), pm'.core = pm.core → prev ≠ 0 →
      iterateByIndex fuel pm' dwIndex prev = List.replicate fuel (pm.entries (pm.c - 1)).v
  | 0, _, _, _, _, _ => rfl
  | fuel + 1, pm', dwIndex, prev, he, hprev => by
    have hc' : pm'.c = pm.c := by have := congrArg (fun q : ObMap => q.c) he; exact this
    have hmax := h.c_le_max
    rw [OB_MAP_TABLE_MAX_CAPACITY_eq] at hmax
    have hlast : pm'.getFromEntryIndex true (pm'.c - 1) = (pm.entries (pm.c - 1)).v := by
      rw [getFromEntryIndex_of_core he, hc',
        getFromEntryIndex_of_live true (show 0 < pm.c - 1 by omega) (show pm.c - 1 < pm.c by omega)]
      rfl
    have hv := h.value_ne_zero (pm.c - 1) (by rw [mem_live]; omega)
    simp only [iterateByIndex, getNextByIndex_of_ne hprev (show pm'.c ≤ 2 ^ 32 by omega), hlast, hv,
      if_false,
      List.replicate_succ]
    rw [Inv.iterateByIndex_repeats h hc fuel _ _ _ ((core_getNextByIndex _ _).trans he) hv]

/-- On a reachable map with one entry the reverse iteration started with `NULL` never returns
`NULL` when the caller's cursor starts at `c`, returning the one value at every call, and
returns nothing when the cursor starts at `0`. -/
theorem getNextByIndex_iteration_fails :
    ∃ pm : ObMap, Reachable pm ∧ pm.size = 1 ∧ (pm.entries 1).v ≠ 0 ∧
      (∀ fuel, iterateByIndex (fuel + 1) pm (UInt32.ofNat pm.c) 0 =
        List.replicate (fuel + 1) (pm.entries 1).v) ∧
      iterateByIndex 2 pm 0 0 = [] := by
  have hs := filled_spec ⟨true, false, false⟩ rfl 1 (by decide)
  generalize filled ⟨true, false, false⟩ 1 = pm at hs
  have hR := hs.reachable
  have hc := hs.c
  have h := hR.inv
  have hv := h.value_ne_zero 1 (by rw [mem_live]; omega)
  refine ⟨pm, hR, by simp [ObMap.size, hc], hv, fun fuel => ?_, ?_⟩
  · have hfirst : (pm.getNextByIndex (UInt32.ofNat pm.c) 0).2 = (1, (pm.entries 1).v) := by
      simp only [getNextByIndex, hc, ne_eq, not_true_eq_false, if_false, getByEntryIndex,
        getFromEntryIndex_ite_emit]
      rw [show UInt32.ofNat (1 + 1) - 1 = 1 by decide, show (1 : UInt32).toNat = 1 from rfl,
        getFromEntryIndex_of_live true (show 0 < 1 by omega) (show 1 < pm.c by omega)]
      rfl
    have := h.iterateByIndex_repeats (by omega) fuel _ 1 _
      (core_getNextByIndex (UInt32.ofNat pm.c) 0) hv
    rw [show pm.c - 1 = 1 by omega] at this
    simp only [iterateByIndex, hfirst, hv, if_false, List.replicate_succ, this]
  · have hnone : pm.getFromEntryIndex true ((0 : UInt32) - 1).toNat = 0 := by
      rw [show ((0 : UInt32) - 1).toNat = 4294967295 from rfl]
      simp [getFromEntryIndex, getFromIndex, hc]
    simp only [iterateByIndex, getNextByIndex, ne_eq, not_true_eq_false, if_false, getByEntryIndex,
      getFromEntryIndex_ite_emit, hnone, if_true]

end ByIndex

section Forward

/-- The pushes a caller makes between two calls of an iteration, every allocation succeeding. -/
def pushAll (pm : ObMap) : List (UInt64 × UInt64) → Option ObMap
  | [] => some pm
  | (k, v) :: ps => (pm.push k v allocOk).bind fun r => pushAll r.1 ps

/-- One call of a forward iteration after the value `prev`: `ObMap_GetNext`, or, by key,
`ObMap_GetNextByKey` with the key `ObMap_GetKey` gives for `prev`. -/
def getNextStep (byKey : Bool) (pm : ObMap) (prev : UInt64) : Option (ObMap × UInt64) :=
  if byKey then (pm.getKey prev).bind fun k => pm.getNextByKey k prev else pm.getNext prev

/-- A caller's forward iteration after `prev`: before each call it makes the pushes the
schedule gives for that call. The map at the end, and the values returned until `NULL` or the
end of the schedule. -/
def iterateNext (byKey : Bool) :
    List (List (UInt64 × UInt64)) → ObMap → UInt64 → Option (ObMap × List UInt64)
  | [], pm, _ => some (pm, [])
  | ps :: sched, pm, prev => (pushAll pm ps).bind fun pm => (getNextStep byKey pm prev).bind
    fun r => if r.2 = 0 then some (r.1, []) else
      (iterateNext byKey sched r.1 r.2).map fun q => (q.1, r.2 :: q.2)

theorem Inv.values_nodup (h : pm.Inv) : (abs pm).values.Nodup :=
  (nodup_liveEntries_iff Entry.v).mpr fun _ hi _ hj => h.values_distinct hi hj

theorem Inv.keys_nodup (h : pm.Inv) (hk : pm.fKey = true) : (abs pm).keys.Nodup :=
  (nodup_liveEntries_iff Entry.k).mpr fun _ hi _ hj => h.keys_distinct hk hi hj

theorem Inv.zero_not_mem_values (h : pm.Inv) : 0 ∉ (abs pm).values := fun h0 => by
  obtain ⟨i, hi, he⟩ := mem_values_abs.mp h0
  exact h.value_ne_zero i hi he

theorem Inv.getNextStep_abs (h : pm.Inv) (byKey : Bool) (prev : UInt64) :
    ∃ r, getNextStep byKey pm prev = some r ∧ r.1.core = pm.core ∧
      r.2 = (abs pm).nextStep byKey prev := by
  cases byKey
  · simpa [getNextStep, Model.nextStep] using h.getNext_abs prev
  · obtain ⟨r, hr, hc, hv⟩ := h.getNextByKey_abs ((abs pm).getKey prev) prev
    exact ⟨r, by simp [getNextStep, h.getKey_abs prev, hr], hc, hv⟩

theorem Inv.pushAll_prefix (h : pm.Inv) (ps : List (UInt64 × UInt64)) :
    ∃ pm', pushAll pm ps = some pm' ∧ pm'.Inv ∧ pm'.fKey = pm.fKey ∧
      pm.liveEntries <+: pm'.liveEntries ∧
      pm'.liveEntries.length ≤ pm.liveEntries.length + ps.length := by
  induction ps generalizing pm with
  | nil => exact ⟨pm, rfl, h, rfl, List.prefix_refl _, by simp⟩
  | cons p ps ih =>
    obtain ⟨r, hr, hinv, hok, hrej, -⟩ := h.push p.1 p.2
    obtain ⟨pm', hrun, hinv', hk', hpre, hlen⟩ := ih hinv
    have hstep : r.1.fKey = pm.fKey ∧ pm.liveEntries <+: r.1.liveEntries ∧
        r.1.liveEntries.length ≤ pm.liveEntries.length + 1 := by
      by_cases hf : pm.Fresh p.1 p.2
      · obtain ⟨-, ha⟩ := hok hf
        rw [ha.liveEntries h.c_pos]
        exact ⟨ha.fKey, List.prefix_append _ _, by simp⟩
      · obtain rfl := hrej hf
        exact ⟨rfl, List.prefix_refl _, Nat.le_succ _⟩
    refine ⟨pm', by simp [ObMap.pushAll, hr, hrun], hinv', hk'.trans hstep.1,
      hstep.2.1.trans hpre, ?_⟩
    simp only [List.length_cons]; omega

/-- Where a forward iteration stands: at the start (`j = 0`, nothing passed back), or after the
pair at position `j - 1`, whose value it passes back. -/
def IterPos (m : Model) (j : Nat) (prev : UInt64) : Prop :=
  j ≤ m.pairs.length ∧ prev = if j = 0 then 0 else (m.at_ (j - 1)).v

theorem Inv.nextStep_of_iterPos (h : pm.Inv) {byKey : Bool} (hkey : byKey = true → pm.fKey = true)
    {j : Nat} {prev : UInt64} (hp : IterPos (abs pm) j prev) :
    (abs pm).nextStep byKey prev = ((abs pm).at_ j).v := by
  obtain ⟨hj, rfl⟩ := hp
  rcases Nat.eq_zero_or_pos j with rfl | hj0
  · exact Model.nextStep_zero byKey
  · rw [if_neg (by omega), Model.nextStep_at h.values_nodup h.zero_not_mem_values
      (fun hb => ⟨hkey hb, h.keys_nodup (hkey hb)⟩) (by omega), Nat.sub_add_cancel hj0]

theorem IterPos.of_prefix {m m' : Model} (hpre : m.pairs <+: m'.pairs) {j : Nat} {prev : UInt64}
    (hp : IterPos m j prev) : IterPos m' j prev := by
  obtain ⟨hj, rfl⟩ := hp
  refine ⟨hj.trans hpre.length_le, ?_⟩
  split_ifs
  · rfl
  · rw [Model.at_eq_getElem (by omega), Model.at_eq_getElem (by have := hpre.length_le; omega),
      hpre.getElem]

theorem Inv.iterateNext_from {byKey : Bool} :
    ∀ (sched : List (List (UInt64 × UInt64))) (pm : ObMap) (j : Nat) (prev : UInt64), pm.Inv →
      (byKey = true → pm.fKey = true) → IterPos (abs pm) j prev →
      ∃ pm' out, iterateNext byKey sched pm prev = some (pm', out) ∧ pm'.Inv ∧
        pm.liveEntries <+: pm'.liveEntries ∧
        pm'.liveEntries.length ≤ pm.liveEntries.length + sched.flatten.length ∧
        out <+: (abs pm').values.drop j ∧ (out.length < sched.length → out = (abs pm').values.drop j)
  | [], pm, j, prev, h, _, _ =>
    ⟨pm, [], rfl, h, List.prefix_refl _, by simp, List.nil_prefix, fun hl => absurd hl (by simp)⟩
  | ps :: sched, pm, j, prev, h, hkey, hp => by
    obtain ⟨pm1, hpush, h1, hk1, hpre1, hlen1⟩ := h.pushAll_prefix ps
    have hp1 : IterPos (abs pm1) j prev := hp.of_prefix hpre1
    have hkey1 : byKey = true → pm1.fKey = true := fun hb => hk1.trans (hkey hb)
    obtain ⟨r, hr, hcore, hval⟩ := h1.getNextStep_abs byKey prev
    rw [h1.nextStep_of_iterPos hkey1 hp1] at hval
    have habs : abs r.1 = abs pm1 := abs_eq_of_core hcore
    have hL : r.1.liveEntries = pm1.liveEntries := congrArg Model.pairs habs
    by_cases hj : j < pm1.liveEntries.length
    · have hv : r.2 ≠ 0 := by
        rw [hval, Model.at_eq_getElem hj]
        exact fun h0 => h1.zero_not_mem_values (h0 ▸ List.mem_map_of_mem _ (List.getElem_mem hj))
      obtain ⟨pm', out, hrun, hinv', hpre', hlen', hout, hend⟩ :=
        Inv.iterateNext_from sched r.1 (j + 1) r.2 (h1.of_core hcore)
          (fun hb => (congrArg Model.keyed habs).trans (hkey1 hb))
          ⟨by rw [habs]; exact hj, by rw [habs, if_neg (by omega), Nat.add_sub_cancel, hval]⟩
      have hpre : pm1.liveEntries <+: pm'.liveEntries := hL ▸ hpre'
      have hj' : j < pm'.liveEntries.length := lt_of_lt_of_le hj hpre.length_le
      have hr2 : r.2 = pm'.liveEntries[j].v := by
        rw [hval, Model.at_eq_getElem hj]; exact congrArg Entry.v (hpre.getElem hj)
      have hdrop : (abs pm').values.drop j = r.2 :: (abs pm').values.drop (j + 1) := by
        rw [hr2, Model.values, abs_pairs, List.drop_eq_getElem_cons (by simpa using hj'),
          List.getElem_map]
      refine ⟨pm', r.2 :: out, ?_, hinv', hpre1.trans hpre, ?_, ?_, fun hl => ?_⟩
      · simp [iterateNext, hpush, hr, hv, hrun]
      · simp only [List.flatten_cons, List.length_append]; rw [hL] at hlen'; omega
      · rw [hdrop]; exact List.cons_prefix_cons.mpr ⟨rfl, hout⟩
      · rw [hdrop, hend (by simpa using hl)]
    · have hv : r.2 = 0 := by rw [hval, Model.at_of_length_le (by simpa using hj)]
      have hdrop : (abs r.1).values.drop j = [] :=
        List.drop_eq_nil_of_le (by rw [Model.values, List.length_map, abs_pairs, hL]; omega)
      refine ⟨r.1, [], by simp [iterateNext, hpush, hr, hv], h1.of_core hcore, hL ▸ hpre1, ?_,
        List.nil_prefix, fun _ => hdrop.symm⟩
      simp only [List.flatten_cons, List.length_append, hL]; omega

/-- A forward iteration with pushes between its calls returns the map's values in index order,
each once, starting with those held at the start, and meets `NULL` having returned them all. -/
theorem forward_iteration_in_order (pm : ObMap) (h : pm.Inv) (byKey : Bool)
    (hkey : byKey = true → pm.fKey = true) (sched : List (List (UInt64 × UInt64))) :
    ∃ pm' out, iterateNext byKey sched pm 0 = some (pm', out) ∧ pm'.Inv ∧
      (abs pm).values <+: (abs pm').values ∧ (abs pm').values.Nodup ∧ out <+: (abs pm').values ∧
      ((abs pm).size + sched.flatten.length < sched.length → out = (abs pm').values) := by
  obtain ⟨pm', out, hrun, hinv, hpre, hlen, hout, hend⟩ :=
    Inv.iterateNext_from sched pm 0 0 h hkey ⟨Nat.zero_le _, rfl⟩
  rw [List.drop_zero] at hout hend
  refine ⟨pm', out, hrun, hinv, hpre.map _, hinv.values_nodup, hout, fun hs => hend ?_⟩
  have := hout.length_le
  simp only [Model.values, abs_pairs, List.length_map, Model.size] at this hs
  omega

theorem forward_iteration_in_order_new :
    (ObMap.empty ⟨true, false, false⟩).Inv ∧ (false = true → (ObMap.empty ⟨true, false, false⟩).fKey = true) ∧
      ∃ pm' out, iterateNext false [[(0, 5)], [(0, 6)], [], []] (ObMap.empty ⟨true, false, false⟩) 0 =
          some (pm', out) ∧ pm'.Inv ∧
        (abs (ObMap.empty ⟨true, false, false⟩)).values <+: (abs pm').values ∧
        (abs pm').values.Nodup ∧ out <+: (abs pm').values ∧
        ((abs (ObMap.empty ⟨true, false, false⟩)).size +
          [[(0, 5)], [(0, 6)], [], []].flatten.length < 4 → out = (abs pm').values) :=
  ⟨Inv.empty _, fun hb => absurd hb Bool.false_ne_true,
    forward_iteration_in_order _ (Inv.empty _) false (fun hb => absurd hb Bool.false_ne_true) _⟩

end Forward

end LeechCore.ObMap
