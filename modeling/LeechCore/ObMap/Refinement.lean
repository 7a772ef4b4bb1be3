import LeechCore.ObMap.Api
import LeechCore.ListModel

/-!
# The map refines the ordered-list model

`abs` reads a map as its live pairs in index order; on a map satisfying the invariant every call
the list model describes returns what the model returns, over whole runs.
-/

namespace LeechCore.ListModel.Model

set_option autoImplicit false

open ObMap (Call Ret)

/-- What the list model says each public call does and returns. It says nothing of
`ObMap_PushCopy`, `ObMap_GetNextByKeySorted` and `ObMap_GetNextByIndex`. -/
def Step (m : Model) : Call → Model → Ret → Prop
  | .push k v, m', r => m' = (m.push k v).1 ∧ r = .bool (m.push k v).2
  | .remove v, m', r => m' = (m.remove v).1 ∧ r = .qword (m.remove v).2
  | .removeByKey k, m', r => m' = (m.removeByKey k).1 ∧ r = .qword (m.removeByKey k).2
  | .pop, m', r => m' = m.pop.1 ∧ r = .qword m.pop.2.1
  | .popWithKey, m', r => m' = m.pop.1 ∧ r = .withKey m.pop.2.1 m.pop.2.2
  | .removeByFilter pfn, m', r =>
    m.Filters pfn m' ∧ r = .count (m.pairs.countP fun e => pfn e.k e.v)
  | .clear, m', r => m' = m.clear ∧ r = .bool true
  | .sortEntryIndex cmp, m', r => m.Sorts cmp m' ∧ r = .bool true
  | .sortEntryIndexByKey, m', r => m.Sorts ObMap.sortEntryIndexByKeyCmpSort m' ∧ r = .bool true
  | .size, m', r => m' = m ∧ r = .count m.size
  | .exists_ v, m', r => m' = m ∧ r = .bool (m.exists_ v)
  | .existsKey k, m', r => m' = m ∧ r = .bool (m.existsKey k)
  | .getByIndex index, m', r => m' = m ∧ r = .qword (m.getByIndex index)
  | .getByKey k, m', r => m' = m ∧ r = .qword (m.getByKey k)
  | .getNext v, m', r => m' = m ∧ r = .qword (m.getNext v)
  | .getNextByKey k v, m', r => m' = m ∧ r = .qword (m.getNextByKey k v)
  | .getKey v, m', r => m' = m ∧ r = .qword (m.getKey v)
  | .peek, m', r => m' = m ∧ r = .qword m.peek
  | .peekKey, m', r => m' = m ∧ r = .qword m.peekKey
  | .filter, m', r => m' = m ∧ r = .bool true
  | .pushCopy .., _, _ | .getNextByKeySorted .., _, _ | .getNextByIndex .., _, _ => False

/-- A run of calls through the model: the list after each call, and what each returned. -/
inductive Run : Model → List Call → Model → List Ret → Prop
  | nil (m : Model) : Run m [] m []
  | cons {m m' m'' : Model} {c : Call} {r : Ret} {cs : List Call} {rs : List Ret} :
      m.Step c m' r → Run m' cs m'' rs → Run m (c :: cs) m'' (r :: rs)

end LeechCore.ListModel.Model

namespace LeechCore.ObMap

set_option autoImplicit false

open ListModel

/-- The calls the list model describes. -/
def Call.InModel : Call → Bool
  | .pushCopy .. | .getNextByKeySorted .. | .getNextByIndex .. => false
  | _ => true

/-- The list of pairs a map holds, and whether it keeps keys. -/
def abs (pm : ObMap) : Model := ⟨pm.fKey, pm.liveEntries⟩

/-- The calls in order, each on the map the one before left, every allocation succeeding. -/
def runCalls (pm : ObMap) : List Call → Option (ObMap × List Ret)
  | [] => some (pm, [])
  | c :: cs => (pm.call allocOk c).bind fun r =>
    (runCalls r.1 cs).map fun r' => (r'.1, r.2 :: r'.2)

variable {pm : ObMap}

section Reading

@[simp] theorem abs_keyed : (abs pm).keyed = pm.fKey := rfl

@[simp] theorem abs_pairs : (abs pm).pairs = pm.liveEntries := rfl

theorem abs_eq_of_core {pm' : ObMap} (h : pm'.core = pm.core) : abs pm' = abs pm :=
  show abs pm'.core = abs pm.core by rw [h]

theorem getFromEntryIndex_succ (f : Bool) (j : Nat) :
    pm.getFromEntryIndex f (j + 1) = if f then ((abs pm).at_ j).v else ((abs pm).at_ j).k := by
  simp only [getFromEntryIndex, Model.at_, abs_pairs, List.getD_eq_getElem?_getD]
  by_cases hj : j + 1 < pm.c
  · rw [getFromIndex_eq_some (Nat.succ_pos j) hj,
      List.getElem?_eq_getElem (by rw [length_liveEntries]; omega), getElem_liveEntries]
    rfl
  · rw [getFromIndex_eq_none (.inr (by omega)),
      List.getElem?_eq_none (by rw [length_liveEntries]; omega)]
    cases f <;> rfl

theorem getFromEntryIndex_zero (f : Bool) : pm.getFromEntryIndex f 0 = 0 := by
  simp [getFromEntryIndex]

theorem getFromEntryIndex_live' {i : Nat} (hi : i ∈ pm.live) (f : Bool) :
    pm.getFromEntryIndex f i = if f then ((abs pm).at_ (i - 1)).v else ((abs pm).at_ (i - 1)).k := by
  rw [← getFromEntryIndex_succ, Nat.sub_add_cancel (mem_live.mp hi).1]

theorem findIdx?_liveEntries {g : Entry → UInt64} {x : UInt64} {res : Option Nat}
    (hiff : ∀ i, res = some i ↔ i ∈ pm.live ∧ g (pm.entries i) = x) :
    pm.liveEntries.findIdx? (fun e => g e == x) = res.map (· - 1) := by
  cases res with
  | none =>
    rw [Option.map_none', List.findIdx?_eq_none_iff]
    intro e he
    obtain ⟨i, hi, rfl⟩ := mem_liveEntries.mp he
    simpa using fun hx => absurd ((hiff i).mpr ⟨hi, hx⟩) (by simp)
  | some i =>
    obtain ⟨hi, hx⟩ := (hiff i).mp rfl
    have hi' := mem_live.mp hi
    rw [Option.map_some', List.findIdx?_eq_some_iff_getElem]
    refine ⟨by rw [length_liveEntries]; omega, ?_, fun j hj hg => ?_⟩
    · rw [getElem_liveEntries, Nat.sub_add_cancel hi'.1]; simpa using hx
    · rw [getElem_liveEntries] at hg
      have := (hiff (j + 1)).mpr ⟨by rw [mem_live]; omega, by simpa using hg⟩
      simp only [Option.some.injEq] at this
      omega

end Reading

theorem abs_afterRemove {i : Nat} (hi : i ∈ pm.live) (tk tv : Nat → Nat) :
    (abs (pm.afterRemove i tk tv), (pm.entries i).v) = (abs pm).removeAt (i - 1) := by
  simp only [Model.removeAt, abs, liveEntries_afterRemove hi, Prod.mk.injEq, true_and]
  refine ⟨rfl, ?_⟩
  have := getFromEntryIndex_live' hi true
  rwa [getFromEntryIndex_live hi, if_pos rfl, if_pos rfl] at this

theorem clear_fKey : pm.clear.fKey = pm.fKey := by
  unfold ObMap.clear obFreeAllObjects
  split_ifs <;> rfl

namespace Inv

variable (h : pm.Inv)
include h

theorem indexOfValue (v : UInt64) :
    ∃ res, pm.getEntryIndexFromKeyOrValue true v = some res ∧
      (abs pm).indexOfValue v = res.map (· - 1) ∧
      ∀ i, res = some i ↔ i ∈ pm.live ∧ (pm.entries i).v = v := by
  obtain ⟨res, hres, hiff⟩ := h.lookup_value v
  exact ⟨res, hres, findIdx?_liveEntries hiff, hiff⟩

theorem indexOfKey (k : UInt64) :
    ∃ res, pm.getEntryIndexFromKeyOrValue false k = some res ∧
      (abs pm).indexOfKey k = res.map (· - 1) ∧
      ∀ i, res = some i ↔ i ∈ pm.live ∧ pm.fKey = true ∧ (pm.entries i).k = k := by
  cases hk : pm.fKey
  · exact ⟨none, getEntryIndexFromKeyOrValue_nokey hk k, by simp [Model.indexOfKey, hk],
      by simp⟩
  · obtain ⟨res, hres, hiff⟩ := h.lookup_key hk k
    refine ⟨res, hres, ?_, by simpa using hiff⟩
    simp only [Model.indexOfKey, abs_keyed, hk, if_true, abs_pairs]
    exact findIdx?_liveEntries hiff

theorem fresh_iff (k v : UInt64) :
    pm.Fresh k v ↔ v ≠ 0 ∧ v ∉ (abs pm).values ∧ ((abs pm).keyed = false ∨ k ∉ (abs pm).keys) ∧
      (abs pm).pairs.length < 2 ^ 25 - 1 := by
  have := h.c_pos
  simp only [Fresh, Model.values, Model.keys, abs_pairs, abs_keyed, List.mem_map, mem_liveEntries,
    length_liveEntries, OB_MAP_TABLE_MAX_CAPACITY_eq, ← Bool.not_eq_true, ← imp_iff_not_or]
  constructor
  · rintro ⟨hv, hv', hk, hc⟩
    refine ⟨hv, ?_, fun hkey => ?_, by omega⟩
    · rintro ⟨e, ⟨i, hi, rfl⟩, he⟩; exact hv' i hi he
    · rintro ⟨e, ⟨i, hi, rfl⟩, he⟩; exact hk hkey i hi he
  · rintro ⟨hv, hv', hk, hc⟩
    exact ⟨hv, fun i hi he => hv' ⟨_, ⟨i, hi, rfl⟩, he⟩,
      fun hkey i hi he => hk hkey ⟨_, ⟨i, hi, rfl⟩, he⟩, by omega⟩

theorem refines_push (k v : UInt64) :
    ∃ pm' r, pm.call allocOk (.push k v) = some (pm', r) ∧
      (abs pm).Step (.push k v) (abs pm') r := by
  obtain ⟨r, hr, -, hok, hrej, -⟩ := h.push k v
  refine ⟨r.1, .bool r.2, by simp [ObMap.call, hr], ?_⟩
  simp only [Model.Step, Model.push]
  by_cases hf : pm.Fresh k v
  · obtain ⟨h2, ha⟩ := hok hf
    rw [if_pos ((h.fresh_iff k v).mp hf), h2]
    exact ⟨by simp only [abs, ha.fKey, ha.liveEntries h.c_pos], rfl⟩
  · obtain rfl := hrej hf
    rw [if_neg (mt (h.fresh_iff k v).mpr hf)]
    exact ⟨rfl, rfl⟩

theorem refines_remove (v : UInt64) :
    ∃ pm' r, pm.call allocOk (.remove v) = some (pm', r) ∧
      (abs pm).Step (.remove v) (abs pm') r := by
  obtain ⟨r, hr, -, hcase⟩ := h.removeOrRemoveByKey true v
  obtain ⟨res, -, hidx, hiff⟩ := h.indexOfValue v
  refine ⟨r.1, .qword r.2, by simp [ObMap.call, hr], ?_⟩
  simp only [Model.Step, Model.remove, hidx]
  rcases hcase with ⟨i, hi, -, he, tk, tv, rfl⟩ | ⟨hnone, rfl⟩
  · rw [getFromEntryIndex_live hi, if_pos rfl] at he
    rw [(hiff i).mpr ⟨hi, he⟩, Option.map_some', Model.removeFound, ← abs_afterRemove hi tk tv]
    exact ⟨rfl, rfl⟩
  · cases res with
    | none => exact ⟨rfl, rfl⟩
    | some i =>
      obtain ⟨hi, he⟩ := (hiff i).mp rfl
      exact absurd (by rw [getFromEntryIndex_live hi]; exact he) (hnone i hi (.inl rfl))

theorem refines_removeByKey (k : UInt64) :
    ∃ pm' r, pm.call allocOk (.removeByKey k) = some (pm', r) ∧
      (abs pm).Step (.removeByKey k) (abs pm') r := by
  obtain ⟨r, hr, -, hcase⟩ := h.removeOrRemoveByKey false k
  obtain ⟨res, -, hidx, hiff⟩ := h.indexOfKey k
  refine ⟨r.1, .qword r.2, by simp [ObMap.call, hr], ?_⟩
  simp only [Model.Step, Model.removeByKey, hidx]
  rcases hcase with ⟨i, hi, hk, he, tk, tv, rfl⟩ | ⟨hnone, rfl⟩
  · have hk : pm.fKey = true := by simpa using hk
    rw [getFromEntryIndex_live hi, if_neg Bool.false_ne_true] at he
    rw [(hiff i).mpr ⟨hi, hk, he⟩, Option.map_some', Model.removeFound,
      ← abs_afterRemove hi tk tv]
    exact ⟨rfl, rfl⟩
  · cases res with
    | none => exact ⟨rfl, rfl⟩
    | some i =>
      obtain ⟨hi, hk, he⟩ := (hiff i).mp rfl
      exact absurd (by rw [getFromEntryIndex_live hi]; exact he) (hnone i hi (.inr hk))

theorem pop_abs :
    ∃ r, pm.pop = some r ∧ (abs r.1, r.2) = (abs pm).pop := by
  rcases h.pop with ⟨hc, hpop⟩ | ⟨hc, tk, tv, hpop, -⟩
  · refine ⟨_, hpop, ?_⟩
    have hnil : pm.liveEntries = [] := List.eq_nil_of_length_eq_zero (by simp [hc])
    simp [Model.pop, hnil]
  · refine ⟨_, hpop, ?_⟩
    have hlive : pm.c - 1 ∈ pm.live := by rw [mem_live]; omega
    have hlen : pm.liveEntries.length - 1 = pm.c - 1 - 1 := by rw [length_liveEntries]
    simp only [Model.pop, abs_pairs, getLast?_liveEntries hc, abs, liveEntries_afterRemove hlive,
      ← hlen, swapRemove_last]
    rfl

theorem refines_pop :
    ∃ pm' r, pm.call allocOk .pop = some (pm', r) ∧ (abs pm).Step .pop (abs pm') r := by
  obtain ⟨r, hr, he⟩ := h.pop_abs
  refine ⟨r.1, .qword r.2.1, by simp [ObMap.call, hr], ?_⟩
  simp only [Model.Step]
  rw [← he]
  exact ⟨rfl, rfl⟩

theorem refines_popWithKey :
    ∃ pm' r, pm.call allocOk .popWithKey = some (pm', r) ∧
      (abs pm).Step .popWithKey (abs pm') r := by
  obtain ⟨r, hr, he⟩ := h.pop_abs
  refine ⟨r.1, .withKey r.2.1 r.2.2, by simp [ObMap.call, hr], ?_⟩
  simp only [Model.Step]
  rw [← he]
  exact ⟨rfl, rfl⟩

theorem refines_removeByFilter (pfn : UInt64 → UInt64 → Bool) :
    ∃ pm' r, pm.call allocOk (.removeByFilter pfn) = some (pm', r) ∧
      (abs pm).Step (.removeByFilter pfn) (abs pm') r := by
  obtain ⟨pm', n, hrun, hs⟩ := h.removeByFilter pfn
  obtain ⟨R, hL, hR⟩ := hs.prefix_
  simp only [List.take_zero, List.nil_append, List.drop_zero] at hL hR
  refine ⟨pm', .count n, by simp [ObMap.call, hrun], ⟨hs.flags.2.2, ?_⟩, ?_⟩
  · rw [abs_pairs, hL]; exact hR
  · rw [hs.count, List.drop_zero, List.countP_eq_length_filter]; rfl

theorem refines_clear :
    ∃ pm' r, pm.call allocOk .clear = some (pm', r) ∧ (abs pm).Step .clear (abs pm') r := by
  refine ⟨pm.clear, .bool true, rfl, ?_, rfl⟩
  have hnil : pm.clear.liveEntries = [] := List.eq_nil_of_length_eq_zero (by simp [h.clear.2])
  simp only [abs, Model.clear, hnil, clear_fKey]

end Inv

theorem sorted_qsort {cmp : Entry → Entry → Int} (hc : Model.CmpPreorder cmp) (l : List Entry) :
    (qsort cmp l).Sorted fun a b => cmp a b ≤ 0 :=
  (List.sorted_mergeSort (fun a b c hab hbc => decide_eq_true (hc.1 a b c (of_decide_eq_true hab)
    (of_decide_eq_true hbc))) (fun a b => by simpa using hc.2 a b) l).imp of_decide_eq_true

theorem Inv.refines_sortEntryIndex (h : pm.Inv) (cmp : Entry → Entry → Int) :
    ∃ pm', pm.sortEntryIndex cmp true = some (pm', true) ∧ (abs pm).Sorts cmp (abs pm') := by
  obtain ⟨pm', hs, -, hl, -, hk, -⟩ := h.sortEntryIndex cmp
  refine ⟨pm', hs, hk, ?_, fun hc => ?_⟩
  · simpa only [abs_pairs, hl] using List.mergeSort_perm _ _
  · simpa only [abs_pairs, hl] using sorted_qsort hc pm.liveEntries

theorem Inv.getByIndex_abs (h : pm.Inv) (index : UInt32) :
    (pm.getByIndex index).2 = (abs pm).getByIndex index := by
  have hidx : (index + 1).toNat = (index.toNat + 1) % 2 ^ 32 := by
    rw [UInt32.add_def]; simp [UInt32.toNat, Fin.val_add]
  show pm.getFromEntryIndex true (index + 1).toNat = ((abs pm).at_ index.toNat).v
  by_cases hlt : index.toNat + 1 < 2 ^ 32
  · rw [hidx, Nat.mod_eq_of_lt hlt, getFromEntryIndex_succ, if_pos rfl]
  · have hmax := h.c_le_max
    have h32 : index.toNat < 2 ^ 32 := index.val.isLt
    rw [OB_MAP_TABLE_MAX_CAPACITY_eq] at hmax
    have hnil : (abs pm).pairs[index.toNat]? = none :=
      List.getElem?_eq_none (by rw [abs_pairs, length_liveEntries]; omega)
    rw [hidx, show (index.toNat + 1) % 2 ^ 32 = 0 by omega, getFromEntryIndex_zero, Model.at_,
      List.getD_eq_getElem?_getD, hnil]
    rfl

theorem read_after {i : Nat} (hi : i ∈ pm.live) (d : Nat) :
    pm.getFromEntryIndex true (i + d) = ((abs pm).at_ (i - 1 + d)).v := by
  have := (mem_live.mp hi).1
  rw [show i + d = i - 1 + d + 1 by omega, getFromEntryIndex_succ, if_pos rfl]

theorem getFromEntryIndex_last (hc : 1 ≤ pm.c) (f : Bool) :
    pm.getFromEntryIndex f (pm.c - 1) = if f then (abs pm).last.v else (abs pm).last.k := by
  rw [Model.last_eq_at, abs_pairs, length_liveEntries]
  rcases Nat.lt_or_ge 1 pm.c with hlt | hle
  · rw [show pm.c - 1 = pm.c - 1 - 1 + 1 by omega, getFromEntryIndex_succ, Nat.add_sub_cancel]
  · have hnil : (abs pm).pairs = [] := List.eq_nil_of_length_eq_zero (by simp; omega)
    rw [show pm.c - 1 = 0 by omega, getFromEntryIndex_zero, Model.at_, hnil]
    cases f <;> rfl

@[simp] theorem getFromEntryIndex_ite_emit (b : Bool) (e : Effect) :
    (if b then pm.emit e else pm).getFromEntryIndex = pm.getFromEntryIndex := by
  cases b <;> rfl

@[simp] theorem getEntryIndexFromKeyOrValue_ite_emit (b : Bool) (e : Effect) :
    (if b then pm.emit e else pm).getEntryIndexFromKeyOrValue = pm.getEntryIndexFromKeyOrValue := by
  cases b <;> rfl

theorem mem_values_abs {v : UInt64} : v ∈ (abs pm).values ↔ ∃ i ∈ pm.live, (pm.entries i).v = v := by
  simp only [Model.values, abs_pairs, List.mem_map, mem_liveEntries]
  constructor
  · rintro ⟨e, ⟨i, hi, rfl⟩, he⟩; exact ⟨i, hi, he⟩
  · rintro ⟨i, hi, he⟩; exact ⟨_, ⟨i, hi, rfl⟩, he⟩

theorem mem_keys_abs {k : UInt64} : k ∈ (abs pm).keys ↔ ∃ i ∈ pm.live, (pm.entries i).k = k := by
  simp only [Model.keys, abs_pairs, List.mem_map, mem_liveEntries]
  constructor
  · rintro ⟨e, ⟨i, hi, rfl⟩, he⟩; exact ⟨i, hi, he⟩
  · rintro ⟨i, hi, he⟩; exact ⟨_, ⟨i, hi, rfl⟩, he⟩

namespace Inv

variable (h : pm.Inv)
include h

theorem getByKey_abs (k : UInt64) :
    ∃ r, pm.getByKey k = some r ∧ r.1.core = pm.core ∧ r.2 = (abs pm).getByKey k := by
  obtain ⟨res, hres, hidx, hiff⟩ := h.indexOfKey k
  cases res with
  | none => exact ⟨(pm, 0), by simp only [ObMap.getByKey, hres, Option.map_some'], rfl,
      by simp only [Model.getByKey, hidx, Option.map_none', Option.getD_none]⟩
  | some i =>
    have hi := ((hiff i).mp rfl).1
    refine ⟨pm.getByEntryIndex i, by simp only [ObMap.getByKey, hres, Option.map_some'],
      core_getByEntryIndex i, ?_⟩
    simpa only [Model.getByKey, hidx, Option.map_some', Option.getD_some] using read_after hi 0

theorem getKey_abs (v : UInt64) : pm.getKey v = some ((abs pm).getKey v) := by
  obtain ⟨res, hres, hidx, hiff⟩ := h.indexOfValue v
  cases res with
  | none => simp only [ObMap.getKey, hres, Model.getKey, hidx, Option.map_none', Option.getD_none]
  | some i =>
    have hi := mem_live.mp ((hiff i).mp rfl).1
    have : pm.getFromEntryIndex false (i - 1 + 1) = _ := getFromEntryIndex_succ false (i - 1)
    rw [Nat.sub_add_cancel hi.1, getFromEntryIndex_of_live false hi.1 hi.2] at this
    simp only [ObMap.getKey, hres, getFromIndex_eq_some hi.1 hi.2, Option.map_some', Model.getKey,
      hidx, Option.getD_some]
    simpa using this

theorem getNext_abs (v : UInt64) :
    ∃ r, pm.getNext v = some r ∧ r.1.core = pm.core ∧ r.2 = (abs pm).getNext v := by
  by_cases hv : v = 0
  · exact ⟨pm.getByEntryIndex 1, by simp only [ObMap.getNext, if_pos hv], core_getByEntryIndex 1,
      by simpa only [Model.getNext, if_pos hv] using getFromEntryIndex_succ true 0⟩
  obtain ⟨res, hres, hidx, hiff⟩ := h.indexOfValue v
  cases res with
  | none =>
    exact ⟨(if pm.fObjectsOb then pm.emit (.decref v) else pm, 0), by simp only [ObMap.getNext, if_neg hv, getEntryIndexFromKeyOrValue_ite_emit,
      hres, Option.map_some'], core_ite_emit _ _,
      by simp only [Model.getNext, if_neg hv, hidx, Option.map_none', Option.getD_none]⟩
  | some i =>
    have hi := ((hiff i).mp rfl).1
    refine ⟨(if pm.fObjectsOb then pm.emit (.decref v) else pm).getByEntryIndex (i + 1),
      by simp only [ObMap.getNext, if_neg hv, getEntryIndexFromKeyOrValue_ite_emit, hres,
      Option.map_some'], (core_getByEntryIndex _).trans (core_ite_emit _ _), ?_⟩
    simpa only [Model.getNext, if_neg hv, hidx, Option.map_some', Option.getD_some, getByEntryIndex,
      getFromEntryIndex_ite_emit] using read_after hi 1

theorem getNextByKey_abs (k v : UInt64) :
    ∃ r, pm.getNextByKey k v = some r ∧ r.1.core = pm.core ∧ r.2 = (abs pm).getNextByKey k v := by
  by_cases hv : v = 0
  · exact ⟨pm.getByEntryIndex 1, by simp only [ObMap.getNextByKey, if_pos hv],
      core_getByEntryIndex 1,
      by simpa only [Model.getNextByKey, if_pos hv] using getFromEntryIndex_succ true 0⟩
  obtain ⟨res, hres, hidx, hiff⟩ := h.indexOfKey k
  cases res with
  | none =>
    exact ⟨(if pm.fObjectsOb then pm.emit (.decref v) else pm, 0), by simp only [ObMap.getNextByKey, if_neg hv,
      getEntryIndexFromKeyOrValue_ite_emit, hres, Option.map_some'], core_ite_emit _ _,
      by simp only [Model.getNextByKey, if_neg hv, hidx, Option.map_none', Option.getD_none]⟩
  | some i =>
    have hi := ((hiff i).mp rfl).1
    refine ⟨(if pm.fObjectsOb then pm.emit (.decref v) else pm).getByEntryIndex (i + 1),
      by simp only [ObMap.getNextByKey, if_neg hv, getEntryIndexFromKeyOrValue_ite_emit,
      hres, Option.map_some'], (core_getByEntryIndex _).trans (core_ite_emit _ _), ?_⟩
    simpa only [Model.getNextByKey, if_neg hv, hidx, Option.map_some', Option.getD_some,
      getByEntryIndex, getFromEntryIndex_ite_emit] using read_after hi 1

theorem exists_abs (v : UInt64) : pm.exists_ true v = some ((abs pm).exists_ v) := by
  obtain ⟨b, hb, hiff⟩ := h.exists_value v
  rw [hb, Option.some.injEq, Model.exists_, Bool.eq_iff_iff, hiff, decide_eq_true_iff, mem_values_abs]

theorem existsKey_abs (k : UInt64) : pm.exists_ false k = some ((abs pm).existsKey k) := by
  obtain ⟨b, hb, hiff⟩ := h.exists_key k
  rw [hb, Option.some.injEq, Model.existsKey, Bool.eq_iff_iff, hiff, decide_eq_true_iff,
    mem_keys_abs, abs_keyed]

theorem refines (c : Call) (hc : c.InModel = true) :
    ∃ pm' r, pm.call allocOk c = some (pm', r) ∧ (abs pm).Step c (abs pm') r := by
  cases c with
  | push k v => exact h.refines_push k v
  | remove v => exact h.refines_remove v
  | removeByKey k => exact h.refines_removeByKey k
  | pop => exact h.refines_pop
  | popWithKey => exact h.refines_popWithKey
  | removeByFilter pfn => exact h.refines_removeByFilter pfn
  | clear => exact h.refines_clear
  | sortEntryIndex cmp =>
    obtain ⟨pm', hs, hsort⟩ := h.refines_sortEntryIndex cmp
    exact ⟨pm', .bool true, by simp [ObMap.call, allocOk, hs], hsort, rfl⟩
  | sortEntryIndexByKey =>
    obtain ⟨pm', hs, hsort⟩ := h.refines_sortEntryIndex sortEntryIndexByKeyCmpSort
    exact ⟨pm', .bool true, by simp [ObMap.call, allocOk, hs], hsort, rfl⟩
  | size => exact ⟨pm, .count pm.size, rfl, rfl, by simp [ObMap.size, Model.size]⟩
  | exists_ v => exact ⟨pm, _, by simp [ObMap.call, h.exists_abs v], rfl, rfl⟩
  | existsKey k => exact ⟨pm, _, by simp [ObMap.call, h.existsKey_abs k], rfl, rfl⟩
  | getByIndex index =>
    exact ⟨_, _, rfl, abs_eq_of_core (core_getByEntryIndex _), by rw [h.getByIndex_abs]⟩
  | getByKey k =>
    obtain ⟨r, hr, hcore, hv⟩ := h.getByKey_abs k
    exact ⟨r.1, .qword r.2, by simp [ObMap.call, hr], abs_eq_of_core hcore, by rw [hv]⟩
  | getNext v =>
    obtain ⟨r, hr, hcore, hv⟩ := h.getNext_abs v
    exact ⟨r.1, .qword r.2, by simp [ObMap.call, hr], abs_eq_of_core hcore, by rw [hv]⟩
  | getNextByKey k v =>
    obtain ⟨r, hr, hcore, hv⟩ := h.getNextByKey_abs k v
    exact ⟨r.1, .qword r.2, by simp [ObMap.call, hr], abs_eq_of_core hcore, by rw [hv]⟩
  | getKey v => exact ⟨pm, _, by simp [ObMap.call, h.getKey_abs v], rfl, rfl⟩
  | peek =>
    refine ⟨_, _, rfl, abs_eq_of_core (core_getByEntryIndex _), ?_⟩
    simpa [Model.peek] using getFromEntryIndex_last h.c_pos true
  | peekKey =>
    refine ⟨pm, _, rfl, rfl, ?_⟩
    simpa [Model.peekKey] using getFromEntryIndex_last h.c_pos false
  | filter => exact ⟨_, _, rfl, abs_eq_of_core core_filter, rfl⟩
  | pushCopy | getNextByKeySorted | getNextByIndex => exact absurd hc Bool.false_ne_true

theorem runCalls_refines (cs : List Call) (hcs : ∀ c ∈ cs, c.InModel = true) :
    ∃ pm' rs, pm.runCalls cs = some (pm', rs) ∧ pm'.Inv ∧ Model.Run (abs pm) cs (abs pm') rs := by
  induction cs generalizing pm with
  | nil => exact ⟨pm, [], rfl, h, .nil _⟩
  | cons c cs ih =>
    obtain ⟨pm1, r, hc, hs⟩ := h.refines c (hcs c (List.mem_cons_self c cs))
    obtain ⟨pm', rs, hrun, hinv, hrun'⟩ :=
      ih (h.call hc) fun c' hc' => hcs c' (List.mem_cons_of_mem c hc')
    exact ⟨pm', r :: rs, by simp [runCalls, hc, hrun], hinv, .cons hs hrun'⟩

end Inv

theorem Reachable.runCalls (h : Reachable pm) {cs : List Call} {pm' : ObMap} {rs : List Ret}
    (hrun : pm.runCalls cs = some (pm', rs)) : Reachable pm' := by
  induction cs generalizing pm rs with
  | nil => cases hrun; exact h
  | cons c cs ih =>
    simp only [ObMap.runCalls, Option.bind_eq_some, Option.map_eq_some'] at hrun
    obtain ⟨⟨pm1, r⟩, hc, ⟨pm'', rs'⟩, hrest, he⟩ := hrun
    cases he
    exact ih (.call h hc) hrest

/-- The map the calls `cs` leave on `pm`, every allocation succeeding, or `pm` if one fails. -/
def after (pm : ObMap) (cs : List Call) : ObMap := ((pm.runCalls cs).map Prod.fst).getD pm

theorem Reachable.after (h : Reachable pm) (cs : List Call) : Reachable (pm.after cs) := by
  unfold ObMap.after
  cases hrun : pm.runCalls cs with
  | none => exact h
  | some r => exact h.runCalls hrun

/-- Every public call the list model describes, on a reachable map with every allocation
succeeding, returns; the list of pairs the map holds afterwards and the call's result are those
the model gives, and the map is reachable again. -/
theorem call_refines (pm : ObMap) (h : Reachable pm) (c : Call) (hc : c.InModel = true) :
    ∃ pm' r, pm.call allocOk c = some (pm', r) ∧ (abs pm).Step c (abs pm') r ∧ Reachable pm' := by
  obtain ⟨pm', r, hcall, hs⟩ := h.inv.refines c hc
  exact ⟨pm', r, hcall, hs, .call h hcall⟩

theorem call_refines_push_new :
    Reachable (ObMap.empty ⟨false, false, false⟩) ∧ (Call.push 1 1).InModel = true ∧
      ∃ pm' r, (ObMap.empty ⟨false, false, false⟩).call allocOk (.push 1 1) = some (pm', r) ∧
        (abs (ObMap.empty ⟨false, false, false⟩)).Step (.push 1 1) (abs pm') r ∧ Reachable pm' :=
  ⟨.empty rfl, rfl, call_refines (ObMap.empty ⟨false, false, false⟩) (.empty rfl) _ rfl⟩

/-- Every run of calls the list model describes, from a reachable map with every allocation
succeeding, returns; each map on the way is reachable, and the lists and results are a run of
the model. -/
theorem run_refines (pm : ObMap) (h : Reachable pm) (cs : List Call)
    (hcs : ∀ c ∈ cs, c.InModel = true) :
    ∃ pm' rs, pm.runCalls cs = some (pm', rs) ∧ Reachable pm' ∧ Model.Run (abs pm) cs (abs pm') rs := by
  obtain ⟨pm', rs, hrun, -, hmodel⟩ := h.inv.runCalls_refines cs hcs
  exact ⟨pm', rs, hrun, h.runCalls hrun, hmodel⟩

theorem run_refines_new :
    Reachable (ObMap.empty ⟨true, false, false⟩) ∧
      (∀ c ∈ [Call.push 7 1, .push 7 2, .remove 1], c.InModel = true) ∧
      ∃ pm' rs, (ObMap.empty ⟨true, false, false⟩).runCalls [.push 7 1, .push 7 2, .remove 1] =
          some (pm', rs) ∧ Reachable pm' ∧
        Model.Run (abs (ObMap.empty ⟨true, false, false⟩)) [.push 7 1, .push 7 2, .remove 1]
          (abs pm') rs :=
  ⟨.empty rfl, by decide, run_refines (ObMap.empty ⟨true, false, false⟩) (.empty rfl) _ (by decide)⟩

end LeechCore.ObMap
