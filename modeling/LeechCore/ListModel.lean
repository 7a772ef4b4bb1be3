import LeechCore.ObMap.State
import Mathlib.Data.List.Sort

/-!
# The ordered-list model of a map

A list of `(key, value)` pairs in insertion order, and whether keys are kept; each public call
is a function of the list.
-/

namespace LeechCore.ListModel

set_option autoImplicit false

/-- Position `j` overwritten by the last element, and the last element dropped. -/
def swapRemove {α : Type} (l : List α) (j : Nat) : List α :=
  match l.getLast? with
  | some y => (l.set j y).dropLast
  | none => l

section SwapRemove

variable {α : Type}

@[simp] theorem swapRemove_nil (j : Nat) : swapRemove ([] : List α) j = [] := rfl

theorem length_swapRemove (l : List α) (j : Nat) : (swapRemove l j).length = l.length - 1 := by
  unfold swapRemove
  cases h : l.getLast? with
  | none => simp [List.getLast?_eq_none_iff.mp h]
  | some y => simp

theorem swapRemove_append_cons (A R : List α) (e : α) :
    ∃ R', swapRemove (A ++ e :: R) A.length = A ++ R' ∧ R'.Perm R := by
  rcases List.eq_nil_or_concat R with rfl | ⟨R0, y, rfl⟩
  · refine ⟨[], ?_, .refl _⟩
    simp [swapRemove, List.set_append_right]
  · rw [List.concat_eq_append]
    refine ⟨y :: R0, ?_, (List.perm_append_singleton y R0).symm⟩
    have hlast : (A ++ e :: (R0 ++ [y])).getLast? = some y := by
      rw [← List.cons_append, ← List.append_assoc, List.getLast?_concat]
    simp only [swapRemove, hlast]
    rw [List.set_append_right _ _ (le_refl _), Nat.sub_self, List.set_cons_zero,
      ← List.cons_append, ← List.append_assoc, List.dropLast_concat]

theorem swapRemove_last (l : List α) : swapRemove l (l.length - 1) = l.dropLast := by
  rcases List.eq_nil_or_concat l with rfl | ⟨L, y, rfl⟩
  · rfl
  · simp only [swapRemove, List.concat_eq_append, List.getLast?_concat, List.length_append,
      List.length_singleton, Nat.add_sub_cancel]
    rw [List.set_append_right _ _ (le_refl _), Nat.sub_self, List.set_cons_zero]

theorem take_swapRemove (l : List α) {n j : Nat} (hn : n ≤ j) (hj : j < l.length) :
    (swapRemove l j).take n = l.take n := by
  cases h : l.getLast? with
  | none => simp only [swapRemove, h]
  | some y =>
    simp only [swapRemove, h]
    rw [List.dropLast_eq_take, List.take_take, List.length_set, inf_eq_left.mpr (by omega),
      List.set_take, List.set_eq_of_length_le (by simp only [List.length_take]; omega)]

theorem perm_swapRemove (l : List α) {j : Nat} (hj : j < l.length) :
    l.Perm (l[j] :: swapRemove l j) := by
  have hl : l = l.take j ++ l[j] :: l.drop (j + 1) := by
    rw [← List.drop_eq_getElem_cons hj, List.take_append_drop]
  obtain ⟨R', hR', hperm⟩ := swapRemove_append_cons (l.take j) (l.drop (j + 1)) l[j]
  rw [List.length_take_of_le hj.le, ← hl] at hR'
  have hmid : (l.take j ++ l[j] :: l.drop (j + 1)).Perm (l[j] :: (l.take j ++ l.drop (j + 1))) :=
    List.perm_middle
  rw [← hl] at hmid
  rw [hR']
  exact hmid.trans ((hperm.symm.append_left _).cons _)

end SwapRemove

/-- The list of pairs a map holds, and whether it keeps keys (`OB_MAP_FLAGS_NOKEY` unset). -/
structure Model where
  keyed : Bool
  pairs : List Entry

namespace Model

variable (m : Model)

def values : List UInt64 := m.pairs.map Entry.v

def keys : List UInt64 := m.pairs.map Entry.k

/-- The pair at position `j`, as `(0, 0)` past the end. -/
def at_ (j : Nat) : Entry := m.pairs.getD j ⟨0, 0⟩

/-- The last pair, as `(0, 0)` when there is none. -/
def last : Entry := m.pairs.getLastD ⟨0, 0⟩

/-- `ObMap_Push`: a pair is added when its value is not `NULL`, neither its value nor (in keyed
mode) its key is held, and fewer than `2 ^ 25 - 1` pairs are held. -/
def push (k v : UInt64) : Model × Bool :=
  if v ≠ 0 ∧ v ∉ m.values ∧ (m.keyed = false ∨ k ∉ m.keys) ∧ m.pairs.length < 2 ^ 25 - 1 then
    ({ m with pairs := m.pairs ++ [⟨k, v⟩] }, true)
  else (m, false)

/-- The position of the pair holding the value `v`. -/
def indexOfValue (v : UInt64) : Option Nat := m.pairs.findIdx? (·.v == v)

/-- The position of the pair holding the key `k`: none in `NOKEY` mode. -/
def indexOfKey (k : UInt64) : Option Nat := if m.keyed then m.pairs.findIdx? (·.k == k) else none

/-- Removal of the pair at position `j`, returning its value. -/
def removeAt (j : Nat) : Model × UInt64 := ({ m with pairs := swapRemove m.pairs j }, (m.at_ j).v)

/-- Removal of the pair at a position found, and `NULL` when there is none. -/
def removeFound : Option Nat → Model × UInt64
  | some j => m.removeAt j
  | none => (m, 0)

/-- `ObMap_Remove`. -/
def remove (v : UInt64) : Model × UInt64 := m.removeFound (m.indexOfValue v)

/-- `ObMap_RemoveByKey`. -/
def removeByKey (k : UInt64) : Model × UInt64 := m.removeFound (m.indexOfKey k)

/-- `ObMap_Pop` and `ObMap_PopWithKey`: the last pair dropped and returned. -/
def pop : Model × UInt64 × Option UInt64 :=
  match m.pairs.getLast? with
  | some e => ({ m with pairs := m.pairs.dropLast }, e.v, some e.k)
  | none => (m, 0, none)

/-- `ObMap_Clear`. -/
def clear : Model := { m with pairs := [] }

/-- `cmp a b ≤ 0` is a total preorder on the pairs. -/
def CmpPreorder (cmp : Entry → Entry → Int) : Prop :=
  (∀ a b c, cmp a b ≤ 0 → cmp b c ≤ 0 → cmp a c ≤ 0) ∧ ∀ a b, cmp a b ≤ 0 ∨ cmp b a ≤ 0

/-- A result of `ObMap_SortEntryIndex` with `cmp`: a permutation of the pairs, ordered by `cmp`
whenever `cmp` is a total preorder. -/
def Sorts (cmp : Entry → Entry → Int) (m' : Model) : Prop :=
  m'.keyed = m.keyed ∧ m'.pairs.Perm m.pairs ∧
    (CmpPreorder cmp → m'.pairs.Sorted fun a b => cmp a b ≤ 0)

/-- A result of `ObMap_RemoveByFilter` with `pfn`: a permutation of the pairs it keeps. -/
def Filters (pfn : UInt64 → UInt64 → Bool) (m' : Model) : Prop :=
  m'.keyed = m.keyed ∧ m'.pairs.Perm (m.pairs.filter fun e => !pfn e.k e.v)

def size : Nat := m.pairs.length

/-- `ObMap_Exists`. -/
def exists_ (v : UInt64) : Bool := v ≠ 0 ∧ v ∈ m.values

/-- `ObMap_ExistsKey`. -/
def existsKey (k : UInt64) : Bool := m.keyed ∧ k ∈ m.keys

/-- `ObMap_GetByIndex`. -/
def getByIndex (index : UInt32) : UInt64 := (m.at_ index.toNat).v

/-- `ObMap_GetByKey`. -/
def getByKey (k : UInt64) : UInt64 := ((m.indexOfKey k).map fun j => (m.at_ j).v).getD 0

/-- `ObMap_GetKey`. -/
def getKey (v : UInt64) : UInt64 := ((m.indexOfValue v).map fun j => (m.at_ j).k).getD 0

/-- `ObMap_GetNext`: the value after `v`, and the first value for `NULL`. -/
def getNext (v : UInt64) : UInt64 :=
  if v = 0 then (m.at_ 0).v else ((m.indexOfValue v).map fun j => (m.at_ (j + 1)).v).getD 0

/-- `ObMap_GetNextByKey`: the value after the pair with key `k`, and the first value for `NULL`. -/
def getNextByKey (k v : UInt64) : UInt64 :=
  if v = 0 then (m.at_ 0).v else ((m.indexOfKey k).map fun j => (m.at_ (j + 1)).v).getD 0

theorem last_eq_at : m.last = m.at_ (m.pairs.length - 1) := by
  simp only [last, at_, List.getLastD_eq_getLast?, List.getLast?_eq_getElem?,
    List.getD_eq_getElem?_getD]

/-- `ObMap_Peek`. -/
def peek : UInt64 := m.last.v

/-- `ObMap_PeekKey`. -/
def peekKey : UInt64 := m.last.k

/-- One call of a forward iteration after the value `prev`: `ObMap_GetNext`, or, by key,
`ObMap_GetNextByKey` with the key of `prev`. -/
def nextStep (byKey : Bool) (prev : UInt64) : UInt64 :=
  if byKey then m.getNextByKey (m.getKey prev) prev else m.getNext prev

section Iteration

variable {m}

theorem at_eq_getElem {j : Nat} (hj : j < m.pairs.length) : m.at_ j = m.pairs[j] := by
  simp [at_, List.getD_eq_getElem?_getD, hj]

theorem at_of_length_le {j : Nat} (hj : m.pairs.length ≤ j) : m.at_ j = ⟨0, 0⟩ := by
  simp [at_, List.getD_eq_getElem?_getD, List.getElem?_eq_none hj]

theorem findIdx?_at {g : Entry → UInt64} (hnd : (m.pairs.map g).Nodup) {j : Nat}
    (hj : j < m.pairs.length) : m.pairs.findIdx? (fun e => g e == g (m.at_ j)) = some j := by
  rw [List.findIdx?_eq_some_iff_getElem, at_eq_getElem hj]
  refine ⟨hj, by simp, fun i hi he => ?_⟩
  have hinj := List.nodup_iff_injective_get.mp hnd
  have := @hinj ⟨i, by simp; omega⟩ ⟨j, by simpa using hj⟩ (by simpa using he)
  simp only [Fin.mk.injEq] at this
  omega

theorem indexOfValue_at (hnd : m.values.Nodup) {j : Nat} (hj : j < m.pairs.length) :
    m.indexOfValue (m.at_ j).v = some j :=
  findIdx?_at hnd hj

theorem indexOfKey_at (hk : m.keyed = true) (hnd : m.keys.Nodup) {j : Nat}
    (hj : j < m.pairs.length) : m.indexOfKey (m.at_ j).k = some j := by
  rw [indexOfKey, if_pos hk]; exact findIdx?_at hnd hj

theorem indexOfValue_zero (h0 : 0 ∉ m.values) : m.indexOfValue 0 = none := by
  rw [indexOfValue, List.findIdx?_eq_none_iff]
  intro e he
  simpa using fun hv => h0 (List.mem_map.mpr ⟨e, he, hv⟩)

theorem nextStep_zero (byKey : Bool) : m.nextStep byKey 0 = (m.at_ 0).v := by
  cases byKey <;> simp [nextStep, getNext, getNextByKey]

theorem nextStep_at (hnd : m.values.Nodup) (h0 : 0 ∉ m.values) {byKey : Bool}
    (hk : byKey = true → m.keyed = true ∧ m.keys.Nodup) {j : Nat} (hj : j < m.pairs.length) :
    m.nextStep byKey (m.at_ j).v = (m.at_ (j + 1)).v := by
  have hv : (m.at_ j).v ≠ 0 := fun he => h0 (he ▸ List.mem_map.mpr ⟨_, by
    rw [at_eq_getElem hj]; exact List.getElem_mem hj, rfl⟩)
  cases byKey
  · simp [nextStep, getNext, hv, indexOfValue_at hnd hj]
  · obtain ⟨hkey, hknd⟩ := hk rfl
    simp [nextStep, getNextByKey, getKey, hv, indexOfValue_at hnd hj, indexOfKey_at hkey hknd hj]

end Iteration

end Model

end LeechCore.ListModel
