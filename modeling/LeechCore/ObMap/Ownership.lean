import LeechCore.ObMap.Sorted
import Mathlib.Algebra.Ring.Int.Defs
import Mathlib.Data.List.Count

/-!
# What the map holds of each value

The references an `OB` map holds to each object, and the pointers a `LOCALFREE` map owns, as
ledgers over the record of outward calls: one while the map holds the value, zero otherwise and
after the close callback.
-/

namespace LeechCore.ObMap

set_option autoImplicit false

open Function ListModel

section Ledger

/-- The object a call hands to its caller with a reference, in an `OB` map: the result of a
getter, which takes a new reference, or of a removal, which hands over the map's own. -/
def Call.handedOut : Call → Ret → UInt64
  | .getByIndex _, .qword x | .getByKey _, .qword x | .peek, .qword x | .getNext _, .qword x
  | .getNextByKey _ _, .qword x | .getNextByKeySorted _ _, .qword x
  | .getNextByIndex _ _, .withIndex x _ | .remove _, .qword x | .removeByKey _, .qword x
  | .pop, .qword x | .popWithKey, .withKey x _ => x
  | _, _ => 0

/-- The value a removal hands to its caller, who then owns it. -/
def Call.removed : Call → Ret → UInt64
  | .remove _, .qword x | .removeByKey _, .qword x | .pop, .qword x
  | .popWithKey, .withKey x _ => x
  | _, _ => 0

/-- The object a `GetNext*` call takes back from its caller. -/
def Call.handedBack : Call → UInt64
  | .getNext pv | .getNextByKey _ pv | .getNextByKeySorted _ pv | .getNextByIndex _ pv => pv
  | _ => 0

/-- The pointer a call hands to a `LOCALFREE` map: the value of a push it accepts, and the copy
of a `PushCopy`, which the map frees itself when the push fails. -/
def Call.handedIn : Call → Ret → UInt64
  | .push _ v, .bool true => v
  | .pushCopy _ pv, _ => pv
  | _, _ => 0

/-- How many of the calls `crs`, with what they returned, `f` reads as `v`. -/
def tally (f : Call → Ret → UInt64) (crs : List (Call × Ret)) (v : UInt64) : Nat :=
  crs.countP fun p => f p.1 p.2 = v

/-- The references to the object `v` an `OB` map holds by its record of outward calls `es` and
the calls `crs` made on it: its `Ob_INCREF`s, less its `Ob_DECREF`s and the references it handed
to callers, plus those callers handed back. -/
def obHeld (es : List Effect) (crs : List (Call × Ret)) (v : UInt64) : Int :=
  (es.count (.incref v) : Int) - es.count (.decref v) - tally Call.handedOut crs v +
    tally (fun c _ => c.handedBack) crs v

/-- The ownership of the pointer `v` by a `LOCALFREE` map, by the same record: the times it was
handed in, less those a removal handed it back and those the map freed it. -/
def lfOwned (es : List Effect) (crs : List (Call × Ret)) (v : UInt64) : Int :=
  (tally Call.handedIn crs v : Int) - tally Call.removed crs v - es.count (.localFree v)

/-- How often the map holds the value `v`: once or never, the values being distinct. -/
def holds (pm : ObMap) (v : UInt64) : Nat := (abs pm).values.count v

@[simp] theorem tally_nil (f : Call → Ret → UInt64) (v : UInt64) : tally f [] v = 0 := rfl

@[simp] theorem tally_singleton (f : Call → Ret → UInt64) (c : Call) (r : Ret) (v : UInt64) :
    tally f [(c, r)] v = if f c r = v then 1 else 0 := by
  simp [tally, List.countP_cons]

theorem obHeld_append (es es' : List Effect) (crs crs' : List (Call × Ret)) (v : UInt64) :
    obHeld (es ++ es') (crs ++ crs') v = obHeld es crs v + obHeld es' crs' v := by
  simp only [obHeld, tally, List.count_append, List.countP_append]; omega

theorem lfOwned_append (es es' : List Effect) (crs crs' : List (Call × Ret)) (v : UInt64) :
    lfOwned (es ++ es') (crs ++ crs') v = lfOwned es crs v + lfOwned es' crs' v := by
  simp only [lfOwned, tally, List.count_append, List.countP_append]; omega

theorem holds_eq_ite {pm : ObMap} (hnd : (abs pm).values.Nodup) (v : UInt64) :
    pm.holds v = if v ∈ (abs pm).values then 1 else 0 := by
  split_ifs with hv
  · exact List.count_eq_one_of_mem hnd hv
  · exact List.count_eq_zero_of_not_mem hv

end Ledger

variable {pm : ObMap}

/-- What one call moves on the ledgers, read off the outward calls `es` it records. -/
structure Moves (pm pm' : ObMap) (c : Call) (r : Ret) (es : List Effect) : Prop where
  fObjectsOb : pm'.fObjectsOb = pm.fObjectsOb
  fObjectsLocalFree : pm'.fObjectsLocalFree = pm.fObjectsLocalFree
  trace : pm'.trace = pm.trace ++ es
  ob : pm.fObjectsOb = true → pm.fObjectsLocalFree = false → ∀ v, v ≠ 0 →
    obHeld es [(c, r)] v = (pm'.holds v : Int) - pm.holds v
  lf : pm.fObjectsOb = false → pm.fObjectsLocalFree = true → ∀ v, v ≠ 0 →
    lfOwned es [(c, r)] v = (pm'.holds v : Int) - pm.holds v
  freed : ∀ x, .localFree x ∈ es →
    x ∈ (abs pm).values ∨ ∃ k, c = .pushCopy k x ∧ r = .bool false

section Reads

/-- A read: the map is the same but for its record, to which the call adds, in an `OB` map, an
`Ob_DECREF` of the object `pv` it takes back and an `Ob_INCREF` of the object `x` it hands out
(and none it makes on `NULL`, which both ignore). -/
structure ReadStep (pm pm' : ObMap) (pv x : UInt64) : Prop where
  core : pm'.core = pm.core
  effects : ∃ es, pm'.trace = pm.trace ++ es ∧ (∀ y, .localFree y ∉ es) ∧
    ∀ v, v ≠ 0 →
    (es.count (.incref v) : Int) - es.count (.decref v) =
      if pm.fObjectsOb then (if x = v then 1 else 0) - (if pv = v then 1 else 0) else 0

theorem ReadStep.refl (pm : ObMap) : ReadStep pm pm 0 0 :=
  ⟨rfl, [], by simp, by simp, fun v _ => by simp⟩

theorem ReadStep.getByEntryIndex (i : Nat) :
    ReadStep pm (pm.getByEntryIndex i).1 0 (pm.getByEntryIndex i).2 := by
  refine ⟨core_getByEntryIndex i,
    if pm.fObjectsOb then [.incref (pm.getFromEntryIndex true i)] else [], ?_, ?_, fun v hv => ?_⟩
  · cases hob : pm.fObjectsOb <;> simp [ObMap.getByEntryIndex, emit, hob]
  · cases pm.fObjectsOb <;> simp
  · cases hob : pm.fObjectsOb <;> simp [ObMap.getByEntryIndex, Ne.symm hv, hob, List.count_cons,
      Nat.cast_ite]

theorem ReadStep.back {pv x : UInt64} {pm' : ObMap}
    (hr : ReadStep (if pm.fObjectsOb then pm.emit (.decref pv) else pm) pm' 0 x) :
    ReadStep pm pm' pv x := by
  obtain ⟨hcore, es, ht, hnf, hnet⟩ := hr
  refine ⟨hcore.trans (core_ite_emit _ _), (if pm.fObjectsOb then [.decref pv] else []) ++ es,
    ?_, ?_, fun v hv => ?_⟩
  · cases hob : pm.fObjectsOb <;> simp [hob, emit] at ht ⊢ <;> exact ht
  · intro y; cases pm.fObjectsOb <;> simp [hnf y]
  · have := hnet v hv
    cases hob : pm.fObjectsOb <;>
      simp [hob, emit, Ne.symm hv, List.count_cons, Nat.cast_ite] at this ⊢ <;> omega

theorem ReadStep.of_map {q : ObMap} {pv : UInt64} {F : Option Nat → ObMap × UInt64}
    (hF : ∀ o, ReadStep q (F o).1 pv (F o).2) {res : Option (Option Nat)} {pm' : ObMap}
    {x : UInt64} (h : res.map F = some (pm', x)) : ReadStep q pm' pv x := by
  obtain ⟨o, -, ho⟩ := Option.map_eq_some'.mp h
  have := hF o
  rwa [ho] at this

theorem ReadStep.found (q : ObMap) (d : Nat) (o : Option Nat) :
    ReadStep q (match o with
      | some i => q.getByEntryIndex (i + d)
      | none => (q, 0)).1 0 (match o with
      | some i => q.getByEntryIndex (i + d)
      | none => (q, 0)).2 := by
  cases o
  · exact ReadStep.refl q
  · exact ReadStep.getByEntryIndex _

theorem ReadStep.getByKey {k x : UInt64} {pm' : ObMap} (hr : pm.getByKey k = some (pm', x)) :
    ReadStep pm pm' 0 x :=
  ReadStep.of_map (fun o => ReadStep.found pm 0 o) hr

theorem ReadStep.next {v x : UInt64} {pm' : ObMap} {rest : Option (ObMap × UInt64)}
    (hrest : rest = some (pm', x) → ReadStep pm pm' v x)
    (hr : (if v = 0 then some (pm.getByEntryIndex 1) else rest) = some (pm', x)) :
    ReadStep pm pm' v x := by
  by_cases hv : v = 0
  · rw [if_pos hv] at hr
    obtain ⟨rfl, rfl⟩ := Prod.ext_iff.mp (Option.some.inj hr).symm
    exact hv ▸ ReadStep.getByEntryIndex 1
  · rw [if_neg hv] at hr
    exact hrest hr

theorem ReadStep.getNext {v x : UInt64} {pm' : ObMap} (hr : pm.getNext v = some (pm', x)) :
    ReadStep pm pm' v x :=
  ReadStep.next (fun h => ReadStep.back (ReadStep.of_map (fun o => ReadStep.found _ 1 o) h)) hr

theorem ReadStep.getNextByKey {k v x : UInt64} {pm' : ObMap}
    (hr : pm.getNextByKey k v = some (pm', x)) : ReadStep pm pm' v x :=
  ReadStep.next (fun h => ReadStep.back (ReadStep.of_map (fun o => ReadStep.found _ 1 o) h)) hr

theorem ReadStep.getNextByKeySorted {k v x : UInt64} {pm' : ObMap}
    (hr : pm.getNextByKeySorted k v = some (pm', x)) : ReadStep pm pm' v x := by
  unfold ObMap.getNextByKeySorted at hr
  exact ReadStep.back (ReadStep.of_map (fun o => ReadStep.found _ 0 o) hr)

theorem ReadStep.getNextByIndex (idx : UInt32) (v : UInt64) :
    ReadStep pm (pm.getNextByIndex idx v).1 v (pm.getNextByIndex idx v).2.2 :=
  ReadStep.back (ReadStep.getByEntryIndex _)

theorem ReadStep.filter : ReadStep pm pm.filter 0 0 := by
  refine ⟨core_filter, _, rfl, fun y => by simp, fun v _ => ?_⟩
  rw [List.count_eq_zero.mpr (by simp), List.count_eq_zero.mpr (by simp)]
  simp

theorem ReadStep.moves {c : Call} {r : Ret} {pm' : ObMap}
    (hr : ReadStep pm pm' c.handedBack (c.handedOut r)) (hrm : c.removed r = 0)
    (hin : c.handedIn r = 0) : ∃ es, Moves pm pm' c r es := by
  obtain ⟨hcore, es, ht, hnf, hnet⟩ := hr
  have hh : ∀ v, pm'.holds v = pm.holds v := fun v => by simp only [holds, abs_eq_of_core hcore]
  have hob' := congrArg ObMap.fObjectsOb hcore
  have hlf' := congrArg ObMap.fObjectsLocalFree hcore
  refine ⟨es, hob', hlf', ht, fun hob _ v hv => ?_, fun _ _ v hv => ?_,
    fun x hx => absurd hx (hnf x)⟩
  · have := hnet v hv
    rw [if_pos hob] at this
    simp only [obHeld, tally_singleton, hh, Nat.cast_ite, Nat.cast_one, Nat.cast_zero, sub_self]
    omega
  · simp [lfOwned, hrm, hin, Ne.symm hv, List.count_eq_zero.mpr (hnf v), hh]

end Reads

section Updates

theorem Moves.of_removal {c : Call} {r : Ret} {pm' : ObMap} {x : UInt64}
    (hob : pm'.fObjectsOb = pm.fObjectsOb) (hlf : pm'.fObjectsLocalFree = pm.fObjectsLocalFree)
    (ht : pm'.trace = pm.trace) (hout : c.handedOut r = x) (hrm : c.removed r = x)
    (hb : c.handedBack = 0) (hin : pm.fObjectsLocalFree = true → c.handedIn r = 0)
    (hh : ∀ v, v ≠ 0 → (pm'.holds v : Int) + (if x = v then 1 else 0) = pm.holds v) :
    Moves pm pm' c r [] := by
  refine ⟨hob, hlf, by rw [ht, List.append_nil], fun _ _ v hv => ?_, fun _ hl v hv => ?_,
    fun y hy => absurd hy (List.not_mem_nil _)⟩
  · have := hh v hv
    simp only [obHeld, tally_singleton, hout, hb, List.count_nil, Nat.cast_ite, Nat.cast_one,
      Nat.cast_zero, if_neg (Ne.symm hv)]
    omega
  · have := hh v hv
    simp only [lfOwned, tally_singleton, hin hl, hrm, List.count_nil, Nat.cast_ite, Nat.cast_one,
      Nat.cast_zero, if_neg (Ne.symm hv)]
    omega

theorem Moves.of_same {c : Call} {r : Ret} {pm' : ObMap}
    (hob : pm'.fObjectsOb = pm.fObjectsOb) (hlf : pm'.fObjectsLocalFree = pm.fObjectsLocalFree)
    (ht : pm'.trace = pm.trace) (hout : c.handedOut r = 0) (hrm : c.removed r = 0)
    (hb : c.handedBack = 0) (hin : pm.fObjectsLocalFree = true → c.handedIn r = 0)
    (hh : ∀ v, pm'.holds v = pm.holds v) : Moves pm pm' c r [] :=
  Moves.of_removal hob hlf ht hout hrm hb hin fun v hv => by simp [hh, Ne.symm hv]

theorem Moves.of_append {c : Call} {r : Ret} {pm' : ObMap} {k x : UInt64}
    (ha : Appended pm pm' k x) (hc : 1 ≤ pm.c) (hout : c.handedOut r = 0) (hrm : c.removed r = 0)
    (hb : c.handedBack = 0) (hin : c.handedIn r = x) :
    Moves pm pm' c r (if pm.fObjectsOb then [.incref x] else []) := by
  have hh : ∀ v, (pm'.holds v : Int) = pm.holds v + if x = v then 1 else 0 := fun v => by
    simp [holds, Model.values, ha.liveEntries hc, List.count_singleton', Nat.cast_ite]
  refine ⟨ha.fObjectsOb, ha.fObjectsLocalFree, ha.trace, fun hob _ v hv => ?_,
    fun hob _ v hv => ?_, fun y hy => ?_⟩
  · simp [obHeld, hob, hout, hb, hh, Ne.symm hv, List.count_singleton', Nat.cast_ite]
  · simp [lfOwned, hob, hin, hrm, hh, Ne.symm hv, Nat.cast_ite]
  · cases pm.fObjectsOb <;> simp at hy

@[simp] theorem holds_emit (e : Effect) (v : UInt64) : (pm.emit e).holds v = pm.holds v := rfl

theorem Moves.of_failedCopy (hlf : pm.fObjectsLocalFree = true) (k pv : UInt64) :
    Moves pm (pm.emit (.localFree pv)) (.pushCopy k pv) (.bool false) [.localFree pv] := by
  refine ⟨rfl, rfl, rfl, fun _ hl => absurd hl (by rw [hlf]; decide), fun _ _ v hv => ?_,
    fun x hx => .inr ⟨k, by rw [Effect.localFree.inj (List.mem_singleton.mp hx)], rfl⟩⟩
  simp [lfOwned, Call.handedIn, Call.removed, Ne.symm hv, List.count_singleton', Nat.cast_ite]

theorem count_filterEffects (pfn : UInt64 → UInt64 → Bool) (v : UInt64) (l : List Entry) :
    (l.flatMap (pm.filterEffects pfn)).count (.incref v) = 0 ∧
      (l.flatMap (pm.filterEffects pfn)).count (.decref v) =
        (if pm.fObjectsOb then ((l.filter fun e => pfn e.k e.v).map Entry.v).count v else 0) ∧
      (l.flatMap (pm.filterEffects pfn)).count (.localFree v) =
        (if pm.fObjectsLocalFree then ((l.filter fun e => pfn e.k e.v).map Entry.v).count v
          else 0) := by
  induction l with
  | nil => simp
  | cons e l ih =>
    obtain ⟨h1, h2, h3⟩ := ih
    simp only [List.flatMap_cons, List.count_append, h1, h2, h3, filterEffects, releaseEffects,
      List.filter_cons]
    cases hp : pfn e.k e.v <;> cases pm.fObjectsOb <;> cases pm.fObjectsLocalFree <;>
      simp [List.count_cons] <;> omega

theorem count_map_filter_add (p : Entry → Bool) (v : UInt64) (l : List Entry) :
    (l.map Entry.v).count v =
      ((l.filter p).map Entry.v).count v + ((l.filter fun e => !p e).map Entry.v).count v := by
  induction l with
  | nil => rfl
  | cons e l ih => cases hp : p e <;> simp [List.filter_cons, hp, List.count_cons, ih] <;> omega

theorem holds_afterRemove {i : Nat} (hi : i ∈ pm.live) (tk tv : Nat → Nat) (v : UInt64) :
    ((pm.afterRemove i tk tv).holds v : Int) + (if (pm.entries i).v = v then 1 else 0) =
      pm.holds v := by
  obtain ⟨h1, h2⟩ := Prod.ext_iff.mp (abs_afterRemove hi tk tv)
  have hj : i - 1 < (abs pm).pairs.length := by
    rw [abs_pairs, length_liveEntries]; rw [mem_live] at hi; omega
  have hperm := ((perm_swapRemove _ hj).map Entry.v).count_eq v
  simp only [Model.removeAt] at h1 h2
  rw [h2, Model.at_eq_getElem hj]
  simp only [holds, Model.values, h1, hperm, List.map_cons, List.count_cons, beq_iff_eq]
  push_cast
  rfl

/-- The outward calls of `_ObMap_ObFreeAllObjects`: an `Ob_DECREF`, or else a `LocalFree`, of
each value held. -/
def freeEffects (pm : ObMap) : List Effect :=
  if pm.fObjectsOb then (abs pm).values.map .decref
  else if pm.fObjectsLocalFree then (abs pm).values.map .localFree else []

theorem obFreeAllObjects_trace : pm.obFreeAllObjects.trace = pm.trace ++ pm.freeEffects := by
  unfold obFreeAllObjects freeEffects
  split_ifs <;> simp [Model.values, liveEntries]

theorem obFreeAllObjects_core : pm.obFreeAllObjects.core = pm.core := by
  unfold obFreeAllObjects; split_ifs <;> rfl

theorem obHeld_freeEffects (hob : pm.fObjectsOb = true) (v : UInt64) :
    obHeld pm.freeEffects [] v = -(pm.holds v : Int) := by
  rw [freeEffects, if_pos hob, obHeld,
    List.count_map_of_injective _ _ (fun _ _ h => Effect.decref.inj h),
    List.count_eq_zero.mpr (by simp)]
  simp [holds]

theorem lfOwned_freeEffects (hob : pm.fObjectsOb = false) (hlf : pm.fObjectsLocalFree = true)
    (v : UInt64) : lfOwned pm.freeEffects [] v = -(pm.holds v : Int) := by
  rw [freeEffects, if_neg (by rw [hob]; decide), if_pos hlf, lfOwned,
    List.count_map_of_injective _ _ (fun _ _ h => Effect.localFree.inj h)]
  simp [holds]

theorem Moves.clear (h : pm.Inv) : Moves pm pm.clear .clear (.bool true) pm.freeEffects := by
  by_cases hc : 1 < pm.c
  · have hcore := clear_core hc
    have hob := congrArg ObMap.fObjectsOb hcore
    have hlf := congrArg ObMap.fObjectsLocalFree hcore
    have hnil : pm.clear.liveEntries = [] := List.eq_nil_of_length_eq_zero (by simp [h.clear.2])
    have hh : ∀ v, pm.clear.holds v = 0 := fun v => by simp [holds, Model.values, hnil]
    have ht : pm.clear.trace = pm.trace ++ pm.freeEffects := by
      rw [← obFreeAllObjects_trace]; simp [ObMap.clear, if_neg (show ¬pm.c ≤ 1 by omega)]
    refine ⟨hob, hlf, ht, fun ho _ v hv => ?_, fun ho hl v hv => ?_, fun x hx => ?_⟩
    · have := obHeld_append pm.freeEffects [] [] [(Call.clear, Ret.bool true)] v
      simp only [List.append_nil, List.nil_append] at this
      rw [this, obHeld_freeEffects ho, hh]
      simp [obHeld, show Call.handedOut .clear (.bool true) = 0 from rfl,
        show Call.handedBack .clear = 0 from rfl, Ne.symm hv]
    · have := lfOwned_append pm.freeEffects [] [] [(Call.clear, Ret.bool true)] v
      simp only [List.append_nil, List.nil_append] at this
      rw [this, lfOwned_freeEffects ho hl, hh]
      simp [lfOwned, show Call.handedIn .clear (.bool true) = 0 from rfl,
        show Call.removed .clear (.bool true) = 0 from rfl, Ne.symm hv]
    · left
      unfold freeEffects at hx
      split_ifs at hx <;> simp at hx
      exact hx
  · have hclear : pm.clear = pm := by simp [ObMap.clear]; omega
    have hnil : (abs pm).values = [] := by
      simp [Model.values,
        List.eq_nil_of_length_eq_zero (by simp; omega : pm.liveEntries.length = 0)]
    have hfree : pm.freeEffects = [] := by unfold freeEffects; split_ifs <;> simp [hnil]
    rw [hclear, hfree]
    exact Moves.of_same rfl rfl rfl rfl rfl rfl (fun _ => rfl) (fun _ => rfl)

end Updates

namespace Inv

variable (h : pm.Inv)
include h

theorem moves_removeOrRemoveByKey (f : Bool) (kv : UInt64) {c : Call}
    (hc : ∀ x, c.handedOut (.qword x) = x ∧ c.removed (.qword x) = x ∧
      c.handedIn (.qword x) = 0)
    (hb : c.handedBack = 0) :
    ∃ r, pm.removeOrRemoveByKey f kv = some r ∧ ∃ es, Moves pm r.1 c (.qword r.2) es := by
  obtain ⟨r, hr, -, hcase⟩ := h.removeOrRemoveByKey f kv
  refine ⟨r, hr, ?_⟩
  rcases hcase with ⟨i, hi, -, -, tk, tv, rfl⟩ | ⟨-, rfl⟩
  · exact ⟨_, Moves.of_removal rfl rfl rfl (hc _).1 (hc _).2.1 hb (fun _ => (hc _).2.2)
      fun v _ => holds_afterRemove hi tk tv v⟩
  · exact ⟨_, Moves.of_same rfl rfl rfl (hc 0).1 (hc 0).2.1 hb (fun _ => (hc 0).2.2)
      fun _ => rfl⟩

theorem moves_pop {c : Call} (ret : UInt64 × Option UInt64 → Ret)
    (hc : ∀ p, c.handedOut (ret p) = p.1 ∧ c.removed (ret p) = p.1 ∧ c.handedIn (ret p) = 0)
    (hb : c.handedBack = 0) : ∃ r, pm.pop = some r ∧ ∃ es, Moves pm r.1 c (ret r.2) es := by
  rcases h.pop with ⟨-, hpop⟩ | ⟨hc1, tk, tv, hpop, -⟩ <;> refine ⟨_, hpop, ?_⟩
  · exact ⟨_, Moves.of_same rfl rfl rfl (hc (0, none)).1 (hc (0, none)).2.1 hb
      (fun _ => (hc _).2.2) fun _ => rfl⟩
  · have hi : pm.c - 1 ∈ pm.live := by rw [mem_live]; omega
    exact ⟨_, Moves.of_removal rfl rfl rfl (hc _).1 (hc _).2.1 hb (fun _ => (hc _).2.2)
      fun v _ => holds_afterRemove hi tk tv v⟩

theorem moves_removeByFilter (pfn : UInt64 → UInt64 → Bool) :
    ∃ r, pm.removeByFilter pfn = some r ∧
      ∃ es, Moves pm r.1 (.removeByFilter pfn) (.count r.2) es := by
  obtain ⟨pm', n, hrun, hs⟩ := h.removeByFilter pfn
  obtain ⟨R, hL, hR⟩ := hs.prefix_
  have ht := hs.trace
  simp only [List.take_zero, List.nil_append, List.drop_zero] at hL hR ht
  have hrev := ((List.reverse_perm pm.liveEntries).flatMap_right (pm.filterEffects pfn)).count_eq
  have hkept : ∀ v, pm'.holds v =
      ((pm.liveEntries.filter fun e => !pfn e.k e.v).map Entry.v).count v := fun v => by
    rw [holds, Model.values, abs_pairs, hL]; exact (hR.map Entry.v).count_eq v
  have hcall : Call.handedOut (.removeByFilter pfn) (.count n) = 0 ∧
      Call.handedBack (.removeByFilter pfn) = 0 ∧ Call.handedIn (.removeByFilter pfn) (.count n) = 0 ∧
      Call.removed (.removeByFilter pfn) (.count n) = 0 := ⟨rfl, rfl, rfl, rfl⟩
  refine ⟨(pm', n), hrun, _, hs.flags.1, hs.flags.2.1, ht, fun hob _ v hv => ?_,
    fun hob hlf v hv => ?_, fun x hx => ?_⟩
  · obtain ⟨h1, h2, -⟩ := @count_filterEffects pm pfn v pm.liveEntries
    have := count_map_filter_add (fun e => pfn e.k e.v) v pm.liveEntries
    rw [if_pos hob] at h2
    rw [hkept]
    simp only [obHeld, tally_singleton, hcall.1, hcall.2.1, hrev, h1, h2, holds,
      Model.values, abs_pairs, if_neg (Ne.symm hv)]
    omega
  · obtain ⟨-, -, h3⟩ := @count_filterEffects pm pfn v pm.liveEntries
    have := count_map_filter_add (fun e => pfn e.k e.v) v pm.liveEntries
    rw [if_pos hlf] at h3
    rw [hkept]
    simp only [lfOwned, tally_singleton, hcall.2.2.1, hcall.2.2.2, hrev, h3, holds,
      Model.values, abs_pairs, if_neg (Ne.symm hv)]
    omega
  · left
    simp only [List.mem_flatMap, List.mem_reverse, filterEffects, releaseEffects] at hx
    obtain ⟨e, he, hx⟩ := hx
    simp only [List.mem_cons, reduceCtorEq, false_or] at hx
    split_ifs at hx <;> simp at hx
    all_goals exact hx ▸ List.mem_map_of_mem Entry.v he

theorem moves_sortEntryIndex (cmp : Entry → Entry → Int) {c : Call}
    (hc : c.handedOut (.bool true) = 0 ∧ c.removed (.bool true) = 0 ∧ c.handedBack = 0 ∧
      c.handedIn (.bool true) = 0) :
    ∃ pm', pm.sortEntryIndex cmp true = some (pm', true) ∧ Moves pm pm' c (.bool true) [] := by
  obtain ⟨pm', hs, -, hl, -, -, hob, hlf, ht⟩ := h.sortEntryIndex cmp
  refine ⟨pm', hs,
    Moves.of_same hob hlf ht hc.1 hc.2.1 hc.2.2.1 (fun _ => hc.2.2.2) fun v => ?_⟩
  rw [holds, holds, Model.values, abs_pairs, hl]
  exact ((List.mergeSort_perm _ _).map Entry.v).count_eq v

theorem getNextByKeySorted_some (k v : UInt64) : ∃ r, pm.getNextByKeySorted k v = some r := by
  obtain ⟨res, hres, -⟩ := h.indexOfKey k
  have hmax := h.c_le_max
  rw [OB_MAP_TABLE_MAX_CAPACITY_eq] at hmax
  obtain ⟨o, ho⟩ := qFind_some (show pm.c ≤ 2 ^ 32 by omega) k
  simp only [getNextByKeySorted, getEntryIndexFromKeyOrValue_ite_emit, qFind_ite_emit, hres]
  by_cases hk : k = 0
  · exact ⟨_, by rw [if_pos hk]; rfl⟩
  · rw [if_neg hk]
    rcases res with _ | i
    · exact ⟨_, by simp only [ho]; rfl⟩
    · exact ⟨_, rfl⟩

theorem moves (c : Call) :
    ∃ pm' r, pm.call allocOk c = some (pm', r) ∧ ∃ es, Moves pm pm' c r es := by
  cases c with
  | push k v =>
    obtain ⟨r, hr, -, hok, hrej, -⟩ := h.push k v
    refine ⟨r.1, .bool r.2, by simp [ObMap.call, hr], ?_⟩
    by_cases hf : pm.Fresh k v
    · obtain ⟨h2, ha⟩ := hok hf
      exact ⟨_, Moves.of_append ha h.c_pos rfl rfl rfl (by rw [h2]; rfl)⟩
    · rw [hrej hf]
      exact ⟨_, Moves.of_same rfl rfl rfl rfl rfl rfl (fun _ => rfl) fun _ => rfl⟩
  | pushCopy k pv =>
    obtain ⟨r, hr, -, hok, hfail, hskip⟩ := h.pushCopy k pv
    refine ⟨r.1, .bool r.2, by simp [ObMap.call, hr], ?_⟩
    by_cases hs : pm.fObjectsLocalFree = false ∨ pv = 0
    · rw [hskip hs]
      refine ⟨_, Moves.of_same rfl rfl rfl rfl rfl rfl (fun hl => ?_) fun _ => rfl⟩
      rcases hs with hs | hs
      · exact absurd (hs.symm.trans hl) Bool.false_ne_true
      · exact hs
    · have hlf : pm.fObjectsLocalFree = true := by simpa using (not_or.mp hs).1
      have hpv : pv ≠ 0 := (not_or.mp hs).2
      by_cases hf : pm.Fresh k pv
      · obtain ⟨h2, ha⟩ := hok hlf hf
        exact ⟨_, Moves.of_append ha h.c_pos rfl rfl rfl (by rw [h2]; rfl)⟩
      · rw [hfail hlf hpv hf]
        exact ⟨_, Moves.of_failedCopy hlf k pv⟩
  | remove v =>
    obtain ⟨r, hr, hm⟩ := h.moves_removeOrRemoveByKey true v (c := .remove v)
      (fun _ => ⟨rfl, rfl, rfl⟩) rfl
    exact ⟨r.1, _, by simp [ObMap.call, hr], hm⟩
  | removeByKey k =>
    obtain ⟨r, hr, hm⟩ := h.moves_removeOrRemoveByKey false k (c := .removeByKey k)
      (fun _ => ⟨rfl, rfl, rfl⟩) rfl
    exact ⟨r.1, _, by simp [ObMap.call, hr], hm⟩
  | pop =>
    obtain ⟨r, hr, hm⟩ := h.moves_pop (c := .pop) (fun p => .qword p.1)
      (fun _ => ⟨rfl, rfl, rfl⟩) rfl
    exact ⟨r.1, _, by simp [ObMap.call, hr], hm⟩
  | popWithKey =>
    obtain ⟨r, hr, hm⟩ := h.moves_pop (c := .popWithKey) (fun p => .withKey p.1 p.2)
      (fun _ => ⟨rfl, rfl, rfl⟩) rfl
    exact ⟨r.1, _, by simp [ObMap.call, hr], hm⟩
  | removeByFilter pfn =>
    obtain ⟨r, hr, hm⟩ := h.moves_removeByFilter pfn
    exact ⟨r.1, _, by simp [ObMap.call, hr], hm⟩
  | clear => exact ⟨_, _, rfl, _, Moves.clear h⟩
  | sortEntryIndex cmp =>
    obtain ⟨pm', hs, hm⟩ := h.moves_sortEntryIndex cmp (c := .sortEntryIndex cmp)
      ⟨rfl, rfl, rfl, rfl⟩
    exact ⟨pm', _, by simp [ObMap.call, allocOk, hs], _, hm⟩
  | sortEntryIndexByKey =>
    obtain ⟨pm', hs, hm⟩ := h.moves_sortEntryIndex sortEntryIndexByKeyCmpSort
      (c := .sortEntryIndexByKey) ⟨rfl, rfl, rfl, rfl⟩
    exact ⟨pm', _, by simp [ObMap.call, allocOk, hs], _, hm⟩
  | size => exact ⟨pm, _, rfl, (ReadStep.refl pm).moves rfl rfl⟩
  | exists_ v =>
    exact ⟨pm, .bool ((abs pm).exists_ v), by simp [ObMap.call, h.exists_abs v],
      (ReadStep.refl pm).moves rfl rfl⟩
  | existsKey k =>
    exact ⟨pm, .bool ((abs pm).existsKey k), by simp [ObMap.call, h.existsKey_abs k],
      (ReadStep.refl pm).moves rfl rfl⟩
  | getByIndex index => exact ⟨_, _, rfl, (ReadStep.getByEntryIndex _).moves rfl rfl⟩
  | getByKey k =>
    obtain ⟨⟨pm', x⟩, hr, -, -⟩ := h.getByKey_abs k
    exact ⟨pm', .qword x, by simp [ObMap.call, hr], (ReadStep.getByKey hr).moves rfl rfl⟩
  | getNext v =>
    obtain ⟨⟨pm', x⟩, hr, -, -⟩ := h.getNext_abs v
    exact ⟨pm', .qword x, by simp [ObMap.call, hr], (ReadStep.getNext hr).moves rfl rfl⟩
  | getNextByKey k v =>
    obtain ⟨⟨pm', x⟩, hr, -, -⟩ := h.getNextByKey_abs k v
    exact ⟨pm', .qword x, by simp [ObMap.call, hr], (ReadStep.getNextByKey hr).moves rfl rfl⟩
  | getNextByKeySorted k v =>
    obtain ⟨⟨pm', x⟩, hr⟩ := h.getNextByKeySorted_some k v
    exact ⟨pm', .qword x, by simp [ObMap.call, hr],
      (ReadStep.getNextByKeySorted hr).moves rfl rfl⟩
  | getNextByIndex idx v => exact ⟨_, _, rfl, (ReadStep.getNextByIndex idx v).moves rfl rfl⟩
  | getKey v =>
    exact ⟨pm, .qword ((abs pm).getKey v), by simp [ObMap.call, h.getKey_abs v],
      (ReadStep.refl pm).moves rfl rfl⟩
  | peek => exact ⟨_, _, rfl, (ReadStep.getByEntryIndex _).moves rfl rfl⟩
  | peekKey => exact ⟨pm, _, rfl, (ReadStep.refl pm).moves rfl rfl⟩
  | filter => exact ⟨_, _, rfl, ReadStep.filter.moves rfl rfl⟩

theorem runCalls_moves (cs : List Call) :
    ∃ pm' rs es, pm.runCalls cs = some (pm', rs) ∧ pm'.Inv ∧ pm'.trace = pm.trace ++ es ∧
      pm'.fObjectsOb = pm.fObjectsOb ∧ pm'.fObjectsLocalFree = pm.fObjectsLocalFree ∧
      (pm.fObjectsOb = true → pm.fObjectsLocalFree = false → ∀ v, v ≠ 0 →
        obHeld es (cs.zip rs) v = (pm'.holds v : Int) - pm.holds v) ∧
      (pm.fObjectsOb = false → pm.fObjectsLocalFree = true → ∀ v, v ≠ 0 →
        lfOwned es (cs.zip rs) v = (pm'.holds v : Int) - pm.holds v) := by
  induction cs generalizing pm with
  | nil =>
    exact ⟨pm, [], [], rfl, h, by rw [List.append_nil], rfl, rfl,
      fun _ _ v _ => by simp [obHeld], fun _ _ v _ => by simp [lfOwned]⟩
  | cons c cs ih =>
    obtain ⟨pm1, r, hc, es1, hm⟩ := h.moves c
    obtain ⟨pm', rs, es2, hrun, hinv, ht, hob, hlf, hOb, hLf⟩ := ih (h.call hc)
    refine ⟨pm', r :: rs, es1 ++ es2, by simp [runCalls, hc, hrun], hinv,
      by rw [ht, hm.trace, List.append_assoc], hob.trans hm.fObjectsOb,
      hlf.trans hm.fObjectsLocalFree, fun ho hl v hv => ?_, fun ho hl v hv => ?_⟩
    · rw [List.zip_cons_cons, ← List.singleton_append, obHeld_append, hm.ob ho hl v hv,
        hOb (hm.fObjectsOb.trans ho) (hm.fObjectsLocalFree.trans hl) v hv]
      omega
    · rw [List.zip_cons_cons, ← List.singleton_append, lfOwned_append, hm.lf ho hl v hv,
        hLf (hm.fObjectsOb.trans ho) (hm.fObjectsLocalFree.trans hl) v hv]
      omega

end Inv

/-- Every public call on a reachable map returns, whatever its arguments, every allocation
succeeding, and leaves a reachable map: no hash probe, no `_ObMap_QFind` on keys in any order
and no filter walk runs forever. -/
theorem reachable_call_returns (pm : ObMap) (h : Reachable pm) (c : Call) :
    ∃ pm' r, pm.call allocOk c = some (pm', r) ∧ Reachable pm' := by
  obtain ⟨pm', r, hc, -⟩ := h.inv.moves c
  exact ⟨pm', r, hc, h.call hc⟩

theorem reachable_call_returns_grow :
    Reachable (filled ⟨false, false, false⟩ 0xbf) ∧
      (filled ⟨false, false, false⟩ 0xbf).c =
        (filled ⟨false, false, false⟩ 0xbf).cHashGrowThreshold ∧
      ∃ pm' r, (filled ⟨false, false, false⟩ 0xbf).call allocOk (.push 0x180 0xc0) =
        some (pm', r) ∧ Reachable pm' ∧ pm'.fLargeMode = true := by
  have hs := filled_spec ⟨false, false, false⟩ rfl 0xbf (by decide)
  obtain ⟨hpush, hs'⟩ := hs.push (by decide)
  rw [show UInt64.ofNat (2 * (0xbf + 1)) = 0x180 from rfl,
    show UInt64.ofNat (0xbf + 1) = 0xc0 from rfl] at hpush
  obtain ⟨pm', r, hc, hR⟩ := reachable_call_returns _ hs.reachable (.push 0x180 0xc0)
  have hpm' : pm' = filled ⟨false, false, false⟩ (0xbf + 1) := by
    simp only [ObMap.call, hpush, Option.map_some', Option.some.injEq, Prod.mk.injEq] at hc
    exact hc.1.symm
  refine ⟨hs.reachable, by rw [hs.c, (hs.small (by decide)).2], pm', r, hc, hR, ?_⟩
  rw [hpm']
  exact hs'.large (by decide)

theorem ledger_balance {L : List Effect → List (Call × Ret) → UInt64 → Int}
    (happ : ∀ es es' crs crs' v, L (es ++ es') (crs ++ crs') v = L es crs v + L es' crs' v)
    (hinv : pm.Inv) {crs : List (Call × Ret)} {v : UInt64} (hheld : L pm.trace crs v = pm.holds v)
    (hfree : L pm.freeEffects [] v = -(pm.holds v : Int)) :
    L pm.trace crs v = (if v ∈ (abs pm).values then 1 else 0) ∧
      L pm.obCloseCallback.trace crs v = 0 := by
  rw [holds_eq_ite hinv.values_nodup] at hheld hfree
  refine ⟨by rw [hheld]; split_ifs <;> rfl, ?_⟩
  have hclose := happ pm.trace pm.freeEffects crs [] v
  rw [List.append_nil] at hclose
  rw [show pm.obCloseCallback.trace = pm.trace ++ pm.freeEffects from obFreeAllObjects_trace,
    hclose, hheld, hfree]
  split_ifs <;> rfl

end LeechCore.ObMap
