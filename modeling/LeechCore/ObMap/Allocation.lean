import LeechCore.ObMap.Ownership

/-!
# Allocation failures off the small-to-large switch

Each `LocalAlloc` a call reaches may fail, but the directory table of a small map's first grow.
Every call then keeps the invariant and does what the list model says, or, when one of the
allocations it reached failed, returns `FALSE` with the list of pairs unchanged.
-/

namespace LeechCore.ObMap

set_option autoImplicit false

open Function ListModel

variable {pm : ObMap}

/-- The allocation outcomes under which a call on `pm` cannot lose `Directory[0]`: the map is
already in large mode, or the directory table of the small-to-large switch is allocated. -/
def SafeAlloc (alloc : AllocSite → Bool) (pm : ObMap) : Prop :=
  pm.fLargeMode = true ∨ alloc .growDirectory = true

/-- The `LocalAlloc` calls a public call makes: those of `_ObMap_Grow` and `_ObMap_Push` on the
insert path, and the scratch buffer of `_ObMap_SortEntryIndex`. -/
def Call.allocSites : Call → List AllocSite
  | .push .. | .pushCopy .. => [.growHashMap, .growDirectory, .pushTable, .pushStore]
  | .sortEntryIndex _ | .sortEntryIndexByKey => [.sortBuffer]
  | _ => []

/-- The allocations of the path of `iEntry` that `_ObMap_Push` makes on `pm`: the table where
`Directory[d]` is `NULL`, then the store where `Directory[d][t]` is. -/
def pathSites (pm : ObMap) (iEntry : Nat) : List AllocSite :=
  if pm.tableAt (indexDirectory iEntry) then
    if pm.storeAt (indexDirectory iEntry) (indexTable iEntry) then [] else [.pushStore]
  else [.pushTable, .pushStore]

/-- The allocations `_ObMap_Push(pm, qwKey, pvObject)` makes, each one before it succeeding: none
when a check rejects the pair; at the threshold the doubled hash map and, in a small map, the
directory table; then those of the path of index `c` on the grown map. -/
def pushSites (pm : ObMap) (qwKey pvObject : UInt64) : List AllocSite :=
  if pvObject = 0 ∨ pm.exists_ true pvObject = some true ∨ pm.exists_ false qwKey = some true ∨
      pm.c = OB_MAP_TABLE_MAX_CAPACITY then [] else
  if pm.c = pm.cHashGrowThreshold then
    .growHashMap :: ((if pm.fLargeMode then [] else [.growDirectory]) ++
      (pm.grow allocOk).elim [] fun r => r.1.pathSites pm.c)
  else pm.pathSites pm.c

/-- The allocations a public call makes on `pm`, each one before it succeeding. -/
def Call.sitesOn (pm : ObMap) : Call → List AllocSite
  | .push k v => pm.pushSites k v
  | .pushCopy k pv => if pm.fObjectsLocalFree = false ∨ pv = 0 then [] else pm.pushSites k pv
  | .sortEntryIndex _ | .sortEntryIndexByKey => [.sortBuffer]
  | _ => []

theorem safeAlloc_allocOk (pm : ObMap) : SafeAlloc allocOk pm := .inr rfl

/-- What a call the list model describes may do on `pm` when allocations can fail: what the model
says when every allocation the call makes succeeds, and otherwise return `FALSE` with the list
unchanged. -/
def StepAlloc (alloc : AllocSite → Bool) (pm : ObMap) (c : Call) (m' : Model) (r : Ret) : Prop :=
  if (c.sitesOn pm).all alloc then (abs pm).Step c m' r else m' = abs pm ∧ r = .bool false

theorem call_eq_allocOk {c : Call} (hc : c.allocSites = []) (alloc : AllocSite → Bool) :
    pm.call alloc c = pm.call allocOk c := by
  cases c <;> first | rfl | exact absurd hc (List.cons_ne_nil _ _)

theorem SameContent.abs {pm' : ObMap} (hs : SameContent pm pm') : abs pm' = abs pm := by
  simp only [ObMap.abs, hs.fKey, hs.liveEntries]

theorem grow_eq_allocOk {alloc : AllocSite → Bool} (ha : alloc .growHashMap = true)
    (hsafe : SafeAlloc alloc pm) : pm.grow alloc = pm.grow allocOk := by
  rcases hsafe with hL | hd
  · simp only [ObMap.grow, ha, hL, allocOk, Bool.not_true, Bool.false_eq_true, if_false,
      Bool.not_false, Bool.false_and, if_true]
  · simp only [ObMap.grow, ha, hd, allocOk, Bool.not_true, Bool.false_eq_true, if_false,
      Bool.and_false]

theorem sortEntryIndex_false (pm : ObMap) (cmp : Entry → Entry → Int) :
    pm.sortEntryIndex cmp false = some (pm, false) := rfl

theorem call_sort_alloc {c : Call} (hc : c.allocSites = [.sortBuffer]) (alloc : AllocSite → Bool) :
    pm.call alloc c = if alloc .sortBuffer then pm.call allocOk c else some (pm, .bool false) := by
  cases c <;> simp only [Call.allocSites, List.cons.injEq, reduceCtorEq, false_and] at hc <;>
    simp only [ObMap.call] <;> cases alloc .sortBuffer <;> rfl

theorem allocatePath_sites (pm : ObMap) (alloc : AllocSite → Bool) (i : Nat) :
    ((pm.pathSites i).all alloc = true → pm.allocatePath alloc i = pm.allocatePath allocOk i) ∧
      ((pm.pathSites i).all alloc = false → (pm.allocatePath alloc i).2 = false) := by
  unfold pathSites allocatePath
  cases ht : pm.tableAt (indexDirectory i) <;>
    cases hs : pm.storeAt (indexDirectory i) (indexTable i) <;> cases hT : alloc .pushTable <;>
    cases hS : alloc .pushStore <;> simp [ht, hs, hT, hS, allocOk]

theorem sameContent_allocatePath (alloc : AllocSite → Bool) (i : Nat) :
    SameContent pm (pm.allocatePath alloc i).1 := by
  obtain ⟨ta, sa, ok, hP, -⟩ := allocatePath_spec pm alloc i
  rw [hP]
  exact ⟨rfl, rfl, rfl, rfl, rfl, rfl⟩

namespace Inv

variable (h : pm.Inv)
include h

theorem push_checks_iff (k v : UInt64) :
    (v = 0 ∨ pm.exists_ true v = some true ∨ pm.exists_ false k = some true ∨
      pm.c = OB_MAP_TABLE_MAX_CAPACITY) ↔ ¬ pm.Fresh k v := by
  obtain ⟨bv, hbv, hbv'⟩ := h.exists_value v
  obtain ⟨bk, hbk, hbk'⟩ := h.exists_key k
  have hc := h.c_le_max
  rw [hbv, hbk, Option.some.injEq, Option.some.injEq, hbv', hbk']
  constructor
  · rintro (hv | ⟨-, i, hi, he⟩ | ⟨hk, i, hi, he⟩ | hcm) ⟨hv0, hval, hkey, hlt⟩
    exacts [hv0 hv, hval i hi he, hkey hk i hi he, by omega]
  · intro hnf
    by_contra hno
    push_neg at hno
    exact hnf ⟨hno.1, hno.2.1 hno.1, hno.2.2.1, lt_of_le_of_ne hc hno.2.2.2⟩

theorem push_reject {k v : UInt64} (hf : ¬ pm.Fresh k v) (alloc : AllocSite → Bool) :
    pm.push k v alloc = some (pm, false) := by
  by_cases hv0 : v = 0
  · simp [ObMap.push, hv0]
  obtain ⟨bv, hbv, hbv'⟩ := h.exists_value v
  obtain ⟨bk, hbk, hbk'⟩ := h.exists_key k
  cases bv; swap
  · simp [ObMap.push, hv0, hbv]
  cases bk; swap
  · simp [ObMap.push, hv0, hbv, hbk]
  have hcm : pm.c = OB_MAP_TABLE_MAX_CAPACITY := by
    by_contra hcm
    exact hf ⟨hv0, fun i hi he => Bool.false_ne_true (hbv'.mpr ⟨hv0, i, hi, he⟩),
      fun hk i hi he => Bool.false_ne_true (hbk'.mpr ⟨hk, i, hi, he⟩),
      lt_of_le_of_ne h.c_le_max hcm⟩
  simp [ObMap.push, hv0, hbv, hbk, hcm]

theorem push_fresh {k v : UInt64} (hf : pm.Fresh k v) (alloc : AllocSite → Bool) :
    pm.push k v alloc =
      (if pm.c = pm.cHashGrowThreshold then pm.grow alloc else some (pm, true)).bind fun r =>
        if !r.2 then some (r.1, false) else
        if !(r.1.allocatePath alloc pm.c).2 then some ((r.1.allocatePath alloc pm.c).1, false) else
        ((r.1.allocatePath alloc pm.c).1.storeEntry pm.c k v).map fun pm => (pm, true) := by
  obtain ⟨hv0, hv, hk, hmax⟩ := hf
  obtain ⟨bv, hbv, hbv'⟩ := h.exists_value v
  obtain ⟨bk, hbk, hbk'⟩ := h.exists_key k
  have hbv0 : bv = false := Bool.eq_false_iff.mpr fun hb => by
    obtain ⟨-, i, hi, he⟩ := hbv'.mp hb; exact hv i hi he
  have hbk0 : bk = false := Bool.eq_false_iff.mpr fun hb => by
    obtain ⟨hkey, i, hi, he⟩ := hbk'.mp hb; exact hk hkey i hi he
  simp only [ObMap.push, hv0, hbv, hbv0, hbk, hbk0, if_false, Option.some_bind, Bool.false_eq_true,
    if_neg (Nat.ne_of_lt hmax)]

theorem growIfFull_alloc {alloc : AllocSite → Bool} (hsafe : SafeAlloc alloc pm) :
    ∃ pmG okG, (if pm.c = pm.cHashGrowThreshold then pm.grow alloc else some (pm, true)) =
        some (pmG, okG) ∧ SameContent pm pmG ∧ pmG.Inv ∧
      (okG = true → pm.c < pmG.cHashGrowThreshold) ∧ (alloc .growHashMap = true → okG = true) := by
  by_cases hT : pm.c = pm.cHashGrowThreshold
  · cases ha : alloc .growHashMap
    · exact ⟨pm, false, by simp [hT, ObMap.grow, ha], .refl pm, h, fun h' => absurd h' (by simp),
        fun h' => absurd h' (by simp)⟩
    · obtain ⟨pmG, hg, hs, hi, ht⟩ := h.grow (show allocOk .growHashMap = true from rfl) rfl
      have := h.c_pos
      exact ⟨pmG, true, by rw [if_pos hT, grow_eq_allocOk ha hsafe, hg], hs, hi,
        fun _ => by omega, fun _ => rfl⟩
  · exact ⟨pm, true, if_neg hT, .refl pm, h, fun _ => lt_of_le_of_ne h.c_le hT, fun _ => rfl⟩

theorem push_alloc (k v : UInt64) {alloc : AllocSite → Bool} (hsafe : SafeAlloc alloc pm) :
    ∃ r, pm.push k v alloc = some r ∧ r.1.Inv ∧
      (r.2 = true → pm.Fresh k v ∧ Appended pm r.1 k v) ∧ (r.2 = false → SameContent pm r.1) ∧
      (pm.Fresh k v → alloc .growHashMap = true → alloc .pushTable = true →
        alloc .pushStore = true → r.2 = true) := by
  by_cases hf : pm.Fresh k v
  swap
  · exact ⟨(pm, false), h.push_reject hf alloc, h, fun h' => absurd h' Bool.false_ne_true,
      fun _ => .refl pm, fun h' => absurd h' hf⟩
  rw [h.push_fresh hf alloc]
  obtain ⟨pmG, okG, hG, hsG, hinvG, hltG, hokG⟩ := h.growIfFull_alloc hsafe
  cases okG
  · exact ⟨(pmG, false), by simp only [hG, Option.some_bind, Bool.not_false, if_true], hinvG,
      fun h' => absurd h' Bool.false_ne_true, fun _ => hsG,
      fun _ ha _ _ => absurd (hokG ha) Bool.false_ne_true⟩
  obtain ⟨ta, sa, ok, hP, hres, hnew, hok⟩ := allocatePath_spec pmG alloc pm.c
  have hsP : SameContent pmG { pmG with tableAt := ta, storeAt := sa } :=
    ⟨rfl, rfl, rfl, rfl, rfl, rfl⟩
  have hinvP : ({ pmG with tableAt := ta, storeAt := sa } : ObMap).Inv :=
    hinvG.of_sameContent hsP hinvG.c_le hinvG.pow2 hinvG.max_ge hinvG.threshold hinvG.small
      (by simpa [Resolves, indexDirectory, indexTable] using hres 0 (by
        simpa [Resolves, indexDirectory, indexTable] using hinvG.store00))
      (fun i hi => hres i (hinvG.resolves i (hsP.live ▸ hi))) hinvG.hashValue.valid
      fun hk => (hinvG.hashKey hk).valid
  have hcP : ({ pmG with tableAt := ta, storeAt := sa } : ObMap).c = pm.c := hsG.c
  cases ok
  · exact ⟨(_, false), by simp only [hG, hP, Option.some_bind, Bool.not_true, Bool.not_false,
      Bool.false_eq_true, if_false, if_true], hinvP, fun h' => absurd h' Bool.false_ne_true,
      fun _ => hsG.trans hsP, fun _ _ ht hs => absurd (hok ht hs) Bool.false_ne_true⟩
  obtain ⟨pm', hS, hA, hinv', -⟩ := hinvP.storeEntry (by rw [hcP]; exact hltG rfl)
    (by rw [hcP]; exact hnew rfl) ((hsG.trans hsP).fresh hf)
  refine ⟨(pm', true), ?_, hinv', fun _ => ⟨hf, (hsG.trans hsP).appended hA⟩,
    fun h' => Bool.noConfusion h', fun _ _ _ _ => rfl⟩
  simp only [hG, hP, Option.some_bind, Bool.not_true, Bool.false_eq_true, if_false]
  rw [← hcP, hS]
  rfl

theorem pushCopy_alloc (k pvCopy : UInt64) {alloc : AllocSite → Bool}
    (hsafe : SafeAlloc alloc pm) :
    ∃ r, pm.pushCopy k pvCopy alloc = some r ∧ r.1.Inv ∧
      (r.2 = true → pm.Fresh k pvCopy ∧ Appended pm r.1 k pvCopy) ∧
      (r.2 = false → abs r.1 = abs pm) := by
  by_cases hskip : pm.fObjectsLocalFree = false ∨ pvCopy = 0
  · refine ⟨(pm, false), ?_, h, fun h' => absurd h' Bool.false_ne_true, fun _ => rfl⟩
    rcases hskip with hl | hp
    · simp [ObMap.pushCopy, hl]
    · simp [ObMap.pushCopy, hp]
  obtain ⟨hl, hp⟩ : pm.fObjectsLocalFree = true ∧ pvCopy ≠ 0 := by simpa [not_or] using hskip
  obtain ⟨r, hr, hinv, hok, hfail, -⟩ := h.push_alloc k pvCopy hsafe
  have hpc : pm.pushCopy k pvCopy alloc =
      some (if r.2 then r else (r.1.emit (.localFree pvCopy), false)) := by
    simp [ObMap.pushCopy, hl, hp, hr]
  cases hr2 : r.2
  · refine ⟨_, hpc, by simpa [hr2] using hinv.emit (.localFree pvCopy),
      fun h' => by simp [hr2] at h', fun _ => ?_⟩
    simpa [hr2] using (hfail hr2).abs
  · exact ⟨r, by simpa [hr2] using hpc, hinv, fun _ => hok hr2, fun h' => by simp [hr2] at h'⟩

theorem push_sites (k v : UInt64) {alloc : AllocSite → Bool} (hsafe : SafeAlloc alloc pm) :
    ((pm.pushSites k v).all alloc = true → pm.push k v alloc = pm.push k v allocOk) ∧
      ((pm.pushSites k v).all alloc = false →
        ∃ pm', pm.push k v alloc = some (pm', false) ∧ SameContent pm pm') := by
  by_cases hf : pm.Fresh k v
  swap
  · rw [pushSites, if_pos ((h.push_checks_iff k v).mpr hf), h.push_reject hf, h.push_reject hf]
    exact ⟨fun _ => rfl, fun h' => by simp at h'⟩
  have hchk := mt (h.push_checks_iff k v).mp (not_not.mpr hf)
  rw [h.push_fresh hf alloc, h.push_fresh hf allocOk]
  have hpath : ∀ pmG : ObMap, SameContent pm pmG →
      ((pmG.pathSites pm.c).all alloc = true →
        (if !(pmG.allocatePath alloc pm.c).2 then some ((pmG.allocatePath alloc pm.c).1, false) else
          ((pmG.allocatePath alloc pm.c).1.storeEntry pm.c k v).map fun pm => (pm, true)) =
        if !(pmG.allocatePath allocOk pm.c).2 then some ((pmG.allocatePath allocOk pm.c).1, false)
        else ((pmG.allocatePath allocOk pm.c).1.storeEntry pm.c k v).map fun pm => (pm, true)) ∧
      ((pmG.pathSites pm.c).all alloc = false → ∃ pm', (if !(pmG.allocatePath alloc pm.c).2 then
          some ((pmG.allocatePath alloc pm.c).1, false) else
          ((pmG.allocatePath alloc pm.c).1.storeEntry pm.c k v).map fun pm => (pm, true)) =
          some (pm', false) ∧ SameContent pm pm') := fun pmG hs => by
    obtain ⟨hok, hfail⟩ := allocatePath_sites pmG alloc pm.c
    exact ⟨fun hall => by rw [hok hall], fun hall => ⟨_, by rw [hfail hall]; rfl,
      hs.trans (sameContent_allocatePath alloc pm.c)⟩⟩
  by_cases hT : pm.c = pm.cHashGrowThreshold
  · obtain ⟨pmG, hg, hsG, -⟩ := h.grow (show allocOk .growHashMap = true from rfl) rfl
    have hsites : pm.pushSites k v = .growHashMap ::
        ((if pm.fLargeMode then [] else [.growDirectory]) ++ pmG.pathSites pm.c) := by
      rw [pushSites, if_neg hchk, if_pos hT, hg]; rfl
    rw [hsites, if_pos hT, if_pos hT]
    cases ha : alloc .growHashMap
    · refine ⟨fun hall => absurd hall (by simp [ha]), fun _ => ⟨pm, ?_, .refl pm⟩⟩
      simp [ObMap.grow, ha]
    have hdir : (if pm.fLargeMode then [] else [AllocSite.growDirectory]).all alloc = true := by
      rcases hsafe with hL | hd
      · simp [hL]
      · split_ifs <;> simp [hd]
    rw [grow_eq_allocOk ha hsafe, hg, Option.some_bind, Option.some_bind]
    simp only [List.all_cons, ha, List.all_append, hdir, Bool.true_and, Bool.not_true,
      Bool.false_eq_true, if_false]
    exact hpath pmG hsG
  · rw [pushSites, if_neg hchk, if_neg hT, if_neg hT, if_neg hT, Option.some_bind, Option.some_bind]
    simp only [Bool.not_true, Bool.false_eq_true, if_false]
    exact hpath pm (.refl pm)

theorem call_alloc {c : Call} {alloc : AllocSite → Bool} (hsafe : SafeAlloc alloc pm)
    {pm' : ObMap} {r : Ret} (hc : pm.call alloc c = some (pm', r)) : pm'.Inv := by
  have hsort : c.allocSites = [.sortBuffer] → pm'.Inv := fun hs => by
    rw [call_sort_alloc hs] at hc
    split_ifs at hc
    · exact h.call hc
    · cases hc; exact h
  cases c
  case push k v =>
    obtain ⟨r', hr', hinv, -⟩ := h.push_alloc k v hsafe
    simp only [ObMap.call, hr', Option.map_some', Option.some.injEq, Prod.mk.injEq] at hc
    exact hc.1 ▸ hinv
  case pushCopy k v =>
    obtain ⟨r', hr', hinv, -⟩ := h.pushCopy_alloc k v hsafe
    simp only [ObMap.call, hr', Option.map_some', Option.some.injEq, Prod.mk.injEq] at hc
    exact hc.1 ▸ hinv
  case sortEntryIndex | sortEntryIndexByKey => exact hsort rfl
  all_goals rw [call_eq_allocOk] at hc; exacts [h.call hc, rfl]

theorem call_sites (c : Call) {alloc : AllocSite → Bool} (hsafe : SafeAlloc alloc pm) :
    ((c.sitesOn pm).all alloc = true → pm.call alloc c = pm.call allocOk c) ∧
      ((c.sitesOn pm).all alloc = false → c.InModel = true →
        ∃ pm', pm.call alloc c = some (pm', .bool false) ∧ abs pm' = abs pm) := by
  have hsort : c.sitesOn pm = [.sortBuffer] → c.allocSites = [.sortBuffer] →
      ((c.sitesOn pm).all alloc = true → pm.call alloc c = pm.call allocOk c) ∧
      ((c.sitesOn pm).all alloc = false → c.InModel = true →
        ∃ pm', pm.call alloc c = some (pm', .bool false) ∧ abs pm' = abs pm) := fun hs ha => by
    rw [hs, call_sort_alloc ha, call_sort_alloc ha]
    cases hb : alloc .sortBuffer
    · exact ⟨fun h' => absurd h' (by simp [hb]), fun _ _ => ⟨pm, rfl, rfl⟩⟩
    · exact ⟨fun _ => rfl, fun h' => absurd h' (by simp [hb])⟩
  cases c
  case push k v =>
    obtain ⟨hok, hfail⟩ := h.push_sites k v hsafe
    refine ⟨fun hall => by simp only [ObMap.call, hok hall], fun hall _ => ?_⟩
    obtain ⟨pm', hp, hs⟩ := hfail hall
    exact ⟨pm', by simp [ObMap.call, hp], hs.abs⟩
  case pushCopy k pv =>
    refine ⟨fun hall => ?_, fun _ hc => absurd hc Bool.false_ne_true⟩
    simp only [Call.sitesOn] at hall
    by_cases hskip : pm.fObjectsLocalFree = false ∨ pv = 0
    · rcases hskip with h' | h' <;> simp [ObMap.call, ObMap.pushCopy, h']
    · rw [if_neg hskip] at hall
      simp only [ObMap.call, ObMap.pushCopy, (h.push_sites k pv hsafe).1 hall]
  case sortEntryIndex | sortEntryIndexByKey => exact hsort rfl rfl
  all_goals exact ⟨fun _ => call_eq_allocOk (by rfl) alloc, fun h' => by simp [Call.sitesOn] at h'⟩

theorem refines_alloc (c : Call) (hc : c.InModel = true) {alloc : AllocSite → Bool}
    (hsafe : SafeAlloc alloc pm) :
    ∃ pm' r, pm.call alloc c = some (pm', r) ∧ StepAlloc alloc pm c (abs pm') r := by
  obtain ⟨hok, hfail⟩ := h.call_sites c hsafe
  cases hall : (c.sitesOn pm).all alloc
  · obtain ⟨pm', hcall, habs⟩ := hfail hall hc
    exact ⟨pm', _, hcall, by simp only [StepAlloc, hall, Bool.false_eq_true, if_false, habs,
      and_self]⟩
  · obtain ⟨pm', r, hcall, hs⟩ := h.refines c hc
    exact ⟨pm', r, (hok hall).trans hcall, by simp only [StepAlloc, hall, if_true]; exact hs⟩

end Inv

/-- The maps a program can hold when any `LocalAlloc` may fail but the directory table of a
small map's first grow: one `ObMap_New` returned, and everything a call leaves on one of them. -/
inductive ReachableAlloc : ObMap → Prop
  | new {flags : Flags} {pm : ObMap} : ObMap.new flags = some pm → ReachableAlloc pm
  | call {pm pm' : ObMap} {c : Call} {r : Ret} {alloc : AllocSite → Bool} :
      ReachableAlloc pm → SafeAlloc alloc pm → pm.call alloc c = some (pm', r) → ReachableAlloc pm'

theorem Reachable.reachableAlloc (h : Reachable pm) : ReachableAlloc pm := by
  induction h with
  | new hnew => exact .new hnew
  | call _ hc ih => exact .call ih (safeAlloc_allocOk _) hc

theorem ReachableAlloc.inv (h : ReachableAlloc pm) : pm.Inv := by
  induction h with
  | new hnew => exact Reachable.inv (.new hnew)
  | call _ hsafe hc ih => exact ih.call_alloc hsafe hc

/-- Every map reachable from `ObMap_New` by public calls, whatever each `LocalAlloc` returns but
the directory table of a small map's first grow, satisfies the representation invariant. -/
theorem reachable_alloc_representation (pm : ObMap) (h : ReachableAlloc pm) : pm.Representation :=
  h.inv.representation

theorem reachable_alloc_representation_sortBuffer :
    ∃ pm, (filled ⟨false, false, false⟩ 2).call (fun s => s != .sortBuffer) .sortEntryIndexByKey =
        some (pm, .bool false) ∧ ReachableAlloc pm ∧ pm.size = 2 ∧ pm.Representation := by
  have hs := filled_spec ⟨false, false, false⟩ rfl 2 (by decide)
  have hcall : (filled ⟨false, false, false⟩ 2).call (fun s => s != .sortBuffer)
      .sortEntryIndexByKey = some (filled ⟨false, false, false⟩ 2, .bool false) := rfl
  have hR : ReachableAlloc (filled ⟨false, false, false⟩ 2) :=
    .call hs.reachable.reachableAlloc (.inr rfl) hcall
  exact ⟨_, hcall, hR, by simp [ObMap.size, hs.c], reachable_alloc_representation _ hR⟩

/-- Every call the list model describes, on a map reachable with any allocation failing but the
first grow's directory table, does what the model says when the allocations it reaches succeed
(then it is the all-succeeding call), and otherwise returns `FALSE` with the pairs unchanged. -/
theorem call_refines_alloc (pm : ObMap) (h : ReachableAlloc pm) (c : Call) (hc : c.InModel = true)
    (alloc : AllocSite → Bool) (hsafe : SafeAlloc alloc pm) :
    ∃ pm' r, pm.call alloc c = some (pm', r) ∧ StepAlloc alloc pm c (abs pm') r ∧
      ReachableAlloc pm' ∧ ((c.sitesOn pm).all alloc = true → pm.call alloc c = pm.call allocOk c) := by
  obtain ⟨pm', r, hcall, hs⟩ := h.inv.refines_alloc c hc hsafe
  exact ⟨pm', r, hcall, hs, .call h hsafe hcall, (h.inv.call_sites c hsafe).1⟩

theorem call_refines_alloc_sortBuffer :
    ReachableAlloc (filled ⟨false, false, false⟩ 2) ∧ Call.sortEntryIndexByKey.InModel = true ∧
      SafeAlloc (fun s => s != .sortBuffer) (filled ⟨false, false, false⟩ 2) ∧
      ∃ pm' r, (filled ⟨false, false, false⟩ 2).call (fun s => s != .sortBuffer)
          .sortEntryIndexByKey = some (pm', r) ∧
        StepAlloc (fun s => s != .sortBuffer) (filled ⟨false, false, false⟩ 2) .sortEntryIndexByKey
          (abs pm') r ∧ ReachableAlloc pm' ∧ r = .bool false ∧
        abs pm' = abs (filled ⟨false, false, false⟩ 2) := by
  have hR := (filled_spec ⟨false, false, false⟩ rfl 2 (by decide)).reachable.reachableAlloc
  obtain ⟨pm', r, hcall, hs, hR', -⟩ := call_refines_alloc _ hR .sortEntryIndexByKey rfl
    (fun s => s != .sortBuffer) (.inr rfl)
  simp only [StepAlloc, Call.sitesOn, List.all_cons, List.all_nil, bne_self_eq_false,
    Bool.false_and, Bool.false_eq_true, if_false] at hs
  exact ⟨hR, rfl, .inr rfl, pm', r, hcall, by simpa [StepAlloc, Call.sitesOn] using hs, hR', hs.2,
    hs.1⟩

section Ownership

theorem SameContent.emit {pm' : ObMap} (hs : SameContent pm pm') (e : Effect) :
    SameContent (pm.emit e) (pm'.emit e) :=
  ⟨hs.c, hs.entries, hs.fKey, hs.fObjectsOb, hs.fObjectsLocalFree, by simp [ObMap.emit, hs.trace]⟩

theorem Moves.of_sameContent {pm₁ pm₂ : ObMap} {c : Call} {r : Ret} {es : List Effect}
    (hm : Moves pm pm₁ c r es) (hs : SameContent pm₁ pm₂) : Moves pm pm₂ c r es := by
  have hh : ∀ v, pm₂.holds v = pm₁.holds v := fun v => by simp only [holds, hs.abs]
  exact ⟨hs.fObjectsOb.trans hm.fObjectsOb, hs.fObjectsLocalFree.trans hm.fObjectsLocalFree,
    hs.trace.trans hm.trace, fun ho hl v hv => by rw [hh]; exact hm.ob ho hl v hv,
    fun ho hl v hv => by rw [hh]; exact hm.lf ho hl v hv, hm.freed⟩

theorem Inv.moves_alloc (h : pm.Inv) (c : Call) {alloc : AllocSite → Bool}
    (hsafe : SafeAlloc alloc pm) :
    ∃ pm' r, pm.call alloc c = some (pm', r) ∧ pm'.Inv ∧ ∃ es, Moves pm pm' c r es := by
  have hsort : c.allocSites = [.sortBuffer] → c.handedOut (.bool false) = 0 →
      c.removed (.bool false) = 0 → c.handedBack = 0 → c.handedIn (.bool false) = 0 →
      ∃ pm' r, pm.call alloc c = some (pm', r) ∧ pm'.Inv ∧ ∃ es, Moves pm pm' c r es :=
    fun hs hout hrm hb hin => by
      rw [call_sort_alloc hs]
      cases alloc .sortBuffer
      · exact ⟨pm, .bool false, rfl, h, [],
          Moves.of_same rfl rfl rfl hout hrm hb (fun _ => hin) fun _ => rfl⟩
      · obtain ⟨pm', r, hcall, hm⟩ := h.moves c
        exact ⟨pm', r, hcall, h.call hcall, hm⟩
  cases c
  case push k v =>
    obtain ⟨r, hr, hinv, hok, hfail, -⟩ := h.push_alloc k v hsafe
    refine ⟨r.1, .bool r.2, by simp [ObMap.call, hr], hinv, ?_⟩
    cases hr2 : r.2
    · exact ⟨[], (Moves.of_same rfl rfl rfl rfl rfl rfl (fun _ => rfl) fun _ => rfl :
        Moves pm pm (.push k v) (.bool false) []).of_sameContent (hfail hr2)⟩
    · exact ⟨_, Moves.of_append (hok hr2).2 h.c_pos rfl rfl rfl rfl⟩
  case pushCopy k pv =>
    by_cases hskip : pm.fObjectsLocalFree = false ∨ pv = 0
    · refine ⟨pm, .bool false, ?_, h, [], Moves.of_same rfl rfl rfl rfl rfl rfl (fun hl => ?_)
        fun _ => rfl⟩
      · rcases hskip with hl | hp
        · simp [ObMap.call, ObMap.pushCopy, hl]
        · simp [ObMap.call, ObMap.pushCopy, hp]
      · rcases hskip with hs | hs
        · exact absurd (hs.symm.trans hl) Bool.false_ne_true
        · exact hs
    obtain ⟨hlf, hpv⟩ : pm.fObjectsLocalFree = true ∧ pv ≠ 0 := by simpa [not_or] using hskip
    obtain ⟨r, hr, hinv, hok, hfail, -⟩ := h.push_alloc k pv hsafe
    have hpc : pm.call alloc (.pushCopy k pv) =
        some ((if r.2 then r else (r.1.emit (.localFree pv), false)).1,
          .bool (if r.2 then r else (r.1.emit (.localFree pv), false)).2) := by
      simp [ObMap.call, ObMap.pushCopy, hlf, hpv, hr]
    cases hr2 : r.2
    · rw [hr2] at hpc
      exact ⟨_, _, hpc, hinv.emit _, _,
        (Moves.of_failedCopy hlf k pv).of_sameContent ((hfail hr2).emit _)⟩
    · rw [hr2] at hpc
      exact ⟨_, _, hpc, hinv, _, Moves.of_append (hok hr2).2 h.c_pos rfl rfl rfl rfl⟩
  case sortEntryIndex | sortEntryIndexByKey => exact hsort rfl rfl rfl rfl rfl
  all_goals
    rw [call_eq_allocOk]
    · obtain ⟨pm', r, hcall, hm⟩ := h.moves _
      exact ⟨pm', r, hcall, h.call hcall, hm⟩
    · rfl

/-- The calls in order, each with the outcomes of its own `LocalAlloc` calls, each on the map the
one before left. -/
def runCallsWith (pm : ObMap) : List ((AllocSite → Bool) × Call) → Option (ObMap × List Ret)
  | [] => some (pm, [])
  | (alloc, c) :: run => (pm.call alloc c).bind fun r =>
    (runCallsWith r.1 run).map fun r' => (r'.1, r.2 :: r'.2)

theorem Inv.runCallsWith_moves (h : pm.Inv) (run : List ((AllocSite → Bool) × Call))
    (hdir : ∀ a ∈ run, a.1 .growDirectory = true) :
    ∃ pm' rs es, pm.runCallsWith run = some (pm', rs) ∧ pm'.Inv ∧ pm'.trace = pm.trace ++ es ∧
      pm'.fObjectsOb = pm.fObjectsOb ∧ pm'.fObjectsLocalFree = pm.fObjectsLocalFree ∧
      (pm.fObjectsOb = true → pm.fObjectsLocalFree = false → ∀ v, v ≠ 0 →
        obHeld es ((run.map Prod.snd).zip rs) v = (pm'.holds v : Int) - pm.holds v) ∧
      (pm.fObjectsOb = false → pm.fObjectsLocalFree = true → ∀ v, v ≠ 0 →
        lfOwned es ((run.map Prod.snd).zip rs) v = (pm'.holds v : Int) - pm.holds v) := by
  induction run generalizing pm with
  | nil =>
    exact ⟨pm, [], [], rfl, h, by rw [List.append_nil], rfl, rfl,
      fun _ _ v _ => by simp [obHeld], fun _ _ v _ => by simp [lfOwned]⟩
  | cons a run ih =>
    obtain ⟨alloc, c⟩ := a
    obtain ⟨pm1, r, hc, hinv1, es1, hm⟩ :=
      h.moves_alloc c (.inr (hdir _ (List.mem_cons_self _ _)))
    obtain ⟨pm', rs, es2, hrun, hinv, ht, hob, hlf, hOb, hLf⟩ :=
      ih hinv1 fun a ha => hdir a (List.mem_cons_of_mem _ ha)
    refine ⟨pm', r :: rs, es1 ++ es2, by simp [runCallsWith, hc, hrun], hinv,
      by rw [ht, hm.trace, List.append_assoc], hob.trans hm.fObjectsOb,
      hlf.trans hm.fObjectsLocalFree, fun ho hl v hv => ?_, fun ho hl v hv => ?_⟩
    · rw [List.map_cons, List.zip_cons_cons, ← List.singleton_append, obHeld_append,
        hm.ob ho hl v hv, hOb (hm.fObjectsOb.trans ho) (hm.fObjectsLocalFree.trans hl) v hv]
      omega
    · rw [List.map_cons, List.zip_cons_cons, ← List.singleton_append, lfOwned_append,
        hm.lf ho hl v hv, hLf (hm.fObjectsOb.trans ho) (hm.fObjectsLocalFree.trans hl) v hv]
      omega

/-- With any allocation failing but the first grow's directory table, the reference ledger of each
object of an `OB` map (and the ownership ledger of a `LOCALFREE` map) is one while the map holds
it and zero otherwise, and zero after the close callback. -/
theorem references_balance_alloc (flags : Flags) (pm0 : ObMap) (hnew : ObMap.new flags = some pm0)
    (run : List ((AllocSite → Bool) × Call)) (hdir : ∀ a ∈ run, a.1 .growDirectory = true) :
    ∃ pm rs, pm0.runCallsWith run = some (pm, rs) ∧ ∀ v, v ≠ 0 →
      (flags.objectOb = true →
        obHeld pm.trace ((run.map Prod.snd).zip rs) v = (if v ∈ (abs pm).values then 1 else 0) ∧
          obHeld pm.obCloseCallback.trace ((run.map Prod.snd).zip rs) v = 0) ∧
      (flags.objectLocalFree = true →
        lfOwned pm.trace ((run.map Prod.snd).zip rs) v = (if v ∈ (abs pm).values then 1 else 0) ∧
          lfOwned pm.obCloseCallback.trace ((run.map Prod.snd).zip rs) v = 0) := by
  have hflags : (flags.objectOb && flags.objectLocalFree) = false := by
    unfold ObMap.new at hnew; split_ifs at hnew with hb; simpa using hb
  obtain rfl : pm0 = ObMap.empty flags := by simpa [ObMap.new, hflags] using hnew.symm
  obtain ⟨pm, rs, es, hrun, hinv, ht, hob, hlf, hOb, hLf⟩ := (Inv.empty flags).runCallsWith_moves run hdir
  have htr : pm.trace = es := by simpa [ObMap.empty] using ht
  have hempty : ∀ v, (ObMap.empty flags).holds v = 0 := fun _ => rfl
  refine ⟨pm, rs, hrun, fun v hv => ⟨fun ho => ?_, fun hl => ?_⟩⟩
  · have hl : flags.objectLocalFree = false := by simpa [ho] using hflags
    have hheld := hOb ho hl v hv
    rw [← htr, hempty v, Nat.cast_zero, sub_zero] at hheld
    exact ledger_balance obHeld_append hinv hheld (obHeld_freeEffects (hob.trans ho) v)
  · have ho : flags.objectOb = false := by simpa [hl] using hflags
    have hheld := hLf ho hl v hv
    rw [← htr, hempty v, Nat.cast_zero, sub_zero] at hheld
    exact ledger_balance lfOwned_append hinv hheld
      (lfOwned_freeEffects (hob.trans ho) (hlf.trans hl) v)

theorem references_balance_alloc_sortBuffer :
    ObMap.new ⟨false, true, false⟩ = some (ObMap.empty ⟨false, true, false⟩) ∧
      (∀ a ∈ [(allocOk, Call.push 2 1), (allocOk, .push 4 2),
        ((fun s => s != .sortBuffer : AllocSite → Bool), .sortEntryIndexByKey), (allocOk, .pop)],
        a.1 .growDirectory = true) ∧
      ∃ pm rs, (ObMap.empty ⟨false, true, false⟩).runCallsWith [(allocOk, Call.push 2 1),
          (allocOk, .push 4 2), ((fun s => s != .sortBuffer : AllocSite → Bool), .sortEntryIndexByKey),
          (allocOk, .pop)] = some (pm, rs) ∧ rs = [.bool true, .bool true, .bool false, .qword 2] ∧
        ∀ v, v ≠ 0 →
        ((⟨false, true, false⟩ : Flags).objectOb = true →
          obHeld pm.trace ([Call.push 2 1, .push 4 2, .sortEntryIndexByKey, .pop].zip rs) v =
              (if v ∈ (abs pm).values then 1 else 0) ∧
            obHeld pm.obCloseCallback.trace
              ([Call.push 2 1, .push 4 2, .sortEntryIndexByKey, .pop].zip rs) v = 0) ∧
        ((⟨false, true, false⟩ : Flags).objectLocalFree = true →
          lfOwned pm.trace ([Call.push 2 1, .push 4 2, .sortEntryIndexByKey, .pop].zip rs) v =
              (if v ∈ (abs pm).values then 1 else 0) ∧
            lfOwned pm.obCloseCallback.trace
              ([Call.push 2 1, .push 4 2, .sortEntryIndexByKey, .pop].zip rs) v = 0) := by
  obtain ⟨pm, rs, hrun, hbal⟩ := references_balance_alloc ⟨false, true, false⟩
    (ObMap.empty ⟨false, true, false⟩) rfl [(allocOk, Call.push 2 1), (allocOk, .push 4 2),
      ((fun s => s != .sortBuffer : AllocSite → Bool), .sortEntryIndexByKey), (allocOk, .pop)]
    (by decide)
  have hrs := congrArg (Option.map Prod.snd) hrun
  rw [show ((ObMap.empty ⟨false, true, false⟩).runCallsWith [(allocOk, Call.push 2 1),
      (allocOk, .push 4 2), ((fun s => s != .sortBuffer : AllocSite → Bool), .sortEntryIndexByKey),
      (allocOk, .pop)]).map Prod.snd = some [.bool true, .bool true, .bool false, .qword 2]
    by decide, Option.map_some', Option.some.injEq] at hrs
  exact ⟨rfl, by decide, pm, rs, hrun, hrs.symm, hbal⟩

end Ownership

section Runs

end Runs

end LeechCore.ObMap
