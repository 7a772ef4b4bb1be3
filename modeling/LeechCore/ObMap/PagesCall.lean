import LeechCore.ObMap.Pages

/-!
# The calls on the pages

`Pages.call` makes each public call's writes through the pages. Every call keeps `Mirrors` off
the failed directory table of a small map's first grow, so the pages of every map a program can
hold (`ReachablePages`) hold what the model says.
-/

namespace LeechCore.ObMap

set_option autoImplicit false

open Function

variable {pm : ObMap} {pg : Pages}

section Routines

theorem entries_insertHash {f : Bool} {i : Nat} {pm' : ObMap} (h : pm.insertHash f i = some pm') :
    pm'.entries = pm.entries := by
  unfold insertHash at h
  split_ifs at h
  · cases h; rfl
  · split at h <;> cases h
    unfold setHashIndex; split_ifs <;> rfl

theorem entries_removeHash {f : Bool} {kv : UInt64} {i : Nat} {pm' : ObMap}
    (h : pm.removeHash f kv i = some pm') : pm'.entries = pm.entries := by
  unfold removeHash at h
  split_ifs at h
  · cases h; rfl
  · obtain ⟨t, -, rfl⟩ := Option.map_eq_some'.mp h; cases f <;> rfl

theorem entries_insertHashUpTo (f : Bool) :
    ∀ (k : Nat) (pm : ObMap) {pm' : ObMap}, insertHashUpTo f k pm = some pm' → pm'.entries = pm.entries
  | 0, pm, _, h => by cases h; rfl
  | k + 1, pm, _, h => by
    obtain ⟨pm1, h1, h2⟩ := Option.bind_eq_some.mp h
    exact (entries_insertHash h2).trans (entries_insertHashUpTo f k pm h1)

theorem entries_growRehash :
    ∀ (k : Nat) (pm : ObMap) {pm' : ObMap}, growRehash k pm = some pm' → pm'.entries = pm.entries
  | 0, pm, _, h => by cases h; rfl
  | k + 1, pm, _, h => by
    obtain ⟨pm1, h1, h2⟩ := Option.bind_eq_some.mp h
    obtain ⟨pm2, h3, h4⟩ := Option.bind_eq_some.mp h2
    exact ((entries_insertHash h4).trans (entries_insertHash h3)).trans (entries_growRehash k pm h1)

theorem entries_storeEntry {i : Nat} {k v : UInt64} {pm' : ObMap}
    (h : pm.storeEntry i k v = some pm') : pm'.entries = update pm.entries i ⟨k, v⟩ := by
  obtain ⟨pm1, h1, h2⟩ := Option.bind_eq_some.mp h
  rw [entries_insertHash h2, entries_insertHash h1]
  split_ifs <;> rfl

theorem entries_clear : pm.clear.entries = pm.entries := by
  unfold ObMap.clear obFreeAllObjects; split_ifs <;> rfl

theorem entries_sortEntryIndex {cmp : Entry → Entry → Int} {r : ObMap × Bool}
    (h : pm.sortEntryIndex cmp true = some r) :
    r.1.entries = (pm.writeEntries (qsort cmp pm.liveEntries)).entries := by
  unfold sortEntryIndex at h
  simp only [Bool.not_true, Bool.false_eq_true, if_false] at h
  obtain ⟨pm2, h2, rfl⟩ := Option.map_eq_some'.mp h
  obtain ⟨pm1, h1, h3⟩ := Option.bind_eq_some.mp h2
  rw [entries_insertHashUpTo _ _ _ h3, setHashTable_entries]
  split_ifs at h1
  · rw [entries_insertHashUpTo _ _ _ h1, setHashTable_entries]
  · cases h1; rfl

end Routines

theorem Inv.small_path (h : pm.Inv) (hL : pm.fLargeMode = false) {i : Nat} (hi : i ≤ pm.c) :
    indexDirectory i = 0 ∧ indexTable i = 0 := by
  have := h.small hL
  have := h.threshold
  have := h.c_le
  simp only [indexDirectory_eq, indexTable_eq, Nat.reducePow]
  omega

namespace Mirrors

theorem of_sameShape {pm' : ObMap} (h : Mirrors pm pg) (hs : SameShape pm pm')
    (he : pm'.entries = pm.entries) : Mirrors pm' pg :=
  h.congr hs.fLargeMode hs.tableAt hs.storeAt he

theorem grow (h : Mirrors pm pg) (hi : pm.Inv) {alloc : AllocSite → Bool}
    (hsafe : SafeAlloc alloc pm) {pmG : ObMap} {ok : Bool} (hg : pm.grow alloc = some (pmG, ok)) :
    (pg.grow pm.fLargeMode alloc).2 = ok ∧ Mirrors pmG (pg.grow pm.fLargeMode alloc).1 := by
  unfold ObMap.grow at hg
  unfold Pages.grow
  cases ha : alloc .growHashMap
  · simp only [ha, Bool.not_false, if_true, Option.some.injEq, Prod.mk.injEq] at hg ⊢
    obtain ⟨rfl, rfl⟩ := hg
    exact ⟨rfl, h⟩
  have hsh : ∀ {q pm₂ : ObMap} {pg' : Pages},
      growRehash (q.doubleHashMaps.c - 1) q.doubleHashMaps = some pm₂ → Mirrors q pg' →
      Mirrors pm₂ pg' := fun h₂ hq => by
    have hs := sameShape_growRehash _ _ h₂
    exact hq.congr hs.fLargeMode hs.tableAt hs.storeAt (by rw [entries_growRehash _ _ h₂]; rfl)
  cases hL : pm.fLargeMode
  · have hd : alloc .growDirectory = true := hsafe.resolve_left (by simp [hL])
    simp only [ha, hL, hd, Bool.not_true, Bool.false_and, Bool.false_eq_true, Bool.true_eq_false,
      and_false, if_false] at hg ⊢
    obtain ⟨pm₂, h₂, he⟩ := Option.map_eq_some'.mp hg
    cases he
    exact ⟨rfl, hsh h₂ ((h.toLargeMode hL hi.store00).withAlloc _ _ _)⟩
  · simp only [ha, hL, Bool.not_true, Bool.false_and, Bool.false_eq_true, Bool.true_eq_false,
      false_and, if_false, if_true] at hg ⊢
    obtain ⟨pm₂, h₂, he⟩ := Option.map_eq_some'.mp hg
    cases he
    exact ⟨rfl, hsh h₂ (h.withAlloc _ _ _)⟩

theorem allocatePath (h : Mirrors pm pg) (alloc : AllocSite → Bool) {i : Nat}
    (h00 : pm.tableAt 0 = true ∧ pm.storeAt 0 0 = true)
    (hsmall : pm.fLargeMode = false → indexDirectory i = 0 ∧ indexTable i = 0) :
    (pg.allocatePath alloc i).2 = (pm.allocatePath alloc i).2 ∧
      Mirrors (pm.allocatePath alloc i).1 (pg.allocatePath alloc i).1 := by
  have hlarge : pm.storeAt (indexDirectory i) (indexTable i) = false → pm.fLargeMode = true :=
    fun hs => by
      cases hL : pm.fLargeMode
      · rw [(hsmall hL).1, (hsmall hL).2, h00.2] at hs; cases hs
      · rfl
  unfold ObMap.allocatePath Pages.allocatePath
  cases hA : pm.tableAt (indexDirectory i)
  · have hdn : pg.directory (indexDirectory i) = .null := not_not.mp (mt (h.table _).mpr (by simp [hA]))
    have hL := hlarge (Bool.eq_false_iff.mpr fun hs => by rw [h.store_table _ _ hs] at hA; cases hA)
    have h₁ := h.allocTable hL h00.1 hA
    have hs₁ : (pg.allocTable (indexDirectory i)).store (indexDirectory i) (indexTable i) = .null := by
      simp [Pages.store, Pages.allocTable, Pages.slot]
    cases ht : alloc .pushTable
    · simp [hA, hdn, ht]
      exact h
    cases hs : alloc .pushStore
    · simp [hA, hdn, ht, hs, hs₁]
      exact h₁
    · simp [hA, hdn, ht, hs, hs₁]
      have hd0 : (0 : Nat) ≠ indexDirectory i := fun he => by rw [← he, h00.1] at hA; cases hA
      refine (h₁.allocStore (d := indexDirectory i) (t := indexTable i) hL (by simp) (by simp)
        (by simp [update_noteq hd0, h00.2])).congr rfl rfl ?_ rfl
      simp
  · have hdn : pg.directory (indexDirectory i) ≠ .null := (h.table _).mp hA
    cases hB : pm.storeAt (indexDirectory i) (indexTable i)
    · have hsn : pg.store (indexDirectory i) (indexTable i) = .null :=
        not_not.mp (mt (h.store _ _ hA).mpr (by simp [hB]))
      cases hs : alloc .pushStore
      · simp [hA, hB, hdn, hsn, hs]
        exact h
      · simp [hA, hB, hdn, hsn, hs]
        exact h.allocStore (hlarge hB) hA hB h00.2
    · have hsn : pg.store (indexDirectory i) (indexTable i) ≠ .null := (h.store _ _ hA).mp hB
      simp [hA, hB, hdn, hsn]
      exact h.congr rfl rfl (update_eq_self_iff.mpr (update_eq_self_iff.mpr hB.symm)) rfl

theorem push (h : Mirrors pm pg) (hi : pm.Inv) {alloc : AllocSite → Bool}
    (hsafe : SafeAlloc alloc pm) {k v : UInt64} {r : ObMap × Bool}
    (hr : pm.push k v alloc = some r) : Mirrors r.1 (pg.push pm k v alloc) := by
  by_cases hf : pm.Fresh k v
  swap
  · rw [hi.push_reject hf alloc] at hr
    cases hr
    rw [Pages.push, if_pos ((hi.push_checks_iff k v).mpr hf)]
    exact h
  rw [hi.push_fresh hf alloc] at hr
  rw [Pages.push, if_neg fun hc => (hi.push_checks_iff k v).mp hc hf]
  obtain ⟨pmG, okG, hG, hsG, hinvG, -, -⟩ := hi.growIfFull_alloc hsafe
  have hMG : (if pm.c = pm.cHashGrowThreshold then pg.grow pm.fLargeMode alloc else (pg, true)).2 =
      okG ∧ Mirrors pmG
        (if pm.c = pm.cHashGrowThreshold then pg.grow pm.fLargeMode alloc else (pg, true)).1 := by
    split_ifs at hG ⊢
    · exact h.grow hi hsafe hG
    · cases hG; exact ⟨rfl, h⟩
  rw [hG, Option.some_bind] at hr
  dsimp only
  generalize (if pm.c = pm.cHashGrowThreshold then pg.grow pm.fLargeMode alloc else (pg, true)) = rG
    at hMG ⊢
  obtain ⟨hokG, hMG⟩ := hMG
  rw [hokG]
  cases okG
  · simp only [Bool.not_false, if_true, Option.some.injEq] at hr
    subst hr
    exact hMG
  obtain ⟨hok, hMP⟩ := hMG.allocatePath alloc (i := pm.c) hinvG.store00
    fun hL => hinvG.small_path hL hsG.c.ge
  obtain ⟨ta, sa, ok, hP, -, hnew, -⟩ := allocatePath_spec pmG alloc pm.c
  rw [hP] at hok hMP hr
  simp only [Bool.not_true, Bool.false_eq_true, if_false] at hr ⊢
  rw [hok]
  cases ok
  · simp only [Bool.not_false, if_true, Option.some.injEq] at hr
    subst hr
    exact hMP
  simp only [Bool.not_true, Bool.false_eq_true, if_false, Option.map_eq_some'] at hr
  obtain ⟨pm', hS, rfl⟩ := hr
  have hs := sameShape_storeEntry hS
  exact (hMP.write hf.2.2.2 (hnew rfl) ⟨k, v⟩).congr hs.fLargeMode hs.tableAt hs.storeAt
    (entries_storeEntry hS)

theorem retrieveAndRemove (h : Mirrors pm pg) (hi : pm.Inv) {i : Nat}
    {r : ObMap × UInt64 × Option UInt64} (hr : pm.retrieveAndRemoveByEntryIndex i = some r) :
    Mirrors r.1 (pg.retrieveAndRemove pm i) := by
  have hc := hi.c_le_max
  unfold Pages.retrieveAndRemove
  by_cases hlive : i ∈ pm.live
  · obtain ⟨tk, tv, hR, -⟩ := hi.retrieveAndRemove hlive
    rw [hR] at hr
    cases hr
    have hi' := mem_live.mp hlive
    split_ifs with hlt
    · have hlast : pm.c - 1 ∈ pm.live := mem_live.mpr ⟨by omega, by omega⟩
      rw [h.read _ (by omega) (hi.resolves _ hlast)]
      exact (h.write (by omega) (hi.resolves i hlive) (pm.entries (pm.c - 1))).congr rfl rfl rfl rfl
    · have hi1 : i = pm.c - 1 := by omega
      exact h.congr rfl rfl rfl (by simp [afterRemove, hi1])
  · have hnone : pm.getFromIndex i = none := by
      rw [mem_live] at hlive
      simp only [getFromIndex]
      rw [if_pos (by omega)]
    unfold retrieveAndRemoveByEntryIndex at hr
    rw [hnone] at hr
    cases hr
    rw [if_neg fun hlt => hlive (mem_live.mpr ⟨hlt.1, by omega⟩)]
    exact h

theorem removeOrRemoveByKey (h : Mirrors pm pg) (hi : pm.Inv) {f : Bool} {kv : UInt64}
    {r : ObMap × UInt64} (hr : pm.removeOrRemoveByKey f kv = some r) :
    Mirrors r.1 (pg.removeOrRemoveByKey pm f kv) := by
  unfold ObMap.removeOrRemoveByKey at hr
  unfold Pages.removeOrRemoveByKey
  split_ifs at hr ⊢
  · cases hr; exact h
  · split at hr
    · rename_i iEntry heq
      simp only [heq]
      obtain ⟨r', hr', rfl⟩ := Option.map_eq_some'.mp hr
      exact h.retrieveAndRemove hi hr'
    · rename_i heq
      simp only [heq]
      cases hr; exact h
    · cases hr

theorem removeByFilterLoop (pfn : UInt64 → UInt64 → Bool) :
    ∀ (n : Nat) (pm : ObMap) (pg : Pages) (cRemove : Nat) {r : ObMap × Nat}, Mirrors pm pg →
      pm.Inv → n < pm.c → ObMap.removeByFilterLoop pfn n pm cRemove = some r →
      Mirrors r.1 (Pages.removeByFilterLoop pfn n pm pg)
  | 0, pm, pg, _, r, h, _, _, hr => by cases hr; exact h
  | n + 1, pm, pg, cRemove, r, h, hi, hn, hr => by
    simp only [ObMap.removeByFilterLoop] at hr
    simp only [Pages.removeByFilterLoop]
    have he : Mirrors (pm.emit (.filter (pm.entries (n + 1)).k (pm.entries (n + 1)).v)) pg :=
      h.congr rfl rfl rfl rfl
    have hie := hi.emit (.filter (pm.entries (n + 1)).k (pm.entries (n + 1)).v)
    split_ifs at hr ⊢
    · obtain ⟨tk, tv, hR, hinv⟩ := hie.retrieveAndRemove (i := n + 1) (mem_live.mpr ⟨by omega, hn⟩)
      have hM := he.retrieveAndRemove hie hR
      rw [hR] at hr ⊢
      refine removeByFilterLoop pfn n _ _ _ ?_ (hinv.of_core (by rw [release_eq]; rfl)) ?_ hr
      · rw [release_eq]; exact hM.congr rfl rfl rfl rfl
      · rw [release_eq]; simp only [afterRemove, emit]; omega
    · exact removeByFilterLoop pfn n _ _ _ he hie (by simp only [emit]; omega) hr

theorem writeFrom : ∀ (l : List Entry) (k : Nat) (pm : ObMap) (pg : Pages), Mirrors pm pg →
    (∀ j < l.length, k + j < OB_MAP_TABLE_MAX_CAPACITY ∧ pm.Resolves (k + j)) →
    Mirrors { pm with entries := fun i =>
      if k ≤ i ∧ i < k + l.length then l.getD (i - k) ⟨0, 0⟩ else pm.entries i }
      (Pages.writeFrom k l pg)
  | [], k, pm, pg, h, _ => h.congr rfl rfl rfl (funext fun i => if_neg fun hc => by
      simp only [List.length_nil, Nat.add_zero] at hc; omega)
  | e :: l, k, pm, pg, h, hres => by
    obtain ⟨hk, hrk⟩ := hres 0 (Nat.succ_pos _)
    rw [Nat.add_zero] at hk hrk
    have h₂ := writeFrom l (k + 1) _ _ (h.write hk hrk e) fun j hj => by
      have := hres (j + 1) (by simp only [List.length_cons]; omega)
      rw [show k + (j + 1) = k + 1 + j by omega] at this
      exact this
    refine h₂.congr rfl rfl rfl (funext fun i => ?_)
    simp only [List.length_cons]
    rcases Nat.lt_trichotomy i k with hlt | rfl | hgt
    · rw [if_neg (by omega), if_neg (by omega), update_noteq (by omega)]
    · rw [if_pos (by omega), if_neg (by omega), Nat.sub_self, update_same]; rfl
    · by_cases hin : i < k + 1 + l.length
      · rw [if_pos (by omega), if_pos (by omega)]
        obtain ⟨j, rfl⟩ : ∃ j, i = k + 1 + j := ⟨i - (k + 1), by omega⟩
        rw [show k + 1 + j - k = j + 1 by omega, show k + 1 + j - (k + 1) = j by omega]
        rfl
      · rw [if_neg (by omega), if_neg (by omega), update_noteq (by omega)]

theorem sortEntryIndex (h : Mirrors pm pg) (hi : pm.Inv) {cmp : Entry → Entry → Int} {b : Bool}
    {r : ObMap × Bool} (hr : pm.sortEntryIndex cmp b = some r) :
    Mirrors r.1 (pg.sortEntryIndex pm cmp b) := by
  unfold Pages.sortEntryIndex
  cases b
  · simp only [ObMap.sortEntryIndex, Bool.not_false, if_true, Option.some.injEq] at hr
    subst hr
    exact h
  have hc := hi.c_le_max
  have hlist : ((List.range (pm.c - 1)).map fun j => (pg.read (j + 1)).getD ⟨0, 0⟩) =
      pm.liveEntries := List.map_congr_left fun j hj => by
    rw [List.mem_range] at hj
    rw [h.read _ (by omega) (hi.resolves _ (mem_live.mpr ⟨by omega, by omega⟩))]; rfl
  simp only [Bool.true_eq_false, if_false, hlist]
  have hs := sameShape_sortEntryIndex hr
  refine (((h.withAlloc _ _ _).writeFrom _ 1 pm _ fun j hj => ?_).congr hs.fLargeMode hs.tableAt
    hs.storeAt ?_).withAlloc _ _ _
  · rw [length_qsort, length_liveEntries] at hj
    exact ⟨by omega, hi.resolves _ (mem_live.mpr ⟨by omega, by omega⟩)⟩
  · rw [entries_sortEntryIndex hr]
    funext i
    simp only [writeEntries]
    by_cases hin : 0 < i ∧ i ≤ (qsort cmp pm.liveEntries).length
    · rw [if_pos hin, if_pos (by omega)]
    · rw [if_neg hin, if_neg (by omega)]

theorem call (h : Mirrors pm pg) (hi : pm.Inv) {alloc : AllocSite → Bool}
    (hsafe : SafeAlloc alloc pm) {c : Call} {pm' : ObMap} {r : Ret}
    (hc : pm.call alloc c = some (pm', r)) : Mirrors pm' (pg.call pm alloc c) := by
  cases hs : c.shared
  swap
  · have he := core_call_shared hs hc
    have hpg : pg.call pm alloc c = pg := by
      cases c <;> simp only [Call.shared, Bool.false_eq_true] at hs <;> rfl
    have hL := congrArg ObMap.fLargeMode he
    have hT := congrArg ObMap.tableAt he
    have hS := congrArg ObMap.storeAt he
    have hE := congrArg ObMap.entries he
    rw [hpg]
    exact h.congr hL hT hS hE
  cases c <;> simp only [Call.shared, Bool.true_eq_false] at hs <;>
    simp only [ObMap.call, Option.map_eq_some', Option.some.injEq, Prod.mk.injEq] at hc <;>
    simp only [Pages.call]
  case push => obtain ⟨_, hr, rfl, -⟩ := hc; exact h.push hi hsafe hr
  case pushCopy k pv =>
    obtain ⟨_, hr, rfl, -⟩ := hc
    unfold ObMap.pushCopy at hr
    by_cases hskip : pm.fObjectsLocalFree = false ∨ pv = 0
    · rw [if_pos hskip]
      rw [if_pos (by rcases hskip with h' | h' <;> simp [h'])] at hr
      cases hr; exact h
    · rw [if_neg hskip]
      rw [if_neg (by simpa [not_or] using hskip)] at hr
      obtain ⟨r', hr', rfl⟩ := Option.map_eq_some'.mp hr
      have hM := h.push hi hsafe hr'
      split_ifs
      · exact hM
      · exact hM.congr rfl rfl rfl rfl
  case remove | removeByKey => obtain ⟨_, hr, rfl, -⟩ := hc; exact h.removeOrRemoveByKey hi hr
  case pop | popWithKey => obtain ⟨_, hr, rfl, -⟩ := hc; exact h.retrieveAndRemove hi hr
  case removeByFilter pfn =>
    obtain ⟨_, hr, rfl, -⟩ := hc
    exact Mirrors.removeByFilterLoop pfn _ _ _ _ h hi (by have := hi.c_pos; omega) hr
  case clear => rw [← hc.1]; exact h.of_sameShape sameShape_clear entries_clear
  case sortEntryIndex | sortEntryIndexByKey =>
    obtain ⟨_, hr, rfl, -⟩ := hc; exact h.sortEntryIndex hi hr

theorem mapM_eq_some_map {α β : Type} {f : α → Option β} {g : α → β} :
    ∀ {l : List α}, (∀ a ∈ l, f a = some (g a)) → l.mapM f = some (l.map g)
  | [], _ => rfl
  | a :: l, h => by
    rw [List.mapM_cons, h a (List.mem_cons_self a l),
      mapM_eq_some_map fun b hb => h b (List.mem_cons_of_mem a hb)]
    rfl

theorem obFreeAllObjects (h : Mirrors pm pg) (hi : pm.Inv) :
    pg.obFreeAllObjects pm = some pm.freeEffects := by
  have hvalues : (abs pm).values = (List.range (pm.c - 1)).map fun j => (pm.entries (j + 1)).v := by
    simp [ListModel.Model.values, liveEntries]
  have hread : ((List.range (pm.c - 1)).mapM fun j => (pg.read (j + 1)).map Entry.v) =
      some (abs pm).values := by
    rw [hvalues]
    refine mapM_eq_some_map fun j hj => ?_
    have hlive : j + 1 ∈ pm.live := by rw [mem_live]; rw [List.mem_range] at hj; omega
    rw [h.read _ (lt_of_lt_of_le (mem_live.mp hlive).2 hi.c_le_max) (hi.resolves _ hlive)]
    rfl
  simp only [Pages.obFreeAllObjects, hread, freeEffects]
  split_ifs <;> rfl

end Mirrors

section Runs

/-- The maps a program can hold, with their pages, when any `LocalAlloc` may fail but the
directory table of a small map's first grow. -/
inductive ReachablePages : ObMap → Pages → Prop
  | new {flags : Flags} {pm : ObMap} : ObMap.new flags = some pm → ReachablePages pm Pages.new
  | call {pm pm' : ObMap} {pg : Pages} {c : Call} {r : Ret} {alloc : AllocSite → Bool} :
      ReachablePages pm pg → SafeAlloc alloc pm → pm.call alloc c = some (pm', r) →
      ReachablePages pm' (pg.call pm alloc c)

theorem ReachablePages.empty {flags : Flags} (h : (flags.objectOb && flags.objectLocalFree) = false) :
    ReachablePages (ObMap.empty flags) Pages.new :=
  .new (show ObMap.new flags = _ by simp only [ObMap.new, h, Bool.false_eq_true, if_false])

theorem ReachablePages.reachableAlloc (h : ReachablePages pm pg) : ReachableAlloc pm := by
  induction h with
  | new hnew => exact .new hnew
  | call _ hsafe hc ih => exact .call ih hsafe hc

theorem ReachablePages.mirrors (h : ReachablePages pm pg) : Mirrors pm pg := by
  induction h with
  | @new flags pm hnew =>
    simp only [ObMap.new] at hnew
    split_ifs at hnew
    cases hnew
    exact Mirrors.new flags
  | call hR hsafe hc ih => exact ih.call hR.reachableAlloc.inv hsafe hc

theorem ReachableAlloc.pages (h : ReachableAlloc pm) : ∃ pg, ReachablePages pm pg := by
  induction h with
  | new hnew => exact ⟨_, .new hnew⟩
  | call _ hsafe hc ih =>
    obtain ⟨pg, hpg⟩ := ih
    exact ⟨_, .call hpg hsafe hc⟩

/-- Every reachable map satisfies the representation invariant and has pages, in which
`Directory[0]` is `_SmallTable` in small mode, `Directory[0][0]` is `Store00`, and the path of
every live index is set and holds its entry. -/
theorem reachable_representation_invariant (pm : ObMap) (h : Reachable pm) :
    pm.Representation ∧ (∃ pg, ReachablePages pm pg) ∧
      ∀ pg, ReachablePages pm pg →
        (pm.fLargeMode = false → pg.directory 0 = .smallTable ∧ pg.smallTable = .store00) ∧
        pg.store 0 0 = .store00 ∧
        ∀ i ∈ pm.live, pg.directory (indexDirectory i) ≠ .null ∧
          pg.store (indexDirectory i) (indexTable i) ≠ .null ∧ pg.read i = some (pm.entries i) := by
  have hi := h.inv
  refine ⟨hi.representation, h.reachableAlloc.pages, fun pg hpg => ?_⟩
  have hM := hpg.mirrors
  have h00 := hM.store00 hi.store00.1
  refine ⟨fun hL => ?_, h00, fun i hil => ?_⟩
  · have hd := (hM.small hL 0 hi.store00.1).2
    refine ⟨hd, ?_⟩
    simpa [Pages.store, hd, Pages.slot] using h00
  · obtain ⟨ht, hs⟩ := hi.resolves i hil
    exact ⟨(hM.table _).mp ht, (hM.store _ _ ht).mp hs,
      hM.read i (lt_of_lt_of_le (mem_live.mp hil).2 hi.c_le_max) ⟨ht, hs⟩⟩

theorem reachable_representation_invariant_grown :
    Reachable (filled ⟨false, false, false⟩ 0xc0) ∧
      (filled ⟨false, false, false⟩ 0xc0).fLargeMode = true ∧
      (filled ⟨false, false, false⟩ 0xc0).Representation ∧
      ∃ pg, ReachablePages (filled ⟨false, false, false⟩ 0xc0) pg ∧ (∃ n, pg.directory 0 = .heap n) ∧
        pg.store 0 0 = .store00 ∧ pg.read 0xc0 = some ⟨0x180, 0xc0⟩ := by
  have hs := filled_spec ⟨false, false, false⟩ rfl 0xc0 (by decide)
  have hL := hs.large le_rfl
  obtain ⟨hrep, ⟨pg, hpg⟩, hpages⟩ := reachable_representation_invariant _ hs.reachable
  obtain ⟨-, h00, hlive⟩ := hpages pg hpg
  have hc : 0xc0 ∈ (filled ⟨false, false, false⟩ 0xc0).live := by rw [mem_live, hs.c]; omega
  have hdir : ∃ n, pg.directory 0 = .heap n := by
    rcases hpg.mirrors.table_ptr hs.reachable.inv.store00.1 with ⟨hL', -⟩ | ⟨-, n, -, hn⟩
    · rw [hL] at hL'; cases hL'
    · exact ⟨n, hn⟩
  refine ⟨hs.reachable, hL, hrep, pg, hpg, hdir, h00, ?_⟩
  rw [(hlive 0xc0 hc).2.2, hs.entries 0xc0 hc]
  rfl

/-- The pages of every map a program can hold hold each live entry at `Directory[d][t][s]`, and a
write there changes no other live entry. -/
theorem pages_hold_live_entries (pm : ObMap) (pg : Pages) (h : ReachablePages pm pg) :
    ∀ i ∈ pm.live, pg.read i = some (pm.entries i) ∧
      ∀ j ∈ pm.live, ∀ e : Entry, (pg.write i e).read j = if j = i then some e else pg.read j := by
  have hi := h.reachableAlloc.inv
  have hM := h.mirrors
  have hlt : ∀ i ∈ pm.live, i < OB_MAP_TABLE_MAX_CAPACITY := fun i hi' =>
    lt_of_lt_of_le (mem_live.mp hi').2 hi.c_le_max
  exact fun i hi' => ⟨hM.read i (hlt i hi') (hi.resolves i hi'), fun j hj e =>
    hM.read_write (hlt i hi') (hlt j hj) (hi.resolves i hi') (hi.resolves j hj) e⟩

theorem pages_hold_live_entries_grown :
    ∃ pg, ReachablePages (filled ⟨false, false, false⟩ 0xc0) pg ∧
      (∀ i ∈ (filled ⟨false, false, false⟩ 0xc0).live,
        pg.read i = some ((filled ⟨false, false, false⟩ 0xc0).entries i) ∧
        ∀ j ∈ (filled ⟨false, false, false⟩ 0xc0).live, ∀ e : Entry,
          (pg.write i e).read j = if j = i then some e else pg.read j) ∧
      pg.read 1 = some ⟨2, 1⟩ ∧ (pg.write 1 ⟨0, 7⟩).read 0xc0 = some ⟨0x180, 0xc0⟩ := by
  have hs := filled_spec ⟨false, false, false⟩ rfl 0xc0 (by decide)
  obtain ⟨pg, hpg⟩ := hs.reachable.reachableAlloc.pages
  have hlive := pages_hold_live_entries _ pg hpg
  have h1 : 1 ∈ (filled ⟨false, false, false⟩ 0xc0).live := by rw [mem_live, hs.c]; omega
  have hc : 0xc0 ∈ (filled ⟨false, false, false⟩ 0xc0).live := by rw [mem_live, hs.c]; omega
  refine ⟨pg, hpg, hlive, by rw [(hlive 1 h1).1, hs.entries 1 h1]; rfl, ?_⟩
  rw [(hlive 1 h1).2 0xc0 hc, if_neg (by decide), (hlive 0xc0 hc).1, hs.entries 0xc0 hc]
  rfl

/-- `_ObMap_ObCloseCallback` frees the blocks `0..next-1`, each once, never `_SmallTable` or
`Store00`. -/
theorem close_frees_each_page_once (pm : ObMap) (pg : Pages) (h : ReachablePages pm pg) :
    ((closeFrees pm).filterMap pg.blockPtr).Perm ((List.range pg.next).map Ptr.heap) := by
  have hl := h.mirrors.ledger
  obtain ⟨hnd, hmem⟩ := h.reachableAlloc.paged.closeFrees_iff
  have howned : (closeFrees pm).filterMap pg.blockPtr =
      (closeFrees pm).filterMap fun b => if pm.owns b then pg.blockPtr b else none :=
    List.filterMap_congr fun b hb => by rw [if_pos ((hmem b).mp hb)]
  refine (List.perm_ext_iff_of_nodup ?_ ((List.nodup_range _).map fun _ _ => Ptr.heap.inj)).mpr
    fun p => ?_
  · rw [howned]
    refine hnd.filterMap fun b b' p hp hp' => ?_
    split_ifs at hp hp' with hb hb'
    obtain ⟨n, -, rfl⟩ := hl.heap b p hb hp
    exact hl.inj b b' n hb hb' hp hp'
    all_goals exact absurd ‹p ∈ none› (Option.not_mem_none p)
  · simp only [List.mem_filterMap, List.mem_map, List.mem_range, hmem]
    constructor
    · rintro ⟨b, hb, hp⟩
      obtain ⟨n, hn, rfl⟩ := hl.heap b p hb hp
      exact ⟨n, hn, rfl⟩
    · rintro ⟨n, hn, rfl⟩
      exact hl.onto n hn

theorem close_frees_each_page_once_grown :
    ∃ pg, ReachablePages (filled ⟨false, false, false⟩ 0xc0) pg ∧ 0 < pg.next ∧
      ((closeFrees (filled ⟨false, false, false⟩ 0xc0)).filterMap pg.blockPtr).Perm
        ((List.range pg.next).map Ptr.heap) := by
  have hs := filled_spec ⟨false, false, false⟩ rfl 0xc0 (by decide)
  obtain ⟨pg, hpg⟩ := hs.reachable.reachableAlloc.pages
  have hnext : 0 < pg.next := by
    rcases hpg.mirrors.table_ptr hs.reachable.inv.store00.1 with ⟨hL', -⟩ | ⟨-, n, hn, -⟩
    · rw [hs.large le_rfl] at hL'; cases hL'
    · omega
  exact ⟨pg, hpg, hnext, close_frees_each_page_once _ pg hpg⟩

end Runs

end LeechCore.ObMap
