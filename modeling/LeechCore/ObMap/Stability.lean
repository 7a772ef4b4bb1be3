import LeechCore.ObMap.Memory

/-!
# Blocks stay where they are

A push fills `NULL` slots only, and the switch to large mode keeps `Store00` at
`Directory[0][0]`: no store that holds entries ever moves. `Keeps pg pg'` says that `pg'` has
every store pointer of `pg` that is set and every table pointer but `_SmallTable`.
-/

namespace LeechCore.ObMap

set_option autoImplicit false

open Function

namespace Pages

variable {pg : Pages}

theorem slot_setSlot (p q p' : Ptr) (t t' : Nat) :
    (pg.setSlot p t q).slot p' t' = pg.slot p' t' ∨ (p' = p ∧ t' = t) := by
  by_cases hp : p' = p ∧ t' = t
  · exact .inr hp
  refine .inl ?_
  rcases p with _ | _ | _ | n <;> simp only [setSlot]
  · split_ifs with ht
    · rcases p' with _ | _ | _ | n' <;> simp only [slot]
      split_ifs with ht' <;> simp_all
    · rfl
  · rcases p' with _ | _ | _ | n' <;> simp only [slot, update_apply]
    split_ifs with hn <;> simp_all

@[simp] theorem setSlot_directory (p q : Ptr) (t : Nat) :
    (pg.setSlot p t q).directory = pg.directory := by
  rcases p with _ | _ | _ | n <;> simp only [setSlot]; split_ifs <;> rfl

@[simp] theorem setSlot_next (p q : Ptr) (t : Nat) : (pg.setSlot p t q).next = pg.next := by
  rcases p with _ | _ | _ | n <;> simp only [setSlot]; split_ifs <;> rfl

/-- Every table pointer of the directory is a block `LocalAlloc` already gave. -/
def DirBelow (pg : Pages) : Prop := ∀ d n, pg.directory d = .heap n → n < pg.next

/-- The pages of a small map: `_SmallTable` at `Directory[0]` the only table, and `Store00` its
only store. -/
def SmallLayout (pg : Pages) : Prop :=
  (∀ d, pg.directory d ≠ .null → d = 0 ∧ pg.directory d = .smallTable) ∧ pg.smallTable = .store00

/-- `pg'` keeps every store pointer of `pg` that is set, and every table pointer but
`_SmallTable`. -/
structure Keeps (pg pg' : Pages) : Prop where
  store : ∀ d t, pg.store d t ≠ .null → pg'.store d t = pg.store d t
  table : ∀ d, pg.directory d ≠ .null → pg.directory d ≠ .smallTable →
    pg'.directory d = pg.directory d

namespace Keeps

theorem refl (pg : Pages) : Keeps pg pg := ⟨fun _ _ _ => rfl, fun _ _ _ => rfl⟩

theorem trans {pg₁ pg₂ : Pages} (h₁ : Keeps pg pg₁) (h₂ : Keeps pg₁ pg₂) : Keeps pg pg₂ := by
  refine ⟨fun d t h => ?_, fun d h h' => ?_⟩
  · have e₁ := h₁.store d t h
    rw [h₂.store d t (by rwa [e₁]), e₁]
  · have e₁ := h₁.table d h h'
    rw [h₂.table d (by rwa [e₁]) (by rwa [e₁]), e₁]

theorem of_entriesOnly {pg' : Pages} (h : EntriesOnly pg pg') : Keeps pg pg' := by
  obtain ⟨st, hs, rfl⟩ := h
  exact ⟨fun _ _ _ => rfl, fun _ _ _ => rfl⟩

theorem withAlloc {pg' : Pages} (h : Keeps pg pg') (p : MemPtr) (n : Nat) (t : List MemCall) :
    Keeps pg { pg' with pHashMapValue := p, cBlock := n, trace := t } :=
  ⟨h.1, h.2⟩

theorem setSlot {p : Ptr} {t : Nat} (h0 : pg.slot p t = .null) (q : Ptr) :
    Keeps pg (pg.setSlot p t q) := by
  refine ⟨fun d t' hs => ?_, fun d _ _ => by rw [setSlot_directory]⟩
  simp only [Pages.store, setSlot_directory]
  rcases @slot_setSlot pg p q (pg.directory d) t t' with he | ⟨hp, rfl⟩
  · exact he
  · exact absurd (by rw [Pages.store, hp, h0]) hs

theorem allocStore {d t : Nat} (h0 : pg.store d t = .null) : Keeps pg (pg.allocStore d t) := by
  have hR : Keeps pg { pg with heapStore := update pg.heapStore pg.next fun _ => ⟨0, 0⟩,
                               next := pg.next + 1,
                               trace := pg.trace ++ [.localAlloc (.page pg.next)] } :=
    ⟨fun _ _ _ => rfl, fun _ _ _ => rfl⟩
  refine hR.trans (setSlot ?_ _)
  exact h0

theorem allocTable (hb : pg.DirBelow) {d : Nat} (h0 : pg.directory d = .null) :
    Keeps pg (pg.allocTable d) := by
  refine ⟨fun d' t hs => ?_, fun d' hd _ => ?_⟩
  · have hd' : d' ≠ d := by rintro rfl; simp [Pages.store, h0, slot] at hs
    have hfresh : pg.directory d' ≠ .heap pg.next := fun he => by
      have := hb d' _ he
      omega
    simp only [Pages.store, Pages.allocTable, update_noteq hd']
    exact slot_allocTable pg (pg.directory d') d t hfresh
  · have hd' : d' ≠ d := by rintro rfl; exact hd h0
    simp [Pages.allocTable, update_noteq hd']

theorem toLargeMode (hsl : pg.SmallLayout) : Keeps pg pg.toLargeMode := by
  obtain ⟨hs, h00⟩ := hsl
  refine ⟨fun d t hst => ?_, fun d hd hd' => absurd (hs d hd).2 hd'⟩
  have hdn : pg.directory d ≠ .null := fun h => hst (by simp [Pages.store, h, slot])
  obtain ⟨rfl, h0⟩ := hs d hdn
  have ht : t = 0 := by
    by_contra ht
    exact hst (by simp [Pages.store, h0, slot, ht])
  subst ht
  rw [toLargeMode_store, if_pos ⟨rfl, rfl⟩]
  simp [Pages.store, h0, slot, h00]

end Keeps

namespace DirBelow

theorem allocTable (hb : pg.DirBelow) (d : Nat) : (pg.allocTable d).DirBelow := fun d' n he => by
  simp only [Pages.allocTable, update_apply] at he ⊢
  split_ifs at he
  · cases he; omega
  · have := hb d' n he; omega

theorem allocStore (hb : pg.DirBelow) (d t : Nat) : (pg.allocStore d t).DirBelow := fun d' n he => by
  simp only [Pages.allocStore, setSlot_directory, setSlot_next] at he ⊢
  have := hb d' n he
  omega

theorem allocatePath (hb : pg.DirBelow) (alloc : AllocSite → Bool) (i : Nat) :
    (pg.allocatePath alloc i).1.DirBelow := by
  unfold Pages.allocatePath
  dsimp only
  split_ifs
  all_goals dsimp only
  all_goals first | exact hb | exact hb.allocTable _ | exact hb.allocStore _ _ |
    exact (hb.allocTable _).allocStore _ _

theorem grow (hb : pg.DirBelow) (fLargeMode : Bool) (alloc : AllocSite → Bool) :
    (pg.grow fLargeMode alloc).1.DirBelow := by
  unfold Pages.grow
  cases alloc .growHashMap
  · exact hb
  cases fLargeMode <;> cases alloc .growDirectory <;>
    simp only [Bool.true_eq_false, Bool.false_eq_true, and_true, and_false, false_and, if_true,
      if_false]
  · intro d n he
    simp only [update_apply] at he
    split_ifs at he
    exact hb d n he
  all_goals intro d n he
  · simp only [toLargeMode_directory] at he
    split_ifs at he
    cases he
    exact Nat.lt_succ_self _
  all_goals exact hb d n he

end DirBelow

theorem Keeps.allocatePath (hb : pg.DirBelow) (alloc : AllocSite → Bool) (i : Nat) :
    Keeps pg (pg.allocatePath alloc i).1 := by
  unfold Pages.allocatePath
  dsimp only
  have hT : Keeps pg (if pg.directory (indexDirectory i) = .null then
      pg.allocTable (indexDirectory i) else pg) := by
    split_ifs with hd
    exacts [Keeps.allocTable hb hd, .refl pg]
  generalize (if pg.directory (indexDirectory i) = .null then
      pg.allocTable (indexDirectory i) else pg) = pg₁ at hT ⊢
  split_ifs
  exacts [.refl pg, hT, hT.trans (Keeps.allocStore ‹_›), hT]

theorem Keeps.grow {fLargeMode : Bool} (hsmall : fLargeMode = false → pg.SmallLayout)
    {alloc : AllocSite → Bool} (hsafe : fLargeMode = true ∨ alloc .growDirectory = true) :
    Keeps pg (pg.grow fLargeMode alloc).1 := by
  unfold Pages.grow
  cases ha : alloc .growHashMap
  · exact .refl pg
  cases fLargeMode
  · have hd : alloc .growDirectory = true := hsafe.resolve_left (by simp)
    simp only [hd, Bool.true_eq_false, and_false, if_false, Bool.false_eq_true]
    exact (Keeps.toLargeMode (hsmall rfl)).withAlloc _ _ _
  · simp only [Bool.true_eq_false, false_and, if_false, if_true]
    exact (Keeps.refl pg).withAlloc _ _ _

theorem Keeps.push {pm : ObMap} (hb : pg.DirBelow)
    (hsmall : pm.fLargeMode = false → pg.SmallLayout) {alloc : AllocSite → Bool} (hsafe : SafeAlloc alloc pm) (k v : UInt64) :
    Keeps pg (pg.push pm k v alloc) := by
  unfold Pages.push
  dsimp only
  have hG : Keeps pg (if pm.c = pm.cHashGrowThreshold then pg.grow pm.fLargeMode alloc
      else (pg, true)).1 ∧ (if pm.c = pm.cHashGrowThreshold then pg.grow pm.fLargeMode alloc
      else (pg, true)).1.DirBelow := by
    split_ifs
    exacts [⟨Keeps.grow hsmall hsafe, hb.grow _ _⟩, ⟨.refl pg, hb⟩]
  generalize (if pm.c = pm.cHashGrowThreshold then pg.grow pm.fLargeMode alloc
      else (pg, true)) = rG at hG ⊢
  obtain ⟨hG, hbG⟩ := hG
  split_ifs
  exacts [.refl pg, hG, hG.trans (Keeps.allocatePath hbG ..),
    hG.trans ((Keeps.allocatePath hbG ..).trans (.of_entriesOnly (entriesOnly_write ..)))]

theorem Keeps.sortEntryIndex (pm : ObMap) (cmp : Entry → Entry → Int) (b : Bool) :
    Keeps pg (pg.sortEntryIndex pm cmp b) := by
  unfold Pages.sortEntryIndex
  split_ifs
  · exact .refl pg
  dsimp only
  obtain ⟨st, hs, he⟩ := entriesOnly_writeFrom 1
    (qsort cmp ((List.range (pm.c - 1)).map fun j => (pg.read (j + 1)).getD ⟨0, 0⟩))
    { pg with cBlock := pg.cBlock + 1, trace := pg.trace ++ [.localAlloc (.block pg.cBlock)] }
  rw [he]
  exact ⟨fun _ _ _ => rfl, fun _ _ _ => rfl⟩

end Pages

section Fill

variable {pm : ObMap}

theorem allocatePath_storeAt (alloc : AllocSite → Bool) (i : Nat) {d t : Nat}
    (hs : (pm.allocatePath alloc i).1.storeAt d t = true) :
    pm.storeAt d t = true ∨ (d = indexDirectory i ∧ t = indexTable i) := by
  by_cases hp : d = indexDirectory i ∧ t = indexTable i
  · exact .inr hp
  refine .inl ?_
  unfold ObMap.allocatePath at hs
  dsimp only at hs
  split_ifs at hs <;> simp only [update_apply] at hs <;> (try split_ifs at hs) <;> simp_all

theorem Inv.growIfFull_storeAt (h : pm.Inv) {rG : ObMap × Bool}
    (hG : (if pm.c = pm.cHashGrowThreshold then pm.grow allocOk else some (pm, true)) = some rG)
    (d t : Nat) (hs : rG.1.storeAt d t = true) : pm.storeAt d t = true := by
  split_ifs at hG
  · cases hL : pm.fLargeMode <;>
      simp only [ObMap.grow, allocOk, hL, Bool.not_true, Bool.not_false, Bool.false_eq_true,
        Bool.false_and, Bool.true_and, if_false, if_true] at hG <;>
      obtain ⟨pm', hR, rfl⟩ := Option.map_eq_some'.mp hG <;>
      rw [(sameShape_growRehash _ _ hR).storeAt] at hs
    · simp only [ObMap.doubleHashMaps, ObMap.toLargeMode, update_apply] at hs
      split_ifs at hs with hd
      · subst hd
        rw [beq_iff_eq.mp hs]
        exact h.store00.2
      · exact hs
    · exact hs
  · cases hG; exact hs

theorem Inv.push_storeAt (h : pm.Inv) {k v : UInt64} (hf : pm.Fresh k v) {r : ObMap × Bool}
    (hr : pm.push k v allocOk = some r) {d t : Nat} (hs : r.1.storeAt d t = true) :
    pm.storeAt d t = true ∨ (d = indexDirectory pm.c ∧ t = indexTable pm.c) := by
  rw [h.push_fresh hf allocOk] at hr
  obtain ⟨rG, hG, hr⟩ := Option.bind_eq_some.mp hr
  have hsG := h.growIfFull_storeAt hG
  split_ifs at hr
  · cases hr; exact .inl (hsG _ _ hs)
  · cases hr; exact (allocatePath_storeAt allocOk pm.c hs).imp_left (hsG _ _)
  · obtain ⟨pm', hS, rfl⟩ := Option.map_eq_some'.mp hr
    rw [(sameShape_storeEntry hS).storeAt] at hs
    exact (allocatePath_storeAt allocOk pm.c hs).imp_left (hsG _ _)

theorem filled_storeAt (flags : Flags) (hf : (flags.objectOb && flags.objectLocalFree) = false) :
    ∀ n, n < OB_MAP_TABLE_MAX_CAPACITY → ∀ d t, (filled flags n).storeAt d t = true →
      ∃ i ≤ n, indexDirectory i = d ∧ indexTable i = t
  | 0, _, d, t, hs => by
    have : d = 0 ∧ t = 0 := by
      by_cases hd : d = 0 <;> simp_all [filled, ObMap.empty]
    exact ⟨0, le_rfl, by rw [this.1]; rfl, by rw [this.2]; rfl⟩
  | n + 1, hn, d, t, hs => by
    have hs' := filled_spec flags hf n (by omega)
    rcases hs'.reachable.inv.push_storeAt (hs'.fresh hn) (hs'.push hn).1 hs with hs | ⟨rfl, rfl⟩
    · obtain ⟨i, hi, hd, ht⟩ := filled_storeAt flags hf n (by omega) d t hs
      exact ⟨i, by omega, hd, ht⟩
    · exact ⟨n + 1, le_rfl, by rw [hs'.c], by rw [hs'.c]⟩

end Fill

theorem Mirrors.dirBelow {pm : ObMap} {pg : Pages} (h : Mirrors pm pg) (hi : pm.Inv) :
    pg.DirBelow ∧ (pm.fLargeMode = false → pg.SmallLayout) := by
  refine ⟨fun d n he => ?_, fun hL => ⟨fun d hd => h.small hL d ((h.table d).mpr hd), ?_⟩⟩
  · rcases h.table_ptr ((h.table d).mpr (by simp [he])) with ⟨-, -, h0⟩ | ⟨-, m, hm, h0⟩
    · rw [he] at h0; cases h0
    · rw [he] at h0; cases h0; exact hm
  · have h0 := (h.small hL 0 hi.store00.1).2
    have := h.store00 hi.store00.1
    simpa [Pages.store, h0, Pages.slot] using this

/-- Every call keeps every store pointer that is set, and every table pointer but `_SmallTable`. -/
theorem pages_never_move (pm : ObMap) (pg : Pages) (h : ReachablePages pm pg)
    {alloc : AllocSite → Bool} (hsafe : SafeAlloc alloc pm) (c : Call) :
    (∀ d t, pg.store d t ≠ .null → (pg.call pm alloc c).store d t = pg.store d t) ∧
      ∀ d, pg.directory d ≠ .null → pg.directory d ≠ .smallTable →
        (pg.call pm alloc c).directory d = pg.directory d := by
  obtain ⟨hb, hsmall⟩ := h.mirrors.dirBelow h.reachableAlloc.inv
  have hk : Pages.Keeps pg (pg.call pm alloc c) := by
    cases c <;> simp only [Pages.call]
    case push k v => exact .push hb hsmall hsafe k v
    case pushCopy k pv =>
      split_ifs
      exacts [.refl pg, .push hb hsmall hsafe k pv]
    case remove | removeByKey => exact .of_entriesOnly (Pages.entriesOnly_removeOrRemoveByKey ..)
    case pop | popWithKey => exact .of_entriesOnly (Pages.entriesOnly_retrieveAndRemove ..)
    case removeByFilter pfn => exact .of_entriesOnly (Pages.entriesOnly_removeByFilterLoop ..)
    case sortEntryIndex | sortEntryIndexByKey => exact .sortEntryIndex ..
    all_goals exact .refl pg
  exact ⟨hk.store, hk.table⟩

theorem pages_never_move_store_allocated :
    ∃ pm pg, ReachablePages pm pg ∧ SafeAlloc allocOk pm ∧ pm.fLargeMode = true ∧
      pg.directory 0 ≠ .null ∧ pg.directory 0 ≠ .smallTable ∧ pg.store 0 0 ≠ .null ∧
      pg.store 0 1 = .null ∧ (pg.call pm allocOk (.push 0x200 0x100)).store 0 1 ≠ .null ∧
      (∀ d t, pg.store d t ≠ .null →
        (pg.call pm allocOk (.push 0x200 0x100)).store d t = pg.store d t) ∧
      ∀ d, pg.directory d ≠ .null → pg.directory d ≠ .smallTable →
        (pg.call pm allocOk (.push 0x200 0x100)).directory d = pg.directory d := by
  obtain ⟨pm, hs, hst⟩ : ∃ pm, Filled ⟨false, false, false⟩ 0xff pm ∧ ∀ d t,
      pm.storeAt d t = true → ∃ i ≤ 0xff, indexDirectory i = d ∧ indexTable i = t :=
    ⟨_, filled_spec ⟨false, false, false⟩ rfl 0xff (by decide),
      filled_storeAt ⟨false, false, false⟩ rfl 0xff (by decide)⟩
  have h := hs.reachable.inv
  obtain ⟨pg, hpg⟩ := hs.reachable.reachableAlloc.pages
  have hM := hpg.mirrors
  have hL := hs.large (by decide)
  have hdS : pg.directory 0 ≠ .smallTable := by
    rcases hM.table_ptr h.store00.1 with ⟨hL', -⟩ | ⟨-, n, -, hn⟩
    · rw [hL] at hL'; cases hL'
    · rw [hn]; exact Ptr.noConfusion
  have h01 : pg.store 0 1 = .null := by
    by_contra hne
    obtain ⟨i, hi, -, hit⟩ := hst 0 1 ((hM.store 0 1 h.store00.1).mpr hne)
    rw [(index_zero_of_lt (by omega)).2] at hit
    cases hit
  have hf := hs.fresh (by decide)
  rw [show UInt64.ofNat (2 * (0xff + 1)) = 0x200 from rfl,
    show UInt64.ofNat (0xff + 1) = 0x100 from rfl] at hf
  obtain ⟨r, hr, hinv', hok, -⟩ := h.push 0x200 0x100
  have hc' : r.1.c = 0x101 := by rw [(hok hf).2.c, hs.c]
  have hpg' : ReachablePages r.1 (pg.call pm allocOk (.push 0x200 0x100)) :=
    .call hpg (safeAlloc_allocOk pm)
      (show pm.call allocOk (.push 0x200 0x100) = some (r.1, .bool r.2) by simp [ObMap.call, hr])
  have hres := hinv'.resolves 0x100 (by rw [mem_live, hc']; omega)
  refine ⟨pm, pg, hpg, safeAlloc_allocOk pm, hL, (hM.table 0).mp h.store00.1, hdS,
    (hM.store 0 0 h.store00.1).mp h.store00.2, h01,
    (hpg'.mirrors.store 0 1 hres.1).mp hres.2,
    pages_never_move pm pg hpg (safeAlloc_allocOk pm) (.push 0x200 0x100)⟩

end LeechCore.ObMap
