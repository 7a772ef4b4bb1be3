import LeechCore.ObMap.PagesCall

/-!
# The map's own memory

`replay` runs the map's `LocalAlloc` and `LocalFree` calls against an allocator that refuses a
double allocation and a free of anything but a live block or `NULL`. Off the failed directory
table of a small map's first grow, the map frees each of its blocks once when closed; at that
failure the new hash array leaks and the close reads through a `NULL` `Directory[0]`.
-/

namespace LeechCore.ObMap

set_option autoImplicit false

open Function

/-- A pointer to a block `LocalAlloc` gave, as opposed to `NULL` or a place inside `OB_MAP`. -/
def MemPtr.isBlock : MemPtr → Bool
  | .page _ | .block _ => true
  | _ => false

/-- A pointer of the directory, as the allocator sees it. -/
def Ptr.toMemPtr : Ptr → MemPtr
  | .null => .null
  | .smallTable | .store00 => .inObMap
  | .heap n => .page n

/-- One call to the allocator, on the blocks `live`; `none` where it goes wrong: a block given
while live, or a `LocalFree` of a pointer that is neither `NULL` nor live. -/
def allocStep (live : MemPtr → Bool) : MemCall → Option (MemPtr → Bool)
  | .localAlloc p => if p.isBlock && !live p then some (update live p true) else none
  | .localFree p => if p = .null then some live else
    if live p then some (update live p false) else none

/-- The calls `l`, one after another, from the blocks `live`. -/
def replay (live : MemPtr → Bool) (l : List MemCall) : Option (MemPtr → Bool) :=
  l.foldlM allocStep live

/-- No block live. -/
def noBlocks : MemPtr → Bool := fun _ => false

namespace Pages

variable (pg : Pages)

/-- The blocks the map holds: the tables and stores `0..next-1` and the hash array. -/
def held : MemPtr → Bool
  | .page n => decide (n < pg.next)
  | .block n => decide (pg.pHashMapValue = .block n)
  | _ => false

/-- The pointer `_ObMap_ObCloseCallback` hands to `LocalFree` for a block: `Directory[d]`,
`Directory[d][t]`, or `pHashMapValue`. -/
def freePtr : Block → MemPtr
  | .hashMap => pg.pHashMapValue
  | .table d => (pg.directory d).toMemPtr
  | .store d t => (pg.store d t).toMemPtr

/-- The `LocalFree` calls of `_ObMap_ObCloseCallback` on the map's own memory. -/
def closeCalls (pm : ObMap) : List MemCall := (closeFrees pm).map fun b => .localFree (pg.freePtr b)

end Pages

section Replay

variable {live : MemPtr → Bool}

@[simp] theorem replay_nil : replay live [] = some live := rfl

theorem replay_append (l₁ l₂ : List MemCall) :
    replay live (l₁ ++ l₂) = (replay live l₁).bind fun live' => replay live' l₂ :=
  List.foldlM_append ..

theorem replay_cons (c : MemCall) (l : List MemCall) :
    replay live (c :: l) = (allocStep live c).bind fun live' => replay live' l := rfl

theorem replay_alloc {p : MemPtr} (hp : p.isBlock = true) (hl : live p = false) :
    replay live [.localAlloc p] = some (update live p true) := by
  simp [replay, allocStep, hp, hl]

theorem replay_free {p : MemPtr} (hp : p ≠ .null) (hl : live p = true) :
    replay live [.localFree p] = some (update live p false) := by
  simp [replay, allocStep, hp, hl]

theorem replay_free_null : replay live [.localFree .null] = some live := by
  simp [replay, allocStep]

theorem replay_frees :
    ∀ (l : List MemPtr) (live : MemPtr → Bool), l.Nodup → (∀ p, p ∈ l ↔ live p = true) →
      .null ∉ l → replay live (l.map .localFree) = some noBlocks
  | [], live, _, hmem, _ => by
    simp only [List.map_nil, replay_nil, Option.some.injEq]
    funext p
    simpa [noBlocks] using (hmem p).not.mp (List.not_mem_nil p)
  | p :: l, live, hnd, hmem, hnull => by
    obtain ⟨hp, hnd⟩ := List.nodup_cons.mp hnd
    have hlive : live p = true := (hmem p).mp (List.mem_cons_self p l)
    have hp0 : p ≠ .null := fun h => hnull (h ▸ List.mem_cons_self p l)
    rw [List.map_cons, ← List.singleton_append, replay_append, replay_free hp0 hlive,
      Option.some_bind]
    refine replay_frees l _ hnd (fun q => ?_) fun h => hnull (List.mem_cons_of_mem p h)
    by_cases hq : q = p
    · subst hq; simp [hp]
    · rw [update_noteq hq, ← hmem q, List.mem_cons, or_iff_right hq]

end Replay

namespace Pages

variable {pg : Pages}

theorem held_page (n : Nat) : pg.held (.page n) = decide (n < pg.next) := rfl

theorem held_block (n : Nat) : pg.held (.block n) = decide (pg.pHashMapValue = .block n) := rfl

/-- `pg'` is `pg` with other entries in its stores: the writes of the calls that neither allocate
nor free. -/
def EntriesOnly (pg pg' : Pages) : Prop :=
  ∃ st hs, pg' = { pg with store00 := st, heapStore := hs }

theorem EntriesOnly.refl (pg : Pages) : EntriesOnly pg pg := ⟨pg.store00, pg.heapStore, rfl⟩

theorem EntriesOnly.trans {pg₁ pg₂ : Pages} (h₁ : EntriesOnly pg pg₁) (h₂ : EntriesOnly pg₁ pg₂) :
    EntriesOnly pg pg₂ := by
  obtain ⟨st, hs, rfl⟩ := h₁
  obtain ⟨st', hs', rfl⟩ := h₂
  exact ⟨st', hs', rfl⟩

theorem entriesOnly_write (i : Nat) (e : Entry) : EntriesOnly pg (pg.write i e) := by
  unfold write setCell
  split <;> exact ⟨_, _, rfl⟩

theorem entriesOnly_writeFrom :
    ∀ (i : Nat) (l : List Entry) (pg : Pages), EntriesOnly pg (writeFrom i l pg)
  | _, [], pg => .refl pg
  | i, e :: l, _ => entriesOnly_write i e |>.trans (entriesOnly_writeFrom (i + 1) l _)

theorem entriesOnly_retrieveAndRemove (pm : ObMap) (i : Nat) :
    EntriesOnly pg (pg.retrieveAndRemove pm i) := by
  unfold retrieveAndRemove
  split_ifs
  · split
    · exact entriesOnly_write ..
    · exact .refl pg
  · exact .refl pg

theorem entriesOnly_removeOrRemoveByKey (pm : ObMap) (f : Bool) (kv : UInt64) :
    EntriesOnly pg (pg.removeOrRemoveByKey pm f kv) := by
  unfold removeOrRemoveByKey
  split_ifs
  · exact .refl pg
  · split
    · exact entriesOnly_retrieveAndRemove ..
    · exact .refl pg

theorem entriesOnly_removeByFilterLoop (pfn : UInt64 → UInt64 → Bool) :
    ∀ (n : Nat) (pm : ObMap) (pg : Pages), EntriesOnly pg (removeByFilterLoop pfn n pm pg)
  | 0, _, pg => .refl pg
  | n + 1, pm, pg => by
    simp only [removeByFilterLoop]
    split_ifs
    · split
      · exact entriesOnly_retrieveAndRemove .. |>.trans (entriesOnly_removeByFilterLoop pfn n ..)
      · exact .refl pg
    · exact entriesOnly_removeByFilterLoop pfn n ..

end Pages

/-- The allocator's view of the map's own memory. -/
structure Accounts (pg : Pages) : Prop where
  mode : (pg.directory 0 = .smallTable ∧ pg.pHashMapValue = .inObMap) ∨
    ((∃ m, pg.directory 0 = .heap m) ∧ ∃ n < pg.cBlock, pg.pHashMapValue = .block n)
  live : replay noBlocks pg.trace = some pg.held

namespace Accounts

variable {pg : Pages}

theorem new : Accounts Pages.new := by
  refine ⟨.inl ⟨rfl, rfl⟩, congrArg some ?_⟩
  funext p
  cases p <;> simp [Pages.held, Pages.new, noBlocks]

theorem directory_ne_null (h : Accounts pg) : pg.directory 0 ≠ .null := by
  rcases h.mode with ⟨h0, -⟩ | ⟨⟨m, h0⟩, -⟩ <;> simp [h0]

theorem held_block_cBlock (h : Accounts pg) : pg.held (.block pg.cBlock) = false := by
  rcases h.mode with ⟨-, he⟩ | ⟨-, n, hn, he⟩ <;> simp [Pages.held, he]
  omega

theorem of_entriesOnly (h : Accounts pg) {pg' : Pages} (he : pg.EntriesOnly pg') : Accounts pg' := by
  obtain ⟨st, hs, rfl⟩ := he
  exact ⟨h.1, h.2⟩

theorem allocPage (h : Accounts pg) {pg' : Pages} (hd : pg'.directory 0 = pg.directory 0)
    (hh : pg'.pHashMapValue = pg.pHashMapValue) (hc : pg'.cBlock = pg.cBlock)
    (hn : pg'.next = pg.next + 1) (ht : pg'.trace = pg.trace ++ [.localAlloc (.page pg.next)]) :
    Accounts pg' := by
  refine ⟨hd ▸ hh ▸ hc ▸ h.mode, ?_⟩
  rw [ht, replay_append, h.live, Option.some_bind,
    replay_alloc (p := .page pg.next) rfl (by simp [Pages.held_page])]
  congr 1
  funext p
  rcases p with _ | _ | n | n <;> simp [Pages.held, update_apply, hn, hh]
  rw [← Bool.decide_or, decide_eq_decide]
  omega

theorem setSlot (h : Accounts pg) (p : Ptr) (t : Nat) (q : Ptr) : Accounts (pg.setSlot p t q) := by
  unfold Pages.setSlot
  split
  · split
    · exact ⟨h.1, h.2⟩
    · exact h
  · exact ⟨h.1, h.2⟩
  · exact h

theorem allocTable (h : Accounts pg) {d : Nat} (hd : pg.directory d = .null) :
    Accounts (pg.allocTable d) := by
  have hd0 : d ≠ 0 := by rintro rfl; exact h.directory_ne_null hd
  exact h.allocPage (update_noteq (Ne.symm hd0) ..) rfl rfl rfl rfl

theorem allocStore (h : Accounts pg) (d t : Nat) : Accounts (pg.allocStore d t) := by
  have h' : Accounts { pg with heapStore := update pg.heapStore pg.next fun _ => ⟨0, 0⟩,
                               next := pg.next + 1,
                               trace := pg.trace ++ [.localAlloc (.page pg.next)] } :=
    h.allocPage rfl rfl rfl rfl rfl
  exact h'.setSlot ..

theorem grow (h : Accounts pg) {fLargeMode : Bool}
    (hmode : fLargeMode = false ↔ pg.directory 0 = .smallTable) {alloc : AllocSite → Bool}
    (hsafe : fLargeMode = true ∨ alloc .growDirectory = true) :
    Accounts (pg.grow fLargeMode alloc).1 := by
  unfold Pages.grow
  cases ha : alloc .growHashMap
  · exact h
  have hA : replay noBlocks (pg.trace ++ [.localAlloc (.block pg.cBlock)]) =
      some (update pg.held (.block pg.cBlock) true) := by
    rw [replay_append, h.live, Option.some_bind,
      replay_alloc (p := .block pg.cBlock) rfl h.held_block_cBlock]
  cases fLargeMode
  · have hd : alloc .growDirectory = true := hsafe.resolve_left (by simp)
    obtain ⟨h0, hv⟩ : pg.directory 0 = .smallTable ∧ pg.pHashMapValue = .inObMap := by
      rcases h.mode with h' | ⟨⟨m, h0⟩, -⟩
      · exact h'
      · exact absurd (hmode.mp rfl) (by simp [h0])
    simp only [hd, Bool.true_eq_false, and_false, if_false, Bool.false_eq_true, if_false]
    refine ⟨.inr ⟨⟨pg.next, by simp [Pages.toLargeMode_directory]⟩, pg.cBlock, Nat.lt_succ_self _,
      rfl⟩, ?_⟩
    show replay noBlocks (pg.trace ++ [.localAlloc (.block pg.cBlock)] ++
      [.localAlloc (.page pg.next)] ++ [.localFree .null]) = _
    rw [replay_append, replay_append, hA, Option.some_bind,
      replay_alloc (p := .page pg.next) rfl (by simp [update_apply, Pages.held_page]),
      Option.some_bind, replay_free_null]
    congr 1
    funext p
    rcases p with _ | _ | n | n <;> simp [Pages.held, update_apply, hv]
    · rw [← Bool.decide_or, decide_eq_decide]; omega
    · exact eq_comm
  · obtain ⟨⟨m, hm⟩, n, hn, hv⟩ :
        (∃ m, pg.directory 0 = .heap m) ∧ ∃ n < pg.cBlock, pg.pHashMapValue = .block n := by
      rcases h.mode with ⟨h0, -⟩ | h'
      · exact absurd (hmode.mpr h0) (by simp)
      · exact h'
    simp only [Bool.true_eq_false, false_and, if_false, if_true]
    refine ⟨.inr ⟨⟨m, hm⟩, pg.cBlock, Nat.lt_succ_self _, rfl⟩, ?_⟩
    show replay noBlocks (pg.trace ++ [.localAlloc (.block pg.cBlock)] ++
      [.localFree pg.pHashMapValue]) = _
    rw [replay_append, hA, Option.some_bind, hv,
      replay_free (p := .block n) (by simp) (by simp [update_apply, Pages.held_block, hv])]
    congr 1
    funext p
    rcases p with _ | _ | k | k <;> simp [Pages.held, update_apply, hv]
    by_cases hk : k = n
    · subst hk; simp; omega
    · simp [hk, Ne.symm hk, eq_comm]

theorem allocatePath (h : Accounts pg) (alloc : AllocSite → Bool) (i : Nat) :
    Accounts (pg.allocatePath alloc i).1 := by
  unfold Pages.allocatePath
  dsimp only
  have hT : Accounts (if pg.directory (indexDirectory i) = .null then
      pg.allocTable (indexDirectory i) else pg) := by
    split_ifs with hd
    exacts [h.allocTable hd, h]
  generalize (if pg.directory (indexDirectory i) = .null then
      pg.allocTable (indexDirectory i) else pg) = pg₁ at hT ⊢
  split_ifs
  exacts [h, hT, hT.allocStore .., hT]

theorem push (h : Accounts pg) {pm : ObMap}
    (hmode : pm.fLargeMode = false ↔ pg.directory 0 = .smallTable) {alloc : AllocSite → Bool}
    (hsafe : SafeAlloc alloc pm) (k v : UInt64) : Accounts (pg.push pm k v alloc) := by
  unfold Pages.push
  dsimp only
  have hG : Accounts (if pm.c = pm.cHashGrowThreshold then pg.grow pm.fLargeMode alloc
      else (pg, true)).1 := by
    split_ifs
    exacts [h.grow hmode hsafe, h]
  generalize (if pm.c = pm.cHashGrowThreshold then pg.grow pm.fLargeMode alloc
      else (pg, true)) = rG at hG ⊢
  split_ifs
  exacts [h, hG, hG.allocatePath .., (hG.allocatePath ..).of_entriesOnly (Pages.entriesOnly_write ..)]

theorem sortEntryIndex (h : Accounts pg) (pm : ObMap) (cmp : Entry → Entry → Int) (b : Bool) :
    Accounts (pg.sortEntryIndex pm cmp b) := by
  unfold Pages.sortEntryIndex
  cases b
  · exact h
  simp only [Bool.true_eq_false, if_false]
  obtain ⟨st, hs, he⟩ := Pages.entriesOnly_writeFrom 1
    (qsort cmp ((List.range (pm.c - 1)).map fun j => (pg.read (j + 1)).getD ⟨0, 0⟩))
    { pg with cBlock := pg.cBlock + 1, trace := pg.trace ++ [.localAlloc (.block pg.cBlock)] }
  rw [he]
  refine ⟨h.mode.imp id fun ⟨hm, n, hn, hv⟩ => ⟨hm, n, Nat.lt_succ_of_lt hn, hv⟩, ?_⟩
  show replay noBlocks (pg.trace ++ [.localAlloc (.block pg.cBlock)] ++
    [.localFree (.block pg.cBlock)]) = some pg.held
  rw [replay_append, replay_append, h.live, Option.some_bind,
    replay_alloc (p := .block pg.cBlock) rfl h.held_block_cBlock, Option.some_bind,
    replay_free (by simp) (update_same ..), update_idem, update_eq_self_iff.mpr
      h.held_block_cBlock.symm]

theorem call (h : Accounts pg) {pm : ObMap}
    (hmode : pm.fLargeMode = false ↔ pg.directory 0 = .smallTable) {alloc : AllocSite → Bool}
    (hsafe : SafeAlloc alloc pm) (c : Call) : Accounts (pg.call pm alloc c) := by
  cases c <;> simp only [Pages.call]
  case push k v => exact h.push hmode hsafe k v
  case pushCopy k pv =>
    split_ifs
    exacts [h, h.push hmode hsafe k pv]
  case remove | removeByKey => exact h.of_entriesOnly (Pages.entriesOnly_removeOrRemoveByKey ..)
  case pop | popWithKey => exact h.of_entriesOnly (Pages.entriesOnly_retrieveAndRemove ..)
  case removeByFilter pfn => exact h.of_entriesOnly (Pages.entriesOnly_removeByFilterLoop ..)
  case sortEntryIndex | sortEntryIndexByKey => exact h.sortEntryIndex ..
  all_goals exact h

end Accounts

theorem Mirrors.mode {pm : ObMap} {pg : Pages} (h : Mirrors pm pg) (hi : pm.Inv) :
    pm.fLargeMode = false ↔ pg.directory 0 = .smallTable := by
  rcases h.table_ptr hi.store00.1 with ⟨hL, -, h0⟩ | ⟨ho, n, -, h0⟩
  · exact ⟨fun _ => h0, fun _ => hL⟩
  · simp only [owns, Bool.and_eq_true] at ho
    simp [ho.1, h0]

section Close

variable {pm : ObMap} {pg : Pages} (hM : Mirrors pm pg) (hi : pm.Inv) (hA : Accounts pg)
include hM hi hA

theorem freePtr_owned {b : Block} (hb : pm.owns b = true) :
    (b = .hashMap ∧ ∃ n, pg.pHashMapValue = .block n ∧ pg.freePtr b = .block n) ∨
      ∃ n < pg.next, pg.blockPtr b = some (.heap n) ∧ pg.freePtr b = .page n := by
  cases b with
  | hashMap =>
    refine .inl ⟨rfl, ?_⟩
    rcases hA.mode with ⟨h0, -⟩ | ⟨-, n, -, hv⟩
    · exact absurd ((hM.mode hi).mpr h0) (by simpa [owns] using hb)
    · exact ⟨n, hv, hv⟩
  | table d =>
    obtain ⟨n, hn, he⟩ := hM.ledger.heap _ _ hb rfl
    exact .inr ⟨n, hn, congrArg some he, by simp only [Pages.freePtr, he]; rfl⟩
  | store d t =>
    obtain ⟨n, hn, he⟩ := hM.ledger.heap _ _ hb rfl
    exact .inr ⟨n, hn, congrArg some he, by simp only [Pages.freePtr, he]; rfl⟩

theorem held_freePtr {b : Block} (hb : pm.owns b = true) : pg.held (pg.freePtr b) = true := by
  rcases freePtr_owned hM hi hA hb with ⟨-, n, hv, he⟩ | ⟨n, hn, -, he⟩
  · simp [he, Pages.held, hv]
  · simp [he, Pages.held, hn]

theorem freePtr_inj {b b' : Block} (hb : pm.owns b = true) (hb' : pm.owns b' = true)
    (he : pg.freePtr b = pg.freePtr b') : b = b' := by
  rcases freePtr_owned hM hi hA hb with ⟨rfl, n, -, hn⟩ | ⟨n, -, hp, hn⟩ <;>
    rcases freePtr_owned hM hi hA hb' with ⟨rfl, n', -, hn'⟩ | ⟨n', -, hp', hn'⟩
  · rfl
  all_goals rw [hn, hn'] at he; cases he
  exact hM.ledger.inj b b' n hb hb' hp hp'

theorem exists_freePtr {p : MemPtr} (hp : pg.held p = true) :
    ∃ b, pm.owns b = true ∧ pg.freePtr b = p := by
  rcases p with _ | _ | n | n
  · simp [Pages.held] at hp
  · simp [Pages.held] at hp
  · simp only [Pages.held, decide_eq_true_eq] at hp
    obtain ⟨b, hb, hbp⟩ := hM.ledger.onto n hp
    rcases freePtr_owned hM hi hA hb with ⟨rfl, -⟩ | ⟨m, -, hm, he⟩
    · cases hbp
    · rw [hm] at hbp
      cases hbp
      exact ⟨b, hb, he⟩
  · simp only [Pages.held, decide_eq_true_eq] at hp
    have hL : pm.fLargeMode = true := by
      rcases hA.mode with ⟨-, hv⟩ | ⟨⟨m, h0⟩, -⟩
      · rw [hv] at hp; cases hp
      · cases hL : pm.fLargeMode
        · have := (hM.mode hi).mp hL
          rw [h0] at this
          cases this
        · rfl
    exact ⟨.hashMap, hL, hp⟩

end Close

section Runs

theorem ReachablePages.accounts {pm : ObMap} {pg : Pages} (h : ReachablePages pm pg) :
    Accounts pg := by
  induction h with
  | new => exact .new
  | call hR hsafe _ ih => exact ih.call (hR.mirrors.mode hR.reachableAlloc.inv) hsafe _

/-- From `ObMap_New` to the close callback, with any allocation failing but the first grow's
directory table, the map never gets a live block, frees only `NULL` or a live block, and leaves
none live. -/
theorem memory_freed_once_at_close (pm : ObMap) (pg : Pages) (h : ReachablePages pm pg) :
    replay noBlocks (pg.trace ++ pg.closeCalls pm) = some noBlocks := by
  have hM := h.mirrors
  have hi := h.reachableAlloc.inv
  have hA := h.accounts
  obtain ⟨hnd, hmem⟩ := h.reachableAlloc.paged.closeFrees_iff
  have hc : pg.closeCalls pm = ((closeFrees pm).map pg.freePtr).map .localFree :=
    (List.map_map ..).symm
  rw [replay_append, hA.live, Option.some_bind, hc]
  refine replay_frees _ _ (List.Nodup.map_on (fun b hb b' hb' he => freePtr_inj hM hi hA
    ((hmem b).mp hb) ((hmem b').mp hb') he) hnd) (fun p => ⟨fun hp => ?_, fun hp => ?_⟩) ?_
  · obtain ⟨b, hb, rfl⟩ := List.mem_map.mp hp
    exact held_freePtr hM hi hA ((hmem b).mp hb)
  · obtain ⟨b, hb, rfl⟩ := exists_freePtr hM hi hA hp
    exact List.mem_map.mpr ⟨b, (hmem b).mpr hb, rfl⟩
  · intro hn
    obtain ⟨b, hb, he⟩ := List.mem_map.mp hn
    have := held_freePtr hM hi hA ((hmem b).mp hb)
    rw [he] at this
    cases this

theorem memory_freed_once_at_close_grown :
    ∃ pg, ReachablePages (filled ⟨false, false, false⟩ 0xc0) pg ∧
      pg.closeCalls (filled ⟨false, false, false⟩ 0xc0) ≠ [] ∧
      replay noBlocks (pg.trace ++ pg.closeCalls (filled ⟨false, false, false⟩ 0xc0)) =
        some noBlocks := by
  have hs := filled_spec ⟨false, false, false⟩ rfl 0xc0 (by decide)
  obtain ⟨pg, hpg⟩ := hs.reachable.reachableAlloc.pages
  have hmem := (close_frees_owned _ hs.reachable.reachableAlloc).2 .hashMap
  rw [owns_hashMap, hs.large le_rfl] at hmem
  refine ⟨pg, hpg, fun h0 => ?_, memory_freed_once_at_close _ pg hpg⟩
  rw [Pages.closeCalls, List.map_eq_nil_iff] at h0
  rw [h0] at hmem
  exact List.not_mem_nil _ (hmem.mpr rfl)

theorem Inv.pages_push_lostSmallTable {pm : ObMap} (h : pm.Inv) (hL : pm.fLargeMode = false)
    (hT : pm.c = pm.cHashGrowThreshold) {k v : UInt64} (hf : pm.Fresh k v)
    {alloc : AllocSite → Bool} (ha : alloc .growHashMap = true)
    (hd : alloc .growDirectory = false) (pg : Pages) :
    pg.call pm alloc (.push k v) =
      { pg with cBlock := pg.cBlock + 1, trace := pg.trace ++ [.localAlloc (.block pg.cBlock)],
                directory := update pg.directory 0 .null } := by
  simp only [Pages.call, Pages.push, if_neg fun hc' => (h.push_checks_iff k v).mp hc' hf, if_pos hT,
    Pages.grow, ha, hd, hL, and_self, if_true, if_false, Bool.true_eq_false]

/-- At the failed directory table of a small map's first grow, `_ObMap_Grow` does not free the new
hash array: after the close it is the one block left live. -/
theorem push_grow_failure_leaks_hash_array :
    ∃ pm pg, ReachablePages pm pg ∧ pm.fLargeMode = false ∧ pm.c = 0xc0 ∧
      ∀ alloc : AllocSite → Bool, alloc .growHashMap = true → alloc .growDirectory = false →
        ∃ pm' n, pm.call alloc (.push 0 0xc0) = some (pm', .bool false) ∧
          replay noBlocks ((pg.call pm alloc (.push 0 0xc0)).trace ++
            (pg.call pm alloc (.push 0 0xc0)).closeCalls pm') =
            some (update noBlocks (.block n) true) := by
  obtain ⟨pm, hs⟩ : ∃ pm, Filled ⟨true, false, false⟩ 0xbf pm :=
    ⟨_, filled_spec ⟨true, false, false⟩ rfl 0xbf (by decide)⟩
  obtain ⟨hL, hT⟩ := hs.small (by decide)
  have h := hs.reachable.inv
  obtain ⟨pg, hpg⟩ := hs.reachable.reachableAlloc.pages
  have hf : pm.Fresh 0 0xc0 := (hs.fresh (by decide)).nokey hs.fKey 0
  have hT' : pm.c = pm.cHashGrowThreshold := by rw [hs.c, hT]
  refine ⟨pm, pg, hpg, hL, hs.c, fun alloc ha hd => ⟨pm.lostSmallTable, pg.cBlock, ?_, ?_⟩⟩
  · simp [ObMap.call, h.push_lostSmallTable hL hT' hf ha hd]
  have hA := hpg.accounts
  have hM := hpg.mirrors
  have hnext : pg.next = 0 := hM.ledger.next_eq_zero fun b => by cases b <;> simp [owns, hL]
  have hv0 : pg.pHashMapValue = .inObMap := by
    rcases hA.mode with ⟨-, hv0⟩ | ⟨⟨m, h0⟩, -⟩
    · exact hv0
    · have := (hM.mode h).mp hL
      rw [h0] at this
      cases this
  have hclose : closeFrees pm.lostSmallTable = [] := by simp [closeFrees, lostSmallTable, hL]
  rw [h.pages_push_lostSmallTable hL hT' hf ha hd, Pages.closeCalls, hclose, List.map_nil,
    List.append_nil, replay_append, hA.live, Option.some_bind,
    replay_alloc (p := .block pg.cBlock) rfl hA.held_block_cBlock]
  congr 1
  funext p
  rcases p with _ | _ | k | k <;> simp [Pages.held, hnext, hv0, noBlocks, update_apply]

theorem Pages.obFreeAllObjects_directory_null {q : Pages} (hq : q.directory 0 = .null)
    {pm : ObMap} (hob : pm.fObjectsOb = true) (hc : 2 ≤ pm.c) : q.obFreeAllObjects pm = none := by
  have hread : q.read 1 = none := by
    simp [Pages.read, Pages.store, Pages.slot, Pages.cell, (index_zero_of_lt (i := 1) (by decide)).1,
      hq]
  obtain ⟨n, hn⟩ : ∃ n, pm.c - 1 = n + 1 := ⟨pm.c - 2, by omega⟩
  simp only [Pages.obFreeAllObjects, hn, List.range_succ_eq_map, List.mapM_cons, hread, hob, if_true]
  rfl

/-- At the failed directory table of a small map's first grow, the push returns `FALSE` with every
value held, and `_ObMap_ObFreeAllObjects` then reads through the `NULL` `Directory[0]`. -/
theorem close_after_grow_failure_faults :
    ∃ pm pg, ReachablePages pm pg ∧ pm.fObjectsOb = true ∧ pm.fLargeMode = false ∧ pm.c = 0xc0 ∧
      pg.obFreeAllObjects pm = some pm.freeEffects ∧
      ∀ alloc : AllocSite → Bool, alloc .growHashMap = true → alloc .growDirectory = false →
        ∃ pm', pm.call alloc (.push 0x180 0xc0) = some (pm', .bool false) ∧
          (abs pm').values = (abs pm).values ∧ pm'.fObjectsOb = true ∧
          (pg.call pm alloc (.push 0x180 0xc0)).directory 0 = .null ∧
          (pg.call pm alloc (.push 0x180 0xc0)).obFreeAllObjects pm' = none := by
  obtain ⟨pm, hs⟩ : ∃ pm, Filled ⟨false, true, false⟩ 0xbf pm :=
    ⟨_, filled_spec ⟨false, true, false⟩ rfl 0xbf (by decide)⟩
  have hf := hs.fresh (by decide)
  rw [show UInt64.ofNat (2 * (0xbf + 1)) = 0x180 from rfl,
    show UInt64.ofNat (0xbf + 1) = 0xc0 from rfl] at hf
  obtain ⟨hL, hT⟩ := hs.small (by decide)
  have h := hs.reachable.inv
  have hT' : pm.c = pm.cHashGrowThreshold := by rw [hs.c, hT]
  obtain ⟨pg, hpg⟩ := hs.reachable.reachableAlloc.pages
  refine ⟨pm, pg, hpg, hs.fObjectsOb, hL, hs.c, hpg.mirrors.obFreeAllObjects h,
    fun alloc ha hd => ⟨pm.lostSmallTable, ?_, rfl, hs.fObjectsOb, ?_, ?_⟩⟩
  · simp [ObMap.call, h.push_lostSmallTable hL hT' hf ha hd]
  · rw [h.pages_push_lostSmallTable hL hT' hf ha hd]
    exact update_same 0 Ptr.null pg.directory
  · rw [h.pages_push_lostSmallTable hL hT' hf ha hd]
    exact Pages.obFreeAllObjects_directory_null (update_same 0 Ptr.null pg.directory) hs.fObjectsOb
      (show 2 ≤ pm.c by rw [hs.c]; omega)

end Runs

end LeechCore.ObMap
