import LeechCore.ObMap.Shape

/-!
# The close callback

`_ObMap_ObCloseCallback` walks `Directory[d]` and `Directory[d][t]` up to the first `NULL`; since
the tables and stores have no gap (`Paged`), it frees each block the map holds exactly once.
-/

namespace LeechCore.ObMap

set_option autoImplicit false

/-- A block of the map's own memory that `LocalAlloc` returned: the hash arrays, a directory
table `Directory[d]`, or a store `Directory[d][t]`. -/
inductive Block
  | hashMap
  | table (d : Nat)
  | store (d t : Nat)
deriving DecidableEq, Repr

variable {pm : ObMap}

/-- The inner loop of `_ObMap_ObCloseCallback` over `Directory[iDirectory][iTable]`, with `n`
turns left. -/
def closeTableLoop (pm : ObMap) (iDirectory : Nat) : Nat → Nat → List Block
  | 0, _ => []
  | n + 1, iTable =>
    if !pm.storeAt iDirectory iTable then [] else
    (if iDirectory ≠ 0 ∨ iTable ≠ 0 then [.store iDirectory iTable] else []) ++
      closeTableLoop pm iDirectory n (iTable + 1)

/-- The outer loop of `_ObMap_ObCloseCallback` over `Directory[iDirectory]`, with `n` turns
left. -/
def closeDirectoryLoop (pm : ObMap) : Nat → Nat → List Block
  | 0, _ => []
  | n + 1, iDirectory =>
    if !pm.tableAt iDirectory then [] else
    closeTableLoop pm iDirectory OB_MAP_ENTRIES_TABLE 0 ++ [.table iDirectory] ++
      closeDirectoryLoop pm n (iDirectory + 1)

/-- The blocks `_ObMap_ObCloseCallback` hands to `LocalFree`, in order. -/
def closeFrees (pm : ObMap) : List Block :=
  if pm.fLargeMode then closeDirectoryLoop pm OB_MAP_ENTRIES_DIRECTORY 0 ++ [.hashMap] else []

/-- The blocks the map holds from `LocalAlloc`: in large mode the hash arrays, the directory
tables and the stores but `Store00`; a small map's memory all lies inside the map. -/
def owns (pm : ObMap) : Block → Bool
  | .hashMap => pm.fLargeMode
  | .table d => pm.fLargeMode && pm.tableAt d
  | .store d t => pm.fLargeMode && pm.storeAt d t && (d != 0 || t != 0)

@[simp] theorem owns_hashMap : pm.owns .hashMap = pm.fLargeMode := rfl

@[simp] theorem owns_table (d : Nat) : pm.owns (.table d) = (pm.fLargeMode && pm.tableAt d) := rfl

section Loops

variable {d : Nat}

theorem store_of_mem_closeTableLoop :
    ∀ {n t0 : Nat} {b : Block}, b ∈ closeTableLoop pm d n t0 → ∃ t, b = .store d t ∧ t0 ≤ t
  | 0, _, _, h => by simp [closeTableLoop] at h
  | n + 1, t0, b, h => by
    simp only [closeTableLoop] at h
    split_ifs at h with hs hc
    · cases h
    · rcases List.mem_append.mp h with h | h
      · exact ⟨t0, List.mem_singleton.mp h, le_rfl⟩
      · obtain ⟨t, rfl, ht⟩ := store_of_mem_closeTableLoop h
        exact ⟨t, rfl, by omega⟩
    · obtain ⟨t, rfl, ht⟩ := store_of_mem_closeTableLoop (by simpa using h)
      exact ⟨t, rfl, by omega⟩

theorem nodup_closeTableLoop : ∀ (n t0 : Nat), (closeTableLoop pm d n t0).Nodup
  | 0, _ => List.nodup_nil
  | n + 1, t0 => by
    simp only [closeTableLoop]
    split_ifs
    · exact List.nodup_nil
    · refine List.nodup_append.mpr ⟨List.nodup_singleton _, nodup_closeTableLoop n (t0 + 1), ?_⟩
      intro b hb hb'
      obtain ⟨t, rfl, ht⟩ := store_of_mem_closeTableLoop hb'
      simp only [List.mem_singleton, Block.store.injEq] at hb
      omega
    · simpa using nodup_closeTableLoop n (t0 + 1)

theorem mem_closeTableLoop (hpre : ∀ u u', pm.storeAt d u = true → u' ≤ u → pm.storeAt d u' = true) :
    ∀ (n t0 : Nat) (b : Block), b ∈ closeTableLoop pm d n t0 ↔
      ∃ t, b = .store d t ∧ t0 ≤ t ∧ t < t0 + n ∧ pm.storeAt d t = true ∧ (d ≠ 0 ∨ t ≠ 0)
  | 0, t0, b => by simp only [closeTableLoop, List.not_mem_nil, false_iff]; omega
  | n + 1, t0, b => by
    simp only [closeTableLoop]
    cases hs : pm.storeAt d t0
    · simp only [Bool.not_false, if_true, List.not_mem_nil, false_iff, not_exists, not_and]
      intro t _ ht _ hst
      rw [hpre t t0 hst ht] at hs; cases hs
    simp only [Bool.not_true, Bool.false_eq_true, if_false, List.mem_append,
      mem_closeTableLoop hpre n (t0 + 1) b]
    constructor
    · rintro (hb | ⟨t, rfl, ht, ht', hst, hc⟩)
      · split_ifs at hb with hc
        · exact ⟨t0, List.mem_singleton.mp hb, le_rfl, by omega, hs, hc⟩
        · cases hb
      · exact ⟨t, rfl, by omega, by omega, hst, hc⟩
    · rintro ⟨t, rfl, ht, ht', hst, hc⟩
      rcases Nat.eq_or_lt_of_le ht with rfl | ht
      · exact .inl (by rw [if_pos hc]; exact List.mem_singleton_self _)
      · exact .inr ⟨t, rfl, ht, by omega, hst, hc⟩

theorem index_of_mem_closeDirectoryLoop : ∀ {n d0 : Nat} {b : Block},
    b ∈ closeDirectoryLoop pm n d0 → ∃ d, d0 ≤ d ∧ (b = .table d ∨ ∃ t, b = .store d t)
  | 0, _, _, h => by simp [closeDirectoryLoop] at h
  | n + 1, d0, b, h => by
    simp only [closeDirectoryLoop] at h
    split_ifs at h
    · cases h
    rcases List.mem_append.mp h with h | h
    · rcases List.mem_append.mp h with h | h
      · obtain ⟨t, rfl, -⟩ := store_of_mem_closeTableLoop h
        exact ⟨d0, le_rfl, .inr ⟨t, rfl⟩⟩
      · exact ⟨d0, le_rfl, .inl (List.mem_singleton.mp h)⟩
    · obtain ⟨d, hd, hb⟩ := index_of_mem_closeDirectoryLoop h
      exact ⟨d, by omega, hb⟩

theorem nodup_closeDirectoryLoop : ∀ (n d0 : Nat), (closeDirectoryLoop pm n d0).Nodup
  | 0, _ => List.nodup_nil
  | n + 1, d0 => by
    simp only [closeDirectoryLoop]
    split_ifs
    · exact List.nodup_nil
    refine List.nodup_append.mpr ⟨List.nodup_append.mpr ⟨nodup_closeTableLoop _ _,
      List.nodup_singleton _, fun b hb hb' => ?_⟩, nodup_closeDirectoryLoop n (d0 + 1), ?_⟩
    · obtain ⟨t, rfl, -⟩ := store_of_mem_closeTableLoop hb
      simp at hb'
    · intro b hb hb'
      obtain ⟨d, hd, hb'⟩ := index_of_mem_closeDirectoryLoop hb'
      rcases List.mem_append.mp hb with hb | hb
      · obtain ⟨t, rfl, -⟩ := store_of_mem_closeTableLoop hb
        rcases hb' with hb' | ⟨t', hb'⟩
        · cases hb'
        · simp only [Block.store.injEq] at hb'; omega
      · rw [List.mem_singleton] at hb; subst hb
        rcases hb' with hb' | ⟨t', hb'⟩
        · simp only [Block.table.injEq] at hb'; omega
        · cases hb'

theorem mem_closeDirectoryLoop (hpre : ∀ e e', pm.tableAt e = true → e' ≤ e → pm.tableAt e' = true) :
    ∀ (n d0 : Nat) (b : Block), b ∈ closeDirectoryLoop pm n d0 ↔
      ∃ d, d0 ≤ d ∧ d < d0 + n ∧ pm.tableAt d = true ∧
        (b = .table d ∨ b ∈ closeTableLoop pm d OB_MAP_ENTRIES_TABLE 0)
  | 0, d0, b => by simp only [closeDirectoryLoop, List.not_mem_nil, false_iff]; omega
  | n + 1, d0, b => by
    simp only [closeDirectoryLoop]
    cases ht : pm.tableAt d0
    · simp only [Bool.not_false, if_true, List.not_mem_nil, false_iff, not_exists, not_and]
      intro d hd _ htd
      rw [hpre d d0 htd hd] at ht; cases ht
    simp only [Bool.not_true, Bool.false_eq_true, if_false, List.mem_append, List.mem_singleton,
      mem_closeDirectoryLoop hpre n (d0 + 1) b]
    constructor
    · rintro ((hb | hb) | ⟨d, hd, hd', htd, hb⟩)
      · exact ⟨d0, le_rfl, by omega, ht, .inr hb⟩
      · exact ⟨d0, le_rfl, by omega, ht, .inl hb⟩
      · exact ⟨d, by omega, by omega, htd, hb⟩
    · rintro ⟨d, hd, hd', htd, hb⟩
      rcases Nat.eq_or_lt_of_le hd with rfl | hd
      · exact .inl (hb.symm.imp id id)
      · exact .inr ⟨d, hd, by omega, htd, hb⟩

end Loops

theorem Paged.closeDirectoryLoop_iff (hp : pm.Paged) (b : Block) :
    b ∈ closeDirectoryLoop pm OB_MAP_ENTRIES_DIRECTORY 0 ↔
      (∃ d, b = .table d ∧ pm.tableAt d = true) ∨
        ∃ d t, b = .store d t ∧ pm.storeAt d t = true ∧ (d ≠ 0 ∨ t ≠ 0) := by
  rw [mem_closeDirectoryLoop (fun e e' he hle => hp.table_prefix e e' he hle)]
  constructor
  · rintro ⟨d, -, -, htd, rfl | hb⟩
    · exact .inl ⟨d, rfl, htd⟩
    · rw [mem_closeTableLoop (fun u u' hu hle => hp.store_prefix d u d u' hu
        (lt_of_le_of_lt hle (hp.store_lt d u hu)) (by omega))] at hb
      obtain ⟨t, rfl, -, -, hst, hc⟩ := hb
      exact .inr ⟨d, t, rfl, hst, hc⟩
  · rintro (⟨d, rfl, htd⟩ | ⟨d, t, rfl, hst, hc⟩)
    · exact ⟨d, Nat.zero_le _, by simpa using hp.table_lt d htd, htd, .inl rfl⟩
    · have htd := hp.table_of_store d t hst
      refine ⟨d, Nat.zero_le _, by simpa using hp.table_lt d htd, htd, .inr ?_⟩
      rw [mem_closeTableLoop (fun u u' hu hle => hp.store_prefix d u d u' hu
        (lt_of_le_of_lt hle (hp.store_lt d u hu)) (by omega))]
      exact ⟨t, rfl, Nat.zero_le _, by simpa using hp.store_lt d t hst, hst, hc⟩

theorem Paged.closeFrees_iff (hp : pm.Paged) :
    (closeFrees pm).Nodup ∧ ∀ b, b ∈ closeFrees pm ↔ pm.owns b = true := by
  unfold closeFrees
  cases hL : pm.fLargeMode
  · refine ⟨List.nodup_nil, fun b => ?_⟩
    cases b <;> simp [owns, hL]
  simp only [if_true]
  refine ⟨List.nodup_append.mpr ⟨nodup_closeDirectoryLoop _ _, List.nodup_singleton _,
    fun b hb hb' => ?_⟩, fun b => ?_⟩
  · rw [List.mem_singleton] at hb'; subst hb'
    rcases (hp.closeDirectoryLoop_iff _).1 hb with ⟨d, hb, -⟩ | ⟨d, t, hb, -⟩ <;> cases hb
  · rw [List.mem_append, hp.closeDirectoryLoop_iff, List.mem_singleton]
    cases b <;> simp [owns, hL, and_assoc]

/-- `_ObMap_ObCloseCallback` frees each block the map holds from `LocalAlloc` exactly once, and
never `_SmallTable`, `Store00` or `_SmallHashMap`. -/
theorem close_frees_owned (pm : ObMap) (h : ReachableAlloc pm) :
    (closeFrees pm).Nodup ∧ ∀ b, b ∈ closeFrees pm ↔ pm.owns b = true :=
  h.paged.closeFrees_iff

theorem close_frees_owned_grown :
    (filled ⟨false, false, false⟩ 0xc0).fLargeMode = true ∧
      (closeFrees (filled ⟨false, false, false⟩ 0xc0)).Nodup ∧
      (∀ b, b ∈ closeFrees (filled ⟨false, false, false⟩ 0xc0) ↔
        (filled ⟨false, false, false⟩ 0xc0).owns b = true) ∧
      Block.hashMap ∈ closeFrees (filled ⟨false, false, false⟩ 0xc0) ∧
      Block.table 0 ∈ closeFrees (filled ⟨false, false, false⟩ 0xc0) := by
  have hs := filled_spec ⟨false, false, false⟩ rfl 0xc0 (by decide)
  have hL := hs.large le_rfl
  obtain ⟨hnd, hmem⟩ := close_frees_owned _ hs.reachable.reachableAlloc
  refine ⟨hL, hnd, hmem, (hmem _).mpr (by rw [owns_hashMap, hL]), (hmem _).mpr ?_⟩
  rw [owns_table, hL, hs.reachable.inv.store00.1]
  rfl

end LeechCore.ObMap
