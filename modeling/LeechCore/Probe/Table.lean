import LeechCore.Probe.Loops
import Mathlib.Data.Finset.Card

/-!
# Linear-probing tables and their invariant

`Valid n home tbl S`: the non-zero slots hold the indices of `S`, each once, and every slot on
the probe path from an index's home to its slot is occupied.
-/

namespace LeechCore.Probe

set_option autoImplicit false

open Function

/-- The scan of `_ObMap_InsertHash`: the first empty slot. -/
def findFree (tbl : Nat → Nat) (mask fuel h : Nat) : Option Nat :=
  probe (fun s => tbl s == 0) id mask fuel h

/-- Every slot on the probe path from the home of the entry at `p` up to `p` is occupied. -/
def Reach (n : Nat) (home tbl : Nat → Nat) (p : Nat) : Prop :=
  ∀ s < n, dist n (home (tbl p)) s < dist n (home (tbl p)) p → tbl s ≠ 0

/-- The non-zero slots below `n` hold the indices of `S`, each exactly once. -/
structure Holds (n : Nat) (tbl : Nat → Nat) (S : Finset Nat) : Prop where
  zero_not_mem : 0 ∉ S
  mem : ∀ p < n, tbl p ≠ 0 → tbl p ∈ S
  inj : ∀ p < n, ∀ q < n, tbl p ≠ 0 → tbl p = tbl q → p = q
  cover : ∀ i ∈ S, ∃ p < n, tbl p = i

/-- The probe invariant of a table of `n` slots over the indices `S`. -/
structure Valid (n : Nat) (home tbl : Nat → Nat) (S : Finset Nat) extends Holds n tbl S : Prop where
  reach : ∀ p < n, tbl p ≠ 0 → Reach n home tbl p

section Holds

variable {n : Nat} {tbl : Nat → Nat} {S : Finset Nat}

theorem Holds.card_occupied (h : Holds n tbl S) :
    ((Finset.range n).filter (fun p => tbl p ≠ 0)).card = S.card := by
  apply Finset.card_nbij tbl
  · intro p hp
    simp only [Finset.mem_filter, Finset.mem_range] at hp
    exact h.mem p hp.1 hp.2
  · intro p hp q hq he
    simp only [Finset.coe_filter, Finset.mem_range, Set.mem_setOf_eq] at hp hq
    exact h.inj p hp.1 q hq.1 hp.2 he
  · intro i hi
    have hi := Finset.mem_coe.mp hi
    obtain ⟨p, hp, rfl⟩ := h.cover _ hi
    refine ⟨p, ?_, rfl⟩
    simp only [Finset.coe_filter, Finset.mem_range, Set.mem_setOf_eq]
    exact ⟨hp, fun h0 => h.zero_not_mem (h0 ▸ hi)⟩

theorem Holds.exists_zero (h : Holds n tbl S) (hc : S.card < n) : ∃ z < n, tbl z = 0 := by
  by_contra hne
  push_neg at hne
  have : (Finset.range n).filter (fun p => tbl p ≠ 0) = Finset.range n :=
    Finset.filter_true_of_mem fun p hp => hne p (Finset.mem_range.mp hp)
  have := h.card_occupied
  simp_all

theorem Holds.ne_zero_of_mem (h : Holds n tbl S) {i : Nat} (hi : i ∈ S) : i ≠ 0 :=
  fun h0 => h.zero_not_mem (h0 ▸ hi)

theorem Holds.clear (h : Holds n tbl S) {p : Nat} (hp : p < n) :
    Holds n (update tbl p 0) (S.erase (tbl p)) where
  zero_not_mem := fun h0 => h.zero_not_mem (Finset.mem_of_mem_erase h0)
  mem q hq hne := by
    have hqp : q ≠ p := by rintro rfl; simp at hne
    rw [update_noteq hqp] at hne ⊢
    exact Finset.mem_erase.mpr ⟨fun he => hqp (h.inj q hq p hp hne he), h.mem q hq hne⟩
  inj q hq r hr hne he := by
    have hqp : q ≠ p := by rintro rfl; simp at hne
    rw [update_noteq hqp] at hne he
    by_cases hrp : r = p
    · subst hrp; simp at he; exact absurd he hne
    · rw [update_noteq hrp] at he; exact h.inj q hq r hr hne he
  cover i hi := by
    obtain ⟨hip, hiS⟩ := Finset.mem_erase.mp hi
    obtain ⟨q, hq, rfl⟩ := h.cover i hiS
    exact ⟨q, hq, by rw [update_noteq (fun he => hip (by rw [he]))]⟩

theorem Holds.fill (h : Holds n tbl S) {r i : Nat} (hr : r < n) (hz : tbl r = 0) (hi0 : i ≠ 0)
    (hi : i ∉ S) : Holds n (update tbl r i) (insert i S) where
  zero_not_mem := by simp [hi0.symm, h.zero_not_mem]
  mem q hq hne := by
    by_cases hqr : q = r
    · subst hqr; simp
    · rw [update_noteq hqr] at hne ⊢; exact Finset.mem_insert_of_mem (h.mem q hq hne)
  inj q hq s hs hne he := by
    by_cases hqr : q = r <;> by_cases hsr : s = r
    · rw [hqr, hsr]
    · subst hqr; rw [update_same, update_noteq hsr] at he
      by_cases hs0 : tbl s = 0
      · exact absurd (he.trans hs0) hi0
      · exact absurd (he ▸ h.mem s hs hs0) hi
    · subst hsr; rw [update_same, update_noteq hqr] at he; rw [update_noteq hqr] at hne
      exact absurd (he ▸ h.mem q hq hne) hi
    · rw [update_noteq hqr, update_noteq hsr] at he; rw [update_noteq hqr] at hne
      exact h.inj q hq s hs hne he
  cover j hj := by
    rcases Finset.mem_insert.mp hj with rfl | hj
    · exact ⟨r, hr, update_same _ _ _⟩
    · obtain ⟨q, hq, rfl⟩ := h.cover j hj
      have hqr : q ≠ r := fun he => h.ne_zero_of_mem hj (he ▸ hz)
      exact ⟨q, hq, update_noteq hqr _ _⟩

theorem Holds.move (h : Holds n tbl S) {q r : Nat} (hq : q < n) (hr : r < n) (hne : tbl q ≠ 0)
    (hz : update tbl q 0 r = 0) : Holds n (update (update tbl q 0) r (tbl q)) S := by
  have h1 := h.clear hq
  have h2 := h1.fill hr hz hne (by simp)
  rwa [Finset.insert_erase (h.mem q hq hne)] at h2

end Holds

section Reach

variable {n : Nat} {home tbl : Nat → Nat}

theorem Reach.of_fill {p r v : Nat} (h : Reach n home tbl p) (hpr : p ≠ r) (hv : v ≠ 0) :
    Reach n home (update tbl r v) p := by
  intro s hs hd
  rw [update_noteq hpr] at hd
  by_cases hsr : s = r
  · subst hsr; simpa using hv
  · rw [update_noteq hsr]; exact h s hs hd

theorem Valid.congr_home {home' : Nat → Nat} {S : Finset Nat} (hv : Valid n home tbl S)
    (h : ∀ j ∈ S, home' j = home j) : Valid n home' tbl S :=
  ⟨hv.toHolds, fun p hp hne s hs hd => by
    rw [h _ (hv.mem p hp hne)] at hd
    exact hv.reach p hp hne s hs hd⟩

theorem Valid.empty : Valid n home (fun _ => 0) ∅ :=
  ⟨⟨Finset.not_mem_empty 0, fun _ _ h => absurd rfl h, fun _ _ _ _ h => absurd rfl h,
    fun _ h => absurd h (Finset.not_mem_empty _)⟩, fun _ _ h => absurd rfl h⟩

theorem reach_of_home_eq {p : Nat} (hp : home (tbl p) = p) : Reach n home tbl p := by
  intro s _ hd
  rw [hp, dist_self] at hd
  exact absurd hd (Nat.not_lt_zero _)

end Reach

section Insert

variable {n mask : Nat} (hmask : ∀ a, a &&& mask = a % n) {home : Nat → Nat}
  (hhome : ∀ i, home i < n)
include hmask

theorem findFree_spec {tbl : Nat → Nat} {h : Nat} (hh : h < n) (hz : ∃ z < n, tbl z = 0) :
    ∃ r < n, tbl r = 0 ∧ (∀ s < n, dist n h s < dist n h r → tbl s ≠ 0) ∧
      findFree tbl mask n h = some r := by
  obtain ⟨r, hr, hst, hmin, hp⟩ :=
    probe_first_slot hmask (fun s => tbl s == 0) id hh (by simpa using hz)
  refine ⟨r, hr, by simpa using hst, fun s hs hd => ?_, hp⟩
  simpa using hmin s hs hd

include hhome

theorem Valid.insert {tbl : Nat → Nat} {S : Finset Nat} (hv : Valid n home tbl S) {i : Nat}
    (hi0 : i ≠ 0) (hi : i ∉ S) (hz : ∃ z < n, tbl z = 0) :
    ∃ r < n, tbl r = 0 ∧ findFree tbl mask n (home i) = some r ∧
      Valid n home (update tbl r i) (insert i S) := by
  obtain ⟨r, hr, hr0, hmin, hf⟩ := findFree_spec hmask (hhome i) hz
  refine ⟨r, hr, hr0, hf, hv.fill hr hr0 hi0 hi, fun p hp hne => ?_⟩
  by_cases hpr : p = r
  · subst hpr
    intro s hs hd
    rw [update_same] at hd
    have hsr : s ≠ p := by rintro rfl; exact absurd hd (lt_irrefl _)
    rw [update_noteq hsr]
    exact hmin s hs hd
  · rw [update_noteq hpr] at hne
    exact (hv.reach p hp hne).of_fill hpr hi0

end Insert

section Lookup

variable {n mask : Nat} (hmask : ∀ a, a &&& mask = a % n)
include hmask

theorem Valid.lookup {α : Type} [DecidableEq α] {tbl : Nat → Nat} {S : Finset Nat}
    (field : Nat → α) (slot : α → Nat) (hslot : ∀ x, slot x < n)
    (hv : Valid n (fun i => slot (field i)) tbl S)
    (hfield : ∀ i ∈ S, ∀ j ∈ S, field i = field j → i = j) (hz : ∃ z < n, tbl z = 0) (x : α) :
    ∃ res, probe (fun s => tbl s == 0 || decide (x = field (tbl s)))
        (fun s => if tbl s = 0 then none else some (tbl s)) mask n (slot x) = some res ∧
      ∀ i, res = some i ↔ i ∈ S ∧ field i = x := by
  obtain ⟨r, hr, hst, hmin, hp⟩ := probe_first_slot hmask
    (fun s => tbl s == 0 || decide (x = field (tbl s)))
    (fun s => if tbl s = 0 then none else some (tbl s)) (hslot x) (by
      obtain ⟨z, hz, hz0⟩ := hz
      exact ⟨z, hz, by simp [hz0]⟩)
  refine ⟨_, hp, fun i => ?_⟩
  by_cases hr0 : tbl r = 0
  · simp only [hr0, if_true, reduceCtorEq, false_iff, not_and]
    intro hi hfi
    obtain ⟨p, hp, rfl⟩ := hv.cover i hi
    have hpne := hv.ne_zero_of_mem hi
    have hreach := hv.reach p hp hpne
    simp only [Reach, hfi] at hreach
    rcases Nat.lt_trichotomy (dist n (slot x) r) (dist n (slot x) p) with hlt | heq | hgt
    · exact hreach r hr hlt hr0
    · exact hpne (dist_inj (hslot x) hp hr heq.symm ▸ hr0)
    · simpa [hpne, hfi] using hmin p hp hgt
  · have hx : x = field (tbl r) := by simpa [hr0] using hst
    simp only [hr0, if_false, Option.some.injEq]
    constructor
    · rintro rfl; exact ⟨hv.mem r hr hr0, hx.symm⟩
    · rintro ⟨hi, rfl⟩; exact (hfield _ (hv.mem r hr hr0) _ hi hx.symm).symm ▸ rfl

end Lookup

end LeechCore.Probe
