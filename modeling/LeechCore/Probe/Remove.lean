import LeechCore.Probe.Table

/-!
# Deletion with re-insertion of the rest of the cluster

`Sweep` is the state of the walk of `_ObMap_RemoveHash` after the slot it clears: every entry
stays reachable from its home, and the empty slot closing the cluster stays empty.
-/

namespace LeechCore.Probe

set_option autoImplicit false

open Function

/-- The clear-and-reinsert loop of `_ObMap_RemoveHash`, starting after slot `iNextHash`;
`fuelIns` is the fuel of each `_ObMap_InsertHash` it calls. -/
def sweep (mask : Nat) (home : Nat → Nat) (fuelIns : Nat) :
    Nat → (Nat → Nat) → Nat → Option (Nat → Nat)
  | 0, _, _ => none
  | fuel + 1, tbl, iNextHash =>
    let iNextHash := (iNextHash + 1) &&& mask
    let iNextEntry := tbl iNextHash
    if iNextEntry = 0 then some tbl
    else if iNextHash = home iNextEntry then sweep mask home fuelIns fuel tbl iNextHash
    else
      let tbl := update tbl iNextHash 0
      match findFree tbl mask fuelIns (home iNextEntry) with
      | some r => sweep mask home fuelIns fuel (update tbl r iNextEntry) iNextHash
      | none => none

/-- `_ObMap_RemoveHash` on one table of `n` slots, from the home slot `h` of the removed
entry's field. -/
def removeSlots (tbl : Nat → Nat) (mask n : Nat) (home : Nat → Nat) (iEntry h : Nat) :
    Option (Nat → Nat) :=
  match probe (fun s => iEntry == tbl s) id mask n h with
  | some iHash => sweep mask home n n (update tbl iHash 0) iHash
  | none => none

variable {n : Nat}

theorem dist_lt_of_cluster {p0 h q p z : Nat} (hp0 : p0 < n) (hh : h < n) (hq : q < n)
    (hp : p < n) (hz : z < n) (hqz : dist n p0 q < dist n p0 z)
    (hpq : dist n p0 p < dist n p0 q ∨ dist n p0 z < dist n p0 p)
    (hd : dist n h q < dist n h p) : dist n h z < dist n h p := by
  apply dist_lt_of_between hh hq hp hz hd
  rw [dist_eq_sub hp0 hq hz hqz.le]
  rcases hpq with hpq | hpq
  · rw [dist_eq_add_sub hp0 hq hp hpq]
    have := dist_lt (a := p0) (b := z) (by omega : 0 < n)
    omega
  · rw [dist_eq_sub hp0 hq hp (by omega)]
    omega

theorem Reach.clear_fill {home tbl : Nat → Nat} {p q r v : Nat} (h : Reach n home tbl p)
    (hpq : p ≠ q) (hpr : p ≠ r) (hv : v ≠ 0)
    (hq : ¬ dist n (home (tbl p)) q < dist n (home (tbl p)) p) :
    Reach n home (update (update tbl q 0) r v) p := by
  intro s hs hd
  rw [update_noteq hpr, update_noteq hpq] at hd
  by_cases hsr : s = r
  · subst hsr; simpa using hv
  by_cases hsq : s = q
  · exact absurd (hsq ▸ hd) hq
  rw [update_noteq hsr, update_noteq hsq]
  exact h s hs hd

section Sweep

variable {mask : Nat} (hmask : ∀ a, a &&& mask = a % n) {home : Nat → Nat}
  (hhome : ∀ i, home i < n) {t0 : Nat → Nat} {S : Finset Nat} {i p0 z : Nat}

/-- The walk after clearing `p0`, with the slots fewer than `o` steps after `p0` visited; `z` is
the first empty slot after `p0`. -/
structure Sweep (n : Nat) (home : Nat → Nat) (t0 : Nat → Nat) (S : Finset Nat) (i p0 z : Nat)
    (t : Nat → Nat) (o : Nat) : Prop where
  frame : ∀ s < n, o ≤ dist n p0 s → t s = t0 s
  holds : Holds n t (S.erase i)
  done : ∀ p < n, t p ≠ 0 → (dist n p0 p < o ∨ dist n p0 z ≤ dist n p0 p) → Reach n home t p
  pending : ∀ p < n, t p ≠ 0 → o ≤ dist n p0 p → dist n p0 p < dist n p0 z →
    ∀ s < n, dist n (home (t p)) s < dist n (home (t p)) p → t s = 0 → dist n p0 s < o

variable (hp0 : p0 < n) (hz : z < n) (hz0 : t0 z = 0)
  (hfirst : ∀ s < n, dist n p0 s < dist n p0 z → t0 s ≠ 0)
include hhome hp0 hz hz0 hfirst

theorem Sweep.init (hv : Valid n home t0 S) (hi : t0 p0 = i) (hi0 : i ≠ 0) :
    Sweep n home t0 S i p0 z (update t0 p0 0) 1 := by
  have hpz : p0 ≠ z := by rintro rfl; exact hi0 (hi ▸ hz0)
  have hdz : 0 < dist n p0 z := Nat.pos_of_ne_zero fun h => hpz (eq_of_dist_eq_zero hp0 hz h)
  refine ⟨fun s hs hd => update_noteq (by rintro rfl; simp at hd) _ _, hi ▸ hv.clear hp0,
    fun p hp hne hpo => ?_, fun p hp hne hpo _ s hs hd hs0 => ?_⟩
  · have hpp0 : p ≠ p0 := by rintro rfl; simp at hne
    rw [update_noteq hpp0] at hne
    have hpz' : p ≠ z := by rintro rfl; exact hne hz0
    have hlt : dist n p0 z < dist n p0 p := by
      rcases hpo with h | h
      · exact absurd (eq_of_dist_eq_zero hp0 hp (by omega)).symm hpp0
      · exact lt_of_le_of_ne h fun he => hpz' (dist_inj hp0 hp hz he.symm)
    have hr := hv.reach p hp hne
    intro s hs hd
    rw [update_noteq hpp0] at hd
    have hsp0 : s ≠ p0 := by
      rintro rfl
      exact hr z hz (dist_lt_of_cluster hp0 (hhome _) hp0 hp hz (by simpa using hdz) (.inr hlt) hd)
        hz0
    rw [update_noteq hsp0]
    exact hr s hs hd
  · have hpp0 : p ≠ p0 := by rintro rfl; simp at hne
    rw [update_noteq hpp0] at hne hd
    by_cases hsp0 : s = p0
    · subst hsp0; simp
    · rw [update_noteq hsp0] at hs0
      exact absurd hs0 (hv.reach p hp hne s hs hd)

variable {t : Nat → Nat} {o q : Nat}

omit hhome hp0 hz hz0 in
theorem Sweep.visit_ne_zero (hs : Sweep n home t0 S i p0 z t o) (hq : q < n)
    (hoq : dist n p0 q = o) (hoz : o < dist n p0 z) : t q ≠ 0 := by
  rw [hs.frame q hq hoq.ge]
  exact hfirst q hq (by omega)

omit hhome hz hz0 hfirst in
theorem Sweep.step_home (hs : Sweep n home t0 S i p0 z t o) (hq : q < n)
    (hoq : dist n p0 q = o) (hh : home (t q) = q) :
    Sweep n home t0 S i p0 z t (o + 1) := by
  refine ⟨fun s hs' hd => hs.frame s hs' (by omega), hs.holds, fun p hp hne hpo => ?_,
    fun p hp hne hpo hpz s hs' hd hs0 => ?_⟩
  · by_cases hpq : p = q
    · subst hpq; exact reach_of_home_eq hh
    · have : dist n p0 p ≠ o := fun he => hpq (dist_inj hp0 hp hq (he.trans hoq.symm))
      exact hs.done p hp hne (by omega)
  · have := hs.pending p hp hne (by omega) hpz s hs' hd hs0
    omega

theorem Sweep.step_move (hs : Sweep n home t0 S i p0 z t o) (hq : q < n)
    (hoq : dist n p0 q = o) (hoz : o < dist n p0 z) {r : Nat} (hr : r < n)
    (hr0 : update t q 0 r = 0)
    (hmin : ∀ s < n, dist n (home (t q)) s < dist n (home (t q)) r → update t q 0 s ≠ 0) :
    Sweep n home t0 S i p0 z (update (update t q 0) r (t q)) (o + 1) := by
  have he := hs.visit_ne_zero hfirst hq hoq hoz
  have hle : dist n (home (t q)) r ≤ dist n (home (t q)) q :=
    Nat.le_of_not_lt fun hlt => hmin q hq hlt (by simp)
  have hro : dist n p0 r ≤ o := by
    by_cases hrq : r = q
    · rw [hrq, hoq]
    · rw [update_noteq hrq] at hr0
      exact (hs.pending q hq he hoq.ge (hoq ▸ hoz) r hr (lt_of_le_of_ne hle
        fun h => hrq (dist_inj (hhome _) hr hq h)) hr0).le
  have hzt : t z = 0 := (hs.frame z hz (by omega)).trans hz0
  refine ⟨fun s hs' hd => ?_, hs.holds.move hq hr he hr0, fun p hp hne hpo => ?_,
    fun p hp hne hpo hpz s hs' hd hs0 => ?_⟩
  · rw [update_noteq (by rintro rfl; omega), update_noteq (by rintro rfl; omega)]
    exact hs.frame s hs' (by omega)
  · by_cases hpr : p = r
    · subst hpr
      intro s hs' hd
      rw [update_same] at hd
      rw [update_noteq (by rintro rfl; exact lt_irrefl _ hd)]
      exact hmin s hs' hd
    have hpq : p ≠ q := by rintro rfl; simp [update_noteq hpr] at hne
    rw [update_noteq hpr, update_noteq hpq] at hne
    have hpo' : dist n p0 p ≠ o := fun h => hpq (dist_inj hp0 hp hq (h.trans hoq.symm))
    have hpz : p ≠ z := by rintro rfl; exact hne hzt
    have hpz' : dist n p0 p ≠ dist n p0 z := fun h => hpz (dist_inj hp0 hp hz h)
    have hreach := hs.done p hp hne (by omega)
    refine hreach.clear_fill hpq hpr he fun hd => hreach z hz ?_ hzt
    exact dist_lt_of_cluster hp0 (hhome _) hq hp hz (hoq ▸ hoz) (by omega) hd
  · have hpq : p ≠ q := by rintro rfl; omega
    have hpr : p ≠ r := by rintro rfl; omega
    rw [update_noteq hpr, update_noteq hpq] at hne hd
    by_cases hsq : s = q
    · subst hsq; omega
    by_cases hsr : s = r
    · subst hsr; simp [he] at hs0
    rw [update_noteq hsr, update_noteq hsq] at hs0
    have := hs.pending p hp hne (by omega) hpz s hs' hd hs0
    omega

end Sweep

section Run

variable {mask : Nat} (hmask : ∀ a, a &&& mask = a % n) {home : Nat → Nat}
  (hhome : ∀ i, home i < n)
include hmask hhome

theorem sweep_run {t0 : Nat → Nat} {S : Finset Nat} {i p0 z : Nat} (hp0 : p0 < n) (hz : z < n)
    (hz0 : t0 z = 0) (hfirst : ∀ s < n, dist n p0 s < dist n p0 z → t0 s ≠ 0) :
    ∀ (fuel o : Nat) (t : Nat → Nat), 1 ≤ o → o ≤ dist n p0 z → dist n p0 z - o < fuel →
      Sweep n home t0 S i p0 z t o →
      ∃ t', sweep mask home n fuel t ((p0 + (o - 1)) % n) = some t' ∧
        Valid n home t' (S.erase i)
  | 0, _, _, _, _, hf, _ => absurd hf (Nat.not_lt_zero _)
  | fuel + 1, o, t, ho, hoz, hf, hs => by
    have hn : 0 < n := by omega
    have hdz : dist n p0 z < n := dist_lt hn
    have hq : (p0 + o) % n < n := Nat.mod_lt _ hn
    have hoq : dist n p0 ((p0 + o) % n) = o := dist_add_mod hp0 (by omega)
    have hnext : ((p0 + (o - 1)) % n + 1) &&& mask = (p0 + o) % n := by
      rw [hmask, Nat.mod_add_mod, show p0 + (o - 1) + 1 = p0 + o by omega]
    rcases Nat.lt_or_ge o (dist n p0 z) with hlt | hge
    · have he := hs.visit_ne_zero hfirst hq hoq hlt
      by_cases hh : (p0 + o) % n = home (t ((p0 + o) % n))
      · obtain ⟨t', ht', hv'⟩ := sweep_run hp0 hz hz0 hfirst fuel (o + 1) t (by omega) hlt
          (by omega) (hs.step_home hp0 hq hoq hh.symm)
        refine ⟨t', ?_, hv'⟩
        rw [Nat.add_sub_cancel] at ht'
        simp only [sweep, hnext, he, if_false]
        rw [if_pos hh]; exact ht'
      · obtain ⟨r, hr, hr0, hmin, hfree⟩ :=
          findFree_spec hmask (hhome (t ((p0 + o) % n))) ⟨_, hq, update_same _ _ _⟩
        obtain ⟨t', ht', hv'⟩ := sweep_run hp0 hz hz0 hfirst fuel (o + 1) _ (by omega) hlt
          (by omega) (hs.step_move hhome hp0 hz hz0 hfirst hq hoq hlt hr hr0 hmin)
        refine ⟨t', ?_, hv'⟩
        rw [Nat.add_sub_cancel] at ht'
        simp only [sweep, hnext, he, hh, if_false, hfree]
        exact ht'
    · have hqz : (p0 + o) % n = z := by
        rw [show o = dist n p0 z by omega, add_dist_mod hp0 hz]
      have ht : t ((p0 + o) % n) = 0 := by rw [hqz, hs.frame z hz (by omega), hz0]
      exact ⟨t, by simp [sweep, hnext, ht], hs.holds, fun p hp hne => hs.done p hp hne (by omega)⟩

theorem Valid.remove {t0 : Nat → Nat} {S : Finset Nat} (hv : Valid n home t0 S) {i : Nat}
    (hi : i ∈ S) (hz : ∃ z < n, t0 z = 0) {h : Nat} (hh : h < n) :
    ∃ t', removeSlots t0 mask n home i h = some t' ∧ Valid n home t' (S.erase i) := by
  obtain ⟨p0, hp0, hst, -, hfind⟩ := probe_first_slot hmask (fun s => i == t0 s) id hh (by
    obtain ⟨p, hp, hpi⟩ := hv.cover i hi
    exact ⟨p, hp, by simp [hpi]⟩)
  have hpi : t0 p0 = i := (beq_iff_eq.mp hst).symm
  obtain ⟨z, hz, hz0, hmin, -⟩ := findFree_spec hmask hp0 hz
  have hi0 := hv.ne_zero_of_mem hi
  have hdz : 0 < dist n p0 z := Nat.pos_of_ne_zero fun h0 => hi0 (by
    rw [← hpi, eq_of_dist_eq_zero hp0 hz h0, hz0])
  obtain ⟨t', ht', hv'⟩ := sweep_run hmask hhome hp0 hz hz0 hmin n 1 _ le_rfl hdz
    (by have := dist_lt (a := p0) (b := z) (by omega : 0 < n); omega)
    (Sweep.init hhome hp0 hz hz0 hmin hv hpi hi0)
  rw [Nat.sub_self, Nat.add_zero, Nat.mod_eq_of_lt hp0] at ht'
  refine ⟨t', ?_, hv'⟩
  unfold removeSlots
  rw [hfind]
  exact ht'

end Run

end LeechCore.Probe
