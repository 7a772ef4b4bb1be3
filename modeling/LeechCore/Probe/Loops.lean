import Mathlib.Logic.Function.Basic
import Mathlib.Data.Nat.Find

/-!
# The probe loops of the hash maps

`probe` is the loop `iHash = (iHash + 1) & dwHashMask` of the three hash scans, with fuel
`cHashMax`; `none` is a loop that never stops.
-/

namespace LeechCore.Probe

set_option autoImplicit false

/-- `while(!stop(iHash)) iHash = (iHash + 1) & mask`, at most `fuel` times. -/
def probe {β : Type} (stop : Nat → Bool) (out : Nat → β) (mask : Nat) : Nat → Nat → Option β
  | 0, _ => none
  | fuel + 1, iHash =>
    if stop iHash then some (out iHash) else probe stop out mask fuel ((iHash + 1) &&& mask)

/-- The number of probe steps from slot `a` to slot `b` in a table of `n` slots. -/
def dist (n a b : Nat) : Nat := (b + n - a) % n

section Dist

variable {n a b h j : Nat}

theorem dist_lt (hn : 0 < n) : dist n a b < n := Nat.mod_lt _ hn

theorem dist_of_le (hb : b < n) (h : a ≤ b) : dist n a b = b - a := by
  unfold dist
  rw [show b + n - a = (b - a) + n by omega, Nat.add_mod_right, Nat.mod_eq_of_lt (by omega)]

theorem dist_of_lt (ha : a < n) (h : b < a) : dist n a b = b + n - a := by
  unfold dist; exact Nat.mod_eq_of_lt (by omega)

theorem dist_cases (ha : a < n) (hb : b < n) :
    (a ≤ b ∧ dist n a b = b - a) ∨ (b < a ∧ dist n a b = b + n - a) := by
  rcases Nat.lt_or_ge b a with h | h
  · exact .inr ⟨h, dist_of_lt ha h⟩
  · exact .inl ⟨h, dist_of_le hb h⟩

@[simp] theorem dist_self : dist n a a = 0 := by simp [dist]

theorem eq_of_dist_eq_zero (ha : a < n) (hb : b < n) (h : dist n a b = 0) : a = b := by
  rcases dist_cases ha hb with ⟨_, _⟩ | ⟨_, _⟩ <;> omega

theorem dist_add_mod (hh : h < n) (hj : j < n) : dist n h ((h + j) % n) = j := by
  rcases Nat.lt_or_ge (h + j) n with hlt | hge
  · rw [Nat.mod_eq_of_lt hlt, dist_of_le hlt (by omega)]; omega
  · rw [show h + j = (h + j - n) + n by omega, Nat.add_mod_right, Nat.mod_eq_of_lt (by omega),
      dist_of_lt hh (by omega)]; omega

theorem add_dist_mod (ha : a < n) (hb : b < n) : (a + dist n a b) % n = b := by
  rcases dist_cases ha hb with ⟨_, h⟩ | ⟨_, h⟩ <;> rw [h]
  · rw [Nat.mod_eq_of_lt (by omega)]; omega
  · rw [show a + (b + n - a) = b + n by omega, Nat.add_mod_right, Nat.mod_eq_of_lt hb]

theorem dist_inj (hh : h < n) (ha : a < n) (hb : b < n) (he : dist n h a = dist n h b) :
    a = b := by
  rw [← add_dist_mod hh ha, ← add_dist_mod hh hb, he]

theorem dist_add_of_lt {h s p : Nat} (hh : h < n) (hs : s < n) (hp : p < n)
    (hlt : dist n h s < dist n h p) : dist n h p = dist n h s + dist n s p := by
  rcases dist_cases hh hs with ⟨_, h1⟩ | ⟨_, h1⟩ <;> rcases dist_cases hh hp with ⟨_, h2⟩ | ⟨_, h2⟩ <;>
    rcases dist_cases hs hp with ⟨_, h3⟩ | ⟨_, h3⟩ <;> omega

theorem dist_le_add {h s z : Nat} (hh : h < n) (hs : s < n) (hz : z < n) :
    dist n h z ≤ dist n h s + dist n s z := by
  rcases dist_cases hh hs with ⟨_, h1⟩ | ⟨_, h1⟩ <;> rcases dist_cases hh hz with ⟨_, h2⟩ | ⟨_, h2⟩ <;>
    rcases dist_cases hs hz with ⟨_, h3⟩ | ⟨_, h3⟩ <;> omega

theorem dist_lt_of_between {h s p z : Nat} (hh : h < n) (hs : s < n) (hp : p < n) (hz : z < n)
    (hsp : dist n h s < dist n h p) (hzp : dist n s z < dist n s p) :
    dist n h z < dist n h p := by
  have := dist_add_of_lt hh hs hp hsp
  have := dist_le_add hh hs hz
  omega

theorem dist_eq_sub {p0 a b : Nat} (hp0 : p0 < n) (ha : a < n) (hb : b < n)
    (hab : dist n p0 a ≤ dist n p0 b) : dist n a b = dist n p0 b - dist n p0 a := by
  rcases dist_cases hp0 ha with ⟨_, h1⟩ | ⟨_, h1⟩ <;> rcases dist_cases hp0 hb with ⟨_, h2⟩ | ⟨_, h2⟩ <;>
    rcases dist_cases ha hb with ⟨_, h3⟩ | ⟨_, h3⟩ <;> omega

theorem dist_eq_add_sub {p0 a b : Nat} (hp0 : p0 < n) (ha : a < n) (hb : b < n)
    (hab : dist n p0 b < dist n p0 a) : dist n a b = dist n p0 b + n - dist n p0 a := by
  rcases dist_cases hp0 ha with ⟨_, h1⟩ | ⟨_, h1⟩ <;> rcases dist_cases hp0 hb with ⟨_, h2⟩ | ⟨_, h2⟩ <;>
    rcases dist_cases ha hb with ⟨_, h3⟩ | ⟨_, h3⟩ <;> omega

end Dist

section Probe

variable {n mask : Nat} (hmask : ∀ a, a &&& mask = a % n)
include hmask

theorem probe_eq_of_first {β : Type} (stop : Nat → Bool) (out : Nat → β) :
    ∀ (j0 fuel h : Nat), h < n → j0 < fuel → stop ((h + j0) % n) = true →
      (∀ j < j0, stop ((h + j) % n) = false) →
      probe stop out mask fuel h = some (out ((h + j0) % n))
  | j0, 0, _, _, hj, _, _ => absurd hj (Nat.not_lt_zero _)
  | 0, fuel + 1, h, hh, _, hs, _ => by
    have h0 : (h + 0) % n = h := by simp [Nat.mod_eq_of_lt hh]
    rw [h0] at hs ⊢
    simp [probe, hs]
  | j0 + 1, fuel + 1, h, hh, hj, hs, hmin => by
    have h0 := hmin 0 (Nat.succ_pos _)
    rw [show (h + 0) % n = h by simp [Nat.mod_eq_of_lt hh]] at h0
    have hn : 0 < n := by omega
    have ih := probe_eq_of_first stop out j0 fuel ((h + 1) % n) (Nat.mod_lt _ hn) (by omega)
      (by rwa [Nat.mod_add_mod, Nat.add_right_comm, Nat.add_assoc])
      (fun j hj' => by
        rw [Nat.mod_add_mod, Nat.add_assoc, Nat.add_comm 1 j]
        exact hmin (j + 1) (by omega))
    rw [Nat.mod_add_mod, Nat.add_assoc, Nat.add_comm 1 j0] at ih
    simp only [probe, h0, hmask]
    exact ih

theorem probe_first_slot {β : Type} (stop : Nat → Bool) (out : Nat → β) {h : Nat} (hh : h < n)
    (hex : ∃ s < n, stop s = true) :
    ∃ r < n, stop r = true ∧ (∀ s < n, dist n h s < dist n h r → stop s = false) ∧
      probe stop out mask n h = some (out r) := by
  have hn : 0 < n := by omega
  have hj : ∃ j, j < n ∧ stop ((h + j) % n) = true := by
    obtain ⟨s, hs, hst⟩ := hex
    exact ⟨dist n h s, dist_lt hn, by rwa [add_dist_mod hh hs]⟩
  classical
  obtain ⟨hj0, hst⟩ := Nat.find_spec hj
  have hmin : ∀ j < Nat.find hj, stop ((h + j) % n) = false := fun j hj' => by
    have := Nat.find_min hj hj'
    simp only [not_and, Bool.not_eq_true] at this
    exact this (by omega)
  refine ⟨(h + Nat.find hj) % n, Nat.mod_lt _ hn, hst, fun s hs hd => ?_,
    probe_eq_of_first hmask stop out _ n h hh hj0 hst hmin⟩
  rw [dist_add_mod hh hj0] at hd
  rw [← add_dist_mod hh hs]
  exact hmin _ hd

end Probe

end LeechCore.Probe
