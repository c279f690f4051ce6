import Mathlib.Data.Int.ModEq
import Mathlib.Data.Nat.Bitwise
import Mathlib.Data.Nat.Factorization.Basic

/-!
# Ring

Slot arithmetic of a ring buffer indexed by free-running counters.  Two questions
decide whether such a buffer is a queue: are the slots of a window of at most `c`
consecutive counters pairwise distinct, and does masking with `c - 1` compute the
same slot as the remainder modulo `c`.  The second holds for powers of two and for
nothing else (`exists_mask_collision`).
-/

namespace Ring

/-- Counters less than one revolution apart use different slots. -/
theorem mod_ne_of_window {i j c : ℕ} (hij : i < j) (hj : j < i + c) : i % c ≠ j % c := by
  intro h
  have hdvd : c ∣ j - i := (Nat.modEq_iff_dvd' hij.le).mp h
  have hle : c ≤ j - i := Nat.le_of_dvd (by omega) hdvd
  omega

/-- **Masks collide off the powers of two**: some counter below `c` other than `0`
has slot `0` under the mask `c - 1`. -/
theorem exists_mask_collision {c : ℕ} (hc : c ≠ 0) (hpow : ¬ ∃ k, c = 2 ^ k) :
    ∃ j, 0 < j ∧ j < c ∧ j &&& (c - 1) = 0 := by
  obtain ⟨t, o, hodd, hto⟩ := Nat.exists_eq_two_pow_mul_odd hc
  have hpos : 0 < 2 ^ t := Nat.two_pow_pos t
  have hone : o ≠ 1 := by
    rintro rfl
    exact hpow ⟨t, by rw [hto, Nat.mul_one]⟩
  obtain ⟨q, hq⟩ := hodd
  have hq0 : 0 < q := by omega
  have hquot : (c - 1) / 2 ^ t = 2 * q := by
    have hsplit : c - 1 = (2 ^ t - 1) + 2 ^ t * (2 * q) := by
      rw [hto, hq, Nat.mul_add, Nat.mul_one]
      omega
    rw [hsplit, Nat.add_mul_div_left _ _ hpos, Nat.div_eq_of_lt (by omega), Nat.zero_add]
  have hbit : (c - 1).testBit t = false := by
    rw [Nat.testBit_eq_decide_div_mod_eq, hquot]
    simp
  refine ⟨2 ^ t, hpos, ?_, ?_⟩
  · rw [hto, hq]
    have : 2 ^ t * 1 < 2 ^ t * (2 * q + 1) := Nat.mul_lt_mul_of_pos_left (by omega) hpos
    omega
  · rw [Nat.two_pow_and, hbit]
    simp

end Ring
