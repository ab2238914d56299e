import Mathlib.Algebra.Group.Nat.Defs
import Mathlib.Logic.Function.Iterate
import Mathlib.Tactic.Ring

/-!
# SocRtl.Lib.Division — shift-and-subtract division

The divisor starts above the dividend and is shifted down one bit a step.
Whenever it fits, it is subtracted and the quotient gets the mask bit of that
step. After as many steps as the words have bits, the quotient and the
remainder stand in their words. Division by zero has no case of its own in the
loop: a zero divisor always fits, which sets every bit of the quotient and
leaves the dividend alone.
-/

namespace SocRtl.Division

/-- The words of the loop. -/
structure Words where
  dividend : ℕ
  divisor : ℕ
  quotient : ℕ
  mask : ℕ
deriving DecidableEq, Repr

/-- One step of the loop. -/
def divStep (d : Words) : Words :=
  if d.divisor ≤ d.dividend then
    { dividend := d.dividend - d.divisor
      divisor := d.divisor / 2
      quotient := d.quotient ||| d.mask
      mask := d.mask / 2 }
  else { d with divisor := d.divisor / 2, mask := d.mask / 2 }

/-- The loop invariant with `w` bits to a word, after `t` steps of the division
of `n` by `m`. -/
structure DivInv (w n m t : ℕ) (d : Words) : Prop where
  divisor_eq : d.divisor = m * 2 ^ w / 2 ^ (t + 1)
  mask_eq : d.mask = 2 ^ w / 2 ^ (t + 1)
  split : d.dividend + m * d.quotient = n
  aligned : 2 ^ (w - t) ∣ d.quotient
  rest : 0 < m → d.dividend < m * 2 ^ (w - t)
  full : m = 0 → d.quotient = 2 ^ w - 2 ^ (w - t)

variable {w n m : ℕ}

theorem divInv_init (hw : 0 < w) (hn : n < 2 ^ w) :
    DivInv w n m 0 ⟨n, m * 2 ^ (w - 1), 0, 2 ^ (w - 1)⟩ := by
  have hpow : 2 ^ w = 2 ^ (w - 1) * 2 := by
    rw [← Nat.pow_succ]
    congr 1
    omega
  constructor
  · show m * 2 ^ (w - 1) = m * 2 ^ w / 2 ^ 1
    rw [hpow, ← Nat.mul_assoc, Nat.pow_one, Nat.mul_div_cancel _ Nat.two_pos]
  · show 2 ^ (w - 1) = 2 ^ w / 2 ^ 1
    rw [hpow, Nat.pow_one, Nat.mul_div_cancel _ Nat.two_pos]
  · simp
  · exact Nat.dvd_zero _
  · intro hm
    exact Nat.lt_of_lt_of_le hn (Nat.le_mul_of_pos_left _ hm)
  · intro _
    simp

theorem divInv_step {t : ℕ} (ht : t < w) {d : Words} (h : DivInv w n m t d) :
    DivInv w n m (t + 1) (divStep d) := by
  -- the bit of this step
  obtain ⟨k, rfl⟩ : ∃ k, w = k + (t + 1) := ⟨w - (t + 1), by omega⟩
  have hpos := Nat.two_pow_pos (t + 1)
  have hdiv : d.divisor = m * 2 ^ k := by
    rw [h.divisor_eq, Nat.pow_add, ← Nat.mul_assoc, Nat.mul_div_cancel _ hpos]
  have hmask : d.mask = 2 ^ k := by
    rw [h.mask_eq, Nat.pow_add, Nat.mul_div_cancel _ hpos]
  have hbefore : k + (t + 1) - t = k + 1 := by omega
  have hafter : k + (t + 1) - (t + 1) = k := by omega
  have hhalf : ∀ x, x / 2 ^ (t + 1) / 2 = x / 2 ^ (t + 1 + 1) := by
    intro x
    rw [Nat.div_div_eq_div_mul, ← Nat.pow_succ]
  rcases h with ⟨hd, hm, hsplit, haligned, hrest, hfull⟩
  rw [hbefore] at haligned hrest hfull
  -- the mask bit is free in the quotient
  obtain ⟨q, hq⟩ := haligned
  have hor : d.quotient ||| 2 ^ k = d.quotient + 2 ^ k := by
    rw [hq, Nat.two_pow_add_eq_or_of_lt (Nat.pow_lt_pow_succ Nat.one_lt_two)]
  unfold divStep
  split
  · rename_i hfits
    -- the divisor fits: it is taken off, and its bit set
    constructor
    · show d.divisor / 2 = _
      rw [hd, hhalf]
    · show d.mask / 2 = _
      rw [hm, hhalf]
    · show d.dividend - d.divisor + m * (d.quotient ||| d.mask) = n
      rw [hmask, hor, hdiv, ← hsplit, Nat.mul_add]
      rw [hdiv] at hfits
      omega
    · show _ ∣ d.quotient ||| d.mask
      rw [hafter, hmask, hor, hq, Nat.pow_succ, Nat.mul_assoc]
      exact Nat.dvd_add (Nat.dvd_mul_right _ _) (Nat.dvd_refl _)
    · intro hpos'
      have hlt := hrest hpos'
      show d.dividend - d.divisor < _
      rw [hafter, hdiv]
      rw [Nat.pow_succ, ← Nat.mul_assoc] at hlt
      omega
    · intro hzero
      show d.quotient ||| d.mask = _
      rw [hafter, hmask, hor, hfull hzero]
      have hone : 2 ^ (k + 1) ≤ 2 ^ (k + (t + 1)) := Nat.pow_le_pow_right Nat.two_pos (by omega)
      rw [Nat.pow_succ] at hone ⊢
      omega
  · rename_i hfits
    -- it does not fit: the remainder is below it already
    constructor
    · show d.divisor / 2 = _
      rw [hd, hhalf]
    · show d.mask / 2 = _
      rw [hm, hhalf]
    · exact hsplit
    · show _ ∣ d.quotient
      rw [hafter, hq, Nat.pow_succ, Nat.mul_assoc]
      exact Nat.dvd_mul_right _ _
    · intro _
      show d.dividend < _
      rw [hafter, ← hdiv]
      omega
    · intro hzero
      -- a zero divisor fits
      rw [hdiv, hzero, Nat.zero_mul] at hfits
      exact absurd (Nat.zero_le _) hfits

section

variable {d : Words} (h : DivInv w n m w d)

include h

/-- The mask has left its word when the loop is through, and not before. -/
theorem DivInv.mask_zero : d.mask = 0 := by
  rw [h.mask_eq, Nat.div_eq_of_lt (Nat.pow_lt_pow_succ Nat.one_lt_two)]

theorem DivInv.quotient_eq (hm : 0 < m) : d.quotient = n / m := by
  have hlt := h.rest hm
  rw [Nat.sub_self, Nat.pow_zero, Nat.mul_one] at hlt
  rw [← h.split, Nat.add_mul_div_left _ _ hm, Nat.div_eq_of_lt hlt, Nat.zero_add]

theorem DivInv.dividend_eq (hm : 0 < m) : d.dividend = n % m := by
  have hlt := h.rest hm
  rw [Nat.sub_self, Nat.pow_zero, Nat.mul_one] at hlt
  rw [← h.split, Nat.add_mul_mod_self_left, Nat.mod_eq_of_lt hlt]

theorem DivInv.quotient_zero (hm : m = 0) : d.quotient = 2 ^ w - 1 := by
  rw [h.full hm, Nat.sub_self, Nat.pow_zero]

theorem DivInv.dividend_zero (hm : m = 0) : d.dividend = n := by
  rw [← h.split, hm, Nat.zero_mul, Nat.add_zero]

end

theorem DivInv.mask_pos {t : ℕ} {d : Words} (h : DivInv w n m t d) (ht : t < w) : 0 < d.mask := by
  rw [h.mask_eq]
  exact Nat.div_pos (Nat.pow_le_pow_right Nat.two_pos ht) (Nat.two_pow_pos _)

end SocRtl.Division
