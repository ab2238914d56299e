import Mathlib.Order.Basic

/-!
# SocRtl.Lib.RoundRobin — places on a circle

`n` places on a circle, some of them marked, and a pointer that jumps from a
place to the next marked one. A place that stays marked is not jumped over: the
way from the pointer to it gets shorter with every jump (`ahead_next`).
-/

namespace SocRtl.RoundRobin

variable {n r q p : ℕ}

/-- The steps from place `r` to place `p`, none if they are the same. -/
def ahead (n r p : ℕ) : ℕ := if r ≤ p then p - r else p + n - r

/-- The same, but a whole turn if they are the same. -/
def after (n r p : ℕ) : ℕ := if r < p then p - r else p + n - r

/-- `q` is the first marked place after `r`, which itself comes last. -/
structure IsNext (n : ℕ) (marked : ℕ → Prop) (r q : ℕ) : Prop where
  lt : q < n
  isMarked : marked q
  first : ∀ p < n, marked p → after n r q ≤ after n r p

theorem ahead_lt (hr : r < n) (hp : p < n) : ahead n r p < n := by
  unfold ahead
  split <;> omega

/-- A jump does not pass a marked place. -/
theorem ahead_next {marked : ℕ → Prop} (h : IsNext n marked r q) (hr : r < n) (hp : p < n)
    (hmarked : marked p) (hne : p ≠ r) : ahead n q p < ahead n r p := by
  have hq := h.lt
  have hle := h.first p hp hmarked
  unfold after at hle
  unfold ahead
  split_ifs at hle ⊢ <;> omega

end SocRtl.RoundRobin
