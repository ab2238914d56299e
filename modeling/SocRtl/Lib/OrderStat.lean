import Mathlib.Order.Basic
import Mathlib.Data.List.Sort

/-!
# SocRtl.Lib.OrderStat — order statistics through thresholds

The `k`-th largest value of a list, counted with multiplicity, is determined
by how many entries reach each threshold: it is at least `t` exactly when more
than `k` entries are. Networks of comparators act on these counts one
threshold at a time (the 0-1 principle), so two candidates for an order
statistic are compared by comparing the thresholds they reach.
-/

namespace SocRtl.OrderStat

variable {α : Type*} [LinearOrder α]

/-- The values of a list, largest first. -/
def descending (l : List α) : List α := l.insertionSort (· ≥ ·)

/-- The `k`-th largest value (`k` from 0, ties counted), `d` past the end. -/
def nthLargest (d : α) (l : List α) (k : ℕ) : α := (descending l).getD k d

/-- How many entries of `l` reach the threshold `t`. -/
def reach (t : α) (l : List α) : ℕ := l.countP fun a => decide (t ≤ a)

theorem descending_perm (l : List α) : (descending l).Perm l := List.perm_insertionSort _ l

theorem descending_pairwise (l : List α) :
    (descending l).Pairwise fun a b => b ≤ a := List.pairwise_insertionSort (· ≥ ·) l

@[simp] theorem reach_nil (t : α) : reach t [] = 0 := rfl

@[simp] theorem reach_cons (t a : α) (l : List α) :
    reach t (a :: l) = reach t l + if t ≤ a then 1 else 0 := by
  simp [reach, List.countP_cons]

theorem reach_le_length (t : α) (l : List α) : reach t l ≤ l.length := List.countP_le_length

theorem reach_perm (t : α) {l l' : List α} (h : l.Perm l') : reach t l = reach t l' :=
  h.countP_eq _

/-- In a descending list the entries that reach a threshold come first. -/
theorem le_getD_iff_lt_reach (t d : α) {l : List α} (hl : l.Pairwise fun a b => b ≤ a) :
    ∀ {k : ℕ}, k < l.length → (t ≤ l.getD k d ↔ k < reach t l) := by
  induction l with
  | nil => intro k hk; simp at hk
  | cons a l ih =>
      intro k hk
      rw [List.pairwise_cons] at hl
      by_cases ha : t ≤ a
      · cases k with
        | zero => simp [ha]
        | succ k =>
            have hk' : k < l.length := by simpa using hk
            have hrec := ih hl.2 hk'
            rw [List.getD_cons_succ, hrec]
            simp [ha]
      · -- the head misses the threshold, so every entry does
        have hmiss : ∀ b ∈ l, ¬ t ≤ b := fun b hb htb => ha (htb.trans (hl.1 b hb))
        have hzero : reach t l = 0 := by
          simpa [reach, List.countP_eq_zero] using hmiss
        cases k with
        | zero => simp [ha, hzero]
        | succ k =>
            have hk' : k < l.length := by simpa using hk
            have hrec := ih hl.2 hk'
            rw [List.getD_cons_succ, hrec]
            simp [ha, hzero]

/-- The threshold characterisation of an order statistic. -/
theorem le_nthLargest_iff (t d : α) {l : List α} {k : ℕ} (hk : k < l.length) :
    t ≤ nthLargest d l k ↔ k < reach t l := by
  have hlen : k < (descending l).length := by rwa [(descending_perm l).length_eq]
  rw [nthLargest, le_getD_iff_lt_reach t d (descending_pairwise l) hlen,
    reach_perm t (descending_perm l)]

/-- A value that reaches only thresholds met by more than `k` entries equals
the order statistic exactly when it reaches that statistic. -/
theorem eq_nthLargest_iff {d v : α} {l : List α} {k : ℕ} (hk : k < l.length)
    (hv : ∀ t, t ≤ v → k < reach t l) :
    v = nthLargest d l k ↔ nthLargest d l k ≤ v := by
  have hle : v ≤ nthLargest d l k := (le_nthLargest_iff v d hk).2 (hv v le_rfl)
  exact ⟨fun h => h ▸ le_rfl, fun h => le_antisymm hle h⟩

end SocRtl.OrderStat
