import Mathlib.Data.List.Induction
import Mathlib.Algebra.Group.Nat.Defs

/-!
# SocRtl.Lib.Raster — positions in a raster of lines

Cycle `n` of a raster with `H` cycles a line is cycle `n % H` of line `n / H`.
The file has the step from one cycle to the next, an axis with its sync and its
active interval, the way back to the origin from any counters, and the active
cycles of a frame: how many there are, and how many come before a position.

The flags of an axis are functions of the position; `inSync_next` and
`inActive_next` say how a circuit that only looks at the position before an edge
has to set and clear them.
-/

namespace SocRtl.Raster

/-! ## Counting lines -/

/-- The last cycle of a line. -/
theorem succ_of_end {H n : ℕ} (hpos : 0 < H) (h : n % H + 1 = H) :
    (n + 1) % H = 0 ∧ (n + 1) / H = n / H + 1 := by
  have hn : n + 1 = H * (n / H + 1) := by
    have := Nat.div_add_mod n H
    rw [Nat.mul_succ]
    omega
  rw [hn]
  exact ⟨Nat.mul_mod_right _ _, Nat.mul_div_cancel_left _ hpos⟩

/-- A cycle inside a line. -/
theorem succ_of_inside {H n : ℕ} (hpos : 0 < H) (h : n % H + 1 ≠ H) :
    (n + 1) % H = n % H + 1 ∧ (n + 1) / H = n / H := by
  have hlt : n % H + 1 < H := by
    have := Nat.mod_lt n hpos
    omega
  have hn : n + 1 = n % H + 1 + H * (n / H) := by
    have := Nat.div_add_mod n H
    omega
  constructor
  · conv_lhs => rw [hn]
    rw [Nat.add_mul_mod_self_left, Nat.mod_eq_of_lt hlt]
  · conv_lhs => rw [hn]
    rw [Nat.add_mul_div_left _ _ hpos, Nat.div_eq_of_lt hlt, Nat.zero_add]

/-! ## Axes -/

/-- One axis of a raster: a sync interval at the beginning, and an active
interval that starts after it. -/
structure Axis where
  sync : ℕ
  start : ℕ
  active : ℕ
  total : ℕ
  sync_pos : 0 < sync
  sync_le : sync ≤ start
  active_pos : 0 < active
  fits : start + active ≤ total

namespace Axis

variable (a : Axis)

def InSync (x : ℕ) : Prop := x < a.sync

def InActive (x : ℕ) : Prop := a.start ≤ x ∧ x < a.start + a.active

instance (x : ℕ) : Decidable (a.InActive x) := inferInstanceAs (Decidable (_ ∧ _))

/-- The position after `x`. -/
def next (x : ℕ) : ℕ := if a.total ≤ x + 1 then 0 else x + 1

theorem total_pos : 0 < a.total := by
  have := a.active_pos
  have := a.fits
  omega

/-- Sync starts with the line and is cleared by its last cycle. -/
theorem inSync_next {x : ℕ} (hx : x < a.total) :
    a.InSync (a.next x) ↔ a.total ≤ x + 1 ∨ (a.InSync x ∧ x + 1 ≠ a.sync) := by
  have := a.sync_pos
  have := a.sync_le
  have := a.active_pos
  have := a.fits
  unfold InSync next
  split <;> omega

/-- The active interval is opened by the cycle before it and cleared by its
last cycle. -/
theorem inActive_next {x : ℕ} (hx : x < a.total) :
    a.InActive (a.next x) ↔ x + 1 = a.start ∨ (a.InActive x ∧ x + 1 ≠ a.start + a.active) := by
  have := a.sync_pos
  have := a.sync_le
  have := a.active_pos
  have := a.fits
  unfold InActive next
  split <;> omega

/-- The two intervals are apart. -/
theorem not_inSync_of_inActive {x : ℕ} (h : a.InActive x) : ¬ a.InSync x := by
  have := a.sync_le
  have := h.1
  unfold InSync
  omega

theorem inSync_zero : a.InSync 0 := a.sync_pos

theorem not_inActive_zero : ¬ a.InActive 0 := fun h => a.not_inSync_of_inActive h a.inSync_zero

/-- The active positions before `x`. -/
def passed (x : ℕ) : ℕ := min (x - a.start) a.active

theorem passed_succ (x : ℕ) : a.passed (x + 1) = a.passed x + if a.InActive x then 1 else 0 := by
  by_cases h : a.InActive x
  · rw [if_pos h]
    unfold passed
    unfold InActive at h
    omega
  · rw [if_neg h]
    unfold passed
    unfold InActive at h
    omega

/-- A whole axis passes all its active positions. -/
theorem passed_total : a.passed a.total = a.active := by
  have := a.fits
  unfold passed
  omega

theorem passed_of_inActive {x : ℕ} (h : a.InActive x) : a.passed x = x - a.start := by
  have := h.2
  unfold passed
  omega

theorem passed_of_le {x : ℕ} (h : x ≤ a.start) : a.passed x = 0 := by
  unfold passed
  omega

end Axis

/-! ## Rasters -/

section

variable (hor ver : Axis)

/-- The cycle of the line, and the line of the frame, in cycle `n`. -/
def hPos (n : ℕ) : ℕ := n % hor.total

def vPos (n : ℕ) : ℕ := n / hor.total % ver.total

@[simp] theorem hPos_zero : hPos hor 0 = 0 := Nat.zero_mod _

@[simp] theorem vPos_zero : vPos hor ver 0 = 0 := by
  rw [vPos, Nat.zero_div, Nat.zero_mod]

theorem hPos_lt (n : ℕ) : hPos hor n < hor.total := Nat.mod_lt n hor.total_pos

theorem vPos_lt (n : ℕ) : vPos hor ver n < ver.total := Nat.mod_lt _ ver.total_pos

theorem hPos_succ (n : ℕ) : hPos hor (n + 1) = hor.next (hPos hor n) := by
  have hlt := hPos_lt hor n
  unfold hPos Axis.next at *
  by_cases hend : n % hor.total + 1 = hor.total
  · rw [(succ_of_end hor.total_pos hend).1, if_pos (by omega)]
  · rw [(succ_of_inside hor.total_pos hend).1, if_neg (by omega)]

theorem vPos_succ (n : ℕ) :
    vPos hor ver (n + 1)
      = if hor.total ≤ hPos hor n + 1 then ver.next (vPos hor ver n) else vPos hor ver n := by
  have hlt := hPos_lt hor n
  unfold vPos hPos at *
  by_cases hend : n % hor.total + 1 = hor.total
  · rw [(succ_of_end hor.total_pos hend).2, if_pos (by omega)]
    exact hPos_succ ver (n / hor.total)
  · rw [(succ_of_inside hor.total_pos hend).2, if_neg (by omega)]

/-- A position that shows the origin is a whole number of frames. -/
theorem frame_le_of_origin {n : ℕ} (hn : n ≠ 0) (hh : hPos hor n = 0) (hv : vPos hor ver n = 0) :
    hor.total * ver.total ≤ n := by
  have hmod : n % (hor.total * ver.total) = 0 := by
    rw [Nat.mod_mul]
    show hPos hor n + hor.total * vPos hor ver n = 0
    rw [hh, hv, Nat.mul_zero]
  exact Nat.le_of_dvd (Nat.pos_of_ne_zero hn) (Nat.dvd_of_mod_eq_zero hmod)

/-- The edges left before the origin, also for counters that have run past the
end of an axis. -/
def left (x y : ℕ) : ℕ := (ver.total - 1 - y) * hor.total + (hor.total - 1 - x)

/-- From any counters, an edge reaches the origin or leaves one edge less. -/
theorem left_next (x y : ℕ) :
    (hor.next x = 0 ∧ (if hor.total ≤ x + 1 then ver.next y else y) = 0) ∨
      left hor ver (hor.next x) (if hor.total ≤ x + 1 then ver.next y else y) + 1
        = left hor ver x y := by
  have hpos := hor.total_pos
  unfold left Axis.next
  by_cases hx : hor.total ≤ x + 1
  · rw [if_pos hx, if_pos hx]
    by_cases hy : ver.total ≤ y + 1
    · -- the last cycle of the last line: the origin is next
      exact Or.inl ⟨rfl, if_pos hy⟩
    · right
      -- the last cycle of another line: one line less is left
      have hline : ver.total - 1 - y = ver.total - 1 - (y + 1) + 1 := by omega
      rw [if_neg hy, hline, Nat.succ_mul]
      omega
  · rw [if_neg hx, if_neg hx]
    right
    omega

/-- The active cycles of a frame before the cycle at `(x, y)`. -/
def activeBefore (x y : ℕ) : ℕ :=
  ver.passed y * hor.active + if ver.InActive y then hor.passed x else 0

/-- From one cycle of a frame to the next one, an active cycle counts. -/
theorem activeBefore_next {x y : ℕ} (hx : x < hor.total)
    (hframe : ¬ (hor.total ≤ x + 1 ∧ ver.total ≤ y + 1)) :
    activeBefore hor ver (hor.next x) (if hor.total ≤ x + 1 then ver.next y else y)
      = activeBefore hor ver x y + if hor.InActive x ∧ ver.InActive y then 1 else 0 := by
  unfold activeBefore
  by_cases hend : hor.total ≤ x + 1
  -- a line that ends has passed all its active cycles
  · have hline : hor.passed x + (if hor.InActive x then 1 else 0) = hor.active := by
      rw [← hor.passed_succ, ← hor.passed_total, Nat.le_antisymm hend hx]
    have hfirst : hor.passed 0 = 0 := hor.passed_of_le (Nat.zero_le _)
    have hy : ver.next y = y + 1 := if_neg fun hle => hframe ⟨hend, hle⟩
    have hx0 : hor.next x = 0 := if_pos hend
    rw [if_pos hend, hy, hx0, hfirst, ver.passed_succ, ite_self, Nat.add_zero]
    by_cases hv : ver.InActive y
    · simp only [hv, if_true, and_true]
      rw [Nat.succ_mul, Nat.add_assoc, hline]
    · simp only [hv, if_false, and_false, Nat.add_zero]
  · -- within a line the line count stays
    have hx1 : hor.next x = x + 1 := if_neg hend
    rw [if_neg hend, hx1, hor.passed_succ, Nat.add_assoc]
    by_cases hv : ver.InActive y
    · simp only [hv, if_true, and_true]
    · simp only [hv, if_false, and_false]

theorem activeBefore_of_inSync {y : ℕ} (x : ℕ) (h : ver.InSync y) :
    activeBefore hor ver x y = 0 := by
  have hle : y ≤ ver.start := Nat.le_trans (Nat.le_of_lt h) ver.sync_le
  unfold activeBefore
  rw [ver.passed_of_le hle, Nat.zero_mul, if_neg fun hact => ver.not_inSync_of_inActive hact h]

/-- In the active rectangle it is the row-major index. -/
theorem activeBefore_of_inActive {x y : ℕ} (hx : hor.InActive x) (hy : ver.InActive y) :
    activeBefore hor ver x y = (y - ver.start) * hor.active + (x - hor.start) := by
  unfold activeBefore
  rw [if_pos hy, ver.passed_of_inActive hy, hor.passed_of_inActive hx]

theorem index_lt_of_inActive {x y : ℕ} (hx : hor.InActive x) (hy : ver.InActive y) :
    (y - ver.start) * hor.active + (x - hor.start) < hor.active * ver.active := by
  have hcol : x - hor.start < hor.active := by
    have := hx.2
    have := hor.active_pos
    omega
  have hrow : y - ver.start + 1 ≤ ver.active := by
    have := hy.2
    have := ver.active_pos
    omega
  calc (y - ver.start) * hor.active + (x - hor.start)
      < (y - ver.start) * hor.active + hor.active := Nat.add_lt_add_left hcol _
    _ = (y - ver.start + 1) * hor.active := (Nat.succ_mul _ _).symm
    _ ≤ ver.active * hor.active := Nat.mul_le_mul_right _ hrow
    _ = hor.active * ver.active := Nat.mul_comm _ _

end

/-! ## Counting cycles -/

/-- The cycles of `V` lines of `H` cycles that meet a condition on the cycle and
one on the line. -/
theorem countP_lines (p q : ℕ → Bool) (H V : ℕ) :
    (List.range (H * V)).countP (fun n => p (n % H) && q (n / H))
      = (List.range H).countP p * (List.range V).countP q := by
  induction V with
  | zero => rfl
  | succ V ih =>
      have hline : ((List.range H).map (H * V + ·)).countP (fun n => p (n % H) && q (n / H))
          = (List.range H).countP p * (if q V then 1 else 0) := by
        rw [List.countP_map]
        have hcycle : ∀ x ∈ List.range H,
            ((fun n => p (n % H) && q (n / H)) ∘ (H * V + ·)) x = true
              ↔ (p x && q V) = true := by
          intro x hx
          have hlt := List.mem_range.mp hx
          have hpos : 0 < H := by omega
          show (p ((H * V + x) % H) && q ((H * V + x) / H)) = true ↔ _
          rw [Nat.mul_add_mod, Nat.mod_eq_of_lt hlt, Nat.mul_add_div hpos, Nat.div_eq_of_lt hlt,
            Nat.add_zero]
        rw [List.countP_congr hcycle]
        cases q V with
        | true => simp
        | false => simp
      rw [Nat.mul_succ, List.range_add, List.countP_append, ih, hline, List.range_succ,
        List.countP_append, List.countP_singleton, Nat.mul_add]

/-- The positions of an interval, of those below `N`. -/
theorem countP_interval (a b N : ℕ) :
    (List.range N).countP (fun x => decide (a ≤ x ∧ x < a + b)) = min N (a + b) - a := by
  induction N with
  | zero => simp
  | succ N ih =>
      rw [List.range_succ, List.countP_append, ih, List.countP_singleton]
      simp only [decide_eq_true_eq]
      split <;> omega

end SocRtl.Raster
