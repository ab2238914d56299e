import SocRtl.Lib.Clocked
import SocRtl.Median.SortValue
import Mathlib.Tactic.Linarith
import Mathlib.Tactic.Ring

/-!
# SocRtl.Median.Llmf — the pipelined 5x5 median filter `LLMF_5x5`

Three register stages:

1. **row_reg**: every row of the window sorted, largest first;
2. **col_reg**: every column of the result sorted, largest first;
3. **dia**: the largest of the diagonal below the anti-diagonal, the median of
   the anti-diagonal, and the smallest of `sorter_dia_2`'s four inputs.

`value_Med` is the middle one of the three. Under a threshold the doubly sorted
window is a Young diagram, given by its column heights; both the true median
and `value_Med` are decided by these heights, and they differ on seven
diagrams: `sorter_dia_2` taps `pip_Third_col[2]`, which lies on the
anti-diagonal, where the diagonal above it has `pip_Third_col[1]`.
-/

namespace SocRtl.Median

open OrderStat

/-! ## Model -/

/-- The instance through which every numeral of `Fin 5` is read, in the sorters below and
in the loads of the window (`4` for its last column, say). -/
instance neZeroFive : NeZero 5 := ⟨by decide⟩

/-- A 5x5 window: `value r c` is `value_p<r><c>`. -/
abbrev Window := Fin 5 → Fin 5 → BitVec 8

/-- The five arrays `*_First_*` to `*_Fifth_*` of a stage. -/
structure Lines where
  first : Fin 5 → BitVec 8
  second : Fin 5 → BitVec 8
  third : Fin 5 → BitVec 8
  fourth : Fin 5 → BitVec 8
  fifth : Fin 5 → BitVec 8

/-- The latches inside the sorter instances. -/
structure Latches where
  sortRow : Fin 5 → Fin 4 → Sort3 8
  sortCol : Fin 5 → Fin 4 → Sort3 8
  sorterDia0 : Fin 3 → Sort3 8
  sorterDia1 : Fin 4 → Sort3 8
  sorterDia2 : Fin 3 → Sort3 8
  iSort3Value : Sort3 8

/-- What a clock edge samples. The latches are not clocked; whatever they hold
at the edge is taken as given. -/
structure LlmfIn where
  rstN : Bool
  value : Window
  temp : Latches

/-- The pipeline registers. -/
structure Llmf where
  pipRow : Lines
  pipCol : Lines
  pipValueMaxDia0 : BitVec 8
  pipValueMedDia1 : BitVec 8
  pipValueMinDia2 : BitVec 8

namespace Llmf

/-- The registers under reset. -/
def reset : Llmf where
  pipRow := ⟨fun _ => 0, fun _ => 0, fun _ => 0, fun _ => 0, fun _ => 0⟩
  pipCol := ⟨fun _ => 0, fun _ => 0, fun _ => 0, fun _ => 0, fun _ => 0⟩
  pipValueMaxDia0 := 0
  pipValueMedDia1 := 0
  pipValueMinDia2 := 0

/-- `sort_row_<r>`. -/
def sortRow (i : LlmfIn) (r : Fin 5) : Sort5 8 :=
  sort5Value i.rstN (i.value r 0) (i.value r 1) (i.value r 2) (i.value r 3) (i.value r 4)
    (i.temp.sortRow r)

/-- `First_row` to `Fifth_row`. -/
def rowLines (i : LlmfIn) : Lines where
  first r := (sortRow i r).valueMax
  second r := (sortRow i r).valueSecond
  third r := (sortRow i r).valueMed
  fourth r := (sortRow i r).valueFourth
  fifth r := (sortRow i r).valueMin

/-- The array of the given rank. -/
def nth (l : Lines) : Fin 5 → Fin 5 → BitVec 8 :=
  ![l.first, l.second, l.third, l.fourth, l.fifth]

/-- `sort_col_<k>` sorts the array of rank `k`. -/
def sortCol (s : Llmf) (i : LlmfIn) (k : Fin 5) : Sort5 8 :=
  sort5Value i.rstN (nth s.pipRow k 0) (nth s.pipRow k 1) (nth s.pipRow k 2)
    (nth s.pipRow k 3) (nth s.pipRow k 4) (i.temp.sortCol k)

/-- `First_col` to `Fifth_col`. -/
def colLines (s : Llmf) (i : LlmfIn) : Lines where
  first k := (sortCol s i k).valueMax
  second k := (sortCol s i k).valueSecond
  third k := (sortCol s i k).valueMed
  fourth k := (sortCol s i k).valueFourth
  fifth k := (sortCol s i k).valueMin

/-- `sorter_dia_0`. -/
def sorterDia0 (s : Llmf) (i : LlmfIn) : Sort4 8 :=
  sort4Value i.rstN (s.pipCol.fifth 1) (s.pipCol.fourth 2) (s.pipCol.third 3)
    (s.pipCol.second 4) i.temp.sorterDia0

/-- `sorter_dia_1`. -/
def sorterDia1 (s : Llmf) (i : LlmfIn) : Sort5 8 :=
  sort5Value i.rstN (s.pipCol.fifth 0) (s.pipCol.fourth 1) (s.pipCol.third 2)
    (s.pipCol.second 3) (s.pipCol.first 4) i.temp.sorterDia1

/-- `sorter_dia_2`; its second input is `pip_Third_col[2]`. -/
def sorterDia2 (s : Llmf) (i : LlmfIn) : Sort4 8 :=
  sort4Value i.rstN (s.pipCol.fourth 0) (s.pipCol.third 2) (s.pipCol.second 2)
    (s.pipCol.first 3) i.temp.sorterDia2

/-- `i_sort_3_value`, whose outputs are `value_Max`, `value_Med`, `value_Min`. -/
def iSort3Value (s : Llmf) (i : LlmfIn) : Sort3 8 :=
  sort3Value i.rstN s.pipValueMaxDia0 s.pipValueMedDia1 s.pipValueMinDia2 i.temp.iSort3Value

/-- `value_Med`. -/
def valueMed (s : Llmf) (i : LlmfIn) : BitVec 8 := (iSort3Value s i).valueMed

/-- One edge of `ref_clk`. -/
def step (s : Llmf) (i : LlmfIn) : Llmf :=
  if !i.rstN then reset
  else
    { pipRow := rowLines i
      pipCol := colLines s i
      pipValueMaxDia0 := (sorterDia0 s i).valueMax
      pipValueMedDia1 := (sorterDia1 s i).valueMed
      pipValueMinDia2 := (sorterDia2 s i).valueFourth }

end Llmf

/-! ## What the filter is for -/

/-- The 25 pixels of a window. -/
def pixels (p : Window) : List (BitVec 8) :=
  [0, 1, 2, 3, 4].flatMap fun r => [p r 0, p r 1, p r 2, p r 3, p r 4]

/-- The median: the 13th largest pixel, counted with multiplicity. -/
def median (p : Window) : ℕ := nthLargest 0 ((pixels p).map BitVec.toNat) 12

/-- The number of pixels of row `r` that reach `t`. -/
def rowReach (t : ℕ) (p : Window) (r : Fin 5) : ℕ :=
  reachOf t [p r 0, p r 1, p r 2, p r 3, p r 4]

/-- The number of rows with more than `k` pixels that reach `t`: the height of
column `k` of the doubly sorted window, cut at `t`. -/
def colHeight (t : ℕ) (p : Window) (k : ℕ) : ℕ :=
  ([0, 1, 2, 3, 4] : List (Fin 5)).countP fun r => decide (k < rowReach t p r)

/-- The five column heights at a threshold. -/
def profile (t : ℕ) (p : Window) : List ℕ :=
  [colHeight t p 0, colHeight t p 1, colHeight t p 2, colHeight t p 3, colHeight t p 4]

/-- The profiles on which `value_Med` falls short of the median. -/
def missedProfiles : List (List ℕ) :=
  [[4, 3, 2, 2, 2], [4, 4, 2, 2, 1], [5, 3, 2, 2, 1], [5, 4, 2, 1, 1], [5, 4, 2, 2, 0],
    [5, 4, 2, 2, 1], [5, 5, 2, 1, 0]]

/-! ## The doubly sorted window under a threshold -/

namespace Llmf

theorem nth_rowLines (i : LlmfIn) (k r : Fin 5) :
    nth (rowLines i) k r = (sortRow i r).nth k := by
  fin_cases k <;> rfl

theorem nth_colLines (s : Llmf) (i : LlmfIn) (j k : Fin 5) :
    nth (colLines s i) j k = (sortCol s i k).nth j := by
  fin_cases j <;> rfl

/-- After the first stage: rank `k` of row `r` reaches `t` when more than `k`
pixels of the row do. -/
theorem le_rowLines_iff {i : LlmfIn} (hi : i.rstN = true) (t : ℕ) (k r : Fin 5) :
    t ≤ (nth (rowLines i) k r).toNat ↔ k.val < rowReach t i.value r := by
  rw [nth_rowLines, sortRow, hi, le_sort5Value_nth, rowReach]

/-- After the second stage: the window is a Young diagram with the column
heights of `profile`. -/
theorem le_colLines_iff {s : Llmf} {i i' : LlmfIn} (hi : i.rstN = true)
    (hi' : i'.rstN = true) (hs : s.pipRow = rowLines i) (t : ℕ) (j k : Fin 5) :
    t ≤ (nth (colLines s i') j k).toNat ↔ j.val < colHeight t i.value k := by
  -- column `k` sorts the `k`-th ranks of the five rows
  rw [nth_colLines, sortCol, hi', le_sort5Value_nth, hs]
  simp [reachOf_cons, le_rowLines_iff hi, colHeight, List.countP_cons]

end Llmf

theorem rowReach_le (t : ℕ) (p : Window) (r : Fin 5) : rowReach t p r ≤ 5 :=
  reach_le_length t _

theorem colHeight_le (t : ℕ) (p : Window) (k : ℕ) : colHeight t p k ≤ 5 :=
  List.countP_le_length

theorem colHeight_antitone (t : ℕ) (p : Window) (k : ℕ) :
    colHeight t p (k + 1) ≤ colHeight t p k := by
  apply List.countP_mono_left
  intro r _ hr
  simp only [decide_eq_true_eq] at hr ⊢
  omega

/-- Both ways of counting the cells of the diagram. -/
theorem reachOf_pixels (t : ℕ) (p : Window) : reachOf t (pixels p) = (profile t p).sum := by
  -- a row of `n` pixels that reach `t` has a cell in each of the first `n` columns
  have hrow : ∀ n ≤ 5, (if 0 < n then 1 else 0) + (if 1 < n then 1 else 0)
      + (if 2 < n then 1 else 0) + (if 3 < n then 1 else 0) + (if 4 < n then 1 else 0) = n := by
    decide
  have hsum : reachOf t (pixels p) = rowReach t p 0 + rowReach t p 1 + rowReach t p 2
      + rowReach t p 3 + rowReach t p 4 := by
    simp only [pixels, List.flatMap_cons, List.flatMap_nil, List.append_nil, List.cons_append,
      List.nil_append, rowReach, reachOf_cons, reachOf_nil]
    omega
  -- count by rows on one side, by columns on the other
  have h0 := hrow _ (rowReach_le t p 0)
  have h1 := hrow _ (rowReach_le t p 1)
  have h2 := hrow _ (rowReach_le t p 2)
  have h3 := hrow _ (rowReach_le t p 3)
  have h4 := hrow _ (rowReach_le t p 4)
  simp only [hsum, profile, colHeight, List.countP_cons, List.countP_nil, decide_eq_true_eq,
    List.sum_cons, List.sum_nil]
  linarith

/-! ## The diagonals -/

/-- Whether `value_Med` reaches a threshold, from the column heights there:
two of `sorter_dia_2`, `sorter_dia_1` and `sorter_dia_0` have to reach it. -/
def medReaches (h0 h1 h2 h3 h4 : ℕ) : Prop :=
  1 < (if 3 < (if 0 < h3 then 1 else 0) + (if 1 < h2 then 1 else 0)
        + (if 2 < h2 then 1 else 0) + (if 3 < h0 then 1 else 0) then 1 else 0)
    + (if 2 < (if 0 < h4 then 1 else 0) + (if 1 < h3 then 1 else 0)
        + (if 2 < h2 then 1 else 0) + (if 3 < h1 then 1 else 0)
        + (if 4 < h0 then 1 else 0) then 1 else 0)
    + (if 0 < (if 1 < h4 then 1 else 0) + (if 2 < h3 then 1 else 0)
        + (if 3 < h2 then 1 else 0) + (if 4 < h1 then 1 else 0) then 1 else 0)

instance (h0 h1 h2 h3 h4 : ℕ) : Decidable (medReaches h0 h1 h2 h3 h4) := by
  unfold medReaches; infer_instance

/-- The 0-1 check over all Young diagrams in the 5x5 window. -/
theorem medReaches_fin : ∀ h0 h1 h2 h3 h4 : Fin 6, h1 ≤ h0 → h2 ≤ h1 → h3 ≤ h2 → h4 ≤ h3 →
    (medReaches h0 h1 h2 h3 h4 ↔
      12 < h0.val + h1.val + h2.val + h3.val + h4.val ∧
        [h0.val, h1.val, h2.val, h3.val, h4.val] ∉ missedProfiles) := by
  decide +kernel

namespace Llmf

/-- The column registers hold the doubly sorted form of `p`. -/
def HoldsSorted (s : Llmf) (p : Window) : Prop :=
  ∀ (t : ℕ) (j k : Fin 5), t ≤ (nth s.pipCol j k).toNat ↔ j.val < colHeight t p k

theorem pipRow_step (s : Llmf) {i : LlmfIn} (hi : i.rstN = true) :
    (step s i).pipRow = rowLines i := by
  simp [step, hi]

theorem pipCol_step (s : Llmf) {i : LlmfIn} (hi : i.rstN = true) :
    (step s i).pipCol = colLines s i := by
  simp [step, hi]

/-- Two edges after a window is presented the column registers hold its doubly
sorted form, whatever the registers held before. -/
theorem holdsSorted_step_step (s : Llmf) {i i' : LlmfIn} (hi : i.rstN = true)
    (hi' : i'.rstN = true) : (step (step s i) i').HoldsSorted i.value := by
  intro t j k
  rw [pipCol_step _ hi']
  exact le_colLines_iff hi hi' (pipRow_step s hi) t j k

/-- The third stage and the final block, from the doubly sorted window. -/
theorem le_valueMed_iff {s : Llmf} {p : Window} (hs : s.HoldsSorted p) {i i' : LlmfIn}
    (hi : i.rstN = true) (hi' : i'.rstN = true) (t : ℕ) :
    t ≤ (valueMed (step s i) i').toNat ↔
      medReaches (colHeight t p 0) (colHeight t p 1) (colHeight t p 2) (colHeight t p 3)
        (colHeight t p 4) := by
  have hcol : ∀ j k : Fin 5, t ≤ (nth s.pipCol j k).toNat ↔ j.val < colHeight t p k := hs t
  -- the three diagonals, each by how many of its cells reach the threshold
  have hdia0 := le_sort4Value_max t (s.pipCol.fifth 1) (s.pipCol.fourth 2) (s.pipCol.third 3)
    (s.pipCol.second 4) i.temp.sorterDia0
  have hdia1 := le_sort5Value_nth t (s.pipCol.fifth 0) (s.pipCol.fourth 1) (s.pipCol.third 2)
    (s.pipCol.second 3) (s.pipCol.first 4) i.temp.sorterDia1 2
  have hdia2 := le_sort4Value_fourth t (s.pipCol.fourth 0) (s.pipCol.third 2)
    (s.pipCol.second 2) (s.pipCol.first 3) i.temp.sorterDia2
  have hfirst := hcol 0
  have hsecond := hcol 1
  have hthird := hcol 2
  have hfourth := hcol 3
  have hfifth := hcol 4
  simp only [nth, Matrix.cons_val] at hfirst hsecond hthird hfourth hfifth
  simp only [Sort5.nth, Matrix.cons_val, reachOf_cons, reachOf_nil, hfirst, hsecond, hthird,
    hfourth, hfifth] at hdia0 hdia1 hdia2
  -- one more edge registers their outputs, and the last block is combinational
  have hmax : (step s i).pipValueMaxDia0 = (sorterDia0 s i).valueMax := by simp [step, hi]
  have hmed : (step s i).pipValueMedDia1 = (sorterDia1 s i).valueMed := by simp [step, hi]
  have hmin : (step s i).pipValueMinDia2 = (sorterDia2 s i).valueFourth := by simp [step, hi]
  rw [valueMed, iSort3Value, hi', le_sort3Value_med, hmax, hmed, hmin]
  simp only [sorterDia0, sorterDia1, sorterDia2, hi, reachOf_cons, reachOf_nil, hdia0, hdia1,
    hdia2, zero_add]
  exact Iff.rfl

end Llmf

/-! ## `value_Med` against the median -/

/-- The 0-1 check, for the column heights of a window at a threshold. -/
theorem medReaches_iff (t : ℕ) (p : Window) :
    medReaches (colHeight t p 0) (colHeight t p 1) (colHeight t p 2) (colHeight t p 3)
        (colHeight t p 4) ↔
      12 < reachOf t (pixels p) ∧ profile t p ∉ missedProfiles := by
  have hlt : ∀ k, colHeight t p k < 6 := fun k => Nat.lt_succ_of_le (colHeight_le t p k)
  -- column heights are at most five and descend, so the check covers them
  have h := medReaches_fin ⟨_, hlt 0⟩ ⟨_, hlt 1⟩ ⟨_, hlt 2⟩ ⟨_, hlt 3⟩ ⟨_, hlt 4⟩
    (colHeight_antitone t p 0) (colHeight_antitone t p 1) (colHeight_antitone t p 2)
    (colHeight_antitone t p 3)
  rw [h, reachOf_pixels]
  simp [profile, Nat.add_assoc]

/-- A stage-three state yields the median exactly off the seven profiles. -/
theorem valueMed_eq_median_iff {s : Llmf} {p : Window} (hs : s.HoldsSorted p) {i i' : LlmfIn}
    (hi : i.rstN = true) (hi' : i'.rstN = true) :
    (Llmf.valueMed (Llmf.step s i) i').toNat = median p ↔
      profile (median p) p ∉ missedProfiles := by
  have hmed : ∀ t, t ≤ (Llmf.valueMed (Llmf.step s i) i').toNat ↔
      12 < reachOf t (pixels p) ∧ profile t p ∉ missedProfiles := fun t =>
    (Llmf.le_valueMed_iff hs hi hi' t).trans (medReaches_iff t p)
  have hlen : 12 < ((pixels p).map BitVec.toNat).length := by simp [pixels]
  have hself : 12 < reachOf (median p) (pixels p) :=
    (le_nthLargest_iff (median p) 0 hlen).1 le_rfl
  -- `value_Med` never exceeds the median, so only reaching it is at stake
  rw [median, eq_nthLargest_iff hlen fun t ht => ((hmed t).1 ht).1, hmed]
  exact and_iff_right hself

/-- `LLMF_5x5` under reset released: three edges after a window is presented,
`value_Med` is its median exactly if the window's column heights at the median
are none of the seven missed profiles. The windows before and after it in the
stream play no part, nor do the registers at the start. -/
theorem llmf_valueMed_eq_median_iff (s : Llmf) (stream : ℕ → LlmfIn)
    (hrst : ∀ n, (stream n).rstN = true) (t : ℕ) :
    (Llmf.valueMed (stateAt Llmf.step s stream (t + 3)) (stream (t + 3))).toNat
        = median (stream t).value ↔
      profile (median (stream t).value) (stream t).value ∉ missedProfiles := by
  have hsorted : (stateAt Llmf.step s stream (t + 2)).HoldsSorted (stream t).value :=
    Llmf.holdsSorted_step_step _ (hrst t) (hrst (t + 1))
  exact valueMed_eq_median_iff hsorted (hrst (t + 2)) (hrst (t + 3))

/-- A window with 13 pixels at 1, in rows of 5, 5, 2, 1 and none. -/
def missedWindow : Window :=
  ![![1, 1, 1, 1, 1], ![1, 1, 1, 1, 1], ![1, 1, 0, 0, 0], ![1, 0, 0, 0, 0], ![0, 0, 0, 0, 0]]

/-- The stream that presents `missedWindow` in every cycle, from latches at 0. -/
def missedStream (_ : ℕ) : LlmfIn where
  rstN := true
  value := missedWindow
  temp := ⟨fun _ _ => ⟨0, 0, 0⟩, fun _ _ => ⟨0, 0, 0⟩, fun _ => ⟨0, 0, 0⟩, fun _ => ⟨0, 0, 0⟩,
    fun _ => ⟨0, 0, 0⟩, ⟨0, 0, 0⟩⟩

/-- The characterisation at `missedStream`, cycle 0. -/
theorem llmf_valueMed_missedStream :
    (Llmf.valueMed (stateAt Llmf.step Llmf.reset missedStream 3) (missedStream 3)).toNat
        = median missedWindow ↔
      profile (median missedWindow) missedWindow ∉ missedProfiles :=
  llmf_valueMed_eq_median_iff Llmf.reset missedStream (fun _ => rfl) 0

/-- `LLMF_5x5` does not compute the median of every window: on `missedWindow`
the median is 1 and `value_Med` is 0. -/
theorem llmf_not_median :
    ¬ ∀ (s : Llmf) (stream : ℕ → LlmfIn), (∀ n, (stream n).rstN = true) → ∀ t,
      (Llmf.valueMed (stateAt Llmf.step s stream (t + 3)) (stream (t + 3))).toNat
        = median (stream t).value := by
  intro h
  have hmed : median missedWindow = 1 := by decide
  have hval : (Llmf.valueMed (stateAt Llmf.step Llmf.reset missedStream 3)
      (missedStream 3)).toNat = 0 := by decide
  have heq := h Llmf.reset missedStream (fun _ => rfl) 0
  rw [show (missedStream 0).value = missedWindow from rfl, hmed] at heq
  exact absurd (hval.symm.trans heq) (by decide)

/-! ## The doubly sorted grid -/

/-- The 25 pixels of a row of rows are those of a row of columns. -/
theorem pixels_transpose (p : Window) : (pixels fun r c => p c r).Perm (pixels p) := by
  rw [List.perm_iff_count]
  intro a
  simp only [pixels, List.flatMap_cons, List.flatMap_nil, List.append_nil, List.cons_append,
    List.nil_append, List.count_cons, List.count_nil]
  ring

/-- Sorting within the rows keeps the pixels. -/
theorem pixels_perm_of_rows {p q : Window}
    (h : ∀ r, [q r 0, q r 1, q r 2, q r 3, q r 4].Perm [p r 0, p r 1, p r 2, p r 3, p r 4]) :
    (pixels q).Perm (pixels p) :=
  List.Perm.flatMap_left _ fun r _ => h r

/-- A line of five values that fall. -/
theorem descending_line {f : Fin 5 → BitVec 8} (h : ∀ k k', k ≤ k' → f k' ≤ f k) :
    Descending [f 0, f 1, f 2, f 3, f 4] := by
  have hindex : ([0, 1, 2, 3, 4] : List (Fin 5)).Pairwise (· ≤ ·) := by decide
  have hline : (([0, 1, 2, 3, 4] : List (Fin 5)).map f).Pairwise fun x y => y ≤ x :=
    List.pairwise_map.2 (hindex.imp fun hk => h _ _ hk)
  exact hline

namespace Llmf

/-- The 5x5 grid in the column registers: row `j` is the array of rank `j`. -/
def grid (s : Llmf) : Window := nth s.pipCol

/-- The row sorters permute the pixels of each row. -/
theorem pixels_rowLines {i : LlmfIn} (hi : i.rstN = true) :
    (pixels fun r k => nth (rowLines i) k r).Perm (pixels i.value) := by
  refine pixels_perm_of_rows fun r => ?_
  have hsorts := (sort5Value_sorts (i.value r 0) (i.value r 1) (i.value r 2) (i.value r 3)
    (i.value r 4) (i.temp.sortRow r)).1
  rw [← hi] at hsorts
  exact hsorts

/-- The column sorters permute what is in each column. -/
theorem pixels_colLines (s : Llmf) {i : LlmfIn} (hi : i.rstN = true) :
    (pixels fun k j => nth (colLines s i) j k).Perm (pixels (nth s.pipRow)) := by
  refine pixels_perm_of_rows fun k => ?_
  have hsorts := (sort5Value_sorts (nth s.pipRow k 0) (nth s.pipRow k 1) (nth s.pipRow k 2)
    (nth s.pipRow k 3) (nth s.pipRow k 4) (i.temp.sortCol k)).1
  rw [← hi] at hsorts
  exact hsorts

/-- Two edges after a window is presented the grid holds its pixels. -/
theorem pixels_grid_step_step (s : Llmf) {i i' : LlmfIn} (hi : i.rstN = true)
    (hi' : i'.rstN = true) : (pixels (step (step s i) i').grid).Perm (pixels i.value) := by
  have hfirst := pixels_rowLines hi
  have hsorted := pixels_colLines (step s i) hi'
  rw [pipRow_step s hi] at hsorted
  rw [grid, pipCol_step _ hi']
  -- the row sorters see rows, the column sorters columns: a transposition each
  exact (pixels_transpose _).symm.trans
    (hsorted.trans ((pixels_transpose _).symm.trans hfirst))

/-- Along a row of the grid the values fall: at any threshold a column that
reaches row `j` is no higher than the columns before it. This is where sorting
the columns leaves the rows sorted. -/
theorem HoldsSorted.row {s : Llmf} {p : Window} (hs : s.HoldsSorted p) (j : Fin 5)
    {k k' : Fin 5} (hk : k ≤ k') : s.grid j k' ≤ s.grid j k := by
  have hreach : j.val < colHeight (s.grid j k').toNat p k' := (hs _ j k').1 le_rfl
  have hheight : colHeight (s.grid j k').toNat p k' ≤ colHeight (s.grid j k').toNat p k :=
    antitone_nat_of_succ_le (colHeight_antitone (s.grid j k').toNat p) hk
  exact BitVec.le_def.2 ((hs _ j k).2 (hreach.trans_le hheight))

/-- Along a column too. -/
theorem HoldsSorted.col {s : Llmf} {p : Window} (hs : s.HoldsSorted p) (k : Fin 5)
    {j j' : Fin 5} (hj : j ≤ j') : s.grid j' k ≤ s.grid j k := by
  have hreach : j'.val < colHeight (s.grid j' k).toNat p k := (hs _ j' k).1 le_rfl
  exact BitVec.le_def.2 ((hs _ j k).2 (lt_of_le_of_lt hj hreach))

end Llmf

/-- The first two stages of `LLMF_5x5` under reset released: two edges after a
window is presented, the column registers hold its 25 pixels, falling along
every row and along every column. -/
theorem llmf_grid_doubly_sorted (s : Llmf) (stream : ℕ → LlmfIn)
    (hrst : ∀ n, (stream n).rstN = true) (t : ℕ) :
    let g := (stateAt Llmf.step s stream (t + 2)).grid
    (pixels g).Perm (pixels (stream t).value) ∧
      (∀ j, Descending [g j 0, g j 1, g j 2, g j 3, g j 4]) ∧
      ∀ k, Descending [g 0 k, g 1 k, g 2 k, g 3 k, g 4 k] := by
  intro g
  have hsorted : (stateAt Llmf.step s stream (t + 2)).HoldsSorted (stream t).value :=
    Llmf.holdsSorted_step_step _ (hrst t) (hrst (t + 1))
  refine ⟨Llmf.pixels_grid_step_step _ (hrst t) (hrst (t + 1)), ?_, ?_⟩
  · intro j
    exact descending_line fun _ _ hk => hsorted.row j hk
  · intro k
    exact descending_line (f := fun j => g j k) fun _ _ hj => hsorted.col k hj

/-- The doubly sorted grid at `missedStream`, cycle 0. -/
theorem llmf_grid_missedStream :
    let g := (stateAt Llmf.step Llmf.reset missedStream 2).grid
    (pixels g).Perm (pixels missedWindow) ∧
      (∀ j, Descending [g j 0, g j 1, g j 2, g j 3, g j 4]) ∧
      ∀ k, Descending [g 0 k, g 1 k, g 2 k, g 3 k, g 4 k] :=
  llmf_grid_doubly_sorted Llmf.reset missedStream (fun _ => rfl) 0

end SocRtl.Median
