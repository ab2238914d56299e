import SocRtl.Lib.OrderStat
import Mathlib.Data.Fin.VecNotation
import Mathlib.Data.Fintype.Basic
import Mathlib.Tactic.FinCases

/-!
# SocRtl.Median.SortValue — the three-, four- and five-input sorters

`sort_3_value` compares its three inputs pairwise and routes them by six
cases; a seventh, unreachable case would keep the old outputs, so the source
describes a latch. `sort_4_value` and `sort_5_value` are networks of three and
four of these blocks.

Each output is described by the thresholds it reaches: the `k`-th output of a
sorter reaches `t` exactly when at least `k` of its inputs do. The contents of
the latches never matter once reset is released.
-/

namespace SocRtl.Median

open OrderStat

variable {w : ℕ}

/-! ## The blocks -/

/-- The outputs of `sort_3_value`, which are also the contents of its latches. -/
structure Sort3 (w : ℕ) where
  valueMax : BitVec w
  valueMed : BitVec w
  valueMin : BitVec w
deriving DecidableEq, Repr

/-- The outputs of `sort_4_value`. -/
structure Sort4 (w : ℕ) where
  valueMax : BitVec w
  valueSecond : BitVec w
  valueThird : BitVec w
  valueFourth : BitVec w
deriving DecidableEq, Repr

/-- The outputs of `sort_5_value`. -/
structure Sort5 (w : ℕ) where
  valueMax : BitVec w
  valueSecond : BitVec w
  valueMed : BitVec w
  valueFourth : BitVec w
  valueMin : BitVec w
deriving DecidableEq, Repr

/-- `sort_3_value`. `temp` is what `temp_value_max`, `temp_value_med` and
`temp_value_min` held before. -/
def sort3Value (rstN : Bool) (value1 value2 value3 : BitVec w) (temp : Sort3 w) : Sort3 w :=
  let cond1 := decide (value1 > value2)
  let cond2 := decide (value1 > value3)
  let cond3 := decide (value2 > value3)
  let condAnd12 := cond1 && cond2
  let condAnd13 := !cond1 && cond3
  let condAnd23 := !(cond2 || cond3)
  if !rstN then ⟨0, 0, 0⟩
  else if condAnd12 && cond3 then ⟨value1, value2, value3⟩
  else if condAnd12 && !cond3 then ⟨value1, value3, value2⟩
  else if condAnd13 && cond2 then ⟨value2, value1, value3⟩
  else if condAnd13 && !cond2 then ⟨value2, value3, value1⟩
  else if condAnd23 && cond1 then ⟨value3, value1, value2⟩
  else if condAnd23 && !cond1 then ⟨value3, value2, value1⟩
  else temp

/-- `sort_4_value`; `temp` holds the latches of `u0` to `u2`. -/
def sort4Value (rstN : Bool) (value1 value2 value3 value4 : BitVec w)
    (temp : Fin 3 → Sort3 w) : Sort4 w :=
  let u0 := sort3Value rstN value1 value2 value3 (temp 0)
  let u1 := sort3Value rstN value4 u0.valueMed u0.valueMax (temp 1)
  let u2 := sort3Value rstN u1.valueMin u1.valueMed u0.valueMin (temp 2)
  ⟨u1.valueMax, u2.valueMax, u2.valueMed, u2.valueMin⟩

/-- `sort_5_value`; `temp` holds the latches of `u0` to `u3`. -/
def sort5Value (rstN : Bool) (value1 value2 value3 value4 value5 : BitVec w)
    (temp : Fin 4 → Sort3 w) : Sort5 w :=
  let u0 := sort3Value rstN value1 value2 value3 (temp 0)
  let u1 := sort3Value rstN value4 value5 u0.valueMax (temp 1)
  let u2 := sort3Value rstN u1.valueMed u1.valueMin u0.valueMed (temp 2)
  let u3 := sort3Value rstN u2.valueMed u2.valueMin u0.valueMin (temp 3)
  ⟨u1.valueMax, u2.valueMax, u3.valueMax, u3.valueMed, u3.valueMin⟩

/-- The outputs of a block, in the order of its ports. -/
def Sort3.outs (o : Sort3 w) : List (BitVec w) := [o.valueMax, o.valueMed, o.valueMin]

def Sort4.outs (o : Sort4 w) : List (BitVec w) :=
  [o.valueMax, o.valueSecond, o.valueThird, o.valueFourth]

def Sort5.outs (o : Sort5 w) : List (BitVec w) :=
  [o.valueMax, o.valueSecond, o.valueMed, o.valueFourth, o.valueMin]

/-- Largest first. -/
def Descending (l : List (BitVec w)) : Prop := l.Pairwise fun x y => y ≤ x

/-! ## The blocks sort -/

/-- With reset released one of the six routing cases applies, and it puts the
inputs into descending order. -/
theorem sort3Value_sorts (value1 value2 value3 : BitVec w) (temp : Sort3 w) :
    (sort3Value true value1 value2 value3 temp).outs.Perm [value1, value2, value3] ∧
      Descending (sort3Value true value1 value2 value3 temp).outs := by
  simp only [sort3Value, Sort3.outs, Descending, BitVec.lt_def, BitVec.le_def, gt_iff_lt]
  by_cases h12 : value2.toNat < value1.toNat <;>
    by_cases h13 : value3.toNat < value1.toNat <;>
    by_cases h23 : value3.toNat < value2.toNat <;>
    simp only [h12, h13, h23, decide_true, decide_false, Bool.and_true, Bool.and_false,
      Bool.not_true, Bool.not_false, Bool.or_false, Bool.or_true, if_true, if_false,
      Bool.false_eq_true, List.pairwise_cons, List.mem_cons, List.not_mem_nil, or_false,
      forall_eq_or_imp, forall_eq, List.Pairwise.nil, false_imp_iff, implies_true, and_true]
  -- the two cyclic comparison patterns cannot occur
  all_goals first
    | (exfalso; omega)
    | exact ⟨by grind, by omega, by omega⟩

/-- Order facts of a three-input block: the outputs descend, the largest
dominates the inputs, and it is the least bound that does. -/
theorem sort3Value_bounds (value1 value2 value3 : BitVec w) (temp : Sort3 w) :
    let o := sort3Value true value1 value2 value3 temp
    (value1 ≤ o.valueMax ∧ value2 ≤ o.valueMax ∧ value3 ≤ o.valueMax) ∧
      (o.valueMed ≤ o.valueMax ∧ o.valueMin ≤ o.valueMed) ∧
      ∀ b, value1 ≤ b → value2 ≤ b → value3 ≤ b → o.valueMax ≤ b := by
  intro o
  rcases sort3Value_sorts value1 value2 value3 temp with ⟨hperm, hdesc⟩
  simp only [Sort3.outs, Descending, List.pairwise_cons, List.mem_cons, List.not_mem_nil,
    or_false, forall_eq_or_imp, forall_eq] at hdesc
  -- every input is an output, and the first output is the largest of these
  have hle : ∀ v ∈ [value1, value2, value3], v ≤ o.valueMax := by
    intro v hv
    have hmem : v ∈ o.outs := hperm.mem_iff.2 hv
    simp only [Sort3.outs, List.mem_cons, List.not_mem_nil, or_false] at hmem
    rcases hmem with rfl | rfl | rfl
    · exact BitVec.le_refl _
    · exact hdesc.1.1
    · exact hdesc.1.2
  have hmax : o.valueMax ∈ [value1, value2, value3] :=
    hperm.mem_iff.1 (by simp [Sort3.outs, o])
  refine ⟨⟨hle _ (by simp), hle _ (by simp), hle _ (by simp)⟩, ⟨hdesc.1.1, hdesc.2.1⟩, ?_⟩
  intro b h1 h2 h3
  simp only [List.mem_cons, List.not_mem_nil, or_false] at hmax
  rcases hmax with h | h | h <;> rw [h] <;> assumption

theorem sort4Value_sorts (value1 value2 value3 value4 : BitVec w) (temp : Fin 3 → Sort3 w) :
    (sort4Value true value1 value2 value3 value4 temp).outs.Perm
        [value1, value2, value3, value4] ∧
      Descending (sort4Value true value1 value2 value3 value4 temp).outs := by
  simp only [sort4Value, Sort4.outs]
  generalize h0 : sort3Value true value1 value2 value3 (temp 0) = u0
  generalize h1 : sort3Value true value4 u0.valueMed u0.valueMax (temp 1) = u1
  generalize h2 : sort3Value true u1.valueMin u1.valueMed u0.valueMin (temp 2) = u2
  -- what each of the three blocks permutes, and how its outputs are ordered
  have p0 := (sort3Value_sorts value1 value2 value3 (temp 0)).1
  have p1 := (sort3Value_sorts value4 u0.valueMed u0.valueMax (temp 1)).1
  have p2 := (sort3Value_sorts u1.valueMin u1.valueMed u0.valueMin (temp 2)).1
  have b0 := sort3Value_bounds value1 value2 value3 (temp 0)
  have b1 := sort3Value_bounds value4 u0.valueMed u0.valueMax (temp 1)
  have b2 := sort3Value_bounds u1.valueMin u1.valueMed u0.valueMin (temp 2)
  simp only [h0, h1, h2, Sort3.outs, List.perm_iff_count, List.count_cons, List.count_nil]
    at p0 p1 p2 b0 b1 b2 ⊢
  refine ⟨fun a => ?_, ?_⟩
  · -- a value occurs in the outputs as often as in the inputs, block by block
    have := p0 a
    have := p1 a
    have := p2 a
    omega
  · -- the last block orders the three lower outputs; the first is above its inputs
    have h12 : u2.valueMax ≤ u1.valueMax := b2.2.2 _ (by bv_omega) (by bv_omega) (by bv_omega)
    simp only [Descending, List.pairwise_cons, List.mem_cons, List.not_mem_nil, or_false,
      forall_eq_or_imp, forall_eq, List.Pairwise.nil, false_imp_iff, implies_true, and_true]
    bv_omega

theorem sort5Value_sorts (value1 value2 value3 value4 value5 : BitVec w)
    (temp : Fin 4 → Sort3 w) :
    (sort5Value true value1 value2 value3 value4 value5 temp).outs.Perm
        [value1, value2, value3, value4, value5] ∧
      Descending (sort5Value true value1 value2 value3 value4 value5 temp).outs := by
  simp only [sort5Value, Sort5.outs]
  generalize h0 : sort3Value true value1 value2 value3 (temp 0) = u0
  generalize h1 : sort3Value true value4 value5 u0.valueMax (temp 1) = u1
  generalize h2 : sort3Value true u1.valueMed u1.valueMin u0.valueMed (temp 2) = u2
  generalize h3 : sort3Value true u2.valueMed u2.valueMin u0.valueMin (temp 3) = u3
  -- the same for the four blocks
  have p0 := (sort3Value_sorts value1 value2 value3 (temp 0)).1
  have p1 := (sort3Value_sorts value4 value5 u0.valueMax (temp 1)).1
  have p2 := (sort3Value_sorts u1.valueMed u1.valueMin u0.valueMed (temp 2)).1
  have p3 := (sort3Value_sorts u2.valueMed u2.valueMin u0.valueMin (temp 3)).1
  have b0 := sort3Value_bounds value1 value2 value3 (temp 0)
  have b1 := sort3Value_bounds value4 value5 u0.valueMax (temp 1)
  have b2 := sort3Value_bounds u1.valueMed u1.valueMin u0.valueMed (temp 2)
  have b3 := sort3Value_bounds u2.valueMed u2.valueMin u0.valueMin (temp 3)
  simp only [h0, h1, h2, h3, Sort3.outs, List.perm_iff_count, List.count_cons, List.count_nil]
    at p0 p1 p2 p3 b0 b1 b2 b3 ⊢
  refine ⟨fun a => ?_, ?_⟩
  · have := p0 a
    have := p1 a
    have := p2 a
    have := p3 a
    omega
  · -- the largest of every later block is an output and bounds the inputs of the next
    have h12 : u2.valueMax ≤ u1.valueMax := b2.2.2 _ (by bv_omega) (by bv_omega) (by bv_omega)
    have h23 : u3.valueMax ≤ u2.valueMax := b3.2.2 _ (by bv_omega) (by bv_omega) (by bv_omega)
    simp only [Descending, List.pairwise_cons, List.mem_cons, List.not_mem_nil, or_false,
      forall_eq_or_imp, forall_eq, List.Pairwise.nil, false_imp_iff, implies_true, and_true]
    bv_omega

/-! ## No block holds -/

/-- The last branch of `sort_3_value` is taken, the one that keeps
`temp_value_max`, `temp_value_med` and `temp_value_min`. -/
def holdsTemp (rstN : Bool) (value1 value2 value3 : BitVec w) : Bool :=
  let cond1 := decide (value1 > value2)
  let cond2 := decide (value1 > value3)
  let cond3 := decide (value2 > value3)
  let condAnd12 := cond1 && cond2
  let condAnd13 := !cond1 && cond3
  let condAnd23 := !(cond2 || cond3)
  rstN && !(condAnd12 && cond3) && !(condAnd12 && !cond3) && !(condAnd13 && cond2)
    && !(condAnd13 && !cond2) && !(condAnd23 && cond1) && !(condAnd23 && !cond1)

/-- The six routing cases cover all comparison outcomes that occur: a strict
order that fails both ways is a tie, and ties go to one of the cases too. -/
theorem holdsTemp_eq_false (rstN : Bool) (value1 value2 value3 : BitVec w) :
    holdsTemp rstN value1 value2 value3 = false := by
  cases hcond1 : decide (value1 > value2) <;> cases hcond2 : decide (value1 > value3) <;>
    cases hcond3 : decide (value2 > value3) <;>
    simp only [holdsTemp, hcond1, hcond2, hcond3, Bool.and_true, Bool.and_false, Bool.not_true,
      Bool.not_false, Bool.or_false, Bool.or_true]
  -- what is left are the two cyclic patterns
  all_goals
    simp only [gt_iff_lt, decide_eq_true_eq, decide_eq_false_iff_not] at hcond1 hcond2 hcond3
    bv_omega

/-- The sorting blocks sort, at every data width, with ties and whatever the
latches hold: with reset released the outputs are the inputs in descending
order, and no `sort_3_value` keeps its old outputs. -/
theorem sort_blocks_sort (w : ℕ) :
    (∀ (value1 value2 value3 : BitVec w) (temp : Sort3 w),
      (sort3Value true value1 value2 value3 temp).outs.Perm [value1, value2, value3] ∧
        Descending (sort3Value true value1 value2 value3 temp).outs ∧
        holdsTemp true value1 value2 value3 = false) ∧
    (∀ (value1 value2 value3 value4 : BitVec w) (temp : Fin 3 → Sort3 w),
      (sort4Value true value1 value2 value3 value4 temp).outs.Perm
          [value1, value2, value3, value4] ∧
        Descending (sort4Value true value1 value2 value3 value4 temp).outs) ∧
    ∀ (value1 value2 value3 value4 value5 : BitVec w) (temp : Fin 4 → Sort3 w),
      (sort5Value true value1 value2 value3 value4 value5 temp).outs.Perm
          [value1, value2, value3, value4, value5] ∧
        Descending (sort5Value true value1 value2 value3 value4 value5 temp).outs := by
  refine ⟨?_, sort4Value_sorts, sort5Value_sorts⟩
  intro value1 value2 value3 temp
  rcases sort3Value_sorts value1 value2 value3 temp with ⟨hperm, hdesc⟩
  exact ⟨hperm, hdesc, holdsTemp_eq_false true value1 value2 value3⟩

/-! ## Thresholds -/

/-- How many of the values reach the threshold `t`. -/
def reachOf (t : ℕ) (values : List (BitVec w)) : ℕ := reach t (values.map BitVec.toNat)

@[simp] theorem reachOf_nil (t : ℕ) : reachOf t ([] : List (BitVec w)) = 0 := rfl

@[simp] theorem reachOf_cons (t : ℕ) (a : BitVec w) (l : List (BitVec w)) :
    reachOf t (a :: l) = reachOf t l + if t ≤ a.toNat then 1 else 0 := by
  simp [reachOf]

/-- The `k`-th output of a block that sorts reaches `t` exactly when more than
`k` of its inputs do. -/
theorem le_out_iff {outs ins : List (BitVec w)} (hperm : outs.Perm ins)
    (hdesc : Descending outs) (t : ℕ) {k : ℕ} {v : BitVec w} (hk : outs[k]? = some v) :
    t ≤ v.toNat ↔ k < reachOf t ins := by
  rcases List.getElem?_eq_some_iff.1 hk with ⟨hlt, hv⟩
  have hdesc' : (outs.map BitVec.toNat).Pairwise fun a b => b ≤ a :=
    List.pairwise_map.2 (hdesc.imp fun h => BitVec.le_def.1 h)
  have h := le_getD_iff_lt_reach t 0 hdesc' (k := k) (by simpa using hlt)
  rw [reachOf, ← reach_perm t (hperm.map BitVec.toNat), ← h]
  simp [hk]

theorem le_sort3Value_med (t : ℕ) (a b c : BitVec w) (temp : Sort3 w) :
    t ≤ (sort3Value true a b c temp).valueMed.toNat ↔ 1 < reachOf t [a, b, c] := by
  rcases sort3Value_sorts a b c temp with ⟨hperm, hdesc⟩
  exact le_out_iff hperm hdesc t rfl

theorem le_sort4Value_max (t : ℕ) (a b c d : BitVec w) (temp : Fin 3 → Sort3 w) :
    t ≤ (sort4Value true a b c d temp).valueMax.toNat ↔ 0 < reachOf t [a, b, c, d] := by
  rcases sort4Value_sorts a b c d temp with ⟨hperm, hdesc⟩
  exact le_out_iff hperm hdesc t rfl

theorem le_sort4Value_fourth (t : ℕ) (a b c d : BitVec w) (temp : Fin 3 → Sort3 w) :
    t ≤ (sort4Value true a b c d temp).valueFourth.toNat ↔ 3 < reachOf t [a, b, c, d] := by
  rcases sort4Value_sorts a b c d temp with ⟨hperm, hdesc⟩
  exact le_out_iff hperm hdesc t rfl

/-- The outputs of a five-input block by rank. -/
def Sort5.nth (o : Sort5 w) : Fin 5 → BitVec w :=
  ![o.valueMax, o.valueSecond, o.valueMed, o.valueFourth, o.valueMin]

theorem le_sort5Value_nth (t : ℕ) (a b c d e : BitVec w) (temp : Fin 4 → Sort3 w)
    (k : Fin 5) :
    t ≤ ((sort5Value true a b c d e temp).nth k).toNat ↔ k.val < reachOf t [a, b, c, d, e] := by
  rcases sort5Value_sorts a b c d e temp with ⟨hperm, hdesc⟩
  fin_cases k <;> exact le_out_iff hperm hdesc t rfl

end SocRtl.Median
