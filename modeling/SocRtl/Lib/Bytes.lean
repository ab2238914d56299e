import Mathlib.Data.Nat.Notation

/-!
# SocRtl.Lib.Bytes — 32-bit words with byte enables

A word of four bytes is written under four enable bits: an enabled byte takes
the new value, the others keep the old one.
-/

namespace SocRtl.Bytes

/-- Byte `b` of a word, byte 0 being the least significant one. -/
def lane (w : BitVec 32) (b : ℕ) : BitVec 8 := w.extractLsb' (8 * b) 8

/-- Byte `b` of the word after a write of `d` over `old` under the enables
`we`. -/
def mergeLane (we : BitVec 4) (d old : BitVec 32) (b : ℕ) : BitVec 8 :=
  if we.getLsbD b then lane d b else lane old b

/-- The word after a write of `d` over `old` under the enables `we`. -/
def mergeBytes (we : BitVec 4) (d old : BitVec 32) : BitVec 32 :=
  mergeLane we d old 3 ++ mergeLane we d old 2 ++ mergeLane we d old 1 ++ mergeLane we d old 0

/-- A word is its bytes. -/
theorem eq_of_lanes {x y : BitVec 32} (h : ∀ b < 4, lane x b = lane y b) : x = y := by
  apply BitVec.eq_of_getLsbD_eq
  intro i hi
  have hlane := congrArg (fun w => BitVec.getLsbD w (i % 8)) (h (i / 8) (by omega))
  have hmod : i % 8 < 8 := Nat.mod_lt i (by omega)
  simpa [lane, hmod, Nat.div_add_mod] using hlane

/-- The bits of four bytes put together. -/
theorem getLsbD_append4 (b3 b2 b1 b0 : BitVec 8) (i : ℕ) :
    (b3 ++ b2 ++ b1 ++ b0).getLsbD i
      = if i < 8 then b0.getLsbD i
        else if i - 8 < 8 then b1.getLsbD (i - 8)
        else if i - 8 - 8 < 8 then b2.getLsbD (i - 8 - 8)
        else b3.getLsbD (i - 8 - 8 - 8) := by
  rw [BitVec.getLsbD_append, BitVec.getLsbD_append, BitVec.getLsbD_append]

theorem getLsbD_mergeBytes (we : BitVec 4) (d old : BitVec 32) (i : ℕ) :
    (mergeBytes we d old).getLsbD i
      = if i < 8 then (mergeLane we d old 0).getLsbD i
        else if i - 8 < 8 then (mergeLane we d old 1).getLsbD (i - 8)
        else if i - 8 - 8 < 8 then (mergeLane we d old 2).getLsbD (i - 8 - 8)
        else (mergeLane we d old 3).getLsbD (i - 8 - 8 - 8) :=
  getLsbD_append4 _ _ _ _ i

/-- An enabled byte is the new one, the others are the old ones. -/
theorem lane_mergeBytes (we : BitVec 4) (d old : BitVec 32) {b : ℕ} (hb : b < 4) :
    lane (mergeBytes we d old) b = mergeLane we d old b := by
  apply BitVec.eq_of_getLsbD_eq
  intro i hi
  rw [lane, BitVec.getLsbD_extractLsb', getLsbD_mergeBytes]
  match b, hb with
  | 0, _ => simp [hi]
  | 1, _ => simp [hi]
  | 2, _ =>
      have hsub : 16 + i - 8 - 8 = i := by omega
      have hge : ¬ 16 + i < 8 := by omega
      have hge' : ¬ 16 + i - 8 < 8 := by omega
      simp [hi, hsub, hge, hge']
  | 3, _ =>
      have hsub : 24 + i - 8 - 8 - 8 = i := by omega
      have hge : ¬ 24 + i < 8 := by omega
      have hge' : ¬ 24 + i - 8 < 8 := by omega
      have hge'' : ¬ 24 + i - 8 - 8 < 8 := by omega
      simp [hi, hsub, hge, hge', hge'']

/-- A write under partial enables stores the whole new word exactly if the
bytes left out carry what is stored already. -/
theorem mergeBytes_eq_iff (we : BitVec 4) (d old : BitVec 32) :
    mergeBytes we d old = d ↔ ∀ b < 4, we.getLsbD b = false → lane old b = lane d b := by
  constructor
  · intro h b hb hwe
    have hlane := lane_mergeBytes we d old hb
    rw [h, mergeLane, hwe] at hlane
    exact hlane.symm
  · intro h
    apply eq_of_lanes
    intro b hb
    rw [lane_mergeBytes we d old hb, mergeLane]
    cases hwe : we.getLsbD b with
    | true => rfl
    | false => exact h b hb hwe

/-- A write that enables nothing. -/
@[simp] theorem mergeBytes_none (d old : BitVec 32) : mergeBytes 0#4 d old = old := by
  apply eq_of_lanes
  intro b hb
  rw [lane_mergeBytes _ _ _ hb, mergeLane, if_neg (by simp)]

/-- With all enables set the new word replaces the old one. -/
@[simp] theorem mergeBytes_ones (d old : BitVec 32) : mergeBytes 0b1111#4 d old = d := by
  rw [mergeBytes_eq_iff]
  intro b hb hwe
  have hset : ∀ b < 4, (0b1111#4).getLsbD b = true := by decide
  rw [hset b hb] at hwe
  exact absurd hwe (by decide)

end SocRtl.Bytes
