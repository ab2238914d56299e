import Mathlib.Data.Nat.ModEq
import Mathlib.Logic.Function.Basic

/-!
# SocRtl.Lib.Ring — ring buffers addressed by pointers with a wrap bit

A memory of `2 ^ A` words and two pointers of `A + 1` bits: the low `A` bits
address a word, the top bit counts the laps. The words between the read and
the write pointer are the contents, oldest first. Pushing writes at the write
pointer, popping reads at the read pointer; neither needs to know how often
the pointers have wrapped.
-/

namespace SocRtl.Ring

variable {A : ℕ} {α : Type*}

/-- The address bits of a pointer. -/
def low (p : BitVec (A + 1)) : BitVec A := p.setWidth A

/-- The number of words between the pointers. -/
def occ (wp rp : BitVec (A + 1)) : ℕ := (wp - rp).toNat

/-- The words between the pointers, oldest first. -/
def contents (mem : BitVec A → α) (wp rp : BitVec (A + 1)) : List α :=
  (List.range (occ wp rp)).map fun i => mem (BitVec.ofNat A (rp.toNat + i))

@[simp] theorem length_contents (mem : BitVec A → α) (wp rp : BitVec (A + 1)) :
    (contents mem wp rp).length = occ wp rp := by
  simp [contents]

/-! ## Addresses

Every address is written `BitVec.ofNat A n` for a counter `n` that may run past
`2 ^ A`; two of them agree when the counters agree modulo `2 ^ A`. -/

theorem ofNat_eq_iff {x y : ℕ} :
    BitVec.ofNat A x = BitVec.ofNat A y ↔ x ≡ y [MOD 2 ^ A] := by
  constructor
  · intro h
    have := congrArg BitVec.toNat h
    simpa [Nat.ModEq] using this
  · intro h
    exact BitVec.eq_of_toNat_eq (by simpa [Nat.ModEq] using h)

/-- Addresses less than a lap apart are different. -/
theorem ofNat_ne {x y : ℕ} (hlt : x < y) (hlap : y - x < 2 ^ A) :
    BitVec.ofNat A x ≠ BitVec.ofNat A y := by
  intro h
  have hdvd : 2 ^ A ∣ y - x := (Nat.modEq_iff_dvd' hlt.le).1 (ofNat_eq_iff.1 h)
  have hle := Nat.le_of_dvd (by omega) hdvd
  omega

theorem low_eq_ofNat (p : BitVec (A + 1)) : low p = BitVec.ofNat A p.toNat :=
  BitVec.eq_of_toNat_eq (by simp [low])

theorem low_ofNat (n : ℕ) : low (BitVec.ofNat (A + 1) n) = BitVec.ofNat A n := by
  rw [low_eq_ofNat, ofNat_eq_iff, Nat.ModEq, BitVec.toNat_ofNat]
  exact Nat.mod_mod_of_dvd n (Nat.pow_dvd_pow 2 (Nat.le_succ A))

/-- A whole turn of the pointers is two laps of the memory. -/
theorem ofNat_add_turn (n : ℕ) : BitVec.ofNat A (2 ^ (A + 1) + n) = BitVec.ofNat A n := by
  rw [ofNat_eq_iff, Nat.ModEq, pow_succ, Nat.mul_comm, Nat.add_comm]
  simp

/-- The distance from the read to the write pointer, with or without a wrap. -/
theorem occ_cases (wp rp : BitVec (A + 1)) :
    rp.toNat + occ wp rp = wp.toNat ∨ rp.toNat + occ wp rp = 2 ^ (A + 1) + wp.toNat := by
  have hr := rp.isLt
  have hw := wp.isLt
  rw [occ, BitVec.toNat_sub]
  by_cases h : rp.toNat ≤ wp.toNat
  · left
    rw [show 2 ^ (A + 1) - rp.toNat + wp.toNat = wp.toNat - rp.toNat + 2 ^ (A + 1) by omega,
      Nat.add_mod_right, Nat.mod_eq_of_lt (by omega)]
    omega
  · right
    rw [Nat.mod_eq_of_lt (by omega)]
    omega

theorem toNat_add_one_cases (p : BitVec (A + 1)) :
    (p + 1).toNat = p.toNat + 1 ∨ 2 ^ (A + 1) + (p + 1).toNat = p.toNat + 1 := by
  have hp := p.isLt
  rw [BitVec.toNat_add]
  by_cases h : p.toNat + 1 < 2 ^ (A + 1)
  · left
    simpa using Nat.mod_eq_of_lt h
  · right
    have heq : p.toNat + 1 = 2 ^ (A + 1) := by omega
    simp [heq]

/-- The write pointer addresses the word after the newest one. -/
theorem low_wp (wp rp : BitVec (A + 1)) :
    low wp = BitVec.ofNat A (rp.toNat + occ wp rp) := by
  rw [low_eq_ofNat]
  rcases occ_cases wp rp with h | h
  · rw [h]
  · rw [h, ofNat_add_turn]

theorem ofNat_add_one (p : BitVec (A + 1)) (i : ℕ) :
    BitVec.ofNat A ((p + 1).toNat + i) = BitVec.ofNat A (p.toNat + (i + 1)) := by
  rcases toNat_add_one_cases p with h | h
  · congr 1
    omega
  · rw [← ofNat_add_turn]
    congr 1
    omega

/-! ## Occupancy -/

theorem occ_lt (wp rp : BitVec (A + 1)) : occ wp rp < 2 ^ (A + 1) := (wp - rp).isLt

theorem occ_push {wp rp : BitVec (A + 1)} (h : occ wp rp < 2 ^ A) :
    occ (wp + 1) rp = occ wp rp + 1 := by
  have hsub : wp + 1 - rp = (wp - rp) + 1 := by
    rw [BitVec.sub_eq_add_neg, BitVec.sub_eq_add_neg]
    ac_rfl
  have hpow : 2 ^ (A + 1) = 2 * 2 ^ A := pow_succ' 2 A
  rw [occ, hsub]
  rcases toNat_add_one_cases (wp - rp) with h' | h'
  · exact h'
  · rw [occ] at h
    omega

theorem occ_pop {wp rp : BitVec (A + 1)} (h : 0 < occ wp rp) :
    occ wp (rp + 1) + 1 = occ wp rp := by
  have hsub : wp - rp = (wp - (rp + 1)) + 1 := by
    rw [BitVec.sub_eq_add_neg, BitVec.sub_eq_add_neg, BitVec.neg_add, BitVec.sub_eq_add_neg,
      BitVec.add_assoc, BitVec.add_assoc, BitVec.add_left_neg, BitVec.add_zero]
  rw [occ, occ] at *
  rw [hsub] at h ⊢
  rcases toNat_add_one_cases (wp - (rp + 1)) with h' | h'
  · exact h'.symm
  · have := (wp - (rp + 1)).isLt
    omega

/-- Empty: the pointers agree. -/
theorem occ_eq_zero_iff (wp rp : BitVec (A + 1)) : occ wp rp = 0 ↔ wp = rp := by
  rw [occ]
  constructor
  · intro h
    have hz : wp - rp = 0#(A + 1) := BitVec.eq_of_toNat_eq (by simpa using h)
    rw [← BitVec.sub_add_cancel wp rp, hz, BitVec.zero_add]
  · rintro rfl
    simp

/-- The wrap bit and the address of a pointer make up its value. -/
theorem toNat_low_cases (p : BitVec (A + 1)) :
    (p.getLsbD A = false ∧ (low p).toNat = p.toNat) ∨
      (p.getLsbD A = true ∧ 2 ^ A + (low p).toNat = p.toNat) := by
  have hp := p.isLt
  have hpow : 2 ^ (A + 1) = 2 * 2 ^ A := pow_succ' 2 A
  have hbit : p.getLsbD A = decide (2 ^ A ≤ p.toNat) := by
    have h := BitVec.msb_eq_decide p
    rw [BitVec.msb_eq_getLsbD_last] at h
    simpa using h
  rw [hbit, low, BitVec.toNat_setWidth]
  by_cases h : 2 ^ A ≤ p.toNat
  · right
    rw [Nat.mod_eq_sub_mod h, Nat.mod_eq_of_lt (by omega)]
    exact ⟨by simp [h], by omega⟩
  · left
    exact ⟨by simp [h], Nat.mod_eq_of_lt (by omega)⟩

/-- Full: the addresses agree and the wrap bits differ. -/
theorem occ_eq_full_iff (wp rp : BitVec (A + 1)) :
    occ wp rp = 2 ^ A ↔ (wp.getLsbD A ^^ rp.getLsbD A) = true ∧ low wp = low rp := by
  have hw := (low wp).isLt
  have hr := (low rp).isLt
  have hlt := occ_lt wp rp
  have hpow : 2 ^ (A + 1) = 2 * 2 ^ A := pow_succ' 2 A
  rw [← BitVec.toNat_inj]
  rcases toNat_low_cases wp with ⟨bw, vw⟩ | ⟨bw, vw⟩ <;>
    rcases toNat_low_cases rp with ⟨br, vr⟩ | ⟨br, vr⟩ <;>
    rcases occ_cases wp rp with h | h <;> simp only [bw, br, Bool.xor_false, Bool.xor_true,
      Bool.not_true, Bool.not_false, Bool.false_eq_true, false_and, true_and, iff_false] <;>
    omega

/-- Empty, in the form the flags test it. -/
theorem occ_eq_zero_iff_low (wp rp : BitVec (A + 1)) :
    occ wp rp = 0 ↔ (wp.getLsbD A ^^ rp.getLsbD A) = false ∧ low wp = low rp := by
  rw [occ_eq_zero_iff, ← BitVec.toNat_inj, ← BitVec.toNat_inj]
  have hw := (low wp).isLt
  have hr := (low rp).isLt
  rcases toNat_low_cases wp with ⟨bw, vw⟩ | ⟨bw, vw⟩ <;>
    rcases toNat_low_cases rp with ⟨br, vr⟩ | ⟨br, vr⟩ <;>
    simp only [bw, br, Bool.xor_false, Bool.xor_true, Bool.not_true, Bool.not_false,
      Bool.true_eq_false, false_and, true_and, iff_false] <;>
    omega

/-! ## Contents -/

/-- Pushing below capacity appends. -/
theorem contents_push (mem : BitVec A → α) {wp rp : BitVec (A + 1)} (d : α)
    (h : occ wp rp < 2 ^ A) :
    contents (Function.update mem (low wp) d) (wp + 1) rp = contents mem wp rp ++ [d] := by
  rw [contents, occ_push h, List.range_succ, List.map_append, List.map_singleton, contents,
    low_wp wp rp, Function.update_self]
  congr 1
  apply List.map_congr_left
  intro i hi
  rw [List.mem_range] at hi
  -- an older word sits less than a lap below the write address
  rw [Function.update_of_ne (ofNat_ne (by omega) (by omega))]

/-- Popping removes the word at the read pointer. -/
theorem contents_pop (mem : BitVec A → α) {wp rp : BitVec (A + 1)} (h : 0 < occ wp rp) :
    contents mem wp rp = mem (low rp) :: contents mem wp (rp + 1) := by
  rw [contents, ← occ_pop h, List.range_succ_eq_map, List.map_cons, contents, List.map_map]
  congr 1
  · rw [low_eq_ofNat, Nat.add_zero]
  · apply List.map_congr_left
    intro i _
    rw [Function.comp_apply, ofNat_add_one]

end SocRtl.Ring
