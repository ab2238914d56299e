import SocRtl.Lib.Ring

/-!
# SocRtl.Lib.Gray — reflected Gray codes of counters

`bin2gray b` is `(b >> 1) ^ b`. Two pointers agree when their codes agree, so
a clock domain can compare Gray pointers without decoding them: equal codes
mean equal counters modulo the pointer width, and flipping the two top bits of
a code moves the counter half a turn, that is one lap of the memory.

A count of one more changes the code in one bit, so a receiver that catches
some bits before and some after the change sees the old code or the new one.
-/

namespace SocRtl.Gray

variable {w : ℕ}

/-- The Gray code of a binary word. -/
def bin2gray (b : BitVec w) : BitVec w := (b >>> 1) ^^^ b

/-- The Gray code of a counter in `w` bits. -/
def ofCount (w n : ℕ) : BitVec w := bin2gray (BitVec.ofNat w n)

/-- A code with its two top bits inverted: `{~p[A:A-1], p[A-2:0]}`. -/
def flipTopTwo {A : ℕ} (p : BitVec (A + 1)) : BitVec (A + 1) :=
  (~~~(p.extractLsb' (A - 1) 2) ++ p.extractLsb' 0 (A - 1)).setWidth (A + 1)

theorem getLsbD_bin2gray (b : BitVec w) (i : ℕ) :
    (bin2gray b).getLsbD i = (b.getLsbD (i + 1) ^^ b.getLsbD i) := by
  simp [bin2gray, Nat.add_comm]

/-- Equal codes have equal binary words: from the top bit down, every bit is
the code's bit corrected by the bit above it. -/
theorem bin2gray_injective : Function.Injective (bin2gray : BitVec w → BitVec w) := by
  intro a b h
  have hbits : ∀ d i, w ≤ i + d → a.getLsbD i = b.getLsbD i := by
    intro d
    induction d with
    | zero =>
        intro i hi
        rw [BitVec.getLsbD_of_ge a i hi, BitVec.getLsbD_of_ge b i hi]
    | succ d ih =>
        intro i hi
        have habove := ih (i + 1) (by omega)
        have hcode := congrArg (fun x => BitVec.getLsbD x i) h
        simp only [getLsbD_bin2gray, habove] at hcode
        exact Bool.xor_right_inj.mp hcode
  apply BitVec.eq_of_getLsbD_eq
  intro i _
  exact hbits w i (by omega)

/-- A word decodes `g` when each of its bits is the code's bit corrected by the
bit above. -/
theorem bin2gray_eq_of_bits {b g : BitVec w}
    (h : ∀ i < w, b.getLsbD i = (b.getLsbD (i + 1) ^^ g.getLsbD i)) : bin2gray b = g := by
  apply BitVec.eq_of_getLsbD_eq
  intro i hi
  rw [getLsbD_bin2gray, h i hi, ← Bool.xor_assoc, Bool.xor_self, Bool.false_xor]

/-- Codes of counters agree when the counters agree modulo the width. -/
theorem ofCount_eq_iff {m n : ℕ} : ofCount w m = ofCount w n ↔ m ≡ n [MOD 2 ^ w] := by
  rw [ofCount, ofCount, bin2gray_injective.eq_iff, Ring.ofNat_eq_iff]

/-- Codes of counters less than a turn apart agree when the counters do. -/
theorem ofCount_eq_iff_of_lt {m n : ℕ} (hle : m ≤ n) (hlt : n - m < 2 ^ w) :
    ofCount w m = ofCount w n ↔ m = n := by
  rw [ofCount_eq_iff]
  constructor
  · intro h
    -- the difference is a multiple of the turn and less than one
    have hdvd := (Nat.modEq_iff_dvd' hle).1 h
    have hzero := Nat.eq_zero_of_dvd_of_lt hdvd hlt
    omega
  · rintro rfl
    rfl

/-! ## Half a turn -/

theorem getLsbD_flipTopTwo {A : ℕ} (hA : 1 ≤ A) (p : BitVec (A + 1)) {i : ℕ} (hi : i < A + 1) :
    (flipTopTwo p).getLsbD i = (p.getLsbD i ^^ decide (A - 1 ≤ i)) := by
  rw [flipTopTwo, BitVec.getLsbD_setWidth, BitVec.getLsbD_append]
  by_cases h : A - 1 ≤ i
  · have hlt : i - (A - 1) < 2 := by omega
    have hadd : A - 1 + (i - (A - 1)) = i := by omega
    simp [hi, h, hlt, hadd, Nat.not_lt.mpr h]
  · simp [hi, h, Nat.not_le.mp h]

/-- Half a turn inverts the top bit of the binary counter and no other. -/
theorem getLsbD_half_turn {A : ℕ} (m : ℕ) {i : ℕ} (hi : i < A + 1) :
    (BitVec.ofNat (A + 1) (m + 2 ^ A)).getLsbD i
      = ((BitVec.ofNat (A + 1) m).getLsbD i ^^ decide (i = A)) := by
  rw [BitVec.getLsbD_ofNat, BitVec.getLsbD_ofNat, Nat.add_comm m]
  -- adding `2 ^ A` leaves the bits below `A` alone and inverts bit `A`
  by_cases h : i = A
  · subst h
    simp [Nat.testBit_two_pow_add_eq]
  · have hlt : i < A := by omega
    simp [Nat.testBit_two_pow_add_gt hlt, h]

/-- Half a turn inverts the two top bits of the code. -/
theorem flipTopTwo_ofCount {A : ℕ} (hA : 1 ≤ A) (m : ℕ) :
    flipTopTwo (ofCount (A + 1) m) = ofCount (A + 1) (m + 2 ^ A) := by
  apply BitVec.eq_of_getLsbD_eq
  intro i hi
  rw [getLsbD_flipTopTwo hA _ hi, ofCount, ofCount, getLsbD_bin2gray, getLsbD_bin2gray,
    getLsbD_half_turn m hi]
  -- bit `i` of the code is bit `i` of the counter against bit `i + 1`; the
  -- top bit of the counter enters the codes of bits `A` and `A - 1`
  by_cases htop : i + 1 < A + 1
  · rw [getLsbD_half_turn m htop]
    by_cases h : A - 1 ≤ i
    · have heq : i + 1 = A := by omega
      have hne : i ≠ A := by omega
      simp [h, heq, hne]
    · have hne : i ≠ A := by omega
      have hne' : i + 1 ≠ A := by omega
      simp [h, hne, hne']
  · have heq : i = A := by omega
    subst heq
    simp

/-- Half a turn, as a difference of pointers: the counter whose code is the
flipped code of another is half a turn ahead of it. -/
theorem bin2gray_eq_flipTopTwo_iff {A : ℕ} (hA : 1 ≤ A) (a b : BitVec (A + 1)) :
    bin2gray a = flipTopTwo (bin2gray b) ↔ (a - b).toNat = 2 ^ A := by
  -- the flip is half a turn of the counter, and the code is injective
  have hflip : flipTopTwo (bin2gray b) = bin2gray (b + BitVec.ofNat (A + 1) (2 ^ A)) := by
    have hcount := flipTopTwo_ofCount hA b.toNat
    rwa [ofCount, ofCount, BitVec.ofNat_toNat, BitVec.setWidth_eq, BitVec.ofNat_add,
      BitVec.ofNat_toNat, BitVec.setWidth_eq] at hcount
  have hhalf : (BitVec.ofNat (A + 1) (2 ^ A)).toNat = 2 ^ A := by
    rw [BitVec.toNat_ofNat, Nat.mod_eq_of_lt (Nat.pow_lt_pow_succ (by decide))]
  calc bin2gray a = flipTopTwo (bin2gray b)
      ↔ a = b + BitVec.ofNat (A + 1) (2 ^ A) := by rw [hflip, bin2gray_injective.eq_iff]
    _ ↔ a - b = BitVec.ofNat (A + 1) (2 ^ A) := by rw [BitVec.add_comm, BitVec.sub_eq_iff_eq_add]
    _ ↔ (a - b).toNat = 2 ^ A := by rw [← BitVec.toNat_inj, hhalf]

/-! ## Unit steps -/

/-- The words differ in exactly one bit. -/
def UnitStep (a b : BitVec w) : Prop := ∃! i, i < w ∧ a.getLsbD i ≠ b.getLsbD i

/-- Every bit of `m` is the bit of `a` or the bit of `b`. -/
def Mixture (a b m : BitVec w) : Prop :=
  ∀ i < w, m.getLsbD i = a.getLsbD i ∨ m.getLsbD i = b.getLsbD i

/-- A mixture of a word with itself. -/
theorem Mixture.eq_of_self {a m : BitVec w} (hm : Mixture a a m) : m = a := by
  apply BitVec.eq_of_getLsbD_eq
  intro i hi
  exact (hm i hi).elim id id

/-- A mixture of two words a unit step apart is one of the two. -/
theorem UnitStep.mixture {a b m : BitVec w} (h : UnitStep a b) (hm : Mixture a b m) :
    m = a ∨ m = b := by
  rcases h with ⟨i, ⟨hi, _⟩, honly⟩
  have hsame : ∀ j < w, j ≠ i → a.getLsbD j = b.getLsbD j := by
    intro j hj hne
    by_contra hdiff
    exact hne (honly j ⟨hj, hdiff⟩)
  -- the bit in which the words differ decides which of them it is
  rcases hm i hi with hbit | hbit
  · left
    apply BitVec.eq_of_getLsbD_eq
    intro j hj
    by_cases hji : j = i
    · rw [hji, hbit]
    · rcases hm j hj with hmj | hmj
      · exact hmj
      · rw [hmj, hsame j hj hji]
  · right
    apply BitVec.eq_of_getLsbD_eq
    intro j hj
    by_cases hji : j = i
    · rw [hji, hbit]
    · rcases hm j hj with hmj | hmj
      · rw [hmj, hsame j hj hji]
      · exact hmj

/-- A sequence of flags that starts high, never rises again and is low at `n`
changes exactly once before `n`. -/
theorem existsUnique_drop {c : ℕ → Bool} {n : ℕ} (hfirst : c 0 = true)
    (hstay : ∀ i, c (i + 1) = true → c i = true) (hlast : c n = false) :
    ∃! i, i < n ∧ c i ≠ c (i + 1) := by
  -- a flag that is high was high all the way from the start
  have hdown : ∀ i d, c (i + d) = true → c i = true := by
    intro i d
    induction d with
    | zero => exact id
    | succ d ih => exact fun h => ih (hstay (i + d) h)
  induction n with
  | zero => rw [hfirst] at hlast; cases hlast
  | succ n ih =>
      cases hn : c n with
      | false =>
          -- low before `n` already: the change is an earlier one
          rcases ih hn with ⟨i, ⟨hi, hne⟩, honly⟩
          refine ⟨i, ⟨Nat.lt_succ_of_lt hi, hne⟩, ?_⟩
          rintro j ⟨hj, hjne⟩
          rcases Nat.lt_succ_iff_lt_or_eq.mp hj with hj | rfl
          · exact honly j ⟨hj, hjne⟩
          · exact absurd (hn.trans hlast.symm) hjne
      | true =>
          -- high up to `n`: the change is at `n`
          refine ⟨n, ⟨Nat.lt_succ_self n, by rw [hn, hlast]; decide⟩, ?_⟩
          rintro j ⟨hj, hjne⟩
          rcases Nat.lt_succ_iff_lt_or_eq.mp hj with hj | rfl
          · -- below `n` all flags are high
            have hhigh : ∀ k ≤ n, c k = true := fun k hk =>
              hdown k (n - k) (by rwa [Nat.add_sub_cancel' hk])
            exact absurd ((hhigh j hj.le).trans (hhigh (j + 1) hj).symm) hjne
          · rfl

/-- Counting up inverts bit `i`: every bit below is set. -/
def flips (b : BitVec w) (i : ℕ) : Bool := decide (i < w ∧ ∀ j < i, b.getLsbD j = true)

theorem getLsbD_add_one (b : BitVec w) (i : ℕ) :
    (b + 1#w).getLsbD i = (b.getLsbD i ^^ flips b i) := by
  by_cases hi : i < w
  · rw [BitVec.getLsbD_add hi]
    cases i with
    | zero => simp [flips, hi]
    | succ i =>
        -- the carry into bit `i + 1` is set if all the bits up to `i` are
        have hbelow : flips b (i + 1) = decide (∀ j ≤ i, b.getLsbD j = true) := by
          simp only [flips, hi, true_and, Nat.lt_succ_iff]
        rw [BitVec.carry_succ_one i b (by omega), hbelow]
        simp
  · simp [flips, hi, BitVec.getLsbD_of_ge _ _ (Nat.le_of_not_lt hi)]

/-- Counting up changes one bit of the code, the wrap included: the bits that
the carry inverts are the lowest ones, and the code changes where they end. -/
theorem unitStep_bin2gray (hw : 0 < w) (b : BitVec w) :
    UnitStep (bin2gray b) (bin2gray (b + 1#w)) := by
  have hdrop : ∃! i, i < w ∧ flips b i ≠ flips b (i + 1) := by
    refine existsUnique_drop (by simp [flips, hw]) ?_ (by simp [flips])
    intro i hi
    simp only [flips, decide_eq_true_eq] at hi ⊢
    exact ⟨by omega, fun j hj => hi.2 j (by omega)⟩
  have hbit : ∀ i, (bin2gray b).getLsbD i ≠ (bin2gray (b + 1#w)).getLsbD i
      ↔ flips b i ≠ flips b (i + 1) := by
    intro i
    rw [getLsbD_bin2gray, getLsbD_bin2gray, getLsbD_add_one, getLsbD_add_one]
    cases b.getLsbD i <;> cases b.getLsbD (i + 1) <;> cases flips b i <;>
      cases flips b (i + 1) <;> decide
  simpa only [UnitStep, hbit] using hdrop

/-- A Gray pointer across an edge: it is held, or it is the code of a counter
that may count. -/
def PtrStep (p p' : BitVec w) : Prop :=
  p' = p ∨ ∃ (b : BitVec w) (en : Bool), p = bin2gray b ∧ p' = bin2gray (if en then b + 1#w else b)

/-- What is caught of a pointer across an edge. -/
theorem PtrStep.mixture (hw : 0 < w) {p p' m : BitVec w} (h : PtrStep p p')
    (hm : Mixture p p' m) : m = p ∨ m = p' := by
  rcases h with rfl | ⟨b, en, rfl, rfl⟩
  · exact Or.inl hm.eq_of_self
  · cases en with
    | false => exact Or.inl (Mixture.eq_of_self hm)
    | true => exact (unitStep_bin2gray hw b).mixture hm

end SocRtl.Gray
