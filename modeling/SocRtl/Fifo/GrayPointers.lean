import SocRtl.Fifo.AsyncFifo

/-!
# SocRtl.Fifo.GrayPointers — the Gray codec and the pointer comparisons

`async_fifo_pkg` has an encoder and a decoder. The pointers of the FIFO are
encoded and never decoded: the flags compare codes. Two facts carry this.

* A pointer step changes one bit of the code, so what the other clock domain
  catches during the step is the old pointer or the new one.
* The comparisons on codes are the comparisons on pointers: equal codes are
  equal pointers, and a code with its two top bits inverted is the code of the
  pointer half a turn ahead.
-/

namespace SocRtl.Fifo

open Gray

/-! ## The decoder -/

section

variable {w : ℕ}

/-- A word with bit `i` assigned. -/
def setBit (b : BitVec w) (i : ℕ) (v : Bool) : BitVec w :=
  (b &&& ~~~(BitVec.twoPow w i)) ||| (if v then BitVec.twoPow w i else 0#w)

/-- The iterations of the loop in `gray2bin` for the indices below `n`, the
highest first. -/
def gray2binLoop (gray : BitVec w) : ℕ → BitVec w → BitVec w
  | 0, bin => bin
  | i + 1, bin =>
      gray2binLoop gray i (setBit bin i (bin.getLsbD (i + 1) ^^ gray.getLsbD i))

/-- `gray2bin`. The top bit is copied, then the loop runs down from the bit
below it; every bit is assigned, so the word it starts from does not matter. -/
def gray2bin (gray : BitVec w) : BitVec w :=
  gray2binLoop gray (w - 1) (setBit 0#w (w - 1) (gray.getLsbD (w - 1)))

theorem getLsbD_setBit (b : BitVec w) (i : ℕ) (v : Bool) {j : ℕ} (hj : j < w) :
    (setBit b i v).getLsbD j = if j = i then v else b.getLsbD j := by
  by_cases h : j = i
  · subst h
    cases v <;> simp [setBit, hj]
  · cases v <;> simp [setBit, hj, h]

theorem getLsbD_setBit_self (b : BitVec w) (v : Bool) {i : ℕ} (hi : i < w) :
    (setBit b i v).getLsbD i = v := by
  rw [getLsbD_setBit b i v hi, if_pos rfl]

/-- Assigning a bit leaves the bits above it alone. -/
theorem getLsbD_setBit_above (b : BitVec w) (v : Bool) {i j : ℕ} (hij : i < j) :
    (setBit b i v).getLsbD j = b.getLsbD j := by
  by_cases hj : j < w
  · rw [getLsbD_setBit b i v hj, if_neg (Nat.ne_of_gt hij)]
  · rw [BitVec.getLsbD_of_ge _ _ (Nat.le_of_not_lt hj),
      BitVec.getLsbD_of_ge _ _ (Nat.le_of_not_lt hj)]

/-- The loop invariant: the bits from `n` up are decoded. Each iteration
decodes one more, from the bit above that the last iteration left. -/
theorem gray2binLoop_bits (gray : BitVec w) :
    ∀ (n : ℕ) (bin : BitVec w), n ≤ w →
      (∀ j, n ≤ j → j < w → bin.getLsbD j = (bin.getLsbD (j + 1) ^^ gray.getLsbD j)) →
      ∀ j < w, (gray2binLoop gray n bin).getLsbD j
        = ((gray2binLoop gray n bin).getLsbD (j + 1) ^^ gray.getLsbD j) := by
  intro n
  induction n with
  | zero =>
      intro bin _ hbits j hj
      exact hbits j (Nat.zero_le j) hj
  | succ i ih =>
      intro bin hi hbits
      refine ih _ (Nat.le_of_succ_le hi) ?_
      intro j hij hj
      rcases Nat.eq_or_lt_of_le hij with rfl | hlt
      · rw [getLsbD_setBit_self bin _ hj, getLsbD_setBit_above bin _ (Nat.lt_succ_self i)]
      · rw [getLsbD_setBit_above bin _ hlt, getLsbD_setBit_above bin _ (Nat.lt_succ_of_lt hlt)]
        exact hbits j hlt hj

/-- The decoder is a right inverse: the loop leaves every bit decoded. -/
theorem bin2gray_gray2bin (gray : BitVec w) : bin2gray (gray2bin gray) = gray := by
  refine bin2gray_eq_of_bits (gray2binLoop_bits gray (w - 1) _ (Nat.sub_le w 1) ?_)
  intro j hle hj
  have htop : j = w - 1 := by omega
  subst htop
  rw [getLsbD_setBit_self _ _ hj, BitVec.getLsbD_of_ge _ (w - 1 + 1) (by omega), Bool.false_xor]

/-- And a left inverse, because no two words share a code. -/
theorem gray2bin_bin2gray (bin : BitVec w) : gray2bin (bin2gray bin) = bin :=
  bin2gray_injective (bin2gray_gray2bin (bin2gray bin))

/-- The codec, at every width: encoder and decoder are inverse to each other,
counting up (the wrap included) changes exactly one bit of the code, and any
bitwise mixture of the codes before and after is one of the two. -/
theorem gray_codec_bijective_unit_step (hw : 1 ≤ w) :
    (∀ n : BitVec w, gray2bin (bin2gray n) = n) ∧
    (∀ g : BitVec w, bin2gray (gray2bin g) = g) ∧
    ∀ n : BitVec w, UnitStep (bin2gray n) (bin2gray (n + 1)) ∧
      ∀ m, Mixture (bin2gray n) (bin2gray (n + 1)) m →
        m = bin2gray n ∨ m = bin2gray (n + 1) := by
  refine ⟨gray2bin_bin2gray, bin2gray_gray2bin, ?_⟩
  intro n
  have hstep : UnitStep (bin2gray n) (bin2gray (n + 1)) := unitStep_bin2gray hw n
  exact ⟨hstep, fun m hm => hstep.mixture hm⟩

end

/-- The codec at the default width of the package functions. -/
theorem gray_codec_five :
    (∀ n : BitVec 5, gray2bin (bin2gray n) = n) ∧
    (∀ g : BitVec 5, bin2gray (gray2bin g) = g) ∧
    ∀ n : BitVec 5, UnitStep (bin2gray n) (bin2gray (n + 1)) ∧
      ∀ m, Mixture (bin2gray n) (bin2gray (n + 1)) m →
        m = bin2gray n ∨ m = bin2gray (n + 1) :=
  gray_codec_bijective_unit_step (by decide)

example : gray2bin (bin2gray 0b10110#5) = 0b10110#5 := by decide

/-! ## Pointer steps -/

namespace AsyncFifo

variable {A D : ℕ}

/-- The pointer registers hold the codes of the counters next to them. -/
structure PtrsCoded (s : AsyncFifo A D) : Prop where
  wr : s.wptrFull.tempWrPtr = bin2gray s.wptrFull.tempWrAddr
  rd : s.rptrEmpty.tempPtrGray = bin2gray s.rptrEmpty.tempAddrBin

theorem ptrsCoded_reset (s : AsyncFifo A D) : s.reset.PtrsCoded := by
  constructor <;> simp [reset, WptrFull.reset, RptrEmpty.reset, bin2gray]

theorem PtrsCoded.step {s : AsyncFifo A D} (hs : s.PtrsCoded) (i : Instant D) :
    (s.step i).PtrsCoded := by
  constructor
  · cases hw : i.wr with
    | none => simpa [AsyncFifo.step, hw] using hs.wr
    | some p => simp [AsyncFifo.step, hw, WptrFull.step, WptrFull.wptrNextGray]
  · cases hr : i.rd with
    | none => simpa [AsyncFifo.step, hr] using hs.rd
    | some p => simp [AsyncFifo.step, hr, RptrEmpty.step, RptrEmpty.rptrNextGray]

/-- The write pointer across an instant. -/
theorem PtrsCoded.wr_ptrStep {s : AsyncFifo A D} (hs : s.PtrsCoded) (i : Instant D) :
    PtrStep s.wptrFull.tempWrPtr (s.step i).wptrFull.tempWrPtr := by
  cases hw : i.wr with
  | none => left; simp [AsyncFifo.step, hw]
  | some p =>
      -- an edge of the write clock counts up by `wr_en` and registers the code of that
      refine Or.inr ⟨s.wptrFull.tempWrAddr, s.wptrFull.wrEn p.wrReq, hs.wr, ?_⟩
      simp [AsyncFifo.step, hw, WptrFull.step, WptrFull.wptrNextGray, WptrFull.wadrNextBin]

/-- And the read pointer. -/
theorem PtrsCoded.rd_ptrStep {s : AsyncFifo A D} (hs : s.PtrsCoded) (i : Instant D) :
    PtrStep s.rptrEmpty.tempPtrGray (s.step i).rptrEmpty.tempPtrGray := by
  cases hr : i.rd with
  | none => left; simp [AsyncFifo.step, hr]
  | some p =>
      refine Or.inr ⟨s.rptrEmpty.tempAddrBin, s.rptrEmpty.rdEn p.rdReq, hs.rd, ?_⟩
      simp [AsyncFifo.step, hr, RptrEmpty.step, RptrEmpty.rptrNextGray, RptrEmpty.radrNextBin]

/-- In every run, whatever the other domain catches of a pointer while it
steps is the pointer before the step or the one after it. -/
theorem caught_pointer_of_run (s : AsyncFifo A D) (ins : List (Instant D)) (i : Instant D) :
    let s' := run step s.reset ins
    (∀ m, Mixture s'.wptrFull.tempWrPtr (s'.step i).wptrFull.tempWrPtr m →
      m = s'.wptrFull.tempWrPtr ∨ m = (s'.step i).wptrFull.tempWrPtr) ∧
    ∀ m, Mixture s'.rptrEmpty.tempPtrGray (s'.step i).rptrEmpty.tempPtrGray m →
      m = s'.rptrEmpty.tempPtrGray ∨ m = (s'.step i).rptrEmpty.tempPtrGray := by
  intro s'
  -- the registers hold codes in every state of the run
  have hcoded : s'.PtrsCoded :=
    run_preserves PtrsCoded (ptrsCoded_reset s) (fun _ i hs => hs.step i) ins
  exact ⟨fun _ hm => (hcoded.wr_ptrStep i).mixture A.succ_pos hm,
    fun _ hm => (hcoded.rd_ptrStep i).mixture A.succ_pos hm⟩

end AsyncFifo

/-! ## The comparisons -/

section

variable {A : ℕ}

/-- `full_flag` compares the next write pointer with the read pointer it is given. -/
theorem WptrFull.fullFlag_eq_true_iff (hA : 1 ≤ A) (s : WptrFull A) (r : BitVec (A + 1))
    (wrReq : Bool) :
    s.fullFlag (bin2gray r) wrReq = true ↔ (s.wadrNextBin wrReq - r).toNat = 2 ^ A := by
  rw [fullFlag, decide_eq_true_iff, wptrNextGray, bin2gray_eq_flipTopTwo_iff hA]

theorem RptrEmpty.emptyFlag_eq_true_iff (s : RptrEmpty A) (w : BitVec (A + 1)) (rdReq : Bool) :
    s.emptyFlag (bin2gray w) rdReq = true ↔ w = s.radrNextBin rdReq := by
  rw [emptyFlag, decide_eq_true_iff, rptrNextGray, bin2gray_injective.eq_iff, eq_comm]

/-- The comparisons on codes are exact, for all pointers: the full comparison
holds when the write pointer is `2 ^ ADR_BIT` ahead modulo `2 ^ (ADR_BIT + 1)`,
the empty comparison when the pointers are equal. So do the two flags. -/
theorem gray_comparisons_exact (hA : 2 ≤ A) :
    (∀ w r : BitVec (A + 1),
      (bin2gray w = flipTopTwo (bin2gray r) ↔ (w - r).toNat = 2 ^ A) ∧
        (bin2gray r = bin2gray w ↔ w = r)) ∧
    (∀ (s : WptrFull A) (r : BitVec (A + 1)) (wrReq : Bool),
      s.fullFlag (bin2gray r) wrReq = true ↔ (s.wadrNextBin wrReq - r).toNat = 2 ^ A) ∧
    ∀ (s : RptrEmpty A) (w : BitVec (A + 1)) (rdReq : Bool),
      s.emptyFlag (bin2gray w) rdReq = true ↔ w = s.radrNextBin rdReq := by
  have hA' : 1 ≤ A := Nat.le_of_succ_le hA
  refine ⟨?_, fun s => s.fullFlag_eq_true_iff hA', RptrEmpty.emptyFlag_eq_true_iff⟩
  intro w r
  refine ⟨bin2gray_eq_flipTopTwo_iff hA' w r, ?_⟩
  rw [bin2gray_injective.eq_iff, eq_comm]

end

/-- The comparisons at the default address width. -/
theorem gray_comparisons_four :
    (∀ w r : BitVec (4 + 1),
      (bin2gray w = flipTopTwo (bin2gray r) ↔ (w - r).toNat = 2 ^ 4) ∧
        (bin2gray r = bin2gray w ↔ w = r)) ∧
    (∀ (s : WptrFull 4) (r : BitVec (4 + 1)) (wrReq : Bool),
      s.fullFlag (bin2gray r) wrReq = true ↔ (s.wadrNextBin wrReq - r).toNat = 2 ^ 4) ∧
    ∀ (s : RptrEmpty 4) (w : BitVec (4 + 1)) (rdReq : Bool),
      s.emptyFlag (bin2gray w) rdReq = true ↔ w = s.radrNextBin rdReq :=
  gray_comparisons_exact (by decide)

end SocRtl.Fifo
