import SocRtl.Cpu.Pcpi
import SocRtl.Lib.Division
import Mathlib.Algebra.Group.Nat.Defs

/-!
# SocRtl.Cpu.PcpiDiv — `picorv32_pcpi_div`

The division co-processor. A request is recognised one edge after it appears;
the rising edge of `pcpi_wait` starts the loop with the absolute values of the
operands, the divisor placed 31 bits up. The loop ends when the mask bit has
been shifted out, and the answer gets its sign back.

The loop is `Division.divStep` on the values of the registers, so its invariant
gives quotient and remainder; the signs and the two special cases of the
instruction set (division by zero, overflow) are arithmetic after that.
-/

namespace SocRtl.Cpu.PcpiDiv

open SocRtl.Division

/-! ## Model -/

structure State where
  instr_div : Bool
  instr_divu : Bool
  instr_rem : Bool
  instr_remu : Bool
  pcpi_wait : Bool
  pcpi_wait_q : Bool
  dividend : BitVec 32
  divisor : BitVec 63
  quotient : BitVec 32
  quotient_msk : BitVec 32
  running : Bool
  outsign : Bool
  pcpi_wr : Bool
  pcpi_rd : Option (BitVec 32)
  pcpi_ready : Bool
deriving DecidableEq, Repr

def instr_any_div_rem (s : State) : Bool :=
  s.instr_div || s.instr_divu || s.instr_rem || s.instr_remu

def start (s : State) : Bool := s.pcpi_wait && !s.pcpi_wait_q

/-- The first `always` block: the request is sampled, unless it is just being
answered. -/
def sample (s : State) (i : PcpiIn) : State :=
  let hit := i.resetn && i.pcpi_valid && !s.pcpi_ready && opcodeM i.pcpi_insn
  { s with
    instr_div := hit && funct3 i.pcpi_insn == 0b100#3
    instr_divu := hit && funct3 i.pcpi_insn == 0b101#3
    instr_rem := hit && funct3 i.pcpi_insn == 0b110#3
    instr_remu := hit && funct3 i.pcpi_insn == 0b111#3
    pcpi_wait := instr_any_div_rem s && i.resetn
    pcpi_wait_q := s.pcpi_wait && i.resetn }

/-- The registers loaded by a start. The shift is 63 bits wide, and so is the
negation under it. -/
def load (s : State) (i : PcpiIn) : State :=
  let signed := s.instr_div || s.instr_rem
  { s with
    running := true
    dividend := if signed && i.pcpi_rs1.msb then -i.pcpi_rs1 else i.pcpi_rs1
    divisor :=
      (if signed && i.pcpi_rs2.msb then -(i.pcpi_rs2.setWidth 63) else i.pcpi_rs2.setWidth 63)
        <<< 31
    outsign :=
      (s.instr_div && (i.pcpi_rs1.msb != i.pcpi_rs2.msb) && i.pcpi_rs2 != 0)
        || (s.instr_rem && i.pcpi_rs1.msb)
    quotient := 0
    quotient_msk := 1#32 <<< 31 }

/-- The answer. -/
def finish (s : State) : State :=
  { s with
    running := false
    pcpi_ready := true
    pcpi_wr := true
    pcpi_rd := some (
      if s.instr_div || s.instr_divu then
        if s.outsign then -s.quotient else s.quotient
      else
        if s.outsign then -s.dividend else s.dividend) }

/-- One step of the loop, taken in every other cycle, also when nothing runs. -/
def subtract (s : State) : State :=
  let fits := s.divisor ≤ s.dividend.setWidth 63
  { s with
    dividend :=
      if fits then (s.dividend.setWidth 63 - s.divisor).setWidth 32 else s.dividend
    quotient := if fits then s.quotient ||| s.quotient_msk else s.quotient
    divisor := s.divisor >>> 1
    quotient_msk := s.quotient_msk >>> 1 }

/-- A clock edge. Both `always` blocks read the registers before the edge. -/
def step (s : State) (i : PcpiIn) : State :=
  let next :=
    if !i.resetn then
      { s with running := false, pcpi_ready := false, pcpi_wr := false, pcpi_rd := none }
    else if start s then
      { load s i with pcpi_ready := false, pcpi_wr := false, pcpi_rd := none }
    else if s.quotient_msk == 0 && s.running then finish s
    else { subtract s with pcpi_ready := false, pcpi_wr := false, pcpi_rd := none }
  let sampled := sample s i
  { next with
    instr_div := sampled.instr_div
    instr_divu := sampled.instr_divu
    instr_rem := sampled.instr_rem
    instr_remu := sampled.instr_remu
    pcpi_wait := sampled.pcpi_wait
    pcpi_wait_q := sampled.pcpi_wait_q }

def out (s : State) : PcpiOut := ⟨s.pcpi_wr, s.pcpi_rd, s.pcpi_wait, s.pcpi_ready⟩

def picorv32_pcpi_div : PcpiUnit State := ⟨step, out⟩

/-! ## The loop -/

/-- The registers of the loop as the words of the division. -/
def words (s : State) : Words :=
  ⟨s.dividend.toNat, s.divisor.toNat, s.quotient.toNat, s.quotient_msk.toNat⟩

theorem words_subtract (s : State) : words (subtract s) = divStep (words s) := by
  have hwide : (s.dividend.setWidth 63).toNat = s.dividend.toNat :=
    BitVec.toNat_setWidth_of_le (by decide)
  have hfits : s.divisor ≤ s.dividend.setWidth 63 ↔ s.divisor.toNat ≤ s.dividend.toNat := by
    rw [BitVec.le_def, hwide]
  by_cases h : s.divisor.toNat ≤ s.dividend.toNat
  · have hdiff : ((s.dividend.setWidth 63 - s.divisor).setWidth 32).toNat
        = s.dividend.toNat - s.divisor.toNat := by
      rw [BitVec.toNat_setWidth, BitVec.toNat_sub_of_le (hfits.mpr h), hwide]
      exact Nat.mod_eq_of_lt (Nat.lt_of_le_of_lt (Nat.sub_le _ _) s.dividend.isLt)
    simp [words, subtract, divStep, hfits, h, hdiff, Nat.shiftRight_eq_div_pow]
  · simp [words, subtract, divStep, hfits, h, Nat.shiftRight_eq_div_pow]

/-- The loop works on the absolute values where the instruction is signed. -/
def absIf (signed : Bool) (x : BitVec 32) : BitVec 32 := if signed then x.abs else x

theorem absIf_eq (signed : Bool) (x : BitVec 32) :
    (if signed && x.msb then -x else x) = absIf signed x := by
  cases signed <;> simp [absIf, BitVec.abs]

/-- The divisor is placed without loss, whatever its sign. -/
theorem toNat_placed (signed : Bool) (y : BitVec 32) :
    ((if signed && y.msb then -(y.setWidth 63) else y.setWidth 63) <<< 31).toNat
      = (absIf signed y).toNat * 2 ^ (32 - 1) := by
  rw [← absIf_eq]
  have hlt := y.isLt
  split
  · rename_i h
    have hmsb : 2 ^ 31 ≤ y.toNat := by
      have htwo := BitVec.msb_eq_true_iff_two_mul_ge.mp (Bool.and_eq_true_iff.mp h).2
      omega
    simp only [BitVec.toNat_shiftLeft, BitVec.toNat_neg, BitVec.toNat_setWidth,
      Nat.shiftLeft_eq]
    omega
  · simp only [BitVec.toNat_shiftLeft, BitVec.toNat_setWidth, Nat.shiftLeft_eq]
    omega

/-- A start sets the loop up. -/
theorem divInv_load (s : State) (i : PcpiIn) :
    DivInv 32 (absIf (s.instr_div || s.instr_rem) i.pcpi_rs1).toNat
      (absIf (s.instr_div || s.instr_rem) i.pcpi_rs2).toNat 0 (words (load s i)) := by
  have hwords : words (load s i)
      = ⟨(absIf (s.instr_div || s.instr_rem) i.pcpi_rs1).toNat,
          (absIf (s.instr_div || s.instr_rem) i.pcpi_rs2).toNat * 2 ^ (32 - 1), 0,
          2 ^ (32 - 1)⟩ := by
    simp only [words, load, absIf_eq, toNat_placed]
    rfl
  rw [hwords]
  exact divInv_init (by decide) (BitVec.isLt _)

/-! ## Signs -/

theorem ofInt_tdiv (x y : BitVec 32) :
    BitVec.ofInt 32 (x.toInt.tdiv y.toInt)
      = if x.msb != y.msb then -(x.abs / y.abs) else x.abs / y.abs := by
  have hsdiv : BitVec.ofInt 32 (x.toInt.tdiv y.toInt) = x.sdiv y := by
    apply BitVec.eq_of_toInt_eq
    rw [BitVec.toInt_ofInt, BitVec.toInt_sdiv]
  rw [hsdiv]
  cases hx : x.msb <;> cases hy : y.msb <;> simp [BitVec.sdiv_eq, BitVec.abs, hx, hy]

theorem ofInt_tmod (x y : BitVec 32) :
    BitVec.ofInt 32 (x.toInt.tmod y.toInt)
      = if x.msb then -(x.abs % y.abs) else x.abs % y.abs := by
  have hsrem : BitVec.ofInt 32 (x.toInt.tmod y.toInt) = x.srem y := by
    rw [← BitVec.toInt_srem, BitVec.ofInt_toInt]
  rw [hsrem]
  cases hx : x.msb <;> cases hy : y.msb <;> simp [BitVec.srem_eq, BitVec.abs, hx, hy]

theorem abs_eq_zero (y : BitVec 32) : y.abs = 0#32 ↔ y = 0#32 := by
  unfold BitVec.abs
  split
  · simp
  · exact Iff.rfl

/-! ## Requests -/

/-- The instruction registers hold the division. -/
def Recognised (op : MulDiv) (s : State) : Prop :=
  s.instr_div = (op == .div) ∧ s.instr_divu = (op == .divu) ∧ s.instr_rem = (op == .rem)
    ∧ s.instr_remu = (op == .remu)

/-- The instruction registers are clear. -/
def Clear (s : State) : Prop := instr_any_div_rem s = false

/-- A held request is recognised at the next edge. -/
theorem recognised_step {s : State} {r : Request} {op : MulDiv} (hop : decodeM r.insn = some op)
    (hready : s.pcpi_ready = false) : Recognised op (step s r.held) := by
  have hcode := decodeM_eq_some.mp hop
  have hflags := funct3_div (funct3 r.insn)
  simp only [Recognised, step, sample, Request.held, hready, hcode.1, ← hcode.2, hflags,
    Bool.not_false, Bool.and_true, Bool.true_and, and_self]

theorem any_of_recognised {op : MulDiv} {s : State} (h : Recognised op s) :
    instr_any_div_rem s = op.isDiv := by
  rcases h with ⟨h1, h2, h3, h4⟩
  cases op <;> simp_all [instr_any_div_rem, MulDiv.isDiv, MulDiv.isMul]

/-- No division is recognised without a request, in reset, in the cycle of an
answer, or in a request for another unit. -/
theorem clear_step {s : State} {i : PcpiIn}
    (h : i.resetn = false ∨ i.pcpi_valid = false ∨ s.pcpi_ready = true
      ∨ ∀ op, decodeM i.pcpi_insn = some op → op.isDiv = false) : Clear (step s i) := by
  rcases h with h | h | h | h
  · simp [Clear, instr_any_div_rem, step, sample, h]
  · simp [Clear, instr_any_div_rem, step, sample, h]
  · simp [Clear, instr_any_div_rem, step, sample, h]
  · cases hcode : opcodeM i.pcpi_insn with
    | false => simp [Clear, instr_any_div_rem, step, sample, hcode]
    | true =>
        have hother := h (MulDiv.ofFunct3 (funct3 i.pcpi_insn)) (by simp [decodeM, hcode])
        have hflags := funct3_div (funct3 i.pcpi_insn)
        cases hop : MulDiv.ofFunct3 (funct3 i.pcpi_insn) <;>
          simp_all [Clear, instr_any_div_rem, step, sample, MulDiv.isDiv, MulDiv.isMul]

/-! ## Phases -/

/-- The sign that the answer gets. -/
def signOf (op : MulDiv) (x y : BitVec 32) : Bool :=
  (op == .div && (x.msb != y.msb) && y != 0) || (op == .rem && x.msb)

def isSigned (op : MulDiv) : Bool := op == .div || op == .rem

/-- Between requests: nothing recognised, nothing running, no start to come. -/
structure Quiet (s : State) : Prop where
  clear : Clear s
  idle : s.running = false
  ready : s.pcpi_ready = false
  no_start : start s = false

/-- After `k` edges of a division held for the unit. -/
inductive Serving (op : MulDiv) (x y : BitVec 32) : ℕ → State → Prop
  | seen {s} (hop : Recognised op s) (hrun : s.running = false) (hready : s.pcpi_ready = false)
      (hwait : s.pcpi_wait = false) : Serving op x y 1 s
  | claimed {s} (hop : Recognised op s) (hrun : s.running = false) (hready : s.pcpi_ready = false)
      (hwait : s.pcpi_wait = true) (hfirst : s.pcpi_wait_q = false) : Serving op x y 2 s
  | looping {s} (t : ℕ) (ht : t ≤ 32) (hop : Recognised op s) (hrun : s.running = true)
      (hready : s.pcpi_ready = false) (hwait : s.pcpi_wait = true) (hlater : s.pcpi_wait_q = true)
      (hsign : s.outsign = signOf op x y)
      (hdiv : DivInv 32 (absIf (isSigned op) x).toNat (absIf (isSigned op) y).toNat t (words s)) :
      Serving op x y (t + 3) s
  | answered {s} (hop : Recognised op s) (hrun : s.running = false) (hready : s.pcpi_ready = true)
      (hwait : s.pcpi_wait = true) (hlater : s.pcpi_wait_q = true) (hwr : s.pcpi_wr = true)
      (hrd : s.pcpi_rd = some (op.result x y)) : Serving op x y 36 s

/-! ## The answer -/

section

variable {a b : BitVec 32} {s : State} (h : DivInv 32 a.toNat b.toNat 32 (words s))

include h

theorem quotient_of_divInv :
    s.quotient = if b = 0 then BitVec.allOnes 32 else a / b := by
  apply BitVec.eq_of_toNat_eq
  show (words s).quotient = _
  split
  · rename_i hb
    rw [h.quotient_zero (by simp [hb])]
    rfl
  · rename_i hb
    have hpos : 0 < b.toNat := Nat.pos_of_ne_zero fun h0 => hb (BitVec.eq_of_toNat_eq h0)
    rw [h.quotient_eq hpos, BitVec.toNat_udiv]

theorem dividend_of_divInv : s.dividend = if b = 0 then a else a % b := by
  apply BitVec.eq_of_toNat_eq
  show (words s).dividend = _
  split
  · rename_i hb
    exact h.dividend_zero (by simp [hb])
  · rename_i hb
    have hpos : 0 < b.toNat := Nat.pos_of_ne_zero fun h0 => hb (BitVec.eq_of_toNat_eq h0)
    rw [h.dividend_eq hpos, BitVec.toNat_umod]

end

/-- When the mask has left its register, the answer is the one that the
instruction set asks for. -/
theorem finish_rd {op : MulDiv} {x y : BitVec 32} {s : State} (hop : Recognised op s)
    (hdivision : op.isDiv = true) (hsign : s.outsign = signOf op x y)
    (hdiv : DivInv 32 (absIf (isSigned op) x).toNat (absIf (isSigned op) y).toNat 32 (words s)) :
    (finish s).pcpi_rd = some (op.result x y) := by
  -- the registers hold quotient and remainder of the absolute values
  have hq := quotient_of_divInv hdiv
  have hr := dividend_of_divInv hdiv
  rcases hop with ⟨h1, h2, h3, h4⟩
  simp only [finish, h1, h2, hsign, hq, hr, Option.some.injEq]
  cases op with
  | mul | mulh | mulhsu | mulhu => cases hdivision
  | div =>
      by_cases hy : y = 0#32
      · -- no sign for a quotient by zero
        simp [hy, signOf, isSigned, absIf, MulDiv.result]
      · have hy' : ¬ y.abs = 0#32 := fun h0 => hy ((abs_eq_zero y).mp h0)
        simp [hy, hy', signOf, isSigned, absIf, MulDiv.result, ofInt_tdiv]
  | divu => simp [signOf, isSigned, absIf, MulDiv.result, BitVec.udiv_def]
  | rem =>
      by_cases hy : y = 0#32
      · -- the dividend comes back with its sign
        simp only [hy, signOf, isSigned, absIf, MulDiv.result, BitVec.abs]
        cases x.msb <;> simp
      · have hy' : ¬ y.abs = 0#32 := fun h0 => hy ((abs_eq_zero y).mp h0)
        simp [hy, hy', signOf, isSigned, absIf, MulDiv.result, ofInt_tmod]
  | remu => simp [signOf, isSigned, absIf, MulDiv.result, BitVec.umod_def]

/-! ## One edge -/

/-- An edge that neither starts nor finishes a division. -/
theorem quiet_step {s : State} {i : PcpiIn} (h : Quiet s)
    (hi : i.resetn = false ∨ i.pcpi_valid = false
      ∨ ∀ op, decodeM i.pcpi_insn = some op → op.isDiv = false) : Quiet (step s i) := by
  have hclear : Clear (step s i) :=
    clear_step (hi.imp_right fun h' => h'.imp_right fun h'' => Or.inr h'')
  have hany : instr_any_div_rem s = false := h.clear
  refine ⟨hclear, ?_, ?_, ?_⟩
  · cases hr : i.resetn <;> simp [step, hr, h.no_start, h.idle, subtract]
  · cases hr : i.resetn <;> simp [step, hr, h.no_start, h.idle]
  · simp [start, step, sample, hany]

/-- The edge that first sees a division. -/
theorem serving_start {s : State} {r : Request} {op : MulDiv} (h : Quiet s)
    (hr : Asks MulDiv.isDiv r op) :
    Serving op r.rs1 r.rs2 1 (step s r.held) := by
  have hany : instr_any_div_rem s = false := h.clear
  refine .seen (recognised_step hr.1 h.ready) ?_ ?_ ?_
  · simp [step, Request.held, h.no_start, h.idle, subtract]
  · simp [step, Request.held, h.no_start, h.idle]
  · simp [step, sample, hany]

theorem words_of_data {s t : State} (h1 : t.dividend = s.dividend) (h2 : t.divisor = s.divisor)
    (h3 : t.quotient = s.quotient) (h4 : t.quotient_msk = s.quotient_msk) : words t = words s := by
  simp only [words, h1, h2, h3, h4]

/-- Every later edge until the answer. -/
theorem serving_step {s : State} {r : Request} {op : MulDiv} {k : ℕ} (hr : Asks MulDiv.isDiv r op)
    (h : Serving op r.rs1 r.rs2 k s) (hk : k < 36) :
    Serving op r.rs1 r.rs2 (k + 1) (step s r.held) := by
  cases h with
  | seen hop hrun hready hwait =>
      -- the instruction is known, and `pcpi_wait` rises
      have hany : instr_any_div_rem s = true := (any_of_recognised hop).trans hr.2
      have hstart : start s = false := by simp [start, hwait]
      refine .claimed (recognised_step hr.1 hready) ?_ ?_ ?_ ?_
      · simp [step, Request.held, hstart, hrun, subtract]
      · simp [step, Request.held, hstart, hrun]
      · simp [step, sample, hany, Request.held]
      · simp [step, sample, hwait]
  | claimed hop hrun hready hwait hfirst =>
      -- the start loads the absolute values, and with them the invariant at 0
      have hany : instr_any_div_rem s = true := (any_of_recognised hop).trans hr.2
      have hstart : start s = true := by simp [start, hwait, hfirst]
      have hdiv := divInv_load s r.held
      have hsigned : (s.instr_div || s.instr_rem) = isSigned op := by rw [hop.1, hop.2.2.1]; rfl
      rw [hsigned] at hdiv
      -- no later branch of the edge touches what was loaded
      have hwords : words (step s r.held) = words (load s r.held) :=
        words_of_data (by simp [step, hstart, Request.held]) (by simp [step, hstart, Request.held])
          (by simp [step, hstart, Request.held]) (by simp [step, hstart, Request.held])
      refine .looping 0 (by decide) (recognised_step hr.1 hready) ?_ ?_ ?_ ?_ ?_ (hwords ▸ hdiv)
      · simp [step, Request.held, hstart, load]
      · simp [step, Request.held, hstart]
      · simp [step, sample, hany, Request.held]
      · simp [step, sample, hwait, Request.held]
      · simp [step, Request.held, hstart, load, hop.1, hop.2.2.1, signOf]
  | looping t ht hop hrun hready hwait hlater hsign hdiv =>
      have hany : instr_any_div_rem s = true := (any_of_recognised hop).trans hr.2
      have hstart : start s = false := by simp [start, hwait, hlater]
      rcases Nat.lt_or_eq_of_le ht with hlt | rfl
      · -- the mask is still in its register: one more step of the loop
        have hmask : ¬ s.quotient_msk = 0#32 := by
          have hpos : 0 < s.quotient_msk.toNat := hdiv.mask_pos hlt
          intro h0
          rw [h0] at hpos
          exact absurd hpos (by decide)
        have hwords : words (step s r.held) = words (subtract s) :=
          words_of_data (by simp [step, hstart, Request.held, hmask])
            (by simp [step, hstart, Request.held, hmask])
            (by simp [step, hstart, Request.held, hmask])
            (by simp [step, hstart, Request.held, hmask])
        rw [words_subtract] at hwords
        refine .looping (t + 1) hlt (recognised_step hr.1 hready) ?_ ?_ ?_ ?_ ?_
          (hwords ▸ divInv_step hlt hdiv)
        · simp [step, Request.held, hstart, hmask, subtract, hrun]
        · simp [step, Request.held, hstart, hmask]
        · simp [step, sample, hany, Request.held]
        · simp [step, sample, hwait, Request.held]
        · simp [step, Request.held, hstart, hmask, subtract, hsign]
      · -- it has been shifted out: the answer
        have hmask : s.quotient_msk = 0#32 := BitVec.eq_of_toNat_eq hdiv.mask_zero
        have hrd := finish_rd hop hr.2 hsign hdiv
        refine .answered (recognised_step hr.1 hready) ?_ ?_ ?_ ?_ ?_ ?_
        · simp [step, Request.held, hstart, hmask, hrun, finish]
        · simp [step, Request.held, hstart, hmask, hrun, finish]
        · simp [step, sample, hany, Request.held]
        · simp [step, sample, hwait, Request.held]
        · simp [step, Request.held, hstart, hmask, hrun, finish]
        · simpa [step, Request.held, hstart, hmask, hrun] using hrd
  | answered => exact absurd hk (Nat.lt_irrefl 36)

/-- After the answer the unit is quiet again, with the request still there. -/
theorem quiet_of_answered {s : State} {r : Request} {op : MulDiv}
    (h : Serving op r.rs1 r.rs2 36 s) : Quiet (step s r.held) := by
  -- edge 36 is the answer and none of the loop
  have hready : s.pcpi_ready = true ∧ s.running = false ∧ s.pcpi_wait = true
      ∧ s.pcpi_wait_q = true := by
    cases h with
    | looping t ht => exact absurd ht (by decide)
    | answered hop hrun hready hwait hlater => exact ⟨hready, hrun, hwait, hlater⟩
  rcases hready with ⟨hready, hrun, hwait, hlater⟩
  have hstart : start s = false := by simp [start, hwait, hlater]
  refine ⟨clear_step (Or.inr (Or.inr (Or.inl hready))), ?_, ?_, ?_⟩
  · simp [step, Request.held, hstart, hrun, subtract]
  · simp [step, Request.held, hstart, hrun]
  · simp [start, step, sample, hwait, Request.held]

/-! ## Contract -/

/-- The divider answers the divisions of the M extension, 36 edges after they
appear, whatever the operands are. -/
def contract : Contract picorv32_pcpi_div (answerM MulDiv.isDiv) where
  latency := fun _ => 36
  Quiet := Quiet
  Cooling := Quiet
  Busy := fun r k s => ∃ op, Asks MulDiv.isDiv r op ∧ Serving op r.rs1 r.rs2 k s
  reset := by
    intro s i j hi hj
    -- one edge in reset clears what starts a division
    have hfirst : Quiet (step s i) := by
      refine ⟨clear_step (Or.inl hi), ?_, ?_, ?_⟩
      · simp [step, hi]
      · simp [step, hi]
      · simp [start, step, sample, hi]
    exact quiet_step hfirst (Or.inl hj)
  cooling_of_quiet := fun _ h => h
  cooling_ready := fun _ h => h.ready
  cooling_idle := fun _ _ h hi => quiet_step h (Or.inr (Or.inl hi))
  quiet_wait := by
    intro s i h
    have hany : instr_any_div_rem s = false := h.clear
    simp [picorv32_pcpi_div, out, step, sample, hany]
  pass := fun _ _ h hr => quiet_step h (Or.inr (Or.inr (not_half_of_answerM hr)))
  start := by
    intro s r h hr
    rcases asks_of_answerM hr with ⟨op, hop⟩
    exact ⟨op, hop, serving_start h hop⟩
  serve := by
    rintro s r k ⟨op, hop, h⟩ hk
    exact ⟨op, hop, serving_step hop h hk⟩
  busy_wait := by
    rintro s r k ⟨op, _, h⟩ hk
    -- `pcpi_wait` is up from the third edge on
    cases h with
    | seen => exact absurd hk (by decide)
    | claimed => exact absurd hk (by decide)
    | looping _ _ _ _ _ hwait => exact hwait
    | answered _ _ _ hwait => exact hwait
  busy_ready := by
    rintro s r k ⟨op, _, h⟩
    cases h with
    | seen _ _ hready => simp [picorv32_pcpi_div, out, hready]
    | claimed _ _ hready => simp [picorv32_pcpi_div, out, hready]
    | looping t ht _ _ hready =>
        have hne : t + 3 ≠ 36 := by omega
        simp [picorv32_pcpi_div, out, hready, hne]
    | answered _ _ hready => simp [picorv32_pcpi_div, out, hready]
  busy_wr := by
    rintro s r ⟨op, _, h⟩
    cases h with
    | looping t ht => exact absurd ht (by decide)
    | answered _ _ _ _ _ hwr => exact hwr
  busy_rd := by
    rintro s r ⟨op, hop, h⟩
    rw [answerM_of_asks hop]
    cases h with
    | looping t ht => exact absurd ht (by decide)
    | answered _ _ _ _ _ _ hrd => exact hrd
  done := by
    rintro s r ⟨op, _, h⟩
    exact quiet_of_answered h
  latency_pos := fun _ => by decide

end SocRtl.Cpu.PcpiDiv
