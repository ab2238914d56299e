import SocRtl.Cpu.Pcpi
import SocRtl.Lib.CarrySave
import Mathlib.Algebra.Group.Nat.Defs
import Mathlib.Logic.Function.Iterate
import Mathlib.Tactic.Ring

/-!
# SocRtl.Cpu.PcpiMul — `picorv32_pcpi_mul`

The multiplication co-processor. A request is recognised one edge after it
appears; while the unit waits it keeps loading the operands, and the rising
edge of `pcpi_wait` lets it go. Each cycle takes `STEPS_AT_ONCE` bits of the
multiplier through a carry-save accumulator whose carries ripple in chunks of
`CARRY_CHAIN` bits, or not at all. A counter going negative ends the loop, after
32 bits for `mul` and 64 for the others, without the saved carries ever being
added up.

The accumulator is a `CarrySave.Saver`, the loop `CarrySave.mulStep`; that the
carries are out of the way when the loop ends is `CarrySave.MulInv.result`.
-/

namespace SocRtl.Cpu.PcpiMul

open SocRtl.CarrySave

/-! ## Model -/

/-- The accumulator registers. -/
structure Acc where
  rs1 : BitVec 64
  rs2 : BitVec 64
  rd : BitVec 64
  rdx : BitVec 64
deriving DecidableEq, Repr

structure State where
  instr_mul : Bool
  instr_mulh : Bool
  instr_mulhsu : Bool
  instr_mulhu : Bool
  pcpi_wait : Bool
  pcpi_wait_q : Bool
  acc : Acc
  mul_counter : BitVec 7
  mul_waiting : Bool
  mul_finish : Bool
  pcpi_wr : Bool
  pcpi_rd : Option (BitVec 32)
  pcpi_ready : Bool
deriving DecidableEq, Repr

def instr_any_mul (s : State) : Bool :=
  s.instr_mul || s.instr_mulh || s.instr_mulhsu || s.instr_mulhu

def instr_any_mulh (s : State) : Bool := s.instr_mulh || s.instr_mulhsu || s.instr_mulhu

def instr_rs1_signed (s : State) : Bool := s.instr_mulh || s.instr_mulhsu

def instr_rs2_signed (s : State) : Bool := s.instr_mulh

def mul_start (s : State) : Bool := s.pcpi_wait && !s.pcpi_wait_q

/-- `{next_rdt, next_rd}`: the carries and the sums of three words. -/
def next_rdt_rd (CARRY_CHAIN : ℕ) (rd rdx this_rs2 : BitVec 64) : BitVec 64 × BitVec 64 :=
  if CARRY_CHAIN = 0 then
    (rd &&& rdx ||| rd &&& this_rs2 ||| rdx &&& this_rs2, rd ^^^ rdx ^^^ this_rs2)
  else
    let chunks := chain CARRY_CHAIN (64 / CARRY_CHAIN) rd.toNat rdx.toNat this_rs2.toNat
    (BitVec.ofNat 64 chunks.1, BitVec.ofNat 64 chunks.2)

/-- One turn of the carry-save accumulator. -/
def accumulate (CARRY_CHAIN : ℕ) (a : Acc) : Acc :=
  let this_rs2 := if a.rs1.getLsbD 0 then a.rs2 else 0
  let next := next_rdt_rd CARRY_CHAIN a.rd a.rdx this_rs2
  { rs1 := a.rs1 >>> 1, rs2 := a.rs2 <<< 1, rd := next.2, rdx := next.1 <<< 1 }

/-- The operands as they are loaded. -/
def load (s : State) (i : PcpiIn) : Acc where
  rs1 := if instr_rs1_signed s then i.pcpi_rs1.signExtend 64 else i.pcpi_rs1.setWidth 64
  rs2 := if instr_rs2_signed s then i.pcpi_rs2.signExtend 64 else i.pcpi_rs2.setWidth 64
  rd := 0
  rdx := 0

section

variable (STEPS_AT_ONCE CARRY_CHAIN : ℕ)

/-- A clock edge. -/
def step (s : State) (i : PcpiIn) : State :=
  let hit := i.resetn && i.pcpi_valid && opcodeM i.pcpi_insn
  let finish := s.mul_finish && i.resetn
  let sampled := { s with
    instr_mul := hit && funct3 i.pcpi_insn == 0b000#3
    instr_mulh := hit && funct3 i.pcpi_insn == 0b001#3
    instr_mulhsu := hit && funct3 i.pcpi_insn == 0b010#3
    instr_mulhu := hit && funct3 i.pcpi_insn == 0b011#3
    pcpi_wait := instr_any_mul s
    pcpi_wait_q := s.pcpi_wait
    mul_finish := false
    pcpi_wr := finish
    pcpi_ready := finish
    pcpi_rd :=
      if finish then
        some (if instr_any_mulh s then (s.acc.rd >>> 32).setWidth 32 else s.acc.rd.setWidth 32)
      else s.pcpi_rd }
  if !i.resetn then { sampled with mul_waiting := true }
  else if s.mul_waiting then
    { sampled with
      acc := load s i
      mul_counter :=
        BitVec.ofInt 7 (if instr_any_mulh s then 63 - STEPS_AT_ONCE else 31 - STEPS_AT_ONCE)
      mul_waiting := !mul_start s }
  else
    { sampled with
      acc := (accumulate CARRY_CHAIN)^[STEPS_AT_ONCE] s.acc
      mul_counter := s.mul_counter - BitVec.ofNat 7 STEPS_AT_ONCE
      mul_finish := s.mul_counter.getLsbD 6
      mul_waiting := s.mul_counter.getLsbD 6 }

def out (s : State) : PcpiOut := ⟨s.pcpi_wr, s.pcpi_rd, s.pcpi_wait, s.pcpi_ready⟩

def picorv32_pcpi_mul : PcpiUnit State := ⟨step STEPS_AT_ONCE CARRY_CHAIN, out⟩

end

/-! ## The accumulator -/

/-- The chunk widths that the unit is made for. -/
def Chunks (CARRY_CHAIN : ℕ) : Prop := CARRY_CHAIN = 0 ∨ CARRY_CHAIN ∣ 64

/-- The adder of the accumulator, as an adder of the library. -/
def saver {CARRY_CHAIN : ℕ} (h : Chunks CARRY_CHAIN) : Saver 64 :=
  if h0 : CARRY_CHAIN = 0 then bitwise 64
  else chained CARRY_CHAIN (64 / CARRY_CHAIN) (Nat.pos_of_ne_zero h0)
    (Nat.mul_div_cancel' (h.resolve_left h0))

/-- The registers of the accumulator as the words of the loop. -/
def words (a : Acc) : Product := ⟨a.rs1.toNat, a.rs2.toNat, a.rd.toNat, a.rdx.toNat⟩

section

variable {CARRY_CHAIN : ℕ} (h : Chunks CARRY_CHAIN)

theorem next_rdt_rd_eq (rd rdx this_rs2 : BitVec 64) :
    next_rdt_rd CARRY_CHAIN rd rdx this_rs2
      = (BitVec.ofNat 64 ((saver h).add3 rd.toNat rdx.toNat this_rs2.toNat).1,
          BitVec.ofNat 64 ((saver h).add3 rd.toNat rdx.toNat this_rs2.toNat).2) := by
  unfold next_rdt_rd saver
  split
  · simp only [bitwise, maj, Prod.mk.injEq]
    constructor
    · apply BitVec.eq_of_toNat_eq
      simp
    · apply BitVec.eq_of_toNat_eq
      simp
  · rfl

theorem words_accumulate (a : Acc) :
    words (accumulate CARRY_CHAIN a) = mulStep (saver h) (words a) := by
  have hthis : (if a.rs1.getLsbD 0 then a.rs2 else 0).toNat
      = if a.rs1.toNat % 2 = 1 then a.rs2.toNat else 0 := by
    have hbit : a.rs1.getLsbD 0 = decide (a.rs1.toNat % 2 = 1) := by
      simp [BitVec.getLsbD, Nat.testBit_zero]
    rw [hbit]
    by_cases hodd : a.rs1.toNat % 2 = 1 <;> simp [hodd]
  have hlt := (saver h).sum_lt a.rd.toNat a.rdx.toNat _ a.rd.isLt a.rdx.isLt
    (BitVec.isLt (if a.rs1.getLsbD 0 then a.rs2 else 0))
  rw [hthis] at hlt
  simp only [accumulate, next_rdt_rd_eq h, words, mulStep, hthis, Product.mk.injEq]
  refine ⟨?_, ?_, ?_, ?_⟩
  · simp [Nat.shiftRight_eq_div_pow]
  · simp [Nat.shiftLeft_eq, Nat.mul_comm]
  · rw [BitVec.toNat_ofNat, Nat.mod_eq_of_lt hlt]
    rfl
  · rw [BitVec.toNat_shiftLeft, BitVec.toNat_ofNat, Nat.shiftLeft_eq, Nat.mod_mul_mod,
      Nat.pow_one, Nat.mul_comm]
    rfl

theorem words_iterate (a : Acc) (k : ℕ) :
    words ((accumulate CARRY_CHAIN)^[k] a) = (mulStep (saver h))^[k] (words a) := by
  induction k with
  | zero => rfl
  | succ k ih =>
      rw [Function.iterate_succ_apply', Function.iterate_succ_apply', words_accumulate h, ih]

end

/-! ## Requests -/

/-- The instruction registers hold the multiplication. -/
def Recognised (op : MulDiv) (s : State) : Prop :=
  s.instr_mul = (op == .mul) ∧ s.instr_mulh = (op == .mulh) ∧ s.instr_mulhsu = (op == .mulhsu)
    ∧ s.instr_mulhu = (op == .mulhu)

/-- The instruction registers are clear. -/
def Clear (s : State) : Prop := instr_any_mul s = false

/-- The bits that the instruction needs of the product. -/
def width (op : MulDiv) : ℕ := if op = .mul then 32 else 64

/-- The cycles that the loop takes. -/
def clocks (STEPS_AT_ONCE : ℕ) (op : MulDiv) : ℕ := (width op + STEPS_AT_ONCE - 1) / STEPS_AT_ONCE

theorem any_of_recognised {op : MulDiv} {s : State} (h : Recognised op s) :
    instr_any_mul s = op.isMul := by
  rcases h with ⟨h1, h2, h3, h4⟩
  cases op <;> simp_all [instr_any_mul, MulDiv.isMul]

theorem mulh_of_recognised {op : MulDiv} {s : State} (h : Recognised op s)
    (hop : op.isMul = true) : instr_any_mulh s = !(op == .mul) := by
  rcases h with ⟨h1, h2, h3, h4⟩
  cases op <;> simp_all [instr_any_mulh, MulDiv.isMul]

/-- The operands are extended the way the instruction reads them. -/
theorem load_of_recognised {op : MulDiv} {s : State} {i : PcpiIn} (h : Recognised op s)
    (hop : op.isMul = true) :
    (load s i).rs1 = BitVec.ofInt 64 (op.factors i.pcpi_rs1 i.pcpi_rs2).1
      ∧ (load s i).rs2 = BitVec.ofInt 64 (op.factors i.pcpi_rs1 i.pcpi_rs2).2 := by
  have hunsigned : ∀ x : BitVec 32, BitVec.ofInt 64 (x.toNat : ℤ) = x.setWidth 64 := by
    intro x
    rw [BitVec.ofInt_natCast, BitVec.ofNat_toNat]
  rcases h with ⟨_, h2, h3, _⟩
  simp only [load, instr_rs1_signed, instr_rs2_signed, h2, h3]
  cases op with
  | mul | mulhu => exact ⟨(hunsigned _).symm, (hunsigned _).symm⟩
  | mulh => exact ⟨rfl, rfl⟩
  | mulhsu => exact ⟨rfl, (hunsigned _).symm⟩
  | div | divu | rem | remu => cases hop

/-! ## The counter -/

section

variable {STEPS_AT_ONCE : ℕ} (hS : 1 ≤ STEPS_AT_ONCE) (hS' : STEPS_AT_ONCE ≤ 64) (op : MulDiv)

/-- The counter after `j` cycles of the loop, before it is cut to seven bits. -/
def countdown (STEPS_AT_ONCE : ℕ) (op : MulDiv) (j : ℕ) : ℤ :=
  width op - 1 - STEPS_AT_ONCE - j * STEPS_AT_ONCE

theorem countdown_succ (j : ℕ) :
    BitVec.ofInt 7 (countdown STEPS_AT_ONCE op j) - BitVec.ofNat 7 STEPS_AT_ONCE
      = BitVec.ofInt 7 (countdown STEPS_AT_ONCE op (j + 1)) := by
  rw [← BitVec.ofInt_natCast, BitVec.sub_eq_add_neg, ← BitVec.ofInt_neg, ← BitVec.ofInt_add]
  congr 1
  simp only [countdown]
  push_cast
  ring

include hS

theorem clocks_pos : 0 < clocks STEPS_AT_ONCE op := by
  have hw : 0 < width op := by unfold width; split <;> decide
  exact Nat.div_pos (by omega) hS

/-- The loop goes through all the bits that are needed. -/
theorem width_le : width op ≤ clocks STEPS_AT_ONCE op * STEPS_AT_ONCE := by
  have hmod := Nat.div_add_mod (width op + STEPS_AT_ONCE - 1) STEPS_AT_ONCE
  have hlt := Nat.mod_lt (width op + STEPS_AT_ONCE - 1) hS
  rw [Nat.mul_comm]
  unfold clocks
  omega

include hS'

/-- The counter is negative in the last cycle of the loop, and only there. -/
theorem countdown_msb {j : ℕ} (hj : j < clocks STEPS_AT_ONCE op) :
    (BitVec.ofInt 7 (countdown STEPS_AT_ONCE op j)).getLsbD 6
      = decide (j + 1 = clocks STEPS_AT_ONCE op) := by
  have hw : width op ≤ 64 := by unfold width; split <;> decide
  have hle := width_le hS op
  -- as many cycles as fit, and not one more
  have hup : clocks STEPS_AT_ONCE op * STEPS_AT_ONCE ≤ width op + STEPS_AT_ONCE - 1 :=
    Nat.div_mul_le_self _ _
  have hbig : j + 1 < clocks STEPS_AT_ONCE op → (j + 1) * STEPS_AT_ONCE < width op := by
    intro hlt
    have hnext : (j + 1) * STEPS_AT_ONCE + STEPS_AT_ONCE
        ≤ clocks STEPS_AT_ONCE op * STEPS_AT_ONCE := by
      rw [← Nat.succ_mul]
      exact Nat.mul_le_mul_right _ hlt
    omega
  have hjle : (j + 1) * STEPS_AT_ONCE ≤ clocks STEPS_AT_ONCE op * STEPS_AT_ONCE :=
    Nat.mul_le_mul_right _ hj
  have hcast : countdown STEPS_AT_ONCE op j
      = (width op : ℤ) - 1 - ((j + 1) * STEPS_AT_ONCE : ℕ) := by
    simp only [countdown]
    push_cast
    ring
  have hrange : -64 ≤ countdown STEPS_AT_ONCE op j ∧ countdown STEPS_AT_ONCE op j < 64 := by
    rw [hcast]
    omega
  have hmsb : (BitVec.ofInt 7 (countdown STEPS_AT_ONCE op j)).getLsbD 6
      = decide (countdown STEPS_AT_ONCE op j < 0) := by
    rw [← BitVec.msb_eq_getLsbD_last (w := 7), BitVec.msb_eq_toInt, BitVec.toInt_ofInt,
      Int.bmod_eq_of_le (by omega) (by omega)]
  rw [hmsb, decide_eq_decide]
  rcases Nat.lt_or_eq_of_le (show j + 1 ≤ clocks STEPS_AT_ONCE op from hj) with hlt | heq
  · have hlarge := hbig hlt
    rw [hcast]
    omega
  · have hlast : width op ≤ (j + 1) * STEPS_AT_ONCE := heq ▸ hle
    rw [hcast]
    omega

end

/-! ## The answer -/

/-- The values of the operands in the accumulator. -/
def factor1 (op : MulDiv) (x y : BitVec 32) : BitVec 64 := BitVec.ofInt 64 (op.factors x y).1

def factor2 (op : MulDiv) (x y : BitVec 32) : BitVec 64 := BitVec.ofInt 64 (op.factors x y).2

/-- When the loop has gone through the bits that are needed, the sum register
alone gives the answer. -/
theorem answer_of_mulInv {CARRY_CHAIN : ℕ} (h : Chunks CARRY_CHAIN) {op : MulDiv}
    (hop : op.isMul = true) {x y : BitVec 32} {t : ℕ} {a : Acc} (ht : width op ≤ t)
    (hinv : MulInv (saver h) (factor1 op x y).toNat (factor2 op x y).toNat t (words a)) :
    (if op = .mul then a.rd.setWidth 32 else (a.rd >>> 32).setWidth 32) = op.result x y := by
  have hlow : a.rd.toNat % 2 ^ width op
      = (factor1 op x y).toNat * (factor2 op x y).toNat % 2 ^ width op :=
    hinv.result _ ht (by unfold width; split <;> decide)
  have hprod : BitVec.ofInt 64 ((op.factors x y).1 * (op.factors x y).2)
      = factor1 op x y * factor2 op x y := by
    rw [BitVec.ofInt_mul]
    rfl
  rw [MulDiv.result_of_product hop, hprod]
  split
  · rename_i heq
    rw [width, if_pos heq] at hlow
    apply BitVec.eq_of_toNat_eq
    rw [BitVec.toNat_setWidth, BitVec.toNat_setWidth, hlow, BitVec.toNat_mul]
    exact (Nat.mod_mod_of_dvd _ (by decide)).symm
  · rename_i hne
    rw [width, if_neg hne] at hlow
    have hall : a.rd = factor1 op x y * factor2 op x y := by
      apply BitVec.eq_of_toNat_eq
      rw [BitVec.toNat_mul, ← hlow, Nat.mod_eq_of_lt a.rd.isLt]
    rw [hall]

/-! ## Phases -/

/-- Between requests: nothing recognised, nothing running, no start to come. -/
structure Quiet (s : State) : Prop where
  clear : Clear s
  waiting : s.mul_waiting = true
  finish : s.mul_finish = false
  ready : s.pcpi_ready = false
  no_start : mul_start s = false

/-- The cycle after the answer. The instruction is still registered, but
`pcpi_wait` has not fallen since, so it does not start the unit again. -/
structure Cooling (s : State) : Prop where
  waiting : s.mul_waiting = true
  finish : s.mul_finish = false
  ready : s.pcpi_ready = false
  no_start : mul_start s = false
  held : instr_any_mul s = true → s.pcpi_wait = true

section

variable {STEPS_AT_ONCE CARRY_CHAIN : ℕ} (h : Chunks CARRY_CHAIN)

/-- After `k` edges of a multiplication held for the unit. -/
inductive Serving (STEPS_AT_ONCE : ℕ) (h : Chunks CARRY_CHAIN) (op : MulDiv) (x y : BitVec 32) :
    ℕ → State → Prop
  | seen {s} (hop : Recognised op s) (hwaiting : s.mul_waiting = true)
      (hfinish : s.mul_finish = false) (hready : s.pcpi_ready = false)
      (hwait : s.pcpi_wait = false) : Serving STEPS_AT_ONCE h op x y 1 s
  | claimed {s} (hop : Recognised op s) (hwaiting : s.mul_waiting = true)
      (hfinish : s.mul_finish = false) (hready : s.pcpi_ready = false)
      (hwait : s.pcpi_wait = true) (hfirst : s.pcpi_wait_q = false) :
      Serving STEPS_AT_ONCE h op x y 2 s
  | looping {s} (j : ℕ) (hj : j < clocks STEPS_AT_ONCE op) (hop : Recognised op s)
      (hwaiting : s.mul_waiting = false) (hfinish : s.mul_finish = false)
      (hready : s.pcpi_ready = false) (hwait : s.pcpi_wait = true) (hlater : s.pcpi_wait_q = true)
      (hcount : s.mul_counter = BitVec.ofInt 7 (countdown STEPS_AT_ONCE op j))
      (hinv : MulInv (saver h) (factor1 op x y).toNat (factor2 op x y).toNat (j * STEPS_AT_ONCE)
        (words s.acc)) :
      Serving STEPS_AT_ONCE h op x y (j + 3) s
  | finished {s} (hop : Recognised op s) (hwaiting : s.mul_waiting = true)
      (hfinish : s.mul_finish = true) (hready : s.pcpi_ready = false) (hwait : s.pcpi_wait = true)
      (hlater : s.pcpi_wait_q = true)
      (hrd : (if op = .mul then s.acc.rd.setWidth 32 else (s.acc.rd >>> 32).setWidth 32)
        = op.result x y) :
      Serving STEPS_AT_ONCE h op x y (clocks STEPS_AT_ONCE op + 3) s
  | answered {s} (hop : Recognised op s) (hwaiting : s.mul_waiting = true)
      (hfinish : s.mul_finish = false) (hready : s.pcpi_ready = true) (hwait : s.pcpi_wait = true)
      (hlater : s.pcpi_wait_q = true) (hwr : s.pcpi_wr = true)
      (hrd : s.pcpi_rd = some (op.result x y)) :
      Serving STEPS_AT_ONCE h op x y (clocks STEPS_AT_ONCE op + 4) s

/-! ## One edge -/

/-- A held request is recognised at the next edge. -/
theorem recognised_step {s : State} {r : Request} {op : MulDiv} (hop : decodeM r.insn = some op) :
    Recognised op (step STEPS_AT_ONCE CARRY_CHAIN s r.held) := by
  have hcode := decodeM_eq_some.mp hop
  have hflags := funct3_mul (funct3 r.insn)
  cases hw : s.mul_waiting <;>
    simp [Recognised, step, Request.held, hw, hcode.1, ← hcode.2, hflags]

/-- No multiplication is recognised without a request, in reset, or in a
request for another unit. -/
theorem clear_step {s : State} {i : PcpiIn}
    (hi : i.resetn = false ∨ i.pcpi_valid = false
      ∨ ∀ op, decodeM i.pcpi_insn = some op → op.isMul = false) :
    Clear (step STEPS_AT_ONCE CARRY_CHAIN s i) := by
  have hflags := funct3_mul (funct3 i.pcpi_insn)
  -- either nothing is looked at or the operation is a division
  have hmiss : (i.resetn && i.pcpi_valid && opcodeM i.pcpi_insn) = false
      ∨ (MulDiv.ofFunct3 (funct3 i.pcpi_insn)).isMul = false := by
    rcases hi with hi | hi | hi
    · simp [hi]
    · simp [hi]
    · cases hcode : opcodeM i.pcpi_insn with
      | false => simp
      | true => exact Or.inr (hi _ (by simp [decodeM, hcode]))
  -- the four flags are then all low
  have hnone : ∀ hit, hit = false ∨ (MulDiv.ofFunct3 (funct3 i.pcpi_insn)).isMul = false →
      (hit && funct3 i.pcpi_insn == 0b000#3 || hit && funct3 i.pcpi_insn == 0b001#3
        || hit && funct3 i.pcpi_insn == 0b010#3 || hit && funct3 i.pcpi_insn == 0b011#3)
        = false := by
    intro hit hm
    rcases hm with rfl | hm
    · rfl
    · rw [hflags.1, hflags.2.1, hflags.2.2.1, hflags.2.2.2]
      cases hop : MulDiv.ofFunct3 (funct3 i.pcpi_insn) <;> simp_all [MulDiv.isMul]
  have hall := hnone _ hmiss
  cases hr : i.resetn with
  | false => simp [Clear, instr_any_mul, step, hr]
  | true => cases hw : s.mul_waiting <;> simpa [Clear, instr_any_mul, step, hr, hw] using hall

section

variable (STEPS_AT_ONCE CARRY_CHAIN) (s : State) (i : PcpiIn)

/-- A unit that waits, with no start to come, goes on waiting. -/
theorem waiting_step (hwaiting : s.mul_waiting = true) (hstart : mul_start s = false) :
    (step STEPS_AT_ONCE CARRY_CHAIN s i).mul_waiting = true
      ∧ (step STEPS_AT_ONCE CARRY_CHAIN s i).mul_finish = false := by
  cases hr : i.resetn <;> simp [step, hr, hwaiting, hstart]

/-- The registers that no branch touches. -/
theorem wait_step :
    (step STEPS_AT_ONCE CARRY_CHAIN s i).pcpi_wait = instr_any_mul s
      ∧ (step STEPS_AT_ONCE CARRY_CHAIN s i).pcpi_wait_q = s.pcpi_wait
      ∧ (step STEPS_AT_ONCE CARRY_CHAIN s i).pcpi_ready = (s.mul_finish && i.resetn) := by
  cases hr : i.resetn <;> cases hw : s.mul_waiting <;> simp [step, hr, hw]

end

theorem cooling_of_quiet {s : State} (hs : Quiet s) : Cooling s :=
  ⟨hs.waiting, hs.finish, hs.ready, hs.no_start, fun hany => absurd (hs.clear.symm.trans hany)
    Bool.false_ne_true⟩

/-- An edge that neither starts nor finishes a multiplication. -/
theorem quiet_step {s : State} {i : PcpiIn} (hs : Cooling s)
    (hi : i.resetn = false ∨ i.pcpi_valid = false
      ∨ ∀ op, decodeM i.pcpi_insn = some op → op.isMul = false) :
    Quiet (step STEPS_AT_ONCE CARRY_CHAIN s i) := by
  rcases wait_step STEPS_AT_ONCE CARRY_CHAIN s i with ⟨hwait, hlater, hready⟩
  have hwaiting := waiting_step STEPS_AT_ONCE CARRY_CHAIN s i hs.waiting hs.no_start
  refine ⟨clear_step hi, hwaiting.1, hwaiting.2, ?_, ?_⟩
  · rw [hready, hs.finish, Bool.false_and]
  · -- a start needs a rising `pcpi_wait`, and it had risen already
    unfold mul_start
    rw [hwait, hlater]
    cases hany : instr_any_mul s with
    | false => rfl
    | true => rw [hs.held hany]; rfl

/-- The edge that first sees a multiplication. -/
theorem serving_start {s : State} {r : Request} {op : MulDiv} (hs : Quiet s)
    (hr : Asks MulDiv.isMul r op) :
    Serving STEPS_AT_ONCE h op r.rs1 r.rs2 1 (step STEPS_AT_ONCE CARRY_CHAIN s r.held) := by
  rcases wait_step STEPS_AT_ONCE CARRY_CHAIN s r.held with ⟨hwait, _, hready⟩
  have hwaiting := waiting_step STEPS_AT_ONCE CARRY_CHAIN s r.held hs.waiting hs.no_start
  have hclear : instr_any_mul s = false := hs.clear
  refine .seen (recognised_step hr.1) hwaiting.1 hwaiting.2 ?_ ?_
  · rw [hready, hs.finish, Bool.false_and]
  · rw [hwait, hclear]

/-- Every later edge until the answer. -/
theorem serving_step (hS : 1 ≤ STEPS_AT_ONCE) (hS' : STEPS_AT_ONCE ≤ 64) {s : State} {r : Request}
    {op : MulDiv} {k : ℕ} (hr : Asks MulDiv.isMul r op)
    (hs : Serving STEPS_AT_ONCE h op r.rs1 r.rs2 k s)
    (hk : k < clocks STEPS_AT_ONCE op + 4) :
    Serving STEPS_AT_ONCE h op r.rs1 r.rs2 (k + 1)
      (step STEPS_AT_ONCE CARRY_CHAIN s r.held) := by
  have hnext : Recognised op (step STEPS_AT_ONCE CARRY_CHAIN s r.held) := recognised_step hr.1
  rcases wait_step STEPS_AT_ONCE CARRY_CHAIN s r.held with ⟨hwait', hlater', hready'⟩
  cases hs with
  | seen hop hwaiting hfinish hready hwait =>
      -- the instruction is known, and `pcpi_wait` rises
      have hany : instr_any_mul s = true := (any_of_recognised hop).trans hr.2
      have hrest := waiting_step STEPS_AT_ONCE CARRY_CHAIN s r.held hwaiting
        (by simp [mul_start, hwait])
      exact .claimed hnext hrest.1 hrest.2 (by rw [hready', hfinish, Bool.false_and])
        (by rw [hwait', hany]) (by rw [hlater', hwait])
  | claimed hop hwaiting hfinish hready hwait hfirst =>
      -- the start: the operands loaded in this cycle are the ones that count
      have hany : instr_any_mul s = true := (any_of_recognised hop).trans hr.2
      have hstart : mul_start s = true := by simp [mul_start, hwait, hfirst]
      have hmulh := mulh_of_recognised hop hr.2
      have hacc : (step STEPS_AT_ONCE CARRY_CHAIN s r.held).acc = load s r.held := by
        simp [step, Request.held, hwaiting]
      have hload := load_of_recognised (i := r.held) hop hr.2
      refine .looping 0 (clocks_pos hS op) hnext ?_ ?_ ?_ ?_ ?_ ?_ ?_
      · simp [step, Request.held, hwaiting, hstart]
      · simp [step, Request.held, hwaiting]
      · rw [hready', hfinish, Bool.false_and]
      · rw [hwait', hany]
      · rw [hlater', hwait]
      · simp only [step, Request.held, hwaiting, hmulh, countdown, width]
        cases op <;> simp
      · rw [hacc, Nat.zero_mul]
        have hwords : words (load s r.held)
            = ⟨(factor1 op r.rs1 r.rs2).toNat, (factor2 op r.rs1 r.rs2).toNat, 0, 0⟩ := by
          simp only [words, hload]
          rfl
        rw [hwords]
        exact mulInv_init _ (BitVec.isLt _)
  | looping j hj hop hwaiting hfinish hready hwait hlater hcount hinv =>
      have hany : instr_any_mul s = true := (any_of_recognised hop).trans hr.2
      -- `STEPS_AT_ONCE` rounds of the carry-save loop, the invariant with them
      have hacc : words (step STEPS_AT_ONCE CARRY_CHAIN s r.held).acc
          = (mulStep (saver h))^[STEPS_AT_ONCE] (words s.acc) := by
        rw [← words_iterate h]
        simp [step, Request.held, hwaiting]
      have hinv' := mulInv_iterate (saver h) hinv STEPS_AT_ONCE
      rw [← hacc, ← Nat.succ_mul] at hinv'
      -- the counter goes negative exactly in the last of the `clocks`
      have hneg := countdown_msb hS hS' op hj
      rw [← hcount] at hneg
      have hflags : (step STEPS_AT_ONCE CARRY_CHAIN s r.held).mul_waiting
            = decide (j + 1 = clocks STEPS_AT_ONCE op)
          ∧ (step STEPS_AT_ONCE CARRY_CHAIN s r.held).mul_finish
            = decide (j + 1 = clocks STEPS_AT_ONCE op) := by
        rw [← hneg]
        simp [step, Request.held, hwaiting]
      rcases Nat.lt_or_eq_of_le (show j + 1 ≤ clocks STEPS_AT_ONCE op from hj) with hlt | heq
      · -- more turns to come
        have hfalse : decide (j + 1 = clocks STEPS_AT_ONCE op) = false :=
          decide_eq_false (Nat.ne_of_lt hlt)
        refine .looping (j + 1) hlt hnext (hflags.1.trans hfalse) (hflags.2.trans hfalse) ?_ ?_ ?_
          ?_ hinv'
        · rw [hready', hfinish, Bool.false_and]
        · rw [hwait', hany]
        · rw [hlater', hwait]
        · rw [← countdown_succ, ← hcount]
          simp [step, Request.held, hwaiting]
      · -- the last turn: the carries are out of the way
        have htrue : decide (j + 1 = clocks STEPS_AT_ONCE op) = true := decide_eq_true heq
        have hwide : width op ≤ (j + 1) * STEPS_AT_ONCE := by
          rw [heq]
          exact width_le hS op
        have hfinal : Serving STEPS_AT_ONCE h op r.rs1 r.rs2 (clocks STEPS_AT_ONCE op + 3)
            (step STEPS_AT_ONCE CARRY_CHAIN s r.held) :=
          .finished hnext (hflags.1.trans htrue) (hflags.2.trans htrue)
            (by rw [hready', hfinish, Bool.false_and]) (by rw [hwait', hany])
            (by rw [hlater', hwait]) (answer_of_mulInv h hr.2 hwide hinv')
        rw [← heq] at hfinal
        exact hfinal
  | finished hop hwaiting hfinish hready hwait hlater hrd =>
      -- the half of the product that the instruction asks for goes out
      have hany : instr_any_mul s = true := (any_of_recognised hop).trans hr.2
      have hmulh := mulh_of_recognised hop hr.2
      have hrest := waiting_step STEPS_AT_ONCE CARRY_CHAIN s r.held hwaiting
        (by simp [mul_start, hwait, hlater])
      refine .answered hnext hrest.1 hrest.2 ?_ ?_ ?_ ?_ ?_
      · rw [hready', hfinish]
        rfl
      · rw [hwait', hany]
      · rw [hlater', hwait]
      · simp [step, Request.held, hwaiting, hfinish]
      · rw [← hrd]
        simp only [step, Request.held, hwaiting, hfinish, hmulh]
        cases op <;> simp
  | answered => exact absurd hk (Nat.lt_irrefl _)

/-- After the answer the unit cools down, with the request still there. -/
theorem cooling_of_answered {s : State} {r : Request} {op : MulDiv} (hr : Asks MulDiv.isMul r op)
    (hs : Serving STEPS_AT_ONCE h op r.rs1 r.rs2 (clocks STEPS_AT_ONCE op + 4) s) :
    Cooling (step STEPS_AT_ONCE CARRY_CHAIN s r.held) := by
  rcases wait_step STEPS_AT_ONCE CARRY_CHAIN s r.held with ⟨hwait', hlater', hready'⟩
  generalize hk : clocks STEPS_AT_ONCE op + 4 = k at hs
  cases hs with
  | seen => omega
  | claimed => omega
  | looping j hj => omega
  | finished => omega
  | answered hop hwaiting hfinish hready hwait hlater =>
      -- the instruction is still recognised, so `pcpi_wait` stays: no new start
      have hany : instr_any_mul s = true := (any_of_recognised hop).trans hr.2
      have hrest := waiting_step STEPS_AT_ONCE CARRY_CHAIN s r.held hwaiting
        (by simp [mul_start, hwait, hlater])
      refine ⟨hrest.1, hrest.2, ?_, ?_, fun _ => hwait'.trans hany⟩
      · rw [hready', hfinish, Bool.false_and]
      · rw [mul_start, hlater', hwait, Bool.not_true, Bool.and_false]

end

/-! ## Contract -/

/-- The edges from the first sight of a multiplication to its answer. -/
def latency (STEPS_AT_ONCE : ℕ) (r : Request) : ℕ :=
  match decodeM r.insn with
  | some op => clocks STEPS_AT_ONCE op + 4
  | none => 1

theorem latency_of_asks (STEPS_AT_ONCE : ℕ) {r : Request} {op : MulDiv}
    (h : Asks MulDiv.isMul r op) :
    latency STEPS_AT_ONCE r = clocks STEPS_AT_ONCE op + 4 := by
  rw [latency, h.1]

section

variable {STEPS_AT_ONCE CARRY_CHAIN : ℕ} (h : Chunks CARRY_CHAIN)

/-- What the outputs show in a phase. -/
theorem serving_out {op : MulDiv} {x y : BitVec 32} {k : ℕ} {s : State}
    (hs : Serving STEPS_AT_ONCE h op x y k s) :
    (3 ≤ k → s.pcpi_wait = true)
      ∧ (s.pcpi_ready = true ↔ k = clocks STEPS_AT_ONCE op + 4)
      ∧ (s.pcpi_ready = true → s.pcpi_wr = true ∧ s.pcpi_rd = some (op.result x y)) := by
  cases hs with
  | seen _ _ _ hready => simp [hready]
  | claimed _ _ _ hready => simp [hready]
  | looping j hj _ _ _ hready hwait =>
      simp only [hready, hwait, implies_true, true_and, Bool.false_eq_true, false_iff,
        false_implies, and_true]
      omega
  | finished _ _ _ hready hwait => simp [hready, hwait]
  | answered _ _ _ hready hwait _ hwr hrd => simp [hready, hwait, hwr, hrd]

/-- The multiplier answers the multiplications of the M extension. How many
edges that takes depends on the instruction and on `STEPS_AT_ONCE`, and neither
on the operands nor on the width of the carry chains. -/
def contract (hS : 1 ≤ STEPS_AT_ONCE) (hS' : STEPS_AT_ONCE ≤ 64) :
    Contract (picorv32_pcpi_mul STEPS_AT_ONCE CARRY_CHAIN) (answerM MulDiv.isMul) where
  latency := latency STEPS_AT_ONCE
  Quiet := Quiet
  Cooling := Cooling
  Busy := fun r k s => ∃ op, Asks MulDiv.isMul r op ∧ Serving STEPS_AT_ONCE h op r.rs1 r.rs2 k s
  reset := by
    -- the second edge is needed: the first still takes `pcpi_wait` from before
    intro s i j hi hj
    have hcool :
        Cooling (step STEPS_AT_ONCE CARRY_CHAIN (step STEPS_AT_ONCE CARRY_CHAIN s i) j) := by
      have hclear : instr_any_mul (step STEPS_AT_ONCE CARRY_CHAIN s i) = false :=
        clear_step (Or.inl hi)
      rcases wait_step STEPS_AT_ONCE CARRY_CHAIN (step STEPS_AT_ONCE CARRY_CHAIN s i) j
        with ⟨hwait, _, hready⟩
      refine ⟨?_, ?_, ?_, ?_, ?_⟩
      · simp [step, hj]
      · simp [step, hj]
      · rw [hready, hj, Bool.and_false]
      · rw [mul_start, hwait, hclear, Bool.false_and]
      · intro hany
        exact absurd ((clear_step (Or.inl hj)).symm.trans hany) Bool.false_ne_true
    exact ⟨clear_step (Or.inl hj), hcool.waiting, hcool.finish, hcool.ready, hcool.no_start⟩
  cooling_of_quiet := fun _ hs => cooling_of_quiet hs
  cooling_ready := fun _ hs => hs.ready
  cooling_idle := fun _ _ hs hi => quiet_step hs (Or.inr (Or.inl hi))
  quiet_wait := fun s i hs => (wait_step STEPS_AT_ONCE CARRY_CHAIN s i).1.trans hs.clear
  pass := fun s r hs hr =>
    quiet_step (i := r.held) (cooling_of_quiet hs) (Or.inr (Or.inr (not_half_of_answerM hr)))
  start := by
    intro s r hs hr
    rcases asks_of_answerM hr with ⟨op, hop⟩
    exact ⟨op, hop, serving_start h hs hop⟩
  serve := by
    rintro s r k ⟨op, hop, hs⟩ hk
    rw [latency_of_asks STEPS_AT_ONCE hop] at hk
    exact ⟨op, hop, serving_step h hS hS' hop hs hk⟩
  busy_wait := by
    rintro s r k ⟨op, _, hs⟩ hk
    exact (serving_out h hs).1 (by omega)
  busy_ready := by
    rintro s r k ⟨op, hop, hs⟩
    rw [latency_of_asks STEPS_AT_ONCE hop]
    exact (serving_out h hs).2.1
  busy_wr := by
    rintro s r ⟨op, hop, hs⟩
    rw [latency_of_asks STEPS_AT_ONCE hop] at hs
    exact ((serving_out h hs).2.2 ((serving_out h hs).2.1.mpr rfl)).1
  busy_rd := by
    rintro s r ⟨op, hop, hs⟩
    rw [latency_of_asks STEPS_AT_ONCE hop] at hs
    rw [answerM_of_asks hop]
    exact ((serving_out h hs).2.2 ((serving_out h hs).2.1.mpr rfl)).2
  done := by
    rintro s r ⟨op, hop, hs⟩
    rw [latency_of_asks STEPS_AT_ONCE hop] at hs
    exact cooling_of_answered h hop hs
  latency_pos := by
    intro r
    unfold latency
    split
    · exact Nat.succ_pos _
    · decide

end

end SocRtl.Cpu.PcpiMul
