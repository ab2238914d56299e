import SocRtl.Cpu.Pcpi
import Mathlib.Algebra.Group.Nat.Defs

/-!
# SocRtl.Cpu.PcpiFastMul — `picorv32_pcpi_fast_mul`

The multiplication co-processor for targets with multipliers. The operands are
extended to 33 bits so that one signed product serves all four instructions. A
bit walks along `active` with the operands; `EXTRA_MUL_FFS` adds registers
before and after the multiplier and lets the bit walk two places further.

`MUL_CLKGATE` enables each register by the place of the bit. Without the extra
registers the product is read a place too early for that, so the unit keeps its
contract with clock gating only if it has them.
-/

namespace SocRtl.Cpu.PcpiFastMul

/-! ## Model -/

structure State where
  shift_out : Bool
  active : BitVec 4
  rs1 : BitVec 33
  rs2 : BitVec 33
  rs1_q : BitVec 33
  rs2_q : BitVec 33
  rd : BitVec 64
  rd_q : BitVec 64
  pcpi_insn_valid_q : Bool
deriving DecidableEq, Repr

/-- The parameters of the unit. -/
structure Params where
  EXTRA_MUL_FFS : Bool
  EXTRA_INSN_FFS : Bool
  MUL_CLKGATE : Bool
deriving DecidableEq, Repr

def pcpi_insn_valid (i : PcpiIn) : Bool := i.pcpi_valid && opcodeM i.pcpi_insn

section

variable (p : Params) (s : State) (i : PcpiIn)

/-- The instruction lines, with the `funct3` that raises each. -/
def instr (f : BitVec 3) : Bool :=
  i.resetn && (if p.EXTRA_INSN_FFS then s.pcpi_insn_valid_q else pcpi_insn_valid i)
    && funct3 i.pcpi_insn == f

def instr_mul : Bool := instr p s i 0b000#3
def instr_mulh : Bool := instr p s i 0b001#3
def instr_mulhsu : Bool := instr p s i 0b010#3
def instr_mulhu : Bool := instr p s i 0b011#3

def instr_any_mul : Bool :=
  instr_mul p s i || instr_mulh p s i || instr_mulhsu p s i || instr_mulhu p s i

def instr_any_mulh : Bool := instr_mulh p s i || instr_mulhsu p s i || instr_mulhu p s i

def instr_rs1_signed : Bool := instr_mulh p s i || instr_mulhsu p s i

def instr_rs2_signed : Bool := instr_mulh p s i

/-- Whether a bit is still on its way to the output. -/
def occupied : Bool := if p.EXTRA_MUL_FFS then s.active != 0 else s.active.setWidth 2 != 0

/-- A request is let in. -/
def accept : Bool := instr_any_mul p s i && !occupied p s

/-- A clock edge. -/
def step : State where
  shift_out := instr_any_mulh p s i
  active :=
    if !i.resetn then 0 else (s.active <<< 1) ||| (if accept p s i then 1 else 0)
  rs1 :=
    if accept p s i then
      if instr_rs1_signed p s i then i.pcpi_rs1.signExtend 33 else i.pcpi_rs1.setWidth 33
    else s.rs1
  rs2 :=
    if accept p s i then
      if instr_rs2_signed p s i then i.pcpi_rs2.signExtend 33 else i.pcpi_rs2.setWidth 33
    else s.rs2
  rs1_q := if !p.MUL_CLKGATE || s.active.getLsbD 0 then s.rs1 else s.rs1_q
  rs2_q := if !p.MUL_CLKGATE || s.active.getLsbD 0 then s.rs2 else s.rs2_q
  rd :=
    if !p.MUL_CLKGATE || s.active.getLsbD 1 then
      (if p.EXTRA_MUL_FFS then s.rs1_q else s.rs1).signExtend 64
        * (if p.EXTRA_MUL_FFS then s.rs2_q else s.rs2).signExtend 64
    else s.rd
  rd_q := if !p.MUL_CLKGATE || s.active.getLsbD 2 then s.rd else s.rd_q
  pcpi_insn_valid_q := pcpi_insn_valid i

def out : PcpiOut :=
  let last := s.active.getLsbD (if p.EXTRA_MUL_FFS then 3 else 1)
  let product := if p.EXTRA_MUL_FFS then s.rd_q else s.rd
  { pcpi_wr := last
    pcpi_rd := some (if s.shift_out then (product >>> 32).setWidth 32 else product.setWidth 32)
    pcpi_wait := false
    pcpi_ready := last }

end

def picorv32_pcpi_fast_mul (p : Params) : PcpiUnit State := ⟨step p, out p⟩

/-! ## Requests -/

/-- The parameters that the unit works with. -/
def Usable (p : Params) : Prop :=
  p.EXTRA_INSN_FFS = false ∧ (p.MUL_CLKGATE = true → p.EXTRA_MUL_FFS = true)

/-- The instruction lines show the multiplication that is held. -/
theorem instr_held {p : Params} (hp : Usable p) (s : State) {r : Request} {op : MulDiv}
    (hr : Asks MulDiv.isMul r op) :
    instr_any_mul p s r.held = true ∧ instr_any_mulh p s r.held = !(op == .mul)
      ∧ instr_rs1_signed p s r.held = (op == .mulh || op == .mulhsu)
      ∧ instr_rs2_signed p s r.held = (op == .mulh) := by
  rcases decodeM_eq_some.mp hr.1 with ⟨hcode, hop⟩
  rcases funct3_mul (funct3 r.insn) with ⟨h1, h2, h3, h4⟩
  rw [hop] at h1 h2 h3 h4
  have hhalf := hr.2
  simp only [instr_any_mul, instr_any_mulh, instr_rs1_signed, instr_rs2_signed, instr_mul,
    instr_mulh, instr_mulhsu, instr_mulhu, instr, hp.1, pcpi_insn_valid, Request.held, hcode, h1,
    h2, h3, h4]
  cases op <;> simp_all [MulDiv.isMul]

/-- Without a multiplication the instruction lines are low. -/
theorem instr_none {p : Params} (hp : Usable p) {s : State} {i : PcpiIn}
    (hi : i.pcpi_valid = false ∨ ∀ op, decodeM i.pcpi_insn = some op → op.isMul = false) :
    instr_any_mul p s i = false := by
  rcases funct3_mul (funct3 i.pcpi_insn) with ⟨h1, h2, h3, h4⟩
  simp only [instr_any_mul, instr_mul, instr_mulh, instr_mulhsu, instr_mulhu, instr, hp.1,
    pcpi_insn_valid, h1, h2, h3, h4]
  rcases hi with hi | hi
  · simp [hi]
  · cases hcode : opcodeM i.pcpi_insn with
    | false => simp
    | true =>
        have hother := hi _ (decodeM_eq_some.mpr ⟨hcode, rfl⟩)
        cases hop : MulDiv.ofFunct3 (funct3 i.pcpi_insn) <;> simp_all [MulDiv.isMul]

/-! ## Operands and products -/

/-- The operands as the unit extends them. -/
def wide1 (op : MulDiv) (x : BitVec 32) : BitVec 33 :=
  if op == .mulh || op == .mulhsu then x.signExtend 33 else x.setWidth 33

def wide2 (op : MulDiv) (y : BitVec 32) : BitVec 33 :=
  if op == .mulh then y.signExtend 33 else y.setWidth 33

/-- One bit more than the operands have makes every factor a signed number. -/
theorem product_eq (op : MulDiv) (x y : BitVec 32) :
    (wide1 op x).signExtend 64 * (wide2 op y).signExtend 64
      = BitVec.ofInt 64 ((op.factors x y).1 * (op.factors x y).2) := by
  have hsigned : ∀ z : BitVec 32, (z.signExtend 33).toInt = z.toInt := fun z =>
    BitVec.toInt_signExtend_of_le (by decide)
  have hunsigned : ∀ z : BitVec 32, (z.setWidth 33).toInt = (z.toNat : ℤ) := by
    intro z
    have hz := z.isLt
    rw [BitVec.toInt_eq_toNat_of_lt]
    · rw [BitVec.toNat_setWidth_of_le (by decide)]
    · rw [BitVec.toNat_setWidth_of_le (by decide)]
      omega
  have hfactors : (wide1 op x).toInt = (op.factors x y).1
      ∧ (wide2 op y).toInt = (op.factors x y).2 := by
    cases op <;> simp [wide1, wide2, MulDiv.factors, hsigned, hunsigned]
  rw [BitVec.ofInt_mul, ← hfactors.1, ← hfactors.2]
  rfl

/-! ## Phases -/

/-- No bit on its way. -/
def Quiet (p : Params) (s : State) : Prop := occupied p s = false

/-- After `k` edges of a multiplication held for the unit: where the bit is,
and how far the operands have come with it. -/
structure Serving (p : Params) (op : MulDiv) (x y : BitVec 32) (k : ℕ) (s : State) : Prop where
  pos : 0 < k
  le : k ≤ if p.EXTRA_MUL_FFS then 4 else 2
  shift : s.shift_out = !(op == .mul)
  place :
    if p.EXTRA_MUL_FFS then s.active = 1#4 <<< (k - 1) else s.active.setWidth 2 = 1#2 <<< (k - 1)
  operands : k = 1 → s.rs1 = wide1 op x ∧ s.rs2 = wide2 op y
  operands_q : p.EXTRA_MUL_FFS = true → k = 2 → s.rs1_q = wide1 op x ∧ s.rs2_q = wide2 op y
  product : (k = if p.EXTRA_MUL_FFS then 3 else 2) →
    s.rd = BitVec.ofInt 64 ((op.factors x y).1 * (op.factors x y).2)
  product_q : p.EXTRA_MUL_FFS = true → k = 4 →
    s.rd_q = BitVec.ofInt 64 ((op.factors x y).1 * (op.factors x y).2)

/-! ## One edge -/

theorem active_held (p : Params) (s : State) (r : Request) :
    (step p s r.held).active = (s.active <<< 1) ||| (if accept p s r.held then 1 else 0) := rfl

section

variable {p : Params} (hp : Usable p)

include hp

/-- An edge that lets nothing in. -/
theorem quiet_step {s : State} {i : PcpiIn} (hs : Quiet p s)
    (hi : i.pcpi_valid = false ∨ ∀ op, decodeM i.pcpi_insn = some op → op.isMul = false) :
    Quiet p (step p s i) := by
  have haccept : accept p s i = false := by
    rw [accept, instr_none hp hi, Bool.false_and]
  unfold Quiet occupied at hs ⊢
  cases hF : p.EXTRA_MUL_FFS with
  | true =>
      have hzero : s.active = 0#4 := by simpa [hF] using hs
      cases hr : i.resetn <;> simp [step, haccept, hr, hzero]
  | false =>
      have hzero : s.active.setWidth 2 = 0#2 := by simpa [hF] using hs
      -- only the two low bits of `active` count, and the others may be set
      have hshift : ∀ a : BitVec 4, a.setWidth 2 = 0#2 → ((a <<< 1) ||| 0#4).setWidth 2 = 0#2 := by
        decide
      have hnext := hshift s.active hzero
      cases hr : i.resetn with
      | false => simp [step, hr]
      | true => simpa [step, haccept, hr] using hnext

/-- The edge that first sees a multiplication. -/
theorem serving_start {s : State} {r : Request} {op : MulDiv} (hs : Quiet p s)
    (hr : Asks MulDiv.isMul r op) : Serving p op r.rs1 r.rs2 1 (step p s r.held) := by
  rcases instr_held hp s hr with ⟨hany, hmulh, hsigned1, hsigned2⟩
  have haccept : accept p s r.held = true := by
    rw [accept, hany, show occupied p s = false from hs]
    rfl
  refine ⟨Nat.one_pos, ?_, hmulh, ?_, ?_, ?_, ?_, ?_⟩
  · split <;> decide
  · unfold Quiet occupied at hs
    cases hF : p.EXTRA_MUL_FFS with
    | true =>
        have hzero : s.active = 0#4 := by simpa [hF] using hs
        rw [active_held, haccept, hzero]
        rfl
    | false =>
        have hzero : s.active.setWidth 2 = 0#2 := by simpa [hF] using hs
        have henter : ∀ a : BitVec 4, a.setWidth 2 = 0#2 →
            ((a <<< 1) ||| 1#4).setWidth 2 = 1#2 := by decide
        rw [active_held, haccept]
        exact henter s.active hzero
  · -- the operands are registered on this edge, the later stages are not reached
    intro _
    simp only [step, haccept, hsigned1, hsigned2, if_true]
    exact ⟨rfl, rfl⟩
  · intro _ h
    exact absurd h (by decide)
  · intro h
    cases hF : p.EXTRA_MUL_FFS <;> simp [hF] at h
  · intro _ h
    exact absurd h (by decide)

/-- Every later edge until the answer: nothing new is let in, and the operands
move on with the bit. -/
theorem serving_step {s : State} {r : Request} {op : MulDiv} {k : ℕ}
    (hr : Asks MulDiv.isMul r op) (hs : Serving p op r.rs1 r.rs2 k s)
    (hk : k < if p.EXTRA_MUL_FFS then 4 else 2) :
    Serving p op r.rs1 r.rs2 (k + 1) (step p s r.held) := by
  rcases instr_held hp s hr with ⟨_, hmulh, _, _⟩
  have hpos := hs.pos
  have hplace := hs.place
  cases hF : p.EXTRA_MUL_FFS with
  | true =>
      rw [hF, if_pos rfl] at hk hplace
      -- four stages: the operands are registered twice, then the product twice
      have hcases : k = 1 ∨ k = 2 ∨ k = 3 := by omega
      have haccept : accept p s r.held = false := by
        rcases hcases with rfl | rfl | rfl <;> simp [accept, occupied, hF, hplace]
      refine ⟨Nat.succ_pos k, by rw [hF]; exact hk, hmulh, ?_, ?_, ?_, ?_, ?_⟩
      · rw [hF, if_pos rfl, active_held, haccept]
        rcases hcases with rfl | rfl | rfl <;> rw [hplace] <;> rfl
      · intro h
        omega
      · intro _ h
        obtain rfl : k = 1 := by omega
        have hin := hs.operands rfl
        simp [step, hplace, hin]
      · intro h
        obtain rfl : k = 2 := by rw [hF, if_pos rfl] at h; omega
        have hin := hs.operands_q hF rfl
        simp [step, hplace, hF, hin, product_eq]
      · intro _ h
        obtain rfl : k = 3 := by omega
        have hin := hs.product (by rw [hF]; rfl)
        simp [step, hplace, hin]
  | false =>
      rw [hF] at hk hplace
      -- two stages, and one edge to serve: operands to product
      obtain rfl : k = 1 := by
        simp only [Bool.false_eq_true, if_false] at hk
        omega
      -- the clock gate is only usable with the extra stages, so `rd` follows at once
      have hgate : p.MUL_CLKGATE = false := by
        cases hg : p.MUL_CLKGATE with
        | false => rfl
        | true => exact absurd (hF.symm.trans (hp.2 hg)) Bool.false_ne_true
      have hplace' : s.active.setWidth 2 = 1#2 := hplace
      have haccept : accept p s r.held = false := by
        simp [accept, occupied, hF, hplace']
      have hmove : ∀ a : BitVec 4, a.setWidth 2 = 1#2 →
          ((a <<< 1) ||| 0#4).setWidth 2 = 1#2 <<< 1 := by decide
      have hin := hs.operands rfl
      refine ⟨by decide, by rw [hF]; decide, hmulh, ?_, ?_, ?_, ?_, ?_⟩
      · rw [hF, active_held, haccept]
        exact hmove s.active hplace'
      · intro h
        exact absurd h (by decide)
      · intro h
        exact absurd (hF.symm.trans h) Bool.false_ne_true
      · intro _
        simp [step, hgate, hF, hin, product_eq]
      · intro h
        exact absurd (hF.symm.trans h) Bool.false_ne_true

end

/-- After the answer the bit is out of the way, with the request still there. -/
theorem quiet_of_answered {p : Params} {s : State} {r : Request} {op : MulDiv} {k : ℕ}
    (hs : Serving p op r.rs1 r.rs2 k s) (hk : k = if p.EXTRA_MUL_FFS then 4 else 2) :
    Quiet p (step p s r.held) := by
  have hplace := hs.place
  unfold Quiet
  cases hF : p.EXTRA_MUL_FFS with
  | true =>
      rw [hF, if_pos rfl] at hk hplace
      rw [hk] at hplace
      have haccept : accept p s r.held = false := by simp [accept, occupied, hF, hplace]
      rw [occupied, hF, active_held, haccept, hplace]
      rfl
  | false =>
      rw [hF] at hk hplace
      rw [show k = 2 from hk] at hplace
      have hplace' : s.active.setWidth 2 = 2#2 := hplace
      have haccept : accept p s r.held = false := by simp [accept, occupied, hF, hplace']
      have hmove : ∀ a : BitVec 4, a.setWidth 2 = 2#2 → ((a <<< 1) ||| 0#4).setWidth 2 = 0#2 := by
        decide
      have hnext := hmove s.active hplace'
      rw [occupied, hF, active_held, haccept]
      simpa using hnext

/-- What the outputs show in a phase. -/
theorem serving_out {p : Params} {op : MulDiv} (hop : op.isMul = true) {x y : BitVec 32} {k : ℕ}
    {s : State} (hs : Serving p op x y k s) :
    ((out p s).pcpi_ready = true ↔ k = if p.EXTRA_MUL_FFS then 4 else 2)
      ∧ (out p s).pcpi_wr = (out p s).pcpi_ready
      ∧ (k = (if p.EXTRA_MUL_FFS then 4 else 2) → (out p s).pcpi_rd = some (op.result x y)) := by
  have hpos := hs.pos
  have hle := hs.le
  have hplace := hs.place
  refine ⟨?_, rfl, ?_⟩
  · cases hF : p.EXTRA_MUL_FFS with
    | true =>
        rw [hF, if_pos rfl] at hle hplace
        have hcases : k = 1 ∨ k = 2 ∨ k = 3 ∨ k = 4 := by omega
        rcases hcases with rfl | rfl | rfl | rfl <;> simp [out, hF, hplace]
    | false =>
        rw [hF] at hle hplace
        have hcases : k = 1 ∨ k = 2 := by
          simp only [Bool.false_eq_true, if_false] at hle
          omega
        have hbit : ∀ a : BitVec 4, ∀ j, j < 3 → 0 < j → a.setWidth 2 = 1#2 <<< (j - 1) →
            (a.getLsbD 1 = true ↔ j = 2) := by decide
        have hlast := hbit s.active k (by omega) hpos hplace
        simpa [out, hF] using hlast
  · intro hk
    -- the product is in the register that the parameters choose
    have hproduct : (if p.EXTRA_MUL_FFS then s.rd_q else s.rd)
        = BitVec.ofInt 64 ((op.factors x y).1 * (op.factors x y).2) := by
      cases hF : p.EXTRA_MUL_FFS with
      | true => exact hs.product_q hF (by rw [hk, hF]; rfl)
      | false => exact hs.product (by rw [hk, hF]; rfl)
    rw [MulDiv.result_of_product hop]
    simp only [out, hproduct, hs.shift]
    cases op <;> simp

/-! ## Contract -/

/-- The fast multiplier keeps the contract of the plain one, with a latency
that depends on nothing but its parameters. -/
def contract {p : Params} (hp : Usable p) :
    Contract (picorv32_pcpi_fast_mul p) (answerM MulDiv.isMul) where
  latency := fun _ => if p.EXTRA_MUL_FFS then 4 else 2
  Quiet := Quiet p
  Cooling := Quiet p
  Busy := fun r k s => ∃ op, Asks MulDiv.isMul r op ∧ Serving p op r.rs1 r.rs2 k s
  reset := by
    intro s i j _ hj
    cases hF : p.EXTRA_MUL_FFS <;> simp [Quiet, occupied, hF, picorv32_pcpi_fast_mul, step, hj]
  cooling_of_quiet := fun _ hs => hs
  cooling_ready := by
    intro s hs
    cases hF : p.EXTRA_MUL_FFS with
    | true =>
        have hzero : s.active = 0#4 := by simpa [Quiet, occupied, hF] using hs
        simp [picorv32_pcpi_fast_mul, out, hF, hzero]
    | false =>
        have hzero : s.active.setWidth 2 = 0#2 := by simpa [Quiet, occupied, hF] using hs
        have hbit : ∀ a : BitVec 4, a.setWidth 2 = 0#2 → a.getLsbD 1 = false := by decide
        simpa [picorv32_pcpi_fast_mul, out, hF] using hbit s.active hzero
  cooling_idle := fun _ _ hs hi => quiet_step hp hs (Or.inl hi)
  quiet_wait := fun _ _ _ => rfl
  pass := fun _ r hs hr => quiet_step hp (i := r.held) hs (Or.inr (not_half_of_answerM hr))
  start := by
    intro s r hs hr
    rcases asks_of_answerM hr with ⟨op, hop⟩
    exact ⟨op, hop, serving_start hp hs hop⟩
  serve := by
    rintro s r k ⟨op, hop, hs⟩ hk
    exact ⟨op, hop, serving_step hp hop hs hk⟩
  busy_wait := by
    -- no request takes that long
    rintro s r k ⟨op, _, hs⟩ hk
    have hle := hs.le
    split at hle <;> omega
  busy_ready := by
    rintro s r k ⟨op, hop, hs⟩
    exact (serving_out hop.2 hs).1
  busy_wr := by
    rintro s r ⟨op, hop, hs⟩
    exact (serving_out hop.2 hs).2.1.trans ((serving_out hop.2 hs).1.mpr rfl)
  busy_rd := by
    rintro s r ⟨op, hop, hs⟩
    rw [answerM_of_asks hop]
    exact (serving_out hop.2 hs).2.2 rfl
  done := by
    rintro s r ⟨op, _, hs⟩
    exact quiet_of_answered hs rfl
  latency_pos := by
    intro r
    split <;> decide

end SocRtl.Cpu.PcpiFastMul
