import SocRtl.Lib.Clocked
import SocRtl.Cpu.Pcpi
import Mathlib.Algebra.Group.Nat.Defs

/-!
# SocRtl.Cpu.PcpiPort — the core and its co-processors

The part of the core that drives the co-processor interface, in the
configuration of the SoC: a multiplier and a divider inside, no external
co-processor, two register file ports. Compressed instructions may be on or off,
since only the simulation flow turns `COMPRESSED_ISA` on. An instruction that
the decoder does not know goes to the state `ld_rs1`, presents itself to the
units and waits there. It leaves with the answer of a unit, or with a trap.

The run results are proved for any two units that keep the contract of a
co-processor, one for the multiplications, one for the divisions.
-/

namespace SocRtl.Cpu

/-! ## Model -/

/-- The states of the core that matter to the interface. -/
inductive CpuState
  | fetch | ld_rs1 | trap
deriving DecidableEq, Repr

structure Port where
  cpu_state : CpuState
  pcpi_valid : Bool
  pcpi_insn : BitVec 32
  cpuregs_rs1 : BitVec 32
  cpuregs_rs2 : BitVec 32
  reg_op1 : BitVec 32
  reg_op2 : BitVec 32
  pcpi_timeout_counter : BitVec 4
  pcpi_timeout : Bool
deriving DecidableEq, Repr

/-- What comes from the rest of the core. An instruction with `instr_trap` set
leaves the fetch state, with its operands on the read ports of the register
file; `irq_free` says that an interrupt could be raised instead of a trap. -/
structure PortIn where
  resetn : Bool
  decoded : Option Request
  irq_free : Bool
deriving DecidableEq, Repr

/-- The decoder of `ecall` and `ebreak`, and of `c.ebreak` where there are
compressed instructions. -/
def instr_ecall_ebreak (COMPRESSED_ISA : Bool) (insn : BitVec 32) : Bool :=
  (insn.extractLsb' 0 7 == 0b1110011#7 && insn.extractLsb' 21 11 == 0
      && insn.extractLsb' 7 13 == 0)
    || (COMPRESSED_ISA && insn.extractLsb' 0 16 == 0x9002#16)

/-- The answers of both units, the multiplier first. -/
def pcpi_int (mul div : PcpiOut) : PcpiOut where
  pcpi_wr := if mul.pcpi_ready then mul.pcpi_wr else if div.pcpi_ready then div.pcpi_wr else false
  pcpi_rd := if mul.pcpi_ready then mul.pcpi_rd else if div.pcpi_ready then div.pcpi_rd else none
  pcpi_wait := mul.pcpi_wait || div.pcpi_wait
  pcpi_ready := mul.pcpi_ready || div.pcpi_ready

/-- What the units see. -/
def Port.pins (s : Port) (resetn : Bool) : PcpiIn :=
  ⟨resetn, s.pcpi_valid, s.pcpi_insn, s.reg_op1, s.reg_op2⟩

/-- Whether the instruction in `ld_rs1` gives up. -/
def Port.gives_up (COMPRESSED_ISA : Bool) (s : Port) : Bool :=
  s.pcpi_timeout || instr_ecall_ebreak COMPRESSED_ISA s.pcpi_insn

/-- The timeout counter. The flag is taken from the counter in the branch that
also winds the counter up again, not in the one that counts. -/
def Port.count (s : Port) (int : PcpiOut) (resetn : Bool) : Port :=
  if resetn && s.pcpi_valid && !int.pcpi_wait then
    { s with
      pcpi_timeout_counter :=
        if s.pcpi_timeout_counter ≠ 0 then s.pcpi_timeout_counter - 1
        else s.pcpi_timeout_counter }
  else
    { s with
      pcpi_timeout_counter := BitVec.allOnes 4
      pcpi_timeout := s.pcpi_timeout_counter == 0 }

/-- A clock edge of the core, with the answers of the units. -/
def Port.step (COMPRESSED_ISA : Bool) (s : Port) (int : PcpiOut) (i : PortIn) : Port :=
  let counted := s.count int i.resetn
  if !i.resetn then
    { counted with cpu_state := .fetch, pcpi_valid := false, pcpi_timeout := false }
  else
    match s.cpu_state with
    | .trap => counted
    | .fetch =>
      match i.decoded with
      | none => counted
      | some r =>
        { counted with
          cpu_state := .ld_rs1
          pcpi_insn := r.insn
          cpuregs_rs1 := r.rs1
          cpuregs_rs2 := r.rs2 }
    | .ld_rs1 =>
      { counted with
        reg_op1 := s.cpuregs_rs1
        reg_op2 := s.cpuregs_rs2
        pcpi_valid := !int.pcpi_ready && !s.gives_up COMPRESSED_ISA
        cpu_state :=
          if int.pcpi_ready then .fetch
          else if s.gives_up COMPRESSED_ISA then (if i.irq_free then .fetch else .trap)
          else .ld_rs1 }

/-- The core with its two units. -/
structure Bus (σ τ : Type) where
  port : Port
  mul : σ
  div : τ

/-- How an instruction leaves `ld_rs1`: with what `latched_store` and `reg_out`
take over, or with a trap. -/
inductive Outcome
  | result (wr : Bool) (rd : Option (BitVec 32))
  | trap
deriving DecidableEq, Repr

namespace Bus

variable {σ τ : Type} (COMPRESSED_ISA : Bool) (mul : PcpiUnit σ) (div : PcpiUnit τ)

/-- The answers of the units in a state. -/
def int (s : Bus σ τ) : PcpiOut := pcpi_int (mul.out s.mul) (div.out s.div)

/-- A clock edge. -/
def step (s : Bus σ τ) (i : PortIn) : Bus σ τ where
  port := s.port.step COMPRESSED_ISA (int mul div s) i
  mul := mul.step s.mul (s.port.pins i.resetn)
  div := div.step s.div (s.port.pins i.resetn)

/-- The instructions that enter `ld_rs1`. -/
def issued (s : Bus σ τ) (i : PortIn) : List Request :=
  if i.resetn && s.port.cpu_state == .fetch then i.decoded.toList else []

/-- The instruction in `ld_rs1`. -/
def pending (s : Bus σ τ) : List Request :=
  if s.port.cpu_state = .ld_rs1 then
    [⟨s.port.pcpi_insn, s.port.cpuregs_rs1, s.port.cpuregs_rs2⟩]
  else []

/-- The instructions that leave `ld_rs1`, and how. -/
def ended (s : Bus σ τ) (i : PortIn) : List (Request × Outcome) :=
  if i.resetn && (int mul div s).pcpi_ready then
    s.pending.map fun r => (r, .result (int mul div s).pcpi_wr (int mul div s).pcpi_rd)
  else if i.resetn && s.port.gives_up COMPRESSED_ISA then s.pending.map fun r => (r, .trap)
  else []

end Bus

/-! ## What should come out -/

/-- The outcome of an instruction: the result that the M extension asks for, a
trap of `ecall`, `ebreak` and `c.ebreak`, and none at all for other
instructions. -/
def outcome (COMPRESSED_ISA : Bool) (r : Request) : Option Outcome :=
  match rv32m r with
  | some v => some (.result true (some v))
  | none => if instr_ecall_ebreak COMPRESSED_ISA r.insn then some .trap else none

theorem rv32m_of_answerM {half : MulDiv → Bool} {r : Request} {v : BitVec 32}
    (h : answerM half r = some v) : rv32m r = some v := by
  rcases asks_of_answerM (h ▸ Option.some_ne_none v) with ⟨op, hop⟩
  rw [answerM_of_asks hop] at h
  rw [← h, rv32m, hop.1]
  rfl

/-- Every M instruction is a multiplication or a division, and not both. -/
theorem answerM_or {r : Request} (h : rv32m r ≠ none) :
    (answerM MulDiv.isMul r ≠ none ∧ answerM MulDiv.isDiv r = none)
      ∨ (answerM MulDiv.isMul r = none ∧ answerM MulDiv.isDiv r ≠ none) := by
  cases hd : decodeM r.insn with
  | none => exact absurd (by rw [rv32m, hd]; rfl) h
  | some op => cases hm : op.isMul <;> simp [answerM, hd, MulDiv.isDiv, hm]

theorem answerM_none {half : MulDiv → Bool} {r : Request} (h : rv32m r = none) :
    answerM half r = none := by
  cases hd : decodeM r.insn with
  | none => rw [answerM, hd]; rfl
  | some op => exact absurd h (by simp [rv32m, hd])

/-- The code of the M extension is that of none of the breaks. -/
theorem not_ecall_of_rv32m (rvc : Bool) {r : Request} (h : rv32m r ≠ none) :
    instr_ecall_ebreak rvc r.insn = false := by
  cases hd : decodeM r.insn with
  | none => exact absurd (by rw [rv32m, hd]; rfl) h
  | some op =>
      have hcode := (decodeM_eq_some.mp hd).1
      rw [opcodeM, Bool.and_eq_true, beq_iff_eq] at hcode
      -- the opcode is not that of `ecall`, nor the last seven bits of `c.ebreak`
      have hlow : (r.insn.extractLsb' 0 16 == 0x9002#16) = false := by
        rw [beq_eq_false_iff_ne]
        intro h
        have hseven : (r.insn.extractLsb' 0 16).extractLsb' 0 7 = r.insn.extractLsb' 0 7 :=
          BitVec.extractLsb'_extractLsb'_of_le (by decide)
        rw [h, hcode.1] at hseven
        exact absurd hseven (by decide)
      simp [instr_ecall_ebreak, hcode.1, hlow]

/-! ## The phases of the system -/

section

-- `rvc` is the parameter `COMPRESSED_ISA`
variable {σ τ : Type} {rvc : Bool} {mul : PcpiUnit σ} {div : PcpiUnit τ}
  (cm : Contract mul (answerM MulDiv.isMul)) (cd : Contract div (answerM MulDiv.isDiv))

/-- Nothing in `ld_rs1`. -/
structure Resting (s : Bus σ τ) : Prop where
  away : s.port.cpu_state ≠ .ld_rs1
  valid : s.port.pcpi_valid = false
  timeout : s.port.pcpi_timeout = false
  counter : 10 ≤ s.port.pcpi_timeout_counter.toNat
  mul_cooling : cm.Cooling s.mul
  div_cooling : cd.Cooling s.div

/-- The first cycle in `ld_rs1`, before the request is presented. -/
structure Loaded (r : Request) (s : Bus σ τ) : Prop where
  state : s.port.cpu_state = .ld_rs1
  pending : s.pending = [r]
  valid : s.port.pcpi_valid = false
  timeout : s.port.pcpi_timeout = false
  counter : 10 ≤ s.port.pcpi_timeout_counter.toNat
  mul_quiet : cm.Quiet s.mul
  div_quiet : cd.Quiet s.div

variable (rvc) in
/-- The request has been presented for `k` edges. An M instruction is claimed
or answered long before the counter runs out; another is not claimed at all, so
that nothing looks at the counter. -/
structure Asking (r : Request) (k : ℕ) (s : Bus σ τ) : Prop where
  state : s.port.cpu_state = .ld_rs1
  pending : s.pending = [r]
  pins : s.port.pins true = r.held
  timeout : s.port.pcpi_timeout = false
  no_ecall : instr_ecall_ebreak rvc r.insn = false
  patience : rv32m r ≠ none → 15 - min k 5 ≤ s.port.pcpi_timeout_counter.toNat
  silence : rv32m r = none → (s.int mul div).pcpi_wait = false
  mul_at : cm.At r k s.mul
  div_at : cd.At r k s.div

/-- The edges from the presentation of an M instruction to its answer. -/
def latency (r : Request) : ℕ :=
  if answerM MulDiv.isMul r ≠ none then cm.latency r else cd.latency r

variable {cm cd}

theorem Asking.ready {r : Request} {k : ℕ} {s : Bus σ τ} (h : Asking rvc cm cd r k s) :
    (s.int mul div).pcpi_ready = true ↔ rv32m r ≠ none ∧ k = latency cm cd r := by
  rw [Bus.int, pcpi_int, Bool.or_eq_true, cm.at_ready h.mul_at, cd.at_ready h.div_at]
  unfold latency
  by_cases hm : rv32m r = none
  · simp [hm, answerM_none hm]
  · rcases answerM_or hm with ⟨h1, h2⟩ | ⟨h1, h2⟩
    · simp [h1, h2, hm]
    · simp [h1, h2, hm]

/-! ## One edge -/

/-- A request held on the interface. -/
theorem held_of_pins {r : Request} {p : Port} (h : p.pins true = r.held) :
    p.pcpi_valid = true ∧ p.pcpi_insn = r.insn ∧ p.reg_op1 = r.rs1 ∧ p.reg_op2 = r.rs2 := by
  simpa [Port.pins, Request.held] using h

/-- The timeout flag stays low while the counter has not run out. -/
theorem timeout_count {p : Port} (int : PcpiOut) (resetn : Bool) (htimeout : p.pcpi_timeout = false)
    (hcounter : 10 ≤ p.pcpi_timeout_counter.toNat ∨ (resetn && p.pcpi_valid && !int.pcpi_wait)) :
    (p.count int resetn).pcpi_timeout = false := by
  unfold Port.count
  split
  · exact htimeout
  · rename_i hnot
    have hten := hcounter.resolve_right hnot
    have hne : p.pcpi_timeout_counter ≠ 0#4 := by
      intro h0
      rw [h0] at hten
      exact absurd hten (by decide)
    simpa using hne

theorem counter_count_idle {p : Port} {int : PcpiOut} {resetn : Bool}
    (h : (resetn && p.pcpi_valid && !int.pcpi_wait) = false) :
    (p.count int resetn).pcpi_timeout_counter = BitVec.allOnes 4 := by
  rw [Port.count, if_neg (by rw [h]; exact Bool.false_ne_true)]

theorem counter_count_busy {p : Port} {int : PcpiOut} {resetn : Bool}
    (h : (resetn && p.pcpi_valid && !int.pcpi_wait) = true)
    (hpos : 0 < p.pcpi_timeout_counter.toNat) :
    (p.count int resetn).pcpi_timeout_counter.toNat = p.pcpi_timeout_counter.toNat - 1 := by
  have hne : p.pcpi_timeout_counter ≠ 0#4 := by
    intro h0
    rw [h0] at hpos
    exact absurd hpos (by decide)
  rw [Port.count, if_pos h]
  show (if p.pcpi_timeout_counter ≠ 0#4 then p.pcpi_timeout_counter - 1
    else p.pcpi_timeout_counter).toNat = _
  rw [if_pos hne, BitVec.toNat_sub_of_le]
  · rfl
  · rw [BitVec.le_def]
    exact hpos

/-- The counter leaves the other registers alone. -/
theorem count_rest (p : Port) (int : PcpiOut) (resetn : Bool) :
    (p.count int resetn).cpu_state = p.cpu_state ∧ (p.count int resetn).pcpi_valid = p.pcpi_valid
      ∧ (p.count int resetn).pcpi_insn = p.pcpi_insn
      ∧ (p.count int resetn).cpuregs_rs1 = p.cpuregs_rs1
      ∧ (p.count int resetn).cpuregs_rs2 = p.cpuregs_rs2 := by
  unfold Port.count
  split <;> exact ⟨rfl, rfl, rfl, rfl, rfl⟩

variable (rvc) in
/-- Two edges in reset bring the system to rest, from any state. -/
theorem resting_of_reset (s : Bus σ τ) {i j : PortIn} (hi : i.resetn = false)
    (hj : j.resetn = false) :
    Resting cm cd (Bus.step rvc mul div (Bus.step rvc mul div s i) j)
      ∧ (Bus.step rvc mul div (Bus.step rvc mul div s i) j).port.cpu_state = .fetch := by
  refine ⟨⟨?_, ?_, ?_, ?_, ?_, ?_⟩, ?_⟩
  · simp [Bus.step, Port.step, hj]
  · simp [Bus.step, Port.step, hj]
  · simp [Bus.step, Port.step, hj]
  · simp [Bus.step, Port.step, hj, Port.count]
  · exact cm.cooling_of_quiet _ (cm.reset _ _ _ hi hj)
  · exact cd.cooling_of_quiet _ (cd.reset _ _ _ hi hj)
  · simp [Bus.step, Port.step, hj]

variable (rvc) in
/-- At rest, with nothing to do. -/
theorem resting_step {s : Bus σ τ} {i : PortIn} (h : Resting cm cd s) (hi : i.resetn = true)
    (hissued : s.issued i = []) :
    Resting cm cd (Bus.step rvc mul div s i)
      ∧ (Bus.step rvc mul div s i).port.cpu_state = s.port.cpu_state := by
  -- without an instruction only the timeout counter moves
  have hport : (Bus.step rvc mul div s i).port = s.port.count (s.int mul div) i.resetn := by
    have haway := h.away
    rw [Bus.issued, hi] at hissued
    simp only [Bus.step, Port.step, hi]
    cases hs : s.port.cpu_state with
    | fetch =>
        have hnone : i.decoded = none := by simpa [hs] using hissued
        simp [hnone]
    | ld_rs1 => exact absurd hs haway
    | trap => simp
  have hrest := count_rest s.port (s.int mul div) i.resetn
  have hidle : (s.port.pins i.resetn).pcpi_valid = false := h.valid
  refine ⟨⟨?_, ?_, ?_, ?_, ?_, ?_⟩, ?_⟩
  · rw [hport, hrest.1]
    exact h.away
  · rw [hport, hrest.2.1]
    exact h.valid
  · rw [hport]
    exact timeout_count _ _ h.timeout (Or.inl h.counter)
  · rw [hport, counter_count_idle (by rw [h.valid, Bool.and_false, Bool.false_and])]
    decide
  · exact cm.cooling_of_quiet _ (cm.cooling_idle _ _ h.mul_cooling hidle)
  · exact cd.cooling_of_quiet _ (cd.cooling_idle _ _ h.div_cooling hidle)
  · rw [hport, hrest.1]

variable (rvc) in
/-- An instruction enters `ld_rs1`. -/
theorem loaded_step {s : Bus σ τ} {i : PortIn} {r : Request} (h : Resting cm cd s)
    (hi : i.resetn = true) (hfetch : s.port.cpu_state = .fetch) (hr : i.decoded = some r) :
    Loaded cm cd r (Bus.step rvc mul div s i) := by
  have hport : (Bus.step rvc mul div s i).port
      = { s.port.count (s.int mul div) true with
          cpu_state := .ld_rs1
          pcpi_insn := r.insn
          cpuregs_rs1 := r.rs1
          cpuregs_rs2 := r.rs2 } := by
    simp [Bus.step, Port.step, hi, hfetch, hr]
  have hrest := count_rest s.port (s.int mul div) true
  have hidle : (s.port.pins i.resetn).pcpi_valid = false := h.valid
  refine ⟨?_, ?_, ?_, ?_, ?_, ?_, ?_⟩
  · rw [hport]
  · rw [Bus.pending, hport]
    rfl
  · rw [hport]
    exact hrest.2.1.trans h.valid
  · rw [hport]
    exact timeout_count _ _ h.timeout (Or.inl h.counter)
  · rw [hport]
    show 10 ≤ (s.port.count (s.int mul div) true).pcpi_timeout_counter.toNat
    rw [counter_count_idle (by rw [h.valid, Bool.and_false, Bool.false_and])]
    decide
  · exact cm.cooling_idle _ _ h.mul_cooling hidle
  · exact cd.cooling_idle _ _ h.div_cooling hidle

theorem pending_eq {s : Bus σ τ} {r : Request} (hstate : s.port.cpu_state = .ld_rs1)
    (h : s.pending = [r]) :
    s.port.pcpi_insn = r.insn ∧ s.port.cpuregs_rs1 = r.rs1 ∧ s.port.cpuregs_rs2 = r.rs2 := by
  rw [Bus.pending, if_pos hstate] at h
  have heq := List.singleton_inj.mp h
  rw [← heq]
  exact ⟨rfl, rfl, rfl⟩

variable (rvc mul div) in
/-- The port in `ld_rs1`. -/
theorem port_ld_rs1 {s : Bus σ τ} {i : PortIn} (hi : i.resetn = true)
    (hstate : s.port.cpu_state = .ld_rs1) :
    (Bus.step rvc mul div s i).port
      = { s.port.count (s.int mul div) true with
          reg_op1 := s.port.cpuregs_rs1
          reg_op2 := s.port.cpuregs_rs2
          pcpi_valid := !(s.int mul div).pcpi_ready && !s.port.gives_up rvc
          cpu_state :=
            if (s.int mul div).pcpi_ready then .fetch
            else if s.port.gives_up rvc then (if i.irq_free then .fetch else .trap)
            else .ld_rs1 } := by
  simp [Bus.step, Port.step, hi, hstate]

/-- `ecall` and the breaks leave at once. -/
theorem resting_of_ecall {s : Bus σ τ} {i : PortIn} {r : Request} (h : Loaded cm cd r s)
    (hi : i.resetn = true) (hecall : instr_ecall_ebreak rvc r.insn = true) :
    Resting cm cd (Bus.step rvc mul div s i) ∧ s.ended rvc mul div i = [(r, .trap)] := by
  have hinsn := (pending_eq h.state h.pending).1
  have hup : s.port.gives_up rvc = true := by simp [Port.gives_up, hinsn, hecall]
  -- no unit has seen the request, so none answers at the same time
  have hready : (s.int mul div).pcpi_ready = false := by
    rw [Bus.int, pcpi_int, cm.cooling_ready _ (cm.cooling_of_quiet _ h.mul_quiet),
      cd.cooling_ready _ (cd.cooling_of_quiet _ h.div_quiet)]
    rfl
  have hport := port_ld_rs1 rvc mul div hi h.state
  have hidle : (s.port.pins i.resetn).pcpi_valid = false := h.valid
  refine ⟨⟨?_, ?_, ?_, ?_, ?_, ?_⟩, ?_⟩
  · rw [hport, hready, hup]
    cases i.irq_free <;> simp
  · rw [hport, hready, hup]
    rfl
  · rw [hport]
    exact timeout_count _ _ h.timeout (Or.inl h.counter)
  · -- the counter is loaded again while nothing is presented
    rw [hport]
    show 10 ≤ (s.port.count (s.int mul div) true).pcpi_timeout_counter.toNat
    rw [counter_count_idle (by rw [h.valid, Bool.and_false, Bool.false_and])]
    decide
  · exact cm.cooling_of_quiet _
      (cm.cooling_idle _ _ (cm.cooling_of_quiet _ h.mul_quiet) hidle)
  · exact cd.cooling_of_quiet _
      (cd.cooling_idle _ _ (cd.cooling_of_quiet _ h.div_quiet) hidle)
  · simp [Bus.ended, hi, hready, hup, h.pending]

/-- Other instructions are presented. -/
theorem asking_start {s : Bus σ τ} {i : PortIn} {r : Request} (h : Loaded cm cd r s)
    (hi : i.resetn = true) (hecall : instr_ecall_ebreak rvc r.insn = false) :
    Asking rvc cm cd r 0 (Bus.step rvc mul div s i) ∧ s.ended rvc mul div i = [] := by
  rcases pending_eq h.state h.pending with ⟨hinsn, hrs1, hrs2⟩
  have hup : s.port.gives_up rvc = false := by simp [Port.gives_up, hinsn, hecall, h.timeout]
  -- both units are still quiet
  have hready : (s.int mul div).pcpi_ready = false := by
    rw [Bus.int, pcpi_int, cm.cooling_ready _ (cm.cooling_of_quiet _ h.mul_quiet),
      cd.cooling_ready _ (cd.cooling_of_quiet _ h.div_quiet)]
    rfl
  have hport := port_ld_rs1 rvc mul div hi h.state
  rw [hready, hup] at hport
  have hrest := count_rest s.port (s.int mul div) true
  have hidle : (s.port.pins i.resetn).pcpi_valid = false := h.valid
  refine ⟨⟨?_, ?_, ?_, ?_, hecall, ?_, ?_, ?_, ?_⟩, ?_⟩
  · rw [hport]
    rfl
  · rw [Bus.pending, hport]
    simp [hrest, hinsn, hrs1, hrs2]
  · rw [hport]
    simp [Port.pins, Request.held, hrest, hinsn, hrs1, hrs2]
  · rw [hport]
    exact timeout_count _ _ h.timeout (Or.inl h.counter)
  · -- the request begins with a full counter
    intro _
    rw [hport]
    show 15 - min 0 5 ≤ (s.port.count (s.int mul div) true).pcpi_timeout_counter.toNat
    rw [counter_count_idle (by rw [h.valid, Bool.and_false, Bool.false_and])]
    decide
  · -- in its first cycle no unit waits yet, whether it will answer or not
    intro _
    rw [Bus.int, pcpi_int]
    simp [Bus.step, cm.quiet_wait _ _ h.mul_quiet, cd.quiet_wait _ _ h.div_quiet]
  · exact cm.at_zero (cm.cooling_idle _ _ (cm.cooling_of_quiet _ h.mul_quiet) hidle)
  · exact cd.at_zero (cd.cooling_idle _ _ (cd.cooling_of_quiet _ h.div_quiet) hidle)
  · simp [Bus.ended, hi, hready, hup]

/-- Nothing looks at the counter too late. -/
theorem Asking.timeout_step {s : Bus σ τ} {r : Request} {k : ℕ} (h : Asking rvc cm cd r k s) :
    (s.port.count (s.int mul div) true).pcpi_timeout = false := by
  apply timeout_count _ _ h.timeout
  by_cases hm : rv32m r = none
  · right
    rw [(held_of_pins h.pins).1, h.silence hm]
    rfl
  · left
    have := h.patience hm
    omega

/-- For an M instruction the counter stays far from running out. -/
theorem Asking.patience_step {s : Bus σ τ} {r : Request} {k : ℕ} (h : Asking rvc cm cd r k s)
    (hm : rv32m r ≠ none) :
    15 - min (k + 1) 5 ≤ (s.port.count (s.int mul div) true).pcpi_timeout_counter.toNat := by
  have hpatience := h.patience hm
  cases hwait : (s.int mul div).pcpi_wait with
  | true =>
      rw [counter_count_idle (by rw [hwait, Bool.not_true, Bool.and_false])]
      show 15 - min (k + 1) 5 ≤ 15
      omega
  | false =>
      rw [counter_count_busy (by rw [hwait, (held_of_pins h.pins).1]; rfl) (by omega)]
      -- from the fifth edge on the unit that answers claims the request
      have hearly : k < 5 := by
        by_contra hlate
        have hboth : (mul.out s.mul).pcpi_wait = false ∧ (div.out s.div).pcpi_wait = false := by
          rw [Bus.int, pcpi_int] at hwait
          exact Bool.or_eq_false_iff.mp hwait
        rcases answerM_or hm with ⟨h1, _⟩ | ⟨_, h2⟩
        · exact Bool.false_ne_true (hboth.1.symm.trans (cm.at_wait h.mul_at h1 (by omega)))
        · exact Bool.false_ne_true (hboth.2.symm.trans (cd.at_wait h.div_at h2 (by omega)))
      omega

/-- The request stays on the interface until there is an answer. -/
theorem asking_step {s : Bus σ τ} {i : PortIn} {r : Request} {k : ℕ} (h : Asking rvc cm cd r k s)
    (hi : i.resetn = true) (hready : (s.int mul div).pcpi_ready = false) :
    Asking rvc cm cd r (k + 1) (Bus.step rvc mul div s i) ∧ s.ended rvc mul div i = [] := by
  rcases pending_eq h.state h.pending with ⟨hinsn, hrs1, hrs2⟩
  have hup : s.port.gives_up rvc = false := by simp [Port.gives_up, hinsn, h.no_ecall, h.timeout]
  have hport := port_ld_rs1 rvc mul div hi h.state
  rw [hready, hup] at hport
  have hrest := count_rest s.port (s.int mul div) true
  have hpins : s.port.pins i.resetn = r.held := hi ▸ h.pins
  -- no answer on the bus means none from either unit
  have hunits : (mul.out s.mul).pcpi_ready = false ∧ (div.out s.div).pcpi_ready = false := by
    rw [Bus.int, pcpi_int] at hready
    exact Bool.or_eq_false_iff.mp hready
  refine ⟨⟨?_, ?_, ?_, ?_, h.no_ecall, ?_, ?_, ?_, ?_⟩, ?_⟩
  · rw [hport]
    rfl
  · rw [Bus.pending, hport]
    simp [hrest, hinsn, hrs1, hrs2]
  · rw [hport]
    simp [Port.pins, Request.held, hrest, hinsn, hrs1, hrs2]
  · rw [hport]
    exact h.timeout_step
  · -- an M instruction keeps what patience it has left
    intro hm
    rw [hport]
    show 15 - min (k + 1) 5 ≤ (s.port.count (s.int mul div) true).pcpi_timeout_counter.toNat
    exact h.patience_step hm
  · -- any other is waited for by none, and the counter is not held
    intro hm
    rw [Bus.int, pcpi_int]
    simp [Bus.step, hpins, cm.at_silent h.mul_at (answerM_none hm),
      cd.at_silent h.div_at (answerM_none hm)]
  · -- each unit counts one more edge of the request
    show cm.At r (k + 1) (mul.step s.mul (s.port.pins i.resetn))
    rw [hpins]
    exact cm.at_step h.mul_at hunits.1
  · show cd.At r (k + 1) (div.step s.div (s.port.pins i.resetn))
    rw [hpins]
    exact cd.at_step h.div_at hunits.2
  · simp [Bus.ended, hi, hready, hup]

/-- The edge that takes the answer over. -/
theorem asking_done {s : Bus σ τ} {i : PortIn} {r : Request} {k : ℕ} (h : Asking rvc cm cd r k s)
    (hi : i.resetn = true) (hready : (s.int mul div).pcpi_ready = true) :
    Resting cm cd (Bus.step rvc mul div s i)
      ∧ s.ended rvc mul div i = [(r, .result true (rv32m r))] := by
  rcases h.ready.mp hready with ⟨hm, hk⟩
  have hport := port_ld_rs1 rvc mul div hi h.state
  rw [hready] at hport
  have hpins : s.port.pins i.resetn = r.held := hi ▸ h.pins
  -- the answer comes at the latency of the unit whose instruction it is
  have hmul : answerM MulDiv.isMul r ≠ none → k = cm.latency r := fun hans => by
    rw [hk, latency, if_pos hans]
  have hdiv : answerM MulDiv.isDiv r ≠ none → k = cd.latency r := fun hans => by
    have hnot : ¬ answerM MulDiv.isMul r ≠ none := by
      rcases answerM_or hm with ⟨_, h2⟩ | ⟨h1, _⟩
      · exact absurd h2 hans
      · exact not_not.mpr h1
    rw [hk, latency, if_neg hnot]
  refine ⟨⟨?_, ?_, ?_, ?_, ?_, ?_⟩, ?_⟩
  · rw [hport]
    simp
  · rw [hport]
    rfl
  · rw [hport]
    exact h.timeout_step
  · -- the counter is still far from running out
    rw [hport]
    show 10 ≤ (s.port.count (s.int mul div) true).pcpi_timeout_counter.toNat
    have hpatience := h.patience_step hm
    omega
  · show cm.Cooling (mul.step s.mul (s.port.pins i.resetn))
    rw [hpins]
    exact cm.cooling_step h.mul_at hmul
  · show cd.Cooling (div.step s.div (s.port.pins i.resetn))
    rw [hpins]
    exact cd.cooling_step h.div_at hdiv
  · -- whichever unit is ready drives `rd`, and it drives the result
    have hanswer : (s.int mul div).pcpi_wr = true ∧ (s.int mul div).pcpi_rd = rv32m r := by
      rw [Bus.int, pcpi_int]
      cases hmulready : (mul.out s.mul).pcpi_ready with
      | true =>
          have hout := cm.at_answer h.mul_at hmulready
          rcases Option.ne_none_iff_exists'.mp ((cm.at_ready h.mul_at).mp hmulready).1 with ⟨v, hv⟩
          simp [hout, hv, rv32m_of_answerM hv]
      | false =>
          have hdivready : (div.out s.div).pcpi_ready = true := by
            rw [Bus.int, pcpi_int, hmulready, Bool.false_or] at hready
            exact hready
          have hout := cd.at_answer h.div_at hdivready
          rcases Option.ne_none_iff_exists'.mp ((cd.at_ready h.div_at).mp hdivready).1 with ⟨v, hv⟩
          simp [hdivready, hout, hv, rv32m_of_answerM hv]
    simp [Bus.ended, hi, hready, h.pending, hanswer]

/-! ## Runs -/

variable (rvc cm cd) in
/-- The states of a run after reset. -/
def Running (s : Bus σ τ) : Prop :=
  Resting cm cd s ∨ (∃ r, Loaded cm cd r s) ∨ ∃ r k, Asking rvc cm cd r k s

theorem pending_resting {s : Bus σ τ} (h : Resting cm cd s) : s.pending = [] := if_neg h.away

theorem ended_resting {s : Bus σ τ} (h : Resting cm cd s) (i : PortIn) :
    s.ended rvc mul div i = [] := by
  unfold Bus.ended
  rw [pending_resting h]
  split
  · rfl
  · split <;> rfl

theorem issued_ld_rs1 {s : Bus σ τ} (h : s.port.cpu_state = .ld_rs1) (i : PortIn) :
    s.issued i = [] := by
  simp [Bus.issued, h]

/-- What one edge does to the instructions: those in `ld_rs1` and those that
enter it are those that leave it and those that stay. Whatever leaves does so
with the outcome it should have. -/
theorem running_step {s : Bus σ τ} {i : PortIn} (h : Running rvc cm cd s) (hi : i.resetn = true) :
    Running rvc cm cd (Bus.step rvc mul div s i)
      ∧ s.pending ++ s.issued i
          = (s.ended rvc mul div i).map Prod.fst ++ (Bus.step rvc mul div s i).pending
      ∧ ∀ e ∈ s.ended rvc mul div i, outcome rvc e.1 = some e.2 := by
  rcases h with h | ⟨r, h⟩ | ⟨r, k, h⟩
  · -- at rest: an instruction may enter, and none leaves
    rw [pending_resting h, ended_resting h i]
    cases hissued : s.issued i with
    | nil =>
        have hnext := (resting_step rvc h hi hissued).1
        exact ⟨Or.inl hnext, by rw [pending_resting hnext]; rfl, by simp⟩
    | cons r rest =>
        have hfetch : s.port.cpu_state = .fetch ∧ i.decoded = some r ∧ rest = [] := by
          rw [Bus.issued, hi] at hissued
          cases hs : s.port.cpu_state <;> cases hd : i.decoded <;> simp_all
        have hnext := loaded_step rvc h hi hfetch.1 hfetch.2.1
        rw [hfetch.2.2]
        exact ⟨Or.inr (Or.inl ⟨r, hnext⟩), by rw [hnext.pending]; rfl, by simp⟩
  · -- just loaded: `ecall` and the breaks leave, the others are presented
    rw [h.pending, issued_ld_rs1 h.state]
    cases hecall : instr_ecall_ebreak rvc r.insn with
    | true =>
        have hnext := resting_of_ecall h hi hecall
        refine ⟨Or.inl hnext.1, by rw [hnext.2, pending_resting hnext.1]; rfl, ?_⟩
        rw [hnext.2]
        -- the breaks are no M instructions, so the trap is the outcome
        have hnone : rv32m r = none := by
          by_contra hm
          exact Bool.false_ne_true ((not_ecall_of_rv32m rvc hm).symm.trans hecall)
        simp [outcome, hnone, hecall]
    | false =>
        have hnext := asking_start h hi hecall
        refine ⟨Or.inr (Or.inr ⟨r, 0, hnext.1⟩), by rw [hnext.2, hnext.1.pending]; rfl, ?_⟩
        rw [hnext.2]
        simp
  · -- presented: it leaves with the answer and stays until then
    rw [h.pending, issued_ld_rs1 h.state]
    cases hready : (s.int mul div).pcpi_ready with
    | true =>
        have hnext := asking_done h hi hready
        refine ⟨Or.inl hnext.1, by rw [hnext.2, pending_resting hnext.1]; rfl, ?_⟩
        rw [hnext.2]
        rcases Option.ne_none_iff_exists'.mp (h.ready.mp hready).1 with ⟨v, hv⟩
        simp [outcome, hv]
    | false =>
        have hnext := asking_step h hi hready
        refine ⟨Or.inr (Or.inr ⟨r, k + 1, hnext.1⟩), by rw [hnext.2, hnext.1.pending]; rfl, ?_⟩
        rw [hnext.2]
        simp

/-- Along a whole run no instruction is lost, none is answered twice or out of
turn, and each that leaves has the outcome it should have. -/
theorem outcomes_of_running {s : Bus σ τ} (h : Running rvc cm cd s) {ins : List PortIn}
    (hins : ∀ x ∈ ins, x.resetn = true) :
    Running rvc cm cd (run (Bus.step rvc mul div) s ins)
      ∧ s.pending ++ events (Bus.step rvc mul div) Bus.issued s ins
          = (events (Bus.step rvc mul div) (Bus.ended rvc mul div) s ins).map Prod.fst
            ++ (run (Bus.step rvc mul div) s ins).pending
      ∧ ∀ e ∈ events (Bus.step rvc mul div) (Bus.ended rvc mul div) s ins,
          outcome rvc e.1 = some e.2 := by
  have hI : ∀ s i, Running rvc cm cd s → i.resetn = true →
      Running rvc cm cd (Bus.step rvc mul div s i) :=
    fun s i hs hi => (running_step hs hi).1
  have halong := along_and (Bus.step rvc mul div) |>.mpr
    ⟨along_preserves_of (Running rvc cm cd) hI h hins,
      along_of_inputs (Bus.step rvc mul div) (s := s) hins⟩
  refine ⟨run_preserves_of (Running rvc cm cd) hI h hins, ?_, ?_⟩
  · rw [← events_map]
    exact events_conserved
      (along_mono _ (fun s i hs => (running_step hs.1 hs.2).2.1) halong)
  · exact forall_mem_events
      (along_mono _ (fun s i hs => (running_step hs.1 hs.2).2.2) halong)

/-- A request that no unit answers yet: it stays, and nothing leaves. -/
theorem asking_run {s : Bus σ τ} {r : Request} {k : ℕ} (h : Asking rvc cm cd r k s)
    {ins : List PortIn} (hins : ∀ x ∈ ins, x.resetn = true)
    (hlen : rv32m r ≠ none → k + ins.length ≤ latency cm cd r) :
    Asking rvc cm cd r (k + ins.length) (run (Bus.step rvc mul div) s ins)
      ∧ events (Bus.step rvc mul div) (Bus.ended rvc mul div) s ins = [] := by
  induction ins generalizing s k with
  | nil => exact ⟨h, rfl⟩
  | cons i ins ih =>
      rw [List.length_cons] at hlen
      -- the answer would come at the latency, and the run is not that long yet
      have hready : (s.int mul div).pcpi_ready = false := by
        rw [Bool.eq_false_iff]
        intro hr
        rcases h.ready.mp hr with ⟨hm, hk⟩
        have := hlen hm
        omega
      have hnext := asking_step h (hins i List.mem_cons_self) hready
      have hrest := ih hnext.1 (fun x hx => hins x (List.mem_cons_of_mem i hx))
        (fun hm => by have := hlen hm; omega)
      rw [events_cons, hnext.2, run_cons, List.length_cons, hrest.2]
      refine ⟨?_, rfl⟩
      have hk : k + (ins.length + 1) = k + 1 + ins.length := by omega
      rw [hk]
      exact hrest.1

variable (rvc) in
/-- From the edge that decodes an M instruction, `latency r + 2` edges bring its
result. -/
theorem result_of_issue {s : Bus σ τ} {i : PortIn} {r : Request} (h : Resting cm cd s)
    (hi : i.resetn = true) (hfetch : s.port.cpu_state = .fetch) (hr : i.decoded = some r)
    (hm : rv32m r ≠ none) {ins : List PortIn} (hins : ∀ x ∈ ins, x.resetn = true)
    (hlen : ins.length = latency cm cd r + 1) {j : PortIn} (hj : j.resetn = true) :
    events (Bus.step rvc mul div) (Bus.ended rvc mul div) s (i :: ins) = []
      ∧ events (Bus.step rvc mul div) (Bus.ended rvc mul div) s (i :: (ins ++ [j]))
          = [(r, .result true (rv32m r))] := by
  have hloaded := loaded_step rvc h hi hfetch hr
  cases ins with
  | nil => exact absurd hlen (by simp)
  | cons i' ins =>
      have hstart := asking_start hloaded (hins i' List.mem_cons_self) (not_ecall_of_rv32m rvc hm)
      -- one edge of the run loads, the others wait for the answer
      have hlen' : ins.length = latency cm cd r := by simpa using hlen
      have hrun := asking_run hstart.1 (fun x hx => hins x (List.mem_cons_of_mem i' hx))
        (fun _ => by omega)
      have hready : ((run (Bus.step rvc mul div)
          (Bus.step rvc mul div (Bus.step rvc mul div s i) i') ins).int mul div).pcpi_ready
            = true :=
        hrun.1.ready.mpr ⟨hm, by omega⟩
      have hdone := asking_done hrun.1 hj hready
      constructor
      · rw [events_cons, events_cons, ended_resting h i, hstart.2, hrun.2]
        rfl
      · rw [events_cons, List.cons_append, events_cons, events_concat, ended_resting h i,
          hstart.2, hrun.2, hdone.2]
        rfl

variable (rvc) in
/-- An instruction that is neither of the M extension nor `ecall` or a break
never leaves `ld_rs1`. -/
theorem stuck_of_issue {s : Bus σ τ} {i : PortIn} {r : Request} (h : Resting cm cd s)
    (hi : i.resetn = true) (hfetch : s.port.cpu_state = .fetch) (hr : i.decoded = some r)
    (hnone : outcome rvc r = none) {ins : List PortIn} (hins : ∀ x ∈ ins, x.resetn = true) :
    (run (Bus.step rvc mul div) s (i :: ins)).port.cpu_state = .ld_rs1
      ∧ events (Bus.step rvc mul div) (Bus.ended rvc mul div) s (i :: ins) = [] := by
  have hloaded := loaded_step rvc h hi hfetch hr
  -- without an outcome it is neither an M instruction nor a break
  have hm : rv32m r = none := by
    by_contra hm
    rcases Option.ne_none_iff_exists'.mp hm with ⟨v, hv⟩
    simp [outcome, hv] at hnone
  have hecall : instr_ecall_ebreak rvc r.insn = false := by
    rw [Bool.eq_false_iff]
    intro he
    simp [outcome, hm, he] at hnone
  cases ins with
  | nil => exact ⟨hloaded.state, by rw [events_cons, ended_resting h i]; rfl⟩
  | cons i' ins =>
      have hstart := asking_start hloaded (hins i' List.mem_cons_self) hecall
      have hrun := asking_run hstart.1 (fun x hx => hins x (List.mem_cons_of_mem i' hx))
        (fun hm' => absurd hm hm')
      refine ⟨hrun.1.state, ?_⟩
      rw [events_cons, events_cons, ended_resting h i, hstart.2, hrun.2]
      rfl

theorem resting_of_running {s : Bus σ τ} (h : Running rvc cm cd s)
    (hfetch : s.port.cpu_state = .fetch) : Resting cm cd s := by
  rcases h with h | ⟨r, h⟩ | ⟨r, k, h⟩
  · exact h
  · exact absurd (hfetch.symm.trans h.state) (by decide)
  · exact absurd (hfetch.symm.trans h.state) (by decide)

end

end SocRtl.Cpu
