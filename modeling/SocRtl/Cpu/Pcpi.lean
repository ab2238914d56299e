import Mathlib.Algebra.Group.Nat.Defs
import Mathlib.Data.Int.Cast.Defs
import Mathlib.Tactic.NormNum.Basic

/-!
# SocRtl.Cpu.Pcpi — the co-processor interface of the core

The core hands an instruction it does not know to its co-processors: the
instruction word and both operands are presented with `pcpi_valid` until a
co-processor answers with `pcpi_ready`, or claims the instruction for longer
with `pcpi_wait`. This file holds the signals, what the M extension of the
instruction set wants as answers, and the contract of a co-processor: when it
is quiet, what it does while a request is held, and when it answers what.

`'bx` on a result bus is `none`.
-/

namespace SocRtl.Cpu

/-! ## Signals -/

/-- What the core drives. -/
structure PcpiIn where
  resetn : Bool
  pcpi_valid : Bool
  pcpi_insn : BitVec 32
  pcpi_rs1 : BitVec 32
  pcpi_rs2 : BitVec 32
deriving DecidableEq, Repr

/-- What a co-processor drives. -/
structure PcpiOut where
  pcpi_wr : Bool
  pcpi_rd : Option (BitVec 32)
  pcpi_wait : Bool
  pcpi_ready : Bool
deriving DecidableEq, Repr

/-- A co-processor: registers, their clock edge, and outputs that the
registers determine. -/
structure PcpiUnit (σ : Type) where
  step : σ → PcpiIn → σ
  out : σ → PcpiOut

/-- An instruction with its operands. -/
structure Request where
  insn : BitVec 32
  rs1 : BitVec 32
  rs2 : BitVec 32
deriving DecidableEq, Repr

/-- The request on the interface. -/
def Request.held (r : Request) : PcpiIn := ⟨true, true, r.insn, r.rs1, r.rs2⟩

/-! ## The M extension -/

/-- The instructions of the M extension. -/
inductive MulDiv
  | mul | mulh | mulhsu | mulhu | div | divu | rem | remu
deriving DecidableEq, Repr

def funct3 (insn : BitVec 32) : BitVec 3 := insn.extractLsb' 12 3

/-- Major opcode `OP` with the `funct7` of the M extension. -/
def opcodeM (insn : BitVec 32) : Bool :=
  insn.extractLsb' 0 7 == 0b0110011#7 && insn.extractLsb' 25 7 == 0b0000001#7

/-- The instruction with this `funct3`. -/
def MulDiv.ofFunct3 (f : BitVec 3) : MulDiv :=
  if f = 0b000#3 then mul
  else if f = 0b001#3 then mulh
  else if f = 0b010#3 then mulhsu
  else if f = 0b011#3 then mulhu
  else if f = 0b100#3 then div
  else if f = 0b101#3 then divu
  else if f = 0b110#3 then rem
  else remu

def decodeM (insn : BitVec 32) : Option MulDiv :=
  if opcodeM insn then some (MulDiv.ofFunct3 (funct3 insn)) else none

theorem decodeM_eq_some {insn : BitVec 32} {op : MulDiv} :
    decodeM insn = some op ↔ opcodeM insn = true ∧ MulDiv.ofFunct3 (funct3 insn) = op := by
  simp [decodeM]

theorem funct3_mul : ∀ f : BitVec 3,
    (f == 0b000#3) = (MulDiv.ofFunct3 f == .mul) ∧ (f == 0b001#3) = (MulDiv.ofFunct3 f == .mulh)
      ∧ (f == 0b010#3) = (MulDiv.ofFunct3 f == .mulhsu)
      ∧ (f == 0b011#3) = (MulDiv.ofFunct3 f == .mulhu) := by
  decide

theorem funct3_div : ∀ f : BitVec 3,
    (f == 0b100#3) = (MulDiv.ofFunct3 f == .div) ∧ (f == 0b101#3) = (MulDiv.ofFunct3 f == .divu)
      ∧ (f == 0b110#3) = (MulDiv.ofFunct3 f == .rem)
      ∧ (f == 0b111#3) = (MulDiv.ofFunct3 f == .remu) := by
  decide

/-- What the instruction set asks for. Products are taken in full before a half
is picked; quotients round towards zero; division by zero gives all ones and
leaves the dividend as remainder. -/
def MulDiv.result (op : MulDiv) (x y : BitVec 32) : BitVec 32 :=
  match op with
  | mul => BitVec.ofInt 32 (x.toInt * y.toInt)
  | mulh => BitVec.ofInt 32 (x.toInt * y.toInt / 2 ^ 32)
  | mulhsu => BitVec.ofInt 32 (x.toInt * y.toNat / 2 ^ 32)
  | mulhu => BitVec.ofNat 32 (x.toNat * y.toNat / 2 ^ 32)
  | div => if y = 0 then BitVec.allOnes 32 else BitVec.ofInt 32 (x.toInt.tdiv y.toInt)
  | divu => if y = 0 then BitVec.allOnes 32 else BitVec.ofNat 32 (x.toNat / y.toNat)
  | rem => if y = 0 then x else BitVec.ofInt 32 (x.toInt.tmod y.toInt)
  | remu => if y = 0 then x else BitVec.ofNat 32 (x.toNat % y.toNat)

/-- Whether the instruction is one of the four multiplications. -/
def MulDiv.isMul : MulDiv → Bool
  | mul | mulh | mulhsu | mulhu => true
  | _ => false

/-- Whether it is one of the four divisions. -/
def MulDiv.isDiv (op : MulDiv) : Bool := !op.isMul

/-- The request is an instruction of one half of the extension: of the
multiplications, or of the divisions. -/
def Asks (half : MulDiv → Bool) (r : Request) (op : MulDiv) : Prop :=
  decodeM r.insn = some op ∧ half op = true

/-- The answer to such a request. -/
def answerM (half : MulDiv → Bool) (r : Request) : Option (BitVec 32) :=
  ((decodeM r.insn).filter half).map fun op => op.result r.rs1 r.rs2

section

variable {half : MulDiv → Bool} {r : Request}

theorem asks_of_answerM (h : answerM half r ≠ none) : ∃ op, Asks half r op := by
  cases hd : decodeM r.insn with
  | none => exact absurd (by simp [answerM, hd]) h
  | some op =>
      cases hm : half op with
      | false => exact absurd (by simp [answerM, hd, hm]) h
      | true => exact ⟨op, hd, hm⟩

theorem answerM_of_asks {op : MulDiv} (h : Asks half r op) :
    answerM half r = some (op.result r.rs1 r.rs2) := by
  simp [answerM, h.1, h.2]

theorem not_half_of_answerM (h : answerM half r = none) :
    ∀ op, decodeM r.insn = some op → half op = false := by
  intro op hop
  cases hm : half op with
  | false => rfl
  | true => exact absurd h (by simp [answerM_of_asks ⟨hop, hm⟩])

end

/-- The answer to a request that is an M instruction. -/
def rv32m (r : Request) : Option (BitVec 32) :=
  (decodeM r.insn).map fun op => op.result r.rs1 r.rs2

/-- The factors of a multiplication, as the instruction reads its operands. -/
def MulDiv.factors (op : MulDiv) (x y : BitVec 32) : ℤ × ℤ :=
  match op with
  | mulh => (x.toInt, y.toInt)
  | mulhsu => (x.toInt, y.toNat)
  | _ => (x.toNat, y.toNat)

/-- The upper half of a product of 64 bits. -/
theorem upper_half (z : ℤ) :
    (BitVec.ofInt 64 z >>> 32).setWidth 32 = BitVec.ofInt 32 (z / 2 ^ 32) := by
  apply BitVec.eq_of_toNat_eq
  simp only [BitVec.toNat_setWidth, BitVec.toNat_ushiftRight, BitVec.toNat_ofInt,
    Nat.shiftRight_eq_div_pow]
  omega

theorem lower_half (x y : BitVec 32) :
    (BitVec.ofInt 64 ((x.toNat : ℤ) * y.toNat)).setWidth 32
      = BitVec.ofInt 32 (x.toInt * y.toInt) := by
  -- the signs of the factors do not reach the lower half
  have hlow : BitVec.ofInt 32 (x.toInt * y.toInt) = x * y := by
    rw [BitVec.ofInt_mul, BitVec.ofInt_toInt, BitVec.ofInt_toInt]
  rw [hlow]
  apply BitVec.eq_of_toNat_eq
  rw [BitVec.toNat_setWidth, BitVec.toNat_ofInt, BitVec.toNat_mul]
  norm_cast
  exact Nat.mod_mod_of_dvd _ (by decide)

/-- A multiplication asks for one half of the product of its factors. -/
theorem MulDiv.result_of_product {op : MulDiv} (hop : op.isMul = true) (x y : BitVec 32) :
    op.result x y =
      if op = mul then (BitVec.ofInt 64 ((op.factors x y).1 * (op.factors x y).2)).setWidth 32
      else (BitVec.ofInt 64 ((op.factors x y).1 * (op.factors x y).2) >>> 32).setWidth 32 := by
  cases op with
  | mul => exact (lower_half x y).symm
  | mulh => exact (upper_half _).symm
  | mulhsu => exact (upper_half _).symm
  | mulhu =>
      rw [if_neg (by decide), upper_half]
      apply BitVec.eq_of_toNat_eq
      simp only [result, factors, BitVec.toNat_ofNat, BitVec.toNat_ofInt]
      norm_cast
  | div | divu | rem | remu => cases hop

/-! ## The contract of a co-processor -/

/-- A co-processor that answers the requests of `answers`. It is `Quiet`
between requests, `Busy r k` after `k` edges of a request held for it, and
`Cooling` in the cycle after its answer, when the core has let go. -/
structure Contract {σ : Type} (u : PcpiUnit σ) (answers : Request → Option (BitVec 32)) where
  latency : Request → ℕ
  Quiet : σ → Prop
  Cooling : σ → Prop
  Busy : Request → ℕ → σ → Prop
  /-- Two edges in reset make any state quiet. -/
  reset : ∀ s i j, i.resetn = false → j.resetn = false → Quiet (u.step (u.step s i) j)
  cooling_of_quiet : ∀ s, Quiet s → Cooling s
  cooling_ready : ∀ s, Cooling s → (u.out s).pcpi_ready = false
  cooling_idle : ∀ s i, Cooling s → i.pcpi_valid = false → Quiet (u.step s i)
  quiet_wait : ∀ s i, Quiet s → (u.out (u.step s i)).pcpi_wait = false
  /-- Requests for others pass by. -/
  pass : ∀ s r, Quiet s → answers r = none → Quiet (u.step s r.held)
  start : ∀ s r, Quiet s → answers r ≠ none → Busy r 1 (u.step s r.held)
  serve : ∀ s r k, Busy r k s → k < latency r → Busy r (k + 1) (u.step s r.held)
  /-- Long requests are claimed from their fifth edge on. -/
  busy_wait : ∀ s r k, Busy r k s → 5 ≤ k → (u.out s).pcpi_wait = true
  busy_ready : ∀ s r k, Busy r k s → ((u.out s).pcpi_ready = true ↔ k = latency r)
  busy_wr : ∀ s r, Busy r (latency r) s → (u.out s).pcpi_wr = true
  busy_rd : ∀ s r, Busy r (latency r) s → (u.out s).pcpi_rd = answers r
  done : ∀ s r, Busy r (latency r) s → Cooling (u.step s r.held)
  latency_pos : ∀ r, 0 < latency r

/-! ## A unit under a held request -/

section

variable {σ : Type} {u : PcpiUnit σ} {answers : Request → Option (BitVec 32)}
  (c : Contract u answers)

/-- The unit after `k` edges of a request held on the interface, for it or for
the other unit. -/
def Contract.At (r : Request) (k : ℕ) (s : σ) : Prop :=
  if answers r ≠ none ∧ 0 < k then c.Busy r k s ∧ k ≤ c.latency r else c.Quiet s

theorem Contract.at_zero {r : Request} {s : σ} (h : c.Quiet s) : c.At r 0 s := by
  simpa [Contract.At] using h

theorem Contract.at_ready {r : Request} {k : ℕ} {s : σ} (h : c.At r k s) :
    (u.out s).pcpi_ready = true ↔ answers r ≠ none ∧ k = c.latency r := by
  unfold Contract.At at h
  have hpos := c.latency_pos r
  split at h
  · rename_i hbusy
    -- the unit is serving
    rw [c.busy_ready s r k h.1]
    exact ⟨fun hk => ⟨hbusy.1, hk⟩, fun hk => hk.2⟩
  · rename_i hquiet
    -- quiet: no edge of a request of its own has been seen
    rw [c.cooling_ready s (c.cooling_of_quiet s h)]
    refine ⟨fun hf => absurd hf Bool.false_ne_true, fun hk => ?_⟩
    exact absurd ⟨hk.1, hk.2 ▸ hpos⟩ hquiet

theorem Contract.at_step {r : Request} {k : ℕ} {s : σ} (h : c.At r k s)
    (hready : (u.out s).pcpi_ready = false) : c.At r (k + 1) (u.step s r.held) := by
  have hnot : ¬ (answers r ≠ none ∧ k = c.latency r) := fun hk =>
    Bool.false_ne_true (hready.symm.trans ((c.at_ready h).mpr hk))
  have hpos := c.latency_pos r
  unfold Contract.At at h ⊢
  by_cases hans : answers r ≠ none
  · rw [if_pos ⟨hans, Nat.succ_pos k⟩]
    split at h
    · rename_i hbusy
      have hlt : k < c.latency r := by
        have hne : k ≠ c.latency r := fun hk => hnot ⟨hans, hk⟩
        omega
      -- under way, and no answer yet: one edge nearer to it
      exact ⟨c.serve s r k h.1 hlt, hlt⟩
    · rename_i hquiet
      -- quiet though the request is its own: this is the first edge of it
      obtain rfl : k = 0 := by
        by_contra hk
        exact hquiet ⟨hans, Nat.pos_of_ne_zero hk⟩
      exact ⟨c.start s r h hans, hpos⟩
  · rw [if_neg (fun hk => hans hk.1)] at h ⊢
    exact c.pass s r h (not_not.mp hans)

/-- The edge of the answer, seen by the unit that gives it and by the other. -/
theorem Contract.cooling_step {r : Request} {k : ℕ} {s : σ} (h : c.At r k s)
    (hdone : answers r ≠ none → k = c.latency r) : c.Cooling (u.step s r.held) := by
  have hpos := c.latency_pos r
  unfold Contract.At at h
  by_cases hans : answers r ≠ none
  · rw [if_pos ⟨hans, hdone hans ▸ hpos⟩, hdone hans] at h
    exact c.done s r h.1
  · rw [if_neg (fun hk => hans hk.1)] at h
    -- the answer was the other unit's
    exact c.cooling_of_quiet _ (c.pass s r h (not_not.mp hans))

theorem Contract.at_wait {r : Request} {k : ℕ} {s : σ} (h : c.At r k s) (hans : answers r ≠ none)
    (hk : 5 ≤ k) : (u.out s).pcpi_wait = true := by
  unfold Contract.At at h
  rw [if_pos ⟨hans, by omega⟩] at h
  exact c.busy_wait s r k h.1 hk

theorem Contract.at_silent {r : Request} {k : ℕ} {s : σ} (h : c.At r k s)
    (hans : answers r = none) : (u.out (u.step s r.held)).pcpi_wait = false := by
  unfold Contract.At at h
  rw [if_neg (fun hk => hk.1 hans)] at h
  exact c.quiet_wait s _ h

theorem Contract.at_answer {r : Request} {k : ℕ} {s : σ} (h : c.At r k s)
    (hready : (u.out s).pcpi_ready = true) :
    (u.out s).pcpi_wr = true ∧ (u.out s).pcpi_rd = answers r := by
  rcases (c.at_ready h).mp hready with ⟨hans, hk⟩
  have hpos := c.latency_pos r
  unfold Contract.At at h
  rw [if_pos ⟨hans, hk ▸ hpos⟩, hk] at h
  exact ⟨c.busy_wr s r h.1, c.busy_rd s r h.1⟩

end

end SocRtl.Cpu
