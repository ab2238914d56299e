import SocRtl.Handshake.Chain

/-!
# SocRtl.Alu.Alu — the two-stage multiply-add pipeline `alu.v`

The first stage multiplies two bytes and keeps the third, the second stage
adds. Each stage is an `axi_like_handshake`; its data register loads whenever
the stage is ready, with or without an incoming word. The widths of the
registers (16 bits for the product, 17 for the sum) lose nothing.
-/

set_option linter.dupNamespace false

namespace SocRtl.Alu

open Handshake

/-- The registers of `alu`. `rdRdyMul` and `aluRdRdy` are the `valid_reg`s of
`u_rdy_ack_mul` and `u_rdy_ack_add`. -/
structure Alu where
  rdRdyMul : Bool
  aluRdRdy : Bool
  xtMulAb : BitVec 16
  xtC1t : BitVec 8
  xtAddAbC : BitVec 17

/-- The inputs a clock edge samples. -/
structure AluIn where
  valA : BitVec 8
  valB : BitVec 8
  valC : BitVec 8
  aluWrRdy : Bool
  aluRdAck : Bool

namespace Alu

def reset : Alu := ⟨false, false, 0, 0, 0⟩

/-- `wr_ack_add`: the adder stage is ready. -/
def wrAckAdd (s : Alu) (aluRdAck : Bool) : Bool := readyO s.aluRdRdy aluRdAck

/-- `alu_wr_ack`: the multiplier stage is ready. -/
def aluWrAck (s : Alu) (aluRdAck : Bool) : Bool := readyO s.rdRdyMul (s.wrAckAdd aluRdAck)

/-- `alu_result`. -/
def aluResult (s : Alu) : BitVec 17 := s.xtAddAbC

/-- The product of two bytes in 16 bits. -/
def mulAb (valA valB : BitVec 8) : BitVec 16 := valA.setWidth 16 * valB.setWidth 16

/-- A product plus a byte in 17 bits. -/
def addAbC (ab : BitVec 16) (c : BitVec 8) : BitVec 17 := ab.setWidth 17 + c.setWidth 17

/-- One clock edge. -/
def step (s : Alu) (i : AluIn) : Alu where
  rdRdyMul := nextValid s.rdRdyMul i.aluWrRdy (s.wrAckAdd i.aluRdAck)
  aluRdRdy := nextValid s.aluRdRdy s.rdRdyMul i.aluRdAck
  xtMulAb := if s.aluWrAck i.aluRdAck then mulAb i.valA i.valB else s.xtMulAb
  xtC1t := if s.aluWrAck i.aluRdAck then i.valC else s.xtC1t
  xtAddAbC := if s.wrAckAdd i.aluRdAck then addAbC s.xtMulAb s.xtC1t else s.xtAddAbC

/-! ## The two slots -/

/-- The result of the word in the multiplier stage, if it holds one. -/
def mulSlot (s : Alu) : List (BitVec 17) :=
  if s.rdRdyMul then [addAbC s.xtMulAb s.xtC1t] else []

/-- The result in the adder stage, if it holds one. -/
def addSlot (s : Alu) : List (BitVec 17) := if s.aluRdRdy then [s.xtAddAbC] else []

/-- What moves from the multiplier to the adder at the edge. -/
def mulOut (s : Alu) (aluRdAck : Bool) : List (BitVec 17) :=
  if s.wrAckAdd aluRdAck then s.mulSlot else []

/-- What leaves the adder at the edge. -/
def addOut (s : Alu) (aluRdAck : Bool) : List (BitVec 17) :=
  if s.aluRdRdy && aluRdAck then [s.xtAddAbC] else []

/-- The result of the word the multiplier takes in at the edge. -/
def mulIn (s : Alu) (i : AluIn) : List (BitVec 17) :=
  if i.aluWrRdy && s.aluWrAck i.aluRdAck then [addAbC (mulAb i.valA i.valB) i.valC] else []

/-- The multiplier stage passes words on in order, none lost or invented. -/
theorem mulSlot_step (s : Alu) (i : AluIn) :
    s.mulSlot ++ s.mulIn i = s.mulOut i.aluRdAck ++ (s.step i).mulSlot := by
  have hslot : s.mulSlot = slot s.rdRdyMul (addAbC s.xtMulAb s.xtC1t) := rfl
  have hin : s.mulIn i = slot (wEn s.rdRdyMul i.aluWrRdy (s.wrAckAdd i.aluRdAck))
      (addAbC (mulAb i.valA i.valB) i.valC) := rfl
  have hout : s.mulOut i.aluRdAck
      = slot (rEn s.rdRdyMul (s.wrAckAdd i.aluRdAck)) (addAbC s.xtMulAb s.xtC1t) := by
    unfold mulOut mulSlot slot rEn
    cases s.rdRdyMul <;> cases s.wrAckAdd i.aluRdAck <;> rfl
  rw [hslot, hin, hout]
  apply slot_step
  · intro hready _
    simp [step, aluWrAck, hready]
  · intro hready
    simp [step, aluWrAck, hready]

/-- The adder stage passes words on in order, none lost or invented. -/
theorem addSlot_step (s : Alu) (i : AluIn) :
    s.addSlot ++ s.mulOut i.aluRdAck = s.addOut i.aluRdAck ++ (s.step i).addSlot := by
  have hslot : s.addSlot = slot s.aluRdRdy s.xtAddAbC := rfl
  -- what leaves the product register is what the adder stage accepts
  have hin : s.mulOut i.aluRdAck
      = slot (wEn s.aluRdRdy s.rdRdyMul i.aluRdAck) (addAbC s.xtMulAb s.xtC1t) := by
    unfold mulOut mulSlot slot wEn wrAckAdd readyO
    cases s.rdRdyMul <;> cases s.aluRdRdy <;> cases i.aluRdAck <;> rfl
  have hout : s.addOut i.aluRdAck = slot (rEn s.aluRdRdy i.aluRdAck) s.xtAddAbC := rfl
  rw [hslot, hin, hout]
  -- the register loads when it is ready and keeps its word otherwise
  apply slot_step
  · intro hready _
    simp [step, wrAckAdd, hready]
  · intro hready
    simp [step, wrAckAdd, hready]

/-! ## Exactness -/

/-- The registers are wide enough for the exact value of `a * b + c`. -/
theorem toNat_addAbC_mulAb (a b c : BitVec 8) :
    (addAbC (mulAb a b) c).toNat = a.toNat * b.toNat + c.toNat := by
  have ha := a.isLt
  have hb := b.isLt
  have hc := c.isLt
  -- at most `255 * 255`, so neither register wraps
  have hab : a.toNat * b.toNat ≤ 255 * 255 := Nat.mul_le_mul (by omega) (by omega)
  simp only [addAbC, mulAb, BitVec.toNat_add, BitVec.toNat_mul, BitVec.toNat_setWidth]
  rw [Nat.mod_eq_of_lt (a := a.toNat) (by omega), Nat.mod_eq_of_lt (a := b.toNat) (by omega)]
  generalize a.toNat * b.toNat = ab at hab ⊢
  omega

/-- The product register alone is wide enough for the product. -/
theorem toNat_mulAb (a b : BitVec 8) : (mulAb a b).toNat = a.toNat * b.toNat := by
  have ha := a.isLt
  have hb := b.isLt
  have hab : a.toNat * b.toNat ≤ 255 * 255 := Nat.mul_le_mul (by omega) (by omega)
  simp only [mulAb, BitVec.toNat_mul, BitVec.toNat_setWidth]
  rw [Nat.mod_eq_of_lt (a := a.toNat) (by omega), Nat.mod_eq_of_lt (a := b.toNat) (by omega)]
  omega

/-! ## The pipeline as a chain of stages -/

/-- The two stages of `alu`, each with what stands before its register. -/
def stages : Chain (BitVec 8 × BitVec 8 × BitVec 8) (BitVec 17) :=
  (Chain.stage .axiLike fun x => (mulAb x.1 x.2.1, x.2.2)).andThen .axiLike
    fun y => addAbC y.1 y.2

/-- The registers of `alu`, stage by stage. -/
def toRegs (s : Alu) : stages.Regs :=
  Chain.snoc (Chain.single ⟨s.rdRdyMul, (s.xtMulAb, s.xtC1t)⟩) ⟨s.aluRdRdy, s.xtAddAbC⟩

/-- The inputs of `alu`, as the chain sees them. -/
def toChainIn (i : AluIn) : ChainIn (BitVec 8 × BitVec 8 × BitVec 8) :=
  ⟨i.aluWrRdy, (i.valA, i.valB, i.valC), i.aluRdAck⟩

/-- A register loaded on a pair of values is the pair of registers loaded. -/
theorem ite_pair {α β : Type} (b : Bool) (x x' : α) (y y' : β) :
    (if b then (x, y) else (x', y')) = (if b then x else x', if b then y else y') := by
  cases b <;> rfl

/-- `alu` is the chain: both make the same step. -/
theorem toRegs_step (s : Alu) (i : AluIn) :
    (s.step i).toRegs = stages.step s.toRegs (toChainIn i) := by
  have hpair := ite_pair (s.aluWrAck i.aluRdAck) (mulAb i.valA i.valB) s.xtMulAb i.valC s.xtC1t
  have hmul : (⟨(s.step i).rdRdyMul, ((s.step i).xtMulAb, (s.step i).xtC1t)⟩ :
        Stage (BitVec 16 × BitVec 8))
      = (⟨s.rdRdyMul, (s.xtMulAb, s.xtC1t)⟩ : Stage (BitVec 16 × BitVec 8)).step .axiLike
          i.aluWrRdy (mulAb i.valA i.valB, i.valC) (s.wrAckAdd i.aluRdAck) :=
    congrArg (Stage.mk _) hpair.symm
  exact congrArg (fun st => Chain.snoc (Chain.single st) _) hmul

theorem isReset_toRegs : stages.IsReset reset.toRegs := And.intro rfl rfl

/-! ## Exact results -/

/-- The operands accepted at the edge. -/
def accepted (s : Alu) (i : AluIn) : List (BitVec 8 × BitVec 8 × BitVec 8) :=
  if i.aluWrRdy && s.aluWrAck i.aluRdAck then [(i.valA, i.valB, i.valC)] else []

/-- The result delivered at the edge. -/
def delivered (s : Alu) (i : AluIn) : List (BitVec 17) := s.addOut i.aluRdAck

/-- `a * b + c`. -/
def mulAdd (x : BitVec 8 × BitVec 8 × BitVec 8) : ℕ := x.1.toNat * x.2.1.toNat + x.2.2.toNat

theorem toNat_apply_stages (x : BitVec 8 × BitVec 8 × BitVec 8) :
    (stages.apply x).toNat = mulAdd x :=
  toNat_addAbC_mulAb x.1 x.2.1 x.2.2

theorem accepted_eq (ins : List AluIn) :
    events step accepted reset ins
      = events stages.step stages.accepted reset.toRegs (ins.map toChainIn) :=
  events_component toRegs_step stages.accepted reset ins

theorem delivered_eq (ins : List AluIn) :
    events step delivered reset ins
      = events stages.step stages.delivered reset.toRegs (ins.map toChainIn) :=
  events_component toRegs_step stages.delivered reset ins

/-- The product register holds the product of the operands accepted last, and
next to it is their own addend. -/
def MulHolds (acc : List (BitVec 8 × BitVec 8 × BitVec 8)) (s : Alu) : Prop :=
  s.rdRdyMul = true → ∃ a b c, acc.getLast? = some (a, b, c)
    ∧ s.xtMulAb.toNat = a.toNat * b.toNat ∧ s.xtC1t = c

theorem mulHolds_step {acc : List (BitVec 8 × BitVec 8 × BitVec 8)} {s : Alu}
    (h : MulHolds acc s) (i : AluIn) : MulHolds (acc ++ s.accepted i) (s.step i) := by
  intro hvalid
  cases hack : s.aluWrAck i.aluRdAck with
  | true =>
      -- the stage loads: what it holds is what it was offered
      have hwr : i.aluWrRdy = true := by
        rw [← hvalid]
        exact (nextValid_of_ready hack i.aluWrRdy).symm
      refine ⟨i.valA, i.valB, i.valC, ?_, ?_, ?_⟩
      · simp [accepted, hwr, hack]
      · simp [step, hack, toNat_mulAb]
      · simp [step, hack]
  | false =>
      -- the stage keeps its product, and nothing is accepted that would come after it
      obtain ⟨hheld, _, _⟩ := nextValid_of_not_ready hack i.aluWrRdy
      obtain ⟨a, b, c, hlast, hmul, hc⟩ := h hheld
      refine ⟨a, b, c, ?_, ?_, ?_⟩
      · simp [accepted, hack, hlast]
      · simp [step, hack, hmul]
      · simp [step, hack, hc]

/-- From reset on, `alu` delivers `a * b + c`, as a natural number, for each
triple it accepts, in order and once; the results not yet delivered are in its
two stages, and two acknowledged cycles bring them out. The product in the
multiplier stage is exact and stands next to the addend of its own triple. -/
theorem delivers_mulAdd (ins : List AluIn) :
    (events step accepted reset ins).map mulAdd
        = (events step delivered reset ins ++ ((run step reset ins).addSlot
            ++ (run step reset ins).mulSlot)).map BitVec.toNat
      ∧ (∀ tail : List AluIn, (∀ i ∈ tail, i.aluRdAck = true) → 2 ≤ tail.length →
          (events step accepted reset ins).map mulAdd
            <+: (events step delivered reset (ins ++ tail)).map BitVec.toNat)
      ∧ MulHolds (events step accepted reset ins) (run step reset ins) := by
  have hspec : (mulAdd : BitVec 8 × BitVec 8 × BitVec 8 → ℕ) = BitVec.toNat ∘ stages.apply :=
    funext fun x => (toNat_apply_stages x).symm
  refine ⟨?_, ?_, ?_⟩
  · have hheld : stages.held (run step reset ins).toRegs
        = (run step reset ins).addSlot ++ (run step reset ins).mulSlot :=
      congrArg _ (map_slot _ _ _)
    -- `alu` is a chain of two stages, and every part below is that of the chain
    have hall := stages.accepted_eq_delivered isReset_toRegs (ins.map toChainIn)
    rw [← accepted_eq, ← delivered_eq, ← run_component toRegs_step, hheld] at hall
    rw [hspec, ← List.map_map, hall]
  · intro tail htail hlen
    -- the tail acknowledges in every cycle, so the two stages drain
    have hready : ∀ i ∈ tail.map toChainIn, i.readyI = true := by
      intro i hi
      rcases List.mem_map.mp hi with ⟨j, hj, rfl⟩
      exact htail j hj
    have hdrain := stages.delivered_of_drained isReset_toRegs (ins.map toChainIn) hready
      (by rw [List.length_map]; exact hlen)
    rw [← List.map_append, ← accepted_eq, ← delivered_eq] at hdrain
    rw [hspec, ← List.map_map]
    exact hdrain.map BitVec.toNat
  · refine run_invariant (fun h s => MulHolds (events step accepted reset h) s) ?_ ?_ ins
    · intro hvalid
      exact Bool.noConfusion hvalid
    · intro h i ih
      rw [events_concat]
      exact mulHolds_step ih i

end Alu

end SocRtl.Alu
