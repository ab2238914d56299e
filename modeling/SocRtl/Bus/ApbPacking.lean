import SocRtl.Bus.ApbRegs

/-!
# SocRtl.Bus.ApbPacking — the packed ports of `apb_regs`

The registers are declared as `NoApbRegs` words of `RegDataWidth` bits, the
ports `reg_init_i` and `reg_q_o` the other way round: `RegDataWidth` elements
of `NoApbRegs` bits, in the block as well as in the wrapper. Element `i` of a
port is bits `i * NoApbRegs` and up, and there is none for `i` from
`RegDataWidth` on. Where a port is read as a whole, as the default of `reg_d`,
the same bits are cut into words of `RegDataWidth`.

`ApbRegs` takes the ports as arrays of registers; for a square array that is
what they are (`regInitI_square`).
-/

namespace SocRtl.Bus

/-! ## Model -/

/-- The parameters and the constant inputs of an instance, `regInitI` by the
elements of the port. The elements from `W` on do not exist and nothing reads
them. -/
structure PackedCfg (N W : ℕ) where
  addrOffset : ℕ
  readOnly : BitVec N
  baseAddrI : BitVec 32
  regInitI : ℕ → BitVec N

namespace PackedCfg

variable {N W : ℕ} (c : PackedCfg N W)

/-- Element `i` of `reg_init_i`. An element that is not there reads as unknown. -/
def initElem (i : ℕ) : Option (BitVec N) := if i < W then some (c.regInitI i) else none

/-- Bit `k` of `reg_init_i`. -/
def initBit (k : ℕ) : Bool := (c.regInitI (k / N)).getLsbD (k % N)

/-- Word `r` of `reg_init_i`, cut as `reg_d` is. -/
def initWord (r : ℕ) : BitVec W :=
  (BitVec.ofBoolListLE ((List.range W).map fun j => c.initBit (r * W + j))).setWidth W

/-- The block as its combinational process sees it: what an unwritten bit of
`reg_d` falls back on is the whole of `reg_init_i`. -/
def block : ApbRegsCfg N W where
  addrOffset := c.addrOffset
  readOnly := c.readOnly
  baseAddrI := c.baseAddrI
  regInitI := fun r => c.initWord r.toNat

/-- One clock edge. -/
def step (s : ApbRegs N W) (req : ApbReq) : ApbRegs N W := ApbRegs.step c.block s req

/-- A state after reset: a register loads its element of `reg_init_i`, cut or
extended to its width. One whose element is not there holds anything. -/
def IsReset (s : ApbRegs N W) : Prop :=
  s.hasResetQ = false ∧
    ∀ r, ∀ e, c.initElem r.toNat = some e → s.regQ r = e.setWidth W

/-- Register `i`. -/
def reg (s : ApbRegs N W) (i : ℕ) : BitVec W := s.regQ (BitVec.ofNat (idxWidth N) i)

/-- Element `i` of `reg_q_o`: the block drives those below `N`, and an element
that is not there reads as unknown. -/
def qElem (s : ApbRegs N W) (i : ℕ) : Option (BitVec N) :=
  if i < N ∧ i < W then
    some (if c.readOnly.getLsbD i then c.regInitI i else (reg s i).setWidth N)
  else none

end PackedCfg

/-- `apb_regs_intf_wrap`. The wrapper drives the elements 0 to 2 and those below
`NO_APB_REGS`; `x` is what floats on the others. -/
def apbRegsPackedWrap (N W : ℕ) (x : ℕ → BitVec N) : PackedCfg N W where
  addrOffset := 4
  readOnly := 0
  baseAddrI := ApbRegs.socMemMapAxiApbStartAddr
  regInitI := fun i =>
    if i = 0 then 0
    else if i = 1 then (0x00033333 : BitVec 32).setWidth N
    else if i = 2 then (0x000000ff : BitVec 32).setWidth N
    else if i < N then 0
    else x i

/-- The block and the wrapper agree on the packing: in every run from reset
element `i` of `reg_q_o` is the contents of register `i`, and after reset
register `i` holds element `i` of `reg_init_i`, for all `NoApbRegs` registers. -/
structure PackingAgrees (N W : ℕ) : Prop where
  out : ∀ (x : ℕ → BitVec N) (s : ApbRegs N W), (apbRegsPackedWrap N W x).IsReset s →
    ∀ (reqs : List ApbReq), ∀ i < N,
      ∃ e, (apbRegsPackedWrap N W x).qElem (run (apbRegsPackedWrap N W x).step s reqs) i = some e ∧
        e.toNat = (PackedCfg.reg (run (apbRegsPackedWrap N W x).step s reqs) i).toNat
  init : ∀ (x : ℕ → BitVec N) (s : ApbRegs N W), (apbRegsPackedWrap N W x).IsReset s →
    ∀ i < N, ∃ e, (apbRegsPackedWrap N W x).initElem i = some e ∧
      (PackedCfg.reg s i).toNat = e.toNat

/-! ## Square arrays -/

namespace PackedCfg

variable {N W : ℕ}

theorem toNat_ofNat_idx {i : ℕ} (hi : i < N) : (BitVec.ofNat (idxWidth N) i).toNat = i := by
  have hlt : N ≤ 2 ^ idxWidth N := by
    unfold idxWidth
    split
    · exact Nat.le_pow_clog (by decide) N
    · omega
  rw [BitVec.toNat_ofNat, Nat.mod_eq_of_lt (by omega)]

theorem getLsbD_initWord (c : PackedCfg N W) (r : ℕ) {j : ℕ} (hj : j < W) :
    (c.initWord r).getLsbD j = c.initBit (r * W + j) := by
  unfold initWord
  rw [BitVec.getLsbD_setWidth, BitVec.getLsbD_ofBoolListLE, List.getD_eq_getElem?_getD,
    List.getElem?_map, List.getElem?_range hj]
  simp [hj]

/-- In a square array the words of a port are its elements, so that `ApbRegs`
describes the block. -/
theorem regInitI_square (c : PackedCfg N N) (r : BitVec (idxWidth N)) :
    c.block.regInitI r = c.regInitI r.toNat := by
  apply BitVec.eq_of_getLsbD_eq
  intro j hj
  show (c.initWord r.toNat).getLsbD j = (c.regInitI r.toNat).getLsbD j
  rw [getLsbD_initWord c _ hj, initBit, Nat.mul_comm, Nat.mul_add_div (by omega),
    Nat.div_eq_of_lt hj, Nat.mul_add_mod, Nat.mod_eq_of_lt hj, Nat.add_zero]

/-- The state that `ApbRegs` starts from is one after reset. -/
theorem isReset_square (c : PackedCfg N N) : c.IsReset (ApbRegs.reset c.block) := by
  refine ⟨rfl, ?_⟩
  intro r e he
  show c.block.regInitI r = _
  unfold initElem at he
  split at he
  · rw [regInitI_square, Option.some.inj he, BitVec.setWidth_eq]
  · exact absurd he (Option.some_ne_none e).symm

end PackedCfg

/-! ## When the packing agrees -/

open PackedCfg

/-- A state after reset exists whatever the shape. -/
theorem exists_isReset {N W : ℕ} (c : PackedCfg N W) :
    c.IsReset ⟨false, fun r => (c.regInitI r.toNat).setWidth W⟩ := by
  refine ⟨rfl, ?_⟩
  intro r e he
  unfold initElem at he
  split at he
  · exact congrArg (BitVec.setWidth W) (Option.some.inj he)
  · exact absurd he (Option.some_ne_none e).symm

/-- More registers than elements: the element of register `W` is not there. -/
theorem not_agrees_of_few_elements {N W : ℕ} (h : W < N) : ¬ PackingAgrees N W := by
  intro hagrees
  rcases hagrees.init (fun _ => 0) _ (exists_isReset _) W h with ⟨e, he, _⟩
  unfold initElem at he
  rw [if_neg (Nat.lt_irrefl W)] at he
  exact absurd he (Option.some_ne_none e).symm

/-- A write of a whole word to register 0. -/
def writeWord (w : BitVec 32) : ApbReq :=
  ⟨true, true, true, ApbRegs.socMemMapAxiApbStartAddr, w, 0b1111⟩

theorem reg_writeWord {N W : ℕ} (hN : 1 ≤ N) (hN32 : N ≤ 32) (x : ℕ → BitVec N)
    (s : ApbRegs N W) (w : BitVec 32) :
    PackedCfg.reg ((apbRegsPackedWrap N W x).step s (writeWord w)) 0 = w.setWidth W := by
  -- the first address of the window is that of register 0
  have hdecode : ApbRegs.decode (apbRegsPackedWrap N W x).block
      ApbRegs.socMemMapAxiApbStartAddr = ⟨0, true, false⟩ := by
    have hstart : ApbRegs.socMemMapAxiApbStartAddr.toNat = 0x00110000 := rfl
    have hwindow : ApbRegs.socMemMapAxiApbStartAddr.toNat + N * 4 < 2 ^ 32 := by omega
    have hin : ApbRegs.socMemMapAxiApbStartAddr.toNat
        < ApbRegs.socMemMapAxiApbStartAddr.toNat + N * 4 := by omega
    have hdecoded := ApbRegs.decode_of_window (c := (apbRegsPackedWrap N W x).block)
      (Nat.succ_pos 3) hwindow (Nat.le_refl _) hin
    rw [Nat.sub_self, Nat.zero_div, BitVec.setWidth_zero] at hdecoded
    exact hdecoded
  have hhit : ApbRegs.Hits (apbRegsPackedWrap N W x).block (writeWord w) (BitVec.ofNat _ 0) := by
    refine ⟨rfl, rfl, ?_, ?_, ?_⟩
    · exact congrArg Decoded.decValidO hdecode
    · exact congrArg Decoded.idxO hdecode
    · exact BitVec.getLsbD_zero
  unfold PackedCfg.reg PackedCfg.step
  rw [ApbRegs.step_regQ, if_pos ⟨hhit, by show (0b1111#4) ≠ 0; decide⟩]
  unfold ApbRegs.writeBits
  exact congrArg (BitVec.setWidth W) (Bytes.mergeBytes_ones _ _)

/-- Wider registers than elements: the upper bits of a register do not show. -/
theorem not_agrees_of_narrow_elements {N W : ℕ} (hN : 1 ≤ N) (h : N < W) (hW : W ≤ 32) :
    ¬ PackingAgrees N W := by
  intro hagrees
  have hreset := exists_isReset (apbRegsPackedWrap N W fun _ => 0)
  rcases hagrees.out (fun _ => 0) _ hreset [writeWord (BitVec.ofNat 32 (2 ^ N))] 0 hN with
    ⟨e, _, he⟩
  rw [run_cons, run_nil, reg_writeWord hN (by omega), BitVec.toNat_setWidth,
    BitVec.toNat_ofNat] at he
  -- the element is too short for the bit that was written
  have hlt := e.isLt
  have hpow : 2 ^ N < 2 ^ W := Nat.pow_lt_pow_right (by decide) h
  have hpow32 : 2 ^ W ≤ 2 ^ 32 := Nat.pow_le_pow_right (by decide) hW
  rw [Nat.mod_eq_of_lt (b := 2 ^ 32) (by omega), Nat.mod_eq_of_lt hpow] at he
  omega

theorem agrees_square (N : ℕ) : PackingAgrees N N := by
  constructor
  · intro x s _ reqs i hi
    refine ⟨_, if_pos ⟨hi, hi⟩, ?_⟩
    have hro : (apbRegsPackedWrap N N x).readOnly.getLsbD i = false := BitVec.getLsbD_zero
    rw [hro, if_neg Bool.false_ne_true, BitVec.setWidth_eq]
  · intro x s hs i hi
    have helem : (apbRegsPackedWrap N N x).initElem i
        = some ((apbRegsPackedWrap N N x).regInitI i) :=
      if_pos hi
    refine ⟨_, helem, ?_⟩
    -- register `i` is reset from element `i`, which is there
    have hidx := toNat_ofNat_idx hi
    unfold PackedCfg.reg
    rw [hs.2 (BitVec.ofNat _ i) _ (by rw [hidx]; exact helem), BitVec.setWidth_eq]

/-- The block and the wrapper agree on the packing if and only if there are as
many registers as a register has bits. -/
theorem packingAgrees_iff (N W : ℕ) (hN : 1 ≤ N) (hW : W ≤ 32) :
    PackingAgrees N W ↔ N = W := by
  constructor
  · intro h
    rcases Nat.lt_trichotomy N W with hlt | heq | hgt
    · exact absurd h (not_agrees_of_narrow_elements hN hlt hW)
    · exact heq
    · exact absurd h (not_agrees_of_few_elements hgt)
  · rintro rfl
    exact agrees_square N

/-- The block of the SoC. -/
theorem packingAgrees_soc : PackingAgrees 32 32 :=
  (packingAgrees_iff 32 32 (by decide) (by decide)).mpr rfl

/-- The defaults of the wrapper: 342 registers of 16 bits, and no element 16. -/
theorem not_packingAgrees_default :
    ¬ PackingAgrees 342 16 ∧ (apbRegsPackedWrap 342 16 fun _ => 0).initElem 16 = none := by
  refine ⟨?_, rfl⟩
  intro h
  rcases h.init (fun _ => 0) _ (exists_isReset _) 16 (by decide) with ⟨e, he, _⟩
  exact absurd he (Option.some_ne_none e).symm

end SocRtl.Bus
