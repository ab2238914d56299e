import Mathlib.Algebra.Group.Nat.Defs
import Mathlib.Data.Nat.Log
import Mathlib.Logic.Function.Basic
import SocRtl.Bus.AddrDecode
import SocRtl.Lib.Bytes
import SocRtl.Lib.Clocked

/-!
# SocRtl.Bus.ApbRegs — the APB register block `apb_regs`

`NoApbRegs` registers of `RegDataWidth` bits behind an APB port of 32 bits. A
write enables the register it addresses and puts the strobed bits over a default
for the others. The default is meant to be the stored value once the block has
been reset; but the flag that says so is loaded from itself, stays low, and so
the default is always the initial value: a write with some strobes low resets
the bytes it should leave alone (`byteStore_iff`).
-/

namespace SocRtl.Bus

open Bytes

/-! ## Model -/

/-- `IdxWidth`. -/
def idxWidth (noApbRegs : ℕ) : ℕ := if 1 < noApbRegs then Nat.clog 2 noApbRegs else 1

/-- The parameters and the constant inputs of an instance. Registers are indexed
by `idx_t`; the block has those below `N`. -/
structure ApbRegsCfg (N W : ℕ) where
  addrOffset : ℕ
  readOnly : BitVec N
  baseAddrI : BitVec 32
  regInitI : BitVec (idxWidth N) → BitVec W

/-- The registers. -/
structure ApbRegs (N W : ℕ) where
  hasResetQ : Bool
  regQ : BitVec (idxWidth N) → BitVec W

/-- The APB request, without `pprot`. -/
structure ApbReq where
  psel : Bool
  penable : Bool
  pwrite : Bool
  paddr : BitVec 32
  pwdata : BitVec 32
  pstrb : BitVec 4

/-- The APB response. `pslverr` is high for `RESP_SLVERR`. -/
structure ApbResp where
  pready : Bool
  prdata : BitVec 32
  pslverr : Bool

namespace ApbRegs

variable {N W : ℕ} (c : ApbRegsCfg N W)

/-- Reset. -/
def reset : ApbRegs N W := ⟨false, c.regInitI⟩

/-- `addr_map`, from register 0 up. -/
def addrMap : List (Rule 32) :=
  (List.range N).map fun i =>
    ⟨BitVec.ofNat 32 i, c.baseAddrI + BitVec.ofNat 32 (i * c.addrOffset),
      c.baseAddrI + BitVec.ofNat 32 ((i + 1) * c.addrOffset)⟩

def decode (paddr : BitVec 32) : Decoded (idxWidth N) := addrDecode (addrMap c) paddr

def readOnly (r : BitVec (idxWidth N)) : Bool := c.readOnly.getLsbD r.toNat

/-- The loop over the bits of a register: the strobed ones are written. -/
def writeBits (pstrb : BitVec 4) (pwdata : BitVec 32) (d : BitVec W) : BitVec W :=
  (mergeBytes pstrb pwdata (d.setWidth 32)).setWidth W

/-- What the combinational process drives. -/
structure Comb (N W : ℕ) where
  regD : BitVec (idxWidth N) → BitVec W
  regUpdate : BitVec (idxWidth N) → Bool
  respO : ApbResp

/-- The default assignments. -/
def comb0 (s : ApbRegs N W) (req : ApbReq) : Comb N W where
  regD := if s.hasResetQ then s.regQ else c.regInitI
  regUpdate := fun _ => false
  respO := ⟨req.psel && req.penable, 0x0badb10c, false⟩

def slverr (o : Comb N W) : Comb N W := { o with respO := { o.respO with pslverr := true } }

/-- The combinational process. -/
def comb (s : ApbRegs N W) (req : ApbReq) : Comb N W :=
  let o := comb0 c s req
  let regIdx := (decode c req.paddr).idxO
  if req.psel then
    if !(decode c req.paddr).decValidO then slverr o
    else if req.pwrite then
      if !readOnly c regIdx then
        { o with
          regD := Function.update o.regD regIdx
            (writeBits req.pstrb req.pwdata (o.regD regIdx))
          regUpdate := Function.update o.regUpdate regIdx (decide (req.pstrb ≠ 0)) }
      else slverr o
    else if !readOnly c regIdx then
      { o with respO := { o.respO with prdata := (s.regQ regIdx).setWidth 32 } }
    else { o with respO := { o.respO with prdata := (c.regInitI regIdx).setWidth 32 } }
  else o

/-- One clock edge. The flag `has_reset_q` is loaded from itself; nothing reads
`has_reset_d`, the constant one that stands beside it. -/
def step (s : ApbRegs N W) (req : ApbReq) : ApbRegs N W where
  hasResetQ := s.hasResetQ
  regQ := fun r => if (comb c s req).regUpdate r then (comb c s req).regD r else s.regQ r

/-- `reg_q_o`. -/
def regQO (s : ApbRegs N W) (r : BitVec (idxWidth N)) : BitVec W :=
  if readOnly c r then c.regInitI r else s.regQ r

/-! ## What an edge does -/

/-- The request writes register `r`. -/
def Hits (req : ApbReq) (r : BitVec (idxWidth N)) : Prop :=
  req.psel = true ∧ req.pwrite = true ∧ (decode c req.paddr).decValidO = true ∧
    (decode c req.paddr).idxO = r ∧ readOnly c r = false

instance (req : ApbReq) (r : BitVec (idxWidth N)) : Decidable (Hits c req r) :=
  inferInstanceAs (Decidable (_ ∧ _ ∧ _ ∧ _ ∧ _))

variable {c}

/-- What the process drives for the register that is written. -/
theorem comb_of_hits (s : ApbRegs N W) {req : ApbReq} {r : BitVec (idxWidth N)}
    (h : Hits c req r) :
    (comb c s req).regUpdate r = decide (req.pstrb ≠ 0) ∧
      (comb c s req).regD r
        = writeBits req.pstrb req.pwdata (if s.hasResetQ then s.regQ r else c.regInitI r) := by
  rcases h with ⟨hsel, hwrite, hvalid, hidx, hro⟩
  subst hidx
  unfold comb comb0
  simp only [hsel, hwrite, hvalid, hro, Bool.not_true, Bool.not_false, Bool.false_eq_true, if_true,
    if_false, Function.update_self, true_and]
  cases s.hasResetQ <;> rfl

/-- No other register is enabled. -/
theorem comb_of_not_hits (s : ApbRegs N W) {req : ApbReq} {r : BitVec (idxWidth N)}
    (h : ¬ Hits c req r) : (comb c s req).regUpdate r = false := by
  simp only [comb]
  split
  · rename_i hsel
    split
    · rfl
    · rename_i hvalid
      split
      · rename_i hwrite
        split
        · -- a write, so it addresses another register
          rename_i hro
          have hne : r ≠ (decode c req.paddr).idxO := by
            intro heq
            subst heq
            exact h ⟨hsel, hwrite, by simpa using hvalid, rfl, by simpa using hro⟩
          exact Function.update_of_ne hne _ _
        · rfl
      · split <;> rfl
  · rfl

/-- A write loads the addressed register with the strobed bits over the default
value; nothing else changes. -/
theorem step_regQ (s : ApbRegs N W) (req : ApbReq) (r : BitVec (idxWidth N)) :
    (step c s req).regQ r
      = if Hits c req r ∧ req.pstrb ≠ 0 then
          writeBits req.pstrb req.pwdata (if s.hasResetQ then s.regQ r else c.regInitI r)
        else s.regQ r := by
  show (if (comb c s req).regUpdate r then (comb c s req).regD r else s.regQ r) = _
  by_cases h : Hits c req r
  · rcases comb_of_hits s h with ⟨hupdate, hd⟩
    rw [hupdate, hd]
    simp [h]
  · rw [comb_of_not_hits s h, if_neg Bool.false_ne_true, if_neg fun hand => h hand.1]

/-! ## The addresses of the registers -/

/-- The rule of register `i` matches the addresses of its window. -/
theorem matched_addrMap (hoffset : 0 < c.addrOffset)
    (hfit : c.baseAddrI.toNat + N * c.addrOffset < 2 ^ 32) {addr : BitVec 32} {i : ℕ}
    (hi : i < N) :
    Rule.matched false addr
        ⟨BitVec.ofNat 32 i, c.baseAddrI + BitVec.ofNat 32 (i * c.addrOffset),
          c.baseAddrI + BitVec.ofNat 32 ((i + 1) * c.addrOffset)⟩ = true
      ↔ c.baseAddrI.toNat ≤ addr.toNat ∧
          (addr.toNat - c.baseAddrI.toNat) / c.addrOffset = i := by
  have hle : (i + 1) * c.addrOffset ≤ N * c.addrOffset := Nat.mul_le_mul_right _ hi
  have hsucc : (i + 1) * c.addrOffset = i * c.addrOffset + c.addrOffset := Nat.succ_mul _ _
  -- no address of the map wraps around
  have hplace : ∀ n ≤ N * c.addrOffset,
      (c.baseAddrI + BitVec.ofNat 32 n).toNat = c.baseAddrI.toNat + n := by
    intro n hn
    rw [BitVec.toNat_add, BitVec.toNat_ofNat, Nat.mod_eq_of_lt (by omega),
      Nat.mod_eq_of_lt (by omega)]
  have hstart := hplace (i * c.addrOffset) (by omega)
  have hend := hplace ((i + 1) * c.addrOffset) hle
  have hne : c.baseAddrI + BitVec.ofNat 32 ((i + 1) * c.addrOffset) ≠ 0 := by
    intro h
    rw [h] at hend
    have hzero : (0 : BitVec 32).toNat = 0 := rfl
    omega
  rw [matched_iff, BitVec.le_def, BitVec.lt_def, hstart, hend, or_iff_left hne]
  constructor
  · rintro ⟨hlow, hhigh⟩
    exact ⟨by omega, Nat.div_eq_of_lt_le (by omega) (by omega)⟩
  · -- an address between the multiples of its quotient
    rintro ⟨hlow, hdiv⟩
    have hmul := Nat.div_mul_le_self (addr.toNat - c.baseAddrI.toNat) c.addrOffset
    have hlt := Nat.lt_div_mul_add (a := addr.toNat - c.baseAddrI.toNat) hoffset
    rw [hdiv] at hmul hlt
    omega

/-- The block decodes the addresses of its registers. -/
theorem decode_of_window (hoffset : 0 < c.addrOffset)
    (hfit : c.baseAddrI.toNat + N * c.addrOffset < 2 ^ 32) {addr : BitVec 32}
    (hlow : c.baseAddrI.toNat ≤ addr.toNat)
    (hhigh : addr.toNat < c.baseAddrI.toNat + N * c.addrOffset) :
    decode c addr
      = ⟨(BitVec.ofNat 32 ((addr.toNat - c.baseAddrI.toNat) / c.addrOffset)).setWidth _,
          true, false⟩ := by
  -- the quotient is the number of a register
  have hlt : (addr.toNat - c.baseAddrI.toNat) / c.addrOffset < N := by
    rw [Nat.div_lt_iff_lt_mul hoffset]
    omega
  refine addrDecode_of_matched ?_ ?_
  · refine ⟨_, List.mem_map.mpr ⟨_, List.mem_range.mpr hlt, rfl⟩, ?_⟩
    exact (matched_addrMap hoffset hfit hlt).mpr ⟨hlow, rfl⟩
  · intro r hr hmatched
    rcases List.mem_map.mp hr with ⟨i, hi, rfl⟩
    rw [((matched_addrMap hoffset hfit (List.mem_range.mp hi)).mp hmatched).2]

end ApbRegs

/-! ## Transfers -/

/-- An APB transfer. -/
structure Transfer where
  pwrite : Bool
  paddr : BitVec 32
  pwdata : BitVec 32
  pstrb : BitVec 4

/-- The request in the setup and in the access cycle of a transfer. -/
def Transfer.setup (t : Transfer) : ApbReq := ⟨true, false, t.pwrite, t.paddr, t.pwdata, t.pstrb⟩

def Transfer.access (t : Transfer) : ApbReq := ⟨true, true, t.pwrite, t.paddr, t.pwdata, t.pstrb⟩

/-- What the bus does: a transfer, or a cycle in which the block is not selected
and the other signals may be anything. -/
inductive Op
  | transfer (t : Transfer)
  | idle (req : ApbReq)

/-- The requests of the cycles. -/
def Op.cycles : Op → List ApbReq
  | transfer t => [t.setup, t.access]
  | idle req => [{ req with psel := false }]

namespace ApbRegs

variable {N : ℕ} (c : ApbRegsCfg N 32)

/-- The registers after reset and what the bus did. -/
def after (ops : List Op) : ApbRegs N 32 := run (step c) (reset c) (ops.flatMap Op.cycles)

/-- The response to a transfer, in its access cycle. -/
def response (s : ApbRegs N 32) (t : Transfer) : ApbResp :=
  (comb c (step c s t.setup) t.access).respO

/-- The byte that byte `b` of register `r` was last written with, or else its
initial value. -/
def lastWritten (r : BitVec (idxWidth N)) (b : ℕ) (ops : List Op) : BitVec 8 :=
  ops.foldl
    (fun v op =>
      match op with
      | .transfer t => if Hits c t.access r ∧ t.pstrb.getLsbD b = true then lane t.pwdata b else v
      | .idle _ => v)
    (lane (c.regInitI r) b)

/-- The block is a store of bytes, at every moment of what the bus does:

* every byte of a writable register is the one last written to it with its
  strobe set, or the initial one;
* a write changes the strobed bytes of the addressed register and no others;
* a transfer answered with an error changes nothing;
* a read is answered with the contents of the register. -/
def ByteStore (ops : List Op) : Prop :=
  ∀ pre post, ops = pre ++ post →
    (∀ r, readOnly c r = false → ∀ b < 4,
      lane ((after c pre).regQ r) b = lastWritten c r b pre) ∧
    ∀ t post', post = .transfer t :: post' →
      (t.pwrite = true → ∀ r, ∀ b < 4, lane ((after c (pre ++ [.transfer t])).regQ r) b
        = if Hits c t.access r ∧ t.pstrb.getLsbD b = true then lane t.pwdata b
          else lane ((after c pre).regQ r) b) ∧
      ((response c (after c pre) t).pslverr = true →
        (after c (pre ++ [.transfer t])).regQ = (after c pre).regQ) ∧
      (t.pwrite = false → (decode c t.paddr).decValidO = true →
        (response c (after c pre) t).prdata = regQO c (after c pre) (decode c t.paddr).idxO ∧
          (response c (after c pre) t).pslverr = false)

/-- At every write, each byte of the addressed register whose strobe is clear
holds its initial value, unless no strobe is set. -/
def OthersInitial (ops : List Op) : Prop :=
  ∀ pre t post, ops = pre ++ .transfer t :: post → ∀ r, Hits c t.access r → t.pstrb ≠ 0 →
    ∀ b < 4, t.pstrb.getLsbD b = false → lane ((after c pre).regQ r) b = lane (c.regInitI r) b

variable {c}

theorem after_concat (ops : List Op) (op : Op) :
    after c (ops ++ [op]) = run (step c) (after c ops) op.cycles := by
  rw [after, List.flatMap_append, run_append, List.flatMap_singleton]
  rfl

/-- The flag never rises. -/
theorem hasResetQ_after (ops : List Op) : (after c ops).hasResetQ = false := by
  unfold after
  refine run_preserves (fun s : ApbRegs N 32 => s.hasResetQ = false) rfl ?_ _
  intro s req h
  exact h

theorem writeBits_word (pstrb : BitVec 4) (pwdata d : BitVec 32) :
    writeBits pstrb pwdata d = mergeBytes pstrb pwdata d := by
  rw [writeBits, BitVec.setWidth_eq, BitVec.setWidth_eq]

/-- A cycle of a transfer, as long as the flag is low. -/
theorem step_regQ_low {s : ApbRegs N 32} (hflag : s.hasResetQ = false) (req : ApbReq)
    (r : BitVec (idxWidth N)) :
    (step c s req).regQ r
      = if Hits c req r ∧ req.pstrb ≠ 0 then mergeBytes req.pstrb req.pwdata (c.regInitI r)
        else s.regQ r := by
  rw [step_regQ, hflag, if_neg Bool.false_ne_true, writeBits_word]

/-- A transfer writes in both its cycles, the second time the same. -/
theorem transfer_regQ (ops : List Op) (t : Transfer) (r : BitVec (idxWidth N)) :
    (after c (ops ++ [.transfer t])).regQ r
      = if Hits c t.access r ∧ t.pstrb ≠ 0 then mergeBytes t.pstrb t.pwdata (c.regInitI r)
        else (after c ops).regQ r := by
  have hflag := hasResetQ_after (c := c) ops
  -- a write is made in the setup cycle and again in the access cycle
  have hsetup := step_regQ_low (c := c) hflag t.setup r
  have haccess := step_regQ_low (c := c) (s := step c (after c ops) t.setup) hflag t.access r
  rw [after_concat]
  refine haccess.trans ?_
  by_cases h : Hits c t.access r ∧ t.pstrb ≠ 0
  -- the value does not depend on what the first write left
  · rw [if_pos h]
    exact if_pos h
  · rw [if_neg h]
    exact (if_neg h).trans (hsetup.trans (if_neg h))

/-- An idle cycle writes nothing. -/
theorem idle_regQ (ops : List Op) (req : ApbReq) :
    (after c (ops ++ [.idle req])).regQ = (after c ops).regQ := by
  funext r
  rw [after_concat]
  show (step c (after c ops) { req with psel := false }).regQ r = _
  rw [step_regQ, if_neg fun hand => absurd hand.1.1 Bool.false_ne_true]

/-- Byte by byte: a write that reaches a register puts the initial value into
the bytes that are not strobed. -/
theorem transfer_byte (ops : List Op) (t : Transfer) (r : BitVec (idxWidth N)) {b : ℕ}
    (hb : b < 4) :
    lane ((after c (ops ++ [.transfer t])).regQ r) b
      = if Hits c t.access r ∧ t.pstrb.getLsbD b = true then lane t.pwdata b
        else if Hits c t.access r ∧ t.pstrb ≠ 0 then lane (c.regInitI r) b
        else lane ((after c ops).regQ r) b := by
  rw [transfer_regQ]
  by_cases hhit : Hits c t.access r
  -- without any strobe the register is not updated at all
  · by_cases hstrb : t.pstrb = 0
    · have hlow : ¬ t.pstrb.getLsbD b = true := by simp [hstrb]
      have hno : ¬ (Hits c t.access r ∧ t.pstrb ≠ 0) := fun h => h.2 hstrb
      rw [if_neg hno, if_neg hno, if_neg fun h => hlow h.2]
    · have hyes : Hits c t.access r ∧ t.pstrb ≠ 0 := ⟨hhit, hstrb⟩
      rw [if_pos hyes, if_pos hyes, lane_mergeBytes _ _ _ hb, mergeLane]
      exact if_congr (by simp [hhit]) rfl rfl
  · rw [if_neg fun h => hhit h.1, if_neg fun h => hhit h.1, if_neg fun h => hhit h.1]

/-- Where the unstrobed bytes hold their initial value, a transfer changes the
strobed bytes alone. -/
theorem transfer_byte_of_initial {pre post : List Op} {t : Transfer}
    (h : OthersInitial c (pre ++ .transfer t :: post)) (r : BitVec (idxWidth N)) {b : ℕ}
    (hb : b < 4) :
    lane ((after c (pre ++ [.transfer t])).regQ r) b
      = if Hits c t.access r ∧ t.pstrb.getLsbD b = true then lane t.pwdata b
        else lane ((after c pre).regQ r) b := by
  rw [transfer_byte pre t r hb]
  split
  · rfl
  · rename_i hnot
    split
    -- the byte is overwritten with what it holds
    · rename_i hwrite
      have hlow : t.pstrb.getLsbD b = false := by
        rw [← Bool.not_eq_true]
        exact fun hbit => hnot ⟨hwrite.1, hbit⟩
      exact (h pre t post rfl r hwrite.1 hwrite.2 b hb hlow).symm
    · rfl

/-- The condition is one on every write by itself. -/
theorem OthersInitial.of_append {pre post : List Op} (h : OthersInitial c (pre ++ post)) :
    OthersInitial c pre := by
  intro ops t rest hops
  refine h ops t (rest ++ post) ?_
  rw [hops, List.append_assoc, List.cons_append]

/-- Where the unstrobed bytes hold their initial value, every byte is the one
last written. -/
theorem lane_regQ_of_initial {ops : List Op} (h : OthersInitial c ops) (r : BitVec (idxWidth N))
    {b : ℕ} (hb : b < 4) : lane ((after c ops).regQ r) b = lastWritten c r b ops := by
  induction ops using List.reverseRecOn with
  | nil => rfl
  | append_singleton ops op ih =>
      have ih := ih h.of_append
      rw [lastWritten, List.foldl_append]
      cases op with
      | transfer t =>
          rw [transfer_byte_of_initial h r hb, ih]
          rfl
      | idle req =>
          rw [idle_regQ, ih]
          rfl

/-! ## Responses -/

/-- A transfer answered with an error writes nothing. -/
theorem not_hits_of_error {s : ApbRegs N 32} {t : Transfer}
    (h : (response c s t).pslverr = true) (r : BitVec (idxWidth N)) : ¬ Hits c t.access r := by
  intro hhit
  rcases hhit with ⟨_, hwrite, hvalid, hidx, hro⟩
  subst hidx
  -- a hit is a write to a mapped register that is not read-only: no error
  have hno : (response c s t).pslverr = false := by
    simp only [response, comb, Transfer.access] at hwrite hvalid hro ⊢
    simp only [hwrite, hvalid, hro, Bool.not_true, Bool.not_false, Bool.false_eq_true, if_true,
      if_false]
    rfl
  rw [hno] at h
  exact Bool.false_ne_true h

/-- A read of a mapped register shows it and is answered without error. -/
theorem response_of_read (ops : List Op) {t : Transfer} (hread : t.pwrite = false)
    (hvalid : (decode c t.paddr).decValidO = true) :
    (response c (after c ops) t).prdata = regQO c (after c ops) (decode c t.paddr).idxO ∧
      (response c (after c ops) t).pslverr = false := by
  have hsetup : (step c (after c ops) t.setup).regQ = (after c ops).regQ := by
    funext r
    rw [step_regQ, if_neg]
    -- a read does not hit in the setup cycle either
    intro hand
    have hwrite : t.pwrite = true := hand.1.2.1
    rw [hread] at hwrite
    exact Bool.false_ne_true hwrite
  simp only [response, comb, Transfer.access, hread, hvalid, hsetup, regQO, Bool.not_true,
    Bool.false_eq_true, if_true, if_false]
  by_cases hro : readOnly c (decode c t.paddr).idxO = true
  · simp [hro, comb0]
  · simp [hro, comb0]

/-! ## The block as a store of bytes -/

/-- The block is a store of bytes exactly if every write with some strobe set
finds the bytes it does not strobe at their initial value. -/
theorem byteStore_iff (ops : List Op) : ByteStore c ops ↔ OthersInitial c ops := by
  constructor
  -- an unstrobed byte is kept, but it also becomes the initial one
  · intro h pre t post hops r hhit hstrb b hb hlow
    have hkept := ((h pre _ hops).2 t post rfl).1 hhit.2.1 r b hb
    have hnot : ¬ (Hits c t.access r ∧ t.pstrb.getLsbD b = true) := by
      intro hand
      rw [hlow] at hand
      exact Bool.false_ne_true hand.2
    rw [transfer_byte pre t r hb, if_neg hnot, if_neg hnot, if_pos ⟨hhit, hstrb⟩] at hkept
    exact hkept.symm
  · intro h pre post hops
    subst hops
    refine ⟨fun r _ b hb => lane_regQ_of_initial h.of_append r hb, ?_⟩
    intro t post' hpost
    subst hpost
    refine ⟨fun _ r b hb => transfer_byte_of_initial h r hb, ?_, fun hread hvalid =>
      response_of_read pre hread hvalid⟩
    intro herror
    funext r
    rw [transfer_regQ, if_neg fun hand => not_hits_of_error herror r hand.1]

/-- `SOC_MEM_MAP_AXI_APB_START_ADDR`. -/
def socMemMapAxiApbStartAddr : BitVec 32 := 0x00110000

/-- The registers of `apb_regs_intf_wrap`: 32 registers, all writable. -/
def apbRegsIntfWrap : ApbRegsCfg 32 32 where
  addrOffset := 4
  readOnly := 0
  baseAddrI := socMemMapAxiApbStartAddr
  regInitI := fun r => if r = 0 then 0 else if r = 1 then 0x00033333 else if r = 2 then 0xff else 0

/-- A write of a word to register 0 and then of its lowest byte. -/
def wordThenByte : List Op :=
  [.transfer ⟨true, 0x00110000, 0xaabbccdd, 0b1111⟩, .transfer ⟨true, 0x00110000, 0x11, 0b0001⟩]

/-- The second write clears the other bytes of the register. -/
theorem unstrobed_bytes_cleared : ¬ ByteStore apbRegsIntfWrap wordThenByte := by
  intro h
  have hkept := (h wordThenByte [] rfl).1 0 (by decide) 1 (by decide)
  exact absurd hkept (by decide)

end ApbRegs

end SocRtl.Bus
