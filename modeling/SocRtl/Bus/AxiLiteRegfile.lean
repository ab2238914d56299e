import Mathlib.Algebra.Group.Nat.Defs
import Mathlib.Data.Fintype.Basic
import Mathlib.Data.Nat.Log
import SocRtl.Bus.AddrDecode
import SocRtl.Handshake.SpillRegister
import SocRtl.Lib.Store

/-!
# SocRtl.Bus.AxiLiteRegfile — the register file `axi_lite_regfile`

`RegNumBytes` byte registers behind an AXI4-Lite port. The bytes are grouped
into chunks of one data word; an address is decoded to a chunk, and a strobe
to a byte of it. Responses leave through spill registers.

This file has the circuit and what it does with an address and with the lanes
of a data word. Addresses and byte indices are cut to `AddrWidth` bits. The
cut does no harm as long as a chunk fits into `AddrWidth` bits; when the data
word is larger than that, the end of the address window and the upper lanes
wrap around (`Window`, `Lanes`).
-/

namespace SocRtl.Bus

open Handshake

/-! ## Model -/

/-- The loop of `cf_math_pkg::ceil_div`, which subtracts the divisor while
something remains; every iteration takes at least one away. -/
def ceilDivLoop (divisor : ℕ) : (fuel remainder : ℕ) → ℕ
  | 0, _ => 0
  | fuel + 1, remainder =>
      if 0 < remainder then ceilDivLoop divisor fuel (remainder - divisor) + 1 else 0

/-- `cf_math_pkg::ceil_div`. -/
def ceilDiv (dividend divisor : ℕ) : ℕ := ceilDivLoop divisor dividend dividend

/-- The parameters of an instance. There is at least one byte, a `genvar`
indexes them all, and a data word has at least one strobe. -/
structure RegfileCfg where
  regNumBytes : ℕ
  axiAddrWidth : ℕ
  axiDataWidth : ℕ
  privProtOnly : Bool
  secuProtOnly : Bool
  axiReadOnly : BitVec regNumBytes
  regRstVal : Fin regNumBytes → BitVec 8
  regNumBytes_pos : 0 < regNumBytes
  regNumBytes_le : regNumBytes ≤ 2 ^ 31
  axiDataWidth_ge : 8 ≤ axiDataWidth

namespace RegfileCfg

variable (c : RegfileCfg)

/-- `AxiStrbWidth`. -/
def axiStrbWidth : ℕ := c.axiDataWidth / 8

/-- `NumChunks`. -/
def numChunks : ℕ := ceilDiv c.regNumBytes c.axiStrbWidth

/-- `ChunkIdxWidth`. -/
def chunkIdxWidth : ℕ := if 1 < c.numChunks then Nat.clog 2 c.numChunks else 1

/-- `AddrWidth`. -/
def addrWidth : ℕ := if 1 < c.regNumBytes then Nat.clog 2 c.regNumBytes + 1 else 2

/-- `addr_map`, from chunk 0 up. -/
def addrMap : List (Rule c.addrWidth) :=
  (List.range c.numChunks).map fun i =>
    ⟨BitVec.ofNat 32 i, BitVec.ofNat c.addrWidth (i * c.axiStrbWidth),
      BitVec.ofNat c.addrWidth ((i + 1) * c.axiStrbWidth)⟩

/-- `i_aw_decode` and `i_ar_decode`. -/
def decode (addr : BitVec c.axiAddrWidth) : Decoded c.chunkIdxWidth :=
  addrDecode c.addrMap (addr.setWidth c.addrWidth)

/-- `aw_prot_ok` and `ar_prot_ok`. -/
def protOk (prot : BitVec 3) : Bool :=
  (if c.privProtOnly then prot.getLsbD 0 else true)
    && (if c.secuProtOnly then prot.getLsbD 1 else true)

end RegfileCfg

/-- `RESP_OKAY` and `RESP_SLVERR`. -/
def respOkay : BitVec 2 := 0b00#2

def respSlverr : BitVec 2 := 0b10#2

/-- The AXI4-Lite request. -/
structure AxiLiteReq (c : RegfileCfg) where
  awAddr : BitVec c.axiAddrWidth
  awProt : BitVec 3
  awValid : Bool
  wData : BitVec c.axiDataWidth
  wStrb : BitVec c.axiStrbWidth
  wValid : Bool
  bReady : Bool
  arAddr : BitVec c.axiAddrWidth
  arProt : BitVec 3
  arValid : Bool
  rReady : Bool

/-- What a clock edge samples. -/
structure RegfileIn (c : RegfileCfg) where
  axiReqI : AxiLiteReq c
  regDI : Fin c.regNumBytes → BitVec 8
  regLoadI : BitVec c.regNumBytes

/-- `r_chan_lite_t`. -/
structure RChan (c : RegfileCfg) where
  data : BitVec c.axiDataWidth
  resp : BitVec 2

/-- The registers: the bytes and the two spill registers. -/
structure AxiLiteRegfile (c : RegfileCfg) where
  regQ : Fin c.regNumBytes → BitVec 8
  iBSpill : Spill (BitVec 2)
  iRSpill : Spill (RChan c)

/-- What the write process drives. -/
structure WriteComb (c : RegfileCfg) where
  regD : Fin c.regNumBytes → BitVec 8
  regUpdate : Fin c.regNumBytes → Bool
  awReady : Bool
  wReady : Bool
  bChan : BitVec 2
  bValid : Bool
  wrActiveO : Fin c.regNumBytes → Bool

namespace AxiLiteRegfile

variable {c : RegfileCfg}

/-- Reset. -/
def reset (c : RegfileCfg) : AxiLiteRegfile c where
  regQ := c.regRstVal
  iBSpill := Spill.reset 0
  iRSpill := Spill.reset ⟨0, 0⟩

/-- `byte_w_addr`. -/
def byteWAddr (req : AxiLiteReq c) : BitVec c.addrWidth :=
  BitVec.ofNat c.addrWidth ((c.decode req.awAddr).idxO.toNat * c.axiStrbWidth)

/-- `reg_w_idx`, also `reg_byte_idx` of the write process. -/
def regWIdx (req : AxiLiteReq c) (i : ℕ) : BitVec c.addrWidth :=
  byteWAddr req + BitVec.ofNat c.addrWidth i

/-- `load[i]`. -/
def load (inp : RegfileIn c) (i : ℕ) : Bool :=
  let k := (regWIdx inp.axiReqI i).toNat
  if k < c.regNumBytes then inp.regLoadI.getLsbD k && !c.axiReadOnly.getLsbD k else false

/-- `read_only[i]`. -/
def readOnly (req : AxiLiteReq c) (i : ℕ) : Bool :=
  let k := (regWIdx req i).toNat
  if k < c.regNumBytes then c.axiReadOnly.getLsbD k else true

def chunkLoaded (inp : RegfileIn c) : Bool :=
  (List.range c.axiStrbWidth).any fun i => load inp i && inp.axiReqI.wStrb.getLsbD i

def chunkRo (req : AxiLiteReq c) : Bool :=
  (List.range c.axiStrbWidth).all fun i => readOnly req i

/-- The default assignments. The loop over `reg_load_i` that stands after them
in the source is commented out. -/
def writeComb0 (s : AxiLiteRegfile c) : WriteComb c where
  regD := s.regQ
  regUpdate := fun _ => false
  awReady := false
  wReady := false
  bChan := respSlverr
  bValid := false
  wrActiveO := fun _ => false

/-- The body of the loop over the bytes of the W channel. -/
def writeLane (req : AxiLiteReq c) (o : WriteComb c) (i : ℕ) : WriteComb c :=
  if h : (regWIdx req i).toNat < c.regNumBytes then
    let k : Fin c.regNumBytes := ⟨(regWIdx req i).toNat, h⟩
    let o' :=
      if !c.axiReadOnly.getLsbD k && req.wStrb.getLsbD i then
        { o with
          regD := Function.update o.regD k (req.wData.extractLsb' (8 * i) 8)
          regUpdate := Function.update o.regUpdate k true }
      else o
    { o' with wrActiveO := Function.update o'.wrActiveO k (req.wStrb.getLsbD i) }
  else o

/-- A write is presented and the B spill register can take its response. -/
def presented (s : AxiLiteRegfile c) (req : AxiLiteReq c) : Bool :=
  req.awValid && req.wValid && s.iBSpill.readyO

/-- The write process. -/
def writeComb (s : AxiLiteRegfile c) (inp : RegfileIn c) : WriteComb c :=
  let req := inp.axiReqI
  let o := writeComb0 s
  if presented s req then
    if (c.decode req.awAddr).decValidO && c.protOk req.awProt then
      if !chunkLoaded inp then
        { (List.range c.axiStrbWidth).foldl (writeLane req) o with
          bChan := if chunkRo req then respSlverr else respOkay
          bValid := true
          awReady := true
          wReady := true }
      else o
    else { o with bValid := true, awReady := true, wReady := true }
  else o

/-- A data word with byte `i` assigned. -/
def setByte {D : ℕ} (d : BitVec D) (i : ℕ) (v : BitVec 8) : BitVec D :=
  (d &&& ~~~((255#8).setWidth D <<< (8 * i))) ||| (v.setWidth D <<< (8 * i))

/-- `reg_byte_idx` of the read process, which is not cut. -/
def regRIdx (req : AxiLiteReq c) (i : ℕ) : ℕ :=
  (c.decode req.arAddr).idxO.toNat * c.axiStrbWidth + i

/-- What the read process puts into byte `i` of the data. -/
def readByte (s : AxiLiteRegfile c) (req : AxiLiteReq c) (i : ℕ) : BitVec 8 :=
  if h : regRIdx req i < c.regNumBytes then s.regQ ⟨regRIdx req i, h⟩ else 0x00#8

/-- The read process. -/
def rChan (s : AxiLiteRegfile c) (req : AxiLiteReq c) : RChan c :=
  let r : RChan c := ⟨(0xBA5E1E55#32).setWidth c.axiDataWidth, respSlverr⟩
  if (c.decode req.arAddr).decValidO && c.protOk req.arProt then
    { data := (List.range c.axiStrbWidth).foldl (fun d i => setByte d i (readByte s req i)) r.data
      resp := respOkay }
  else r

/-- What the B spill register is offered. -/
def bSpillIn (s : AxiLiteRegfile c) (inp : RegfileIn c) : ChainIn (BitVec 2) :=
  ⟨(writeComb s inp).bValid, (writeComb s inp).bChan, inp.axiReqI.bReady⟩

/-- What the R spill register is offered. -/
def rSpillIn (s : AxiLiteRegfile c) (inp : RegfileIn c) : ChainIn (RChan c) :=
  ⟨inp.axiReqI.arValid, rChan s inp.axiReqI, inp.axiReqI.rReady⟩

/-- One clock edge. -/
def step (s : AxiLiteRegfile c) (inp : RegfileIn c) : AxiLiteRegfile c where
  regQ := fun k => if (writeComb s inp).regUpdate k then (writeComb s inp).regD k else s.regQ k
  iBSpill := s.iBSpill.step (bSpillIn s inp)
  iRSpill := s.iRSpill.step (rSpillIn s inp)

end AxiLiteRegfile

/-! ## Widths -/

theorem lt_ceilDivLoop_iff {divisor : ℕ} (h : 0 < divisor) {fuel remainder q : ℕ}
    (hfuel : remainder ≤ fuel) :
    q < ceilDivLoop divisor fuel remainder ↔ q * divisor < remainder := by
  induction fuel generalizing remainder q with
  | zero =>
      have hzero : remainder = 0 := Nat.le_zero.mp hfuel
      rw [hzero]
      simp [ceilDivLoop]
  | succ fuel ih =>
      rw [ceilDivLoop]
      split_ifs with hpos
      · cases q with
        | zero => simp [hpos]
        | succ q =>
            have hless : remainder - divisor ≤ fuel := by omega
            rw [Nat.succ_lt_succ_iff, ih hless, Nat.succ_mul]
            omega
      · have hzero : remainder = 0 := by omega
        rw [hzero]
        simp

/-- Chunk `q` exists if it starts below the end of what is divided. -/
theorem lt_ceilDiv_iff {dividend divisor : ℕ} (h : 0 < divisor) (q : ℕ) :
    q < ceilDiv dividend divisor ↔ q * divisor < dividend :=
  lt_ceilDivLoop_iff h le_rfl

namespace RegfileCfg

variable (c : RegfileCfg)

theorem axiStrbWidth_pos : 0 < c.axiStrbWidth :=
  Nat.div_pos c.axiDataWidth_ge (by decide)

/-- There is room for the registers twice over. -/
theorem two_mul_regNumBytes_le : 2 * c.regNumBytes ≤ 2 ^ c.addrWidth := by
  rw [addrWidth]
  split_ifs with h
  · rw [Nat.pow_succ, Nat.mul_comm]
    exact Nat.mul_le_mul_right 2 (Nat.le_pow_clog (by decide) c.regNumBytes)
  · have hone := c.regNumBytes_pos
    omega

theorem lt_numChunks_iff (q : ℕ) : q < c.numChunks ↔ q * c.axiStrbWidth < c.regNumBytes :=
  lt_ceilDiv_iff c.axiStrbWidth_pos q

/-- A chunk that holds a register starts within the address space. -/
theorem chunk_start_lt {q : ℕ} (hq : q * c.axiStrbWidth < c.regNumBytes) :
    q * c.axiStrbWidth < 2 ^ c.addrWidth := by
  have hroom := c.two_mul_regNumBytes_le
  omega

/-- And ends within it, if a chunk fits at all: the first chunk by that, each
later one because a chunk is then smaller than the register array. -/
theorem chunk_end_le {q : ℕ} (hq : q * c.axiStrbWidth < c.regNumBytes)
    (hfit : c.axiStrbWidth ≤ 2 ^ c.addrWidth) :
    q * c.axiStrbWidth + c.axiStrbWidth ≤ 2 ^ c.addrWidth := by
  have hroom := c.two_mul_regNumBytes_le
  cases q with
  | zero => omega
  | succ q =>
      have hone : c.axiStrbWidth ≤ (q + 1) * c.axiStrbWidth := Nat.le_mul_of_pos_left _ q.succ_pos
      omega

/-- If no chunk fits, there is only the first. -/
theorem chunk_eq_zero {q : ℕ} (hq : q * c.axiStrbWidth < c.regNumBytes)
    (hfit : ¬ c.axiStrbWidth ≤ 2 ^ c.addrWidth) : q = 0 := by
  have hroom := c.two_mul_regNumBytes_le
  by_contra hne
  have hone : c.axiStrbWidth ≤ q * c.axiStrbWidth :=
    Nat.le_mul_of_pos_left _ (Nat.pos_of_ne_zero hne)
  omega

/-- The chunk indices fit their type, on the way through the 32 bits of a rule. -/
theorem toNat_chunkIdx {q : ℕ} (hq : q < c.numChunks) :
    ((BitVec.ofNat 32 q).setWidth c.chunkIdxWidth).toNat = q := by
  have hbytes := (c.lt_numChunks_iff q).mp hq
  have hpos := c.axiStrbWidth_pos
  have hle := c.regNumBytes_le
  have hword : q < 2 ^ 32 := by
    have hone : q ≤ q * c.axiStrbWidth := Nat.le_mul_of_pos_right q hpos
    omega
  have hidx : q < 2 ^ c.chunkIdxWidth := by
    rw [chunkIdxWidth]
    split_ifs with h
    · exact hq.trans_le (Nat.le_pow_clog (by decide) c.numChunks)
    · omega
  rw [BitVec.toNat_setWidth, BitVec.toNat_ofNat, Nat.mod_eq_of_lt hword, Nat.mod_eq_of_lt hidx]

/-! ## The address decoder -/

/-- The end of the address window is not cut: a chunk fits into the address
space, or fills it a whole number of times, or `o` lies below what is left of
its end. -/
def Window (o : ℕ) : Prop :=
  c.axiStrbWidth ≤ 2 ^ c.addrWidth ∨ 2 ^ c.addrWidth ∣ c.axiStrbWidth
    ∨ o < c.axiStrbWidth % 2 ^ c.addrWidth

instance (o : ℕ) : Decidable (c.Window o) := inferInstanceAs (Decidable (_ ∨ _ ∨ _))

/-- The offset of an address: its `AddrWidth` low bits. -/
def offset (addr : BitVec c.axiAddrWidth) : ℕ := addr.toNat % 2 ^ c.addrWidth

/-- The chunk that an address lies in. -/
def chunk (addr : BitVec c.axiAddrWidth) : ℕ := c.offset addr / c.axiStrbWidth

/-- The chunk holds a register byte. -/
def Mapped (addr : BitVec c.axiAddrWidth) : Prop := c.chunk addr * c.axiStrbWidth < c.regNumBytes

instance (addr : BitVec c.axiAddrWidth) : Decidable (c.Mapped addr) :=
  inferInstanceAs (Decidable (_ < _))

/-- The rule of a chunk matches the addresses in it. -/
theorem matched_chunk_iff {q : ℕ} (hq : q * c.axiStrbWidth < c.regNumBytes)
    {a : BitVec c.addrWidth} (hwindow : c.Window a.toNat) :
    (⟨BitVec.ofNat 32 q, BitVec.ofNat c.addrWidth (q * c.axiStrbWidth),
        BitVec.ofNat c.addrWidth ((q + 1) * c.axiStrbWidth)⟩ : Rule c.addrWidth).matched false a
        = true
      ↔ a.toNat / c.axiStrbWidth = q := by
  have hstart := c.chunk_start_lt hq
  have hpos := c.axiStrbWidth_pos
  rw [matched_iff, BitVec.le_def, BitVec.lt_def, ← BitVec.toNat_inj, BitVec.toNat_ofNat,
    BitVec.toNat_ofNat, BitVec.ofNat_eq_ofNat, BitVec.toNat_zero, Nat.mod_eq_of_lt hstart,
    Nat.div_eq_iff hpos, Nat.succ_mul]
  by_cases hfit : c.axiStrbWidth ≤ 2 ^ c.addrWidth
  · -- the end is exact, or it is that of the address space and reads 0
    have hend := c.chunk_end_le hq hfit
    rcases Nat.eq_or_lt_of_le hend with heq | hlt
    · have ha := a.isLt
      rw [heq, Nat.mod_self]
      omega
    · rw [Nat.mod_eq_of_lt hlt]
      omega
  · -- one chunk that is larger than the address space
    have hzero := c.chunk_eq_zero hq hfit
    have ha := a.isLt
    subst hzero
    rw [Nat.zero_mul, Nat.zero_add]
    rcases hwindow with h | h | h
    · exact absurd h hfit
    · have hmod := Nat.mod_eq_zero_of_dvd h
      omega
    · omega

/-- An address in a chunk that holds registers is decoded to that chunk. -/
theorem decode_of_mapped {addr : BitVec c.axiAddrWidth} (hwindow : c.Window (c.offset addr))
    (hmapped : c.Mapped addr) :
    (c.decode addr).decValidO = true ∧ (c.decode addr).idxO.toNat = c.chunk addr := by
  have hwindow' : c.Window (addr.setWidth c.addrWidth).toNat := by
    rwa [BitVec.toNat_setWidth]
  have hchunk : (addr.setWidth c.addrWidth).toNat / c.axiStrbWidth = c.chunk addr := by
    rw [BitVec.toNat_setWidth, chunk, offset]
  -- all rules that match are the rule of this chunk
  have hdecode : c.decode addr
      = ⟨(BitVec.ofNat 32 (c.chunk addr)).setWidth c.chunkIdxWidth, true, false⟩ := by
    refine addrDecode_of_matched ?_ ?_
    · refine ⟨_, List.mem_map_of_mem (List.mem_range.mpr ((c.lt_numChunks_iff _).mpr hmapped)), ?_⟩
      exact (c.matched_chunk_iff hmapped hwindow').mpr hchunk
    · intro r hr hmatched
      rcases List.mem_map.mp hr with ⟨q, hq, rfl⟩
      have hq' := (c.lt_numChunks_iff q).mp (List.mem_range.mp hq)
      rw [← hchunk, (c.matched_chunk_iff hq' hwindow').mp hmatched]
  rw [hdecode]
  exact ⟨rfl, c.toNat_chunkIdx ((c.lt_numChunks_iff _).mpr hmapped)⟩

theorem decode_of_unmapped {addr : BitVec c.axiAddrWidth} (hwindow : c.Window (c.offset addr))
    (hmapped : ¬ c.Mapped addr) : (c.decode addr).decValidO = false := by
  have hwindow' : c.Window (addr.setWidth c.addrWidth).toNat := by
    rwa [BitVec.toNat_setWidth]
  have hdecode : c.decode addr = ⟨0, false, true⟩ := by
    refine addrDecode_of_unmatched ?_
    intro r hr
    rcases List.mem_map.mp hr with ⟨q, hq, rfl⟩
    have hq' := (c.lt_numChunks_iff q).mp (List.mem_range.mp hq)
    rw [Bool.eq_false_iff]
    -- the chunk of a rule that matches holds registers
    intro hmatched
    have heq := (c.matched_chunk_iff hq' hwindow').mp hmatched
    rw [BitVec.toNat_setWidth] at heq
    rw [Mapped, chunk, offset, heq] at hmapped
    exact hmapped hq'
  rw [hdecode]

end RegfileCfg

/-! ## Reads -/

namespace AxiLiteRegfile

variable {c : RegfileCfg}

theorem getLsbD_setByte {D : ℕ} (d : BitVec D) (i : ℕ) (v : BitVec 8) {n : ℕ} (hn : n < D) :
    (setByte d i v).getLsbD n
      = if 8 * i ≤ n ∧ n < 8 * i + 8 then v.getLsbD (n - 8 * i) else d.getLsbD n := by
  have hlt : n - 8 * i < D := Nat.lt_of_le_of_lt (Nat.sub_le _ _) hn
  have hmask : ((255#8).setWidth D).getLsbD (n - 8 * i) = decide (n - 8 * i < 8) := by
    rw [BitVec.getLsbD_setWidth, decide_eq_true hlt, Bool.true_and]
    exact BitVec.getLsbD_allOnes
  simp only [setByte, BitVec.getLsbD_or, BitVec.getLsbD_and, BitVec.getLsbD_not,
    BitVec.getLsbD_shiftLeft, hmask, BitVec.getLsbD_setWidth, hn, hlt, decide_true, Bool.true_and]
  by_cases hle : 8 * i ≤ n
  · have hnot : ¬ n < 8 * i := Nat.not_lt.mpr hle
    by_cases hhi : n < 8 * i + 8
    · have hin : n - 8 * i < 8 := by omega
      simp [hle, hnot, hhi, hin]
    · have hout : ¬ n - 8 * i < 8 := by omega
      have hzero : v.getLsbD (n - 8 * i) = false := BitVec.getLsbD_of_ge v _ (Nat.not_lt.mp hout)
      simp [hnot, hhi, hout, hzero]
  · have hbelow : n < 8 * i := Nat.lt_of_not_le hle
    simp [hle, hbelow]

/-- Byte `j` of a word in which byte `i` was assigned. -/
theorem extractLsb'_setByte {D : ℕ} (d : BitVec D) (i : ℕ) (v : BitVec 8) {j : ℕ}
    (hj : 8 * j + 8 ≤ D) :
    (setByte d i v).extractLsb' (8 * j) 8 = if j = i then v else d.extractLsb' (8 * j) 8 := by
  apply BitVec.eq_of_getLsbD_eq
  intro b hb
  rw [BitVec.getLsbD_extractLsb', getLsbD_setByte d i v (by omega)]
  by_cases hji : j = i
  · subst hji
    simp [hb]
  · have hout : ¬ (8 * i ≤ 8 * j + b ∧ 8 * j + b < 8 * i + 8) := by omega
    simp [hji, hout, hb]

/-- A loop that assigns the bytes below `m`. -/
theorem extractLsb'_foldl_setByte {D : ℕ} (d : BitVec D) (g : ℕ → BitVec 8) {m : ℕ}
    (hm : 8 * m ≤ D) {j : ℕ} (hj : j < m) :
    ((List.range m).foldl (fun d i => setByte d i (g i)) d).extractLsb' (8 * j) 8 = g j := by
  induction m with
  | zero => exact absurd hj (Nat.not_lt_zero j)
  | succ m ih =>
      rw [List.range_succ, List.foldl_append, List.foldl_cons, List.foldl_nil,
        extractLsb'_setByte _ _ _ (by omega)]
      -- the last byte assigned, or one assigned before
      by_cases hjm : j = m
      · rw [if_pos hjm, hjm]
      · rw [if_neg hjm]
        exact ih (by omega) (by omega)

/-- A permitted read of a chunk that holds registers returns its bytes, and 0
where the last chunk has none. -/
theorem rChan_of_mapped (s : AxiLiteRegfile c) {req : AxiLiteReq c}
    (hwindow : c.Window (c.offset req.arAddr)) (hmapped : c.Mapped req.arAddr)
    (hprot : c.protOk req.arProt = true) :
    (rChan s req).resp = respOkay ∧
      (∀ k : Fin c.regNumBytes, k.val / c.axiStrbWidth = c.chunk req.arAddr →
        (rChan s req).data.extractLsb' (8 * (k.val % c.axiStrbWidth)) 8 = s.regQ k) ∧
      ∀ i < c.axiStrbWidth, c.regNumBytes ≤ c.chunk req.arAddr * c.axiStrbWidth + i →
        (rChan s req).data.extractLsb' (8 * i) 8 = 0 := by
  rcases c.decode_of_mapped hwindow hmapped with ⟨hvalid, hidx⟩
  have hwidth : 8 * c.axiStrbWidth ≤ c.axiDataWidth := Nat.mul_div_le c.axiDataWidth 8
  -- the loop over the lanes has assigned every byte
  have hdata : ∀ i < c.axiStrbWidth,
      (rChan s req).data.extractLsb' (8 * i) 8 = readByte s req i := by
    intro i hi
    rw [rChan, hvalid, hprot]
    exact extractLsb'_foldl_setByte _ _ hwidth hi
  refine ⟨?_, ?_, ?_⟩
  · rw [rChan, hvalid, hprot]
    rfl
  · intro k hk
    -- the lane of byte `k` reads byte `k`
    have hplace : regRIdx req (k.val % c.axiStrbWidth) = k.val := by
      rw [regRIdx, hidx, ← hk, Nat.div_add_mod']
    have hlt : regRIdx req (k.val % c.axiStrbWidth) < c.regNumBytes := by
      rw [hplace]
      exact k.isLt
    rw [hdata _ (Nat.mod_lt _ c.axiStrbWidth_pos), readByte, dif_pos hlt]
    exact congrArg s.regQ (Fin.ext hplace)
  · intro i hi hpast
    -- beyond the registers the lane reads 0
    have hnot : ¬ regRIdx req i < c.regNumBytes := by
      rw [regRIdx, hidx]
      exact Nat.not_lt.mpr hpast
    rw [hdata i hi, readByte, dif_neg hnot]
    rfl

/-- Any other read is answered with an error. -/
theorem rChan_of_refused (s : AxiLiteRegfile c) {req : AxiLiteReq c}
    (hwindow : c.Window (c.offset req.arAddr))
    (h : ¬ (c.Mapped req.arAddr ∧ c.protOk req.arProt = true)) :
    (rChan s req).resp = respSlverr := by
  have hrefused : ((c.decode req.arAddr).decValidO && c.protOk req.arProt) = false := by
    by_cases hmapped : c.Mapped req.arAddr
    · have hprot : c.protOk req.arProt = false := by
        rw [Bool.eq_false_iff]
        exact fun hprot => h ⟨hmapped, hprot⟩
      rw [hprot, Bool.and_false]
    · rw [c.decode_of_unmapped hwindow hmapped, Bool.false_and]
  rw [rChan, hrefused]
  rfl

end AxiLiteRegfile

end SocRtl.Bus
