import SocRtl.Bus.AxiLiteRegfile

/-!
# SocRtl.Bus.RegfileWrites — what `axi_lite_regfile` does to its bytes

The documentation of the ports: a byte with its load bit set takes `reg_d_i`,
a byte that an accepted write hits takes the byte of the W channel, every
other byte keeps its value; an accepted write is answered once, and a write to
a byte that is being loaded waits.

The writes are as documented (`edge_of_untruncated`), the loads are not: the
loop that takes over `reg_d_i` is commented out, while the writes still wait
for it. So the bytes are as documented exactly in the cycles in which every
loaded byte is loaded with the value it has (`edgeKeeps_iff_loadsKept`). What
is left is a byte store: the reset values under the accepted writes
(`regQ_of_run`).
-/

namespace SocRtl.Bus

open Handshake Store

namespace AxiLiteRegfile

variable {c : RegfileCfg}

/-! ## What the documentation says -/

/-- The write is permitted, its chunk and strobe select byte `k`, and the byte
is not read-only. -/
def Hits (req : AxiLiteReq c) (k : Fin c.regNumBytes) : Prop :=
  c.protOk req.awProt = true ∧ k.val / c.axiStrbWidth = c.chunk req.awAddr ∧
    req.wStrb.getLsbD (k.val % c.axiStrbWidth) = true ∧ c.axiReadOnly.getLsbD k = false

instance (req : AxiLiteReq c) (k : Fin c.regNumBytes) : Decidable (Hits req k) :=
  inferInstanceAs (Decidable (_ ∧ _ ∧ _ ∧ _))

/-- The byte of the W channel for byte `k`. -/
def written (req : AxiLiteReq c) (k : Fin c.regNumBytes) : BitVec 8 :=
  req.wData.extractLsb' (8 * (k.val % c.axiStrbWidth)) 8

/-- Some byte of the chunk is not read-only. -/
def Writable (req : AxiLiteReq c) : Prop :=
  ∃ k : Fin c.regNumBytes,
    k.val / c.axiStrbWidth = c.chunk req.awAddr ∧ c.axiReadOnly.getLsbD k = false

instance (req : AxiLiteReq c) : Decidable (Writable req) :=
  inferInstanceAs (Decidable (∃ _, _))

/-- An error iff the address is unmapped, the protection check fails or every
byte of the chunk is read-only. -/
def expectedResp (req : AxiLiteReq c) : BitVec 2 :=
  if c.Mapped req.awAddr ∧ c.protOk req.awProt = true ∧ Writable req then respOkay else respSlverr

/-- The write would hit a byte that is being loaded. -/
def HitsLoaded (inp : RegfileIn c) : Prop :=
  ∃ k : Fin c.regNumBytes, inp.regLoadI.getLsbD k = true ∧ Hits inp.axiReqI k

def awTaken (s : AxiLiteRegfile c) (inp : RegfileIn c) : Bool :=
  inp.axiReqI.awValid && (writeComb s inp).awReady

def wTaken (s : AxiLiteRegfile c) (inp : RegfileIn c) : Bool :=
  inp.axiReqI.wValid && (writeComb s inp).wReady

/-- An AW/W pair is accepted. -/
def accepted (s : AxiLiteRegfile c) (inp : RegfileIn c) : Bool := awTaken s inp && wTaken s inp

/-- The documentation, for one edge. -/
structure EdgeKeeps (s : AxiLiteRegfile c) (inp : RegfileIn c) : Prop where
  together : awTaken s inp = wTaken s inp
  bytes : ∀ k, (step s inp).regQ k
    = if inp.regLoadI.getLsbD k then inp.regDI k
      else if accepted s inp = true ∧ Hits inp.axiReqI k then written inp.axiReqI k
      else s.regQ k
  stalled : HitsLoaded inp → accepted s inp = false

/-- The response that is due for the pair accepted at an edge. -/
def bExpected (s : AxiLiteRegfile c) (inp : RegfileIn c) : List (BitVec 2) :=
  if accepted s inp then [expectedResp inp.axiReqI] else []

/-- The response delivered at an edge. -/
def bDelivered (s : AxiLiteRegfile c) (inp : RegfileIn c) : List (BitVec 2) :=
  s.iBSpill.popped (bSpillIn s inp)

/-- The responses on their way, the one delivered next first. -/
def bHeld (s : AxiLiteRegfile c) : List (BitVec 2) := s.iBSpill.contents

/-- The response that enters the spill register at an edge. -/
def bPushed (s : AxiLiteRegfile c) (inp : RegfileIn c) : List (BitVec 2) :=
  s.iBSpill.pushed (bSpillIn s inp)

/-- The documentation, for a run from reset: every edge keeps it, and the
responses due are those delivered and, in order, those still on their way. -/
structure Keeps (c : RegfileCfg) (ins : List (RegfileIn c)) : Prop where
  edges : Along step EdgeKeeps (reset c) ins
  responses : events step bExpected (reset c) ins
    = events step bDelivered (reset c) ins ++ bHeld (run step (reset c) ins)

theorem mapped_of_hits {req : AxiLiteReq c} {k : Fin c.regNumBytes} (h : Hits req k) :
    c.Mapped req.awAddr := by
  rcases h with ⟨_, hchunk, _⟩
  rw [RegfileCfg.Mapped, ← hchunk]
  exact (Nat.div_mul_le_self _ _).trans_lt k.isLt

/-! ## The lanes of a data word -/

/-- No strobed lane wraps around onto a byte that can be written. -/
def Lanes (req : AxiLiteReq c) : Prop :=
  ∀ i < c.axiStrbWidth, req.wStrb.getLsbD i = true → ∀ k : Fin c.regNumBytes,
    (c.chunk req.awAddr * c.axiStrbWidth + i) % 2 ^ c.addrWidth = k.val →
      c.axiReadOnly.getLsbD k = false →
      c.chunk req.awAddr * c.axiStrbWidth + i < 2 ^ c.addrWidth

instance (req : AxiLiteReq c) : Decidable (Lanes req) :=
  inferInstanceAs (Decidable (∀ i < _, _ → ∀ _ : Fin _, _ → _ → _))

/-- The write does not meet the cut to `AddrWidth` bits. -/
structure InReach (req : AxiLiteReq c) : Prop where
  window : c.Window (c.offset req.awAddr)
  lanes : c.Mapped req.awAddr → Lanes req

instance (req : AxiLiteReq c) : Decidable (InReach req) :=
  decidable_of_iff (c.Window (c.offset req.awAddr) ∧ (c.Mapped req.awAddr → Lanes req))
    ⟨fun h => ⟨h.1, h.2⟩, fun h => ⟨h.window, h.lanes⟩⟩

/-- No write does if a chunk fits into the address space. -/
theorem inReach_of_fit (hfit : c.axiStrbWidth ≤ 2 ^ c.addrWidth) (req : AxiLiteReq c) :
    InReach req := by
  refine ⟨Or.inl hfit, ?_⟩
  intro hmapped i hi _ _ _ _
  have hend := c.chunk_end_le hmapped hfit
  omega

/-- Where lane `i` lands. -/
theorem toNat_regWIdx {req : AxiLiteReq c} (hwindow : c.Window (c.offset req.awAddr))
    (hmapped : c.Mapped req.awAddr) (i : ℕ) :
    (regWIdx req i).toNat = (c.chunk req.awAddr * c.axiStrbWidth + i) % 2 ^ c.addrWidth := by
  have hidx := (c.decode_of_mapped hwindow hmapped).2
  rw [regWIdx, byteWAddr, hidx, BitVec.toNat_add, BitVec.toNat_ofNat, BitVec.toNat_ofNat,
    ← Nat.add_mod]

/-- The lane of a byte of the chunk lands on it. -/
theorem toNat_regWIdx_lane {req : AxiLiteReq c} (hwindow : c.Window (c.offset req.awAddr))
    (hmapped : c.Mapped req.awAddr) {k : Fin c.regNumBytes}
    (hk : k.val / c.axiStrbWidth = c.chunk req.awAddr) :
    (regWIdx req (k.val % c.axiStrbWidth)).toNat = k.val := by
  have hroom := c.two_mul_regNumBytes_le
  have hlt := k.isLt
  rw [toNat_regWIdx hwindow hmapped, ← hk, Nat.div_add_mod']
  exact Nat.mod_eq_of_lt (by omega)

/-- Within reach, a strobed lane that lands on a byte is the lane of the byte. -/
theorem lane_of_lands {req : AxiLiteReq c} (hreach : InReach req)
    (hmapped : c.Mapped req.awAddr) {i : ℕ} (hi : i < c.axiStrbWidth)
    (hstrb : req.wStrb.getLsbD i = true) {k : Fin c.regNumBytes}
    (hro : c.axiReadOnly.getLsbD k = false) (hlands : (regWIdx req i).toNat = k.val) :
    k.val / c.axiStrbWidth = c.chunk req.awAddr ∧ k.val % c.axiStrbWidth = i := by
  rw [toNat_regWIdx hreach.window hmapped] at hlands
  have hexact := hreach.lanes hmapped i hi hstrb k hlands hro
  rw [Nat.mod_eq_of_lt hexact, Nat.mul_comm] at hlands
  rw [← hlands]
  constructor
  · rw [Nat.mul_add_div c.axiStrbWidth_pos, Nat.div_eq_of_lt hi, Nat.add_zero]
  · rw [Nat.mul_add_mod, Nat.mod_eq_of_lt hi]

/-- A byte that some lane lands on is in the chunk, also where lanes wrap
around: then there is no other chunk. -/
theorem chunk_of_lands {req : AxiLiteReq c} (hwindow : c.Window (c.offset req.awAddr))
    (hmapped : c.Mapped req.awAddr) {i : ℕ} (hi : i < c.axiStrbWidth)
    (hlt : (regWIdx req i).toNat < c.regNumBytes) :
    (regWIdx req i).toNat / c.axiStrbWidth = c.chunk req.awAddr := by
  by_cases hfit : c.axiStrbWidth ≤ 2 ^ c.addrWidth
  · have hend := c.chunk_end_le hmapped hfit
    rw [toNat_regWIdx hwindow hmapped, Nat.mod_eq_of_lt (by omega), Nat.mul_comm,
      Nat.mul_add_div c.axiStrbWidth_pos, Nat.div_eq_of_lt hi, Nat.add_zero]
  · have hroom := c.two_mul_regNumBytes_le
    have hsmall : c.regNumBytes < c.axiStrbWidth := by omega
    rw [c.chunk_eq_zero hmapped hfit]
    exact Nat.div_eq_of_lt (hlt.trans hsmall)

/-! ## The flags of a chunk -/

/-- The write waits exactly if it would hit a byte that is being loaded. -/
theorem chunkLoaded_iff {inp : RegfileIn c} (hreach : InReach inp.axiReqI)
    (hmapped : c.Mapped inp.axiReqI.awAddr) (hprot : c.protOk inp.axiReqI.awProt = true) :
    chunkLoaded inp = true ↔ HitsLoaded inp := by
  simp only [chunkLoaded, List.any_eq_true, List.mem_range, Bool.and_eq_true]
  constructor
  · rintro ⟨i, hi, hload, hstrb⟩
    rw [load] at hload
    split_ifs at hload with hlt
    simp only [Bool.and_eq_true, Bool.not_eq_true'] at hload
    rcases hload with ⟨hloaded, hro⟩
    rcases lane_of_lands (k := ⟨_, hlt⟩) hreach hmapped hi hstrb hro rfl with ⟨hchunk, hlane⟩
    refine ⟨⟨_, hlt⟩, hloaded, hprot, hchunk, ?_, hro⟩
    rw [hlane]
    exact hstrb
  · rintro ⟨k, hloaded, _, hchunk, hstrb, hro⟩
    refine ⟨k.val % c.axiStrbWidth, Nat.mod_lt _ c.axiStrbWidth_pos, ?_, hstrb⟩
    have hlands := toNat_regWIdx_lane hreach.window hmapped hchunk
    simp only [load, hlands, k.isLt, hloaded, hro, if_true, Bool.not_false, Bool.and_true]

theorem chunkRo_iff {req : AxiLiteReq c} (hwindow : c.Window (c.offset req.awAddr))
    (hmapped : c.Mapped req.awAddr) : chunkRo req = true ↔ ¬ Writable req := by
  simp only [chunkRo, List.all_eq_true, List.mem_range]
  constructor
  · rintro hall ⟨k, hchunk, hro⟩
    have hone := hall _ (Nat.mod_lt k.val c.axiStrbWidth_pos)
    simp only [readOnly, toNat_regWIdx_lane hwindow hmapped hchunk, k.isLt, if_true] at hone
    rw [hro] at hone
    cases hone
  · intro hnone i hi
    rw [readOnly]
    split_ifs with hlt
    · by_contra hro
      exact hnone ⟨⟨_, hlt⟩, chunk_of_lands hwindow hmapped hi hlt, by simpa using hro⟩
    · rfl

/-- The response of a write that is made. -/
theorem resp_eq_expectedResp {req : AxiLiteReq c} (hwindow : c.Window (c.offset req.awAddr))
    (hmapped : c.Mapped req.awAddr) (hprot : c.protOk req.awProt = true) :
    (if chunkRo req then respSlverr else respOkay) = expectedResp req := by
  by_cases hwritable : Writable req
  · have hro : ¬ chunkRo req = true := fun hro => (chunkRo_iff hwindow hmapped).mp hro hwritable
    rw [if_neg hro, expectedResp, if_pos ⟨hmapped, hprot, hwritable⟩]
  · have hro : chunkRo req = true := (chunkRo_iff hwindow hmapped).mpr hwritable
    rw [if_pos hro, expectedResp, if_neg fun hand => hwritable hand.2.2]

/-! ## The loop over the lanes -/

/-- The bytes after the edge, if the process drives `o`. -/
def merged (s : AxiLiteRegfile c) (o : WriteComb c) (k : Fin c.regNumBytes) : BitVec 8 :=
  if o.regUpdate k then o.regD k else s.regQ k

/-- What lane `i` writes. -/
def laneWrite (req : AxiLiteReq c) (i : ℕ) : Option (Fin c.regNumBytes × BitVec 8) :=
  if h : (regWIdx req i).toNat < c.regNumBytes then
    if !c.axiReadOnly.getLsbD (regWIdx req i).toNat && req.wStrb.getLsbD i then
      some (⟨_, h⟩, req.wData.extractLsb' (8 * i) 8)
    else none
  else none

theorem laneWrite_eq_some_iff {req : AxiLiteReq c} {i : ℕ} {k : Fin c.regNumBytes} {v : BitVec 8} :
    laneWrite req i = some (k, v) ↔
      (regWIdx req i).toNat = k.val ∧ c.axiReadOnly.getLsbD k = false ∧
        req.wStrb.getLsbD i = true ∧ req.wData.extractLsb' (8 * i) 8 = v := by
  rw [laneWrite]
  constructor
  · intro h
    split_ifs at h with hlt hwrite
    rcases Option.some.inj h with ⟨rfl, rfl⟩
    simp only [Bool.and_eq_true, Bool.not_eq_true'] at hwrite
    exact ⟨rfl, hwrite.1, hwrite.2, rfl⟩
  · rintro ⟨hlands, hro, hstrb, rfl⟩
    have hlt : (regWIdx req i).toNat < c.regNumBytes := hlands ▸ k.isLt
    have hk : k = ⟨(regWIdx req i).toNat, hlt⟩ := Fin.ext hlands.symm
    subst hk
    rw [dif_pos hlt, if_pos]
    simp only [Bool.and_eq_true, Bool.not_eq_true']
    exact ⟨hro, hstrb⟩

/-- One iteration. -/
theorem merged_writeLane (s : AxiLiteRegfile c) (req : AxiLiteReq c) (o : WriteComb c) (i : ℕ) :
    merged s (writeLane req o i) = writeAll (merged s o) (laneWrite req i).toList := by
  rw [writeLane, laneWrite]
  split_ifs with hlt hwrite
  · funext k
    by_cases hk : k = ⟨(regWIdx req i).toNat, hlt⟩
    · subst hk
      simp [merged, hwrite]
    · simp [merged, hwrite, Function.update_of_ne hk]
  · funext k
    simp [merged, hwrite]
  · rfl

/-- The loop makes the writes of its lanes in order. -/
theorem merged_foldl (s : AxiLiteRegfile c) (req : AxiLiteReq c) (lanes : List ℕ)
    (o : WriteComb c) :
    merged s (lanes.foldl (writeLane req) o)
      = writeAll (merged s o) (lanes.filterMap (laneWrite req)) := by
  induction lanes generalizing o with
  | nil => rfl
  | cons i lanes ih =>
      rw [List.foldl_cons, ih, merged_writeLane, ← writeAll_append]
      congr 1
      cases h : laneWrite req i with
      | none => rw [List.filterMap_cons_none h]; rfl
      | some op => rw [List.filterMap_cons_some h]; rfl

/-- Within reach, a byte is written exactly if the write hits it, by its lane. -/
theorem mem_laneWrites_iff {req : AxiLiteReq c} (hreach : InReach req)
    (hmapped : c.Mapped req.awAddr) (hprot : c.protOk req.awProt = true)
    {k : Fin c.regNumBytes} {v : BitVec 8} :
    (k, v) ∈ (List.range c.axiStrbWidth).filterMap (laneWrite req)
      ↔ Hits req k ∧ written req k = v := by
  simp only [List.mem_filterMap, List.mem_range, laneWrite_eq_some_iff]
  constructor
  · rintro ⟨i, hi, hlands, hro, hstrb, rfl⟩
    rcases lane_of_lands hreach hmapped hi hstrb hro hlands with ⟨hchunk, rfl⟩
    exact ⟨⟨hprot, hchunk, hstrb, hro⟩, rfl⟩
  · rintro ⟨⟨_, hchunk, hstrb, hro⟩, rfl⟩
    exact ⟨_, Nat.mod_lt _ c.axiStrbWidth_pos, toNat_regWIdx_lane hreach.window hmapped hchunk,
      hro, hstrb, rfl⟩

/-- The bytes after the loop. -/
theorem merged_lanes (s : AxiLiteRegfile c) {req : AxiLiteReq c} (hreach : InReach req)
    (hmapped : c.Mapped req.awAddr) (hprot : c.protOk req.awProt = true)
    (k : Fin c.regNumBytes) :
    merged s ((List.range c.axiStrbWidth).foldl (writeLane req) (writeComb0 s)) k
      = if Hits req k then written req k else s.regQ k := by
  have hstart : merged s (writeComb0 s) = s.regQ := rfl
  rw [merged_foldl, hstart]
  split_ifs with hhits
  · -- a byte that is hit is written by its lane, and by no other with another value
    refine writeAll_of_agree ((mem_laneWrites_iff hreach hmapped hprot).mpr ⟨hhits, rfl⟩) ?_
    rintro ⟨k', v⟩ hmem rfl
    exact ((mem_laneWrites_iff hreach hmapped hprot).mp hmem).2.symm
  · -- one that is not hit is written by none
    refine writeAll_of_not_mem ?_
    intro hmem
    rcases List.mem_map.mp hmem with ⟨⟨k', v⟩, hop, rfl⟩
    exact hhits ((mem_laneWrites_iff hreach hmapped hprot).mp hop).1

/-! ## One edge -/

/-- A write that is presented and permitted does not meet the cut. -/
def Untruncated (s : AxiLiteRegfile c) (inp : RegfileIn c) : Prop :=
  presented s inp.axiReqI = true → c.protOk inp.axiReqI.awProt = true → InReach inp.axiReqI

instance (s : AxiLiteRegfile c) (inp : RegfileIn c) : Decidable (Untruncated s inp) :=
  inferInstanceAs (Decidable (_ → _ → _))

/-- A write that is decoded and permitted is in reach, and its chunk exists. -/
theorem Untruncated.of_allowed {s : AxiLiteRegfile c} {inp : RegfileIn c} (h : Untruncated s inp)
    (hpresented : presented s inp.axiReqI = true)
    (hallowed : ((c.decode inp.axiReqI.awAddr).decValidO && c.protOk inp.axiReqI.awProt) = true) :
    c.protOk inp.axiReqI.awProt = true ∧ InReach inp.axiReqI ∧ c.Mapped inp.axiReqI.awAddr := by
  rcases Bool.and_eq_true_iff.mp hallowed with ⟨hvalid, hprot⟩
  have hreach := h hpresented hprot
  refine ⟨hprot, hreach, ?_⟩
  by_contra hnot
  rw [c.decode_of_unmapped hreach.window hnot] at hvalid
  cases hvalid

/-- Every byte that is loaded is loaded with the value it has. -/
def LoadsKept (s : AxiLiteRegfile c) (inp : RegfileIn c) : Prop :=
  ∀ k : Fin c.regNumBytes, inp.regLoadI.getLsbD k = true → inp.regDI k = s.regQ k

instance (s : AxiLiteRegfile c) (inp : RegfileIn c) : Decidable (LoadsKept s inp) :=
  inferInstanceAs (Decidable (∀ _ : Fin _, _ → _))

/-- The four ways through the write process. -/
theorem writeComb_cases (s : AxiLiteRegfile c) (inp : RegfileIn c) :
    (presented s inp.axiReqI = false ∧ writeComb s inp = writeComb0 s) ∨
    (presented s inp.axiReqI = true ∧
      ((c.decode inp.axiReqI.awAddr).decValidO && c.protOk inp.axiReqI.awProt) = false ∧
      writeComb s inp = { writeComb0 s with bValid := true, awReady := true, wReady := true }) ∨
    (presented s inp.axiReqI = true ∧
      ((c.decode inp.axiReqI.awAddr).decValidO && c.protOk inp.axiReqI.awProt) = true ∧
      chunkLoaded inp = true ∧ writeComb s inp = writeComb0 s) ∨
    (presented s inp.axiReqI = true ∧
      ((c.decode inp.axiReqI.awAddr).decValidO && c.protOk inp.axiReqI.awProt) = true ∧
      chunkLoaded inp = false ∧
      writeComb s inp =
        { (List.range c.axiStrbWidth).foldl (writeLane inp.axiReqI) (writeComb0 s) with
          bChan := if chunkRo inp.axiReqI then respSlverr else respOkay
          bValid := true
          awReady := true
          wReady := true }) := by
  cases hpresented : presented s inp.axiReqI with
  | false => left; simp [writeComb, hpresented]
  | true =>
      cases hallowed : (c.decode inp.axiReqI.awAddr).decValidO && c.protOk inp.axiReqI.awProt with
      | false => right; left; simp [writeComb, hpresented, hallowed]
      | true =>
          cases hloaded : chunkLoaded inp with
          | true => right; right; left; simp [writeComb, hpresented, hallowed, hloaded]
          | false => right; right; right; simp [writeComb, hpresented, hallowed, hloaded]

/-- What an edge does. -/
structure Edge (s : AxiLiteRegfile c) (inp : RegfileIn c) : Prop where
  together : awTaken s inp = wTaken s inp
  accepted_iff : accepted s inp = true ↔ presented s inp.axiReqI = true ∧ ¬ HitsLoaded inp
  regQ : ∀ k, (step s inp).regQ k
    = if accepted s inp = true ∧ Hits inp.axiReqI k then written inp.axiReqI k else s.regQ k
  pushed : bPushed s inp = bExpected s inp

/-- No write goes through: none is presented, or it waits. -/
theorem edge_of_idle {s : AxiLiteRegfile c} {inp : RegfileIn c}
    (hcomb : writeComb s inp = writeComb0 s)
    (hidle : ¬ (presented s inp.axiReqI = true ∧ ¬ HitsLoaded inp)) : Edge s inp := by
  have haw : awTaken s inp = false := by simp [awTaken, hcomb, writeComb0]
  have hw : wTaken s inp = false := by simp [wTaken, hcomb, writeComb0]
  have hnone : accepted s inp = false := by rw [accepted, haw, Bool.false_and]
  refine ⟨haw.trans hw.symm, ?_, ?_, ?_⟩
  · rw [hnone]
    exact iff_of_false Bool.false_ne_true hidle
  · intro k
    rw [hnone, if_neg (fun h => Bool.false_ne_true h.1)]
    simp [step, hcomb, writeComb0]
  · simp [bPushed, Spill.pushed, bSpillIn, hcomb, writeComb0, slot, bExpected, hnone]

/-- A write goes through. -/
theorem edge_of_taken {s : AxiLiteRegfile c} {inp : RegfileIn c}
    (hpresented : presented s inp.axiReqI = true) (hfree : ¬ HitsLoaded inp)
    (hready : (writeComb s inp).awReady = true ∧ (writeComb s inp).wReady = true)
    (hresp : (writeComb s inp).bValid = true ∧
      (writeComb s inp).bChan = expectedResp inp.axiReqI)
    (hbytes : ∀ k, merged s (writeComb s inp) k
      = if Hits inp.axiReqI k then written inp.axiReqI k else s.regQ k) : Edge s inp := by
  have hvalid := hpresented
  simp only [presented, Bool.and_eq_true] at hvalid
  rcases hvalid with ⟨⟨haw, hw⟩, hspill⟩
  -- both channels are taken at the same edge
  have haw' : awTaken s inp = true := by rw [awTaken, haw, hready.1, Bool.and_true]
  have hw' : wTaken s inp = true := by rw [wTaken, hw, hready.2, Bool.and_true]
  have htaken : accepted s inp = true := by rw [accepted, haw', hw', Bool.and_true]
  refine ⟨haw'.trans hw'.symm, ?_, ?_, ?_⟩
  · exact iff_of_true htaken ⟨hpresented, hfree⟩
  · intro k
    rw [htaken]
    simp only [true_and]
    exact hbytes k
  · simp [bPushed, Spill.pushed, bSpillIn, hresp.1, hresp.2, hspill, slot, bExpected, htaken]

/-- Within reach, an edge does what the documentation says of writes: the
loads are left out of it, except that a write waits for them. -/
theorem edge_of_untruncated {s : AxiLiteRegfile c} {inp : RegfileIn c} (h : Untruncated s inp) :
    Edge s inp := by
  rcases writeComb_cases s inp with ⟨hp, hcomb⟩ | ⟨hp, hrefused, hcomb⟩ |
    ⟨hp, hallowed, hloaded, hcomb⟩ | ⟨hp, hallowed, hloaded, hcomb⟩
  · -- nothing is presented
    refine edge_of_idle hcomb ?_
    rw [hp]
    exact fun hand => Bool.false_ne_true hand.1
  · -- unmapped or not permitted: an error, and nothing is hit
    have hnot : ¬ (c.Mapped inp.axiReqI.awAddr ∧ c.protOk inp.axiReqI.awProt = true) := by
      rintro ⟨hmapped, hprot⟩
      rw [(c.decode_of_mapped (h hp hprot).window hmapped).1, hprot] at hrefused
      cases hrefused
    have hmiss : ∀ k, ¬ Hits inp.axiReqI k := fun k hk => hnot ⟨mapped_of_hits hk, hk.1⟩
    refine edge_of_taken hp (fun hload => hload.elim fun k hk => hmiss k hk.2) ?_ ?_ ?_
    · rw [hcomb]
      exact ⟨rfl, rfl⟩
    · rw [hcomb, expectedResp, if_neg fun hand => hnot ⟨hand.1, hand.2.1⟩]
      exact ⟨rfl, rfl⟩
    · intro k
      rw [hcomb, if_neg (hmiss k)]
      rfl
  · -- the write waits for a load
    rcases h.of_allowed hp hallowed with ⟨hprot, hreach, hmapped⟩
    have hwaits := (chunkLoaded_iff hreach hmapped hprot).mp hloaded
    exact edge_of_idle hcomb fun hand => hand.2 hwaits
  · -- the write is made
    rcases h.of_allowed hp hallowed with ⟨hprot, hreach, hmapped⟩
    have hfree : ¬ HitsLoaded inp := by
      rw [← chunkLoaded_iff hreach hmapped hprot, hloaded]
      exact Bool.false_ne_true
    refine edge_of_taken hp hfree ?_ ?_ ?_
    · rw [hcomb]
      exact ⟨rfl, rfl⟩
    · rw [hcomb]
      exact ⟨rfl, resp_eq_expectedResp hreach.window hmapped hprot⟩
    · intro k
      rw [hcomb, ← merged_lanes s hreach hmapped hprot k]
      rfl

/-- Within reach, an edge keeps the documentation exactly if the loads ask for
nothing new. -/
theorem edgeKeeps_iff_loadsKept {s : AxiLiteRegfile c} {inp : RegfileIn c}
    (h : Untruncated s inp) : EdgeKeeps s inp ↔ LoadsKept s inp := by
  have hedge := edge_of_untruncated h
  have hstalled : HitsLoaded inp → accepted s inp = false := by
    intro hload
    rw [Bool.eq_false_iff]
    exact fun htaken => (hedge.accepted_iff.mp htaken).2 hload
  -- a byte that is loaded is not written, so it keeps its value
  have hkeep : ∀ k : Fin c.regNumBytes, inp.regLoadI.getLsbD k = true →
      (step s inp).regQ k = s.regQ k := by
    intro k hload
    rw [hedge.regQ k]
    refine if_neg ?_
    rintro ⟨htaken, hhits⟩
    rw [hstalled ⟨k, hload, hhits⟩] at htaken
    cases htaken
  constructor
  · -- the documentation asks for the byte loaded, and the code keeps the old one
    intro hkeeps k hload
    have hbyte := hkeeps.bytes k
    rw [hkeep k hload, hload, if_pos rfl] at hbyte
    exact hbyte.symm
  · intro hloads
    refine ⟨hedge.together, ?_, hstalled⟩
    intro k
    cases hload : inp.regLoadI.getLsbD k with
    | true => rw [hkeep k hload, if_pos rfl, hloads k hload]
    | false =>
        rw [hedge.regQ k]
        exact (if_neg Bool.false_ne_true).symm

/-! ## Runs -/

/-- The B spill register keeps the responses in order, whatever the requests. -/
theorem b_order_of_run (ins : List (RegfileIn c)) :
    events step bPushed (reset c) ins
      = events step bDelivered (reset c) ins ++ bHeld (run step (reset c) ins) := by
  exact Spill.fed_order_of_run (fun s : AxiLiteRegfile c => s.iBSpill) bSpillIn
    (fun _ _ => rfl) (reset c) ins

/-- Within reach, each accepted pair is answered once, in order and as due. -/
theorem responses_of_run {ins : List (RegfileIn c)} (h : Along step Untruncated (reset c) ins) :
    events step bExpected (reset c) ins
      = events step bDelivered (reset c) ins ++ bHeld (run step (reset c) ins) := by
  rw [← b_order_of_run]
  refine events_congr_along (along_mono step ?_ h)
  intro s inp hun
  exact (edge_of_untruncated hun).pushed.symm

/-- The bytes written at an edge. -/
def byteWrites (s : AxiLiteRegfile c) (inp : RegfileIn c) : List (Fin c.regNumBytes × BitVec 8) :=
  if accepted s inp then
    ((List.finRange c.regNumBytes).filter fun k => Hits inp.axiReqI k).map
      fun k => (k, written inp.axiReqI k)
  else []

theorem regQ_step_eq_writeAll {s : AxiLiteRegfile c} {inp : RegfileIn c} (h : Untruncated s inp) :
    (step s inp).regQ = writeAll s.regQ (byteWrites s inp) := by
  funext k
  rw [(edge_of_untruncated h).regQ k, byteWrites]
  cases htaken : accepted s inp with
  | false => rw [if_neg fun hand => Bool.false_ne_true hand.1]; rfl
  | true =>
      simp only [true_and, if_true]
      by_cases hhits : Hits inp.axiReqI k
      · rw [if_pos hhits]
        refine (writeAll_of_agree ?_ ?_).symm
        · exact List.mem_map_of_mem
            (List.mem_filter.mpr ⟨List.mem_finRange k, by simpa using hhits⟩)
        · -- each byte is written once at the edge
          intro op hop hkey
          rcases List.mem_map.mp hop with ⟨k', _, rfl⟩
          rw [← hkey]
      · rw [if_neg hhits]
        refine (writeAll_of_not_mem ?_).symm
        intro hmem
        rcases List.mem_map.mp hmem with ⟨op, hop, rfl⟩
        rcases List.mem_map.mp hop with ⟨k', hk', rfl⟩
        exact hhits (by simpa using (List.mem_filter.mp hk').2)

/-- Within reach, the register file is a byte store: whatever the loads, the
bytes are the reset values under the writes of the accepted pairs, in order. -/
theorem regQ_of_run {ins : List (RegfileIn c)} (h : Along step Untruncated (reset c) ins) :
    (run step (reset c) ins).regQ
      = writeAll c.regRstVal (events step byteWrites (reset c) ins) := by
  induction ins using List.reverseRecOn with
  | nil => rfl
  | append_singleton pre inp ih =>
      rcases (along_append step (reset c) Untruncated pre [inp]).mp h with ⟨hpre, hlast, _⟩
      rw [run_concat, regQ_step_eq_writeAll hlast, ih hpre, events_concat, writeAll_append]

/-- The read data that enters the R spill register at an edge. -/
def rPushed (s : AxiLiteRegfile c) (inp : RegfileIn c) : List (RChan c) :=
  s.iRSpill.pushed (rSpillIn s inp)

/-- The read data delivered at an edge. -/
def rDelivered (s : AxiLiteRegfile c) (inp : RegfileIn c) : List (RChan c) :=
  s.iRSpill.popped (rSpillIn s inp)

/-- Each accepted read is answered once and in order, with what the read
process drives when it is accepted. -/
theorem r_order_of_run (ins : List (RegfileIn c)) :
    events step rPushed (reset c) ins
      = events step rDelivered (reset c) ins ++ (run step (reset c) ins).iRSpill.contents := by
  exact Spill.fed_order_of_run (fun s : AxiLiteRegfile c => s.iRSpill) rSpillIn
    (fun _ _ => rfl) (reset c) ins

/-- Within reach, a run keeps the documentation exactly if its loads ask for
nothing new. -/
theorem keeps_iff_of_untruncated {ins : List (RegfileIn c)}
    (h : Along step Untruncated (reset c) ins) :
    Keeps c ins ↔ Along step LoadsKept (reset c) ins := by
  constructor
  · intro hkeeps
    have hboth := (along_and step).mpr ⟨h, hkeeps.edges⟩
    exact along_mono step (fun _ _ hand => (edgeKeeps_iff_loadsKept hand.1).mp hand.2) hboth
  · intro hloads
    have hboth := (along_and step).mpr ⟨h, hloads⟩
    exact ⟨along_mono step (fun _ _ hand => (edgeKeeps_iff_loadsKept hand.1).mpr hand.2) hboth,
      responses_of_run h⟩

theorem untruncated_of_fit (hfit : c.axiStrbWidth ≤ 2 ^ c.addrWidth) (s : AxiLiteRegfile c)
    (inp : RegfileIn c) : Untruncated s inp :=
  fun _ _ => inReach_of_fit hfit inp.axiReqI

/-- `axi_lite_regfile` keeps its documentation in every run in which each load
is of the value the byte has and no permitted write meets the cut to
`AddrWidth` bits. With a data word that fits into the address space no write
does, and then the condition on the loads is also necessary. -/
theorem keeps_documentation_of_run (c : RegfileCfg) (ins : List (RegfileIn c)) :
    (Along step (fun s inp => Untruncated s inp ∧ LoadsKept s inp) (reset c) ins → Keeps c ins) ∧
    (c.axiStrbWidth ≤ 2 ^ c.addrWidth →
      (Keeps c ins ↔ Along step LoadsKept (reset c) ins)) := by
  constructor
  · intro h
    rcases (along_and step).mp h with ⟨hun, hloads⟩
    exact (keeps_iff_of_untruncated hun).mpr hloads
  · -- no word is larger than the address space, so nothing is cut
    intro hfit
    exact keeps_iff_of_untruncated (along_of_forall step (untruncated_of_fit hfit) (reset c) ins)

/-- Four bytes behind a 32-bit port. -/
def fourBytes : RegfileCfg where
  regNumBytes := 4
  axiAddrWidth := 32
  axiDataWidth := 32
  privProtOnly := false
  secuProtOnly := false
  axiReadOnly := 0
  regRstVal := fun _ => 0
  regNumBytes_pos := by decide
  regNumBytes_le := by decide
  axiDataWidth_ge := by decide

/-- No transaction. -/
def quietReq (c : RegfileCfg) : AxiLiteReq c :=
  ⟨0, 0, false, 0, 0, false, true, 0, 0, false, true⟩

/-- Two bytes behind a 64-bit port, addressed with two bits. -/
def twoBytes : RegfileCfg :=
  { fourBytes with
    regNumBytes := 2
    axiDataWidth := 64
    axiReadOnly := 0
    regRstVal := fun _ => 0
    regNumBytes_pos := by decide
    regNumBytes_le := by decide
    axiDataWidth_ge := by decide }

/-- A write to both bytes. -/
def writeBoth (wData : BitVec 64) : AxiLiteReq twoBytes :=
  { quietReq twoBytes with
    awValid := true
    wData := wData
    wStrb := 0b11
    wValid := true }

/-- Two writes, the second one stalled for a cycle by a load of the value that
the first one left in byte 0. -/
def twoWrites : List (RegfileIn twoBytes) :=
  [⟨writeBoth 0x2211, fun _ => 0, 0⟩, ⟨writeBoth 0x4433, fun _ => 0x11, 0b01⟩,
    ⟨writeBoth 0x4433, fun _ => 0, 0⟩]

theorem two_writes_keep_documentation :
    Keeps twoBytes twoWrites ∧
      events step (fun s inp => [accepted s inp]) (reset twoBytes) twoWrites
        = [true, false, true] ∧
      (run step (reset twoBytes) twoWrites).regQ ⟨0, by decide⟩ = 0x33 ∧
      (run step (reset twoBytes) twoWrites).regQ ⟨1, by decide⟩ = 0x44 :=
  ⟨(keeps_documentation_of_run twoBytes twoWrites).1 (by decide), by decide, by decide,
    by decide⟩

/-- A load of `0xAB` into byte 0, without a transaction. -/
def loadByte0 : RegfileIn fourBytes := ⟨quietReq fourBytes, fun _ => 0xAB, 0b0001⟩

/-- The load is lost: byte 0 keeps its reset value. -/
theorem not_always_keeps_documentation :
    ¬ ∀ (c : RegfileCfg) (ins : List (RegfileIn c)), Keeps c ins := by
  intro h
  have hbyte := (h fourBytes [loadByte0]).edges.1.bytes ⟨0, by decide⟩
  exact absurd hbyte (by decide)

/-- The cut, where a chunk does not fit: lane 4 of the data word lands on byte 0. -/
example :
    let req : AxiLiteReq twoBytes :=
      { quietReq twoBytes with
        awValid := true
        wData := 0xAB00000000
        wStrb := 0b10000
        wValid := true }
    (step (reset twoBytes) ⟨req, fun _ => 0, 0⟩).regQ ⟨0, by decide⟩ = 0xAB := by
  decide

/-- An instance whose load inputs are tied to 0 keeps the documentation, as
long as a data word fits into its address space. -/
theorem keeps_of_no_loads (hfit : c.axiStrbWidth ≤ 2 ^ c.addrWidth) {ins : List (RegfileIn c)}
    (hloads : ∀ inp ∈ ins, inp.regLoadI = 0) : Keeps c ins := by
  have hun := along_of_forall step (untruncated_of_fit hfit) (reset c) ins
  refine (keeps_iff_of_untruncated hun).mpr ?_
  refine along_mono step ?_ (along_of_inputs step hloads)
  intro s inp hzero k hload
  rw [hzero] at hload
  simp at hload

end AxiLiteRegfile

end SocRtl.Bus
