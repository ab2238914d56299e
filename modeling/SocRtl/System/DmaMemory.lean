import SocRtl.System.WriteDma

/-!
# SocRtl.System.DmaMemory — both DMA channels on one memory

`mst_imp_w_ch` and `mst_imp_r_ch` wired directly to one `axi_lite_memory`.

The write channel and the memory are a `WriteDma`, which the read channel only
adds reads to: every address is accepted at once, and the `n`-th address since
reset is written with the number `n`. A write job thus leaves consecutive
numbers in its window and a read job over the same window returns them.
-/

namespace SocRtl.System

open Dma Mem Handshake Store

/-! ## Windows that fit -/

/-- The window of a configuration fits into the memory: it is made of words,
its lines do not overlap, and it is not longer than the memory. -/
structure Fits (c : ImpCfg) : Prop where
  base : c.baddr.toNat % 4 = 0
  pitch : c.adrPitch.toNat % 4 = 0
  row : 4 * c.beats ≤ c.adrPitch.toNat
  window : (c.vsize.toNat - 1) * c.adrPitch.toNat + 4 * c.beats ≤ 131072

/-- The word of the window that beat `k` addresses. -/
def wordOffset (c : ImpCfg) (k : ℕ) : ℕ := k / c.beats * (c.adrPitch.toNat / 4) + k % c.beats

/-- The end-of-frame count of a window that fits does not wrap. -/
theorem lines_of_fits {c : ImpCfg} (h : Fits c) (hv : 1 ≤ c.vsize.toNat) :
    c.lines = c.vsize.toNat := by
  have hbeats := c.beats_pos
  have hrow := h.row
  have hwindow := h.window
  have hmul : (c.vsize.toNat - 1) * 4 ≤ (c.vsize.toNat - 1) * c.adrPitch.toNat :=
    Nat.mul_le_mul_left _ (by omega)
  have hy := c.coorMiny.isLt
  exact ImpCfg.lines_eq hv (by omega)

theorem wordOffset_lt {c : ImpCfg} (h : Fits c) (hv : 1 ≤ c.vsize.toNat) {k : ℕ}
    (hk : k < c.total) : wordOffset c k < 32768 := by
  have hline : k / c.beats < c.vsize.toNat := by
    rw [← lines_of_fits h hv]
    exact Nat.div_lt_of_lt_mul hk
  have hword := Nat.mod_lt k c.beats_pos
  have hwindow := h.window
  have hpitch : c.adrPitch.toNat = 4 * (c.adrPitch.toNat / 4) := by
    have := h.pitch
    omega
  rw [hpitch, Nat.mul_left_comm] at hwindow
  have hmul : k / c.beats * (c.adrPitch.toNat / 4)
      ≤ (c.vsize.toNat - 1) * (c.adrPitch.toNat / 4) := Nat.mul_le_mul_right _ (by omega)
  unfold wordOffset
  omega

/-- Different beats are different words of the window. -/
theorem wordOffset_inj {c : ImpCfg} (h : Fits c) {k k' : ℕ}
    (heq : wordOffset c k = wordOffset c k') : k = k' := by
  have hpitch : c.beats ≤ c.adrPitch.toNat / 4 := by
    have := h.row
    omega
  have hsplit : ∀ k, wordOffset c k / (c.adrPitch.toNat / 4) = k / c.beats ∧
      wordOffset c k % (c.adrPitch.toNat / 4) = k % c.beats := by
    intro k
    have hlt : k % c.beats < c.adrPitch.toNat / 4 :=
      Nat.lt_of_lt_of_le (Nat.mod_lt k c.beats_pos) hpitch
    rw [wordOffset, Nat.add_comm, Nat.mul_comm, Nat.add_mul_div_left _ _ (by omega),
      Nat.add_mul_mod_self_left, Nat.div_eq_of_lt hlt, Nat.mod_eq_of_lt hlt, Nat.zero_add]
    exact ⟨rfl, rfl⟩
  rcases hsplit k with ⟨hdiv, hmod⟩
  rcases hsplit k' with ⟨hdiv', hmod'⟩
  rw [← Nat.div_add_mod k c.beats, ← Nat.div_add_mod k' c.beats, ← hdiv, ← hmod, ← hdiv', ← hmod',
    heq]

/-- The address of beat `k` in words. -/
theorem toNat_wordIndex_addrAt {c : ImpCfg} (h : Fits c) (k : ℕ) :
    (wordIndex 15 (c.addrAt k)).toNat = (c.baddr.toNat / 4 + wordOffset c k) % 32768 := by
  have hbase := h.base
  have hpitch : c.adrPitch.toNat = 4 * (c.adrPitch.toNat / 4) := by
    have := h.pitch
    omega
  have haddr := c.toNat_addrAt k
  rw [hpitch, Nat.mul_left_comm] at haddr
  rw [toNat_wordIndex, haddr]
  unfold wordOffset
  omega

/-- Different beats of a job address different words of the memory. -/
theorem wordIndex_addrAt_inj {c : ImpCfg} (h : Fits c) (hv : 1 ≤ c.vsize.toNat) {k k' : ℕ}
    (hk : k < c.total) (hk' : k' < c.total)
    (heq : wordIndex 15 (c.addrAt k) = wordIndex 15 (c.addrAt k')) : k = k' := by
  have hidx := congrArg BitVec.toNat heq
  rw [toNat_wordIndex_addrAt h, toNat_wordIndex_addrAt h] at hidx
  have hlt := wordOffset_lt h hv hk
  have hlt' := wordOffset_lt h hv hk'
  exact wordOffset_inj h (by omega)

/-! ## Model -/

/-- The registers of the system. -/
structure DmaMemory (M : Sram 15) where
  w : MstImpWCh
  r : MstImpRCh
  m : AxiLiteMemory M

/-- The inputs at a clock edge: configuration and start bit of each channel. -/
structure DmaMemoryIn where
  wCfg : ImpCfg
  wSt : Bool
  rCfg : ImpCfg
  rSt : Bool

namespace DmaMemory

variable {M : Sram 15}

/-- Reset. The SRAM keeps what it held. -/
def reset (s : DmaMemory M) : DmaMemory M := ⟨MstImpWCh.reset, MstImpRCh.reset, s.m.reset⟩

/-- What the write channel sees. -/
def wIn (s : DmaMemory M) (i : DmaMemoryIn) : MstImpWChIn where
  cfg := i.wCfg
  impSt := i.wSt
  memAxiAwready := s.m.sAwReady
  memAxiWready := s.m.sWReady

/-- What the read channel sees. -/
def rIn (s : DmaMemory M) (i : DmaMemoryIn) : MstImpRChIn where
  cfg := i.rCfg
  impSt := i.rSt
  memAxiArready := AxiLiteMemory.sArReady
  memAxiRvalid := s.m.sRValid
  memAxiRdata := s.m.sRData

/-- What the memory sees. -/
def mIn (s : DmaMemory M) (_ : DmaMemoryIn) : AxiLiteIn where
  sAwValid := s.w.ch.xtAxiValid
  sAwAddr := s.w.ch.xtAxiAddr
  sWValid := MstImpWCh.memAxiWvalid
  sWData := s.w.xtAxiWdata
  sWStrb := MstImpWCh.memAxiWstrb
  sBReady := MstImpWCh.memAxiBready
  sArValid := s.r.ch.xtAxiValid
  sArAddr := s.r.ch.xtAxiAddr
  sRReady := MstImpRCh.memAxiRready

/-- One clock edge. -/
def step (s : DmaMemory M) (i : DmaMemoryIn) : DmaMemory M where
  w := s.w.step (s.wIn i)
  r := s.r.step (s.rIn i)
  m := s.m.step (s.mIn i)

/-- What the address generators see. -/
def wPort (s : DmaMemory M) (i : DmaMemoryIn) : ImpChIn := MstImpWCh.chIn (s.wIn i)

def rPort (s : DmaMemory M) (i : DmaMemoryIn) : ImpChIn := MstImpRCh.chIn (s.rIn i)

/-- The address handshaked on AW at the edge. -/
def awBeat (s : DmaMemory M) (i : DmaMemoryIn) : List (BitVec 32) := s.w.ch.beat (s.wPort i)

/-- The address handshaked on AR at the edge. -/
def arBeat (s : DmaMemory M) (i : DmaMemoryIn) : List (BitVec 32) := s.r.ch.beat (s.rPort i)

/-- The word handshaked on R at the edge. -/
def rBeat (s : DmaMemory M) (_ : DmaMemoryIn) : List (BitVec 32) :=
  slot (s.m.sRValid && MstImpRCh.memAxiRready) s.m.sRData

/-- The data word handshaked on W at the edge. -/
def wBeat (s : DmaMemory M) (i : DmaMemoryIn) : List (BitVec 32) := s.m.wTaken (s.mIn i)

def awLog (s : DmaMemory M) (ins : List DmaMemoryIn) : List (BitVec 32) := events step awBeat s ins

def wLog (s : DmaMemory M) (ins : List DmaMemoryIn) : List (BitVec 32) := events step wBeat s ins

def arLog (s : DmaMemory M) (ins : List DmaMemoryIn) : List (BitVec 32) := events step arBeat s ins

def rLog (s : DmaMemory M) (ins : List DmaMemoryIn) : List (BitVec 32) := events step rBeat s ins

/-! ## The write side -/

/-- The write channel and the memory. -/
def writeDma (s : DmaMemory M) : WriteDma M := ⟨s.w, s.m⟩

/-- What they see: the read channel reads. -/
def writeDmaIn (s : DmaMemory M) (i : DmaMemoryIn) : WriteDmaIn where
  cfg := i.wCfg
  impSt := i.wSt
  sArValid := s.r.ch.xtAxiValid
  sArAddr := s.r.ch.xtAxiAddr
  sRReady := MstImpRCh.memAxiRready

theorem writeDma_step (s : DmaMemory M) (i : DmaMemoryIn) :
    (s.step i).writeDma = s.writeDma.step (s.writeDmaIn i) := rfl

theorem m_step (s : DmaMemory M) (i : DmaMemoryIn) : (s.step i).m = s.m.step (s.mIn i) := rfl

theorem awLog_eq (s : DmaMemory M) (ins : List DmaMemoryIn) :
    awLog s ins = s.writeDma.awLog (trace step writeDmaIn s ins) :=
  events_fed writeDma_step WriteDma.awBeat s ins

/-- The store after the next edge: all addresses since reset written, each
with its number. -/
theorem word_concat (s : DmaMemory M) (ins : List DmaMemoryIn) (i : DmaMemoryIn) :
    (run step s.reset (ins ++ [i])).m.word
      = writeAll s.m.word ((awLog s.reset ins).mapIdx
          fun n addr => (wordIndex 15 addr, BitVec.ofNat 32 n)) := by
  have hrun : (run step s.reset (ins ++ [i])).writeDma
      = run WriteDma.step s.writeDma.reset (trace step writeDmaIn s.reset (ins ++ [i])) :=
    run_fed writeDma_step s.reset (ins ++ [i])
  have hword := congrArg (fun d : WriteDma M => d.m.word) hrun
  rw [trace_append, trace_cons, trace_nil, WriteDma.word_concat] at hword
  rw [awLog_eq]
  exact hword

/-! ## Invariants -/

/-- The processing flags are the valids, and the data of an address is never
late. -/
structure Inv (s : DmaMemory M) : Prop where
  w : s.w.ch.xtProcessing = s.w.ch.xtAxiValid
  r : s.r.ch.xtProcessing = s.r.ch.xtAxiValid
  data : s.m.pair.xtAwValid = true → s.m.pair.xtWValid = true

theorem inv_reset (s : DmaMemory M) : Inv s.reset := by
  constructor
  · rfl
  · rfl
  · exact WriteDma.dataReady_reset s.writeDma

theorem inv_step {s : DmaMemory M} (h : Inv s) (i : DmaMemoryIn) : Inv (s.step i) := by
  constructor
  · simp [step, MstImpWCh.step, ImpCh.step, h.w]
  · simp [step, MstImpRCh.step, ImpCh.step, h.r]
  · exact WriteDma.dataReady_step s.writeDma (s.writeDmaIn i)

theorem inv_run {s : DmaMemory M} (h : Inv s) (ins : List DmaMemoryIn) : Inv (run step s ins) :=
  run_preserves Inv h (fun _ i hs => inv_step hs i) ins

/-- An address is accepted whenever it is offered. -/
theorem sAwReady_of_inv {s : DmaMemory M} (h : Inv s) : s.m.sAwReady = true :=
  WriteDma.sAwReady_of_dataReady (s := s.writeDma) h.data

/-! ## Jobs -/

/-- A start bit rises. The bits are registers of the system, so one may stay
high for as long as it likes; only its edge starts a job. -/
def WStarts (s : DmaMemory M) (i : DmaMemoryIn) : Prop := s.w.ch.Starts (s.wPort i)

def RStarts (s : DmaMemory M) (i : DmaMemoryIn) : Prop := s.r.ch.Starts (s.rPort i)

instance (s : DmaMemory M) (i : DmaMemoryIn) : Decidable (s.WStarts i) :=
  inferInstanceAs (Decidable (s.w.ch.Starts (s.wPort i)))

instance (s : DmaMemory M) (i : DmaMemoryIn) : Decidable (s.RStarts i) :=
  inferInstanceAs (Decidable (s.r.ch.Starts (s.rPort i)))

/-- Both channels are idle and no start is pending. -/
structure AtRest (s : DmaMemory M) : Prop where
  wIdle : s.w.ch.xtAxiValid = false
  wTrg : s.w.ch.xtAllProcTrg = false
  rIdle : s.r.ch.xtAxiValid = false
  rTrg : s.r.ch.xtAllProcTrg = false

/-- A write job: a start edge and no further one, the configuration stable, and
the read channel not started. -/
structure WriteJob (s : DmaMemory M) (c : ImpCfg) (i : DmaMemoryIn) (ins : List DmaMemoryIn) :
    Prop where
  nonempty : ins ≠ []
  start : s.WStarts i
  once : Along step (fun s x => ¬ s.WStarts x) (s.step i) ins
  cfg : ∀ x ∈ ins, x.wCfg = c
  noRead : Along step (fun s x => ¬ s.RStarts x) s (i :: ins)

/-- A read job: the same with the channels exchanged. -/
structure ReadJob (s : DmaMemory M) (c : ImpCfg) (i : DmaMemoryIn) (ins : List DmaMemoryIn) :
    Prop where
  nonempty : ins ≠ []
  start : s.RStarts i
  once : Along step (fun s x => ¬ s.RStarts x) (s.step i) ins
  cfg : ∀ x ∈ ins, x.rCfg = c
  noWrite : Along step (fun s x => ¬ s.WStarts x) s (i :: ins)

theorem wCh_step (s : DmaMemory M) (i : DmaMemoryIn) :
    (s.step i).w.ch = s.w.ch.step (s.wPort i) := rfl

theorem rCh_step (s : DmaMemory M) (i : DmaMemoryIn) :
    (s.step i).r.ch = s.r.ch.step (s.rPort i) := rfl

/-- The write channel rests while it is not started. -/
theorem w_rest {s : DmaMemory M} (hs : Inv s) (hidle : s.w.ch.xtAxiValid = false)
    (htrg : s.w.ch.xtAllProcTrg = false) {ins : List DmaMemoryIn}
    (hst : Along step (fun s x => ¬ s.WStarts x) s ins) :
    ImpCh.Idle (run step s ins).w.ch ∧ (run step s ins).w.ch.xtAllProcTrg = false :=
  ImpCh.rest_fed (fun s : DmaMemory M => s.w.ch) wPort wCh_step
    ⟨hs.w.trans hidle, hidle⟩ htrg hst

/-- So does the read channel. -/
theorem r_rest {s : DmaMemory M} (hs : Inv s) (hidle : s.r.ch.xtAxiValid = false)
    (htrg : s.r.ch.xtAllProcTrg = false) {ins : List DmaMemoryIn}
    (hst : Along step (fun s x => ¬ s.RStarts x) s ins) :
    ImpCh.Idle (run step s ins).r.ch ∧ (run step s ins).r.ch.xtAllProcTrg = false :=
  ImpCh.rest_fed (fun s : DmaMemory M => s.r.ch) rPort rCh_step
    ⟨hs.r.trans hidle, hidle⟩ htrg hst

/-- A write job makes its beats one after the other: the slave is ready in
every cycle. -/
theorem write_job {s : DmaMemory M} (hs : Inv s) (hrest : AtRest s) {c : ImpCfg}
    {i : DmaMemoryIn} {ins : List DmaMemoryIn} (h : WriteJob s c i ins) :
    awLog s (i :: ins) = (List.range (min c.total (ins.length - 1))).map c.addrAt ∧
      ImpCh.Job c (min c.total (ins.length - 1)) (run step s (i :: ins)).w.ch ∧
      (run step s (i :: ins)).w.ch.xtAllProcTrg = false := by
  -- the slave accepts an address in every cycle, so every cycle counts
  have hready : Along step (fun s _ => s.m.sAwReady = true) (s.step i) ins :=
    along_mono step (fun _ _ h => sAwReady_of_inv h)
      (along_of_preserved step Inv (fun _ i h => inv_step h i) (inv_step hs i) ins)
  exact ImpCh.job_fed (fun s : DmaMemory M => s.w.ch) wPort wCh_step hs.w
    ⟨hrest.wIdle, h.start.1, h.start.2⟩ h.nonempty h.once (along_of_inputs step h.cfg) hready

/-- So does a read job: the slave's AR is always ready. -/
theorem read_job {s : DmaMemory M} (hs : Inv s) (hrest : AtRest s) {c : ImpCfg}
    {k : DmaMemoryIn} {ins : List DmaMemoryIn} (h : ReadJob s c k ins) :
    arLog s (k :: ins) = (List.range (min c.total (ins.length - 1))).map c.addrAt ∧
      ImpCh.Job c (min c.total (ins.length - 1)) (run step s (k :: ins)).r.ch := by
  have hready : Along step (fun _ _ => AxiLiteMemory.sArReady = true) (s.step k) ins :=
    along_of_forall step (fun _ _ => rfl) (s.step k) ins
  rcases ImpCh.job_fed (fun s : DmaMemory M => s.r.ch) rPort rCh_step hs.r
    ⟨hrest.rIdle, h.start.1, h.start.2⟩ h.nonempty h.once (along_of_inputs step h.cfg)
    hready with ⟨haddrs, hjob, _⟩
  exact ⟨haddrs, hjob⟩

/-! ## The memory after a write job -/

/-- Numbering a log in two parts. -/
theorem mapIdx_numbers (as : List (BitVec 32)) (f : ℕ → BitVec 32) (n : ℕ) :
    (as ++ (List.range n).map f).mapIdx
        (fun k addr => (wordIndex 15 addr, BitVec.ofNat 32 k))
      = as.mapIdx (fun k addr => (wordIndex 15 addr, BitVec.ofNat 32 k))
        ++ (List.range n).map fun q => (wordIndex 15 (f q), BitVec.ofNat 32 (as.length + q)) := by
  rw [List.mapIdx_append]
  congr 1
  apply List.ext_getElem
  · rw [List.length_mapIdx, List.length_map, List.length_map]
  · intro q _ _
    rw [List.getElem_mapIdx, List.getElem_map, List.getElem_map, List.getElem_range,
      Nat.add_comm]

/-- A job that wrote all its beats leaves consecutive numbers in its window. -/
theorem word_of_written (s : DmaMemory M) {c : ImpCfg} (hc : Fits c) (hv : 1 ≤ c.vsize.toNat)
    {hist ins : List DmaMemoryIn} (i : DmaMemoryIn)
    (hlog : awLog s.reset (hist ++ ins)
      = awLog s.reset hist ++ (List.range c.total).map c.addrAt) {q : ℕ} (hq : q < c.total) :
    (run step s.reset (hist ++ ins ++ [i])).m.word (wordIndex 15 (c.addrAt q))
      = BitVec.ofNat 32 ((awLog s.reset hist).length + q) := by
  rw [word_concat, hlog, mapIdx_numbers, writeAll_append]
  refine writeAll_map List.nodup_range ?_ (fun q => BitVec.ofNat 32 _) (List.mem_range.mpr hq)
  intro k hk k' hk'
  exact wordIndex_addrAt_inj hc hv (List.mem_range.mp hk) (List.mem_range.mp hk')

/-! ## Reading back -/

/-- Nothing is being written: the write channel is idle, no start of it is
pending, and the slave holds no address. -/
structure Quiet (s : DmaMemory M) : Prop where
  inv : Inv s
  wIdle : s.w.ch.xtAxiValid = false
  wTrg : s.w.ch.xtAllProcTrg = false
  noAddr : s.m.pair.xtAwValid = false

/-- One edge without a start of the write channel. -/
theorem w_rest_step {s : DmaMemory M} (hs : Inv s) (hidle : s.w.ch.xtAxiValid = false)
    (htrg : s.w.ch.xtAllProcTrg = false) {i : DmaMemoryIn} (hst : ¬ s.WStarts i) :
    Quiet (s.step i) := by
  have hone : Along step (fun s x => ¬ s.WStarts x) s [i] := ⟨hst, trivial⟩
  rcases w_rest hs hidle htrg hone with ⟨hidle', htrg'⟩
  refine ⟨inv_step hs i, hidle'.valid, htrg', ?_⟩
  have hstep : (s.step i).m.pair.xtAwValid
      = nextValid s.m.pair.xtAwValid s.w.ch.xtAxiValid (s.m.pair.xtAwWVld AxiLiteMemory.hit) := rfl
  rw [hstep, nextValid_of_ready (sAwReady_of_inv hs), hidle]

theorem quiet_step {s : DmaMemory M} (h : Quiet s) {i : DmaMemoryIn} (hst : ¬ s.WStarts i) :
    Quiet (s.step i) :=
  w_rest_step h.inv h.wIdle h.wTrg hst

theorem xtAwWVld_of_quiet {s : DmaMemory M} (h : Quiet s) : s.m.xtAwWVld = false := by
  unfold AxiLiteMemory.xtAwWVld AwW.xtAwWVld
  simp [h.noAddr]

/-- The memory does not change while nothing is written. -/
theorem word_of_quiet {s : DmaMemory M} (h : Quiet s) (i : DmaMemoryIn) :
    (s.step i).m.word = s.m.word := by
  funext a
  rw [m_step, AxiLiteMemory.word_step, xtAwWVld_of_quiet h]
  simp

/-- The word on the R channel. -/
def pendingR (s : DmaMemory M) : List (BitVec 32) := slot s.m.sRValid s.m.sRData

/-- The words that the addresses handshaked on AR stand for. -/
def fetched (mem : BitVec 15 → BitVec 32) (s : DmaMemory M) (i : DmaMemoryIn) :
    List (BitVec 32) :=
  (s.arBeat i).map fun addr => mem (wordIndex 15 addr)

/-- Words are fetched and returned in order, none lost or invented: R is
always ready, and an address is answered in the next cycle. -/
theorem fetched_step {s : DmaMemory M} (h : Quiet s) (i : DmaMemoryIn) :
    s.pendingR ++ s.fetched s.m.word i = s.rBeat i ++ (s.step i).pendingR := by
  have hout : s.rBeat i = s.pendingR := by
    unfold rBeat pendingR
    rw [MstImpRCh.memAxiRready, Bool.and_true]
  have hin : s.fetched s.m.word i = (s.step i).pendingR := by
    have hvalid : (s.step i).m.sRValid = s.r.ch.xtAxiValid := rfl
    have hdata : (s.step i).m.sRData = M.doutb (M.step s.m.sram (s.m.sramIn (s.mIn i))) := rfl
    have hbeat : s.arBeat i = slot (s.r.ch.xtAxiValid && true) s.r.ch.xtAxiAddr := rfl
    rw [fetched, pendingR, hvalid, hdata, hbeat, Bool.and_true]
    cases hread : s.r.ch.xtAxiValid with
    | true =>
        -- the SRAM port that writes is idle, so the read sees the stored word
        have hcollide : ¬ ((s.m.sramIn (s.mIn i)).ena = true ∧
            wordIndex 15 (s.m.sramIn (s.mIn i)).addra
              = wordIndex 15 (s.m.sramIn (s.mIn i)).addrb) := by
          rintro ⟨hena, _⟩
          have hvld : s.m.xtAwWVld = true := hena
          rw [xtAwWVld_of_quiet h] at hvld
          exact absurd hvld Bool.false_ne_true
        rw [M.doutb_step _ _ hread hcollide]
        rfl
    | false => rfl
  rw [hout, hin]

/-- As long as nothing is written, the words returned are the words fetched. -/
theorem rLog_eq {s : DmaMemory M} (h : Quiet s) {ins : List DmaMemoryIn}
    (hst : Along step (fun s x => ¬ s.WStarts x) s ins) :
    s.pendingR ++ (arLog s ins).map (fun addr => s.m.word (wordIndex 15 addr))
      = rLog s ins ++ (run step s ins).pendingR := by
  have halong : Along step (fun s' i => s'.pendingR ++ s'.fetched s.m.word i
      = s'.rBeat i ++ (s'.step i).pendingR) s ins := by
    -- the channel stays quiet and the words stay what they were
    refine along_of_invariant (fun s' => Quiet s' ∧ s'.m.word = s.m.word) ?_ ?_ ⟨h, rfl⟩ hst
    · intro s' i hinv hi
      exact ⟨quiet_step hinv.1 hi, (word_of_quiet hinv.1 i).trans hinv.2⟩
    · intro s' i hinv _
      rw [← hinv.2]
      exact fetched_step hinv.1 i
  have hfetched : events step (fetched s.m.word) s ins
      = (arLog s ins).map (fun addr => s.m.word (wordIndex 15 addr)) :=
    events_map step s arBeat _ ins
  rw [← hfetched]
  exact events_conserved halong

/-- R is empty one cycle after AR. -/
theorem pendingR_concat (s : DmaMemory M) (ins : List DmaMemoryIn) (i : DmaMemoryIn)
    (hidle : (run step s ins).r.ch.xtAxiValid = false) :
    (run step s (ins ++ [i])).pendingR = [] := by
  have hvalid : (run step s (ins ++ [i])).m.sRValid = (run step s ins).r.ch.xtAxiValid := by
    rw [run_concat]
    rfl
  rw [pendingR, hvalid, hidle]
  rfl

/-- A read job returns the words of the window, once each and in order. -/
theorem rLog_of_readJob {s : DmaMemory M} (hs : Inv s) (hrest : AtRest s)
    (hempty : s.pendingR = []) {c : ImpCfg} {k : DmaMemoryIn} {ins : List DmaMemoryIn}
    (h : ReadJob s c k ins) (hlen : c.total + 2 ≤ ins.length) :
    rLog s (k :: ins)
      = (List.range c.total).map fun q => (s.step k).m.word (wordIndex 15 (c.addrAt q)) := by
  have hquiet : Quiet (s.step k) :=
    w_rest_step hs hrest.wIdle hrest.wTrg h.noWrite.1
  -- all addresses are made
  have haddrs := (read_job hs hrest h).1
  rw [Nat.min_eq_left (by omega)] at haddrs
  have hlog : arLog (s.step k) ins = (List.range c.total).map c.addrAt := by
    have hnone : s.arBeat k = [] :=
      ImpCh.beat_of_idle ⟨hs.r.trans hrest.rIdle, hrest.rIdle⟩ (s.rPort k)
    have hcons : arLog s (k :: ins) = s.arBeat k ++ arLog (s.step k) ins := rfl
    rw [← haddrs, hcons, hnone, List.nil_append]
  -- R is empty before the first and after the last one
  have hstart : (s.step k).pendingR = [] := pendingR_concat s [] k hrest.rIdle
  have hend : (run step (s.step k) ins).pendingR = [] := by
    rcases List.eq_nil_or_concat ins with hnil | ⟨ys, x, hins⟩
    · exact absurd hnil h.nonempty
    · subst hins
      rw [List.concat_eq_append] at h hlen ⊢
      rw [List.length_append, List.length_singleton] at hlen
      -- one cycle before the end the job has made all its beats
      have hjob : ReadJob s c k ys := by
        constructor
        · intro hnil
          rw [hnil, List.length_nil] at hlen
          omega
        · exact h.start
        · exact ((along_append step (s.step k) _ ys [x]).mp h.once).1
        · exact fun y hy => h.cfg y (List.mem_append_left _ hy)
        · exact ((along_append step s _ (k :: ys) [x]).mp h.noWrite).1
      have hdone := (read_job hs hrest hjob).2
      rw [Nat.min_eq_left (by omega)] at hdone
      exact pendingR_concat s (k :: ys) x hdone.idle.valid
  have hcons : rLog s (k :: ins) = s.rBeat k ++ rLog (s.step k) ins := rfl
  have hbeat : s.rBeat k = [] := by
    rw [← hempty, rBeat, pendingR, MstImpRCh.memAxiRready, Bool.and_true]
  -- in between, what is fetched is what is returned
  have hconserved := rLog_eq hquiet h.noWrite.2
  rw [hstart, hend, hlog, List.nil_append, List.append_nil, List.map_map] at hconserved
  rw [hcons, hbeat, List.nil_append, ← hconserved]
  rfl

/-- After a write job at rest, everything rests and R is empty. -/
theorem rest_of_writeJob {s : DmaMemory M} (hs : Inv s) (hrest : AtRest s) {c : ImpCfg}
    {i : DmaMemoryIn} {ins : List DmaMemoryIn} (h : WriteJob s c i ins)
    (hdone : (run step s (i :: ins)).w.ch.xtAxiValid = false) :
    AtRest (run step s (i :: ins)) ∧ (run step s (i :: ins)).pendingR = [] := by
  rcases write_job hs hrest h with ⟨_, _, htrg⟩
  rcases r_rest hs hrest.rIdle hrest.rTrg h.noRead with ⟨hrIdle, hrTrg⟩
  refine ⟨⟨hdone, htrg, hrIdle.valid, hrTrg⟩, ?_⟩
  rcases List.eq_nil_or_concat (i :: ins) with hnil | ⟨ys, x, hins⟩
  · exact absurd hnil (List.cons_ne_nil i ins)
  · have hnoRead := h.noRead
    rw [hins, List.concat_eq_append] at hnoRead ⊢
    -- R has been empty since the read channel last offered an address
    have hidle := r_rest hs hrest.rIdle hrest.rTrg
      ((along_append step s _ ys [x]).mp hnoRead).1
    exact pendingR_concat s ys x hidle.1.valid

/-- A window filled by the write channel is read back by the read channel.
After any history, a write job over a window that fits and is not empty ends
after one cycle per word, and once it has ended, a read job over the same
window returns one word per beat: the numbers from `n0` on, where `n0`
addresses were handshaked on AW before the write job. -/
theorem write_then_read (s : DmaMemory M) {c : ImpCfg} (hc : Fits c) (hv : 1 ≤ c.vsize.toNat)
    {hist : List DmaMemoryIn} (hrest : AtRest (run step s.reset hist)) {i : DmaMemoryIn}
    {ins : List DmaMemoryIn} (hw : WriteJob (run step s.reset hist) c i ins) :
    (c.beats * c.vsize.toNat < ins.length →
      (run step s.reset (hist ++ i :: ins)).w.ch.xtAxiValid = false) ∧
    ((run step s.reset (hist ++ i :: ins)).w.ch.xtAxiValid = false →
      ∀ k rins, ReadJob (run step s.reset (hist ++ i :: ins)) c k rins →
        c.beats * c.vsize.toNat + 2 ≤ rins.length →
        rLog (run step s.reset (hist ++ i :: ins)) (k :: rins)
          = (List.range (c.beats * c.vsize.toNat)).map fun q =>
              BitVec.ofNat 32 ((awLog s.reset hist).length + q)) := by
  have hinv := inv_run (inv_reset s) hist
  have htotal : c.total = c.beats * c.vsize.toNat := by rw [ImpCfg.total, lines_of_fits hc hv]
  rcases write_job hinv hrest hw with ⟨haddrs, hjob, _⟩
  rw [← htotal, run_append]
  constructor
  · -- one word a cycle: the job is over after that many
    intro hlen
    rw [Nat.min_eq_left (by omega)] at hjob
    exact hjob.idle.valid
  · intro hdone k rins hr hlen
    rcases rest_of_writeJob hinv hrest hw hdone with ⟨hrest', hempty⟩
    -- the job made all its beats
    rw [(hjob.done hdone).1] at haddrs
    have hlog : awLog s.reset (hist ++ i :: ins)
        = awLog s.reset hist ++ (List.range c.total).map c.addrAt := by
      rw [← haddrs, awLog, events_append]
      rfl
    rw [rLog_of_readJob (inv_run hinv (i :: ins)) hrest' hempty hr hlen]
    -- each address of the window was written with its own number, and last with that
    refine List.map_congr_left ?_
    intro q hq
    rw [← word_of_written s hc hv k hlog (List.mem_range.mp hq), run_concat, run_append]

/-! ## Two windows -/

/-- The start bit of the write channel high, that of the read channel high too,
and both low, under one configuration. -/
def startW (c : ImpCfg) : DmaMemoryIn := ⟨c, true, c, false⟩

def startBoth (c : ImpCfg) : DmaMemoryIn := ⟨c, true, c, true⟩

def noStart (c : ImpCfg) : DmaMemoryIn := ⟨c, false, c, false⟩

/-- A start bit that keeps its level starts nothing. -/
theorem w_level {s : DmaMemory M} {b : Bool} (hlevel : s.w.ch.xtImpStDly.getLsbD 0 = b)
    {ins : List DmaMemoryIn} (hst : ∀ x ∈ ins, x.wSt = b) :
    Along step (fun s x => ¬ s.WStarts x) s ins :=
  ImpCh.level_fed (fun s : DmaMemory M => s.w.ch) wPort wCh_step hlevel
    (along_of_inputs step (P := fun x => x.wSt = b) hst)

theorem r_level {s : DmaMemory M} {b : Bool} (hlevel : s.r.ch.xtImpStDly.getLsbD 0 = b)
    {ins : List DmaMemoryIn} (hst : ∀ x ∈ ins, x.rSt = b) :
    Along step (fun s x => ¬ s.RStarts x) s ins :=
  ImpCh.level_fed (fun s : DmaMemory M => s.r.ch) rPort rCh_step hlevel
    (along_of_inputs step (P := fun x => x.rSt = b) hst)

/-- A start bit that stays high starts one job. -/
theorem writeJob_replicate {s : DmaMemory M} (hw : s.w.ch.xtImpStDly.getLsbD 0 = false)
    (hr : s.r.ch.xtImpStDly.getLsbD 0 = false) (c : ImpCfg) (n : ℕ) :
    WriteJob s c (startW c) (List.replicate (n + 1) (startW c)) := by
  have hsame : ∀ x ∈ startW c :: List.replicate (n + 1) (startW c), x = startW c :=
    fun x hx => List.eq_of_mem_replicate (n := n + 2) hx
  constructor
  · exact List.cons_ne_nil _ _
  · exact ⟨hw, rfl⟩
  · exact w_level (ImpCh.xtImpStDly_step s.w.ch (s.wPort (startW c)))
      fun x hx => congrArg DmaMemoryIn.wSt (hsame x (List.mem_cons_of_mem _ hx))
  · exact fun x hx => congrArg DmaMemoryIn.wCfg (hsame x (List.mem_cons_of_mem _ hx))
  · exact r_level hr fun x hx => congrArg DmaMemoryIn.rSt (hsame x hx)

theorem readJob_replicate {s : DmaMemory M} (hw : s.w.ch.xtImpStDly.getLsbD 0 = true)
    (hr : s.r.ch.xtImpStDly.getLsbD 0 = false) (c : ImpCfg) (n : ℕ) :
    ReadJob s c (startBoth c) (List.replicate (n + 1) (startBoth c)) := by
  have hsame : ∀ x ∈ startBoth c :: List.replicate (n + 1) (startBoth c), x = startBoth c :=
    fun x hx => List.eq_of_mem_replicate (n := n + 2) hx
  constructor
  · exact List.cons_ne_nil _ _
  · exact ⟨hr, rfl⟩
  · exact r_level (ImpCh.xtImpStDly_step s.r.ch (s.rPort (startBoth c)))
      fun x hx => congrArg DmaMemoryIn.rSt (hsame x (List.mem_cons_of_mem _ hx))
  · exact fun x hx => congrArg DmaMemoryIn.rCfg (hsame x (List.mem_cons_of_mem _ hx))
  · exact w_level hw fun x hx => congrArg DmaMemoryIn.wSt (hsame x hx)

/-- The system after power-up, with a cleared block RAM. -/
def cold : DmaMemory (blockRam 15) :=
  ⟨MstImpWCh.reset, MstImpRCh.reset, ⟨AwW.reset, false, (fun _ => 0, 0)⟩⟩

/-- Two lines of two words. -/
def twoLines : ImpCfg := ⟨2, 0, 2, 0, 0x100, 16⟩

theorem fits_twoLines : Fits twoLines := by
  constructor <;> decide

/-- A job of four words started by a pulse, and the same window once more with
the start bits left high: the second job leaves the numbers from 4 on. -/
theorem write_then_read_twoLines :
    rLog (run step cold.reset ((startW twoLines :: List.replicate 6 (noStart twoLines))
        ++ startW twoLines :: List.replicate 5 (startW twoLines)))
      (startBoth twoLines :: List.replicate 6 (startBoth twoLines)) = [4, 5, 6, 7] := by
  have hrest : AtRest (run step cold.reset
      (startW twoLines :: List.replicate 6 (noStart twoLines))) := by
    constructor <;> decide
  rcases write_then_read cold fits_twoLines (by decide) hrest
    (writeJob_replicate (by decide) (by decide) twoLines 4) with ⟨hends, hreads⟩
  rw [hreads (hends (by decide)) _ _ (readJob_replicate (by decide) (by decide) twoLines 5)
    (by decide)]
  decide

/-- A window of no line, with the first line at 1. -/
def noLine : ImpCfg := ⟨1, 0, 0, 1, 0x100, 16⟩

/-- The window of no line is read back as one word. -/
theorem noLine_read_back :
    Fits noLine ∧ AtRest (run step cold.reset []) ∧
      WriteJob (run step cold.reset []) noLine (startW noLine)
        (List.replicate 3 (startW noLine)) ∧
      (run step cold.reset (startW noLine :: List.replicate 3 (startW noLine))).w.ch.xtAxiValid
        = false ∧
      ReadJob (run step cold.reset (startW noLine :: List.replicate 3 (startW noLine))) noLine
        (startBoth noLine) (List.replicate 4 (startBoth noLine)) ∧
      (rLog (run step cold.reset (startW noLine :: List.replicate 3 (startW noLine)))
        (startBoth noLine :: List.replicate 4 (startBoth noLine))).length = 1 ∧
      noLine.beats * noLine.vsize.toNat = 0 := by
  refine ⟨?_, ?_, writeJob_replicate (by decide) (by decide) noLine 2, ?_,
    readJob_replicate (by decide) (by decide) noLine 3, ?_, ?_⟩
  · constructor <;> decide
  · constructor <;> decide
  · decide
  · decide
  · decide

end DmaMemory

end SocRtl.System
