import SocRtl.Dma.Channels
import SocRtl.Mem.AxiLite

/-!
# SocRtl.System.WriteDma — the write DMA channel on a memory

`mst_imp_w_ch` wired directly to an `axi_lite_memory`. Who reads the memory is
left open: the AR and R channels are inputs.

The channel offers a data word in every cycle, in jobs and between them, and
numbers the words it hands over. So the slave's W stage holds a word from the
first cycle on, every address finds its data waiting and is accepted at once,
and since the slave pairs addresses and data in order, the `n`-th address since
reset is written with the number `n` (`writes_numbered`).
-/

namespace SocRtl.System

open Dma Mem Handshake Store

/-! ## Model -/

/-- The registers of the channel and of the memory. -/
structure WriteDma (M : Sram 15) where
  w : MstImpWCh
  m : AxiLiteMemory M

/-- The inputs at a clock edge: configuration and start bit of the channel, and
whatever reads the memory. -/
structure WriteDmaIn where
  cfg : ImpCfg
  impSt : Bool
  sArValid : Bool
  sArAddr : BitVec 32
  sRReady : Bool

namespace WriteDma

variable {M : Sram 15}

/-- Reset. The SRAM keeps what it held. -/
def reset (s : WriteDma M) : WriteDma M := ⟨MstImpWCh.reset, s.m.reset⟩

/-- What the channel sees. -/
def wIn (s : WriteDma M) (i : WriteDmaIn) : MstImpWChIn where
  cfg := i.cfg
  impSt := i.impSt
  memAxiAwready := s.m.sAwReady
  memAxiWready := s.m.sWReady

/-- What the memory sees. -/
def mIn (s : WriteDma M) (i : WriteDmaIn) : AxiLiteIn where
  sAwValid := s.w.ch.xtAxiValid
  sAwAddr := s.w.ch.xtAxiAddr
  sWValid := MstImpWCh.memAxiWvalid
  sWData := s.w.xtAxiWdata
  sWStrb := MstImpWCh.memAxiWstrb
  sBReady := MstImpWCh.memAxiBready
  sArValid := i.sArValid
  sArAddr := i.sArAddr
  sRReady := i.sRReady

/-- One clock edge. -/
def step (s : WriteDma M) (i : WriteDmaIn) : WriteDma M where
  w := s.w.step (s.wIn i)
  m := s.m.step (s.mIn i)

/-- The address handshaked on AW at the edge. -/
def awBeat (s : WriteDma M) (_ : WriteDmaIn) : List (BitVec 32) :=
  slot (s.w.ch.xtAxiValid && s.m.sAwReady) s.w.ch.xtAxiAddr

/-- The data word handshaked on W at the edge. -/
def wBeat (s : WriteDma M) (_ : WriteDmaIn) : List (BitVec 32) :=
  slot (MstImpWCh.memAxiWvalid && s.m.sWReady) s.w.xtAxiWdata

/-- The write that the SRAM sees at the edge: address and data of port A. -/
def sramWrite (s : WriteDma M) (i : WriteDmaIn) : List (BitVec 32 × BitVec 32) :=
  s.m.sramWrite (s.mIn i)

def awLog (s : WriteDma M) (ins : List WriteDmaIn) : List (BitVec 32) := events step awBeat s ins

def wLog (s : WriteDma M) (ins : List WriteDmaIn) : List (BitVec 32) := events step wBeat s ins

def sramWrites (s : WriteDma M) (ins : List WriteDmaIn) : List (BitVec 32 × BitVec 32) :=
  events step sramWrite s ins

/-! ## Data is never late -/

/-- The data of an address is there before the address. -/
def DataReady (s : WriteDma M) : Prop := s.m.pair.xtAwValid = true → s.m.pair.xtWValid = true

/-- The W stage holds a word after every edge. -/
theorem xtWValid_step (s : WriteDma M) (i : WriteDmaIn) :
    (s.step i).m.pair.xtWValid = true := by
  have hstep : (s.step i).m.pair.xtWValid
      = nextValid s.m.pair.xtWValid true (s.m.pair.xtAwWVld AxiLiteMemory.hit) := rfl
  rw [hstep]
  -- `wvalid` is tied high: an empty stage loads, a full one is at most reloaded
  cases s.m.pair.xtWValid <;> simp [nextValid]

theorem dataReady_reset (s : WriteDma M) : s.reset.DataReady := by
  intro h
  exact absurd h Bool.false_ne_true

theorem dataReady_step (s : WriteDma M) (i : WriteDmaIn) : (s.step i).DataReady := by
  intro _
  exact xtWValid_step s i

theorem dataReady_run (s : WriteDma M) (ins : List WriteDmaIn) :
    (run step s.reset ins).DataReady :=
  run_preserves DataReady (dataReady_reset s) (fun s i _ => dataReady_step s i) ins

/-- An address is accepted whenever it is offered. -/
theorem sAwReady_of_dataReady {s : WriteDma M} (h : s.DataReady) : s.m.sAwReady = true := by
  unfold AxiLiteMemory.sAwReady AwW.sAwReady readyO AwW.xtAwWVld AxiLiteMemory.hit
  cases haw : s.m.pair.xtAwValid with
  | true => simp [h haw]
  | false => rfl

/-! ## The numbers -/

/-- The data words of a log are numbered from 0, and the counter of the channel
stands at the next number. -/
structure Numbered (s : WriteDma M) (log : List (BitVec 32)) : Prop where
  numbers : log = (List.range log.length).map (BitVec.ofNat 32)
  next : s.w.xtAxiWdata = BitVec.ofNat 32 log.length

theorem numbered_step {s : WriteDma M} {log : List (BitVec 32)} (h : Numbered s log)
    (i : WriteDmaIn) : Numbered (s.step i) (log ++ s.wBeat i) := by
  have hdata : (s.step i).w.xtAxiWdata
      = if s.m.sWReady then s.w.xtAxiWdata + 1 else s.w.xtAxiWdata := rfl
  have hbeat : s.wBeat i = slot s.m.sWReady s.w.xtAxiWdata := rfl
  cases hready : s.m.sWReady with
  | true =>
      -- the word is taken and the counter moves on
      rw [hready, h.next] at hbeat hdata
      have hone : s.wBeat i = [BitVec.ofNat 32 log.length] := hbeat
      rw [hone]
      constructor
      · rw [List.length_append, List.length_singleton, List.range_succ, List.map_append,
          ← h.numbers]
        rfl
      · rw [hdata, List.length_append, List.length_singleton, BitVec.ofNat_add]
        rfl
  | false =>
      -- the word is offered again
      rw [hready] at hbeat hdata
      have hnone : s.wBeat i = [] := hbeat
      rw [hnone, List.append_nil]
      exact ⟨h.numbers, hdata.trans h.next⟩

theorem numbered_run (s : WriteDma M) (ins : List WriteDmaIn) :
    Numbered (run step s.reset ins) (wLog s.reset ins) := by
  refine run_invariant (fun h s' => Numbered s' (wLog s.reset h)) ⟨rfl, rfl⟩ ?_ ins
  intro h i ih
  rw [wLog, events_concat]
  exact numbered_step ih i

/-! ## What is written -/

theorem m_step (s : WriteDma M) (i : WriteDmaIn) : (s.step i).m = s.m.step (s.mIn i) := rfl

theorem m_run (s : WriteDma M) (ins : List WriteDmaIn) :
    (run step s ins).m = run AxiLiteMemory.step s.m (trace step mIn s ins) :=
  run_fed m_step s ins

theorem awLog_trace (s : WriteDma M) (ins : List WriteDmaIn) :
    awLog s ins = AxiLiteMemory.awLog s.m (trace step mIn s ins) :=
  events_fed m_step AxiLiteMemory.awTaken s ins

theorem wLog_trace (s : WriteDma M) (ins : List WriteDmaIn) :
    wLog s ins = AxiLiteMemory.wLog s.m (trace step mIn s ins) :=
  events_fed m_step AxiLiteMemory.wTaken s ins

theorem sramWrites_trace (s : WriteDma M) (ins : List WriteDmaIn) :
    sramWrites s ins = AxiLiteMemory.sramWrites s.m (trace step mIn s ins) :=
  events_fed m_step AxiLiteMemory.sramWrite s ins

/-- The data words are never behind the addresses. -/
theorem length_awLog_le (s : WriteDma M) (ins : List WriteDmaIn) :
    (awLog s.reset ins).length ≤ (wLog s.reset ins).length := by
  have hdata := dataReady_run s ins
  -- accepted is written plus pending, and an address never waits without its data
  have hpend : (run step s.reset ins).m.pair.pendingAw.length
      ≤ (run step s.reset ins).m.pair.pendingW.length := by
    unfold AwW.pendingAw AwW.pendingW slot
    cases haw : (run step s.reset ins).m.pair.xtAwValid with
    | true => simp [hdata haw]
    | false => simp
  have haw : awLog s.reset ins = _ :=
    (awLog_trace s.reset ins).trans (AxiLiteMemory.awLog_reset s.m _)
  have hw : wLog s.reset ins = _ :=
    (wLog_trace s.reset ins).trans (AxiLiteMemory.wLog_reset s.m _)
  rw [m_run] at hpend
  rw [haw, hw, List.length_append, List.length_append, List.length_map, List.length_map]
  exact Nat.add_le_add_left hpend _

/-- Pairing a list with at least as many numbered values is numbering it. -/
theorem zip_range_map {α β : Type*} (as : List α) (f : ℕ → β) {n : ℕ} (h : as.length ≤ n) :
    as.zip ((List.range n).map f) = as.mapIdx fun k a => (a, f k) := by
  apply List.ext_getElem
  · rw [List.length_zip, List.length_map, List.length_range, List.length_mapIdx,
      Nat.min_eq_left h]
  · intro k _ _
    rw [List.getElem_zip, List.getElem_map, List.getElem_range, List.getElem_mapIdx]

/-- The writes up to and including the next edge: the `n`-th address since
reset with the number `n`. -/
theorem sramWrites_eq (s : WriteDma M) (ins : List WriteDmaIn) (i : WriteDmaIn) :
    sramWrites s.reset (ins ++ [i])
      = (awLog s.reset ins).mapIdx fun n addr => (addr, BitVec.ofNat 32 n) := by
  have hnum := (numbered_run s ins).numbers
  -- the memory pairs in order of arrival, and the data words are numbered
  have hsplit : sramWrites s.reset (ins ++ [i])
      = (awLog s.reset ins).zip (wLog s.reset ins) := by
    rw [sramWrites_trace, trace_append, trace_cons, trace_nil, awLog_trace, wLog_trace]
    exact AxiLiteMemory.sramWrites_concat s.m _ _
  rw [hsplit, hnum, zip_range_map _ _ (length_awLog_le s ins)]

/-- The store after the next edge: all numbered writes made. -/
theorem word_concat (s : WriteDma M) (ins : List WriteDmaIn) (i : WriteDmaIn) :
    (run step s.reset (ins ++ [i])).m.word
      = writeAll s.m.word ((awLog s.reset ins).mapIdx
          fun n addr => (wordIndex 15 addr, BitVec.ofNat 32 n)) := by
  have hm : s.reset.m = s.m.reset := rfl
  have hword : s.m.reset.word = s.m.word := rfl
  have hwr := sramWrites_eq s ins i
  rw [sramWrites_trace] at hwr
  rw [m_run, AxiLiteMemory.word_run, hwr, hm, hword, List.mapIdx_eq_zipIdx_map, List.map_map,
    List.mapIdx_eq_zipIdx_map]
  rfl

/-- The channel and the memory agree on beats. For every run from reset,
whatever is started and configured at any time, the writes that the SRAM has
seen one edge later are the addresses handshaked on AW so far, one write each
and in order, the `n`-th one with the data `n`; and the SRAM holds what these
writes leave. -/
theorem writes_numbered (s : WriteDma M) (ins : List WriteDmaIn) (i : WriteDmaIn) :
    sramWrites s.reset (ins ++ [i])
      = ((awLog s.reset ins).mapIdx fun n addr => (addr, BitVec.ofNat 32 n)) ∧
    (run step s.reset (ins ++ [i])).m.word
      = writeAll s.m.word ((awLog s.reset ins).mapIdx
          fun n addr => (wordIndex 15 addr, BitVec.ofNat 32 n)) :=
  ⟨sramWrites_eq s ins i, word_concat s ins i⟩

end WriteDma

end SocRtl.System
