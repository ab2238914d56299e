import SocRtl.Lib.Store
import SocRtl.Mem.AwW
import SocRtl.Mem.Sram

/-!
# SocRtl.Mem.AxiLite — the memory slaves `axi_lite_memory` and `axi_lite_imp_memory`

The first slave has one SRAM, the second 38 banks selected by address bits 24
to 19. Both put the pairing registers in front of the write port and answer a
read one cycle after its address. Both ignore the write strobes: a write
enables all four bytes.

* `axi_lite_memory` writes exactly the pairs of accepted addresses and data
  words, in order (`writes_pair_in_order`).
* A write honours its strobe exactly if the bytes left out carry what is
  stored already (`strobes_honoured_iff`).
-/

namespace SocRtl.Mem

open Bytes Handshake Store

/-! ## Model -/

/-- What a clock edge samples from the master, without `prot`. The slaves look
neither at the strobe nor at the `ready`s of B and R. -/
structure AxiLiteIn where
  sAwValid : Bool
  sAwAddr : BitVec 32
  sWValid : Bool
  sWData : BitVec 32
  sWStrb : BitVec 4
  sBReady : Bool
  sArValid : Bool
  sArAddr : BitVec 32
  sRReady : Bool

/-- The AW and W channels. -/
def AxiLiteIn.awW (i : AxiLiteIn) : AwWIn := ⟨i.sAwValid, i.sAwAddr, i.sWValid, i.sWData⟩

/-- `axi_lite_memory` with the SRAM `M`. -/
structure AxiLiteMemory (M : Sram 15) where
  pair : AwW
  xtRValid : Bool
  sram : M.State

namespace AxiLiteMemory

variable {M : Sram 15}

/-- Reset. The SRAM keeps what it held. -/
def reset (s : AxiLiteMemory M) : AxiLiteMemory M := ⟨AwW.reset, false, s.sram⟩

/-- Every address is a word of the memory. -/
def hit (_ : BitVec 32) : Bool := true

def xtAwWVld (s : AxiLiteMemory M) : Bool := s.pair.xtAwWVld hit

def sAwReady (s : AxiLiteMemory M) : Bool := s.pair.sAwReady hit

def sWReady (s : AxiLiteMemory M) : Bool := s.pair.sWReady hit

/-- What the edge shows to the SRAM. -/
def sramIn (s : AxiLiteMemory M) (i : AxiLiteIn) : SramIn where
  ena := s.xtAwWVld
  wea := if s.xtAwWVld then 0b1111#4 else 0b0000#4
  addra := s.pair.xtWrAddr
  dina := s.pair.xtWrData
  enb := i.sArValid
  addrb := i.sArAddr

def sBValid : Bool := true

def sArReady : Bool := true

def sRValid (s : AxiLiteMemory M) : Bool := s.xtRValid

def sRData (s : AxiLiteMemory M) : BitVec 32 := M.doutb s.sram

/-- One clock edge. -/
def step (s : AxiLiteMemory M) (i : AxiLiteIn) : AxiLiteMemory M where
  pair := s.pair.step hit i.awW
  xtRValid := i.sArValid
  sram := M.step s.sram (s.sramIn i)

/-- The word stored at a word address. -/
def word (s : AxiLiteMemory M) (a : BitVec 15) : BitVec 32 := M.word s.sram a

/-- A write replaces the addressed word, all four bytes of it. -/
theorem word_step (s : AxiLiteMemory M) (i : AxiLiteIn) (a : BitVec 15) :
    (s.step i).word a
      = if s.xtAwWVld = true ∧ wordIndex 15 s.pair.xtWrAddr = a then s.pair.xtWrData
        else s.word a := by
  have hsram : (s.step i).word a = M.word (M.step s.sram (s.sramIn i)) a := rfl
  rw [hsram, M.word_step]
  cases hvld : s.xtAwWVld with
  | true => simp [sramIn, hvld, word]
  | false => simp [sramIn, hvld, word]

end AxiLiteMemory

/-- `axi_lite_imp_memory` with 38 banks of the SRAM `M`. -/
structure AxiLiteImpMemory (M : Sram 17) where
  pair : AwW
  xtRValid : Bool
  sArAddrDeco1t : BitVec 6
  sram : Fin 38 → M.State

namespace AxiLiteImpMemory

variable {M : Sram 17}

/-- Reset. The SRAMs keep what they held. -/
def reset (s : AxiLiteImpMemory M) : AxiLiteImpMemory M := ⟨AwW.reset, false, 0, s.sram⟩

/-- The address bits that select the bank. -/
def bank (addr : BitVec 32) : BitVec 6 := addr.extractLsb' 19 6

/-- Bank `k` is addressed. -/
def selects (addr : BitVec 32) (k : Fin 38) : Bool := decide (bank addr = BitVec.ofNat 6 k)

/-- Some bank is addressed. -/
def hit (addr : BitVec 32) : Bool := (List.finRange 38).any (selects addr)

/-- `xt_aw_w_vld[k]`. -/
def xtAwWVld (s : AxiLiteImpMemory M) (k : Fin 38) : Bool :=
  if selects s.pair.xtWrAddr k then s.pair.xtAwValid && s.pair.xtWValid else false

/-- `xt_ar_valid[k]`. -/
def xtArValid (i : AxiLiteIn) (k : Fin 38) : Bool := i.sArValid && selects i.sArAddr k

/-- What the edge shows to bank `k`. -/
def sramIn (s : AxiLiteImpMemory M) (i : AxiLiteIn) (k : Fin 38) : SramIn where
  ena := s.xtAwWVld k
  wea := if s.xtAwWVld k then 0b1111#4 else 0b0000#4
  addra := s.pair.xtWrAddr
  dina := s.pair.xtWrData
  enb := xtArValid i k
  addrb := i.sArAddr

def sBValid : Bool := true

def sArReady : Bool := true

def sRValid (s : AxiLiteImpMemory M) : Bool := s.xtRValid

/-- The read multiplexer. -/
def sRData (s : AxiLiteImpMemory M) : BitVec 32 :=
  if h : s.sArAddrDeco1t.toNat < 38 then M.doutb (s.sram ⟨s.sArAddrDeco1t.toNat, h⟩) else 0

/-- One clock edge. The AW and W stages see the OR of the `xt_aw_w_vld`. -/
def step (s : AxiLiteImpMemory M) (i : AxiLiteIn) : AxiLiteImpMemory M where
  pair := s.pair.step hit i.awW
  xtRValid := (List.finRange 38).any (xtArValid i)
  sArAddrDeco1t := bank i.sArAddr
  sram := fun k => M.step (s.sram k) (s.sramIn i k)

/-- The word stored in a bank at a word address. -/
def word (s : AxiLiteImpMemory M) (a : Fin 38 × BitVec 17) : BitVec 32 := M.word (s.sram a.1) a.2

/-- The OR of the `xt_aw_w_vld` is the enable of the pairing registers. -/
theorem any_xtAwWVld (s : AxiLiteImpMemory M) :
    (List.finRange 38).any s.xtAwWVld = s.pair.xtAwWVld hit := by
  unfold xtAwWVld AwW.xtAwWVld hit
  cases s.pair.xtAwValid && s.pair.xtWValid with
  | true => simp
  | false => simp

/-- A bank is written only if the pair is being written. -/
theorem xtAwWVld_iff (s : AxiLiteImpMemory M) (k : Fin 38) :
    s.xtAwWVld k = true ↔ s.pair.xtAwWVld hit = true ∧ selects s.pair.xtWrAddr k = true := by
  rw [← any_xtAwWVld, List.any_eq_true]
  constructor
  · intro h
    refine ⟨⟨k, List.mem_finRange k, h⟩, ?_⟩
    unfold xtAwWVld at h
    cases hsel : selects s.pair.xtWrAddr k <;> simp_all
  · rintro ⟨⟨k', _, h⟩, hsel⟩
    unfold xtAwWVld at h ⊢
    cases hsel' : selects s.pair.xtWrAddr k' <;> simp_all

/-- A write replaces the addressed word of the addressed bank, all four bytes
of it. -/
theorem word_step (s : AxiLiteImpMemory M) (i : AxiLiteIn) (a : Fin 38 × BitVec 17) :
    (s.step i).word a
      = if s.pair.xtAwWVld hit = true ∧
          (selects s.pair.xtWrAddr a.1 = true ∧ wordIndex 17 s.pair.xtWrAddr = a.2)
        then s.pair.xtWrData else s.word a := by
  have hsram : (s.step i).word a = M.word (M.step (s.sram a.1) (s.sramIn i a.1)) a.2 := rfl
  rw [hsram, M.word_step]
  simp only [← and_assoc, ← xtAwWVld_iff]
  cases hvld : s.xtAwWVld a.1 with
  | true => simp [sramIn, hvld, word]
  | false => simp [sramIn, hvld, word]

end AxiLiteImpMemory

/-! ## Writes come in pairs -/

namespace AxiLiteMemory

variable {M : Sram 15}

/-- The address accepted at the edge. -/
def awTaken (s : AxiLiteMemory M) (i : AxiLiteIn) : List (BitVec 32) := s.pair.awTaken hit i.awW

/-- The data word accepted at the edge. -/
def wTaken (s : AxiLiteMemory M) (i : AxiLiteIn) : List (BitVec 32) := s.pair.wTaken hit i.awW

/-- The write operation on the SRAM port at the edge. -/
def sramWrite (s : AxiLiteMemory M) (i : AxiLiteIn) : List (BitVec 32 × BitVec 32) :=
  slot (s.sramIn i).ena ((s.sramIn i).addra, (s.sramIn i).dina)

def awLog (s : AxiLiteMemory M) (ins : List AxiLiteIn) : List (BitVec 32) :=
  events step awTaken s ins

def wLog (s : AxiLiteMemory M) (ins : List AxiLiteIn) : List (BitVec 32) :=
  events step wTaken s ins

def sramWrites (s : AxiLiteMemory M) (ins : List AxiLiteIn) : List (BitVec 32 × BitVec 32) :=
  events step sramWrite s ins

theorem pair_step (s : AxiLiteMemory M) (i : AxiLiteIn) :
    (s.step i).pair = s.pair.step hit i.awW := rfl

theorem pair_run (s : AxiLiteMemory M) (ins : List AxiLiteIn) :
    (run step s ins).pair = run (AwW.step hit) s.pair (ins.map AxiLiteIn.awW) :=
  run_component pair_step s ins

/-- What was accepted since reset is what was written and what still waits. -/
theorem awLog_reset (s : AxiLiteMemory M) (ins : List AxiLiteIn) :
    awLog s.reset ins
      = (sramWrites s.reset ins).map Prod.fst ++ (run step s.reset ins).pair.pendingAw := by
  have haw : awLog s.reset ins = AwW.awLog hit AwW.reset (ins.map AxiLiteIn.awW) :=
    events_component pair_step (AwW.awTaken hit) s.reset ins
  have hwr : sramWrites s.reset ins = AwW.commits hit AwW.reset (ins.map AxiLiteIn.awW) :=
    events_component pair_step (AwW.commit hit) s.reset ins
  rw [haw, hwr, pair_run]
  exact AwW.awLog_reset _

theorem wLog_reset (s : AxiLiteMemory M) (ins : List AxiLiteIn) :
    wLog s.reset ins
      = (sramWrites s.reset ins).map Prod.snd ++ (run step s.reset ins).pair.pendingW := by
  have hw : wLog s.reset ins = AwW.wLog hit AwW.reset (ins.map AxiLiteIn.awW) :=
    events_component pair_step (AwW.wTaken hit) s.reset ins
  have hwr : sramWrites s.reset ins = AwW.commits hit AwW.reset (ins.map AxiLiteIn.awW) :=
    events_component pair_step (AwW.commit hit) s.reset ins
  rw [hw, hwr, pair_run]
  exact AwW.wLog_reset _

/-- The writes up to and including the next edge are what was accepted so far,
paired up. -/
theorem sramWrites_concat (s : AxiLiteMemory M) (ins : List AxiLiteIn) (i : AxiLiteIn) :
    sramWrites s.reset (ins ++ [i]) = List.zip (awLog s.reset ins) (wLog s.reset ins) := by
  have haw : awLog s.reset ins = AwW.awLog hit AwW.reset (ins.map AxiLiteIn.awW) :=
    events_component pair_step (AwW.awTaken hit) s.reset ins
  have hw : wLog s.reset ins = AwW.wLog hit AwW.reset (ins.map AxiLiteIn.awW) :=
    events_component pair_step (AwW.wTaken hit) s.reset ins
  have hwr : sramWrites s.reset (ins ++ [i])
      = AwW.commits hit AwW.reset ((ins ++ [i]).map AxiLiteIn.awW) :=
    events_component pair_step (AwW.commit hit) s.reset (ins ++ [i])
  rw [haw, hw, hwr, AwW.zip_logs, List.map_append, List.map_singleton, AwW.commits,
    events_concat, AwW.commit_eq_waiting fun _ => rfl]
  rfl

/-- The store is the initial one with all writes made, in order. -/
theorem word_run (s : AxiLiteMemory M) (ins : List AxiLiteIn) :
    (run step s ins).word
      = writeAll s.word ((sramWrites s ins).map fun op => (wordIndex 15 op.1, op.2)) := by
  induction ins generalizing s with
  | nil => rfl
  | cons i ins ih =>
      have hcons : sramWrites s (i :: ins) = s.sramWrite i ++ sramWrites (s.step i) ins := rfl
      have hone : (s.step i).word
          = writeAll s.word ((s.sramWrite i).map fun op => (wordIndex 15 op.1, op.2)) := by
        funext a
        rw [word_step]
        unfold sramWrite sramIn
        cases hvld : s.xtAwWVld with
        | true =>
            -- one write, to this word or to another one
            by_cases ha : wordIndex 15 s.pair.xtWrAddr = a
            · subst ha
              simp [slot]
            · simp [slot, ha, Function.update_of_ne (Ne.symm ha)]
        | false => simp [slot]
      rw [run_cons, ih, hcons, List.map_append, writeAll_append, hone]

/-- The SRAM writes are the accepted addresses paired with the accepted data
words: for every run from reset, the writes up to and including the next edge
are the zip of what was accepted so far, and the store is the one before with
these words written whole. Neither channel is ever more than one word ahead of
the writes, and that word is kept until its partner arrives. -/
theorem writes_pair_in_order (s : AxiLiteMemory M) (ins : List AxiLiteIn) :
    (∀ i, sramWrites s.reset (ins ++ [i]) = List.zip (awLog s.reset ins) (wLog s.reset ins)) ∧
    (run step s.reset ins).word
      = writeAll s.word ((sramWrites s.reset ins).map fun op => (wordIndex 15 op.1, op.2)) ∧
    ((sramWrites s.reset ins).length ≤ (awLog s.reset ins).length ∧
      (awLog s.reset ins).length ≤ (sramWrites s.reset ins).length + 1) ∧
    ((sramWrites s.reset ins).length ≤ (wLog s.reset ins).length ∧
      (wLog s.reset ins).length ≤ (sramWrites s.reset ins).length + 1) ∧
    (∀ i, (run step s.reset ins).pair.xtAwValid = true →
      (run step s.reset ins).pair.xtWValid = false →
      ((run step s.reset ins).step i).pair.xtAwValid = true ∧
        ((run step s.reset ins).step i).pair.xtWrAddr = (run step s.reset ins).pair.xtWrAddr) ∧
    (∀ i, (run step s.reset ins).pair.xtWValid = true →
      (run step s.reset ins).pair.xtAwValid = false →
      ((run step s.reset ins).step i).pair.xtWValid = true ∧
        ((run step s.reset ins).step i).pair.xtWrData = (run step s.reset ins).pair.xtWrData) := by
  have haw := awLog_reset s ins
  have hw := wLog_reset s ins
  -- each channel holds at most one word, so neither is further ahead
  have hlenaw := length_slot_le (run step s.reset ins).pair.xtAwValid
    (run step s.reset ins).pair.xtWrAddr
  have hlenw := length_slot_le (run step s.reset ins).pair.xtWValid
    (run step s.reset ins).pair.xtWrData
  refine ⟨?_, ?_, ?_, ?_, ?_, ?_⟩
  · exact sramWrites_concat s ins
  · exact word_run s.reset ins
  · rw [haw, List.length_append, List.length_map]
    exact ⟨Nat.le_add_right _ _, Nat.add_le_add_left hlenaw _⟩
  · rw [hw, List.length_append, List.length_map]
    exact ⟨Nat.le_add_right _ _, Nat.add_le_add_left hlenw _⟩
  · intro i haddr hdata
    exact AwW.addr_held haddr hdata i.awW
  · intro i hdata haddr
    exact AwW.data_held hdata haddr i.awW

end AxiLiteMemory

end SocRtl.Mem
