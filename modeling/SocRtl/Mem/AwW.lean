import SocRtl.Handshake
import SocRtl.Lib.Clocked

/-!
# SocRtl.Mem.AwW — the pairing of write addresses with write data

Both memory slaves take AW and W through one `axi_like_handshake` each and
write when both hold a word. The two stages are ready again in the cycle of
the write, so each channel can run ahead of the other by one word and both can
refill at once. `hit` is the address decoder: a slave with banks writes only
if some bank is addressed.
-/

namespace SocRtl.Mem

open Handshake

/-- The write-side registers. `xtAwValid` and `xtWValid` are the `valid_reg`s
of `u0_aw_handshake` and `u0_w_handshake`. -/
structure AwW where
  xtAwValid : Bool
  xtWValid : Bool
  xtWrAddr : BitVec 32
  xtWrData : BitVec 32

/-- The AW and W channels at a clock edge. -/
structure AwWIn where
  sAwValid : Bool
  sAwAddr : BitVec 32
  sWValid : Bool
  sWData : BitVec 32

namespace AwW

def reset : AwW := ⟨false, false, 0, 0⟩

variable (hit : BitVec 32 → Bool)

/-- A pair is complete and is being written. -/
def xtAwWVld (s : AwW) : Bool := s.xtAwValid && s.xtWValid && hit s.xtWrAddr

def sAwReady (s : AwW) : Bool := readyO s.xtAwValid (s.xtAwWVld hit)

def sWReady (s : AwW) : Bool := readyO s.xtWValid (s.xtAwWVld hit)

/-- One clock edge. -/
def step (s : AwW) (i : AwWIn) : AwW where
  xtAwValid := nextValid s.xtAwValid i.sAwValid (s.xtAwWVld hit)
  xtWValid := nextValid s.xtWValid i.sWValid (s.xtAwWVld hit)
  xtWrAddr := if i.sAwValid && s.sAwReady hit then i.sAwAddr else s.xtWrAddr
  xtWrData := if i.sWValid && s.sWReady hit then i.sWData else s.xtWrData

/-- The address accepted at the edge. -/
def awTaken (s : AwW) (i : AwWIn) : List (BitVec 32) :=
  slot (i.sAwValid && s.sAwReady hit) i.sAwAddr

/-- The data word accepted at the edge. -/
def wTaken (s : AwW) (i : AwWIn) : List (BitVec 32) :=
  slot (i.sWValid && s.sWReady hit) i.sWData

/-- The pair written at the edge. -/
def commit (s : AwW) (_ : AwWIn) : List (BitVec 32 × BitVec 32) :=
  slot (s.xtAwWVld hit) (s.xtWrAddr, s.xtWrData)

/-- The address that waits for its data. -/
def pendingAw (s : AwW) : List (BitVec 32) := slot s.xtAwValid s.xtWrAddr

/-- The data word that waits for its address. -/
def pendingW (s : AwW) : List (BitVec 32) := slot s.xtWValid s.xtWrData

/-- The pair that is complete. -/
def waiting (s : AwW) : List (BitVec 32 × BitVec 32) :=
  slot (s.xtAwValid && s.xtWValid) (s.xtWrAddr, s.xtWrData)

variable {hit}

theorem rEn_aw (s : AwW) : rEn s.xtAwValid (s.xtAwWVld hit) = s.xtAwWVld hit := by
  unfold rEn xtAwWVld
  cases s.xtAwValid <;> rfl

theorem rEn_w (s : AwW) : rEn s.xtWValid (s.xtAwWVld hit) = s.xtAwWVld hit := by
  unfold rEn xtAwWVld
  cases s.xtAwValid <;> cases s.xtWValid <;> rfl

/-- Addresses pass through the AW stage in order, none lost or invented. -/
theorem pendingAw_step (s : AwW) (i : AwWIn) :
    s.pendingAw ++ s.awTaken hit i
      = (s.commit hit i).map Prod.fst ++ (s.step hit i).pendingAw := by
  -- a pair is written when its address leaves the AW register
  have hout : (s.commit hit i).map Prod.fst
      = slot (rEn s.xtAwValid (s.xtAwWVld hit)) s.xtWrAddr := by
    rw [rEn_aw, commit]
    cases s.xtAwWVld hit <;> rfl
  rw [hout]
  apply slot_step
  · intro hready hvalid
    simp [step, sAwReady, hready, hvalid]
  · intro hready
    simp [step, sAwReady, hready]

/-- Data words pass through the W stage in order, none lost or invented. -/
theorem pendingW_step (s : AwW) (i : AwWIn) :
    s.pendingW ++ s.wTaken hit i
      = (s.commit hit i).map Prod.snd ++ (s.step hit i).pendingW := by
  -- and its data the W register
  have hout : (s.commit hit i).map Prod.snd
      = slot (rEn s.xtWValid (s.xtAwWVld hit)) s.xtWrData := by
    rw [rEn_w, commit]
    cases s.xtAwWVld hit <;> rfl
  rw [hout]
  apply slot_step
  · intro hready hvalid
    simp [step, sWReady, hready, hvalid]
  · intro hready
    simp [step, sWReady, hready]

/-- An address whose data is missing is kept. -/
theorem addr_held {s : AwW} (haddr : s.xtAwValid = true) (hdata : s.xtWValid = false)
    (i : AwWIn) : (s.step hit i).xtAwValid = true ∧ (s.step hit i).xtWrAddr = s.xtWrAddr := by
  simp [step, nextValid, sAwReady, readyO, xtAwWVld, haddr, hdata]

/-- A data word whose address is missing is kept. -/
theorem data_held {s : AwW} (hdata : s.xtWValid = true) (haddr : s.xtAwValid = false)
    (i : AwWIn) : (s.step hit i).xtWValid = true ∧ (s.step hit i).xtWrData = s.xtWrData := by
  simp [step, nextValid, sWReady, readyO, xtAwWVld, haddr, hdata]

/-! ## Runs -/

variable (hit)

/-- The addresses accepted along a run. -/
def awLog (s : AwW) (ins : List AwWIn) : List (BitVec 32) := events (step hit) (awTaken hit) s ins

/-- The data words accepted along a run. -/
def wLog (s : AwW) (ins : List AwWIn) : List (BitVec 32) := events (step hit) (wTaken hit) s ins

/-- The pairs written along a run. -/
def commits (s : AwW) (ins : List AwWIn) : List (BitVec 32 × BitVec 32) :=
  events (step hit) (commit hit) s ins

variable {hit}

theorem awLog_eq (s : AwW) (ins : List AwWIn) :
    s.pendingAw ++ awLog hit s ins
      = (commits hit s ins).map Prod.fst ++ (run (step hit) s ins).pendingAw := by
  rw [commits, ← events_map]
  exact events_conserved (along_of_forall _ pendingAw_step s ins)

theorem wLog_eq (s : AwW) (ins : List AwWIn) :
    s.pendingW ++ wLog hit s ins
      = (commits hit s ins).map Prod.snd ++ (run (step hit) s ins).pendingW := by
  rw [commits, ← events_map]
  exact events_conserved (along_of_forall _ pendingW_step s ins)

/-- After reset, what was accepted is what was written and at most one word
that waits. -/
theorem awLog_reset (ins : List AwWIn) :
    awLog hit reset ins
      = (commits hit reset ins).map Prod.fst ++ (run (step hit) reset ins).pendingAw :=
  awLog_eq reset ins

theorem wLog_reset (ins : List AwWIn) :
    wLog hit reset ins
      = (commits hit reset ins).map Prod.snd ++ (run (step hit) reset ins).pendingW :=
  wLog_eq reset ins

/-- What was accepted since reset, paired up: the writes made and the pair that
is complete. -/
theorem zip_logs (ins : List AwWIn) :
    List.zip (awLog hit reset ins) (wLog hit reset ins)
      = commits hit reset ins ++ (run (step hit) reset ins).waiting := by
  rw [awLog_reset, wLog_reset, List.zip_append (by simp), ← List.zip_of_prod rfl rfl]
  congr 1
  unfold pendingAw pendingW waiting slot
  cases (run (step hit) reset ins).xtAwValid <;> cases (run (step hit) reset ins).xtWValid <;> rfl

/-- A complete pair is written at the next edge if its address is mapped. -/
theorem commit_eq_waiting {s : AwW} (h : s.xtAwValid = true → hit s.xtWrAddr = true) (i : AwWIn) :
    s.commit hit i = s.waiting := by
  unfold commit waiting xtAwWVld
  cases hvalid : s.xtAwValid with
  | true => rw [h hvalid, Bool.and_true]
  | false => rfl

end AwW

end SocRtl.Mem
