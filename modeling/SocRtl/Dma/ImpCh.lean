import Mathlib.Algebra.Group.Nat.Defs
import SocRtl.Lib.Clocked
import SocRtl.Lib.Raster

/-!
# SocRtl.Dma.ImpCh — the address generator of the image DMA channels

`mst_imp_r_ch` and `mst_imp_w_ch` contain the same registers for the start
detector, the counters, and the address channel; only the signal names differ
(`ar` and `aw`). The generator walks over a window line by line. Counters,
line base, address, processing flag and valid are separate registers, each
with its own enable; the invariant `Job` says that after `k` handshakes they
all agree on `k`.
-/

namespace SocRtl.Dma

/-! ## Model -/

/-- The task configuration. `baddr` is `IMP_SRC_BADDR` of the read channel and
`IMP_DST_BADDR` of the write channel. -/
structure ImpCfg where
  hsize : BitVec 16
  coorMinx : BitVec 8
  vsize : BitVec 16
  coorMiny : BitVec 8
  baddr : BitVec 32
  adrPitch : BitVec 32

namespace ImpCfg

def cnstPxlXEnd (c : ImpCfg) : BitVec 16 := c.coorMinx.setWidth 16 + c.hsize - 1

def cnstPxlYEnd (c : ImpCfg) : BitVec 16 := c.coorMiny.setWidth 16 + c.vsize - 1

end ImpCfg

/-- The registers of the generator. `xtAxiValid`, `xtAxiAddr` and `xtAxiProt`
are `xt_axi_arvalid`, `xt_axi_araddr` and `xt_axi_arprot`, or the same with
`aw`. -/
structure ImpCh where
  xtImpStDly : BitVec 2
  xtProcessing : Bool
  xtXcnt : BitVec 32
  xtYcnt : BitVec 32
  xtLineBase : BitVec 32
  xtAxiValid : Bool
  xtAxiAddr : BitVec 32
  xtAxiProt : BitVec 3

/-- The inputs a clock edge samples: the configuration, the start bit, and
`arready` or `awready`. -/
structure ImpChIn where
  cfg : ImpCfg
  impSt : Bool
  ready : Bool

namespace ImpCh

def reset : ImpCh := ⟨0, false, 0, 0, 0, false, 0, 0⟩

/-- A start edge is being acted upon. -/
def xtAllProcTrg (s : ImpCh) : Bool := decide (s.xtImpStDly = 0b01#2)

def xtXcntEnd (s : ImpCh) (c : ImpCfg) : Bool := decide (c.cnstPxlXEnd.setWidth 32 ≤ s.xtXcnt)

def xtYcntEnd (s : ImpCh) (c : ImpCfg) : Bool := decide (c.cnstPxlYEnd.setWidth 32 ≤ s.xtYcnt)

/-- `xt_ar_ack`, or `xt_aw_ack`. -/
def xtAck (s : ImpCh) (ready : Bool) : Bool := s.xtProcessing && ready

/-- One clock edge. -/
def step (s : ImpCh) (i : ImpChIn) : ImpCh where
  xtImpStDly := s.xtImpStDly.extractLsb' 0 1 ++ BitVec.ofBool i.impSt
  xtProcessing :=
    if s.xtAllProcTrg then true
    else if s.xtXcntEnd i.cfg && s.xtYcntEnd i.cfg && i.ready then false
    else s.xtProcessing
  xtXcnt :=
    if s.xtAllProcTrg || (s.xtXcntEnd i.cfg && !s.xtYcntEnd i.cfg && s.xtAck i.ready) then 0
    else if s.xtAck i.ready then s.xtXcnt + 1
    else s.xtXcnt
  xtYcnt :=
    if s.xtAllProcTrg then i.cfg.coorMiny.setWidth 32
    else if s.xtXcntEnd i.cfg && !s.xtYcntEnd i.cfg && i.ready then s.xtYcnt + 1
    else s.xtYcnt
  xtLineBase :=
    if s.xtAllProcTrg then i.cfg.baddr
    else if s.xtXcntEnd i.cfg && !s.xtYcntEnd i.cfg && s.xtAck i.ready then
      s.xtLineBase + i.cfg.adrPitch
    else s.xtLineBase
  xtAxiValid :=
    if s.xtAllProcTrg then true
    else if s.xtXcntEnd i.cfg && s.xtYcntEnd i.cfg && i.ready then false
    else s.xtAxiValid
  xtAxiAddr :=
    if s.xtAllProcTrg then i.cfg.baddr
    else if s.xtXcntEnd i.cfg && !s.xtYcntEnd i.cfg && s.xtAck i.ready then
      s.xtLineBase + i.cfg.adrPitch
    else if s.xtAck i.ready then s.xtAxiAddr + 4
    else s.xtAxiAddr
  xtAxiProt := 0

/-- The address handshaked at the edge, as a list of length at most one. -/
def beat (s : ImpCh) (i : ImpChIn) : List (BitVec 32) :=
  if s.xtAxiValid && i.ready then [s.xtAxiAddr] else []

end ImpCh

/-! ## The window -/

namespace ImpCfg

/-- Beats per line: the end-of-line count plus one. -/
def beats (c : ImpCfg) : ℕ := c.cnstPxlXEnd.toNat + 1

/-- Lines of a job. The first line is always made, the end-of-frame count is
only compared after it. -/
def lines (c : ImpCfg) : ℕ := max 1 (c.cnstPxlYEnd.toNat + 1 - c.coorMiny.toNat)

/-- Beats of a job. -/
def total (c : ImpCfg) : ℕ := c.beats * c.lines

/-- The address of beat `k`. -/
def addrAt (c : ImpCfg) (k : ℕ) : BitVec 32 :=
  c.baddr + BitVec.ofNat 32 (k / c.beats) * c.adrPitch + 4 * BitVec.ofNat 32 (k % c.beats)

/-- The address of word `k` of the configured window. -/
def windowAddr (c : ImpCfg) (k : ℕ) : BitVec 32 :=
  c.baddr + BitVec.ofNat 32 (k / c.hsize.toNat) * c.adrPitch
    + 4 * BitVec.ofNat 32 (k % c.hsize.toNat)

theorem beats_pos (c : ImpCfg) : 0 < c.beats := Nat.succ_pos _

theorem beats_le (c : ImpCfg) : c.beats ≤ 2 ^ 16 := c.cnstPxlXEnd.isLt

theorem lines_pos (c : ImpCfg) : 0 < c.lines := by
  unfold lines
  omega

theorem lines_le (c : ImpCfg) : c.lines ≤ 2 ^ 16 := by
  have := c.cnstPxlYEnd.isLt
  unfold lines
  omega

theorem total_pos (c : ImpCfg) : 0 < c.total := Nat.mul_pos c.beats_pos c.lines_pos

/-- Without a wrap of the end-of-line count, a line starts at pixel 0 instead
of `MINX` and so has `MINX` beats too many. -/
theorem beats_eq {c : ImpCfg} (hsize : 1 ≤ c.hsize.toNat)
    (hfit : c.coorMinx.toNat + c.hsize.toNat ≤ 65536) :
    c.beats = c.coorMinx.toNat + c.hsize.toNat := by
  have hx := c.coorMinx.isLt
  have hh := c.hsize.isLt
  have hone : (1 : BitVec 16).toNat = 1 := rfl
  simp only [beats, cnstPxlXEnd, BitVec.toNat_sub, BitVec.toNat_add, BitVec.toNat_setWidth, hone]
  omega

theorem lines_eq {c : ImpCfg} (vsize : 1 ≤ c.vsize.toNat)
    (hfit : c.coorMiny.toNat + c.vsize.toNat ≤ 65536) : c.lines = c.vsize.toNat := by
  have hy := c.coorMiny.isLt
  have hv := c.vsize.isLt
  have hone : (1 : BitVec 16).toNat = 1 := rfl
  simp only [lines, cnstPxlYEnd, BitVec.toNat_sub, BitVec.toNat_add, BitVec.toNat_setWidth, hone]
  omega

/-- Beat `k` ends a line. -/
def EndsLine (c : ImpCfg) (k : ℕ) : Prop := k % c.beats + 1 = c.beats

theorem succ_of_endsLine {c : ImpCfg} {k : ℕ} (h : c.EndsLine k) :
    (k + 1) % c.beats = 0 ∧ (k + 1) / c.beats = k / c.beats + 1 :=
  Raster.succ_of_end c.beats_pos h

theorem succ_of_not_endsLine {c : ImpCfg} {k : ℕ} (h : ¬ c.EndsLine k) :
    (k + 1) % c.beats = k % c.beats + 1 ∧ (k + 1) / c.beats = k / c.beats :=
  Raster.succ_of_inside c.beats_pos h

/-- The last beat of a job is the end of its last line. -/
theorem last_iff {c : ImpCfg} {k : ℕ} (hk : k < c.total) :
    k + 1 = c.total ↔ c.EndsLine k ∧ c.lines ≤ k / c.beats + 1 := by
  have hline : k / c.beats < c.lines := Nat.div_lt_of_lt_mul hk
  constructor
  · intro hlast
    by_cases hend : c.EndsLine k
    · rcases succ_of_endsLine hend with ⟨_, hdiv⟩
      rw [hlast, total, Nat.mul_div_cancel_left _ c.beats_pos] at hdiv
      exact ⟨hend, Nat.le_of_eq hdiv⟩
    · -- the successor of a beat inside a line is not a multiple of the line
      rcases succ_of_not_endsLine hend with ⟨hmod, _⟩
      rw [hlast, total, Nat.mul_mod_right] at hmod
      omega
  · rintro ⟨hend, hlines⟩
    rcases succ_of_endsLine hend with ⟨hmod, hdiv⟩
    have hk1 := Nat.div_add_mod (k + 1) c.beats
    rw [hmod, hdiv, Nat.add_zero, show k / c.beats + 1 = c.lines by omega] at hk1
    exact hk1.symm

/-- The address of beat `k`, with one reduction modulo `2 ^ 32` at the end. -/
theorem toNat_addrAt (c : ImpCfg) (k : ℕ) :
    (c.addrAt k).toNat
      = (c.baddr.toNat + k / c.beats * c.adrPitch.toNat + 4 * (k % c.beats)) % 2 ^ 32 := by
  rw [addrAt]
  simp only [BitVec.toNat_add, BitVec.toNat_mul, BitVec.toNat_ofNat]
  simp [Nat.add_mod, Nat.mul_mod]

theorem addrAt_zero (c : ImpCfg) : c.addrAt 0 = c.baddr := by
  simp [addrAt]

end ImpCfg

namespace ImpCh

/-! ## The job invariant -/

/-- Beat `k` of a job is being offered, and all registers agree on `k`. -/
structure Active (c : ImpCfg) (k : ℕ) (s : ImpCh) : Prop where
  processing : s.xtProcessing = true
  valid : s.xtAxiValid = true
  xcnt : s.xtXcnt = BitVec.ofNat 32 (k % c.beats)
  ycnt : s.xtYcnt = BitVec.ofNat 32 (c.coorMiny.toNat + k / c.beats)
  lineBase : s.xtLineBase = c.baddr + BitVec.ofNat 32 (k / c.beats) * c.adrPitch
  addr : s.xtAxiAddr = c.addrAt k

/-- Nothing is being offered. -/
structure Idle (s : ImpCh) : Prop where
  processing : s.xtProcessing = false
  valid : s.xtAxiValid = false

/-- A job stands at beat `k`: it offers that beat, or it is done. -/
def Job (c : ImpCfg) (k : ℕ) (s : ImpCh) : Prop :=
  (k < c.total ∧ Active c k s) ∨ (k = c.total ∧ Idle s)

theorem xtXcntEnd_iff {c : ImpCfg} {k : ℕ} {s : ImpCh} (h : Active c k s) :
    s.xtXcntEnd c = true ↔ c.EndsLine k := by
  have hmod := Nat.mod_lt k c.beats_pos
  have hbeats := c.beats_le
  have hend : c.beats = c.cnstPxlXEnd.toNat + 1 := rfl
  rw [xtXcntEnd, decide_eq_true_iff, h.xcnt, BitVec.le_def, BitVec.toNat_setWidth,
    BitVec.toNat_ofNat, Nat.mod_eq_of_lt (by omega), Nat.mod_eq_of_lt (by omega)]
  unfold ImpCfg.EndsLine
  omega

theorem xtYcntEnd_iff {c : ImpCfg} {k : ℕ} {s : ImpCh} (h : Active c k s) (hk : k < c.total) :
    s.xtYcntEnd c = true ↔ c.lines ≤ k / c.beats + 1 := by
  have hline : k / c.beats < c.lines := Nat.div_lt_of_lt_mul hk
  have hlines := c.lines_le
  have hy := c.coorMiny.isLt
  have hend := c.cnstPxlYEnd.isLt
  have hdef : c.lines = max 1 (c.cnstPxlYEnd.toNat + 1 - c.coorMiny.toNat) := rfl
  have hycnt := h.ycnt
  generalize k / c.beats = line at hline hycnt ⊢
  rw [xtYcntEnd, decide_eq_true_iff, hycnt, BitVec.le_def, BitVec.toNat_setWidth,
    BitVec.toNat_ofNat, Nat.mod_eq_of_lt (by omega), Nat.mod_eq_of_lt (by omega)]
  omega

/-- The start edge loads every register, whatever was going on. -/
theorem job_of_trg {s : ImpCh} (htrg : s.xtAllProcTrg = true) (i : ImpChIn) :
    Job i.cfg 0 (s.step i) := by
  left
  refine ⟨i.cfg.total_pos, ?_⟩
  constructor
  · simp [step, htrg]
  · simp [step, htrg]
  · simp [step, htrg]
  · simp [step, htrg]
  · simp [step, htrg]
  · simp [step, htrg, ImpCfg.addrAt_zero]

/-! ## One edge of a job -/

/-- A stalled beat is offered again, unchanged. -/
theorem active_stall {c : ImpCfg} {k : ℕ} {s : ImpCh} (h : Active c k s)
    (htrg : s.xtAllProcTrg = false) {i : ImpChIn} (hready : i.ready = false) :
    Active c k (s.step i) := by
  rcases h with ⟨h1, h2, h3, h4, h5, h6⟩
  constructor
  · simpa [step, htrg, hready] using h1
  · simpa [step, htrg, hready] using h2
  · simpa [step, xtAck, htrg, hready] using h3
  · simpa [step, htrg, hready] using h4
  · simpa [step, xtAck, htrg, hready] using h5
  · simpa [step, xtAck, htrg, hready] using h6

/-- A beat inside a line is followed by the next word of the line. -/
theorem active_next_word {c : ImpCfg} {k : ℕ} {s : ImpCh} (h : Active c k s)
    (htrg : s.xtAllProcTrg = false) {i : ImpChIn} (hcfg : i.cfg = c) (hready : i.ready = true)
    (hline : ¬ c.EndsLine k) : Active c (k + 1) (s.step i) := by
  have hx : s.xtXcntEnd c = false := by
    rw [← Bool.not_eq_true, xtXcntEnd_iff h]
    exact hline
  rcases ImpCfg.succ_of_not_endsLine hline with ⟨hmod, hdiv⟩
  rcases h with ⟨h1, h2, h3, h4, h5, h6⟩
  constructor
  · simpa [step, htrg, hcfg, hx] using h1
  · simpa [step, htrg, hcfg, hx] using h2
  · rw [hmod, BitVec.ofNat_add, ← h3]
    simp [step, xtAck, htrg, hcfg, hready, hx, h1]
  · rw [hdiv, ← h4]
    simp [step, htrg, hcfg, hready, hx]
  · rw [hdiv, ← h5]
    simp [step, htrg, hcfg, hx]
  · have hnext : (s.step i).xtAxiAddr = c.addrAt k + 4 := by
      simp [step, xtAck, htrg, hcfg, hready, hx, h1, h6]
    rw [hnext, ImpCfg.addrAt, ImpCfg.addrAt, hmod, hdiv, BitVec.ofNat_add, BitVec.mul_add]
    exact BitVec.add_assoc _ _ _

/-- The last beat of a line is followed by the first word of the next line,
which takes its address from the line base. -/
theorem active_next_line {c : ImpCfg} {k : ℕ} {s : ImpCh} (h : Active c k s)
    (htrg : s.xtAllProcTrg = false) {i : ImpChIn} (hcfg : i.cfg = c) (hready : i.ready = true)
    (hk : k < c.total) (hline : c.EndsLine k) (hmore : ¬ c.lines ≤ k / c.beats + 1) :
    Active c (k + 1) (s.step i) := by
  have hx : s.xtXcntEnd c = true := (xtXcntEnd_iff h).mpr hline
  have hy : s.xtYcntEnd c = false := by
    rw [← Bool.not_eq_true, xtYcntEnd_iff h hk]
    exact hmore
  rcases ImpCfg.succ_of_endsLine hline with ⟨hmod, hdiv⟩
  rcases h with ⟨h1, h2, h3, h4, h5, h6⟩
  have hbase : c.baddr + BitVec.ofNat 32 (k / c.beats + 1) * c.adrPitch
      = s.xtLineBase + c.adrPitch := by
    rw [h5, BitVec.ofNat_add, BitVec.add_mul, BitVec.one_mul, BitVec.add_assoc]
  constructor
  · simpa [step, htrg, hcfg, hy] using h1
  · simpa [step, htrg, hcfg, hy] using h2
  · rw [hmod]
    simp [step, xtAck, htrg, hcfg, hready, hx, hy, h1]
  · rw [hdiv, ← Nat.add_assoc, BitVec.ofNat_add, ← h4]
    simp [step, htrg, hcfg, hready, hx, hy]
  · rw [hdiv, hbase]
    simp [step, xtAck, htrg, hcfg, hready, hx, hy, h1]
  · rw [ImpCfg.addrAt, hmod, hdiv, hbase]
    simp [step, xtAck, htrg, hcfg, hready, hx, hy, h1]

/-- The last beat of the last line ends the job. -/
theorem idle_of_last {c : ImpCfg} {k : ℕ} {s : ImpCh} (h : Active c k s)
    (htrg : s.xtAllProcTrg = false) {i : ImpChIn} (hcfg : i.cfg = c) (hready : i.ready = true)
    (hk : k < c.total) (hlast : k + 1 = c.total) : Idle (s.step i) := by
  rcases (ImpCfg.last_iff hk).mp hlast with ⟨hline, hlines⟩
  have hx : s.xtXcntEnd c = true := (xtXcntEnd_iff h).mpr hline
  have hy : s.xtYcntEnd c = true := (xtYcntEnd_iff h hk).mpr hlines
  constructor
  · simp [step, htrg, hcfg, hready, hx, hy]
  · simp [step, htrg, hcfg, hready, hx, hy]

/-- An idle channel stays idle until it is started, wherever its counters
are. -/
theorem idle_step {s : ImpCh} (h : Idle s) (htrg : s.xtAllProcTrg = false) (i : ImpChIn) :
    Idle (s.step i) := by
  constructor
  · simp [step, htrg, h.processing]
  · simp [step, htrg, h.valid]

theorem beat_of_idle {s : ImpCh} (h : Idle s) (i : ImpChIn) : s.beat i = [] := by
  simp [beat, h.valid]

theorem beat_of_active {c : ImpCfg} {k : ℕ} {s : ImpCh} (h : Active c k s) (i : ImpChIn) :
    s.beat i = if i.ready then [c.addrAt k] else [] := by
  simp [beat, h.valid, h.addr]

/-- One edge of a job that is not restarted: a ready cycle handshakes the beat
the job stands at and moves on, as long as there is one. -/
theorem job_step {c : ImpCfg} {k : ℕ} {s : ImpCh} (h : Job c k s)
    (htrg : s.xtAllProcTrg = false) {i : ImpChIn} (hcfg : i.cfg = c) :
    (k < c.total ∧ i.ready = true ∧ s.beat i = [c.addrAt k] ∧ Job c (k + 1) (s.step i)) ∨
      ((k = c.total ∨ i.ready = false) ∧ s.beat i = [] ∧ Job c k (s.step i)) := by
  rcases h with ⟨hk, h⟩ | ⟨hk, h⟩
  · cases hready : i.ready with
    | false =>
        right
        -- a stall keeps the beat
        refine ⟨Or.inr rfl, ?_, Or.inl ⟨hk, active_stall h htrg hready⟩⟩
        simp [beat_of_active h, hready]
    | true =>
        left
        -- a handshake: the last beat, the end of a line, or the next word
        refine ⟨hk, rfl, by simp [beat_of_active h, hready], ?_⟩
        by_cases hlast : k + 1 = c.total
        · exact Or.inr ⟨hlast, idle_of_last h htrg hcfg hready hk hlast⟩
        · refine Or.inl ⟨by omega, ?_⟩
          by_cases hline : c.EndsLine k
          · -- there is a next line, or this beat would be the last one
            have hmore : ¬ c.lines ≤ k / c.beats + 1 := by
              intro hlines
              exact hlast ((ImpCfg.last_iff hk).mpr ⟨hline, hlines⟩)
            exact active_next_line h htrg hcfg hready hk hline hmore
          · exact active_next_word h htrg hcfg hready hline
  · -- the job is over: the counters may still move, valid does not
    right
    exact ⟨Or.inl hk, beat_of_idle h i, Or.inr ⟨hk, idle_step h htrg i⟩⟩

/-! ## Runs of a job -/

/-- The addresses handshaked along a run. -/
def addrs (s : ImpCh) (ins : List ImpChIn) : List (BitVec 32) := events step beat s ins

/-- The number of cycles in which the slave is ready. -/
def readyCycles (ins : List ImpChIn) : ℕ := ins.countP ImpChIn.ready

/-- No start edge is acted upon along the run. -/
def NoRestart (s : ImpCh) (ins : List ImpChIn) : Prop :=
  Along step (fun s _ => s.xtAllProcTrg = false) s ins

instance (s : ImpCh) (ins : List ImpChIn) : Decidable (NoRestart s ins) :=
  inferInstanceAs (Decidable (Along step (fun s _ => s.xtAllProcTrg = false) s ins))

/-- Every ready cycle handshakes the next beat until the job is done. -/
theorem job_run {c : ImpCfg} {k : ℕ} {s : ImpCh} (h : Job c k s) {ins : List ImpChIn}
    (hcfg : ∀ i ∈ ins, i.cfg = c) (hno : NoRestart s ins) :
    addrs s ins
        = (List.range (min (c.total - k) (readyCycles ins))).map (fun j => c.addrAt (k + j)) ∧
      Job c (k + min (c.total - k) (readyCycles ins)) (run step s ins) := by
  induction ins generalizing s k with
  | nil => simpa [addrs, readyCycles] using h
  | cons i ins ih =>
      have hcfg' : ∀ j ∈ ins, j.cfg = c := fun j hj => hcfg j (List.mem_cons_of_mem i hj)
      rcases job_step h hno.1 (hcfg i List.mem_cons_self) with
        ⟨hk, hready, hbeat, hjob⟩ | ⟨hstay, hbeat, hjob⟩
      · -- a handshake: one beat less to go
        rcases ih hjob hcfg' hno.2 with ⟨haddrs, hend⟩
        have hcount : min (c.total - k) (readyCycles (i :: ins))
            = min (c.total - (k + 1)) (readyCycles ins) + 1 := by
          simp only [readyCycles, List.countP_cons, hready, if_true]
          omega
        rw [hcount, run_cons, ← Nat.add_assoc, Nat.add_right_comm]
        refine ⟨?_, hend⟩
        rw [addrs, events_cons, hbeat]
        rw [addrs] at haddrs
        rw [haddrs, List.range_succ_eq_map]
        simp [Nat.add_assoc, Nat.add_comm 1, Function.comp_def]
      · -- a stall, or nothing left to do
        rcases ih hjob hcfg' hno.2 with ⟨haddrs, hend⟩
        have hcount : min (c.total - k) (readyCycles (i :: ins))
            = min (c.total - k) (readyCycles ins) := by
          rcases hstay with hdone | hready
          · simp [hdone]
          · simp [readyCycles, hready]
        rw [hcount, run_cons]
        refine ⟨?_, hend⟩
        rw [addrs, events_cons, hbeat]
        exact haddrs

/-- The processing flag and valid are the same register twice. -/
theorem processing_eq_valid (ins : List ImpChIn) :
    (run step reset ins).xtProcessing = (run step reset ins).xtAxiValid := by
  refine run_preserves (fun s : ImpCh => s.xtProcessing = s.xtAxiValid) rfl ?_ ins
  intro s i h
  simp [step, h]

/-- An idle channel handshakes nothing until it is started. -/
theorem idle_run {s : ImpCh} (h : Idle s) {ins : List ImpChIn} (hno : NoRestart s ins) :
    addrs s ins = [] ∧ Idle (run step s ins) := by
  induction ins generalizing s with
  | nil => exact ⟨rfl, h⟩
  | cons i ins ih =>
      rcases ih (idle_step h hno.1 i) hno.2 with ⟨hnone, hidle⟩
      refine ⟨?_, hidle⟩
      rw [addrs, events_cons, beat_of_idle h]
      exact hnone

/-- A stalled beat stays valid in any case, its address unless the channel is
being restarted. -/
theorem valid_of_stall {s : ImpCh} {i : ImpChIn} (hvalid : s.xtAxiValid = true)
    (hready : i.ready = false) : (s.step i).xtAxiValid = true := by
  simp [step, hvalid, hready]

theorem addr_of_stall {s : ImpCh} {i : ImpChIn} (hready : i.ready = false) :
    (s.step i).xtAxiAddr = if s.xtAllProcTrg then i.cfg.baddr else s.xtAxiAddr := by
  simp [step, xtAck, hready]

/-! ## Starting a job -/

/-- The start bit rises. -/
def Starts (s : ImpCh) (i : ImpChIn) : Prop :=
  s.xtImpStDly.getLsbD 0 = false ∧ i.impSt = true

instance (s : ImpCh) (i : ImpChIn) : Decidable (s.Starts i) := inferInstanceAs (Decidable (_ ∧ _))

/-- The start bit rises while the channel is idle. -/
structure Launch (s : ImpCh) (i : ImpChIn) : Prop where
  idle : s.xtAxiValid = false
  low : s.xtImpStDly.getLsbD 0 = false
  st : i.impSt = true

theorem shift_eq_one : ∀ (dly : BitVec 2) (st : Bool),
    decide (dly.extractLsb' 0 1 ++ BitVec.ofBool st = 0b01#2) = (!dly.getLsbD 0 && st) := by
  decide

theorem getLsbD_shift : ∀ (dly : BitVec 2) (st : Bool),
    (dly.extractLsb' 0 1 ++ BitVec.ofBool st).getLsbD 0 = st := by
  decide

theorem ne_one_of_low :
    ∀ dly : BitVec 2, dly.getLsbD 0 = false → decide (dly = 0b01#2) = false := by
  decide

/-- A start edge is acted upon one cycle after the start bit rose. -/
theorem xtAllProcTrg_step (s : ImpCh) (i : ImpChIn) :
    (s.step i).xtAllProcTrg = (!s.xtImpStDly.getLsbD 0 && i.impSt) :=
  shift_eq_one s.xtImpStDly i.impSt

theorem xtAllProcTrg_of_not_starts {s : ImpCh} {i : ImpChIn} (h : ¬ s.Starts i) :
    (s.step i).xtAllProcTrg = false := by
  rw [xtAllProcTrg_step, ← Bool.not_eq_true, Bool.and_eq_true, Bool.not_eq_true']
  exact h

theorem xtImpStDly_step (s : ImpCh) (i : ImpChIn) :
    (s.step i).xtImpStDly.getLsbD 0 = i.impSt :=
  getLsbD_shift s.xtImpStDly i.impSt

theorem xtAllProcTrg_of_low {s : ImpCh} (h : s.xtImpStDly.getLsbD 0 = false) :
    s.xtAllProcTrg = false :=
  ne_one_of_low s.xtImpStDly h

/-- Launching takes two edges, handshakes nothing, and leads to beat 0. -/
theorem job_of_launch {s : ImpCh} (hproc : s.xtProcessing = s.xtAxiValid) {i : ImpChIn}
    (h : Launch s i) (j : ImpChIn) :
    s.beat i = [] ∧ (s.step i).beat j = [] ∧ Job j.cfg 0 ((s.step i).step j) := by
  have hidle : Idle s := ⟨hproc.trans h.idle, h.idle⟩
  -- the edge is acted upon one cycle later, so the channel is idle until then
  have hidle' : Idle (s.step i) := idle_step hidle (xtAllProcTrg_of_low h.low) i
  have htrg : (s.step i).xtAllProcTrg = true := by
    rw [xtAllProcTrg_step, h.low, h.st]
    rfl
  exact ⟨beat_of_idle hidle i, beat_of_idle hidle' j, job_of_trg htrg j⟩

/-- Without a further start edge the channel is not restarted, and no start is
pending in the end. -/
theorem noRestart_of_not_starts {s : ImpCh} (htrg : s.xtAllProcTrg = false) {ins : List ImpChIn}
    (hst : Along step (fun s i => ¬ s.Starts i) s ins) :
    NoRestart s ins ∧ (run step s ins).xtAllProcTrg = false := by
  induction ins generalizing s with
  | nil => exact ⟨trivial, htrg⟩
  | cons i ins ih =>
      rcases ih (xtAllProcTrg_of_not_starts hst.1) hst.2 with ⟨hno, hend⟩
      exact ⟨⟨htrg, hno⟩, hend⟩

/-- A start bit that keeps its level, high or low, makes no edge. -/
theorem not_starts_of_level {s : ImpCh} {b : Bool} (hlevel : s.xtImpStDly.getLsbD 0 = b)
    {ins : List ImpChIn} (hst : ∀ i ∈ ins, i.impSt = b) :
    Along step (fun s i => ¬ s.Starts i) s ins := by
  induction ins generalizing s with
  | nil => exact trivial
  | cons i ins ih =>
      have hi := hst i List.mem_cons_self
      refine ⟨?_, ih ((xtImpStDly_step s i).trans hi) fun j hj =>
        hst j (List.mem_cons_of_mem i hj)⟩
      -- an edge needs the last level low and this one high
      rintro ⟨hlow, hhigh⟩
      rw [hlevel, ← hi, hhigh] at hlow
      cases hlow

/-- A whole job, from the start pulse: with `N` ready cycles after the launch
the first `N` beats are handshaked, all of them if `N` is large enough. -/
theorem job_of_launch_run {s : ImpCh} (hproc : s.xtProcessing = s.xtAxiValid) {i j : ImpChIn}
    (h : Launch s i) {c : ImpCfg} (hj : j.cfg = c) {ins : List ImpChIn}
    (hcfg : ∀ i ∈ ins, i.cfg = c) (hno : NoRestart ((s.step i).step j) ins) :
    addrs s (i :: j :: ins) = (List.range (min c.total (readyCycles ins))).map c.addrAt ∧
      Job c (min c.total (readyCycles ins)) (run step s (i :: j :: ins)) := by
  rcases job_of_launch hproc h j with ⟨hbeat, hbeat', hjob⟩
  rw [hj] at hjob
  rcases job_run hjob hcfg hno with ⟨haddrs, hend⟩
  simp only [Nat.sub_zero, Nat.zero_add] at haddrs hend
  refine ⟨?_, hend⟩
  -- the two edges of the launch handshake nothing
  rw [addrs, events_cons, events_cons, hbeat, hbeat']
  exact haddrs

/-- Nothing happens while the start bit does not rise. -/
theorem rest_run {s : ImpCh} (hidle : Idle s) (htrg : s.xtAllProcTrg = false)
    {ins : List ImpChIn} (hst : Along step (fun s i => ¬ s.Starts i) s ins) :
    addrs s ins = [] ∧ Idle (run step s ins) ∧ (run step s ins).xtAllProcTrg = false := by
  rcases noRestart_of_not_starts htrg hst with ⟨hno, hend⟩
  rcases idle_run hidle hno with ⟨hnone, hidle'⟩
  exact ⟨hnone, hidle', hend⟩

/-- A job started by one edge of the start bit. -/
theorem job_of_edge {s : ImpCh} (hproc : s.xtProcessing = s.xtAxiValid) {i : ImpChIn}
    (h : Launch s i) {c : ImpCfg} {ins : List ImpChIn} (hne : ins ≠ [])
    (hst : Along step (fun s i => ¬ s.Starts i) (s.step i) ins) (hcfg : ∀ i ∈ ins, i.cfg = c) :
    addrs s (i :: ins)
        = (List.range (min c.total (readyCycles ins.tail))).map c.addrAt ∧
      Job c (min c.total (readyCycles ins.tail)) (run step s (i :: ins)) ∧
      (run step s (i :: ins)).xtAllProcTrg = false := by
  cases ins with
  | nil => exact absurd rfl hne
  | cons j ins =>
      rcases noRestart_of_not_starts (xtAllProcTrg_of_not_starts hst.1) hst.2 with ⟨hno, hend⟩
      rcases job_of_launch_run hproc h (hcfg j List.mem_cons_self)
        (fun p hp => hcfg p (List.mem_cons_of_mem j hp)) hno with ⟨haddrs, hjob⟩
      exact ⟨haddrs, hjob, hend⟩

/-- A job that offers nothing is done. -/
theorem Job.done {c : ImpCfg} {k : ℕ} {s : ImpCh} (h : Job c k s) (hvalid : s.xtAxiValid = false) :
    k = c.total ∧ Idle s := by
  rcases h with ⟨_, hactive⟩ | hdone
  · rw [hactive.valid] at hvalid
    exact absurd hvalid (by decide)
  · exact hdone

theorem Job.idle {c : ImpCfg} {s : ImpCh} (h : Job c c.total s) : Idle s := by
  rcases h with ⟨hlt, _⟩ | ⟨_, hidle⟩
  · exact absurd hlt (Nat.lt_irrefl _)
  · exact hidle

/-! ## A generator inside a circuit

`π` picks the registers of the generator out of those of a circuit, `ρ` is
what the circuit feeds to it. -/

section

variable {σ ι : Type*} {next : σ → ι → σ} (π : σ → ImpCh) (ρ : σ → ι → ImpChIn)

/-- A start bit that keeps its level makes no edge. -/
theorem level_fed (hstep : ∀ s i, π (next s i) = (π s).step (ρ s i)) {s : σ} {b : Bool}
    {ins : List ι} (hlevel : (π s).xtImpStDly.getLsbD 0 = b)
    (hst : Along next (fun s i => (ρ s i).impSt = b) s ins) :
    Along next (fun s i => ¬ (π s).Starts (ρ s i)) s ins :=
  (along_fed hstep (fun s i => ¬ s.Starts i) s ins).mpr
    (not_starts_of_level hlevel (forall_mem_trace hst))

/-- A generator that is idle and not started stays idle. -/
theorem rest_fed (hstep : ∀ s i, π (next s i) = (π s).step (ρ s i)) {s : σ} {ins : List ι}
    (hidle : Idle (π s)) (htrg : (π s).xtAllProcTrg = false)
    (hst : Along next (fun s i => ¬ (π s).Starts (ρ s i)) s ins) :
    Idle (π (run next s ins)) ∧ (π (run next s ins)).xtAllProcTrg = false := by
  rw [run_fed hstep]
  exact (rest_run hidle htrg
    ((along_fed hstep (fun s i => ¬ s.Starts i) s ins).mp hst)).2

/-- A job started by an edge in a circuit that is always ready: one address in
every cycle after the start, until all beats are made. -/
theorem job_fed (hstep : ∀ s i, π (next s i) = (π s).step (ρ s i)) {s : σ} {i : ι} {ins : List ι}
    (hproc : (π s).xtProcessing = (π s).xtAxiValid) (h : Launch (π s) (ρ s i)) {c : ImpCfg}
    (hne : ins ≠ []) (hst : Along next (fun s i => ¬ (π s).Starts (ρ s i)) (next s i) ins)
    (hcfg : Along next (fun s i => (ρ s i).cfg = c) (next s i) ins)
    (hready : Along next (fun s i => (ρ s i).ready = true) (next s i) ins) :
    events next (fun s i => (π s).beat (ρ s i)) s (i :: ins)
        = (List.range (min c.total (ins.length - 1))).map c.addrAt ∧
      Job c (min c.total (ins.length - 1)) (π (run next s (i :: ins))) ∧
      (π (run next s (i :: ins))).xtAllProcTrg = false := by
  have hfed : trace next ρ (next s i) ins ≠ [] := by
    intro hnil
    have hlen := congrArg List.length hnil
    rw [length_trace] at hlen
    exact hne (List.length_eq_zero_iff.mp hlen)
  have hcycles : readyCycles (trace next ρ (next s i) ins).tail = ins.length - 1 := by
    have hall : ∀ p ∈ trace next ρ (next s i) ins, p.ready = true := forall_mem_trace hready
    rw [readyCycles, List.countP_eq_length.mpr fun p hp => hall p (List.mem_of_mem_tail hp),
      List.length_tail, length_trace]
  have hedges := (along_fed hstep (fun s i => ¬ s.Starts i) (next s i) ins).mp hst
  rw [hstep] at hedges
  rw [events_fed hstep beat, run_fed hstep, ← hcycles]
  exact job_of_edge hproc h hfed hedges (forall_mem_trace hcfg)

end

end ImpCh

end SocRtl.Dma
