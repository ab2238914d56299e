import SocRtl.Lib.Clocked
import SocRtl.Lib.Raster

/-!
# SocRtl.Video.TimingGen — the video timing generator `timing_gen`

Two counters scan the raster; four flags are set and cleared by comparisons one
cycle before the boundaries they stand for. The counters start three cycles
after reset, when `op_start` has filled with ones, while the horizontal flag
`h_de` runs from the first cycle on; a left start at 1 sets it too early, in the
first line, where `v_de` masks it.

`Shows` says that the registers show position `n` of the raster. It holds three
cycles after reset and is kept by every edge (`shows_step`).
-/

namespace SocRtl.Video

open Raster

/-! ## Model -/

/-- The configuration inputs. `vs_reset` is an input that nothing reads. -/
structure TimingCfg where
  horAddrTime : BitVec 16
  horSyncTime : BitVec 16
  horBackPorch : BitVec 16
  horLeftBorder : BitVec 16
  horRightBorder : BitVec 16
  horFrontPorch : BitVec 16
  verAddrTime : BitVec 16
  verSyncTime : BitVec 16
  verBackPorch : BitVec 16
  verBottomBorder : BitVec 16
  verTopBorder : BitVec 16
  verFrontPorch : BitVec 16

namespace TimingCfg

def horTotal (c : TimingCfg) : BitVec 16 :=
  c.horAddrTime + c.horSyncTime + c.horBackPorch + c.horLeftBorder + c.horRightBorder
    + c.horFrontPorch

def verTotal (c : TimingCfg) : BitVec 16 :=
  c.verAddrTime + c.verSyncTime + c.verBackPorch + c.verTopBorder + c.verBottomBorder
    + c.verFrontPorch

def horStart (c : TimingCfg) : BitVec 16 := c.horSyncTime + c.horBackPorch + c.horLeftBorder

def verStart (c : TimingCfg) : BitVec 16 := c.verSyncTime + c.verBackPorch + c.verTopBorder

end TimingCfg

/-- Bits 26 to 24 of a video bus. -/
structure Sync where
  vsync : Bool
  hsync : Bool
  den : Bool
deriving DecidableEq

/-- The registers. -/
structure TimingGen where
  opStart : BitVec 3
  htSync : Bool
  vtSync : Bool
  hDe : Bool
  vDe : Bool
  hCnt : BitVec 16
  vCnt : BitVec 16

namespace TimingGen

def reset : TimingGen := ⟨0, false, false, false, false, 0, 0⟩

def hEnd (s : TimingGen) (c : TimingCfg) : Bool := decide (c.horTotal - 1 ≤ s.hCnt)

def vEnd (s : TimingGen) (c : TimingCfg) : Bool := decide (c.verTotal - 1 ≤ s.vCnt)

def hrBoundary (s : TimingGen) (c : TimingCfg) : Bool := decide (s.hCnt = c.horStart - 1)

def hlBoundary (s : TimingGen) (c : TimingCfg) : Bool :=
  decide (s.hCnt = c.horStart + c.horAddrTime - 1)

/-- This comparison is made in 32 bits: the source subtracts an integer. -/
def vtBoundary (s : TimingGen) (c : TimingCfg) : Bool :=
  decide (s.vCnt.setWidth 32 = c.verStart.setWidth 32 - 1)

def vbBoundary (s : TimingGen) (c : TimingCfg) : Bool :=
  decide (s.vCnt = c.verStart + c.verAddrTime - 1)

/-- Data enable, bit 24 of `Synco`. -/
def tDe (s : TimingGen) : Bool := s.vDe && s.hDe

def synco (s : TimingGen) : Sync := ⟨s.vtSync, s.htSync, s.tDe⟩

/-- One clock edge. -/
def step (s : TimingGen) (c : TimingCfg) : TimingGen where
  opStart := s.opStart.extractLsb' 0 2 ++ 1#1
  htSync :=
    if s.opStart.extractLsb' 1 2 = 0b01#2 || s.hEnd c then true
    else if s.hCnt = c.horSyncTime - 1 then false
    else s.htSync
  vtSync :=
    if s.opStart.extractLsb' 1 2 = 0b01#2 || (s.vEnd c && s.hEnd c) then true
    else if s.vCnt = c.verSyncTime - 1 && s.hEnd c then false
    else s.vtSync
  hDe :=
    if s.hrBoundary c then true
    else if s.hlBoundary c then false
    else s.hDe
  vDe :=
    if s.vtBoundary c && s.hEnd c then true
    else if s.vbBoundary c && s.hEnd c then false
    else s.vDe
  hCnt :=
    if s.opStart.getLsbD 2 then if s.hEnd c then 0 else s.hCnt + 1
    else s.hCnt
  vCnt :=
    if s.opStart.getLsbD 2 then
      if s.vEnd c && s.hEnd c then 0
      else if s.hEnd c then s.vCnt + 1
      else s.vCnt
    else s.vCnt

/-- The registers after `n` edges from reset under a fixed configuration. -/
def after (c : TimingCfg) (n : ℕ) : TimingGen := run step reset (List.replicate n c)

end TimingGen

/-! ## The configured raster -/

namespace TimingCfg

/-- Sync width and active size are at least 1 and the total fits 16 bits, on
both axes. -/
structure Legal (c : TimingCfg) : Prop where
  horSync : 1 ≤ c.horSyncTime.toNat
  horAddr : 1 ≤ c.horAddrTime.toNat
  horFits : c.horSyncTime.toNat + c.horBackPorch.toNat + c.horLeftBorder.toNat
    + c.horAddrTime.toNat + c.horRightBorder.toNat + c.horFrontPorch.toNat < 2 ^ 16
  verSync : 1 ≤ c.verSyncTime.toNat
  verAddr : 1 ≤ c.verAddrTime.toNat
  verFits : c.verSyncTime.toNat + c.verBackPorch.toNat + c.verTopBorder.toNat
    + c.verAddrTime.toNat + c.verBottomBorder.toNat + c.verFrontPorch.toNat < 2 ^ 16

/-- The horizontal axis of a configuration. -/
def hor (c : TimingCfg) (h : c.Legal) : Axis where
  sync := c.horSyncTime.toNat
  start := c.horSyncTime.toNat + c.horBackPorch.toNat + c.horLeftBorder.toNat
  active := c.horAddrTime.toNat
  total := c.horSyncTime.toNat + c.horBackPorch.toNat + c.horLeftBorder.toNat
    + c.horAddrTime.toNat + c.horRightBorder.toNat + c.horFrontPorch.toNat
  sync_pos := h.horSync
  sync_le := by omega
  active_pos := h.horAddr
  fits := by omega

/-- The vertical axis. -/
def ver (c : TimingCfg) (h : c.Legal) : Axis where
  sync := c.verSyncTime.toNat
  start := c.verSyncTime.toNat + c.verBackPorch.toNat + c.verTopBorder.toNat
  active := c.verAddrTime.toNat
  total := c.verSyncTime.toNat + c.verBackPorch.toNat + c.verTopBorder.toNat
    + c.verAddrTime.toNat + c.verBottomBorder.toNat + c.verFrontPorch.toNat
  sync_pos := h.verSync
  sync_le := by omega
  active_pos := h.verAddr
  fits := by omega

/-- The sums of the source do not wrap. -/
theorem toNat_horTotal {c : TimingCfg} (h : c.Legal) : c.horTotal.toNat = (c.hor h).total := by
  have hfits := h.horFits
  simp only [horTotal, BitVec.toNat_add, hor]
  omega

theorem toNat_verTotal {c : TimingCfg} (h : c.Legal) : c.verTotal.toNat = (c.ver h).total := by
  have hfits := h.verFits
  simp only [verTotal, BitVec.toNat_add, ver]
  omega

theorem toNat_horStart {c : TimingCfg} (h : c.Legal) : c.horStart.toNat = (c.hor h).start := by
  have hfits := h.horFits
  simp only [horStart, BitVec.toNat_add, hor]
  omega

theorem toNat_verStart {c : TimingCfg} (h : c.Legal) : c.verStart.toNat = (c.ver h).start := by
  have hfits := h.verFits
  simp only [verStart, BitVec.toNat_add, ver]
  omega

end TimingCfg

/-! ## The comparisons -/

/-- A comparison with the cycle before a boundary. -/
theorem eq_sub_one_iff {x y : BitVec 16} (hy : 1 ≤ y.toNat) :
    x = y - 1 ↔ x.toNat + 1 = y.toNat := by
  have hx := x.isLt
  have hone : (1 : BitVec 16).toNat = 1 := rfl
  rw [← BitVec.toNat_inj, BitVec.toNat_sub, hone]
  omega

theorem sub_one_le_iff {x y : BitVec 16} (hy : 1 ≤ y.toNat) :
    y - 1 ≤ x ↔ y.toNat ≤ x.toNat + 1 := by
  have hlt := y.isLt
  have hone : (1 : BitVec 16).toNat = 1 := rfl
  rw [BitVec.le_def, BitVec.toNat_sub, hone]
  omega

/-- A flag that `p` sets and `q` clears. -/
theorem flag_iff {p q : Prop} [Decidable p] [Decidable q] {b : Bool} :
    (if p then true else if q then false else b) = true ↔ p ∨ (b = true ∧ ¬ q) := by
  by_cases hp : p
  · simp [hp]
  · by_cases hq : q
    · simp [hp, hq]
    · simp [hp, hq]

namespace TimingGen

variable {c : TimingCfg} (h : c.Legal) (s : TimingGen)

theorem hEnd_iff : s.hEnd c = true ↔ (c.hor h).total ≤ s.hCnt.toNat + 1 := by
  have hpos := (c.hor h).total_pos
  rw [← TimingCfg.toNat_horTotal h] at hpos ⊢
  rw [hEnd, decide_eq_true_eq, sub_one_le_iff hpos]

theorem vEnd_iff : s.vEnd c = true ↔ (c.ver h).total ≤ s.vCnt.toNat + 1 := by
  have hpos := (c.ver h).total_pos
  rw [← TimingCfg.toNat_verTotal h] at hpos ⊢
  rw [vEnd, decide_eq_true_eq, sub_one_le_iff hpos]

theorem hrBoundary_iff : s.hrBoundary c = true ↔ s.hCnt.toNat + 1 = (c.hor h).start := by
  have hpos : 1 ≤ (c.hor h).start := Nat.le_trans (c.hor h).sync_pos (c.hor h).sync_le
  rw [← TimingCfg.toNat_horStart h] at hpos ⊢
  rw [hrBoundary, decide_eq_true_eq, eq_sub_one_iff hpos]

theorem hlBoundary_iff :
    s.hlBoundary c = true ↔ s.hCnt.toNat + 1 = (c.hor h).start + (c.hor h).active := by
  have hfits := h.horFits
  have haddr := h.horAddr
  have hstart := TimingCfg.toNat_horStart h
  have hend : (c.horStart + c.horAddrTime).toNat = (c.hor h).start + (c.hor h).active := by
    rw [BitVec.toNat_add, hstart]
    simp only [TimingCfg.hor]
    omega
  have hpos := (c.hor h).active_pos
  rw [hlBoundary, decide_eq_true_eq, eq_sub_one_iff (by omega), hend]

theorem vtBoundary_iff : s.vtBoundary c = true ↔ s.vCnt.toNat + 1 = (c.ver h).start := by
  have hpos : 1 ≤ (c.ver h).start := Nat.le_trans (c.ver h).sync_pos (c.ver h).sync_le
  have hlt := c.verStart.isLt
  have hcnt := s.vCnt.isLt
  have hone : (1 : BitVec 32).toNat = 1 := rfl
  rw [← TimingCfg.toNat_verStart h] at hpos ⊢
  rw [vtBoundary, decide_eq_true_eq, ← BitVec.toNat_inj, BitVec.toNat_sub, BitVec.toNat_setWidth,
    BitVec.toNat_setWidth, hone]
  omega

theorem vbBoundary_iff :
    s.vbBoundary c = true ↔ s.vCnt.toNat + 1 = (c.ver h).start + (c.ver h).active := by
  have hfits := h.verFits
  have haddr := h.verAddr
  have hstart := TimingCfg.toNat_verStart h
  have hend : (c.verStart + c.verAddrTime).toNat = (c.ver h).start + (c.ver h).active := by
    rw [BitVec.toNat_add, hstart]
    simp only [TimingCfg.ver]
    omega
  have hpos := (c.ver h).active_pos
  rw [vbBoundary, decide_eq_true_eq, eq_sub_one_iff (by omega), hend]

/-! ## One edge

`op_start` is 3'b111. -/

section

variable {s}

theorem toNat_add_one {x : BitVec 16} {n : ℕ} (hlt : x.toNat + 1 < n) (hn : n < 2 ^ 16) :
    (x + 1).toNat = x.toNat + 1 := by
  have hone : (1 : BitVec 16).toNat = 1 := rfl
  rw [BitVec.toNat_add, hone, Nat.mod_eq_of_lt (by omega)]

theorem opStart_step (hop : s.opStart = 0b111#3) : (s.step c).opStart = 0b111#3 := by
  show s.opStart.extractLsb' 0 2 ++ 1#1 = _
  rw [hop]
  rfl

/-- The counters move on, wherever they are. -/
theorem counters_step (hop : s.opStart = 0b111#3) :
    (s.step c).hCnt.toNat = (c.hor h).next s.hCnt.toNat ∧
      (s.step c).vCnt.toNat = if (c.hor h).total ≤ s.hCnt.toNat + 1
        then (c.ver h).next s.vCnt.toNat else s.vCnt.toNat := by
  have hon : s.opStart.getLsbD 2 = true := by
    rw [hop]
    rfl
  have hend := hEnd_iff h s
  have hvend := vEnd_iff h s
  rw [Axis.next, Axis.next]
  show (if s.opStart.getLsbD 2 then if s.hEnd c then 0 else s.hCnt + 1 else s.hCnt).toNat = _ ∧
    (if s.opStart.getLsbD 2 then if s.vEnd c && s.hEnd c then 0
      else if s.hEnd c then s.vCnt + 1 else s.vCnt else s.vCnt).toNat = _
  rw [if_pos hon, if_pos hon]
  cases hh : s.hEnd c with
  -- the line ends: so does the frame, or the next line begins
  | true =>
      rw [if_pos rfl, if_pos (hend.mp hh), if_pos (hend.mp hh), Bool.and_true]
      refine ⟨rfl, ?_⟩
      cases hv : s.vEnd c with
      | true =>
          rw [if_pos rfl, if_pos (hvend.mp hv)]
          rfl
      | false =>
          have hlt : s.vCnt.toNat + 1 < (c.ver h).total := by
            rw [← Nat.not_le, ← hvend, hv]
            exact Bool.false_ne_true
          rw [if_neg Bool.false_ne_true, if_pos rfl, if_neg (by omega)]
          exact toNat_add_one hlt h.verFits
  | false =>
      -- within a line only the column moves
      have hlt : s.hCnt.toNat + 1 < (c.hor h).total := by
        rw [← Nat.not_le, ← hend, hh]
        exact Bool.false_ne_true
      rw [if_neg Bool.false_ne_true, Bool.and_false, if_neg Bool.false_ne_true,
        if_neg Bool.false_ne_true, if_neg (Nat.not_le.mpr hlt), if_neg (Nat.not_le.mpr hlt)]
      exact ⟨toNat_add_one hlt h.horFits, rfl⟩

/-- The first two bits of `op_start` no longer start a line. -/
theorem not_starting (hop : s.opStart = 0b111#3) : ¬ s.opStart.extractLsb' 1 2 = 0b01#2 := by
  rw [hop]
  decide

theorem htSync_step (hop : s.opStart = 0b111#3) :
    (s.step c).htSync = true ↔ (c.hor h).total ≤ s.hCnt.toNat + 1
      ∨ (s.htSync = true ∧ s.hCnt.toNat + 1 ≠ (c.hor h).sync) := by
  have hrun := not_starting hop
  show (if (s.opStart.extractLsb' 1 2 = 0b01#2 || s.hEnd c) = true then true
    else if s.hCnt = c.horSyncTime - 1 then false else s.htSync) = true ↔ _
  rw [flag_iff, Bool.or_eq_true, decide_eq_true_eq, eq_sub_one_iff h.horSync, hEnd_iff h]
  simp only [hrun, false_or]
  rfl

theorem vtSync_step (hop : s.opStart = 0b111#3) :
    (s.step c).vtSync = true
      ↔ ((c.ver h).total ≤ s.vCnt.toNat + 1 ∧ (c.hor h).total ≤ s.hCnt.toNat + 1)
        ∨ (s.vtSync = true
          ∧ ¬ (s.vCnt.toNat + 1 = (c.ver h).sync ∧ (c.hor h).total ≤ s.hCnt.toNat + 1)) := by
  have hrun := not_starting hop
  have hsync : (s.step c).vtSync = true ↔ (s.opStart.extractLsb' 1 2 = 0b01#2
      || (s.vEnd c && s.hEnd c)) = true ∨ (s.vtSync = true ∧
        ¬ (s.vCnt = c.verSyncTime - 1 && s.hEnd c) = true) := flag_iff
  rw [hsync]
  simp only [Bool.or_eq_true, Bool.and_eq_true, decide_eq_true_eq, hrun, false_or]
  rw [eq_sub_one_iff h.verSync, vEnd_iff h, hEnd_iff h]
  rfl

theorem hDe_step :
    (s.step c).hDe = true ↔ s.hCnt.toNat + 1 = (c.hor h).start
      ∨ (s.hDe = true ∧ s.hCnt.toNat + 1 ≠ (c.hor h).start + (c.hor h).active) := by
  show (if s.hrBoundary c = true then true else if s.hlBoundary c = true then false
    else s.hDe) = true ↔ _
  rw [flag_iff, hrBoundary_iff h, hlBoundary_iff h]

theorem vDe_step :
    (s.step c).vDe = true
      ↔ (s.vCnt.toNat + 1 = (c.ver h).start ∧ (c.hor h).total ≤ s.hCnt.toNat + 1)
        ∨ (s.vDe = true ∧ ¬ (s.vCnt.toNat + 1 = (c.ver h).start + (c.ver h).active
          ∧ (c.hor h).total ≤ s.hCnt.toNat + 1)) := by
  have hde : (s.step c).vDe = true ↔ (s.vtBoundary c && s.hEnd c) = true ∨
      (s.vDe = true ∧ ¬ (s.vbBoundary c && s.hEnd c) = true) := flag_iff
  rw [hde, Bool.and_eq_true, Bool.and_eq_true, vtBoundary_iff h, vbBoundary_iff h, hEnd_iff h]

end

/-! ## The registers show the raster -/

/-- The registers show position `n` of the raster. Before the first line has
got going, `h_de` may be set too early. -/
structure Shows (s : TimingGen) (n : ℕ) : Prop where
  opStart : s.opStart = 0b111#3
  hCnt : s.hCnt.toNat = hPos (c.hor h) n
  vCnt : s.vCnt.toNat = vPos (c.hor h) (c.ver h) n
  htSync : s.htSync = true ↔ (c.hor h).InSync (hPos (c.hor h) n)
  vtSync : s.vtSync = true ↔ (c.ver h).InSync (vPos (c.hor h) (c.ver h) n)
  hDe : s.hDe = true ↔ (c.hor h).InActive (hPos (c.hor h) n) ∨ (n = 0 ∧ (c.hor h).start = 1)
  vDe : s.vDe = true ↔ (c.ver h).InActive (vPos (c.hor h) (c.ver h) n)

variable {s h}

section

variable {n : ℕ}

theorem positions_step (hop : s.opStart = 0b111#3) (hcnt : s.hCnt.toNat = hPos (c.hor h) n)
    (hvcnt : s.vCnt.toNat = vPos (c.hor h) (c.ver h) n) :
    (s.step c).hCnt.toNat = hPos (c.hor h) (n + 1) ∧
      (s.step c).vCnt.toNat = vPos (c.hor h) (c.ver h) (n + 1) := by
  rw [hPos_succ, vPos_succ, ← hcnt, ← hvcnt]
  exact counters_step h hop

/-- The syncs are those of the next position. -/
theorem syncs_step (hop : s.opStart = 0b111#3) (hcnt : s.hCnt.toNat = hPos (c.hor h) n)
    (hvcnt : s.vCnt.toNat = vPos (c.hor h) (c.ver h) n)
    (ht : s.htSync = true ↔ (c.hor h).InSync (hPos (c.hor h) n))
    (vt : s.vtSync = true ↔ (c.ver h).InSync (vPos (c.hor h) (c.ver h) n)) :
    ((s.step c).htSync = true ↔ (c.hor h).InSync (hPos (c.hor h) (n + 1))) ∧
      ((s.step c).vtSync = true ↔ (c.ver h).InSync (vPos (c.hor h) (c.ver h) (n + 1))) := by
  have hlt := hPos_lt (c.hor h) n
  have vlt := vPos_lt (c.hor h) (c.ver h) n
  constructor
  · rw [htSync_step h hop, ht, hcnt, hPos_succ, Axis.inSync_next _ hlt]
  · rw [vtSync_step h hop, vt, hcnt, hvcnt, vPos_succ]
    -- within a line the vertical flag does not change
    by_cases hend : (c.hor h).total ≤ hPos (c.hor h) n + 1
    · rw [if_pos hend, Axis.inSync_next _ vlt]
      simp only [hend, and_true, ne_eq]
    · rw [if_neg hend]
      simp only [hend, and_false, false_or, not_false_eq_true, and_true]

end

/-- One edge moves on to the next position. -/
theorem shows_step {n : ℕ} (hs : Shows h s n) : Shows h (s.step c) (n + 1) := by
  have hlt := hPos_lt (c.hor h) n
  have vlt := vPos_lt (c.hor h) (c.ver h) n
  rcases positions_step hs.opStart hs.hCnt hs.vCnt with ⟨hcnt, hvcnt⟩
  rcases syncs_step hs.opStart hs.hCnt hs.vCnt hs.htSync hs.vtSync with ⟨hht, hvt⟩
  refine ⟨opStart_step hs.opStart, hcnt, hvcnt, hht, hvt, ?_, ?_⟩
  · rw [hDe_step h, hs.hDe, hs.hCnt, hPos_succ, Axis.inActive_next _ hlt]
    -- too early a flag is overtaken by the boundary
    constructor
    · rintro (hset | ⟨hactive | ⟨hzero, hone⟩, hclear⟩)
      · exact Or.inl (Or.inl hset)
      · exact Or.inl (Or.inr ⟨hactive, hclear⟩)
      · refine Or.inl (Or.inl ?_)
        rw [hzero, hone, hPos_zero]
    · rintro ((hset | ⟨hactive, hclear⟩) | ⟨hzero, _⟩)
      · exact Or.inl hset
      · exact Or.inr ⟨Or.inl hactive, hclear⟩
      · exact absurd hzero (Nat.succ_ne_zero n)
  · rw [vDe_step h, hs.vDe, hs.hCnt, hs.vCnt, vPos_succ]
    by_cases hend : (c.hor h).total ≤ hPos (c.hor h) n + 1
    · rw [if_pos hend, Axis.inActive_next _ vlt]
      simp only [hend, and_true, ne_eq]
    · rw [if_neg hend]
      simp only [hend, and_false, false_or, not_false_eq_true, and_true]

/-! ## The outputs -/

/-- Data enable at position `n`. -/
theorem Shows.tDe_iff {n : ℕ} (hs : Shows h s n) :
    s.tDe = true
      ↔ (c.hor h).InActive (hPos (c.hor h) n)
        ∧ (c.ver h).InActive (vPos (c.hor h) (c.ver h) n) := by
  rw [tDe, Bool.and_eq_true, hs.hDe, hs.vDe]
  constructor
  · rintro ⟨hv, hh | ⟨hzero, _⟩⟩
    · exact ⟨hh, hv⟩
    -- an early `h_de` is in the first line, which is not active
    · rw [hzero, vPos_zero] at hv
      exact absurd hv (c.ver h).not_inActive_zero
  · rintro ⟨hh, hv⟩
    exact ⟨hv, Or.inl hh⟩

/-- The outputs are those of the raster at the counters. -/
structure Agrees {c : TimingCfg} (h : c.Legal) (s : TimingGen) : Prop where
  htSync : s.htSync = true ↔ s.hCnt.toNat < c.horSyncTime.toNat
  vtSync : s.vtSync = true ↔ s.vCnt.toNat < c.verSyncTime.toNat
  tDe : s.tDe = true
    ↔ ((c.hor h).start ≤ s.hCnt.toNat
        ∧ s.hCnt.toNat < (c.hor h).start + c.horAddrTime.toNat) ∧
      ((c.ver h).start ≤ s.vCnt.toNat
        ∧ s.vCnt.toNat < (c.ver h).start + c.verAddrTime.toNat)

theorem Shows.agrees {n : ℕ} (hs : Shows h s n) : Agrees h s := by
  have hht := hs.htSync
  have hvt := hs.vtSync
  have hde := hs.tDe_iff
  rw [← hs.hCnt] at hht
  rw [← hs.vCnt] at hvt
  rw [← hs.hCnt, ← hs.vCnt] at hde
  exact ⟨hht, hvt, hde⟩

/-- No sync during data enable. -/
theorem Agrees.low_of_tDe (hs : Agrees h s) (hde : s.tDe = true) :
    s.htSync = false ∧ s.vtSync = false := by
  rcases hs.tDe.mp hde with ⟨hh, hv⟩
  rw [← Bool.not_eq_true, ← Bool.not_eq_true, hs.htSync, hs.vtSync]
  exact ⟨(c.hor h).not_inSync_of_inActive hh, (c.ver h).not_inSync_of_inActive hv⟩

/-! ## The first three cycles -/

/-- The counters wait. -/
structure Waits (h : c.Legal) (s : TimingGen) (op : BitVec 3) : Prop where
  opStart : s.opStart = op
  hCnt : s.hCnt = 0
  vCnt : s.vCnt = 0
  hDe : s.hDe = true → (c.hor h).start = 1
  vDe : s.vDe = false

/-- No line ends while the counters stand at 0. -/
theorem not_end_of_waits {op : BitVec 3} (hs : Waits h s op) :
    ¬ (c.hor h).total ≤ s.hCnt.toNat + 1 := by
  rw [hs.hCnt]
  have := (c.hor h).sync_pos
  have := (c.hor h).sync_le
  have := (c.hor h).active_pos
  have := (c.hor h).fits
  show ¬ _ ≤ 1
  omega

/-- `h_de` is set in these cycles if the left start is 1, and `v_de` is not. -/
theorem flags_of_waits {op : BitVec 3} (hs : Waits h s op) :
    ((s.step c).hDe = true → (c.hor h).start = 1) ∧
      ((c.hor h).start = 1 → (s.step c).hDe = true) ∧ (s.step c).vDe = false := by
  have hzero : s.hCnt.toNat = 0 := by
    rw [hs.hCnt]
    rfl
  have hend := not_end_of_waits hs
  rw [hDe_step h, hzero]
  refine ⟨?_, ?_, ?_⟩
  · rintro (hset | ⟨hset, _⟩)
    · exact hset.symm
    · exact hs.hDe hset
  · intro hone
    exact Or.inl hone.symm
  -- `v_de` waits for the end of a line
  · rw [← Bool.not_eq_true, vDe_step h, hs.vDe]
    rintro (⟨_, hset⟩ | ⟨hset, _⟩)
    · exact hend hset
    · exact Bool.false_ne_true hset

/-- A cycle of waiting shifts a one into `op_start`. -/
theorem waits_step {op : BitVec 3} (hs : Waits h s op) (hoff : op.getLsbD 2 = false) :
    Waits h (s.step c) (op.extractLsb' 0 2 ++ 1#1) := by
  rcases flags_of_waits hs with ⟨hde, _, hvde⟩
  have hop : s.opStart.getLsbD 2 = false := by rw [hs.opStart, hoff]
  refine ⟨?_, ?_, ?_, hde, hvde⟩
  · show s.opStart.extractLsb' 0 2 ++ 1#1 = _
    rw [hs.opStart]
  · show (if s.opStart.getLsbD 2 then _ else s.hCnt) = 0
    rw [hop, if_neg Bool.false_ne_true, hs.hCnt]
  · show (if s.opStart.getLsbD 2 then _ else s.vCnt) = 0
    rw [hop, if_neg Bool.false_ne_true, hs.vCnt]

/-- The third edge sets both syncs, and the raster starts at its origin. -/
theorem shows_of_waits (hs : Waits h s 0b011#3) : Shows h (s.step c) 0 := by
  have hnext := waits_step hs rfl
  rcases flags_of_waits hs with ⟨hde, hde', hvde⟩
  have hstart : s.opStart.extractLsb' 1 2 = 0b01#2 := by
    rw [hs.opStart]
    decide
  constructor
  · exact hnext.opStart
  · rw [hnext.hCnt, hPos_zero]
    rfl
  · rw [hnext.vCnt, vPos_zero]
    rfl
  · have hset : (s.step c).htSync = true := if_pos (by simp [hstart])
    rw [hset, hPos_zero]
    exact ⟨fun _ => (c.hor h).inSync_zero, fun _ => rfl⟩
  · have hset : (s.step c).vtSync = true := if_pos (by simp [hstart])
    rw [hset, vPos_zero]
    exact ⟨fun _ => (c.ver h).inSync_zero, fun _ => rfl⟩
  -- `h_de` is early if the line starts in cycle 1
  · rw [hPos_zero]
    constructor
    · intro hset
      exact Or.inr ⟨rfl, hde hset⟩
    · rintro (hactive | ⟨_, hone⟩)
      · exact absurd hactive (c.hor h).not_inActive_zero
      · exact hde' hone
  · rw [hvde, vPos_zero]
    constructor
    · intro hset
      exact absurd hset Bool.false_ne_true
    · intro hactive
      exact absurd hactive (c.ver h).not_inActive_zero

theorem after_succ (c : TimingCfg) (n : ℕ) : after c (n + 1) = (after c n).step c := by
  rw [after, List.replicate_succ', run_concat]
  rfl

variable (h)

theorem waits_reset : Waits h reset 0 := ⟨rfl, rfl, rfl, fun hset => absurd hset (by decide), rfl⟩

theorem waits_one : Waits h (after c 1) 0b001#3 := waits_step (waits_reset h) rfl

theorem waits_two : Waits h (after c 2) 0b011#3 := waits_step (waits_one h) rfl

/-- From the third cycle on. -/
theorem shows_after (n : ℕ) : Shows h (after c (n + 3)) n := by
  induction n with
  | zero => exact shows_of_waits (waits_two h)
  | succ n ih =>
      rw [Nat.add_right_comm, after_succ]
      exact shows_step ih

/-! ## The raster -/

/-- The cycles of frame `k` in which data enable is high. -/
theorem countP_tDe (k : ℕ) :
    (List.range ((c.hor h).total * (c.ver h).total)).countP
        (fun t => (after c (k * ((c.hor h).total * (c.ver h).total) + t + 3)).tDe)
      = (c.hor h).active * (c.ver h).active := by
  have hfits := (c.hor h).fits
  have vfits := (c.ver h).fits
  have hcycle : ∀ t ∈ List.range ((c.hor h).total * (c.ver h).total),
      (after c (k * ((c.hor h).total * (c.ver h).total) + t + 3)).tDe = true
        ↔ (decide ((c.hor h).start ≤ t % (c.hor h).total ∧
              t % (c.hor h).total < (c.hor h).start + (c.hor h).active)
            && decide ((c.ver h).start ≤ t / (c.hor h).total ∧
              t / (c.hor h).total < (c.ver h).start + (c.ver h).active)) = true := by
    intro t ht
    -- a frame is a whole number of lines, so it starts at the origin
    have hline : t / (c.hor h).total < (c.ver h).total :=
      Nat.div_lt_of_lt_mul (List.mem_range.mp ht)
    have hsplit : k * ((c.hor h).total * (c.ver h).total) + t
        = (c.hor h).total * (k * (c.ver h).total) + t := by
      rw [Nat.mul_left_comm]
    have hh : hPos (c.hor h) (k * ((c.hor h).total * (c.ver h).total) + t)
        = t % (c.hor h).total := by
      rw [hPos, hsplit, Nat.mul_add_mod]
    have hv : vPos (c.hor h) (c.ver h) (k * ((c.hor h).total * (c.ver h).total) + t)
        = t / (c.hor h).total := by
      rw [vPos, hsplit, Nat.mul_add_div (c.hor h).total_pos, Nat.mul_comm k, Nat.mul_add_mod,
        Nat.mod_eq_of_lt hline]
    rw [(shows_after h _).tDe_iff, hh, hv, Bool.and_eq_true, decide_eq_true_eq, decide_eq_true_eq]
    exact Iff.rfl
  rw [List.countP_congr hcycle, countP_lines (fun x => decide ((c.hor h).start ≤ x ∧
      x < (c.hor h).start + (c.hor h).active)) (fun x => decide ((c.ver h).start ≤ x ∧
      x < (c.ver h).start + (c.ver h).active)), countP_interval, countP_interval,
    Nat.min_eq_right hfits, Nat.min_eq_right vfits, Nat.add_sub_cancel_left,
    Nat.add_sub_cancel_left]

/-- The timing generator makes the configured raster. Under every legal
configuration, from reset on: `op_start` is full from the third cycle on; from
then on the counters visit the raster in order, line by line, with its period;
each sync is high exactly in the sync interval of its axis, and data enable
exactly in the active intervals of both. So data enable is never high during a
sync, and it is high `HAddr * VAddr` times in every frame. -/
theorem raster_exact {c : TimingCfg} (h : c.Legal) :
    (∀ m, (after c m).opStart = 0b111#3 ↔ 3 ≤ m) ∧
    (∀ n, (after c (n + 3)).hCnt.toNat = n % (c.hor h).total ∧
      (after c (n + 3)).vCnt.toNat = n / (c.hor h).total % (c.ver h).total) ∧
    (∀ n, ((after c (n + 3)).htSync = true
        ↔ (after c (n + 3)).hCnt.toNat < c.horSyncTime.toNat) ∧
      ((after c (n + 3)).vtSync = true
        ↔ (after c (n + 3)).vCnt.toNat < c.verSyncTime.toNat) ∧
      ((after c (n + 3)).tDe = true
        ↔ ((c.hor h).start ≤ (after c (n + 3)).hCnt.toNat ∧
            (after c (n + 3)).hCnt.toNat < (c.hor h).start + c.horAddrTime.toNat) ∧
          ((c.ver h).start ≤ (after c (n + 3)).vCnt.toNat ∧
            (after c (n + 3)).vCnt.toNat < (c.ver h).start + c.verAddrTime.toNat)) ∧
      ((after c (n + 3)).tDe = true →
        (after c (n + 3)).htSync = false ∧ (after c (n + 3)).vtSync = false)) ∧
    ∀ k, (List.range ((c.hor h).total * (c.ver h).total)).countP
        (fun t => (after c (k * ((c.hor h).total * (c.ver h).total) + t + 3)).tDe)
      = c.horAddrTime.toNat * c.verAddrTime.toNat := by
  refine ⟨?_, ?_, ?_, countP_tDe h⟩
  · intro m
    constructor
    · intro hfull
      -- `op_start` fills up in three cycles
      rcases m with _ | _ | _ | m
      · exact absurd ((waits_reset h).opStart.symm.trans hfull) (by decide)
      · exact absurd ((waits_one h).opStart.symm.trans hfull) (by decide)
      · exact absurd ((waits_two h).opStart.symm.trans hfull) (by decide)
      · omega
    · intro hm
      have hs := shows_after h (m - 3)
      rw [Nat.sub_add_cancel hm] at hs
      exact hs.opStart
  · intro n
    -- from then on the position is known, and with it everything else
    have hs := shows_after h n
    exact ⟨hs.hCnt, hs.vCnt⟩
  · intro n
    have hs := (shows_after h n).agrees
    exact ⟨hs.htSync, hs.vtSync, hs.tDe, hs.low_of_tDe⟩

/-- The smallest raster: two cycles a line and two lines, no porches. -/
def smallest : TimingCfg := ⟨1, 1, 0, 0, 0, 0, 1, 1, 0, 0, 0, 0⟩

theorem legal_smallest : smallest.Legal := by
  constructor <;> decide

/-- Its ninth frame has one active cycle, the last one. -/
theorem smallest_frame :
    (after smallest (8 * 4 + 3 + 3)).tDe = true ∧
      (List.range (2 * 2)).countP (fun t => (after smallest (8 * (2 * 2) + t + 3)).tDe) = 1 := by
  have hexact := raster_exact legal_smallest
  constructor
  · refine (hexact.2.2.1 (8 * 4 + 3)).2.2.1.mpr ?_
    rw [(hexact.2.1 (8 * 4 + 3)).1, (hexact.2.1 (8 * 4 + 3)).2]
    decide
  · exact hexact.2.2.2 8

end TimingGen

end SocRtl.Video
