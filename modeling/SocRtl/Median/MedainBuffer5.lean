import Mathlib.Algebra.Group.Nat.Defs
import Mathlib.Logic.Function.Basic
import SocRtl.Lib.Clocked

/-!
# SocRtl.Median.MedainBuffer5 — the line buffers `medain_buffer_5`

Five line buffers take the lines of a frame in turn: `rt_y_state` says which one
is written, the others are read at the same address. The synchronisation comes
out one cycle late, next to the pixels. Below the last line of a frame the
module makes up two more lines of data enable; for these the outputs of the
first two buffers are replaced by the last line of the frame.
-/

namespace SocRtl.Median

/-! ## Model -/

/-- `DPi`. -/
structure DPi where
  vsync : Bool
  hsync : Bool
  den : Bool
  data : BitVec 8

/-- The synchronisation inputs of `median_5x5`. -/
structure DPiSync where
  vsync : Bool
  hsync : Bool
  den : Bool

/-- `linebuffer_1x640x8`. Only the addresses below 640 exist. -/
structure LineBuffer where
  ram : ℕ → BitVec 8
  btDataOut : BitVec 8

def LineBuffer.reset : LineBuffer := ⟨fun _ => 0, 0⟩

def LineBuffer.step (s : LineBuffer) (wrEn rdEn : Bool) (addr : ℕ) (dataIn : BitVec 8) :
    LineBuffer where
  ram := if wrEn = true ∧ addr < 640 then Function.update s.ram addr dataIn else s.ram
  btDataOut := if rdEn then s.ram addr else dataIn

/-- `rt_ycnt` and `rt_y_state`, of 10 and 3 bits. -/
structure RowCnt where
  rtYcnt : ℕ
  rtYState : ℕ
deriving DecidableEq

/-- The row counters count the lines in which `rt_xcnt` has reached `lineEnd`. -/
def RowCnt.step (lineEnd : ℕ) (s : RowCnt) (rtVsync rtHsync : Bool) (rtXcnt : ℕ) : RowCnt :=
  if rtVsync && rtHsync then ⟨0, 0⟩
  else if rtHsync && decide (rtXcnt = lineEnd) then
    ⟨(s.rtYcnt + 1) % 2 ^ 10, if s.rtYState = 4 then 0 else (s.rtYState + 1) % 2 ^ 3⟩
  else s

/-- `rt_make_den`, `creat_den` and `count_new_den`. -/
structure NewDen where
  rtMakeDen : ℕ
  creatDen : Bool
  countNewDen : ℕ
deriving DecidableEq

def NewDen.reset : NewDen := ⟨0, false, 0⟩

/-- The counters that make up data enable; `w` is the width of `count_new_den`.
The branches for the rows 480 and 481 do the same. -/
def NewDen.step (w : ℕ) (s : NewDen) (hsync1pz rtHsync : Bool) (rtYcnt : ℕ) : NewDen where
  rtMakeDen :=
    if hsync1pz && !rtHsync && decide (rtYcnt < 482) then 0
    else if s.creatDen then 0
    else (s.rtMakeDen + 1) % 2 ^ 8
  creatDen :=
    if rtYcnt = 480 ∨ rtYcnt = 481 ∧ rtHsync = false then
      if s.rtMakeDen = 46 then true
      else if s.countNewDen = 639 then false
      else s.creatDen
    else false
  countNewDen :=
    if rtYcnt = 480 ∨ rtYcnt = 481 ∧ rtHsync = false then
      if s.rtMakeDen = 46 then 0
      else if s.countNewDen = 639 then s.countNewDen
      else (s.countNewDen + 1) % 2 ^ w
    else 0

/-- The registers of `medain_buffer_5`. -/
structure MedainBuffer5 where
  rtXcnt : ℕ
  row : RowCnt
  newDen : NewDen
  rtVsyncDelay : Bool
  rtHsyncDelay : Bool
  rtDenDelay0 : Bool
  rtDenDelay1 : Bool
  line : Fin 5 → LineBuffer

namespace MedainBuffer5

/-- Reset. -/
def reset : MedainBuffer5 where
  rtXcnt := 0
  row := ⟨0, 0⟩
  newDen := NewDen.reset
  rtVsyncDelay := false
  rtHsyncDelay := false
  rtDenDelay0 := false
  rtDenDelay1 := false
  line := fun _ => LineBuffer.reset

variable (s : MedainBuffer5) (i : DPi)

/-- `rt_den`. -/
def rtDen : Bool := i.den || s.newDen.creatDen

def ramAddr : ℕ := if s.rtXcnt = 640 then 639 else s.rtXcnt

/-- `line_<b>_w_vld`. -/
def lineWVld (b : Fin 5) : Bool :=
  (rtDen s i || s.rtDenDelay1) && decide (s.row.rtYState = b.val)

def hsync1pz : Bool := !i.hsync && s.rtHsyncDelay

/-- One clock edge. -/
def step : MedainBuffer5 where
  rtXcnt :=
    if i.vsync || i.hsync then 0
    else if rtDen s i || s.newDen.creatDen then (s.rtXcnt + 1) % 2 ^ 10
    else s.rtXcnt
  row := s.row.step 640 i.vsync i.hsync s.rtXcnt
  newDen := s.newDen.step 10 (hsync1pz s i) i.hsync s.row.rtYcnt
  rtVsyncDelay := i.vsync
  rtHsyncDelay := i.hsync
  rtDenDelay0 := rtDen s i
  rtDenDelay1 := s.rtDenDelay0
  line := fun b => (s.line b).step (lineWVld s i b) (!lineWVld s i b) (ramAddr s) i.data

/-- `DPo_sync`. -/
def dPoSync : DPiSync := ⟨s.rtVsyncDelay, s.rtHsyncDelay, s.rtDenDelay0⟩

/-- `out_line_<b>`. -/
def outLine (b : Fin 5) : BitVec 8 :=
  if b.val = 0 ∧ 480 ≤ s.row.rtYcnt ∨ b.val = 1 ∧ s.row.rtYcnt = 481
  then (s.line (Fin.last 4)).btDataOut
  else (s.line b).btDataOut

end MedainBuffer5

/-! ## What an edge does -/

@[simp] theorem RowCnt.step_low (e : ℕ) (s : RowCnt) (rtVsync : Bool) (x : ℕ) :
    s.step e rtVsync false x = s := by
  simp [RowCnt.step]

/-- No line is counted where no column is. -/
theorem RowCnt.step_zero {e : ℕ} (he : 0 < e) (s : RowCnt) (rtVsync rtHsync : Bool) :
    s.step e rtVsync rtHsync 0 = if rtVsync && rtHsync then ⟨0, 0⟩ else s := by
  have hne : 0 ≠ e := by omega
  simp [RowCnt.step, hne]

/-- What a line buffer holds after an edge. -/
theorem LineBuffer.step_ram (s : LineBuffer) (wrEn rdEn : Bool) {addr : ℕ} (haddr : addr < 640)
    (dataIn : BitVec 8) (x : ℕ) :
    (s.step wrEn rdEn addr dataIn).ram x
      = if wrEn = true ∧ x = addr then dataIn else s.ram x := by
  unfold LineBuffer.step
  by_cases hw : wrEn = true
  · simp only [hw, haddr, and_self, if_true, Function.update_apply, true_and]
  · simp [hw]

namespace MedainBuffer5

variable (s : MedainBuffer5) (i : DPi)

theorem step_rtXcnt :
    (s.step i).rtXcnt = if i.vsync || i.hsync then 0
      else if s.rtDen i then (s.rtXcnt + 1) % 2 ^ 10 else s.rtXcnt := by
  -- `creat_den` is a part of `rt_den` already
  have hden : (s.rtDen i || s.newDen.creatDen) = s.rtDen i := by
    rw [rtDen, Bool.or_assoc, Bool.or_self]
  unfold step
  rw [hden]

theorem step_row : (s.step i).row = s.row.step 640 i.vsync i.hsync s.rtXcnt := rfl

theorem step_newDen :
    (s.step i).newDen = s.newDen.step 10 (s.hsync1pz i) i.hsync s.row.rtYcnt := rfl

theorem step_line (b : Fin 5) :
    (s.step i).line b
      = (s.line b).step (s.lineWVld i b) (!s.lineWVld i b) s.ramAddr i.data := rfl

variable {s i}

/-- A strobe writes the pixel input at the address of the pixel counter. -/
theorem step_ram (haddr : s.ramAddr < 640) (b : Fin 5) (x : ℕ) :
    ((s.step i).line b).ram x
      = if s.lineWVld i b = true ∧ x = s.ramAddr then i.data else (s.line b).ram x := by
  rw [step_line, LineBuffer.step_ram _ _ _ haddr]

/-- Without a strobe a buffer is read at that address. -/
theorem line_of_unstrobed {b : Fin 5} (h : s.lineWVld i b = false) :
    (s.step i).line b = ⟨(s.line b).ram, (s.line b).ram s.ramAddr⟩ := by
  rw [step_line, h, LineBuffer.step]
  simp

end MedainBuffer5

end SocRtl.Median
