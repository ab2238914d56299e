import Mathlib.Data.Fin.VecNotation
import SocRtl.Median.Llmf
import SocRtl.Median.MedainBuffer5

/-!
# SocRtl.Median.Median5x5 — the window of `median_5x5`

The module keeps counters of its own, one cycle behind those of the line
buffers, and shifts the five lines through a window of 25 registers. Which line
enters which row of the window depends on the number of the line modulo 5, and
for the first two rows of the picture on the row itself. In these rows alone the
left border is filled by replication as well.
-/

namespace SocRtl.Median

/-! ## Model -/

/-- The registers of `median_5x5`, up to the window. -/
structure Median5x5 where
  rtXcnt : ℕ
  row : RowCnt
  newDen : NewDen
  rtHsyncDelay : Bool
  rtDenDelay0 : Bool
  rtMtx : Window

/-- What an edge puts into the window: row `i` takes its last column from line
`sel i` and its others from the columns `col` of row `src i`. -/
def loadMtx (m : Window) (line : Fin 5 → BitVec 8) (src sel col : Fin 5 → Fin 5) : Window :=
  fun i j => if j = 4 then line (sel i) else m (src i) (col j)

/-- The columns shifted by one, and in the first two columns of a picture row. -/
def shiftCols : Fin 5 → Fin 5 := ![1, 2, 3, 4, 4]

def colsAt2 : Fin 5 → Fin 5 := ![3, 3, 3, 4, 4]

def colsAt3 : Fin 5 → Fin 5 := ![2, 2, 3, 4, 4]

/-- One edge of `rt_mtx`. In row 3 the first row of the window is loaded from
the second. -/
def mtxStep (m : Window) (line : Fin 5 → BitVec 8) (row : RowCnt) (rtXcnt : ℕ) : Window :=
  if row.rtYcnt = 2 then
    if rtXcnt = 2 then loadMtx m line id ![0, 0, 0, 1, 2] colsAt2
    else if rtXcnt = 3 then loadMtx m line id ![0, 0, 0, 1, 2] colsAt3
    else loadMtx m line id ![0, 0, 0, 1, 2] shiftCols
  else if row.rtYcnt = 3 then
    if rtXcnt = 2 then loadMtx m line ![1, 1, 2, 3, 4] ![0, 0, 1, 2, 3] colsAt2
    else if rtXcnt = 3 then loadMtx m line ![1, 1, 2, 3, 4] ![0, 0, 1, 2, 3] colsAt3
    else loadMtx m line id ![0, 0, 1, 2, 3] shiftCols
  else if row.rtYState = 0 then loadMtx m line id ![1, 2, 3, 4, 0] shiftCols
  else if row.rtYState = 1 then loadMtx m line id ![2, 3, 4, 0, 1] shiftCols
  else if row.rtYState = 2 then loadMtx m line id ![3, 4, 0, 1, 2] shiftCols
  else if row.rtYState = 3 then loadMtx m line id ![4, 0, 1, 2, 3] shiftCols
  else if row.rtYState = 4 then loadMtx m line id ![0, 1, 2, 3, 4] shiftCols
  else m

namespace Median5x5

/-- Reset. -/
def reset : Median5x5 where
  rtXcnt := 0
  row := ⟨0, 0⟩
  newDen := NewDen.reset
  rtHsyncDelay := false
  rtDenDelay0 := false
  rtMtx := fun _ _ => 0

variable (s : Median5x5) (sync : DPiSync)

/-- `rt_den`. -/
def rtDen : Bool := sync.den || s.newDen.creatDen

def hsync1pz : Bool := !sync.hsync && s.rtHsyncDelay

/-- One clock edge. -/
def step (line : Fin 5 → BitVec 8) : Median5x5 where
  rtXcnt :=
    if sync.vsync || sync.hsync then 0
    else if rtDen s sync || s.newDen.creatDen || s.rtDenDelay0 then (s.rtXcnt + 1) % 2 ^ 10
    else s.rtXcnt
  row := s.row.step 641 sync.vsync sync.hsync s.rtXcnt
  newDen := s.newDen.step 17 (hsync1pz s sync) sync.hsync s.row.rtYcnt
  rtHsyncDelay := sync.hsync
  rtDenDelay0 := rtDen s sync
  rtMtx := mtxStep s.rtMtx line s.row s.rtXcnt

end Median5x5

/-- The line buffers and the window behind them. -/
structure Filter where
  buf : MedainBuffer5
  med : Median5x5

namespace Filter

/-- Reset. -/
def reset : Filter := ⟨MedainBuffer5.reset, Median5x5.reset⟩

/-- One clock edge. -/
def step (s : Filter) (i : DPi) : Filter where
  buf := s.buf.step i
  med := s.med.step s.buf.dPoSync s.buf.outLine

end Filter

/-! ## What an edge does -/

namespace Filter

/-- `median_5x5` after the next edge. It does not see the inputs of that edge. -/
def nextMed (s : Filter) : Median5x5 := s.med.step s.buf.dPoSync s.buf.outLine

variable (s : Filter)

@[simp] theorem step_buf (i : DPi) : (s.step i).buf = s.buf.step i := rfl

@[simp] theorem step_med (i : DPi) : (s.step i).med = s.nextMed := rfl

theorem med_rtDen :
    s.med.rtDen s.buf.dPoSync = (s.buf.rtDenDelay0 || s.med.newDen.creatDen) := rfl

theorem nextMed_rtXcnt :
    s.nextMed.rtXcnt = if s.buf.rtVsyncDelay || s.buf.rtHsyncDelay then 0
      else if s.med.rtDen s.buf.dPoSync || s.med.rtDenDelay0
      then (s.med.rtXcnt + 1) % 2 ^ 10 else s.med.rtXcnt := by
  have hden : (s.med.rtDen s.buf.dPoSync || s.med.newDen.creatDen)
      = s.med.rtDen s.buf.dPoSync := by
    rw [med_rtDen, Bool.or_assoc, Bool.or_self]
  unfold nextMed Median5x5.step
  rw [hden]
  rfl

theorem nextMed_row :
    s.nextMed.row = s.med.row.step 641 s.buf.rtVsyncDelay s.buf.rtHsyncDelay s.med.rtXcnt := rfl

theorem nextMed_newDen :
    s.nextMed.newDen = s.med.newDen.step 17 (!s.buf.rtHsyncDelay && s.med.rtHsyncDelay)
      s.buf.rtHsyncDelay s.med.row.rtYcnt := rfl

theorem nextMed_rtDenDelay0 : s.nextMed.rtDenDelay0 = s.med.rtDen s.buf.dPoSync := rfl

theorem nextMed_rtMtx :
    s.nextMed.rtMtx = mtxStep s.med.rtMtx s.buf.outLine s.med.row s.med.rtXcnt := rfl

end Filter

end SocRtl.Median
