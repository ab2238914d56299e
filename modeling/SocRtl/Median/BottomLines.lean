import Mathlib.Tactic.SplitIfs
import SocRtl.Median.Window

/-!
# SocRtl.Median.BottomLines — the two lines that are made up

On lines of 800 cycles both modules make up data enable for the two lines below
the picture, and the window shows the last rows with the bottom border filled by
replication. `median_5x5` repeats what `medain_buffer_5` does one cycle later.
The line buffers keep writing address 639 until the second cycle after data
enable, so in the columns on the right the window shows what the pixel input
carried then.
-/

namespace SocRtl.Median

/-! ## Frames on lines of 800 cycles -/

/-- A frame: some lines with vertical synchronisation, 480 lines of pixels and at
least three blank lines. Every line begins with 96 cycles of hsync; the pixels
follow from cycle 144 on. -/
structure Frame800 where
  vertLines : ℕ
  vsync : ℕ → Bool
  vertData : ℕ → BitVec 8
  vert_sync : ∃ t < 800 * vertLines, t % 800 < 96 ∧ vsync t = true
  front : ℕ
  three_le_front : 3 ≤ front
  data : ℕ → BitVec 8

namespace Frame800

variable (f : Frame800)

/-- Cycle `t` of the lines with vertical synchronisation. -/
def vertCycle (t : ℕ) : DPi := ⟨f.vsync t, decide (t % 800 < 96), false, f.vertData t⟩

/-- Cycle `t` of the lines of the picture and below it. -/
def cycle (t : ℕ) : DPi :=
  ⟨false, decide (t % 800 < 96),
    decide (t / 800 < 480 ∧ 144 ≤ t % 800 ∧ t % 800 < 784), f.data t⟩

def vert : List DPi := (List.range (800 * f.vertLines)).map f.vertCycle

def inputs : List DPi := f.vert ++ (List.range (800 * (480 + f.front))).map f.cycle

/-- The picture. -/
def img (y x : ℕ) : BitVec 8 := f.data (800 * y + 144 + x)

/-- What the pixel input carries from the first pixel of line `n` on. -/
def pix (n k : ℕ) : BitVec 8 := f.data (800 * n + 144 + k)

/-- Cycle `c` of line `n`. -/
theorem cycle_eq (n : ℕ) {c : ℕ} (hc : c < 800) :
    f.cycle (800 * n + c) = ⟨false, decide (c < 96), decide (n < 480 ∧ 144 ≤ c ∧ c < 784),
      f.data (800 * n + c)⟩ := by
  have hdiv : (800 * n + c) / 800 = n := by omega
  have hmod : (800 * n + c) % 800 = c := by omega
  rw [cycle, hdiv, hmod]

end Frame800

/-- The state before the picture of `f`, from reset, after the frames `fs`. -/
def beforePicture (fs : List Frame800) (f : Frame800) : Filter :=
  run Filter.step Filter.reset (fs.flatMap Frame800.inputs ++ f.vert)

/-- The state in cycle `t` of the picture. -/
def inPicture (fs : List Frame800) (f : Frame800) (t : ℕ) : Filter :=
  run Filter.step (beforePicture fs f) ((List.range t).map f.cycle)

/-! ## The counters of a line that is made up -/

/-- `rt_make_den` in cycle `h` of row `n`, 480 or 481. -/
def makeAt (n h : ℕ) : ℕ :=
  -- it runs on from the line before until hsync ends
  if h ≤ 96 then ((if n = 480 then 703 else 16) + h) % 256 else if h ≤ 144 then h - 97 else h - 784

/-- `count_new_den`. -/
def countAt (n h : ℕ) : ℕ :=
  -- in row 481 the count is cleared by hsync, in row 480 it is not
  if 144 ≤ h then min (h - 144) 639
  else if n = 480 then h - 1
  else if h ≤ 1 then 639
  else h - 96

/-- All three registers; `creat_den` is high for 640 cycles. -/
def newDenAt (n h : ℕ) : NewDen := ⟨makeAt n h, decide (144 ≤ h ∧ h < 784), countAt n h⟩

/-- The free-running counter meets its trigger once in a line while it matters. -/
theorem makeAt_eq_iff {n h : ℕ} (hn : n = 480 ∨ n = 481 ∧ 96 ≤ h) (hpos : 1 ≤ h) (hlt : h < 800) :
    makeAt n h = 46 ↔ h = 143 := by
  unfold makeAt
  split_ifs <;> omega

theorem countAt_eq_iff {n h : ℕ} (hn : n = 480 ∨ n = 481 ∧ 96 ≤ h) (hpos : 1 ≤ h) (hlt : h < 800) :
    countAt n h = 639 ↔ 783 ≤ h := by
  unfold countAt
  split_ifs <;> omega

theorem makeAt_step (n : ℕ) {h : ℕ} (hlt : h < 800) :
    (if h = 96 then 0 else if 144 ≤ h ∧ h < 784 then 0 else (makeAt n h + 1) % 256)
      = makeAt n (h + 1) := by
  unfold makeAt
  split_ifs <;> omega

/-- One cycle of the counters. -/
theorem newDenAt_step {n h : ℕ} (hn : n = 480 ∨ n = 481) (hpos : 1 ≤ h) (hlt : h < 800) :
    (newDenAt n h).step 10 (decide (h = 96)) (decide (h < 96)) n = newDenAt n (h + 1) := by
  -- hsync falls in cycle 96, and only then
  have hmake : (if decide (h = 96) && !decide (h < 96) && decide (n < 482) then 0
      else if decide (144 ≤ h ∧ h < 784) then 0 else (makeAt n h + 1) % 2 ^ 8)
      = makeAt n (h + 1) := by
    refine Eq.trans (if_congr ?_ rfl (if_congr decide_eq_true_iff rfl rfl)) (makeAt_step n hlt)
    simp only [Bool.and_eq_true, Bool.not_eq_true', decide_eq_true_eq, decide_eq_false_iff_not]
    omega
  unfold newDenAt NewDen.step
  simp only [decide_eq_false_iff_not, not_lt]
  rw [hmake]
  congr 1
  -- `creat_den`
  · by_cases hon : n = 480 ∨ n = 481 ∧ 96 ≤ h
    · rw [if_pos hon, Bool.eq_iff_iff]
      simp only [makeAt_eq_iff hon hpos hlt, countAt_eq_iff hon hpos hlt]
      split_ifs <;> simp <;> omega
    · rw [if_neg hon]
      symm
      rw [decide_eq_false_iff_not]
      omega
  -- `count_new_den`; the other case is hsync of row 481
  · by_cases hon : n = 480 ∨ n = 481 ∧ 96 ≤ h
    · rw [if_pos hon]
      simp only [makeAt_eq_iff hon hpos hlt, countAt_eq_iff hon hpos hlt]
      unfold countAt
      split_ifs <;> omega
    · rw [if_neg hon]
      unfold countAt
      split_ifs <;> omega

/-! ## The filter repeats the buffer -/

/-- `count_new_den` has 17 bits in one module and 10 in the other. -/
theorem NewDen.step_width {s : NewDen} (h : s.countNewDen ≤ 639) (hsync1pz rtHsync : Bool)
    (rtYcnt : ℕ) : s.step 17 hsync1pz rtHsync rtYcnt = s.step 10 hsync1pz rtHsync rtYcnt := by
  unfold NewDen.step
  congr 1
  -- neither counter wraps around
  split_ifs <;> omega

/-- Above row 480. -/
theorem NewDen.step_above (w : ℕ) (s : NewDen) (hsync1pz rtHsync : Bool) {rtYcnt : ℕ}
    (h : rtYcnt < 480) :
    s.step w hsync1pz rtHsync rtYcnt
      = ⟨if hsync1pz && !rtHsync then 0 else if s.creatDen then 0 else (s.rtMakeDen + 1) % 2 ^ 8,
        false, 0⟩ := by
  have hlow : rtYcnt < 482 := by omega
  have hrow : ¬ (rtYcnt = 480 ∨ rtYcnt = 481 ∧ rtHsync = false) := by omega
  unfold NewDen.step
  rw [if_neg hrow, if_neg hrow]
  simp only [hlow, decide_true, Bool.and_true]

variable {R : Fin 5 → ℕ → BitVec 8} {d : ℕ → BitVec 8} {n k c : ℕ} {s : Filter} {i : DPi}

/-- What makes up data enable stays one cycle behind, as long as the row does. -/
theorem newDen_behind (h : s.nextMed.newDen = s.buf.newDen) (hrow : s.nextMed.row = s.buf.row)
    (hcount : s.buf.newDen.countNewDen ≤ 639) (i : DPi) :
    (s.step i).nextMed.newDen = (s.step i).buf.newDen := by
  rw [Filter.nextMed_newDen, Filter.step_buf, Filter.step_med, MedainBuffer5.step_newDen, h, hrow,
    NewDen.step_width hcount]
  rfl

/-- During a line both modules are in the same row. -/
theorem LineAt.nextMed_row (h : LineAt R d n k s) : s.nextMed.row = ⟨n, n % 5⟩ := by
  rw [Filter.nextMed_row, h.bufHsync, RowCnt.step_low, h.medRow]

/-! ## A line -/

/-- The state before cycle `c` of line `n`, or before the next line if `c` is
800. `R` is what the buffers held before the line. -/
structure LineSt (f : Frame800) (R : Fin 5 → ℕ → BitVec 8) (n c : ℕ) (s : Filter) : Prop where
  -- the first 144 cycles and the pixels, both described at cycle 144
  settled : c ≤ 144 → Settled R n (c - 96) s
  line : 144 ≤ c → LineAt R (f.pix n) n (c - 144) s
  bufCreat : s.buf.newDen.creatDen = decide (480 ≤ n ∧ 144 ≤ c ∧ c < 784)
  medCreat : s.med.newDen.creatDen = decide (480 ≤ n ∧ 145 ≤ c ∧ c < 785)
  -- before row 480 only the free-running counter moves
  above : n < 480 → 97 ≤ c → s.buf.newDen = ⟨(c - 97) % 256, false, 0⟩
  below : 480 ≤ n → s.buf.newDen = newDenAt n c
  -- after reset the counters of the two modules agree from the first falling hsync on
  newDen : 480 ≤ n ∨ 97 ≤ c → s.nextMed.newDen = s.buf.newDen

namespace LineSt

variable {f : Frame800}

/-- The row of the line buffers. -/
theorem bufRow (h : LineSt f R n c s) : s.buf.row = ⟨n, n % 5⟩ := by
  rcases Nat.le_total c 144 with hc | hc
  · exact (h.settled hc).bufRow
  · exact (h.line hc).bufRow

theorem bufHsync (h : LineSt f R n c s) : s.buf.rtHsyncDelay = decide (c ≤ 96) := by
  rcases Nat.le_total c 144 with hc | hc
  · rw [(h.settled hc).bufHsync]
    exact decide_eq_decide.mpr (by omega)
  · rw [(h.line hc).bufHsync, decide_eq_false (by omega)]

/-- The row stays one cycle behind. -/
theorem nextMed_row (h : LineSt f R n c s) (hn : n ≤ 481) : s.nextMed.row = s.buf.row := by
  rw [h.bufRow]
  rcases Nat.le_total c 144 with hc | hc
  · exact (h.settled hc).nextMed_row (by omega)
  · exact (h.line hc).nextMed_row

theorem med_ycnt_le (h : LineSt f R n c s) : s.med.row.rtYcnt ≤ n := by
  rcases Nat.le_total c 144 with hc | hc
  · exact (h.settled hc).turning.medTurns.ycnt_le
  · rw [(h.line hc).medRow]

/-- `creat_den` stays one cycle behind. -/
theorem nextMed_creatDen (h : LineSt f R n c s) :
    s.nextMed.newDen.creatDen = s.buf.newDen.creatDen := by
  by_cases hn : 480 ≤ n
  · rw [h.newDen (Or.inl hn)]
  · have hle := h.med_ycnt_le
    rw [h.bufCreat, decide_eq_false fun hand => hn hand.1]
    exact NewDen.creatDen_step (by omega)

/-- The bound under which the widths of `count_new_den` do not matter. -/
theorem count_le (h : LineSt f R n c s) (hn : n ≤ 481) (hc : 480 ≤ n ∨ 97 ≤ c) :
    s.buf.newDen.countNewDen ≤ 639 := by
  by_cases hlow : 480 ≤ n
  · rw [h.below hlow]
    show countAt n c ≤ 639
    unfold countAt
    split_ifs <;> omega
  · rw [h.above (by omega) (by omega)]
    exact Nat.zero_le 639

/-- Up to cycle 144 there is no data enable. -/
theorem idle (h : LineSt f R n c s) (hc : c < 144) (hvsync : i.vsync = false)
    (hden : i.den = false) : Idle s i where
  vsync := hvsync
  bufDen := by
    rw [MedainBuffer5.rtDen, hden, h.bufCreat, decide_eq_false (by omega), Bool.or_self]
  medDen := by
    rw [Filter.med_rtDen, (h.settled (by omega)).turning.bufDen0, h.medCreat,
      decide_eq_false (by omega), Bool.or_self]

/-- From cycle 144 on data enable comes from outside or is made up. -/
theorem denAt (h : LineSt f R n c s) (hc : 144 ≤ c)
    (hden : i.den = decide (n < 480 ∧ 144 ≤ c ∧ c < 784)) : DenAt (c - 144) s i := by
  constructor
  · rw [MedainBuffer5.rtDen, hden, h.bufCreat, Bool.eq_iff_iff]
    simp only [Bool.or_eq_true, decide_eq_true_eq]
    omega
  · rw [Filter.med_rtDen, (h.line hc).bufDen0, h.medCreat, Bool.eq_iff_iff]
    simp only [Bool.or_eq_true, decide_eq_true_eq]
    omega

/-! ### A cycle of the line -/

theorem settled_step (h : LineSt f R n c s) (hn : n ≤ 481) (hpos : 1 ≤ c) (hc : c + 1 ≤ 144) :
    Settled R n (c + 1 - 96) (s.step (f.cycle (800 * n + c))) := by
  rw [f.cycle_eq n (by omega)]
  have hidle : Idle s ⟨false, decide (c < 96), decide (n < 480 ∧ 144 ≤ c ∧ c < 784),
      f.data (800 * n + c)⟩ := h.idle (by omega) rfl (decide_eq_false (by omega))
  have hold := h.settled (by omega)
  by_cases hpulse : c < 96
  -- hsync holds the counters, then the cycles after it are counted
  · rw [show c + 1 - 96 = 0 by omega]
    exact hold.turning.hsync hidle (by omega) (decide_eq_true hpulse)
  · rw [show c + 1 - 96 = c - 96 + 1 by omega]
    exact hold.step hidle (by omega) (decide_eq_false hpulse)

theorem line_step (h : LineSt f R n c s) (hn : n ≤ 481) (hlt : c < 800) (hc : 144 ≤ c + 1) :
    LineAt R (f.pix n) n (c + 1 - 144) (s.step (f.cycle (800 * n + c))) := by
  by_cases hfirst : c = 143
  -- the last cycle of blanking, or a cycle of the line
  · subst hfirst
    exact (h.settled_step hn (by decide) (by decide)).lineAt (by decide) _
  · have hcycle : 800 * n + c = 800 * n + 144 + (c - 144) := by omega
    have hdata : f.data (800 * n + c) = f.pix n (c - 144) := congrArg f.data hcycle
    rw [f.cycle_eq n hlt, show c + 1 - 144 = c - 144 + 1 by omega]
    refine (h.line (by omega)).step ⟨rfl, ?_, hdata⟩ (h.denAt (by omega) rfl)
    exact decide_eq_false (by omega)

/-- What the line buffers' counters are given in cycle `c`. -/
theorem newDen_eq (h : LineSt f R n c s) (hlt : c < 800) :
    (s.step (f.cycle (800 * n + c))).buf.newDen
      = s.buf.newDen.step 10 (decide (c = 96)) (decide (c < 96)) n := by
  have hsync1pz : (!decide (c < 96) && decide (c ≤ 96)) = decide (c = 96) := by
    rw [Bool.eq_iff_iff]
    simp only [Bool.and_eq_true, Bool.not_eq_true', decide_eq_true_eq, decide_eq_false_iff_not]
    omega
  rw [f.cycle_eq n hlt, Filter.step_buf, MedainBuffer5.step_newDen, MedainBuffer5.hsync1pz,
    h.bufHsync, hsync1pz, h.bufRow]

theorem above_step (h : LineSt f R n c s) (hn : n < 480) (hlt : c < 800) (hc : 97 ≤ c + 1) :
    (s.step (f.cycle (800 * n + c))).buf.newDen = ⟨(c + 1 - 97) % 256, false, 0⟩ := by
  rw [h.newDen_eq hlt, NewDen.step_above _ _ _ _ hn]
  by_cases hsync : c = 96
  · subst hsync
    rfl
  · rw [h.above hn (by omega), decide_eq_false hsync]
    simp only [Bool.false_and, Bool.false_eq_true, if_false, NewDen.mk.injEq, and_self, and_true]
    omega

theorem below_step (h : LineSt f R n c s) (hlow : 480 ≤ n) (hn : n ≤ 481) (hpos : 1 ≤ c)
    (hlt : c < 800) : (s.step (f.cycle (800 * n + c))).buf.newDen = newDenAt n (c + 1) := by
  rw [h.newDen_eq hlt, h.below hlow]
  exact newDenAt_step (by omega) hpos hlt

/-- Both modules restart with the end of hsync. -/
theorem newDen_step (h : LineSt f R n c s) (hn : n ≤ 481) (hpos : 1 ≤ c) (hlt : c < 800)
    (hc : 480 ≤ n ∨ 97 ≤ c + 1) :
    (s.step (f.cycle (800 * n + c))).nextMed.newDen
      = (s.step (f.cycle (800 * n + c))).buf.newDen := by
  by_cases hold : 480 ≤ n ∨ 97 ≤ c
  · exact newDen_behind (h.newDen hold) (h.nextMed_row hn) (h.count_le hn hold) _
  -- the falling hsync of a line before row 480 clears the counters of both
  · have hsync : c = 96 := by omega
    have hrow : s.nextMed.row.rtYcnt = n := by rw [h.nextMed_row hn, h.bufRow]
    subst hsync
    rw [h.above_step (by omega) hlt (le_refl 97), f.cycle_eq n hlt]
    rw [Filter.nextMed_newDen, Filter.step_med, hrow, NewDen.step_above _ _ _ _ (by omega)]
    show NewDen.mk (if (!decide (96 < 96) && s.buf.rtHsyncDelay) && !decide (96 < 96) then 0 else _)
      false 0 = _
    rw [h.bufHsync]
    rfl

/-- One cycle of the line. -/
theorem step (h : LineSt f R n c s) (hn : n ≤ 481) (hpos : 1 ≤ c) (hlt : c < 800) :
    LineSt f R n (c + 1) (s.step (f.cycle (800 * n + c))) where
  settled := h.settled_step hn hpos
  line := h.line_step hn hlt
  bufCreat := by
    by_cases hlow : 480 ≤ n
    · rw [h.below_step hlow hn hpos hlt]
      exact decide_eq_decide.mpr (by omega)
    · rw [h.newDen_eq hlt, NewDen.step_above _ _ _ _ (by omega)]
      exact (decide_eq_false fun hand => hlow hand.1).symm
  medCreat := by
    rw [Filter.step_med, h.nextMed_creatDen, h.bufCreat]
    exact decide_eq_decide.mpr (by omega)
  above := fun habove => h.above_step habove hlt
  below := fun hlow => h.below_step hlow hn hpos hlt
  newDen := h.newDen_step hn hpos hlt

/-! ### The first cycle of the next line -/

theorem turning (h : LineSt f R n 800 s) : Turning (stored R (f.pix n) n) (n + 1) s :=
  (h.line (by decide)).turning (by decide)

/-- Data enable is over when hsync comes. -/
theorem turn_idle (h : LineSt f R n 800 s) :
    Idle s (f.cycle (800 * (n + 1))) ∧ (f.cycle (800 * (n + 1))).hsync = true := by
  have hcycle := f.cycle_eq (n + 1) (show 0 < 800 by decide)
  rw [Nat.add_zero] at hcycle
  rw [hcycle]
  refine ⟨⟨rfl, ?_, ?_⟩, rfl⟩
  · show (decide (n + 1 < 480 ∧ 144 ≤ 0 ∧ 0 < 784) || s.buf.newDen.creatDen) = false
    rw [h.bufCreat, decide_eq_false (by omega), decide_eq_false (by omega), Bool.or_self]
  · rw [Filter.med_rtDen, h.turning.bufDen0, h.medCreat, decide_eq_false (by omega), Bool.or_self]

theorem turn_newDen (h : LineSt f R n 800 s) (hsync : i.hsync = true) :
    (s.step i).buf.newDen = s.buf.newDen.step 10 false true n := by
  rw [Filter.step_buf, MedainBuffer5.step_newDen, MedainBuffer5.hsync1pz, hsync, h.bufRow]
  rfl

/-- The next line begins. -/
theorem turn (h : LineSt f R n 800 s) (hn : n ≤ 480) :
    LineSt f (stored R (f.pix n) n) (n + 1) 1 (s.step (f.cycle (800 * (n + 1)))) := by
  obtain ⟨hidle, hsync⟩ := h.turn_idle
  have hnew := h.turn_newDen hsync
  refine ⟨?_, ?_, ?_, ?_, ?_, ?_, ?_⟩
  · intro _
    exact h.turning.hsync hidle (by omega) hsync
  · intro hc
    exact absurd hc (by decide)
  -- `creat_den` of both modules: it has ended before
  · rw [decide_eq_false (by omega), hnew]
    by_cases hlow : 480 ≤ n
    · obtain rfl : n = 480 := by omega
      rw [h.below hlow]
      rfl
    · exact NewDen.creatDen_step (by omega)
  · rw [Filter.step_med, h.nextMed_creatDen, h.bufCreat]
    exact decide_eq_decide.mpr (by omega)
  · intro _ hc
    exact absurd hc (by decide)
  -- the counters enter the rows 480 and 481
  · intro hlow
    rw [hnew]
    rcases (show n = 479 ∨ n = 480 by omega) with rfl | rfl
    · rw [h.above (by decide) (by decide)]
      rfl
    · rw [h.below (by decide)]
      rfl
  · intro _
    exact newDen_behind (h.newDen (Or.inr (by decide))) (h.nextMed_row (by omega))
      (h.count_le (by omega) (Or.inr (by decide))) _

end LineSt

/-! ## Outside the picture -/

/-- Nothing is under way, in row 0 or in row 482. The fields about `nextMed` say
that `median_5x5` follows with the next edge. -/
structure Over (s : Filter) : Prop where
  row : s.buf.row = ⟨0, 0⟩ ∨ s.buf.row = ⟨482, 2⟩
  bufX : s.buf.rtXcnt = 0
  bufCreat : s.buf.newDen.creatDen = false
  bufDen0 : s.buf.rtDenDelay0 = false
  bufDen1 : s.buf.rtDenDelay1 = false
  medCreat : s.med.newDen.creatDen = false
  medDen0 : s.med.rtDenDelay0 = false
  nextRow : s.nextMed.row = s.buf.row
  nextX : s.nextMed.rtXcnt = 0
  nextCreat : s.nextMed.newDen.creatDen = false

namespace Over

/-- Only vertical synchronisation changes the row. -/
theorem row_step (h : Over s) (i : DPi) :
    (s.step i).buf.row = if i.vsync && i.hsync then ⟨0, 0⟩ else s.buf.row := by
  rw [Filter.step_buf, MedainBuffer5.step_row, h.bufX, RowCnt.step_zero (by decide)]

theorem row_zero (h : Over s) (hrow : s.buf.row = ⟨0, 0⟩) (i : DPi) :
    (s.step i).buf.row = ⟨0, 0⟩ := by
  rw [h.row_step, hrow, ite_self]

theorem row_mem (h : Over s) (i : DPi) :
    (s.step i).buf.row = ⟨0, 0⟩ ∨ (s.step i).buf.row = ⟨482, 2⟩ := by
  rw [h.row_step]
  split
  · exact Or.inl rfl
  · exact h.row

/-- In these rows no data enable is made up. -/
theorem creatDen_off (h : Over s) {w : ℕ} {new : NewDen} {hsync1pz rtHsync : Bool} :
    (new.step w hsync1pz rtHsync s.buf.row.rtYcnt).creatDen = false := by
  refine NewDen.creatDen_step ?_
  rcases h.row with hrow | hrow <;> rw [hrow] <;> simp

theorem rtDen_off (h : Over s) (hden : i.den = false) : s.buf.rtDen i = false := by
  rw [rtDen_low hden, h.bufCreat]

theorem medDen_off (h : Over s) : s.med.rtDen s.buf.dPoSync = false := by
  rw [Filter.med_rtDen, h.bufDen0, h.medCreat, Bool.or_self]

theorem nextRow_step (h : Over s) (i : DPi) : (s.step i).nextMed.row = (s.step i).buf.row := by
  rw [h.row_step, Filter.nextMed_row, Filter.step_med, h.nextX, RowCnt.step_zero (by decide),
    h.nextRow]
  rfl

/-- A cycle without data enable. -/
theorem step (h : Over s) (hden : i.den = false) : Over (s.step i) where
  row := h.row_mem i
  bufX := by
    rw [Filter.step_buf, MedainBuffer5.step_rtXcnt, h.rtDen_off hden, h.bufX]
    simp
  bufCreat := h.creatDen_off
  bufDen0 := h.rtDen_off hden
  bufDen1 := h.bufDen0
  medCreat := h.nextCreat
  medDen0 := by
    rw [Filter.step_med, Filter.nextMed_rtDenDelay0, h.medDen_off]
  nextRow := h.nextRow_step i
  nextX := by
    have hmed : (s.step i).med.rtDen (s.step i).buf.dPoSync = false := by
      rw [Filter.med_rtDen, Filter.step_med, h.nextCreat, Bool.or_false]
      exact h.rtDen_off hden
    rw [Filter.nextMed_rtXcnt, hmed, Filter.step_med, Filter.nextMed_rtDenDelay0, h.medDen_off,
      h.nextX]
    simp
  nextCreat := by
    rw [Filter.nextMed_newDen, Filter.step_med, h.nextRow]
    exact h.creatDen_off

/-- Reset. -/
theorem reset : Over Filter.reset where
  row := Or.inl rfl
  bufX := rfl
  bufCreat := rfl
  bufDen0 := rfl
  bufDen1 := rfl
  medCreat := rfl
  medDen0 := rfl
  nextRow := rfl
  nextX := rfl
  nextCreat := rfl

/-- The first cycle of the picture. The buffers still hold what the frame before
left in them. -/
theorem enter (h : Over s) (hrow : s.buf.row = ⟨0, 0⟩) (f : Frame800) :
    LineSt f (fun b => ((s.step (f.cycle 0)).buf.line b).ram) 0 1 (s.step (f.cycle 0)) := by
  have hnext : Over (s.step (f.cycle 0)) := h.step rfl
  have hmed : (s.step (f.cycle 0)).med.row = ⟨0, 0⟩ := h.nextRow.trans hrow
  refine ⟨?_, ?_, ?_, ?_, ?_, ?_, ?_⟩
  -- vsync may just have ended, so this is not a `Turning` of line 0 before the edge
  · intro _
    refine ⟨⟨?_, ?_, rfl, hnext.bufDen0, hnext.bufDen1, hnext.medDen0, ?_⟩,
      h.row_zero hrow _, hnext.bufX, rfl, ?_, ?_, ?_, ?_⟩
    · exact Or.inl ⟨h.row_zero hrow _, Or.inl hnext.bufX⟩
    · exact Or.inl ⟨hmed, Or.inl h.nextX⟩
    · intro b x _
      rfl
    all_goals
      intro hc
      exact absurd hc (by decide)
  · intro hc
    exact absurd hc (by decide)
  · exact hnext.bufCreat
  · exact hnext.medCreat
  · intro _ hc
    exact absurd hc (by decide)
  · intro hc
    exact absurd hc (by decide)
  · intro hc
    exact absurd hc (by decide)

end Over

/-- The cycle after the second line that is made up. -/
theorem LineSt.exit {f : Frame800} (h : LineSt f R 481 800 s) :
    Over (s.step (f.cycle (800 * 482))) := by
  obtain ⟨hidle, hsync⟩ := h.turn_idle
  have hset := h.turning.hsync hidle (by decide) hsync
  have hmed : (s.step (f.cycle (800 * 482))).med.row = ⟨481, 1⟩ :=
    (h.nextMed_row (by decide)).trans h.bufRow
  refine ⟨Or.inr hset.bufRow, hset.bufX, ?_, hset.turning.bufDen0, hset.turning.bufDen1, ?_,
    hset.turning.medDen0, (hset.nextMed_row (by decide)).trans hset.bufRow.symm, ?_, ?_⟩
  -- hsync itself keeps `creat_den` low: the row is still 481
  · refine creatDen_low ?_
    rw [h.bufRow, hsync]
    simp
  · exact h.nextMed_creatDen.trans h.bufCreat
  · have hdelay : (s.step (f.cycle (800 * 482))).buf.rtHsyncDelay = true := hsync
    rw [Filter.nextMed_rtXcnt, hdelay, Bool.or_true, if_pos rfl]
  -- and does so in `median_5x5` one cycle later
  · refine NewDen.creatDen_step ?_
    rw [hmed]
    show ¬ (481 = 480 ∨ 481 = 481 ∧ (f.cycle (800 * 482)).hsync = false)
    rw [hsync]
    simp

/-! ## A frame -/

/-- What `median_5x5` counts and makes up is one cycle behind. -/
def OneBehind (s : Filter) : Prop :=
  s.nextMed.newDen.creatDen = s.buf.newDen.creatDen ∧ s.nextMed.row = s.buf.row

theorem Over.oneBehind (h : Over s) : OneBehind s := ⟨h.nextCreat.trans h.bufCreat.symm, h.nextRow⟩

theorem LineSt.oneBehind {f : Frame800} (h : LineSt f R n c s) (hn : n ≤ 481) : OneBehind s :=
  ⟨h.nextMed_creatDen, h.nextMed_row hn⟩

/-- Cycle after cycle without data enable. -/
theorem over_run {ins : List DPi} (h : Over s) (hden : ∀ i ∈ ins, i.den = false) :
    Over (run Filter.step s ins) ∧ Along Filter.step (fun s _ => Over s) s ins ∧
      (s.buf.row = ⟨0, 0⟩ → (run Filter.step s ins).buf.row = ⟨0, 0⟩) := by
  have hstep : ∀ s i, Over s → i.den = false → Over (Filter.step s i) :=
    fun s i h hi => h.step hi
  refine ⟨run_preserves_of Over hstep h hden, along_preserves_of Over hstep h hden, ?_⟩
  intro hrow
  have hstep' : ∀ s i, Over s ∧ s.buf.row = ⟨0, 0⟩ → i.den = false →
      Over (Filter.step s i) ∧ (Filter.step s i).buf.row = ⟨0, 0⟩ :=
    fun s i h hi => ⟨h.1.step hi, h.1.row_zero h.2 i⟩
  exact (run_preserves_of (fun s => Over s ∧ s.buf.row = ⟨0, 0⟩) hstep' ⟨h, hrow⟩ hden).2

namespace Frame800

variable (f : Frame800)

/-- There is no data enable in the vertical interval. -/
theorem vert_den : ∀ i ∈ f.vert, i.den = false := by
  intro i hi
  obtain ⟨t, _, rfl⟩ := List.mem_map.mp hi
  rfl

/-- The vertical interval ends in row 0, with hsync low. -/
theorem vert_run (h : Over s) :
    Over (run Filter.step s f.vert) ∧ (run Filter.step s f.vert).buf.row = ⟨0, 0⟩ ∧
      (run Filter.step s f.vert).buf.rtHsyncDelay = false := by
  obtain ⟨t, ht, hpulse, hvsync⟩ := f.vert_sync
  refine ⟨(over_run h f.vert_den).1, ?_, ?_⟩
  -- both syncs meet in cycle `t`, and nothing leaves row 0 after it
  · have hmem : f.vertCycle t ∈ f.vert := List.mem_map.mpr ⟨t, List.mem_range.mpr ht, rfl⟩
    obtain ⟨pre, post, hsplit⟩ := List.append_of_mem hmem
    have hden := f.vert_den
    rw [hsplit] at hden ⊢
    rw [run_append, run_cons]
    have hpre := (over_run h fun i hi => hden i (List.mem_append_left _ hi)).1
    have hsync : ((run Filter.step s pre).step (f.vertCycle t)).buf.row = ⟨0, 0⟩ := by
      rw [hpre.row_step, if_pos]
      show (f.vsync t && decide (t % 800 < 96)) = true
      rw [hvsync, decide_eq_true hpulse]
      rfl
    refine (over_run (hpre.step rfl) fun i hi => ?_).2.2 hsync
    exact hden i (List.mem_append_right _ (List.mem_cons_of_mem _ hi))
  -- the last cycle is cycle 799 of a line
  · have hlast : 800 * f.vertLines = 800 * f.vertLines - 1 + 1 := by omega
    unfold vert
    rw [hlast, run_map_range_succ]
    exact decide_eq_false (by omega)

/-- The state in cycle `t` of the picture, from state `s` before it. -/
def after (s : Filter) (t : ℕ) : Filter := run Filter.step s ((List.range t).map f.cycle)

theorem after_succ (s : Filter) (t : ℕ) : f.after s (t + 1) = (f.after s t).step (f.cycle t) :=
  run_map_range_succ _ _ _ _

end Frame800

/-- What the buffers hold before line `n`: the last five lines of the picture,
with the pixel input of the second cycle after data enable in the last column. -/
def Holds (f : Frame800) (n : ℕ) (R : Fin 5 → ℕ → BitVec 8) : Prop :=
  ∀ l < n, l < 480 → n ≤ l + 5 → ∀ x < 640,
    R (lineOf l) x = f.pix l (if x < 639 then x else 641)

section

variable {f : Frame800}

/-- A line replaces the one five lines above it. -/
theorem Holds.next (h : Holds f n R) : Holds f (n + 1) (stored R (f.pix n) n) := by
  intro l hl hpic hle x hx
  unfold stored
  by_cases hln : l = n
  · subst hln
    rw [if_pos rfl]
  · rw [if_neg (lineOf_ne (by omega) (by omega))]
    exact h l (by omega) hpic (by omega) x hx

/-- The cycles of a line. -/
theorem line_cycles (hn : n ≤ 481) (h : LineSt f R n 1 (f.after s (800 * n + 1))) :
    ∀ c, 1 ≤ c → c ≤ 800 → LineSt f R n c (f.after s (800 * n + c)) := by
  intro c hpos
  induction c, hpos using Nat.le_induction with
  | base =>
      intro _
      exact h
  | succ c hpos ih =>
      intro hc
      rw [← Nat.add_assoc, f.after_succ]
      exact (ih (by omega)).step hn hpos (by omega)

/-- Line after line. -/
theorem picture_lines (h : Over s) (hrow : s.buf.row = ⟨0, 0⟩) :
    ∀ n ≤ 481, ∃ R, Holds f n R ∧
      ∀ c, 1 ≤ c → c ≤ 800 → LineSt f R n c (f.after s (800 * n + c)) := by
  intro n
  induction n with
  | zero =>
      intro _
      exact ⟨_, fun l hl => absurd hl (Nat.not_lt_zero l),
        line_cycles (by decide) (h.enter hrow f)⟩
  | succ n ih =>
      intro hn
      obtain ⟨R, hholds, hline⟩ := ih (by omega)
      refine ⟨_, hholds.next, line_cycles hn ?_⟩
      rw [f.after_succ]
      exact (hline 800 (by decide) (le_refl 800)).turn (by omega)

/-- Below the lines that are made up. -/
theorem picture_over (h : Over s) (hrow : s.buf.row = ⟨0, 0⟩) :
    ∀ t, 800 * 482 + 1 ≤ t → Over (f.after s t) := by
  intro t ht
  induction t, ht using Nat.le_induction with
  | base =>
      obtain ⟨R, _, hline⟩ := picture_lines (f := f) h hrow 481 (le_refl 481)
      rw [f.after_succ]
      exact (hline 800 (by decide) (le_refl 800)).exit
  | succ t ht ih =>
      rw [f.after_succ]
      refine ih.step ?_
      exact decide_eq_false (by omega)

/-- Before the picture, in a line, or below the lines that are made up. -/
theorem cycle_cases (t : ℕ) :
    t = 0 ∨ (∃ n ≤ 481, ∃ c, 1 ≤ c ∧ c ≤ 800 ∧ t = 800 * n + c) ∨ 800 * 482 + 1 ≤ t := by
  by_cases h0 : t = 0
  · exact Or.inl h0
  · by_cases hend : 800 * 482 + 1 ≤ t
    · exact Or.inr (Or.inr hend)
    · exact Or.inr (Or.inl ⟨(t - 1) / 800, by omega, (t - 1) % 800 + 1, by omega, by omega,
        by omega⟩)

/-- In every cycle of the picture. -/
theorem picture_oneBehind (h : Over s) (hrow : s.buf.row = ⟨0, 0⟩) (t : ℕ) :
    OneBehind (f.after s t) := by
  rcases cycle_cases t with rfl | ⟨n, hn, c, hpos, hc, rfl⟩ | ht
  · exact h.oneBehind
  · obtain ⟨R, _, hline⟩ := picture_lines (f := f) h hrow n hn
    exact (hline c hpos hc).oneBehind hn
  · exact (picture_over h hrow t ht).oneBehind

/-- The lines on which data enable is made up. -/
theorem picture_creatDen (h : Over s) (hrow : s.buf.row = ⟨0, 0⟩) (t : ℕ) :
    (f.after s t).buf.newDen.creatDen
      = decide ((t / 800 = 480 ∨ t / 800 = 481) ∧ 144 ≤ t % 800 ∧ t % 800 < 784) := by
  rcases cycle_cases t with rfl | ⟨n, hn, c, hpos, hc, rfl⟩ | ht
  · exact h.bufCreat
  · obtain ⟨R, _, hline⟩ := picture_lines (f := f) h hrow n hn
    rw [(hline c hpos hc).bufCreat]
    exact decide_eq_decide.mpr (by omega)
  · rw [(picture_over h hrow t ht).bufCreat]
    exact (decide_eq_false (by omega)).symm

/-- A whole frame. -/
theorem frame_run (h : Over s) (f : Frame800) :
    Over (run Filter.step s f.inputs) ∧ Along Filter.step (fun s _ => OneBehind s) s f.inputs := by
  obtain ⟨hover, hrow, _⟩ := f.vert_run h
  have hfront := f.three_le_front
  unfold Frame800.inputs
  rw [run_append, along_append]
  refine ⟨picture_over hover hrow _ (by omega), ?_, ?_⟩
  · exact along_mono _ (fun _ _ hs => hs.oneBehind) (over_run h f.vert_den).2.1
  · exact along_map_range fun t _ => picture_oneBehind hover hrow t

/-- Frame after frame. -/
theorem frames800_run (fs : List Frame800) :
    Over (run Filter.step Filter.reset (fs.flatMap Frame800.inputs)) ∧
      Along Filter.step (fun s _ => OneBehind s) Filter.reset (fs.flatMap Frame800.inputs) := by
  induction fs using List.reverseRecOn with
  | nil => exact ⟨Over.reset, trivial⟩
  | append_singleton fs f ih =>
      obtain ⟨hover, halong⟩ := frame_run ih.1 f
      rw [List.flatMap_append, List.flatMap_singleton, run_append, along_append]
      exact ⟨hover, ih.2, halong⟩

theorem beforePicture_over (fs : List Frame800) (f : Frame800) :
    Over (beforePicture fs f) ∧ (beforePicture fs f).buf.row = ⟨0, 0⟩ ∧
      (beforePicture fs f).buf.rtHsyncDelay = false := by
  unfold beforePicture
  rw [run_append]
  exact f.vert_run (frames800_run fs).1

/-! ## The window -/

/-- Column `x + 2` of row `n` is first read in cycle `x + 147` of line `n`. -/
theorem first_read_below (h : Over s) (hrow : s.buf.row = ⟨0, 0⟩)
    (hsync : s.buf.rtHsyncDelay = false) {x : ℕ} (hlow : 1 ≤ n) (hn : n ≤ 481) (hx : x < 640) :
    IsLeast {t | t < 800 * (480 + f.front) ∧ Reads (x + 2) n (f.after s t)}
      (800 * n + (x + 147)) := by
  have hfront := f.three_le_front
  obtain ⟨R, _, hline⟩ := picture_lines (f := f) h hrow n hn
  refine ⟨⟨by omega, ?_, ?_⟩, ?_⟩
  · rw [((hline (x + 147) (by omega) (by omega)).line (by omega)).medX]
    omega
  · rw [((hline (x + 147) (by omega) (by omega)).line (by omega)).medRow]
  · rintro t ⟨_, hcol, hread⟩
    by_contra hlt
    rw [not_le] at hlt
    -- an earlier cycle is in row 0, in a line above, or left of the column
    rcases cycle_cases t with rfl | ⟨m, hm, c, hpos, hc, rfl⟩ | ht
    · have hmed : s.med.row = ⟨0, 0⟩ := by
        rw [← hrow, ← h.nextRow, Filter.nextMed_row, hsync, RowCnt.step_low]
      have hzero : s.med.row.rtYcnt = n := hread
      rw [hmed] at hzero
      have hzero' : 0 = n := hzero
      omega
    · obtain ⟨R', _, hline'⟩ := picture_lines (f := f) h hrow m hm
      have hle := (hline' c hpos hc).med_ycnt_le
      obtain rfl : m = n := by omega
      rcases Nat.le_total c 144 with hhead | hbody
      · have hbefore := ((hline' c hpos hc).settled hhead).turning.before
        rcases hbefore with hlt' | ⟨_, hx0 | hn0⟩ <;> omega
      · rw [((hline' c hpos hc).line hbody).medX] at hcol
        omega
    · omega

/-- What the window shows on the lines that are made up. Column 639 is the pixel
input two cycles after the last pixel. -/
theorem window_below (h : Over s) (hrow : s.buf.row = ⟨0, 0⟩) {x : ℕ} (hlow : 480 ≤ n)
    (hn : n ≤ 481) (hx : x < 640) (i j : Fin 5) :
    (f.after s (800 * n + (x + 147) + 1)).med.rtMtx i j
      = f.pix (rowLine n i) (if min (x + j - 2) 639 < 639 then min (x + j - 2) 639 else 641) := by
  obtain ⟨R, hholds, hline⟩ := picture_lines (f := f) h hrow n hn
  have hat : LineAt R (f.pix n) n (x + 4) (f.after s (800 * n + (x + 147) + 1)) := by
    have hat := (hline (x + 148) (by omega) (by omega)).line (by omega)
    rwa [show x + 148 - 144 = x + 4 by omega] at hat
  have hi := i.isLt
  -- no row shows the line that is made up
  have hrowle : rowLine n i ≤ 479 := Nat.min_le_right _ _
  have hne : lineOf (rowLine n i) ≠ lineOf n := by
    unfold rowLine
    exact lineOf_ne (by omega) (by omega)
  have hclose : n ≤ rowLine n i + 5 := by
    unfold rowLine
    omega
  rw [hat.mtx (by omega) hn, shown_other hne, winCol_pred]
  exact hholds _ (by omega) (by omega) hclose _ (by omega)

/-- The window is right unless it reaches column 639 of a line whose last pixel
was overwritten. -/
theorem window_below_iff (h : Over s) (hrow : s.buf.row = ⟨0, 0⟩) {x : ℕ} (hlow : 480 ≤ n)
    (hn : n ≤ 481) (hx : x < 640) :
    WindowRight f.img (n - 2) x (f.after s (800 * n + (x + 147) + 1)) ↔
      ∀ i j : Fin 5, 639 ≤ x + j - 2 → f.pix (rowLine n i) 641 = f.pix (rowLine n i) 639 := by
  have hline : ∀ i : Fin 5, min (n - 2 + i - 2) 479 = rowLine n i := by
    intro i
    unfold rowLine
    omega
  constructor
  · intro hright i j hcol
    have hcell := hright i j
    rw [window_below h hrow hlow hn hx, hline, Nat.min_eq_right hcol, if_neg (by decide)] at hcell
    exact hcell
  · intro hsame i j
    rw [window_below h hrow hlow hn hx, hline]
    by_cases hcol : 639 ≤ x + j - 2
    · rw [Nat.min_eq_right hcol, if_neg (by decide)]
      exact hsame i j hcol
    · rw [if_pos (by omega)]
      rfl

end

/-! ## The two lines -/

/-- The window around row `y`, column `x` is right in the cycle after the counters
first read column `x + 2` on row `y + 2`. -/
def FirstWindowRightBelow (fs : List Frame800) (f : Frame800) (y x : ℕ) : Prop :=
  ∃ t, IsLeast {t | t < 800 * (480 + f.front) ∧ Reads (x + 2) (y + 2) (inPicture fs f t)} t ∧
    WindowRight f.img y x (inPicture fs f (t + 1))

/-- The lines that are made up in the last frame of a run, and what they show.
Both modules make up data enable in these cycles only, `median_5x5` one cycle
behind in every cycle of the run, and the windows of the last two rows are
right. -/
structure BottomLines (fs : List Frame800) (f : Frame800) : Prop where
  delayed : Along Filter.step (fun s i =>
    (s.step i).med.newDen.creatDen = s.buf.newDen.creatDen ∧ (s.step i).med.row = s.buf.row)
    Filter.reset ((fs ++ [f]).flatMap Frame800.inputs)
  vert : Along Filter.step (fun s _ =>
    s.buf.newDen.creatDen = false ∧ s.med.newDen.creatDen = false)
    (run Filter.step Filter.reset (fs.flatMap Frame800.inputs)) f.vert
  bufLines : ∀ t < 800 * (480 + f.front), (inPicture fs f t).buf.newDen.creatDen
    = decide ((t / 800 = 480 ∨ t / 800 = 481) ∧ 144 ≤ t % 800 ∧ t % 800 < 784)
  medLines : ∀ t < 800 * (480 + f.front), (inPicture fs f (t + 1)).med.newDen.creatDen
    = decide ((t / 800 = 480 ∨ t / 800 = 481) ∧ 144 ≤ t % 800 ∧ t % 800 < 784)
  windows : ∀ y, y = 478 ∨ y = 479 → ∀ x < 640, FirstWindowRightBelow fs f y x

/-- Cycle 785 of a line is the second one after data enable. -/
theorem pix_late (f : Frame800) (l : ℕ) : f.pix l 641 = f.data (800 * l + 785) :=
  congrArg f.data (show 800 * l + 144 + 641 = 800 * l + 785 by omega)

/-- The windows of both rows are right if the lines they show end with their last
pixel. -/
theorem bottom_windows_iff (fs : List Frame800) (f : Frame800) :
    (∀ y, y = 478 ∨ y = 479 → ∀ x < 640, FirstWindowRightBelow fs f y x)
      ↔ ∀ l, 476 ≤ l → l ≤ 479 → f.data (800 * l + 785) = f.img l 639 := by
  obtain ⟨hover, hrow, hsync⟩ := beforePicture_over fs f
  constructor
  -- the window around the last pixel of row 478 shows all four lines
  · intro h l hlow hhigh
    obtain ⟨t, hleast, hright⟩ := h 478 (Or.inl rfl) 639 (by decide)
    have hfirst := first_read_below (f := f) (n := 480) hover hrow hsync (x := 639) (by decide)
      (by decide) (by decide)
    rw [hleast.unique hfirst] at hright
    have hcells := (window_below_iff (n := 480) hover hrow (x := 639) (le_refl 480) (by decide)
      (by decide)).mp hright
    have hline : rowLine 480 (⟨l - 476, by omega⟩ : Fin 5) = l := by
      show min (480 + (l - 476) - 4) 479 = l
      omega
    rw [← pix_late]
    have hcell := hcells ⟨l - 476, by omega⟩ 2 (by decide)
    rw [hline] at hcell
    exact hcell
  · intro h y hy x hx
    refine ⟨_, first_read_below hover hrow hsync (by omega) (by omega) hx, ?_⟩
    refine (window_below_iff hover hrow (n := y + 2) (by omega) (by omega) hx).mpr ?_
    intro i j _
    rw [pix_late]
    have hi := i.isLt
    refine h _ ?_ (Nat.min_le_right _ _)
    unfold rowLine
    omega

/-- Whatever the frames, both modules make up the same two lines. The windows are
right if and only if the pixel input still carries the last pixel in the second
cycle after data enable, in each of the last four lines. -/
theorem bottom_lines_iff (fs : List Frame800) (f : Frame800) :
    BottomLines fs f ↔ ∀ l, 476 ≤ l → l ≤ 479 → f.data (800 * l + 785) = f.img l 639 := by
  constructor
  · intro h
    exact (bottom_windows_iff fs f).mp h.windows
  · intro h
    obtain ⟨hover, hrow, _⟩ := beforePicture_over fs f
    have hvert := (over_run (frames800_run fs).1 f.vert_den).2.1
    refine ⟨(frames800_run (fs ++ [f])).2, ?_, ?_, ?_, (bottom_windows_iff fs f).mpr h⟩
    · exact along_mono _ (fun _ _ hs => ⟨hs.bufCreat, hs.medCreat⟩) hvert
    · intro t _
      exact picture_creatDen hover hrow t
    · intro t _
      have hnext : (inPicture fs f (t + 1)).med = (inPicture fs f t).nextMed :=
        congrArg Filter.med (f.after_succ (beforePicture fs f) t)
      rw [hnext]
      exact (picture_oneBehind hover hrow t).1.trans (picture_creatDen hover hrow t)

/-- Black, with a bright pixel input in one cycle of the blanking. -/
def lateInput : Frame800 where
  vertLines := 1
  vsync := fun _ => true
  vertData := fun _ => 0
  vert_sync := ⟨0, by decide, by decide, rfl⟩
  front := 3
  three_le_front := le_refl 3
  data := fun t => if t = 800 * 476 + 785 then 1 else 0

/-- Column 639 of line 476 is overwritten. -/
theorem bottom_windows_wrong : ¬ BottomLines [] lateInput := by
  intro h
  have hlate := (bottom_windows_iff [] lateInput).mp h.windows 476 (le_refl 476) (by decide)
  exact absurd hlate (by decide)

end SocRtl.Median
