import SocRtl.Median.Median5x5

/-!
# SocRtl.Median.WindowLine — a line of pixels on its way into the window

While line `n` comes in, row `i` of the window shows line `n + i - 4` of the
picture, or the first or the last line where there is no such line. Lines come
back from their buffers with the first pixel repeated before data enable; the
line that comes in shows what its buffer held from five lines ago instead. In
the rows 2 and 3 the window is refilled when the third pixel arrives.

`LineAt` describes the buffers and the window `k` cycles after the first data
enable of line `n`. One lemma carries it over a clock edge, the next one over a
list of inputs.
-/

namespace SocRtl.Median

/-! ## Which line a row shows -/

/-- The buffer of line `n`. -/
def lineOf (n : ℕ) : Fin 5 := ⟨n % 5, Nat.mod_lt n (by decide)⟩

/-- The line of the picture that row `i` of the window shows while line `n`
comes in. -/
def rowLine (n : ℕ) (i : Fin 5) : ℕ := min (n + i - 4) 479

/-- The cycle, counted from the first data enable of the line, whose pixel
column `j` of the window holds after `k` cycles; 1 is the first pixel. -/
def winCol (n k j : ℕ) : ℕ := if n < 4 ∧ 4 ≤ k then max 1 (k + j - 5) else k + j - 5

theorem outLine_low {b : MedainBuffer5} (h : b.row.rtYcnt < 480) (c : Fin 5) :
    b.outLine c = (b.line c).btDataOut := by
  unfold MedainBuffer5.outLine
  rw [if_neg]
  rintro (⟨_, h'⟩ | ⟨_, h'⟩) <;> omega

/-- From line 4 on the five outputs enter the rows in the order of the lines.
Below the picture the buffer of the last line stands in for those that are
overwritten. -/
theorem outLine_of_sel {b : MedainBuffer5} {n : ℕ} (hrow : b.row.rtYcnt = n) (hlow : 4 ≤ n)
    (hhigh : n ≤ 481) {c i : Fin 5} (hc : c.val = (n + 1 + i) % 5) :
    b.outLine c = (b.line (lineOf (rowLine n i))).btDataOut := by
  have hval : ∀ c' : Fin 5, c'.val = min (n + i - 4) 479 % 5 → c' = lineOf (rowLine n i) :=
    fun c' h => Fin.ext h
  have hi := i.isLt
  unfold MedainBuffer5.outLine
  rw [hrow, hc]
  split
  -- below the picture: buffer 4 holds line 479
  · rename_i hlast
    rw [hval (Fin.last 4)]
    show 4 = _
    omega
  · rename_i hlast
    rw [hval c]
    rw [hc]
    omega

theorem loadMtx_line {m : Window} {line g : Fin 5 → BitVec 8} {src sel col : Fin 5 → Fin 5}
    (h : ∀ i, line (sel i) = g i) (i j : Fin 5) :
    loadMtx m line src sel col i j = if j = 4 then g i else m (src i) (col j) := by
  unfold loadMtx
  rw [h]

/-- From line 4 on the window is shifted. -/
theorem mtxStep_shift (m : Window) {b : MedainBuffer5} {n x : ℕ} (hrow : b.row.rtYcnt = n)
    (hlow : 4 ≤ n) (hhigh : n ≤ 481) (i j : Fin 5) :
    mtxStep m b.outLine ⟨n, n % 5⟩ x i j
      = if j = 4 then (b.line (lineOf (rowLine n i))).btDataOut else m i (shiftCols j) := by
  have hsel : ∀ sel : Fin 5 → Fin 5, (∀ i, (sel i).val = (n % 5 + 1 + i) % 5) →
      loadMtx m b.outLine id sel shiftCols i j
        = if j = 4 then (b.line (lineOf (rowLine n i))).btDataOut else m i (shiftCols j) := by
    intro sel h
    refine loadMtx_line (fun i => outLine_of_sel (i := i) hrow hlow hhigh ?_) i j
    rw [h]
    omega
  unfold mtxStep
  rw [if_neg (show ¬ n = 2 by omega), if_neg (show ¬ n = 3 by omega)]
  -- one branch of the module for each remainder
  rcases (show n % 5 = 0 ∨ n % 5 = 1 ∨ n % 5 = 2 ∨ n % 5 = 3 ∨ n % 5 = 4 by omega) with
    hr | hr | hr | hr | hr <;> rw [hr] at hsel ⊢ <;> exact hsel _ (by decide)

/-- In the rows 2 and 3 the window is refilled twice. A row may be loaded from
another one that shows the same line. -/
theorem mtxStep_refill (m : Window) {b : MedainBuffer5} {n : ℕ} (x : ℕ)
    (hrow : b.row.rtYcnt = n) (h : n = 2 ∨ n = 3) (i j : Fin 5) :
    ∃ i', rowLine n i' = rowLine n i ∧ mtxStep m b.outLine ⟨n, n % 5⟩ x i j
      = if j = 4 then (b.line (lineOf (rowLine n i))).btDataOut
        else m i' (if x = 2 then colsAt2 j else if x = 3 then colsAt3 j else shiftCols j) := by
  have hload : ∀ src sel col : Fin 5 → Fin 5, (∀ i, sel i = lineOf (rowLine n i)) →
      loadMtx m b.outLine src sel col i j
        = if j = 4 then (b.line (lineOf (rowLine n i))).btDataOut else m (src i) (col j) := by
    intro src sel col hsel
    refine loadMtx_line (g := fun i => (b.line (lineOf (rowLine n i))).btDataOut) (fun i => ?_) i j
    rw [outLine_low (by omega), hsel]
  have hsrc : ∀ i, rowLine 3 (![1, 1, 2, 3, 4] i : Fin 5) = rowLine 3 i := by decide
  unfold mtxStep
  rcases h with rfl | rfl
  -- row 2 keeps its rows apart
  · refine ⟨i, rfl, ?_⟩
    rw [if_pos rfl]
    by_cases h2 : x = 2
    · rw [if_pos h2, if_pos h2]
      exact hload _ _ _ (by decide)
    · rw [if_neg h2, if_neg h2]
      split <;> exact hload _ _ _ (by decide)
  -- in row 3 the first row of the window is loaded from the second; both show line 0
  · rw [if_neg (by decide), if_pos rfl]
    by_cases h2 : x = 2
    · refine ⟨![1, 1, 2, 3, 4] i, hsrc i, ?_⟩
      rw [if_pos h2, if_pos h2]
      exact hload _ _ _ (by decide)
    · rw [if_neg h2, if_neg h2]
      by_cases h3 : x = 3
      · refine ⟨![1, 1, 2, 3, 4] i, hsrc i, ?_⟩
        rw [if_pos h3, if_pos h3]
        exact hload _ _ _ (by decide)
      · refine ⟨i, rfl, ?_⟩
        rw [if_neg h3, if_neg h3]
        exact hload _ _ _ (by decide)

/-- Column 4 holds what has come in last. -/
theorem winCol_last (n k : ℕ) : winCol n (k + 1) (4 : Fin 5) = k := by
  show (if n < 4 ∧ 4 ≤ k + 1 then max 1 (k + 1 + 4 - 5) else k + 1 + 4 - 5) = k
  split <;> omega

/-- Shifting the window moves each column on by one cycle. -/
theorem winCol_shift {n k : ℕ} (h : ¬ (n < 4 ∧ (k = 3 ∨ k = 4))) {j : Fin 5} (hj : j ≠ 4) :
    winCol n k (shiftCols j) = winCol n (k + 1) j := by
  have hval : ∀ j : Fin 5, j ≠ 4 → (shiftCols j).val = j + 1 := by decide
  unfold winCol
  rw [hval j hj]
  split <;> split <;> omega

/-- The two refills put the first pixel into the columns left of it. -/
theorem winCol_at2 {n : ℕ} (h : n < 4) {j : Fin 5} (hj : j ≠ 4) :
    winCol n 3 (colsAt2 j) = winCol n 4 j := by
  have hval : ∀ j : Fin 5, j ≠ 4 → 3 + (colsAt2 j).val - 5 = max 1 (4 + j.val - 5) := by decide
  unfold winCol
  rw [if_neg (by omega), if_pos (by omega), hval j hj]

theorem winCol_at3 {n : ℕ} (h : n < 4) {j : Fin 5} (hj : j ≠ 4) :
    winCol n 4 (colsAt3 j) = winCol n 5 j := by
  have hval : ∀ j : Fin 5, j ≠ 4 → max 1 (4 + (colsAt3 j).val - 5) = max 1 (5 + j.val - 5) := by
    decide
  unfold winCol
  rw [if_pos (by omega), if_pos (by omega), hval j hj]

/-- What an edge does to the window. `f b k` is what buffer `b` shows after `k`
cycles. -/
theorem mtxStep_shown (f : Fin 5 → ℕ → BitVec 8) {m : Window} {b : MedainBuffer5} {n k : ℕ}
    (hrow : b.row.rtYcnt = n) (hlow : 2 ≤ n) (hhigh : n ≤ 481)
    (hm : ∀ i j : Fin 5, m i j = f (lineOf (rowLine n i)) (winCol n k j))
    (hout : ∀ c, (b.line c).btDataOut = f c k) (i j : Fin 5) :
    mtxStep m b.outLine ⟨n, n % 5⟩ (min (k - 1) 641) i j
      = f (lineOf (rowLine n i)) (winCol n (k + 1) j) := by
  by_cases h4 : 4 ≤ n
  · -- from row 4 on the window only shifts
    rw [mtxStep_shift m hrow h4 hhigh, hout]
    split
    · rename_i hj
      rw [hj, winCol_last]
    · rename_i hj
      rw [hm, winCol_shift (by omega) hj]
  -- the window is refilled after the cycles 3 and 4
  · rcases mtxStep_refill m (min (k - 1) 641) hrow (by omega) i j with ⟨i', hi', hstep⟩
    rw [hstep, hout]
    split
    · rename_i hj
      rw [hj, winCol_last]
    · rename_i hj
      rw [hm, hi']
      congr 1
      by_cases h2 : k = 3
      · subst h2
        exact winCol_at2 (by omega) hj
      · by_cases h3 : k = 4
        · subst h3
          exact winCol_at3 (by omega) hj
        · rw [if_neg (by omega), if_neg (by omega)]
          exact winCol_shift (by omega) hj

/-! ## A line of data enable -/

section

variable (R : Fin 5 → ℕ → BitVec 8) (d : ℕ → BitVec 8) (n : ℕ)

/-- What buffer `b` shows `k` cycles after the first data enable of line `n`:
the line that comes in passes by, up to the second cycle after data enable. -/
def shown (b : Fin 5) (k : ℕ) : BitVec 8 :=
  if b = lineOf n ∧ 0 < k then d (min (k - 1) 641) else R b (min (k - 1) 639)

/-- What buffer `b` holds. The last address is written until the second cycle
after data enable. -/
def kept (k : ℕ) (b : Fin 5) (x : ℕ) : BitVec 8 :=
  if b = lineOf n ∧ x < min k 639 then d x
  else if b = lineOf n ∧ x = 639 ∧ 639 < k then d (min (k - 1) 641)
  else R b x

/-- The state `k` cycles after the first data enable of line `n`. `R` is what
the buffers held before the line and `d` is what the pixel input carries from
then on. -/
structure LineAt (k : ℕ) (s : Filter) : Prop where
  bufX : s.buf.rtXcnt = min k 640
  bufRow : s.buf.row = ⟨n, n % 5⟩
  bufVsync : s.buf.rtVsyncDelay = false
  bufHsync : s.buf.rtHsyncDelay = false
  bufDen0 : s.buf.rtDenDelay0 = decide (0 < k ∧ k ≤ 640)
  bufDen1 : s.buf.rtDenDelay1 = decide (1 < k ∧ k ≤ 641)
  ram : ∀ b, ∀ x < 640, (s.buf.line b).ram x = kept R d n k b x
  out : ∀ b, (s.buf.line b).btDataOut = shown R d n b k
  medX : s.med.rtXcnt = min (k - 1) 641
  medRow : s.med.row = ⟨n, n % 5⟩
  medDen0 : s.med.rtDenDelay0 = decide (1 < k ∧ k ≤ 641)
  mtx : 2 ≤ n → n ≤ 481 → ∀ i j : Fin 5,
    s.med.rtMtx i j = shown R d n (lineOf (rowLine n i)) (winCol n k j)

end

variable {R : Fin 5 → ℕ → BitVec 8} {d : ℕ → BitVec 8} {n k : ℕ} {s : Filter} {i : DPi}

/-! ### One cycle of the line -/

theorem kept_other {b : Fin 5} (hb : b ≠ lineOf n) (x : ℕ) : kept R d n k b x = R b x := by
  simp [kept, hb]

theorem shown_other {b : Fin 5} (hb : b ≠ lineOf n) : shown R d n b k = R b (min (k - 1) 639) := by
  simp [shown, hb]

/-- What one cycle writes. -/
theorem kept_step {x : ℕ} (hx : x < 640) (hk : k ≤ 641) :
    kept R d n (k + 1) (lineOf n) x
      = if x = min k 639 then d k else kept R d n k (lineOf n) x := by
  unfold kept
  simp only [true_and]
  by_cases hw : x = min k 639
  -- the address that is written
  · rw [if_pos hw]
    split
    · congr 1; omega
    · rw [if_pos (by omega)]
      congr 1; omega
  · rw [if_neg hw]
    by_cases hlow : x < min k 639
    · rw [if_pos hlow, if_pos (by omega)]
    · rw [if_neg hlow, if_neg (by omega), if_neg (by omega), if_neg (by omega)]

/-- From then on nothing is written. -/
theorem kept_done {b : Fin 5} {x : ℕ} (hx : x < 640) (hk : 642 ≤ k) :
    kept R d n (k + 1) b x = kept R d n k b x := by
  unfold kept
  by_cases hb : b = lineOf n
  · simp only [hb, true_and]
    by_cases h : x < 639
    · rw [if_pos (by omega), if_pos (by omega)]
    · rw [if_neg (by omega), if_pos (by omega), if_neg (by omega), if_pos (by omega)]
      congr 1; omega
  · simp [hb]

/-- What both modules take for data enable. -/
def DenAt (k : ℕ) (s : Filter) (i : DPi) : Prop :=
  s.buf.rtDen i = decide (k < 640) ∧ s.med.rtDen s.buf.dPoSync = decide (0 < k ∧ k ≤ 640)

/-- The pixel input in a cycle without synchronisation. -/
structure Pix (d : ℕ → BitVec 8) (k : ℕ) (i : DPi) : Prop where
  vsync : i.vsync = false
  hsync : i.hsync = false
  data : i.data = d k

/-- The buffer of the line is selected until the second cycle after data enable. -/
theorem lineWVld_at (h : LineAt R d n k s) (hden : DenAt k s i) (b : Fin 5) :
    s.buf.lineWVld i b = decide (b = lineOf n ∧ k ≤ 641) := by
  unfold MedainBuffer5.lineWVld
  rw [hden.1, h.bufDen1, h.bufRow]
  -- the strobe of buffer `b` is that of the row counter modulo five
  have hb : b = lineOf n ↔ n % 5 = b.val := by
    rw [Fin.ext_iff]
    exact eq_comm
  rw [Bool.eq_iff_iff]
  simp only [Bool.and_eq_true, Bool.or_eq_true, decide_eq_true_eq, hb]
  omega

theorem ramAddr_at (h : LineAt R d n k s) : s.buf.ramAddr = min k 639 := by
  unfold MedainBuffer5.ramAddr
  rw [h.bufX]
  split <;> omega

/-- The pixel counters. -/
theorem bufX_step (h : LineAt R d n k s) (hpix : Pix d k i) (hden : DenAt k s i) :
    (s.buf.step i).rtXcnt = min (k + 1) 640 := by
  rw [MedainBuffer5.step_rtXcnt, hpix.vsync, hpix.hsync, hden.1, h.bufX]
  simp only [Bool.or_self, Bool.false_eq_true, if_false, decide_eq_true_eq]
  -- 640 is where data enable ends, so the counter does not pass it
  split <;> omega

theorem medX_step (h : LineAt R d n k s) (hden : DenAt k s i) :
    s.nextMed.rtXcnt = min k 641 := by
  rw [Filter.nextMed_rtXcnt, h.bufVsync, h.bufHsync, hden.2, h.medDen0, h.medX]
  simp only [Bool.or_self, Bool.false_eq_true, if_false, Bool.or_eq_true, decide_eq_true_eq]
  split <;> omega

/-- The line buffers. -/
theorem ram_step (h : LineAt R d n k s) (hpix : Pix d k i) (hden : DenAt k s i) (b : Fin 5)
    {x : ℕ} (hx : x < 640) :
    (((s.buf.step i).line b)).ram x = kept R d n (k + 1) b x := by
  have haddr : s.buf.ramAddr < 640 := by
    rw [ramAddr_at h]
    omega
  rw [MedainBuffer5.step_ram haddr, lineWVld_at h hden, ramAddr_at h, h.ram b x hx, hpix.data]
  simp only [decide_eq_true_eq]
  by_cases hb : b = lineOf n
  -- the buffer of the line is written up to cycle 641, the others are not
  · subst hb
    by_cases hk : k ≤ 641
    · rw [kept_step hx hk]
      simp only [hk, and_self, true_and]
    · rw [if_neg fun hand => hk hand.1.2, kept_done hx (by omega)]
  · rw [if_neg fun hand => hb hand.1.1, kept_other hb, kept_other hb]

theorem out_step (h : LineAt R d n k s) (hpix : Pix d k i) (hden : DenAt k s i) (b : Fin 5) :
    ((s.buf.step i).line b).btDataOut = shown R d n b (k + 1) := by
  rw [MedainBuffer5.step_line, LineBuffer.step, lineWVld_at h hden, ramAddr_at h, hpix.data,
    h.ram b _ (by omega)]
  by_cases hb : b = lineOf n
  -- what is written passes by to the output
  · subst hb
    by_cases hk : k ≤ 641
    · simp only [hk, and_self, decide_true, Bool.not_true, Bool.false_eq_true, if_false]
      rw [shown, if_pos ⟨rfl, Nat.succ_pos k⟩]
      congr 1
      omega
    -- two cycles after data enable the buffer is read again
    · simp only [hk, and_false, decide_false, Bool.not_false, if_true]
      rw [shown, if_pos ⟨rfl, Nat.succ_pos k⟩, kept, if_neg (by omega), if_pos (by omega)]
      congr 1
      omega
  · simp only [hb, false_and, decide_false, Bool.not_false, if_true]
    rw [kept_other hb, shown_other hb]
    rfl

/-- One cycle of the line. -/
theorem LineAt.step (h : LineAt R d n k s) (hpix : Pix d k i) (hden : DenAt k s i) :
    LineAt R d n (k + 1) (s.step i) where
  bufX := bufX_step h hpix hden
  bufRow := by
    rw [Filter.step_buf, MedainBuffer5.step_row, hpix.hsync, RowCnt.step_low, h.bufRow]
  bufVsync := hpix.vsync
  bufHsync := hpix.hsync
  bufDen0 := by
    -- data enable, and the same one cycle later
    show s.buf.rtDen i = _
    rw [hden.1]
    exact decide_eq_decide.mpr (by omega)
  bufDen1 := by
    show s.buf.rtDenDelay0 = _
    rw [h.bufDen0]
    exact decide_eq_decide.mpr (by omega)
  ram := fun b _ hx => ram_step h hpix hden b hx
  out := out_step h hpix hden
  medX := medX_step h hden
  medRow := by
    rw [Filter.step_med, Filter.nextMed_row, h.bufHsync, RowCnt.step_low, h.medRow]
  medDen0 := by
    rw [Filter.step_med, Filter.nextMed_rtDenDelay0, hden.2]
    exact decide_eq_decide.mpr (by omega)
  mtx := by
    intro hlow hhigh i' j
    -- the window takes in what the buffers show, under the row of this line
    have hrow : s.buf.row.rtYcnt = n := by rw [h.bufRow]
    rw [Filter.step_med, Filter.nextMed_rtMtx, h.medRow, h.medX]
    exact mtxStep_shown (shown R d n) hrow hlow hhigh (h.mtx hlow hhigh) h.out i' j

/-! ## Between the lines -/

/-- A cycle without vertical synchronisation and without data enable. -/
structure Idle (s : Filter) (i : DPi) : Prop where
  vsync : i.vsync = false
  bufDen : s.buf.rtDen i = false
  medDen : s.med.rtDen s.buf.dPoSync = false

/-- The next hsync turns a row counter to row `n`: its pixel counter has reached
the end of the line before, or hsync has come already. -/
def Turns (lineEnd n : ℕ) (row : RowCnt) (x : ℕ) : Prop :=
  row = ⟨n, n % 5⟩ ∧ (x = 0 ∨ n = 0 ∧ x ≤ 3) ∨ ∃ m, n = m + 1 ∧ row = ⟨m, m % 5⟩ ∧ x = lineEnd

theorem Turns.step {lineEnd n x : ℕ} {row : RowCnt} (h : Turns lineEnd n row x)
    (hend : 3 < lineEnd) (hn : n < 2 ^ 10) : row.step lineEnd false true x = ⟨n, n % 5⟩ := by
  rcases h with ⟨rfl, hx⟩ | ⟨m, rfl, rfl, rfl⟩
  -- hsync has come already
  · have hne : x ≠ lineEnd := by omega
    simp [RowCnt.step, hne]
  · have hstate : (if m % 5 = 4 then 0 else (m % 5 + 1) % 2 ^ 3) = (m + 1) % 5 := by
      split <;> omega
    simp only [RowCnt.step, Bool.and_true, Bool.false_eq_true, if_false, decide_true, if_true,
      hstate, Nat.mod_eq_of_lt hn]

theorem Turns.ycnt_le {lineEnd n x : ℕ} {row : RowCnt} (h : Turns lineEnd n row x) :
    row.rtYcnt ≤ n := by
  rcases h with ⟨rfl, _⟩ | ⟨m, rfl, rfl, _⟩
  · exact le_refl n
  · exact Nat.le_succ m

/-- The state before line `n`: nothing happens until hsync. -/
structure Turning (R : Fin 5 → ℕ → BitVec 8) (n : ℕ) (s : Filter) : Prop where
  bufTurns : Turns 640 n s.buf.row s.buf.rtXcnt
  medTurns : Turns 641 n s.med.row s.med.rtXcnt
  bufVsync : s.buf.rtVsyncDelay = false
  bufDen0 : s.buf.rtDenDelay0 = false
  bufDen1 : s.buf.rtDenDelay1 = false
  medDen0 : s.med.rtDenDelay0 = false
  ram : ∀ b, ∀ x < 640, (s.buf.line b).ram x = R b x

theorem bufX_idle (h : Idle s i) : (s.buf.step i).rtXcnt = if i.hsync then 0 else s.buf.rtXcnt := by
  rw [MedainBuffer5.step_rtXcnt, h.vsync, h.bufDen]
  rfl

theorem medX_idle (h : Turning R n s) (hidle : Idle s i) :
    s.nextMed.rtXcnt = if s.buf.rtHsyncDelay then 0 else s.med.rtXcnt := by
  rw [Filter.nextMed_rtXcnt, h.bufVsync, hidle.medDen, h.medDen0]
  rfl

theorem line_idle (h : Turning R n s) (hidle : Idle s i) (b : Fin 5) :
    ((s.buf.step i).line b) = ⟨(s.buf.line b).ram, (s.buf.line b).ram s.buf.ramAddr⟩ := by
  have hvld : s.buf.lineWVld i b = false := by
    rw [MedainBuffer5.lineWVld, hidle.bufDen, h.bufDen1]
    rfl
  exact MedainBuffer5.line_of_unstrobed hvld

theorem Turning.step (h : Turning R n s) (hidle : Idle s i) (hn : n < 2 ^ 10) :
    Turning R n (s.step i) where
  bufTurns := by
    rw [Filter.step_buf, MedainBuffer5.step_row, bufX_idle hidle, hidle.vsync]
    cases i.hsync with
    | false =>
        -- no hsync yet: the same turn is still ahead
        rw [RowCnt.step_low]
        exact h.bufTurns
    -- the row is counted, and the pixel counter cleared
    | true =>
        rw [h.bufTurns.step (by decide) hn]
        exact Or.inl ⟨rfl, Or.inl rfl⟩
  medTurns := by
    rw [Filter.step_med, Filter.nextMed_row, medX_idle h hidle, h.bufVsync]
    cases s.buf.rtHsyncDelay with
    | false =>
        rw [RowCnt.step_low]
        exact h.medTurns
    | true =>
        -- the same for the window, which sees hsync a cycle later
        rw [h.medTurns.step (by decide) hn]
        exact Or.inl ⟨rfl, Or.inl rfl⟩
  bufVsync := hidle.vsync
  bufDen0 := hidle.bufDen
  bufDen1 := h.bufDen0
  medDen0 := hidle.medDen
  ram := by
    intro b x hx
    rw [Filter.step_buf, line_idle h hidle]
    exact h.ram b x hx

/-- The state `c` cycles after hsync. -/
structure Settled (R : Fin 5 → ℕ → BitVec 8) (n c : ℕ) (s : Filter) : Prop where
  turning : Turning R n s
  bufRow : s.buf.row = ⟨n, n % 5⟩
  bufX : s.buf.rtXcnt = 0
  bufHsync : s.buf.rtHsyncDelay = decide (c = 0)
  out : 0 < c → ∀ b, (s.buf.line b).btDataOut = R b 0
  medRow : 0 < c → s.med.row = ⟨n, n % 5⟩
  medX : 0 < c → s.med.rtXcnt = 0
  mtx : 2 ≤ n → n ≤ 481 → ∀ i j : Fin 5, 6 ≤ j + c → s.med.rtMtx i j = R (lineOf (rowLine n i)) 0

/-- `median_5x5` sees the hsync of the first cycle one cycle later. -/
theorem Settled.nextMed_row {c : ℕ} (h : Settled R n c s) (hn : n < 2 ^ 10) :
    s.nextMed.row = ⟨n, n % 5⟩ := by
  rw [Filter.nextMed_row, h.turning.bufVsync, h.bufHsync]
  by_cases hc : c = 0
  -- the last cycle of hsync is seen now
  · rw [decide_eq_true hc, h.turning.medTurns.step (by decide) hn]
  · rw [decide_eq_false hc, RowCnt.step_low, h.medRow (by omega)]

/-- A cycle of hsync. -/
theorem Turning.hsync (h : Turning R n s) (hidle : Idle s i) (hn : n < 2 ^ 10)
    (hsync : i.hsync = true) : Settled R n 0 (s.step i) where
  turning := h.step hidle hn
  bufRow := by
    rw [Filter.step_buf, MedainBuffer5.step_row, hidle.vsync, hsync,
      h.bufTurns.step (by decide) hn]
  bufX := by
    rw [Filter.step_buf, bufX_idle hidle, hsync, if_pos rfl]
  bufHsync := hsync
  out := by
    intro hc
    exact absurd hc (Nat.lt_irrefl 0)
  medRow := by
    intro hc
    exact absurd hc (Nat.lt_irrefl 0)
  medX := by
    intro hc
    exact absurd hc (Nat.lt_irrefl 0)
  mtx := by
    intro _ _ i j hj
    have hlt := j.isLt
    omega

/-- A cycle after hsync. The window is filled from the right with what the
buffers hold at address 0. -/
theorem Settled.step {c : ℕ} (h : Settled R n c s) (hidle : Idle s i) (hn : n < 2 ^ 10)
    (hsync : i.hsync = false) : Settled R n (c + 1) (s.step i) where
  turning := h.turning.step hidle hn
  bufRow := by
    rw [Filter.step_buf, MedainBuffer5.step_row, hsync, RowCnt.step_low, h.bufRow]
  bufX := by
    rw [Filter.step_buf, bufX_idle hidle, hsync, h.bufX]
    rfl
  bufHsync := by
    rw [decide_eq_false (Nat.succ_ne_zero c)]
    exact hsync
  out := by
    -- no strobe: the buffers are read, all at address 0
    intro _ b
    rw [Filter.step_buf, line_idle h.turning hidle, MedainBuffer5.ramAddr, h.bufX]
    exact h.turning.ram b 0 (by decide)
  medRow := by
    intro _
    exact h.nextMed_row hn
  medX := by
    intro _
    rw [Filter.step_med, medX_idle h.turning hidle, h.bufHsync]
    by_cases hc : c = 0
    · rw [decide_eq_true hc, if_pos rfl]
    · rw [decide_eq_false hc, if_neg Bool.false_ne_true, h.medX (by omega)]
  mtx := by
    intro hlow hhigh i' j hj
    have hlt := j.isLt
    -- column 4 is new, the others come from the column to the right
    have hc : 0 < c := by omega
    have hrow : s.buf.row.rtYcnt = n := by rw [h.bufRow]
    have hshift : ∀ i'', j ≠ 4 → s.med.rtMtx i'' (shiftCols j) = R (lineOf (rowLine n i'')) 0 := by
      intro i'' hj4
      have hval : ∀ j : Fin 5, j ≠ 4 → (shiftCols j).val = j + 1 := by decide
      refine h.mtx hlow hhigh i'' _ ?_
      rw [hval j hj4]
      omega
    rw [Filter.step_med, Filter.nextMed_rtMtx, h.medRow hc, h.medX hc]
    by_cases h4 : 4 ≤ n
    · -- a shift, with what the buffers show in the last column
      rw [mtxStep_shift _ hrow h4 hhigh, h.out hc]
      split
      · rfl
      · rename_i hj4
        exact hshift i' hj4
    · -- on the first rows every row of the window is that of some buffer
      rcases mtxStep_refill s.med.rtMtx 0 hrow (by omega) i' j with ⟨i'', hi'', hstep⟩
      rw [hstep, h.out hc]
      split
      · rfl
      · rename_i hj4
        rw [if_neg (by decide), if_neg (by decide), hshift i'' hj4, hi'']

/-- Six cycles after hsync the line may start. -/
theorem Settled.lineAt {c : ℕ} (h : Settled R n c s) (hc : 6 ≤ c) (d : ℕ → BitVec 8) :
    LineAt R d n 0 s where
  bufX := h.bufX
  bufRow := h.bufRow
  bufVsync := h.turning.bufVsync
  bufHsync := by rw [h.bufHsync, decide_eq_false (by omega)]
  bufDen0 := h.turning.bufDen0
  bufDen1 := h.turning.bufDen1
  ram := by
    intro b x hx
    rw [h.turning.ram b x hx, kept, if_neg (by omega), if_neg (by omega)]
  out := by
    intro b
    rw [h.out (by omega) b, shown, if_neg (by omega)]
    rfl
  medX := h.medX (by omega)
  medRow := h.medRow (by omega)
  medDen0 := h.turning.medDen0
  mtx := by
    intro hlow hhigh i j
    have hj := j.isLt
    have hcol : winCol n 0 j = 0 := by
      unfold winCol
      rw [if_neg (by omega)]
      omega
    rw [h.mtx hlow hhigh i j (by omega), hcol, shown, if_neg (by omega)]
    rfl

/-- What the buffers hold after the line. -/
def stored (R : Fin 5 → ℕ → BitVec 8) (d : ℕ → BitVec 8) (n : ℕ) (b : Fin 5) (x : ℕ) : BitVec 8 :=
  if b = lineOf n then d (if x < 639 then x else 641) else R b x

/-- Two cycles after data enable the next line may begin. -/
theorem LineAt.turning (h : LineAt R d n k s) (hk : 642 ≤ k) :
    Turning (stored R d n) (n + 1) s where
  bufTurns := by
    -- the pixel counters are left at the end of the line
    refine Or.inr ⟨n, rfl, h.bufRow, ?_⟩
    rw [h.bufX]
    omega
  medTurns := by
    refine Or.inr ⟨n, rfl, h.medRow, ?_⟩
    rw [h.medX]
    omega
  bufVsync := h.bufVsync
  bufDen0 := by rw [h.bufDen0, decide_eq_false (by omega)]
  bufDen1 := by rw [h.bufDen1, decide_eq_false (by omega)]
  medDen0 := by rw [h.medDen0, decide_eq_false (by omega)]
  ram := by
    intro b x hx
    rw [h.ram b x hx, kept, stored]
    by_cases hb : b = lineOf n
    -- the last column is the late one
    · rw [if_pos hb]
      by_cases hlast : x < 639
      · rw [if_pos hlast, if_pos ⟨hb, by omega⟩]
      · rw [if_neg hlast, if_neg (by omega), if_pos ⟨hb, by omega, by omega⟩]
        congr 1
        omega
    · rw [if_neg hb, if_neg fun h => hb h.1, if_neg fun h => hb h.1]

end SocRtl.Median
