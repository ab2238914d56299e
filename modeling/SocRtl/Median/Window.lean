import Mathlib.Data.List.Flatten
import Mathlib.Order.Bounds.Defs
import SocRtl.Median.WindowLine

/-!
# SocRtl.Median.Window — the window over frames of 640x480

A frame is a vertical interval, in which `hsync` and `vsync` are high together at
some time, and then 480 lines. A line is a pulse of `hsync`, blanking, 640 pixels
and blanking again; while the line is blanked the pixel input holds its last
pixel. The window is right for all columns of the rows 0 and 1. Below them the
row that is still coming in has no left border: the two columns on the left show
the pixel that its line buffer held from five lines ago.
-/

namespace SocRtl.Median

/-! ## Frames -/

/-- How long the parts of a line last. -/
structure LineTiming where
  pulse : ℕ
  post : ℕ
  back : ℕ
  pulse_pos : 0 < pulse
  six_le_post : 6 ≤ post
  six_le_back : 6 ≤ back

/-- A cycle of blanking. -/
def blank (data : BitVec 8) : DPi := ⟨false, false, false, data⟩

/-- The cycles of a line up to its first pixel. -/
def LineTiming.head (t : LineTiming) (held : BitVec 8) : List DPi :=
  List.replicate t.pulse ⟨false, true, false, held⟩ ++ List.replicate t.post (blank held)

/-- The pixels of a line and the blanking after them. -/
@[irreducible] def LineTiming.body (t : LineTiming) (row : ℕ → BitVec 8) : List DPi :=
  ((List.range 640).map fun x => ⟨false, false, true, row x⟩) ++
    List.replicate t.back (blank (row 639))

/-- A frame: the vertical interval, the blanking before the first line, and 480
lines. -/
structure Frame where
  vert : List DPi
  vert_den : ∀ i ∈ vert, i.den = false
  vert_sync : ∃ i ∈ vert, i.vsync = true ∧ i.hsync = true
  lead : ℕ
  six_le_lead : 6 ≤ lead
  timing : ℕ → LineTiming
  img : ℕ → ℕ → BitVec 8
  before : BitVec 8

namespace Frame

variable (f : Frame)

/-- The pixel before line `y`. -/
def held : ℕ → BitVec 8
  | 0 => f.before
  | y + 1 => f.img y 639

/-- The cycles of line `y`. -/
def line (y : ℕ) : List DPi := (f.timing y).head (f.held y) ++ (f.timing y).body (f.img y)

/-- The first `n` lines. -/
@[irreducible] def upTo (n : ℕ) : List DPi := (List.range n).flatMap f.line

/-- The cycles before the first line. -/
def interval : List DPi := f.vert ++ List.replicate f.lead (blank f.before)

def inputs : List DPi := f.interval ++ f.upTo 480

/-- What the pixel input carries from the first pixel of line `y` on. -/
def pixels (y k : ℕ) : BitVec 8 := f.img y (min k 639)

end Frame

/-- The state before the lines of `f`, from reset, after the frames `fs`. -/
def beforeLines (fs : List Frame) (f : Frame) : Filter :=
  run Filter.step Filter.reset (fs.flatMap Frame.inputs ++ f.interval)

/-- The state in cycle `t` of the lines of `f`. -/
def inLines (fs : List Frame) (f : Frame) (t : ℕ) : Filter :=
  run Filter.step (beforeLines fs f) ((f.upTo 480).take t)

/-- The counters of `median_5x5` read column `x` on row `y`. -/
def Reads (x y : ℕ) (s : Filter) : Prop := s.med.rtXcnt = x ∧ s.med.row.rtYcnt = y

/-- The window is the one around row `y`, column `x` of the picture. -/
def WindowRight (img : ℕ → ℕ → BitVec 8) (y x : ℕ) (s : Filter) : Prop :=
  ∀ i j : Fin 5, s.med.rtMtx i j = img (min (y + i - 2) 479) (min (x + j - 2) 639)

/-- The first pixel of the last line of the last frame. -/
def lastLeft (fs : List Frame) : BitVec 8 :=
  match fs.getLast? with
  | none => 0
  | some g => g.img 479 0

/-- What the buffer of line `y + 2` held at address 0 before that line: the first
pixel of the line five lines before, in the frame before if there is none. -/
def staleLeft (fs : List Frame) (f : Frame) (y : ℕ) : BitVec 8 :=
  if y = 2 then lastLeft fs else f.img (y - 3) 0

/-! ## A line -/

/-- Neither module makes up data enable. -/
def NoNewDen (s : Filter) : Prop :=
  s.buf.newDen.creatDen = false ∧ s.med.newDen.creatDen = false

theorem NewDen.creatDen_step {w : ℕ} {s : NewDen} {hsync1pz rtHsync : Bool} {rtYcnt : ℕ}
    (h : ¬ (rtYcnt = 480 ∨ rtYcnt = 481 ∧ rtHsync = false)) :
    (s.step w hsync1pz rtHsync rtYcnt).creatDen = false :=
  if_neg h

theorem noNewDen_step {s : Filter} (hbuf : s.buf.row.rtYcnt < 480) (hmed : s.med.row.rtYcnt < 480)
    (i : DPi) : NoNewDen (s.step i) :=
  ⟨NewDen.creatDen_step (by omega), NewDen.creatDen_step (by omega)⟩

variable {R : Fin 5 → ℕ → BitVec 8} {d : ℕ → BitVec 8} {n k : ℕ} {s : Filter} {i : DPi}

theorem Turning.idle (h : Turning R n s) (hnew : NoNewDen s) (hvsync : i.vsync = false)
    (hden : i.den = false) : Idle s i where
  vsync := hvsync
  bufDen := by rw [MedainBuffer5.rtDen, hden, hnew.1, Bool.or_self]
  medDen := by
    rw [Filter.med_rtDen, h.bufDen0, hnew.2, Bool.or_self]

theorem Turning.noNewDen_step (h : Turning R n s) (hn : n < 480) (i : DPi) :
    NoNewDen (s.step i) :=
  SocRtl.Median.noNewDen_step (lt_of_le_of_lt h.bufTurns.ycnt_le hn)
    (lt_of_le_of_lt h.medTurns.ycnt_le hn) i

theorem LineAt.denAt (h : LineAt R d n k s) (hnew : NoNewDen s) (hden : i.den = decide (k < 640)) :
    DenAt k s i := by
  refine ⟨?_, ?_⟩
  · rw [MedainBuffer5.rtDen, hnew.1, Bool.or_false, hden]
  · rw [Filter.med_rtDen, hnew.2, Bool.or_false, h.bufDen0]

/-- `median_5x5` has not begun to count the columns of line `n`. -/
def Before (n : ℕ) (s : Filter) : Prop :=
  s.med.row.rtYcnt < n ∨ s.med.row.rtYcnt = n ∧ (s.med.rtXcnt = 0 ∨ n = 0)

theorem Turning.before (h : Turning R n s) : Before n s := by
  rcases h.medTurns with ⟨hrow, hx | ⟨hn, _⟩⟩ | ⟨m, hm, hrow, _⟩
  · exact Or.inr ⟨by rw [hrow], Or.inl hx⟩
  · exact Or.inr ⟨by rw [hrow], Or.inr hn⟩
  · refine Or.inl ?_
    rw [hrow, hm]
    exact Nat.lt_succ_self m

/-- The cycles of hsync. -/
theorem pulse_run (h : Turning R n s) (hnew : NoNewDen s) (hn : n < 480) {len : ℕ} (hlen : 0 < len)
    (held : BitVec 8) :
    (Settled R n 0 (run Filter.step s (List.replicate len ⟨false, true, false, held⟩)) ∧
      NoNewDen (run Filter.step s (List.replicate len ⟨false, true, false, held⟩))) ∧
      Along Filter.step (fun s _ => Before n s) s
        (List.replicate len ⟨false, true, false, held⟩) := by
  -- `P k`: `k` cycles of hsync have passed; one is enough to settle the rows
  let P : ℕ → Filter → Prop := fun k s =>
    Turning R n s ∧ NoNewDen s ∧ (0 < k → Settled R n 0 s)
  have hstep : ∀ k s, P k s → P (k + 1) (s.step ⟨false, true, false, held⟩) := by
    rintro k s ⟨hturn, hnew, _⟩
    have hidle : Idle s ⟨false, true, false, held⟩ := hturn.idle hnew rfl rfl
    have hsettled := hturn.hsync hidle (by omega) rfl
    exact ⟨hsettled.turning, hturn.noNewDen_step hn _, fun _ => hsettled⟩
  have hstart : P 0 s := ⟨h, hnew, fun hc => absurd hc (Nat.lt_irrefl 0)⟩
  have hend : P (0 + len) _ := run_replicate P hstep hstart len
  exact ⟨⟨hend.2.2 (by omega), hend.2.1⟩,
    along_replicate P hstep (fun _ _ hP => hP.1.before) hstart len⟩

/-- The blanking after hsync. -/
theorem post_run (h : Settled R n 0 s) (hnew : NoNewDen s) (hn : n < 480) (len : ℕ)
    (held : BitVec 8) :
    (Settled R n len (run Filter.step s (List.replicate len (blank held))) ∧
      NoNewDen (run Filter.step s (List.replicate len (blank held)))) ∧
      Along Filter.step (fun s _ => Before n s) s (List.replicate len (blank held)) := by
  -- `P k`: the state `k` cycles after hsync
  let P : ℕ → Filter → Prop := fun k s => Settled R n k s ∧ NoNewDen s
  have hstep : ∀ k s, P k s → P (k + 1) (s.step (blank held)) := by
    rintro k s ⟨hsettled, hnew⟩
    have hidle : Idle s (blank held) := hsettled.turning.idle hnew rfl rfl
    exact ⟨hsettled.step hidle (by omega) rfl, hsettled.turning.noNewDen_step hn _⟩
  have hend : P (0 + len) _ := run_replicate P hstep ⟨h, hnew⟩ len
  rw [Nat.zero_add] at hend
  exact ⟨hend, along_replicate P hstep (fun _ _ hP => hP.1.turning.before) ⟨h, hnew⟩ len⟩

/-- The cycles of a line up to its first pixel. -/
theorem head_run (h : Turning R n s) (hnew : NoNewDen s) (hn : n < 480) (t : LineTiming)
    (held : BitVec 8) (d : ℕ → BitVec 8) :
    (LineAt R d n 0 (run Filter.step s (t.head held)) ∧
      NoNewDen (run Filter.step s (t.head held))) ∧
      Along Filter.step (fun s _ => Before n s) s (t.head held) := by
  -- hsync, then the blanking up to the first pixel
  obtain ⟨⟨hpulse, hnew'⟩, hbefore⟩ := pulse_run h hnew hn t.pulse_pos held
  obtain ⟨⟨hpost, hnew''⟩, hbefore'⟩ := post_run hpulse hnew' hn t.post held
  unfold LineTiming.head
  rw [run_append, along_append]
  exact ⟨⟨hpost.lineAt t.six_le_post d, hnew''⟩, hbefore, hbefore'⟩

/-- The inputs from the first pixel of a line on. -/
def LinePix (d : ℕ → BitVec 8) (k : ℕ) (i : DPi) : Prop := Pix d k i ∧ i.den = decide (k < 640)

theorem lineAt_step (h : LineAt R d n k s ∧ NoNewDen s) (hn : n < 480) (hpix : LinePix d k i) :
    LineAt R d n (k + 1) (s.step i) ∧ NoNewDen (s.step i) := by
  have hrow : s.buf.row.rtYcnt < 480 := by
    rw [h.1.bufRow]
    exact hn
  have hrow' : s.med.row.rtYcnt < 480 := by
    rw [h.1.medRow]
    exact hn
  exact ⟨h.1.step hpix.1 (h.1.denAt h.2 hpix.2), noNewDen_step hrow hrow' i⟩

theorem linePix_body (f : Frame) (y : ℕ) {m : ℕ} {i : DPi}
    (h : ((f.timing y).body (f.img y))[m]? = some i) : LinePix (f.pixels y) (0 + m) i := by
  rw [Nat.zero_add]
  unfold LineTiming.body at h
  -- the pixels of the line
  by_cases hlt : m < 640
  · rw [List.getElem?_append_left (by simpa using hlt), List.getElem?_map,
      List.getElem?_range hlt] at h
    cases h
    refine ⟨⟨rfl, rfl, ?_⟩, (decide_eq_true hlt).symm⟩
    show f.img y m = f.img y (min m 639)
    congr 1
    omega
  -- in the blanking the last pixel is held
  · rw [List.getElem?_append_right (by simpa using hlt)] at h
    have hi := List.eq_of_mem_replicate (List.mem_of_getElem? h)
    subst hi
    refine ⟨⟨rfl, rfl, ?_⟩, (decide_eq_false hlt).symm⟩
    show f.img y 639 = f.img y (min m 639)
    congr 1
    omega

/-- Up to cycle `t` of a line. -/
theorem body_run (f : Frame) (h : LineAt R (f.pixels n) n 0 s ∧ NoNewDen s) (hn : n < 480) {t : ℕ}
    (ht : t ≤ ((f.timing n).body (f.img n)).length) :
    LineAt R (f.pixels n) n t (run Filter.step s (((f.timing n).body (f.img n)).take t)) ∧
      NoNewDen (run Filter.step s (((f.timing n).body (f.img n)).take t)) := by
  have hC : ∀ m i, (((f.timing n).body (f.img n)).take t)[m]? = some i →
      LinePix (f.pixels n) (0 + m) i := by
    intro m i hi
    rw [List.getElem?_take] at hi
    split at hi
    · exact linePix_body f n hi
    · cases hi
  have hstep : ∀ k s i, LineAt R (f.pixels n) n k s ∧ NoNewDen s → LinePix (f.pixels n) k i →
      LineAt R (f.pixels n) n (k + 1) (Filter.step s i) ∧ NoNewDen (Filter.step s i) :=
    fun k s i hP hi => lineAt_step hP hn hi
  have hrun := run_counted _ hstep h hC
  rwa [List.length_take, Nat.min_eq_left ht, Nat.zero_add] at hrun

/-- Before cycle `t` of a line no column is read that comes later. -/
theorem body_along (f : Frame) (h : LineAt R (f.pixels n) n 0 s ∧ NoNewDen s) (hn : n < 480)
    (t : ℕ) :
    Along Filter.step (fun s _ => s.med.row.rtYcnt = n ∧ (2 ≤ t → s.med.rtXcnt < t - 1)) s
      (((f.timing n).body (f.img n)).take t) := by
  refine along_counted (C := fun k i => LinePix (f.pixels n) k i ∧ k < t)
    (fun k s => LineAt R (f.pixels n) n k s ∧ NoNewDen s)
    (fun k s i hP hi => lineAt_step hP hn hi.1) ?_ h ?_
  · -- in cycle `k` the window counts column `k - 1`
    rintro k s i ⟨hat, _⟩ ⟨_, hk⟩
    refine ⟨by rw [hat.medRow], ?_⟩
    intro ht
    rw [hat.medX]
    omega
  · intro m i hi
    rw [List.getElem?_take] at hi
    split at hi
    · rename_i hm
      exact ⟨linePix_body f n hi, by omega⟩
    · cases hi

theorem length_body (t : LineTiming) (row : ℕ → BitVec 8) :
    (t.body row).length = t.back + 640 := by
  unfold LineTiming.body
  rw [List.length_append, List.length_map, List.length_replicate, List.length_range, Nat.add_comm]

/-- A whole line. -/
theorem line_run (f : Frame) (h : Turning R n s) (hnew : NoNewDen s) (hn : n < 480) :
    (Turning (stored R (f.pixels n) n) (n + 1) (run Filter.step s (f.line n)) ∧
      NoNewDen (run Filter.step s (f.line n))) ∧
      Along Filter.step (fun s _ => s.med.row.rtYcnt ≤ n) s (f.line n) := by
  obtain ⟨hstart, hbefore⟩ := head_run h hnew hn (f.timing n) (f.held n) (f.pixels n)
  have hback := (f.timing n).six_le_back
  have hlen := length_body (f.timing n) (f.img n)
  -- to the end of the blanking, where the next line may begin
  have hend := body_run f hstart hn (le_refl _)
  have halong := body_along f hstart hn ((f.timing n).body (f.img n)).length
  rw [List.take_length] at hend halong
  unfold Frame.line
  rw [run_append, along_append]
  refine ⟨⟨hend.1.turning (by omega), hend.2⟩, ?_, ?_⟩
  · refine along_mono _ ?_ hbefore
    rintro s _ (hlt | ⟨heq, _⟩)
    · exact Nat.le_of_lt hlt
    · exact Nat.le_of_eq heq
  · refine along_mono _ ?_ halong
    intro s _ h
    exact Nat.le_of_eq h.1

/-! ## The lines of a frame -/

/-- What the buffers hold before line `n`: the lines before it, and at first what
was left of the frame before. -/
structure Stores (f : Frame) (stale : BitVec 8) (n : ℕ) (R : Fin 5 → ℕ → BitVec 8) : Prop where
  line : ∀ l < n, n ≤ l + 5 → ∀ x < 640, R (lineOf l) x = f.img l x
  stale : n ≤ 4 → R 4 0 = stale

theorem lineOf_ne {l n : ℕ} (hlt : l < n) (hle : n ≤ l + 4) : lineOf l ≠ lineOf n := by
  intro h
  have hval : l % 5 = n % 5 := congrArg Fin.val h
  omega

theorem Stores.next {f : Frame} {stale : BitVec 8} (h : Stores f stale n R) :
    Stores f stale (n + 1) (stored R (f.pixels n) n) where
  line := by
    intro l hl hle x hx
    unfold stored
    by_cases hln : l = n
    -- the late pixel of column 639 is the held one
    · subst hln
      rw [if_pos rfl]
      show f.img l (min (if x < 639 then x else 641) 639) = _
      congr 1
      split <;> omega
    · -- the other lines are in other buffers
      rw [if_neg (lineOf_ne (by omega) (by omega)), h.line l (by omega) (by omega) x hx]
  stale := by
    intro hn
    -- buffer 4 is not written before line 4
    have hne : (4 : Fin 5) ≠ lineOf n := by
      intro heq
      have hval : 4 = n % 5 := congrArg Fin.val heq
      omega
    unfold stored
    rw [if_neg hne, h.stale (by omega)]

/-- The state before line `n`. -/
def BeforeLine (f : Frame) (stale : BitVec 8) (n : ℕ) (s : Filter) : Prop :=
  ∃ R, Stores f stale n R ∧ Turning R n s ∧ NoNewDen s

theorem Frame.upTo_succ (f : Frame) (n : ℕ) : f.upTo (n + 1) = f.upTo n ++ f.line n := by
  simp only [Frame.upTo, List.range_succ, List.flatMap_append, List.flatMap_singleton]

theorem Frame.upTo_zero (f : Frame) : f.upTo 0 = [] := by
  rw [Frame.upTo]
  rfl

/-- Line after line. -/
theorem upTo_run (f : Frame) {stale : BitVec 8} (h : BeforeLine f stale 0 s) :
    ∀ n ≤ 480, BeforeLine f stale n (run Filter.step s (f.upTo n)) ∧
      Along Filter.step (fun s _ => s.med.row.rtYcnt < n) s (f.upTo n) := by
  intro n
  induction n with
  | zero =>
      intro _
      rw [f.upTo_zero]
      exact ⟨h, trivial⟩
  | succ n ih =>
      intro hn
      -- the lines before leave the state before line `n`, and line `n` that
      -- before line `n + 1`
      obtain ⟨⟨R, hstores, hturn, hnew⟩, halong⟩ := ih (by omega)
      obtain ⟨⟨hturn', hnew'⟩, halong'⟩ := line_run f hturn hnew (by omega)
      rw [f.upTo_succ, run_append, along_append]
      refine ⟨⟨_, hstores.next, hturn', hnew'⟩, ?_, ?_⟩
      · exact along_mono _ (fun s _ hlt => Nat.lt_succ_of_lt hlt) halong
      · exact along_mono _ (fun s _ hle => Nat.lt_succ_of_le hle) halong'

/-! ## The vertical interval -/

/-- The rows of the line buffers have been counted anew. If data enable was just
being made up, one column is counted. -/
def BufTop (b : MedainBuffer5) : Prop :=
  b.row = ⟨0, 0⟩ ∧ (b.rtXcnt = 0 ∨ b.rtXcnt ≤ 1 ∧ b.newDen.creatDen = false)

/-- The line buffers in the vertical interval: row 479, the rows that are made up
and the one after them, or row 0. In row 479, where buffer 4 could be written,
there is no data enable. -/
def BufVert (b : MedainBuffer5) : Prop :=
  b.row = ⟨479, 4⟩ ∧ b.newDen.creatDen = false ∧ b.rtDenDelay0 = false ∧ b.rtDenDelay1 = false ∨
  b.row = ⟨480, 0⟩ ∨ b.row = ⟨481, 1⟩ ∨
  b.row = ⟨482, 2⟩ ∧ b.newDen.creatDen = false ∧ b.rtXcnt = 0 ∨
  BufTop b

theorem BufTop.vert {b : MedainBuffer5} (h : BufTop b) : BufVert b :=
  Or.inr (Or.inr (Or.inr (Or.inr h)))

theorem lineWVld_vert {b : MedainBuffer5} (h : BufVert b) {i : DPi} (hden : i.den = false) :
    b.lineWVld i 4 = false := by
  unfold MedainBuffer5.lineWVld
  rcases h with ⟨hrow, hcreat, _, hden1⟩ | hrow | hrow | ⟨hrow, _⟩ | ⟨hrow, _⟩
  · rw [MedainBuffer5.rtDen, hden, hcreat, hden1]
    rfl
  all_goals
    rw [hrow]
    exact Bool.and_false _

theorem ram_vert {b : MedainBuffer5} (h : BufVert b) {i : DPi} (hden : i.den = false) :
    ((b.step i).line 4).ram = (b.line 4).ram := by
  rw [MedainBuffer5.line_of_unstrobed (lineWVld_vert h hden)]

theorem row_cases (b : MedainBuffer5) (i : DPi) :
    (b.step i).row = ⟨0, 0⟩ ∧ (b.step i).rtXcnt = 0 ∨
    (i.hsync = true ∧ b.rtXcnt = 640 ∧ (b.step i).rtXcnt = 0 ∧
      (b.step i).row = ⟨(b.row.rtYcnt + 1) % 2 ^ 10,
        if b.row.rtYState = 4 then 0 else (b.row.rtYState + 1) % 2 ^ 3⟩) ∨
    (b.step i).row = b.row ∧ ((b.step i).rtXcnt = 0 ∨
      (b.step i).rtXcnt = if b.rtDen i then (b.rtXcnt + 1) % 2 ^ 10 else b.rtXcnt) := by
  simp only [MedainBuffer5.step_row, MedainBuffer5.step_rtXcnt, RowCnt.step]
  cases i.hsync with
  | false => exact Or.inr (Or.inr ⟨by simp, by cases i.vsync <;> simp⟩)
  | true =>
      cases i.vsync with
      | true => exact Or.inl ⟨rfl, rfl⟩
      | false =>
          by_cases hx : b.rtXcnt = 640
          · exact Or.inr (Or.inl ⟨rfl, hx, rfl, by simp [hx]⟩)
          · exact Or.inr (Or.inr ⟨by simp [hx], Or.inl rfl⟩)

theorem rtDen_low {b : MedainBuffer5} (hden : i.den = false) : b.rtDen i = b.newDen.creatDen := by
  rw [MedainBuffer5.rtDen, hden, Bool.false_or]

theorem creatDen_low {b : MedainBuffer5}
    (h : ¬ (b.row.rtYcnt = 480 ∨ b.row.rtYcnt = 481 ∧ i.hsync = false)) :
    (b.step i).newDen.creatDen = false :=
  NewDen.creatDen_step h

theorem BufTop.step {b : MedainBuffer5} (h : BufTop b) (hden : i.den = false) :
    BufTop (b.step i) := by
  obtain ⟨hrow, hx⟩ := h
  have hcreat' : (b.step i).newDen.creatDen = false := creatDen_low (by simp [hrow])
  -- no line is counted: the pixel counter is far from 640
  rcases row_cases b i with ⟨hrow', hx'⟩ | ⟨_, hx', _⟩ | ⟨hrow', hx' | hx'⟩
  · exact ⟨hrow', Or.inl hx'⟩
  · omega
  · exact ⟨hrow'.trans hrow, Or.inl hx'⟩
  · refine ⟨hrow'.trans hrow, Or.inr ⟨?_, hcreat'⟩⟩
    rw [hx', rtDen_low hden]
    rcases hx with hx | ⟨hx, hcreat⟩
    · rw [hx]
      split <;> omega
    · rw [hcreat, if_neg Bool.false_ne_true]
      exact hx

theorem BufVert.step {b : MedainBuffer5} (h : BufVert b) (hden : i.den = false) :
    BufVert (b.step i) := by
  rcases h with ⟨hrow, hcreat, hden0, _⟩ | hrow | hrow | ⟨hrow, hcreat, hx⟩ | htop
  -- row 479: no data enable any more
  · have hcreat' : (b.step i).newDen.creatDen = false := creatDen_low (by simp [hrow])
    rcases row_cases b i with ⟨hrow', hx'⟩ | ⟨_, _, _, hrow'⟩ | ⟨hrow', _⟩
    · exact BufTop.vert ⟨hrow', Or.inl hx'⟩
    · rw [hrow] at hrow'
      exact Or.inr (Or.inl hrow')
    · exact Or.inl ⟨hrow'.trans hrow, hcreat', (rtDen_low hden).trans hcreat, hden0⟩
  · -- row 480, and row 481 after it: what is made up goes to other buffers than 4
    rcases row_cases b i with ⟨hrow', hx'⟩ | ⟨_, _, _, hrow'⟩ | ⟨hrow', _⟩
    · exact BufTop.vert ⟨hrow', Or.inl hx'⟩
    · rw [hrow] at hrow'
      exact Or.inr (Or.inr (Or.inl hrow'))
    · exact Or.inr (Or.inl (hrow'.trans hrow))
  · rcases row_cases b i with ⟨hrow', hx'⟩ | ⟨hsync, _, hx', hrow'⟩ | ⟨hrow', _⟩
    · exact BufTop.vert ⟨hrow', Or.inl hx'⟩
    -- the hsync that ends row 481 also ends the data enable that is made up
    · have hcreat' : (b.step i).newDen.creatDen = false := creatDen_low (by simp [hrow, hsync])
      rw [hrow] at hrow'
      exact Or.inr (Or.inr (Or.inr (Or.inl ⟨hrow', hcreat', hx'⟩)))
    · exact Or.inr (Or.inr (Or.inl (hrow'.trans hrow)))
  -- row 482: no column is counted, so it is the last one
  · have hcreat' : (b.step i).newDen.creatDen = false := creatDen_low (by simp [hrow])
    rcases row_cases b i with ⟨hrow', hx'⟩ | ⟨_, hx', _⟩ | ⟨hrow', hx'⟩
    · exact BufTop.vert ⟨hrow', Or.inl hx'⟩
    · omega
    · rw [rtDen_low hden, hcreat, if_neg Bool.false_ne_true, hx, or_self] at hx'
      exact Or.inr (Or.inr (Or.inr (Or.inl ⟨hrow'.trans hrow, hcreat', hx'⟩)))
  · exact (htop.step hden).vert

/-- How many more columns `median_5x5` may count for data enable that is under
way. -/
def pending (s : Filter) : ℕ :=
  if s.buf.newDen.creatDen then 3
  else if s.buf.rtDenDelay0 || s.med.newDen.creatDen then 2
  else if s.med.rtDenDelay0 then 1
  else 0

/-- Both modules have counted the rows anew, or `median_5x5` will with the next
edge. -/
structure Top (s : Filter) : Prop where
  buf : BufTop s.buf
  med : s.buf.rtVsyncDelay = true ∧ s.buf.rtHsyncDelay = true ∨
    s.med.row = ⟨0, 0⟩ ∧ s.med.rtXcnt + pending s ≤ 3

theorem pending_le (s : Filter) : pending s ≤ 3 := by
  unfold pending
  split
  · exact le_refl 3
  · split
    · decide
    · split <;> decide

theorem pending_step (hbuf : s.buf.row.rtYcnt < 480) (hmed : s.med.row.rtYcnt < 480)
    (hden : i.den = false) :
    pending (s.step i)
      = if s.buf.newDen.creatDen then 2
        else if s.buf.rtDenDelay0 || s.med.newDen.creatDen then 1
        else 0 := by
  obtain ⟨hcreat, hcreat'⟩ := noNewDen_step hbuf hmed i
  have hden0 : (s.step i).buf.rtDenDelay0 = s.buf.newDen.creatDen := rtDen_low hden
  have hmden : (s.step i).med.rtDenDelay0 = (s.buf.rtDenDelay0 || s.med.newDen.creatDen) := rfl
  unfold pending
  rw [hcreat, hden0, hcreat', hmden, if_neg Bool.false_ne_true, Bool.or_false]

/-- A column is counted only where one is pending. -/
theorem medX_le (s : Filter) (i : DPi) :
    (s.step i).med.rtXcnt ≤ s.med.rtXcnt + min 1 (pending s) := by
  rw [Filter.step_med, Filter.nextMed_rtXcnt, Filter.med_rtDen]
  -- by cases on the flags that data enable passes through
  unfold pending
  cases s.buf.newDen.creatDen <;> cases s.buf.rtDenDelay0 <;> cases s.med.newDen.creatDen <;>
    cases s.med.rtDenDelay0 <;> simp <;> split <;> omega

theorem Top.step (h : Top s) (hden : i.den = false) : Top (s.step i) where
  buf := h.buf.step hden
  med := by
    have hbuf : s.buf.row.rtYcnt < 480 := by
      rw [h.buf.1]
      decide
    refine Or.inr ?_
    -- the rows are counted anew with this edge, or a pending column may be counted
    rcases h.med with ⟨hv, hh⟩ | ⟨hrow, hx⟩
    · have hrow' : (s.step i).med.row = ⟨0, 0⟩ := by
        rw [Filter.step_med, Filter.nextMed_row, hv, hh]
        rfl
      have hx' : (s.step i).med.rtXcnt = 0 := by
        rw [Filter.step_med, Filter.nextMed_rtXcnt, hv]
        rfl
      have hle := pending_le (s.step i)
      exact ⟨hrow', by omega⟩
    · have hrow' : (s.step i).med.row = ⟨0, 0⟩ := by
        have hne : s.med.rtXcnt ≠ 641 := by omega
        rw [Filter.step_med, Filter.nextMed_row, hrow]
        simp [RowCnt.step, hne]
      have hmed : s.med.row.rtYcnt < 480 := by
        rw [hrow]
        decide
      have hle := medX_le s i
      -- a column counted is one pending less: the sum does not grow
      refine ⟨hrow', ?_⟩
      rw [pending_step hbuf hmed hden]
      unfold pending at hle hx
      split at hle <;> rename_i hcreat
      · rw [if_pos hcreat] at hx ⊢
        omega
      · rw [if_neg hcreat] at hx ⊢
        split at hle <;> rename_i hden0
        · rw [if_pos hden0] at hx ⊢
          omega
        · rw [if_neg hden0] at hx ⊢
          omega

theorem top_of_sync (s : Filter) (hv : i.vsync = true) (hh : i.hsync = true) : Top (s.step i) where
  buf := by
    refine ⟨?_, Or.inl ?_⟩
    · rw [Filter.step_buf, MedainBuffer5.step_row, hv, hh]
      rfl
    · rw [Filter.step_buf, MedainBuffer5.step_rtXcnt, hv]
      rfl
  med := Or.inl ⟨hv, hh⟩

/-- The state after `c` cycles of blanking. -/
structure Leading (c : ℕ) (s : Filter) : Prop where
  top : Top s
  vsync : 0 < c → s.buf.rtVsyncDelay = false
  creat : 0 < c → s.buf.newDen.creatDen = false
  den0 : 1 < c → s.buf.rtDenDelay0 = false ∧ s.med.newDen.creatDen = false
  den1 : 2 < c → s.buf.rtDenDelay1 = false ∧ s.med.rtDenDelay0 = false

theorem Leading.med {c : ℕ} (h : Leading c s) (hc : 0 < c) :
    s.med.row = ⟨0, 0⟩ ∧ s.med.rtXcnt ≤ 3 := by
  rcases h.top.med with ⟨hv, _⟩ | ⟨hrow, hx⟩
  · rw [h.vsync hc] at hv
    cases hv
  · exact ⟨hrow, by omega⟩

theorem Leading.step {c : ℕ} (h : Leading c s) (data : BitVec 8) :
    Leading (c + 1) (s.step (blank data)) where
  top := h.top.step rfl
  vsync := fun _ => rfl
  creat := by
    intro _
    exact creatDen_low (by simp [h.top.buf.1])
  den0 := by
    intro hc
    -- with no data enable made up, the delayed ones fall one after the other
    have hden : s.buf.rtDen (blank data) = s.buf.newDen.creatDen := rtDen_low rfl
    refine ⟨hden.trans (h.creat (by omega)), NewDen.creatDen_step ?_⟩
    rw [(h.med (by omega)).1]
    simp
  den1 := by
    intro hc
    obtain ⟨hden, hcreat⟩ := h.den0 (by omega)
    refine ⟨hden, ?_⟩
    rw [Filter.step_med, Filter.nextMed_rtDenDelay0, Filter.med_rtDen, hden, hcreat]
    rfl

/-- Three cycles after the last synchronisation nothing is under way. -/
theorem Leading.turning {c : ℕ} (h : Leading c s) (hc : 2 < c) :
    Turning (fun b => (s.buf.line b).ram) 0 s ∧ NoNewDen s := by
  obtain ⟨hrow, hx⟩ := h.med (by omega)
  refine ⟨⟨?_, ?_, ?_, ?_, ?_, ?_, ?_⟩, ?_, ?_⟩
  · refine Or.inl ⟨h.top.buf.1, Or.inr ⟨rfl, ?_⟩⟩
    rcases h.top.buf.2 with hx | ⟨hx, _⟩ <;> omega
  · exact Or.inl ⟨hrow, Or.inr ⟨rfl, hx⟩⟩
  · exact h.vsync (by omega)
  · exact (h.den0 (by omega)).1
  · exact (h.den1 hc).1
  · exact (h.den1 hc).2
  · intro b x _
    rfl
  · exact h.creat (by omega)
  · exact (h.den0 (by omega)).2

/-- The state between two frames: buffer 4 still holds `stale`. -/
def Between (stale : BitVec 8) (s : Filter) : Prop :=
  BufVert s.buf ∧ (s.buf.line 4).ram 0 = stale

theorem Between.step {stale : BitVec 8} (h : Between stale s) (hden : i.den = false) :
    Between stale (s.step i) := by
  refine ⟨h.1.step hden, ?_⟩
  rw [Filter.step_buf, ram_vert h.1 hden]
  exact h.2

theorem between_run {stale : BitVec 8} {ins : List DPi} (h : Between stale s)
    (hden : ∀ i ∈ ins, i.den = false) : Between stale (run Filter.step s ins) := by
  have hstep : ∀ s i, Between stale s → i.den = false → Between stale (Filter.step s i) :=
    fun s i h hden => h.step hden
  exact run_preserves_of (Between stale) hstep h hden

theorem top_run {ins : List DPi} (hden : ∀ i ∈ ins, i.den = false)
    (hsync : ∃ i ∈ ins, i.vsync = true ∧ i.hsync = true) : Top (run Filter.step s ins) := by
  obtain ⟨i, hi, hv, hh⟩ := hsync
  obtain ⟨pre, post, rfl⟩ := List.append_of_mem hi
  have hstep : ∀ s i, Top s → i.den = false → Top (Filter.step s i) :=
    fun s i h hden => h.step hden
  -- from the synchronisation on, whatever was before it
  rw [run_append, run_cons]
  refine run_preserves_of Top hstep (top_of_sync _ hv hh) fun j hj => ?_
  exact hden j (List.mem_append_right _ (List.mem_cons_of_mem i hj))

/-- The vertical interval and the blanking before the first line. -/
theorem interval_run (f : Frame) {stale : BitVec 8} (h : Between stale s) :
    BeforeLine f stale 0 (run Filter.step s f.interval) := by
  have hden : ∀ i ∈ f.interval, i.den = false := by
    intro i hi
    rcases List.mem_append.mp hi with hi | hi
    · exact f.vert_den i hi
    · rw [List.eq_of_mem_replicate hi]
      rfl
  -- buffer 4 keeps its word, the counters are cleared, and blanking runs
  -- data enable out
  have hbetween := between_run h hden
  have htop : Top (run Filter.step s f.vert) := top_run f.vert_den f.vert_sync
  have hlead : Leading (0 + f.lead) (run Filter.step (run Filter.step s f.vert)
      (List.replicate f.lead (blank f.before))) := by
    refine run_replicate Leading (fun k s hs => hs.step _) ⟨htop, ?_, ?_, ?_, ?_⟩ f.lead
    all_goals
      intro hc
      omega
  have hsix := f.six_le_lead
  rw [← run_append] at hlead
  obtain ⟨hturn, hnew⟩ := hlead.turning (by omega)
  exact ⟨_, ⟨fun l hl => absurd hl (Nat.not_lt_zero l), fun _ => hbetween.2⟩, hturn, hnew⟩

/-- After the last line. -/
theorem between_of_beforeLine {f : Frame} {stale : BitVec 8} (h : BeforeLine f stale 480 s) :
    Between (f.img 479 0) s := by
  obtain ⟨R, hstores, hturn, hnew⟩ := h
  refine ⟨?_, ?_⟩
  -- without another hsync the row is still 479
  · rcases hturn.bufTurns with ⟨hrow, _⟩ | ⟨m, hm, hrow, _⟩
    · exact Or.inr (Or.inl hrow)
    · obtain rfl : m = 479 := by omega
      exact Or.inl ⟨hrow, hnew.1, hturn.bufDen0, hturn.bufDen1⟩
  · rw [hturn.ram 4 0 (by decide)]
    exact hstores.line 479 (by decide) (by decide) 0 (by decide)

theorem frames_run (fs : List Frame) :
    Between (lastLeft fs) (run Filter.step Filter.reset (fs.flatMap Frame.inputs)) := by
  induction fs using List.reverseRecOn with
  | nil => exact ⟨BufTop.vert ⟨rfl, Or.inl rfl⟩, rfl⟩
  | append_singleton fs g ih =>
      -- all 480 lines of the last frame, from what the frames before it left
      have hline := (upTo_run g (interval_run g ih) 480 (le_refl _)).1
      have hlast : lastLeft (fs ++ [g]) = g.img 479 0 := by
        unfold lastLeft
        rw [List.getLast?_concat]
      rw [hlast, List.flatMap_append, List.flatMap_singleton, run_append, Frame.inputs, run_append]
      exact between_of_beforeLine hline

theorem beforeLines_beforeLine (fs : List Frame) (f : Frame) :
    BeforeLine f (lastLeft fs) 0 (beforeLines fs f) := by
  unfold beforeLines
  rw [run_append]
  exact interval_run f (frames_run fs)

/-! ## The window -/

/-- The column of the picture -/
theorem winCol_pred (n x : ℕ) (j : Fin 5) : winCol n (x + 4) j - 1 = x + j - 2 := by
  unfold winCol
  split <;> omega

theorem winCol_eq_zero {x : ℕ} {j : Fin 5} (h : winCol n (x + 4) j = 0) : 4 ≤ n ∧ x + j ≤ 1 := by
  unfold winCol at h
  split at h <;> omega

/-- Row 4 below row 1 begins with what the buffer held. -/
theorem shown_stale {x : ℕ} (h4 : 4 ≤ n) (hx : x ≤ 1) :
    shown R d n (lineOf n) (winCol n (x + 4) (0 : Fin 5)) = R (lineOf n) 0 := by
  have hcol : winCol n (x + 4) (0 : Fin 5) = 0 := by
    show (if n < 4 ∧ 4 ≤ x + 4 then max 1 (x + 4 + 0 - 5) else x + 4 + 0 - 5) = 0
    rw [if_neg (by omega)]
    omega
  rw [hcol, shown, if_neg (by omega)]
  rfl

/-- What the window shows is the picture, apart from the stale pixel. -/
theorem shown_eq {f : Frame} {stale : BitVec 8} (h : Stores f stale n R) (hn : n < 480)
    {x : ℕ} (i j : Fin 5)
    (hleft : rowLine n i = n → winCol n (x + 4) j = 0 → R (lineOf n) 0 = f.img n 0) :
    shown R (f.pixels n) n (lineOf (rowLine n i)) (winCol n (x + 4) j)
      = f.img (rowLine n i) (min (x + j - 2) 639) := by
  have hi := i.isLt
  have hpred := winCol_pred n x j
  by_cases hrow : rowLine n i = n
  -- the line that is coming in; column 0 is what its buffer showed before
  · rw [hrow]
    by_cases hcol : winCol n (x + 4) j = 0
    · rw [hcol] at hpred ⊢
      rw [shown, if_neg (by omega), ← hpred]
      exact hleft hrow hcol
    · rw [shown, if_pos ⟨rfl, by omega⟩, hpred]
      show f.img n (min (min (x + j - 2) 641) 639) = _
      congr 1
      omega
  · -- a line that is in its buffer already
    have hlt : rowLine n i < n := by
      unfold rowLine at hrow ⊢
      omega
    have hle : n ≤ rowLine n i + 4 := by
      unfold rowLine
      omega
    rw [shown_other (lineOf_ne hlt hle), hpred, h.line _ hlt (by omega) _ (by omega)]

/-- The window around row `n - 2`, column `x`. -/
theorem windowRight_iff {f : Frame} {stale : BitVec 8} (h : Stores f stale n R) (h2 : 2 ≤ n)
    (hn : n < 480) {x : ℕ} (hat : LineAt R (f.pixels n) n (x + 4) s) :
    WindowRight f.img (n - 2) x s ↔ (4 ≤ n → x ≤ 1 → R (lineOf n) 0 = f.img n 0) := by
  have hrow : ∀ i : Fin 5, min (n - 2 + i - 2) 479 = rowLine n i := by
    intro i
    unfold rowLine
    omega
  constructor
  · -- only the bottom left pixel tells: it shows what the buffer held
    intro hright h4 hx
    have hcell := hright 4 0
    have h4row : rowLine n 4 = n := by
      show min (n + 4 - 4) 479 = n
      omega
    rw [hat.mtx h2 (by omega), hrow 4, h4row, shown_stale h4 hx] at hcell
    rw [hcell]
    congr 1
    show min (x + 0 - 2) 639 = 0
    omega
  · intro hstale i j
    rw [hat.mtx h2 (by omega), hrow i]
    -- every other pixel is that of the picture anyway
    refine shown_eq h hn i j fun _ hcol => ?_
    obtain ⟨h4, hx⟩ := winCol_eq_zero hcol
    exact hstale h4 (by omega)

/-! ## Where the window is right -/

/-- The lines from line `n` on. -/
theorem Frame.upTo_split (f : Frame) (hn : n < 480) :
    ∃ rest, f.upTo 480 = f.upTo n ++ ((f.timing n).head (f.held n) ++
      ((f.timing n).body (f.img n) ++ rest)) := by
  have hmono : ∀ m, ∃ rest, f.upTo (n + 1 + m) = f.upTo (n + 1) ++ rest := by
    intro m
    induction m with
    | zero => exact ⟨[], (List.append_nil _).symm⟩
    | succ m ih =>
        obtain ⟨rest, hrest⟩ := ih
        refine ⟨rest ++ f.line (n + 1 + m), ?_⟩
        rw [← Nat.add_assoc, f.upTo_succ, hrest, List.append_assoc]
  obtain ⟨rest, hrest⟩ := hmono (479 - n)
  refine ⟨rest, ?_⟩
  rw [show n + 1 + (479 - n) = 480 by omega] at hrest
  rw [hrest, f.upTo_succ, Frame.line, List.append_assoc, List.append_assoc]

/-- Stale pixels. -/
theorem stale_eq {fs : List Frame} {f : Frame} {y : ℕ} (h : Stores f (lastLeft fs) (y + 2) R)
    (hy : 2 ≤ y) : R (lineOf (y + 2)) 0 = staleLeft fs f y := by
  unfold staleLeft
  by_cases h2 : y = 2
  -- buffer 4 has not been written in this frame yet
  · subst h2
    rw [if_pos rfl]
    exact h.stale (le_refl 4)
  · have hline : lineOf (y + 2) = lineOf (y - 3) := by
      refine Fin.ext ?_
      show (y + 2) % 5 = (y - 3) % 5
      omega
    rw [if_neg h2, hline, h.line (y - 3) (by omega) (by omega) 0 (by decide)]

/-- Cycle `k` of line `n`, counted from the first line. -/
def Frame.cycleOf (f : Frame) (n k : ℕ) : ℕ :=
  (f.upTo n).length + (((f.timing n).head (f.held n)).length + k)

theorem Frame.take_cycleOf (f : Frame) (hn : n < 480) (hk : k ≤ 646) :
    (f.upTo 480).take (f.cycleOf n k)
      = f.upTo n ++ ((f.timing n).head (f.held n) ++ ((f.timing n).body (f.img n)).take k) := by
  obtain ⟨rest, hsplit⟩ := f.upTo_split hn
  have hlen := length_body (f.timing n) (f.img n)
  have hback := (f.timing n).six_le_back
  unfold Frame.cycleOf
  rw [hsplit, List.take_length_add_append, List.take_length_add_append,
    List.take_append_of_le_length (by omega)]

theorem Frame.cycleOf_lt (f : Frame) (hn : n < 480) (hk : k < 646) :
    f.cycleOf n k < (f.upTo 480).length := by
  obtain ⟨rest, hsplit⟩ := f.upTo_split hn
  have hlen := length_body (f.timing n) (f.img n)
  have hback := (f.timing n).six_le_back
  unfold Frame.cycleOf
  rw [hsplit, List.length_append, List.length_append, List.length_append]
  omega

/-- Line `n` of a frame: what the buffers held before it, the state in each of its
cycles, and that no column is read before its cycle. -/
theorem line_reached (fs : List Frame) (f : Frame) (hpos : 0 < n) (hn : n < 480) :
    ∃ R, Stores f (lastLeft fs) n R ∧
      (∀ k ≤ 646, LineAt R (f.pixels n) n k (inLines fs f (f.cycleOf n k))) ∧
      ∀ k ≤ 646, 2 ≤ k → ∀ t < f.cycleOf n k, ¬ Reads (k - 1) n (inLines fs f t) := by
  obtain ⟨hbefore, halong⟩ := upTo_run f (beforeLines_beforeLine fs f) n (by omega)
  obtain ⟨R, hstores, hturn, hnew⟩ := hbefore
  obtain ⟨hstart, hhead⟩ := head_run hturn hnew hn (f.timing n) (f.held n) (f.pixels n)
  have hlen := length_body (f.timing n) (f.img n)
  have hback := (f.timing n).six_le_back
  refine ⟨R, hstores, ?_, ?_⟩
  · intro k hk
    -- the lines before, the head of the line, and its first `k` cycles
    unfold inLines
    rw [f.take_cycleOf hn hk, run_append, run_append]
    exact (body_run f hstart hn (by omega)).1
  · intro k hk hk2 t hlt
    have hnot : Along Filter.step (fun s _ => ¬ Reads (k - 1) n s) (beforeLines fs f)
        ((f.upTo 480).take (f.cycleOf n k)) := by
      rw [f.take_cycleOf hn hk, along_append, along_append]
      -- the lines before, the cycles up to the first pixel, and those left of the column
      refine ⟨along_mono _ ?_ halong, along_mono _ ?_ hhead,
        along_mono _ ?_ (body_along f hstart hn k)⟩
      · intro s _ hrow hread
        rw [hread.2] at hrow
        exact Nat.lt_irrefl _ hrow
      · rintro s _ (hrow | ⟨_, hx0 | hrow⟩) hread
        · rw [hread.2] at hrow
          exact Nat.lt_irrefl _ hrow
        · rw [hread.1] at hx0
          omega
        · omega
      · intro s _ hbody hread
        have hcol := hbody.2 hk2
        rw [hread.1] at hcol
        exact Nat.lt_irrefl _ hcol
    have hlength : t < ((f.upTo 480).take (f.cycleOf n k)).length := by
      rw [f.take_cycleOf hn hk, List.length_append, List.length_append, List.length_take]
      unfold Frame.cycleOf at hlt
      omega
    have hnext := along_take hnot hlength
    rwa [List.take_take, Nat.min_eq_left (Nat.le_of_lt hlt)] at hnext

/-- Column `x` of row `y` is first read while line `y + 2` comes in, and the
window after that cycle is right unless it is one of the two columns on the left
and the stale pixel differs. -/
theorem first_read (fs : List Frame) (f : Frame) {x y : ℕ} (hx : x < 640) (hy : y ≤ 477) :
    ∃ t, IsLeast {t | t < (f.upTo 480).length ∧ Reads (x + 2) (y + 2) (inLines fs f t)} t ∧
      (WindowRight f.img y x (inLines fs f (t + 1)) ↔
        (2 ≤ y → x ≤ 1 → staleLeft fs f y = f.img (y + 2) 0)) := by
  have hn : y + 2 < 480 := by omega
  obtain ⟨R, hstores, hat, hnot⟩ := line_reached fs f (Nat.succ_pos (y + 1)) hn
  refine ⟨f.cycleOf (y + 2) (x + 3), ⟨⟨f.cycleOf_lt hn (by omega), ?_, ?_⟩, ?_⟩, ?_⟩
  · -- `x + 3` cycles into the line the counters stand at column `x + 2`
    rw [(hat (x + 3) (by omega)).medX]
    omega
  · rw [(hat (x + 3) (by omega)).medRow]
  · -- and at no cycle before
    rintro t ⟨_, hreads⟩
    by_contra hlt
    rw [not_le] at hlt
    exact hnot (x + 3) (by omega) (by omega) t hlt hreads
  · -- one cycle later the window shows it
    have hright := windowRight_iff hstores (by omega) hn (hat (x + 4) (by omega))
    have hy2 : y + 2 - 2 = y := rfl
    rw [hy2] at hright
    refine hright.trans ?_
    constructor
    · intro h h2 hx1
      rw [← stale_eq hstores h2]
      exact h (by omega) hx1
    · intro h h4 hx1
      rw [stale_eq hstores (by omega)]
      exact h (by omega) hx1

/-- The window around row `y`, column `x` is right in the cycle after the counters
first read column `x + 2` on row `y + 2`. -/
def FirstWindowRight (fs : List Frame) (f : Frame) (y x : ℕ) : Prop :=
  ∃ t, IsLeast {t | t < (f.upTo 480).length ∧ Reads (x + 2) (y + 2) (inLines fs f t)} t ∧
    WindowRight f.img y x (inLines fs f (t + 1))

theorem firstWindowRight_iff_stale (fs : List Frame) (f : Frame) {x y : ℕ} (hx : x < 640)
    (hy : y ≤ 477) :
    FirstWindowRight fs f y x ↔ (2 ≤ y → x ≤ 1 → staleLeft fs f y = f.img (y + 2) 0) := by
  obtain ⟨t, hleast, hiff⟩ := first_read fs f hx hy
  refine Iff.trans ?_ hiff
  constructor
  · rintro ⟨t', hleast', hright⟩
    rwa [hleast.unique hleast']
  · intro hright
    exact ⟨t, hleast, hright⟩

/-- After any frames, the window is right if and only if it is not one of the two
on the left border of a row from 2 on, or the pixel left in the buffer of the row
that comes in happens to be the first pixel of that row. -/
theorem window_right_iff (fs : List Frame) (f : Frame) (y x : ℕ) (hy : y ≤ 477) (hx : x < 640) :
    FirstWindowRight fs f y x ↔ y < 2 ∨ 2 ≤ x ∨ staleLeft fs f y = f.img (y + 2) 0 := by
  rw [firstWindowRight_iff_stale fs f hx hy]
  constructor
  · intro h
    by_cases h2 : y < 2
    · exact Or.inl h2
    · by_cases hx2 : 2 ≤ x
      · exact Or.inr (Or.inl hx2)
      · exact Or.inr (Or.inr (h (by omega) (by omega)))
  · rintro (h | h | h) h2 hx1
    · omega
    · omega
    · exact h

/-- A black frame with one bright line. -/
def brightLine : Frame where
  vert := [⟨true, true, false, 0⟩]
  vert_den := by decide
  vert_sync := ⟨_, List.mem_singleton.mpr rfl, rfl, rfl⟩
  lead := 6
  six_le_lead := le_refl 6
  timing := fun _ => ⟨1, 6, 6, by decide, le_refl 6, le_refl 6⟩
  img := fun y _ => if y = 4 then 1 else 0
  before := 0

/-- The window of row 2 in column 2 is right in the first frame after reset. -/
theorem window_right_at_two : FirstWindowRight [] brightLine 2 2 :=
  (window_right_iff [] brightLine 2 2 (by decide) (by decide)).mpr (Or.inr (Or.inl (le_refl 2)))

/-- The one in column 0 is not: it still shows what the buffer held before. -/
theorem left_border_wrong : ¬ FirstWindowRight [] brightLine 2 0 := by
  intro h
  have hstale := (firstWindowRight_iff_stale [] brightLine (by decide) (by decide)).mp h
    (le_refl 2) (by decide)
  exact absurd hstale (by decide)

end SocRtl.Median
