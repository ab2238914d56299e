import SocRtl.Median.MedainBuffer5

/-!
# SocRtl.Median.LineBuffers — what a line buffer holds at the next hsync

The write strobe of the selected buffer is data enable or data enable two
cycles ago, so two more cycles are written after the line. The pixel counter
stands at the end of the line, where the address is 639, and the pixel input is
not delayed: what the input carries in blanking goes over the last pixel.

A data-enable cycle is one in which `rt_den` is high, be it the input's data
enable or the one made up below the picture.
-/

namespace SocRtl.Median

namespace MedainBuffer5

/-! ## Lines -/

/-- A cycle of data enable. -/
def Active (s : MedainBuffer5) (i : DPi) : Prop :=
  s.rtDen i = true ∧ i.vsync = false ∧ i.hsync = false

/-- A cycle of blanking. -/
def Blank (s : MedainBuffer5) (i : DPi) : Prop := s.rtDen i = false

/-- A line: after whatever came before, a cycle of hsync, blanking, 640 cycles
of data enable, and blanking up to the next hsync. -/
structure Line (hist : List DPi) (h : DPi) (lead line post : List DPi) : Prop where
  hsync : h.hsync = true
  lead_blank : Along step Blank (run step reset (hist ++ [h])) lead
  length : line.length = 640
  active : Along step Active (run step reset (hist ++ [h] ++ lead)) line
  post_blank : Along step (fun s i => Blank s i ∧ i.hsync = false)
    (run step reset (hist ++ [h] ++ lead ++ line)) post

/-- The pixel of data-enable cycle `x`. -/
def pixel (den : List DPi) (x : ℕ) : BitVec 8 := ((den[x]?).map DPi.data).getD 0

/-- At the next hsync the buffer selected for the line holds its pixels, and the
others hold what they held when it began. -/
def HoldsLine (hist : List DPi) (h : DPi) (lead line post : List DPi) : Prop :=
  ∀ b : Fin 5, ∀ x < 640,
    ((run step reset (hist ++ [h] ++ lead ++ line ++ post)).line b).ram x
      = if b.val = (run step reset (hist ++ [h] ++ lead)).row.rtYState then pixel line x
        else ((run step reset (hist ++ [h] ++ lead)).line b).ram x

/-! ## Before the line -/

theorem rtYState_lt_step {s : MedainBuffer5} (h : s.row.rtYState < 5) (i : DPi) :
    (s.step i).row.rtYState < 5 := by
  rw [step_row]
  unfold RowCnt.step
  split
  · exact Nat.succ_pos 4
  · split
    · show (if s.row.rtYState = 4 then 0 else (s.row.rtYState + 1) % 2 ^ 3) < 5
      split <;> omega
    · exact h

/-- One of the five buffers is selected in every reachable state. -/
theorem rtYState_lt (ins : List DPi) : (run step reset ins).row.rtYState < 5 :=
  run_preserves (fun s : MedainBuffer5 => s.row.rtYState < 5) (Nat.succ_pos 4)
    (fun _ i h => rtYState_lt_step h i) ins

/-- From hsync on the pixel counter stands at 0 until data enable. -/
theorem rtXcnt_lead {s : MedainBuffer5} (h : s.rtXcnt = 0) {lead : List DPi}
    (hblank : Along step Blank s lead) : (run step s lead).rtXcnt = 0 := by
  induction lead generalizing s with
  | nil => exact h
  | cons i lead ih =>
      refine ih ?_ hblank.2
      have hden : s.rtDen i = false := hblank.1
      rw [step_rtXcnt, hden, h]
      split <;> rfl

/-! ## During the line -/

/-- The state `k` cycles into a line that goes to buffer `y`. `px` are the
pixels and `R` is what the buffers held before. -/
structure Filling (y : Fin 5) (px : ℕ → BitVec 8) (R : Fin 5 → ℕ → BitVec 8) (k : ℕ)
    (s : MedainBuffer5) : Prop where
  x : s.rtXcnt = k
  state : s.row.rtYState = y.val
  den0 : 0 < k → s.rtDenDelay0 = true
  den1 : 1 < k → s.rtDenDelay1 = true
  ram : ∀ b, ∀ x < 640, (s.line b).ram x = if b = y ∧ x < k then px x else R b x

variable {y : Fin 5} {px : ℕ → BitVec 8} {R : Fin 5 → ℕ → BitVec 8} {k : ℕ} {s : MedainBuffer5}

/-- What one write does to the buffers. -/
theorem ram_of_write {i : DPi} (hstate : s.row.rtYState = y.val) {addr : ℕ}
    (haddr : s.ramAddr = addr) (hlt : addr < 640)
    (hden : (s.rtDen i || s.rtDenDelay1) = true) (b : Fin 5) (x : ℕ) :
    ((s.step i).line b).ram x = if b = y ∧ x = addr then i.data else (s.line b).ram x := by
  have hvld : s.lineWVld i b = decide (b = y) := by
    rw [lineWVld, hden, hstate, Bool.true_and]
    exact decide_eq_decide.mpr ⟨fun h => Fin.ext h.symm, fun h => congrArg Fin.val h.symm⟩
  rw [step_ram (haddr ▸ hlt), hvld, haddr]
  exact if_congr (and_congr_left' decide_eq_true_iff) rfl rfl

/-- Without a strobe the buffers stay as they are. -/
theorem ram_of_idle {i : DPi} (hden : (s.rtDen i || s.rtDenDelay1) = false) (b : Fin 5) :
    ((s.step i).line b).ram = (s.line b).ram := by
  have hvld : s.lineWVld i b = false := by
    rw [lineWVld, hden]
    rfl
  rw [line_of_unstrobed hvld]

theorem Filling.step (h : Filling y px R k s) {i : DPi} (hactive : Active s i) (hk : k < 640)
    (hpx : i.data = px k) : Filling y px R (k + 1) (s.step i) := by
  rcases hactive with ⟨hden, hvsync, hhsync⟩
  have haddr : s.ramAddr = k := by
    unfold ramAddr
    rw [h.x, if_neg (by omega)]
  constructor
  · -- the pixel counter
    rw [step_rtXcnt, hvsync, hhsync, hden, h.x]
    show (k + 1) % 2 ^ 10 = k + 1
    omega
  · rw [step_row, hhsync, RowCnt.step_low, h.state]
  · intro _
    exact hden
  · intro hlt
    exact h.den0 (by omega)
  · intro b x hx
    -- only the selected buffer is written, at the pixel counter
    rw [ram_of_write h.state haddr hk (by rw [hden]; rfl), h.ram b x hx, hpx]
    by_cases hb : b = y
    · simp only [hb, true_and]
      by_cases hxk : x = k
      · rw [if_pos hxk, if_pos (by omega), hxk]
      · rw [if_neg hxk]
        exact if_congr (by omega) rfl rfl
    · rw [if_neg fun h => hb h.1, if_neg fun h => hb h.1, if_neg fun h => hb h.1]

/-- The pixels of a stretch of the line. -/
theorem Filling.run {ins : List DPi} (h : Filling y px R k s)
    (hactive : Along MedainBuffer5.step Active s ins) (hlen : k + ins.length ≤ 640)
    (hpx : ∀ m i, ins[m]? = some i → i.data = px (k + m)) :
    Filling y px R (k + ins.length) (SocRtl.run MedainBuffer5.step s ins) := by
  induction ins generalizing k s with
  | nil => exact h
  | cons i ins ih =>
      rw [List.length_cons] at hlen
      have hstep := h.step hactive.1 (by omega) (hpx 0 i rfl)
      have hrest := ih hstep hactive.2 (by omega) (by
        intro m j hj
        have hlater := hpx (m + 1) j hj
        rwa [← Nat.add_assoc, Nat.add_right_comm] at hlater)
      rwa [Nat.add_right_comm, Nat.add_assoc, ← List.length_cons (a := i)] at hrest

/-! ## After the line -/

/-- What two cycles of blanking make of the pixels `px` in the buffer. -/
def late (px : ℕ → BitVec 8) : List DPi → ℕ → BitVec 8
  | [] => px
  | [i] => Function.update px 639 i.data
  | i :: j :: _ =>
      Function.update (Function.update px 639 i.data) (if i.vsync then 0 else 639) j.data

/-- The buffers when nothing is written any more. -/
theorem ram_of_quiet (hden0 : s.rtDenDelay0 = false) (hden1 : s.rtDenDelay1 = false)
    {post : List DPi} (hblank : Along step Blank s post) (b : Fin 5) :
    ((SocRtl.run step s post).line b).ram = (s.line b).ram := by
  induction post generalizing s with
  | nil => rfl
  | cons i post ih =>
      have hden : s.rtDen i = false := hblank.1
      rw [run_cons, ih hden hden0 hblank.2]
      exact ram_of_idle (by rw [hden, hden1]; rfl) b

/-- The two late writes. -/
theorem Filling.ram_post (h : Filling y px R 640 s) {post : List DPi}
    (hblank : Along MedainBuffer5.step (fun s i => Blank s i ∧ i.hsync = false) s post) (b : Fin 5)
    {x : ℕ} (hx : x < 640) :
    ((SocRtl.run MedainBuffer5.step s post).line b).ram x
      = if b = y then late px post x else R b x := by
  have hden0 := h.den0 (by decide)
  have hden1 := h.den1 (by decide)
  have hnow : (s.line b).ram x = if b = y then px x else R b x := by
    rw [h.ram b x hx]
    exact if_congr (and_iff_left hx) rfl rfl
  cases post with
  | nil => exact hnow
  | cons i post =>
      rcases hblank with ⟨⟨hdeni, hhsynci⟩, hblank⟩
      -- data enable is still high in the delayed strobe: the first late write
      have haddr : s.ramAddr = 639 := by
        unfold ramAddr
        rw [h.x, if_pos rfl]
      have hfirst : ((s.step i).line b).ram x
          = if b = y then Function.update px 639 i.data x else R b x := by
        rw [ram_of_write h.state haddr (by decide) (by rw [hden1, Bool.or_true]), hnow,
          Function.update_apply]
        by_cases hb : b = y
        · simp only [hb, true_and, if_true]
        · rw [if_neg fun h => hb h.1, if_neg hb, if_neg hb]
      cases post with
      | nil => exact hfirst
      | cons j post =>
          -- the second late write goes where the pixel counter stands now
          rcases hblank with ⟨⟨hdenj, hhsyncj⟩, hblank⟩
          have hx1 : (s.step i).rtXcnt = if i.vsync then 0 else 640 := by
            rw [step_rtXcnt, hhsynci, hdeni, h.x, Bool.or_false]
            rfl
          have hstate1 : (s.step i).row.rtYState = y.val := by
            rw [step_row, hhsynci, RowCnt.step_low, h.state]
          have haddr1 : (s.step i).ramAddr = if i.vsync then 0 else 639 := by
            unfold ramAddr
            rw [hx1]
            cases i.vsync <;> rfl
          have hden1' : (s.step i).rtDenDelay1 = true := hden0
          -- the strobe is low from here on
          have hquiet := ram_of_quiet (s := (s.step i).step j) hdenj hdeni
            (along_mono _ (fun _ _ h => h.1) hblank) b
          rw [run_cons, run_cons, hquiet, ram_of_write hstate1 haddr1 (by split <;> decide)
            (by rw [hden1', Bool.or_true]), hfirst]
          show _ = if b = y then Function.update (Function.update px 639 i.data)
            (if i.vsync then 0 else 639) j.data x else R b x
          by_cases hb : b = y
          · simp only [hb, true_and, if_true, Function.update_apply]
          · rw [if_neg fun h => hb h.1, if_neg hb, if_neg hb]

/-! ## When the buffer holds the line -/

/-- What blanking carries over the pixels is what they are: in the second cycle
after data enable the last pixel, if blanking is that long. Should vsync rise
before hsync does, it is the first pixel that the second cycle goes over. -/
def LateSame (line : List DPi) : List DPi → Prop
  | [] => True
  | [i] => i.data = pixel line 639
  | i :: j :: _ =>
      if i.vsync then i.data = pixel line 639 ∧ j.data = pixel line 0
      else j.data = pixel line 639

/-- A write makes two memories the same below `n` if it writes what the other
holds there, and elsewhere they were the same. -/
theorem update_same_iff {f g : ℕ → BitVec 8} {n a : ℕ} (ha : a < n) (v : BitVec 8) :
    (∀ x < n, Function.update f a v x = g x) ↔ v = g a ∧ ∀ x < n, x ≠ a → f x = g x := by
  rw [Function.forall_update_iff f fun x w => x < n → w = g x]
  constructor
  · rintro ⟨hv, hrest⟩
    exact ⟨hv ha, fun x hx hne => hrest x hne hx⟩
  · rintro ⟨hv, hrest⟩
    exact ⟨fun _ => hv, fun x hne hx => hrest x hx hne⟩

theorem lateSame_iff (line post : List DPi) :
    LateSame line post ↔ ∀ x < 640, late (pixel line) post x = pixel line x := by
  match post with
  | [] => exact ⟨fun _ _ _ => rfl, fun _ => trivial⟩
  | [i] =>
      show i.data = _ ↔ _
      rw [late, update_same_iff (by decide)]
      exact ⟨fun h => ⟨h, fun _ _ _ => rfl⟩, fun h => h.1⟩
  | i :: j :: post =>
      show (if i.vsync then i.data = pixel line 639 ∧ j.data = pixel line 0
        else j.data = pixel line 639) ↔ _
      rw [late, update_same_iff (by split <;> decide)]
      cases hv : i.vsync with
      | true =>
          simp only [if_true]
          constructor
          · -- vsync came early: the two late writes hit different pixels
            rintro ⟨hi, hj⟩
            refine ⟨hj, ?_⟩
            intro x hx _
            exact (update_same_iff (by decide) i.data).mpr ⟨hi, fun _ _ _ => rfl⟩ x hx
          · rintro ⟨hj, hrest⟩
            refine ⟨?_, hj⟩
            have hlast := hrest 639 (by decide) (by decide)
            rwa [Function.update_self] at hlast
      | false =>
          simp only [Bool.false_eq_true, if_false]
          constructor
          · -- both late writes hit the last pixel, and the second one stays
            intro hj
            refine ⟨hj, ?_⟩
            intro x _ hne
            rw [Function.update_of_ne hne]
          · exact fun h => h.1

/-- The state of the buffers at the next hsync. -/
theorem Line.ram_eq {hist lead line post : List DPi} {h : DPi} (hline : Line hist h lead line post)
    (b : Fin 5) {x : ℕ} (hx : x < 640) :
    ((SocRtl.run step reset (hist ++ [h] ++ lead ++ line ++ post)).line b).ram x
      = if b.val = (SocRtl.run step reset (hist ++ [h] ++ lead)).row.rtYState then
          late (pixel line) post x
        else ((SocRtl.run step reset (hist ++ [h] ++ lead)).line b).ram x := by
  -- the line starts at pixel 0, as hsync cleared the counter
  have hzero : (SocRtl.run step reset (hist ++ [h] ++ lead)).rtXcnt = 0 := by
    rw [run_append]
    refine rtXcnt_lead ?_ hline.lead_blank
    rw [run_concat, step_rtXcnt, hline.hsync, Bool.or_true]
    rfl
  have hstate := rtYState_lt (hist ++ [h] ++ lead)
  have hactive := hline.active
  have hpost := hline.post_blank
  rw [run_append] at hpost
  rw [run_append, run_append]
  generalize SocRtl.run step reset (hist ++ [h] ++ lead) = s at *
  have hbegin : Filling ⟨s.row.rtYState, hstate⟩ (pixel line) (fun b => (s.line b).ram) 0 s := by
    refine ⟨hzero, rfl, ?_, ?_, ?_⟩
    · intro hk
      exact absurd hk (by decide)
    · intro hk
      exact absurd hk (by decide)
    · intro b x _
      rw [if_neg fun h => Nat.not_lt_zero x h.2]
  -- the 640 pixels, then the two late writes
  have hend := hbegin.run hactive (Nat.le_of_eq ((Nat.zero_add _).trans hline.length)) (by
    intro m i hi
    rw [Nat.zero_add, pixel, hi]
    rfl)
  rw [Nat.zero_add, hline.length] at hend
  rw [hend.ram_post hpost b hx]
  exact if_congr Fin.ext_iff rfl rfl

/-- A buffer that holds the line after blanking had nothing else carried over it: the
buffer of the line is the one that is compared. -/
theorem Line.late_of_holdsLine {hist lead line post : List DPi} {h : DPi}
    (hline : Line hist h lead line post) (hholds : HoldsLine hist h lead line post) {x : ℕ}
    (hx : x < 640) : late (pixel line) post x = pixel line x := by
  have hstate := rtYState_lt (hist ++ [h] ++ lead)
  have hsel := hholds ⟨_, hstate⟩ x hx
  rw [hline.ram_eq _ hx, if_pos rfl, if_pos rfl] at hsel
  exact hsel

/-- At the next hsync the buffer holds the line if and only if blanking carries
the same over the pixels it is written over. -/
theorem holdsLine_iff (hist lead line post : List DPi) (h : DPi)
    (hline : Line hist h lead line post) :
    HoldsLine hist h lead line post ↔ LateSame line post := by
  rw [lateSame_iff]
  constructor
  · intro hholds x hx
    exact hline.late_of_holdsLine hholds hx
  · intro hsame b x hx
    rw [hline.ram_eq b hx]
    split
    · exact hsame x hx
    -- the other four buffers were not written and are compared with themselves
    · rfl

/-! ## Lines of the input

Above row 480 no data enable is made up, and `rt_den` is that of the input. -/

/-- The rows of the picture. -/
structure InPicture (s : MedainBuffer5) : Prop where
  row : s.row.rtYcnt < 480
  creatDen : s.newDen.creatDen = false

theorem InPicture.rtDen (h : InPicture s) (i : DPi) : s.rtDen i = i.den := by
  rw [MedainBuffer5.rtDen, h.creatDen, Bool.or_false]

theorem InPicture.step (h : InPicture s) {i : DPi} (hsync : i.hsync = false) :
    InPicture (s.step i) := by
  have hrow := h.row
  constructor
  · rw [step_row, hsync, RowCnt.step_low]
    exact hrow
  · rw [step_newDen]
    exact if_neg (by omega)

/-- Between two hsyncs the data enable of the input is what makes a line. -/
theorem along_rtDen (h : InPicture s) {ins : List DPi} (hsync : ∀ i ∈ ins, i.hsync = false) :
    Along MedainBuffer5.step (fun s i => s.rtDen i = i.den) s ins := by
  have hstep : ∀ (s : MedainBuffer5) (i : DPi), InPicture s → i.hsync = false →
      InPicture (s.step i) := fun _ _ h hi => h.step hi
  exact along_mono _ (fun _ i h => InPicture.rtDen h i)
    (along_preserves_of InPicture hstep h hsync)

theorem InPicture.run (h : InPicture s) {ins : List DPi} (hsync : ∀ i ∈ ins, i.hsync = false) :
    InPicture (SocRtl.run MedainBuffer5.step s ins) := by
  have hstep : ∀ (s : MedainBuffer5) (i : DPi), InPicture s → i.hsync = false →
      InPicture (s.step i) := fun _ _ h hi => h.step hi
  exact run_preserves_of InPicture hstep h hsync

/-- The first line after reset: any 640 pixels, then two cycles of blanking. -/
theorem line_first {line : List DPi} (hlen : line.length = 640)
    (hline : ∀ i ∈ line, i.den = true ∧ i.vsync = false ∧ i.hsync = false) (v w : BitVec 8) :
    Line [] ⟨false, true, false, 0⟩ [] line
      [⟨false, false, false, v⟩, ⟨false, false, false, w⟩] := by
  have hpic : InPicture (SocRtl.run step reset [⟨false, true, false, 0⟩]) := ⟨by decide, rfl⟩
  have hlow : ∀ i ∈ line, i.hsync = false := fun i hi => (hline i hi).2.2
  have hend := hpic.run hlow
  refine ⟨rfl, trivial, hlen, ?_, ?_⟩
  · have hden := along_rtDen hpic hlow
    have hins : Along step (fun _ i => i.den = true ∧ i.vsync = false ∧ i.hsync = false)
        (SocRtl.run step reset [⟨false, true, false, 0⟩]) line := along_of_inputs step hline
    refine along_mono step ?_ ((along_and step).mpr ⟨hden, hins⟩)
    rintro s i ⟨hden, hi, hsyncs⟩
    exact ⟨hden.trans hi, hsyncs⟩
  · rw [run_append]
    exact ⟨⟨hend.rtDen _, rfl⟩, ⟨(hend.step rfl).rtDen _, rfl⟩, trivial⟩

theorem pixel_replicate {n x : ℕ} (hx : x < n) (i : DPi) :
    pixel (List.replicate n i) x = i.data := by
  rw [pixel, List.getElem?_replicate, if_pos hx]
  rfl

/-- 640 pixels of value 7. -/
theorem line_sevens (v w : BitVec 8) :
    Line [] ⟨false, true, false, 0⟩ [] (List.replicate 640 ⟨false, false, true, 7⟩)
      [⟨false, false, false, v⟩, ⟨false, false, false, w⟩] := by
  refine line_first List.length_replicate ?_ v w
  intro i hi
  rw [List.eq_of_mem_replicate hi]
  exact ⟨rfl, rfl, rfl⟩

/-- Blanking that repeats the last pixel in the second cycle does no harm. -/
theorem holdsLine_repeated :
    HoldsLine [] ⟨false, true, false, 0⟩ [] (List.replicate 640 ⟨false, false, true, 7⟩)
      [⟨false, false, false, 0⟩, ⟨false, false, false, 7⟩] := by
  refine (holdsLine_iff _ _ _ _ _ (line_sevens 0 7)).mpr ?_
  show 7 = pixel _ 639
  rw [pixel_replicate (by decide)]

/-- Blanking that carries 0 overwrites the last pixel. -/
theorem blanking_overwrites_last_pixel :
    Line [] ⟨false, true, false, 0⟩ [] (List.replicate 640 ⟨false, false, true, 7⟩)
        [⟨false, false, false, 0⟩, ⟨false, false, false, 0⟩]
      ∧ ¬ HoldsLine [] ⟨false, true, false, 0⟩ [] (List.replicate 640 ⟨false, false, true, 7⟩)
        [⟨false, false, false, 0⟩, ⟨false, false, false, 0⟩] := by
  have hline := line_sevens 0 0
  refine ⟨hline, ?_⟩
  intro hholds
  have hsame := (lateSame_iff _ _).mpr fun x hx => hline.late_of_holdsLine hholds hx
  have hlast : 0 = pixel (List.replicate 640 ⟨false, false, true, 7⟩) 639 := hsame
  rw [pixel_replicate (by decide)] at hlast
  exact absurd hlast (by decide)

end MedainBuffer5

end SocRtl.Median
