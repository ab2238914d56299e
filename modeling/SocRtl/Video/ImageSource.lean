import SocRtl.Video.TimingGen

/-!
# SocRtl.Video.ImageSource — the test pattern source `image_source`

The source reads its image buffer by a free counter: data enable advances it and
vertical sync clears it. Driven by `timing_gen`, the counter is the number of
active cycles that the frame has gone through (`Indexed`). At the first cycle of
a frame it still stands at the end of the frame before; vertical sync is high
there, and data enable is low until it is over.
-/

namespace SocRtl.Video

open Raster

/-! ## Model -/

/-- The registers of `image_source`. `rgb` is `DPo[23:0]`; a read past the end
of `img_buf` gives unknown bits, written `none`. `sync` is `DPo[26:24]`. -/
structure ImageSource where
  rgb : Option (BitVec 24)
  sync : Sync
  i : BitVec 32

namespace ImageSource

def reset : ImageSource := ⟨some 0, ⟨false, false, false⟩, 0⟩

/-- One clock edge. Of the two assignments to `i` the later one counts. -/
def step {width height : ℕ} (imgBuf : Vector (BitVec 24) (width * height)) (s : ImageSource)
    (synci : Sync) : ImageSource where
  rgb := if synci.den then imgBuf[s.i.toNat]? else s.rgb
  sync := synci
  i := if synci.den then s.i + 1 else if synci.vsync then 0 else s.i

end ImageSource

/-- `timing_gen` and the source that it drives. -/
structure VideoSource where
  gen : TimingGen
  src : ImageSource

namespace VideoSource

variable {width height : ℕ} (imgBuf : Vector (BitVec 24) (width * height))

def reset : VideoSource := ⟨.reset, .reset⟩

def step (s : VideoSource) (c : TimingCfg) : VideoSource :=
  ⟨s.gen.step c, s.src.step imgBuf s.gen.synco⟩

/-- The registers after `n` edges from reset under a fixed configuration. -/
def after (c : TimingCfg) (n : ℕ) : VideoSource := run (step imgBuf) reset (List.replicate n c)

theorem after_succ (c : TimingCfg) (n : ℕ) :
    after imgBuf c (n + 1) = step imgBuf (after imgBuf c n) c := by
  rw [after, List.replicate_succ', run_concat]
  rfl

/-- The source does not act on the generator. -/
theorem gen_after (c : TimingCfg) (n : ℕ) : (after imgBuf c n).gen = TimingGen.after c n := by
  induction n with
  | zero => rfl
  | succ n ih =>
      rw [after_succ, TimingGen.after_succ, ← ih]
      rfl

/-! ## The index -/

variable {imgBuf} {c : TimingCfg} {h : c.Legal} {s : VideoSource}

/-- Position `n` of the raster. The index is the number of active cycles before
it in its frame, but for the first cycle of the frame. -/
structure Indexed (h : c.Legal) (n : ℕ) (s : VideoSource) : Prop where
  gen : s.gen.Shows h n
  i : (hPos (c.hor h) n = 0 ∧ vPos (c.hor h) (c.ver h) n = 0) ∨
    s.src.i.toNat
      = activeBefore (c.hor h) (c.ver h) (hPos (c.hor h) n) (vPos (c.hor h) (c.ver h) n)

/-- The index can count the pixels of the buffer. -/
theorem size_lt (h : c.Legal) : (c.hor h).active * (c.ver h).active < 2 ^ 32 := by
  have hx : (c.hor h).active ≤ 2 ^ 16 - 1 := Nat.le_sub_one_of_lt c.horAddrTime.isLt
  have hy : (c.ver h).active ≤ 2 ^ 16 - 1 := Nat.le_sub_one_of_lt c.verAddrTime.isLt
  calc (c.hor h).active * (c.ver h).active
      ≤ (2 ^ 16 - 1) * (2 ^ 16 - 1) := Nat.mul_le_mul hx hy
    _ < 2 ^ 32 := by decide

/-- The index during data enable. -/
theorem Indexed.i_of_tDe {n : ℕ} (hs : Indexed h n s) (hde : s.gen.tDe = true) :
    s.src.i.toNat = (s.gen.vCnt.toNat - (c.ver h).start) * (c.hor h).active
        + (s.gen.hCnt.toNat - (c.hor h).start) ∧
      s.src.i.toNat < (c.hor h).active * (c.ver h).active := by
  have hactive := hs.gen.agrees.tDe.mp hde
  have hindex : s.src.i.toNat = (s.gen.vCnt.toNat - (c.ver h).start) * (c.hor h).active
      + (s.gen.hCnt.toNat - (c.hor h).start) := by
    rw [← activeBefore_of_inActive (c.hor h) (c.ver h) hactive.1 hactive.2, hs.gen.hCnt,
      hs.gen.vCnt]
    rcases hs.i with ⟨_, hzero⟩ | hi
    -- the first cycle of a frame is in vertical sync
    · have hv : (c.ver h).InActive s.gen.vCnt.toNat := hactive.2
      rw [hs.gen.vCnt, hzero] at hv
      exact absurd hv (c.ver h).not_inActive_zero
    · exact hi
  exact ⟨hindex, hindex ▸ index_lt_of_inActive (c.hor h) (c.ver h) hactive.1 hactive.2⟩

theorem indexed_step {n : ℕ} (hs : Indexed h n s) : Indexed h (n + 1) (s.step imgBuf c) := by
  have hlt := hPos_lt (c.hor h) n
  have vlt := vPos_lt (c.hor h) (c.ver h) n
  have hde := hs.gen.tDe_iff
  have hvs := hs.gen.vtSync
  refine ⟨TimingGen.shows_step hs.gen, ?_⟩
  rw [hPos_succ, vPos_succ]
  by_cases hframe : (c.hor h).total ≤ hPos (c.hor h) n + 1 ∧
      (c.ver h).total ≤ vPos (c.hor h) (c.ver h) n + 1
  · -- the frame is over: the next position is the origin
    left
    rw [if_pos hframe.1]
    exact ⟨if_pos hframe.1, if_pos hframe.2⟩
  · -- within a frame the index counts the pixels that have been shown
    right
    rw [activeBefore_next _ _ hlt hframe]
    show (if s.gen.tDe then s.src.i + 1 else if s.gen.vtSync then 0 else s.src.i).toNat = _
    cases hon : s.gen.tDe with
    | true =>
        rcases hs.i_of_tDe hon with ⟨hi, hsize⟩
        have hactive := hde.mp hon
        -- a pixel is shown: the index moves on and does not wrap
        have hsmall := size_lt h
        rw [if_pos rfl, if_pos hactive, activeBefore_of_inActive _ _ hactive.1 hactive.2,
          ← hs.gen.hCnt, ← hs.gen.vCnt, ← hi]
        have hone : (1 : BitVec 32).toNat = 1 := rfl
        rw [BitVec.toNat_add, hone, Nat.mod_eq_of_lt (by omega)]
    | false =>
        -- none is: the index stays, or vertical sync holds it at 0
        have hidle : ¬ ((c.hor h).InActive (hPos (c.hor h) n)
            ∧ (c.ver h).InActive (vPos (c.hor h) (c.ver h) n)) := by
          rw [← hde, hon]
          exact Bool.false_ne_true
        rw [if_neg Bool.false_ne_true, if_neg hidle, Nat.add_zero]
        cases hv : s.gen.vtSync with
        | true =>
            rw [if_pos rfl, activeBefore_of_inSync _ _ _ (hvs.mp hv)]
            rfl
        | false =>
            -- outside vertical sync the frame has begun
            have hsync : ¬ (c.ver h).InSync (vPos (c.hor h) (c.ver h) n) := by
              rw [← hvs, hv]
              exact Bool.false_ne_true
            rw [if_neg Bool.false_ne_true]
            rcases hs.i with ⟨_, hzero⟩ | hi
            · rw [hzero] at hsync
              exact absurd (c.ver h).inSync_zero hsync
            · exact hi

variable (h)

theorem indexed_after (imgBuf : Vector (BitVec 24) (width * height)) (n : ℕ) :
    Indexed h n (after imgBuf c (n + 3)) := by
  induction n with
  | zero =>
      refine ⟨?_, Or.inl ⟨hPos_zero _, vPos_zero _ _⟩⟩
      rw [gen_after]
      exact TimingGen.shows_after h 0
  | succ n ih =>
      rw [Nat.add_right_comm, after_succ]
      exact indexed_step ih

/-! ## The picture -/

/-- The place of the raster position in a picture of `width` pixels a row. -/
def place (h : c.Legal) (width : ℕ) (g : TimingGen) : ℕ :=
  (g.vCnt.toNat - (c.ver h).start) * width + (g.hCnt.toNat - (c.hor h).start)

/-- What a cycle of data enable, with registers `s`, leaves in registers `s'`:
the position is in the active rectangle, the index is its place in the buffer,
and the output is the pixel there with the flags of the position. -/
structure PixelOut (h : c.Legal) (imgBuf : Vector (BitVec 24) (width * height))
    (s s' : VideoSource) : Prop where
  hor : (c.hor h).InActive s.gen.hCnt.toNat
  ver : (c.ver h).InActive s.gen.vCnt.toNat
  i : s.src.i.toNat = place h width s.gen
  place_lt : place h width s.gen < width * height
  rgb : s'.src.rgb = some (imgBuf.get ⟨place h width s.gen, place_lt⟩)
  sync : s'.src.sync = ⟨false, false, true⟩

/-- Data enable is low until the raster has begun. -/
theorem three_le_of_tDe (h : c.Legal) (imgBuf : Vector (BitVec 24) (width * height)) {m : ℕ}
    (hde : (after imgBuf c m).gen.tDe = true) : 3 ≤ m := by
  rw [gen_after, TimingGen.tDe, Bool.and_eq_true] at hde
  rcases m with _ | _ | _ | m
  · exact absurd hde.1 Bool.false_ne_true
  · rw [(TimingGen.waits_one h).vDe] at hde
    exact absurd hde.1 Bool.false_ne_true
  · rw [(TimingGen.waits_two h).vDe] at hde
    exact absurd hde.1 Bool.false_ne_true
  · omega

/-- The source stays aligned with the generator: every cycle of data enable is
followed by the pixel at the raster position, and every cycle by its flags. -/
theorem stays_aligned (hwidth : width = c.horAddrTime.toNat)
    (hheight : height = c.verAddrTime.toNat)
    (imgBuf : Vector (BitVec 24) (width * height)) :
    (∀ m, (after imgBuf c m).gen.tDe = true →
      PixelOut h imgBuf (after imgBuf c m) (after imgBuf c (m + 1))) ∧
    (∀ m, (after imgBuf c (m + 1)).src.sync = (after imgBuf c m).gen.synco) ∧
    ∀ n, TimingGen.Agrees h (after imgBuf c (n + 3)).gen := by
  refine ⟨?_, ?_, fun n => (indexed_after h imgBuf n).gen.agrees⟩
  · intro m hde
    have hs := indexed_after h imgBuf (m - 3)
    rw [Nat.sub_add_cancel (three_le_of_tDe h imgBuf hde)] at hs
    have hagrees := hs.gen.agrees
    rcases hagrees.tDe.mp hde with ⟨hor, ver⟩
    rcases hs.i_of_tDe hde with ⟨hi, hlt⟩
    subst hwidth hheight
    -- the buffer is as large as the active rectangle, so the index is in range
    have hplace : place h c.horAddrTime.toNat (after imgBuf c m).gen
        < c.horAddrTime.toNat * c.verAddrTime.toNat := by
      rw [hi] at hlt
      exact hlt
    refine ⟨hor, ver, hi, hplace, ?_, ?_⟩
    · rw [after_succ]
      show (if (after imgBuf c m).gen.tDe then imgBuf[(after imgBuf c m).src.i.toNat]?
        else (after imgBuf c m).src.rgb) = _
      rw [if_pos hde, hi]
      exact Vector.getElem?_eq_getElem hplace
    · rw [after_succ]
      show (after imgBuf c m).gen.synco = _
      -- the flags are those of the same cycle, and no sync is high in it
      rcases hagrees.low_of_tDe hde with ⟨hht, hvt⟩
      rw [TimingGen.synco, hde, hht, hvt]
  · intro m
    rw [after_succ]
    rfl

/-- Two rows of two pixels, no porches. -/
def twoByTwo : TimingCfg := ⟨2, 1, 0, 0, 0, 0, 2, 1, 0, 0, 0, 0⟩

theorem legal_twoByTwo : twoByTwo.Legal := by
  constructor <;> decide

def fourPixels : Vector (BitVec 24) (2 * 2) := #v[10, 20, 30, 40]

/-- The last pixel of the third frame. -/
theorem stays_aligned_twoByTwo :
    (after fourPixels twoByTwo (2 * 9 + 8 + 3 + 1)).src.rgb = some 40 := by
  have hs := TimingGen.shows_after legal_twoByTwo (2 * 9 + 8)
  rw [← gen_after fourPixels] at hs
  have hplace : place legal_twoByTwo 2 (after fourPixels twoByTwo (2 * 9 + 8 + 3)).gen = 3 := by
    rw [place, hs.hCnt, hs.vCnt]
    rfl
  have hpixel : ∀ k, (hk : k < 2 * 2) → k = 3 → fourPixels.get ⟨k, hk⟩ = 40 := by
    rintro _ _ rfl
    rfl
  have hwidth : 2 = twoByTwo.horAddrTime.toNat := rfl
  have hheight : 2 = twoByTwo.verAddrTime.toNat := rfl
  have hout := (stays_aligned legal_twoByTwo hwidth hheight fourPixels).1 _
    (hs.tDe_iff.mpr (by decide))
  rw [hout.rgb, hpixel _ _ hplace]

end VideoSource

end SocRtl.Video
