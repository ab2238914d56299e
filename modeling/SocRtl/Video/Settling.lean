import SocRtl.Video.TimingGen

/-!
# SocRtl.Video.Settling — `timing_gen` from any registers

The counters compare with `>=` and come back to the origin from anywhere. That
edge sets both syncs, so counters and syncs are those of the raster from the
first return on. A data enable flag that was left high stays high until the
boundary that clears it: `h_de` within the first line, `v_de` within the first
frame (`Settling`). At the second return both have gone by.
-/

namespace SocRtl.Video

open Raster

namespace TimingGen

/-! ## What settles -/

/-- The counters are at the origin of the raster. -/
def AtOrigin (s : TimingGen) : Prop := s.hCnt = 0 ∧ s.vCnt = 0

instance (s : TimingGen) : Decidable s.AtOrigin := inferInstanceAs (Decidable (_ ∧ _))

variable {c : TimingCfg} {h : c.Legal} {s : TimingGen}

/-! ## Return to the origin -/

/-- The edge that reaches the origin ends a line and a frame. -/
theorem ends_of_atOrigin (hop : s.opStart = 0b111#3) (horigin : (s.step c).AtOrigin) :
    (c.hor h).total ≤ s.hCnt.toNat + 1 ∧ (c.ver h).total ≤ s.vCnt.toNat + 1 := by
  rcases counters_step h hop with ⟨hcnt, hvcnt⟩
  have hzero : (s.step c).hCnt.toNat = 0 := congrArg BitVec.toNat horigin.1
  have vzero : (s.step c).vCnt.toNat = 0 := congrArg BitVec.toNat horigin.2
  rw [hzero, Axis.next] at hcnt
  have hend : (c.hor h).total ≤ s.hCnt.toNat + 1 := by
    by_contra hlt
    rw [if_neg hlt] at hcnt
    omega
  refine ⟨hend, ?_⟩
  by_contra hlt
  rw [vzero, if_pos hend, Axis.next, if_neg hlt] at hvcnt
  omega

/-- An edge reaches the origin or comes nearer to it. -/
theorem nearer_step (h : c.Legal) (hop : s.opStart = 0b111#3) :
    (s.step c).AtOrigin ∨
      left (c.hor h) (c.ver h) (s.step c).hCnt.toNat (s.step c).vCnt.toNat
        < left (c.hor h) (c.ver h) s.hCnt.toNat s.vCnt.toNat := by
  rcases counters_step h hop with ⟨hcnt, hvcnt⟩
  have hnext := left_next (c.hor h) (c.ver h) s.hCnt.toNat s.vCnt.toNat
  rw [← hcnt, ← hvcnt] at hnext
  rcases hnext with ⟨hzero, vzero⟩ | hless
  · exact Or.inl ⟨BitVec.eq_of_toNat_eq hzero, BitVec.eq_of_toNat_eq vzero⟩
  · exact Or.inr (Nat.lt_of_succ_le (Nat.le_of_eq hless))

/-! ## After a return -/

/-- `n` cycles after a return to the origin. A data enable flag is high where it
should be; one that was high before lasts until it is cleared. -/
structure Settling (h : c.Legal) (n : ℕ) (s : TimingGen) : Prop where
  opStart : s.opStart = 0b111#3
  hCnt : s.hCnt.toNat = hPos (c.hor h) n
  vCnt : s.vCnt.toNat = vPos (c.hor h) (c.ver h) n
  htSync : s.htSync = true ↔ (c.hor h).InSync (hPos (c.hor h) n)
  vtSync : s.vtSync = true ↔ (c.ver h).InSync (vPos (c.hor h) (c.ver h) n)
  hDe_of_active : (c.hor h).InActive (hPos (c.hor h) n) → s.hDe = true
  hDe : s.hDe = true →
    (c.hor h).InActive (hPos (c.hor h) n) ∨ n < (c.hor h).start + (c.hor h).active
  vDe_of_active : (c.ver h).InActive (vPos (c.hor h) (c.ver h) n) → s.vDe = true
  vDe : s.vDe = true → (c.ver h).InActive (vPos (c.hor h) (c.ver h) n) ∨
    n / (c.hor h).total < (c.ver h).start + (c.ver h).active

theorem settling_of_atOrigin (hop : s.opStart = 0b111#3) (horigin : (s.step c).AtOrigin) :
    Settling h 0 (s.step c) := by
  rcases ends_of_atOrigin (h := h) hop horigin with ⟨hend, vend⟩
  have hht : (s.step c).htSync = true := (htSync_step h hop).mpr (Or.inl hend)
  have hvt : (s.step c).vtSync = true := (vtSync_step h hop).mpr (Or.inl ⟨vend, hend⟩)
  constructor
  · exact opStart_step hop
  · rw [horigin.1, hPos_zero]
    rfl
  · rw [horigin.2, vPos_zero]
    rfl
  · rw [hht, hPos_zero]
    exact ⟨fun _ => (c.hor h).inSync_zero, fun _ => rfl⟩
  · rw [hvt, vPos_zero]
    exact ⟨fun _ => (c.ver h).inSync_zero, fun _ => rfl⟩
  -- at the origin every flag that is high is left over
  · rw [hPos_zero]
    intro hactive
    exact absurd hactive (c.hor h).not_inActive_zero
  · intro _
    exact Or.inr (Nat.add_pos_right _ (c.hor h).active_pos)
  · rw [vPos_zero]
    intro hactive
    exact absurd hactive (c.ver h).not_inActive_zero
  · intro _
    rw [Nat.zero_div]
    exact Or.inr (Nat.add_pos_right _ (c.ver h).active_pos)

/-- `h_de` after one more cycle of the line. -/
theorem hDe_settling {n : ℕ} (hs : Settling h n s) (hde : (s.step c).hDe = true) :
    (c.hor h).InActive (hPos (c.hor h) (n + 1)) ∨
      n + 1 < (c.hor h).start + (c.hor h).active := by
  have hlt := hPos_lt (c.hor h) n
  have hfits := (c.hor h).fits
  rw [hDe_step h, hs.hCnt] at hde
  rw [hPos_succ, Axis.inActive_next _ hlt]
  rcases hde with hset | ⟨hon, hclear⟩
  · exact Or.inl (Or.inl hset)
  · rcases hs.hDe hon with hactive | hstale
    · exact Or.inl (Or.inr ⟨hactive, hclear⟩)
    -- still in the first line, before the boundary
    · have hline : hPos (c.hor h) n = n := Nat.mod_eq_of_lt (by omega)
      rw [hline] at hclear
      right
      omega

/-- `v_de` after one more cycle; only the end of a line changes it. -/
theorem vDe_settling {n : ℕ} (hs : Settling h n s) (hde : (s.step c).vDe = true) :
    (c.ver h).InActive (vPos (c.hor h) (c.ver h) (n + 1)) ∨
      (n + 1) / (c.hor h).total < (c.ver h).start + (c.ver h).active := by
  have hlt := hPos_lt (c.hor h) n
  have vlt := vPos_lt (c.hor h) (c.ver h) n
  have vfits := (c.ver h).fits
  rw [vDe_step h, hs.hCnt, hs.vCnt] at hde
  rw [vPos_succ]
  by_cases hend : (c.hor h).total ≤ hPos (c.hor h) n + 1
  · -- a line ends, and the rows move on
    have hlast : n % (c.hor h).total + 1 = (c.hor h).total := Nat.le_antisymm hlt hend
    rw [if_pos hend, Axis.inActive_next _ vlt, (succ_of_end (c.hor h).total_pos hlast).2]
    simp only [hend, and_true] at hde
    rcases hde with hset | ⟨hon, hclear⟩
    · exact Or.inl (Or.inl hset)
    · rcases hs.vDe hon with hactive | hstale
      · exact Or.inl (Or.inr ⟨hactive, hclear⟩)
      -- still in the first frame, before the boundary
      · have hframe : vPos (c.hor h) (c.ver h) n = n / (c.hor h).total :=
          Nat.mod_eq_of_lt (by omega)
        rw [hframe] at hclear
        right
        omega
  · -- within a line the flag keeps its row
    have hinside : n % (c.hor h).total + 1 ≠ (c.hor h).total :=
      fun hlast => hend (Nat.le_of_eq hlast.symm)
    rw [if_neg hend, (succ_of_inside (c.hor h).total_pos hinside).2]
    simp only [hend, and_false, false_or, not_false_eq_true, and_true] at hde
    exact hs.vDe hde

theorem settling_step {n : ℕ} (hs : Settling h n s) : Settling h (n + 1) (s.step c) := by
  have hlt := hPos_lt (c.hor h) n
  have vlt := vPos_lt (c.hor h) (c.ver h) n
  rcases positions_step hs.opStart hs.hCnt hs.vCnt with ⟨hcnt, hvcnt⟩
  rcases syncs_step hs.opStart hs.hCnt hs.vCnt hs.htSync hs.vtSync with ⟨hht, hvt⟩
  refine ⟨opStart_step hs.opStart, hcnt, hvcnt, hht, hvt, ?_, hDe_settling hs, ?_,
    vDe_settling hs⟩
  · rw [hDe_step h, hs.hCnt, hPos_succ, Axis.inActive_next _ hlt]
    rintro (hset | ⟨hactive, hclear⟩)
    · exact Or.inl hset
    · exact Or.inr ⟨hs.hDe_of_active hactive, hclear⟩
  · rw [vDe_step h, hs.hCnt, hs.vCnt, vPos_succ]
    by_cases hend : (c.hor h).total ≤ hPos (c.hor h) n + 1
    · rw [if_pos hend, Axis.inActive_next _ vlt]
      rintro (hset | ⟨hactive, hclear⟩)
      · exact Or.inl ⟨hset, hend⟩
      · exact Or.inr ⟨hs.vDe_of_active hactive, fun hboth => hclear hboth.1⟩
    · rw [if_neg hend]
      intro hactive
      exact Or.inr ⟨hs.vDe_of_active hactive, fun hboth => hend hboth.2⟩

/-- A frame later nothing is left of the flags before the return. -/
theorem Settling.shows {n : ℕ} (hs : Settling h n s)
    (hframe : (c.hor h).total * (c.ver h).total ≤ n) : Shows h s n := by
  have hpos := (c.hor h).total_pos
  have vpos := (c.ver h).total_pos
  have hfits := (c.hor h).fits
  have vfits := (c.ver h).fits
  have hline : (c.hor h).total ≤ n := Nat.le_trans (Nat.le_mul_of_pos_right _ vpos) hframe
  -- a whole frame of lines has passed, so no flag is left over
  have hlines : (c.ver h).total ≤ n / (c.hor h).total :=
    (Nat.le_div_iff_mul_le hpos).mpr (by rwa [Nat.mul_comm])
  refine ⟨hs.opStart, hs.hCnt, hs.vCnt, hs.htSync, hs.vtSync, ?_, ?_⟩
  · constructor
    · intro hde
      rcases hs.hDe hde with hactive | hstale
      · exact Or.inl hactive
      · omega
    · rintro (hactive | ⟨hzero, _⟩)
      · exact hs.hDe_of_active hactive
      · omega
  · constructor
    · intro hde
      rcases hs.vDe hde with hactive | hstale
      · exact hactive
      · omega
    · exact hs.vDe_of_active

/-! ## Any registers -/

theorem opStart_run (hop : s.opStart = 0b111#3) (n : ℕ) :
    (run step s (List.replicate n c)).opStart = 0b111#3 := by
  have hrun := run_replicate (fun _ (s : TimingGen) => s.opStart = 0b111#3) (i := c)
    (fun _ _ hs => opStart_step hs) (k := 0) hop n
  exact hrun

/-- A return by the edge of cycle `m` starts the settling. -/
theorem settling_run (hop : s.opStart = 0b111#3) {m : ℕ}
    (horigin : (run step s (List.replicate (m + 1) c)).AtOrigin) (n : ℕ) :
    Settling h n (run step s (List.replicate (m + 1 + n) c)) := by
  rw [List.replicate_succ', run_concat] at horigin
  have hstart := settling_of_atOrigin (h := h) (opStart_run hop m) horigin
  have hrun := run_replicate (Settling h) (fun _ _ hs => settling_step hs) hstart n
  rw [← List.replicate_append_replicate, run_append, List.replicate_succ', run_concat]
  rwa [Nat.zero_add] at hrun

/-- Whatever the registers hold, the counters return to the origin again and
again, and from the second return on the outputs are those of the raster. -/
theorem self_stabilising (h : c.Legal) (hop : s.opStart = 0b111#3) :
    (∀ n, ∃ m, n < m ∧ (run step s (List.replicate m c)).AtOrigin) ∧
    ∀ m₁ m₂, 0 < m₁ → m₁ < m₂ → (run step s (List.replicate m₁ c)).AtOrigin →
      (run step s (List.replicate m₂ c)).AtOrigin →
      ∀ m, m₂ ≤ m → Agrees h (run step s (List.replicate m c)) := by
  constructor
  · exact reaches_again (fun s : TimingGen => s.opStart = 0b111#3)
      (fun s => left (c.hor h) (c.ver h) s.hCnt.toNat s.vCnt.toNat)
      (fun _ hs => opStart_step hs) (fun _ hs => nearer_step h hs) hop
  · intro m₁ m₂ hpos hlt hfirst hsecond m hm
    rcases Nat.exists_eq_succ_of_ne_zero (Nat.ne_of_gt hpos) with ⟨m₁, rfl⟩
    have hset := settling_run (h := h) hop hfirst
    -- the second return is a whole number of frames after the first
    have hreturn := hset (m₂ - (m₁ + 1))
    rw [Nat.add_sub_cancel' (Nat.le_of_lt hlt)] at hreturn
    have hcnt : hPos (c.hor h) (m₂ - (m₁ + 1)) = 0 := by
      rw [← hreturn.hCnt, hsecond.1]
      rfl
    have hvcnt : vPos (c.hor h) (c.ver h) (m₂ - (m₁ + 1)) = 0 := by
      rw [← hreturn.vCnt, hsecond.2]
      rfl
    -- so a frame has passed, and whatever comes later is the raster
    have hframe := frame_le_of_origin _ _ (Nat.sub_ne_zero_of_lt hlt) hcnt hvcnt
    have hlater := hset (m - (m₁ + 1))
    rw [Nat.add_sub_cancel' (by omega)] at hlater
    exact (hlater.shows (by omega)).agrees

/-- Registers far out of range, with both data enable flags high. -/
def outOfRange : TimingGen := ⟨0b111, false, false, true, true, 0xFFFF, 0xFFFF⟩

/-- One cycle later they are back at the origin, and a frame later they have
settled. -/
theorem settles_outOfRange :
    Agrees legal_smallest (run step outOfRange (List.replicate 7 smallest)) :=
  (self_stabilising legal_smallest rfl).2 1 5 (by decide) (by decide) (by decide) (by decide) 7
    (by decide)

-- in between, data enable is high at the origin
example : (run step outOfRange (List.replicate 1 smallest)).AtOrigin ∧
    (run step outOfRange (List.replicate 1 smallest)).tDe = true := by decide

end TimingGen

end SocRtl.Video
