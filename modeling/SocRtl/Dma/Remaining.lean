import SocRtl.Dma.Channels

/-!
# SocRtl.Dma.Remaining — how long a job still takes

A job may be reconfigured while it runs, so a counter can stand beyond the new
end value. Both ends are tested with `>=`: from any state in which a beat is
offered the number of beats to come is a function of the two counters and the
end values, and it goes down by one with every handshake.
-/

namespace SocRtl.Dma

namespace ImpCh

/-! ## The measure -/

/-- A beat is being offered. -/
structure Busy (s : ImpCh) : Prop where
  processing : s.xtProcessing = true
  valid : s.xtAxiValid = true

/-- The handshakes still to come: the rest of this line, at least one, and the
lines below it. -/
def remaining (c : ImpCfg) (s : ImpCh) : ℕ :=
  max 1 (c.cnstPxlXEnd.toNat + 1 - s.xtXcnt.toNat)
    + (c.cnstPxlYEnd.toNat - s.xtYcnt.toNat) * (c.cnstPxlXEnd.toNat + 1)

theorem remaining_pos (c : ImpCfg) (s : ImpCh) : 0 < remaining c s := by
  unfold remaining
  omega

theorem xtXcntEnd_iff_le (s : ImpCh) (c : ImpCfg) :
    s.xtXcntEnd c = true ↔ c.cnstPxlXEnd.toNat ≤ s.xtXcnt.toNat := by
  have hend := c.cnstPxlXEnd.isLt
  rw [xtXcntEnd, decide_eq_true_iff, BitVec.le_def, BitVec.toNat_setWidth,
    Nat.mod_eq_of_lt (by omega)]

theorem xtYcntEnd_iff_le (s : ImpCh) (c : ImpCfg) :
    s.xtYcntEnd c = true ↔ c.cnstPxlYEnd.toNat ≤ s.xtYcnt.toNat := by
  have hend := c.cnstPxlYEnd.isLt
  rw [xtYcntEnd, decide_eq_true_iff, BitVec.le_def, BitVec.toNat_setWidth,
    Nat.mod_eq_of_lt (by omega)]

/-- A counter below an end value of 16 bits does not wrap. -/
theorem toNat_succ_of_lt {x : BitVec 32} {e : BitVec 16} (h : x.toNat < e.toNat) :
    (x + 1).toNat = x.toNat + 1 := by
  have he := e.isLt
  have hone : (1 : BitVec 32).toNat = 1 := rfl
  rw [BitVec.toNat_add, hone, Nat.mod_eq_of_lt (by omega)]

/-! ## One edge -/

/-- A stalled beat stays to be made. -/
theorem busy_stall {c : ImpCfg} {s : ImpCh} (h : Busy s) (htrg : s.xtAllProcTrg = false)
    {i : ImpChIn} (hready : i.ready = false) :
    Busy (s.step i) ∧ remaining c (s.step i) = remaining c s := by
  have hx : (s.step i).xtXcnt = s.xtXcnt := by simp [step, xtAck, htrg, hready]
  have hy : (s.step i).xtYcnt = s.xtYcnt := by simp [step, htrg, hready]
  refine ⟨⟨?_, valid_of_stall h.valid hready⟩, ?_⟩
  · simp [step, htrg, hready, h.processing]
  · unfold remaining
    rw [hx, hy]

/-- The cases of a handshake: the job ends, a line ends, or the line goes on. -/
theorem busy_handshake {c : ImpCfg} {s : ImpCh} (h : Busy s) (htrg : s.xtAllProcTrg = false)
    {i : ImpChIn} (hcfg : i.cfg = c) (hready : i.ready = true) :
    (remaining c s = 1 ∧ Idle (s.step i))
      ∨ (Busy (s.step i) ∧ remaining c (s.step i) + 1 = remaining c s) := by
  have hxiff := xtXcntEnd_iff_le s c
  have hyiff := xtYcntEnd_iff_le s c
  have hproc := h.processing
  have hvalid := h.valid
  cases hx : s.xtXcntEnd c with
  | true =>
      have hxle := hxiff.mp hx
      cases hy : s.xtYcntEnd c with
      | true =>
          -- the last word of the last line
          left
          have hyle := hyiff.mp hy
          refine ⟨?_, ?_, ?_⟩
          · unfold remaining
            rw [Nat.sub_eq_zero_of_le hyle, Nat.zero_mul]
            omega
          · simp [step, htrg, hcfg, hready, hx, hy]
          · simp [step, htrg, hcfg, hready, hx, hy]
      | false =>
          right
          -- the last word of a line that is not the last
          have hylt : s.xtYcnt.toNat < c.cnstPxlYEnd.toNat := by
            rw [← Nat.not_le, ← hyiff, hy]
            exact Bool.false_ne_true
          have hx' : (s.step i).xtXcnt = 0 := by
            simp [step, xtAck, htrg, hcfg, hready, hx, hy, hproc]
          have hy' : (s.step i).xtYcnt.toNat = s.xtYcnt.toNat + 1 := by
            rw [← toNat_succ_of_lt hylt]
            simp [step, htrg, hcfg, hready, hx, hy]
          refine ⟨⟨?_, ?_⟩, ?_⟩
          · simp [step, htrg, hcfg, hy, hproc]
          · simp [step, htrg, hcfg, hy, hvalid]
          · -- a whole line comes for the one left
            have hlines : c.cnstPxlYEnd.toNat - s.xtYcnt.toNat
                = c.cnstPxlYEnd.toNat - (s.xtYcnt.toNat + 1) + 1 := by omega
            have hzero : (0 : BitVec 32).toNat = 0 := rfl
            unfold remaining
            rw [hx', hy', hzero, hlines, Nat.add_mul]
            omega
  | false =>
      right
      -- within a line only the word counter moves
      have hxlt : s.xtXcnt.toNat < c.cnstPxlXEnd.toNat := by
        rw [← Nat.not_le, ← hxiff, hx]
        exact Bool.false_ne_true
      have hx' : (s.step i).xtXcnt.toNat = s.xtXcnt.toNat + 1 := by
        rw [← toNat_succ_of_lt hxlt]
        simp [step, xtAck, htrg, hcfg, hready, hx, hproc]
      have hy' : (s.step i).xtYcnt = s.xtYcnt := by simp [step, htrg, hcfg, hx]
      refine ⟨⟨?_, ?_⟩, ?_⟩
      · simp [step, htrg, hcfg, hx, hproc]
      · simp [step, htrg, hcfg, hx, hvalid]
      · unfold remaining
        rw [hx', hy']
        omega

/-! ## Runs -/

/-- A job with `k` handshakes to go: it offers a beat, or it is done. -/
def Left (c : ImpCfg) (k : ℕ) (s : ImpCh) : Prop :=
  (Busy s ∧ remaining c s = k) ∨ (k = 0 ∧ Idle s)

theorem Left.valid_iff {c : ImpCfg} {k : ℕ} {s : ImpCh} (h : Left c k s) :
    s.xtAxiValid = true ↔ 0 < k := by
  rcases h with ⟨hbusy, rfl⟩ | ⟨rfl, hidle⟩
  · exact ⟨fun _ => remaining_pos c s, fun _ => hbusy.valid⟩
  · rw [hidle.valid]
    exact ⟨fun h => Bool.noConfusion h, fun h => absurd h (Nat.lt_irrefl 0)⟩

/-- One edge of a job under a fixed configuration. -/
theorem left_step {c : ImpCfg} {k : ℕ} {s : ImpCh} (h : Left c k s)
    (htrg : s.xtAllProcTrg = false) {i : ImpChIn} (hcfg : i.cfg = c) :
    (s.beat i).length = min k i.ready.toNat ∧ Left c (k - i.ready.toNat) (s.step i) := by
  rcases h with ⟨hbusy, rfl⟩ | ⟨rfl, hidle⟩
  · have hpos := remaining_pos c s
    -- a busy channel handshakes in every ready cycle
    have hbeat : (s.beat i).length = i.ready.toNat := by
      unfold beat
      rw [hbusy.valid]
      cases i.ready <;> rfl
    cases hready : i.ready with
    | false =>
        rcases busy_stall (c := c) hbusy htrg hready with ⟨hbusy', hsame⟩
        rw [hbeat, hready]
        exact ⟨(Nat.min_zero _).symm, Or.inl ⟨hbusy', hsame⟩⟩
    | true =>
        rw [hbeat, hready]
        refine ⟨(Nat.min_eq_right hpos).symm, ?_⟩
        rcases busy_handshake hbusy htrg hcfg hready with ⟨hone, hidle'⟩ | ⟨hbusy', hless⟩
        · rw [hone]
          exact Or.inr ⟨rfl, hidle'⟩
        · exact Or.inl ⟨hbusy', (Nat.sub_eq_of_eq_add hless.symm).symm⟩
  · rw [beat_of_idle hidle, Nat.zero_min, Nat.zero_sub]
    exact ⟨rfl, Or.inr ⟨rfl, idle_step hidle htrg i⟩⟩

/-- Along a run every ready cycle is a handshake until none is left. -/
theorem left_run {c : ImpCfg} {k : ℕ} {s : ImpCh} (h : Left c k s) {ins : List ImpChIn}
    (hcfg : ∀ i ∈ ins, i.cfg = c) (hno : NoRestart s ins) :
    (addrs s ins).length = min k (readyCycles ins) ∧
      Left c (k - (addrs s ins).length) (run step s ins) := by
  induction ins generalizing s k with
  | nil => exact ⟨(Nat.min_zero k).symm, h⟩
  | cons i ins ih =>
      rcases left_step h hno.1 (hcfg i List.mem_cons_self) with ⟨hone, hleft⟩
      rcases ih hleft (fun j hj => hcfg j (List.mem_cons_of_mem i hj)) hno.2 with ⟨hrest, hend⟩
      have hlen : (addrs s (i :: ins)).length
          = (s.beat i).length + (addrs (s.step i) ins).length := List.length_append
      have hcycles : readyCycles (i :: ins) = readyCycles ins + i.ready.toNat := by
        unfold readyCycles
        rw [List.countP_cons]
        cases i.ready <;> rfl
      have hready := Bool.toNat_le i.ready
      refine ⟨by omega, ?_⟩
      -- what this edge took and what the rest takes add up
      have hk : k - (addrs s (i :: ins)).length
          = k - i.ready.toNat - (addrs (s.step i) ins).length := by omega
      rw [hk, run_cons]
      exact hend

end ImpCh

/-! ## The two channels -/

namespace Channel

variable {σ ι : Type} (K : Channel σ ι)

/-- From every state that a run from reset leads to and in which a beat is
offered, whatever the configurations on the way: as long as the configuration
is `c` and no start edge is acted upon, every ready cycle is a handshake until
`remaining` of them are made, and the valid output is high exactly until
then. -/
def EndsExactly : Prop :=
  ∀ (hist ins : List ι) (c : ImpCfg), (K.ch (K.after hist)).xtAxiValid = true →
    (∀ p ∈ ins, (K.port p).cfg = c) → K.NoRestart (K.after hist) ins →
    (K.addrs (K.after hist) ins).length
        = min (ImpCh.remaining c (K.ch (K.after hist))) (K.readyCycles ins) ∧
      ((K.ch (run K.step (K.after hist) ins)).xtAxiValid = true ↔
        (K.addrs (K.after hist) ins).length < ImpCh.remaining c (K.ch (K.after hist)))

theorem endsExactly : K.EndsExactly := by
  intro hist ins c hvalid hcfg hno
  -- valid says that a job is under way, since processing follows it
  have hbusy : ImpCh.Busy (K.ch (K.after hist)) :=
    ⟨(processing_eq_valid hist).trans hvalid, hvalid⟩
  rw [noRestart_iff] at hno
  rw [addrs_eq, readyCycles_eq, ch_run]
  have hcfg' : ∀ p ∈ ins.map K.port, p.cfg = c := by
    intro p hp
    rcases List.mem_map.mp hp with ⟨q, hq, rfl⟩
    exact hcfg q hq
  rcases ImpCh.left_run (Or.inl ⟨hbusy, rfl⟩) hcfg' hno with ⟨hcount, hleft⟩
  refine ⟨hcount, ?_⟩
  rw [hleft.valid_iff]
  exact Nat.sub_pos_iff_lt

end Channel

/-- In both channels a job ends after exactly the number of handshakes that
its counters and the configuration say, also when it was reconfigured on the
way. -/
theorem channels_end_exactly : rCh.EndsExactly ∧ wCh.EndsExactly :=
  ⟨rCh.endsExactly, wCh.endsExactly⟩

/-- A job of lines of eight words, which stands at word 3 of line 0 when the
lines are cut down to two words and the window to three lines. -/
def shrunkJob : List ImpChIn :=
  [⟨⟨8, 0, 9, 0, 0x1000, 32⟩, true, false⟩, ⟨⟨8, 0, 9, 0, 0x1000, 32⟩, false, false⟩]
    ++ List.replicate 3 ⟨⟨8, 0, 9, 0, 0x1000, 32⟩, false, true⟩

/-- The configuration that the rest of the job runs under. -/
def shrunkRest : List ImpChIn := List.replicate 9 ⟨⟨2, 0, 3, 0, 0x1000, 32⟩, false, true⟩

/-- It is beyond the new end of the line: one handshake ends the line, two
lines of two words follow. -/
theorem channels_end_exactly_shrunk :
    (rCh.addrs (rCh.after (shrunkJob.map rCh.offer)) (shrunkRest.map rCh.offer)).length = 5 ∧
      (wCh.addrs (wCh.after (shrunkJob.map wCh.offer)) (shrunkRest.map wCh.offer)).length = 5 := by
  have hcfg : ∀ i ∈ shrunkRest, i.cfg = ⟨2, 0, 3, 0, 0x1000, 32⟩ := by
    intro i hi
    rw [List.eq_of_mem_replicate hi]
  constructor
  · refine (channels_end_exactly.1 (shrunkJob.map rCh.offer) _ ⟨2, 0, 3, 0, 0x1000, 32⟩
      (by decide) ?_ ?_).1
    · intro p hp
      rcases List.mem_map.mp hp with ⟨i, hi, rfl⟩
      exact hcfg i hi
    · unfold Channel.NoRestart
      decide
  · refine (channels_end_exactly.2 (shrunkJob.map wCh.offer) _ ⟨2, 0, 3, 0, 0x1000, 32⟩
      (by decide) ?_ ?_).1
    · intro p hp
      rcases List.mem_map.mp hp with ⟨i, hi, rfl⟩
      exact hcfg i hi
    · unfold Channel.NoRestart
      decide

end SocRtl.Dma
