import SocRtl.Bus.Backbone
import SocRtl.Xbar.LiteMux

/-!
# SocRtl.Xbar.LiteXbar — the writes through `axi_lite_xbar`

A demultiplexer for each master, a multiplexer for each slave, and a wire from
every demultiplexer to every multiplexer. The last port of a demultiplexer leads
to a slave that answers with a decode error; it is an input here, so it may do
anything, and so may the slaves.

The configuration is that of the backbone: two masters or more, so that a
multiplexer is its `gen_mux`, the latency mode `CUT_ALL_AX`, and FIFOs that do
not fall through.

Nothing in a slave says whose word it gets. `writes_arrive` states that it gets
whole writes all the same: its addresses, its data words and its responses are
those of the same masters in the same order, each master's part is what this
master sent to this slave, and each response comes back to the write it answers.
-/

namespace SocRtl.Xbar

open Handshake Fifo Tagged

/-! ## Model -/

/-- A master on the write channels. -/
structure WriteMst (AW W : Type) where
  awValid : Bool
  aw : AW
  wValid : Bool
  w : W
  bReady : Bool

/-- A slave on the write channels. -/
structure WriteSlv (B : Type) where
  awReady : Bool
  wReady : Bool
  bValid : Bool
  b : B

/-- The registers on the way of the writes: `NoSlvPorts` is `M`, `NoMstPorts`
is `N`, and `dm` and `mm` are `MaxMstTrans` and `MaxSlvTrans`. -/
structure XbarWrite (M N : ℕ) (dm mm : MaxTrans) (AW : Type) where
  demux : Fin M → DemuxWrite (N + 1) dm AW
  mux : Fin N → MuxWrite M mm AW

/-- What a clock edge samples: the masters, the slaves, and for each master the
slave that answers with an error. -/
structure XbarWriteIn (M N : ℕ) (AW W B : Type) where
  mst : Fin M → WriteMst AW W
  slv : Fin N → WriteSlv B
  err : Fin M → WriteSlv B

namespace XbarWrite

variable {M N : ℕ} [NeZero M] {dm mm : MaxTrans} {AW W B : Type}

/-- Reset, with `z` for the addresses that nothing reads. -/
def reset (z : AW) : XbarWrite M N dm mm AW :=
  ⟨fun _ => .reset z ⟨0, N.succ_pos⟩, fun _ => .reset z 0⟩

/-- What the multiplexer of slave `j` sees. -/
def muxIn (x : XbarWrite M N dm mm AW) (i : XbarWriteIn M N AW W B) (j : Fin N) :
    MuxWriteIn M AW W B where
  awValids a := (x.demux a).mstAwValids j.castSucc
  aws a := (x.demux a).slvAwChan.2
  wValids a := (x.demux a).mstWValids (i.mst a).wValid j.castSucc
  ws a := (i.mst a).w
  bReadies a := (x.demux a).mstBReadies (i.mst a).bReady j.castSucc
  awReady := (i.slv j).awReady
  wReady := (i.slv j).wReady
  bValid := (i.slv j).bValid
  b := (i.slv j).b

/-- What the demultiplexer of master `a` sees, with `dec` for the port that an
address selects. -/
def demuxIn (dec : AW → Fin (N + 1)) (x : XbarWrite M N dm mm AW) (i : XbarWriteIn M N AW W B)
    (a : Fin M) : DemuxWriteIn (N + 1) AW W B where
  awValid := (i.mst a).awValid
  aw := (i.mst a).aw
  awSelect := dec (i.mst a).aw
  wValid := (i.mst a).wValid
  w := (i.mst a).w
  bReady := (i.mst a).bReady
  awReadies := Fin.lastCases (i.err a).awReady
    fun j => (x.mux j).slvAwReadies (x.muxIn i j).awValids a
  wReadies := Fin.lastCases (i.err a).wReady fun j => (x.mux j).slvWReadies (i.slv j).wReady a
  bValids := Fin.lastCases (i.err a).bValid fun j => (x.mux j).slvBValids (i.slv j).bValid a
  bs := Fin.lastCases (i.err a).b fun j => (i.slv j).b

/-- One clock edge. -/
def step (dec : AW → Fin (N + 1)) (z : AW) (x : XbarWrite M N dm mm AW)
    (i : XbarWriteIn M N AW W B) : XbarWrite M N dm mm AW where
  demux a := (x.demux a).step (x.demuxIn dec i a)
  mux j := (x.mux j).step z (x.muxIn i j)

section

variable (dm mm) (dec : AW → Fin (N + 1)) (z : AW)

/-! What a run moves, at master `a` with the slave as a tag. -/

/-- The addresses accepted from master `a`. -/
def awFrom (a : Fin M) (ins : List (XbarWriteIn M N AW W B)) : List (Fin (N + 1) × AW) :=
  events (step dec z) (fun x i => (x.demux a).awTaken (x.demuxIn dec i a))
    (reset z : XbarWrite M N dm mm AW) ins

/-- The data words accepted from master `a`. -/
def wFrom (a : Fin M) (ins : List (XbarWriteIn M N AW W B)) : List (Fin (N + 1) × W) :=
  events (step dec z) (fun x i => (x.demux a).wMoved (x.demuxIn dec i a))
    (reset z : XbarWrite M N dm mm AW) ins

/-- The responses that master `a` takes. -/
def bTo (a : Fin M) (ins : List (XbarWriteIn M N AW W B)) : List (Fin (N + 1) × B) :=
  events (step dec z) (fun x i => (x.demux a).bMoved (x.demuxIn dec i a))
    (reset z : XbarWrite M N dm mm AW) ins

/-! The same at slave `j`, with the master as a tag. -/

/-- The addresses picked for slave `j`. -/
def awPicked (j : Fin N) (ins : List (XbarWriteIn M N AW W B)) : List (Fin M × AW) :=
  events (step dec z) (fun x i => (x.mux j).awTaken z (x.muxIn i j))
    (reset z : XbarWrite M N dm mm AW) ins

/-- The addresses that slave `j` takes. -/
def awTo (j : Fin N) (ins : List (XbarWriteIn M N AW W B)) : List AW :=
  events (step dec z) (fun x i => (x.mux j).awGiven (x.muxIn i j))
    (reset z : XbarWrite M N dm mm AW) ins

/-- The data words that slave `j` takes. -/
def wTo (j : Fin N) (ins : List (XbarWriteIn M N AW W B)) : List (Fin M × W) :=
  events (step dec z) (fun x i => (x.mux j).wMoved (x.muxIn i j))
    (reset z : XbarWrite M N dm mm AW) ins

/-- The responses of slave `j`. -/
def bFrom (j : Fin N) (ins : List (XbarWriteIn M N AW W B)) : List (Fin M × B) :=
  events (step dec z) (fun x i => (x.mux j).bMoved (x.muxIn i j))
    (reset z : XbarWrite M N dm mm AW) ins

end

end XbarWrite

/-! ## What a link carries -/

namespace XbarWrite

variable {M N : ℕ} {dm mm : MaxTrans} {AW W B : Type}
  {x : XbarWrite M N dm mm AW} {i : XbarWriteIn M N AW W B}

/-- The locks are in order, and the requests that an arbiter has locked are
still raised. -/
structure Inv (x : XbarWrite M N dm mm AW) : Prop where
  demux : ∀ a, (x.demux a).Locked
  mux : ∀ j, (x.mux j).Locked
  held : ∀ j a, (x.mux j).awArbiter.lockQ = true → (x.mux j).awArbiter.reqQ a = true →
    (x.demux a).mstAwValids j.castSucc = true

/-- The assumption of the arbiters is met. -/
theorem lockReq (h : Inv x) (i : XbarWriteIn M N AW W B) (j : Fin N) (g : Bool) :
    (x.mux j).awArbiter.LockReq ⟨(x.muxIn i j).awValids, g⟩ :=
  fun hlock a hreq => h.held j a hlock hreq

/-- The requests that an arbiter looks at are raised. -/
theorem valid_of_reqD (h : Inv x) {j : Fin N} {a : Fin M}
    (hreq : (x.mux j).awArbiter.reqD (x.muxIn i j).awValids a = true) :
    (x.demux a).mstAwValids j.castSucc = true := by
  unfold RrArb.reqD at hreq
  split at hreq
  · rename_i hlock
    exact h.held j a hlock hreq
  · exact hreq

theorem shown_of_valid {a : Fin M} {k : Fin (N + 1)} (h : (x.demux a).mstAwValids k = true) :
    (x.demux a).awShown = true ∧ (x.demux a).slvAwChan.1 = k := by
  simpa [DemuxWrite.mstAwValids] using h

variable (dec : AW → Fin (N + 1)) (z : AW)

theorem inv_reset [NeZero M] : Inv (reset z : XbarWrite M N dm mm AW) :=
  ⟨fun _ h => absurd h Bool.false_ne_true, fun _ => MuxWrite.locked_reset z 0,
    fun _ _ h => absurd h Bool.false_ne_true⟩

theorem inv_step [NeZero M] (h : Inv x) (i : XbarWriteIn M N AW W B) : Inv (x.step dec z i) := by
  refine ⟨fun a => DemuxWrite.locked_step (h.demux a) _,
    fun j => MuxWrite.locked_step z (h.mux j) _, fun j a hlock hreq => ?_⟩
  -- the arbiter had a request and gave no grant
  have hlock' : (x.mux j).awArbiter.reqO (x.muxIn i j).awValids = true ∧
      (x.mux j).awGrant (x.muxIn i j).awValids = false := by
    simpa [step, MuxWrite.step, RrArb.step] using hlock
  have hreq' : (x.mux j).awArbiter.reqD (x.muxIn i j).awValids a = true := hreq
  obtain ⟨hshown, hport⟩ := shown_of_valid (valid_of_reqD h hreq')
  have hready : (x.demux a).slvAwReady (x.demuxIn dec i a) = false := by
    have hnone : (x.mux j).slvAwReadies (x.muxIn i j).awValids a = false := by
      rw [MuxWrite.slvAwReadies, hlock'.2]
      exact gntBelow_false _ _ _
    rw [DemuxWrite.slvAwReady_eq, hport]
    simp [demuxIn, hnone]
  obtain ⟨hl, -, hchan⟩ := DemuxWrite.lock_step (h.demux a) hshown hready
  have hgoal : ((x.step dec z i).demux a).mstAwValids j.castSucc
      = (((x.demux a).step (x.demuxIn dec i a)).awShown &&
        ((x.demux a).step (x.demuxIn dec i a)).slvAwChan.1 == j.castSucc) := rfl
  rw [hgoal, DemuxWrite.awShown, mstAwValid, if_pos hl, hchan, hport]
  simp

/-- An address that leaves master `a` for slave `j` is the address picked for
slave `j` from master `a`. -/
theorem aw_link [NeZero M] (h : Inv x) (i : XbarWriteIn M N AW W B) (a : Fin M) (j : Fin N) :
    lane j.castSucc ((x.demux a).awGiven (x.demuxIn dec i a))
      = lane a ((x.mux j).awTaken z (x.muxIn i j)) := by
  rw [DemuxWrite.awGiven, lane_slot, MuxWrite.awTaken, lane_slot]
  have hshake := MuxWrite.aw_handshake (h.mux j) (lockReq h i j _) a
  -- seen from the demultiplexer, the handshake is one at input `a`
  have hleft : ((x.demux a).slvAwReady (x.demuxIn dec i a) &&
      decide ((x.demux a).slvAwChan.1 = j.castSucc))
      = ((x.muxIn i j).awValids a && (x.mux j).slvAwReadies (x.muxIn i j).awValids a) := by
    rw [DemuxWrite.slvAwReady_eq]
    by_cases hport : (x.demux a).slvAwChan.1 = j.castSucc
    · simp [muxIn, DemuxWrite.mstAwValids, hport, demuxIn]
    · simp [muxIn, DemuxWrite.mstAwValids, hport]
  rw [hleft, hshake]
  dsimp only
  by_cases hgrant : (x.mux j).awGrant (x.muxIn i j).awValids = true
  · by_cases hsel : (x.mux j).awSelect (x.muxIn i j).awValids = a
    · -- the data of the request picked are those of master `a`
      have hreq := MuxWrite.reqO_of_shown (h.mux j) (by
        rw [MuxWrite.awGrant_eq, Bool.and_eq_true] at hgrant
        exact hgrant.1)
      have hdata := ((x.mux j).awArbiter.picks hreq).2.1 z (x.muxIn i j).aws
      have hchan : (x.mux j).mstAwChan z (x.muxIn i j).awValids (x.muxIn i j).aws
          = (x.demux a).slvAwChan.2 := by
        rw [MuxWrite.mstAwChan, hdata]
        have hidx : (x.mux j).awArbiter.idxO (x.muxIn i j).awValids = a := hsel
        rw [hidx]
        rfl
      rw [hchan]
    · simp [hsel, slot]
  · simp [hgrant, slot]

/-- A data word from master `a` to slave `j`. -/
theorem w_link (x : XbarWrite M N dm mm AW) (i : XbarWriteIn M N AW W B) (a : Fin M) (j : Fin N) :
    lane j.castSucc ((x.demux a).wMoved (x.demuxIn dec i a))
      = lane a ((x.mux j).wMoved (x.muxIn i j)) := by
  rw [DemuxWrite.wMoved, lane_slot, MuxWrite.wMoved, lane_slot]
  by_cases hport : (x.demux a).wSelect = j.castSucc
  · by_cases hsel : (x.mux j).wSelect = a
    · -- both ends are open for this link: the same handshake
      have hpop : (x.demux a).wFifoPop (x.demuxIn dec i a) = (x.mux j).wFifoPop (x.muxIn i j) := by
        simp only [DemuxWrite.wFifoPop, DemuxWrite.slvWReady, MuxWrite.wFifoPop,
          MuxWrite.mstWValid, demuxIn, muxIn, hport, hsel, Fin.lastCases_castSucc,
          MuxWrite.slvWReadies, DemuxWrite.mstWValids, beq_self_eq_true, Bool.and_true]
        cases (x.mux j).wOpen <;> cases (x.demux a).wOpen <;> cases (i.mst a).wValid <;> simp
      rw [hpop]
      simp [hport, hsel, demuxIn, muxIn]
    · -- slave `j` reads from another master: it is not ready for this one
      have hclosed : (x.demux a).wFifoPop (x.demuxIn dec i a) = false := by
        simp [DemuxWrite.wFifoPop, DemuxWrite.slvWReady, demuxIn, hport, MuxWrite.slvWReadies, hsel]
      rw [hclosed, decide_eq_false (p := (x.mux j).wSelect = a) hsel, Bool.and_false]
      rfl
  · rw [decide_eq_false (p := (x.demux a).wSelect = j.castSucc) hport, Bool.and_false]
    by_cases hsel : (x.mux j).wSelect = a
    · -- master `a` writes to another slave: nothing is valid here
      have hclosed : (x.mux j).wFifoPop (x.muxIn i j) = false := by
        simp [MuxWrite.wFifoPop, MuxWrite.mstWValid, muxIn, hsel, DemuxWrite.mstWValids, hport]
      rw [hclosed]
      rfl
    · rw [decide_eq_false (p := (x.mux j).wSelect = a) hsel, Bool.and_false]
      rfl

/-- A response from slave `j` to master `a`. -/
theorem b_link (x : XbarWrite M N dm mm AW) (i : XbarWriteIn M N AW W B) (a : Fin M) (j : Fin N) :
    lane j.castSucc ((x.demux a).bMoved (x.demuxIn dec i a))
      = lane a ((x.mux j).bMoved (x.muxIn i j)) := by
  rw [DemuxWrite.bMoved, lane_slot, MuxWrite.bMoved, lane_slot]
  by_cases hport : (x.demux a).bSelect = j.castSucc
  · by_cases hsel : (x.mux j).bSelect = a
    · -- both ends are open for this link: the same handshake
      have hpop : (x.demux a).bFifoPop (x.demuxIn dec i a) = (x.mux j).bFifoPop (x.muxIn i j) := by
        simp only [DemuxWrite.bFifoPop, DemuxWrite.slvBValid, MuxWrite.bFifoPop,
          MuxWrite.mstBReady, demuxIn, muxIn, hport, hsel, Fin.lastCases_castSucc,
          MuxWrite.slvBValids, DemuxWrite.mstBReadies, beq_self_eq_true, Bool.and_true]
        cases (x.mux j).bFifo.isEmpty <;> cases (x.demux a).bFifo.isEmpty <;> simp
      rw [hpop]
      simp [hport, hsel, demuxIn, muxIn]
    · -- slave `j` answers another master
      have hclosed : (x.demux a).bFifoPop (x.demuxIn dec i a) = false := by
        simp [DemuxWrite.bFifoPop, DemuxWrite.slvBValid, demuxIn, hport, MuxWrite.slvBValids, hsel]
      rw [hclosed, decide_eq_false (p := (x.mux j).bSelect = a) hsel, Bool.and_false]
      rfl
  · rw [decide_eq_false (p := (x.demux a).bSelect = j.castSucc) hport, Bool.and_false]
    by_cases hsel : (x.mux j).bSelect = a
    · -- master `a` takes the answer of another slave
      have hclosed : (x.mux j).bFifoPop (x.muxIn i j) = false := by
        simp [MuxWrite.bFifoPop, MuxWrite.mstBReady, muxIn, hsel, DemuxWrite.mstBReadies, hport]
      rw [hclosed]
      rfl
    · rw [decide_eq_false (p := (x.mux j).bSelect = a) hsel, Bool.and_false]
      rfl

/-! ## Runs -/

section

variable (dm mm) [NeZero M]

/-- The addresses that leave master `a` for the multiplexers. -/
def awLeft (a : Fin M) (ins : List (XbarWriteIn M N AW W B)) : List (Fin (N + 1) × AW) :=
  events (step dec z) (fun x i => (x.demux a).awGiven (x.demuxIn dec i a))
    (reset z : XbarWrite M N dm mm AW) ins

theorem along_inv (ins : List (XbarWriteIn M N AW W B)) :
    Along (step dec z) (fun x _ => Inv x) (reset z : XbarWrite M N dm mm AW) ins :=
  along_of_preserved (step dec z) Inv (fun _ i h => inv_step dec z h i) (inv_reset z) ins

theorem aw_lane (a : Fin M) (j : Fin N) (ins : List (XbarWriteIn M N AW W B)) :
    lane j.castSucc (awLeft dm mm dec z a ins)
      = lane a (awPicked dm mm dec z j ins) := by
  rw [awLeft, awPicked, lane_events, lane_events]
  exact events_congr_along (along_mono (step dec z) (fun x i h => aw_link dec z h i a j)
    (along_inv dm mm dec z ins))

theorem w_lane (a : Fin M) (j : Fin N) (ins : List (XbarWriteIn M N AW W B)) :
    lane j.castSucc (wFrom dm mm dec z a ins) = lane a (wTo dm mm dec z j ins) := by
  rw [wFrom, wTo, lane_events, lane_events]
  exact events_congr_along (along_of_forall (step dec z) (fun x i => w_link dec x i a j) _ ins)

theorem b_lane (a : Fin M) (j : Fin N) (ins : List (XbarWriteIn M N AW W B)) :
    lane j.castSucc (bTo dm mm dec z a ins) = lane a (bFrom dm mm dec z j ins) := by
  rw [bTo, bFrom, lane_events, lane_events]
  exact events_congr_along (along_of_forall (step dec z) (fun x i => b_link dec x i a j) _ ins)

/-- What the demultiplexer of master `a` is fed along a run. -/
def demuxIns (a : Fin M) (ins : List (XbarWriteIn M N AW W B)) :
    List (DemuxWriteIn (N + 1) AW W B) :=
  trace (step dec z) (fun x i => x.demuxIn dec i a) (reset z : XbarWrite M N dm mm AW) ins

/-- What the multiplexer of slave `j` is fed along a run. -/
def muxIns (j : Fin N) (ins : List (XbarWriteIn M N AW W B)) : List (MuxWriteIn M AW W B) :=
  trace (step dec z) (fun x i => x.muxIn i j) (reset z : XbarWrite M N dm mm AW) ins

theorem events_demux {ε : Type}
    (obs : DemuxWrite (N + 1) dm AW → DemuxWriteIn (N + 1) AW W B → List ε)
    (a : Fin M) (ins : List (XbarWriteIn M N AW W B)) :
    events (step dec z) (fun x i => obs (x.demux a) (x.demuxIn dec i a))
        (reset z : XbarWrite M N dm mm AW) ins
      = events DemuxWrite.step obs (.reset z 0) (demuxIns dm mm dec z a ins) :=
  events_fed (π := fun x : XbarWrite M N dm mm AW => x.demux a) (fun _ _ => rfl) obs (reset z) ins

theorem events_mux {ε : Type} (obs : MuxWrite M mm AW → MuxWriteIn M AW W B → List ε)
    (j : Fin N) (ins : List (XbarWriteIn M N AW W B)) :
    events (step dec z) (fun x i => obs (x.mux j) (x.muxIn i j))
        (reset z : XbarWrite M N dm mm AW) ins
      = events (MuxWrite.step z) obs (.reset z 0) (muxIns dm mm dec z j ins) :=
  events_fed (π := fun x : XbarWrite M N dm mm AW => x.mux j) (fun _ _ => rfl) obs (reset z) ins

/-- What a master has sent: the data words that are not answered are in one
FIFO, the addresses without a data word are in the other or not pushed yet, and
those that have not left the demultiplexer are in the spill register. -/
theorem mst_order (a : Fin M) (ins : List (XbarWriteIn M N AW W B)) :
    let s := (run (step dec z) (reset z : XbarWrite M N dm mm AW) ins).demux a
    tags (awFrom dm mm dec z a ins)
        = tags (wFrom dm mm dec z a ins) ++ (s.wFifo.contents ++ tags s.unsent) ∧
      tags (wFrom dm mm dec z a ins) = tags (bTo dm mm dec z a ins) ++ s.bFifo.contents ∧
      awFrom dm mm dec z a ins = awLeft dm mm dec z a ins ++ s.awSpill.contents := by
  have horder := DemuxWrite.order_of_run (m := dm) z 0 (demuxIns dm mm dec z a ins)
  intro s
  have hs : s = run DemuxWrite.step (.reset z 0) (demuxIns dm mm dec z a ins) :=
    run_fed (π := fun x : XbarWrite M N dm mm AW => x.demux a) (fun _ _ => rfl) (reset z) ins
  obtain ⟨hw, hb, hsel, haw⟩ := horder
  rw [hs, bTo, wFrom, awFrom, awLeft, events_demux, events_demux, events_demux, events_demux]
  refine ⟨?_, hb, haw⟩
  rw [hsel, hw, List.append_assoc]

/-- What a slave has got: the masters of its data words and of its addresses are
the first of those pushed. -/
theorem slv_order (j : Fin N) (ins : List (XbarWriteIn M N AW W B)) :
    let s := (run (step dec z) (reset z : XbarWrite M N dm mm AW) ins).mux j
    tags (wTo dm mm dec z j ins) ++ s.wFifo.contents
        = tags (awPicked dm mm dec z j ins) ++ s.unsent ∧
      tags (wTo dm mm dec z j ins) = tags (bFrom dm mm dec z j ins) ++ s.bFifo.contents ∧
      (awPicked dm mm dec z j ins).map Prod.snd
        = awTo dm mm dec z j ins ++ s.awSpill.contents := by
  have horder := MuxWrite.order_of_run (m := mm) z z 0 (muxIns dm mm dec z j ins)
  intro s
  have hs : s = run (MuxWrite.step z) (.reset z 0) (muxIns dm mm dec z j ins) :=
    run_fed (π := fun x : XbarWrite M N dm mm AW => x.mux j) (fun _ _ => rfl) (reset z) ins
  obtain ⟨hw, hb, hsel, haw⟩ := horder
  rw [hs, bFrom, wTo, awPicked, awTo, events_mux, events_mux, events_mux, events_mux]
  exact ⟨hw.symm.trans hsel, hb, haw⟩

theorem decoded (a : Fin M) (ins : List (XbarWriteIn M N AW W B)) :
    ∀ p ∈ awFrom dm mm dec z a ins, p.1 = dec p.2 := by
  apply forall_mem_events
  apply along_of_forall
  intro x i p hp
  rw [DemuxWrite.awTaken] at hp
  cases h : (x.demuxIn dec i a).awValid && (x.demux a).awSpill.readyO with
  | false => rw [h] at hp; cases hp
  | true =>
      rw [h] at hp
      rw [List.mem_singleton.1 hp]
      rfl

/-- The addresses that slave `j` has taken, with their masters. -/
def awTaken (j : Fin N) (ins : List (XbarWriteIn M N AW W B)) : List (Fin M × AW) :=
  (awPicked dm mm dec z j ins).take (awTo dm mm dec z j ins).length

/-- What slave `j` has of the writes of master `a`. -/
structure Arrives (a : Fin M) (j : Fin N) (ins : List (XbarWriteIn M N AW W B)) : Prop where
  /-- A master's addresses select the ports that the decoder says. -/
  decoded : ∀ p ∈ awFrom dm mm dec z a ins, p.1 = dec p.2
  /-- A master gets responses to the writes it has sent, in their order. -/
  mst : tags (bTo dm mm dec z a ins) <+: tags (wFrom dm mm dec z a ins) ∧
    tags (wFrom dm mm dec z a ins) <+: tags (awFrom dm mm dec z a ins)
  /-- One order of the masters holds for all three channels of a slave. -/
  slv : ∃ order, tags (awTaken dm mm dec z j ins) <+: order ∧
    tags (wTo dm mm dec z j ins) <+: order ∧
    tags (bFrom dm mm dec z j ins) <+: tags (wTo dm mm dec z j ins)
  /-- The tags are no more than tags: these are the addresses the slave takes. -/
  taken : (awTaken dm mm dec z j ins).map Prod.snd = awTo dm mm dec z j ins
  /-- Address and data word of a write arrive together: the pairs from `a` are
  the first of the pairs that `a` has sent to `j`. -/
  writes : lane a (join (awTaken dm mm dec z j ins) (wTo dm mm dec z j ins))
    <+: lane j.castSucc (join (awFrom dm mm dec z a ins) (wFrom dm mm dec z a ins))
  /-- The response to a data word comes back to where the data word came from. -/
  answers : lane a (join (wTo dm mm dec z j ins) (bFrom dm mm dec z j ins))
    = lane j.castSucc (join (wFrom dm mm dec z a ins) (bTo dm mm dec z a ins))
  /-- No data word is on its way, and at most four addresses are. -/
  data : lane a (wTo dm mm dec z j ins) = lane j.castSucc (wFrom dm mm dec z a ins)
  few : (lane j.castSucc (awFrom dm mm dec z a ins)).length
    ≤ (lane a (awTaken dm mm dec z j ins)).length + 4

/-- Writes go through the crossbar whole, for any two or more masters and any
slaves: in every run, at every master and every slave. -/
theorem writes_arrive (ins : List (XbarWriteIn M N AW W B)) (a : Fin M) (j : Fin N) :
    Arrives dm mm dec z a j ins := by
  obtain ⟨hmaw, hmb, haw⟩ := mst_order dm mm dec z a ins
  obtain ⟨hsw, hsb, hpicked⟩ := slv_order dm mm dec z j ins
  have hmb : tags (bTo dm mm dec z a ins) <+: tags (wFrom dm mm dec z a ins) := ⟨_, hmb.symm⟩
  have hmw : tags (wFrom dm mm dec z a ins) <+: tags (awFrom dm mm dec z a ins) := ⟨_, hmaw.symm⟩
  have hsb : tags (bFrom dm mm dec z j ins) <+: tags (wTo dm mm dec z j ins) := ⟨_, hsb.symm⟩
  -- what the slave has taken comes first in what has been picked for it
  have hprefix : awTaken dm mm dec z j ins <+: awPicked dm mm dec z j ins := List.take_prefix _ _
  have htaken := (prefix_tags hprefix).trans ⟨_, hsw.symm⟩
  have hlane := aw_lane dm mm dec z a j ins
  refine ⟨decoded dm mm dec z a ins, ⟨hmb, hmw⟩, ⟨_, htaken, ⟨_, rfl⟩, hsb⟩, ?_, ?_, ?_,
    (w_lane dm mm dec z a j ins).symm, ?_⟩
  · rw [awTaken, List.map_take, hpicked, List.take_left]
  · -- at the slave addresses or data words may be ahead, at the master only addresses
    have halign := List.prefix_or_prefix_of_prefix htaken ⟨_, rfl⟩
    rw [lane_join a halign, lane_join j.castSucc (.inr hmw), w_lane]
    refine prefix_zip ?_ (List.prefix_refl _)
    rw [haw, lane_append, hlane]
    exact (prefix_lane a hprefix).trans (List.prefix_append _ _)
  · rw [lane_join a (.inr hsb), lane_join j.castSucc (.inr hmb), w_lane, b_lane]
  · have hlen := congrArg List.length hpicked
    rw [List.length_map, List.length_append] at hlen
    -- what is missing is in the two spill registers, of two entries each
    have hdemux := Spill.length_contents_le
      ((run (step dec z) (reset z : XbarWrite M N dm mm AW) ins).demux a).awSpill
    have hmux := Spill.length_contents_le
      ((run (step dec z) (reset z : XbarWrite M N dm mm AW) ins).mux j).awSpill
    have hone := length_lane_le j.castSucc
      ((run (step dec z) (reset z : XbarWrite M N dm mm AW) ins).demux a).awSpill.contents
    have htwo := length_lane_take_le a (show (awPicked dm mm dec z j ins).length
      ≤ (awTo dm mm dec z j ins).length + 2 by omega)
    rw [haw, lane_append, hlane, List.length_append, awTaken]
    omega

end

end XbarWrite

/-! ## The crossbar of the backbone -/

/-- `MaxMstTrans` and `MaxSlvTrans`. -/
def maxTrans : ℕ := 4

def fourTrans : MaxTrans := ⟨maxTrans, by decide, by decide⟩

instance : NeZero Bus.xbarIntNoSlave := ⟨by decide⟩

/-- `slv_aw_select` and `slv_ar_select` in the backbone: the last port is the one
that answers with an error. -/
def slvSelect (addr : BitVec 32) : Fin (Bus.xbarIntNoSlave + 1) :=
  if (Bus.axiDecode addr).decErrorO then Fin.last _
  else (Fin.ofNat Bus.xbarIntNoSlave (Bus.axiDecode addr).idxO.toNat).castSucc

/-- The CPU and the image channel both write to the first memory. -/
def bothWrite : XbarWriteIn 2 Bus.xbarIntNoSlave (BitVec 32) (BitVec 32) (BitVec 2) where
  mst a := ⟨true, if a.val = 0 then 0x10 else 0x20, true, if a.val = 0 then 1 else 2, true⟩
  slv _ := ⟨true, true, true, 0⟩
  err _ := ⟨true, true, true, 3⟩

theorem backbone_writes_arrive :
    XbarWrite.Arrives fourTrans fourTrans slvSelect 0 (1 : Fin 2) (0 : Fin Bus.xbarIntNoSlave)
      (List.replicate 8 bothWrite) :=
  XbarWrite.writes_arrive fourTrans fourTrans slvSelect 0 (List.replicate 8 bothWrite) 1 0

end SocRtl.Xbar
