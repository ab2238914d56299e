import SocRtl.Xbar.LiteXbar

/-!
# SocRtl.Xbar.LiteXbarRead — the reads through `axi_lite_xbar`

The wiring is that of the writes with two channels instead of three. A slave
gets its addresses in one order of the masters and gives its responses in the
same order: `reads_arrive` states that each response comes back to the master
and to the address that it answers. The configuration is that of the writes, with
two masters or more.
-/

namespace SocRtl.Xbar

open Handshake Fifo Tagged

/-! ## Model -/

/-- A master on the read channels. -/
structure ReadMst (AR : Type) where
  arValid : Bool
  ar : AR
  rReady : Bool

/-- A slave on the read channels. -/
structure ReadSlv (R : Type) where
  arReady : Bool
  rValid : Bool
  r : R

/-- The registers on the way of the reads. -/
structure XbarRead (M N : ℕ) (dm mm : MaxTrans) (AR : Type) where
  demux : Fin M → DemuxRead (N + 1) dm AR
  mux : Fin N → MuxRead M mm AR

/-- What a clock edge samples. -/
structure XbarReadIn (M N : ℕ) (AR R : Type) where
  mst : Fin M → ReadMst AR
  slv : Fin N → ReadSlv R
  err : Fin M → ReadSlv R

namespace XbarRead

variable {M N : ℕ} [NeZero M] {dm mm : MaxTrans} {AR R : Type}

/-- Reset, with `z` for the addresses that nothing reads. -/
def reset (z : AR) : XbarRead M N dm mm AR :=
  ⟨fun _ => .reset z ⟨0, N.succ_pos⟩, fun _ => .reset z 0⟩

/-- What the multiplexer of slave `j` sees. -/
def muxIn (x : XbarRead M N dm mm AR) (i : XbarReadIn M N AR R) (j : Fin N) : MuxReadIn M AR R where
  arValids a := (x.demux a).mstArValids j.castSucc
  ars a := (x.demux a).slvArChan.2
  rReadies a := (x.demux a).mstRReadies (i.mst a).rReady j.castSucc
  arReady := (i.slv j).arReady
  rValid := (i.slv j).rValid
  r := (i.slv j).r

/-- What the demultiplexer of master `a` sees. -/
def demuxIn (dec : AR → Fin (N + 1)) (x : XbarRead M N dm mm AR) (i : XbarReadIn M N AR R)
    (a : Fin M) : DemuxReadIn (N + 1) AR R where
  arValid := (i.mst a).arValid
  ar := (i.mst a).ar
  arSelect := dec (i.mst a).ar
  rReady := (i.mst a).rReady
  arReadies := Fin.lastCases (i.err a).arReady
    fun j => (x.mux j).slvArReadies (x.muxIn i j).arValids a
  rValids := Fin.lastCases (i.err a).rValid fun j => (x.mux j).slvRValids (i.slv j).rValid a
  rs := Fin.lastCases (i.err a).r fun j => (i.slv j).r

/-- One clock edge. -/
def step (dec : AR → Fin (N + 1)) (z : AR) (x : XbarRead M N dm mm AR) (i : XbarReadIn M N AR R) :
    XbarRead M N dm mm AR where
  demux a := (x.demux a).step (x.demuxIn dec i a)
  mux j := (x.mux j).step z (x.muxIn i j)

/-! ## What a link carries -/

/-- The requests that an arbiter has locked are still raised. -/
structure Inv (x : XbarRead M N dm mm AR) : Prop where
  some : ∀ j, (x.mux j).arArbiter.LockedSome
  held : ∀ j a, (x.mux j).arArbiter.lockQ = true → (x.mux j).arArbiter.reqQ a = true →
    (x.demux a).mstArValids j.castSucc = true

variable {x : XbarRead M N dm mm AR} {i : XbarReadIn M N AR R}

omit [NeZero M] in
theorem lockReq (h : Inv x) (i : XbarReadIn M N AR R) (j : Fin N) (g : Bool) :
    (x.mux j).arArbiter.LockReq ⟨(x.muxIn i j).arValids, g⟩ :=
  fun hlock a hreq => h.held j a hlock hreq

omit [NeZero M] in
theorem valid_of_reqD (h : Inv x) {j : Fin N} {a : Fin M}
    (hreq : (x.mux j).arArbiter.reqD (x.muxIn i j).arValids a = true) :
    (x.demux a).mstArValids j.castSucc = true := by
  unfold RrArb.reqD at hreq
  split at hreq
  · rename_i hlock
    exact h.held j a hlock hreq
  · exact hreq

omit [NeZero M] in
theorem shown_of_valid {a : Fin M} {k : Fin (N + 1)} (h : (x.demux a).mstArValids k = true) :
    (x.demux a).arShown = true ∧ (x.demux a).slvArChan.1 = k := by
  simpa [DemuxRead.mstArValids, DemuxRead.arShown] using h

variable (dec : AR → Fin (N + 1)) (z : AR)

theorem inv_reset : Inv (reset z : XbarRead M N dm mm AR) :=
  ⟨fun _ h => absurd h Bool.false_ne_true, fun _ _ h => absurd h Bool.false_ne_true⟩

theorem inv_step (h : Inv x) (i : XbarReadIn M N AR R) : Inv (x.step dec z i) := by
  refine ⟨fun j => (x.mux j).arArbiter.lockedSome_step ⟨(x.muxIn i j).arValids, (x.mux j).arGrant⟩,
    fun j a hlock hreq => ?_⟩
  -- the arbiter had a request and gave no grant
  have hlock' : (x.mux j).arArbiter.reqO (x.muxIn i j).arValids = true
      ∧ (x.mux j).arGrant = false := by
    simpa [step, MuxRead.step, RrArb.step] using hlock
  have hreq' : (x.mux j).arArbiter.reqD (x.muxIn i j).arValids a = true := hreq
  obtain ⟨hshown, hport⟩ := shown_of_valid (valid_of_reqD h hreq')
  have hready : (x.demux a).slvArReady (x.demuxIn dec i a) = false := by
    have hnone : (x.mux j).slvArReadies (x.muxIn i j).arValids a = false := by
      rw [MuxRead.slvArReadies, hlock'.2]
      exact gntBelow_false _ _ _
    rw [DemuxRead.slvArReady, hport]
    simp [demuxIn, hnone]
  obtain ⟨hs, hchan⟩ := DemuxRead.shown_step hshown hready
  have hgoal : ((x.step dec z i).demux a).mstArValids j.castSucc
      = (((x.demux a).step (x.demuxIn dec i a)).arShown &&
        ((x.demux a).step (x.demuxIn dec i a)).slvArChan.1 == j.castSucc) := rfl
  rw [hgoal, hs, hchan, hport]
  simp

/-- An address that leaves master `a` for slave `j` is the address picked for
slave `j` from master `a`. -/
theorem ar_link (h : Inv x) (i : XbarReadIn M N AR R) (a : Fin M) (j : Fin N) :
    lane j.castSucc ((x.demux a).arGiven (x.demuxIn dec i a))
      = lane a ((x.mux j).arTaken z (x.muxIn i j)) := by
  rw [DemuxRead.arGiven, lane_slot, MuxRead.arTaken, lane_slot]
  have hshake := MuxRead.ar_handshake (h.some j) (lockReq h i j _) a
  -- seen from the demultiplexer, the handshake is one at input `a`
  have hleft : ((x.demux a).rFifoPush (x.demuxIn dec i a) &&
      decide ((x.demux a).slvArChan.1 = j.castSucc))
      = ((x.muxIn i j).arValids a && (x.mux j).slvArReadies (x.muxIn i j).arValids a) := by
    rw [DemuxRead.rFifoPush_eq]
    by_cases hport : (x.demux a).slvArChan.1 = j.castSucc
    · simp [muxIn, DemuxRead.mstArValids, DemuxRead.arShown, hport, demuxIn]
    · simp [muxIn, DemuxRead.mstArValids, hport]
  rw [hleft, hshake]
  dsimp only
  by_cases hpush : (x.mux j).rFifoPush (x.muxIn i j).arValids = true
  · by_cases hsel : (x.mux j).arSelect (x.muxIn i j).arValids = a
    · -- the data of the request picked are those of master `a`
      have hreq : (x.mux j).arArbiter.reqO (x.muxIn i j).arValids = true := by
        rw [MuxRead.rFifoPush_eq, Bool.and_eq_true] at hpush
        exact hpush.2
      have hdata := ((x.mux j).arArbiter.picks hreq).2.1 z (x.muxIn i j).ars
      have hchan : (x.mux j).mstArChan z (x.muxIn i j).arValids (x.muxIn i j).ars
          = (x.demux a).slvArChan.2 := by
        rw [MuxRead.mstArChan, hdata]
        have hidx : (x.mux j).arArbiter.idxO (x.muxIn i j).arValids = a := hsel
        rw [hidx]
        rfl
      rw [hchan]
    · simp [hsel, slot]
  · simp [hpush, slot]

omit [NeZero M] in
/-- A response from slave `j` to master `a`. -/
theorem r_link (x : XbarRead M N dm mm AR) (i : XbarReadIn M N AR R) (a : Fin M) (j : Fin N) :
    lane j.castSucc ((x.demux a).rMoved (x.demuxIn dec i a))
      = lane a ((x.mux j).rMoved (x.muxIn i j)) := by
  rw [DemuxRead.rMoved, lane_slot, MuxRead.rMoved, lane_slot]
  by_cases hport : (x.demux a).rSelect = j.castSucc
  · by_cases hsel : (x.mux j).rSelect = a
    · -- both ends are open for this link: the same handshake
      have hpop : (x.demux a).rFifoPop (x.demuxIn dec i a) = (x.mux j).rFifoPop (x.muxIn i j) := by
        simp only [DemuxRead.rFifoPop, DemuxRead.slvRValid, MuxRead.rFifoPop,
          MuxRead.mstRReady, demuxIn, muxIn, hport, hsel, Fin.lastCases_castSucc,
          MuxRead.slvRValids, DemuxRead.mstRReadies, beq_self_eq_true, Bool.and_true]
        cases (x.mux j).rFifo.isEmpty <;> cases (x.demux a).rFifo.isEmpty <;> simp
      rw [hpop]
      simp [hport, hsel, demuxIn, muxIn]
    · -- slave `j` answers another master
      have hclosed : (x.demux a).rFifoPop (x.demuxIn dec i a) = false := by
        simp [DemuxRead.rFifoPop, DemuxRead.slvRValid, demuxIn, hport, MuxRead.slvRValids, hsel]
      rw [hclosed, decide_eq_false (p := (x.mux j).rSelect = a) hsel, Bool.and_false]
      rfl
  · rw [decide_eq_false (p := (x.demux a).rSelect = j.castSucc) hport, Bool.and_false]
    by_cases hsel : (x.mux j).rSelect = a
    · -- master `a` takes the answer of another slave
      have hclosed : (x.mux j).rFifoPop (x.muxIn i j) = false := by
        simp [MuxRead.rFifoPop, MuxRead.mstRReady, muxIn, hsel, DemuxRead.mstRReadies, hport]
      rw [hclosed]
      rfl
    · rw [decide_eq_false (p := (x.mux j).rSelect = a) hsel, Bool.and_false]
      rfl

/-! ## Runs -/

section

variable (dm mm)

/-- The addresses accepted from master `a`. -/
def arFrom (a : Fin M) (ins : List (XbarReadIn M N AR R)) : List (Fin (N + 1) × AR) :=
  events (step dec z) (fun x i => (x.demux a).arTaken (x.demuxIn dec i a))
    (reset z : XbarRead M N dm mm AR) ins

/-- The addresses that leave master `a` for the multiplexers. -/
def arLeft (a : Fin M) (ins : List (XbarReadIn M N AR R)) : List (Fin (N + 1) × AR) :=
  events (step dec z) (fun x i => (x.demux a).arGiven (x.demuxIn dec i a))
    (reset z : XbarRead M N dm mm AR) ins

/-- The responses that master `a` takes. -/
def rTo (a : Fin M) (ins : List (XbarReadIn M N AR R)) : List (Fin (N + 1) × R) :=
  events (step dec z) (fun x i => (x.demux a).rMoved (x.demuxIn dec i a))
    (reset z : XbarRead M N dm mm AR) ins

/-- The addresses picked for slave `j`. -/
def arPicked (j : Fin N) (ins : List (XbarReadIn M N AR R)) : List (Fin M × AR) :=
  events (step dec z) (fun x i => (x.mux j).arTaken z (x.muxIn i j))
    (reset z : XbarRead M N dm mm AR) ins

/-- The addresses that slave `j` takes. -/
def arTo (j : Fin N) (ins : List (XbarReadIn M N AR R)) : List AR :=
  events (step dec z) (fun x i => (x.mux j).arGiven (x.muxIn i j))
    (reset z : XbarRead M N dm mm AR) ins

/-- The responses of slave `j`. -/
def rFrom (j : Fin N) (ins : List (XbarReadIn M N AR R)) : List (Fin M × R) :=
  events (step dec z) (fun x i => (x.mux j).rMoved (x.muxIn i j))
    (reset z : XbarRead M N dm mm AR) ins

/-- The addresses that slave `j` has taken, with their masters. -/
def arTaken (j : Fin N) (ins : List (XbarReadIn M N AR R)) : List (Fin M × AR) :=
  (arPicked dm mm dec z j ins).take (arTo dm mm dec z j ins).length

theorem ar_lane (a : Fin M) (j : Fin N) (ins : List (XbarReadIn M N AR R)) :
    lane j.castSucc (arLeft dm mm dec z a ins) = lane a (arPicked dm mm dec z j ins) := by
  have hinv : Along (step dec z) (fun x _ => Inv x) (reset z : XbarRead M N dm mm AR) ins :=
    along_of_preserved (step dec z) Inv (fun _ i h => inv_step dec z h i) (inv_reset z) ins
  rw [arLeft, arPicked, lane_events, lane_events]
  exact events_congr_along (along_mono (step dec z) (fun x i h => ar_link dec z h i a j) hinv)

theorem r_lane (a : Fin M) (j : Fin N) (ins : List (XbarReadIn M N AR R)) :
    lane j.castSucc (rTo dm mm dec z a ins) = lane a (rFrom dm mm dec z j ins) := by
  rw [rTo, rFrom, lane_events, lane_events]
  exact events_congr_along (along_of_forall (step dec z) (fun x i => r_link dec x i a j) _ ins)

/-- What the demultiplexer of master `a` is fed along a run. -/
def demuxIns (a : Fin M) (ins : List (XbarReadIn M N AR R)) : List (DemuxReadIn (N + 1) AR R) :=
  trace (step dec z) (fun x i => x.demuxIn dec i a) (reset z : XbarRead M N dm mm AR) ins

/-- What the multiplexer of slave `j` is fed along a run. -/
def muxIns (j : Fin N) (ins : List (XbarReadIn M N AR R)) : List (MuxReadIn M AR R) :=
  trace (step dec z) (fun x i => x.muxIn i j) (reset z : XbarRead M N dm mm AR) ins

theorem events_demux {ε : Type} (obs : DemuxRead (N + 1) dm AR → DemuxReadIn (N + 1) AR R → List ε)
    (a : Fin M) (ins : List (XbarReadIn M N AR R)) :
    events (step dec z) (fun x i => obs (x.demux a) (x.demuxIn dec i a))
        (reset z : XbarRead M N dm mm AR) ins
      = events DemuxRead.step obs (.reset z 0) (demuxIns dm mm dec z a ins) :=
  events_fed (π := fun x : XbarRead M N dm mm AR => x.demux a) (fun _ _ => rfl) obs (reset z) ins

theorem events_mux {ε : Type} (obs : MuxRead M mm AR → MuxReadIn M AR R → List ε)
    (j : Fin N) (ins : List (XbarReadIn M N AR R)) :
    events (step dec z) (fun x i => obs (x.mux j) (x.muxIn i j))
        (reset z : XbarRead M N dm mm AR) ins
      = events (MuxRead.step z) obs (.reset z 0) (muxIns dm mm dec z j ins) :=
  events_fed (π := fun x : XbarRead M N dm mm AR => x.mux j) (fun _ _ => rfl) obs (reset z) ins

/-- What a master has sent: its addresses have left the demultiplexer or are in
its spill register, and those that have left are answered or in its FIFO. -/
theorem mst_order (a : Fin M) (ins : List (XbarReadIn M N AR R)) :
    let s := (run (step dec z) (reset z : XbarRead M N dm mm AR) ins).demux a
    tags (arLeft dm mm dec z a ins) = tags (rTo dm mm dec z a ins) ++ s.rFifo.contents ∧
      arFrom dm mm dec z a ins = arLeft dm mm dec z a ins ++ s.arSpill.contents := by
  have horder := DemuxRead.order_of_run (m := dm) z 0 (demuxIns dm mm dec z a ins)
  intro s
  have hs : s = run DemuxRead.step (.reset z 0) (demuxIns dm mm dec z a ins) :=
    run_fed (π := fun x : XbarRead M N dm mm AR => x.demux a) (fun _ _ => rfl) (reset z) ins
  rw [hs, rTo, arFrom, arLeft, events_demux, events_demux, events_demux]
  exact horder

/-- What a slave has got: its addresses are with the slave or in the spill
register, and they are answered or in the FIFO. -/
theorem slv_order (j : Fin N) (ins : List (XbarReadIn M N AR R)) :
    let s := (run (step dec z) (reset z : XbarRead M N dm mm AR) ins).mux j
    tags (arPicked dm mm dec z j ins) = tags (rFrom dm mm dec z j ins) ++ s.rFifo.contents ∧
      (arPicked dm mm dec z j ins).map Prod.snd
        = arTo dm mm dec z j ins ++ s.arSpill.contents := by
  have horder := MuxRead.order_of_run (m := mm) z z 0 (muxIns dm mm dec z j ins)
  intro s
  have hs : s = run (MuxRead.step z) (.reset z 0) (muxIns dm mm dec z j ins) :=
    run_fed (π := fun x : XbarRead M N dm mm AR => x.mux j) (fun _ _ => rfl) (reset z) ins
  rw [hs, rFrom, arPicked, arTo, events_mux, events_mux, events_mux]
  exact horder

theorem decoded (a : Fin M) (ins : List (XbarReadIn M N AR R)) :
    ∀ p ∈ arFrom dm mm dec z a ins, p.1 = dec p.2 := by
  apply forall_mem_events
  apply along_of_forall
  intro x i p hp
  rw [DemuxRead.arTaken] at hp
  cases h : (x.demuxIn dec i a).arValid && (x.demux a).arSpill.readyO with
  | false => rw [h] at hp; cases hp
  | true =>
      rw [h] at hp
      rw [List.mem_singleton.1 hp]
      rfl

/-- What slave `j` has of the reads of master `a`. -/
structure Arrives (a : Fin M) (j : Fin N) (ins : List (XbarReadIn M N AR R)) : Prop where
  /-- A master's addresses select the ports that the decoder says. -/
  decoded : ∀ p ∈ arFrom dm mm dec z a ins, p.1 = dec p.2
  /-- A master gets responses to the reads it has sent, in their order. -/
  mst : tags (rTo dm mm dec z a ins) <+: tags (arFrom dm mm dec z a ins)
  /-- One order of the masters holds for both channels of a slave. -/
  slv : tags (rFrom dm mm dec z j ins) <+: tags (arTaken dm mm dec z j ins) ∨
    tags (arTaken dm mm dec z j ins) <+: tags (rFrom dm mm dec z j ins)
  /-- The tags are no more than tags: these are the addresses the slave takes. -/
  taken : (arTaken dm mm dec z j ins).map Prod.snd = arTo dm mm dec z j ins
  /-- The addresses from `a` are the first of those that `a` has sent to `j`. -/
  reads : lane a (arTaken dm mm dec z j ins) <+: lane j.castSucc (arFrom dm mm dec z a ins)
  /-- The response to an address comes back to where the address came from. -/
  answers : lane a (join (arTaken dm mm dec z j ins) (rFrom dm mm dec z j ins))
    <+: lane j.castSucc (join (arFrom dm mm dec z a ins) (rTo dm mm dec z a ins))
  /-- No response is on its way, and at most four addresses are. -/
  data : lane a (rFrom dm mm dec z j ins) = lane j.castSucc (rTo dm mm dec z a ins)
  few : (lane j.castSucc (arFrom dm mm dec z a ins)).length
    ≤ (lane a (arTaken dm mm dec z j ins)).length + 4

/-- Each response comes back to the read that it answers, for any two or more
masters and any slaves: in every run, at every master and every slave. -/
theorem reads_arrive (ins : List (XbarReadIn M N AR R)) (a : Fin M) (j : Fin N) :
    Arrives dm mm dec z a j ins := by
  obtain ⟨hmr, har⟩ := mst_order dm mm dec z a ins
  obtain ⟨hsr, hpicked⟩ := slv_order dm mm dec z j ins
  have hprefix : arTaken dm mm dec z j ins <+: arPicked dm mm dec z j ins := List.take_prefix _ _
  have hlane := ar_lane dm mm dec z a j ins
  have hslv := List.prefix_or_prefix_of_prefix ⟨_, hsr.symm⟩ (prefix_tags hprefix)
  have hmst : tags (rTo dm mm dec z a ins) <+: tags (arFrom dm mm dec z a ins) :=
    List.IsPrefix.trans ⟨_, hmr.symm⟩ (prefix_tags ⟨_, har.symm⟩)
  -- what the slave has taken comes first in what has been picked for it
  have hreads : lane a (arTaken dm mm dec z j ins)
      <+: lane j.castSucc (arFrom dm mm dec z a ins) := by
    rw [har, lane_append, hlane]
    exact (prefix_lane a hprefix).trans (List.prefix_append _ _)
  refine ⟨decoded dm mm dec z a ins, hmst, hslv, ?_, hreads, ?_,
    (r_lane dm mm dec z a j ins).symm, ?_⟩
  · rw [arTaken, List.map_take, hpicked, List.take_left]
  · rw [lane_join a hslv.symm, lane_join j.castSucc (.inr hmst), r_lane]
    exact prefix_zip hreads (List.prefix_refl _)
  · have hlen := congrArg List.length hpicked
    rw [List.length_map, List.length_append] at hlen
    -- what is missing is in the two spill registers, of two entries each
    have hdemux := Spill.length_contents_le
      ((run (step dec z) (reset z : XbarRead M N dm mm AR) ins).demux a).arSpill
    have hmux := Spill.length_contents_le
      ((run (step dec z) (reset z : XbarRead M N dm mm AR) ins).mux j).arSpill
    have hone := length_lane_le j.castSucc
      ((run (step dec z) (reset z : XbarRead M N dm mm AR) ins).demux a).arSpill.contents
    have htwo := length_lane_take_le a (show (arPicked dm mm dec z j ins).length
      ≤ (arTo dm mm dec z j ins).length + 2 by omega)
    rw [har, lane_append, hlane, List.length_append, arTaken]
    omega

end

end XbarRead

/-- The CPU and the image channel both read from the first memory. -/
def bothRead : XbarReadIn 2 Bus.xbarIntNoSlave (BitVec 32) (BitVec 32) where
  mst a := ⟨true, if a.val = 0 then 0x10 else 0x20, true⟩
  slv _ := ⟨true, true, 7⟩
  err _ := ⟨true, true, 0⟩

theorem backbone_reads_arrive :
    XbarRead.Arrives fourTrans fourTrans slvSelect 0 (1 : Fin 2) (0 : Fin Bus.xbarIntNoSlave)
      (List.replicate 8 bothRead) :=
  XbarRead.reads_arrive fourTrans fourTrans slvSelect 0 (List.replicate 8 bothRead) 1 0

end SocRtl.Xbar
