import SocRtl.Lib.Crossing
import SocRtl.Xbar.LiteXbarRead

/-!
# SocRtl.Xbar.ReadDrain — no read stays in the crossbar

A read that a demultiplexer has handed over is in the FIFO of its master and in
that of its slave, and both FIFOs give their front out at the same edge. One
list of these reads has all FIFOs as its lanes (`Matched`), so that the FIFOs
cannot block each other.

`moves`: as long as something is in the crossbar, an edge at which masters and
slaves do not stall moves something. `reads_drain`: a bounded number of such
edges, whenever they come, brings every address to its slave and every response
to its master. As in `LiteXbar` there are two masters or more.
-/

namespace SocRtl.Xbar

open Handshake Fifo Tagged Crossing

/-- The columns without the last one. -/
theorem sum_length_cols {M N : ℕ} (G : List (Fin M × Fin (N + 1))) :
    ∑ j : Fin N, (lane j.castSucc (turn G)).length ≤ G.length := by
  rw [← length_turn, ← sum_length_lane (turn G), Fin.sum_univ_castSucc]
  exact Nat.le_add_right _ _

/-- A slave that does not stall, where `offered` says that it is offered an
address and `owes` that it has one which it has not answered: it answers, and
takes an address at the latest when it has answered all it has. -/
def ReadSlv.Serves {R : Type} (s : ReadSlv R) (offered owes : Prop) : Prop :=
  (owes → s.rValid = true) ∧ (offered → ¬ owes → s.arReady = true)

instance {R : Type} (s : ReadSlv R) (offered owes : Prop) [Decidable offered] [Decidable owes] :
    Decidable (s.Serves offered owes) :=
  inferInstanceAs (Decidable ((_ → _) ∧ (_ → _ → _)))

namespace XbarRead

variable {M N : ℕ} [NeZero M] {dm mm : MaxTrans} {AR R : Type}

/-! ## One order of the reads -/

/-- `G` is an order of the reads that are handed over and not answered. -/
structure Matched (x : XbarRead M N dm mm AR) (G : List (Fin M × Fin (N + 1))) : Prop where
  rows : ∀ a, (x.demux a).rFifo.contents = lane a G
  cols : ∀ j, (x.mux j).rFifo.contents = lane j.castSucc (turn G)

variable (dec : AR → Fin (N + 1)) (z : AR) {x : XbarRead M N dm mm AR}

/-- The reads handed over at an edge. -/
def handed (x : XbarRead M N dm mm AR) (i : XbarReadIn M N AR R) : List (Fin M × Fin (N + 1)) :=
  gather fun a => tags ((x.demux a).arGiven (x.demuxIn dec i a))

/-- The reads answered at an edge. -/
def answered (x : XbarRead M N dm mm AR) (i : XbarReadIn M N AR R) : List (Fin M × Fin (N + 1)) :=
  gather fun a => tags ((x.demux a).rMoved (x.demuxIn dec i a))

/-- What is handed to slave `j` is what its multiplexer takes. -/
theorem lane_handed (h : Inv x) (i : XbarReadIn M N AR R) (j : Fin N) :
    lane j.castSucc (turn (handed dec x i)) = tags ((x.mux j).arTaken z (x.muxIn i j)) := by
  apply lane_turn_gather
  · rw [length_tags]
    exact length_slot_le _ _
  · intro a
    rw [← length_lane, ← length_lane, ar_link dec z h i a j]

omit [NeZero M] in
theorem lane_answered (x : XbarRead M N dm mm AR) (i : XbarReadIn M N AR R) (j : Fin N) :
    lane j.castSucc (turn (answered dec x i)) = tags ((x.mux j).rMoved (x.muxIn i j)) := by
  apply lane_turn_gather
  · rw [length_tags]
    exact length_slot_le _ _
  · intro a
    rw [← length_lane, ← length_lane, r_link dec x i a j]

theorem matched_step (h : Inv x) {G : List (Fin M × Fin (N + 1))} (hG : Matched x G)
    (i : XbarReadIn M N AR R) :
    Matched (x.step dec z i) (G.diff (answered dec x i) ++ handed dec x i) := by
  refine ⟨?_, ?_⟩
  · -- by master: what the demultiplexer pops and pushes
    intro a
    apply lane_step
    · rw [answered, lane_gather, ← hG.rows]
      exact (x.demux a).rMoved_front _
    · rw [answered, handed, lane_gather, lane_gather, ← hG.rows]
      exact ((x.demux a).keeps (x.demuxIn dec i a)).r
  · -- by slave: the links turn it into what the multiplexer pops and pushes
    intro j
    rw [turn_append, turn_diff]
    apply lane_step
    · rw [lane_answered, ← hG.cols]
      exact (x.mux j).rMoved_front _
    · rw [lane_answered, lane_handed dec z h, ← hG.cols]
      exact ((x.mux j).keeps z (x.muxIn i j)).r

/-! ## What is on its way -/

/-- Masters and slaves that do not stall at an edge. The FIFO of a multiplexer
has an entry for every address it has picked and the slave has not answered;
those in its spill register have not reached the slave. -/
structure Serves (x : XbarRead M N dm mm AR) (i : XbarReadIn M N AR R) : Prop where
  mst : ∀ a, (x.demux a).rFifo.isEmpty = false → (i.mst a).rReady = true
  slv : ∀ j, (i.slv j).Serves ((x.mux j).arSpill.validO = true)
    ((x.mux j).arSpill.contents.length < (x.mux j).rFifo.contents.length)
  err : ∀ a, (i.err a).Serves ((x.demux a).mstArValids (Fin.last N) = true)
    (Fin.last N ∈ (x.demux a).rFifo.contents)

instance (x : XbarRead M N dm mm AR) (i : XbarReadIn M N AR R) : Decidable (Serves x i) :=
  decidable_of_iff (_ ∧ _ ∧ _) ⟨fun h => ⟨h.1, h.2.1, h.2.2⟩, fun h => ⟨h.mst, h.slv, h.err⟩⟩

/-- How many steps the reads in the crossbar still have to make: an address has
to leave the demultiplexer and the multiplexer, and a response comes back. -/
def work (x : XbarRead M N dm mm AR) : ℕ :=
  ∑ a, (3 * (x.demux a).arSpill.contents.length + (x.demux a).rFifo.contents.length)
    + ∑ j, (x.mux j).arSpill.contents.length

/-- The steps made at an edge. -/
def steps (x : XbarRead M N dm mm AR) (i : XbarReadIn M N AR R) : ℕ :=
  (handed dec x i).length + (answered dec x i).length
    + ∑ j, ((x.mux j).arGiven (x.muxIn i j)).length

theorem demux_work (s : DemuxRead (N + 1) dm AR) (i : DemuxReadIn (N + 1) AR R) :
    3 * (s.step i).arSpill.contents.length + (s.step i).rFifo.contents.length
        + (2 * (tags (s.arGiven i)).length + (tags (s.rMoved i)).length)
      = 3 * s.arSpill.contents.length + s.rFifo.contents.length + 3 * (s.arTaken i).length := by
  have har := congrArg List.length (s.keeps i).ar
  have hr := congrArg List.length (s.keeps i).r
  simp only [List.length_append, length_tags] at har hr ⊢
  omega

/-- The books of an edge: what is done is no longer to be done. -/
theorem work_step (h : Inv x) (i : XbarReadIn M N AR R) :
    (x.step dec z i).work + steps dec x i
      ≤ x.work + 3 * ∑ a, ((x.demux a).arTaken (x.demuxIn dec i a)).length := by
  -- an address moved on turns into one FIFO entry: two steps fewer
  have hdemux : ∑ a, (3 * ((x.step dec z i).demux a).arSpill.contents.length
        + ((x.step dec z i).demux a).rFifo.contents.length)
        + (2 * (handed dec x i).length + (answered dec x i).length)
      = ∑ a, (3 * (x.demux a).arSpill.contents.length + (x.demux a).rFifo.contents.length)
        + 3 * ∑ a, ((x.demux a).arTaken (x.demuxIn dec i a)).length := by
    rw [handed, answered, length_gather, length_gather, Finset.mul_sum, Finset.mul_sum,
      ← Finset.sum_add_distrib, ← Finset.sum_add_distrib, ← Finset.sum_add_distrib]
    exact Finset.sum_congr rfl fun a _ => demux_work (x.demux a) (x.demuxIn dec i a)
  -- a multiplexer holds an address more for each that is handed to it
  have hmux : ∑ j, ((x.step dec z i).mux j).arSpill.contents.length
        + ∑ j, ((x.mux j).arGiven (x.muxIn i j)).length
      = ∑ j, (x.mux j).arSpill.contents.length
        + ∑ j : Fin N, (lane j.castSucc (turn (handed dec x i))).length := by
    rw [← Finset.sum_add_distrib, ← Finset.sum_add_distrib]
    refine Finset.sum_congr rfl fun j _ => ?_
    have har := congrArg List.length ((x.mux j).keeps z (x.muxIn i j)).ar
    rw [List.length_append, List.length_append, List.length_map] at har
    rw [lane_handed dec z h, length_tags, Nat.add_comm]
    exact har.symm
  -- a multiplexer takes only what is handed to it
  have hhanded := sum_length_cols (handed dec x i)
  rw [work, work, steps]
  omega

/-! ## Something moves -/

omit [NeZero M] in
/-- A read in front of both its FIFOs is answered. -/
theorem answered_of_front {i : XbarReadIn M N AR R} {a : Fin M} {k : Fin (N + 1)}
    {rest : List (Fin (N + 1))} (hserves : Serves x i)
    (hrow : (x.demux a).rFifo.contents = k :: rest)
    (hvalid : (x.demuxIn dec i a).rValids k = true) : 0 < steps dec x i := by
  obtain ⟨hsome, hfront⟩ := FifoV3.front_of_contents hrow
  have hpop : (x.demux a).rFifoPop (x.demuxIn dec i a) = true := by
    have hready : (x.demuxIn dec i a).rReady = true := hserves.mst a hsome
    simp [DemuxRead.rFifoPop, DemuxRead.slvRValid, DemuxRead.rSelect, hsome, hfront, hvalid, hready]
  have hmem : (a, k) ∈ answered dec x i := by
    rw [← mem_lane, answered, lane_gather, DemuxRead.rMoved, tags_slot, hpop, DemuxRead.rSelect,
      hfront]
    exact List.mem_singleton_self k
  have hpos := List.length_pos_of_mem hmem
  rw [steps]
  omega

omit [NeZero M] in
/-- A slave that owes nothing takes the address it is offered. -/
theorem given_of_offered {i : XbarReadIn M N AR R} {j : Fin N} (hserves : Serves x i)
    (hvalid : (x.mux j).arSpill.validO = true)
    (hpaid : (x.mux j).rFifo.contents.length ≤ (x.mux j).arSpill.contents.length) :
    0 < steps dec x i := by
  -- `Serves` leaves a slave no reason to wait
  have hready : (x.muxIn i j).arReady = true := (hserves.slv j).2 hvalid (Nat.not_lt.2 hpaid)
  have hone : ((x.mux j).arGiven (x.muxIn i j)).length = 1 := by
    rw [MuxRead.arGiven, hvalid, hready]
    rfl
  have hle := Finset.single_le_sum (f := fun j => ((x.mux j).arGiven (x.muxIn i j)).length)
    (fun _ _ => Nat.zero_le _) (Finset.mem_univ j)
  rw [steps]
  omega

/-- Where nothing is ahead of it, an address leaves its demultiplexer, or that of
another master does for the same slave. -/
theorem handed_of_valid (h : Inv x) {i : XbarReadIn M N AR R} {a : Fin M} (hserves : Serves x i)
    (hvalid : (x.demux a).arSpill.validO = true) (hrow : (x.demux a).rFifo.contents = [])
    (hcol : ∀ j, (x.mux j).rFifo.contents = []) (hspill : ∀ j, (x.mux j).arSpill.contents = []) :
    0 < steps dec x i := by
  have hshown : (x.demux a).arShown = true := by
    rw [DemuxRead.arShown, FifoV3.not_full_of_nil hrow, hvalid]
    rfl
  -- handing an address over is one of the steps
  have hpos : 0 < (handed dec x i).length → 0 < steps dec x i := by
    rw [steps]
    omega
  apply hpos
  have hoffered : (x.demux a).mstArValids (x.demux a).slvArChan.1 = true := by
    simpa [DemuxRead.mstArValids, DemuxRead.arShown] using hshown
  rcases Fin.eq_castSucc_or_eq_last (x.demux a).slvArChan.1 with ⟨j, hport⟩ | hport
  · -- the arbiter of slave `j` has a request and gives a grant
    rw [hport] at hoffered
    have hvalids : (x.muxIn i j).arValids a = true := hoffered
    have hreq := RrArb.reqO_of_reqI (i := ⟨(x.muxIn i j).arValids, false⟩) (h.some j) hvalids
    have hready : (x.mux j).arSpill.readyO = true := by
      rw [Spill.ready_iff_length, hspill]
      exact Nat.zero_lt_two
    have hpush : (x.mux j).rFifoPush (x.muxIn i j).arValids = true := by
      rw [MuxRead.rFifoPush_eq, MuxRead.arGrant, FifoV3.not_full_of_nil (hcol j), hready]
      exact hreq
    have hle := length_lane_le j.castSucc (turn (handed dec x i))
    rw [lane_handed dec (x.demux a).slvArChan.2 h, length_tags, MuxRead.arTaken, hpush,
      length_turn] at hle
    exact hle
  · -- the slave for errors owes nothing and takes it
    have hready : (i.err a).arReady = true := by
      refine (hserves.err a).2 (hport ▸ hoffered) ?_
      rw [hrow]
      exact List.not_mem_nil
    have hpush : (x.demux a).rFifoPush (x.demuxIn dec i a) = true := by
      simp [DemuxRead.rFifoPush_eq, hshown, hport, demuxIn, hready]
    have hmem : (a, (x.demux a).slvArChan.1) ∈ handed dec x i := by
      rw [← mem_lane, handed, lane_gather, DemuxRead.arGiven, tags_slot, hpush]
      exact List.mem_singleton_self _
    exact List.length_pos_of_mem hmem

/-- There is no deadlock: as long as a read is in the crossbar, an edge without
stalls moves one. -/
theorem moves (h : Inv x) {G : List (Fin M × Fin (N + 1))} (hG : Matched x G)
    {i : XbarReadIn M N AR R} (hserves : Serves x i) (hwork : 0 < x.work) : 0 < steps dec x i := by
  by_cases hpaid : ∃ j, (x.mux j).arSpill.validO = true ∧
      (x.mux j).rFifo.contents.length ≤ (x.mux j).arSpill.contents.length
  · -- a slave with an address in front of it and nothing to answer
    obtain ⟨j, hvalid, hle⟩ := hpaid
    exact given_of_offered dec hserves hvalid hle
  -- otherwise every slave that is offered an address has one to answer
  have howes : ∀ j, (x.mux j).arSpill.contents = [] ∨
      (x.mux j).arSpill.contents.length < (x.mux j).rFifo.contents.length := by
    intro j
    cases hvalid : (x.mux j).arSpill.validO with
    | false => exact .inl (Spill.contents_of_not_valid hvalid)
    | true => exact .inr (Nat.lt_of_not_le fun hle => hpaid ⟨j, hvalid, hle⟩)
  cases G with
  | cons p G =>
      -- the oldest read is in front of both its FIFOs
      obtain ⟨a, k⟩ := p
      have hrow : (x.demux a).rFifo.contents = k :: lane a G := by
        rw [hG.rows, lane_cons_self]
      refine answered_of_front dec hserves hrow ?_
      rcases Fin.eq_castSucc_or_eq_last k with ⟨j, rfl⟩ | rfl
      · have hcol : (x.mux j).rFifo.contents = a :: lane j.castSucc (turn G) := by
          rw [hG.cols, turn_cons, Prod.swap_prod_mk, lane_cons_self]
        obtain ⟨hsome, hfront⟩ := FifoV3.front_of_contents hcol
        -- the slave owes it a response
        have hvalid : (i.slv j).rValid = true := by
          apply (hserves.slv j).1
          rcases howes j with hnil | hlt
          · rw [hnil, hcol]
            exact Nat.succ_pos _
          · exact hlt
        simp [demuxIn, MuxRead.slvRValids, MuxRead.rSelect, hsome, hfront, hvalid]
      · have hvalid : (i.err a).rValid = true := by
          apply (hserves.err a).1
          rw [hrow]
          exact List.mem_cons_self
        simp [demuxIn, hvalid]
  | nil =>
      -- nothing waits for a response: some address is still in a demultiplexer
      have hrow : ∀ a, (x.demux a).rFifo.contents = [] := fun a => hG.rows a
      have hcol : ∀ j, (x.mux j).rFifo.contents = [] := fun j => hG.cols j
      have hspill : ∀ j, (x.mux j).arSpill.contents = [] := by
        intro j
        rcases howes j with hnil | hlt
        · exact hnil
        · rw [hcol] at hlt
          exact absurd hlt (Nat.not_lt_zero _)
      have hsome : ∃ a, (x.demux a).arSpill.validO = true := by
        by_contra hnone
        have hdemux : ∀ a, (x.demux a).arSpill.contents = [] :=
          fun a => Spill.contents_of_not_valid
            (Bool.eq_false_of_not_eq_true fun hv => hnone ⟨a, hv⟩)
        simp [work, hrow, hspill, hdemux] at hwork
      obtain ⟨a, hvalid⟩ := hsome
      exact handed_of_valid dec h hserves hvalid (hrow a) hcol hspill

/-! ## Runs -/

omit [NeZero M] in
theorem work_le (x : XbarRead M N dm mm AR) : x.work ≤ M * (6 + dm.depth) + 2 * N := by
  have hdemux : ∀ a ∈ Finset.univ, 3 * (x.demux a).arSpill.contents.length
      + (x.demux a).rFifo.contents.length ≤ 6 + dm.depth := by
    intro a _
    have hspill := (x.demux a).arSpill.length_contents_le
    have hfifo : (x.demux a).rFifo.contents.length ≤ dm.depth :=
      (x.demux a).rFifo.length_contents_le
    omega
  have hmux : ∀ j ∈ Finset.univ, (x.mux j).arSpill.contents.length ≤ 2 :=
    fun j _ => (x.mux j).arSpill.length_contents_le
  have hrows := Finset.sum_le_card_nsmul _ _ _ hdemux
  have hcols := Finset.sum_le_card_nsmul _ _ _ hmux
  rw [Finset.card_univ, Fintype.card_fin, smul_eq_mul] at hrows hcols
  rw [work]
  omega

theorem matched_reset : Matched (reset z : XbarRead M N dm mm AR) [] :=
  ⟨fun _ => rfl, fun _ => rfl⟩

/-- A state in which some order of the reads has the FIFOs as its lanes. -/
def Orderly (x : XbarRead M N dm mm AR) : Prop := Inv x ∧ ∃ G, Matched x G

theorem orderly_step (h : Orderly x) (i : XbarReadIn M N AR R) : Orderly (x.step dec z i) := by
  obtain ⟨hinv, G, hG⟩ := h
  exact ⟨inv_step dec z hinv i, _, matched_step dec z hinv hG i⟩

theorem orderly_run (ins : List (XbarReadIn M N AR R)) :
    Orderly (run (step dec z) (reset z : XbarRead M N dm mm AR) ins) :=
  run_preserves Orderly ⟨inv_reset z, [], matched_reset z⟩ (fun _ i h => orderly_step dec z h i) ins

/-- The masters present no further address. -/
def Quiet (i : XbarReadIn M N AR R) : Prop := ∀ a, (i.mst a).arValid = false

theorem work_step_quiet (h : Inv x) {i : XbarReadIn M N AR R} (hquiet : Quiet i) :
    (x.step dec z i).work + steps dec x i ≤ x.work := by
  have hstep := work_step dec z h i
  have hnone : ∀ a, ((x.demux a).arTaken (x.demuxIn dec i a)).length = 0 := by
    intro a
    have hlow : (x.demuxIn dec i a).arValid = false := hquiet a
    rw [DemuxRead.arTaken, hlow]
    rfl
  simpa [hnone] using hstep

section

variable (dm mm)

/-- The reads of master `a` and slave `j` are done. -/
structure Drained (a : Fin M) (j : Fin N) (ins : List (XbarReadIn M N AR R)) : Prop where
  /-- Every address of the master has been answered. -/
  answered : tags (rTo dm mm dec z a ins) = tags (arFrom dm mm dec z a ins)
  /-- The slave has answered every address it has taken. -/
  paid : tags (rFrom dm mm dec z j ins) = tags (arTaken dm mm dec z j ins)
  /-- It has taken all addresses that the master has sent to it. -/
  taken : lane a (arTaken dm mm dec z j ins) = lane j.castSucc (arFrom dm mm dec z a ins)
  /-- Each address has its own response, on both sides. -/
  reads : lane a (join (arTaken dm mm dec z j ins) (rFrom dm mm dec z j ins))
    = lane j.castSucc (join (arFrom dm mm dec z a ins) (rTo dm mm dec z a ins))

/-- In an empty crossbar every read is done. -/
theorem drained_of_work {ins : List (XbarReadIn M N AR R)}
    (hwork : (run (step dec z) (reset z : XbarRead M N dm mm AR) ins).work = 0) (a : Fin M)
    (j : Fin N) : Drained dm mm dec z a j ins := by
  have hrun : Orderly (run (step dec z) (reset z : XbarRead M N dm mm AR) ins) :=
    orderly_run dec z ins
  obtain ⟨hr, har⟩ := mst_order dm mm dec z a ins
  obtain ⟨hsr, hpicked⟩ := slv_order dm mm dec z j ins
  generalize run (step dec z) (reset z : XbarRead M N dm mm AR) ins = x
    at hwork hrun hr har hsr hpicked
  obtain ⟨-, G, hG⟩ := hrun
  simp only [work, Nat.add_eq_zero_iff, Finset.sum_eq_zero_iff, Finset.mem_univ, true_imp_iff,
    mul_eq_zero, List.length_eq_zero_iff] at hwork
  obtain ⟨hdemux, hmux⟩ := hwork
  -- nothing left in any FIFO or spill register
  have hspill : (x.demux a).arSpill.contents = [] := by simpa using (hdemux a).1
  have hnoread : G = [] := eq_nil_of_lanes fun a => (hG.rows a).symm.trans (hdemux a).2
  have hcol : (x.mux j).rFifo.contents = [] := by
    rw [hG.cols, hnoread]
    rfl
  -- so the logs on both sides of each are equal
  rw [(hdemux a).2, List.append_nil] at hr
  rw [hspill, List.append_nil] at har
  rw [hcol, List.append_nil] at hsr
  rw [hmux j, List.append_nil] at hpicked
  -- the slave has taken all that has been picked for it
  have htaken : arTaken dm mm dec z j ins = arPicked dm mm dec z j ins := by
    rw [arTaken, ← hpicked, List.length_map, List.take_length]
  have hlane := ar_lane dm mm dec z a j ins
  have hanswered : tags (rTo dm mm dec z a ins) = tags (arFrom dm mm dec z a ins) := by
    rw [har, hr]
  have hpaid : tags (rFrom dm mm dec z j ins) = tags (arTaken dm mm dec z j ins) := by
    rw [htaken, hsr]
  have hall : lane a (arTaken dm mm dec z j ins) = lane j.castSucc (arFrom dm mm dec z a ins) := by
    rw [htaken, har, hlane]
  refine ⟨hanswered, hpaid, hall, ?_⟩
  rw [lane_join_of_tags a hpaid.symm, lane_join_of_tags j.castSucc hanswered.symm, hall, r_lane]

/-- The crossbar of two or more masters drains, whatever has happened before:
when they present no further addresses, so many edges without stalls finish every
read. The other edges may come in between in any way. -/
theorem reads_drain (pre ins : List (XbarReadIn M N AR R)) (hquiet : ∀ i ∈ ins, Quiet i)
    (hmany : M * (6 + dm.depth) + 2 * N
      ≤ edges (step dec z) Serves (run (step dec z) (reset z : XbarRead M N dm mm AR) pre) ins)
    (a : Fin M) (j : Fin N) : Drained dm mm dec z a j (pre ++ ins) := by
  apply drained_of_work
  rw [run_append]
  -- the rank is what is left to do: no edge adds to it, one without stalls takes off
  refine rank_used_up (C := Serves) Orderly work (fun x i h _ => orderly_step dec z h i) ?_ ?_
    (orderly_run dec z pre) hquiet (le_trans (work_le _) hmany)
  · intro x i h hi
    exact le_trans (Nat.le_add_right _ _) (work_step_quiet dec z h.1 hi)
  · intro x i h hi hserves hpos
    obtain ⟨hinv, G, hG⟩ := h
    have hmoves := moves dec hinv hG hserves hpos
    have hstep := work_step_quiet dec z hinv hi
    omega

end

end XbarRead

/-- Nobody asks, and everybody serves. -/
def quietRead : XbarReadIn 2 Bus.xbarIntNoSlave (BitVec 32) (BitVec 32) where
  mst _ := ⟨false, 0, true⟩
  slv _ := ⟨true, true, 5⟩
  err _ := ⟨true, true, 0⟩

theorem quietRead_serves (x : XbarRead 2 Bus.xbarIntNoSlave fourTrans fourTrans (BitVec 32)) :
    x.Serves quietRead :=
  ⟨fun _ _ => rfl, fun _ => ⟨fun _ => rfl, fun _ _ => rfl⟩, fun _ => ⟨fun _ => rfl, fun _ _ => rfl⟩⟩

theorem backbone_reads_drain :
    XbarRead.Drained fourTrans fourTrans slvSelect 0 (1 : Fin 2) (0 : Fin Bus.xbarIntNoSlave)
      (List.replicate 8 bothRead ++ List.replicate 30 quietRead) := by
  refine XbarRead.reads_drain fourTrans fourTrans slvSelect 0 _ _ ?_ ?_ 1 0
  · intro i hi a
    rw [List.eq_of_mem_replicate hi]
    rfl
  · have hserves : ∀ i ∈ List.replicate 30 quietRead, i = quietRead :=
      fun i hi => List.eq_of_mem_replicate hi
    rw [edges_of_along (along_mono _ (fun x i hi => hi ▸ quietRead_serves x)
      (along_of_inputs _ hserves))]
    decide

end SocRtl.Xbar
