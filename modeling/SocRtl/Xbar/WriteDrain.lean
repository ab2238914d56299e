import SocRtl.Xbar.ReadDrain

/-!
# SocRtl.Xbar.WriteDrain — no write stays in the crossbar

A master sends data words for several slaves behind each other, and a slave gets
those of several masters: the first data word of each master could wait for that
of another one, in a circle. It does not. The number of a master is pushed at a
slave when its address is picked there, so one order of the picks has the FIFOs
of all masters and of all slaves as its lanes (`Matched`), up to an address that
is shown and has not been picked.

`moves`: as long as something is in the crossbar, an edge at which masters and
slaves do not stall makes a step, also with slaves that take an address only
together with its data word. `writes_drain`: a bounded number of such edges,
whenever they come, finishes every write. As in `LiteXbar` there are two masters
or more.
-/

namespace SocRtl.Xbar

open Handshake Fifo Tagged Crossing

/-- A slave that does not stall. Of the writes picked for it there are `aw` whose
address and `w` whose data word it has not taken, and `b` whose data word it has
taken without an answer. It answers a write of which it has both; before that it
takes the part that is missing, and if nothing is missing it takes the address
or the data word, or both, when it is offered both. -/
structure WriteSlv.Serves {B : Type} (s : WriteSlv B) (aw w b : ℕ) (awOffered wOffered : Bool) :
    Prop where
  answer : 0 < b → aw < w + b → s.bValid = true
  addr : (b = 0 ∨ w + b ≤ aw) → w < aw → awOffered = true → s.awReady = true
  data : b = 0 → aw < w → wOffered = true → s.wReady = true
  both : b = 0 → aw = w → awOffered = true → wOffered = true → s.awReady = true ∨ s.wReady = true

set_option synthInstance.maxSize 256 in
instance {B : Type} (s : WriteSlv B) (aw w b : ℕ) (awOffered wOffered : Bool) :
    Decidable (s.Serves aw w b awOffered wOffered) :=
  decidable_of_iff (_ ∧ _ ∧ _ ∧ _)
    ⟨fun h => ⟨h.1, h.2.1, h.2.2.1, h.2.2.2⟩, fun h => ⟨h.answer, h.addr, h.data, h.both⟩⟩

/-- Such a slave makes a step if it has a write to do and is offered what it
lacks. -/
theorem WriteSlv.Serves.moves {B : Type} {s : WriteSlv B} {aw w b : ℕ} {awOffered wOffered : Bool}
    (h : s.Serves aw w b awOffered wOffered) (haw : 0 < aw → awOffered = true)
    (hw : b = 0 → 0 < w → wOffered = true) (hsome : 0 < aw + w + b) :
    (0 < b ∧ s.bValid = true) ∨ (awOffered = true ∧ s.awReady = true) ∨
      (b = 0 ∧ 0 < w ∧ wOffered = true ∧ s.wReady = true) := by
  rcases Nat.eq_zero_or_pos b with hb | hb
  · rcases Nat.lt_trichotomy aw w with hlt | heq | hgt
    · have hoffered := hw hb (by omega)
      exact .inr (.inr ⟨hb, by omega, hoffered, h.data hb hlt hoffered⟩)
    · have hwOffered := hw hb (by omega)
      have hawOffered := haw (by omega)
      rcases h.both hb heq hawOffered hwOffered with hready | hready
      · exact .inr (.inl ⟨hawOffered, hready⟩)
      · exact .inr (.inr ⟨hb, by omega, hwOffered, hready⟩)
    · have hoffered := haw (by omega)
      exact .inr (.inl ⟨hoffered, h.addr (.inl hb) hgt hoffered⟩)
  · rcases Nat.lt_or_ge aw (w + b) with hlt | hge
    · exact .inl ⟨hb, h.answer hb hlt⟩
    · have hoffered := haw (by omega)
      exact .inr (.inl ⟨hoffered, h.addr (.inr hge) (by omega) hoffered⟩)

namespace XbarWrite

variable {M N : ℕ} [NeZero M] {dm mm : MaxTrans} {AW W B : Type}

/-! ## Addresses that are shown and addresses that are picked -/

/-- The port of the address in front at master `a`. -/
def port (x : XbarWrite M N dm mm AW) (a : Fin M) : Fin (N + 1) := (x.demux a).slvAwChan.1

/-- Slave `j` has picked the address of master `a` and could not take it yet. -/
def lockedAt (x : XbarWrite M N dm mm AW) (a : Fin M) (j : Fin N) : Bool :=
  (x.mux j).lockAwValidQ && decide ((x.mux j).awSelect (fun _ => false) = a)

/-- Slave `j` picks the address of master `a` at this edge. -/
def pushesAt (x : XbarWrite M N dm mm AW) (i : XbarWriteIn M N AW W B) (a : Fin M) (j : Fin N) :
    Bool :=
  (x.mux j).push (x.muxIn i j).awValids && decide ((x.mux j).awSelect (x.muxIn i j).awValids = a)

/-- The port of master `a` has been pushed, but its slave has not picked the address. -/
def waits (x : XbarWrite M N dm mm AW) (a : Fin M) : Bool :=
  (x.demux a).lockAwValidQ && Fin.lastCases false (fun j => !x.lockedAt a j) (x.port a)

/-- The address of master `a` is picked at this edge. Where a slave answers with
an error there is nothing to pick from. -/
def enters (x : XbarWrite M N dm mm AW) (i : XbarWriteIn M N AW W B) (a : Fin M) : Bool :=
  Fin.lastCases (x.demux a).push (fun j => x.pushesAt i a j) (x.port a)

/-- The multiplexer of slave `j` shows the address of master `a` to its spill register. -/
def shownAt (x : XbarWrite M N dm mm AW) (i : XbarWriteIn M N AW W B) (a : Fin M) (j : Fin N) :
    Bool :=
  (x.mux j).awShown (x.muxIn i j).awValids &&
    decide ((x.mux j).awSelect (x.muxIn i j).awValids = a)

variable (dec : AW → Fin (N + 1)) (z : AW) {x : XbarWrite M N dm mm AW}
  {i : XbarWriteIn M N AW W B} {a : Fin M} {j : Fin N}

/-- An address that a multiplexer shows is shown to it. -/
theorem shown_of_shownAt (h : Inv x) (hshown : x.shownAt i a j = true) :
    (x.demux a).awShown = true ∧ x.port a = j.castSucc := by
  obtain ⟨hshown, hsel⟩ := Bool.and_eq_true_iff.1 hshown
  have hpicks := (x.mux j).awArbiter.picks.{0} (MuxWrite.reqO_of_shown (h.mux j) hshown)
  have hreq : (x.mux j).awArbiter.reqD (x.muxIn i j).awValids a = true :=
    of_decide_eq_true hsel ▸ hpicks.1
  exact shown_of_valid (valid_of_reqD h hreq)

theorem lockedAt_eq (h : Inv x) (i : XbarWriteIn M N AW W B) :
    x.lockedAt a j = ((x.mux j).lockAwValidQ && x.shownAt i a j) := by
  rw [lockedAt, shownAt]
  cases hlock : (x.mux j).lockAwValidQ with
  | false => rfl
  | true =>
      rw [(MuxWrite.shown_of_lock hlock _).1,
        MuxWrite.awSelect_of_lock (h.mux j) hlock (fun _ => false) (x.muxIn i j).awValids]
      rfl

theorem pushesAt_eq : x.pushesAt i a j = (!(x.mux j).lockAwValidQ && x.shownAt i a j) := by
  rw [pushesAt, shownAt]
  cases hlock : (x.mux j).lockAwValidQ with
  | false => rw [MuxWrite.push_of_unlocked hlock, Bool.not_false, Bool.true_and]
  | true => rw [(MuxWrite.shown_of_lock hlock _).2, Bool.not_true, Bool.false_and, Bool.false_and]

/-- It is locked there unless the spill register takes it. -/
theorem lockedAt_step (h : Inv x) :
    (x.step dec z i).lockedAt a j = (x.shownAt i a j && !(x.mux j).awSpill.readyO) := by
  have hlock : ((x.step dec z i).mux j).lockAwValidQ
      = ((x.mux j).awShown (x.muxIn i j).awValids && !(x.mux j).awSpill.readyO) :=
    MuxWrite.lock_step_eq z (x.mux j) (x.muxIn i j)
  rw [lockedAt, shownAt, hlock]
  cases hshown : (x.mux j).awShown (x.muxIn i j).awValids with
  | false => rfl
  | true =>
      cases hready : (x.mux j).awSpill.readyO with
      | true => simp
      | false =>
          have hgrant : (x.mux j).awGrant (x.muxIn i j).awValids = false := by
            rw [MuxWrite.awGrant_eq, hready, Bool.and_false]
          have hsel : ((x.step dec z i).mux j).awSelect (fun _ => false)
              = (x.mux j).awSelect (x.muxIn i j).awValids :=
            (MuxWrite.lock_step z (h.mux j) hshown hgrant fun _ => false).2
          rw [hsel]
          simp

/-- An address shown to slave `j` is locked unless slave `j` takes it. -/
theorem lock_step_port (h : Inv x) (hshown : (x.demux a).awShown = true)
    (hport : x.port a = j.castSucc) :
    ((x.step dec z i).demux a).lockAwValidQ
      = !(x.shownAt i a j && (x.mux j).awSpill.readyO) := by
  have hlock : ((x.step dec z i).demux a).lockAwValidQ
      = ((x.demux a).awShown && !(x.demuxIn dec i a).awReadies (x.port a)) :=
    lockAwValidD_eq _ _ _ _
  have hvalid : (x.muxIn i j).awValids a = true := by
    have hboth : ((x.demux a).awShown && x.port a == j.castSucc) = true := by
      rw [hshown, hport, beq_self_eq_true]
      rfl
    exact hboth
  have hshake := MuxWrite.aw_handshake (h.mux j) (lockReq h i j _) a
  rw [hvalid, Bool.true_and, MuxWrite.awGrant_eq] at hshake
  have hreadies : (x.demuxIn dec i a).awReadies j.castSucc
      = (x.mux j).slvAwReadies (x.muxIn i j).awValids a := by simp [demuxIn]
  rw [hlock, hshown, hport, hreadies, hshake, shownAt, Bool.true_and, Bool.and_right_comm]

/-- What a slave has locked, its master has. -/
def LocksMeet (x : XbarWrite M N dm mm AW) : Prop :=
  ∀ a j, x.lockedAt a j = true → (x.demux a).lockAwValidQ = true

theorem locksMeet_step (h : Inv x) (i : XbarWriteIn M N AW W B) : LocksMeet (x.step dec z i) := by
  intro a j hlocked
  rw [lockedAt_step dec z h, Bool.and_eq_true, Bool.not_eq_true'] at hlocked
  obtain ⟨hshown, hport⟩ := shown_of_shownAt h hlocked.1
  rw [lock_step_port dec z h hshown hport, hlocked.2, Bool.and_false]
  rfl

/-- The port stays as long as the address is locked. -/
theorem port_step (h : Inv x) (hlock : ((x.step dec z i).demux a).lockAwValidQ = true) :
    (x.step dec z i).port a = x.port a := by
  cases hshown : (x.demux a).awShown with
  | false => exact absurd ((DemuxWrite.unlocked_step (.inl hshown)).symm.trans hlock) (by simp)
  | true =>
      cases hready : (x.demux a).slvAwReady (x.demuxIn dec i a) with
      | true => exact absurd ((DemuxWrite.unlocked_step (.inr hready)).symm.trans hlock) (by simp)
      | false => exact congrArg Prod.fst (DemuxWrite.lock_step (h.demux a) hshown hready).2.2

/-- Of the ports pushed, those wait whose addresses have not been picked: for an
address that is not shown, -/
theorem waits_step_hidden (h : Inv x) (i : XbarWriteIn M N AW W B)
    (hshown : (x.demux a).awShown = false) :
    x.waits a = false ∧ (x.demux a).push = false ∧ x.enters i a = false ∧
      (x.step dec z i).waits a = false := by
  -- what is locked is shown
  have hlock : (x.demux a).lockAwValidQ = false := by
    cases hlock : (x.demux a).lockAwValidQ with
    | false => rfl
    | true => exact hshown ▸ (DemuxWrite.shown_of_lock hlock).1.symm
  have hpush : (x.demux a).push = false := by rw [DemuxWrite.push_of_unlocked hlock, hshown]
  have hnext : ((x.step dec z i).demux a).lockAwValidQ = false :=
    DemuxWrite.unlocked_step (.inl hshown)
  refine ⟨by rw [waits, hlock, Bool.false_and], hpush, ?_, by rw [waits, hnext, Bool.false_and]⟩
  rw [enters]
  rcases Fin.eq_castSucc_or_eq_last (x.port a) with ⟨j, hport⟩ | hport
  · rw [hport, Fin.lastCases_castSucc, pushesAt_eq]
    cases hat : x.shownAt i a j with
    | false => rw [Bool.and_false]
    | true => exact absurd ((shown_of_shownAt h hat).1.symm.trans hshown) (by simp)
  · rw [hport, Fin.lastCases_last, hpush]

/-- for an address shown to slave `j`, -/
theorem waits_step_port (h : Inv x) (i : XbarWriteIn M N AW W B)
    (hshown : (x.demux a).awShown = true) (hport : x.port a = j.castSucc) :
    x.waits a = ((x.demux a).lockAwValidQ && !x.lockedAt a j) ∧
      x.enters i a = x.pushesAt i a j ∧ (x.step dec z i).waits a = !x.shownAt i a j := by
  refine ⟨by rw [waits, hport, Fin.lastCases_castSucc],
    by rw [enters, hport, Fin.lastCases_castSucc], ?_⟩
  have hnext := lock_step_port dec z (i := i) h hshown hport
  rw [waits]
  cases hlock : ((x.step dec z i).demux a).lockAwValidQ with
  | false =>
      -- it has been taken
      have htaken : x.shownAt i a j = true ∧ (x.mux j).awSpill.readyO = true := by
        simpa [hlock] using hnext
      rw [htaken.1]
      rfl
  | true =>
      rw [port_step dec z h hlock, hport, Fin.lastCases_castSucc, lockedAt_step dec z h]
      rw [hlock] at hnext
      cases hat : x.shownAt i a j with
      | false => rfl
      | true =>
          -- it is locked further: the spill register of the slave stalled
          have hstalled : (x.mux j).awSpill.readyO = false := by simpa [hat] using hnext
          rw [hstalled]
          rfl

/-- and for an address that is answered with an error. -/
theorem waits_step_err (h : Inv x) (i : XbarWriteIn M N AW W B)
    (hport : x.port a = Fin.last N) :
    x.waits a = false ∧ x.enters i a = (x.demux a).push ∧ (x.step dec z i).waits a = false := by
  refine ⟨by rw [waits, hport, Fin.lastCases_last, Bool.and_false],
    by rw [enters, hport, Fin.lastCases_last], ?_⟩
  rw [waits]
  cases hlock : ((x.step dec z i).demux a).lockAwValidQ with
  | false => rfl
  | true => rw [port_step dec z h hlock, hport, Fin.lastCases_last, Bool.and_false]

theorem waits_step (h : Inv x) (hmeet : LocksMeet x) (i : XbarWriteIn M N AW W B) (a : Fin M) :
    slot (x.waits a) (x.port a) ++ (x.demux a).pushed (x.demuxIn dec i a)
      = slot (x.enters i a) (x.port a)
        ++ slot ((x.step dec z i).waits a) ((x.step dec z i).port a) := by
  have hpushed : (x.demux a).pushed (x.demuxIn dec i a) = slot (x.demux a).push (x.port a) := rfl
  rw [hpushed]
  cases hshown : (x.demux a).awShown with
  | false =>
      obtain ⟨hwaits, hpush, henters, hnext⟩ := waits_step_hidden dec z h i hshown
      rw [hwaits, hpush, henters, hnext]
      rfl
  | true =>
      -- while it waits the port does not change
      have hport' : slot ((x.step dec z i).waits a) ((x.step dec z i).port a)
          = slot ((x.step dec z i).waits a) (x.port a) := by
        cases hw : (x.step dec z i).waits a with
        | false => rfl
        | true => rw [port_step dec z h (Bool.and_eq_true_iff.1 hw).1]
      -- a port is pushed once, when the address is first shown
      have hone : (x.demux a).push = !(x.demux a).lockAwValidQ := by
        cases hlock : (x.demux a).lockAwValidQ with
        | false => rw [DemuxWrite.push_of_unlocked hlock, hshown]; rfl
        | true => rw [(DemuxWrite.shown_of_lock hlock).2]; rfl
      rw [hport']
      rcases Fin.eq_castSucc_or_eq_last (x.port a) with ⟨j, hport⟩ | hport
      · obtain ⟨hwaits, henters, hnext⟩ := waits_step_port dec z h i hshown hport
        have hlocked := hmeet a j
        rw [lockedAt_eq h i] at hwaits hlocked
        rw [hwaits, henters, hnext, pushesAt_eq, hone]
        -- exactly one of both sides has the port, by what is locked
        cases hat : x.shownAt i a j <;> cases hl : (x.demux a).lockAwValidQ <;>
          cases hm : (x.mux j).lockAwValidQ <;> simp_all [slot]
      · obtain ⟨hwaits, henters, hnext⟩ := waits_step_err dec z h i hport
        rw [hwaits, henters, hnext]
        simp [slot]

/-! ## One order of the writes -/

/-- `G` is an order of the writes picked whose data words are still to come, and
`H` one of the writes whose responses are. -/
structure Matched (x : XbarWrite M N dm mm AW) (G H : List (Fin M × Fin (N + 1))) : Prop where
  meet : LocksMeet x
  wRows : ∀ a, (x.demux a).wFifo.contents = lane a G ++ slot (x.waits a) (x.port a)
  wCols : ∀ j, (x.mux j).wFifo.contents = lane j.castSucc (turn G)
  bRows : ∀ a, (x.demux a).bFifo.contents = lane a H
  bCols : ∀ j, (x.mux j).bFifo.contents = lane j.castSucc (turn H)

/-- The writes picked at an edge. -/
def picked (x : XbarWrite M N dm mm AW) (i : XbarWriteIn M N AW W B) : List (Fin M × Fin (N + 1)) :=
  gather fun a => slot (x.enters i a) (x.port a)

/-- The writes whose data words move at an edge. -/
def written (x : XbarWrite M N dm mm AW) (i : XbarWriteIn M N AW W B) :
    List (Fin M × Fin (N + 1)) :=
  gather fun a => tags ((x.demux a).wMoved (x.demuxIn dec i a))

/-- The writes answered at an edge. -/
def answered (x : XbarWrite M N dm mm AW) (i : XbarWriteIn M N AW W B) :
    List (Fin M × Fin (N + 1)) :=
  gather fun a => tags ((x.demux a).bMoved (x.demuxIn dec i a))

theorem lane_picked (h : Inv x) (i : XbarWriteIn M N AW W B) (j : Fin N) :
    lane j.castSucc (turn (x.picked i)) = (x.mux j).pushed (x.muxIn i j) := by
  apply lane_turn_gather
  · exact length_slot_le _ _
  · intro a
    have hpushed : (x.mux j).pushed (x.muxIn i j)
        = slot ((x.mux j).push (x.muxIn i j).awValids)
            ((x.mux j).awSelect (x.muxIn i j).awValids) := rfl
    have hright : ((x.mux j).pushed (x.muxIn i j)).count a = (x.pushesAt i a j).toNat := by
      rw [hpushed, count_slot, pushesAt]
    rw [hright, count_slot]
    -- the arbiter of slave `j` only picks what is meant for it
    by_cases hport : x.port a = j.castSucc
    · rw [enters, hport, Fin.lastCases_castSucc, decide_eq_true rfl, Bool.and_true]
    · have hnone : x.pushesAt i a j = false := by
        rw [pushesAt_eq]
        cases hat : x.shownAt i a j with
        | false => rw [Bool.and_false]
        | true => exact absurd (shown_of_shownAt h hat).2 hport
      rw [hnone, decide_eq_false hport, Bool.and_false]

omit [NeZero M] in
theorem lane_written (x : XbarWrite M N dm mm AW) (i : XbarWriteIn M N AW W B) (j : Fin N) :
    lane j.castSucc (turn (written dec x i)) = tags ((x.mux j).wMoved (x.muxIn i j)) := by
  apply lane_turn_gather
  · rw [length_tags]
    exact length_slot_le _ _
  · intro a
    rw [← length_lane, ← length_lane, w_link dec x i a j]

omit [NeZero M] in
theorem lane_answered (x : XbarWrite M N dm mm AW) (i : XbarWriteIn M N AW W B) (j : Fin N) :
    lane j.castSucc (turn (answered dec x i)) = tags ((x.mux j).bMoved (x.muxIn i j)) := by
  apply lane_turn_gather
  · rw [length_tags]
    exact length_slot_le _ _
  · intro a
    rw [← length_lane, ← length_lane, b_link dec x i a j]

/-- Where an address waits and nothing is ahead of it, no data word moves: the
slave has no entry for this master. -/
theorem not_written_of_waits {G H : List (Fin M × Fin (N + 1))} (hG : Matched x G H)
    (hlane : lane a G = []) (hwaits : x.waits a = true) :
    (x.demux a).wFifoPop (x.demuxIn dec i a) = false := by
  cases hpop : (x.demux a).wFifoPop (x.demuxIn dec i a) with
  | false => rfl
  | true =>
      have hrow := hG.wRows a
      rw [hlane, hwaits] at hrow
      have hsel : (x.demux a).wSelect = x.port a := (FifoV3.front_of_contents hrow).2
      rcases Fin.eq_castSucc_or_eq_last (x.port a) with ⟨j, hport⟩ | hport
      · -- on its link the word would meet an entry of the slave for this master
        have hwritten : (a, j.castSucc) ∈ written dec x i := by
          rw [← mem_lane, written, lane_gather, DemuxWrite.wMoved, tags_slot, hpop, hsel, hport]
          exact List.mem_singleton_self _
        rw [← mem_lane_turn, lane_written] at hwritten
        have hmem := ((x.mux j).wMoved_front (x.muxIn i j)).subset hwritten
        rw [hG.wCols, mem_lane_turn, ← mem_lane, hlane] at hmem
        cases hmem
      · rw [waits, hport, Fin.lastCases_last, Bool.and_false] at hwaits
        cases hwaits

/-- A data word that moves belongs to an address that has been picked. -/
theorem written_front {G H : List (Fin M × Fin (N + 1))} (hG : Matched x G H)
    (i : XbarWriteIn M N AW W B) (a : Fin M) :
    tags ((x.demux a).wMoved (x.demuxIn dec i a)) <+: lane a G := by
  have hfront := (x.demux a).wMoved_front (x.demuxIn dec i a)
  rw [hG.wRows, DemuxWrite.wMoved, tags_slot] at hfront
  rw [DemuxWrite.wMoved, tags_slot]
  cases hpop : (x.demux a).wFifoPop (x.demuxIn dec i a) with
  | false => exact List.nil_prefix
  | true =>
      rw [hpop] at hfront
      cases hlane : lane a G with
      | cons k rest =>
          rw [hlane] at hfront
          obtain ⟨hk, -⟩ := List.cons_prefix_cons.1 hfront
          exact ⟨rest, congrArg (fun k => k :: rest) hk⟩
      | nil =>
          -- with nothing picked the word could only belong to the address that waits
          cases hwaits : x.waits a with
          | false =>
              rw [hlane, hwaits] at hfront
              cases List.prefix_nil.1 hfront
          | true =>
              exact absurd (hpop.symm.trans (not_written_of_waits dec hG hlane hwaits)) (by simp)

theorem matched_step (h : Inv x) {G H : List (Fin M × Fin (N + 1))} (hG : Matched x G H)
    (i : XbarWriteIn M N AW W B) :
    Matched (x.step dec z i) (G.diff (written dec x i) ++ x.picked i)
      (H.diff (answered dec x i) ++ written dec x i) := by
  refine ⟨locksMeet_step dec z h i, ?_, ?_, ?_, ?_⟩
  · -- data by master: a port that waits stays behind those that are picked
    intro a
    have hkeeps := ((x.demux a).keeps (h.demux a) (x.demuxIn dec i a)).w
    rw [hG.wRows, List.append_assoc, waits_step dec z h hG.meet] at hkeeps
    apply lane_step_rest
    · rw [written, lane_gather]
      exact written_front dec hG i a
    · rw [written, picked, lane_gather, lane_gather]
      exact hkeeps
  · -- data by slave
    intro j
    rw [turn_append, turn_diff]
    apply lane_step
    · rw [lane_written, ← hG.wCols]
      exact (x.mux j).wMoved_front _
    · rw [lane_written, lane_picked h, ← hG.wCols]
      exact ((x.mux j).keeps z (h.mux j) (x.muxIn i j)).w
  · -- responses by master: owed once the data word has moved
    intro a
    apply lane_step
    · rw [answered, lane_gather, ← hG.bRows]
      exact (x.demux a).bMoved_front _
    · rw [answered, written, lane_gather, lane_gather, ← hG.bRows]
      exact ((x.demux a).keeps (h.demux a) (x.demuxIn dec i a)).b
  · -- responses by slave
    intro j
    rw [turn_append, turn_diff]
    apply lane_step
    · rw [lane_answered, ← hG.bCols]
      exact (x.mux j).bMoved_front _
    · rw [lane_answered, lane_written, ← hG.bCols]
      exact ((x.mux j).keeps z (h.mux j) (x.muxIn i j)).b

/-! ## What is on its way -/

/-- The address that master `a` has pushed for the slave that answers with an error. -/
def errAw (x : XbarWrite M N dm mm AW) (a : Fin M) : Bool :=
  (x.demux a).lockAwValidQ && decide (x.port a = Fin.last N)

/-- Masters and slaves that do not stall at an edge. A master has a data word for
every address that has been shown. What a slave has not taken of the writes
picked for it is what its multiplexer holds. -/
structure Serves (x : XbarWrite M N dm mm AW) (i : XbarWriteIn M N AW W B) : Prop where
  mst : ∀ a, ((x.demux a).wFifo.isEmpty = false → (i.mst a).wValid = true) ∧
    ((x.demux a).bFifo.isEmpty = false → (i.mst a).bReady = true)
  slv : ∀ j, (i.slv j).Serves
    ((x.mux j).awSpill.contents.length + (x.mux j).lockAwValidQ.toNat)
    (x.mux j).wFifo.contents.length (x.mux j).bFifo.contents.length
    (x.mux j).awSpill.validO ((x.mux j).mstWValid (x.muxIn i j).wValids)
  err : ∀ a, (i.err a).Serves (x.errAw a).toNat ((x.demux a).wFifo.contents.count (Fin.last N))
    ((x.demux a).bFifo.contents.count (Fin.last N)) ((x.demux a).mstAwValids (Fin.last N))
    ((x.demux a).mstWValids (i.mst a).wValid (Fin.last N))

instance (x : XbarWrite M N dm mm AW) (i : XbarWriteIn M N AW W B) : Decidable (Serves x i) :=
  decidable_of_iff (_ ∧ _ ∧ _) ⟨fun h => ⟨h.1, h.2.1, h.2.2⟩, fun h => ⟨h.mst, h.slv, h.err⟩⟩

/-- How many steps the writes in the crossbar still have to make: a port is
pushed, the address leaves the demultiplexer and the multiplexer, the data word
passes, and the response comes back. -/
def work (x : XbarWrite M N dm mm AW) : ℕ :=
  ∑ a, (2 * (x.demux a).awSpill.contents.length + 3 * (x.demux a).unsent.length
      + 2 * (x.demux a).wFifo.contents.length + (x.demux a).bFifo.contents.length)
    + ∑ j, (x.mux j).awSpill.contents.length

/-- The addresses handed over at an edge. -/
def handed (x : XbarWrite M N dm mm AW) (i : XbarWriteIn M N AW W B) : List (Fin M × Fin (N + 1)) :=
  gather fun a => tags ((x.demux a).awGiven (x.demuxIn dec i a))

/-- The ports pushed at an edge. -/
def pushed (x : XbarWrite M N dm mm AW) : List (Fin M × Fin (N + 1)) :=
  gather fun a => slot (x.demux a).push (x.port a)

/-- The steps made at an edge. -/
def steps (x : XbarWrite M N dm mm AW) (i : XbarWriteIn M N AW W B) : ℕ :=
  x.pushed.length + (handed dec x i).length + (written dec x i).length + (answered dec x i).length
    + ∑ j, ((x.mux j).awGiven (x.muxIn i j)).length

theorem lane_handed (h : Inv x) (i : XbarWriteIn M N AW W B) (j : Fin N) :
    lane j.castSucc (turn (handed dec x i)) = tags ((x.mux j).awTaken z (x.muxIn i j)) := by
  apply lane_turn_gather
  · rw [length_tags]
    exact length_slot_le _ _
  · intro a
    rw [← length_lane, ← length_lane, aw_link dec z h i a j]

theorem demux_work {s : DemuxWrite (N + 1) dm AW} (hlocked : s.Locked)
    (i : DemuxWriteIn (N + 1) AW W B) :
    2 * (s.step i).awSpill.contents.length + 3 * (s.step i).unsent.length
          + 2 * (s.step i).wFifo.contents.length + (s.step i).bFifo.contents.length
        + ((slot s.push s.slvAwChan.1).length + 2 * (tags (s.awGiven i)).length
          + (tags (s.wMoved i)).length + (tags (s.bMoved i)).length)
      = 2 * s.awSpill.contents.length + 3 * s.unsent.length + 2 * s.wFifo.contents.length
        + s.bFifo.contents.length + 5 * (s.awTaken i).length := by
  have hkeeps := s.keeps hlocked i
  have haw := congrArg List.length hkeeps.aw
  have hsel := congrArg List.length hkeeps.sel
  have hw := congrArg List.length hkeeps.w
  have hb := congrArg List.length hkeeps.b
  simp only [List.length_append, length_tags, DemuxWrite.pushed] at haw hsel hw hb ⊢
  omega

/-- The books of an edge: what is done is no longer to be done. -/
theorem work_step (h : Inv x) (i : XbarWriteIn M N AW W B) :
    (x.step dec z i).work + steps dec x i
      ≤ x.work + 5 * ∑ a, ((x.demux a).awTaken (x.demuxIn dec i a)).length := by
  -- each demultiplexer keeps its own books
  have hdemux : ∑ a, (2 * ((x.step dec z i).demux a).awSpill.contents.length
          + 3 * ((x.step dec z i).demux a).unsent.length
          + 2 * ((x.step dec z i).demux a).wFifo.contents.length
          + ((x.step dec z i).demux a).bFifo.contents.length)
        + (x.pushed.length + 2 * (handed dec x i).length + (written dec x i).length
          + (answered dec x i).length)
      = ∑ a, (2 * (x.demux a).awSpill.contents.length + 3 * (x.demux a).unsent.length
          + 2 * (x.demux a).wFifo.contents.length + (x.demux a).bFifo.contents.length)
        + 5 * ∑ a, ((x.demux a).awTaken (x.demuxIn dec i a)).length := by
    rw [pushed, handed, written, answered, length_gather, length_gather, length_gather,
      length_gather]
    simp only [Finset.mul_sum, ← Finset.sum_add_distrib]
    exact Finset.sum_congr rfl fun a _ => demux_work (h.demux a) (x.demuxIn dec i a)
  have hmux : ∑ j, ((x.step dec z i).mux j).awSpill.contents.length
        + ∑ j, ((x.mux j).awGiven (x.muxIn i j)).length
      = ∑ j, (x.mux j).awSpill.contents.length
        + ∑ j : Fin N, (lane j.castSucc (turn (handed dec x i))).length := by
    rw [← Finset.sum_add_distrib, ← Finset.sum_add_distrib]
    refine Finset.sum_congr rfl fun j _ => ?_
    have haw := congrArg List.length ((x.mux j).keeps z (h.mux j) (x.muxIn i j)).aw
    rw [List.length_append, List.length_append, List.length_map] at haw
    rw [lane_handed dec z h, length_tags, Nat.add_comm]
    exact haw.symm
  -- a multiplexer takes only what is handed to it
  have hhanded := sum_length_cols (handed dec x i)
  rw [work, work, steps]
  omega

/-! ## Something moves -/

omit [NeZero M] in
/-- A response in front of both its FIFOs is taken. -/
theorem answered_of_front {k : Fin (N + 1)} {rest : List (Fin (N + 1))} (hserves : Serves x i)
    (hrow : (x.demux a).bFifo.contents = k :: rest)
    (hvalid : (x.demuxIn dec i a).bValids k = true) : 0 < steps dec x i := by
  obtain ⟨hsome, hfront⟩ := FifoV3.front_of_contents hrow
  have hpop : (x.demux a).bFifoPop (x.demuxIn dec i a) = true := by
    have hready : (x.demuxIn dec i a).bReady = true := (hserves.mst a).2 hsome
    simp [DemuxWrite.bFifoPop, DemuxWrite.slvBValid, DemuxWrite.bSelect, hsome, hfront, hvalid,
      hready]
  have hmem : (a, k) ∈ answered dec x i := by
    rw [← mem_lane, answered, lane_gather, DemuxWrite.bMoved, tags_slot, hpop, DemuxWrite.bSelect,
      hfront]
    exact List.mem_singleton_self k
  have hpos := List.length_pos_of_mem hmem
  rw [steps]
  omega

omit [NeZero M] in
/-- So is a data word, if the FIFO of the responses has room. -/
theorem written_of_front {k : Fin (N + 1)} {rest : List (Fin (N + 1))} (hserves : Serves x i)
    (hrow : (x.demux a).wFifo.contents = k :: rest) (hroom : (x.demux a).bFifo.contents = [])
    (hready : (x.demuxIn dec i a).wReadies k = true) : 0 < steps dec x i := by
  obtain ⟨hsome, hfront⟩ := FifoV3.front_of_contents hrow
  have hpop : (x.demux a).wFifoPop (x.demuxIn dec i a) = true := by
    have hvalid : (x.demuxIn dec i a).wValid = true := (hserves.mst a).1 hsome
    simp [DemuxWrite.wFifoPop, DemuxWrite.slvWReady, DemuxWrite.wOpen, DemuxWrite.wSelect, hsome,
      hfront, hvalid, hready, FifoV3.not_full_of_nil hroom]
  have hmem : (a, k) ∈ written dec x i := by
    rw [← mem_lane, written, lane_gather, DemuxWrite.wMoved, tags_slot, hpop, DemuxWrite.wSelect,
      hfront]
    exact List.mem_singleton_self k
  have hpos := List.length_pos_of_mem hmem
  rw [steps]
  omega

omit [NeZero M] in
theorem given_of_valid (hvalid : (x.mux j).awSpill.validO = true)
    (hready : (i.slv j).awReady = true) : 0 < steps dec x i := by
  have hone : ((x.mux j).awGiven (x.muxIn i j)).length = 1 := by
    have hready' : (x.muxIn i j).awReady = true := hready
    rw [MuxWrite.awGiven, hvalid, hready']
    rfl
  have hle := Finset.single_le_sum (f := fun j => ((x.mux j).awGiven (x.muxIn i j)).length)
    (fun _ _ => Nat.zero_le _) (Finset.mem_univ j)
  rw [steps]
  omega

theorem handed_of_grant (h : Inv x) (hgrant : (x.mux j).awGrant (x.muxIn i j).awValids = true) :
    0 < steps dec x i := by
  have z : AW := (x.demux 0).slvAwChan.2
  have hle := length_lane_le j.castSucc (turn (handed dec x i))
  rw [lane_handed dec z h, length_tags, MuxWrite.awTaken, hgrant, length_turn] at hle
  have hpos : 0 < (handed dec x i).length := hle
  rw [steps]
  omega

omit [NeZero M] in
theorem handed_of_err (hvalid : (x.demux a).mstAwValids (Fin.last N) = true)
    (hready : (i.err a).awReady = true) : 0 < steps dec x i := by
  obtain ⟨hshown, hport⟩ := shown_of_valid hvalid
  have hgiven : (x.demux a).slvAwReady (x.demuxIn dec i a) = true := by
    rw [DemuxWrite.slvAwReady_eq, hshown, hport]
    simp [demuxIn, hready]
  have hmem : (a, (x.demux a).slvAwChan.1) ∈ handed dec x i := by
    rw [← mem_lane, handed, lane_gather, DemuxWrite.awGiven, tags_slot, hgiven]
    exact List.mem_singleton_self _
  have hpos := List.length_pos_of_mem hmem
  rw [steps]
  omega

omit [NeZero M] in
theorem pushed_of_push (i : XbarWriteIn M N AW W B) (hpush : (x.demux a).push = true) :
    0 < steps dec x i := by
  have hmem : (a, x.port a) ∈ x.pushed := by
    rw [← mem_lane, pushed, lane_gather, hpush]
    exact List.mem_singleton_self _
  have hpos := List.length_pos_of_mem hmem
  rw [steps]
  omega

/-- A multiplexer offers the address it has picked, or its spill register takes it. -/
theorem offered_of_picked (h : Inv x) (i : XbarWriteIn M N AW W B)
    (hsome : 0 < (x.mux j).awSpill.contents.length + (x.mux j).lockAwValidQ.toNat) :
    (x.mux j).awSpill.validO = true ∨ 0 < steps dec x i := by
  cases hvalid : (x.mux j).awSpill.validO with
  | true => exact .inl rfl
  | false =>
      right
      have hnil := Spill.contents_of_not_valid hvalid
      have hlock : (x.mux j).lockAwValidQ = true := by
        cases hlock : (x.mux j).lockAwValidQ with
        | true => rfl
        | false => simp [hnil, hlock] at hsome
      have hready : (x.mux j).awSpill.readyO = true := by
        rw [Spill.ready_iff_length, hnil]
        exact Nat.zero_lt_two
      apply handed_of_grant dec h
      rw [MuxWrite.awGrant_eq, (MuxWrite.shown_of_lock hlock _).1, hready]
      rfl

omit [NeZero M] in
theorem offered_of_errAw (hsome : 0 < (x.errAw a).toNat) :
    (x.demux a).mstAwValids (Fin.last N) = true := by
  have herr : x.errAw a = true := by
    cases herr : x.errAw a with
    | true => rfl
    | false => rw [herr] at hsome; cases hsome
  obtain ⟨hlock, hport⟩ := Bool.and_eq_true_iff.1 herr
  have hport : (x.demux a).slvAwChan.1 = Fin.last N := of_decide_eq_true hport
  rw [DemuxWrite.mstAwValids, (DemuxWrite.shown_of_lock hlock).1, hport, beq_self_eq_true]
  rfl

/-- The oldest write that is to be answered is answered, or its slave takes the
address first. -/
theorem moves_answer (h : Inv x) {G H : List (Fin M × Fin (N + 1))} {k : Fin (N + 1)}
    (hG : Matched x G ((a, k) :: H)) (hserves : Serves x i) : 0 < steps dec x i := by
  have hrow : (x.demux a).bFifo.contents = k :: lane a H := by rw [hG.bRows, lane_cons_self]
  rcases Fin.eq_castSucc_or_eq_last k with ⟨j, rfl⟩ | rfl
  · have hcol : (x.mux j).bFifo.contents = a :: lane j.castSucc (turn H) := by
      rw [hG.bCols, turn_cons, Prod.swap_prod_mk, lane_cons_self]
    have hpos : 0 < (x.mux j).bFifo.contents.length := hcol ▸ Nat.succ_pos _
    -- either the slave is offered what has been picked for it
    by_cases hoffered : 0 < (x.mux j).awSpill.contents.length + (x.mux j).lockAwValidQ.toNat →
        (x.mux j).awSpill.validO = true
    · rcases (hserves.slv j).moves hoffered (fun hb => absurd hb hpos.ne') (by omega)
        with ⟨-, hvalid⟩ | ⟨hshown, hready⟩ | ⟨hb, -⟩
      · obtain ⟨hsome, hfront⟩ := FifoV3.front_of_contents hcol
        apply answered_of_front dec hserves hrow
        simp [demuxIn, MuxWrite.slvBValids, MuxWrite.bSelect, hsome, hfront, hvalid]
      · exact given_of_valid dec hshown hready
      · exact absurd hb hpos.ne'
    · -- or the address moves on towards it
      obtain ⟨hsome, hnot⟩ := Classical.not_imp.1 hoffered
      exact (offered_of_picked dec h i hsome).resolve_left hnot
  · -- an error is answered by the demultiplexer's own slave
    have hpos : 0 < (x.demux a).bFifo.contents.count (Fin.last N) := by
      rw [hrow]
      exact List.count_pos_iff.2 List.mem_cons_self
    rcases (hserves.err a).moves offered_of_errAw (fun hb => absurd hb hpos.ne') (by omega)
      with ⟨-, hvalid⟩ | ⟨hshown, hready⟩ | ⟨hb, -⟩
    · apply answered_of_front dec hserves hrow
      simp [demuxIn, hvalid]
    · exact handed_of_err dec hshown hready
    · exact absurd hb hpos.ne'

/-- Where no answer is owed, the data word of the oldest write is offered to its
slave, which takes it or the address. -/
theorem moves_data (h : Inv x) {G : List (Fin M × Fin (N + 1))} {k : Fin (N + 1)}
    (hG : Matched x ((a, k) :: G) []) (hserves : Serves x i) : 0 < steps dec x i := by
  have hrow : (x.demux a).wFifo.contents = k :: (lane a G ++ slot (x.waits a) (x.port a)) := by
    rw [hG.wRows, lane_cons_self, List.cons_append]
  have hroom : (x.demux a).bFifo.contents = [] := hG.bRows a
  obtain ⟨hsome, hfront⟩ := FifoV3.front_of_contents hrow
  have hvalid : (i.mst a).wValid = true := (hserves.mst a).1 hsome
  -- the data word is there, and nothing holds it up on this side
  have hoffered : (x.demux a).mstWValids (i.mst a).wValid k = true := by
    simp [DemuxWrite.mstWValids, DemuxWrite.wOpen, DemuxWrite.wSelect, hsome, hfront, hvalid,
      FifoV3.not_full_of_nil hroom]
  rcases Fin.eq_castSucc_or_eq_last k with ⟨j, rfl⟩ | rfl
  · have hcol : (x.mux j).wFifo.contents = a :: lane j.castSucc (turn G) := by
      rw [hG.wCols, turn_cons, Prod.swap_prod_mk, lane_cons_self]
    obtain ⟨hsome', hfront'⟩ := FifoV3.front_of_contents hcol
    have hnob : (x.mux j).bFifo.contents = [] := hG.bCols j
    have hopen : (x.mux j).wOpen = true := by
      simp [MuxWrite.wOpen, hsome', FifoV3.not_full_of_nil hnob]
    -- nor on the side of the slave
    have hwOffered : (x.mux j).mstWValid (x.muxIn i j).wValids = true := by
      rw [MuxWrite.mstWValid, hopen, if_pos rfl, MuxWrite.wSelect, hfront']
      exact hoffered
    have hpos : 0 < (x.mux j).wFifo.contents.length := hcol ▸ Nat.succ_pos _
    by_cases hawOffered : 0 < (x.mux j).awSpill.contents.length + (x.mux j).lockAwValidQ.toNat →
        (x.mux j).awSpill.validO = true
    · rcases (hserves.slv j).moves hawOffered (fun _ _ => hwOffered) (by omega)
        with ⟨hb, -⟩ | ⟨hshown, hready⟩ | ⟨-, -, -, hready⟩
      · rw [hnob] at hb
        cases hb
      · exact given_of_valid dec hshown hready
      · apply written_of_front dec hserves hrow hroom
        simp [demuxIn, MuxWrite.slvWReadies, MuxWrite.wSelect, hopen, hfront', hready]
    · -- its address has not got that far yet
      obtain ⟨hsome, hnot⟩ := Classical.not_imp.1 hawOffered
      exact (offered_of_picked dec h i hsome).resolve_left hnot
  · -- the data word of an error
    have hpos : 0 < (x.demux a).wFifo.contents.count (Fin.last N) := by
      rw [hrow]
      exact List.count_pos_iff.2 List.mem_cons_self
    rcases (hserves.err a).moves offered_of_errAw (fun _ _ => hoffered) (by omega)
      with ⟨hb, -⟩ | ⟨hshown, hready⟩ | ⟨-, -, -, hready⟩
    · rw [hroom] at hb
      cases hb
    · exact handed_of_err dec hshown hready
    · apply written_of_front dec hserves hrow hroom
      simp [demuxIn, hready]

/-- Where no data word and no answer is to come, an address moves. -/
theorem moves_addr (h : Inv x) (hG : Matched x [] []) (hserves : Serves x i) (hwork : 0 < x.work) :
    0 < steps dec x i := by
  have hwCol : ∀ j, (x.mux j).wFifo.contents = [] := hG.wCols
  have hbCol : ∀ j, (x.mux j).bFifo.contents = [] := hG.bCols
  have hbRow : ∀ a, (x.demux a).bFifo.contents = [] := hG.bRows
  by_cases hpicked : ∃ j, 0 < (x.mux j).awSpill.contents.length + (x.mux j).lockAwValidQ.toNat
  · -- a slave has both its other channels behind it and takes the address
    obtain ⟨j, hsome⟩ := hpicked
    rcases offered_of_picked dec h i hsome with hoffered | hstep
    · rcases (hserves.slv j).moves (fun _ => hoffered) (fun _ hw => by simp [hwCol j] at hw)
        (by omega) with ⟨hb, -⟩ | ⟨hshown, hready⟩ | ⟨-, hw, -⟩
      · simp [hbCol j] at hb
      · exact given_of_valid dec hshown hready
      · simp [hwCol j] at hw
    · exact hstep
  -- the multiplexers hold no address either
  have hidle : ∀ j, (x.mux j).awSpill.contents = [] ∧ (x.mux j).lockAwValidQ = false := by
    intro j
    have hnone : ¬ 0 < (x.mux j).awSpill.contents.length + (x.mux j).lockAwValidQ.toNat :=
      fun hsome => hpicked ⟨j, hsome⟩
    have hboth : (x.mux j).awSpill.contents.length = 0
        ∧ (x.mux j).lockAwValidQ.toNat = 0 := by omega
    refine ⟨List.length_eq_zero_iff.1 hboth.1, ?_⟩
    cases hlock : (x.mux j).lockAwValidQ with
    | false => rfl
    | true => rw [hlock] at hboth; cases hboth.2
  -- so the work left is an address in a demultiplexer
  have hsome : ∃ a, (x.demux a).awSpill.validO = true := by
    by_contra hnone
    have hinvalid : ∀ a, (x.demux a).awSpill.validO = false :=
      fun a => Bool.eq_false_of_not_eq_true fun hvalid => hnone ⟨a, hvalid⟩
    have hspill : ∀ a, (x.demux a).awSpill.contents = [] :=
      fun a => Spill.contents_of_not_valid (hinvalid a)
    have hlock : ∀ a, (x.demux a).lockAwValidQ = false :=
      fun a => Bool.eq_false_of_not_eq_true fun hlock => hnone ⟨a, h.demux a hlock⟩
    have hwRow : ∀ a, (x.demux a).wFifo.contents = [] := by
      intro a
      rw [hG.wRows, waits, hlock]
      rfl
    have hidle' : ∀ j, (x.mux j).awSpill.contents = [] := fun j => (hidle j).1
    simp [work, hspill, hlock, hwRow, hbRow, hidle', DemuxWrite.unsent] at hwork
  obtain ⟨a, hvalid⟩ := hsome
  have hwRow : (x.demux a).wFifo.contents = slot (x.waits a) (x.port a) := hG.wRows a
  cases hlock : (x.demux a).lockAwValidQ with
  | false =>
      -- there is room for its port
      rw [waits, hlock] at hwRow
      apply pushed_of_push (a := a) dec i
      rw [DemuxWrite.push, wFifoPush, hlock, FifoV3.not_full_of_nil hwRow, hvalid]
      rfl
  | true =>
      obtain ⟨hshown, -⟩ := DemuxWrite.shown_of_lock hlock
      rcases Fin.eq_castSucc_or_eq_last (x.port a) with ⟨j, hport⟩ | hport
      · -- its port has been pushed: the arbiter of the slave finds it
        have hvalids : (x.muxIn i j).awValids a = true := by
          have hboth : ((x.demux a).awShown && x.port a == j.castSucc) = true := by
            rw [hshown, hport, beq_self_eq_true]
            rfl
          exact hboth
        have hreq :=
          RrArb.reqO_of_reqI (i := ⟨(x.muxIn i j).awValids, false⟩) (h.mux j).some hvalids
        have hready : (x.mux j).awSpill.readyO = true := by
          rw [Spill.ready_iff_length, (hidle j).1]
          exact Nat.zero_lt_two
        apply handed_of_grant (j := j) dec h
        rw [MuxWrite.awGrant_eq, MuxWrite.awShown, mstAwValid, (hidle j).2,
          FifoV3.not_full_of_nil (hwCol j), hready]
        simpa using hreq
      · -- for an error there is no arbiter
        rw [waits, hport, Fin.lastCases_last, Bool.and_false] at hwRow
        have herr : x.errAw a = true := by rw [errAw, hlock, decide_eq_true hport]; rfl
        rcases (hserves.err a).moves offered_of_errAw (fun _ hw => by simp [hwRow, slot] at hw)
          (by rw [herr]; exact Nat.add_pos_left (Nat.add_pos_left Nat.one_pos _) _)
          with ⟨hb, -⟩ | ⟨hoffered, hready⟩ | ⟨-, hw, -⟩
        · simp [hbRow a] at hb
        · exact handed_of_err dec hoffered hready
        · simp [hwRow, slot] at hw

/-- There is no deadlock: as long as a write is in the crossbar, an edge without
stalls makes a step. -/
theorem moves (h : Inv x) {G H : List (Fin M × Fin (N + 1))} (hG : Matched x G H)
    (hserves : Serves x i) (hwork : 0 < x.work) : 0 < steps dec x i := by
  -- responses first, then data words, then addresses
  cases H with
  | cons p H => exact moves_answer dec h hG hserves
  | nil =>
      cases G with
      | cons p G => exact moves_data dec h hG hserves
      | nil => exact moves_addr dec h hG hserves hwork

/-! ## Runs -/

omit [NeZero M] in
theorem work_le (x : XbarWrite M N dm mm AW) : x.work ≤ M * (10 + 3 * dm.depth) + 2 * N := by
  have hdemux : ∀ a ∈ Finset.univ, 2 * (x.demux a).awSpill.contents.length
      + 3 * (x.demux a).unsent.length + 2 * (x.demux a).wFifo.contents.length
      + (x.demux a).bFifo.contents.length ≤ 10 + 3 * dm.depth := by
    intro a _
    have hspill := (x.demux a).awSpill.length_contents_le
    have hunsent : (x.demux a).unsent.length ≤ (x.demux a).awSpill.contents.length := by
      rw [DemuxWrite.unsent]
      split
      · rw [List.length_drop]
        exact Nat.sub_le _ _
      · exact Nat.le_refl _
    have hw : (x.demux a).wFifo.contents.length ≤ dm.depth := (x.demux a).wFifo.length_contents_le
    have hb : (x.demux a).bFifo.contents.length ≤ dm.depth := (x.demux a).bFifo.length_contents_le
    omega
  have hmux : ∀ j ∈ Finset.univ, (x.mux j).awSpill.contents.length ≤ 2 :=
    fun j _ => (x.mux j).awSpill.length_contents_le
  have hrows := Finset.sum_le_card_nsmul _ _ _ hdemux
  have hcols := Finset.sum_le_card_nsmul _ _ _ hmux
  rw [Finset.card_univ, Fintype.card_fin, smul_eq_mul] at hrows hcols
  rw [work]
  omega

theorem matched_reset : Matched (reset z : XbarWrite M N dm mm AW) [] [] :=
  ⟨fun _ _ h => absurd h Bool.false_ne_true, fun _ => rfl, fun _ => rfl, fun _ => rfl, fun _ => rfl⟩

/-- A state in which some order of the writes has the FIFOs as its lanes. -/
def Orderly (x : XbarWrite M N dm mm AW) : Prop := Inv x ∧ ∃ G H, Matched x G H

theorem orderly_step (h : Orderly x) (i : XbarWriteIn M N AW W B) : Orderly (x.step dec z i) := by
  obtain ⟨hinv, G, H, hG⟩ := h
  exact ⟨inv_step dec z hinv i, _, _, matched_step dec z hinv hG i⟩

theorem orderly_run (ins : List (XbarWriteIn M N AW W B)) :
    Orderly (run (step dec z) (reset z : XbarWrite M N dm mm AW) ins) :=
  run_preserves Orderly ⟨inv_reset z, [], [], matched_reset z⟩
    (fun _ i h => orderly_step dec z h i) ins

/-- The masters present no further address. -/
def Quiet (i : XbarWriteIn M N AW W B) : Prop := ∀ a, (i.mst a).awValid = false

theorem work_step_quiet (h : Inv x) (hquiet : Quiet i) :
    (x.step dec z i).work + steps dec x i ≤ x.work := by
  have hstep := work_step dec z h i
  have hnone : ∀ a, ((x.demux a).awTaken (x.demuxIn dec i a)).length = 0 := by
    intro a
    have hlow : (x.demuxIn dec i a).awValid = false := hquiet a
    rw [DemuxWrite.awTaken, hlow]
    rfl
  simpa [hnone] using hstep

section

variable (dm mm)

/-- The writes of master `a` and slave `j` are done. -/
structure Drained (a : Fin M) (j : Fin N) (ins : List (XbarWriteIn M N AW W B)) : Prop where
  /-- Every address of the master has its data word and its answer. -/
  answered : tags (wFrom dm mm dec z a ins) = tags (awFrom dm mm dec z a ins) ∧
    tags (bTo dm mm dec z a ins) = tags (awFrom dm mm dec z a ins)
  /-- So has every address that the slave has taken. -/
  paid : tags (wTo dm mm dec z j ins) = tags (awTaken dm mm dec z j ins) ∧
    tags (bFrom dm mm dec z j ins) = tags (awTaken dm mm dec z j ins)
  /-- It has taken all addresses that the master has sent to it. -/
  taken : lane a (awTaken dm mm dec z j ins) = lane j.castSucc (awFrom dm mm dec z a ins)
  /-- Each address has its own data word and its own answer, on both sides. -/
  writes : lane a (join (join (awTaken dm mm dec z j ins) (wTo dm mm dec z j ins))
      (bFrom dm mm dec z j ins))
    = lane j.castSucc (join (join (awFrom dm mm dec z a ins) (wFrom dm mm dec z a ins))
      (bTo dm mm dec z a ins))

/-- In an empty crossbar every write is done. -/
theorem drained_of_work {ins : List (XbarWriteIn M N AW W B)}
    (hwork : (run (step dec z) (reset z : XbarWrite M N dm mm AW) ins).work = 0) (a : Fin M)
    (j : Fin N) : Drained dm mm dec z a j ins := by
  have hrun : Orderly (run (step dec z) (reset z : XbarWrite M N dm mm AW) ins) :=
    orderly_run dec z ins
  obtain ⟨hmaw, hmb, haw⟩ := mst_order dm mm dec z a ins
  obtain ⟨hsw, hsb, hpicked⟩ := slv_order dm mm dec z j ins
  generalize run (step dec z) (reset z : XbarWrite M N dm mm AW) ins = x
    at hwork hrun hmaw hmb haw hsw hsb hpicked
  obtain ⟨hinv, G, H, hG⟩ := hrun
  simp only [work, Nat.add_eq_zero_iff, Finset.sum_eq_zero_iff, Finset.mem_univ, true_imp_iff,
    mul_eq_zero, List.length_eq_zero_iff] at hwork
  obtain ⟨hdemux, hmux⟩ := hwork
  -- nothing left in any FIFO, spill register or lock
  have hspill : ∀ a, (x.demux a).awSpill.contents = [] := fun a => by simpa using (hdemux a).1.1.1
  have hunsent : (x.demux a).unsent = [] := by simpa using (hdemux a).1.1.2
  have hwRow : ∀ a, (x.demux a).wFifo.contents = [] := fun a => by simpa using (hdemux a).1.2
  have hbRow : ∀ a, (x.demux a).bFifo.contents = [] := fun a => (hdemux a).2
  have hG' : G = [] := eq_nil_of_lanes fun a =>
    (List.append_eq_nil_iff.1 ((hG.wRows a).symm.trans (hwRow a))).1
  have hH' : H = [] := eq_nil_of_lanes fun a => (hG.bRows a).symm.trans (hbRow a)
  have hwCol : (x.mux j).wFifo.contents = [] := by rw [hG.wCols, hG']; rfl
  have hbCol : (x.mux j).bFifo.contents = [] := by rw [hG.bCols, hH']; rfl
  rw [hwRow, hunsent, tags_nil, List.append_nil, List.append_nil] at hmaw
  rw [hbRow, List.append_nil] at hmb
  rw [hspill, List.append_nil] at haw
  rw [hbCol, List.append_nil] at hsb
  rw [hmux j, List.append_nil] at hpicked
  -- the slave has taken all that has been picked for it
  have htaken : awTaken dm mm dec z j ins = awPicked dm mm dec z j ins := by
    rw [awTaken, ← hpicked, List.length_map, List.take_length]
  have hnolock : (x.mux j).unsent = [] := by
    rw [MuxWrite.unsent]
    cases hlock : (x.mux j).lockAwValidQ with
    | false => rfl
    | true =>
        -- the address would be in the spill register of its master
        have hlocked : x.lockedAt ((x.mux j).awSelect fun _ => false) j = true := by
          rw [lockedAt, hlock, decide_eq_true rfl]
          rfl
        have hvalid := hinv.demux _ (hG.meet _ _ hlocked)
        have hcons := Spill.contents_of_valid hvalid
        rw [hspill] at hcons
        cases hcons
  rw [hwCol, hnolock, List.append_nil, List.append_nil, ← htaken] at hsw
  have hall : lane a (awTaken dm mm dec z j ins) = lane j.castSucc (awFrom dm mm dec z a ins) := by
    rw [htaken, haw, aw_lane]
  have hsb' : tags (awTaken dm mm dec z j ins) = tags (bFrom dm mm dec z j ins) := by
    rw [← hsw, hsb]
  refine ⟨⟨hmaw.symm, by rw [hmaw, hmb]⟩, ⟨hsw, hsb'.symm⟩, hall, ?_⟩
  rw [lane_join_of_tags a (by rw [tags_join_of_tags hsw.symm, hsb']), lane_join_of_tags a hsw.symm,
    lane_join_of_tags j.castSucc (by rw [tags_join_of_tags hmaw, hmaw, hmb]),
    lane_join_of_tags j.castSucc hmaw, hall, w_lane, b_lane]

/-- The crossbar of two or more masters drains, whatever has happened before:
when they present no further addresses, so many edges without stalls finish every
write. The other edges may come in between in any way. -/
theorem writes_drain (pre ins : List (XbarWriteIn M N AW W B)) (hquiet : ∀ i ∈ ins, Quiet i)
    (hmany : M * (10 + 3 * dm.depth) + 2 * N
      ≤ edges (step dec z) Serves (run (step dec z) (reset z : XbarWrite M N dm mm AW) pre) ins)
    (a : Fin M) (j : Fin N) : Drained dm mm dec z a j (pre ++ ins) := by
  apply drained_of_work
  rw [run_append]
  -- the rank is what is left to do: no edge adds to it, one without stalls takes off
  refine rank_used_up (C := Serves) Orderly work (fun x i h _ => orderly_step dec z h i) ?_ ?_
    (orderly_run dec z pre) hquiet (le_trans (work_le _) hmany)
  · intro x i h hi
    exact le_trans (Nat.le_add_right _ _) (work_step_quiet dec z h.1 hi)
  · intro x i h hi hserves hpos
    obtain ⟨hinv, G, H, hG⟩ := h
    have hmoves := moves dec hinv hG hserves hpos
    have hstep := work_step_quiet dec z hinv hi
    omega

end

end XbarWrite

/-- No address is presented, and everybody serves. -/
def quietWrite : XbarWriteIn 2 Bus.xbarIntNoSlave (BitVec 32) (BitVec 32) (BitVec 2) where
  mst _ := ⟨false, 0, true, 9, true⟩
  slv _ := ⟨true, true, true, 0⟩
  err _ := ⟨true, true, true, 3⟩

theorem quietWrite_serves (x : XbarWrite 2 Bus.xbarIntNoSlave fourTrans fourTrans (BitVec 32)) :
    x.Serves quietWrite :=
  ⟨fun _ => ⟨fun _ => rfl, fun _ => rfl⟩,
    fun _ => ⟨fun _ _ => rfl, fun _ _ _ => rfl, fun _ _ _ => rfl, fun _ _ _ _ => .inl rfl⟩,
    fun _ => ⟨fun _ _ => rfl, fun _ _ _ => rfl, fun _ _ _ => rfl, fun _ _ _ _ => .inl rfl⟩⟩

theorem backbone_writes_drain :
    XbarWrite.Drained fourTrans fourTrans slvSelect 0 (1 : Fin 2) (0 : Fin Bus.xbarIntNoSlave)
      (List.replicate 8 bothWrite ++ List.replicate 54 quietWrite) := by
  refine XbarWrite.writes_drain fourTrans fourTrans slvSelect 0 _ _ ?_ ?_ 1 0
  · intro i hi a
    rw [List.eq_of_mem_replicate hi]
    rfl
  · have hserves : ∀ i ∈ List.replicate 54 quietWrite, i = quietWrite :=
      fun i hi => List.eq_of_mem_replicate hi
    rw [edges_of_along (along_mono _ (fun x i hi => hi ▸ quietWrite_serves x)
      (along_of_inputs _ hserves))]
    decide

end SocRtl.Xbar
