import SocRtl.Lib.Clocked
import SocRtl.Lib.Queue
import SocRtl.Lib.Ring

/-!
# SocRtl.Fifo.SyncFifoSp — the single-port FIFO of `sync_fifo.sv`

One request a cycle: `cs_en` asks for an access, `wr_en` says which. The words
live in a single-port RAM, `sp_ram_top`, whose macro `RF1SHD` is not part of
the sources; the FIFO is proved against any RAM that obeys the laws of
`SpRam`. It is a bounded queue that sees a write or a read, never both.
-/

namespace SocRtl.Fifo

/-! ## The RAM -/

/-- What a clock edge shows to the port. Both enables are low-active. -/
structure SpRamIn (A D : ℕ) where
  cen : Bool
  wen : Bool
  a : BitVec A
  d : BitVec D

/-- The port is asked to write. -/
def SpRamIn.writes {A D : ℕ} (i : SpRamIn A D) : Bool := !i.cen && !i.wen

/-- The port is asked to read. -/
def SpRamIn.reads {A D : ℕ} (i : SpRamIn A D) : Bool := !i.cen && i.wen

/-- A synchronous single-port RAM of `2 ^ A` words. A word read is on `q` after
the edge; nothing is said about `q` after an edge without a read. -/
structure SpRam (A D : ℕ) where
  State : Type
  step : State → SpRamIn A D → State
  word : State → BitVec A → BitVec D
  q : State → BitVec D
  word_step : ∀ s i a, word (step s i) a
    = if i.writes = true ∧ i.a = a then i.d else word s a
  q_step : ∀ s i, i.reads = true → q (step s i) = word s i.a

namespace SpRam

variable {A D : ℕ}

theorem word_step_of_write (R : SpRam A D) (s : R.State) (a : BitVec A) (d : BitVec D) :
    R.word (R.step s ⟨false, false, a, d⟩) = Function.update (R.word s) a d := by
  funext b
  rw [R.word_step]
  by_cases h : b = a
  · subst h
    simp [SpRamIn.writes]
  · rw [Function.update_of_ne h, if_neg]
    rintro ⟨_, hab⟩
    exact h hab.symm

theorem word_step_of_idle (R : SpRam A D) (s : R.State) {i : SpRamIn A D}
    (h : i.writes = false) : R.word (R.step s i) = R.word s := by
  funext b
  rw [R.word_step, if_neg]
  rintro ⟨hw, _⟩
  rw [h] at hw
  exact Bool.noConfusion hw

end SpRam

/-- A register file that holds its output between reads. -/
def registerFile (A D : ℕ) : SpRam A D where
  State := (BitVec A → BitVec D) × BitVec D
  step := fun s i =>
    (fun a => if i.writes = true ∧ i.a = a then i.d else s.1 a,
      if i.reads then s.1 i.a else s.2)
  word := fun s => s.1
  q := fun s => s.2
  word_step := fun _ _ _ => rfl
  q_step := fun _ _ h => if_pos h

/-! ## The FIFO -/

/-- The registers of `sync_fifo` with `ADR_BIT = A`, `DAT_BIT = D` and
`WEN_BIT = 1`, and its RAM. -/
structure SyncFifoSp {A D : ℕ} (R : SpRam A D) where
  wrPtr : BitVec (A + 1)
  rdPtr : BitVec (A + 1)
  ram : R.State

/-- The inputs a clock edge samples. -/
structure SyncFifoSpIn (D : ℕ) where
  csEn : Bool
  wrEn : Bool
  wrDat : BitVec D

namespace SyncFifoSp

variable {A D : ℕ} {R : SpRam A D}

/-- Reset. The RAM keeps what it held. -/
def reset (ram : R.State) : SyncFifoSp R := ⟨0, 0, ram⟩

def fifoFull (s : SyncFifoSp R) : Bool :=
  (s.wrPtr.getLsbD A ^^ s.rdPtr.getLsbD A) && decide (Ring.low s.wrPtr = Ring.low s.rdPtr)

def fifoEmpty (s : SyncFifoSp R) : Bool := decide (s.wrPtr = s.rdPtr)

def fifoCount (s : SyncFifoSp R) : BitVec (A + 1) := s.wrPtr - s.rdPtr

/-- `rd_dat`, the output of the RAM. -/
def rdDat (s : SyncFifoSp R) : BitVec D := R.q s.ram

def rdReq (i : SyncFifoSpIn D) : Bool := i.csEn && !i.wrEn

def wrReq (i : SyncFifoSpIn D) : Bool := i.csEn && i.wrEn

def wrActual (s : SyncFifoSp R) (i : SyncFifoSpIn D) : Bool := wrReq i && !s.fifoFull

def rdActual (s : SyncFifoSp R) (i : SyncFifoSpIn D) : Bool :=
  !s.wrActual i && rdReq i && !s.fifoEmpty

/-- The RAM control of the combinational block. -/
def ramCtl (s : SyncFifoSp R) (i : SyncFifoSpIn D) : SpRamIn A D :=
  if s.wrActual i then ⟨false, false, Ring.low s.wrPtr, i.wrDat⟩
  else if s.rdActual i then ⟨false, true, Ring.low s.rdPtr, 0⟩
  else ⟨true, true, 0, 0⟩

/-- One clock edge. -/
def step (s : SyncFifoSp R) (i : SyncFifoSpIn D) : SyncFifoSp R where
  wrPtr := if s.wrActual i then s.wrPtr + 1 else s.wrPtr
  rdPtr := if s.rdActual i then s.rdPtr + 1 else s.rdPtr
  ram := R.step s.ram (s.ramCtl i)

/-! ## One access a cycle -/

/-- A grant is a request, and the requests exclude one another. -/
theorem not_rdActual_of_wrActual {s : SyncFifoSp R} {i : SyncFifoSpIn D}
    (h : s.wrActual i = true) : s.rdActual i = false := by
  unfold rdActual
  rw [h]
  rfl

theorem ramCtl_writes (s : SyncFifoSp R) (i : SyncFifoSpIn D) :
    (s.ramCtl i).writes = s.wrActual i := by
  unfold ramCtl
  cases s.wrActual i with
  | true => rfl
  | false => cases s.rdActual i <;> rfl

theorem ramCtl_reads (s : SyncFifoSp R) (i : SyncFifoSpIn D) :
    (s.ramCtl i).reads = s.rdActual i := by
  cases hw : s.wrActual i with
  | true =>
      rw [not_rdActual_of_wrActual hw, ramCtl, hw]
      rfl
  | false =>
      rw [ramCtl, hw]
      cases s.rdActual i <;> rfl

/-! ## The queue it holds -/

/-- The words stored, oldest first. -/
def contents (s : SyncFifoSp R) : List (BitVec D) :=
  Ring.contents (R.word s.ram) s.wrPtr s.rdPtr

/-- The word a granted write stores. -/
def stored (s : SyncFifoSp R) (i : SyncFifoSpIn D) : List (BitVec D) :=
  if s.wrActual i then [i.wrDat] else []

/-- What `rd_dat` shows in the cycle after a granted read. -/
def returned (s : SyncFifoSp R) (i : SyncFifoSpIn D) : List (BitVec D) :=
  if s.rdActual i then [(s.step i).rdDat] else []

/-- The pointers are at most one lap of the RAM apart. -/
def Wf (s : SyncFifoSp R) : Prop := Ring.occ s.wrPtr s.rdPtr ≤ 2 ^ A

/-- The count is the number of words stored. -/
theorem toNat_fifoCount (s : SyncFifoSp R) : s.fifoCount.toNat = s.contents.length :=
  (Ring.length_contents (R.word s.ram) s.wrPtr s.rdPtr).symm

theorem fifoFull_iff (s : SyncFifoSp R) : s.fifoFull = true ↔ s.contents.length = 2 ^ A := by
  rw [contents, Ring.length_contents, Ring.occ_eq_full_iff]
  simp [fifoFull]

theorem fifoEmpty_iff (s : SyncFifoSp R) : s.fifoEmpty = true ↔ s.contents.length = 0 := by
  rw [contents, Ring.length_contents, Ring.occ_eq_zero_iff]
  simp [fifoEmpty]

theorem wrActual_iff {s : SyncFifoSp R} (hs : s.Wf) (i : SyncFifoSpIn D) :
    s.wrActual i = true ↔ wrReq i = true ∧ s.contents.length < 2 ^ A := by
  have hle : s.contents.length ≤ 2 ^ A := by
    rw [contents, Ring.length_contents]
    exact hs
  have hfull := fifoFull_iff s
  unfold wrActual
  rw [Bool.and_eq_true, Bool.not_eq_true', ← Bool.not_eq_true, hfull]
  -- a count that cannot exceed the depth and is not the depth is below it
  refine and_congr_right fun _ => ?_
  omega

theorem rdActual_iff (s : SyncFifoSp R) (i : SyncFifoSpIn D) :
    s.rdActual i = true ↔ rdReq i = true ∧ 0 < s.contents.length := by
  have hempty := fifoEmpty_iff s
  -- a read request excludes the write, so the guard against writes is void
  have hexcl : rdReq i = true → s.wrActual i = false := by
    unfold rdReq wrActual wrReq
    cases i.csEn <;> cases i.wrEn <;> simp
  unfold rdActual
  rw [Bool.and_eq_true, Bool.and_eq_true, Bool.not_eq_true', Bool.not_eq_true', ← Bool.not_eq_true,
    ← Bool.not_eq_true, hempty]
  constructor
  · rintro ⟨⟨_, hreq⟩, hne⟩
    exact ⟨hreq, Nat.pos_of_ne_zero hne⟩
  · rintro ⟨hreq, hpos⟩
    refine ⟨⟨?_, hreq⟩, Nat.ne_of_gt hpos⟩
    rw [hexcl hreq]
    exact Bool.noConfusion

/-- The word read is on `rd_dat` after the edge. -/
theorem rdDat_step {s : SyncFifoSp R} {i : SyncFifoSpIn D} (h : s.rdActual i = true) :
    (s.step i).rdDat = R.word s.ram (Ring.low s.rdPtr) := by
  have haddr : (s.ramCtl i).a = Ring.low s.rdPtr := by
    have hw : s.wrActual i = false := by
      cases hw : s.wrActual i with
      | true => rw [not_rdActual_of_wrActual hw] at h; exact Bool.noConfusion h
      | false => rfl
    rw [ramCtl, hw, h]
    rfl
  show R.q (R.step s.ram (s.ramCtl i)) = _
  rw [R.q_step _ _ ((ramCtl_reads s i).trans h), haddr]

/-- One edge of the queue: what was in it and what goes in is what comes out
and what stays. -/
theorem step_contents {s : SyncFifoSp R} (hs : s.Wf) (i : SyncFifoSpIn D) :
    s.contents ++ s.stored i = s.returned i ++ (s.step i).contents ∧ (s.step i).Wf := by
  unfold stored returned
  cases hw : s.wrActual i with
  | true =>
      -- a write: the port has no cycle left for a read
      have hr := not_rdActual_of_wrActual hw
      have hroom : Ring.occ s.wrPtr s.rdPtr < 2 ^ A := by
        have hlen := ((wrActual_iff hs i).mp hw).2
        rwa [contents, Ring.length_contents] at hlen
      have hnext : s.step i
          = ⟨s.wrPtr + 1, s.rdPtr, R.step s.ram ⟨false, false, Ring.low s.wrPtr, i.wrDat⟩⟩ := by
        simp [step, hw, hr, ramCtl]
      rw [hr, hnext]
      simp only [contents, Wf, R.word_step_of_write, Ring.contents_push _ i.wrDat hroom,
        Ring.occ_push hroom]
      exact ⟨rfl, hroom⟩
  | false =>
      -- no write: the memory stays, only the read pointer may move
      have hmem : R.word (s.step i).ram = R.word s.ram :=
        R.word_step_of_idle s.ram ((ramCtl_writes s i).trans hw)
      cases hr : s.rdActual i with
      | true =>
          have hword : 0 < Ring.occ s.wrPtr s.rdPtr := by
            have hlen := ((rdActual_iff s i).mp hr).2
            rwa [contents, Ring.length_contents] at hlen
          have hpop := Ring.occ_pop hword
          have hle : Ring.occ s.wrPtr s.rdPtr ≤ 2 ^ A := hs
          have hwp : (s.step i).wrPtr = s.wrPtr := by simp [step, hw]
          have hrp : (s.step i).rdPtr = s.rdPtr + 1 := by simp [step, hr]
          simp only [contents, Wf, hmem, hwp, hrp, rdDat_step hr, Ring.contents_pop _ hword]
          exact ⟨List.append_nil _, by omega⟩
      | false =>
          have hwp : (s.step i).wrPtr = s.wrPtr := by simp [step, hw]
          have hrp : (s.step i).rdPtr = s.rdPtr := by simp [step, hr]
          simp only [contents, Wf, hmem, hwp, hrp]
          exact ⟨List.append_nil _, hs⟩

/-! ## It is a bounded queue -/

/-- One edge of the queue that the FIFO stands for. -/
def queueStep (q : Queue (BitVec D) (2 ^ A)) (i : SyncFifoSpIn D) : Queue (BitVec D) (2 ^ A) :=
  q.step (wrReq i) (rdReq i) i.wrDat

/-- The FIFO holds what the queue holds. -/
structure Refines (s : SyncFifoSp R) (q : Queue (BitVec D) (2 ^ A)) : Prop where
  wf : s.Wf
  items : s.contents = q.items

theorem refines_reset (ram : R.State) : Refines (reset ram) (Queue.nil (R.q ram)) := by
  constructor
  · simp [Wf, reset, Ring.occ]
  · have hempty : (reset ram).fifoEmpty = true := by simp [fifoEmpty, reset]
    exact List.length_eq_zero_iff.mp ((fifoEmpty_iff _).mp hempty)

theorem stored_of_refines {s : SyncFifoSp R} {q : Queue (BitVec D) (2 ^ A)} (h : Refines s q)
    (i : SyncFifoSpIn D) : s.stored i = q.accepted (wrReq i) i.wrDat := by
  have hiff := wrActual_iff h.wf i
  rw [h.items] at hiff
  exact if_congr hiff rfl rfl

theorem returned_of_refines {s : SyncFifoSp R} {q : Queue (BitVec D) (2 ^ A)} (h : Refines s q)
    (i : SyncFifoSpIn D) : s.returned i = q.granted (rdReq i) := by
  have hiff := rdActual_iff s i
  unfold returned Queue.granted
  cases hr : s.rdActual i with
  | true =>
      obtain ⟨hreq, hpos⟩ := hiff.mp hr
      rw [contents, Ring.length_contents] at hpos
      rw [hreq, ← h.items, contents, Ring.contents_pop _ hpos, rdDat_step hr]
      rfl
  | false =>
      cases hreq : rdReq i with
      | false => rfl
      | true =>
          -- the request found the queue empty
          have hnil : ¬ 0 < q.items.length := by
            intro hpos
            rw [← h.items] at hpos
            rw [hiff.mpr ⟨hreq, hpos⟩] at hr
            exact Bool.noConfusion hr
          rw [List.length_eq_zero_iff.mp (Nat.eq_zero_of_not_pos hnil)]
          rfl

theorem refines_step {s : SyncFifoSp R} {q : Queue (BitVec D) (2 ^ A)} (h : Refines s q)
    (i : SyncFifoSpIn D) : Refines (s.step i) (queueStep q i) := by
  obtain ⟨hfifo, hwf⟩ := step_contents h.wf i
  have hqueue := q.step_items (wrReq i) (rdReq i) i.wrDat
  rw [h.items, stored_of_refines h i, returned_of_refines h i, hqueue] at hfifo
  exact ⟨hwf, (List.append_cancel_left hfifo).symm⟩

/-- The queue that sees the same requests as the FIFO does from reset on. -/
def queueAfter (ram : R.State) (ins : List (SyncFifoSpIn D)) : Queue (BitVec D) (2 ^ A) :=
  run queueStep (Queue.nil (R.q ram)) ins

theorem refines_run (ram : R.State) (ins : List (SyncFifoSpIn D)) :
    Refines (run step (reset ram) ins) (queueAfter ram ins) :=
  run_related Refines (refines_reset ram) (fun _ _ i h => refines_step h i) ins

/-- The words stored and the words returned, over a run from reset. -/
theorem stored_eq_returned (ram : R.State) (ins : List (SyncFifoSpIn D)) :
    events step stored (reset ram) ins
      = events step returned (reset ram) ins ++ (run step (reset ram) ins).contents := by
  have hreset := refines_reset ram
  have hcontents : (reset ram).contents = [] := hreset.items
  have halong : Along step (fun s i => s.contents ++ s.stored i
      = s.returned i ++ (s.step i).contents) (reset ram) ins :=
    along_mono step (fun s i (hs : s.Wf) => (step_contents hs i).1)
      (along_of_preserved step Wf (fun s i hs => (step_contents hs i).2) hreset.wf ins)
  have hrun := events_conserved halong
  rwa [hcontents, List.nil_append] at hrun

/-- The FIFO refines a bounded queue, over any single-port RAM and from reset.

* `fifo_count` is the number of words in the queue, which is the number of
  writes performed less the number of reads performed and never exceeds
  `2 ^ ADR_BIT`.
* A requested write is performed if and only if the queue holds less than
  `2 ^ ADR_BIT` words, a requested read if and only if it holds one.
* The port writes for a write performed, reads for a read performed, and never
  both.
* The word on `rd_dat` after a read performed is the oldest one of the queue;
  the `k`-th word returned is the `k`-th word stored. -/
theorem refines_bounded_queue (ram : R.State) (ins : List (SyncFifoSpIn D)) :
    (run step (reset ram) ins).contents = (queueAfter ram ins).items
      ∧ (run step (reset ram) ins).fifoCount.toNat = (queueAfter ram ins).items.length
      ∧ (run step (reset ram) ins).fifoCount.toNat
          + (events step returned (reset ram) ins).length
        = (events step stored (reset ram) ins).length
      ∧ (run step (reset ram) ins).fifoCount.toNat ≤ 2 ^ A
      ∧ (∀ i, ((run step (reset ram) ins).wrActual i = true
          ↔ wrReq i = true ∧ (queueAfter ram ins).items.length < 2 ^ A)
        ∧ ((run step (reset ram) ins).rdActual i = true
          ↔ rdReq i = true ∧ 0 < (queueAfter ram ins).items.length)
        ∧ ((run step (reset ram) ins).ramCtl i).writes = (run step (reset ram) ins).wrActual i
        ∧ ((run step (reset ram) ins).ramCtl i).reads = (run step (reset ram) ins).rdActual i
        ∧ ((run step (reset ram) ins).wrActual i && (run step (reset ram) ins).rdActual i) = false
        ∧ ((run step (reset ram) ins).rdActual i = true →
          some (run step (reset ram) (ins ++ [i])).rdDat = (queueAfter ram ins).items.head?))
      ∧ events step returned (reset ram) ins <+: events step stored (reset ram) ins := by
  have h := refines_run ram ins
  have hcount := toNat_fifoCount (run step (reset ram) ins)
  -- what was stored and has not been returned is what the queue holds
  have hwords := stored_eq_returned ram ins
  have hlen := congrArg List.length hwords
  rw [List.length_append] at hlen
  refine ⟨h.items, ?_, ?_, ?_, ?_, ⟨_, hwords.symm⟩⟩
  · rw [hcount, h.items]
  · omega
  · rw [hcount, h.items]
    exact (queueAfter ram ins).bounded
  · intro i
    -- the requests of the next cycle, granted by the queue of this one
    have hw := wrActual_iff h.wf i
    have hr := rdActual_iff (run step (reset ram) ins) i
    rw [h.items] at hw hr
    refine ⟨hw, hr, ramCtl_writes _ i, ramCtl_reads _ i, ?_, ?_⟩
    · cases hgrant : (run step (reset ram) ins).wrActual i with
      | true => exact not_rdActual_of_wrActual hgrant
      | false => rfl
    · intro hgrant
      -- the word returned is the head of the queue, as lists of at most one word
      have hhead := returned_of_refines h i
      unfold returned Queue.granted at hhead
      rw [hgrant, (hr.mp hgrant).1, if_pos rfl, if_pos rfl] at hhead
      have hfirst := congrArg List.head? hhead
      rw [List.head?_take, if_neg Nat.one_ne_zero] at hfirst
      rw [run_concat]
      exact hfirst

/-- Two words of a register file filled up, a third write refused, then read. -/
theorem refines_bounded_queue_registerFile :
    let ram : (registerFile 1 8).State := (fun _ => 0, 0)
    let ins : List (SyncFifoSpIn 8) := [⟨true, true, 7⟩, ⟨true, true, 8⟩, ⟨true, true, 9⟩,
      ⟨true, false, 0⟩]
    events step stored (reset ram) ins = [7, 8]
      ∧ (run step (reset ram) ins).fifoCount.toNat = (queueAfter ram ins).items.length
      ∧ events step returned (reset ram) ins <+: events step stored (reset ram) ins := by
  intro ram ins
  have hqueue := refines_bounded_queue ram ins
  exact ⟨by decide, hqueue.2.1, hqueue.2.2.2.2.2⟩

end SyncFifoSp

end SocRtl.Fifo
