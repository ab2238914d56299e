import SocRtl.Lib.Clocked
import SocRtl.Lib.Queue
import SocRtl.Lib.Ring

/-!
# SocRtl.Fifo.SyncFifo — the register-file FIFO of `sync_fifo.v`

Write and read pointers carry a wrap bit, `full` and `empty` compare them, and
the word read appears on `data_out` one edge later. The FIFO is a bounded
queue: its contents are the ring-buffer words between the pointers, a granted
write appends, a granted read removes the oldest word.
-/

namespace SocRtl.Fifo

/-! ## Model -/

/-- The registers of `sync_fifo` with `ADR_BIT = A` and `DAT_BIT = D`. -/
structure SyncFifo (A D : ℕ) where
  wptr : BitVec (A + 1)
  rptr : BitVec (A + 1)
  fifo : BitVec A → BitVec D
  dataOut : BitVec D
  preFull : Bool
  preEmpty : Bool

/-- The inputs a clock edge samples. -/
structure SyncFifoIn (D : ℕ) where
  wrEn : Bool
  rdEn : Bool
  dataIn : BitVec D

namespace SyncFifo

variable {A D : ℕ}

/-- Reset. The memory and `data_out` keep what they held. -/
def reset (s : SyncFifo A D) : SyncFifo A D :=
  { s with wptr := 0, rptr := 0, preFull := false, preEmpty := false }

def wrapAround (s : SyncFifo A D) : Bool := s.wptr.getLsbD A ^^ s.rptr.getLsbD A

def full (s : SyncFifo A D) : Bool :=
  s.wrapAround && decide (Ring.low s.wptr = Ring.low s.rptr)

def empty (s : SyncFifo A D) : Bool :=
  !s.wrapAround && decide (Ring.low s.wptr = Ring.low s.rptr)

def preWptr (s : SyncFifo A D) : BitVec (A + 1) := s.wptr + 2

def preRptr (s : SyncFifo A D) : BitVec (A + 1) := s.rptr + 2

/-- One clock edge. -/
def step (s : SyncFifo A D) (i : SyncFifoIn D) : SyncFifo A D where
  wptr := if i.wrEn && !s.full then s.wptr + 1 else s.wptr
  rptr := if i.rdEn && !s.empty then s.rptr + 1 else s.rptr
  fifo := if i.wrEn && !s.full then Function.update s.fifo (Ring.low s.wptr) i.dataIn
    else s.fifo
  dataOut := if i.rdEn && !s.empty then s.fifo (Ring.low s.rptr) else s.dataOut
  preFull := (s.preWptr.getLsbD A ^^ s.rptr.getLsbD A)
    && decide (Ring.low s.preWptr = Ring.low s.rptr)
  preEmpty := !(s.wptr.getLsbD A ^^ s.preRptr.getLsbD A)
    && decide (Ring.low s.wptr = Ring.low s.preRptr)

/-- The word a granted write stores, as a list of length at most one. -/
def pushed (s : SyncFifo A D) (i : SyncFifoIn D) : List (BitVec D) :=
  if i.wrEn && !s.full then [i.dataIn] else []

/-- The word a granted read takes out, as a list of length at most one. -/
def popped (s : SyncFifo A D) (i : SyncFifoIn D) : List (BitVec D) :=
  if i.rdEn && !s.empty then [s.fifo (Ring.low s.rptr)] else []

/-! ## The queue it holds -/

/-- The words in the FIFO, oldest first. -/
def contents (s : SyncFifo A D) : List (BitVec D) := Ring.contents s.fifo s.wptr s.rptr

/-- The pointers are at most one lap of the memory apart. -/
def Wf (s : SyncFifo A D) : Prop := Ring.occ s.wptr s.rptr ≤ 2 ^ A

theorem full_iff (s : SyncFifo A D) : s.full = true ↔ s.contents.length = 2 ^ A := by
  rw [contents, Ring.length_contents, Ring.occ_eq_full_iff]
  simp [full, wrapAround]

theorem empty_iff (s : SyncFifo A D) : s.empty = true ↔ s.contents = [] := by
  rw [← List.length_eq_zero_iff, contents, Ring.length_contents, Ring.occ_eq_zero_iff_low]
  simp [empty, wrapAround]

@[simp] theorem contents_reset (s : SyncFifo A D) : s.reset.contents = [] := by
  rw [← empty_iff]
  simp [reset, empty, wrapAround]

theorem wf_reset (s : SyncFifo A D) : s.reset.Wf := by
  simp [Wf, Ring.occ, reset]

/-- A granted write finds room, a granted read finds a word. -/
theorem room_of_grant {s : SyncFifo A D} (hs : s.Wf) {en : Bool} (h : (en && !s.full) = true) :
    Ring.occ s.wptr s.rptr < 2 ^ A := by
  have hfull : ¬ s.full = true := by
    simp only [Bool.and_eq_true, Bool.not_eq_true'] at h
    simp [h.2]
  rw [full_iff, contents, Ring.length_contents] at hfull
  exact Nat.lt_of_le_of_ne hs hfull

theorem word_of_grant {s : SyncFifo A D} {en : Bool} (h : (en && !s.empty) = true) :
    0 < Ring.occ s.wptr s.rptr := by
  have hempty : ¬ s.empty = true := by
    simp only [Bool.and_eq_true, Bool.not_eq_true'] at h
    simp [h.2]
  rw [empty_iff, ← List.length_eq_zero_iff, contents, Ring.length_contents] at hempty
  exact Nat.pos_of_ne_zero hempty

/-- One edge of the queue: what was in it and what goes in is what comes out
and what stays. -/
theorem step_contents {s : SyncFifo A D} (hs : s.Wf) (i : SyncFifoIn D) :
    s.contents ++ s.pushed i = s.popped i ++ (s.step i).contents ∧ (s.step i).Wf := by
  simp only [contents, pushed, popped, step, Wf]
  by_cases hw : (i.wrEn && !s.full) = true <;> by_cases hr : (i.rdEn && !s.empty) = true <;>
    simp only [hw, hr, if_true, if_false, Bool.false_eq_true]
  · -- read and write: the read word leaves first, so there is room below it
    have hroom := room_of_grant hs hw
    have hword := word_of_grant hr
    have hpop := Ring.occ_pop hword
    have hroom' : Ring.occ s.wptr (s.rptr + 1) < 2 ^ A := by omega
    rw [Ring.contents_pop s.fifo hword, Ring.contents_push s.fifo i.dataIn hroom',
      Ring.occ_push hroom']
    exact ⟨by simp, by omega⟩
  · -- write only
    have hroom := room_of_grant hs hw
    rw [Ring.contents_push s.fifo i.dataIn hroom, Ring.occ_push hroom]
    exact ⟨by simp, by omega⟩
  · -- read only
    have hword := word_of_grant hr
    have hpop := Ring.occ_pop hword
    have hle : Ring.occ s.wptr s.rptr ≤ 2 ^ A := hs
    rw [Ring.contents_pop s.fifo hword]
    exact ⟨by simp, by omega⟩
  · -- neither is granted, and nothing moves
    exact ⟨by simp, hs⟩

theorem wf_step {s : SyncFifo A D} (hs : s.Wf) (i : SyncFifoIn D) : (s.step i).Wf :=
  (step_contents hs i).2

theorem full_of_empty {s : SyncFifo A D} (h : s.empty = true) : s.full = false := by
  have hcontents := (empty_iff s).mp h
  have hpos : 0 < 2 ^ A := Nat.two_pow_pos A
  rw [← Bool.not_eq_true, full_iff, hcontents, List.length_nil]
  omega

/-- A FIFO that holds or takes in a word, and gives none out, is not empty
afterwards. -/
theorem empty_step {s : SyncFifo A D} (hs : s.Wf) {i : SyncFifoIn D} (hpop : s.popped i = [])
    (hne : s.contents ++ s.pushed i ≠ []) : (s.step i).empty = false := by
  rw [(step_contents hs i).1, hpop, List.nil_append] at hne
  rw [← Bool.not_eq_true, empty_iff]
  exact hne

/-! ## It is a bounded queue -/

/-- One edge of the queue that the FIFO stands for. -/
def queueStep (q : Queue (BitVec D) (2 ^ A)) (i : SyncFifoIn D) : Queue (BitVec D) (2 ^ A) :=
  q.step i.wrEn i.rdEn i.dataIn

/-- The FIFO holds what the queue holds. -/
structure Refines (s : SyncFifo A D) (q : Queue (BitVec D) (2 ^ A)) : Prop where
  wf : s.Wf
  items : s.contents = q.items
  out : s.dataOut = q.out

theorem refines_reset (s : SyncFifo A D) : Refines s.reset (Queue.nil s.dataOut) :=
  ⟨wf_reset s, contents_reset s, rfl⟩

/-- A write is granted if and only if the queue has room. -/
theorem pushed_of_refines {s : SyncFifo A D} {q : Queue (BitVec D) (2 ^ A)} (h : Refines s q)
    (i : SyncFifoIn D) : s.pushed i = q.accepted i.wrEn i.dataIn := by
  have hfull : s.full = true ↔ q.items.length = 2 ^ A := by rw [full_iff, h.items]
  have hroom := q.bounded
  unfold pushed Queue.accepted
  cases hs : s.full with
  | true =>
      have hlen := hfull.mp hs
      rw [if_neg (by simp), if_neg (by omega)]
  | false =>
      have hlen : q.items.length ≠ 2 ^ A := by
        intro heq
        rw [hfull.mpr heq] at hs
        exact absurd hs (by decide)
      have hlt : q.items.length < 2 ^ A := by omega
      simp [hlt]

/-- A read takes the oldest word of the queue, if there is one. -/
theorem popped_of_refines {s : SyncFifo A D} {q : Queue (BitVec D) (2 ^ A)} (h : Refines s q)
    (i : SyncFifoIn D) : s.popped i = q.granted i.rdEn := by
  have hempty : s.empty = true ↔ q.items = [] := by rw [empty_iff, h.items]
  unfold popped Queue.granted
  cases hs : s.empty with
  | true =>
      rw [hempty.mp hs]
      simp
  | false =>
      have hgrant : (true && !s.empty) = true := by rw [hs]; rfl
      have hword : 0 < Ring.occ s.wptr s.rptr := word_of_grant hgrant
      have hitems : q.items
          = s.fifo (Ring.low s.rptr) :: Ring.contents s.fifo s.wptr (s.rptr + 1) := by
        rw [← h.items, contents, Ring.contents_pop s.fifo hword]
      rw [hitems]
      simp

theorem refines_step {s : SyncFifo A D} {q : Queue (BitVec D) (2 ^ A)} (h : Refines s q)
    (i : SyncFifoIn D) : Refines (s.step i) (queueStep q i) := by
  have hpush := pushed_of_refines h i
  have hpop := popped_of_refines h i
  constructor
  · exact wf_step h.wf i
  · -- both sides keep the same books, and agree on what came in and went out
    have hfifo := (step_contents h.wf i).1
    have hqueue := q.step_items i.wrEn i.rdEn i.dataIn
    rw [h.items, hpush, hpop, hqueue] at hfifo
    exact (List.append_cancel_left hfifo).symm
  · have hout : (s.step i).dataOut = (s.popped i).headD s.dataOut := by
      unfold step popped
      cases i.rdEn && !s.empty <;> rfl
    rw [hout, hpop, h.out]
    rfl

/-- The queue that sees the same requests as the FIFO does from reset on. -/
def queueAfter (s : SyncFifo A D) (ins : List (SyncFifoIn D)) : Queue (BitVec D) (2 ^ A) :=
  run queueStep (Queue.nil s.dataOut) ins

theorem refines_run (s : SyncFifo A D) (ins : List (SyncFifoIn D)) :
    Refines (run step s.reset ins) (s.queueAfter ins) :=
  run_related Refines (refines_reset s) (fun _ _ i h => refines_step h i) ins

/-- The FIFO refines a bounded queue. In every run from reset its contents and
its output are those of the queue, `full` says that the queue holds `2 ^ A`
words and `empty` that it holds none. At the next edge a write is accepted if
and only if the FIFO is not full and a read granted if and only if it is not
empty, both as the queue does it; `data_out` after a granted read is the oldest
word and keeps its value otherwise. -/
theorem refines_queue (s : SyncFifo A D) (ins : List (SyncFifoIn D)) :
    (run step s.reset ins).contents = (s.queueAfter ins).items ∧
    (run step s.reset ins).dataOut = (s.queueAfter ins).out ∧
    ((run step s.reset ins).full = true ↔ (s.queueAfter ins).items.length = 2 ^ A) ∧
    ((run step s.reset ins).empty = true ↔ (s.queueAfter ins).items = []) ∧
    (∀ i, (run step s.reset ins).pushed i = (s.queueAfter ins).accepted i.wrEn i.dataIn ∧
      ((run step s.reset ins).pushed i = [i.dataIn]
        ↔ i.wrEn = true ∧ (run step s.reset ins).full = false)) ∧
    (∀ i, (run step s.reset ins).popped i = (s.queueAfter ins).granted i.rdEn ∧
      ((run step s.reset ins).popped i ≠ []
        ↔ i.rdEn = true ∧ (run step s.reset ins).empty = false)) ∧
    (∀ i, ((run step s.reset ins).step i).dataOut
      = if i.rdEn then (s.queueAfter ins).items.headD (run step s.reset ins).dataOut
        else (run step s.reset ins).dataOut) := by
  have h := refines_run s ins
  refine ⟨h.items, h.out, ?_, ?_, ?_, ?_, ?_⟩
  · rw [full_iff, h.items]
  · rw [empty_iff, h.items]
  · intro i
    refine ⟨pushed_of_refines h i, ?_⟩
    unfold pushed
    cases i.wrEn <;> cases (run step s.reset ins).full <;> simp
  · intro i
    refine ⟨popped_of_refines h i, ?_⟩
    unfold popped
    cases i.rdEn <;> cases (run step s.reset ins).empty <;> simp
  · intro i
    have hnext := (refines_step h i).out
    rw [hnext, h.out]
    unfold queueStep Queue.step Queue.granted
    cases i.rdEn with
    | true => cases (s.queueAfter ins).items <;> rfl
    | false => rfl

end SyncFifo

end SocRtl.Fifo
