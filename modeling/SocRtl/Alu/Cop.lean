import SocRtl.Alu.Alu
import SocRtl.Fifo.SyncFifo

/-!
# SocRtl.Alu.Cop — the coprocessor `alu_cop.v`

A word written into `pre_fifo` is read out, multiplied and added by the ALU,
and its result written into `post_fifo`. Every hop between the three has a
register of its own, so a word can be in seven places:

    pre_fifo → rdy → mul → add → pof → post_fifo → out

The glue gets two of the hops wrong. `alu_wr_rdy` is not held while the ALU is
busy, and `pof_wr_en` writes a cycle after the room was seen. The module
proves that as long as neither happens the coprocessor is a lossless queue,
and that a word dropped by either is lost for good.
-/

namespace SocRtl.Alu

open Fifo Handshake

/-! ## Model -/

/-- The registers of `alu_cop` with `ADR_BIT = A` and `DAT_BIT = 24`. -/
structure AluCop (A : ℕ) where
  preFifo : SyncFifo A 24
  postFifo : SyncFifo A 24
  alu : Alu
  aluWrRdy : Bool
  pofRdEn : Bool
  pofWrEn : Bool
  pofDataIn : BitVec 17

/-- The inputs a clock edge samples. -/
structure AluCopIn where
  wrEn : Bool
  rdEn : Bool
  dataIn : BitVec 24

namespace AluCop

variable {A : ℕ}

/-- Reset. The memories of the FIFOs keep what they held. -/
def reset (s : AluCop A) : AluCop A where
  preFifo := s.preFifo.reset
  postFifo := s.postFifo.reset
  alu := Alu.reset
  aluWrRdy := false
  pofRdEn := false
  pofWrEn := false
  pofDataIn := 0

def valA (w : BitVec 24) : BitVec 8 := w.extractLsb' 16 8

def valB (w : BitVec 24) : BitVec 8 := w.extractLsb' 8 8

def valC (w : BitVec 24) : BitVec 8 := w.extractLsb' 0 8

/-- The ALU takes the word it is offered only if its first stage is ready. -/
def pofWrAck (s : AluCop A) : Bool := s.alu.aluRdRdy && !s.postFifo.full

def aluWrAck (s : AluCop A) : Bool := s.alu.aluWrAck s.pofWrAck

def prfRdEn (s : AluCop A) : Bool :=
  !s.preFifo.empty && (!s.aluWrRdy || (s.aluWrRdy && s.aluWrAck))

/-- What the edge shows to `pre_fifo`. -/
def preIn (s : AluCop A) (i : AluCopIn) : SyncFifoIn 24 := ⟨i.wrEn, s.prfRdEn, i.dataIn⟩

/-- What the edge shows to the ALU. -/
def aluIn (s : AluCop A) : AluIn where
  valA := valA s.preFifo.dataOut
  valB := valB s.preFifo.dataOut
  valC := valC s.preFifo.dataOut
  aluWrRdy := s.aluWrRdy
  aluRdAck := s.pofWrAck

/-- What the edge shows to `post_fifo`: the 17-bit result is zero-extended. -/
def postIn (s : AluCop A) : SyncFifoIn 24 := ⟨s.pofWrEn, s.pofRdEn, s.pofDataIn.setWidth 24⟩

/-- One clock edge. -/
def step (s : AluCop A) (i : AluCopIn) : AluCop A where
  preFifo := s.preFifo.step (s.preIn i)
  postFifo := s.postFifo.step s.postIn
  alu := s.alu.step s.aluIn
  aluWrRdy := s.prfRdEn
  pofRdEn := i.rdEn && !s.postFifo.empty
  pofWrEn := s.alu.aluRdRdy && !s.postFifo.full
  pofDataIn := if s.alu.aluRdRdy && !s.postFifo.full then s.alu.aluResult else s.pofDataIn

/-- The word `pre_fifo` accepts at the edge. -/
def accepted (s : AluCop A) (i : AluCopIn) : List (BitVec 24) := s.preFifo.pushed (s.preIn i)

/-- The result read out of `post_fifo` at the edge. -/
def result (s : AluCop A) (_ : AluCopIn) : List (BitVec 24) := s.postFifo.popped s.postIn

/-! ## What goes wrong, and when -/

/-- A word in the `alu_wr_rdy` register that the ALU does not take is dropped:
the register is overwritten at the next edge. -/
def rdyDropped (s : AluCop A) : Bool := s.aluWrRdy && !s.aluWrAck

/-- A result in `pof_data_in` that finds `post_fifo` full is dropped. -/
def pofDropped (s : AluCop A) : Bool := s.pofWrEn && s.postFifo.full

/-- Neither glue register drops its word in this cycle. -/
def NoDrop (s : AluCop A) (_ : AluCopIn) : Prop :=
  s.rdyDropped = false ∧ s.pofDropped = false

instance (s : AluCop A) (i : AluCopIn) : Decidable (s.NoDrop i) :=
  inferInstanceAs (Decidable (_ ∧ _))

/-- The number of words dropped in this cycle. -/
def dropped (s : AluCop A) : ℕ := s.rdyDropped.toNat + s.pofDropped.toNat

theorem dropped_pos_iff (s : AluCop A) (i : AluCopIn) : 0 < s.dropped ↔ ¬ s.NoDrop i := by
  unfold dropped NoDrop
  cases s.rdyDropped <;> cases s.pofDropped <;> simp

/-! ## The words in the pipeline -/

/-- The specification: `a * b + c` on the three bytes of a word. -/
def spec (w : BitVec 24) : ℕ := (valA w).toNat * (valB w).toNat + (valC w).toNat

/-- The 17-bit result the circuit computes for a word. -/
def aluOf (w : BitVec 24) : BitVec 17 := Alu.addAbC (Alu.mulAb (valA w) (valB w)) (valC w)

/-- The result as `post_fifo` stores it. -/
def wordOf (w : BitVec 24) : BitVec 24 := (aluOf w).setWidth 24

theorem toNat_wordOf (w : BitVec 24) : (wordOf w).toNat = spec w := by
  have hlt := (aluOf w).isLt
  rw [wordOf, BitVec.toNat_setWidth, Nat.mod_eq_of_lt (by omega)]
  exact Alu.toNat_addAbC_mulAb _ _ _

/-- The word between `pre_fifo` and the ALU. -/
def rdySlot (s : AluCop A) : List (BitVec 17) :=
  if s.aluWrRdy then [aluOf s.preFifo.dataOut] else []

/-- The result between the ALU and `post_fifo`. -/
def pofSlot (s : AluCop A) : List (BitVec 17) := if s.pofWrEn then [s.pofDataIn] else []

/-- The results not yet in `post_fifo`, oldest first. -/
def upstream (s : AluCop A) : List (BitVec 17) :=
  s.pofSlot ++ (s.alu.addSlot ++ (s.alu.mulSlot ++ (s.rdySlot ++ s.preFifo.contents.map aluOf)))

/-- The results of all words accepted and not yet read, oldest first. -/
def pipe (s : AluCop A) : List (BitVec 24) :=
  s.postFifo.contents ++ s.upstream.map (BitVec.setWidth 24)

/-- Both FIFOs are well formed. -/
def Wf (s : AluCop A) : Prop := s.preFifo.Wf ∧ s.postFifo.Wf

theorem wf_step {s : AluCop A} (hs : s.Wf) (i : AluCopIn) : (s.step i).Wf :=
  ⟨SyncFifo.wf_step hs.1 _, SyncFifo.wf_step hs.2 _⟩

theorem wf_reset (s : AluCop A) : s.reset.Wf :=
  ⟨SyncFifo.wf_reset _, SyncFifo.wf_reset _⟩

@[simp] theorem pipe_reset (s : AluCop A) : s.reset.pipe = [] := by
  simp [pipe, upstream, pofSlot, rdySlot, reset, Alu.addSlot, Alu.mulSlot, Alu.reset]

/-! ## One edge, hop by hop -/

/-- The word leaving `pre_fifo` is the one in the `rdy` register afterwards. -/
theorem rdySlot_step (s : AluCop A) (i : AluCopIn) :
    (s.step i).rdySlot = (s.preFifo.popped (s.preIn i)).map aluOf := by
  cases hrd : s.prfRdEn with
  | true =>
      -- the glue only reads a `pre_fifo` that is not empty
      have hempty : s.preFifo.empty = false := by
        unfold prfRdEn at hrd
        cases he : s.preFifo.empty <;> simp_all
      simp [rdySlot, step, SyncFifo.step, SyncFifo.popped, preIn, hrd, hempty]
  | false => simp [rdySlot, step, SyncFifo.popped, preIn, hrd]

/-- The ALU takes the word in the `rdy` register unless it is dropped. -/
theorem rdySlot_taken {s : AluCop A} (h : s.rdyDropped = false) :
    s.rdySlot = s.alu.mulIn s.aluIn := by
  cases hv : s.aluWrRdy with
  | true =>
      have hack : s.alu.aluWrAck s.pofWrAck = true := by
        simpa [rdyDropped, hv, aluWrAck] using h
      simp [rdySlot, Alu.mulIn, aluIn, hv, hack, aluOf]
  | false => simp [rdySlot, Alu.mulIn, aluIn, hv]

/-- A dropped word is not taken. -/
theorem rdySlot_lost {s : AluCop A} (h : s.rdyDropped = true) :
    s.rdySlot.length = 1 ∧ s.alu.mulIn s.aluIn = [] := by
  simp only [rdyDropped, aluWrAck, Bool.and_eq_true, Bool.not_eq_true'] at h
  simp [rdySlot, Alu.mulIn, aluIn, h.1, h.2]

/-- The result leaving the ALU is the one in the `pof` register afterwards. -/
theorem pofSlot_step (s : AluCop A) (i : AluCopIn) :
    (s.step i).pofSlot = s.alu.addOut s.aluIn.aluRdAck := by
  cases hv : s.alu.aluRdRdy <;> cases hf : s.postFifo.full <;>
    simp [pofSlot, step, Alu.addOut, aluIn, pofWrAck, Alu.aluResult, hv, hf]

/-- `post_fifo` takes the result in the `pof` register unless it is dropped. -/
theorem pofSlot_taken {s : AluCop A} (h : s.pofDropped = false) :
    s.pofSlot.map (BitVec.setWidth 24) = s.postFifo.pushed s.postIn := by
  cases hv : s.pofWrEn with
  | true =>
      have hfull : s.postFifo.full = false := by simpa [pofDropped, hv] using h
      simp [pofSlot, SyncFifo.pushed, postIn, hv, hfull]
  | false => simp [pofSlot, SyncFifo.pushed, postIn, hv]

/-- A dropped result is not written. -/
theorem pofSlot_lost {s : AluCop A} (h : s.pofDropped = true) :
    s.pofSlot.length = 1 ∧ s.postFifo.pushed s.postIn = [] := by
  simp only [pofDropped, Bool.and_eq_true] at h
  simp [pofSlot, SyncFifo.pushed, postIn, h.1, h.2]

/-! ## One edge of the whole pipeline -/

/-- Without a drop, what is in the pipeline and what is accepted is what is
read out and what stays, in order. -/
theorem pipe_step {s : AluCop A} (hs : s.Wf) (i : AluCopIn) (hok : s.NoDrop i) :
    s.pipe ++ (s.accepted i).map wordOf = s.result i ++ (s.step i).pipe := by
  have hpre := (SyncFifo.step_contents hs.1 (s.preIn i)).1
  have hpost := (SyncFifo.step_contents hs.2 s.postIn).1
  have hmul := Alu.mulSlot_step s.alu s.aluIn
  have hadd := Alu.addSlot_step s.alu s.aluIn
  -- stage by stage from the input on: what one gives the next one takes
  have hup : s.upstream ++ (s.accepted i).map aluOf = s.pofSlot ++ (s.step i).upstream := by
    calc s.upstream ++ (s.accepted i).map aluOf
        = s.pofSlot ++ (s.alu.addSlot ++ (s.alu.mulSlot ++ (s.rdySlot
            ++ (s.preFifo.contents ++ s.accepted i).map aluOf))) := by
          simp [upstream]
      _ = s.pofSlot ++ (s.alu.addSlot ++ ((s.alu.mulSlot ++ s.alu.mulIn s.aluIn)
            ++ ((s.step i).rdySlot ++ (s.step i).preFifo.contents.map aluOf))) := by
          rw [accepted, hpre, rdySlot_taken hok.1, rdySlot_step]
          simp [step]
      _ = s.pofSlot ++ ((s.alu.addSlot ++ s.alu.mulOut s.aluIn.aluRdAck)
            ++ ((s.step i).alu.mulSlot
            ++ ((s.step i).rdySlot ++ (s.step i).preFifo.contents.map aluOf))) := by
          rw [hmul]
          simp [step]
      _ = s.pofSlot ++ (s.step i).upstream := by
          rw [hadd, ← pofSlot_step s i]
          simp [upstream, step]
  -- and the result of the last stage goes through `post_fifo`
  calc s.pipe ++ (s.accepted i).map wordOf
      = s.postFifo.contents
          ++ (s.upstream ++ (s.accepted i).map aluOf).map (BitVec.setWidth 24) := by
        simp [pipe, wordOf, Function.comp_def]
    _ = (s.postFifo.contents ++ s.postFifo.pushed s.postIn)
          ++ (s.step i).upstream.map (BitVec.setWidth 24) := by
        rw [hup, List.map_append, pofSlot_taken hok.2, List.append_assoc]
    _ = s.result i ++ (s.step i).pipe := by
        rw [hpost]
        simp [result, pipe, step]

/-- With or without a drop, the words are accounted for. -/
theorem length_pipe_step {s : AluCop A} (hs : s.Wf) (i : AluCopIn) :
    s.pipe.length + (s.accepted i).length
      = (s.result i).length + (s.step i).pipe.length + s.dropped := by
  have hpre := congrArg List.length (SyncFifo.step_contents hs.1 (s.preIn i)).1
  have hpost := congrArg List.length (SyncFifo.step_contents hs.2 s.postIn).1
  have hmul := congrArg List.length (Alu.mulSlot_step s.alu s.aluIn)
  have hadd := congrArg List.length (Alu.addSlot_step s.alu s.aluIn)
  have hrdy' := congrArg List.length (rdySlot_step s i)
  have hpof' := congrArg List.length (pofSlot_step s i)
  -- the two registers without a handshake lose what is not taken
  have hrdy : s.rdySlot.length = (s.alu.mulIn s.aluIn).length + s.rdyDropped.toNat := by
    cases h : s.rdyDropped with
    | true => simp [rdySlot_lost h]
    | false => simp [rdySlot_taken h]
  have hpof : s.pofSlot.length
      = (s.postFifo.pushed s.postIn).length + s.pofDropped.toNat := by
    cases h : s.pofDropped with
    | true => simp [pofSlot_lost h]
    | false => simp [← pofSlot_taken h]
  simp only [List.length_append, List.length_map] at hpre hpost hmul hadd hrdy' hpof'
  simp only [pipe, upstream, List.length_append, List.length_map, dropped, accepted, result]
  simp only [step] at hrdy' hpof' ⊢
  -- the six hops add up
  omega

/-! ## Runs -/

/-- The words `pre_fifo` accepts along a run. -/
def acceptedWords (s : AluCop A) (ins : List AluCopIn) : List (BitVec 24) :=
  events step accepted s ins

/-- The results read out of `post_fifo` along a run. -/
def results (s : AluCop A) (ins : List AluCopIn) : List (BitVec 24) :=
  events step result s ins

theorem results_append (s : AluCop A) (as bs : List AluCopIn) :
    results s (as ++ bs) = results s as ++ results (run step s as) bs :=
  events_append step s result as bs

theorem wf_run {s : AluCop A} (hs : s.Wf) (ins : List AluCopIn) : (run step s ins).Wf :=
  run_preserves Wf hs (fun _ i h => wf_step h i) ins

/-- Without drops the pipeline is a queue over a whole run. -/
theorem pipe_run {s : AluCop A} (hs : s.Wf) {ins : List AluCopIn}
    (hok : Along step NoDrop s ins) :
    s.pipe ++ (acceptedWords s ins).map wordOf = results s ins ++ (run step s ins).pipe := by
  rw [acceptedWords, ← events_map]
  exact events_conserved
    (along_of_invariant Wf (fun s i h _ => wf_step h i) (fun s i h hC => pipe_step h i hC) hs hok)

/-- With drops, the words are still accounted for, and a drop leaves a gap. -/
theorem length_pipe_run {s : AluCop A} (hs : s.Wf) (ins : List AluCopIn) :
    (results s ins).length + (run step s ins).pipe.length
        ≤ s.pipe.length + (acceptedWords s ins).length
      ∧ (¬ Along step NoDrop s ins →
        (results s ins).length + (run step s ins).pipe.length
          < s.pipe.length + (acceptedWords s ins).length) := by
  -- every edge keeps the balance up to the words it drops
  induction ins generalizing s with
  | nil => simp [acceptedWords, results]
  | cons i ins ih =>
      have hone := length_pipe_step hs i
      rcases ih (wf_step hs i) with ⟨hle, hlt⟩
      simp only [acceptedWords, results, events_cons, run_cons, List.length_append] at hle hlt ⊢
      refine ⟨by omega, fun hbad => ?_⟩
      by_cases hok : s.NoDrop i
      · -- the drop comes later
        have := hlt (fun h => hbad ⟨hok, h⟩)
        omega
      · have := (dropped_pos_iff s i).mpr hok
        omega

/-! ## Draining -/

/-- How many edges the oldest word still needs to reach the output. -/
def rank (s : AluCop A) : ℕ :=
  if !s.postFifo.empty then (if s.pofRdEn then 0 else 1)
  else if s.pofWrEn then 2
  else if s.alu.aluRdRdy then 3
  else if s.alu.rdRdyMul then 4
  else if s.aluWrRdy then 5
  else 6

theorem rank_le (s : AluCop A) : s.rank ≤ 6 := by
  unfold rank
  repeat' split
  all_goals omega

theorem rank_of_post {s : AluCop A} (h : s.postFifo.empty = false) :
    s.rank = if s.pofRdEn then 0 else 1 := by
  simp [rank, h]

theorem rank_of_pof {s : AluCop A} (h : s.pofWrEn = true) : s.rank ≤ 2 := by
  unfold rank
  repeat' split
  all_goals omega

theorem rank_of_add {s : AluCop A} (h : s.alu.aluRdRdy = true) : s.rank ≤ 3 := by
  unfold rank
  simp only [h, if_true]
  repeat' split
  all_goals omega

theorem rank_of_mul {s : AluCop A} (h : s.alu.rdRdyMul = true) : s.rank ≤ 4 := by
  unfold rank
  simp only [h, if_true]
  repeat' split
  all_goals omega

theorem rank_of_rdy {s : AluCop A} (h : s.aluWrRdy = true) : s.rank ≤ 5 := by
  unfold rank
  simp only [h, if_true]
  repeat' split
  all_goals omega

/-- While reads are offered, an edge gives out a result or brings the oldest
word closer to the output. -/
theorem rank_step {s : AluCop A} (hs : s.Wf) {i : AluCopIn} (hrd : i.rdEn = true)
    (hne : s.pipe ≠ []) : s.result i ≠ [] ∨ (s.step i).rank < s.rank := by
  -- split by the stage that holds the oldest word, the last stage first
  cases hpost : s.postFifo.empty with
  | false =>
      have hrd' : (s.step i).pofRdEn = true := by simp [step, hrd, hpost]
      cases hgo : s.pofRdEn with
      | true => left; simp [result, SyncFifo.popped, postIn, hgo, hpost]
      | false =>
          -- the read enable is registered, the word comes out one edge later
          right
          have hpop : s.postFifo.popped s.postIn = [] := by
            simp [SyncFifo.popped, postIn, hgo]
          have hmem : s.postFifo.contents ≠ [] := by
            rw [Ne, ← SyncFifo.empty_iff, hpost]
            exact Bool.false_ne_true
          have hpost' : (s.step i).postFifo.empty = false :=
            SyncFifo.empty_step hs.2 hpop (by simp [hmem])
          rw [rank_of_post hpost', rank_of_post hpost, hrd', hgo]
          decide
  | true =>
      right
      have hfull : s.postFifo.full = false := SyncFifo.full_of_empty hpost
      cases hpof : s.pofWrEn with
      | true =>
          -- an empty `post_fifo` is not full, so the result gets in
          have hpost' : (s.step i).postFifo.empty = false := by
            refine SyncFifo.empty_step hs.2 ?_ ?_
            · simp [SyncFifo.popped, hpost]
            · simp [SyncFifo.pushed, postIn, hpof, hfull]
          have hrank : s.rank = 2 := by simp [rank, hpost, hpof]
          rw [rank_of_post hpost', hrank]
          split <;> omega
      | false =>
      cases hadd : s.alu.aluRdRdy with
      | true =>
          -- one stage further: out of the adder
          have hpof' : (s.step i).pofWrEn = true := by simp [step, hadd, hfull]
          have hrank : s.rank = 3 := by simp [rank, hpost, hpof, hadd]
          have := rank_of_pof hpof'
          omega
      | false =>
      cases hmul : s.alu.rdRdyMul with
      | true =>
          -- out of the multiplier
          have hadd' : (s.step i).alu.aluRdRdy = true := by
            simp [step, Alu.step, nextValid, hadd, hmul]
          have hrank : s.rank = 4 := by simp [rank, hpost, hpof, hadd, hmul]
          have := rank_of_add hadd'
          omega
      | false =>
      cases hrdy : s.aluWrRdy with
      | true =>
          -- into the multiplier
          have hmul' : (s.step i).alu.rdRdyMul = true := by
            simp [step, Alu.step, aluIn, nextValid, hmul, hrdy]
          have hrank : s.rank = 5 := by simp [rank, hpost, hpof, hadd, hmul, hrdy]
          have := rank_of_mul hmul'
          omega
      | false =>
          -- only `pre_fifo` is left to hold a word
          have hpre : s.preFifo.empty = false := by
            rw [← Bool.not_eq_true, SyncFifo.empty_iff]
            intro hnil
            apply hne
            rw [SyncFifo.empty_iff] at hpost
            simp [pipe, upstream, pofSlot, rdySlot, Alu.addSlot, Alu.mulSlot, hpost, hpof, hadd,
              hmul, hrdy, hnil]
          have hrdy' : (s.step i).aluWrRdy = true := by simp [step, prfRdEn, hpre, hrdy]
          have hrank : s.rank = 6 := by simp [rank, hpost, hpof, hadd, hmul, hrdy]
          have := rank_of_rdy hrdy'
          omega

/-- Reads offered for long enough bring out every word that is in the
pipeline, if none is dropped. -/
theorem drain {s : AluCop A} (hs : s.Wf) {ins : List AluCopIn} (hrd : ∀ i ∈ ins, i.rdEn = true)
    (hok : Along step NoDrop s ins) (hlong : 7 * (s.pipe.length + 1) ≤ ins.length) :
    s.pipe <+: results s ins := by
  have hall : Along step (fun s i => s.NoDrop i ∧ i.rdEn = true) s ins := by
    rw [along_and]
    exact ⟨hok, along_of_inputs step hrd⟩
  have hrank := rank_le s
  rcases events_of_rank Wf (fun s => s.pipe = []) rank 6 rank_le (fun s i h _ => wf_step h i)
      (fun s i h hC hne => rank_step h hC.2 hne) ins s s.pipe.length hs hall (by omega)
    with hmany | ⟨pre, ⟨rest, hins⟩, hidle⟩
  · -- more results than words in the pipeline: these came first
    have hrun := pipe_run hs hok
    have hfirst : s.pipe <+: results s ins ++ (run step s ins).pipe :=
      hrun ▸ List.prefix_append _ _
    exact List.prefix_of_prefix_length_le hfirst (List.prefix_append _ _) hmany.le
  · -- the pipeline ran empty on the way
    subst hins
    rw [along_append] at hok
    have hrun := pipe_run hs hok.1
    rw [hidle, List.append_nil] at hrun
    have hall : s.pipe <+: results s pre := hrun ▸ List.prefix_append _ _
    rw [results_append]
    exact hall.trans (List.prefix_append _ _)

/-! ## Losslessness -/

/-- The coprocessor is lossless and in order on the runs without a drop, and
on no others. Without a drop the results read are at every moment a prefix of
`a * b + c` over the accepted words, and reads offered for seven edges per
accepted word bring all of them out. After a drop there is a result that no
continuation ever reads. -/
theorem lossless_iff_noDrop (s : AluCop A) :
    (∀ ins, Along step NoDrop s.reset ins →
      (results s.reset ins).map BitVec.toNat <+: (acceptedWords s.reset ins).map spec) ∧
    (∀ ins rest, Along step NoDrop s.reset (ins ++ rest) → (∀ i ∈ rest, i.rdEn = true) →
      7 * ((acceptedWords s.reset ins).length + 1) ≤ rest.length →
      (acceptedWords s.reset ins).map spec
        <+: (results s.reset (ins ++ rest)).map BitVec.toNat) ∧
    (∀ ins, ¬ Along step NoDrop s.reset ins → ∀ rest,
      (results s.reset (ins ++ rest)).length < (acceptedWords s.reset (ins ++ rest)).length) := by
  have hwf := wf_reset s
  have hspec : ∀ ws : List (BitVec 24), (ws.map wordOf).map BitVec.toNat = ws.map spec := by
    intro ws
    simp [Function.comp_def, toNat_wordOf]
  refine ⟨?_, ?_, ?_⟩
  · -- what has come out is a prefix, and the rest is in the pipeline
    intro ins hok
    have hrun := pipe_run hwf hok
    rw [pipe_reset, List.nil_append] at hrun
    rw [← hspec, hrun, List.map_append]
    exact List.prefix_append _ _
  · -- reads offered for long enough drain the pipeline
    intro ins rest hok hrd hlong
    rw [along_append] at hok
    have hrun := pipe_run hwf hok.1
    rw [pipe_reset, List.nil_append] at hrun
    have hlen := congrArg List.length hrun
    simp only [List.length_map, List.length_append] at hlen
    have hout : (run step s.reset ins).pipe <+: results (run step s.reset ins) rest :=
      drain (wf_run hwf ins) hrd hok.2 (by omega)
    rw [← hspec, hrun, results_append]
    exact List.IsPrefix.map _ ((List.prefix_append_right_inj _).mpr hout)
  · -- a dropped word is missing from the count for good
    intro ins hbad rest
    have hbad' : ¬ Along step NoDrop s.reset (ins ++ rest) := by
      rw [along_append]
      exact fun h => hbad h.1
    have hlt := (length_pipe_run hwf (ins ++ rest)).2 hbad'
    rw [pipe_reset, List.length_nil] at hlt
    omega

/-- A power-up state with two-word FIFOs. -/
def coldStart : AluCop 1 where
  preFifo := ⟨0, 0, fun _ => 0, 0, false, false⟩
  postFifo := ⟨0, 0, fun _ => 0, 0, false, false⟩
  alu := Alu.reset
  aluWrRdy := false
  pofRdEn := false
  pofWrEn := false
  pofDataIn := 0

/-- Four words `1 * 1 + c` written back to back, then reads offered. -/
def burst : List AluCopIn :=
  [⟨true, false, 0x010101⟩, ⟨true, false, 0x010102⟩, ⟨true, false, 0x010103⟩,
    ⟨true, false, 0x010104⟩] ++ List.replicate 8 ⟨false, true, 0⟩

/-- The third of the four results arrives at a full `post_fifo` and is gone. -/
theorem burst_loses_a_word :
    (acceptedWords coldStart.reset burst).map spec = [2, 3, 4, 5] ∧
    (results coldStart.reset burst).map BitVec.toNat = [2, 3, 5] ∧
    ¬ (results coldStart.reset burst).map BitVec.toNat
      <+: (acceptedWords coldStart.reset burst).map spec := by
  decide +kernel

/-- One word and enough reads: a run to which losslessness applies. -/
theorem lossless_single :
    (acceptedWords coldStart.reset [⟨true, false, 0x030405⟩]).map spec
      <+: (results coldStart.reset
        ([⟨true, false, 0x030405⟩] ++ List.replicate 14 ⟨false, true, 0⟩)).map BitVec.toNat :=
  (lossless_iff_noDrop coldStart).2.1 _ _ (by decide +kernel) (by decide) (by decide +kernel)

/-! ## Room in `post_fifo`

`pof_wr_ack` looks at `post_fifo` while the result acknowledged last may still
be on its way in. -/

/-- The result acknowledged to the ALU at the edge. -/
def acknowledged (s : AluCop A) (_ : AluCopIn) : List (BitVec 17) := s.alu.addOut s.pofWrAck

/-- A result is acknowledged only if `post_fifo` has room for it besides the
result on its way in: either none is, or the ALU has none to give, or a read
makes room at the same edge, or more than one place is free. -/
def HasRoom (s : AluCop A) (_ : AluCopIn) : Prop :=
  s.pofWrEn = true → s.alu.aluRdRdy = true → (s.pofRdEn && !s.postFifo.empty) = false →
    s.postFifo.contents.length + 1 ≠ 2 ^ A

/-- The words in `post_fifo` over an edge, as a count. -/
theorem length_postFifo_step {s : AluCop A} (hs : s.Wf) :
    s.postFifo.contents.length + (s.pofWrEn && !s.postFifo.full).toNat
      = (s.pofRdEn && !s.postFifo.empty).toNat + (s.postFifo.step s.postIn).contents.length := by
  have hlen := congrArg List.length (SyncFifo.step_contents hs.2 s.postIn).1
  rw [List.length_append, List.length_append] at hlen
  have hpush : (s.postFifo.pushed s.postIn).length = (s.pofWrEn && !s.postFifo.full).toNat := by
    unfold SyncFifo.pushed postIn
    cases s.pofWrEn && !s.postFifo.full <;> rfl
  have hpop : (s.postFifo.popped s.postIn).length = (s.pofRdEn && !s.postFifo.empty).toNat := by
    unfold SyncFifo.popped postIn
    cases s.pofRdEn && !s.postFifo.empty <;> rfl
  rwa [hpush, hpop] at hlen

/-- Acknowledging without room is what makes `post_fifo` full under a result. -/
theorem pofDropped_step_iff {s : AluCop A} (hs : s.Wf) (i : AluCopIn) :
    (s.step i).pofDropped = true ↔ ¬ s.HasRoom i := by
  have hlen := length_postFifo_step hs
  have hfull := SyncFifo.full_iff s.postFifo
  have hfull' := SyncFifo.full_iff (s.postFifo.step s.postIn)
  have hle : s.postFifo.contents.length ≤ 2 ^ A := by
    rw [SyncFifo.contents, Ring.length_contents]
    exact hs.2
  show ((s.alu.aluRdRdy && !s.postFifo.full) && (s.postFifo.step s.postIn).full) = true ↔ _
  rw [Bool.and_eq_true, hfull', Bool.and_eq_true, Bool.not_eq_true', ← Bool.not_eq_true, hfull]
  unfold HasRoom
  cases hwr : s.pofWrEn with
  | false =>
      -- nothing on its way in: a FIFO that is not full does not become full
      rw [hwr] at hlen
      simp only [Bool.false_and, Bool.toNat_false, Nat.add_zero] at hlen
      simp only [Bool.false_eq_true, false_implies, not_true_eq_false, iff_false]
      rintro ⟨⟨_, hne⟩, hfilled⟩
      omega
  | true =>
      rw [hwr, Bool.true_and] at hlen
      cases hrd : s.pofRdEn && !s.postFifo.empty with
      | true =>
          -- the read at the same edge makes up for the result written
          rw [hrd] at hlen
          have hone := Bool.toNat_le (!s.postFifo.full)
          simp only [Bool.toNat_true, Bool.true_eq_false, false_implies, implies_true,
            not_true_eq_false, iff_false] at hlen ⊢
          rintro ⟨⟨_, hne⟩, hfilled⟩
          omega
      | false =>
          rw [hrd, Bool.toNat_false, Nat.zero_add] at hlen
          cases hf : s.postFifo.full with
          | true =>
              -- full already: then no result is acknowledged
              have hnow := hfull.mp hf
              simp only [forall_const, Classical.not_imp, not_not]
              constructor
              · rintro ⟨⟨_, hne⟩, _⟩
                exact absurd hnow hne
              · rintro ⟨_, hone⟩
                omega
          | false =>
              rw [hf] at hlen
              -- the result on its way takes the last free place
              simp only [Bool.not_false, Bool.toNat_true] at hlen
              simp only [forall_const, Classical.not_imp, not_not]
              constructor
              · rintro ⟨⟨hadd, _⟩, hfilled⟩
                exact ⟨hadd, by omega⟩
              · rintro ⟨hadd, hone⟩
                exact ⟨⟨hadd, by omega⟩, by omega⟩

/-- Over a run: `post_fifo` is never full under a result if and only if every
acknowledgement was given with room. -/
theorem pofDropped_run_iff {s : AluCop A} (hs : s.Wf) (h0 : s.pofDropped = false)
    (ins : List AluCopIn) :
    (∀ pre, pre <+: ins → (run step s pre).pofDropped = false) ↔ Along step HasRoom s ins := by
  have hedge : ∀ (s : AluCop A) (i : AluCopIn), s.Wf →
      ((s.step i).pofDropped = false ↔ s.HasRoom i) := by
    intro s i hwf
    rw [← Bool.not_eq_true, pofDropped_step_iff hwf, not_not]
  exact forall_prefix_iff (Q := fun s : AluCop A => s.pofDropped = false) Wf
    (fun s i h => wf_step h i) hedge hs h0 ins

/-- While no result is dropped, the results acknowledged are the ones read,
the ones stored and the one on its way in, in order. -/
theorem acknowledged_eq {s : AluCop A} (hs : s.Wf) {ins : List AluCopIn}
    (hok : Along step (fun s _ => s.pofDropped = false) s ins) :
    (s.postFifo.contents ++ s.pofSlot.map (BitVec.setWidth 24))
        ++ (events step acknowledged s ins).map (BitVec.setWidth 24)
      = results s ins ++ ((run step s ins).postFifo.contents
          ++ (run step s ins).pofSlot.map (BitVec.setWidth 24)) := by
  rw [← events_map]
  let held (s : AluCop A) := s.postFifo.contents ++ s.pofSlot.map (BitVec.setWidth 24)
  suffices halong : Along step (fun s i => held s ++ (s.acknowledged i).map (BitVec.setWidth 24)
      = s.result i ++ held (s.step i)) s ins from events_conserved halong
  refine along_of_invariant Wf (fun s i h _ => wf_step h i) ?_ hs hok
  intro s i hwf hkept
  have hpost := (SyncFifo.step_contents hwf.2 s.postIn).1
  have hnext : (s.step i).pofSlot = s.acknowledged i := pofSlot_step s i
  show (s.postFifo.contents ++ s.pofSlot.map (BitVec.setWidth 24)) ++ _ = _
  rw [pofSlot_taken hkept, hpost, List.append_assoc, ← hnext]
  rfl

/-- The claim on a state: no result is at a full `post_fifo`, and the results
acknowledged so far are all accounted for. -/
def RoomKept (s : AluCop A) (ins : List AluCopIn) : Prop :=
  ((run step s ins).pofWrEn = true → (run step s ins).postFifo.full = false)
    ∧ (events step acknowledged s ins).length
      = (results s ins).length + (run step s ins).postFifo.contents.length
        + (run step s ins).pofWrEn.toNat

/-- From reset on, results are written only into a `post_fifo` with room, and
those acknowledged are all accounted for, in every state of a run, if and only
if every acknowledgement of the run was given with room. -/
theorem roomKept_iff (s : AluCop A) (ins : List AluCopIn) :
    (∀ pre, pre <+: ins → RoomKept s.reset pre) ↔ Along step HasRoom s.reset ins := by
  have hwf := wf_reset s
  -- a result dropped is one that meets a full `post_fifo`
  have hdrop : ∀ t : AluCop A, t.pofDropped = false
      ↔ (t.pofWrEn = true → t.postFifo.full = false) := by
    intro t
    unfold pofDropped
    cases t.pofWrEn <;> simp
  rw [← pofDropped_run_iff hwf rfl]
  constructor
  · intro hall pre hpre
    exact (hdrop _).mpr (hall pre hpre).1
  · intro hall pre hpre
    refine ⟨(hdrop _).mp (hall pre hpre), ?_⟩
    -- up to any point of the run nothing has been dropped
    have hok : Along step (fun s _ => s.pofDropped = false) s.reset pre := by
      have hroom := (pofDropped_run_iff hwf rfl pre).mp fun pre' hpre' =>
        hall pre' (hpre'.trans hpre)
      refine along_of_invariant (fun t => t.Wf ∧ t.pofDropped = false) ?_ (fun t _ h _ => h.2)
        ⟨hwf, rfl⟩ hroom
      intro t i h hi
      refine ⟨wf_step h.1 i, ?_⟩
      rw [← Bool.not_eq_true, pofDropped_step_iff h.1 i]
      exact not_not_intro hi
    -- so the results acknowledged can be counted where they are
    have hcount := congrArg List.length (acknowledged_eq hwf hok)
    have hslot : ∀ t : AluCop A, t.pofSlot.length = t.pofWrEn.toNat := by
      intro t
      unfold pofSlot
      cases t.pofWrEn <;> rfl
    have hempty : s.reset.postFifo.contents = [] := SyncFifo.contents_reset _
    have hnone : s.reset.pofSlot = [] := rfl
    rw [hempty, hnone] at hcount
    simp only [List.length_append, List.length_map, hslot, List.map_nil, List.length_nil] at hcount
    omega

/-- In the burst the third result is acknowledged while the second is on its
way into the last free place. -/
theorem burst_writes_into_full :
    (run step coldStart.reset (burst.take 7)).pofWrEn = true
      ∧ (run step coldStart.reset (burst.take 7)).postFifo.full = true
      ∧ (events step acknowledged coldStart.reset (burst.take 8)).length = 3
      ∧ (results coldStart.reset (burst.take 8)).length
        + (run step coldStart.reset (burst.take 8)).postFifo.contents.length
        + (run step coldStart.reset (burst.take 8)).pofWrEn.toNat = 2 := by
  decide +kernel

end AluCop

end SocRtl.Alu
