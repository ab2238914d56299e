/-!
# SocRtl.Handshake — the valid/ready register stage `axi_like_handshake`

One flag says whether the stage holds a word. The stage is ready when it is
empty, or when the word it holds is being taken in the same cycle; ready runs
combinationally from the downstream side to the upstream side. Data registers
live outside the module, in the circuits that use it.
-/

namespace SocRtl.Handshake

universe u

/-- `ready_o`. -/
def readyO (validReg readyI : Bool) : Bool := !validReg || (validReg && readyI)

/-- `w_en`: a word is taken in. -/
def wEn (validReg validI readyI : Bool) : Bool :=
  validI && (!validReg || (validReg && readyI))

/-- `r_en`: the word held is taken out. -/
def rEn (validReg readyI : Bool) : Bool := validReg && readyI

/-- `valid_reg` after a clock edge: the two `if`s of the source, in order. -/
def nextValid (validReg validI readyI : Bool) : Bool :=
  let validReg' := if !validReg && validI then true else validReg
  if validReg && !validI && readyI then false else validReg'

/-- A stage that is ready takes over the upstream valid. -/
theorem nextValid_of_ready {validReg readyI : Bool} (h : readyO validReg readyI = true)
    (validI : Bool) : nextValid validReg validI readyI = validI := by
  revert validReg validI readyI
  decide

/-- A stage is ready if its word, should it hold one, is being taken. -/
theorem readyO_of_imp {validReg readyI : Bool} (h : validReg = true → readyI = true) :
    readyO validReg readyI = true := by
  cases validReg with
  | false => rfl
  | true => exact h rfl

/-- A stage that is not ready holds a word, which is not taken, and keeps it. -/
theorem nextValid_of_not_ready {validReg readyI : Bool} (h : readyO validReg readyI = false)
    (validI : Bool) :
    validReg = true ∧ readyI = false ∧ nextValid validReg validI readyI = true := by
  revert validReg validI readyI
  decide

/-! ## The two other implementations of a stage

`axi_like_handshake(dont use).sv` keeps the flag in `buf_valid` and updates it
by its enables, `rdy_ack_handshake.v` calls the flag `rd_rdy` and acknowledges
only a word that is offered. -/

/-- `ready_o` of the write-enable/read-enable variant. -/
def bufReadyO (bufValid readyI : Bool) : Bool := !bufValid || (bufValid && readyI)

/-- `buf_valid` after a clock edge. -/
def nextBufValid (bufValid validI readyI : Bool) : Bool :=
  if wEn bufValid validI readyI then true
  else if rEn bufValid readyI then false
  else bufValid

/-- `wr_ack` of `rdy_ack_handshake`. -/
def wrAck (wrRdy rdRdy rdAck : Bool) : Bool := wrRdy && (!rdRdy || (rdRdy && rdAck))

/-- `rd_rdy` after a clock edge. -/
def nextRdRdy (wrRdy rdRdy rdAck : Bool) : Bool :=
  if wrRdy && !rdRdy then true
  else if !wrRdy && rdRdy && rdAck then false
  else rdRdy

/-- The three update rules are one function of the flag and the two handshakes. -/
theorem nextBufValid_eq (bufValid validI readyI : Bool) :
    nextBufValid bufValid validI readyI = nextValid bufValid validI readyI := by
  revert bufValid validI readyI
  decide

theorem nextRdRdy_eq (wrRdy rdRdy rdAck : Bool) :
    nextRdRdy wrRdy rdRdy rdAck = nextValid rdRdy wrRdy rdAck := by
  revert wrRdy rdRdy rdAck
  decide

/-! ## The word a stage holds -/

/-- The word in a stage, as a list of length at most one. -/
def slot {α : Type u} (validReg : Bool) (d : α) : List α := if validReg then [d] else []

theorem map_slot {α β : Type u} (f : α → β) (validReg : Bool) (d : α) :
    (slot validReg d).map f = slot validReg (f d) := by
  cases validReg <;> rfl

theorem length_slot_le {α : Type u} (validReg : Bool) (d : α) : (slot validReg d).length ≤ 1 := by
  cases validReg with
  | false => exact Nat.zero_le 1
  | true => exact Nat.le_refl 1

/-- One edge of a stage: the word it held and the word it takes in are the
word it gives out and the word it holds next. The data register `d` may be
loaded in any cycle in which the stage is ready. -/
theorem slot_step {α : Type u} {validReg validI readyI : Bool} {d d' dIn : α}
    (hload : readyO validReg readyI = true → validI = true → d' = dIn)
    (hkeep : readyO validReg readyI = false → d' = d) :
    slot validReg d ++ slot (wEn validReg validI readyI) dIn
      = slot (rEn validReg readyI) d ++ slot (nextValid validReg validI readyI) d' := by
  cases hready : readyO validReg readyI with
  | true =>
      have hout : rEn validReg readyI = validReg := by
        revert hready
        cases validReg <;> cases readyI <;> decide
      have hin : wEn validReg validI readyI = validI := by
        revert hready
        cases validReg <;> cases validI <;> cases readyI <;> decide
      rw [nextValid_of_ready hready, hout, hin]
      cases validI with
      | true => rw [hload hready rfl]
      | false => rfl
  | false =>
      rcases nextValid_of_not_ready hready validI with ⟨hvalid, hlow, hnext⟩
      rw [hnext, hkeep hready, hvalid, hlow]
      simp [slot, wEn, rEn]

end SocRtl.Handshake
