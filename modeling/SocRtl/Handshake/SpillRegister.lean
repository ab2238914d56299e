import SocRtl.Handshake.Chain

/-!
# SocRtl.Handshake.SpillRegister — the `spill_register` of `common_cells`

Two data registers cut every combinational path between the two sides. A word
enters register A; it moves on to register B when downstream does not take it
at once. Ready is high as long as one of the two is empty, and B is given out
before A.

Seen from outside it is a queue of at most two words: `spill_order_of_run` for
the order of the words, `ready_iff_length` for ready, `dataO_step_of_stalled`
for the word that is offered and not taken.
-/

namespace SocRtl.Handshake

universe u

/-- The registers of `spill_register_flushable`, without bypass. -/
structure Spill (α : Type u) where
  aDataQ : α
  aFullQ : Bool
  bDataQ : α
  bFullQ : Bool
deriving DecidableEq

namespace Spill

variable {α : Type u}

/-- Reset, with `z` for `T'('0)`. -/
def reset (z : α) : Spill α := ⟨z, false, z, false⟩

def readyO (s : Spill α) : Bool := !s.aFullQ || !s.bFullQ

def validO (s : Spill α) : Bool := s.aFullQ || s.bFullQ

def dataO (s : Spill α) : α := if s.bFullQ then s.bDataQ else s.aDataQ

def aFill (s : Spill α) (validI flushI : Bool) : Bool := validI && s.readyO && !flushI

def aDrain (s : Spill α) (flushI : Bool) : Bool := (s.aFullQ && !s.bFullQ) || flushI

def bFill (s : Spill α) (readyI flushI : Bool) : Bool := s.aDrain flushI && !readyI && !flushI

def bDrain (s : Spill α) (readyI flushI : Bool) : Bool := (s.bFullQ && readyI) || flushI

/-- A clock edge of `spill_register_flushable`. -/
def stepFlushable (flushI : Bool) (s : Spill α) (i : ChainIn α) : Spill α where
  aDataQ := if s.aFill i.validI flushI then i.data else s.aDataQ
  aFullQ := if s.aFill i.validI flushI || s.aDrain flushI then s.aFill i.validI flushI
    else s.aFullQ
  bDataQ := if s.bFill i.readyI flushI then s.aDataQ else s.bDataQ
  bFullQ := if s.bFill i.readyI flushI || s.bDrain i.readyI flushI then s.bFill i.readyI flushI
    else s.bFullQ

/-- A clock edge of `spill_register`, which never flushes. -/
def step (s : Spill α) (i : ChainIn α) : Spill α := stepFlushable false s i

/-- The words held, the one given out next first. -/
def contents (s : Spill α) : List α := slot s.bFullQ s.bDataQ ++ slot s.aFullQ s.aDataQ

/-- The word that enters at an edge. -/
def pushed (s : Spill α) (i : ChainIn α) : List α := slot (i.validI && s.readyO) i.data

/-- The word that is taken at an edge. -/
def popped (s : Spill α) (i : ChainIn α) : List α := slot (s.validO && i.readyI) s.dataO

/-! ## A queue of at most two words -/

@[simp] theorem contents_reset (z : α) : (reset z).contents = [] := rfl

@[simp] theorem readyO_reset (z : α) : (reset z).readyO = true := rfl

/-- One edge, by which of the two registers are full. -/
theorem contents_step (s : Spill α) (i : ChainIn α) :
    s.contents ++ s.pushed i = s.popped i ++ (s.step i).contents := by
  rcases s with ⟨a, aFull, b, bFull⟩
  rcases i with ⟨validI, d, readyI⟩
  cases aFull with
  | false =>
      -- nothing moves from A to B
      cases bFull <;> cases validI <;> cases readyI <;> rfl
  | true =>
      cases bFull with
      | false => cases validI <;> cases readyI <;> rfl
      | true => cases validI <;> cases readyI <;> rfl

/-- Over a run the words leave in the order in which they came. -/
theorem spill_order_of_run (s : Spill α) (ins : List (ChainIn α)) :
    s.contents ++ events step pushed s ins
      = events step popped s ins ++ (run step s ins).contents :=
  events_conserved (along_of_forall step contents_step s ins)

/-- A spill register `π` inside a circuit that feeds it `ρ`. -/
theorem fed_order_of_run {σ ι : Type*} {step' : σ → ι → σ} (π : σ → Spill α)
    (ρ : σ → ι → ChainIn α) (hstep : ∀ s i, π (step' s i) = (π s).step (ρ s i)) (s : σ)
    (ins : List ι) :
    (π s).contents ++ events step' (fun s i => (π s).pushed (ρ s i)) s ins
      = events step' (fun s i => (π s).popped (ρ s i)) s ins ++ (π (run step' s ins)).contents := by
  rw [events_fed hstep pushed, events_fed hstep popped, run_fed hstep]
  exact spill_order_of_run (π s) (trace step' ρ s ins)

theorem ready_iff_length (s : Spill α) : s.readyO = true ↔ s.contents.length < 2 := by
  rcases s with ⟨a, aFull, b, bFull⟩
  cases aFull <;> cases bFull <;> simp [readyO, contents, slot]

theorem length_contents_le (s : Spill α) : s.contents.length ≤ 2 := by
  rw [contents, List.length_append]
  exact Nat.add_le_add (length_slot_le _ _) (length_slot_le _ _)

/-- A word that is offered and not taken is offered again, unchanged. -/
theorem dataO_step_of_stalled {s : Spill α} {i : ChainIn α} (hvalid : s.validO = true)
    (hready : i.readyI = false) : (s.step i).validO = true ∧ (s.step i).dataO = s.dataO := by
  rcases s with ⟨a, aFull, b, bFull⟩
  rcases i with ⟨validI, d, readyI⟩
  have hlow : readyI = false := hready
  subst hlow
  cases bFull with
  | true => cases aFull <;> cases validI <;> exact ⟨rfl, rfl⟩
  | false =>
      -- the word offered is in A: it moves to B, which is offered first
      cases aFull with
      | true => cases validI <;> exact ⟨rfl, rfl⟩
      | false => cases hvalid

/-- What is offered is the first word held. -/
theorem contents_of_valid {s : Spill α} (hvalid : s.validO = true) :
    s.contents = s.dataO :: s.contents.drop 1 := by
  rcases s with ⟨a, aFull, b, bFull⟩
  cases bFull with
  | true => rfl
  | false =>
      cases aFull with
      | true => rfl
      | false => cases hvalid

theorem contents_of_not_valid {s : Spill α} (hvalid : s.validO = false) : s.contents = [] := by
  rcases s with ⟨a, aFull, b, bFull⟩
  cases bFull with
  | true => simp [validO] at hvalid
  | false =>
      cases aFull with
      | true => cases hvalid
      | false => rfl

/-- A flush empties both registers. -/
theorem contents_flush {s : Spill α} {i : ChainIn α} :
    (stepFlushable true s i).contents = [] := by
  rcases s with ⟨a, aFull, b, bFull⟩
  rcases i with ⟨validI, d, readyI⟩
  cases aFull <;> cases bFull <;> cases validI <;> cases readyI <;> rfl

end Spill

end SocRtl.Handshake
