import SocRtl.Handshake.Chain

/-!
# SocRtl.Handshake.RegisteredReady — the stage `axi_like_handshake_v1`

Here ready is a register too. It follows the downstream ready of the cycle
before, so it may be high while the stage holds a word that nobody takes. A
word accepted in such a cycle is loaded over the one held.

The stage is therefore a lossless buffer exactly on the runs that avoid these
cycles. The truth table of the second version marks them as impossible; they
are reached two edges after reset.
-/

namespace SocRtl.Handshake

universe u

/-- The registers of `axi_like_handshake_v1`, and a data register loaded on
each accepted transfer. -/
structure HandshakeV1 (α : Type u) where
  tmpValid : Bool
  tmpReady : Bool
  data : α
deriving DecidableEq

namespace HandshakeV1

variable {α : Type u}

/-- Reset. The data register is not reset and holds some `d`. -/
def reset (d : α) : HandshakeV1 α := ⟨false, true, d⟩

def validO (s : HandshakeV1 α) : Bool := s.tmpValid

def readyO (s : HandshakeV1 α) : Bool := s.tmpReady

def wEn (s : HandshakeV1 α) (i : ChainIn α) : Bool := i.validI && s.readyO

def rEn (s : HandshakeV1 α) (i : ChainIn α) : Bool := s.validO && i.readyI

/-- A clock edge. -/
def step (s : HandshakeV1 α) (i : ChainIn α) : HandshakeV1 α where
  tmpValid := (i.validI && s.readyO) || (s.validO && !i.readyI)
  tmpReady := i.readyI || (!s.validO && !i.readyI && !s.wEn i)
  data := if s.wEn i then i.data else s.data

/-- The word accepted at an edge. -/
def accepted (s : HandshakeV1 α) (i : ChainIn α) : List α := slot (s.wEn i) i.data

/-- The word delivered at an edge. -/
def delivered (s : HandshakeV1 α) (i : ChainIn α) : List α := slot (s.rEn i) s.data

/-- The word the stage holds. -/
def held (s : HandshakeV1 α) : List α := slot s.validO s.data

/-- A lossless one-word buffer, over a run: what was delivered is a prefix of
what was accepted, and `valid_o` says by how much it is shorter. -/
def Lossless (s : HandshakeV1 α) (ins : List (ChainIn α)) : Prop :=
  events step delivered s ins <+: events step accepted s ins ∧
    (events step accepted s ins).length
      = (events step delivered s ins).length + if (run step s ins).validO then 1 else 0

/-- Not the cycle that overwrites: the stage signals ready, the word it holds is
not taken, and another is offered. -/
def NoOverwrite (s : HandshakeV1 α) (i : ChainIn α) : Prop :=
  ¬ (s.tmpReady = true ∧ s.tmpValid = true ∧ i.readyI = false ∧ i.validI = true)

instance (s : HandshakeV1 α) (i : ChainIn α) : Decidable (NoOverwrite s i) := by
  unfold NoOverwrite; infer_instance

theorem length_held (s : HandshakeV1 α) : s.held.length = if s.validO then 1 else 0 := by
  cases h : s.validO <;> simp [held, slot, h]

/-- An empty stage is ready: the rows of the truth table in which it is not
cannot occur. -/
theorem ready_of_empty_run (d : α) (ins : List (ChainIn α)) :
    (run step (reset d) ins).tmpValid = true ∨ (run step (reset d) ins).tmpReady = true := by
  refine run_preserves (fun s : HandshakeV1 α => s.tmpValid = true ∨ s.tmpReady = true)
    (Or.inr rfl) ?_ ins
  intro s i _
  cases hready : i.readyI with
  | true => right; simp [step, hready]
  | false =>
      cases hvalid : s.validO with
      | true => left; simp [step, hvalid, hready]
      | false =>
          -- an empty stage that takes nothing in stays ready
          cases hw : s.wEn i with
          | true =>
              left
              rw [wEn] at hw
              simp [step, hw]
          | false => right; simp [step, hw, hvalid, hready]

/-- An edge that does not overwrite passes words on in order. -/
theorem held_step {s : HandshakeV1 α} {i : ChainIn α} (h : NoOverwrite s i) :
    s.held ++ s.accepted i = s.delivered i ++ (s.step i).held := by
  cases s with
  | mk v r d =>
      cases i with
      | mk validI x readyI =>
          cases v <;> cases r <;> cases validI <;> cases readyI <;>
            first
              | rfl
              | exact absurd ⟨rfl, rfl, rfl, rfl⟩ h

/-- An edge that overwrites takes in a word it has no room for. -/
theorem balanced_iff (s : HandshakeV1 α) (i : ChainIn α) :
    Balanced step accepted delivered held s i ↔ NoOverwrite s i := by
  constructor
  · -- both sides counted in that cycle: one word held and one in, one held and none out
    rintro hbal ⟨hready, hvalid, hlow, hoffer⟩
    simp [Balanced, accepted, delivered, length_held, step, wEn, rEn, readyO, validO, slot,
      hready, hvalid, hlow, hoffer] at hbal
  · intro h
    have hwords := congrArg List.length (held_step h)
    rwa [List.length_append, List.length_append] at hwords

/-- A run from an empty stage that never overwrites. -/
theorem lossless_of_noOverwrite (d : α) {ins : List (ChainIn α)}
    (h : Along step NoOverwrite (reset d) ins) : Lossless (reset d) ins := by
  -- order along the run; what is still held is the last word, if any
  have hwords := events_conserved (along_mono step (fun _ _ => held_step) h)
  have hempty : (reset d).held = ([] : List α) := rfl
  rw [hempty, List.nil_append] at hwords
  refine ⟨⟨_, hwords.symm⟩, ?_⟩
  rw [hwords, List.length_append, length_held]

/-- `axi_like_handshake_v1` is a lossless one-word buffer throughout a run if
and only if no edge of the run overwrites the word held. -/
theorem lossless_iff_noOverwrite (d : α) (ins : List (ChainIn α)) :
    (∀ pre, pre <+: ins → Lossless (reset d) pre) ↔ Along step NoOverwrite (reset d) ins := by
  constructor
  · intro hall
    rw [← along_congr step balanced_iff, ← balanced_prefixes_iff]
    intro pre hpre
    have hempty : (reset d).held = ([] : List α) := rfl
    rw [hempty, List.length_nil, Nat.zero_add, length_held]
    exact (hall pre hpre).2
  · rintro h pre ⟨rest, rfl⟩
    exact lossless_of_noOverwrite d ((along_append step (reset d) NoOverwrite pre rest).mp h).1

/-- A word is taken in while downstream is ready, and the next one while it is not. -/
def overwriteTrace : List (ChainIn (BitVec 8)) := [⟨true, 1, true⟩, ⟨true, 2, false⟩]

/-- After `overwriteTrace` two words were accepted, none was delivered, and
the stage holds one. -/
theorem not_always_lossless :
    ¬ ∀ (α : Type) (d : α) (ins : List (ChainIn α)), Lossless (reset d) ins := by
  intro h
  have hlength := (h (BitVec 8) 0 overwriteTrace).2
  exact absurd hlength (by decide)

end HandshakeV1

end SocRtl.Handshake
