/-!
# SocRtl.Lib.Queue — bounded queues with an output register

What a synchronous FIFO is for: a queue of at most `cap` words, one port that
appends a word if there is room, one port that takes the oldest word, if there
is one, into an output register. Both ports may be used in the same cycle and
see the queue as it was before.
-/

namespace SocRtl

universe u

/-- A queue of at most `cap` words, oldest first, and its output register. -/
structure Queue (α : Type u) (cap : Nat) where
  items : List α
  out : α
  bounded : items.length ≤ cap

namespace Queue

variable {α : Type u} {cap : Nat}

/-- The queue that holds nothing. -/
def nil (out : α) : Queue α cap := ⟨[], out, Nat.zero_le cap⟩

/-- The word that a write request appends. -/
def accepted (q : Queue α cap) (wr : Bool) (d : α) : List α :=
  if wr = true ∧ q.items.length < cap then [d] else []

/-- The word that a read request takes, and the words it leaves. -/
def granted (q : Queue α cap) (rd : Bool) : List α := if rd then q.items.take 1 else []

def kept (q : Queue α cap) (rd : Bool) : List α := if rd then q.items.drop 1 else q.items

theorem granted_append_kept (q : Queue α cap) (rd : Bool) :
    q.granted rd ++ q.kept rd = q.items := by
  cases rd with
  | true => exact List.take_append_drop 1 q.items
  | false => rfl

theorem length_accepted (q : Queue α cap) (wr : Bool) (d : α) :
    q.items.length + (q.accepted wr d).length ≤ cap := by
  have hroom := q.bounded
  unfold accepted
  split
  · rename_i h
    exact h.2
  · exact hroom

/-- One clock edge. A read that finds nothing leaves the output as it is. -/
def step (q : Queue α cap) (wr rd : Bool) (d : α) : Queue α cap where
  items := q.kept rd ++ q.accepted wr d
  out := (q.granted rd).headD q.out
  bounded := by
    have hlen := q.length_accepted wr d
    have hsplit := congrArg List.length (q.granted_append_kept rd)
    rw [List.length_append] at hsplit ⊢
    omega

/-- Words leave in the order in which they came. -/
theorem step_items (q : Queue α cap) (wr rd : Bool) (d : α) :
    q.items ++ q.accepted wr d = q.granted rd ++ (q.step wr rd d).items := by
  rw [step, ← List.append_assoc, granted_append_kept]

end Queue

end SocRtl
