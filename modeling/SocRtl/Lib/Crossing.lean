import Mathlib.Data.List.Count
import Mathlib.Data.List.FinRange
import Mathlib.Data.List.Lattice
import Mathlib.Algebra.BigOperators.Fin
import SocRtl.Lib.Tagged

/-!
# SocRtl.Lib.Crossing — queues that cross

A message waits in two queues at once, in that of its row and in that of its
column, and leaves both at the same time. Nothing blocks for good as long as
there is one list of the messages whose lanes are the queues, by rows and, with
the messages turned, by columns: the first message of this list is in front of
both its queues.

* `lane_step`: the list of the messages that stay, with the new ones behind it,
  has the new queues as its lanes.
* `lane_turn_gather`: the lanes by columns, of messages collected row by row.
-/

namespace SocRtl.Crossing

open Tagged

variable {κ α : Type*}

/-- The messages by columns. -/
def turn (G : List (κ × α)) : List (α × κ) := G.map Prod.swap

@[simp] theorem turn_nil : turn ([] : List (κ × α)) = [] := rfl

@[simp] theorem turn_cons (p : κ × α) (G : List (κ × α)) : turn (p :: G) = p.swap :: turn G := rfl

@[simp] theorem turn_append (G G' : List (κ × α)) : turn (G ++ G') = turn G ++ turn G' :=
  List.map_append

section

variable [DecidableEq κ] [DecidableEq α] {k : κ} {G L : List (κ × α)}

theorem turn_diff : turn (G.diff L) = (turn G).diff (turn L) :=
  List.map_diff Prod.swap_injective

omit [DecidableEq α] in
theorem mem_lane {b : α} : b ∈ lane k G ↔ (k, b) ∈ G := by
  simp [lane]

omit [DecidableEq κ] in
theorem mem_lane_turn {b : α} : k ∈ lane b (turn G) ↔ (k, b) ∈ G := by
  simp [lane, turn]

omit [DecidableEq α] in
theorem eq_nil_of_lanes (h : ∀ k, lane k G = []) : G = [] := by
  cases G with
  | nil => rfl
  | cons p G =>
      have hlane := h p.1
      rw [lane_cons_self] at hlane
      cases hlane

theorem lane_erase_ne {p : κ × α} (h : p.1 ≠ k) : lane k (G.erase p) = lane k G := by
  induction G with
  | nil => rfl
  | cons q G ih =>
      by_cases hq : q = p
      · subst hq
        rw [List.erase_cons_head, lane_cons_ne k h]
      · rw [List.erase_cons_tail (by simpa using hq)]
        by_cases hk : q.1 = k
        · subst hk
          rw [lane_cons_self, lane_cons_self, ih]
        · rw [lane_cons_ne k hk, lane_cons_ne k hk, ih]

/-- What is erased is the front of its lane. -/
theorem lane_erase_self {b : α} {rest : List α} (h : lane k G = b :: rest) :
    lane k (G.erase (k, b)) = rest := by
  induction G with
  | nil => simp at h
  | cons q G ih =>
      obtain ⟨k', c⟩ := q
      by_cases hk : k' = k
      · subst hk
        rw [lane_cons_self] at h
        injection h with hc hrest
        rw [hc, List.erase_cons_head, hrest]
      · have hne : ¬ ((k', c) == (k, b)) = true := by simp [hk]
        rw [lane_cons_ne k hk] at h
        rw [List.erase_cons_tail hne, lane_cons_ne k hk, ih h]

/-- Messages that are in front of a queue are taken off it. -/
theorem lane_diff (h : lane k L <+: lane k G) : lane k G = lane k L ++ lane k (G.diff L) := by
  induction L generalizing G with
  | nil => simp
  | cons p L ih =>
      obtain ⟨k', b⟩ := p
      rw [List.diff_cons]
      by_cases hk : k' = k
      · subst hk
        -- a message of this lane is the front of the queue, and goes
        rw [lane_cons_self] at h ⊢
        obtain ⟨rest, hrest⟩ := h
        have herase : lane k' (G.erase (k', b)) = lane k' L ++ rest := lane_erase_self hrest.symm
        have hfront : lane k' L <+: lane k' (G.erase (k', b)) := ⟨rest, herase.symm⟩
        rw [List.cons_append, ← ih hfront, herase, ← hrest, List.cons_append]
      · rw [lane_cons_ne k hk] at h ⊢
        -- one of another lane leaves this lane alone
        have herase : lane k (G.erase (k', b)) = lane k G := lane_erase_ne hk
        rw [← herase] at h ⊢
        exact ih h

/-- A queue that was a lane is one after the messages `L` have left and the
messages `P` have come, up to a rest `t` that is in the queue only. -/
theorem lane_step_rest {P : List (κ × α)} {q' t : List α} (hpop : lane k L <+: lane k G)
    (hstep : lane k G ++ (lane k P ++ t) = lane k L ++ q') : q' = lane k (G.diff L ++ P) ++ t := by
  rw [lane_diff hpop, List.append_assoc] at hstep
  rw [lane_append, List.append_assoc]
  exact (List.append_cancel_left hstep).symm

theorem lane_step {P : List (κ × α)} {q' : List α} (hpop : lane k L <+: lane k G)
    (hstep : lane k G ++ lane k P = lane k L ++ q') : q' = lane k (G.diff L ++ P) := by
  have hrest := lane_step_rest (P := P) (t := []) hpop (by rwa [List.append_nil])
  rwa [List.append_nil] at hrest

theorem count_lane (b : α) (G : List (κ × α)) : (lane k G).count b = G.count (k, b) := by
  induction G with
  | nil => rfl
  | cons p G ih =>
      obtain ⟨k', c⟩ := p
      by_cases hk : k' = k
      · subst hk
        rw [lane_cons_self, List.count_cons, List.count_cons, ih]
        simp
      · rw [lane_cons_ne k hk, ih, List.count_cons_of_ne (by simp [hk])]

theorem count_lane_turn (b : α) (G : List (κ × α)) :
    (lane b (turn G)).count k = (lane k G).count b := by
  rw [count_lane, count_lane]
  exact List.count_map_of_injective G Prod.swap Prod.swap_injective (k, b)

end

/-- Every message is in one lane. -/
theorem sum_length_lane [Fintype κ] [DecidableEq κ] (G : List (κ × α)) :
    ∑ k, (lane k G).length = G.length := by
  induction G with
  | nil => simp
  | cons p G ih =>
      have hone : ∀ k, (lane k (p :: G)).length
          = (if p.1 = k then 1 else 0) + (lane k G).length := by
        intro k
        split
        · rename_i hk
          subst hk
          rw [lane_cons_self, List.length_cons, Nat.add_comm]
        · rename_i hk
          rw [lane_cons_ne k hk, Nat.zero_add]
      simp only [hone, Finset.sum_add_distrib, Finset.sum_ite_eq, Finset.mem_univ, if_true, ih,
        List.length_cons]
      exact Nat.add_comm 1 G.length

@[simp] theorem length_turn (G : List (κ × α)) : (turn G).length = G.length := List.length_map _

/-! ## Messages collected row by row -/

/-- The messages of all rows, with their rows. -/
def gather {n : ℕ} (f : Fin n → List α) : List (Fin n × α) :=
  (List.finRange n).flatMap fun r => (f r).map fun b => (r, b)

theorem lane_map_pair [DecidableEq κ] (k r : κ) (xs : List α) :
    lane k (xs.map fun b => (r, b)) = if r = k then xs else [] := by
  induction xs with
  | nil => simp
  | cons b xs ih =>
      rw [List.map_cons]
      split at ih <;> rename_i hr
      · subst hr
        rw [lane_cons_self, ih, if_pos rfl]
      · rw [lane_cons_ne k hr, ih, if_neg hr]

theorem lane_flatMap [DecidableEq κ] (f : κ → List α) {rows : List κ} (hnodup : rows.Nodup)
    (k : κ) :
    lane k (rows.flatMap fun r => (f r).map fun b => (r, b)) = if k ∈ rows then f k else [] := by
  induction rows with
  | nil => rfl
  | cons r rows ih =>
      obtain ⟨hnew, hrest⟩ := List.nodup_cons.1 hnodup
      rw [List.flatMap_cons, lane_append, lane_map_pair, ih hrest]
      by_cases hr : r = k
      · subst hr
        simp [hnew]
      · have hk : k ≠ r := fun h => hr h.symm
        simp [hr, hk]

@[simp] theorem lane_gather {n : ℕ} (f : Fin n → List α) (r : Fin n) : lane r (gather f) = f r := by
  rw [gather, lane_flatMap f (List.nodup_finRange n), if_pos (List.mem_finRange r)]

theorem length_gather {n : ℕ} (f : Fin n → List α) : (gather f).length = ∑ r, (f r).length := by
  simp only [← sum_length_lane (gather f), lane_gather]

/-- The messages for one column, of which there is one at most. -/
theorem lane_turn_gather {n : ℕ} [DecidableEq α] {f : Fin n → List α} {b : α} {g : List (Fin n)}
    (hone : g.length ≤ 1) (hcount : ∀ r, (f r).count b = g.count r) :
    lane b (turn (gather f)) = g := by
  -- of each row as many as `g` has, so the same up to order, and `g` has one at most
  have hperm : (lane b (turn (gather f))).Perm g := by
    rw [List.perm_iff_count]
    intro r
    rw [count_lane_turn, lane_gather, hcount]
  match g, hone with
  | [], _ => exact hperm.eq_nil
  | [r], _ => exact List.perm_singleton.1 hperm

end SocRtl.Crossing
