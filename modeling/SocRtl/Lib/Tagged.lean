import Mathlib.Data.List.Infix
import SocRtl.Lib.Clocked

/-!
# SocRtl.Lib.Tagged — streams through a multiplexer

A multiplexed stream is a list of tagged items. `lane k` is what belongs to tag
`k`. Two streams whose tags agree, as far as both go, may be joined item by
item, before or after they are taken apart into lanes: `lane_join`.
-/

namespace SocRtl.Tagged

variable {κ α β : Type*}

/-- The tags of a stream. -/
def tags (xs : List (κ × α)) : List κ := xs.map Prod.fst

/-- The items of a stream with tag `k`. -/
def lane [DecidableEq κ] (k : κ) (xs : List (κ × α)) : List α :=
  (xs.filter fun x => x.1 = k).map Prod.snd

/-- Two streams joined item by item, with the tags of the first. -/
def join (xs : List (κ × α)) (ys : List (κ × β)) : List (κ × (α × β)) :=
  List.zipWith (fun x y => (x.1, (x.2, y.2))) xs ys

@[simp] theorem tags_nil : tags ([] : List (κ × α)) = [] := rfl

@[simp] theorem tags_append (xs ys : List (κ × α)) : tags (xs ++ ys) = tags xs ++ tags ys :=
  List.map_append

@[simp] theorem length_tags (xs : List (κ × α)) : (tags xs).length = xs.length := List.length_map _

theorem prefix_tags {xs ys : List (κ × α)} (h : xs <+: ys) : tags xs <+: tags ys := h.map _

section

variable [DecidableEq κ] (k : κ)

@[simp] theorem lane_nil : lane k ([] : List (κ × α)) = [] := rfl

theorem lane_cons_self (a : α) (xs : List (κ × α)) : lane k ((k, a) :: xs) = a :: lane k xs := by
  simp [lane]

theorem lane_cons_ne {k' : κ} (h : k' ≠ k) (a : α) (xs : List (κ × α)) :
    lane k ((k', a) :: xs) = lane k xs := by
  simp [lane, h]

@[simp] theorem lane_append (xs ys : List (κ × α)) :
    lane k (xs ++ ys) = lane k xs ++ lane k ys := by
  simp [lane]

theorem prefix_lane {xs ys : List (κ × α)} (h : xs <+: ys) : lane k xs <+: lane k ys :=
  (h.filter _).map _

theorem length_lane_le (xs : List (κ × α)) : (lane k xs).length ≤ xs.length := by
  rw [lane, List.length_map]
  exact List.length_filter_le _ _

theorem length_lane (xs : List (κ × α)) : (lane k xs).length = (tags xs).count k := by
  rw [lane, List.length_map, tags, List.count_eq_countP, List.countP_map,
    List.countP_eq_length_filter]
  congr 1

/-- A stream cut off by at most `c` items loses at most `c` in a lane. -/
theorem length_lane_take_le {xs : List (κ × α)} {n c : ℕ} (h : xs.length ≤ n + c) :
    (lane k xs).length ≤ (lane k (xs.take n)).length + c := by
  -- the part cut off has at most `c` items, in all lanes together
  have hdrop := length_lane_le k (xs.drop n)
  have hsplit := congrArg (fun ys => (lane k ys).length) (List.take_append_drop n xs)
  simp only [lane_append, List.length_append] at hsplit
  rw [List.length_drop] at hdrop
  omega

end

/-- The lane of a run is the run of the lane. -/
theorem lane_events {σ ι : Type*} [DecidableEq κ] (k : κ) (step : σ → ι → σ)
    (obs : σ → ι → List (κ × α)) (s : σ) (ins : List ι) :
    lane k (events step obs s ins) = events step (fun s i => lane k (obs s i)) s ins := by
  induction ins generalizing s with
  | nil => rfl
  | cons i ins ih => rw [events_cons, events_cons, lane_append, ih]

/-- Longer streams have longer pairs. -/
theorem prefix_zip {xs xs' : List α} {ys ys' : List β} (hx : xs <+: xs') (hy : ys <+: ys') :
    xs.zip ys <+: xs'.zip ys' := by
  induction xs generalizing xs' ys ys' with
  | nil => exact List.nil_prefix
  | cons x xs ih =>
      cases ys with
      | nil => exact List.nil_prefix
      | cons y ys =>
          obtain ⟨tx, rfl⟩ := hx
          obtain ⟨ty, rfl⟩ := hy
          simpa using ih (List.prefix_append _ tx) (List.prefix_append _ ty)

/-- The tags of the first stream, as far as there is a second. -/
theorem tags_join (xs : List (κ × α)) (ys : List (κ × β)) :
    tags (join xs ys) = (tags xs).take ys.length := by
  induction xs generalizing ys with
  | nil => simp [join]
  | cons x xs ih =>
      cases ys with
      | nil => rfl
      | cons y ys => simpa [join, tags] using ih ys

/-- Streams whose tags agree may be taken apart before they are joined. -/
theorem lane_join [DecidableEq κ] (k : κ) {xs : List (κ × α)} {ys : List (κ × β)}
    (h : tags xs <+: tags ys ∨ tags ys <+: tags xs) :
    lane k (join xs ys) = (lane k xs).zip (lane k ys) := by
  induction xs generalizing ys with
  | nil => simp [join]
  | cons x xs ih =>
      cases ys with
      | nil => simp [join]
      | cons y ys =>
          obtain ⟨kx, x⟩ := x
          obtain ⟨ky, y⟩ := y
          -- one of the two streams of tags runs ahead of the other, so the first tags agree
          have hhead : kx = ky ∧ (tags xs <+: tags ys ∨ tags ys <+: tags xs) := by
            rcases h with h | h
            · obtain ⟨heq, hrest⟩ := List.cons_prefix_cons.1 h
              exact ⟨heq, .inl hrest⟩
            · obtain ⟨heq, hrest⟩ := List.cons_prefix_cons.1 h
              exact ⟨heq.symm, .inr hrest⟩
          obtain ⟨rfl, hrest⟩ := hhead
          have hjoin : join ((kx, x) :: xs) ((kx, y) :: ys) = (kx, (x, y)) :: join xs ys := rfl
          rw [hjoin]
          by_cases hk : kx = k
          · subst hk
            rw [lane_cons_self, lane_cons_self, lane_cons_self, ih hrest, List.zip_cons_cons]
          · rw [lane_cons_ne k hk, lane_cons_ne k hk, lane_cons_ne k hk, ih hrest]

/-- Streams with the same tags, as far as they go. -/
theorem lane_join_of_tags [DecidableEq κ] (k : κ) {xs : List (κ × α)} {ys : List (κ × β)}
    (h : tags xs = tags ys) : lane k (join xs ys) = (lane k xs).zip (lane k ys) :=
  lane_join k (.inl ⟨[], by rw [List.append_nil, h]⟩)

theorem tags_join_of_tags {xs : List (κ × α)} {ys : List (κ × β)} (h : tags xs = tags ys) :
    tags (join xs ys) = tags xs := by
  rw [tags_join, ← length_tags ys, ← h, List.take_length]

end SocRtl.Tagged
