import Mathlib.Data.Nat.ModEq
import Mathlib.Logic.Function.Basic

/-!
# SocRtl.Lib.Circular — ring buffers of any depth

A memory whose places are used cyclically: the place after the last one is the
first one. Where `SocRtl.Lib.Ring` needs a power of two and pointers with a
wrap bit, the words are here given by the place of the oldest one and their
number, for any depth.
-/

namespace SocRtl.Circular

variable {α : Type*} {depth : ℕ}

/-- The `cnt` words from place `rp` on, oldest first. -/
def contents (depth : ℕ) (mem : ℕ → α) (rp cnt : ℕ) : List α :=
  (List.range cnt).map fun k => mem ((rp + k) % depth)

@[simp] theorem length_contents (mem : ℕ → α) (rp cnt : ℕ) :
    (contents depth mem rp cnt).length = cnt := by
  simp [contents]

@[simp] theorem contents_zero (mem : ℕ → α) (rp : ℕ) : contents depth mem rp 0 = [] := rfl

/-- Two places less than a turn apart are different. -/
theorem place_ne {x y : ℕ} (hlt : x < y) (hturn : y < x + depth) : x % depth ≠ y % depth := by
  intro heq
  have hdvd : depth ∣ y - x := (Nat.modEq_iff_dvd' hlt.le).1 heq
  have hle := Nat.le_of_dvd (by omega) hdvd
  omega

/-- A write behind the newest word changes none of the words. -/
theorem contents_write (mem : ℕ → α) {rp cnt : ℕ} (hroom : cnt < depth) (d : α) :
    contents depth (Function.update mem ((rp + cnt) % depth) d) rp cnt
      = contents depth mem rp cnt := by
  apply List.map_congr_left
  intro k hk
  have hlt := List.mem_range.1 hk
  exact Function.update_of_ne (place_ne (by omega) (by omega)) _ _

/-- A word written behind the newest one is appended. -/
theorem contents_push (mem : ℕ → α) {rp cnt : ℕ} (hroom : cnt < depth) (d : α) :
    contents depth (Function.update mem ((rp + cnt) % depth) d) rp (cnt + 1)
      = contents depth mem rp cnt ++ [d] := by
  rw [← contents_write mem hroom d]
  simp [contents, List.range_succ]

/-- The oldest word, and the words behind it. -/
theorem contents_pop (mem : ℕ → α) {rp : ℕ} (hrp : rp < depth) (cnt : ℕ) :
    contents depth mem rp (cnt + 1) = mem rp :: contents depth mem ((rp + 1) % depth) cnt := by
  have htail : ∀ k, mem ((rp + (k + 1)) % depth) = mem (((rp + 1) % depth + k) % depth) := by
    intro k
    rw [Nat.mod_add_mod, Nat.add_assoc, Nat.add_comm 1 k]
  rw [contents, List.range_succ_eq_map, List.map_cons, List.map_map, Nat.add_zero,
    Nat.mod_eq_of_lt hrp]
  exact congrArg _ (List.map_congr_left fun k _ => htail k)

end SocRtl.Circular
