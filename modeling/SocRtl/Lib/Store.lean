import Mathlib.Data.List.Nodup
import Mathlib.Logic.Function.Basic

/-!
# SocRtl.Lib.Store — stores and sequences of writes

A store maps keys to values; `writeAll` makes a list of writes, oldest first.
The last write to a key decides, so if every key is written once, each holds
the value written to it.
-/

namespace SocRtl.Store

variable {κ α : Type*} [DecidableEq κ]

/-- The store after a list of writes. -/
def writeAll (mem : κ → α) (ops : List (κ × α)) : κ → α :=
  ops.foldl (fun m op => Function.update m op.1 op.2) mem

@[simp] theorem writeAll_nil (mem : κ → α) : writeAll mem [] = mem := rfl

@[simp] theorem writeAll_cons (mem : κ → α) (op : κ × α) (ops : List (κ × α)) :
    writeAll mem (op :: ops) = writeAll (Function.update mem op.1 op.2) ops := rfl

theorem writeAll_append (mem : κ → α) (as bs : List (κ × α)) :
    writeAll mem (as ++ bs) = writeAll (writeAll mem as) bs := by
  simp [writeAll]

/-- A key that is not written keeps its value. -/
theorem writeAll_of_not_mem {mem : κ → α} {ops : List (κ × α)} {k : κ}
    (h : k ∉ ops.map Prod.fst) : writeAll mem ops k = mem k := by
  induction ops generalizing mem with
  | nil => rfl
  | cons op ops ih =>
      rw [List.map_cons, List.mem_cons, not_or] at h
      rw [writeAll_cons, ih h.2, Function.update_of_ne h.1]

/-- A key to which all writes bring one value, and that is written, holds it. -/
theorem writeAll_of_agree {mem : κ → α} {ops : List (κ × α)} {k : κ} {v : α}
    (hsome : (k, v) ∈ ops) (hagree : ∀ op ∈ ops, op.1 = k → op.2 = v) :
    writeAll mem ops k = v := by
  induction ops generalizing mem with
  | nil => exact absurd hsome List.not_mem_nil
  | cons op ops ih =>
      rw [writeAll_cons]
      by_cases hlater : k ∈ ops.map Prod.fst
      · -- a later write decides, and it agrees
        rcases List.mem_map.mp hlater with ⟨op', hmem, hkey⟩
        have hval : op'.2 = v := hagree op' (List.mem_cons_of_mem op hmem) hkey
        have hthere : (k, v) ∈ ops := by
          rw [← hkey, ← hval]
          exact hmem
        exact ih hthere fun op'' h => hagree op'' (List.mem_cons_of_mem op h)
      · rw [writeAll_of_not_mem hlater]
        rcases List.mem_cons.mp hsome with rfl | hthere
        · rw [Function.update_self]
        · exact absurd (List.mem_map_of_mem hthere) hlater

/-- A key that is written once holds what was written. -/
theorem writeAll_of_mem {mem : κ → α} {ops : List (κ × α)} (hnodup : (ops.map Prod.fst).Nodup)
    {op : κ × α} (h : op ∈ ops) : writeAll mem ops op.1 = op.2 := by
  refine writeAll_of_agree h ?_
  intro op' h' hkey
  rw [List.inj_on_of_nodup_map hnodup h' h hkey]

/-- Values written to different keys are read back from them. -/
theorem writeAll_map {ι : Type*} {mem : κ → α} {l : List ι} (hnodup : l.Nodup) {f : ι → κ}
    (hinj : ∀ x ∈ l, ∀ y ∈ l, f x = f y → x = y) (g : ι → α) {q : ι} (hq : q ∈ l) :
    writeAll mem (l.map fun x => (f x, g x)) (f q) = g q := by
  have hkeys : (l.map fun x => (f x, g x)).map Prod.fst = l.map f := by
    rw [List.map_map]
    rfl
  have hmem : (f q, g q) ∈ l.map fun x => (f x, g x) := List.mem_map_of_mem hq
  refine writeAll_of_mem ?_ hmem
  rw [hkeys]
  exact List.Nodup.map_on hinj hnodup

end SocRtl.Store
