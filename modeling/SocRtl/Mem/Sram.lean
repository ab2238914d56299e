import Mathlib.Algebra.Group.Nat.Defs
import SocRtl.Lib.Bytes

/-!
# SocRtl.Mem.Sram — the SRAM macros

`Xilinx_SRAM1R1W_32X32768` and `Xilinx_SRAM1R1W_32X131072` are vendor macros
that the sources instantiate. The circuits are proved against any macro that
writes on port A and reads on port B in one clock, addressed by bytes; a
block RAM shows that there is one.
-/

namespace SocRtl.Mem

open Bytes

/-- What a clock edge shows to the two ports. -/
structure SramIn where
  ena : Bool
  wea : BitVec 4
  addra : BitVec 32
  dina : BitVec 32
  enb : Bool
  addrb : BitVec 32

/-- The word index in a byte address: bits `A + 1` to `2`. -/
def wordIndex (A : ℕ) (addr : BitVec 32) : BitVec A := addr.extractLsb' 2 A

theorem toNat_wordIndex (A : ℕ) (addr : BitVec 32) :
    (wordIndex A addr).toNat = addr.toNat / 4 % 2 ^ A := by
  rw [wordIndex, BitVec.extractLsb'_toNat, Nat.shiftRight_eq_div_pow]

/-- A synchronous memory of `2 ^ A` words with one write and one read port,
which holds its output between reads. Nothing is said about a read of the word
that is being written. -/
structure Sram (A : ℕ) where
  State : Type
  step : State → SramIn → State
  word : State → BitVec A → BitVec 32
  doutb : State → BitVec 32
  word_step : ∀ s i a, word (step s i) a
    = if i.ena = true ∧ wordIndex A i.addra = a then mergeBytes i.wea i.dina (word s a)
      else word s a
  doutb_step : ∀ s i, i.enb = true →
    ¬ (i.ena = true ∧ wordIndex A i.addra = wordIndex A i.addrb) →
    doutb (step s i) = word s (wordIndex A i.addrb)
  doutb_hold : ∀ s i, i.enb = false → doutb (step s i) = doutb s

/-- A block RAM in read-first mode. -/
def blockRam (A : ℕ) : Sram A where
  State := (BitVec A → BitVec 32) × BitVec 32
  step := fun s i =>
    (fun a => if i.ena = true ∧ wordIndex A i.addra = a then mergeBytes i.wea i.dina (s.1 a)
      else s.1 a,
    if i.enb then s.1 (wordIndex A i.addrb) else s.2)
  word := fun s => s.1
  doutb := fun s => s.2
  word_step := fun _ _ _ => rfl
  doutb_step := fun s i henb _ => by simp [henb]
  doutb_hold := fun s i henb => by simp [henb]

end SocRtl.Mem
