import Mathlib.Data.List.Induction

/-!
# SocRtl.Bus.AddrDecode — the address decoder `addr_decode`

The decoder runs through the rules of an address map from the lowest index up
and lets every matching rule overwrite the result, so the matching rule with the
highest index wins. The start of a rule is included and its end is not; the end
0 stands for the end of the address space.
-/

namespace SocRtl.Bus

/-! ## Model -/

/-- `rule_t`. -/
structure Rule (A : ℕ) where
  idx : BitVec 32
  startAddr : BitVec A
  endAddr : BitVec A
deriving DecidableEq

/-- The outputs of the decoder. -/
structure Decoded (W : ℕ) where
  idxO : BitVec W
  decValidO : Bool
  decErrorO : Bool

variable {A W : ℕ}

/-- The rule matches: by range, or with `Napot` by base and mask. -/
def Rule.matched (napot : Bool) (addr : BitVec A) (r : Rule A) : Bool :=
  (!napot && decide (r.startAddr ≤ addr)
      && (decide (addr < r.endAddr) || decide (r.endAddr = 0)))
    || (napot && decide (r.startAddr &&& r.endAddr = addr &&& r.endAddr))

/-- `addr_decode_dync`. The address map is listed from rule 0 up. -/
def addrDecodeDync (napot : Bool) (addrMapI : List (Rule A)) (enDefaultIdxI : Bool)
    (defaultIdxI : BitVec W) (configOngoingI : Bool) (addrI : BitVec A) : Decoded W :=
  addrMapI.foldl
    (fun o r =>
      if r.matched napot addrI then
        ⟨if configOngoingI then defaultIdxI else r.idx.setWidth W, !configOngoingI, false⟩
      else o)
    ⟨if enDefaultIdxI then defaultIdxI else 0, false, if enDefaultIdxI then false else true⟩

/-- `addr_decode` as the sources use it: by range and without a default. -/
def addrDecode (addrMapI : List (Rule A)) (addrI : BitVec A) : Decoded W :=
  addrDecodeDync false addrMapI false 0 false addrI

/-! ## What it decodes -/

theorem matched_iff {addr : BitVec A} {r : Rule A} :
    r.matched false addr = true
      ↔ r.startAddr ≤ addr ∧ (addr < r.endAddr ∨ r.endAddr = 0) := by
  simp [Rule.matched]

theorem addrDecode_concat (rules : List (Rule A)) (r : Rule A) (addr : BitVec A) :
    addrDecode (W := W) (rules ++ [r]) addr
      = if r.matched false addr then ⟨r.idx.setWidth W, true, false⟩
        else addrDecode rules addr := by
  simp [addrDecode, addrDecodeDync]

/-- No rule matches: a decode error. -/
theorem addrDecode_of_unmatched {rules : List (Rule A)} {addr : BitVec A}
    (h : ∀ r ∈ rules, r.matched false addr = false) :
    addrDecode (W := W) rules addr = ⟨0, false, true⟩ := by
  induction rules using List.reverseRecOn with
  | nil => rfl
  | append_singleton rules r ih =>
      have hr := h r (List.mem_append_right _ (List.mem_singleton.mpr rfl))
      rw [addrDecode_concat, hr, if_neg Bool.false_ne_true]
      exact ih fun r hr => h r (List.mem_append_left _ hr)

/-- The rules that match agree on the index, and there is one. -/
theorem addrDecode_of_matched {rules : List (Rule A)} {addr : BitVec A} {i : BitVec 32}
    (hsome : ∃ r ∈ rules, r.matched false addr = true)
    (hidx : ∀ r ∈ rules, r.matched false addr = true → r.idx = i) :
    addrDecode (W := W) rules addr = ⟨i.setWidth W, true, false⟩ := by
  induction rules using List.reverseRecOn with
  | nil =>
      rcases hsome with ⟨r, hr, _⟩
      exact absurd hr List.not_mem_nil
  | append_singleton rules r ih =>
      rw [addrDecode_concat]
      by_cases hr : r.matched false addr = true
      · -- the last rule overwrites whatever was decoded before
        rw [if_pos hr, hidx r (List.mem_append_right _ (List.mem_singleton.mpr rfl)) hr]
      · rw [if_neg hr]
        refine ih ?_ fun r hr => hidx r (List.mem_append_left _ hr)
        -- the rule that matches is an earlier one
        rcases hsome with ⟨r', hmem, hr'⟩
        rcases List.mem_append.mp hmem with hmem | hmem
        · exact ⟨r', hmem, hr'⟩
        · rw [List.mem_singleton.mp hmem] at hr'
          exact absurd hr' hr

/-- What is decoded comes from a rule that matches. -/
theorem matched_of_decoded {rules : List (Rule A)} {addr : BitVec A}
    (h : (addrDecode (W := W) rules addr).decErrorO = false) :
    ∃ r ∈ rules, r.matched false addr = true ∧
      addrDecode (W := W) rules addr = ⟨r.idx.setWidth W, true, false⟩ := by
  induction rules using List.reverseRecOn with
  | nil =>
      have hhigh : true = false := h
      cases hhigh
  | append_singleton rules r ih =>
      rw [addrDecode_concat] at h ⊢
      by_cases hr : r.matched false addr = true
      · -- the last rule that matches is the one decoded
        rw [if_pos hr]
        exact ⟨r, List.mem_append_right _ (List.mem_singleton.mpr rfl), hr, rfl⟩
      · rw [if_neg hr] at h ⊢
        rcases ih h with ⟨r', hmem, hr', hdecoded⟩
        exact ⟨r', List.mem_append_left _ hmem, hr', hdecoded⟩

end SocRtl.Bus
