import Mathlib
import SocRtl.Lib.Clocked
import SocRtl.Lib.RoundRobin

/-!
# SocRtl.Xbar.RrArbTree — the arbiter `rr_arb_tree` of `common_cells`

A tree of two-way decisions hands up one of the requests and hands the grant
down to it. A pointer says which request has priority; at every grant it jumps
to the next request. While a request is handed up and not granted, the vector of
requests is locked, so that the decision stays.

The parameters are those of the multiplexers of the crossbar: `LockIn`,
`AxiVldRdy` and `FairArb` on, `ExtPrio` off, no flush. With one input the source is
wires, and `wires_of_one` says so of the tree.

* `picks`: the request handed up is one of the requests, with its data, and the
  grant goes to it and to nobody else.
* `picked_stays`: a decision that is not granted stays.
* `asserts_of_run`: the assertions of the module hold along every run.
* `granted_of_waiting`: who keeps requesting is granted one of any `n + 1` grants.
-/

namespace SocRtl.Xbar

universe u

/-! ## Model -/

/-- `NumLevels`. -/
def numLevels (n : ℕ) : ℕ := Nat.clog 2 n

section Tree

variable (n : ℕ) (v : ℕ → Bool)

/-- `req_nodes` of the arbiter and `sel_nodes` of `lzc`: node `l` of the level
`h` levels above the one that the inputs `v` feed. -/
def orNode : ℕ → ℕ → Bool
  | 0, l => if 2 * l + 1 < n then v (2 * l) || v (2 * l + 1)
      else if 2 * l + 1 = n then v (2 * l) else false
  | h + 1, l => orNode h (2 * l) || orNode h (2 * l + 1)

/-- `index_nodes` of `lzc`, which counts trailing zeros. -/
def lzcNode : ℕ → ℕ → ℕ
  | 0, l => if 2 * l + 1 < n then (if v (2 * l) then 2 * l else 2 * l + 1)
      else if 2 * l + 1 = n then 2 * l else 0
  | h + 1, l => if orNode n v h (2 * l) then lzcNode h (2 * l) else lzcNode h (2 * l + 1)

variable (rr : ℕ)

/-- `sel`: whether the right child of the node is selected. -/
def sel : ℕ → ℕ → Bool
  | 0, l => !v (2 * l) || (v (2 * l + 1) && rr.testBit 0)
  | h + 1, l => !orNode n v h (2 * l) || (orNode n v h (2 * l + 1) && rr.testBit (h + 1))

/-- `index_nodes`. -/
def indexNode : ℕ → ℕ → ℕ
  | 0, l => if 2 * l + 1 < n then (if sel n v rr 0 l then 1 else 0) else 0
  | h + 1, l => if sel n v rr (h + 1) l then 2 ^ (h + 1) + indexNode h (2 * l + 1)
      else indexNode h (2 * l)

/-- `data_nodes`, with `z` for `DataType'('0)`. -/
def dataNode {α : Type u} (z : α) (data : ℕ → α) : ℕ → ℕ → α
  | 0, l => if 2 * l + 1 < n then (if sel n v rr 0 l then data (2 * l + 1) else data (2 * l))
      else if 2 * l + 1 = n then data (2 * l) else z
  | h + 1, l => if sel n v rr (h + 1) l then dataNode z data h (2 * l + 1)
      else dataNode z data h (2 * l)

/-- `gnt_o[p]`, driven by the nodes below node `l` when `gnt_nodes` is `g` there. -/
def gntBelow : ℕ → ℕ → Bool → ℕ → Bool
  | 0, l, g, p => if 2 * l + 1 < n then
        (p == 2 * l && g && !sel n v rr 0 l) || (p == 2 * l + 1 && g && sel n v rr 0 l)
      else if 2 * l + 1 = n then p == 2 * l && g else false
  | h + 1, l, g, p => gntBelow h (2 * l) (g && !sel n v rr (h + 1) l) p
      || gntBelow h (2 * l + 1) (g && sel n v rr (h + 1) l) p

end Tree

/-- The registers. -/
structure RrArb (n : ℕ) where
  rrQ : ℕ
  lockQ : Bool
  reqQ : Fin n → Bool

/-- A vector with an entry for each input, as the tree reads it. -/
def wires {n : ℕ} (v : Fin n → Bool) (p : ℕ) : Bool := if h : p < n then v ⟨p, h⟩ else false

/-- What a clock edge samples. -/
structure RrArbIn (n : ℕ) where
  reqI : Fin n → Bool
  gntI : Bool

namespace RrArb

variable {n : ℕ}

def reset : RrArb n := ⟨0, false, fun _ => false⟩

def reqD (s : RrArb n) (reqI : Fin n → Bool) : Fin n → Bool := if s.lockQ then s.reqQ else reqI

/-- `req_nodes[0]`. -/
def reqO (s : RrArb n) (reqI : Fin n → Bool) : Bool :=
  orNode n (wires (s.reqD reqI)) (numLevels n - 1) 0

/-- `index_nodes[0]`. It is an input's number if there is a request, and nobody
reads it if there is none. -/
def idxO [NeZero n] (s : RrArb n) (reqI : Fin n → Bool) : Fin n :=
  Fin.ofNat n (indexNode n (wires (s.reqD reqI)) s.rrQ (numLevels n - 1) 0)

/-- `data_nodes[0]`. -/
def dataO {α : Type u} (z : α) (s : RrArb n) (reqI : Fin n → Bool) (data : Fin n → α) : α :=
  dataNode n (wires (s.reqD reqI)) s.rrQ z (fun p => if h : p < n then data ⟨p, h⟩ else z)
    (numLevels n - 1) 0

def gntO (s : RrArb n) (i : RrArbIn n) (p : Fin n) : Bool :=
  gntBelow n (wires (s.reqD i.reqI)) s.rrQ (numLevels n - 1) 0 i.gntI p

def upperMask (s : RrArb n) (reqI : Fin n → Bool) (p : ℕ) : Bool :=
  decide (s.rrQ < p) && wires (s.reqD reqI) p

def lowerMask (s : RrArb n) (reqI : Fin n → Bool) (p : ℕ) : Bool :=
  decide (p ≤ s.rrQ) && wires (s.reqD reqI) p

def nextIdx (s : RrArb n) (reqI : Fin n → Bool) : ℕ :=
  if orNode n (s.upperMask reqI) (numLevels n - 1) 0
  then lzcNode n (s.upperMask reqI) (numLevels n - 1) 0
  else lzcNode n (s.lowerMask reqI) (numLevels n - 1) 0

/-- One clock edge. -/
def step (s : RrArb n) (i : RrArbIn n) : RrArb n where
  rrQ := if i.gntI && s.reqO i.reqI then s.nextIdx i.reqI else s.rrQ
  lockQ := s.reqO i.reqI && !i.gntI
  reqQ := s.reqD i.reqI

end RrArb

/-! ## The tree -/

section Tree

variable {n : ℕ} {v : ℕ → Bool} {rr : ℕ}

/-- The inputs below a node are those below its two children. -/
theorem div_child (p h l : ℕ) :
    p / 2 ^ (h + 2) = l ↔ p / 2 ^ (h + 1) = 2 * l ∨ p / 2 ^ (h + 1) = 2 * l + 1 := by
  rw [Nat.pow_succ 2 (h + 1), ← Nat.div_div_eq_div_mul]
  omega

theorem orNode_iff (h l : ℕ) :
    orNode n v h l = true ↔ ∃ p < n, p / 2 ^ (h + 1) = l ∧ v p = true := by
  induction h generalizing l with
  | zero =>
      have hleaf : ∀ p, p / 2 ^ (0 + 1) = l ↔ p = 2 * l ∨ p = 2 * l + 1 := by
        intro p
        omega
      simp only [hleaf]
      unfold orNode
      split_ifs with hboth hlast
      · rw [Bool.or_eq_true]
        constructor
        · rintro (hv | hv)
          · exact ⟨2 * l, by omega, .inl rfl, hv⟩
          · exact ⟨2 * l + 1, hboth, .inr rfl, hv⟩
        · rintro ⟨p, -, rfl | rfl, hv⟩
          · exact .inl hv
          · exact .inr hv
      · constructor
        · intro hv
          exact ⟨2 * l, by omega, .inl rfl, hv⟩
        · rintro ⟨p, hp, rfl | rfl, hv⟩
          · exact hv
          · omega
      · constructor
        · intro hv
          cases hv
        · rintro ⟨p, hp, rfl | rfl, -⟩ <;> omega
  | succ h ih =>
      rw [orNode, Bool.or_eq_true, ih, ih]
      simp only [div_child]
      constructor
      · rintro (⟨p, hp, hl, hv⟩ | ⟨p, hp, hl, hv⟩)
        · exact ⟨p, hp, .inl hl, hv⟩
        · exact ⟨p, hp, .inr hl, hv⟩
      · rintro ⟨p, hp, hl | hl, hv⟩
        · exact .inl ⟨p, hp, hl, hv⟩
        · exact .inr ⟨p, hp, hl, hv⟩

/-- `lzc` finds the first input that is set. -/
theorem lzcNode_spec (h l : ℕ) (hset : orNode n v h l = true) :
    lzcNode n v h l < n ∧ lzcNode n v h l / 2 ^ (h + 1) = l ∧ v (lzcNode n v h l) = true ∧
      ∀ p < n, p / 2 ^ (h + 1) = l → v p = true → lzcNode n v h l ≤ p := by
  induction h generalizing l with
  | zero =>
      have hleaf : ∀ p, p / 2 ^ (0 + 1) = l ↔ p = 2 * l ∨ p = 2 * l + 1 := by
        intro p
        omega
      simp only [hleaf]
      unfold orNode at hset
      unfold lzcNode
      split_ifs at hset ⊢ with hboth hleft hlast
      · exact ⟨by omega, .inl rfl, hleft, fun p _ hp _ => by omega⟩
      · -- the left input is silent, so the node was set by the right one
        have hright : v (2 * l + 1) = true := by simpa [hleft] using hset
        refine ⟨hboth, .inr rfl, hright, ?_⟩
        rintro p - (rfl | rfl) hv
        · exact absurd hv hleft
        · exact Nat.le_refl _
      · exact ⟨by omega, .inl rfl, hset, fun p _ hp _ => by omega⟩
  | succ h ih =>
      simp only [div_child]
      rw [lzcNode]
      -- the left child goes first whenever anything below it is set
      by_cases hleft : orNode n v h (2 * l) = true
      · obtain ⟨hlt, hdiv, hv, hfirst⟩ := ih _ hleft
        rw [if_pos hleft]
        refine ⟨hlt, .inl hdiv, hv, ?_⟩
        rintro p hp (hl | hl) hvp
        · exact hfirst p hp hl hvp
        · -- whatever is below the right child comes later
          have hlater : lzcNode n v h (2 * l) / 2 ^ (h + 1) < p / 2 ^ (h + 1) := by omega
          exact (Nat.lt_of_div_lt_div hlater).le
      · have hright : orNode n v h (2 * l + 1) = true := by
          simpa [orNode, hleft] using hset
        obtain ⟨hlt, hdiv, hv, hfirst⟩ := ih _ hright
        rw [if_neg hleft]
        refine ⟨hlt, .inr hdiv, hv, ?_⟩
        rintro p hp (hl | hl) hvp
        · exact absurd ((orNode_iff h _).2 ⟨p, hp, hl, hvp⟩) hleft
        · exact hfirst p hp hl hvp

theorem gntBelow_false (h l p : ℕ) : gntBelow n v rr h l false p = false := by
  induction h generalizing l with
  | zero => simp [gntBelow]
  | succ h ih => simp [gntBelow, ih]

/-- At most one input below a node is granted. -/
theorem gntBelow_unique {h l : ℕ} {g : Bool} {p q : ℕ} (hp : gntBelow n v rr h l g p = true)
    (hq : gntBelow n v rr h l g q = true) : p = q := by
  induction h generalizing l g with
  | zero =>
      unfold gntBelow at hp hq
      split_ifs at hp hq
      · cases hsel : sel n v rr 0 l <;> simp_all
      · simp_all
  | succ h ih =>
      unfold gntBelow at hp hq
      -- the grant goes down on one side only
      cases hsel : sel n v rr (h + 1) l with
      | true =>
          simp only [hsel, Bool.not_true, Bool.and_false, gntBelow_false, Bool.false_or] at hp hq
          exact ih hp hq
      | false =>
          simp only [hsel, Bool.not_false, Bool.and_false, gntBelow_false, Bool.or_false] at hp hq
          exact ih hp hq

/-- What a node with a request hands up and down: input number `w`. -/
structure Picked (n : ℕ) (v : ℕ → Bool) (rr h l w : ℕ) : Prop where
  lt : w < n
  below : w / 2 ^ (h + 1) = l
  index : indexNode n v rr h l = w % 2 ^ (h + 1)
  set : v w = true
  data : ∀ {α : Type u} (z : α) (d : ℕ → α), dataNode n v rr z d h l = d w
  gnt : ∀ g p, gntBelow n v rr h l g p = (p == w && g)
  /-- The input with priority wins if it asks. -/
  priority : rr < n → rr / 2 ^ (h + 1) = l → v rr = true → w = rr

/-- The bit of the pointer that a node looks at. -/
theorem testBit_of_below {h l : ℕ} (hbelow : rr / 2 ^ h = l) :
    rr.testBit h = decide (l % 2 = 1) := by
  rw [Nat.testBit_eq_decide_div_mod_eq, hbelow]

theorem picked_leaf (l : ℕ) (hset : orNode n v 0 l = true) :
    ∃ w, Picked.{u} n v rr 0 l w := by
  by_cases hboth : 2 * l + 1 < n
  · have hor : v (2 * l) = true ∨ v (2 * l + 1) = true := by simpa [orNode, hboth] using hset
    -- both inputs of the leaf exist, and `sel` chooses between them
    cases hsel : sel n v rr 0 l with
    | true =>
        have hright : v (2 * l + 1) = true := by
          simp only [sel, Bool.or_eq_true, Bool.not_eq_true', Bool.and_eq_true] at hsel
          rcases hsel with hleft | hright
          · simpa [hleft] using hor
          · exact hright.1
        refine ⟨2 * l + 1, hboth, by omega, by simp [indexNode, hboth, hsel], hright,
          fun z d => by simp [dataNode, hboth, hsel],
          fun g p => by simp [gntBelow, hboth, hsel], ?_⟩
        intro hrr hbelow hv
        rcases (by omega : rr = 2 * l ∨ rr = 2 * l + 1) with heq | heq
        · -- an even pointer does not select the right input over the left one
          rw [heq] at hv
          simp [sel, hv, heq] at hsel
        · exact heq.symm
    | false =>
        have hnot := hsel
        simp only [sel, Bool.or_eq_false_iff, Bool.not_eq_false', Bool.and_eq_false_iff] at hnot
        refine ⟨2 * l, by omega, by omega, by simp [indexNode, hboth, hsel], hnot.1,
          fun z d => by simp [dataNode, hboth, hsel],
          fun g p => by simp [gntBelow, hboth, hsel], ?_⟩
        intro hrr hbelow hv
        rcases (by omega : rr = 2 * l ∨ rr = 2 * l + 1) with heq | heq
        · exact heq.symm
        · rcases hnot.2 with hright | hbit
          · rw [heq, hright] at hv
            cases hv
          · simp [heq] at hbit
  · -- the last leaf of an odd number of inputs has one input
    by_cases hlast : 2 * l + 1 = n
    · have hleft : v (2 * l) = true := by simpa [orNode, hboth, hlast] using hset
      refine ⟨2 * l, by omega, by omega, by simp [indexNode, hboth], hleft,
        fun z d => by simp [dataNode, hlast], fun g p => by simp [gntBelow, hlast], ?_⟩
      intro hrr hbelow _
      omega
    · simp [orNode, hboth, hlast] at hset

/-- One request below a node is handed up through all of the levels. -/
theorem picked (h l : ℕ) (hset : orNode n v h l = true) : ∃ w, Picked.{u} n v rr h l w := by
  induction h generalizing l with
  | zero => exact picked_leaf l hset
  | succ h ih =>
      have hor : orNode n v h (2 * l) = true ∨ orNode n v h (2 * l + 1) = true := by
        simpa [orNode] using hset
      -- the node takes everything from the child it selects
      cases hsel : sel n v rr (h + 1) l with
      | true =>
          have hright : orNode n v h (2 * l + 1) = true := by
            simp only [sel, Bool.or_eq_true, Bool.not_eq_true', Bool.and_eq_true] at hsel
            rcases hsel with hleft | hright
            · simpa [hleft] using hor
            · exact hright.1
          obtain ⟨w, hw⟩ := ih _ hright
          have hbelow : w / 2 ^ (h + 2) = l := (div_child w h l).2 (.inr hw.below)
          refine ⟨w, hw.lt, hbelow, ?_, hw.set, fun z d => ?_, fun g p => ?_, ?_⟩
          · rw [indexNode, if_pos hsel, hw.index, Nat.pow_succ 2 (h + 1), Nat.mod_mul, hw.below,
              show (2 * l + 1) % 2 = 1 by omega, Nat.mul_one, Nat.add_comm]
          · rw [dataNode, if_pos hsel, hw.data]
          · rw [gntBelow, hsel, Bool.not_true, Bool.and_false, Bool.and_true, gntBelow_false,
              hw.gnt, Bool.false_or]
          · intro hrr hrbelow hv
            rcases (div_child rr h l).1 hrbelow with hl | hl
            · -- the pointer is below the left child: its bit is clear
              have hleft : orNode n v h (2 * l) = true := (orNode_iff h _).2 ⟨rr, hrr, hl, hv⟩
              simp [sel, hleft, testBit_of_below hl] at hsel
            · exact hw.priority hrr hl hv
      | false =>
          -- not selected: the left child asks, and the right one does not or is not favoured
          have hnot := hsel
          simp only [sel, Bool.or_eq_false_iff, Bool.not_eq_false', Bool.and_eq_false_iff] at hnot
          obtain ⟨w, hw⟩ := ih _ hnot.1
          have hbelow : w / 2 ^ (h + 2) = l := (div_child w h l).2 (.inl hw.below)
          refine ⟨w, hw.lt, hbelow, ?_, hw.set, fun z d => ?_, fun g p => ?_, ?_⟩
          · rw [indexNode, if_neg (by simp [hsel]), hw.index, Nat.pow_succ 2 (h + 1), Nat.mod_mul,
              hw.below, Nat.mul_mod_right, Nat.mul_zero]
            rfl
          · rw [dataNode, if_neg (by simp [hsel]), hw.data]
          · rw [gntBelow, hsel, Bool.not_false, Bool.and_true, Bool.and_false, gntBelow_false,
              hw.gnt, Bool.or_false]
          · intro hrr hrbelow hv
            rcases (div_child rr h l).1 hrbelow with hl | hl
            · exact hw.priority hrr hl hv
            · -- the pointer is below the right child, which asks: it is selected
              have hright : orNode n v h (2 * l + 1) = true :=
                (orNode_iff h _).2 ⟨rr, hrr, hl, hv⟩
              rcases hnot.2 with hno | hbit
              · rw [hright] at hno
                cases hno
              · simp [testBit_of_below hl] at hbit

end Tree

/-! ## One edge -/

namespace RrArb

variable {n : ℕ}

/-- All inputs are below the root. -/
theorem below_root {p : ℕ} (hp : p < n) : p / 2 ^ (numLevels n - 1 + 1) = 0 := by
  have hle : n ≤ 2 ^ numLevels n := Nat.le_pow_clog (by omega) n
  have hlev : 2 ^ numLevels n ≤ 2 ^ (numLevels n - 1 + 1) :=
    Nat.pow_le_pow_right (by omega) (by omega)
  exact Nat.div_eq_of_lt (by omega)

theorem wires_val (v : Fin n → Bool) (p : Fin n) : wires v p = v p := by
  simp [wires]

/-- A request is handed up if there is one. -/
theorem reqO_iff (s : RrArb n) (reqI : Fin n → Bool) :
    s.reqO reqI = true ↔ ∃ p, s.reqD reqI p = true := by
  rw [reqO, orNode_iff]
  constructor
  · rintro ⟨p, hp, -, hv⟩
    exact ⟨⟨p, hp⟩, by simpa [wires, hp] using hv⟩
  · rintro ⟨p, hv⟩
    exact ⟨p, p.isLt, below_root p.isLt, by rw [wires_val, hv]⟩

/-- The request handed up is one of the requests, with its data, and the grant
goes to it and to nobody else. -/
theorem picks [NeZero n] (s : RrArb n) {reqI : Fin n → Bool} (hreq : s.reqO reqI = true) :
    s.reqD reqI (s.idxO reqI) = true ∧
      (∀ {α : Type u} (z : α) (data : Fin n → α), s.dataO z reqI data = data (s.idxO reqI)) ∧
      (∀ g p, s.gntO ⟨reqI, g⟩ p = (decide (p = s.idxO reqI) && g)) ∧
      ∀ p : Fin n, s.rrQ = p → s.reqD reqI p = true → s.idxO reqI = p := by
  obtain ⟨w, hw⟩ : ∃ w, Picked.{u} n (wires (s.reqD reqI)) s.rrQ _ _ w := picked _ _ hreq
  -- at the root the whole index has been put together
  have hindex : indexNode n (wires (s.reqD reqI)) s.rrQ (numLevels n - 1) 0 = w := by
    rw [hw.index, Nat.mod_eq_of_lt]
    rcases Nat.div_eq_zero_iff.1 hw.below with hzero | hlt
    · exact absurd hzero (Nat.pow_pos (by omega)).ne'
    · exact hlt
  have hidx : s.idxO reqI = ⟨w, hw.lt⟩ := by
    rw [idxO, hindex]
    exact Fin.ext (Nat.mod_eq_of_lt hw.lt)
  have hset := hw.set
  refine ⟨?_, fun z data => ?_, fun g p => ?_, fun p hrr hv => ?_⟩
  · rw [hidx, ← wires_val (s.reqD reqI)]
    exact hset
  · rw [dataO, hw.data, hidx, dif_pos hw.lt]
  · rw [gntO, hw.gnt, hidx]
    congr 1
    rw [Bool.eq_iff_iff, beq_iff_eq, decide_eq_true_iff, Fin.ext_iff]
  · have hprio := hw.priority (hrr ▸ p.isLt) (below_root (hrr ▸ p.isLt))
      (by rw [hrr, wires_val, hv])
    rw [hidx]
    exact Fin.ext (hprio.trans hrr)

/-- A decision that is not granted stays, whatever is requested next. -/
theorem picked_stays [NeZero n] (s : RrArb n) {reqI : Fin n → Bool} (hreq : s.reqO reqI = true)
    (reqI' : Fin n → Bool) :
    (s.step ⟨reqI, false⟩).reqD reqI' = s.reqD reqI ∧
      (s.step ⟨reqI, false⟩).reqO reqI' = true ∧
      (s.step ⟨reqI, false⟩).idxO reqI' = s.idxO reqI := by
  -- an ungranted request locks the requests, and the pointer only moves at a grant
  have hlock : (s.step ⟨reqI, false⟩).reqD reqI' = s.reqD reqI := by
    simp [reqD, step, hreq]
  have hrr : (s.step ⟨reqI, false⟩).rrQ = s.rrQ := by simp [step]
  refine ⟨hlock, ?_, ?_⟩
  · rw [reqO, hlock]
    exact hreq
  · rw [idxO, hlock, hrr, idxO]

/-- At a grant the pointer jumps to the next request. -/
theorem nextIdx_spec (s : RrArb n) {reqI : Fin n → Bool} (hreq : s.reqO reqI = true)
    (hrr : s.rrQ < n) :
    RoundRobin.IsNext n (fun p => wires (s.reqD reqI) p = true) s.rrQ (s.nextIdx reqI) := by
  unfold nextIdx
  by_cases hupper : orNode n (s.upperMask reqI) (numLevels n - 1) 0 = true
  · -- the first request behind the pointer
    obtain ⟨hlt, -, hset, hfirst⟩ := lzcNode_spec _ _ hupper
    rw [if_pos hupper]
    simp only [upperMask, Bool.and_eq_true, decide_eq_true_iff] at hset hfirst
    refine ⟨hlt, hset.2, fun p hp hv => ?_⟩
    unfold RoundRobin.after
    rw [if_pos hset.1]
    split
    · rename_i hgt
      have hle := hfirst p hp (below_root hp) ⟨hgt, hv⟩
      omega
    · omega
  · -- none is behind it: the first one up to the pointer
    have hnone : ∀ p < n, wires (s.reqD reqI) p = true → p ≤ s.rrQ := by
      intro p hp hv
      by_contra hgt
      apply hupper
      rw [orNode_iff]
      exact ⟨p, hp, below_root hp, by simp [upperMask, hv]; omega⟩
    have hlower : orNode n (s.lowerMask reqI) (numLevels n - 1) 0 = true := by
      obtain ⟨p, hp, -, hv⟩ := (orNode_iff _ _).1 hreq
      rw [orNode_iff]
      exact ⟨p, hp, below_root hp, by simp [lowerMask, hv, hnone p hp hv]⟩
    obtain ⟨hlt, -, hset, hfirst⟩ := lzcNode_spec _ _ hlower
    rw [if_neg hupper]
    simp only [lowerMask, Bool.and_eq_true, decide_eq_true_iff] at hset hfirst
    refine ⟨hlt, hset.2, fun p hp hv => ?_⟩
    have hle := hfirst p hp (below_root hp) ⟨hnone p hp hv, hv⟩
    have hpr := hnone p hp hv
    unfold RoundRobin.after
    rw [if_neg (by omega), if_neg (by omega)]
    omega

/-! ## The assertions of the module -/

/-- The assumption `lock_req`: a request that is locked is not withdrawn. -/
def LockReq (s : RrArb n) (i : RrArbIn n) : Prop :=
  s.lockQ = true → ∀ p, s.reqQ p = true → i.reqI p = true

instance (s : RrArb n) (i : RrArbIn n) : Decidable (s.LockReq i) :=
  inferInstanceAs (Decidable (_ → _))

/-- The assertions, under their names, and what they leave to the reader: while
a request is handed up, the grant goes to an input that requests, and the word
handed up is that of the same input. Without a request a grant may go nowhere in
particular, since `AxiVldRdy` lets it fall through to an input that is silent. -/
structure Asserts [NeZero n] (α : Type u) (s : RrArb n) (i : RrArbIn n) : Prop where
  hot_one : ∀ p q, s.gntO i p = true → s.gntO i q = true → p = q
  gnt0 : ∀ p, s.gntO i p = true → i.gntI = true
  gnt1 : s.reqO i.reqI = true → i.gntI = true → ∃ p, s.gntO i p = true
  gnt_idx : s.reqO i.reqI = true → i.gntI = true → s.gntO i (s.idxO i.reqI) = true
  req0 : (∃ p, i.reqI p = true) → s.reqO i.reqI = true
  req1 : s.reqO i.reqI = true → ∃ p, i.reqI p = true
  lock : s.reqO i.reqI = true → i.gntI = false →
    ∀ reqI', (s.step i).idxO reqI' = s.idxO i.reqI
  idx_req : s.reqO i.reqI = true → i.reqI (s.idxO i.reqI) = true
  gnt_req : s.reqO i.reqI = true → ∀ p, s.gntO i p = true → i.reqI p = true
  data_idx : s.reqO i.reqI = true →
    ∀ (z : α) (data : Fin n → α), s.dataO z i.reqI data = data (s.idxO i.reqI)

/-- Something is requested when the requests are locked. -/
def LockedSome (s : RrArb n) : Prop := s.lockQ = true → ∃ p, s.reqQ p = true

theorem lockedSome_step (s : RrArb n) (i : RrArbIn n) : (s.step i).LockedSome := by
  intro hlock
  simp only [step, Bool.and_eq_true] at hlock
  exact (s.reqO_iff i.reqI).1 hlock.1

/-- Under the assumption the requests that are looked at are requests still. -/
theorem reqI_of_reqD {s : RrArb n} {i : RrArbIn n} (hreq : s.LockReq i) {p : Fin n}
    (hp : s.reqD i.reqI p = true) : i.reqI p = true := by
  unfold reqD at hp
  split at hp
  · rename_i hlock
    exact hreq hlock p hp
  · exact hp

theorem reqO_of_reqI {s : RrArb n} {i : RrArbIn n} (hsome : s.LockedSome) {p : Fin n}
    (hp : i.reqI p = true) : s.reqO i.reqI = true := by
  rw [reqO_iff]
  unfold reqD
  by_cases hlock : s.lockQ = true
  · obtain ⟨q, hq⟩ := hsome hlock
    exact ⟨q, by rw [if_pos hlock, hq]⟩
  · exact ⟨p, by rw [if_neg hlock]; exact hp⟩

theorem asserts_of_lockReq [NeZero n] (α : Type u) {s : RrArb n} {i : RrArbIn n}
    (hsome : s.LockedSome) (hreq : s.LockReq i) : s.Asserts α i := by
  rcases i with ⟨reqI, gntI⟩
  have hidx : s.reqO reqI = true → gntI = true → s.gntO ⟨reqI, gntI⟩ (s.idxO reqI) = true := by
    intro ho hg
    rw [(s.picks.{0} ho).2.2.1, hg]
    simp
  have hreqs : s.reqO reqI = true → reqI (s.idxO reqI) = true :=
    fun ho => reqI_of_reqD hreq (s.picks.{0} ho).1
  refine ⟨fun p q hp hq => Fin.ext (gntBelow_unique hp hq), fun p hp => ?_,
    fun ho hg => ⟨_, hidx ho hg⟩, hidx, fun ⟨_, hp⟩ => reqO_of_reqI hsome hp,
    fun ho => ⟨_, hreqs ho⟩, fun ho hg reqI' => ?_, hreqs, fun ho p hp => ?_,
    fun ho z data => (s.picks ho).2.1 z data⟩
  · -- a grant comes from above
    cases hg : gntI with
    | true => rfl
    | false =>
        simp only [gntO, hg, gntBelow_false] at hp
        cases hp
  · have hlow : gntI = false := hg
    rw [hlow]
    exact (s.picked_stays ho reqI').2.2
  · -- the input granted is the one that is handed up
    rw [(s.picks.{0} ho).2.2.1, Bool.and_eq_true, decide_eq_true_iff] at hp
    rw [hp.1]
    exact hreqs ho

/-- The assertions hold at every edge of every run that meets the assumption. -/
theorem asserts_of_run (n : ℕ) [NeZero n] (α : Type u) (ins : List (RrArbIn n))
    (hreq : Along step LockReq (reset : RrArb n) ins) :
    Along step (Asserts α) (reset : RrArb n) ins := by
  have hsome : Along step (fun s (_ : RrArbIn n) => s.LockedSome) reset ins :=
    along_of_preserved step LockedSome (fun s i _ => lockedSome_step s i)
      (fun hlock => by cases hlock) ins
  exact along_mono step (fun s i h => asserts_of_lockReq α h.1 h.2)
    ((along_and step).2 ⟨hsome, hreq⟩)

/-- With one input the module is wires, and under the assumption so are these
registers. -/
theorem wires_of_one {α : Type u} {s : RrArb 1} {i : RrArbIn 1} (hsome : s.LockedSome)
    (hreq : s.LockReq i) (z : α) (data : Fin 1 → α) :
    s.reqO i.reqI = i.reqI 0 ∧ s.gntO i 0 = i.gntI ∧ s.dataO z i.reqI data = data 0 := by
  refine ⟨?_, ?_, ?_⟩
  · rw [Bool.eq_iff_iff, reqO_iff]
    constructor
    · rintro ⟨p, hp⟩
      rw [← Subsingleton.elim p 0]
      exact reqI_of_reqD hreq hp
    · intro hp
      exact (s.reqO_iff i.reqI).1 (reqO_of_reqI hsome hp)
  · simp [gntO, numLevels, gntBelow]
  · simp [dataO, numLevels, dataNode]

/-! ## Who keeps requesting is granted -/

/-- The input granted at an edge. -/
def granted [NeZero n] (s : RrArb n) (i : RrArbIn n) : List (Fin n) :=
  if i.gntI && s.reqO i.reqI then [s.idxO i.reqI] else []

/-- The requests that have been locked leave input `p` out. -/
def Overlooks (s : RrArb n) (p : Fin n) : Prop := s.lockQ = true ∧ s.reqQ p = false

instance (s : RrArb n) (p : Fin n) : Decidable (s.Overlooks p) :=
  inferInstanceAs (Decidable (_ ∧ _))

/-- How many grants to others come before the one to input `p` at most. -/
def waits (s : RrArb n) (p : Fin n) : ℕ :=
  if s.Overlooks p then n else RoundRobin.ahead n s.rrQ p

theorem rrQ_lt_step {s : RrArb n} {i : RrArbIn n} (hrr : s.rrQ < n) : (s.step i).rrQ < n := by
  simp only [step]
  split
  · rename_i hgrant
    rw [Bool.and_eq_true] at hgrant
    exact (s.nextIdx_spec hgrant.2 hrr).lt
  · exact hrr

/-- Every grant to another input is paid for out of the grants still to wait. -/
theorem waits_step [NeZero n] {s : RrArb n} {i : RrArbIn n} {p : Fin n} (hrr : s.rrQ < n)
    (hreq : i.reqI p = true) (hnot : s.granted i ≠ [p]) :
    (s.granted i).length + (s.step i).waits p ≤ s.waits p := by
  rcases i with ⟨reqI, gntI⟩
  have hlt := p.isLt
  by_cases hgrant : (gntI && s.reqO reqI) = true
  · -- a grant: afterwards nothing is locked
    obtain ⟨hg, ho⟩ := Bool.and_eq_true_iff.1 hgrant
    have hclear : ¬ (s.step ⟨reqI, gntI⟩).Overlooks p := by simp [Overlooks, step, hg]
    have hnext : (s.step ⟨reqI, gntI⟩).rrQ = s.nextIdx reqI := by simp [step, hgrant]
    have hspec := s.nextIdx_spec ho hrr
    have hone : (s.granted ⟨reqI, gntI⟩).length = 1 := by simp [granted, hgrant]
    rw [hone, waits, if_neg hclear, hnext, waits]
    by_cases hover : s.Overlooks p
    · -- the pointer may have jumped over `p`
      have hahead := RoundRobin.ahead_lt hspec.lt hlt
      rw [if_pos hover]
      omega
    · -- the tree looks at `p`, so the pointer cannot jump past it
      have hd : s.reqD reqI p = true := by
        unfold reqD
        by_cases hlock : s.lockQ = true
        · rw [if_pos hlock]
          cases hq : s.reqQ p with
          | true => rfl
          | false => exact absurd ⟨hlock, hq⟩ hover
        · rw [if_neg hlock]
          exact hreq
      -- `p` itself was not granted, so the pointer did not stand on it
      have hne : (p : ℕ) ≠ s.rrQ := by
        intro heq
        apply hnot
        rw [granted, if_pos hgrant, (s.picks.{0} ho).2.2.2 p heq.symm hd]
      have hahead := RoundRobin.ahead_next hspec hrr hlt (by rw [wires_val, hd]) hne
      rw [if_neg hover]
      omega
  · -- no grant: the pointer stays
    have hnone : s.granted ⟨reqI, gntI⟩ = [] := by simp [granted, hgrant]
    have hstay : (s.step ⟨reqI, gntI⟩).rrQ = s.rrQ := by simp [step, hgrant]
    have hreqQ : (s.step ⟨reqI, gntI⟩).reqQ = s.reqD reqI := rfl
    rw [hnone, List.length_nil, Nat.zero_add, waits, waits, hstay]
    by_cases hover : s.Overlooks p
    · have hahead := RoundRobin.ahead_lt hrr hlt
      rw [if_pos hover]
      split <;> omega
    · have hover' : ¬ (s.step ⟨reqI, gntI⟩).Overlooks p := by
        rintro ⟨-, hq⟩
        rw [hreqQ, reqD] at hq
        by_cases hlock : s.lockQ = true
        · rw [if_pos hlock] at hq
          exact hover ⟨hlock, hq⟩
        · rw [if_neg hlock] at hq
          exact absurd (hreq.symm.trans hq) (by decide)
      rw [if_neg hover, if_neg hover']

theorem rrQ_lt_run [NeZero n] (ins : List (RrArbIn n)) : (run step (reset : RrArb n) ins).rrQ < n :=
  run_preserves (fun s : RrArb n => s.rrQ < n) (Nat.pos_of_ne_zero (NeZero.ne n))
    (fun _ _ h => rrQ_lt_step h) ins

/-- As long as an input that keeps requesting is not granted, the others are
granted no more often than it may have to wait. -/
theorem length_granted_le [NeZero n] {s : RrArb n} {ins : List (RrArbIn n)} {p : Fin n}
    (hrr : s.rrQ < n) (hreq : ∀ i ∈ ins, i.reqI p = true) (hnot : p ∉ events step granted s ins) :
    (events step granted s ins).length ≤ s.waits p := by
  induction ins generalizing s with
  | nil => simp
  | cons i ins ih =>
      rw [events_cons, List.mem_append, not_or] at hnot
      have hone := waits_step hrr (hreq i List.mem_cons_self) fun heq => hnot.1 (by simp [heq])
      have hrest := ih (rrQ_lt_step hrr) (fun j hj => hreq j (List.mem_cons_of_mem i hj)) hnot.2
      rw [events_cons, List.length_append]
      omega

/-- Whatever happened before and whatever the others do: an input that keeps
requesting is among any `n + 1` inputs granted one after the other. -/
theorem granted_of_waiting (n : ℕ) [NeZero n] (pre ins : List (RrArbIn n)) (p : Fin n)
    (hreq : ∀ i ∈ ins, i.reqI p = true)
    (hmany : n < (events step granted (run step (reset : RrArb n) pre) ins).length) :
    p ∈ events step granted (run step (reset : RrArb n) pre) ins := by
  by_contra hnot
  have hrr := rrQ_lt_run pre
  have hle := length_granted_le hrr hreq hnot
  have hwaits : (run step (reset : RrArb n) pre).waits p ≤ n := by
    have hahead := RoundRobin.ahead_lt hrr p.isLt
    unfold waits
    split <;> omega
  omega

/-- Three inputs: the first two start, the third joins when the first has been
locked, and every second cycle brings a grant. -/
def threeInputs : List (RrArbIn 3) :=
  [⟨fun p => decide (p.val < 2), false⟩, ⟨fun _ => true, true⟩, ⟨fun _ => true, false⟩,
    ⟨fun _ => true, true⟩, ⟨fun _ => true, true⟩, ⟨fun _ => true, true⟩]

theorem asserts_of_three : Along step (Asserts ℕ) (reset : RrArb 3) threeInputs :=
  asserts_of_run 3 ℕ threeInputs (by decide +kernel)

theorem third_is_granted :
    (2 : Fin 3) ∈ events step granted (run step (reset : RrArb 3) (threeInputs.take 1))
      (threeInputs.drop 1) :=
  granted_of_waiting 3 (threeInputs.take 1) (threeInputs.drop 1) 2 (by decide +kernel)
    (by decide +kernel)

end RrArb

end SocRtl.Xbar
