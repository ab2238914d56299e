import Mathlib.Data.Nat.Log
import SocRtl.Handshake
import SocRtl.Lib.Circular
import SocRtl.Lib.Clocked

/-!
# SocRtl.Fifo.FifoV3 — the `fifo_v3` of `common_cells`

A memory of `DEPTH` words, a read and a write pointer and a counter of the
words held. The depth need not be a power of two: the pointers are set back by
a comparison, and where the depth is a power of two the comparison never
holds and they wrap by their width (`nextPointer_eq`).

Seen from outside it is a queue of at most `DEPTH` words, with and without fall
through: `queue_step` for an edge, `fifo_v3_is_queue` for a run.
-/

namespace SocRtl.Fifo

open Handshake

universe u

/-! ## Model -/

/-- `FALL_THROUGH` and `DEPTH`, a positive `int unsigned`. -/
structure FifoV3Cfg where
  fallThrough : Bool
  depth : ℕ
  pos : 0 < depth
  bound : depth < 2 ^ 32

/-- `ADDR_DEPTH`. -/
def FifoV3Cfg.addrDepth (c : FifoV3Cfg) : ℕ := if 1 < c.depth then Nat.clog 2 c.depth else 1

/-- A pointer moved on. The comparison is 32 bits wide: at a power of two the
truncated depth is zero, and zero minus one is not a pointer. -/
def FifoV3Cfg.nextPointer (c : FifoV3Cfg) (p : ℕ) : ℕ :=
  if p = (c.depth % 2 ^ c.addrDepth + (2 ^ 32 - 1)) % 2 ^ 32 then 0
  else (p + 1) % 2 ^ c.addrDepth

/-- The registers. -/
structure FifoV3Regs (α : Type u) where
  readPointerQ : ℕ
  writePointerQ : ℕ
  statusCntQ : ℕ
  memQ : ℕ → α

/-- What a clock edge samples. -/
structure FifoV3In (α : Type u) where
  flushI : Bool
  data : α
  pushI : Bool
  popI : Bool

namespace FifoV3Regs

variable (c : FifoV3Cfg) {α : Type u}

/-- Reset, with `z` for `dtype'('0)`. -/
def reset (z : α) : FifoV3Regs α := ⟨0, 0, 0, fun _ => z⟩

def fullO (s : FifoV3Regs α) : Bool := s.statusCntQ == c.depth

def emptyO (s : FifoV3Regs α) (pushI : Bool) : Bool :=
  s.statusCntQ == 0 && !(c.fallThrough && pushI)

/-- The word is pushed. -/
def pushes (s : FifoV3Regs α) (i : FifoV3In α) : Bool := i.pushI && !s.fullO c

/-- A word is popped. -/
def pops (s : FifoV3Regs α) (i : FifoV3In α) : Bool := i.popI && !s.emptyO c i.pushI

/-- Pass-through mode. -/
def passes (s : FifoV3Regs α) (i : FifoV3In α) : Bool :=
  c.fallThrough && s.statusCntQ == 0 && i.pushI

def dataO (s : FifoV3Regs α) (i : FifoV3In α) : α :=
  if s.passes c i then i.data else s.memQ s.readPointerQ

def readPointerN (s : FifoV3Regs α) (i : FifoV3In α) : ℕ :=
  if s.passes c i && i.popI then s.readPointerQ
  else if s.pops c i then c.nextPointer s.readPointerQ
  else s.readPointerQ

def writePointerN (s : FifoV3Regs α) (i : FifoV3In α) : ℕ :=
  if s.passes c i && i.popI then s.writePointerQ
  else if s.pushes c i then c.nextPointer s.writePointerQ
  else s.writePointerQ

def statusCntN (s : FifoV3Regs α) (i : FifoV3In α) : ℕ :=
  if s.passes c i && i.popI then s.statusCntQ
  else if s.pushes c i && s.pops c i then s.statusCntQ
  else if s.pops c i then s.statusCntQ - 1
  else if s.pushes c i then s.statusCntQ + 1
  else s.statusCntQ

/-- One clock edge. A flush moves the pointers and the counter only. -/
def step (s : FifoV3Regs α) (i : FifoV3In α) : FifoV3Regs α where
  readPointerQ := if i.flushI then 0 else s.readPointerN c i
  writePointerQ := if i.flushI then 0 else s.writePointerN c i
  statusCntQ := if i.flushI then 0 else s.statusCntN c i
  memQ := if s.pushes c i then Function.update s.memQ s.writePointerQ i.data else s.memQ

/-- The pointers are places of the memory, as far apart as the counter says. -/
structure Wf (s : FifoV3Regs α) : Prop where
  read_lt : s.readPointerQ < c.depth
  cnt_le : s.statusCntQ ≤ c.depth
  write_eq : s.writePointerQ = (s.readPointerQ + s.statusCntQ) % c.depth

end FifoV3Regs

/-! ## Pointers -/

/-- Either way of wrapping leads from the last place to the first. -/
theorem FifoV3Cfg.nextPointer_eq (c : FifoV3Cfg) {p : ℕ} (hp : p < c.depth) :
    c.nextPointer p = (p + 1) % c.depth := by
  have hpos := c.pos
  have hbound := c.bound
  unfold FifoV3Cfg.nextPointer
  by_cases hone : 1 < c.depth
  · rw [FifoV3Cfg.addrDepth, if_pos hone]
    have hle : c.depth ≤ 2 ^ Nat.clog 2 c.depth := Nat.le_pow_clog (by omega) _
    rcases Nat.lt_or_eq_of_le hle with hlt | heq
    · -- the depth is no power of two: the comparison finds the last place
      rw [Nat.mod_eq_of_lt hlt, show c.depth + (2 ^ 32 - 1) = (c.depth - 1) + 2 ^ 32 by omega,
        Nat.add_mod_right, Nat.mod_eq_of_lt (show c.depth - 1 < 2 ^ 32 by omega)]
      by_cases hlast : p = c.depth - 1
      · rw [if_pos hlast, hlast, Nat.sub_add_cancel hpos, Nat.mod_self]
      · rw [if_neg hlast, Nat.mod_eq_of_lt (show p + 1 < c.depth by omega),
          Nat.mod_eq_of_lt (show p + 1 < 2 ^ Nat.clog 2 c.depth by omega)]
    · -- a power of two: the comparison never holds
      rw [← heq, Nat.mod_self, if_neg]
      omega
  · -- one place only
    have hdepth : c.depth = 1 := by omega
    have hzero : p = 0 := by omega
    rw [FifoV3Cfg.addrDepth, if_neg hone, hdepth, hzero]
    rfl

/-! ## One edge -/

namespace FifoV3Regs

variable {c : FifoV3Cfg} {α : Type u} {s : FifoV3Regs α} {i : FifoV3In α}

theorem wf_reset (z : α) : (reset z).Wf c := ⟨c.pos, Nat.zero_le _, (Nat.mod_eq_of_lt c.pos).symm⟩

/-- What pass-through mode is: the memory is empty, and the word that comes is
the word that is shown. -/
theorem passes_iff : s.passes c i = true ↔
    c.fallThrough = true ∧ s.statusCntQ = 0 ∧ i.pushI = true := by
  simp [passes, and_assoc]

theorem pushes_iff (hwf : s.Wf c) : s.pushes c i = true ↔
    i.pushI = true ∧ s.statusCntQ < c.depth := by
  have hle := hwf.cnt_le
  simp only [pushes, fullO, Bool.and_eq_true, Bool.not_eq_true', beq_eq_false_iff_ne]
  constructor
  · rintro ⟨hpush, hne⟩
    exact ⟨hpush, by omega⟩
  · rintro ⟨hpush, hlt⟩
    exact ⟨hpush, by omega⟩

/-- Outside pass-through mode a word is popped only if the memory holds one. -/
theorem pops_iff (hpass : s.passes c i = false) : s.pops c i = true ↔
    i.popI = true ∧ 0 < s.statusCntQ := by
  rw [Nat.pos_iff_ne_zero]
  cases hcnt : s.statusCntQ == 0 with
  | true => simp_all [pops, emptyO, passes]
  | false => simp_all [pops, emptyO]

/-- What an edge does, by whether words are pushed and popped. -/
inductive Edge (c : FifoV3Cfg) (s : FifoV3Regs α) (i : FifoV3In α) : Prop
  /-- The word passes through. It is written, but not counted. -/
  | through (cnt : s.statusCntQ = 0) (push : s.pushes c i = true) (pop : s.pops c i = true)
      (shown : s.dataO c i = i.data)
      (next : s.step c i = { s with memQ := Function.update s.memQ s.writePointerQ i.data })
  | both (cnt : 0 < s.statusCntQ) (push : s.pushes c i = true) (pop : s.pops c i = true)
      (shown : s.dataO c i = s.memQ s.readPointerQ) (room : s.statusCntQ < c.depth)
      (next : s.step c i = ⟨c.nextPointer s.readPointerQ, c.nextPointer s.writePointerQ,
        s.statusCntQ, Function.update s.memQ s.writePointerQ i.data⟩)
  | push (push : s.pushes c i = true) (pop : s.pops c i = false) (room : s.statusCntQ < c.depth)
      (next : s.step c i = ⟨s.readPointerQ, c.nextPointer s.writePointerQ, s.statusCntQ + 1,
        Function.update s.memQ s.writePointerQ i.data⟩)
  | pop (cnt : 0 < s.statusCntQ) (push : s.pushes c i = false) (pop : s.pops c i = true)
      (shown : s.dataO c i = s.memQ s.readPointerQ)
      (next : s.step c i = ⟨c.nextPointer s.readPointerQ, s.writePointerQ, s.statusCntQ - 1,
        s.memQ⟩)
  | rest (push : s.pushes c i = false) (pop : s.pops c i = false) (next : s.step c i = s)

theorem edge (hwf : s.Wf c) (hflush : i.flushI = false) : Edge c s i := by
  have hpos := c.pos
  cases hpass : s.passes c i with
  | true =>
      -- the memory is empty, so a word that is pushed has room and is shown at once
      obtain ⟨hfall, hcnt, hpush⟩ := passes_iff.1 hpass
      have hpushes : s.pushes c i = true := (pushes_iff hwf).2 ⟨hpush, by omega⟩
      have hroom : s.statusCntQ < c.depth := by omega
      have hpops : s.pops c i = i.popI := by simp [pops, emptyO, hfall, hpush]
      cases hpop : i.popI with
      | true =>
          rw [hpop] at hpops
          exact .through hcnt hpushes hpops (by simp [dataO, hpass])
            (by simp [step, hflush, readPointerN, writePointerN, statusCntN, hpass, hpop, hpushes])
      | false =>
          rw [hpop] at hpops
          exact .push hpushes hpops hroom
            (by simp [step, hflush, readPointerN, writePointerN, statusCntN, hpop, hpushes, hpops])
  | false =>
      cases hpushes : s.pushes c i with
      | true =>
          -- outside pass-through mode push and pop are independent
          have hroom := ((pushes_iff hwf).1 hpushes).2
          cases hpops : s.pops c i with
          | true =>
              exact .both ((pops_iff hpass).1 hpops).2 hpushes hpops (by simp [dataO, hpass]) hroom
                (by simp [step, hflush, readPointerN, writePointerN, statusCntN, hpass, hpushes,
                  hpops])
          | false =>
              exact .push hpushes hpops hroom
                (by simp [step, hflush, readPointerN, writePointerN, statusCntN, hpass, hpushes,
                  hpops])
      | false =>
          cases hpops : s.pops c i with
          | true =>
              exact .pop ((pops_iff hpass).1 hpops).2 hpushes hpops (by simp [dataO, hpass])
                (by simp [step, hflush, readPointerN, writePointerN, statusCntN, hpass, hpushes,
                  hpops])
          | false =>
              exact .rest hpushes hpops
                (by simp [step, hflush, readPointerN, writePointerN, statusCntN, hpass, hpushes,
                  hpops])

theorem wf_step (hwf : s.Wf c) : (s.step c i).Wf c := by
  have hpos := c.pos
  cases hflush : i.flushI with
  | true => exact ⟨by simp [step, hflush, hpos], by simp [step, hflush], by simp [step, hflush]⟩
  | false =>
      obtain ⟨hread, hle, hwrite⟩ := hwf
      have hlt : s.writePointerQ < c.depth := hwrite ▸ Nat.mod_lt _ hpos
      have hnextR := c.nextPointer_eq hread
      have hnextW := c.nextPointer_eq hlt
      -- a push puts the write pointer one further ahead
      have hturn : (s.writePointerQ + 1) % c.depth
          = (s.readPointerQ + (s.statusCntQ + 1)) % c.depth := by
        rw [hwrite, Nat.mod_add_mod, Nat.add_assoc]
      rcases edge ⟨hread, hle, hwrite⟩ hflush with
        ⟨hcnt, -, -, -, hnext⟩ | ⟨hcnt, -, -, -, -, hnext⟩ | ⟨-, -, hroom, hnext⟩ |
        ⟨hcnt, -, -, -, hnext⟩ | ⟨-, -, hnext⟩
      · rw [hnext]
        exact ⟨hread, hle, hwrite⟩
      · rw [hnext]
        refine ⟨hnextR ▸ Nat.mod_lt _ hpos, hle, ?_⟩
        rw [hnextW, hnextR, hturn, Nat.mod_add_mod, Nat.add_assoc, Nat.add_comm 1]
      · rw [hnext]
        exact ⟨hread, hroom, hnextW.trans hturn⟩
      · rw [hnext]
        refine ⟨hnextR ▸ Nat.mod_lt _ hpos, by dsimp only; omega, ?_⟩
        rw [hnextR, Nat.mod_add_mod, hwrite]
        congr 1
        dsimp only
        omega
      · rw [hnext]
        exact ⟨hread, hle, hwrite⟩

end FifoV3Regs

/-! ## A queue -/

/-- The registers as a reset and clock edges leave them. -/
structure FifoV3 (c : FifoV3Cfg) (α : Type u) where
  regs : FifoV3Regs α
  wf : regs.Wf c

namespace FifoV3

variable {c : FifoV3Cfg} {α : Type u}

def reset (z : α) : FifoV3 c α := ⟨.reset z, FifoV3Regs.wf_reset z⟩

def fullO (s : FifoV3 c α) : Bool := s.regs.fullO c

def emptyO (s : FifoV3 c α) (pushI : Bool) : Bool := s.regs.emptyO c pushI

def dataO (s : FifoV3 c α) (i : FifoV3In α) : α := s.regs.dataO c i

def step (s : FifoV3 c α) (i : FifoV3In α) : FifoV3 c α :=
  ⟨s.regs.step c i, FifoV3Regs.wf_step s.wf⟩

/-- The words held, oldest first. -/
def contents (s : FifoV3 c α) : List α :=
  Circular.contents c.depth s.regs.memQ s.regs.readPointerQ s.regs.statusCntQ

/-- The word that an edge appends. -/
def pushed (s : FifoV3 c α) (i : FifoV3In α) : List α := slot (s.regs.pushes c i) i.data

/-- The word that an edge takes. -/
def popped (s : FifoV3 c α) (i : FifoV3In α) : List α := slot (s.regs.pops c i) (s.dataO i)

@[simp] theorem contents_reset (z : α) : (reset z : FifoV3 c α).contents = [] := rfl

theorem length_contents (s : FifoV3 c α) : s.contents.length = s.regs.statusCntQ :=
  Circular.length_contents _ _ _

theorem length_contents_le (s : FifoV3 c α) : s.contents.length ≤ c.depth := by
  rw [length_contents]
  exact s.wf.cnt_le

theorem fullO_iff (s : FifoV3 c α) : s.fullO = true ↔ s.contents.length = c.depth := by
  rw [length_contents]
  exact beq_iff_eq

theorem not_full_iff (s : FifoV3 c α) : s.fullO = false ↔ s.contents.length < c.depth := by
  have hle := s.length_contents_le
  rw [← Bool.not_eq_true, fullO_iff]
  omega

/-- A word that falls through counts as one that is held. -/
theorem emptyO_iff (s : FifoV3 c α) (pushI : Bool) :
    s.emptyO pushI = true ↔ s.contents = [] ∧ (c.fallThrough && pushI) = false := by
  rw [← List.length_eq_zero_iff, length_contents, emptyO, FifoV3Regs.emptyO, Bool.and_eq_true,
    beq_iff_eq, Bool.not_eq_true']

/-- The memory from the oldest word on. -/
theorem contents_pos {r : FifoV3Regs α} (hwf : r.Wf c) (hcnt : 0 < r.statusCntQ) :
    Circular.contents c.depth r.memQ r.readPointerQ r.statusCntQ
      = r.memQ r.readPointerQ ::
        Circular.contents c.depth r.memQ (c.nextPointer r.readPointerQ) (r.statusCntQ - 1) := by
  rw [c.nextPointer_eq hwf.read_lt, ← Circular.contents_pop _ hwf.read_lt,
    Nat.sub_add_cancel hcnt]

/-- The memory after a push. -/
theorem contents_update {r : FifoV3Regs α} (hwf : r.Wf c) (hroom : r.statusCntQ < c.depth) (d : α) :
    Circular.contents c.depth (Function.update r.memQ r.writePointerQ d) r.readPointerQ
        (r.statusCntQ + 1)
      = Circular.contents c.depth r.memQ r.readPointerQ r.statusCntQ ++ [d] := by
  rw [hwf.write_eq]
  exact Circular.contents_push _ hroom d

/-- The word shown is the oldest one, if need be the one that falls through. -/
theorem head?_shown (s : FifoV3 c α) (i : FifoV3In α) (h : s.emptyO i.pushI = false) :
    (s.contents ++ slot (c.fallThrough && i.pushI) i.data).head? = some (s.dataO i) := by
  cases hpass : s.regs.passes c i with
  | true =>
      obtain ⟨hfall, hcnt, hpush⟩ := FifoV3Regs.passes_iff.1 hpass
      simp [contents, dataO, FifoV3Regs.dataO, hpass, hcnt, hfall, hpush, slot]
  | false =>
      have hcnt : 0 < s.regs.statusCntQ := by
        rw [Nat.pos_iff_ne_zero]
        intro hzero
        simp_all [emptyO, FifoV3Regs.emptyO, FifoV3Regs.passes]
      rw [contents, contents_pos s.wf hcnt, List.cons_append, List.head?_cons]
      simp [dataO, FifoV3Regs.dataO, hpass]

/-- An edge without a flush appends the word that is pushed and takes away the
one that is popped. -/
theorem queue_step (s : FifoV3 c α) {i : FifoV3In α} (hflush : i.flushI = false) :
    s.contents ++ s.pushed i = s.popped i ++ (s.step i).contents := by
  rcases s with ⟨r, hwf⟩
  simp only [pushed, popped, step, contents, dataO]
  rcases FifoV3Regs.edge hwf hflush with
    ⟨hcnt, hpush, hpop, hshown, hnext⟩ | ⟨hcnt, hpush, hpop, hshown, hroom, hnext⟩ |
    ⟨hpush, hpop, hroom, hnext⟩ | ⟨hcnt, hpush, hpop, hshown, hnext⟩ | ⟨hpush, hpop, hnext⟩
  · -- the word that passes through is pushed and popped
    rw [hnext, hpush, hpop, hshown, hcnt]
    simp [slot]
  · -- the word is written behind the ones that stay
    have hpos := contents_pos hwf hcnt
    have hlast : ∀ m : ℕ → α, Circular.contents c.depth m r.readPointerQ (r.statusCntQ + 1)
        = m r.readPointerQ ::
          Circular.contents c.depth m (c.nextPointer r.readPointerQ) r.statusCntQ := by
      intro m
      rw [c.nextPointer_eq hwf.read_lt, Circular.contents_pop _ hwf.read_lt]
    have hnew := contents_update hwf hroom i.data
    rw [hlast, hpos] at hnew
    have hhead := List.head_eq_of_cons_eq hnew
    rw [hnext, hpush, hpop, hshown, hpos]
    simpa [slot] using (List.tail_eq_of_cons_eq hnew).symm
  · rw [hnext, hpush, hpop]
    simpa [slot] using (contents_update hwf hroom i.data).symm
  · -- a pop takes the front of what is there
    rw [hnext, hpush, hpop, hshown, contents_pos hwf hcnt]
    simp [slot]
  · rw [hnext, hpush, hpop]
    simp [slot]

theorem contents_flush (s : FifoV3 c α) {i : FifoV3In α} (hflush : i.flushI = true) :
    (s.step i).contents = [] := by
  simp [step, contents, FifoV3Regs.step, hflush]

/-! ## Runs -/

/-- Over a run without flushes the words leave in the order in which they came. -/
theorem order_of_run (s : FifoV3 c α) {ins : List (FifoV3In α)}
    (hflush : ∀ i ∈ ins, i.flushI = false) :
    s.contents ++ events step pushed s ins
      = events step popped s ins ++ (run step s ins).contents :=
  events_conserved (along_mono step (fun s _ => s.queue_step) (along_of_inputs step hflush))

end FifoV3

/-! ## Without fall through -/

/-- `MaxTrans`: the depth of the FIFOs of the crossbar, which do not fall through. -/
structure MaxTrans where
  depth : ℕ
  pos : 0 < depth
  bound : depth < 2 ^ 32

def MaxTrans.fifo (m : MaxTrans) : FifoV3Cfg := ⟨false, m.depth, m.pos, m.bound⟩

namespace FifoV3

variable {m : MaxTrans} {α : Type u}

/-- `empty_o`, which needs no input. -/
def isEmpty (s : FifoV3 m.fifo α) : Bool := s.emptyO false

/-- `data_o`, which needs no input. -/
def front (s : FifoV3 m.fifo α) : α := s.regs.memQ s.regs.readPointerQ

theorem isEmpty_iff (s : FifoV3 m.fifo α) : s.isEmpty = true ↔ s.contents = [] := by
  rw [isEmpty, emptyO_iff]
  exact and_iff_left rfl

theorem contents_of_nonempty {s : FifoV3 m.fifo α} (h : s.isEmpty = false) :
    s.contents = s.front :: s.contents.drop 1 := by
  have hhead := s.head?_shown ⟨false, s.front, false, false⟩ h
  have hnofall : slot (m.fifo.fallThrough && false) s.front = [] := rfl
  have hdata : s.dataO ⟨false, s.front, false, false⟩ = s.front := rfl
  rw [hnofall, List.append_nil, hdata] at hhead
  obtain ⟨rest, hrest⟩ := List.head?_eq_some_iff.1 hhead
  rw [hrest, List.drop_succ_cons, List.drop_zero]

theorem front_of_contents {s : FifoV3 m.fifo α} {d : α} {rest : List α}
    (h : s.contents = d :: rest) : s.isEmpty = false ∧ s.front = d := by
  have hsome : s.isEmpty = false := by
    cases hempty : s.isEmpty with
    | false => rfl
    | true => cases h.symm.trans (s.isEmpty_iff.1 hempty)
  refine ⟨hsome, ?_⟩
  -- a FIFO that is not empty shows its front
  have hcons := contents_of_nonempty hsome
  rw [h] at hcons
  exact (List.cons.inj hcons).1.symm

theorem not_full_of_nil {s : FifoV3 m.fifo α} (h : s.contents = []) : s.fullO = false := by
  rw [not_full_iff, h]
  exact m.pos

/-- What is popped is in front. -/
theorem slot_front {s : FifoV3 m.fifo α} {pop : Bool} (hpop : pop = true → s.isEmpty = false) :
    slot pop s.front <+: s.contents := by
  cases pop with
  | false => exact List.nil_prefix
  | true =>
      rw [contents_of_nonempty (hpop rfl)]
      exact ⟨_, rfl⟩

/-- A push that finds room. -/
theorem pushed_of_room {s : FifoV3 m.fifo α} {i : FifoV3In α}
    (h : i.pushI = true → s.fullO = false) :
    s.pushed i = slot i.pushI i.data := by
  cases hpush : i.pushI with
  | true =>
      have hroom : s.regs.fullO m.fifo = false := h hpush
      simp [pushed, FifoV3Regs.pushes, hpush, hroom]
  | false => simp [pushed, FifoV3Regs.pushes, hpush]

/-- A pop that finds a word. -/
theorem popped_of_some {s : FifoV3 m.fifo α} {i : FifoV3In α}
    (h : i.popI = true → s.isEmpty = false) : s.popped i = slot i.popI s.front := by
  have hdata : s.dataO i = s.front := rfl
  have hempty : s.regs.emptyO m.fifo i.pushI = s.isEmpty := rfl
  rw [popped, hdata, FifoV3Regs.pops, hempty]
  cases hpop : i.popI with
  | true => rw [h hpop]; rfl
  | false => rfl

/-- An edge of a FIFO that is pushed only when it has room and popped only when
it holds a word. -/
theorem used_step (s : FifoV3 m.fifo α) (d : α) {push pop : Bool}
    (hpush : push = true → s.fullO = false) (hpop : pop = true → s.isEmpty = false) :
    s.contents ++ slot push d = slot pop s.front ++ (s.step ⟨false, d, push, pop⟩).contents := by
  have hstep := s.queue_step (i := ⟨false, d, push, pop⟩) rfl
  rwa [pushed_of_room hpush, popped_of_some hpop] at hstep

end FifoV3

/-- From every reachable state, the words held and the words pushed are the words
popped and behind them the words held in the end, whatever the depth. The flags
tell when nothing is held and when there is no room, the output shows the oldest
word unless `empty_o` is high, and a flush leaves nothing. -/
theorem fifo_v3_is_queue (c : FifoV3Cfg) {α : Type u} (z : α) (pre ins : List (FifoV3In α))
    (hflush : ∀ i ∈ ins, i.flushI = false) :
    let r := run FifoV3.step (.reset z : FifoV3 c α) pre
    let s := run FifoV3.step r ins
    r.contents ++ events FifoV3.step FifoV3.pushed r ins
        = events FifoV3.step FifoV3.popped r ins ++ s.contents ∧
      s.contents.length ≤ c.depth ∧ (s.fullO = true ↔ s.contents.length = c.depth) ∧
      (∀ pushI, s.emptyO pushI = true ↔ s.contents = [] ∧ (c.fallThrough && pushI) = false) ∧
      (∀ i, s.emptyO i.pushI = false →
        (s.contents ++ slot (c.fallThrough && i.pushI) i.data).head? = some (s.dataO i)) ∧
      ∀ i, i.flushI = true → (s.step i).contents = [] := by
  intro r s
  exact ⟨FifoV3.order_of_run r hflush, s.length_contents_le, s.fullO_iff, s.emptyO_iff,
    s.head?_shown, fun _ hi => s.contents_flush hi⟩

/-- Three places and fall through. -/
def threePlaces : FifoV3Cfg := ⟨true, 3, by decide, by decide⟩

/-- A word passes through, three are kept, and the oldest leaves as a fourth one
comes, which finds no room. -/
def fourPushes : List (FifoV3In ℕ) :=
  [⟨false, 9, true, true⟩, ⟨false, 1, true, false⟩, ⟨false, 2, true, false⟩,
    ⟨false, 3, true, false⟩, ⟨false, 4, true, true⟩]

/-- A word is pushed and popped, which leaves the pointers at the second place. -/
def onePlaceOn : List (FifoV3In ℕ) := [⟨false, 7, true, false⟩, ⟨false, 0, false, true⟩]

theorem four_pushes_are_queue :
    let r := run FifoV3.step (.reset 0 : FifoV3 threePlaces ℕ) onePlaceOn
    let s := run FifoV3.step r fourPushes
    r.contents = [] ∧ events FifoV3.step FifoV3.popped r fourPushes = [9, 1] ∧
      r.contents ++ events FifoV3.step FifoV3.pushed r fourPushes
        = events FifoV3.step FifoV3.popped r fourPushes ++ s.contents ∧
      s.contents.length ≤ 3 ∧ (s.fullO = true ↔ s.contents.length = 3) ∧
      (∀ pushI, s.emptyO pushI = true ↔ s.contents = [] ∧ (true && pushI) = false) :=
  have h := fifo_v3_is_queue threePlaces 0 onePlaceOn fourPushes (by decide)
  ⟨by decide +kernel, by decide +kernel, h.1, h.2.1, h.2.2.1, h.2.2.2.1⟩

end SocRtl.Fifo
