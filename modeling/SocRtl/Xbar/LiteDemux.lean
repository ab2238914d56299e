import SocRtl.Fifo.FifoV3
import SocRtl.Handshake.SpillRegister
import SocRtl.Lib.Tagged

/-!
# SocRtl.Xbar.LiteDemux — the demultiplexer `axi_lite_demux`

One master in front, `NoMstPorts` slaves behind. Each address comes with the
port that it selects; a FIFO remembers the ports of the addresses for the data
words, another one the ports of the data words for the responses. Writes and
reads share nothing.

The latency mode is that of the backbone, `CUT_ALL_AX`: spill registers for the
addresses, wires for the other channels. The FIFOs do not fall through.

* `DemuxWrite.order_of_run`: the data words go to the ports of the addresses,
  the responses come from the ports of the data words.
* `DemuxRead.order_of_run`: the responses come from the ports of the addresses.
-/

namespace SocRtl.Xbar

open Handshake Fifo Tagged

/-! ## The control of the AW channel

It is the same in the demultiplexer and in the multiplexer. A new address is
shown if there is room for its number in the FIFO, and the number is pushed at
once; until the address is taken, the valid signal is locked and nothing more is
pushed. -/

/-- The address is shown. -/
def mstAwValid (lockAwValidQ wFifoFull awValid : Bool) : Bool :=
  if lockAwValidQ then true else !wFifoFull && awValid

def wFifoPush (lockAwValidQ wFifoFull awValid : Bool) : Bool :=
  if lockAwValidQ then false else !wFifoFull && awValid

/-- The address is taken. -/
def awReady (lockAwValidQ wFifoFull awValid mstAwReady : Bool) : Bool :=
  if lockAwValidQ then mstAwReady else (!wFifoFull && awValid) && mstAwReady

def lockAwValidD (lockAwValidQ wFifoFull awValid mstAwReady : Bool) : Bool :=
  if lockAwValidQ then !mstAwReady else (!wFifoFull && awValid) && !mstAwReady

theorem awReady_eq (lock full valid ready : Bool) :
    awReady lock full valid ready = (mstAwValid lock full valid && ready) := by
  cases lock <;> simp [awReady, mstAwValid]

theorem lockAwValidD_eq (lock full valid ready : Bool) :
    lockAwValidD lock full valid ready = (mstAwValid lock full valid && !ready) := by
  cases lock <;> simp [lockAwValidD, mstAwValid]

/-! ## Writes -/

/-- The registers on the way of a write. -/
structure DemuxWrite (n : ℕ) (m : MaxTrans) (AW : Type) where
  awSpill : Spill (Fin n × AW)
  lockAwValidQ : Bool
  wFifo : FifoV3 m.fifo (Fin n)
  bFifo : FifoV3 m.fifo (Fin n)

/-- What a clock edge samples: the master, the port its address selects, and
the slaves. -/
structure DemuxWriteIn (n : ℕ) (AW W B : Type) where
  awValid : Bool
  aw : AW
  awSelect : Fin n
  wValid : Bool
  w : W
  bReady : Bool
  awReadies : Fin n → Bool
  wReadies : Fin n → Bool
  bValids : Fin n → Bool
  bs : Fin n → B

namespace DemuxWrite

variable {n : ℕ} {m : MaxTrans} {AW W B : Type}

/-- Reset, with `z` and `k` for the words that nothing reads. -/
def reset (z : AW) (k : Fin n) : DemuxWrite n m AW := ⟨.reset (k, z), false, .reset k, .reset k⟩

/-- The port of the address in front, and the address. -/
def slvAwChan (s : DemuxWrite n m AW) : Fin n × AW := s.awSpill.dataO

/-- The address in front is shown to its port. -/
def awShown (s : DemuxWrite n m AW) : Bool :=
  mstAwValid s.lockAwValidQ s.wFifo.fullO s.awSpill.validO

def mstAwValids (s : DemuxWrite n m AW) (k : Fin n) : Bool := s.awShown && s.slvAwChan.1 == k

def push (s : DemuxWrite n m AW) : Bool :=
  wFifoPush s.lockAwValidQ s.wFifo.fullO s.awSpill.validO

def slvAwReady (s : DemuxWrite n m AW) (i : DemuxWriteIn n AW W B) : Bool :=
  awReady s.lockAwValidQ s.wFifo.fullO s.awSpill.validO (i.awReadies s.slvAwChan.1)

def wSelect (s : DemuxWrite n m AW) : Fin n := s.wFifo.front

/-- Data words may pass. -/
def wOpen (s : DemuxWrite n m AW) : Bool := !s.wFifo.isEmpty && !s.bFifo.fullO

def mstWValids (s : DemuxWrite n m AW) (wValid : Bool) (k : Fin n) : Bool :=
  s.wOpen && wValid && s.wSelect == k

def slvWReady (s : DemuxWrite n m AW) (i : DemuxWriteIn n AW W B) : Bool :=
  s.wOpen && i.wReadies s.wSelect

def wFifoPop (s : DemuxWrite n m AW) (i : DemuxWriteIn n AW W B) : Bool :=
  i.wValid && s.slvWReady i

def bSelect (s : DemuxWrite n m AW) : Fin n := s.bFifo.front

def slvBValid (s : DemuxWrite n m AW) (i : DemuxWriteIn n AW W B) : Bool :=
  !s.bFifo.isEmpty && i.bValids s.bSelect

def mstBReadies (s : DemuxWrite n m AW) (bReady : Bool) (k : Fin n) : Bool :=
  !s.bFifo.isEmpty && bReady && s.bSelect == k

def bFifoPop (s : DemuxWrite n m AW) (i : DemuxWriteIn n AW W B) : Bool :=
  s.slvBValid i && i.bReady

/-- One clock edge. -/
def step (s : DemuxWrite n m AW) (i : DemuxWriteIn n AW W B) : DemuxWrite n m AW where
  awSpill := s.awSpill.step ⟨i.awValid, (i.awSelect, i.aw), s.slvAwReady i⟩
  lockAwValidQ := lockAwValidD s.lockAwValidQ s.wFifo.fullO s.awSpill.validO
    (i.awReadies s.slvAwChan.1)
  wFifo := s.wFifo.step ⟨false, s.slvAwChan.1, s.push, s.wFifoPop i⟩
  bFifo := s.bFifo.step ⟨false, s.wSelect, s.wFifoPop i, s.bFifoPop i⟩

/-! What an edge moves, with the port as a tag. -/

/-- The address accepted from the master. -/
def awTaken (s : DemuxWrite n m AW) (i : DemuxWriteIn n AW W B) : List (Fin n × AW) :=
  slot (i.awValid && s.awSpill.readyO) (i.awSelect, i.aw)

/-- The address handed to a slave. -/
def awGiven (s : DemuxWrite n m AW) (i : DemuxWriteIn n AW W B) : List (Fin n × AW) :=
  slot (s.slvAwReady i) s.slvAwChan

/-- The data word accepted from the master, which the slave gets. -/
def wMoved (s : DemuxWrite n m AW) (i : DemuxWriteIn n AW W B) : List (Fin n × W) :=
  slot (s.wFifoPop i) (s.wSelect, i.w)

/-- The response of a slave, which the master gets. -/
def bMoved (s : DemuxWrite n m AW) (i : DemuxWriteIn n AW W B) : List (Fin n × B) :=
  slot (s.bFifoPop i) (s.bSelect, i.bs s.bSelect)

/-- The port whose number is pushed. -/
def pushed (s : DemuxWrite n m AW) (_ : DemuxWriteIn n AW W B) : List (Fin n) :=
  slot s.push s.slvAwChan.1

end DemuxWrite

/-! ## Reads -/

/-- The registers on the way of a read. -/
structure DemuxRead (n : ℕ) (m : MaxTrans) (AR : Type) where
  arSpill : Spill (Fin n × AR)
  rFifo : FifoV3 m.fifo (Fin n)

structure DemuxReadIn (n : ℕ) (AR R : Type) where
  arValid : Bool
  ar : AR
  arSelect : Fin n
  rReady : Bool
  arReadies : Fin n → Bool
  rValids : Fin n → Bool
  rs : Fin n → R

namespace DemuxRead

variable {n : ℕ} {m : MaxTrans} {AR R : Type}

def reset (z : AR) (k : Fin n) : DemuxRead n m AR := ⟨.reset (k, z), .reset k⟩

def slvArChan (s : DemuxRead n m AR) : Fin n × AR := s.arSpill.dataO

def mstArValids (s : DemuxRead n m AR) (k : Fin n) : Bool :=
  !s.rFifo.fullO && s.arSpill.validO && s.slvArChan.1 == k

def slvArReady (s : DemuxRead n m AR) (i : DemuxReadIn n AR R) : Bool :=
  !s.rFifo.fullO && i.arReadies s.slvArChan.1

def rFifoPush (s : DemuxRead n m AR) (i : DemuxReadIn n AR R) : Bool :=
  s.arSpill.validO && s.slvArReady i

def rSelect (s : DemuxRead n m AR) : Fin n := s.rFifo.front

def slvRValid (s : DemuxRead n m AR) (i : DemuxReadIn n AR R) : Bool :=
  if s.rFifo.isEmpty then false else i.rValids s.rSelect

def mstRReadies (s : DemuxRead n m AR) (rReady : Bool) (k : Fin n) : Bool :=
  !s.rFifo.isEmpty && rReady && s.rSelect == k

def rFifoPop (s : DemuxRead n m AR) (i : DemuxReadIn n AR R) : Bool := s.slvRValid i && i.rReady

/-- One clock edge. -/
def step (s : DemuxRead n m AR) (i : DemuxReadIn n AR R) : DemuxRead n m AR where
  arSpill := s.arSpill.step ⟨i.arValid, (i.arSelect, i.ar), s.slvArReady i⟩
  rFifo := s.rFifo.step ⟨false, s.slvArChan.1, s.rFifoPush i, s.rFifoPop i⟩

/-- The address accepted from the master. -/
def arTaken (s : DemuxRead n m AR) (i : DemuxReadIn n AR R) : List (Fin n × AR) :=
  slot (i.arValid && s.arSpill.readyO) (i.arSelect, i.ar)

/-- The address handed to a slave. -/
def arGiven (s : DemuxRead n m AR) (i : DemuxReadIn n AR R) : List (Fin n × AR) :=
  slot (s.rFifoPush i) s.slvArChan

/-- The response of a slave, which the master gets. -/
def rMoved (s : DemuxRead n m AR) (i : DemuxReadIn n AR R) : List (Fin n × R) :=
  slot (s.rFifoPop i) (s.rSelect, i.rs s.rSelect)

end DemuxRead

theorem tags_slot {κ α : Type} (v : Bool) (x : κ × α) : tags (slot v x) = slot v x.1 := by
  cases v <;> rfl

theorem count_slot {κ : Type} [DecidableEq κ] (k : κ) (v : Bool) (x : κ) :
    (slot v x).count k = (v && decide (x = k)).toNat := by
  cases v with
  | false => rfl
  | true =>
      by_cases hk : x = k
      · simp [slot, hk]
      · simp [slot, hk]

theorem lane_slot {κ α : Type} [DecidableEq κ] (k : κ) (v : Bool) (x : κ × α) :
    lane k (slot v x) = slot (v && decide (x.1 = k)) x.2 := by
  cases v with
  | false => rfl
  | true =>
      by_cases hk : x.1 = k
      · simp [slot, lane, hk]
      · simp [slot, lane, hk]

/-! ## The order of writes -/

namespace DemuxWrite

variable {n : ℕ} {m : MaxTrans} {AW W B : Type} {s : DemuxWrite n m AW} {i : DemuxWriteIn n AW W B}

theorem push_of_unlocked (hlock : s.lockAwValidQ = false) : s.push = s.awShown := by
  rw [push, awShown, wFifoPush, mstAwValid, hlock]
  rfl

theorem shown_of_lock (hlock : s.lockAwValidQ = true) : s.awShown = true ∧ s.push = false := by
  rw [awShown, push, mstAwValid, wFifoPush, hlock]
  exact ⟨rfl, rfl⟩

/-- A locked address is there. -/
def Locked (s : DemuxWrite n m AW) : Prop := s.lockAwValidQ = true → s.awSpill.validO = true

theorem valid_of_shown (hlocked : s.Locked) (h : s.awShown = true) : s.awSpill.validO = true := by
  unfold awShown mstAwValid at h
  split at h
  · rename_i hlock
    exact hlocked hlock
  · exact (Bool.and_eq_true_iff.1 h).2

theorem slvAwReady_eq (s : DemuxWrite n m AW) (i : DemuxWriteIn n AW W B) :
    s.slvAwReady i = (s.awShown && i.awReadies s.slvAwChan.1) := awReady_eq _ _ _ _

/-- An address that is shown and not taken is shown again, locked. -/
theorem lock_step (hlocked : s.Locked) (hshown : s.awShown = true)
    (hready : s.slvAwReady i = false) :
    (s.step i).lockAwValidQ = true ∧ (s.step i).awSpill.validO = true ∧
      (s.step i).slvAwChan = s.slvAwChan := by
  have hlow : i.awReadies s.slvAwChan.1 = false := by
    rwa [slvAwReady_eq, hshown, Bool.true_and] at hready
  have hstall := Spill.dataO_step_of_stalled (s := s.awSpill)
    (i := ⟨i.awValid, (i.awSelect, i.aw), s.slvAwReady i⟩) (valid_of_shown hlocked hshown) hready
  refine ⟨?_, hstall.1, hstall.2⟩
  have hlock : (s.step i).lockAwValidQ
      = (s.awShown && !i.awReadies s.slvAwChan.1) := lockAwValidD_eq _ _ _ _
  rw [hlock, hshown, hlow]
  rfl

/-- Nothing is locked when nothing is shown or what is shown is taken. -/
theorem unlocked_step (h : s.awShown = false ∨ s.slvAwReady i = true) :
    (s.step i).lockAwValidQ = false := by
  have hlock : (s.step i).lockAwValidQ
      = (s.awShown && !i.awReadies s.slvAwChan.1) := lockAwValidD_eq _ _ _ _
  rw [hlock]
  rcases h with h | h
  · rw [h, Bool.false_and]
  · rw [slvAwReady_eq, Bool.and_eq_true] at h
    rw [h.2, Bool.not_true, Bool.and_false]

theorem locked_step (hlocked : s.Locked) (i : DemuxWriteIn n AW W B) : (s.step i).Locked := by
  intro hlock
  cases hshown : s.awShown with
  | false =>
      rw [unlocked_step (.inl hshown)] at hlock
      cases hlock
  | true =>
      cases hready : s.slvAwReady i with
      | true =>
          rw [unlocked_step (.inr hready)] at hlock
          cases hlock
      | false => exact (lock_step hlocked hshown hready).2.1

/-- The addresses held whose ports have not been pushed yet. -/
def unsent (s : DemuxWrite n m AW) : List (Fin n × AW) :=
  if s.lockAwValidQ then s.awSpill.contents.drop 1 else s.awSpill.contents

/-- What an edge does to the addresses and the FIFOs. -/
structure Keeps (s : DemuxWrite n m AW) (i : DemuxWriteIn n AW W B) : Prop where
  aw : s.awSpill.contents ++ s.awTaken i = s.awGiven i ++ (s.step i).awSpill.contents
  sel : tags s.unsent ++ tags (s.awTaken i) = s.pushed i ++ tags (s.step i).unsent
  w : s.wFifo.contents ++ s.pushed i = tags (s.wMoved i) ++ (s.step i).wFifo.contents
  b : s.bFifo.contents ++ tags (s.wMoved i) = tags (s.bMoved i) ++ (s.step i).bFifo.contents

theorem aw_step (hlocked : s.Locked) :
    s.awSpill.contents ++ s.awTaken i = s.awGiven i ++ (s.step i).awSpill.contents := by
  have hstep := s.awSpill.contents_step ⟨i.awValid, (i.awSelect, i.aw), s.slvAwReady i⟩
  have hpop : (s.awSpill.validO && s.slvAwReady i) = s.slvAwReady i := by
    rw [slvAwReady_eq]
    cases hshown : s.awShown with
    | true => rw [valid_of_shown hlocked hshown, Bool.true_and]
    | false => simp
  rw [Spill.popped] at hstep
  change _ = slot (s.awSpill.validO && s.slvAwReady i) _ ++ _ at hstep
  rw [hpop] at hstep
  exact hstep

/-- The port of an address is pushed when the address is first shown. -/
theorem sel_step (hlocked : s.Locked) :
    tags s.unsent ++ tags (s.awTaken i) = s.pushed i ++ tags (s.step i).unsent := by
  have haw := aw_step (i := i) hlocked
  cases hshown : s.awShown with
  | false =>
      -- nothing is shown: nothing is pushed, and nothing moves
      have hlow := hshown
      unfold awShown mstAwValid at hlow
      split at hlow
      · cases hlow
      · rename_i hlock
        have hpush : s.push = false := by
          rw [push, wFifoPush, if_neg hlock]
          exact hlow
        have hready : s.slvAwReady i = false := by rw [slvAwReady_eq, hshown, Bool.false_and]
        rw [awGiven, hready] at haw
        rw [pushed, hpush, unsent, if_neg hlock, unsent, unlocked_step (.inl hshown),
          if_neg (by simp), ← tags_append, haw]
        rfl
  | true =>
      -- shown: the address is in front of its spill register
      have hhead := Spill.contents_of_valid (valid_of_shown hlocked hshown)
      have hpushed : s.pushed i = if s.lockAwValidQ then [] else [s.slvAwChan.1] := by
        unfold awShown mstAwValid at hshown
        unfold pushed push wFifoPush
        split at hshown
        · rename_i hlock
          rw [if_pos hlock, if_pos hlock]
          rfl
        · rename_i hlock
          rw [if_neg hlock, if_neg hlock, hshown]
          rfl
      -- locked or not, what is still to be pushed begins behind it
      have hleft : tags s.unsent ++ tags (s.awTaken i)
          = s.pushed i ++ tags ((s.awSpill.contents ++ s.awTaken i).drop 1) := by
        rw [hpushed, unsent, hhead]
        split <;> simp [tags, slvAwChan]
      rw [hleft, haw]
      cases hready : s.slvAwReady i with
      | true =>
          rw [unsent, unlocked_step (.inr hready), if_neg (by simp), awGiven, hready]
          rfl
      | false =>
          rw [unsent, (lock_step hlocked hshown hready).1, if_pos rfl, awGiven, hready]
          rfl

/-- A data word moves when its port is in one FIFO and the other has room. -/
theorem open_of_wFifoPop (hpop : s.wFifoPop i = true) :
    s.wFifo.isEmpty = false ∧ s.bFifo.fullO = false := by
  simp only [wFifoPop, slvWReady, wOpen, Bool.and_eq_true, Bool.not_eq_true'] at hpop
  exact hpop.2.1

theorem some_of_bFifoPop (hpop : s.bFifoPop i = true) : s.bFifo.isEmpty = false := by
  simp only [bFifoPop, slvBValid, Bool.and_eq_true, Bool.not_eq_true'] at hpop
  exact hpop.1.1

theorem keeps (hlocked : s.Locked) (i : DemuxWriteIn n AW W B) : s.Keeps i := by
  refine ⟨aw_step hlocked, sel_step hlocked, ?_, ?_⟩
  · rw [wMoved, tags_slot]
    refine s.wFifo.used_step _ ?_ fun hpop => (open_of_wFifoPop hpop).1
    intro hpush
    unfold push wFifoPush at hpush
    split at hpush
    · cases hpush
    · simpa using (Bool.and_eq_true_iff.1 hpush).1
  · rw [wMoved, tags_slot, bMoved, tags_slot]
    exact s.bFifo.used_step _ (fun hpop => (open_of_wFifoPop hpop).2) some_of_bFifoPop

/-- What is popped is in front. -/
theorem wMoved_front (s : DemuxWrite n m AW) (i : DemuxWriteIn n AW W B) :
    tags (s.wMoved i) <+: s.wFifo.contents := by
  rw [wMoved, tags_slot]
  exact FifoV3.slot_front fun hpop => (open_of_wFifoPop hpop).1

theorem bMoved_front (s : DemuxWrite n m AW) (i : DemuxWriteIn n AW W B) :
    tags (s.bMoved i) <+: s.bFifo.contents := by
  rw [bMoved, tags_slot]
  exact FifoV3.slot_front some_of_bFifoPop

/-- Every edge of a run from a reset. -/
theorem along_keeps (z : AW) (k : Fin n) (ins : List (DemuxWriteIn n AW W B)) :
    Along step Keeps (reset z k : DemuxWrite n m AW) ins :=
  along_mono step (fun _ i h => keeps h i)
    (along_of_preserved step Locked (fun _ i h => locked_step h i) (fun h => by cases h) ins)

/-- From a reset: the ports of the responses are those of the data words, these
are the ports pushed, and these are the ports of the addresses, each as far as
it goes. The addresses are handed on in order. -/
theorem order_of_run (z : AW) (k : Fin n) (ins : List (DemuxWriteIn n AW W B)) :
    let s : DemuxWrite n m AW := reset z k
    let s' := run step s ins
    events step pushed s ins = tags (events step wMoved s ins) ++ s'.wFifo.contents ∧
      tags (events step wMoved s ins) = tags (events step bMoved s ins) ++ s'.bFifo.contents ∧
      tags (events step awTaken s ins) = events step pushed s ins ++ tags s'.unsent ∧
      events step awTaken s ins = events step awGiven s ins ++ s'.awSpill.contents := by
  intro s s'
  have hkeeps := along_keeps (m := m) z k ins
  have hw := events_conserved (along_mono step (fun s i h => Keeps.w h) hkeeps)
  have hb := events_conserved (along_mono step (fun s i h => Keeps.b h) hkeeps)
  have hsel := events_conserved (along_mono step (fun s i h => Keeps.sel h) hkeeps)
  have haw := events_conserved (along_mono step (fun s i h => Keeps.aw h) hkeeps)
  simp only [tags, events_map] at hw hb hsel ⊢
  exact ⟨hw, hb, hsel, haw⟩

end DemuxWrite

/-! ## The order of reads -/

namespace DemuxRead

variable {n : ℕ} {m : MaxTrans} {AR R : Type} {s : DemuxRead n m AR} {i : DemuxReadIn n AR R}

/-- The address in front is shown to its port. -/
def arShown (s : DemuxRead n m AR) : Bool := !s.rFifo.fullO && s.arSpill.validO

theorem rFifoPush_eq (s : DemuxRead n m AR) (i : DemuxReadIn n AR R) :
    s.rFifoPush i = (s.arShown && i.arReadies s.slvArChan.1) := by
  simp only [rFifoPush, slvArReady, arShown]
  cases s.arSpill.validO <;> simp

/-- What an edge does to the addresses and the FIFO. -/
structure Keeps (s : DemuxRead n m AR) (i : DemuxReadIn n AR R) : Prop where
  ar : s.arSpill.contents ++ s.arTaken i = s.arGiven i ++ (s.step i).arSpill.contents
  r : s.rFifo.contents ++ tags (s.arGiven i) = tags (s.rMoved i) ++ (s.step i).rFifo.contents

theorem some_of_rFifoPop (hpop : s.rFifoPop i = true) : s.rFifo.isEmpty = false := by
  cases hempty : s.rFifo.isEmpty with
  | false => rfl
  | true => simp [rFifoPop, slvRValid, hempty] at hpop

theorem keeps (s : DemuxRead n m AR) (i : DemuxReadIn n AR R) : s.Keeps i := by
  refine ⟨s.arSpill.contents_step ⟨i.arValid, (i.arSelect, i.ar), s.slvArReady i⟩, ?_⟩
  rw [arGiven, tags_slot, rMoved, tags_slot]
  refine s.rFifo.used_step _ ?_ some_of_rFifoPop
  intro hpush
  simp only [rFifoPush, slvArReady, Bool.and_eq_true, Bool.not_eq_true'] at hpush
  exact hpush.2.1

/-- What is popped is in front. -/
theorem rMoved_front (s : DemuxRead n m AR) (i : DemuxReadIn n AR R) :
    tags (s.rMoved i) <+: s.rFifo.contents := by
  rw [rMoved, tags_slot]
  exact FifoV3.slot_front some_of_rFifoPop

/-- An address that is shown and not taken is shown again. No lock is needed:
the FIFO cannot fill up meanwhile. -/
theorem shown_step (hshown : s.arShown = true) (hready : s.slvArReady i = false) :
    (s.step i).arShown = true ∧ (s.step i).slvArChan = s.slvArChan := by
  obtain ⟨hroom, hvalid⟩ := Bool.and_eq_true_iff.1 hshown
  have hstall := Spill.dataO_step_of_stalled (s := s.arSpill)
    (i := ⟨i.arValid, (i.arSelect, i.ar), s.slvArReady i⟩) hvalid hready
  have hlen := congrArg List.length (s.keeps i).r
  have hnone : s.arGiven i = [] := by
    rw [arGiven, rFifoPush, hready, Bool.and_false]
    rfl
  rw [hnone, tags_nil, List.append_nil, List.length_append] at hlen
  have hlt := (FifoV3.not_full_iff s.rFifo).1 (by simpa using hroom)
  have hroom' : (s.step i).rFifo.fullO = false := (FifoV3.not_full_iff _).2 (by omega)
  refine ⟨?_, hstall.2⟩
  rw [arShown, hroom']
  exact hstall.1

/-- From a reset: the ports of the responses are those of the addresses handed
on, and these are handed on in the order in which they came. -/
theorem order_of_run (z : AR) (k : Fin n) (ins : List (DemuxReadIn n AR R)) :
    let s : DemuxRead n m AR := reset z k
    let s' := run step s ins
    tags (events step arGiven s ins) = tags (events step rMoved s ins) ++ s'.rFifo.contents ∧
      events step arTaken s ins = events step arGiven s ins ++ s'.arSpill.contents := by
  intro s s'
  have hkeeps : Along step Keeps s ins := along_of_forall step keeps s ins
  have hr := events_conserved (along_mono step (fun s i h => Keeps.r h) hkeeps)
  have har := events_conserved (along_mono step (fun s i h => Keeps.ar h) hkeeps)
  simp only [tags, events_map] at hr ⊢
  exact ⟨hr, har⟩

end DemuxRead

end SocRtl.Xbar
