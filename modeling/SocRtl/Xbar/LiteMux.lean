import SocRtl.Xbar.LiteDemux
import SocRtl.Xbar.RrArbTree

/-!
# SocRtl.Xbar.LiteMux — the multiplexer `axi_lite_mux`

Two or more masters in front, one slave behind: `gen_mux`. An arbiter picks an address; a
FIFO remembers the masters of the addresses for the data words, another one the
masters of the data words for the responses. Writes and reads share nothing.

As in the demultiplexer the latency mode is `CUT_ALL_AX`, which puts spill
registers on the addresses only, here behind the arbiter, and the FIFOs do not
fall through. With a single master the source generates `gen_no_mux` instead,
spill registers and wires without an arbiter and without FIFOs, which is not
modelled: at `n = 1` the definitions here are not the source's.

* `MuxWrite.order_of_run`: the data words are taken from the masters of the
  addresses, the responses go to the masters of the data words.
* `MuxRead.order_of_run`: the responses go to the masters of the addresses.
-/

namespace SocRtl.Xbar

open Handshake Fifo Tagged

/-! ## Writes -/

/-- The registers on the way of a write. -/
structure MuxWrite (n : ℕ) (m : MaxTrans) (AW : Type) where
  awArbiter : RrArb n
  lockAwValidQ : Bool
  wFifo : FifoV3 m.fifo (Fin n)
  bFifo : FifoV3 m.fifo (Fin n)
  awSpill : Spill AW

/-- What a clock edge samples: the masters and the slave. -/
structure MuxWriteIn (n : ℕ) (AW W B : Type) where
  awValids : Fin n → Bool
  aws : Fin n → AW
  wValids : Fin n → Bool
  ws : Fin n → W
  bReadies : Fin n → Bool
  awReady : Bool
  wReady : Bool
  bValid : Bool
  b : B

namespace MuxWrite

variable {n : ℕ} [NeZero n] {m : MaxTrans} {AW W B : Type}

/-- Reset, with `z` and `k` for the words that nothing reads. -/
def reset (z : AW) (k : Fin n) : MuxWrite n m AW := ⟨.reset, false, .reset k, .reset k, .reset z⟩

def awSelect (s : MuxWrite n m AW) (awValids : Fin n → Bool) : Fin n := s.awArbiter.idxO awValids

/-- The address picked, with `z` for the word that nothing reads. -/
def mstAwChan (z : AW) (s : MuxWrite n m AW) (awValids : Fin n → Bool) (aws : Fin n → AW) : AW :=
  s.awArbiter.dataO z awValids aws

/-- The address picked is shown to the spill register. -/
def awShown (s : MuxWrite n m AW) (awValids : Fin n → Bool) : Bool :=
  mstAwValid s.lockAwValidQ s.wFifo.fullO (s.awArbiter.reqO awValids)

def push (s : MuxWrite n m AW) (awValids : Fin n → Bool) : Bool :=
  wFifoPush s.lockAwValidQ s.wFifo.fullO (s.awArbiter.reqO awValids)

/-- The grant to the arbiter. -/
def awGrant (s : MuxWrite n m AW) (awValids : Fin n → Bool) : Bool :=
  awReady s.lockAwValidQ s.wFifo.fullO (s.awArbiter.reqO awValids) s.awSpill.readyO

def slvAwReadies (s : MuxWrite n m AW) (awValids : Fin n → Bool) (k : Fin n) : Bool :=
  s.awArbiter.gntO ⟨awValids, s.awGrant awValids⟩ k

def wSelect (s : MuxWrite n m AW) : Fin n := s.wFifo.front

/-- Data words may pass. -/
def wOpen (s : MuxWrite n m AW) : Bool := !s.wFifo.isEmpty && !s.bFifo.fullO

def mstWValid (s : MuxWrite n m AW) (wValids : Fin n → Bool) : Bool :=
  if s.wOpen then wValids s.wSelect else false

def slvWReadies (s : MuxWrite n m AW) (wReady : Bool) (k : Fin n) : Bool :=
  wReady && s.wOpen && s.wSelect == k

def wFifoPop (s : MuxWrite n m AW) (i : MuxWriteIn n AW W B) : Bool :=
  s.mstWValid i.wValids && i.wReady

def bSelect (s : MuxWrite n m AW) : Fin n := s.bFifo.front

def slvBValids (s : MuxWrite n m AW) (bValid : Bool) (k : Fin n) : Bool :=
  bValid && !s.bFifo.isEmpty && s.bSelect == k

def mstBReady (s : MuxWrite n m AW) (bReadies : Fin n → Bool) : Bool :=
  !s.bFifo.isEmpty && bReadies s.bSelect

def bFifoPop (s : MuxWrite n m AW) (i : MuxWriteIn n AW W B) : Bool :=
  i.bValid && s.mstBReady i.bReadies

/-- One clock edge of `gen_mux`: there are two masters or more. -/
def step (z : AW) (s : MuxWrite n m AW) (i : MuxWriteIn n AW W B) : MuxWrite n m AW where
  awArbiter := s.awArbiter.step ⟨i.awValids, s.awGrant i.awValids⟩
  lockAwValidQ := lockAwValidD s.lockAwValidQ s.wFifo.fullO (s.awArbiter.reqO i.awValids)
    s.awSpill.readyO
  wFifo := s.wFifo.step ⟨false, s.awSelect i.awValids, s.push i.awValids, s.wFifoPop i⟩
  bFifo := s.bFifo.step ⟨false, s.wSelect, s.wFifoPop i, s.bFifoPop i⟩
  awSpill := s.awSpill.step ⟨s.awShown i.awValids, s.mstAwChan z i.awValids i.aws, i.awReady⟩

/-! What an edge moves, with the master as a tag. -/

/-- The address accepted from a master. -/
def awTaken (z : AW) (s : MuxWrite n m AW) (i : MuxWriteIn n AW W B) : List (Fin n × AW) :=
  slot (s.awGrant i.awValids) (s.awSelect i.awValids, s.mstAwChan z i.awValids i.aws)

/-- The address that the slave takes. -/
def awGiven (s : MuxWrite n m AW) (i : MuxWriteIn n AW W B) : List AW :=
  slot (s.awSpill.validO && i.awReady) s.awSpill.dataO

/-- The data word of a master, which the slave takes. -/
def wMoved (s : MuxWrite n m AW) (i : MuxWriteIn n AW W B) : List (Fin n × W) :=
  slot (s.wFifoPop i) (s.wSelect, i.ws s.wSelect)

/-- The response of the slave, which a master takes. -/
def bMoved (s : MuxWrite n m AW) (i : MuxWriteIn n AW W B) : List (Fin n × B) :=
  slot (s.bFifoPop i) (s.bSelect, i.b)

/-- The master whose number is pushed. -/
def pushed (s : MuxWrite n m AW) (i : MuxWriteIn n AW W B) : List (Fin n) :=
  slot (s.push i.awValids) (s.awSelect i.awValids)

end MuxWrite

/-! ## Reads -/

/-- The registers on the way of a read. -/
structure MuxRead (n : ℕ) (m : MaxTrans) (AR : Type) where
  arArbiter : RrArb n
  rFifo : FifoV3 m.fifo (Fin n)
  arSpill : Spill AR

structure MuxReadIn (n : ℕ) (AR R : Type) where
  arValids : Fin n → Bool
  ars : Fin n → AR
  rReadies : Fin n → Bool
  arReady : Bool
  rValid : Bool
  r : R

namespace MuxRead

variable {n : ℕ} [NeZero n] {m : MaxTrans} {AR R : Type}

def reset (z : AR) (k : Fin n) : MuxRead n m AR := ⟨.reset, .reset k, .reset z⟩

def arSelect (s : MuxRead n m AR) (arValids : Fin n → Bool) : Fin n := s.arArbiter.idxO arValids

def mstArChan (z : AR) (s : MuxRead n m AR) (arValids : Fin n → Bool) (ars : Fin n → AR) : AR :=
  s.arArbiter.dataO z arValids ars

def mstArValid (s : MuxRead n m AR) (arValids : Fin n → Bool) : Bool :=
  if s.rFifo.fullO then false else s.arArbiter.reqO arValids

/-- The grant to the arbiter. -/
def arGrant (s : MuxRead n m AR) : Bool := if s.rFifo.fullO then false else s.arSpill.readyO

def slvArReadies (s : MuxRead n m AR) (arValids : Fin n → Bool) (k : Fin n) : Bool :=
  s.arArbiter.gntO ⟨arValids, s.arGrant⟩ k

def rFifoPush (s : MuxRead n m AR) (arValids : Fin n → Bool) : Bool :=
  s.mstArValid arValids && s.arSpill.readyO

def rSelect (s : MuxRead n m AR) : Fin n := s.rFifo.front

def slvRValids (s : MuxRead n m AR) (rValid : Bool) (k : Fin n) : Bool :=
  rValid && !s.rFifo.isEmpty && s.rSelect == k

def mstRReady (s : MuxRead n m AR) (rReadies : Fin n → Bool) : Bool :=
  !s.rFifo.isEmpty && rReadies s.rSelect

def rFifoPop (s : MuxRead n m AR) (i : MuxReadIn n AR R) : Bool :=
  i.rValid && s.mstRReady i.rReadies

/-- One clock edge of `gen_mux`: there are two masters or more. -/
def step (z : AR) (s : MuxRead n m AR) (i : MuxReadIn n AR R) : MuxRead n m AR where
  arArbiter := s.arArbiter.step ⟨i.arValids, s.arGrant⟩
  rFifo := s.rFifo.step ⟨false, s.arSelect i.arValids, s.rFifoPush i.arValids, s.rFifoPop i⟩
  arSpill := s.arSpill.step ⟨s.mstArValid i.arValids, s.mstArChan z i.arValids i.ars, i.arReady⟩

/-- The address accepted from a master. -/
def arTaken (z : AR) (s : MuxRead n m AR) (i : MuxReadIn n AR R) : List (Fin n × AR) :=
  slot (s.rFifoPush i.arValids) (s.arSelect i.arValids, s.mstArChan z i.arValids i.ars)

/-- The address that the slave takes. -/
def arGiven (s : MuxRead n m AR) (i : MuxReadIn n AR R) : List AR :=
  slot (s.arSpill.validO && i.arReady) s.arSpill.dataO

/-- The response of the slave, which a master takes. -/
def rMoved (s : MuxRead n m AR) (i : MuxReadIn n AR R) : List (Fin n × R) :=
  slot (s.rFifoPop i) (s.rSelect, i.r)

end MuxRead

/-! ## The handshake with a master -/

namespace RrArb

variable {n : ℕ} [NeZero n] {s : RrArb n}

/-- A handshake at an input is a grant to a request handed up from there. -/
theorem handshake_iff {i : RrArbIn n} (hlock : s.LockReq i)
    (hreq : i.gntI = true → s.reqO i.reqI = true)
    (k : Fin n) :
    (i.reqI k && s.gntO i k) = (i.gntI && decide (s.idxO i.reqI = k)) := by
  cases hg : i.gntI with
  | false =>
      -- no grant from outside, no handshake
      have hnone : s.gntO i k = false := by
        rw [gntO, hg]
        exact gntBelow_false _ _ _
      rw [hnone, Bool.and_false, Bool.false_and]
  | true =>
      -- the grant goes to the input picked, which requests under the assumption
      have ho := hreq hg
      have hgnt := (s.picks.{0} ho).2.2.1 i.gntI k
      have hgnt' : s.gntO i k = (decide (k = s.idxO i.reqI) && i.gntI) := hgnt
      rw [hgnt', hg, Bool.and_true, Bool.true_and]
      by_cases hk : k = s.idxO i.reqI
      · rw [hk, reqI_of_reqD hlock (s.picks.{0} ho).1]
        simp
      · rw [decide_eq_false hk, Bool.and_false, decide_eq_false (Ne.symm hk)]

end RrArb

/-! ## The order of writes -/

namespace MuxWrite

variable {n : ℕ} [NeZero n] {m : MaxTrans} {AW W B : Type} {s : MuxWrite n m AW}
  {i : MuxWriteIn n AW W B}

omit [NeZero n] in
theorem push_of_unlocked (hlock : s.lockAwValidQ = false) (awValids : Fin n → Bool) :
    s.push awValids = s.awShown awValids := by
  rw [push, awShown, wFifoPush, mstAwValid, hlock]
  rfl

omit [NeZero n] in
theorem shown_of_lock (hlock : s.lockAwValidQ = true) (awValids : Fin n → Bool) :
    s.awShown awValids = true ∧ s.push awValids = false := by
  rw [awShown, push, mstAwValid, wFifoPush, hlock]
  exact ⟨rfl, rfl⟩

/-- The arbiter has locked some request, and while an address is locked it has
locked that one. -/
structure Locked (s : MuxWrite n m AW) : Prop where
  some : s.awArbiter.LockedSome
  lock : s.lockAwValidQ = true → s.awArbiter.lockQ = true

omit [NeZero n] in
/-- A locked arbiter does not look at the requests. -/
theorem reqO_of_lock (hlocked : s.Locked) (hlock : s.lockAwValidQ = true)
    (awValids : Fin n → Bool) :
    s.awArbiter.reqO awValids = true := by
  obtain ⟨p, hp⟩ := hlocked.some (hlocked.lock hlock)
  rw [RrArb.reqO_iff]
  exact ⟨p, by rw [RrArb.reqD, if_pos (hlocked.lock hlock), hp]⟩

theorem awSelect_of_lock (hlocked : s.Locked) (hlock : s.lockAwValidQ = true)
    (awValids awValids' : Fin n → Bool) : s.awSelect awValids = s.awSelect awValids' := by
  simp only [awSelect, RrArb.idxO, RrArb.reqD, if_pos (hlocked.lock hlock)]

omit [NeZero n] in
theorem reqO_of_shown (hlocked : s.Locked) {awValids : Fin n → Bool}
    (h : s.awShown awValids = true) : s.awArbiter.reqO awValids = true := by
  unfold awShown mstAwValid at h
  split at h
  · rename_i hlock
    exact reqO_of_lock hlocked hlock awValids
  · exact (Bool.and_eq_true_iff.1 h).2

omit [NeZero n] in
theorem awGrant_eq (s : MuxWrite n m AW) (awValids : Fin n → Bool) :
    s.awGrant awValids = (s.awShown awValids && s.awSpill.readyO) := awReady_eq _ _ _ _

theorem lock_step_eq (z : AW) (s : MuxWrite n m AW) (i : MuxWriteIn n AW W B) :
    (s.step z i).lockAwValidQ = (s.awShown i.awValids && !s.awSpill.readyO) :=
  lockAwValidD_eq _ _ _ _

/-- An address that is shown and not taken is locked, and picked again. -/
theorem lock_step (z : AW) (hlocked : s.Locked) (hshown : s.awShown i.awValids = true)
    (hready : s.awGrant i.awValids = false) (awValids' : Fin n → Bool) :
    (s.step z i).lockAwValidQ = true ∧ (s.step z i).awSelect awValids' = s.awSelect i.awValids := by
  have hlow : s.awSpill.readyO = false := by rwa [awGrant_eq, hshown, Bool.true_and] at hready
  refine ⟨by rw [lock_step_eq, hshown, hlow]; rfl, ?_⟩
  have hstay := s.awArbiter.picked_stays (reqO_of_shown hlocked hshown) awValids'
  have harb : (s.step z i).awArbiter = s.awArbiter.step ⟨i.awValids, s.awGrant i.awValids⟩ := rfl
  rw [awSelect, harb, hready]
  exact hstay.2.2

theorem unlocked_step (z : AW) (h : s.awShown i.awValids = false ∨ s.awGrant i.awValids = true) :
    (s.step z i).lockAwValidQ = false := by
  rw [lock_step_eq]
  rcases h with h | h
  · rw [h, Bool.false_and]
  · rw [awGrant_eq, Bool.and_eq_true] at h
    rw [h.2, Bool.not_true, Bool.and_false]

omit [NeZero n] in
theorem locked_reset (z : AW) (k : Fin n) : (reset z k : MuxWrite n m AW).Locked :=
  ⟨fun h => absurd h Bool.false_ne_true, fun h => absurd h Bool.false_ne_true⟩

theorem locked_step (z : AW) (hlocked : s.Locked) (i : MuxWriteIn n AW W B) :
    (s.step z i).Locked := by
  refine ⟨s.awArbiter.lockedSome_step ⟨i.awValids, s.awGrant i.awValids⟩, ?_⟩
  intro hlock
  rw [lock_step_eq, Bool.and_eq_true, Bool.not_eq_true'] at hlock
  have harb : (s.step z i).awArbiter.lockQ
      = (s.awArbiter.reqO i.awValids && !s.awGrant i.awValids) := rfl
  rw [harb, reqO_of_shown hlocked hlock.1, awGrant_eq, hlock.2, Bool.and_false]
  rfl

/-- The master pushed whose address has not been taken yet. -/
def unsent (s : MuxWrite n m AW) : List (Fin n) :=
  if s.lockAwValidQ then [s.awSelect fun _ => false] else []

/-- What an edge does to the addresses and the FIFOs. -/
structure Keeps (z : AW) (s : MuxWrite n m AW) (i : MuxWriteIn n AW W B) : Prop where
  aw : s.awSpill.contents ++ (s.awTaken z i).map Prod.snd
    = s.awGiven i ++ (s.step z i).awSpill.contents
  sel : s.unsent ++ s.pushed i = tags (s.awTaken z i) ++ (s.step z i).unsent
  w : s.wFifo.contents ++ s.pushed i = tags (s.wMoved i) ++ (s.step z i).wFifo.contents
  b : s.bFifo.contents ++ tags (s.wMoved i) = tags (s.bMoved i) ++ (s.step z i).bFifo.contents

/-- The number of a master is pushed when its address is first shown. -/
theorem sel_step (z : AW) (hlocked : s.Locked) :
    s.unsent ++ s.pushed i = tags (s.awTaken z i) ++ (s.step z i).unsent := by
  rw [awTaken, tags_slot]
  cases hshown : s.awShown i.awValids with
  | false =>
      -- nothing is shown: nothing is locked, pushed or taken
      have hlow := hshown
      unfold awShown mstAwValid at hlow
      split at hlow
      · cases hlow
      · rename_i hlock
        have hgrant : s.awGrant i.awValids = false := by rw [awGrant_eq, hshown, Bool.false_and]
        rw [unsent, if_neg hlock, pushed, push, wFifoPush, if_neg hlock, hlow, hgrant, unsent,
          unlocked_step z (.inl hshown)]
        rfl
  | true =>
      -- the master shown is the locked one, or it is pushed now
      have hleft : s.unsent ++ s.pushed i = [s.awSelect i.awValids] := by
        have hhigh := hshown
        unfold awShown mstAwValid at hhigh
        unfold unsent pushed push wFifoPush
        split at hhigh
        · rename_i hlock
          rw [if_pos hlock, if_pos hlock,
            awSelect_of_lock hlocked hlock (fun _ => false) i.awValids]
          rfl
        · rename_i hlock
          rw [if_neg hlock, if_neg hlock, hhigh]
          rfl
      rw [hleft]
      cases hgrant : s.awGrant i.awValids with
      | true =>
          rw [unsent, unlocked_step z (.inr hgrant)]
          rfl
      | false =>
          -- the spill register stalls: the arbiter stays with this master
          obtain ⟨hlock, hsel⟩ := lock_step z hlocked hshown hgrant fun _ => false
          rw [unsent, if_pos hlock, hsel]
          rfl

theorem aw_step (z : AW) (s : MuxWrite n m AW) (i : MuxWriteIn n AW W B) :
    s.awSpill.contents ++ (s.awTaken z i).map Prod.snd
      = s.awGiven i ++ (s.step z i).awSpill.contents := by
  have hstep := s.awSpill.contents_step
    ⟨s.awShown i.awValids, s.mstAwChan z i.awValids i.aws, i.awReady⟩
  have hpush : (s.awTaken z i).map Prod.snd
      = s.awSpill.pushed ⟨s.awShown i.awValids, s.mstAwChan z i.awValids i.aws, i.awReady⟩ := by
    rw [awTaken, Spill.pushed, awGrant_eq]
    cases s.awShown i.awValids && s.awSpill.readyO <;> rfl
  rw [hpush]
  exact hstep

omit [NeZero n] in
/-- A data word moves when its master is in one FIFO and the other has room. -/
theorem open_of_wFifoPop (hpop : s.wFifoPop i = true) :
    s.wFifo.isEmpty = false ∧ s.bFifo.fullO = false := by
  have hopen : s.wOpen = true := by
    cases hopen : s.wOpen with
    | true => rfl
    | false => simp [wFifoPop, mstWValid, hopen] at hpop
  simpa [wOpen] using hopen

omit [NeZero n] in
theorem some_of_bFifoPop (hpop : s.bFifoPop i = true) : s.bFifo.isEmpty = false := by
  simp only [bFifoPop, mstBReady, Bool.and_eq_true, Bool.not_eq_true'] at hpop
  exact hpop.2.1

theorem keeps (z : AW) (hlocked : s.Locked) (i : MuxWriteIn n AW W B) : s.Keeps z i := by
  refine ⟨aw_step z s i, sel_step z hlocked, ?_, ?_⟩
  · rw [wMoved, tags_slot]
    refine s.wFifo.used_step _ ?_ fun hpop => (open_of_wFifoPop hpop).1
    intro hpush
    -- a push needs room in the FIFO of the data words
    unfold push wFifoPush at hpush
    split at hpush
    · cases hpush
    · simpa using (Bool.and_eq_true_iff.1 hpush).1
  · rw [wMoved, tags_slot, bMoved, tags_slot]
    exact s.bFifo.used_step _ (fun hpop => (open_of_wFifoPop hpop).2) some_of_bFifoPop

omit [NeZero n] in
/-- What is popped is in front. -/
theorem wMoved_front (s : MuxWrite n m AW) (i : MuxWriteIn n AW W B) :
    tags (s.wMoved i) <+: s.wFifo.contents := by
  rw [wMoved, tags_slot]
  exact FifoV3.slot_front fun hpop => (open_of_wFifoPop hpop).1

omit [NeZero n] in
theorem bMoved_front (s : MuxWrite n m AW) (i : MuxWriteIn n AW W B) :
    tags (s.bMoved i) <+: s.bFifo.contents := by
  rw [bMoved, tags_slot]
  exact FifoV3.slot_front some_of_bFifoPop

theorem along_keeps (z z' : AW) (k : Fin n) (ins : List (MuxWriteIn n AW W B)) :
    Along (step z) (Keeps z) (reset z' k : MuxWrite n m AW) ins :=
  along_mono (step z) (fun _ i h => keeps z h i)
    (along_of_preserved (step z) Locked (fun _ i h => locked_step z h i) (locked_reset z' k) ins)

/-- From a reset: the masters of the responses are those of the data words,
these are the masters pushed, and these are the masters of the addresses, each
as far as it goes. The slave gets the addresses in the order of their masters. -/
theorem order_of_run (z z' : AW) (k : Fin n) (ins : List (MuxWriteIn n AW W B)) :
    let s : MuxWrite n m AW := reset z' k
    let s' := run (step z) s ins
    events (step z) pushed s ins = tags (events (step z) wMoved s ins) ++ s'.wFifo.contents ∧
      tags (events (step z) wMoved s ins)
        = tags (events (step z) bMoved s ins) ++ s'.bFifo.contents ∧
      events (step z) pushed s ins = tags (events (step z) (awTaken z) s ins) ++ s'.unsent ∧
      (events (step z) (awTaken z) s ins).map Prod.snd
        = events (step z) awGiven s ins ++ s'.awSpill.contents := by
  intro s s'
  have hkeeps := along_keeps (m := m) z z' k ins
  have hw := events_conserved (along_mono (step z) (fun s i h => Keeps.w h) hkeeps)
  have hb := events_conserved (along_mono (step z) (fun s i h => Keeps.b h) hkeeps)
  have hsel := events_conserved (along_mono (step z) (fun s i h => Keeps.sel h) hkeeps)
  have haw := events_conserved (along_mono (step z) (fun s i h => Keeps.aw h) hkeeps)
  simp only [tags, events_map] at hw hb hsel haw ⊢
  exact ⟨hw, hb, hsel, haw⟩

/-- A handshake of a master on the AW channel is the address taken from it. -/
theorem aw_handshake (hlocked : s.Locked) {awValids : Fin n → Bool}
    (hreq : s.awArbiter.LockReq ⟨awValids, s.awGrant awValids⟩) (k : Fin n) :
    (awValids k && s.slvAwReadies awValids k)
      = (s.awGrant awValids && decide (s.awSelect awValids = k)) := by
  apply RrArb.handshake_iff (i := ⟨awValids, s.awGrant awValids⟩) hreq
  intro (hgrant : s.awGrant awValids = true)
  rw [awGrant_eq, Bool.and_eq_true] at hgrant
  exact reqO_of_shown hlocked hgrant.1

end MuxWrite

/-! ## The order of reads -/

namespace MuxRead

variable {n : ℕ} [NeZero n] {m : MaxTrans} {AR R : Type} {s : MuxRead n m AR}
  {i : MuxReadIn n AR R}

omit [NeZero n] in
theorem rFifoPush_eq (s : MuxRead n m AR) (arValids : Fin n → Bool) :
    s.rFifoPush arValids = (s.arGrant && s.arArbiter.reqO arValids) := by
  rw [rFifoPush, mstArValid, arGrant]
  split
  · rfl
  · exact Bool.and_comm _ _

/-- What an edge does to the addresses and the FIFO. -/
structure Keeps (z : AR) (s : MuxRead n m AR) (i : MuxReadIn n AR R) : Prop where
  ar : s.arSpill.contents ++ (s.arTaken z i).map Prod.snd
    = s.arGiven i ++ (s.step z i).arSpill.contents
  r : s.rFifo.contents ++ tags (s.arTaken z i) = tags (s.rMoved i) ++ (s.step z i).rFifo.contents

omit [NeZero n] in
theorem some_of_rFifoPop (hpop : s.rFifoPop i = true) : s.rFifo.isEmpty = false := by
  simp only [rFifoPop, mstRReady, Bool.and_eq_true, Bool.not_eq_true'] at hpop
  exact hpop.2.1

theorem keeps (z : AR) (s : MuxRead n m AR) (i : MuxReadIn n AR R) : s.Keeps z i := by
  refine ⟨?_, ?_⟩
  · have hstep := s.arSpill.contents_step
      ⟨s.mstArValid i.arValids, s.mstArChan z i.arValids i.ars, i.arReady⟩
    have hpush : (s.arTaken z i).map Prod.snd
        = s.arSpill.pushed
            ⟨s.mstArValid i.arValids, s.mstArChan z i.arValids i.ars, i.arReady⟩ := by
      rw [arTaken, Spill.pushed, rFifoPush]
      cases s.mstArValid i.arValids && s.arSpill.readyO <;> rfl
    rw [hpush]
    exact hstep
  · rw [arTaken, tags_slot, rMoved, tags_slot]
    refine s.rFifo.used_step _ ?_ some_of_rFifoPop
    intro hpush
    simp only [rFifoPush, mstArValid, Bool.and_eq_true] at hpush
    cases hfull : s.rFifo.fullO with
    | false => rfl
    | true => simp [hfull] at hpush

omit [NeZero n] in
/-- What is popped is in front. -/
theorem rMoved_front (s : MuxRead n m AR) (i : MuxReadIn n AR R) :
    tags (s.rMoved i) <+: s.rFifo.contents := by
  rw [rMoved, tags_slot]
  exact FifoV3.slot_front some_of_rFifoPop

/-- From a reset: the masters of the responses are those of the addresses, and
the slave gets the addresses in the order of their masters. -/
theorem order_of_run (z z' : AR) (k : Fin n) (ins : List (MuxReadIn n AR R)) :
    let s : MuxRead n m AR := reset z' k
    let s' := run (step z) s ins
    tags (events (step z) (arTaken z) s ins)
        = tags (events (step z) rMoved s ins) ++ s'.rFifo.contents ∧
      (events (step z) (arTaken z) s ins).map Prod.snd
        = events (step z) arGiven s ins ++ s'.arSpill.contents := by
  intro s s'
  have hkeeps : Along (step z) (Keeps z) s ins := along_of_forall (step z) (keeps z) s ins
  have hr := events_conserved (along_mono (step z) (fun s i h => Keeps.r h) hkeeps)
  have har := events_conserved (along_mono (step z) (fun s i h => Keeps.ar h) hkeeps)
  simp only [tags, events_map] at hr har ⊢
  exact ⟨hr, har⟩

/-- A handshake of a master on the AR channel is the address taken from it. -/
theorem ar_handshake (hsome : s.arArbiter.LockedSome) {arValids : Fin n → Bool}
    (hreq : s.arArbiter.LockReq ⟨arValids, s.arGrant⟩) (k : Fin n) :
    (arValids k && s.slvArReadies arValids k)
      = (s.rFifoPush arValids && decide (s.arSelect arValids = k)) := by
  cases ho : s.arArbiter.reqO arValids with
  | true =>
      have hshake := RrArb.handshake_iff (i := ⟨arValids, s.arGrant⟩) hreq (fun _ => ho) k
      rw [rFifoPush_eq, ho, Bool.and_true]
      exact hshake
  | false =>
      -- no request, no handshake
      have hnone : arValids k = false := by
        cases hk : arValids k with
        | false => rfl
        | true =>
            have hreqO := RrArb.reqO_of_reqI (i := ⟨arValids, s.arGrant⟩) hsome hk
            exact absurd (ho.symm.trans hreqO) Bool.false_ne_true
      rw [hnone, rFifoPush_eq, ho]
      simp

end MuxRead

end SocRtl.Xbar
