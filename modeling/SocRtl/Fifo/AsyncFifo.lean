import SocRtl.Lib.Clocked
import SocRtl.Lib.Gray

/-!
# SocRtl.Fifo.AsyncFifo — the dual-clock FIFO of `dip_async_fifo`

Each clock domain keeps a binary and a Gray pointer and a registered flag; the
other domain sees the Gray pointer through two flops. A run is a list of
instants, and an instant is an edge of `wr_clk`, an edge of `rd_clk`, both at
once, or neither, so the lists are the interleavings of the two clocks.

The invariant attaches counters to the registers: how many words were written
and read, and which counts the synchronizers hold. The flags compare counts
that lag behind, so they can only err on the safe side, with one exception.
`rd_empty` is reset to 0, and until the first edge of `rd_clk` nothing stands
behind it.
-/

namespace SocRtl.Fifo

open Gray

/-! ## Model -/

/-- The registers of `asyn_fifo_wptr_full` with `ADR_BIT = A`. -/
structure WptrFull (A : ℕ) where
  tempWrFull : Bool
  tempWrAddr : BitVec (A + 1)
  tempWrPtr : BitVec (A + 1)

namespace WptrFull

variable {A : ℕ}

def reset : WptrFull A := ⟨false, 0, 0⟩

def wrEn (s : WptrFull A) (wrReq : Bool) : Bool := wrReq && !s.tempWrFull

def wadrNextBin (s : WptrFull A) (wrReq : Bool) : BitVec (A + 1) :=
  if s.wrEn wrReq then s.tempWrAddr + 1 else s.tempWrAddr

def wptrNextGray (s : WptrFull A) (wrReq : Bool) : BitVec (A + 1) :=
  bin2gray (s.wadrNextBin wrReq)

/-- The next write pointer is the synchronized read pointer with its two top
bits inverted. -/
def fullFlag (s : WptrFull A) (syncR2wRptr : BitVec (A + 1)) (wrReq : Bool) : Bool :=
  decide (s.wptrNextGray wrReq = flipTopTwo syncR2wRptr)

/-- An edge of `wr_clk`. -/
def step (s : WptrFull A) (syncR2wRptr : BitVec (A + 1)) (wrReq : Bool) : WptrFull A where
  tempWrFull := s.fullFlag syncR2wRptr wrReq
  tempWrAddr := s.wadrNextBin wrReq
  tempWrPtr := s.wptrNextGray wrReq

end WptrFull

/-- The registers of `async_fifo_rptr_empty` with `ADR_BIT = A`. -/
structure RptrEmpty (A : ℕ) where
  tempRdEmpty : Bool
  tempAddrBin : BitVec (A + 1)
  tempPtrGray : BitVec (A + 1)

namespace RptrEmpty

variable {A : ℕ}

/-- The comment in the source wants the FIFO empty on reset; the flag is
reset to 0. -/
def reset : RptrEmpty A := ⟨false, 0, 0⟩

def rdEn (s : RptrEmpty A) (rdReq : Bool) : Bool := rdReq && !s.tempRdEmpty

def radrNextBin (s : RptrEmpty A) (rdReq : Bool) : BitVec (A + 1) :=
  if s.rdEn rdReq then s.tempAddrBin + 1 else s.tempAddrBin

def rptrNextGray (s : RptrEmpty A) (rdReq : Bool) : BitVec (A + 1) :=
  bin2gray (s.radrNextBin rdReq)

def emptyFlag (s : RptrEmpty A) (syncW2rWptr : BitVec (A + 1)) (rdReq : Bool) : Bool :=
  decide (s.rptrNextGray rdReq = syncW2rWptr)

/-- An edge of `rd_clk`. -/
def step (s : RptrEmpty A) (syncW2rWptr : BitVec (A + 1)) (rdReq : Bool) : RptrEmpty A where
  tempRdEmpty := s.emptyFlag syncW2rWptr rdReq
  tempAddrBin := s.radrNextBin rdReq
  tempPtrGray := s.rptrNextGray rdReq

end RptrEmpty

/-- The two flops of `async_fifo_SYNC_2T`. -/
structure Sync2T (w : ℕ) where
  syncData1t : BitVec w
  syncData2t : BitVec w

namespace Sync2T

variable {w : ℕ}

def reset : Sync2T w := ⟨0, 0⟩

/-- An edge of the receiving clock. -/
def step (s : Sync2T w) (iSyncData : BitVec w) : Sync2T w := ⟨iSyncData, s.syncData1t⟩

end Sync2T

/-- The registers of `async_fifo` with `ADR_BIT = A` and `DAT_BIT = D`. -/
structure AsyncFifo (A D : ℕ) where
  wptrFull : WptrFull A
  rptrEmpty : RptrEmpty A
  syncW2r : Sync2T (A + 1)
  syncR2w : Sync2T (A + 1)
  regMemory : BitVec A → BitVec D

/-- What an edge of `wr_clk` samples. -/
structure WrPort (D : ℕ) where
  wrReq : Bool
  wrData : BitVec D

/-- What an edge of `rd_clk` samples. -/
structure RdPort where
  rdReq : Bool

/-- An instant at which one clock has an edge, or both, or neither. -/
structure Instant (D : ℕ) where
  wr : Option (WrPort D)
  rd : Option RdPort

namespace AsyncFifo

variable {A D : ℕ}

/-- Joint reset. The memory keeps what it held. -/
def reset (s : AsyncFifo A D) : AsyncFifo A D where
  wptrFull := WptrFull.reset
  rptrEmpty := RptrEmpty.reset
  syncW2r := Sync2T.reset
  syncR2w := Sync2T.reset
  regMemory := s.regMemory

def memWrEn (s : AsyncFifo A D) (p : WrPort D) : Bool := p.wrReq && !s.wptrFull.tempWrFull

def memRdEn (s : AsyncFifo A D) (p : RdPort) : Bool := p.rdReq && !s.rptrEmpty.tempRdEmpty

def memWrAddr (s : AsyncFifo A D) : BitVec A := Ring.low s.wptrFull.tempWrAddr

def memRdAddr (s : AsyncFifo A D) : BitVec A := Ring.low s.rptrEmpty.tempAddrBin

/-- `rd_data` is the memory word at the read address. -/
def rdData (s : AsyncFifo A D) : BitVec D := s.regMemory s.memRdAddr

/-- The registers after an instant. Every register is updated from the values
before it, also when both clocks have an edge. -/
def step (s : AsyncFifo A D) (i : Instant D) : AsyncFifo A D where
  wptrFull :=
    match i.wr with
    | some p => s.wptrFull.step s.syncR2w.syncData2t p.wrReq
    | none => s.wptrFull
  rptrEmpty :=
    match i.rd with
    | some p => s.rptrEmpty.step s.syncW2r.syncData2t p.rdReq
    | none => s.rptrEmpty
  syncW2r :=
    match i.rd with
    | some _ => s.syncW2r.step s.wptrFull.tempWrPtr
    | none => s.syncW2r
  syncR2w :=
    match i.wr with
    | some _ => s.syncR2w.step s.rptrEmpty.tempPtrGray
    | none => s.syncR2w
  regMemory :=
    match i.wr with
    | some p =>
      if s.memWrEn p then Function.update s.regMemory s.memWrAddr p.wrData else s.regMemory
    | none => s.regMemory

/-- The word written at the instant, as a list of length at most one. -/
def written (s : AsyncFifo A D) (i : Instant D) : List (BitVec D) :=
  match i.wr with
  | some p => if s.memWrEn p then [p.wrData] else []
  | none => []

/-- The word shown to a granted read at the instant. -/
def shown (s : AsyncFifo A D) (i : Instant D) : List (BitVec D) :=
  match i.rd with
  | some p => if s.memRdEn p then [s.rdData] else []
  | none => []

/-- The words of the granted writes of a run. -/
def writes (s : AsyncFifo A D) (ins : List (Instant D)) : List (BitVec D) :=
  events step written s ins

/-- The data shown at the granted reads of a run. -/
def reads (s : AsyncFifo A D) (ins : List (Instant D)) : List (BitVec D) :=
  events step shown s ins

/-! ## Counters behind the registers -/

/-- How many words were written and read, and the counts whose Gray codes the
synchronizers hold. -/
structure Count where
  w : ℕ
  w1 : ℕ
  w2 : ℕ
  r : ℕ
  r1 : ℕ
  r2 : ℕ

/-- The counters after an instant with `gw` granted writes and `gr` granted
reads. -/
def Count.next (c : Count) (i : Instant D) (gw gr : ℕ) : Count where
  w := c.w + gw
  w1 := if i.rd.isSome then c.w else c.w1
  w2 := if i.rd.isSome then c.w1 else c.w2
  r := c.r + gr
  r1 := if i.wr.isSome then c.r else c.r1
  r2 := if i.wr.isSome then c.r1 else c.r2

/-- The registers hold the counters. -/
structure Tracks (s : AsyncFifo A D) (c : Count) : Prop where
  wrAddr : s.wptrFull.tempWrAddr = BitVec.ofNat (A + 1) c.w
  wrPtr : s.wptrFull.tempWrPtr = ofCount (A + 1) c.w
  rdAddr : s.rptrEmpty.tempAddrBin = BitVec.ofNat (A + 1) c.r
  rdPtr : s.rptrEmpty.tempPtrGray = ofCount (A + 1) c.r
  w2r1 : s.syncW2r.syncData1t = ofCount (A + 1) c.w1
  w2r2 : s.syncW2r.syncData2t = ofCount (A + 1) c.w2
  r2w1 : s.syncR2w.syncData1t = ofCount (A + 1) c.r1
  r2w2 : s.syncR2w.syncData2t = ofCount (A + 1) c.r2

theorem tracks_reset (s : AsyncFifo A D) : Tracks s.reset ⟨0, 0, 0, 0, 0, 0⟩ := by
  have h : ofCount (A + 1) 0 = 0 := by simp [ofCount, bin2gray]
  constructor <;> simp [reset, WptrFull.reset, RptrEmpty.reset, Sync2T.reset, h]

theorem ofNat_succ (w n : ℕ) : BitVec.ofNat w n + 1 = BitVec.ofNat w (n + 1) := by
  rw [BitVec.ofNat_add]
  rfl

/-- The write pointer moves by the number of granted writes. -/
theorem wadrNextBin_eq {s : AsyncFifo A D} {c : Count} (h : Tracks s c) {i : Instant D}
    {p : WrPort D} (hi : i.wr = some p) :
    s.wptrFull.wadrNextBin p.wrReq = BitVec.ofNat (A + 1) (c.w + (s.written i).length) := by
  simp only [WptrFull.wadrNextBin, WptrFull.wrEn, written, memWrEn, hi, h.wrAddr, ofNat_succ]
  by_cases hen : (p.wrReq && !s.wptrFull.tempWrFull) = true <;> simp only [hen] <;> simp

/-- The read pointer moves by the number of granted reads. -/
theorem radrNextBin_eq {s : AsyncFifo A D} {c : Count} (h : Tracks s c) {i : Instant D}
    {p : RdPort} (hi : i.rd = some p) :
    s.rptrEmpty.radrNextBin p.rdReq = BitVec.ofNat (A + 1) (c.r + (s.shown i).length) := by
  simp only [RptrEmpty.radrNextBin, RptrEmpty.rdEn, shown, memRdEn, hi, h.rdAddr, ofNat_succ]
  by_cases hen : (p.rdReq && !s.rptrEmpty.tempRdEmpty) = true <;> simp only [hen] <;> simp

/-- An instant moves the registers and the counters together. -/
theorem tracks_step {s : AsyncFifo A D} {c : Count} (h : Tracks s c) (i : Instant D) :
    Tracks (s.step i) (c.next i (s.written i).length (s.shown i).length) := by
  have hwr : i.wr = none → (s.written i).length = 0 := by
    intro hi
    simp [written, hi]
  have hrd : i.rd = none → (s.shown i).length = 0 := by
    intro hi
    simp [shown, hi]
  rcases id h with ⟨h1, h2, h3, h4, h5, h6, h7, h8⟩
  cases hw : i.wr with
  | none =>
      cases hr : i.rd with
      | none => constructor <;> simp_all [step, Count.next]
      | some p =>
          have hnext := radrNextBin_eq h hr
          constructor <;>
            simp_all [step, Count.next, RptrEmpty.step, RptrEmpty.rptrNextGray, Sync2T.step,
              ofCount]
  | some q =>
      have hnextw := wadrNextBin_eq h hw
      cases hr : i.rd with
      | none =>
          constructor <;>
            simp_all [step, Count.next, WptrFull.step, WptrFull.wptrNextGray, Sync2T.step, ofCount]
      | some p =>
          have hnext := radrNextBin_eq h hr
          constructor <;>
            simp_all [step, Count.next, WptrFull.step, WptrFull.wptrNextGray, RptrEmpty.step,
              RptrEmpty.rptrNextGray, Sync2T.step, ofCount]

/-! ## What the flags compare -/

theorem length_written_le (s : AsyncFifo A D) (i : Instant D) : (s.written i).length ≤ 1 := by
  unfold written
  repeat' split
  all_goals simp

theorem length_shown_le (s : AsyncFifo A D) (i : Instant D) : (s.shown i).length ≤ 1 := by
  unfold shown
  repeat' split
  all_goals simp

/-- A granted write was requested and found `wr_full` low. -/
theorem of_written_pos {s : AsyncFifo A D} {i : Instant D} (h : 0 < (s.written i).length) :
    ∃ p, i.wr = some p ∧ p.wrReq = true ∧ s.wptrFull.tempWrFull = false := by
  cases hi : i.wr with
  | none => simp [written, hi] at h
  | some p =>
      cases hen : s.memWrEn p with
      | false => simp [written, hi, hen] at h
      | true =>
          rw [memWrEn, Bool.and_eq_true, Bool.not_eq_true'] at hen
          exact ⟨p, rfl, hen⟩

/-- A granted read was requested and found `rd_empty` low. -/
theorem of_shown_pos {s : AsyncFifo A D} {i : Instant D} (h : 0 < (s.shown i).length) :
    ∃ p, i.rd = some p ∧ p.rdReq = true ∧ s.rptrEmpty.tempRdEmpty = false := by
  cases hi : i.rd with
  | none => simp [shown, hi] at h
  | some p =>
      cases hen : s.memRdEn p with
      | false => simp [shown, hi, hen] at h
      | true =>
          rw [memRdEn, Bool.and_eq_true, Bool.not_eq_true'] at hen
          exact ⟨p, rfl, hen⟩

/-- `wr_full` compares the words written with the reads the writer knows of. -/
theorem tempWrFull_step (hA : 1 ≤ A) {s : AsyncFifo A D} {c : Count} (h : Tracks s c)
    {i : Instant D} {p : WrPort D} (hi : i.wr = some p) (hge : c.r2 ≤ c.w)
    (hle : c.w + (s.written i).length ≤ c.r2 + 2 ^ A) :
    (s.step i).wptrFull.tempWrFull
      = decide (c.w + (s.written i).length = c.r2 + 2 ^ A) := by
  have hpow : 2 ^ (A + 1) = 2 * 2 ^ A := pow_succ' 2 A
  have hstep : (s.step i).wptrFull.tempWrFull
      = s.wptrFull.fullFlag s.syncR2w.syncData2t p.wrReq := by
    simp [step, WptrFull.step, hi]
  rw [hstep, WptrFull.fullFlag, WptrFull.wptrNextGray, wadrNextBin_eq h hi, h.r2w2,
    flipTopTwo_ofCount hA]
  rw [← ofCount, decide_eq_decide]
  have hpos : 0 < 2 ^ A := Nat.two_pow_pos A
  exact ofCount_eq_iff_of_lt hle (by omega)

/-- `rd_empty` compares the words read with the writes the reader knows of. -/
theorem tempRdEmpty_step {s : AsyncFifo A D} {c : Count} (h : Tracks s c)
    {i : Instant D} {p : RdPort} (hi : i.rd = some p) :
    (s.step i).rptrEmpty.tempRdEmpty
      = decide (ofCount (A + 1) (c.r + (s.shown i).length) = ofCount (A + 1) c.w2) := by
  have hstep : (s.step i).rptrEmpty.tempRdEmpty
      = s.rptrEmpty.emptyFlag s.syncW2r.syncData2t p.rdReq := by
    simp [step, RptrEmpty.step, hi]
  rw [hstep, RptrEmpty.emptyFlag, RptrEmpty.rptrNextGray, radrNextBin_eq h hi, h.w2r2]
  rfl

/-! ## The invariant -/

/-- A write is requested at the instant. -/
def wrRequested (i : Instant D) : Bool :=
  match i.wr with
  | some p => p.wrReq
  | none => false

/-- A read is requested at the instant. -/
def rdRequested (i : Instant D) : Bool :=
  match i.rd with
  | some p => p.rdReq
  | none => false

/-- The number of write requests in a run. -/
def wrRequests (ins : List (Instant D)) : ℕ := ins.countP wrRequested

/-- The counts lag behind one another and are at most one lap apart. -/
structure Ordered (A : ℕ) (c : Count) : Prop where
  w2_le_w1 : c.w2 ≤ c.w1
  w1_le_w : c.w1 ≤ c.w
  r2_le_r1 : c.r2 ≤ c.r1
  r1_le_r : c.r1 ≤ c.r
  r_le_w : c.r ≤ c.w
  lap : c.w ≤ c.r2 + 2 ^ A

/-- Where the reader stands. `rd_empty` is meaningless until the first edge of
`rd_clk` and, if a word is read at that edge, for one edge more. -/
inductive ReadSide (A : ℕ) (s : AsyncFifo A D) (h : List (Instant D)) (c : Count) : Prop where
  /-- no edge of `rd_clk` so far -/
  | start (hnone : ∀ i ∈ h, i.rd = none) (hlow : s.rptrEmpty.tempRdEmpty = false)
      (hr : c.r = 0) (hw1 : c.w1 = 0)
      (hfull : s.wptrFull.tempWrFull = true → 3 ≤ c.w) (hreq : min 3 (wrRequests h) ≤ c.w)
  /-- one edge of `rd_clk`, which read the first of at least three words -/
  | early (hedge : ∃ j ∈ h, j.rd ≠ none) (hr : c.r = 1) (hw2 : c.w2 = 0) (hw1 : 3 ≤ c.w1)
  /-- the flag compares counts that lag behind -/
  | settled (hedge : ∃ j ∈ h, j.rd ≠ none) (hr : c.r ≤ c.w2)
      (hempty : s.rptrEmpty.tempRdEmpty = false → c.r < c.w2)

/-- At the instant after `h` there is no premature read: before the first edge
of `rd_clk` a read is requested only if three writes were requested. -/
def FirstReadSafe (h : List (Instant D)) (i : Instant D) : Prop :=
  (∀ j ∈ h, j.rd = none) → rdRequested i = true → 3 ≤ wrRequests h

/-- A granted read finds a word. -/
theorem lt_of_shown {s : AsyncFifo A D} {h : List (Instant D)} {c : Count} (ho : Ordered A c)
    (hs : ReadSide A s h c) {i : Instant D} (hsafe : FirstReadSafe h i)
    (hgrant : 0 < (s.shown i).length) : c.r < c.w := by
  rcases of_shown_pos hgrant with ⟨p, hi, hreq, hlow⟩
  have hreq' : rdRequested i = true := by simp [rdRequested, hi, hreq]
  have hw := ho.w1_le_w
  have hw2 := ho.w2_le_w1
  cases hs with
  | start hnone hinit hr hw1 hfull hmin =>
      -- the flag says nothing yet, the three requested writes do
      have := hsafe hnone hreq'
      omega
  | early hedge hr hw2 hw1 => omega
  | settled hedge hr hempty =>
      have := hempty hlow
      omega

/-- The counts stay ordered if granted accesses find room and a word. -/
theorem ordered_step {s : AsyncFifo A D} {c : Count} (h : Ordered A c) (i : Instant D)
    (hw : c.w + (s.written i).length ≤ c.r2 + 2 ^ A)
    (hr : c.r + (s.shown i).length ≤ c.w) :
    Ordered A (c.next i (s.written i).length (s.shown i).length) := by
  rcases h with ⟨h1, h2, h3, h4, h5, h6⟩
  constructor <;> simp only [Count.next] <;> (try split) <;> omega

/-- Room for a granted write. -/
theorem room_of_written {s : AsyncFifo A D} {c : Count} (h : Ordered A c)
    (hroom : s.wptrFull.tempWrFull = false → c.w < c.r2 + 2 ^ A) (i : Instant D) :
    c.w + (s.written i).length ≤ c.r2 + 2 ^ A := by
  have hle := length_written_le s i
  have hlap := h.lap
  by_cases hpos : 0 < (s.written i).length
  · rcases of_written_pos hpos with ⟨p, hi, hreq, hlow⟩
    have := hroom hlow
    omega
  · omega

/-- A low `wr_full` keeps promising room. -/
theorem room_step (hA : 1 ≤ A) {s : AsyncFifo A D} {c : Count} (ht : Tracks s c)
    (h : Ordered A c) (hroom : s.wptrFull.tempWrFull = false → c.w < c.r2 + 2 ^ A)
    (i : Instant D) :
    (s.step i).wptrFull.tempWrFull = false →
      (c.next i (s.written i).length (s.shown i).length).w
        < (c.next i (s.written i).length (s.shown i).length).r2 + 2 ^ A := by
  intro hlow
  have hw := room_of_written h hroom i
  rcases h with ⟨h1, h2, h3, h4, h5, h6⟩
  cases hi : i.wr with
  | none =>
      -- the writer stands still, and the reads it knows of do not change
      have hkeep : (s.step i).wptrFull = s.wptrFull := by simp [step, hi]
      have hno : (s.written i).length = 0 := by simp [written, hi]
      rw [hkeep] at hlow
      have := hroom hlow
      simp only [Count.next, hi, hno, Option.isSome_none, Bool.false_eq_true, if_false]
      omega
  | some p =>
      rw [tempWrFull_step hA ht hi (by omega) hw, decide_eq_false_iff_not] at hlow
      simp only [Count.next, hi, Option.isSome_some, if_true]
      omega

theorem wrRequests_concat (h : List (Instant D)) (i : Instant D) :
    wrRequests (h ++ [i]) = wrRequests h + (wrRequested i).toNat := by
  unfold wrRequests
  cases hi : wrRequested i <;> simp [List.countP_append, hi]

/-- While no edge of `rd_clk` has occurred, three requests are three writes:
the FIFO has room for at least four words. -/
theorem start_step (hA : 2 ≤ A) {s : AsyncFifo A D} {h : List (Instant D)} {c : Count}
    (ht : Tracks s c) (ho : Ordered A c)
    (hroom : s.wptrFull.tempWrFull = false → c.w < c.r2 + 2 ^ A)
    (hfull : s.wptrFull.tempWrFull = true → 3 ≤ c.w) (hreq : min 3 (wrRequests h) ≤ c.w)
    (i : Instant D) :
    ((s.step i).wptrFull.tempWrFull = true → 3 ≤ c.w + (s.written i).length) ∧
      min 3 (wrRequests (h ++ [i])) ≤ c.w + (s.written i).length := by
  have hfour : 2 ^ 2 ≤ 2 ^ A := Nat.pow_le_pow_right (by omega) hA
  rw [wrRequests_concat]
  cases hi : i.wr with
  | none =>
      -- without an edge of `wr_clk` nothing is written or requested
      have hkeep : (s.step i).wptrFull = s.wptrFull := by simp [step, hi]
      have hno : wrRequested i = false := by simp [wrRequested, hi]
      rw [hkeep, hno, Bool.toNat_false]
      exact ⟨fun hf => Nat.le_add_right_of_le (hfull hf), by omega⟩
  | some p =>
      have hw := room_of_written ho hroom i
      have hge := (ho.r2_le_r1.trans ho.r1_le_r).trans ho.r_le_w
      constructor
      · intro hf
        rw [tempWrFull_step (by omega) ht hi hge hw, decide_eq_true_eq] at hf
        omega
      · cases hlow : s.wptrFull.tempWrFull with
        | true =>
            -- a full FIFO has its three writes behind it
            have := hfull hlow
            omega
        | false =>
            -- every request is granted
            have hone : (s.written i).length = (wrRequested i).toNat := by
              cases hq : p.wrReq <;> simp [written, wrRequested, memWrEn, hi, hq, hlow]
            omega

/-- The reader stands still: no edge of `rd_clk` at the instant. -/
theorem readSide_of_held (hA : 2 ≤ A) {s : AsyncFifo A D} {h : List (Instant D)} {c : Count}
    (ht : Tracks s c) (ho : Ordered A c)
    (hroom : s.wptrFull.tempWrFull = false → c.w < c.r2 + 2 ^ A)
    (hs : ReadSide A s h c) {i : Instant D} (hi : i.rd = none) :
    ReadSide A (s.step i) (h ++ [i]) (c.next i (s.written i).length (s.shown i).length) := by
  have hkeep : (s.step i).rptrEmpty = s.rptrEmpty := by simp [step, hi]
  have hno : (s.shown i).length = 0 := by simp [shown, hi]
  -- an edge seen before is still in the history
  have hold : (∃ j ∈ h, j.rd ≠ none) → ∃ j ∈ h ++ [i], j.rd ≠ none := by
    rintro ⟨j, hj, hne⟩
    exact ⟨j, List.mem_append_left _ hj, hne⟩
  cases hs with
  | start hnone hlow hr hw1 hfull hreq =>
      rcases start_step hA ht ho hroom hfull hreq i with ⟨hfull', hreq'⟩
      refine .start ?_ (hkeep ▸ hlow) ?_ ?_ hfull' hreq'
      · intro j hj
        rcases List.mem_append.mp hj with hj | hj
        · exact hnone j hj
        · rw [List.mem_singleton.mp hj, hi]
      · simp [Count.next, hr, hno]
      · simp [Count.next, hi, hw1]
  | early hedge hr hw2 hw1 =>
      refine .early (hold hedge) ?_ ?_ ?_
      · simp [Count.next, hr, hno]
      · simp [Count.next, hi, hw2]
      · simp [Count.next, hi, hw1]
  | settled hedge hr hempty =>
      refine .settled (hold hedge) ?_ ?_
      · simp [Count.next, hi, hno, hr]
      · rw [hkeep]
        intro hlow
        simpa [Count.next, hi, hno] using hempty hlow

/-- The reader has an edge: the flag now compares counts, unless it is the
first edge and a read was granted. -/
theorem readSide_of_edge {s : AsyncFifo A D} {h : List (Instant D)} {c : Count}
    (ht : Tracks s c) (ho : Ordered A c) (hs : ReadSide A s h c) {i : Instant D}
    (hsafe : FirstReadSafe h i) {p : RdPort} (hi : i.rd = some p) :
    ReadSide A (s.step i) (h ++ [i]) (c.next i (s.written i).length (s.shown i).length) := by
  have hflag := tempRdEmpty_step ht hi
  have hone := length_shown_le s i
  have hedge : ∃ j ∈ h ++ [i], j.rd ≠ none := ⟨i, by simp, by simp [hi]⟩
  have hnext2 : (c.next i (s.written i).length (s.shown i).length).w2 = c.w1 := by
    simp [Count.next, hi]
  have hnext1 : (c.next i (s.written i).length (s.shown i).length).w1 = c.w := by
    simp [Count.next, hi]
  have hnextr : (c.next i (s.written i).length (s.shown i).length).r
      = c.r + (s.shown i).length := rfl
  rcases id ho with ⟨hw21, hw1w, hr21, hr1r, hrw, hlap⟩
  cases hs with
  | start hnone hinit hr hw1 hfull hreq =>
      by_cases hgrant : 0 < (s.shown i).length
      · -- the flag did not stop the read, the three writes make up for it
        rcases of_shown_pos hgrant with ⟨q, hq, hreq', hlow⟩
        have hthree := hsafe hnone (by simp [rdRequested, hq, hreq'])
        exact .early hedge (by omega) (by omega) (by omega)
      · -- nothing granted: the flag has been set by this edge
        refine .settled hedge (by omega) ?_
        intro hlow
        rw [hflag, decide_eq_false_iff_not] at hlow
        exact absurd (congrArg (ofCount (A + 1)) (by omega)) hlow
  | early _ hr hw2 hw1 =>
      -- three writes have passed the first flop: the second one catches up
      exact .settled hedge (by omega) (fun _ => by omega)
  | settled _ hr hempty =>
      -- a low flag means one word more than read so far, so one read is safe
      have hle : c.r + (s.shown i).length ≤ c.w2 := by
        by_cases hgrant : 0 < (s.shown i).length
        · rcases of_shown_pos hgrant with ⟨q, hq, hreq', hlow⟩
          have := hempty hlow
          omega
        · omega
      refine .settled hedge (by omega) ?_
      intro hlow
      have hpow : 2 ^ (A + 1) = 2 * 2 ^ A := pow_succ' 2 A
      have hpos : 0 < 2 ^ A := Nat.two_pow_pos A
      rw [hflag, decide_eq_false_iff_not, ofCount_eq_iff_of_lt hle (by omega)] at hlow
      omega

/-- The reader's side of an instant. -/
theorem readSide_step (hA : 2 ≤ A) {s : AsyncFifo A D} {h : List (Instant D)} {c : Count}
    (ht : Tracks s c) (ho : Ordered A c)
    (hroom : s.wptrFull.tempWrFull = false → c.w < c.r2 + 2 ^ A)
    (hs : ReadSide A s h c) {i : Instant D} (hsafe : FirstReadSafe h i) :
    ReadSide A (s.step i) (h ++ [i]) (c.next i (s.written i).length (s.shown i).length) := by
  cases hi : i.rd with
  | none => exact readSide_of_held hA ht ho hroom hs hi
  | some p => exact readSide_of_edge ht ho hs hsafe hi

/-! ## The words -/

/-- With `ws` the words written so far: the unread ones are in the memory, the
words shown to the reader are the first ones. -/
structure Words (s : AsyncFifo A D) (c : Count) (ws rs : List (BitVec D)) : Prop where
  length : ws.length = c.w
  held : ∀ j, c.r ≤ j → j < c.w → ws[j]? = some (s.regMemory (BitVec.ofNat A j))
  seen : rs = ws.take c.r

/-- What the memory holds after an instant: the written word at its address,
everything else unchanged. -/
theorem regMemory_step {s : AsyncFifo A D} {c : Count} (ht : Tracks s c) (ho : Ordered A c)
    (hroom : s.wptrFull.tempWrFull = false → c.w < c.r2 + 2 ^ A) (i : Instant D) {j : ℕ}
    (hj : c.r ≤ j) (hjw : j < c.w + (s.written i).length) (ws : List (BitVec D))
    (hlen : ws.length = c.w)
    (hheld : j < c.w → ws[j]? = some (s.regMemory (BitVec.ofNat A j))) :
    (ws ++ s.written i)[j]? = some ((s.step i).regMemory (BitVec.ofNat A j)) := by
  by_cases hgrant : 0 < (s.written i).length
  · rcases of_written_pos hgrant with ⟨p, hi, hreq, hlow⟩
    have hone := length_written_le s i
    have hen : s.memWrEn p = true := by simp [memWrEn, hreq, hlow]
    have hmem : (s.step i).regMemory
        = Function.update s.regMemory (BitVec.ofNat A c.w) p.wrData := by
      simp [step, hi, hen, memWrAddr, ht.wrAddr, Ring.low_ofNat]
    have hword : s.written i = [p.wrData] := by simp [written, hi, hen]
    rw [hmem, hword]
    by_cases hnew : j = c.w
    · subst hnew
      rw [Function.update_self, List.getElem?_append_right (by omega)]
      simp [hlen]
    · -- an unread word is less than a lap behind the one being written
      have hr := ho.r2_le_r1.trans ho.r1_le_r
      have hlap := hroom hlow
      rw [Function.update_of_ne (Ring.ofNat_ne (by omega) (by omega)),
        List.getElem?_append_left (by omega)]
      exact hheld (by omega)
  · -- nothing is written, and the memory stays
    have hno : s.written i = [] := List.eq_nil_of_length_eq_zero (by omega)
    have hmem : (s.step i).regMemory = s.regMemory := by
      unfold written at hno
      cases hi : i.wr with
      | none => simp [step, hi]
      | some p => cases hen : s.memWrEn p <;> simp_all [step]
    rw [hno, List.length_nil] at hjw
    rw [hmem, hno, List.append_nil]
    exact hheld hjw

theorem words_step {s : AsyncFifo A D} {c : Count} {ws rs : List (BitVec D)} (ht : Tracks s c)
    (ho : Ordered A c) (hroom : s.wptrFull.tempWrFull = false → c.w < c.r2 + 2 ^ A)
    (h : Words s c ws rs) {i : Instant D} (hword : 0 < (s.shown i).length → c.r < c.w) :
    Words (s.step i) (c.next i (s.written i).length (s.shown i).length)
      (ws ++ s.written i) (rs ++ s.shown i) := by
  rcases h with ⟨hlen, hheld, hseen⟩
  have hrw := ho.r_le_w
  refine ⟨by simp [Count.next, hlen], ?_, ?_⟩
  · intro j hj hjw
    have hj' : c.r ≤ j := by
      simp only [Count.next] at hj
      omega
    exact regMemory_step ht ho hroom i hj' hjw ws hlen (hheld j hj')
  · simp only [Count.next]
    by_cases hgrant : 0 < (s.shown i).length
    · rcases of_shown_pos hgrant with ⟨p, hi, hreq, hlow⟩
      have hlt := hword hgrant
      have hen : s.memRdEn p = true := by simp [memRdEn, hreq, hlow]
      have hdata : s.shown i = [s.regMemory (BitVec.ofNat A c.r)] := by
        simp [shown, hi, hen, rdData, memRdAddr, ht.rdAddr, Ring.low_ofNat]
      -- the word shown is the first one that is unread
      have hnext := hheld c.r (le_refl _) hlt
      have htake : ws.take (c.r + 1) = ws.take c.r ++ [s.regMemory (BitVec.ofNat A c.r)] := by
        rw [List.take_add_one, hnext]
        rfl
      rw [hdata, List.length_singleton, List.take_append_of_le_length (by omega), htake, hseen]
    · have hno : s.shown i = [] := List.eq_nil_of_length_eq_zero (by omega)
      rw [hno, List.append_nil, List.length_nil, Nat.add_zero,
        List.take_append_of_le_length (by omega), hseen]

/-! ## Runs -/

/-- All of the above, for the state `s` that the run `h` from `s₀` leads to. -/
structure Inv (s₀ : AsyncFifo A D) (h : List (Instant D)) (s : AsyncFifo A D) (c : Count) :
    Prop where
  tracks : Tracks s c
  ordered : Ordered A c
  room : s.wptrFull.tempWrFull = false → c.w < c.r2 + 2 ^ A
  readSide : ReadSide A s h c
  words : Words s c (writes s₀ h) (reads s₀ h)

theorem inv_reset (s : AsyncFifo A D) : Inv s.reset [] s.reset ⟨0, 0, 0, 0, 0, 0⟩ where
  tracks := tracks_reset s
  ordered := by constructor <;> simp
  room := fun _ => by
    show 0 < 0 + 2 ^ A
    rw [Nat.zero_add]
    exact Nat.two_pow_pos A
  readSide := .start (by simp) rfl rfl rfl (by simp [reset, WptrFull.reset]) (by simp [wrRequests])
  words := ⟨rfl, by simp, rfl⟩

theorem inv_step (hA : 2 ≤ A) {s₀ : AsyncFifo A D} {h : List (Instant D)} {c : Count}
    (hinv : Inv s₀ h (run step s₀ h) c) {i : Instant D} (hsafe : FirstReadSafe h i) :
    ∃ c', Inv s₀ (h ++ [i]) ((run step s₀ h).step i) c' := by
  rcases hinv with ⟨ht, ho, hroom, hs, hwords⟩
  have hlt := fun hgrant => lt_of_shown ho hs hsafe hgrant
  have hone := length_shown_le (run step s₀ h) i
  -- the reader stays behind the writer
  have hr : c.r + ((run step s₀ h).shown i).length ≤ c.w := by
    have := ho.r_le_w
    by_cases hgrant : 0 < ((run step s₀ h).shown i).length
    · have := hlt hgrant
      omega
    · omega
  refine ⟨_, tracks_step ht i, ordered_step ho i (room_of_written ho hroom i) hr,
    room_step (by omega) ht ho hroom i, readSide_step hA ht ho hroom hs hsafe, ?_⟩
  rw [writes, reads, events_concat, events_concat]
  exact words_step ht ho hroom hwords hlt

instance (h : List (Instant D)) (i : Instant D) : Decidable (FirstReadSafe h i) :=
  inferInstanceAs (Decidable ((∀ j ∈ h, j.rd = none) → rdRequested i = true → 3 ≤ wrRequests h))

/-- A run without a premature read. -/
def Safe (ins : List (Instant D)) : Prop :=
  ∀ n, ∀ hn : n < ins.length, FirstReadSafe (ins.take n) ins[n]

instance (ins : List (Instant D)) : Decidable (Safe ins) :=
  inferInstanceAs (Decidable (∀ n, ∀ hn : n < ins.length, FirstReadSafe (ins.take n) ins[n]))

theorem Safe.at_cut {h rest : List (Instant D)} {i : Instant D} (hsafe : Safe (h ++ i :: rest)) :
    FirstReadSafe h i := by
  simpa using hsafe h.length (by simp)

theorem Safe.of_append {h rest : List (Instant D)} (hsafe : Safe (h ++ rest)) : Safe h := by
  intro n hn
  have hcut := hsafe n (by simp; omega)
  rwa [List.take_append_of_le_length hn.le, List.getElem_append_left hn] at hcut

theorem inv_run (hA : 2 ≤ A) (s : AsyncFifo A D) (ins : List (Instant D)) (hsafe : Safe ins) :
    ∃ c, Inv s.reset ins (run step s.reset ins) c := by
  revert hsafe
  refine run_invariant (fun h s' => Safe h → ∃ c, Inv s.reset h s' c)
    (fun _ => ⟨_, inv_reset s⟩) ?_ ins
  intro h i ih hsafe
  rcases ih hsafe.of_append with ⟨c, hc⟩
  exact inv_step hA hc hsafe.at_cut

/-- No read is requested at the first edge of `rd_clk`. -/
def QuietFirstRead (ins : List (Instant D)) : Prop :=
  ∀ n, ∀ hn : n < ins.length, (∀ j ∈ ins.take n, j.rd = none) → rdRequested ins[n] = false

instance (ins : List (Instant D)) : Decidable (QuietFirstRead ins) :=
  inferInstanceAs (Decidable (∀ n, ∀ hn : n < ins.length,
    (∀ j ∈ ins.take n, j.rd = none) → rdRequested ins[n] = false))

theorem QuietFirstRead.safe {ins : List (Instant D)} (h : QuietFirstRead ins) : Safe ins := by
  intro n hn hnone hreq
  rw [h n hn hnone] at hreq
  exact absurd hreq Bool.false_ne_true

theorem Inv.length_reads {s₀ s : AsyncFifo A D} {h : List (Instant D)} {c : Count}
    (hinv : Inv s₀ h s c) : (reads s₀ h).length = c.r := by
  have hlen := hinv.words.length
  have hle := hinv.ordered.r_le_w
  rw [hinv.words.seen, List.length_take, hlen]
  omega

/-- The FIFO is a bounded queue, for every interleaving of the two clocks in
which no read is requested at the first edge of `rd_clk`: the granted reads
show the written words in order, at most `2 ^ A` words are outstanding, every
unread word is still in the memory, and no read is granted before its word is
written. -/
theorem bounded_queue (hA : 2 ≤ A) (s : AsyncFifo A D) (ins : List (Instant D))
    (hquiet : QuietFirstRead ins) :
    reads s.reset ins <+: writes s.reset ins ∧
    (writes s.reset ins).length ≤ (reads s.reset ins).length + 2 ^ A ∧
    (∀ j, (reads s.reset ins).length ≤ j → ∀ hj : j < (writes s.reset ins).length,
      (run step s.reset ins).regMemory (BitVec.ofNat A j) = (writes s.reset ins)[j]) ∧
    (∀ h i rest, ins = h ++ i :: rest → (run step s.reset h).shown i ≠ [] →
      (reads s.reset h).length < (writes s.reset h).length) := by
  have hsafe := hquiet.safe
  rcases inv_run hA s ins hsafe with ⟨c, hc⟩
  have hlenr := hc.length_reads
  have hlenw := hc.words.length
  refine ⟨?_, ?_, ?_, ?_⟩
  · rw [hc.words.seen]
    exact List.take_prefix _ _
  · -- the writer is stopped a lap ahead of what it knows of the reader
    have hlap := hc.ordered.lap
    have hr := hc.ordered.r2_le_r1.trans hc.ordered.r1_le_r
    omega
  · intro j hj hjw
    have hheld := hc.words.held j (by omega) (by omega)
    rw [List.getElem?_eq_getElem hjw] at hheld
    exact (Option.some.inj hheld).symm
  · intro h i rest heq hgrant
    subst heq
    -- the invariant where the read is granted, not at the end
    rcases inv_run hA s h hsafe.of_append with ⟨c', hc'⟩
    have hlt := lt_of_shown hc'.ordered hc'.readSide hsafe.at_cut
      (List.length_pos_iff.mpr hgrant)
    rw [hc'.length_reads, hc'.words.length]
    exact hlt

/-- A power-up state with four-word memory. -/
def coldStart : AsyncFifo 2 8 where
  wptrFull := WptrFull.reset
  rptrEmpty := RptrEmpty.reset
  syncW2r := Sync2T.reset
  syncR2w := Sync2T.reset
  regMemory := fun _ => 0

/-- A write, three idle edges of `rd_clk` to let it through, and a read. -/
theorem bounded_queue_single :
    reads coldStart.reset [⟨some ⟨true, 7⟩, none⟩, ⟨none, some ⟨false⟩⟩, ⟨none, some ⟨false⟩⟩,
        ⟨none, some ⟨false⟩⟩, ⟨none, some ⟨true⟩⟩]
      <+: writes coldStart.reset [⟨some ⟨true, 7⟩, none⟩, ⟨none, some ⟨false⟩⟩,
        ⟨none, some ⟨false⟩⟩, ⟨none, some ⟨false⟩⟩, ⟨none, some ⟨true⟩⟩] :=
  (bounded_queue (by decide) coldStart _ (by decide)).1

/-! ## Underflow -/

/-- An edge of `rd_clk` alone, with a read requested. -/
def rdPulse : Instant D := ⟨none, some ⟨true⟩⟩

@[simp] theorem written_rdPulse (s : AsyncFifo A D) : s.written rdPulse = [] := rfl

@[simp] theorem rdRequested_rdPulse : rdRequested (rdPulse : Instant D) = true := rfl

/-- A read that finds `rd_empty` low while the count the flag is compared with
has been reached: it is granted, and the flag stays low. -/
theorem overtaking_read {s : AsyncFifo A D} {c : Count} (ht : Tracks s c) {i : Instant D}
    (hreq : rdRequested i = true) (hlow : s.rptrEmpty.tempRdEmpty = false) (hlag : c.w2 ≤ c.r)
    (hnear : c.r + 1 - c.w2 < 2 ^ (A + 1)) :
    (s.shown i).length = 1 ∧ Tracks (s.step i) (c.next i (s.written i).length 1) ∧
      (s.step i).rptrEmpty.tempRdEmpty = false := by
  cases hi : i.rd with
  | none => simp [rdRequested, hi] at hreq
  | some p =>
      have hp : p.rdReq = true := by simpa [rdRequested, hi] using hreq
      have hone : (s.shown i).length = 1 := by simp [shown, hi, memRdEn, hp, hlow]
      refine ⟨hone, hone ▸ tracks_step ht i, ?_⟩
      rw [tempRdEmpty_step ht hi, hone, decide_eq_false_iff_not]
      intro heq
      rw [eq_comm, ofCount_eq_iff_of_lt (by omega) hnear] at heq
      omega

theorem length_written_le_wrRequested (s : AsyncFifo A D) (i : Instant D) :
    (s.written i).length ≤ (wrRequested i).toNat := by
  cases hi : i.wr with
  | none => simp [written, hi]
  | some p =>
      cases hq : p.wrReq with
      | false => simp [written, memWrEn, hi, hq]
      | true =>
          have hreq : wrRequested i = true := by simp [wrRequested, hi, hq]
          rw [hreq]
          exact length_written_le s i

theorem length_writes_le_wrRequests (s : AsyncFifo A D) (ins : List (Instant D)) :
    (writes s ins).length ≤ wrRequests ins := by
  induction ins using List.reverseRecOn with
  | nil => simp [writes]
  | append_singleton h i ih =>
      have hone := length_written_le_wrRequested (run step s h) i
      rw [writes, events_concat, List.length_append, wrRequests_concat]
      exact Nat.add_le_add ih hone

/-- A read requested at the first edge of `rd_clk`, with less than three
writes requested before it, and reads requested at the next three edges:
four words are read and at most three were written. -/
theorem underflow_of_premature (hA : 2 ≤ A) (s : AsyncFifo A D) {h : List (Instant D)}
    (hnone : ∀ j ∈ h, j.rd = none) {i : Instant D} (hreq : rdRequested i = true)
    (hfew : wrRequests h < 3) :
    (writes s.reset (h ++ i :: [rdPulse, rdPulse, rdPulse])).length
      < (reads s.reset (h ++ i :: [rdPulse, rdPulse, rdPulse])).length := by
  -- up to the premature read everything is as it should be
  have hsafe : Safe h := by
    intro n hn hnone' hreq'
    have hj := hnone h[n] (List.getElem_mem hn)
    simp [rdRequested, hj] at hreq'
  rcases inv_run hA s h hsafe with ⟨c, hc⟩
  have hw := length_writes_le_wrRequests s.reset h
  have hlenw := hc.words.length
  have hlenr := hc.length_reads
  have hone := length_written_le (run step s.reset h) i
  have height : 2 ^ 3 ≤ 2 ^ (A + 1) := Nat.pow_le_pow_right (by omega) (by omega)
  obtain ⟨p, hp⟩ : ∃ p, i.rd = some p := by
    cases hi : i.rd with
    | none => simp [rdRequested, hi] at hreq
    | some p => exact ⟨p, rfl⟩
  have hw21 := hc.ordered.w2_le_w1
  have hnoedge : ¬ ∃ j ∈ h, j.rd ≠ none := by
    rintro ⟨j, hj, hne⟩
    exact hne (hnone j hj)
  cases hc.readSide with
  | early hedge hr hw2 hw1 => exact absurd hedge hnoedge
  | settled hedge hr hempty => exact absurd hedge hnoedge
  | start _ hlow hr hw1 hfull hmin =>
      -- the flag compares with counts that the reader has passed already
      obtain ⟨h1, ht1, hl1⟩ := overtaking_read hc.tracks hreq hlow (by omega) (by omega)
      rcases overtaking_read ht1 rdRequested_rdPulse hl1
        (by simp [Count.next, hp, hw1]) (by simp [Count.next, hp, hw1]; omega) with ⟨h2, ht2, hl2⟩
      rcases overtaking_read ht2 rdRequested_rdPulse hl2
        (by simp [Count.next, hp, rdPulse]; omega) (by simp [Count.next, hp, rdPulse]; omega) with
        ⟨h3, ht3, hl3⟩
      rcases overtaking_read ht3 rdRequested_rdPulse hl3
        (by simp [Count.next, hp, rdPulse]; omega) (by simp [Count.next, hp, rdPulse]; omega) with
        ⟨h4, -, -⟩
      rw [reads] at hlenr
      rw [writes] at hlenw
      simp only [reads, writes, events_append, events_cons, events_nil, List.length_append,
        written_rdPulse, List.length_nil, hlenr, hlenw, h1, h2, h3, h4]
      rw [writes, hlenw] at hw
      omega

/-- The FIFO never underflows in a run in which, before the first edge of
`rd_clk`, a read is requested only after three write requests; and wherever
that fails, some continuation reads more words than were written. -/
theorem no_underflow_iff_safe (hA : 2 ≤ A) (s : AsyncFifo A D) :
    (∀ ins, Safe ins → (reads s.reset ins).length ≤ (writes s.reset ins).length) ∧
    (∀ h i, ¬ FirstReadSafe h i → ∃ rest,
      (writes s.reset (h ++ i :: rest)).length < (reads s.reset (h ++ i :: rest)).length) := by
  constructor
  · intro ins hsafe
    rcases inv_run hA s ins hsafe with ⟨c, hc⟩
    rw [hc.length_reads, hc.words.length]
    exact hc.ordered.r_le_w
  · intro h i hbad
    -- three more reads do it
    simp only [FirstReadSafe, not_forall, not_le] at hbad
    rcases hbad with ⟨hnone, hreq, hfew⟩
    exact ⟨[rdPulse, rdPulse, rdPulse], underflow_of_premature hA s hnone hreq hfew⟩

/-- The first edge after reset already reads a word, from an empty FIFO. -/
theorem reset_underflows :
    ¬ (reads coldStart.reset [rdPulse]).length ≤ (writes coldStart.reset [rdPulse]).length := by
  decide

/-- Three write requests, then a read at the first edge of `rd_clk`. -/
theorem no_underflow_after_three :
    (reads coldStart.reset [⟨some ⟨true, 1⟩, none⟩, ⟨some ⟨true, 2⟩, none⟩,
        ⟨some ⟨true, 3⟩, none⟩, rdPulse]).length
      ≤ (writes coldStart.reset [⟨some ⟨true, 1⟩, none⟩, ⟨some ⟨true, 2⟩, none⟩,
        ⟨some ⟨true, 3⟩, none⟩, rdPulse]).length :=
  (no_underflow_iff_safe (by decide) coldStart).1 _ (by decide)

end AsyncFifo

end SocRtl.Fifo
