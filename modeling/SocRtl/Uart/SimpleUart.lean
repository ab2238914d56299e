import SocRtl.Lib.Bytes
import Mathlib.Algebra.Group.Nat.Defs

/-!
# SocRtl.Uart.SimpleUart — `simpleuart`

The serial port. A bit lasts until its counter has passed `cfg_divider`, which
is two cycles more than the register says. The receiver waits for the falling
edge of the start bit, then for half a bit, and samples eight times at the
distance of a bit.

The file follows one frame on its way: where the sender is, given by the bit on
the line and the cycle within the bit, decides where the receiver is.
-/

namespace SocRtl.Uart

open SocRtl.Bytes

/-! ## Model -/

/-- The registers of the receiver. -/
structure Recv where
  recv_state : BitVec 4
  recv_divcnt : BitVec 32
  recv_pattern : BitVec 8
  recv_buf_data : BitVec 8
  recv_buf_valid : Bool
deriving DecidableEq, Repr

/-- The registers of the sender. -/
structure Send where
  send_pattern : BitVec 10
  send_bitcnt : BitVec 4
  send_divcnt : BitVec 32
  send_dummy : Bool
deriving DecidableEq, Repr

structure State where
  cfg_divider : BitVec 32
  recv : Recv
  send : Send
deriving DecidableEq, Repr

/-- What the processor drives. -/
structure UartIn where
  reg_div_we : BitVec 4
  reg_div_di : BitVec 32
  reg_dat_we : Bool
  reg_dat_re : Bool
  reg_dat_di : BitVec 32
deriving DecidableEq, Repr

/-- The register in front of a clock divider. -/
def cfg_step (DEFAULT_DIV : BitVec 32) (resetn : Bool) (i : UartIn) (cfg_divider : BitVec 32) :
    BitVec 32 :=
  if !resetn then DEFAULT_DIV else mergeBytes i.reg_div_we i.reg_div_di cfg_divider

/-- A clock edge of the receiver. -/
def Recv.step (cfg_divider : BitVec 32) (resetn ser_rx reg_dat_re : Bool) (s : Recv) : Recv :=
  if !resetn then ⟨0, 0, 0, 0, false⟩
  else
    let s' := { s with
      recv_divcnt := s.recv_divcnt + 1
      recv_buf_valid := if reg_dat_re then false else s.recv_buf_valid }
    if s.recv_state = 0#4 then
      { s' with recv_state := if !ser_rx then 1 else s.recv_state, recv_divcnt := 0 }
    else if s.recv_state = 1#4 then
      if 2#32 * s.recv_divcnt > cfg_divider then { s' with recv_state := 2, recv_divcnt := 0 }
      else s'
    else if s.recv_state = 10#4 then
      if s.recv_divcnt > cfg_divider then
        { s' with recv_buf_data := s.recv_pattern, recv_buf_valid := true, recv_state := 0 }
      else s'
    else
      if s.recv_divcnt > cfg_divider then
        { s' with
          recv_pattern := (BitVec.ofBool ser_rx ++ s.recv_pattern.extractLsb' 1 7).cast rfl
          recv_state := s.recv_state + 1
          recv_divcnt := 0 }
      else s'

/-- A clock edge of the sender. The counter of a bit runs in every cycle; only
`send_dummy` hangs on the write of the divider. -/
def Send.step (cfg_divider : BitVec 32) (resetn : Bool) (i : UartIn) (s : Send) : Send :=
  let s' := { s with
    send_dummy := if i.reg_div_we ≠ 0 then true else s.send_dummy
    send_divcnt := s.send_divcnt + 1 }
  if !resetn then ⟨BitVec.allOnes 10, 0, 0, true⟩
  else if s.send_dummy && s.send_bitcnt == 0#4 then
    ⟨BitVec.allOnes 10, 15, 0, false⟩
  else if i.reg_dat_we && s.send_bitcnt == 0#4 then
    { s' with
      send_pattern := (1#1 ++ i.reg_dat_di.setWidth 8 ++ 0#1).cast rfl
      send_bitcnt := 10
      send_divcnt := 0 }
  else if s.send_divcnt > cfg_divider ∧ s.send_bitcnt ≠ 0#4 then
    { s' with
      send_pattern := (1#1 ++ s.send_pattern.extractLsb' 1 9).cast rfl
      send_bitcnt := s.send_bitcnt - 1
      send_divcnt := 0 }
  else s'

def ser_tx (s : Send) : Bool := s.send_pattern.getLsbD 0

def reg_dat_wait (s : Send) (i : UartIn) : Bool :=
  i.reg_dat_we && (s.send_bitcnt != 0#4 || s.send_dummy)

/-- A clock edge of the port. -/
def step (DEFAULT_DIV : BitVec 32) (resetn ser_rx : Bool) (s : State) (i : UartIn) : State where
  cfg_divider := cfg_step DEFAULT_DIV resetn i s.cfg_divider
  recv := s.recv.step s.cfg_divider resetn ser_rx i.reg_dat_re
  send := s.send.step s.cfg_divider resetn i

/-- The byte of a write that does not have to wait. -/
def accepted (s : Send) (resetn : Bool) (i : UartIn) : List (BitVec 8) :=
  if resetn && i.reg_dat_we && !reg_dat_wait s i then [i.reg_dat_di.setWidth 8] else []

/-- The byte that the receiver puts into its buffer. -/
def delivered (s : Recv) (cfg_divider : BitVec 32) (resetn : Bool) : List (BitVec 8) :=
  if resetn && s.recv_state == 10#4 && s.recv_divcnt > cfg_divider then [s.recv_pattern] else []

/-- The byte that a read takes out of the buffer. -/
def taken (s : Recv) (resetn : Bool) (i : UartIn) : List (BitVec 8) :=
  if resetn && i.reg_dat_re && s.recv_buf_valid then [s.recv_buf_data] else []

/-! ## A frame -/

/-- Bit `k` of the frame of a byte: the start bit, the data bits, ones. -/
def frameBit (data : BitVec 8) (k : ℕ) : Bool :=
  if k = 0 then false else if k ≤ 8 then data.getLsbD (k - 1) else true

/-- The sender at cycle `x` of bit `q`, for a bit of `d + 2` cycles. -/
structure Sending (data : BitVec 8) (q x : ℕ) (s : Send) : Prop where
  bitcnt : s.send_bitcnt.toNat = 10 - q
  divcnt : s.send_divcnt.toNat = x
  pattern : ∀ i < 10, s.send_pattern.getLsbD i = frameBit data (q + i)
  dummy : s.send_dummy = false

/-- The sender holding the line at one. -/
structure Silent (s : Send) : Prop where
  pattern : s.send_pattern = BitVec.allOnes 10
  dummy : s.send_dummy = false

/-- The first `j` data bits are in. -/
def Sampled (data : BitVec 8) (j : ℕ) (pattern : BitVec 8) : Prop :=
  ∀ i < j, pattern.getLsbD (8 - j + i) = data.getLsbD i

/-- The receiver waits for a start bit. -/
def Listening (s : Recv) : Prop := s.recv_state = 0#4

/-- Cycles from the falling edge of the start bit until the bits are counted. -/
def lead (d : ℕ) : ℕ := d / 2 + 3

/-- The receiver while the sender is at cycle `x` of bit `q`. Its own bits begin
`lead d` cycles after those of the sender. -/
inductive Receiving (d : ℕ) (data : BitVec 8) (q x : ℕ) (s : Recv) : Prop
  | edge (hq : q = 0) (hx : x = 0) (hs : s.recv_state = 0#4)
  | half (hq : q = 0) (hx : 0 < x) (hx' : x < lead d) (hs : s.recv_state = 1#4)
      (hdiv : s.recv_divcnt.toNat = x - 1)
  | early (hq : 0 < q) (hx : x < lead d) (hs : s.recv_state.toNat = q + 1)
      (hdiv : s.recv_divcnt.toNat = d + 2 + x - lead d)
      (hbits : Sampled data (q - 1) s.recv_pattern)
  | late (hq : q < 9) (hx : lead d ≤ x) (hs : s.recv_state.toNat = q + 2)
      (hdiv : s.recv_divcnt.toNat = x - lead d) (hbits : Sampled data q s.recv_pattern)
  | stop (hq : q = 9) (hx : lead d ≤ x) (hs : s.recv_state = 0#4)

theorem frameBit_stop {data : BitVec 8} {k : ℕ} (hk : 9 ≤ k) : frameBit data k = true := by
  rw [frameBit, if_neg (by omega), if_neg (by omega)]

theorem frameBit_data {data : BitVec 8} {k : ℕ} (hk : k < 8) :
    frameBit data (k + 1) = data.getLsbD k := by
  rw [frameBit, if_neg (by omega), if_pos (by omega), Nat.add_sub_cancel]

/-- The line shows the current bit of the frame. -/
theorem tx_sending {data : BitVec 8} {q x : ℕ} {s : Send} (h : Sending data q x s) :
    ser_tx s = frameBit data q := h.pattern 0 (by decide)

theorem tx_silent {s : Send} (h : Silent s) : ser_tx s = true := by
  rw [ser_tx, h.pattern]
  rfl

/-! ## The sender -/

section

variable {cfg : BitVec 32} {s : Send} {i : UartIn}

/-- The pattern after a shift. -/
theorem getLsbD_shift (pattern : BitVec 10) {k : ℕ} (hk : k < 10) :
    (1#1 ++ pattern.extractLsb' 1 9 : BitVec 10).getLsbD k
      = if k = 9 then true else pattern.getLsbD (k + 1) := by
  rw [BitVec.getLsbD_append]
  by_cases h9 : k = 9
  · simp [h9]
  · have hlt : k < 9 := by omega
    simp [hlt, h9, Nat.add_comm]

/-- The pattern of a frame. -/
theorem getLsbD_frame (data : BitVec 8) {k : ℕ} (hk : k < 10) :
    (1#1 ++ data ++ 0#1 : BitVec 10).getLsbD k = frameBit data k := by
  rw [BitVec.getLsbD_append, BitVec.getLsbD_append]
  rcases Nat.eq_zero_or_pos k with rfl | hpos
  · rfl
  · have hk1 : ¬ k < 1 := by omega
    by_cases h9 : k = 9
    · simp [h9, frameBit]
    · have hlt : k - 1 < 8 := by omega
      have hle : k ≤ 8 := by omega
      have hne : k ≠ 0 := by omega
      simp [hk1, hlt, frameBit, hle, hne]

/-- The sender does not take a byte while it is sending. -/
theorem accepted_busy (resetn : Bool) (h : s.send_bitcnt ≠ 0#4) : accepted s resetn i = [] := by
  have hne : (s.send_bitcnt != 0#4) = true := by simpa using h
  rw [accepted, reg_dat_wait, hne]
  cases i.reg_dat_we <;> simp

variable (cfg) in
/-- A silent sender takes a byte as soon as it has no idle bits left, and stays
silent until then. -/
theorem silent_step (h : Silent s) (hi : i.reg_div_we = 0) :
    (accepted s true i = [] ∧ Silent (s.step cfg true i))
      ∨ ∃ data, accepted s true i = [data] ∧ Sending data 0 0 (s.step cfg true i) := by
  by_cases hload : i.reg_dat_we = true ∧ s.send_bitcnt = 0#4
  · -- a written byte is taken: ten bits are loaded at once
    right
    refine ⟨i.reg_dat_di.setWidth 8, ?_, ?_⟩
    · simp [accepted, reg_dat_wait, hload, h.dummy]
    · have hstep : s.step cfg true i
          = ⟨1#1 ++ i.reg_dat_di.setWidth 8 ++ 0#1, 10, 0, false⟩ := by
        simp [Send.step, hi, h.dummy, hload]
      rw [hstep]
      refine ⟨rfl, rfl, ?_, rfl⟩
      intro k hk
      rw [Nat.zero_add]
      exact getLsbD_frame _ hk
  · -- nothing to take: at most an idle bit is shifted out
    left
    have hwait : (i.reg_dat_we && s.send_bitcnt == 0#4) = false := by
      rw [Bool.eq_false_iff]
      intro hboth
      exact hload (by simpa using hboth)
    refine ⟨?_, ?_⟩
    · rcases Decidable.not_and_iff_not_or_not.mp hload with hwe | hcnt
      · simp [accepted, hwe]
      · exact accepted_busy true hcnt
    · have hones : (1#1 ++ s.send_pattern.extractLsb' 1 9 : BitVec 10) = BitVec.allOnes 10 := by
        rw [h.pattern]
        decide
      simp only [Send.step, hi, h.dummy, hwait, Bool.false_and, Bool.not_true, ne_eq,
        not_true_eq_false, if_false, Bool.false_eq_true]
      split
      · exact ⟨hones, rfl⟩
      · exact ⟨h.pattern, rfl⟩

/-- A frame moves on by one cycle. -/
theorem sending_step {data : BitVec 8} {q x : ℕ} (h : Sending data q x s) (hi : i.reg_div_we = 0)
    (hq : q < 10) (hx : x < cfg.toNat + 2) (hcfg : cfg.toNat + 3 ≤ 2 ^ 32) :
    (x + 1 < cfg.toNat + 2 → Sending data q (x + 1) (s.step cfg true i))
      ∧ (x + 1 = cfg.toNat + 2 → q < 9 → Sending data (q + 1) 0 (s.step cfg true i))
      ∧ (x + 1 = cfg.toNat + 2 → q = 9 → Silent (s.step cfg true i)) := by
  have hne : s.send_bitcnt ≠ 0#4 := by
    intro h0
    have hcnt := h.bitcnt
    rw [h0] at hcnt
    have : (0#4).toNat = 0 := rfl
    omega
  -- `divcnt` is the cycle of the bit, so the shift comes in its last one
  have hgt : s.send_divcnt > cfg ↔ x + 1 = cfg.toNat + 2 := by
    rw [gt_iff_lt, BitVec.lt_def, h.divcnt]
    omega
  have hstep : s.step cfg true i
      = if x + 1 = cfg.toNat + 2 then
          ⟨1#1 ++ s.send_pattern.extractLsb' 1 9, s.send_bitcnt - 1, 0, false⟩
        else ⟨s.send_pattern, s.send_bitcnt, s.send_divcnt + 1, false⟩ := by
    have hz : (s.send_bitcnt == 0#4) = false := by simpa using hne
    simp only [Send.step, hi, h.dummy, hz, hgt, ne_eq, hne, not_false_eq_true, and_true,
      Bool.and_false, Bool.not_true, not_true_eq_false, if_false, Bool.false_eq_true]
    rfl
  refine ⟨?_, ?_, ?_⟩
  · -- within a bit
    intro hlt
    rw [hstep, if_neg (by omega)]
    refine ⟨h.bitcnt, ?_, h.pattern, rfl⟩
    show (s.send_divcnt + 1).toNat = x + 1
    rw [BitVec.toNat_add, h.divcnt, show (1 : BitVec 32).toNat = 1 from rfl,
      Nat.mod_eq_of_lt (by omega)]
  · -- the next bit moves down, a stop bit in at the top
    intro hlast hq9
    rw [hstep, if_pos hlast]
    refine ⟨?_, rfl, ?_, rfl⟩
    · show (s.send_bitcnt - 1).toNat = 10 - (q + 1)
      rw [BitVec.toNat_sub_of_le, h.bitcnt]
      · rfl
      · rw [BitVec.le_def, h.bitcnt]
        show 1 ≤ 10 - q
        omega
    · intro k hk
      show (1#1 ++ s.send_pattern.extractLsb' 1 9 : BitVec 10).getLsbD k = _
      rw [getLsbD_shift _ hk]
      split
      · exact (frameBit_stop (by omega)).symm
      · rw [h.pattern (k + 1) (by omega)]
        congr 1
        omega
  · -- after the stop bit every bit of the pattern is high
    intro hlast hq9
    rw [hstep, if_pos hlast]
    refine ⟨?_, rfl⟩
    apply BitVec.eq_of_getLsbD_eq
    intro k hk
    show (1#1 ++ s.send_pattern.extractLsb' 1 9 : BitVec 10).getLsbD k = _
    rw [getLsbD_shift _ hk, BitVec.getLsbD_allOnes]
    split
    · simp [hk]
    · rw [h.pattern (k + 1) (by omega), frameBit_stop (by omega)]
      simp [hk]

end

/-! ## The receiver -/

theorem sampled_next {data pattern : BitVec 8} {j : ℕ} {rx : Bool} (h : Sampled data j pattern)
    (hj : j < 8) (hrx : rx = data.getLsbD j) :
    Sampled data (j + 1) (BitVec.ofBool rx ++ pattern.extractLsb' 1 7) := by
  intro i hi
  rw [BitVec.getLsbD_append]
  by_cases hlast : i = j
  · -- the bit that has just come in stands on top
    have hpos : 8 - (j + 1) + i = 7 := by omega
    rw [hpos, hlast, ← hrx]
    simp
  · have hlt : 8 - (j + 1) + i < 7 := by omega
    have hnext : 1 + (8 - (j + 1) + i) = 8 - j + i := by omega
    rw [if_pos hlt, BitVec.getLsbD_extractLsb', hnext, h i (by omega), decide_eq_true hlt,
      Bool.true_and]

theorem sampled_all {data pattern : BitVec 8} (h : Sampled data 8 pattern) : pattern = data := by
  apply BitVec.eq_of_getLsbD_eq
  intro i hi
  have hbit := h i hi
  rwa [Nat.sub_self, Nat.zero_add] at hbit

section

variable {cfg : BitVec 32} {s : Recv} {rx re : Bool}

variable (cfg rx re) in
/-- An edge that counts on. -/
theorem count_step (hs : s.recv_state ≠ 0#4)
    (hlow : s.recv_state = 1#4 → ¬ 2#32 * s.recv_divcnt > cfg)
    (hhigh : s.recv_state ≠ 1#4 → ¬ s.recv_divcnt > cfg) :
    (s.step cfg true rx re).recv_state = s.recv_state
      ∧ (s.step cfg true rx re).recv_divcnt = s.recv_divcnt + 1
      ∧ (s.step cfg true rx re).recv_pattern = s.recv_pattern := by
  by_cases h1 : s.recv_state = 1#4
  · have hge := hlow h1
    simp [Recv.step, h1, hge]
  · have hge := hhigh h1
    by_cases h10 : s.recv_state = 10#4 <;> simp [Recv.step, hs, h1, h10, hge]

variable (cfg rx re) in
/-- An edge that samples a data bit. -/
theorem sample_step (h0 : s.recv_state ≠ 0#4) (h1 : s.recv_state ≠ 1#4) (h10 : s.recv_state ≠ 10#4)
    (hgt : s.recv_divcnt > cfg) :
    (s.step cfg true rx re).recv_state = s.recv_state + 1
      ∧ (s.step cfg true rx re).recv_divcnt = 0
      ∧ (s.step cfg true rx re).recv_pattern
        = BitVec.ofBool rx ++ s.recv_pattern.extractLsb' 1 7 := by
  simp [Recv.step, h0, h1, h10, hgt]

variable (rx re) in
/-- The edge that delivers the byte. -/
theorem last_step (h10 : s.recv_state = 10#4) (hgt : s.recv_divcnt > cfg) :
    (s.step cfg true rx re).recv_state = 0#4 ∧ delivered s cfg true = [s.recv_pattern] := by
  simp [Recv.step, delivered, h10, hgt]

/-- No other edge delivers anything. -/
theorem delivered_none (h : s.recv_state ≠ 10#4 ∨ ¬ s.recv_divcnt > cfg) (resetn : Bool) :
    delivered s cfg resetn = [] := by
  rcases h with h | h
  · have hf : (s.recv_state == 10#4) = false := by simpa using h
    simp [delivered, hf]
  · simp [delivered, h]

variable (cfg rx re) in
/-- A receiver that listens goes on listening while the line is high. -/
theorem listening_step (h : Listening s) (hrx : rx = true) :
    Listening (s.step cfg true rx re) ∧ delivered s cfg true = [] := by
  have hs : s.recv_state = 0#4 := h
  refine ⟨?_, delivered_none (Or.inl (by rw [hs]; decide)) true⟩
  simp [Listening, Recv.step, hs, hrx]

/-- The position after cycle `x` of bit `q`. -/
def After (d : ℕ) (data : BitVec 8) (q x : ℕ) (s : Recv) : Prop :=
  if x + 1 < d + 2 then Receiving d data q (x + 1) s
  else if q < 9 then Receiving d data (q + 1) 0 s
  else Listening s

variable (re) in
/-- One cycle of a frame at the receiver. The byte is delivered in the last
cycle before the lead of the stop bit, and in no other. -/
theorem receiving_step {data : BitVec 8} {q x : ℕ} (h : Receiving cfg.toNat data q x s)
    (hq : q < 10) (hx : x < cfg.toNat + 2) (hrx : rx = frameBit data q) (hd : 1 ≤ cfg.toNat)
    (hcfg : cfg.toNat + 3 ≤ 2 ^ 32) :
    After cfg.toNat data q x (s.step cfg true rx re)
      ∧ delivered s cfg true = if q = 9 ∧ x + 1 = lead cfg.toNat then [data] else [] := by
  have hlead : lead cfg.toNat ≤ cfg.toNat + 2 := by unfold lead; omega
  -- the counters as numbers: nothing wraps for a divider this small
  have hgt : ∀ v, s.recv_divcnt.toNat = v → (s.recv_divcnt > cfg ↔ cfg.toNat < v) := by
    intro v hv
    rw [gt_iff_lt, BitVec.lt_def, hv]
  have hsucc : ∀ v, s.recv_divcnt.toNat = v → v + 1 < 2 ^ 32 →
      (s.recv_divcnt + 1).toNat = v + 1 := by
    intro v hv hlt
    rw [BitVec.toNat_add, hv, show (1 : BitVec 32).toNat = 1 from rfl, Nat.mod_eq_of_lt hlt]
  have hstate : ∀ n v, s.recv_state.toNat = v → n < 16 → v ≠ n →
      s.recv_state ≠ BitVec.ofNat 4 n := by
    intro n v hv hn hne h0
    rw [h0, BitVec.toNat_ofNat, Nat.mod_eq_of_lt hn] at hv
    exact hne hv.symm
  unfold After
  cases h with
  | edge hq0 hx0 hs =>
      -- the falling edge of the start bit
      have hlow : rx = false := by rw [hrx, hq0]; rfl
      refine ⟨?_, ?_⟩
      · rw [if_pos (by omega)]
        refine .half hq0 (Nat.succ_pos x) (by unfold lead; omega) ?_ ?_
        · simp [Recv.step, hs, hlow]
        · simp [Recv.step, hs, hx0]
      · rw [delivered_none (Or.inl (by rw [hs]; decide)), if_neg (by omega)]
  | half hq0 hx0 hx' hs hdiv =>
      have hdouble : 2#32 * s.recv_divcnt > cfg ↔ x + 1 = lead cfg.toNat := by
        rw [gt_iff_lt, BitVec.lt_def, BitVec.toNat_mul, hdiv,
          show (2#32).toNat = 2 from rfl]
        unfold lead at hx' ⊢
        rw [Nat.mod_eq_of_lt (by omega)]
        omega
      -- half a bit is waited before the first bit is counted
      refine ⟨?_, by rw [delivered_none (Or.inl (by rw [hs]; decide)), if_neg (by omega)]⟩
      by_cases hend : x + 1 = lead cfg.toNat
      · -- half a bit has passed: the bits are counted from here
        have hnext : (s.step cfg true rx re).recv_state = 2#4
            ∧ (s.step cfg true rx re).recv_divcnt = 0 := by
          simp [Recv.step, hs, hdouble.mpr hend]
        split
        · exact .late (by omega) (by omega) (by rw [hnext.1, hq0]; rfl)
            (by rw [hnext.2, hend, Nat.sub_self]; rfl) (by intro i hi; omega)
        · rw [if_pos (by omega)]
          exact .early (Nat.succ_pos q) (by unfold lead; omega) (by rw [hnext.1, hq0]; rfl)
            (by rw [hnext.2]; show 0 = _; omega) (by intro i hi; omega)
      · have hnext := count_step cfg rx re
          (by rw [hs]; decide) (fun _ => mt hdouble.mp hend) (fun h1 => absurd hs h1)
        rw [if_pos (by omega)]
        exact .half hq0 (Nat.succ_pos x) (by omega) (hnext.1.trans hs)
          (by rw [hnext.2.1, hsucc _ hdiv (by omega)]; omega)
  | early hq0 hx' hs hdiv hbits =>
      -- before the middle of the bit
      have h0 := hstate 0 _ hs (by decide) (by omega)
      have h1 := hstate 1 _ hs (by decide) (by omega)
      by_cases hend : x + 1 = lead cfg.toNat
      · have hover : s.recv_divcnt > cfg := (hgt _ hdiv).mpr (by omega)
        by_cases hq9 : q = 9
        · -- the stop bit: the byte is complete
          have h10 : s.recv_state = 10#4 := BitVec.eq_of_toNat_eq (by rw [hs, hq9]; rfl)
          have hnext := last_step rx re h10 hover
          rw [hq9] at hbits
          refine ⟨?_, ?_⟩
          · split
            · exact .stop hq9 (by omega) hnext.1
            · rw [if_neg (by omega)]
              exact hnext.1
          · rw [hnext.2, if_pos ⟨hq9, hend⟩, sampled_all hbits]
        · -- a bit of data is sampled
          have h10 := hstate 10 _ hs (by decide) (by omega)
          have hnext := sample_step cfg rx re h0 h1 h10 hover
          obtain ⟨j, rfl⟩ : ∃ j, q = j + 1 := ⟨q - 1, by omega⟩
          have hbits' : Sampled data (j + 1) (s.step cfg true rx re).recv_pattern := by
            rw [hnext.2.2]
            exact sampled_next hbits (by omega) (hrx.trans (frameBit_data (by omega)))
          have hstate' : (s.step cfg true rx re).recv_state.toNat = j + 1 + 1 + 1 := by
            rw [hnext.1, BitVec.toNat_add, hs, show (1 : BitVec 4).toNat = 1 from rfl,
              Nat.mod_eq_of_lt (by omega)]
          refine ⟨?_, by rw [delivered_none (Or.inl h10), if_neg (by omega)]⟩
          split
          · exact .late (by omega) (by omega) hstate' (by rw [hnext.2.1]; show 0 = _; omega) hbits'
          · rw [if_pos (by omega)]
            exact .early (Nat.succ_pos _) (by unfold lead; omega) hstate'
              (by rw [hnext.2.1]; show 0 = _; omega) hbits'
      · have hunder : ¬ s.recv_divcnt > cfg := mt (hgt _ hdiv).mp (by omega)
        have hnext := count_step cfg rx re h0 (fun h1' => absurd h1' h1)
          (fun _ => hunder)
        refine ⟨?_, by rw [delivered_none (Or.inr hunder), if_neg (by omega)]⟩
        rw [if_pos (by omega)]
        exact .early hq0 (by omega) (by rw [hnext.1, hs])
          (by rw [hnext.2.1, hsucc _ hdiv (by omega)]; omega) (by rw [hnext.2.2]; exact hbits)
  | late hq9 hx' hs hdiv hbits =>
      -- after the middle nothing is sampled until the next bit
      have h0 := hstate 0 _ hs (by decide) (by omega)
      have h1 := hstate 1 _ hs (by decide) (by omega)
      have hunder : ¬ s.recv_divcnt > cfg := mt (hgt _ hdiv).mp (by unfold lead; omega)
      have hnext := count_step cfg rx re h0 (fun h1' => absurd h1' h1)
        (fun _ => hunder)
      refine ⟨?_, by rw [delivered_none (Or.inr hunder), if_neg (by omega)]⟩
      split
      · exact .late hq9 (by omega) (by rw [hnext.1, hs])
          (by rw [hnext.2.1, hsucc _ hdiv (by omega)]; omega) (by rw [hnext.2.2]; exact hbits)
      · exact .early (Nat.succ_pos q) (by unfold lead; omega) (by rw [hnext.1, hs])
          (by rw [hnext.2.1, hsucc _ hdiv (by omega)]; omega)
          (by rw [hnext.2.2]; exact hbits)
  | stop hq9 hx' hs =>
      -- the rest of the stop bit
      have hhigh : rx = true := by rw [hrx, hq9]; rfl
      have hnext := listening_step cfg rx re (show Listening s from hs) hhigh
      refine ⟨?_, by rw [hnext.2, if_neg (by omega)]⟩
      split
      · exact .stop hq9 (by omega) hnext.1
      · rw [if_neg (by omega)]
        exact hnext.1

end

/-! ## The buffer -/

/-- The byte that waits to be read. -/
def buffered (s : Recv) : List (BitVec 8) := if s.recv_buf_valid then [s.recv_buf_data] else []

/-- An edge that delivers nothing leaves the byte alone, and a read takes it. -/
theorem buffer_kept {cfg : BitVec 32} {s : Recv} (rx re : Bool)
    (h : delivered s cfg true = []) :
    (s.step cfg true rx re).recv_buf_data = s.recv_buf_data
      ∧ (s.step cfg true rx re).recv_buf_valid = (!re && s.recv_buf_valid) := by
  have hnot : s.recv_state = 10#4 → ¬ s.recv_divcnt > cfg := by
    intro h10 hgt
    simp [delivered, h10, hgt] at h
  by_cases h0 : s.recv_state = 0#4
  · cases re <;> simp [Recv.step, h0]
  · by_cases h1 : s.recv_state = 1#4
    · by_cases hgt : 2#32 * s.recv_divcnt > cfg <;> cases re <;> simp [Recv.step, h1, hgt]
    · by_cases h10 : s.recv_state = 10#4
      · have hle := hnot h10
        cases re <;> simp [Recv.step, h10, hle]
      · by_cases hgt : s.recv_divcnt > cfg <;> cases re <;> simp [Recv.step, h0, h1, h10, hgt]

/-- The buffer loses nothing at an edge, unless a byte is delivered over one
that nobody is reading. -/
theorem buffer_step {cfg : BitVec 32} {s : Recv} (i : UartIn) (rx : Bool)
    (h : delivered s cfg true ≠ [] → s.recv_buf_valid = true → i.reg_dat_re = true) :
    buffered s ++ delivered s cfg true
      = taken s true i ++ buffered (s.step cfg true rx i.reg_dat_re) := by
  by_cases hnone : delivered s cfg true = []
  · rcases buffer_kept rx i.reg_dat_re hnone with ⟨hdata, hvalid⟩
    rw [hnone, buffered, buffered, hdata, hvalid, taken]
    cases i.reg_dat_re <;> cases s.recv_buf_valid <;> rfl
  · have hlast : s.recv_state = 10#4 ∧ s.recv_divcnt > cfg := by
      by_cases h10 : s.recv_state = 10#4
      · by_cases hgt : s.recv_divcnt > cfg
        · exact ⟨h10, hgt⟩
        · exact absurd (delivered_none (Or.inr hgt) true) hnone
      · exact absurd (delivered_none (Or.inl h10) true) hnone
    have hstep : buffered (s.step cfg true rx i.reg_dat_re) = [s.recv_pattern] := by
      simp [buffered, Recv.step, hlast.1, hlast.2]
    have hkeep := h hnone
    rw [hstep, (last_step rx i.reg_dat_re hlast.1 hlast.2).2, buffered, taken]
    cases hv : s.recv_buf_valid with
    | false => simp
    | true => simp [hkeep hv]

end SocRtl.Uart
