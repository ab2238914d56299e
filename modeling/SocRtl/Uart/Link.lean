import SocRtl.Lib.Clocked
import SocRtl.Uart.SimpleUart
import Mathlib.Algebra.Group.Nat.Defs
import Mathlib.Tactic.Ring

/-!
# SocRtl.Uart.Link — two ports wired to each other

Two serial ports on one clock, the transmitter of each on the receiver of the
other, with the same value in their dividers. In either direction a byte is on
its way from the cycle in which the sender takes it to the one in which the
receiver has it, and no other byte is then. The processors on both sides write
and read when they like.
-/

namespace SocRtl.Uart

open SocRtl.Bytes

/-! ## Model -/

structure Link where
  a : State
  b : State
deriving DecidableEq, Repr

structure LinkIn where
  resetn : Bool
  a : UartIn
  b : UartIn
deriving DecidableEq, Repr

/-- A clock edge of both ports. -/
def Link.step (DEFAULT_DIV : BitVec 32) (s : Link) (i : LinkIn) : Link where
  a := Uart.step DEFAULT_DIV i.resetn (ser_tx s.b.send) s.a i.a
  b := Uart.step DEFAULT_DIV i.resetn (ser_tx s.a.send) s.b i.b

/-- The bytes that the ports take from their processors, put into their
buffers, and hand to their processors. -/
def Link.acceptedA (s : Link) (i : LinkIn) : List (BitVec 8) := accepted s.a.send i.resetn i.a
def Link.acceptedB (s : Link) (i : LinkIn) : List (BitVec 8) := accepted s.b.send i.resetn i.b
def Link.deliveredA (s : Link) (i : LinkIn) : List (BitVec 8) :=
  delivered s.a.recv s.a.cfg_divider i.resetn
def Link.deliveredB (s : Link) (i : LinkIn) : List (BitVec 8) :=
  delivered s.b.recv s.b.cfg_divider i.resetn
def Link.takenB (s : Link) (i : LinkIn) : List (BitVec 8) := taken s.b.recv i.resetn i.b

/-- The same link, seen from the other side. -/
def Link.swap (s : Link) : Link := ⟨s.b, s.a⟩

def LinkIn.swap (i : LinkIn) : LinkIn := ⟨i.resetn, i.b, i.a⟩

theorem swap_step (DEFAULT_DIV : BitVec 32) (s : Link) (i : LinkIn) :
    (s.step DEFAULT_DIV i).swap = s.swap.step DEFAULT_DIV i.swap := rfl

/-- No reset, and no write to a divider. -/
def Working (i : LinkIn) : Prop :=
  i.resetn = true ∧ i.a.reg_div_we = 0 ∧ i.b.reg_div_we = 0

instance : DecidablePred Working := fun i =>
  inferInstanceAs (Decidable (i.resetn = true ∧ i.a.reg_div_we = 0 ∧ i.b.reg_div_we = 0))

/-- The divider values that the ports are made for. -/
def Sound (d : BitVec 32) : Prop := 1 ≤ d.toNat ∧ d.toNat + 3 ≤ 2 ^ 32

instance : DecidablePred Sound := fun d =>
  inferInstanceAs (Decidable (1 ≤ d.toNat ∧ d.toNat + 3 ≤ 2 ^ 32))

/-- Inputs and a power-up state for concrete runs: nothing to do, reset, both
dividers set to one, and the write of an `A` at the first port. -/
def noAccess : UartIn := ⟨0#4, 0#32, false, false, 0#32⟩

def quietIn : LinkIn := ⟨true, noAccess, noAccess⟩

def resetIn : LinkIn := ⟨false, noAccess, noAccess⟩

def setDivider : LinkIn :=
  ⟨true, ⟨15#4, 1#32, false, false, 0#32⟩, ⟨15#4, 1#32, false, false, 0#32⟩⟩

def writeA : LinkIn := ⟨true, ⟨0#4, 0#32, true, false, 0x41#32⟩, noAccess⟩

def readB : LinkIn := ⟨true, noAccess, ⟨0#4, 0#32, false, true, 0#32⟩⟩

def samplePort : State :=
  ⟨0#32, ⟨7#4, 5#32, 0#8, 0#8, true⟩, ⟨3#10, 2#4, 9#32, false⟩⟩

def sampleLink : Link := ⟨samplePort, samplePort⟩

theorem working_quiet (n : ℕ) : ∀ x ∈ List.replicate n quietIn, Working x := by
  intro x hx
  rw [List.eq_of_mem_replicate hx]
  decide

/-! ## One direction -/

/-- What is on its way from a sender to a receiver. -/
inductive Way (d : BitVec 32) (s : Send) (r : Recv) : List (BitVec 8) → Prop
  | idle (hs : Silent s) (hr : Listening r) : Way d s r []
  | sent {data : BitVec 8} {q x : ℕ} (hq : q < 10) (hx : x < d.toNat + 2)
      (hs : Sending data q x s) (hr : Receiving d.toNat data q x r)
      (hleft : q < 9 ∨ x < lead d.toNat) : Way d s r [data]
  | closing {data : BitVec 8} {x : ℕ} (hx : x < d.toNat + 2) (hs : Sending data 9 x s)
      (hr : Receiving d.toNat data 9 x r) (hlate : lead d.toNat ≤ x) : Way d s r []

theorem Way.length_le {d : BitVec 32} {s : Send} {r : Recv} {l : List (BitVec 8)}
    (h : Way d s r l) : l.length ≤ 1 := by
  cases h <;> simp

/-- A frame in its next cycle. -/
theorem way_of_frame {d : BitVec 32} {data : BitVec 8} {q x : ℕ} {s : Send} {r : Recv}
    (hq : q < 10) (hx : x < d.toNat + 2) (hs : Sending data q x s)
    (hr : Receiving d.toNat data q x r) :
    Way d s r (if q < 9 ∨ x < lead d.toNat then [data] else []) := by
  split
  · rename_i hleft
    exact .sent hq hx hs hr hleft
  · rename_i hlate
    obtain rfl : q = 9 := by omega
    exact .closing hx hs hr (by omega)

section

variable {d : BitVec 32} (hd : Sound d) {s : Send} {r : Recv} {i : UartIn} (re : Bool)

include hd

/-- One edge: what was on its way and what is taken is what is delivered and
what is on its way after. -/
theorem way_step {l : List (BitVec 8)} (h : Way d s r l) (hi : i.reg_div_we = 0) :
    ∃ l', Way d (s.step d true i) (r.step d true (ser_tx s) re) l'
      ∧ l ++ accepted s true i = delivered r d true ++ l' := by
  -- a frame on the line: sender and receiver move together, and the byte is
  -- on its way until the cycle that delivers it
  have hframe : ∀ {data : BitVec 8} {q x : ℕ}, q < 10 → x < d.toNat + 2 → Sending data q x s →
      Receiving d.toNat data q x r →
      ∃ l', Way d (s.step d true i) (r.step d true (ser_tx s) re) l'
        ∧ (if q < 9 ∨ x < lead d.toNat then [data] else []) = delivered r d true ++ l' := by
    intro data q x hq hx hs hr
    have hsend := sending_step hs hi hq hx hd.2
    have hrecv := receiving_step re hr hq hx (tx_sending hs) hd.1 hd.2
    have hlead : lead d.toNat ≤ d.toNat + 2 := by
      have := hd.1
      unfold lead
      omega
    rw [hrecv.2]
    have hafter := hrecv.1
    unfold After at hafter
    split at hafter
    · -- within the bit
      rename_i hin
      refine ⟨_, way_of_frame hq hin (hsend.1 hin) hafter, ?_⟩
      by_cases hdone : q = 9 ∧ x + 1 = lead d.toNat
      · rw [if_pos hdone, if_pos (by omega), if_neg (by omega)]
        rfl
      · rw [if_neg hdone]
        by_cases hleft : q < 9 ∨ x < lead d.toNat
        · rw [if_pos hleft, if_pos (by omega)]
          rfl
        · rw [if_neg hleft, if_neg (by omega)]
          rfl
    · rename_i hout
      split at hafter
      · -- to the next bit
        rename_i hq9
        refine ⟨_, way_of_frame (by omega) (by omega) (hsend.2.1 (by omega) hq9) hafter, ?_⟩
        rw [if_pos (Or.inl hq9), if_neg (by omega),
          if_pos (Or.inr (by unfold lead; omega))]
        rfl
      · -- the frame is over
        refine ⟨[], .idle (hsend.2.2 (by omega) (by omega)) hafter, ?_⟩
        by_cases hdone : q = 9 ∧ x + 1 = lead d.toNat
        · rw [if_pos hdone, if_pos (by omega)]
          rfl
        · rw [if_neg hdone, if_neg (by omega)]
          rfl
  -- a sender that is busy takes no byte
  have hbusy : ∀ {data : BitVec 8} {q x : ℕ}, q < 10 → Sending data q x s →
      accepted s true i = [] := by
    intro data q x hq hs
    apply accepted_busy
    intro h0
    have hcnt := hs.bitcnt
    rw [h0] at hcnt
    have : (0#4).toNat = 0 := rfl
    omega
  cases h with
  | idle hs hr =>
      have hlisten := listening_step d (ser_tx s) re hr (tx_silent hs)
      rw [hlisten.2]
      rcases silent_step d hs hi with ⟨hacc, hnext⟩ | ⟨data, hacc, hnext⟩
      · exact ⟨[], .idle hnext hlisten.1, by rw [hacc]⟩
      · -- the start bit goes out
        refine ⟨[data], .sent (by decide) (by omega) hnext (.edge rfl rfl hlisten.1)
          (Or.inl (by decide)), by rw [hacc]⟩
  | sent hq hx hs hr hleft =>
      rcases hframe hq hx hs hr with ⟨l', hway, heq⟩
      rw [if_pos hleft] at heq
      -- the byte has still to be delivered
      exact ⟨l', hway, by rw [hbusy hq hs, List.append_nil, heq]⟩
  | closing hx hs hr hlate =>
      rcases hframe (by decide) hx hs hr with ⟨l', hway, heq⟩
      rw [if_neg (by omega)] at heq
      -- the rest of the stop bit: the byte has been delivered
      exact ⟨l', hway, by rw [hbusy (by decide) hs, List.append_nil, heq]⟩

end

/-! ## Both ports -/

/-- Both ports set to `d`, with nothing on the lines. -/
structure Configured (d : BitVec 32) (s : Link) : Prop where
  cfg_a : s.a.cfg_divider = d
  cfg_b : s.b.cfg_divider = d
  silent_a : Silent s.a.send
  silent_b : Silent s.b.send
  listen_a : Listening s.a.recv
  listen_b : Listening s.b.recv

/-- What is on its way from the first port to the second. -/
structure Carrying (d : BitVec 32) (s : Link) (l : List (BitVec 8)) : Prop where
  cfg_a : s.a.cfg_divider = d
  cfg_b : s.b.cfg_divider = d
  way : Way d s.a.send s.b.recv l

theorem Configured.swap {d : BitVec 32} {s : Link} (h : Configured d s) : Configured d s.swap :=
  ⟨h.cfg_b, h.cfg_a, h.silent_b, h.silent_a, h.listen_b, h.listen_a⟩

theorem Configured.carrying {d : BitVec 32} {s : Link} (h : Configured d s) : Carrying d s [] :=
  ⟨h.cfg_a, h.cfg_b, .idle h.silent_a h.listen_b⟩

/-- After reset the write of a divider takes effect at once: the ports are set
up by one edge in reset and one that writes the same value to both. -/
theorem configured_of_reset (DEFAULT_DIV d : BitVec 32) (s : Link) {i j : LinkIn}
    (hi : i.resetn = false) (hj : j.resetn = true)
    (ha : j.a.reg_div_we = 15#4 ∧ j.a.reg_div_di = d)
    (hb : j.b.reg_div_we = 15#4 ∧ j.b.reg_div_di = d) :
    Configured d ((s.step DEFAULT_DIV i).step DEFAULT_DIV j) := by
  constructor
  · simp [Link.step, Uart.step, cfg_step, hj, ha]
  · simp [Link.step, Uart.step, cfg_step, hj, hb]
  · exact ⟨by simp [Link.step, Uart.step, Send.step, hi, hj],
      by simp [Link.step, Uart.step, Send.step, hi, hj]⟩
  · exact ⟨by simp [Link.step, Uart.step, Send.step, hi, hj],
      by simp [Link.step, Uart.step, Send.step, hi, hj]⟩
  · simp [Listening, Link.step, Uart.step, Recv.step, Send.step, hi, hj, ser_tx]
  · simp [Listening, Link.step, Uart.step, Recv.step, Send.step, hi, hj, ser_tx]

section

variable (DEFAULT_DIV : BitVec 32) {d : BitVec 32} (hd : Sound d)

include hd

theorem carrying_step {s : Link} {i : LinkIn} {l : List (BitVec 8)} (h : Carrying d s l)
    (hi : Working i) :
    ∃ l', Carrying d (s.step DEFAULT_DIV i) l'
      ∧ l ++ s.acceptedA i = s.deliveredB i ++ l' := by
  rcases way_step hd i.b.reg_dat_re h.way hi.2.1 with ⟨l', hway, heq⟩
  refine ⟨l', ⟨?_, ?_, ?_⟩, ?_⟩
  · simp only [Link.step, Uart.step, cfg_step, hi.1, hi.2.1]
    exact (mergeBytes_none _ _).trans h.cfg_a
  · simp only [Link.step, Uart.step, cfg_step, hi.1, hi.2.2]
    exact (mergeBytes_none _ _).trans h.cfg_b
  · simp only [Link.step, Uart.step, hi.1, h.cfg_a, h.cfg_b]
    exact hway
  · simp only [Link.acceptedA, Link.deliveredB, hi.1, h.cfg_b]
    exact heq

/-- Along a run in one direction. -/
theorem carrying_run {s : Link} {l : List (BitVec 8)} (h : Carrying d s l) {ins : List LinkIn}
    (hins : ∀ i ∈ ins, Working i) :
    ∃ l', Carrying d (run (Link.step DEFAULT_DIV) s ins) l'
      ∧ l ++ events (Link.step DEFAULT_DIV) Link.acceptedA s ins
        = events (Link.step DEFAULT_DIV) Link.deliveredB s ins ++ l' :=
  events_passed (Carrying d) (fun _ _ _ hQ hi => carrying_step DEFAULT_DIV hd hQ hi) h
    (along_of_inputs (Link.step DEFAULT_DIV) hins)

/-- The processor reads a byte before the next one comes in. -/
def KeepsUp (s : Link) (i : LinkIn) : Prop :=
  Working i
    ∧ (s.deliveredB i ≠ [] → s.b.recv.recv_buf_valid = true → i.b.reg_dat_re = true)

instance : ∀ s i, Decidable (KeepsUp s i) := fun s i =>
  inferInstanceAs (Decidable (Working i
    ∧ (s.deliveredB i ≠ [] → s.b.recv.recv_buf_valid = true → i.b.reg_dat_re = true)))

/-- A frame on its way from the first port to the second. -/
structure Framed (d : BitVec 32) (data : BitVec 8) (q x : ℕ) (s : Link) : Prop where
  cfg_a : s.a.cfg_divider = d
  cfg_b : s.b.cfg_divider = d
  bit : q < 10
  cycle : x < d.toNat + 2
  sending : Sending data q x s.a.send
  receiving : Receiving d.toNat data q x s.b.recv

/-- Until its last cycle a frame goes on, and delivers nothing. -/
theorem framed_step {s : Link} {i : LinkIn} {data : BitVec 8} {q x : ℕ}
    (h : Framed d data q x s) (hi : Working i)
    (hlt : q * (d.toNat + 2) + x + 1 < 9 * (d.toNat + 2) + lead d.toNat) :
    s.deliveredB i = []
      ∧ ∃ q' x', Framed d data q' x' (s.step DEFAULT_DIV i)
        ∧ q' * (d.toNat + 2) + x' = q * (d.toNat + 2) + x + 1 := by
  have hlead : lead d.toNat ≤ d.toNat + 2 := by
    have := hd.1
    unfold lead
    omega
  have hsend := sending_step h.sending hi.2.1 h.bit h.cycle hd.2
  have hrecv := receiving_step i.b.reg_dat_re h.receiving h.bit h.cycle (tx_sending h.sending) hd.1
    hd.2
  -- the position is before the one that delivers
  have hnot : ¬ (q = 9 ∧ x + 1 = lead d.toNat) := by
    rintro ⟨rfl, hx⟩
    omega
  -- the dividers stay what they were, so the two halves make a frame again
  have hnext : ∀ {q' x'}, q' < 10 → x' < d.toNat + 2 →
      Sending data q' x' (s.a.send.step d true i.a) →
      Receiving d.toNat data q' x' (s.b.recv.step d true (ser_tx s.a.send) i.b.reg_dat_re) →
      Framed d data q' x' (s.step DEFAULT_DIV i) := by
    intro q' x' hq' hx' hs hr
    have hcfg := carrying_step DEFAULT_DIV hd ⟨h.cfg_a, h.cfg_b,
      way_of_frame h.bit h.cycle h.sending h.receiving⟩ hi
    rcases hcfg with ⟨_, hcarry, _⟩
    refine ⟨hcarry.cfg_a, hcarry.cfg_b, hq', hx', ?_, ?_⟩
    · simpa only [Link.step, Uart.step, hi.1, h.cfg_a] using hs
    · simpa only [Link.step, Uart.step, hi.1, h.cfg_b] using hr
  refine ⟨?_, ?_⟩
  · rw [Link.deliveredB, hi.1, h.cfg_b, hrecv.2, if_neg hnot]
  · have hafter := hrecv.1
    unfold After at hafter
    split at hafter
    · rename_i hin
      -- within the bit
      exact ⟨q, x + 1, hnext h.bit hin (hsend.1 hin) hafter, rfl⟩
    · rename_i hout
      have hcycle := h.cycle
      have hlast : x + 1 = d.toNat + 2 := by omega
      split at hafter
      · rename_i hq9
        -- to the next bit
        refine ⟨q + 1, 0, hnext (by omega) (by omega) (hsend.2.1 hlast hq9) hafter, ?_⟩
        rw [Nat.succ_mul]
        omega
      · -- in the stop bit the end comes before the bit is over
        have hbit := h.bit
        obtain rfl : q = 9 := by omega
        omega

/-- A frame through a number of cycles. -/
theorem framed_run {ins : List LinkIn} {s : Link} {data : BitVec 8} {q x : ℕ}
    (h : Framed d data q x s) (hins : ∀ i ∈ ins, Working i)
    (hlen : q * (d.toNat + 2) + x + ins.length < 9 * (d.toNat + 2) + lead d.toNat) :
    events (Link.step DEFAULT_DIV) Link.deliveredB s ins = []
      ∧ ∃ q' x', Framed d data q' x' (run (Link.step DEFAULT_DIV) s ins)
        ∧ q' * (d.toNat + 2) + x' = q * (d.toNat + 2) + x + ins.length := by
  induction ins generalizing s q x with
  | nil => exact ⟨rfl, q, x, h, rfl⟩
  | cons i ins ih =>
      rw [List.length_cons] at hlen
      rcases framed_step DEFAULT_DIV hd h (hins i List.mem_cons_self) (by omega)
        with ⟨hnone, q1, x1, h1, hpos1⟩
      rcases ih h1 (fun j hj => hins j (List.mem_cons_of_mem i hj)) (by omega)
        with ⟨hrest, q', x', h', hpos⟩
      refine ⟨by rw [events_cons, hnone, hrest]; rfl, q', x', h', ?_⟩
      rw [hpos, hpos1, List.length_cons]
      omega

/-- The last cycle of a frame delivers the byte. -/
theorem framed_last {s : Link} {i : LinkIn} {data : BitVec 8} {q x : ℕ}
    (h : Framed d data q x s) (hi : Working i)
    (hlast : q * (d.toNat + 2) + x + 1 = 9 * (d.toNat + 2) + lead d.toNat) :
    s.deliveredB i = [data] := by
  have hlead : lead d.toNat ≤ d.toNat + 2 := by
    have := hd.1
    unfold lead
    omega
  have hrecv := receiving_step i.b.reg_dat_re h.receiving h.bit h.cycle (tx_sending h.sending) hd.1
    hd.2
  have hq : q = 9 := by
    have hbit := h.bit
    have hcycle := h.cycle
    by_cases hq : q ≤ 8
    · have hmul : q * (d.toNat + 2) ≤ 8 * (d.toNat + 2) := Nat.mul_le_mul_right _ hq
      have hpos : 0 < lead d.toNat := by unfold lead; omega
      omega
    · omega
  rw [hq] at hlast
  rw [Link.deliveredB, hi.1, h.cfg_b, hrecv.2, if_pos ⟨hq, by omega⟩]

/-- The edge that takes a byte puts its start bit on the line. -/
theorem framed_of_accepted {s : Link} {l : List (BitVec 8)} {i : LinkIn} {data : BitVec 8}
    (h : Carrying d s l) (hi : Working i) (hacc : s.acceptedA i = [data]) :
    Framed d data 0 0 (s.step DEFAULT_DIV i) := by
  have hbusy : ∀ {data' : BitVec 8} {q x : ℕ}, q < 10 → ¬ Sending data' q x s.a.send := by
    intro data' q x hq hs
    have hne : s.a.send.send_bitcnt ≠ 0#4 := by
      intro h0
      have hcnt := hs.bitcnt
      rw [h0] at hcnt
      have : (0#4).toNat = 0 := rfl
      omega
    rw [Link.acceptedA, accepted_busy _ hne] at hacc
    cases hacc
  rcases carrying_step DEFAULT_DIV hd h hi with ⟨_, hcarry, _⟩
  cases h.way with
  | idle hs hr =>
      have hlisten := listening_step d (ser_tx s.a.send) i.b.reg_dat_re hr (tx_silent hs)
      rw [Link.acceptedA, hi.1] at hacc
      rcases silent_step d hs hi.2.1 with ⟨hnone, _⟩ | ⟨data', hone, hsend⟩
      · rw [hnone] at hacc
        cases hacc
      · rw [hone] at hacc
        obtain rfl : data' = data := List.singleton_inj.mp hacc
        refine ⟨hcarry.cfg_a, hcarry.cfg_b, by decide, by omega, ?_, .edge rfl rfl ?_⟩
        · simpa only [Link.step, Uart.step, hi.1, h.cfg_a] using hsend
        · have hnext := hlisten.1
          simpa only [Listening, Link.step, Uart.step, hi.1, h.cfg_b] using hnext
  | sent hq _ hs => exact absurd hs (hbusy hq)
  | closing _ hs => exact absurd hs (hbusy (by decide))

end

end SocRtl.Uart
