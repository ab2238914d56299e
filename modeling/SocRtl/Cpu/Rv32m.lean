import SocRtl.Cpu.PcpiDiv
import SocRtl.Cpu.PcpiFastMul
import SocRtl.Cpu.PcpiMul
import SocRtl.Cpu.PcpiPort
import Mathlib.Algebra.Group.Nat.Defs

/-!
# SocRtl.Cpu.Rv32m — the M extension of the core

The core with its divider and with either multiplier, from power-up on. The
results for any two units that keep the contract of a co-processor become
results about the units of the SoC: what leaves the core, when, that the fast
multiplier agrees with the plain one, and which instructions never leave.
-/

namespace SocRtl.Cpu

section

variable {σ τ : Type}

/-- The state is met in a run that begins with two edges in reset. -/
def Reached (rvc : Bool) (mul : PcpiUnit σ) (div : PcpiUnit τ) (s : Bus σ τ) : Prop :=
  ∃ s0 i j ins, i.resetn = false ∧ j.resetn = false ∧ (∀ x ∈ ins, x.resetn = true)
    ∧ s = run (Bus.step rvc mul div) (Bus.step rvc mul div (Bus.step rvc mul div s0 i) j) ins

section

variable {rvc : Bool} {mul : PcpiUnit σ} {div : PcpiUnit τ}
  (cm : Contract mul (answerM MulDiv.isMul)) (cd : Contract div (answerM MulDiv.isDiv))

include cm cd

theorem running_of_reached {s : Bus σ τ} (h : Reached rvc mul div s) : Running rvc cm cd s := by
  rcases h with ⟨s0, i, j, ins, hi, hj, hins, rfl⟩
  have hreset : Running rvc cm cd (Bus.step rvc mul div (Bus.step rvc mul div s0 i) j) :=
    Or.inl (resting_of_reset rvc s0 hi hj).1
  exact (outcomes_of_running hreset hins).1

variable (rvc) in
theorem outcomes_of_reset (s0 : Bus σ τ) {i j : PortIn} (hi : i.resetn = false)
    (hj : j.resetn = false) {ins : List PortIn} (hins : ∀ x ∈ ins, x.resetn = true) :
    let s := Bus.step rvc mul div (Bus.step rvc mul div s0 i) j
    let ended := events (Bus.step rvc mul div) (Bus.ended rvc mul div) s ins
    events (Bus.step rvc mul div) Bus.issued s ins
        = ended.map Prod.fst ++ (run (Bus.step rvc mul div) s ins).pending
      ∧ (run (Bus.step rvc mul div) s ins).pending.length ≤ 1
      ∧ ∀ e ∈ ended, outcome rvc e.1 = some e.2 := by
  have hrest := (resting_of_reset rvc s0 hi hj : Resting cm cd _ ∧ _).1
  have hreset : Running rvc cm cd (Bus.step rvc mul div (Bus.step rvc mul div s0 i) j) :=
    Or.inl hrest
  have hrun := outcomes_of_running hreset hins
  refine ⟨?_, ?_, hrun.2.2⟩
  · rw [← hrun.2.1, pending_resting hrest]
    rfl
  · unfold Bus.pending
    split <;> simp

variable (rvc) in
/-- What has left is what was issued at the same place. -/
theorem issued_of_ended (s0 : Bus σ τ) {i j : PortIn} (hi : i.resetn = false)
    (hj : j.resetn = false) {ins : List PortIn} (hins : ∀ x ∈ ins, x.resetn = true) {k : ℕ}
    {e : Request × Outcome}
    (he : (events (Bus.step rvc mul div) (Bus.ended rvc mul div)
      (Bus.step rvc mul div (Bus.step rvc mul div s0 i) j) ins)[k]? = some e) :
    (events (Bus.step rvc mul div) Bus.issued
        (Bus.step rvc mul div (Bus.step rvc mul div s0 i) j) ins)[k]?
        = some e.1
      ∧ outcome rvc e.1 = some e.2 := by
  have hrun := outcomes_of_reset rvc cm cd s0 hi hj hins
  rcases List.getElem?_eq_some_iff.mp he with ⟨hlt, _⟩
  refine ⟨?_, hrun.2.2 e (List.mem_of_getElem? he)⟩
  rw [hrun.1, List.getElem?_append_left (by rw [List.length_map]; exact hlt), List.getElem?_map, he]
  rfl

end

/-- Nothing is issued where nothing is decoded. -/
theorem issued_of_nothing (rvc : Bool) (mul : PcpiUnit σ) (div : PcpiUnit τ) {ins : List PortIn}
    (hins : ∀ x ∈ ins, x.decoded = none) (s : Bus σ τ) :
    events (Bus.step rvc mul div) Bus.issued s ins = [] := by
  induction ins generalizing s with
  | nil => rfl
  | cons i ins ih =>
      rw [events_cons, ih (fun x hx => hins x (List.mem_cons_of_mem i hx)), Bus.issued,
        hins i List.mem_cons_self]
      simp

end

section

variable (rvc : Bool) {STEPS_AT_ONCE CARRY_CHAIN : ℕ}

/-- A port, a divider and an input for concrete runs: some power-up state, a
cycle in reset, a cycle without an instruction, and `mul a0, a1, a2` with six
and seven. -/
def samplePort : Port := ⟨.fetch, false, 0, 0, 0, 0, 0, 0, false⟩

def sampleDiv : PcpiDiv.State :=
  ⟨false, false, false, false, false, false, 0, 0, 0, 0, false, false, false, none, false⟩

def inReset : PortIn := ⟨false, none, false⟩

def nothing : PortIn := ⟨true, none, false⟩

theorem mem_nothing (n : ℕ) : ∀ x ∈ List.replicate n nothing ++ [nothing], x = nothing := by
  intro x hx
  rcases List.mem_append.mp hx with hx | hx
  · exact List.eq_of_mem_replicate hx
  · exact List.mem_singleton.mp hx

theorem resetn_nothing (n : ℕ) : ∀ x ∈ List.replicate n nothing, x.resetn = true := by
  intro x hx
  rw [List.eq_of_mem_replicate hx]
  rfl

def sampleRequest : Request := ⟨0x02c58533#32, 6#32, 7#32⟩

def sampleMul : PortIn := ⟨true, some sampleRequest, false⟩

theorem resetn_sampleMul (n : ℕ) :
    ∀ x ∈ sampleMul :: (List.replicate n nothing ++ [nothing]), x.resetn = true := by
  intro x hx
  rcases List.mem_cons.mp hx with rfl | hx
  · rfl
  · rw [mem_nothing n x hx]
    rfl

/-- The core with the multiplier that takes a few bits a cycle. -/
abbrev Plain := Bus PcpiMul.State PcpiDiv.State

abbrev plainStep (COMPRESSED_ISA : Bool) (STEPS_AT_ONCE CARRY_CHAIN : ℕ) : Plain → PortIn → Plain :=
  Bus.step COMPRESSED_ISA (PcpiMul.picorv32_pcpi_mul STEPS_AT_ONCE CARRY_CHAIN)
    PcpiDiv.picorv32_pcpi_div

abbrev plainEnded (COMPRESSED_ISA : Bool) (STEPS_AT_ONCE CARRY_CHAIN : ℕ) :
    Plain → PortIn → List (Request × Outcome) :=
  Bus.ended COMPRESSED_ISA (PcpiMul.picorv32_pcpi_mul STEPS_AT_ONCE CARRY_CHAIN)
    PcpiDiv.picorv32_pcpi_div

def samplePlain : Plain :=
  ⟨samplePort, ⟨false, false, false, false, false, false, ⟨0, 0, 0, 0⟩, 0, false, false, false,
    none, false⟩, sampleDiv⟩

/-- The state after two cycles in reset. -/
abbrev plainStart : Plain :=
  plainStep true 1 4 (plainStep true 1 4 samplePlain inReset) inReset

/-- The core with the multiplier made of multipliers. -/
abbrev Fast := Bus PcpiFastMul.State PcpiDiv.State

def sampleFast : Fast := ⟨samplePort, ⟨false, 0, 0, 0, 0, 0, 0, 0, false⟩, sampleDiv⟩

abbrev fastStep (COMPRESSED_ISA : Bool) (p : PcpiFastMul.Params) : Fast → PortIn → Fast :=
  Bus.step COMPRESSED_ISA (PcpiFastMul.picorv32_pcpi_fast_mul p) PcpiDiv.picorv32_pcpi_div

abbrev fastEnded (COMPRESSED_ISA : Bool) (p : PcpiFastMul.Params) :
    Fast → PortIn → List (Request × Outcome) :=
  Bus.ended COMPRESSED_ISA (PcpiFastMul.picorv32_pcpi_fast_mul p) PcpiDiv.picorv32_pcpi_div

abbrev fastStart : Fast :=
  fastStep true ⟨false, false, false⟩ (fastStep true ⟨false, false, false⟩ sampleFast inReset)
    inReset

theorem ended_plainStart :
    events (plainStep true 1 4) (plainEnded true 1 4) plainStart
        (sampleMul :: (List.replicate 37 nothing ++ [nothing]))
      = [(sampleRequest, .result true (some 42#32))] := by
  have hC : PcpiMul.Chunks 4 := Or.inr (by decide)
  have hS : 1 ≤ 64 := by decide
  have hproduct : rv32m sampleRequest = some 42#32 := by decide
  have hrest : Resting (PcpiMul.contract hC (Nat.le_refl 1) hS) PcpiDiv.contract plainStart :=
    (resting_of_reset true samplePlain rfl rfl).1
  rw [(result_of_issue true hrest (i := sampleMul) rfl rfl rfl (hproduct ▸ Option.some_ne_none _)
    (resetn_nothing 37) rfl (j := nothing) rfl).2, hproduct]

/-- From any power-up state and two edges in reset on, however instructions
arrive: those that have entered `ld_rs1` are those that have left it, in the
same order, and at most the one that is still there. Whatever has left did so
with the result the M extension asks for, or with the trap of `ecall`, `ebreak`
and, with compressed instructions, `c.ebreak`. This holds for every number of
steps a cycle and every chunk width. -/
theorem plain_outcomes_of_run (hS : 1 ≤ STEPS_AT_ONCE) (hS' : STEPS_AT_ONCE ≤ 64)
    (hC : PcpiMul.Chunks CARRY_CHAIN) (s0 : Plain) {i j : PortIn} (hi : i.resetn = false)
    (hj : j.resetn = false) {ins : List PortIn} (hins : ∀ x ∈ ins, x.resetn = true) :
    let s := plainStep rvc STEPS_AT_ONCE CARRY_CHAIN
      (plainStep rvc STEPS_AT_ONCE CARRY_CHAIN s0 i) j
    let ended := events (plainStep rvc STEPS_AT_ONCE CARRY_CHAIN)
      (plainEnded rvc STEPS_AT_ONCE CARRY_CHAIN) s ins
    events (plainStep rvc STEPS_AT_ONCE CARRY_CHAIN) Bus.issued s ins
        = ended.map Prod.fst ++ (run (plainStep rvc STEPS_AT_ONCE CARRY_CHAIN) s ins).pending
      ∧ (run (plainStep rvc STEPS_AT_ONCE CARRY_CHAIN) s ins).pending.length ≤ 1
      ∧ ∀ e ∈ ended, outcome rvc e.1 = some e.2 := by
  exact outcomes_of_reset rvc (PcpiMul.contract hC hS hS') PcpiDiv.contract s0 hi hj hins

theorem plain_outcomes_of_run_sample :
    let ins := sampleMul :: (List.replicate 37 nothing ++ [nothing])
    let ended := events (plainStep true 1 4) (plainEnded true 1 4) plainStart ins
    ended = [(sampleRequest, .result true (some 42#32))]
      ∧ events (plainStep true 1 4) Bus.issued plainStart ins
          = ended.map Prod.fst ++ (run (plainStep true 1 4) plainStart ins).pending
      ∧ (run (plainStep true 1 4) plainStart ins).pending.length ≤ 1
      ∧ ∀ e ∈ ended, outcome true e.1 = some e.2 :=
  ⟨ended_plainStart, plain_outcomes_of_run true (Nat.le_refl 1) (show 1 ≤ 64 by decide)
    (show PcpiMul.Chunks 4 from Or.inr (by decide)) samplePlain rfl rfl (resetn_sampleMul 37)⟩

/-- The same with the fast multiplier. -/
theorem fast_outcomes_of_run {p : PcpiFastMul.Params} (hp : PcpiFastMul.Usable p) (s0 : Fast)
    {i j : PortIn} (hi : i.resetn = false) (hj : j.resetn = false) {ins : List PortIn}
    (hins : ∀ x ∈ ins, x.resetn = true) :
    let s := fastStep rvc p (fastStep rvc p s0 i) j
    let ended := events (fastStep rvc p) (fastEnded rvc p) s ins
    events (fastStep rvc p) Bus.issued s ins
        = ended.map Prod.fst ++ (run (fastStep rvc p) s ins).pending
      ∧ (run (fastStep rvc p) s ins).pending.length ≤ 1
      ∧ ∀ e ∈ ended, outcome rvc e.1 = some e.2 := by
  exact outcomes_of_reset rvc (PcpiFastMul.contract hp) PcpiDiv.contract s0 hi hj hins

/-- The fast multiplier agrees with the plain one: in runs of the two cores that
decode the same instructions, at whatever times, the instructions leave with
the same outcomes. -/
theorem fast_agrees (hS : 1 ≤ STEPS_AT_ONCE) (hS' : STEPS_AT_ONCE ≤ 64)
    (hC : PcpiMul.Chunks CARRY_CHAIN) {p : PcpiFastMul.Params} (hp : PcpiFastMul.Usable p)
    (s0 : Plain) (t0 : Fast) {i j i' j' : PortIn} (hi : i.resetn = false) (hj : j.resetn = false)
    (hi' : i'.resetn = false) (hj' : j'.resetn = false) {ins ins' : List PortIn}
    (hins : ∀ x ∈ ins, x.resetn = true) (hins' : ∀ x ∈ ins', x.resetn = true)
    (hsame : events (plainStep rvc STEPS_AT_ONCE CARRY_CHAIN) Bus.issued
        (plainStep rvc STEPS_AT_ONCE CARRY_CHAIN
          (plainStep rvc STEPS_AT_ONCE CARRY_CHAIN s0 i) j) ins
      = events (fastStep rvc p) Bus.issued (fastStep rvc p (fastStep rvc p t0 i') j') ins')
    {k : ℕ}
    (hk : k < (events (plainStep rvc STEPS_AT_ONCE CARRY_CHAIN)
      (plainEnded rvc STEPS_AT_ONCE CARRY_CHAIN)
      (plainStep rvc STEPS_AT_ONCE CARRY_CHAIN
        (plainStep rvc STEPS_AT_ONCE CARRY_CHAIN s0 i) j) ins).length)
    (hk' : k < (events (fastStep rvc p) (fastEnded rvc p)
      (fastStep rvc p (fastStep rvc p t0 i') j') ins').length) :
    (events (plainStep rvc STEPS_AT_ONCE CARRY_CHAIN) (plainEnded rvc STEPS_AT_ONCE CARRY_CHAIN)
        (plainStep rvc STEPS_AT_ONCE CARRY_CHAIN
          (plainStep rvc STEPS_AT_ONCE CARRY_CHAIN s0 i) j) ins)[k]?
      = (events (fastStep rvc p) (fastEnded rvc p)
        (fastStep rvc p (fastStep rvc p t0 i') j') ins')[k]? := by
  have he := List.getElem?_eq_getElem hk
  have he' := List.getElem?_eq_getElem hk'
  have hplain := issued_of_ended rvc (PcpiMul.contract hC hS hS') PcpiDiv.contract s0 hi hj hins he
  have hfast := issued_of_ended rvc (PcpiFastMul.contract hp) PcpiDiv.contract t0 hi' hj' hins' he'
  rw [he, he']
  congr 1
  -- the k-th to leave is the k-th to enter, and these are the same
  have hreq := Option.some.inj
    (hplain.1.symm.trans ((congrArg (·[k]?) hsame).trans hfast.1))
  refine Prod.ext hreq (Option.some.inj ?_)
  rw [← hplain.2, ← hfast.2, hreq]

theorem fast_agrees_sample :
    (events (plainStep true 1 4) (plainEnded true 1 4)
        plainStart (sampleMul :: (List.replicate 37 nothing ++ [nothing])))[0]?
      = (events (fastStep true ⟨false, false, false⟩) (fastEnded true ⟨false, false, false⟩)
        fastStart (sampleMul :: (List.replicate 3 nothing ++ [nothing])))[0]? := by
  have hp : PcpiFastMul.Usable ⟨false, false, false⟩ := ⟨rfl, by decide⟩
  have hm : rv32m sampleRequest ≠ none := by decide
  have hfast := result_of_issue true (i := sampleMul) (j := nothing)
    ((resting_of_reset true sampleFast (i := inReset) (j := inReset) rfl rfl :
      Resting (PcpiFastMul.contract hp) PcpiDiv.contract _ ∧ _).1)
    rfl rfl rfl hm (resetn_nothing 3) rfl rfl
  have hnone : ∀ n, ∀ x ∈ List.replicate n nothing ++ [nothing], x.decoded = none := by
    intro n x hx
    rw [mem_nothing n x hx]
    rfl
  -- both runs decode the one multiplication
  have hsame : events (plainStep true 1 4) Bus.issued
        plainStart (sampleMul :: (List.replicate 37 nothing ++ [nothing]))
      = events (fastStep true ⟨false, false, false⟩) Bus.issued
        fastStart (sampleMul :: (List.replicate 3 nothing ++ [nothing])) := by
    rw [events_cons, events_cons, issued_of_nothing _ _ _ (hnone 37),
      issued_of_nothing _ _ _ (hnone 3)]
    rfl
  exact fast_agrees true (Nat.le_refl 1) (show 1 ≤ 64 by decide)
    (show PcpiMul.Chunks 4 from Or.inr (by decide)) hp samplePlain sampleFast rfl rfl rfl rfl
    (resetn_sampleMul 37) (resetn_sampleMul 3) hsame (ended_plainStart ▸ Nat.one_pos)
    (hfast.2 ▸ Nat.one_pos)

/-- The edges from the presentation of an M instruction to its answer. -/
def plainLatency (STEPS_AT_ONCE : ℕ) (op : MulDiv) : ℕ :=
  if op.isMul then PcpiMul.clocks STEPS_AT_ONCE op + 4 else 36

/-- In every reachable state that decodes an M instruction, the result leaves at
an edge that the instruction alone determines, and not before. -/
theorem plain_result_at (hS : 1 ≤ STEPS_AT_ONCE) (hS' : STEPS_AT_ONCE ≤ 64)
    (hC : PcpiMul.Chunks CARRY_CHAIN) {s : Plain}
    (hs : Reached rvc (PcpiMul.picorv32_pcpi_mul STEPS_AT_ONCE CARRY_CHAIN)
      PcpiDiv.picorv32_pcpi_div s)
    (hfetch : s.port.cpu_state = .fetch) {i : PortIn} (hi : i.resetn = true) {r : Request}
    (hr : i.decoded = some r) {op : MulDiv} (hop : decodeM r.insn = some op) {ins : List PortIn}
    (hins : ∀ x ∈ ins, x.resetn = true) (hlen : ins.length = plainLatency STEPS_AT_ONCE op + 1)
    {j : PortIn} (hj : j.resetn = true) :
    events (plainStep rvc STEPS_AT_ONCE CARRY_CHAIN) (plainEnded rvc STEPS_AT_ONCE CARRY_CHAIN)
        s (i :: ins) = []
      ∧ events (plainStep rvc STEPS_AT_ONCE CARRY_CHAIN) (plainEnded rvc STEPS_AT_ONCE CARRY_CHAIN)
        s (i :: (ins ++ [j])) = [(r, .result true (some (op.result r.rs1 r.rs2)))] := by
  -- a core that decodes has nothing in flight
  have hrest := resting_of_running
    (running_of_reached (PcpiMul.contract hC hS hS') PcpiDiv.contract hs) hfetch
  have hm : rv32m r = some (op.result r.rs1 r.rs2) := by rw [rv32m, hop]; rfl
  -- multiplications and divisions wait for their own unit
  have hlatency : latency (PcpiMul.contract hC hS hS') PcpiDiv.contract r
      = plainLatency STEPS_AT_ONCE op := by
    unfold latency plainLatency
    cases hmul : op.isMul with
    | true =>
        rw [if_pos (by simp [answerM, hop, hmul]), if_pos rfl]
        exact PcpiMul.latency_of_asks STEPS_AT_ONCE ⟨hop, hmul⟩
    | false =>
        rw [if_neg (by simp [answerM, hop, hmul])]
        rfl
  have hresult := result_of_issue rvc hrest hi hfetch hr (by rw [hm]; exact Option.some_ne_none _)
    hins (by rw [hlen, hlatency]) hj
  rw [hm] at hresult
  exact hresult

theorem plain_result_at_sample :
    events (plainStep true 1 4) (plainEnded true 1 4)
        plainStart (sampleMul :: (List.replicate 37 nothing ++ [nothing]))
      = [(sampleRequest, .result true (some 42#32))] := by
  have hproduct : MulDiv.result .mul sampleRequest.rs1 sampleRequest.rs2 = 42#32 := by decide
  have hresult := (plain_result_at true (Nat.le_refl 1) (show 1 ≤ 64 by decide)
    (show PcpiMul.Chunks 4 from Or.inr (by decide))
    ⟨samplePlain, inReset, inReset, [], rfl, rfl, by decide, rfl⟩ rfl (i := sampleMul) rfl rfl
    (show decodeM sampleRequest.insn = some .mul by decide) (resetn_nothing 37) rfl
    (j := nothing) rfl).2
  rw [hproduct] at hresult
  exact hresult

/-- In every reachable state that decodes an instruction which neither the M
extension nor `ecall` and the breaks account for, the core stays in `ld_rs1` for
good: the timeout that should have trapped it is never looked at while the
counter counts. -/
theorem plain_stuck (hS : 1 ≤ STEPS_AT_ONCE) (hS' : STEPS_AT_ONCE ≤ 64)
    (hC : PcpiMul.Chunks CARRY_CHAIN) {s : Plain}
    (hs : Reached rvc (PcpiMul.picorv32_pcpi_mul STEPS_AT_ONCE CARRY_CHAIN)
      PcpiDiv.picorv32_pcpi_div s)
    (hfetch : s.port.cpu_state = .fetch) {i : PortIn} (hi : i.resetn = true) {r : Request}
    (hr : i.decoded = some r) (hnone : outcome rvc r = none) {ins : List PortIn}
    (hins : ∀ x ∈ ins, x.resetn = true) :
    (run (plainStep rvc STEPS_AT_ONCE CARRY_CHAIN) s (i :: ins)).port.cpu_state = .ld_rs1
      ∧ events (plainStep rvc STEPS_AT_ONCE CARRY_CHAIN) (plainEnded rvc STEPS_AT_ONCE CARRY_CHAIN)
        s (i :: ins) = [] := by
  have hrest := resting_of_running
    (running_of_reached (PcpiMul.contract hC hS hS') PcpiDiv.contract hs) hfetch
  exact stuck_of_issue rvc hrest hi hfetch hr hnone hins

theorem plain_stuck_sample :
    (run (plainStep true 1 4) (plainStep true 1 4 (plainStep true 1 4 samplePlain inReset) inReset)
        (⟨true, some ⟨0#32, 0#32, 0#32⟩, false⟩ :: List.replicate 100 nothing)).port.cpu_state
      = .ld_rs1 :=
  (plain_stuck true (Nat.le_refl 1) (show 1 ≤ 64 by decide)
    (show PcpiMul.Chunks 4 from Or.inr (by decide))
    ⟨samplePlain, inReset, inReset, [], rfl, rfl, by decide, rfl⟩ rfl rfl rfl (by decide)
    (resetn_nothing 100)).1

/-- `c.ebreak` is such an instruction only in a core without compressed ones. -/
example : outcome false ⟨0x00009002#32, 0#32, 0#32⟩ = none
    ∧ outcome true ⟨0x00009002#32, 0#32, 0#32⟩ = some .trap := by
  decide

end

end SocRtl.Cpu
