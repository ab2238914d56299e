import Mathlib.Data.List.Induction

/-!
# SocRtl.Lib.Clocked — runs of synchronous circuits

A synchronous circuit is a step function: the registers before a clock edge
and the inputs sampled by that edge give the registers after it. Nothing here
knows what the registers are; the file collects

* the run of a step function over a list of sampled inputs, and the state of
  an endless run at a given cycle;
* the events a run reports, edge by edge;
* invariants that may speak about the history of inputs, also for runs whose
  edges all meet a condition;
* a rank rule: an edge that reports nothing lowers a bounded rank, so a long
  enough run reports as many events as one likes. Under a fixed input, an edge
  that misses a goal lowers the rank, so the goal is reached again and again.
-/

namespace SocRtl

universe u v w

variable {σ : Type u} {ι : Type v} {ε : Type w}

/-! ## Runs -/

/-- The registers after the clock edges that sampled `ins`, oldest first. -/
def run (step : σ → ι → σ) (s : σ) (ins : List ι) : σ := ins.foldl step s

/-- The registers of an endless run before the edge of cycle `n`. -/
def stateAt (step : σ → ι → σ) (s : σ) (ins : ℕ → ι) : ℕ → σ
  | 0 => s
  | n + 1 => step (stateAt step s ins n) (ins n)

/-- What `obs` reports along a run: `obs` sees the registers before an edge
and the inputs that the edge samples. -/
def events (step : σ → ι → σ) (obs : σ → ι → List ε) : σ → List ι → List ε
  | _, [] => []
  | s, i :: ins => obs s i ++ events step obs (step s i) ins

/-- Every edge of the run meets `C`. -/
def Along (step : σ → ι → σ) (C : σ → ι → Prop) : σ → List ι → Prop
  | _, [] => True
  | s, i :: ins => C s i ∧ Along step C (step s i) ins

section

variable (step : σ → ι → σ) (s : σ)

@[simp] theorem run_nil : run step s [] = s := rfl

@[simp] theorem run_cons (i : ι) (ins : List ι) :
    run step s (i :: ins) = run step (step s i) ins := rfl

theorem run_append (as bs : List ι) :
    run step s (as ++ bs) = run step (run step s as) bs := by
  simp [run]

@[simp] theorem run_concat (h : List ι) (i : ι) :
    run step s (h ++ [i]) = step (run step s h) i := by
  simp [run_append]

variable (obs : σ → ι → List ε)

@[simp] theorem events_nil : events step obs s [] = [] := rfl

@[simp] theorem events_cons (i : ι) (ins : List ι) :
    events step obs s (i :: ins) = obs s i ++ events step obs (step s i) ins := rfl

theorem events_append (as bs : List ι) :
    events step obs s (as ++ bs)
      = events step obs s as ++ events step obs (run step s as) bs := by
  induction as generalizing s with
  | nil => rfl
  | cons i as ih => simp [ih]

/-- What is observed through a function is the image of what is observed. -/
theorem events_map {δ : Type*} (f : ε → δ) (ins : List ι) :
    events step (fun s i => (obs s i).map f) s ins = (events step obs s ins).map f := by
  induction ins generalizing s with
  | nil => rfl
  | cons i ins ih => rw [events_cons, events_cons, ih, List.map_append]

/-- Observers that report equally much at every edge do so along a run. -/
theorem length_events_congr {δ : Type*} {obs : σ → ι → List ε} {obs' : σ → ι → List δ}
    (h : ∀ s i, (obs s i).length = (obs' s i).length) (ins : List ι) :
    (events step obs s ins).length = (events step obs' s ins).length := by
  induction ins generalizing s with
  | nil => rfl
  | cons i ins ih => rw [events_cons, events_cons, List.length_append, List.length_append, h, ih]

@[simp] theorem events_concat (h : List ι) (i : ι) :
    events step obs s (h ++ [i]) = events step obs s h ++ obs (run step s h) i := by
  simp [events_append]

/-- What has been reported stays reported. -/
theorem getElem?_events_append {as : List ι} {k : ℕ} {e : ε}
    (h : (events step obs s as)[k]? = some e) (bs : List ι) :
    (events step obs s (as ++ bs))[k]? = some e := by
  rcases List.getElem?_eq_some_iff.mp h with ⟨hlt, _⟩
  rw [events_append, List.getElem?_append_left hlt, h]

variable (C : σ → ι → Prop)

@[simp] theorem along_nil : Along step C s [] := trivial

@[simp] theorem along_cons (i : ι) (ins : List ι) :
    Along step C s (i :: ins) ↔ C s i ∧ Along step C (step s i) ins := Iff.rfl

theorem along_append (as bs : List ι) :
    Along step C s (as ++ bs)
      ↔ Along step C s as ∧ Along step C (run step s as) bs := by
  induction as generalizing s with
  | nil => simp
  | cons i as ih => simp [ih, and_assoc]

theorem along_mono {C C' : σ → ι → Prop} (h : ∀ s i, C s i → C' s i) {s : σ}
    {ins : List ι} (hC : Along step C s ins) : Along step C' s ins := by
  induction ins generalizing s with
  | nil => exact trivial
  | cons i ins ih => exact ⟨h s i hC.1, ih hC.2⟩

theorem along_and {C C' : σ → ι → Prop} {s : σ} {ins : List ι} :
    Along step (fun s i => C s i ∧ C' s i) s ins ↔ Along step C s ins ∧ Along step C' s ins := by
  induction ins generalizing s with
  | nil => simp
  | cons i ins ih => simp only [along_cons, ih, and_and_and_comm]

/-- A condition on the inputs alone holds along any run over such inputs. -/
theorem along_of_inputs {P : ι → Prop} {s : σ} {ins : List ι} (h : ∀ i ∈ ins, P i) :
    Along step (fun _ i => P i) s ins := by
  induction ins generalizing s with
  | nil => exact trivial
  | cons i ins ih =>
      exact ⟨h i List.mem_cons_self, ih fun j hj => h j (List.mem_cons_of_mem i hj)⟩

theorem along_congr {C C' : σ → ι → Prop} (h : ∀ s i, C s i ↔ C' s i) (s : σ)
    (ins : List ι) : Along step C s ins ↔ Along step C' s ins :=
  ⟨along_mono step fun s i => (h s i).mp, along_mono step fun s i => (h s i).mpr⟩

/-- What every edge preserves holds along any run. -/
theorem along_of_preserved (I : σ → Prop) (hstep : ∀ s i, I s → I (step s i)) {s : σ}
    (hs : I s) (ins : List ι) : Along step (fun s _ => I s) s ins := by
  induction ins generalizing s with
  | nil => exact trivial
  | cons i ins ih => exact ⟨hs, ih (hstep s i hs)⟩

theorem along_of_forall {C : σ → ι → Prop} (h : ∀ s i, C s i) (s : σ) (ins : List ι) :
    Along step C s ins := by
  induction ins generalizing s with
  | nil => exact trivial
  | cons i ins ih => exact ⟨h s i, ih (step s i)⟩

instance [∀ s i, Decidable (C s i)] : ∀ s ins, Decidable (Along step C s ins)
  | _, [] => isTrue trivial
  | s, i :: ins =>
    have := instDecidableAlong (step s i) ins
    inferInstanceAs (Decidable (C s i ∧ Along step C (step s i) ins))

end

/-! ## Invariants along a run -/

/-- History invariant. It relates the inputs sampled so far to the registers
they lead to. -/
theorem run_invariant {step : σ → ι → σ} {s : σ} (I : List ι → σ → Prop)
    (hinit : I [] s)
    (hstep : ∀ h i, I h (run step s h) → I (h ++ [i]) (step (run step s h) i)) :
    ∀ ins, I ins (run step s ins) := by
  intro ins
  -- the induction peels off the last input: `I` speaks of the history
  induction ins using List.reverseRecOn with
  | nil => exact hinit
  | append_singleton h i ih =>
      rw [run_concat]
      exact hstep h i ih

/-- State invariant: what every edge preserves holds in every state of a run. -/
theorem run_preserves {step : σ → ι → σ} {s : σ} (I : σ → Prop) (hinit : I s)
    (hstep : ∀ s i, I s → I (step s i)) (ins : List ι) : I (run step s ins) :=
  run_invariant (fun _ s => I s) hinit (fun _ i ih => hstep _ i ih) ins

/-- An invariant that is preserved under inputs of some kind. -/
theorem run_preserves_of {step : σ → ι → σ} (I : σ → Prop) {C : ι → Prop}
    (hstep : ∀ s i, I s → C i → I (step s i)) {s : σ} {ins : List ι} (hs : I s)
    (hC : ∀ i ∈ ins, C i) : I (run step s ins) := by
  induction ins generalizing s with
  | nil => exact hs
  | cons i ins ih =>
      exact ih (hstep s i hs (hC i List.mem_cons_self))
        fun j hj => hC j (List.mem_cons_of_mem i hj)

theorem along_preserves_of {step : σ → ι → σ} (I : σ → Prop) {C : ι → Prop}
    (hstep : ∀ s i, I s → C i → I (step s i)) {s : σ} {ins : List ι} (hs : I s)
    (hC : ∀ i ∈ ins, C i) : Along step (fun s _ => I s) s ins := by
  induction ins generalizing s with
  | nil => exact trivial
  | cons i ins ih =>
      exact ⟨hs, ih (hstep s i hs (hC i List.mem_cons_self))
        fun j hj => hC j (List.mem_cons_of_mem i hj)⟩

/-- An invariant that counts the edges. -/
theorem run_counted {step : σ → ι → σ} (P : ℕ → σ → Prop) {C : ℕ → ι → Prop}
    (hstep : ∀ k s i, P k s → C k i → P (k + 1) (step s i)) {ins : List ι} {k : ℕ} {s : σ}
    (hs : P k s) (hC : ∀ m i, ins[m]? = some i → C (k + m) i) :
    P (k + ins.length) (run step s ins) := by
  induction ins generalizing k s with
  | nil => exact hs
  | cons i ins ih =>
      have hnext := hstep k s i hs (hC 0 i rfl)
      have hrest : ∀ m j, ins[m]? = some j → C (k + 1 + m) j := by
        intro m j hj
        have hlater := hC (m + 1) j hj
        rwa [← Nat.add_assoc, Nat.add_right_comm] at hlater
      rw [List.length_cons, Nat.add_comm ins.length, ← Nat.add_assoc]
      exact ih hnext hrest

theorem along_counted {step : σ → ι → σ} (P : ℕ → σ → Prop) {C : ℕ → ι → Prop} {Q : σ → Prop}
    (hstep : ∀ k s i, P k s → C k i → P (k + 1) (step s i)) (hQ : ∀ k s i, P k s → C k i → Q s)
    {ins : List ι} {k : ℕ} {s : σ} (hs : P k s) (hC : ∀ m i, ins[m]? = some i → C (k + m) i) :
    Along step (fun s _ => Q s) s ins := by
  induction ins generalizing k s with
  | nil => exact trivial
  | cons i ins ih =>
      refine ⟨hQ k s i hs (hC 0 i rfl), ih (hstep k s i hs (hC 0 i rfl)) ?_⟩
      intro m j hj
      have hlater := hC (m + 1) j hj
      rwa [← Nat.add_assoc, Nat.add_right_comm] at hlater

/-- The same input for a number of edges. -/
theorem run_replicate {step : σ → ι → σ} (P : ℕ → σ → Prop) {i : ι}
    (hstep : ∀ k s, P k s → P (k + 1) (step s i)) {k : ℕ} {s : σ} (hs : P k s) (len : ℕ) :
    P (k + len) (run step s (List.replicate len i)) := by
  have hsame : ∀ m j, (List.replicate len i)[m]? = some j → j = i :=
    fun _ _ hj => List.eq_of_mem_replicate (List.mem_of_getElem? hj)
  have hrun := run_counted (C := fun _ j => j = i) P (fun k s _ hP hj => hj ▸ hstep k s hP) hs
    hsame
  rwa [List.length_replicate] at hrun

theorem along_replicate {step : σ → ι → σ} (P : ℕ → σ → Prop) {i : ι} {Q : σ → Prop}
    (hstep : ∀ k s, P k s → P (k + 1) (step s i)) (hQ : ∀ k s, P k s → Q s) {k : ℕ} {s : σ}
    (hs : P k s) (len : ℕ) : Along step (fun s _ => Q s) s (List.replicate len i) :=
  along_counted (C := fun _ j => j = i) P (fun k s _ hP hj => hj ▸ hstep k s hP)
    (fun k s _ hP _ => hQ k s hP) hs
    fun _ _ hj => List.eq_of_mem_replicate (List.mem_of_getElem? hj)

/-- Simulation. Two circuits that see the same inputs stay related if every
edge keeps them related. -/
theorem run_related {τ : Type*} {step : σ → ι → σ} {step' : τ → ι → τ} (R : σ → τ → Prop) {s : σ}
    {t : τ} (hinit : R s t) (hstep : ∀ s t i, R s t → R (step s i) (step' t i)) (ins : List ι) :
    R (run step s ins) (run step' t ins) := by
  induction ins generalizing s t with
  | nil => exact hinit
  | cons i ins ih => exact ih (hstep s t i hinit)

/-- An invariant strengthens what a run is known to meet at every edge. -/
theorem along_of_invariant {step : σ → ι → σ} {C C' : σ → ι → Prop} (I : σ → Prop)
    (hstep : ∀ s i, I s → C s i → I (step s i)) (hC : ∀ s i, I s → C s i → C' s i) {s : σ}
    {ins : List ι} (hs : I s) (h : Along step C s ins) : Along step C' s ins := by
  induction ins generalizing s with
  | nil => exact trivial
  | cons i ins ih => exact ⟨hC s i hs h.1, ih (hstep s i hs h.1) h.2⟩

/-- A condition along a run holds in each of its states. -/
theorem along_take {step : σ → ι → σ} {Q : σ → Prop} {s : σ} {ins : List ι}
    (h : Along step (fun s _ => Q s) s ins) {t : ℕ} (ht : t < ins.length) :
    Q (run step s (ins.take t)) := by
  induction ins generalizing s t with
  | nil => exact absurd ht (Nat.not_lt_zero t)
  | cons i ins ih =>
      cases t with
      | zero => exact h.1
      | succ t => exact ih h.2 (Nat.lt_of_succ_lt_succ ht)

/-- Where an edge leads to a good state if and only if it meets `C`, a run stays
in good states if and only if all its edges meet `C`. -/
theorem forall_prefix_iff {step : σ → ι → σ} {C : σ → ι → Prop} {Q : σ → Prop} (I : σ → Prop)
    (hinv : ∀ s i, I s → I (step s i)) (hedge : ∀ s i, I s → (Q (step s i) ↔ C s i)) {s : σ}
    (hs : I s) (hQ : Q s) (ins : List ι) :
    (∀ pre, pre <+: ins → Q (run step s pre)) ↔ Along step C s ins := by
  induction ins generalizing s with
  | nil =>
      refine ⟨fun _ => trivial, ?_⟩
      intro _ pre hpre
      rw [List.prefix_nil.mp hpre]
      exact hQ
  | cons i ins ih =>
      constructor
      · intro hall
        -- the prefix of one input decides the first edge, the longer ones the rest
        have hnext : Q (step s i) := hall [i] (by simp)
        refine ⟨(hedge s i hs).mp hnext, (ih (hinv s i hs) hnext).mp ?_⟩
        intro pre hpre
        exact hall (i :: pre) (List.cons_prefix_cons.mpr ⟨rfl, hpre⟩)
      · rintro ⟨hone, hrest⟩ pre hpre
        have hnext : Q (step s i) := (hedge s i hs).mpr hone
        cases pre with
        | nil => exact hQ
        | cons j pre =>
            rcases List.cons_prefix_cons.mp hpre with ⟨rfl, htail⟩
            exact (ih (hinv s j hs) hnext).mpr hrest pre htail

/-- Observers that report the same at every edge of a run report the same. -/
theorem events_congr_along {step : σ → ι → σ} {obs obs' : σ → ι → List ε} {s : σ} {ins : List ι}
    (h : Along step (fun s i => obs s i = obs' s i) s ins) :
    events step obs s ins = events step obs' s ins := by
  induction ins generalizing s with
  | nil => rfl
  | cons i ins ih => rw [events_cons, events_cons, h.1, ih h.2]

/-- What holds in every cycle of a stream of inputs holds along the run over it. -/
theorem along_map_range {step : σ → ι → σ} {Q : σ → Prop} {s : σ} {g : ℕ → ι} {m : ℕ}
    (h : ∀ t < m, Q (run step s ((List.range t).map g))) :
    Along step (fun s _ => Q s) s ((List.range m).map g) := by
  induction m with
  | zero => exact trivial
  | succ m ih =>
      rw [List.range_succ, List.map_append, along_append]
      exact ⟨ih fun t ht => h t (Nat.lt_succ_of_lt ht), h m (Nat.lt_succ_self m), trivial⟩

theorem run_map_range_succ (step : σ → ι → σ) (s : σ) (g : ℕ → ι) (t : ℕ) :
    run step s ((List.range (t + 1)).map g) = step (run step s ((List.range t).map g)) (g t) := by
  rw [List.range_succ, List.map_append, List.map_singleton, run_concat]

/-- What every edge reports satisfies `P`, so what the run reports does. -/
theorem forall_mem_events {step : σ → ι → σ} {obs : σ → ι → List ε} {P : ε → Prop} {s : σ}
    {ins : List ι} (h : Along step (fun s i => ∀ e ∈ obs s i, P e) s ins) :
    ∀ e ∈ events step obs s ins, P e := by
  induction ins generalizing s with
  | nil => intro e he; exact absurd he List.not_mem_nil
  | cons i ins ih =>
      intro e he
      rcases List.mem_append.mp he with he | he
      · exact h.1 e he
      · exact ih h.2 e he

/-! ## Conservation -/

/-- Words on their way through a circuit. If every edge of a run passes words
on in order (what is in the circuit and what comes in is what goes out and
what stays), so does the whole run. -/
theorem events_conserved {step : σ → ι → σ} {inn out : σ → ι → List ε} {held : σ → List ε}
    {s : σ} {ins : List ι}
    (h : Along step (fun s i => held s ++ inn s i = out s i ++ held (step s i)) s ins) :
    held s ++ events step inn s ins = events step out s ins ++ held (run step s ins) := by
  induction ins generalizing s with
  | nil => simp
  | cons i ins ih =>
      have hone := h.1
      have hrest := ih h.2
      -- move the bracket to the first edge, pass its words on, move it back
      rw [events_cons, events_cons, run_cons, ← List.append_assoc, hone, List.append_assoc,
        hrest, List.append_assoc]

/-- The same where the words on their way are not read off the registers but
known from the run: `Q` relates them to the state. -/
theorem events_passed {step : σ → ι → σ} {inn out : σ → ι → List ε} {C : σ → ι → Prop}
    (Q : σ → List ε → Prop)
    (hstep : ∀ s i l, Q s l → C s i → ∃ l', Q (step s i) l' ∧ l ++ inn s i = out s i ++ l')
    {s : σ} {l : List ε} {ins : List ι} (hs : Q s l) (hC : Along step C s ins) :
    ∃ l', Q (run step s ins) l' ∧ l ++ events step inn s ins = events step out s ins ++ l' := by
  induction ins generalizing s l with
  | nil => exact ⟨l, hs, by simp⟩
  | cons i ins ih =>
      rcases hstep s i l hs hC.1 with ⟨l1, h1, heq1⟩
      rcases ih h1 hC.2 with ⟨l', h', heq⟩
      refine ⟨l', h', ?_⟩
      rw [events_cons, events_cons, ← List.append_assoc, heq1, List.append_assoc, heq,
        List.append_assoc]

/-- The edge neither loses nor makes up words: as many are held and come in as
go out and stay. -/
def Balanced (step : σ → ι → σ) (inn out : σ → ι → List ε) (held : σ → List ε) (s : σ) (i : ι) :
    Prop :=
  (held s).length + (inn s i).length = (out s i).length + (held (step s i)).length

/-- The books of a run balance at every prefix if and only if every edge of it
is balanced. -/
theorem balanced_prefixes_iff {step : σ → ι → σ} {inn out : σ → ι → List ε}
    {held : σ → List ε} {s : σ} {ins : List ι} :
    (∀ pre, pre <+: ins →
      (held s).length + (events step inn s pre).length
        = (events step out s pre).length + (held (run step s pre)).length)
      ↔ Along step (Balanced step inn out held) s ins := by
  induction ins generalizing s with
  | nil =>
      refine ⟨fun _ => trivial, ?_⟩
      intro _ pre hpre
      rw [List.prefix_nil.mp hpre]
      simp
  | cons i ins ih =>
      constructor
      · intro hall
        -- the books after one edge say that this edge balances
        have hone : Balanced step inn out held s i := by
          simpa [Balanced] using hall [i] (by simp)
        refine ⟨hone, ih.mp ?_⟩
        intro pre hpre
        -- taken off the books of a longer run, they leave those of the rest
        have hboth := hall (i :: pre) (List.cons_prefix_cons.mpr ⟨rfl, hpre⟩)
        simp only [events_cons, run_cons, List.length_append] at hboth
        rw [Balanced] at hone
        omega
      · rintro ⟨hone, hrest⟩ pre hpre
        cases pre with
        | nil => simp
        | cons j pre =>
            rcases List.cons_prefix_cons.mp hpre with ⟨rfl, htail⟩
            have hlater := ih.mpr hrest pre htail
            simp only [events_cons, run_cons, List.length_append]
            rw [Balanced] at hone
            omega

/-! ## Circuits inside circuits

`π` picks the registers of a component out of the registers of a circuit, `ρ`
the inputs that the circuit feeds to the component. -/

/-- What a circuit feeds to a component along a run. -/
def trace {κ : Type*} (step : σ → ι → σ) (ρ : σ → ι → κ) : σ → List ι → List κ
  | _, [] => []
  | s, i :: ins => ρ s i :: trace step ρ (step s i) ins

section

variable {τ κ : Type*} {step : σ → ι → σ} {step' : τ → κ → τ} {π : σ → τ} {ρ : σ → ι → κ}

@[simp] theorem trace_nil (s : σ) : trace step ρ s [] = [] := rfl

@[simp] theorem trace_cons (s : σ) (i : ι) (ins : List ι) :
    trace step ρ s (i :: ins) = ρ s i :: trace step ρ (step s i) ins := rfl

@[simp] theorem length_trace (s : σ) (ins : List ι) :
    (trace step ρ s ins).length = ins.length := by
  induction ins generalizing s with
  | nil => rfl
  | cons i ins ih => rw [trace_cons, List.length_cons, ih, List.length_cons]

theorem trace_append (s : σ) (as bs : List ι) :
    trace step ρ s (as ++ bs) = trace step ρ s as ++ trace step ρ (run step s as) bs := by
  induction as generalizing s with
  | nil => rfl
  | cons i as ih => rw [List.cons_append, trace_cons, ih, trace_cons, run_cons, List.cons_append]

/-- Inputs passed through unchanged. -/
theorem trace_map (f : ι → κ) (s : σ) (ins : List ι) :
    trace step (fun _ i => f i) s ins = ins.map f := by
  induction ins generalizing s with
  | nil => rfl
  | cons i ins ih => rw [trace_cons, ih, List.map_cons]

/-- Everything fed to the component satisfies `P` if every edge of the run
feeds it such inputs. -/
theorem forall_mem_trace {P : κ → Prop} {s : σ} {ins : List ι}
    (h : Along step (fun s i => P (ρ s i)) s ins) : ∀ x ∈ trace step ρ s ins, P x := by
  induction ins generalizing s with
  | nil => intro x hx; exact absurd hx List.not_mem_nil
  | cons i ins ih =>
      intro x hx
      rcases List.mem_cons.mp hx with rfl | hx
      · exact h.1
      · exact ih h.2 x hx

/-- The component runs as it would alone on what it is fed. -/
theorem run_fed (hstep : ∀ s i, π (step s i) = step' (π s) (ρ s i)) (s : σ) (ins : List ι) :
    π (run step s ins) = run step' (π s) (trace step ρ s ins) := by
  induction ins generalizing s with
  | nil => rfl
  | cons i ins ih => rw [run_cons, ih, hstep, trace_cons, run_cons]

/-- What is observed of the component alone is observed of the whole. -/
theorem events_fed (hstep : ∀ s i, π (step s i) = step' (π s) (ρ s i))
    (obs : τ → κ → List ε) (s : σ) (ins : List ι) :
    events step (fun s i => obs (π s) (ρ s i)) s ins
      = events step' obs (π s) (trace step ρ s ins) := by
  induction ins generalizing s with
  | nil => rfl
  | cons i ins ih => rw [events_cons, ih, hstep, trace_cons, events_cons]

/-- A condition on the component holds along the whole run if it holds along
the run of the component. -/
theorem along_fed (hstep : ∀ s i, π (step s i) = step' (π s) (ρ s i)) (C : τ → κ → Prop)
    (s : σ) (ins : List ι) :
    Along step (fun s i => C (π s) (ρ s i)) s ins
      ↔ Along step' C (π s) (trace step ρ s ins) := by
  induction ins generalizing s with
  | nil => exact Iff.rfl
  | cons i ins ih => rw [along_cons, ih, hstep, trace_cons, along_cons]

end

section

variable {τ κ : Type*} {step : σ → ι → σ} {step' : τ → κ → τ} {π : σ → τ} {f : ι → κ}

theorem run_component (hstep : ∀ s i, π (step s i) = step' (π s) (f i)) (s : σ)
    (ins : List ι) : π (run step s ins) = run step' (π s) (ins.map f) := by
  rw [run_fed hstep, trace_map]

theorem events_component (hstep : ∀ s i, π (step s i) = step' (π s) (f i))
    (obs : τ → κ → List ε) (s : σ) (ins : List ι) :
    events step (fun s i => obs (π s) (f i)) s ins = events step' obs (π s) (ins.map f) := by
  rw [events_fed hstep, trace_map]

theorem along_component (hstep : ∀ s i, π (step s i) = step' (π s) (f i))
    (C : τ → κ → Prop) (s : σ) (ins : List ι) :
    Along step (fun s i => C (π s) (f i)) s ins ↔ Along step' C (π s) (ins.map f) := by
  rw [along_fed hstep, trace_map]

end

/-! ## Progress by rank -/

/-- The number of edges of a run that meet `C`. -/
def edges (step : σ → ι → σ) (C : σ → ι → Prop) [∀ s i, Decidable (C s i)] : σ → List ι → ℕ
  | _, [] => 0
  | s, i :: ins => (if C s i then 1 else 0) + edges step C (step s i) ins

theorem edges_of_along {step : σ → ι → σ} {C : σ → ι → Prop} [∀ s i, Decidable (C s i)] {s : σ}
    {ins : List ι} (h : Along step C s ins) : edges step C s ins = ins.length := by
  induction ins generalizing s with
  | nil => rfl
  | cons i ins ih => rw [edges, if_pos h.1, ih h.2, List.length_cons, Nat.add_comm]

/-- A rank that no edge raises, and that the edges of one kind lower, is used up
by enough edges of this kind. -/
theorem rank_used_up {step : σ → ι → σ} {C : σ → ι → Prop} [∀ s i, Decidable (C s i)] {P : ι → Prop}
    (I : σ → Prop) (rank : σ → ℕ) (hinv : ∀ s i, I s → P i → I (step s i))
    (hle : ∀ s i, I s → P i → rank (step s i) ≤ rank s)
    (hlt : ∀ s i, I s → P i → C s i → 0 < rank s → rank (step s i) < rank s) {s : σ}
    {ins : List ι} (hs : I s) (hP : ∀ i ∈ ins, P i) (hmany : rank s ≤ edges step C s ins) :
    rank (run step s ins) = 0 := by
  induction ins generalizing s with
  | nil => exact Nat.eq_zero_of_le_zero hmany
  | cons i ins ih =>
      have hi := hP i List.mem_cons_self
      have hone := hle s i hs hi
      refine ih (hinv s i hs hi) (fun j hj => hP j (List.mem_cons_of_mem i hj)) ?_
      -- only an edge of the kind in question is paid for, and it lowers the rank
      rw [edges] at hmany
      split at hmany
      · rename_i hC
        rcases Nat.eq_zero_or_pos (rank s) with hzero | hpos
        · omega
        · have hless := hlt s i hs hi hC hpos
          omega
      · omega

/-- The rank rule. Along a run, an edge taken in a state that is not idle
either reports an event or lowers the rank. Then a run of more than
`rank s + (b + 1) * n` edges reports `n + 1` events, unless it goes idle. -/
theorem events_of_rank {step : σ → ι → σ} {obs : σ → ι → List ε} {C : σ → ι → Prop}
    (Inv Idle : σ → Prop) (rank : σ → ℕ) (b : ℕ) (hb : ∀ s, rank s ≤ b)
    (hinv : ∀ s i, Inv s → C s i → Inv (step s i))
    (hprog : ∀ s i, Inv s → C s i → ¬ Idle s → obs s i ≠ [] ∨ rank (step s i) < rank s) :
    ∀ ins s n, Inv s → Along step C s ins → rank s + (b + 1) * n < ins.length →
      n < (events step obs s ins).length ∨ ∃ pre, pre <+: ins ∧ Idle (run step s pre) := by
  intro ins
  induction ins with
  | nil => intro s n _ _ hlen; simp at hlen
  | cons i ins ih =>
      intro s n hs hC hlen
      by_cases hidle : Idle s
      · exact Or.inr ⟨[], List.nil_prefix, hidle⟩
      have hs' : Inv (step s i) := hinv s i hs hC.1
      -- an idle state of the rest is one of the whole run
      have hlift : (∃ pre, pre <+: ins ∧ Idle (run step (step s i) pre)) →
          ∃ pre, pre <+: i :: ins ∧ Idle (run step s pre) := by
        rintro ⟨pre, hpre, hid⟩
        exact ⟨i :: pre, by simpa using hpre, hid⟩
      rw [List.length_cons] at hlen
      rcases hprog s i hs hC.1 hidle with hout | hrank
      · -- an event now: the remaining edges owe one event less
        have hone : 0 < (obs s i).length := List.length_pos_iff.mpr hout
        cases n with
        | zero => left; simp; omega
        | succ n =>
            have hlen' : rank (step s i) + (b + 1) * n < ins.length := by
              have := hb (step s i)
              rw [Nat.mul_succ] at hlen
              omega
            rcases ih (step s i) n hs' hC.2 hlen' with hn | hid
            · left; simp; omega
            · exact Or.inr (hlift hid)
      · -- no event, but the rank went down
        rcases ih (step s i) n hs' hC.2 (by omega) with hn | hid
        · left; simp; omega
        · exact Or.inr (hlift hid)

/-- Under an input held fixed, an edge that does not reach the goal lowers the
rank. Then the goal is reached again and again. -/
theorem reaches_of_rank {step : σ → ι → σ} {i : ι} {Goal : σ → Prop} (I : σ → Prop) (rank : σ → ℕ)
    (hinv : ∀ s, I s → I (step s i))
    (hstep : ∀ s, I s → Goal (step s i) ∨ rank (step s i) < rank s) {s : σ} (hs : I s) :
    ∃ k, Goal (run step s (List.replicate (k + 1) i)) := by
  -- on the rank: an edge that misses the goal leaves a lower one
  induction hr : rank s using Nat.strongRecOn generalizing s with
  | ind r ih =>
      rcases hstep s hs with hgoal | hlt
      · exact ⟨0, hgoal⟩
      · rcases ih _ (hr ▸ hlt) (hinv s hs) rfl with ⟨k, hk⟩
        exact ⟨k + 1, hk⟩

theorem reaches_again {step : σ → ι → σ} {i : ι} {Goal : σ → Prop} (I : σ → Prop) (rank : σ → ℕ)
    (hinv : ∀ s, I s → I (step s i))
    (hstep : ∀ s, I s → Goal (step s i) ∨ rank (step s i) < rank s) {s : σ} (hs : I s)
    (n : ℕ) : ∃ m, n < m ∧ Goal (run step s (List.replicate m i)) := by
  have hn : I (run step s (List.replicate n i)) :=
    run_preserves_of I (C := fun j => j = i) (fun s j h hj => hj ▸ hinv s h) hs
      fun j hj => List.eq_of_mem_replicate hj
  rcases reaches_of_rank I rank hinv hstep hn with ⟨k, hk⟩
  refine ⟨n + (k + 1), by omega, ?_⟩
  rw [← List.replicate_append_replicate, run_append]
  exact hk

end SocRtl
