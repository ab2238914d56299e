import SocRtl.Handshake
import SocRtl.Lib.Clocked
import Mathlib.Data.List.Basic

/-!
# SocRtl.Handshake.Chain — stages in a row

A chain of handshake stages, each with the implementation of its choice and a
function of its own between its input and its data register. The readies run
combinationally from the output to the input, as in `alu`, and a data register
loads when its stage signals ready. The chain is an elastic pipeline: what is
held and what comes in is what goes out and what stays.
-/

namespace SocRtl.Handshake

universe u

/-- The source a stage is taken from. -/
inductive Impl where
  /-- `axi_like_handshake.sv` -/
  | axiLike
  /-- `axi_like_handshake(dont use).sv` -/
  | axiLikeEn
  /-- `rdy_ack_handshake.v` -/
  | rdyAck
  deriving DecidableEq, Repr

namespace Impl

/-- What the stage answers upstream. -/
def readyO : Impl → (validReg validI readyI : Bool) → Bool
  | axiLike, validReg, _, readyI => Handshake.readyO validReg readyI
  | axiLikeEn, validReg, _, readyI => bufReadyO validReg readyI
  | rdyAck, validReg, validI, readyI => wrAck validI validReg readyI

/-- The flag after a clock edge. -/
def nextValid : Impl → (validReg validI readyI : Bool) → Bool
  | axiLike, validReg, validI, readyI => Handshake.nextValid validReg validI readyI
  | axiLikeEn, validReg, validI, readyI => nextBufValid validReg validI readyI
  | rdyAck, validReg, validI, readyI => nextRdRdy validI validReg readyI

/-- The flag does not depend on the implementation. -/
theorem nextValid_eq (impl : Impl) (validReg validI readyI : Bool) :
    impl.nextValid validReg validI readyI = Handshake.nextValid validReg validI readyI := by
  cases impl with
  | axiLike => rfl
  | axiLikeEn => exact nextBufValid_eq validReg validI readyI
  | rdyAck => exact nextRdRdy_eq validI validReg readyI

/-- Nor does the cycle in which an offered word enters. -/
theorem and_readyO (impl : Impl) (validReg validI readyI : Bool) :
    (validI && impl.readyO validReg validI readyI) = wEn validReg validI readyI := by
  cases impl with
  | axiLike => rfl
  | axiLikeEn => rfl
  | rdyAck => cases validI <;> rfl

/-- A stage that signals ready could take a word in, whichever test it applies. -/
theorem readyO_of_readyO {impl : Impl} {validReg validI readyI : Bool}
    (h : impl.readyO validReg validI readyI = true) :
    Handshake.readyO validReg readyI = true := by
  cases impl with
  | axiLike => exact h
  | axiLikeEn => exact h
  | rdyAck => exact (Bool.and_eq_true_iff.mp h).2

/-- An offered word enters a stage that could take it. -/
theorem readyO_of_valid (impl : Impl) {validReg readyI : Bool}
    (h : Handshake.readyO validReg readyI = true) : impl.readyO validReg true readyI = true := by
  cases impl with
  | axiLike => exact h
  | axiLikeEn => exact h
  | rdyAck => exact h

end Impl

/-- The registers of a stage: its flag and its data register. -/
structure Stage (α : Type u) where
  validReg : Bool
  data : α

namespace Stage

variable {α : Type u}

/-- One clock edge of a stage that is offered `dIn`. -/
def step (impl : Impl) (st : Stage α) (validI : Bool) (dIn : α) (readyI : Bool) : Stage α where
  validReg := impl.nextValid st.validReg validI readyI
  data := if impl.readyO st.validReg validI readyI then dIn else st.data

/-- The word a stage holds. -/
def held (st : Stage α) : List α := slot st.validReg st.data

/-- One edge of a stage, whatever its implementation. -/
theorem held_step (impl : Impl) (st : Stage α) (validI : Bool) (dIn : α) (readyI : Bool) :
    st.held ++ slot (validI && impl.readyO st.validReg validI readyI) dIn
      = slot (rEn st.validReg readyI) st.data ++ (st.step impl validI dIn readyI).held := by
  have hone : (st.step impl validI dIn readyI).held
      = slot (Handshake.nextValid st.validReg validI readyI)
          (st.step impl validI dIn readyI).data := by
    rw [← impl.nextValid_eq]
    rfl
  rw [hone, impl.and_readyO]
  -- a word offered to a ready stage is loaded; otherwise the register is kept
  refine slot_step ?_ ?_
  · intro hready hvalid
    have hload : impl.readyO st.validReg validI readyI = true := by
      rw [hvalid]
      exact impl.readyO_of_valid hready
    simp [step, hload]
  · intro hready
    have hkeep : ¬ impl.readyO st.validReg validI readyI = true := by
      intro h
      rw [Impl.readyO_of_readyO h] at hready
      exact Bool.noConfusion hready
    simp [step, hkeep]

/-- A word that is not taken stays where it is. -/
theorem step_of_stalled (impl : Impl) {st : Stage α} (h : st.validReg = true) (validI : Bool)
    (dIn : α) : st.step impl validI dIn false = st := by
  -- a full stage with nothing taken is not ready, so it neither loads nor moves
  have hready : ¬ impl.readyO st.validReg validI false = true := by
    intro hr
    have hone := Impl.readyO_of_readyO hr
    rw [h] at hone
    exact Bool.noConfusion hone
  have hvalid : impl.nextValid st.validReg validI false = st.validReg := by
    rw [impl.nextValid_eq, h]
    cases validI <;> rfl
  cases st with
  | mk v d =>
      simp only [step] at *
      rw [hvalid, if_neg hready]

/-- A stage whose word is taken, or that has none, takes over the upstream flag. -/
theorem validReg_step_of_ready (impl : Impl) (st : Stage α) (validI : Bool) (dIn : α)
    {readyI : Bool} (h : st.validReg = true → readyI = true) :
    (st.step impl validI dIn readyI).validReg = validI := by
  have hready : Handshake.readyO st.validReg readyI = true := by
    cases hv : st.validReg with
    | false => rfl
    | true => rw [h hv]; rfl
  show impl.nextValid st.validReg validI readyI = validI
  rw [impl.nextValid_eq, nextValid_of_ready hready]

end Stage

/-! ## Chains -/

/-- Stages in a row, the first one upstream: the implementation of each and
the function in front of its data register. -/
inductive Chain (α : Type u) : Type u → Type (u + 1) where
  | stage {β : Type u} (impl : Impl) (f : α → β) : Chain α β
  | andThen {β γ : Type u} (c : Chain α β) (impl : Impl) (f : β → γ) : Chain α γ

/-- What the chain sees at a clock edge. -/
structure ChainIn (α : Type u) where
  validI : Bool
  data : α
  readyI : Bool

namespace Chain

variable {α β γ : Type u}

/-- The number of stages. -/
def length : {β : Type u} → Chain α β → ℕ
  | _, stage _ _ => 1
  | _, andThen c _ _ => c.length + 1

/-- `fn (... f1 x)`. -/
def apply : {β : Type u} → Chain α β → α → β
  | _, stage _ f => f
  | _, andThen c _ f => fun x => f (c.apply x)

/-- The registers of all stages. -/
def Regs : {β : Type u} → Chain α β → Type u
  | β, stage _ _ => Stage β
  | γ, andThen c _ _ => c.Regs × Stage γ

/-- The registers of the stages but the last. -/
def front {c : Chain α β} {impl : Impl} {f : β → γ} (s : (c.andThen impl f).Regs) : c.Regs :=
  Prod.fst s

/-- The registers of the last stage. -/
def back {c : Chain α β} {impl : Impl} {f : β → γ} (s : (c.andThen impl f).Regs) : Stage γ :=
  Prod.snd s

/-- The registers of a chain of one stage. -/
def single {impl : Impl} {f : α → β} (st : Stage β) : (stage impl f).Regs := st

/-- The registers of a chain from those of its parts. -/
def snoc {c : Chain α β} {impl : Impl} {f : β → γ} (s : c.Regs) (st : Stage γ) :
    (c.andThen impl f).Regs :=
  Prod.mk s st

/-- `valid_o` of the last stage. -/
def validO : {β : Type u} → (c : Chain α β) → c.Regs → Bool
  | _, stage _ _, st => st.validReg
  | _, andThen _ _ _, s => (back s).validReg

/-- The data register of the last stage. -/
def dataO : {β : Type u} → (c : Chain α β) → c.Regs → β
  | _, stage _ _, st => st.data
  | _, andThen _ _ _, s => (back s).data

/-- `ready_o` of the first stage. -/
def readyO : {β : Type u} → (c : Chain α β) → c.Regs → (validI readyI : Bool) → Bool
  | _, stage impl _, st, validI, readyI => impl.readyO st.validReg validI readyI
  | _, andThen c impl _, s, validI, readyI =>
      c.readyO (front s) validI (impl.readyO (back s).validReg (c.validO (front s)) readyI)

/-- One clock edge of all stages. -/
def step : {β : Type u} → (c : Chain α β) → c.Regs → ChainIn α → c.Regs
  | _, stage impl f, st, i => st.step impl i.validI (f i.data) i.readyI
  | _, andThen c impl f, s, i =>
      snoc
        (c.step (front s)
          { i with readyI := impl.readyO (back s).validReg (c.validO (front s)) i.readyI })
        ((back s).step impl (c.validO (front s)) (f (c.dataO (front s))) i.readyI)

/-- The state after reset: no stage holds a word. The data registers may be
anything. -/
def IsReset : {β : Type u} → (c : Chain α β) → c.Regs → Prop
  | _, stage _ _, st => st.validReg = false
  | _, andThen c _ _, s => c.IsReset (front s) ∧ (back s).validReg = false

/-- The results of the words held, the oldest word first. -/
def held : {β : Type u} → (c : Chain α β) → c.Regs → List β
  | _, stage _ _, st => st.held
  | _, andThen c _ f, s => (back s).held ++ (c.held (front s)).map f

/-- The word accepted at the edge. -/
def accepted (c : Chain α β) (s : c.Regs) (i : ChainIn α) : List α :=
  slot (i.validI && c.readyO s i.validI i.readyI) i.data

/-- The word delivered at the edge. -/
def delivered (c : Chain α β) (s : c.Regs) (i : ChainIn α) : List β :=
  slot (c.validO s && i.readyI) (c.dataO s)

/-- The chain passes words on in order, none lost or invented. -/
theorem held_step (c : Chain α β) (s : c.Regs) (i : ChainIn α) :
    c.held s ++ (c.accepted s i).map c.apply = c.delivered s i ++ c.held (c.step s i) := by
  induction c generalizing i with
  | stage impl f =>
      have hin : ((stage impl f).accepted s i).map f
          = slot (i.validI && impl.readyO (Stage.validReg s) i.validI i.readyI) (f i.data) :=
        map_slot f _ _
      show Stage.held s ++ ((stage impl f).accepted s i).map f = _
      rw [hin]
      exact Stage.held_step impl s _ _ _
  | andThen c impl f ih =>
      -- the front delivers what the last stage takes in
      let i' : ChainIn α :=
        { i with readyI := impl.readyO (back s).validReg (c.validO (front s)) i.readyI }
      have hup := congrArg (List.map f) (ih (front s) i')
      have hdown := (back s).held_step impl (c.validO (front s)) (f (c.dataO (front s))) i.readyI
      rw [List.map_append, List.map_append, delivered, map_slot, List.map_map] at hup
      show (back s).held ++ (c.held (front s)).map f
          ++ ((c.accepted (front s) i').map (f ∘ c.apply))
        = slot (rEn (back s).validReg i.readyI) (back s).data ++
            (((back s).step impl (c.validO (front s)) (f (c.dataO (front s))) i.readyI).held ++
              (c.held (c.step (front s) i')).map f)
      rw [List.append_assoc, hup, ← List.append_assoc, hdown, List.append_assoc]

/-- No more words than stages. -/
theorem length_held_le (c : Chain α β) (s : c.Regs) : (c.held s).length ≤ c.length := by
  induction c with
  | stage impl f => exact length_slot_le (Stage.validReg s) (Stage.data s)
  | andThen c impl f ih =>
      show ((back s).held ++ (c.held (front s)).map f).length ≤ c.length + 1
      rw [List.length_append, List.length_map, Nat.add_comm]
      exact Nat.add_le_add (ih (front s)) (length_slot_le _ _)

theorem held_of_isReset (c : Chain α β) {s : c.Regs} (h : c.IsReset s) : c.held s = [] := by
  induction c with
  | stage impl f =>
      have hvalid : Stage.validReg s = false := h
      show slot (Stage.validReg s) (Stage.data s) = []
      rw [hvalid]
      rfl
  | andThen c impl f ih =>
      have hvalid : (back s).validReg = false := h.2
      show slot (back s).validReg (back s).data ++ (c.held (front s)).map f = []
      rw [hvalid, ih h.1]
      rfl

/-- A word that is offered downstream and not taken stays there unchanged. -/
theorem stable_of_stalled (c : Chain α β) {s : c.Regs} {i : ChainIn α}
    (hvalid : c.validO s = true) (hready : i.readyI = false) :
    c.validO (c.step s i) = true ∧ c.dataO (c.step s i) = c.dataO s := by
  cases c with
  | stage impl f =>
      have hkeep : (stage impl f).step s i = s := by
        show Stage.step impl s i.validI (f i.data) i.readyI = s
        rw [hready, Stage.step_of_stalled impl hvalid]
      rw [hkeep]
      exact ⟨hvalid, rfl⟩
  | andThen c impl f =>
      -- only the last stage matters, whatever happens in front of it
      have hkeep : back ((c.andThen impl f).step s i) = back s := by
        show (back s).step impl (c.validO (front s)) (f (c.dataO (front s))) i.readyI = back s
        rw [hready, Stage.step_of_stalled impl hvalid]
      exact ⟨(congrArg Stage.validReg hkeep).trans hvalid, congrArg Stage.data hkeep⟩

/-- An offered word is accepted as long as the word offered downstream, if
there is one, is taken, whatever bubbles the chain holds. -/
theorem readyO_of_taken (c : Chain α β) {s : c.Regs} {readyI : Bool}
    (h : c.validO s = true → readyI = true) : c.readyO s true readyI = true := by
  induction c generalizing readyI with
  | stage impl f => exact impl.readyO_of_valid (readyO_of_imp h)
  | andThen c impl f ih =>
      -- the last stage is ready for the word the front offers
      refine ih ?_
      intro hvalid
      rw [hvalid]
      exact impl.readyO_of_valid (readyO_of_imp h)

/-! ## Draining -/

/-- The flags of all stages, the first one upstream. -/
def flags : {β : Type u} → (c : Chain α β) → c.Regs → List Bool
  | _, stage _ _, st => [st.validReg]
  | _, andThen c _ _, s => c.flags (front s) ++ [(back s).validReg]

theorem length_flags (c : Chain α β) (s : c.Regs) : (c.flags s).length = c.length := by
  induction c with
  | stage impl f => rfl
  | andThen c impl f ih =>
      show (c.flags (front s) ++ [(back s).validReg]).length = c.length + 1
      rw [List.length_append, ih]
      rfl

theorem validO_mem_getLast?_flags (c : Chain α β) (s : c.Regs) :
    c.validO s ∈ (c.flags s).getLast? := by
  cases c with
  | stage impl f => exact rfl
  | andThen c impl f =>
      show (back s).validReg ∈ (c.flags (front s) ++ [(back s).validReg]).getLast?
      rw [List.getLast?_concat]
      exact rfl

/-- The chain holds a word for each flag that is up. -/
theorem length_held (c : Chain α β) (s : c.Regs) :
    (c.held s).length = (c.flags s).count true := by
  induction c with
  | stage impl f =>
      show (slot (Stage.validReg s) (Stage.data s)).length = [Stage.validReg s].count true
      cases Stage.validReg s <;> rfl
  | andThen c impl f ih =>
      show (slot (back s).validReg (back s).data ++ (c.held (front s)).map f).length
        = (c.flags (front s) ++ [(back s).validReg]).count true
      rw [List.length_append, List.length_map, ih, List.count_append, Nat.add_comm]
      cases (back s).validReg <;> rfl

/-- While words are taken at the output, every flag moves one stage on. -/
theorem flags_step (c : Chain α β) {s : c.Regs} {i : ChainIn α}
    (h : c.validO s = true → i.readyI = true) :
    c.flags (c.step s i) = i.validI :: (c.flags s).dropLast := by
  induction c generalizing i with
  | stage impl f =>
      show [(Stage.step impl s i.validI (f i.data) i.readyI).validReg] = [i.validI]
      rw [Stage.validReg_step_of_ready impl s _ _ h]
  | andThen c impl f ih =>
      have hfront := ih (s := front s)
        (i := { i with readyI := impl.readyO (back s).validReg (c.validO (front s)) i.readyI })
        (fun hvalid => by
          rw [hvalid]
          exact impl.readyO_of_valid (readyO_of_imp h))
      -- the last stage takes over the flag in front of it; its own is dropped
      have hback := (back s).validReg_step_of_ready impl (c.validO (front s))
        (f (c.dataO (front s))) h
      show c.flags (c.step (front s) _) ++ [((back s).step impl _ _ _).validReg]
        = i.validI :: (c.flags (front s) ++ [(back s).validReg]).dropLast
      rw [hfront, hback, List.dropLast_concat, List.cons_append,
        List.dropLast_append_getLast? _ (c.validO_mem_getLast?_flags (front s))]

/-- After a number of edges with the output ready, the flags are the valids of
these edges, then the old flags. -/
theorem flags_run (c : Chain α β) (s : c.Regs) {tail : List (ChainIn α)}
    (h : ∀ i ∈ tail, i.readyI = true) :
    c.flags (run c.step s tail)
      = ((tail.map ChainIn.validI).reverse ++ c.flags s).take c.length := by
  induction tail using List.reverseRecOn with
  | nil =>
      rw [run_nil, ← c.length_flags s]
      exact (List.take_length).symm
  | append_singleton tail i ih =>
      have hready := h i (List.mem_append_right _ (List.mem_singleton_self i))
      -- the last edge shifts the flags once more
      have hrest := ih fun j hj => h j (List.mem_append_left _ hj)
      have hlen := c.length_flags s
      have hpos : 0 < c.length := by cases c <;> exact Nat.succ_pos _
      rw [run_concat, c.flags_step fun _ => hready, hrest, List.map_append, List.map_singleton,
        List.reverse_append, List.reverse_singleton, List.singleton_append, List.cons_append]
      generalize (tail.map ChainIn.validI).reverse = new
      -- the flag of the last stage goes, the new one comes first
      rw [List.dropLast_eq_take, List.take_take, List.length_take, List.length_append, hlen,
        Nat.min_eq_left (Nat.le_add_left c.length new.length), Nat.min_eq_left (Nat.sub_le _ 1)]
      obtain ⟨n, hn⟩ := Nat.exists_eq_succ_of_ne_zero (Nat.ne_of_gt hpos)
      rw [hn, List.take_succ_cons]
      rfl

/-- Along edges with the output ready every offered word is accepted. -/
theorem length_events_accepted (c : Chain α β) (s : c.Regs) {tail : List (ChainIn α)}
    (h : ∀ i ∈ tail, i.readyI = true) :
    (events c.step c.accepted s tail).length = (tail.map ChainIn.validI).count true := by
  induction tail generalizing s with
  | nil => rfl
  | cons i tail ih =>
      -- the output is ready at every edge, so what is valid is accepted
      have hone : (c.accepted s i).length = [i.validI].count true := by
        unfold accepted
        cases hvalid : i.validI with
        | false => rfl
        | true => rw [c.readyO_of_taken fun _ => h i List.mem_cons_self]; rfl
      rw [events_cons, List.length_append, hone, ih _ fun j hj => h j (List.mem_cons_of_mem i hj),
        List.map_cons, ← List.count_append]
      rfl

/-! ## The elastic pipeline -/

/-- Words accepted, words delivered and words held, over a run from reset. -/
theorem accepted_eq_delivered (c : Chain α β) {s : c.Regs} (hs : c.IsReset s)
    (ins : List (ChainIn α)) :
    (events c.step c.accepted s ins).map c.apply
      = events c.step c.delivered s ins ++ c.held (run c.step s ins) := by
  have halong : Along c.step (fun s i => c.held s ++ (c.accepted s i).map c.apply
      = c.delivered s i ++ c.held (c.step s i)) s ins :=
    along_of_forall c.step (fun s i => c.held_step s i) s ins
  have hrun := events_conserved halong
  rwa [c.held_of_isReset hs, List.nil_append, events_map] at hrun

/-- As many edges with the output ready as there are stages deliver all that
was accepted before them. -/
theorem delivered_of_drained (c : Chain α β) {s : c.Regs} (hs : c.IsReset s)
    (ins : List (ChainIn α)) {tail : List (ChainIn α)} (h : ∀ i ∈ tail, i.readyI = true)
    (hlen : c.length ≤ tail.length) :
    (events c.step c.accepted s ins).map c.apply
      <+: events c.step c.delivered s (ins ++ tail) := by
  have hall := c.accepted_eq_delivered hs (ins ++ tail)
  -- what is held at the end came in during the tail
  have hheld : (c.held (run c.step s (ins ++ tail))).length
      ≤ (events c.step c.accepted (run c.step s ins) tail).length := by
    rw [run_append, length_held, c.flags_run _ h, c.length_events_accepted _ h,
      List.take_append_of_le_length (by rw [List.length_reverse, List.length_map]; exact hlen),
      ← List.count_reverse (l := tail.map ChainIn.validI)]
    exact (List.take_sublist _ _).count_le _
  have hcount := congrArg List.length hall
  rw [events_append, List.map_append] at hall
  rw [events_append, List.map_append, List.length_append, List.length_append, List.length_map,
    List.length_map] at hcount
  refine List.prefix_of_prefix_length_le ⟨_, hall⟩ ⟨_, rfl⟩ ?_
  rw [List.length_map]
  omega

/-- A chain of stages, each with the implementation of its choice, is an
elastic pipeline from reset on:

* the words delivered are the images of the words accepted, in order, each
  once, less the last ones, which are held;
* it holds at most as many words as it has stages;
* a word offered at the output and not taken stays there unchanged;
* while the output is ready, an offered word is accepted in every cycle;
* as many cycles with the output ready as there are stages deliver everything
  that was accepted before them. -/
theorem elastic_pipeline (c : Chain α β) (s : c.Regs) (hs : c.IsReset s)
    (ins : List (ChainIn α)) :
    (events c.step c.accepted s ins).map c.apply
        = events c.step c.delivered s ins ++ c.held (run c.step s ins)
      ∧ (c.held (run c.step s ins)).length ≤ c.length
      ∧ (∀ i : ChainIn α, c.validO (run c.step s ins) = true → i.readyI = false →
          c.validO (run c.step s (ins ++ [i])) = true
            ∧ c.dataO (run c.step s (ins ++ [i])) = c.dataO (run c.step s ins))
      ∧ (∀ i : ChainIn α, i.validI = true → i.readyI = true →
          c.accepted (run c.step s ins) i = [i.data])
      ∧ (∀ tail : List (ChainIn α), (∀ i ∈ tail, i.readyI = true) → c.length ≤ tail.length →
          (events c.step c.accepted s ins).map c.apply
            <+: events c.step c.delivered s (ins ++ tail)) := by
  refine ⟨c.accepted_eq_delivered hs ins, c.length_held_le _, ?_, ?_, ?_⟩
  · intro i hvalid hready
    rw [run_concat]
    exact c.stable_of_stalled hvalid hready
  · intro i hvalid hready
    unfold accepted
    rw [hvalid, hready, c.readyO_of_taken fun _ => rfl]
    rfl
  · intro tail htail hlen
    exact c.delivered_of_drained hs ins htail hlen

/-- One stage of each kind, filled up against an output that is not ready: the
fourth word waits outside. -/
theorem elastic_pipeline_mixed :
    let c : Chain ℕ ℕ :=
      ((stage .axiLike (· + 1)).andThen .rdyAck (· * 2)).andThen .axiLikeEn (· + 3)
    let s : c.Regs := snoc (snoc (single ⟨false, 0⟩) ⟨false, 0⟩) ⟨false, 0⟩
    let ins : List (ChainIn ℕ) := [⟨true, 5, false⟩, ⟨true, 6, false⟩, ⟨true, 7, false⟩,
      ⟨true, 8, false⟩]
    events c.step c.accepted s ins = [5, 6, 7]
      ∧ (events c.step c.accepted s ins).map c.apply
        = events c.step c.delivered s ins ++ c.held (run c.step s ins)
      ∧ (c.held (run c.step s ins)).length ≤ 3 := by
  intro c s ins
  have hreset : c.IsReset s := And.intro (And.intro rfl rfl) rfl
  have hpipe := elastic_pipeline c s hreset ins
  exact ⟨by decide, hpipe.1, hpipe.2.1⟩

end Chain

end SocRtl.Handshake
