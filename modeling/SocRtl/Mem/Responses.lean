import SocRtl.Mem.Strobes

/-!
# SocRtl.Mem.Responses — the B and R channels of the memory slaves

Neither slave keeps track of the responses it owes. `s_b_valid` is a constant
one, so a B handshake happens whenever the master offers `b_ready`; the master
has to count. `s_r_valid` follows `s_ar_valid` by one cycle and does not look
at `s_r_ready`, so a response that the master does not take at once is lost.

* If the master offers `b_ready` only while a response is owed, responses follow
  writes (`responses_follow_writes`).
* Read responses survive exactly if the master takes each of them in the cycle
  after its address (`responses_survive_iff`).
-/

namespace SocRtl.Mem

open Bytes Handshake

/-! ## Slaves with responses -/

/-- A memory slave with its B, AR and R channels. `hit` says which addresses it
answers. A read that finds its word being written may return anything. -/
structure AxiSlave (σ κ : Type) extends Slave σ κ where
  sBValid : Bool
  sArReady : Bool
  sRValid : σ → Bool
  sRData : σ → BitVec 32
  sBValid_eq : sBValid = true
  sArReady_eq : sArReady = true
  hit_of_addressed : ∀ addr a, addressed addr a = true → hit addr = true
  sRValid_reset : ∀ s, sRValid (reset s) = false
  sRValid_step : ∀ s i, sRValid (step s i) = (i.sArValid && hit i.sArAddr)
  sRData_step : ∀ s i a, i.sArValid = true → addressed i.sArAddr a = true →
    ¬ ((pair s).xtAwWVld hit = true ∧ addressed (pair s).xtWrAddr a = true) →
    sRData (step s i) = word s a

/-- `axi_lite_memory` with its responses. -/
def liteAxi (M : Sram 15) : AxiSlave (AxiLiteMemory M) (BitVec 15) where
  toSlave := liteSlave M
  sBValid := AxiLiteMemory.sBValid
  sArReady := AxiLiteMemory.sArReady
  sRValid := AxiLiteMemory.sRValid
  sRData := AxiLiteMemory.sRData
  sBValid_eq := rfl
  sArReady_eq := rfl
  hit_of_addressed := fun _ _ _ => rfl
  sRValid_reset := fun _ => rfl
  sRValid_step := fun _ i => (Bool.and_true i.sArValid).symm
  sRData_step := by
    intro s i a hvalid haddr hfree
    have ha : wordIndex 15 i.sArAddr = a := of_decide_eq_true haddr
    subst ha
    refine M.doutb_step _ _ hvalid ?_
    rintro ⟨hena, heq⟩
    exact hfree ⟨hena, decide_eq_true heq⟩

namespace AxiLiteImpMemory

variable {M : Sram 17}

theorem hit_of_selects {addr : BitVec 32} {k : Fin 38} (h : selects addr k = true) :
    hit addr = true := by
  unfold hit
  rw [List.any_eq_true]
  exact ⟨k, List.mem_finRange k, h⟩

/-- A read is answered if its address is mapped. -/
theorem sRValid_step (s : AxiLiteImpMemory M) (i : AxiLiteIn) :
    (s.step i).sRValid = (i.sArValid && hit i.sArAddr) := by
  show (List.finRange 38).any (xtArValid i) = _
  unfold xtArValid hit
  cases i.sArValid with
  | true => simp only [Bool.true_and]
  | false => simp

/-- The delayed bank select steers the multiplexer to the bank that was read. -/
theorem sRData_step (s : AxiLiteImpMemory M) (i : AxiLiteIn) {k : Fin 38}
    (hvalid : i.sArValid = true) (hsel : selects i.sArAddr k = true)
    (hfree : ¬ (s.xtAwWVld k = true ∧ wordIndex 17 s.pair.xtWrAddr = wordIndex 17 i.sArAddr)) :
    (s.step i).sRData = s.word (k, wordIndex 17 i.sArAddr) := by
  have hbank : (bank i.sArAddr).toNat = k := by
    have heq : bank i.sArAddr = BitVec.ofNat 6 k := of_decide_eq_true hsel
    rw [heq, BitVec.toNat_ofNat]
    omega
  have hlt : (s.step i).sArAddrDeco1t.toNat < 38 := by
    show (bank i.sArAddr).toNat < 38
    omega
  have hk : (⟨(s.step i).sArAddrDeco1t.toNat, hlt⟩ : Fin 38) = k := Fin.ext hbank
  have hread : xtArValid i k = true := by
    unfold xtArValid
    rw [hvalid, hsel]
    rfl
  rw [sRData, dif_pos hlt, hk]
  exact M.doutb_step _ _ hread hfree

end AxiLiteImpMemory

/-- `axi_lite_imp_memory` with its responses. -/
def impAxi (M : Sram 17) : AxiSlave (AxiLiteImpMemory M) (Fin 38 × BitVec 17) where
  toSlave := impSlave M
  sBValid := AxiLiteImpMemory.sBValid
  sArReady := AxiLiteImpMemory.sArReady
  sRValid := AxiLiteImpMemory.sRValid
  sRData := AxiLiteImpMemory.sRData
  sBValid_eq := rfl
  sArReady_eq := rfl
  hit_of_addressed := by
    intro addr a h
    rcases Bool.and_eq_true_iff.mp h with ⟨hsel, _⟩
    exact AxiLiteImpMemory.hit_of_selects hsel
  sRValid_reset := fun _ => rfl
  sRValid_step := by
    intro s i
    dsimp only [impSlave]
    exact AxiLiteImpMemory.sRValid_step s i
  sRData_step := by
    intro s i a hvalid haddr hfree
    rcases Bool.and_eq_true_iff.mp haddr with ⟨hsel, hword⟩
    have ha : a = (a.1, wordIndex 17 i.sArAddr) := Prod.ext rfl (of_decide_eq_true hword).symm
    have hread := AxiLiteImpMemory.sRData_step s i hvalid hsel
    rw [ha]
    refine hread ?_
    rintro ⟨hvld, heq⟩
    rcases (AxiLiteImpMemory.xtAwWVld_iff s a.1).mp hvld with ⟨hpair, hwr⟩
    refine hfree ⟨hpair, ?_⟩
    have hsame : wordIndex 17 s.pair.xtWrAddr = a.2 := heq.trans (of_decide_eq_true hword)
    exact Bool.and_eq_true_iff.mpr ⟨hwr, decide_eq_true hsame⟩

/-! ## Writes -/

namespace Slave

variable {σ κ : Type} (K : Slave σ κ)

/-- The addresses and the data words accepted along a run. -/
def awLog (s : σ) (ins : List AxiLiteIn) : List (BitVec 32) :=
  events K.step (fun s i => (K.pair s).awTaken K.hit i.awW) s ins

def wLog (s : σ) (ins : List AxiLiteIn) : List (BitVec 32) :=
  events K.step (fun s i => (K.pair s).wTaken K.hit i.awW) s ins

/-- The AW/W pairs accepted along a run. -/
def pairs (s : σ) (ins : List AxiLiteIn) : List (BitVec 32 × BitVec 32) :=
  List.zip (K.awLog s ins) (K.wLog s ins)

/-- What a list of writes leaves in a word that held `w`. -/
def lastWrite (a : κ) (w : BitVec 32) (ops : List (BitVec 32 × BitVec 32)) : BitVec 32 :=
  ops.foldl (fun w op => if K.addressed op.1 a = true then op.2 else w) w

variable {K}

theorem lastWrite_append (a : κ) (w : BitVec 32) (as bs : List (BitVec 32 × BitVec 32)) :
    K.lastWrite a w (as ++ bs) = K.lastWrite a (K.lastWrite a w as) bs := by
  simp [lastWrite]

/-- Every word is what the writes of the run left in it. -/
theorem word_run (s : σ) (ins : List AxiLiteIn) (a : κ) :
    K.word (run K.step s ins) a = K.lastWrite a (K.word s a) (K.commits s ins) := by
  induction ins generalizing s with
  | nil => rfl
  | cons i ins ih =>
      have hcons : K.commits s (i :: ins)
          = (K.pair s).commit K.hit i.awW ++ K.commits (K.step s i) ins := rfl
      have hone : K.word (K.step s i) a
          = K.lastWrite a (K.word s a) ((K.pair s).commit K.hit i.awW) := by
        rw [K.word_step]
        unfold AwW.commit slot
        cases hvld : (K.pair s).xtAwWVld K.hit with
        | true => simp [lastWrite]
        | false => simp [lastWrite]
      rw [run_cons, ih, hcons, lastWrite_append, hone]

/-- Writes elsewhere leave a word as it is. -/
theorem lastWrite_of_elsewhere {a : κ} {w : BitVec 32} {ops : List (BitVec 32 × BitVec 32)}
    (h : ∀ op ∈ ops, K.addressed op.1 a = false) : K.lastWrite a w ops = w := by
  induction ops with
  | nil => rfl
  | cons op ops ih =>
      have hop := h op List.mem_cons_self
      rw [lastWrite, List.foldl_cons, hop]
      exact ih fun op hop => h op (List.mem_cons_of_mem _ hop)

/-- The last write to a word decides. -/
theorem lastWrite_of_getElem? {a : κ} {w addr data : BitVec 32} {k : ℕ}
    {ops : List (BitVec 32 × BitVec 32)} (hk : ops[k]? = some (addr, data))
    (haddr : K.addressed addr a = true)
    (hlater : ∀ j op, k < j → ops[j]? = some op → K.addressed op.1 a = false) :
    K.lastWrite a w ops = data := by
  rcases List.getElem?_eq_some_iff.mp hk with ⟨hlt, hget⟩
  have hsplit : ops = ops.take k ++ (addr, data) :: ops.drop (k + 1) := by
    rw [← hget, List.getElem_cons_drop, List.take_append_drop]
  have helse : ∀ op ∈ ops.drop (k + 1), K.addressed op.1 a = false := by
    intro op hop
    rcases List.getElem?_of_mem hop with ⟨j, hj⟩
    rw [List.getElem?_drop] at hj
    exact hlater (k + 1 + j) op (by omega) hj
  have hone : K.lastWrite a (K.lastWrite a w (ops.take k)) [(addr, data)] = data := if_pos haddr
  rw [hsplit, lastWrite_append, ← List.singleton_append, lastWrite_append, hone,
    lastWrite_of_elsewhere helse]

theorem awLog_eq (s : σ) (ins : List AxiLiteIn) :
    K.awLog (K.reset s) ins = AwW.awLog K.hit AwW.reset (ins.map AxiLiteIn.awW) := by
  rw [← K.pair_reset s]
  exact events_component K.pair_step (AwW.awTaken K.hit) _ ins

theorem wLog_eq (s : σ) (ins : List AxiLiteIn) :
    K.wLog (K.reset s) ins = AwW.wLog K.hit AwW.reset (ins.map AxiLiteIn.awW) := by
  rw [← K.pair_reset s]
  exact events_component K.pair_step (AwW.wTaken K.hit) _ ins

/-- The addresses accepted since reset are those of the writes made and the one
that waits. -/
theorem awLog_reset (s : σ) (ins : List AxiLiteIn) :
    K.awLog (K.reset s) ins = (K.commits (K.reset s) ins).map Prod.fst
      ++ (K.pair (run K.step (K.reset s) ins)).pendingAw := by
  rw [awLog_eq, commits_eq, pair_run, AwW.awLog_reset]

/-- What was accepted since reset, paired up: the writes made and the pair that
is complete. -/
theorem pairs_eq (s : σ) (ins : List AxiLiteIn) :
    K.pairs (K.reset s) ins
      = K.commits (K.reset s) ins ++ (K.pair (run K.step (K.reset s) ins)).waiting := by
  rw [pairs, awLog_eq, wLog_eq, AwW.zip_logs, commits_eq, pair_run]

end Slave

/-! ## Read responses -/

namespace AxiSlave

variable {σ κ : Type} (K : AxiSlave σ κ)

/-- What the response to the address accepted at the edge has to be: the word
addressed, unless that word is being written. -/
def expected (s : σ) (i : AxiLiteIn) : List (BitVec 32 → Prop) :=
  slot (i.sArValid && K.sArReady && K.hit i.sArAddr) fun d =>
    ∀ a, K.addressed i.sArAddr a = true →
      ¬ ((K.pair s).xtAwWVld K.hit = true ∧ K.addressed (K.pair s).xtWrAddr a = true) →
      d = K.word s a

/-- The word handshaked on R at the edge. -/
def rTaken (s : σ) (i : AxiLiteIn) : List (BitVec 32) :=
  slot (K.sRValid s && i.sRReady) (K.sRData s)

/-- The word offered on R. -/
def pendingR (s : σ) : List (BitVec 32) := slot (K.sRValid s) (K.sRData s)

def expectedLog (s : σ) (ins : List AxiLiteIn) : List (BitVec 32 → Prop) :=
  events K.step K.expected s ins

def rLog (s : σ) (ins : List AxiLiteIn) : List (BitVec 32) := events K.step K.rTaken s ins

/-- Read responses survive: at every moment of the run the words handshaked on
R and the one offered there answer the addresses accepted, one word each and in
order, and a word that is not taken stays. -/
def ResponsesSurvive (s : σ) (ins : List AxiLiteIn) : Prop :=
  ∀ h rest, ins = h ++ rest →
    List.Forall₂ (fun p d => p d) (K.expectedLog (K.reset s) h)
      (K.rLog (K.reset s) h ++ K.pendingR (run K.step (K.reset s) h)) ∧
    ∀ i rest', rest = i :: rest' → K.sRValid (run K.step (K.reset s) h) = true →
      i.sRReady = false →
      K.sRValid (K.step (run K.step (K.reset s) h) i) = true ∧
        K.sRData (K.step (run K.step (K.reset s) h) i) = K.sRData (run K.step (K.reset s) h)

/-- The master is ready for a response in every cycle that follows an accepted
address. -/
def TakesAtOnce (ins : List AxiLiteIn) : Prop :=
  ∀ h i j rest, ins = h ++ i :: j :: rest → i.sArValid = true → K.hit i.sArAddr = true →
    j.sRReady = true

variable {K}

/-- An accepted address is answered in the next cycle. -/
theorem expected_step (s : σ) (i : AxiLiteIn) :
    List.Forall₂ (fun p d => p d) (K.expected s i) (K.pendingR (K.step s i)) := by
  unfold expected pendingR
  rw [K.sArReady_eq, Bool.and_true, K.sRValid_step]
  cases hread : i.sArValid && K.hit i.sArAddr with
  | true =>
      refine List.Forall₂.cons ?_ List.Forall₂.nil
      intro a haddr hfree
      exact K.sRData_step s i a (Bool.and_eq_true_iff.mp hread).1 haddr hfree
  | false => exact List.Forall₂.nil

theorem length_expected (s : σ) (i : AxiLiteIn) :
    (K.expected s i).length = (K.pendingR (K.step s i)).length :=
  (expected_step s i).length_eq

/-- A master that takes at once is ready for every word offered. -/
theorem ready_of_takesAtOnce {s : σ} {ins h rest : List AxiLiteIn} {i : AxiLiteIn}
    (htakes : K.TakesAtOnce ins) (heq : ins = h ++ i :: rest)
    (hvalid : K.sRValid (run K.step (K.reset s) h) = true) : i.sRReady = true := by
  rcases List.eq_nil_or_concat h with hnil | ⟨h', i', hh⟩
  · rw [hnil, run_nil, K.sRValid_reset] at hvalid
    exact absurd hvalid Bool.false_ne_true
  · rw [List.concat_eq_append] at hh
    rw [hh, run_concat, K.sRValid_step, Bool.and_eq_true] at hvalid
    refine htakes h' i' i rest ?_ hvalid.1 hvalid.2
    rw [heq, hh, List.append_assoc, List.singleton_append]

/-- All words that were offered before the last edge have been taken. -/
theorem answered_of_takesAtOnce (s : σ) {ins : List AxiLiteIn} (htakes : K.TakesAtOnce ins) :
    ∀ h rest, ins = h ++ rest →
      List.Forall₂ (fun p d => p d) (K.expectedLog (K.reset s) h)
        (K.rLog (K.reset s) h ++ K.pendingR (run K.step (K.reset s) h)) := by
  intro h
  induction h using List.reverseRecOn with
  | nil =>
      intro _ _
      show List.Forall₂ _ [] ([] ++ slot (K.sRValid (K.reset s)) _)
      rw [K.sRValid_reset]
      exact List.Forall₂.nil
  | append_singleton h i ih =>
      intro rest heq
      rw [List.append_assoc, List.singleton_append] at heq
      -- whatever is offered is taken at this edge
      have htaken : K.rTaken (run K.step (K.reset s) h) i
          = K.pendingR (run K.step (K.reset s) h) := by
        unfold rTaken pendingR
        cases hvalid : K.sRValid (run K.step (K.reset s) h) with
        | true => rw [ready_of_takesAtOnce htakes heq hvalid, Bool.and_true]
        | false => rfl
      rw [expectedLog, rLog, events_concat, events_concat, htaken, run_concat]
      exact List.rel_append (ih _ heq) (expected_step _ i)

/-- A response that the master does not take is lost. -/
theorem takesAtOnce_of_survive {s : σ} {ins : List AxiLiteIn}
    (hsurvive : K.ResponsesSurvive s ins) :
    K.TakesAtOnce ins := by
  intro h i j rest heq hvalid hhit
  cases hready : j.sRReady with
  | true => rfl
  | false =>
      -- the word offered before the edge `j` is neither handshaked nor offered after it
      have hbefore := (hsurvive (h ++ [i]) (j :: rest) (by simp [heq])).1.length_eq
      have hafter := (hsurvive (h ++ [i] ++ [j]) rest (by simp [heq])).1.length_eq
      have hoffered : (K.pendingR (run K.step (K.reset s) (h ++ [i]))).length = 1 := by
        rw [run_concat, pendingR, K.sRValid_step, hvalid, hhit]
        rfl
      -- nothing is handshaked, so one answer is missing in the count
      have hnone : K.rTaken (run K.step (K.reset s) (h ++ [i])) j = [] := by
        rw [rTaken, hready, Bool.and_false]
        rfl
      generalize h ++ [i] = pre at hbefore hafter hoffered hnone
      rw [expectedLog, rLog, events_concat, events_concat, hnone, run_concat,
        List.append_nil, List.length_append, List.length_append, length_expected] at hafter
      rw [expectedLog, rLog, List.length_append] at hbefore
      omega

theorem survive_iff_takesAtOnce (s : σ) (ins : List AxiLiteIn) :
    K.ResponsesSurvive s ins ↔ K.TakesAtOnce ins := by
  constructor
  · exact takesAtOnce_of_survive
  · intro htakes h rest heq
    refine ⟨answered_of_takesAtOnce s htakes h rest heq, ?_⟩
    intro i rest' hrest hvalid hready
    rw [hrest] at heq
    -- a stall at a valid response does not occur
    rw [ready_of_takesAtOnce htakes heq hvalid] at hready
    exact absurd hready (by decide)

end AxiSlave

/-- At both memory slaves the read responses of a run survive, each one taken
once, with its data and in order, if and only if the master takes each of them
in the cycle after its address. -/
theorem responses_survive_iff (M : Sram 15) (N : Sram 17) :
    (∀ s ins, (liteAxi M).ResponsesSurvive s ins ↔ (liteAxi M).TakesAtOnce ins) ∧
    (∀ s ins, (impAxi N).ResponsesSurvive s ins ↔ (impAxi N).TakesAtOnce ins) :=
  ⟨(liteAxi M).survive_iff_takesAtOnce, (impAxi N).survive_iff_takesAtOnce⟩

/-- A read of address 0, and a cycle in which the master is not ready for the
response. -/
def readWord : AxiLiteIn := ⟨false, 0, false, 0, 0, false, true, 0, false⟩

def stallR : AxiLiteIn := ⟨false, 0, false, 0, 0, false, false, 0, false⟩

/-- The stalled response is gone one cycle later. -/
theorem stalled_response_lost :
    ¬ (liteAxi (blockRam 15)).ResponsesSurvive coldLite [readWord, stallR] ∧
      ¬ (impAxi (blockRam 17)).ResponsesSurvive coldImp [readWord, stallR] := by
  constructor
  · intro h
    exact absurd ((h [readWord] [stallR] rfl).2 stallR [] rfl rfl rfl).1 (by decide)
  · intro h
    exact absurd ((h [readWord] [stallR] rfl).2 stallR [] rfl (by decide) rfl).1 (by decide)

/-! ## Write responses -/

namespace AxiSlave

variable {σ κ : Type} (K : AxiSlave σ κ)

/-- The number of B handshakes. -/
def bCount (ins : List AxiLiteIn) : ℕ := ins.countP fun i => K.sBValid && i.sBReady

/-- The number of cycles in which the master offers `b_ready`. -/
def bReadyCount (ins : List AxiLiteIn) : ℕ := ins.countP AxiLiteIn.sBReady

/-- Write responses follow writes: at every moment of the run

* there have been at most as many B handshakes as accepted AW/W pairs;
* once `b_ready` has been offered in as many further cycles as committed pairs
  still wait for a B handshake, each has had its own;
* a read accepted after the B handshake of a pair returns what the pair wrote,
  unless a later pair addresses the same word. -/
def ResponsesFollowWrites (s : σ) (ins : List AxiLiteIn) : Prop :=
  ∀ h rest, ins = h ++ rest →
    K.bCount h ≤ (K.pairs (K.reset s) h).length ∧
    ((K.commits (K.reset s) h).length ≤ K.bCount h + bReadyCount rest →
      (K.commits (K.reset s) h).length ≤ K.bCount ins) ∧
    ∀ i rest' k addr data a, rest = i :: rest' →
      (K.pairs (K.reset s) h)[k]? = some (addr, data) → k < K.bCount h →
      K.addressed addr a = true →
      (∀ j op, k < j → (K.pairs (K.reset s) h)[j]? = some op → K.addressed op.1 a = false) →
      i.sArValid = true → K.addressed i.sArAddr a = true →
      K.sRValid (run K.step (K.reset s) (h ++ [i])) = true ∧
        K.sRData (run K.step (K.reset s) (h ++ [i])) = data

/-- The master offers `b_ready` only while it is owed a response: fewer B
handshakes than accepted pairs have gone before. -/
def BReadyOwed (s : σ) (ins : List AxiLiteIn) : Prop :=
  ∀ h i rest, ins = h ++ i :: rest → i.sBReady = true →
    bReadyCount h < (K.pairs (K.reset s) h).length

variable {K}

theorem bCount_eq (ins : List AxiLiteIn) : K.bCount ins = bReadyCount ins := by
  unfold bCount bReadyCount
  rw [K.sBValid_eq]
  rfl

/-- A pair keeps its number. -/
theorem getElem?_pairs_append {s : σ} {h : List AxiLiteIn} {k : ℕ} {op : BitVec 32 × BitVec 32}
    (hk : (K.pairs s h)[k]? = some op) (rest : List AxiLiteIn) :
    (K.pairs s (h ++ rest))[k]? = some op := by
  rcases List.getElem?_zip_eq_some.mp hk with ⟨haw, hw⟩
  exact List.getElem?_zip_eq_some.mpr
    ⟨getElem?_events_append _ _ _ haw rest, getElem?_events_append _ _ _ hw rest⟩

/-- An accepted pair with a mapped address is committed at the next edge at the
latest. -/
theorem committed_of_pair {s : σ} {h : List AxiLiteIn} {k : ℕ} {addr data : BitVec 32}
    (hk : (K.pairs (K.reset s) h)[k]? = some (addr, data)) (hhit : K.hit addr = true)
    (i : AxiLiteIn) : (K.commits (K.reset s) (h ++ [i]))[k]? = some (addr, data) := by
  rw [Slave.pairs_eq] at hk
  rcases Nat.lt_or_ge k (K.commits (K.reset s) h).length with hlt | hge
  · -- it has been committed before
    rw [List.getElem?_append_left hlt] at hk
    exact getElem?_events_append _ _ _ hk [i]
  · -- it is the pair that is complete
    have hmapped : (K.pair (run K.step (K.reset s) h)).xtAwValid = true →
        K.hit (K.pair (run K.step (K.reset s) h)).xtWrAddr = true := by
      intro _
      rw [List.getElem?_append_right hge] at hk
      have hmem := List.mem_of_getElem? hk
      unfold AwW.waiting slot at hmem
      split at hmem
      · rw [List.mem_singleton, Prod.mk.injEq] at hmem
        rw [← hmem.1]
        exact hhit
      · exact absurd hmem List.not_mem_nil
    rw [Slave.commits, events_concat, AwW.commit_eq_waiting hmapped]
    exact hk

/-- In a run in which `b_ready` is offered only when owed, every B handshake
comes after its pair was accepted. -/
theorem pair_before_b {s : σ} {ins : List AxiLiteIn} (howed : K.BReadyOwed s ins) :
    ∀ h rest, ins = h ++ rest → ∀ k < K.bCount h,
      ∃ h' i' rest', h = h' ++ i' :: rest' ∧ k < (K.pairs (K.reset s) h').length := by
  intro h
  induction h using List.reverseRecOn with
  | nil =>
      intro _ _ k hk
      exact absurd hk (Nat.not_lt_zero k)
  | append_singleton h i ih =>
      intro rest heq k hk
      rw [List.append_assoc, List.singleton_append] at heq
      rcases Nat.lt_or_ge k (K.bCount h) with hlt | hge
      · rcases ih _ heq k hlt with ⟨h', i', rest', hh, hpair⟩
        exact ⟨h', i', rest' ++ [i], by simp [hh], hpair⟩
      · -- the handshake is that of the last edge
        rw [bCount_eq] at hk hge
        rw [bReadyCount, List.countP_append, List.countP_singleton] at hk
        cases hready : i.sBReady with
        | true =>
            rw [hready, if_pos rfl] at hk
            have hlast := howed h i rest heq hready
            unfold bReadyCount at hge hlast
            exact ⟨h, i, [], rfl, by omega⟩
        | false =>
            -- no handshake at this edge, so there is no further one to place
            rw [hready, if_neg Bool.false_ne_true, Nat.add_zero] at hk
            exact absurd hk (Nat.not_lt.mpr hge)

/-- After its B handshake the pair is the last one committed to the word, unless
a later one is. -/
theorem word_after_b {s : σ} {ins h rest : List AxiLiteIn} (howed : K.BReadyOwed s ins)
    (heq : ins = h ++ rest) {k : ℕ} {addr data : BitVec 32} {a : κ}
    (hk : (K.pairs (K.reset s) h)[k]? = some (addr, data)) (hb : k < K.bCount h)
    (haddr : K.addressed addr a = true)
    (hlater : ∀ j op, k < j → (K.pairs (K.reset s) h)[j]? = some op →
      K.addressed op.1 a = false) :
    (K.commits (K.reset s) h)[k]? = some (addr, data) ∧
      K.word (run K.step (K.reset s) h) a = data := by
  -- the pair was complete before its handshake, and an edge later it is written
  have hcommit : (K.commits (K.reset s) h)[k]? = some (addr, data) := by
    rcases pair_before_b howed h rest heq k hb with ⟨h', i', rest', hh, hlt⟩
    have hpair : (K.pairs (K.reset s) h')[k]? = some (addr, data) := by
      have hget := List.getElem?_eq_getElem hlt
      have hsame := getElem?_pairs_append hget (i' :: rest')
      rw [← hh, hk] at hsame
      rw [hget, hsame]
    have hdone := committed_of_pair hpair (K.hit_of_addressed addr a haddr) i'
    rw [hh, ← List.singleton_append, ← List.append_assoc]
    exact getElem?_events_append _ _ _ hdone rest'
  refine ⟨hcommit, ?_⟩
  rw [Slave.word_run]
  refine Slave.lastWrite_of_getElem? hcommit haddr ?_
  intro j op hj hop
  refine hlater j op hj ?_
  rcases List.getElem?_eq_some_iff.mp hop with ⟨hlt, _⟩
  rw [Slave.pairs_eq, List.getElem?_append_left hlt, hop]

/-- Responses follow writes in every run in which `b_ready` is offered only when
owed. -/
theorem follow_of_owed {s : σ} {ins : List AxiLiteIn} (howed : K.BReadyOwed s ins) :
    K.ResponsesFollowWrites s ins := by
  intro h rest heq
  refine ⟨?_, ?_, ?_⟩
  · -- the last B handshake has its pair
    rcases Nat.eq_zero_or_pos (K.bCount h) with hzero | hpos
    · omega
    · rcases pair_before_b howed h rest heq (K.bCount h - 1) (by omega) with
        ⟨h', i', rest', hh, hlt⟩
      have hsame := getElem?_pairs_append (List.getElem?_eq_getElem hlt) (i' :: rest')
      rw [← hh] at hsame
      rcases List.getElem?_eq_some_iff.mp hsame with ⟨hlen, _⟩
      omega
  · -- every `b_ready` is a handshake, since `b_valid` is tied high
    intro hlen
    rw [bCount_eq] at hlen ⊢
    rw [heq, bReadyCount, List.countP_append]
    exact hlen
  · intro i rest' k addr data a _ hk hb haddr hlater hread hraddr
    -- the word holds what the pair wrote when it is read
    rcases word_after_b howed heq hk hb haddr hlater with ⟨hcommit, hword⟩
    rw [run_concat, K.sRValid_step, hread, K.hit_of_addressed _ a hraddr, ← hword]
    refine ⟨rfl, K.sRData_step _ i a hread hraddr ?_⟩
    -- a pair being written to the word would be a later one
    rintro ⟨hvld, hsame⟩
    rcases List.getElem?_eq_some_iff.mp hcommit with ⟨hlt, _⟩
    have hwaiting : (K.pair (run K.step (K.reset s) h)).waiting
        = [((K.pair (run K.step (K.reset s) h)).xtWrAddr,
          (K.pair (run K.step (K.reset s) h)).xtWrData)] := by
      unfold AwW.waiting slot
      rw [if_pos (Bool.and_eq_true_iff.mp hvld).1]
    -- and that later one would have this number
    have hnext : (K.pairs (K.reset s) h)[(K.commits (K.reset s) h).length]?
        = some ((K.pair (run K.step (K.reset s) h)).xtWrAddr,
          (K.pair (run K.step (K.reset s) h)).xtWrData) := by
      rw [Slave.pairs_eq, hwaiting]
      simp
    have hno := hlater _ _ hlt hnext
    rw [hsame] at hno
    exact absurd hno (by decide)

end AxiSlave

/-- At both memory slaves write responses follow writes in every run in which
the master offers `b_ready` only while fewer B handshakes than accepted pairs
have gone before. -/
theorem responses_follow_writes (M : Sram 15) (N : Sram 17) :
    (∀ s ins, (liteAxi M).BReadyOwed s ins → (liteAxi M).ResponsesFollowWrites s ins) ∧
    (∀ s ins, (impAxi N).BReadyOwed s ins → (impAxi N).ResponsesFollowWrites s ins) :=
  ⟨fun _ _ => AxiSlave.follow_of_owed, fun _ _ => AxiSlave.follow_of_owed⟩

/-- A store of a word at address 0, its B handshake, and a read of the word. -/
def storeWord : AxiLiteIn := ⟨true, 0, true, 0xaabbccdd, 0b1111#4, false, false, 0, true⟩

def takeB : AxiLiteIn := ⟨false, 0, false, 0, 0, true, false, 0, true⟩

/-- The store is read back after its B handshake. -/
theorem responses_follow_store :
    (liteAxi (blockRam 15)).ResponsesFollowWrites coldLite [storeWord, takeB, readWord] ∧
      (impAxi (blockRam 17)).ResponsesFollowWrites coldImp [storeWord, takeB, readWord] := by
  have hsplit : ∀ (h rest : List AxiLiteIn) (i : AxiLiteIn),
      [storeWord, takeB, readWord] = h ++ i :: rest → i.sBReady = true → h = [storeWord] := by
    intro h rest i heq hready
    rcases h with _ | ⟨x, _ | ⟨y, _ | ⟨z, h⟩⟩⟩
    · rw [← (List.cons.inj heq).1] at hready
      exact absurd hready (by decide)
    · rw [(List.cons.inj heq).1]
    · rw [← (List.cons.inj (List.cons.inj (List.cons.inj heq).2).2).1] at hready
      exact absurd hready (by decide)
    · have hlen := congrArg List.length heq
      simp at hlen
  constructor
  · refine (responses_follow_writes (blockRam 15) (blockRam 17)).1 coldLite _ ?_
    intro h i rest heq hready
    rw [hsplit h rest i heq hready]
    decide
  · refine (responses_follow_writes (blockRam 15) (blockRam 17)).2 coldImp _ ?_
    intro h i rest heq hready
    rw [hsplit h rest i heq hready]
    decide

/-- A master that is always ready for B gets a response to a write that it has
not made. -/
theorem response_without_write :
    ¬ (liteAxi (blockRam 15)).ResponsesFollowWrites coldLite [idleBus] ∧
      ¬ (impAxi (blockRam 17)).ResponsesFollowWrites coldImp [idleBus] := by
  constructor
  · intro h
    exact absurd (h [idleBus] [] rfl).1 (by decide)
  · intro h
    exact absurd (h [idleBus] [] rfl).1 (by decide)

end SocRtl.Mem
