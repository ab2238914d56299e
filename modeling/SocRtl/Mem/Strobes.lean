import SocRtl.Mem.AxiLite

/-!
# SocRtl.Mem.Strobes — write strobes at the memory slaves

Every accepted data word comes with a strobe that says which of its bytes are
to be written. Neither slave stores the strobe or looks at it. What the two
have in common is a `Slave`: the pairing registers, a store of words, and the
law that a write replaces the addressed word as a whole. From that follows
exactly when a write does what its strobe says.
-/

namespace SocRtl.Mem

open Bytes Handshake

/-- A memory slave: `pair` finds the pairing registers, `word` reads the store
and `addressed` says which word an address means. -/
structure Slave (σ κ : Type) where
  hit : BitVec 32 → Bool
  reset : σ → σ
  step : σ → AxiLiteIn → σ
  pair : σ → AwW
  word : σ → κ → BitVec 32
  addressed : BitVec 32 → κ → Bool
  pair_reset : ∀ s, pair (reset s) = AwW.reset
  pair_step : ∀ s i, pair (step s i) = (pair s).step hit i.awW
  word_step : ∀ s i a, word (step s i) a
    = if (pair s).xtAwWVld hit = true ∧ addressed (pair s).xtWrAddr a = true
      then (pair s).xtWrData else word s a

/-- `axi_lite_memory` as a slave. -/
def liteSlave (M : Sram 15) : Slave (AxiLiteMemory M) (BitVec 15) where
  hit := AxiLiteMemory.hit
  reset := AxiLiteMemory.reset
  step := AxiLiteMemory.step
  pair := AxiLiteMemory.pair
  word := AxiLiteMemory.word
  addressed := fun addr a => decide (wordIndex 15 addr = a)
  pair_reset := fun _ => rfl
  pair_step := fun _ _ => rfl
  word_step := by
    intro s i a
    rw [AxiLiteMemory.word_step]
    exact if_congr (by simp [AxiLiteMemory.xtAwWVld]) rfl rfl

/-- `axi_lite_imp_memory` as a slave. -/
def impSlave (M : Sram 17) : Slave (AxiLiteImpMemory M) (Fin 38 × BitVec 17) where
  hit := AxiLiteImpMemory.hit
  reset := AxiLiteImpMemory.reset
  step := AxiLiteImpMemory.step
  pair := AxiLiteImpMemory.pair
  word := AxiLiteImpMemory.word
  addressed := fun addr a =>
    AxiLiteImpMemory.selects addr a.1 && decide (wordIndex 17 addr = a.2)
  pair_reset := fun _ => rfl
  pair_step := fun _ _ => rfl
  word_step := by
    intro s i a
    rw [AxiLiteImpMemory.word_step]
    exact if_congr (by simp) rfl rfl

namespace Slave

variable {σ κ : Type} (K : Slave σ κ)

/-- The pairs written along a run. -/
def commits (s : σ) (ins : List AxiLiteIn) : List (BitVec 32 × BitVec 32) :=
  events K.step (fun s i => (K.pair s).commit K.hit i.awW) s ins

/-- The strobes of the data words accepted along a run. -/
def strobes (s : σ) (ins : List AxiLiteIn) : List (BitVec 4) :=
  events K.step (fun s i => slot (i.sWValid && (K.pair s).sWReady K.hit) i.sWStrb) s ins

/-- The strobe that belongs to the next write: the one that came with the
data word of the same number. -/
def strobe (s : σ) (ins : List AxiLiteIn) : Option (BitVec 4) :=
  (K.strobes s ins)[(K.commits s ins).length]?

/-- If the edge writes, it changes the memory as `strb` says: in the addressed
word the bytes whose bit is set, and nothing else. -/
def Honours (strb : Option (BitVec 4)) (s : σ) (i : AxiLiteIn) : Prop :=
  (K.pair s).xtAwWVld K.hit = true → ∃ m, strb = some m ∧
    ∀ a, K.word (K.step s i) a
      = if K.addressed (K.pair s).xtWrAddr a = true
        then mergeBytes m (K.pair s).xtWrData (K.word s a) else K.word s a

/-- If the edge writes, the bytes of the data word whose bit in `strb` is
clear carry what the addressed word holds already. -/
def CarriesOld (strb : Option (BitVec 4)) (s : σ) : Prop :=
  (K.pair s).xtAwWVld K.hit = true → ∀ m, strb = some m →
    ∀ a, K.addressed (K.pair s).xtWrAddr a = true → ∀ b < 4, m.getLsbD b = false →
      lane (K.word s a) b = lane (K.pair s).xtWrData b

variable {K}

/-- From reset on, the pairing registers run on the AW and W channels alone. -/
theorem pair_run (s : σ) (ins : List AxiLiteIn) :
    K.pair (run K.step (K.reset s) ins)
      = run (AwW.step K.hit) AwW.reset (ins.map AxiLiteIn.awW) := by
  rw [← K.pair_reset s]
  exact run_component K.pair_step _ ins

theorem commits_eq (s : σ) (ins : List AxiLiteIn) :
    K.commits (K.reset s) ins = AwW.commits K.hit AwW.reset (ins.map AxiLiteIn.awW) := by
  rw [← K.pair_reset s]
  exact events_component K.pair_step (AwW.commit K.hit) _ ins

/-- Every data word brought a strobe. -/
theorem length_strobes (s : σ) (ins : List AxiLiteIn) :
    (K.strobes (K.reset s) ins).length
      = (K.commits (K.reset s) ins).length
        + (K.pair (run K.step (K.reset s) ins)).pendingW.length := by
  -- strobe and data word are accepted by the same handshake
  have hw : (K.strobes (K.reset s) ins).length
      = (AwW.wLog K.hit AwW.reset (ins.map AxiLiteIn.awW)).length := by
    rw [← K.pair_reset s, AwW.wLog, ← events_component K.pair_step (AwW.wTaken K.hit)]
    apply length_events_congr
    intro s i
    unfold AwW.wTaken slot AxiLiteIn.awW
    split <;> rfl
  rw [hw, commits_eq, pair_run, AwW.wLog_reset]
  simp

/-- The pair being written has a strobe. -/
theorem exists_strobe (s : σ) (h : List AxiLiteIn)
    (hvld : (K.pair (run K.step (K.reset s) h)).xtAwWVld K.hit = true) :
    ∃ m, K.strobe (K.reset s) h = some m := by
  have hlen := length_strobes (K := K) s h
  -- the word of the pair is still in its register: accepted and not yet written
  have hone : (K.pair (run K.step (K.reset s) h)).pendingW.length = 1 := by
    unfold AwW.xtAwWVld at hvld
    unfold AwW.pendingW slot
    cases hw : (K.pair (run K.step (K.reset s) h)).xtWValid with
    | true => rfl
    | false => simp [hw] at hvld
  have hlt : (K.commits (K.reset s) h).length < (K.strobes (K.reset s) h).length := by omega
  exact ⟨_, List.getElem?_eq_getElem hlt⟩

/-- A write honours its strobe exactly if the bytes left out carry what is
stored already. -/
theorem honours_iff {strb : Option (BitVec 4)} {s : σ} (i : AxiLiteIn)
    (hstrb : (K.pair s).xtAwWVld K.hit = true → ∃ m, strb = some m) :
    K.Honours strb s i ↔ K.CarriesOld strb s := by
  constructor
  · -- the word read back is both the whole word and the merged one
    intro h hvld m hm a haddr
    rcases h hvld with ⟨m', hm', hword⟩
    have heq : m' = m := Option.some.inj (hm'.symm.trans hm)
    have hmerge := hword a
    rw [K.word_step, if_pos ⟨hvld, haddr⟩, if_pos haddr, heq] at hmerge
    exact (mergeBytes_eq_iff m _ _).mp hmerge.symm
  · intro h hvld
    rcases hstrb hvld with ⟨m, hm⟩
    refine ⟨m, hm, ?_⟩
    intro a
    rw [K.word_step]
    by_cases haddr : K.addressed (K.pair s).xtWrAddr a = true
    · -- the whole word is written, which is as good as its strobed bytes
      rw [if_pos ⟨hvld, haddr⟩, if_pos haddr]
      exact ((mergeBytes_eq_iff m _ _).mpr (h hvld m hm a haddr)).symm
    · rw [if_neg (fun hand => haddr hand.2), if_neg haddr]

variable (K)

/-- Every write of a run honours its strobe. -/
def StrobesHonoured (s : σ) (ins : List AxiLiteIn) : Prop :=
  ∀ h i rest, ins = h ++ i :: rest →
    K.Honours (K.strobe (K.reset s) h) (run K.step (K.reset s) h) i

/-- Every write of a run carries the old value in the bytes it should leave
alone. -/
def OldBytesCarried (s : σ) (ins : List AxiLiteIn) : Prop :=
  ∀ h i rest, ins = h ++ i :: rest →
    K.CarriesOld (K.strobe (K.reset s) h) (run K.step (K.reset s) h)

theorem strobesHonoured_iff (s : σ) (ins : List AxiLiteIn) :
    K.StrobesHonoured s ins ↔ K.OldBytesCarried s ins := by
  constructor
  · intro h pre i rest heq
    exact (honours_iff i (exists_strobe s pre)).mp (h pre i rest heq)
  · intro h pre i rest heq
    exact (honours_iff i (exists_strobe s pre)).mpr (h pre i rest heq)

end Slave

/-- Both memory slaves honour the strobes of a run if and only if every write
of the run carries, in the bytes whose strobe bit is clear, what the addressed
word holds already. -/
theorem strobes_honoured_iff (M : Sram 15) (N : Sram 17) :
    (∀ s ins, (liteSlave M).StrobesHonoured s ins ↔ (liteSlave M).OldBytesCarried s ins) ∧
    (∀ s ins, (impSlave N).StrobesHonoured s ins ↔ (impSlave N).OldBytesCarried s ins) :=
  ⟨(liteSlave M).strobesHonoured_iff, (impSlave N).strobesHonoured_iff⟩

/-- The slaves after power-up, with cleared block RAMs. -/
def coldLite : AxiLiteMemory (blockRam 15) := ⟨AwW.reset, false, (fun _ => 0, 0)⟩

def coldImp : AxiLiteImpMemory (blockRam 17) :=
  ⟨AwW.reset, false, 0, fun _ => (fun _ => 0, 0)⟩

/-- A store of one byte at address 0: the strobe is `0001`. -/
def storeByte : AxiLiteIn := ⟨true, 0, true, 0xaabbccdd, 0b0001#4, true, false, 0, true⟩

def idleBus : AxiLiteIn := ⟨false, 0, false, 0, 0, true, false, 0, true⟩

/-- The store of a byte writes the whole word. -/
theorem store_byte_writes_word :
    ¬ (liteSlave (blockRam 15)).StrobesHonoured coldLite [storeByte, idleBus] ∧
      ¬ (impSlave (blockRam 17)).StrobesHonoured coldImp [storeByte, idleBus] := by
  constructor
  · intro h
    rcases h [storeByte] idleBus [] rfl rfl with ⟨m, hm, hword⟩
    have hbyte : m = 0b0001#4 := (Option.some.inj hm).symm
    subst hbyte
    exact absurd (hword 0) (by decide)
  · intro h
    rcases h [storeByte] idleBus [] rfl (by decide) with ⟨m, hm, hword⟩
    have hbyte : m = 0b0001#4 := (Option.some.inj hm).symm
    subst hbyte
    exact absurd (hword (0, 0)) (by decide)

end SocRtl.Mem
