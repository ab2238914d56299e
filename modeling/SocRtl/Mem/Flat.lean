import SocRtl.Mem.Responses

/-!
# SocRtl.Mem.Flat — the banked image memory as one flat store

The bus routes `0x4000_0000` to `0x412F_FFFF` to `axi_lite_imp_memory`. Over this
window address bits 24 to 19 run through the 38 banks and bits 18 to 2 through
the words of a bank, so the banks together are one store of words indexed by
address bits 31 to 2. Accepted writes go into that store in order, and a read
returns what it holds, whatever banks the accesses before and after are in.
-/

namespace SocRtl.Mem

open Bytes Handshake Store

/-! ## The window -/

/-- The byte addresses that the bus routes to the image memory. -/
def InWindow (addr : BitVec 32) : Prop :=
  0x40000000 ≤ addr.toNat ∧ addr.toNat ≤ 0x412fffff

instance (addr : BitVec 32) : Decidable (InWindow addr) :=
  inferInstanceAs (Decidable (_ ∧ _))

/-- The word of the flat store that a byte address means. -/
def flatWord (addr : BitVec 32) : BitVec 30 := wordIndex 30 addr

namespace AxiLiteImpMemory

variable {M : Sram 17}

theorem toNat_bank (addr : BitVec 32) : (bank addr).toNat = addr.toNat / 2 ^ 19 % 64 := by
  rw [bank, BitVec.extractLsb'_toNat, Nat.shiftRight_eq_div_pow]

theorem bank_lt_of_window {addr : BitVec 32} (h : InWindow addr) : (bank addr).toNat < 38 := by
  have hlow := h.1
  have hhigh := h.2
  rw [toNat_bank]
  omega

/-- The bank of an address of the window. -/
def bankOf (addr : BitVec 32) (h : InWindow addr) : Fin 38 :=
  ⟨(bank addr).toNat, bank_lt_of_window h⟩

/-- It is the only bank that the address selects. -/
theorem selects_iff {addr : BitVec 32} (h : InWindow addr) (k : Fin 38) :
    selects addr k = true ↔ k = bankOf addr h := by
  unfold selects
  rw [decide_eq_true_eq]
  constructor
  · intro heq
    apply Fin.ext
    show (k : ℕ) = (bank addr).toNat
    rw [heq, BitVec.toNat_ofNat]
    omega
  · intro heq
    rw [heq]
    show bank addr = BitVec.ofNat 6 (bank addr).toNat
    rw [BitVec.ofNat_toNat, BitVec.setWidth_eq]

/-- Bank and word in the bank determine the word of the flat store. -/
theorem flatWord_inj {addr addr' : BitVec 32} (h : InWindow addr) (h' : InWindow addr')
    (hbank : bank addr = bank addr') (hword : wordIndex 17 addr = wordIndex 17 addr') :
    flatWord addr = flatWord addr' := by
  have hb := congrArg BitVec.toNat hbank
  have hw := congrArg BitVec.toNat hword
  rw [toNat_bank, toNat_bank] at hb
  rw [toNat_wordIndex, toNat_wordIndex] at hw
  apply BitVec.eq_of_toNat_eq
  rw [flatWord, flatWord, toNat_wordIndex, toNat_wordIndex]
  rcases h with ⟨hlow, hhigh⟩
  rcases h' with ⟨hlow', hhigh'⟩
  omega

/-- The word of the flat store determines bank and word in the bank. -/
theorem location_of_flatWord {addr addr' : BitVec 32} (heq : flatWord addr = flatWord addr') :
    bank addr = bank addr' ∧ wordIndex 17 addr = wordIndex 17 addr' := by
  have hw := congrArg BitVec.toNat heq
  rw [flatWord, flatWord, toNat_wordIndex, toNat_wordIndex] at hw
  constructor
  · apply BitVec.eq_of_toNat_eq
    rw [toNat_bank, toNat_bank]
    omega
  · apply BitVec.eq_of_toNat_eq
    rw [toNat_wordIndex, toNat_wordIndex]
    omega

/-! ## The store -/

/-- The banks as one store. -/
def flat (s : AxiLiteImpMemory M) (w : BitVec 30) : BitVec 32 :=
  if h : (w.extractLsb' 17 6).toNat < 38 then
    s.word (⟨(w.extractLsb' 17 6).toNat, h⟩, w.extractLsb' 0 17)
  else 0

theorem flat_eq (s : AxiLiteImpMemory M) {addr : BitVec 32} (h : InWindow addr) :
    s.flat (flatWord addr) = s.word (bankOf addr h, wordIndex 17 addr) := by
  have hbank : (flatWord addr).extractLsb' 17 6 = bank addr := by
    apply BitVec.eq_of_toNat_eq
    rw [BitVec.extractLsb'_toNat, Nat.shiftRight_eq_div_pow, flatWord, toNat_wordIndex, toNat_bank]
    omega
  have hword : (flatWord addr).extractLsb' 0 17 = wordIndex 17 addr := by
    apply BitVec.eq_of_toNat_eq
    rw [BitVec.extractLsb'_toNat, Nat.shiftRight_zero, flatWord, toNat_wordIndex, toNat_wordIndex]
    omega
  unfold flat
  rw [hbank, hword, dif_pos (bank_lt_of_window h)]
  rfl

/-- An access means a word of a bank if and only if it means that word of the
flat store. -/
theorem addressed_iff {addr addr' : BitVec 32} (h : InWindow addr) (h' : InWindow addr') :
    (impSlave M).addressed addr' (bankOf addr h, wordIndex 17 addr) = true
      ↔ flatWord addr' = flatWord addr := by
  show (selects addr' (bankOf addr h) && decide (wordIndex 17 addr' = wordIndex 17 addr)) = true ↔ _
  rw [Bool.and_eq_true, selects_iff h', decide_eq_true_eq]
  constructor
  · rintro ⟨hbank, hword⟩
    have hnat : (bank addr').toNat = (bank addr).toNat := (congrArg Fin.val hbank).symm
    exact flatWord_inj h' h (BitVec.eq_of_toNat_eq hnat) hword
  · intro heq
    rcases location_of_flatWord heq with ⟨hbank, hword⟩
    refine ⟨Fin.ext ?_, hword⟩
    show (bank addr).toNat = (bank addr').toNat
    rw [hbank]

/-- The writes that the flat store sees. -/
def flatWrites (ops : List (BitVec 32 × BitVec 32)) : List (BitVec 30 × BitVec 32) :=
  ops.map fun op => (flatWord op.1, op.2)

/-- Writes into the banks are writes into the flat store. -/
theorem lastWrite_eq_writeAll (mem : BitVec 30 → BitVec 32) {addr : BitVec 32}
    (h : InWindow addr) {ops : List (BitVec 32 × BitVec 32)} (hops : ∀ op ∈ ops, InWindow op.1) :
    (impSlave M).lastWrite (bankOf addr h, wordIndex 17 addr) (mem (flatWord addr)) ops
      = writeAll mem (flatWrites ops) (flatWord addr) := by
  induction ops generalizing mem with
  | nil => rfl
  | cons op ops ih =>
      have hop : InWindow op.1 := hops op List.mem_cons_self
      have hone : (impSlave M).lastWrite (bankOf addr h, wordIndex 17 addr)
            (mem (flatWord addr)) [op]
          = Function.update mem (flatWord op.1) op.2 (flatWord addr) := by
        show (if (impSlave M).addressed op.1 _ = true then op.2 else mem (flatWord addr)) = _
        rw [Function.update_apply]
        exact if_congr ((addressed_iff h hop).trans eq_comm) rfl rfl
      rw [← List.singleton_append, Slave.lastWrite_append, hone,
        ih _ fun op hop => hops op (List.mem_cons_of_mem _ hop)]
      rfl

/-! ## Runs -/

/-- The master writes into the window. -/
def WritesInWindow (ins : List AxiLiteIn) : Prop :=
  ∀ i ∈ ins, i.sAwValid = true → InWindow i.sAwAddr

/-- Then the addresses accepted are in the window. -/
theorem awLog_in_window (s : AxiLiteImpMemory M) {ins : List AxiLiteIn} (h : WritesInWindow ins) :
    ∀ addr ∈ (impSlave M).awLog s ins, InWindow addr := by
  refine forall_mem_events (along_mono _ ?_ (along_of_inputs _ h))
  intro s i hi addr hmem
  unfold AwW.awTaken slot at hmem
  split at hmem
  · rename_i htaken
    rw [List.mem_singleton.mp hmem]
    exact hi (Bool.and_eq_true_iff.mp htaken).1
  · exact absurd hmem List.not_mem_nil

/-- So are those of the writes made. -/
theorem commits_in_window (s : AxiLiteImpMemory M) {ins : List AxiLiteIn}
    (h : WritesInWindow ins) :
    ∀ op ∈ (impSlave M).commits s.reset ins, InWindow op.1 := by
  intro op hop
  have hlog := awLog_in_window s.reset h
  have hreset : (impSlave M).awLog s.reset ins = _ := Slave.awLog_reset s ins
  rw [hreset] at hlog
  exact hlog op.1 (List.mem_append_left _ (List.mem_map_of_mem hop))

/-- So is the address that waits for its data. -/
theorem xtWrAddr_in_window (s : AxiLiteImpMemory M) {ins : List AxiLiteIn}
    (h : WritesInWindow ins)
    (hvalid : (run (impSlave M).step s.reset ins).pair.xtAwValid = true) :
    InWindow (run (impSlave M).step s.reset ins).pair.xtWrAddr := by
  refine awLog_in_window s.reset h _ ?_
  have hreset : (impSlave M).awLog s.reset ins = _ := Slave.awLog_reset s ins
  rw [hreset]
  refine List.mem_append_right _ ?_
  show _ ∈ slot (run (impSlave M).step s.reset ins).pair.xtAwValid _
  rw [hvalid]
  exact List.mem_singleton.mpr rfl

/-- Every accepted pair is committed at the next edge, in order. -/
theorem commits_concat (s : AxiLiteImpMemory M) {ins : List AxiLiteIn} (h : WritesInWindow ins)
    (i : AxiLiteIn) :
    (impSlave M).commits s.reset (ins ++ [i]) = (impSlave M).pairs s.reset ins := by
  -- the address that waits is in the window, so some bank takes it
  have hmapped : (run (impSlave M).step s.reset ins).pair.xtAwValid = true →
      hit (run (impSlave M).step s.reset ins).pair.xtWrAddr = true := by
    intro hvalid
    have hwindow := xtWrAddr_in_window s h hvalid
    exact hit_of_selects ((selects_iff hwindow _).mpr rfl)
  have hpairs : (impSlave M).pairs s.reset ins = _ := Slave.pairs_eq s ins
  have hcommit := AwW.commit_eq_waiting hmapped i.awW
  rw [hpairs, Slave.commits, events_concat]
  show _ ++ AwW.commit hit (run (impSlave M).step s.reset ins).pair i.awW = _
  rw [hcommit]
  rfl

/-- The flat store after a run is the initial one with all writes made. -/
theorem flat_run (s : AxiLiteImpMemory M) {ins : List AxiLiteIn} (h : WritesInWindow ins)
    {addr : BitVec 32} (haddr : InWindow addr) :
    (run (impSlave M).step s.reset ins).flat (flatWord addr)
      = writeAll s.flat (flatWrites ((impSlave M).commits s.reset ins)) (flatWord addr) := by
  -- in its bank the word is that of the last write to it
  have hword : (run (impSlave M).step s.reset ins).word (bankOf addr haddr, wordIndex 17 addr)
      = (impSlave M).lastWrite (bankOf addr haddr, wordIndex 17 addr)
        (s.word (bankOf addr haddr, wordIndex 17 addr)) ((impSlave M).commits s.reset ins) :=
    Slave.word_run (K := impSlave M) s.reset ins _
  rw [flat_eq _ haddr, hword, ← flat_eq s haddr]
  exact lastWrite_eq_writeAll s.flat haddr (commits_in_window s h)

/-- The word handshaked on R one cycle after an accepted read. -/
theorem read_flat (s : AxiLiteImpMemory M) {ins : List AxiLiteIn} (h : WritesInWindow ins)
    {i j : AxiLiteIn} (hread : i.sArValid = true) (haddr : InWindow i.sArAddr)
    (hfree : ∀ op ∈ (run (impSlave M).step s.reset ins).pair.commit hit i.awW,
      flatWord op.1 ≠ flatWord i.sArAddr) (hready : j.sRReady = true) :
    (impAxi M).rTaken (run (impSlave M).step s.reset (ins ++ [i])) j
      = [writeAll s.flat (flatWrites ((impSlave M).commits s.reset ins)) (flatWord i.sArAddr)] := by
  have hsel := (selects_iff haddr _).mpr rfl
  have hvalid : (run (impSlave M).step s.reset (ins ++ [i])).sRValid = true := by
    rw [run_concat]
    exact (sRValid_step _ i).trans (by rw [hread, hit_of_selects hsel]; rfl)
  -- the read sees the bank before the edge
  have hdata : (run (impSlave M).step s.reset (ins ++ [i])).sRData
      = (run (impSlave M).step s.reset ins).flat (flatWord i.sArAddr) := by
    rw [run_concat, flat_eq _ haddr]
    refine sRData_step _ i hread hsel ?_
    -- a write of the word would be the commit at the edge
    rintro ⟨hvld, hsame⟩
    rcases (xtAwWVld_iff _ _).mp hvld with ⟨hpair, hwr⟩
    have hvalid : (run (impSlave M).step s.reset ins).pair.xtAwValid = true := by
      unfold AwW.xtAwWVld at hpair
      exact (Bool.and_eq_true_iff.mp (Bool.and_eq_true_iff.mp hpair).1).1
    have hbank : bank (run (impSlave M).step s.reset ins).pair.xtWrAddr = bank i.sArAddr :=
      (of_decide_eq_true hwr).trans (of_decide_eq_true hsel).symm
    refine hfree ((run (impSlave M).step s.reset ins).pair.xtWrAddr,
      (run (impSlave M).step s.reset ins).pair.xtWrData) ?_
      (flatWord_inj (xtWrAddr_in_window s h hvalid) haddr hbank hsame)
    show _ ∈ slot _ _
    rw [hpair]
    exact List.mem_singleton.mpr rfl
  have htaken : (impAxi M).rTaken (run (impSlave M).step s.reset (ins ++ [i])) j
      = slot ((run (impSlave M).step s.reset (ins ++ [i])).sRValid && j.sRReady)
        (run (impSlave M).step s.reset (ins ++ [i])).sRData := rfl
  rw [htaken, hvalid, hready, hdata, flat_run s h haddr]
  rfl

end AxiLiteImpMemory

/-- The banked image memory is one flat store of words.

* Every address of the window selects exactly one bank, the same for reads and
  for writes.
* Bank and word in the bank determine the word of the flat store.
* In every run that writes into the window, every accepted pair is committed
  with the next edge, in order; and a read of the window, unless its word is
  being written, returns in the next cycle what the committed writes left in
  the flat store. -/
theorem banks_are_flat (M : Sram 17) :
    (∀ addr, InWindow addr → ∃ k, ∀ k',
      (∀ i : AxiLiteIn, i.sArValid = true → i.sArAddr = addr →
        (AxiLiteImpMemory.xtArValid i k' = true ↔ k' = k)) ∧
      (∀ s : AxiLiteImpMemory M, s.pair.xtAwValid = true → s.pair.xtWValid = true →
        s.pair.xtWrAddr = addr → (s.xtAwWVld k' = true ↔ k' = k))) ∧
    (∀ addr addr', InWindow addr → InWindow addr' →
      AxiLiteImpMemory.bank addr = AxiLiteImpMemory.bank addr' →
      wordIndex 17 addr = wordIndex 17 addr' → flatWord addr = flatWord addr') ∧
    ∀ (s : AxiLiteImpMemory M) ins, AxiLiteImpMemory.WritesInWindow ins →
      (∀ i, (impSlave M).commits s.reset (ins ++ [i]) = (impSlave M).pairs s.reset ins) ∧
      ∀ i j, i.sArValid = true → InWindow i.sArAddr →
        (∀ op ∈ (run (impSlave M).step s.reset ins).pair.commit AxiLiteImpMemory.hit i.awW,
          flatWord op.1 ≠ flatWord i.sArAddr) → j.sRReady = true →
        (impAxi M).rTaken (run (impSlave M).step s.reset (ins ++ [i])) j
          = [writeAll s.flat
              (AxiLiteImpMemory.flatWrites ((impSlave M).commits s.reset ins))
              (flatWord i.sArAddr)] := by
  refine ⟨?_, ?_, ?_⟩
  · intro addr h
    refine ⟨AxiLiteImpMemory.bankOf addr h, ?_⟩
    intro k'
    rw [← AxiLiteImpMemory.selects_iff h k']
    constructor
    · -- a read and a write look at the same bits of the address
      intro i hvalid haddr
      rw [AxiLiteImpMemory.xtArValid, hvalid, haddr, Bool.true_and]
    · intro s hvalid hdata haddr
      rw [AxiLiteImpMemory.xtAwWVld, hvalid, hdata, haddr]
      simp
  · intro addr addr' h h'
    exact AxiLiteImpMemory.flatWord_inj h h'
  · intro s ins h
    refine ⟨AxiLiteImpMemory.commits_concat s h, ?_⟩
    intro i j hread haddr hfree hready
    exact AxiLiteImpMemory.read_flat s h hread haddr hfree hready

/-- A store and a read of a word. -/
def storeAt (addr data : BitVec 32) : AxiLiteIn :=
  ⟨true, addr, true, data, 0b1111#4, true, false, 0, true⟩

def readAt (addr : BitVec 32) : AxiLiteIn := ⟨false, 0, false, 0, 0, true, true, addr, true⟩

/-- Stores to the first and to the last word of the window back to back, and
reads of the two back to back: the second read returns the second store. -/
theorem flat_across_banks :
    (impAxi (blockRam 17)).rTaken (run (impSlave (blockRam 17)).step coldImp.reset
        ([storeAt 0x40000000 7, storeAt 0x412ffffc 9, readAt 0x40000000] ++ [readAt 0x412ffffc]))
      idleBus = [9] := by
  have hwindow : AxiLiteImpMemory.WritesInWindow
      [storeAt 0x40000000 7, storeAt 0x412ffffc 9, readAt 0x40000000] := by
    unfold AxiLiteImpMemory.WritesInWindow
    decide
  -- both stores are in the SRAM when the second read comes
  have hdone : (run (impSlave (blockRam 17)).step coldImp.reset
      [storeAt 0x40000000 7, storeAt 0x412ffffc 9, readAt 0x40000000]).pair.commit
        AxiLiteImpMemory.hit (readAt 0x412ffffc).awW = [] := by decide
  have hruns := (banks_are_flat (blockRam 17)).2.2 coldImp _ hwindow
  rw [hruns.2 (readAt 0x412ffffc) idleBus rfl (by decide) ?_ rfl]
  · decide
  · intro op hop
    rw [hdone] at hop
    exact absurd hop List.not_mem_nil

end SocRtl.Mem
