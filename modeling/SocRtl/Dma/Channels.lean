import SocRtl.Dma.ImpCh

/-!
# SocRtl.Dma.Channels — the read and the write channel of the image DMA

`mst_imp_r_ch` and `mst_imp_w_ch` are the address generator plus a data
register. What they share is stated once for a `Channel`, a circuit that
contains the generator, and then read off for the two modules:

* the raster sequence of the handshaked addresses;
* the number of handshakes, which is that of the configured window only if
  the window starts at pixel 0 of the line;
* the stability of a stalled address, which a restart breaks.
-/

namespace SocRtl.Dma

/-! ## Model -/

/-- The registers of `mst_imp_r_ch`. -/
structure MstImpRCh where
  ch : ImpCh
  xtAxiRdata : BitVec 32

/-- The inputs of `mst_imp_r_ch`. -/
structure MstImpRChIn where
  cfg : ImpCfg
  impSt : Bool
  memAxiArready : Bool
  memAxiRvalid : Bool
  memAxiRdata : BitVec 32

namespace MstImpRCh

def reset : MstImpRCh := ⟨ImpCh.reset, 0⟩

def memAxiRready : Bool := true

def chIn (i : MstImpRChIn) : ImpChIn := ⟨i.cfg, i.impSt, i.memAxiArready⟩

/-- One clock edge. -/
def step (s : MstImpRCh) (i : MstImpRChIn) : MstImpRCh where
  ch := s.ch.step (chIn i)
  xtAxiRdata := if i.memAxiRvalid && memAxiRready then i.memAxiRdata else s.xtAxiRdata

end MstImpRCh

/-- The registers of `mst_imp_w_ch`. -/
structure MstImpWCh where
  ch : ImpCh
  xtAxiWdata : BitVec 32

/-- The inputs of `mst_imp_w_ch` that it looks at. -/
structure MstImpWChIn where
  cfg : ImpCfg
  impSt : Bool
  memAxiAwready : Bool
  memAxiWready : Bool

namespace MstImpWCh

def reset : MstImpWCh := ⟨ImpCh.reset, 0⟩

def memAxiWvalid : Bool := true

def memAxiWstrb : BitVec 4 := 0b1111#4

def memAxiBready : Bool := true

def chIn (i : MstImpWChIn) : ImpChIn := ⟨i.cfg, i.impSt, i.memAxiAwready⟩

/-- One clock edge. The data counter advances with every accepted word, job or
no job. -/
def step (s : MstImpWCh) (i : MstImpWChIn) : MstImpWCh where
  ch := s.ch.step (chIn i)
  xtAxiWdata := if memAxiWvalid && i.memAxiWready then s.xtAxiWdata + 1 else s.xtAxiWdata

end MstImpWCh

/-! ## Circuits that contain the generator -/

/-- A circuit with the generator inside: `ch` finds its registers, `port` its
inputs, and every input of the generator can be offered to it. -/
structure Channel (σ ι : Type) where
  step : σ → ι → σ
  reset : σ
  ch : σ → ImpCh
  port : ι → ImpChIn
  offer : ImpChIn → ι
  ch_step : ∀ s i, ch (step s i) = (ch s).step (port i)
  ch_reset : ch reset = ImpCh.reset
  port_offer : ∀ i, port (offer i) = i

def rCh : Channel MstImpRCh MstImpRChIn where
  step := MstImpRCh.step
  reset := MstImpRCh.reset
  ch := MstImpRCh.ch
  port := MstImpRCh.chIn
  offer := fun i => ⟨i.cfg, i.impSt, i.ready, false, 0⟩
  ch_step := fun _ _ => rfl
  ch_reset := rfl
  port_offer := fun _ => rfl

def wCh : Channel MstImpWCh MstImpWChIn where
  step := MstImpWCh.step
  reset := MstImpWCh.reset
  ch := MstImpWCh.ch
  port := MstImpWCh.chIn
  offer := fun i => ⟨i.cfg, i.impSt, i.ready, false⟩
  ch_step := fun _ _ => rfl
  ch_reset := rfl
  port_offer := fun _ => rfl

namespace Channel

variable {σ ι : Type} (K : Channel σ ι)

/-- The state a run from reset leads to. -/
def after (ins : List ι) : σ := run K.step K.reset ins

/-- The addresses handshaked along a run. -/
def addrs (s : σ) (ins : List ι) : List (BitVec 32) :=
  events K.step (fun s i => (K.ch s).beat (K.port i)) s ins

/-- The number of cycles in which the slave is ready. -/
def readyCycles (ins : List ι) : ℕ := ins.countP fun i => (K.port i).ready

/-- The start bit rises while the channel is idle. -/
def Launch (s : σ) (i : ι) : Prop := (K.ch s).Launch (K.port i)

/-- No start edge is acted upon along the run. -/
def NoRestart (s : σ) (ins : List ι) : Prop :=
  Along K.step (fun s _ => (K.ch s).xtAllProcTrg = false) s ins

variable {K}

theorem ch_run (s : σ) (ins : List ι) :
    K.ch (run K.step s ins) = run ImpCh.step (K.ch s) (ins.map K.port) :=
  run_component K.ch_step s ins

theorem addrs_eq (s : σ) (ins : List ι) :
    K.addrs s ins = ImpCh.addrs (K.ch s) (ins.map K.port) :=
  events_component K.ch_step ImpCh.beat s ins

theorem readyCycles_eq (ins : List ι) :
    K.readyCycles ins = ImpCh.readyCycles (ins.map K.port) := by
  rw [readyCycles, ImpCh.readyCycles, List.countP_map]
  rfl

theorem noRestart_iff (s : σ) (ins : List ι) :
    K.NoRestart s ins ↔ ImpCh.NoRestart (K.ch s) (ins.map K.port) :=
  along_component K.ch_step (fun s _ => s.xtAllProcTrg = false) s ins

theorem processing_eq_valid (ins : List ι) :
    (K.ch (K.after ins)).xtProcessing = (K.ch (K.after ins)).xtAxiValid := by
  rw [after, ch_run, K.ch_reset]
  exact ImpCh.processing_eq_valid _

/-- A whole job of a channel, from the start pulse. -/
theorem job_of_launch_run (hist : List ι) {i j : ι} (h : K.Launch (K.after hist) i)
    {c : ImpCfg} (hj : (K.port j).cfg = c) {ins : List ι} (hcfg : ∀ i ∈ ins, (K.port i).cfg = c)
    (hno : K.NoRestart (run K.step (K.after hist) [i, j]) ins) :
    K.addrs (K.after hist) (i :: j :: ins)
        = (List.range (min c.total (K.readyCycles ins))).map c.addrAt ∧
      ImpCh.Job c (min c.total (K.readyCycles ins))
        (K.ch (run K.step (K.after hist) (i :: j :: ins))) := by
  rw [noRestart_iff, ch_run] at hno
  rw [addrs_eq, ch_run, readyCycles_eq]
  have hcfg' : ∀ p ∈ ins.map K.port, p.cfg = c := by
    intro p hp
    rcases List.mem_map.mp hp with ⟨q, hq, rfl⟩
    exact hcfg q hq
  exact ImpCh.job_of_launch_run (processing_eq_valid hist) h hj hcfg' hno

/-! ## The raster sequence -/

variable (K)

/-- In every reachable state the processing flag is the valid output. In every
job under a stable configuration every ready cycle handshakes an address until
the job is done, the `k`-th one is that of word `k % beats` of line
`k / beats`, and a stalled address stays. A job has `VSIZE` lines, if there is a
line to make and the end-of-frame count does not wrap. -/
def RasterSequence : Prop :=
  (∀ hist, (K.ch (K.after hist)).xtProcessing = (K.ch (K.after hist)).xtAxiValid) ∧
  ∀ hist i j ins, K.Launch (K.after hist) i → (∀ p ∈ ins, (K.port p).cfg = (K.port j).cfg) →
    K.NoRestart (run K.step (K.after hist) [i, j]) ins →
    (K.addrs (K.after hist) (i :: j :: ins)).length
      = min (K.port j).cfg.total (K.readyCycles ins) ∧
    (1 ≤ (K.port j).cfg.vsize.toNat →
      (K.port j).cfg.coorMiny.toNat + (K.port j).cfg.vsize.toNat ≤ 65536 →
      (K.port j).cfg.total = (K.port j).cfg.beats * (K.port j).cfg.vsize.toNat) ∧
    (∀ k a, (K.addrs (K.after hist) (i :: j :: ins))[k]? = some a →
      a.toNat = ((K.port j).cfg.baddr.toNat
        + k / (K.port j).cfg.beats * (K.port j).cfg.adrPitch.toNat
        + 4 * (k % (K.port j).cfg.beats)) % 2 ^ 32) ∧
    Along K.step (fun s p => (K.ch s).xtAxiValid = true → (K.port p).ready = false →
      (K.ch (K.step s p)).xtAxiAddr = (K.ch s).xtAxiAddr) (K.after hist) (i :: j :: ins)

theorem rasterSequence : K.RasterSequence := by
  refine ⟨processing_eq_valid, ?_⟩
  intro hist i j ins hlaunch hcfg hno
  rcases job_of_launch_run hist hlaunch rfl hcfg hno with ⟨haddrs, _⟩
  refine ⟨?_, ?_, ?_, ?_⟩
  · rw [haddrs]
    simp
  · intro vsize hfit
    rw [ImpCfg.total, ImpCfg.lines_eq vsize hfit]
  · intro k a hk
    rw [haddrs, List.getElem?_map, Option.map_eq_some_iff] at hk
    rcases hk with ⟨k', hk', rfl⟩
    -- the `k`-th of the beats is beat `k`
    rcases List.getElem?_eq_some_iff.mp hk' with ⟨_, hkk⟩
    rw [List.getElem_range] at hkk
    rw [hkk]
    exact ImpCfg.toNat_addrAt _ k'
  · -- a stalled address, in the two cycles of the launch and after it
    have hidle : ImpCh.Idle (K.ch (K.after hist)) :=
      ⟨(processing_eq_valid hist).trans hlaunch.idle, hlaunch.idle⟩
    have hidle' : ImpCh.Idle (K.ch (K.step (K.after hist) i)) := by
      rw [K.ch_step]
      exact ImpCh.idle_step hidle (ImpCh.xtAllProcTrg_of_low hlaunch.low) _
    refine ⟨?_, ?_, along_mono K.step ?_ hno⟩
    · -- nothing is offered while the channel launches
      intro hvalid
      rw [hidle.valid] at hvalid
      exact absurd hvalid Bool.false_ne_true
    · intro hvalid
      rw [hidle'.valid] at hvalid
      exact absurd hvalid Bool.false_ne_true
    · intro s p htrg _ hready
      rw [K.ch_step, ImpCh.addr_of_stall hready, htrg]
      rfl

/-! ## The number of beats -/

/-- In every job under the configuration `c` that sees `N` ready cycles, the
channel handshakes the beats of the window, `VSIZE` lines of `HSIZE` words, and
then stays quiet until it is started again. -/
def TransfersWindow (c : ImpCfg) (N : ℕ) : Prop :=
  ∀ hist i j ins rest, K.Launch (K.after hist) i → (K.port j).cfg = c →
    (∀ p ∈ ins, (K.port p).cfg = c) →
    K.NoRestart (run K.step (K.after hist) [i, j]) (ins ++ rest) → N ≤ K.readyCycles ins →
    K.addrs (K.after hist) (i :: j :: (ins ++ rest))
        = (List.range (c.hsize.toNat * c.vsize.toNat)).map c.windowAddr ∧
      (K.ch (run K.step (K.after hist) (i :: j :: (ins ++ rest)))).xtAxiValid = false

variable {K}

/-- What a job transfers if it sees enough ready cycles. -/
theorem transfers_total {c : ImpCfg} (hist : List ι) {i j : ι} (h : K.Launch (K.after hist) i)
    (hj : (K.port j).cfg = c) {ins rest : List ι} (hcfg : ∀ p ∈ ins, (K.port p).cfg = c)
    (hno : K.NoRestart (run K.step (K.after hist) [i, j]) (ins ++ rest))
    (hready : c.total ≤ K.readyCycles ins) :
    K.addrs (K.after hist) (i :: j :: (ins ++ rest)) = (List.range c.total).map c.addrAt ∧
      (K.ch (run K.step (K.after hist) (i :: j :: (ins ++ rest)))).xtAxiValid = false := by
  rw [NoRestart, along_append] at hno
  rcases job_of_launch_run hist h hj hcfg hno.1 with ⟨haddrs, hjob⟩
  rw [Nat.min_eq_left hready] at haddrs hjob
  -- the job is over when `rest` begins
  have hidle : ImpCh.Idle (K.ch (run K.step (K.after hist) (i :: j :: ins))) := hjob.idle
  have hquiet : ImpCh.NoRestart (K.ch (run K.step (K.after hist) (i :: j :: ins)))
      (rest.map K.port) := (noRestart_iff _ _).mp hno.2
  rcases ImpCh.idle_run hidle hquiet with ⟨hnone, hend⟩
  have hsplit : i :: j :: (ins ++ rest) = (i :: j :: ins) ++ rest := rfl
  constructor
  · rw [hsplit, addrs, events_append]
    rw [← addrs_eq] at hnone
    rw [addrs] at haddrs hnone
    rw [haddrs, hnone, List.append_nil]
  · rw [hsplit, run_append, ch_run]
    exact hend.valid

variable (K)

/-- A run that starts a job right after reset and is ready ever after. -/
theorem exists_job (c : ImpCfg) (N : ℕ) :
    ∃ i j ins, K.Launch (K.after []) i ∧ (K.port j).cfg = c ∧ (∀ p ∈ ins, (K.port p).cfg = c) ∧
      K.NoRestart (run K.step (K.after []) [i, j]) ins ∧ N ≤ K.readyCycles ins := by
  refine ⟨K.offer ⟨c, true, false⟩, K.offer ⟨c, false, false⟩,
    List.replicate N (K.offer ⟨c, false, true⟩), ?_, ?_, ?_, ?_, ?_⟩
  · rw [Launch, after, run_nil, K.ch_reset, K.port_offer]
    exact ⟨rfl, rfl, rfl⟩
  · rw [K.port_offer]
  · intro p hp
    rw [List.eq_of_mem_replicate hp, K.port_offer]
  · rw [noRestart_iff, ch_run]
    -- the start bit has fallen again before the first ready cycle
    have hlow : (run ImpCh.step (K.ch (K.after []))
        ([K.offer ⟨c, true, false⟩, K.offer ⟨c, false, false⟩].map K.port)).xtImpStDly.getLsbD 0
          = false := by
      simp only [List.map_cons, List.map_nil, run_cons, run_nil, ImpCh.xtImpStDly_step,
        K.port_offer]
    refine (ImpCh.noRestart_of_not_starts (ImpCh.xtAllProcTrg_of_low hlow)
      (ImpCh.not_starts_of_level hlow ?_)).1
    intro p hp
    rcases List.mem_map.mp hp with ⟨q, hq, rfl⟩
    rw [List.eq_of_mem_replicate hq, K.port_offer]
  · simp [readyCycles, List.countP_replicate, K.port_offer]

/-- The channel transfers the configured window if and only if the window
starts at pixel 0 of the line. -/
theorem transfersWindow_iff_minx {c : ImpCfg} (hsize : 1 ≤ c.hsize.toNat)
    (vsize : 1 ≤ c.vsize.toNat) (hfitx : c.coorMinx.toNat + c.hsize.toNat ≤ 65536)
    (hfity : c.coorMiny.toNat + c.vsize.toNat ≤ 65536) {N : ℕ}
    (hN : c.hsize.toNat * c.vsize.toNat ≤ N) : K.TransfersWindow c N ↔ c.coorMinx = 0 := by
  -- both end counts include the offset, and only the rows begin at theirs
  have htotal : c.total = (c.coorMinx.toNat + c.hsize.toNat) * c.vsize.toNat := by
    rw [ImpCfg.total, ImpCfg.beats_eq hsize hfitx, ImpCfg.lines_eq vsize hfity]
  constructor
  · -- one job is enough to count the beats
    intro h
    rcases K.exists_job c (max N c.total) with ⟨i, j, ins, hlaunch, hj, hcfg, hno, hready⟩
    rw [← List.append_nil ins] at hno
    have hwindow := congrArg List.length (h [] i j ins [] hlaunch hj hcfg hno (by omega)).1
    have hall := (transfers_total [] hlaunch hj hcfg hno (by omega)).1
    rw [hall, List.length_map, List.length_map, List.length_range, List.length_range, htotal,
      Nat.add_mul] at hwindow
    -- so many beats too many for every line
    have hzero : c.coorMinx.toNat * c.vsize.toNat = 0 := by omega
    rcases Nat.mul_eq_zero.mp hzero with hx | hv
    · exact BitVec.eq_of_toNat_eq hx
    · omega
  · -- from pixel 0 the line is as long as the window is wide
    intro hx hist i j ins rest hlaunch hj hcfg hno hready
    have heq : c.total = c.hsize.toNat * c.vsize.toNat := by
      rw [htotal, hx]
      simp
    have hline : c.windowAddr = c.addrAt := by
      funext k
      rw [ImpCfg.addrAt, ImpCfg.beats_eq hsize hfitx, hx]
      simp [ImpCfg.windowAddr]
    rw [← heq, hline]
    exact transfers_total hist hlaunch hj hcfg hno (by omega)

/-! ## Stability of a stalled address -/

/-- A stalled beat is offered again in the next cycle, at the same address. -/
def Stable (s : σ) (i : ι) : Prop :=
  (K.ch s).xtAxiValid = true → (K.port i).ready = false →
    (K.ch (K.step s i)).xtAxiValid = true ∧
      (K.ch (K.step s i)).xtAxiAddr = (K.ch s).xtAxiAddr

/-- No start edge is acted upon while a beat is stalled, unless the beat
stands at the base address anyway. -/
def NoStalledRestart (s : σ) (i : ι) : Prop :=
  ¬ ((K.ch s).xtAxiValid = true ∧ (K.port i).ready = false ∧ (K.ch s).xtAllProcTrg = true ∧
    (K.port i).cfg.baddr ≠ (K.ch s).xtAxiAddr)

theorem stable_iff (s : σ) (i : ι) : K.Stable s i ↔ K.NoStalledRestart s i := by
  rw [Stable, NoStalledRestart, K.ch_step]
  constructor
  · intro h
    rintro ⟨hvalid, hready, htrg, hbase⟩
    have haddr := (h hvalid hready).2
    rw [ImpCh.addr_of_stall hready, htrg] at haddr
    exact hbase haddr
  · intro h hvalid hready
    refine ⟨ImpCh.valid_of_stall hvalid hready, ?_⟩
    rw [ImpCh.addr_of_stall hready]
    split
    · by_contra hbase
      exact h ⟨hvalid, hready, by assumption, hbase⟩
    · rfl

end Channel

/-! ## The two channels -/

/-- Both channels emit the raster sequence. -/
theorem channels_raster : rCh.RasterSequence ∧ wCh.RasterSequence :=
  ⟨rCh.rasterSequence, wCh.rasterSequence⟩

/-- Both channels transfer the configured window if and only if `MINX` is 0.
The line counter is reloaded with 0 where the row counter is reloaded with
`MINY`, and `CNST_PXL_X_STA` is not used at all. -/
theorem channels_transfer_window_iff (c : ImpCfg) (hsize : 1 ≤ c.hsize.toNat)
    (vsize : 1 ≤ c.vsize.toNat) (hfitx : c.coorMinx.toNat + c.hsize.toNat ≤ 65536)
    (hfity : c.coorMiny.toNat + c.vsize.toNat ≤ 65536) (N : ℕ)
    (hN : c.hsize.toNat * c.vsize.toNat ≤ N) :
    (rCh.TransfersWindow c N ↔ c.coorMinx = 0) ∧ (wCh.TransfersWindow c N ↔ c.coorMinx = 0) :=
  ⟨rCh.transfersWindow_iff_minx hsize vsize hfitx hfity hN,
    wCh.transfersWindow_iff_minx hsize vsize hfitx hfity hN⟩

/-- A window of two lines of three words, with `MINX = 0`. -/
theorem channels_transfer_two_lines :
    rCh.TransfersWindow ⟨3, 0, 2, 5, 0x1000, 16⟩ 6 ∧
      wCh.TransfersWindow ⟨3, 0, 2, 5, 0x1000, 16⟩ 6 :=
  have h := channels_transfer_window_iff ⟨3, 0, 2, 5, 0x1000, 16⟩ (by decide) (by decide)
    (by decide) (by decide) 6 (by decide)
  ⟨h.1.mpr rfl, h.2.mpr rfl⟩

/-- A window of one word at `MINX = 1`. -/
def oneWord : ImpCfg := ⟨1, 1, 1, 0, 0x1000, 4⟩

/-- A start pulse, then ready cycles. -/
def oneWordJob : List ImpChIn :=
  [⟨oneWord, true, false⟩, ⟨oneWord, false, false⟩] ++ List.replicate 4 ⟨oneWord, false, true⟩

/-- The window of one word takes two handshakes. -/
theorem minx_transfers_too_much :
    (rCh.addrs rCh.reset (oneWordJob.map rCh.offer)).length = 2 ∧
      (wCh.addrs wCh.reset (oneWordJob.map wCh.offer)).length = 2 ∧
      oneWord.hsize.toNat * oneWord.vsize.toNat = 1 := by
  decide

/-- A run of a channel keeps every stalled address if and only if it never
restarts the channel during a stall. -/
theorem channels_stable_iff (rIns : List MstImpRChIn) (wIns : List MstImpWChIn) :
    (Along rCh.step rCh.Stable rCh.reset rIns
      ↔ Along rCh.step rCh.NoStalledRestart rCh.reset rIns) ∧
    (Along wCh.step wCh.Stable wCh.reset wIns
      ↔ Along wCh.step wCh.NoStalledRestart wCh.reset wIns) :=
  ⟨along_congr rCh.step rCh.stable_iff rCh.reset rIns,
    along_congr wCh.step wCh.stable_iff wCh.reset wIns⟩

/-- Two words, the first one handshaked; then the start bit rises again while
the second one is stalled. -/
def restartedJob : List ImpChIn :=
  [⟨⟨2, 0, 1, 0, 0x1000, 8⟩, true, false⟩, ⟨⟨2, 0, 1, 0, 0x1000, 8⟩, false, false⟩,
    ⟨⟨2, 0, 1, 0, 0x1000, 8⟩, false, true⟩, ⟨⟨2, 0, 1, 0, 0x1000, 8⟩, true, false⟩,
    ⟨⟨2, 0, 1, 0, 0x1000, 8⟩, false, false⟩]

/-- The stalled address `0x1004` falls back to `0x1000`. -/
theorem restart_moves_stalled_address :
    ¬ Along rCh.step rCh.Stable rCh.reset (restartedJob.map rCh.offer) ∧
      ¬ Along wCh.step wCh.Stable wCh.reset (restartedJob.map wCh.offer) := by
  constructor
  · rintro ⟨_, _, _, _, hstall, _⟩
    exact absurd (hstall rfl rfl).2 (by decide)
  · rintro ⟨_, _, _, _, hstall, _⟩
    exact absurd (hstall rfl rfl).2 (by decide)

end SocRtl.Dma
