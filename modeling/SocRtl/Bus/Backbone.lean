import SocRtl.Bus.ApbRegs

/-!
# SocRtl.Bus.Backbone — the address maps of the `BACKBONE`

Three tables decide where an access of a master ends: the map of the AXI
crossbar, the map of the APB bridge behind its last port, and the base address
of the register block behind the bridge. The crossbar and the register block
agree on the window of the registers. The map of the bridge places its slaves
elsewhere, where the crossbar never sends it anything.
-/

namespace SocRtl.Bus

open ApbRegs

/-! ## Model -/

def noAxiSlaves : ℕ := 4

def noApbSlaves : ℕ := 2

def noApbRegs : ℕ := 32

/-- `XBAR_INT_NO_SLAVE`. -/
def xbarIntNoSlave : ℕ := noAxiSlaves + 1

/-- `SOC_MEM_MAP_AXI_APB_ID`. -/
def socMemMapAxiApbId : ℕ := 4

/-- `AXI_AddrMap`, from rule 0 up: a packed array is written from its highest
index down. -/
def axiAddrMap : List (Rule 32) :=
  [⟨4, socMemMapAxiApbStartAddr, 0x0011ffff⟩,
   ⟨3, 0x40000000, 0x412fffff⟩,
   ⟨2, 0x00120000, 0x0013ffff⟩,
   ⟨1, 0x00100000, 0x0010ffff⟩,
   ⟨0, 0x00000000, 0x000fffff⟩]

/-- `APB_AddrMap`, from rule 0 up. -/
def apbAddrMap : List (Rule 32) :=
  [⟨0, 0x00130000, 0x001300ff⟩,
   ⟨1, 0x00130100, 0x001310ff⟩]

/-- The port of the crossbar that an address is routed to. -/
def axiDecode (addr : BitVec 32) : Decoded (idxWidth xbarIntNoSlave) := addrDecode axiAddrMap addr

/-- The slave that the bridge selects. -/
def apbDecode (addr : BitVec 32) : Decoded (idxWidth noApbSlaves) := addrDecode apbAddrMap addr

/-- The crossbar routes the address to the bridge. -/
def RoutedToApb (addr : BitVec 32) : Prop :=
  (axiDecode addr).decErrorO = false ∧ (axiDecode addr).idxO.toNat = socMemMapAxiApbId

instance (addr : BitVec 32) : Decidable (RoutedToApb addr) := inferInstanceAs (Decidable (_ ∧ _))

/-- The window of the register block: four bytes for each register. -/
def InRegWindow (addr : BitVec 32) : Prop :=
  socMemMapAxiApbStartAddr.toNat ≤ addr.toNat ∧
    addr.toNat < socMemMapAxiApbStartAddr.toNat + 4 * noApbRegs

instance (addr : BitVec 32) : Decidable (InRegWindow addr) := inferInstanceAs (Decidable (_ ∧ _))

/-- The bridge selects slave 0, and the block behind it the register of the
address. -/
def LevelsAgree (addr : BitVec 32) : Prop :=
  ((apbDecode addr).decValidO = true ∧ (apbDecode addr).idxO = 0) ∧
    (decode apbRegsIntfWrap addr).decValidO = true ∧
      (decode apbRegsIntfWrap addr).idxO.toNat
        = (addr.toNat - socMemMapAxiApbStartAddr.toNat) / 4

/-! ## The crossbar and the bridge -/

/-- What is routed to the bridge lies in its region. -/
theorem region_of_routed {addr : BitVec 32} (h : RoutedToApb addr) :
    0x00110000 ≤ addr.toNat ∧ addr.toNat < 0x0011ffff := by
  rcases matched_of_decoded h.1 with ⟨r, hmem, hmatched, hdecoded⟩
  have hidx : (r.idx.setWidth (idxWidth xbarIntNoSlave)).toNat = socMemMapAxiApbId := by
    have hrouted := h.2
    unfold axiDecode at hrouted
    rwa [hdecoded] at hrouted
  have hport : ∀ r ∈ axiAddrMap,
      (r.idx.setWidth (idxWidth xbarIntNoSlave)).toNat = socMemMapAxiApbId →
      r = ⟨4, socMemMapAxiApbStartAddr, 0x0011ffff⟩ := by decide
  rw [hport r hmem hidx, matched_iff] at hmatched
  rcases hmatched with ⟨hlow, hhigh | hzero⟩
  · exact ⟨hlow, hhigh⟩
  · exact absurd hzero (by decide)

/-- The bridge finds no slave for anything that is routed to it. -/
theorem apbDecode_of_routed {addr : BitVec 32} (h : RoutedToApb addr) :
    apbDecode addr = ⟨0, false, true⟩ := by
  rcases region_of_routed h with ⟨_, hlt⟩
  refine addrDecode_of_unmatched ?_
  intro r hr
  have habove : ∀ r ∈ apbAddrMap, 0x0011ffff ≤ r.startAddr.toNat := by decide
  have hstart := habove r hr
  rw [← Bool.not_eq_true, matched_iff, BitVec.le_def]
  omega

/-! ## The levels of decoding -/

/-- The register block decodes its window as the address says. -/
theorem decode_apbRegsIntfWrap {addr : BitVec 32} (h : InRegWindow addr) :
    (decode apbRegsIntfWrap addr).decValidO = true ∧
      (decode apbRegsIntfWrap addr).idxO.toNat
        = (addr.toNat - socMemMapAxiApbStartAddr.toNat) / 4 := by
  rcases h with ⟨hlow, hhigh⟩
  have hdecoded := decode_of_window (c := apbRegsIntfWrap) (by decide) (by decide) hlow hhigh
  have hlt : (addr.toNat - socMemMapAxiApbStartAddr.toNat) / 4 < 32 := by
    rw [Nat.div_lt_iff_lt_mul (by decide)]
    show _ < 128
    have hend : addr.toNat < socMemMapAxiApbStartAddr.toNat + 128 := hhigh
    omega
  rw [hdecoded]
  refine ⟨rfl, ?_⟩
  show (BitVec.setWidth 5 (BitVec.ofNat 32 _)).toNat = _
  rw [BitVec.toNat_setWidth, BitVec.toNat_ofNat]
  show (addr.toNat - socMemMapAxiApbStartAddr.toNat) / 4 % 2 ^ 32 % 2 ^ 5 = _
  rw [Nat.mod_eq_of_lt (b := 2 ^ 32) (by omega), Nat.mod_eq_of_lt hlt]

/-- The levels agree on no address: the bridge answers every access to the
window of the register block with a decode error. -/
theorem levels_disagree (addr : BitVec 32) (hrouted : RoutedToApb addr)
    (hwindow : InRegWindow addr) :
    ¬ LevelsAgree addr ∧ (apbDecode addr).decErrorO = true ∧
      (decode apbRegsIntfWrap addr).idxO.toNat
        = (addr.toNat - socMemMapAxiApbStartAddr.toNat) / 4 := by
  have herror := apbDecode_of_routed hrouted
  refine ⟨?_, ?_, (decode_apbRegsIntfWrap hwindow).2⟩
  · intro h
    have hvalid := h.1.1
    rw [herror] at hvalid
    exact Bool.false_ne_true hvalid
  · rw [herror]

/-- The first register. -/
theorem levels_disagree_at_start :
    RoutedToApb 0x00110000 ∧ InRegWindow 0x00110000 ∧
      ¬ LevelsAgree 0x00110000 ∧ (apbDecode 0x00110000).decErrorO = true ∧
      (decode apbRegsIntfWrap 0x00110000).idxO.toNat
        = ((0x00110000 : BitVec 32).toNat - socMemMapAxiApbStartAddr.toNat) / 4 :=
  ⟨by decide, by decide, levels_disagree 0x00110000 (by decide) (by decide)⟩

/-- The bridge has no slave at the address of the first register. -/
theorem not_all_levels_agree :
    ¬ ∀ addr, RoutedToApb addr → InRegWindow addr → LevelsAgree addr := by
  intro h
  have hvalid := (h 0x00110000 (by decide) (by decide)).1.1
  exact absurd hvalid (by decide)

/-! ## The windows of the memory map

`Global_define.svh` gives the last address of a region where a rule of the
decoder wants the one after it. -/

/-- The address lies in the region of the rule, both ends included. -/
def InRegion (r : Rule 32) (addr : BitVec 32) : Prop := r.startAddr ≤ addr ∧ addr ≤ r.endAddr

instance (r : Rule 32) (addr : BitVec 32) : Decidable (InRegion r addr) :=
  inferInstanceAs (Decidable (_ ∧ _))

/-- The crossbar routes the regions of the memory map: an address in a region
goes to its port, an address in none is a decode error, and no address is in
two regions. -/
structure RoutesRegions (addr : BitVec 32) : Prop where
  routed : ∀ r ∈ axiAddrMap, InRegion r addr → (axiDecode addr).decValidO = true ∧
    (axiDecode addr).decErrorO = false ∧ (axiDecode addr).idxO.toNat = r.idx.toNat
  error : (∀ r ∈ axiAddrMap, ¬ InRegion r addr) → (axiDecode addr).decValidO = false ∧
    (axiDecode addr).decErrorO = true
  disjoint : ∀ r ∈ axiAddrMap, ∀ r' ∈ axiAddrMap, InRegion r addr → InRegion r' addr → r = r'

/-- Two regions have no address in common. -/
theorem eq_of_inRegion {r r' : Rule 32} (hr : r ∈ axiAddrMap) (hr' : r' ∈ axiAddrMap)
    {addr : BitVec 32} (h : InRegion r addr) (h' : InRegion r' addr) : r = r' := by
  -- the regions of the memory map lie apart
  have hapart : ∀ r ∈ axiAddrMap, ∀ r' ∈ axiAddrMap,
      r = r' ∨ r.endAddr < r'.startAddr ∨ r'.endAddr < r.startAddr := by decide
  rcases hapart r hr r' hr' with heq | hlt | hlt
  · exact heq
  · exact absurd (BitVec.le_trans h'.1 h.2) (BitVec.not_le.mpr hlt)
  · exact absurd (BitVec.le_trans h.1 h'.2) (BitVec.not_le.mpr hlt)

/-- A rule matches its region less the last address. -/
theorem matched_iff_inRegion {r : Rule 32} (hr : r ∈ axiAddrMap) (addr : BitVec 32) :
    r.matched false addr = true ↔ InRegion r addr ∧ addr ≠ r.endAddr := by
  have hend : ∀ r ∈ axiAddrMap, r.endAddr ≠ 0 := by decide
  have hne := hend r hr
  rw [matched_iff]
  constructor
  · rintro ⟨hlow, hlt | hzero⟩
    · exact ⟨⟨hlow, BitVec.le_of_lt hlt⟩, BitVec.ne_of_lt hlt⟩
    · exact absurd hzero hne
  · rintro ⟨⟨hlow, hhigh⟩, hlast⟩
    exact ⟨hlow, Or.inl (BitVec.lt_of_le_ne hhigh hlast)⟩

/-- The last address of a region is routed nowhere. -/
theorem axiDecode_endAddr {r : Rule 32} (hr : r ∈ axiAddrMap) :
    axiDecode r.endAddr = ⟨0, false, true⟩ := by
  have hends : ∀ r ∈ axiAddrMap, InRegion r r.endAddr := by decide
  refine addrDecode_of_unmatched ?_
  intro r' hr'
  rw [← Bool.not_eq_true, matched_iff_inRegion hr']
  rintro ⟨hin, hne⟩
  exact hne (congrArg Rule.endAddr (eq_of_inRegion hr hr' (hends r hr) hin))

/-- The crossbar routes an address as the memory map says if and only if it is
not the last address of a region. -/
theorem routesRegions_iff (addr : BitVec 32) :
    RoutesRegions addr ↔ ∀ r ∈ axiAddrMap, addr ≠ r.endAddr := by
  constructor
  · intro h r hr hlast
    -- the last address of a region belongs to it and is a decode error
    have hends : ∀ r ∈ axiAddrMap, InRegion r r.endAddr := by decide
    have hvalid := (h.routed r hr (hlast ▸ hends r hr)).1
    rw [hlast, axiDecode_endAddr hr] at hvalid
    exact Bool.false_ne_true hvalid
  · intro hlast
    refine ⟨?_, ?_, fun r hr r' hr' => eq_of_inRegion hr hr'⟩
    · intro r hr hin
      -- any other address of a region is matched by its rule, and by no other
      have hdecoded : axiDecode addr = ⟨r.idx.setWidth _, true, false⟩ := by
        refine addrDecode_of_matched ⟨r, hr, ?_⟩ ?_
        · exact (matched_iff_inRegion hr addr).mpr ⟨hin, hlast r hr⟩
        · intro r' hr' hmatched
          have hin' := ((matched_iff_inRegion hr' addr).mp hmatched).1
          rw [eq_of_inRegion hr' hr hin' hin]
      have hidx : ∀ r ∈ axiAddrMap, (r.idx.setWidth (idxWidth xbarIntNoSlave)).toNat
          = r.idx.toNat := by decide
      rw [hdecoded]
      exact ⟨rfl, rfl, hidx r hr⟩
    · intro hnone
      -- an address in no region is matched by none
      have herror : axiDecode addr = ⟨0, false, true⟩ := by
        refine addrDecode_of_unmatched ?_
        intro r hr
        rw [← Bool.not_eq_true, matched_iff_inRegion hr]
        exact fun h => hnone r hr h.1
      rw [herror]
      exact ⟨rfl, rfl⟩

/-- The last byte of the memory `RAM1`. -/
theorem ram1_last_not_routed :
    InRegion ⟨2, 0x00120000, 0x0013ffff⟩ 0x0013ffff ∧
      (axiDecode 0x0013ffff).decErrorO = true ∧ ¬ RoutesRegions 0x0013ffff := by
  refine ⟨by decide, by decide, ?_⟩
  intro h
  have hvalid := (h.routed ⟨2, 0x00120000, 0x0013ffff⟩ (by decide) (by decide)).1
  exact absurd hvalid (by decide)

end SocRtl.Bus
