import NochOS.Library.Ports
import Mathlib.Logic.Function.Basic
import Mathlib.Tactic.Common

/-!
# PCI - Enumeration of the bus

This module embeds `pci.c`: the scan of the bus that fills a table of twelve devices, the
search in the table, and the switch that makes a device a bus master.  The header type is
read without its highest bit, so the scan never looks for further functions of a device.

Main results:

- Definitions `pciInitialize`, `getPCIDevice`, `enablePCIBusMastering`: the driver.
- Theorem `scan_tableOf`: what the table holds after the scan.
- Theorem `run_enablePCIBusMastering`: the register that is changed for a device.
- Theorem `device_started`: the two together, from the scan to the use of a card, for all
  contents of the configuration spaces.
-/

namespace NochOS
namespace Pci

open Library

/-! ## The code -/

/-- `pci_device`. -/
structure PciDevice where
  vendorId : Nat
  deviceId : Nat
  headerType : Nat
  occupied : Nat
  busNum : Nat
  deviceNum : Nat
  funcNum : Nat
  barType : Nat
  ioBase : Nat
  memBase : Nat
deriving DecidableEq

/-- `config.device`, of which the source has twelve. -/
abbrev Table := Nat → PciDevice

/-- The number of entries of `config.device`. -/
def numDevices : Nat := 12

/-- A static variable before it is assigned. -/
def blankDevice : PciDevice := ⟨0, 0, 0, 0, 0, 0, 0, 0, 0, 0⟩

/-- The port of the address. -/
def addressPort : Nat := 0xCF8

/-- The port of the data. -/
def dataPort : Nat := 0xCFC

/-- The configuration address of a register. -/
def configAddress (bus slot func offset : Nat) : Nat :=
  bus <<< 16 ||| slot <<< 11 ||| func <<< 8 ||| (offset &&& 0xfc) ||| 0x80000000

/-- `pciConfigReadWord`. -/
def pciConfigReadWord (bus slot func offset : Nat) : Program Port Nat := do
  outl (configAddress bus slot func offset) addressPort
  let tmp ← inl dataPort
  pure ((tmp >>> ((offset &&& 2) * 8)) &&& 0xffff)

/-- `pciConfigReadWord_32`. -/
def pciConfigReadWord32 (bus slot func offset : Nat) : Program Port Nat := do
  outl (configAddress bus slot func offset) addressPort
  inl dataPort

/-- `getVendorID`. -/
def getVendorID (bus device function : Nat) : Program Port Nat :=
  pciConfigReadWord bus device function 0

/-- `getHeaderType`. -/
def getHeaderType (bus slot function : Nat) : Program Port Nat := do
  let tmp ← pciConfigReadWord bus slot function 0xE
  pure (tmp &&& 0x7f)

/-- `adddevice`. -/
def adddevice (bus slot function : Nat) (table : Table) : Program Port Table :=
  match (List.range numDevices).find? fun i => decide ((table i).occupied = 0) with
  | none => pure table
  | some i => do
      let vendorId ← pciConfigReadWord bus slot function 0
      let deviceId ← pciConfigReadWord bus slot function 0x2
      let headerType ← getHeaderType bus slot function
      let barType ← pciConfigReadWord bus slot function 0x10
      let ioBase ← pciConfigReadWord32 bus slot function 0x10
      let memBase ← pciConfigReadWord32 bus slot function 0x10
      pure (Function.update table i
        { vendorId := vendorId
          deviceId := deviceId
          headerType := headerType
          occupied := 1
          busNum := bus
          deviceNum := slot
          funcNum := function
          barType := barType &&& 0x1
          ioBase := (ioBase &&& 0xFFFFFFFC) % 2 ^ 16
          memBase := memBase &&& 0xFFFFFFF0 })

/-- The loop of `checkDevice` over the other functions of a device. -/
def checkFunctions (bus device : Nat) (table : Table) : Program Port Table :=
  [1, 2, 3, 4, 5, 6, 7].foldlM (fun table function => do
    let vendorID ← getVendorID bus device function
    if vendorID ≠ 0xFFFF then adddevice bus device function table else pure table) table

/-- `checkDevice`. -/
def checkDevice (bus device : Nat) (table : Table) : Program Port Table := do
  let vendorID ← getVendorID bus device 0
  if vendorID = 0xFFFF then pure table
  else do
    let table ← adddevice bus device 0 table
    let headerType ← getHeaderType bus device 0
    if headerType &&& 0x80 ≠ 0 then checkFunctions bus device table else pure table

/-- `checkAllBuses`. -/
def checkAllBuses (table : Table) : Program Port Table :=
  (List.range 256).foldlM (fun table bus =>
    (List.range 32).foldlM (fun table device => checkDevice bus device table) table) table

/-- `pci_initialize`. -/
def pciInitialize (table : Table) : Program Port Table :=
  checkAllBuses fun i => if i < numDevices then { table i with occupied := 0 } else table i

/-- `getPCIDevice`: the entry, or that the search runs past the table. -/
def getPCIDevice (vendorId deviceId : Nat) (table : Table) : Option PciDevice :=
  ((List.range numDevices).map table).find? fun d =>
    !(decide (d.vendorId ≠ vendorId) || decide (d.deviceId ≠ deviceId))

/-- `enablePCIBusMastering`. -/
def enablePCIBusMastering (d : PciDevice) : Program Port Unit := do
  outl (configAddress d.busNum d.deviceNum d.funcNum 4) addressPort
  let tmp ← inl dataPort
  outl (tmp ||| 0x00000004) dataPort
  let _ ← inl dataPort
  pure ()

/-! ## The bus -/

/-- The registers of all configuration spaces, by bus, slot, function and double word. -/
abbrev Config := Nat → Nat → Nat → Nat → BitVec 32

/-- The host bridge: the address written last, and the configuration spaces. -/
structure Bus where
  address : Nat
  config : Config

/-- The ports of the host bridge; `accept` says what becomes of a register when a value is
written to it. -/
def bridge (accept : Nat → BitVec 32 → BitVec 32 → BitVec 32) : Device Port Bus where
  read r s :=
    if r = .long dataPort ∧ s.address.testBit 31 then
      ((s.config (s.address / 65536 % 256) (s.address / 2048 % 32) (s.address / 256 % 8)
        (s.address / 4 % 64)).toNat, s)
    else (0xFFFFFFFF, s)
  write r v s :=
    if r = .long addressPort then { s with address := v % 2 ^ 32 }
    else if r = .long dataPort ∧ s.address.testBit 31 then
      { s with
        config := fun bus slot func reg =>
          let old := s.config bus slot func reg
          if bus = s.address / 65536 % 256 ∧ slot = s.address / 2048 % 32 ∧
              func = s.address / 256 % 8 ∧ reg = s.address / 4 % 64 then
            accept reg old (BitVec.ofNat 32 v)
          else old }
    else s

/-- A register has a place on the bus. -/
structure OnBus (bus slot func offset : Nat) : Prop where
  bus : bus < 256
  slot : slot < 32
  func : func < 8
  offset : offset < 256

/-- The fields of an address do not overlap. -/
theorem configAddress_eq {bus slot func offset : Nat} (h : OnBus bus slot func offset) :
    configAddress bus slot func offset =
      2 ^ 31 + (((bus * 32 + slot) * 8 + func) * 256 + offset / 4 * 4) := by
  have hmask : ∀ o < 256, o &&& 0xfc = o / 4 * 4 := by decide +kernel
  obtain ⟨hbus, hslot, hfunc, hoffset⟩ := h
  have hslotBits : bus <<< 16 ||| slot <<< 11 = (bus * 32 + slot) <<< 11 := by
    rw [← Nat.shiftLeft_add_eq_or_of_lt (by rw [Nat.shiftLeft_eq]; omega)]
    simp only [Nat.shiftLeft_eq]
    omega
  have hfuncBits : (bus * 32 + slot) <<< 11 ||| func <<< 8 =
      ((bus * 32 + slot) * 8 + func) <<< 8 := by
    rw [← Nat.shiftLeft_add_eq_or_of_lt (by rw [Nat.shiftLeft_eq]; omega)]
    simp only [Nat.shiftLeft_eq]
    omega
  rw [configAddress, hslotBits, hfuncBits, hmask offset hoffset,
    ← Nat.shiftLeft_add_eq_or_of_lt (by omega), Nat.or_comm,
    show (0x80000000 : Nat) = 1 <<< 31 from rfl,
    ← Nat.shiftLeft_add_eq_or_of_lt (by rw [Nat.shiftLeft_eq]; omega)]
  simp only [Nat.shiftLeft_eq]
  omega

section Run

variable {accept : Nat → BitVec 32 → BitVec 32 → BitVec 32} {s : Bus} {bus slot func offset : Nat}

/-- The bridge finds the register of an address again. -/
theorem bridge_read (h : OnBus bus slot func offset) (config : Config) :
    (bridge accept).read (.long dataPort) ⟨configAddress bus slot func offset, config⟩ =
      ((config bus slot func (offset / 4)).toNat,
        ⟨configAddress bus slot func offset, config⟩) := by
  have haddress := configAddress_eq h
  obtain ⟨hbus, hslot, hfunc, hoffset⟩ := h
  have hbit : (configAddress bus slot func offset).testBit 31 = true := by
    rw [Nat.testBit_eq_decide_div_mod_eq, haddress]
    exact decide_eq_true (by omega)
  simp only [bridge, hbit, and_self, if_true]
  rw [show configAddress bus slot func offset / 65536 % 256 = bus by omega,
    show configAddress bus slot func offset / 2048 % 32 = slot by omega,
    show configAddress bus slot func offset / 256 % 8 = func by omega,
    show configAddress bus slot func offset / 4 % 64 = offset / 4 by omega]

theorem bridge_address (h : OnBus bus slot func offset) (s : Bus) :
    (bridge accept).write (.long addressPort) (configAddress bus slot func offset) s =
      ⟨configAddress bus slot func offset, s.config⟩ := by
  have haddress := configAddress_eq h
  obtain ⟨hbus, hslot, hfunc, hoffset⟩ := h
  simp only [bridge, if_true]
  rw [Nat.mod_eq_of_lt (by omega)]

/-- A word of a configuration space. -/
def word (config : Config) (bus slot func offset : Nat) : Nat :=
  ((config bus slot func (offset / 4)).toNat >>> ((offset &&& 2) * 8)) &&& 0xffff

/-- A program reads the configuration spaces and ends with a value that depends on them
only. -/
def Reads (accept : Nat → BitVec 32 → BitVec 32 → BitVec 32) {α : Type} (m : Program Port α)
    (value : Config → α) : Prop :=
  ∀ s, ∃ address, m.run (bridge accept) s = some (value s.config, ⟨address, s.config⟩)

theorem Reads.pure {α : Type} (a : α) : Reads accept (Pure.pure a) fun _ => a :=
  fun s => ⟨s.address, rfl⟩

theorem Reads.bind {α β : Type} {m : Program Port α} {f : α → Program Port β}
    {value : Config → α} {value' : α → Config → β} (hm : Reads accept m value)
    (hf : ∀ a, Reads accept (f a) (value' a)) :
    Reads accept (m >>= f) fun config => value' (value config) config := by
  intro s
  obtain ⟨address, hrun⟩ := hm s
  obtain ⟨address', hrun'⟩ := hf (value s.config) ⟨address, s.config⟩
  exact ⟨address', by rw [Program.run_bind_of_eq hrun, hrun']⟩

theorem Reads.dword (h : OnBus bus slot func offset) :
    Reads accept (pciConfigReadWord32 bus slot func offset) fun config =>
      (config bus slot func (offset / 4)).toNat := by
  intro s
  refine ⟨configAddress bus slot func offset, ?_⟩
  rw [pciConfigReadWord32, outl, Program.run_output_bind, bridge_address h, inl, Program.run_input,
    bridge_read h]

theorem Reads.word (h : OnBus bus slot func offset) :
    Reads accept (pciConfigReadWord bus slot func offset) fun config =>
      Pci.word config bus slot func offset := by
  intro s
  refine ⟨configAddress bus slot func offset, ?_⟩
  rw [pciConfigReadWord, outl, Program.run_output_bind, bridge_address h, inl,
    Program.run_input_bind, bridge_read h]
  rfl

/-- A loop whose passes read the configuration spaces. -/
theorem Reads.foldlM {α β : Type} {f : β → α → Program Port β} {step : Config → β → α → β} :
    ∀ (l : List α), (∀ a ∈ l, ∀ b, Reads accept (f b a) fun config => step config b a) →
      ∀ b, Reads accept (l.foldlM f b) fun config => l.foldl (step config) b
  | [], _, b => Reads.pure b
  | a :: l, h, b => by
      rw [List.foldlM_cons]
      exact Reads.bind (h a List.mem_cons_self b) fun b' =>
        Reads.foldlM l (fun a' ha' => h a' (List.mem_cons_of_mem a ha')) b'

end Run

/-! ## The scan -/

/-- What `adddevice` stores for a function. -/
def describe (config : Config) (bus slot func : Nat) : PciDevice where
  vendorId := word config bus slot func 0
  deviceId := word config bus slot func 0x2
  headerType := word config bus slot func 0xE &&& 0x7f
  occupied := 1
  busNum := bus
  deviceNum := slot
  funcNum := func
  barType := word config bus slot func 0x10 &&& 0x1
  ioBase := ((config bus slot func 4).toNat &&& 0xFFFFFFFC) % 2 ^ 16
  memBase := (config bus slot func 4).toNat &&& 0xFFFFFFF0

/-- The table after `adddevice`. -/
def register (table : Table) (d : PciDevice) : Table :=
  match (List.range numDevices).find? fun i => decide ((table i).occupied = 0) with
  | none => table
  | some i => Function.update table i d

/-- The first function of a device is present. -/
def present (config : Config) (p : Nat × Nat) : Bool := word config p.1 p.2 0 0 ≠ 0xFFFF

/-- One pass of the scan. -/
def scanStep (config : Config) (table : Table) (p : Nat × Nat) : Table :=
  if present config p then register table (describe config p.1 p.2 0) else table

/-- The slots in the order of the scan. -/
def slots : List (Nat × Nat) :=
  (List.range 256).flatMap fun bus => (List.range 32).map fun slot => (bus, slot)

section Scan

variable {accept : Nat → BitVec 32 → BitVec 32 → BitVec 32} {bus slot func : Nat}

theorem reads_getHeaderType (hbus : bus < 256) (hslot : slot < 32) (hfunc : func < 8) :
    Reads accept (getHeaderType bus slot func) fun config =>
      word config bus slot func 0xE &&& 0x7f :=
  Reads.bind (Reads.word ⟨hbus, hslot, hfunc, by decide⟩) fun tmp => Reads.pure (tmp &&& 0x7f)

theorem reads_adddevice (hbus : bus < 256) (hslot : slot < 32) (hfunc : func < 8) (table : Table) :
    Reads accept (adddevice bus slot func table) fun config =>
      register table (describe config bus slot func) := by
  unfold adddevice register
  cases hfree : (List.range numDevices).find? fun i => decide ((table i).occupied = 0) with
  | none => exact Reads.pure table
  | some i =>
      have hplace : ∀ offset < 256, OnBus bus slot func offset := fun offset hoffset =>
        ⟨hbus, hslot, hfunc, hoffset⟩
      exact Reads.bind (Reads.word (hplace 0 (by decide))) fun vendorId =>
        Reads.bind (Reads.word (hplace 2 (by decide))) fun deviceId =>
          Reads.bind (reads_getHeaderType hbus hslot hfunc) fun headerType =>
            Reads.bind (Reads.word (hplace 0x10 (by decide))) fun barType =>
              Reads.bind (Reads.dword (hplace 0x10 (by decide))) fun ioBase =>
                Reads.bind (Reads.dword (hplace 0x10 (by decide))) fun memBase =>
                  Reads.pure (Function.update table i
                    { vendorId := vendorId
                      deviceId := deviceId
                      headerType := headerType
                      occupied := 1
                      busNum := bus
                      deviceNum := slot
                      funcNum := func
                      barType := barType &&& 0x1
                      ioBase := (ioBase &&& 0xFFFFFFFC) % 2 ^ 16
                      memBase := memBase &&& 0xFFFFFFF0 })

/-- The bit that would lead to further functions is masked before it is tested. -/
theorem headerType_single (tmp : Nat) : tmp &&& 0x7f &&& 0x80 = 0 := by
  rw [Nat.and_assoc]
  exact Nat.and_zero tmp

theorem reads_checkDevice (hbus : bus < 256) (hslot : slot < 32) (table : Table) :
    Reads accept (checkDevice bus slot table) fun config => scanStep config table (bus, slot) := by
  have hvendor : Reads accept (pciConfigReadWord bus slot 0 0) fun config =>
      word config bus slot 0 0 := Reads.word ⟨hbus, hslot, by decide, by decide⟩
  have hadd : Reads accept (adddevice bus slot 0 table) fun config =>
      register table (describe config bus slot 0) := reads_adddevice hbus hslot (by decide) table
  have hheader : Reads accept (pciConfigReadWord bus slot 0 0xE) fun config =>
      word config bus slot 0 0xE := Reads.word ⟨hbus, hslot, by decide, by decide⟩
  intro s
  obtain ⟨address, hvendor⟩ := hvendor s
  rw [checkDevice, getVendorID, Program.run_bind_of_eq hvendor]
  simp only [scanStep]
  by_cases habsent : word s.config bus slot 0 0 = 0xFFFF
  · have hnot : ¬ present s.config (bus, slot) = true := by
      simp [present, habsent]
    rw [if_pos habsent, if_neg hnot]
    exact ⟨address, rfl⟩
  · have hpresent : present s.config (bus, slot) = true := by
      simp [present, habsent]
    rw [if_neg habsent, if_pos hpresent]
    obtain ⟨address', hadd⟩ := hadd ⟨address, s.config⟩
    obtain ⟨address'', hheader⟩ := hheader ⟨address', s.config⟩
    refine ⟨address'', ?_⟩
    rw [Program.run_bind_of_eq hadd, getHeaderType, bind_assoc, Program.run_bind_of_eq hheader,
      pure_bind, if_neg (by rw [headerType_single]; decide)]
    rfl

theorem reads_checkAllBuses (table : Table) :
    Reads accept (checkAllBuses table) fun config => slots.foldl (scanStep config) table := by
  have hloop : Reads accept (checkAllBuses table) fun config =>
      (List.range 256).foldl (fun table bus =>
        (List.range 32).foldl (fun table slot => scanStep config table (bus, slot)) table)
        table :=
    Reads.foldlM _ (fun bus hbus table => Reads.foldlM _ (fun slot hslot table =>
      reads_checkDevice (List.mem_range.mp hbus) (List.mem_range.mp hslot) table) table) table
  intro s
  obtain ⟨address, hrun⟩ := hloop s
  refine ⟨address, ?_⟩
  rw [hrun]
  simp only [slots, List.foldl_flatMap, List.foldl_map]

end Scan

/-! ## The table -/

/-- The table with these entries at its start. -/
def tableOf (l : List PciDevice) : Table := fun i => l.getD i blankDevice

/-- A new entry stands behind the others if there is room for it. -/
theorem register_tableOf {l : List PciDevice} (hroom : l.length ≤ numDevices)
    (hoccupied : ∀ d ∈ l, d.occupied = 1) (d : PciDevice) :
    register (tableOf l) d = tableOf ((l ++ [d]).take numDevices) := by
  have hat : ∀ i < l.length, (tableOf l i).occupied = 1 := by
    intro i hi
    rw [tableOf, List.getD_eq_getElem?_getD, List.getElem?_eq_getElem hi, Option.getD_some]
    exact hoccupied _ (List.getElem_mem hi)
  rcases Nat.lt_or_ge l.length numDevices with hlt | hge
  · have hfree : (List.range numDevices).find?
        (fun i => decide ((tableOf l i).occupied = 0)) = some l.length := by
      rw [List.find?_range_eq_some]
      refine ⟨?_, List.mem_range.mpr hlt, fun j hj => ?_⟩
      · rw [tableOf, List.getD_eq_getElem?_getD, List.getElem?_eq_none (Nat.le_refl _)]
        rfl
      · rw [hat j hj]
        rfl
    have hlength : (l ++ [d]).length ≤ numDevices := by
      simpa using Nat.succ_le_of_lt hlt
    rw [List.take_of_length_le hlength]
    simp only [register, hfree]
    funext i
    by_cases hi : i = l.length
    · subst hi
      simp [tableOf]
    · rw [Function.update_of_ne hi, tableOf, tableOf]
      simp only [List.getD_eq_getElem?_getD]
      rcases Nat.lt_or_ge i l.length with hlt' | hge'
      · rw [List.getElem?_append_left hlt']
      · rw [List.getElem?_eq_none hge', List.getElem?_eq_none (by simp; omega)]
  · have hfull : (List.range numDevices).find?
        (fun i => decide ((tableOf l i).occupied = 0)) = none := by
      rw [List.find?_eq_none]
      intro i hi
      rw [hat i (by have := List.mem_range.mp hi; omega)]
      decide
    rw [register, hfull, List.take_append_of_le_length hge, List.take_of_length_le hroom]

theorem take_take_append {α : Type} (xs ys : List α) (n : Nat) :
    (xs.take n ++ ys).take n = (xs ++ ys).take n := by
  rw [List.take_append, List.take_append, List.take_take, Nat.min_self, List.length_take]
  congr 2
  omega

/-- After the scan the table holds the first twelve devices that are present. -/
theorem scan_tableOf (config : Config) (ps : List (Nat × Nat)) :
    ∀ l : List PciDevice, l.length ≤ numDevices → (∀ d ∈ l, d.occupied = 1) →
      ps.foldl (scanStep config) (tableOf l) =
        tableOf ((l ++ (ps.filter (present config)).map fun p => describe config p.1 p.2 0).take
          numDevices) := by
  induction ps with
  | nil =>
      intro l hroom _
      rw [List.filter_nil, List.map_nil, List.append_nil, List.take_of_length_le hroom]
      rfl
  | cons p ps ih =>
      intro l hroom hoccupied
      rw [List.foldl_cons, scanStep]
      by_cases hp : present config p = true
      · rw [if_pos hp, register_tableOf hroom hoccupied,
          ih _ (List.length_take_le _ _) fun d hd => ?_,
          List.filter_cons_of_pos hp, List.map_cons, take_take_append, List.append_assoc,
          List.singleton_append]
        rcases List.mem_append.mp (List.mem_of_mem_take hd) with hd | hd
        · exact hoccupied d hd
        · rw [List.mem_singleton.mp hd]
          rfl
      · rw [if_neg hp, ih l hroom hoccupied, List.filter_cons_of_neg hp]

/-- The search goes through the entries of the table. -/
theorem getPCIDevice_tableOf {vendorId deviceId : Nat} (hid : vendorId ≠ 0 ∨ deviceId ≠ 0)
    {l : List PciDevice} (hroom : l.length ≤ numDevices) :
    getPCIDevice vendorId deviceId (tableOf l) =
      l.find? fun d => d.vendorId = vendorId ∧ d.deviceId = deviceId := by
  have hentries : (List.range numDevices).map (tableOf l) =
      l ++ List.replicate (numDevices - l.length) blankDevice := by
    refine List.ext_getElem (by simp; omega) fun i h₁ h₂ => ?_
    rw [List.getElem_map, List.getElem_range, tableOf, List.getD_eq_getElem?_getD,
      List.getElem_append]
    split
    next hi => rw [List.getElem?_eq_getElem hi, Option.getD_some]
    next hi => rw [List.getElem?_eq_none (by omega), Option.getD_none, List.getElem_replicate]
  have hblank : (List.replicate (numDevices - l.length) blankDevice).find?
      (fun d => decide (d.vendorId = vendorId ∧ d.deviceId = deviceId)) = none := by
    rw [List.find?_eq_none]
    intro d hd
    rw [List.eq_of_mem_replicate hd]
    intro htrue
    obtain ⟨hvendor, hdevice⟩ := of_decide_eq_true htrue
    exact hid.elim (fun h => h hvendor.symm) fun h => h hdevice.symm
  have htest : (fun d : PciDevice =>
      !(decide (d.vendorId ≠ vendorId) || decide (d.deviceId ≠ deviceId))) =
      fun d => decide (d.vendorId = vendorId ∧ d.deviceId = deviceId) := by
    funext d
    by_cases hv : d.vendorId = vendorId <;> by_cases hd : d.deviceId = deviceId <;> simp [hv, hd]
  rw [getPCIDevice, htest, hentries, List.find?_append, hblank, Option.or_none]

/-! ## A device from the scan to its use -/

/-- The identification of the first function of a device. -/
def hasIds (config : Config) (vendorId deviceId : Nat) (p : Nat × Nat) : Bool :=
  word config p.1 p.2 0 0 = vendorId ∧ word config p.1 p.2 0 2 = deviceId

/-- The slot of the first of the first twelve devices with an identification. -/
def chosen (config : Config) (vendorId deviceId : Nat) : Option (Nat × Nat) :=
  ((slots.filter (present config)).take numDevices).find? (hasIds config vendorId deviceId)

/-- The start of a card, as `network_init` and `E1000` make it: the scan, the search, and
bus mastering. -/
def startDevice (vendorId deviceId : Nat) : Program Port (Option PciDevice) := do
  let table ← pciInitialize fun _ => blankDevice
  match getPCIDevice vendorId deviceId table with
  | none => pure none
  | some d => do
      enablePCIBusMastering d
      pure (some d)

/-- The configuration spaces with the command register of one device written. -/
def mastered (accept : Nat → BitVec 32 → BitVec 32 → BitVec 32) (config : Config)
    (p : Nat × Nat) : Config :=
  fun bus slot func reg =>
    if bus = p.1 ∧ slot = p.2 ∧ func = 0 ∧ reg = 1 then
      accept 1 (config bus slot func reg) (config bus slot func reg ||| 4#32)
    else config bus slot func reg

section Start

variable {accept : Nat → BitVec 32 → BitVec 32 → BitVec 32}

theorem mem_slots {p : Nat × Nat} (h : p ∈ slots) : p.1 < 256 ∧ p.2 < 32 := by
  simp only [slots, List.mem_flatMap, List.mem_map, List.mem_range] at h
  obtain ⟨bus, hbus, slot, hslot, rfl⟩ := h
  exact ⟨hbus, hslot⟩

theorem chosen_mem {config : Config} {vendorId deviceId : Nat} {p : Nat × Nat}
    (h : chosen config vendorId deviceId = some p) : p ∈ slots :=
  (List.mem_filter.mp (List.mem_of_mem_take (List.mem_of_find?_eq_some h))).1

/-- Bus mastering changes one register. -/
theorem run_enablePCIBusMastering (s : Bus) {config : Config} {p : Nat × Nat} (hbus : p.1 < 256)
    (hslot : p.2 < 32) :
    ∃ address, (enablePCIBusMastering (describe config p.1 p.2 0)).run (bridge accept) s =
      some ((), ⟨address, mastered accept s.config p⟩) := by
  have hplace : OnBus p.1 p.2 0 4 := ⟨hbus, hslot, by decide, by decide⟩
  have haddress := configAddress_eq hplace
  have hbit : (configAddress p.1 p.2 0 4).testBit 31 = true := by
    rw [Nat.testBit_eq_decide_div_mod_eq, haddress]
    exact decide_eq_true (by omega)
  have hwrite : ∀ v, (bridge accept).write (.long dataPort) v
      ⟨configAddress p.1 p.2 0 4, s.config⟩ =
        ⟨configAddress p.1 p.2 0 4, fun bus slot func reg =>
          if bus = p.1 ∧ slot = p.2 ∧ func = 0 ∧ reg = 1 then
            accept reg (s.config bus slot func reg) (BitVec.ofNat 32 v)
          else s.config bus slot func reg⟩ := by
    intro v
    have hne : (Port.long dataPort) ≠ .long addressPort := by decide
    simp only [bridge, hbit, hne, and_self, if_true, if_false]
    rw [show configAddress p.1 p.2 0 4 / 65536 % 256 = p.1 by omega,
      show configAddress p.1 p.2 0 4 / 2048 % 32 = p.2 by omega,
      show configAddress p.1 p.2 0 4 / 256 % 8 = 0 by omega,
      show configAddress p.1 p.2 0 4 / 4 % 64 = 1 by omega]
  refine ⟨configAddress p.1 p.2 0 4, ?_⟩
  simp only [enablePCIBusMastering, describe, outl, inl, Program.run_output_bind,
    Program.run_input_bind, Program.run_pure, bridge_address hplace, bridge_read hplace, hwrite]
  congr 3
  funext bus slot func reg
  simp only [mastered]
  by_cases h : bus = p.1 ∧ slot = p.2 ∧ func = 0 ∧ reg = 1
  · obtain ⟨rfl, rfl, rfl, rfl⟩ := h
    rw [if_pos ⟨rfl, rfl, rfl, rfl⟩, if_pos ⟨rfl, rfl, rfl, rfl⟩]
    congr 1
    apply BitVec.eq_of_toNat_eq
    simp
  · rw [if_neg h, if_neg h]

/-- For all contents of the configuration spaces: the search finds the first device of the
first twelve that are present with the identification, by its first function, and the only
register that changes is the command register of this device.  In all other cases the
search runs past the table, and no register changes. -/
theorem device_started (s : Bus) {vendorId deviceId : Nat} (hid : vendorId ≠ 0 ∨ deviceId ≠ 0) :
    ∃ address, (startDevice vendorId deviceId).run (bridge accept) s =
      some ((chosen s.config vendorId deviceId).map fun p => describe s.config p.1 p.2 0,
        ⟨address,
          (chosen s.config vendorId deviceId).elim s.config (mastered accept s.config)⟩) := by
  have hempty : (fun i => if i < numDevices then { blankDevice with occupied := 0 }
      else blankDevice) = tableOf [] := by
    funext i
    simp [tableOf, blankDevice]
  have hreads : Reads accept (checkAllBuses (tableOf [])) fun config =>
      slots.foldl (scanStep config) (tableOf []) := reads_checkAllBuses (tableOf [])
  obtain ⟨address, hscan⟩ := hreads s
  have hfold := scan_tableOf s.config slots [] (Nat.zero_le _) (by simp)
  rw [List.nil_append] at hfold
  have hscan' : (pciInitialize fun _ => blankDevice).run (bridge accept) s = some
      (tableOf (((slots.filter (present s.config)).take numDevices).map fun p =>
        describe s.config p.1 p.2 0), ⟨address, s.config⟩) := by
    rw [pciInitialize, hempty, hscan]
    simp only [hfold, List.map_take]
  have hroom : (((slots.filter (present s.config)).take numDevices).map fun p =>
      describe s.config p.1 p.2 0).length ≤ numDevices := by
    rw [List.length_map, List.length_take]
    exact Nat.min_le_left _ _
  have hsearch : getPCIDevice vendorId deviceId
      (tableOf (((slots.filter (present s.config)).take numDevices).map fun p =>
        describe s.config p.1 p.2 0)) =
      (chosen s.config vendorId deviceId).map fun p => describe s.config p.1 p.2 0 := by
    rw [getPCIDevice_tableOf hid hroom, List.find?_map]
    rfl
  rw [startDevice, Program.run_bind_of_eq hscan', hsearch]
  cases hchosen : chosen s.config vendorId deviceId with
  | none => exact ⟨address, rfl⟩
  | some p =>
      obtain ⟨hbus, hslot⟩ := mem_slots (chosen_mem hchosen)
      have hmaster : ∃ address',
          (enablePCIBusMastering (describe s.config p.1 p.2 0)).run (bridge accept)
            ⟨address, s.config⟩ = some ((), ⟨address', mastered accept s.config p⟩) :=
        run_enablePCIBusMastering _ hbus hslot
      obtain ⟨address', hmaster⟩ := hmaster
      exact ⟨address', by rw [Option.map_some, Program.run_bind_of_eq hmaster]; rfl⟩

/-- One network card, in slot 3 of the first bus, with its registers in memory. -/
def oneCard : Config := fun bus slot func reg =>
  if bus = 0 ∧ slot = 3 ∧ func = 0 then
    if reg = 0 then 0x100E8086#32 else if reg = 4 then 0xF0000000#32 else 0#32
  else 0xFFFFFFFF#32

theorem device_started_card :
    ∃ address, (startDevice 0x8086 0x100E).run (bridge fun _ _ new => new) ⟨0, oneCard⟩ =
      some (some (describe oneCard 0 3 0),
        ⟨address, mastered (fun _ _ new => new) oneCard (0, 3)⟩) := by
  have hchosen : chosen oneCard 0x8086 0x100E = some (0, 3) := by decide +kernel
  have hrun := @device_started (fun _ _ new => new) ⟨0, oneCard⟩ 0x8086 0x100E (Or.inl (by decide))
  rwa [hchosen] at hrun

end Start

end Pci
end NochOS
