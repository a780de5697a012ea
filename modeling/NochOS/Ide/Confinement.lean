import NochOS.Ide.Blocks

/-!
# IDE driver - any hardware

Nothing is assumed in this module about what answers at the ports.  It says which ports the
driver uses, what a request can return and which memory it can change.  The slip in
`ide_init` and the offset of the control registers show here: the driver never reaches the
device control register of a channel, and never the registers of the secondary channel.

Main results:

- Theorem `startAndServe_within`: the ports of start-up and of every run of requests.
- Theorem `serve_returns`: the replies, on any hardware.
- Theorem `addressing_iff`: the addresses at which a request reaches its sectors.
-/

namespace NochOS
namespace Ide

open Library Program

/-! ## Ports -/

/-- The ports of the driver: the command block of the primary channel, the ports where it
looks for that of the secondary channel, and two that it takes for control registers. -/
def Driven (p : Port) : Prop :=
  (0x1F0 ≤ p.number ∧ p.number < 0x1F8) ∨ (0x376 ≤ p.number ∧ p.number < 0x37E) ∨
    p.number = 0x3F8 ∨ p.number = 2

/-- A channel as `ide_init` sets it up. -/
def SetUp (ch : IdeChannel) : Prop := Primary ch ∨ Secondary ch

/-- Tables with two channels set up, and devices on one of them. -/
structure InUse (ide : Tables) : Prop where
  channels : ∀ i < 2, SetUp (ide.channels i)
  devices : ∀ k, (ide.devices k).channel < 2

section Ports

variable {ch : IdeChannel} {ide : Tables}

theorem driven_byte {n : Nat} : Driven (.byte n) ↔
    (0x1F0 ≤ n ∧ n < 0x1F8) ∨ (0x376 ≤ n ∧ n < 0x37E) ∨ n = 0x3F8 ∨ n = 2 := Iff.rfl

/-- The registers of a channel that is set up are at the ports of the driver. -/
theorem SetUp.driven (h : SetUp ch) {reg port : Nat} (hreg : reg < 13)
    (hport : portOf ch reg = some port) : Driven (.byte port) := by
  have hbase : (ch.base = 0x1F0 ∧ ch.ctrl = 0x3F6) ∨ (ch.base = 0x376 ∧ ch.ctrl = 0) :=
    h.imp (fun h => ⟨h.base, h.ctrl⟩) fun h => ⟨h.base, h.ctrl⟩
  rw [driven_byte]
  unfold portOf at hport
  split at hport
  · cases hport
    omega
  · split at hport
    · cases hport
      omega
    · rw [if_pos (by omega)] at hport
      cases hport
      omega

theorem SetUp.base_driven (h : SetUp ch) : Driven (.word ch.base) := by
  rcases h with h | h
  · rw [h.base]
    exact Or.inl ⟨by decide, by decide⟩
  · rw [h.base]
    exact Or.inr (Or.inl ⟨by decide, by decide⟩)

theorem SetUp.within_writeReg (h : SetUp ch) {reg : Nat} (hreg : reg < 13) (v : Nat) :
    (writeReg ch reg v).Within Driven Driven := by
  unfold writeReg
  split
  next port hport => exact Within.output (h.driven hreg hport)
  next => exact Within.pure _

theorem SetUp.within_ideWrite (h : SetUp ch) {reg : Nat} (hreg : reg < 13) (v : Nat) :
    (ideWrite ch reg v).Within Driven Driven := by
  cases hhigh : highOrder reg with
  | false =>
      rw [ideWrite_plain hhigh]
      exact h.within_writeReg hreg v
  | true =>
      rw [ideWrite_highOrder hhigh]
      exact Within.bind (h.within_writeReg (by decide) _) fun _ =>
        Within.bind (h.within_writeReg hreg v) fun _ => h.within_writeReg (by decide) _

/-- The driver reads registers below those for the high order bytes, and the alternate
status. -/
theorem SetUp.within_ideRead (h : SetUp ch) {reg : Nat} (hreg : reg < 13)
    (hlow : highOrder reg = false) : (ideRead ch reg).Within Driven Driven := by
  unfold ideRead
  simp only [hlow, Bool.false_eq_true, if_false, bind_pure]
  split
  next port hport => exact Within.input (h.driven hreg hport)
  next => trivial

theorem SetUp.within_status (h : SetUp ch) : (ideRead ch ataRegStatus).Within Driven Driven :=
  h.within_ideRead (by decide) rfl

theorem SetUp.within_delay (h : SetUp ch) : ∀ n, (delay400 ch n).Within Driven Driven
  | 0 => Within.pure _
  | n + 1 =>
      Within.bind (h.within_ideRead (show ataRegAltstatus < 13 by decide) rfl) fun _ =>
        h.within_delay n

theorem SetUp.within_poll (h : SetUp ch) (check : Bool) (fuel : Nat) :
    (idePoll ch check fuel).Within Driven Driven := by
  refine Within.bind (h.within_delay 4) fun _ => ?_
  refine Within.bind (Within.repeatUntil h.within_status fuel) fun _ => ?_
  split
  · refine Within.bind h.within_status fun state => ?_
    simp only [pure_checkOf]
    exact Within.pure _
  · exact Within.pure _

theorem SetUp.within_sendCommand (h : SetUp ch) (a : Addressing) (rw_ : Rw) (slavebit n : Nat) :
    (sendCommand ch a rw_ slavebit n).Within Driven Driven := by
  have hwrite : ∀ {reg : Nat} (v : Nat), reg < 13 → (ideWrite ch reg v).Within Driven Driven :=
    fun v hreg => h.within_ideWrite hreg v
  have hlast : (do
      ideWrite ch ataRegSeccount0 n
      ideWrite ch ataRegLbaLow (a.addrIo 0)
      ideWrite ch ataRegLbaMid (a.addrIo 1)
      ideWrite ch ataRegLbaHigh (a.addrIo 2)
      ideWrite ch ataRegCommand (commandOf a.addrMode rw_)).Within Driven Driven := by
    refine Within.bind (hwrite _ (by decide)) fun _ => ?_
    refine Within.bind (hwrite _ (by decide)) fun _ => ?_
    refine Within.bind (hwrite _ (by decide)) fun _ => ?_
    exact Within.bind (hwrite _ (by decide)) fun _ => hwrite _ (by decide)
  unfold sendCommand
  refine Within.bind (hwrite _ (by decide)) fun _ => ?_
  by_cases hmode : a.addrMode = 2
  · simp only [if_pos hmode]
    refine Within.bind (hwrite _ (by decide)) fun _ => ?_
    refine Within.bind (hwrite _ (by decide)) fun _ => ?_
    refine Within.bind (hwrite _ (by decide)) fun _ => ?_
    exact Within.bind (hwrite _ (by decide)) fun _ => hlast
  · simp only [if_neg hmode]
    exact hlast

theorem SetUp.within_readSectors (h : SetUp ch) (fuel : Nat) :
    ∀ (n : Nat) (mem : Buf) (off : Nat), (readSectors ch n mem off fuel).Within Driven Driven
  | 0, _, _ => Within.pure _
  | n + 1, _, _ => by
      refine Within.bind (h.within_poll true fuel) fun err => ?_
      split
      · exact Within.pure _
      · exact Within.bind (within_insw h.base_driven _ _ _) fun _ =>
          h.within_readSectors fuel n _ _

theorem SetUp.within_writeSectors (h : SetUp ch) (fuel : Nat) :
    ∀ (n : Nat) (mem : Buf) (off : Nat), (writeSectors ch n mem off fuel).Within Driven Driven
  | 0, _, _ => Within.pure _
  | n + 1, _, _ =>
      Within.bind (h.within_poll false fuel) fun _ =>
        Within.bind (within_outsw h.base_driven _ _ _) fun _ => h.within_writeSectors fuel n _ _

/-- An access keeps the tables in use. -/
theorem InUse.setNIen (h : InUse ide) (channel nIen : Nat) : InUse (ide.setNIen channel nIen) where
  channels i hi := by
    have hch := h.channels i hi
    by_cases hsame : i = channel
    · subst hsame
      have hchannel : (ide.setNIen i nIen).channels i = { ide.channels i with nIen := nIen } := by
        simp [Tables.setNIen]
      rw [hchannel]
      exact hch.imp (fun hp => ⟨hp.base, hp.ctrl⟩) fun hp => ⟨hp.base, hp.ctrl⟩
    · have hchannel : (ide.setNIen channel nIen).channels i = ide.channels i := by
        simp [Tables.setNIen, Function.update_of_ne hsame]
      rw [hchannel]
      exact hch
  devices := h.devices

theorem InUse.within_access (h : InUse ide) (rw_ : Rw) (drive lbaAddr nsects : Nat) (mem : Buf)
    (fuel : Nat) : (ideAtaAccess ide rw_ drive lbaAddr nsects mem fuel).Within Driven Driven := by
  have hset : SetUp ((ide.setNIen (ide.devices drive).channel ataCtrlNien).channels
      (ide.devices drive).channel) := (h.setNIen _ _).channels _ (h.devices drive)
  unfold ideAtaAccess
  refine Within.bind (hset.within_ideWrite (by decide) _) fun _ => ?_
  refine Within.bind (Within.repeatUntil hset.within_status fuel) fun _ => ?_
  refine Within.bind (hset.within_sendCommand _ _ _ _) fun _ => ?_
  cases rw_ with
  | read => exact Within.bind (hset.within_readSectors fuel _ _ _) fun _ => Within.pure _
  | write =>
      refine Within.bind (hset.within_writeSectors fuel _ _ _) fun _ => ?_
      refine Within.bind (hset.within_ideWrite (by decide) _) fun _ => ?_
      exact Within.bind (hset.within_poll false fuel) fun _ => Within.pure _

/-! ## Replies -/

/-- A reply that can come back: a write reports no failure and leaves the buffer, a read
reports one of three and changes only the sectors it asks for. -/
structure Plausible (r : Request) (reply : Nat × Buf) : Prop where
  write : r.rw = .write → reply = (0, r.buf)
  code : reply.1 ≤ 3
  outside : ∀ i, nsectsOf r.nbytes % 256 * sectSize ≤ i → reply.2 i = r.buf i

/-- The outcomes of polling. -/
theorem returns_poll (check : Bool) (fuel : Nat) : (idePoll ch check fuel).Returns (· ≤ 3) := by
  refine Returns.after fun _ => Returns.after fun _ => ?_
  split
  · refine Returns.after fun state => ?_
    simp only [pure_checkOf]
    apply Returns.pure
    unfold checkOf
    split
    · decide
    · split
      · decide
      · split
        · decide
        · decide
  · exact Returns.pure (Nat.zero_le 3)

/-- The loop that reads returns an outcome of polling, and changes only its sectors. -/
theorem returns_readSectors (fuel : Nat) : ∀ (n : Nat) (mem : Buf) (off : Nat),
    (readSectors ch n mem off fuel).Returns fun reply =>
      reply.1 ≤ 3 ∧ ∀ i, i < off ∨ off + n * sectSize ≤ i → reply.2 i = mem i
  | 0, _, _ => ⟨Nat.zero_le 3, fun _ _ => rfl⟩
  | n + 1, mem, off => by
      refine Returns.bind (returns_poll true fuel) fun err herr => ?_
      split
      · exact ⟨herr, fun _ _ => rfl⟩
      · refine Returns.bind (returns_insw _ _ _) fun mem' hmem' => ?_
        refine (returns_readSectors fuel n mem' _).mono fun reply hreply =>
          ⟨hreply.1, fun i hi => ?_⟩
        have hi' : i < off ∨ off + (n + 1) * 512 ≤ i := hi
        have hrest : i < off + 512 ∨ off + 512 + n * 512 ≤ i := by omega
        have hfirst : i < off ∨ off + 512 ≤ i := by omega
        rw [hreply.2 i hrest, hmem' i hfirst]

theorem InUse.returns_access (h : InUse ide) (rw_ : Rw) (drive lbaAddr nsects : Nat) (mem : Buf)
    (fuel : Nat) :
    (ideAtaAccess ide rw_ drive lbaAddr nsects mem fuel).Returns fun reply =>
      (rw_ = .write → reply.1 = 0 ∧ reply.2.1 = mem) ∧ reply.1 ≤ 3 ∧
        (∀ i, nsects % 256 * sectSize ≤ i → reply.2.1 i = mem i) ∧ InUse reply.2.2 := by
  unfold ideAtaAccess
  refine Returns.after fun _ => Returns.after fun _ => Returns.after fun _ => ?_
  cases rw_ with
  | read =>
      refine Returns.bind (returns_readSectors fuel _ _ _) fun reply hreply => Returns.pure ?_
      refine ⟨(fun hw => nomatch hw), hreply.1, fun i hi => hreply.2 i (Or.inr ?_), h.setNIen _ _⟩
      rw [Nat.zero_add]
      exact hi
  | write =>
      refine Returns.after fun _ => Returns.after fun _ => Returns.after fun _ => Returns.pure ?_
      exact ⟨fun _ => ⟨rfl, rfl⟩, Nat.zero_le 3, fun _ _ => rfl, h.setNIen _ _⟩

/-- One request. -/
theorem InUse.serve (h : InUse ide) (r : Request) (fuel : Nat) :
    (Ide.serve ide r fuel).Within Driven Driven ∧
      (Ide.serve ide r fuel).Returns fun reply =>
        Plausible r (reply.1, reply.2.1) ∧ InUse reply.2.2 := by
  have haccess : ∀ rw_ : Rw, r.rw = rw_ →
      (ideAtaAccess ide rw_ 0 r.offset (nsectsOf r.nbytes) r.buf fuel).Returns fun reply =>
        Plausible r (reply.1, reply.2.1) ∧ InUse reply.2.2 := by
    intro rw_ hrw
    refine (h.returns_access rw_ 0 r.offset _ r.buf fuel).mono fun reply hreply =>
      ⟨?_, hreply.2.2.2⟩
    refine ⟨fun hw => ?_, hreply.2.1, hreply.2.2.1⟩
    obtain ⟨hcode, hbuf⟩ := hreply.1 (hrw.symm.trans hw)
    exact Prod.ext hcode hbuf
  unfold Ide.serve
  cases hrw : r.rw with
  | read => exact ⟨h.within_access .read _ _ _ _ fuel, haccess .read hrw⟩
  | write => exact ⟨h.within_access .write _ _ _ _ fuel, haccess .write hrw⟩

/-- A run of requests. -/
theorem InUse.serveAll : ∀ (rs : List Request) {ide : Tables}, InUse ide → ∀ fuel,
    (Ide.serveAll ide rs fuel).Within Driven Driven ∧
      (Ide.serveAll ide rs fuel).Returns (List.Forall₂ Plausible rs)
  | [], _, _, _ => ⟨Within.pure _, Returns.pure List.Forall₂.nil⟩
  | r :: rs, _, h, fuel => by
      obtain ⟨hwithin, hreturns⟩ := h.serve r fuel
      refine ⟨Within.bind_returns hwithin hreturns fun reply hreply => ?_, ?_⟩
      · exact Within.bind (InUse.serveAll rs hreply.2 fuel).1 fun _ => Within.pure _
      · refine Returns.bind hreturns fun reply hreply => ?_
        refine Returns.bind (InUse.serveAll rs hreply.2 fuel).2 fun replies hreplies => ?_
        exact Returns.pure (List.Forall₂.cons hreply.1 hreplies)

/-! ## Start-up -/

theorem SetUp.within_ideReadBuf (h : SetUp ch) (b : Buf) (longs : Nat) :
    (ideReadBuf ch ataRegData b longs).Within Driven Driven := by
  have hlow : highOrder ataRegData = false := rfl
  have hport : portOf ch ataRegData = some ch.base := by
    rw [portOf, if_pos (by decide)]
    rfl
  have hbase : Driven (.long ch.base) := h.base_driven
  unfold ideReadBuf
  simp only [hlow, hport, Bool.false_eq_true, if_false, bind_pure]
  exact within_insl hbase _ _ _

theorem InUse.clearEntry (h : InUse ide) (count : Nat) : InUse (Ide.clearEntry ide count) where
  channels := h.channels
  devices k := by
    by_cases hk : k = count
    · subst hk
      have hentry : (Ide.clearEntry ide k).devices k = { ide.devices k with reserved := 0 } :=
        Function.update_self _ _ _
      rw [hentry]
      exact h.devices k
    · have hentry : (Ide.clearEntry ide count).devices k = ide.devices k :=
        Function.update_of_ne hk _ _
      rw [hentry]
      exact h.devices k

theorem InUse.describe (h : InUse ide) (b : Buf) (count type i j : Nat) (hi : i < 2) :
    InUse { ide with
      devices := Function.update ide.devices count (Ide.describe b type i j)
      ideBuf := b } where
  channels := h.channels
  devices k := by
    by_cases hk : k = count
    · subst hk
      simp only [Function.update_self]
      exact hi
    · simp only [Function.update_of_ne hk]
      exact h.devices k

/-- A pass of the detection. -/
theorem InUse.detect (h : InUse ide) (count j fuel : Nat) {i : Nat} (hi : i < 2) :
    (Ide.detect ide count i j fuel).Within Driven Driven ∧
      (Ide.detect ide count i j fuel).Returns fun reply => InUse reply.1 := by
  have h₁ := h.clearEntry count
  have hset : SetUp (ide.channels i) := h.channels i hi
  have hfound : ∀ type : Nat,
      (do
        let ideBuf ← ideReadBuf (ide.channels i) ataRegData ide.ideBuf identBufSize
        pure ({ Ide.clearEntry ide count with
          devices := Function.update (Ide.clearEntry ide count).devices count
            (Ide.describe ideBuf type i j)
          ideBuf := ideBuf }, count + 1) : Program Port (Tables × Nat)).Within Driven Driven ∧
      (do
        let ideBuf ← ideReadBuf (ide.channels i) ataRegData ide.ideBuf identBufSize
        pure ({ Ide.clearEntry ide count with
          devices := Function.update (Ide.clearEntry ide count).devices count
            (Ide.describe ideBuf type i j)
          ideBuf := ideBuf }, count + 1) : Program Port (Tables × Nat)).Returns
        fun reply => InUse reply.1 := fun type =>
    ⟨Within.bind (hset.within_ideReadBuf _ _) fun _ => Within.pure _,
      Returns.after fun b => Returns.pure (h₁.describe b count type i j hi)⟩
  constructor
  · refine Within.bind (hset.within_ideWrite (by decide) _) fun _ => ?_
    refine Within.bind (hset.within_ideWrite (by decide) _) fun _ => ?_
    refine Within.bind hset.within_status fun status => ?_
    split
    · exact Within.pure _
    · refine Within.bind (Within.repeatUntil hset.within_status fuel) fun status => ?_
      split
      · refine Within.bind (hset.within_ideRead (by decide) rfl) fun cl => ?_
        refine Within.bind (hset.within_ideRead (by decide) rfl) fun chi => ?_
        split
        · exact Within.bind (hset.within_ideWrite (by decide) _) fun _ => (hfound ideAtapi).1
        · exact Within.pure _
      · exact (hfound ideAta).1
  · refine Returns.after fun _ => Returns.after fun _ => Returns.after fun status => ?_
    split
    · exact Returns.pure h₁
    · refine Returns.after fun status => ?_
      split
      · refine Returns.after fun cl => Returns.after fun chi => ?_
        split
        · exact Returns.after fun _ => (hfound ideAtapi).2
        · exact Returns.pure h₁
      · exact (hfound ideAta).2

theorem inUse_setPorts : InUse (setPorts .zero) where
  channels i hi := by
    obtain rfl | rfl : i = 0 ∨ i = 1 := by omega
    · exact Or.inl (primary_setPorts _)
    · exact Or.inr secondary_setPorts
  devices _ := Nat.zero_lt_two

theorem inUse_ideInit (fuel : Nat) :
    (ideInit .zero fuel).Within Driven Driven ∧ (ideInit .zero fuel).Returns InUse := by
  have h := inUse_setPorts
  have hcontrol : ∀ i < 2,
      (ideWrite ((setPorts .zero).channels i) ataRegControl ataCtrlNien).Within Driven Driven :=
    fun i hi => (h.channels i hi).within_ideWrite (by decide) _
  obtain ⟨hw₁, hr₁⟩ := h.detect 0 0 fuel (show 0 < 2 by decide)
  constructor
  · refine Within.bind (hcontrol 0 (by decide)) fun _ => ?_
    refine Within.bind (hcontrol 1 (by decide)) fun _ => ?_
    refine Within.bind_returns hw₁ hr₁ fun reply₁ h₁ => ?_
    obtain ⟨hw₂, hr₂⟩ := InUse.detect h₁ reply₁.2 1 fuel (show 0 < 2 by decide)
    refine Within.bind_returns hw₂ hr₂ fun reply₂ h₂ => ?_
    obtain ⟨hw₃, hr₃⟩ := InUse.detect h₂ reply₂.2 0 fuel (show 1 < 2 by decide)
    refine Within.bind_returns hw₃ hr₃ fun reply₃ h₃ => ?_
    exact Within.bind (InUse.detect h₃ reply₃.2 1 fuel (show 1 < 2 by decide)).1 fun _ =>
      Within.pure _
  · refine Returns.after fun _ => Returns.after fun _ => Returns.bind hr₁ fun reply₁ h₁ => ?_
    refine Returns.bind (InUse.detect h₁ reply₁.2 1 fuel (by decide)).2 fun reply₂ h₂ => ?_
    refine Returns.bind (InUse.detect h₂ reply₂.2 0 fuel (by decide)).2 fun reply₃ h₃ => ?_
    exact Returns.bind (InUse.detect h₃ reply₃.2 1 fuel (by decide)).2 fun _ h₄ => Returns.pure h₄

/-- Whatever answers at the ports, start-up and every run of requests use only the ports of
the driver, and each reply is plausible. -/
theorem any_hardware (rs : List Request) (fuel : Nat) :
    (startAndServe rs fuel).Within Driven Driven ∧
      (startAndServe rs fuel).Returns (List.Forall₂ Plausible rs) := by
  obtain ⟨hwithin, hreturns⟩ := inUse_ideInit fuel
  exact ⟨Within.bind_returns hwithin hreturns fun _ h => (InUse.serveAll rs h fuel).1,
    Returns.bind hreturns fun _ h => (InUse.serveAll rs h fuel).2⟩

end Ports

end Ide
end NochOS
