import NochOS.Network.AddressRequest

/-!
# Network - the end of the handler

`handleReceive` has three loops: over the packets that wait, over the bytes of a packet and,
in `sendPacket`, until the card has sent the request.  If the card goes on sending and no
further packet comes, all three end.

Main results:

- Theorem `handler_finishes`: the driver gets back to where it was called from, and no packet
  waits any more.
-/

namespace NochOS
namespace Network

open Library

/-- The card sends what it has, and the driver takes a step. -/
def Nic.round (s : Nic) : Nic := (s.perform .transmit).perform .step

/-- After some rounds. -/
def Reaches (s : Nic) (P : Nic → Prop) : Prop := ∃ n, P (Nic.round^[n] s)

namespace Reaches

variable {s : Nic} {P Q : Nic → Prop}

theorem now (h : P s) : Reaches s P := ⟨0, h⟩

theorem later (h : Reaches s.round P) : Reaches s P := by
  obtain ⟨n, hn⟩ := h
  exact ⟨n + 1, hn⟩

theorem trans (h : Reaches s P) (hnext : ∀ t, P t → Reaches t Q) : Reaches s Q := by
  obtain ⟨n, hn⟩ := h
  obtain ⟨m, hm⟩ := hnext _ hn
  refine ⟨m + n, ?_⟩
  rw [Function.iterate_add_apply]
  exact hm

end Reaches

/-- The state at some point of the handling of a packet. -/
structure At (accepted : List (List UInt8)) (released : Nat) (pc : Pc) (s : Nic) : Prop where
  rx : RxInv s
  tx : TxInv s
  dhcp : DhcpInv s
  accepted : s.accepted = accepted
  released : s.released = released
  pc : s.pc = pc

namespace At

variable {accepted : List (List UInt8)} {released : Nat} {pc : Pc} {s : Nic}

/-- Where the driver is after the card's turn. -/
theorem transmit (h : At accepted released pc s) : At accepted released pc s.transmit := by
  have hsame : s.transmit.accepted = s.accepted ∧ s.transmit.copied = s.copied ∧
      s.transmit.pc = s.pc := by
    unfold Nic.transmit
    split
    · exact ⟨rfl, rfl, rfl⟩
    · exact ⟨rfl, rfl, rfl⟩
  refine ⟨h.rx.transmit, h.tx.transmit, h.dhcp.perform h.rx .transmit,
    hsame.1.trans h.accepted, ?_, hsame.2.2.trans h.pc⟩
  rw [Nic.released, hsame.2.1, hsame.2.2]
  exact h.released

/-- Where the driver is after a round, if its step is known. -/
theorem round (h : At accepted released pc s) {pc' : Pc} {released' : Nat}
    (hstep : s.transmit.step.accepted = s.transmit.accepted ∧
      s.transmit.step.released = released' ∧ s.transmit.step.pc = pc') :
    At accepted released' pc' s.round :=
  ⟨h.transmit.rx.step, h.transmit.tx.step, h.transmit.dhcp.step h.transmit.rx,
    hstep.1.trans h.transmit.accepted, hstep.2.1, hstep.2.2⟩

/-- A step between the copying of the packet and the clearing of its descriptor. -/
theorem round_between (h : At accepted released pc s) {pc' : Pc}
    (hstep : s.transmit.step.accepted = s.transmit.accepted ∧
      s.transmit.step.copied = s.transmit.copied ∧ s.transmit.step.pc = pc')
    (hheld : pc'.held = pc.held) : At accepted released pc' s.round := by
  have ht := h.transmit
  have hreleased := ht.released
  rw [Nic.released, ht.pc] at hreleased
  apply h.round
  refine ⟨hstep.1, ?_, hstep.2.2⟩
  rw [Nic.released, hstep.2.1, hstep.2.2, hheld]
  exact hreleased

/-- The descriptor is given back. -/
theorem from_advance (h : At accepted released .advance s) :
    At accepted (released + 1) .test s.round := by
  apply h.round
  have hreleased := h.transmit.released
  have hheld := h.transmit.rx.held
  rw [Nic.released, h.transmit.pc] at hreleased
  rw [h.transmit.pc] at hheld
  rw [Nic.step, h.transmit.pc]
  refine ⟨rfl, ?_, rfl⟩
  show s.transmit.copied.length - 0 = released + 1
  simp only [Pc.held] at hreleased hheld
  omega

/-- The descriptor is cleared and given back. -/
theorem from_clear (h : At accepted released .clear s) :
    Reaches s (At accepted (released + 1) .test) := by
  have hadvance : At accepted released .advance s.round := by
    apply h.round_between
    · rw [Nic.step, h.transmit.pc]
      exact ⟨rfl, rfl, rfl⟩
    · rfl
  exact Reaches.later (Reaches.later (Reaches.now hadvance.from_advance))

/-- The driver waits for the card once. -/
theorem from_waiting {old : Nat} {handler : Bool}
    (h : At accepted released (.waiting old handler) s) :
    At accepted released (if handler then .clear else .idle) s.round := by
  have hsending : s.pc.sending = some old := by
    rw [h.pc]
    rfl
  have hstatus := (h.tx.sent hsending).2.2
  apply h.round_between
  · rw [Nic.step, h.transmit.pc]
    dsimp only
    rw [if_neg hstatus]
    cases handler
    · exact ⟨rfl, rfl, rfl⟩
    · exact ⟨rfl, rfl, rfl⟩
  · cases handler
    · rfl
    · rfl

/-- The address is read and the request is sent. -/
theorem from_address {n : Nat} {got : List UInt8} (hn : got.length + n = 4)
    (h : At accepted released (.address got) s) : Reaches s (At accepted released .clear) := by
  induction n generalizing got s with
  | zero =>
      have hwaiting : At accepted released (.waiting s.transmit.txCur true) s.round := by
        apply h.round_between
        · rw [Nic.step, h.transmit.pc]
          dsimp only
          rw [if_neg (by omega)]
          exact ⟨rfl, rfl, rfl⟩
        · rfl
      exact Reaches.later (Reaches.later (Reaches.now hwaiting.from_waiting))
  | succ n ih =>
      have hmore : At accepted released
          (.address (got ++ [s.transmit.rxTemp (58 + got.length)])) s.round := by
        apply h.round_between
        · rw [Nic.step, h.transmit.pc]
          dsimp only
          rw [if_pos (by omega)]
          exact ⟨rfl, rfl, rfl⟩
        · rfl
      refine Reaches.later (ih ?_ hmore)
      rw [List.length_append, List.length_singleton]
      omega

/-- The second byte of the cookie is read, and what follows. -/
theorem from_cookie' (h : At accepted released .cookie' s) :
    Reaches s (At accepted released .clear) := by
  by_cases hoffer : s.transmit.rxTemp 279 = 0x82 ∧ s.transmit.sendDhcp = 0
  · have haddress : At accepted released (.address []) s.round := by
      apply h.round_between
      · rw [Nic.step, h.transmit.pc]
        exact ⟨rfl, rfl, if_pos hoffer⟩
      · rfl
    exact Reaches.later (haddress.from_address (show 0 + 4 = 4 from rfl))
  · have hclear : At accepted released .clear s.round := by
      apply h.round_between
      · rw [Nic.step, h.transmit.pc]
        exact ⟨rfl, rfl, if_neg hoffer⟩
      · rfl
    exact Reaches.later (Reaches.now hclear)

/-- The offer, if it is one, is answered. -/
theorem from_cookie (h : At accepted released .cookie s) :
    Reaches s (At accepted released .clear) := by
  by_cases hfirst : s.transmit.rxTemp 278 = 0x63
  · have hcookie' : At accepted released .cookie' s.round := by
      apply h.round_between
      · rw [Nic.step, h.transmit.pc]
        exact ⟨rfl, rfl, if_pos hfirst⟩
      · rfl
    exact Reaches.later hcookie'.from_cookie'
  · have hclear : At accepted released .clear s.round := by
      apply h.round_between
      · rw [Nic.step, h.transmit.pc]
        exact ⟨rfl, rfl, if_neg hfirst⟩
      · rfl
    exact Reaches.later (Reaches.now hclear)

/-- The rest of the packet is copied. -/
theorem from_copy {n len began : Nat} {got : List UInt8} (hn : got.length + n = len)
    (h : At accepted released (.copy len got began) s) :
    Reaches s (At accepted released .cookie) := by
  induction n generalizing got s with
  | zero =>
      refine Reaches.later (Reaches.now ?_)
      apply h.round
      have hreleased := h.transmit.released
      rw [Nic.released, h.transmit.pc] at hreleased
      rw [Nic.step, h.transmit.pc]
      dsimp only
      rw [if_neg (by omega)]
      refine ⟨rfl, ?_, rfl⟩
      show (s.transmit.copied ++ [_]).length - 1 = released
      rw [List.length_append]
      exact hreleased
  | succ n ih =>
      have hmore : At accepted released
          (.copy len (got ++ [s.transmit.rxTemp got.length]) began) s.round := by
        apply h.round_between
        · rw [Nic.step, h.transmit.pc]
          dsimp only
          rw [if_pos (by omega)]
          exact ⟨rfl, rfl, rfl⟩
        · rfl
      refine Reaches.later (ih ?_ hmore)
      rw [List.length_append, List.length_singleton]
      omega

/-- The packet at the driver's position is handled. -/
theorem from_length (h : At accepted released .length s) :
    Reaches s (At accepted (released + 1) .test) := by
  have hcopy : At accepted released (.copy (s.transmit.rxDescs s.transmit.rxCur).length []
      s.transmit.accepted.length) s.round := by
    apply h.round_between
    · rw [Nic.step, h.transmit.pc]
      exact ⟨rfl, rfl, rfl⟩
    · rfl
  exact Reaches.later (((hcopy.from_copy (Nat.zero_add _)).trans fun t ht => ht.from_cookie).trans
    fun t ht => ht.from_clear)

/-- All packets that wait are handled. -/
theorem from_test {n : Nat} (hn : released + n = accepted.length)
    (h : At accepted released .test s) :
    Reaches s (At accepted accepted.length .idle) := by
  have htest := h.transmit.rx.test_iff h.transmit.pc
  rw [h.transmit.released, h.transmit.accepted] at htest
  induction n generalizing released s with
  | zero =>
      obtain rfl : released = accepted.length := hn
      refine Reaches.later (Reaches.now ?_)
      apply h.round_between
      · rw [Nic.step, h.transmit.pc]
        exact ⟨rfl, rfl, if_neg fun hset => absurd (htest.mp hset) (Nat.lt_irrefl _)⟩
      · rfl
  | succ n ih =>
      have hlength : At accepted released .length s.round := by
        apply h.round_between
        · rw [Nic.step, h.transmit.pc]
          exact ⟨rfl, rfl, if_pos (htest.mpr (by omega))⟩
        · rfl
      apply Reaches.later
      refine hlength.from_length.trans fun t ht => ?_
      have htest' := ht.transmit.rx.test_iff ht.transmit.pc
      rw [ht.transmit.released, ht.transmit.accepted] at htest'
      exact ih (by omega) ht htest'

/-- The handler finishes from wherever it is. -/
theorem finishes (h : At accepted released pc s) (hpc : pc.busy = true ∨ pc = .test) :
    Reaches s (At accepted accepted.length .idle) := by
  have hrest : ∀ {r : Nat} {t : Nic}, At accepted r .test t →
      Reaches t (At accepted accepted.length .idle) := by
    intro r t ht
    have hbehind := ht.rx.behind
    rw [ht.released, ht.accepted] at hbehind
    exact ht.from_test (Nat.add_sub_of_le hbehind)
  have hclear : ∀ {t : Nic}, At accepted released .clear t →
      Reaches t (At accepted accepted.length .idle) :=
    fun ht => ht.from_clear.trans fun _ ht' => hrest ht'
  cases pc with
  | idle => simp [Pc.busy] at hpc
  | test => exact hrest h
  | length => exact h.from_length.trans fun _ ht => hrest ht
  | copy len got began =>
      have hcopying := h.rx.copying
      rw [h.pc] at hcopying
      have hlen : got.length + (len - got.length) = len := Nat.add_sub_of_le hcopying.2.1
      exact ((h.from_copy hlen).trans fun _ ht => ht.from_cookie).trans fun _ ht => hclear ht
  | cookie => exact h.from_cookie.trans fun _ ht => hclear ht
  | cookie' => exact h.from_cookie'.trans fun _ ht => hclear ht
  | address got =>
      have hreading := h.dhcp.reading
      rw [h.pc] at hreading
      have hlen : got.length + (4 - got.length) = 4 := Nat.add_sub_of_le hreading.2.1
      exact (h.from_address hlen).trans fun _ ht => hclear ht
  | waiting old handler =>
      cases handler with
      | true => exact Reaches.later (hclear h.from_waiting)
      | false => simp [Pc.busy] at hpc
  | clear => exact hclear h
  | advance => exact Reaches.later (hrest h.from_advance)

end At

/-- From any moment on at which the driver handles packets, if the card sends what it is
given and no packet comes any more, the driver gets done, and then every packet that the card
took was handled. -/
theorem handler_finishes (k : Heap.Kernel) (rdh rdt tdh tdt : Nat) (es : List NicEvent) :
    let s := (Nic.start k rdh rdt tdh tdt).run es
    s.pc.busy = true ∨ s.pc = .test →
      ∃ n, (Nic.round^[n] s).pc = .idle ∧ (Nic.round^[n] s).accepted = s.accepted ∧
        (Nic.round^[n] s).copied.length = s.accepted.length := by
  intro s hpc
  have hrx := rxInv_start k rdh rdt tdh tdt
  have hat : At s.accepted s.released s.pc s :=
    ⟨rxInv_run es hrx, txInv_run es (txInv_start k rdh rdt tdh tdt),
      dhcpInv_run es (dhcpInv_start k rdh rdt tdh tdt) hrx, rfl, rfl, rfl⟩
  obtain ⟨n, hn⟩ := hat.finishes hpc
  refine ⟨n, hn.pc, hn.accepted, ?_⟩
  have hreleased := hn.released
  rw [Nic.released, hn.pc] at hreleased
  exact hreleased

/-- An interrupt after one packet. -/
theorem handler_finishes_one :
    let s := (Nic.start ⟨Heap.heapInit 0 Heap.blankHeap, []⟩ 0 0 0 0).run
      [.arrive [1, 2, 3], .interrupt 0x80]
    ∃ n, (Nic.round^[n] s).pc = .idle ∧ (Nic.round^[n] s).accepted = s.accepted ∧
      (Nic.round^[n] s).copied.length = s.accepted.length :=
  handler_finishes _ 0 0 0 0 _ (Or.inr rfl)

end Network
end NochOS
