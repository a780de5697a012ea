import NochOS.Network.ReceiveRing

/-!
# Network - what is sent

`sendPacket` waits for the card, so that at most one message is on its way and the message
does not change under the card.

Main results:

- Theorem `sends_in_order`: every message is sent once, in order and as it was handed over.
-/

namespace NochOS
namespace Network

open Library

theorem length_message (c : Buf) : (message c).length = sizeofDhcp := by
  rw [message, List.length_map, List.length_range]

/-! ## The ring of packets to send -/

/-- The descriptor that `sendPacket` waits for. -/
def Pc.sending : Pc → Option Nat
  | waiting old _ => some old
  | _ => none

/-- One message is handed over and either still to be sent or sent. -/
structure Pending (s : Nic) (old : Nat) : Prop where
  handed : 0 < s.given.length
  slot : old = (s.given.length - 1) % numTxDesc
  phase : (s.onWire.length + 1 = s.given.length ∧ s.txDescs old = ⟨sizeofDhcp, txCommand, 0⟩ ∧
      s.given.getLast?.map Given.bytes = some (message s.c)) ∨
    (s.onWire.length = s.given.length ∧ (s.txDescs old).status &&& 0xff ≠ 0)

/-- How the ring looks. -/
structure TxInv (s : Nic) : Prop where
  tdh : s.tdh = s.onWire.length % numTxDesc
  tdt : s.tdt = s.given.length % numTxDesc
  txCur : s.txCur = s.given.length % numTxDesc
  wire : s.onWire = (s.given.map Given.bytes).take s.onWire.length
  rest : s.pc.sending = none → s.onWire.length = s.given.length
  pending : ∀ old, s.pc.sending = some old → Pending s old

/-- Nothing of the sending side changes. -/
structure SameTx (s s' : Nic) : Prop where
  txDescs : s'.txDescs = s.txDescs
  tdh : s'.tdh = s.tdh
  tdt : s'.tdt = s.tdt
  txCur : s'.txCur = s.txCur
  c : s'.c = s.c
  given : s'.given = s.given
  onWire : s'.onWire = s.onWire

namespace TxInv

variable {s s' : Nic}

/-- What is not about sending. -/
theorem of_same (h : TxInv s) (hsame : SameTx s s') (hpc : s'.pc.sending = s.pc.sending) :
    TxInv s' := by
  constructor
  · rw [hsame.tdh, hsame.onWire]
    exact h.tdh
  · rw [hsame.tdt, hsame.given]
    exact h.tdt
  · rw [hsame.txCur, hsame.given]
    exact h.txCur
  · rw [hsame.onWire, hsame.given]
    exact h.wire
  · rw [hsame.onWire, hsame.given, hpc]
    exact h.rest
  · intro old hold
    rw [hpc] at hold
    obtain ⟨hsome, hslot, hphase⟩ := h.pending old hold
    refine ⟨?_, ?_, ?_⟩
    · rw [hsame.given]
      exact hsome
    · rw [hsame.given]
      exact hslot
    · rw [hsame.onWire, hsame.given, hsame.txDescs, hsame.c]
      exact hphase

/-- A message is handed over. -/
theorem sendPacket (h : TxInv s) (hrest : s.pc.sending = none) (c : Buf) (ip : Nat → Nat)
    (sendDhcp : Nat) (request : Option (List UInt8)) (handler : Bool) :
    TxInv (Nic.sendPacket { s with c := c, ip := ip, sendDhcp := sendDhcp } request handler) := by
  have hwire := h.rest hrest
  have hlen : (s.given ++ [Given.mk request (message c)]).length = s.given.length + 1 := by
    rw [List.length_append]
    rfl
  have hcur := h.txCur
  constructor
  · exact h.tdh
  · show (s.txCur + 1) % numTxDesc = (s.given ++ [Given.mk request (message c)]).length % numTxDesc
    rw [hlen, hcur, Nat.mod_add_mod]
  · show (s.txCur + 1) % numTxDesc = (s.given ++ [Given.mk request (message c)]).length % numTxDesc
    rw [hlen, hcur, Nat.mod_add_mod]
  · show s.onWire =
      ((s.given ++ [Given.mk request (message c)]).map Given.bytes).take s.onWire.length
    rw [List.map_append, List.take_append_of_le_length (by rw [List.length_map, hwire])]
    exact h.wire
  · intro hnone
    contradiction
  · intro old hold
    obtain rfl : s.txCur = old := Option.some.inj hold
    refine ⟨?_, ?_, Or.inl ⟨?_, ?_, ?_⟩⟩
    · show 0 < (s.given ++ [Given.mk request (message c)]).length
      omega
    · show s.txCur = ((s.given ++ [Given.mk request (message c)]).length - 1) % numTxDesc
      rw [hlen, Nat.add_sub_cancel, hcur]
    · show s.onWire.length + 1 = (s.given ++ [Given.mk request (message c)]).length
      rw [hlen, hwire]
    · exact Function.update_self ..
    · show (s.given ++ [Given.mk request (message c)]).getLast?.map Given.bytes = some (message c)
      rw [List.getLast?_concat]
      rfl

/-- At most one message is on its way. -/
theorem near (h : TxInv s) :
    s.onWire.length ≤ s.given.length ∧ s.given.length ≤ s.onWire.length + 1 := by
  cases hpc : s.pc.sending with
  | none =>
      have hrest := h.rest hpc
      omega
  | some old =>
      obtain ⟨hone, -⟩ | ⟨hsent, -⟩ := (h.pending old hpc).phase <;> omega

/-- The card sends all that was handed over. -/
theorem transmit_all (h : TxInv s) : s.transmit.onWire.length = s.given.length := by
  have hnear := h.near
  have htdh := h.tdh
  have htdt := h.tdt
  unfold numTxDesc at htdh htdt
  by_cases hnone : s.tdh = s.tdt
  · rw [Nic.transmit, if_pos hnone]
    omega
  · rw [Nic.transmit, if_neg hnone]
    show (s.onWire ++ [_]).length = _
    rw [List.length_append, List.length_singleton]
    have hne : s.onWire.length ≠ s.given.length := fun heq => hnone (by rw [htdh, htdt, heq])
    omega

/-- The card sends the message. -/
theorem transmit (h : TxInv s) : TxInv s.transmit := by
  by_cases hnone : s.tdh = s.tdt
  · rw [Nic.transmit, if_pos hnone]
    exact h
  · have hne : s.onWire.length ≠ s.given.length := by
      intro heq
      rw [h.tdh, h.tdt, heq] at hnone
      exact hnone rfl
    cases hpc : s.pc.sending with
    | none => exact absurd (h.rest hpc) hne
    | some old =>
        obtain ⟨hsome, hslot, hphase⟩ := h.pending old hpc
        obtain ⟨hone, hdesc, hlast⟩ := hphase.resolve_right fun hsent => hne hsent.1
        have hold : old = s.tdh := by
          rw [hslot, h.tdh]
          congr 1
          omega
        subst hold
        have hsent : (message s.c).take sizeofDhcp = message s.c :=
          List.take_of_length_le (Nat.le_of_eq (length_message s.c))
        have htransmit : s.transmit = { s with
            onWire := s.onWire ++ [message s.c]
            txDescs := Function.update s.txDescs s.tdh ⟨sizeofDhcp, txCommand, tstaDD⟩
            tdh := (s.tdh + 1) % numTxDesc } := by
          rw [Nic.transmit, if_neg hnone, hdesc]
          simp only [hsent]
          rfl
        have hlen : (s.onWire ++ [message s.c]).length = s.onWire.length + 1 := by
          rw [List.length_append]
          rfl
        rw [htransmit]
        constructor
        · show (s.tdh + 1) % numTxDesc = (s.onWire ++ [message s.c]).length % numTxDesc
          rw [hlen, h.tdh, Nat.mod_add_mod]
        · exact h.tdt
        · exact h.txCur
        · show s.onWire ++ [message s.c] =
            (s.given.map Given.bytes).take (s.onWire ++ [message s.c]).length
          have hbound : s.onWire.length < (s.given.map Given.bytes).length := by
            rw [List.length_map]
            omega
          have hget : (s.given.map Given.bytes)[s.onWire.length] = message s.c := by
            rw [List.getLast?_eq_getElem?, show s.given.length - 1 = s.onWire.length by omega,
              List.getElem?_eq_getElem (by omega), Option.map_some] at hlast
            rw [List.getElem_map]
            exact Option.some.inj hlast
          rw [hlen, List.take_succ_eq_append_getElem hbound, hget, ← h.wire]
        · intro hrest
          rw [show Pc.sending _ = s.pc.sending from rfl, hpc] at hrest
          contradiction
        · intro old hold
          rw [show Pc.sending _ = s.pc.sending from rfl, hpc] at hold
          obtain rfl : s.tdh = old := Option.some.inj hold
          refine ⟨hsome, hslot, Or.inr ⟨?_, ?_⟩⟩
          · show (s.onWire ++ [message s.c]).length = s.given.length
            omega
          · show (Function.update s.txDescs s.tdh _ s.tdh).status &&& 0xff ≠ 0
            rw [Function.update_self]
            decide

/-- A step of the driver that is not about sending. -/
theorem step_other (h : TxInv s) (hrest : s.pc.sending = none) (hpc : ∀ got, s.pc ≠ .address got) :
    TxInv s.step := by
  have hsame : SameTx s s.step ∧ s.step.pc.sending = none := by
    cases hs : s.pc with
    | address got => exact absurd hs (hpc got)
    | waiting old handler =>
        rw [hs] at hrest
        contradiction
    | copy len got began =>
        rw [Nic.step, hs]
        dsimp only
        split
        · exact ⟨⟨rfl, rfl, rfl, rfl, rfl, rfl, rfl⟩, rfl⟩
        · exact ⟨⟨rfl, rfl, rfl, rfl, rfl, rfl, rfl⟩, rfl⟩
    | _ =>
        rw [Nic.step, hs]
        refine ⟨⟨rfl, rfl, rfl, rfl, rfl, rfl, rfl⟩, ?_⟩
        dsimp only
        first | rfl | (split <;> rfl) | exact hrest
  exact h.of_same hsame.1 (hsame.2.trans hrest.symm)

/-- After the card's turn the message is sent, and the driver can see that it is. -/
theorem sent (h : TxInv s) {old : Nat} (hsending : s.pc.sending = some old) :
    s.transmit.pc = s.pc ∧ s.transmit.onWire = s.given.map Given.bytes ∧
      ¬ (s.transmit.txDescs old).status &&& 0xff = 0 := by
  have hsame : s.transmit.pc = s.pc ∧ s.transmit.given = s.given := by
    unfold Nic.transmit
    split
    · exact ⟨rfl, rfl⟩
    · exact ⟨rfl, rfl⟩
  have hall := h.transmit_all
  refine ⟨hsame.1, ?_, ?_⟩
  · have hwire := h.transmit.wire
    rw [hall, hsame.2, List.take_of_length_le (Nat.le_of_eq (List.length_map _))] at hwire
    exact hwire
  · have hsending' : s.transmit.pc.sending = some old := by
      rw [hsame.1]
      exact hsending
    obtain ⟨hone, -⟩ | ⟨-, hstatus⟩ := (h.transmit.pending old hsending').phase
    · rw [hsame.2] at hone
      omega
    · exact hstatus

/-- The loop of `sendPacket` ends when the message is sent. -/
theorem step_waiting (h : TxInv s) {old : Nat} {handler : Bool}
    (hpc : s.pc = .waiting old handler) : TxInv s.step := by
  by_cases hbusy : (s.txDescs old).status &&& 0xff = 0
  · have hstep : s.step = s := by
      rw [Nic.step, hpc]
      exact if_pos hbusy
    rw [hstep]
    exact h
  · have hsending : s.pc.sending = some old := by rw [hpc]; rfl
    have hwire : s.onWire.length = s.given.length := by
      obtain ⟨-, hdesc, -⟩ | ⟨hsent, -⟩ := (h.pending old hsending).phase
      · rw [hdesc] at hbusy
        exact absurd rfl hbusy
      · exact hsent
    have hstep : s.step = { s with
        sendDhcp := if handler then 1 else s.sendDhcp
        pc := if handler then .clear else .idle } := by
      rw [Nic.step, hpc]
      cases handler <;> exact if_neg hbusy
    have hnone : s.step.pc.sending = none := by
      rw [hstep]
      cases handler <;> rfl
    rw [hstep] at hnone ⊢
    refine ⟨h.tdh, h.tdt, h.txCur, h.wire, fun _ => hwire, fun old' hold => ?_⟩
    rw [hnone] at hold
    contradiction

/-- Every step of the driver. -/
theorem step (h : TxInv s) : TxInv s.step := by
  cases hpc : s.pc with
  | idle =>
      have hstep : s.step = s := by rw [Nic.step, hpc]
      rw [hstep]
      exact h
  | address got =>
      have hnone : s.pc.sending = none := by rw [hpc]; rfl
      by_cases hmore : got.length < 4
      · have hstep : s.step =
            { s with
              ip := Function.update s.ip got.length (s.rxTemp (58 + got.length)).toNat
              pc := .address (got ++ [s.rxTemp (58 + got.length)]) } := by
          rw [Nic.step, hpc]
          exact if_pos hmore
        rw [hstep]
        exact h.of_same ⟨rfl, rfl, rfl, rfl, rfl, rfl, rfl⟩ hnone.symm
      · have hstep : s.step =
            Nic.sendPacket { s with c := sendDhcpRequest s.ip s.c } (some got) true := by
          rw [Nic.step, hpc]
          exact if_neg hmore
        rw [hstep]
        exact h.sendPacket hnone _ _ _ _ _
  | waiting old handler => exact h.step_waiting hpc
  | _ => exact h.step_other (by rw [hpc]; rfl) fun got => by rw [hpc]; simp

/-- What comes while the driver is idle and is not about sending. -/
theorem whenIdle (h : TxInv s) {f : Nic → Nic} (hsame : SameTx s (f s))
    (hpc : s.pc = .idle → (f s).pc.sending = none) : TxInv (s.whenIdle f) := by
  cases hidle : s.pc with
  | idle =>
      have hf : s.whenIdle f = f s := by rw [Nic.whenIdle, hidle]
      have hnone : s.pc.sending = none := by rw [hidle]; rfl
      rw [hf]
      exact h.of_same hsame ((hpc hidle).trans hnone.symm)
  | _ =>
      rw [Nic.whenIdle, hidle]
      exact h

/-- Every event. -/
theorem perform (h : TxInv s) (e : NicEvent) : TxInv (s.perform e) := by
  cases e with
  | arrive packet =>
      show TxInv (s.arrive packet)
      by_cases haccepts : s.accepts packet = true
      · rw [Nic.arrive, if_pos haccepts]
        exact h.of_same ⟨rfl, rfl, rfl, rfl, rfl, rfl, rfl⟩ rfl
      · rw [Nic.arrive, if_neg haccepts]
        exact h
  | transmit => exact h.transmit
  | step => exact h.step
  | interrupt status =>
      apply h.whenIdle
      · unfold Nic.fire
        split_ifs <;> exact ⟨rfl, rfl, rfl, rfl, rfl, rfl, rfl⟩
      · intro hidle
        have hnone : s.pc.sending = none := by rw [hidle]; rfl
        unfold Nic.fire
        split_ifs
        · exact hnone
        · exact hnone
        · rfl
        · exact hnone
  | getIp =>
      cases hidle : s.pc with
      | idle =>
          have hnone : s.pc.sending = none := by rw [hidle]; rfl
          have hf : s.perform .getIp = s.getIp := by
            show s.whenIdle Nic.getIp = _
            rw [Nic.whenIdle, hidle]
          rw [hf]
          exact h.sendPacket hnone _ _ _ _ _
      | _ =>
          show TxInv (s.whenIdle Nic.getIp)
          rw [Nic.whenIdle, hidle]
          exact h
  | getPackage nbytes =>
      apply h.whenIdle ⟨rfl, rfl, rfl, rfl, rfl, rfl, rfl⟩
      intro hidle
      show s.pc.sending = none
      rw [hidle]
      rfl
  | client call =>
      apply h.whenIdle ⟨rfl, rfl, rfl, rfl, rfl, rfl, rfl⟩
      intro hidle
      show s.pc.sending = none
      rw [hidle]
      rfl

end TxInv

/-- The ring after the start. -/
theorem txInv_start (k : Heap.Kernel) (rdh rdt tdh tdt : Nat) :
    TxInv (Nic.start k rdh rdt tdh tdt) where
  tdh := rfl
  tdt := rfl
  txCur := rfl
  wire := rfl
  rest := fun _ => rfl
  pending := fun _ hold => nomatch hold

/-- The ring after any events. -/
theorem txInv_run (es : List NicEvent) {s : Nic} (h : TxInv s) : TxInv (s.run es) := by
  induction es generalizing s with
  | nil => exact h
  | cons e es ih => exact ih (h.perform e)

/-- What is on the wire is what was handed over, in order, except for the message that the
driver waits for; and the driver waits no longer than until the card has sent that one. -/
theorem sends_in_order (k : Heap.Kernel) (rdh rdt tdh tdt : Nat) (es : List NicEvent) :
    let s := (Nic.start k rdh rdt tdh tdt).run es
    s.onWire <+: s.given.map Given.bytes ∧
      s.given.length ≤ s.onWire.length + 1 ∧
      (s.pc.sending = none → s.onWire = s.given.map Given.bytes) ∧
      (∀ old handler, s.pc = .waiting old handler →
        ((s.perform .transmit).perform .step).pc = (if handler then Pc.clear else Pc.idle) ∧
          (s.perform .transmit).onWire = s.given.map Given.bytes) := by
  intro s
  have hinv : TxInv s := txInv_run es (txInv_start k rdh rdt tdh tdt)
  refine ⟨List.prefix_iff_eq_take.mpr hinv.wire, hinv.near.2, ?_, ?_⟩
  · intro hrest
    have hwire := hinv.wire
    rw [hinv.rest hrest, List.take_of_length_le (Nat.le_of_eq (List.length_map _))] at hwire
    exact hwire
  · intro old handler hpc
    have hsending : s.pc.sending = some old := by rw [hpc]; rfl
    obtain ⟨hpc', hall, hstatus⟩ := hinv.sent hsending
    refine ⟨?_, ?_⟩
    · show s.transmit.step.pc = _
      rw [Nic.step, hpc', hpc]
      dsimp only
      rw [if_neg hstatus]
      cases handler <;> rfl
    · exact hall

end Network
end NochOS
