import NochOS.Network.Progress

/-!
# Network - from the card to the caller

`get_package` hands out the packet that was copied last.  The packet goes through the buffer
of the card, the copy that `handleReceive` makes, and the copy for the caller, while other
clients use the heap.

Main results:

- Theorem `packets_delivered`: what `get_package` returns after any events, as long as the
  heap has room.
-/

namespace NochOS
namespace Network

open Library Heap

/-- A packet that is copied is not empty and the heap has room for it, counts have 32 bits, and
other clients keep to their objects. -/
def Suits (s : Nic) : NicEvent → Prop
  | .step =>
      match s.pc with
      | .copy len got _ => ¬ got.length < len →
          0 < got.length ∧ FreeRun s.net.kernel.heap (payloadOrder got.length)
      | _ => True
  | .getPackage nbytes => nbytes < 2 ^ 32
  | .client call => s.pc = .idle → call.Own s.net.kernel s.net.packageBuf
  | _ => True

/-- What holds of the buffer of the last packet. -/
structure NetInv (s : Nic) : Prop where
  ready : Ready s.net
  buffer : s.net.packageBuf ≠ 0
  last : ∀ packet, s.net.unread = some packet →
    ∃ p, s.copied.getLast? = some p ∧ p.bytes = packet
  short : ∀ packet ∈ s.accepted, packet.length ≤ maxPacket

namespace NetInv

variable {s s' : Nic}

/-- What is not about the buffer. -/
theorem of_same (h : NetInv s) (hnet : s'.net = s.net) (hcopied : s'.copied = s.copied)
    (haccepted : s'.accepted = s.accepted) : NetInv s' := by
  constructor
  · rw [hnet]
    exact h.ready
  · rw [hnet]
    exact h.buffer
  · rw [hnet, hcopied]
    exact h.last
  · rw [haccepted]
    exact h.short

/-- A packet is copied. -/
theorem step_copied (h : NetInv s) (hrx : RxInv s) {len began : Nat} {got : List UInt8}
    (hpc : s.pc = .copy len got began) (hdone : ¬ got.length < len) (hsuits : Suits s .step) :
    NetInv s.step := by
  have hstep : s.step =
      { s with
        net := handleReceive s.net got
        copied := s.copied ++ [⟨got, began, s.accepted.length⟩]
        pc := .cookie } := by
    rw [Nic.step, hpc]
    exact if_neg hdone
  have hroom : 0 < got.length ∧ FreeRun s.net.kernel.heap (payloadOrder got.length) := by
    unfold Suits at hsuits
    rw [hpc] at hsuits
    exact hsuits hdone
  have hcopying := hrx.copying
  rw [hpc] at hcopying
  obtain ⟨hlen, hgot, hk, hbegan, -⟩ := hcopying
  have hshort : got.length < 2 ^ 16 := by
    have hlt : s.released < s.accepted.length := Nat.lt_of_lt_of_le hk hbegan
    have hmax := h.short _ (List.getElem_mem hlt)
    rw [List.getD_eq_getElem _ _ hlt] at hlen
    unfold maxPacket at hmax
    omega
  have hready := (h.ready.receive hshort ⟨h.buffer, hroom⟩).2
  have hbuffer := (realloc_ne_null_iff s.net.kernel.heap s.net.packageBuf hshort).mpr hroom
  rw [hstep]
  refine ⟨hready, hbuffer, ?_, h.short⟩
  intro packet hpacket
  exact ⟨_, List.getLast?_concat, Option.some.inj hpacket⟩

/-- Every step of the driver. -/
theorem step (h : NetInv s) (hrx : RxInv s) (hsuits : Suits s .step) : NetInv s.step := by
  cases hpc : s.pc with
  | copy len got began =>
      by_cases hmore : got.length < len
      · rw [Nic.step, hpc]
        dsimp only
        rw [if_pos hmore]
        exact h.of_same rfl rfl rfl
      · exact h.step_copied hrx hpc hmore hsuits
  | address got =>
      rw [Nic.step, hpc]
      dsimp only
      split
      · exact h.of_same rfl rfl rfl
      · exact h.of_same rfl rfl rfl
  | waiting old handler =>
      rw [Nic.step, hpc]
      dsimp only
      split_ifs
      · exact h
      · exact h.of_same rfl rfl rfl
      · exact h.of_same rfl rfl rfl
  | _ =>
      rw [Nic.step, hpc]
      exact h.of_same rfl rfl rfl

/-- What comes while the driver is idle. -/
theorem whenIdle (h : NetInv s) {f : Nic → Nic} (hf : s.pc = .idle → NetInv (f s)) :
    NetInv (s.whenIdle f) := by
  cases hidle : s.pc with
  | idle =>
      rw [Nic.whenIdle, hidle]
      exact hf hidle
  | _ =>
      rw [Nic.whenIdle, hidle]
      exact h

/-- Every event. -/
theorem perform (h : NetInv s) (hrx : RxInv s) (e : NicEvent) (hsuits : Suits s e) :
    NetInv (s.perform e) := by
  cases e with
  | arrive packet =>
      show NetInv (s.arrive packet)
      by_cases haccepts : s.accepts packet = true
      · have hmax := ((hrx.accepts_iff packet).mp haccepts).1
        rw [Nic.arrive, if_pos haccepts]
        refine ⟨h.ready, h.buffer, h.last, fun p hp => ?_⟩
        obtain hold | hnew := List.mem_append.mp hp
        · exact h.short p hold
        · rw [List.mem_singleton.mp hnew]
          exact hmax
      · rw [Nic.arrive, if_neg haccepts]
        exact h
  | transmit =>
      show NetInv s.transmit
      unfold Nic.transmit
      split
      · exact h
      · exact h.of_same rfl rfl rfl
  | step => exact h.step hrx hsuits
  | interrupt status =>
      apply h.whenIdle
      intro _
      unfold Nic.fire
      split_ifs
      · exact h
      · exact h
      · exact h.of_same rfl rfl rfl
      · exact h
  | getIp => exact h.whenIdle fun _ => h.of_same rfl rfl rfl
  | getPackage nbytes =>
      apply h.whenIdle
      intro _
      have hget : (getPackage s.net nbytes).2.packageBuf = s.net.packageBuf ∧
          (getPackage s.net nbytes).2.unread = none := by
        unfold getPackage
        split
        · exact ⟨rfl, rfl⟩
        · exact ⟨rfl, rfl⟩
      refine ⟨(h.ready.getPackage nbytes).2, ?_, ?_, h.short⟩
      · show (getPackage s.net nbytes).2.packageBuf ≠ 0
        rw [hget.1]
        exact h.buffer
      · intro packet hpacket
        rw [hget.2] at hpacket
        contradiction
  | client call =>
      apply h.whenIdle
      exact fun hidle => ⟨h.ready.client (hsuits hidle), h.buffer, h.last, h.short⟩

end NetInv

/-- The buffer after the start. -/
theorem netInv_start {k : Kernel} (h : Consistent k.heap k.live)
    (hroom : FreeRun k.heap (payloadOrder 1024)) (rdh rdt tdh tdt : Nat) :
    NetInv (Nic.start k rdh rdt tdh tdt) where
  ready := ready_netStart h
  buffer := (alloc_ne_zero_iff k.heap 1024).mpr ⟨by decide, by decide, hroom⟩
  last := fun _ hpacket => nomatch hpacket
  short := fun _ hpacket => nomatch hpacket

/-- The buffer after any events. -/
theorem netInv_run (es : List NicEvent) {s : Nic} (h : NetInv s) (hrx : RxInv s)
    (hes : Along Nic.perform Suits s es) : NetInv (s.run es) := by
  induction es generalizing s with
  | nil => exact h
  | cons e es ih => exact ih (h.perform hrx e hes.1) (hrx.perform e) hes.2

/-- What `get_package` returns, as long as the heap has room for the packets: nothing if the
last packet was handed out before, and else the beginning of the packet that was copied last,
which is the last one handled, unless others came before it was copied. -/
theorem packets_delivered (table : BitVec 32) (k : Kernel)
    (hk : (heapSystem table).Reachable k) (hroom : FreeRun k.heap (payloadOrder 1024))
    (rdh rdt tdh tdt : Nat) (es : List NicEvent)
    (hes : Along Nic.perform Suits (Nic.start k rdh rdt tdh tdt) es) :
    let s := (Nic.start k rdh rdt tdh tdt).run es
    (∀ nbytes, (getPackage s.net nbytes).1 = delivery s.net.unread nbytes) ∧
      (∀ packet, s.net.unread = some packet →
        ∃ p, s.copied.getLast? = some p ∧ p.bytes = packet ∧
          (p.ended = s.copied.length → s.accepted[s.copied.length - 1]? = some packet)) := by
  intro s
  have hrx : RxInv s := rxInv_run es (rxInv_start k rdh rdt tdh tdt)
  have hinv : NetInv s := netInv_run es
    (netInv_start (heap_consistent table k hk).1 hroom rdh rdt tdh tdt)
    (rxInv_start k rdh rdt tdh tdt) hes
  refine ⟨fun nbytes => (hinv.ready.getPackage nbytes).1.2, fun packet hpacket => ?_⟩
  obtain ⟨p, hlast, hbytes⟩ := hinv.last packet hpacket
  refine ⟨p, hlast, hbytes, fun hended => ?_⟩
  have hpos : 0 < s.copied.length :=
    List.length_pos_iff.mpr fun hnil => by rw [hnil] at hlast; contradiction
  have hp : s.copied[s.copied.length - 1]? = some p := by
    rw [← List.getLast?_eq_getElem?]
    exact hlast
  rw [← hbytes]
  exact (hrx.copied _ p hp).intact (by omega)

/-- A heap with a clear page has room for a small packet. -/
theorem freeRun_zero {s : HeapState} (h : setCount s.heapMap heapEntry < heapEntry) :
    FreeRun s 0 := by
  obtain ⟨i, hi, hclear⟩ : ∃ i < heapEntry, bitAt s.heapMap i = false := by
    by_contra hnone
    have hall : setBits s.heapMap heapEntry = Finset.range heapEntry := by
      ext i
      rw [mem_setBits, Finset.mem_range]
      refine ⟨fun hset => hset.1, fun hi => ⟨hi, ?_⟩⟩
      by_contra hnot
      exact hnone ⟨i, hi, Bool.eq_false_of_not_eq_true hnot⟩
    rw [setCount, hall, Finset.card_range] at h
    exact absurd h (Nat.lt_irrefl _)
  refine ⟨i, one_dvd i, hi, fun j hlo hhi => ?_⟩
  obtain rfl : j = i := by
    rw [Nat.pow_zero] at hhi
    omega
  exact hclear

/-- The heap after `net_start` on a fresh one. -/
theorem freeRun_netStart : FreeRun (netStart ⟨heapInit 0 blankHeap, []⟩).kernel.heap 0 := by
  have hroom : FreeRun (heapInit 0 blankHeap) (payloadOrder 1024) :=
    freeRun_heapInit.mono (by decide)
  have hne : (malloc (heapInit 0 blankHeap) 1024).1 ≠ 0 :=
    (alloc_ne_zero_iff _ 1024).mpr ⟨by decide, by decide, hroom⟩
  have hzero : setCount (heapInit 0 blankHeap).heapMap heapEntry = 0 := by
    rw [setCount, Finset.card_eq_zero, Finset.eq_empty_iff_forall_notMem]
    intro i hset
    obtain ⟨hi, hbit⟩ := mem_setBits.mp hset
    have hclear : bitAt (heapInit 0 blankHeap).heapMap i = false :=
      Bitmap.bitAt_bitmapClear _ (by decide) hi
    exact Bool.false_ne_true (hclear.symm.trans hbit)
  apply freeRun_zero
  show setCount (malloc (heapInit 0 blankHeap) 1024).2.heapMap heapEntry < heapEntry
  have hcount : setCount (malloc (heapInit 0 blankHeap) 1024).2.heapMap heapEntry = _ :=
    setCount_alloc (by decide) hne
  rw [hcount, hzero]
  decide

/-- A packet of three bytes on a fresh heap. -/
theorem packets_delivered_three :
    let s := (Nic.start ⟨heapInit 0 blankHeap, []⟩ 0 0 0 0).run
      [.arrive [1, 2, 3], .interrupt 0x80, .step, .step, .step, .step, .step, .step]
    (∀ nbytes, (getPackage s.net nbytes).1 = delivery s.net.unread nbytes) ∧
      (∀ packet, s.net.unread = some packet →
        ∃ p, s.copied.getLast? = some p ∧ p.bytes = packet ∧
          (p.ended = s.copied.length → s.accepted[s.copied.length - 1]? = some packet)) := by
  refine packets_delivered 0 _ freshHeap_reachable (freeRun_heapInit.mono (by decide)) 0 0 0 0 _ ?_
  have hbyte : ∀ {n : Nat} {P : Prop}, n < 3 → ¬ n < 3 → P := fun hlt hnot => absurd hlt hnot
  exact ⟨trivial, trivial, trivial, trivial, hbyte (by decide), hbyte (by decide),
    hbyte (by decide), fun _ => ⟨by decide, freeRun_netStart⟩, trivial⟩

end Network
end NochOS
