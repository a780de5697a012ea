import NochOS.Network.Card

/-!
# Network - the ring of received packets

The card goes round the ring ahead of the driver.  Between the driver's position and the
card's the descriptors hold the lengths of the packets that wait; the others are empty.
Nothing of this depends on when the card acts.  What the driver copies does: all packets go
to one buffer, so that a packet which waits is lost when the next one comes.

Main results:

- Theorem `rxInv_run`: how the ring looks after any events.
- Theorem `receives_in_order`: packets are handled once each, in order, and are refused only
  if 31 wait.
- Theorem `copied_bytes`: what is copied of a packet.
-/

namespace NochOS
namespace Network

open Library

/-! ## The buffer -/

/-- What packets leave in the buffer, one written over the other. -/
def overlay (packets : List (List UInt8)) : Buf :=
  packets.foldl (fun b packet => memcpy b 0 (bytesOf packet) 0 packet.length) fun _ => 0

theorem overlay_append (packets : List (List UInt8)) (packet : List UInt8) :
    overlay (packets ++ [packet]) =
      memcpy (overlay packets) 0 (bytesOf packet) 0 packet.length := by
  rw [overlay, List.foldl_append]
  rfl

/-- The newest packet is in the buffer. -/
theorem overlay_last {packets : List (List UInt8)} {n i : Nat} (hn : n < packets.length)
    (hi : i < packets[n].length) : overlay (packets.take (n + 1)) i = packets[n][i] := by
  rw [List.take_succ_eq_append_getElem hn, overlay_append, memcpy_inside (Nat.zero_le _) (by omega),
    Nat.zero_add, Nat.sub_zero, bytesOf, List.getD_eq_getElem _ _ hi]

/-- The bytes of the newest of the packets which reaches so far. -/
theorem overlay_take_append {packets : List (List UInt8)} (packet : List UInt8) {n : Nat}
    (hn : n ≤ packets.length) :
    overlay ((packets ++ [packet]).take n) = overlay (packets.take n) := by
  rw [List.take_append_of_le_length hn]

/-! ## The invariant -/

namespace Pc

/-- The packet at the driver's position is copied. -/
def held : Pc → Nat
  | cookie => 1
  | cookie' => 1
  | address _ => 1
  | waiting _ handler => if handler then 1 else 0
  | clear => 1
  | advance => 1
  | _ => 0

/-- The descriptor at the driver's position is cleared. -/
def cleared : Pc → Nat
  | advance => 1
  | _ => 0

/-- The driver handles a packet. -/
def busy : Pc → Bool
  | idle => false
  | test => false
  | waiting _ handler => handler
  | _ => true

end Pc

/-- The descriptors that the driver has given back. -/
def Nic.released (s : Nic) : Nat := s.copied.length - s.pc.held

/-- Each byte was in the buffer at some moment between two others. -/
def Seen (accepted : List (List UInt8)) (bytes : List UInt8) (began ended : Nat) : Prop :=
  ∀ i < bytes.length, ∃ n, began ≤ n ∧ n ≤ ended ∧ bytes.getD i 0 = overlay (accepted.take n) i

/-- What holds while a packet is copied. -/
def Copying (accepted : List (List UInt8)) (k : Nat) : Pc → Prop
  | .copy len got began => len = (accepted.getD k []).length ∧ got.length ≤ len ∧ k < began ∧
      began ≤ accepted.length ∧ Seen accepted got began accepted.length
  | _ => True

/-- What holds of a packet that was copied. -/
structure CopyOf (accepted : List (List UInt8)) (k : Nat) (p : Copied) : Prop where
  length : p.bytes.length = (accepted.getD k []).length
  began : k < p.began
  order : p.began ≤ p.ended
  ended : p.ended ≤ accepted.length
  seen : Seen accepted p.bytes p.began p.ended

/-- The packet is copied and its descriptor is not cleared yet. -/
structure Pc.Between (pc : Pc) : Prop where
  held : pc.held = 1
  cleared : pc.cleared = 0
  busy : pc.busy = true
  copying : ∀ accepted k, Copying accepted k pc

theorem Pc.between_cookie : Between cookie := ⟨rfl, rfl, rfl, fun _ _ => trivial⟩

theorem Pc.between_cookie' : Between cookie' := ⟨rfl, rfl, rfl, fun _ _ => trivial⟩

theorem Pc.between_address (got : List UInt8) : Between (address got) :=
  ⟨rfl, rfl, rfl, fun _ _ => trivial⟩

theorem Pc.between_waiting (old : Nat) : Between (waiting old true) :=
  ⟨rfl, rfl, rfl, fun _ _ => trivial⟩

theorem Pc.between_clear : Between clear := ⟨rfl, rfl, rfl, fun _ _ => trivial⟩

/-- The driver handles no packet. -/
structure Pc.AtRest (pc : Pc) : Prop where
  held : pc.held = 0
  cleared : pc.cleared = 0
  busy : pc.busy = false
  copying : ∀ accepted k, Copying accepted k pc

theorem Pc.atRest_idle : AtRest idle := ⟨rfl, rfl, rfl, fun _ _ => trivial⟩

theorem Pc.atRest_test : AtRest test := ⟨rfl, rfl, rfl, fun _ _ => trivial⟩

theorem Pc.atRest_waiting (old : Nat) : AtRest (waiting old false) :=
  ⟨rfl, rfl, rfl, fun _ _ => trivial⟩

/-- How the ring looks. -/
structure RxInv (s : Nic) : Prop where
  held : s.pc.held ≤ s.copied.length
  rdh : s.rdh = s.accepted.length % numRxDesc
  rxCur : s.rxCur = s.released % numRxDesc
  rdt : s.rdt = (s.released + 31) % numRxDesc
  behind : s.released ≤ s.accepted.length
  room : s.accepted.length ≤ s.released + 31
  busy : s.pc.busy = true → s.released < s.accepted.length
  filled : Slots.Holds numRxDesc s.rxDescs (s.released + s.pc.cleared) s.accepted.length
    fun k d => d = ⟨(s.accepted.getD k []).length, 0x3⟩
  free : Slots.Holds numRxDesc s.rxDescs s.accepted.length
    (s.released + s.pc.cleared + numRxDesc) fun _ d => d.status = 0
  temp : s.rxTemp = overlay s.accepted
  copying : Copying s.accepted s.released s.pc
  copied : ∀ k p, s.copied[k]? = some p → CopyOf s.accepted k p

/-- Nothing of the receiving side changes. -/
structure SameRx (s s' : Nic) : Prop where
  rxDescs : s'.rxDescs = s.rxDescs
  rxTemp : s'.rxTemp = s.rxTemp
  rdh : s'.rdh = s.rdh
  rdt : s'.rdt = s.rdt
  rxCur : s'.rxCur = s.rxCur
  accepted : s'.accepted = s.accepted
  copied : s'.copied = s.copied

/-- Steps of the driver that are not about the ring. -/
theorem RxInv.of_same {s s' : Nic} (h : RxInv s) (hsame : SameRx s s')
    (hheld : s'.pc.held = s.pc.held) (hcleared : s'.pc.cleared = s.pc.cleared)
    (hbusy : s'.pc.busy = true → s.released < s.accepted.length)
    (hcopying : Copying s.accepted s.released s'.pc) : RxInv s' := by
  have hreleased : s'.released = s.released := by
    rw [Nic.released, Nic.released, hsame.copied, hheld]
  constructor
  · rw [hheld, hsame.copied]
    exact h.held
  · rw [hsame.rdh, hsame.accepted]
    exact h.rdh
  · rw [hsame.rxCur, hreleased]
    exact h.rxCur
  · rw [hsame.rdt, hreleased]
    exact h.rdt
  · rw [hsame.accepted, hreleased]
    exact h.behind
  · rw [hsame.accepted, hreleased]
    exact h.room
  · rw [hsame.accepted, hreleased]
    exact hbusy
  · rw [hsame.rxDescs, hsame.accepted, hreleased, hcleared]
    exact h.filled
  · rw [hsame.rxDescs, hsame.accepted, hreleased, hcleared]
    exact h.free
  · rw [hsame.rxTemp, hsame.accepted]
    exact h.temp
  · rw [hsame.accepted, hreleased]
    exact hcopying
  · rw [hsame.accepted, hsame.copied]
    exact h.copied

/-! ## A packet arrives -/

/-- The card refuses a packet exactly if it is too long or 31 packets wait. -/
theorem RxInv.accepts_iff {s : Nic} (h : RxInv s) (packet : List UInt8) :
    s.accepts packet = true ↔
      packet.length ≤ maxPacket ∧ s.accepted.length < s.released + 31 := by
  have hle := h.behind
  have hroom := h.room
  have hhead : s.rdh = s.rdt ↔ s.accepted.length = s.released + 31 := by
    rw [h.rdh, h.rdt]
    constructor
    · intro hmod
      have hhi : s.accepted.length < s.released + numRxDesc := by
        simp only [numRxDesc]
        omega
      exact Slots.slot_inj hle hhi (by omega) (by simp only [numRxDesc]; omega) hmod
    · intro heq
      rw [heq]
  simp only [Nic.accepts, Bool.and_eq_true, decide_eq_true_eq]
  constructor
  · rintro ⟨hlen, hne⟩
    exact ⟨hlen, Nat.lt_of_le_of_ne hroom fun heq => hne (hhead.mpr heq)⟩
  · rintro ⟨hlen, hlt⟩
    exact ⟨hlen, fun heq => absurd (hhead.mp heq) (Nat.ne_of_lt hlt)⟩

theorem getD_append {α : Type} (l : List α) (x d : α) {k : Nat} (hk : k < l.length) :
    (l ++ [x]).getD k d = l.getD k d :=
  List.getD_append l [x] d k hk

/-- An element of a list with one more at its end. -/
theorem getElem?_concat_cases {α : Type} {l : List α} {x y : α} {k : Nat}
    (h : (l ++ [x])[k]? = some y) : (k < l.length ∧ l[k]? = some y) ∨ (k = l.length ∧ y = x) := by
  by_cases hold : k < l.length
  · rw [List.getElem?_append_left hold] at h
    exact Or.inl ⟨hold, h⟩
  · have hbound := (List.getElem?_eq_some_iff.mp h).1
    rw [List.length_append, List.length_singleton] at hbound
    obtain rfl : k = l.length := by omega
    rw [List.getElem?_concat_length] at h
    exact Or.inr ⟨rfl, (Option.some.inj h).symm⟩

theorem Seen.widen {accepted : List (List UInt8)} {bytes : List UInt8} {began ended : Nat}
    (h : Seen accepted bytes began ended) {ended' : Nat} (hle : ended ≤ ended') :
    Seen accepted bytes began ended' := by
  intro i hi
  obtain ⟨n, hlo, hhi, hbyte⟩ := h i hi
  exact ⟨n, hlo, Nat.le_trans hhi hle, hbyte⟩

theorem Seen.append {accepted : List (List UInt8)} {bytes : List UInt8} {began ended : Nat}
    (h : Seen accepted bytes began ended) (hended : ended ≤ accepted.length)
    (packet : List UInt8) : Seen (accepted ++ [packet]) bytes began ended := by
  intro i hi
  obtain ⟨n, hlo, hhi, hbyte⟩ := h i hi
  exact ⟨n, hlo, hhi, by rw [overlay_take_append packet (Nat.le_trans hhi hended), hbyte]⟩

/-- If no packet comes while a packet is copied, the newest one is copied in its place. -/
theorem CopyOf.newest {accepted : List (List UInt8)} {k : Nat} {p : Copied}
    (h : CopyOf accepted k p) (heq : p.ended = p.began) :
    ∀ i < p.bytes.length, i < (accepted.getD (p.began - 1) []).length →
      p.bytes.getD i 0 = (accepted.getD (p.began - 1) []).getD i 0 := by
  intro i hi hreach
  have hbegan := h.began
  have hended := h.ended
  have hacc : p.began - 1 < accepted.length := by omega
  obtain ⟨n, hlo, hhi, hbyte⟩ := h.seen i hi
  rw [List.getD_eq_getElem _ _ hacc] at hreach ⊢
  rw [hbyte, show n = p.began - 1 + 1 by omega, overlay_last hacc hreach,
    List.getD_eq_getElem _ _ hreach]

/-- If no packet comes before a packet is copied, it is copied as it is. -/
theorem CopyOf.intact {accepted : List (List UInt8)} {k : Nat} {p : Copied}
    (h : CopyOf accepted k p) (hlast : p.ended = k + 1) : accepted[k]? = some p.bytes := by
  have hbegan := h.began
  have horder := h.order
  have hended := h.ended
  have hacc : k < accepted.length := by omega
  have hitself := h.newest (by omega)
  have hlen := h.length
  rw [show p.began - 1 = k by omega, List.getD_eq_getElem _ _ hacc] at hitself
  rw [List.getD_eq_getElem _ _ hacc] at hlen
  rw [List.getElem?_eq_getElem hacc]
  congr 1
  symm
  apply List.ext_getElem hlen
  intro i hi hi'
  have hbyte := hitself i hi hi'
  rw [List.getD_eq_getElem _ _ hi, List.getD_eq_getElem _ _ hi'] at hbyte
  exact hbyte

theorem CopyOf.append {accepted : List (List UInt8)} {k : Nat} {p : Copied}
    (h : CopyOf accepted k p) (packet : List UInt8) : CopyOf (accepted ++ [packet]) k p where
  length := by
    have hk : k < accepted.length := by
      have h₁ := h.began
      have h₂ := h.order
      have h₃ := h.ended
      omega
    rw [getD_append _ _ _ hk]
    exact h.length
  began := h.began
  order := h.order
  ended := by
    rw [List.length_append]
    exact Nat.le_trans h.ended (Nat.le_add_right _ _)
  seen := h.seen.append h.ended packet

theorem Copying.append {accepted : List (List UInt8)} {k : Nat} {pc : Pc}
    (h : Copying accepted k pc) (packet : List UInt8) : Copying (accepted ++ [packet]) k pc := by
  cases pc with
  | copy len got began =>
      obtain ⟨hlen, hgot, hk, hbegan, hseen⟩ := h
      have hlonger : accepted.length ≤ (accepted ++ [packet]).length := by
        rw [List.length_append]
        exact Nat.le_add_right _ _
      refine ⟨?_, hgot, hk, Nat.le_trans hbegan hlonger, ?_⟩
      · rw [getD_append _ _ _ (by omega)]
        exact hlen
      · exact (hseen.append (Nat.le_refl _) packet).widen hlonger
  | _ => trivial

/-- A packet arrives. -/
theorem RxInv.arrive {s : Nic} (h : RxInv s) (packet : List UInt8) : RxInv (s.arrive packet) := by
  by_cases haccepts : s.accepts packet = true
  · have hlt := ((h.accepts_iff packet).mp haccepts).2
    have hlen : (s.accepted ++ [packet]).length = s.accepted.length + 1 := by
      rw [List.length_append]
      rfl
    have hnew : (s.accepted ++ [packet]).getD s.accepted.length [] = packet := by simp
    have hbehind := h.behind
    -- a descriptor that is cleared but not given back belongs to a packet that waits
    have hcleared : s.released + s.pc.cleared ≤ s.accepted.length := by
      cases hpc : s.pc with
      | advance =>
          have hbusy := h.busy (by rw [hpc]; rfl)
          simp only [Pc.cleared]
          omega
      | _ => exact hbehind
    rw [Nic.arrive, if_pos haccepts]
    constructor
    · exact h.held
    · show (s.rdh + 1) % numRxDesc = (s.accepted ++ [packet]).length % numRxDesc
      rw [h.rdh, hlen, Nat.mod_add_mod]
    · exact h.rxCur
    · exact h.rdt
    · show s.released ≤ (s.accepted ++ [packet]).length
      omega
    · show (s.accepted ++ [packet]).length ≤ s.released + 31
      omega
    · intro hbusy
      have hwaits : s.released < s.accepted.length := h.busy hbusy
      show s.released < (s.accepted ++ [packet]).length
      omega
    · show Slots.Holds numRxDesc (Function.update s.rxDescs s.rdh ⟨packet.length, 0x3⟩)
        (s.released + s.pc.cleared) (s.accepted ++ [packet]).length _
      rw [hlen, h.rdh]
      refine Slots.Holds.write_last ?_ (by simp only [numRxDesc]; omega) ?_
      · intro k hlo hhi
        rw [getD_append _ _ _ hhi]
        exact h.filled k hlo hhi
      · show (⟨packet.length, 0x3⟩ : RxDesc) =
          ⟨((s.accepted ++ [packet]).getD s.accepted.length []).length, 0x3⟩
        rw [hnew]
    · show Slots.Holds numRxDesc (Function.update s.rxDescs s.rdh ⟨packet.length, 0x3⟩)
        (s.accepted ++ [packet]).length (s.released + s.pc.cleared + numRxDesc) _
      rw [hlen, h.rdh]
      have hrest := h.free.shrink (Nat.le_succ s.accepted.length) (Nat.le_refl _)
      exact hrest.write_outside (Or.inr (by omega)) (by omega) (by omega) _
    · show memcpy s.rxTemp 0 (bytesOf packet) 0 packet.length = overlay (s.accepted ++ [packet])
      rw [overlay_append, h.temp]
    · exact h.copying.append packet
    · intro k p hp
      exact (h.copied k p hp).append packet
  · rw [Nic.arrive, if_neg haccepts]
    exact h

/-! ## The steps of the driver -/

namespace RxInv

variable {s : Nic}

/-- The descriptor at the driver's position. -/
theorem current (h : RxInv s) (hcleared : s.pc.cleared = 0) (hlt : s.released < s.accepted.length) :
    s.rxDescs s.rxCur = ⟨(s.accepted.getD s.released []).length, 0x3⟩ := by
  have hfilled := h.filled s.released (by rw [hcleared]; exact Nat.le_refl _) hlt
  rw [h.rxCur]
  exact hfilled

/-- The loop goes on exactly if a packet waits. -/
theorem test_iff (h : RxInv s) (hpc : s.pc = .test) :
    (s.rxDescs s.rxCur).status &&& 0x1 ≠ 0 ↔ s.released < s.accepted.length := by
  have hcleared : s.pc.cleared = 0 := by rw [hpc]; rfl
  constructor
  · intro hset
    by_contra hnot
    have heq : s.released = s.accepted.length := Nat.le_antisymm h.behind (Nat.le_of_not_lt hnot)
    have hempty := h.free s.accepted.length (Nat.le_refl _) (by simp only [numRxDesc]; omega)
    rw [← heq, ← h.rxCur] at hempty
    rw [hempty] at hset
    exact hset rfl
  · intro hlt
    rw [h.current hcleared hlt]
    exact (show 0x3 &&& 0x1 ≠ 0 by decide)

theorem step_test (h : RxInv s) (hpc : s.pc = .test) : RxInv s.step := by
  have hstep : s.step = { s with
      pc := if (s.rxDescs s.rxCur).status &&& 0x1 ≠ 0 then .length else .idle } := by
    rw [Nic.step, hpc]
  have hsame : SameRx s s.step := by
    rw [hstep]
    exact ⟨rfl, rfl, rfl, rfl, rfl, rfl, rfl⟩
  refine h.of_same hsame ?_ ?_ ?_ ?_
  · rw [hstep, hpc]
    show Pc.held (if _ then _ else _) = _
    split <;> rfl
  · rw [hstep, hpc]
    show Pc.cleared (if _ then _ else _) = _
    split <;> rfl
  · intro hbusy
    rw [hstep] at hbusy
    apply (h.test_iff hpc).mp
    intro hzero
    rw [if_neg (not_not_intro hzero)] at hbusy
    contradiction
  · rw [hstep]
    show Copying _ _ (if _ then _ else _)
    split <;> trivial

theorem step_length (h : RxInv s) (hpc : s.pc = .length) : RxInv s.step := by
  have hstep : s.step =
      { s with pc := .copy (s.rxDescs s.rxCur).length [] s.accepted.length } := by
    rw [Nic.step, hpc]
  have hlt : s.released < s.accepted.length := h.busy (by rw [hpc]; rfl)
  have hsame : SameRx s s.step := by
    rw [hstep]
    exact ⟨rfl, rfl, rfl, rfl, rfl, rfl, rfl⟩
  refine h.of_same hsame (by rw [hstep, hpc]; rfl) (by rw [hstep, hpc]; rfl) (fun _ => hlt) ?_
  rw [hstep]
  refine ⟨?_, Nat.zero_le _, hlt, Nat.le_refl _, ?_⟩
  · rw [h.current (by rw [hpc]; rfl) hlt]
  · intro i hi
    exact absurd hi (Nat.not_lt_zero i)

/-- One more byte is copied. -/
theorem step_byte (h : RxInv s) {len began : Nat} {got : List UInt8}
    (hpc : s.pc = .copy len got began) (hmore : got.length < len) : RxInv s.step := by
  have hstep : s.step =
      { s with pc := .copy len (got ++ [s.rxTemp got.length]) began } := by
    rw [Nic.step, hpc]
    exact if_pos hmore
  have hlt : s.released < s.accepted.length := h.busy (by rw [hpc]; rfl)
  have hsame : SameRx s s.step := by
    rw [hstep]
    exact ⟨rfl, rfl, rfl, rfl, rfl, rfl, rfl⟩
  have hcopying := h.copying
  rw [hpc] at hcopying
  obtain ⟨hlen, -, hk, hbegan, hseen⟩ := hcopying
  refine h.of_same hsame (by rw [hstep, hpc]; rfl) (by rw [hstep, hpc]; rfl) (fun _ => hlt) ?_
  rw [hstep]
  refine ⟨hlen, ?_, hk, hbegan, ?_⟩
  · rw [List.length_append]
    exact hmore
  · intro i hi
    rw [List.length_append, List.length_singleton] at hi
    by_cases hold : i < got.length
    · rw [getD_append _ _ _ hold]
      exact hseen i hold
    · obtain rfl : i = got.length := by omega
      refine ⟨s.accepted.length, hbegan, Nat.le_refl _, ?_⟩
      rw [List.take_length, ← h.temp]
      simp

/-- The packet is copied. -/
theorem step_copied (h : RxInv s) {len began : Nat} {got : List UInt8}
    (hpc : s.pc = .copy len got began) (hdone : ¬ got.length < len) : RxInv s.step := by
  have hstep : s.step =
      { s with
        net := handleReceive s.net got
        copied := s.copied ++ [⟨got, began, s.accepted.length⟩]
        pc := .cookie } := by
    rw [Nic.step, hpc]
    exact if_neg hdone
  have hlt : s.released < s.accepted.length := h.busy (by rw [hpc]; rfl)
  have hcopying := h.copying
  rw [hpc] at hcopying
  obtain ⟨hlen, hgot, hk, hbegan, hseen⟩ := hcopying
  have hheld : s.released = s.copied.length := by
    rw [Nic.released, hpc]
    rfl
  have hreleased : s.step.released = s.released := by
    rw [hheld, hstep]
    show (s.copied ++ [_]).length - 1 = _
    rw [List.length_append]
    rfl
  have hcleared : s.pc.cleared = 0 := by rw [hpc]; rfl
  have hfilled := h.filled
  have hfree := h.free
  rw [hcleared] at hfilled hfree
  have hcopied : ∀ k p, (s.copied ++ [⟨got, began, s.accepted.length⟩])[k]? = some p →
      CopyOf s.accepted k p := by
    intro k p hp
    obtain ⟨-, hold⟩ | ⟨rfl, rfl⟩ := getElem?_concat_cases hp
    · exact h.copied k p hold
    · rw [hheld] at hk hlen
      exact ⟨by simp only; omega, hk, hbegan, Nat.le_refl _, hseen⟩
  constructor
  · rw [hstep]
    show 1 ≤ (s.copied ++ [_]).length
    rw [List.length_append]
    exact Nat.le_add_left _ _
  · rw [hstep]
    exact h.rdh
  · rw [hreleased, hstep]
    exact h.rxCur
  · rw [hreleased, hstep]
    exact h.rdt
  · rw [hreleased, hstep]
    exact h.behind
  · rw [hreleased, hstep]
    exact h.room
  · rw [hreleased, hstep]
    exact fun _ => hlt
  · rw [hreleased, hstep]
    exact hfilled
  · rw [hreleased, hstep]
    exact hfree
  · rw [hstep]
    exact h.temp
  · rw [hstep]
    trivial
  · rw [hstep]
    exact hcopied

/-- The descriptor at the driver's position is cleared. -/
theorem step_clear (h : RxInv s) (hpc : s.pc = .clear) : RxInv s.step := by
  have hstep : s.step =
      { s with
        rxDescs := Function.update s.rxDescs s.rxCur { s.rxDescs s.rxCur with status := 0 }
        pc := .advance } := by
    rw [Nic.step, hpc]
  have hlt : s.released < s.accepted.length := h.busy (by rw [hpc]; rfl)
  have hheld : s.pc.held = 1 := by rw [hpc]; rfl
  have hcleared : s.pc.cleared = 0 := by rw [hpc]; rfl
  have hreleased : s.step.released = s.released := by
    rw [Nic.released, Nic.released, hstep, hheld]
    rfl
  have hroom := h.room
  have hfilled := h.filled
  have hfree := h.free
  rw [hcleared] at hfilled hfree
  constructor
  · rw [hstep]
    show 1 ≤ s.copied.length
    rw [← hheld]
    exact h.held
  · rw [hstep]
    exact h.rdh
  · rw [hreleased, hstep]
    exact h.rxCur
  · rw [hreleased, hstep]
    exact h.rdt
  · rw [hreleased, hstep]
    exact h.behind
  · rw [hreleased, hstep]
    exact hroom
  · rw [hreleased, hstep]
    exact fun _ => hlt
  · rw [hreleased, hstep]
    show Slots.Holds numRxDesc (Function.update s.rxDescs s.rxCur _) (s.released + 1) _ _
    rw [h.rxCur]
    have hrest := hfilled.shrink (Nat.le_succ _) (Nat.le_refl _)
    exact hrest.write_outside (Or.inr (Nat.lt_succ_self _)) (by omega)
      (by simp only [numRxDesc]; omega) _
  · rw [hreleased, hstep]
    show Slots.Holds numRxDesc (Function.update s.rxDescs s.rxCur _) _
      (s.released + 1 + numRxDesc) _
    have hslot : s.rxCur = (s.released + numRxDesc) % numRxDesc := by
      rw [Nat.add_mod_right]
      exact h.rxCur
    rw [hslot, Nat.add_right_comm]
    exact hfree.write_last (by omega) rfl
  · rw [hstep]
    exact h.temp
  · rw [hstep]
    trivial
  · rw [hstep]
    exact h.copied

/-- The descriptor is given back. -/
theorem step_advance (h : RxInv s) (hpc : s.pc = .advance) : RxInv s.step := by
  have hstep : s.step =
      { s with
        rxCur := (s.rxCur + 1) % numRxDesc
        rdt := s.rxCur
        pc := .test } := by
    rw [Nic.step, hpc]
  have hlt : s.released < s.accepted.length := h.busy (by rw [hpc]; rfl)
  have hheld : s.pc.held = 1 := by rw [hpc]; rfl
  have hcleared : s.pc.cleared = 1 := by rw [hpc]; rfl
  have hpos := h.held
  have hreleased : s.step.released = s.released + 1 := by
    rw [Nic.released, Nic.released, hstep, hheld]
    show s.copied.length - 0 = _
    omega
  have hroom := h.room
  have hfilled := h.filled
  have hfree := h.free
  rw [hcleared] at hfilled hfree
  constructor
  · rw [hstep]
    exact Nat.zero_le _
  · rw [hstep]
    exact h.rdh
  · rw [hreleased, hstep]
    show (s.rxCur + 1) % numRxDesc = _
    rw [h.rxCur, Nat.mod_add_mod]
  · rw [hreleased, hstep]
    show s.rxCur = _
    rw [h.rxCur, Nat.add_right_comm, Nat.add_assoc]
    exact (Nat.add_mod_right s.released numRxDesc).symm
  · rw [hreleased, hstep]
    exact hlt
  · rw [hreleased, hstep]
    show s.accepted.length ≤ s.released + 1 + 31
    omega
  · rw [hreleased, hstep]
    intro hbusy
    contradiction
  · rw [hreleased, hstep]
    exact hfilled
  · rw [hreleased, hstep]
    exact hfree
  · rw [hstep]
    exact h.temp
  · rw [hstep]
    trivial
  · rw [hstep]
    exact h.copied

/-- The steps between the copying and the clearing. -/
theorem step_between (h : RxInv s) (hbefore : s.pc.Between) (hsame : SameRx s s.step)
    (hafter : s.step.pc.Between) : RxInv s.step := by
  apply h.of_same hsame
  · rw [hafter.held, hbefore.held]
  · rw [hafter.cleared, hbefore.cleared]
  · exact fun _ => h.busy hbefore.busy
  · exact hafter.copying _ _

/-- Waiting for the card. -/
theorem step_waiting (h : RxInv s) {old : Nat} {handler : Bool}
    (hpc : s.pc = .waiting old handler) : RxInv s.step := by
  by_cases hbusy : (s.txDescs old).status &&& 0xff = 0
  · have hstep : s.step = s := by
      rw [Nic.step, hpc]
      exact if_pos hbusy
    rw [hstep]
    exact h
  · cases handler with
    | true =>
        have hstep : s.step = { s with sendDhcp := 1, pc := .clear } := by
          rw [Nic.step, hpc]
          exact if_neg hbusy
        apply h.step_between
        · rw [hpc]
          exact Pc.between_waiting old
        · rw [hstep]
          exact ⟨rfl, rfl, rfl, rfl, rfl, rfl, rfl⟩
        · rw [hstep]
          exact Pc.between_clear
    | false =>
        have hstep : s.step = { s with pc := .idle } := by
          rw [Nic.step, hpc]
          exact if_neg hbusy
        have hsame : SameRx s s.step := by
          rw [hstep]
          exact ⟨rfl, rfl, rfl, rfl, rfl, rfl, rfl⟩
        apply h.of_same hsame
        · rw [hstep, hpc]
          rfl
        · rw [hstep, hpc]
          rfl
        · rw [hstep]
          intro hb
          contradiction
        · rw [hstep]
          trivial

/-- One byte of the address is read, or the request is sent. -/
theorem step_address (h : RxInv s) {got : List UInt8} (hpc : s.pc = .address got) :
    RxInv s.step := by
  have hbefore : s.pc.Between := by
    rw [hpc]
    exact Pc.between_address got
  by_cases hmore : got.length < 4
  · have hstep : s.step =
        { s with
          ip := Function.update s.ip got.length (s.rxTemp (58 + got.length)).toNat
          pc := .address (got ++ [s.rxTemp (58 + got.length)]) } := by
      rw [Nic.step, hpc]
      exact if_pos hmore
    apply h.step_between hbefore
    · rw [hstep]
      exact ⟨rfl, rfl, rfl, rfl, rfl, rfl, rfl⟩
    · rw [hstep]
      exact Pc.between_address _
  · have hstep : s.step =
        Nic.sendPacket { s with c := sendDhcpRequest s.ip s.c } (some got) true := by
      rw [Nic.step, hpc]
      exact if_neg hmore
    apply h.step_between hbefore
    · rw [hstep]
      exact ⟨rfl, rfl, rfl, rfl, rfl, rfl, rfl⟩
    · rw [hstep]
      exact Pc.between_waiting _

/-- Every step of the driver. -/
theorem step (h : RxInv s) : RxInv s.step := by
  cases hpc : s.pc with
  | idle =>
      have hstep : s.step = s := by rw [Nic.step, hpc]
      rw [hstep]
      exact h
  | test => exact h.step_test hpc
  | length => exact h.step_length hpc
  | copy len got began =>
      by_cases hmore : got.length < len
      · exact h.step_byte hpc hmore
      · exact h.step_copied hpc hmore
  | cookie =>
      have hstep : s.step = { s with pc := if s.rxTemp 278 = 0x63 then .cookie' else .clear } := by
        rw [Nic.step, hpc]
      apply h.step_between
      · rw [hpc]
        exact Pc.between_cookie
      · rw [hstep]
        exact ⟨rfl, rfl, rfl, rfl, rfl, rfl, rfl⟩
      · rw [hstep]
        show Pc.Between (if _ then _ else _)
        split
        · exact Pc.between_cookie'
        · exact Pc.between_clear
  | cookie' =>
      have hstep : s.step = { s with
          pc := if s.rxTemp 279 = 0x82 ∧ s.sendDhcp = 0 then .address [] else .clear } := by
        rw [Nic.step, hpc]
      apply h.step_between
      · rw [hpc]
        exact Pc.between_cookie'
      · rw [hstep]
        exact ⟨rfl, rfl, rfl, rfl, rfl, rfl, rfl⟩
      · rw [hstep]
        show Pc.Between (if _ then _ else _)
        split
        · exact Pc.between_address []
        · exact Pc.between_clear
  | address got => exact h.step_address hpc
  | waiting old handler => exact h.step_waiting hpc
  | clear => exact h.step_clear hpc
  | advance => exact h.step_advance hpc

/-- The card sends a packet. -/
theorem transmit (h : RxInv s) : RxInv s.transmit := by
  by_cases hnone : s.tdh = s.tdt
  · rw [Nic.transmit, if_pos hnone]
    exact h
  · rw [Nic.transmit, if_neg hnone]
    exact h.of_same ⟨rfl, rfl, rfl, rfl, rfl, rfl, rfl⟩ rfl rfl h.busy h.copying

/-- What comes while the driver is idle. -/
theorem whenIdle (h : RxInv s) {f : Nic → Nic} (hsame : SameRx s (f s))
    (hpc : s.pc = .idle → (f s).pc.AtRest) : RxInv (s.whenIdle f) := by
  cases hidle : s.pc with
  | idle =>
      have hf : s.whenIdle f = f s := by rw [Nic.whenIdle, hidle]
      have hrest := hpc hidle
      rw [hf]
      apply h.of_same hsame
      · rw [hrest.held, hidle]
        rfl
      · rw [hrest.cleared, hidle]
        rfl
      · intro hbusy
        rw [hrest.busy] at hbusy
        contradiction
      · exact hrest.copying _ _
  | _ =>
      rw [Nic.whenIdle, hidle]
      exact h

/-- Every event. -/
theorem perform (h : RxInv s) (e : NicEvent) : RxInv (s.perform e) := by
  cases e with
  | arrive packet => exact h.arrive packet
  | transmit => exact h.transmit
  | step => exact h.step
  | interrupt status =>
      apply h.whenIdle
      · unfold Nic.fire
        split_ifs <;> exact ⟨rfl, rfl, rfl, rfl, rfl, rfl, rfl⟩
      · intro hidle
        have hrest : s.pc.AtRest := by
          rw [hidle]
          exact Pc.atRest_idle
        unfold Nic.fire
        split_ifs
        · exact hrest
        · exact hrest
        · exact Pc.atRest_test
        · exact hrest
  | getIp =>
      exact h.whenIdle ⟨rfl, rfl, rfl, rfl, rfl, rfl, rfl⟩ fun _ => Pc.atRest_waiting s.txCur
  | getPackage nbytes =>
      apply h.whenIdle ⟨rfl, rfl, rfl, rfl, rfl, rfl, rfl⟩
      intro hidle
      show s.pc.AtRest
      rw [hidle]
      exact Pc.atRest_idle
  | client call =>
      apply h.whenIdle ⟨rfl, rfl, rfl, rfl, rfl, rfl, rfl⟩
      intro hidle
      show s.pc.AtRest
      rw [hidle]
      exact Pc.atRest_idle

end RxInv

/-- The ring after the start. -/
theorem rxInv_start (k : Heap.Kernel) (rdh rdt tdh tdt : Nat) :
    RxInv (Nic.start k rdh rdt tdh tdt) where
  held := Nat.le_refl _
  rdh := rfl
  rxCur := rfl
  rdt := rfl
  behind := Nat.le_refl _
  room := Nat.zero_le _
  busy := fun hbusy => nomatch hbusy
  filled := fun k _ hk => absurd hk (Nat.not_lt_zero k)
  free := by
    intro k _ _
    show RxDesc.status (if k % numRxDesc < numRxDesc then _ else _) = 0
    rw [if_pos (Nat.mod_lt k (by decide))]
  temp := rfl
  copying := trivial
  copied := fun k p hp => by
    rw [show (Nic.start _ rdh rdt tdh tdt).copied = [] from rfl, List.getElem?_nil] at hp
    contradiction

/-- The ring after any events. -/
theorem rxInv_run (es : List NicEvent) {s : Nic} (h : RxInv s) : RxInv (s.run es) := by
  induction es generalizing s with
  | nil => exact h
  | cons e es ih => exact ih (h.perform e)

/-! ## What is received -/

/-- Packets are handled in the order in which the card took them, each once and with its
length; the card refuses a packet only if it is too long or 31 packets wait; and the driver
leaves its loop only when no packet waits. -/
theorem receives_in_order (k : Heap.Kernel) (rdh rdt tdh tdt : Nat) (es : List NicEvent) :
    let s := (Nic.start k rdh rdt tdh tdt).run es
    (s.copied.map fun p => p.bytes.length) <+: s.accepted.map List.length ∧
      (∀ packet, (s.perform (.arrive packet)).accepted =
        if packet.length ≤ maxPacket ∧ s.accepted.length < s.released + 31
          then s.accepted ++ [packet] else s.accepted) ∧
      (s.pc = .test → (s.perform .step).pc = .idle → s.copied.length = s.accepted.length) := by
  intro s
  have hinv : RxInv s := rxInv_run es (rxInv_start k rdh rdt tdh tdt)
  refine ⟨?_, ?_, ?_⟩
  · rw [List.prefix_iff_eq_take]
    apply List.ext_getElem?
    intro j
    rw [List.length_map, List.getElem?_take]
    by_cases hj : j < s.copied.length
    · have hp : s.copied[j]? = some s.copied[j] := List.getElem?_eq_getElem hj
      obtain ⟨hlen, hbegan, horder, hended, -⟩ := hinv.copied j _ hp
      have hacc : j < s.accepted.length := by omega
      rw [if_pos hj, List.getElem?_map, hp, List.getElem?_map, List.getElem?_eq_getElem hacc,
        Option.map_some, Option.map_some, hlen, List.getD_eq_getElem _ _ hacc]
    · rw [if_neg hj, List.getElem?_map, List.getElem?_eq_none (Nat.le_of_not_lt hj)]
      rfl
  · intro packet
    show (s.arrive packet).accepted = _
    have haccepts := hinv.accepts_iff packet
    by_cases hroom : packet.length ≤ maxPacket ∧ s.accepted.length < s.released + 31
    · rw [if_pos hroom, Nic.arrive, if_pos (haccepts.mpr hroom)]
    · rw [if_neg hroom, Nic.arrive, if_neg fun h => hroom (haccepts.mp h)]
  · intro hpc hidle
    have hstep : (s.perform .step).pc =
        if (s.rxDescs s.rxCur).status &&& 0x1 ≠ 0 then .length else .idle := by
      show s.step.pc = _
      rw [Nic.step, hpc]
    have hzero : ¬ s.released < s.accepted.length := by
      intro hlt
      rw [hstep, if_pos ((hinv.test_iff hpc).mpr hlt)] at hidle
      contradiction
    have hreleased : s.released = s.copied.length := by
      rw [Nic.released, hpc]
      rfl
    have hbehind := hinv.behind
    omega

/-- Each byte that is copied of a packet is the one that the packets accepted up to some
moment of the copying left in the buffer: if none comes meanwhile, the newest packet is
copied in its place, which is the packet itself only if none came after it. -/
theorem copied_bytes (k : Heap.Kernel) (rdh rdt tdh tdt : Nat) (es : List NicEvent) :
    let s := (Nic.start k rdh rdt tdh tdt).run es
    ∀ j p, s.copied[j]? = some p →
      j < p.began ∧ p.began ≤ p.ended ∧ p.ended ≤ s.accepted.length ∧
      (∀ i < p.bytes.length, ∃ n, p.began ≤ n ∧ n ≤ p.ended ∧
        p.bytes.getD i 0 = overlay (s.accepted.take n) i) ∧
      (p.ended = p.began → ∀ i < p.bytes.length, i < (s.accepted.getD (p.began - 1) []).length →
        p.bytes.getD i 0 = (s.accepted.getD (p.began - 1) []).getD i 0) ∧
      (p.ended = j + 1 → s.accepted[j]? = some p.bytes) := by
  intro s j p hp
  have hinv : RxInv s := rxInv_run es (rxInv_start k rdh rdt tdh tdt)
  obtain ⟨-, hbegan, horder, hended, hseen⟩ := hinv.copied j p hp
  exact ⟨hbegan, horder, hended, hseen, (hinv.copied j p hp).newest, (hinv.copied j p hp).intact⟩

/-- A second packet comes before the first is copied.  What is copied of the first are the
two bytes of the second, and the last byte of the first, which the second does not reach. -/
theorem copied_bytes_two :
    let s := (Nic.start ⟨Heap.heapInit 0 Heap.blankHeap, []⟩ 0 0 0 0).run
      [.arrive [1, 2, 3], .arrive [4, 5], .interrupt 0x80, .step, .step, .step, .step, .step, .step]
    s.copied[0]? = some ⟨[4, 5, 3], 2, 2⟩ ∧ ∀ i < 3, ∃ n, 2 ≤ n ∧ n ≤ 2 ∧
      [4, 5, 3].getD i 0 = overlay (s.accepted.take n) i := by
  intro s
  have hcopied : s.copied[0]? = some ⟨[4, 5, 3], 2, 2⟩ := by decide +kernel
  exact ⟨hcopied, (copied_bytes _ 0 0 0 0 _ 0 _ hcopied).2.2.2.1⟩

end Network
end NochOS
