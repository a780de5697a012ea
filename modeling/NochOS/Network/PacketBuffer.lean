import NochOS.Heap.Contents
import NochOS.Heap.SizeLimit

/-!
# Network - the buffer of the last packet

`handleReceive` keeps the last packet in one heap object, which it resizes for each
packet, and `get_package` hands the packet out once.  Both run with interrupts off, so
they alternate, with each other and with the heap calls of the other clients.  The
length is set before the object is resized, and what `realloc` returns is stored as it
is, also if it is `NULL`.

Main results:

- Theorem `receive_right_iff`: a packet is received right exactly if there is a buffer,
  the packet is not empty and the heap has room for it.
- Theorem `ready_perform`: what holds between the events.
- Theorem `packets_right_iff`: the runs in which every event is right.
-/

namespace NochOS
namespace Network

open Library Heap

/-- `package_buf`, `package_len` and the heap with the objects that are held; `unread` is
the last packet until it is handed out. -/
structure NetState where
  kernel : Kernel
  packageBuf : Nat
  packageLen : Nat
  unread : Option (List UInt8)

/-- The bytes of a packet. -/
def bytesOf (packet : List UInt8) : Buf := fun i => packet.getD i 0

/-- `net_start`: the first buffer. -/
def netStart (k : Kernel) : NetState :=
  let r := malloc k.heap 1024
  { kernel := ⟨r.2, hold r.1 1024 k.live⟩
    packageBuf := r.1
    packageLen := 0
    unread := none }

/-- One pass of the loop of `handleReceive`. -/
def handleReceive (s : NetState) (packet : List UInt8) : NetState :=
  let len := packet.length
  let r := realloc s.kernel.heap s.packageBuf len
  { kernel :=
      { heap := { r.2 with mem := memcpy r.2.mem r.1 (bytesOf packet) 0 len }
        live := if r.1 = 0 then s.kernel.live
          else ⟨r.1, len⟩ :: s.kernel.live.eraseP fun o => o.ptr == s.packageBuf }
    packageBuf := r.1
    packageLen := len
    unread := some packet }

/-- `get_package`: the return value and the bytes copied to the caller. -/
def getPackage (s : NetState) (nbytes : Nat) : (Int × List UInt8) × NetState :=
  if s.packageLen = 0 then ((-1, []), { s with unread := none })
  else
    let nbytes := if s.packageLen < nbytes then s.packageLen else nbytes
    ((nbytes, (List.range nbytes).map fun i => s.kernel.heap.mem (s.packageBuf + i)),
      { s with packageLen := 0, unread := none })

/-! ## Events -/

/-- A heap call, or a write, of another client. -/
inductive ClientCall
  | malloc (size : Nat)
  | calloc (size : Nat)
  | realloc (o : Obj) (size : Nat)
  | free (o : Obj)
  | write (o : Obj) (off : Nat) (c : UInt8)

namespace ClientCall

/-- The heap after the call. -/
def run (k : Kernel) : ClientCall → Kernel
  | malloc size => ⟨(Heap.malloc k.heap size).2, hold (Heap.malloc k.heap size).1 size k.live⟩
  | calloc size => ⟨(Heap.calloc k.heap size).2, hold (Heap.calloc k.heap size).1 size k.live⟩
  | realloc o size =>
      ⟨(Heap.realloc k.heap o.ptr size).2,
        if (Heap.realloc k.heap o.ptr size).1 = 0 then k.live
        else ⟨(Heap.realloc k.heap o.ptr size).1, size⟩ :: k.live.erase o⟩
  | free o => ⟨Heap.free k.heap o.ptr, k.live.erase o⟩
  | write o off c => ⟨{ k.heap with mem := Function.update k.heap.mem (o.ptr + off) c }, k.live⟩

/-- The call is about the client's own objects, and not about the driver's buffer. -/
def Own (k : Kernel) (buffer : Nat) : ClientCall → Prop
  | malloc size => size < 2 ^ 32
  | calloc size => size < 2 ^ 32
  | realloc o size => o ∈ k.live ∧ o.ptr ≠ buffer ∧ size < 2 ^ 32
  | free o => o ∈ k.live ∧ o.ptr ≠ buffer
  | write o off _ => o ∈ k.live ∧ o.ptr ≠ buffer ∧ off < o.size

end ClientCall

/-- What happens to the driver and its heap. -/
inductive Event
  | receive (packet : List UInt8)
  | getPackage (nbytes : Nat)
  | client (call : ClientCall)

/-- The state after an event. -/
def perform (s : NetState) : Event → NetState
  | .receive packet => handleReceive s packet
  | .getPackage nbytes => (getPackage s nbytes).2
  | .client call => { s with kernel := call.run s.kernel }

/-- The events that can come: lengths have 16 bits and counts 32. -/
def Allowed (s : NetState) : Event → Prop
  | .receive packet => packet.length < 2 ^ 16
  | .getPackage nbytes => nbytes < 2 ^ 32
  | .client call => call.Own s.kernel s.packageBuf

/-- A pointer to a live object of at least some size. -/
def Holds (k : Kernel) (ptr len : Nat) : Prop := ∃ o ∈ k.live, o.ptr = ptr ∧ len ≤ o.size

/-- What `get_package` is to return. -/
def delivery (unread : Option (List UInt8)) (nbytes : Nat) : Int × List UInt8 :=
  match unread with
  | none => (-1, [])
  | some packet => ((min nbytes packet.length : Nat), packet.take nbytes)

/-- What is promised of an event: `realloc` is given a live object, what is copied to and
from is a live object of `package_len` bytes, and the last packet is handed out once. -/
def Right (s : NetState) : Event → Prop
  | .receive packet =>
      Holds s.kernel s.packageBuf 0 ∧
        Holds (handleReceive s packet).kernel (handleReceive s packet).packageBuf
          (handleReceive s packet).packageLen
  | .getPackage nbytes =>
      (s.packageLen ≠ 0 → Holds s.kernel s.packageBuf s.packageLen) ∧
        (getPackage s nbytes).1 = delivery s.unread nbytes
  | .client _ => True

/-- The packets that are received right: there is a buffer, the packet is not empty, and
the heap has a run of pages for it. -/
def Fits (s : NetState) : Event → Prop
  | .receive packet => s.packageBuf ≠ 0 ∧ 0 < packet.length ∧
      FreeRun s.kernel.heap (payloadOrder packet.length)
  | .getPackage _ => True
  | .client _ => True

/-- What holds between the events of a run in which all packets fit. -/
structure Ready (s : NetState) : Prop where
  consistent : Consistent s.kernel.heap s.kernel.live
  buffer : s.packageBuf ≠ 0 → Holds s.kernel s.packageBuf s.packageLen
  read : s.unread = none → s.packageLen = 0
  unread : ∀ packet ∈ s.unread, s.packageBuf ≠ 0 ∧ s.packageLen = packet.length ∧
    packet.length ≠ 0 ∧
      ∀ i < packet.length, s.kernel.heap.mem (s.packageBuf + i) = packet.getD i 0

/-! ## The calls of other clients -/

section Clients

variable {k : Kernel} {buffer : Nat} {call : ClientCall}

theorem client_step (hown : call.Own k buffer) : Step k (call.run k) := by
  cases call with
  | malloc size => exact Step.malloc k size hown
  | calloc size => exact Step.calloc k size hown
  | realloc o size => exact Step.realloc k o hown.1 size hown.2.2
  | free o => exact Step.free k o hown.1
  | write o off c => exact Step.write k o hown.1 off hown.2.2 c

/-- A call of another client leaves the buffer live and its bytes as they are. -/
theorem client_keeps (h : Consistent k.heap k.live) (hown : call.Own k buffer) {o : Obj}
    (ho : o ∈ k.live) (hptr : o.ptr = buffer) :
    o ∈ (call.run k).live ∧ SameBytes k.heap (call.run k).heap o := by
  cases call with
  | malloc size =>
      change o ∈ hold (_alloc k.heap size).1 size k.live ∧ SameBytes k.heap (_alloc k.heap size).2 o
      by_cases hnull : (_alloc k.heap size).1 = 0
      · rw [hold_null hnull, alloc_null hown hnull]
        exact ⟨ho, SameBytes.refl k.heap o⟩
      · rw [hold_ne_null hnull]
        exact ⟨List.mem_cons_of_mem _ ho, h.alloc_sameBytes hown hnull ho⟩
  | calloc size =>
      change o ∈ hold (calloc k.heap size).1 size k.live ∧ SameBytes k.heap (calloc k.heap size).2 o
      by_cases hnull : (calloc k.heap size).1 = 0
      · rw [hold_null hnull, (null_keeps k.heap hown 0).2.1 hnull]
        exact ⟨ho, SameBytes.refl k.heap o⟩
      · rw [hold_ne_null hnull]
        exact ⟨List.mem_cons_of_mem _ ho, h.calloc_sameBytes hown hnull ho⟩
  | realloc p size =>
      obtain ⟨hp, hother, hsize⟩ := hown
      have hne : o ≠ p := fun heq => hother (heq ▸ hptr)
      by_cases hnull : (realloc k.heap p.ptr size).1 = 0
      · simp only [ClientCall.run, if_pos hnull]
        exact ⟨ho, (h.realloc_kept p.ptr hsize hnull).bytes o ho⟩
      · have ho' : o ∈ k.live.erase p := (List.mem_erase_of_ne hne).mpr ho
        simp only [ClientCall.run, if_neg hnull]
        exact ⟨List.mem_cons_of_mem _ ho', (h.realloc_moved hp hsize hnull).others o ho'⟩
  | free p =>
      have hne : o ≠ p := fun heq => hown.2 (heq ▸ hptr)
      refine ⟨(List.mem_erase_of_ne hne).mpr ho, fun off _ => ?_⟩
      exact congrFun (free_mem k.heap p.ptr) _
  | write p off c =>
      obtain ⟨hp, hother, hoff⟩ := hown
      have hne : o ≠ p := fun heq => hother (heq ▸ hptr)
      have hapart : Apart o p := h.apart.forall ho hp hne
      refine ⟨ho, fun i hi => ?_⟩
      have hbyte := hapart.payload_ne (h.placed o ho) (h.placed p hp) hi hoff
      show Function.update k.heap.mem (p.ptr + off) c (o.ptr + i) = k.heap.mem (o.ptr + i)
      exact Function.update_of_ne hbyte ..

/-- A call of another client keeps what holds between the events. -/
theorem Ready.client {s : NetState} (h : Ready s) (hown : call.Own s.kernel s.packageBuf) :
    Ready { s with kernel := call.run s.kernel } where
  consistent := consistent_step h.consistent (client_step hown)
  buffer := by
    intro hne
    obtain ⟨o, ho, hptr, hlen⟩ := h.buffer hne
    exact ⟨o, (client_keeps h.consistent hown ho hptr).1, hptr, hlen⟩
  read := h.read
  unread := by
    intro packet hpacket
    obtain ⟨hne, hlen, hpos, hbytes⟩ := h.unread packet hpacket
    obtain ⟨o, ho, hptr, hsize⟩ := h.buffer hne
    refine ⟨hne, hlen, hpos, fun i hi => ?_⟩
    have hsame := (client_keeps h.consistent hown ho hptr).2 i (by omega)
    rw [hptr] at hsame
    exact hsame.trans (hbytes i hi)

end Clients

/-! ## Handing out the packet -/

/-- `get_package` is right, and the packet is read then. -/
theorem Ready.getPackage {s : NetState} (h : Ready s) (nbytes : Nat) :
    Right s (.getPackage nbytes) ∧ Ready (getPackage s nbytes).2 := by
  cases hunread : s.unread with
  | none =>
      have hget : Network.getPackage s nbytes = ((-1, []), { s with unread := none }) :=
        if_pos (h.read hunread)
      rw [hget]
      refine ⟨⟨fun hne => absurd (h.read hunread) hne, ?_⟩, h.consistent, h.buffer,
        fun _ => h.read hunread, by simp⟩
      rw [hget, hunread]
      rfl
  | some packet =>
      obtain ⟨hne, hlen, hpos, hbytes⟩ := h.unread packet hunread
      have hread : s.packageLen ≠ 0 := by
        rw [hlen]
        exact hpos
      have hmin : (if s.packageLen < nbytes then s.packageLen else nbytes) =
          min nbytes packet.length := by
        rw [hlen]
        split <;> omega
      have htake : ((List.range (min nbytes packet.length)).map fun i =>
          s.kernel.heap.mem (s.packageBuf + i)) = packet.take nbytes := by
        apply List.ext_getElem
        · simp
        · intro i hi hi'
          have hlt : i < packet.length := by
            simp only [List.length_map, List.length_range] at hi
            omega
          rw [List.getElem_map, List.getElem_range, hbytes i hlt, List.getElem_take,
            List.getD_eq_getElem _ _ hlt]
      have hget : Network.getPackage s nbytes =
          ((((min nbytes packet.length : Nat) : Int), packet.take nbytes),
            { s with packageLen := 0, unread := none }) := by
        simp only [Network.getPackage, if_neg hread, hmin, htake]
      obtain ⟨o, ho, hptr, -⟩ := h.buffer hne
      rw [hget]
      refine ⟨⟨fun _ => h.buffer hne, ?_⟩, h.consistent, fun _ => ⟨o, ho, hptr, Nat.zero_le _⟩,
        fun _ => rfl, by simp⟩
      rw [hget, hunread]
      rfl

/-! ## Receiving a packet -/

section Receive

variable {s : NetState} {packet : List UInt8}

theorem eraseP_congr {α : Type} {p q : α → Bool} {l : List α} (h : ∀ x ∈ l, p x = q x) :
    l.eraseP p = l.eraseP q := by
  induction l with
  | nil => rfl
  | cons x l ih =>
      have hrest := ih fun y hy => h y (List.mem_cons_of_mem x hy)
      rw [List.eraseP_cons, List.eraseP_cons, h x List.mem_cons_self, hrest]

/-- A live object is found by its pointer. -/
theorem eraseP_ptr {heap : HeapState} {live : List Obj} (h : Consistent heap live) {o : Obj}
    (ho : o ∈ live) : live.eraseP (fun p => p.ptr == o.ptr) = live.erase o := by
  rw [List.erase_eq_eraseP]
  apply eraseP_congr
  intro p hp
  by_cases heq : p = o
  · rw [heq, beq_self_eq_true, beq_self_eq_true]
  · have hptr : p.ptr ≠ o.ptr := (h.apart.forall hp ho heq).ptr_ne
    rw [beq_false_of_ne hptr, beq_false_of_ne (Ne.symm heq)]

/-- A packet gets a buffer exactly if it is not empty and the heap has room for it. -/
theorem realloc_ne_null_iff (heap : HeapState) (ptr : Nat) (hlen : packet.length < 2 ^ 16) :
    (realloc heap ptr packet.length).1 ≠ 0 ↔
      0 < packet.length ∧ FreeRun heap (payloadOrder packet.length) := by
  have hpages : reqPageNum packet.length ≤ maxHeapEntry := by
    unfold reqPageNum heapPageSize maxHeapEntry
    omega
  rw [realloc_ptr, alloc_ne_zero_iff]
  exact ⟨fun h => ⟨h.1, h.2.2⟩, fun h => ⟨h.1, hpages, h.2⟩⟩

/-- No live object is at `NULL`. -/
theorem not_holds_null {k : Kernel} (h : Consistent k.heap k.live) (len : Nat) :
    ¬ Holds k 0 len := by
  rintro ⟨o, ho, hptr, -⟩
  exact (h.placed o ho).ptr_ne_zero hptr

/-- A packet that does not get a buffer is copied to `NULL`. -/
theorem receive_null (h : Consistent s.kernel.heap s.kernel.live)
    (hnull : (realloc s.kernel.heap s.packageBuf packet.length).1 = 0) :
    ¬ Right s (.receive packet) := by
  rintro ⟨-, o, ho, hptr, -⟩
  have hbuf : (handleReceive s packet).packageBuf = 0 := hnull
  have hlive : (handleReceive s packet).kernel.live = s.kernel.live := if_pos hnull
  rw [hbuf] at hptr
  rw [hlive] at ho
  exact (h.placed o ho).ptr_ne_zero hptr

/-- A packet that gets a buffer is in it afterwards. -/
theorem Ready.receive (h : Ready s) (hlen : packet.length < 2 ^ 16)
    (hfits : Fits s (.receive packet)) :
    Right s (.receive packet) ∧ Ready (handleReceive s packet) := by
  obtain ⟨hbuf, hpos, hroom⟩ := hfits
  have hne := (realloc_ne_null_iff s.kernel.heap s.packageBuf hlen).mpr ⟨hpos, hroom⟩
  obtain ⟨o, ho, hptr, -⟩ := h.buffer hbuf
  have hlive : (handleReceive s packet).kernel.live =
      ⟨(realloc s.kernel.heap s.packageBuf packet.length).1, packet.length⟩ ::
        s.kernel.live.erase o := by
    rw [← eraseP_ptr h.consistent ho, hptr]
    exact if_neg hne
  have hnew : (⟨(realloc s.kernel.heap s.packageBuf packet.length).1, packet.length⟩ : Obj) ∈
      (handleReceive s packet).kernel.live := by
    rw [hlive]
    exact List.mem_cons_self
  rw [← hptr] at hne
  have hvalid := (h.consistent.realloc_moved ho (by omega) hne).valid
  rw [hptr, ← hlive] at hvalid
  have hholds : Holds (handleReceive s packet).kernel (handleReceive s packet).packageBuf
      (handleReceive s packet).packageLen := ⟨_, hnew, rfl, Nat.le_refl _⟩
  refine ⟨⟨⟨o, ho, hptr, Nat.zero_le _⟩, hholds⟩, ?_, fun _ => hholds, ?_, ?_⟩
  · exact hvalid.copy hnew (Nat.le_refl packet.length) (bytesOf packet) 0
  · intro hnone
    contradiction
  · intro last hlast
    have heq : packet = last := Option.some.inj hlast
    rw [← heq]
    refine ⟨?_, rfl, Nat.ne_of_gt hpos, fun i hi => ?_⟩
    · rw [hptr] at hne
      exact hne
    · have hcopied := @memcpy_inside (realloc s.kernel.heap s.packageBuf packet.length).2.mem
        (realloc s.kernel.heap s.packageBuf packet.length).1 (bytesOf packet) 0 packet.length
        ((realloc s.kernel.heap s.packageBuf packet.length).1 + i) (Nat.le_add_right _ _)
        (Nat.add_lt_add_left hi _)
      rw [Nat.add_sub_cancel_left, Nat.zero_add] at hcopied
      exact hcopied

/-- A packet is received right exactly if there is a buffer, the packet is not empty and
the heap has room for it. -/
theorem receive_right_iff (h : Ready s) (hlen : packet.length < 2 ^ 16) :
    Right s (.receive packet) ↔ Fits s (.receive packet) := by
  constructor
  · intro hright
    have hne : (realloc s.kernel.heap s.packageBuf packet.length).1 ≠ 0 := fun hnull =>
      receive_null h.consistent hnull hright
    obtain ⟨hpos, hroom⟩ := (realloc_ne_null_iff s.kernel.heap s.packageBuf hlen).mp hne
    refine ⟨fun hnull => ?_, hpos, hroom⟩
    have hlive := hright.1
    rw [hnull] at hlive
    exact not_holds_null h.consistent 0 hlive
  · exact fun hfits => (h.receive hlen hfits).1

end Receive

/-! ## Runs -/

/-- The state after `net_start` on a consistent heap. -/
theorem ready_netStart {k : Kernel} (h : Consistent k.heap k.live) : Ready (netStart k) where
  consistent := consistent_step h (Step.malloc k 1024 (by decide))
  buffer := by
    intro hne
    refine ⟨⟨(malloc k.heap 1024).1, 1024⟩, ?_, rfl, Nat.zero_le _⟩
    have hptr : (malloc k.heap 1024).1 ≠ 0 := hne
    show _ ∈ hold (malloc k.heap 1024).1 1024 k.live
    rw [hold_ne_null hptr]
    exact List.mem_cons_self
  read := fun _ => rfl
  unread := by
    intro packet hpacket
    contradiction

/-- On each event being right and fitting are the same. -/
theorem right_iff_fits (s : NetState) (e : Event) (h : Ready s) (he : Allowed s e) :
    Right s e ↔ Fits s e := by
  cases e with
  | receive packet => exact receive_right_iff h he
  | getPackage nbytes => exact iff_of_true (h.getPackage nbytes).1 trivial
  | client call => exact Iff.rfl

/-- What holds between the events, as long as the packets fit. -/
theorem ready_perform (s : NetState) (e : Event) (h : Ready s) (he : Allowed s e)
    (hfits : Fits s e) : Ready (perform s e) := by
  cases e with
  | receive packet => exact (h.receive he hfits).2
  | getPackage nbytes => exact (h.getPackage nbytes).2
  | client call => exact h.client he

/-- From any heap that heap calls and client writes reach, the events of a run are all
right exactly if all packets fit. -/
theorem packets_right_iff (table : BitVec 32) (k : Kernel)
    (hk : (heapSystem table).Reachable k) (es : List Event)
    (hes : Along perform Allowed (netStart k) es) :
    Along perform Right (netStart k) es ↔ Along perform Fits (netStart k) es :=
  Along.iff right_iff_fits ready_perform es (netStart k)
    (ready_netStart (heap_consistent table k hk).1) hes

/-- A fresh heap. -/
theorem freshHeap_reachable : (heapSystem 0).Reachable ⟨heapInit 0 blankHeap, []⟩ :=
  TransitionSystem.Reachable.init ⟨blankHeap, fun _ => rfl, rfl⟩

/-- A packet of three bytes, of which two are read. -/
theorem packets_right_iff_three :
    Along perform Right (netStart ⟨heapInit 0 blankHeap, []⟩)
        [.receive [1, 2, 3], .getPackage 2, .getPackage 2] ↔
      Along perform Fits (netStart ⟨heapInit 0 blankHeap, []⟩)
        [.receive [1, 2, 3], .getPackage 2, .getPackage 2] :=
  packets_right_iff 0 ⟨heapInit 0 blankHeap, []⟩ freshHeap_reachable _
    ⟨show 3 < 2 ^ 16 by decide, show 2 < 2 ^ 32 by decide, show 2 < 2 ^ 32 by decide, trivial⟩

/-- An empty packet leaves the driver without a buffer. -/
theorem packets_empty_wrong :
    ¬ Along perform Right (netStart ⟨heapInit 0 blankHeap, []⟩) [.receive []] := by
  rintro ⟨hright, -⟩
  have hready := ready_netStart (heap_consistent 0 _ freshHeap_reachable).1
  have hpos := ((receive_right_iff hready (by decide)).mp hright).2.1
  exact absurd hpos (by decide)

end Network
end NochOS
