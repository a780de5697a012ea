import NochOS.Terminal.Cursor
import Mathlib.Algebra.Group.Int.Defs
import Mathlib.Data.List.Infix

/-!
# Terminal - the mouse pointer

A packet of the mouse moves the pointer: the attribute that was under it is put back, the position
is updated and clamped, the attribute of the new cell is saved, and the pointer is drawn over it.
The helper that reads an attribute has parameters of 8 bits, the one that writes it has 32.

Main results:

- Definition `mouseHandler`: `mouse_handler`, with the wheel.
- Theorem `uncovered_mouseHandler`: what one packet does to the screen without the pointer.
- Theorem `pointer_traceless_iff`: when the pointer leaves no trace.
-/

namespace NochOS
namespace Terminal
namespace Pointer

open Library Process

/-! ## The handler -/

/-- What `mouse_handler` reads from the ports: the status and a packet of four bytes. -/
structure Packet where
  status : UInt8
  b0 : UInt8
  b1 : UInt8
  b2 : UInt8
  b3 : UInt8

/-- The terminal with the position of the pointer, `x_pos` and `y_pos`. -/
structure Mouse where
  terminals : Terminals
  xPos : Int
  yPos : Int

/-- An `int` as an `uint32_t`. -/
def asU32 (v : Int) : Nat := (v % 2 ^ 32).toNat

/-- What an `int` holds after an operation on 32 bits. -/
def wrapInt (v : Int) : Int := v.bmod (2 ^ 32)

/-- A delta of the mouse: an `uint32_t` if the sign bit is set, and a byte if not. -/
def delta (sign : Bool) (b : UInt8) : Int :=
  if sign then ((b.toNat ||| 0xFFFFFF00 : Nat) : Int) else b.toNat

/-- The two comparisons with the bounds of a coordinate. -/
def clampTo (hi v : Int) : Int :=
  let v := if hi < v then hi else v
  if v < 0 then 0 else v

/-- `x_pos` after a packet. -/
def nextX (x : Int) (p : Packet) : Int :=
  clampTo 319 (wrapInt (x + delta (p.b0 &&& 0x10 ≠ 0) p.b1))

/-- `y_pos` after a packet. -/
def nextY (y : Int) (p : Packet) : Int :=
  clampTo 199 (wrapInt (y - delta (p.b0 &&& 0x20 ≠ 0) p.b2))

/-- The packet is not read, or not used: an overflow bit or a button is set, or the bit that is
always one is not. -/
def Packet.Discarded (p : Packet) : Prop :=
  p.status &&& 0x20 = 0 ∨ p.b0 &&& 0xc0 ≠ 0 ∨ p.b0 &&& 0x08 = 0 ∨ p.b0 &&& 0x07 ≠ 0

instance (p : Packet) : Decidable p.Discarded := inferInstanceAs (Decidable (_ ∨ _))

/-- A clamped coordinate is within its bounds. -/
theorem clampTo_bounds {hi : Int} (hhi : 0 ≤ hi) (v : Int) :
    0 ≤ clampTo hi v ∧ clampTo hi v ≤ hi := by
  unfold clampTo
  dsimp only
  split <;> split <;> omega

theorem asU32_of_bounds {v hi : Int} (h : 0 ≤ v ∧ v ≤ hi) (hhi : hi < 2 ^ 32) :
    (asU32 v : Int) = v := by
  unfold asU32
  omega

theorem nextX_bounds (x : Int) (p : Packet) : 0 ≤ nextX x p ∧ nextX x p ≤ 319 :=
  clampTo_bounds (by decide) _

theorem nextY_bounds (y : Int) (p : Packet) : 0 ≤ nextY y p ∧ nextY y p ≤ 199 :=
  clampTo_bounds (by decide) _

theorem asU32_nextX (x : Int) (p : Packet) : (asU32 (nextX x p) : Int) = nextX x p :=
  asU32_of_bounds (nextX_bounds x p) (by decide)

theorem asU32_nextY (y : Int) (p : Packet) : (asU32 (nextY y p) : Int) = nextY y p :=
  asU32_of_bounds (nextY_bounds y p) (by decide)

/-- `mouse_i` after a packet. -/
def mouseInfo (x y : Int) (p : Packet) (oldChar : UInt8) : MouseInfo where
  x := asU32 (nextX x p)
  y := asU32 (nextY y p)
  oldChar := oldChar
  x_le := by
    have hx := asU32_nextX x p
    have hle := (nextX_bounds x p).2
    omega
  y_le := by
    have hy := asU32_nextY y p
    have hle := (nextY_bounds y p).2
    omega

/-- The pointer moves to its next position. -/
def moved (p : Packet) (m : Mouse) : Terminals :=
  let c := m.terminals.console
  let mem := drawChar c.mem c.mouseI.oldChar (asU32 m.xPos) (asU32 m.yPos)
  let x := asU32 (nextX m.xPos p)
  let y := asU32 (nextY m.yPos p)
  { m.terminals with
    console :=
      { c with
        mem := drawChar mem mouseIcon x y
        mouseI := mouseInfo m.xPos m.yPos p (getChar mem x y) } }

/-- What `mouse_handler` does with the last byte of a packet. -/
def wheel (p : Packet) (t : Terminals) : Option Terminals :=
  if p.b3 = 0xff then scrollUp t else if p.b3 = 1 then scrollDown t else some t

/-- `mouse_handler`. -/
def mouseHandler (p : Packet) (m : Mouse) : Option Mouse :=
  if p.Discarded then some m
  else
    (wheel p (moved p m)).map fun t => ⟨t, nextX m.xPos p, nextY m.yPos p⟩

/-- The handler for one packet after another. -/
def mouseRun : List Packet → Mouse → Option Mouse
  | [], m => some m
  | p :: ps, m => (mouseHandler p m).bind (mouseRun ps)

/-! ## The screen without the pointer -/

/-- `mouse_i` has the position of the pointer. -/
def InStep (m : Mouse) : Prop :=
  m.xPos = m.terminals.console.mouseI.x ∧ m.yPos = m.terminals.console.mouseI.y

/-- The position is one of the screen. -/
def InBounds (m : Mouse) : Prop :=
  (0 ≤ m.xPos ∧ m.xPos ≤ 319) ∧ 0 ≤ m.yPos ∧ m.yPos ≤ 199

/-- The memory with the attribute under the pointer put back. -/
def uncovered (m : Mouse) : Buf :=
  let c := m.terminals.console
  drawChar c.mem c.mouseI.oldChar c.mouseI.x c.mouseI.y

/-- The packet only moves the pointer. -/
def Packet.Movement (p : Packet) : Prop := p.b3 ≠ 0xff ∧ p.b3 ≠ 1

/-- The position after a packet. -/
def Packet.position (p : Packet) (q : Int × Int) : Int × Int :=
  if p.Discarded then q else (nextX q.1 p, nextY q.2 p)

section Step

variable {m m' : Mouse} {p : Packet}

theorem InStep.bounds (h : InStep m) : InBounds m := by
  have hx := m.terminals.console.mouseI.x_le
  have hy := m.terminals.console.mouseI.y_le
  obtain ⟨h₁, h₂⟩ := h
  unfold InBounds
  omega

/-- A packet that is used and has no turn of the wheel. -/
theorem mouseHandler_eq (hused : ¬ p.Discarded) (hmove : p.Movement) :
    mouseHandler p m = some ⟨moved p m, nextX m.xPos p, nextY m.yPos p⟩ := by
  unfold mouseHandler wheel
  rw [if_neg hused, if_neg hmove.1, if_neg hmove.2, Option.map_some]

/-- A movement packet is always handled. -/
theorem mouseHandler_some (hmove : p.Movement) : ∃ m', mouseHandler p m = some m' := by
  by_cases hdrop : p.Discarded
  · exact ⟨m, if_pos hdrop⟩
  · exact ⟨_, mouseHandler_eq hdrop hmove⟩

/-- A packet leaves `mouse_i` at the position that it leads to. -/
theorem InStep.mouseHandler (h : InStep m) (hmove : p.Movement)
    (hrun : mouseHandler p m = some m') :
    InStep m' ∧ (m'.xPos, m'.yPos) = p.position (m.xPos, m.yPos) := by
  unfold Packet.position
  by_cases hdrop : p.Discarded
  · rw [Pointer.mouseHandler, if_pos hdrop] at hrun
    rw [if_pos hdrop, ← Option.some.inj hrun]
    exact ⟨h, rfl⟩
  · rw [mouseHandler_eq hdrop hmove] at hrun
    rw [if_neg hdrop, ← Option.some.inj hrun]
    exact ⟨⟨(asU32_nextX _ p).symm, (asU32_nextY _ p).symm⟩, rfl⟩

/-- A packet that is used puts, into the screen without the pointer, the attribute that it reads
for the new position. -/
theorem uncovered_mouseHandler (h : InStep m) (hused : ¬ p.Discarded) (hmove : p.Movement)
    (hrun : mouseHandler p m = some m') :
    uncovered m' =
      drawChar (uncovered m)
        (getChar (uncovered m) (asU32 (nextX m.xPos p)) (asU32 (nextY m.yPos p)))
        (asU32 (nextX m.xPos p)) (asU32 (nextY m.yPos p)) := by
  have hx : asU32 m.xPos = m.terminals.console.mouseI.x := by
    have hle := m.terminals.console.mouseI.x_le
    rw [h.1, asU32]
    omega
  have hy : asU32 m.yPos = m.terminals.console.mouseI.y := by
    have hle := m.terminals.console.mouseI.y_le
    rw [h.2, asU32]
    omega
  rw [mouseHandler_eq hused hmove] at hrun
  rw [← Option.some.inj hrun]
  simp only [uncovered, moved, mouseInfo, hx, hy, drawChar, Function.update_idem]

/-- The attribute that is read for a position is the one of its cell. -/
def SameAttribute (mem : Buf) (x y : Int) : Prop :=
  getChar mem (asU32 x) (asU32 y) = mem (video + cell (asU32 x) (asU32 y))

/-- Both coordinates below 256 are read as they are. -/
theorem sameAttribute_of_lt (mem : Buf) {x y : Int} (hx : 0 ≤ x ∧ x < 256)
    (hy : 0 ≤ y ∧ y < 256) : SameAttribute mem x y := by
  have hx' : asU32 x % 2 ^ 8 = asU32 x := by
    unfold asU32
    omega
  have hy' : asU32 y % 2 ^ 8 = asU32 y := by
    unfold asU32
    omega
  unfold SameAttribute getChar
  rw [hx', hy']

/-- A packet leaves no trace exactly if the attribute is read from the cell it is put back to, and
then changes no byte of the memory without the pointer. -/
theorem uncovered_eq_iff (h : InStep m) (hused : ¬ p.Discarded) (hmove : p.Movement)
    (hrun : mouseHandler p m = some m') :
    (screenAt (uncovered m') video = screenAt (uncovered m) video ↔
        SameAttribute (uncovered m) (nextX m.xPos p) (nextY m.yPos p)) ∧
      (SameAttribute (uncovered m) (nextX m.xPos p) (nextY m.yPos p) →
        uncovered m' = uncovered m) := by
  have hstep := uncovered_mouseHandler h hused hmove hrun
  have hback : SameAttribute (uncovered m) (nextX m.xPos p) (nextY m.yPos p) →
      uncovered m' = uncovered m := by
    intro hsame
    rw [hstep, hsame]
    exact Function.update_eq_self _ _
  refine ⟨⟨?_, fun hsame => by rw [hback hsame]⟩, hback⟩
  intro hscreen
  have hcell := cell_lt (mouseInfo m.xPos m.yPos p 0)
  have hbyte := congrFun hscreen ⟨_, hcell⟩
  rw [hstep] at hbyte
  unfold screenAt drawChar at hbyte
  exact (Function.update_self ..).symm.trans hbyte

end Step

/-! ## Runs of packets -/

/-- After each of the packets the screen without the pointer is what it was before them. -/
def Traceless (m : Mouse) (ps : List Packet) : Prop :=
  ∀ used, used <+: ps → ∀ m', mouseRun used m = some m' →
    screenAt (uncovered m') video = screenAt (uncovered m) video

/-- At each position that the packets lead to from `q`, the attribute that is read is the one of
the cell there. -/
def Readable (mem : Buf) : Int × Int → List Packet → Prop
  | _, [] => True
  | q, p :: ps =>
      (¬ p.Discarded → SameAttribute mem (nextX q.1 p) (nextY q.2 p)) ∧
        Readable mem (p.position q) ps

section Runs

variable {m m' : Mouse} {p : Packet} {ps : List Packet}

/-- A run of movement packets comes back, and keeps the pointer on the screen. -/
theorem mouseRun_bounds (h : InStep m) (hmove : ∀ p ∈ ps, p.Movement) :
    ∃ m', mouseRun ps m = some m' ∧ InStep m' ∧ InBounds m' := by
  induction ps generalizing m with
  | nil => exact ⟨m, rfl, h, h.bounds⟩
  | cons p ps ih =>
      have hp := hmove p List.mem_cons_self
      obtain ⟨m₁, hrun⟩ := @mouseHandler_some m p hp
      obtain ⟨m', hrest, hm'⟩ :=
        ih (h.mouseHandler hp hrun).1 fun q hq => hmove q (List.mem_cons_of_mem _ hq)
      refine ⟨m', ?_, hm'⟩
      rw [mouseRun, hrun, Option.bind_some, hrest]

/-- Packets leave no trace exactly if the first one does not, and the others do not from there. -/
theorem traceless_cons (hrun : mouseHandler p m = some m') :
    Traceless m (p :: ps) ↔
      screenAt (uncovered m') video = screenAt (uncovered m) video ∧ Traceless m' ps := by
  have hone : mouseRun [p] m = some m' := by
    rw [mouseRun, hrun]
    rfl
  constructor
  · intro h
    have hfirst := h [p] (List.prefix_append [p] ps) m' hone
    refine ⟨hfirst, ?_⟩
    intro used hused m'' hrest
    rw [hfirst]
    apply h (p :: used) (List.prefix_cons_inj p |>.mpr hused)
    rw [mouseRun, hrun, Option.bind_some, hrest]
  · rintro ⟨hfirst, hrest⟩ used hused m'' hm''
    cases used with
    | nil =>
        rw [← Option.some.inj hm'']
    | cons q used =>
        obtain ⟨rfl, hused'⟩ := List.cons_prefix_cons.mp hused
        rw [mouseRun, hrun, Option.bind_some] at hm''
        rw [hrest used hused' m'' hm'', hfirst]

/-- The pointer leaves no trace exactly if every attribute is read from the cell where it is put
back. -/
theorem traceless_iff (h : InStep m) (hmove : ∀ p ∈ ps, p.Movement) :
    Traceless m ps ↔ Readable (uncovered m) (m.xPos, m.yPos) ps := by
  induction ps generalizing m with
  | nil =>
      refine iff_of_true ?_ trivial
      intro used hused m' hm'
      rw [List.prefix_nil.mp hused] at hm'
      rw [← Option.some.inj hm']
  | cons p ps ih =>
      have hp := hmove p List.mem_cons_self
      have hps : ∀ q ∈ ps, q.Movement := fun q hq => hmove q (List.mem_cons_of_mem _ hq)
      obtain ⟨m₁, hrun⟩ := @mouseHandler_some m p hp
      obtain ⟨hstep, hpos⟩ := h.mouseHandler hp hrun
      rw [traceless_cons hrun, ih hstep hps, hpos, Readable]
      by_cases hdrop : p.Discarded
      · have hsame : m₁ = m := by
          rw [mouseHandler, if_pos hdrop] at hrun
          exact (Option.some.inj hrun).symm
        rw [hsame]
        exact and_congr_left' (iff_of_true rfl fun hused => absurd hdrop hused)
      · obtain ⟨hscreen, hback⟩ := uncovered_eq_iff h hdrop hp hrun
        rw [hscreen]
        constructor
        · rintro ⟨hsame, hrest⟩
          rw [hback hsame] at hrest
          exact ⟨fun _ => hsame, hrest⟩
        · rintro ⟨hsame, hrest⟩
          rw [hback (hsame hdrop)]
          exact ⟨hsame hdrop, hrest⟩

end Runs

/-- Movement packets keep the pointer on the screen, and leave no trace exactly if, at each
position they lead to, the attribute read with 8 bits is the one of the cell. -/
theorem pointer_traceless_iff (m : Mouse) (ps : List Packet) (h : InStep m)
    (hmove : ∀ p ∈ ps, p.Movement) :
    (∀ used, used <+: ps → ∃ m', mouseRun used m = some m' ∧ InBounds m') ∧
      (Traceless m ps ↔ Readable (uncovered m) (m.xPos, m.yPos) ps) := by
  refine ⟨?_, traceless_iff h hmove⟩
  intro used hused
  obtain ⟨m', hrun, -, hbounds⟩ := mouseRun_bounds h fun p hp => hmove p (hused.subset hp)
  exact ⟨m', hrun, hbounds⟩

/-- The mouse is moved one to the right. -/
def stepRight : Packet := ⟨0x20, 0x08, 1, 0, 0⟩

/-- The fresh terminal, with the pointer in the middle. -/
def freshMouse : Mouse := ⟨freshTerminals, 160, 100⟩

/-- A step to the right from the middle of the screen leaves no trace. -/
theorem pointer_traceless_middle : Traceless freshMouse [stepRight] := by
  have hmove : ∀ p ∈ [stepRight], p.Movement := by
    intro p hp
    rw [List.mem_singleton.mp hp]
    exact ⟨by decide, by decide⟩
  refine (pointer_traceless_iff freshMouse [stepRight] ⟨rfl, rfl⟩ hmove).2.mpr ⟨?_, trivial⟩
  intro _
  exact sameAttribute_of_lt _ (by decide) (by decide)

/-- The cell behind the first 64 of the first row has an attribute of its own, and the pointer is
next to it. -/
def markedMouse : Mouse where
  terminals :=
    { freshTerminals with
      console :=
        { pointerConsole with
          mem := fun a => if a = video + cell 256 0 then 1 else 7
          mouseI := { x := 255, y := 0, oldChar := 7, x_le := by decide, y_le := by decide } } }
  xPos := 255
  yPos := 0

/-- A step to that cell saves the attribute of the first cell for it. -/
theorem pointer_leaves_trace :
    ¬ ∀ (m : Mouse) (ps : List Packet), InStep m → (∀ p ∈ ps, p.Movement) → Traceless m ps := by
  intro h
  have hmove : ∀ p ∈ [stepRight], p.Movement := by
    intro p hp
    rw [List.mem_singleton.mp hp]
    exact ⟨by decide, by decide⟩
  have hstep : InStep markedMouse := ⟨rfl, rfl⟩
  obtain ⟨hsame, -⟩ := (traceless_iff hstep hmove).mp (h markedMouse [stepRight] hstep hmove)
  have hbyte : (7 : UInt8) = 1 := hsame (by decide)
  exact absurd hbyte (by decide)

end Pointer
end Terminal
end NochOS
