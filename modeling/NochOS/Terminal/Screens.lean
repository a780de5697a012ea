import NochOS.Library.Bytes
import NochOS.Library.Views
import NochOS.Process.Display

/-!
# Terminal - screens across session switches

The displayed session's screen is in video memory, every other one in the cached
screen of its session.  A switch takes the mouse pointer off the screen, saves the
screen and shows the one of the other session.  The pointer state says what was under
the pointer where the mouse last moved, and a switch does not renew it: when a session
is left in which the mouse has not moved, the byte of another screen is put into it.

Main results:

- Definition `sessSwitch`: `sess_switch` with the screens it copies.
- Theorem `view_sessSwitch`: on the screens it is a switch between views.
- Theorem `screens_kept_iff`: which screens come back as they were left.
- Theorem `screens_mixed`: a screen that comes back with a byte of another.
-/

namespace NochOS
namespace Terminal

open Library Process

/-! ## The screens and the pointer -/

/-- `NUM_COLS`. -/
def numCols : Nat := 80

/-- `NUM_ROWS`. -/
def numRows : Nat := 25

/-- `CHAR_X`. -/
def charX : Nat := 4

/-- `CHAR_Y`. -/
def charY : Nat := 8

/-- `MOUSE_ICON`. -/
def mouseIcon : UInt8 := 43

/-- The bytes of a screen: a character and an attribute for each cell. -/
def screenSize : Nat := numCols * numRows * 2

/-- `mouse_info`, with the bounds that `mouse_handler` keeps. -/
structure MouseInfo where
  x : Nat
  y : Nat
  oldChar : UInt8
  x_le : x ≤ 319
  y_le : y ≤ 199

/-- The attribute byte of the cell at a pointer position. -/
def cell (x y : Nat) : Nat := (y / charY * numCols + x / charX) * 2 + 1

/-- `draw_char`. -/
def drawChar (mem : Buf) (newChar : UInt8) (x y : Nat) : Buf :=
  Function.update mem (video + cell x y) newChar

/-- The processes with their sessions, memory and the pointer. -/
structure Console where
  kernel : Kernel
  mem : Buf
  mouseI : MouseInfo

/-- `sess_switch`. -/
def sessSwitch (c : Console) (sessId : Nat) : Console × Transfer :=
  if numSess ≤ sessId then (c, .ret (-1))
  else if sessId = c.kernel.curSessId then (c, .ret 0)
  else
    let mem := drawChar c.mem c.mouseI.oldChar c.mouseI.x c.mouseI.y
    let mem := memcpy mem (c.kernel.sessDesc c.kernel.curSessId).cachedVidmem mem video screenSize
    let mem := memcpy mem video mem (c.kernel.sessDesc sessId).cachedVidmem screenSize
    ({ c with
        kernel := (Process.sessSwitch c.kernel sessId).1
        mem := mem }, (Process.sessSwitch c.kernel sessId).2)

/-- A session is displayed, and the cached screens are where `terminal_init` puts them. -/
structure Ready (c : Console) : Prop where
  displayed : c.kernel.curSessId < numSess
  cached : ∀ s < numSess, (c.kernel.sessDesc s).cachedVidmem = getCachedVidmem s

/-! ## Screens as views -/

/-- The contents of a screen. -/
abbrev Screen := Fin screenSize → UInt8

/-- The screen at an address. -/
def screenAt (mem : Buf) (addr : Nat) : Screen := fun i => mem (addr + i)

theorem cell_lt (m : MouseInfo) : cell m.x m.y < screenSize := by
  have hx := m.x_le
  have hy := m.y_le
  unfold cell screenSize numCols numRows charX charY
  omega

/-- A screen with the byte under the pointer put back. -/
def restored (m : MouseInfo) (scr : Screen) : Screen :=
  Function.update scr ⟨cell m.x m.y, cell_lt m⟩ m.oldChar

theorem restored_restored (m : MouseInfo) (scr : Screen) :
    restored m (restored m scr) = restored m scr := Function.update_idem ..

/-- Putting the byte back changes nothing exactly if the screen has it. -/
theorem restored_eq_iff (m : MouseInfo) (scr : Screen) :
    restored m scr = scr ↔ scr ⟨cell m.x m.y, cell_lt m⟩ = m.oldChar := by
  unfold restored
  rw [Function.update_eq_self_iff]
  exact eq_comm

/-- Where the screen of a session is. -/
def screenAddr (displayed s : Nat) : Nat := if s = displayed then video else getCachedVidmem s

/-- The screens of all sessions, and the one that is displayed. -/
def view (c : Console) : Views Nat Screen where
  shown := c.kernel.curSessId
  content s := screenAt c.mem (screenAddr c.kernel.curSessId s)

/-- A copy to a screen elsewhere leaves a screen alone. -/
theorem screenAt_memcpy_of_ne {mem src : Buf} {addr dst srcAddr : Nat}
    (h : addr + screenSize ≤ dst ∨ dst + screenSize ≤ addr) :
    screenAt (memcpy mem dst src srcAddr screenSize) addr = screenAt mem addr := by
  funext i
  have hi := i.isLt
  apply memcpy_outside
  omega

/-- A copied screen. -/
theorem screenAt_memcpy (mem src : Buf) (dst srcAddr : Nat) :
    screenAt (memcpy mem dst src srcAddr screenSize) dst = screenAt src srcAddr := by
  funext i
  have hi := i.isLt
  unfold screenAt
  rw [memcpy_inside (by omega) (by omega), Nat.add_sub_cancel_left]

/-- The pointer is taken off the displayed screen. -/
theorem screenAt_drawChar (mem : Buf) (m : MouseInfo) :
    screenAt (drawChar mem m.oldChar m.x m.y) video = restored m (screenAt mem video) := by
  funext i
  by_cases hi : i = ⟨cell m.x m.y, cell_lt m⟩
  · subst hi
    unfold restored screenAt drawChar
    rw [Function.update_self, Function.update_self]
  · have hne : video + (i : Nat) ≠ video + cell m.x m.y := by
      intro heq
      exact hi (Fin.ext (Nat.add_left_cancel heq))
    unfold restored screenAt drawChar
    rw [Function.update_of_ne hne, Function.update_of_ne hi]

/-- Taking the pointer off leaves a cached screen alone. -/
theorem screenAt_drawChar_cached (mem : Buf) (m : MouseInfo) (s : Nat) :
    screenAt (drawChar mem m.oldChar m.x m.y) (getCachedVidmem s) =
      screenAt mem (getCachedVidmem s) := by
  funext i
  have hcell := cell_lt m
  unfold screenSize numCols numRows at hcell
  have hne : getCachedVidmem s + (i : Nat) ≠ video + cell m.x m.y := by
    unfold getCachedVidmem vidmemSize video
    omega
  unfold screenAt drawChar
  rw [Function.update_of_ne hne]

/-- A cached screen is apart from video memory. -/
theorem cached_apart_video (s : Nat) : video + screenSize ≤ getCachedVidmem s := by
  unfold video screenSize numCols numRows getCachedVidmem vidmemSize video
  omega

/-- Two cached screens are apart. -/
theorem cached_apart {s t : Nat} (h : s ≠ t) :
    getCachedVidmem s + screenSize ≤ getCachedVidmem t ∨
      getCachedVidmem t + screenSize ≤ getCachedVidmem s := by
  unfold screenSize numCols numRows getCachedVidmem vidmemSize
  omega

/-! ## One switch -/

/-- The kernel shows the other session, and keeps the cached screens where they are. -/
theorem kernel_sessSwitch {k : Kernel} {sessId : Nat} (hlt : sessId < numSess) :
    (Process.sessSwitch k sessId).1.curSessId = sessId ∧
      (Process.sessSwitch k sessId).1.sessDesc = k.sessDesc := by
  unfold Process.sessSwitch
  rw [if_neg (Nat.not_le.mpr hlt)]
  by_cases hsame : sessId = k.curSessId
  · rw [if_pos hsame]
    exact ⟨hsame.symm, rfl⟩
  · rw [if_neg hsame]
    cases k.curProcPcb with
    | none => exact ⟨rfl, rfl⟩
    | some cur =>
        simp only [mapVidmem]
        split
        · exact ⟨rfl, rfl⟩
        · exact ⟨rfl, rfl⟩

/-- The session that is displayed after a switch. -/
def displayedNext (cur sessId : Nat) : Nat := if sessId < numSess then sessId else cur

theorem curSessId_sessSwitch (c : Console) (sessId : Nat) :
    (sessSwitch c sessId).1.kernel.curSessId = displayedNext c.kernel.curSessId sessId := by
  unfold sessSwitch displayedNext
  by_cases hlt : sessId < numSess
  · rw [if_neg (Nat.not_le.mpr hlt), if_pos hlt]
    by_cases hsame : sessId = c.kernel.curSessId
    · rw [if_pos hsame]
      exact hsame.symm
    · rw [if_neg hsame]
      exact (kernel_sessSwitch hlt).1
  · rw [if_pos (Nat.not_lt.mp hlt), if_neg hlt]

theorem mouseI_sessSwitch (c : Console) (sessId : Nat) :
    (sessSwitch c sessId).1.mouseI = c.mouseI := by
  unfold sessSwitch
  split
  · rfl
  · split
    · rfl
    · rfl

theorem Ready.sessSwitch {c : Console} (h : Ready c) (sessId : Nat) :
    Ready (sessSwitch c sessId).1 := by
  unfold Terminal.sessSwitch
  by_cases hlt : sessId < numSess
  · rw [if_neg (Nat.not_le.mpr hlt)]
    by_cases hsame : sessId = c.kernel.curSessId
    · rw [if_pos hsame]
      exact h
    · rw [if_neg hsame]
      obtain ⟨hdisp, hdesc⟩ := @kernel_sessSwitch c.kernel sessId hlt
      constructor
      · show (Process.sessSwitch c.kernel sessId).1.curSessId < numSess
        rw [hdisp]
        exact hlt
      · show ∀ s < numSess, ((Process.sessSwitch c.kernel sessId).1.sessDesc s).cachedVidmem = _
        rw [hdesc]
        exact h.cached
  · rw [if_pos (Nat.not_lt.mp hlt)]
    exact h

/-- The memory after a switch to another session. -/
theorem mem_sessSwitch {c : Console} (h : Ready c) {sessId : Nat} (hlt : sessId < numSess)
    (hne : sessId ≠ c.kernel.curSessId) :
    (sessSwitch c sessId).1.mem =
      memcpy (memcpy (drawChar c.mem c.mouseI.oldChar c.mouseI.x c.mouseI.y)
          (getCachedVidmem c.kernel.curSessId)
          (drawChar c.mem c.mouseI.oldChar c.mouseI.x c.mouseI.y) video screenSize) video
        (memcpy (drawChar c.mem c.mouseI.oldChar c.mouseI.x c.mouseI.y)
          (getCachedVidmem c.kernel.curSessId)
          (drawChar c.mem c.mouseI.oldChar c.mouseI.x c.mouseI.y) video screenSize)
        (getCachedVidmem sessId) screenSize := by
  unfold sessSwitch
  rw [if_neg (Nat.not_le.mpr hlt), if_neg hne]
  simp only [h.cached _ h.displayed, h.cached _ hlt]

/-- The screens after a switch to another session: the one that is left is saved with
the byte under the pointer put back, the others are as they were. -/
theorem screen_sessSwitch {c : Console} (h : Ready c) {sessId : Nat} (hlt : sessId < numSess)
    (hne : sessId ≠ c.kernel.curSessId) (s : Nat) :
    screenAt (sessSwitch c sessId).1.mem (screenAddr sessId s) =
      if s = c.kernel.curSessId then restored c.mouseI (screenAt c.mem video)
      else screenAt c.mem (getCachedVidmem s) := by
  rw [mem_sessSwitch h hlt hne]
  generalize hdrawn : drawChar c.mem c.mouseI.oldChar c.mouseI.x c.mouseI.y = drawn
  have hsaved : ∀ t ≠ c.kernel.curSessId,
      screenAt (memcpy drawn (getCachedVidmem c.kernel.curSessId) drawn video screenSize)
        (getCachedVidmem t) = screenAt c.mem (getCachedVidmem t) := by
    intro t ht
    rw [screenAt_memcpy_of_ne (cached_apart ht), ← hdrawn, screenAt_drawChar_cached]
  unfold screenAddr
  by_cases hnew : s = sessId
  · subst hnew
    rw [if_pos rfl, if_neg hne, screenAt_memcpy, hsaved s hne]
  · rw [if_neg hnew, screenAt_memcpy_of_ne (Or.inr (cached_apart_video s))]
    by_cases hold : s = c.kernel.curSessId
    · subst hold
      rw [if_pos rfl, screenAt_memcpy, ← hdrawn, screenAt_drawChar]
    · rw [if_neg hold, hsaved s hold]

/-- On the screens, `sess_switch` is a switch between views that puts the byte under
the pointer back. -/
theorem view_sessSwitch {c : Console} (h : Ready c) (sessId : Nat) :
    view (sessSwitch c sessId).1 =
      (view c).switch (restored c.mouseI) (displayedNext c.kernel.curSessId sessId) := by
  have hdisp := curSessId_sessSwitch c sessId
  by_cases hlt : sessId < numSess
  · have hnext : displayedNext c.kernel.curSessId sessId = sessId := if_pos hlt
    rw [hnext] at hdisp ⊢
    by_cases hsame : sessId = c.kernel.curSessId
    · have hstay : (sessSwitch c sessId).1 = c := by
        unfold sessSwitch
        rw [if_neg (Nat.not_le.mpr hlt), if_pos hsame]
      rw [hstay, Views.switch]
      exact (if_pos hsame).symm
    · have hswitch : (view c).switch (restored c.mouseI) sessId =
          { shown := sessId
            content := Function.update (view c).content c.kernel.curSessId
              (restored c.mouseI ((view c).content c.kernel.curSessId)) } := if_neg hsame
      rw [hswitch]
      apply Views.ext
      · exact hdisp
      · funext s
        show screenAt _ (screenAddr (sessSwitch c sessId).1.kernel.curSessId s) = _
        rw [hdisp, screen_sessSwitch h hlt hsame]
        by_cases hs : s = c.kernel.curSessId
        · subst hs
          simp only [if_true, view, screenAddr, Function.update_self]
        · simp only [if_neg hs, view, screenAddr, Function.update_of_ne hs]
  · have hstay : (sessSwitch c sessId).1 = c := by
      unfold sessSwitch
      rw [if_pos (Nat.not_lt.mp hlt)]
    have hnext : displayedNext c.kernel.curSessId sessId = c.kernel.curSessId := if_neg hlt
    rw [hstay, hnext, Views.switch]
    exact (if_pos rfl).symm

/-- A switch changes no memory but video memory and the screen saved for the session
that is left. -/
theorem mem_sessSwitch_outside {c : Console} (h : Ready c) (sessId : Nat) {a : Nat}
    (hvideo : ¬ (video ≤ a ∧ a < video + screenSize))
    (hsaved : ¬ (getCachedVidmem c.kernel.curSessId ≤ a ∧
      a < getCachedVidmem c.kernel.curSessId + screenSize)) :
    (sessSwitch c sessId).1.mem a = c.mem a := by
  by_cases hlt : sessId < numSess
  · by_cases hsame : sessId = c.kernel.curSessId
    · unfold sessSwitch
      rw [if_neg (Nat.not_le.mpr hlt), if_pos hsame]
    · have hcell := cell_lt c.mouseI
      have hne : a ≠ video + cell c.mouseI.x c.mouseI.y := by omega
      rw [mem_sessSwitch h hlt hsame, memcpy_outside (by omega), memcpy_outside (by omega),
        drawChar, Function.update_of_ne hne]
  · unfold sessSwitch
    rw [if_pos (Nat.not_lt.mp hlt)]

/-! ## Sequences of switches -/

/-- The state after the first `k` of a sequence of calls of `sess_switch`. -/
def after (c : Console) (ids : Nat → Nat) : Nat → Console
  | 0 => c
  | k + 1 => (sessSwitch (after c ids k) (ids k)).1

/-- The session that is displayed after the first `k` calls. -/
def displayedAfter (cur : Nat) (ids : Nat → Nat) : Nat → Nat
  | 0 => cur
  | k + 1 => displayedNext (displayedAfter cur ids k) (ids k)

theorem after_spec {c : Console} (h : Ready c) (ids : Nat → Nat) (k : Nat) :
    Ready (after c ids k) ∧ (after c ids k).mouseI = c.mouseI ∧
      (after c ids k).kernel.curSessId = displayedAfter c.kernel.curSessId ids k := by
  induction k with
  | zero => exact ⟨h, rfl, rfl⟩
  | succ k ih =>
      obtain ⟨hready, hmouse, hdisp⟩ := ih
      refine ⟨hready.sessSwitch (ids k), ?_, ?_⟩
      · show (sessSwitch (after c ids k) (ids k)).1.mouseI = c.mouseI
        rw [mouseI_sessSwitch, hmouse]
      · show (sessSwitch (after c ids k) (ids k)).1.kernel.curSessId = _
        rw [curSessId_sessSwitch, hdisp]
        rfl

/-- The screens go through a run of switches between views. -/
theorem run_view {c : Console} (h : Ready c) (ids : Nat → Nat) :
    Views.Run (restored c.mouseI) (displayedAfter c.kernel.curSessId ids)
      fun k => view (after c ids k) where
  shown k := (after_spec h ids k).2.2
  step k := by
    obtain ⟨hready, hmouse, hdisp⟩ := after_spec h ids k
    have hview := view_sessSwitch hready (ids k)
    rw [hmouse, hdisp] at hview
    exact hview

/-- What the displayed session shows.  The pointer is on the screen of the session in
which the mouse last moved; there, the byte under it is put back. -/
def shownScreen (pointed : Nat) (c : Console) : Screen :=
  if c.kernel.curSessId = pointed then restored c.mouseI (screenAt c.mem video)
  else screenAt c.mem video

/-- A session that is displayed again shows what it showed when it was last left, and
no call changes memory other than that of the two screens it copies.  The mouse last
moved before the calls. -/
def KeepsScreens (c : Console) (ids : Nat → Nat) : Prop :=
  (∀ s i j, Views.Returns (displayedAfter c.kernel.curSessId ids) s i j →
    screenAt (after c ids j).mem video = shownScreen c.kernel.curSessId (after c ids i)) ∧
  ∀ k a, ¬ (video ≤ a ∧ a < video + screenSize) →
    ¬ (getCachedVidmem (displayedAfter c.kernel.curSessId ids k) ≤ a ∧
      a < getCachedVidmem (displayedAfter c.kernel.curSessId ids k) + screenSize) →
    (after c ids (k + 1)).mem a = (after c ids k).mem a

/-- While a session is displayed, its view is video memory. -/
theorem content_displayed {c : Console} {s : Nat} (h : c.kernel.curSessId = s) :
    (view c).content s = screenAt c.mem video := by
  simp only [view, screenAddr, h, if_true]

/-- Every screen comes back as it was left, and no other memory changes, exactly if
each session that the calls show, leave and show again, other than the one with the
pointer, already has the byte from under the pointer in the same cell of its saved
screen. -/
theorem screens_kept_iff (c : Console) (h : Ready c) (ids : Nat → Nat) :
    KeepsScreens c ids ↔
      ∀ s i j, Views.Returns (displayedAfter c.kernel.curSessId ids) s i j →
        s ≠ c.kernel.curSessId →
        c.mem (getCachedVidmem s + cell c.mouseI.x c.mouseI.y) = c.mouseI.oldChar := by
  have hrun := run_view h ids
  have hidem := restored_restored c.mouseI
  have hcontent : ∀ {s i j}, Views.Returns (displayedAfter c.kernel.curSessId ids) s i j →
      (view (after c ids i)).content s = screenAt (after c ids i).mem video ∧
        (view (after c ids j)).content s = screenAt (after c ids j).mem video := by
    intro s i j hret
    constructor
    · exact content_displayed ((after_spec h ids i).2.2.trans hret.left.1)
    · exact content_displayed ((after_spec h ids j).2.2.trans hret.back)
  have hshown : ∀ {s i j}, Views.Returns (displayedAfter c.kernel.curSessId ids) s i j →
      s ≠ c.kernel.curSessId → shownScreen c.kernel.curSessId (after c ids i) =
        screenAt (after c ids i).mem video := by
    intro s i j hret hs
    unfold shownScreen
    rw [(after_spec h ids i).2.2, hret.left.1, if_neg hs]
  have hsaved : ∀ s ≠ c.kernel.curSessId, (restored c.mouseI ((view c).content s) =
      (view c).content s ↔
        c.mem (getCachedVidmem s + cell c.mouseI.x c.mouseI.y) = c.mouseI.oldChar) := by
    intro s hs
    rw [restored_eq_iff]
    simp only [view, screenAddr, if_neg hs, screenAt]
  constructor
  · rintro ⟨hkept, -⟩ s i j hret hs
    rw [← hsaved s hs]
    refine (Views.return_iff hrun hidem s).mp ?_ i j hret
    intro i' j' hret'
    rw [(hcontent hret').1, (hcontent hret').2, hkept s i' j' hret', hshown hret' hs]
  · intro hsame
    refine ⟨?_, ?_⟩
    · intro s i j hret
      by_cases hs : s = c.kernel.curSessId
      · have hback := (Views.content_return hrun hidem hret).1
        simp only [(hcontent hret).1, (hcontent hret).2] at hback
        obtain ⟨-, hmouse, hdisp⟩ := after_spec h ids i
        unfold shownScreen
        rw [hback, hdisp, hret.left.1, if_pos hs, hmouse]
      · rw [hshown hret hs, ← (hcontent hret).1, ← (hcontent hret).2]
        refine (Views.return_iff hrun hidem s).mpr ?_ i j hret
        intro i' j' hret'
        exact (hsaved s hs).mpr (hsame s i' j' hret' hs)
    · intro k a hvideo hcached
      have hdisp := (after_spec h ids k).2.2
      refine mem_sessSwitch_outside (after_spec h ids k).1 (ids k) hvideo ?_
      rw [hdisp]
      exact hcached

/-- The first shell runs with the pointer in the middle of its screen; the second
session has another attribute there. -/
def pointerConsole : Console where
  kernel := bootKernel
  mem a :=
    if a = video + cell 160 100 then mouseIcon
    else if getCachedVidmem 1 ≤ a ∧ a < getCachedVidmem 2 then 0x70
    else 7
  mouseI := { x := 160, y := 100, oldChar := 7, x_le := by decide, y_le := by decide }

theorem ready_pointerConsole : Ready pointerConsole := by
  have hstarted : Started bootKernel :=
    ⟨blankKernel, 0, 0, rfl, fun _ _ => rfl, rfl, rfl⟩
  have hset := hstarted.spec.2.1
  exact ⟨hset.displayed, hset.cached⟩

/-- Showing the second session once leaves every screen as it was. -/
theorem screens_kept_once : KeepsScreens pointerConsole fun _ => 1 := by
  have hdisp : ∀ k, displayedAfter pointerConsole.kernel.curSessId (fun _ => 1) (k + 1) = 1 :=
    fun _ => rfl
  have hzero : pointerConsole.kernel.curSessId = 0 := by decide +kernel
  refine (screens_kept_iff pointerConsole ready_pointerConsole fun _ => 1).mpr ?_
  intro s i j hret hs
  cases i with
  | zero => exact absurd hret.left.1.symm hs
  | succ i => exact absurd ((hdisp (i + 1)).trans ((hdisp i).symm.trans hret.left.1)) hret.left.2

/-- The second session is shown, left for the first and shown again: the attribute
that was under the pointer in the first session is now in its screen. -/
theorem screens_mixed :
    Ready pointerConsole ∧
      pointerConsole.mem (video + cell pointerConsole.mouseI.x pointerConsole.mouseI.y) =
        mouseIcon ∧
      ¬ KeepsScreens pointerConsole fun k => if k = 1 then 0 else 1 := by
  refine ⟨ready_pointerConsole, by decide +kernel, ?_⟩
  rintro ⟨hkept, -⟩
  have hret : Views.Returns
      (displayedAfter pointerConsole.kernel.curSessId fun k => if k = 1 then 0 else 1) 1 1 3 := by
    refine ⟨⟨by decide +kernel, by decide +kernel⟩, by decide, by decide +kernel, ?_⟩
    intro k hlo hhi
    have hk : k = 2 := by omega
    subst hk
    decide +kernel
  have hbyte := congrFun (hkept 1 1 3 hret) ⟨cell 160 100, by decide⟩
  exact absurd hbyte (by decide +kernel)

end Terminal
end NochOS
