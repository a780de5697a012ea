import NochOS.Terminal.Screens
import NochOS.Terminal.Input

/-!
# Terminal - output, the cursor and the history

A character goes to the screen at the cursor of its session, and the line it stands in
is copied to the session's history.  A newline moves the history pointer on and, in the
last row, scrolls the screen.  When the screen is scrolled back from the end of the
history, the next output loads it again.

The history is in one page of 4 MiB, whose neighbours are not mapped: the kernel does not
get past an access outside of it, and the operation has no result.

Main results:

- Definitions `sessPutc`, `newline`, `backspace`, `clearScreen`: `terminal.c`.
- Definitions `printKey`, `deleteKey`, `enterKey`: the keyboard on the screen.
- Definitions `scrollUp`, `scrollDown`: the mouse wheel.
- Theorem `terminalFwrite_run`: a call of `terminal_fwrite` is a run of single characters.
-/

namespace NochOS
namespace Terminal

open Library Process

/-! ## The state -/

/-- `BOUNDARY1`. -/
def boundary1 : Nat := 0x02400000

/-- `BOUNDARY2`. -/
def boundary2 : Nat := 0x02500000

/-- `BOUNDARY3`. -/
def boundary3 : Nat := 0x02600000

/-- What follows the page that `setup_history_page` maps. -/
def historyEnd : Nat := 0x02800000

/-- A session on the terminal: the cursor and the keyboard's side of its `sess_t`, and
its entries of `history_ptr`, `screen_head` and `boundary`. -/
structure SessTerm where
  vidX : Nat
  vidY : Nat
  input : Input
  historyPtr : Nat
  screenHead : Nat
  boundary : Nat

/-- The terminal: screens and pointer, the attribute of output, and the sessions.
`cells` are the character cells that were written, and `logged` the addresses in the
history that were written, each with its session. -/
structure Terminals where
  console : Console
  attrib : UInt8
  term : Nat → SessTerm
  cells : List Nat
  logged : List (Nat × Nat)

namespace Terminals

/-- `cur_sess_id`. -/
def cur (t : Terminals) : Nat := t.console.kernel.curSessId

/-- The memory. -/
def mem (t : Terminals) : Buf := t.console.mem

/-- The terminal with other memory. -/
def setMem (t : Terminals) (mem : Buf) : Terminals :=
  { t with console := { t.console with mem := mem } }

/-- The terminal with another state of a session. -/
def setTerm (t : Terminals) (sessId : Nat) (d : SessTerm) : Terminals :=
  { t with term := Function.update t.term sessId d }

end Terminals

/-! ## Cells -/

/-- The address of a cell's character; the pointer has 32 bits. -/
def cellAddr (base i : Nat) : Nat := (base + i * 2) % 2 ^ 32

/-- A character and its attribute are put into a cell. -/
def storeCell (mem : Buf) (base i : Nat) (c attr : UInt8) : Buf :=
  Function.update (Function.update mem (cellAddr base i) c) ((cellAddr base i + 1) % 2 ^ 32) attr

/-- A loop over cells that puts a character and an attribute into each, which it may read
from the memory it has left so far. -/
def Terminals.store (t : Terminals) (base : Nat) (is : List Nat) (c attr : Buf → Nat → UInt8) :
    Terminals :=
  { t.setMem (is.foldl (fun mem i => storeCell mem base i (c mem i) (attr mem i)) t.mem) with
    cells := t.cells ++ is }

/-- `get_char`, whose parameters have 8 bits. -/
def getChar (mem : Buf) (x y : Nat) : UInt8 := mem (video + cell (x % 2 ^ 8) (y % 2 ^ 8))

/-- The pointer is taken off the screen. -/
def hideMouse (t : Terminals) : Terminals :=
  t.setMem (drawChar t.mem t.console.mouseI.oldChar t.console.mouseI.x t.console.mouseI.y)

/-- The pointer is put onto the screen. -/
def showMouse (t : Terminals) : Terminals :=
  let oldChar := getChar t.mem t.console.mouseI.x t.console.mouseI.y
  { t with
    console :=
      { t.console with
        mouseI := { t.console.mouseI with oldChar := oldChar }
        mem := drawChar t.mem mouseIcon t.console.mouseI.x t.console.mouseI.y } }

/-! ## The history -/

/-- `write_history`, with the screen of the session at `sessMem`. -/
def writeHistory (sessMem y sessId : Nat) (t : Terminals) : Option Terminals :=
  let ptr := (t.term sessId).historyPtr
  if boundary1 ≤ ptr ∧ ptr + numCols ≤ historyEnd then
    some
      { t.setMem ((List.range numCols).foldl
          (fun mem i => Function.update mem (ptr + i) (mem (cellAddr sessMem (y * numCols + i))))
          t.mem) with
        logged := t.logged ++ (List.range numCols).map fun i => (sessId, ptr + i) }
  else none

/-- `update_historyptr`. -/
def updateHistoryptr (sessId : Nat) (t : Terminals) : Terminals :=
  t.setTerm sessId
    { t.term sessId with historyPtr := (t.term sessId).historyPtr + numCols }

/-- The screen is scrolled back from the end of the history. -/
def ScrolledBack (d : SessTerm) : Prop := d.screenHead + numCols * (numRows - 1) < d.historyPtr

instance (d : SessTerm) : Decidable (ScrolledBack d) := inferInstanceAs (Decidable (_ < _))

/-- `load_screen`, which loads the displayed session whatever session it is called for. -/
def loadScreen (t : Terminals) : Option Terminals :=
  let d := t.term t.cur
  let head := d.historyPtr - numCols * (numRows - 1)
  if boundary1 ≤ head ∧ head + numRows * numCols ≤ historyEnd then
    let t := hideMouse (t.setTerm t.cur { d with screenHead := head })
    some (showMouse (t.store video (List.range (numRows * numCols))
      (fun mem i => mem (head + i)) fun _ _ => t.attrib))
  else none

/-- The check with which output begins. -/
def reload (sessId : Nat) (t : Terminals) : Option Terminals :=
  if ScrolledBack (t.term sessId) then loadScreen t else some t

/-! ## terminal.c -/

/-- `enable_scroll`. -/
def enableScroll (sessMem sessId : Nat) (t : Terminals) : Terminals :=
  let t := hideMouse t
  let t := t.setTerm sessId
    { t.term sessId with screenHead := (t.term sessId).screenHead + numCols }
  let t := t.store sessMem (List.range ((numRows - 1) * numCols))
    (fun mem i => mem (cellAddr sessMem (i + numCols)))
    fun mem i => mem ((cellAddr sessMem (i + numCols) + 1) % 2 ^ 32)
  let t := t.setTerm sessId
    { t.term sessId with vidY := ((t.term sessId).vidY + (2 ^ 32 - 1)) % 2 ^ 32 }
  let t := t.store sessMem (List.range' ((numRows - 1) * numCols) numCols)
    (fun _ _ => 32) fun _ _ => t.attrib
  showMouse t

/-- `check_scroll`. -/
def checkScroll (sessMem sessId : Nat) (t : Terminals) : Terminals :=
  if numRows ≤ (t.term sessId).vidY then enableScroll sessMem sessId t else t

/-- The cursor goes to the start of the next line. -/
def nextLine (sessId : Nat) (t : Terminals) : Terminals :=
  t.setTerm sessId
    { t.term sessId with
      vidX := 0
      vidY := ((t.term sessId).vidY + 1) % 2 ^ 32 }

/-- The index of the cell at the cursor. -/
def cursorCell (d : SessTerm) : Nat := (numCols * d.vidY + d.vidX) % 2 ^ 32

/-- `newline`. -/
def newline (sessMem sessId : Nat) (t : Terminals) : Option Terminals := do
  let t ← reload sessId t
  let t ← writeHistory sessMem (t.term sessId).vidY sessId t
  some (checkScroll sessMem sessId (nextLine sessId (updateHistoryptr sessId t)))

/-- `sess_putc`. -/
def sessPutc (sessMem : Nat) (c : UInt8) (sessId : Nat) (t : Terminals) : Option Terminals := do
  let t ← reload sessId t
  if c = 10 ∨ c = 13 then
    let t ← writeHistory sessMem (t.term sessId).vidY sessId t
    some (checkScroll sessMem sessId (nextLine sessId (updateHistoryptr sessId t)))
  else
    let d := t.term sessId
    let t := t.store sessMem [cursorCell d] (fun _ _ => c) fun _ _ => t.attrib
    let vidX := (d.vidX + 1) % 2 ^ 32 % numCols
    let t := t.setTerm sessId
      { d with
        vidX := vidX
        vidY := (d.vidY + vidX / numCols) % 2 ^ 32 % numRows }
    let t ← writeHistory sessMem (t.term sessId).vidY sessId t
    some (checkScroll sessMem sessId t)

/-- `backspace`. -/
def backspace (sessMem sessId : Nat) (t : Terminals) : Option Terminals := do
  let t ← reload sessId t
  let d := t.term sessId
  let d :=
    if d.vidX ≠ 0 then { d with vidX := d.vidX - 1 }
    else
      { d with
        vidX := numCols - 1
        vidY := (d.vidY + (2 ^ 32 - 1)) % 2 ^ 32 }
  let t := t.setTerm sessId d
  let t := t.store sessMem [cursorCell d] (fun _ _ => 32) fun _ _ => t.attrib
  writeHistory sessMem d.vidY sessId t

/-- `line_check`. -/
def lineCheck (d : SessTerm) : Prop := d.vidX = numCols - 1

instance (d : SessTerm) : Decidable (lineCheck d) := inferInstanceAs (Decidable (_ = _))

/-- `clear`, whose one loop goes over both screens. -/
def clear (sessMem : Nat) (t : Terminals) : Terminals :=
  let t := t.store sessMem (List.range (numRows * numCols)) (fun _ _ => 32) fun _ _ => t.attrib
  let t := t.store video (List.range (numRows * numCols)) (fun _ _ => 32) fun _ _ => t.attrib
  let d := t.term t.cur
  t.setTerm t.cur
    { d with
      screenHead := d.boundary
      historyPtr := d.boundary }

/-- `clear_screen`. -/
def clearScreen (sessMem sessId : Nat) (t : Terminals) : Terminals :=
  clear sessMem
    (t.setTerm sessId
      { t.term sessId with
        vidX := 0
        vidY := 0 })

/-- One round of the loop of `terminal_fwrite`. -/
def putByte (sessMem sessId : Nat) (c : UInt8) (t : Terminals) : Option Terminals :=
  if lineCheck (t.term sessId) ∧ c ≠ 10 then
    (sessPutc sessMem c sessId t).bind (newline sessMem sessId)
  else sessPutc sessMem c sessId t

/-- The loop of `terminal_fwrite`, where `skip` says that a newline comes after a line that
was full. -/
def terminalFwrite (sessMem sessId : Nat) : Bool → List UInt8 → Terminals → Option Terminals
  | _, [], t => some t
  | skip, c :: buf, t =>
      if skip = true ∧ c = 10 then terminalFwrite sessMem sessId false buf t
      else
        (putByte sessMem sessId c t).bind
          (terminalFwrite sessMem sessId (decide (lineCheck (t.term sessId) ∧ c ≠ 10)) buf)

/-! ## The mouse wheel -/

/-- `scroll_up`. -/
def scrollUp (t : Terminals) : Option Terminals :=
  let d := t.term t.cur
  if d.screenHead = d.boundary then some t
  else
    let head := d.screenHead - numCols
    if boundary1 ≤ head ∧ head + numCols ≤ historyEnd then
      let t := hideMouse (t.setTerm t.cur { d with screenHead := head })
      let t := t.store video ((List.range' numCols ((numRows - 1) * numCols)).reverse)
        (fun mem i => mem (cellAddr video (i - numCols))) fun _ _ => t.attrib
      let t := t.store video (List.range numCols) (fun mem i => mem (head + i)) fun _ _ => t.attrib
      some (showMouse t)
    else none

/-- `scroll_down`. -/
def scrollDown (t : Terminals) : Option Terminals :=
  let d := t.term t.cur
  if d.historyPtr ≤ d.screenHead + numCols * (numRows - 1) then some t
  else
    let head := d.screenHead + numCols
    if boundary1 ≤ head + numCols * (numRows - 1) ∧ head + numRows * numCols ≤ historyEnd then
      let t := hideMouse (t.setTerm t.cur { d with screenHead := head })
      let t := t.store video (List.range ((numRows - 1) * numCols))
        (fun mem i => mem (cellAddr video (i + numCols)))
        fun mem i => mem ((cellAddr video (i + numCols) + 1) % 2 ^ 32)
      let t := t.store video (List.range' ((numRows - 1) * numCols) numCols)
        (fun mem i => mem (head + i)) fun _ _ => t.attrib
      some (showMouse t)
    else none

/-! ## keyboard.c -/

/-- A session with another keyboard side. -/
def setInput (sessId : Nat) (i : Input) (t : Terminals) : Terminals :=
  t.setTerm sessId { t.term sessId with input := i }

/-- `print_regular_key`. -/
def printKey (info : KeyInfo) (keycode : Nat) (t : Terminals) : Option Terminals :=
  let i := (t.term t.cur).input
  let key := keyOf info keycode
  let typed := setInput t.cur (printRegularKey i info keycode) t
  if info.ctrlEn = true ∧ key = 108 then
    some (setInput t.cur (printRegularKey i info keycode) (clearScreen video t.cur t))
  else if info.ctrlEn = true ∧ key = 99 then some t
  else if key = 0 then some t
  else if i.kbdBufIdx < keyBufSize - 1 then
    if lineCheck (t.term t.cur) then (sessPutc video key t.cur typed).bind (newline video t.cur)
    else sessPutc video key t.cur typed
  else some t

/-- `delete_keystroke`. -/
def deleteKey (t : Terminals) : Option Terminals :=
  if (t.term t.cur).input.kbdBufIdx = 0 then some t
  else
    (backspace video t.cur t).map fun t' =>
      setInput t.cur (deleteKeystroke (t.term t.cur).input) t'

/-- The enter key of `keyboard_handler`. -/
def enterKey (t : Terminals) : Option Terminals :=
  newline video t.cur (setInput t.cur (keyboardEnter (t.term t.cur).input) t)

/-! ## panic.c -/

/-- The first half of `do_panic`: the screen is cleared and messages are printed, `printed`
the cells and characters of them. -/
def panicScreen (printed : List (Nat × UInt8)) (t : Terminals) : Terminals :=
  let t := clearScreen video t.cur t
  printed.foldl (fun t p => t.store video [p.1] (fun _ _ => p.2) fun _ _ => t.attrib) t

/-- The second half of `do_panic`, when the messages have been shown. -/
def panicClear (t : Terminals) : Terminals := clearScreen video t.cur t

/-! ## Runs -/

/-- What happens on the terminal: output to a session, whose screen is at `sessMem`, a key,
half of a panic, a switch or a turn of the wheel. -/
inductive Act
  | output (sessMem sessId : Nat) (c : UInt8)
  | key (info : KeyInfo) (keycode : Nat)
  | backspace
  | enter
  | panicScreen (printed : List (Nat × UInt8))
  | panicClear
  | sessSwitch (sessId : Nat)
  | scrollUp
  | scrollDown

/-- The terminal after it. -/
def Terminals.act (t : Terminals) : Act → Option Terminals
  | .output sessMem sessId c => putByte sessMem sessId c t
  | .key info keycode => printKey info keycode t
  | .backspace => deleteKey t
  | .enter => enterKey t
  | .panicScreen printed => some (Terminal.panicScreen printed t)
  | .panicClear => some (Terminal.panicClear t)
  | .sessSwitch sessId => some { t with console := (Terminal.sessSwitch t.console sessId).1 }
  | .scrollUp => Terminal.scrollUp t
  | .scrollDown => Terminal.scrollDown t

/-- The boundary of a session. -/
def boundaryOf : Nat → Nat
  | 0 => boundary1
  | 1 => boundary2
  | _ => boundary3

/-- The regions of the sessions lie in the page of the history. -/
theorem boundaryOf_page {s : Nat} (hs : s < numSess) :
    boundary1 ≤ boundaryOf s ∧ boundaryOf s + 0x100000 ≤ historyEnd := by
  have hcases : s = 0 ∨ s = 1 ∨ s = 2 := by
    unfold numSess at hs
    omega
  rcases hcases with rfl | rfl | rfl
  all_goals
    simp only [boundaryOf, boundary1, boundary2, boundary3, historyEnd]
    omega

/-- The terminal that `terminal_init` sets up. -/
structure Initial (t : Terminals) : Prop where
  displayed : t.cur < numSess
  term : ∀ s < numSess, (t.term s).vidX = 0 ∧ (t.term s).vidY = 0 ∧
    (t.term s).input.kbdBufIdx = 0 ∧ (t.term s).boundary = boundaryOf s ∧
    (t.term s).screenHead = boundaryOf s ∧ (t.term s).historyPtr = boundaryOf s
  cells : t.cells = []
  logged : t.logged = []

/-- Runs whose acts are all `ok` in the state they happen in. -/
def terminalSystem (ok : Terminals → Act → Prop) : TransitionSystem Terminals where
  init := Initial
  step t t' := ∃ a, ok t a ∧ t.act a = some t'

/-- A call of `terminal_fwrite` is a run of single characters. -/
theorem terminalFwrite_run {ok : Terminals → Act → Prop} {sessMem sessId : Nat}
    (hok : ∀ t c, ok t (.output sessMem sessId c)) (skip : Bool) (buf : List UInt8)
    {t t' : Terminals} (h : terminalFwrite sessMem sessId skip buf t = some t') :
    Relation.ReflTransGen (terminalSystem ok).step t t' := by
  induction buf generalizing skip t with
  | nil =>
      rw [← Option.some.inj h]
  | cons c buf ih =>
      rw [terminalFwrite] at h
      split at h
      · exact ih false h
      · obtain ⟨t₁, hput, hrest⟩ := Option.bind_eq_some_iff.mp h
        exact Relation.ReflTransGen.head ⟨_, hok t c, hput⟩ (ih _ hrest)

/-- The terminal after a list of acts. -/
def runActs : List Act → Terminals → Option Terminals
  | [], t => some t
  | a :: as, t => (t.act a).bind (runActs as)

theorem runActs_cons {a : Act} {t t' : Terminals} (h : t.act a = some t') (as : List Act) :
    runActs (a :: as) t = runActs as t' := by
  show (t.act a).bind (runActs as) = runActs as t'
  rw [h]
  rfl

theorem runActs_append (as bs : List Act) (t : Terminals) :
    runActs (as ++ bs) t = (runActs as t).bind (runActs bs) := by
  induction as generalizing t with
  | nil => rfl
  | cons a as ih =>
      show (t.act a).bind (runActs (as ++ bs)) = ((t.act a).bind (runActs as)).bind (runActs bs)
      rw [Option.bind_assoc]
      exact congrArg _ (funext ih)

/-- A list of acts that are all `ok` is a run. -/
theorem runActs_run {ok : Terminals → Act → Prop} {as : List Act}
    (hok : ∀ a ∈ as, ∀ t, ok t a) {t t' : Terminals} (h : runActs as t = some t') :
    Relation.ReflTransGen (terminalSystem ok).step t t' := by
  induction as generalizing t with
  | nil => rw [← Option.some.inj h]
  | cons a as ih =>
      obtain ⟨t₁, hact, hrest⟩ := Option.bind_eq_some_iff.mp h
      exact Relation.ReflTransGen.head ⟨a, hok a List.mem_cons_self t, hact⟩
        (ih (fun b hb => hok b (List.mem_cons_of_mem a hb)) hrest)

end Terminal
end NochOS
