import NochOS.Terminal.Input

/-!
# Terminal - editing a line

The keyboard handler takes scancodes: keys that are held change the meaning of others, and the
other keys edit the line in the buffer of the displayed session.  This module embeds the
handler and `terminal_fread`, and relates them to a line that characters are appended to as
long as there is room for them.

Main results:

- Definitions `keyboardHandler`, `terminalFread`: the two ends of the command buffer.
- Definition `Edited.press`: what a scancode does to the line.
- Theorem `Holds.keyboardHandler`: the buffer of the session holds the line.
- Theorem `line_edited`: the read that comes after the enter key returns the line.
-/

namespace NochOS
namespace Terminal
namespace LineEditing

open Library

/-! ## The handler -/

/-- `ENTER`. -/
def enter : Nat := 0x1C

/-- `LCTRL_PRESSED`. -/
def lctrlPressed : Nat := 0x1D

/-- What the handler of the keyboard works on: `key_info`, and the buffers of the sessions. -/
structure Keyboard where
  info : KeyInfo
  altEn : Bool
  curSessId : Nat
  sess : Nat → Input

/-- The displayed session with other buffers. -/
def Keyboard.setInput (k : Keyboard) (i : Input) : Keyboard :=
  { k with sess := Function.update k.sess k.curSessId i }

/-- The displayed session's buffers. -/
def Keyboard.input (k : Keyboard) : Input := k.sess k.curSessId

/-- The keys of `keyboard_handler` that change `key_info`. -/
def modify (info : KeyInfo) : Nat → KeyInfo
  | 0x2A | 0x36 => { info with shiftEn := true }
  | 0xAA | 0xB6 => { info with shiftEn := false }
  | 0x1D => { info with ctrlEn := true }
  | 0x9D => { info with ctrlEn := false }
  | 0x3A =>
      { info with
        capsEn := true
        capsStatus := !info.capsStatus }
  | 0xBA => { info with capsEn := false }
  | _ => info

/-- The scancodes that `keyboard_handler` hands to `print_regular_key`. -/
def isRegular (keycode : Nat) : Bool :=
  0x01 ≤ keycode && keycode ≤ 0x39 &&
    !decide (keycode ∈ [0x2A, 0x36, 0x1D, 0x38, 0x0E, 0x1C, 0x0F])

/-- `keyboard_handler`, as far as it concerns the buffers. -/
def keyboardHandler (keycode : Nat) (k : Keyboard) : Keyboard :=
  match keycode with
  | 0x38 => { k with altEn := true }
  | 0xB8 => { k with altEn := false }
  | 0x0E => k.setInput (deleteKeystroke k.input)
  | 0x1C => k.setInput (keyboardEnter k.input)
  | 0x3B => if k.altEn = true then { k with curSessId := 0 } else k
  | 0x3C => if k.altEn = true then { k with curSessId := 1 } else k
  | 0x3D => if k.altEn = true then { k with curSessId := 2 } else k
  | keycode =>
      if isRegular keycode = true then k.setInput (printRegularKey k.input k.info keycode)
      else { k with info := modify k.info keycode }

/-! ## The reader -/

/-- `terminal_fread` of a process of the session: what it returns, the buffer and the session.
It waits as long as no line is available. -/
def terminalFread (i : Input) (buf : Option Buf) (nbytes : Nat) :
    Option (Int × Option Buf × Input) :=
  match buf with
  | none => some (-1, none, i)
  | some buf =>
      if i.cmdAvailable = true then
        let line := freadCopy i nbytes
        some (line.length, some (strncpy buf 0 line line.length),
          { i with cmdAvailable := false })
      else none

/-! ## The line -/

/-- A line that is edited, and the keys that are held. -/
structure Edited where
  info : KeyInfo
  line : List UInt8

/-- A character is appended if there is room. -/
def typeChar (line : List UInt8) (c : UInt8) : List UInt8 :=
  if line.length < keyBufSize - 1 then line ++ [c] else line

/-- What a scancode does to the line. -/
def Edited.press (e : Edited) (keycode : Nat) : Edited :=
  if keycode = 0x0E then { e with line := e.line.dropLast }
  else if isRegular keycode = true then
    if keyOf e.info keycode = 0 then e
    else { e with line := typeChar e.line (keyOf e.info keycode) }
  else { e with info := modify e.info keycode }

/-- The line after several scancodes, from an empty one. -/
def editedLine (info : KeyInfo) (codes : List Nat) : List UInt8 :=
  (codes.foldl Edited.press ⟨info, []⟩).line

/-- The scancodes come in, and then that of the enter key. -/
def enterLine (codes : List Nat) (k : Keyboard) : Keyboard :=
  keyboardHandler enter (codes.foldl (fun k c => keyboardHandler c k) k)

/-- Scancodes other than those of the enter key, of the control key and of the keys that switch
the session. -/
def IsEditing (keycode : Nat) : Prop :=
  keycode ≠ enter ∧ keycode ≠ lctrlPressed ∧ keycode ∉ [0x3B, 0x3C, 0x3D]

/-! ## The buffer holds the line -/

/-- The text in the keyboard buffer. -/
def typedText (i : Input) : List UInt8 := bytesAt i.kbdBuf 0 i.kbdBufIdx

/-- The keyboard is where the editing is, and control is not held. -/
structure Holds (k : Keyboard) (e : Edited) : Prop where
  info : k.info = e.info
  ctrl : k.info.ctrlEn = false
  typed : Typed k.input
  text : typedText k.input = e.line

section Keys

variable {i : Input} {info : KeyInfo} {keycode : Nat}

/-- A key appends its character. -/
theorem typedText_printRegularKey (hctrl : info.ctrlEn = false) :
    typedText (printRegularKey i info keycode) =
      if keyOf info keycode = 0 then typedText i
      else typeChar (typedText i) (keyOf info keycode) := by
  have hclear : ¬ (info.ctrlEn = true ∧ keyOf info keycode = 108) := by simp [hctrl]
  have hkill : ¬ (info.ctrlEn = true ∧ keyOf info keycode = 99) := by simp [hctrl]
  have hlength : (typedText i).length = i.kbdBufIdx := length_bytesAt ..
  unfold typeChar
  rw [hlength]
  simp only [printRegularKey, if_neg hclear, if_neg hkill]
  by_cases hnull : keyOf info keycode = 0
  · rw [if_pos hnull, if_pos hnull]
  · rw [if_neg hnull, if_neg hnull]
    by_cases hroom : i.kbdBufIdx < keyBufSize - 1
    · rw [if_pos hroom, if_pos hroom]
      have hself : bytesAt i.kbdBuf 0 (typedText i).length = typedText i := by
        rw [hlength]
        rfl
      have happend := bytesAt_update hself (keyOf info keycode)
      rw [List.length_append, hlength] at happend
      exact happend
    · rw [if_neg hroom, if_neg hroom]

/-- The backspace key drops the last one. -/
theorem typedText_deleteKeystroke : typedText (deleteKeystroke i) = (typedText i).dropLast := by
  unfold typedText deleteKeystroke
  by_cases hempty : i.kbdBufIdx = 0
  · rw [if_pos hempty, hempty]
    rfl
  · rw [if_neg hempty]
    obtain ⟨n, hn⟩ := Nat.exists_eq_succ_of_ne_zero hempty
    have hkept : bytesAt (Function.update i.kbdBuf n 0) 0 n = bytesAt i.kbdBuf 0 n := by
      apply bytesAt_congr
      intro j hj
      rw [Nat.zero_add, Function.update_of_ne (Nat.ne_of_lt hj)]
    rw [hn, Nat.succ_eq_add_one, Nat.add_sub_cancel, hkept, bytesAt_add]
    exact List.dropLast_concat.symm

end Keys

section Handler

variable {k : Keyboard} {e : Edited} {keycode : Nat}

@[simp] theorem input_setInput (k : Keyboard) (i : Input) : (k.setInput i).input = i :=
  Function.update_self ..

/-- The handler without the keys that have cases of their own. -/
theorem keyboardHandler_of_editing (h : IsEditing keycode) (hback : keycode ≠ 0x0E) :
    ((keyboardHandler keycode k).input =
        if isRegular keycode = true then printRegularKey k.input k.info keycode else k.input) ∧
      (keyboardHandler keycode k).info =
        (if isRegular keycode = true then k.info else modify k.info keycode) ∧
      (keyboardHandler keycode k).curSessId = k.curSessId := by
  obtain ⟨henter, -, hswitch⟩ := h
  unfold enter at henter
  simp only [List.mem_cons, List.not_mem_nil, or_false, not_or] at hswitch
  unfold keyboardHandler
  split
  · exact ⟨rfl, rfl, rfl⟩
  · exact ⟨rfl, rfl, rfl⟩
  · exact absurd rfl hback
  · exact absurd rfl henter
  · exact absurd rfl hswitch.1
  · exact absurd rfl hswitch.2.1
  · exact absurd rfl hswitch.2.2
  · split
    · exact ⟨input_setInput _ _, rfl, rfl⟩
    · exact ⟨rfl, rfl, rfl⟩

/-- Only the control key starts to hold control. -/
theorem ctrlEn_modify {info : KeyInfo} (hctrl : info.ctrlEn = false) (h : keycode ≠ lctrlPressed) :
    (modify info keycode).ctrlEn = false := by
  unfold modify
  split
  all_goals first | exact hctrl | rfl | exact absurd rfl h

/-- An editing key does to the buffer what it does to the line. -/
theorem Holds.keyboardHandler (h : Holds k e) (hedit : IsEditing keycode) :
    Holds (LineEditing.keyboardHandler keycode k) (e.press keycode) ∧
      (LineEditing.keyboardHandler keycode k).curSessId = k.curSessId := by
  unfold Edited.press
  by_cases hback : keycode = 0x0E
  · subst hback
    refine ⟨⟨h.info, h.ctrl, ?_, ?_⟩, rfl⟩
    · show Typed (k.setInput (deleteKeystroke k.input)).input
      rw [input_setInput]
      exact h.typed.deleteKeystroke.1
    · show typedText (k.setInput (deleteKeystroke k.input)).input = e.line.dropLast
      rw [input_setInput, typedText_deleteKeystroke, h.text]
  · rw [if_neg hback]
    obtain ⟨hinput, hinfo, hcur⟩ := keyboardHandler_of_editing (k := k) hedit hback
    refine ⟨?_, hcur⟩
    by_cases hregular : isRegular keycode = true
    · rw [if_pos hregular] at hinput hinfo ⊢
      have hclear : ¬ (k.info.ctrlEn = true ∧ keyOf k.info keycode = 108) := by
        simp [h.ctrl]
      have htext : typedText (printRegularKey k.input k.info keycode) = _ :=
        typedText_printRegularKey h.ctrl
      rw [h.text, h.info] at htext
      have htyped := (h.typed.printRegularKey hclear).1
      rw [h.info] at hinput hinfo htyped
      by_cases hnull : keyOf e.info keycode = 0
      · rw [if_pos hnull] at htext ⊢
        refine ⟨hinfo, ?_, ?_, ?_⟩
        · rw [hinfo, ← h.info]
          exact h.ctrl
        · rw [hinput]
          exact htyped
        · rw [hinput]
          exact htext
      · rw [if_neg hnull] at htext ⊢
        refine ⟨hinfo, ?_, ?_, ?_⟩
        · rw [hinfo, ← h.info]
          exact h.ctrl
        · rw [hinput]
          exact htyped
        · rw [hinput]
          exact htext
    · rw [if_neg hregular] at hinput hinfo ⊢
      refine ⟨?_, ?_, ?_, ?_⟩
      · rw [hinfo, h.info]
      · rw [hinfo]
        exact ctrlEn_modify h.ctrl hedit.2.1
      · rw [hinput]
        exact h.typed
      · rw [hinput]
        exact h.text

/-- So do several of them. -/
theorem Holds.foldl (h : Holds k e) {codes : List Nat} (hedit : ∀ c ∈ codes, IsEditing c) :
    Holds (codes.foldl (fun k c => LineEditing.keyboardHandler c k) k)
        (codes.foldl Edited.press e) ∧
      (codes.foldl (fun k c => LineEditing.keyboardHandler c k) k).curSessId = k.curSessId := by
  induction codes generalizing k e with
  | nil => exact ⟨h, rfl⟩
  | cons c codes ih =>
      obtain ⟨hfirst, hcur⟩ := h.keyboardHandler (hedit c List.mem_cons_self)
      obtain ⟨hrest, hcur'⟩ := ih hfirst fun d hd => hedit d (List.mem_cons_of_mem c hd)
      exact ⟨hrest, hcur'.trans hcur⟩

end Handler

/-! ## Reading the line -/

section Reading

variable {i : Input}

/-- The copy loop takes from the line as many bytes as it is asked for. -/
theorem copyLine_take (b : Buf) {text : List UInt8} (htext : newlineChar ∉ text) (off n : Nat)
    (hb : bytesAt b off (text.length + 1) = text ++ [newlineChar]) :
    copyLine b off n = (text ++ [newlineChar]).take n := by
  by_cases hlong : text.length < n
  · rw [copyLine_eq b htext off n hlong hb, List.take_of_length_le]
    rw [List.length_append]
    exact hlong
  · -- a short read ends before the newline
    induction n generalizing text off with
    | zero => rfl
    | succ n ih =>
        cases text with
        | nil => exact absurd (Nat.succ_pos n) hlong
        | cons c text =>
            obtain ⟨hc, htext⟩ := not_or.mp (List.mem_cons.not.mp htext)
            rw [List.length_cons, bytesAt_succ, List.cons_append] at hb
            obtain ⟨hfirst, hrest⟩ := List.cons.inj hb
            have hne : b off ≠ newlineChar := by
              rw [hfirst]
              exact Ne.symm hc
            rw [copyLine, if_neg hne, hfirst, List.cons_append, List.take_succ_cons,
              ih htext (off + 1) hrest fun h => hlong (Nat.succ_lt_succ h)]

/-- A read of a line that stands in the command buffer. -/
theorem freadCopy_take {line : List UInt8} (h : HoldsLine i.cmdBuf line) (nbytes : Nat) :
    freadCopy i nbytes = line.take nbytes := by
  obtain ⟨text, rfl, htext, hroom, hb⟩ := h
  unfold freadCopy
  by_cases hbig : nbytes > keyBufSize
  · rw [if_pos hbig, copyLine_take i.cmdBuf htext 0 keyBufSize hb]
    have hle : (text ++ [newlineChar]).length ≤ keyBufSize := by
      rw [List.length_append]
      exact hroom
    rw [List.take_of_length_le hle, List.take_of_length_le (Nat.le_trans hle (Nat.le_of_lt hbig))]
  · rw [if_neg hbig, copyLine_take i.cmdBuf htext 0 nbytes hb]

/-- The enter key empties the keyboard buffer. -/
theorem keyboardEnter_empties (h : Typed i) :
    (keyboardEnter i).kbdBufIdx = 0 ∧ ∀ j < keyBufSize, (keyboardEnter i).kbdBuf j = 0 := by
  unfold keyboardEnter setNewline
  rw [if_pos h.room]
  refine ⟨rfl, ?_⟩
  intro j hj
  show memset _ 0 0 keyBufSize j = 0
  unfold memset
  rw [if_pos ⟨Nat.zero_le j, by omega⟩]

end Reading

/-- From an empty buffer, whatever is typed and taken back in the displayed session without
control and then ended by the enter key: a read of `nbytes` from the session returns the bytes
of the edited line with its newline, as far as they are asked for, and the keyboard buffer is
empty. -/
theorem line_edited (k : Keyboard) (hctrl : k.info.ctrlEn = false)
    (hempty : k.input.kbdBufIdx = 0) {codes : List Nat} (hcodes : ∀ c ∈ codes, IsEditing c)
    (buf : Buf) (nbytes : Nat) :
    ∃ (count : Nat) (buf' : Buf) (i : Input),
      terminalFread ((enterLine codes k).sess k.curSessId) (some buf) nbytes =
          some ((count : Int), some buf', i) ∧
        count = min nbytes ((editedLine k.info codes).length + 1) ∧
        bytesAt buf' 0 count = (editedLine k.info codes ++ [newlineChar]).take nbytes ∧
        (∀ j, count ≤ j → buf' j = buf j) ∧
        i.kbdBufIdx = 0 ∧ ∀ j < keyBufSize, i.kbdBuf j = 0 := by
  have hstart : Holds k ⟨k.info, []⟩ := by
    refine ⟨rfl, hctrl, ⟨?_, ?_⟩, ?_⟩
    · rw [hempty]
      decide
    · intro j hj
      rw [hempty] at hj
      exact absurd hj (Nat.not_lt_zero j)
    · unfold typedText
      rw [hempty]
      rfl
  obtain ⟨hholds, hcur⟩ := hstart.foldl hcodes
  unfold enterLine
  generalize codes.foldl (fun k c => keyboardHandler c k) k = typed at hholds hcur
  have hentered : (keyboardHandler enter typed).sess k.curSessId = keyboardEnter typed.input := by
    rw [← hcur]
    exact input_setInput typed (keyboardEnter typed.input)
  obtain ⟨-, hstored, havail⟩ := hholds.typed.keyboardEnter
  obtain ⟨hidx, hzero⟩ := keyboardEnter_empties hholds.typed
  have hline : enteredLine typed.input = editedLine k.info codes ++ [newlineChar] :=
    congrArg (· ++ [newlineChar]) hholds.text
  rw [hline] at hstored
  have hcopy := freadCopy_take hstored nbytes
  unfold terminalFread
  rw [hentered]
  dsimp only
  rw [if_pos havail]
  refine ⟨_, _, _, rfl, ?_, ?_, ?_, hidx, hzero⟩
  · rw [hcopy, List.length_take, List.length_append]
    rfl
  · rw [bytesAt_strncpy, hcopy]
  · intro j hj
    exact strncpy_outside (Or.inr (by omega))

/-- A keyboard before the first key. -/
def freshKeyboard : Keyboard where
  info := plainKeys
  altEn := false
  curSessId := 0
  sess := fun _ => freshStdin.input

/-- `Q` with the shift key, `w`, and a backspace. -/
theorem line_edited_shift :
    ∃ (count : Nat) (buf' : Buf) (i : Input),
      terminalFread ((enterLine [0x2A, 16, 0xAA, 17, 0x0E] freshKeyboard).sess 0)
          (some fun _ => 0) 5 = some ((count : Int), some buf', i) ∧
        count = min 5 ((editedLine plainKeys [0x2A, 16, 0xAA, 17, 0x0E]).length + 1) ∧
        bytesAt buf' 0 count =
          (editedLine plainKeys [0x2A, 16, 0xAA, 17, 0x0E] ++ [newlineChar]).take 5 ∧
        (∀ j, count ≤ j → buf' j = 0) ∧
        i.kbdBufIdx = 0 ∧ ∀ j < keyBufSize, i.kbdBuf j = 0 :=
  line_edited freshKeyboard rfl rfl (by simp [IsEditing, enter, lctrlPressed]) (fun _ => 0) 5

end LineEditing
end Terminal
end NochOS
