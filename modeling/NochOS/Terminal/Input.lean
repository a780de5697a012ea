import NochOS.Library.CString
import NochOS.Library.Transition

/-!
# Terminal - from the keyboard to a reader

The keyboard interrupt collects a line in `kbd_buf`; the enter key copies it to
`cmd_buf` and sets `cmd_available`.  A reader waits for the flag, clears it and then
copies `cmd_buf` up to the newline.  Interrupts are off only while it copies, and
there is one `cmd_buf`: a line that no reader has copied is replaced by the next one.

Main results:

- Definitions `printRegularKey`, `deleteKeystroke`, `keyboardEnter`: the keyboard's
  side of a session.
- Theorem `Delivering.copy`: whatever the interleaving, a read returns the line that
  was entered last.
- Theorem `lines_delivered`: which lines successive reads return.
- Theorem `line_lost_and_repeated`: lines that are lost, and one that is read twice.
-/

namespace NochOS
namespace Terminal

open Library

/-- `KEY_BUF_SIZE`. -/
def keyBufSize : Nat := 128

/-- The newline character. -/
def newlineChar : UInt8 := 10

/-! ## Keys -/

/-- `key_normal`. -/
def keyNormal : List UInt8 :=
  [0, 0, 49, 50, 51, 52, 53, 54, 55, 56, 57, 48, 45, 61, 0, 0, 113, 119, 101, 114, 116, 121, 117,
    105, 111, 112, 91, 93, 0, 0, 97, 115, 100, 102, 103, 104, 106, 107, 108, 59, 39, 96, 0, 92,
    122, 120, 99, 118, 98, 110, 109, 44, 46, 47, 0, 42, 0, 32]

/-- `key_shift`. -/
def keyShift : List UInt8 :=
  [0, 0, 33, 64, 35, 36, 37, 94, 38, 42, 40, 41, 95, 43, 0, 0, 81, 87, 69, 82, 84, 89, 85, 73, 79,
    80, 123, 125, 0, 0, 65, 83, 68, 70, 71, 72, 74, 75, 76, 58, 34, 126, 0, 124, 90, 88, 67, 86,
    66, 78, 77, 60, 62, 63, 0, 42, 0, 32]

/-- `key_capslock`. -/
def keyCapslock : List UInt8 :=
  [0, 0, 49, 50, 51, 52, 53, 54, 55, 56, 57, 48, 45, 61, 0, 0, 81, 87, 69, 82, 84, 89, 85, 73, 79,
    80, 91, 93, 0, 0, 65, 83, 68, 70, 71, 72, 74, 75, 76, 59, 39, 96, 0, 92, 90, 88, 67, 86, 66,
    78, 77, 44, 46, 47, 0, 42, 0, 32]

/-- `key_shiftcaps`. -/
def keyShiftcaps : List UInt8 :=
  [0, 0, 33, 64, 35, 36, 37, 94, 38, 42, 40, 41, 95, 43, 0, 0, 113, 119, 101, 114, 116, 121, 117,
    105, 111, 112, 123, 125, 0, 0, 97, 115, 100, 102, 103, 104, 106, 107, 108, 58, 124, 126, 0,
    124, 122, 120, 99, 118, 98, 110, 109, 60, 62, 63, 0, 42, 0, 32]

/-- `keyboard_state_t`, without the keys that no line depends on. -/
structure KeyInfo where
  shiftEn : Bool
  capsEn : Bool
  capsStatus : Bool
  ctrlEn : Bool

/-- The key that `print_regular_key` finds for a scancode. -/
def keyOf (info : KeyInfo) (keycode : Nat) : UInt8 :=
  match info.shiftEn, info.capsEn, info.capsStatus with
  | false, false, false => keyNormal.getD keycode 0
  | false, false, true => keyCapslock.getD keycode 0
  | true, false, false => keyShift.getD keycode 0
  | true, false, true => keyShiftcaps.getD keycode 0
  | false, true, false => keyNormal.getD keycode 0
  | false, true, true => keyCapslock.getD keycode 0
  | true, true, false => keyShift.getD keycode 0
  | true, true, true => keyShiftcaps.getD keycode 0

/-- A default that a list is searched with, or a member of the list. -/
theorem getD_ne {l : List UInt8} {c d : UInt8} (hl : c ∉ l) (hd : c ≠ d) (i : Nat) :
    l.getD i d ≠ c := by
  rw [List.getD_eq_getElem?_getD]
  by_cases hi : i < l.length
  · rw [List.getElem?_eq_getElem hi, Option.getD_some]
    exact fun heq => hl (heq ▸ List.getElem_mem hi)
  · rw [List.getElem?_eq_none (Nat.le_of_not_lt hi), Option.getD_none]
    exact Ne.symm hd

/-- No key of the maps is a newline. -/
theorem keyOf_ne_newlineChar (info : KeyInfo) (keycode : Nat) :
    keyOf info keycode ≠ newlineChar := by
  unfold keyOf
  split
  all_goals exact getD_ne (by decide) (by decide) keycode

/-- No key of the maps is a carriage return. -/
theorem keyOf_ne_return (info : KeyInfo) (keycode : Nat) : keyOf info keycode ≠ 13 := by
  unfold keyOf
  split
  all_goals exact getD_ne (by decide) (by decide) keycode

/-! ## The keyboard's side of a session -/

/-- The fields of `sess_t` that pass a line on. -/
structure Input where
  kbdBuf : Buf
  kbdBufIdx : Nat
  cmdBuf : Buf
  cmdAvailable : Bool

/-- `print_regular_key`, as far as it concerns the buffers. -/
def printRegularKey (i : Input) (info : KeyInfo) (keycode : Nat) : Input :=
  let key := keyOf info keycode
  if info.ctrlEn = true ∧ key = 108 then
    { kbdBuf := memset i.kbdBuf 0 0 keyBufSize
      kbdBufIdx := 0
      cmdBuf := Function.update i.cmdBuf 0 0
      cmdAvailable := true }
  else if info.ctrlEn = true ∧ key = 99 then i
  else if key = 0 then i
  else if i.kbdBufIdx < keyBufSize - 1 then
    { i with
      kbdBuf := Function.update i.kbdBuf i.kbdBufIdx key
      kbdBufIdx := i.kbdBufIdx + 1 }
  else i

/-- `delete_keystroke`. -/
def deleteKeystroke (i : Input) : Input :=
  if i.kbdBufIdx = 0 then i
  else
    { i with
      kbdBuf := Function.update i.kbdBuf (i.kbdBufIdx - 1) 0
      kbdBufIdx := i.kbdBufIdx - 1 }

/-- `cmd_cached_store`. -/
def cmdCachedStore (i : Input) : Input :=
  { i with
    cmdBuf := strncpy i.cmdBuf 0 ((bytesAt i.kbdBuf 0 keyBufSize).takeWhile (· ≠ 0)) keyBufSize }

/-- `set_newline`. -/
def setNewline (i : Input) : Input :=
  if i.kbdBufIdx < keyBufSize then
    let i := { i with kbdBuf := Function.update i.kbdBuf i.kbdBufIdx newlineChar }
    let i := cmdCachedStore i
    { i with
      kbdBuf := memset i.kbdBuf 0 0 keyBufSize
      kbdBufIdx := 0 }
  else i

/-- The enter key of `keyboard_handler`. -/
def keyboardEnter (i : Input) : Input := { setNewline i with cmdAvailable := true }

/-- The line that the enter key completes. -/
def enteredLine (i : Input) : List UInt8 := bytesAt i.kbdBuf 0 i.kbdBufIdx ++ [newlineChar]

/-! ## The reader's side -/

/-- The loop of `terminal_fread` that copies a line: the bytes it copies. -/
def copyLine (b : Buf) (off : Nat) : Nat → List UInt8
  | 0 => []
  | n + 1 => if b off = newlineChar then [newlineChar] else b off :: copyLine b (off + 1) n

/-- What `terminal_fread` copies for a request of `nbytes`. -/
def freadCopy (i : Input) (nbytes : Nat) : List UInt8 :=
  copyLine i.cmdBuf 0 (if nbytes > keyBufSize then keyBufSize else nbytes)

/-- Where `terminal_fread` is: waiting for the flag, about to clear it, or about to
copy. -/
inductive ReadPhase
  | waiting
  | seen
  | cleared
deriving DecidableEq

/-- A session with its reader, the lines entered so far and those its reads returned. -/
structure Stdin where
  input : Input
  phase : ReadPhase
  entered : List (List UInt8)
  returned : List (List UInt8)

/-- What happens at one time: a key, or a step of the reader. -/
inductive Event
  | key (info : KeyInfo) (keycode : Nat)
  | backspace
  | enter
  | look
  | clear
  | copy (nbytes : Nat)

/-- The next step of the reader follows its last one, and keys other than the one that
clears the screen are typed. -/
def Follows (s : Stdin) : Event → Prop
  | .key info keycode => ¬ (info.ctrlEn = true ∧ keyOf info keycode = 108)
  | .backspace | .enter => True
  | .look => s.phase = .waiting
  | .clear => s.phase = .seen
  | .copy nbytes => s.phase = .cleared ∧ keyBufSize ≤ nbytes

/-- The session after an event. -/
def perform (s : Stdin) : Event → Stdin
  | .key info keycode => { s with input := printRegularKey s.input info keycode }
  | .backspace => { s with input := deleteKeystroke s.input }
  | .enter =>
      { s with
        input := keyboardEnter s.input
        entered := s.entered ++ [enteredLine s.input] }
  | .look => if s.input.cmdAvailable = true then { s with phase := .seen } else s
  | .clear =>
      { s with
        input := { s.input with cmdAvailable := false }
        phase := .cleared }
  | .copy nbytes =>
      { s with
        phase := .waiting
        returned := s.returned ++ [freadCopy s.input nbytes] }

/-- A session that `terminal_init` has set up. -/
structure Fresh (s : Stdin) : Prop where
  empty : s.input.kbdBufIdx = 0
  unavailable : s.input.cmdAvailable = false
  phase : s.phase = .waiting
  entered : s.entered = []
  returned : s.returned = []

/-- Runs whose every event is allowed in the state it happens in. -/
def stdinSystem (allowed : Stdin → Event → Prop) : TransitionSystem Stdin where
  init := Fresh
  step s s' := ∃ e, Follows s e ∧ allowed s e ∧ s' = perform s e

/-! ## Lines in the buffers -/

/-- What was typed is short enough for the buffer and holds neither zero nor newline. -/
structure Typed (i : Input) : Prop where
  room : i.kbdBufIdx < keyBufSize
  text : ∀ j < i.kbdBufIdx, i.kbdBuf j ≠ 0 ∧ i.kbdBuf j ≠ newlineChar

/-- The line stands at the start of the buffer, and its only newline is at its end. -/
def HoldsLine (b : Buf) (line : List UInt8) : Prop :=
  ∃ text, line = text ++ [newlineChar] ∧ newlineChar ∉ text ∧ text.length < keyBufSize ∧
    bytesAt b 0 (text.length + 1) = line

/-- The copy loop stops at the end of the line. -/
theorem copyLine_eq (b : Buf) {text : List UInt8} (htext : newlineChar ∉ text) (off n : Nat)
    (hroom : text.length < n) (hb : bytesAt b off (text.length + 1) = text ++ [newlineChar]) :
    copyLine b off n = text ++ [newlineChar] := by
  induction text generalizing off n with
  | nil =>
      obtain ⟨n, rfl⟩ := Nat.exists_eq_succ_of_ne_zero (Nat.ne_of_gt hroom)
      rw [List.length_nil, bytesAt_succ] at hb
      have hfirst : b off = newlineChar := (List.cons.inj hb).1
      rw [copyLine, if_pos hfirst, List.nil_append]
  | cons c text ih =>
      obtain ⟨hc, htext⟩ := not_or.mp (List.mem_cons.not.mp htext)
      obtain ⟨n, rfl⟩ := Nat.exists_eq_succ_of_ne_zero (Nat.ne_of_gt (Nat.zero_lt_of_lt hroom))
      rw [List.length_cons, bytesAt_succ, List.cons_append] at hb
      obtain ⟨hfirst, hrest⟩ := List.cons.inj hb
      have hne : b off ≠ newlineChar := by
        rw [hfirst]
        exact Ne.symm hc
      rw [copyLine, if_neg hne, hfirst, List.cons_append,
        ih htext (off + 1) n (Nat.lt_of_succ_lt_succ hroom) hrest]

/-- A read of at least the size of the buffer copies the line that stands in it. -/
theorem freadCopy_eq {i : Input} {line : List UInt8} (h : HoldsLine i.cmdBuf line) {nbytes : Nat}
    (hn : keyBufSize ≤ nbytes) : freadCopy i nbytes = line := by
  obtain ⟨text, rfl, htext, hroom, hb⟩ := h
  have hcap : (if nbytes > keyBufSize then keyBufSize else nbytes) = keyBufSize := by
    split
    · rfl
    · omega
  unfold freadCopy
  rw [hcap]
  exact copyLine_eq i.cmdBuf htext 0 keyBufSize hroom hb

/-- Typing a key other than the one that clears the screen leaves the command buffer
alone. -/
theorem Typed.printRegularKey {i : Input} (h : Typed i) {info : KeyInfo} {keycode : Nat}
    (hclear : ¬ (info.ctrlEn = true ∧ keyOf info keycode = 108)) :
    Typed (Terminal.printRegularKey i info keycode) ∧
      (Terminal.printRegularKey i info keycode).cmdBuf = i.cmdBuf ∧
      (Terminal.printRegularKey i info keycode).cmdAvailable = i.cmdAvailable := by
  simp only [Terminal.printRegularKey, if_neg hclear]
  by_cases hkill : info.ctrlEn = true ∧ keyOf info keycode = 99
  · rw [if_pos hkill]
    exact ⟨h, rfl, rfl⟩
  · rw [if_neg hkill]
    by_cases hnull : keyOf info keycode = 0
    · rw [if_pos hnull]
      exact ⟨h, rfl, rfl⟩
    · rw [if_neg hnull]
      by_cases hroom : i.kbdBufIdx < keyBufSize - 1
      · rw [if_pos hroom]
        refine ⟨⟨?_, ?_⟩, rfl, rfl⟩
        · show i.kbdBufIdx + 1 < keyBufSize
          omega
        · intro j hj
          rcases Nat.lt_succ_iff_lt_or_eq.mp hj with hlt | rfl
          · simp only [Function.update_of_ne (Nat.ne_of_lt hlt)]
            exact h.text j hlt
          · simp only [Function.update_self]
            exact ⟨hnull, keyOf_ne_newlineChar info keycode⟩
      · rw [if_neg hroom]
        exact ⟨h, rfl, rfl⟩

theorem Typed.deleteKeystroke {i : Input} (h : Typed i) :
    Typed (Terminal.deleteKeystroke i) ∧
      (Terminal.deleteKeystroke i).cmdBuf = i.cmdBuf ∧
      (Terminal.deleteKeystroke i).cmdAvailable = i.cmdAvailable := by
  unfold Terminal.deleteKeystroke
  by_cases hempty : i.kbdBufIdx = 0
  · rw [if_pos hempty]
    exact ⟨h, rfl, rfl⟩
  · rw [if_neg hempty]
    have hroom := h.room
    refine ⟨⟨?_, ?_⟩, rfl, rfl⟩
    · show i.kbdBufIdx - 1 < keyBufSize
      omega
    · intro j hj
      have hlt : j < i.kbdBufIdx - 1 := hj
      simp only [Function.update_of_ne (Nat.ne_of_lt hlt)]
      exact h.text j (by omega)

/-- The enter key puts the typed line into the command buffer. -/
theorem Typed.keyboardEnter {i : Input} (h : Typed i) :
    Typed (Terminal.keyboardEnter i) ∧
      HoldsLine (Terminal.keyboardEnter i).cmdBuf (enteredLine i) ∧
      (Terminal.keyboardEnter i).cmdAvailable = true := by
  have hroom := h.room
  have htyped : Typed (Terminal.keyboardEnter i) := by
    simp only [Terminal.keyboardEnter, setNewline, if_pos hroom]
    have hempty : 0 < keyBufSize := by decide
    exact ⟨hempty, fun j hj => absurd hj (Nat.not_lt_zero j)⟩
  have hbefore : ∀ j < i.kbdBufIdx,
      Function.update i.kbdBuf i.kbdBufIdx newlineChar (0 + j) = i.kbdBuf (0 + j) := by
    intro j hj
    rw [Nat.zero_add, Function.update_of_ne (Nat.ne_of_lt hj)]
  have hline : bytesAt (Function.update i.kbdBuf i.kbdBufIdx newlineChar) 0 (i.kbdBufIdx + 1) =
      enteredLine i := by
    rw [bytesAt_add, bytesAt_congr hbefore, enteredLine]
    congr 1
    simp [bytesAt]
  refine ⟨htyped, ⟨bytesAt i.kbdBuf 0 i.kbdBufIdx, rfl, ?_, ?_, ?_⟩, rfl⟩
  · intro hmem
    obtain ⟨j, hj, heq⟩ := List.mem_map.mp hmem
    rw [Nat.zero_add] at heq
    exact (h.text j (List.mem_range.mp hj)).2 heq
  · rw [length_bytesAt]
    exact hroom
  · rw [length_bytesAt, ← hline]
    simp only [Terminal.keyboardEnter, setNewline, if_pos hroom, cmdCachedStore]
    refine bytesAt_strncpy_takeWhile _ _ 0 0 hroom ?_
    intro j hj
    rcases Nat.lt_succ_iff_lt_or_eq.mp hj with hlt | rfl
    · rw [hbefore j hlt, Nat.zero_add]
      exact (h.text j hlt).1
    · rw [Nat.zero_add, Function.update_self]
      decide

/-! ## Invariants -/

/-- A line is waiting for the reader, or being read. -/
def Pending (s : Stdin) : Prop := s.input.cmdAvailable = true ∨ s.phase ≠ .waiting

/-- The line entered last stands in the command buffer, and one was entered if the
reader has seen it. -/
structure Delivering (s : Stdin) : Prop where
  typed : Typed s.input
  stored : ∀ line, s.entered.getLast? = some line → HoldsLine s.input.cmdBuf line
  pending : Pending s → s.entered ≠ []
  known : ∀ line ∈ s.returned, line ∈ s.entered

theorem Fresh.delivering {s : Stdin} (h : Fresh s) : Delivering s where
  typed := by
    constructor
    · rw [h.empty]
      decide
    · intro j hj
      rw [h.empty] at hj
      exact absurd hj (Nat.not_lt_zero j)
  stored line hline := by
    rw [h.entered] at hline
    exact absurd hline.symm (Option.some_ne_none line)
  pending hpending := by
    rcases hpending with havail | hphase
    · rw [h.unavailable] at havail
      exact absurd havail (by decide)
    · exact absurd h.phase hphase
  known line hline := by
    rw [h.returned] at hline
    exact absurd hline List.not_mem_nil

/-- A step of the line editor leaves everything about complete lines alone. -/
theorem Delivering.edit {s : Stdin} (h : Delivering s) {i : Input} (htyped : Typed i)
    (hcmd : i.cmdBuf = s.input.cmdBuf) (havail : i.cmdAvailable = s.input.cmdAvailable) :
    Delivering { s with input := i } where
  typed := htyped
  stored line hline := by
    show HoldsLine i.cmdBuf line
    rw [hcmd]
    exact h.stored line hline
  pending hpending := by
    apply h.pending
    unfold Pending at hpending ⊢
    rw [← havail]
    exact hpending
  known := h.known

/-- The copy of a read is the line that was entered last. -/
theorem Delivering.copy {s : Stdin} (h : Delivering s) (hphase : s.phase = .cleared) :
    ∃ earlier line, s.entered = earlier ++ [line] ∧
      ∀ nbytes, keyBufSize ≤ nbytes → freadCopy s.input nbytes = line := by
  have hne : s.entered ≠ [] := by
    apply h.pending
    refine Or.inr ?_
    rw [hphase]
    decide
  refine ⟨s.entered.dropLast, s.entered.getLast hne, (List.dropLast_concat_getLast hne).symm, ?_⟩
  intro nbytes hn
  exact freadCopy_eq (h.stored _ (List.getLast?_eq_some_getLast hne)) hn

/-- Every event keeps the last line in its place. -/
theorem Delivering.perform {s : Stdin} (h : Delivering s) (e : Event) (he : Follows s e) :
    Delivering (Terminal.perform s e) := by
  cases e with
  | key info keycode =>
      obtain ⟨htyped, hcmd, havail⟩ := h.typed.printRegularKey he
      exact h.edit htyped hcmd havail
  | backspace =>
      obtain ⟨htyped, hcmd, havail⟩ := h.typed.deleteKeystroke
      exact h.edit htyped hcmd havail
  | enter =>
      obtain ⟨htyped, hline, -⟩ := h.typed.keyboardEnter
      refine ⟨htyped, ?_, ?_, ?_⟩
      · intro line heq
        have hlast : (s.entered ++ [enteredLine s.input]).getLast? = some line := heq
        rw [List.getLast?_concat, Option.some_inj] at hlast
        rw [← hlast]
        exact hline
      · intro _
        exact List.append_ne_nil_of_right_ne_nil _ (List.cons_ne_nil _ _)
      · intro line hmem
        exact List.mem_append_left _ (h.known line hmem)
  | look =>
      unfold Terminal.perform
      by_cases havail : s.input.cmdAvailable = true
      · simp only [if_pos havail]
        exact ⟨h.typed, h.stored, fun _ => h.pending (Or.inl havail), h.known⟩
      · simp only [if_neg havail]
        exact h
  | clear =>
      have hphase : s.phase = .seen := he
      refine ⟨⟨h.typed.room, h.typed.text⟩, h.stored, ?_, h.known⟩
      intro _
      apply h.pending
      refine Or.inr ?_
      rw [hphase]
      decide
  | copy nbytes =>
      obtain ⟨hphase, hn⟩ := he
      obtain ⟨earlier, line, hentered, hcopy⟩ := h.copy hphase
      refine ⟨h.typed, h.stored, ?_, ?_⟩
      · intro _
        show s.entered ≠ []
        rw [hentered]
        exact List.append_ne_nil_of_right_ne_nil _ (List.cons_ne_nil _ _)
      · intro returned hmem
        rcases List.mem_append.mp hmem with hold | hnew
        · exact h.known returned hold
        · rw [List.mem_singleton, hcopy nbytes hn] at hnew
          show returned ∈ s.entered
          rw [hnew, hentered]
          exact List.mem_append_right _ (List.mem_singleton_self line)

theorem Delivering.of_reachable {allowed : Stdin → Event → Prop} {s : Stdin}
    (hs : (stdinSystem allowed).Reachable s) : Delivering s := by
  have hinv : (stdinSystem allowed).IsInvariant Delivering := by
    refine ⟨fun s h => h.delivering, ?_⟩
    rintro s s' h ⟨e, he, -, rfl⟩
    exact h.perform e he
  exact hinv.of_reachable hs

/-- Enter is not pressed between the reader's clearing of the flag and its copy. -/
def OutsideCopy (s : Stdin) : Event → Prop
  | .enter => s.phase ≠ .cleared
  | _ => True

/-- Enter is pressed only when no line is waiting or being read. -/
def WhenFree (s : Stdin) : Event → Prop
  | .enter => ¬ Pending s
  | _ => True

/-- Lines are returned in order and once each; the one that is waiting has not been
returned. -/
structure InOrder (s : Stdin) : Prop where
  cleared : s.phase = .cleared → s.input.cmdAvailable = false
  sublist : s.returned.Sublist s.entered
  pending : Pending s → s.returned.Sublist s.entered.dropLast

/-- Every line is returned but the one that is waiting. -/
structure Complete (s : Stdin) : Prop where
  cleared : s.phase = .cleared → s.input.cmdAvailable = false
  free : ¬ Pending s → s.entered = s.returned
  pending : Pending s → ∃ line, s.entered = s.returned ++ [line]

theorem Fresh.not_pending {s : Stdin} (h : Fresh s) : ¬ Pending s := by
  rintro (havail | hphase)
  · rw [h.unavailable] at havail
    exact absurd havail (by decide)
  · exact hphase h.phase

theorem Fresh.inOrder {s : Stdin} (h : Fresh s) : InOrder s where
  cleared _ := h.unavailable
  sublist := by
    rw [h.returned]
    exact List.nil_sublist _
  pending hpending := absurd hpending h.not_pending

theorem Fresh.complete {s : Stdin} (h : Fresh s) : Complete s where
  cleared _ := h.unavailable
  free _ := h.entered.trans h.returned.symm
  pending hpending := absurd hpending h.not_pending

/-- The line editor does not change what is pending. -/
theorem pending_edit {s : Stdin} {i : Input} (havail : i.cmdAvailable = s.input.cmdAvailable) :
    Pending { s with input := i } ↔ Pending s := by
  unfold Pending
  rw [havail]

/-- After a copy a line is pending only if another was entered meanwhile. -/
theorem pending_copy {s : Stdin} {nbytes : Nat} (hcleared : s.input.cmdAvailable = false) :
    ¬ Pending (perform s (.copy nbytes)) := by
  rintro (havail | hphase)
  · have havail' : s.input.cmdAvailable = true := havail
    rw [hcleared] at havail'
    exact absurd havail' (by decide)
  · exact hphase rfl

theorem pending_phase {s : Stdin} {p : ReadPhase} (h : s.phase = p) (hp : p ≠ .waiting) :
    Pending s := by
  refine Or.inr ?_
  rw [h]
  exact hp

namespace InOrder

variable {s : Stdin}

theorem edit (h : InOrder s) {i : Input} (havail : i.cmdAvailable = s.input.cmdAvailable) :
    InOrder { s with input := i } where
  cleared hphase := havail.trans (h.cleared hphase)
  sublist := h.sublist
  pending hpending := h.pending ((pending_edit havail).mp hpending)

/-- Every event keeps the order, as long as enter is not pressed during a copy. -/
theorem perform (h : InOrder s) (hdel : Delivering s) (e : Event) (he : Follows s e)
    (hout : OutsideCopy s e) : InOrder (Terminal.perform s e) := by
  cases e with
  | key info keycode => exact h.edit (hdel.typed.printRegularKey he).2.2
  | backspace => exact h.edit hdel.typed.deleteKeystroke.2.2
  | enter =>
      refine ⟨fun hphase => absurd hphase hout, ?_, ?_⟩
      · exact h.sublist.trans (List.sublist_append_left _ _)
      · intro _
        show s.returned.Sublist (s.entered ++ [enteredLine s.input]).dropLast
        rw [List.dropLast_concat]
        exact h.sublist
  | look =>
      unfold Terminal.perform
      by_cases havail : s.input.cmdAvailable = true
      · simp only [if_pos havail]
        refine ⟨?_, h.sublist, fun _ => h.pending (Or.inl havail)⟩
        intro hphase
        cases hphase
      · simp only [if_neg havail]
        exact h
  | clear =>
      refine ⟨fun _ => rfl, h.sublist, ?_⟩
      intro _
      exact h.pending (pending_phase he (by decide))
  | copy nbytes =>
      obtain ⟨hphase, hn⟩ := he
      obtain ⟨earlier, line, hentered, hcopy⟩ := hdel.copy hphase
      have hsub := h.pending (pending_phase hphase (by decide))
      rw [hentered, List.dropLast_concat] at hsub
      refine ⟨?_, ?_, ?_⟩
      · intro hphase
        cases hphase
      · show (s.returned ++ [freadCopy s.input nbytes]).Sublist s.entered
        rw [hentered, hcopy nbytes hn]
        exact hsub.append (List.Sublist.refl _)
      · intro hpending
        exact absurd hpending (pending_copy (h.cleared hphase))

end InOrder

namespace Complete

variable {s : Stdin}

theorem edit (h : Complete s) {i : Input} (havail : i.cmdAvailable = s.input.cmdAvailable) :
    Complete { s with input := i } where
  cleared hphase := havail.trans (h.cleared hphase)
  free hfree := h.free fun hpending => hfree ((pending_edit havail).mpr hpending)
  pending hpending := h.pending ((pending_edit havail).mp hpending)

/-- Every event keeps the lines complete, as long as enter is pressed only when no line
is pending. -/
theorem perform (h : Complete s) (hdel : Delivering s) (e : Event) (he : Follows s e)
    (hfree : WhenFree s e) : Complete (Terminal.perform s e) := by
  cases e with
  | key info keycode => exact h.edit (hdel.typed.printRegularKey he).2.2
  | backspace => exact h.edit hdel.typed.deleteKeystroke.2.2
  | enter =>
      have hfree : ¬ Pending s := hfree
      refine ⟨?_, ?_, ?_⟩
      · intro hphase
        have hphase' : s.phase = .cleared := hphase
        exact absurd (pending_phase hphase' (by decide)) hfree
      · intro hfree'
        exact absurd (Or.inl rfl) hfree'
      · intro _
        exact ⟨enteredLine s.input, congrArg (· ++ [enteredLine s.input]) (h.free hfree)⟩
  | look =>
      unfold Terminal.perform
      by_cases havail : s.input.cmdAvailable = true
      · simp only [if_pos havail]
        refine ⟨?_, ?_, fun _ => h.pending (Or.inl havail)⟩
        · intro hphase
          cases hphase
        · intro hfree'
          exact absurd (Or.inl havail) hfree'
      · simp only [if_neg havail]
        exact h
  | clear =>
      refine ⟨fun _ => rfl, ?_, fun _ => h.pending (pending_phase he (by decide))⟩
      intro hfree'
      refine absurd (Or.inr ?_) hfree'
      intro hphase
      cases hphase
  | copy nbytes =>
      obtain ⟨hphase, hn⟩ := he
      obtain ⟨earlier, line, hentered, hcopy⟩ := hdel.copy hphase
      obtain ⟨waiting, hwaiting⟩ := h.pending (pending_phase hphase (by decide))
      refine ⟨?_, ?_, ?_⟩
      · intro hphase
        cases hphase
      · intro _
        obtain ⟨-, hlast⟩ := List.append_inj' (hentered.symm.trans hwaiting) rfl
        show s.entered = s.returned ++ [freadCopy s.input nbytes]
        rw [hcopy nbytes hn, hwaiting, hlast]
      · intro hpending
        exact absurd hpending (pending_copy (h.cleared hphase))

end Complete

/-- Whatever the interleaving, a read copies the whole line that was entered last.  In
runs in which enter is not pressed between a reader's clearing of the flag and its copy,
the lines returned are some of the lines entered, in order and once each.  In runs in
which enter is pressed only while no line is waiting or being read, they are the first
of the lines entered, and at most the one that is waiting is missing. -/
theorem lines_delivered (s : Stdin) :
    (∀ allowed, (stdinSystem allowed).Reachable s →
      (∀ line ∈ s.returned, line ∈ s.entered) ∧
        (s.phase = .cleared → ∃ earlier line, s.entered = earlier ++ [line] ∧
          ∀ nbytes, keyBufSize ≤ nbytes → freadCopy s.input nbytes = line)) ∧
      ((stdinSystem OutsideCopy).Reachable s → s.returned.Sublist s.entered) ∧
      ((stdinSystem WhenFree).Reachable s →
        s.entered = s.returned ∨ ∃ line, s.entered = s.returned ++ [line]) := by
  refine ⟨?_, ?_, ?_⟩
  · intro allowed hs
    have hdel := Delivering.of_reachable hs
    exact ⟨hdel.known, hdel.copy⟩
  · intro hs
    have hinv : (stdinSystem OutsideCopy).IsInvariant fun s => Delivering s ∧ InOrder s := by
      refine ⟨fun s h => ⟨h.delivering, h.inOrder⟩, ?_⟩
      rintro s s' ⟨hdel, h⟩ ⟨e, he, hout, rfl⟩
      exact ⟨hdel.perform e he, h.perform hdel e he hout⟩
    exact (hinv.of_reachable hs).2.sublist
  · intro hs
    have hinv : (stdinSystem WhenFree).IsInvariant fun s => Delivering s ∧ Complete s := by
      refine ⟨fun s h => ⟨h.delivering, h.complete⟩, ?_⟩
      rintro s s' ⟨hdel, h⟩ ⟨e, he, hfree, rfl⟩
      exact ⟨hdel.perform e he, h.perform hdel e he hfree⟩
    obtain ⟨-, hcomplete⟩ := hinv.of_reachable hs
    by_cases hpending : Pending s
    · exact Or.inr (hcomplete.pending hpending)
    · exact Or.inl (hcomplete.free hpending)

/-- A session that has just been set up. -/
def freshStdin : Stdin where
  input :=
    { kbdBuf := fun _ => 0
      kbdBufIdx := 0
      cmdBuf := fun _ => 0
      cmdAvailable := false }
  phase := .waiting
  entered := []
  returned := []

/-- The session after a list of events. -/
def performAll (s : Stdin) (es : List Event) : Stdin := es.foldl perform s

/-- Each of a list of events is one that the reader can take part in and is allowed. -/
def FollowsAll (allowed : Stdin → Event → Prop) (s : Stdin) : List Event → Prop
  | [] => True
  | e :: es => (Follows s e ∧ allowed s e) ∧ FollowsAll allowed (perform s e) es

theorem performAll_reachable {allowed : Stdin → Event → Prop} {s : Stdin}
    (hs : (stdinSystem allowed).Reachable s) (es : List Event) (h : FollowsAll allowed s es) :
    (stdinSystem allowed).Reachable (performAll s es) := by
  induction es generalizing s with
  | nil => exact hs
  | cons e es ih => exact ih (hs.step ⟨e, h.1.1, h.1.2, rfl⟩) h.2

theorem freshStdin_reachable (allowed : Stdin → Event → Prop) :
    (stdinSystem allowed).Reachable freshStdin :=
  TransitionSystem.Reachable.init ⟨rfl, rfl, rfl, rfl, rfl⟩

/-- The first row of letters, without shift and caps lock. -/
def plainKeys : KeyInfo :=
  { shiftEn := false, capsEn := false, capsStatus := false, ctrlEn := false }

/-- A line is typed and read. -/
theorem lines_delivered_prompt :
    (performAll freshStdin [.key plainKeys 16, .enter, .look, .clear, .copy 128]).entered =
        (performAll freshStdin [.key plainKeys 16, .enter, .look, .clear, .copy 128]).returned ∨
      ∃ line, (performAll freshStdin
          [.key plainKeys 16, .enter, .look, .clear, .copy 128]).entered =
        (performAll freshStdin
          [.key plainKeys 16, .enter, .look, .clear, .copy 128]).returned ++ [line] := by
  have hkey : keyOf plainKeys 16 = 113 := by decide
  have hctrl : plainKeys.ctrlEn = false := rfl
  refine (lines_delivered _).2.2 (performAll_reachable (freshStdin_reachable WhenFree) _ ?_)
  simp [FollowsAll, Follows, WhenFree, Pending, perform, hkey, hctrl, keyboardEnter, keyBufSize,
    freshStdin, printRegularKey]

/-- Two lines are typed ahead before they are read. -/
def typedAhead : List Event :=
  [.key plainKeys 16, .enter, .key plainKeys 17, .enter, .look, .clear, .copy 128]

/-- A line is completed between a reader's clearing of the flag and its copy. -/
def typedBetween : List Event :=
  [.key plainKeys 16, .enter, .look, .clear, .key plainKeys 17, .enter, .copy 128, .look, .clear,
    .copy 128]

/-- Of two lines that are typed ahead the first is lost; and a line that is completed
just before a copy is returned twice, in place of the one before it. -/
theorem line_lost_and_repeated :
    ((stdinSystem fun _ _ => True).Reachable (performAll freshStdin typedAhead) ∧
        (performAll freshStdin typedAhead).entered = [[113, 10], [119, 10]] ∧
        (performAll freshStdin typedAhead).returned = [[119, 10]]) ∧
      (stdinSystem fun _ _ => True).Reachable (performAll freshStdin typedBetween) ∧
        (performAll freshStdin typedBetween).entered = [[113, 10], [119, 10]] ∧
        (performAll freshStdin typedBetween).returned = [[119, 10], [119, 10]] := by
  refine ⟨⟨?_, by decide +kernel, by decide +kernel⟩, ?_, by decide +kernel, by decide +kernel⟩
  · refine performAll_reachable (freshStdin_reachable _) typedAhead ?_
    simp [typedAhead, FollowsAll, Follows, perform, plainKeys, keyboardEnter, keyBufSize,
      freshStdin, printRegularKey]
  · refine performAll_reachable (freshStdin_reachable _) typedBetween ?_
    simp [typedBetween, FollowsAll, Follows, perform, plainKeys, keyboardEnter, keyBufSize,
      freshStdin, printRegularKey]

end Terminal
end NochOS
