import NochOS.Terminal.Effects

/-!
# Terminal - the bounds of the cursor

A backspace takes back a character that was typed, and moves the cursor back with it.
The cursor stands after the characters that were typed, since they are on the screen:
wrapping, scrolling and output in between only move it on, and the operations that move
it home forget what was typed.  The panic screen is the exception.

Main results:

- Theorem `Placed.putByte`: output leaves the cursor after what was typed.
- Theorem `onScreen_act_iff`: the acts that leave the cursor and the cells on the screen.
- Theorem `cursor_on_screen`: the runs of such acts.
- Theorem `cursor_off_screen`: a backspace after a panic.
-/

namespace NochOS
namespace Terminal

open Library Process

/-! ## Cursor and cells -/

/-- The cursor is on the screen, and the buffer has room for what was typed. -/
structure InBounds (d : SessTerm) : Prop where
  vidX : d.vidX < numCols
  vidY : d.vidY < numRows
  typed : d.input.kbdBufIdx < keyBufSize

/-- The displayed session is within its bounds, and every cell that was written is on the
screen. -/
structure OnScreen (t : Terminals) : Prop where
  bounds : InBounds (t.term t.cur)
  cells : ∀ i ∈ t.cells, i < numRows * numCols

/-- Acts on the displayed session other than the wheel.  `printf` prints on the screen. -/
def OneSession (t : Terminals) : Act → Prop
  | .output _ sessId _ => sessId = t.cur
  | .panicScreen printed => ∀ p ∈ printed, p.1 < numRows * numCols
  | .sessSwitch _ | .scrollUp | .scrollDown => False
  | .key _ _ | .backspace | .enter | .panicClear => True

/-- A backspace takes back a typed character from before the first cell. -/
def BeforeOrigin (t : Terminals) : Act → Prop
  | .backspace =>
      (t.term t.cur).input.kbdBufIdx ≠ 0 ∧ (t.term t.cur).vidX = 0 ∧ (t.term t.cur).vidY = 0
  | _ => False

/-- The screen is cleared by a panic while nothing is typed. -/
def CalmPanic (t : Terminals) : Act → Prop
  | .panicScreen _ | .panicClear => (t.term t.cur).input.kbdBufIdx = 0
  | _ => True

/-- The number of cells before the cursor. -/
def position (d : SessTerm) : Nat := numCols * d.vidY + d.vidX

/-- The cursor is on the screen with so many cells before it. -/
structure Placed (d : SessTerm) (k : Nat) : Prop where
  vidX : d.vidX < numCols
  vidY : d.vidY < numRows
  le : k ≤ position d

/-! ## The cursor after an operation -/

section Placement

variable {d : SessTerm} {k : Nat}

/-- The cell at a cursor on the screen. -/
theorem cursorCell_lt (hx : d.vidX < numCols) (hy : d.vidY < numRows) :
    cursorCell d < numRows * numCols := by
  unfold cursorCell
  simp only [numCols, numRows] at hx hy ⊢
  rw [Nat.mod_eq_of_lt (by omega)]
  omega

/-- The cell after the cursor is in its row or starts the next one. -/
theorem le_next_row (hx : d.vidX < numCols) (hk : k ≤ position d + 1) :
    k ≤ numCols * (d.vidY + 1) := by
  unfold position at hk
  rw [Nat.mul_succ]
  omega

/-- A newline moves the cursor to the next row, or scrolls the screen. -/
theorem Placed.newline (hy : d.vidY < numRows) (hk : k ≤ numCols * (d.vidY + 1))
    (hmax : k ≤ keyBufSize) : Placed d.newline k := by
  have hzero : 0 < numCols := by decide
  by_cases hlast : d.vidY + 1 < numRows
  · rw [SessTerm.newline_of_lt hlast]
    exact ⟨hzero, hlast, hk⟩
  · have heq : d.vidY + 1 = numRows := by omega
    rw [SessTerm.newline_of_last heq]
    refine ⟨hzero, hy, ?_⟩
    show k ≤ numCols * d.vidY + 0
    simp only [numCols, numRows, keyBufSize] at heq hmax ⊢
    omega

/-- A character moves the cursor on, except that it stays in the row after the last cell
of it. -/
theorem Placed.putc {c : UInt8} (hx : d.vidX < numCols) (hy : d.vidY < numRows)
    (hk : k ≤ position d + 1) (hmax : k ≤ keyBufSize)
    (hcolumn : c = 10 ∨ c = 13 ∨ d.vidX + 1 < numCols) : Placed (d.putc c) k := by
  by_cases hc : c = 10 ∨ c = 13
  · rw [SessTerm.putc_of_newline hc]
    exact Placed.newline hy (le_next_row hx hk) hmax
  · have hroom : d.vidX + 1 < numCols := by
      rcases hcolumn with h | h | h
      · exact absurd (Or.inl h) hc
      · exact absurd (Or.inr h) hc
      · exact h
    rw [SessTerm.putc_of_char hc hx hy, Nat.mod_eq_of_lt hroom]
    refine ⟨hroom, hy, ?_⟩
    show k ≤ numCols * d.vidY + (d.vidX + 1)
    exact hk

/-- The check with which output begins leaves the cursor alone. -/
theorem reloaded_cursor (sessId s : Nat) (t : Terminals) :
    (reloaded sessId t s).vidX = (t.term s).vidX ∧
      (reloaded sessId t s).vidY = (t.term s).vidY ∧
      (reloaded sessId t s).input = (t.term s).input := by
  rw [reloaded_eq]
  exact ⟨rfl, rfl, rfl⟩

/-- One round of the loop of `terminal_fwrite` moves the cursor on by at least one cell,
unless it scrolls the screen. -/
theorem Placed.putByte {t t' : Terminals} {sessMem sessId : Nat} {c : UInt8}
    (h : putByte sessMem sessId c t = some t') (hx : (t.term sessId).vidX < numCols)
    (hy : (t.term sessId).vidY < numRows) (hk : k ≤ position (t.term sessId) + 1)
    (hmax : k ≤ keyBufSize) :
    Placed (t'.term sessId) k ∧ (t'.term sessId).input = (t.term sessId).input ∧
      t'.cur = t.cur ∧
      ∃ new, t'.cells = t.cells ++ new ∧ ∀ i ∈ new, i < numRows * numCols := by
  obtain ⟨hx₀, hy₀, hinput₀⟩ := reloaded_cursor sessId sessId t
  rw [← hx₀] at hx
  rw [← hy₀] at hy
  have hcell := cursorCell_lt hx hy
  have hposition : position (reloaded sessId t sessId) = position (t.term sessId) := by
    unfold position
    rw [hx₀, hy₀]
  rw [← hposition] at hk
  unfold Terminal.putByte at h
  by_cases hline : lineCheck (t.term sessId) ∧ c ≠ 10
  · rw [if_pos hline] at h
    obtain ⟨t₁, hputc, hnewline⟩ := Option.bind_eq_some_iff.mp h
    have hfirst := sessPutc_changes hputc
    have hsecond := newline_changes hnewline
    obtain ⟨-, hy₁, hinput₁⟩ := reloaded_cursor sessId sessId t₁
    have hterm₁ : t₁.term sessId = (reloaded sessId t sessId).putc c := by
      rw [hfirst.term, Function.update_self]
    have hnext := le_next_row hx hk
    -- the character has gone to the first column of the same row, or a carriage return on
    have hrow : (t₁.term sessId).vidY < numRows ∧ k ≤ numCols * ((t₁.term sessId).vidY + 1) := by
      rw [hterm₁]
      by_cases hc : c = 10 ∨ c = 13
      · have hplaced : Placed ((reloaded sessId t sessId).putc c) k :=
          Placed.putc hx hy hk hmax (hc.imp_right Or.inl)
        exact ⟨hplaced.vidY, le_next_row hplaced.vidX (Nat.le_succ_of_le hplaced.le)⟩
      · rw [SessTerm.putc_of_char hc hx hy]
        exact ⟨hy, hnext⟩
    rw [← hy₁] at hrow
    refine ⟨?_, ?_, hsecond.cur.trans hfirst.cur, ?_⟩
    · rw [hsecond.term, Function.update_self]
      exact Placed.newline hrow.1 hrow.2 hmax
    · rw [hsecond.term, Function.update_self, (SessTerm.newline_same _).1, hinput₁, hterm₁,
        (SessTerm.putc_same c _).1, hinput₀]
    · apply (hfirst.trans hsecond).cells_lt
      intro i hi
      rw [List.append_nil] at hi
      rw [List.mem_singleton.mp hi]
      exact hcell
  · rw [if_neg hline] at h
    have hchanges := sessPutc_changes h
    refine ⟨?_, ?_, hchanges.cur, ?_⟩
    · rw [hchanges.term, Function.update_self]
      apply Placed.putc hx hy hk hmax
      by_cases hc : c = 10
      · exact Or.inl hc
      · right; right
        have hcolumn : (t.term sessId).vidX ≠ numCols - 1 := fun heq => hline ⟨heq, hc⟩
        omega
    · rw [hchanges.term, Function.update_self, (SessTerm.putc_same c _).1, hinput₀]
    · apply hchanges.cells_lt
      intro i hi
      rw [List.mem_singleton.mp hi]
      exact hcell

/-- A backspace moves the cursor back by one cell, unless it is before the first one. -/
theorem Placed.back (hx : d.vidX < numCols) (hy : d.vidY < numRows)
    (horigin : ¬ (d.vidX = 0 ∧ d.vidY = 0)) (hk : k + 1 ≤ position d) : Placed d.back k := by
  unfold position at hk
  unfold SessTerm.back
  by_cases hzero : d.vidX = 0
  · have hrow : (d.vidY + (2 ^ 32 - 1)) % 2 ^ 32 = d.vidY - 1 := by
      simp only [numRows] at hy
      omega
    rw [if_neg (not_not.mpr hzero), hrow]
    have hlast : numCols - 1 < numCols := by decide
    refine ⟨hlast, Nat.lt_of_le_of_lt (Nat.sub_le _ _) hy, ?_⟩
    show k ≤ numCols * (d.vidY - 1) + (numCols - 1)
    simp only [numCols] at hk ⊢
    omega
  · rw [if_pos hzero]
    refine ⟨Nat.lt_of_le_of_lt (Nat.sub_le _ _) hx, hy, ?_⟩
    show k ≤ numCols * d.vidY + (d.vidX - 1)
    omega

/-- Before the first cell there is no row. -/
theorem vidY_back_of_origin (hx : d.vidX = 0) (hy : d.vidY = 0) :
    d.back.vidY = 2 ^ 32 - 1 := by
  unfold SessTerm.back
  rw [if_neg (not_not.mpr hx), hy]
  rfl

end Placement

/-! ## Acts -/

section Acts

variable {t t' : Terminals}

/-- What was typed stands before the cursor. -/
def TypedBefore (t : Terminals) : Prop :=
  (t.term t.cur).input.kbdBufIdx ≤ position (t.term t.cur)

theorem OnScreen.of_placed (hs : OnScreen t) (hcur : t'.cur = t.cur) {k : Nat}
    (hplaced : Placed (t'.term t.cur) k)
    (htyped : (t'.term t.cur).input.kbdBufIdx < keyBufSize)
    (hcells : ∃ new, t'.cells = t.cells ++ new ∧ ∀ i ∈ new, i < numRows * numCols) :
    OnScreen t' := by
  obtain ⟨new, heq, hnew⟩ := hcells
  refine ⟨?_, ?_⟩
  · rw [hcur]
    exact ⟨hplaced.vidX, hplaced.vidY, htyped⟩
  · intro i hi
    rw [heq] at hi
    exact (List.mem_append.mp hi).elim (hs.cells i) (hnew i)

/-- The cursor goes home. -/
theorem OnScreen.home (hs : OnScreen t) {d : SessTerm} {logged : List (Nat × Nat)}
    (hchanges : Changes t t' (Function.update t.term t.cur d) [] logged) (hx : d.vidX = 0)
    (hy : d.vidY = 0) (htyped : d.input.kbdBufIdx < keyBufSize) : OnScreen t' := by
  have hterm : t'.term t.cur = d := by rw [hchanges.term, Function.update_self]
  apply hs.of_placed hchanges.cur (k := 0)
  · rw [hterm]
    exact ⟨by rw [hx]; decide, by rw [hy]; decide, Nat.zero_le _⟩
  · rw [hterm]
    exact htyped
  · apply hchanges.cells_lt
    intro i hi
    exact absurd hi List.not_mem_nil

theorem typedBefore_of_empty (hcur : t'.cur = t.cur)
    (hempty : (t'.term t.cur).input.kbdBufIdx = 0) : TypedBefore t' := by
  unfold TypedBefore
  rw [hcur, hempty]
  exact Nat.zero_le _

/-- Output to the displayed session. -/
theorem OnScreen.putByte (hs : OnScreen t) {sessMem : Nat} {c : UInt8}
    (h : putByte sessMem t.cur c t = some t') : OnScreen t' ∧ (TypedBefore t → TypedBefore t') := by
  have hput := fun k hk hmax => Placed.putByte (k := k) h hs.bounds.vidX hs.bounds.vidY hk hmax
  obtain ⟨hplaced, hinput, hcur, hcells⟩ := hput 0 (Nat.zero_le _) (Nat.zero_le _)
  have htyped := hs.bounds.typed
  constructor
  · apply hs.of_placed hcur hplaced _ hcells
    rw [hinput]
    exact htyped
  · intro hbefore
    have hle := (hput _ (Nat.le_succ_of_le hbefore) (Nat.le_of_lt htyped)).1.le
    unfold TypedBefore
    rw [hcur, hinput]
    exact hle

/-- A key. -/
theorem OnScreen.printKey (hs : OnScreen t) {info : KeyInfo} {keycode : Nat}
    (h : printKey info keycode t = some t') :
    OnScreen t' ∧ (TypedBefore t → TypedBefore t') := by
  have hsize : keyBufSize = 128 := rfl
  rcases printKey_cases h with ⟨-, rfl, hempty⟩ | ⟨-, rfl⟩ | ⟨hprints, hone, hput⟩
  · have hchanges := (clearScreen_changes t video).setInput t.cur
      (printRegularKey (t.term t.cur).input info keycode)
    rw [Function.update_idem, Function.update_self] at hchanges
    constructor
    · apply hs.home hchanges rfl rfl
      show (printRegularKey (t.term t.cur).input info keycode).kbdBufIdx < keyBufSize
      rw [hempty]
      decide
    · intro _
      apply typedBefore_of_empty hchanges.cur
      rw [hchanges.term, Function.update_self]
      exact hempty
  · exact ⟨hs, id⟩
  · have hroom := hprints.room
    generalize htyped : setInput t.cur (printRegularKey (t.term t.cur).input info keycode) t =
      typed at hput
    have hterm : typed.term t.cur = { t.term t.cur with
        input := printRegularKey (t.term t.cur).input info keycode } := by
      rw [← htyped, term_setInput]
    have hx : (typed.term t.cur).vidX < numCols := by
      rw [hterm]
      exact hs.bounds.vidX
    have hy : (typed.term t.cur).vidY < numRows := by
      rw [hterm]
      exact hs.bounds.vidY
    have hposition : position (typed.term t.cur) = position (t.term t.cur) := by
      unfold position
      rw [hterm]
    have hplaced := fun k hk hmax => Placed.putByte (k := k) hput hx hy hk hmax
    obtain ⟨hbounds, hinput, hcur, hcells⟩ := hplaced 0 (Nat.zero_le _) (Nat.zero_le _)
    have hidx : (t'.term t.cur).input.kbdBufIdx = (t.term t.cur).input.kbdBufIdx + 1 := by
      rw [hinput, hterm]
      exact hone
    have hcur' : t'.cur = t.cur := by
      rw [hcur, ← htyped]
      rfl
    have hcells' : typed.cells = t.cells := by
      rw [← htyped]
      rfl
    rw [hcells'] at hcells
    constructor
    · apply hs.of_placed hcur' hbounds _ hcells
      omega
    · intro hbefore
      have hle := (hplaced ((t.term t.cur).input.kbdBufIdx + 1)
        (by rw [hposition]; exact Nat.succ_le_succ hbefore) (by omega)).1.le
      unfold TypedBefore
      rw [hcur', hidx]
      exact hle

/-- The backspace key keeps to the screen exactly if it does not take back a character from
before the first cell. -/
theorem OnScreen.deleteKey_iff (hs : OnScreen t) (h : deleteKey t = some t') :
    (OnScreen t' ↔ ¬ BeforeOrigin t .backspace) ∧ (TypedBefore t → TypedBefore t') := by
  rcases deleteKey_cases h with ⟨hempty, rfl⟩ | ⟨htyped, t₁, hback, rfl, hone⟩
  · refine ⟨?_, id⟩
    constructor
    · intro _ hbefore
      exact hbefore.1 hempty
    · intro _
      exact hs
  · obtain ⟨hx, hy, -⟩ := reloaded_cursor t.cur t.cur t
    have hchanges := (backspace_changes hback).setInput t.cur
      (deleteKeystroke (t.term t.cur).input)
    rw [Function.update_idem, Function.update_self] at hchanges
    generalize reloaded t.cur t t.cur = r at hx hy hchanges
    have hposition : position r = position (t.term t.cur) := by
      unfold position
      rw [hx, hy]
    have hinX : r.vidX < numCols := by
      rw [hx]
      exact hs.bounds.vidX
    have hinY : r.vidY < numRows := by
      rw [hy]
      exact hs.bounds.vidY
    generalize setInput t.cur (deleteKeystroke (t.term t.cur).input) t₁ = t' at hchanges
    have hterm : t'.term t.cur = { r.back with
        input := deleteKeystroke (t.term t.cur).input } := by
      rw [hchanges.term, Function.update_self]
    have hplaced : ∀ k, ¬ (r.vidX = 0 ∧ r.vidY = 0) → k + 1 ≤ position r →
        Placed (t'.term t.cur) k := by
      intro k horigin hk
      have hback := Placed.back hinX hinY horigin hk
      rw [hterm]
      exact ⟨hback.vidX, hback.vidY, hback.le⟩
    have hcur := hchanges.cur
    constructor
    · constructor
      · rintro hs' ⟨-, hx₀, hy₀⟩
        have hrow := hs'.bounds.vidY
        rw [hcur, hterm] at hrow
        change r.back.vidY < numRows at hrow
        rw [vidY_back_of_origin (hx.trans hx₀) (hy.trans hy₀)] at hrow
        contradiction
      · intro hbefore
        have horigin : ¬ (r.vidX = 0 ∧ r.vidY = 0) := by
          rw [hx, hy]
          exact fun h => hbefore ⟨htyped, h⟩
        have hpositive : 0 + 1 ≤ position r := by
          unfold position
          simp only [numCols]
          omega
        have hzero := hplaced 0 horigin hpositive
        apply hs.of_placed hcur hzero
        · rw [hterm]
          show (deleteKeystroke (t.term t.cur).input).kbdBufIdx < keyBufSize
          have hle := hs.bounds.typed
          omega
        · apply hchanges.cells_lt
          intro i hi
          have hback := Placed.back hinX hinY horigin hpositive
          rw [List.mem_singleton.mp hi]
          exact cursorCell_lt hback.vidX hback.vidY
    · intro hbefore
      unfold TypedBefore at hbefore ⊢
      rw [← hposition] at hbefore
      have horigin : ¬ (r.vidX = 0 ∧ r.vidY = 0) := by
        rintro ⟨hx₀, hy₀⟩
        unfold position at hbefore
        rw [hx₀, hy₀] at hbefore
        exact htyped (Nat.le_zero.mp hbefore)
      have hle := (hplaced ((t.term t.cur).input.kbdBufIdx - 1) horigin (by omega)).le
      rw [hcur]
      refine Nat.le_trans (Nat.le_of_eq ?_) hle
      rw [hterm]
      exact hone

/-- The enter key. -/
theorem OnScreen.enterKey (hs : OnScreen t) (h : enterKey t = some t') :
    OnScreen t' ∧ TypedBefore t' := by
  have htyped := kbdBufIdx_keyboardEnter hs.bounds.typed
  have hchanges := ((Changes.refl t).setInput t.cur
    (keyboardEnter (t.term t.cur).input)).trans (newline_changes h)
  generalize hentered : setInput t.cur (keyboardEnter (t.term t.cur).input) t = entered at hchanges
  have hterm : entered.term t.cur = { t.term t.cur with
      input := keyboardEnter (t.term t.cur).input } := by
    rw [← hentered, term_setInput]
  obtain ⟨-, hy, hinput⟩ := reloaded_cursor t.cur t.cur entered
  have hrow : (reloaded t.cur entered t.cur).vidY < numRows := by
    rw [hy, hterm]
    exact hs.bounds.vidY
  have hempty : (t'.term t.cur).input.kbdBufIdx = 0 := by
    rw [hchanges.term, Function.update_self, (SessTerm.newline_same _).1, hinput, hterm]
    exact htyped
  refine ⟨?_, typedBefore_of_empty hchanges.cur hempty⟩
  apply hs.of_placed hchanges.cur (k := 0)
  · rw [hchanges.term, Function.update_self]
    exact Placed.newline hrow (Nat.zero_le _) (Nat.zero_le _)
  · rw [hempty]
    decide
  · apply hchanges.cells_lt
    intro i hi
    exact absurd hi List.not_mem_nil

/-- An act on the displayed session keeps to the screen exactly if it is not a backspace
that takes back a character from before the first cell. -/
theorem onScreen_act_iff (hs : OnScreen t) {a : Act} (hone : OneSession t a)
    (h : t.act a = some t') :
    (OnScreen t' ↔ ¬ BeforeOrigin t a) ∧ (CalmPanic t a → TypedBefore t → TypedBefore t') := by
  cases a with
  | output sessMem sessId c =>
      have hsess : sessId = t.cur := hone
      subst hsess
      obtain ⟨hkept, htyped⟩ := hs.putByte h
      exact ⟨⟨fun _ => id, fun _ => hkept⟩, fun _ => htyped⟩
  | key info keycode =>
      obtain ⟨hkept, htyped⟩ := hs.printKey h
      exact ⟨⟨fun _ => id, fun _ => hkept⟩, fun _ => htyped⟩
  | backspace =>
      obtain ⟨hiff, htyped⟩ := hs.deleteKey_iff h
      exact ⟨hiff, fun _ => htyped⟩
  | enter =>
      obtain ⟨hkept, htyped⟩ := hs.enterKey h
      exact ⟨⟨fun _ => id, fun _ => hkept⟩, fun _ _ => htyped⟩
  | panicScreen printed =>
      have hchanges := @panicScreen_changes t printed hone
      have heq := Option.some.inj h
      change panicScreen printed t = t' at heq
      rw [heq] at hchanges
      refine ⟨⟨fun _ => id, fun _ => hs.home hchanges rfl rfl hs.bounds.typed⟩, ?_⟩
      intro hcalm _
      apply typedBefore_of_empty hchanges.cur
      rw [hchanges.term, Function.update_self]
      exact hcalm
  | panicClear =>
      have hchanges := clearScreen_changes t video
      have heq := Option.some.inj h
      change clearScreen video t.cur t = t' at heq
      rw [heq] at hchanges
      refine ⟨⟨fun _ => id, fun _ => hs.home hchanges rfl rfl hs.bounds.typed⟩, ?_⟩
      intro hcalm _
      apply typedBefore_of_empty hchanges.cur
      rw [hchanges.term, Function.update_self]
      exact hcalm
  | sessSwitch sessId => exact absurd hone id
  | scrollUp => exact absurd hone id
  | scrollDown => exact absurd hone id

/-- A character from before the first cell was not typed before the cursor. -/
theorem TypedBefore.not_beforeOrigin (h : TypedBefore t) (a : Act) : ¬ BeforeOrigin t a := by
  cases a with
  | backspace =>
      rintro ⟨htyped, hx, hy⟩
      unfold TypedBefore position at h
      rw [hx, hy] at h
      exact htyped (Nat.le_zero.mp h)
  | _ => exact id

theorem OnScreen.of_initial (h : Initial t) : OnScreen t ∧ TypedBefore t := by
  obtain ⟨hx, hy, htyped, -⟩ := h.term t.cur h.displayed
  refine ⟨⟨⟨?_, ?_, ?_⟩, ?_⟩, ?_⟩
  · rw [hx]
    decide
  · rw [hy]
    decide
  · rw [htyped]
    decide
  · intro i hi
    rw [h.cells] at hi
    exact absurd hi List.not_mem_nil
  · exact typedBefore_of_empty rfl htyped

end Acts

/-- An act on the displayed session keeps cursor, buffer and cells within their bounds
exactly if it is not a backspace that takes back a character from before the first cell.
Runs without such an act stay within the bounds; and so does every run in which the
screen is cleared by a panic only while nothing is typed. -/
theorem cursor_on_screen :
    ∀ t, (OnScreen t → ∀ a t', OneSession t a → t.act a = some t' →
        (OnScreen t' ↔ ¬ BeforeOrigin t a)) ∧
      ((terminalSystem fun t a => OneSession t a ∧ ¬ BeforeOrigin t a).Reachable t →
        OnScreen t) ∧
      ((terminalSystem fun t a => OneSession t a ∧ CalmPanic t a).Reachable t →
        OnScreen t) := by
  intro t
  refine ⟨?_, ?_, ?_⟩
  · intro hs a t' hone h
    exact (onScreen_act_iff hs hone h).1
  · intro ht
    have hinv : (terminalSystem fun t a => OneSession t a ∧ ¬ BeforeOrigin t a).IsInvariant
        OnScreen := by
      refine ⟨fun t hinit => (OnScreen.of_initial hinit).1, ?_⟩
      rintro t t' hs ⟨a, ⟨hone, hbefore⟩, h⟩
      exact (onScreen_act_iff hs hone h).1.mpr hbefore
    exact hinv.of_reachable ht
  · intro ht
    have hinv : (terminalSystem fun t a => OneSession t a ∧ CalmPanic t a).IsInvariant
        fun t => OnScreen t ∧ TypedBefore t := by
      refine ⟨fun t hinit => OnScreen.of_initial hinit, ?_⟩
      rintro t t' ⟨hs, htyped⟩ ⟨a, ⟨hone, hcalm⟩, h⟩
      obtain ⟨hiff, hkept⟩ := onScreen_act_iff hs hone h
      exact ⟨hiff.mpr (htyped.not_beforeOrigin a), hkept hcalm htyped⟩
    exact (hinv.of_reachable ht).1

/-- The terminal that `terminal_init` sets up. -/
def freshTerminals : Terminals where
  console := pointerConsole
  attrib := 7
  term s :=
    { vidX := 0
      vidY := 0
      input :=
        { kbdBuf := fun _ => 0
          kbdBufIdx := 0
          cmdBuf := fun _ => 0
          cmdAvailable := false }
      historyPtr := boundaryOf s
      screenHead := boundaryOf s
      boundary := boundaryOf s }
  cells := []
  logged := []

theorem initial_freshTerminals : Initial freshTerminals where
  displayed := by decide +kernel
  term _ _ := ⟨rfl, rfl, rfl, rfl, rfl, rfl⟩
  cells := rfl
  logged := rfl

/-- A session just cleared has room in its history. -/
theorem hasRoom_of_boundary {d : SessTerm} {s : Nat} (hs : s < numSess)
    (hptr : d.historyPtr = boundaryOf s) : HasRoom d := by
  have hpage := boundaryOf_page hs
  have hcols : numCols ≤ 0x100000 := by decide
  unfold HasRoom
  omega

/-- A screen that begins at the end of its history is not scrolled back. -/
theorem not_scrolledBack_of_eq {d : SessTerm} (h : d.screenHead = d.historyPtr) :
    ¬ ScrolledBack d := by
  unfold ScrolledBack
  omega

/-- The key of a letter is typed while the buffer has room. -/
theorem typed_letter {t : Terminals} (hcur : t.cur < numSess)
    (hidx : (t.term t.cur).input.kbdBufIdx < keyBufSize - 1)
    (hhead : (t.term t.cur).screenHead = boundaryOf t.cur)
    (hptr : (t.term t.cur).historyPtr = boundaryOf t.cur)
    (hx : (t.term t.cur).vidX < numCols) (hy : (t.term t.cur).vidY < numRows) :
    ∃ t', t.act (.key plainKeys 30) = some t' ∧ t'.cur = t.cur ∧
      t'.term t.cur = SessTerm.put (keyOf plainKeys 30)
        { t.term t.cur with
          input := printRegularKey (t.term t.cur).input plainKeys 30 } := by
  have hctrl : plainKeys.ctrlEn = false := rfl
  have hletter : keyOf plainKeys 30 ≠ 0 := by decide
  have hscroll := not_scrolledBack_of_eq (hhead.trans hptr.symm)
  exact printKey_some hctrl hletter hidx hscroll (hasRoom_of_boundary hcur hptr) hx hy

theorem kbdBufIdx_letter {i : Input} (hidx : i.kbdBufIdx < keyBufSize - 1) :
    (printRegularKey i plainKeys 30).kbdBufIdx = i.kbdBufIdx + 1 := by
  have hctrl : ∀ key : UInt8, ¬ (plainKeys.ctrlEn = true ∧ keyOf plainKeys 30 = key) :=
    fun key h => absurd h.1 (by decide)
  have hnull : keyOf plainKeys 30 ≠ 0 := by decide
  simp only [printRegularKey, if_neg (hctrl 108), if_neg (hctrl 99), if_neg hnull, if_pos hidx]

/-- A key is typed on the fresh terminal. -/
theorem typed_freshTerminals : ∃ t, freshTerminals.act (.key plainKeys 30) = some t ∧
    t.cur < numSess ∧ (t.term t.cur).input.kbdBufIdx = 1 ∧
    (t.term t.cur).boundary = boundaryOf t.cur ∧ (t.term t.cur).screenHead = boundaryOf t.cur ∧
    (t.term t.cur).historyPtr = boundaryOf t.cur := by
  have hcur := initial_freshTerminals.displayed
  have hzero : 0 < keyBufSize - 1 ∧ 0 < numCols ∧ 0 < numRows := by decide
  have hletter : ¬ (keyOf plainKeys 30 = 10 ∨ keyOf plainKeys 30 = 13) := by decide
  obtain ⟨t, hkey, hcur', hterm⟩ := typed_letter hcur hzero.1 rfl rfl hzero.2.1 hzero.2.2
  replace hterm := hterm.trans (SessTerm.put_of_lt hletter (show 0 + 1 < numCols by decide)
    hzero.2.2)
  refine ⟨t, hkey, by rw [hcur']; exact hcur, ?_, ?_, ?_, ?_⟩
  · rw [hcur', hterm]
    exact kbdBufIdx_letter hzero.1
  · rw [hcur', hterm]
    rfl
  · rw [hcur', hterm]
    rfl
  · rw [hcur', hterm]
    rfl

/-- A panic leaves what was typed in the buffer, and the backspace key then moves the
cursor before the screen. -/
theorem backspace_after_panic {t : Terminals} (hcur : t.cur < numSess)
    (htyped : (t.term t.cur).input.kbdBufIdx ≠ 0)
    (hboundary : (t.term t.cur).boundary = boundaryOf t.cur) :
    ∃ t', (panicClear (panicScreen [] t)).act .backspace = some t' ∧
      (t'.term t'.cur).vidY = 2 ^ 32 - 1 := by
  have hfirst := @panicScreen_changes t [] fun p hp => absurd hp List.not_mem_nil
  generalize panicScreen [] t = q at hfirst
  have hsecond := clearScreen_changes q video
  change Changes q (panicClear q) _ [] [] at hsecond
  generalize panicClear q = p at hsecond
  have hcur' : p.cur = t.cur := hsecond.cur.trans hfirst.cur
  have hterm : p.term p.cur = (t.term t.cur).cleared := by
    rw [hsecond.term, hcur', hfirst.cur, Function.update_self, hfirst.term, Function.update_self]
    rfl
  have hscroll : ¬ ScrolledBack (p.term p.cur) := by
    rw [hterm]
    exact not_scrolledBack_of_eq rfl
  have hroom : HasRoom (p.term p.cur) := by
    rw [hterm]
    exact hasRoom_of_boundary hcur hboundary
  obtain ⟨t₁, hback⟩ := backspace_some hscroll hroom video
  have hchanges := (backspace_changes hback).setInput p.cur
    (deleteKeystroke (p.term p.cur).input)
  rw [reloaded_of_not hscroll, Function.update_idem, Function.update_self] at hchanges
  have hnonempty : ¬ (p.term p.cur).input.kbdBufIdx = 0 := by
    rw [hterm]
    exact htyped
  refine ⟨setInput p.cur (deleteKeystroke (p.term p.cur).input) t₁, ?_, ?_⟩
  · show deleteKey p = _
    unfold deleteKey
    rw [if_neg hnonempty, hback]
    rfl
  · rw [hchanges.cur, hchanges.term, Function.update_self]
    show (p.term p.cur).back.vidY = 2 ^ 32 - 1
    rw [hterm]
    exact vidY_back_of_origin rfl rfl

/-- A key is typed, a program panics while it stands in the buffer, and the backspace key
is pressed when the screen has been cleared: the cursor is off the screen. -/
theorem cursor_off_screen :
    (∃ t t' : Terminals, freshTerminals.act (.key plainKeys 30) = some t ∧
      runActs [.panicScreen [], .panicClear, .backspace] t = some t' ∧
      (t'.term t'.cur).vidY = 2 ^ 32 - 1) ∧
      ¬ ∀ t, (terminalSystem OneSession).Reachable t → OnScreen t := by
  obtain ⟨t, hkey, hcur, hone, hboundary, -⟩ := typed_freshTerminals
  obtain ⟨t', hback, hrow⟩ := backspace_after_panic hcur (by rw [hone]; decide) hboundary
  have hrun : runActs [.panicScreen [], .panicClear, .backspace] t = some t' := by
    simp only [runActs, Terminals.act, Option.bind_some] at hback ⊢
    rw [hback, Option.bind_some]
  refine ⟨⟨t, t', hkey, hrun, hrow⟩, ?_⟩
  intro h
  have hone : ∀ a ∈ [Act.panicScreen [], .panicClear, .backspace], ∀ t, OneSession t a := by
    intro a ha t
    simp only [List.mem_cons, List.not_mem_nil, or_false] at ha
    rcases ha with rfl | rfl | rfl
    · exact fun p hp => absurd hp List.not_mem_nil
    · trivial
    · trivial
  have hreachable : (terminalSystem OneSession).Reachable t' :=
    ⟨freshTerminals, initial_freshTerminals,
      Relation.ReflTransGen.head ⟨.key plainKeys 30, trivial, hkey⟩ (runActs_run hone hrun)⟩
  have hbounds := (h t' hreachable).bounds.vidY
  rw [hrow] at hbounds
  contradiction

/-- A panic keeps what is typed. -/
theorem input_panic (t : Terminals) :
    ((panicScreen [] t).term (panicScreen [] t).cur).input = (t.term t.cur).input ∧
      ((panicClear t).term (panicClear t).cur).input = (t.term t.cur).input := by
  have hscreen := @panicScreen_changes t [] fun p hp => absurd hp List.not_mem_nil
  have hclear := clearScreen_changes t video
  change Changes t (panicClear t) _ [] [] at hclear
  constructor
  · rw [hscreen.cur, hscreen.term, Function.update_self]
    rfl
  · rw [hclear.cur, hclear.term, Function.update_self]
    rfl

/-- The typed letter is taken back before a program panics: the cursor stays on the screen
when the backspace key is pressed again. -/
theorem cursor_on_screen_panic :
    ∃ t, runActs [.key plainKeys 30, .backspace, .panicScreen [], .panicClear, .backspace]
      freshTerminals = some t ∧ OnScreen t := by
  obtain ⟨t, hkey, hcur, hone, -, hhead, hptr⟩ := typed_freshTerminals
  have htyped : ¬ (t.term t.cur).input.kbdBufIdx = 0 := by
    rw [hone]
    decide
  obtain ⟨t₁, hback⟩ := backspace_some (not_scrolledBack_of_eq (hhead.trans hptr.symm))
    (hasRoom_of_boundary hcur hptr) video
  have hdelete : t.act .backspace =
      some (setInput t.cur (deleteKeystroke (t.term t.cur).input) t₁) := by
    show deleteKey t = _
    unfold deleteKey
    rw [if_neg htyped, hback]
    rfl
  have hchanges := (backspace_changes hback).setInput t.cur (deleteKeystroke (t.term t.cur).input)
  generalize setInput t.cur (deleteKeystroke (t.term t.cur).input) t₁ = t₂ at hdelete hchanges
  have hempty : (t₂.term t₂.cur).input.kbdBufIdx = 0 := by
    rw [hchanges.cur, hchanges.term, Function.update_self]
    show (deleteKeystroke (t.term t.cur).input).kbdBufIdx = 0
    unfold deleteKeystroke
    rw [if_neg htyped]
    show (t.term t.cur).input.kbdBufIdx - 1 = 0
    rw [hone]
  have hprinted : t₂.act (.panicScreen []) = some (panicScreen [] t₂) := rfl
  have hscreen := (input_panic t₂).1
  generalize panicScreen [] t₂ = q at hprinted hscreen
  have hcleared : q.act .panicClear = some (panicClear q) := rfl
  have hclear := (input_panic q).2
  generalize panicClear q = p at hcleared hclear
  have hlast : p.act .backspace = some p := by
    show deleteKey p = some p
    unfold deleteKey
    rw [if_pos]
    rw [hclear, hscreen]
    exact hempty
  have hpressed : (terminalSystem fun t a => OneSession t a ∧ CalmPanic t a).Reachable t₂ :=
    ((TransitionSystem.Reachable.init (T := terminalSystem fun t a => OneSession t a ∧
      CalmPanic t a) initial_freshTerminals).step
        ⟨.key plainKeys 30, ⟨trivial, trivial⟩, hkey⟩).step
          ⟨.backspace, ⟨trivial, trivial⟩, hdelete⟩
  have hpanic := hpressed.step
    ⟨.panicScreen [], ⟨fun p hp => absurd hp List.not_mem_nil, hempty⟩, hprinted⟩
  have hquiet : (q.term q.cur).input.kbdBufIdx = 0 := by
    rw [hscreen]
    exact hempty
  have hend := (hpanic.step ⟨.panicClear, ⟨trivial, hquiet⟩, hcleared⟩).step
    ⟨.backspace, ⟨trivial, trivial⟩, hlast⟩
  refine ⟨p, ?_, (cursor_on_screen p).2.2 hend⟩
  rw [runActs_cons hkey, runActs_cons hdelete, runActs_cons hprinted, runActs_cons hcleared,
    runActs_cons hlast]
  rfl

end Terminal
end NochOS
