import NochOS.Terminal.Cursor

/-!
# Terminal - the history regions of the sessions

Each session has a region of the history page, where the regions are next to one another.
Its pointers stay at lines of the region, in order, whatever is printed, typed or
scrolled.  Nothing stops the history pointer at the end of the region, and a screen that
is scrolled back is loaded for the displayed session even when the output goes to
another one.

Main results:

- Theorems `Lines.newline`, `Lines.back`, `Lines.loaded`: pointers stay at lines.
- Theorem `regions_act_iff`: the acts that keep to the region of their session.
- Theorem `regions_per_session`: the runs of such acts.
- Theorem `regions_crossed`: output to a session that was left scrolled back.
-/

namespace NochOS
namespace Terminal

open Library Process

/-! ## Lines of a region -/

/-- The size of a region. -/
def regionSize : Nat := 0x100000

/-- The screen of a session begins at a line of its region, and its history ends at one
that is not above the row of the cursor. -/
def Lines (b : Nat) (d : SessTerm) : Prop :=
  ∃ k m, d.screenHead = b + numCols * k ∧ d.historyPtr = d.screenHead + numCols * m ∧
    d.vidY ≤ m

namespace Lines

variable {b : Nat} {d : SessTerm}

theorem ordered (h : Lines b d) : b ≤ d.screenHead ∧ d.screenHead ≤ d.historyPtr := by
  obtain ⟨k, m, hhead, hptr, -⟩ := h
  rw [hptr, hhead]
  exact ⟨Nat.le_add_right _ _, Nat.le_add_right _ _⟩

/-- A newline adds a line, and scrolls by one if it is in the last row. -/
theorem newline (h : Lines b d) (hy : d.vidY < numRows) : Lines b d.newline := by
  obtain ⟨k, m, hhead, hptr, hrow⟩ := h
  by_cases hlast : d.vidY + 1 < numRows
  · rw [SessTerm.newline_of_lt hlast]
    refine ⟨k, m + 1, hhead, ?_, Nat.succ_le_succ hrow⟩
    show d.historyPtr + numCols = d.screenHead + numCols * (m + 1)
    rw [hptr, Nat.mul_succ, Nat.add_assoc]
  · have heq : d.vidY + 1 = numRows := by omega
    rw [SessTerm.newline_of_last heq]
    refine ⟨k + 1, m, ?_, ?_, hrow⟩
    · show d.screenHead + numCols = b + numCols * (k + 1)
      rw [hhead, Nat.mul_succ, Nat.add_assoc]
    · show d.historyPtr + numCols = d.screenHead + numCols + numCols * m
      rw [hptr]
      omega

theorem putc (h : Lines b d) (c : UInt8) (hx : d.vidX < numCols) (hy : d.vidY < numRows) :
    Lines b (d.putc c) := by
  by_cases hc : c = 10 ∨ c = 13
  · rw [SessTerm.putc_of_newline hc]
    exact h.newline hy
  · rw [SessTerm.putc_of_char hc hx hy]
    exact h

/-- A backspace leaves the pointers where they are and does not go down. -/
theorem back (h : Lines b d) (hy : d.vidY < numRows) (horigin : ¬ (d.vidX = 0 ∧ d.vidY = 0)) :
    Lines b d.back := by
  obtain ⟨k, m, hhead, hptr, hrow⟩ := h
  unfold SessTerm.back
  by_cases hzero : d.vidX = 0
  · rw [if_neg (not_not.mpr hzero)]
    refine ⟨k, m, hhead, hptr, ?_⟩
    show (d.vidY + (2 ^ 32 - 1)) % 2 ^ 32 ≤ m
    simp only [numRows] at hy
    omega
  · rw [if_pos hzero]
    exact ⟨k, m, hhead, hptr, hrow⟩

/-- A screen is loaded from the last lines of the history. -/
theorem loaded (h : Lines b d) (hy : d.vidY < numRows) (hback : ScrolledBack d) :
    Lines b d.loaded := by
  obtain ⟨k, m, hhead, hptr, hrow⟩ := h
  unfold ScrolledBack at hback
  unfold Lines SessTerm.loaded
  refine ⟨k + m - (numRows - 1), numRows - 1, ?_, ?_, Nat.le_sub_one_of_lt hy⟩
  all_goals
    simp only [numCols, numRows] at hhead hptr hback ⊢
    omega

/-- Clearing the screen goes back to the start of the region. -/
theorem cleared (hb : d.boundary = b) : Lines b d.cleared :=
  ⟨0, 0, hb, rfl, Nat.le_refl _⟩

theorem scrolledUp (h : Lines b d) (htop : d.screenHead ≠ b) :
    Lines b { d with screenHead := d.screenHead - numCols } := by
  obtain ⟨k, m, hhead, hptr, hrow⟩ := h
  have hk : k ≠ 0 := by
    rintro rfl
    exact htop hhead
  refine ⟨k - 1, m + 1, ?_, ?_, Nat.le_succ_of_le hrow⟩
  · show d.screenHead - numCols = b + numCols * (k - 1)
    simp only [numCols] at hhead ⊢
    omega
  · show d.historyPtr = d.screenHead - numCols + numCols * (m + 1)
    simp only [numCols] at hhead hptr ⊢
    omega

theorem scrolledDown (h : Lines b d) (hy : d.vidY < numRows) (hback : ScrolledBack d) :
    Lines b { d with screenHead := d.screenHead + numCols } := by
  obtain ⟨k, m, hhead, hptr, hrow⟩ := h
  unfold ScrolledBack at hback
  refine ⟨k + 1, m - 1, ?_, ?_, ?_⟩
  · show d.screenHead + numCols = b + numCols * (k + 1)
    rw [hhead, Nat.mul_succ, Nat.add_assoc]
  · show d.historyPtr = d.screenHead + numCols + numCols * (m - 1)
    simp only [numCols, numRows] at hptr hback ⊢
    omega
  · show d.vidY ≤ m - 1
    simp only [numCols, numRows] at hptr hback hy
    omega

/-- The check with which output begins. -/
theorem reloaded {t : Terminals} {s : Nat} (h : Lines b (t.term s))
    (hy : (t.term s).vidY < numRows) : Lines b (reloaded s t s) := by
  unfold Terminal.reloaded
  by_cases hback : ScrolledBack (t.term s)
  · rw [if_pos hback]
    by_cases hs : s = t.cur
    · rw [← hs, Function.update_self]
      exact h.loaded hy hback
    · rw [Function.update_of_ne hs]
      exact h
  · rw [if_neg hback]
    exact h

/-- One round of the loop of `terminal_fwrite`. -/
theorem putByte {t t' : Terminals} {sessMem s : Nat} {c : UInt8}
    (hput : putByte sessMem s c t = some t') (h : Lines b (t.term s))
    (hx : (t.term s).vidX < numCols) (hy : (t.term s).vidY < numRows) :
    Lines b (t'.term s) ∧ (t'.term s).boundary = (t.term s).boundary := by
  have hloaded := h.reloaded hy
  have hboundary : (Terminal.reloaded s t s).boundary = (t.term s).boundary := by
    rw [reloaded_eq]
  obtain ⟨hx₀, hy₀, -⟩ := reloaded_cursor s s t
  rw [← hx₀] at hx
  rw [← hy₀] at hy
  have hchar := hloaded.putc c hx hy
  have hsame := (SessTerm.putc_same c (Terminal.reloaded s t s)).2.trans hboundary
  have hrow := SessTerm.vidY_putc c hx hy
  unfold Terminal.putByte at hput
  split at hput
  · obtain ⟨t₁, hputc, hnewline⟩ := Option.bind_eq_some_iff.mp hput
    have hfirst := congrFun (sessPutc_changes hputc).term s
    rw [Function.update_self] at hfirst
    have hsecond := congrFun (newline_changes hnewline).term s
    rw [Function.update_self] at hsecond
    obtain ⟨-, hy₁, -⟩ := reloaded_cursor s s t₁
    rw [← hfirst] at hchar hsame hrow
    rw [hsecond]
    constructor
    · apply newline (hchar.reloaded hrow)
      rw [hy₁]
      exact hrow
    · rw [(SessTerm.newline_same _).2, reloaded_eq]
      exact hsame
  · have hterm := congrFun (sessPutc_changes hput).term s
    rw [Function.update_self] at hterm
    rw [hterm]
    exact ⟨hchar, hsame⟩

end Lines

/-! ## What an operation writes -/

/-- An operation on session `s` puts characters into `n` lines of its history.  The
displayed session, if it is another one, has its screen loaded if `reloads`; nothing else
happens to other sessions. -/
structure Writes (s n : Nat) (reloads : Prop) (t t' : Terminals) : Prop where
  cur : t'.cur = t.cur
  displayed : s ≠ t.cur → reloads → t'.term t.cur = (t.term t.cur).loaded
  others : ∀ r ≠ s, (r = t.cur → ¬ reloads) → t'.term r = t.term r
  logged : ∃ new, t'.logged = t.logged ++ new ∧
    (∀ p ∈ new, p.1 = s ∧ (t.term s).historyPtr ≤ p.2 ∧
      p.2 < (t.term s).historyPtr + numCols * n) ∧
    (0 < n → (s, (t.term s).historyPtr + numCols * n - 1) ∈ new)

namespace Writes

variable {t t' t'' : Terminals} {s n : Nat} {reloads reloads' : Prop}

/-- One line is written by an operation after the check with which output begins. -/
theorem of_changes {d : SessTerm} {cells : List Nat}
    (h : Changes t t' (Function.update (reloaded s t) s d) cells
      (historyLine s (reloaded s t s).historyPtr)) :
    Writes s 1 (ScrolledBack (t.term s)) t t' where
  cur := h.cur
  displayed := by
    intro hs hback
    rw [h.term, Function.update_of_ne (Ne.symm hs)]
    unfold reloaded
    rw [if_pos hback, Function.update_self]
  others := by
    intro r hr hstays
    rw [h.term, Function.update_of_ne hr]
    unfold reloaded
    by_cases hback : ScrolledBack (t.term s)
    · have hne : r ≠ t.cur := fun heq => hstays heq hback
      rw [if_pos hback, Function.update_of_ne hne]
    · rw [if_neg hback]
  logged := by
    have hptr : (reloaded s t s).historyPtr = (t.term s).historyPtr := by
      rw [reloaded_eq]
    rw [hptr] at h
    refine ⟨_, h.logged, ?_, ?_⟩
    · intro p hp
      obtain ⟨i, hi, rfl⟩ := List.mem_map.mp hp
      have hlt := List.mem_range.mp hi
      refine ⟨rfl, Nat.le_add_right _ _, ?_⟩
      show (t.term s).historyPtr + i < (t.term s).historyPtr + numCols * 1
      omega
    · intro _
      refine List.mem_map.mpr ⟨numCols - 1, List.mem_range.mpr (by decide), ?_⟩
      rfl

/-- Nothing is written by an operation that changes one session only. -/
theorem of_quiet {d : SessTerm} {cells : List Nat}
    (h : Changes t t' (Function.update t.term s d) cells []) : Writes s 0 False t t' where
  cur := h.cur
  displayed _ hfalse := absurd hfalse id
  others r hr _ := by rw [h.term, Function.update_of_ne hr]
  logged := ⟨[], h.logged, fun _ hp => absurd hp List.not_mem_nil, fun h => absurd h (by decide)⟩

/-- Two operations, the second of which writes one line, at the end of what is written. -/
theorem trans (h : Writes s 1 reloads t t') (h' : Writes s 1 reloads' t' t'')
    (hn : 1 ≤ n)
    (hptr : (t'.term s).historyPtr + numCols * 1 = (t.term s).historyPtr + numCols * n) :
    Writes s n (reloads ∨ reloads') t t'' where
  cur := h'.cur.trans h.cur
  displayed := by
    intro hs hor
    have hs' : s ≠ t'.cur := by
      rw [h.cur]
      exact hs
    by_cases hsecond : reloads'
    · have hloaded := h'.displayed hs' hsecond
      rw [h.cur] at hloaded
      rw [hloaded]
      by_cases hfirst : reloads
      · rw [h.displayed hs hfirst, SessTerm.loaded_loaded]
      · rw [h.others t.cur (Ne.symm hs) fun _ => hfirst]
    · have hsame := h'.others t'.cur (Ne.symm hs') fun _ => hsecond
      rw [h.cur] at hsame
      rw [hsame]
      exact h.displayed hs (hor.resolve_right hsecond)
  others := by
    intro r hr hstays
    have hsecond : r = t'.cur → ¬ reloads' := by
      rw [h.cur]
      exact fun heq => (not_or.mp (hstays heq)).2
    rw [h'.others r hr hsecond, h.others r hr fun heq => (not_or.mp (hstays heq)).1]
  logged := by
    obtain ⟨new, heq, hnew, hlast⟩ := h.logged
    obtain ⟨new', heq', hnew', hlast'⟩ := h'.logged
    have hle := Nat.mul_le_mul_left numCols hn
    refine ⟨new ++ new', by rw [heq', heq, List.append_assoc], ?_, ?_⟩
    · intro p hp
      rcases List.mem_append.mp hp with hp | hp
      · obtain ⟨hsess, hlow, hhigh⟩ := hnew p hp
        exact ⟨hsess, hlow, by omega⟩
      · obtain ⟨hsess, hlow, hhigh⟩ := hnew' p hp
        exact ⟨hsess, by omega, by omega⟩
    · intro _
      rw [← hptr]
      exact List.mem_append_right _ (hlast' (by decide))

/-- The displayed session counts as another one only if it is. -/
theorem congr (h : Writes s n reloads t t') (hiff : s ≠ t.cur → (reloads ↔ reloads')) :
    Writes s n reloads' t t' where
  cur := h.cur
  displayed hs hreloads := h.displayed hs ((hiff hs).mpr hreloads)
  others := by
    intro r hr hstays
    apply h.others r hr
    intro heq hreloads
    have hs : s ≠ t.cur := by
      rw [← heq]
      exact Ne.symm hr
    exact hstays heq ((hiff hs).mp hreloads)
  logged := h.logged

/-- The keyboard's side of the session is put in before. -/
theorem of_setInput {i : Input} (h : Writes s n reloads (setInput s i t) t') :
    Writes s n reloads t t' := by
  have hterm := term_setInput t s i
  have hother : ∀ r ≠ s, (setInput s i t).term r = t.term r :=
    fun r hr => Function.update_of_ne hr _ _
  have hcur : (setInput s i t).cur = t.cur := rfl
  have hlogged : (setInput s i t).logged = t.logged := rfl
  obtain ⟨h₁, h₂, h₃, h₄⟩ := h
  rw [hcur] at h₁ h₂ h₃
  rw [hlogged, hterm] at h₄
  refine ⟨h₁, ?_, ?_, h₄⟩
  · intro hs hreloads
    rw [h₂ hs hreloads, hother _ (Ne.symm hs)]
  · intro r hr hstays
    rw [h₃ r hr hstays, hother r hr]

/-- The keyboard's side of the session is put in afterwards. -/
theorem setInput (h : Writes s n reloads t t') (i : Input) :
    Writes s n reloads t (setInput s i t') where
  cur := h.cur
  displayed := by
    intro hs hreloads
    rw [← h.displayed hs hreloads]
    exact Function.update_of_ne (Ne.symm hs) _ _
  others := by
    intro r hr hstays
    rw [← h.others r hr hstays]
    exact Function.update_of_ne hr _ _
  logged := h.logged

end Writes

/-- Output of a character loads the screen if the session is scrolled back, at its
beginning or when the carriage return at the end of a line is followed by a newline. -/
def Reloads (d : SessTerm) (c : UInt8) : Prop :=
  ScrolledBack d ∨
    (lineCheck d ∧ c = 13 ∧ d.vidY + 1 < numRows ∧
      d.historyPtr = d.screenHead + numCols * (numRows - 1))

/-- The number of lines that output of a character writes to. -/
def linesOf (d : SessTerm) (c : UInt8) : Nat := if lineCheck d ∧ c = 13 then 2 else 1

/-- A screen is scrolled back after a newline if it was before, or if it begins where it
would be loaded from and the newline is above the last row. -/
theorem scrolledBack_newline {b : Nat} {d : SessTerm} (hlines : Lines b d)
    (hy : d.vidY < numRows) :
    ScrolledBack d.newline ↔
      ScrolledBack d ∨
        (d.vidY + 1 < numRows ∧ d.historyPtr = d.screenHead + numCols * (numRows - 1)) := by
  obtain ⟨k, m, hhead, hptr, hrow⟩ := hlines
  by_cases hlast : d.vidY + 1 < numRows
  · rw [SessTerm.newline_of_lt hlast]
    unfold ScrolledBack
    simp only [numCols, numRows] at hptr hlast ⊢
    omega
  · have heq : d.vidY + 1 = numRows := by omega
    rw [SessTerm.newline_of_last heq]
    unfold ScrolledBack
    simp only [numCols, numRows] at hptr hlast ⊢
    omega

/-- One round of the loop of `terminal_fwrite`. -/
theorem putByte_writes {t t' : Terminals} {sessMem s b : Nat} {c : UInt8}
    (h : putByte sessMem s c t = some t') (hlines : Lines b (t.term s))
    (hx : (t.term s).vidX < numCols) (hy : (t.term s).vidY < numRows) :
    Writes s (linesOf (t.term s) c) (Reloads (t.term s) c) t t' := by
  unfold putByte at h
  unfold linesOf
  by_cases hline : lineCheck (t.term s) ∧ c ≠ 10
  · rw [if_pos hline] at h
    obtain ⟨t₁, hputc, hnewline⟩ := Option.bind_eq_some_iff.mp h
    have hchanges := sessPutc_changes hputc
    have hfirst := Writes.of_changes hchanges
    have hsecond := Writes.of_changes (newline_changes hnewline)
    have hterm : t₁.term s = (reloaded s t s).putc c := by
      rw [hchanges.term, Function.update_self]
    have hptr : (reloaded s t s).historyPtr = (t.term s).historyPtr := by
      rw [reloaded_eq]
    by_cases hreturn : c = 13
    · have hmoved : (t₁.term s).historyPtr = (t.term s).historyPtr + numCols := by
        rw [hterm, SessTerm.putc_of_newline (Or.inr hreturn), SessTerm.historyPtr_newline, hptr]
      rw [if_pos ⟨hline.1, hreturn⟩]
      apply (hfirst.trans hsecond (by decide) (by rw [hmoved, Nat.mul_one, Nat.mul_two,
        Nat.add_assoc])).congr
      intro hs
      rw [hterm, reloaded_of_ne hs, SessTerm.putc_of_newline (Or.inr hreturn),
        scrolledBack_newline hlines hy]
      unfold Reloads
      constructor
      · rintro (hback | hback | hnext)
        · exact Or.inl hback
        · exact Or.inl hback
        · exact Or.inr ⟨hline.1, hreturn, hnext⟩
      · rintro (hback | ⟨-, -, hnext⟩)
        · exact Or.inl hback
        · exact Or.inr (Or.inr hnext)
    · have hchar : ¬ (c = 10 ∨ c = 13) := not_or.mpr ⟨hline.2, hreturn⟩
      have hkept : (t₁.term s).historyPtr = (t.term s).historyPtr := by
        obtain ⟨hx₀, hy₀, -⟩ := reloaded_cursor s s t
        rw [← hx₀] at hx
        rw [← hy₀] at hy
        rw [hterm, SessTerm.putc_of_char hchar hx hy]
        exact hptr
      rw [if_neg fun hboth => hreturn hboth.2]
      apply (hfirst.trans hsecond (Nat.le_refl 1) (by rw [hkept])).congr
      intro hs
      rw [hterm, reloaded_of_ne hs, SessTerm.putc_of_char hchar hx hy]
      unfold Reloads
      constructor
      · rintro (hback | hback)
        · exact Or.inl hback
        · exact Or.inl hback
      · rintro (hback | ⟨-, hcr, -⟩)
        · exact Or.inl hback
        · exact absurd hcr hreturn
  · rw [if_neg hline] at h
    have hone : ¬ (lineCheck (t.term s) ∧ c = 13) := by
      rintro ⟨hcheck, rfl⟩
      exact hline ⟨hcheck, by decide⟩
    rw [if_neg hone]
    apply (Writes.of_changes (sessPutc_changes h)).congr
    intro _
    unfold Reloads
    constructor
    · exact Or.inl
    · rintro (hback | ⟨hcheck, hcr, -⟩)
      · exact hback
      · exact absurd ⟨hcheck, hcr⟩ hone

/-! ## Sessions in their regions -/

/-- The cursor of a session is on the screen, after what was typed, and its pointers are at
lines of its region. -/
structure Sound (b : Nat) (d : SessTerm) : Prop extends InBounds d where
  before : d.input.kbdBufIdx ≤ position d
  boundary : d.boundary = b
  lines : Lines b d

/-- All sessions are, and no other bytes were written than those of their regions. -/
structure Regions (t : Terminals) : Prop where
  displayed : t.cur < numSess
  sound : ∀ s < numSess, Sound (boundaryOf s) (t.term s)
  logged : ∀ p ∈ t.logged, boundaryOf p.1 ≤ p.2 ∧ p.2 < boundaryOf p.1 + regionSize

/-- The pointers of each session are in order, and the bytes that were written for it are in
its region. -/
structure InRegions (t : Terminals) : Prop where
  pointers : ∀ s < numSess, (t.term s).boundary = boundaryOf s ∧
    (t.term s).boundary ≤ (t.term s).screenHead ∧
    (t.term s).screenHead ≤ (t.term s).historyPtr
  logged : ∀ p ∈ t.logged, boundaryOf p.1 ≤ p.2 ∧ p.2 < boundaryOf p.1 + regionSize

/-- Output to any session, keys, switches and the wheel. -/
def AnySession : Act → Prop
  | .output _ sessId _ => sessId < numSess
  | .panicScreen _ | .panicClear => False
  | .key _ _ | .backspace | .enter | .sessSwitch _ | .scrollUp | .scrollDown => True

/-- An act is an operation on a session. -/
def OnSession (t : Terminals) : Act → Nat → Prop
  | .output _ sessId _, s => s = sessId
  | .sessSwitch _, _ => False
  | _, s => s = t.cur

/-- The pointers of the other sessions stay as they are. -/
def OthersKept (t : Terminals) (a : Act) (t' : Terminals) : Prop :=
  ∀ s < numSess, ¬ OnSession t a s →
    (t'.term s).screenHead = (t.term s).screenHead ∧
      (t'.term s).historyPtr = (t.term s).historyPtr

/-- There is room for so many lines in the region of a session. -/
def RoomFor (d : SessTerm) (n : Nat) : Prop :=
  d.historyPtr + numCols * n ≤ d.boundary + regionSize

/-- Another session is displayed, and its screen begins elsewhere than where it would be
loaded from. -/
def Displaced (t : Terminals) (s : Nat) : Prop :=
  s ≠ t.cur ∧
    (t.term t.cur).screenHead + numCols * (numRows - 1) ≠ (t.term t.cur).historyPtr

/-- There is room in the region for what an act writes, and it does not load the screen of
another session. -/
def Confined (t : Terminals) : Act → Prop
  | .output _ s c =>
      RoomFor (t.term s) (linesOf (t.term s) c) ∧ ¬ (Reloads (t.term s) c ∧ Displaced t s)
  | .key info keycode => Prints t info keycode → RoomFor (t.term t.cur) 1
  | .backspace => (t.term t.cur).input.kbdBufIdx ≠ 0 → RoomFor (t.term t.cur) 1
  | .enter => RoomFor (t.term t.cur) 1
  | .panicScreen _ | .panicClear | .sessSwitch _ | .scrollUp | .scrollDown => True

section Acts

variable {t t' : Terminals} {s n : Nat} {reloads : Prop}

theorem Regions.inRegions (h : Regions t) : InRegions t := by
  refine ⟨?_, h.logged⟩
  intro s hs
  have hsound := h.sound s hs
  rw [hsound.boundary]
  exact ⟨rfl, hsound.lines.ordered⟩

/-- What was not written elsewhere leaves the sessions in their regions. -/
theorem Writes.regions (h : Writes s n reloads t t') (hr : Regions t)
    (hs : s < numSess) (hsound : Sound (boundaryOf s) (t'.term s))
    (hroom : 0 < n → RoomFor (t.term s) n) (hstays : ¬ (reloads ∧ Displaced t s)) :
    Regions t' ∧ ∀ r < numSess, r ≠ s → t'.term r = t.term r := by
  have hothers : ∀ r < numSess, r ≠ s → t'.term r = t.term r := by
    intro r _ hrs
    by_cases hload : r = t.cur ∧ reloads
    · obtain ⟨rfl, hreloads⟩ := hload
      rw [h.displayed (Ne.symm hrs) hreloads]
      apply SessTerm.loaded_of_eq
      by_contra hne
      exact hstays ⟨hreloads, Ne.symm hrs, hne⟩
    · exact h.others r hrs fun heq hreloads => hload ⟨heq, hreloads⟩
  refine ⟨⟨?_, ?_, ?_⟩, hothers⟩
  · rw [h.cur]
    exact hr.displayed
  · intro r hrlt
    by_cases hrs : r = s
    · rw [hrs]
      exact hsound
    · rw [hothers r hrlt hrs]
      exact hr.sound r hrlt
  · obtain ⟨new, heq, hnew, -⟩ := h.logged
    have hbefore := hr.sound s hs
    have hordered := hbefore.lines.ordered
    intro p hp
    rw [heq] at hp
    rcases List.mem_append.mp hp with hp | hp
    · exact hr.logged p hp
    · obtain ⟨hsess, hlow, hhigh⟩ := hnew p hp
      have hpositive : 0 < n := by
        rcases Nat.eq_zero_or_pos n with rfl | hpos
        · omega
        · exact hpos
      have hfits := hroom hpositive
      unfold RoomFor at hfits
      rw [hbefore.boundary] at hfits
      rw [hsess]
      omega

/-- An operation on a session keeps to its region exactly if there is room for what it
writes and it does not load another screen. -/
theorem Writes.confined_iff (h : Writes s n reloads t t') (hr : Regions t)
    (hs : s < numSess) (hsound : Sound (boundaryOf s) (t'.term s)) :
    (InRegions t' ∧ ∀ r < numSess, r ≠ s →
        (t'.term r).screenHead = (t.term r).screenHead ∧
          (t'.term r).historyPtr = (t.term r).historyPtr) ↔
      (0 < n → RoomFor (t.term s) n) ∧ ¬ (reloads ∧ Displaced t s) := by
  constructor
  · rintro ⟨hin, hothers⟩
    constructor
    · intro hpositive
      obtain ⟨new, heq, -, hlast⟩ := h.logged
      have hmem : (s, (t.term s).historyPtr + numCols * n - 1) ∈ t'.logged := by
        rw [heq]
        exact List.mem_append_right _ (hlast hpositive)
      have hhigh := (hin.logged _ hmem).2
      unfold RoomFor
      rw [(hr.sound s hs).boundary]
      simp only [numCols] at hhigh ⊢
      omega
    · rintro ⟨hreloads, hother, hne⟩
      apply hne
      have hhead := (hothers t.cur hr.displayed (Ne.symm hother)).1
      rw [h.displayed hother hreloads] at hhead
      have hpage := (boundaryOf_page hr.displayed).1
      have hordered := (hr.sound t.cur hr.displayed).lines.ordered
      unfold SessTerm.loaded at hhead
      simp only [boundary1, numCols, numRows] at hhead hpage ⊢
      omega
  · rintro ⟨hroom, hstays⟩
    obtain ⟨hregions, hothers⟩ := h.regions hr hs hsound hroom hstays
    refine ⟨hregions.inRegions, ?_⟩
    intro r hrlt hrs
    rw [hothers r hrlt hrs]
    exact ⟨rfl, rfl⟩

/-- Output leaves a session sound, with one more character typed or not. -/
theorem sound_putByte {sessMem b : Nat} {c : UInt8} (h : putByte sessMem s c t = some t')
    (hx : (t.term s).vidX < numCols) (hy : (t.term s).vidY < numRows)
    (hbefore : (t.term s).input.kbdBufIdx ≤ position (t.term s) + 1)
    (htyped : (t.term s).input.kbdBufIdx < keyBufSize) (hb : (t.term s).boundary = b)
    (hlines : Lines b (t.term s)) : Sound b (t'.term s) := by
  obtain ⟨hplaced, hinput, -, -⟩ := Placed.putByte h hx hy hbefore (Nat.le_of_lt htyped)
  obtain ⟨hlines', hboundary⟩ := Lines.putByte h hlines hx hy
  rw [← hinput] at htyped
  refine ⟨⟨hplaced.vidX, hplaced.vidY, htyped⟩, ?_, hboundary.trans hb, hlines'⟩
  rw [hinput]
  exact hplaced.le

theorem Sound.setInput {b : Nat} {d : SessTerm} (h : Sound b d) {i : Input}
    (hidx : i.kbdBufIdx ≤ d.input.kbdBufIdx) : Sound b { d with input := i } :=
  ⟨⟨h.vidX, h.vidY, Nat.lt_of_le_of_lt hidx h.typed⟩, Nat.le_trans hidx h.before, h.boundary,
    h.lines⟩

/-- A screen that was cleared. -/
theorem Sound.cleared {b : Nat} {d : SessTerm} (hb : d.boundary = b)
    {i : Input} (hidx : i.kbdBufIdx = 0) : Sound b { d.cleared with input := i } := by
  have hzero : 0 < numCols ∧ 0 < numRows ∧ 0 < keyBufSize := by decide
  refine ⟨⟨hzero.1, hzero.2.1, ?_⟩, ?_, hb, Lines.cleared hb⟩
  · show i.kbdBufIdx < keyBufSize
    rw [hidx]
    exact hzero.2.2
  · show i.kbdBufIdx ≤ _
    rw [hidx]
    exact Nat.zero_le _

/-- A newline with nothing typed. -/
theorem Sound.newline {b : Nat} {d : SessTerm} (hlines : Lines b d) (hy : d.vidY < numRows)
    (hb : d.boundary = b) (hidx : d.input.kbdBufIdx = 0) : Sound b d.newline := by
  obtain ⟨hinput, hboundary⟩ := d.newline_same
  have hplaced := Placed.newline hy (Nat.zero_le _) (Nat.zero_le _)
  rw [← hinput] at hidx
  refine ⟨⟨hplaced.vidX, hplaced.vidY, ?_⟩, ?_, hboundary.trans hb, hlines.newline hy⟩
  · rw [hidx]
    decide
  · rw [hidx]
    exact hplaced.le

/-- A backspace takes back a character that stands before the cursor. -/
theorem Sound.back {b : Nat} {d : SessTerm} (h : Sound b d) {i : Input}
    (hidx : i.kbdBufIdx + 1 = d.input.kbdBufIdx) : Sound b { d.back with input := i } := by
  have hbefore : i.kbdBufIdx + 1 ≤ position d := by
    rw [hidx]
    exact h.before
  have horigin : ¬ (d.vidX = 0 ∧ d.vidY = 0) := by
    rintro ⟨hx, hy⟩
    unfold position at hbefore
    rw [hx, hy] at hbefore
    exact absurd hbefore (Nat.not_succ_le_zero _)
  have hplaced := Placed.back h.vidX h.vidY horigin hbefore
  have hlines := h.lines.back h.vidY horigin
  have hboundary : d.back.boundary = b := by
    rw [← h.boundary]
    unfold SessTerm.back
    split
    · rfl
    · rfl
  have htyped : i.kbdBufIdx < keyBufSize := by
    have hlt := h.typed
    omega
  exact ⟨⟨hplaced.vidX, hplaced.vidY, htyped⟩, hplaced.le, hboundary, hlines⟩

/-- The check with which output begins. -/
theorem Sound.reloaded {b : Nat} (h : Sound b (t.term s)) : Sound b (reloaded s t s) := by
  have hlines := h.lines.reloaded h.vidY
  rw [reloaded_eq] at hlines ⊢
  exact ⟨⟨h.vidX, h.vidY, h.typed⟩, h.before, h.boundary, hlines⟩

/-- An act is an operation on the displayed session, which it leaves sound, and there is room
for what it writes exactly if it is confined. -/
def OnDisplayed (t : Terminals) (a : Act) (t' : Terminals) : Prop :=
  ∃ n reloads, Writes t.cur n reloads t t' ∧ Sound (boundaryOf t.cur) (t'.term t.cur) ∧
    ((0 < n → RoomFor (t.term t.cur) n) ↔ Confined t a)

/-- An act that writes nothing. -/
theorem OnDisplayed.of_quiet {a : Act} {d : SessTerm} {cells : List Nat}
    (h : Changes t t' (Function.update t.term t.cur d) cells [])
    (hsound : Sound (boundaryOf t.cur) d) (hconfined : Confined t a) : OnDisplayed t a t' := by
  refine ⟨0, False, Writes.of_quiet h, ?_, ?_⟩
  · rw [h.term, Function.update_self]
    exact hsound
  · exact ⟨fun _ => hconfined, fun _ h => absurd h (by decide)⟩

/-- An act that does nothing. -/
theorem OnDisplayed.refl (hr : Regions t) {a : Act} (hconfined : Confined t a) :
    OnDisplayed t a t :=
  OnDisplayed.of_quiet ((Changes.refl t).of_term (Function.update_eq_self t.cur t.term).symm)
    (hr.sound t.cur hr.displayed) hconfined

/-- A key. -/
theorem Regions.printKey (hr : Regions t) {info : KeyInfo} {keycode : Nat}
    (h : printKey info keycode t = some t') :
    OnDisplayed t (.key info keycode) t' := by
  have hsound := hr.sound t.cur hr.displayed
  rcases printKey_cases h with ⟨hquiet, rfl, hempty⟩ | ⟨hquiet, rfl⟩ | ⟨hprints, hone, hput⟩
  · have hchanges := (clearScreen_changes t video).setInput t.cur
      (printRegularKey (t.term t.cur).input info keycode)
    rw [Function.update_idem, Function.update_self] at hchanges
    generalize Terminal.setInput t.cur (printRegularKey (t.term t.cur).input info keycode)
      (clearScreen video t.cur t) = t' at hchanges
    exact OnDisplayed.of_quiet hchanges (Sound.cleared hsound.boundary hempty)
      fun hprints => absurd hprints hquiet
  · exact OnDisplayed.refl hr fun hprints => absurd hprints hquiet
  · have hreturn := keyOf_ne_return info keycode
    have hroom := hprints.room
    have hterm := term_setInput t t.cur (printRegularKey (t.term t.cur).input info keycode)
    have hwrites := putByte_writes (b := boundaryOf t.cur) hput
      (by rw [hterm]; exact hsound.lines) (by rw [hterm]; exact hsound.vidX)
      (by rw [hterm]; exact hsound.vidY)
    unfold linesOf at hwrites
    rw [if_neg fun hboth => hreturn hboth.2] at hwrites
    refine ⟨1, _, hwrites.of_setInput, ?_, ?_⟩
    · apply sound_putByte hput
      all_goals rw [hterm]
      · exact hsound.vidX
      · exact hsound.vidY
      · show (printRegularKey (t.term t.cur).input info keycode).kbdBufIdx ≤
          position (t.term t.cur) + 1
        rw [hone]
        exact Nat.succ_le_succ hsound.before
      · show (printRegularKey (t.term t.cur).input info keycode).kbdBufIdx < keyBufSize
        omega
      · exact hsound.boundary
      · exact hsound.lines
    · exact ⟨fun hfits _ => hfits (by decide), fun hfits _ => hfits hprints⟩

/-- The backspace key. -/
theorem Regions.deleteKey (hr : Regions t) (h : deleteKey t = some t') :
    OnDisplayed t .backspace t' := by
  have hsound := hr.sound t.cur hr.displayed
  rcases deleteKey_cases h with ⟨hempty, rfl⟩ | ⟨htyped, t₁, hback, rfl, hone⟩
  · exact OnDisplayed.refl hr fun htyped => absurd hempty htyped
  · have hchanges := backspace_changes hback
    have hwrites := (Writes.of_changes hchanges).setInput (deleteKeystroke (t.term t.cur).input)
    refine ⟨1, _, hwrites, ?_, ?_⟩
    · rw [term_setInput, hchanges.term, Function.update_self]
      apply hsound.reloaded.back
      rw [hone, (reloaded_cursor t.cur t.cur t).2.2]
      exact Nat.succ_pred_eq_of_ne_zero htyped
    · exact ⟨fun hfits _ => hfits (by decide), fun hfits _ => hfits htyped⟩

/-- The enter key. -/
theorem Regions.enterKey (hr : Regions t) (h : enterKey t = some t') :
    OnDisplayed t .enter t' := by
  have hsound := hr.sound t.cur hr.displayed
  have hempty := kbdBufIdx_keyboardEnter hsound.typed
  have hchanges := newline_changes h
  have hterm := term_setInput t t.cur (keyboardEnter (t.term t.cur).input)
  have hentered : Sound (boundaryOf t.cur)
      ((Terminal.setInput t.cur (keyboardEnter (t.term t.cur).input) t).term t.cur) := by
    rw [hterm]
    apply hsound.setInput
    rw [hempty]
    exact Nat.zero_le _
  refine ⟨1, _, (Writes.of_changes hchanges).of_setInput, ?_, ?_⟩
  · rw [hchanges.term, Function.update_self]
    have hloaded := hentered.reloaded
    apply Sound.newline hloaded.lines hloaded.vidY hloaded.boundary
    rw [(reloaded_cursor _ _ _).2.2, hterm]
    exact hempty
  · exact ⟨fun hfits => hfits (by decide), fun hfits _ => hfits⟩

/-- The wheel. -/
theorem Regions.scrollUp (hr : Regions t) (h : scrollUp t = some t') :
    OnDisplayed t .scrollUp t' := by
  have hsound := hr.sound t.cur hr.displayed
  rcases scrollUp_changes h with ⟨-, rfl⟩ | ⟨htop, hchanges⟩
  · exact OnDisplayed.refl hr trivial
  · rw [hsound.boundary] at htop
    have hscrolled : Sound (boundaryOf t.cur)
        { t.term t.cur with screenHead := (t.term t.cur).screenHead - numCols } :=
      ⟨⟨hsound.vidX, hsound.vidY, hsound.typed⟩, hsound.before, hsound.boundary,
        hsound.lines.scrolledUp htop⟩
    exact OnDisplayed.of_quiet hchanges hscrolled trivial

theorem Regions.scrollDown (hr : Regions t) (h : scrollDown t = some t') :
    OnDisplayed t .scrollDown t' := by
  have hsound := hr.sound t.cur hr.displayed
  rcases scrollDown_changes h with ⟨-, rfl⟩ | ⟨hback, hchanges⟩
  · exact OnDisplayed.refl hr trivial
  · have hscrolled : Sound (boundaryOf t.cur)
        { t.term t.cur with screenHead := (t.term t.cur).screenHead + numCols } :=
      ⟨⟨hsound.vidX, hsound.vidY, hsound.typed⟩, hsound.before, hsound.boundary,
        hsound.lines.scrolledDown hsound.vidY hback⟩
    exact OnDisplayed.of_quiet hchanges hscrolled trivial

/-- An act on the displayed session keeps to its region exactly if it is confined. -/
theorem OnDisplayed.confined_iff {a : Act} (h : OnDisplayed t a t') (hr : Regions t) :
    ((InRegions t' ∧ ∀ r < numSess, r ≠ t.cur →
        (t'.term r).screenHead = (t.term r).screenHead ∧
          (t'.term r).historyPtr = (t.term r).historyPtr) ↔ Confined t a) ∧
      (Confined t a → Regions t') := by
  obtain ⟨n, reloads, hwrites, hsound, hroom⟩ := h
  have hstays : ¬ (reloads ∧ Displaced t t.cur) := fun hload => hload.2.1 rfl
  have hiff := hwrites.confined_iff hr hr.displayed hsound
  rw [and_iff_left hstays, hroom] at hiff
  refine ⟨hiff, ?_⟩
  intro hconfined
  exact (hwrites.regions hr hr.displayed hsound (hroom.mpr hconfined) hstays).1

/-- A switch leaves the sessions alone. -/
theorem Regions.sessSwitch (hr : Regions t) {sessId : Nat}
    (h : t.act (.sessSwitch sessId) = some t') : Regions t' ∧ t'.term = t.term := by
  have heq := Option.some.inj h
  have hterm : t'.term = t.term := by
    rw [← heq]
  have hlogged : t'.logged = t.logged := by
    rw [← heq]
  have hcur : t'.cur < numSess := by
    rw [← heq]
    show (Terminal.sessSwitch t.console sessId).1.kernel.curSessId < numSess
    unfold Terminal.sessSwitch
    by_cases hlt : sessId < numSess
    · rw [if_neg (Nat.not_le.mpr hlt)]
      split
      · exact hr.displayed
      · show (Process.sessSwitch t.console.kernel sessId).1.curSessId < numSess
        rw [(kernel_sessSwitch hlt).1]
        exact hlt
    · rw [if_pos (Nat.le_of_not_lt hlt)]
      exact hr.displayed
  refine ⟨⟨hcur, ?_, ?_⟩, hterm⟩
  · rw [hterm]
    exact hr.sound
  · rw [hlogged]
    exact hr.logged

/-- An act keeps to the region of its session exactly if it is confined. -/
theorem regions_act_iff (hr : Regions t) {a : Act} (hany : AnySession a)
    (h : t.act a = some t') :
    ((InRegions t' ∧ OthersKept t a t') ↔ Confined t a) ∧ (Confined t a → Regions t') := by
  cases a with
  | output sessMem sessId c =>
      have hlt : sessId < numSess := hany
      have hsound := hr.sound sessId hlt
      have hwrites := putByte_writes h hsound.lines hsound.vidX hsound.vidY
      have hsound' := sound_putByte h hsound.vidX hsound.vidY (Nat.le_succ_of_le hsound.before)
        hsound.typed hsound.boundary hsound.lines
      have hpositive : 0 < linesOf (t.term sessId) c := by
        unfold linesOf
        split
        · decide
        · decide
      have hiff := hwrites.confined_iff hr hlt hsound'
      rw [imp_iff_right hpositive] at hiff
      refine ⟨hiff, ?_⟩
      rintro ⟨hroom, hstays⟩
      exact (hwrites.regions hr hlt hsound' (fun _ => hroom) hstays).1
  | key info keycode => exact (hr.printKey h).confined_iff hr
  | backspace => exact (hr.deleteKey h).confined_iff hr
  | enter => exact (hr.enterKey h).confined_iff hr
  | panicScreen printed => exact absurd hany id
  | panicClear => exact absurd hany id
  | sessSwitch sessId =>
      obtain ⟨hregions, hterm⟩ := hr.sessSwitch h
      refine ⟨⟨fun _ => trivial, fun _ => ⟨hregions.inRegions, ?_⟩⟩, fun _ => hregions⟩
      intro s _ _
      rw [hterm]
      exact ⟨rfl, rfl⟩
  | scrollUp => exact (hr.scrollUp h).confined_iff hr
  | scrollDown => exact (hr.scrollDown h).confined_iff hr

end Acts

theorem Regions.of_initial {t : Terminals} (h : Initial t) : Regions t := by
  refine ⟨h.displayed, ?_, ?_⟩
  · intro s hs
    obtain ⟨hx, hy, htyped, hboundary, hhead, hptr⟩ := h.term s hs
    refine ⟨⟨?_, ?_, ?_⟩, ?_, hboundary, 0, 0, hhead, hptr.trans hhead.symm, Nat.le_of_eq hy⟩
    · rw [hx]
      decide
    · rw [hy]
      decide
    · rw [htyped]
      decide
    · rw [htyped]
      exact Nat.zero_le _
  · intro p hp
    rw [h.logged] at hp
    exact absurd hp List.not_mem_nil

/-- In every run whose acts have room in the region of their session and do not load the
screen of another one, the pointers of each session stay in order, all that is written is
in the region of its session, and no act moves the pointers of other sessions; and an act
that is not such an act ends that. -/
theorem regions_per_session :
    ∀ t, (terminalSystem fun t a => AnySession a ∧ Confined t a).Reachable t →
      InRegions t ∧
        ∀ a t', AnySession a → t.act a = some t' →
          ((InRegions t' ∧ OthersKept t a t') ↔ Confined t a) := by
  intro t hreachable
  have hinv : (terminalSystem fun t a => AnySession a ∧ Confined t a).IsInvariant Regions := by
    refine ⟨fun t hinit => Regions.of_initial hinit, ?_⟩
    rintro t t' hr ⟨a, ⟨hany, hconfined⟩, h⟩
    exact (regions_act_iff hr hany h).2 hconfined
  have hregions := hinv.of_reachable hreachable
  refine ⟨hregions.inRegions, ?_⟩
  intro a t' hany h
  exact (regions_act_iff hregions hany h).1

/-! ## Output to a session that was left scrolled back -/

section Crossing

variable {t t' : Terminals}

/-- The first session is displayed with so many empty lines printed, and the second one is
as it was set up. -/
structure Lined (t : Terminals) (n : Nat) : Prop where
  displayed : t.cur = 0
  first : t.term 0 =
    { freshTerminals.term 0 with
      historyPtr := boundary1 + numCols * n
      vidY := n }
  second : t.term 1 = freshTerminals.term 1

theorem Lined.lines {n : Nat} (h : Lined t n) : Lines boundary1 (t.term 0) := by
  rw [h.first]
  exact ⟨0, n, rfl, rfl, Nat.le_refl n⟩

/-- A newline is printed on the screen of the first session. -/
theorem Lined.newline {n : Nat} (h : Lined t n) (hn : n < numRows) :
    ∃ t', t.act (.output video 0 10) = some t' ∧ t'.cur = 0 ∧
      t'.term 0 = (t.term 0).newline ∧ t'.term 1 = freshTerminals.term 1 := by
  have hx : (t.term 0).vidX < numCols := by
    rw [h.first]
    show 0 < numCols
    decide
  have hy : (t.term 0).vidY < numRows := by
    rw [h.first]
    exact hn
  have hscroll : ¬ ScrolledBack (t.term 0) := by
    rw [h.first]
    show ¬ boundary1 + numCols * (numRows - 1) < boundary1 + numCols * n
    simp only [numCols, numRows] at hn ⊢
    omega
  have hroom : HasRoom (t.term 0) := by
    rw [h.first]
    show boundary1 ≤ boundary1 + numCols * n ∧ boundary1 + numCols * n + numCols ≤ historyEnd
    simp only [boundary1, historyEnd, numCols, numRows] at hn ⊢
    omega
  have hnewline : ¬ (lineCheck (t.term 0) ∧ (10 : UInt8) ≠ 10) := fun h => h.2 rfl
  have hchar : (10 : UInt8) ≠ 13 := by decide
  obtain ⟨t', hput, hcur, hterm⟩ := putByte_some hscroll hroom hx hy hchar video
  have hwrites := putByte_writes hput h.lines hx hy
  unfold SessTerm.put at hterm
  rw [if_neg hnewline, SessTerm.putc_of_newline (Or.inl rfl)] at hterm
  refine ⟨t', hput, hcur.trans h.displayed, hterm, ?_⟩
  rw [← h.second]
  apply hwrites.others 1 (by decide)
  rw [h.displayed]
  exact fun heq => absurd heq (by decide)

/-- The newline has room in the region of the first session. -/
theorem Lined.confined {n : Nat} (h : Lined t n) (hn : n < numRows) :
    Confined t (.output video 0 10) := by
  refine ⟨?_, fun hdisplaced => hdisplaced.2.1 h.displayed.symm⟩
  have hline : linesOf (t.term 0) 10 = 1 := if_neg fun hcr => absurd hcr.2 (by decide)
  unfold RoomFor
  rw [hline, h.first]
  show boundary1 + numCols * n + numCols * 1 ≤ boundary1 + regionSize
  simp only [numCols, numRows, regionSize] at hn ⊢
  omega

theorem lined_freshTerminals {n : Nat} (hn : n < numRows) :
    ∃ t, runActs (List.replicate n (.output video 0 10)) freshTerminals = some t ∧ Lined t n ∧
      (terminalSystem fun t a => AnySession a ∧ Confined t a).Reachable t := by
  induction n with
  | zero =>
      have hcur : freshTerminals.cur = 0 := by decide +kernel
      exact ⟨freshTerminals, rfl, ⟨hcur, rfl, rfl⟩,
        TransitionSystem.Reachable.init initial_freshTerminals⟩
  | succ n ih =>
      have hlt := Nat.lt_of_succ_lt hn
      obtain ⟨t, hrun, hlined, hreach⟩ := ih hlt
      obtain ⟨t', hact, hcur, hfirst, hsecond⟩ := hlined.newline hlt
      refine ⟨t', ?_, ⟨hcur, ?_, hsecond⟩,
        hreach.step ⟨.output video 0 10, ⟨show 0 < numSess by decide, hlined.confined hlt⟩, hact⟩⟩
      · rw [List.replicate_succ', runActs_append, hrun, Option.bind_some, runActs_cons hact]
        rfl
      · rw [hfirst, hlined.first, SessTerm.newline_of_lt hn]
        rfl

/-- A newline in the last row scrolls the first session, and the wheel scrolls it back. -/
theorem Lined.scrolledBack (h : Lined t 24) :
    ∃ t', runActs [.output video 0 10, .scrollUp] t = some t' ∧ t'.cur = 0 ∧
      t'.term 0 =
        { freshTerminals.term 0 with
          historyPtr := boundary1 + numCols * 25
          vidY := 24 } ∧
      t'.term 1 = freshTerminals.term 1 := by
  obtain ⟨t₁, hact, hcur, hfirst, hsecond⟩ := h.newline (by decide)
  have hlast : (t.term 0).vidY + 1 = numRows := by
    rw [h.first]
    rfl
  rw [SessTerm.newline_of_last hlast, h.first] at hfirst
  have hhead : (t₁.term t₁.cur).screenHead = boundary1 + numCols := by
    rw [hcur, hfirst]
    rfl
  have hboundary : (t₁.term t₁.cur).boundary = boundary1 := by
    rw [hcur, hfirst]
    rfl
  obtain ⟨t', hscroll⟩ : ∃ t', scrollUp t₁ = some t' := by
    apply scrollUp_some
    · rw [hhead, hboundary]
      simp only [numCols]
      omega
    · rw [hhead]
      simp only [numCols]
      omega
    · rw [hhead]
      simp only [boundary1, historyEnd, numCols]
      omega
  have hchanges : Changes t₁ t' (Function.update t₁.term t₁.cur
      { t₁.term t₁.cur with screenHead := (t₁.term t₁.cur).screenHead - numCols }) [] [] := by
    rcases scrollUp_changes hscroll with ⟨htop, -⟩ | ⟨-, hchanges⟩
    · rw [hhead, hboundary] at htop
      simp only [numCols] at htop
      omega
    · exact hchanges
  rw [hhead, Nat.add_sub_cancel, hcur, hfirst] at hchanges
  refine ⟨t', ?_, hchanges.cur.trans hcur, ?_, ?_⟩
  · have hup : t₁.act .scrollUp = some t' := hscroll
    rw [runActs_cons hact, runActs_cons hup]
    rfl
  · rw [hchanges.term, Function.update_self]
    rfl
  · rw [hchanges.term, Function.update_of_ne (by decide)]
    exact hsecond

/-- Output to the first session then loads the screen of the second one. -/
theorem crossed (hcur : t.cur = 1)
    (hfirst : t.term 0 =
      { freshTerminals.term 0 with
        historyPtr := boundary1 + numCols * 25
        vidY := 24 })
    (hsecond : t.term 1 = freshTerminals.term 1) (sessMem : Nat) :
    ∃ t', t.act (.output sessMem 0 97) = some t' ∧
      (t'.term 1).screenHead < (t'.term 1).boundary := by
  have hback : ScrolledBack (t.term 0) := by
    rw [hfirst]
    show boundary1 + numCols * (numRows - 1) < boundary1 + numCols * 25
    simp only [numCols, numRows]
    omega
  have hlines : Lines boundary1 (t.term 0) := by
    rw [hfirst]
    exact ⟨0, 25, rfl, rfl, by decide⟩
  have hptr : (t.term t.cur).historyPtr = boundary2 := by
    rw [hcur, hsecond]
    rfl
  obtain ⟨t₁, hload⟩ : ∃ t₁, loadScreen t = some t₁ := by
    apply loadScreen_some
    · rw [hptr]
      simp only [boundary1, boundary2, numCols, numRows]
      omega
    · rw [hptr]
      simp only [boundary2, historyEnd, numCols, numRows]
      omega
  have hreload : reload 0 t = some t₁ := by
    unfold reload
    rw [if_pos hback, hload]
  have hroom : HasRoom (t₁.term 0) := by
    rw [(loadScreen_changes hload).term, Function.update_of_ne (by rw [hcur]; decide), hfirst]
    show boundary1 ≤ boundary1 + numCols * 25 ∧ boundary1 + numCols * 25 + numCols ≤ historyEnd
    simp only [boundary1, historyEnd, numCols]
    omega
  obtain ⟨t', hputc⟩ := sessPutc_some hreload hroom sessMem 97
  have hline : ¬ (lineCheck (t.term 0) ∧ (97 : UInt8) ≠ 10) := by
    rintro ⟨hline, -⟩
    rw [hfirst] at hline
    exact absurd hline (by decide)
  have hput : t.act (.output sessMem 0 97) = some t' := by
    show putByte sessMem 0 97 t = some t'
    unfold putByte
    rw [if_neg hline, hputc]
  have hother : 0 ≠ t.cur := by
    rw [hcur]
    decide
  have hloaded := (Writes.of_changes (sessPutc_changes hputc)).displayed hother hback
  refine ⟨t', hput, ?_⟩
  rw [← hcur, hloaded]
  have hboundary : (t.term t.cur).boundary = boundary2 := by
    rw [hcur, hsecond]
    rfl
  unfold SessTerm.loaded
  simp only [hptr, hboundary]
  simp only [boundary2, numCols, numRows]
  omega

end Crossing

/-- The first session prints 25 lines and is scrolled back by one; the second one is shown,
and the first prints a character: the screen of the second begins below its region. -/
theorem regions_crossed :
    (∃ t, runActs (List.replicate 24 (.output video 0 10) ++
        [.output video 0 10, .scrollUp, .sessSwitch 1, .output (getCachedVidmem 0) 0 97])
        freshTerminals = some t ∧
      (t.term 1).screenHead < (t.term 1).boundary) ∧
      ¬ ∀ t, (terminalSystem fun _ a => AnySession a).Reachable t → InRegions t := by
  obtain ⟨t, hrun, hlined, -⟩ := lined_freshTerminals (n := 24) (by decide)
  obtain ⟨t₁, hrun₁, hcur, hfirst, hsecond⟩ := hlined.scrolledBack
  obtain ⟨t₂, hswitch, hterm, hcur₂⟩ : ∃ t₂, t₁.act (.sessSwitch 1) = some t₂ ∧
      t₂.term = t₁.term ∧ t₂.cur = 1 := by
    refine ⟨_, rfl, rfl, ?_⟩
    show (Terminal.sessSwitch t₁.console 1).1.kernel.curSessId = 1
    have hother : ¬ 1 = t₁.console.kernel.curSessId := by
      change t₁.console.kernel.curSessId = 0 at hcur
      rw [hcur]
      decide
    unfold Terminal.sessSwitch
    rw [if_neg (by decide), if_neg hother]
    exact (kernel_sessSwitch (by decide)).1
  rw [← hterm] at hfirst hsecond
  obtain ⟨t₃, hcross, hbelow⟩ := crossed hcur₂ hfirst hsecond (getCachedVidmem 0)
  have hall : runActs (List.replicate 24 (.output video 0 10) ++
      [.output video 0 10, .scrollUp, .sessSwitch 1, .output (getCachedVidmem 0) 0 97])
      freshTerminals = some t₃ := by
    have hlast : runActs [.sessSwitch 1, .output (getCachedVidmem 0) 0 97] t₁ = some t₃ := by
      show (t₁.act (.sessSwitch 1)).bind
        (fun t => (t.act (.output (getCachedVidmem 0) 0 97)).bind some) = some t₃
      rw [hswitch, Option.bind_some, hcross]
      rfl
    rw [runActs_append, hrun, Option.bind_some]
    show runActs ([.output video 0 10, .scrollUp] ++
      [.sessSwitch 1, .output (getCachedVidmem 0) 0 97]) t = some t₃
    rw [runActs_append, hrun₁, Option.bind_some]
    exact hlast
  refine ⟨⟨t₃, hall, hbelow⟩, ?_⟩
  intro h
  have hany : ∀ a ∈ List.replicate 24 (Act.output video 0 10) ++
      [.output video 0 10, .scrollUp, .sessSwitch 1, .output (getCachedVidmem 0) 0 97],
      ∀ _ : Terminals, AnySession a := by
    have hzero : 0 < numSess := by decide
    intro a ha _
    rcases List.mem_append.mp ha with ha | ha
    · rw [List.eq_of_mem_replicate ha]
      exact hzero
    · simp only [List.mem_cons, List.not_mem_nil, or_false] at ha
      rcases ha with rfl | rfl | rfl | rfl
      · exact hzero
      · trivial
      · trivial
      · exact hzero
  have hpointers := (h t₃ ⟨freshTerminals, initial_freshTerminals,
    runActs_run hany hall⟩).pointers 1 (by decide)
  exact absurd hpointers.2.1 (Nat.not_le.mpr hbelow)

/-- The first session prints 25 lines and is scrolled back by one, and the second one is
shown. -/
theorem regions_per_session_scrolled :
    ∃ t, runActs (List.replicate 24 (.output video 0 10) ++
        [.output video 0 10, .scrollUp, .sessSwitch 1]) freshTerminals = some t ∧
      InRegions t := by
  obtain ⟨t, hrun, hlined, hreach⟩ := lined_freshTerminals (n := 24) (by decide)
  obtain ⟨_, hscrolled, -⟩ := hlined.scrolledBack
  obtain ⟨t₁, hprint, hrest⟩ := Option.bind_eq_some_iff.mp hscrolled
  obtain ⟨t₂, hscroll, -⟩ := Option.bind_eq_some_iff.mp hrest
  obtain ⟨t₃, hswitch⟩ : ∃ t₃, t₂.act (.sessSwitch 1) = some t₃ := ⟨_, rfl⟩
  have hprinted := hreach.step
    ⟨.output video 0 10, ⟨show 0 < numSess by decide, hlined.confined (by decide)⟩, hprint⟩
  have hshown := (hprinted.step ⟨.scrollUp, ⟨trivial, trivial⟩, hscroll⟩).step
    ⟨.sessSwitch 1, ⟨trivial, trivial⟩, hswitch⟩
  refine ⟨t₃, ?_, (regions_per_session t₃ hshown).1⟩
  rw [runActs_append, hrun, Option.bind_some, runActs_cons hprint, runActs_cons hscroll,
    runActs_cons hswitch]
  rfl

end Terminal
end NochOS
