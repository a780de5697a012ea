import NochOS.Terminal.Output

/-!
# Terminal - what the operations change

Each operation on the terminal changes the cursor and the pointers of one session by a
function of that session alone, once the screen has been loaded where the session is
scrolled back; it adds one line to the history and writes cells of the screen, or the
cell at the cursor.

Main results:

- Definitions `SessTerm.putc`, `SessTerm.newline`, `SessTerm.back`: what happens to a session.
- Theorems `sessPutc_changes`, `newline_changes`, `backspace_changes`: what an operation
  changes.
-/

namespace NochOS
namespace Terminal

open Library Process

/-! ## What the operations change -/

/-- The pointers of a session after `enable_scroll`, where `check_scroll` calls it. -/
def SessTerm.scrolled (d : SessTerm) : SessTerm :=
  if numRows ≤ d.vidY then
    { d with
      screenHead := d.screenHead + numCols
      vidY := (d.vidY + (2 ^ 32 - 1)) % 2 ^ 32 }
  else d

/-- A session after a newline. -/
def SessTerm.newline (d : SessTerm) : SessTerm :=
  SessTerm.scrolled
    { d with
      historyPtr := d.historyPtr + numCols
      vidX := 0
      vidY := (d.vidY + 1) % 2 ^ 32 }

/-- A session after a character. -/
def SessTerm.putc (c : UInt8) (d : SessTerm) : SessTerm :=
  if c = 10 ∨ c = 13 then d.newline
  else
    SessTerm.scrolled
      { d with
        vidX := (d.vidX + 1) % 2 ^ 32 % numCols
        vidY := (d.vidY + (d.vidX + 1) % 2 ^ 32 % numCols / numCols) % 2 ^ 32 % numRows }

/-- A session after a backspace. -/
def SessTerm.back (d : SessTerm) : SessTerm :=
  if d.vidX ≠ 0 then { d with vidX := d.vidX - 1 }
  else
    { d with
      vidX := numCols - 1
      vidY := (d.vidY + (2 ^ 32 - 1)) % 2 ^ 32 }

theorem SessTerm.scrolled_of_lt {d : SessTerm} (h : d.vidY < numRows) : d.scrolled = d := by
  unfold SessTerm.scrolled
  rw [if_neg (Nat.not_le.mpr h)]

/-- A newline above the last row moves the cursor. -/
theorem SessTerm.newline_of_lt {d : SessTerm} (h : d.vidY + 1 < numRows) :
    d.newline =
      { d with
        historyPtr := d.historyPtr + numCols
        vidX := 0
        vidY := d.vidY + 1 } := by
  have hmod : (d.vidY + 1) % 2 ^ 32 = d.vidY + 1 := by
    unfold numRows at h
    omega
  unfold SessTerm.newline
  rw [hmod]
  exact scrolled_of_lt h

/-- A newline in the last row scrolls the screen. -/
theorem SessTerm.newline_of_last {d : SessTerm} (h : d.vidY + 1 = numRows) :
    d.newline =
      { d with
        historyPtr := d.historyPtr + numCols
        vidX := 0
        screenHead := d.screenHead + numCols } := by
  have hmod : (d.vidY + 1) % 2 ^ 32 = d.vidY + 1 := by
    unfold numRows at h
    omega
  have hback : (d.vidY + 1 + (2 ^ 32 - 1)) % 2 ^ 32 = d.vidY := by
    unfold numRows at h
    omega
  unfold SessTerm.newline SessTerm.scrolled
  rw [hmod]
  simp only []
  rw [if_pos (Nat.le_of_eq h.symm), hback]

/-- The row after a character other than a newline. -/
theorem SessTerm.putc_row {d : SessTerm} (hx : d.vidX < numCols) (hy : d.vidY < numRows) :
    (d.vidX + 1) % 2 ^ 32 % numCols = (d.vidX + 1) % numCols ∧
      (d.vidY + (d.vidX + 1) % 2 ^ 32 % numCols / numCols) % 2 ^ 32 % numRows = d.vidY := by
  have hmod : (d.vidX + 1) % 2 ^ 32 = d.vidX + 1 := by
    unfold numCols at hx
    omega
  have hrow : (d.vidX + 1) % numCols / numCols = 0 :=
    Nat.div_eq_of_lt (Nat.mod_lt _ (by decide))
  have hsame : (d.vidY + 0) % 2 ^ 32 % numRows = d.vidY := by
    unfold numRows at hy ⊢
    omega
  rw [hmod, hrow]
  exact ⟨rfl, hsame⟩

/-- A character other than a newline moves the cursor in its row. -/
theorem SessTerm.putc_of_char {d : SessTerm} {c : UInt8} (hc : ¬ (c = 10 ∨ c = 13))
    (hx : d.vidX < numCols) (hy : d.vidY < numRows) :
    d.putc c = { d with vidX := (d.vidX + 1) % numCols } := by
  obtain ⟨hcolumn, hrow⟩ := SessTerm.putc_row hx hy
  unfold SessTerm.putc
  rw [if_neg hc, hrow, hcolumn]
  exact scrolled_of_lt hy

/-- A carriage return counts as a newline. -/
theorem SessTerm.putc_of_newline {d : SessTerm} {c : UInt8} (hc : c = 10 ∨ c = 13) :
    d.putc c = d.newline := by
  unfold SessTerm.putc
  rw [if_pos hc]

/-- A newline moves the history pointer on by a line. -/
theorem SessTerm.historyPtr_newline (d : SessTerm) :
    d.newline.historyPtr = d.historyPtr + numCols := by
  unfold SessTerm.newline SessTerm.scrolled
  split
  · rfl
  · rfl

/-- Output leaves the cursor in a row of the screen. -/
theorem SessTerm.vidY_newline {d : SessTerm} (hy : d.vidY < numRows) :
    d.newline.vidY < numRows := by
  by_cases hlast : d.vidY + 1 < numRows
  · rw [SessTerm.newline_of_lt hlast]
    exact hlast
  · have heq : d.vidY + 1 = numRows := by omega
    rw [SessTerm.newline_of_last heq]
    exact hy

theorem SessTerm.vidY_putc {d : SessTerm} (c : UInt8) (hx : d.vidX < numCols)
    (hy : d.vidY < numRows) : (d.putc c).vidY < numRows := by
  by_cases hc : c = 10 ∨ c = 13
  · rw [SessTerm.putc_of_newline hc]
    exact SessTerm.vidY_newline hy
  · rw [SessTerm.putc_of_char hc hx hy]
    exact hy

theorem SessTerm.historyPtr_back (d : SessTerm) : d.back.historyPtr = d.historyPtr := by
  unfold SessTerm.back
  split
  · rfl
  · rfl

/-- Output leaves the keyboard's side and the boundary of a session alone. -/
theorem SessTerm.scrolled_same (d : SessTerm) :
    d.scrolled.input = d.input ∧ d.scrolled.boundary = d.boundary := by
  unfold SessTerm.scrolled
  split
  · exact ⟨rfl, rfl⟩
  · exact ⟨rfl, rfl⟩

theorem SessTerm.newline_same (d : SessTerm) :
    d.newline.input = d.input ∧ d.newline.boundary = d.boundary := by
  unfold SessTerm.newline
  exact SessTerm.scrolled_same _

theorem SessTerm.putc_same (c : UInt8) (d : SessTerm) :
    (d.putc c).input = d.input ∧ (d.putc c).boundary = d.boundary := by
  unfold SessTerm.putc
  split
  · exact d.newline_same
  · exact SessTerm.scrolled_same _

/-- A session whose screen is loaded from the end of its history. -/
def SessTerm.loaded (d : SessTerm) : SessTerm :=
  { d with screenHead := d.historyPtr - numCols * (numRows - 1) }

theorem SessTerm.loaded_loaded (d : SessTerm) : d.loaded.loaded = d.loaded := by
  simp only [SessTerm.loaded]

/-- A screen that begins where it is loaded from stays as it is. -/
theorem SessTerm.loaded_of_eq {d : SessTerm}
    (h : d.screenHead + numCols * (numRows - 1) = d.historyPtr) : d.loaded = d := by
  have hhead : d.historyPtr - numCols * (numRows - 1) = d.screenHead := by
    rw [← h, Nat.add_sub_cancel]
  unfold SessTerm.loaded
  rw [hhead]

/-- The sessions after the check with which output to a session begins. -/
def reloaded (sessId : Nat) (t : Terminals) : Nat → SessTerm :=
  if ScrolledBack (t.term sessId) then Function.update t.term t.cur (t.term t.cur).loaded
  else t.term

/-- The check changes only where the screen of the displayed session begins. -/
theorem reloaded_eq (sessId s : Nat) (t : Terminals) :
    reloaded sessId t s = { t.term s with screenHead := (reloaded sessId t s).screenHead } := by
  unfold reloaded
  split
  · by_cases hs : s = t.cur
    · rw [hs, Function.update_self]
      rfl
    · rw [Function.update_of_ne hs]
  · rfl

/-- It leaves a session that is not displayed alone. -/
theorem reloaded_of_ne {sessId : Nat} {t : Terminals} (hs : sessId ≠ t.cur) :
    reloaded sessId t sessId = t.term sessId := by
  unfold reloaded
  split
  · rw [Function.update_of_ne hs]
  · rfl

/-- The addresses of a line in the history of a session. -/
def historyLine (sessId ptr : Nat) : List (Nat × Nat) :=
  (List.range numCols).map fun i => (sessId, ptr + i)

/-- The terminal changes to these sessions, with these lines in the history.  The cells
that are written are on the screen or among `cells`. -/
structure Changes (t t' : Terminals) (term : Nat → SessTerm) (cells : List Nat)
    (logged : List (Nat × Nat)) : Prop where
  kernel : t'.console.kernel = t.console.kernel
  attrib : t'.attrib = t.attrib
  term : t'.term = term
  cells : ∃ new, t'.cells = t.cells ++ new ∧ ∀ i ∈ new, i < numRows * numCols ∨ i ∈ cells
  logged : t'.logged = t.logged ++ logged

namespace Changes

variable {t t' t'' : Terminals} {term term' : Nat → SessTerm} {cells cells' : List Nat}
  {logged logged' : List (Nat × Nat)}

theorem cur (h : Changes t t' term cells logged) : t'.cur = t.cur := by
  unfold Terminals.cur
  rw [h.kernel]

/-- The cells that are written are on the screen if the ones outside of it are. -/
theorem cells_lt (h : Changes t t' term cells logged)
    (hcells : ∀ i ∈ cells, i < numRows * numCols) :
    ∃ new, t'.cells = t.cells ++ new ∧ ∀ i ∈ new, i < numRows * numCols := by
  obtain ⟨new, heq, hnew⟩ := h.cells
  exact ⟨new, heq, fun i hi => (hnew i hi).elim id (hcells i)⟩

/-- What two operations change one after the other. -/
theorem trans (h : Changes t t' term cells logged) (h' : Changes t' t'' term' cells' logged') :
    Changes t t'' term' (cells ++ cells') (logged ++ logged') where
  kernel := h'.kernel.trans h.kernel
  attrib := h'.attrib.trans h.attrib
  term := h'.term
  cells := by
    obtain ⟨new, heq, hnew⟩ := h.cells
    obtain ⟨new', heq', hnew'⟩ := h'.cells
    refine ⟨new ++ new', by rw [heq', heq, List.append_assoc], ?_⟩
    intro i hi
    rcases List.mem_append.mp hi with hi | hi
    · exact (hnew i hi).imp_right fun hi => List.mem_append_left _ hi
    · exact (hnew' i hi).imp_right fun hi => List.mem_append_right _ hi
  logged := by rw [h'.logged, h.logged, List.append_assoc]

theorem refl (t : Terminals) : Changes t t t.term [] [] :=
  ⟨rfl, rfl, rfl, ⟨[], (List.append_nil _).symm, fun _ hi => absurd hi List.not_mem_nil⟩,
    (List.append_nil _).symm⟩

/-- A state of a session is put in afterwards. -/
theorem setTerm (h : Changes t t' term cells logged) (sessId : Nat) (d : SessTerm) :
    Changes t (t'.setTerm sessId d) (Function.update term sessId d) cells logged :=
  ⟨h.kernel, h.attrib, by rw [← h.term]; rfl, h.cells, h.logged⟩

/-- A cell is written afterwards. -/
theorem store_one (h : Changes t t' term [] logged) (base i : Nat) (c attr : Buf → Nat → UInt8) :
    Changes t (t'.store base [i] c attr) term [i] logged := by
  obtain ⟨new, heq, hnew⟩ := h.cells
  refine ⟨h.kernel, h.attrib, h.term, ⟨new ++ [i], ?_, ?_⟩, h.logged⟩
  · show t'.cells ++ [i] = t.cells ++ (new ++ [i])
    rw [heq, List.append_assoc]
  · intro j hj
    rcases List.mem_append.mp hj with hj | hj
    · exact Or.inl ((hnew j hj).resolve_right List.not_mem_nil)
    · exact Or.inr hj

/-- Cells of the screen are written afterwards. -/
theorem store_screen (h : Changes t t' term cells logged) (base : Nat) {is : List Nat}
    (c attr : Buf → Nat → UInt8) (his : ∀ i ∈ is, i < numRows * numCols) :
    Changes t (t'.store base is c attr) term cells logged := by
  obtain ⟨new, heq, hnew⟩ := h.cells
  refine ⟨h.kernel, h.attrib, h.term, ⟨new ++ is, ?_, ?_⟩, h.logged⟩
  · show t'.cells ++ is = t.cells ++ (new ++ is)
    rw [heq, List.append_assoc]
  · intro j hj
    rcases List.mem_append.mp hj with hj | hj
    · exact hnew j hj
    · exact Or.inl (his j hj)

/-- One more cell may be written. -/
theorem weaken (h : Changes t t' term [] logged) : Changes t t' term cells logged := by
  obtain ⟨new, heq, hnew⟩ := h.cells
  refine ⟨h.kernel, h.attrib, h.term, ⟨new, heq, ?_⟩, h.logged⟩
  intro i hi
  exact Or.inl ((hnew i hi).resolve_right List.not_mem_nil)

theorem hideMouse (h : Changes t t' term cells logged) :
    Changes t (Terminal.hideMouse t') term cells logged :=
  ⟨h.kernel, h.attrib, h.term, h.cells, h.logged⟩

theorem showMouse (h : Changes t t' term cells logged) :
    Changes t (Terminal.showMouse t') term cells logged :=
  ⟨h.kernel, h.attrib, h.term, h.cells, h.logged⟩

theorem of_term (h : Changes t t' term cells logged) (heq : term = term') :
    Changes t t' term' cells logged := by
  rw [← heq]
  exact h

end Changes

section Effects

variable {t t' : Terminals} {sessMem sessId : Nat}

theorem writeHistory_changes {y : Nat} (h : writeHistory sessMem y sessId t = some t') :
    Changes t t' t.term [] (historyLine sessId (t.term sessId).historyPtr) := by
  unfold writeHistory at h
  simp only [] at h
  split at h
  · rw [← Option.some.inj h]
    exact ⟨rfl, rfl, rfl, ⟨[], (List.append_nil _).symm, fun _ hi => absurd hi List.not_mem_nil⟩,
      rfl⟩
  · contradiction

theorem loadScreen_changes (h : loadScreen t = some t') :
    Changes t t' (Function.update t.term t.cur (t.term t.cur).loaded) [] [] := by
  unfold loadScreen at h
  simp only [] at h
  split at h
  · rw [← Option.some.inj h]
    have hset := ((Changes.refl t).setTerm t.cur (t.term t.cur).loaded).hideMouse
    exact (hset.store_screen _ _ _ (fun i hi => List.mem_range.mp hi)).showMouse
  · contradiction

theorem reload_changes (h : reload sessId t = some t') :
    Changes t t' (reloaded sessId t) [] [] := by
  unfold reload at h
  unfold reloaded
  split at h
  · rw [if_pos ‹_›]
    exact loadScreen_changes h
  · rw [if_neg ‹_›, ← Option.some.inj h]
    exact Changes.refl t

/-- The cells above the last row. -/
theorem lt_of_mem_upperRows {i : Nat} (hi : i ∈ List.range ((numRows - 1) * numCols)) :
    i < numRows * numCols := by
  have hlt := List.mem_range.mp hi
  unfold numRows numCols at hlt ⊢
  omega

/-- The cells of the last row. -/
theorem lt_of_mem_lastRow {i : Nat} (hi : i ∈ List.range' ((numRows - 1) * numCols) numCols) :
    i < numRows * numCols := by
  have hlt := List.mem_range'_1.mp hi
  unfold numRows numCols at hlt ⊢
  omega

/-- The cells below the first row, from the last one upwards. -/
theorem lt_of_mem_lowerRows {i : Nat}
    (hi : i ∈ (List.range' numCols ((numRows - 1) * numCols)).reverse) :
    i < numRows * numCols := by
  have hlt := List.mem_range'_1.mp (List.mem_reverse.mp hi)
  unfold numRows numCols at hlt ⊢
  omega

/-- The cells of the first row. -/
theorem lt_of_mem_firstRow {i : Nat} (hi : i ∈ List.range numCols) : i < numRows * numCols := by
  have hlt := List.mem_range.mp hi
  unfold numRows numCols at hlt ⊢
  omega

theorem enableScroll_changes (t : Terminals) (sessMem sessId : Nat) :
    Changes t (enableScroll sessMem sessId t) (Function.update t.term sessId
      { t.term sessId with
        screenHead := (t.term sessId).screenHead + numCols
        vidY := ((t.term sessId).vidY + (2 ^ 32 - 1)) % 2 ^ 32 }) [] [] := by
  unfold enableScroll
  refine Changes.of_term (Changes.showMouse (Changes.store_screen (Changes.setTerm
    (Changes.store_screen (Changes.setTerm (Changes.hideMouse (Changes.refl t)) _ _) _ _ _
      fun _ => lt_of_mem_upperRows) _ _) _ _ _ fun _ => lt_of_mem_lastRow)) ?_
  simp only [Terminals.store, Terminals.setMem, Terminals.setTerm, hideMouse, Function.update_idem,
    Function.update_self]

theorem checkScroll_changes (t : Terminals) (sessMem sessId : Nat) :
    Changes t (checkScroll sessMem sessId t)
      (Function.update t.term sessId (t.term sessId).scrolled) [] [] := by
  unfold checkScroll SessTerm.scrolled
  split
  · exact enableScroll_changes t sessMem sessId
  · rw [Function.update_eq_self]
    exact Changes.refl t

variable {term : Nat → SessTerm} {cells : List Nat} {logged : List (Nat × Nat)}

/-- The screen is scrolled afterwards, where the cursor has left it. -/
theorem Changes.checkScroll (h : Changes t t' term cells logged) (sessMem sessId : Nat) :
    Changes t (Terminal.checkScroll sessMem sessId t')
      (Function.update term sessId (term sessId).scrolled) cells logged := by
  have hscroll := h.trans (checkScroll_changes t' sessMem sessId)
  rw [List.append_nil, List.append_nil, h.term] at hscroll
  exact hscroll

/-- A line is put into the history afterwards. -/
theorem Changes.writeHistory (h : Changes t t' term cells []) {y : Nat} {t'' : Terminals}
    (hwrite : writeHistory sessMem y sessId t' = some t'') :
    Changes t t'' term cells (historyLine sessId (term sessId).historyPtr) := by
  have hline := h.trans (writeHistory_changes hwrite)
  rw [List.append_nil, List.nil_append, h.term] at hline
  exact hline

/-- A newline, after the check with which output begins. -/
theorem Changes.lineFeed (h : Changes t t' term cells []) {y : Nat} {t'' : Terminals}
    (hwrite : Terminal.writeHistory sessMem y sessId t' = some t'') :
    Changes t (Terminal.checkScroll sessMem sessId (nextLine sessId (updateHistoryptr sessId t'')))
      (Function.update term sessId (term sessId).newline) cells
      (historyLine sessId (term sessId).historyPtr) := by
  have hline := h.writeHistory hwrite
  have hfeed : Changes t (nextLine sessId (updateHistoryptr sessId t''))
      (Function.update term sessId
        { term sessId with
          historyPtr := (term sessId).historyPtr + numCols
          vidX := 0
          vidY := ((term sessId).vidY + 1) % 2 ^ 32 })
      cells (historyLine sessId (term sessId).historyPtr) := by
    refine Changes.of_term (Changes.setTerm (Changes.setTerm hline _ _) _ _) ?_
    simp only [updateHistoryptr, Terminals.setTerm, hline.term, Function.update_idem,
      Function.update_self]
  have hscroll := hfeed.checkScroll sessMem sessId
  rw [Function.update_idem, Function.update_self] at hscroll
  exact hscroll

theorem newline_changes (h : newline sessMem sessId t = some t') :
    Changes t t' (Function.update (reloaded sessId t) sessId (reloaded sessId t sessId).newline) []
      (historyLine sessId (reloaded sessId t sessId).historyPtr) := by
  unfold newline at h
  obtain ⟨t₁, hreload, h⟩ := Option.bind_eq_some_iff.mp h
  obtain ⟨t₂, hwrite, h⟩ := Option.bind_eq_some_iff.mp h
  rw [← Option.some.inj h]
  exact (reload_changes hreload).lineFeed hwrite

theorem sessPutc_changes {c : UInt8} (h : sessPutc sessMem c sessId t = some t') :
    Changes t t' (Function.update (reloaded sessId t) sessId ((reloaded sessId t sessId).putc c))
      [cursorCell (reloaded sessId t sessId)]
      (historyLine sessId (reloaded sessId t sessId).historyPtr) := by
  unfold sessPutc at h
  obtain ⟨t₁, hreload, h⟩ := Option.bind_eq_some_iff.mp h
  have hchanges := reload_changes hreload
  unfold SessTerm.putc
  by_cases hc : c = 10 ∨ c = 13
  · rw [if_pos hc] at h ⊢
    obtain ⟨t₂, hwrite, h⟩ := Option.bind_eq_some_iff.mp h
    rw [← Option.some.inj h]
    exact (hchanges.lineFeed hwrite).weaken
  · rw [if_neg hc] at h ⊢
    obtain ⟨t₂, hwrite, h⟩ := Option.bind_eq_some_iff.mp h
    rw [← Option.some.inj h]
    have hput := ((hchanges.store_one sessMem (cursorCell (t₁.term sessId)) (fun _ _ => c)
      (fun _ _ => t₁.attrib)).setTerm sessId _).writeHistory hwrite
    have hscroll := hput.checkScroll sessMem sessId
    rw [Function.update_idem, Function.update_self] at hscroll
    rw [hchanges.term] at hscroll
    exact hscroll

theorem backspace_changes (h : backspace sessMem sessId t = some t') :
    Changes t t' (Function.update (reloaded sessId t) sessId (reloaded sessId t sessId).back)
      [cursorCell (reloaded sessId t sessId).back]
      (historyLine sessId (reloaded sessId t sessId).historyPtr) := by
  unfold backspace at h
  obtain ⟨t₁, hreload, h⟩ := Option.bind_eq_some_iff.mp h
  have hchanges := reload_changes hreload
  have hback := ((hchanges.setTerm sessId (t₁.term sessId).back).store_one sessMem
    (cursorCell (t₁.term sessId).back) (fun _ _ => 32) (fun _ _ => t₁.attrib)).writeHistory h
  rw [hchanges.term] at hback
  rw [Function.update_self, SessTerm.historyPtr_back] at hback
  exact hback

/-- A session whose screen is cleared. -/
def SessTerm.cleared (d : SessTerm) : SessTerm :=
  { d with
    vidX := 0
    vidY := 0
    screenHead := d.boundary
    historyPtr := d.boundary }

theorem clearScreen_changes (t : Terminals) (sessMem : Nat) :
    Changes t (clearScreen sessMem t.cur t)
      (Function.update t.term t.cur (t.term t.cur).cleared) [] [] := by
  have hscreen : ∀ i ∈ List.range (numRows * numCols), i < numRows * numCols :=
    fun i hi => List.mem_range.mp hi
  unfold clearScreen clear
  refine Changes.of_term (Changes.setTerm (Changes.store_screen (Changes.store_screen
    (Changes.setTerm (Changes.refl t) _ _) _ _ _ hscreen) _ _ _ hscreen) _ _) ?_
  simp only [Terminals.store, Terminals.setMem, Terminals.setTerm, Terminals.cur,
    Function.update_idem, Function.update_self, SessTerm.cleared]

/-- The wheel moves the place in the history where the displayed screen begins. -/
theorem scrollUp_changes (h : scrollUp t = some t') :
    ((t.term t.cur).screenHead = (t.term t.cur).boundary ∧ t' = t) ∨
      ((t.term t.cur).screenHead ≠ (t.term t.cur).boundary ∧
        Changes t t' (Function.update t.term t.cur
          { t.term t.cur with screenHead := (t.term t.cur).screenHead - numCols }) [] []) := by
  unfold scrollUp at h
  simp only [] at h
  by_cases htop : (t.term t.cur).screenHead = (t.term t.cur).boundary
  · rw [if_pos htop] at h
    exact Or.inl ⟨htop, (Option.some.inj h).symm⟩
  · rw [if_neg htop] at h
    split at h
    · refine Or.inr ⟨htop, ?_⟩
      rw [← Option.some.inj h]
      have hset := ((Changes.refl t).setTerm t.cur
        { t.term t.cur with screenHead := (t.term t.cur).screenHead - numCols }).hideMouse
      exact ((hset.store_screen _ _ _ fun _ => lt_of_mem_lowerRows).store_screen _ _ _
        fun _ => lt_of_mem_firstRow).showMouse
    · cases h

theorem scrollDown_changes (h : scrollDown t = some t') :
    (¬ ScrolledBack (t.term t.cur) ∧ t' = t) ∨
      (ScrolledBack (t.term t.cur) ∧
        Changes t t' (Function.update t.term t.cur
          { t.term t.cur with screenHead := (t.term t.cur).screenHead + numCols }) [] []) := by
  unfold scrollDown at h
  simp only [] at h
  by_cases hend : (t.term t.cur).historyPtr ≤
      (t.term t.cur).screenHead + numCols * (numRows - 1)
  · rw [if_pos hend] at h
    exact Or.inl ⟨Nat.not_lt.mpr hend, (Option.some.inj h).symm⟩
  · rw [if_neg hend] at h
    split at h
    · refine Or.inr ⟨Nat.lt_of_not_le hend, ?_⟩
      rw [← Option.some.inj h]
      have hset := ((Changes.refl t).setTerm t.cur
        { t.term t.cur with screenHead := (t.term t.cur).screenHead + numCols }).hideMouse
      exact ((hset.store_screen _ _ _ fun _ => lt_of_mem_upperRows).store_screen _ _ _
        fun _ => lt_of_mem_lastRow).showMouse
    · cases h

/-- Messages on the screen change nothing but cells. -/
theorem printed_changes (h : Changes t t' term cells logged) {printed : List (Nat × UInt8)}
    (hprinted : ∀ p ∈ printed, p.1 < numRows * numCols) :
    Changes t
      (printed.foldl (fun t p => t.store video [p.1] (fun _ _ => p.2) fun _ _ => t.attrib) t')
      term cells logged := by
  induction printed generalizing t' with
  | nil => exact h
  | cons p printed ih =>
      rw [List.foldl_cons]
      apply ih
      · apply h.store_screen
        intro i hi
        rw [List.mem_singleton.mp hi]
        exact hprinted p List.mem_cons_self
      · exact fun q hq => hprinted q (List.mem_cons_of_mem p hq)

theorem panicScreen_changes (t : Terminals) {printed : List (Nat × UInt8)}
    (hprinted : ∀ p ∈ printed, p.1 < numRows * numCols) :
    Changes t (panicScreen printed t)
      (Function.update t.term t.cur (t.term t.cur).cleared) [] [] :=
  printed_changes (clearScreen_changes t video) hprinted

/-! ## Operations that get through -/

theorem Terminals.term_store (t : Terminals) (base : Nat) (is : List Nat)
    (c attr : Buf → Nat → UInt8) : (t.store base is c attr).term = t.term := rfl

/-- The history has room for a line of a session. -/
def HasRoom (d : SessTerm) : Prop :=
  boundary1 ≤ d.historyPtr ∧ d.historyPtr + numCols ≤ historyEnd

theorem writeHistory_some (h : HasRoom (t.term sessId)) (sessMem y : Nat) :
    ∃ t', writeHistory sessMem y sessId t = some t' := by
  unfold writeHistory
  exact ⟨_, if_pos h⟩

theorem reload_some (h : ¬ ScrolledBack (t.term sessId)) : reload sessId t = some t := by
  unfold reload
  rw [if_neg h]

theorem reloaded_of_not (h : ¬ ScrolledBack (t.term sessId)) : reloaded sessId t = t.term := by
  unfold reloaded
  rw [if_neg h]

/-- A screen that is loaded from inside the history. -/
theorem loadScreen_some
    (hlow : boundary1 ≤ (t.term t.cur).historyPtr - numCols * (numRows - 1))
    (hhigh : (t.term t.cur).historyPtr - numCols * (numRows - 1) + numRows * numCols ≤
      historyEnd) : ∃ t', loadScreen t = some t' := by
  unfold loadScreen
  exact ⟨_, if_pos ⟨hlow, hhigh⟩⟩

/-- The wheel reads a line from inside the history. -/
theorem scrollUp_some (htop : (t.term t.cur).screenHead ≠ (t.term t.cur).boundary)
    (hlow : boundary1 ≤ (t.term t.cur).screenHead - numCols)
    (hhigh : (t.term t.cur).screenHead - numCols + numCols ≤ historyEnd) :
    ∃ t', scrollUp t = some t' := by
  unfold scrollUp
  rw [if_neg htop]
  exact ⟨_, if_pos ⟨hlow, hhigh⟩⟩

/-- A state that is put in leaves room in the history. -/
theorem hasRoom_setTerm {d : SessTerm} (hroom : HasRoom (t.term sessId))
    (hptr : d.historyPtr = (t.term sessId).historyPtr) (x : Terminals) :
    HasRoom ((x.setTerm sessId d).term sessId) := by
  have hterm : (x.setTerm sessId d).term sessId = d := Function.update_self ..
  unfold HasRoom
  rw [hterm, hptr]
  exact hroom

/-- What follows a line in the history is done. -/
theorem writeHistory_bind_some (h : HasRoom (t.term sessId)) (sessMem y : Nat)
    (f : Terminals → Terminals) :
    ∃ t', ((writeHistory sessMem y sessId t).bind fun t => some (f t)) = some t' := by
  obtain ⟨t', hwrite⟩ := writeHistory_some h sessMem y
  exact ⟨f t', Option.bind_eq_some_iff.mpr ⟨t', hwrite, rfl⟩⟩

/-- A character reaches a screen that has been loaded if it had to be. -/
theorem sessPutc_some {t₁ : Terminals} (hreload : reload sessId t = some t₁)
    (hroom : HasRoom (t₁.term sessId)) (sessMem : Nat) (c : UInt8) :
    ∃ t', sessPutc sessMem c sessId t = some t' := by
  unfold sessPutc
  rw [hreload]
  simp only [Option.bind_eq_bind, Option.bind_some]
  split
  · exact writeHistory_bind_some hroom sessMem _ _
  · apply writeHistory_bind_some
    apply hasRoom_setTerm hroom
    rfl

theorem newline_some (h : ¬ ScrolledBack (t.term sessId)) (hroom : HasRoom (t.term sessId))
    (sessMem : Nat) : ∃ t', newline sessMem sessId t = some t' := by
  unfold newline
  rw [reload_some h]
  simp only [Option.bind_eq_bind, Option.bind_some]
  exact writeHistory_bind_some hroom sessMem _ _

theorem backspace_some (h : ¬ ScrolledBack (t.term sessId)) (hroom : HasRoom (t.term sessId))
    (sessMem : Nat) : ∃ t', backspace sessMem sessId t = some t' := by
  unfold backspace
  rw [reload_some h]
  simp only [Option.bind_eq_bind, Option.bind_some]
  apply writeHistory_some
  rw [Terminals.term_store]
  exact hasRoom_setTerm hroom (t.term sessId).historyPtr_back t

/-! ## Keys -/

/-- The keyboard's side of a session is put in afterwards. -/
theorem Changes.setInput (h : Changes t t' term cells logged) (sessId : Nat) (i : Input) :
    Changes t (Terminal.setInput sessId i t')
      (Function.update term sessId { term sessId with input := i }) cells logged := by
  refine Changes.of_term (Changes.setTerm h _ _) ?_
  rw [h.term]

theorem term_setInput (t : Terminals) (sessId : Nat) (i : Input) :
    (setInput sessId i t).term sessId = { t.term sessId with input := i } :=
  Function.update_self ..

/-- A key stands for a character and the buffer has room for it. -/
structure Prints (t : Terminals) (info : KeyInfo) (keycode : Nat) : Prop where
  clear : ¬ (info.ctrlEn = true ∧ keyOf info keycode = 108)
  kill : ¬ (info.ctrlEn = true ∧ keyOf info keycode = 99)
  char : keyOf info keycode ≠ 0
  room : (t.term t.cur).input.kbdBufIdx < keyBufSize - 1

/-- Such a key is typed and printed like output. -/
theorem Prints.printKey {info : KeyInfo} {keycode : Nat} (h : Prints t info keycode) :
    printKey info keycode t = putByte video t.cur (keyOf info keycode)
      (setInput t.cur (printRegularKey (t.term t.cur).input info keycode) t) := by
  have hnewline := keyOf_ne_newlineChar info keycode
  have hcolumn : ((setInput t.cur (printRegularKey (t.term t.cur).input info keycode)
      t).term t.cur).vidX = (t.term t.cur).vidX := by
    rw [term_setInput]
  have hline : (lineCheck ((setInput t.cur (printRegularKey (t.term t.cur).input info keycode)
      t).term t.cur) ∧ keyOf info keycode ≠ 10) ↔ lineCheck (t.term t.cur) := by
    unfold lineCheck
    rw [hcolumn]
    exact and_iff_left hnewline
  unfold Terminal.printKey putByte
  rw [if_neg h.clear, if_neg h.kill, if_neg h.char, if_pos h.room]
  exact (if_congr hline rfl rfl).symm

/-- A key clears the screen, does nothing, or is typed and printed like output. -/
theorem printKey_cases {info : KeyInfo} {keycode : Nat} (h : printKey info keycode t = some t') :
    (¬ Prints t info keycode ∧
        t' = setInput t.cur (printRegularKey (t.term t.cur).input info keycode)
          (clearScreen video t.cur t) ∧
        (printRegularKey (t.term t.cur).input info keycode).kbdBufIdx = 0) ∨
      (¬ Prints t info keycode ∧ t' = t) ∨
      (Prints t info keycode ∧
        (printRegularKey (t.term t.cur).input info keycode).kbdBufIdx =
          (t.term t.cur).input.kbdBufIdx + 1 ∧
        putByte video t.cur (keyOf info keycode)
          (setInput t.cur (printRegularKey (t.term t.cur).input info keycode) t) = some t') := by
  by_cases hclear : info.ctrlEn = true ∧ keyOf info keycode = 108
  · unfold printKey at h
    rw [if_pos hclear] at h
    refine Or.inl ⟨fun hp => hp.clear hclear, (Option.some.inj h).symm, ?_⟩
    simp only [printRegularKey, if_pos hclear]
  by_cases hkill : info.ctrlEn = true ∧ keyOf info keycode = 99
  · unfold printKey at h
    rw [if_neg hclear, if_pos hkill] at h
    exact Or.inr (Or.inl ⟨fun hp => hp.kill hkill, (Option.some.inj h).symm⟩)
  by_cases hnull : keyOf info keycode = 0
  · unfold printKey at h
    rw [if_neg hclear, if_neg hkill, if_pos hnull] at h
    exact Or.inr (Or.inl ⟨fun hp => hp.char hnull, (Option.some.inj h).symm⟩)
  by_cases hroom : (t.term t.cur).input.kbdBufIdx < keyBufSize - 1
  · have hprints : Prints t info keycode := ⟨hclear, hkill, hnull, hroom⟩
    rw [hprints.printKey] at h
    refine Or.inr (Or.inr ⟨hprints, ?_, h⟩)
    simp only [printRegularKey, if_neg hclear, if_neg hkill, if_neg hnull, if_pos hroom]
  · unfold printKey at h
    rw [if_neg hclear, if_neg hkill, if_neg hnull, if_neg hroom] at h
    exact Or.inr (Or.inl ⟨fun hp => hroom hp.room, (Option.some.inj h).symm⟩)

/-- A session after one round of the loop of `terminal_fwrite`. -/
def SessTerm.put (c : UInt8) (d : SessTerm) : SessTerm :=
  if lineCheck d ∧ c ≠ 10 then (d.putc c).newline else d.putc c

/-- A character before the last column moves the cursor to the next cell. -/
theorem SessTerm.put_of_lt {c : UInt8} {d : SessTerm} (hc : ¬ (c = 10 ∨ c = 13))
    (hx : d.vidX + 1 < numCols) (hy : d.vidY < numRows) :
    d.put c = { d with vidX := d.vidX + 1 } := by
  have hline : ¬ (lineCheck d ∧ c ≠ 10) := by
    rintro ⟨hline, -⟩
    unfold lineCheck at hline
    omega
  unfold SessTerm.put
  rw [if_neg hline, SessTerm.putc_of_char hc (Nat.lt_of_succ_lt hx) hy, Nat.mod_eq_of_lt hx]

/-- A character in the last column moves the cursor to the next row. -/
theorem SessTerm.put_of_last {c : UInt8} {d : SessTerm} (hc : ¬ (c = 10 ∨ c = 13))
    (hx : d.vidX + 1 = numCols) (hy : d.vidY + 1 < numRows) :
    d.put c =
      { d with
        historyPtr := d.historyPtr + numCols
        vidX := 0
        vidY := d.vidY + 1 } := by
  have hline : lineCheck d ∧ c ≠ 10 := ⟨Nat.eq_sub_of_add_eq hx, fun h => hc (Or.inl h)⟩
  unfold SessTerm.put
  rw [if_pos hline, SessTerm.putc_of_char hc (Nat.lt_of_succ_le (Nat.le_of_eq hx))
    (Nat.lt_of_succ_lt hy)]
  exact SessTerm.newline_of_lt hy

/-- A character other than a carriage return reaches a screen that is not scrolled back. -/
theorem putByte_some {c : UInt8} (h : ¬ ScrolledBack (t.term sessId))
    (hroom : HasRoom (t.term sessId)) (hx : (t.term sessId).vidX < numCols)
    (hy : (t.term sessId).vidY < numRows) (hc : c ≠ 13) (sessMem : Nat) :
    ∃ t', putByte sessMem sessId c t = some t' ∧ t'.cur = t.cur ∧
      t'.term sessId = (t.term sessId).put c := by
  obtain ⟨t₁, hputc⟩ := sessPutc_some (reload_some h) hroom sessMem c
  have hfirst := sessPutc_changes hputc
  rw [reloaded_of_not h] at hfirst
  have hterm : t₁.term sessId = (t.term sessId).putc c := by
    rw [hfirst.term, Function.update_self]
  unfold putByte SessTerm.put
  by_cases hline : lineCheck (t.term sessId) ∧ c ≠ 10
  · have hchar : ¬ (c = 10 ∨ c = 13) := not_or.mpr ⟨hline.2, hc⟩
    have hmoved := SessTerm.putc_of_char hchar hx hy
    have hscroll : ¬ ScrolledBack (t₁.term sessId) := by
      rw [hterm, hmoved]
      exact h
    have hroom' : HasRoom (t₁.term sessId) := by
      rw [hterm, hmoved]
      exact hroom
    obtain ⟨t', hnewline⟩ := newline_some hscroll hroom' sessMem
    have hsecond := newline_changes hnewline
    rw [reloaded_of_not hscroll] at hsecond
    rw [if_pos hline, if_pos hline, hputc]
    refine ⟨t', hnewline, hsecond.cur.trans hfirst.cur, ?_⟩
    rw [hsecond.term, Function.update_self, hterm]
  · rw [if_neg hline, if_neg hline]
    exact ⟨t₁, hputc, hfirst.cur, hterm⟩

/-- A key without control that stands for a character is typed while the buffer has
room. -/
theorem printKey_some {info : KeyInfo} {keycode : Nat} (hctrl : info.ctrlEn = false)
    (hnull : keyOf info keycode ≠ 0)
    (hidx : (t.term t.cur).input.kbdBufIdx < keyBufSize - 1)
    (h : ¬ ScrolledBack (t.term t.cur)) (hroom : HasRoom (t.term t.cur))
    (hx : (t.term t.cur).vidX < numCols) (hy : (t.term t.cur).vidY < numRows) :
    ∃ t', printKey info keycode t = some t' ∧ t'.cur = t.cur ∧
      t'.term t.cur = SessTerm.put (keyOf info keycode)
        { t.term t.cur with input := printRegularKey (t.term t.cur).input info keycode } := by
  have hcontrol : ∀ key : UInt8, ¬ (info.ctrlEn = true ∧ keyOf info keycode = key) := by
    intro key hkey
    rw [hctrl] at hkey
    exact absurd hkey.1 (by decide)
  have hprints : Prints t info keycode := ⟨hcontrol 108, hcontrol 99, hnull, hidx⟩
  rw [hprints.printKey]
  have hterm := term_setInput t t.cur (printRegularKey (t.term t.cur).input info keycode)
  have hcur : (setInput t.cur (printRegularKey (t.term t.cur).input info keycode) t).cur =
      t.cur := rfl
  generalize setInput t.cur (printRegularKey (t.term t.cur).input info keycode) t = typed
    at hterm hcur
  have hput : ∃ t', putByte video t.cur (keyOf info keycode) typed = some t' ∧
      t'.cur = typed.cur ∧
      t'.term t.cur = SessTerm.put (keyOf info keycode) (typed.term t.cur) := by
    apply putByte_some _ _ _ _ (keyOf_ne_return info keycode)
    all_goals rw [hterm]
    · exact h
    · exact hroom
    · exact hx
    · exact hy
  rw [hcur, hterm] at hput
  exact hput

/-- The backspace key does nothing, or takes a typed character back. -/
theorem deleteKey_cases (h : deleteKey t = some t') :
    ((t.term t.cur).input.kbdBufIdx = 0 ∧ t' = t) ∨
      ((t.term t.cur).input.kbdBufIdx ≠ 0 ∧ ∃ t₁, backspace video t.cur t = some t₁ ∧
        t' = setInput t.cur (deleteKeystroke (t.term t.cur).input) t₁ ∧
        (deleteKeystroke (t.term t.cur).input).kbdBufIdx =
          (t.term t.cur).input.kbdBufIdx - 1) := by
  unfold deleteKey at h
  by_cases hempty : (t.term t.cur).input.kbdBufIdx = 0
  · rw [if_pos hempty] at h
    exact Or.inl ⟨hempty, (Option.some.inj h).symm⟩
  · rw [if_neg hempty] at h
    obtain ⟨t₁, hback, heq⟩ := Option.map_eq_some_iff.mp h
    refine Or.inr ⟨hempty, t₁, hback, heq.symm, ?_⟩
    unfold deleteKeystroke
    rw [if_neg hempty]

/-- The enter key forgets what was typed. -/
theorem kbdBufIdx_keyboardEnter {i : Input} (h : i.kbdBufIdx < keyBufSize) :
    (keyboardEnter i).kbdBufIdx = 0 := by
  unfold keyboardEnter setNewline
  rw [if_pos h]

end Effects

end Terminal
end NochOS
