import NochOS.Terminal.Cursor

/-!
# Terminal - the history of the displayed session

The rows of the screen above the cursor stand in the history too, and the history pointer
is where the row of the cursor goes.  Output keeps the two in step: a newline moves both
on, and a scroll moves both the screen and its place in the history.  A backspace in the
first column goes back a row on the screen, but not in the history.

Main results:

- Theorems `rows_writeHistory`, `rows_enableScroll`: rows in the history and on the screen.
- Theorem `mirrored_act_iff`: the acts that keep history and screen in step.
- Theorem `history_mirrors`: the runs of such acts.
- Theorem `history_behind`: a backspace over the end of a line.
-/

namespace NochOS
namespace Terminal

open Library Process

/-! ## Memory -/

section Memory

variable {mem mem' : Buf}

theorem cellAddr_video {i : Nat} (hi : i < numRows * numCols) :
    cellAddr video i = video + i * 2 := by
  unfold cellAddr video
  simp only [numRows, numCols] at hi
  omega

/-- The history is apart from the screen. -/
theorem cellAddr_lt {i : Nat} (hi : i < numRows * numCols) : cellAddr video i + 1 < boundary1 := by
  rw [cellAddr_video hi]
  unfold video boundary1
  simp only [numRows, numCols] at hi
  omega

/-- A cell of the screen is written. -/
theorem storeCell_char {i j : Nat} (hi : i < numRows * numCols) (hj : j < numRows * numCols)
    (c attr : UInt8) :
    storeCell mem video i c attr (cellAddr video j) =
      if j = i then c else mem (cellAddr video j) := by
  have hattr : (cellAddr video i + 1) % 2 ^ 32 = cellAddr video i + 1 := by
    have hlt := cellAddr_lt hi
    unfold boundary1 at hlt
    omega
  have hodd : cellAddr video j ≠ cellAddr video i + 1 := by
    rw [cellAddr_video hi, cellAddr_video hj]
    omega
  unfold storeCell
  rw [hattr, Function.update_of_ne hodd]
  by_cases hij : j = i
  · rw [if_pos hij, hij, Function.update_self]
  · have hne : cellAddr video j ≠ cellAddr video i := by
      rw [cellAddr_video hi, cellAddr_video hj]
      omega
    rw [if_neg hij, Function.update_of_ne hne]

/-- The history is not written with the screen. -/
theorem storeCell_far {i a : Nat} (hi : i < numRows * numCols) (ha : boundary1 ≤ a)
    (c attr : UInt8) : storeCell mem video i c attr a = mem a := by
  have hlt := cellAddr_lt hi
  have hattr : (cellAddr video i + 1) % 2 ^ 32 = cellAddr video i + 1 := by
    unfold boundary1 at hlt
    omega
  unfold storeCell
  rw [hattr, Function.update_of_ne (by omega), Function.update_of_ne (by omega)]

theorem store_far (t : Terminals) {is : List Nat} (his : ∀ i ∈ is, i < numRows * numCols)
    (c attr : Buf → Nat → UInt8) {a : Nat} (ha : boundary1 ≤ a) :
    (t.store video is c attr).mem a = t.mem a := by
  show is.foldl _ t.mem a = t.mem a
  generalize t.mem = mem
  induction is generalizing mem with
  | nil => rfl
  | cons i is ih =>
      rw [List.foldl_cons, ih fun j hj => his j (List.mem_cons_of_mem i hj)]
      exact storeCell_far (his i List.mem_cons_self) ha _ _

/-- A loop leaves the cells it does not go over. -/
theorem store_other (t : Terminals) {is : List Nat} (his : ∀ i ∈ is, i < numRows * numCols)
    (c attr : Buf → Nat → UInt8) {j : Nat} (hj : j < numRows * numCols) (hout : j ∉ is) :
    (t.store video is c attr).mem (cellAddr video j) = t.mem (cellAddr video j) := by
  show is.foldl _ t.mem (cellAddr video j) = t.mem (cellAddr video j)
  generalize t.mem = mem
  induction is generalizing mem with
  | nil => rfl
  | cons i is ih =>
      obtain ⟨hne, hrest⟩ := not_or.mp (List.mem_cons.not.mp hout)
      rw [List.foldl_cons, ih (fun k hk => his k (List.mem_cons_of_mem i hk)) hrest,
        storeCell_char (his i List.mem_cons_self) hj, if_neg hne]

/-- The loop of `enable_scroll` reads cells that it has not come to. -/
theorem store_shift (t : Terminals) (attr : Buf → Nat → UInt8) {n : Nat}
    (hn : n ≤ (numRows - 1) * numCols) {j : Nat} (hj : j < numRows * numCols) :
    (t.store video (List.range n) (fun mem i => mem (cellAddr video (i + numCols))) attr).mem
        (cellAddr video j) =
      if j < n then t.mem (cellAddr video (j + numCols)) else t.mem (cellAddr video j) := by
  induction n generalizing j with
  | zero => rfl
  | succ n ih =>
      have hcell : n < numRows * numCols := by
        simp only [numRows, numCols] at hn ⊢
        omega
      have hread : n + numCols < numRows * numCols := by
        simp only [numRows, numCols] at hn ⊢
        omega
      have hprev := fun {j} hj => @ih (Nat.le_of_succ_le hn) j hj
      show (List.range (n + 1)).foldl _ t.mem (cellAddr video j) = _
      rw [List.range_succ, List.foldl_append, List.foldl_cons, List.foldl_nil,
        storeCell_char hcell hj]
      change (if j = n then (t.store video (List.range n)
          (fun mem i => mem (cellAddr video (i + numCols))) attr).mem (cellAddr video (n + numCols))
        else (t.store video (List.range n)
          (fun mem i => mem (cellAddr video (i + numCols))) attr).mem (cellAddr video j)) = _
      rw [hprev hread, hprev hj]
      by_cases hjn : j = n
      · have hout : ¬ n + numCols < n := by omega
        rw [if_pos hjn, if_neg hout, if_pos (by omega), hjn]
      · by_cases hlt : j < n
        · rw [if_neg hjn, if_pos hlt, if_pos (by omega)]
        · rw [if_neg hjn, if_neg hlt, if_neg (by omega)]

/-- The pointer is drawn in attribute bytes. -/
theorem drawChar_char (m : MouseInfo) (c : UInt8) {j : Nat} (hj : j < numRows * numCols) :
    drawChar mem c m.x m.y (cellAddr video j) = mem (cellAddr video j) := by
  have hne : cellAddr video j ≠ video + cell m.x m.y := by
    rw [cellAddr_video hj]
    unfold cell
    omega
  unfold drawChar
  rw [Function.update_of_ne hne]

theorem drawChar_far (m : MouseInfo) (c : UInt8) {a : Nat} (ha : boundary1 ≤ a) :
    drawChar mem c m.x m.y a = mem a := by
  have hcell := cell_lt m
  have hne : a ≠ video + cell m.x m.y := by
    unfold boundary1 at ha
    unfold screenSize numCols numRows at hcell
    unfold video
    omega
  unfold drawChar
  rw [Function.update_of_ne hne]

/-- The cursor is in its row. -/
theorem row_le_cursorCell {d : SessTerm} (hx : d.vidX < numCols) (hy : d.vidY < numRows) :
    numCols * d.vidY ≤ cursorCell d := by
  unfold cursorCell
  simp only [numCols, numRows] at hx hy ⊢
  rw [Nat.mod_eq_of_lt (by omega)]
  exact Nat.le_add_right _ _

/-- Rows of the screen stand in the history. -/
def RowsMirrored (mem : Buf) (head rows : Nat) : Prop :=
  ∀ r < rows, ∀ i < numCols,
    mem (head + numCols * r + i) = mem (cellAddr video (numCols * r + i))

theorem RowsMirrored.le {head m n : Nat} (h : RowsMirrored mem head n) (hle : m ≤ n) :
    RowsMirrored mem head m :=
  fun r hr => h r (Nat.lt_of_lt_of_le hr hle)

/-- What leaves the history and the characters of the rows alone keeps them in step. -/
theorem RowsMirrored.congr {head n : Nat} (h : RowsMirrored mem head n) (hhead : boundary1 ≤ head)
    (hfar : ∀ a, boundary1 ≤ a → mem' a = mem a)
    (hchar : ∀ j < numCols * n, mem' (cellAddr video j) = mem (cellAddr video j)) :
    RowsMirrored mem' head n := by
  intro r hr i hi
  have hcell : numCols * r + i < numCols * n := by
    have hle := Nat.mul_le_mul_left numCols (Nat.succ_le_of_lt hr)
    rw [Nat.mul_succ] at hle
    omega
  rw [hfar _ (by omega), hchar _ hcell]
  exact h r hr i hi

end Memory

/-! ## Rows in the history -/

section Rows

variable {t t' : Terminals} {head y : Nat}

/-- The loop of `write_history` copies a row of the screen. -/
theorem historyLoop (mem : Buf) {ptr : Nat} (hptr : boundary1 ≤ ptr) (hy : y < numRows) {n : Nat}
    (hn : n ≤ numCols) (a : Nat) :
    (List.range n).foldl
        (fun mem i => Function.update mem (ptr + i) (mem (cellAddr video (y * numCols + i)))) mem
        a =
      if ptr ≤ a ∧ a < ptr + n then mem (cellAddr video (y * numCols + (a - ptr))) else mem a := by
  induction n generalizing a with
  | zero =>
      rw [if_neg (by omega)]
      rfl
  | succ n ih =>
      have hcell : y * numCols + n < numRows * numCols := by
        simp only [numRows, numCols] at hn hy ⊢
        omega
      have hlt := cellAddr_lt hcell
      rw [List.range_succ, List.foldl_append, List.foldl_cons, List.foldl_nil]
      by_cases ha : a = ptr + n
      · subst ha
        rw [Function.update_self, ih (Nat.le_of_succ_le hn), if_neg (by omega),
          if_pos (by omega), Nat.add_sub_cancel_left]
      · rw [Function.update_of_ne ha, ih (Nat.le_of_succ_le hn)]
        by_cases hin : ptr ≤ a ∧ a < ptr + n
        · rw [if_pos hin, if_pos (by omega)]
        · rw [if_neg hin, if_neg (by omega)]

/-- The row of the cursor is put into the history after the rows above it. -/
theorem rows_writeHistory {sessId : Nat} (h : RowsMirrored t.mem head y) (hhead : boundary1 ≤ head)
    (hy : y < numRows) (hptr : (t.term sessId).historyPtr = head + numCols * y)
    (hwrite : writeHistory video y sessId t = some t') : RowsMirrored t'.mem head (y + 1) := by
  have hmem : ∀ a, t'.mem a =
      if head + numCols * y ≤ a ∧ a < head + numCols * y + numCols then
        t.mem (cellAddr video (y * numCols + (a - (head + numCols * y))))
      else t.mem a := by
    intro a
    unfold writeHistory at hwrite
    simp only [hptr] at hwrite
    split at hwrite
    · rw [← Option.some.inj hwrite]
      exact historyLoop t.mem (Nat.le_trans hhead (Nat.le_add_right _ _)) hy (Nat.le_refl _) a
    · contradiction
  intro r hr i hi
  have hcell : numCols * r + i < numRows * numCols := by
    simp only [numRows, numCols] at hy hi ⊢
    omega
  have hscreen := cellAddr_lt hcell
  rw [hmem (cellAddr video (numCols * r + i)), if_neg (by omega), hmem]
  rcases Nat.lt_succ_iff_lt_or_eq.mp hr with hlt | rfl
  · have hle := Nat.mul_le_mul_left numCols (Nat.succ_le_of_lt hlt)
    rw [Nat.mul_succ] at hle
    rw [if_neg (by omega)]
    exact h r hlt i hi
  · rw [if_pos (by omega), Nat.add_sub_cancel_left, Nat.mul_comm]

/-- Scrolling leaves the history alone. -/
theorem enableScroll_far (t : Terminals) (sessId : Nat) {a : Nat} (ha : boundary1 ≤ a) :
    (enableScroll video sessId t).mem a = t.mem a := by
  refine (drawChar_far _ _ ha).trans ((store_far _ (fun _ => lt_of_mem_lastRow) _ _ ha).trans ?_)
  exact (store_far _ (fun _ => lt_of_mem_upperRows) _ _ ha).trans (drawChar_far _ _ ha)

/-- Scrolling moves the rows up, on the screen and in the history. -/
theorem rows_enableScroll (h : RowsMirrored t.mem head numRows) (hhead : boundary1 ≤ head)
    (sessId : Nat) :
    RowsMirrored (enableScroll video sessId t).mem (head + numCols) (numRows - 1) := by
  have hchar : ∀ j < (numRows - 1) * numCols, (enableScroll video sessId t).mem (cellAddr video j) =
      t.mem (cellAddr video (j + numCols)) := by
    intro j hj
    have hcell := lt_of_mem_upperRows (List.mem_range.mpr hj)
    have hread : j + numCols < numRows * numCols := by
      simp only [numRows, numCols] at hj ⊢
      omega
    have hout : j ∉ List.range' ((numRows - 1) * numCols) numCols := by
      intro hmem
      have hlow := (List.mem_range'_1.mp hmem).1
      omega
    refine (drawChar_char _ _ hcell).trans
      ((store_other _ (fun _ => lt_of_mem_lastRow) _ _ hcell hout).trans ?_)
    refine (store_shift _ _ (Nat.le_refl _) hcell).trans ?_
    rw [if_pos hj]
    exact drawChar_char _ _ hread
  intro r hr i hi
  have hcell : numCols * r + i < (numRows - 1) * numCols := by
    simp only [numRows, numCols] at hr hi ⊢
    omega
  have hrow := h (r + 1) (by omega) i hi
  have hnext : numCols * (r + 1) + i = numCols * r + i + numCols := by
    rw [Nat.mul_succ]
    omega
  have haddr : head + numCols + numCols * r + i = head + numCols * (r + 1) + i := by
    rw [Nat.mul_succ]
    omega
  rw [enableScroll_far t sessId (by omega), hchar _ hcell, haddr, hrow, hnext]

/-- A cell in the row of the cursor or below it is written. -/
theorem rows_store (h : RowsMirrored t.mem head y) (hhead : boundary1 ≤ head) {i : Nat}
    (hi : i < numRows * numCols) (hlow : numCols * y ≤ i) (c attr : Buf → Nat → UInt8) :
    RowsMirrored (t.store video [i] c attr).mem head y := by
  have his : ∀ j ∈ [i], j < numRows * numCols := by
    intro j hj
    rw [List.mem_singleton.mp hj]
    exact hi
  refine h.congr hhead (fun a ha => store_far t his c attr ha) ?_
  intro j hj
  have hout : j ∉ [i] := by
    intro hmem
    have heq := List.mem_singleton.mp hmem
    omega
  exact store_other t his c attr (by omega) hout

end Rows

/-! ## The displayed session -/

/-- The history pointer is where the row of the cursor goes, and the rows above it stand in
the history. -/
structure Mirrored (t : Terminals) : Prop where
  ptr : (t.term t.cur).historyPtr =
    (t.term t.cur).screenHead + numCols * (t.term t.cur).vidY
  rows : RowsMirrored t.mem (t.term t.cur).screenHead (t.term t.cur).vidY

/-- And the cursor is on the screen, which begins in the history. -/
structure Tracking (t : Terminals) : Prop extends Mirrored t where
  vidX : (t.term t.cur).vidX < numCols
  vidY : (t.term t.cur).vidY < numRows
  head : boundary1 ≤ (t.term t.cur).screenHead
  boundary : boundary1 ≤ (t.term t.cur).boundary

namespace Tracking

variable {t t' : Terminals}

/-- The screen is not scrolled back. -/
theorem not_scrolledBack (h : Tracking t) : ¬ ScrolledBack (t.term t.cur) := by
  have hptr := h.ptr
  have hle := Nat.mul_le_mul_left numCols (Nat.le_sub_one_of_lt h.vidY)
  unfold ScrolledBack
  omega

/-- The displayed session is in this state, and the rows above its cursor stand in the
history. -/
theorem of_term (hcur : t'.cur = t.cur) {d : SessTerm} (hterm : t'.term t.cur = d)
    (hptr : d.historyPtr = d.screenHead + numCols * d.vidY) (hx : d.vidX < numCols)
    (hy : d.vidY < numRows) (hhead : boundary1 ≤ d.screenHead) (hboundary : boundary1 ≤ d.boundary)
    (hrows : RowsMirrored t'.mem d.screenHead d.vidY) : Tracking t' := by
  have hterm' : t'.term t'.cur = d := by rw [hcur, hterm]
  refine ⟨⟨?_, ?_⟩, ?_, ?_, ?_, ?_⟩
  all_goals rw [hterm']
  · exact hptr
  · exact hrows
  · exact hx
  · exact hy
  · exact hhead
  · exact hboundary

/-- A newline after the check with which output begins. -/
theorem lineFeed (h : Tracking t) {t₁ : Terminals}
    (hwrite : writeHistory video (t.term t.cur).vidY t.cur t = some t₁) :
    Tracking (checkScroll video t.cur (nextLine t.cur (updateHistoryptr t.cur t₁))) := by
  have hptr := h.ptr
  have hzero : 0 < numCols := by decide
  have hrows := rows_writeHistory h.rows h.head h.vidY hptr hwrite
  have hchanges := (Changes.refl t).lineFeed hwrite
  have hmoved : (nextLine t.cur (updateHistoryptr t.cur t₁)).term t.cur =
      { t.term t.cur with
        historyPtr := (t.term t.cur).historyPtr + numCols
        vidX := 0
        vidY := ((t.term t.cur).vidY + 1) % 2 ^ 32 } := by
    simp only [nextLine, updateHistoryptr, Terminals.setTerm, (writeHistory_changes hwrite).term,
      Function.update_self]
  have hmod : ((t.term t.cur).vidY + 1) % 2 ^ 32 = (t.term t.cur).vidY + 1 := by
    have hy := h.vidY
    unfold numRows at hy
    omega
  by_cases hlast : (t.term t.cur).vidY + 1 < numRows
  · have hterm := congrFun hchanges.term t.cur
    rw [Function.update_self, SessTerm.newline_of_lt hlast] at hterm
    have hcheck : checkScroll video t.cur (nextLine t.cur (updateHistoryptr t.cur t₁)) =
        nextLine t.cur (updateHistoryptr t.cur t₁) := by
      unfold checkScroll
      rw [hmoved]
      simp only [hmod]
      rw [if_neg (Nat.not_le.mpr hlast)]
    apply of_term hchanges.cur hterm
    · show (t.term t.cur).historyPtr + numCols =
        (t.term t.cur).screenHead + numCols * ((t.term t.cur).vidY + 1)
      rw [hptr, Nat.mul_succ, Nat.add_assoc]
    · exact hzero
    · exact hlast
    · exact h.head
    · exact h.boundary
    · rw [hcheck]
      exact hrows
  · have heq : (t.term t.cur).vidY + 1 = numRows := by
      have hy := h.vidY
      omega
    have hterm := congrFun hchanges.term t.cur
    rw [Function.update_self, SessTerm.newline_of_last heq] at hterm
    have hcheck : checkScroll video t.cur (nextLine t.cur (updateHistoryptr t.cur t₁)) =
        enableScroll video t.cur (nextLine t.cur (updateHistoryptr t.cur t₁)) := by
      unfold checkScroll
      rw [hmoved]
      simp only [hmod]
      rw [if_pos (Nat.le_of_eq heq.symm)]
    have hrow : (t.term t.cur).vidY = numRows - 1 := by omega
    apply of_term hchanges.cur hterm
    · show (t.term t.cur).historyPtr + numCols =
        (t.term t.cur).screenHead + numCols + numCols * (t.term t.cur).vidY
      rw [hptr]
      omega
    · exact hzero
    · exact h.vidY
    · exact Nat.le_trans h.head (Nat.le_add_right _ _)
    · exact h.boundary
    · rw [hcheck]
      show RowsMirrored _ ((t.term t.cur).screenHead + numCols) (t.term t.cur).vidY
      rw [heq] at hrows
      rw [hrow]
      exact rows_enableScroll hrows h.head t.cur

theorem newline (h : Tracking t) (hnewline : newline video t.cur t = some t') : Tracking t' := by
  unfold Terminal.newline at hnewline
  rw [reload_some h.not_scrolledBack] at hnewline
  simp only [Option.bind_eq_bind, Option.bind_some] at hnewline
  obtain ⟨t₁, hwrite, heq⟩ := Option.bind_eq_some_iff.mp hnewline
  rw [← Option.some.inj heq]
  exact h.lineFeed hwrite

/-- The row of the cursor goes into the history when a cell of it has been written. -/
theorem line (h : Tracking t) {x : Terminals} (hcur : x.cur = t.cur) {d : SessTerm}
    (hterm : x.term t.cur = d) (hptr : d.historyPtr = (t.term t.cur).historyPtr)
    (hhead : d.screenHead = (t.term t.cur).screenHead)
    (hboundary : d.boundary = (t.term t.cur).boundary) (hx : d.vidX < numCols)
    (hy : d.vidY = (t.term t.cur).vidY)
    (hrows : RowsMirrored x.mem (t.term t.cur).screenHead (t.term t.cur).vidY)
    (hwrite : writeHistory video (t.term t.cur).vidY t.cur x = some t') : Tracking t' := by
  have hchanges := writeHistory_changes hwrite
  have hline : (x.term t.cur).historyPtr =
      (t.term t.cur).screenHead + numCols * (t.term t.cur).vidY := by
    rw [hterm, hptr, h.ptr]
  have hcopied := rows_writeHistory hrows h.head h.vidY hline hwrite
  have hterm' : t'.term t.cur = d := by rw [hchanges.term, hterm]
  apply of_term (hchanges.cur.trans hcur) hterm'
  · rw [hptr, hhead, hy]
    exact h.ptr
  · exact hx
  · rw [hy]
    exact h.vidY
  · rw [hhead]
    exact h.head
  · rw [hboundary]
    exact h.boundary
  · rw [hhead, hy]
    exact hcopied.le (Nat.le_succ _)

/-- A character. -/
theorem sessPutc (h : Tracking t) {c : UInt8} (hputc : sessPutc video c t.cur t = some t') :
    Tracking t' := by
  unfold Terminal.sessPutc at hputc
  rw [reload_some h.not_scrolledBack] at hputc
  simp only [Option.bind_eq_bind, Option.bind_some] at hputc
  by_cases hc : c = 10 ∨ c = 13
  · rw [if_pos hc] at hputc
    obtain ⟨t₁, hwrite, heq⟩ := Option.bind_eq_some_iff.mp hputc
    rw [← Option.some.inj heq]
    exact h.lineFeed hwrite
  · rw [if_neg hc] at hputc
    obtain ⟨hcolumn, hrow⟩ := SessTerm.putc_row h.vidX h.vidY
    rw [hrow, hcolumn] at hputc
    obtain ⟨t₁, hwrite, heq⟩ := Option.bind_eq_some_iff.mp hputc
    have hcell := cursorCell_lt h.vidX h.vidY
    have hrows := rows_store h.rows h.head hcell (row_le_cursorCell h.vidX h.vidY)
      (fun _ _ => c) fun _ _ => t.attrib
    generalize hstored : t.store video [cursorCell (t.term t.cur)] (fun _ _ => c)
      (fun _ _ => t.attrib) = stored at hwrite hrows
    have hcolumn' : ((t.term t.cur).vidX + 1) % numCols < numCols := Nat.mod_lt _ (by decide)
    generalize hd : ({ t.term t.cur with
      vidX := ((t.term t.cur).vidX + 1) % numCols } : SessTerm) = d at hwrite
    have hterm : (stored.setTerm t.cur d).term t.cur = d := Function.update_self ..
    have hcur : (stored.setTerm t.cur d).cur = t.cur := by
      rw [← hstored]
      rfl
    have hx : d.vidX < numCols := by
      rw [← hd]
      exact hcolumn'
    have hy : d.vidY = (t.term t.cur).vidY := by
      rw [← hd]
    rw [hterm, hy] at hwrite
    have htracking : Tracking t₁ := by
      apply h.line hcur hterm _ _ _ hx hy hrows hwrite
      all_goals rw [← hd]
    have hcur' : t₁.cur = t.cur := (writeHistory_changes hwrite).cur.trans hcur
    have hcheck : checkScroll video t.cur t₁ = t₁ := by
      unfold checkScroll
      rw [← hcur', if_neg (Nat.not_le.mpr htracking.vidY)]
    rw [hcheck] at heq
    rw [← Option.some.inj heq]
    exact htracking

/-- A backspace that stays in the row. -/
theorem backspace (h : Tracking t) (hx : (t.term t.cur).vidX ≠ 0)
    (hback : backspace video t.cur t = some t') : Tracking t' := by
  unfold Terminal.backspace at hback
  rw [reload_some h.not_scrolledBack] at hback
  simp only [Option.bind_eq_bind, Option.bind_some] at hback
  rw [if_pos hx] at hback
  have hcolumn : (t.term t.cur).vidX - 1 < numCols := Nat.lt_of_le_of_lt (Nat.sub_le _ _) h.vidX
  generalize hd : ({ t.term t.cur with vidX := (t.term t.cur).vidX - 1 } : SessTerm) = d at hback
  have hx' : d.vidX < numCols := by
    rw [← hd]
    exact hcolumn
  have hy : d.vidY = (t.term t.cur).vidY := by
    rw [← hd]
  have hy' : d.vidY < numRows := by
    rw [hy]
    exact h.vidY
  have hlow := row_le_cursorCell hx' hy'
  rw [hy] at hlow hback
  have hmoved : RowsMirrored (t.setTerm t.cur d).mem (t.term t.cur).screenHead
      (t.term t.cur).vidY := h.rows
  have hrows := rows_store hmoved h.head (cursorCell_lt hx' hy') hlow (fun _ _ => 32)
    fun _ _ => (t.setTerm t.cur d).attrib
  have hterm : ((t.setTerm t.cur d).store video [cursorCell d] (fun _ _ => 32)
      fun _ _ => (t.setTerm t.cur d).attrib).term t.cur = d := by
    rw [Terminals.term_store]
    exact Function.update_self ..
  generalize hstored : (t.setTerm t.cur d).store video [cursorCell d] (fun _ _ => 32)
    (fun _ _ => (t.setTerm t.cur d).attrib) = stored at hback hrows hterm
  have hcur : stored.cur = t.cur := by
    rw [← hstored]
    rfl
  apply h.line hcur hterm _ _ _ hx' hy hrows hback
  all_goals rw [← hd]

/-- Output in the displayed session. -/
theorem putByte (h : Tracking t) {c : UInt8} (hput : putByte video t.cur c t = some t') :
    Tracking t' := by
  unfold Terminal.putByte at hput
  split at hput
  · obtain ⟨t₁, hputc, hnewline⟩ := Option.bind_eq_some_iff.mp hput
    have htracking := h.sessPutc hputc
    rw [← (sessPutc_changes hputc).cur] at hnewline
    exact htracking.newline hnewline
  · exact h.sessPutc hput

/-- The keyboard's side of a session. -/
theorem setInput (h : Tracking t) (i : Input) : Tracking (setInput t.cur i t) := by
  have hterm := term_setInput t t.cur i
  apply of_term rfl hterm
  · exact h.ptr
  · exact h.vidX
  · exact h.vidY
  · exact h.head
  · exact h.boundary
  · exact h.rows

/-- On a screen that was cleared there are no rows above the cursor. -/
theorem clearScreen (h : Tracking t) : Tracking (clearScreen video t.cur t) := by
  have hchanges := clearScreen_changes t video
  have hterm := congrFun hchanges.term t.cur
  rw [Function.update_self] at hterm
  have hzero : 0 < numCols ∧ 0 < numRows := by decide
  apply of_term hchanges.cur hterm
  · rfl
  · exact hzero.1
  · exact hzero.2
  · exact h.boundary
  · exact h.boundary
  · intro r hr
    exact absurd hr (Nat.not_lt_zero r)

end Tracking

/-! ## Runs -/

section Runs

variable {t t' : Terminals}

/-- Output to the displayed session, and keys other than the wheel. -/
def OnDisplay (t : Terminals) : Act → Prop
  | .output sessMem sessId _ => sessMem = video ∧ sessId = t.cur
  | .key _ _ | .backspace | .enter => True
  | .panicScreen _ | .panicClear | .sessSwitch _ | .scrollUp | .scrollDown => False

/-- A backspace takes back a typed character from the end of the row above. -/
def WrapsBack (t : Terminals) : Act → Prop
  | .backspace => (t.term t.cur).input.kbdBufIdx ≠ 0 ∧ (t.term t.cur).vidX = 0
  | _ => False

/-- A key in the displayed session. -/
theorem Tracking.printKey (h : Tracking t) {info : KeyInfo} {keycode : Nat}
    (hkey : printKey info keycode t = some t') : Tracking t' := by
  rcases printKey_cases hkey with ⟨-, rfl, -⟩ | ⟨-, rfl⟩ | ⟨-, -, hput⟩
  · have hcleared := h.clearScreen
    have hcur := (clearScreen_changes t video).cur
    generalize Terminal.clearScreen video t.cur t = cleared at hcleared hcur
    have hkept := hcleared.setInput (printRegularKey (t.term t.cur).input info keycode)
    rw [hcur] at hkept
    exact hkept
  · exact h
  · exact (h.setInput _).putByte hput

/-- The enter key. -/
theorem Tracking.enterKey (h : Tracking t) (henter : enterKey t = some t') : Tracking t' :=
  (h.setInput _).newline henter

/-- The backspace key keeps the history in step with the screen exactly if it stays in the
row of the cursor. -/
theorem Tracking.deleteKey_iff (h : Tracking t) (hdelete : deleteKey t = some t') :
    (Mirrored t' ↔ ¬ WrapsBack t .backspace) ∧ (¬ WrapsBack t .backspace → Tracking t') := by
  rcases deleteKey_cases hdelete with ⟨hempty, rfl⟩ | ⟨htyped, t₁, hback, rfl, -⟩
  · have hstays : ¬ WrapsBack t' .backspace := fun hwraps => hwraps.1 hempty
    exact ⟨⟨fun _ => hstays, fun _ => h.toMirrored⟩, fun _ => h⟩
  · have hchanges := backspace_changes hback
    have hkept : ¬ WrapsBack t .backspace →
        Tracking (Terminal.setInput t.cur (deleteKeystroke (t.term t.cur).input) t₁) := by
      intro hstays
      have hx : (t.term t.cur).vidX ≠ 0 := fun hx => hstays ⟨htyped, hx⟩
      have htracking := h.backspace hx hback
      rw [← hchanges.cur]
      exact htracking.setInput _
    refine ⟨⟨?_, fun hstays => (hkept hstays).toMirrored⟩, hkept⟩
    rintro hmirrored ⟨-, hx⟩
    have hinput := hchanges.setInput t.cur (deleteKeystroke (t.term t.cur).input)
    rw [reloaded_of_not h.not_scrolledBack, Function.update_idem, Function.update_self] at hinput
    have hptr := hmirrored.ptr
    rw [hinput.cur, hinput.term, Function.update_self] at hptr
    change (t.term t.cur).back.historyPtr =
      (t.term t.cur).back.screenHead + numCols * (t.term t.cur).back.vidY at hptr
    have hy := h.vidY
    -- the pointers stay where they are, and the row is another one
    unfold SessTerm.back at hptr
    rw [if_neg (not_not.mpr hx)] at hptr
    simp only [] at hptr
    rw [h.ptr] at hptr
    simp only [numCols, numRows] at hptr hy
    omega

/-- An act on the displayed session keeps the history in step with the screen exactly if it
is not a backspace from the first column. -/
theorem mirrored_act_iff (h : Tracking t) {a : Act} (hdisplay : OnDisplay t a)
    (hact : t.act a = some t') :
    (Mirrored t' ↔ ¬ WrapsBack t a) ∧ (¬ WrapsBack t a → Tracking t') := by
  cases a with
  | output sessMem sessId c =>
      obtain ⟨rfl, rfl⟩ := hdisplay
      have hkept := h.putByte hact
      exact ⟨⟨fun _ => id, fun _ => hkept.toMirrored⟩, fun _ => hkept⟩
  | key info keycode =>
      have hkept := h.printKey hact
      exact ⟨⟨fun _ => id, fun _ => hkept.toMirrored⟩, fun _ => hkept⟩
  | backspace => exact h.deleteKey_iff hact
  | enter =>
      have hkept := h.enterKey hact
      exact ⟨⟨fun _ => id, fun _ => hkept.toMirrored⟩, fun _ => hkept⟩
  | panicScreen printed => exact absurd hdisplay id
  | panicClear => exact absurd hdisplay id
  | sessSwitch sessId => exact absurd hdisplay id
  | scrollUp => exact absurd hdisplay id
  | scrollDown => exact absurd hdisplay id

theorem Tracking.of_initial (h : Initial t) : Tracking t := by
  obtain ⟨hx, hy, -, hboundary, hhead, hptr⟩ := h.term t.cur h.displayed
  have hpage := (boundaryOf_page h.displayed).1
  refine ⟨⟨?_, ?_⟩, ?_, ?_, ?_, ?_⟩
  · rw [hptr, hhead, hy]
    rfl
  · intro r hr
    rw [hy] at hr
    exact absurd hr (Nat.not_lt_zero r)
  · rw [hx]
    decide
  · rw [hy]
    decide
  · rw [hhead]
    exact hpage
  · rw [hboundary]
    exact hpage

/-- The runs in which no backspace goes back over the end of a row. -/
theorem Tracking.of_reachable
    (h : (terminalSystem fun t a => OnDisplay t a ∧ ¬ WrapsBack t a).Reachable t) :
    Tracking t := by
  have hinv : (terminalSystem fun t a => OnDisplay t a ∧ ¬ WrapsBack t a).IsInvariant
      Tracking := by
    refine ⟨fun t hinit => Tracking.of_initial hinit, ?_⟩
    rintro t t' htracking ⟨a, ⟨hdisplay, hstays⟩, hact⟩
    exact (mirrored_act_iff htracking hdisplay hact).2 hstays
  exact hinv.of_reachable h

end Runs

/-- On the displayed session, in every run of output and keys in which no backspace takes
back a typed character from the end of the row above, the history pointer is where the
row of the cursor goes and the rows above it stand in the history; and the first such
backspace ends that. -/
theorem history_mirrors :
    ∀ t, (terminalSystem fun t a => OnDisplay t a ∧ ¬ WrapsBack t a).Reachable t →
      Mirrored t ∧
        ∀ a t', OnDisplay t a → t.act a = some t' → (Mirrored t' ↔ ¬ WrapsBack t a) := by
  intro t hreachable
  have htracking := Tracking.of_reachable hreachable
  refine ⟨htracking.toMirrored, ?_⟩
  intro a t' hdisplay hact
  exact (mirrored_act_iff htracking hdisplay hact).1

/-! ## Over the end of a row -/

section WrapsBack

variable {t t' : Terminals}

/-- A row with so many typed characters in it and nothing above. -/
structure TypedRow (t : Terminals) (n : Nat) : Prop where
  displayed : t.cur < numSess
  vidX : (t.term t.cur).vidX = n
  vidY : (t.term t.cur).vidY = 0
  typed : (t.term t.cur).input.kbdBufIdx = n
  head : (t.term t.cur).screenHead = boundaryOf t.cur
  ptr : (t.term t.cur).historyPtr = boundaryOf t.cur

/-- A key puts a character into the row. -/
theorem TypedRow.key {n : Nat} (h : TypedRow t n) (hn : n + 1 < numCols) :
    ∃ t', t.act (.key plainKeys 30) = some t' ∧ TypedRow t' (n + 1) := by
  have hletter : ¬ (keyOf plainKeys 30 = 10 ∨ keyOf plainKeys 30 = 13) := by decide
  have hidx : (t.term t.cur).input.kbdBufIdx < keyBufSize - 1 := by
    rw [h.typed]
    exact Nat.lt_trans (Nat.lt_of_succ_lt hn) (by decide)
  have hcolumn : (t.term t.cur).vidX + 1 < numCols := by
    rw [h.vidX]
    exact hn
  have hrow : (t.term t.cur).vidY < numRows := by
    rw [h.vidY]
    decide
  obtain ⟨t', hkey, hcur, hterm⟩ :=
    typed_letter h.displayed hidx h.head h.ptr (Nat.lt_of_succ_lt hcolumn) hrow
  replace hterm := hterm.trans (SessTerm.put_of_lt hletter hcolumn hrow)
  refine ⟨t', hkey, ?_, ?_, ?_, ?_, ?_, ?_⟩
  · rw [hcur]
    exact h.displayed
  · rw [hcur, hterm]
    exact congrArg (· + 1) h.vidX
  · rw [hcur, hterm]
    exact h.vidY
  · rw [hcur, hterm]
    exact (kbdBufIdx_letter hidx).trans (congrArg (· + 1) h.typed)
  · rw [hcur, hterm]
    exact h.head
  · rw [hcur, hterm]
    exact h.ptr

/-- The first row is typed up to its last column. -/
theorem typedRow_freshTerminals {n : Nat} (hn : n < numCols) :
    ∃ t, runActs (List.replicate n (.key plainKeys 30)) freshTerminals = some t ∧
      TypedRow t n := by
  induction n with
  | zero => exact ⟨freshTerminals, rfl, initial_freshTerminals.displayed, rfl, rfl, rfl, rfl, rfl⟩
  | succ n ih =>
      obtain ⟨t, hrun, hrow⟩ := ih (Nat.lt_of_succ_lt hn)
      obtain ⟨t', hkey, hrow'⟩ := hrow.key hn
      refine ⟨t', ?_, hrow'⟩
      rw [List.replicate_succ', runActs_append, hrun, Option.bind_some, runActs_cons hkey]
      rfl

/-- The key in the last column moves the cursor to the next row, from where the backspace
key gets through. -/
theorem TypedRow.wraps {n : Nat} (h : TypedRow t n) (hn : n + 1 = numCols) :
    ∃ t₁ t', t.act (.key plainKeys 30) = some t₁ ∧ WrapsBack t₁ .backspace ∧
      t₁.act .backspace = some t' := by
  have hletter : ¬ (keyOf plainKeys 30 = 10 ∨ keyOf plainKeys 30 = 13) := by decide
  have hidx : (t.term t.cur).input.kbdBufIdx < keyBufSize - 1 := by
    rw [h.typed]
    exact Nat.lt_of_lt_of_eq (Nat.lt_succ_self n) hn |>.trans (by decide)
  have hcolumn : (t.term t.cur).vidX + 1 = numCols := by
    rw [h.vidX]
    exact hn
  have hrow : (t.term t.cur).vidY + 1 < numRows := by
    rw [h.vidY]
    decide
  obtain ⟨t₁, hkey, hcur, hterm⟩ := typed_letter h.displayed hidx h.head h.ptr
    (Nat.lt_of_succ_le (Nat.le_of_eq hcolumn)) (Nat.lt_of_succ_lt hrow)
  replace hterm := hterm.trans (SessTerm.put_of_last hletter hcolumn hrow)
  rw [← hcur] at hterm
  have hwraps : WrapsBack t₁ .backspace := by
    constructor
    · rw [hterm]
      show (printRegularKey (t.term t₁.cur).input plainKeys 30).kbdBufIdx ≠ 0
      rw [hcur, kbdBufIdx_letter hidx]
      exact Nat.succ_ne_zero _
    · rw [hterm]
  have hscroll : ¬ ScrolledBack (t₁.term t₁.cur) := by
    rw [hterm]
    show ¬ (t.term t₁.cur).screenHead + numCols * (numRows - 1) <
      (t.term t₁.cur).historyPtr + numCols
    rw [hcur, h.head, h.ptr]
    simp only [numCols, numRows]
    omega
  have hroom : HasRoom (t₁.term t₁.cur) := by
    have hpage := boundaryOf_page h.displayed
    unfold HasRoom
    rw [hterm]
    show boundary1 ≤ (t.term t₁.cur).historyPtr + numCols ∧
      (t.term t₁.cur).historyPtr + numCols + numCols ≤ historyEnd
    rw [hcur, h.ptr]
    simp only [numCols]
    omega
  obtain ⟨t₂, hback⟩ := backspace_some hscroll hroom video
  refine ⟨t₁, setInput t₁.cur (deleteKeystroke (t₁.term t₁.cur).input) t₂, hkey, hwraps, ?_⟩
  show deleteKey t₁ = _
  unfold deleteKey
  rw [if_neg hwraps.1, hback]
  rfl

end WrapsBack

/-- A row of letters is typed to its end. -/
theorem typedLine_freshTerminals :
    ∃ t t', runActs (List.replicate 80 (.key plainKeys 30)) freshTerminals = some t ∧
      (terminalSystem fun t a => OnDisplay t a ∧ ¬ WrapsBack t a).Reachable t ∧
      WrapsBack t .backspace ∧ t.act .backspace = some t' := by
  obtain ⟨t, hrun, hrow⟩ := typedRow_freshTerminals (n := 79) (by decide)
  obtain ⟨t₁, t', hkey, hwraps, hback⟩ := hrow.wraps rfl
  have hline : runActs (List.replicate 80 (.key plainKeys 30)) freshTerminals = some t₁ := by
    rw [List.replicate_succ', runActs_append, hrun, Option.bind_some, runActs_cons hkey]
    rfl
  refine ⟨t₁, t', hline, ⟨freshTerminals, initial_freshTerminals, runActs_run ?_ hline⟩, hwraps,
    hback⟩
  intro a ha t
  rw [List.eq_of_mem_replicate ha]
  exact ⟨trivial, id⟩

/-- The last letter of a row is taken back: the history pointer is after the row of the
cursor. -/
theorem history_behind :
    (∃ t, runActs (List.replicate 80 (.key plainKeys 30) ++ [.backspace]) freshTerminals =
      some t ∧ ¬ Mirrored t) ∧
      ¬ ∀ t, (terminalSystem OnDisplay).Reachable t → Mirrored t := by
  obtain ⟨t₁, t', hline, hreachable, hwraps, hback⟩ := typedLine_freshTerminals
  have htracking := Tracking.of_reachable hreachable
  have hbehind : ¬ Mirrored t' := by
    have hdisplay : OnDisplay t₁ .backspace := trivial
    intro hmirrored
    exact (mirrored_act_iff htracking hdisplay hback).1.mp hmirrored hwraps
  have hall : runActs (List.replicate 80 (.key plainKeys 30) ++ [.backspace]) freshTerminals =
      some t' := by
    rw [runActs_append, hline, Option.bind_some, runActs_cons hback]
    rfl
  refine ⟨⟨t', hall, hbehind⟩, ?_⟩
  intro h
  apply hbehind
  refine h t' ⟨freshTerminals, initial_freshTerminals, runActs_run ?_ hall⟩
  intro a ha t
  rcases List.mem_append.mp ha with ha | ha
  · rw [List.eq_of_mem_replicate ha]
    trivial
  · rw [List.mem_singleton.mp ha]
    trivial

/-- A row of letters that goes over the end of the row. -/
theorem history_mirrors_row :
    ∃ t, runActs (List.replicate 80 (.key plainKeys 30)) freshTerminals = some t ∧
      Mirrored t := by
  obtain ⟨t, -, hline, hreachable, -⟩ := typedLine_freshTerminals
  exact ⟨t, hline, (history_mirrors t hreachable).1⟩

end Terminal
end NochOS
