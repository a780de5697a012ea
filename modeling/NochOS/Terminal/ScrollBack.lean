import NochOS.Terminal.Mirror
import NochOS.Terminal.Regions

/-!
# Terminal - scrolling back and down again

A turn of the wheel upwards moves the screen down by a row and loads the top row from the history,
one downwards moves it up and loads the bottom row.  The rows that have left the screen at the
bottom come back as they stand in the history, and the row that a newline has just opened does not
stand there before something is printed in it.

Main results:

- Theorems `scrollUp_turned`, `scrollDown_turned`: one turn of the wheel on the screen.
- Structure `Scrolled`: the screen in the middle of turns up and down.
- Theorem `scrolling_back_iff`: when turns down take back as many turns up.
- Theorem `opened_line_lost`: a line just opened comes back with what the history held.
-/

namespace NochOS
namespace Terminal
namespace ScrollBack

open Library Process

/-! ## Loops over the screen -/

section Loops

/-- A loop that reads nothing but the history puts what it reads into the cells it goes over. -/
theorem store_steady (t : Terminals) {is : List Nat} (his : ∀ i ∈ is, i < numRows * numCols)
    {c : Buf → Nat → UInt8} (attr : Buf → Nat → UInt8)
    (hc : ∀ mem, ∀ i ∈ is, (∀ a, boundary1 ≤ a → mem a = t.mem a) → c mem i = c t.mem i)
    {j : Nat} (hj : j < numRows * numCols) :
    (t.store video is c attr).mem (cellAddr video j) =
      if j ∈ is then c t.mem j else t.mem (cellAddr video j) := by
  show is.foldl _ t.mem (cellAddr video j) = _
  have hloop : ∀ mem, (∀ a, boundary1 ≤ a → mem a = t.mem a) →
      is.foldl (fun mem i => storeCell mem video i (c mem i) (attr mem i)) mem
          (cellAddr video j) =
        if j ∈ is then c t.mem j else mem (cellAddr video j) := by
    induction is with
    | nil => exact fun _ _ => rfl
    | cons i is ih =>
        intro mem hfar
        have hi := his i List.mem_cons_self
        rw [List.foldl_cons, ih (fun k hk => his k (List.mem_cons_of_mem i hk))
          (fun mem k hk => hc mem k (List.mem_cons_of_mem i hk))
          _ fun a ha => (storeCell_far hi ha _ _).trans (hfar a ha), storeCell_char hi hj,
          hc mem i List.mem_cons_self hfar]
        by_cases hin : j ∈ is
        · rw [if_pos hin, if_pos (List.mem_cons_of_mem i hin)]
        · by_cases hij : j = i
          · rw [if_neg hin, if_pos hij, if_pos (List.mem_cons.mpr (Or.inl hij)), hij]
          · rw [if_neg hin, if_neg hij, if_neg fun h => (List.mem_cons.mp h).elim hij hin]
  exact hloop t.mem fun _ _ => rfl

/-- The first loop of `scroll_up`, from the last cell upwards, reads cells that it has not come
to. -/
theorem store_shiftDown (t : Terminals) (attr : Buf → Nat → UInt8) {n : Nat}
    (hn : n ≤ (numRows - 1) * numCols) {j : Nat} (hj : j < numRows * numCols) :
    (t.store video (List.range' (numRows * numCols - n) n).reverse
        (fun mem i => mem (cellAddr video (i - numCols))) attr).mem (cellAddr video j) =
      if numRows * numCols - n ≤ j then t.mem (cellAddr video (j - numCols))
      else t.mem (cellAddr video j) := by
  induction n generalizing j with
  | zero =>
      rw [if_neg (by omega)]
      rfl
  | succ n ih =>
      obtain ⟨m, hm⟩ : ∃ m, m = numRows * numCols - (n + 1) := ⟨_, rfl⟩
      have hcell : m < numRows * numCols := by
        simp only [numRows, numCols] at hn hm ⊢
        omega
      have hread : m - numCols < numRows * numCols := by omega
      have hnext : numRows * numCols - n = m + 1 := by
        simp only [numRows, numCols] at hn hm ⊢
        omega
      have hbelow : ¬ m + 1 ≤ m - numCols := by omega
      have hprev := fun {j} hj => @ih (Nat.le_of_succ_le hn) j hj
      rw [hnext] at hprev
      rw [← hm, List.range'_succ, List.reverse_cons]
      show (((List.range' (m + 1) n).reverse ++ [m]).foldl _ t.mem) (cellAddr video j) = _
      rw [List.foldl_append, List.foldl_cons, List.foldl_nil, storeCell_char hcell hj]
      change (if j = m then (t.store video (List.range' (m + 1) n).reverse
          (fun mem i => mem (cellAddr video (i - numCols))) attr).mem (cellAddr video (m - numCols))
        else (t.store video (List.range' (m + 1) n).reverse
          (fun mem i => mem (cellAddr video (i - numCols))) attr).mem (cellAddr video j)) = _
      rw [hprev hread, hprev hj, if_neg hbelow]
      by_cases hjm : j = m
      · rw [if_pos hjm, if_pos (Nat.le_of_eq hjm.symm), hjm]
      · by_cases hlt : m + 1 ≤ j
        · rw [if_neg hjm, if_pos hlt, if_pos (by omega)]
        · rw [if_neg hjm, if_neg hlt, if_neg (by omega)]

end Loops

/-! ## One turn of the wheel -/

section Turns

variable {t t' : Terminals}

/-- A turn upwards that has an effect: the place in the history moves up by a row, and the rows of
the screen move down. -/
structure TurnedUp (t t' : Terminals) : Prop where
  cur : t'.cur = t.cur
  term : t'.term t.cur =
    { t.term t.cur with screenHead := (t.term t.cur).screenHead - numCols }
  page : boundary1 ≤ (t.term t.cur).screenHead - numCols
  far : ∀ a, boundary1 ≤ a → t'.mem a = t.mem a
  chars : ∀ j < numRows * numCols, t'.mem (cellAddr video j) =
    if numCols ≤ j then t.mem (cellAddr video (j - numCols))
    else t.mem ((t.term t.cur).screenHead - numCols + j)

/-- A turn downwards that has an effect: the place in the history moves down by a row, and the
rows of the screen move up. -/
structure TurnedDown (t t' : Terminals) : Prop where
  cur : t'.cur = t.cur
  term : t'.term t.cur =
    { t.term t.cur with screenHead := (t.term t.cur).screenHead + numCols }
  page : (t.term t.cur).screenHead + numCols + numRows * numCols ≤ historyEnd
  far : ∀ a, boundary1 ≤ a → t'.mem a = t.mem a
  chars : ∀ j < numRows * numCols, t'.mem (cellAddr video j) =
    if j < (numRows - 1) * numCols then t.mem (cellAddr video (j + numCols))
    else t.mem ((t.term t.cur).screenHead + numCols + j)

theorem scrollUp_turned (h : scrollUp t = some t')
    (htop : (t.term t.cur).screenHead ≠ (t.term t.cur).boundary) : TurnedUp t t' := by
  obtain ⟨heq, -⟩ | ⟨-, hchanges⟩ := scrollUp_changes h
  · exact absurd heq htop
  have hlower : ∀ i ∈ (List.range' numCols ((numRows - 1) * numCols)).reverse,
      i < numRows * numCols := fun _ => lt_of_mem_lowerRows
  have hfirst : ∀ i ∈ List.range numCols, i < numRows * numCols := fun _ => lt_of_mem_firstRow
  have hcols : numRows * numCols - (numRows - 1) * numCols = numCols := by decide
  unfold scrollUp at h
  simp only [if_neg htop] at h
  split at h
  case isFalse => cases h
  case isTrue hpage =>
    have hmem : t' = _ := (Option.some.inj h).symm
    refine ⟨hchanges.cur, ?_, hpage.1, ?_, ?_⟩
    · rw [hchanges.term, Function.update_self]
    · intro a ha
      rw [hmem]
      refine (drawChar_far _ _ ha).trans ((store_far _ hfirst _ _ ha).trans ?_)
      exact (store_far _ hlower _ _ ha).trans (drawChar_far _ _ ha)
    · intro j hj
      rw [hmem]
      refine (drawChar_char _ _ hj).trans ((store_steady _ hfirst _ ?_ hj).trans ?_)
      · intro mem i _ hfar
        have haddr : boundary1 ≤ (t.term t.cur).screenHead - numCols + i :=
          Nat.le_trans hpage.1 (Nat.le_add_right _ _)
        exact hfar _ haddr
      · have hshift := fun x => store_shiftDown x (fun _ _ => t.attrib)
          (Nat.le_refl ((numRows - 1) * numCols)) hj
        rw [hcols] at hshift
        by_cases hrow : numCols ≤ j
        · rw [if_pos hrow, if_neg fun hin => Nat.not_lt.mpr hrow (List.mem_range.mp hin)]
          refine (hshift _).trans ?_
          rw [if_pos hrow]
          exact drawChar_char _ _ (by omega)
        · have hlt := Nat.lt_of_not_le hrow
          have haddr : boundary1 ≤ (t.term t.cur).screenHead - numCols + j :=
            Nat.le_trans hpage.1 (Nat.le_add_right _ _)
          rw [if_neg hrow, if_pos (List.mem_range.mpr hlt)]
          exact (store_far _ hlower _ _ haddr).trans (drawChar_far _ _ haddr)

theorem scrollDown_turned (h : scrollDown t = some t') (hback : ScrolledBack (t.term t.cur)) :
    TurnedDown t t' := by
  obtain ⟨hend, -⟩ | ⟨-, hchanges⟩ := scrollDown_changes h
  · exact absurd hback hend
  have hupper : ∀ i ∈ List.range ((numRows - 1) * numCols), i < numRows * numCols :=
    fun _ => lt_of_mem_upperRows
  have hlast : ∀ i ∈ List.range' ((numRows - 1) * numCols) numCols, i < numRows * numCols :=
    fun _ => lt_of_mem_lastRow
  unfold scrollDown at h
  simp only [if_neg (Nat.not_le.mpr hback)] at h
  split at h
  case isFalse => cases h
  case isTrue hpage =>
    have hmem : t' = _ := (Option.some.inj h).symm
    refine ⟨hchanges.cur, ?_, hpage.2, ?_, ?_⟩
    · rw [hchanges.term, Function.update_self]
    · intro a ha
      rw [hmem]
      refine (drawChar_far _ _ ha).trans ((store_far _ hlast _ _ ha).trans ?_)
      exact (store_far _ hupper _ _ ha).trans (drawChar_far _ _ ha)
    · have hbottom : ∀ i, (numRows - 1) * numCols ≤ i →
          boundary1 ≤ (t.term t.cur).screenHead + numCols + i := by
        intro i hi
        have hlow := hpage.1
        simp only [numRows, numCols] at hlow hi ⊢
        omega
      intro j hj
      rw [hmem]
      refine (drawChar_char _ _ hj).trans ((store_steady _ hlast _ ?_ hj).trans ?_)
      · intro mem i hi hfar
        exact hfar _ (hbottom i (List.mem_range'_1.mp hi).1)
      · by_cases hrow : j < (numRows - 1) * numCols
        · rw [if_pos hrow, if_neg fun hin => Nat.not_le.mpr hrow (List.mem_range'_1.mp hin).1]
          refine (store_shift _ _ (Nat.le_refl _) hj).trans ?_
          rw [if_pos hrow]
          refine drawChar_char _ _ ?_
          simp only [numRows, numCols] at hrow ⊢
          omega
        · have hge := Nat.le_of_not_lt hrow
          have hin : j ∈ List.range' ((numRows - 1) * numCols) numCols := by
            refine List.mem_range'_1.mpr ⟨hge, ?_⟩
            simp only [numRows, numCols] at hj ⊢
            omega
          rw [if_neg hrow, if_pos hin]
          exact (store_far _ hupper _ _ (hbottom j hge)).trans (drawChar_far _ _ (hbottom j hge))

end Turns

/-! ## Turns up and down -/

/-- So many calls of `scroll_up`, each of which has an effect. -/
def scrollUps : Nat → Terminals → Option Terminals
  | 0, t => some t
  | k + 1, t =>
      if (t.term t.cur).screenHead = (t.term t.cur).boundary then none
      else (scrollUp t).bind (scrollUps k)

/-- So many calls of `scroll_down`. -/
def scrollDowns : Nat → Terminals → Option Terminals
  | 0, t => some t
  | k + 1, t => (scrollDown t).bind (scrollDowns k)

/-- The displayed session after so many turns up and some down, where the screen is still so many
rows further up: what was on the screen all the time is the same, and the rest is loaded from the
history. -/
structure Scrolled (t : Terminals) (ups shift : Nat) (t' : Terminals) : Prop where
  shift_le : shift ≤ ups
  page : numCols * ups ≤ (t.term t.cur).screenHead - boundary1
  cur : t'.cur = t.cur
  term : t'.term t.cur =
    { t.term t.cur with screenHead := (t.term t.cur).screenHead - numCols * shift }
  far : ∀ a, boundary1 ≤ a → t'.mem a = t.mem a
  chars : ∀ j < numRows * numCols, t'.mem (cellAddr video j) =
    if numCols * shift ≤ j ∧ j - numCols * shift + numCols * ups < numRows * numCols then
      t.mem (cellAddr video (j - numCols * shift))
    else t.mem ((t.term t.cur).screenHead - numCols * shift + j)

section Runs

variable {t t₁ t' t'' : Terminals} {ups shift k n : Nat}

theorem Scrolled.refl (t : Terminals) : Scrolled t 0 0 t := by
  refine ⟨Nat.le_refl 0, Nat.zero_le _, rfl, rfl, fun _ _ => rfl, ?_⟩
  intro j hj
  rw [if_pos ⟨Nat.zero_le j, hj⟩]
  rfl

/-- Another turn up. -/
theorem Scrolled.up (h : Scrolled t ups ups t') (hturn : TurnedUp t' t'') :
    Scrolled t (ups + 1) (ups + 1) t'' := by
  have hcur := hturn.cur.trans h.cur
  have hterm := hturn.term
  have hpage := hturn.page
  have hchars := hturn.chars
  have hkept := h.page
  rw [h.cur, h.term] at hterm hpage hchars
  simp only [] at hterm hpage hchars
  have hlow : 0 < boundary1 := by decide
  have hcols : 0 < numCols := by decide
  have hmul : numCols * (ups + 1) = numCols * ups + numCols := Nat.mul_succ _ _
  have hsub : (t.term t.cur).screenHead - numCols * ups - numCols =
      (t.term t.cur).screenHead - numCols * (ups + 1) := by omega
  refine ⟨Nat.le_refl _, by omega, hcur, ?_, fun a ha => (hturn.far a ha).trans (h.far a ha), ?_⟩
  · rw [hterm, hsub]
  · intro j hj
    rw [hchars j hj, hmul]
    by_cases hrow : numCols ≤ j
    · rw [if_pos hrow, h.chars _ (by omega)]
      by_cases hin : numCols * ups + numCols ≤ j
      · rw [if_pos (by omega), if_pos (by omega)]
        congr 2
        omega
      · rw [if_neg (by omega), if_neg (by omega)]
        rw [show (t.term t.cur).screenHead - numCols * ups + (j - numCols) =
          (t.term t.cur).screenHead - (numCols * ups + numCols) + j by omega]
    · rw [if_neg hrow, if_neg (by omega), h.far _ (by omega)]
      rw [show (t.term t.cur).screenHead - numCols * ups - numCols + j =
        (t.term t.cur).screenHead - (numCols * ups + numCols) + j by omega]

/-- A turn down. -/
theorem Scrolled.down (h : Scrolled t ups (shift + 1) t') (hturn : TurnedDown t' t'') :
    Scrolled t ups shift t'' := by
  have hcur := hturn.cur.trans h.cur
  have hterm := hturn.term
  have hchars := hturn.chars
  have hle := h.shift_le
  have hpage := h.page
  rw [h.cur, h.term] at hterm hchars
  simp only [] at hterm hchars
  have hlow : 0 < boundary1 := by decide
  have hcols : 0 < numCols := by decide
  have hmul : numCols * (shift + 1) = numCols * shift + numCols := Nat.mul_succ _ _
  have hups : numCols * (shift + 1) ≤ numCols * ups := Nat.mul_le_mul_left numCols hle
  have hrows : numRows * numCols = (numRows - 1) * numCols + numCols := by decide
  have hadd : (t.term t.cur).screenHead - numCols * (shift + 1) + numCols =
      (t.term t.cur).screenHead - numCols * shift := by omega
  refine ⟨by omega, hpage, hcur, ?_, fun a ha => (hturn.far a ha).trans (h.far a ha), ?_⟩
  · rw [hterm, hadd]
  · intro j hj
    rw [hchars j hj, hadd]
    by_cases hrow : j < (numRows - 1) * numCols
    · rw [if_pos hrow, h.chars _ (by omega)]
      by_cases hin : numCols * shift ≤ j ∧ j - numCols * shift + numCols * ups < numRows * numCols
      · rw [if_pos (by omega), if_pos hin]
        congr 2
        omega
      · rw [if_neg (by omega), if_neg hin]
        rw [show (t.term t.cur).screenHead - numCols * (shift + 1) + (j + numCols) =
          (t.term t.cur).screenHead - numCols * shift + j by omega]
    · rw [if_neg hrow, if_neg (by omega), h.far _ (by omega)]

/-- Turns up that all have an effect. -/
theorem Scrolled.allUp (h : Scrolled t n n t') (hrun : scrollUps k t' = some t'') :
    Scrolled t (n + k) (n + k) t'' := by
  induction k generalizing n t' with
  | zero =>
      rw [← Option.some.inj hrun]
      exact h
  | succ k ih =>
      rw [scrollUps] at hrun
      split at hrun
      case isTrue => cases hrun
      case isFalse htop =>
        obtain ⟨t₁, hfirst, hrest⟩ := Option.bind_eq_some_iff.mp hrun
        rw [show n + (k + 1) = n + 1 + k by omega]
        exact ih (h.up (scrollUp_turned hfirst htop)) hrest

/-- There is a line of the history below the screen that begins a row further up, and the screen
ends in the page of the history. -/
structure HasBottom (t : Terminals) : Prop where
  ptr : (t.term t.cur).screenHead + numCols * (numRows - 2) < (t.term t.cur).historyPtr
  page : (t.term t.cur).screenHead + numRows * numCols ≤ historyEnd

/-- The screen that is so many rows further up is scrolled back exactly if there is a line of the
history below it. -/
theorem Scrolled.scrolledBack_iff (h : Scrolled t ups (shift + 1) t') :
    ScrolledBack (t'.term t'.cur) ↔
      (t.term t.cur).screenHead + numCols * (numRows - 2) <
        (t.term t.cur).historyPtr + numCols * shift := by
  have hpage := h.page
  have hups : numCols * (shift + 1) ≤ numCols * ups := Nat.mul_le_mul_left numCols h.shift_le
  have hlow : 0 < boundary1 := by decide
  rw [h.cur, h.term]
  unfold ScrolledBack
  simp only [numCols, numRows] at hpage hups ⊢
  omega

/-- As many turns down as the screen is further up. -/
theorem Scrolled.allDown (h : Scrolled t ups shift t') (hbottom : HasBottom t) :
    ∃ t'', scrollDowns shift t' = some t'' ∧ Scrolled t ups 0 t'' := by
  induction shift generalizing t' with
  | zero => exact ⟨t', rfl, h⟩
  | succ shift ih =>
      have hptr := hbottom.ptr
      have hpage := hbottom.page
      have hback : ScrolledBack (t'.term t'.cur) := h.scrolledBack_iff.mpr (by omega)
      have hups : numCols * (shift + 1) ≤ numCols * ups := Nat.mul_le_mul_left numCols h.shift_le
      have hkept := h.page
      obtain ⟨t₁, hdown⟩ : ∃ t₁, scrollDown t' = some t₁ := by
        unfold scrollDown
        refine ⟨_, (if_neg (Nat.not_le.mpr hback)).trans (if_pos ?_)⟩
        rw [h.cur, h.term]
        simp only [numCols, numRows, boundary1, historyEnd] at hups hkept hpage ⊢
        omega
      obtain ⟨t'', hrest, hscrolled⟩ := ih (h.down (scrollDown_turned hdown hback))
      refine ⟨t'', ?_, hscrolled⟩
      rw [scrollDowns, hdown, Option.bind_some, hrest]

/-- Turns down that come back, of which the last one may find nothing to turn to. -/
theorem Scrolled.allDown_le (h : Scrolled t ups shift t') (hn : n ≤ shift)
    (hrun : scrollDowns n t' = some t'') :
    ∃ rest, Scrolled t ups rest t'' ∧ (rest = 0 → shift = 0 ∨ HasBottom t) := by
  induction n generalizing shift t' with
  | zero =>
      rw [← Option.some.inj hrun]
      exact ⟨shift, h, Or.inl⟩
  | succ n ih =>
      obtain ⟨shift, rfl⟩ : ∃ s, shift = s + 1 := ⟨shift - 1, by omega⟩
      obtain ⟨t₁, hdown, hrest⟩ := Option.bind_eq_some_iff.mp hrun
      by_cases hback : ScrolledBack (t'.term t'.cur)
      · have hturn := scrollDown_turned hdown hback
        obtain ⟨rest, hscrolled, hzero⟩ := ih (h.down hturn) (by omega) hrest
        refine ⟨rest, hscrolled, fun h0 => Or.inr ?_⟩
        obtain rfl | hbottom := hzero h0
        · -- this turn was the last one
          have hpage := hturn.page
          have hkept := h.page
          have hups : numCols * (0 + 1) ≤ numCols * ups := Nat.mul_le_mul_left numCols h.shift_le
          rw [h.cur, h.term] at hpage
          refine ⟨?_, ?_⟩
          · have hptr := h.scrolledBack_iff.mp hback
            omega
          · simp only [numCols, numRows, boundary1] at hpage hkept hups ⊢
            omega
        · exact hbottom
      · obtain ⟨-, rfl⟩ | ⟨hback', -⟩ := scrollDown_changes hdown
        · exact ih h (by omega) hrest
        · exact absurd hback' hback

end Runs

/-! ## When the turns are taken back -/

/-- The row of the screen stands in the history, at its place. -/
def RowKept (t : Terminals) (r : Nat) : Prop :=
  ∀ i < numCols, t.mem ((t.term t.cur).screenHead + numCols * r + i) =
    t.mem (cellAddr video (numCols * r + i))

/-- The history goes on to the last row of the screen, and the rows that leave the screen at the
bottom stand in it. -/
structure BottomKept (k : Nat) (t : Terminals) : Prop extends HasBottom t where
  rows : ∀ r < numRows, numRows ≤ r + k → RowKept t r

/-- So many turns down bring back the place in the history and the characters of the screen. -/
def Restores (k : Nat) (t t₁ : Terminals) : Prop :=
  ∃ t₂, scrollDowns k t₁ = some t₂ ∧
    (t₂.term t₂.cur).screenHead = (t.term t.cur).screenHead ∧
    ∀ j < numRows * numCols, t₂.mem (cellAddr video j) = t.mem (cellAddr video j)

section Restoring

variable {t t₁ t₂ : Terminals} {k : Nat}

/-- The characters are those from before exactly if the rows that left the screen stand in the
history. -/
theorem Scrolled.chars_iff (h : Scrolled t k 0 t₂) :
    (∀ j < numRows * numCols, t₂.mem (cellAddr video j) = t.mem (cellAddr video j)) ↔
      ∀ r < numRows, numRows ≤ r + k → RowKept t r := by
  have hchars : ∀ j < numRows * numCols, t₂.mem (cellAddr video j) =
      if j + numCols * k < numRows * numCols then t.mem (cellAddr video j)
      else t.mem ((t.term t.cur).screenHead + j) := by
    intro j hj
    rw [h.chars j hj]
    simp only [Nat.mul_zero, Nat.sub_zero, Nat.zero_le, true_and]
  constructor
  · intro hsame r hr hout i hi
    have hj : numCols * r + i < numRows * numCols := by
      simp only [numRows, numCols] at hr hi ⊢
      omega
    have hleft : ¬ numCols * r + i + numCols * k < numRows * numCols := by
      simp only [numRows, numCols] at hout ⊢
      omega
    have hchar := hsame _ hj
    rw [hchars _ hj, if_neg hleft] at hchar
    rw [Nat.add_assoc]
    exact hchar
  · intro hkept j hj
    rw [hchars j hj]
    split
    · rfl
    · rename_i hleft
      have hsplit : numCols * (j / numCols) + j % numCols = j := Nat.div_add_mod j numCols
      have hmod : j % numCols < numCols := Nat.mod_lt _ (by decide)
      have hrow : j / numCols < numRows := by
        simp only [numRows, numCols] at hj ⊢
        omega
      have hout : numRows ≤ j / numCols + k := by
        simp only [numRows, numCols] at hleft ⊢
        omega
      have hchar := hkept _ hrow hout _ hmod
      rw [Nat.add_assoc, hsplit] at hchar
      exact hchar

/-- Turns up that had an effect are taken back by as many turns down exactly if there were none, or
the history goes on to the last row and has the rows that left the screen. -/
theorem restores_iff (hups : scrollUps k t = some t₁) :
    Restores k t t₁ ↔ k = 0 ∨ BottomKept k t := by
  have hscrolled : Scrolled t k k t₁ := by
    have h := (Scrolled.refl t).allUp hups
    rwa [Nat.zero_add] at h
  constructor
  · rintro ⟨t₂, hdowns, hhead, hsame⟩
    obtain ⟨rest, hrest, hzero⟩ := hscrolled.allDown_le (Nat.le_refl k) hdowns
    have hpage := hrest.page
    have hle := hrest.shift_le
    have hcols : 0 < numCols := by decide
    have hlow : 0 < boundary1 := by decide
    rw [hrest.cur, hrest.term] at hhead
    simp only [] at hhead
    have hdone : rest = 0 := by
      by_contra hne
      have hpos : numCols * 1 ≤ numCols * rest := Nat.mul_le_mul_left numCols (by omega)
      have hups' : numCols * rest ≤ numCols * k := Nat.mul_le_mul_left numCols hle
      omega
    subst hdone
    obtain hk | hbottom := hzero rfl
    · exact Or.inl hk
    · exact Or.inr ⟨hbottom, hrest.chars_iff.mp hsame⟩
  · rintro (rfl | ⟨hbottom, hkept⟩)
    · rw [← Option.some.inj hups]
      exact ⟨t, rfl, rfl, fun _ _ => rfl⟩
    · obtain ⟨t₂, hdowns, hback⟩ := hscrolled.allDown hbottom
      refine ⟨t₂, hdowns, ?_, hback.chars_iff.mpr hkept⟩
      rw [hback.cur, hback.term]
      rfl

end Restoring

/-! ## Screens that follow the output -/

/-- The screen begins where the region of its session does, or the cursor is in its last row. -/
def Settled (d : SessTerm) : Prop := d.screenHead = d.boundary ∨ d.vidY = numRows - 1

namespace Settled

variable {d : SessTerm}

theorem newline (h : Settled d) (hy : d.vidY < numRows) : Settled d.newline := by
  by_cases hlast : d.vidY + 1 < numRows
  · rw [SessTerm.newline_of_lt hlast]
    obtain hhead | hrow := h
    · exact Or.inl hhead
    · omega
  · have heq : d.vidY + 1 = numRows := by omega
    rw [SessTerm.newline_of_last heq]
    exact Or.inr (Nat.eq_sub_of_add_eq heq)

theorem putc (h : Settled d) (c : UInt8) (hx : d.vidX < numCols) (hy : d.vidY < numRows) :
    Settled (d.putc c) := by
  by_cases hc : c = 10 ∨ c = 13
  · rw [SessTerm.putc_of_newline hc]
    exact h.newline hy
  · rw [SessTerm.putc_of_char hc hx hy]
    exact h

theorem back (h : Settled d) (hx : d.vidX ≠ 0) : Settled d.back := by
  unfold SessTerm.back
  rw [if_pos hx]
  exact h

end Settled

/-- The displayed session of a run of output and keys. -/
structure Live (t : Terminals) : Prop extends Tracking t where
  settled : Settled (t.term t.cur)

namespace Live

variable {t t' : Terminals}

theorem newline (h : Live t) (hnewline : newline video t.cur t = some t') : Live t' := by
  refine ⟨h.toTracking.newline hnewline, ?_⟩
  have hchanges := newline_changes hnewline
  rw [reloaded_of_not h.not_scrolledBack] at hchanges
  rw [hchanges.cur, hchanges.term, Function.update_self]
  exact h.settled.newline h.vidY

theorem sessPutc (h : Live t) {c : UInt8} (hputc : sessPutc video c t.cur t = some t') :
    Live t' := by
  refine ⟨h.toTracking.sessPutc hputc, ?_⟩
  have hchanges := sessPutc_changes hputc
  rw [reloaded_of_not h.not_scrolledBack] at hchanges
  rw [hchanges.cur, hchanges.term, Function.update_self]
  exact h.settled.putc c h.vidX h.vidY

theorem putByte (h : Live t) {c : UInt8} (hput : putByte video t.cur c t = some t') :
    Live t' := by
  unfold Terminal.putByte at hput
  split at hput
  · obtain ⟨t₁, hputc, hnewline⟩ := Option.bind_eq_some_iff.mp hput
    rw [← (sessPutc_changes hputc).cur] at hnewline
    exact (h.sessPutc hputc).newline hnewline
  · exact h.sessPutc hput

theorem setInput (h : Live t) (i : Input) : Live (setInput t.cur i t) := by
  refine ⟨h.toTracking.setInput i, ?_⟩
  have hterm : (Terminal.setInput t.cur i t).term t.cur = _ := term_setInput t t.cur i
  show Settled ((Terminal.setInput t.cur i t).term t.cur)
  rw [hterm]
  exact h.settled

theorem clearScreen (h : Live t) : Live (clearScreen video t.cur t) := by
  refine ⟨h.toTracking.clearScreen, ?_⟩
  have hchanges := clearScreen_changes t video
  rw [hchanges.cur, hchanges.term, Function.update_self]
  exact Or.inl rfl

theorem printKey (h : Live t) {info : KeyInfo} {keycode : Nat}
    (hkey : printKey info keycode t = some t') : Live t' := by
  obtain ⟨-, rfl, -⟩ | ⟨-, rfl⟩ | ⟨-, -, hput⟩ := printKey_cases hkey
  · have hcleared := h.clearScreen
    have hcur := (clearScreen_changes t video).cur
    generalize Terminal.clearScreen video t.cur t = cleared at hcleared hcur
    have hkept := hcleared.setInput (printRegularKey (t.term t.cur).input info keycode)
    rw [hcur] at hkept
    exact hkept
  · exact h
  · exact (h.setInput _).putByte hput

theorem deleteKey (h : Live t) (hstays : ¬ WrapsBack t .backspace)
    (hdelete : deleteKey t = some t') : Live t' := by
  refine ⟨(h.deleteKey_iff hdelete).2 hstays, ?_⟩
  obtain ⟨-, rfl⟩ | ⟨htyped, t₁, hback, rfl, -⟩ := deleteKey_cases hdelete
  · exact h.settled
  · have hx : (t.term t.cur).vidX ≠ 0 := fun hx => hstays ⟨htyped, hx⟩
    have hchanges := backspace_changes hback
    rw [reloaded_of_not h.not_scrolledBack] at hchanges
    show Settled ((Terminal.setInput t.cur _ t₁).term t₁.cur)
    rw [hchanges.cur, term_setInput, hchanges.term, Function.update_self]
    exact h.settled.back hx

/-- The runs of output and keys in which no backspace goes back over the end of a row. -/
theorem of_reachable
    (h : (terminalSystem fun t a => OnDisplay t a ∧ ¬ WrapsBack t a).Reachable t) : Live t := by
  have hinv : (terminalSystem fun t a => OnDisplay t a ∧ ¬ WrapsBack t a).IsInvariant Live := by
    refine ⟨?_, ?_⟩
    · intro t hinit
      obtain ⟨-, -, -, hboundary, hhead, -⟩ := hinit.term t.cur hinit.displayed
      exact ⟨Tracking.of_initial hinit, Or.inl (hhead.trans hboundary.symm)⟩
    · rintro t t' hlive ⟨a, ⟨hdisplay, hstays⟩, hact⟩
      cases a with
      | output sessMem sessId c =>
          obtain ⟨rfl, rfl⟩ := hdisplay
          exact hlive.putByte hact
      | key info keycode => exact hlive.printKey hact
      | backspace => exact hlive.deleteKey hstays hact
      | enter => exact (hlive.setInput _).newline hact
      | panicScreen printed => exact absurd hdisplay id
      | panicClear => exact absurd hdisplay id
      | sessSwitch sessId => exact absurd hdisplay id
      | scrollUp => exact absurd hdisplay id
      | scrollDown => exact absurd hdisplay id
  exact hinv.of_reachable h

/-- On such a screen only the last row is not known to stand in the history. -/
theorem bottomKept_iff (h : Live t) {k : Nat} (hk : 0 < k) {t₁ : Terminals}
    (hups : scrollUps k t = some t₁) :
    BottomKept k t ↔ RowKept t (numRows - 1) ∧
      (t.term t.cur).screenHead + numRows * numCols ≤ historyEnd := by
  have hrow : (t.term t.cur).vidY = numRows - 1 := by
    apply h.settled.resolve_left
    intro htop
    obtain ⟨k, rfl⟩ : ∃ k', k = k' + 1 := ⟨k - 1, by omega⟩
    rw [scrollUps, if_pos htop] at hups
    cases hups
  constructor
  · rintro ⟨⟨-, hpage⟩, hkept⟩
    exact ⟨hkept _ (by decide) (by simp only [numRows]; omega), hpage⟩
  · rintro ⟨hlast, hpage⟩
    refine ⟨⟨?_, hpage⟩, ?_⟩
    · rw [h.ptr, hrow]
      simp only [numRows, numCols]
      omega
    · intro r hr _
      obtain hlt | rfl : r < numRows - 1 ∨ r = numRows - 1 := by omega
      · have habove := h.rows r (by rw [hrow]; exact hlt)
        exact habove
      · exact hlast

end Live

/-- A character puts the row of the cursor into the history. -/
theorem Live.rowKept_sessPutc {t t' : Terminals} (h : Live t) {c : UInt8}
    (hc : ¬ (c = 10 ∨ c = 13)) (hputc : Terminal.sessPutc video c t.cur t = some t') :
    RowKept t' (t.term t.cur).vidY := by
  have hchanges := sessPutc_changes hputc
  rw [reloaded_of_not h.not_scrolledBack] at hchanges
  have hterm := congrFun hchanges.term t.cur
  rw [Function.update_self, SessTerm.putc_of_char hc h.vidX h.vidY] at hterm
  have hhead : (t'.term t'.cur).screenHead = (t.term t.cur).screenHead := by
    rw [hchanges.cur, hterm]
  unfold Terminal.sessPutc at hputc
  rw [reload_some h.not_scrolledBack] at hputc
  simp only [Option.bind_eq_bind, Option.bind_some] at hputc
  rw [if_neg hc] at hputc
  obtain ⟨hcolumn, hrow⟩ := SessTerm.putc_row h.vidX h.vidY
  rw [hrow, hcolumn] at hputc
  obtain ⟨t₁, hwrite, heq⟩ := Option.bind_eq_some_iff.mp hputc
  have hstored : RowsMirrored ((t.store video [cursorCell (t.term t.cur)] (fun _ _ => c)
      fun _ _ => t.attrib).setTerm t.cur
        { t.term t.cur with vidX := ((t.term t.cur).vidX + 1) % numCols }).mem
      (t.term t.cur).screenHead (t.term t.cur).vidY :=
    rows_store h.rows h.head (cursorCell_lt h.vidX h.vidY) (row_le_cursorCell h.vidX h.vidY) _ _
  have hset : ((t.store video [cursorCell (t.term t.cur)] (fun _ _ => c)
      fun _ _ => t.attrib).setTerm t.cur
        { t.term t.cur with vidX := ((t.term t.cur).vidX + 1) % numCols }).term t.cur =
      { t.term t.cur with vidX := ((t.term t.cur).vidX + 1) % numCols } := Function.update_self ..
  generalize (t.store video [cursorCell (t.term t.cur)] (fun _ _ => c)
      fun _ _ => t.attrib).setTerm t.cur
        { t.term t.cur with vidX := ((t.term t.cur).vidX + 1) % numCols } = stored
    at hwrite hstored hset
  have hptr : (stored.term t.cur).historyPtr =
      (t.term t.cur).screenHead + numCols * (t.term t.cur).vidY := by
    rw [hset]
    exact h.ptr
  rw [hset] at hwrite
  have hrows := rows_writeHistory hstored h.head h.vidY hptr hwrite
  have hlow : (t₁.term t.cur).vidY < numRows := by
    rw [(writeHistory_changes hwrite).term, hset]
    exact h.vidY
  have hcheck : checkScroll video t.cur t₁ = t₁ := by
    unfold checkScroll
    rw [if_neg (Nat.not_le.mpr hlow)]
  rw [hcheck] at heq
  rw [← Option.some.inj heq] at hhead ⊢
  intro i hi
  rw [hhead]
  exact hrows _ (Nat.lt_succ_self _) i hi

/-- Turns of the wheel upwards that have an effect are taken back by as many downwards exactly if
there were none, or the history goes on to the last row of the screen and has the rows that left
it at the bottom; in a run of output and keys this is only a matter of the last row, and of
whether the screen ends in the page of the history. -/
theorem scrolling_back_iff (t : Terminals) (k : Nat) (t₁ : Terminals)
    (hups : scrollUps k t = some t₁) :
    (Restores k t t₁ ↔ k = 0 ∨ BottomKept k t) ∧
      ((terminalSystem fun t a => OnDisplay t a ∧ ¬ WrapsBack t a).Reachable t → 0 < k →
        (BottomKept k t ↔ RowKept t (numRows - 1) ∧
          (t.term t.cur).screenHead + numRows * numCols ≤ historyEnd)) :=
  ⟨restores_iff hups, fun hreachable hk => (Live.of_reachable hreachable).bottomKept_iff hk hups⟩

/-! ## A line that was just opened -/

section Opened

variable {t t' : Terminals}

/-- What is written behind a line of the history keeps its place. -/
theorem writeHistory_far {y s : Nat} (hy : y < numRows)
    (hwrite : writeHistory video y s t = some t') {a : Nat}
    (ha : (t.term s).historyPtr + numCols ≤ a) : t'.mem a = t.mem a := by
  unfold writeHistory at hwrite
  simp only [] at hwrite
  split at hwrite
  case isFalse => cases hwrite
  case isTrue hpage =>
    rw [← Option.some.inj hwrite]
    refine (historyLoop t.mem hpage.1 hy (Nat.le_refl _) a).trans ?_
    rw [if_neg (by omega)]

/-- A scroll leaves the last row blank. -/
theorem enableScroll_lastRow (t : Terminals) (s : Nat) {j : Nat}
    (hj : j ∈ List.range' ((numRows - 1) * numCols) numCols) :
    (enableScroll video s t).mem (cellAddr video j) = 32 := by
  have hcell := lt_of_mem_lastRow hj
  refine (drawChar_char _ _ hcell).trans ?_
  refine (store_steady _ (fun _ => lt_of_mem_lastRow) _ (fun _ _ _ _ => rfl) hcell).trans ?_
  rw [if_pos hj]

/-- A newline on the displayed screen writes a line of the history, and leaves the last row blank
if it scrolls. -/
theorem newline_mem (hback : ¬ ScrolledBack (t.term t.cur)) (hy : (t.term t.cur).vidY < numRows)
    (hact : t.act (.output video t.cur 10) = some t') :
    (∀ a, boundary1 ≤ a → (t.term t.cur).historyPtr + numCols ≤ a → t'.mem a = t.mem a) ∧
      ((t.term t.cur).vidY + 1 = numRows →
        ∀ j ∈ List.range' ((numRows - 1) * numCols) numCols,
          t'.mem (cellAddr video j) = 32) := by
  have hline : ¬ (lineCheck (t.term t.cur) ∧ (10 : UInt8) ≠ 10) := fun h => h.2 rfl
  change Terminal.putByte video t.cur 10 t = some t' at hact
  unfold Terminal.putByte Terminal.sessPutc at hact
  rw [if_neg hline, reload_some hback] at hact
  simp only [Option.bind_eq_bind, Option.bind_some, true_or, if_true] at hact
  obtain ⟨t₁, hwrite, heq⟩ := Option.bind_eq_some_iff.mp hact
  rw [← Option.some.inj heq]
  have hmoved : ((nextLine t.cur (updateHistoryptr t.cur t₁)).term t.cur).vidY =
      ((t.term t.cur).vidY + 1) % 2 ^ 32 := by
    simp only [nextLine, updateHistoryptr, Terminals.setTerm, (writeHistory_changes hwrite).term,
      Function.update_self]
  unfold checkScroll
  rw [hmoved]
  constructor
  · intro a hfar ha
    have hkept := writeHistory_far hy hwrite ha
    split
    · exact (enableScroll_far _ _ hfar).trans hkept
    · exact hkept
  · intro hlast j hj
    have hmod : ((t.term t.cur).vidY + 1) % 2 ^ 32 = numRows := by
      rw [hlast]
      rfl
    rw [hmod, if_pos (Nat.le_refl numRows)]
    exact enableScroll_lastRow _ _ hj

/-- So many empty lines are printed, and the history behind them is as it was. -/
structure Printed (t : Terminals) (n : Nat) : Prop extends Lined t n where
  behind : ∀ a, boundary1 + numCols * n ≤ a → t.mem a = 7

theorem Printed.not_scrolledBack {n : Nat} (h : Printed t n) (hn : n < numRows) :
    ¬ ScrolledBack (t.term t.cur) := by
  rw [h.displayed, h.first]
  show ¬ boundary1 + numCols * (numRows - 1) < boundary1 + numCols * n
  simp only [numCols, numRows] at hn ⊢
  omega

theorem Printed.newline {n : Nat} (h : Printed t n) (hn : n < numRows) :
    ∃ t', t.act (.output video 0 10) = some t' ∧ t'.cur = 0 ∧ t'.term 0 = (t.term 0).newline ∧
      t'.term 1 = freshTerminals.term 1 ∧
      (∀ a, boundary1 + numCols * (n + 1) ≤ a → t'.mem a = 7) ∧
      (n + 1 = numRows → ∀ j ∈ List.range' ((numRows - 1) * numCols) numCols,
        t'.mem (cellAddr video j) = 32) := by
  obtain ⟨t', hact, hcur, hfirst, hsecond⟩ := h.toLined.newline hn
  have hrow : (t.term t.cur).vidY = n := by
    rw [h.displayed, h.first]
  have hptr : (t.term t.cur).historyPtr = boundary1 + numCols * n := by
    rw [h.displayed, h.first]
  have hmem := hact
  rw [← h.displayed] at hmem
  obtain ⟨hfar, hblank⟩ := newline_mem (h.not_scrolledBack hn) (by rw [hrow]; exact hn) hmem
  rw [hrow] at hblank
  refine ⟨t', hact, hcur, hfirst, hsecond, ?_, hblank⟩
  intro a ha
  have hnext : numCols * (n + 1) = numCols * n + numCols := Nat.mul_succ _ _
  rw [hfar a (by omega) (by omega), h.behind a (by omega)]

/-- Another newline on the first screen. -/
theorem Printed.reachable {n : Nat} (h : Printed t n)
    (hreachable : (terminalSystem fun t a => OnDisplay t a ∧ ¬ WrapsBack t a).Reachable t)
    (hact : t.act (.output video 0 10) = some t') :
    (terminalSystem fun t a => OnDisplay t a ∧ ¬ WrapsBack t a).Reachable t' :=
  hreachable.step ⟨.output video 0 10, ⟨⟨rfl, h.displayed.symm⟩, id⟩, hact⟩

theorem printed_freshTerminals {n : Nat} (hn : n < numRows) :
    ∃ t, (terminalSystem fun t a => OnDisplay t a ∧ ¬ WrapsBack t a).Reachable t ∧
      Printed t n := by
  induction n with
  | zero =>
      have hcur : freshTerminals.cur = 0 := by decide +kernel
      refine ⟨freshTerminals, TransitionSystem.Reachable.init initial_freshTerminals,
        ⟨hcur, rfl, rfl⟩, ?_⟩
      intro a ha
      have hpointer : a ≠ video + cell 160 100 := by
        unfold boundary1 at ha
        have hcell : video + cell 160 100 < 0x02400000 := by decide
        omega
      have hcached : ¬ (getCachedVidmem 1 ≤ a ∧ a < getCachedVidmem 2) := by
        unfold boundary1 at ha
        have hlow : getCachedVidmem 2 < 0x02400000 := by decide
        omega
      show (if a = video + cell 160 100 then mouseIcon
        else if getCachedVidmem 1 ≤ a ∧ a < getCachedVidmem 2 then 0x70 else 7) = 7
      rw [if_neg hpointer, if_neg hcached]
  | succ n ih =>
      obtain ⟨t, hreachable, hprinted⟩ := ih (Nat.lt_of_succ_lt hn)
      obtain ⟨t', hact, hcur, hfirst, hsecond, hbehind, -⟩ :=
        hprinted.newline (Nat.lt_of_succ_lt hn)
      refine ⟨t', hprinted.reachable hreachable hact, ⟨hcur, ?_, hsecond⟩, hbehind⟩
      rw [hfirst, hprinted.first, SessTerm.newline_of_lt hn]
      rfl

end Opened

/-- After 25 newlines on the first screen there is a line above it, and the last row is blank, but
not in the history. -/
theorem opened_screen :
    ∃ t, (terminalSystem fun t a => OnDisplay t a ∧ ¬ WrapsBack t a).Reachable t ∧ t.cur = 0 ∧
      t.term 0 =
        { freshTerminals.term 0 with
          historyPtr := boundary1 + numCols * 25
          screenHead := boundary1 + numCols
          vidY := numRows - 1 } ∧
      ¬ RowKept t (numRows - 1) := by
  obtain ⟨t, hreachable, hprinted⟩ := @printed_freshTerminals 24 (by decide)
  obtain ⟨t', hact, hcur, hterm, -, hbehind, hblank⟩ := hprinted.newline (by decide)
  have hlast : (t.term 0).vidY + 1 = numRows := by
    rw [hprinted.first]
    rfl
  rw [SessTerm.newline_of_last hlast, hprinted.first] at hterm
  refine ⟨t', hprinted.reachable hreachable hact, hcur, hterm, ?_⟩
  intro hkept
  have hhead : (t'.term t'.cur).screenHead = boundary1 + numCols := by
    rw [hcur, hterm]
    rfl
  have hfirst := hkept 0 (by decide)
  have hcell : numCols * (numRows - 1) + 0 ∈ List.range' ((numRows - 1) * numCols) numCols := by
    decide
  rw [hhead, hblank rfl _ hcell, hbehind _ (by decide)] at hfirst
  exact absurd hfirst (by decide)

/-- The wheel turns such a screen up by a row. -/
theorem opened_scrollUps {t : Terminals}
    (hhead : (t.term t.cur).screenHead = boundary1 + numCols)
    (hboundary : (t.term t.cur).boundary = boundary1) : ∃ t₁, scrollUps 1 t = some t₁ := by
  have htop : (t.term t.cur).screenHead ≠ (t.term t.cur).boundary := by
    rw [hhead, hboundary]
    decide
  obtain ⟨t₁, hup⟩ : ∃ t₁, scrollUp t = some t₁ := by
    apply scrollUp_some htop
    · rw [hhead]
      decide
    · rw [hhead]
      decide
  refine ⟨t₁, ?_⟩
  rw [scrollUps, if_neg htop, hup]
  rfl

/-- After 25 newlines, a turn up and one down: the last row is the one that the newline has just
opened, and comes back with what the history held there. -/
theorem opened_line_lost :
    ¬ ∀ t k t₁, (terminalSystem fun t a => OnDisplay t a ∧ ¬ WrapsBack t a).Reachable t →
      scrollUps k t = some t₁ → Restores k t t₁ := by
  intro h
  obtain ⟨t, hreachable, hcur, hterm, hlost⟩ := opened_screen
  obtain ⟨t₁, hups⟩ := @opened_scrollUps t (by rw [hcur, hterm]) (by rw [hcur, hterm]; rfl)
  obtain hzero | hkept := (restores_iff hups).mp (h t 1 t₁ hreachable hups)
  · exact absurd hzero (by decide)
  · exact hlost (hkept.rows _ (by decide) (by decide))

/-- A letter in the line just opened puts it into the history, and the turns are taken back. -/
theorem scrolling_back_iff_letter :
    ∃ t t₁, scrollUps 1 t = some t₁ ∧ Restores 1 t t₁ := by
  obtain ⟨t, hreachable, hcur, hterm, -⟩ := opened_screen
  have hlive := Live.of_reachable hreachable
  have hroom : HasRoom (t.term t.cur) := by
    rw [hcur, hterm]
    exact ⟨Nat.le_add_right _ _, by decide⟩
  have hx : (t.term t.cur).vidX = 0 := by
    rw [hcur, hterm]
    rfl
  have hy : (t.term t.cur).vidY = numRows - 1 := by
    rw [hcur, hterm]
  obtain ⟨t', hputc⟩ := sessPutc_some (reload_some hlive.not_scrolledBack) hroom video 97
  have hact : t.act (.output video t.cur 97) = some t' := by
    change Terminal.putByte video t.cur 97 t = some t'
    unfold Terminal.putByte
    rw [if_neg fun hline => absurd (hx.symm.trans hline.1) (by decide)]
    exact hputc
  have hreachable' := hreachable.step ⟨.output video t.cur 97, ⟨⟨rfl, rfl⟩, id⟩, hact⟩
  have hkept := hlive.rowKept_sessPutc (by decide) hputc
  rw [hy] at hkept
  have hchanges := sessPutc_changes hputc
  rw [reloaded_of_not hlive.not_scrolledBack] at hchanges
  have hterm' := congrFun hchanges.term t.cur
  rw [Function.update_self, SessTerm.putc_of_char (by decide) hlive.vidX hlive.vidY] at hterm'
  have hhead : (t'.term t'.cur).screenHead = boundary1 + numCols := by
    rw [hchanges.cur, hterm', hcur, hterm]
  obtain ⟨t₁, hups⟩ := opened_scrollUps hhead (by rw [hchanges.cur, hterm', hcur, hterm]; rfl)
  have hiff := scrolling_back_iff t' 1 t₁ hups
  refine ⟨t', t₁, hups, hiff.1.mpr (Or.inr ((hiff.2 hreachable' Nat.one_pos).mpr ⟨hkept, ?_⟩))⟩
  rw [hhead]
  decide

end ScrollBack
end Terminal
end NochOS
