import NochOS.Terminal.Cursor

/-!
# Terminal - output in pieces

A character in the last column is followed by a newline, and a newline that comes next in the
same call of `terminal_fwrite` is left out.  The call remembers nothing for the next one.  This
module follows the column through the bytes of a call, and compares one call with two.

Main results:

- Definition `Column.step`: the column, the rows that are begun, and whether a row was filled.
- Theorem `terminalFwrite_append`: a call on two pieces.
- Theorem `output_splits_iff`: when two calls do what one does.
- Theorem `output_cut`: a newline that is cut off from its row.
-/

namespace NochOS
namespace Terminal
namespace Splitting

open Library Process

/-! ## The column -/

/-- The column of the cursor, whether a row has just been filled, and the rows begun so far. -/
structure Column where
  x : Nat
  full : Bool
  rows : Nat

/-- What one byte does: a newline behind a full row is left out, and a carriage return in the
last column begins two rows. -/
def Column.step (col : Column) (c : UInt8) : Column :=
  if col.full = true ∧ c = 10 then { col with full := false }
  else if col.x = numCols - 1 ∧ c ≠ 10 then
    { x := 0
      full := true
      rows := col.rows + if c = 13 then 2 else 1 }
  else if c = 10 ∨ c = 13 then
    { x := 0
      full := false
      rows := col.rows + 1 }
  else
    { col with
      x := (col.x + 1) % 2 ^ 32 % numCols
      full := false }

/-- The column after the bytes of a call. -/
def columnAfter (x : Nat) (buf : List UInt8) : Column := buf.foldl Column.step ⟨x, false, 0⟩

/-- The second piece begins with the newline of a row that the first one fills. -/
def CutsNewline (x : Nat) (a b : List UInt8) : Prop :=
  (columnAfter x a).full = true ∧ b.head? = some 10

/-- A row that has just been filled leaves the cursor in the first column. -/
theorem Column.step_full (col : Column) (c : UInt8) :
    (col.step c).full = true → (col.step c).x = 0 := by
  unfold Column.step
  by_cases hskip : col.full = true ∧ c = 10
  · rw [if_pos hskip]
    exact fun h => absurd h Bool.false_ne_true
  · rw [if_neg hskip]
    by_cases hlast : col.x = numCols - 1 ∧ c ≠ 10
    · rw [if_pos hlast]
      exact fun _ => rfl
    · rw [if_neg hlast]
      by_cases hline : c = 10 ∨ c = 13
      · rw [if_pos hline]
        exact fun _ => rfl
      · rw [if_neg hline]
        exact fun h => absurd h Bool.false_ne_true

theorem columnAfter_full {x : Nat} {buf : List UInt8} (h : (columnAfter x buf).full = true) :
    (columnAfter x buf).x = 0 := by
  rcases List.eq_nil_or_concat buf with rfl | ⟨front, c, rfl⟩
  · exact absurd h Bool.false_ne_true
  · unfold columnAfter at h ⊢
    rw [List.concat_eq_append, List.foldl_append] at h ⊢
    exact Column.step_full _ c h

/-! ## The cursor and the history pointer -/

section Follow

variable {t t' : Terminals} {sessMem s : Nat} {c : UInt8}

/-- A newline goes to the first column of the next row. -/
theorem newline_follows (h : newline sessMem s t = some t') :
    (t'.term s).vidX = 0 ∧ (t'.term s).historyPtr = (t.term s).historyPtr + numCols := by
  have hterm : t'.term s = (reloaded s t s).newline := by
    rw [(newline_changes h).term, Function.update_self]
  rw [hterm]
  refine ⟨?_, ?_⟩
  · unfold SessTerm.newline SessTerm.scrolled
    split
    · rfl
    · rfl
  · rw [SessTerm.historyPtr_newline, reloaded_eq]

/-- So does a newline character; another one moves the cursor on. -/
theorem sessPutc_follows (h : sessPutc sessMem c s t = some t') :
    (t'.term s).vidX =
        (if c = 10 ∨ c = 13 then 0 else ((t.term s).vidX + 1) % 2 ^ 32 % numCols) ∧
      (t'.term s).historyPtr =
        (t.term s).historyPtr + if c = 10 ∨ c = 13 then numCols else 0 := by
  have hterm : t'.term s = (reloaded s t s).putc c := by
    rw [(sessPutc_changes h).term, Function.update_self]
  have hcolumn := reloaded_cursor s s t
  rw [hterm]
  unfold SessTerm.putc
  by_cases hc : c = 10 ∨ c = 13
  · rw [if_pos hc, if_pos hc, if_pos hc]
    refine ⟨?_, ?_⟩
    · unfold SessTerm.newline SessTerm.scrolled
      split
      · rfl
      · rfl
    · rw [SessTerm.historyPtr_newline, reloaded_eq]
  · rw [if_neg hc, if_neg hc, if_neg hc, ← hcolumn.1]
    unfold SessTerm.scrolled
    split
    · exact ⟨rfl, by rw [reloaded_eq]; rfl⟩
    · exact ⟨rfl, by rw [reloaded_eq]; rfl⟩

/-- One round of the loop of `terminal_fwrite` that does not skip its byte. -/
theorem putByte_follows (h : putByte sessMem s c t = some t') (rows : Nat) {skip : Bool}
    (hskip : ¬ (skip = true ∧ c = 10)) :
    (t'.term s).vidX = (Column.step ⟨(t.term s).vidX, skip, rows⟩ c).x ∧
      (t'.term s).historyPtr + numCols * rows =
        (t.term s).historyPtr + numCols * (Column.step ⟨(t.term s).vidX, skip, rows⟩ c).rows ∧
      decide (lineCheck (t.term s) ∧ c ≠ 10) =
        (Column.step ⟨(t.term s).vidX, skip, rows⟩ c).full := by
  unfold putByte at h
  unfold Column.step
  simp only [if_neg hskip]
  by_cases hlast : lineCheck (t.term s) ∧ c ≠ 10
  · have hcolumn : (t.term s).vidX = numCols - 1 ∧ c ≠ 10 := hlast
    rw [if_pos hlast] at h
    rw [if_pos hcolumn]
    obtain ⟨t₁, hputc, hnewline⟩ := Option.bind_eq_some_iff.mp h
    obtain ⟨hx, hptr⟩ := newline_follows hnewline
    refine ⟨hx, ?_, decide_eq_true hlast⟩
    rw [hptr, (sessPutc_follows hputc).2]
    by_cases hreturn : c = 13
    · rw [if_pos (Or.inr hreturn), if_pos hreturn, Nat.mul_add]
      omega
    · rw [if_neg (not_or.mpr ⟨hlast.2, hreturn⟩), if_neg hreturn, Nat.mul_add]
      omega
  · have hcolumn : ¬ ((t.term s).vidX = numCols - 1 ∧ c ≠ 10) := hlast
    rw [if_neg hlast] at h
    rw [if_neg hcolumn]
    obtain ⟨hx, hptr⟩ := sessPutc_follows h
    by_cases hline : c = 10 ∨ c = 13
    · rw [if_pos hline] at hx hptr ⊢
      refine ⟨hx, ?_, decide_eq_false hlast⟩
      rw [hptr, Nat.mul_succ]
      omega
    · rw [if_neg hline] at hx hptr ⊢
      exact ⟨hx, by rw [hptr]; rfl, decide_eq_false hlast⟩

/-- The loop of `terminal_fwrite`. -/
theorem terminalFwrite_follows {skip : Bool} {buf : List UInt8}
    (h : terminalFwrite sessMem s skip buf t = some t') (rows : Nat) :
    (t'.term s).vidX = (buf.foldl Column.step ⟨(t.term s).vidX, skip, rows⟩).x ∧
      (t'.term s).historyPtr + numCols * rows = (t.term s).historyPtr +
        numCols * (buf.foldl Column.step ⟨(t.term s).vidX, skip, rows⟩).rows := by
  induction buf generalizing skip rows t with
  | nil =>
      rw [← Option.some.inj h]
      exact ⟨rfl, rfl⟩
  | cons c buf ih =>
      rw [terminalFwrite] at h
      rw [List.foldl_cons]
      by_cases hskip : skip = true ∧ c = 10
      · rw [if_pos hskip] at h
        have hstep : Column.step ⟨(t.term s).vidX, skip, rows⟩ c =
            ⟨(t.term s).vidX, false, rows⟩ := if_pos hskip
        rw [hstep]
        exact ih h rows
      · rw [if_neg hskip] at h
        obtain ⟨t₁, hput, hrest⟩ := Option.bind_eq_some_iff.mp h
        obtain ⟨hx, hptr, hfull⟩ := putByte_follows hput rows hskip
        generalize Column.step ⟨(t.term s).vidX, skip, rows⟩ c = col at hx hptr hfull
        rw [hfull] at hrest
        have hcol : (⟨(t₁.term s).vidX, col.full, col.rows⟩ : Column) = col := by rw [hx]
        obtain ⟨hx', hptr'⟩ := ih hrest col.rows
        rw [hcol] at hx' hptr'
        exact ⟨hx', by omega⟩

/-- A call on two pieces goes on with what the first one leaves. -/
theorem terminalFwrite_append {skip : Bool} (a b : List UInt8) (rows : Nat) :
    terminalFwrite sessMem s skip (a ++ b) t =
      (terminalFwrite sessMem s skip a t).bind (terminalFwrite sessMem s
        (a.foldl Column.step ⟨(t.term s).vidX, skip, rows⟩).full b) := by
  induction a generalizing skip rows t with
  | nil => rfl
  | cons c a ih =>
      rw [List.cons_append, terminalFwrite, terminalFwrite, List.foldl_cons]
      by_cases hskip : skip = true ∧ c = 10
      · have hstep : Column.step ⟨(t.term s).vidX, skip, rows⟩ c =
            ⟨(t.term s).vidX, false, rows⟩ := if_pos hskip
        rw [if_pos hskip, if_pos hskip, hstep]
        exact ih rows
      · rw [if_neg hskip, if_neg hskip]
        cases hput : putByte sessMem s c t with
        | none => rfl
        | some t₁ =>
            obtain ⟨hx, -, hfull⟩ := putByte_follows hput rows hskip
            generalize Column.step ⟨(t.term s).vidX, skip, rows⟩ c = col at hx hfull
            rw [Option.bind_some, Option.bind_some, hfull, ih col.rows, hx]

end Follow

/-! ## One call and two -/

/-- `terminal_fwrite` of a process in a session, whose screen is at `sessMem`. -/
def fwrite (sessMem s : Nat) (buf : List UInt8) (t : Terminals) : Option Terminals :=
  terminalFwrite sessMem s false buf t

/-- One call after the other. -/
def fwriteTwice (sessMem s : Nat) (a b : List UInt8) (t : Terminals) : Option Terminals :=
  (fwrite sessMem s a t).bind (fwrite sessMem s b)

/-- Two terminals agree on the screen and the cursor of a session and on the history. -/
structure SameOutput (sessMem s : Nat) (t t' : Terminals) : Prop where
  chars : ∀ i < numRows * numCols, t.mem (cellAddr sessMem i) = t'.mem (cellAddr sessMem i)
  attribs : ∀ i < numRows * numCols,
    t.mem ((cellAddr sessMem i + 1) % 2 ^ 32) = t'.mem ((cellAddr sessMem i + 1) % 2 ^ 32)
  vidX : (t.term s).vidX = (t'.term s).vidX
  vidY : (t.term s).vidY = (t'.term s).vidY
  screenHead : (t.term s).screenHead = (t'.term s).screenHead
  historyPtr : (t.term s).historyPtr = (t'.term s).historyPtr
  history : ∀ a, boundary1 ≤ a → a < historyEnd → t.mem a = t'.mem a

theorem SameOutput.refl (sessMem s : Nat) (t : Terminals) : SameOutput sessMem s t t :=
  ⟨fun _ _ => rfl, fun _ _ => rfl, rfl, rfl, rfl, rfl, fun _ _ _ => rfl⟩

section Calls

variable {t t₁ t₂ : Terminals} {sessMem s : Nat} {a b : List UInt8}

/-- A newline is only skipped where one comes first. -/
theorem terminalFwrite_skip {skip : Bool} (h : ¬ (skip = true ∧ b.head? = some 10)) :
    terminalFwrite sessMem s skip b t = terminalFwrite sessMem s false b t := by
  cases b with
  | nil => rfl
  | cons c b =>
      have hskip : ¬ (skip = true ∧ c = 10) := fun hc => h ⟨hc.1, congrArg some hc.2⟩
      have hfalse : ¬ (false = true ∧ c = 10) := fun hc => Bool.false_ne_true hc.1
      rw [terminalFwrite, terminalFwrite, if_neg hskip, if_neg hfalse]

/-- Without a newline that is cut off, two calls do what one does. -/
theorem fwriteTwice_eq (h : ¬ CutsNewline (t.term s).vidX a b) :
    fwriteTwice sessMem s a b t = fwrite sessMem s (a ++ b) t := by
  unfold fwriteTwice fwrite
  rw [terminalFwrite_append a b 0]
  congr 1
  funext t'
  exact (terminalFwrite_skip h).symm

/-- A newline that is cut off begins one more row. -/
theorem historyPtr_of_cuts (h : CutsNewline (t.term s).vidX a b)
    (htwice : fwriteTwice sessMem s a b t = some t₁)
    (honce : fwrite sessMem s (a ++ b) t = some t₂) :
    (t₁.term s).historyPtr = (t₂.term s).historyPtr + numCols := by
  obtain ⟨hfull, hhead⟩ := h
  obtain ⟨b, rfl⟩ : ∃ rest, b = 10 :: rest := by
    cases b with
    | nil => exact absurd hhead (by simp)
    | cons c rest => exact ⟨rest, congrArg (· :: rest) (Option.some.inj hhead)⟩
  obtain ⟨t', hfirst, hsecond⟩ := Option.bind_eq_some_iff.mp htwice
  have hx := (terminalFwrite_follows hfirst 0).1
  have hcolumn : (t'.term s).vidX = 0 := hx.trans (columnAfter_full hfull)
  unfold fwrite at honce hfirst hsecond
  rw [terminalFwrite_append a (10 :: b) 0, hfirst, Option.bind_some] at honce
  have hfull' : (a.foldl Column.step ⟨(t.term s).vidX, false, 0⟩).full = true := hfull
  rw [hfull', terminalFwrite, if_pos ⟨rfl, rfl⟩] at honce
  -- from here on both go through the same bytes from the same column
  have hone := (terminalFwrite_follows honce 1).2
  have htwo := (terminalFwrite_follows hsecond 0).2
  have hstep : Column.step ⟨0, false, 0⟩ 10 = ⟨0, false, 1⟩ := rfl
  rw [hcolumn] at hone htwo
  rw [List.foldl_cons, hstep] at htwo
  omega

end Calls

/-- Two calls leave the same screen, cursor and history as one call on the concatenation exactly
when they do not cut off the newline of a row that the first one fills. -/
theorem output_splits_iff (sessMem s : Nat) (a b : List UInt8) (t : Terminals) :
    (¬ CutsNewline (t.term s).vidX a b →
        fwriteTwice sessMem s a b t = fwrite sessMem s (a ++ b) t) ∧
      ∀ t₁ t₂, fwriteTwice sessMem s a b t = some t₁ → fwrite sessMem s (a ++ b) t = some t₂ →
        (SameOutput sessMem s t₁ t₂ ↔ ¬ CutsNewline (t.term s).vidX a b) := by
  refine ⟨fwriteTwice_eq, ?_⟩
  intro t₁ t₂ htwice honce
  constructor
  · intro hsame hcuts
    have hptr := historyPtr_of_cuts hcuts htwice honce
    have hcols : 0 < numCols := by decide
    rw [hsame.historyPtr] at hptr
    omega
  · intro hcuts
    rw [fwriteTwice_eq hcuts, honce] at htwice
    rw [Option.some.inj htwice]
    exact SameOutput.refl sessMem s t₁

/-- The fresh terminal with the cursor in the last column. -/
def lastColumn : Terminals :=
  freshTerminals.setTerm 0 { freshTerminals.term 0 with vidX := numCols - 1 }

/-- A letter and a newline are written from the last column, in one call and in two. -/
theorem output_cut :
    ∃ t₁ t₂, fwriteTwice video 0 [97] [10] lastColumn = some t₁ ∧
      fwrite video 0 ([97] ++ [10]) lastColumn = some t₂ ∧ ¬ SameOutput video 0 t₁ t₂ := by
  have hterm : lastColumn.term 0 = { freshTerminals.term 0 with vidX := numCols - 1 } := by
    show Function.update freshTerminals.term 0 _ 0 = _
    exact Function.update_self ..
  have hletter : ¬ ((97 : UInt8) = 10 ∨ (97 : UInt8) = 13) := by decide
  have hback : ¬ ScrolledBack (lastColumn.term 0) := by
    rw [hterm]
    exact not_scrolledBack_of_eq rfl
  have hroom : HasRoom (lastColumn.term 0) := by
    rw [hterm]
    exact hasRoom_of_boundary (s := 0) (by decide) rfl
  have hx : (lastColumn.term 0).vidX < numCols := by
    rw [hterm]
    show numCols - 1 < numCols
    decide
  have hy : (lastColumn.term 0).vidY < numRows := by
    rw [hterm]
    show 0 < numRows
    decide
  have hreturn : (97 : UInt8) ≠ 13 ∧ (10 : UInt8) ≠ 13 := by decide
  obtain ⟨t, hput, -, hfilled⟩ := putByte_some hback hroom hx hy hreturn.1 video
  have hlast : (lastColumn.term 0).vidX + 1 = numCols := by
    rw [hterm]
    rfl
  have hrow : (lastColumn.term 0).vidY + 1 < numRows := by
    rw [hterm]
    show 0 + 1 < numRows
    decide
  rw [SessTerm.put_of_last hletter hlast hrow, hterm] at hfilled
  -- the letter has begun a row, and the newline begins another one
  have hback' : ¬ ScrolledBack (t.term 0) := by
    rw [hfilled]
    show ¬ boundaryOf 0 + numCols * (numRows - 1) < boundaryOf 0 + numCols
    simp only [numCols, numRows]
    omega
  have hroom' : HasRoom (t.term 0) := by
    rw [hfilled]
    show boundary1 ≤ boundaryOf 0 + numCols ∧ boundaryOf 0 + numCols + numCols ≤ historyEnd
    decide
  have hx' : (t.term 0).vidX < numCols := by
    rw [hfilled]
    show 0 < numCols
    decide
  have hy' : (t.term 0).vidY < numRows := by
    rw [hfilled]
    show 0 + 1 < numRows
    decide
  obtain ⟨t', hput', -⟩ := putByte_some hback' hroom' hx' hy' hreturn.2 video
  have hfull : lineCheck (lastColumn.term 0) ∧ (97 : UInt8) ≠ 10 := by
    rw [hterm]
    exact ⟨rfl, by decide⟩
  have htwice : fwriteTwice video 0 [97] [10] lastColumn = some t' := by
    unfold fwriteTwice fwrite
    simp [terminalFwrite, hput, hput']
  have honce : fwrite video 0 ([97] ++ [10]) lastColumn = some t := by
    unfold fwrite
    simp [terminalFwrite, hput, hfull]
  refine ⟨t', t, htwice, honce, ?_⟩
  intro hsame
  have hcuts : CutsNewline (lastColumn.term 0).vidX [97] [10] := by
    rw [hterm]
    exact ⟨rfl, rfl⟩
  have hptr := historyPtr_of_cuts hcuts htwice honce
  have hcols : 0 < numCols := by decide
  rw [hsame.historyPtr] at hptr
  omega

end Splitting
end Terminal
end NochOS
