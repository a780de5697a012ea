import NochOS.Library.Traced
import NochOS.Process.FailedExecute

/-!
# Processes - the command line

This module embeds `parse_cmd` and `parse_arg`, with a trace of the bytes of the command that
they read and of the bytes that they store.  Both copy a field of the command, which ends at a
space, at a newline or at the end of the string; `parse_arg` looks two characters ahead for the
name of a file that the output goes to.

Main results:

- Definitions `parseCmd`, `parseArg`, `parseLine`: the functions with their traces.
- Theorem `copyField_spec`: what a copy of a field leaves and which bytes it touches.
- Theorem `parseLine_recovers`: the tokens of a line are recovered.
- Theorem `parseLine_within_iff`: when the stores stay inside the buffers.
-/

namespace NochOS
namespace Process
namespace CommandLine

open Library
open Loading (space newline)

/-- `ARG_WORD_SIZE`. -/
def argWordSize : Nat := 128

/-- `'>'`. -/
def greater : UInt8 := 62

/-! ## The functions -/

/-- A byte that is touched: of the command, of `parsed_cmd`, of the field `arg` of the process,
or of `fout`. -/
inductive Access
  | src (idx : Nat)
  | cmd (idx : Nat)
  | arg (idx : Nat)
  | fout (idx : Nat)

/-- The loops of `parse_cmd` and `parse_arg` on `src + start`: a field is copied to `dst + i` and
terminated.  The list ends where the string does. -/
def copyField (store : Nat → Access) : List UInt8 → Nat → Nat → Buf → Traced Access (Nat × Buf)
  | [], start, i, dst => do
      Traced.emit (.src start)
      Traced.emit (store i)
      pure (start, Function.update dst i 0)
  | c :: src, start, i, dst => do
      Traced.emit (.src start)
      Traced.emit (store i)
      if c = space ∨ c = newline then pure (start, Function.update dst i 0)
      else copyField store src (start + 1) (i + 1) (Function.update dst i c)

/-- `parse_cmd`; a null pointer is no string. -/
def parseCmd (src : Option (List UInt8)) (cmd : Buf) : Traced Access (Int × Buf) :=
  match src with
  | none => pure (-1, cmd)
  | some src => do
      let r ← copyField .cmd src 0 0 cmd
      pure ((r.1 : Int), r.2)

/-- `src[i] == '>' && src[i + 1] == ' '`. -/
def redirects (src : List UInt8) (i : Nat) : Traced Access Bool := do
  Traced.emit (.src i)
  if src.getD i 0 = greater then do
    Traced.emit (.src (i + 1))
    pure (decide (src.getD (i + 1) 0 = space))
  else pure false

/-- The end of `parse_arg`, behind the space after the argument. -/
def parseOutput (src : List UInt8) (fout : Buf) (i : Nat) : Traced Access Buf := do
  let second ← redirects src i
  if second then do
    let r ← copyField .fout (src.drop (i + 2)) (i + 2) 0 fout
    pure r.2
  else pure fout

/-- The part of `parse_arg` from the argument on. -/
def parseField (src : List UInt8) (arg fout : Buf) (start : Nat) : Traced Access (Buf × Buf) := do
  let r ← copyField .arg (src.drop start) start 0 arg
  if src.getD r.1 0 = space then do
    let fout ← parseOutput src fout (r.1 + 1)
    pure (r.2, fout)
  else pure (r.2, fout)

/-- `parse_arg`: the field `arg` and the name behind the sign.  Its callers begin behind the
first field, so the step back is not made at the start of the string. -/
def parseArg (src : List UInt8) (arg fout : Buf) (startIdx : Nat) : Traced Access (Buf × Buf) := do
  -- `strlen`
  Traced.emitAll ((List.range (src.length + 1)).map Access.src)
  if src.length ≤ startIdx then pure (arg, fout)
  else do
    let first ← redirects src startIdx
    parseField src arg fout (if first then startIdx - 1 else startIdx)

/-- What `sys_execute` does with its command, up to the end of the parsing, when the program is
found. -/
def parseLine (src : Option (List UInt8)) (cmd arg fout : Buf) :
    Traced Access (Int × Buf × Buf × Buf) := do
  let r ← parseCmd src cmd
  match src with
  | none => pure (r.1, r.2, arg, fout)
  | some src => do
      Traced.emit (.fout 0)
      let p ← parseArg src arg (Function.update fout 0 0) (r.1.toNat + 1)
      pure (r.1, r.2, p.1, p.2)

/-! ## Fields -/

/-- What a copy takes from a string: all that is before the next terminator. -/
def field (src : List UInt8) : List UInt8 := src.takeWhile fun c => c ≠ space ∧ c ≠ newline

theorem field_cons_of_stop {c : UInt8} (h : c = space ∨ c = newline) (src : List UInt8) :
    field (c :: src) = [] := by
  unfold field
  rw [List.takeWhile_cons_of_neg]
  rcases h with rfl | rfl
  · simp
  · simp

theorem field_cons {c : UInt8} (h : ¬ (c = space ∨ c = newline)) (src : List UInt8) :
    field (c :: src) = c :: field src := by
  unfold field
  rw [List.takeWhile_cons_of_pos]
  exact decide_eq_true (not_or.mp h)

/-- A text without terminators, and what comes behind it. -/
theorem field_append {s : List UInt8} (hs : ∀ c ∈ s, ¬ (c = space ∨ c = newline))
    (t : List UInt8) : field (s ++ t) = s ++ field t :=
  List.takeWhile_append_of_pos fun c hc => decide_eq_true (not_or.mp (hs c hc))

theorem length_field_le (src : List UInt8) : (field src).length ≤ src.length :=
  (List.takeWhile_sublist _).length_le

/-- The copy ends behind the field, which it leaves with a zero; it reads the field and its
terminator, and stores as many bytes. -/
theorem copyField_spec (store : Nat → Access) (src : List UInt8) (start i : Nat) (dst : Buf) :
    (copyField store src start i dst).value =
        some (start + (field src).length, strncpy dst i (field src) ((field src).length + 1)) ∧
      ∀ e, e ∈ (copyField store src start i dst).events ↔
        ∃ j ≤ (field src).length, e = .src (start + j) ∨ e = store (i + j) := by
  induction src generalizing start i dst with
  | nil =>
      refine ⟨?_, ?_⟩
      · simp [copyField, field, update_eq_strncpy]
      · intro e
        simp [copyField, field]
  | cons c src ih =>
      rw [copyField]
      by_cases hstop : c = space ∨ c = newline
      · rw [if_pos hstop, field_cons_of_stop hstop]
        refine ⟨?_, ?_⟩
        · simp [update_eq_strncpy]
        · intro e
          simp
      · rw [if_neg hstop, field_cons hstop]
        obtain ⟨hvalue, hevents⟩ := ih (start + 1) (i + 1) (Function.update dst i c)
        refine ⟨?_, ?_⟩
        · simp only [Traced.value_emit_bind]
          rw [hvalue, strncpy_cons, List.length_cons]
          congr 2
          omega
        · intro e
          simp only [Traced.events_emit_bind, List.mem_cons, hevents, List.length_cons]
          constructor
          · rintro (rfl | rfl | ⟨j, hj, h⟩)
            · exact ⟨0, Nat.zero_le _, Or.inl rfl⟩
            · exact ⟨0, Nat.zero_le _, Or.inr rfl⟩
            · refine ⟨j + 1, Nat.succ_le_succ hj, ?_⟩
              rw [Nat.add_assoc start 1 j, Nat.add_assoc i 1 j, Nat.add_comm 1 j] at h
              exact h
          · rintro ⟨j, hj, h⟩
            cases j with
            | zero => exact h.imp id Or.inl
            | succ j =>
                refine Or.inr (Or.inr ⟨j, Nat.le_of_succ_le_succ hj, ?_⟩)
                rw [Nat.add_assoc start 1 j, Nat.add_assoc i 1 j, Nat.add_comm 1 j]
                exact h

/-! ## The parts of a line -/

/-- The sign for the output stands here, with a space behind it. -/
def OpensOutput (src : List UInt8) (i : Nat) : Prop :=
  src.getD i 0 = greater ∧ src.getD (i + 1) 0 = space

instance (src : List UInt8) (i : Nat) : Decidable (OpensOutput src i) :=
  inferInstanceAs (Decidable (_ ∧ _))

/-- Where the argument begins for a parse from `i` on: an argument that is left out ends at the
space before the sign. -/
def argStart (src : List UInt8) (i : Nat) : Nat := if OpensOutput src i then i - 1 else i

/-- The argument. -/
def argField (src : List UInt8) (i : Nat) : List UInt8 := field (src.drop (argStart src i))

/-- The index of the argument's terminator. -/
def argEnd (src : List UInt8) (i : Nat) : Nat := argStart src i + (argField src i).length

/-- The name of a file follows the argument. -/
def HasOutput (src : List UInt8) (i : Nat) : Prop :=
  src.getD (argEnd src i) 0 = space ∧ OpensOutput src (argEnd src i + 1)

instance (src : List UInt8) (i : Nat) : Decidable (HasOutput src i) :=
  inferInstanceAs (Decidable (_ ∧ _))

/-- The name of the file. -/
def outField (src : List UInt8) (i : Nat) : List UInt8 :=
  if HasOutput src i then field (src.drop (argEnd src i + 3)) else []

section Parts

variable {src : List UInt8} {i : Nat}

/-- A character other than zero is before the end of the string. -/
theorem lt_of_getD {c : UInt8} (h : src.getD i 0 = c) (hc : c ≠ 0) : i < src.length := by
  by_contra hlt
  rw [List.getD_eq_getElem?_getD, List.getElem?_eq_none (Nat.le_of_not_lt hlt)] at h
  exact hc h.symm

theorem OpensOutput.lt (h : OpensOutput src i) : i + 1 < src.length :=
  lt_of_getD h.2 (by decide)

theorem argStart_le (h : i ≤ src.length) : argStart src i ≤ src.length := by
  unfold argStart
  split
  · omega
  · exact h

/-- A field that begins in the string ends in it. -/
theorem field_drop_le (h : i ≤ src.length) : i + (field (src.drop i)).length ≤ src.length := by
  have hle := length_field_le (src.drop i)
  rw [List.length_drop] at hle
  omega

end Parts

/-! ## What the functions do -/

/-- A program touches bytes of the string, and beside them exactly the bytes in `P`. -/
def Stores (src : List UInt8) {α : Type} (m : Traced Access α) (P : Access → Prop) : Prop :=
  (∀ e ∈ m.events, (∃ j ≤ src.length, e = .src j) ∨ P e) ∧ ∀ e, P e → e ∈ m.events

section Stores

variable {src : List UInt8} {α β : Type} {m : Traced Access α} {P Q : Access → Prop}

theorem stores_pure (a : α) : Stores src (pure a) fun _ => False :=
  ⟨fun _ he => absurd he List.not_mem_nil, fun _ he => absurd he id⟩

theorem Stores.congr (h : Stores src m P) (hPQ : ∀ e, P e ↔ Q e) : Stores src m Q :=
  ⟨fun e he => (h.1 e he).imp_right (hPQ e).mp, fun e he => h.2 e ((hPQ e).mpr he)⟩

/-- One program after the other. -/
theorem Stores.bind (h : Stores src m P) {a : α} (hvalue : m.value = some a)
    {k : α → Traced Access β} (hk : Stores src (k a) Q) :
    Stores src (m >>= k) fun e => P e ∨ Q e := by
  unfold Stores
  rw [Traced.events_bind_some hvalue]
  refine ⟨?_, ?_⟩
  · intro e he
    rcases List.mem_append.mp he with he | he
    · exact (h.1 e he).imp_right Or.inl
    · exact (hk.1 e he).imp_right Or.inr
  · rintro e (he | he)
    · exact List.mem_append_left _ (h.2 e he)
    · exact List.mem_append_right _ (hk.2 e he)

/-- A program that only reads before another one. -/
theorem Stores.read_bind (h : Stores src m fun _ => False) {a : α} (hvalue : m.value = some a)
    {k : α → Traced Access β} (hk : Stores src (k a) Q) : Stores src (m >>= k) Q :=
  (h.bind hvalue hk).congr fun _ => or_iff_right id

end Stores

section Spec

variable {src : List UInt8} {i : Nat}

theorem value_redirects (src : List UInt8) (i : Nat) :
    (redirects src i).value = some (decide (OpensOutput src i)) := by
  unfold redirects OpensOutput
  by_cases h : src.getD i 0 = greater
  · simp only [if_pos h]
    simp only [Traced.value_emit_bind, Traced.value_pure, h, true_and]
  · simp only [if_neg h]
    simp only [Traced.value_emit_bind, Traced.value_pure, h, false_and, decide_false]

theorem stores_redirects (hi : i ≤ src.length) : Stores src (redirects src i) fun _ => False := by
  refine ⟨?_, fun e he => absurd he id⟩
  intro e he
  left
  unfold redirects at he
  by_cases h : src.getD i 0 = greater
  · have hlt := lt_of_getD h (by decide)
    simp only [if_pos h, Traced.events_emit_bind, Traced.events_pure, List.mem_cons,
      List.not_mem_nil, or_false] at he
    rcases he with rfl | rfl
    · exact ⟨i, hi, rfl⟩
    · exact ⟨i + 1, hlt, rfl⟩
  · simp only [if_neg h, Traced.events_emit_bind, Traced.events_pure, List.mem_singleton] at he
    exact ⟨i, hi, he⟩

theorem stores_copyField (store : Nat → Access) (hi : i ≤ src.length) (dst : Buf) :
    Stores src (copyField store (src.drop i) i 0 dst) fun e =>
      ∃ j ≤ (field (src.drop i)).length, e = store j := by
  have hend := field_drop_le hi
  have hevents := (copyField_spec store (src.drop i) i 0 dst).2
  refine ⟨?_, ?_⟩
  · intro e he
    obtain ⟨j, hj, rfl | rfl⟩ := (hevents e).mp he
    · exact Or.inl ⟨i + j, by omega, rfl⟩
    · exact Or.inr ⟨j, hj, by rw [Nat.zero_add]⟩
  · rintro e ⟨j, hj, rfl⟩
    exact (hevents _).mpr ⟨j, hj, Or.inr (by rw [Nat.zero_add])⟩

/-- The name of the file is copied if the sign stands here. -/
theorem value_parseOutput (src : List UInt8) (fout : Buf) (i : Nat) :
    (parseOutput src fout i).value =
      some (if OpensOutput src i then
        strncpy fout 0 (field (src.drop (i + 2))) ((field (src.drop (i + 2))).length + 1)
      else fout) := by
  unfold parseOutput
  rw [Traced.value_bind, value_redirects, Option.bind_some]
  by_cases hopens : OpensOutput src i
  · rw [if_pos (decide_eq_true hopens), if_pos hopens, Traced.value_bind, (copyField_spec ..).1]
    rfl
  · rw [if_neg (by simpa using hopens), if_neg hopens]
    rfl

theorem stores_parseOutput (hi : i ≤ src.length) (fout : Buf) :
    Stores src (parseOutput src fout i) fun e =>
      OpensOutput src i ∧ ∃ j ≤ (field (src.drop (i + 2))).length, e = .fout j := by
  refine (stores_redirects hi).read_bind (value_redirects src i) ?_
  by_cases hopens : OpensOutput src i
  · rw [if_pos (decide_eq_true hopens)]
    have hle : i + 2 ≤ src.length := hopens.lt
    refine (Stores.bind (k := fun r => pure r.2) (stores_copyField .fout hle fout)
      (copyField_spec ..).1 (stores_pure _)).congr ?_
    intro e
    rw [or_false, and_iff_right hopens]
  · rw [if_neg (by simpa using hopens)]
    exact (stores_pure _).congr fun e => (iff_of_false id fun h => hopens h.1)

/-- The argument and the name behind it. -/
theorem value_parseField (src : List UInt8) (arg fout : Buf) (i : Nat) :
    (parseField src arg fout (argStart src i)).value =
      some (strncpy arg 0 (argField src i) ((argField src i).length + 1),
        if HasOutput src i then strncpy fout 0 (outField src i) ((outField src i).length + 1)
        else fout) := by
  unfold parseField
  rw [Traced.value_bind, (copyField_spec ..).1, Option.bind_some]
  change (if src.getD (argEnd src i) 0 = space then _ else _ :
    Traced Access (Buf × Buf)).value = _
  by_cases hspace : src.getD (argEnd src i) 0 = space
  · rw [if_pos hspace, Traced.value_bind, value_parseOutput]
    by_cases hopens : OpensOutput src (argEnd src i + 1)
    · have hout : HasOutput src i := ⟨hspace, hopens⟩
      have hfield : outField src i = field (src.drop (argEnd src i + 3)) := if_pos hout
      rw [if_pos hout, hfield]
      change some (_, if OpensOutput src (argEnd src i + 1) then _ else _) = _
      rw [if_pos hopens]
      rfl
    · have hout : ¬ HasOutput src i := fun h => hopens h.2
      rw [if_neg hout]
      change some (_, if OpensOutput src (argEnd src i + 1) then _ else _) = _
      rw [if_neg hopens]
      rfl
  · have hout : ¬ HasOutput src i := fun h => hspace h.1
    rw [if_neg hspace, if_neg hout]
    rfl

theorem stores_parseField (hi : i ≤ src.length) (arg fout : Buf) :
    Stores src (parseField src arg fout (argStart src i)) fun e =>
      (∃ j ≤ (argField src i).length, e = .arg j) ∨
        HasOutput src i ∧ ∃ j ≤ (outField src i).length, e = .fout j := by
  refine (stores_copyField .arg (argStart_le hi) arg).bind (copyField_spec ..).1 ?_
  change Stores src (if src.getD (argEnd src i) 0 = space then _ else _) _
  by_cases hspace : src.getD (argEnd src i) 0 = space
  · rw [if_pos hspace]
    have hlt : argEnd src i + 1 ≤ src.length := lt_of_getD hspace (by decide)
    refine (Stores.bind (k := fun out => pure (_, out)) (stores_parseOutput hlt fout)
      (value_parseOutput ..) (stores_pure _)).congr ?_
    intro e
    rw [or_false]
    by_cases hopens : OpensOutput src (argEnd src i + 1)
    · have hout : HasOutput src i := ⟨hspace, hopens⟩
      have hfield : outField src i = field (src.drop (argEnd src i + 3)) := if_pos hout
      rw [and_iff_right hopens, and_iff_right hout, hfield]
    · exact iff_of_false (fun h => hopens h.1) fun h => hopens h.1.2
  · rw [if_neg hspace]
    exact (stores_pure _).congr fun e => iff_of_false id fun h => hspace h.1.1

theorem value_parseCmd (src : List UInt8) (cmd : Buf) :
    (parseCmd (some src) cmd).value =
      some (((field src).length : Int), strncpy cmd 0 (field src) ((field src).length + 1)) := by
  unfold parseCmd
  rw [Traced.value_bind, (copyField_spec ..).1, Nat.zero_add]
  rfl

theorem stores_parseCmd (src : List UInt8) (cmd : Buf) :
    Stores src (parseCmd (some src) cmd) fun e => ∃ j ≤ (field src).length, e = .cmd j := by
  have hcopy := stores_copyField .cmd (Nat.zero_le src.length) cmd
  exact (Stores.bind (k := fun r => pure ((r.1 : Int), r.2)) hcopy (copyField_spec ..).1
    (stores_pure _)).congr fun e => or_iff_left id

/-- The call from `i` on. -/
theorem value_parseArg (src : List UInt8) (arg fout : Buf) (i : Nat) :
    (parseArg src arg fout i).value =
      some (if src.length ≤ i then (arg, fout)
        else (strncpy arg 0 (argField src i) ((argField src i).length + 1),
          if HasOutput src i then strncpy fout 0 (outField src i) ((outField src i).length + 1)
          else fout)) := by
  unfold parseArg
  rw [Traced.value_emitAll_bind]
  by_cases hshort : src.length ≤ i
  · rw [if_pos hshort, if_pos hshort]
    rfl
  · rw [if_neg hshort, if_neg hshort, Traced.value_bind, value_redirects, Option.bind_some]
    simp only [decide_eq_true_eq]
    exact value_parseField src arg fout i

theorem stores_parseArg (src : List UInt8) (arg fout : Buf) (i : Nat) :
    Stores src (parseArg src arg fout i) fun e =>
      i < src.length ∧ ((∃ j ≤ (argField src i).length, e = .arg j) ∨
        HasOutput src i ∧ ∃ j ≤ (outField src i).length, e = .fout j) := by
  have hstrlen : Stores src (Traced.emitAll ((List.range (src.length + 1)).map Access.src))
      fun _ => False := by
    refine ⟨?_, fun e he => absurd he id⟩
    intro e he
    obtain ⟨j, hj, rfl⟩ := List.mem_map.mp he
    exact Or.inl ⟨j, Nat.le_of_lt_succ (List.mem_range.mp hj), rfl⟩
  unfold parseArg
  refine hstrlen.read_bind rfl ?_
  by_cases hshort : src.length ≤ i
  · rw [if_pos hshort]
    exact (stores_pure _).congr fun e => iff_of_false id fun h => Nat.not_lt.mpr hshort h.1
  · rw [if_neg hshort]
    have hle : i ≤ src.length := Nat.le_of_not_le hshort
    refine ((stores_redirects hle).read_bind (value_redirects src i) ?_).congr
      fun e => (and_iff_right (Nat.lt_of_not_le hshort)).symm
    simp only [decide_eq_true_eq]
    exact stores_parseField hle arg fout

end Spec

/-! ## Tokens -/

/-- A token for an array of `n` bytes. -/
structure Token (n : Nat) where
  text : List UInt8
  nonempty : text ≠ []
  short : text.length < n
  clean : ∀ c ∈ text, c ≠ space ∧ c ≠ newline ∧ c ≠ 0

/-- A command line: a program, its argument and the name of the file for its output, with or
without a newline at the end. -/
structure Line where
  cmd : Token argWordSize
  arg : Option (Token argWordSize)
  out : Option (Token fnameLen)
  ended : Bool
  plain : ∀ a ∈ arg, a.text ≠ [greater]

namespace Line

/-- The text of the argument. -/
def argText (l : Line) : List UInt8 := l.arg.elim [] Token.text

/-- The text of the name. -/
def outText (l : Line) : List UInt8 := l.out.elim [] Token.text

/-- The end of the line. -/
def ending (l : Line) : List UInt8 := if l.ended then [newline] else []

/-- The line behind the argument. -/
def behindArg (l : Line) : List UInt8 :=
  match l.out with
  | none => l.ending
  | some o => space :: greater :: space :: (o.text ++ l.ending)

/-- The line behind the program. -/
def behind (l : Line) : List UInt8 :=
  match l.arg with
  | none => l.behindArg
  | some a => space :: (a.text ++ l.behindArg)

/-- The characters of the line. -/
def text (l : Line) : List UInt8 := l.cmd.text ++ l.behind

end Line

section Tokens

variable {s t : List UInt8} {n : Nat}

theorem Token.field_append (w : Token n) (ht : field t = []) : field (w.text ++ t) = w.text := by
  have hclean : ∀ c ∈ w.text, ¬ (c = space ∨ c = newline) := fun c hc =>
    not_or.mpr ⟨(w.clean c hc).1, (w.clean c hc).2.1⟩
  rw [CommandLine.field_append hclean, ht, List.append_nil]

theorem getD_append_add (s t : List UInt8) (k : Nat) :
    (s ++ t).getD (s.length + k) 0 = t.getD k 0 := by
  rw [List.getD_append_right _ _ _ _ (Nat.le_add_right _ _), Nat.add_sub_cancel_left]

theorem opensOutput_append (s t : List UInt8) (k : Nat) :
    OpensOutput (s ++ t) (s.length + k) ↔ OpensOutput t k := by
  unfold OpensOutput
  rw [Nat.add_assoc, getD_append_add, getD_append_add]

end Tokens

namespace Line

variable (l : Line)

theorem field_ending : field l.ending = [] := by
  unfold ending
  split
  · exact field_cons_of_stop (Or.inr rfl) []
  · rfl

theorem field_behindArg : field l.behindArg = [] := by
  unfold behindArg
  split
  · exact l.field_ending
  · exact field_cons_of_stop (Or.inl rfl) _

theorem field_behind : field l.behind = [] := by
  unfold behind
  split
  · exact l.field_behindArg
  · exact field_cons_of_stop (Or.inl rfl) _

/-- The first field is the program. -/
theorem field_text : field l.text = l.cmd.text := l.cmd.field_append l.field_behind

/-- An argument is not taken for the sign. -/
theorem not_opensOutput {l : Line} {a : Token argWordSize} (ha : l.arg = some a) :
    ¬ OpensOutput (a.text ++ l.behindArg) 0 := by
  rintro ⟨hfirst, hsecond⟩
  have hplain := l.plain a ha
  rcases htext : a.text with _ | ⟨c, _ | ⟨d, rest⟩⟩
  · exact a.nonempty htext
  · rw [htext] at hfirst hplain
    exact hplain (congrArg (fun c => [c]) hfirst)
  · rw [htext] at hsecond
    have hd := (a.clean d (by simp [htext])).1
    exact hd hsecond

/-- The argument is found, and behind it stands the rest of the line. -/
theorem argField_text (h : l.arg ≠ none ∨ l.out ≠ none) :
    argField l.text (l.cmd.text.length + 1) = l.argText ∧
      ∃ front, l.text = front ++ l.behindArg ∧
        argEnd l.text (l.cmd.text.length + 1) = front.length := by
  unfold argEnd argField
  cases harg : l.arg with
  | none =>
      have hbehind : l.behind = l.behindArg := by
        unfold behind
        rw [harg]
      obtain ⟨o, ho⟩ := Option.ne_none_iff_exists'.mp (h.resolve_left fun hne => hne harg)
      have hopens : OpensOutput l.text (l.cmd.text.length + 1) := by
        unfold text
        rw [opensOutput_append, hbehind]
        unfold behindArg
        rw [ho]
        exact ⟨rfl, rfl⟩
      have hstart : argStart l.text (l.cmd.text.length + 1) = l.cmd.text.length + 0 :=
        if_pos hopens
      have hfield : field (l.text.drop (l.cmd.text.length + 0)) = [] := by
        unfold text
        rw [List.drop_length_add_append]
        exact l.field_behind
      rw [hstart, hfield]
      refine ⟨?_, l.cmd.text, ?_, rfl⟩
      · unfold argText
        rw [harg]
        rfl
      · rw [← hbehind]
        rfl
  | some a =>
      have hbehind : l.behind = space :: (a.text ++ l.behindArg) := by
        unfold behind
        rw [harg]
      have hopens : ¬ OpensOutput l.text (l.cmd.text.length + 1) := by
        unfold text
        rw [opensOutput_append, hbehind]
        exact not_opensOutput harg
      have hstart : argStart l.text (l.cmd.text.length + 1) = l.cmd.text.length + 1 :=
        if_neg hopens
      have hfield : field (l.text.drop (l.cmd.text.length + 1)) = a.text := by
        unfold text
        rw [List.drop_length_add_append, hbehind]
        exact a.field_append l.field_behindArg
      rw [hstart, hfield]
      refine ⟨?_, l.cmd.text ++ space :: a.text, ?_, ?_⟩
      · unfold argText
        rw [harg]
        rfl
      · unfold text
        rw [hbehind, List.append_assoc, List.cons_append]
      · rw [List.length_append, List.length_cons]
        omega

/-- The name is found exactly in the lines that have one. -/
theorem outField_text (h : l.arg ≠ none ∨ l.out ≠ none) :
    (HasOutput l.text (l.cmd.text.length + 1) ↔ l.out ≠ none) ∧
      outField l.text (l.cmd.text.length + 1) = l.outText := by
  obtain ⟨-, front, htext, hend⟩ := l.argField_text h
  have hbehind : HasOutput l.text (l.cmd.text.length + 1) ↔
      l.behindArg.getD 0 0 = space ∧ OpensOutput l.behindArg 1 := by
    unfold HasOutput
    rw [hend, htext, opensOutput_append, ← getD_append_add front l.behindArg 0, Nat.add_zero]
  unfold outField outText
  rw [hend]
  cases hout : l.out with
  | none =>
      have hno : ¬ HasOutput l.text (l.cmd.text.length + 1) := by
        rw [hbehind]
        rintro ⟨-, hopens⟩
        have hlt := hopens.lt
        unfold behindArg ending at hlt
        rw [hout] at hlt
        dsimp only at hlt
        split at hlt
        · exact absurd hlt (by decide)
        · exact absurd hlt (by decide)
      rw [if_neg hno]
      exact ⟨iff_of_false hno (not_not.mpr rfl), rfl⟩
  | some o =>
      have heq : l.behindArg = space :: greater :: space :: (o.text ++ l.ending) := by
        unfold behindArg
        rw [hout]
      have hyes : HasOutput l.text (l.cmd.text.length + 1) := by
        rw [hbehind, heq]
        exact ⟨rfl, rfl, rfl⟩
      have hdrop : l.text.drop (front.length + 3) = o.text ++ l.ending := by
        rw [htext, List.drop_length_add_append, heq]
        rfl
      rw [if_pos hyes, hdrop]
      exact ⟨iff_of_true hyes (Option.some_ne_none o), o.field_append l.field_ending⟩

/-- A line without argument and name ends where `parse_arg` would begin. -/
theorem length_text_le_iff :
    l.text.length ≤ l.cmd.text.length + 1 ↔ ¬ (l.arg ≠ none ∨ l.out ≠ none) := by
  unfold text
  rw [List.length_append, Nat.add_le_add_iff_left, not_or, not_not, not_not]
  unfold behind behindArg
  cases harg : l.arg with
  | some a =>
      have hpos := List.length_pos_of_ne_nil a.nonempty
      refine iff_of_false ?_ fun h => Option.some_ne_none a h.1
      rw [List.length_cons, List.length_append]
      omega
  | none =>
      cases hout : l.out with
      | some o =>
          refine iff_of_false ?_ fun h => Option.some_ne_none o h.2
          rw [List.length_cons, List.length_cons]
          omega
      | none =>
          refine iff_of_true ?_ ⟨rfl, rfl⟩
          show l.ending.length ≤ 1
          unfold ending
          split
          · exact Nat.le_refl 1
          · exact Nat.zero_le 1

end Line

/-- The field that `sys_execute` looks for in the file system is what `parse_cmd` leaves. -/
theorem parseCmd_startsWith (src : List UInt8) (cmd : Buf) :
    ∃ cmd', (parseCmd (some src) cmd).value = some (((Loading.parseCmd src).length : Int), cmd') ∧
      StartsWith cmd' (Loading.parseCmd src) :=
  ⟨_, value_parseCmd src cmd, startsWith_strncpy cmd (field src)⟩

/-- From a line of tokens `parse_cmd` takes the program, and `parse_arg`, on a cleared argument
and an empty name, takes the argument and the name; what the line does not have stays empty. -/
theorem parseLine_recovers (l : Line) (parsedCmd : Buf) {arg fout : Buf}
    (harg : ∀ i < argWordSize, arg i = 0) (hfout : fout 0 = 0) :
    ∃ end_ : Nat, ∃ cmd' arg' fout' : Buf,
      (parseCmd (some l.text) parsedCmd).value = some ((end_ : Int), cmd') ∧
        (parseArg l.text arg fout (end_ + 1)).value = some (arg', fout') ∧
        StartsWith cmd' l.cmd.text ∧ (∀ i < argWordSize, arg' i = l.argText.getD i 0) ∧
        StartsWith fout' l.outText := by
  have hcmd := value_parseCmd l.text parsedCmd
  rw [l.field_text] at hcmd
  have hvalue := value_parseArg l.text arg fout (l.cmd.text.length + 1)
  by_cases hmore : l.arg ≠ none ∨ l.out ≠ none
  · have hlong : ¬ l.text.length ≤ l.cmd.text.length + 1 := fun h =>
      l.length_text_le_iff.mp h hmore
    obtain ⟨hout, hname⟩ := l.outField_text hmore
    rw [if_neg hlong, (l.argField_text hmore).1, hname] at hvalue
    refine ⟨_, _, _, _, hcmd, hvalue, startsWith_strncpy _ _,
      fun i hi => strncpy_cleared harg hi l.argText, ?_⟩
    by_cases hnone : l.out = none
    · have hempty : l.outText = [] := by
        unfold Line.outText
        rw [hnone]
        rfl
      rw [if_neg fun h => hout.mp h hnone, hempty]
      intro i hi
      rw [Nat.le_zero.mp hi]
      exact hfout
    · rw [if_pos (hout.mpr hnone)]
      exact startsWith_strncpy _ _
  · obtain ⟨hnoArg, hnoOut⟩ := not_or.mp hmore
    rw [if_pos (l.length_text_le_iff.mpr hmore)] at hvalue
    refine ⟨_, _, _, _, hcmd, hvalue, startsWith_strncpy _ _, ?_, ?_⟩
    · intro i hi
      unfold Line.argText
      rw [not_not.mp hnoArg]
      exact (harg i hi).trans rfl
    · unfold Line.outText
      rw [not_not.mp hnoOut]
      intro i hi
      rw [Nat.le_zero.mp hi]
      exact hfout

/-- `cat >x > y`. -/
def catLine : Line where
  cmd := ⟨[99, 97, 116], by decide, by decide, by simp [space, newline]⟩
  arg := some ⟨[greater, 120], by decide, by decide, by simp [greater, space, newline]⟩
  out := some ⟨[121], by decide, by decide, by simp [space, newline]⟩
  ended := true
  plain := by decide

theorem parseLine_recovers_cat :
    ∃ end_ : Nat, ∃ cmd' arg' fout' : Buf,
      (parseCmd (some catLine.text) fun _ => 0).value = some ((end_ : Int), cmd') ∧
        (parseArg catLine.text (fun _ => 0) (fun _ => 0) (end_ + 1)).value = some (arg', fout') ∧
        StartsWith cmd' catLine.cmd.text ∧ (∀ i < argWordSize, arg' i = catLine.argText.getD i 0) ∧
        StartsWith fout' catLine.outText :=
  parseLine_recovers catLine _ (fun _ _ => rfl) rfl

/-! ## The buffers -/
/-! ## The buffers -/

/-- The access is inside its array, or the string with its terminator. -/
def Access.Within (src : List UInt8) : Access → Prop
  | .src i => i ≤ src.length
  | .cmd i | .arg i => i < argWordSize
  | .fout i => i < fnameLen

/-- The index behind the first field and its terminator. -/
def behindCmd (src : List UInt8) : Nat := (field src).length + 1

/-- The fields of a command are shorter than the arrays they are copied to. -/
structure FieldsFit (src : List UInt8) : Prop where
  cmd : (field src).length < argWordSize
  arg : (argField src (behindCmd src)).length < argWordSize
  out : (outField src (behindCmd src)).length < fnameLen

section Buffers

variable {src : List UInt8} {i : Nat}

/-- Behind the end of the string there is no argument. -/
theorem argField_of_le (h : src.length ≤ i) : argField src i = [] := by
  have hopens : ¬ OpensOutput src i := fun hopens => by
    have hlt := hopens.lt
    omega
  unfold argField argStart
  rw [if_neg hopens, List.drop_eq_nil_of_le h]
  rfl

/-- Nor is there a name. -/
theorem not_hasOutput_of_le (h : src.length ≤ i) : ¬ HasOutput src i := by
  intro hout
  have hlt := hout.2.lt
  have hle : i - 1 ≤ argStart src i := by
    unfold argStart
    split
    · exact Nat.le_refl _
    · exact Nat.sub_le _ _
  unfold argEnd at hlt
  omega

/-- The call that `sys_execute` makes. -/
theorem stores_parseLine (src : List UInt8) (cmd arg fout : Buf) :
    Stores src (parseLine (some src) cmd arg fout) fun e =>
      (∃ j ≤ (field src).length, e = .cmd j) ∨ e = .fout 0 ∨
        behindCmd src < src.length ∧
          ((∃ j ≤ (argField src (behindCmd src)).length, e = .arg j) ∨
            HasOutput src (behindCmd src) ∧
              ∃ j ≤ (outField src (behindCmd src)).length, e = .fout j) := by
  have hemit : Stores src (Traced.emit (.fout 0)) fun e => e = .fout 0 := by
    refine ⟨fun e he => Or.inr (List.mem_singleton.mp he), ?_⟩
    rintro e rfl
    exact List.mem_singleton_self _
  unfold parseLine
  refine (stores_parseCmd src cmd).bind (value_parseCmd src cmd) (hemit.bind rfl ?_)
  have harg := stores_parseArg src arg (Function.update fout 0 0) (behindCmd src)
  exact (Stores.bind (k := fun p => pure (_, _, p.1, p.2)) harg (value_parseArg ..)
    (stores_pure _)).congr fun e => or_iff_left id

end Buffers

/-- The command is only read up to its terminator; the stores stay inside the arrays exactly
when each field is shorter than its array. -/
theorem parseLine_within_iff (src : List UInt8) (cmd arg fout : Buf) :
    (∀ e ∈ (parseLine (some src) cmd arg fout).events, e.Within src) ↔ FieldsFit src := by
  obtain ⟨hmem, hall⟩ := stores_parseLine src cmd arg fout
  constructor
  · intro h
    refine ⟨?_, ?_, ?_⟩
    · exact h _ (hall _ (Or.inl ⟨_, Nat.le_refl _, rfl⟩))
    · by_cases hlt : behindCmd src < src.length
      · exact h _ (hall _ (Or.inr (Or.inr ⟨hlt, Or.inl ⟨_, Nat.le_refl _, rfl⟩⟩)))
      · rw [argField_of_le (Nat.le_of_not_lt hlt)]
        decide
    · by_cases hout : HasOutput src (behindCmd src)
      · have hlt : behindCmd src < src.length := by
          by_contra hge
          exact not_hasOutput_of_le (Nat.le_of_not_lt hge) hout
        exact h _ (hall _ (Or.inr (Or.inr ⟨hlt, Or.inr ⟨hout, _, Nat.le_refl _, rfl⟩⟩)))
      · unfold outField
        rw [if_neg hout]
        decide
  · intro hfit e he
    rcases hmem e he with ⟨j, hj, rfl⟩ | ⟨j, hj, rfl⟩ | rfl | ⟨-, ⟨j, hj, rfl⟩ | ⟨-, j, hj, rfl⟩⟩
    · exact hj
    · exact Nat.lt_of_le_of_lt hj hfit.cmd
    · show 0 < fnameLen
      decide
    · exact Nat.lt_of_le_of_lt hj hfit.arg
    · exact Nat.lt_of_le_of_lt hj hfit.out

/-- A command of 128 letters is terminated behind `parsed_cmd`. -/
theorem parseLine_overflows :
    ¬ ∀ (src : List UInt8) (cmd arg fout : Buf), 0 ∉ src →
      ∀ e ∈ (parseLine (some src) cmd arg fout).events, e.Within src := by
  intro h
  have hfield : field (List.replicate 128 97) = List.replicate 128 97 := by
    have hletters : ∀ c ∈ List.replicate 128 (97 : UInt8), ¬ (c = space ∨ c = newline) := by
      intro c hc
      rw [List.eq_of_mem_replicate hc]
      decide
    have happend := field_append hletters []
    rwa [List.append_nil] at happend
  have hzero : (0 : UInt8) ∉ List.replicate 128 97 := fun hmem =>
    absurd (List.eq_of_mem_replicate hmem) (by decide)
  have hlast : Access.cmd 128 ∈
      (parseLine (some (List.replicate 128 97)) (fun _ => 0) (fun _ => 0) fun _ => 0).events := by
    apply (stores_parseLine _ _ _ _).2
    refine Or.inl ⟨128, ?_, rfl⟩
    rw [hfield, List.length_replicate]
  exact absurd (h _ _ _ _ hzero _ hlast) (Nat.lt_irrefl 128)

end CommandLine
end Process
end NochOS
