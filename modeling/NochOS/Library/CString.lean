import NochOS.Library.Bytes

/-!
# Library - C strings in byte buffers

A C string is the list of the bytes before its terminating zero.  This module
embeds the bounded string functions on buffers and states what they do on strings
without a zero byte.

Main results:

- Theorem `strncmpEq_iff`: comparing a whole string compares the bytes.
- Theorem `strncpy_apply`: the bytes after a bounded copy of a whole string.
- Theorem `bytesAt_strncpy_takeWhile`: a copy of a string that stands in a buffer.
- Theorem `StartsWith.cString_eq`: the string of an array that starts with it.
- Theorem `strncpyWithin_apply`: a copy to a lower place of the same buffer.
-/

namespace NochOS
namespace Library

/-- The bytes of a buffer from an offset on. -/
def bytesAt (b : Buf) (off n : Nat) : List UInt8 := (List.range n).map fun i => b (off + i)

/-- The string at the start of an array of `n` bytes. -/
def cString (b : Buf) (n : Nat) : List UInt8 := (bytesAt b 0 n).takeWhile (· ≠ 0)

/-- `strncmp(b + off, s, n) == 0`. -/
def strncmpEq (b : Buf) (off : Nat) : List UInt8 → Nat → Bool
  | _, 0 => true
  | [], _ + 1 => b off == 0
  | c :: s, n + 1 => b off == c && (c == 0 || strncmpEq b (off + 1) s n)

/-- How many bytes of `b + off` the comparison `strncmp(b + off, s, n)` looks at: it
ends at the first difference and behind a zero. -/
def strncmpReads (b : Buf) (off : Nat) : List UInt8 → Nat → Nat
  | _, 0 => 0
  | [], _ + 1 => 1
  | c :: s, n + 1 => if b off = c ∧ c ≠ 0 then strncmpReads b (off + 1) s n + 1 else 1

/-- How many bytes of its source `strncpy(dst, b + src, n)` looks at. -/
def strncpyReads (b : Buf) (src : Nat) : Nat → Nat
  | 0 => 0
  | n + 1 => if b src = 0 then 1 else strncpyReads b (src + 1) n + 1

/-- `strncpy(b + off, s, n)`: a shorter string is filled up with zeros. -/
def strncpy (b : Buf) (off : Nat) (s : List UInt8) (n : Nat) : Buf :=
  fun i => if off ≤ i ∧ i < off + n then s.getD (i - off) 0 else b i

/-- `strncpy(b + dst, b + src, n)` inside one buffer, byte by byte upwards. -/
def strncpyWithin (b : Buf) (dst src : Nat) : Nat → Buf
  | 0 => b
  | n + 1 =>
      if b src = 0 then memset b dst 0 (n + 1)
      else strncpyWithin (Function.update b dst (b src)) (dst + 1) (src + 1) n

@[simp] theorem length_bytesAt (b : Buf) (off n : Nat) : (bytesAt b off n).length = n := by
  simp [bytesAt]

theorem bytesAt_succ (b : Buf) (off n : Nat) :
    bytesAt b off (n + 1) = b off :: bytesAt b (off + 1) n := by
  simp only [bytesAt, List.range_succ_eq_map, List.map_cons, List.map_map, Nat.add_zero]
  congr 1
  apply List.map_congr_left
  intro i _
  simp only [Function.comp_apply, Nat.succ_eq_add_one]
  congr 1
  omega

/-- The bytes of a range depend on the range only. -/
theorem bytesAt_congr {a b : Buf} {off off' n : Nat} (h : ∀ i < n, a (off + i) = b (off' + i)) :
    bytesAt a off n = bytesAt b off' n := by
  apply List.map_congr_left
  intro i hi
  exact h i (List.mem_range.mp hi)

/-- A range in two parts. -/
theorem bytesAt_add (b : Buf) (off m n : Nat) :
    bytesAt b off (m + n) = bytesAt b off m ++ bytesAt b (off + m) n := by
  simp only [bytesAt, List.range_add, List.map_append, List.map_map]
  congr 1
  apply List.map_congr_left
  intro i _
  simp only [Function.comp_apply]
  congr 1
  omega

/-- Comparing as many bytes as the string has compares the bytes. -/
theorem strncmpEq_iff (b : Buf) {s : List UInt8} (hs : 0 ∉ s) (off : Nat) :
    strncmpEq b off s s.length = true ↔ bytesAt b off s.length = s := by
  induction s generalizing off with
  | nil => simp [strncmpEq, bytesAt]
  | cons c s ih =>
      obtain ⟨hc, hs⟩ := not_or.mp (List.mem_cons.not.mp hs)
      have hfalse : (c == 0) = false := by
        rw [beq_eq_false_iff_ne]
        exact Ne.symm hc
      rw [List.length_cons, strncmpEq, bytesAt_succ, hfalse, Bool.false_or, Bool.and_eq_true,
        beq_iff_eq, ih hs, List.cons.injEq]

/-- The bytes after a copy of a whole string. -/
theorem strncpy_apply (b : Buf) (off : Nat) (s : List UInt8) (i : Nat) :
    strncpy b off s s.length i = if h : off ≤ i ∧ i < off + s.length then s[i - off] else b i := by
  unfold strncpy
  by_cases h : off ≤ i ∧ i < off + s.length
  · rw [if_pos h, dif_pos h, List.getD_eq_getElem?_getD, List.getElem?_eq_getElem (by omega),
      Option.getD_some]
  · rw [if_neg h, dif_neg h]

/-- The copied string stands in the buffer. -/
@[simp] theorem bytesAt_strncpy (b : Buf) (off : Nat) (s : List UInt8) :
    bytesAt (strncpy b off s s.length) off s.length = s := by
  apply List.ext_getElem
  · simp
  · intro i h₁ h₂
    simp only [bytesAt, List.getElem_map, List.getElem_range]
    rw [strncpy_apply, dif_pos (by omega)]
    simp only [Nat.add_sub_cancel_left]

/-- A byte outside the copied string keeps its value. -/
theorem strncpy_outside {b : Buf} {off : Nat} {s : List UInt8} {i : Nat}
    (h : i < off ∨ off + s.length ≤ i) : strncpy b off s s.length i = b i := by
  rw [strncpy_apply, dif_neg (by omega)]

/-- The start of a string from a buffer, as far as it has no zero byte, stands in the
buffer it is copied to. -/
theorem bytesAt_strncpy_takeWhile (dst src : Buf) (off sOff : Nat) {k n : Nat} (hk : k ≤ n)
    (hne : ∀ i < k, src (sOff + i) ≠ 0) :
    bytesAt (strncpy dst off ((bytesAt src sOff n).takeWhile (· ≠ 0)) n) off k =
      bytesAt src sOff k := by
  obtain ⟨m, rfl⟩ := Nat.exists_eq_add_of_le hk
  have hall : ∀ c ∈ bytesAt src sOff k, decide (c ≠ 0) = true := by
    intro c hc
    obtain ⟨i, hi, rfl⟩ := List.mem_map.mp hc
    exact decide_eq_true (hne i (List.mem_range.mp hi))
  rw [bytesAt_add, List.takeWhile_append_of_pos hall]
  apply bytesAt_congr
  intro i hi
  have hlen : i < (bytesAt src sOff k).length := by
    rw [length_bytesAt]
    exact hi
  unfold strncpy
  rw [if_pos (by omega), Nat.add_sub_cancel_left, List.getD_eq_getElem?_getD,
    List.getElem?_append_left hlen, List.getElem?_eq_getElem hlen, Option.getD_some]
  simp only [bytesAt, List.getElem_map, List.getElem_range]

/-- Copying a character and then the rest of a string copies the string. -/
theorem strncpy_cons (dst : Buf) (i : Nat) (c : UInt8) (s : List UInt8) (n : Nat) :
    strncpy (Function.update dst i c) (i + 1) s n = strncpy dst i (c :: s) (n + 1) := by
  funext k
  unfold strncpy
  by_cases hk : k = i
  · subst hk
    rw [if_neg (by omega), if_pos (by omega), Function.update_self, Nat.sub_self]
    rfl
  · rw [Function.update_of_ne hk]
    by_cases hin : i + 1 ≤ k ∧ k < i + 1 + n
    · have hsub : k - i = k - (i + 1) + 1 := by omega
      rw [if_pos hin, if_pos (by omega), hsub]
      rfl
    · rw [if_neg hin, if_neg (by omega)]

/-- Terminating an empty copy. -/
theorem update_eq_strncpy (dst : Buf) (i : Nat) :
    Function.update dst i 0 = strncpy dst i [] 1 := by
  funext k
  unfold strncpy
  by_cases hk : k = i
  · subst hk
    rw [Function.update_self, if_pos (by omega)]
    rfl
  · rw [Function.update_of_ne hk, if_neg (by omega)]

/-- In a cleared array the copied text is followed by zeros. -/
theorem strncpy_cleared {b : Buf} {n i : Nat} (hb : ∀ i < n, b i = 0) (hi : i < n)
    (s : List UInt8) : strncpy b 0 s (s.length + 1) i = s.getD i 0 := by
  unfold strncpy
  by_cases hin : 0 ≤ i ∧ i < 0 + (s.length + 1)
  · rw [if_pos hin, Nat.sub_zero]
  · rw [if_neg hin, hb i hi, List.getD_eq_getElem?_getD, List.getElem?_eq_none (by omega),
      Option.getD_none]

/-! ## Terminated strings -/

/-- A buffer starts with a string and its terminating zero. -/
def StartsWith (b : Buf) (s : List UInt8) : Prop := ∀ i ≤ s.length, b i = s.getD i 0

/-- A copied text starts the buffer. -/
theorem startsWith_strncpy (b : Buf) (s : List UInt8) :
    StartsWith (strncpy b 0 s (s.length + 1)) s := by
  intro i hi
  unfold strncpy
  rw [if_pos (by omega), Nat.sub_zero]

/-- A terminated string is the string at the start of the array. -/
theorem StartsWith.cString_eq {b : Buf} {s : List UInt8} (h : StartsWith b s) (hs : 0 ∉ s) {n : Nat}
    (hn : s.length < n) : cString b n = s := by
  obtain ⟨m, rfl⟩ := Nat.exists_eq_add_of_lt hn
  have hbytes : bytesAt b 0 s.length = s := by
    apply List.ext_getElem
    · rw [length_bytesAt]
    · intro i h₁ h₂
      simp only [bytesAt, List.getElem_map, List.getElem_range, Nat.zero_add]
      rw [h i (Nat.le_of_lt h₂), List.getD_eq_getElem?_getD, List.getElem?_eq_getElem h₂,
        Option.getD_some]
  have hzero : b s.length = 0 := by
    rw [h _ le_rfl, List.getD_eq_getElem?_getD, List.getElem?_eq_none le_rfl, Option.getD_none]
  have hall : ∀ c ∈ s, decide (c ≠ 0) = true := fun c hc =>
    decide_eq_true fun heq => hs (heq ▸ hc)
  rw [cString, Nat.add_assoc, bytesAt_add, hbytes, List.takeWhile_append_of_pos hall, bytesAt_succ,
    Nat.zero_add, List.takeWhile_cons_of_neg (by simp [hzero]), List.append_nil]

/-- A buffer starts with one terminated string only. -/
theorem StartsWith.iff_eq {b : Buf} {s t : List UInt8} (h : StartsWith b s) (hs : 0 ∉ s)
    (ht : 0 ∉ t) : StartsWith b t ↔ s = t := by
  constructor
  · intro h'
    rw [← h.cString_eq hs (show s.length < s.length + t.length + 1 by omega),
      h'.cString_eq ht (by omega)]
  · rintro rfl
    exact h

/-- Storing the byte behind a string appends it. -/
theorem bytesAt_update {b : Buf} {s : List UInt8} (h : bytesAt b 0 s.length = s) (c : UInt8) :
    bytesAt (Function.update b s.length c) 0 (s ++ [c]).length = s ++ [c] := by
  rw [List.length_append, List.length_singleton, bytesAt_add]
  congr 1
  · calc
      bytesAt (Function.update b s.length c) 0 s.length = bytesAt b 0 s.length := by
        apply bytesAt_congr
        intro i hi
        rw [Function.update_of_ne (by omega)]
      _ = s := h
  · rw [bytesAt_succ, Nat.zero_add, Function.update_self]
    rfl

/-- Storing a zero behind a string terminates it. -/
theorem startsWith_update {b : Buf} {s : List UInt8} (h : bytesAt b 0 s.length = s) :
    StartsWith (Function.update b s.length 0) s := by
  intro i hi
  rcases Nat.lt_or_eq_of_le hi with hlt | rfl
  · have hbyte : (bytesAt b 0 s.length).getD i 0 = b i := by
      simp [bytesAt, hlt]
    rw [h] at hbyte
    rw [Function.update_of_ne (by omega), hbyte]
  · rw [Function.update_self, List.getD_eq_getElem?_getD, List.getElem?_eq_none le_rfl,
      Option.getD_none]

/-- A store behind the terminating zero changes nothing. -/
theorem StartsWith.update_past {b : Buf} {s : List UInt8} (h : StartsWith b s) {j : Nat}
    (hj : s.length < j) (c : UInt8) : StartsWith (Function.update b j c) s := by
  intro i hi
  rw [Function.update_of_ne (by omega)]
  exact h i hi

/-- A byte outside the destination keeps its value. -/
theorem strncpyWithin_outside (b : Buf) {dst src n i : Nat} (h : i < dst ∨ dst + n ≤ i) :
    strncpyWithin b dst src n i = b i := by
  induction n generalizing b dst src with
  | zero => rfl
  | succ n ih =>
      rw [strncpyWithin]
      by_cases hzero : b src = 0
      · rw [if_pos hzero, memset_outside (by omega)]
      · rw [if_neg hzero, ih _ (by omega), Function.update_of_ne (by omega)]

/-- A copy of bytes that are not zero to a lower place moves them there. -/
theorem strncpyWithin_apply (b : Buf) {dst src n : Nat} (hlt : dst < src)
    (hne : ∀ j < n, b (src + j) ≠ 0) (i : Nat) :
    strncpyWithin b dst src n i =
      if dst ≤ i ∧ i < dst + n then b (src + (i - dst)) else b i := by
  induction n generalizing b dst src with
  | zero =>
      rw [strncpyWithin, if_neg (by omega)]
  | succ n ih =>
      have hfirst := hne 0 (by omega)
      rw [Nat.add_zero] at hfirst
      -- the bytes still to be read lie above the byte just written
      have hkeep : ∀ j, Function.update b dst (b src) (src + 1 + j) = b (src + (j + 1)) := by
        intro j
        rw [Function.update_of_ne (by omega)]
        congr 1
        omega
      rw [strncpyWithin, if_neg hfirst, ih _ (by omega) fun j hj => by
        rw [hkeep]
        exact hne (j + 1) (by omega)]
      by_cases hi : i = dst
      · subst hi
        rw [if_neg (by omega), if_pos (by omega), Function.update_self, Nat.sub_self, Nat.add_zero]
      · by_cases hin : dst + 1 ≤ i ∧ i < dst + 1 + n
        · have hidx : i - (dst + 1) + 1 = i - dst := by omega
          rw [if_pos hin, if_pos (by omega), hkeep, hidx]
        · rw [if_neg hin, if_neg (by omega), Function.update_of_ne hi]

/-! ## Stores of fixed values -/

/-- Each byte is set to a fixed value or left alone. -/
def Overwrites (store : Buf → Buf) : Prop :=
  ∀ i, (∃ c, ∀ b, store b i = c) ∨ ∀ b, store b i = b i

/-- One such store after another. -/
theorem Overwrites.comp {store store' : Buf → Buf} (h : Overwrites store)
    (h' : Overwrites store') : Overwrites fun b => store' (store b) := by
  intro i
  cases h' i with
  | inl hset =>
      obtain ⟨c, hc⟩ := hset
      exact Or.inl ⟨c, fun b => hc (store b)⟩
  | inr hkeep =>
      cases h i with
      | inl hset =>
          obtain ⟨c, hc⟩ := hset
          exact Or.inl ⟨c, fun b => (hkeep (store b)).trans (hc b)⟩
      | inr hkeep' => exact Or.inr fun b => (hkeep (store b)).trans (hkeep' b)

/-- A second run of the store changes nothing. -/
theorem Overwrites.idem {store : Buf → Buf} (h : Overwrites store) (b : Buf) :
    store (store b) = store b := by
  funext i
  cases h i with
  | inl hset =>
      obtain ⟨c, hc⟩ := hset
      rw [hc, hc]
  | inr hkeep => exact hkeep (store b)

theorem overwrites_update (off : Nat) (c : UInt8) :
    Overwrites fun b => Function.update b off c := by
  intro i
  by_cases hi : i = off
  · refine Or.inl ⟨c, fun b => ?_⟩
    rw [hi]
    exact Function.update_self _ _ _
  · exact Or.inr fun b => Function.update_of_ne hi _ _

theorem overwrites_setU32 (off v : Nat) : Overwrites fun b => setU32 b off v := by
  intro i
  by_cases hi : i < off ∨ off + 4 ≤ i
  · exact Or.inr fun b => setU32_outside hi
  · refine Or.inl ⟨setU32 (fun _ => 0) off v i, fun b => ?_⟩
    dsimp only [setU32]
    split_ifs with h₀ h₁ h₂ h₃
    · rfl
    · rfl
    · rfl
    · rfl
    · omega

theorem overwrites_strncpy (off : Nat) (s : List UInt8) (n : Nat) :
    Overwrites fun b => strncpy b off s n := by
  intro i
  by_cases hi : off ≤ i ∧ i < off + n
  · exact Or.inl ⟨_, fun b => if_pos hi⟩
  · exact Or.inr fun b => if_neg hi

end Library
end NochOS
