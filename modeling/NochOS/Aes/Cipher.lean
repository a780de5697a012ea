import NochOS.Aes.Tables

/-!
# AES - the cipher as the source computes it

This module embeds `aes.c` and the `AES_FAST_CALC` half of `aes.h`.  The
16-byte state is a byte buffer of which only the first 16 offsets are touched.
The column macros work on C integers, so their values may be wider than a byte
until they are stored; they are natural numbers here and the store cuts them.

Main results:

- Definitions `keyExpansion`, `aesBlockEncryption`, `aesBlockDecryption`: key
  schedule and block cipher.
- Theorem `storeColumns_apply`: a loop over the four columns replaces each column
  by its image.
-/

namespace NochOS
namespace Aes

open Library

/-- `AES_NUM_ROUND`. -/
def aesNumRound : Nat := 10

/-! ## Column arithmetic -/

/-- `GF_HELPER(num)` on a C integer. -/
def gfHelper (num : Nat) : Nat :=
  if num &&& 0x80 ≠ 0 then (num <<< 1) ^^^ 0x1B else num <<< 1

/-- The four bytes `state[4 * i]`, ..., `state[4 * i + 3]`. -/
structure Column where
  b0 : UInt8
  b1 : UInt8
  b2 : UInt8
  b3 : UInt8
deriving DecidableEq

/-- The bytes of column `i`. -/
def column (state : Buf) (i : Nat) : Column :=
  ⟨state (4 * i), state (4 * i + 1), state (4 * i + 2), state (4 * i + 3)⟩

/-- The assignments to the four bytes of column `i`. -/
def storeColumn (state : Buf) (i : Nat) (c : Column) : Buf :=
  Function.update (Function.update (Function.update (Function.update state
    (4 * i) c.b0) (4 * i + 1) c.b1) (4 * i + 2) c.b2) (4 * i + 3) c.b3

/-- One pass of the loop of `mix_columns`, from the copy of the column. -/
def mixColumn (t : Column) : Column :=
  let xtime := t.b0 ^^^ t.b1 ^^^ t.b2 ^^^ t.b3
  { b0 := UInt8.ofNat (gfHelper (t.b0 ^^^ t.b1).toNat ^^^ t.b0.toNat ^^^ xtime.toNat)
    b1 := UInt8.ofNat (gfHelper (t.b1 ^^^ t.b2).toNat ^^^ t.b1.toNat ^^^ xtime.toNat)
    b2 := UInt8.ofNat (gfHelper (t.b2 ^^^ t.b3).toNat ^^^ t.b2.toNat ^^^ xtime.toNat)
    b3 := UInt8.ofNat (gfHelper (t.b3 ^^^ t.b0).toNat ^^^ t.b3.toNat ^^^ xtime.toNat) }

/-- One pass of the loop of `inv_mix_columns`, from the copy of the column. -/
def invMixColumn (t : Column) : Column :=
  let s := mixColumn t
  let factor1 := UInt8.ofNat (gfHelper (gfHelper (t.b0 ^^^ t.b2).toNat))
  let factor2 := UInt8.ofNat (gfHelper (gfHelper (t.b1 ^^^ t.b3).toNat))
  let xtime := UInt8.ofNat (gfHelper (factor1 ^^^ factor2).toNat)
  { b0 := s.b0 ^^^ (xtime ^^^ factor1)
    b1 := s.b1 ^^^ (xtime ^^^ factor2)
    b2 := s.b2 ^^^ (xtime ^^^ factor1)
    b3 := s.b3 ^^^ (xtime ^^^ factor2) }

/-- `mix_columns`. -/
def mixColumns (state : Buf) : Buf :=
  (List.range 4).foldl (fun st i => storeColumn st i (mixColumn (column state i))) state

/-- `inv_mix_columns`. -/
def invMixColumns (state : Buf) : Buf :=
  (List.range 4).foldl (fun st i => storeColumn st i (invMixColumn (column state i))) state

/-! ## The other stages of a round -/

/-- `sub_bytes`. -/
def subBytes (state : Buf) : Buf := fun i => if i < 16 then aesSbox (state i) else state i

/-- `inv_sub_bytes`. -/
def invSubBytes (state : Buf) : Buf := fun i => if i < 16 then aesInvsbox (state i) else state i

/-- `shift_rows`: the old byte that each assignment puts in place. -/
def shiftRows (state : Buf) : Buf := fun i =>
  match i with
  | 1 => state 5
  | 5 => state 9
  | 9 => state 13
  | 13 => state 1
  | 2 => state 10
  | 10 => state 2
  | 6 => state 14
  | 14 => state 6
  | 3 => state 15
  | 15 => state 11
  | 11 => state 7
  | 7 => state 3
  | i => state i

/-- `inv_shift_rows`: the old byte that each assignment puts in place. -/
def invShiftRows (state : Buf) : Buf := fun i =>
  match i with
  | 13 => state 9
  | 9 => state 5
  | 5 => state 1
  | 1 => state 13
  | 14 => state 6
  | 6 => state 14
  | 10 => state 2
  | 2 => state 10
  | 7 => state 11
  | 11 => state 15
  | 15 => state 3
  | 3 => state 7
  | i => state i

/-- `add_round_key` with the key bytes `round_key[16 * round + i]`. -/
def addRoundKey (roundKey : Buf) (state : Buf) (round : Nat) : Buf := fun i =>
  if i < 16 then state i ^^^ roundKey (16 * round + i) else state i

/-! ## Key schedule -/

/-- `rot_word`. -/
def rotWord (w : Column) : Column := ⟨w.b1, w.b2, w.b3, w.b0⟩

/-- `sub_word`. -/
def subWord (w : Column) : Column := ⟨aesSbox w.b0, aesSbox w.b1, aesSbox w.b2, aesSbox w.b3⟩

/-- The word that pass `i` of the second loop of `key_expansion` adds to the
word four places back. -/
def scheduleWord (roundKey : Buf) (i : Nat) : Column :=
  let word := column roundKey (i - 1)
  if i % 4 = 0 then
    let word := subWord (rotWord word)
    { word with b0 := word.b0 ^^^ rcon (i / 4) }
  else word

/-- One pass of the second loop of `key_expansion`. -/
def expandStep (roundKey : Buf) (i : Nat) : Buf :=
  let word := scheduleWord roundKey i
  let old := column roundKey (i - 4)
  storeColumn roundKey i
    ⟨old.b0 ^^^ word.b0, old.b1 ^^^ word.b1, old.b2 ^^^ word.b2, old.b3 ^^^ word.b3⟩

/-- `key_expansion`: the key schedule after the call, from the schedule before
it and the key. -/
def keyExpansion (roundKey key : Buf) : Buf :=
  let first := (List.range 4).foldl (fun rk i => storeColumn rk i (column key i)) roundKey
  (List.range 40).foldl (fun rk i => expandStep rk (i + 4)) first

/-! ## Block cipher -/

/-- Pass `i` of the round loop of `aes_block_encryption`. -/
def encryptRound (roundKey state : Buf) (i : Nat) : Buf :=
  addRoundKey roundKey (mixColumns (shiftRows (subBytes state))) i

/-- Pass `i` of the round loop of `aes_block_decryption`. -/
def decryptRound (roundKey state : Buf) (i : Nat) : Buf :=
  invSubBytes (invShiftRows (invMixColumns (addRoundKey roundKey state i)))

/-- `[1, ..., AES_NUM_ROUND - 1]`, the values of the round loop of encryption;
decryption goes through them downwards. -/
def rounds : List Nat := (List.range (aesNumRound - 1)).map (· + 1)

/-- `aes_block_encryption`: `out` after the call. -/
def aesBlockEncryption (roundKey input out : Buf) : Buf :=
  let state := addRoundKey roundKey input 0
  let state := rounds.foldl (encryptRound roundKey) state
  let state := addRoundKey roundKey (shiftRows (subBytes state)) aesNumRound
  memcpy out 0 state 0 16

/-- `aes_block_decryption`: `out` after the call. -/
def aesBlockDecryption (roundKey input out : Buf) : Buf :=
  let state := addRoundKey roundKey input aesNumRound
  let state := invSubBytes (invShiftRows state)
  let state := rounds.reverse.foldl (decryptRound roundKey) state
  let state := addRoundKey roundKey state 0
  memcpy out 0 state 0 16

/-! ## Loops over the columns -/

/-- The bytes of a stored column. -/
theorem storeColumn_apply (state : Buf) (i : Nat) (c : Column) (k : Nat) :
    storeColumn state i c k =
      if k = 4 * i then c.b0 else if k = 4 * i + 1 then c.b1
      else if k = 4 * i + 2 then c.b2 else if k = 4 * i + 3 then c.b3 else state k := by
  unfold storeColumn Function.update
  simp only [eq_rec_constant, dite_eq_ite]
  split_ifs <;> first | rfl | omega

/-- A column reads back what was stored in it. -/
theorem column_storeColumn_self (state : Buf) (i : Nat) (c : Column) :
    column (storeColumn state i c) i = c := by
  simp [column, storeColumn_apply]

/-- Storing one column leaves the others alone. -/
theorem column_storeColumn_of_ne (state : Buf) {i j : Nat} (c : Column) (h : j ≠ i) :
    column (storeColumn state i c) j = column state j := by
  simp only [column, storeColumn_apply]
  congr 1 <;> rw [if_neg (by omega), if_neg (by omega), if_neg (by omega), if_neg (by omega)]

/-- Bytes past the columns a loop stores keep their value. -/
theorem storeColumn_past (state : Buf) {i k : Nat} (c : Column) (h : 4 * i + 4 ≤ k) :
    storeColumn state i c k = state k := by
  rw [storeColumn_apply, if_neg (by omega), if_neg (by omega), if_neg (by omega),
    if_neg (by omega)]

/-- A loop over the first columns replaces each of them by its image and keeps
the bytes after them. -/
theorem storeColumns_spec (f : Nat → Column) (state : Buf) (n : Nat) :
    (∀ j, column ((List.range n).foldl (fun st i => storeColumn st i (f i)) state) j =
        if j < n then f j else column state j) ∧
      ∀ k, 4 * n ≤ k →
        (List.range n).foldl (fun st i => storeColumn st i (f i)) state k = state k := by
  induction n with
  | zero => simp
  | succ n ih =>
      obtain ⟨hcol, hpast⟩ := ih
      rw [List.range_succ, List.foldl_append, List.foldl_cons, List.foldl_nil]
      constructor
      · intro j
        by_cases hj : j = n
        · subst hj
          rw [column_storeColumn_self, if_pos (by omega)]
        · rw [column_storeColumn_of_ne _ _ hj, hcol]
          simp only [show j < n + 1 ↔ j < n by omega]
      · intro k hk
        rw [storeColumn_past _ _ (by omega), hpast k (by omega)]

/-- Two buffers are equal when their first four columns and all later bytes are. -/
theorem buf_ext_columns {a b : Buf} (hcol : ∀ i < 4, column a i = column b i)
    (hpast : ∀ k, 16 ≤ k → a k = b k) : a = b := by
  funext k
  by_cases hk : k < 16
  · have hc := hcol (k / 4) (by omega)
    simp only [column, Column.mk.injEq] at hc
    have hcases : k = 4 * (k / 4) ∨ k = 4 * (k / 4) + 1 ∨ k = 4 * (k / 4) + 2 ∨
        k = 4 * (k / 4) + 3 := by omega
    rcases hcases with h | h | h | h
    · rw [h]; exact hc.1
    · rw [h]; exact hc.2.1
    · rw [h]; exact hc.2.2.1
    · rw [h]; exact hc.2.2.2
  · exact hpast k (by omega)

end Aes
end NochOS
