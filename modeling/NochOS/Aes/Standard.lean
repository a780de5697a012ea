import NochOS.Aes.Field

/-!
# AES - conformance with the standard

The standard describes the cipher by its algebra: the substitution is the affine map of
the inverse, the mixing of a column a product of polynomials over the field, and the words
of the key schedule a recurrence with the powers of `x`.  This module states the standard
on matrices over the field, and shows stage by stage that the source computes it.

Main results:

- Definition `Standard.cipher`: the cipher of the standard, with a key of 128 bits.
- Theorem `columnField_mixColumn`: the shortcut of `mix_columns` is the product by
  `3x^3 + x^2 + x + 2` modulo `x^4 + 1`.
- Theorem `keyExpansion_words`: the key schedule.
- Theorem `aes_conforms`: `key_expansion` and `aes_block_encryption` compute the cipher of
  the standard.
-/

namespace NochOS
namespace Aes

open Library Polynomial

/-! ## The standard -/

/-- A block: the elements by row and column. -/
abbrev State := Fin 4 → Fin 4 → GF

namespace Standard

noncomputable section

/-- SubBytes. -/
def subBytes (s : State) : State := fun r c => subByte (s r c)

/-- ShiftRows: row `r` moves `r` places to the left. -/
def shiftRows (s : State) : State := fun r c => s r (c + r)

/-- The polynomial of a column. -/
def columnPoly (v : Fin 4 → GF) : GF[X] := C (v 0) + C (v 1) * X + C (v 2) * X ^ 2 + C (v 3) * X ^ 3

/-- The polynomial `3x^3 + x^2 + x + 2`. -/
def mixPoly : GF[X] := C (gfX + 1) * X ^ 3 + X ^ 2 + X + C gfX

/-- MixColumns on one column. -/
def mixColumn (v : Fin 4 → GF) : Fin 4 → GF := fun r =>
  (columnPoly v * mixPoly %ₘ (X ^ 4 + 1)).coeff r

/-- MixColumns. -/
def mixColumns (s : State) : State := fun r c => mixColumn (fun i => s i c) r

/-- RotWord. -/
def rotWord (w : Fin 4 → GF) : Fin 4 → GF := fun r => w (r + 1)

/-- SubWord. -/
def subWord (w : Fin 4 → GF) : Fin 4 → GF := fun r => subByte (w r)

/-- Rcon. -/
def rcon (i : Nat) : Fin 4 → GF := fun r => if r = 0 then gfX ^ (i - 1) else 0

/-- The words of the key schedule. -/
def keyWord (key : State) (i : Nat) : Fin 4 → GF :=
  if h : i < 4 then fun r => key r ⟨i, h⟩
  else if i % 4 = 0 then
    keyWord key (i - 4) + (subWord (rotWord (keyWord key (i - 1))) + rcon (i / 4))
  else keyWord key (i - 4) + keyWord key (i - 1)
termination_by i

/-- AddRoundKey. -/
def addRoundKey (key : State) (round : Nat) (s : State) : State := fun r c =>
  s r c + keyWord key (4 * round + c) r

/-- A round. -/
def round (key : State) (s : State) (i : Nat) : State :=
  addRoundKey key i (mixColumns (shiftRows (subBytes s)))

/-- The cipher: ten rounds, the last of them without MixColumns. -/
def cipher (key block : State) : State :=
  addRoundKey key 10
    (shiftRows (subBytes ([1, 2, 3, 4, 5, 6, 7, 8, 9].foldl (round key) (addRoundKey key 0 block))))

end

end Standard

/-! ## Columns -/

/-- A byte of a column. -/
def Column.byte (t : Column) : Fin 4 → UInt8 := ![t.b0, t.b1, t.b2, t.b3]

noncomputable section

/-- The elements of a column. -/
def columnField (t : Column) : Fin 4 → GF := fun r => toField (t.byte r)

/-- The block in a buffer. -/
def stateOf (buf : Buf) : State := fun r c => toField (buf (4 * c + r))

theorem byte_column (buf : Buf) (i : Nat) (r : Fin 4) :
    (column buf i).byte r = buf (4 * i + r) := by
  fin_cases r <;> rfl

theorem stateOf_column (buf : Buf) (c : Fin 4) :
    (fun r => stateOf buf r c) = columnField (column buf c) := by
  funext r
  rw [columnField, byte_column, stateOf]

theorem two_eq_zero : (2 : GF) = 0 := by
  have h : toField 1 + toField 1 = 0 := by
    rw [← toField_xor, UInt8.xor_self, toField_zero]
  rw [toField_one, one_add_one_eq_two] at h
  exact h

/-- Reduction modulo `x^4 + 1` folds the upper coefficients onto the lower ones. -/
theorem modByMonic_fold (d0 d1 d2 d3 d4 d5 d6 : GF) :
    (C d0 + C d1 * X + C d2 * X ^ 2 + C d3 * X ^ 3 + C d4 * X ^ 4 + C d5 * X ^ 5 +
        C d6 * X ^ 6) %ₘ (X ^ 4 + 1) =
      C (d0 + d4) + C (d1 + d5) * X + C (d2 + d6) * X ^ 2 + C d3 * X ^ 3 := by
  have hmonic : (X ^ 4 + 1 : GF[X]).Monic := by
    monicity!
  have htwo : (2 : GF[X]) = 0 := by
    rw [← C_ofNat, show (OfNat.ofNat 2 : GF) = 0 from two_eq_zero, C_0]
  refine (div_modByMonic_unique (C d4 + C d5 * X + C d6 * X ^ 2) _ hmonic ⟨?_, ?_⟩).2
  · rw [C_add, C_add, C_add]
    linear_combination (C d4 + C d5 * X + C d6 * X ^ 2) * htwo
  · have hlt : (C (d0 + d4) + C (d1 + d5) * X + C (d2 + d6) * X ^ 2 + C d3 * X ^ 3).degree ≤ 3 := by
      compute_degree
    have hdeg : (X ^ 4 + 1 : GF[X]).degree = 4 := by
      compute_degree!
    rw [hdeg]
    exact hlt.trans_lt (by norm_num)

/-- The coefficients of a cubic polynomial. -/
theorem coeff_cubic (a b c d : GF) (r : Fin 4) :
    (C a + C b * X + C c * X ^ 2 + C d * X ^ 3).coeff (r : Nat) = ![a, b, c, d] r := by
  simp only [coeff_add, coeff_C_mul, coeff_C, coeff_X]
  fin_cases r <;> simp

/-- The coefficients of a mixed column. -/
theorem Standard.mixColumn_eq (v : Fin 4 → GF) :
    Standard.mixColumn v =
      ![gfX * v 0 + ((gfX + 1) * v 1 + v 2 + v 3), v 0 + gfX * v 1 + ((gfX + 1) * v 2 + v 3),
        v 0 + v 1 + gfX * v 2 + (gfX + 1) * v 3, (gfX + 1) * v 0 + v 1 + v 2 + gfX * v 3] := by
  have hprod : columnPoly v * mixPoly =
      C (gfX * v 0) + C (v 0 + gfX * v 1) * X + C (v 0 + v 1 + gfX * v 2) * X ^ 2 +
        C ((gfX + 1) * v 0 + v 1 + v 2 + gfX * v 3) * X ^ 3 +
        C ((gfX + 1) * v 1 + v 2 + v 3) * X ^ 4 + C ((gfX + 1) * v 2 + v 3) * X ^ 5 +
        C ((gfX + 1) * v 3) * X ^ 6 := by
    unfold columnPoly mixPoly
    simp only [C_add, C_mul, C_1]
    ring
  funext r
  rw [Standard.mixColumn, hprod, modByMonic_fold, coeff_cubic]

/-- The shortcut of `mix_columns` is the product of the standard. -/
theorem columnField_mixColumn (t : Column) :
    columnField (mixColumn t) = Standard.mixColumn (columnField t) := by
  rw [Standard.mixColumn_eq, mixColumn_eq]
  funext r
  fin_cases r
  · simp [columnField, Column.byte, toField_xor, toField_xtimes]
    ring
  · simp [columnField, Column.byte, toField_xor, toField_xtimes]
    ring
  · simp [columnField, Column.byte, toField_xor, toField_xtimes]
    ring
  · simp [columnField, Column.byte, toField_xor, toField_xtimes]
    ring

/-! ## The stages of a round -/

theorem stateOf_subBytes (state : Buf) :
    stateOf (subBytes state) = Standard.subBytes (stateOf state) := by
  funext r c
  have hlt : 4 * (c : Nat) + r < 16 := by omega
  simp only [stateOf, subBytes, Standard.subBytes, if_pos hlt, toField_aesSbox]

theorem stateOf_shiftRows (state : Buf) :
    stateOf (shiftRows state) = Standard.shiftRows (stateOf state) := by
  have hbyte : ∀ r c : Fin 4,
      shiftRows state (4 * c + r) = state (4 * ((c + r : Fin 4) : Nat) + r) := by
    intro r c
    fin_cases r <;> fin_cases c <;> rfl
  funext r c
  rw [stateOf, hbyte, Standard.shiftRows, stateOf]

theorem stateOf_mixColumns (state : Buf) :
    stateOf (mixColumns state) = Standard.mixColumns (stateOf state) := by
  funext r c
  calc
    stateOf (mixColumns state) r c = columnField (column (mixColumns state) c) r :=
      congrFun (stateOf_column (mixColumns state) c) r
    _ = Standard.mixColumn (columnField (column state c)) r := by
      rw [mixColumns_column _ c.isLt, columnField_mixColumn]
    _ = Standard.mixColumns (stateOf state) r c := by
      rw [← stateOf_column, Standard.mixColumns]

/-! ## The key schedule -/

/-- The schedule holds the words of the standard. -/
def Scheduled (roundKey key : Buf) (n : Nat) : Prop :=
  ∀ i < n, columnField (column roundKey i) = Standard.keyWord (stateOf key) i

theorem columnField_subWord (t : Column) :
    columnField (subWord t) = Standard.subWord (columnField t) := by
  have hbyte : ∀ r, (subWord t).byte r = aesSbox (t.byte r) := by
    intro r
    fin_cases r <;> rfl
  funext r
  rw [columnField, hbyte, toField_aesSbox, Standard.subWord, columnField]

theorem columnField_rotWord (t : Column) :
    columnField (rotWord t) = Standard.rotWord (columnField t) := by
  have hbyte : ∀ r, (rotWord t).byte r = t.byte (r + 1) := by
    intro r
    fin_cases r <;> rfl
  funext r
  rw [columnField, hbyte, Standard.rotWord, columnField]

theorem columnField_addColumn (s t : Column) :
    columnField (addColumn s t) = columnField s + columnField t := by
  have hbyte : ∀ r, (addColumn s t).byte r = s.byte r ^^^ t.byte r := by
    intro r
    fin_cases r <;> rfl
  funext r
  rw [columnField, hbyte, toField_xor, Pi.add_apply, columnField, columnField]

/-- The round constants are the powers of `x`. -/
theorem toField_rcon {j : Nat} (hj : j < 10) : toField (rcon (j + 1)) = gfX ^ j := by
  induction j with
  | zero =>
      have hfirst : rcon (0 + 1) = 1 := rfl
      rw [hfirst, toField_one, pow_zero]
  | succ j ih =>
      have hnext : ∀ j < 9, rcon (j + 1 + 1) = xtimes (rcon (j + 1)) := by
        decide
      rw [hnext j (by omega), toField_xtimes, ih (by omega), pow_succ']

/-- The word that a pass adds to the one four places back. -/
theorem columnField_scheduleWord {roundKey : Buf} {i : Nat} (hlo : 4 ≤ i) (hhi : i < 44) :
    columnField (scheduleWord roundKey i) =
      if i % 4 = 0 then
        Standard.subWord (Standard.rotWord (columnField (column roundKey (i - 1)))) +
          Standard.rcon (i / 4)
      else columnField (column roundKey (i - 1)) := by
  unfold scheduleWord
  by_cases hfirst : i % 4 = 0
  · have hrcon : toField (rcon (i / 4)) = gfX ^ (i / 4 - 1) := by
      rw [← toField_rcon (show i / 4 - 1 < 10 by omega), Nat.sub_add_cancel (by omega)]
    have hadd : ∀ (t : Column) (b : UInt8),
        { t with b0 := t.b0 ^^^ b } = addColumn t ⟨b, 0, 0, 0⟩ := by
      intro t b
      simp [addColumn]
    have hconst : columnField ⟨rcon (i / 4), 0, 0, 0⟩ = Standard.rcon (i / 4) := by
      funext r
      rw [columnField, Standard.rcon]
      by_cases hr : r = 0
      · rw [hr, if_pos rfl, ← hrcon]
        rfl
      · have hzero : Column.byte ⟨rcon (i / 4), 0, 0, 0⟩ r = 0 := by
          fin_cases r
          · exact absurd rfl hr
          · rfl
          · rfl
          · rfl
        rw [if_neg hr, hzero, toField_zero]
    rw [if_pos hfirst, if_pos hfirst, ← columnField_rotWord, ← columnField_subWord, ← hconst,
      ← columnField_addColumn, hadd]
  · rw [if_neg hfirst, if_neg hfirst]

/-- One pass of the schedule appends one word. -/
theorem Scheduled.expandStep {roundKey key : Buf} {i : Nat} (h : Scheduled roundKey key i)
    (hlo : 4 ≤ i) (hhi : i < 44) : Scheduled (expandStep roundKey i) key (i + 1) := by
  have hstep : Aes.expandStep roundKey i = storeColumn roundKey i
      (addColumn (column roundKey (i - 4)) (scheduleWord roundKey i)) := rfl
  intro j hj
  rw [hstep]
  by_cases hij : j = i
  · subst hij
    rw [column_storeColumn_self, columnField_addColumn, columnField_scheduleWord hlo hhi,
      h _ (by omega), h _ (by omega), Standard.keyWord.eq_1 (stateOf key) j, dif_neg (by omega)]
    by_cases hfirst : j % 4 = 0
    · rw [if_pos hfirst, if_pos hfirst]
    · rw [if_neg hfirst, if_neg hfirst]
  · rw [column_storeColumn_of_ne _ _ hij, h j (by omega)]

/-- The first loop copies the key. -/
theorem scheduled_first (schedule key : Buf) :
    Scheduled ((List.range 4).foldl (fun rk i => storeColumn rk i (column key i)) schedule)
      key 4 := by
  intro i hi
  rw [(storeColumns_spec (column key) schedule 4).1, if_pos hi, Standard.keyWord, dif_pos hi]
  exact (stateOf_column key ⟨i, hi⟩).symm

/-- The second loop goes on from there. -/
theorem Scheduled.rest {roundKey key : Buf} (h : Scheduled roundKey key 4) {n : Nat}
    (hn : n ≤ 40) :
    Scheduled ((List.range n).foldl (fun rk i => Aes.expandStep rk (i + 4)) roundKey) key
      (n + 4) := by
  induction n with
  | zero => exact h
  | succ n ih =>
      rw [List.range_succ, List.foldl_append, List.foldl_cons, List.foldl_nil, Nat.add_right_comm]
      exact (ih (by omega)).expandStep (by omega) (by omega)

/-- `key_expansion` computes the words of the standard. -/
theorem keyExpansion_words (schedule key : Buf) : Scheduled (keyExpansion schedule key) key 44 :=
  (scheduled_first schedule key).rest le_rfl

/-! ## The cipher -/

section Cipher

variable {roundKey key : Buf}

theorem stateOf_addRoundKey (h : Scheduled roundKey key 44) (state : Buf) {round : Nat}
    (hround : round ≤ 10) :
    stateOf (addRoundKey roundKey state round) =
      Standard.addRoundKey (stateOf key) round (stateOf state) := by
  funext r c
  have hword := congrFun (h (4 * round + c) (by omega)) r
  have hindex : 4 * (4 * round + (c : Nat)) + r = 16 * round + (4 * c + r) := by
    omega
  have hlt : 4 * (c : Nat) + r < 16 := by
    omega
  rw [columnField, byte_column, hindex] at hword
  rw [stateOf, addRoundKey, if_pos hlt, toField_xor, hword, Standard.addRoundKey, stateOf]

theorem stateOf_encryptRound (h : Scheduled roundKey key 44) (state : Buf) {i : Nat}
    (hi : i ≤ 10) :
    stateOf (encryptRound roundKey state i) = Standard.round (stateOf key) (stateOf state) i := by
  rw [encryptRound, stateOf_addRoundKey h _ hi, stateOf_mixColumns, stateOf_shiftRows,
    stateOf_subBytes, Standard.round]

theorem stateOf_rounds (h : Scheduled roundKey key 44) (l : List Nat) (hl : ∀ i ∈ l, i ≤ 10)
    (state : Buf) :
    stateOf (l.foldl (encryptRound roundKey) state) =
      l.foldl (Standard.round (stateOf key)) (stateOf state) := by
  induction l generalizing state with
  | nil => rfl
  | cons i l ih =>
      rw [List.foldl_cons, List.foldl_cons, ih fun j hj => hl j (List.mem_cons_of_mem i hj),
        stateOf_encryptRound h state (hl i List.mem_cons_self)]

/-- The state at the end of encryption. -/
theorem stateOf_encryptState (h : Scheduled roundKey key 44) (state : Buf) :
    stateOf (encryptState roundKey state) = Standard.cipher (stateOf key) (stateOf state) := by
  rw [encryptState, stateOf_addRoundKey h _ (by decide), stateOf_shiftRows, stateOf_subBytes,
    stateOf_rounds h rounds (by decide), stateOf_addRoundKey h _ (by decide), Standard.cipher]
  rfl

end Cipher

/-- For every key and every block, the block that `aes_block_encryption` writes after
`key_expansion` is the one of the standard, whatever the schedule and the output held. -/
theorem aes_conforms (schedule key block out : Buf) (r c : Fin 4) :
    aesBlockEncryption (keyExpansion schedule key) block out (4 * c + r) =
      byteEquiv.symm (Standard.cipher (stateOf key) (stateOf block) r c) := by
  rw [Equiv.eq_symm_apply, aesBlockEncryption_eq, block_byte _ _ (by omega),
    ← stateOf_encryptState (keyExpansion_words schedule key)]
  rfl

end

end Aes
end NochOS
