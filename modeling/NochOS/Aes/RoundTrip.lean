import NochOS.Aes.Cipher
import NochOS.Library.Undo
import Mathlib.Data.Nat.Bitwise

/-!
# AES - decryption undoes encryption and encryption undoes decryption

Every stage of a round is undone by its counterpart: the tables by each other,
the row shifts by the shifts the other way, the key addition by itself, and the
column mixing by the shortcut inverse the source computes.  For the last of these
the multiplication by x is linear over exclusive or, which turns the composition
of the two column maps into an identity between sums of its iterates.

Main results:

- Theorem `ofNat_gfHelper`: a value wider than a byte and its truncation have the
  same product by x modulo 256.
- Theorems `invMixColumn_mixColumn`, `mixColumn_invMixColumn`: the shortcut
  inverse column mixing and the forward one undo each other.
- Theorem `aes_round_trip`: for every key and block, decryption of the encrypted
  block and encryption of the decrypted block give the block back.
-/

namespace NochOS
namespace Aes

open Library

/-! ## Multiplication by x -/

/-- `GF_HELPER` on a byte, cut to a byte. -/
def xtimes (b : UInt8) : UInt8 := UInt8.ofNat (gfHelper b.toNat)

/-- `GF_HELPER` doubles and adds the reduction constant when bit 7 is set. -/
theorem gfHelper_eq (n : Nat) :
    gfHelper n = (n <<< 1) ^^^ (if n.testBit 7 then 0x1B else 0) := by
  have hbit : n &&& 0x80 ≠ 0 ↔ n.testBit 7 = true := by
    rw [show (0x80 : Nat) = 2 ^ 7 by rfl, Nat.and_two_pow]
    cases n.testBit 7 <;> simp
  unfold gfHelper
  by_cases h : n.testBit 7 = true
  · rw [if_pos (hbit.mpr h), if_pos h]
  · rw [if_neg (mt hbit.mp h), if_neg h, Nat.xor_zero]

/-- Multiplication by x is linear over exclusive or. -/
theorem gfHelper_xor (m n : Nat) : gfHelper (m ^^^ n) = gfHelper m ^^^ gfHelper n := by
  have hif : (if (m ^^^ n).testBit 7 then 0x1B else 0) =
      (if m.testBit 7 then 0x1B else 0) ^^^ (if n.testBit 7 then 0x1B else 0) := by
    rw [Nat.testBit_xor]
    cases m.testBit 7 <;> cases n.testBit 7 <;> rfl
  rw [gfHelper_eq, gfHelper_eq, gfHelper_eq, Nat.shiftLeft_xor_distrib, hif]
  ac_rfl

/-- The low byte of the product depends only on the low byte of the factor. -/
theorem ofNat_gfHelper (n : Nat) : UInt8.ofNat (gfHelper n) = xtimes (UInt8.ofNat n) := by
  have hbit : (n % 2 ^ 8).testBit 7 = n.testBit 7 := by
    rw [Nat.testBit_mod_two_pow]
    rfl
  have hshift : UInt8.ofNat (n <<< 1) = UInt8.ofNat ((n % 2 ^ 8) <<< 1) := by
    apply UInt8.toNat_inj.mp
    simp only [UInt8.toNat_ofNat', Nat.shiftLeft_eq]
    omega
  unfold xtimes
  rw [UInt8.toNat_ofNat', gfHelper_eq, gfHelper_eq, hbit, UInt8.ofNat_xor, UInt8.ofNat_xor, hshift]

/-- Multiplication by x on bytes is linear over exclusive or. -/
theorem xtimes_xor (a b : UInt8) : xtimes (a ^^^ b) = xtimes a ^^^ xtimes b := by
  unfold xtimes
  rw [UInt8.toNat_xor, gfHelper_xor, UInt8.ofNat_xor]

/-! ## The column maps -/

theorem xor_left_comm (a b c : UInt8) : a ^^^ (b ^^^ c) = b ^^^ (a ^^^ c) := by
  rw [← UInt8.xor_assoc, UInt8.xor_comm a b, UInt8.xor_assoc]

theorem xor_cancel_left (a b : UInt8) : a ^^^ (a ^^^ b) = b := by
  rw [← UInt8.xor_assoc, UInt8.xor_self, UInt8.zero_xor]

/-- The forward column map, over bytes. -/
theorem mixColumn_eq (t : Column) :
    mixColumn t =
      { b0 := xtimes t.b0 ^^^ (xtimes t.b1 ^^^ (t.b1 ^^^ (t.b2 ^^^ t.b3)))
        b1 := xtimes t.b1 ^^^ (xtimes t.b2 ^^^ (t.b0 ^^^ (t.b2 ^^^ t.b3)))
        b2 := xtimes t.b2 ^^^ (xtimes t.b3 ^^^ (t.b0 ^^^ (t.b1 ^^^ t.b3)))
        b3 := xtimes t.b3 ^^^ (xtimes t.b0 ^^^ (t.b0 ^^^ (t.b1 ^^^ t.b2))) } := by
  simp only [mixColumn, UInt8.ofNat_xor, ofNat_gfHelper, UInt8.ofNat_toNat, xtimes_xor,
    UInt8.xor_assoc, UInt8.xor_comm, xor_left_comm, xor_cancel_left]

/-- Sum of two columns. -/
def addColumn (s t : Column) : Column :=
  ⟨s.b0 ^^^ t.b0, s.b1 ^^^ t.b1, s.b2 ^^^ t.b2, s.b3 ^^^ t.b3⟩

/-- What `inv_mix_columns` adds to the forward map. -/
def correction (t : Column) : Column :=
  let u := xtimes (xtimes (t.b0 ^^^ t.b2))
  let v := xtimes (xtimes (t.b1 ^^^ t.b3))
  let w := xtimes (u ^^^ v)
  ⟨w ^^^ u, w ^^^ v, w ^^^ u, w ^^^ v⟩

/-- The shortcut inverse is the forward map plus the correction. -/
theorem invMixColumn_eq (t : Column) :
    invMixColumn t = addColumn (mixColumn t) (correction t) := by
  simp only [invMixColumn, addColumn, correction, ofNat_gfHelper, UInt8.ofNat_toNat]

/-- The forward map is linear. -/
theorem mixColumn_addColumn (s t : Column) :
    mixColumn (addColumn s t) = addColumn (mixColumn s) (mixColumn t) := by
  simp only [mixColumn_eq, addColumn, xtimes_xor, UInt8.xor_assoc, UInt8.xor_comm, xor_left_comm]

/-- The forward map on a column whose opposite bytes are equal. -/
theorem mixColumn_opposite (p q : UInt8) :
    mixColumn ⟨p, q, p, q⟩ =
      ⟨xtimes (p ^^^ q) ^^^ p, xtimes (p ^^^ q) ^^^ q, xtimes (p ^^^ q) ^^^ p,
        xtimes (p ^^^ q) ^^^ q⟩ := by
  simp only [mixColumn_eq, xtimes_xor, UInt8.xor_assoc, UInt8.xor_comm, xor_left_comm,
    xor_cancel_left]

/-- The sums of opposite bytes after the forward map. -/
theorem mixColumn_opposite_sums (t : Column) :
    (mixColumn t).b0 ^^^ (mixColumn t).b2 =
        xtimes ((t.b0 ^^^ t.b2) ^^^ (t.b1 ^^^ t.b3)) ^^^ (t.b0 ^^^ t.b2) ∧
      (mixColumn t).b1 ^^^ (mixColumn t).b3 =
        xtimes ((t.b0 ^^^ t.b2) ^^^ (t.b1 ^^^ t.b3)) ^^^ (t.b1 ^^^ t.b3) := by
  constructor <;>
    simp only [mixColumn_eq, xtimes_xor, UInt8.xor_assoc, UInt8.xor_comm, xor_left_comm,
      xor_cancel_left]

/-- The forward map and the correction commute. -/
theorem mixColumn_correction (t : Column) :
    mixColumn (correction t) = correction (mixColumn t) := by
  simp only [correction, mixColumn_opposite, mixColumn_opposite_sums]
  generalize t.b0 ^^^ t.b2 = a
  generalize t.b1 ^^^ t.b3 = b
  simp only [xtimes_xor]

@[simp] theorem xtimes_zero : xtimes 0 = 0 := rfl

/-- The shortcut inverse undoes the forward column mixing. -/
theorem invMixColumn_mixColumn (t : Column) : invMixColumn (mixColumn t) = t := by
  rw [invMixColumn_eq]
  simp only [mixColumn_eq, addColumn, correction, xtimes_xor, UInt8.xor_assoc, UInt8.xor_comm,
    xor_left_comm, xor_cancel_left, UInt8.xor_self, UInt8.xor_zero, xtimes_zero]

/-- The forward column mixing undoes the shortcut inverse. -/
theorem mixColumn_invMixColumn (t : Column) : mixColumn (invMixColumn t) = t := by
  calc
    mixColumn (invMixColumn t) =
        addColumn (mixColumn (mixColumn t)) (correction (mixColumn t)) := by
      rw [invMixColumn_eq, mixColumn_addColumn, mixColumn_correction]
    _ = invMixColumn (mixColumn t) := (invMixColumn_eq _).symm
    _ = t := invMixColumn_mixColumn t

/-! ## The stages of a round -/

/-- The columns of a mixed state, and the bytes after them. -/
theorem mixColumns_column (state : Buf) {i : Nat} (hi : i < 4) :
    column (mixColumns state) i = mixColumn (column state i) := by
  rw [mixColumns, (storeColumns_spec _ state 4).1, if_pos hi]

theorem invMixColumns_column (state : Buf) {i : Nat} (hi : i < 4) :
    column (invMixColumns state) i = invMixColumn (column state i) := by
  rw [invMixColumns, (storeColumns_spec _ state 4).1, if_pos hi]

theorem mixColumns_past (state : Buf) {k : Nat} (hk : 16 ≤ k) :
    mixColumns state k = state k :=
  (storeColumns_spec _ state 4).2 k hk

theorem invMixColumns_past (state : Buf) {k : Nat} (hk : 16 ≤ k) :
    invMixColumns state k = state k :=
  (storeColumns_spec _ state 4).2 k hk

theorem invMixColumns_mixColumns (state : Buf) : invMixColumns (mixColumns state) = state := by
  apply buf_ext_columns
  · intro i hi
    rw [invMixColumns_column _ hi, mixColumns_column _ hi, invMixColumn_mixColumn]
  · intro k hk
    rw [invMixColumns_past _ hk, mixColumns_past _ hk]

theorem mixColumns_invMixColumns (state : Buf) : mixColumns (invMixColumns state) = state := by
  apply buf_ext_columns
  · intro i hi
    rw [mixColumns_column _ hi, invMixColumns_column _ hi, mixColumn_invMixColumn]
  · intro k hk
    rw [mixColumns_past _ hk, invMixColumns_past _ hk]

theorem invSubBytes_subBytes (state : Buf) : invSubBytes (subBytes state) = state := by
  funext i
  by_cases hi : i < 16 <;> simp [invSubBytes, subBytes, hi, aesInvsbox_aesSbox]

theorem subBytes_invSubBytes (state : Buf) : subBytes (invSubBytes state) = state := by
  funext i
  by_cases hi : i < 16 <;> simp [invSubBytes, subBytes, hi, aesSbox_aesInvsbox]

theorem invShiftRows_shiftRows (state : Buf) : invShiftRows (shiftRows state) = state := by
  funext i
  unfold invShiftRows
  split <;> simp_all [shiftRows]

theorem shiftRows_invShiftRows (state : Buf) : shiftRows (invShiftRows state) = state := by
  funext i
  unfold shiftRows
  split <;> simp_all [invShiftRows]

/-- Adding the same round key twice changes nothing. -/
theorem addRoundKey_addRoundKey (roundKey state : Buf) (i : Nat) :
    addRoundKey roundKey (addRoundKey roundKey state i) i = state := by
  funext k
  by_cases hk : k < 16
  · simp only [addRoundKey, if_pos hk, UInt8.xor_assoc, UInt8.xor_self, UInt8.xor_zero]
  · simp only [addRoundKey, if_neg hk]

/-- A round of decryption undoes the round of encryption with the same key. -/
theorem decryptRound_encryptRound (roundKey state : Buf) (i : Nat) :
    decryptRound roundKey (encryptRound roundKey state i) i = state := by
  rw [decryptRound, encryptRound, addRoundKey_addRoundKey, invMixColumns_mixColumns,
    invShiftRows_shiftRows, invSubBytes_subBytes]

/-- A round of encryption undoes the round of decryption with the same key. -/
theorem encryptRound_decryptRound (roundKey state : Buf) (i : Nat) :
    encryptRound roundKey (decryptRound roundKey state i) i = state := by
  rw [decryptRound, encryptRound, subBytes_invSubBytes, shiftRows_invShiftRows,
    mixColumns_invMixColumns, addRoundKey_addRoundKey]

/-! ## Stages work on the block alone -/

/-- A stage that works on the first 16 bytes alone: it may as well be applied
before the block is copied in front of other bytes. -/
def OnBlock (f : Buf → Buf) : Prop :=
  ∀ tail state : Buf, f (memcpy tail 0 state 0 16) = memcpy tail 0 (f state) 0 16

theorem OnBlock.comp {f g : Buf → Buf} (hf : OnBlock f) (hg : OnBlock g) :
    OnBlock fun state => f (g state) := by
  intro tail state
  simp only [hg tail state, hf tail (g state)]

theorem OnBlock.foldl {ι : Type} {f : Buf → ι → Buf} (hf : ∀ i, OnBlock fun state => f state i)
    (l : List ι) : OnBlock fun state => l.foldl f state := by
  intro tail state
  induction l generalizing state with
  | nil => rfl
  | cons i l ih =>
      have hi : f (memcpy tail 0 state 0 16) i = memcpy tail 0 (f state i) 0 16 := hf i tail state
      simp only [List.foldl_cons] at ih ⊢
      rw [hi, ih]

/-- A byte of the block after a copy of the block. -/
theorem block_byte (tail state : Buf) {i : Nat} (hi : i < 16) :
    memcpy tail 0 state 0 16 i = state i := by
  rw [memcpy_inside (by omega) (by omega)]
  simp

/-- A column of the block after a copy of the block. -/
theorem block_column (tail state : Buf) {i : Nat} (hi : i < 4) :
    column (memcpy tail 0 state 0 16) i = column state i := by
  unfold column
  rw [block_byte _ _ (by omega), block_byte _ _ (by omega), block_byte _ _ (by omega),
    block_byte _ _ (by omega)]

theorem onBlock_subBytes : OnBlock subBytes := by
  intro tail state
  funext i
  by_cases hi : i < 16
  · simp only [subBytes, if_pos hi, block_byte _ _ hi]
  · rw [memcpy_outside (by omega), subBytes, if_neg hi, memcpy_outside (by omega)]

theorem onBlock_invSubBytes : OnBlock invSubBytes := by
  intro tail state
  funext i
  by_cases hi : i < 16
  · simp only [invSubBytes, if_pos hi, block_byte _ _ hi]
  · rw [memcpy_outside (by omega), invSubBytes, if_neg hi, memcpy_outside (by omega)]

theorem onBlock_shiftRows : OnBlock shiftRows := by
  intro tail state
  funext i
  simp only [memcpy_apply, shiftRows]
  split <;> simp_all

theorem onBlock_invShiftRows : OnBlock invShiftRows := by
  intro tail state
  funext i
  simp only [memcpy_apply, invShiftRows]
  split <;> simp_all

theorem onBlock_addRoundKey (roundKey : Buf) (round : Nat) :
    OnBlock fun state => addRoundKey roundKey state round := by
  intro tail state
  funext i
  by_cases hi : i < 16
  · simp only [addRoundKey, if_pos hi, block_byte _ _ hi]
  · rw [memcpy_outside (by omega)]
    simp only [addRoundKey, if_neg hi]
    rw [memcpy_outside (by omega)]

theorem onBlock_mixColumns : OnBlock mixColumns := by
  intro tail state
  apply buf_ext_columns
  · intro i hi
    rw [mixColumns_column _ hi, block_column _ _ hi, block_column _ _ hi, mixColumns_column _ hi]
  · intro k hk
    rw [mixColumns_past _ hk, memcpy_outside (by omega), memcpy_outside (by omega)]

theorem onBlock_invMixColumns : OnBlock invMixColumns := by
  intro tail state
  apply buf_ext_columns
  · intro i hi
    rw [invMixColumns_column _ hi, block_column _ _ hi, block_column _ _ hi,
      invMixColumns_column _ hi]
  · intro k hk
    rw [invMixColumns_past _ hk, memcpy_outside (by omega), memcpy_outside (by omega)]

/-! ## Whole blocks -/

/-- The state `aes_block_encryption` ends with. -/
def encryptState (roundKey state : Buf) : Buf :=
  addRoundKey roundKey
    (shiftRows (subBytes (rounds.foldl (encryptRound roundKey) (addRoundKey roundKey state 0))))
    aesNumRound

/-- The state `aes_block_decryption` ends with. -/
def decryptState (roundKey state : Buf) : Buf :=
  addRoundKey roundKey
    (rounds.reverse.foldl (decryptRound roundKey)
      (invSubBytes (invShiftRows (addRoundKey roundKey state aesNumRound)))) 0

theorem onBlock_encryptState (roundKey : Buf) : OnBlock (encryptState roundKey) := by
  have hround : ∀ i, OnBlock fun state => encryptRound roundKey state i := fun i =>
    (onBlock_addRoundKey roundKey i).comp
      (onBlock_mixColumns.comp (onBlock_shiftRows.comp onBlock_subBytes))
  exact (onBlock_addRoundKey roundKey aesNumRound).comp (onBlock_shiftRows.comp
    (onBlock_subBytes.comp ((OnBlock.foldl hround rounds).comp (onBlock_addRoundKey roundKey 0))))

theorem onBlock_decryptState (roundKey : Buf) : OnBlock (decryptState roundKey) := by
  have hround : ∀ i, OnBlock fun state => decryptRound roundKey state i := fun i =>
    onBlock_invSubBytes.comp (onBlock_invShiftRows.comp
      (onBlock_invMixColumns.comp (onBlock_addRoundKey roundKey i)))
  exact (onBlock_addRoundKey roundKey 0).comp ((OnBlock.foldl hround rounds.reverse).comp
    (onBlock_invSubBytes.comp (onBlock_invShiftRows.comp
      (onBlock_addRoundKey roundKey aesNumRound))))

/-- The rounds of decryption, in their order, undo the rounds of encryption. -/
theorem decryptState_encryptState (roundKey state : Buf) :
    decryptState roundKey (encryptState roundKey state) = state := by
  have hrounds : ∀ x, rounds.reverse.foldl (decryptRound roundKey)
      (rounds.foldl (encryptRound roundKey) x) = x :=
    leftInverse_foldl (fun i x => decryptRound_encryptRound roundKey x i) rounds
  unfold decryptState encryptState
  rw [addRoundKey_addRoundKey, invShiftRows_shiftRows, invSubBytes_subBytes,
    hrounds, addRoundKey_addRoundKey]

/-- The rounds of encryption, in their order, undo the rounds of decryption. -/
theorem encryptState_decryptState (roundKey state : Buf) :
    encryptState roundKey (decryptState roundKey state) = state := by
  have hrounds : ∀ x, rounds.reverse.reverse.foldl (encryptRound roundKey)
      (rounds.reverse.foldl (decryptRound roundKey) x) = x :=
    leftInverse_foldl (fun i x => encryptRound_decryptRound roundKey x i) rounds.reverse
  rw [List.reverse_reverse] at hrounds
  unfold decryptState encryptState
  rw [addRoundKey_addRoundKey, hrounds, subBytes_invSubBytes, shiftRows_invShiftRows,
    addRoundKey_addRoundKey]

theorem aesBlockEncryption_eq (roundKey input out : Buf) :
    aesBlockEncryption roundKey input out = memcpy out 0 (encryptState roundKey input) 0 16 := rfl

theorem aesBlockDecryption_eq (roundKey input out : Buf) :
    aesBlockDecryption roundKey input out = memcpy out 0 (decryptState roundKey input) 0 16 := rfl

/-- After the key schedule of any key, decryption applied to the output of
encryption and encryption applied to the output of decryption return the block,
whatever the schedule and the output buffers held before. -/
theorem aes_round_trip (schedule key block out out' : Buf) :
    let roundKey := keyExpansion schedule key
    (∀ i < 16,
      aesBlockDecryption roundKey (aesBlockEncryption roundKey block out) out' i = block i) ∧
    ∀ i < 16,
      aesBlockEncryption roundKey (aesBlockDecryption roundKey block out) out' i = block i := by
  intro roundKey
  constructor
  · intro i hi
    rw [aesBlockDecryption_eq, aesBlockEncryption_eq, block_byte _ _ hi,
      onBlock_decryptState, block_byte _ _ hi, decryptState_encryptState]
  · intro i hi
    rw [aesBlockDecryption_eq, aesBlockEncryption_eq, block_byte _ _ hi,
      onBlock_encryptState, block_byte _ _ hi, encryptState_decryptState]

end Aes
end NochOS
