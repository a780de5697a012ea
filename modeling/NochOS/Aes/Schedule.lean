import NochOS.Aes.RoundTrip
import Mathlib.Data.List.Basic

/-!
# AES - the key schedule is determined by the key

`key_expansion` writes to a global array that keeps its contents from one use to the
next.  What it leaves there depends on the key only, as far as the block cipher reads
it, so a block can be decrypted after the key was expanded anew.

Main results:

- Theorem `keyExpansion_congr`: the schedules of one key agree, whatever was there
  before.
- Theorem `decryptState_of_key`: decryption with a new schedule of the same key undoes
  encryption.
-/

namespace NochOS
namespace Aes

open Library

/-! ## Schedules that agree -/

/-- Two schedules agree on their first columns. -/
def Agree (n : Nat) (a b : Buf) : Prop := ∀ k < 4 * n, a k = b k

variable {a b : Buf} {n : Nat}

theorem Agree.column (h : Agree n a b) {i : Nat} (hi : i < n) : column a i = column b i := by
  unfold Aes.column
  rw [h (4 * i) (by omega), h (4 * i + 1) (by omega), h (4 * i + 2) (by omega),
    h (4 * i + 3) (by omega)]

/-- Storing one and the same column behind the columns that agree. -/
theorem Agree.storeColumn (h : Agree n a b) (c : Column) :
    Agree (n + 1) (storeColumn a n c) (storeColumn b n c) := by
  intro k hk
  rw [storeColumn_apply, storeColumn_apply]
  by_cases hold : k < 4 * n
  · rw [h k hold]
  · have hcases : k = 4 * n ∨ k = 4 * n + 1 ∨ k = 4 * n + 2 ∨ k = 4 * n + 3 := by omega
    rcases hcases with rfl | rfl | rfl | rfl <;> simp

/-- One pass of the schedule reads the columns before the one it writes. -/
theorem Agree.expandStep (h : Agree n a b) (hn : 4 ≤ n) :
    Agree (n + 1) (expandStep a n) (expandStep b n) := by
  have hlast := h.column (show n - 1 < n by omega)
  have hold := h.column (show n - 4 < n by omega)
  have hword : scheduleWord a n = scheduleWord b n := by
    unfold scheduleWord
    rw [hlast]
  unfold Aes.expandStep
  rw [hword, hold]
  exact h.storeColumn _

/-- The first pass copies the key. -/
theorem agree_first (a b : Buf) {key key' : Buf} (hkey : ∀ i < 16, key i = key' i) (hn : n ≤ 4) :
    Agree n ((List.range n).foldl (fun rk i => storeColumn rk i (column key i)) a)
      ((List.range n).foldl (fun rk i => storeColumn rk i (column key' i)) b) := by
  have hkeys : Agree 4 key key' := hkey
  induction n with
  | zero =>
      intro k hk
      exact absurd hk (Nat.not_lt_zero k)
  | succ n ih =>
      rw [List.range_succ, List.foldl_append, List.foldl_append, List.foldl_cons, List.foldl_nil,
        List.foldl_cons, List.foldl_nil, hkeys.column (show n < 4 by omega)]
      exact (ih (by omega)).storeColumn _

/-- The second loop keeps the agreement. -/
theorem agree_rest (h : Agree 4 a b) (m : Nat) :
    Agree (m + 4) ((List.range m).foldl (fun rk i => expandStep rk (i + 4)) a)
      ((List.range m).foldl (fun rk i => expandStep rk (i + 4)) b) := by
  induction m with
  | zero => exact h
  | succ m ih =>
      rw [List.range_succ, List.foldl_append, List.foldl_append, List.foldl_cons, List.foldl_nil,
        List.foldl_cons, List.foldl_nil, Nat.add_right_comm]
      exact ih.expandStep (by omega)

/-- Schedules of one key agree on all eleven round keys. -/
theorem keyExpansion_congr (schedule schedule' : Buf) {key key' : Buf}
    (hkey : ∀ i < 16, key i = key' i) :
    Agree 44 (keyExpansion schedule key) (keyExpansion schedule' key') :=
  agree_rest (agree_first schedule schedule' hkey le_rfl) 40

/-! ## The cipher under schedules that agree -/

theorem Agree.addRoundKey (h : Agree 44 a b) (state : Buf) {round : Nat} (hround : round ≤ 10) :
    addRoundKey a state round = addRoundKey b state round := by
  funext i
  by_cases hi : i < 16
  · simp only [Aes.addRoundKey, if_pos hi, h (16 * round + i) (by omega)]
  · simp only [Aes.addRoundKey, if_neg hi]

/-- Decryption reads the eleven round keys only. -/
theorem Agree.decryptState (h : Agree 44 a b) (state : Buf) :
    decryptState a state = decryptState b state := by
  have hrounds : ∀ st, ∀ i ∈ rounds.reverse, decryptRound a st i = decryptRound b st i := by
    intro st i hi
    have hle : ∀ i ∈ rounds.reverse, i ≤ 10 := by decide
    rw [decryptRound, h.addRoundKey st (hle i hi), decryptRound]
  unfold Aes.decryptState
  rw [h.addRoundKey state (show aesNumRound ≤ 10 by decide), List.foldl_ext _ _ _ hrounds,
    h.addRoundKey _ (Nat.zero_le 10)]

/-- Decryption with a new schedule of the key undoes encryption. -/
theorem decryptState_of_key (schedule schedule' : Buf) {key key' : Buf}
    (hkey : ∀ i < 16, key i = key' i) (state : Buf) :
    decryptState (keyExpansion schedule' key') (encryptState (keyExpansion schedule key) state) =
      state := by
  rw [← (keyExpansion_congr schedule schedule' hkey).decryptState, decryptState_encryptState]

/-- A stage that works on the block alone depends on the block only. -/
theorem OnBlock.congr {f : Buf → Buf} (hf : OnBlock f) (h : ∀ i < 16, a i = b i) {i : Nat}
    (hi : i < 16) : f a i = f b i := by
  have hcopy : memcpy a 0 b 0 16 = a := by
    funext k
    by_cases hk : k < 16
    · rw [block_byte _ _ hk, h k hk]
    · rw [memcpy_outside (by omega)]
  have hblock := hf a b
  rw [hcopy] at hblock
  rw [hblock, block_byte _ _ hi]

end Aes
end NochOS
