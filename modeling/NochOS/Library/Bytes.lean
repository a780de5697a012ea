import Mathlib.Algebra.Group.Nat.Defs
import Mathlib.Data.Nat.Basic
import Mathlib.Logic.Function.Basic
import Mathlib.Tactic.Common

/-!
# Library - Byte buffers and little-endian fields

A buffer is a total map from offsets to bytes.  The size a C array has is kept
by the code that uses the buffer, so that an access past the end is a question
about offsets and never a partial function.  Packed structures are read and
written through the 16-bit and 32-bit little-endian accessors of this module.

Main results:

- Theorems `u32At_setU32`, `u32At_setU32_of_disjoint`: a 32-bit field reads back
  what was stored, and a store elsewhere leaves it alone.
- Theorem `u32At_congr`: a field is determined by the bytes it occupies.
- Theorem `memcpy_apply`: the bytes of a buffer after a copy into it.
-/

namespace NochOS
namespace Library

/-- A byte buffer, indexed by offset. -/
abbrev Buf := Nat → UInt8

/-- `memcpy(dst + dOff, src + sOff, n)`. -/
def memcpy (dst : Buf) (dOff : Nat) (src : Buf) (sOff n : Nat) : Buf :=
  fun i => if dOff ≤ i ∧ i < dOff + n then src (sOff + (i - dOff)) else dst i

/-- `memset(dst + dOff, c, n)`. -/
def memset (dst : Buf) (dOff : Nat) (c : UInt8) (n : Nat) : Buf :=
  fun i => if dOff ≤ i ∧ i < dOff + n then c else dst i

/-- The 16-bit little-endian number stored at an offset. -/
def u16At (b : Buf) (off : Nat) : Nat :=
  (b off).toNat + 256 * (b (off + 1)).toNat

/-- The 32-bit little-endian number stored at an offset. -/
def u32At (b : Buf) (off : Nat) : Nat :=
  (b off).toNat + 256 * (b (off + 1)).toNat + 65536 * (b (off + 2)).toNat +
    16777216 * (b (off + 3)).toNat

/-- Store a 16-bit number at an offset; higher bits are cut off. -/
def setU16 (b : Buf) (off v : Nat) : Buf := fun i =>
  if i = off then UInt8.ofNat v
  else if i = off + 1 then UInt8.ofNat (v / 256)
  else b i

/-- Store a 32-bit number at an offset; higher bits are cut off. -/
def setU32 (b : Buf) (off v : Nat) : Buf := fun i =>
  if i = off then UInt8.ofNat v
  else if i = off + 1 then UInt8.ofNat (v / 256)
  else if i = off + 2 then UInt8.ofNat (v / 65536)
  else if i = off + 3 then UInt8.ofNat (v / 16777216)
  else b i

/-! ## Copies and fills -/

/-- The bytes of a buffer after a copy into it. -/
theorem memcpy_apply (dst : Buf) (dOff : Nat) (src : Buf) (sOff n i : Nat) :
    memcpy dst dOff src sOff n i =
      if dOff ≤ i ∧ i < dOff + n then src (sOff + (i - dOff)) else dst i := rfl

/-- A copied byte. -/
theorem memcpy_inside {dst : Buf} {dOff : Nat} {src : Buf} {sOff n i : Nat}
    (hlo : dOff ≤ i) (hhi : i < dOff + n) :
    memcpy dst dOff src sOff n i = src (sOff + (i - dOff)) := by
  rw [memcpy_apply, if_pos ⟨hlo, hhi⟩]

/-- A byte outside the copied range keeps its value. -/
theorem memcpy_outside {dst : Buf} {dOff : Nat} {src : Buf} {sOff n i : Nat}
    (h : i < dOff ∨ dOff + n ≤ i) : memcpy dst dOff src sOff n i = dst i := by
  rw [memcpy_apply, if_neg]
  omega

/-- Copying no bytes changes nothing. -/
@[simp] theorem memcpy_zero (dst : Buf) (dOff : Nat) (src : Buf) (sOff : Nat) :
    memcpy dst dOff src sOff 0 = dst := by
  funext i
  apply memcpy_outside
  omega

/-- A byte outside the filled range keeps its value. -/
theorem memset_outside {dst : Buf} {dOff : Nat} {c : UInt8} {n i : Nat}
    (h : i < dOff ∨ dOff + n ≤ i) : memset dst dOff c n i = dst i := by
  unfold memset
  rw [if_neg]
  omega

/-! ## Little-endian fields -/

theorem u16At_lt (b : Buf) (off : Nat) : u16At b off < 2 ^ 16 := by
  have h0 := (b off).toNat_lt
  have h1 := (b (off + 1)).toNat_lt
  unfold u16At
  omega

theorem u32At_lt (b : Buf) (off : Nat) : u32At b off < 2 ^ 32 := by
  have h0 := (b off).toNat_lt
  have h1 := (b (off + 1)).toNat_lt
  have h2 := (b (off + 2)).toNat_lt
  have h3 := (b (off + 3)).toNat_lt
  unfold u32At
  omega

/-- A 16-bit field depends only on its two bytes. -/
theorem u16At_congr {a b : Buf} {off off' : Nat}
    (h : ∀ i < 2, a (off + i) = b (off' + i)) : u16At a off = u16At b off' := by
  have h0 := h 0 (by omega)
  have h1 := h 1 (by omega)
  simp only [Nat.add_zero] at h0
  simp only [u16At, h0, h1]

/-- A 32-bit field depends only on its four bytes. -/
theorem u32At_congr {a b : Buf} {off off' : Nat}
    (h : ∀ i < 4, a (off + i) = b (off' + i)) : u32At a off = u32At b off' := by
  have h0 := h 0 (by omega)
  have h1 := h 1 (by omega)
  have h2 := h 2 (by omega)
  have h3 := h 3 (by omega)
  simp only [Nat.add_zero] at h0
  simp only [u32At, h0, h1, h2, h3]

/-- A 32-bit field is zero when its four bytes are. -/
theorem u32At_eq_zero_iff {b : Buf} {off : Nat} : u32At b off = 0 ↔ ∀ i < 4, b (off + i) = 0 := by
  constructor
  · intro h i hi
    unfold u32At at h
    apply UInt8.toNat_inj.mp
    have hi' : i = 0 ∨ i = 1 ∨ i = 2 ∨ i = 3 := by omega
    rcases hi' with rfl | rfl | rfl | rfl
    · show (b off).toNat = 0
      omega
    · show (b (off + 1)).toNat = 0
      omega
    · show (b (off + 2)).toNat = 0
      omega
    · show (b (off + 3)).toNat = 0
      omega
  · intro h
    have h0 := h 0 (by decide)
    rw [Nat.add_zero] at h0
    simp [u32At, h0, h 1 (by decide), h 2 (by decide), h 3 (by decide)]

/-- Reading back a stored 16-bit number. -/
theorem u16At_setU16 (b : Buf) (off : Nat) {v : Nat} (hv : v < 2 ^ 16) :
    u16At (setU16 b off v) off = v := by
  simp only [u16At, setU16, if_true, UInt8.toNat_ofNat']
  rw [if_neg (by omega)]
  simp only [UInt8.toNat_ofNat']
  omega

/-- Reading back a stored 32-bit number. -/
theorem u32At_setU32 (b : Buf) (off : Nat) {v : Nat} (hv : v < 2 ^ 32) :
    u32At (setU32 b off v) off = v := by
  have h1 : off + 1 ≠ off := by omega
  have h2 : off + 2 ≠ off := by omega
  have h21 : off + 2 ≠ off + 1 := by omega
  have h3 : off + 3 ≠ off := by omega
  have h31 : off + 3 ≠ off + 1 := by omega
  have h32 : off + 3 ≠ off + 2 := by omega
  simp only [u32At, setU32, if_true, if_neg h1, if_neg h2, if_neg h21, if_neg h3,
    if_neg h31, if_neg h32, UInt8.toNat_ofNat']
  omega

theorem setU16_outside {b : Buf} {off v i : Nat} (h : i < off ∨ off + 2 ≤ i) :
    setU16 b off v i = b i := by
  unfold setU16
  rw [if_neg (by omega), if_neg (by omega)]

theorem setU32_outside {b : Buf} {off v i : Nat} (h : i < off ∨ off + 4 ≤ i) :
    setU32 b off v i = b i := by
  unfold setU32
  rw [if_neg (by omega), if_neg (by omega), if_neg (by omega), if_neg (by omega)]

/-- A store elsewhere leaves a 32-bit field alone. -/
theorem u32At_setU32_of_disjoint {b : Buf} {off off' v : Nat}
    (h : off + 4 ≤ off' ∨ off' + 4 ≤ off) :
    u32At (setU32 b off' v) off = u32At b off := by
  apply u32At_congr
  intro i hi
  apply setU32_outside
  omega

end Library
end NochOS
