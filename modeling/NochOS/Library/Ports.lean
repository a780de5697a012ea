import NochOS.Library.Bytes
import NochOS.Library.Registers
import Mathlib.Tactic.Common

/-!
# Library - Input and output ports

The registers of this module are the ports of a processor, each accessed by a byte, a word
or a double word.  The string instructions move a row of words between one port and a
buffer.

Main results:

- Theorem `run_insw`: a row of words that a device hands out lands in the buffer as a copy.
- Theorem `run_outsw`: a device receives the words of the buffer in their order.
-/

namespace NochOS
namespace Library

/-- A port, and the width of an access to it. -/
inductive Port where
  | byte (n : Nat)
  | word (n : Nat)
  | long (n : Nat)
deriving DecidableEq

namespace Port

/-- The number of the port. -/
def number : Port → Nat
  | byte n => n
  | word n => n
  | long n => n

end Port

/-- `inb(port)`. -/
def inb (port : Nat) : Program Port Nat := Program.input (.byte port)

/-- `outb(data, port)`. -/
def outb (data port : Nat) : Program Port Unit := Program.output (.byte port) data

/-- `inl(port)`. -/
def inl (port : Nat) : Program Port Nat := Program.input (.long port)

/-- `outl(data, port)`. -/
def outl (data port : Nat) : Program Port Unit := Program.output (.long port) data

/-- `insw(port, es, buf + off, n)`. -/
def insw (port : Nat) (buf : Buf) (off : Nat) : Nat → Program Port Buf
  | 0 => pure buf
  | n + 1 => do
      let w ← Program.input (.word port)
      insw port (setU16 buf off w) (off + 2) n

/-- `outsw(port, es, buf + off, n)`. -/
def outsw (port : Nat) (buf : Buf) (off : Nat) : Nat → Program Port Unit
  | 0 => pure ()
  | n + 1 => do
      Program.output (.word port) (u16At buf off)
      outsw port buf (off + 2) n

/-- `insl(port, es, buf + off, n)`. -/
def insl (port : Nat) (buf : Buf) (off : Nat) : Nat → Program Port Buf
  | 0 => pure buf
  | n + 1 => do
      let v ← Program.input (.long port)
      insl port (setU32 buf off v) (off + 4) n

/-! ## Rows of words -/

section Rows

variable {σ : Type} {dev : Device Port σ} {port : Nat}

/-- Two bytes of a buffer, taken out as a word and stored, are a copy. -/
theorem setU16_u16At (b data : Buf) (off p : Nat) :
    setU16 b off (u16At data p) = memcpy b off data p 2 := by
  have h0 := (data p).toNat_lt
  have h1 := (data (p + 1)).toNat_lt
  have hlow : UInt8.ofNat (u16At data p) = data p := by
    apply UInt8.toNat_inj.mp
    rw [UInt8.toNat_ofNat', u16At]
    omega
  have hhigh : UInt8.ofNat (u16At data p / 256) = data (p + 1) := by
    apply UInt8.toNat_inj.mp
    rw [UInt8.toNat_ofNat', u16At]
    omega
  funext i
  by_cases hi : off ≤ i ∧ i < off + 2
  · rw [memcpy_inside hi.1 hi.2]
    obtain rfl | rfl : i = off ∨ i = off + 1 := by omega
    · rw [setU16, if_pos rfl, hlow, Nat.sub_self, Nat.add_zero]
    · rw [setU16, if_neg (by omega), if_pos rfl, hhigh, Nat.add_sub_cancel_left]
  · rw [memcpy_outside (by omega), setU16_outside (by omega)]

/-- Two copies side by side. -/
theorem memcpy_memcpy (b data : Buf) (off p m n : Nat) :
    memcpy (memcpy b off data p m) (off + m) data (p + m) n = memcpy b off data p (m + n) := by
  funext i
  simp only [memcpy_apply]
  by_cases h : off + m ≤ i ∧ i < off + m + n
  · rw [if_pos h, if_pos (by omega)]
    congr 1
    omega
  · rw [if_neg h]
    by_cases h' : off ≤ i ∧ i < off + m
    · rw [if_pos h', if_pos (by omega)]
    · rw [if_neg h', if_neg (by omega)]

/-- The words a device hands out in a row of states land in the buffer. -/
theorem run_insw {data : Buf} (states : Nat → σ) (n : Nat)
    (hread : ∀ i < n, dev.read (.word port) (states i) = (u16At data (2 * i), states (i + 1)))
    (buf : Buf) (off : Nat) :
    (insw port buf off n).run dev (states 0) =
      some (memcpy buf off data 0 (2 * n), states n) := by
  -- the words that are left after the first `k`
  suffices h : ∀ m k buf off, k + m = n →
      (insw port buf off m).run dev (states k) =
        some (memcpy buf off data (2 * k) (2 * m), states n) from
    h n 0 buf off (Nat.zero_add n)
  intro m
  induction m with
  | zero =>
      intro k buf off hk
      obtain rfl : k = n := hk
      simp [insw]
  | succ m ih =>
      intro k buf off hk
      rw [insw, Program.run_input_bind, hread k (by omega)]
      simp only
      rw [ih (k + 1) _ _ (by omega), setU16_u16At, Nat.mul_add 2 k 1, memcpy_memcpy,
        Nat.mul_add 2 m 1, Nat.add_comm 2]

/-- The words of the buffer arrive in a row of states. -/
theorem run_outsw {buf : Buf} {off : Nat} (states : Nat → σ) (n : Nat)
    (hwrite : ∀ i < n,
      dev.write (.word port) (u16At buf (off + 2 * i)) (states i) = states (i + 1)) :
    (outsw port buf off n).run dev (states 0) = some ((), states n) := by
  suffices h : ∀ m k, k + m = n →
      (outsw port buf (off + 2 * k) m).run dev (states k) = some ((), states n) from
    h n 0 (Nat.zero_add n)
  intro m
  induction m with
  | zero =>
      intro k hk
      obtain rfl : k = n := hk
      simp [outsw]
  | succ m ih =>
      intro k hk
      rw [outsw, Program.run_output_bind, hwrite k (by omega)]
      exact ih (k + 1) (by omega)

/-- Four bytes of a buffer, taken out as a double word and stored, are a copy. -/
theorem setU32_u32At (b data : Buf) (off p : Nat) :
    setU32 b off (u32At data p) = memcpy b off data p 4 := by
  have h0 := (data p).toNat_lt
  have h1 := (data (p + 1)).toNat_lt
  have h2 := (data (p + 2)).toNat_lt
  have h3 := (data (p + 3)).toNat_lt
  have hbyte : ∀ v : Nat, ∀ x : UInt8, v % 256 = x.toNat → UInt8.ofNat v = x := by
    intro v x hv
    apply UInt8.toNat_inj.mp
    rw [UInt8.toNat_ofNat']
    exact hv
  funext i
  by_cases hi : off ≤ i ∧ i < off + 4
  · rw [memcpy_inside hi.1 hi.2]
    obtain rfl | rfl | rfl | rfl : i = off ∨ i = off + 1 ∨ i = off + 2 ∨ i = off + 3 := by omega
    · rw [setU32, if_pos rfl, Nat.sub_self, Nat.add_zero]
      exact hbyte _ _ (by rw [u32At]; omega)
    · rw [setU32, if_neg (by omega), if_pos rfl, Nat.add_sub_cancel_left]
      exact hbyte _ _ (by rw [u32At]; omega)
    · rw [setU32, if_neg (by omega), if_neg (by omega), if_pos rfl, Nat.add_sub_cancel_left]
      exact hbyte _ _ (by rw [u32At]; omega)
    · rw [setU32, if_neg (by omega), if_neg (by omega), if_neg (by omega), if_pos rfl,
        Nat.add_sub_cancel_left]
      exact hbyte _ _ (by rw [u32At]; omega)
  · rw [memcpy_outside (by omega), setU32_outside (by omega)]

/-- The double words a device hands out in a row of states land in the buffer. -/
theorem run_insl {data : Buf} (states : Nat → σ) (n : Nat)
    (hread : ∀ i < n, dev.read (.long port) (states i) = (u32At data (4 * i), states (i + 1)))
    (buf : Buf) (off : Nat) :
    (insl port buf off n).run dev (states 0) =
      some (memcpy buf off data 0 (4 * n), states n) := by
  suffices h : ∀ m k buf off, k + m = n →
      (insl port buf off m).run dev (states k) =
        some (memcpy buf off data (4 * k) (4 * m), states n) from
    h n 0 buf off (Nat.zero_add n)
  intro m
  induction m with
  | zero =>
      intro k buf off hk
      obtain rfl : k = n := hk
      simp [insl]
  | succ m ih =>
      intro k buf off hk
      rw [insl, Program.run_input_bind, hread k (by omega)]
      simp only
      rw [ih (k + 1) _ _ (by omega), setU32_u32At, Nat.mul_add 4 k 1, memcpy_memcpy,
        Nat.mul_add 4 m 1, Nat.add_comm 4]

end Rows

/-! ## The ports of a row -/

section Within

variable {R W : Port → Prop} {port : Nat}

theorem within_insw (h : R (.word port)) :
    ∀ n buf off, (insw port buf off n).Within R W
  | 0, _, _ => trivial
  | n + 1, _, _ => Program.Within.bind (Program.Within.input h) fun _ => within_insw h n _ _

theorem within_outsw (h : W (.word port)) :
    ∀ n buf off, (outsw port buf off n).Within R W
  | 0, _, _ => trivial
  | n + 1, _, _ => Program.Within.bind (Program.Within.output h) fun _ => within_outsw h n _ _

theorem within_insl (h : R (.long port)) :
    ∀ n buf off, (insl port buf off n).Within R W
  | 0, _, _ => trivial
  | n + 1, _, _ => Program.Within.bind (Program.Within.input h) fun _ => within_insl h n _ _

end Within

/-- A row of words changes only the bytes it is read into, whatever the device hands out. -/
theorem returns_insw {port : Nat} : ∀ (n : Nat) (buf : Buf) (off : Nat),
    (insw port buf off n).Returns fun buf' => ∀ i, i < off ∨ off + 2 * n ≤ i → buf' i = buf i
  | 0, _, _ => fun _ _ => rfl
  | n + 1, buf, off => by
      refine Program.Returns.after fun w => ?_
      refine (returns_insw n (setU16 buf off w) (off + 2)).mono fun buf' hbuf' i hi => ?_
      rw [hbuf' i (by omega), setU16_outside (by omega)]

end Library
end NochOS
