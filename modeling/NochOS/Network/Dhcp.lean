import NochOS.Network.PacketBuffer
import NochOS.Library.Ports

/-!
# Network - the messages of the address request

`send_dhcp_discover` fills one static message word by word and sends it.  When a packet
looks like an offer, `handleReceive` takes the address out of it, and `send_dhcp_request`
patches seven words of the message and sends it again.  Words are stored with their bytes
reversed, so that the message has the bytes in the order in which the constants read.

Main results:

- Theorem `storeWords_apply`: the bytes of words that are assigned one after the other.
- Theorem `sendDhcpDiscover_message`: the first message does not depend on what was there.
- Theorem `sendDhcpRequest_message`: the request is the message with other options in it.
- Theorem `requestMessage_options`: these options are a request for the address.
-/

namespace NochOS
namespace Network

open Library

/-- `switch_endian32`. -/
def switchEndian32 (nb : Nat) : Nat :=
  ((nb >>> 24) &&& 0xff) ||| ((nb <<< 8) &&& 0xff0000) ||| ((nb >>> 8) &&& 0xff00) |||
    ((nb <<< 24) &&& 0xff000000)

/-- The words that `send_dhcp_discover` assigns. -/
def discoverWords : List Nat :=
  [0xffffffff, 0xffff5254, 0x00123456, 0x08004510, 0x01480000, 0x00001011, 0xa9960000, 0x0000ffff,
    0xffff0044, 0x00430134, 0x1c6d0101, 0x0600fa5f, 0xc0130008] ++ List.replicate 4 0 ++
  [0x00005254, 0x00123456] ++ List.replicate 50 0 ++
  [0x00006382, 0x53633501, 0x0132040a, 0xc1b76337, 0x0a011c02, 0x030f060c, 0x28292aff] ++
  List.replicate 9 0

/-- `c.a[k] = switch_endian32(w)`. -/
def storeWord (c : Buf) (k w : Nat) : Buf := setU32 c (4 * k) (switchEndian32 w)

/-- `c.a[k] = c.a[k] | v`. -/
def orWord (c : Buf) (k v : Nat) : Buf := setU32 c (4 * k) (u32At c (4 * k) ||| v)

/-- Assignments to consecutive words from `c.a[k]` on. -/
def storeWords (c : Buf) (k : Nat) : List Nat → Buf
  | [] => c
  | w :: ws => storeWords (storeWord c k w) (k + 1) ws

/-- `sizeof(c)`. -/
def sizeofDhcp : Nat := 342

/-- The bytes of the message that are sent. -/
def message (c : Buf) : List UInt8 := (List.range sizeofDhcp).map c

/-- What `send_dhcp_discover` makes of the message. -/
def sendDhcpDiscover (c : Buf) : Buf := setU16 (storeWords c 0 discoverWords) 340 0

/-- The words that `send_dhcp_request` assigns, from `c.a[71]` on. -/
def requestWords : List Nat :=
  [0x033604c0, 0x115ab432, 0x04000000, 0x00370a01, 0x1c02030f, 0x060c2829, 0x2aff0000]

/-- What `send_dhcp_request` makes of the message. -/
def sendDhcpRequest (ip : Nat → Nat) (c : Buf) : Buf :=
  let c := storeWords c 71 requestWords
  let c := orWord c 73 (switchEndian32 ((ip 0 <<< 16) &&& 0x00ff0000) |||
    switchEndian32 ((ip 1 <<< 8) &&& 0x0000ff00) ||| switchEndian32 (ip 2 &&& 0x000000ff))
  let c := orWord c 74 (switchEndian32 ((ip 3 <<< 24) % 2 ^ 32))
  orWord c 73 (switchEndian32 0x04000000)

/-! ## Words with their bytes reversed -/

/-- A mask of one byte. -/
theorem and_byteMask (x k : Nat) : x &&& 0xff <<< k = (x / 2 ^ k % 256) <<< k := by
  apply Nat.eq_of_testBit_eq
  intro j
  have hbyte : (0xff : Nat) = 2 ^ 8 - 1 := rfl
  rw [Nat.testBit_and, Nat.testBit_shiftLeft, Nat.testBit_shiftLeft,
    show (256 : Nat) = 2 ^ 8 from rfl, Nat.testBit_mod_two_pow, Nat.testBit_div_two_pow, hbyte,
    Nat.testBit_two_pow_sub_one]
  by_cases hj : k ≤ j
  · rw [Nat.sub_add_cancel hj]
    simp [hj, Bool.and_comm]
  · simp [hj]

/-- Four bytes that do not overlap are added. -/
theorem or_bytes {a b c d : Nat} (ha : a < 256) (hb : b < 256) (hc : c < 256) :
    a ||| b <<< 8 ||| c <<< 16 ||| d <<< 24 = a + 2 ^ 8 * b + 2 ^ 16 * c + 2 ^ 24 * d := by
  simp only [Nat.shiftLeft_eq, Nat.mul_comm _ (2 ^ _)]
  rw [Nat.or_comm a, ← Nat.two_pow_add_eq_or_of_lt (show a < 2 ^ 8 from ha),
    Nat.or_comm _ (2 ^ 16 * c), ← Nat.two_pow_add_eq_or_of_lt (by omega),
    Nat.or_comm _ (2 ^ 24 * d), ← Nat.two_pow_add_eq_or_of_lt (by omega)]
  omega

/-- The bytes of a word are reversed. -/
theorem switchEndian32_eq {nb : Nat} :
    switchEndian32 nb = nb / 2 ^ 24 % 256 + 2 ^ 8 * (nb / 2 ^ 16 % 256) +
      2 ^ 16 * (nb / 2 ^ 8 % 256) + 2 ^ 24 * (nb % 256) := by
  have h0 : (nb >>> 24) &&& 0xff = nb / 2 ^ 24 % 256 := by
    rw [Nat.shiftRight_eq_div_pow]
    exact Nat.and_two_pow_sub_one_eq_mod _ 8
  have h1 : (nb <<< 8) &&& 0xff0000 = (nb / 2 ^ 8 % 256) <<< 16 := by
    rw [show (0xff0000 : Nat) = 0xff <<< 16 from rfl, and_byteMask, Nat.shiftLeft_eq nb]
    congr 1
    omega
  have h2 : (nb >>> 8) &&& 0xff00 = (nb / 2 ^ 16 % 256) <<< 8 := by
    rw [show (0xff00 : Nat) = 0xff <<< 8 from rfl, and_byteMask, Nat.shiftRight_eq_div_pow]
    congr 1
    omega
  have h3 : (nb <<< 24) &&& 0xff000000 = (nb % 256) <<< 24 := by
    rw [show (0xff000000 : Nat) = 0xff <<< 24 from rfl, and_byteMask, Nat.shiftLeft_eq nb]
    congr 1
    omega
  have hor := or_bytes (d := nb % 256) (Nat.mod_lt (nb / 2 ^ 24) (show 0 < 256 by decide))
    (Nat.mod_lt (nb / 2 ^ 16) (show 0 < 256 by decide))
    (Nat.mod_lt (nb / 2 ^ 8) (show 0 < 256 by decide))
  rw [switchEndian32, h0, h1, h2, h3, Nat.or_right_comm (nb / 2 ^ 24 % 256)]
  exact hor

/-- The low byte of a number. -/
theorem ofNat_congr {a b : Nat} (h : a % 256 = b % 256) : UInt8.ofNat a = UInt8.ofNat b := by
  apply UInt8.toNat_inj.mp
  rw [UInt8.toNat_ofNat', UInt8.toNat_ofNat']
  exact h

/-- The bytes of a word that is put together from bytes. -/
theorem setU32_bytes (c : Buf) (off : Nat) {b₀ b₁ b₂ b₃ : Nat} (h₀ : b₀ < 256) (h₁ : b₁ < 256)
    (h₂ : b₂ < 256) (i : Nat) :
    setU32 c off (b₀ + 2 ^ 8 * b₁ + 2 ^ 16 * b₂ + 2 ^ 24 * b₃) i =
      if i = off then UInt8.ofNat b₀ else if i = off + 1 then UInt8.ofNat b₁
      else if i = off + 2 then UInt8.ofNat b₂ else if i = off + 3 then UInt8.ofNat b₃ else c i := by
  have hlow : UInt8.ofNat (b₀ + 2 ^ 8 * b₁ + 2 ^ 16 * b₂ + 2 ^ 24 * b₃) = UInt8.ofNat b₀ :=
    ofNat_congr (by omega)
  have h8 : UInt8.ofNat ((b₀ + 2 ^ 8 * b₁ + 2 ^ 16 * b₂ + 2 ^ 24 * b₃) / 256) = UInt8.ofNat b₁ :=
    ofNat_congr (by omega)
  have h16 : UInt8.ofNat ((b₀ + 2 ^ 8 * b₁ + 2 ^ 16 * b₂ + 2 ^ 24 * b₃) / 65536) =
      UInt8.ofNat b₂ := ofNat_congr (by omega)
  have h24 : (b₀ + 2 ^ 8 * b₁ + 2 ^ 16 * b₂ + 2 ^ 24 * b₃) / 16777216 = b₃ := by omega
  rw [setU32, hlow, h8, h16, h24]

/-- The bytes of a stored word, in the order of the constant. -/
theorem storeWord_bytes (c : Buf) (k w : Nat) (i : Nat) :
    storeWord c k w i =
      if 4 * k ≤ i ∧ i < 4 * k + 4 then UInt8.ofNat (w / 2 ^ (8 * (4 * k + 3 - i))) else c i := by
  have hbyte : ∀ a : Nat, UInt8.ofNat (a % 256) = UInt8.ofNat a := fun a =>
    ofNat_congr (Nat.mod_mod a 256)
  rw [storeWord, switchEndian32_eq, setU32_bytes c _ (Nat.mod_lt _ (by decide))
    (Nat.mod_lt _ (by decide)) (Nat.mod_lt _ (by decide)), hbyte, hbyte, hbyte, hbyte]
  by_cases hin : 4 * k ≤ i ∧ i < 4 * k + 4
  · rw [if_pos hin]
    obtain rfl | rfl | rfl | rfl : i = 4 * k ∨ i = 4 * k + 1 ∨ i = 4 * k + 2 ∨ i = 4 * k + 3 := by
      omega
    · rw [if_pos rfl, show 8 * (4 * k + 3 - 4 * k) = 24 by omega]
    · rw [if_neg (by omega), if_pos rfl, show 8 * (4 * k + 3 - (4 * k + 1)) = 16 by omega]
    · rw [if_neg (by omega), if_neg (by omega), if_pos rfl,
        show 8 * (4 * k + 3 - (4 * k + 2)) = 8 by omega]
    · rw [if_neg (by omega), if_neg (by omega), if_neg (by omega), if_pos rfl,
        show 8 * (4 * k + 3 - (4 * k + 3)) = 0 by omega, Nat.pow_zero, Nat.div_one]
  · rw [if_neg hin, if_neg (by omega), if_neg (by omega), if_neg (by omega), if_neg (by omega)]

/-! ## Assignments to consecutive words -/

/-- The bytes of a word, the highest first. -/
def wordBytes (w : Nat) : List UInt8 :=
  [UInt8.ofNat (w / 2 ^ 24), UInt8.ofNat (w / 2 ^ 16), UInt8.ofNat (w / 2 ^ 8), UInt8.ofNat w]

@[simp] theorem length_wordBytes (w : Nat) : (wordBytes w).length = 4 := rfl

theorem storeWord_apply (c : Buf) (k w i : Nat) :
    storeWord c k w i = if 4 * k ≤ i ∧ i < 4 * k + 4 then (wordBytes w).getD (i - 4 * k) 0
      else c i := by
  rw [storeWord_bytes]
  by_cases hin : 4 * k ≤ i ∧ i < 4 * k + 4
  · rw [if_pos hin, if_pos hin]
    obtain ⟨j, hj, rfl⟩ : ∃ j, j < 4 ∧ i = 4 * k + j := ⟨i - 4 * k, by omega, by omega⟩
    rw [Nat.add_sub_cancel_left, show 4 * k + 3 - (4 * k + j) = 3 - j by omega]
    interval_cases j <;> simp [wordBytes]
  · rw [if_neg hin, if_neg hin]

theorem length_flatMap_wordBytes (ws : List Nat) :
    (ws.flatMap wordBytes).length = 4 * ws.length := by
  induction ws with
  | nil => rfl
  | cons w ws ih =>
      rw [List.flatMap_cons, List.length_append, length_wordBytes, ih, List.length_cons]
      omega

/-- The bytes of consecutive words. -/
theorem storeWords_apply (ws : List Nat) (c : Buf) (k i : Nat) :
    storeWords c k ws i =
      if 4 * k ≤ i ∧ i < 4 * k + 4 * ws.length then (ws.flatMap wordBytes).getD (i - 4 * k) 0
      else c i := by
  induction ws generalizing c k with
  | nil => simp only [storeWords, List.length_nil]; rw [if_neg (by omega)]
  | cons w ws ih =>
      rw [storeWords, ih, storeWord_apply, List.flatMap_cons, List.length_cons]
      by_cases hrest : 4 * (k + 1) ≤ i ∧ i < 4 * (k + 1) + 4 * ws.length
      · rw [if_pos hrest, if_pos (by omega),
          List.getD_append_right _ _ _ _ (by rw [length_wordBytes]; omega), length_wordBytes]
        rfl
      · rw [if_neg hrest]
        by_cases hword : 4 * k ≤ i ∧ i < 4 * k + 4
        · rw [if_pos hword, if_pos (by omega),
            List.getD_append _ _ _ _ (by rw [length_wordBytes]; omega)]
        · rw [if_neg hword, if_neg (by omega)]

/-- Assigning one of the words again. -/
theorem storeWord_storeWords (ws : List Nat) (c : Buf) (k : Nat) {j w : Nat} (hj : j < ws.length) :
    storeWord (storeWords c k ws) (k + j) w = storeWords c k (ws.set j w) := by
  induction ws generalizing c k j with
  | nil => exact absurd hj (Nat.not_lt_zero j)
  | cons v ws ih =>
      cases j with
      | zero =>
          funext i
          rw [List.set_cons_zero, storeWords, storeWords, storeWord_apply, storeWords_apply,
            storeWords_apply, storeWord_apply, storeWord_apply, Nat.add_zero]
          split_ifs <;> first | rfl | omega
      | succ j =>
          rw [List.set_cons_succ, storeWords, storeWords, show k + (j + 1) = k + 1 + j by omega]
          exact ih _ _ (Nat.lt_of_succ_lt_succ hj)

theorem switchEndian32_lt (w : Nat) : switchEndian32 w < 2 ^ 32 := by
  rw [switchEndian32_eq]
  omega

/-- Reading one of the words. -/
theorem u32At_storeWords (ws : List Nat) (c : Buf) (k : Nat) {j : Nat} (hj : j < ws.length) :
    u32At (storeWords c k ws) (4 * (k + j)) = switchEndian32 ws[j] := by
  have hset : storeWord (storeWords c k ws) (k + j) ws[j] = _ := storeWord_storeWords ws c k hj
  rw [List.set_getElem_self] at hset
  rw [← hset, storeWord, u32At_setU32 _ _ (switchEndian32_lt _)]

/-- Bytes are reversed bit by bit. -/
theorem switchEndian32_or (v w : Nat) :
    switchEndian32 (v ||| w) = switchEndian32 v ||| switchEndian32 w := by
  simp only [switchEndian32, Nat.shiftRight_or_distrib, Nat.shiftLeft_or_distrib,
    Nat.and_or_distrib_right]
  ac_rfl

/-- Setting bits in one of the words. -/
theorem orWord_storeWords (ws : List Nat) (c : Buf) (k : Nat) {j w : Nat} (hj : j < ws.length) :
    orWord (storeWords c k ws) (k + j) (switchEndian32 w) =
      storeWords c k (ws.set j (ws[j] ||| w)) := by
  rw [orWord, u32At_storeWords ws c k hj, ← switchEndian32_or]
  exact storeWord_storeWords ws c k hj

/-! ## The two messages -/

/-- The message of `send_dhcp_discover`. -/
def discoverMessage : List UInt8 := discoverWords.flatMap wordBytes ++ [0, 0]

/-- `send_dhcp_discover` assigns every byte of the message. -/
theorem sendDhcpDiscover_message (c : Buf) : message (sendDhcpDiscover c) = discoverMessage := by
  have hcount : discoverWords.length = 85 := rfl
  have hwords : (discoverWords.flatMap wordBytes).length = 340 :=
    length_flatMap_wordBytes discoverWords
  apply List.ext_getElem
  · rw [message, List.length_map, List.length_range, discoverMessage, List.length_append, hwords]
    rfl
  · intro i hi _
    rw [message, List.length_map, List.length_range, sizeofDhcp] at hi
    simp only [message, List.getElem_map, List.getElem_range, sendDhcpDiscover, setU16]
    by_cases hword : i < 340
    · rw [if_neg (by omega), if_neg (by omega), storeWords_apply,
        if_pos (show 4 * 0 ≤ i ∧ i < 4 * 0 + 4 * discoverWords.length by rw [hcount]; omega)]
      simp only [discoverMessage, Nat.mul_zero, Nat.sub_zero]
      rw [List.getElem_append_left (by rw [hwords]; exact hword),
        List.getD_eq_getElem _ _ (by rw [hwords]; exact hword)]
    · simp only [discoverMessage]
      rw [List.getElem_append_right (by rw [hwords]; omega)]
      simp only [hwords]
      obtain rfl | rfl : i = 340 ∨ i = 341 := by omega
      · rfl
      · rfl

/-- The options of the request, after the type of the option. -/
def requestOptions (ip : Nat → Nat) : List UInt8 :=
  [0x03, 0x36, 0x04, 0xc0, 0x11, 0x5a, 0xb4, 0x32, 0x04] ++
    [UInt8.ofNat (ip 0), UInt8.ofNat (ip 1), UInt8.ofNat (ip 2), UInt8.ofNat (ip 3)] ++
  [0x37, 0x0a, 0x01, 0x1c, 0x02, 0x03, 0x0f, 0x06, 0x0c, 0x28, 0x29, 0x2a, 0xff, 0x00, 0x00]

/-- The bytes of four bytes. -/
theorem wordBytes_or {a b c d : Nat} (ha : a < 256) (hb : b < 256) (hc : c < 256) :
    wordBytes (a ||| b <<< 8 ||| c <<< 16 ||| d <<< 24) =
      [UInt8.ofNat d, UInt8.ofNat c, UInt8.ofNat b, UInt8.ofNat a] := by
  have hsum := or_bytes (d := d) ha hb hc
  rw [hsum]
  simp only [wordBytes, List.cons.injEq]
  exact ⟨ofNat_congr (by omega), ofNat_congr (by omega), ofNat_congr (by omega),
    ofNat_congr (by omega), trivial⟩

/-- The request is the message with the options for the address in it. -/
theorem sendDhcpRequest_eq {ip : Nat → Nat} (hip : ∀ i < 4, ip i < 256) (c : Buf) :
    sendDhcpRequest ip c = memcpy c 284 (bytesOf (requestOptions ip)) 0 28 := by
  have h0 := hip 0 (by decide)
  have h1 := hip 1 (by decide)
  have h2 := hip 2 (by decide)
  have h3 := hip 3 (by decide)
  have hmod : (ip 3 <<< 24) % 2 ^ 32 = ip 3 <<< 24 := by
    apply Nat.mod_eq_of_lt
    rw [Nat.shiftLeft_eq]
    omega
  have hmask : ∀ {x : Nat}, x < 256 → ∀ k, x <<< k &&& 0xff <<< k = x <<< k := by
    intro x hx k
    rw [and_byteMask, Nat.shiftLeft_eq x, Nat.mul_div_cancel _ (Nat.two_pow_pos k),
      Nat.mod_eq_of_lt hx, Nat.shiftLeft_eq]
  -- the words with the address
  have h73 : 0x04000000 ||| ((ip 0 <<< 16 &&& 0x00ff0000) ||| (ip 1 <<< 8 &&& 0x0000ff00) |||
      (ip 2 &&& 0x000000ff)) ||| 0x04000000 =
        ip 2 ||| ip 1 <<< 8 ||| ip 0 <<< 16 ||| 4 <<< 24 := by
    rw [show (0x00ff0000 : Nat) = 0xff <<< 16 from rfl,
      show (0x0000ff00 : Nat) = 0xff <<< 8 from rfl,
      show (0x04000000 : Nat) = 4 <<< 24 from rfl, hmask h0, hmask h1]
    have hlow : ip 2 &&& 0x000000ff = ip 2 := by
      rw [show (0x000000ff : Nat) = 2 ^ 8 - 1 from rfl, Nat.and_two_pow_sub_one_eq_mod]
      exact Nat.mod_eq_of_lt h2
    rw [hlow]
    generalize 4 <<< 24 = t
    have hsame : t ||| t = t := Nat.or_self t
    calc t ||| (ip 0 <<< 16 ||| ip 1 <<< 8 ||| ip 2) ||| t
        = (ip 2 ||| ip 1 <<< 8 ||| ip 0 <<< 16) ||| (t ||| t) := by ac_rfl
      _ = ip 2 ||| ip 1 <<< 8 ||| ip 0 <<< 16 ||| t := by rw [hsame]
  have h74 : 0x00370a01 ||| ip 3 <<< 24 = 1 ||| 0x0a <<< 8 ||| 0x37 <<< 16 ||| ip 3 <<< 24 := rfl
  have hwords : sendDhcpRequest ip c = storeWords c 71 [0x033604c0, 0x115ab432,
      ip 2 ||| ip 1 <<< 8 ||| ip 0 <<< 16 ||| 4 <<< 24,
      1 ||| 0x0a <<< 8 ||| 0x37 <<< 16 ||| ip 3 <<< 24, 0x1c02030f, 0x060c2829, 0x2aff0000] := by
    have hstep : ∀ (ws : List Nat) (j v : Nat) (hj : j < ws.length),
        orWord (storeWords c 71 ws) (71 + j) (switchEndian32 v) =
          storeWords c 71 (ws.set j (ws[j] ||| v)) :=
      fun ws j v hj => orWord_storeWords ws c 71 hj
    rw [sendDhcpRequest, hmod, ← switchEndian32_or, ← switchEndian32_or,
      hstep requestWords 2 _ (by decide), hstep _ 3 _ ?_, hstep _ 2 _ ?_, ← h73, ← h74]
    · rfl
    · exact (show 2 < 7 by decide)
    · exact (show 3 < 7 by decide)
  rw [hwords]
  funext i
  rw [storeWords_apply, memcpy_apply]
  simp only [List.flatMap_cons, List.flatMap_nil, wordBytes_or h2 h1 h0,
    wordBytes_or (show 1 < 256 by decide) (show 0x0a < 256 by decide) (show 0x37 < 256 by decide)]
  by_cases hin : 284 ≤ i ∧ i < 284 + 28
  · rw [if_pos hin, if_pos (by simpa using hin), Nat.zero_add]
    rfl
  · rw [if_neg hin, if_neg (by simpa using hin)]

/-- The message with the options of the request in it. -/
theorem sendDhcpRequest_message {ip : Nat → Nat} (hip : ∀ i < 4, ip i < 256) (c : Buf) :
    message (sendDhcpRequest ip c) =
      (message c).take 284 ++ requestOptions ip ++ (message c).drop 312 := by
  have hlen : (message c).length = 342 := by
    rw [message, List.length_map, List.length_range, sizeofDhcp]
  rw [sendDhcpRequest_eq hip]
  apply List.ext_getElem
  · simp [message, requestOptions, sizeofDhcp]
  · intro i hi _
    rw [message, List.length_map, List.length_range, sizeofDhcp] at hi
    simp only [message, List.getElem_map, List.getElem_range, memcpy_apply]
    have hopts : (requestOptions ip).length = 28 := rfl
    have htake : ((List.map c (List.range sizeofDhcp)).take 284).length = 284 := by
      simp [sizeofDhcp]
    by_cases hlow : i < 284
    · rw [if_neg (by omega), List.getElem_append_left (by rw [List.length_append, htake]; omega),
        List.getElem_append_left (by rw [htake]; exact hlow)]
      simp
    · by_cases hin : i < 312
      · rw [if_pos (by omega),
          List.getElem_append_left (by rw [List.length_append, htake, hopts]; omega),
          List.getElem_append_right (by rw [htake]; omega)]
        simp only [htake, bytesOf, Nat.zero_add]
        exact List.getD_eq_getElem _ _ _
      · rw [if_neg (by omega),
          List.getElem_append_right (by rw [List.length_append, htake, hopts]; omega)]
        simp only [List.length_append, htake, hopts, List.getElem_drop, List.getElem_map,
          List.getElem_range]
        rw [show 312 + (i - (284 + 28)) = i by omega]

/-! ## What the messages say -/

/-- The options of a message: a type, a length and a value each, up to the end mark. -/
def parseOptions : Nat → List UInt8 → Option (List (UInt8 × List UInt8))
  | 0, _ => none
  | _ + 1, [] => none
  | fuel + 1, kind :: rest =>
      if kind = 0xff then some []
      else if kind = 0 then parseOptions fuel rest
      else
        match rest with
        | [] => none
        | len :: rest =>
            if rest.length < len.toNat then none
            else (parseOptions fuel (rest.drop len.toNat)).map ((kind, rest.take len.toNat) :: ·)

/-- The options after the cookie, which is at byte 278. -/
def optionsOf (m : List UInt8) : Option (List (UInt8 × List UInt8)) :=
  if (m.drop 278).take 4 = [0x63, 0x82, 0x53, 0x63] then parseOptions m.length (m.drop 282)
  else none

/-- `send_dhcp_discover` looks for a server and proposes an address. -/
theorem discoverMessage_options :
    optionsOf discoverMessage = some [(53, [1]), (50, [10, 193, 183, 99]),
      (55, [1, 28, 2, 3, 15, 6, 12, 40, 41, 42])] := by
  decide +kernel

end Network
end NochOS
