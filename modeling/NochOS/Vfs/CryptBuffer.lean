import NochOS.Ext2.Listing
import NochOS.Heap.Runs
import NochOS.Library.Traced
import NochOS.Vfs.Encryption

/-!
# VFS - the buffer of the encryption

`sys_encrypt` and `sys_decrypt` take a buffer of the size of the file from the heap.  This
module runs the two calls with a trace of the passes of their block loops and of the bytes
of the buffer that they use.  Encryption always goes past the end, and decryption does for
files of less than a block.

Main results:

- Definitions `sysEncryptUses`, `sysDecryptUses`: the calls with their traces.
- Theorems `value_sysEncryptUses`, `value_sysDecryptUses`: without the trace they are the calls
  of the module on encryption.
- Theorem `crypt_within_iff`: when the calls stay inside the buffer.
-/

namespace NochOS
namespace Vfs

open Library Ext2 Aes

/-! ## The calls with a trace -/

/-- An event of a call: a pass of its first or second loop over blocks, or the use of the
bytes of `content` from an offset on. -/
inductive Event where
  | pass (second : Bool)
  | use (off len : Nat)
deriving DecidableEq

/-- The entries of a jump table that the calls use. -/
structure ReadWrite where
  read : Disk → File → Buf → Nat → Int × Buf × File
  write : Disk → File → Buf → Nat → Option (Disk × File)

/-- `ext2_file_fop`. -/
def ext2FileFop (sb : Super) (sc : CryptScratch) : ReadWrite where
  read d self buf nbytes := fileFread sb d self sc.inode buf nbytes
  write d self buf nbytes := fileFwrite sb d self sc.inode buf nbytes

/-- `ext2_dir_fop`. -/
def ext2DirFop (sb : Super) (sc : CryptScratch) : ReadWrite where
  read d self buf nbytes := dirFread sb d ⟨sc.path.stk, sc.inode, sc.path.dTmp, buf, nbytes⟩ self
  write d self _ _ := some (d, self)

/-- `file.f_op` after `file_fopen`. -/
def fopOf (sb : Super) (sc : CryptScratch) (file : File) : ReadWrite :=
  if file.iMode &&& ext2SIfdir ≠ 0 then ext2DirFop sb sc else ext2FileFop sb sc

/-- The first loop of both calls, from block `i` on for `n` blocks. -/
def cryptUses (fop : ReadWrite) (d : Disk) (fill : Nat → Buf → Buf) (cipher : Buf → Buf → Buf) :
    Nat → Nat → CryptState → Traced Event CryptState
  | _, 0, s => pure s
  | i, n + 1, s => do
      Traced.emit (.pass false)
      let r := fop.read d s.file s.input 16
      let input := fill (r.1 % 2 ^ 32).toNat r.2.1
      let output := cipher input s.output
      let off := i * 16 % 2 ^ 32
      Traced.emit (.use off 16)
      cryptUses fop d fill cipher (i + 1) n ⟨r.2.2, memcpy s.content off output 0 16, input, output⟩

/-- The second loop of both calls, from block `i` on for `n` blocks. -/
def writeUses (fop : ReadWrite) (content : Buf) :
    Nat → Nat → Disk → File → Traced Event (Disk × File)
  | _, 0, d, file => pure (d, file)
  | i, n + 1, d, file => do
      Traced.emit (.pass true)
      let off := i * 16 % 2 ^ 32
      Traced.emit (.use off 16)
      match fop.write d file (bytesFrom content off) 16 with
      | none => Traced.stop
      | some (d, file) => writeUses fop content (i + 1) n d file

/-- The loop of `sys_decrypt` that finds the end of a block. -/
def lastUses (content : Buf) (off : Nat) : Nat → Traced Event Nat
  | 0 => pure 0
  | length + 1 => do
      Traced.emit (.use (off + length) 1)
      if content (off + length) ≠ 0 then pure (length + 1) else lastUses content off length

/-- `sys_encrypt` from the opened file on: the device afterwards. -/
def sysEncryptUses (sb : Super) (d : Disk) (sc : CryptScratch) (rand : Nat → Nat) (file : File) :
    Traced Event Disk := do
  let key := aesGetRandomKey rand sc.key
  let d := fileSetkey sb d file sc.inode key
  let cipher := aesBlockEncryption (keyExpansion sc.roundKey key)
  let bytes := file.iSize / 16
  let s ← cryptUses (fopOf sb sc file) d padInput cipher 0 (bytes + 1)
    ⟨file, sc.content, sc.input, sc.output⟩
  let r ← writeUses (fopOf sb sc file) s.content 0 (bytes + 1) d { s.file with fPos := 0 }
  pure r.1

/-- The end of `sys_decrypt`, which writes a block up to its end. -/
def writeLast (fop : ReadWrite) (content : Buf) (off : Nat) (d : Disk) (file : File) :
    Traced Event Disk := do
  let length ← lastUses content off 16
  Traced.emit (.use off length)
  match fop.write d file (bytesFrom content off) length with
  | none => Traced.stop
  | some (d, _) => pure d

/-- The part of `sys_decrypt` that writes: `last` blocks, and the next one up to its end. -/
def decryptWriteUses (fop : ReadWrite) (content : Buf) (last : Nat) (d : Disk) (file : File) :
    Traced Event Disk := do
  let r ← writeUses fop content 0 last d file
  writeLast fop content (last * 16 % 2 ^ 32) r.1 r.2

/-- `sys_decrypt` from the opened file on: the device afterwards. -/
def sysDecryptUses (sb : Super) (d : Disk) (sc : CryptScratch) (file : File) :
    Traced Event Disk := do
  let key := fileGetkey sb d file sc.inode sc.key
  let cipher := aesBlockDecryption (keyExpansion sc.roundKey key)
  let bytes := file.iSize / 16
  let s ← cryptUses (fopOf sb sc file) d (fun _ input => input) cipher 0 bytes
    ⟨file, sc.content, sc.input, sc.output⟩
  decryptWriteUses (fopOf sb sc file) s.content (minusOne bytes) d { s.file with fPos := 0 }

/-- What is asked of the trace of a call, by the size of the file and the result of `malloc`:
the buffer is there and used below its size, and each loop has a bounded number of passes. -/
def Within (size content : Nat) (events : List Event) : Prop :=
  (∀ off len, Event.use off len ∈ events → ∀ k < len, content ≠ 0 ∧ off + k < size) ∧
    ∀ second, events.count (Event.pass second) ≤ size / 16 + 1

/-! ## The loops -/

section Loops

variable {fop : ReadWrite} {content : Buf}

/-- The first loop uses one block of the buffer in each pass, and comes to its end. -/
theorem cryptUses_spec (d : Disk) (fill : Nat → Buf → Buf) (cipher : Buf → Buf → Buf)
    (i n : Nat) (s : CryptState) :
    (cryptUses fop d fill cipher i n s).value.isSome ∧
      (∀ off len, Event.use off len ∈ (cryptUses fop d fill cipher i n s).events ↔
        len = 16 ∧ ∃ j, i ≤ j ∧ j < i + n ∧ off = j * 16 % 2 ^ 32) ∧
      (cryptUses fop d fill cipher i n s).events.count (.pass false) = n ∧
      (cryptUses fop d fill cipher i n s).events.count (.pass true) = 0 := by
  induction n generalizing i s with
  | zero =>
      refine ⟨rfl, fun off len => ?_, rfl, rfl⟩
      simp only [cryptUses, Traced.events_pure, List.not_mem_nil, false_iff]
      rintro ⟨-, j, hle, hlt, -⟩
      omega
  | succ n ih =>
      obtain ⟨hvalue, hmem, hpass, hpass'⟩ := ih (i + 1) _
      refine ⟨hvalue, fun off len => ?_, ?_, ?_⟩
      · simp only [cryptUses, Traced.events_emit_bind, List.mem_cons, reduceCtorEq, false_or,
          Event.use.injEq, hmem]
        constructor
        · rintro (⟨rfl, rfl⟩ | ⟨rfl, j, hle, hlt, rfl⟩)
          · exact ⟨rfl, i, le_rfl, by omega, rfl⟩
          · exact ⟨rfl, j, by omega, by omega, rfl⟩
        · rintro ⟨rfl, j, hle, hlt, rfl⟩
          by_cases hfirst : j = i
          · exact Or.inl ⟨by rw [hfirst], rfl⟩
          · exact Or.inr ⟨rfl, j, by omega, by omega, rfl⟩
      · simpa [cryptUses] using hpass
      · simpa [cryptUses] using hpass'

/-- A pass of the second loop. -/
theorem events_writeUses (i n : Nat) (d : Disk) (file : File) :
    (writeUses fop content i (n + 1) d file).events =
      .pass true :: .use (i * 16 % 2 ^ 32) 16 ::
        (match fop.write d file (bytesFrom content (i * 16 % 2 ^ 32)) 16 with
          | none => []
          | some r => (writeUses fop content (i + 1) n r.1 r.2).events) := by
  cases hwrite : fop.write d file (bytesFrom content (i * 16 % 2 ^ 32)) 16 with
  | none => simp only [writeUses, Traced.events_emit_bind, hwrite, Traced.events_stop]
  | some r => simp only [writeUses, Traced.events_emit_bind, hwrite]

/-- The second loop uses one block of the buffer in each pass, the first one if there is a
pass at all. -/
theorem writeUses_spec (i n : Nat) (d : Disk) (file : File) :
    (∀ off len, Event.use off len ∈ (writeUses fop content i n d file).events →
        len = 16 ∧ ∃ j, i ≤ j ∧ j < i + n ∧ off = j * 16 % 2 ^ 32) ∧
      (n ≠ 0 → Event.use (i * 16 % 2 ^ 32) 16 ∈ (writeUses fop content i n d file).events) ∧
      (writeUses fop content i n d file).events.count (.pass false) = 0 ∧
      (writeUses fop content i n d file).events.count (.pass true) ≤ n := by
  induction n generalizing i d file with
  | zero =>
      refine ⟨fun off len hmem => ?_, fun hn => absurd rfl hn, rfl, le_rfl⟩
      exact absurd hmem List.not_mem_nil
  | succ n ih =>
      rw [events_writeUses]
      cases fop.write d file (bytesFrom content (i * 16 % 2 ^ 32)) 16 with
      | none =>
          refine ⟨fun off len hmem => ?_, fun _ => by simp, rfl, Nat.le_add_left 1 n⟩
          simp only [List.mem_cons, reduceCtorEq, false_or, Event.use.injEq, List.not_mem_nil,
            or_false] at hmem
          exact ⟨hmem.2, i, le_rfl, by omega, hmem.1⟩
      | some r =>
          obtain ⟨hmem, -, hpass, hpass'⟩ := ih (i + 1) r.1 r.2
          refine ⟨fun off len h => ?_, fun _ => by simp, ?_, ?_⟩
          · simp only [List.mem_cons, reduceCtorEq, false_or, Event.use.injEq] at h
            cases h with
            | inl hhere => exact ⟨hhere.2, i, le_rfl, by omega, hhere.1⟩
            | inr hlater =>
                obtain ⟨hlen, j, hle, hlt, hoff⟩ := hmem off len hlater
                exact ⟨hlen, j, by omega, by omega, hoff⟩
          · simpa using hpass
          · simpa using hpass'

/-- The search for the end of a block uses single bytes of the block. -/
theorem lastUses_spec (off n : Nat) :
    (∃ v ≤ n, (lastUses content off n).value = some v) ∧
      (∀ o len, Event.use o len ∈ (lastUses content off n).events →
        len = 1 ∧ off ≤ o ∧ o < off + n) ∧
      ∀ second, (lastUses content off n).events.count (.pass second) = 0 := by
  induction n with
  | zero =>
      refine ⟨⟨0, le_rfl, rfl⟩, fun o len hmem => ?_, fun _ => rfl⟩
      exact absurd hmem List.not_mem_nil
  | succ n ih =>
      obtain ⟨⟨v, hv, hvalue⟩, hmem, hpass⟩ := ih
      by_cases hbyte : content (off + n) ≠ 0
      · simp only [lastUses, if_pos hbyte, Traced.value_emit_bind, Traced.value_pure,
          Traced.events_emit_bind, Traced.events_pure]
        refine ⟨⟨n + 1, le_rfl, rfl⟩, fun o len h => ?_, fun _ => rfl⟩
        simp only [List.mem_singleton, Event.use.injEq] at h
        omega
      · simp only [lastUses, if_neg hbyte, Traced.value_emit_bind, Traced.events_emit_bind]
        refine ⟨⟨v, by omega, hvalue⟩, fun o len h => ?_, fun second => ?_⟩
        · simp only [List.mem_cons, Event.use.injEq] at h
          cases h with
          | inl hhere => omega
          | inr hlater =>
              have hrest := hmem o len hlater
              omega
        · simpa using hpass second

theorem events_writeLast (off : Nat) (d : Disk) (file : File) :
    ∃ v ≤ 16, (writeLast fop content off d file).events =
      (lastUses content off 16).events ++ [.use off v] := by
  obtain ⟨⟨v, hv, hvalue⟩, -, -⟩ := @lastUses_spec content off 16
  refine ⟨v, hv, ?_⟩
  rw [writeLast, Traced.events_bind_some hvalue, Traced.events_emit_bind]
  cases fop.write d file (bytesFrom content off) v with
  | none => rfl
  | some r => rfl

/-- The end uses bytes of one block. -/
theorem writeLast_spec (off : Nat) (d : Disk) (file : File) :
    (∀ o len, Event.use o len ∈ (writeLast fop content off d file).events →
        o + len ≤ off + 16) ∧
      ∀ second, (writeLast fop content off d file).events.count (.pass second) = 0 := by
  obtain ⟨v, hv, hevents⟩ := @events_writeLast fop content off d file
  obtain ⟨-, hmem, hpass⟩ := @lastUses_spec content off 16
  rw [hevents]
  refine ⟨fun o len h => ?_, fun second => ?_⟩
  · rw [List.mem_append, List.mem_singleton, Event.use.injEq] at h
    cases h with
    | inl hscan =>
        have hbyte := hmem o len hscan
        omega
    | inr hwrite => omega
  · rw [List.count_append, hpass]
    rfl

/-- The part that writes uses bytes of the blocks up to the last one, the first one if there
is a block before the last. -/
theorem decryptWriteUses_spec (last : Nat) (d : Disk) (file : File) :
    (∀ off len, Event.use off len ∈ (decryptWriteUses fop content last d file).events →
        ∃ j ≤ last, off + len ≤ j * 16 % 2 ^ 32 + 16) ∧
      (last ≠ 0 → Event.use 0 16 ∈ (decryptWriteUses fop content last d file).events) ∧
      (decryptWriteUses fop content last d file).events.count (.pass false) ≤ 0 ∧
      (decryptWriteUses fop content last d file).events.count (.pass true) ≤ last := by
  obtain ⟨hmem, hfirst, hpass, hpass'⟩ := @writeUses_spec fop content 0 last d
    file
  refine ⟨fun off len h => ?_, fun hlast => ?_, ?_, ?_⟩
  · cases Traced.mem_bind.mp h with
    | inl hblock =>
        obtain ⟨rfl, j, -, hlt, rfl⟩ := hmem off len hblock
        exact ⟨j, by omega, le_rfl⟩
    | inr hend =>
        obtain ⟨r, -, hend⟩ := hend
        exact ⟨last, le_rfl, (writeLast_spec _ _ _).1 off len hend⟩
  · exact Traced.mem_bind.mpr (Or.inl (hfirst hlast))
  · exact Traced.count_bind hpass.le fun r => ((writeLast_spec _ _ _).2 false).le
  · exact Traced.count_bind hpass' fun r => ((writeLast_spec _ _ _).2 true).le

end Loops

/-! ## Without the trace -/

section Erase

variable {sb : Super} {sc : CryptScratch} {mapped : Nat → Bool}

/-- The first loop without its trace, where the blocks are mapped. -/
theorem value_cryptUses (d : Disk) (fill : Nat → Buf → Buf) (cipher : Buf → Buf → Buf) (i n : Nat)
    (s : CryptState) (hmapped : ∀ j < i + n, mapped (j * 16) = true)
    (hsize : (i + n) * 16 ≤ 2 ^ 32) :
    cryptLoop sb d sc mapped fill cipher i n s =
      (cryptUses (ext2FileFop sb sc) d fill cipher i n s).value := by
  induction n generalizing i s with
  | zero => rfl
  | succ n ih =>
      have hin : ¬ mapped (i * 16) = false := by simp [hmapped i (by omega)]
      have hmod : i * 16 % 2 ^ 32 = i * 16 := Nat.mod_eq_of_lt (by omega)
      simp only [cryptLoop, if_neg hin, cryptUses, Traced.value_emit_bind, hmod]
      exact ih (i + 1) _ (fun j hj => hmapped j (by omega)) (by omega)

/-- The second loop without its trace. -/
theorem value_writeUses (content : Buf) (i n : Nat) (d : Disk) (file : File)
    (hmapped : ∀ j < i + n, mapped (j * 16) = true) (hsize : (i + n) * 16 ≤ 2 ^ 32) :
    writeLoop sb sc mapped content i n d file =
      (writeUses (ext2FileFop sb sc) content i n d file).value := by
  induction n generalizing i d file with
  | zero => rfl
  | succ n ih =>
      have hin : ¬ mapped (i * 16) = false := by simp [hmapped i (by omega)]
      have hmod : i * 16 % 2 ^ 32 = i * 16 := Nat.mod_eq_of_lt (by omega)
      simp only [writeLoop, if_neg hin, writeUses, Traced.value_emit_bind, hmod, ext2FileFop]
      cases fileFwrite sb d file sc.inode (bytesFrom content (i * 16)) 16 with
      | none => rfl
      | some r => exact ih (i + 1) r.1 r.2 (fun j hj => hmapped j (by omega)) (by omega)

theorem value_lastUses (content : Buf) (off n : Nat) :
    (lastUses content off n).value = some (lastLength content off n) := by
  induction n with
  | zero => rfl
  | succ n ih =>
      simp only [lastUses, Traced.value_emit_bind, lastLength]
      split
      · rfl
      · exact ih

/-- The part of `sys_decrypt` that writes, without its trace. -/
theorem value_decryptWriteUses (content : Buf) (last : Nat) (d : Disk) (file : File)
    (hmapped : ∀ j < last + 1, mapped (j * 16) = true) (hsize : (last + 1) * 16 ≤ 2 ^ 32) :
    decryptWrite sb d sc mapped content last file =
      (decryptWriteUses (ext2FileFop sb sc) content last d file).value := by
  have hin : ¬ mapped (last * 16) = false := by simp [hmapped last (by omega)]
  have hmod : last * 16 % 2 ^ 32 = last * 16 := Nat.mod_eq_of_lt (by omega)
  rw [decryptWrite, decryptWriteUses, Traced.value_bind,
    value_writeUses content 0 last d file (fun j hj => hmapped j (by omega)) (by omega)]
  cases (writeUses (ext2FileFop sb sc) content 0 last d file).value with
  | none => rfl
  | some r =>
      simp only [if_neg hin, Option.bind_some, writeLast, Traced.value_bind, hmod, value_lastUses,
        ext2FileFop]
      cases fileFwrite sb r.1 r.2 sc.inode (bytesFrom content (last * 16))
        (lastLength content (last * 16) 16) with
      | none => rfl
      | some r => rfl

/-- `sys_encrypt` of a file, where its blocks and the one behind them are mapped. -/
theorem value_sysEncryptUses {d : Disk} {rand : Nat → Nat} {vfs : Globals} {fname : List UInt8}
    {file : File} (hopen : fileFopen sb d sc.path vfs fname = some (some file))
    (hdir : file.iMode &&& ext2SIfdir = 0) (hsize : file.iSize < 2 ^ 32)
    (hmapped : ∀ j < file.iSize / 16 + 1, blockMapped (Heap.malloc sc.heap file.iSize).2
      (Heap.malloc sc.heap file.iSize).1 (j * 16) = true) :
    sysEncrypt sb d sc rand vfs fname = (sysEncryptUses sb d sc rand file).value := by
  have hfop : fopOf sb sc file = ext2FileFop sb sc := if_neg (by simp [hdir])
  simp only [sysEncrypt, hopen, hdir, ne_eq, not_true_eq_false, if_false, sysEncryptUses, hfop,
    Traced.value_bind]
  rw [value_cryptUses _ _ _ 0 _ _ (fun j hj => hmapped j (by omega)) (by omega)]
  cases (cryptUses (ext2FileFop sb sc) (fileSetkey sb d file sc.inode (aesGetRandomKey rand sc.key))
    padInput (aesBlockEncryption (keyExpansion sc.roundKey (aesGetRandomKey rand sc.key))) 0
    (file.iSize / 16 + 1) ⟨file, sc.content, sc.input, sc.output⟩).value with
  | none => rfl
  | some s =>
      dsimp only [Option.bind_some]
      rw [value_writeUses s.content 0 _ _ _ (fun j hj => hmapped j (by omega)) (by omega)]
      exact Option.map_eq_bind

/-- `sys_decrypt` of a file of at least one block, where its blocks are mapped. -/
theorem value_sysDecryptUses {d : Disk} {vfs : Globals} {fname : List UInt8} {file : File}
    (hopen : fileFopen sb d sc.path vfs fname = some (some file))
    (hdir : file.iMode &&& ext2SIfdir = 0) (hsize : file.iSize < 2 ^ 32)
    (hblock : 16 ≤ file.iSize)
    (hmapped : ∀ j < file.iSize / 16, blockMapped (Heap.malloc sc.heap file.iSize).2
      (Heap.malloc sc.heap file.iSize).1 (j * 16) = true) :
    sysDecrypt sb d sc vfs fname = (sysDecryptUses sb d sc file).value := by
  have hfop : fopOf sb sc file = ext2FileFop sb sc := if_neg (by simp [hdir])
  have hlast : minusOne (file.iSize / 16) = file.iSize / 16 - 1 := by
    unfold minusOne
    omega
  simp only [sysDecrypt, hopen, hdir, ne_eq, not_true_eq_false, if_false, sysDecryptUses, hfop,
    Traced.value_bind, hlast]
  rw [value_cryptUses _ _ _ 0 _ _ (fun j hj => hmapped j (by omega)) (by omega)]
  cases (cryptUses (ext2FileFop sb sc) d (fun _ input => input)
    (aesBlockDecryption (keyExpansion sc.roundKey (fileGetkey sb d file sc.inode sc.key))) 0
    (file.iSize / 16) ⟨file, sc.content, sc.input, sc.output⟩).value with
  | none => rfl
  | some s =>
      exact value_decryptWriteUses s.content _ _ _ (fun j hj => hmapped j (by omega)) (by omega)

end Erase

/-! ## The calls inside their buffer -/

section Calls

variable {sb : Super} {d : Disk} {sc : CryptScratch} {file : File}

/-- Encryption uses the byte behind the last whole block. -/
theorem encrypt_uses (hsize : file.iSize < 2 ^ 32) (rand : Nat → Nat) :
    Event.use (file.iSize / 16 * 16) 16 ∈ (sysEncryptUses sb d sc rand file).events := by
  apply Traced.mem_bind.mpr
  refine Or.inl (((cryptUses_spec _ _ _ 0 _ _).2.1 _ _).mpr
    ⟨rfl, file.iSize / 16, Nat.zero_le _, by omega, ?_⟩)
  exact (Nat.mod_eq_of_lt (by omega)).symm

/-- So it never stays inside its buffer. -/
theorem encrypt_not_within (hsize : file.iSize < 2 ^ 32) (rand : Nat → Nat) (content : Nat) :
    ¬ Within file.iSize content (sysEncryptUses sb d sc rand file).events := by
  intro h
  have hlast := (h.1 _ _ (encrypt_uses hsize rand) 15 (by decide)).2
  omega

/-- Decryption is its first loop, and the part that writes. -/
theorem sysDecryptUses_eq :
    sysDecryptUses sb d sc file = cryptUses (fopOf sb sc file) d (fun _ input => input)
      (aesBlockDecryption (keyExpansion sc.roundKey (fileGetkey sb d file sc.inode sc.key))) 0
      (file.iSize / 16) ⟨file, sc.content, sc.input, sc.output⟩ >>= fun s =>
        decryptWriteUses (fopOf sb sc file) s.content (minusOne (file.iSize / 16)) d
          { s.file with fPos := 0 } := by
  rw [sysDecryptUses]

/-- The bytes of a block of the file are bytes of the file. -/
theorem block_inside {size j off len k : Nat} (hsize : size < 2 ^ 32) (hj : j < size / 16)
    (hhigh : off + len ≤ j * 16 % 2 ^ 32 + 16) (hk : k < len) : off + k < size := by
  have hmod : j * 16 % 2 ^ 32 = j * 16 := Nat.mod_eq_of_lt (by omega)
  rw [hmod] at hhigh
  omega

/-- Decryption stays inside its buffer exactly when the file has a block and the buffer is
there. -/
theorem decrypt_within_iff (hsize : file.iSize < 2 ^ 32) (content : Nat) :
    Within file.iSize content (sysDecryptUses sb d sc file).events ↔
      16 ≤ file.iSize ∧ content ≠ 0 := by
  obtain ⟨hvalue, hmem, hpass, hpass'⟩ := @cryptUses_spec (fopOf sb sc file) d
    (fun _ input => input)
    (aesBlockDecryption (keyExpansion sc.roundKey (fileGetkey sb d file sc.inode sc.key))) 0
    (file.iSize / 16) ⟨file, sc.content, sc.input, sc.output⟩
  rw [sysDecryptUses_eq]
  generalize cryptUses (fopOf sb sc file) d (fun _ input => input)
    (aesBlockDecryption (keyExpansion sc.roundKey (fileGetkey sb d file sc.inode sc.key))) 0
    (file.iSize / 16) ⟨file, sc.content, sc.input, sc.output⟩ = m at hvalue hmem hpass hpass' ⊢
  obtain ⟨s, hs⟩ := Option.isSome_iff_exists.mp hvalue
  constructor
  · intro h
    by_cases hshort : file.iSize / 16 = 0
    · -- the second loop does not end after a block, and starts with the first one
      have hne : minusOne (file.iSize / 16) ≠ 0 := by
        unfold minusOne
        omega
      have hlast := (h.1 0 16 (Traced.mem_bind.mpr
        (Or.inr ⟨s, hs, (decryptWriteUses_spec _ d _).2.1 hne⟩)) 15 (by decide)).2
      omega
    · obtain ⟨hcontent, -⟩ := h.1 0 16 (Traced.mem_bind.mpr
        (Or.inl ((hmem 0 16).mpr ⟨rfl, 0, le_rfl, by omega, rfl⟩))) 0 (by decide)
      exact ⟨by omega, hcontent⟩
  · rintro ⟨hblock, hcontent⟩
    have hlast : minusOne (file.iSize / 16) = file.iSize / 16 - 1 := by
      unfold minusOne
      omega
    rw [hlast]
    refine ⟨fun off len h k hk => ⟨hcontent, ?_⟩, fun second => ?_⟩
    · cases Traced.mem_bind.mp h with
      | inl hcrypt =>
          obtain ⟨rfl, j, -, hlt, rfl⟩ := (hmem off len).mp hcrypt
          exact block_inside hsize (by omega) le_rfl hk
      | inr hwrite =>
          obtain ⟨s', -, hwrite⟩ := hwrite
          obtain ⟨j, hj, hhigh⟩ := (decryptWriteUses_spec _ d _).1 off len hwrite
          exact block_inside hsize (by omega) hhigh hk
    · cases second with
      | false =>
          have hcount := Traced.count_bind hpass.le fun s : CryptState =>
            (@decryptWriteUses_spec (fopOf sb sc file) s.content
              (file.iSize / 16 - 1) d { s.file with fPos := 0 }).2.2.1
          omega
      | true =>
          have hcount := Traced.count_bind hpass'.le fun s : CryptState =>
            (@decryptWriteUses_spec (fopOf sb sc file) s.content
              (file.iSize / 16 - 1) d { s.file with fPos := 0 }).2.2.2
          omega

/-- Encryption never stays inside its buffer, and decryption does exactly for files of at least a
block, when the buffer could be allocated. -/
theorem crypt_within_iff (heap : Heap.HeapState) (hsize : file.iSize < 2 ^ 32)
    (rand : Nat → Nat) :
    ¬ Within file.iSize (Heap.malloc heap file.iSize).1 (sysEncryptUses sb d sc rand file).events ∧
    (Within file.iSize (Heap.malloc heap file.iSize).1 (sysDecryptUses sb d sc file).events ↔
      16 ≤ file.iSize ∧ (Heap.malloc heap file.iSize).1 ≠ 0) :=
  ⟨encrypt_not_within hsize rand _, decrypt_within_iff hsize _⟩

end Calls

/-! ## A small file -/

/-- A file of five bytes. -/
def fiveBytes : File := ⟨ext2SIfreg, 12, 5, 0⟩

/-- `crypt_within_iff` for a file of five bytes and an empty heap. -/
theorem crypt_within_iff_small :
    ¬ Within 5 (Heap.malloc (Heap.heapInit 0 Heap.blankHeap) 5).1
        (sysEncryptUses smallGroup.sb (fun _ _ => 0) heapPage (fun _ => 0) fiveBytes).events ∧
    (Within 5 (Heap.malloc (Heap.heapInit 0 Heap.blankHeap) 5).1
        (sysDecryptUses smallGroup.sb (fun _ _ => 0) heapPage fiveBytes).events ↔
      16 ≤ 5 ∧ (Heap.malloc (Heap.heapInit 0 Heap.blankHeap) 5).1 ≠ 0) :=
  @crypt_within_iff _ _ _ fiveBytes (Heap.heapInit 0 Heap.blankHeap) (by decide) fun _ => 0

/-- Both calls use the sixteenth byte of a buffer of five bytes. -/
theorem crypt_overruns :
    ¬ Within 5 (Heap.malloc (Heap.heapInit 0 Heap.blankHeap) 5).1
        (sysEncryptUses smallGroup.sb (fun _ _ => 0) heapPage (fun _ => 0) fiveBytes).events ∧
    ¬ Within 5 (Heap.malloc (Heap.heapInit 0 Heap.blankHeap) 5).1
        (sysDecryptUses smallGroup.sb (fun _ _ => 0) heapPage fiveBytes).events := by
  refine ⟨@encrypt_not_within _ _ _ fiveBytes (by decide) _ _, fun h => ?_⟩
  have hblock := ((@decrypt_within_iff _ _ _ fiveBytes (by decide) _).mp h).1
  exact absurd hblock (by decide)

end Vfs
end NochOS
