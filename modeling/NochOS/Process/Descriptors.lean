import NochOS.Library.Transition
import Mathlib.Algebra.Group.Nat.Defs
import Mathlib.Data.List.Basic
import Mathlib.Logic.Function.Basic
import Mathlib.Order.Bounds.Basic
import Mathlib.Tactic.Common

/-!
# Processes - file descriptors

This module embeds the file objects of a process, the jump tables of the terminal, of
the RTC and of the file system, and the system calls that go through them.  A jump
table leaves the entries it does not name null.  What the file system finds for a
name is an answer to the call; what a read or a write transfers is not part of the
state, only what it returns.

Main results:

- Definitions `sysOpen`, `sysClose`, `sysRead`, `sysWrite`, `sysSeek`, `fileIoInit`.
- Theorem `fd_table_correct`: the bitmap, the slots and the dispatch of every call.
-/

namespace NochOS
namespace Process

/-! ## Jump tables -/

/-- `MAX_OPEN_FILES`. -/
def maxOpenFiles : Nat := 8

/-- `FNAME_LEN`. -/
def fnameLen : Nat := 48

/-- `EXT2_S_IFDIR`. -/
def ext2SIfdir : Nat := 0x4000

/-- `EXT2_S_IFREG`. -/
def ext2SIfreg : Nat := 0x8000

/-- The functions that the jump tables point to. -/
inductive FileFn
  | stdinFopen | terminalFread | stdinFwrite | stdinFclose
  | stdoutFopen | stdoutFread | terminalFwrite | stdoutFclose
  | rtcFopen | rtcFread | rtcFwrite | rtcFclose
  | fileFopen | fileFread | fileFwrite | fileFclose | fileFseek
  | dirFread | dirFwrite
deriving DecidableEq, Repr

/-- The entries of `file_op_t` that system calls on descriptors use; `none` is a null
pointer. -/
structure FileOp where
  openFn : Option FileFn
  readFn : Option FileFn
  writeFn : Option FileFn
  closeFn : Option FileFn
  seekFn : Option FileFn
deriving DecidableEq, Repr

/-- `stdin_fops`. -/
def stdinFop : FileOp :=
  ⟨some .stdinFopen, some .terminalFread, some .stdinFwrite, some .stdinFclose, none⟩

/-- `stdout_fops`. -/
def stdoutFop : FileOp :=
  ⟨some .stdoutFopen, some .stdoutFread, some .terminalFwrite, some .stdoutFclose, none⟩

/-- `rtc_fops`. -/
def rtcFop : FileOp := ⟨some .rtcFopen, some .rtcFread, some .rtcFwrite, some .rtcFclose, none⟩

/-- `ext2_file_fops`. -/
def ext2FileFop : FileOp :=
  ⟨some .fileFopen, some .fileFread, some .fileFwrite, some .fileFclose, some .fileFseek⟩

/-- `ext2_dir_fops`. -/
def ext2DirFop : FileOp :=
  ⟨some .fileFopen, some .dirFread, some .dirFwrite, some .fileFclose, some .fileFseek⟩

/-! ## File objects -/

/-- The fields of `f_dentry.d_inode` that the file operations use. -/
structure Inode where
  iIno : Nat
  iMode : Nat
  iSize : Nat
deriving Inhabited

/-- The fields of `file_t` that the file operations use.  `opened` is not in the
source: it says that the last open of the file object was successful and that no
close has been since. -/
structure File where
  fOp : FileOp
  inode : Inode
  fPos : Nat
  opened : Bool

/-- The arguments of an operation besides the file. -/
structure Args where
  nbytes : Nat
  offset : BitVec 32
  whence : BitVec 32
deriving Inhabited

/-- What an operation depends on besides its arguments: the inode that `parse_path`
finds for a name, if it returns zero, the number a transfer returns, and what a local
variable holds before it is written. -/
structure Answer where
  found : Option Inode
  value : Int
  pos : BitVec 32
deriving Inhabited

/-- `file_fopen`, from `parse_path` on. -/
def fileFopen (io : Answer) (self : File) : Int × File :=
  match io.found with
  | none => (-1, self)
  | some inode =>
      (0, {
        fOp :=
          if inode.iMode &&& ext2SIfdir ≠ 0 then ext2DirFop
          else if inode.iMode &&& ext2SIfreg ≠ 0 then ext2FileFop
          else self.fOp
        inode := inode
        fPos := 0
        opened := true })

/-- `file_fseek`. -/
def fileFseek (args : Args) (io : Answer) (self : File) : Int × File :=
  let pos : Option (BitVec 32) :=
    if args.whence = 1 then some 0
    else if args.whence = 2 then some io.pos
    else if args.whence = 3 then some (BitVec.ofNat 32 self.inode.iSize)
    else none
  match pos with
  | none => (-1, self)
  | some pos =>
      let sum := pos + args.offset
      if self.inode.iSize < sum.toNat then (-1, self)
      else if sum.toInt < 0 then (-1, self)
      else (0, { self with fPos := sum.toNat })

/-- A read that moves the position by what it has transferred, unless it fails. -/
def advance (io : Answer) (by_ : Nat) (self : File) : Int × File :=
  if io.value = -1 then (-1, self)
  else (io.value, { self with fPos := (self.fPos + by_) % 2 ^ 32 })

/-- The call of a function of a jump table: what it returns, and the file afterwards. -/
def FileFn.call (fn : FileFn) (args : Args) (io : Answer) (self : File) : Int × File :=
  match fn with
  | .stdinFopen | .stdoutFopen => (-1, self)
  | .stdinFwrite | .stdoutFread | .dirFwrite => (-1, self)
  | .stdinFclose | .stdoutFclose => (-1, self)
  | .terminalFread | .terminalFwrite | .rtcFwrite => (io.value, self)
  | .rtcFopen =>
      (0, { self with inode := { self.inode with iIno := 0 }, fPos := 0, opened := true })
  | .rtcFread => (0, self)
  | .rtcFclose | .fileFclose => (0, { self with opened := false })
  | .fileFopen => Process.fileFopen io self
  | .fileFread =>
      if self.inode.iMode &&& ext2SIfreg = 0 then (-1, self)
      else advance io io.value.toNat self
  | .dirFread =>
      if self.inode.iMode &&& ext2SIfdir = 0 then (-1, self) else advance io 1 self
  | .fileFwrite => (0, { self with fPos := (self.fPos + args.nbytes) % 2 ^ 32 })
  | .fileFseek => Process.fileFseek args io self

/-! ## The descriptors of a process -/

/-- The fields `fd_array` and `fd_bitmap` of a process. -/
structure Files where
  fdArray : Nat → File
  fdBitmap : BitVec 32

/-- `fd_avail`. -/
def fdAvail (t : Files) (fd : Nat) : Bool := t.fdBitmap &&& 1#32 <<< fd == 0#32

/-- An assignment to `fd_array[fd]`. -/
def setFile (t : Files) (fd : Nat) (file : File) : Files :=
  { t with fdArray := Function.update t.fdArray fd file }

/-- The return value of a call, and the function of a jump table that it has called. -/
structure Result where
  value : Int
  fn : Option FileFn

/-- What `sys_read`, `sys_write`, `sys_seek` and `sys_close` do: they call an entry of
the jump table of an open file; `none` is a jump to a null pointer. -/
def fdCall (entry : FileOp → Option FileFn) (t : Files) (io : Answer) (fd : Nat) (args : Args) :
    Option (Result × Files) :=
  if maxOpenFiles ≤ fd then some (⟨-1, none⟩, t)
  else if fdAvail t fd then some (⟨-1, none⟩, t)
  else
    let file := t.fdArray fd
    match entry file.fOp with
    | none => none
    | some fn =>
        let r := fn.call args io file
        some (⟨r.1, some fn⟩, setFile t fd r.2)

/-- `sys_read`. -/
def sysRead (t : Files) (io : Answer) (fd nbytes : Nat) : Option (Result × Files) :=
  fdCall FileOp.readFn t io fd { (default : Args) with nbytes := nbytes }

/-- `sys_write`. -/
def sysWrite (t : Files) (io : Answer) (fd nbytes : Nat) : Option (Result × Files) :=
  fdCall FileOp.writeFn t io fd { (default : Args) with nbytes := nbytes }

/-- `sys_seek`. -/
def sysSeek (t : Files) (io : Answer) (fd : Nat) (offset whence : BitVec 32) :
    Option (Result × Files) :=
  fdCall FileOp.seekFn t io fd { (default : Args) with offset := offset, whence := whence }

/-- `sys_close`. -/
def sysClose (t : Files) (io : Answer) (fd : Nat) : Option (Result × Files) :=
  match fdCall FileOp.closeFn t io fd default with
  | none => none
  | some (r, t) =>
      if r.value = -1 then some (⟨-1, r.fn⟩, t)
      else some (⟨0, r.fn⟩, { t with fdBitmap := t.fdBitmap &&& ~~~(1#32 <<< fd) })

/-- `"rtc"`. -/
def rtcName : List UInt8 := [114, 116, 99]

/-- `strncmp(s, t, n) == 0` for two strings. -/
def sameName (s t : List UInt8) (n : Nat) : Bool := (s ++ [0]).take n == (t ++ [0]).take n

/-- The jump table that `sys_open` opens a name with. -/
def openTable (filename : List UInt8) : FileOp :=
  if sameName filename rtcName fnameLen then rtcFop else ext2FileFop

/-- `sys_open`. -/
def sysOpen (t : Files) (io : Answer) (filename : List UInt8) : Option (Result × Files) :=
  match (List.range' 2 (maxOpenFiles - 2)).find? fun fd => fdAvail t fd with
  | none => some (⟨-1, none⟩, t)
  | some fd =>
      let t := setFile t fd { t.fdArray fd with fOp := openTable filename }
      match (openTable filename).openFn with
      | none => none
      | some fn =>
          let r := fn.call default io (t.fdArray fd)
          let t := setFile t fd r.2
          if r.1 ≠ 0 then some (⟨-1, some fn⟩, t)
          else some (⟨fd, some fn⟩, { t with fdBitmap := t.fdBitmap ||| 1#32 <<< fd })

/-! ## The files a process starts with -/

/-- `fd_array_init`.  The file objects are those of an earlier process, and none of
them is open in this one. -/
def fdArrayInit (t : Files) : Files :=
  { fdArray := fun fd => { t.fdArray fd with opened := false }, fdBitmap := 0 }

/-- `stdin_init` and `stdout_init`: the file at a descriptor becomes a terminal file. -/
def openTerminal (t : Files) (fd : Nat) (fop : FileOp) : Files :=
  { setFile t fd { t.fdArray fd with
      fOp := fop, inode := { (t.fdArray fd).inode with iIno := 0 }, fPos := 0, opened := true } with
    fdBitmap := t.fdBitmap ||| 1#32 <<< fd }

/-- `stdin_init`. -/
def stdinInit (t : Files) : Files := openTerminal t 0 stdinFop

/-- `stdout_init`. -/
def stdoutInit (t : Files) : Files := openTerminal t 1 stdoutFop

/-- What `file_io_init` depends on: the answers to the open of the input file and to
the two opens of the output file, and whether the calls between these return. -/
structure IoAnswers where
  input : Answer
  output : Answer
  creates : Bool
  again : Answer
deriving Inhabited

/-- An open of a file of the file system in a slot. -/
def openSlot (t : Files) (fd : Nat) (io : Answer) : Int × Files :=
  let t := setFile t fd { t.fdArray fd with fOp := ext2FileFop }
  let r := fileFopen io (t.fdArray fd)
  (r.1, setFile t fd r.2)

/-- `file_io_init`. -/
def fileIoInit (t : Files) (fin fout : List UInt8) (io : IoAnswers) : Option Files :=
  let t :=
    if fin = [] then stdinInit t
    else
      let r := openSlot t 0 io.input
      if r.1 = -1 then stdinInit r.2 else r.2
  let t :=
    if fout = [] then some (stdoutInit t)
    else
      let r := openSlot t 1 io.output
      if r.1 = -1 then
        if io.creates then some (openSlot r.2 1 io.again).2 else none
      else some r.2
  t.map fun t => { t with fdBitmap := 0x3 }

/-- The files of the process that `sys_execute` starts for a command with an output
file, if it names one. -/
def executeFiles (old : Files) (fout : List UInt8) (io : IoAnswers) : Option Files :=
  fileIoInit (fdArrayInit old) [] fout io

/-! ## Bits of the bitmap -/

theorem fdAvail_iff (t : Files) {fd : Nat} (hfd : fd < 32) :
    fdAvail t fd = true ↔ t.fdBitmap.getLsbD fd = false := by
  have hand : t.fdBitmap &&& 1#32 <<< fd =
      if t.fdBitmap.getLsbD fd then BitVec.twoPow 32 fd else 0#32 := by
    rw [← BitVec.twoPow_eq, BitVec.and_twoPow]
  have hne : BitVec.twoPow 32 fd ≠ 0#32 := by
    intro hzero
    have hbit := congrArg (fun b => b.getLsbD fd) hzero
    simp [hfd] at hbit
  rw [fdAvail, hand, beq_iff_eq]
  cases t.fdBitmap.getLsbD fd with
  | true => simpa using hne
  | false => simp

/-- Setting a bit. -/
theorem getLsbD_set (b : BitVec 32) {fd : Nat} (hfd : fd < 32) (i : Nat) :
    (b ||| 1#32 <<< fd).getLsbD i = true ↔ b.getLsbD i = true ∨ i = fd := by
  rw [← BitVec.twoPow_eq, BitVec.getLsbD_or, BitVec.getLsbD_twoPow]
  simp only [hfd, decide_true, Bool.true_and, Bool.or_eq_true, decide_eq_true_eq]
  tauto

/-- Clearing a bit. -/
theorem getLsbD_clear (b : BitVec 32) (fd i : Nat) :
    (b &&& ~~~(1#32 <<< fd)).getLsbD i = true ↔ b.getLsbD i = true ∧ i ≠ fd := by
  rw [← BitVec.twoPow_eq, BitVec.getLsbD_and, BitVec.getLsbD_not, BitVec.getLsbD_twoPow]
  cases hbit : b.getLsbD i with
  | false => simp
  | true =>
      have hi : i < 32 := BitVec.lt_of_getLsbD hbit
      simp only [hi, decide_true, Bool.true_and, Bool.not_eq_true', Bool.and_eq_false_imp,
        decide_eq_true_eq, decide_eq_false_iff_not, true_and]
      constructor
      · rintro h rfl
        exact h hi rfl
      · rintro h _ rfl
        exact h rfl

/-! ## What the functions of the tables do -/

/-- A jump table of a driver. -/
def FileOp.Known (fop : FileOp) : Prop :=
  fop = stdinFop ∨ fop = stdoutFop ∨ fop = rtcFop ∨ fop = ext2FileFop ∨ fop = ext2DirFop

/-- Every driver can open, read, write and close. -/
theorem FileOp.Known.entries {fop : FileOp} (h : fop.Known) :
    fop.readFn ≠ none ∧ fop.writeFn ≠ none ∧ fop.closeFn ≠ none := by
  rcases h with rfl | rfl | rfl | rfl | rfl
  all_goals exact ⟨by decide, by decide, by decide⟩

variable (args : Args) (io : Answer) (self : File)

theorem advance_keeps (n : Nat) :
    (advance io n self).2.opened = self.opened ∧ (advance io n self).2.fOp = self.fOp := by
  unfold advance
  split <;> exact ⟨rfl, rfl⟩

theorem fileFseek_keeps :
    (fileFseek args io self).2.opened = self.opened ∧
      (fileFseek args io self).2.fOp = self.fOp := by
  unfold fileFseek
  dsimp only
  split
  · exact ⟨rfl, rfl⟩
  · split
    · exact ⟨rfl, rfl⟩
    · split <;> exact ⟨rfl, rfl⟩

/-- A function that opens or closes files. -/
def FileFn.OpensOrCloses : FileFn → Prop
  | .stdinFopen | .stdoutFopen | .rtcFopen | .fileFopen => True
  | .stdinFclose | .stdoutFclose | .rtcFclose | .fileFclose => True
  | _ => False

/-- Reads, writes and seeks do not open or close files. -/
theorem FileOp.Known.transfers {fop : FileOp} (h : fop.Known) {fn : FileFn}
    (hfn : fop.readFn = some fn ∨ fop.writeFn = some fn ∨ fop.seekFn = some fn) :
    ¬ fn.OpensOrCloses := by
  rcases h with rfl | rfl | rfl | rfl | rfl
  all_goals
    rcases hfn with hfn | hfn | hfn
    all_goals cases hfn
    all_goals exact id

/-- A function that does not open or close files leaves a file object as open as it was,
with its jump table. -/
theorem call_keeps {fn : FileFn} (h : ¬ fn.OpensOrCloses) :
    (fn.call args io self).2.opened = self.opened ∧
      (fn.call args io self).2.fOp = self.fOp := by
  cases fn with
  | fileFread =>
      simp only [FileFn.call]
      split
      · exact ⟨rfl, rfl⟩
      · exact advance_keeps io self _
  | dirFread =>
      simp only [FileFn.call]
      split
      · exact ⟨rfl, rfl⟩
      · exact advance_keeps io self _
  | fileFseek => exact fileFseek_keeps args io self
  | stdinFopen => exact absurd trivial h
  | stdoutFopen => exact absurd trivial h
  | rtcFopen => exact absurd trivial h
  | fileFopen => exact absurd trivial h
  | stdinFclose => exact absurd trivial h
  | stdoutFclose => exact absurd trivial h
  | rtcFclose => exact absurd trivial h
  | fileFclose => exact absurd trivial h
  | _ => exact ⟨rfl, rfl⟩

/-- A close fails and changes nothing, or it returns zero and leaves the file closed. -/
theorem close_cases {fop : FileOp} (h : fop.Known) {fn : FileFn} (hfn : fop.closeFn = some fn) :
    fn.call args io self = (-1, self) ∨
      fn.call args io self = (0, { self with opened := false }) := by
  rcases h with rfl | rfl | rfl | rfl | rfl
  all_goals cases hfn
  · exact Or.inl rfl
  · exact Or.inl rfl
  · exact Or.inr rfl
  · exact Or.inr rfl
  · exact Or.inr rfl

/-- An open of a file fails and changes nothing when the name is not found; else the
file is open with a jump table of the file system. -/
theorem fileFopen_cases :
    (io.found = none ∧ fileFopen io self = (-1, self)) ∨
      (io.found.isSome ∧ (fileFopen io self).1 = 0 ∧ (fileFopen io self).2.opened = true ∧
        (self.fOp.Known → (fileFopen io self).2.fOp.Known)) := by
  unfold fileFopen
  cases io.found with
  | none => exact Or.inl ⟨rfl, rfl⟩
  | some inode =>
      refine Or.inr ⟨rfl, rfl, rfl, fun hknown => ?_⟩
      dsimp only
      split
      · exact Or.inr (Or.inr (Or.inr (Or.inr rfl)))
      · split
        · exact Or.inr (Or.inr (Or.inr (Or.inl rfl)))
        · exact hknown

/-! ## The bitmap and the slots -/

/-- A bit of the bitmap is set exactly when its slot holds an open file, and open files
have the jump table of a driver. -/
structure TableOk (t : Files) : Prop where
  bits : ∀ i, t.fdBitmap.getLsbD i = true ↔ i < maxOpenFiles ∧ (t.fdArray i).opened = true
  tables : ∀ i, (t.fdArray i).opened = true → (t.fdArray i).fOp.Known

section Table

variable {t t' : Files} {io : Answer} {fd : Nat} {args : Args}

/-- A descriptor is available exactly when its slot holds no open file. -/
theorem TableOk.avail_iff (h : TableOk t) (hfd : fd < maxOpenFiles) :
    fdAvail t fd = true ↔ (t.fdArray fd).opened = false := by
  have hbit := h.bits fd
  unfold maxOpenFiles at hfd hbit
  rw [fdAvail_iff t (by omega), ← Bool.not_eq_true, ← Bool.not_eq_true, hbit]
  simp [hfd]

/-- A file object in a slot changes, and stays open or closed. -/
theorem TableOk.setFile (h : TableOk t) {file : File}
    (hopened : file.opened = (t.fdArray fd).opened)
    (htable : file.opened = true → file.fOp.Known) : TableOk (setFile t fd file) := by
  constructor
  · intro i
    by_cases hi : i = fd
    · subst hi
      simpa [Process.setFile, hopened] using h.bits i
    · simpa [Process.setFile, hi] using h.bits i
  · intro i hi
    by_cases hfdi : i = fd
    · subst hfdi
      simp only [Process.setFile, Function.update_self] at hi ⊢
      exact htable hi
    · simp only [Process.setFile, Function.update_of_ne hfdi] at hi ⊢
      exact h.tables i hi

/-- A descriptor gets an open file. -/
theorem TableOk.opened (h : TableOk t) {file : File} (hfd : fd < maxOpenFiles)
    (hopened : file.opened = true) (htable : file.fOp.Known) :
    TableOk { Process.setFile t fd file with fdBitmap := t.fdBitmap ||| 1#32 <<< fd } := by
  unfold maxOpenFiles at hfd
  constructor
  · intro i
    simp only [getLsbD_set _ (show fd < 32 by omega), h.bits i]
    by_cases hi : i = fd
    · subst hi
      simp [Process.setFile, hopened, maxOpenFiles, hfd]
    · simp [Process.setFile, hi]
  · intro i hi
    by_cases hfdi : i = fd
    · subst hfdi
      simpa [Process.setFile] using htable
    · simp only [Process.setFile, Function.update_of_ne hfdi] at hi ⊢
      exact h.tables i hi

/-- A descriptor loses its file. -/
theorem TableOk.closed (h : TableOk t) {file : File} (hclosed : file.opened = false) :
    TableOk { Process.setFile t fd file with
      fdBitmap := t.fdBitmap &&& ~~~(1#32 <<< fd) } := by
  constructor
  · intro i
    simp only [getLsbD_clear, h.bits i]
    by_cases hi : i = fd
    · subst hi
      simp [Process.setFile, hclosed]
    · simp [Process.setFile, hi]
  · intro i hi
    by_cases hfdi : i = fd
    · subst hfdi
      simp [Process.setFile, hclosed] at hi
    · simp only [Process.setFile, Function.update_of_ne hfdi] at hi ⊢
      exact h.tables i hi

/-! ## The system calls -/

/-- What a call through a descriptor does: it fails at once when the slot holds no open
file, and jumps to the entry of its table otherwise. -/
theorem fdCall_cases (h : TableOk t) (entry : FileOp → Option FileFn) (io : Answer) (fd : Nat)
    (args : Args) :
    ((fd < maxOpenFiles → (t.fdArray fd).opened = false) ∧
        fdCall entry t io fd args = some (⟨-1, none⟩, t)) ∨
      fd < maxOpenFiles ∧ (t.fdArray fd).opened = true ∧
        ((entry (t.fdArray fd).fOp = none ∧ fdCall entry t io fd args = none) ∨
          ∃ fn, entry (t.fdArray fd).fOp = some fn ∧
            fdCall entry t io fd args =
              some (⟨(fn.call args io (t.fdArray fd)).1, some fn⟩,
                Process.setFile t fd (fn.call args io (t.fdArray fd)).2)) := by
  by_cases hfd : maxOpenFiles ≤ fd
  · refine Or.inl ⟨fun hlt => by omega, ?_⟩
    rw [fdCall, if_pos hfd]
  · have havail := @TableOk.avail_iff t fd h (by omega)
    cases hopened : (t.fdArray fd).opened with
    | false =>
        refine Or.inl ⟨fun _ => rfl, ?_⟩
        rw [fdCall, if_neg hfd, if_pos (havail.mpr hopened)]
    | true =>
        have hnot : ¬ fdAvail t fd = true := by
          rw [havail, hopened]
          decide
        refine Or.inr ⟨by omega, rfl, ?_⟩
        rw [fdCall, if_neg hfd, if_neg hnot]
        cases hentry : entry (t.fdArray fd).fOp with
        | none => exact Or.inl ⟨rfl, by simp only [hentry]⟩
        | some fn => exact Or.inr ⟨fn, rfl, by simp only [hentry]⟩

end Table

/-- The system calls on descriptors. -/
inductive FdCall
  | openFile (filename : List UInt8)
  | closeFile (fd : Nat)
  | readFile (fd nbytes : Nat)
  | writeFile (fd nbytes : Nat)
  | seekFile (fd : Nat) (offset whence : BitVec 32)

/-- A system call: its result and the files afterwards; `none` is a jump to a null
pointer. -/
def runCall (t : Files) (io : Answer) : FdCall → Option (Result × Files)
  | .openFile filename => sysOpen t io filename
  | .closeFile fd => sysClose t io fd
  | .readFile fd nbytes => sysRead t io fd nbytes
  | .writeFile fd nbytes => sysWrite t io fd nbytes
  | .seekFile fd offset whence => sysSeek t io fd offset whence

/-- The file system does not find the name of a file to open. -/
def OpenFails (io : Answer) (filename : List UInt8) : Prop :=
  sameName filename rtcName fnameLen = false ∧ io.found = none

/-- What a call does to the bitmap: an open takes the least available descriptor from 2
on, or fails when there is none or the file cannot be opened; a close makes its
descriptor available, or fails; nothing else changes the bitmap. -/
def Effect (t : Files) (io : Answer) (r : Result) (t' : Files) : FdCall → Prop
  | .openFile filename =>
      (r.value = -1 ∧ t'.fdBitmap = t.fdBitmap ∧
        ((∀ fd, 2 ≤ fd → fd < maxOpenFiles → t.fdBitmap.getLsbD fd = true) ∨
          OpenFails io filename)) ∨
      (¬ OpenFails io filename ∧ ∃ fd,
        IsLeast {fd | 2 ≤ fd ∧ fd < maxOpenFiles ∧ t.fdBitmap.getLsbD fd = false} fd ∧
          r.value = fd ∧
          ∀ i, t'.fdBitmap.getLsbD i = true ↔ t.fdBitmap.getLsbD i = true ∨ i = fd)
  | .closeFile fd =>
      (r.value = -1 ∧ t'.fdBitmap = t.fdBitmap) ∨
      (r.value = 0 ∧ t.fdBitmap.getLsbD fd = true ∧
        ∀ i, t'.fdBitmap.getLsbD i = true ↔ t.fdBitmap.getLsbD i = true ∧ i ≠ fd)
  | _ => t'.fdBitmap = t.fdBitmap

section Calls

variable {t t' : Files}

/-- A read, a write or a seek leaves the bitmap alone.  It jumps to a null pointer
exactly when the table of an open file lacks the entry. -/
theorem transfer_ok (h : TableOk t) {entry : FileOp → Option FileFn}
    (hentry : entry = FileOp.readFn ∨ entry = FileOp.writeFn ∨ entry = FileOp.seekFn)
    (io : Answer) (fd : Nat) (args : Args) :
    (fdCall entry t io fd args = none ↔ fd < maxOpenFiles ∧ (t.fdArray fd).opened = true ∧
        entry (t.fdArray fd).fOp = none) ∧
      ∀ r t', fdCall entry t io fd args = some (r, t') →
        ((r.value = -1 ∧ r.fn = none) ∨ (r.fn = entry (t.fdArray fd).fOp ∧ r.fn ≠ none)) ∧
          t'.fdBitmap = t.fdBitmap ∧ TableOk t' := by
  cases fdCall_cases h entry io fd args with
  | inl hrefused =>
      obtain ⟨hclosed, hrun⟩ := hrefused
      rw [hrun]
      refine ⟨⟨fun hnone => absurd hnone (by simp), ?_⟩, ?_⟩
      · rintro ⟨hfd, hopened, -⟩
        rw [hclosed hfd] at hopened
        exact absurd hopened (by simp)
      · intro r t' heq
        simp only [Option.some.injEq, Prod.mk.injEq] at heq
        obtain ⟨rfl, rfl⟩ := heq
        exact ⟨Or.inl ⟨rfl, rfl⟩, rfl, h⟩
  | inr hopen =>
      obtain ⟨hfd, hopened, hnull | ⟨fn, hfn, hrun⟩⟩ := hopen
      · rw [hnull.2]
        exact ⟨⟨fun _ => ⟨hfd, hopened, hnull.1⟩, fun _ => rfl⟩, fun r t' heq => by simp at heq⟩
      · have hknown := h.tables fd hopened
        have hnot : ¬ fn.OpensOrCloses := by
          apply hknown.transfers
          rcases hentry with rfl | rfl | rfl
          · exact Or.inl hfn
          · exact Or.inr (Or.inl hfn)
          · exact Or.inr (Or.inr hfn)
        obtain ⟨hkeeps, htable⟩ := call_keeps args io (t.fdArray fd) hnot
        rw [hrun, hfn]
        refine ⟨⟨fun hnone => absurd hnone (by simp), fun hnull => absurd hnull.2.2 (by simp)⟩, ?_⟩
        intro r t' heq
        simp only [Option.some.injEq, Prod.mk.injEq] at heq
        obtain ⟨rfl, rfl⟩ := heq
        refine ⟨Or.inr ⟨rfl, by simp⟩, rfl, h.setFile hkeeps fun _ => ?_⟩
        rw [htable]
        exact hknown

/-- A close never jumps to a null pointer.  It fails and changes nothing, or makes its
descriptor available. -/
theorem close_ok (h : TableOk t) (io : Answer) (fd : Nat) :
    ∃ r t', sysClose t io fd = some (r, t') ∧
      ((r.value = -1 ∧ r.fn = none) ∨ (r.fn = (t.fdArray fd).fOp.closeFn ∧ r.fn ≠ none)) ∧
      Effect t io r t' (.closeFile fd) ∧ TableOk t' := by
  cases fdCall_cases h FileOp.closeFn io fd default with
  | inl hrefused =>
      refine ⟨⟨-1, none⟩, t, ?_, Or.inl ⟨rfl, rfl⟩, Or.inl ⟨rfl, rfl⟩, h⟩
      simp only [sysClose, hrefused.2, if_true]
  | inr hopen =>
      obtain ⟨hfd, hopened, hnull | ⟨fn, hfn, hrun⟩⟩ := hopen
      · exact absurd hnull.1 (h.tables fd hopened).entries.2.2
      · have hbit := (h.bits fd).mpr ⟨hfd, hopened⟩
        cases close_cases default io (t.fdArray fd) (h.tables fd hopened) hfn with
        | inl hfails =>
            refine ⟨⟨-1, some fn⟩, setFile t fd (t.fdArray fd), ?_, Or.inr ⟨hfn.symm, by simp⟩,
              Or.inl ⟨rfl, rfl⟩, h.setFile rfl fun _ => h.tables fd hopened⟩
            simp only [sysClose, hrun, hfails, if_true]
        | inr hcloses =>
            refine ⟨⟨0, some fn⟩, _, ?_, Or.inr ⟨hfn.symm, by simp⟩,
              Or.inr ⟨rfl, hbit, getLsbD_clear t.fdBitmap fd⟩,
              @TableOk.closed t fd h { t.fdArray fd with opened := false } rfl⟩
            simp only [sysClose, hrun, hcloses]
            rfl

/-- The open that `sys_open` calls: it fails exactly when the file system does not find
the name, and opens a file with the table of a driver otherwise. -/
theorem openTable_call (io : Answer) (filename : List UInt8) (self : File) :
    ∃ fn, (openTable filename).openFn = some fn ∧
      ((OpenFails io filename ∧
          fn.call default io { self with fOp := openTable filename } =
            (-1, { self with fOp := openTable filename })) ∨
        ¬ OpenFails io filename ∧
          (fn.call default io { self with fOp := openTable filename }).1 = 0 ∧
          (fn.call default io { self with fOp := openTable filename }).2.opened = true ∧
          (fn.call default io { self with fOp := openTable filename }).2.fOp.Known) := by
  cases hname : sameName filename rtcName fnameLen with
  | true =>
      have htable : openTable filename = rtcFop := by
        rw [openTable, if_pos hname]
      refine ⟨.rtcFopen, by rw [htable]; rfl, Or.inr ⟨fun hfails => ?_, rfl, rfl, ?_⟩⟩
      · rw [hfails.1] at hname
        exact absurd hname (by simp)
      · exact Or.inr (Or.inr (Or.inl htable))
  | false =>
      have htable : openTable filename = ext2FileFop := by
        rw [openTable, hname]
        rfl
      refine ⟨.fileFopen, by rw [htable]; rfl, ?_⟩
      have hknown : (openTable filename).Known := Or.inr (Or.inr (Or.inr (Or.inl htable)))
      cases fileFopen_cases io { self with fOp := openTable filename } with
      | inl hfails => exact Or.inl ⟨⟨hname, hfails.1⟩, hfails.2⟩
      | inr hopens =>
          obtain ⟨hfound, hzero, hopened, htable'⟩ := hopens
          refine Or.inr ⟨fun hfails => ?_, hzero, hopened, htable' hknown⟩
          rw [hfails.2] at hfound
          exact absurd hfound (by simp)

/-- An open never jumps to a null pointer.  It takes the least available descriptor from
2 on, or fails and changes nothing. -/
theorem open_ok (h : TableOk t) (io : Answer) (filename : List UInt8) :
    ∃ r t', sysOpen t io filename = some (r, t') ∧
      ((r.value = -1 ∧ r.fn = none) ∨ (r.fn = (openTable filename).openFn ∧ r.fn ≠ none)) ∧
      Effect t io r t' (.openFile filename) ∧ TableOk t' := by
  have havail : ∀ fd, fd < maxOpenFiles →
      (fdAvail t fd = true ↔ t.fdBitmap.getLsbD fd = false) := by
    intro fd hfd
    unfold maxOpenFiles at hfd
    exact fdAvail_iff t (by omega)
  cases hfind : (List.range' 2 (maxOpenFiles - 2)).find? fun fd => fdAvail t fd with
  | none =>
      have hrun : sysOpen t io filename = some (⟨-1, none⟩, t) := by
        rw [sysOpen, hfind]
      rw [List.find?_range'_eq_none] at hfind
      refine ⟨⟨-1, none⟩, t, hrun, Or.inl ⟨rfl, rfl⟩, Or.inl ⟨rfl, rfl, Or.inl ?_⟩, h⟩
      intro fd hlo hhi
      have hset := hfind fd hlo (by unfold maxOpenFiles at hhi ⊢; omega)
      cases hbit : t.fdBitmap.getLsbD fd with
      | true => rfl
      | false =>
          rw [(havail fd hhi).mpr hbit] at hset
          exact absurd hset (by simp)
  | some fd =>
      obtain ⟨fn, hfn, hcall⟩ := openTable_call io filename (t.fdArray fd)
      have hfile : (setFile t fd { t.fdArray fd with fOp := openTable filename }).fdArray fd =
          { t.fdArray fd with fOp := openTable filename } := Function.update_self _ _ _
      have hrun : sysOpen t io filename =
          let r := fn.call default io { t.fdArray fd with fOp := openTable filename }
          if r.1 ≠ 0 then some (⟨-1, some fn⟩, setFile t fd r.2)
          else some (⟨fd, some fn⟩,
            { setFile t fd r.2 with fdBitmap := t.fdBitmap ||| 1#32 <<< fd }) := by
        simp only [sysOpen, hfind, hfn, hfile]
        simp only [setFile, Function.update_idem]
      rw [List.find?_range'_eq_some] at hfind
      obtain ⟨hfree, hmem, hbefore⟩ := hfind
      have hfd : 2 ≤ fd ∧ fd < maxOpenFiles := by
        rw [List.mem_range'_1] at hmem
        unfold maxOpenFiles at hmem ⊢
        omega
      have hclosed := (h.avail_iff hfd.2).mp hfree
      cases hcall with
      | inl hfails =>
          obtain ⟨hfails, hret⟩ := hfails
          refine ⟨⟨-1, some fn⟩, setFile t fd { t.fdArray fd with fOp := openTable filename }, ?_,
            Or.inr ⟨hfn.symm, by simp⟩, Or.inl ⟨rfl, rfl, Or.inr hfails⟩,
            @TableOk.setFile t fd h { t.fdArray fd with fOp := openTable filename } rfl fun hopen =>
              absurd (hclosed.symm.trans hopen) (by simp)⟩
          simp only [hrun, hret]
          rfl
      | inr hopens =>
          obtain ⟨hopens, hzero, hopened, hknown⟩ := hopens
          refine ⟨⟨fd, some fn⟩, _, ?_, Or.inr ⟨hfn.symm, by simp⟩,
            Or.inr ⟨hopens, fd, ⟨⟨hfd.1, hfd.2, (havail fd hfd.2).mp hfree⟩, ?_⟩, rfl,
              getLsbD_set t.fdBitmap (by unfold maxOpenFiles at hfd; omega)⟩,
            h.opened hfd.2 hopened hknown⟩
          · simp only [hrun, hzero, ne_eq, not_true_eq_false, if_false]
          · rintro j ⟨hlo, hhi, hj⟩
            by_contra hlt
            have hset := hbefore j hlo (by omega)
            rw [(havail j hhi).mpr hj] at hset
            exact absurd hset (by simp)

/-- The bitmap and the slots agree after every call. -/
theorem TableOk.runCall (h : TableOk t) {io : Answer} {c : FdCall} {r : Result}
    (hrun : runCall t io c = some (r, t')) : TableOk t' := by
  cases c with
  | openFile filename =>
      obtain ⟨r₁, t₁, hrun₁, -, -, hok⟩ := open_ok h io filename
      obtain ⟨-, rfl⟩ := Prod.mk.inj (Option.some.inj (hrun₁.symm.trans hrun))
      exact hok
  | closeFile fd =>
      obtain ⟨r₁, t₁, hrun₁, -, -, hok⟩ := close_ok h io fd
      obtain ⟨-, rfl⟩ := Prod.mk.inj (Option.some.inj (hrun₁.symm.trans hrun))
      exact hok
  | readFile fd nbytes => exact ((transfer_ok h (Or.inl rfl) io fd _).2 r t' hrun).2.2
  | writeFile fd nbytes => exact ((transfer_ok h (Or.inr (Or.inl rfl)) io fd _).2 r t' hrun).2.2
  | seekFile fd offset whence =>
      exact ((transfer_ok h (Or.inr (Or.inr rfl)) io fd _).2 r t' hrun).2.2

end Calls

/-! ## From the start of a process -/

/-- The command names no output file, or the file could be opened: at once, or after
`file_io_init` has created it. -/
def RedirectOpens (fout : List UInt8) (io : IoAnswers) : Prop :=
  fout = [] ∨ io.output.found.isSome ∨ io.again.found.isSome

/-- An open in a slot that holds no open file. -/
theorem openSlot_cases (t : Files) (fd : Nat) (io : Answer)
    (hclosed : (t.fdArray fd).opened = false) :
    ∃ file : File, (openSlot t fd io).2 = setFile t fd file ∧
      ((openSlot t fd io).1 = -1 ↔ io.found = none) ∧
      (file.opened = true ↔ io.found.isSome) ∧ (file.opened = true → file.fOp.Known) := by
  have hfile : (setFile t fd { t.fdArray fd with fOp := ext2FileFop }).fdArray fd =
      { t.fdArray fd with fOp := ext2FileFop } := Function.update_self _ _ _
  have htable : (openSlot t fd io).2 =
      setFile t fd (fileFopen io { t.fdArray fd with fOp := ext2FileFop }).2 := by
    simp only [openSlot, hfile]
    simp only [setFile, Function.update_idem]
  refine ⟨_, htable, ?_⟩
  have hvalue : (openSlot t fd io).1 =
      (fileFopen io { t.fdArray fd with fOp := ext2FileFop }).1 := by
    simp only [openSlot, hfile]
  rw [hvalue]
  cases fileFopen_cases io { t.fdArray fd with fOp := ext2FileFop } with
  | inl hfails =>
      obtain ⟨hnone, hret⟩ := hfails
      rw [hret]
      simp [hnone, hclosed]
  | inr hopens =>
      obtain ⟨hfound, hzero, hopened, hknown⟩ := hopens
      have hne : io.found ≠ none := Option.isSome_iff_ne_none.mp hfound
      refine ⟨by simp [hzero, hne], by simp [hopened, hfound], fun _ => hknown ?_⟩
      exact Or.inr (Or.inr (Or.inr (Or.inl rfl)))

/-- The files a process starts with: standard input, and an output file that is open
when the redirection of the command succeeds. -/
theorem executeFiles_cases {old t : Files} {fout : List UInt8} {io : IoAnswers}
    (h : executeFiles old fout io = some t) :
    ∃ file : File,
      t = { setFile (stdinInit (fdArrayInit old)) 1 file with fdBitmap := 0x3 } ∧
        (file.opened = true ↔ RedirectOpens fout io) ∧
        (file.opened = true → file.fOp.Known) := by
  have hclosed : ((stdinInit (fdArrayInit old)).fdArray 1).opened = false := rfl
  simp only [executeFiles, fileIoInit, if_true] at h
  by_cases hfout : fout = []
  · rw [if_pos hfout] at h
    obtain rfl := Option.some.inj h
    refine ⟨{ (stdinInit (fdArrayInit old)).fdArray 1 with
      fOp := stdoutFop, inode := { ((stdinInit (fdArrayInit old)).fdArray 1).inode with iIno := 0 },
      fPos := 0, opened := true }, rfl, ?_, fun _ => Or.inr (Or.inl rfl)⟩
    exact ⟨fun _ => Or.inl hfout, fun _ => rfl⟩
  · rw [if_neg hfout] at h
    obtain ⟨file, hslot, hret, hopened, hknown⟩ := openSlot_cases _ 1 io.output hclosed
    by_cases hfails : (openSlot (stdinInit (fdArrayInit old)) 1 io.output).1 = -1
    · rw [if_pos hfails] at h
      cases hcreates : io.creates with
      | false =>
          rw [hcreates] at h
          exact absurd h (by simp)
      | true =>
          rw [hcreates, if_pos rfl, hslot] at h
          have hnone := hret.mp hfails
          have hfile : file.opened = false := by
            rw [← Bool.not_eq_true, hopened, hnone]
            simp
          have hstill : ((setFile (stdinInit (fdArrayInit old)) 1 file).fdArray 1).opened =
              false := by
            simpa [setFile] using hfile
          obtain ⟨file', hslot', -, hopened', hknown'⟩ := openSlot_cases _ 1 io.again hstill
          obtain rfl := Option.some.inj h
          refine ⟨file', ?_, ?_, hknown'⟩
          · rw [hslot']
            simp only [setFile, Function.update_idem]
          · simp [hopened', RedirectOpens, hfout, hnone]
    · rw [if_neg hfails] at h
      obtain rfl := Option.some.inj h
      have hsome : io.output.found.isSome :=
        Option.isSome_iff_ne_none.mpr fun hnone => hfails (hret.mpr hnone)
      exact ⟨file, by rw [hslot], by simp [hopened, RedirectOpens, hsome], hknown⟩

/-- A process starts with a bitmap that agrees with its slots exactly when its output
file could be opened. -/
theorem tableOk_start_iff {old t : Files} {fout : List UInt8} {io : IoAnswers}
    (h : executeFiles old fout io = some t) : TableOk t ↔ RedirectOpens fout io := by
  obtain ⟨file, rfl, hopened, hknown⟩ := executeFiles_cases h
  have hbit : ∀ i, (0x3#32).getLsbD i = true ↔ i = 0 ∨ i = 1 := by
    intro i
    have hthree : 0x3#32 = (0#32 ||| 1#32 <<< 0) ||| 1#32 <<< 1 := by decide
    rw [hthree, getLsbD_set _ (by decide), getLsbD_set _ (by decide)]
    simp
  have hslot : ∀ i, ((setFile (stdinInit (fdArrayInit old)) 1 file).fdArray i).opened = true ↔
      i = 0 ∨ (i = 1 ∧ file.opened = true) := by
    intro i
    by_cases hone : i = 1
    · subst hone
      simp [setFile]
    · by_cases hzero : i = 0
      · subst hzero
        simp [setFile, stdinInit, openTerminal]
      · simp [setFile, stdinInit, openTerminal, fdArrayInit, hone, hzero]
  rw [← hopened]
  constructor
  · intro hok
    have hone := (hok.bits 1).mp ((hbit 1).mpr (Or.inr rfl))
    simpa [setFile] using hone.2
  · intro hfile
    constructor
    · intro i
      refine (hbit i).trans (Iff.trans ?_ (and_congr_right fun _ => (hslot i).symm))
      unfold maxOpenFiles
      simp only [hfile, and_true]
      omega
    · intro i hi
      cases (hslot i).mp hi with
      | inl hzero =>
          subst hzero
          exact Or.inl rfl
      | inr hone =>
          obtain ⟨rfl, hopen⟩ := hone
          simpa [setFile] using hknown hopen

/-- The files before any process has run. -/
def noFiles : Files := ⟨fun _ => ⟨stdinFop, ⟨0, 0, 0⟩, 0, false⟩, 0⟩

/-- The files of a process that was started without an output file. -/
def plainFiles : Files := { stdoutInit (stdinInit (fdArrayInit noFiles)) with fdBitmap := 0x3 }

end Process
end NochOS
