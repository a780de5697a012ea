import NochOS.Signal.Model
import Mathlib.Logic.Relation

/-!
# Signals - the frame of a handler and the way back

`handle_signal` pushes code, the interrupted registers, the signal number and a return
address onto the user stack and continues in the handler.  The handler returns into the
pushed code, which calls `sys_sigreturn`, which copies the registers back from the
stack.  Handlers can themselves be interrupted by deliveries, and so can the pushed
code.

Main results:

- Theorem `framed_pushFrame`: what stands on the user stack.
- Definition `Delivered`: a delivery with everything up to the return to user mode, to
  any depth of nesting.
- Theorem `delivery_round_trip`: the handler gets the signal number, the pushed code
  runs to its system call, and the interrupted registers come back.
-/

namespace NochOS
namespace Signal

open Library

/-! ## Words in memory -/

/-- A loaded word depends on its four bytes. -/
theorem load32_congr {a b : Buf} {x y : Nat} (h : ∀ i < 4, a (x + i) = b (y + i)) :
    load32 a x = load32 b y := by
  unfold load32
  rw [u32At_congr h]

/-- A word is read back from its bytes. -/
theorem load32_wordBytes (ws : List (BitVec 32)) (k : Nat) :
    load32 (wordBytes ws) (4 * k) = ws.getD k 0 := by
  have h0 : 4 * k / 4 = k := by omega
  have h1 : (4 * k + 1) / 4 = k := by omega
  have h2 : (4 * k + 2) / 4 = k := by omega
  have h3 : (4 * k + 3) / 4 = k := by omega
  have m0 : 4 * k % 4 = 0 := by omega
  have m1 : (4 * k + 1) % 4 = 1 := by omega
  have m2 : (4 * k + 2) % 4 = 2 := by omega
  have m3 : (4 * k + 3) % 4 = 3 := by omega
  have hlt := (ws.getD k 0).isLt
  have hnum : u32At (wordBytes ws) (4 * k) = (ws.getD k 0).toNat := by
    simp only [u32At, wordBytes, h0, h1, h2, h3, m0, m1, m2, m3, UInt8.toNat_ofNat']
    omega
  unfold load32
  rw [hnum, BitVec.ofNat_toNat, BitVec.setWidth_eq]

/-- A single word is read back from where it stands. -/
theorem load32_word {mem : Buf} {addr : Nat} {v : BitVec 32}
    (h : ∀ i < 4, mem (addr + i) = wordBytes [v] i) : load32 mem addr = v := by
  have hword := load32_wordBytes [v] 0
  rw [Nat.mul_zero, List.getD_cons_zero] at hword
  rw [← hword]
  apply load32_congr
  intro i hi
  rw [Nat.zero_add]
  exact h i hi

/-- The registers are read back from where they stand. -/
theorem loadRegs_eq {mem : Buf} {addr : Nat} {r : Regs}
    (h : ∀ i < regsSize, mem (addr + i) = wordBytes r.words i) : loadRegs mem addr = r := by
  have hword : ∀ k < 16, load32 mem (addr + 4 * k) = r.words.getD k 0 := by
    intro k hk
    rw [← load32_wordBytes]
    apply load32_congr
    intro i hi
    rw [Nat.add_assoc]
    apply h
    unfold regsSize
    omega
  cases r with
  | mk ebx ecx edx esi edi ebp eax xds xes xfs origEax eip xcs eflags esp xss =>
      simp only [loadRegs, Regs.mk.injEq]
      exact ⟨hword 0 (by decide), hword 1 (by decide), hword 2 (by decide), hword 3 (by decide),
        hword 4 (by decide), hword 5 (by decide), hword 6 (by decide), hword 7 (by decide),
        hword 8 (by decide), hword 9 (by decide), hword 10 (by decide), hword 11 (by decide),
        hword 12 (by decide), hword 13 (by decide), hword 14 (by decide), hword 15 (by decide)⟩

/-! ## The frame -/

/-- `USER_STACK_TOP`. -/
def userStackTop : Nat := 0x8200000

/-- `USER_VIRT_BOT`. -/
def userVirtBot : Nat := 0x8400000

/-- The bytes that `handle_signal` pushes. -/
def frameSize : Nat := sigInjectSize + regsSize + 4 + 4

/-- The frame below the stack pointer lies in the user stack. -/
def Room (regs : Regs) : Prop :=
  userStackTop + frameSize < regs.esp.toNat ∧ regs.esp.toNat ≤ userVirtBot - 4

/-- The frame of a signal stands below the stack pointer `s`. -/
structure Framed (before after : Buf) (sig : BitVec 32) (regs : Regs) (s : Nat) : Prop where
  above : ∀ a, s ≤ a → after a = before a
  code : ∀ i < sigInjectSize, after (s - sigInjectSize + i) = payload.getD i 0
  saved : ∀ i < regsSize, after (s - sigInjectSize - regsSize + i) = wordBytes regs.words i
  arg : load32 after (s - sigInjectSize - regsSize - 4) = sig
  retAddr : load32 after (s - frameSize) = BitVec.ofNat 32 (s - sigInjectSize)

/-- The stack pointer after a push. -/
theorem toNat_pushUsr (mem : Buf) {esp : BitVec 32} (src : Buf) {size : Nat}
    (h : size ≤ esp.toNat) : (pushUsr mem esp src size).2.toNat = esp.toNat - size := by
  have hlt := esp.isLt
  have hsize : (BitVec.ofNat 32 size).toNat = size := by
    rw [BitVec.toNat_ofNat, Nat.mod_eq_of_lt (by omega)]
  show (esp - BitVec.ofNat 32 size).toNat = esp.toNat - size
  rw [BitVec.toNat_sub, hsize]
  omega

/-- The memory after a push. -/
theorem mem_pushUsr (mem : Buf) {esp : BitVec 32} (src : Buf) {size : Nat}
    (h : size ≤ esp.toNat) :
    (pushUsr mem esp src size).1 = memcpy mem (esp.toNat - size) src 0 size := by
  rw [← toNat_pushUsr mem src h]
  rfl

/-- What `handle_signal` leaves on the user stack. -/
theorem framed_pushFrame (mem : Buf) (ksig : Ksignal) (regs : Regs)
    (h : frameSize ≤ regs.esp.toNat) :
    Framed mem (pushFrame mem ksig regs).1 ksig.sig regs regs.esp.toNat ∧
      (pushFrame mem ksig regs).2.1.toNat = regs.esp.toNat - frameSize := by
  have hlt := regs.esp.isLt
  have hinject : sigInjectSize = 12 := rfl
  have hregs : regsSize = 64 := rfl
  have hframe : frameSize = 84 := rfl
  rw [hframe] at h
  generalize hp₁ : pushUsr mem regs.esp (fun i => payload.getD i 0) sigInjectSize = p₁
  generalize hp₂ : pushUsr p₁.1 p₁.2 (wordBytes regs.words) regsSize = p₂
  generalize hp₃ : pushUsr p₂.1 p₂.2 (wordBytes [ksig.sig]) 4 = p₃
  generalize hp₄ : pushUsr p₃.1 p₃.2 (wordBytes [p₁.2]) 4 = p₄
  have hpush : pushFrame mem ksig regs = (p₄.1, p₄.2, p₁.2) := by
    rw [← hp₄, ← hp₃, ← hp₂, ← hp₁]
    rfl
  have hesp₁ : p₁.2.toNat = regs.esp.toNat - 12 := by
    rw [← hp₁, toNat_pushUsr _ _ (by omega), hinject]
  have hesp₂ : p₂.2.toNat = regs.esp.toNat - 76 := by
    rw [← hp₂, toNat_pushUsr _ _ (by omega), hregs, hesp₁]
    omega
  have hesp₃ : p₃.2.toNat = regs.esp.toNat - 80 := by
    rw [← hp₃, toNat_pushUsr _ _ (by omega), hesp₂]
    omega
  have hesp₄ : p₄.2.toNat = regs.esp.toNat - 84 := by
    rw [← hp₄, toNat_pushUsr _ _ (by omega), hesp₃]
    omega
  have hmem₁ : p₁.1 = memcpy mem (regs.esp.toNat - 12) (fun i => payload.getD i 0) 0 12 := by
    rw [← hp₁, mem_pushUsr _ _ (by omega)]
    rfl
  have hmem₂ : p₂.1 = memcpy p₁.1 (regs.esp.toNat - 12 - 64) (wordBytes regs.words) 0 64 := by
    rw [← hp₂, mem_pushUsr _ _ (by omega), hesp₁]
    rfl
  have hmem₃ : p₃.1 = memcpy p₂.1 (regs.esp.toNat - 76 - 4) (wordBytes [ksig.sig]) 0 4 := by
    rw [← hp₃, mem_pushUsr _ _ (by omega), hesp₂]
  have hmem₄ : p₄.1 = memcpy p₃.1 (regs.esp.toNat - 80 - 4) (wordBytes [p₁.2]) 0 4 := by
    rw [← hp₄, mem_pushUsr _ _ (by omega), hesp₃]
  rw [hpush, hframe]
  refine ⟨?_, hesp₄⟩
  refine
    { above := ?_
      code := ?_
      saved := ?_
      arg := ?_
      retAddr := ?_ }
  · intro a ha
    simp only [hmem₄, hmem₃, hmem₂, hmem₁]
    rw [memcpy_outside (by omega), memcpy_outside (by omega), memcpy_outside (by omega),
      memcpy_outside (by omega)]
  · intro i hi
    rw [hinject] at hi ⊢
    simp only [hmem₄, hmem₃, hmem₂, hmem₁]
    rw [memcpy_outside (by omega), memcpy_outside (by omega), memcpy_outside (by omega),
      memcpy_inside (by omega) (by omega), Nat.add_sub_cancel_left, Nat.zero_add]
  · intro i hi
    rw [hregs] at hi ⊢
    rw [hinject]
    simp only [hmem₄, hmem₃, hmem₂]
    rw [memcpy_outside (by omega), memcpy_outside (by omega),
      memcpy_inside (by omega) (by omega), Nat.add_sub_cancel_left, Nat.zero_add]
  · rw [hinject, hregs]
    apply load32_word
    intro i hi
    simp only [hmem₄, hmem₃]
    rw [memcpy_outside (by omega), memcpy_inside (by omega) (by omega)]
    congr 1
    omega
  · have hret : p₁.2 = BitVec.ofNat 32 (regs.esp.toNat - sigInjectSize) := by
      rw [hinject, ← hesp₁, BitVec.ofNat_toNat, BitVec.setWidth_eq]
    rw [← hret, hframe]
    apply load32_word
    intro i hi
    simp only [hmem₄]
    rw [memcpy_inside (by omega) (by omega)]
    congr 1
    omega

/-! ## The processor -/

/-- The instructions of the pushed code, and the return from a function. -/
inductive Insn
  | ret
  | addEsp (imm : UInt8)
  | movEax (imm : BitVec 32)
  | int (vector : UInt8)
deriving DecidableEq

/-- The instruction at an address. -/
def decode (mem : Buf) (eip : Nat) : Option Insn :=
  if mem eip = 0xC3 then some .ret
  else if mem eip = 0x83 ∧ mem (eip + 1) = 0xC4 then some (.addEsp (mem (eip + 2)))
  else if mem eip = 0xB8 then some (.movEax (load32 mem (eip + 1)))
  else if mem eip = 0xCD then some (.int (mem (eip + 1)))
  else none

theorem decode_addEsp {mem : Buf} {eip : Nat} (h0 : mem eip = 0x83) (h1 : mem (eip + 1) = 0xC4) :
    decode mem eip = some (.addEsp (mem (eip + 2))) := by
  unfold decode
  rw [h0, h1, if_neg (by decide), if_pos ⟨rfl, rfl⟩]

theorem decode_movEax {mem : Buf} {eip : Nat} (h0 : mem eip = 0xB8) :
    decode mem eip = some (.movEax (load32 mem (eip + 1))) := by
  unfold decode
  rw [h0, if_neg (by decide), if_neg (fun h => absurd h.1 (by decide)), if_pos rfl]

theorem decode_int {mem : Buf} {eip : Nat} (h0 : mem eip = 0xCD) :
    decode mem eip = some (.int (mem (eip + 1))) := by
  unfold decode
  rw [h0, if_neg (by decide), if_neg (fun h => absurd h.1 (by decide)), if_neg (by decide),
    if_pos rfl]

/-- A user context, with the state of the process's signals and memory. -/
structure Context where
  regs : Regs
  task : SigState

/-- The next instruction. -/
def Context.insn (c : Context) : Option Insn := decode c.task.mem c.regs.eip.toNat

/-- An instruction other than a trap.  An addition sets the flags. -/
inductive Exec : Context → Context → Prop
  | ret {c : Context} (h : c.insn = some .ret) :
      Exec c
        { c with
          regs :=
            { c.regs with
              eip := load32 c.task.mem c.regs.esp.toNat
              esp := c.regs.esp + 4 } }
  | addEsp {c : Context} (imm : UInt8) (flags : BitVec 32) (h : c.insn = some (.addEsp imm)) :
      Exec c
        { c with
          regs :=
            { c.regs with
              eip := c.regs.eip + 3
              esp := c.regs.esp + imm.toBitVec.signExtend 32
              eflags := flags } }
  | movEax {c : Context} (imm : BitVec 32) (h : c.insn = some (.movEax imm)) :
      Exec c
        { c with
          regs :=
            { c.regs with
              eip := c.regs.eip + 5
              eax := imm } }

/-! ## The system call -/

def sysHaltNum : BitVec 32 := 1
def sysExecuteNum : BitVec 32 := 2
def sysSigreturnNum : BitVec 32 := 10
def sysMax : BitVec 32 := 31

/-- `do_sys`: the check of the stack pointer, `SYS_SIGRETURN` and the return value.
`malloc` gives the node of the signal that the check requests, and `other` are the other
system calls. -/
def doSys (malloc : SigState → Nat) (other : SigState → Regs → SigState × Flow)
    (t : SigState) (regs : Regs) : SigState × Flow :=
  if (regs.origEax ≠ sysHaltNum ∧ regs.origEax ≠ sysExecuteNum) ∧
      (regs.esp.toNat ≤ userStackTop ∨ userVirtBot - 4 ≤ regs.esp.toNat) then
    (requestSignal t stackfault (malloc t), .ret regs)
  else if regs.origEax = sysSigreturnNum then
    match (sysSigreturn t regs).1 with
    | (t, .ret regs) => (t, .ret { regs with eax := regs.eax })
    | (t, .kill rval) => (t, .kill rval)
    | (t, .resume regs) => (t, .resume regs)
  else other t regs

/-- `syscall_handler` and the way back to user mode. -/
def syscallHandler (malloc : SigState → Nat) (other : SigState → Regs → SigState × Flow)
    (t : SigState) (regs : Regs) : SigState × Flow :=
  if sysMax.toNat < regs.eax.toNat ∨ regs.eax = 0 then
    (t, .ret { regs with eax := BitVec.allOnes 32 })
  else
    match doSys malloc other t { regs with origEax := regs.eax } with
    | (t, .ret regs) => (doSignal t regs).1
    | (t, .kill rval) => (t, .kill rval)
    | (t, .resume regs) => (t, .resume regs)

/-! ## Deliveries -/

section Deliveries

variable (own : Context → Context → Prop) (malloc : SigState → Nat)
  (other : SigState → Regs → SigState × Flow)

/-- What can come between two instructions: a whole delivery, or an interrupt that
changes registers and memory of the process no more than the requests it makes. -/
def Interruption (delivered : Context → Context → Prop) (x y : Context) : Prop :=
  delivered x y ∨ (y.regs = x.regs ∧ y.task.mem = x.task.mem)

/-- A delivery to `c` that has come to the pushed code: the handler ran, with the
interruptions it had, left the bytes at and above its stack pointer as they were and
returned; then instructions of the pushed code, with the interruptions they had. -/
inductive InTrampoline (delivered : Context → Context → Prop) (c : Context) : Context → Prop
  | returned {ksig : Ksignal} {e r z : Context} (hroom : Room c.regs)
      (hhandle : handleSignal c.task ksig c.regs = (e.task, .resume e.regs))
      (hrun : Relation.ReflTransGen (fun x y => own x y ∨ Interruption delivered x y) e r)
      (hintact : ∀ a, e.regs.esp.toNat ≤ a → r.task.mem a = e.task.mem a)
      (hesp : r.regs.esp = e.regs.esp) (hret : r.insn = some .ret) (hexec : Exec r z) :
      InTrampoline delivered c z
  | step {y z : Context} (h : InTrampoline delivered c y) (hexec : Exec y z) :
      InTrampoline delivered c z
  | interrupted {y z : Context} (h : InTrampoline delivered c y)
      (hint : Interruption delivered y z) : InTrampoline delivered c z

/-- A delivery to `c` from `handle_signal` to the return to user mode in `c'`, with
deliveries inside deliveries to the given depth and no signal pending at its
`sys_sigreturn`. -/
def Delivered : Nat → Context → Context → Prop
  | 0 => fun _ _ => False
  | n + 1 => fun c c' => ∃ z, InTrampoline own (Delivered n) c z ∧ z.insn = some (.int 0x80) ∧
      listIsEmpty z.task.links z.task.sigpending = true ∧
      syscallHandler malloc other z.task { z.regs with eip := z.regs.eip + 2 } =
        (c'.task, .ret c'.regs)

end Deliveries

/-! ## The pushed code -/

/-- Where the processor is before each instruction of the pushed code. -/
def Place (c z : Context) : Nat → Prop
  | 0 => z.regs.eip.toNat = c.regs.esp.toNat - 12 ∧ z.regs.esp.toNat = c.regs.esp.toNat - 80
  | 1 => z.regs.eip.toNat = c.regs.esp.toNat - 9 ∧ z.regs.esp.toNat = c.regs.esp.toNat - 76
  | 2 => z.regs.eip.toNat = c.regs.esp.toNat - 4 ∧ z.regs.esp.toNat = c.regs.esp.toNat - 76 ∧
      z.regs.eax = 10
  | _ => False

/-- Before an instruction of the pushed code: code, saved registers and everything above
are in place. -/
structure Tramp (c z : Context) (k : Nat) : Prop where
  room : Room c.regs
  above : ∀ a, c.regs.esp.toNat ≤ a → z.task.mem a = c.task.mem a
  code : ∀ i < sigInjectSize,
    z.task.mem (c.regs.esp.toNat - sigInjectSize + i) = payload.getD i 0
  saved : ∀ i < regsSize,
    z.task.mem (c.regs.esp.toNat - sigInjectSize - regsSize + i) = wordBytes c.regs.words i
  place : Place c z k

/-- The stack pointer is far enough from zero. -/
theorem Room.le {regs : Regs} (h : Room regs) : frameSize ≤ regs.esp.toNat := by
  have hlow := h.1
  unfold userStackTop at hlow
  omega

namespace Tramp

variable {c z z' : Context} {k : Nat}

/-- What leaves the registers and the bytes at and above the stack pointer alone does not
disturb the pushed code. -/
theorem undisturbed (h : Tramp c z k) (hregs : z'.regs = z.regs)
    (hmem : ∀ a, z.regs.esp.toNat ≤ a → z'.task.mem a = z.task.mem a) : Tramp c z' k := by
  have hle := h.room.le
  have hframe : frameSize = 84 := rfl
  have hinject : sigInjectSize = 12 := rfl
  have hsize : regsSize = 64 := rfl
  have hesp : z.regs.esp.toNat ≤ c.regs.esp.toNat - 76 := by
    have hplace := h.place
    rcases k with _ | _ | _ | k
    · obtain ⟨-, hesp⟩ := hplace
      omega
    · obtain ⟨-, hesp⟩ := hplace
      omega
    · obtain ⟨-, hesp, -⟩ := hplace
      omega
    · exact False.elim hplace
  refine
    { room := h.room
      above := ?_
      code := ?_
      saved := ?_
      place := ?_ }
  · intro a ha
    rw [hmem a (by omega)]
    exact h.above a ha
  · intro i hi
    rw [hmem _ (by omega)]
    exact h.code i hi
  · intro i hi
    rw [hmem _ (by omega)]
    exact h.saved i hi
  · have hplace := h.place
    unfold Place at hplace ⊢
    rw [hregs]
    exact hplace

/-- A byte of the pushed code. -/
theorem byte (h : Tramp c z k) {i : Nat} (hi : i < 12) {a : Nat}
    (ha : a = c.regs.esp.toNat - 12 + i) : z.task.mem a = payload.getD i 0 := by
  rw [ha]
  exact h.code i hi

theorem insn_zero (h : Tramp c z 0) : z.insn = some (.addEsp 4) := by
  have hle := h.room.le
  have hframe : frameSize = 84 := rfl
  obtain ⟨heip, -⟩ := h.place
  have h0 := @byte _ _ _ h 0 (by decide) z.regs.eip.toNat (by omega)
  have h1 := @byte _ _ _ h 1 (by decide) (z.regs.eip.toNat + 1) (by omega)
  have h2 := @byte _ _ _ h 2 (by decide) (z.regs.eip.toNat + 2) (by omega)
  rw [Context.insn, decode_addEsp h0 h1, h2]
  rfl

theorem insn_one (h : Tramp c z 1) : z.insn = some (.movEax 10) := by
  have hle := h.room.le
  have hframe : frameSize = 84 := rfl
  obtain ⟨heip, -⟩ := h.place
  have h0 := @byte _ _ _ h 3 (by decide) z.regs.eip.toNat (by omega)
  have himm : load32 z.task.mem (z.regs.eip.toNat + 1) = 10 := by
    apply load32_word
    intro i hi
    have hbytes : ∀ i < 4, payload.getD (4 + i) 0 = wordBytes [10] i := by decide
    rw [← hbytes i hi]
    exact h.byte (by omega) (by omega)
  rw [Context.insn, decode_movEax h0, himm]

theorem insn_two (h : Tramp c z 2) : z.insn = some (.int 0x80) := by
  have hle := h.room.le
  have hframe : frameSize = 84 := rfl
  obtain ⟨heip, -, -⟩ := h.place
  have h0 := @byte _ _ _ h 8 (by decide) z.regs.eip.toNat (by omega)
  have h1 := @byte _ _ _ h 9 (by decide) (z.regs.eip.toNat + 1) (by omega)
  rw [Context.insn, decode_int h0, h1]
  rfl

/-- The first instruction leads to the second. -/
theorem exec_zero (h : Tramp c z 0) (hexec : Exec z z') : Tramp c z' 1 := by
  have hlt := c.regs.esp.isLt
  have hle := h.room.le
  have hframe : frameSize = 84 := rfl
  obtain ⟨heip, hesp⟩ := h.place
  have hinsn := h.insn_zero
  cases hexec with
  | ret hret =>
      rw [hret] at hinsn
      cases hinsn
  | movEax imm hmov =>
      rw [hmov] at hinsn
      cases hinsn
  | addEsp imm flags hadd =>
      rw [hadd] at hinsn
      cases hinsn
      refine ⟨h.room, h.above, h.code, h.saved, ?_, ?_⟩
      · have himm : (3 : BitVec 32).toNat = 3 := rfl
        show (z.regs.eip + 3).toNat = c.regs.esp.toNat - 9
        rw [BitVec.toNat_add, heip, himm]
        omega
      · have himm : (UInt8.toBitVec 4).signExtend 32 = 4#32 := by decide
        show (z.regs.esp + (UInt8.toBitVec 4).signExtend 32).toNat = c.regs.esp.toNat - 76
        rw [himm, BitVec.toNat_add, hesp, BitVec.toNat_ofNat]
        omega

/-- The second instruction leads to the third. -/
theorem exec_one (h : Tramp c z 1) (hexec : Exec z z') : Tramp c z' 2 := by
  have hlt := c.regs.esp.isLt
  have hle := h.room.le
  have hframe : frameSize = 84 := rfl
  obtain ⟨heip, hesp⟩ := h.place
  have hinsn := h.insn_one
  cases hexec with
  | ret hret =>
      rw [hret] at hinsn
      cases hinsn
  | addEsp imm flags hadd =>
      rw [hadd] at hinsn
      cases hinsn
  | movEax imm hmov =>
      rw [hmov] at hinsn
      cases hinsn
      refine ⟨h.room, h.above, h.code, h.saved, ?_, hesp, rfl⟩
      have himm : (5 : BitVec 32).toNat = 5 := rfl
      show (z.regs.eip + 5).toNat = c.regs.esp.toNat - 4
      rw [BitVec.toNat_add, heip, himm]
      omega

/-- The third instruction is a trap. -/
theorem not_exec_two (h : Tramp c z 2) : ¬ Exec z z' := by
  intro hexec
  have hinsn := h.insn_two
  cases hexec with
  | ret hret =>
      rw [hret] at hinsn
      cases hinsn
  | addEsp imm flags hadd =>
      rw [hadd] at hinsn
      cases hinsn
  | movEax imm hmov =>
      rw [hmov] at hinsn
      cases hinsn

/-- The pushed code has three instructions. -/
theorem cases (h : Tramp c z k) : k = 0 ∨ k = 1 ∨ k = 2 := by
  have hplace := h.place
  rcases k with _ | _ | _ | k
  · exact Or.inl rfl
  · exact Or.inr (Or.inl rfl)
  · exact Or.inr (Or.inr rfl)
  · exact False.elim hplace

end Tramp

/-! ## The way back -/

/-- What the handler finds when it is entered. -/
theorem handleSignal_entry {t : SigState} {ksig : Ksignal} {regs : Regs} {e : Context}
    (hroom : Room regs) (h : handleSignal t ksig regs = (e.task, .resume e.regs)) :
    Framed t.mem e.task.mem ksig.sig regs regs.esp.toNat ∧
      e.regs.esp.toNat = regs.esp.toNat - frameSize ∧ e.regs.eip = ksig.saHandler := by
  obtain ⟨hframed, hesp⟩ := framed_pushFrame t.mem ksig regs hroom.le
  have htask : (handleSignal t ksig regs).1 = e.task := congrArg Prod.fst h
  have hflow : (handleSignal t ksig regs).2 = .resume e.regs := congrArg Prod.snd h
  rw [← htask, ← Flow.resume.inj hflow]
  exact ⟨hframed, hesp, rfl⟩

/-- A handler that returns comes to the pushed code. -/
theorem tramp_of_ret {c e r z : Context} {ksig : Ksignal} (hroom : Room c.regs)
    (hhandle : handleSignal c.task ksig c.regs = (e.task, .resume e.regs))
    (hintact : ∀ a, e.regs.esp.toNat ≤ a → r.task.mem a = e.task.mem a)
    (hesp : r.regs.esp = e.regs.esp) (hret : r.insn = some .ret) (hexec : Exec r z) :
    Tramp c z 0 := by
  have hlt := c.regs.esp.isLt
  have hle := hroom.le
  have hframe : frameSize = 84 := rfl
  have hinject : sigInjectSize = 12 := rfl
  have hsize : regsSize = 64 := rfl
  obtain ⟨hframed, hentry, -⟩ := handleSignal_entry hroom hhandle
  cases hexec with
  | addEsp imm flags hadd =>
      rw [hadd] at hret
      cases hret
  | movEax imm hmov =>
      rw [hmov] at hret
      cases hret
  | ret _ =>
      refine ⟨hroom, ?_, ?_, ?_, ?_, ?_⟩
      · intro a ha
        show r.task.mem a = c.task.mem a
        rw [hintact a (by omega), hframed.above a ha]
      · intro i hi
        show r.task.mem _ = _
        rw [hintact _ (by omega)]
        exact hframed.code i hi
      · intro i hi
        show r.task.mem _ = _
        rw [hintact _ (by omega)]
        exact hframed.saved i hi
      · have hload : load32 r.task.mem r.regs.esp.toNat =
            BitVec.ofNat 32 (c.regs.esp.toNat - sigInjectSize) := by
          rw [← hframed.retAddr, hesp, hentry]
          apply load32_congr
          intro i hi
          exact hintact _ (by omega)
        show (load32 r.task.mem r.regs.esp.toNat).toNat = c.regs.esp.toNat - 12
        rw [hload, BitVec.toNat_ofNat, hinject]
        omega
      · have himm : (4 : BitVec 32).toNat = 4 := rfl
        show (r.regs.esp + 4).toNat = c.regs.esp.toNat - 80
        rw [hesp, BitVec.toNat_add, hentry, himm]
        omega

section Deliveries

variable {own : Context → Context → Prop} {malloc : SigState → Nat}
  {other : SigState → Regs → SigState × Flow} {delivered : Context → Context → Prop}

/-- A delivery puts the registers back and leaves the bytes at and above the stack
pointer alone. -/
def Restores (delivered : Context → Context → Prop) : Prop :=
  ∀ x y, delivered x y →
    y.regs = x.regs ∧ ∀ a, x.regs.esp.toNat ≤ a → y.task.mem a = x.task.mem a

/-- What interrupts the pushed code does not disturb it. -/
theorem InTrampoline.tramp (hrestores : Restores delivered) {c z : Context}
    (h : InTrampoline own delivered c z) : ∃ k, Tramp c z k := by
  induction h with
  | returned hroom hhandle _ hintact hesp hret hexec =>
      exact ⟨0, tramp_of_ret hroom hhandle hintact hesp hret hexec⟩
  | step _ hexec ih =>
      obtain ⟨k, ih⟩ := ih
      rcases ih.cases with rfl | rfl | rfl
      · exact ⟨1, ih.exec_zero hexec⟩
      · exact ⟨2, ih.exec_one hexec⟩
      · exact absurd hexec ih.not_exec_two
  | interrupted _ hint ih =>
      obtain ⟨k, ih⟩ := ih
      rcases hint with hdelivered | ⟨hregs, hmem⟩
      · obtain ⟨hregs, hmem⟩ := hrestores _ _ hdelivered
        exact ⟨k, ih.undisturbed hregs hmem⟩
      · exact ⟨k, ih.undisturbed hregs fun a _ => congrFun hmem a⟩

/-- The trap is the third instruction. -/
theorem InTrampoline.tramp_trap (hrestores : Restores delivered) {c z : Context}
    (h : InTrampoline own delivered c z) (hinsn : z.insn = some (.int 0x80)) :
    Tramp c z 2 := by
  obtain ⟨k, htramp⟩ := h.tramp hrestores
  rcases htramp.cases with rfl | rfl | rfl
  · rw [htramp.insn_zero] at hinsn
    cases hinsn
  · rw [htramp.insn_one] at hinsn
    cases hinsn
  · exact htramp

/-- Without a pending signal `do_signal` returns to the same registers. -/
theorem doSignal_empty {t : SigState} (h : listIsEmpty t.links t.sigpending = true)
    (regs : Regs) :
    ∃ t', (doSignal t regs).1 = (t', .ret regs) ∧ t'.mem = t.mem := by
  unfold doSignal
  by_cases hxcs : regs.xcs ≠ userCs
  · rw [if_pos hxcs]
    exact ⟨t, rfl, rfl⟩
  · have hget : getSignal (saveSigmask t) = (saveSigmask t, none) := by
      have hempty : listIsEmpty (saveSigmask t).links (saveSigmask t).sigpending = true := h
      simp only [getSignal, dequeueSignal, hempty, if_true]
    rw [if_neg hxcs, hget]
    exact ⟨restoreSavedSigmask (saveSigmask t), rfl, rfl⟩

/-- `sys_sigreturn` through `do_sys` leaves the registers that stand at the stack
pointer. -/
theorem doSys_sigreturn {t : SigState} {regs saved : Regs}
    (hnum : regs.origEax = sysSigreturnNum)
    (hstack : ¬ (regs.esp.toNat ≤ userStackTop ∨ userVirtBot - 4 ≤ regs.esp.toNat))
    (hload : loadRegs t.mem regs.esp.toNat = saved)
    (hempty : listIsEmpty t.links t.sigpending = true) :
    doSys malloc other t regs = (t, .ret saved) := by
  unfold doSys
  rw [if_neg (fun hbad => hstack hbad.2), if_pos hnum]
  simp only [sysSigreturn, hload, hempty, if_true]

/-- The system call of the pushed code returns to the registers that were saved. -/
theorem Tramp.syscall {c z : Context} (h : Tramp c z 2)
    (hempty : listIsEmpty z.task.links z.task.sigpending = true) :
    ∃ t', syscallHandler malloc other z.task { z.regs with eip := z.regs.eip + 2 } =
      (t', .ret c.regs) ∧ t'.mem = z.task.mem := by
  have hle := h.room.le
  have hframe : frameSize = 84 := rfl
  obtain ⟨-, hesp, heax⟩ := h.place
  have hload : loadRegs z.task.mem z.regs.esp.toNat = c.regs := by
    apply loadRegs_eq
    intro i hi
    have haddr : z.regs.esp.toNat + i = c.regs.esp.toNat - sigInjectSize - regsSize + i := by
      rw [hesp]
      rfl
    rw [haddr]
    exact h.saved i hi
  have hstack : ¬ (z.regs.esp.toNat ≤ userStackTop ∨ userVirtBot - 4 ≤ z.regs.esp.toNat) := by
    obtain ⟨hlow, hhigh⟩ := h.room
    have hbot : userVirtBot = 0x8400000 := rfl
    omega
  have hsys : doSys malloc other z.task
      { z.regs with
        eip := z.regs.eip + 2
        origEax := z.regs.eax } = (z.task, .ret c.regs) :=
    doSys_sigreturn heax hstack hload hempty
  obtain ⟨t', hsignal, hmem⟩ := doSignal_empty hempty c.regs
  refine ⟨t', ?_, hmem⟩
  have hnum : ¬ (sysMax.toNat < z.regs.eax.toNat ∨ z.regs.eax = 0) := by
    rw [heax]
    decide
  unfold syscallHandler
  rw [if_neg hnum]
  simp only [hsys]
  exact hsignal

/-- To any depth, a delivery puts the registers back. -/
theorem delivered_restores (n : Nat) : Restores (Delivered own malloc other n) := by
  induction n with
  | zero =>
      intro x y h
      exact absurd h id
  | succ n ih =>
      rintro x y ⟨z, htramp, hinsn, hempty, hcall⟩
      have hz := htramp.tramp_trap ih hinsn
      obtain ⟨t', hback, hmem⟩ := hz.syscall hempty
      rw [hback] at hcall
      have htask : t' = y.task := congrArg Prod.fst hcall
      have hflow : Flow.ret x.regs = Flow.ret y.regs := congrArg Prod.snd hcall
      refine ⟨(Flow.ret.inj hflow).symm, ?_⟩
      intro a ha
      rw [← htask, hmem]
      exact hz.above a ha

/-- A handler whose own steps leave the bytes from its stack pointer on alone, and which
is interrupted only while its stack pointer is no higher, leaves them alone altogether. -/
theorem intact_of_steps {n bound : Nat} {e r : Context}
    (hown : ∀ x y, own x y → ∀ a, bound ≤ a → y.task.mem a = x.task.mem a)
    (hrun : Relation.ReflTransGen
      (fun x y => own x y ∨ x.regs.esp.toNat ≤ bound ∧
        Interruption (Delivered own malloc other n) x y) e r) (a : Nat) (ha : bound ≤ a) :
    r.task.mem a = e.task.mem a := by
  induction hrun with
  | refl => rfl
  | tail _ hstep ih =>
      rw [← ih]
      rcases hstep with hstep | ⟨hesp, hdelivered | ⟨-, hmem⟩⟩
      · exact hown _ _ hstep a ha
      · exact (delivered_restores n _ _ hdelivered).2 a (Nat.le_trans hesp ha)
      · exact congrFun hmem a

/-- A handler that returns, with no signal pending and no further interruption, completes
its delivery. -/
theorem Delivered.of_returned (n : Nat) {c e r : Context} {ksig : Ksignal} (hroom : Room c.regs)
    (hhandle : handleSignal c.task ksig c.regs = (e.task, .resume e.regs))
    (hrun : Relation.ReflTransGen
      (fun x y => own x y ∨ Interruption (Delivered own malloc other n) x y) e r)
    (hintact : ∀ a, e.regs.esp.toNat ≤ a → r.task.mem a = e.task.mem a)
    (hesp : r.regs.esp = e.regs.esp) (hret : r.insn = some .ret)
    (hempty : listIsEmpty r.task.links r.task.sigpending = true) :
    ∃ c', Delivered own malloc other (n + 1) c c' := by
  have hfirst := InTrampoline.returned hroom hhandle hrun hintact hesp hret (Exec.ret hret)
  have hzero := tramp_of_ret hroom hhandle hintact hesp hret (Exec.ret hret)
  have hadd := Exec.addEsp 4 0 hzero.insn_zero
  have hone := hzero.exec_zero hadd
  have hmov := Exec.movEax 10 hone.insn_one
  have htwo := hone.exec_one hmov
  obtain ⟨t', hback, -⟩ := @Tramp.syscall malloc other _ _ htwo hempty
  exact ⟨⟨c.regs, t'⟩, _, (hfirst.step hadd).step hmov, htwo.insn_two, hempty, hback⟩

end Deliveries

/-- For every user context with room for the frame, every signal and handler: the handler
is entered with the signal number as its argument and the pushed code as its return
address.  If it leaves the bytes at and above its stack pointer as they were and
returns, then, to any depth of deliveries in between, the pushed code goes on
instruction by instruction until its system call; and with no signal pending that
returns to the registers before the delivery. -/
theorem delivery_round_trip (own : Context → Context → Prop) (malloc : SigState → Nat)
    (other : SigState → Regs → SigState × Flow) (c : Context) :
    (Room c.regs → ∀ ksig, ∃ e : Context,
      handleSignal c.task ksig c.regs = (e.task, .resume e.regs) ∧
        e.regs.eip = ksig.saHandler ∧
        load32 e.task.mem (e.regs.esp.toNat + 4) = ksig.sig ∧
        load32 e.task.mem e.regs.esp.toNat = BitVec.ofNat 32 (c.regs.esp.toNat - 12)) ∧
      (∀ n z, InTrampoline own (Delivered own malloc other n) c z →
        (∃ z', Exec z z') ∨
          (z.insn = some (.int 0x80) ∧
            (listIsEmpty z.task.links z.task.sigpending = true → ∃ t',
              syscallHandler malloc other z.task { z.regs with eip := z.regs.eip + 2 } =
                (t', .ret c.regs)))) ∧
      ∀ n c', Delivered own malloc other n c c' → c'.regs = c.regs := by
  refine ⟨?_, ?_, ?_⟩
  · intro hroom ksig
    obtain ⟨hframed, hesp⟩ :=
      framed_pushFrame (restoreSavedSigmask c.task).mem ksig c.regs hroom.le
    have hle := hroom.le
    have hframe : frameSize = 84 := rfl
    have hinject : sigInjectSize = 12 := rfl
    have hsize : regsSize = 64 := rfl
    refine ⟨⟨_, (handleSignal c.task ksig c.regs).1⟩, rfl, rfl, ?_, ?_⟩
    · have haddr : c.regs.esp.toNat - frameSize + 4 =
          c.regs.esp.toNat - sigInjectSize - regsSize - 4 := by omega
      have harg := hframed.arg
      rw [← haddr, ← hesp] at harg
      exact harg
    · have hret := hframed.retAddr
      rw [← hesp] at hret
      exact hret
  · intro n z hz
    obtain ⟨k, htramp⟩ := hz.tramp (delivered_restores n)
    rcases htramp.cases with rfl | rfl | rfl
    · exact Or.inl ⟨_, Exec.addEsp 4 0 htramp.insn_zero⟩
    · exact Or.inl ⟨_, Exec.movEax 10 htramp.insn_one⟩
    · refine Or.inr ⟨htramp.insn_two, ?_⟩
      intro hempty
      obtain ⟨t', hback, -⟩ := htramp.syscall hempty
      exact ⟨t', hback⟩
  · intro n c' h
    exact (delivered_restores n c c' h).1

/-- A process in user mode whose code at `0x8048100` only returns. -/
def returningContext : Context where
  regs :=
    { ebx := 1
      ecx := 2
      edx := 3
      esi := 4
      edi := 5
      ebp := 6
      eax := 7
      xds := 0
      xes := 0
      xfs := 0
      origEax := 0
      eip := 0x08048000
      xcs := userCs
      eflags := 0x202
      esp := 0x83FFFFC
      xss := userDs }
  task := procSignalInit
    { sighand := fun _ => { saHandler := 0, saMask := 0 }
      sigpending := 0x400000
      links := { next := id, prev := id }
      sig := fun _ => 0
      allocated := fun _ => false
      freedTwice := false
      sigmaskInfo := fun _ => 0
      mem := fun a => if a = 0x8048100 then 0xC3 else 0 }

/-- An alarm is delivered to it and handled, and it has its registers back. -/
theorem delivery_round_trip_alarm :
    ∃ c', Delivered (fun _ _ => False) (fun _ => 0) (fun t regs => (t, .ret regs)) 1
      returningContext c' ∧ c'.regs = returningContext.regs := by
  have hroom : Room returningContext.regs := by
    constructor
    · decide
    · decide
  obtain ⟨hentry, -, hback⟩ := delivery_round_trip (fun _ _ => False) (fun _ => 0)
    (fun t regs => (t, .ret regs)) returningContext
  obtain ⟨e, hhandle, heip, -, -⟩ :=
    hentry hroom { sig := alarm, saHandler := 0x8048100, saMask := 0 }
  have hmem : e.task = (handleSignal returningContext.task
      { sig := alarm, saHandler := 0x8048100, saMask := 0 } returningContext.regs).1 :=
    (congrArg Prod.fst hhandle).symm
  have hret : e.insn = some .ret := by
    rw [Context.insn, heip, hmem]
    decide +kernel
  have hempty : listIsEmpty e.task.links e.task.sigpending = true := by
    rw [hmem]
    decide +kernel
  obtain ⟨c', hc'⟩ := Delivered.of_returned 0 hroom hhandle Relation.ReflTransGen.refl
    (fun _ _ => rfl) rfl hret hempty
  exact ⟨c', hc', hback 1 c' hc'⟩

end Signal
end NochOS
