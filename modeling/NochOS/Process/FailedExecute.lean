import NochOS.Process.Descriptors
import NochOS.Process.Model
import NochOS.Vfs.HeapUse

/-!
# Processes - a program that cannot be started

This module embeds `sys_execute` with its exits, together with the heap: the status of the
caller is set, the command is parsed, a name is built in the heap, one or two files are
opened, and the header of the program is read.  What the header says, and what the start of a
program leaves in the descriptors and in the heap, are parameters.

Main results:

- Definition `sysExecute`: the function.
- Theorem `kernel_sysExecute`: on the process table it is the function of the process model.
- Theorem `failed_unchanged_iff`: when a failed call has changed nothing.
-/

namespace NochOS
namespace Process
namespace Loading

open Library Ext2 Vfs

/-! ## The function -/

/-- The process table with the pages, the descriptors of each process, and the dentries with
the heap. -/
structure System where
  kernel : Kernel
  files : Nat → Files
  mem : Mem

/-- A program on the system. -/
abbrev Exec := StateT System (Except Fault)

/-- A program on the memory. -/
def onMem {α : Type} (r : Run α) : Exec α := fun s =>
  match r s.mem with
  | .error fault => .error fault
  | .ok (a, mem) => .ok (a, { s with mem := mem })

/-- What the programs of the file system decide.  `header` is the entry point of an open file
that is a program; `started` are the descriptors and the heap behind a start. -/
structure Loader where
  sc : Scratch
  garbage : OpenFile
  header : Mem → OpenFile → Option Nat
  started : OpenFile → List UInt8 → System → (Nat → Files) × Mem

/-- `' '`. -/
def space : UInt8 := 32

/-- `'\n'`. -/
def newline : UInt8 := 10

/-- `parse_cmd` for a pointer that is not null: the first field. -/
def parseCmd (src : List UInt8) : List UInt8 := src.takeWhile fun c => c ≠ space ∧ c ≠ newline

/-- `"/bin/"`. -/
def binDir : List UInt8 := [slash, 98, 105, 110, slash]

/-- There is no free process. -/
def full (k : Kernel) : Bool :=
  match k.curProcPcb with
  | none => false
  | some cur => getNextPid k (k.pcb cur).pid .inactive = numProc

/-- `if (cur_proc_pcb) proc_status[cur_proc_pcb->pid] = IDLE`. -/
def suspendCaller (k : Kernel) : Kernel :=
  match k.curProcPcb with
  | none => k
  | some cur => setStatus k (k.pcb cur).pid .idle

/-- `proc_status[cur_proc_pcb->pid] = DAEMON; return -1`. -/
def giveUp : Exec Transfer := do
  let s ← get
  match s.kernel.curProcPcb with
  | none => throw .wild
  | some cur => do
      set { s with kernel := setStatus s.kernel (s.kernel.pcb cur).pid .daemon }
      pure (.ret (-1))

/-- The start of a program, on the process table. -/
def startChild (k : Kernel) (curRegs entryPoint : Nat) : Option (Kernel × Transfer) :=
  match childPcbInit k k.curProcPcb with
  | none => none
  | some (child, k) =>
      let k := { k with curProcPcb := some child }
      let k := linkSaPcb k (some child) k.curSessId
      let k :=
        { k with pcb := Function.update k.pcb child { k.pcb child with parentEsp := curRegs } }
      let k := mapVirtual4mb k (getPhysAddrByPid (k.pcb child).pid) userVirtTop
      let k := mapVidmem k (k.pcb child) k.curSessId
      some ({ k with tssEsp0 := getEsp0ByPid (k.pcb child).pid },
        .enter (k.pcb child).pid entryPoint)

/-- `sys_execute` behind the opens. -/
def load (env : Loader) (curRegs : Nat) (command : List UInt8) (program : OpenFile) :
    Exec Transfer := do
  let s ← get
  match env.header s.mem program with
  | none => giveUp
  | some entryPoint =>
      match startChild s.kernel curRegs entryPoint with
      | none => throw .wild
      | some (k, transfer) => do
          let (files, mem) := env.started program command s
          set { s with kernel := k, files := files, mem := mem }
          pure transfer

/-- `sys_execute`. -/
def sysExecute (sb : Super) (env : Loader) (curRegs : Nat) (command : Option (List UInt8)) :
    Exec Transfer := do
  let s ← get
  if full s.kernel then pure (.ret (-1))
  else do
    set { s with kernel := suspendCaller s.kernel }
    match command with
    | none => giveUp
    | some command => do
        let parsedCmd := parseCmd command
        let _ ← onMem (malloc (parsedCmd.length + 5))
        let program := { env.garbage with fOp := .ext2File }
        let (res, program) ← onMem (heapFopen sb env.sc program parsedCmd)
        if res = -1 then do
          let (res, program) ← onMem (heapFopen sb env.sc program (binDir ++ parsedCmd))
          if res = -1 ∨ parsedCmd.head? = some period then giveUp
          else load env curRegs command program
        else load env curRegs command program

/-! ## What an open leaves -/

section Opens

variable {Obj : Type} {T : Tree (List UInt8) Obj} {Stands : Dentry → Obj → Prop} {g : Geometry}
  {d : Disk} {ino : Obj → Nat} {cwd : Obj} {m m' : Mem} {sc : Scratch} {fname : List UInt8}
  {keep : List Heap.Obj}

/-- The superblock and the heap can be used, whatever became of the current directory. -/
theorem setting_of_remains (h : Remains keep m m') (hset : Setting T Stands g d ino m) :
    Setting T Stands g d ino m' ∧ Owned m' [] m'.live :=
  ⟨hset.congr h.sRoot h.disk, h.consistent, List.Perm.refl _⟩

/-- `file_fopen` leaves what `parse_path` leaves. -/
theorem fopen_remains {followed : Prop} {R : Resolution (List UInt8) Obj} (self : OpenFile)
    (hkeep : ∀ x ∈ keep, x ∈ m.live)
    (hparse : After (fun r m' => (followed ∧ Resolved T Stands m r.2.1 r.2.2 R r.1 m') ∨
        (¬ followed ∧ r.1 = -1 ∧ dentryObj r.2.1 ∉ m.live ∧
          Remains (dentryObj r.2.1 :: keep) m m'))
      (fun fault => fault = .outOfMemory ∨ ¬ followed) (parseFresh g.sb sc fname m)) :
    After (fun _ m' => Remains keep m m') (fun _ => True) (heapFopen g.sb sc self fname m) := by
  unfold heapFopen
  refine After.bind (hparse.mono ?_ fun _ _ => trivial)
  rintro ⟨r, b, e⟩ m' (⟨-, hresolved⟩ | ⟨-, hret, -, hleft⟩)
  · simp only at hresolved ⊢
    obtain ⟨qs, hchain, hown⟩ := hresolved.chain
    obtain ⟨-, helive⟩ := hresolved.isLive
    rcases hresolved.ret with ⟨rfl, -⟩ | ⟨rfl, -⟩
    · obtain ⟨m₁, hfree, hown₁, hsame₁⟩ := free_eq hown
      simp only [ne_eq, not_true_eq_false, if_false]
      refine After.bind_ok (readNode_eq helive) (After.bind_ok hfree (After.pure ?_))
      exact ⟨fun x hx => hown₁.mem_rest (hkeep x hx), hown₁.consistent,
        hsame₁.sRoot.trans hresolved.sRoot, hsame₁.disk.trans hresolved.disk⟩
    · obtain ⟨m₁, hfree, hown₁, hsame₁⟩ := freeDentry_links hchain hown
      simp only [ne_eq, one_ne_zero, not_false_eq_true, if_true]
      refine After.bind_ok hfree (After.pure ?_)
      exact ⟨fun x hx => hown₁.mem_rest (hkeep x hx), hown₁.consistent,
        hsame₁.sRoot.trans hresolved.sRoot, hsame₁.disk.trans hresolved.disk⟩
  · simp only at hret hleft ⊢
    subst hret
    have hne : ¬ (-1 : Int) = 1 := by decide
    simp only [ne_eq, show ¬ (-1 : Int) = 0 by decide, not_false_eq_true, if_true, hne, if_false]
    exact After.pure ⟨fun x hx => hleft.live x (List.mem_cons_of_mem _ hx), hleft.consistent,
      hleft.sRoot, hleft.disk⟩

end Opens

/-! ## The exits -/

section Exits

variable {Obj : Type} {T : Tree (List UInt8) Obj} {Stands : Dentry → Obj → Prop} {g : Geometry}
  {d : Disk} {ino : Obj → Nat} {cwd : Obj} {env : Loader} {curRegs cur : Nat} {s s' : System}

/-- A program on the memory leaves the process table and the descriptors alone. -/
theorem onMem_after {α : Type} {r : Run α} {Q : α → Mem → Prop} {E : Fault → Prop}
    (h : After Q E (r s.mem)) :
    After (fun a s' => s' = { s with mem := s'.mem } ∧ Q a s'.mem) E (onMem r s) := by
  unfold onMem
  cases hr : r s.mem with
  | error fault => exact h.fails hr
  | ok res => exact ⟨rfl, h.ok hr⟩

theorem onMem_error {α : Type} {r : Run α} {fault : Fault} (h : r s.mem = .error fault) :
    onMem r s = .error fault := by
  unfold onMem
  rw [h]

theorem onMem_ok {α : Type} {r : Run α} {a : α} {mem : Mem} (h : r s.mem = .ok (a, mem)) :
    onMem r s = .ok (a, { s with mem := mem }) := by
  unfold onMem
  rw [h]

/-- A return of -1 changes the status of the caller only. -/
theorem giveUp_after (hcur : s.kernel.curProcPcb = some cur) :
    giveUp s = .ok (.ret (-1),
      { s with kernel := setStatus s.kernel (s.kernel.pcb cur).pid .daemon }) := by
  unfold giveUp
  refine (run_bind (show (get : Exec System) s = .ok (s, s) from rfl)).trans ?_
  rw [hcur]
  rfl

theorem startChild_enters {k k' : Kernel} {entryPoint : Nat} {t : Transfer}
    (h : startChild k curRegs entryPoint = some (k', t)) (value : Int) : t ≠ .ret value := by
  unfold startChild at h
  cases hchild : childPcbInit k k.curProcPcb with
  | none =>
      rw [hchild] at h
      cases h
  | some child =>
      rw [hchild] at h
      simp only [Option.some.injEq, Prod.mk.injEq] at h
      rw [← h.2]
      exact Transfer.noConfusion

/-- Behind the opens a return leaves the heap alone. -/
theorem load_after (hcur : s.kernel.curProcPcb = some cur) (command : List UInt8)
    (program : OpenFile) :
    After (fun t s' => t = .ret (-1) → s'.mem = s.mem) (fun _ => True)
      (load env curRegs command program s) := by
  unfold load
  refine After.bind_ok (show (get : Exec System) s = .ok (s, s) from rfl) ?_
  cases env.header s.mem program with
  | none => exact After.of_eq (giveUp_after hcur) fun _ => rfl
  | some entryPoint =>
      cases hstart : startChild s.kernel curRegs entryPoint with
      | none =>
          simp only [hstart]
          exact After.throw trivial
      | some started =>
          obtain ⟨k, t⟩ := started
          simp only [hstart]
          refine After.bind_ok rfl (After.pure fun hret => ?_)
          exact absurd hret (startChild_enters hstart (-1))

/-- The name of a program is left in the heap. -/
theorem sysExecute_leaves_name (h : Working T Stands g d ino cwd s.mem)
    (hcur : s.kernel.curProcPcb = some cur) (hfull : full s.kernel = false)
    {command : List UInt8} (hnul : 0 ∉ command) (hlen : command.length + 5 < 2 ^ 32) :
    After (fun t s' => t = .ret (-1) → ∃ x ∈ s'.mem.live, x ∉ s.mem.live) (fun _ => True)
      (sysExecute g.sb env curRegs (some command) s) := by
  obtain ⟨ps, others, hchain, hown⟩ := h.chain
  have hparsed : 0 ∉ parseCmd command := fun hmem => hnul (List.takeWhile_subset _ hmem)
  have hshort : (parseCmd command).length + 5 < 2 ^ 32 := by
    have hle : (parseCmd command).length ≤ command.length := (List.takeWhile_sublist _).length_le
    omega
  unfold sysExecute
  refine After.bind_ok (show (get : Exec System) s = .ok (s, s) from rfl) ?_
  rw [hfull, if_neg (by decide)]
  refine After.bind_ok rfl ?_
  generalize hs₁ : ({ s with kernel := suspendCaller s.kernel } : System) = s₁
  have hcur₁ : s₁.kernel.curProcPcb = some cur := by
    rw [← hs₁]
    unfold suspendCaller
    rw [hcur]
    exact hcur
  have hmem₁ : s₁.mem = s.mem := by rw [← hs₁]
  -- the name is a new object, and every open leaves it
  rcases malloc_object hown hshort with hfail | ⟨p, m₁, halloc, hown₁, hsame₁⟩
  · rw [← hmem₁] at hfail
    exact After.bind (After.of_error (onMem_error hfail) trivial)
  · rw [← hmem₁] at halloc
    refine After.bind_ok (onMem_ok halloc) ?_
    generalize hname : (⟨p, (parseCmd command).length + 5⟩ : Heap.Obj) = name at hown₁
    have hfresh : name ∉ s.mem.live := fun hmem => hown₁.fresh (hown.live.mem_iff.mp hmem)
    have hshows₁ : Shows T Stands m₁.sRoot m₁.cur.dentry cwd := by
      rw [hsame₁.sRoot, hsame₁.cur]
      exact h.shows
    have hchain₁ : Leads T Stands m₁.node m₁.cur.dParent (T.parent cwd) ps := by
      rw [hsame₁.node, hsame₁.cur]
      exact hchain
    have hset₁ := h.setting.congr hsame₁.sRoot hsame₁.disk
    have hfirst := fopen_remains { env.garbage with fOp := .ext2File }
      (fun x hx => hown₁.mem_rest hx) (parseFresh_ends hset₁ env.sc hshows₁ hchain₁ hown₁ hparsed)
    refine After.bind ((onMem_after hfirst).mono ?_ fun _ _ => trivial)
    rintro ⟨res, program⟩ s₂ ⟨hs₂, hleft₂⟩
    have hcur₂ : s₂.kernel.curProcPcb = some cur := by
      rw [hs₂]
      exact hcur₁
    have hname₂ : name ∈ s₂.mem.live := hleft₂.live name List.mem_cons_self
    by_cases hres : res = -1
    · simp only [hres, if_true]
      obtain ⟨hset₂, hown₂⟩ := setting_of_remains hleft₂ hset₁
      have hbin : 0 ∉ [98, 105, 110, slash] ++ parseCmd command := fun hmem =>
        (List.mem_append.mp hmem).elim (by decide) hparsed
      have hsecond := fopen_remains program (fun x hx => hx)
        (parseFresh_absolute hset₂ env.sc hown₂ hbin cwd)
      refine After.bind ((onMem_after hsecond).mono ?_ fun _ _ => trivial)
      rintro ⟨res', program'⟩ s₃ ⟨hs₃, hleft₃⟩
      have hcur₃ : s₃.kernel.curProcPcb = some cur := by
        rw [hs₃]
        exact hcur₂
      have hname₃ : name ∈ s₃.mem.live := hleft₃.live name hname₂
      by_cases hgive : res' = -1 ∨ (parseCmd command).head? = some period
      · simp only [hgive, if_true]
        exact After.of_eq (giveUp_after hcur₃) fun _ => ⟨name, hname₃, hfresh⟩
      · simp only [hgive, if_false]
        refine (load_after hcur₃ command program').mono (fun t s' hret ht => ?_) fun _ _ => trivial
        rw [hret ht]
        exact ⟨name, hname₃, hfresh⟩
    · simp only [hres, if_false]
      refine (load_after hcur₂ command program).mono (fun t s' hret ht => ?_) fun _ _ => trivial
      rw [hret ht]
      exact ⟨name, hname₂, hfresh⟩

/-! ## The process table -/

/-- A program on the memory leaves the process table alone. -/
theorem onMem_kernel {α : Type} (r : Run α) (s : System) :
    After (fun _ s' => s'.kernel = s.kernel) (fun _ => True) (onMem r s) := by
  unfold onMem
  cases r s.mem with
  | error fault => trivial
  | ok res => rfl

theorem not_full_iff {k : Kernel} (hcur : k.curProcPcb = some cur) :
    full k = false ↔ getNextPid k (k.pcb cur).pid .inactive ≠ numProc := by
  unfold full
  rw [hcur]
  exact decide_eq_false_iff_not

/-- The start of a program in the process model. -/
theorem sysExecute_some {k : Kernel} (hfull : full k = false) (curRegs entryPoint : Nat) :
    Process.sysExecute k curRegs (some entryPoint) =
      (startChild (suspendCaller k) curRegs entryPoint).getD (suspendCaller k, .fault) := by
  cases hcur : k.curProcPcb with
  | none =>
      simp only [Process.sysExecute, startChild, suspendCaller, hcur, Bool.false_eq_true, if_false]
      cases childPcbInit k none with
      | none => rfl
      | some child => rfl
  | some cur =>
      have hfree := (not_full_iff hcur).mp hfull
      simp only [Process.sysExecute, startChild, suspendCaller, hcur, hfree, decide_false,
        Bool.false_eq_true, if_false]
      cases childPcbInit (setStatus k (k.pcb cur).pid .idle)
          (setStatus k (k.pcb cur).pid .idle).curProcPcb with
      | none => rfl
      | some child => rfl

/-- A return of -1, on the process table. -/
theorem giveUp_kernel (hfull : full s.kernel = false)
    (hs : s'.kernel = suspendCaller s.kernel) :
    After (fun t s' => ∃ image, Process.sysExecute s.kernel curRegs image = (s'.kernel, t))
      (fun _ => True) (giveUp s') := by
  cases hcur : s.kernel.curProcPcb with
  | none =>
      have hcur' : s'.kernel.curProcPcb = none := by
        rw [hs, suspendCaller, hcur]
        exact hcur
      unfold giveUp
      refine After.bind_ok (show (get : Exec System) s' = .ok (s', s') from rfl) ?_
      rw [hcur']
      exact After.throw trivial
  | some cur =>
      have hsuspend : suspendCaller s.kernel = setStatus s.kernel (s.kernel.pcb cur).pid .idle := by
        unfold suspendCaller
        rw [hcur]
      have hcur' : s'.kernel.curProcPcb = some cur := by
        rw [hs, hsuspend]
        exact hcur
      refine After.of_eq (giveUp_after hcur') ⟨none, ?_⟩
      rw [sysExecute_none hcur ((not_full_iff hcur).mp hfull), hs, hsuspend]
      rfl

/-- What is behind the opens, on the process table. -/
theorem load_kernel (hfull : full s.kernel = false) (hs : s'.kernel = suspendCaller s.kernel)
    (command : List UInt8) (program : OpenFile) :
    After (fun t s' => ∃ image, Process.sysExecute s.kernel curRegs image = (s'.kernel, t))
      (fun _ => True) (load env curRegs command program s') := by
  unfold load
  refine After.bind_ok (show (get : Exec System) s' = .ok (s', s') from rfl) ?_
  cases env.header s'.mem program with
  | none => exact giveUp_kernel hfull hs
  | some entryPoint =>
      cases hstart : startChild s'.kernel curRegs entryPoint with
      | none =>
          simp only [hstart]
          exact After.throw trivial
      | some started =>
          obtain ⟨k, t⟩ := started
          simp only [hstart]
          refine After.bind_ok rfl (After.pure ⟨some entryPoint, ?_⟩)
          rw [sysExecute_some hfull, ← hs, hstart]
          rfl

/-- On the process table the function is the one of the process model, for an answer of the
file system. -/
theorem kernel_sysExecute (sb : Super) (env : Loader) (curRegs : Nat)
    (command : Option (List UInt8)) (s : System) :
    After (fun t s' => ∃ image, Process.sysExecute s.kernel curRegs image = (s'.kernel, t))
      (fun _ => True) (sysExecute sb env curRegs command s) := by
  unfold sysExecute
  refine After.bind_ok (show (get : Exec System) s = .ok (s, s) from rfl) ?_
  cases hfull : full s.kernel with
  | true =>
      rw [if_pos rfl]
      refine After.pure ⟨none, ?_⟩
      cases hcur : s.kernel.curProcPcb with
      | none =>
          unfold full at hfull
          rw [hcur] at hfull
          cases hfull
      | some cur =>
          refine sysExecute_full hcur ?_ _ _
          by_contra hnot
          rw [(not_full_iff hcur).mpr hnot] at hfull
          cases hfull
  | false =>
      rw [if_neg (by decide)]
      refine After.bind_ok rfl ?_
      cases command with
      | none => exact giveUp_kernel hfull rfl
      | some command =>
          refine After.bind ((onMem_kernel _ _).mono (fun _ s₁ hs₁ => ?_) fun _ _ => trivial)
          refine After.bind ((onMem_kernel _ _).mono (fun r s₂ hs₂ => ?_) fun _ _ => trivial)
          obtain ⟨res, program⟩ := r
          by_cases hres : res = -1
          · simp only [hres, if_true]
            refine After.bind ((onMem_kernel _ _).mono (fun r s₃ hs₃ => ?_) fun _ _ => trivial)
            obtain ⟨res', program'⟩ := r
            by_cases hgive : res' = -1 ∨ (parseCmd command).head? = some period
            · simp only [hgive, if_true]
              exact giveUp_kernel hfull (hs₃.trans (hs₂.trans hs₁))
            · simp only [hgive, if_false]
              exact load_kernel hfull (hs₃.trans (hs₂.trans hs₁)) command program'
          · simp only [hres, if_false]
            exact load_kernel hfull (hs₂.trans hs₁) command program

/-! ## Failed calls -/

/-- Two systems have the same process table, running process, descriptors, pages and objects
of the heap. -/
structure Unchanged (s s' : System) : Prop where
  procStatus : s'.kernel.procStatus = s.kernel.procStatus
  curProcPcb : s'.kernel.curProcPcb = s.kernel.curProcPcb
  files : s'.files = s.files
  pageDirectory : s'.kernel.pageDirectory = s.kernel.pageDirectory
  progPageTable : s'.kernel.progPageTable = s.kernel.progPageTable
  live : s'.mem.live.Perm s.mem.live

theorem sysExecute_of_full (hfull : full s.kernel = true) (sb : Super) (env : Loader)
    (curRegs : Nat) (command : Option (List UInt8)) :
    sysExecute sb env curRegs command s = .ok (.ret (-1), s) := by
  unfold sysExecute
  refine (run_bind (show (get : Exec System) s = .ok (s, s) from rfl)).trans ?_
  rw [if_pos hfull]
  rfl

theorem sysExecute_null (hfull : full s.kernel = false) (hcur : s.kernel.curProcPcb = some cur)
    (sb : Super) (env : Loader) (curRegs : Nat) :
    sysExecute sb env curRegs none s = .ok (.ret (-1),
      { s with
        kernel := setStatus (setStatus s.kernel (s.kernel.pcb cur).pid .idle)
          (s.kernel.pcb cur).pid .daemon }) := by
  have hsuspend : suspendCaller s.kernel = setStatus s.kernel (s.kernel.pcb cur).pid .idle := by
    unfold suspendCaller
    rw [hcur]
  unfold sysExecute
  refine (run_bind (show (get : Exec System) s = .ok (s, s) from rfl)).trans ?_
  rw [hfull, if_neg (by decide), hsuspend]
  exact giveUp_after hcur

/-- A call that returns -1 has changed nothing if and only if there was no free process, or the
command is null and the caller was in the background already. -/
theorem failed_unchanged_iff (h : Working T Stands g d ino cwd s.mem)
    (hcur : s.kernel.curProcPcb = some cur) {command : Option (List UInt8)}
    (hcommand : ∀ c, command = some c → 0 ∉ c ∧ c.length + 5 < 2 ^ 32)
    (hrun : sysExecute g.sb env curRegs command s = .ok (.ret (-1), s')) :
    Unchanged s s' ↔
      full s.kernel = true ∨
        (command = none ∧ s.kernel.procStatus (s.kernel.pcb cur).pid = .daemon) := by
  cases hfull : full s.kernel with
  | true =>
      rw [sysExecute_of_full hfull] at hrun
      obtain rfl : s = s' := (Prod.mk.inj (Except.ok.inj hrun)).2
      exact iff_of_true ⟨rfl, rfl, rfl, rfl, rfl, List.Perm.refl _⟩ (Or.inl rfl)
  | false =>
      rw [or_iff_right (by decide)]
      cases command with
      | none =>
          rw [sysExecute_null hfull hcur] at hrun
          obtain rfl := (Prod.mk.inj (Except.ok.inj hrun)).2
          rw [and_iff_right rfl]
          constructor
          · intro hsame
            have hstatus := congrFun hsame.procStatus (s.kernel.pcb cur).pid
            rw [← hstatus]
            exact Function.update_self _ _ _
          · intro hdaemon
            refine ⟨?_, rfl, rfl, rfl, rfl, List.Perm.refl _⟩
            show Function.update (Function.update s.kernel.procStatus _ _) _ _ = _
            rw [Function.update_idem, ← hdaemon, Function.update_eq_self]
      | some c =>
          obtain ⟨hnul, hlen⟩ := hcommand c rfl
          obtain ⟨x, hx, hfresh⟩ := (sysExecute_leaves_name h hcur hfull hnul hlen).ok hrun rfl
          refine iff_of_false (fun hsame => hfresh (hsame.live.mem_iff.mp hx)) fun hnull => ?_
          cases hnull.1

end Exits

/-! ## A directory -/

/-- The root directory is no program. -/
def noPrograms : Loader where
  sc := ⟨default, fun _ => 0, default⟩
  garbage := ⟨.other, ⟨treeRoot, .sRoot⟩, 0⟩
  header _ _ := none
  started _ _ s := (s.files, s.mem)

/-- The first process, on a device that has just been mounted. -/
def bootSystem : System := ⟨alone, fun _ => plainFiles, bootMem⟩

/-- How a call ends, and how many objects there are in the heap. -/
def outcome : Except Fault (Transfer × System) → Option (Transfer × Nat)
  | .ok (transfer, s) => some (transfer, s.mem.live.length)
  | .error _ => none

/-- `execute(".")` in the root directory returns -1, and leaves two objects in the heap. -/
theorem sysExecute_dot :
    ∃ s', sysExecute smallGroup.sb noPrograms 0 (some [period]) bootSystem = .ok (.ret (-1), s') ∧
      s'.mem.live.length = 2 := by
  have hrun : outcome (sysExecute smallGroup.sb noPrograms 0 (some [period]) bootSystem) =
      some (.ret (-1), 2) := by
    decide +kernel
  cases hend : sysExecute smallGroup.sb noPrograms 0 (some [period]) bootSystem with
  | error fault =>
      rw [hend] at hrun
      cases hrun
  | ok res =>
      obtain ⟨t, s'⟩ := res
      rw [hend] at hrun
      obtain ⟨rfl, hlength⟩ := Prod.mk.inj (Option.some.inj hrun)
      exact ⟨s', rfl, hlength⟩

/-- A failed call has changed something. -/
theorem failed_changes_heap :
    ∃ s', sysExecute smallGroup.sb noPrograms 0 (some [period]) bootSystem = .ok (.ret (-1), s') ∧
      ¬ Unchanged bootSystem s' := by
  obtain ⟨s', hrun, hlength⟩ := sysExecute_dot
  refine ⟨s', hrun, fun hsame => ?_⟩
  have hperm := hsame.live.length_eq
  rw [hlength] at hperm
  exact absurd hperm (by decide)

/-- `failed_unchanged_iff` for `execute(".")`. -/
theorem failed_unchanged_iff_dot :
    ∃ s', sysExecute smallGroup.sb noPrograms 0 (some [period]) bootSystem = .ok (.ret (-1), s') ∧
      (Unchanged bootSystem s' ↔
        full bootSystem.kernel = true ∨ (some [period] = none ∧
          bootSystem.kernel.procStatus (bootSystem.kernel.pcb 0).pid = .daemon)) := by
  obtain ⟨s', hrun, -⟩ := sysExecute_dot
  refine ⟨s', hrun, failed_unchanged_iff working_bootMem rfl (fun c hc => ?_) hrun⟩
  obtain rfl := Option.some.inj hc
  exact ⟨by decide, by decide⟩

end Loading
end Process
end NochOS
