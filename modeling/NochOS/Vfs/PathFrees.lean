import NochOS.Vfs.HeapUse

/-!
# VFS - what parse_path frees

A call of `parse_path` owns the dentries that it has allocated and not freed yet.  This
module runs it with a `free` that refuses everything else: what was there before the call,
the root of the superblock, and pointers without a dentry behind them.  The runs that are
refused are read off the path and the tree.

Main results:

- Definition `parsePathWith`: the function with a given `free`.
- Theorem `parsePathWith_free`: with `free` it is the function of the other modules.
- Theorem `strict_ok`: a run that is not refused is one of the function.
- Theorem `parsePath_frees_iff`: the paths for which nothing is refused.
-/

namespace NochOS
namespace Vfs

open Library Ext2

/-! ## The function with a given free -/

section With

variable (free : Ptr → Run Unit) (full : Fault)

/-- The loop of `free_dentry`. -/
def freeLoopWith : Nat → Ptr → Run Unit
  | _, .sRoot => pure ()
  | 0, _ => throw .wild
  | rounds + 1, dentry => do
      let node ← readNode dentry
      free dentry
      freeLoopWith rounds node.dParent

/-- `free_dentry`. -/
def freeDentryWith (dentry : Ptr) : Run Unit := fun m => freeLoopWith free m.live.length dentry m

/-- `if (p != &superblock.s_root) free(p)`. -/
def freeUnlessRootWith (p : Ptr) : Run Unit := if p = .sRoot then pure () else free p

/-- The loop of `parse_path` on `path + i`. -/
def parseLoopWith (sb : Super) (sc : Scratch) :
    List UInt8 → Nat → Nat → Buf → Ptr → Ptr → Run HeapLoopEnd
  | [], _, j, name, dTrav, _ => pure (.left name j dTrav)
  | c :: path, i, j, name, dTrav, dTmp =>
      if fnameLen ≤ i then pure .failed
      else
        let name := Function.update name j (if c = slash then 0 else c)
        if c = slash ∧ path.getD 0 0 ≠ 0 then
          if name 0 = 0 then do
            freeDentryWith free dTmp
            pure .failed
          else if name 0 = period ∧ name 1 = 0 then
            parseLoopWith sb sc path (i + 1) 0 name dTrav dTmp
          else if name 0 = period ∧ name 1 = period ∧ name 2 = 0 then do
            let trav ← readNode dTrav
            free dTrav
            parseLoopWith sb sc path (i + 1) 0 name trav.dParent dTrav
          else do
            let p ← malloc sizeofDentry
            setParent (.heap p) dTrav
            let res ← lookup sb sc dTrav (.heap p) (cString name fnameLen)
            if res = -1 then do
              freeDentryWith free (.heap p)
              pure .failed
            else parseLoopWith sb sc path (i + 1) 0 name (.heap p) (.heap p)
        else if c = slash then
          if name 0 = 0 then do
            freeDentryWith free dTmp
            pure .failed
          else pure (.left name (j + 1) dTrav)
        else parseLoopWith sb sc path (i + 1) (j + 1) name dTrav dTmp

/-- The part of `parse_path` behind its loop. -/
def parseLastWith (sb : Super) (sc : Scratch) (name : Buf) (dTrav parent node : Ptr) :
    Run Int := do
  let trav ← readNode dTrav
  let retval ←
    if name 0 = period ∧ name 1 = 0 then do
      writeNode node trav
      copyNode parent trav.dParent
      freeUnlessRootWith free trav.dParent
      pure (0 : Int)
    else if name 0 = period ∧ name 1 = period ∧ name 2 = 0 then do
      let up ← readNode trav.dParent
      writeNode node up
      copyNode parent up.dParent
      freeUnlessRootWith free up.dParent
      freeUnlessRootWith free trav.dParent
      pure 0
    else if name 0 = 0 then do
      copyNode parent .sRoot
      copyNode node .sRoot
      pure 0
    else do
      writeNode parent trav
      let res ← lookup sb sc dTrav node (cString name fnameLen)
      if res = -1 then do
        let missing ← readNode node
        writeNode node
          { missing with dentry := { missing.dentry with filename := cString name fnameLen } }
        pure 1
      else pure 0
  setParent node parent
  freeUnlessRootWith free dTrav
  pure retval

/-- What happens behind the loop of `parse_path`.  A store behind the end of `name` is the
fault `full`. -/
def parseEndWith (sb : Super) (sc : Scratch) (parent node : Ptr) : HeapLoopEnd → Run Int
  | .failed => pure (-1)
  | .left name j dTrav =>
      if fnameLen ≤ j then throw full
      else parseLastWith free sb sc (Function.update name j 0) dTrav parent node

/-- `parse_path` from the loop on. -/
def parseFromWith (sb : Super) (sc : Scratch) (path : List UInt8) (dTrav dTmp parent node : Ptr) :
    Run Int := do
  let loopEnd ← parseLoopWith free sb sc path 0 0 sc.name dTrav dTmp
  parseEndWith free full sb sc parent node loopEnd

/-- `parse_path`. -/
def parsePathWith (sb : Super) (sc : Scratch) (path : List UInt8) (parent node : Ptr) :
    Run Int := do
  let m ← get
  if path.getD 0 0 = 0 then pure (-1)
  else if path.getD 0 0 = slash ∨ firstChar m.cur.dentry = slash then
    let path := if path.getD 0 0 = slash ∧ path.getD 1 0 ≠ slash then path.tail else path
    if path.getD 0 0 = slash ∧ path.getD 1 0 = slash then pure (-1)
    else parseFromWith free full sb sc path .sRoot .stray parent node
  else do
    let p ← malloc sizeofDentry
    writeNode (.heap p) m.cur
    let dTmp ← copyLoop m.live.length (.heap p) .stray
    parseFromWith free full sb sc path (.heap p) dTmp parent node

end With

/-- `free` where an object may not be freed: what was there before. -/
def strictFree (before : List Heap.Obj) (p : Ptr) : Run Unit :=
  if ∃ o ∈ before, p = .heap o.ptr then throw .wild else free p

/-! ## The function itself -/

theorem freeLoopWith_free (rounds : Nat) (p : Ptr) :
    freeLoopWith free rounds p = freeLoop rounds p := by
  induction rounds generalizing p with
  | zero => cases p <;> rfl
  | succ rounds ih =>
      cases p with
      | sRoot => rfl
      | heap p => simp only [freeLoopWith, freeLoop, ih]
      | stray => simp only [freeLoopWith, freeLoop, ih]

theorem freeDentryWith_free (p : Ptr) : freeDentryWith free p = freeDentry p := by
  funext m
  rw [freeDentryWith, freeLoopWith_free, freeDentry]

theorem parseLoopWith_free (sb : Super) (sc : Scratch) (path : List UInt8) (i j : Nat) (name : Buf)
    (dTrav dTmp : Ptr) :
    parseLoopWith free sb sc path i j name dTrav dTmp =
      heapParseLoop sb sc path i j name dTrav dTmp := by
  induction path generalizing i j name dTrav dTmp with
  | nil => rfl
  | cons c path ih => simp only [parseLoopWith, heapParseLoop, ih, freeDentryWith_free]

/-- With `free` it is the function of the other modules. -/
theorem parsePathWith_free (sb : Super) (sc : Scratch) (path : List UInt8) (parent node : Ptr) :
    parsePathWith free .wild sb sc path parent node = heapParsePath sb sc path parent node := by
  have hend : ∀ loopEnd, parseEndWith free .wild sb sc parent node loopEnd =
      heapParseEnd sb sc parent node loopEnd := by
    intro loopEnd
    cases loopEnd <;> rfl
  have hfrom : ∀ path dTrav dTmp, parseFromWith free .wild sb sc path dTrav dTmp parent node =
      heapParseFrom sb sc path dTrav dTmp parent node := by
    intro path dTrav dTmp
    simp only [parseFromWith, heapParseFrom, parseLoopWith_free, hend]
  simp only [parsePathWith, heapParsePath, hfrom]

/-! ## Runs that are not refused -/

/-- Where the first program ends, the second one ends in the same way. -/
def Below {α : Type} (s r : Run α) : Prop := ∀ m x, s m = .ok x → r m = .ok x

section Below

variable {α β : Type} {s r s' r' : Run α}

theorem Below.refl (s : Run α) : Below s s := fun _ _ h => h

theorem below_throw (e : Fault) : Below (throw e : Run α) r := fun _ _ h => by cases h

theorem Below.bind {k k' : α → Run β} (h : Below s r) (hk : ∀ a, Below (k a) (k' a)) :
    Below (s >>= k) (r >>= k') := by
  intro m x hrun
  cases hs : s m with
  | error e =>
      simp only [Bind.bind, StateT.bind, Except.bind, hs] at hrun
      cases hrun
  | ok y =>
      rw [run_bind hs] at hrun
      rw [run_bind (h m y hs)]
      exact hk y.1 y.2 x hrun

theorem Below.ite {c : Prop} [Decidable c] (h : Below s r) (h' : Below s' r') :
    Below (if c then s else s') (if c then r else r') := by
  split
  · exact h
  · exact h'

theorem below_strictFree (before : List Heap.Obj) (p : Ptr) :
    Below (strictFree before p) (free p) := by
  unfold strictFree
  split
  · exact below_throw _
  · exact Below.refl _

variable {f f' : Ptr → Run Unit} (hfree : ∀ p, Below (f p) (f' p))

include hfree

theorem below_freeLoop (rounds : Nat) (p : Ptr) :
    Below (freeLoopWith f rounds p) (freeLoopWith f' rounds p) := by
  induction rounds generalizing p with
  | zero => cases p <;> exact Below.refl _
  | succ rounds ih =>
      cases p with
      | sRoot => exact Below.refl _
      | heap p => exact (Below.refl _).bind fun node => (hfree _).bind fun _ => ih _
      | stray => exact (Below.refl _).bind fun node => (hfree _).bind fun _ => ih _

theorem below_freeDentry (p : Ptr) : Below (freeDentryWith f p) (freeDentryWith f' p) :=
  fun m => below_freeLoop hfree m.live.length p m

theorem below_freeUnlessRoot (p : Ptr) :
    Below (freeUnlessRootWith f p) (freeUnlessRootWith f' p) :=
  (Below.refl _).ite (hfree p)

theorem below_parseLoop (sb : Super) (sc : Scratch) (path : List UInt8) (i j : Nat) (name : Buf)
    (dTrav dTmp : Ptr) :
    Below (parseLoopWith f sb sc path i j name dTrav dTmp)
      (parseLoopWith f' sb sc path i j name dTrav dTmp) := by
  induction path generalizing i j name dTrav dTmp with
  | nil => exact Below.refl _
  | cons c path ih =>
      have hfailed : ∀ p, Below (do freeDentryWith f p; pure HeapLoopEnd.failed)
          (do freeDentryWith f' p; pure .failed) := fun p =>
        (below_freeDentry hfree p).bind fun _ => Below.refl _
      refine (Below.refl _).ite (Below.ite ?_ ?_)
      · refine (hfailed _).ite ((ih _ _ _ _ _).ite (Below.ite ?_ ?_))
        · exact (Below.refl _).bind fun trav => (hfree _).bind fun _ => ih _ _ _ _ _
        · exact (Below.refl _).bind fun p => (Below.refl _).bind fun _ => (Below.refl _).bind
            fun res => (hfailed _).ite (ih _ _ _ _ _)
      · exact ((hfailed _).ite (Below.refl _)).ite (ih _ _ _ _ _)

theorem below_parseLast (sb : Super) (sc : Scratch) (name : Buf) (dTrav parent node : Ptr) :
    Below (parseLastWith f sb sc name dTrav parent node)
      (parseLastWith f' sb sc name dTrav parent node) := by
  have hend : ∀ retval : Int,
      Below (do setParent node parent; freeUnlessRootWith f dTrav; pure retval)
        (do setParent node parent; freeUnlessRootWith f' dTrav; pure retval) := fun retval =>
    (Below.refl _).bind fun _ => (below_freeUnlessRoot hfree _).bind fun _ => Below.refl _
  refine (Below.refl _).bind fun trav => Below.ite ?_ (Below.ite ?_ (Below.ite ?_ ?_))
  · exact (Below.refl _).bind fun _ => (Below.refl _).bind fun _ =>
      (below_freeUnlessRoot hfree _).bind fun _ => hend 0
  · exact (Below.refl _).bind fun up => (Below.refl _).bind fun _ => (Below.refl _).bind fun _ =>
      (below_freeUnlessRoot hfree _).bind fun _ =>
        (below_freeUnlessRoot hfree _).bind fun _ => hend 0
  · exact (Below.refl _).bind fun _ => (Below.refl _).bind fun _ => hend 0
  · exact (Below.refl _).bind fun _ => (Below.refl _).bind fun res => Below.ite
      ((Below.refl _).bind fun _ => (Below.refl _).bind fun _ => hend 1) (hend 0)

theorem below_parsePath (full full' : Fault) (sb : Super) (sc : Scratch) (path : List UInt8)
    (parent node : Ptr) :
    Below (parsePathWith f full sb sc path parent node)
      (parsePathWith f' full' sb sc path parent node) := by
  have hfrom : ∀ path dTrav dTmp, Below (parseFromWith f full sb sc path dTrav dTmp parent node)
      (parseFromWith f' full' sb sc path dTrav dTmp parent node) := by
    intro path dTrav dTmp
    refine (below_parseLoop hfree _ _ _ _ _ _ _ _).bind fun loopEnd => ?_
    cases loopEnd with
    | failed => exact Below.refl _
    | left name j dTrav => exact (below_throw _).ite (below_parseLast hfree _ _ _ _ _ _)
  refine (Below.refl _).bind fun m => (Below.refl _).ite (Below.ite ?_ ?_)
  · exact (Below.refl _).ite (hfrom _ _ _)
  · exact (Below.refl _).bind fun p => (Below.refl _).bind fun _ => (Below.refl _).bind fun dTmp =>
      hfrom _ _ _

end Below

/-- A run that is not refused is one of the function. -/
theorem strict_ok {before : List Heap.Obj} {full : Fault} {sb : Super} {sc : Scratch}
    {path : List UInt8} {parent node : Ptr} {m : Mem} {x : Int × Mem}
    (h : parsePathWith (strictFree before) full sb sc path parent node m = .ok x) :
    heapParsePath sb sc path parent node m = .ok x := by
  rw [← parsePathWith_free]
  exact below_parsePath (below_strictFree before) full .wild sb sc path parent node m x h

/-! ## What is refused -/

section Refused

variable {Obj : Type} (T : Tree (List UInt8) Obj)

/-- The rest of a path frees nothing else, from the object reached, the component read so far,
and whether `d_tmp` is `d_trav`: no ".." is taken at the root before the last component, and an
empty component only where `d_tmp` is `d_trav`.  A component that is not found ends the path. -/
def FreesOwn (o : Obj) (tmp : Bool) (i : Nat) (acc : List UInt8) : List UInt8 → Prop
  | [] => True
  | c :: path =>
      if fnameLen ≤ i then True
      else if c = slash then
        if acc = [] then tmp = true
        else if path = [] then True
        else if acc = dot then FreesOwn o tmp (i + 1) [] path
        else if acc = dotDot then o ≠ T.root ∧ FreesOwn (T.parent o) false (i + 1) [] path
        else
          match T.child o acc with
          | none => True
          | some o' => FreesOwn o' true (i + 1) [] path
      else FreesOwn o tmp (i + 1) (acc ++ [c]) path

/-- A path frees nothing else, from the current directory. -/
def FreesOwnPath (cwd : Obj) : List UInt8 → Prop
  | [] => True
  | c :: path =>
      if c = slash then path.head? = some slash ∨ FreesOwn T T.root false 0 [] path
      else FreesOwn T cwd false 0 [] (c :: path)

variable {T} {Stands : Dentry → Obj → Prop} {node : Nat → Node} {m m' : Mem} {q : Ptr} {o : Obj}
  {ps : List Nat} {rest before : List Heap.Obj}

/-- A pointer that `free` is refused for: it was never written, its object is gone, or it was
there before. -/
inductive Alien (before : List Heap.Obj) (m : Mem) : Ptr → Prop where
  | stray : Alien before m .stray
  | freed {p : Nat} (h : ¬ m.Live p) : Alien before m (.heap p)
  | old {o : Heap.Obj} (h : o ∈ before) : Alien before m (.heap o.ptr)

/-- `free_dentry` on such a pointer is refused. -/
theorem freeDentry_alien (h : Alien before m q) :
    freeDentryWith (strictFree before) q m = .error .wild := by
  unfold freeDentryWith
  cases h with
  | stray => cases m.live.length <;> rfl
  | @freed p hp =>
      have hread : readNode (.heap p) m = .error .wild := if_neg hp
      cases m.live.length with
      | zero => rfl
      | succ rounds => simp only [freeLoopWith, bind, StateT.bind, Except.bind, hread]
  | @old x hx =>
      cases m.live.length with
      | zero => rfl
      | succ rounds =>
          have hfree : strictFree before (.heap x.ptr) = throw .wild := if_pos ⟨x, hx, rfl⟩
          by_cases hlive : m.Live x.ptr
          · simp only [freeLoopWith, bind, StateT.bind, Except.bind, readNode_eq hlive, hfree]
            rfl
          · have hread : readNode (.heap x.ptr) m = .error .wild := if_neg hlive
            simp only [freeLoopWith, bind, StateT.bind, Except.bind, hread]

theorem strictFree_sRoot (before : List Heap.Obj) (m : Mem) :
    strictFree before .sRoot m = .error .wild := by
  have hnone : ¬ ∃ o ∈ before, Ptr.sRoot = .heap o.ptr := by
    rintro ⟨_, _, hptr⟩
    cases hptr
  rw [strictFree, if_neg hnone]
  rfl

variable (hbefore : ∀ o ∈ before, o ∈ rest)

include hbefore

/-- What a call owns it may free. -/
theorem strictFree_eq {p : Nat} (h : Owned m (p :: ps) rest) :
    ∃ m', strictFree before (.heap p) m = .ok ((), m') ∧ Owned m' ps rest ∧ SameNodes m m' := by
  have hown : strictFree before (.heap p) = free (.heap p) := by
    apply if_neg
    rintro ⟨x, hx, hptr⟩
    exact h.ne_rest List.mem_cons_self (hbefore x hx) (Ptr.heap.inj hptr).symm
  rw [hown]
  exact free_eq h

/-- The first dentry of a chain is freed, unless the chain is empty. -/
theorem strictFreeUnlessRoot_leads {qs : List Nat} (h : Leads T Stands node q o ps)
    (hown : Owned m (ps.take 1 ++ qs) rest) :
    ∃ m', freeUnlessRootWith (strictFree before) q m = .ok ((), m') ∧ Owned m' qs rest ∧
      SameNodes m m' := by
  cases h with
  | sRoot => exact ⟨m, rfl, hown, SameNodes.refl m⟩
  | heap _ _ _ =>
      obtain ⟨m', hrun, hown', hsame⟩ := strictFree_eq hbefore hown
      exact ⟨m', hrun, hown', hsame⟩

/-- `free_dentry` frees a chain that the call owns. -/
theorem strictFreeLoop_links {rounds : Nat} (hlinks : Links m.node q ps) (h : Owned m ps rest)
    (hrounds : ps.length ≤ rounds) :
    ∃ m', freeLoopWith (strictFree before) rounds q m = .ok ((), m') := by
  induction ps generalizing q m rounds with
  | nil =>
      cases hlinks
      exact ⟨m, by cases rounds <;> rfl⟩
  | cons p ps ih =>
      cases hlinks with
      | heap hparent =>
          obtain ⟨rounds, rfl⟩ := Nat.exists_eq_add_of_le hrounds
          obtain ⟨m₁, hfree, h₁, hsame⟩ := strictFree_eq hbefore h
          rw [← hsame.node] at hparent
          obtain ⟨m', hrun⟩ := @ih m₁ _ (ps.length + rounds) hparent h₁ (by omega)
          have hrounds : (p :: ps).length + rounds = ps.length + rounds + 1 := by
            rw [List.length_cons]
            omega
          refine ⟨m', ?_⟩
          rw [hrounds, ← hrun]
          simp only [freeLoopWith, bind, StateT.bind, Except.bind,
            readNode_eq (h.isLive List.mem_cons_self), hfree, hsame.node]

theorem strictFreeDentry_links (hlinks : Links m.node q ps) (h : Owned m ps rest) :
    ∃ m', freeDentryWith (strictFree before) q m = .ok ((), m') :=
  strictFreeLoop_links hbefore hlinks h h.length_le

section Runs

variable {g : Geometry} {d : Disk} {ino : Obj → Nat} {b e : Nat} {name : Buf} {acc : List UInt8}

/-- Behind the loop nothing is refused. -/
theorem strictParseLast_after (hset : Setting T Stands g d ino m) (sc : Scratch)
    (hleads : Leads T Stands m.node q o ps) (hown : Owned m ps rest) (hb : dentryObj b ∈ rest)
    (he : dentryObj e ∈ rest) (hname : StartsWith name acc) (hslash : slash ∉ acc)
    (hnul : 0 ∉ acc) (hne : acc ≠ []) (hlen : acc.length < fnameLen) :
    After (fun _ _ => True) (fun _ => False)
      (parseLastWith (strictFree before) g.sb sc name q (.heap b) (.heap e) m) := by
  obtain ⟨hempty, hdot, hdotDot⟩ := tests_of_startsWith hname hnul
  have hlive : ∀ p ∈ ps, m.Live p := fun p hp => hown.isLive hp
  have hlive₁ : ∀ p ∈ ps.tail, m.Live p := fun p hp => hlive p (List.mem_of_mem_tail hp)
  have hlive₂ : ∀ p ∈ ps.tail.tail, m.Live p := fun p hp => hlive₁ p (List.mem_of_mem_tail hp)
  have hblive : m.Live b := ⟨dentryObj b, hown.mem_rest hb, rfl⟩
  have helive : m.Live e := ⟨dentryObj e, hown.mem_rest he, rfl⟩
  have hbps : b ∉ ps := fun hmem => hown.ne hmem hb rfl
  have heps : e ∉ ps := fun hmem => hown.ne hmem he rfl
  have heps₁ : e ∉ ps.tail := fun hmem => heps (List.mem_of_mem_tail hmem)
  have heps₂ : e ∉ ps.tail.tail := fun hmem => heps₁ (List.mem_of_mem_tail hmem)
  have hparent := hleads.parent
  have hfinish : ∀ (r : Int) m' qs, Owned m' (ps.take 1 ++ qs) rest →
      After (fun _ _ => True) (fun _ => False)
        ((do
          setParent (.heap e) (.heap b)
          freeUnlessRootWith (strictFree before) q
          pure r : Run Int) m') := by
    intro r m' qs hown'
    have helive' : m'.Live e := ⟨dentryObj e, hown'.mem_rest he, rfl⟩
    obtain ⟨m'', hfree, -, -⟩ := strictFreeUnlessRoot_leads hbefore hleads (hown'.set _ _)
    exact After.bind_ok (setParent_eq helive' _) (After.bind_ok hfree (After.pure trivial))
  unfold parseLastWith
  refine After.bind_ok (hleads.read hlive) ?_
  simp only [hempty, hdot, hdotDot, if_neg hne, hname.cString_eq hnul hlen]
  by_cases hself : acc = dot
  · rw [if_pos hself]
    have hown' : Owned ((m.set e (m.at q)).set b (m.at (m.at q).dParent)) ps rest :=
      (hown.set _ _).set _ _
    obtain ⟨m', hfree, hown'', -⟩ := strictFreeUnlessRoot_leads hbefore hparent
      (hown'.perm (perm_second ps))
    refine After.bind_ok (writeNode_eq helive _) (After.bind_ok (copyNode_eq
      ((live_set _ _ _ _).mpr hblive) (hparent.read_set hlive₁ heps₁ _)) (After.bind_ok hfree ?_))
    exact hfinish 0 m' _ hown''
  · rw [if_neg hself]
    by_cases hup : acc = dotDot
    · rw [if_pos hup]
      have hparent' := hparent.parent
      have hown' : Owned ((m.set e (m.at (m.at q).dParent)).set b
          (m.at (m.at (m.at q).dParent).dParent)) ps rest := (hown.set _ _).set _ _
      obtain ⟨m₁, hfree₁, hown₁, -⟩ := strictFreeUnlessRoot_leads hbefore hparent'
        (hown'.perm (perm_third ps))
      obtain ⟨m', hfree, hown'', -⟩ := strictFreeUnlessRoot_leads hbefore hparent hown₁
      refine After.bind_ok (hparent.read hlive₁) (After.bind_ok (writeNode_eq helive _)
        (After.bind_ok (copyNode_eq ((live_set _ _ _ _).mpr hblive)
          (hparent'.read_set hlive₂ heps₂ _)) (After.bind_ok hfree₁ (After.bind_ok hfree ?_))))
      exact hfinish 0 m' _ hown''
    · rw [if_neg hup]
      have hown' : Owned (m.set b (m.at q)) ps rest := hown.set _ _
      have hcomponent : Component acc := ⟨hne, hslash, hnul, hself, hup, hlen⟩
      have hset' : Setting T Stands g d ino (m.set b (m.at q)) := hset.congr rfl rfl
      have helive' : (m.set b (m.at q)).Live e := helive
      refine After.bind_ok (writeNode_eq hblive _) ?_
      rcases lookup_cases hset' (hleads.set hbps _) (fun p hp => hown'.isLive hp) helive'
        hcomponent sc with ⟨-, hlookup⟩ | ⟨c, dentry, -, hlookup, -⟩
      · refine After.bind_ok hlookup ?_
        rw [if_pos rfl]
        refine After.bind_ok (readNode_eq helive') (After.bind_ok (writeNode_eq helive' _) ?_)
        exact hfinish 1 _ _ ((hown'.set _ _).perm (perm_first ps))
      · refine After.bind_ok hlookup ?_
        rw [if_neg (by decide)]
        exact hfinish 0 _ _ ((hown'.set _ _).perm (perm_first ps))

/-- The end of a run: something was refused exactly if the condition fails. -/
def Frees (own : Prop) : Except Fault (Int × Mem) → Prop :=
  After (fun _ _ => own)
    (fun fault => fault = .outOfMemory ∨ (fault = .noReturn ∧ own) ∨ (fault = .wild ∧ ¬ own))

variable {own : Prop} {path : List UInt8}

omit hbefore in
/-- A return of -1. -/
theorem Frees.failed (h : own) : Frees own ((pure (-1) : Run Int) m) := h

omit hbefore in
/-- The end of the loop behind a `free_dentry` that is refused. -/
theorem Frees.refused (hown : ¬ own) (sb : Super) (sc : Scratch) (parent node : Ptr)
    (h : Alien before m q) :
    Frees own ((freeDentryWith (strictFree before) q >>= fun _ =>
      pure .failed >>= parseEndWith (strictFree before) .noReturn sb sc parent node) m) :=
  After.bind (After.of_error (freeDentry_alien h) (Or.inr (Or.inr ⟨rfl, hown⟩)))

/-- The end of the loop behind the `free_dentry` of a chain of the call. -/
theorem Frees.freed (h : own) (sb : Super) (sc : Scratch) (parent node : Ptr)
    (hlinks : Links m.node q ps) (hown : Owned m ps rest) :
    Frees own ((freeDentryWith (strictFree before) q >>= fun _ =>
      pure .failed >>= parseEndWith (strictFree before) .noReturn sb sc parent node) m) := by
  obtain ⟨m', hrun⟩ := strictFreeDentry_links hbefore hlinks hown
  exact After.bind_ok hrun (After.bind_ok rfl (Frees.failed h))

/-- The last component. -/
theorem Frees.last (h : own) (hset : Setting T Stands g d ino m) (sc : Scratch)
    (hleads : Leads T Stands m.node q o ps) (hown : Owned m ps rest) (hb : dentryObj b ∈ rest)
    (he : dentryObj e ∈ rest) {j : Nat} (hname : StartsWith (Function.update name j 0) acc)
    (hslash : slash ∉ acc) (hnul : 0 ∉ acc) (hne : acc ≠ []) (hlen : acc.length ≤ j) :
    Frees own
      (parseEndWith (strictFree before) .noReturn g.sb sc (.heap b) (.heap e) (.left name j q)
        m) := by
  unfold parseEndWith
  simp only []
  by_cases hj : fnameLen ≤ j
  · rw [if_pos hj]
    exact After.throw (Or.inr (Or.inl ⟨rfl, h⟩))
  · rw [if_neg hj]
    refine (strictParseLast_after hbefore hset sc hleads hown hb he hname hslash hnul hne
      (by omega)).mono ?_ fun fault hfault => absurd hfault id
    exact fun _ _ _ => h

/-- From any place in the path on, with the chain of the object reached there. -/
theorem strictParseLoop_frees (hset : Setting T Stands g d ino m) (sc : Scratch)
    (hleads : Leads T Stands m.node q o ps) (hown : Owned m ps rest) (hb : dentryObj b ∈ rest)
    (he : dentryObj e ∈ rest) {tmp : Bool} {dTmp : Ptr} (hsame : tmp = true → dTmp = q)
    (hother : tmp = false → Alien before m dTmp) (hname : bytesAt name 0 acc.length = acc)
    (hslash : slash ∉ acc) (hnul : 0 ∉ acc ++ path) (hne : acc ++ path ≠ [])
    {i : Nat} (hi : acc.length ≤ i) :
    Frees (FreesOwn T o tmp i acc path)
      ((do
        let loopEnd ← parseLoopWith (strictFree before) g.sb sc path i acc.length name q dTmp
        parseEndWith (strictFree before) .noReturn g.sb sc (.heap b) (.heap e) loopEnd :
          Run Int) m) := by
  -- the induction is on the rest of the path; the component read so far is in the buffer
  induction path generalizing i name acc q o m ps tmp dTmp with
  | nil =>
      rw [List.append_nil] at hnul hne
      unfold parseLoopWith
      refine After.bind_ok rfl (Frees.last hbefore ?_ hset sc hleads hown hb he
        (startsWith_update hname) hslash hnul hne le_rfl)
      rw [FreesOwn]
      exact trivial
  | cons c path ih =>
      obtain ⟨haccNul, hrest⟩ := not_or.mp (mt List.mem_append.mpr hnul)
      obtain ⟨hcNul, hpathNul⟩ := not_or.mp (mt List.mem_cons.mpr hrest)
      rw [FreesOwn]
      unfold parseLoopWith
      by_cases hlong : fnameLen ≤ i
      · rw [if_pos hlong, if_pos hlong]
        exact After.bind_ok rfl (Frees.failed trivial)
      · rw [if_neg hlong, if_neg hlong]
        by_cases hc : c = slash
        · subst hc
          have hstart := startsWith_update hname
          obtain ⟨hempty, hdot, hdotDot⟩ := tests_of_startsWith hstart haccNul
          have hstring := hstart.cString_eq haccNul (show acc.length < fnameLen by omega)
          -- an empty component, inside the path or at its end
          have hnothing : ∀ own : Prop, (own ↔ tmp = true) →
              Frees own ((freeDentryWith (strictFree before) dTmp >>= fun _ => pure .failed >>=
                parseEndWith (strictFree before) .noReturn g.sb sc (.heap b) (.heap e)) m) := by
            intro own hiff
            cases tmp with
            | false =>
                exact Frees.refused (fun h => by cases hiff.mp h) _ _ _ _ (hother rfl)
            | true =>
                rw [hsame rfl]
                exact Frees.freed hbefore (hiff.mpr rfl) _ _ _ _ hleads.links hown
          simp only [if_true, true_and, hempty, hdot, hdotDot, hstring]
          by_cases hlast : path = []
          · -- a slash at the end
            subst hlast
            rw [if_neg (show ¬ ([] : List UInt8).getD 0 0 ≠ 0 by simp)]
            by_cases hnone : acc = []
            · simp only [if_pos hnone]
              rw [bind_assoc]
              exact hnothing _ Iff.rfl
            · simp only [if_neg hnone, if_true]
              exact After.bind_ok rfl (Frees.last hbefore trivial hset sc hleads hown hb he
                (hstart.update_past (Nat.lt_succ_self _) 0) hslash haccNul hnone (by omega))
          · -- the end of an inner component
            have hnext : path.getD 0 0 ≠ 0 := by
              obtain ⟨c, rest, rfl⟩ := List.exists_cons_of_ne_nil hlast
              intro hzero
              exact hpathNul (hzero ▸ List.mem_cons_self)
            rw [if_pos hnext]
            by_cases hnone : acc = []
            · simp only [if_pos hnone]
              rw [bind_assoc]
              exact hnothing _ Iff.rfl
            · simp only [if_neg hnone, if_neg hlast]
              by_cases hself : acc = dot
              · rw [if_pos hself, if_pos hself]
                exact @ih m q o ps _ [] hset hleads hown tmp dTmp hsame hother rfl (by simp)
                  hpathNul hlast _ (Nat.zero_le _)
              · rw [if_neg hself, if_neg hself]
                by_cases hup : acc = dotDot
                · rw [if_pos hup, if_pos hup]
                  cases hleads with
                  | sRoot =>
                      -- `free` is called on the root of the superblock
                      simp only [bind_assoc]
                      refine After.bind_ok (readNode_sRoot m)
                        (After.bind (After.of_error (strictFree_sRoot before m) ?_))
                      exact Or.inr (Or.inr ⟨rfl, fun h => h.1 rfl⟩)
                  | @heap p _ ps hroot hstands hparent =>
                      obtain ⟨m₁, hfree, hown₁, hnodes⟩ := strictFree_eq hbefore hown
                      have hparent₁ :
                          Leads T Stands m₁.node (m.node p).dParent (T.parent o) ps := by
                        rw [hnodes.node]
                        exact hparent
                      have hset₁ := hset.congr hnodes.sRoot hnodes.disk
                      rw [and_iff_right hroot]
                      simp only [bind_assoc]
                      refine After.bind_ok (readNode_eq (hown.isLive List.mem_cons_self))
                        (After.bind_ok hfree ?_)
                      exact @ih m₁ _ _ ps _ [] hset₁ hparent₁ hown₁ false (.heap p)
                        (fun h => by cases h) (fun _ => Alien.freed (hown.not_live hown₁)) rfl
                        (by simp) hpathNul hlast _ (Nat.zero_le _)
                · have hcomponent : Component acc :=
                    ⟨hnone, hslash, haccNul, hself, hup, by omega⟩
                  rw [if_neg hup, if_neg hup]
                  simp only [bind_assoc]
                  rcases descend_cases hset hleads hown hcomponent sc b e with
                    hfail | ⟨p, m₁, m₂, halloc, hparent, hlookups⟩
                  · exact After.bind (After.of_error hfail (Or.inl rfl))
                  · refine After.bind_ok halloc (After.bind_ok hparent ?_)
                    rcases hlookups with ⟨hchild, hlookup, hlinks, hown₂, -⟩ |
                      ⟨c, m₃, hchild, hlookup, hleads₃, hown₃, hframe⟩
                    · refine After.bind_ok hlookup ?_
                      rw [if_pos rfl, bind_assoc, hchild]
                      exact Frees.freed hbefore trivial _ _ _ _ hlinks hown₂
                    · refine After.bind_ok hlookup ?_
                      rw [if_neg (by decide), hchild]
                      exact @ih m₃ _ _ (p :: ps) _ [] (hframe.setting hset) hleads₃ hown₃ true
                        (.heap p) (fun _ => rfl) (fun h => by cases h) rfl (by simp) hpathNul
                        hlast _ (Nat.zero_le _)
        · simp only [hc, if_false, false_and]
          have hname' := bytesAt_update hname c
          have hslash' : slash ∉ acc ++ [c] := by
            intro hmem
            rcases List.mem_append.mp hmem with hmem | hmem
            · exact hslash hmem
            · exact hc (List.mem_singleton.mp hmem).symm
          have hlength : (acc ++ [c]).length = acc.length + 1 := by simp
          rw [List.append_cons] at hnul
          rw [← hlength]
          exact ih hset hleads hown hsame hother hname' hslash' hnul (by simp) (by omega)

omit hbefore in
/-- The path "/" alone. -/
theorem strictParseFrom_nil (sc : Scratch) (hown : Owned m [] rest) (hb : dentryObj b ∈ rest)
    (he : dentryObj e ∈ rest) :
    Frees True
      (parseFromWith (strictFree before) .noReturn g.sb sc [] .sRoot .stray (.heap b) (.heap e)
        m) := by
  have hblive : m.Live b := ⟨dentryObj b, hown.mem_rest hb, rfl⟩
  have helive : m.Live e := ⟨dentryObj e, hown.mem_rest he, rfl⟩
  have hzero : Function.update sc.name 0 0 0 = 0 := Function.update_self _ _ _
  have hperiod : ¬ (0 : UInt8) = period := by decide
  have hshort : ¬ fnameLen ≤ 0 := by decide
  unfold parseFromWith parseLoopWith
  refine After.bind_ok rfl ?_
  unfold parseEndWith parseLastWith
  simp only [if_neg hshort, hzero, hperiod, false_and, if_false, if_true]
  refine After.bind_ok (readNode_sRoot m) (After.bind_ok
    (copyNode_eq hblive (readNode_sRoot m)) (After.bind_ok
      (copyNode_eq ((live_set _ _ _ _).mpr helive) (readNode_sRoot _)) ?_))
  exact After.bind_ok rfl (After.bind_ok (setParent_eq ((live_set _ _ _ _).mpr
    ((live_set _ _ _ _).mpr helive)) _)
    (After.bind_ok rfl (After.pure trivial)))

/-- The function from its loop on, for a path that is not empty. -/
theorem strictParseFrom_frees (hset : Setting T Stands g d ino m) (sc : Scratch)
    (hleads : Leads T Stands m.node q o ps) (hown : Owned m ps rest) (hb : dentryObj b ∈ rest)
    (he : dentryObj e ∈ rest) {dTmp : Ptr} (hother : Alien before m dTmp) (hnul : 0 ∉ path)
    (hne : path ≠ []) :
    Frees (FreesOwn T o false 0 [] path)
      (parseFromWith (strictFree before) .noReturn g.sb sc path q dTmp (.heap b) (.heap e) m) :=
  @strictParseLoop_frees _ T Stands m q o ps rest before hbefore g d ino b e _ [] path hset sc
    hleads hown hb he false dTmp (fun h => by cases h) (fun _ => hother) rfl (by simp) hnul hne 0
    le_rfl

/-- `parse_path`, for every path. -/
theorem strictParsePath_frees (hset : Setting T Stands g d ino m) (sc : Scratch)
    (hown : Owned m [] rest) (hb : dentryObj b ∈ rest) (he : dentryObj e ∈ rest) {cwd : Obj}
    (hcur : Shows T Stands m.sRoot m.cur.dentry cwd)
    (hchain : Leads T Stands m.node m.cur.dParent (T.parent cwd) ps)
    (hps : ∀ p ∈ ps, dentryObj p ∈ before ∧ p ≠ b ∧ p ≠ e) (hnodup : ps.Nodup) (hnul : 0 ∉ path) :
    Frees (FreesOwnPath T cwd path)
      (parsePathWith (strictFree before) .noReturn g.sb sc path (.heap b) (.heap e) m) := by
  unfold parsePathWith
  refine After.bind_ok rfl ?_
  cases path with
  | nil =>
      rw [if_pos (show ([] : List UInt8).getD 0 0 = 0 from rfl)]
      exact Frees.failed trivial
  | cons c path =>
      obtain ⟨hcNul, hpathNul⟩ := not_or.mp (mt List.mem_cons.mpr hnul)
      have hfirst : (c :: path).getD 0 0 = c := rfl
      rw [hfirst, if_neg (Ne.symm hcNul), FreesOwnPath]
      by_cases hc : c = slash
      · subst hc
        simp only [true_or, if_true, true_and]
        cases path with
        | nil =>
            have hroot : ([] : List UInt8).head? = some slash ∨ FreesOwn T T.root false 0 [] [] :=
              Or.inr trivial
            rw [iff_true_intro hroot]
            exact strictParseFrom_nil sc hown hb he
        | cons c' path =>
            have hsecond : (slash :: c' :: path).getD 1 0 = c' := rfl
            rw [hsecond]
            by_cases hc' : c' = slash
            · rw [if_neg (not_not.mpr hc'), if_pos ⟨rfl, hc'⟩]
              exact Frees.failed (Or.inl (congrArg some hc'))
            · have hthird : ¬ ((c' :: path).getD 0 0 = slash ∧ (c' :: path).getD 1 0 = slash) :=
                fun h => hc' h.1
              have hhead : ¬ (c' :: path).head? = some slash := fun h => hc' (Option.some.inj h)
              rw [if_pos hc', List.tail_cons, if_neg hthird, or_iff_right hhead]
              exact strictParseFrom_frees hbefore hset sc Leads.sRoot hown hb he Alien.stray
                hpathNul (by simp)
      · have hthird : ¬ ((c :: path).getD 0 0 = slash ∧ (c :: path).getD 1 0 = slash) :=
          fun h => hc h.1
        simp only [hc, false_or, false_and, if_false]
        by_cases hslash : firstChar m.cur.dentry = slash
        · rw [if_pos hslash, if_neg hthird, (hcur.slash_iff hset).mp hslash]
          exact strictParseFrom_frees hbefore hset sc Leads.sRoot hown hb he Alien.stray hnul
            (by simp)
        · have hne : cwd ≠ T.root := fun h => hslash ((hcur.slash_iff hset).mpr h)
          have hstands : Stands m.cur.dentry cwd := by
            rcases hcur with ⟨hroot, -⟩ | ⟨-, hstands⟩
            · exact absurd hroot hne
            · exact hstands
          have hpsRest : ∀ p ∈ ps, dentryObj p ∈ rest ∧ p ≠ b ∧ p ≠ e := fun p hp =>
            ⟨hbefore _ (hps p hp).1, (hps p hp).2⟩
          rw [if_neg hslash]
          rcases startCopy_cases hown hchain hstands hpsRest with
            hfail | ⟨p, m₁, m₂, halloc, hwrite, hframe, hown₂, hstands₂, horig⟩
          · exact After.bind (After.of_error hfail (Or.inl rfl))
          · refine After.bind_ok halloc (After.bind_ok hwrite ?_)
            refine After.bind ((copyLoop_after (hframe.setting hset) hown₂ hb he hne hstands₂ horig
              hpsRest hnodup (hown.length_le_live hnodup fun x hx => (hpsRest x hx).1)
              (fun x hx => absurd hx List.not_mem_nil) fun m' _ _ => Safe.stray).mono ?_
              fun fault hfault => Or.inl hfault)
            -- behind the copy `d_tmp` is an original, or was never written
            rintro dTmp m₃ ⟨ps', hown₃, hleads₃, hframe₃, -, hvalue⟩
            have hother : Alien before m₃ dTmp := by
              rcases hvalue with rfl | ⟨x, hx, rfl⟩
              · exact Alien.stray
              · exact Alien.old (hps x hx).1
            exact strictParseFrom_frees hbefore ((hframe.trans hframe₃).setting hset) sc hleads₃
              hown₃ hb he hother hnul (by simp)

end Runs

end Refused

/-! ## Whole calls -/

section Calls

variable {Obj : Type} {T : Tree (List UInt8) Obj} {Stands : Dentry → Obj → Prop} {g : Geometry}
  {d : Disk} {ino : Obj → Nat} {m : Mem} {cwd : Obj} {ps : List Nat} {others : List Heap.Obj}
  {b e : Nat} {path : List UInt8}

/-- A call that does not exhaust the heap frees its own dentries only, each of them once, and
uses none behind that, if and only if the path takes no ".." at the root before its last
component, and its first empty component, if there is one, stands behind a name that was
found. -/
theorem parsePath_frees_iff (hset : Setting T Stands g d ino m) (sc : Scratch)
    (hcur : Shows T Stands m.sRoot m.cur.dentry cwd)
    (hchain : Leads T Stands m.node m.cur.dParent (T.parent cwd) ps) (hown : Owned m ps others)
    (hb : dentryObj b ∈ others) (he : dentryObj e ∈ others) (hnul : 0 ∉ path)
    (hmem : parsePathWith (strictFree m.live) .noReturn g.sb sc path (.heap b) (.heap e) m ≠
      .error .outOfMemory) :
    parsePathWith (strictFree m.live) .noReturn g.sb sc path (.heap b) (.heap e) m ≠
        .error .wild ↔
      FreesOwnPath T cwd path := by
  have hall : Owned m [] m.live := ⟨hown.consistent, List.Perm.refl _⟩
  have hps : ∀ p ∈ ps, dentryObj p ∈ m.live ∧ p ≠ b ∧ p ≠ e := fun p hp =>
    ⟨hown.mem hp, hown.ne hp hb, hown.ne hp he⟩
  have hends := strictParsePath_frees (fun o ho => ho) hset sc hall (hown.mem_rest hb)
    (hown.mem_rest he) hcur hchain hps hown.nodup hnul
  cases hrun : parsePathWith (strictFree m.live) .noReturn g.sb sc path (.heap b) (.heap e) m with
  | ok res => exact iff_of_true (by simp) (hends.ok hrun)
  | error fault =>
      rcases hends.fails hrun with rfl | ⟨rfl, hgood⟩ | ⟨rfl, hbad⟩
      · exact absurd hrun hmem
      · exact iff_of_true (by simp) hgood
      · exact iff_of_false (fun h => h rfl) hbad

/-- "../a" in the root directory: `free` is refused for the root of the superblock. -/
theorem strictParsePath_up (before : List Heap.Obj) (sb : Super) (sc : Scratch) (parent node : Ptr)
    (hroot : firstChar m.cur.dentry = slash) :
    parsePathWith (strictFree before) .noReturn sb sc [period, period, slash, 97] parent node m =
      .error .wild := by
  have hfree : ∀ k : Node → Unit → Run Int,
      (readNode .sRoot >>= fun trav => strictFree before .sRoot >>= k trav) m = .error .wild := by
    intro k
    refine (run_bind (readNode_sRoot m)).trans ?_
    simp only [Bind.bind, StateT.bind, Except.bind, strictFree_sRoot]
  unfold parsePathWith
  refine (run_bind (show (get : Run Mem) m = .ok (m, m) from rfl)).trans ?_
  have hfirst : ([period, period, slash, 97] : List UInt8).getD 0 0 = period := rfl
  have hnul : ¬ period = 0 := by decide
  have hperiod : ¬ period = slash := by decide
  simp only [hfirst, hnul, hperiod, hroot, if_false, or_true, if_true, false_and]
  unfold parseFromWith
  -- the loop stores the two periods and the end of the name, and goes up
  simp [parseLoopWith, fnameLen, period, slash, bind_assoc, hfree]

/-- The memory of a call in the root directory: two dentries of the caller. -/
theorem working_call :
    ∃ b e m, Working smallTree (Entry Place.ino) smallGroup treeDisk Place.ino .root m ∧
      Owned m [] [dentryObj e, dentryObj b] ∧ b ≠ e ∧ m.cur = ⟨treeRoot, .sRoot⟩ := by
  obtain ⟨b, e, -, m, -, -, hbe, hown, hsame⟩ := mallocs_bootMem
  have hcur : m.cur = ⟨treeRoot, .sRoot⟩ := hsame.cur
  refine ⟨b, e, m, ⟨working_bootMem.setting.congr hsame.sRoot hsame.disk, ?_, [], _, ?_, hown⟩,
    hown, hbe, hcur⟩
  · rw [hcur, hsame.sRoot]
    exact Or.inl ⟨rfl, rfl⟩
  · rw [hcur]
    exact Leads.sRoot

/-- "../a" in the root directory is refused. -/
theorem parsePath_frees_root :
    ∃ b e m, Working smallTree (Entry Place.ino) smallGroup treeDisk Place.ino .root m ∧
      Owned m [] [dentryObj e, dentryObj b] ∧ b ≠ e ∧
      parsePathWith (strictFree m.live) .noReturn smallGroup.sb ⟨default, fun _ => 0, default⟩
        [period, period, slash, 97] (.heap b) (.heap e) m = .error .wild := by
  obtain ⟨b, e, m, hwork, hown, hbe, hcur⟩ := working_call
  refine ⟨b, e, m, hwork, hown, hbe, strictParsePath_up _ _ _ _ _ ?_⟩
  rw [hcur]
  rfl

/-- `parsePath_frees_iff` for "../a" in the root directory. -/
theorem parsePath_frees_iff_root :
    ∃ b e m, Owned m [] [dentryObj e, dentryObj b] ∧
      (parsePathWith (strictFree m.live) .noReturn smallGroup.sb ⟨default, fun _ => 0, default⟩
          [period, period, slash, 97] (.heap b) (.heap e) m ≠ .error .wild ↔
        FreesOwnPath smallTree .root [period, period, slash, 97]) := by
  obtain ⟨b, e, m, hwork, hown, -, hcur⟩ := working_call
  have hchain : Leads smallTree (Entry Place.ino) m.node m.cur.dParent .root [] := by
    rw [hcur]
    exact Leads.sRoot
  have hroot : firstChar m.cur.dentry = slash := by
    rw [hcur]
    rfl
  refine ⟨b, e, m, hown, parsePath_frees_iff hwork.setting _ hwork.shows hchain hown (by simp)
    (by simp) (by decide) ?_⟩
  rw [strictParsePath_up _ _ _ _ _ hroot]
  simp

end Calls

end Vfs
end NochOS
