import NochOS.Ext2.Lookup
import NochOS.Library.Paths

/-!
# VFS - resolving path names

This module embeds `parse_path` of `vfs.c` on top of the lookup of `ext2.c`.  One loop
goes through the characters of the path, collects a component in a buffer, and looks
it up at each slash; the last component is looked up behind the loop.

A path is the list of the bytes before its terminating zero.  A pointer to a dentry is
the dentry with the pointer to its parent.  The heap is left out: `malloc` delivers a
new dentry, and `free` and `free_dentry` change no value that is used afterwards.

Main results:

- Definition `parsePath`: the function.
- Theorem `parsePath_names`: what a path is resolved to in a tree of directories.
- Theorem `parsePath_resolves`: the answers of `parse_path` are those of the
  resolution from left to right.
-/

namespace NochOS
namespace Vfs

open Library Ext2

/-! ## Dentries -/

/-- A `dentry_t *`: the root of the superblock, which is its own parent, or a dentry
with its `d_parent`. -/
inductive DentryPtr where
  | sRoot
  | node (dentry : Dentry) (dParent : DentryPtr)

/-- The globals of `vfs.c`: `superblock.s_root`, and `cur_dentry` with its `d_parent`. -/
structure Globals where
  sRoot : Dentry
  curDentry : Dentry
  curParent : DentryPtr

/-- What local variables and new dentries hold before they are written. -/
structure Scratch where
  stk : Stack
  name : Buf
  dTmp : Dentry

/-- `'/'`. -/
def slash : UInt8 := 47

/-- `'.'`. -/
def period : UInt8 := 46

/-- `filename[0]`. -/
def firstChar (dentry : Dentry) : UInt8 := dentry.filename.getD 0 0

namespace DentryPtr

/-- The fields of the dentry except `d_parent`. -/
def dentry (root : Dentry) : DentryPtr → Dentry
  | sRoot => root
  | node dentry _ => dentry

/-- `d_parent`. -/
def dParent : DentryPtr → DentryPtr
  | sRoot => sRoot
  | node _ dParent => dParent

/-- A new dentry with the fields of another one. -/
def copy (root : Dentry) (p : DentryPtr) : DentryPtr := node (p.dentry root) p.dParent

/-- The loop of `parse_path` that copies the parents of a dentry, up to one that is
called "/". -/
def copyParents (root : Dentry) : DentryPtr → DentryPtr
  | sRoot => sRoot
  | node dentry parent =>
      if firstChar (parent.dentry root) = slash then node dentry parent
      else node dentry (parent.copyParents root)

end DentryPtr

/-! ## The loop -/

/-- The end of the loop of `parse_path`: a return of -1, or `name`, `j` and `d_trav`. -/
inductive LoopEnd where
  | failed
  | left (name : Buf) (j : Nat) (dTrav : DentryPtr)

/-- The loop of `parse_path` on `path + i`; `i_trav` always is the inode of `d_trav`.
It does not return when a lookup does not. -/
def parseLoop (sb : Super) (d : Disk) (sc : Scratch) (root : Dentry) :
    List UInt8 → Nat → Nat → Buf → DentryPtr → Option LoopEnd
  | [], _, j, name, dTrav => some (.left name j dTrav)
  | c :: path, i, j, name, dTrav =>
      if fnameLen ≤ i then some .failed
      else
        let name := Function.update name j (if c = slash then 0 else c)
        if c = slash ∧ path.getD 0 0 ≠ 0 then
          if name 0 = 0 then some .failed
          else if name 0 = period ∧ name 1 = 0 then
            parseLoop sb d sc root path (i + 1) 0 name dTrav
          else if name 0 = period ∧ name 1 = period ∧ name 2 = 0 then
            parseLoop sb d sc root path (i + 1) 0 name dTrav.dParent
          else
            match ilookup sb d sc.stk (dTrav.dentry root).iIno sc.dTmp (cString name fnameLen) with
            | none => none
            | some (res, dTmp) =>
                if res = -1 then some .failed
                else parseLoop sb d sc root path (i + 1) 0 name (.node dTmp dTrav)
        else if c = slash then
          if name 0 = 0 then some .failed else some (.left name (j + 1) dTrav)
        else parseLoop sb d sc root path (i + 1) (j + 1) name dTrav

/-! ## The last component -/

/-- What `parse_path` leaves: its value, `*parent` and `*node`. -/
structure Parsed where
  retval : Int
  parent : DentryPtr
  node : DentryPtr

/-- The part of `parse_path` behind its loop. -/
def parseLast (sb : Super) (d : Disk) (sc : Scratch) (root : Dentry) (name : Buf)
    (dTrav node : DentryPtr) : Option Parsed :=
  if name 0 = period ∧ name 1 = 0 then
    let parent := dTrav.dParent.copy root
    some ⟨0, parent, .node (dTrav.dentry root) parent⟩
  else if name 0 = period ∧ name 1 = period ∧ name 2 = 0 then
    let parent := dTrav.dParent.dParent.copy root
    some ⟨0, parent, .node (dTrav.dParent.dentry root) parent⟩
  else if name 0 = 0 then
    let parent := DentryPtr.sRoot.copy root
    some ⟨0, parent, .node root parent⟩
  else
    let parent := dTrav.copy root
    match ilookup sb d sc.stk (dTrav.dentry root).iIno (node.dentry root)
      (cString name fnameLen) with
    | none => none
    | some (res, dentry) =>
        if res = -1 then
          some ⟨1, parent, .node { dentry with filename := cString name fnameLen } parent⟩
        else some ⟨0, parent, .node dentry parent⟩

/-- What happens behind the loop of `parse_path`. -/
def parseEnd (sb : Super) (d : Disk) (sc : Scratch) (root : Dentry) (parent node : DentryPtr) :
    LoopEnd → Option Parsed
  | .failed => some ⟨-1, parent, node⟩
  | .left name j dTrav => parseLast sb d sc root (Function.update name j 0) dTrav node

/-- `parse_path` from the loop on. -/
def parseFrom (sb : Super) (d : Disk) (sc : Scratch) (root : Dentry) (path : List UInt8)
    (dTrav parent node : DentryPtr) : Option Parsed :=
  (parseLoop sb d sc root path 0 0 sc.name dTrav).bind (parseEnd sb d sc root parent node)

/-- `parse_path`; `parent` and `node` are what the caller has allocated. -/
def parsePath (sb : Super) (d : Disk) (sc : Scratch) (vfs : Globals) (path : List UInt8)
    (parent node : DentryPtr) : Option Parsed :=
  if path.getD 0 0 = 0 then some ⟨-1, parent, node⟩
  else if path.getD 0 0 = slash ∨ firstChar vfs.curDentry = slash then
    let path := if path.getD 0 0 = slash ∧ path.getD 1 0 ≠ slash then path.tail else path
    if path.getD 0 0 = slash ∧ path.getD 1 0 = slash then some ⟨-1, parent, node⟩
    else parseFrom sb d sc vfs.sRoot path .sRoot parent node
  else
    parseFrom sb d sc vfs.sRoot path
      ((DentryPtr.node vfs.curDentry vfs.curParent).copyParents vfs.sRoot) parent node

/-! ## Trees of directories -/

/-- Slashes between names, "." and "..". -/
def pathSyntax : PathSyntax UInt8 := ⟨slash, dot, dotDot⟩

/-- An inode in use that is no directory. -/
structure Plain (g : Geometry) (v : View) (n : Nat) : Prop where
  valid : g.ValidIno n
  used : v.inodeUsed n = true
  notDir : iMode (v.inode n) &&& ext2SIfdir = 0

/-- The image holds a tree: the objects are directories and other inodes in use, and
the children of a directory are its entries. -/
structure Mounts {Obj : Type*} (g : Geometry) (v : View) (T : Tree (List UInt8) Obj)
    (ino : Obj → Nat) : Prop where
  root : ino T.root = ext2RootIno
  kind : ∀ o, Directory g v (ino o) ∨ Plain g v (ino o)
  entry : ∀ o, Directory g v (ino o) → ∀ r ∈ v.entries (ino o), r.name ≠ dot → r.name ≠ dotDot →
    (T.child o r.name).map ino = some r.ino
  named : ∀ o n c, T.child o n = some c →
    Directory g v (ino o) ∧ ∃ r ∈ v.entries (ino o), r.name = n

section Lookups

variable {Obj : Type*} {g : Geometry} {d : Disk} {T : Tree (List UInt8) Obj} {ino : Obj → Nat}

/-- The objects of the tree are inodes in use. -/
theorem Mounts.inUse {v : View} (hM : Mounts g v T ino) (o : Obj) :
    g.ValidIno (ino o) ∧ v.inodeUsed (ino o) = true := by
  rcases hM.kind o with hdir | hplain
  · exact ⟨hdir.owns.valid, hdir.owns.used⟩
  · exact ⟨hplain.valid, hplain.used⟩

/-- A lookup answers as the tree does. -/
theorem Mounts.ilookup (hM : Mounts g (view g d) T ino) (hd : OnDisk g d) (o : Obj)
    {n : List UInt8} (hnul : 0 ∉ n) (hdot : n ≠ dot) (hdotDot : n ≠ dotDot) (stk : Stack)
    (dentry : Dentry) :
    (T.child o n = none ∧ ilookup g.sb d stk (ino o) dentry n = some (-1, dentry)) ∨
      ∃ c dentry', T.child o n = some c ∧
        ilookup g.sb d stk (ino o) dentry n = some (0, dentry') ∧
        Filled (view g d) dentry' (ino c) := by
  rcases hM.kind o with hdir | hplain
  · rcases ilookup_cases hd hdir hnul stk dentry with
      ⟨hrun, hno⟩ | ⟨r, hr, rfl, dentry', hrun, hino⟩
    · left
      refine ⟨?_, hrun⟩
      cases hchild : T.child o n with
      | none => rfl
      | some c =>
          obtain ⟨-, r, hr, hname⟩ := hM.named o n c hchild
          exact absurd hname (hno r hr)
    · right
      obtain ⟨c, hchild, hc⟩ := Option.map_eq_some_iff.mp (hM.entry o hdir r hr hdot hdotDot)
      rw [← hc] at hino
      obtain ⟨hvalid, hused⟩ := hM.inUse c
      have hfilled := ilookup_filled hd hrun (by rwa [hino]) (by rwa [hino])
      rw [hino] at hfilled
      exact ⟨c, dentry', hchild, hrun, hfilled⟩
  · left
    constructor
    · cases hchild : T.child o n with
      | none => rfl
      | some c =>
          obtain ⟨hdir, -⟩ := hM.named o n c hchild
          exact absurd hplain.notDir hdir.isDir
    · simp [Ext2.ilookup, readInode_eq hd hplain.valid hplain.used, ext2ReadDentryByName,
        hplain.notDir]

/-- A lookup that finds a name fills in the name and the fields of the inode. -/
theorem Mounts.ilookup_named (hM : Mounts g (view g d) T ino) (hd : OnDisk g d) (o : Obj)
    {n : List UInt8} (hnul : 0 ∉ n) (hdot : n ≠ dot) (hdotDot : n ≠ dotDot) (stk : Stack)
    (dentry : Dentry) :
    (T.child o n = none ∧ Ext2.ilookup g.sb d stk (ino o) dentry n = some (-1, dentry)) ∨
      ∃ c dentry', T.child o n = some c ∧
        Ext2.ilookup g.sb d stk (ino o) dentry n = some (0, dentry') ∧
        Filled (view g d) dentry' (ino c) ∧ dentry'.filename = n := by
  rcases hM.ilookup hd o hnul hdot hdotDot stk dentry with
    hmissing | ⟨c, dentry', hchild, hrun, hfilled⟩
  · exact Or.inl hmissing
  · have hdir := (hM.named o n c hchild).1
    exact Or.inr ⟨c, dentry', hchild, hrun, hfilled, ilookup_filename hd hdir hnul hrun⟩

end Lookups

/-! ## Names in the buffer -/

theorem startsWith_nil {b : Buf} : StartsWith b [] ↔ b 0 = 0 := by
  constructor
  · intro h
    exact h 0 le_rfl
  · intro h i hi
    rw [Nat.le_zero.mp hi, h]
    rfl

theorem startsWith_dot {b : Buf} : StartsWith b dot ↔ b 0 = period ∧ b 1 = 0 := by
  constructor
  · intro h
    exact ⟨h 0 (by decide), h 1 (by decide)⟩
  · rintro ⟨hfirst, hsecond⟩ i hi
    have hcases : i = 0 ∨ i = 1 := by
      simp only [dot, List.length_singleton] at hi
      omega
    rcases hcases with rfl | rfl
    · rw [hfirst]
      rfl
    · rw [hsecond]
      rfl

theorem startsWith_dotDot {b : Buf} :
    StartsWith b dotDot ↔ b 0 = period ∧ b 1 = period ∧ b 2 = 0 := by
  constructor
  · intro h
    exact ⟨h 0 (by decide), h 1 (by decide), h 2 (by decide)⟩
  · rintro ⟨hfirst, hsecond, hthird⟩ i hi
    have hcases : i = 0 ∨ i = 1 ∨ i = 2 := by
      simp only [dotDot, List.length_cons, List.length_nil] at hi
      omega
    rcases hcases with rfl | rfl | rfl
    · rw [hfirst]
      rfl
    · rw [hsecond]
      rfl
    · rw [hthird]
      rfl

/-- What the tests of the source say about the name in the buffer. -/
theorem tests_of_startsWith {b : Buf} {n : List UInt8} (h : StartsWith b n) (hnul : 0 ∉ n) :
    (b 0 = 0 ↔ n = []) ∧ ((b 0 = period ∧ b 1 = 0) ↔ n = dot) ∧
      ((b 0 = period ∧ b 1 = period ∧ b 2 = 0) ↔ n = dotDot) := by
  refine ⟨?_, ?_, ?_⟩
  · rw [← startsWith_nil, h.iff_eq hnul (by decide)]
  · rw [← startsWith_dot, h.iff_eq hnul (by decide)]
  · rw [← startsWith_dotDot, h.iff_eq hnul (by decide)]

/-! ## Chains of parents -/

section Chains

variable {Obj : Type*} (T : Tree (List UInt8) Obj) (Stands : Dentry → Obj → Prop)

/-- A dentry stands for an object, and its parents for the parents of the object. -/
inductive Names : DentryPtr → Obj → Prop where
  | sRoot : Names .sRoot T.root
  | node {dentry : Dentry} {dParent : DentryPtr} {o : Obj} (hstands : Stands dentry o)
      (hparent : Names dParent (T.parent o)) : Names (.node dentry dParent) o

/-- What `parse_path` leaves when a path has this meaning. -/
def Delivers (root : Dentry) : Resolution (List UInt8) Obj → Parsed → Prop
  | .invalid, r => r.retval = -1
  | .found o, r => r.retval = 0 ∧ Names T Stands r.node o ∧ r.node.dParent = r.parent
  | .missing base n, r => r.retval = 1 ∧ (r.node.dentry root).filename = n ∧
      r.node.dParent = r.parent ∧ Names T Stands r.parent base

/-- What it means to stand for an object: at least to have its inode number, and no
more than to have all fields of its inode. -/
structure Marks (v : View) (ino : Obj → Nat) : Prop where
  iIno : ∀ dentry o, Stands dentry o → dentry.iIno = ino o
  filled : ∀ dentry o, Filled v dentry (ino o) → Stands dentry o

variable {T Stands} {root : Dentry} {p : DentryPtr} {o : Obj}

theorem Names.stands (h : Names T Stands p o) (hroot : Stands root T.root) :
    Stands (p.dentry root) o := by
  cases h with
  | sRoot => exact hroot
  | node hstands _ => exact hstands

theorem Names.dParent (h : Names T Stands p o) : Names T Stands p.dParent (T.parent o) := by
  cases h with
  | sRoot =>
      rw [T.parent_root]
      exact Names.sRoot
  | node _ hparent => exact hparent

theorem Names.copy (h : Names T Stands p o) (hroot : Stands root T.root) :
    Names T Stands (p.copy root) o :=
  Names.node (h.stands hroot) h.dParent

/-- A weaker way to stand for objects. -/
theorem Names.mono {Stands' : Dentry → Obj → Prop} (h : Names T Stands p o)
    (hle : ∀ dentry o, Stands dentry o → Stands' dentry o) : Names T Stands' p o := by
  induction h with
  | sRoot => exact Names.sRoot
  | node hstands _ ih => exact Names.node (hle _ _ hstands) ih

/-- Copying the parents changes no value. -/
theorem copyParents_eq (root : Dentry) (p : DentryPtr) : p.copyParents root = p := by
  induction p with
  | sRoot => rfl
  | node dentry parent ih =>
      rw [DentryPtr.copyParents, ih]
      exact ite_self _

end Chains

/-! ## The run of the loop -/

section Run

variable {Obj : Type*} {g : Geometry} {d : Disk} {T : Tree (List UInt8) Obj} {ino : Obj → Nat}
  {Stands : Dentry → Obj → Prop} {root : Dentry} {dTrav : DentryPtr} {o : Obj} {acc : List UInt8}

/-- The last component is resolved from the object that was reached before it. -/
theorem parseLast_delivers (hM : Mounts g (view g d) T ino) (hd : OnDisk g d)
    (hmarks : Marks Stands (view g d) ino) (hroot : Stands root T.root) (sc : Scratch)
    (node : DentryPtr) {name : Buf} (hnames : Names T Stands dTrav o)
    (hname : StartsWith name acc) (hnul : 0 ∉ acc) (hne : acc ≠ []) (hlen : acc.length < fnameLen) :
    ∃ r, parseLast g.sb d sc root name dTrav node = some r ∧
      Delivers T Stands root ((T.step pathSyntax o acc).elim (.missing o acc) .found) r := by
  obtain ⟨hempty, hdot, hdotDot⟩ := tests_of_startsWith hname hnul
  have hcopy := hnames.copy hroot
  simp only [parseLast, hempty, hdot, hdotDot, if_neg hne, hname.cString_eq hnul hlen]
  by_cases hself : acc = dot
  · have hstep : T.step pathSyntax o acc = some o := Tree.step_here hself
    rw [if_pos hself, hstep]
    exact ⟨_, rfl, rfl, Names.node (hnames.stands hroot) (hnames.dParent.copy hroot), rfl⟩
  · rw [if_neg hself]
    by_cases hup : acc = dotDot
    · have hstep : T.step pathSyntax o acc = some (T.parent o) := Tree.step_up hself hup
      rw [if_pos hup, hstep]
      exact ⟨_, rfl, rfl,
        Names.node (hnames.dParent.stands hroot) (hnames.dParent.dParent.copy hroot), rfl⟩
    · have hstep : T.step pathSyntax o acc = T.child o acc := Tree.step_child hself hup
      rw [if_neg hup, hstep, hmarks.iIno _ _ (hnames.stands hroot)]
      rcases hM.ilookup hd o hnul hself hup sc.stk (node.dentry root) with
        ⟨hchild, hrun⟩ | ⟨c, dentry, hchild, hrun, hfilled⟩
      · rw [hrun, hchild]
        exact ⟨_, rfl, rfl, rfl, rfl, hcopy⟩
      · rw [hrun, hchild]
        refine ⟨_, rfl, rfl, Names.node (hmarks.filled _ _ hfilled) ?_, rfl⟩
        rw [T.parent_child hchild]
        exact hcopy

/-- From any place in the path on, the function answers what the rest of the path is
resolved to from the object reached. -/
theorem parseLoop_delivers (hM : Mounts g (view g d) T ino) (hd : OnDisk g d)
    (hmarks : Marks Stands (view g d) ino) (hroot : Stands root T.root) (sc : Scratch)
    (parent node : DentryPtr) (path : List UInt8) {i : Nat} {name : Buf}
    (hnames : Names T Stands dTrav o) (hname : bytesAt name 0 acc.length = acc)
    (hslash : slash ∉ acc) (hnul : 0 ∉ acc ++ path)
    (hne : acc ++ path ≠ []) (hi : acc.length ≤ i) (hlen : i + path.length < fnameLen) :
    ∃ r, (parseLoop g.sb d sc root path i acc.length name dTrav).bind
        (parseEnd g.sb d sc root parent node) = some r ∧
      Delivers T Stands root (T.resolveFrom pathSyntax o (acc ++ path)) r := by
  -- the induction is on the rest of the path; the component read so far is in the buffer
  induction path generalizing i name acc dTrav o with
  | nil =>
      rw [List.append_nil] at hnul hne ⊢
      have hstart := startsWith_update hname
      rw [Tree.resolveFrom_last hslash hne]
      rw [List.length_nil] at hlen
      exact parseLast_delivers hM hd hmarks hroot sc node hnames hstart hnul hne (by omega)
  | cons c path ih =>
      obtain ⟨haccNul, hrest⟩ := not_or.mp (mt List.mem_append.mpr hnul)
      obtain ⟨hcNul, hpathNul⟩ := not_or.mp (mt List.mem_cons.mpr hrest)
      rw [List.length_cons] at hlen
      rw [parseLoop, if_neg (by omega)]
      by_cases hc : c = slash
      · subst hc
        have hstart := startsWith_update hname
        obtain ⟨hempty, hdot, hdotDot⟩ := tests_of_startsWith hstart haccNul
        have hstring := hstart.cString_eq haccNul (show acc.length < fnameLen by omega)
        simp only [if_true, true_and, hempty, hdot, hdotDot, hstring]
        by_cases hlast : path = []
        · -- a slash at the end
          subst hlast
          rw [if_neg (by simp)]
          have htrailing : T.resolveFrom pathSyntax o (acc ++ [slash]) = _ :=
            Tree.resolveFrom_trailing hslash
          rw [htrailing]
          by_cases hnone : acc = []
          · rw [if_pos hnone, if_pos hnone]
            exact ⟨_, rfl, rfl⟩
          · rw [if_neg hnone, if_neg hnone]
            exact parseLast_delivers hM hd hmarks hroot sc node hnames
              (hstart.update_past (Nat.lt_succ_self _) 0) haccNul hnone (by omega)
        · -- the end of an inner component
          have hnext : path.getD 0 0 ≠ 0 := by
            obtain ⟨c, rest, rfl⟩ := List.exists_cons_of_ne_nil hlast
            intro hzero
            exact hpathNul (hzero ▸ List.mem_cons_self)
          have hinner : T.resolveFrom pathSyntax o (acc ++ slash :: path) = _ :=
            Tree.resolveFrom_inner hslash hlast
          rw [if_pos hnext, hinner]
          by_cases hnone : acc = []
          · rw [if_pos hnone, if_pos hnone]
            exact ⟨_, rfl, rfl⟩
          · rw [if_neg hnone, if_neg hnone]
            by_cases hself : acc = dot
            · have hstep : T.step pathSyntax o acc = some o := Tree.step_here hself
              rw [if_pos hself, hstep]
              exact @ih dTrav o [] (i + 1) _ hnames rfl (by simp) hpathNul hlast (Nat.zero_le _)
                (by omega)
            · rw [if_neg hself]
              by_cases hup : acc = dotDot
              · have hstep : T.step pathSyntax o acc = some (T.parent o) := Tree.step_up hself hup
                rw [if_pos hup, hstep]
                exact @ih dTrav.dParent _ [] (i + 1) _ hnames.dParent rfl (by simp) hpathNul hlast
                  (Nat.zero_le _) (by omega)
              · have hstep : T.step pathSyntax o acc = T.child o acc := Tree.step_child hself hup
                rw [if_neg hup, hstep, hmarks.iIno _ _ (hnames.stands hroot)]
                rcases hM.ilookup hd o haccNul hself hup sc.stk sc.dTmp with
                  ⟨hchild, hrun⟩ | ⟨c, dTmp, hchild, hrun, hfilled⟩
                · rw [hrun, hchild]
                  exact ⟨_, rfl, rfl⟩
                · rw [hrun, hchild]
                  have hnew : Names T Stands (.node dTmp dTrav) c := by
                    refine Names.node (hmarks.filled _ _ hfilled) ?_
                    rw [T.parent_child hchild]
                    exact hnames
                  exact @ih _ c [] (i + 1) _ hnew rfl (by simp) hpathNul hlast (Nat.zero_le _)
                    (by omega)
      · simp only [hc, if_false, false_and]
        have hname' := bytesAt_update hname c
        have happend : acc ++ c :: path = (acc ++ [c]) ++ path := List.append_cons _ _ _
        have hslash' : slash ∉ acc ++ [c] := by
          intro hmem
          rcases List.mem_append.mp hmem with hmem | hmem
          · exact hslash hmem
          · exact hc (List.mem_singleton.mp hmem).symm
        have hlength : (acc ++ [c]).length = acc.length + 1 := by simp
        rw [happend] at hnul ⊢
        rw [← hlength]
        exact ih hnames hname' hslash' hnul (by simp) (by omega) (by omega)

/-- The loop from the start of a path that is not empty. -/
theorem parseFrom_delivers (hM : Mounts g (view g d) T ino) (hd : OnDisk g d)
    (hmarks : Marks Stands (view g d) ino) (hroot : Stands root T.root) (sc : Scratch)
    (parent node : DentryPtr) {path : List UInt8} (hnames : Names T Stands dTrav o)
    (hnul : 0 ∉ path) (hne : path ≠ []) (hlen : path.length < fnameLen) :
    ∃ r, parseFrom g.sb d sc root path dTrav parent node = some r ∧
      Delivers T Stands root (T.resolveFrom pathSyntax o path) r :=
  @parseLoop_delivers _ g d T ino Stands root dTrav o [] hM hd hmarks hroot sc parent node path 0
    sc.name hnames rfl (by simp) hnul hne le_rfl (by omega)

/-! ## Path names -/

/-- The current directory: the chain of `cur_dentry` names it, and only the root is
called "/". -/
structure Globals.At (vfs : Globals) (T : Tree (List UInt8) Obj) (Stands : Dentry → Obj → Prop)
    (cwd : Obj) : Prop where
  root : Stands vfs.sRoot T.root
  names : Names T Stands (.node vfs.curDentry vfs.curParent) cwd
  slash : firstChar vfs.curDentry = slash → cwd = T.root

variable {vfs : Globals} {cwd : Obj} {path : List UInt8}

/-- The path "/" alone. -/
theorem parseFrom_nil (hroot : Stands root T.root) (sc : Scratch) (parent node : DentryPtr) :
    ∃ r, parseFrom g.sb d sc root [] .sRoot parent node = some r ∧
      Delivers T Stands root (.found T.root) r := by
  have hzero : Function.update sc.name 0 0 0 = 0 := Function.update_self _ _ _
  have hperiod : ¬ (0 : UInt8) = period := by decide
  refine ⟨⟨0, DentryPtr.sRoot.copy root, .node root (DentryPtr.sRoot.copy root)⟩, ?_, rfl, ?_, rfl⟩
  · simp only [parseFrom, parseLoop, Option.bind_some, parseEnd, parseLast, hzero, hperiod,
      false_and, if_false, if_true]
  · refine Names.node hroot ?_
    rw [T.parent_root]
    exact Names.sRoot.copy hroot

/-- A path that starts with two slashes means nothing. -/
theorem resolveFrom_slash (o : Obj) (path : List UInt8) :
    T.resolveFrom pathSyntax o (slash :: path) = .invalid := by
  by_cases hne : path = []
  · rw [hne]
    exact @Tree.resolveFrom_trailing _ _ _ T pathSyntax o [] (by simp)
  · exact @Tree.resolveFrom_inner _ _ _ T pathSyntax o [] (by simp) path hne

/-- `parse_path` leaves what the path is resolved to, with the chain of its parents. -/
theorem parsePath_names (hM : Mounts g (view g d) T ino) (hd : OnDisk g d)
    (hmarks : Marks Stands (view g d) ino) (hcwd : vfs.At T Stands cwd) (sc : Scratch)
    (parent node : DentryPtr) (hnul : 0 ∉ path) (hlen : path.length < fnameLen) :
    ∃ r, parsePath g.sb d sc vfs path parent node = some r ∧
      Delivers T Stands vfs.sRoot (T.resolve pathSyntax cwd path) r := by
  cases path with
  | nil => exact ⟨_, rfl, rfl⟩
  | cons c rest =>
      obtain ⟨hcNul, hrestNul⟩ := not_or.mp (mt List.mem_cons.mpr hnul)
      rw [List.length_cons] at hlen
      have hfirst : (c :: rest).getD 0 0 = c := rfl
      rw [parsePath, hfirst, if_neg (Ne.symm hcNul)]
      by_cases hc : c = slash
      · subst hc
        simp only [true_or, if_true, true_and]
        cases rest with
        | nil => exact parseFrom_nil hcwd.root sc parent node
        | cons c' rest =>
            have hresolve : T.resolve pathSyntax cwd (slash :: c' :: rest) =
                T.resolveFrom pathSyntax T.root (c' :: rest) := rfl
            have hsecond : (slash :: c' :: rest).getD 1 0 = c' := rfl
            rw [hresolve, hsecond]
            by_cases hc' : c' = slash
            · rw [if_neg (not_not.mpr hc'), if_pos ⟨rfl, hc'⟩, hc', resolveFrom_slash]
              exact ⟨_, rfl, rfl⟩
            · have hthird : ¬ ((c' :: rest).getD 0 0 = slash ∧ (c' :: rest).getD 1 0 = slash) :=
                fun h => hc' h.1
              rw [if_pos hc', List.tail_cons, if_neg hthird]
              exact parseFrom_delivers hM hd hmarks hcwd.root sc parent node Names.sRoot hrestNul
                (by simp) (by omega)
      · have hresolve : T.resolve pathSyntax cwd (c :: rest) =
            T.resolveFrom pathSyntax cwd (c :: rest) := by
          have hsep : ¬ c :: rest = [slash] := fun h => hc (List.cons.inj h).1
          have hhead : ¬ some c = some slash := fun h => hc (Option.some.inj h)
          rw [Tree.resolve, if_neg (by simp)]
          exact (if_neg hsep).trans (if_neg hhead)
        rw [hresolve]
        simp only [hc, false_or, false_and, if_false]
        by_cases hcur : firstChar vfs.curDentry = slash
        · have hfirst' : ¬ ((c :: rest).getD 0 0 = slash ∧ (c :: rest).getD 1 0 = slash) :=
            fun h => hc h.1
          rw [if_pos hcur, if_neg hfirst', hcwd.slash hcur]
          exact parseFrom_delivers hM hd hmarks hcwd.root sc parent node Names.sRoot hnul (by simp)
            (by rw [List.length_cons]; omega)
        · rw [if_neg hcur, copyParents_eq]
          exact parseFrom_delivers hM hd hmarks hcwd.root sc parent node hcwd.names hnul (by simp)
            (by rw [List.length_cons]; omega)

/-- The value, node and parent that go with a meaning, by inode number. -/
def Answers (T : Tree (List UInt8) Obj) (ino : Obj → Nat) (root : Dentry) :
    Resolution (List UInt8) Obj → Parsed → Prop
  | .invalid, r => r.retval = -1
  | .found o, r => r.retval = 0 ∧ (r.node.dentry root).iIno = ino o ∧
      r.node.dParent = r.parent ∧ (r.parent.dentry root).iIno = ino (T.parent o)
  | .missing base n, r => r.retval = 1 ∧ (r.node.dentry root).filename = n ∧
      r.node.dParent = r.parent ∧ (r.parent.dentry root).iIno = ino base

/-- A dentry has the inode number of an object. -/
def SameIno (ino : Obj → Nat) (dentry : Dentry) (o : Obj) : Prop := dentry.iIno = ino o

theorem marks_sameIno (v : View) : Marks (SameIno ino) v ino :=
  ⟨fun _ _ h => h, fun _ _ h => h.iIno⟩

/-- `parse_path` agrees with the resolution from left to right, for every tree, current
directory and path. -/
theorem parsePath_resolves (hM : Mounts g (view g d) T ino) (hd : OnDisk g d)
    (hcwd : vfs.At T (SameIno ino) cwd) (sc : Scratch) (parent node : DentryPtr) (hnul : 0 ∉ path)
    (hlen : path.length < fnameLen) :
    ∃ r, parsePath g.sb d sc vfs path parent node = some r ∧
      Answers T ino vfs.sRoot (T.resolve pathSyntax cwd path) r := by
  obtain ⟨r, hrun, hr⟩ := parsePath_names hM hd (marks_sameIno _) hcwd sc parent node hnul hlen
  refine ⟨r, hrun, ?_⟩
  cases hmeans : T.resolve pathSyntax cwd path with
  | invalid =>
      rw [hmeans] at hr
      exact hr
  | found o =>
      rw [hmeans] at hr
      obtain ⟨hret, hnode, hlink⟩ := hr
      have hparent := hnode.dParent
      rw [hlink] at hparent
      exact ⟨hret, hnode.stands hcwd.root, hlink, hparent.stands hcwd.root⟩
  | missing base n =>
      rw [hmeans] at hr
      obtain ⟨hret, hname, hlink, hparent⟩ := hr
      exact ⟨hret, hname, hlink, hparent.stands hcwd.root⟩

end Run

/-! ## A tree -/

/-- The root, a directory in it, and a file in that. -/
inductive Place where
  | root
  | dir
  | file
deriving DecidableEq

/-- The inode numbers of the three. -/
def Place.ino : Place → Nat
  | .root => ext2RootIno
  | .dir => 12
  | .file => 13

/-- The tree of the three: the directory is called "d" and the file is called "f". -/
def smallTree : Tree (List UInt8) Place where
  root := .root
  parent
    | .file => .dir
    | _ => .root
  child
    | .root, n => if n = [100] then some .dir else none
    | .dir, n => if n = [102] then some .file else none
    | .file, _ => none
  parent_root := rfl
  parent_child {o n c} h := by
    cases o with
    | root =>
        obtain ⟨-, hc⟩ := Option.ite_none_right_eq_some.mp h
        cases hc
        rfl
    | dir =>
        obtain ⟨-, hc⟩ := Option.ite_none_right_eq_some.mp h
        cases hc
        rfl
    | file => exact absurd h (by simp)

/-- The records of the root and of the directory. -/
def rootRecords : List Rec := [⟨2, 12, 2, dot⟩, ⟨2, 12, 2, dotDot⟩, ⟨12, 1000, 2, [100]⟩]

/-- The records of the directory. -/
def dirRecords : List Rec := [⟨12, 12, 2, dot⟩, ⟨2, 12, 2, dotDot⟩, ⟨13, 1000, 1, [102]⟩]

/-- An image of the tree.  The file holds an "A" and a zero byte. -/
def treeView : View where
  blockUsed b := decide (b ≤ 9)
  inodeUsed ino := decide (ino ≤ 13)
  inode ino :=
    if ino = 2 then newInode 0x41FF blocksize [7]
    else if ino = 12 then newInode 0x41FF blocksize [8]
    else newInode 0x81FF 2 [9]
  data b :=
    if b = 7 then layOut 0 rootRecords fun _ => 0
    else if b = 8 then layOut 0 dirRecords fun _ => 0
    else fun i => if i = 0 then 65 else 0

/-- The image on a device. -/
def treeDisk : Disk := format smallGroup treeView

theorem onDisk_treeDisk : OnDisk smallGroup treeDisk := onDisk_format _ _

theorem view_treeDisk : view smallGroup treeDisk = treeView.trim smallGroup := view_format _ _

theorem tiles_rootRecords (buf : Buf) :
    Tiles (layOut 0 rootRecords buf) 0 rootRecords 1024 := by
  apply tiles_layOut
  intro r hr
  simp only [rootRecords, List.mem_cons, List.not_mem_nil, or_false] at hr
  rcases hr with rfl | rfl | rfl
  · exact ⟨⟨by decide, by decide, by decide, by decide⟩, by decide⟩
  · exact ⟨⟨by decide, by decide, by decide, by decide⟩, by decide⟩
  · exact ⟨⟨by decide, by decide, by decide, by decide⟩, by decide⟩

theorem tiles_dirRecords (buf : Buf) : Tiles (layOut 0 dirRecords buf) 0 dirRecords 1024 := by
  apply tiles_layOut
  intro r hr
  simp only [dirRecords, List.mem_cons, List.not_mem_nil, or_false] at hr
  rcases hr with rfl | rfl | rfl
  · exact ⟨⟨by decide, by decide, by decide, by decide⟩, by decide⟩
  · exact ⟨⟨by decide, by decide, by decide, by decide⟩, by decide⟩
  · exact ⟨⟨by decide, by decide, by decide, by decide⟩, by decide⟩

/-- The two directories of the image. -/
theorem directories_treeDisk :
    Directory smallGroup (view smallGroup treeDisk) 2 ∧
      (view smallGroup treeDisk).entries 2 = rootRecords ∧
      Directory smallGroup (view smallGroup treeDisk) 12 ∧
      (view smallGroup treeDisk).entries 12 = dirRecords := by
  rw [view_treeDisk]
  obtain ⟨hroot, hrootEntries, -⟩ := @directory_of_format smallGroup treeView 2 0x41FF 7
    rootRecords (by decide) rfl rfl (by decide) (by decide) (smallGroup_isData le_rfl (by decide))
    rfl (tiles_rootRecords _)
  obtain ⟨hdir, hdirEntries, -⟩ := @directory_of_format smallGroup treeView 12 0x41FF 8
    dirRecords (by decide) rfl rfl (by decide) (by decide)
    (smallGroup_isData (by decide) (by decide)) rfl (tiles_dirRecords _)
  exact ⟨hroot, hrootEntries, hdir, hdirEntries⟩

/-- The file of the image. -/
theorem inode_treeDisk :
    iMode ((view smallGroup treeDisk).inode 13) = 0x81FF ∧
      iSize ((view smallGroup treeDisk).inode 13) = 2 ∧
      iBlocks ((view smallGroup treeDisk).inode 13) = 1 ∧
      iBlock ((view smallGroup treeDisk).inode 13) 0 = 9 := by
  rw [view_treeDisk]
  obtain ⟨hmode, hsize, hblocks, hslot⟩ := @View.fields_trim smallGroup treeView 13 0x81FF 2
    [9] (by decide) rfl (by decide) (by decide) (by decide) (by simp)
  exact ⟨hmode, hsize, hblocks, hslot 0 (by decide)⟩

/-- The image holds the tree. -/
theorem mounts_treeDisk : Mounts smallGroup (view smallGroup treeDisk) smallTree Place.ino := by
  obtain ⟨hroot, hrootEntries, hdir, hdirEntries⟩ := directories_treeDisk
  have hplain : Plain smallGroup (view smallGroup treeDisk) 13 := by
    refine ⟨by decide, ?_, ?_⟩
    · rw [view_treeDisk]
      decide
    · rw [inode_treeDisk.1]
      decide
  refine ⟨rfl, fun o => ?_, fun o h => ?_, fun o n c hchild => ?_⟩
  · cases o with
    | root => exact Or.inl hroot
    | dir => exact Or.inl hdir
    | file => exact Or.inr hplain
  · cases o with
    | root =>
        rw [Place.ino, ext2RootIno, hrootEntries]
        decide
    | dir =>
        rw [Place.ino, hdirEntries]
        decide
    | file => exact absurd hplain.notDir h.isDir
  · cases o with
    | root =>
        obtain ⟨rfl, -⟩ := Option.ite_none_right_eq_some.mp hchild
        refine ⟨hroot, ⟨12, 1000, 2, [100]⟩, ?_, rfl⟩
        rw [Place.ino, ext2RootIno, hrootEntries]
        decide
    | dir =>
        obtain ⟨rfl, -⟩ := Option.ite_none_right_eq_some.mp hchild
        refine ⟨hdir, ⟨13, 1000, 1, [102]⟩, ?_, rfl⟩
        rw [Place.ino, hdirEntries]
        decide
    | file => exact absurd hchild (by simp [smallTree])

/-- The globals in the directory. -/
def inDir : Globals where
  sRoot := ⟨[slash], 1, 1024, 2, 0x41FF⟩
  curDentry := ⟨[100], 1, 1024, 12, 0x41FF⟩
  curParent := .sRoot

theorem at_inDir : inDir.At smallTree (SameIno Place.ino) .dir := by
  refine ⟨rfl, Names.node rfl Names.sRoot, fun h => ?_⟩
  exact absurd h (by decide)

/-- `parsePath_resolves` for "../d/./f/" in the directory: the path leads to the file. -/
theorem parsePath_resolves_treeDisk :
    ∃ r, parsePath smallGroup.sb treeDisk ⟨default, fun _ => 0, default⟩ inDir
        [46, 46, 47, 100, 47, 46, 47, 102, 47] .sRoot .sRoot = some r ∧
      Answers smallTree Place.ino inDir.sRoot (.found .file) r :=
  parsePath_resolves mounts_treeDisk onDisk_treeDisk at_inDir _ _ _ (by decide) (by decide)

end Vfs
end NochOS
