import NochOS.Ext2.DentryBytes
import NochOS.Library.Traced
import NochOS.Vfs.ParsePath

/-!
# VFS - the buffers for names

A component of a path is collected in an array of 48 bytes, and the name of an entry is
stored in another one.  This module runs `parse_path` and `ext2_fill_vfs_dentry` with a
trace of the bytes they store in these arrays.

Main results:

- Definitions `parsePathStores`, `fillStores`: the functions with their traces.
- Theorems `value_parsePathStores`, `value_fillStores`: without the trace they are the
  functions of the other modules.
- Theorem `names_inside_iff`: when the stores stay inside the arrays.
-/

namespace NochOS
namespace Vfs

open Library Ext2

/-! ## The functions with a trace -/

/-- A store to `name`, or to the `filename` of an entry. -/
inductive Store where
  | name (idx : Nat)
  | filename (idx : Nat)

/-- The stores of `strncpy(filename, s, n)`. -/
def strncpyStores (n : Nat) : List Store := (List.range n).map Store.filename

/-- The stores of `strcpy(filename, s)`. -/
def strcpyStores (s : List UInt8) : List Store := (List.range (s.length + 1)).map Store.filename

/-- `ext2_fill_vfs_dentry` on an entry at an address. -/
def fillStores (sb : Super) (d : Disk) (stk : Stack) (ext2Iop : Nat) (mem : Buf) (at_ : Nat)
    (ext2Dentry : Rec) : Traced Store Buf := do
  Traced.emitAll (strncpyStores ext2Dentry.name.length)
  Traced.emit (.filename ext2Dentry.name.length)
  pure (ext2FillVfsDentryAt sb d stk ext2Iop mem at_ ext2Dentry)

/-- The loop of `parse_path` on `path + i`. -/
def parseLoopStores (sb : Super) (d : Disk) (sc : Scratch) (root : Dentry) :
    List UInt8 → Nat → Nat → Buf → DentryPtr → Traced Store LoopEnd
  | [], _, j, name, dTrav => pure (.left name j dTrav)
  | c :: path, i, j, name, dTrav =>
      if fnameLen ≤ i then pure .failed
      else do
        Traced.emit (.name j)
        let name := Function.update name j (if c = slash then 0 else c)
        if c = slash ∧ path.getD 0 0 ≠ 0 then
          if name 0 = 0 then pure .failed
          else if name 0 = period ∧ name 1 = 0 then
            parseLoopStores sb d sc root path (i + 1) 0 name dTrav
          else if name 0 = period ∧ name 1 = period ∧ name 2 = 0 then
            parseLoopStores sb d sc root path (i + 1) 0 name dTrav.dParent
          else
            match ilookup sb d sc.stk (dTrav.dentry root).iIno sc.dTmp (cString name fnameLen) with
            | none => Traced.stop
            | some (res, dTmp) =>
                if res = -1 then pure .failed
                else parseLoopStores sb d sc root path (i + 1) 0 name (.node dTmp dTrav)
        else if c = slash then
          if name 0 = 0 then pure .failed else pure (.left name (j + 1) dTrav)
        else parseLoopStores sb d sc root path (i + 1) (j + 1) name dTrav

/-- The part of `parse_path` behind its loop, from the terminating zero of `name` on. -/
def parseLastStores (sb : Super) (d : Disk) (sc : Scratch) (root : Dentry) (name : Buf)
    (dTrav node : DentryPtr) : Traced Store Parsed :=
  if name 0 = period ∧ name 1 = 0 then
    let parent := dTrav.dParent.copy root
    pure ⟨0, parent, .node (dTrav.dentry root) parent⟩
  else if name 0 = period ∧ name 1 = period ∧ name 2 = 0 then
    let parent := dTrav.dParent.dParent.copy root
    pure ⟨0, parent, .node (dTrav.dParent.dentry root) parent⟩
  else if name 0 = 0 then
    let parent := DentryPtr.sRoot.copy root
    pure ⟨0, parent, .node root parent⟩
  else
    let parent := dTrav.copy root
    match ilookup sb d sc.stk (dTrav.dentry root).iIno (node.dentry root)
      (cString name fnameLen) with
    | none => Traced.stop
    | some (res, dentry) =>
        if res = -1 then do
          Traced.emitAll (strcpyStores (cString name fnameLen))
          pure ⟨1, parent, .node { dentry with filename := cString name fnameLen } parent⟩
        else pure ⟨0, parent, .node dentry parent⟩

/-- What happens behind the loop of `parse_path`. -/
def parseEndStores (sb : Super) (d : Disk) (sc : Scratch) (root : Dentry)
    (parent node : DentryPtr) : LoopEnd → Traced Store Parsed
  | .failed => pure ⟨-1, parent, node⟩
  | .left name j dTrav => do
      Traced.emit (.name j)
      parseLastStores sb d sc root (Function.update name j 0) dTrav node

/-- `parse_path` from the loop on. -/
def parseFromStores (sb : Super) (d : Disk) (sc : Scratch) (root : Dentry) (path : List UInt8)
    (dTrav parent node : DentryPtr) : Traced Store Parsed := do
  let loopEnd ← parseLoopStores sb d sc root path 0 0 sc.name dTrav
  parseEndStores sb d sc root parent node loopEnd

/-- The path that the loop of `parse_path` goes through: a single slash in front of it is left
out. -/
def walked (path : List UInt8) : List UInt8 :=
  if path.getD 0 0 = slash ∧ path.getD 1 0 ≠ slash then path.tail else path

/-- `parse_path`; `parent` and `node` are what the caller has allocated. -/
def parsePathStores (sb : Super) (d : Disk) (sc : Scratch) (vfs : Globals) (path : List UInt8)
    (parent node : DentryPtr) : Traced Store Parsed :=
  if path.getD 0 0 = 0 then pure ⟨-1, parent, node⟩
  else if path.getD 0 0 = slash ∨ firstChar vfs.curDentry = slash then
    let path := walked path
    if path.getD 0 0 = slash ∧ path.getD 1 0 = slash then pure ⟨-1, parent, node⟩
    else parseFromStores sb d sc vfs.sRoot path .sRoot parent node
  else
    parseFromStores sb d sc vfs.sRoot path
      ((DentryPtr.node vfs.curDentry vfs.curParent).copyParents vfs.sRoot) parent node

/-! ## Without the trace -/

section Erase

variable {sb : Super} {d : Disk} {sc : Scratch} {root : Dentry}

theorem value_fillStores (stk : Stack) (ext2Iop : Nat) (mem : Buf) (at_ : Nat) (e : Rec) :
    (fillStores sb d stk ext2Iop mem at_ e).value =
      some (ext2FillVfsDentryAt sb d stk ext2Iop mem at_ e) := rfl

theorem value_parseLoopStores (path : List UInt8) (i j : Nat) (name : Buf) (dTrav : DentryPtr) :
    (parseLoopStores sb d sc root path i j name dTrav).value =
      parseLoop sb d sc root path i j name dTrav := by
  induction path generalizing i j name dTrav with
  | nil => rfl
  | cons c path ih =>
      rw [parseLoopStores, parseLoop]
      split
      · rfl
      · rw [Traced.value_emit_bind]
        dsimp only
        generalize Function.update name j (if c = slash then 0 else c) = name'
        split_ifs
        · rfl
        · exact ih _ _ _ _
        · exact ih _ _ _ _
        · cases ilookup sb d sc.stk (dTrav.dentry root).iIno sc.dTmp (cString name' fnameLen) with
          | none => rfl
          | some r =>
              dsimp only
              split_ifs
              · rfl
              · exact ih _ _ _ _
        · rfl
        · rfl
        · exact ih _ _ _ _

theorem value_parseLastStores (name : Buf) (dTrav node : DentryPtr) :
    (parseLastStores sb d sc root name dTrav node).value =
      parseLast sb d sc root name dTrav node := by
  rw [parseLastStores, parseLast]
  split_ifs
  · rfl
  · rfl
  · rfl
  · dsimp only
    cases ilookup sb d sc.stk (dTrav.dentry root).iIno (node.dentry root)
      (cString name fnameLen) with
    | none => rfl
    | some r =>
        dsimp only
        split_ifs
        · rfl
        · rfl

theorem value_parseFromStores (path : List UInt8) (dTrav parent node : DentryPtr) :
    (parseFromStores sb d sc root path dTrav parent node).value =
      parseFrom sb d sc root path dTrav parent node := by
  rw [parseFromStores, Traced.value_bind, parseFrom, value_parseLoopStores]
  cases parseLoop sb d sc root path 0 0 sc.name dTrav with
  | none => rfl
  | some r =>
      cases r with
      | failed => rfl
      | left name j dTrav => exact value_parseLastStores _ _ _

/-- Without its trace the function is the one that resolves paths. -/
theorem value_parsePathStores (vfs : Globals) (path : List UInt8) (parent node : DentryPtr) :
    (parsePathStores sb d sc vfs path parent node).value =
      parsePath sb d sc vfs path parent node := by
  rw [parsePathStores, parsePath]
  by_cases hempty : path.getD 0 0 = 0
  · rw [if_pos hempty, if_pos hempty]
    rfl
  · rw [if_neg hempty, if_neg hempty]
    by_cases hroot : path.getD 0 0 = slash ∨ firstChar vfs.curDentry = slash
    · rw [if_pos hroot, if_pos hroot]
      have hwalked : (if path.getD 0 0 = slash ∧ path.getD 1 0 ≠ slash then path.tail else path) =
        walked path := rfl
      simp only [hwalked]
      by_cases hslashes : (walked path).getD 0 0 = slash ∧ (walked path).getD 1 0 = slash
      · rw [if_pos hslashes, if_pos hslashes]
        rfl
      · rw [if_neg hslashes, if_neg hslashes]
        exact value_parseFromStores _ _ _ _
    · rw [if_neg hroot, if_neg hroot]
      exact value_parseFromStores _ _ _ _

end Erase

/-! ## The stores -/

/-- A store inside its array of `FNAME_LEN` bytes. -/
def Store.Inside : Store → Prop
  | .name idx => idx < fnameLen
  | .filename idx => idx < fnameLen

/-- The path ends where its next character is the zero. -/
theorem eq_nil_of_getD {path : List UInt8} (hnul : 0 ∉ path) (h : path.getD 0 0 = 0) :
    path = [] := by
  cases path with
  | nil => rfl
  | cons c path =>
      rw [List.getD_cons_zero] at h
      exact absurd (h ▸ List.mem_cons_self) hnul

section Loop

variable {sb : Super} {d : Disk} {sc : Scratch} {root : Dentry}

/-- Every store of the loop is inside `name`. -/
theorem parseLoop_inside (path : List UInt8) {i j : Nat} (hij : j ≤ i) (name : Buf)
    (dTrav : DentryPtr) :
    ∀ s ∈ (parseLoopStores sb d sc root path i j name dTrav).events, s.Inside := by
  induction path generalizing i j name dTrav with
  | nil => exact fun s hs => absurd hs List.not_mem_nil
  | cons c path ih =>
      rw [parseLoopStores]
      by_cases hlong : fnameLen ≤ i
      · rw [if_pos hlong]
        exact fun s hs => absurd hs List.not_mem_nil
      · rw [if_neg hlong, Traced.events_emit_bind]
        dsimp only
        generalize Function.update name j (if c = slash then 0 else c) = name'
        intro s hs
        rw [List.mem_cons] at hs
        cases hs with
        | inl hhere =>
            rw [hhere]
            exact (show j < fnameLen by omega)
        | inr hlater =>
            split_ifs at hlater
            · exact absurd hlater List.not_mem_nil
            · exact ih (Nat.zero_le _) name' _ s hlater
            · exact ih (Nat.zero_le _) name' _ s hlater
            · cases hlookup : ilookup sb d sc.stk (dTrav.dentry root).iIno sc.dTmp
                (cString name' fnameLen) with
              | none =>
                  rw [hlookup] at hlater
                  exact absurd hlater List.not_mem_nil
              | some r =>
                  rw [hlookup] at hlater
                  dsimp only at hlater
                  split_ifs at hlater
                  · exact absurd hlater List.not_mem_nil
                  · exact ih (Nat.zero_le _) name' _ s hlater
            · exact absurd hlater List.not_mem_nil
            · exact absurd hlater List.not_mem_nil
            · exact ih (by omega) name' _ s hlater

/-- The path fills `name` completely: it has as many characters, and no slash but at its end. -/
def FillsName (path : List UInt8) : Prop := path.length = fnameLen ∧ slash ∉ path.dropLast

/-- The loop leaves room for a terminating zero, except behind a last component that takes up
all of the path. -/
theorem parseLoop_left (path : List UInt8) (hnul : 0 ∉ path) {i j : Nat} (hij : j ≤ i)
    (hi : i ≤ fnameLen) {name name' : Buf} {dTrav dTrav' : DentryPtr} {j' : Nat}
    (h : parseLoop sb d sc root path i j name dTrav = some (.left name' j' dTrav')) :
    j' < fnameLen ∨ (j' = fnameLen ∧ j = i ∧ i + path.length = fnameLen ∧
      slash ∉ path.dropLast) := by
  induction path generalizing i j name dTrav with
  | nil =>
      obtain ⟨-, rfl, -⟩ := LoopEnd.left.inj (Option.some.inj h)
      by_cases hj : j < fnameLen
      · exact Or.inl hj
      · refine Or.inr ⟨by omega, by omega, ?_, List.not_mem_nil⟩
        rw [List.length_nil]
        omega
  | cons c path ih =>
      have hnul' : 0 ∉ path := fun hmem => hnul (List.mem_cons_of_mem _ hmem)
      rw [parseLoop] at h
      by_cases hlong : fnameLen ≤ i
      · rw [if_pos hlong] at h
        exact absurd h (by simp)
      · rw [if_neg hlong] at h
        dsimp only at h
        generalize Function.update name j (if c = slash then 0 else c) = name₁ at h
        -- a component that starts behind a slash is shorter than the path
        have hlater : ∀ {dTrav₁ : DentryPtr},
            parseLoop sb d sc root path (i + 1) 0 name₁ dTrav₁ = some (.left name' j' dTrav') →
              j' < fnameLen := by
          intro dTrav₁ h₁
          cases ih hnul' (Nat.zero_le _) (by omega) h₁ with
          | inl hlt => exact hlt
          | inr hfull => exact absurd hfull.2.1 (by omega)
        split_ifs at h with hslash hempty hself hup hend hempty
        · exact absurd h (by simp)
        · exact Or.inl (hlater h)
        · exact Or.inl (hlater h)
        · cases hlookup : ilookup sb d sc.stk (dTrav.dentry root).iIno sc.dTmp
            (cString name₁ fnameLen) with
          | none =>
              rw [hlookup] at h
              exact absurd h (by simp)
          | some r =>
              rw [hlookup] at h
              dsimp only at h
              split_ifs at h
              · exact absurd h (by simp)
              · exact Or.inl (hlater h)
        · exact absurd h (by simp)
        · -- a slash at the end takes up one more byte
          obtain ⟨-, rfl, -⟩ := LoopEnd.left.inj (Option.some.inj h)
          have hnil := eq_nil_of_getD hnul' (not_not.mp fun hne => hslash ⟨hend, hne⟩)
          subst hnil
          by_cases hj : j + 1 < fnameLen
          · exact Or.inl hj
          · refine Or.inr ⟨by omega, by omega, ?_, List.not_mem_nil⟩
            rw [List.length_singleton]
            omega
        · cases ih hnul' (by omega) (by omega) h with
          | inl hlt => exact Or.inl hlt
          | inr hfull =>
              obtain ⟨hj', hji, hlen, hnone⟩ := hfull
              refine Or.inr ⟨hj', by omega, by rw [List.length_cons]; omega, ?_⟩
              cases path with
              | nil => exact List.not_mem_nil
              | cons c' path =>
                  rw [List.dropLast_cons_cons, List.mem_cons]
                  rintro (hfirst | hmem)
                  · exact hend hfirst.symm
                  · exact hnone hmem

/-- A path that fills `name` goes through the loop without a lookup. -/
theorem parseLoop_fills (path : List UInt8) (hnul : 0 ∉ path) (hslash : slash ∉ path.dropLast)
    {i : Nat} (hlen : i + path.length = fnameLen) {name : Buf} (hname : i = 0 ∨ name 0 ≠ 0)
    (dTrav : DentryPtr) :
    ∃ name', parseLoop sb d sc root path i i name dTrav = some (.left name' fnameLen dTrav) := by
  induction path generalizing i name with
  | nil =>
      rw [List.length_nil, Nat.add_zero] at hlen
      exact ⟨name, by rw [parseLoop, hlen]⟩
  | cons c path ih =>
      have hnul' : 0 ∉ path := fun hmem => hnul (List.mem_cons_of_mem _ hmem)
      rw [List.length_cons] at hlen
      have hshort : ¬ fnameLen ≤ i := by omega
      rw [parseLoop, if_neg hshort]
      dsimp only
      cases path with
      | nil =>
          rw [List.length_nil] at hlen
          have hi : i ≠ 0 := by
            unfold fnameLen at hlen
            omega
          have hfirst : Function.update name i (if c = slash then 0 else c) 0 ≠ 0 := by
            rw [Function.update_of_ne (Ne.symm hi)]
            exact hname.resolve_left hi
          have hlast : ¬ (c = slash ∧ ([] : List UInt8).getD 0 0 ≠ 0) := fun h => h.2 rfl
          rw [if_neg hlast, if_neg hfirst, parseLoop, hlen]
          split_ifs
          · exact ⟨_, rfl⟩
          · exact ⟨_, rfl⟩
      | cons c' path =>
          rw [List.dropLast_cons_cons, List.mem_cons, not_or] at hslash
          have hc : c ≠ slash := Ne.symm hslash.1
          rw [if_neg fun h => hc h.1, if_neg hc, if_neg hc]
          apply ih hnul' hslash.2 (by omega)
          right
          by_cases hi : i = 0
          · rw [hi, Function.update_self]
            exact fun hzero => hnul (hzero ▸ List.mem_cons_self)
          · rw [Function.update_of_ne (Ne.symm hi)]
            exact hname.resolve_left hi

end Loop

/-- The string of an array ends before its zeros. -/
theorem length_cString_le {b : Buf} {k n : Nat} (hk : b k = 0) : (cString b n).length ≤ k := by
  by_contra hlong
  rw [not_le] at hlong
  have hprefix := List.takeWhile_prefix (· ≠ (0 : UInt8)) (l := bytesAt b 0 n)
  have hbyte : (cString b n).getD k 0 = b k := by
    have hget := hprefix.getElem hlong
    have hlt : k < n := by
      have hle := hprefix.length_le
      rw [length_bytesAt] at hle
      exact lt_of_lt_of_le hlong hle
    rw [List.getD_eq_getElem _ _ hlong]
    refine hget.trans ?_
    simp [bytesAt]
  have hne : (cString b n).getD k 0 ≠ 0 := by
    rw [List.getD_eq_getElem _ _ hlong]
    simpa using List.mem_takeWhile_imp (List.getElem_mem hlong)
  exact hne (hbyte.trans hk)

theorem strncpyStores_inside {n : Nat} (hn : n ≤ fnameLen) : ∀ s ∈ strncpyStores n, s.Inside := by
  intro s hs
  obtain ⟨k, hk, rfl⟩ := List.mem_map.mp hs
  exact lt_of_lt_of_le (List.mem_range.mp hk) hn

/-- A copy of a record's name stays inside the array exactly when the name is shorter. -/
theorem fillStores_inside_iff {sb : Super} {d : Disk} {stk : Stack} {ext2Iop : Nat} {mem : Buf}
    {at_ : Nat} {e : Rec} :
    (∀ s ∈ (fillStores sb d stk ext2Iop mem at_ e).events, s.Inside) ↔
      e.name.length < fnameLen := by
  have hevents : (fillStores sb d stk ext2Iop mem at_ e).events =
      strncpyStores e.name.length ++ [.filename e.name.length] := rfl
  rw [hevents]
  constructor
  · intro h
    exact h (.filename e.name.length) (List.mem_append_right _ (List.mem_singleton_self _))
  · intro hlen s hs
    rw [List.mem_append, List.mem_singleton] at hs
    cases hs with
    | inl hname => exact strncpyStores_inside hlen.le s hname
    | inr hend =>
        rw [hend]
        exact hlen

section Paths

variable {sb : Super} {d : Disk} {sc : Scratch} {root : Dentry} {dTrav parent node : DentryPtr}

/-- A name that ends inside its array is copied inside the other one. -/
theorem parseLast_inside {name : Buf} {k : Nat} (hk : k < fnameLen) (hzero : name k = 0) :
    ∀ s ∈ (parseLastStores sb d sc root name dTrav node).events, s.Inside := by
  rw [parseLastStores]
  split_ifs
  · exact fun s hs => absurd hs List.not_mem_nil
  · exact fun s hs => absurd hs List.not_mem_nil
  · exact fun s hs => absurd hs List.not_mem_nil
  · dsimp only
    cases ilookup sb d sc.stk (dTrav.dentry root).iIno (node.dentry root)
      (cString name fnameLen) with
    | none => exact fun s hs => absurd hs List.not_mem_nil
    | some r =>
        dsimp only
        split_ifs
        · have hlen := @length_cString_le name k fnameLen hzero
          rw [Traced.events_emitAll_bind, Traced.events_pure, List.append_nil]
          exact strncpyStores_inside (by omega)
        · exact fun s hs => absurd hs List.not_mem_nil

/-- From the loop on, the stores stay inside their arrays unless the path fills `name`. -/
theorem parseFrom_inside_iff {path : List UInt8} (hnul : 0 ∉ path) :
    (∀ s ∈ (parseFromStores sb d sc root path dTrav parent node).events, s.Inside) ↔
      ¬ FillsName path := by
  constructor
  · rintro h ⟨hlen, hslash⟩
    have hlength : 0 + path.length = fnameLen := by rw [Nat.zero_add, hlen]
    have hstart : 0 = 0 ∨ sc.name 0 ≠ 0 := Or.inl rfl
    obtain ⟨name', hloop⟩ := @parseLoop_fills sb d sc root path hnul hslash _ hlength _ hstart dTrav
    rw [← value_parseLoopStores] at hloop
    have hstore : Store.name fnameLen ∈
        (parseFromStores sb d sc root path dTrav parent node).events :=
      Traced.mem_bind.mpr (Or.inr ⟨_, hloop, List.mem_cons_self⟩)
    exact absurd (h _ hstore) (lt_irrefl fnameLen)
  · intro hfits s hs
    cases Traced.mem_bind.mp hs with
    | inl hloop => exact parseLoop_inside path le_rfl sc.name dTrav s hloop
    | inr hend =>
        obtain ⟨loopEnd, hvalue, hend⟩ := hend
        rw [value_parseLoopStores] at hvalue
        cases loopEnd with
        | failed => exact absurd hend List.not_mem_nil
        | left name' j' dTrav' =>
            have hj : j' < fnameLen := by
              cases parseLoop_left path hnul le_rfl (Nat.zero_le _) hvalue with
              | inl hlt => exact hlt
              | inr hfull => exact absurd ⟨by omega, hfull.2.2.2⟩ hfits
            cases List.mem_cons.mp hend with
            | inl hhere =>
                rw [hhere]
                exact hj
            | inr hlast =>
                exact parseLast_inside hj (Function.update_self _ _ _) s hlast

/-- The stores of `parse_path` stay inside their arrays unless the path that it goes through
fills `name`. -/
theorem parsePath_inside_iff {vfs : Globals} {path : List UInt8} (hnul : 0 ∉ path) :
    (∀ s ∈ (parsePathStores sb d sc vfs path parent node).events, s.Inside) ↔
      ¬ FillsName (walked path) := by
  have hnul' : 0 ∉ walked path := by
    unfold walked
    split_ifs
    · exact fun hmem => hnul (List.mem_of_mem_tail hmem)
    · exact hnul
  rw [parsePathStores]
  by_cases hempty : path.getD 0 0 = 0
  · rw [if_pos hempty, eq_nil_of_getD hnul hempty]
    refine iff_of_true (fun s hs => absurd hs List.not_mem_nil) fun h => ?_
    exact absurd h.1 (by decide)
  · rw [if_neg hempty]
    by_cases hroot : path.getD 0 0 = slash ∨ firstChar vfs.curDentry = slash
    · rw [if_pos hroot]
      dsimp only
      by_cases hslashes : (walked path).getD 0 0 = slash ∧ (walked path).getD 1 0 = slash
      · rw [if_pos hslashes]
        refine iff_of_true (fun s hs => absurd hs List.not_mem_nil) fun h => ?_
        generalize walked path = p at hslashes h
        cases p with
        | nil => exact absurd hslashes.1 (by decide)
        | cons c p =>
            cases p with
            | nil => exact absurd hslashes.2 (show ¬ (0 : UInt8) = slash by decide)
            | cons c' p =>
                apply h.2
                rw [List.dropLast_cons_cons]
                exact hslashes.1 ▸ List.mem_cons_self
      · rw [if_neg hslashes]
        exact parseFrom_inside_iff hnul'
    · rw [if_neg hroot]
      have hwalked : walked path = path := if_neg fun h => hroot (Or.inl h.1)
      rw [hwalked]
      exact parseFrom_inside_iff hnul

/-- The names stay inside their arrays exactly for the paths that do not fill `name`, and for the
records with a name of less than 48 bytes. -/
theorem names_inside_iff (sb : Super) (d : Disk) (sc : Scratch) (vfs : Globals)
    (parent node : DentryPtr) (ext2Iop : Nat) (mem : Buf) (at_ : Nat) :
    (∀ path, 0 ∉ path →
      ((∀ s ∈ (parsePathStores sb d sc vfs path parent node).events, s.Inside) ↔
        ¬ FillsName (walked path))) ∧
    ∀ e, (∀ s ∈ (fillStores sb d sc.stk ext2Iop mem at_ e).events, s.Inside) ↔
      e.name.length < fnameLen :=
  ⟨fun _ hnul => parsePath_inside_iff hnul, fun _ => fillStores_inside_iff⟩

end Paths

/-! ## A name of 48 bytes -/

/-- 48 times the letter a. -/
def longName : List UInt8 := List.replicate 48 97

/-- The working directory is the root. -/
def atRoot : Globals := ⟨⟨[slash], 0, 0, 2, 0⟩, ⟨[slash], 0, 0, 2, 0⟩, .sRoot⟩

/-- `names_inside_iff` for the path of one letter. -/
theorem names_inside_iff_letter :
    (∀ s ∈ (parsePathStores smallGroup.sb (fun _ _ => 0) ⟨default, fun _ => 0, default⟩ atRoot [97]
        .sRoot .sRoot).events, s.Inside) ↔ ¬ FillsName (walked [97]) :=
  (names_inside_iff smallGroup.sb (fun _ _ => 0) ⟨default, fun _ => 0, default⟩ atRoot .sRoot .sRoot
    0 (fun _ => 0) 0).1 [97] (by decide)

/-- The path stores a zero behind `name`, and the record one behind `filename`. -/
theorem names_overflow :
    (¬ ∀ s ∈ (parsePathStores smallGroup.sb (fun _ _ => 0) ⟨default, fun _ => 0, default⟩ atRoot
        longName .sRoot .sRoot).events, s.Inside) ∧
    ¬ ∀ s ∈ (fillStores smallGroup.sb (fun _ _ => 0) default 0 (fun _ => 0) 0
        ⟨12, 1000, 1, longName⟩).events, s.Inside := by
  have hfills : FillsName (walked longName) := ⟨by decide, by decide⟩
  refine ⟨fun h => ?_, fun h => ?_⟩
  · exact (parsePath_inside_iff (by decide)).mp h hfills
  · exact absurd (fillStores_inside_iff.mp h) (by decide)

end Vfs
end NochOS
