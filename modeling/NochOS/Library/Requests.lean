import Mathlib.Data.Finset.Card
import Mathlib.Data.List.Pairwise
import Mathlib.Logic.Function.Basic
import Mathlib.Tactic.Common

/-!
# Library - Requests on lines of different priority

Devices raise lines, and one controller hands the requests over, the most urgent line
first.  A line that has been handed over is in service until a number of acknowledgements
has arrived; it holds back the lines that are no more urgent than itself.  A line can be
masked, and lines can share a second mask.

Main results:

- Definitions `Lines`, `Service`, `Lines.next`, `Lines.log`: the controller and its runs.
- Theorem `Lines.taken_eq_some_iff`: which line is handed over.
- Theorem `Lines.Separate.next`: at most one line of each level is in service.
- Theorem `Lines.served_iff`: which request is handed over in the end.
- Theorem `Lines.reachable_iff`: which line can still be handed over at all.
-/

namespace NochOS
namespace Library

/-- Lines in the order of their urgency.  Lines of one level do not interrupt each other. -/
structure Lines (ι : Type) where
  order : List ι
  rank : ι → Nat
  level : ι → Nat
  /-- The line whose mask applies as well. -/
  via : ι → ι
  /-- The acknowledgements that end the service of a line; without any it never ends. -/
  acks : ι → Nat
  sorted : order.Pairwise fun a b => rank a < rank b
  graded : order.Pairwise fun a b => level a ≤ level b
  /-- No device raises a line that only passes on the requests of others. -/
  via_outside : ∀ n ∈ order, via n = n ∨ via n ∉ order

/-- The lines that are enabled, raised, and in service with so many acknowledgements to
come. -/
@[ext]
structure Service (ι : Type) where
  enabled : ι → Bool
  raised : ι → Bool
  active : ι → Option Nat

/-- What happens to a controller. -/
inductive LineEvent (ι : Type) where
  | enable (n : ι)
  | disable (n : ι)
  | raise (n : ι)
  | interrupt
  | acknowledge (n : ι)
deriving DecidableEq

namespace Lines

variable {ι : Type} {L : Lines ι} {s : Service ι} {n m : ι}

/-- A raised line that no mask holds back. -/
def heard (L : Lines ι) (s : Service ι) (n : ι) : Bool :=
  s.raised n && s.enabled n && s.enabled (L.via n)

/-- No line in service is as urgent. -/
def clear (L : Lines ι) (s : Service ι) (n : ι) : Bool :=
  L.order.all fun m => (s.active m).isNone || decide (L.level n < L.level m)

/-- The line that is handed over next. -/
def taken (L : Lines ι) (s : Service ι) : Option ι :=
  (L.order.find? (L.heard s)).filter (L.clear s)

/-! ## The line that is handed over -/

theorem rank_le_of_mem {as bs : List ι} (h : L.order = as ++ n :: bs) (hm : m ∈ L.order)
    (hnot : m ∉ as) : L.rank n ≤ L.rank m := by
  have hsorted := L.sorted
  rw [h] at hsorted hm
  rcases List.mem_append.mp hm with hm | hm
  · exact absurd hm hnot
  · rcases List.mem_cons.mp hm with rfl | hm
    · exact Nat.le_refl _
    · exact Nat.le_of_lt ((List.pairwise_cons.mp (List.pairwise_append.mp hsorted).2.1).1 m hm)

/-- Of two lines one is more urgent, and its level is not higher. -/
theorem apart (hn : n ∈ L.order) (hm : m ∈ L.order) (hne : n ≠ m) :
    (L.rank n < L.rank m ∧ L.level n ≤ L.level m) ∨
      (L.rank m < L.rank n ∧ L.level m ≤ L.level n) := by
  obtain ⟨as, bs, horder⟩ := List.append_of_mem hn
  have hsorted := L.sorted
  have hgraded := L.graded
  rw [horder] at hsorted hgraded hm
  rcases List.mem_append.mp hm with hm | hm
  · exact Or.inr ⟨(List.pairwise_append.mp hsorted).2.2 m hm n List.mem_cons_self,
      (List.pairwise_append.mp hgraded).2.2 m hm n List.mem_cons_self⟩
  · have hm := (List.mem_cons.mp hm).resolve_left hne.symm
    exact Or.inl ⟨(List.pairwise_cons.mp (List.pairwise_append.mp hsorted).2.1).1 m hm,
      (List.pairwise_cons.mp (List.pairwise_append.mp hgraded).2.1).1 m hm⟩

/-- Lines of one rank are one line. -/
theorem eq_of_rank (hn : n ∈ L.order) (hm : m ∈ L.order) (h : L.rank n = L.rank m) : n = m := by
  by_contra hne
  rcases apart hn hm hne with hlt | hlt <;> omega

/-- A line that is more urgent has no higher level. -/
theorem level_le (hn : n ∈ L.order) (hm : m ∈ L.order) (h : L.rank n ≤ L.rank m) :
    L.level n ≤ L.level m := by
  by_cases hne : n = m
  · subst hne
    exact Nat.le_refl _
  · rcases apart hn hm hne with hlt | hlt
    · exact hlt.2
    · omega

theorem clear_iff :
    L.clear s n = true ↔ ∀ m ∈ L.order, s.active m ≠ none → L.level n < L.level m := by
  simp only [clear, List.all_eq_true, Bool.or_eq_true, Option.isNone_iff_eq_none,
    decide_eq_true_eq]
  refine forall₂_congr fun m _ => ?_
  rw [ne_eq, or_iff_not_imp_left]

/-- A line is handed over if it is the most urgent of the raised lines that no mask holds
back, and more urgent than all lines in service. -/
theorem taken_eq_some_iff :
    L.taken s = some n ↔ n ∈ L.order ∧ L.heard s n = true ∧
      (∀ m ∈ L.order, L.heard s m = true → L.rank n ≤ L.rank m) ∧
      ∀ m ∈ L.order, s.active m ≠ none → L.level n < L.level m := by
  rw [taken, Option.filter_eq_some_iff, clear_iff, List.find?_eq_some_iff_append]
  constructor
  · rintro ⟨⟨hheard, as, bs, horder, hbefore⟩, hclear⟩
    have hmem : n ∈ L.order := horder ▸ by simp
    refine ⟨hmem, hheard, fun m hm hmheard => ?_, hclear⟩
    refine rank_le_of_mem horder hm fun hin => ?_
    have hfalse := hbefore m hin
    rw [hmheard] at hfalse
    exact absurd hfalse (by decide)
  · rintro ⟨hmem, hheard, hmin, hclear⟩
    obtain ⟨as, bs, horder⟩ := List.append_of_mem hmem
    refine ⟨⟨hheard, as, bs, horder, fun a ha => ?_⟩, hclear⟩
    have hsorted := L.sorted
    rw [horder] at hsorted
    have hlt : L.rank a < L.rank n :=
      (List.pairwise_append.mp hsorted).2.2 a ha n List.mem_cons_self
    have hin : a ∈ L.order := horder ▸ List.mem_append_left _ ha
    cases hah : L.heard s a with
    | false => rfl
    | true => exact absurd (hmin a hin hah) (by omega)

theorem taken_mem (h : L.taken s = some n) : n ∈ L.order := (taken_eq_some_iff.mp h).1

theorem heard_of_taken (h : L.taken s = some n) : L.heard s n = true :=
  (taken_eq_some_iff.mp h).2.1

theorem idle_of_taken (h : L.taken s = some n) : s.active n = none := by
  by_contra hactive
  exact absurd ((taken_eq_some_iff.mp h).2.2.2 n (taken_mem h) hactive) (Nat.lt_irrefl _)

/-- Some line is handed over when there is a raised line, and every line as urgent as it
may be handed over. -/
theorem exists_taken (hn : n ∈ L.order) (hheard : L.heard s n = true)
    (hclear : ∀ m ∈ L.order, L.rank m ≤ L.rank n → L.clear s m = true) :
    ∃ m, L.taken s = some m ∧ L.rank m ≤ L.rank n := by
  obtain ⟨m, hm⟩ : ∃ m, L.order.find? (L.heard s) = some m := by
    rw [← Option.isSome_iff_exists, List.find?_isSome]
    exact ⟨n, hn, hheard⟩
  obtain ⟨_, as, bs, horder, hbefore⟩ := List.find?_eq_some_iff_append.mp hm
  have hrank : L.rank m ≤ L.rank n := by
    refine rank_le_of_mem horder hn fun hin => ?_
    have hfalse := hbefore n hin
    rw [hheard] at hfalse
    exact absurd hfalse (by decide)
  have hmem : m ∈ L.order := horder ▸ by simp
  exact ⟨m, by rw [taken, Option.filter_eq_some_iff]; exact ⟨hm, hclear m hmem hrank⟩, hrank⟩

/-! ## Runs -/

section Runs

variable [DecidableEq ι]

/-- The effect of an event. -/
def next (L : Lines ι) (s : Service ι) : LineEvent ι → Service ι
  | .enable n => { s with enabled := Function.update s.enabled n true }
  | .disable n => { s with enabled := Function.update s.enabled n false }
  | .raise n => { s with raised := Function.update s.raised n true }
  | .interrupt =>
      match L.taken s with
      | none => s
      | some n =>
          { s with
            raised := Function.update s.raised n false
            active := Function.update s.active n (some (L.acks n)) }
  | .acknowledge n =>
      match s.active n with
      | some (k + 1) =>
          { s with active := Function.update s.active n (if k = 0 then none else some k) }
      | _ => s

/-- The line an event hands over. -/
def answer (L : Lines ι) (s : Service ι) : LineEvent ι → Option ι
  | .interrupt => L.taken s
  | _ => none

/-- A run. -/
def run (L : Lines ι) (s : Service ι) (events : List (LineEvent ι)) : Service ι :=
  events.foldl L.next s

/-- The lines a run hands over, in their order. -/
def log (L : Lines ι) : Service ι → List (LineEvent ι) → List ι
  | _, [] => []
  | s, e :: events => (L.answer s e).toList ++ log L (L.next s e) events

variable {events more : List (LineEvent ι)}

@[simp] theorem run_nil : L.run s [] = s := rfl

@[simp] theorem run_cons (e : LineEvent ι) :
    L.run s (e :: events) = L.run (L.next s e) events := rfl

theorem run_append : L.run s (events ++ more) = L.run (L.run s events) more :=
  List.foldl_append

theorem log_append : L.log s (events ++ more) = L.log s events ++ L.log (L.run s events) more := by
  induction events generalizing s with
  | nil => rfl
  | cons e events ih =>
      rw [List.cons_append, log, log, ih, run_cons, List.append_assoc]

theorem next_interrupt (h : L.taken s = some n) :
    L.next s .interrupt =
      { s with
        raised := Function.update s.raised n false
        active := Function.update s.active n (some (L.acks n)) } := by
  simp only [next, h]

theorem next_interrupt_none (h : L.taken s = none) : L.next s .interrupt = s := by
  simp only [next, h]

theorem next_acknowledge {k : Nat} (h : s.active n = some (k + 1)) :
    L.next s (.acknowledge n) =
      { s with active := Function.update s.active n (if k = 0 then none else some k) } := by
  simp only [next, h]

theorem next_acknowledge_rest (h : ∀ k, s.active n ≠ some (k + 1)) :
    L.next s (.acknowledge n) = s := by
  simp only [next]

/-- What an acknowledgement does to the lines in service. -/
theorem acknowledge_cases (L : Lines ι) (s : Service ι) (n : ι) :
    L.next s (.acknowledge n) = s ∨ ∃ k, s.active n = some (k + 1) ∧
      L.next s (.acknowledge n) =
        { s with active := Function.update s.active n (if k = 0 then none else some k) } := by
  by_cases h : ∃ k, s.active n = some (k + 1)
  · obtain ⟨k, hk⟩ := h
    exact Or.inr ⟨k, hk, next_acknowledge hk⟩
  · exact Or.inl (next_acknowledge_rest fun k hk => h ⟨k, hk⟩)

/-! ## One line of each level -/

/-- At most one line of each level is in service. -/
def Separate (L : Lines ι) (s : Service ι) : Prop :=
  ∀ m ∈ L.order, ∀ n ∈ L.order, s.active m ≠ none → s.active n ≠ none →
    L.level m = L.level n → m = n

omit [DecidableEq ι] in
theorem Separate.mono {t : Service ι} (h : L.Separate s)
    (hless : ∀ m ∈ L.order, t.active m ≠ none → s.active m ≠ none) : L.Separate t :=
  fun m hm n hn hma hna => h m hm n hn (hless m hm hma) (hless n hn hna)

theorem Separate.next (h : L.Separate s) (e : LineEvent ι) : L.Separate (L.next s e) := by
  cases e with
  | enable n => exact h
  | disable n => exact h
  | raise n => exact h
  | interrupt =>
      cases htaken : L.taken s with
      | none => rwa [next_interrupt_none htaken]
      | some k =>
          -- the line that is taken has a lower level than all lines in service
          have hlt := (taken_eq_some_iff.mp htaken).2.2.2
          rw [next_interrupt htaken]
          intro m hm n hn hma hna hlevel
          by_cases hmk : m = k <;> by_cases hnk : n = k
          · rw [hmk, hnk]
          · have := hlt n hn (by simpa [hnk] using hna)
            rw [hmk] at hlevel
            omega
          · have := hlt m hm (by simpa [hmk] using hma)
            rw [hnk] at hlevel
            omega
          · exact h m hm n hn (by simpa [hmk] using hma) (by simpa [hnk] using hna) hlevel
  | acknowledge k =>
      rcases acknowledge_cases L s k with hs | ⟨j, hj, hs⟩
      · rwa [hs]
      · rw [hs]
        refine h.mono fun m _ hma => ?_
        by_cases hmk : m = k
        · rw [hmk, hj]
          simp
        · simpa [hmk] using hma

/-! ## Services that never end -/

/-- A line whose service has no end stays in service. -/
theorem endless_next (h : s.active m = some 0) (e : LineEvent ι) :
    (L.next s e).active m = some 0 := by
  cases e with
  | enable n => exact h
  | disable n => exact h
  | raise n => exact h
  | interrupt =>
      cases htaken : L.taken s with
      | none => rwa [next_interrupt_none htaken]
      | some k =>
          have hne : m ≠ k := by
            rintro rfl
            rw [idle_of_taken htaken] at h
            exact absurd h (by simp)
          rw [next_interrupt htaken]
          simpa [hne] using h
  | acknowledge k =>
      rcases acknowledge_cases L s k with hs | ⟨j, hj, hs⟩
      · rwa [hs]
      · have hne : m ≠ k := by
          rintro rfl
          rw [hj] at h
          exact absurd h (by simp)
        rw [hs]
        simpa [hne] using h

/-- The services without an end are those of the lines without acknowledgements that were
handed over. -/
theorem endless_iff (events : List (LineEvent ι)) :
    (L.run s events).active m = some 0 ↔
      s.active m = some 0 ∨ (L.acks m = 0 ∧ m ∈ L.log s events) := by
  induction events generalizing s with
  | nil => simp [log]
  | cons e events ih =>
      rw [run_cons, ih, log, List.mem_append, Option.mem_toList]
      by_cases hzero : s.active m = some 0
      · simp [hzero, endless_next hzero e]
      · have hstep : (L.next s e).active m = some 0 ↔
            L.acks m = 0 ∧ L.answer s e = some m := by
          cases e with
          | enable n => simpa [next, answer] using hzero
          | disable n => simpa [next, answer] using hzero
          | raise n => simpa [next, answer] using hzero
          | interrupt =>
              cases htaken : L.taken s with
              | none => simpa [next_interrupt_none htaken, answer, htaken] using hzero
              | some k =>
                  rw [next_interrupt htaken, answer, htaken]
                  by_cases hmk : m = k
                  · subst hmk
                    simp
                  · simp [hmk, hzero, Ne.symm hmk]
          | acknowledge k =>
              rcases acknowledge_cases L s k with hs | ⟨j, hj, hs⟩
              · simpa [hs, answer] using hzero
              · rw [hs]
                by_cases hmk : m = k
                · subst hmk
                  by_cases hjz : j = 0 <;> simp [hjz, answer]
                · simpa [hmk, answer] using hzero
        rw [hstep]
        simp only [hzero, false_or]
        tauto

/-! ## Lines that were never enabled -/

/-- A line is enabled by an event, if not from the start. -/
theorem enabled_run (events : List (LineEvent ι)) (h : (L.run s events).enabled m = true) :
    s.enabled m = true ∨ .enable m ∈ events := by
  induction events generalizing s with
  | nil => exact Or.inl h
  | cons e events ih =>
      rcases ih h with hs | hin
      · cases e with
        | enable n =>
            by_cases hmn : m = n
            · exact Or.inr (hmn ▸ List.mem_cons_self)
            · exact Or.inl (by simpa [next, hmn] using hs)
        | disable n =>
            by_cases hmn : m = n
            · simp [next, hmn] at hs
            · exact Or.inl (by simpa [next, hmn] using hs)
        | raise n => exact Or.inl hs
        | interrupt =>
            cases htaken : L.taken s with
            | none => exact Or.inl (by rwa [next_interrupt_none htaken] at hs)
            | some k => exact Or.inl (by rwa [next_interrupt htaken] at hs)
        | acknowledge n =>
            rcases acknowledge_cases L s n with hsame | ⟨j, _, hsame⟩ <;> rw [hsame] at hs <;>
              exact Or.inl hs
      · exact Or.inr (List.mem_cons_of_mem _ hin)

/-- A line that is handed over was enabled. -/
theorem enabled_of_mem_log (events : List (LineEvent ι)) (h : m ∈ L.log s events) :
    s.enabled m = true ∨ .enable m ∈ events := by
  induction events generalizing s with
  | nil => exact absurd h (by simp [log])
  | cons e events ih =>
      rw [log, List.mem_append, Option.mem_toList] at h
      rcases h with h | h
      · cases e with
        | interrupt =>
            have hheard := heard_of_taken h
            simp only [heard, Bool.and_eq_true] at hheard
            exact Or.inl hheard.1.2
        | enable k => exact absurd h (by simp [answer])
        | disable k => exact absurd h (by simp [answer])
        | raise k => exact absurd h (by simp [answer])
        | acknowledge k => exact absurd h (by simp [answer])
      · rcases ih h with hs | hin
        · rcases enabled_run [e] hs with hs | hin
          · exact Or.inl hs
          · exact Or.inr (List.mem_cons.mpr (Or.inl (List.mem_singleton.mp hin)))
        · exact Or.inr (List.mem_cons_of_mem _ hin)

/-! ## Requests that are served -/

/-- An event after which no more is asked for than before. -/
def Settling : LineEvent ι → Prop
  | .interrupt => True
  | .acknowledge _ => True
  | _ => False

/-- All acknowledgements of one line. -/
theorem settle_line (n : ι) : ∀ (k : Nat) (s : Service ι), s.active n = some (k + 1) →
    L.run s (List.replicate (k + 1) (.acknowledge n)) =
        { s with active := Function.update s.active n none } ∧
      L.log s (List.replicate (k + 1) (.acknowledge n)) = [] := by
  intro k
  induction k with
  | zero =>
      intro s hs
      simp [next_acknowledge hs, log, answer]
  | succ k ih =>
      intro s hs
      have hnext := next_acknowledge (L := L) hs
      rw [if_neg (by omega)] at hnext
      obtain ⟨hrun, hlog⟩ := ih (L.next s (.acknowledge n)) (by rw [hnext]; simp)
      rw [List.replicate_succ, run_cons, hrun, log, hlog, hnext]
      simp [answer]

/-- All acknowledgements of all lines: only services without an end are left. -/
theorem settle (s : Service ι) (lines : List ι) :
    ∃ events t, (∀ e ∈ events, Settling e) ∧ L.run s events = t ∧ L.log s events = [] ∧
      t.enabled = s.enabled ∧ t.raised = s.raised ∧
      (∀ m, t.active m = s.active m ∨ t.active m = none) ∧
      ∀ m ∈ lines, t.active m = none ∨ t.active m = some 0 := by
  induction lines with
  | nil => exact ⟨[], s, by simp, rfl, rfl, rfl, rfl, fun _ => Or.inl rfl, by simp⟩
  | cons n lines ih =>
      obtain ⟨events, t, hset, hrun, hlog, hen, hra, hold, hdone⟩ := ih
      by_cases hn : ∃ k, t.active n = some (k + 1)
      · obtain ⟨k, hk⟩ := hn
        obtain ⟨hrun', hlog'⟩ := settle_line (L := L) n k t hk
        refine ⟨events ++ List.replicate (k + 1) (.acknowledge n),
          { t with active := Function.update t.active n none }, ?_, ?_, ?_, hen, hra, ?_, ?_⟩
        · intro e he
          rcases List.mem_append.mp he with he | he
          · exact hset e he
          · rw [List.eq_of_mem_replicate he]
            trivial
        · rw [run_append, hrun, hrun']
        · rw [log_append, hlog, hrun, hlog', List.append_nil]
        · intro m
          by_cases hmn : m = n
          · simp [hmn]
          · simpa [hmn] using hold m
        · intro m hm
          by_cases hmn : m = n
          · simp [hmn]
          · simpa [hmn] using hdone m ((List.mem_cons.mp hm).resolve_left hmn)
      · refine ⟨events, t, hset, hrun, hlog, hen, hra, hold, fun m hm => ?_⟩
        rcases List.mem_cons.mp hm with rfl | hm
        · cases hactive : t.active m with
          | none => exact Or.inl rfl
          | some k =>
              cases k with
              | zero => exact Or.inr rfl
              | succ k => exact absurd ⟨k, hactive⟩ hn
        · exact hdone m hm

/-- Nothing holds a line back for ever: it is heard, no service without an end is as urgent,
and no line before it has such a service ahead. -/
structure Free (L : Lines ι) (s : Service ι) (n : ι) : Prop where
  heard : L.heard s n = true
  above : ∀ m ∈ L.order, s.active m = some 0 → L.level n < L.level m
  before : ∀ m ∈ L.order, L.rank m < L.rank n → L.heard s m = true → L.acks m ≠ 0

omit [DecidableEq ι] in
theorem heard_congr {t : Service ι} (hen : t.enabled = s.enabled) (hra : t.raised m = s.raised m) :
    L.heard t m = L.heard s m := by
  simp only [heard, hen, hra]

/-- Where a line is not free, settling events do not hand it over and do not free it. -/
theorem not_free_next (hn : n ∈ L.order) (h : ¬ L.Free s n) {e : LineEvent ι} (he : Settling e) :
    L.answer s e ≠ some n ∧ ¬ L.Free (L.next s e) n := by
  cases e with
  | enable k => exact he.elim
  | disable k => exact he.elim
  | raise k => exact he.elim
  | acknowledge k =>
      refine ⟨by simp [answer], fun hfree => h ?_⟩
      have hsame : (L.next s (.acknowledge k)).enabled = s.enabled ∧
          (L.next s (.acknowledge k)).raised = s.raised := by
        rcases acknowledge_cases L s k with hs | ⟨j, _, hs⟩ <;> rw [hs] <;> exact ⟨rfl, rfl⟩
      have hheard : ∀ m, L.heard (L.next s (.acknowledge k)) m = L.heard s m := fun m =>
        heard_congr hsame.1 (congrFun hsame.2 m)
      exact ⟨hheard n ▸ hfree.heard, fun m hm hzero => hfree.above m hm (endless_next hzero _),
        fun m hm hlt hmh => hfree.before m hm hlt ((hheard m).trans hmh)⟩
  | interrupt =>
      cases htaken : L.taken s with
      | none =>
          rw [next_interrupt_none htaken]
          exact ⟨by simp [answer, htaken], h⟩
      | some k =>
          obtain ⟨hk, hkheard, hkmin, hkclear⟩ := taken_eq_some_iff.mp htaken
          have hzero : ∀ m, s.active m = some 0 → (L.next s .interrupt).active m = some 0 :=
            fun m hm => endless_next hm _
          rw [next_interrupt htaken] at hzero ⊢
          constructor
          · -- the line that is taken is free
            rintro heq
            obtain rfl : k = n := Option.some.inj (htaken.symm.trans heq)
            exact h ⟨hkheard, fun m hm hz => hkclear m hm (by simp [hz]),
              fun m hm hlt hmh => absurd (hkmin m hm hmh) (by omega)⟩
          · intro hfree
            have hne : n ≠ k := by
              rintro rfl
              simpa [Lines.heard] using hfree.heard
            refine h ⟨?_, fun m hm hz => hfree.above m hm (hzero m hz), fun m hm hlt hmh => ?_⟩
            · simpa [Lines.heard, hne] using hfree.heard
            · by_cases hmk : m = k
              · -- a service without an end would now hold the line back
                subst hmk
                intro hacks
                have habove := hfree.above m hm (by simp [hacks])
                have hle := level_le hm hn (Nat.le_of_lt hlt)
                omega
              · exact hfree.before m hm hlt (by simpa [Lines.heard, hmk] using hmh)

/-- A line that is free is handed over after some settling events. -/
theorem Free.served (hn : n ∈ L.order) (h : L.Free s n) :
    ∃ events, (∀ e ∈ events, Settling e) ∧ n ∈ L.log s events := by
  -- induction on the number of lines that are heard
  induction hcount : (L.order.toFinset.filter fun m => L.heard s m = true).card
    using Nat.strong_induction_on generalizing s with
  | _ count ih =>
      obtain ⟨es, t, hset, hrun, hlog, hen, hra, hold, hdone⟩ := settle (L := L) s L.order
      have hheard : ∀ m, L.heard t m = L.heard s m := fun m => heard_congr hen (congrFun hra m)
      have hzero : ∀ m, t.active m = some 0 → s.active m = some 0 := fun m hm => by
        rcases hold m with hsame | hnone
        · exact hsame ▸ hm
        · rw [hnone] at hm
          exact absurd hm (by simp)
      have hclear : ∀ m ∈ L.order, L.rank m ≤ L.rank n → L.clear t m = true := by
        intro m hm hrank
        refine clear_iff.mpr fun k hk hactive => ?_
        have hlt := h.above k hk (hzero k ((hdone k hk).resolve_left hactive))
        have hle := level_le hm hn hrank
        omega
      obtain ⟨m, htaken, hrank⟩ := exists_taken hn ((hheard n).trans h.heard) hclear
      have hm := taken_mem htaken
      by_cases hmn : m = n
      · refine ⟨es ++ [.interrupt], ?_, ?_⟩
        · intro e he
          rcases List.mem_append.mp he with he | he
          · exact hset e he
          · rw [List.mem_singleton.mp he]
            trivial
        · rw [log_append, hrun, log, answer, htaken, hmn]
          simp
      · have hlt : L.rank m < L.rank n := by
          have hne : L.rank m ≠ L.rank n := fun heq => hmn (eq_of_rank hm hn heq)
          omega
        have hmheard : L.heard s m = true := (hheard m).symm.trans (heard_of_taken htaken)
        have hacks : L.acks m ≠ 0 := h.before m hm hlt hmheard
        have hnext := next_interrupt htaken
        have hrest : ∀ k, L.heard (L.next t .interrupt) k = true → L.heard s k = true := by
          intro k hk
          rw [← hheard k]
          by_cases hkm : k = m
          · rw [hnext] at hk
            simp [Lines.heard, hkm] at hk
          · rw [hnext] at hk
            simpa [Lines.heard, hkm] using hk
        have hfree : L.Free (L.next t .interrupt) n := by
          refine ⟨?_, fun k hk hz => ?_, fun k hk hklt hkh => h.before k hk hklt (hrest k hkh)⟩
          · have hnh := (hheard n).trans h.heard
            rw [hnext]
            simpa [Lines.heard, Ne.symm hmn] using hnh
          · rw [hnext] at hz
            by_cases hkm : k = m
            · simp [hkm, hacks] at hz
            · exact h.above k hk (hzero k (by simpa [hkm] using hz))
        -- the line that was taken is not heard any more
        have hless :
            (L.order.toFinset.filter fun k => L.heard (L.next t .interrupt) k = true).card <
              count := by
          rw [← hcount]
          refine Finset.card_lt_card ⟨fun k hk => ?_, fun hsub => ?_⟩
          · rw [Finset.mem_filter] at hk ⊢
            exact ⟨hk.1, hrest k hk.2⟩
          · have hin := hsub (Finset.mem_filter.mpr ⟨List.mem_toFinset.mpr hm, hmheard⟩)
            rw [Finset.mem_filter, hnext] at hin
            simpa [Lines.heard] using hin.2
        obtain ⟨more, hmore, hin⟩ := ih _ hless hfree rfl
        refine ⟨es ++ .interrupt :: more, ?_, ?_⟩
        · intro e he
          rcases List.mem_append.mp he with he | he
          · exact hset e he
          · rcases List.mem_cons.mp he with rfl | he
            · trivial
            · exact hmore e he
        · rw [log_append, hrun, log]
          exact List.mem_append_right _ (List.mem_append_right _ hin)

/-- A request is handed over in the end, whatever more is asked for being left out, exactly
if nothing holds it back for ever. -/
theorem served_iff (hn : n ∈ L.order) :
    (∃ events, (∀ e ∈ events, Settling e) ∧ n ∈ L.log s events) ↔ L.Free s n := by
  refine ⟨?_, Free.served hn⟩
  rintro ⟨events, hset, hin⟩
  by_contra hnot
  induction events generalizing s with
  | nil => exact absurd hin (by simp [log])
  | cons e events ih =>
      obtain ⟨hanswer, hnext⟩ := not_free_next hn hnot (hset e List.mem_cons_self)
      rw [log, List.mem_append, Option.mem_toList] at hin
      exact ih (fun e' he' => hset e' (List.mem_cons_of_mem _ he')) (hin.resolve_left hanswer) hnext

/-- Ask for one line and for no other one. -/
def only (L : Lines ι) (n : ι) : List (LineEvent ι) :=
  L.order.map .disable ++ [.enable n, .enable (L.via n), .raise n]

theorem run_disable (s : Service ι) (lines : List ι) :
    L.run s (lines.map .disable) =
      { s with enabled := fun m => s.enabled m && !decide (m ∈ lines) } := by
  induction lines generalizing s with
  | nil => simp
  | cons k lines ih =>
      rw [List.map_cons, run_cons, ih]
      refine Service.ext (funext fun m => ?_) rfl rfl
      by_cases hmk : m = k <;> simp [next, hmk]

/-- A line can still be handed over in some continuation of the run exactly if all services
without an end are less urgent. -/
theorem reachable_iff (hn : n ∈ L.order) :
    (∃ events, n ∈ L.log s events) ↔
      ∀ m ∈ L.order, s.active m = some 0 → L.level n < L.level m := by
  constructor
  · rintro ⟨events, hin⟩ m hm hzero
    induction events generalizing s with
    | nil => exact absurd hin (by simp [log])
    | cons e events ih =>
        rw [log, List.mem_append, Option.mem_toList] at hin
        rcases hin with hin | hin
        · cases e with
          | interrupt => exact (taken_eq_some_iff.mp hin).2.2.2 m hm (by simp [hzero])
          | enable k => exact absurd hin (by simp [answer])
          | disable k => exact absurd hin (by simp [answer])
          | raise k => exact absurd hin (by simp [answer])
          | acknowledge k => exact absurd hin (by simp [answer])
        · exact ih hin (endless_next hzero e)
  · intro habove
    have hrun : L.run s (L.only n) =
        ⟨Function.update (Function.update (fun m => s.enabled m && !decide (m ∈ L.order)) n true)
          (L.via n) true, Function.update s.raised n true, s.active⟩ := by
      rw [only, run_append, run_disable]
      rfl
    have hheard : ∀ m ∈ L.order, L.heard (L.run s (L.only n)) m = true → m = n := by
      intro m hm hmh
      by_contra hmn
      have hmvia : m ≠ L.via n := by
        rintro rfl
        rcases L.via_outside n hn with hvia | hvia
        · exact hmn hvia
        · exact hvia hm
      rw [hrun] at hmh
      simp [Lines.heard, hmn, hmvia, hm] at hmh
    have hfree : L.Free (L.run s (L.only n)) n := by
      refine ⟨?_, fun m hm hz => habove m hm ?_, fun m hm hlt hmh => ?_⟩
      · rw [hrun]
        by_cases hvia : n = L.via n
        · simp [Lines.heard, ← hvia]
        · simp [Lines.heard, hvia]
      · rw [hrun] at hz
        exact hz
      · rw [hheard m hm hmh] at hlt
        exact absurd hlt (Nat.lt_irrefl _)
    obtain ⟨events, _, hin⟩ := hfree.served hn
    exact ⟨L.only n ++ events, by rw [log_append]; exact List.mem_append_right _ hin⟩

end Runs

end Lines

end Library
end NochOS
