import Mathlib.Algebra.Order.BigOperators.Group.List
import Mathlib.Data.List.Perm.Basic
import UdpTransfer.Timer.Insertion
import UdpTransfer.Timer.Expiration

/-!
# The schedule of a delta list

What a delta list is for: it keeps timers in the order in which they run out.
Its schedule lists every timer with its number and its deadline, the sum of the
times up to and including its own.  A new timer should come into the schedule
with the delay asked for, and a cancelled one should leave it, all others
staying as they are.  Both happen for some lists and delays only.
-/

namespace UdpTransfer.Timer

open Function
open UdpTransfer.Memory

structure Entry where
  timer : ℕ
  byteSeqNum : UInt32
  deadline : ℚ
  deriving DecidableEq

namespace Timers

/-- The entries of some cells, if `base` has passed in front of them. -/
def entriesFrom (num : ℕ → UInt32) (time : ℕ → ℚ) : ℚ → List ℕ → List Entry
  | _, [] => []
  | base, cell :: rest =>
      { timer := cell, byteSeqNum := num cell, deadline := base + time cell } ::
        entriesFrom num time (base + time cell) rest

def schedule (s : Timers) : List Entry :=
  entriesFrom s.num s.time 0 s.cells

/-- A list whose timers all wait for those in front of them. -/
structure DeltaList (s : Timers) : Prop where
  chain : Chain s s.cells
  nonneg : ∀ cell ∈ s.cells, 0 ≤ s.time cell

section Entries

variable {num num' : ℕ → UInt32} {time time' : ℕ → ℚ} {base x : ℚ}
variable {before after cells : List ℕ}

@[simp]
theorem map_timer_entriesFrom :
    (entriesFrom num time base cells).map Entry.timer = cells := by
  induction cells generalizing base with
  | nil => rfl
  | cons cell rest ih => rw [entriesFrom, List.map_cons, ih]

theorem map_byteSeqNum_entriesFrom :
    (entriesFrom num time base cells).map Entry.byteSeqNum = cells.map num := by
  induction cells generalizing base with
  | nil => rfl
  | cons cell rest ih => rw [entriesFrom, List.map_cons, ih, List.map_cons]

theorem timer_mem {entry : Entry} (hentry : entry ∈ entriesFrom num time base cells) :
    entry.timer ∈ cells := by
  rw [← @map_timer_entriesFrom num time base cells]
  exact List.mem_map_of_mem hentry

theorem entriesFrom_append :
    entriesFrom num time base (before ++ after) =
      entriesFrom num time base before ++
        entriesFrom num time (base + span time before) after := by
  induction before generalizing base with
  | nil => simp [entriesFrom, span]
  | cons cell rest ih =>
      rw [List.cons_append, entriesFrom, entriesFrom, ih, add_span_cons,
        List.cons_append]

theorem entriesFrom_congr (hnum : ∀ cell ∈ cells, num' cell = num cell)
    (htime : ∀ cell ∈ cells, time' cell = time cell) :
    entriesFrom num' time' base cells = entriesFrom num time base cells := by
  induction cells generalizing base with
  | nil => rfl
  | cons cell rest ih =>
      rw [List.forall_mem_cons] at hnum htime
      rw [entriesFrom, entriesFrom, hnum.1, htime.1, ih hnum.2 htime.2]

/-- Time added to the first timer moves all of them. -/
theorem entriesFrom_shift (hnodup : cells.Nodup) :
    entriesFrom num (shift time cells x) base cells =
      entriesFrom num time (base + x) cells := by
  cases cells with
  | nil => rfl
  | cons cell rest =>
      have hother := shift_tail time x hnodup
      have hbase : base + (time cell + x) = base + x + time cell := by ring
      rw [shift] at hother ⊢
      rw [entriesFrom, entriesFrom, update_self, hbase,
        entriesFrom_congr (fun _ _ => rfl) hother]

theorem entriesFrom_add :
    entriesFrom num time (base + x) cells =
      (entriesFrom num time base cells).map fun entry =>
        { entry with deadline := entry.deadline + x } := by
  induction cells generalizing base with
  | nil => rfl
  | cons cell rest ih =>
      have hbase : base + x + time cell = base + time cell + x := by ring
      rw [entriesFrom, entriesFrom, List.map_cons, hbase, ih]

theorem span_nonneg (hnonneg : ∀ cell ∈ cells, 0 ≤ time cell) :
    0 ≤ span time cells := by
  apply List.sum_nonneg
  intro value hvalue
  obtain ⟨cell, hcell, rfl⟩ := List.mem_map.1 hvalue
  exact hnonneg cell hcell

theorem deadline_bounds (hnonneg : ∀ cell ∈ cells, 0 ≤ time cell)
    {entry : Entry} (hentry : entry ∈ entriesFrom num time base cells) :
    base ≤ entry.deadline ∧ entry.deadline ≤ base + span time cells := by
  induction cells generalizing base with
  | nil => exact absurd hentry List.not_mem_nil
  | cons cell rest ih =>
      rw [List.forall_mem_cons] at hnonneg
      have hspan := span_nonneg hnonneg.2
      rw [span_cons]
      rcases List.mem_cons.1 hentry with rfl | hentry
      · constructor <;> simp only <;> linarith [hnonneg.1]
      · have := ih hnonneg.2 hentry
        constructor <;> linarith [hnonneg.1]

/-- No timer runs out before the first. -/
theorem first_deadline_le {cell : ℕ} {rest : List ℕ}
    (hnonneg : ∀ other ∈ rest, 0 ≤ time other) :
    ∀ entry ∈ entriesFrom num time base (cell :: rest),
      base + time cell ≤ entry.deadline := by
  rw [entriesFrom, List.forall_mem_cons]
  exact ⟨le_rfl, fun entry hentry => (deadline_bounds hnonneg hentry).1⟩

/-- Timers that wait for those in front of them run out in their order. -/
theorem entriesFrom_sorted (hnonneg : ∀ cell ∈ cells, 0 ≤ time cell) :
    (entriesFrom num time base cells).Pairwise fun entry other =>
      entry.deadline ≤ other.deadline := by
  induction cells generalizing base with
  | nil => exact .nil
  | cons cell rest ih =>
      rw [List.forall_mem_cons] at hnonneg
      refine .cons (fun other hother => ?_) (ih hnonneg.2)
      exact (deadline_bounds hnonneg.2 hother).1

end Entries

/-! ## insertValue -/

/-- `insertValue` does what it is for: the new timer runs out after `dtime`, the
others when they did, and the schedule stays in order. -/
def InsertsExactly (s : Timers) (dtime : ℚ) (port : ℤ) (byteSeqNum : UInt32) :
    Prop :=
  ∃ s', s.insertValue dtime port byteSeqNum = some s' ∧
    s'.schedule.Perm
      ({ timer := s.fresh, byteSeqNum := byteSeqNum, deadline := dtime } ::
        s.schedule) ∧
    s'.schedule.Pairwise fun entry other => entry.deadline ≤ other.deadline

/-- `dtime` falls in the gap in front of the last deadline, or comes at least as
long after it.  `prior` is the deadline in front of those listed. -/
def FitsLast (dtime : ℚ) : ℚ → List ℚ → Prop
  | _, [] => False
  | prior, [last] =>
      prior < dtime ∧ dtime < last ∨
        last < dtime ∧ last + (last - prior) ≤ dtime ∨
        prior = 0 ∧ dtime = last
  | _, next :: rest => FitsLast dtime next rest

/-- The delays that `insertValue` sets right, where timers run out at the
deadlines listed. -/
def Fits (dtime : ℚ) : List ℚ → Prop
  | [] => True
  | first :: rest =>
      dtime < first ∨ dtime = first ∧ dtime = 0 ∨
        first < dtime ∧ (rest = [] ∨ FitsLast dtime first rest)

theorem Chain.schedule_inserted {s s' : Timers} {before after : List ℕ}
    {byteSeqNum : UInt32} {delta : ℚ} (hchain : Chain s (before ++ after))
    (hinserted : Inserted s before after byteSeqNum delta s') :
    s'.schedule = entriesFrom s.num s.time 0 before ++
      { timer := s.fresh, byteSeqNum := byteSeqNum,
        deadline := span s.time before + delta } ::
      entriesFrom s.num s.time (span s.time before) after := by
  have hnodup := List.nodup_append.1 hchain.nodup
  obtain ⟨hnumBefore, hnumAfter⟩ :=
    List.forall_mem_append.1 (hinserted.num_old hchain)
  have htimeBefore := hinserted.time_before hchain
  obtain ⟨time, htime, htimeAfter⟩ := hinserted.time_after hchain
  have hafter : entriesFrom s'.num s'.time (span s.time before + delta) after =
      entriesFrom s.num s.time (span s.time before) after := by
    rw [htime, entriesFrom_shift hnodup.2.1, add_neg_cancel_right]
    exact entriesFrom_congr hnumAfter htimeAfter
  rw [schedule, hinserted.chain.cells_eq, entriesFrom_append,
    entriesFrom_congr hnumBefore htimeBefore, entriesFrom, zero_add,
    span_congr htimeBefore, hinserted.time_fresh hchain, hafter,
    hinserted.num_fresh]

/-- Up to the last deadline but one, `dtime` is out of reach. -/
theorem not_fitsLast {dtime prior : ℚ} {deadlines : List ℚ} (hpos : 0 < dtime)
    (hprior : dtime ≤ prior) (hdeadlines : ∀ last ∈ deadlines, dtime ≤ last) :
    ¬ FitsLast dtime prior deadlines := by
  induction deadlines generalizing prior with
  | nil => exact id
  | cons next rest ih =>
      rw [List.forall_mem_cons] at hdeadlines
      cases rest with
      | nil =>
          rintro (⟨h, -⟩ | ⟨h, -⟩ | ⟨h, -⟩)
          · exact h.not_ge hprior
          · exact h.not_ge hdeadlines.1
          · linarith
      | cons last rest => exact ih hdeadlines.1 hdeadlines.2

/-- What becomes of a new timer that comes to the last one. -/
theorem lateness_last_eq_zero_iff {time : ℕ → ℚ} {dtime elapse : ℚ} {cur : ℕ}
    (hcur : 0 ≤ time cur) (helapse : 0 ≤ elapse) (hbehind : elapse < dtime) :
    lateness time dtime elapse [cur] = 0 ↔
      FitsLast dtime elapse [elapse + time cur] := by
  rw [lateness, FitsLast]
  rcases lt_trichotomy (elapse + time cur) dtime with hlt | htie | hgt
  · rw [if_pos hlt]
    by_cases hpast : elapse + time cur + time cur ≤ dtime
    · by_cases hzero : elapse + time cur = 0
      · have hnone : time cur = 0 := by linarith
        rw [if_neg (by tauto), hnone]
        constructor
        · intro _
          exact .inr (.inl ⟨by linarith, by linarith⟩)
        · simp
      · rw [if_pos ⟨hpast, hzero⟩]
        exact ⟨fun _ => .inr (.inl ⟨hlt, by linarith⟩), fun _ => rfl⟩
    · rw [if_neg (by tauto), neg_eq_zero]
      constructor
      · intro hnone
        exact absurd (by linarith) hpast
      · rintro (⟨-, h⟩ | ⟨-, h⟩ | ⟨-, h⟩) <;> linarith
  · rw [if_neg htie.not_lt]
    by_cases hzero : elapse = 0
    · rw [if_neg (by tauto)]
      exact ⟨fun _ => .inr (.inr ⟨hzero, htie.symm⟩), fun _ => rfl⟩
    · rw [if_pos ⟨htie, hzero⟩]
      constructor
      · intro hnone
        linarith
      · rintro (⟨-, h⟩ | ⟨h, -⟩ | ⟨h, -⟩)
        · linarith
        · linarith
        · exact absurd h hzero
  · rw [if_neg hgt.not_gt, if_neg fun h => hgt.ne' h.1]
    exact ⟨fun _ => .inl ⟨hbehind, hgt⟩, fun _ => rfl⟩

/-- A new timer behind the head is set right where its delay fits the gap it
comes to. -/
theorem lateness_eq_zero_iff (num : ℕ → UInt32) {time : ℕ → ℚ} {dtime : ℚ}
    {cells : List ℕ} :
    ∀ {elapse : ℚ}, cells ≠ [] → (∀ cell ∈ cells, 0 ≤ time cell) →
      0 ≤ elapse → elapse < dtime →
      (lateness time dtime elapse cells = 0 ↔
        FitsLast dtime elapse
          ((entriesFrom num time elapse cells).map Entry.deadline)) := by
  induction cells with
  | nil =>
      intro elapse hcells
      exact absurd rfl hcells
  | cons cur rest ih =>
      intro elapse _ hnonneg helapse hbehind
      have hcur := hnonneg cur List.mem_cons_self
      cases rest with
      | nil => exact lateness_last_eq_zero_iff hcur helapse hbehind
      | cons next rest =>
          rw [List.forall_mem_cons] at hnonneg
          rw [lateness]
          by_cases hpass : elapse + time cur < dtime
          · rw [if_pos hpass]
            exact ih (by simp) hnonneg.2 (by linarith) hpass
          · rw [if_neg hpass]
            push Not at hpass
            constructor
            · intro hnone
              linarith
            · intro hfits
              change FitsLast dtime (elapse + time cur)
                ((entriesFrom num time (elapse + time cur) (next :: rest)).map
                  Entry.deadline) at hfits
              refine absurd hfits (not_fitsLast (by linarith) hpass ?_)
              intro deadline hdeadline
              obtain ⟨entry, hentry, rfl⟩ := List.mem_map.1 hdeadline
              exact hpass.trans (deadline_bounds hnonneg.2 hentry).1

theorem startLateness_eq_zero_iff {s : Timers} (hlist : DeltaList s)
    (dtime : ℚ) :
    startLateness s.time dtime s.cells = 0 ↔
      Fits dtime (s.schedule.map Entry.deadline) := by
  have hnonneg := hlist.nonneg
  rw [schedule]
  cases hcells : s.cells with
  | nil => simp [startLateness, entriesFrom, Fits]
  | cons first rest =>
      rw [hcells, List.forall_mem_cons] at hnonneg
      simp only [entriesFrom, List.map_cons, zero_add, Fits]
      rcases lt_trichotomy dtime (s.time first) with hlt | htie | hgt
      · rw [startLateness, if_neg hlt.ne, if_pos (.inl hlt)]
        simp [hlt]
      · rw [startLateness, if_pos htie, neg_eq_zero]
        constructor
        · exact fun hzero => .inr (.inl ⟨htie, hzero⟩)
        · rintro (h | ⟨-, h⟩ | ⟨h, -⟩)
          · exact absurd htie h.ne
          · exact h
          · exact absurd htie h.ne'
      · have hfront : ¬ (dtime < s.time first ∨
            dtime = s.time first ∧ dtime = 0) := by
          rintro (h | ⟨h, -⟩)
          · exact h.not_gt hgt
          · exact hgt.ne' h
        rw [startLateness_walk hgt]
        rw [← or_assoc, or_iff_right hfront, and_iff_right hgt]
        by_cases hrest : rest = []
        · simp [hrest, entriesFrom]
        · have hne : (entriesFrom s.num s.time (s.time first) rest).map
              Entry.deadline ≠ [] := by
            cases rest with
            | nil => exact absurd rfl hrest
            | cons next rest => simp [entriesFrom]
          rw [if_neg hrest, or_iff_right hne]
          have hstep : lateness s.time dtime 0 (first :: rest) =
              lateness s.time dtime (s.time first) rest := by
            cases rest with
            | nil => exact absurd rfl hrest
            | cons next rest => rw [lateness, zero_add, if_pos hgt]
          rw [hstep]
          exact lateness_eq_zero_iff s.num hrest hnonneg.2 hnonneg.1 hgt

/-- The schedule after a timer has come to its place is in order. -/
theorem Placed.sorted {s : Timers} {dtime : ℚ} {before after : List ℕ}
    {byteSeqNum : UInt32} (hplaced : Placed s.time dtime before after)
    (hnonneg : ∀ cell ∈ before ++ after, 0 ≤ s.time cell) :
    (entriesFrom s.num s.time 0 before ++
      { timer := s.fresh, byteSeqNum := byteSeqNum, deadline := dtime } ::
        entriesFrom s.num s.time (span s.time before) after).Pairwise
      fun entry other => entry.deadline ≤ other.deadline := by
  rw [List.forall_mem_append] at hnonneg
  have hbefore : ∀ entry ∈ entriesFrom s.num s.time 0 before,
      entry.deadline ≤ dtime := by
    intro entry hentry
    have hne : before ≠ [] := by
      rintro rfl
      exact List.not_mem_nil hentry
    have hle := (deadline_bounds hnonneg.1 hentry).2
    rw [zero_add] at hle
    exact hle.trans (hplaced.behind hne)
  have hafter : ∀ entry ∈ entriesFrom s.num s.time (span s.time before) after,
      dtime ≤ entry.deadline := by
    cases after with
    | nil => simp [entriesFrom]
    | cons next rest =>
        have hnext := hplaced.ahead next rfl
        rw [List.forall_mem_cons] at hnonneg
        exact fun entry hentry =>
          hnext.trans (first_deadline_le hnonneg.2.2 entry hentry)
  refine List.pairwise_append.2 ⟨entriesFrom_sorted hnonneg.1,
    .cons hafter (entriesFrom_sorted hnonneg.2), ?_⟩
  intro entry hentry other hother
  rcases List.mem_cons.1 hother with rfl | hother
  · exact hbefore entry hentry
  · exact (hbefore entry hentry).trans (hafter other hother)

/-- `insertValue` puts the new timer in the schedule, as late as it is. -/
theorem insertValue_schedule {s : Timers} (hlist : DeltaList s) (dtime : ℚ)
    (port : ℤ) (byteSeqNum : UInt32) :
    ∃ s' before after, s.insertValue dtime port byteSeqNum = some s' ∧
      s.schedule = before ++ after ∧
      s'.schedule = before ++
        { timer := s.fresh, byteSeqNum := byteSeqNum,
          deadline := dtime + startLateness s.time dtime s.cells } :: after ∧
      (startLateness s.time dtime s.cells = 0 →
        s'.schedule.Pairwise fun entry other =>
          entry.deadline ≤ other.deadline) := by
  obtain ⟨s', before, after, delta, hinsert, hcells, hinserted, hplace,
    hplaced⟩ := insertValue_spec hlist.chain dtime port byteSeqNum
  have hchain := hlist.chain
  have hnonneg := hlist.nonneg
  rw [hcells] at hchain hnonneg
  have hschedule := hchain.schedule_inserted hinserted
  rw [hplace] at hschedule
  refine ⟨s', _, _, hinsert, ?_, hschedule, fun hzero => ?_⟩
  · rw [schedule, hcells, entriesFrom_append, zero_add]
  · rw [hschedule, hzero, add_zero]
    exact (hplaced hzero).sorted hnonneg

theorem InsertsExactly.fits {s : Timers} {dtime : ℚ} {port : ℤ}
    {byteSeqNum : UInt32} (hlist : DeltaList s)
    (hexact : InsertsExactly s dtime port byteSeqNum) :
    Fits dtime (s.schedule.map Entry.deadline) := by
  obtain ⟨t, hinsert, hperm, -⟩ := hexact
  obtain ⟨s', before, after, hinsert', -, hschedule, -⟩ :=
    insertValue_schedule hlist dtime port byteSeqNum
  rw [hinsert, Option.some.injEq] at hinsert'
  subst hinsert'
  rw [← startLateness_eq_zero_iff hlist]
  have hmem := hperm.subset (show
    { timer := s.fresh, byteSeqNum := byteSeqNum,
      deadline := dtime + startLateness s.time dtime s.cells } ∈ t.schedule by
    rw [hschedule]
    simp)
  rcases List.mem_cons.1 hmem with heq | hmem
  · rw [Entry.mk.injEq] at heq
    linarith [heq.2.2]
  · have hfresh := timer_mem hmem
    exact absurd (List.mem_cons_of_mem 0 hfresh) hlist.chain.fresh_notMem

theorem Fits.insertsExactly {s : Timers} {dtime : ℚ} (hlist : DeltaList s)
    (hfits : Fits dtime (s.schedule.map Entry.deadline)) (port : ℤ)
    (byteSeqNum : UInt32) : InsertsExactly s dtime port byteSeqNum := by
  rw [← startLateness_eq_zero_iff hlist] at hfits
  obtain ⟨s', before, after, hinsert, hold, hschedule, hsorted⟩ :=
    insertValue_schedule hlist dtime port byteSeqNum
  refine ⟨s', hinsert, ?_, hsorted hfits⟩
  rw [hschedule, hold, hfits, add_zero]
  exact List.perm_middle

/-- `insertValue` is exact for a delay that fits, and for no other. -/
theorem insertsExactly_iff {s : Timers} (hlist : DeltaList s) (dtime : ℚ)
    (port : ℤ) (byteSeqNum : UInt32) :
    InsertsExactly s dtime port byteSeqNum ↔
      Fits dtime (s.schedule.map Entry.deadline) :=
  ⟨fun hexact => hexact.fits hlist,
    fun hfits => hfits.insertsExactly hlist port byteSeqNum⟩

/-- Two timers, with numbers 1 and 2. -/
def twoTimers (first second : ℚ) : Timers where
  head := 1
  tail := 2
  nodes := fun address =>
    if address = 1 then
      { dtime := first, port := 0, byteSeqNum := 1, prev := 0, next := 2 }
    else
      { dtime := second, port := 0, byteSeqNum := 2, prev := 1, next := 0 }
  fresh := 3

theorem cells_twoTimers (first second : ℚ) :
    (twoTimers first second).cells = [1, 2] := rfl

theorem deltaList_twoTimers {first second : ℚ} (hfirst : 0 ≤ first)
    (hsecond : 0 ≤ second) : DeltaList (twoTimers first second) := by
  constructor
  · rw [cells_twoTimers]
    refine ⟨⟨?_, by decide⟩, ?_, Nat.succ_pos 2⟩
    · simp [Links.Neighbours, succ, pred, twoTimers]
    · simp [twoTimers]
  · rw [cells_twoTimers]
    simp [time, twoTimers, hfirst, hsecond]

theorem schedule_twoTimers (first second : ℚ) :
    (twoTimers first second).schedule =
      [{ timer := 1, byteSeqNum := 1, deadline := first },
        { timer := 2, byteSeqNum := 2, deadline := first + second }] := by
  rw [schedule, cells_twoTimers]
  simp [entriesFrom, num, time, twoTimers]

/-- A timer that falls between the two is set right. -/
theorem insertsExactly_twoTimers : InsertsExactly (twoTimers 2 1) (5 / 2) 0 3 :=
  (insertsExactly_iff (deltaList_twoTimers (by norm_num) (by norm_num)) _ _ _).2
    (by
      rw [schedule_twoTimers]
      norm_num [Fits, FitsLast])

/-- A timer that ties with the head is set to run out at once. -/
theorem not_insertsExactly :
    ¬ ∀ s, DeltaList s → ∀ dtime, 0 ≤ dtime → ∀ port byteSeqNum,
      InsertsExactly s dtime port byteSeqNum := by
  intro hall
  have hlist := @deltaList_twoTimers 2 1 (by norm_num) (by norm_num)
  have hfits := (hall _ hlist 2 (by norm_num) 0 3).fits hlist
  rw [schedule_twoTimers] at hfits
  norm_num [Fits] at hfits

/-! ## removeValue -/

/-- `removeValue` does what it is for: the timer with the number leaves the
schedule, which stays as it was otherwise. -/
def RemovesExactly (s : Timers) (byteSeqNum : UInt32) : Prop :=
  ∃ cell s', s.removeValue byteSeqNum = some (0, some cell, s') ∧
    s'.schedule = s.schedule.filter fun entry => entry.byteSeqNum ≠ byteSeqNum

/-- The time of the timer with the number, if another stands behind it, is a
whole number of seconds that an `int` can hold. -/
def Carriable (s : Timers) (byteSeqNum : UInt32) : Prop :=
  ∀ cell ∈ s.cells, s.num cell = byteSeqNum →
    s.cells.getLast? = some cell ∨
      (⌊s.time cell⌋ : ℚ) = s.time cell ∧ s.time cell ≤ 2147483647

theorem Chain.schedule_removed {s s' : Timers} {before after : List ℕ}
    {cell : ℕ} (hchain : Chain s (before ++ cell :: after))
    (hremoved : Removed s before cell after s') :
    ∃ carried : ℤ, (after ≠ [] → toInt (s.time cell) = some carried) ∧
      s'.schedule = entriesFrom s.num s.time 0 before ++
        entriesFrom s.num s.time (span s.time before + carried) after := by
  obtain ⟨carried, htime, hint⟩ := hremoved.time
  have hnodup := List.nodup_append.1 hchain.nodup
  have hbefore := hremoved.time_before hchain
  refine ⟨carried, hint, ?_⟩
  rw [schedule, hremoved.chain.cells_eq, entriesFrom_append, zero_add,
    span_congr hbefore, hremoved.num,
    entriesFrom_congr (fun _ _ => rfl) hbefore, htime,
    entriesFrom_shift (List.nodup_cons.1 hnodup.2.1).2]

/-- The schedule without the timer in the middle. -/
theorem filter_schedule {s : Timers} {before after : List ℕ} {cell : ℕ}
    (hcells : s.cells = before ++ cell :: after)
    (hdistinct : (s.cells.map s.num).Nodup) :
    (s.schedule.filter fun entry => entry.byteSeqNum ≠ s.num cell) =
      entriesFrom s.num s.time 0 before ++
        entriesFrom s.num s.time (span s.time before + s.time cell) after := by
  rw [hcells, List.map_append, List.map_cons, List.nodup_middle,
    List.nodup_cons, List.mem_append, not_or] at hdistinct
  obtain ⟨⟨hbefore, hafter⟩, -⟩ := hdistinct
  have hkeep : ∀ (base : ℚ) (cells : List ℕ), s.num cell ∉ cells.map s.num →
      (entriesFrom s.num s.time base cells).filter
        (fun entry => entry.byteSeqNum ≠ s.num cell) =
        entriesFrom s.num s.time base cells := by
    intro base cells hcell
    rw [List.filter_eq_self]
    intro entry hentry
    rw [decide_eq_true_eq]
    intro heq
    rw [← @map_byteSeqNum_entriesFrom s.num s.time base cells, ← heq] at hcell
    exact hcell (List.mem_map_of_mem hentry)
  rw [schedule, hcells, entriesFrom_append, entriesFrom, List.filter_append,
    hkeep 0 before hbefore, List.filter_cons_of_neg (by simp), zero_add,
    hkeep _ after hafter]

theorem Carriable.removesExactly {s : Timers} {byteSeqNum : UInt32}
    (hlist : DeltaList s) (hdistinct : (s.cells.map s.num).Nodup)
    (hmem : byteSeqNum ∈ s.cells.map s.num)
    (hcarriable : Carriable s byteSeqNum) : RemovesExactly s byteSeqNum := by
  obtain ⟨cell, hcell, rfl⟩ := List.mem_map.1 hmem
  obtain ⟨before, after, hcells⟩ := List.append_of_mem hcell
  have hchain := hlist.chain
  rw [hcells] at hchain
  have hcarries : ∀ next ∈ after.head?,
      (⌊s.time cell⌋ : ℚ) = s.time cell ∧ s.time cell ≤ 2147483647 := by
    intro next hnext
    refine (hcarriable cell hcell rfl).resolve_left ?_
    rw [hcells, List.getLast?_append_cons]
    intro hlast
    cases after with
    | nil => cases hnext
    | cons other rest =>
        rw [List.getLast?_cons_cons] at hlast
        have hnodup := (List.nodup_append.1 hchain.nodup).2.1
        exact (List.nodup_cons.1 hnodup).1 (List.mem_of_getLast? hlast)
  have hfirst : ∀ other ∈ before, s.num other ≠ s.num cell := by
    intro other hother heq
    rw [hcells, List.map_append, List.map_cons, List.nodup_middle,
      List.nodup_cons] at hdistinct
    refine hdistinct.1 (List.mem_append_left _ ?_)
    rw [← heq]
    exact List.mem_map_of_mem hother
  have hreturns : (s.unlinkNode cell).isSome := by
    rw [unlinkNode_isSome hchain]
    cases after with
    | nil => exact .inl rfl
    | cons next rest =>
        obtain ⟨-, hfits⟩ := hcarries next rfl
        refine .inr (Option.isSome_iff_exists.2 ⟨_,
          (toInt_of_nonneg (hlist.nonneg cell hcell)).2 ⟨rfl, ?_⟩⟩)
        exact Int.floor_le_iff.2 (by push_cast; linarith)
  obtain ⟨s', hunlink⟩ := Option.isSome_iff_exists.1 hreturns
  refine ⟨cell, s', ?_, ?_⟩
  · rw [removeValue_present hchain hfirst rfl, hunlink]
    rfl
  · obtain ⟨carried, hint, hschedule⟩ :=
      hchain.schedule_removed (unlinkNode_removed hchain hunlink)
    rw [hschedule, filter_schedule hcells hdistinct]
    cases after with
    | nil => rfl
    | cons next rest =>
        have hcarried := (toInt_of_nonneg (hlist.nonneg cell hcell)).1
          (hint (by simp))
        rw [hcarried.1, (hcarries next rfl).1]

theorem RemovesExactly.carriable {s : Timers} {byteSeqNum : UInt32}
    (hlist : DeltaList s) (hdistinct : (s.cells.map s.num).Nodup)
    (hexact : RemovesExactly s byteSeqNum) : Carriable s byteSeqNum := by
  rintro cell hcell rfl
  obtain ⟨found, s', hremove, hfilter⟩ := hexact
  rcases removeValue_spec hlist.chain hremove with
    ⟨h, -⟩ | ⟨before, other, after, hcells, -, hnum, -, hremoved⟩
  · cases h
  · have hchain := hlist.chain
    rw [hcells] at hchain
    have hsame : other = cell :=
      List.inj_on_of_nodup_map hdistinct (by simp [hcells]) hcell hnum
    subst hsame
    obtain ⟨carried, hint, hschedule⟩ := hchain.schedule_removed hremoved
    rw [hschedule, filter_schedule hcells hdistinct] at hfilter
    cases after with
    | nil => exact .inl (by simp [hcells])
    | cons next rest =>
        have hrest := List.append_cancel_left hfilter
        simp only [entriesFrom, List.cons.injEq, Entry.mk.injEq] at hrest
        have hcarried : (carried : ℚ) = s.time other := by
          linarith [hrest.1.2.2]
        obtain ⟨hfloor, hfits⟩ :=
          (toInt_of_nonneg (hlist.nonneg other hcell)).1 (hint (by simp))
        rw [hfloor] at hcarried
        refine .inr ⟨hcarried, ?_⟩
        rw [← hcarried]
        exact_mod_cast hfits

/-- `removeValue` is exact where the time of the timer can be carried over whole,
and nowhere else. -/
theorem removesExactly_iff {s : Timers} (hlist : DeltaList s)
    (hdistinct : (s.cells.map s.num).Nodup) {byteSeqNum : UInt32}
    (hmem : byteSeqNum ∈ s.cells.map s.num) :
    RemovesExactly s byteSeqNum ↔ Carriable s byteSeqNum :=
  ⟨fun hexact => hexact.carriable hlist hdistinct,
    fun hcarriable => hcarriable.removesExactly hlist hdistinct hmem⟩

theorem removesExactly_twoTimers : RemovesExactly (twoTimers 2 1) 1 :=
  (removesExactly_iff (deltaList_twoTimers (by norm_num) (by norm_num))
    (by decide) (by decide)).2 (by
      rw [Carriable, cells_twoTimers]
      norm_num [num, time, twoTimers])

/-- Half a second is lost when the first timer is cancelled. -/
theorem not_removesExactly :
    ¬ ∀ s, DeltaList s → (s.cells.map s.num).Nodup →
      ∀ byteSeqNum ∈ s.cells.map s.num, RemovesExactly s byteSeqNum := by
  intro hall
  have hlist := @deltaList_twoTimers (3 / 2) 1 (by norm_num) (by norm_num)
  have hcarriable := (hall _ hlist (by decide) 1 (by decide)).carriable hlist
    (by decide) 1 (by decide) rfl
  rw [cells_twoTimers] at hcarriable
  norm_num [time, twoTimers] at hcarriable

end Timers

end UdpTransfer.Timer
