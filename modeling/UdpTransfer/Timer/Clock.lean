import UdpTransfer.Core.Runs
import UdpTransfer.Timer.Insertion
import UdpTransfer.Timer.Expiration

/-!
# The main loop and its clock

A round of the loop takes the commands of a datagram that has arrived, if any,
and then calls `decrement` with the time since the last round.  For each timer
stands when it is due: the clock reading at which its start command was
received, plus its delay.  The delta list does not keep all timers until they
are due; it does so in a run whose steps are all `InTime`.
-/

namespace UdpTransfer.Timer

open Function
open UdpTransfer.Memory
open UdpTransfer.Runs

structure Clock where
  timers : Timers
  /-- The reading at the last call of `decrement`. -/
  prev : ℚ
  reading : ℚ
  due : ℕ → ℚ
  /-- Every notice sent, with the reading at which it was. -/
  sent : List (Notice × ℚ)

inductive Event where
  | start (t delay : ℚ) (byteSeqNum : UInt32)
  | cancel (t : ℚ) (byteSeqNum : UInt32)
  | decrement (now : ℚ)

/-- The clock reading at which an event happens. -/
def Event.reading : Event → ℚ
  | .start t _ _ => t
  | .cancel t _ => t
  | .decrement now => now

namespace Clock

def start (reading : ℚ) : Clock where
  timers := Timers.start
  prev := reading
  reading := reading
  due := fun _ => reading
  sent := []

def step (c : Clock) : Event → Option Clock
  | .start t delay byteSeqNum =>
      (c.timers.insertValue delay 0 byteSeqNum).map fun s =>
        { c with
          timers := s
          reading := t
          due := update c.due c.timers.fresh (t + delay) }
  | .cancel t byteSeqNum =>
      (c.timers.removeValue byteSeqNum).map fun (_, _, s) =>
        { c with
          timers := s
          reading := t }
  | .decrement now =>
      (c.timers.decrement c.prev now).map fun (notices, s) =>
        { c with
          timers := s
          prev := now
          reading := now
          sent := c.sent ++ notices.map fun n => (n, now) }

end Clock

def clock : System Clock Event where
  initial c := ∃ reading, c = Clock.start reading
  step c e c' := c.reading ≤ e.reading ∧ c.step e = some c'

/-! ## Deadlines -/

section Deadlines

variable {due time time' : ℕ → ℚ} {base base' x : ℚ} {cells before after : List ℕ}

/-- Every timer runs out when it is due, or later, if the time of the first
begins at `base`. -/
def Timely (due time : ℕ → ℚ) : ℚ → List ℕ → Prop
  | _, [] => True
  | base, cell :: rest =>
      due cell ≤ base + time cell ∧ Timely due time (base + time cell) rest

theorem timely_append :
    Timely due time base (before ++ after) ↔
      Timely due time base before ∧
        Timely due time (base + Timers.span time before) after := by
  induction before generalizing base with
  | nil => simp [Timely, Timers.span]
  | cons cell rest ih =>
      rw [List.cons_append, Timely, Timely, ih, Timers.add_span_cons, and_assoc]

theorem Timely.mono (htimely : Timely due time base cells)
    (hbase : base ≤ base') : Timely due time base' cells := by
  induction cells generalizing base base' with
  | nil => trivial
  | cons cell rest ih =>
      have hnext : base + time cell ≤ base' + time cell := by linarith
      exact ⟨htimely.1.trans hnext, ih htimely.2 hnext⟩

theorem Timely.congr {due' : ℕ → ℚ} (htimely : Timely due time base cells)
    (hdue : ∀ cell ∈ cells, due' cell = due cell)
    (htime : ∀ cell ∈ cells, time' cell = time cell) :
    Timely due' time' base cells := by
  induction cells generalizing base with
  | nil => trivial
  | cons cell rest ih =>
      rw [List.forall_mem_cons] at hdue htime
      rw [Timely, hdue.1, htime.1]
      exact ⟨htimely.1, ih htimely.2 hdue.2 htime.2⟩

/-- Time added to the first timer moves all of them. -/
theorem timely_shift (hnodup : cells.Nodup) :
    Timely due (Timers.shift time cells x) base cells ↔
      Timely due time (base + x) cells := by
  cases cells with
  | nil => rfl
  | cons cell rest =>
      have hother := Timers.shift_tail time x hnodup
      have hbase : base + (time cell + x) = base + x + time cell := by ring
      rw [Timers.shift] at hother ⊢
      rw [Timely, Timely, update_self, hbase]
      refine and_congr_right fun _ => ⟨fun h => ?_, fun h => ?_⟩
      · exact h.congr (fun _ _ => rfl) fun other hmem => (hother other hmem).symm
      · exact h.congr (fun _ _ => rfl) hother

/-- Where the timers that run out, but for the last of the list, are less than a
second overdue when the time that is carried on reaches them. -/
def Punctual (time : ℕ → ℚ) : ℚ → List ℕ → Prop
  | _, [] => True
  | _, [_] => True
  | carried, cell :: next :: rest =>
      carried + time cell ≤ 0 →
        -1 < carried + time cell ∧
          Punctual time (carried + time cell) (next :: rest)

theorem Punctual.congr (hpunctual : Punctual time base cells)
    (htime : ∀ cell ∈ cells, time' cell = time cell) :
    Punctual time' base cells := by
  induction cells generalizing base with
  | nil => trivial
  | cons cell rest ih =>
      rw [List.forall_mem_cons] at htime
      cases rest with
      | nil => trivial
      | cons next rest =>
          rw [Punctual] at hpunctual ⊢
          rw [htime.1]
          exact fun hdue => ⟨(hpunctual hdue).1, ih (hpunctual hdue).2 htime.2⟩

theorem punctual_shift (hnodup : cells.Nodup)
    (hpunctual : Punctual time (base + x) cells) :
    Punctual (Timers.shift time cells x) base cells := by
  match cells with
  | [] => trivial
  | [_] => trivial
  | cell :: next :: rest =>
      have hother := Timers.shift_tail time x hnodup
      have hbase : base + (time cell + x) = base + x + time cell := by ring
      rw [Punctual] at hpunctual
      rw [Timers.shift] at hother ⊢
      rw [Punctual, update_self, hbase]
      exact fun hdue =>
        ⟨(hpunctual hdue).1, (hpunctual hdue).2.congr hother⟩

end Deadlines

/-- The steps that let no timer run out early.  A timer is started at the
reading of the last round, or is set so much too late that the time since then
makes no difference; a timer with others behind it is cancelled while it has
whole seconds to run, or none; and no timer before the last is found overdue by
a second or more. -/
def InTime (c : Clock) : Event → Prop
  | .start t delay _ =>
      t - c.prev ≤ Timers.startLateness c.timers.time delay c.timers.cells
  | .cancel _ byteSeqNum =>
      ∀ before cell after, c.timers.cells = before ++ cell :: after →
        (∀ other ∈ before, c.timers.num other ≠ byteSeqNum) →
        c.timers.num cell = byteSeqNum →
        after = [] ∨ c.timers.time cell ≤ 0 ∨
          (⌊c.timers.time cell⌋ : ℚ) = c.timers.time cell
  | .decrement now =>
      Punctual c.timers.time (c.prev - now) c.timers.cells

/-! ## The steps -/

theorem le_toInt {time : ℚ} {carried : ℤ}
    (hwhole : time ≤ 0 ∨ (⌊time⌋ : ℚ) = time)
    (hcarried : Timers.toInt time = some carried) : time ≤ carried := by
  rw [Timers.toInt, signedInt_eq_some] at hcarried
  rw [hcarried.1]
  by_cases hpositive : 0 ≤ time
  · rw [if_pos hpositive]
    rcases hwhole with hle | hwhole
    · rw [le_antisymm hle hpositive]
      simp
    · exact hwhole.ge
  · rw [if_neg hpositive]
    exact Int.le_ceil time

theorem toInt_fraction {time : ℚ} {carried : ℤ} (hlow : -1 < time)
    (hhigh : time ≤ 0) (hcarried : Timers.toInt time = some carried) :
    carried = 0 := by
  rw [Timers.toInt, signedInt_eq_some] at hcarried
  rw [hcarried.1]
  by_cases hpositive : 0 ≤ time
  · rw [if_pos hpositive, le_antisymm hhigh hpositive]
    rfl
  · rw [if_neg hpositive, Int.ceil_eq_iff]
    constructor
    · simpa using hlow
    · simpa using hhigh

/-- The list keeps every timer until it is due, and no notice was sent early. -/
structure Kept (c : Clock) (cells : List ℕ) : Prop where
  chain : c.timers.Chain cells
  timely : Timely c.due c.timers.time c.prev cells
  sent : ∀ sent ∈ c.sent, c.due sent.1.timer ≤ sent.2
  known : ∀ sent ∈ c.sent, sent.1.timer < c.timers.fresh

/-- A new timer changes when no other timer runs out. -/
theorem Timely.inserted {s s' : Timers} {due : ℕ → ℚ} {base delta : ℚ}
    {before after : List ℕ} {byteSeqNum : UInt32}
    (hchain : s.Chain (before ++ after))
    (htimely : Timely due s.time base (before ++ after))
    (hinserted : s.Inserted before after byteSeqNum delta s') {dueNew : ℚ}
    (hnew : dueNew ≤ base + (Timers.span s.time before + delta)) :
    Timely (update due s.fresh dueNew) s'.time base
      (before ++ s.fresh :: after) := by
  have hfresh := hchain.fresh_notMem
  simp only [List.mem_cons, List.mem_append, not_or] at hfresh
  obtain ⟨-, hnotBefore, hnotAfter⟩ := hfresh
  obtain ⟨hbefore, hafter⟩ := timely_append.1 htimely
  have hnodup := List.nodup_append.1 hchain.nodup
  have hdue : ∀ cells : List ℕ, s.fresh ∉ cells → ∀ cell ∈ cells,
      update due s.fresh dueNew cell = due cell := by
    intro cells hcells cell hcell
    rw [update_of_ne]
    rintro rfl
    exact hcells hcell
  have htimeBefore := hinserted.time_before hchain
  have htimeFresh := hinserted.time_fresh hchain
  obtain ⟨time, htime, htimeAfter⟩ := hinserted.time_after hchain
  refine timely_append.2
    ⟨hbefore.congr (hdue before hnotBefore) htimeBefore, ?_⟩
  rw [Timers.span_congr htimeBefore, Timely, htimeFresh, update_self]
  refine ⟨by rwa [add_assoc], ?_⟩
  rw [htime, timely_shift hnodup.2.1, add_neg_cancel_right]
  exact hafter.congr (hdue after hnotAfter) htimeAfter

theorem Timely.removed {s s' : Timers} {due : ℕ → ℚ} {base : ℚ}
    {before after : List ℕ} {cell : ℕ}
    (hchain : s.Chain (before ++ cell :: after))
    (htimely : Timely due s.time base (before ++ cell :: after))
    (hremoved : s.Removed before cell after s')
    (hwhole : after = [] ∨ s.time cell ≤ 0 ∨
      (⌊s.time cell⌋ : ℚ) = s.time cell) :
    Timely due s'.time base (before ++ after) := by
  obtain ⟨carried, htime, hint⟩ := hremoved.time
  obtain ⟨hbefore, -, hafter⟩ := timely_append.1 htimely
  have hnodup := List.nodup_append.1 hchain.nodup
  have hcells := List.nodup_cons.1 hnodup.2.1
  have htimeBefore := hremoved.time_before hchain
  refine timely_append.2 ⟨hbefore.congr (fun _ _ => rfl) htimeBefore, ?_⟩
  rw [Timers.span_congr htimeBefore, htime, timely_shift hcells.2]
  rcases hwhole with rfl | hwhole
  · trivial
  · cases after with
    | nil => trivial
    | cons next rest =>
        have hle := le_toInt hwhole (hint (by simp))
        exact hafter.mono (by linarith)

theorem Kept.start {c c' : Clock} {cells : List ℕ} {t delay : ℚ}
    {byteSeqNum : UInt32} (hkept : Kept c cells)
    (hintime : InTime c (.start t delay byteSeqNum))
    (hstep : c.step (.start t delay byteSeqNum) = some c') :
    ∃ cells', Kept c' cells' := by
  obtain ⟨s, before, after, delta, hinsert, rfl, hinserted, hplace, -⟩ :=
    Timers.insertValue_spec hkept.chain delay 0 byteSeqNum
  rw [InTime, hkept.chain.cells_eq] at hintime
  rw [Clock.step, hinsert, Option.map_some, Option.some.injEq] at hstep
  subst hstep
  refine ⟨_, hinserted.chain, ?_, ?_, ?_⟩
  · exact hkept.timely.inserted hkept.chain hinserted (by linarith)
  · intro sent hsent
    have hne : sent.1.timer ≠ c.timers.fresh := (hkept.known sent hsent).ne
    have hsame : update c.due c.timers.fresh (t + delay) sent.1.timer =
        c.due sent.1.timer := update_of_ne hne _ _
    exact hsame.trans_le (hkept.sent sent hsent)
  · intro sent hsent
    exact (hkept.known sent hsent).trans_le
      (hinserted.fresh ▸ Nat.le_succ c.timers.fresh)

theorem Kept.cancel {c c' : Clock} {cells : List ℕ} {t : ℚ}
    {byteSeqNum : UInt32} (hkept : Kept c cells)
    (hintime : InTime c (.cancel t byteSeqNum))
    (hstep : c.step (.cancel t byteSeqNum) = some c') :
    ∃ cells', Kept c' cells' := by
  rw [InTime, hkept.chain.cells_eq] at hintime
  rw [Clock.step, Option.map_eq_some_iff] at hstep
  obtain ⟨⟨result, freed, s⟩, hremove, rfl⟩ := hstep
  rcases Timers.removeValue_spec hkept.chain hremove with
    ⟨-, rfl, -⟩ | ⟨before, cell, after, rfl, hbefore, hnum, -, hremoved⟩
  · exact ⟨cells, hkept.chain, hkept.timely, hkept.sent, hkept.known⟩
  · refine ⟨_, hremoved.chain, ?_, hkept.sent, ?_⟩
    · exact hkept.timely.removed hkept.chain hremoved
        (hintime before cell after rfl hbefore hnum)
    · rw [hremoved.fresh]
      exact hkept.known

theorem Kept.decrement {c c' : Clock} {cells : List ℕ} {now : ℚ}
    (hkept : Kept c cells) (hintime : InTime c (.decrement now))
    (hstep : c.step (.decrement now) = some c') : ∃ cells', Kept c' cells' := by
  rw [InTime, hkept.chain.cells_eq] at hintime
  rw [Clock.step, Option.map_eq_some_iff] at hstep
  obtain ⟨⟨notices, s⟩, hdecrement, rfl⟩ := hstep
  have hrule := Timers.decrement_rule
    (I := fun sent s cells => Timely c.due s.time now cells ∧
      Punctual s.time 0 cells ∧ s.fresh = c.timers.fresh ∧
      ∀ n ∈ sent, c.due n.timer ≤ now ∧ n.timer < c.timers.fresh)
    hkept.chain ?_ ?_ hdecrement
  · obtain ⟨cells', hchain, htimely, -, hfresh, hsent⟩ := hrule
    refine ⟨cells', hchain, htimely, ?_, ?_⟩
    · intro sent hmem
      rw [List.mem_append, List.mem_map] at hmem
      rcases hmem with hmem | ⟨n, hn, rfl⟩
      · exact hkept.sent sent hmem
      · exact (hsent n hn).1
    · intro sent hmem
      rw [List.mem_append, List.mem_map] at hmem
      rw [hfresh]
      rcases hmem with hmem | ⟨n, hn, rfl⟩
      · exact hkept.known sent hmem
      · exact (hsent n hn).2
  · intro s hchain hfresh _ htime
    rw [htime]
    refine ⟨?_, punctual_shift hchain.nodup ?_, hfresh, by simp⟩
    · rw [timely_shift hchain.nodup, add_sub_cancel]
      exact hkept.timely
    · rw [zero_add]
      exact hintime
  · rintro sent s cell rest s' hchain ⟨⟨hdue, htimely⟩, hpunctual, hfresh, hsent⟩
      hexpired
    obtain ⟨carried, htime, hint⟩ := hexpired.time
    have hnodup := (List.nodup_cons.1 hchain.nodup).2
    have hlate : rest ≠ [] → carried = 0 ∧ Punctual s.time (s.time cell) rest := by
      intro hrest
      cases rest with
      | nil => exact absurd rfl hrest
      | cons next rest =>
          have hnext := hpunctual ((zero_add _).trans_le hexpired.due)
          rw [zero_add] at hnext
          exact ⟨toInt_fraction hnext.1 hexpired.due (hint hrest), hnext.2⟩
    have hshift : s'.time = Timers.shift s.time rest (s.time cell) := by
      by_cases hrest : rest = []
      · subst hrest
        exact htime
      · rw [htime, (hlate hrest).1, Int.cast_zero, add_zero]
    refine ⟨?_, ?_, hexpired.fresh.trans hfresh, ?_⟩
    · rw [hshift, timely_shift hnodup]
      exact htimely
    · rw [hshift]
      by_cases hrest : rest = []
      · subst hrest
        trivial
      · refine punctual_shift hnodup ?_
        rw [zero_add]
        exact (hlate hrest).2
    · intro n hn
      rw [List.mem_append, List.mem_singleton] at hn
      rcases hn with hn | rfl
      · exact hsent n hn
      · refine ⟨hdue.trans ?_, ?_⟩
        · have := hexpired.due
          linarith
        · rw [← hfresh]
          exact hchain.allocated cell List.mem_cons_self

/-! ## All runs -/

theorem kept_start (reading : ℚ) : Kept (Clock.start reading) [] := by
  refine ⟨Timers.chain_start, trivial, ?_, ?_⟩
  · exact fun sent hsent => absurd hsent List.not_mem_nil
  · exact fun sent hsent => absurd hsent List.not_mem_nil

theorem kept_reachable {c : Clock}
    (hreach : (clock.restrict InTime).Reachable c) : ∃ cells, Kept c cells := by
  refine hreach.invariant (I := fun c => ∃ cells, Kept c cells) ?_ ?_
  · rintro c ⟨reading, rfl⟩
    exact ⟨[], kept_start reading⟩
  · rintro c e c' ⟨cells, hkept⟩ ⟨hintime, -, hstep⟩
    cases e with
    | start t delay byteSeqNum => exact hkept.start hintime hstep
    | cancel t byteSeqNum => exact hkept.cancel hintime hstep
    | decrement now => exact hkept.decrement hintime hstep

/-- In a run of steps that are in time, every notice is sent when its timer is
due, or later. -/
theorem sent_due (c : Clock) (hreach : (clock.restrict InTime).Reachable c) :
    ∀ sent ∈ c.sent, c.due sent.1.timer ≤ sent.2 := by
  obtain ⟨cells, hkept⟩ := kept_reachable hreach
  exact hkept.sent

/-- A timer of a second that is started at 0 and runs out at 2. -/
theorem sent_due_overdue :
    ∃ c, (clock.restrict InTime).Reachable c ∧ c.sent.length = 1 ∧
      ∀ sent ∈ c.sent, c.due sent.1.timer ≤ sent.2 := by
  have hintime : InTime (Clock.start 0) (.start 0 1 1) := by
    simp [InTime, Clock.start, Timers.start, Timers.cells, Timers.walk,
      Timers.startLateness]
  have hstart : (clock.restrict InTime).Reachable _ :=
    .step (l := .start 0 1 1) (.initial ⟨0, rfl⟩)
      ⟨hintime, le_refl (0 : ℚ), rfl⟩
  have hexpire : (clock.restrict InTime).Reachable _ :=
    hstart.step (l := .decrement 2) ⟨trivial, by decide, by
      simp [Clock.step, Clock.start, Timers.start, Timers.setNode,
        Timers.setDtime, Timers.decrement, Timers.expireLoop, Timers.expireHead,
        Timers.removeValue, Timers.find, Timers.unlinkNode]
      rfl⟩
  exact ⟨_, hexpire, rfl, sent_due _ hexpire⟩

/-- Two timers of a second are started at 0.  The second of them ties with the
head, is put in front of it with no time to run, and runs out at once. -/
theorem not_sent_due :
    ¬ ∀ c, clock.Reachable c → ∀ sent ∈ c.sent, c.due sent.1.timer ≤ sent.2 := by
  intro hdue
  have hfirst : clock.Reachable _ :=
    .step (l := .start 0 1 1) (.initial ⟨0, rfl⟩) ⟨le_refl (0 : ℚ), rfl⟩
  have hround : clock.Reachable _ :=
    hfirst.step (l := .decrement 0) ⟨le_refl (0 : ℚ), by
      norm_num [Clock.step, Clock.start, Timers.start, Timers.setNode,
        Timers.setDtime, Timers.decrement]
      rfl⟩
  have hsecond : clock.Reachable _ :=
    hround.step (l := .start 0 1 2) ⟨le_refl (0 : ℚ), by
      norm_num [Clock.step, Timers.insertValue, Timers.findPlace, Timers.linkNode,
        Timers.updateFollowing, Timers.setNode, Timers.setPrev, Timers.setNext,
        Timers.setDtime]
      rfl⟩
  have hexpire : clock.Reachable _ :=
    hsecond.step (l := .decrement 0) ⟨le_refl (0 : ℚ), by
      norm_num [Clock.step, Timers.setNode, Timers.setDtime,
        Timers.decrement, Timers.expireHead, Timers.removeValue]
      rw [Timers.find]
      norm_num [Timers.unlinkNode, Timers.toInt, signedInt, Timers.setNode,
        Timers.setDtime, Timers.setPrev]
      rfl⟩
  have hearly := hdue _ hexpire _ (List.mem_singleton_self _)
  norm_num at hearly

end UdpTransfer.Timer
