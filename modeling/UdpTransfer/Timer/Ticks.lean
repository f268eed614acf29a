import UdpTransfer.Timer.Schedule

/-!
# Exact clock ticks

A tick of the clock should take the timers that are due off the schedule, and
bring the others nearer by the time that has passed.  The loop of `decrement`
carries an overdue time on twice, rounded once, so the timers behind it run out
too early as soon as a whole second is overdue.
-/

namespace UdpTransfer.Timer

open Function
open UdpTransfer.Memory

namespace Timers

/-! ## The loop on a list of times -/

/-- The loop of `decrement` over some cells with their times, `carried` being
added to the first: the timers that run out, what is carried past them, and the
timers that are left. -/
def overtake (time : ℕ → ℚ) : ℚ → List ℕ → Option (List ℕ × ℚ × List ℕ)
  | carried, [] => some ([], carried, [])
  | carried, [last] =>
      if carried + time last ≤ 0 then some ([last], carried + time last, [])
      else some ([], carried, [last])
  | carried, cell :: next :: rest =>
      if carried + time cell ≤ 0 then
        (toInt (carried + time cell)).bind fun whole : ℤ =>
          (overtake time (carried + time cell + whole) (next :: rest)).map
            fun (expired, carried, left) => (cell :: expired, carried, left)
      else
        some ([], carried, cell :: next :: rest)

theorem schedule_of_chain {s : Timers} {cell : ℕ} {rest : List ℕ}
    {time : ℕ → ℚ} {carried : ℚ} (hchain : Chain s (cell :: rest))
    (hcell : s.time cell = carried + time cell)
    (hrest : ∀ other ∈ rest, s.time other = time other) :
    s.schedule = entriesFrom s.num time carried (cell :: rest) := by
  rw [schedule, hchain.cells_eq, entriesFrom, entriesFrom, hcell, zero_add,
    entriesFrom_congr (fun _ _ => rfl) hrest]

/-- What one turn of the loop does to a timer with another behind it. -/
theorem expireHead_carry {s : Timers} {cell next : ℕ} {rest : List ℕ}
    (hchain : Chain s (cell :: next :: rest)) (notices : List Notice) :
    (toInt (s.time cell) = none →
      (s.setDtime next (s.time next + s.time cell)).expireHead notices =
        none) ∧
      ∀ whole : ℤ, toInt (s.time cell) = some whole →
        ∃ t, (s.setDtime next (s.time next + s.time cell)).expireHead notices =
            some (notices ++ [s.notice cell], t) ∧
          Chain t (next :: rest) ∧ t.num = s.num ∧
          t.time next = s.time cell + whole + s.time next ∧
          ∀ other ∈ rest, t.time other = s.time other := by
  let carry := s.setDtime next (s.time next + s.time cell)
  have hcarry : Chain carry (cell :: next :: rest) := hchain.setDtime next _
  have hnodup := List.nodup_cons.1 hchain.nodup
  have hne : cell ≠ next := fun h => hnodup.1 (h ▸ List.mem_cons_self)
  have hother : ∀ other ∈ rest, other ≠ next := by
    rintro other hmem rfl
    exact (List.nodup_cons.1 hnodup.2).1 hmem
  have htime : carry.time = update s.time next (s.time next + s.time cell) :=
    time_setDtime s next _
  have hcell : carry.time cell = s.time cell := by
    rw [htime, update_of_ne hne]
  have hreturns := @unlinkNode_isSome carry [] (next :: rest) cell hcarry
  rw [hcell] at hreturns
  have hhead := expireHead_eq hcarry notices
  have hnotice : carry.notice cell = s.notice cell := by
    simp only [notice, carry, num_setDtime]
  rw [hnotice] at hhead
  constructor
  · intro hnone
    have hunlink : carry.unlinkNode cell = none := by
      rw [← Option.not_isSome_iff_eq_none, hreturns, hnone]
      simp
    change carry.expireHead notices = none
    rw [hhead, hunlink]
    rfl
  · intro whole hwhole
    obtain ⟨t, hunlink⟩ := Option.isSome_iff_exists.1
      (hreturns.2 (.inr (by rw [hwhole]; rfl)))
    have hremoved := @unlinkNode_removed carry t [] _ cell hcarry hunlink
    obtain ⟨carried, hshift, hint⟩ := hremoved.time
    have hcarried : carried = whole := by
      have := hint (by simp)
      rw [hcell, hwhole, Option.some.injEq] at this
      exact this.symm
    subst hcarried
    refine ⟨t, ?_, hremoved.chain, ?_, ?_, ?_⟩
    · change carry.expireHead notices = _
      rw [hhead, hunlink]
      rfl
    · rw [hremoved.num, num_setDtime]
    · rw [hshift, shift, update_self, htime, update_self]
      ring
    · intro other hmem
      rw [hshift, shift, update_of_ne (hother other hmem), htime,
        update_of_ne (hother other hmem)]

/-- A run of the program comes to what the loop on times does: both have no
result, or the timers that run out get their notices and those that are left
stay on the schedule. -/
def RunsAs (s : Timers) (time : ℕ → ℚ) (notices : List Notice)
    (run : Option (List Notice × Timers)) :
    Option (List ℕ × ℚ × List ℕ) → Prop
  | none => run = none
  | some (expired, carried, left) =>
      ∃ s', run = some (notices ++ expired.map s.notice, s') ∧
        s'.schedule = entriesFrom s.num time carried left

section RunsAs

variable {s t : Timers} {time : ℕ → ℚ} {notices : List Notice}
  {run : Option (List Notice × Timers)}
  {result : Option (List ℕ × ℚ × List ℕ)}

theorem RunsAs.congr (hrun : RunsAs t time notices run result)
    (hnum : t.num = s.num) : RunsAs s time notices run result := by
  have hnotice : t.notice = s.notice := by
    funext other
    simp only [notice, hnum]
  cases result with
  | none => exact hrun
  | some result =>
      obtain ⟨s', hsome, hschedule⟩ := hrun
      rw [hnotice] at hsome
      rw [hnum] at hschedule
      exact ⟨s', hsome, hschedule⟩

theorem RunsAs.cons {cell : ℕ}
    (hrun : RunsAs s time (notices ++ [s.notice cell]) run result) :
    RunsAs s time notices run
      (result.map fun (expired, carried, left) =>
        (cell :: expired, carried, left)) := by
  cases result with
  | none => exact hrun
  | some result =>
      obtain ⟨s', hsome, hschedule⟩ := hrun
      refine ⟨s', hsome.trans ?_, hschedule⟩
      rw [List.append_assoc]
      rfl

end RunsAs

/-- The loop of the program runs as the one on times. -/
theorem expireLoop_overtake {time : ℕ → ℚ} {rest : List ℕ} :
    ∀ {s : Timers} {cell : ℕ} {carried : ℚ} {notices : List Notice},
      Chain s (cell :: rest) → s.time cell = carried + time cell →
      (∀ other ∈ rest, s.time other = time other) →
      RunsAs s time notices (s.expireLoop notices)
        (overtake time carried (cell :: rest)) := by
  induction rest with
  | nil =>
      intro s cell carried notices hchain hcell hrest
      have hreturns := @unlinkNode_isSome s [] [] cell hchain
      obtain ⟨t, hunlink⟩ := Option.isSome_iff_exists.1 (hreturns.2 (.inl rfl))
      have hremoved := @unlinkNode_removed s t [] _ cell hchain hunlink
      rw [expireLoop_last hchain, overtake, hcell]
      by_cases hdue : carried + time cell ≤ 0
      · rw [if_pos hdue, if_pos hdue, expireHead_eq hchain, hunlink]
        refine ⟨t, rfl, ?_⟩
        rw [schedule, hremoved.chain.cells_eq]
        rfl
      · rw [if_neg hdue, if_neg hdue]
        exact ⟨s, by simp, schedule_of_chain hchain hcell hrest⟩
  | cons next rest ih =>
      intro s cell carried notices hchain hcell hrest
      obtain ⟨hstuck, hturn⟩ := expireHead_carry hchain notices
      rw [expireLoop_next hchain, overtake]
      rw [hcell] at hstuck hturn ⊢
      by_cases hdue : carried + time cell ≤ 0
      · rw [if_pos hdue, if_pos hdue]
        rw [List.forall_mem_cons] at hrest
        cases hwhole : toInt (carried + time cell) with
        | none =>
            rw [hstuck hwhole]
            rfl
        | some whole =>
            obtain ⟨t, hhead, hchain', hnum, hfirst, hothers⟩ :=
              hturn whole hwhole
            rw [hrest.1] at hfirst
            have hothers' : ∀ other ∈ rest, t.time other = time other := by
              intro other hother
              rw [hothers other hother, hrest.2 other hother]
            rw [hhead, Option.bind_some, Option.bind_some]
            exact ((ih hchain' hfirst hothers').congr hnum).cons
      · rw [if_neg hdue, if_neg hdue]
        exact ⟨s, by simp, schedule_of_chain hchain hcell hrest⟩

/-! ## What the loop takes and leaves -/

/-- What is carried on fits an `int` at every timer with another behind it.
`carried` comes before times one after the other. -/
def CarryFits : ℚ → List ℚ → Prop
  | _, [] => True
  | _, [_] => True
  | carried, time :: next :: rest =>
      -2147483648 ≤ ⌈carried + time⌉ ∧
        CarryFits (carried + time + ⌈carried + time⌉) (next :: rest)

section Overtake

variable {time : ℕ → ℚ} {cells expired left : List ℕ} {carried carried' : ℚ}

/-- The loop stops at a timer that is not due, or takes it and goes on. -/
theorem overtake_cons {cell : ℕ} {rest : List ℕ}
    (hloop : overtake time carried (cell :: rest) =
      some (expired, carried', left)) :
    0 < carried + time cell ∧ expired = [] ∧ carried' = carried ∧
        left = cell :: rest ∨
      carried + time cell ≤ 0 ∧ ∃ expired', expired = cell :: expired' ∧
        (rest = [] ∧ expired' = [] ∧ carried' = carried + time cell ∧
            left = [] ∨
          -2147483648 ≤ ⌈carried + time cell⌉ ∧
            overtake time (carried + time cell + ⌈carried + time cell⌉) rest =
              some (expired', carried', left)) := by
  by_cases hdue : carried + time cell ≤ 0
  · refine .inr ⟨hdue, ?_⟩
    cases rest with
    | nil =>
        rw [overtake, if_pos hdue, Option.some.injEq, Prod.mk.injEq,
          Prod.mk.injEq] at hloop
        obtain ⟨rfl, rfl, rfl⟩ := hloop
        exact ⟨[], rfl, .inl ⟨rfl, rfl, rfl, rfl⟩⟩
    | cons next rest =>
        rw [overtake, if_pos hdue] at hloop
        obtain ⟨whole, hwhole, hmap⟩ := Option.bind_eq_some_iff.1 hloop
        obtain ⟨⟨expired', carried'', left'⟩, hrest, heq⟩ :=
          Option.map_eq_some_iff.1 hmap
        simp only [Prod.mk.injEq] at heq
        obtain ⟨rfl, rfl, rfl⟩ := heq
        obtain ⟨rfl, hceil⟩ := (toInt_of_nonpos hdue).1 hwhole
        exact ⟨expired', rfl, .inr ⟨hceil, hrest⟩⟩
  · have hstop : overtake time carried (cell :: rest) =
        some ([], carried, cell :: rest) := by
      cases rest <;> rw [overtake, if_neg hdue]
    rw [hstop, Option.some.injEq, Prod.mk.injEq, Prod.mk.injEq] at hloop
    obtain ⟨rfl, rfl, rfl⟩ := hloop
    exact .inl ⟨not_le.1 hdue, rfl, rfl, rfl⟩

theorem overtake_append
    (hloop : overtake time carried cells = some (expired, carried', left)) :
    cells = expired ++ left := by
  induction cells generalizing carried expired with
  | nil =>
      simp only [overtake, Option.some.injEq, Prod.mk.injEq] at hloop
      obtain ⟨rfl, -, rfl⟩ := hloop
      rfl
  | cons cell rest ih =>
      rcases overtake_cons hloop with ⟨-, rfl, -, rfl⟩ |
        ⟨-, expired', rfl, ⟨rfl, rfl, -, rfl⟩ | ⟨-, hrest⟩⟩
      · rfl
      · rfl
      · rw [ih hrest, List.cons_append]

/-- Less than a second overdue, nothing of what is carried on is carried twice. -/
theorem overtake_exact (num : ℕ → UInt32)
    (hnonneg : ∀ cell ∈ cells.tail, 0 ≤ time cell)
    (hover : ∀ cell ∈ cells.head?, -1 < carried + time cell) :
    ∃ expired left,
      overtake time carried cells =
        some (expired, carried + span time expired, left) ∧
      cells = expired ++ left ∧
      (∀ entry ∈ entriesFrom num time carried expired, entry.deadline ≤ 0) ∧
      ∀ entry ∈ entriesFrom num time (carried + span time expired) left,
        0 < entry.deadline := by
  induction cells generalizing carried with
  | nil => exact ⟨[], [], by simp [overtake, span], rfl, by simp [entriesFrom],
      by simp [entriesFrom]⟩
  | cons cell rest ih =>
      have hcell := hover cell rfl
      rw [List.tail_cons] at hnonneg
      by_cases hdue : carried + time cell ≤ 0
      · have hnext : ∀ next ∈ rest.head?, -1 < carried + time cell + time next := by
          intro next hnext
          have := hnonneg next (List.mem_of_head? hnext)
          linarith
        obtain ⟨expired, left, hloop, hcells, hexpired, hleft⟩ := ih
          (fun other hother => hnonneg other (List.mem_of_mem_tail hother)) hnext
        refine ⟨cell :: expired, left, ?_, by rw [hcells, List.cons_append],
          ?_, ?_⟩
        · cases rest with
          | nil =>
              simp only [overtake, Option.some.injEq, Prod.mk.injEq] at hloop
              obtain ⟨rfl, -, rfl⟩ := hloop
              rw [overtake, if_pos hdue, add_span_cons, span_nil, add_zero]
          | cons next rest =>
              have hwhole : toInt (carried + time cell) = some 0 := by
                have hceil : ⌈carried + time cell⌉ = 0 :=
                  Int.ceil_eq_zero_iff.2 ⟨by linarith, hdue⟩
                rw [toInt_of_nonpos hdue, hceil]
                exact ⟨rfl, by norm_num⟩
              rw [overtake, if_pos hdue, hwhole, Option.bind_some, Int.cast_zero,
                add_zero, hloop, add_span_cons]
              rfl
        · rw [entriesFrom, List.forall_mem_cons]
          exact ⟨hdue, hexpired⟩
        · rw [add_span_cons]
          exact hleft
      · push Not at hdue
        refine ⟨[], cell :: rest, ?_, rfl, by simp [entriesFrom], ?_⟩
        · cases rest <;> simp [overtake, hdue.not_ge, span]
        · rw [span_nil, add_zero]
          exact fun entry hentry =>
            hdue.trans_le (first_deadline_le hnonneg entry hentry)

/-- Where every timer is due and what is carried on fits, all of them run out. -/
theorem overtake_all (hnonneg : ∀ cell ∈ cells, 0 ≤ time cell)
    (hdue : carried + span time cells ≤ 0)
    (hfits : CarryFits carried (cells.map time)) :
    ∃ carried', overtake time carried cells = some (cells, carried', []) := by
  induction cells generalizing carried with
  | nil => exact ⟨carried, rfl⟩
  | cons cell rest ih =>
      rw [List.forall_mem_cons] at hnonneg
      rw [span_cons] at hdue
      have hspan := span_nonneg hnonneg.2
      have hcell : carried + time cell ≤ 0 := by linarith
      cases rest with
      | nil => exact ⟨_, by rw [overtake, if_pos hcell]⟩
      | cons next rest =>
          have hwhole := (toInt_of_nonpos hcell).2 ⟨rfl, hfits.1⟩
          have hceil : (⌈carried + time cell⌉ : ℚ) ≤ 0 := by
            exact_mod_cast Int.ceil_le.2 (by simpa using hcell)
          obtain ⟨carried', hloop⟩ := ih hnonneg.2 (by linarith) hfits.2
          exact ⟨carried', by
            rw [overtake, if_pos hcell, hwhole, Option.bind_some, hloop]
            rfl⟩

theorem overtake_fits
    (hloop : overtake time carried cells = some (expired, carried', [])) :
    CarryFits carried (cells.map time) := by
  induction cells generalizing carried expired with
  | nil => trivial
  | cons cell rest ih =>
      rcases overtake_cons hloop with ⟨-, -, -, h⟩ |
        ⟨-, expired', -, ⟨rfl, -⟩ | ⟨hceil, hrest⟩⟩
      · cases h
      · trivial
      · cases rest with
        | nil => trivial
        | cons next rest => exact ⟨hceil, ih hrest⟩

/-- The timers that are left run out when they should or earlier. -/
theorem overtake_early
    (hloop : overtake time carried cells = some (expired, carried', left)) :
    carried' ≤ carried + span time expired := by
  induction cells generalizing carried expired with
  | nil =>
      simp only [overtake, Option.some.injEq, Prod.mk.injEq] at hloop
      obtain ⟨rfl, rfl, -⟩ := hloop
      simp [span]
  | cons cell rest ih =>
      rcases overtake_cons hloop with ⟨-, rfl, rfl, -⟩ |
        ⟨hdue, expired', rfl, ⟨-, rfl, rfl, -⟩ | ⟨-, hrest⟩⟩
      · simp [span]
      · simp [span]
      · have hceil : (⌈carried + time cell⌉ : ℚ) ≤ 0 := by
          exact_mod_cast Int.ceil_le.2 (by simpa using hdue)
        have hrest := ih hrest
        rw [span_cons]
        linarith

/-- Where a whole second is overdue, those that are left run out too early. -/
theorem overtake_second {cell : ℕ} {rest : List ℕ}
    (hloop : overtake time carried (cell :: rest) =
      some (expired, carried', left)) (hleft : left ≠ [])
    (hover : carried + time cell ≤ -1) :
    carried' < carried + span time expired := by
  rcases overtake_cons hloop with ⟨h, -⟩ |
    ⟨-, expired', rfl, ⟨-, -, -, h⟩ | ⟨-, hrest⟩⟩
  · linarith
  · exact absurd h hleft
  · have hceil : (⌈carried + time cell⌉ : ℚ) ≤ -1 := by
      exact_mod_cast Int.ceil_le.2 (by simpa using hover)
    have hearly := overtake_early hrest
    rw [span_cons]
    linarith

end Overtake

/-! ## decrement -/

/-- `decrement` does what it is for: the timers that are due leave the schedule,
in its order, and the others run out as much earlier as time has passed. -/
def ExpiresExactly (s : Timers) (prev now : ℚ) : Prop :=
  ∃ notices s', s.decrement prev now = some (notices, s') ∧
    notices.map (fun notice => (notice.timer, notice.byteSeqNum)) =
      (s.schedule.filter fun entry => entry.deadline ≤ now - prev).map
        (fun entry => (entry.timer, entry.byteSeqNum)) ∧
    s'.schedule =
      (s.schedule.filter fun entry => now - prev < entry.deadline).map
        fun entry => { entry with deadline := entry.deadline - (now - prev) }

/-- The ticks that `decrement` gets right, where timers have the times listed:
nothing is due, or one timer just now, or no timer is overdue by a second, or
all are due. -/
def TicksRight (dif : ℚ) : List ℚ → Prop
  | [] => True
  | first :: rest =>
      dif < first ∨ (dif = first ∧ ∀ next ∈ rest.head?, 0 < next) ∨
        first < dif ∧ (dif < first + 1 ∨
          (first :: rest).sum ≤ dif ∧ CarryFits (-dif) (first :: rest))

theorem filter_due {before after : List Entry}
    (hbefore : ∀ entry ∈ before, entry.deadline ≤ 0)
    (hafter : ∀ entry ∈ after, 0 < entry.deadline) :
    ((before ++ after).filter fun entry => entry.deadline ≤ 0) = before ∧
      ((before ++ after).filter fun entry => 0 < entry.deadline) = after := by
  have hkept : (before.filter fun entry => entry.deadline ≤ 0) = before := by
    simpa using hbefore
  have hleft : (after.filter fun entry => 0 < entry.deadline) = after := by
    simpa using hafter
  have hnone : (after.filter fun entry => entry.deadline ≤ 0) = [] := by
    simpa using hafter
  have hgone : (before.filter fun entry => 0 < entry.deadline) = [] := by
    simpa using hbefore
  rw [List.filter_append, List.filter_append, hkept, hleft, hnone, hgone]
  exact ⟨List.append_nil _, List.nil_append _⟩

/-- What is due shows once the time that has passed is taken off. -/
theorem expiresExactly_iff_passed {s : Timers} {prev now : ℚ} :
    ExpiresExactly s prev now ↔
      ∃ notices s', s.decrement prev now = some (notices, s') ∧
        notices.map (fun notice => (notice.timer, notice.byteSeqNum)) =
          ((entriesFrom s.num s.time (-(now - prev)) s.cells).filter
            fun entry => entry.deadline ≤ 0).map
            (fun entry => (entry.timer, entry.byteSeqNum)) ∧
        s'.schedule =
          (entriesFrom s.num s.time (-(now - prev)) s.cells).filter
            fun entry => 0 < entry.deadline := by
  have hpassed : entriesFrom s.num s.time (-(now - prev)) s.cells =
      s.schedule.map fun entry =>
        { entry with deadline := entry.deadline - (now - prev) } := by
    rw [← zero_add (-(now - prev)), entriesFrom_add]
    simp only [← sub_eq_add_neg]
    rfl
  have hdue : ∀ entry : Entry,
      (entry.deadline - (now - prev) ≤ 0) = (entry.deadline ≤ now - prev) :=
    fun entry => propext sub_nonpos
  have hleft : ∀ entry : Entry,
      (0 < entry.deadline - (now - prev)) = (now - prev < entry.deadline) :=
    fun entry => propext sub_pos
  rw [hpassed, List.filter_map, List.filter_map, List.map_map]
  simp only [Function.comp_def, hdue, hleft]
  rfl

theorem map_key_entriesFrom {s : Timers} {base : ℚ} {cells : List ℕ} :
    (entriesFrom s.num s.time base cells).map
      (fun entry => (entry.timer, entry.byteSeqNum)) =
      (cells.map s.notice).map
        fun notice => (notice.timer, notice.byteSeqNum) := by
  induction cells generalizing base with
  | nil => rfl
  | cons cell rest ih =>
      rw [entriesFrom, List.map_cons, ih]
      rfl

theorem last_deadline_mem {num : ℕ → UInt32} {time : ℕ → ℚ} {base : ℚ}
    {cells : List ℕ} (hcells : cells ≠ []) :
    ∃ entry ∈ entriesFrom num time base cells,
      entry.deadline = base + span time cells := by
  induction cells generalizing base with
  | nil => exact absurd rfl hcells
  | cons cell rest ih =>
      rw [add_span_cons]
      by_cases hrest : rest = []
      · subst hrest
        exact ⟨_, List.mem_cons_self, by simp [span]⟩
      · obtain ⟨entry, hentry, hdeadline⟩ := @ih (base + time cell) hrest
        exact ⟨entry, List.mem_cons_of_mem _ hentry, hdeadline⟩

theorem entry_unique {num : ℕ → UInt32} {time : ℕ → ℚ} {base : ℚ}
    {cells : List ℕ} (hnodup : cells.Nodup) {entry other : Entry}
    (hentry : entry ∈ entriesFrom num time base cells)
    (hother : other ∈ entriesFrom num time base cells)
    (htimer : entry.timer = other.timer) : entry = other := by
  rw [← @map_timer_entriesFrom num time base cells] at hnodup
  exact List.inj_on_of_nodup_map hnodup hentry hother htimer

/-- Where the timers that are left keep their place in the schedule, nothing
but the times in front of them is carried on. -/
theorem entry_base {num : ℕ → UInt32} {time : ℕ → ℚ} {base carried : ℚ}
    {cells before after : List ℕ} {cell : ℕ} {kept : Entry → Bool}
    (hnodup : cells.Nodup) (hcells : cells = before ++ cell :: after)
    (hkept : entriesFrom num time carried (cell :: after) =
      (entriesFrom num time base cells).filter kept) :
    carried = base + span time before := by
  have hold : (Entry.mk cell (num cell)
      (base + span time before + time cell)) ∈
      entriesFrom num time base cells := by
    rw [hcells, entriesFrom_append, entriesFrom]
    simp
  have hnew : (Entry.mk cell (num cell) (carried + time cell)) ∈
      entriesFrom num time base cells := by
    refine @List.mem_of_mem_filter _ kept _ _ ?_
    rw [← hkept]
    exact List.mem_cons_self
  have heq := entry_unique hnodup hnew hold rfl
  rw [Entry.mk.injEq] at heq
  linarith [heq.2.2]

section Tick

variable {s : Timers} {first : ℕ} {rest : List ℕ} {prev now : ℚ}

/-- Taking off the time that has passed sets all timers nearer. -/
theorem decrement_passed (hchain : Chain s (first :: rest)) (prev now : ℚ) :
    ∃ passed, Chain passed (first :: rest) ∧ passed.num = s.num ∧
      passed.time first = -(now - prev) + s.time first ∧
      (∀ other ∈ rest, passed.time other = s.time other) ∧
      s.decrement prev now =
        if -(now - prev) + s.time first = 0 then passed.expireHead []
        else if -(now - prev) + s.time first < 0 then passed.expireLoop []
        else some ([], passed) := by
  obtain ⟨passed, hpassed, -, hnum, htime, hdecrement⟩ :=
    decrement_cons hchain prev now
  have hfirst : passed.time first = -(now - prev) + s.time first := by
    rw [htime, shift, update_self]
    ring
  have hrest : ∀ other ∈ rest, passed.time other = s.time other := by
    rw [htime]
    exact shift_tail s.time _ hchain.nodup
  rw [hfirst] at hdecrement
  exact ⟨passed, hpassed, hnum, hfirst, hrest, hdecrement⟩

theorem decrement_early (hchain : Chain s (first :: rest))
    (hearly : now - prev < s.time first) :
    ∃ s', s.decrement prev now = some ([], s') ∧
      s'.schedule = entriesFrom s.num s.time (-(now - prev)) (first :: rest) := by
  obtain ⟨passed, hpassed, hnum, hfirst, hrest, hdecrement⟩ :=
    decrement_passed hchain prev now
  refine ⟨passed, ?_, ?_⟩
  · rw [hdecrement, if_neg (by linarith), if_neg (by linarith)]
  · rw [schedule_of_chain hpassed hfirst hrest, hnum]

theorem decrement_now (hchain : Chain s (first :: rest))
    (hnow : now - prev = s.time first) :
    ∃ s', s.decrement prev now = some ([s.notice first], s') ∧
      s'.schedule = entriesFrom s.num s.time 0 rest := by
  obtain ⟨passed, hpassed, hnum, hfirst, hrest, hdecrement⟩ :=
    decrement_passed hchain prev now
  have hzero : -(now - prev) + s.time first = 0 := by linarith
  have hint : toInt (passed.time first) = some 0 := by
    rw [hfirst, hzero]
    rfl
  have hreturns := @unlinkNode_isSome passed [] rest first hpassed
  obtain ⟨t, hunlink⟩ := Option.isSome_iff_exists.1
    (hreturns.2 (.inr (by rw [hint]; rfl)))
  have hremoved := @unlinkNode_removed passed t [] rest first hpassed hunlink
  refine ⟨t, ?_, ?_⟩
  · rw [hdecrement, if_pos hzero, expireHead_eq hpassed, hunlink]
    simp only [notice, hnum]
    rfl
  · obtain ⟨carried, hcarried, hschedule⟩ :=
      @Chain.schedule_removed passed t [] rest first hpassed hremoved
    rw [hschedule, hnum]
    cases rest with
    | nil => rfl
    | cons next rest =>
        have hcarried := hcarried (by simp)
        rw [hint, Option.some.injEq] at hcarried
        rw [← hcarried, entriesFrom, List.nil_append, span_nil, Int.cast_zero,
          add_zero,
          entriesFrom_congr (fun _ _ => rfl) hrest]

theorem decrement_over (hchain : Chain s (first :: rest))
    (hover : s.time first < now - prev) :
    RunsAs s s.time [] (s.decrement prev now)
      (overtake s.time (-(now - prev)) (first :: rest)) := by
  obtain ⟨passed, hpassed, hnum, hfirst, hrest, hdecrement⟩ :=
    decrement_passed hchain prev now
  rw [hdecrement, if_neg (by linarith), if_pos (by linarith)]
  exact (expireLoop_overtake hpassed hfirst hrest).congr hnum

/-- What the timers that run out and those that are left have to be. -/
theorem expiresExactly_of_split {s' : Timers} {expired left : List ℕ}
    (hdecrement : s.decrement prev now = some (expired.map s.notice, s'))
    (hcells : s.cells = expired ++ left)
    (hschedule : s'.schedule =
      entriesFrom s.num s.time (-(now - prev) + span s.time expired) left)
    (hexpired : ∀ entry ∈ entriesFrom s.num s.time (-(now - prev)) expired,
      entry.deadline ≤ 0)
    (hleft : ∀ entry ∈ entriesFrom s.num s.time
      (-(now - prev) + span s.time expired) left, 0 < entry.deadline) :
    ExpiresExactly s prev now := by
  rw [expiresExactly_iff_passed]
  obtain ⟨hdue, hlate⟩ := filter_due hexpired hleft
  refine ⟨_, s', hdecrement, ?_, ?_⟩
  · rw [hcells, entriesFrom_append, hdue, map_key_entriesFrom]
  · rw [hcells, entriesFrom_append, hlate, hschedule]

theorem TicksRight.expiresExactly (hlist : DeltaList s)
    (hright : TicksRight (now - prev) (s.cells.map s.time)) :
    ExpiresExactly s prev now := by
  have hchain := hlist.chain
  have hnonneg := hlist.nonneg
  cases hcells : s.cells with
  | nil =>
      rw [hcells] at hchain
      have hhead : s.head = 0 := hchain.head_eq
      have hschedule : s.schedule = [] := by
        rw [schedule, hcells]
        rfl
      exact ⟨[], s, by simp [decrement, hhead], by rw [hschedule]; rfl,
        by rw [hschedule]; rfl⟩
  | cons first rest =>
      rw [hcells] at hchain hnonneg hright
      rw [List.forall_mem_cons] at hnonneg
      rcases hright with hearly | ⟨hnow, hnext⟩ | ⟨hover, hright⟩
      · obtain ⟨s', hdecrement, hschedule⟩ := decrement_early hchain hearly
        refine @expiresExactly_of_split s prev now s' [] _ hdecrement hcells
          ?_ (by simp [entriesFrom]) ?_
        · rw [hschedule]
          simp [span]
        · have hfirst : 0 < -(now - prev) + s.time first := by linarith
          rw [span_nil, add_zero]
          exact fun entry hentry =>
            hfirst.trans_le (first_deadline_le hnonneg.2 entry hentry)
      · obtain ⟨s', hdecrement, hschedule⟩ := decrement_now hchain hnow
        have hzero : -(now - prev) + span s.time [first] = 0 := by
          simp [span, hnow]
        refine @expiresExactly_of_split s prev now s' [first] _ hdecrement
          hcells ?_ ?_ ?_
        · rw [hschedule, hzero]
        · intro entry hentry
          rw [List.mem_singleton.1 hentry, hnow]
          simp
        · rw [hzero]
          cases rest with
          | nil => simp [entriesFrom]
          | cons next rest =>
              have hnext : 0 < 0 + s.time next := by
                rw [zero_add]
                exact hnext _ rfl
              have hlater := (List.forall_mem_cons.1 hnonneg.2).2
              exact fun entry hentry =>
                hnext.trans_le (first_deadline_le hlater entry hentry)
      · have hloop := decrement_over hchain hover
        rcases hright with hsecond | ⟨hall, hfits⟩
        · obtain ⟨expired, left, hovertake, hsplit, hexpired, hleft⟩ :=
            @overtake_exact s.time (first :: rest) (-(now - prev)) s.num
              hnonneg.2 (by
                intro cell hcell
                obtain rfl := Option.some.inj hcell
                linarith)
          rw [hovertake] at hloop
          obtain ⟨s', hdecrement, hschedule⟩ := hloop
          exact expiresExactly_of_split hdecrement (hcells.trans hsplit)
            hschedule hexpired hleft
        · have hspan : -(now - prev) + span s.time (first :: rest) ≤ 0 := by
            rw [span, List.map_cons]
            linarith
          obtain ⟨carried, hovertake⟩ := overtake_all
            (List.forall_mem_cons.2 hnonneg) hspan hfits
          rw [hovertake] at hloop
          obtain ⟨s', hdecrement, hschedule⟩ := hloop
          refine expiresExactly_of_split hdecrement
            (hcells.trans (List.append_nil _).symm) hschedule ?_
            (by simp [entriesFrom])
          intro entry hentry
          exact (deadline_bounds (List.forall_mem_cons.2 hnonneg)
            hentry).2.trans hspan

theorem ExpiresExactly.ticksRight (hlist : DeltaList s)
    (hexact : ExpiresExactly s prev now) :
    TicksRight (now - prev) (s.cells.map s.time) := by
  rw [expiresExactly_iff_passed] at hexact
  obtain ⟨notices, t, hdecrement, hnotices, hschedule⟩ := hexact
  have hchain := hlist.chain
  have hnonneg := hlist.nonneg
  cases hcells : s.cells with
  | nil => trivial
  | cons first rest =>
      rw [hcells] at hchain hnonneg hnotices hschedule
      rw [List.forall_mem_cons] at hnonneg
      rcases lt_trichotomy (now - prev) (s.time first) with
        hearly | hnow | hover
      · exact .inl hearly
      · refine .inr (.inl ⟨hnow, ?_⟩)
        obtain ⟨s', hdecrement', -⟩ := decrement_now hchain hnow
        rw [hdecrement, Option.some.injEq, Prod.mk.injEq] at hdecrement'
        obtain ⟨rfl, -⟩ := hdecrement'
        intro time htime
        cases rest with
        | nil => cases htime
        | cons next rest =>
            obtain rfl := Option.some.inj htime
            refine (hnonneg.2 next List.mem_cons_self).lt_of_ne fun htie => ?_
            have := congrArg List.length hnotices
            simp [entriesFrom, hnow, ← htie] at this
      · refine .inr (.inr ⟨hover, ?_⟩)
        have hloop := decrement_over hchain hover
        cases hovertake : overtake s.time (-(now - prev)) (first :: rest) with
        | none =>
            rw [hovertake] at hloop
            cases hdecrement.symm.trans hloop
        | some result =>
            obtain ⟨expired, carried, left⟩ := result
            rw [hovertake] at hloop
            obtain ⟨s', hdecrement', hleft⟩ := hloop
            rw [hdecrement, Option.some.injEq, Prod.mk.injEq] at hdecrement'
            obtain ⟨-, rfl⟩ := hdecrement'
            rw [hleft] at hschedule
            refine or_iff_not_imp_left.2 fun hsecond => ?_
            have hsplit := overtake_append hovertake
            have hnone : left = [] := by
              by_contra hne
              have hlate := overtake_second hovertake hne (by linarith)
              cases left with
              | nil => exact hne rfl
              | cons cell left =>
                  exact hlate.ne (entry_base hchain.nodup hsplit hschedule)
            subst hnone
            refine ⟨?_, overtake_fits hovertake⟩
            obtain ⟨last, hlast, hdeadline⟩ := @last_deadline_mem s.num s.time
              (-(now - prev)) (first :: rest) (by simp)
            have hdue := List.filter_eq_nil_iff.1 hschedule.symm last hlast
            rw [decide_eq_true_eq, hdeadline, span, List.map_cons] at hdue
            linarith

/-- `decrement` is exact for the ticks that it gets right, and for no others. -/
theorem expiresExactly_iff (hlist : DeltaList s) :
    ExpiresExactly s prev now ↔
      TicksRight (now - prev) (s.cells.map s.time) :=
  ⟨fun hexact => hexact.ticksRight hlist,
    fun hright => hright.expiresExactly hlist⟩

end Tick

theorem expiresExactly_twoTimers : ExpiresExactly (twoTimers 2 1) 0 (5 / 2) :=
  (expiresExactly_iff (deltaList_twoTimers (by norm_num) (by norm_num))).2 (by
    rw [cells_twoTimers]
    norm_num [TicksRight, time, twoTimers])

/-- A tick that comes a second late sets the timer behind nearer by two. -/
theorem not_expiresExactly :
    ¬ ∀ s, DeltaList s → (s.cells.map s.num).Nodup → ∀ prev now, prev ≤ now →
      ExpiresExactly s prev now := by
  intro hall
  have hlist := @deltaList_twoTimers 1 3 (by norm_num) (by norm_num)
  have hright := (hall _ hlist (by decide) 0 2 (by norm_num)).ticksRight hlist
  rw [cells_twoTimers] at hright
  norm_num [TicksRight, time, twoTimers] at hright

end Timers

end UdpTransfer.Timer
