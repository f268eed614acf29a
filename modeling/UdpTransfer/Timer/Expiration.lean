import UdpTransfer.Timer.Chain

/-!
# Removing and expiring timers

`removeValue` takes out the first cell with the number, and `decrement` takes
cells off the front.  The loop of `decrement` carries an overdue time to the
next timer, and `removeValue` then carries the same time once more, rounded to
an `int`.
-/

namespace UdpTransfer.Timer

open Function
open UdpTransfer.Links

namespace Timers

/-! ## removeValue -/

theorem find_eq {s : Timers} {byteSeqNum : UInt32} {rest : List ℕ} :
    ∀ {before : List ℕ} {cur : ℕ}, Chain s (before ++ cur :: rest) →
      s.find byteSeqNum cur =
        some ((cur :: rest).find? fun cell => s.num cell = byteSeqNum) := by
  induction rest with
  | nil =>
      intro before cur hchain
      have hnext : (s.nodes cur).next = 0 := hchain.at_cell.2
      rw [find]
      by_cases hnum : (s.nodes cur).byteSeqNum = byteSeqNum
      · simp [num, hnum]
      · simp [num, hnum, hnext]
  | cons next rest ih =>
      intro before cur hchain
      have hnext : (s.nodes cur).next = next := hchain.at_cell.2
      have hne : next ≠ 0 := hchain.ne_zero (by simp)
      rw [find]
      by_cases hnum : (s.nodes cur).byteSeqNum = byteSeqNum
      · simp [num, hnum]
      · have hchain' : Chain s ((before ++ [cur]) ++ next :: rest) := by
          simpa using hchain
        rw [List.find?_cons_of_neg (by simp [num, hnum]), ← ih hchain']
        simp [hnum, hnext, hne]

/-- What `removeValue` leaves.  The timer behind takes over the time of the
removed one, rounded to an `int`. -/
structure Removed (s : Timers) (before : List ℕ) (cell : ℕ) (after : List ℕ)
    (s' : Timers) : Prop where
  chain : Chain s' (before ++ after)
  fresh : s'.fresh = s.fresh
  num : s'.num = s.num
  time : ∃ carried : ℤ, s'.time = shift s.time after carried ∧
    (after ≠ [] → toInt (s.time cell) = some carried)

theorem Removed.time_before {s s' : Timers} {before after : List ℕ} {cell : ℕ}
    (hremoved : Removed s before cell after s')
    (hchain : Chain s (before ++ cell :: after)) :
    ∀ other ∈ before, s'.time other = s.time other := by
  intro other hother
  obtain ⟨carried, htime, -⟩ := hremoved.time
  have hnodup := List.nodup_append.1 hchain.nodup
  rw [htime, shift_of_notMem]
  exact fun h => hnodup.2.2 _ hother _ (List.mem_cons_of_mem _ h) rfl

theorem Removed.entries {s s' : Timers} {before after : List ℕ} {cell : ℕ}
    (hremoved : Removed s before cell after s') :
    (s.entries (before ++ cell :: after)).Perm
      ((cell, s.num cell) :: s'.entries (before ++ after)) := by
  rw [Timers.entries, Timers.entries, hremoved.num, List.map_append,
    List.map_append, List.map_cons]
  exact List.perm_middle

theorem Chain.unlink {s s' : Timers} {before after : List ℕ} {cell : ℕ}
    (hchain : Chain s (before ++ cell :: after))
    (hsucc : s'.succ = update s.succ (before.getLastD 0) (after.headD 0))
    (hpred : s'.pred = update s.pred (after.headD 0) (before.getLastD 0))
    (hfresh : s'.fresh = s.fresh) : Chain s' (before ++ after) := by
  refine ⟨hchain.threaded.unlink hsucc hpred, ?_, hfresh ▸ hchain.fresh_pos⟩
  intro other hother
  rw [hfresh]
  refine hchain.allocated other ?_
  rw [List.mem_append] at hother
  rw [List.mem_append, List.mem_cons]
  tauto

theorem unlinkNode_last {s s' : Timers} {before : List ℕ} {cell : ℕ}
    (hchain : Chain s (before ++ [cell])) (hunlink : s.unlinkNode cell = some s') :
    Removed s before cell [] s' := by
  have hnext : (s.nodes cell).next = 0 := hchain.at_cell.2
  have hprev : (s.nodes cell).prev = before.getLastD 0 := hchain.at_cell.1
  by_cases hbefore : before = []
  · subst hbefore
    rw [List.getLastD_nil] at hprev
    simp only [unlinkNode, hnext, hprev, and_self, if_true, Option.some.injEq]
      at hunlink
    subst hunlink
    refine ⟨hchain.unlink ?_ ?_ rfl, rfl, rfl, 0, rfl, fun h => absurd rfl h⟩
    · exact succ_setHead s 0
    · exact pred_setTail s 0
  · have hlast : before.getLastD 0 ≠ 0 := by
      rw [Ne, hchain.getLastD_eq_zero]
      exact hbefore
    simp only [unlinkNode, hnext, hprev, hlast, and_false, if_true, if_false,
      Option.some.injEq] at hunlink
    subst hunlink
    refine ⟨hchain.unlink ?_ ?_ rfl, rfl, ?_, 0, ?_, fun h => absurd rfl h⟩
    · rw [succ_setNext _ _ hlast, succ_setTail]
      rfl
    · rw [pred_setNext, pred_setTail]
      rfl
    · rw [num_setNext, num_setTail]
    · rw [time_setNext, time_setTail]
      rfl

theorem unlinkNode_inner {s s' : Timers} {before rest : List ℕ}
    {cell next : ℕ} (hchain : Chain s (before ++ cell :: next :: rest))
    (hunlink : s.unlinkNode cell = some s') :
    Removed s before cell (next :: rest) s' := by
  have hnext : (s.nodes cell).next = next := hchain.at_cell.2
  have hprev : (s.nodes cell).prev = before.getLastD 0 := hchain.at_cell.1
  have hne : next ≠ 0 := hchain.ne_zero (by simp)
  let last := before.getLastD 0
  let joined := if last = 0 then { s with head := next }.setPrev next last
    else (s.setNext last next).setPrev next last
  have hjoined : joined.succ = update s.succ last next ∧
      joined.pred = update s.pred next last ∧ joined.fresh = s.fresh ∧
      joined.num = s.num ∧ joined.time = s.time := by
    by_cases hlast : last = 0
    · simp only [joined, hlast, if_true]
      exact ⟨by rw [succ_setPrev, succ_setHead],
        by rw [pred_setPrev _ _ hne, pred_setHead], rfl,
        by rw [num_setPrev, num_setHead], by rw [time_setPrev, time_setHead]⟩
    · simp only [joined, hlast, if_false]
      exact ⟨by rw [succ_setPrev, succ_setNext _ _ hlast],
        by rw [pred_setPrev _ _ hne, pred_setNext], rfl,
        by rw [num_setPrev, num_setNext], by rw [time_setPrev, time_setNext]⟩
  obtain ⟨hsucc, hpred, hfresh, hnum, htime⟩ := hjoined
  have hresult : s.unlinkNode cell = (toInt (s.time cell)).map fun dtime : ℤ =>
      joined.setDtime next (joined.time next + dtime) := by
    simp only [unlinkNode, hnext, hprev, hne, false_and, if_false]
    rfl
  rw [hresult, Option.map_eq_some_iff] at hunlink
  obtain ⟨carried, hcarried, rfl⟩ := hunlink
  have hchain' : Chain joined (before ++ next :: rest) :=
    hchain.unlink hsucc hpred hfresh
  refine ⟨hchain'.setDtime _ _, hfresh, ?_, carried, ?_, fun _ => hcarried⟩
  · rw [num_setDtime, hnum]
  · rw [time_setDtime, htime]
    rfl

theorem unlinkNode_removed {s s' : Timers} {before after : List ℕ} {cell : ℕ}
    (hchain : Chain s (before ++ cell :: after))
    (hunlink : s.unlinkNode cell = some s') : Removed s before cell after s' := by
  cases after with
  | nil => exact unlinkNode_last hchain hunlink
  | cons next rest => exact unlinkNode_inner hchain hunlink

/-- Only the conversion of the time that is carried over can fail. -/
theorem unlinkNode_isSome {s : Timers} {before after : List ℕ} {cell : ℕ}
    (hchain : Chain s (before ++ cell :: after)) :
    (s.unlinkNode cell).isSome ↔ after = [] ∨ (toInt (s.time cell)).isSome := by
  have hnext : (s.nodes cell).next = after.headD 0 := hchain.at_cell.2
  cases after with
  | nil =>
      rw [List.headD_nil] at hnext
      by_cases hprev : (s.nodes cell).prev = 0 <;>
        simp [unlinkNode, hnext, hprev]
  | cons next rest =>
      have hne : next ≠ 0 := hchain.ne_zero (by simp)
      rw [List.headD_cons] at hnext
      simp [unlinkNode, hnext, hne, time]

/-- `removeValue` of a number that no timer bears changes nothing. -/
theorem removeValue_absent {s : Timers} {cells : List ℕ} (hchain : Chain s cells)
    {byteSeqNum : UInt32} (habsent : ∀ cell ∈ cells, s.num cell ≠ byteSeqNum) :
    ∃ result, s.removeValue byteSeqNum = some (result, none, s) := by
  cases cells with
  | nil =>
      have hhead : s.head = 0 := hchain.head_eq
      exact ⟨0, by rw [removeValue, if_pos hhead]⟩
  | cons first rest =>
      have hhead : s.head = first := hchain.head_eq
      have hfirst : first ≠ 0 := hchain.ne_zero List.mem_cons_self
      have hfind : (first :: rest).find? (fun cell => s.num cell = byteSeqNum) =
          none := by
        rw [List.find?_eq_none]
        simpa using habsent
      refine ⟨-1, ?_⟩
      rw [removeValue, hhead, if_neg hfirst, @find_eq _ _ _ [] _ hchain, hfind]
      rfl

/-- The first timer with the number is the one that is removed. -/
theorem removeValue_present {s : Timers} {before after : List ℕ} {cell : ℕ}
    (hchain : Chain s (before ++ cell :: after)) {byteSeqNum : UInt32}
    (hbefore : ∀ other ∈ before, s.num other ≠ byteSeqNum)
    (hcell : s.num cell = byteSeqNum) :
    s.removeValue byteSeqNum =
      (s.unlinkNode cell).map fun s' => (0, some cell, s') := by
  have hmem := hchain.head_mem (by simp)
  have hfind : (before ++ cell :: after).find?
      (fun other => s.num other = byteSeqNum) = some cell := by
    rw [List.find?_append, List.find?_eq_none.2 (by simpa using hbefore),
      List.find?_cons_of_pos (by simpa using hcell)]
    rfl
  have hwalk : s.find byteSeqNum s.head = some (some cell) := by
    rw [← hfind]
    cases hcells : before ++ cell :: after with
    | nil => simp at hcells
    | cons first rest =>
        rw [hcells] at hchain
        have hhead : s.head = first := hchain.head_eq
        rw [hhead, @find_eq _ _ _ [] _ hchain]
  rw [removeValue, if_neg (hchain.ne_zero hmem), hwalk]
  rfl

theorem removeValue_spec {s s' : Timers} {cells : List ℕ}
    (hchain : Chain s cells) {byteSeqNum : UInt32} {result : ℤ}
    {freed : Option ℕ}
    (hremove : s.removeValue byteSeqNum = some (result, freed, s')) :
    (freed = none ∧ s' = s ∧ ∀ cell ∈ cells, s.num cell ≠ byteSeqNum) ∨
      ∃ before cell after, cells = before ++ cell :: after ∧
        (∀ other ∈ before, s.num other ≠ byteSeqNum) ∧
        s.num cell = byteSeqNum ∧ freed = some cell ∧
        Removed s before cell after s' := by
  cases hfind : cells.find? fun cell => s.num cell = byteSeqNum with
  | none =>
      have habsent : ∀ cell ∈ cells, s.num cell ≠ byteSeqNum := by
        simpa using List.find?_eq_none.1 hfind
      obtain ⟨result', hsame⟩ := removeValue_absent hchain habsent
      rw [hsame, Option.some.injEq, Prod.mk.injEq, Prod.mk.injEq] at hremove
      exact .inl ⟨hremove.2.1.symm, hremove.2.2.symm, habsent⟩
  | some cell =>
      obtain ⟨hcell, before, after, rfl, hbefore⟩ :=
        List.find?_eq_some_iff_append.1 hfind
      have hcell' : s.num cell = byteSeqNum := by simpa using hcell
      have hbefore' : ∀ other ∈ before, s.num other ≠ byteSeqNum := by
        simpa using hbefore
      rw [removeValue_present hchain hbefore' hcell',
        Option.map_eq_some_iff] at hremove
      obtain ⟨t, hunlink, heq⟩ := hremove
      rw [Prod.mk.injEq, Prod.mk.injEq] at heq
      obtain ⟨-, rfl, rfl⟩ := heq
      exact .inr ⟨before, cell, after, rfl, hbefore', hcell', rfl,
        unlinkNode_removed hchain hunlink⟩

/-! ## decrement -/

/-- One expiration: the head is taken off, and the timer behind takes over its
time twice, the second time rounded to an `int`. -/
structure Expired (s : Timers) (cell : ℕ) (rest : List ℕ) (s' : Timers) :
    Prop where
  due : s.time cell ≤ 0
  chain : Chain s' rest
  fresh : s'.fresh = s.fresh
  num : s'.num = s.num
  time : ∃ carried : ℤ, s'.time = shift s.time rest (s.time cell + carried) ∧
    (rest ≠ [] → toInt (s.time cell) = some carried)

def notice (s : Timers) (cell : ℕ) : Notice where
  timer := cell
  byteSeqNum := s.num cell
  freed := some cell

theorem Expired.entries {s s' : Timers} {cell : ℕ} {rest : List ℕ}
    (hexpired : Expired s cell rest s') : s'.entries rest = s.entries rest := by
  rw [Timers.entries, Timers.entries, hexpired.num]

theorem expireHead_eq {s : Timers} {cell : ℕ} {rest : List ℕ}
    (hchain : Chain s (cell :: rest)) (notices : List Notice) :
    s.expireHead notices =
      (s.unlinkNode cell).map fun s' => (notices ++ [s.notice cell], s') := by
  have hhead : s.head = cell := hchain.head_eq
  have hremove := @removeValue_present s [] rest cell hchain (s.num cell)
    (by simp) rfl
  simp only [expireHead, hhead]
  change (s.removeValue (s.num cell)).map _ = _
  rw [hremove, Option.map_map]
  rfl

theorem expireHead_spec {s s' : Timers} {cell : ℕ} {rest : List ℕ}
    {notices notices' : List Notice} (hchain : Chain s (cell :: rest))
    (hexpire : s.expireHead notices = some (notices', s')) :
    notices' = notices ++ [s.notice cell] ∧ Removed s [] cell rest s' := by
  rw [expireHead_eq hchain, Option.map_eq_some_iff] at hexpire
  obtain ⟨t, hunlink, heq⟩ := hexpire
  rw [Prod.mk.injEq] at heq
  obtain ⟨rfl, rfl⟩ := heq
  exact ⟨rfl, @unlinkNode_removed s _ [] rest cell hchain hunlink⟩

theorem expireLoop_last {s : Timers} {cell : ℕ} (hchain : Chain s [cell])
    (notices : List Notice) :
    s.expireLoop notices =
      if s.time cell ≤ 0 then s.expireHead notices else some (notices, s) := by
  have hhead : s.head = cell := hchain.head_eq
  have hnext : (s.nodes cell).next = 0 := (@Chain.at_cell _ [] _ _ hchain).2
  rw [expireLoop]
  simp only [hhead, hnext, if_true]
  rfl

theorem expireLoop_next {s : Timers} {cell next : ℕ} {rest : List ℕ}
    (hchain : Chain s (cell :: next :: rest)) (notices : List Notice) :
    s.expireLoop notices =
      if s.time cell ≤ 0 then
        ((s.setDtime next (s.time next + s.time cell)).expireHead notices).bind
          fun (notices, s) => s.expireLoop notices
      else some (notices, s) := by
  have hhead : s.head = cell := hchain.head_eq
  have hnext : (s.nodes cell).next = next := (@Chain.at_cell _ [] _ _ hchain).2
  have hne : next ≠ 0 := hchain.ne_zero (by simp)
  rw [expireLoop]
  simp only [hhead, hnext, hne, if_false]
  refine if_congr Iff.rfl ?_ rfl
  split
  · rename_i hexpire
    change expireHead _ _ = none at hexpire
    rw [show (s.setDtime next (s.time next + s.time cell)).expireHead notices =
      none from hexpire]
    rfl
  · rename_i sent t hexpire
    rw [show (s.setDtime next (s.time next + s.time cell)).expireHead notices =
      some (sent, t) from hexpire]
    rfl

/-- The head is set nearer by the time that has passed, and runs out if it is
due. -/
theorem decrement_cons {s : Timers} {cell : ℕ} {rest : List ℕ}
    (hchain : Chain s (cell :: rest)) (prev now : ℚ) :
    ∃ passed, Chain passed (cell :: rest) ∧ passed.fresh = s.fresh ∧
      passed.num = s.num ∧
      passed.time = shift s.time (cell :: rest) (prev - now) ∧
      s.decrement prev now =
        if passed.time cell = 0 then passed.expireHead []
        else if passed.time cell < 0 then passed.expireLoop []
        else some ([], passed) := by
  have hhead : s.head = cell := hchain.head_eq
  have hcell : cell ≠ 0 := hchain.ne_zero List.mem_cons_self
  let passed := s.setDtime cell (s.time cell - (now - prev))
  have hpassed : passed.head = cell := hhead
  have hdecrement : s.decrement prev now =
      if passed.time passed.head = 0 then passed.expireHead []
      else if passed.time passed.head < 0 then passed.expireLoop []
      else some ([], passed) := by
    simp only [decrement, hhead, ne_eq, hcell, not_false_eq_true, if_true]
    rfl
  rw [hpassed] at hdecrement
  refine ⟨passed, hchain.setDtime _ _, rfl, num_setDtime s cell _, ?_,
    hdecrement⟩
  rw [time_setDtime, shift]
  congr 1
  ring

section Rule

variable {I : List Notice → Timers → List ℕ → Prop}

/-- What every expiration keeps, the loop keeps. -/
theorem expireLoop_rule
    (hstep : ∀ notices s cell rest s', Chain s (cell :: rest) →
      I notices s (cell :: rest) → Expired s cell rest s' →
      I (notices ++ [s.notice cell]) s' rest)
    {rest : List ℕ} :
    ∀ {s s' : Timers} {cell : ℕ} {notices notices' : List Notice},
      Chain s (cell :: rest) → I notices s (cell :: rest) →
      s.expireLoop notices = some (notices', s') →
      ∃ cells', Chain s' cells' ∧ I notices' s' cells' := by
  induction rest with
  | nil =>
      intro s s' cell notices notices' hchain hI hloop
      rw [expireLoop_last hchain] at hloop
      by_cases hdue : s.time cell ≤ 0
      · rw [if_pos hdue] at hloop
        obtain ⟨rfl, hremoved⟩ := expireHead_spec hchain hloop
        obtain ⟨carried, htime, -⟩ := hremoved.time
        exact ⟨[], hremoved.chain, hstep _ _ _ _ _ hchain hI
          ⟨hdue, hremoved.chain, hremoved.fresh, hremoved.num, carried, htime,
            fun h => absurd rfl h⟩⟩
      · rw [if_neg hdue, Option.some.injEq, Prod.mk.injEq] at hloop
        obtain ⟨rfl, rfl⟩ := hloop
        exact ⟨_, hchain, hI⟩
  | cons next rest ih =>
      intro s s' cell notices notices' hchain hI hloop
      rw [expireLoop_next hchain] at hloop
      by_cases hdue : s.time cell ≤ 0
      · rw [if_pos hdue] at hloop
        let carry := s.setDtime next (s.time next + s.time cell)
        have hcarry : carry.time = shift s.time (next :: rest) (s.time cell) :=
          time_setDtime s next _
        have hother : cell ∉ next :: rest :=
          (List.nodup_cons.1 hchain.nodup).1
        obtain ⟨⟨sent, t⟩, hexpire, hrest⟩ := Option.bind_eq_some_iff.1 hloop
        obtain ⟨rfl, hremoved⟩ :=
          expireHead_spec (hchain.setDtime next _) hexpire
        obtain ⟨carried, htime, hint⟩ := hremoved.time
        have hnotice : carry.notice cell = s.notice cell := by
          simp only [notice, carry, num_setDtime]
        have hexpired : Expired s cell (next :: rest) t := by
          refine ⟨hdue, hremoved.chain, hremoved.fresh, ?_, carried, ?_, ?_⟩
          · rw [hremoved.num, num_setDtime]
          · rw [htime, hcarry, shift_shift]
          · intro hne
            rw [← hint hne, hcarry, shift_of_notMem _ _ hother]
        have hI' := hstep _ _ _ _ _ hchain hI hexpired
        rw [hnotice] at hrest
        exact ih hremoved.chain hI' hrest
      · rw [if_neg hdue, Option.some.injEq, Prod.mk.injEq] at hloop
        obtain ⟨rfl, rfl⟩ := hloop
        exact ⟨_, hchain, hI⟩

/-- What holds once the elapsed time is taken off the head and every
expiration keeps, `decrement` keeps. -/
theorem decrement_rule {s s' : Timers} {cells : List ℕ} {prev now : ℚ}
    {notices : List Notice} (hchain : Chain s cells)
    (hstart : ∀ t : Timers, Chain t cells → t.fresh = s.fresh →
      t.num = s.num → t.time = shift s.time cells (prev - now) → I [] t cells)
    (hstep : ∀ notices s cell rest s', Chain s (cell :: rest) →
      I notices s (cell :: rest) → Expired s cell rest s' →
      I (notices ++ [s.notice cell]) s' rest)
    (hdecrement : s.decrement prev now = some (notices, s')) :
    ∃ cells', Chain s' cells' ∧ I notices s' cells' := by
  cases cells with
  | nil =>
      have hhead : s.head = 0 := hchain.head_eq
      simp only [decrement, hhead, ne_eq, not_true_eq_false, if_false,
        Option.some.injEq, Prod.mk.injEq] at hdecrement
      obtain ⟨rfl, rfl⟩ := hdecrement
      exact ⟨[], hchain, hstart _ hchain rfl rfl rfl⟩
  | cons cell rest =>
      obtain ⟨passed, hchain', hfresh, hnum, hpassed, heq⟩ :=
        decrement_cons hchain prev now
      have hI : I [] passed (cell :: rest) :=
        hstart passed hchain' hfresh hnum hpassed
      rw [heq] at hdecrement
      by_cases hzero : passed.time cell = 0
      · rw [if_pos hzero] at hdecrement
        obtain ⟨rfl, hremoved⟩ := expireHead_spec hchain' hdecrement
        obtain ⟨carried, htime, hint⟩ := hremoved.time
        rw [hzero] at hint
        have hexpired : Expired passed cell rest s' := by
          refine ⟨hzero.le, hremoved.chain, hremoved.fresh, hremoved.num,
            carried, ?_, ?_⟩
          · rw [htime, hzero, zero_add]
          · rw [hzero]
            exact hint
        exact ⟨rest, hremoved.chain, hstep _ _ _ _ _ hchain' hI hexpired⟩
      · rw [if_neg hzero] at hdecrement
        by_cases hover : passed.time cell < 0
        · rw [if_pos hover] at hdecrement
          exact expireLoop_rule hstep hchain' hI hdecrement
        · rw [if_neg hover, Option.some.injEq, Prod.mk.injEq] at hdecrement
          obtain ⟨rfl, rfl⟩ := hdecrement
          exact ⟨_, hchain', hI⟩

end Rule

end Timers

end UdpTransfer.Timer
