import UdpTransfer.Timer.Chain

/-!
# Inserting a timer

`insertValue` always returns, with one new cell in the list.  The walk for its
place mixes up several cases, so the new timer need not run out when it should:
`startLateness` says by how much it is late.
-/

namespace UdpTransfer.Timer

open Function

namespace Timers

/-- How much later than asked for a new timer is set, where the walk has come
as far as `cells`. -/
def lateness (time : ℕ → ℚ) (dtime : ℚ) : ℚ → List ℕ → ℚ
  | _, [] => 0
  | elapse, [last] =>
      if elapse + time last < dtime then
        if elapse + time last + time last ≤ dtime ∧
            elapse + time last ≠ 0 then 0
        else -time last
      else if elapse + time last = dtime ∧ elapse ≠ 0 then time last
      else 0
  | elapse, cur :: next :: rest =>
      if elapse + time cur < dtime then
        lateness time dtime (elapse + time cur) (next :: rest)
      else time cur

/-- How much later than asked for `insertValue` sets a new timer. -/
def startLateness (time : ℕ → ℚ) (dtime : ℚ) : List ℕ → ℚ
  | [] => 0
  | first :: rest =>
      if dtime = time first then -dtime
      else if dtime < time first ∨ rest = [] then 0
      else lateness time dtime 0 (first :: rest)

theorem startLateness_walk {time : ℕ → ℚ} {dtime : ℚ} {first : ℕ}
    {rest : List ℕ} (hdtime : time first < dtime) :
    startLateness time dtime (first :: rest) =
      if rest = [] then 0 else lateness time dtime 0 (first :: rest) := by
  rw [startLateness, if_neg hdtime.ne']
  by_cases hrest : rest = []
  · rw [if_pos (.inr hrest), if_pos hrest]
  · rw [if_neg, if_neg hrest]
    rintro (h | h)
    · exact h.not_gt hdtime
    · exact hrest h

/-- `dtime` falls between the timers `before` and those `after`. -/
structure Placed (time : ℕ → ℚ) (dtime : ℚ) (before after : List ℕ) : Prop where
  behind : before ≠ [] → span time before ≤ dtime
  ahead : ∀ next ∈ after.head?, dtime ≤ span time before + time next

theorem traverse_spec {s : Timers} {dtime : ℚ} {rest : List ℕ} :
    ∀ {before : List ℕ} {cur : ℕ} {elapse : ℚ},
      Chain s (before ++ cur :: rest) →
      ∃ mid stop after elapse', cur :: rest = mid ++ stop :: after ∧
        s.traverse dtime elapse cur = some (elapse', stop) ∧
        lateness s.time dtime elapse (cur :: rest) =
          lateness s.time dtime (elapse + span s.time mid) (stop :: after) ∧
        (mid ≠ [] → elapse + span s.time mid < dtime) ∧
        (elapse' = elapse + span s.time mid ∧ dtime ≤ elapse' + s.time stop ∨
          after = [] ∧ elapse' = elapse + span s.time mid + s.time stop ∧
            elapse' < dtime) := by
  induction rest with
  | nil =>
      intro before cur elapse hchain
      have hnext := hchain.at_cell.2
      rw [List.headD_nil] at hnext
      rw [traverse]
      by_cases hpass : elapse + s.time cur < dtime
      · refine ⟨[], cur, [], elapse + s.time cur, rfl, ?_, by simp [span],
          fun h => absurd rfl h, .inr ⟨rfl, by simp [span], hpass⟩⟩
        rw [time] at hpass ⊢
        simp only [hpass, hnext, if_true]
      · refine ⟨[], cur, [], elapse, rfl, ?_, by simp [span],
          fun h => absurd rfl h, .inl ⟨by simp [span], by linarith⟩⟩
        rw [time] at hpass
        simp only [hpass, if_false]
  | cons next rest ih =>
      intro before cur elapse hchain
      have hnext := hchain.at_cell.2
      rw [List.headD_cons] at hnext
      have hne : next ≠ 0 := hchain.ne_zero (by simp)
      rw [traverse]
      by_cases hpass : elapse + s.time cur < dtime
      · have hchain' : Chain s ((before ++ [cur]) ++ next :: rest) := by
          simpa using hchain
        obtain ⟨mid, stop, after, elapse', hcells, hwalk, hlate, hbehind,
          hstop⟩ := @ih (before ++ [cur]) next (elapse + s.time cur) hchain'
        refine ⟨cur :: mid, stop, after, elapse', by rw [hcells]; rfl, ?_, ?_,
          ?_, ?_⟩
        · rw [time] at hpass hwalk
          simp only [hpass, hnext, hne, if_true, if_false, hwalk]
        · rw [add_span_cons, ← hlate, lateness, if_pos hpass]
        · intro _
          rw [add_span_cons]
          by_cases hmid : mid = []
          · rw [hmid, span_nil, add_zero]
            exact hpass
          · exact hbehind hmid
        · rw [add_span_cons]
          exact hstop
      · refine ⟨[], cur, next :: rest, elapse, rfl, ?_, by simp [span],
          fun h => absurd rfl h, .inl ⟨by simp [span], by linarith⟩⟩
        rw [time] at hpass
        simp only [hpass, if_false]

/-- `node` was linked in between `before` and `after`, with time `delta`. -/
structure Linked (s : Timers) (before after : List ℕ) (node : ℕ) (delta : ℚ)
    (s' : Timers) : Prop where
  chain : Chain s' (before ++ node :: after)
  fresh : s'.fresh = s.fresh
  num : s'.num = s.num
  time : s'.time = update s.time node delta

theorem Chain.link {s s' : Timers} {before after : List ℕ} {node : ℕ}
    (hchain : Chain s (before ++ after))
    (hnode : node ∉ 0 :: (before ++ after)) (hlt : node < s.fresh)
    (hsucc : s'.succ = update (update s.succ node (after.headD 0))
      (before.getLastD 0) node)
    (hpred : s'.pred = update (update s.pred node (before.getLastD 0))
      (after.headD 0) node)
    (hfresh : s'.fresh = s.fresh) : Chain s' (before ++ node :: after) := by
  refine ⟨hchain.threaded.link hnode hsucc hpred, ?_, hfresh ▸ hchain.fresh_pos⟩
  intro cell hcell
  rw [List.mem_append, List.mem_cons] at hcell
  rw [hfresh]
  rcases hcell with hcell | rfl | hcell
  · exact hchain.allocated cell (List.mem_append_left _ hcell)
  · exact hlt
  · exact hchain.allocated cell (List.mem_append_right _ hcell)

theorem linkNode_front {s : Timers} {cells : List ℕ} {node : ℕ}
    {dtime elapse : ℚ} (hchain : Chain s cells) (hcells : cells ≠ [])
    (hnode : node ∉ 0 :: cells) (hlt : node < s.fresh)
    (hdtime : dtime ≤ s.time s.head) :
    ∃ s', s.linkNode dtime elapse s.head node = some s' ∧
      Linked s [] cells node (s.time node) s' := by
  have hzero : node ≠ 0 := fun h => hnode (h ▸ List.mem_cons_self)
  have hhead : s.head = cells.headD 0 := hchain.head_eq
  have hcur : s.head ≠ 0 := hchain.ne_zero (hchain.head_mem hcells)
  rw [time] at hdtime
  refine ⟨{ ((s.setPrev node 0).setNext node s.head).setPrev s.head node with
    head := node }, by simp only [linkNode, if_pos hdtime], ?_, rfl, ?_, ?_⟩
  · refine @Chain.link _ _ [] _ _ hchain hnode hlt ?_ ?_ rfl
    · rw [succ_setHead, succ_setPrev, succ_setNext _ _ hzero, succ_setPrev,
        hhead]
      rfl
    · rw [pred_setHead, pred_setPrev _ _ hcur, pred_setNext,
        pred_setPrev _ _ hzero, hhead]
      rfl
  · rw [num_setHead]
    simp
  · rw [time_setHead]
    simp

theorem linkNode_middle {s : Timers} {before rest : List ℕ}
    {current next node : ℕ} {dtime elapse : ℚ}
    (hchain : Chain s (before ++ current :: next :: rest))
    (hnode : node ∉ 0 :: (before ++ current :: next :: rest))
    (hlt : node < s.fresh) (hdtime : s.time s.head < dtime) :
    ∃ s', s.linkNode dtime elapse current node = some s' ∧
      Linked s (before ++ [current]) (next :: rest) node (s.time node) s' := by
  have hzero : node ≠ 0 := fun h => hnode (h ▸ List.mem_cons_self)
  have hcur : current ≠ 0 := hchain.ne_zero (by simp)
  have hne : next ≠ 0 := hchain.ne_zero (by simp)
  have hother : next ≠ node := by
    rintro rfl
    simp at hnode
  have hnext : (s.nodes current).next = next := hchain.at_cell.2
  rw [time] at hdtime
  have hcells : before ++ current :: next :: rest =
      (before ++ [current]) ++ next :: rest := by simp
  rw [hcells] at hchain hnode
  refine ⟨(((s.setNext node next).setPrev next node).setPrev node
    current).setNext current node, ?_, ?_, rfl, ?_, ?_⟩
  · simp only [linkNode, if_neg hdtime.not_ge, hnext, ne_eq, hne,
      not_false_eq_true, if_true]
  · refine hchain.link hnode hlt ?_ ?_ rfl
    · rw [succ_setNext _ _ hcur, succ_setPrev, succ_setPrev,
        succ_setNext _ _ hzero]
      simp
    · rw [pred_setNext, pred_setPrev _ _ hzero, pred_setPrev _ _ hne,
        pred_setNext, update_comm hother]
      simp
  · simp
  · simp

theorem linkNode_end {s : Timers} {before : List ℕ} {current node : ℕ}
    {dtime elapse : ℚ} (hchain : Chain s (before ++ [current]))
    (hnode : node ∉ 0 :: (before ++ [current])) (hlt : node < s.fresh)
    (hdtime : s.time s.head < dtime)
    (hpast : elapse + s.time current ≤ dtime) :
    ∃ s', s.linkNode dtime elapse current node = some s' ∧
      Linked s (before ++ [current]) [] node
        (if elapse = 0 then dtime - s.time current else s.time node) s' := by
  have hzero : node ≠ 0 := fun h => hnode (h ▸ List.mem_cons_self)
  have hcur : current ≠ 0 := hchain.ne_zero (by simp)
  have hother : current ≠ node := by
    rintro rfl
    simp at hnode
  have hnext : (s.nodes current).next = 0 := hchain.at_cell.2
  rw [time] at hdtime hpast
  let filled := if elapse = 0 then s.setDtime node (dtime - s.time current)
    else s
  have hfilled : filled.succ = s.succ ∧ filled.pred = s.pred ∧
      filled.fresh = s.fresh ∧ filled.num = s.num ∧ filled.time =
        update s.time node
          (if elapse = 0 then dtime - s.time current else s.time node) := by
    by_cases helapse : elapse = 0
    · simp [filled, helapse]
    · simp [filled, helapse]
  obtain ⟨hsucc, hpred, hfresh, hnum, htime⟩ := hfilled
  refine ⟨{ ((filled.setNext current node).setNext node 0).setPrev node
    current with tail := node }, ?_, ?_, hfresh, ?_, ?_⟩
  · simp only [linkNode, if_neg hdtime.not_ge, hnext, ne_eq, not_true_eq_false,
      if_false, if_pos hpast]
    rfl
  · rw [← List.append_nil (before ++ [current])] at hchain hnode
    refine hchain.link hnode hlt ?_ ?_ hfresh
    · rw [succ_setTail, succ_setPrev, succ_setNext _ _ hzero,
        succ_setNext _ _ hcur, update_comm hother, hsucc]
      simp
    · rw [pred_setTail, pred_setPrev _ _ hzero, pred_setNext, pred_setNext,
        hpred]
      simp
  · rw [num_setTail]
    simp [hnum]
  · rw [time_setTail]
    simp [htime]

theorem linkNode_beforeTail {s : Timers} {before : List ℕ} {current node : ℕ}
    {dtime elapse : ℚ} (hchain : Chain s (before ++ [current]))
    (hbefore : before ≠ []) (hnode : node ∉ 0 :: (before ++ [current]))
    (hlt : node < s.fresh) (hdtime : s.time s.head < dtime)
    (hpast : dtime < elapse + s.time current) :
    ∃ s', s.linkNode dtime elapse current node = some s' ∧
      Linked s before [current] node (s.time node) s' := by
  have hzero : node ≠ 0 := fun h => hnode (h ▸ List.mem_cons_self)
  have hcur : current ≠ 0 := hchain.ne_zero (by simp)
  have hnext : (s.nodes current).next = 0 := hchain.at_cell.2
  have hprev : (s.nodes current).prev = before.getLastD 0 := hchain.at_cell.1
  have hlast : before.getLastD 0 ≠ 0 := by
    rw [Ne, hchain.getLastD_eq_zero]
    exact hbefore
  have hother : before.getLastD 0 ≠ node := by
    rcases List.eq_nil_or_concat before with rfl | ⟨front, last, rfl⟩
    · exact absurd rfl hbefore
    · rintro rfl
      simp at hnode
  rw [time] at hdtime hpast
  refine ⟨(((s.setNext (before.getLastD 0) node).setPrev node
    (before.getLastD 0)).setPrev current node).setNext node current, ?_, ?_,
    rfl, ?_, ?_⟩
  · simp only [linkNode, if_neg hdtime.not_ge, hnext, ne_eq, not_true_eq_false,
      if_false, if_neg hpast.not_ge, hprev, hlast]
  · refine hchain.link hnode hlt ?_ ?_ rfl
    · rw [succ_setNext _ _ hzero, succ_setPrev, succ_setPrev,
        succ_setNext _ _ hlast, update_comm hother]
      rfl
    · rw [pred_setNext, pred_setPrev _ _ hcur, pred_setPrev _ _ hzero,
        pred_setNext]
      rfl
  · simp
  · simp

theorem Chain.fresh_notMem {s : Timers} {cells : List ℕ}
    (hchain : Chain s cells) : s.fresh ∉ 0 :: cells := by
  rw [List.mem_cons, not_or]
  exact ⟨hchain.fresh_pos.ne', fun h => (hchain.allocated _ h).false⟩

/-- The state after the `malloc` of a node. -/
def alloc (s : Timers) (node : ListNode) : Timers :=
  { s.setNode s.fresh node with fresh := s.fresh + 1 }

theorem time_alloc (s : Timers) (node : ListNode) :
    (s.alloc node).time = update s.time s.fresh node.dtime :=
  time_setNode s s.fresh node

theorem Chain.time_alloc {s : Timers} {cells : List ℕ} (hchain : Chain s cells)
    (node : ListNode) {cell : ℕ} (hcell : cell ∈ cells) :
    (s.alloc node).time cell = s.time cell := by
  rw [Timers.time_alloc, update_of_ne]
  rintro rfl
  exact hchain.fresh_notMem (List.mem_cons_of_mem _ hcell)

/-- The node that `malloc` returns is not one of the list. -/
theorem Chain.alloc {s : Timers} {cells : List ℕ} (hchain : Chain s cells)
    (node : ListNode) : Chain (s.alloc node) cells := by
  have hfresh : s.fresh ≠ 0 := hchain.fresh_pos.ne'
  have hother : ∀ cell ∈ 0 :: cells, cell ≠ s.fresh :=
    fun cell hcell h => hchain.fresh_notMem (h ▸ hcell)
  refine ⟨hchain.threaded.congr (fun cell hcell => ?_) (fun cell hcell => ?_),
    fun cell hcell => (hchain.allocated cell hcell).trans s.fresh.lt_succ_self,
    s.fresh.succ_pos⟩
  · change (s.setNode s.fresh node).succ cell = _
    rw [succ_setNode _ _ hfresh, update_of_ne (hother cell hcell)]
  · change (s.setNode s.fresh node).pred cell = _
    rw [pred_setNode _ _ hfresh, update_of_ne (hother cell hcell)]

/-- The new timer stands between `before` and `after`, and runs for `delta`
after the timer before it. -/
structure Inserted (s : Timers) (before after : List ℕ) (byteSeqNum : UInt32)
    (delta : ℚ) (s' : Timers) : Prop where
  chain : Chain s' (before ++ s.fresh :: after)
  fresh : s'.fresh = s.fresh + 1
  num : s'.num = update s.num s.fresh byteSeqNum
  time : s'.time = shift (update s.time s.fresh delta) after (-delta)

section Inserted

variable {s s' : Timers} {before after : List ℕ} {byteSeqNum : UInt32}
  {delta : ℚ}

theorem Inserted.time_fresh
    (hinserted : Inserted s before after byteSeqNum delta s')
    (hchain : Chain s (before ++ after)) : s'.time s.fresh = delta := by
  have hnotAfter : s.fresh ∉ after := fun hmem =>
    hchain.fresh_notMem (by simp [hmem])
  rw [hinserted.time, shift_of_notMem _ _ hnotAfter, update_self]

theorem Inserted.time_before
    (hinserted : Inserted s before after byteSeqNum delta s')
    (hchain : Chain s (before ++ after)) :
    ∀ cell ∈ before, s'.time cell = s.time cell := by
  intro cell hcell
  have hnodup := List.nodup_append.1 hchain.nodup
  have hcellAfter : cell ∉ after := fun h => hnodup.2.2 _ hcell _ h rfl
  rw [hinserted.time, shift_of_notMem _ _ hcellAfter, update_of_ne]
  rintro rfl
  exact hchain.fresh_notMem (by simp [hcell])

/-- Behind the new timer nothing is changed but the time of the first. -/
theorem Inserted.time_after
    (hinserted : Inserted s before after byteSeqNum delta s')
    (hchain : Chain s (before ++ after)) :
    ∃ time, s'.time = shift time after (-delta) ∧
      ∀ cell ∈ after, time cell = s.time cell := by
  refine ⟨_, hinserted.time, fun cell hcell => ?_⟩
  rw [update_of_ne]
  rintro rfl
  exact hchain.fresh_notMem (by simp [hcell])

theorem Inserted.num_fresh
    (hinserted : Inserted s before after byteSeqNum delta s') :
    s'.num s.fresh = byteSeqNum := by
  rw [hinserted.num, update_self]

theorem Inserted.num_old
    (hinserted : Inserted s before after byteSeqNum delta s')
    (hchain : Chain s (before ++ after)) :
    ∀ cell ∈ before ++ after, s'.num cell = s.num cell := by
  intro cell hcell
  rw [hinserted.num, update_of_ne]
  rintro rfl
  exact hchain.fresh_notMem (List.mem_cons_of_mem 0 hcell)

theorem Inserted.entries
    (hinserted : Inserted s before after byteSeqNum delta s')
    (hchain : Chain s (before ++ after)) :
    (s'.entries (before ++ s.fresh :: after)).Perm
      ((s.fresh, byteSeqNum) :: s.entries (before ++ after)) := by
  have hsame : s'.entries (before ++ after) = s.entries (before ++ after) := by
    refine List.map_congr_left fun cell hcell => ?_
    rw [hinserted.num_old hchain cell hcell]
  rw [← hsame, Timers.entries, Timers.entries, List.map_append, List.map_cons,
    hinserted.num_fresh, List.map_append]
  exact List.perm_middle

end Inserted

theorem Linked.inserted {s s' : Timers} {before after : List ℕ}
    {node : ListNode} {delta : ℚ}
    (hlinked : Linked (s.alloc node) before after s.fresh delta s') :
    Inserted s before after node.byteSeqNum delta
      (s'.updateFollowing s.fresh) := by
  have hnum : s'.num = update s.num s.fresh node.byteSeqNum := by
    rw [hlinked.num]
    exact num_setNode s s.fresh node
  have htime : s'.time = update s.time s.fresh delta := by
    rw [hlinked.time, time_alloc, update_idem]
  have hnext : (s'.nodes s.fresh).next = after.headD 0 :=
    hlinked.chain.at_cell.2
  cases after with
  | nil =>
      have hsame : s'.updateFollowing s.fresh = s' := by
        simp [updateFollowing, hnext]
      rw [hsame]
      exact ⟨hlinked.chain, hlinked.fresh, hnum, htime⟩
  | cons first rest =>
      have hfirst : first ≠ 0 := hlinked.chain.ne_zero (by simp)
      have hset : s'.updateFollowing s.fresh =
          s'.setDtime first (s'.time first - s'.time s.fresh) := by
        simp only [updateFollowing, hnext, List.headD_cons, ne_eq, hfirst,
          not_false_eq_true, if_true]
        rfl
      rw [hset]
      refine ⟨hlinked.chain.setDtime _ _, hlinked.fresh, ?_, ?_⟩
      · rw [num_setDtime, hnum]
      · rw [time_setDtime, htime, update_self, sub_eq_add_neg]
        rfl

theorem findPlace_front {s : Timers} {first : ℕ} {rest : List ℕ} {dtime : ℚ}
    (hchain : Chain s (first :: rest)) (hdtime : dtime ≤ s.time first) :
    s.findPlace dtime =
      some (if dtime = s.time first then dtime else 0, s.head) := by
  have hhead : s.head = first := hchain.head_eq
  by_cases htie : dtime = s.time first
  · rw [time] at htie
    simp only [findPlace, time, hhead, htie, if_true]
  · have hstop : ¬ 0 + (s.nodes first).dtime < dtime := by
      rw [zero_add]
      exact hdtime.not_gt
    rw [time] at htie
    rw [findPlace, traverse]
    simp only [time, hhead, htie, hstop, if_false, ite_self]

theorem findPlace_only {s : Timers} {first : ℕ} {dtime : ℚ}
    (hchain : Chain s [first]) (hdtime : s.time first < dtime) :
    s.findPlace dtime = some (0, s.head) := by
  have hhead : s.head = first := hchain.head_eq
  have hnext : (s.nodes first).next = 0 :=
    (@Chain.at_cell _ [] _ _ hchain).2
  have htie : dtime ≠ (s.nodes first).dtime := hdtime.ne'
  simp [findPlace, hhead, hnext, htie]

theorem findPlace_walk {s : Timers} {first next : ℕ} {rest : List ℕ} {dtime : ℚ}
    (hchain : Chain s (first :: next :: rest)) (hdtime : s.time first < dtime) :
    s.findPlace dtime = s.traverse dtime 0 first := by
  have hhead : s.head = first := hchain.head_eq
  have hnext : (s.nodes first).next = next :=
    (@Chain.at_cell _ [] _ _ hchain).2
  have hne : next ≠ 0 := hchain.ne_zero (by simp)
  have htie : dtime ≠ (s.nodes first).dtime := hdtime.ne'
  simp [findPlace, hhead, hnext, htie, hne]

/-- The node that `insertValue` fills in, before it is linked. -/
def newNode (dtime : ℚ) (port : ℤ) (byteSeqNum : UInt32) : ListNode where
  dtime := dtime
  port := port
  byteSeqNum := byteSeqNum
  prev := 0
  next := 0

theorem insertValue_nil {s : Timers} (hchain : Chain s []) (dtime : ℚ)
    (port : ℤ) (byteSeqNum : UInt32) :
    ∃ s', s.insertValue dtime port byteSeqNum = some s' ∧
      Inserted s [] [] byteSeqNum dtime s' := by
  have hhead : s.head = 0 := hchain.head_eq
  have hfresh : s.fresh ≠ 0 := hchain.fresh_pos.ne'
  let node := newNode dtime port byteSeqNum
  refine ⟨_, by rw [insertValue, if_pos hhead], ?_, rfl, ?_, ?_⟩
  · refine @Chain.link _ _ [] [] _ (hchain.alloc node) hchain.fresh_notMem
      s.fresh.lt_succ_self ?_ ?_ rfl
    · change ({ s.setNode s.fresh node with head := s.fresh } : Timers).succ =
        update (update (s.setNode s.fresh node).succ s.fresh 0) 0 s.fresh
      rw [succ_setHead, succ_setNode _ _ hfresh, update_idem]
      rfl
    · change ({ s.setNode s.fresh node with tail := s.fresh } : Timers).pred =
        update (update (s.setNode s.fresh node).pred s.fresh 0) 0 s.fresh
      rw [pred_setTail, pred_setNode _ _ hfresh, update_idem]
      rfl
  · exact num_setNode s s.fresh node
  · exact time_setNode s s.fresh node

section Places

variable {s : Timers} {before rest : List ℕ} {first stop next : ℕ}
variable {dtime elapse : ℚ} (port : ℤ) (byteSeqNum : UInt32)

theorem insertValue_of_linked {delta : ℚ} {current : ℕ} {after : List ℕ}
    (hhead : s.head ≠ 0) (hplace : s.findPlace dtime = some (elapse, current))
    (hlink : ∃ s',
      (s.alloc (newNode (dtime - elapse) port byteSeqNum)).linkNode dtime elapse
        current s.fresh = some s' ∧
      Linked (s.alloc (newNode (dtime - elapse) port byteSeqNum)) before after
        s.fresh delta s') :
    ∃ s', s.insertValue dtime port byteSeqNum = some s' ∧
      Inserted s before after byteSeqNum delta s' := by
  obtain ⟨s', hlink, hlinked⟩ := hlink
  refine ⟨_, ?_, hlinked.inserted⟩
  rw [insertValue, if_neg hhead, hplace]
  change (((s.alloc (newNode (dtime - elapse) port byteSeqNum)).linkNode dtime
    elapse current s.fresh).map fun s' => s'.updateFollowing s.fresh) = _
  rw [hlink]
  rfl

theorem insertValue_front (hchain : Chain s (first :: rest))
    (hdtime : dtime ≤ s.time first) :
    ∃ s', s.insertValue dtime port byteSeqNum = some s' ∧
      Inserted s [] (first :: rest) byteSeqNum
        (dtime - if dtime = s.time first then dtime else 0) s' := by
  have hhead : s.head = first := hchain.head_eq
  have hfirst : first ≠ 0 := hchain.ne_zero List.mem_cons_self
  let node := newNode (dtime - if dtime = s.time first then dtime else 0) port
    byteSeqNum
  have htime : dtime ≤ (s.alloc node).time (s.alloc node).head := by
    change dtime ≤ (s.alloc node).time s.head
    rwa [hhead, hchain.time_alloc _ List.mem_cons_self]
  obtain ⟨s', hlink, hlinked⟩ := linkNode_front (hchain.alloc node) (by simp)
    hchain.fresh_notMem s.fresh.lt_succ_self htime
  rw [time_alloc, update_self] at hlinked
  exact insertValue_of_linked port byteSeqNum (hhead ▸ hfirst)
    (findPlace_front hchain hdtime) ⟨s', hlink, hlinked⟩

theorem insertValue_middle (hchain : Chain s (before ++ stop :: next :: rest))
    (hplace : s.findPlace dtime = some (elapse, stop))
    (hdtime : s.time s.head < dtime) :
    ∃ s', s.insertValue dtime port byteSeqNum = some s' ∧
      Inserted s (before ++ [stop]) (next :: rest) byteSeqNum (dtime - elapse)
        s' := by
  have hhead := hchain.head_mem (by simp)
  let node := newNode (dtime - elapse) port byteSeqNum
  have htime : (s.alloc node).time (s.alloc node).head < dtime := by
    change (s.alloc node).time s.head < dtime
    rwa [hchain.time_alloc _ hhead]
  obtain ⟨s', hlink, hlinked⟩ := @linkNode_middle _ _ _ _ _ _ _
    elapse (hchain.alloc node) hchain.fresh_notMem s.fresh.lt_succ_self htime
  rw [time_alloc, update_self] at hlinked
  exact insertValue_of_linked port byteSeqNum (hchain.ne_zero hhead) hplace
    ⟨s', hlink, hlinked⟩

theorem insertValue_end (hchain : Chain s (before ++ [stop]))
    (hplace : s.findPlace dtime = some (elapse, stop))
    (hdtime : s.time s.head < dtime) (hpast : elapse + s.time stop ≤ dtime) :
    ∃ s', s.insertValue dtime port byteSeqNum = some s' ∧
      Inserted s (before ++ [stop]) [] byteSeqNum
        (if elapse = 0 then dtime - s.time stop else dtime - elapse) s' := by
  have hhead := hchain.head_mem (by simp)
  have hstop : stop ∈ before ++ [stop] := by simp
  let node := newNode (dtime - elapse) port byteSeqNum
  have htime : (s.alloc node).time (s.alloc node).head < dtime := by
    change (s.alloc node).time s.head < dtime
    rwa [hchain.time_alloc _ hhead]
  have hpast' : elapse + (s.alloc node).time stop ≤ dtime := by
    rwa [hchain.time_alloc _ hstop]
  obtain ⟨s', hlink, hlinked⟩ := linkNode_end (hchain.alloc node)
    hchain.fresh_notMem s.fresh.lt_succ_self htime hpast'
  rw [time_alloc, update_self, ← time_alloc, hchain.time_alloc _ hstop]
    at hlinked
  exact insertValue_of_linked port byteSeqNum (hchain.ne_zero hhead) hplace
    ⟨s', hlink, hlinked⟩

theorem insertValue_beforeTail (hchain : Chain s (before ++ [stop]))
    (hbefore : before ≠ []) (hplace : s.findPlace dtime = some (elapse, stop))
    (hdtime : s.time s.head < dtime) (hpast : dtime < elapse + s.time stop) :
    ∃ s', s.insertValue dtime port byteSeqNum = some s' ∧
      Inserted s before [stop] byteSeqNum (dtime - elapse) s' := by
  have hhead := hchain.head_mem (by simp)
  have hstop : stop ∈ before ++ [stop] := by simp
  let node := newNode (dtime - elapse) port byteSeqNum
  have htime : (s.alloc node).time (s.alloc node).head < dtime := by
    change (s.alloc node).time s.head < dtime
    rwa [hchain.time_alloc _ hhead]
  have hpast' : dtime < elapse + (s.alloc node).time stop := by
    rwa [hchain.time_alloc _ hstop]
  obtain ⟨s', hlink, hlinked⟩ := linkNode_beforeTail (hchain.alloc node)
    hbefore hchain.fresh_notMem s.fresh.lt_succ_self htime hpast'
  rw [time_alloc, update_self] at hlinked
  exact insertValue_of_linked port byteSeqNum (hchain.ne_zero hhead) hplace
    ⟨s', hlink, hlinked⟩

/-- The walk stopped before it passed `stop`. -/
theorem insertValue_stopped {after : List ℕ}
    (hchain : Chain s (before ++ stop :: after)) (hbefore : before ≠ [])
    (hplace : s.findPlace dtime = some (span s.time before, stop))
    (hdtime : s.time s.head < dtime) (hbehind : span s.time before < dtime)
    (hstop : dtime ≤ span s.time before + s.time stop) :
    ∃ s' front back delta, s.insertValue dtime port byteSeqNum = some s' ∧
      before ++ stop :: after = front ++ back ∧
      Inserted s front back byteSeqNum delta s' ∧
      span s.time front + delta =
        dtime + lateness s.time dtime (span s.time before) (stop :: after) ∧
      (lateness s.time dtime (span s.time before) (stop :: after) = 0 →
        Placed s.time dtime front back) := by
  cases after with
  | cons next rest =>
      obtain ⟨s', hinsert, hinserted⟩ :=
        insertValue_middle port byteSeqNum hchain hplace hdtime
      rw [lateness, if_neg hstop.not_gt]
      refine ⟨s', _, _, _, hinsert, by simp, hinserted, ?_, fun hlate => ?_⟩
      · rw [span_concat]
        ring
      · rw [hlate, add_zero] at hstop
        exact absurd hbehind hstop.not_gt
  | nil =>
      rw [lateness, if_neg hstop.not_gt]
      rcases eq_or_lt_of_le hstop with htie | hpast
      · obtain ⟨s', hinsert, hinserted⟩ :=
          insertValue_end port byteSeqNum hchain hplace hdtime htie.ge
        refine ⟨s', _, _, _, hinsert, by simp, hinserted, ?_, fun _ =>
          ⟨fun _ => ?_, by simp⟩⟩
        · rw [span_concat]
          by_cases helapse : span s.time before = 0
          · rw [if_pos helapse, if_neg (by tauto), helapse]
            ring
          · rw [if_neg helapse, if_pos ⟨htie.symm, helapse⟩]
            ring
        · rw [span_concat, htie]
      · obtain ⟨s', hinsert, hinserted⟩ := insertValue_beforeTail port
          byteSeqNum hchain hbefore hplace hdtime hpast
        refine ⟨s', _, _, _, hinsert, rfl, hinserted, ?_, fun _ =>
          ⟨fun _ => hbehind.le, ?_⟩⟩
        · rw [if_neg fun h => hpast.ne' h.1]
          ring
        · rintro next ⟨rfl⟩
          exact hstop

/-- The walk passed the last timer. -/
theorem insertValue_passed (hchain : Chain s (before ++ [stop]))
    (hbefore : before ≠ [])
    (hplace : s.findPlace dtime =
      some (span s.time before + s.time stop, stop))
    (hdtime : s.time s.head < dtime)
    (hpass : span s.time before + s.time stop < dtime) :
    ∃ s' front back delta, s.insertValue dtime port byteSeqNum = some s' ∧
      before ++ [stop] = front ++ back ∧
      Inserted s front back byteSeqNum delta s' ∧
      span s.time front + delta =
        dtime + lateness s.time dtime (span s.time before) [stop] ∧
      (lateness s.time dtime (span s.time before) [stop] = 0 →
        Placed s.time dtime front back) := by
  rw [lateness, if_pos hpass]
  rcases le_or_gt (span s.time before + s.time stop + s.time stop) dtime
    with hend | hend
  · obtain ⟨s', hinsert, hinserted⟩ :=
      insertValue_end port byteSeqNum hchain hplace hdtime hend
    refine ⟨s', _, _, _, hinsert, by simp, hinserted, ?_, fun _ =>
      ⟨fun _ => ?_, by simp⟩⟩
    · rw [span_concat]
      by_cases helapse : span s.time before + s.time stop = 0
      · rw [if_pos helapse, if_neg (by tauto), helapse]
        ring
      · rw [if_neg helapse, if_pos ⟨hend, helapse⟩]
        ring
    · rw [span_concat]
      exact hpass.le
  · obtain ⟨s', hinsert, hinserted⟩ := insertValue_beforeTail port byteSeqNum
      hchain hbefore hplace hdtime hend
    have hearly : ¬ (span s.time before + s.time stop + s.time stop ≤ dtime ∧
        span s.time before + s.time stop ≠ 0) := fun h => hend.not_ge h.1
    rw [if_neg hearly]
    refine ⟨s', _, _, _, hinsert, rfl, hinserted, by ring, fun hlate => ?_⟩
    rw [neg_eq_zero] at hlate
    rw [hlate, add_zero] at hend hpass
    exact absurd hpass (by simpa using hend.le)

end Places

/-- `insertValue` always returns, with the new timer in the list.  If it is not
late it also stands in its place. -/
theorem insertValue_spec {s : Timers} {cells : List ℕ} (hchain : Chain s cells)
    (dtime : ℚ) (port : ℤ) (byteSeqNum : UInt32) :
    ∃ s' before after delta,
      s.insertValue dtime port byteSeqNum = some s' ∧
      cells = before ++ after ∧ Inserted s before after byteSeqNum delta s' ∧
      span s.time before + delta =
        dtime + startLateness s.time dtime cells ∧
      (startLateness s.time dtime cells = 0 →
        Placed s.time dtime before after) := by
  match cells, hchain with
  | [], hchain =>
      obtain ⟨s', hinsert, hinserted⟩ :=
        insertValue_nil hchain dtime port byteSeqNum
      exact ⟨s', [], [], dtime, hinsert, rfl, hinserted, by
        simp [span, startLateness], fun _ => ⟨by simp, by simp⟩⟩
  | first :: rest, hchain =>
      have hhead : s.head = first := hchain.head_eq
      rcases le_or_gt dtime (s.time first) with hle | hlt
      · obtain ⟨s', hinsert, hinserted⟩ :=
          insertValue_front port byteSeqNum hchain hle
        refine ⟨s', [], first :: rest, _, hinsert, rfl, hinserted, ?_, fun _ =>
          ⟨by simp, ?_⟩⟩
        · rw [startLateness]
          by_cases htie : dtime = s.time first
          · rw [if_pos htie, if_pos htie]
            simp [span]
          · rw [if_neg htie, if_neg htie,
              if_pos (.inl (lt_of_le_of_ne hle htie))]
            simp [span]
        · rintro next ⟨rfl⟩
          simpa [span] using hle
      · have hlate := @startLateness_walk s.time dtime first rest hlt
        have hhead' : s.time s.head < dtime := by rwa [hhead]
        cases rest with
        | nil =>
            have hpast : 0 + s.time first ≤ dtime := by
              rw [zero_add]
              exact hlt.le
            obtain ⟨s', hinsert, hinserted⟩ := @insertValue_end s [] first dtime
              0 port byteSeqNum hchain (hhead ▸ findPlace_only hchain hlt)
              hhead' hpast
            rw [if_pos rfl] at hinserted
            refine ⟨s', [first], [], _, hinsert, rfl, hinserted, ?_, fun _ =>
              ⟨fun _ => ?_, by simp⟩⟩
            · rw [hlate]
              simp [span]
            · simpa [span] using hlt.le
        | cons next rest =>
            have hplace := findPlace_walk hchain hlt
            obtain ⟨mid, stop, after, elapse, hcells, hwalk, hlate', hbehind,
              hstop⟩ := @traverse_spec s dtime (next :: rest) [] first 0 hchain
            rw [hwalk] at hplace
            rw [hlate, if_neg (by simp), hlate', hcells]
            rw [zero_add] at hstop hbehind ⊢
            rcases hstop with ⟨rfl, hle⟩ | ⟨rfl, rfl, hpass⟩
            · have hmid : mid ≠ [] := by
                rintro rfl
                obtain ⟨rfl, -⟩ := List.cons.inj hcells
                rw [span_nil, zero_add] at hle
                exact absurd hlt hle.not_gt
              rw [hcells] at hchain
              exact insertValue_stopped port byteSeqNum hchain hmid hplace
                hhead' (hbehind hmid) hle
            · have hmid : mid ≠ [] := by
                rintro rfl
                simp at hcells
              rw [hcells] at hchain
              exact insertValue_passed port byteSeqNum hchain hmid hplace
                hhead' hpass

end Timers

end UdpTransfer.Timer
