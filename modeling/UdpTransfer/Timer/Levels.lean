import UdpTransfer.Core.Machines
import UdpTransfer.Timer.Expiration
import UdpTransfer.Timer.Insertion

/-!
# The linked list and the list of deltas

What the operations of `timerprocess.c` do to the doubly linked list, they do to
the plain list of its times and numbers.  Over any sequence of operations the
two send the same notices and return the same values.
-/

namespace UdpTransfer.Timer

open Function
open UdpTransfer.Machines

/-- A timer: the time after the one before it, and the number it bears. -/
structure Delta where
  dtime : ℚ
  byteSeqNum : UInt32
  deriving DecidableEq

namespace Delta

/-! ## The operations on plain lists -/

/-- Adds to the time of the first timer. -/
def later (amount : ℚ) : List Delta → List Delta
  | [] => []
  | first :: rest => { first with dtime := first.dtime + amount } :: rest

/-- The walk of `insertValue`: the time elapsed, the timers it has passed, the
one at which it stops, and those behind. -/
def traverse (dtime : ℚ) : ℚ → List Delta → Delta → List Delta →
    ℚ × List Delta × Delta × List Delta
  | elapse, before, cur, [] =>
      if elapse + cur.dtime < dtime then (elapse + cur.dtime, before, cur, [])
      else (elapse, before, cur, [])
  | elapse, before, cur, next :: after =>
      if elapse + cur.dtime < dtime then
        traverse dtime (elapse + cur.dtime) (before ++ [cur]) next after
      else
        (elapse, before, cur, next :: after)

/-- Puts a new timer behind `before`, whose time the next one then lacks. -/
def place (before : List Delta) (new : Delta) (after : List Delta) : List Delta :=
  before ++ new :: later (-new.dtime) after

def insertValue (dtime : ℚ) (byteSeqNum : UInt32) : List Delta → List Delta
  | [] => [⟨dtime, byteSeqNum⟩]
  | first :: rest =>
      if dtime ≤ first.dtime then
        place [] ⟨dtime - if dtime = first.dtime then dtime else 0, byteSeqNum⟩
          (first :: rest)
      else
        let (elapse, before, cur, after) :=
          if rest = [] then (0, [], first, []) else traverse dtime 0 [] first rest
        if after ≠ [] then
          place (before ++ [cur]) ⟨dtime - elapse, byteSeqNum⟩ after
        else if elapse + cur.dtime ≤ dtime then
          place (before ++ [cur])
            ⟨if elapse = 0 then dtime - cur.dtime else dtime - elapse,
              byteSeqNum⟩ []
        else
          place before ⟨dtime - elapse, byteSeqNum⟩ [cur]

/-- Takes out a timer: the one behind it takes over its time, as an `int`. -/
def takeOut (cur : Delta) (after : List Delta) : Option (List Delta) :=
  if after = [] then some []
  else (Timers.toInt cur.dtime).map fun carried => later carried after

/-- Takes out the first timer with the number. -/
def unlink (byteSeqNum : UInt32) : List Delta → Option (List Delta)
  | [] => some []
  | cur :: after =>
      if cur.byteSeqNum = byteSeqNum then takeOut cur after
      else (unlink byteSeqNum after).map (cur :: ·)

def removeValue (byteSeqNum : UInt32) (timers : List Delta) :
    Option (ℤ × List Delta) :=
  if timers = [] then
    some (0, [])
  else if ∀ timer ∈ timers, timer.byteSeqNum ≠ byteSeqNum then
    some (-1, timers)
  else
    (unlink byteSeqNum timers).map fun timers => (0, timers)

/-- The loop over the timers that have run out, and their numbers. -/
def expireLoop : List UInt32 → Delta → List Delta →
    Option (List UInt32 × List Delta)
  | expired, cur, [] =>
      if cur.dtime ≤ 0 then some (expired ++ [cur.byteSeqNum], [])
      else some (expired, [cur])
  | expired, cur, next :: after =>
      if cur.dtime ≤ 0 then
        (Timers.toInt cur.dtime).bind fun carried =>
          expireLoop (expired ++ [cur.byteSeqNum])
            { next with dtime := next.dtime + (cur.dtime + carried) } after
      else
        some (expired, cur :: next :: after)

def decrement (prev now : ℚ) : List Delta → Option (List UInt32 × List Delta)
  | [] => some ([], [])
  | first :: rest =>
      let first := { first with dtime := first.dtime + (prev - now) }
      if first.dtime = 0 then
        (takeOut first rest).map fun timers => ([first.byteSeqNum], timers)
      else if first.dtime < 0 then
        expireLoop [] first rest
      else
        some ([], first :: rest)

end Delta

/-! ## The two machines -/

inductive Operation where
  | insertValue (dtime : ℚ) (byteSeqNum : UInt32)
  | removeValue (byteSeqNum : UInt32)
  | decrement (prev now : ℚ)

/-- `timerprocess.c`: the value returned by each operation, and the numbers in
the notices it sends. -/
def linkedLevel : Machine Timers Operation (ℤ × List UInt32) where
  start := Timers.start
  op s
    | .insertValue dtime byteSeqNum =>
        (s.insertValue dtime 0 byteSeqNum).map fun s => ((0, []), s)
    | .removeValue byteSeqNum =>
        (s.removeValue byteSeqNum).map fun (result, _, s) => ((result, []), s)
    | .decrement prev now =>
        (s.decrement prev now).map fun (notices, s) =>
          ((0, notices.map Notice.byteSeqNum), s)

def deltaLevel : Machine (List Delta) Operation (ℤ × List UInt32) where
  start := []
  op timers
    | .insertValue dtime byteSeqNum =>
        some ((0, []), Delta.insertValue dtime byteSeqNum timers)
    | .removeValue byteSeqNum =>
        (Delta.removeValue byteSeqNum timers).map fun (result, timers) =>
          ((result, []), timers)
    | .decrement prev now =>
        (Delta.decrement prev now timers).map fun (expired, timers) =>
          ((0, expired), timers)

namespace Timers

/-! ## What the list holds -/

def delta (s : Timers) (cell : ℕ) : Delta := ⟨s.time cell, s.num cell⟩

/-- The times and numbers along the list. -/
def contents (s : Timers) : List Delta := s.cells.map s.delta

theorem Chain.contents_eq {s : Timers} {cells : List ℕ} (hchain : Chain s cells) :
    s.contents = cells.map s.delta := by
  rw [contents, hchain.cells_eq]

/-- The cells of a list whose first runs on for longer. -/
theorem map_delta_of_shift {s t : Timers} {time : ℕ → ℚ} {cells : List ℕ}
    {amount : ℚ} (hnodup : cells.Nodup)
    (htime : t.time = shift time cells amount)
    (hold : ∀ cell ∈ cells, time cell = s.time cell)
    (hnum : ∀ cell ∈ cells, t.num cell = s.num cell) :
    cells.map t.delta = Delta.later amount (cells.map s.delta) := by
  cases cells with
  | nil => rfl
  | cons first rest =>
      have hfirst : t.delta first =
          { s.delta first with dtime := s.time first + amount } := by
        rw [delta, htime, shift, update_self, hold first List.mem_cons_self,
          hnum first List.mem_cons_self]
        rfl
      have hrest : rest.map t.delta = rest.map s.delta := by
        refine List.map_congr_left fun cell hcell => ?_
        rw [delta, delta, htime, shift_tail time amount hnodup cell hcell,
          hold cell (List.mem_cons_of_mem _ hcell),
          hnum cell (List.mem_cons_of_mem _ hcell)]
      rw [List.map_cons, hfirst, hrest]
      rfl

/-! ## insertValue -/

theorem Inserted.contents_eq {s s' : Timers} {before after : List ℕ}
    {byteSeqNum : UInt32} {delta : ℚ}
    (hinserted : Inserted s before after byteSeqNum delta s')
    (hchain : Chain s (before ++ after)) :
    s'.contents =
      Delta.place (before.map s.delta) ⟨delta, byteSeqNum⟩
        (after.map s.delta) := by
  have hnum := hinserted.num_old hchain
  obtain ⟨time, htime, hold⟩ := hinserted.time_after hchain
  have hbefore : before.map s'.delta = before.map s.delta := by
    refine List.map_congr_left fun cell hcell => ?_
    rw [Timers.delta, Timers.delta, hinserted.time_before hchain cell hcell,
      hnum cell (List.mem_append_left _ hcell)]
  have hfresh : s'.delta s.fresh = ⟨delta, byteSeqNum⟩ := by
    rw [Timers.delta, hinserted.time_fresh hchain, hinserted.num_fresh]
  have hafter : after.map s'.delta =
      Delta.later (-delta) (after.map s.delta) := by
    refine map_delta_of_shift (List.nodup_append.1 hchain.nodup).2.1 htime hold
      fun cell hcell => ?_
    exact hnum cell (List.mem_append_right _ hcell)
  rw [hinserted.chain.contents_eq, List.map_append, List.map_cons, hbefore,
    hfresh, hafter]
  rfl

section Walk

variable {s : Timers} {dtime elapse : ℚ} {before rest : List ℕ} {cur next : ℕ}

theorem traverse_stop (hstop : ¬ elapse + s.time cur < dtime) :
    s.traverse dtime elapse cur = some (elapse, cur) := by
  rw [traverse]
  exact if_neg hstop

theorem traverse_last (hchain : Chain s (before ++ [cur]))
    (hpass : elapse + s.time cur < dtime) :
    s.traverse dtime elapse cur = some (elapse + s.time cur, cur) := by
  have hnext : (s.nodes cur).next = 0 := hchain.at_cell.2
  rw [time] at hpass ⊢
  rw [traverse]
  simp only [hpass, hnext, if_true]

theorem traverse_next (hchain : Chain s (before ++ cur :: next :: rest))
    (hpass : elapse + s.time cur < dtime) :
    s.traverse dtime elapse cur =
      s.traverse dtime (elapse + s.time cur) next := by
  have hnext : (s.nodes cur).next = next := hchain.at_cell.2
  have hne : next ≠ 0 := hchain.ne_zero (by simp)
  rw [time] at hpass ⊢
  rw [traverse]
  simp only [hpass, hnext, hne, if_true, if_false]

end Walk

/-- The walk along the list is the walk along its contents. -/
theorem traverse_contents {s : Timers} {dtime : ℚ} {rest : List ℕ} :
    ∀ {before : List ℕ} {cur : ℕ} {elapse : ℚ},
      Chain s (before ++ cur :: rest) →
      ∃ mid stop after elapse', before ++ cur :: rest = mid ++ stop :: after ∧
        before <+: mid ∧
        s.traverse dtime elapse cur = some (elapse', stop) ∧
        Delta.traverse dtime elapse (before.map s.delta) (s.delta cur)
            (rest.map s.delta) =
          (elapse', mid.map s.delta, s.delta stop, after.map s.delta) := by
  induction rest with
  | nil =>
      intro before cur elapse hchain
      rw [List.map_nil, Delta.traverse]
      by_cases hpass : elapse + s.time cur < dtime
      · exact ⟨before, cur, [], _, rfl, List.prefix_rfl,
          traverse_last hchain hpass, if_pos hpass⟩
      · exact ⟨before, cur, [], _, rfl, List.prefix_rfl, traverse_stop hpass,
          if_neg hpass⟩
  | cons next rest ih =>
      intro before cur elapse hchain
      rw [List.map_cons, Delta.traverse]
      by_cases hpass : elapse + s.time cur < dtime
      · have hcells : before ++ cur :: next :: rest =
            (before ++ [cur]) ++ next :: rest := by simp
        obtain ⟨mid, stop, after, elapse', hmid, hprefix, hwalk, hcontents⟩ :=
          @ih (before ++ [cur]) next (elapse + s.time cur) (hcells ▸ hchain)
        refine ⟨mid, stop, after, elapse', hcells.trans hmid,
          (List.prefix_append _ _).trans hprefix, ?_, ?_⟩
        · rw [traverse_next hchain hpass, hwalk]
        · rw [List.map_append, List.map_singleton] at hcontents
          exact (if_pos hpass).trans hcontents
      · exact ⟨before, cur, next :: rest, _, rfl, List.prefix_rfl,
          traverse_stop hpass, if_neg hpass⟩

/-- `insertValue` behind the head, once the walk is over. -/
theorem insertValue_walked {s : Timers} {before after : List ℕ} {stop : ℕ}
    {dtime elapse : ℚ} (byteSeqNum : UInt32)
    (hchain : Chain s (before ++ stop :: after))
    (hplace : s.findPlace dtime = some (elapse, stop))
    (hdtime : s.time s.head < dtime)
    (hbefore : before = [] → elapse + s.time stop ≤ dtime) :
    ∃ s', s.insertValue dtime 0 byteSeqNum = some s' ∧
      (∃ cells, Chain s' cells) ∧
      s'.contents =
        if after.map s.delta ≠ [] then
          Delta.place (before.map s.delta ++ [s.delta stop])
            ⟨dtime - elapse, byteSeqNum⟩ (after.map s.delta)
        else if elapse + s.time stop ≤ dtime then
          Delta.place (before.map s.delta ++ [s.delta stop])
            ⟨if elapse = 0 then dtime - s.time stop else dtime - elapse,
              byteSeqNum⟩ []
        else
          Delta.place (before.map s.delta) ⟨dtime - elapse, byteSeqNum⟩
            [s.delta stop] := by
  have hbehind : before.map s.delta ++ [s.delta stop] =
      (before ++ [stop]).map s.delta := by simp
  cases after with
  | cons next rest =>
      obtain ⟨s', hinsert, hinserted⟩ :=
        insertValue_middle 0 byteSeqNum hchain hplace hdtime
      refine ⟨s', hinsert, ⟨_, hinserted.chain⟩, ?_⟩
      rw [if_pos (by simp), hbehind]
      exact hinserted.contents_eq (by simpa using hchain)
  | nil =>
      rw [if_neg (by simp)]
      by_cases hpast : elapse + s.time stop ≤ dtime
      · obtain ⟨s', hinsert, hinserted⟩ :=
          insertValue_end 0 byteSeqNum hchain hplace hdtime hpast
        refine ⟨s', hinsert, ⟨_, hinserted.chain⟩, ?_⟩
        rw [if_pos hpast, hbehind]
        exact hinserted.contents_eq (by simpa using hchain)
      · obtain ⟨s', hinsert, hinserted⟩ := insertValue_beforeTail 0 byteSeqNum
          hchain (fun h => hpast (hbefore h)) hplace hdtime (not_le.1 hpast)
        refine ⟨s', hinsert, ⟨_, hinserted.chain⟩, ?_⟩
        rw [if_neg hpast]
        exact hinserted.contents_eq hchain

theorem insertValue_contents {s : Timers} {cells : List ℕ}
    (hchain : Chain s cells) (dtime : ℚ) (byteSeqNum : UInt32) :
    ∃ s', s.insertValue dtime 0 byteSeqNum = some s' ∧
      (∃ cells, Chain s' cells) ∧
      s'.contents = Delta.insertValue dtime byteSeqNum s.contents := by
  rw [hchain.contents_eq]
  cases cells with
  | nil =>
      obtain ⟨s', hinsert, hinserted⟩ :=
        insertValue_nil hchain dtime 0 byteSeqNum
      exact ⟨s', hinsert, ⟨_, hinserted.chain⟩, hinserted.contents_eq hchain⟩
  | cons first rest =>
      have hhead : s.head = first := hchain.head_eq
      rw [List.map_cons, Delta.insertValue]
      rcases le_or_gt dtime (s.time first) with hle | hlt
      · obtain ⟨s', hinsert, hinserted⟩ :=
          insertValue_front 0 byteSeqNum hchain hle
        refine ⟨s', hinsert, ⟨_, hinserted.chain⟩, ?_⟩
        rw [if_pos (show dtime ≤ (s.delta first).dtime from hle)]
        exact hinserted.contents_eq hchain
      · have hhead' : s.time s.head < dtime := by rwa [hhead]
        rw [if_neg (show ¬ dtime ≤ (s.delta first).dtime from hlt.not_ge)]
        cases rest with
        | nil =>
            have hpast : 0 + s.time first ≤ dtime := by
              rw [zero_add]
              exact hlt.le
            exact @insertValue_walked s [] [] first dtime 0 byteSeqNum hchain
              (hhead ▸ findPlace_only hchain hlt) hhead' fun _ => hpast
        | cons next rest =>
            have hpass : 0 + s.time first < dtime := by rwa [zero_add]
            obtain ⟨mid, stop, after, elapse, hcells, hprefix, hwalk,
              hcontents⟩ := @traverse_contents s dtime rest [first] next
                (0 + s.time first) hchain
            have hplace : s.findPlace dtime = some (elapse, stop) := by
              rw [findPlace_walk hchain hlt, ← hwalk]
              exact @traverse_next s dtime 0 [] rest first next hchain hpass
            have hmid : mid ≠ [] := by
              rintro rfl
              simp at hprefix
            have hcontents' : Delta.traverse dtime 0 [] (s.delta first)
                ((next :: rest).map s.delta) =
                (elapse, mid.map s.delta, s.delta stop, after.map s.delta) := by
              rw [← hcontents, List.map_cons, Delta.traverse]
              exact if_pos hpass
            rw [if_neg (by simp), hcontents']
            have hchain' : Chain s (mid ++ stop :: after) := hcells ▸ hchain
            exact insertValue_walked byteSeqNum hchain' hplace hhead'
              fun h => absurd h hmid

/-! ## removeValue -/

theorem Removed.contents_eq {s s' : Timers} {before after : List ℕ} {cell : ℕ}
    (hremoved : Removed s before cell after s')
    (hchain : Chain s (before ++ cell :: after)) :
    ∃ carried : ℤ, (after ≠ [] → toInt (s.time cell) = some carried) ∧
      s'.contents =
        before.map s.delta ++ Delta.later carried (after.map s.delta) := by
  obtain ⟨carried, htime, hint⟩ := hremoved.time
  have hnodup := (List.nodup_append.1 hremoved.chain.nodup).2.1
  refine ⟨carried, hint, ?_⟩
  rw [hremoved.chain.contents_eq, List.map_append]
  congr 1
  · refine List.map_congr_left fun other hother => ?_
    rw [delta, delta, hremoved.time_before hchain other hother, hremoved.num]
  · exact map_delta_of_shift hnodup htime (fun _ _ => rfl)
      fun _ _ => congrFun hremoved.num _

theorem unlinkNode_contents {s : Timers} {before after : List ℕ} {cell : ℕ}
    (hchain : Chain s (before ++ cell :: after)) :
    (s.unlinkNode cell).map contents =
      (Delta.takeOut (s.delta cell) (after.map s.delta)).map
        (before.map s.delta ++ ·) := by
  have hsome := unlinkNode_isSome hchain
  cases hunlink : s.unlinkNode cell with
  | none =>
      rw [hunlink, Option.isSome_none] at hsome
      have hstuck : ¬ (after = [] ∨ (toInt (s.time cell)).isSome) := fun h =>
        Bool.false_ne_true (hsome.2 h)
      obtain ⟨hafter, hint⟩ := not_or.1 hstuck
      have hint' : toInt (s.delta cell).dtime = none :=
        Option.not_isSome_iff_eq_none.1 hint
      rw [Delta.takeOut, if_neg (by simpa using hafter), hint']
      rfl
  | some s' =>
      obtain ⟨carried, hint, hcontents⟩ :=
        (unlinkNode_removed hchain hunlink).contents_eq hchain
      rw [Option.map_some, hcontents, Delta.takeOut]
      by_cases hafter : after = []
      · subst hafter
        rfl
      · have hint' : toInt (s.delta cell).dtime = some carried := hint hafter
        rw [if_neg (by simpa using hafter), hint']
        rfl

/-- A number that no timer of a list that is not empty bears. -/
theorem removeValue_invalid {s : Timers} {first : ℕ} {rest : List ℕ}
    (hchain : Chain s (first :: rest)) {byteSeqNum : UInt32}
    (habsent : ∀ cell ∈ first :: rest, s.num cell ≠ byteSeqNum) :
    s.removeValue byteSeqNum = some (-1, none, s) := by
  have hhead : s.head = first := hchain.head_eq
  have hfirst : first ≠ 0 := hchain.ne_zero List.mem_cons_self
  have hfind : (first :: rest).find? (fun cell => s.num cell = byteSeqNum) =
      none := by
    rw [List.find?_eq_none]
    simpa using habsent
  rw [removeValue, hhead, if_neg hfirst, @find_eq _ _ _ [] _ hchain, hfind]
  rfl

end Timers

theorem Delta.unlink_append {before after : List Delta} {cur : Delta}
    {byteSeqNum : UInt32}
    (hbefore : ∀ timer ∈ before, timer.byteSeqNum ≠ byteSeqNum)
    (hcur : cur.byteSeqNum = byteSeqNum) :
    Delta.unlink byteSeqNum (before ++ cur :: after) =
      (Delta.takeOut cur after).map (before ++ ·) := by
  induction before with
  | nil =>
      rw [List.nil_append, Delta.unlink, if_pos hcur]
      exact Option.map_id'.symm
  | cons first before ih =>
      have hfirst := hbefore first List.mem_cons_self
      rw [List.cons_append, Delta.unlink, if_neg hfirst,
        ih fun timer htimer => hbefore timer (List.mem_cons_of_mem _ htimer),
        Option.map_map]
      rfl

namespace Timers

theorem removeValue_contents {s : Timers} {cells : List ℕ}
    (hchain : Chain s cells) (byteSeqNum : UInt32) :
    ((s.removeValue byteSeqNum).map fun (result, _, s') =>
        (result, s'.contents)) =
      Delta.removeValue byteSeqNum s.contents := by
  rw [hchain.contents_eq, Delta.removeValue]
  cases cells with
  | nil =>
      have hhead : s.head = 0 := hchain.head_eq
      rw [removeValue, if_pos hhead, if_pos List.map_nil, Option.map_some]
      exact congrArg (fun timers => some (0, timers)) hchain.contents_eq
  | cons first rest =>
      rw [if_neg (by simp)]
      by_cases habsent : ∀ cell ∈ first :: rest, s.num cell ≠ byteSeqNum
      · have hnone : ∀ timer ∈ (first :: rest).map s.delta,
            timer.byteSeqNum ≠ byteSeqNum := List.forall_mem_map.2 habsent
        rw [removeValue_invalid hchain habsent, if_pos hnone, Option.map_some]
        exact congrArg (fun timers => some (-1, timers)) hchain.contents_eq
      · have hsome : ¬ ∀ timer ∈ (first :: rest).map s.delta,
            timer.byteSeqNum ≠ byteSeqNum := fun h =>
          habsent fun cell hcell => h _ (List.mem_map_of_mem hcell)
        rw [if_neg hsome]
        push Not at habsent
        obtain ⟨other, hother, hnum⟩ := habsent
        have hfound : ((first :: rest).find? fun cell =>
            s.num cell = byteSeqNum).isSome :=
          List.find?_isSome.2 ⟨other, hother, by simpa using hnum⟩
        obtain ⟨cell, hfind⟩ := Option.isSome_iff_exists.1 hfound
        obtain ⟨hcell, before, after, hcells, hbefore⟩ :=
          List.find?_eq_some_iff_append.1 hfind
        have hcell' : s.num cell = byteSeqNum := by simpa using hcell
        have hbefore' : ∀ other ∈ before, s.num other ≠ byteSeqNum := by
          simpa using hbefore
        rw [hcells] at hchain ⊢
        have hbefore'' : ∀ timer ∈ before.map s.delta,
            timer.byteSeqNum ≠ byteSeqNum := List.forall_mem_map.2 hbefore'
        have hunlink := unlinkNode_contents hchain
        rw [removeValue_present hchain hbefore' hcell', List.map_append,
          List.map_cons, Delta.unlink_append hbefore'' hcell', ← hunlink,
          Option.map_map, Option.map_map]
        rfl

/-! ## decrement -/

/-- The notices by their numbers, and the contents of the list. -/
def told (result : List Notice × Timers) : List UInt32 × List Delta :=
  (result.1.map Notice.byteSeqNum, result.2.contents)

theorem expireHead_contents {s : Timers} {cell : ℕ} {rest : List ℕ}
    (hchain : Chain s (cell :: rest)) (notices : List Notice) :
    (s.expireHead notices).map told =
      (Delta.takeOut (s.delta cell) (rest.map s.delta)).map fun timers =>
        (notices.map Notice.byteSeqNum ++ [s.num cell], timers) := by
  have hunlink := @unlinkNode_contents s [] rest cell hchain
  have htake : Delta.takeOut (s.delta cell) (rest.map s.delta) =
      (s.unlinkNode cell).map contents := by
    rw [hunlink]
    exact Option.map_id'.symm
  rw [expireHead_eq hchain, htake, Option.map_map, Option.map_map]
  refine congrArg (fun f => (s.unlinkNode cell).map f) (funext fun s' => ?_)
  simp [told, notice]

theorem expireLoop_contents {rest : List ℕ} :
    ∀ {s : Timers} {cell : ℕ} {notices : List Notice}, Chain s (cell :: rest) →
      (s.expireLoop notices).map told =
        Delta.expireLoop (notices.map Notice.byteSeqNum) (s.delta cell)
          (rest.map s.delta) := by
  induction rest with
  | nil =>
      intro s cell notices hchain
      rw [expireLoop_last hchain, List.map_nil, Delta.expireLoop]
      by_cases hdue : s.time cell ≤ 0
      · rw [if_pos hdue, expireHead_contents hchain]
        exact (if_pos hdue).symm
      · rw [if_neg hdue, Option.map_some, told, hchain.contents_eq]
        exact (if_neg hdue).symm
  | cons next rest ih =>
      intro s cell notices hchain
      rw [expireLoop_next hchain, List.map_cons, Delta.expireLoop]
      by_cases hdue : s.time cell ≤ 0
      · rw [if_pos hdue]
        refine Eq.trans ?_ (if_pos hdue).symm
        let carry := s.setDtime next (s.time next + s.time cell)
        have hcarry : Chain carry (cell :: next :: rest) :=
          hchain.setDtime next _
        have hnodup := List.nodup_cons.1 hchain.nodup
        have hnum : carry.num = s.num := num_setDtime s next _
        have htime : carry.time = shift s.time (next :: rest) (s.time cell) :=
          time_setDtime s next _
        have hcell : carry.time cell = s.time cell := by
          rw [htime, shift_of_notMem _ _ hnodup.1]
        rw [expireHead_eq hcarry]
        have hsome := @unlinkNode_isSome carry [] (next :: rest) cell hcarry
        cases hunlink : carry.unlinkNode cell with
        | none =>
            rw [hunlink, Option.isSome_none, hcell] at hsome
            have hint : toInt (s.delta cell).dtime = none :=
              Option.not_isSome_iff_eq_none.1 fun h =>
                Bool.false_ne_true (hsome.2 (.inr h))
            rw [hint]
            rfl
        | some t =>
            have hremoved := @unlinkNode_removed carry t [] (next :: rest) cell
              hcarry hunlink
            obtain ⟨carried, hshift, hint⟩ := hremoved.time
            have hint' : toInt (s.delta cell).dtime = some carried := by
              rw [← hint (by simp), hcell]
              rfl
            have hlater : (next :: rest).map t.delta =
                Delta.later (s.time cell + carried)
                  ((next :: rest).map s.delta) := by
              refine map_delta_of_shift hnodup.2 ?_ (fun _ _ => rfl) fun _ _ =>
                ?_
              · rw [hshift, htime, shift_shift]
              · rw [hremoved.num, hnum]
            obtain ⟨hnext, hrest⟩ := List.cons.inj hlater
            have hloop := @ih t next (notices ++ [carry.notice cell])
              hremoved.chain
            rw [hint', Option.map_some, Option.bind_some, hloop, hnext, hrest,
              List.map_append]
            simp only [List.map_cons, List.map_nil, notice, hnum]
            rfl
      · rw [if_neg hdue, Option.map_some, told, hchain.contents_eq]
        exact (if_neg hdue).symm

theorem decrement_contents {s : Timers} {cells : List ℕ}
    (hchain : Chain s cells) (prev now : ℚ) :
    (s.decrement prev now).map told = Delta.decrement prev now s.contents := by
  rw [hchain.contents_eq]
  cases cells with
  | nil =>
      have hhead : s.head = 0 := hchain.head_eq
      simp only [decrement, hhead, ne_eq, not_true_eq_false, if_false,
        Option.map_some, told, hchain.contents_eq]
      rfl
  | cons cell rest =>
      obtain ⟨passed, hchain', -, hnum, htime, hdecrement⟩ :=
        decrement_cons hchain prev now
      have hlater : (cell :: rest).map passed.delta =
          Delta.later (prev - now) ((cell :: rest).map s.delta) :=
        map_delta_of_shift hchain.nodup htime (fun _ _ => rfl)
          fun _ _ => congrFun hnum _
      obtain ⟨hcell, hrest⟩ := List.cons.inj hlater
      have hdtime : passed.time cell = (s.delta cell).dtime + (prev - now) :=
        congrArg Delta.dtime hcell
      rw [hdecrement, List.map_cons, Delta.decrement, hdtime]
      by_cases hzero : (s.delta cell).dtime + (prev - now) = 0
      · rw [if_pos hzero, expireHead_contents hchain', hcell, hrest, hnum]
        exact (if_pos hzero).symm
      · rw [if_neg hzero]
        refine Eq.trans ?_ (if_neg hzero).symm
        by_cases hover : (s.delta cell).dtime + (prev - now) < 0
        · rw [if_pos hover, expireLoop_contents hchain', hcell, hrest]
          exact (if_pos hover).symm
        · rw [if_neg hover, Option.map_some, told, hchain'.contents_eq, hlater]
          exact (if_neg hover).symm

end Timers

/-! ## From one machine to the other -/

/-- The contents of the linked list, as long as the list is linked both ways. -/
def contentsAbstraction : Abstraction linkedLevel deltaLevel where
  toFun := Timers.contents
  invariant s := ∃ cells, Timers.Chain s cells
  invariant_start := ⟨[], Timers.chain_start⟩
  map_start := Timers.chain_start.contents_eq
  invariant_op {s s' c answer} hinv hop := by
    obtain ⟨cells, hchain⟩ := hinv
    cases c with
    | insertValue dtime byteSeqNum =>
        obtain ⟨t, hinsert, hchain', -⟩ :=
          Timers.insertValue_contents hchain dtime byteSeqNum
        simp only [linkedLevel, hinsert, Option.map_some, Option.some.injEq,
          Prod.mk.injEq] at hop
        exact hop.2 ▸ hchain'
    | removeValue byteSeqNum =>
        obtain ⟨⟨result, freed, t⟩, hremove, heq⟩ :=
          Option.map_eq_some_iff.1 hop
        obtain rfl : t = s' := congrArg Prod.snd heq
        rcases Timers.removeValue_spec hchain hremove with
          ⟨-, rfl, -⟩ | ⟨before, cell, after, -, -, -, -, hremoved⟩
        · exact ⟨cells, hchain⟩
        · exact ⟨_, hremoved.chain⟩
    | decrement prev now =>
        obtain ⟨⟨notices, t⟩, hdecrement, heq⟩ := Option.map_eq_some_iff.1 hop
        obtain rfl : t = s' := congrArg Prod.snd heq
        obtain ⟨cells', hchain', -⟩ := @Timers.decrement_rule
          (fun _ _ _ => True) s t cells prev now notices hchain
          (fun _ _ _ _ _ => trivial) (fun _ _ _ _ _ _ _ _ => trivial)
          hdecrement
        exact ⟨cells', hchain'⟩
  map_op {s} c hinv := by
    obtain ⟨cells, hchain⟩ := hinv
    cases c with
    | insertValue dtime byteSeqNum =>
        obtain ⟨t, hinsert, -, hcontents⟩ :=
          Timers.insertValue_contents hchain dtime byteSeqNum
        simp only [linkedLevel, deltaLevel, hinsert, Option.map_some,
          Prod.map_apply, id_eq, hcontents]
    | removeValue byteSeqNum =>
        simp only [linkedLevel, deltaLevel]
        rw [← Timers.removeValue_contents hchain byteSeqNum, Option.map_map,
          Option.map_map]
        rfl
    | decrement prev now =>
        simp only [linkedLevel, deltaLevel]
        rw [← Timers.decrement_contents hchain prev now, Option.map_map,
          Option.map_map]
        rfl

/-- Over any sequence of operations the linked list returns and sends what the
list of deltas does, and holds what it holds at the end.  One gets stuck in a
conversion to an `int` exactly where the other does. -/
theorem linkedLevel_run (operations : List Operation) :
    (linkedLevel.run Timers.start operations).map
        (Prod.map id Timers.contents) =
      deltaLevel.run [] operations :=
  contentsAbstraction.map_run operations

end UdpTransfer.Timer
