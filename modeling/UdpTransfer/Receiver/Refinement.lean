import UdpTransfer.Core.Links
import UdpTransfer.Receiver.Merging
import UdpTransfer.Receiver.Parts

/-!
# The heap program computes on the list of runs

`Represents s r` says that the walk round the ring of `s` meets exactly the
runs of `r`.  Every operation of the pointer program, started in a represented
state, returns exactly when the list operation does, with the same answer and
again a represented state.  In particular a merge that swallows the node under
`head`, or merges a node with itself, never returns.
-/

namespace UdpTransfer.Receiver

open UdpTransfer.Loop
open UdpTransfer.Links
open UdpTransfer.Memory

namespace SBuffer

def succ (s : SBuffer) (address : ℕ) : ℕ := (s.nodes address).next

def extent (s : SBuffer) (address : ℕ) : Extent :=
  (s.nodes address).toExtent

/-- The ring of `s`, from `head` on, is `cells`. -/
structure OnRing (s : SBuffer) (cells : List ℕ) : Prop where
  cycle : Cycle s.succ s.head cells
  allocated : ∀ address ∈ cells, address < s.fresh

def view (s : SBuffer) (cells : List ℕ) : RingBuffer where
  buffer := s.buffer
  dstart := s.dstart
  dend := s.dend
  runs := cells.map s.extent

def Represents (s : SBuffer) (r : RingBuffer) : Prop :=
  ∃ cells, s.OnRing cells ∧ s.view cells = r

theorem map_update_of_notMem {α β : Type*} [DecidableEq α] {f : α → β} {a : α}
    {b : β} {l : List α} (hmem : a ∉ l) :
    l.map (Function.update f a b) = l.map f := by
  apply List.map_congr_left
  intro x hx
  rw [Function.update_of_ne (by rintro rfl; exact hmem hx)]

@[simp]
theorem succ_setNode (s : SBuffer) (address : ℕ) (node : CirNode) :
    (s.setNode address node).succ = Function.update s.succ address node.next := by
  funext other
  by_cases h : other = address
  · subst other
    simp [succ, setNode]
  · simp [succ, setNode, h]

@[simp]
theorem extent_setNode (s : SBuffer) (address : ℕ) (node : CirNode) :
    (s.setNode address node).extent =
      Function.update s.extent address node.toExtent := by
  funext other
  by_cases h : other = address
  · subst other
    simp [extent, setNode]
  · simp [extent, setNode, h]

@[simp]
theorem head_setNode (s : SBuffer) (address : ℕ) (node : CirNode) :
    (s.setNode address node).head = s.head := rfl

@[simp]
theorem fresh_setNode (s : SBuffer) (address : ℕ) (node : CirNode) :
    (s.setNode address node).fresh = s.fresh := rfl

@[simp]
theorem dstart_setNode (s : SBuffer) (address : ℕ) (node : CirNode) :
    (s.setNode address node).dstart = s.dstart := rfl

/-! ## Merging -/

@[simp]
theorem succ_absorbNext (s : SBuffer) (current : ℕ) (merged : Extent) :
    (s.absorbNext current merged).succ =
      Function.update s.succ current (s.succ (s.succ current)) := by
  simp [absorbNext, succ]

@[simp]
theorem extent_absorbNext (s : SBuffer) (current : ℕ) (merged : Extent) :
    (s.absorbNext current merged).extent =
      Function.update s.extent current merged := by
  simp [absorbNext]

@[simp]
theorem head_absorbNext (s : SBuffer) (current : ℕ) (merged : Extent) :
    (s.absorbNext current merged).head = s.head := rfl

@[simp]
theorem dstart_absorbNext (s : SBuffer) (current : ℕ) (merged : Extent) :
    (s.absorbNext current merged).dstart = s.dstart := rfl

theorem OnRing.absorbNext {s : SBuffer} {before after : List ℕ}
    {current next : ℕ} (hring : s.OnRing (before ++ current :: next :: after))
    (merged : Extent) :
    (s.absorbNext current merged).OnRing (before ++ current :: after) := by
  have hnext : s.succ current = next := hring.cycle.segment.next_of_mid
  refine ⟨⟨?_, by simp, ?_⟩, ?_⟩
  · rw [succ_absorbNext, hnext]
    exact hring.cycle.segment.spliceOut hring.cycle.nodup
  · refine List.Sublist.nodup ?_ hring.cycle.nodup
    simp
  · intro address haddress
    apply hring.allocated address
    simp only [List.mem_append, List.mem_cons] at haddress ⊢
    tauto

theorem OnRing.notMem {s : SBuffer} {before after : List ℕ} {current : ℕ}
    (hring : s.OnRing (before ++ current :: after)) :
    current ∉ before ∧ current ∉ after := by
  have hnodup := List.nodup_append.1 hring.cycle.nodup
  refine ⟨fun hmem => hnodup.2.2 current hmem current (by simp) rfl, ?_⟩
  exact (List.nodup_cons.1 hnodup.2.1).1

theorem OnRing.map_absorbNext {s : SBuffer} {before after : List ℕ}
    {current : ℕ} (hring : s.OnRing (before ++ current :: after))
    (merged : Extent) :
    before.map (s.absorbNext current merged).extent = before.map s.extent ∧
      after.map (s.absorbNext current merged).extent = after.map s.extent := by
  obtain ⟨hbefore, hafter⟩ := hring.notMem
  rw [extent_absorbNext]
  exact ⟨map_update_of_notMem hbefore, map_update_of_notMem hafter⟩

/-- What is left of one round of the outer loop inside its first inner loop. -/
def roundFollowing (current : ℕ) (s : SBuffer) : Option (SBuffer × ℕ) :=
  (mergeFollowingLoop current s).bind fun s =>
    (mergeSpareLoop current s).bind fun s => mergeFrom (s, s.succ current)

/-- What is left of one round of the outer loop inside its second inner
loop. -/
def roundSpare (current : ℕ) (s : SBuffer) : Option (SBuffer × ℕ) :=
  (mergeSpareLoop current s).bind fun s => mergeFrom (s, s.succ current)

theorem mergeFrom_done {s : SBuffer} {current : ℕ}
    (hlast : s.succ current = s.head) :
    mergeFrom (s, current) = some (s, current) := by
  rw [mergeFrom, whileLoop_done]
  simpa [succ] using hlast

theorem mergeFrom_round {s : SBuffer} {current : ℕ}
    (hnext : s.succ current ≠ s.head) :
    mergeFrom (s, current) = roundFollowing current s := by
  rw [mergeFrom, whileLoop_bind (by simpa [succ] using hnext)]
  simp only [roundFollowing, Option.bind_assoc, Option.bind_some]
  rfl

theorem mergeFollowingLoop_done {s : SBuffer} {current : ℕ}
    (hcond : followsOn (s.extent current) (s.extent (s.succ current)) = false) :
    mergeFollowingLoop current s = some s :=
  whileLoop_done hcond

theorem mergeFollowingLoop_round {s : SBuffer} {current : ℕ}
    (hcond : followsOn (s.extent current) (s.extent (s.succ current)) = true) :
    mergeFollowingLoop current s =
      mergeFollowingLoop current (s.absorbNext current
        (mergeFollowing (s.extent current) (s.extent (s.succ current)))) :=
  whileLoop_round hcond rfl

theorem mergeSpareLoop_done {s : SBuffer} {current : ℕ}
    (hcond : sparesHoles s.dstart (s.extent current)
      (s.extent (s.succ current)) = false) :
    mergeSpareLoop current s = some s :=
  whileLoop_done hcond

theorem mergeSpareLoop_round {s : SBuffer} {current : ℕ}
    (hcond : sparesHoles s.dstart (s.extent current)
      (s.extent (s.succ current)) = true) :
    mergeSpareLoop current s =
      mergeSpareLoop current (s.absorbNext current
        (mergeSpare (s.extent current) (s.extent (s.succ current)))) :=
  whileLoop_round hcond rfl

/-! ### Merges that never return -/

/-- The walk goes round a ring that `head` is not on. -/
def Orphaned (s : SBuffer) (current : ℕ) : Prop :=
  ∃ cells, Cycle s.succ current cells ∧ s.head ∉ cells

theorem Orphaned.succ_ne_head {s : SBuffer} {current : ℕ}
    (horphan : Orphaned s current) : s.succ current ≠ s.head := by
  obtain ⟨cells, hcycle, hhead⟩ := horphan
  cases cells with
  | nil => exact absurd rfl hcycle.nonempty
  | cons cell cells =>
      obtain rfl := hcycle.head_eq
      have hmem := hcycle.rotate.head_mem
      intro heq
      rw [heq] at hmem
      apply hhead
      simpa [or_comm] using hmem

theorem Orphaned.advance {s : SBuffer} {current : ℕ}
    (horphan : Orphaned s current) : Orphaned s (s.succ current) := by
  obtain ⟨cells, hcycle, hhead⟩ := horphan
  cases cells with
  | nil => exact absurd rfl hcycle.nonempty
  | cons cell cells =>
      obtain rfl := hcycle.head_eq
      refine ⟨cells ++ [cell], hcycle.rotate, ?_⟩
      intro hmem
      apply hhead
      simpa [or_comm] using hmem

theorem Orphaned.absorbNext {s : SBuffer} {current : ℕ}
    (horphan : Orphaned s current) (merged : Extent) :
    Orphaned (s.absorbNext current merged) current := by
  obtain ⟨cells, hcycle, hhead⟩ := horphan
  match cells, hcycle, hhead with
  | [], hcycle, _ => exact absurd rfl hcycle.nonempty
  | [cell], hcycle, hhead =>
      obtain rfl := hcycle.head_eq
      have hself : s.succ cell = cell :=
        Segment.next_of_last (l := []) hcycle.segment
      refine ⟨[cell], ⟨?_, by simp, by simp⟩, by simpa using hhead⟩
      simp [hself]
  | cell :: next :: rest, hcycle, hhead =>
      obtain rfl := hcycle.head_eq
      have hnext : s.succ cell = next :=
        Segment.next_of_mid (l := []) hcycle.segment
      refine ⟨cell :: rest, ⟨?_, by simp, ?_⟩, ?_⟩
      · rw [succ_absorbNext, hnext]
        exact Segment.spliceOut (l := []) hcycle.nodup hcycle.segment
      · refine List.Sublist.nodup ?_ hcycle.nodup
        simp
      · intro hmem
        apply hhead
        simp only [head_absorbNext, List.mem_cons] at hmem ⊢
        tauto

theorem Orphaned.followingLoop {s s' : SBuffer} {current : ℕ}
    (horphan : Orphaned s current)
    (hrun : mergeFollowingLoop current s = some s') : Orphaned s' current := by
  refine (whileLoop_invariant (I := fun s => Orphaned s current) ?_ horphan
    hrun).1
  intro s next horphan _ hnext
  cases hnext
  exact horphan.absorbNext _

theorem Orphaned.spareLoop {s s' : SBuffer} {current : ℕ}
    (horphan : Orphaned s current)
    (hrun : mergeSpareLoop current s = some s') : Orphaned s' current := by
  refine (whileLoop_invariant (I := fun s => Orphaned s current) ?_ horphan
    hrun).1
  intro s next horphan _ hnext
  cases hnext
  exact horphan.absorbNext _

/-- A walk that has lost `head` never ends. -/
theorem mergeFrom_orphaned {s : SBuffer} {current : ℕ}
    (horphan : Orphaned s current) : mergeFrom (s, current) = none := by
  refine whileLoop_diverges (I := fun state => Orphaned state.1 state.2)
    ?_ ?_ horphan
  · rintro ⟨s, current⟩ horphan
    simpa [succ] using horphan.succ_ne_head
  · rintro ⟨s, current⟩ ⟨s', current'⟩ horphan hround
    simp only [Option.bind_eq_some_iff] at hround
    obtain ⟨s₁, hfollowing, s₂, hspare, heq⟩ := hround
    cases heq
    exact ((horphan.followingLoop hfollowing).spareLoop hspare).advance

theorem roundSpare_orphaned {s : SBuffer} {current : ℕ}
    (horphan : Orphaned s current) : roundSpare current s = none := by
  rw [roundSpare, Option.bind_eq_none_iff]
  intro s₁ hspare
  exact mergeFrom_orphaned (horphan.spareLoop hspare).advance

theorem roundFollowing_orphaned {s : SBuffer} {current : ℕ}
    (horphan : Orphaned s current) : roundFollowing current s = none := by
  rw [roundFollowing, Option.bind_eq_none_iff]
  intro s₁ hfollowing
  exact roundSpare_orphaned (horphan.followingLoop hfollowing)

/-- Swallowing the node under `head` loses it. -/
theorem OnRing.absorb_head {s : SBuffer} {first current : ℕ} {before : List ℕ}
    (hring : s.OnRing (first :: before ++ [current])) (merged : Extent) :
    Orphaned (s.absorbNext current merged) current := by
  obtain rfl : first = s.head := hring.cycle.head_eq
  have hcycle : Cycle s.succ current (current :: s.head :: before) := by
    simpa using hring.cycle.enterAt (r := [])
  have hnext : s.succ current = s.head :=
    Segment.next_of_mid (l := []) hcycle.segment
  refine ⟨current :: before, ⟨?_, by simp, ?_⟩, ?_⟩
  · rw [succ_absorbNext, hnext]
    exact Segment.spliceOut (l := []) hcycle.nodup hcycle.segment
  · refine List.Sublist.nodup ?_ hcycle.nodup
    simp
  · have hnodup := hcycle.nodup
    simp only [List.nodup_cons, List.mem_cons, not_or] at hnodup
    simp only [head_absorbNext, List.mem_cons, not_or]
    exact ⟨fun h => hnodup.1.1 h.symm, hnodup.2.1⟩

/-- A node that follows on from itself is merged with itself for ever. -/
theorem mergeFollowingLoop_self {s : SBuffer} {current : ℕ}
    (hself : s.succ current = current)
    (hcond : followsOn (s.extent current) (s.extent current) = true) :
    mergeFollowingLoop current s = none := by
  refine whileLoop_diverges
    (I := fun s => s.succ current = current ∧
      followsOn (s.extent current) (s.extent current) = true) ?_ ?_
    ⟨hself, hcond⟩
  · rintro s ⟨hself, hcond⟩
    change followsOn (s.extent current) (s.extent (s.succ current)) = true
    rwa [hself]
  · rintro s next ⟨hself, hcond⟩ hnext
    cases hnext
    change s.succ current = current at hself
    refine ⟨by simp [hself], ?_⟩
    have hlast : (s.extent (s.succ current)).lastSeq =
        (s.extent current).firstSeq - 1 := by
      rw [hself]
      exact (followsOn_iff.1 hcond).1
    rw [extent_absorbNext, Function.update_self, followsOn_iff]
    exact ⟨hlast, rfl⟩

theorem mergeSpareLoop_self {s : SBuffer} {current : ℕ}
    (hself : s.succ current = current)
    (hcond : sparesHoles s.dstart (s.extent current) (s.extent current) = true) :
    mergeSpareLoop current s = none := by
  refine whileLoop_diverges
    (I := fun s => s.succ current = current ∧
      sparesHoles s.dstart (s.extent current) (s.extent current) = true) ?_ ?_
    ⟨hself, hcond⟩
  · rintro s ⟨hself, hcond⟩
    change sparesHoles s.dstart (s.extent current)
      (s.extent (s.succ current)) = true
    rwa [hself]
  · rintro s next ⟨hself, hcond⟩ hnext
    cases hnext
    change s.succ current = current at hself
    refine ⟨by simp [hself], ?_⟩
    rw [sparesHoles_iff] at hcond
    simp only [extent_absorbNext, Function.update_self, sparesHoles_iff]
    exact hcond

/-! ### Merges that return -/

/-- `s'` is `s` with other nodes, and its ring shows `runs`. -/
def MergedTo (s s' : SBuffer) (runs : List Extent) : Prop :=
  ∃ nodes cells, s' = { s with nodes := nodes } ∧ s'.OnRing cells ∧
    cells.map s'.extent = runs

theorem MergedTo.of_absorbNext {s s' : SBuffer} {runs : List Extent}
    {current : ℕ} {merged : Extent}
    (hmerged : MergedTo (s.absorbNext current merged) s' runs) :
    MergedTo s s' runs := by
  obtain ⟨nodes, cells, heq, hring, hruns⟩ := hmerged
  exact ⟨nodes, cells, heq, hring, hruns⟩

abbrev MergeRel (s : SBuffer) :
    Option (SBuffer × ℕ) → Option (List Extent) → Prop :=
  Option.Rel fun state runs => MergedTo s state.1 runs

theorem MergeRel.of_absorbNext {s : SBuffer} {current : ℕ} {merged : Extent}
    {left : Option (SBuffer × ℕ)} {right : Option (List Extent)}
    (hrel : MergeRel (s.absorbNext current merged) left right) :
    MergeRel s left right := by
  cases hrel with
  | none => exact .none
  | some hmerged => exact .some hmerged.of_absorbNext

theorem OnRing.succ_mid {s : SBuffer} {before after : List ℕ}
    {current next : ℕ} (hring : s.OnRing (before ++ current :: next :: after)) :
    s.succ current = next :=
  hring.cycle.segment.next_of_mid

theorem OnRing.succ_last {s : SBuffer} {before : List ℕ} {current : ℕ}
    (hring : s.OnRing (before ++ [current])) : s.succ current = s.head :=
  hring.cycle.segment.next_of_last

theorem OnRing.mid_ne_head {s : SBuffer} {before after : List ℕ}
    {current next : ℕ} (hring : s.OnRing (before ++ current :: next :: after)) :
    next ≠ s.head := by
  have hnodup := hring.cycle.nodup
  rintro rfl
  cases before with
  | nil =>
      have hhead : current = s.head := hring.cycle.head_eq
      simp [hhead] at hnodup
  | cons first before =>
      have hhead : first = s.head := hring.cycle.head_eq
      simp [hhead] at hnodup

theorem OnRing.firstRun_eq {s : SBuffer} {before : List ℕ} {current : ℕ}
    (hring : s.OnRing (before ++ [current])) :
    firstRun (before.map s.extent) (s.extent current) = s.extent s.head := by
  cases before with
  | nil =>
      have hhead : current = s.head := hring.cycle.head_eq
      simp [firstRun, hhead]
  | cons first before =>
      have hhead : first = s.head := hring.cycle.head_eq
      simp [firstRun, hhead]

/-- The outer loop walks to the end of a settled ring and changes nothing. -/
theorem mergeFrom_settled {s : SBuffer} (after : List ℕ) :
    ∀ (before : List ℕ) (current : ℕ),
      s.OnRing (before ++ current :: after) →
      Settled s.dstart ((current :: after).map s.extent) →
      ∃ last, mergeFrom (s, current) = some (s, last) := by
  induction after with
  | nil =>
      intro before current hring _
      exact ⟨current, mergeFrom_done hring.succ_last⟩
  | cons next after ih =>
      intro before current hring hsettled
      have hnext := hring.succ_mid
      rw [List.map_cons, List.map_cons, Settled, List.isChain_cons_cons] at hsettled
      obtain ⟨⟨hfollow, hspare⟩, hrest⟩ := hsettled
      rw [mergeFrom_round (by rw [hnext]; exact hring.mid_ne_head),
        roundFollowing, mergeFollowingLoop_done (by rw [hnext]; exact hfollow),
        Option.bind_some, mergeSpareLoop_done (by rw [hnext]; exact hspare),
        Option.bind_some, hnext]
      apply ih (before ++ [current]) next ?_ hrest
      simpa using hring

/-- The last node of the ring has taken over all it can, and the walk starts
again at `head`, where it finds nothing to do. -/
theorem mergeFrom_again {s : SBuffer} {before : List ℕ} {current : ℕ}
    (hring : s.OnRing (before ++ [current]))
    (hsettled : Settled s.dstart ((before ++ [current]).map s.extent)) :
    MergeRel s (mergeFrom (s, s.succ current))
      (some (before.map s.extent ++ [s.extent current])) := by
  have hcells : ∃ rest, before ++ [current] = s.head :: rest := by
    cases before with
    | nil =>
        have hhead : current = s.head := hring.cycle.head_eq
        exact ⟨[], by simp [hhead]⟩
    | cons first before =>
        have hhead : first = s.head := hring.cycle.head_eq
        exact ⟨before ++ [current], by simp [hhead]⟩
  obtain ⟨rest, hcells⟩ := hcells
  rw [hring.succ_last]
  rw [hcells] at hsettled
  obtain ⟨last, hlast⟩ := mergeFrom_settled rest [] s.head
    (by simpa [hcells] using hring) hsettled
  rw [hlast]
  exact .some ⟨s.nodes, before ++ [current], rfl, hring, by simp⟩

/-- The second inner loop at the last node of the ring. -/
theorem roundSpare_last {s : SBuffer} {before : List ℕ} {current : ℕ}
    (hring : s.OnRing (before ++ [current]))
    (hsettled : Settled s.dstart ((before ++ [current]).map s.extent)) :
    MergeRel s (roundSpare current s)
      (walk s.dstart (before.map s.extent) (s.extent current) .spare []) := by
  have hsucc := hring.succ_last
  simp only [walk, reduceCtorEq, false_and, ne_eq, not_false_eq_true, true_and,
    false_or, hring.firstRun_eq]
  cases hspare : sparesHoles s.dstart (s.extent current) (s.extent s.head) with
  | false =>
      rw [if_neg (by simp), roundSpare,
        mergeSpareLoop_done (by rw [hsucc]; exact hspare), Option.bind_some]
      exact mergeFrom_again hring hsettled
  | true =>
      rw [if_pos rfl]
      cases before with
      | nil =>
          have hhead : current = s.head := hring.cycle.head_eq
          subst hhead
          rw [roundSpare, mergeSpareLoop_self hsucc hspare]
          exact .none
      | cons first before =>
          rw [roundSpare, mergeSpareLoop_round (by rw [hsucc]; exact hspare)]
          rw [show (mergeSpareLoop current (s.absorbNext current
              (mergeSpare (s.extent current) (s.extent (s.succ current))))).bind
              (fun s => mergeFrom (s, s.succ current)) = none from
            roundSpare_orphaned (hring.absorb_head _)]
          exact .none

/-- The first inner loop at the last node of the ring. -/
theorem roundFollowing_last {s : SBuffer} {before : List ℕ} {current : ℕ}
    (hring : s.OnRing (before ++ [current]))
    (hsettled : Settled s.dstart ((before ++ [current]).map s.extent)) :
    MergeRel s (roundFollowing current s)
      (walk s.dstart (before.map s.extent) (s.extent current) .following []) := by
  have hsucc := hring.succ_last
  cases hfollow : followsOn (s.extent current) (s.extent s.head) with
  | false =>
      have hspare := roundSpare_last hring hsettled
      rw [roundFollowing,
        mergeFollowingLoop_done (by rw [hsucc]; exact hfollow), Option.bind_some]
      have hwalk : walk s.dstart (before.map s.extent) (s.extent current)
          .following [] =
          walk s.dstart (before.map s.extent) (s.extent current) .spare [] := by
        simp only [walk, hring.firstRun_eq, hfollow]
        simp
      rw [hwalk]
      exact hspare
  | true =>
      simp only [walk, hring.firstRun_eq, hfollow]
      rw [if_pos (by simp)]
      cases before with
      | nil =>
          have hhead : current = s.head := hring.cycle.head_eq
          subst hhead
          rw [roundFollowing, mergeFollowingLoop_self hsucc hfollow]
          exact .none
      | cons first before =>
          rw [roundFollowing,
            mergeFollowingLoop_round (by rw [hsucc]; exact hfollow)]
          rw [show (mergeFollowingLoop current (s.absorbNext current
              (mergeFollowing (s.extent current)
                (s.extent (s.succ current))))).bind
              (fun s => (mergeSpareLoop current s).bind
                fun s => mergeFrom (s, s.succ current)) = none from
            roundFollowing_orphaned (hring.absorb_head _)]
          exact .none

/-- Every stage of a round of the outer loop computes the corresponding stage
of `walk`.  The induction is on the nodes between the current one and `head`;
the second inner loop is entered only once the first has nothing left to do. -/
theorem rounds_refine (after : List ℕ) :
    ∀ (s : SBuffer) (before : List ℕ) (current : ℕ),
      s.OnRing (before ++ current :: after) →
      Bounded ((before ++ current :: after).map s.extent) →
      Settled s.dstart ((before ++ [current]).map s.extent) →
      MergeRel s (mergeFrom (s, current))
          (walk s.dstart (before.map s.extent) (s.extent current) .arrived
            (after.map s.extent)) ∧
        MergeRel s (roundFollowing current s)
          (walk s.dstart (before.map s.extent) (s.extent current) .following
            (after.map s.extent)) ∧
        ((∀ next ∈ after.head?,
            followsOn (s.extent current) (s.extent next) = false) →
          MergeRel s (roundSpare current s)
            (walk s.dstart (before.map s.extent) (s.extent current) .spare
              (after.map s.extent))) := by
  induction after with
  | nil =>
      intro s before current hring _ hsettled
      refine ⟨?_, roundFollowing_last hring hsettled,
        fun _ => roundSpare_last hring hsettled⟩
      rw [mergeFrom_done hring.succ_last]
      exact .some ⟨s.nodes, before ++ [current], rfl, hring, by simp⟩
  | cons next after ih =>
      intro s before current hring hbounded hsettled
      have hsucc := hring.succ_mid
      have habsorb : ∀ merged : Extent,
          merged.firstSeq = (s.extent current).firstSeq →
          merged.filled = (s.extent current).filled →
          merged.lastSeq ≤ intMax →
          let s₁ := s.absorbNext current merged
          s₁.OnRing (before ++ current :: after) ∧
            Bounded ((before ++ current :: after).map s₁.extent) ∧
            Settled s₁.dstart ((before ++ [current]).map s₁.extent) ∧
            before.map s₁.extent = before.map s.extent ∧
            s₁.extent current = merged ∧
            after.map s₁.extent = after.map s.extent := by
        intro merged hfirst hfilled hlast
        have hring₁ := hring.absorbNext merged
        obtain ⟨hbefore, hrest⟩ := hring.map_absorbNext merged
        have hafter : after.map (s.absorbNext current merged).extent =
            after.map s.extent := (List.cons.inj hrest).2
        have hself : (s.absorbNext current merged).extent current = merged := by
          simp
        refine ⟨hring₁, ?_, ?_, hbefore, hself, hafter⟩
        · rw [List.map_append, List.map_cons, hbefore, hself, hafter]
          rw [List.map_append, List.map_cons, List.map_cons] at hbounded
          exact bounded_merge hbounded hfirst hlast
        · rw [List.map_append, List.map_singleton, hbefore, hself]
          rw [List.map_append, List.map_singleton] at hsettled
          exact hsettled.replace_last hfirst hfilled
      have hnextBound : (s.extent next).firstSeq ≤ intMax ∧
          (s.extent next).lastSeq ≤ intMax :=
        hbounded (s.extent next) (by simp)
      have hspareRel : followsOn (s.extent current) (s.extent next) = false →
          MergeRel s (roundSpare current s)
            (walk s.dstart (before.map s.extent) (s.extent current) .spare
              ((next :: after).map s.extent)) := by
        intro hfollow
        simp only [List.map_cons, walk, ne_eq, not_true_eq_false, false_and,
          if_false]
        cases hspare : sparesHoles s.dstart (s.extent current)
            (s.extent next) with
        | true =>
            rw [if_pos rfl, roundSpare,
              mergeSpareLoop_round (by rw [hsucc]; exact hspare), hsucc]
            obtain ⟨hring₁, hbounded₁, hsettled₁, hbefore, hself, hafter⟩ :=
              habsorb (mergeSpare (s.extent current) (s.extent next)) rfl rfl
                le_rfl
            have hrel := (ih _ before current hring₁ hbounded₁ hsettled₁).2.2
              (by
                intro other hother
                rw [hself, Bool.eq_false_iff, ne_eq, followsOn_iff]
                rintro ⟨hlast, -⟩
                have hmem : other ∈ after := List.mem_of_mem_head? hother
                have := (hbounded₁ _ (List.mem_map_of_mem
                  (by simp [hmem] : other ∈ before ++ current :: after))).1
                rw [mergeSpare_lastSeq] at hlast
                omega)
            rw [hbefore, hself, hafter] at hrel
            exact hrel.of_absorbNext
        | false =>
            rw [if_neg (by simp), roundSpare,
              mergeSpareLoop_done (by rw [hsucc]; exact hspare),
              Option.bind_some, hsucc]
            have hrel := (ih s (before ++ [current]) next
              (by simpa using hring) (by simpa using hbounded)
              (by
                simp only [List.map_append, List.map_singleton] at hsettled ⊢
                exact hsettled.concat hfollow hspare)).1
            simpa using hrel
      have hfollowingRel : MergeRel s (roundFollowing current s)
          (walk s.dstart (before.map s.extent) (s.extent current) .following
            ((next :: after).map s.extent)) := by
        cases hfollow : followsOn (s.extent current) (s.extent next) with
        | true =>
            rw [List.map_cons, walk, if_pos ⟨by simp, hfollow⟩, roundFollowing,
              mergeFollowingLoop_round (by rw [hsucc]; exact hfollow), hsucc]
            obtain ⟨hring₁, hbounded₁, hsettled₁, hbefore, hself, hafter⟩ :=
              habsorb (mergeFollowing (s.extent current) (s.extent next)) rfl
                rfl hnextBound.2
            have hrel := (ih _ before current hring₁ hbounded₁ hsettled₁).2.1
            rw [hbefore, hself, hafter] at hrel
            exact hrel.of_absorbNext
        | false =>
            rw [roundFollowing,
              mergeFollowingLoop_done (by rw [hsucc]; exact hfollow),
              Option.bind_some]
            have hrel := hspareRel hfollow
            rw [List.map_cons, walk, if_neg (by simp)] at hrel
            rw [List.map_cons, walk, if_neg (by simp [hfollow])]
            exact hrel
      refine ⟨?_, hfollowingRel, fun hhead => hspareRel (hhead next (by simp))⟩
      rw [mergeFrom_round (by rw [hsucc]; exact hring.mid_ne_head)]
      simpa [walk] using hfollowingRel

theorem mergeList_refines {s : SBuffer} {r : RingBuffer}
    (hrep : Represents s r) (hbounded : Bounded r.runs) :
    Option.Rel Represents (mergeList s) r.mergeList := by
  obtain ⟨cells, hring, rfl⟩ := hrep
  cases cells with
  | nil => exact absurd rfl hring.cycle.nonempty
  | cons current after =>
      obtain rfl : current = s.head := hring.cycle.head_eq
      have hrel := (rounds_refine after s [] s.head hring hbounded
        (List.isChain_singleton _)).1
      rw [mergeList, RingBuffer.mergeList]
      simp only [view, List.map_cons, mergeRuns]
      rw [List.map_nil] at hrel
      cases hfrom : mergeFrom (s, s.head) with
      | none =>
          rw [hfrom] at hrel
          cases hwalk : walk s.dstart [] (s.extent s.head) .arrived
              (after.map s.extent) with
          | none => exact .none
          | some runs => rw [hwalk] at hrel; cases hrel
      | some state =>
          rw [hfrom] at hrel
          cases hwalk : walk s.dstart [] (s.extent s.head) .arrived
              (after.map s.extent) with
          | none => rw [hwalk] at hrel; cases hrel
          | some runs =>
              rw [hwalk] at hrel
              cases hrel with
              | some hmerged =>
                  obtain ⟨nodes, cells, heq, hcells, hruns⟩ := hmerged
                  refine .some ⟨cells, hcells, ?_⟩
                  rw [view, hruns, heq]

/-! ## Placing a packet -/

@[simp]
theorem succ_newCirNode (s : SBuffer) :
    s.newCirNode.2.succ = Function.update s.succ s.fresh 0 := by
  change (s.setNode s.fresh blankNode).succ = _
  rw [succ_setNode]
  rfl

@[simp]
theorem extent_newCirNode (s : SBuffer) :
    s.newCirNode.2.extent =
      Function.update s.extent s.fresh blankNode.toExtent := by
  change (s.setNode s.fresh blankNode).extent = _
  rw [extent_setNode]

theorem OnRing.fresh_notMem {s : SBuffer} {cells : List ℕ}
    (hring : s.OnRing cells) {address : ℕ} (haddress : s.fresh ≤ address) :
    address ∉ cells := by
  intro hmem
  have := hring.allocated address hmem
  omega

/-- A node linked in behind `current`. -/
theorem OnRing.insertAfter {s s' : SBuffer} {before after : List ℕ}
    {current new : ℕ} (hring : s.OnRing (before ++ current :: after))
    (hnew : new ∉ before ++ current :: after) (hhead : s'.head = s.head)
    (hgrow : s.fresh ≤ s'.fresh) (hfresh : new < s'.fresh)
    (hsucc : s'.succ = Function.update
      (Function.update s.succ new (s.succ current)) current new) :
    s'.OnRing (before ++ current :: new :: after) := by
  refine ⟨⟨?_, by simp, ?_⟩, ?_⟩
  · rw [hhead, hsucc]
    exact hring.cycle.segment.spliceIn hring.cycle.nodup hnew
  · have hperm : (before ++ current :: new :: after).Perm
        (new :: (before ++ current :: after)) := by
      have : before ++ current :: new :: after =
          (before ++ [current]) ++ new :: after := by simp
      rw [this]
      refine List.perm_middle.trans ?_
      simp
    exact hperm.nodup_iff.2 (List.nodup_cons.2 ⟨hnew, hring.cycle.nodup⟩)
  · intro address haddress
    simp only [List.mem_append, List.mem_cons] at haddress
    have hold : address ∈ before ++ current :: after → address < s'.fresh := by
      intro hmem
      have := hring.allocated address hmem
      omega
    rcases haddress with hmem | rfl | rfl | hmem
    · exact hold (by simp [hmem])
    · exact hold (by simp)
    · exact hfresh
    · exact hold (by simp [hmem])

/-- The ring after `fillHole` is the ring before it with the node of the hole
replaced by the nodes of the placement. -/
structure Filled (s : SBuffer) (before after : List ℕ) (current : ℕ)
    (result : SBuffer × ℕ) (placed : Placement) (front back : List ℕ) :
    Prop where
  ring : result.1.OnRing (before ++ front ++ result.2 :: (back ++ after))
  front_eq : front.map result.1.extent = placed.front
  node_eq : result.1.extent result.2 = placed.node
  back_eq : back.map result.1.extent = placed.back
  before_eq : before.map result.1.extent = before.map s.extent
  after_eq : after.map result.1.extent = after.map s.extent
  buffer_eq : result.1.buffer = s.buffer
  dstart_eq : result.1.dstart = s.dstart
  dend_eq : result.1.dend = s.dend
  unplaced : placed.node.filled = false → result = (s, current)

theorem Filled.refl {s : SBuffer} {before after : List ℕ} {current : ℕ}
    (hring : s.OnRing (before ++ current :: after)) :
    Filled s before after current (s, current)
      { front := [], node := s.extent current, back := [] } [] [] where
  ring := by simpa using hring
  front_eq := rfl
  node_eq := rfl
  back_eq := rfl
  before_eq := rfl
  after_eq := rfl
  buffer_eq := rfl
  dstart_eq := rfl
  dend_eq := rfl
  unplaced := fun _ => rfl

/-- `s'` is `s` with one node linked in behind `current`. -/
structure LinkedBehind (s s' : SBuffer) (current new : ℕ)
    (cur' added : Extent) : Prop where
  succ_eq : s'.succ =
    Function.update (Function.update s.succ new (s.succ current)) current new
  extent_eq : s'.extent =
    Function.update (Function.update s.extent new added) current cur'
  head_eq : s'.head = s.head
  fresh_le : s.fresh ≤ s'.fresh
  fresh_lt : new < s'.fresh
  buffer_eq : s'.buffer = s.buffer
  dstart_eq : s'.dstart = s.dstart
  dend_eq : s'.dend = s.dend

theorem LinkedBehind.extents {s s' : SBuffer} {before after : List ℕ}
    {current new : ℕ} {cur' added : Extent}
    (hlinked : LinkedBehind s s' current new cur' added)
    (hring : s.OnRing (before ++ current :: after))
    (hnew : new ∉ before ++ current :: after) :
    before.map s'.extent = before.map s.extent ∧
      after.map s'.extent = after.map s.extent ∧
      s'.extent current = cur' ∧ s'.extent new = added := by
  obtain ⟨hbefore, hafter⟩ := hring.notMem
  simp only [List.mem_append, List.mem_cons, not_or] at hnew
  rw [hlinked.extent_eq]
  refine ⟨?_, ?_, by simp, ?_⟩
  · rw [map_update_of_notMem hbefore, map_update_of_notMem hnew.1]
  · rw [map_update_of_notMem hafter, map_update_of_notMem hnew.2.2]
  · rw [Function.update_of_ne hnew.2.1, Function.update_self]

theorem LinkedBehind.ring {s s' : SBuffer} {before after : List ℕ}
    {current new : ℕ} {cur' added : Extent}
    (hlinked : LinkedBehind s s' current new cur' added)
    (hring : s.OnRing (before ++ current :: after))
    (hnew : new ∉ before ++ current :: after) :
    s'.OnRing (before ++ current :: new :: after) :=
  hring.insertAfter hnew hlinked.head_eq hlinked.fresh_le hlinked.fresh_lt
    hlinked.succ_eq

/-- The packet stays at `current` and the rest of the hole goes behind it. -/
theorem LinkedBehind.filled_front {s s' : SBuffer} {before after : List ℕ}
    {current new : ℕ} {cur' added : Extent}
    (hlinked : LinkedBehind s s' current new cur' added)
    (hring : s.OnRing (before ++ current :: after))
    (hnew : new ∉ before ++ current :: after)
    (hfilled : cur'.filled = true) :
    Filled s before after current (s', current)
      { front := [], node := cur', back := [added] } [] [new] := by
  obtain ⟨hbefore, hafter, hcur, hadded⟩ := hlinked.extents hring hnew
  exact {
    ring := by simpa using hlinked.ring hring hnew
    front_eq := rfl
    node_eq := hcur
    back_eq := by simp [hadded]
    before_eq := hbefore
    after_eq := hafter
    buffer_eq := hlinked.buffer_eq
    dstart_eq := hlinked.dstart_eq
    dend_eq := hlinked.dend_eq
    unplaced := by simp [hfilled] }

/-- The hole stays at `current` and the packet goes behind it. -/
theorem LinkedBehind.filled_back {s s' : SBuffer} {before after : List ℕ}
    {current new : ℕ} {cur' added : Extent}
    (hlinked : LinkedBehind s s' current new cur' added)
    (hring : s.OnRing (before ++ current :: after))
    (hnew : new ∉ before ++ current :: after)
    (hfilled : added.filled = true) :
    Filled s before after current (s', new)
      { front := [cur'], node := added, back := [] } [current] [] := by
  obtain ⟨hbefore, hafter, hcur, hadded⟩ := hlinked.extents hring hnew
  exact {
    ring := by simpa using hlinked.ring hring hnew
    front_eq := by simp [hcur]
    node_eq := hadded
    back_eq := rfl
    before_eq := hbefore
    after_eq := hafter
    buffer_eq := hlinked.buffer_eq
    dstart_eq := hlinked.dstart_eq
    dend_eq := hlinked.dend_eq
    unplaced := by simp [hfilled] }

/-- A packet inside a hole: the rest of the hole is linked in behind it, then
the packet itself. -/
theorem filled_middle {s s₁ s₂ : SBuffer} {before after : List ℕ}
    {current nodeA nodeB : ℕ} {hole packet rest : Extent}
    (hring : s.OnRing (before ++ current :: after))
    (hB : nodeB ∉ before ++ current :: after)
    (hA : nodeA ∉ before ++ current :: nodeB :: after)
    (hrest : LinkedBehind s s₁ current nodeB hole rest)
    (hpacket : LinkedBehind s₁ s₂ current nodeA hole packet)
    (hfilled : packet.filled = true) :
    Filled s before after current (s₂, nodeA)
      { front := [hole], node := packet, back := [rest] }
      [current] [nodeB] := by
  have hring₁ := hrest.ring hring hB
  obtain ⟨hbefore₁, hafter₁, -, hadded₁⟩ := hrest.extents hring hB
  obtain ⟨hbefore₂, hafter₂, hcur₂, hadded₂⟩ := hpacket.extents hring₁ hA
  rw [List.map_cons, List.map_cons, hadded₁, hafter₁] at hafter₂
  obtain ⟨hback, hafter₂⟩ := List.cons.inj hafter₂
  exact {
    ring := by simpa using hpacket.ring hring₁ hA
    front_eq := by simp [hcur₂]
    node_eq := hadded₂
    back_eq := by simp [hback]
    before_eq := hbefore₂.trans hbefore₁
    after_eq := hafter₂
    buffer_eq := hpacket.buffer_eq.trans hrest.buffer_eq
    dstart_eq := hpacket.dstart_eq.trans hrest.dstart_eq
    dend_eq := hpacket.dend_eq.trans hrest.dend_eq
    unplaced := by simp [hfilled] }

/-- One new node set up and linked in behind `current`. -/
theorem linkedBehind_newCirNode (s : SBuffer) (current : ℕ)
    (added cur' : Extent) :
    LinkedBehind s
      ((s.newCirNode.2.setNode s.fresh
        { toExtent := added, next := s.succ current }).setNode current
          { toExtent := cur', next := s.fresh })
      current s.fresh cur' added where
  succ_eq := by simp
  extent_eq := by simp
  head_eq := rfl
  fresh_le := Nat.le_succ _
  fresh_lt := Nat.lt_succ_self _
  buffer_eq := rfl
  dstart_eq := rfl
  dend_eq := rfl

/-- The two new nodes of a packet inside a hole, allocated in the order of the
source. -/
theorem filled_twoNodes {s : SBuffer} {before after : List ℕ} {current : ℕ}
    (hring : s.OnRing (before ++ current :: after))
    {hole packet rest : Extent} (hfilled : packet.filled = true) :
    let s₁ := s.newCirNode.2
    let s₂ := s₁.newCirNode.2
    let s₃ := s₂.setNode s.fresh { toExtent := packet, next := s₁.fresh }
    let s₄ := s₃.setNode s₁.fresh { toExtent := rest, next := s.succ current }
    Filled s before after current
      (s₄.setNode current { toExtent := hole, next := s.fresh }, s.fresh)
      { front := [hole], node := packet, back := [rest] }
      [current] [s₁.fresh] := by
  intro s₁ s₂ s₃ s₄
  have hA := hring.fresh_notMem le_rfl
  have hB : s.fresh + 1 ∉ before ++ current :: after :=
    hring.fresh_notMem (Nat.le_succ s.fresh)
  have hAC : s.fresh ≠ current := by
    rintro h
    exact hA (by simp [← h])
  have hBC : s.fresh + 1 ≠ current := by
    rintro h
    exact hB (by simp [← h])
  let t : SBuffer := { s with fresh := s.fresh + 2 }
  let t₁ := (t.setNode (s.fresh + 1)
    { toExtent := rest, next := s.succ current }).setNode current
      { toExtent := hole, next := s.fresh + 1 }
  have hrest : LinkedBehind s t₁ current (s.fresh + 1) hole rest := {
    succ_eq := by
      simp only [t₁, succ_setNode]
      rfl
    extent_eq := by
      simp only [t₁, extent_setNode]
      rfl
    head_eq := rfl
    fresh_le := Nat.le_add_right _ 2
    fresh_lt := Nat.lt_succ_self _
    buffer_eq := rfl
    dstart_eq := rfl
    dend_eq := rfl }
  have hpacket : LinkedBehind t₁
      (s₄.setNode current { toExtent := hole, next := s.fresh })
      current s.fresh hole packet := {
    succ_eq := by
      rw [hrest.succ_eq]
      simp only [s₄, s₃, s₂, s₁, succ_setNode, succ_newCirNode]
      funext a
      by_cases ha : a = current
      · simp [ha]
      · by_cases hf : a = s.fresh
        · subst a
          simp [hAC, newCirNode]
        · by_cases hg : a = s.fresh + 1
          · subst a
            simp [hBC, newCirNode]
          · simp [ha, hf, hg, newCirNode]
    extent_eq := by
      rw [hrest.extent_eq]
      simp only [s₄, s₃, s₂, s₁, extent_setNode, extent_newCirNode]
      funext a
      by_cases ha : a = current
      · simp [ha]
      · by_cases hf : a = s.fresh
        · subst a
          simp [hAC, newCirNode]
        · by_cases hg : a = s.fresh + 1
          · subst a
            simp [hBC, newCirNode]
          · simp [ha, hf, hg, newCirNode]
    head_eq := rfl
    fresh_le := le_rfl
    fresh_lt := show s.fresh < s.fresh + 1 + 1 by omega
    buffer_eq := rfl
    dstart_eq := rfl
    dend_eq := rfl }
  refine filled_middle hring hB ?_ hrest hpacket hfilled
  simp only [List.mem_append, List.mem_cons, not_or] at hA ⊢
  exact ⟨hA.1, hA.2.1, by simp [s₁, newCirNode], hA.2.2⟩

theorem filled_exact {s : SBuffer} {before after : List ℕ} {current : ℕ}
    (hring : s.OnRing (before ++ current :: after)) {cur' : Extent}
    (hfilled : cur'.filled = true) :
    Filled s before after current
      (s.setNode current { toExtent := cur', next := s.succ current }, current)
      { front := [], node := cur', back := [] } [] [] := by
  obtain ⟨hbefore, hafter⟩ := hring.notMem
  exact {
    ring := by
      refine ⟨⟨?_, by simp, ?_⟩, ?_⟩
      · simpa using hring.cycle.segment
      · simpa using hring.cycle.nodup
      · simpa using hring.allocated
    front_eq := rfl
    node_eq := by simp
    back_eq := rfl
    before_eq := by rw [extent_setNode, map_update_of_notMem hbefore]
    after_eq := by rw [extent_setNode, map_update_of_notMem hafter]
    buffer_eq := rfl
    dstart_eq := rfl
    dend_eq := rfl
    unplaced := by simp [hfilled] }

theorem fillHole_refines {s : SBuffer} {before after : List ℕ} {current : ℕ}
    (hring : s.OnRing (before ++ current :: after)) (seqnum size : ℤ) :
    Option.Rel
      (fun result placed =>
        ∃ front back, Filled s before after current result placed front back)
      (fillHole s current seqnum size)
      (fillRun (s.extent current) seqnum size) := by
  have hfresh := hring.fresh_notMem le_rfl
  rw [fillHole, fillRun]
  change Option.Rel _ (if (s.extent current).firstSeq = seqnum then _ else _) _
  by_cases hfirst : (s.extent current).firstSeq = seqnum
  · rw [if_pos hfirst, if_pos hfirst]
    change Option.Rel _ (if size < (s.extent current).size then _ else _) _
    by_cases hlt : size < (s.extent current).size
    · rw [if_pos hlt, if_pos hlt]
      cases signedInt (seqnum + 1) with
      | none => exact .none
      | some number =>
          exact .some ⟨[], [s.fresh],
            (linkedBehind_newCirNode s current _ _).filled_front hring
              hfresh rfl⟩
    · rw [if_neg hlt, if_neg hlt]
      change Option.Rel _ (if size = (s.extent current).size then _ else _) _
      by_cases heq : size = (s.extent current).size
      · rw [if_pos heq, if_pos heq]
        exact .some ⟨[], [], filled_exact hring rfl⟩
      · rw [if_neg heq, if_neg heq]
        exact .some ⟨[], [], Filled.refl hring⟩
  · rw [if_neg hfirst, if_neg hfirst]
    change Option.Rel _ (if (s.extent current).firstSeq < seqnum ∧
      (s.extent current).lastSeq > seqnum then _ else _) _
    by_cases hmid : (s.extent current).firstSeq < seqnum ∧
        (s.extent current).lastSeq > seqnum
    · rw [if_pos hmid, if_pos hmid]
      exact .some ⟨[current], [s.fresh + 1], filled_twoNodes hring rfl⟩
    · rw [if_neg hmid, if_neg hmid]
      change Option.Rel _ (if (s.extent current).firstSeq < seqnum ∧
        (s.extent current).lastSeq = seqnum then _ else _) _
      by_cases hend : (s.extent current).firstSeq < seqnum ∧
          (s.extent current).lastSeq = seqnum
      · rw [if_pos hend, if_pos hend]
        exact .some ⟨[current], [],
          (linkedBehind_newCirNode s current _ _).filled_back hring
            hfresh rfl⟩
      · rw [if_neg hend, if_neg hend]
        exact .some ⟨[], [], Filled.refl hring⟩

/-! ## The operations -/

abbrev AnswerRel :
    Option (ℤ × SBuffer) → Option (ℤ × RingBuffer) → Prop :=
  Option.Rel fun left right => left.1 = right.1 ∧ Represents left.2 right.2

/-- The ring handed to `mergeList` once the packet has been copied. -/
theorem Filled.stored {s : SBuffer} {before after front back : List ℕ}
    {current : ℕ} {result : SBuffer × ℕ} {placed : Placement}
    (hfilled : Filled s before after current result placed front back)
    (seqnum : ℤ) (buffer : ℕ → UInt8) :
    Represents (result.1.stored seqnum buffer)
      { s.view (before ++ current :: after) with
        buffer := buffer
        dend := if seqnum > s.dend then seqnum else s.dend
        runs := refill (before.map s.extent) placed
          (after.map s.extent) } := by
  refine ⟨before ++ front ++ result.2 :: (back ++ after), ?_, ?_⟩
  · exact ⟨hfilled.ring.cycle, hfilled.ring.allocated⟩
  · simp only [SBuffer.stored, view, hfilled.dend_eq, List.map_append,
      List.map_cons, RingBuffer.mk.injEq, true_and]
    refine ⟨hfilled.dstart_eq, ?_⟩
    rw [refill, ← hfilled.before_eq, ← hfilled.after_eq, ← hfilled.front_eq,
      ← hfilled.node_eq, ← hfilled.back_eq]
    rfl

theorem answerRel_of_merge {left : Option SBuffer} {right : Option RingBuffer}
    (hrel : Option.Rel Represents left right) :
    AnswerRel (left.map fun s => (1, s)) (right.map fun r => (1, r)) := by
  cases hrel with
  | none => exact .none
  | some hrep => exact .some ⟨rfl, hrep⟩

/-- The packet has been placed: it is copied and the ring merged. -/
theorem settle_refines {s : SBuffer} {before after front back : List ℕ}
    {current : ℕ} {result : SBuffer × ℕ} {placed : Placement}
    {seqnum size : ℤ} {data : List UInt8}
    (hfilled : Filled s before after current result placed front back)
    (hbounded : Bounded ((before ++ current :: after).map s.extent))
    (htakes : Takes (s.extent current) seqnum size placed) :
    AnswerRel (finish seqnum data (.placed result.1 result.2))
      (RingBuffer.settle (s.view (before ++ current :: after)) seqnum data
        (before.map s.extent) placed (after.map s.extent)) := by
  rw [RingBuffer.settle, finish]
  change AnswerRel ((storeBytes result.1.buffer
    (result.1.extent result.2) data).bind _) _
  rw [hfilled.node_eq, hfilled.buffer_eq]
  cases hstore : storeBytes s.buffer placed.node data with
  | none =>
      rw [show (s.view (before ++ current :: after)).buffer = s.buffer from rfl,
        hstore]
      exact .none
  | some buffer =>
      rw [show (s.view (before ++ current :: after)).buffer = s.buffer from rfl,
        hstore]
      rw [List.map_append, List.map_cons] at hbounded
      exact answerRel_of_merge (mergeList_refines
        (hfilled.stored seqnum buffer) (bounded_refill hbounded htakes))

/-- Where the walk on the heap ends, given what `seek` decides on the runs of
`cells`. -/
inductive WalkedTo (s : SBuffer) (cells : List ℕ) (seqnum size : ℤ) :
    Walked → Answer → Prop where
  | duplicate : WalkedTo s cells seqnum size (.answered 1 s) .duplicate
  | rejected : WalkedTo s cells seqnum size (.answered 0 s) .rejected
  | placed (before after front back : List ℕ) (current : ℕ)
      (result : SBuffer × ℕ) (placed : Placement) :
      cells = before ++ current :: after →
      Filled s before after current result placed front back →
      Takes (s.extent current) seqnum size placed →
      WalkedTo s cells seqnum size (.placed result.1 result.2)
        (.placed (before.map s.extent) placed (after.map s.extent))

/-- One round of the walk of `addData`, given what the walk does from the next
node on. -/
theorem walkFrom_step {s : SBuffer} {before after : List ℕ} {current : ℕ}
    {seqnum size : ℤ} (hring : s.OnRing (before ++ current :: after))
    (hadvance : Option.Rel
      (WalkedTo s (before ++ current :: after) seqnum size)
      (if s.succ current = s.head then some (.answered 0 s)
        else walkFrom seqnum size s (s.succ current))
      (seek s.dstart seqnum size (before.map s.extent ++ [s.extent current])
        (after.map s.extent))) :
    Option.Rel (WalkedTo s (before ++ current :: after) seqnum size)
      (walkFrom seqnum size s current)
      (seek s.dstart seqnum size (before.map s.extent)
        ((current :: after).map s.extent)) := by
  rw [walkFrom, List.map_cons, seek]
  change Option.Rel _ (if (s.extent current).firstSeq = seqnum ∧
    (s.extent current).filled = true then _ else _) _
  by_cases hdup : (s.extent current).firstSeq = seqnum ∧
      (s.extent current).filled = true
  · rw [if_pos hdup, if_pos hdup]
    exact .some .duplicate
  rw [if_neg hdup, if_neg hdup]
  cases signedInt (s.dstart + 63) with
  | none => exact .none
  | some limit =>
      simp only [Option.bind_some]
      by_cases hrange : seqnum > limit
      · rw [if_pos hrange, if_pos hrange]
        exact .some .rejected
      rw [if_neg hrange, if_neg hrange]
      change Option.Rel _ (if (s.extent current).filled = false then _ else _) _
      by_cases hhole : (s.extent current).filled = false
      · rw [if_pos hhole, if_pos hhole]
        have hfill := fillHole_refines hring seqnum size
        revert hfill
        cases hleft : fillHole s current seqnum size with
        | none =>
            cases hright : fillRun (s.extent current) seqnum size with
            | none => exact fun _ => .none
            | some placed => intro hfill; cases hfill
        | some result =>
            cases hright : fillRun (s.extent current) seqnum size with
            | none => intro hfill; cases hfill
            | some placed =>
                intro hfill
                obtain ⟨s', current'⟩ := result
                cases hfill with
                | some hfill =>
                obtain ⟨front, back, hfilled⟩ := hfill
                change Option.Rel _ (if (s'.extent current').filled = true
                  then _ else _) (if placed.node.filled = true then _ else _)
                rw [hfilled.node_eq]
                by_cases hplaced : placed.node.filled = true
                · rw [if_pos hplaced, if_pos hplaced]
                  exact .some (.placed before after front back current
                    (s', current') placed rfl hfilled
                    (takes_of_fillRun hhole hright hplaced))
                · rw [if_neg hplaced, if_neg hplaced]
                  cases hfilled.unplaced (by simpa using hplaced)
                  exact hadvance
      · rw [if_neg hhole, if_neg hhole]
        exact hadvance

theorem walkFrom_refines {seqnum size : ℤ} {s : SBuffer} (after : List ℕ) :
    ∀ (before : List ℕ) (current : ℕ), s.OnRing (before ++ current :: after) →
      Option.Rel (WalkedTo s (before ++ current :: after) seqnum size)
        (walkFrom seqnum size s current)
        (seek s.dstart seqnum size (before.map s.extent)
          ((current :: after).map s.extent)) := by
  induction after with
  | nil =>
      intro before current hring
      refine walkFrom_step hring ?_
      rw [if_pos hring.succ_last]
      exact .some .rejected
  | cons next after ih =>
      intro before current hring
      refine walkFrom_step hring ?_
      rw [hring.succ_mid, if_neg hring.mid_ne_head]
      have hrel := ih (before ++ [current]) next (by simpa using hring)
      simpa using hrel

theorem insertFrom_refines {seqnum size : ℤ} {data : List UInt8}
    {s : SBuffer} {cells : List ℕ} (hring : s.OnRing cells)
    (hbounded : Bounded (cells.map s.extent)) :
    AnswerRel (insertFrom seqnum size data s s.head)
      (RingBuffer.insertWalk seqnum size data (s.view cells) []
        (cells.map s.extent)) := by
  have hself : Represents s (s.view cells) := ⟨_, hring, rfl⟩
  rw [insertFrom_eq, insertWalk_eq_seek]
  have hwalk : Option.Rel (WalkedTo s cells seqnum size)
      (walkFrom seqnum size s s.head)
      (seek s.dstart seqnum size [] (cells.map s.extent)) := by
    cases cells with
    | nil => exact absurd rfl hring.cycle.nonempty
    | cons current after =>
        obtain rfl : current = s.head := hring.cycle.head_eq
        exact walkFrom_refines after [] s.head hring
  change AnswerRel _ ((seek s.dstart seqnum size [] (cells.map s.extent)).bind _)
  generalize walkFrom seqnum size s s.head = left at hwalk ⊢
  generalize seek s.dstart seqnum size [] (cells.map s.extent) = right
    at hwalk ⊢
  cases hwalk with
  | none => exact .none
  | some hwalked =>
      cases hwalked with
      | duplicate => exact .some ⟨rfl, hself⟩
      | rejected => exact .some ⟨rfl, hself⟩
      | placed before after front back current result placed heq hfilled
          htakes =>
          subst heq
          exact settle_refines hfilled hbounded htakes

theorem countNodes_returns {s : SBuffer} (after : List ℕ) :
    ∀ (before : List ℕ) (current : ℕ) (count : ℤ),
      s.OnRing (before ++ current :: after) →
      ∃ result, whileLoop
        (fun state : ℤ × ℕ => decide ((s.nodes state.2).next ≠ s.head))
        (fun state => some (state.1 + 1, (s.nodes state.2).next))
        (count, current) = some result := by
  induction after with
  | nil =>
      intro before current count hring
      refine ⟨(count, current), whileLoop_done ?_⟩
      simpa [succ] using hring.succ_last
  | cons next after ih =>
      intro before current count hring
      have hnext := hring.succ_mid
      have hne := hring.mid_ne_head
      rw [← hnext] at hne
      rw [whileLoop_bind (by simpa [succ] using hne), Option.bind_some]
      change ∃ result, whileLoop _ _ (count + 1, s.succ current) = some result
      rw [hnext]
      exact ih (before ++ [current]) next (count + 1) (by simpa using hring)

theorem Represents.countNodes {s : SBuffer} {r : RingBuffer}
    (hrep : Represents s r) : ∃ count, s.countNodes = some count := by
  obtain ⟨cells, hring, -⟩ := hrep
  cases cells with
  | nil => exact absurd rfl hring.cycle.nonempty
  | cons current after =>
      obtain rfl : current = s.head := hring.cycle.head_eq
      obtain ⟨result, hresult⟩ := countNodes_returns after [] s.head 1 hring
      exact ⟨result.1, by rw [SBuffer.countNodes, hresult]; rfl⟩

theorem addData_refines {s : SBuffer} {r : RingBuffer}
    (hrep : Represents s r) (hbounded : Bounded r.runs) (seqnum size : ℤ)
    (data : List UInt8) :
    AnswerRel (s.addData seqnum size data) (r.addData seqnum size data) := by
  rw [addData, RingBuffer.addData]
  have hmerge := mergeList_refines hrep hbounded
  revert hmerge
  cases hleft : s.mergeList with
  | none =>
      cases hright : r.mergeList with
      | none => exact fun _ => .none
      | some r₁ => intro hmerge; cases hmerge
  | some s₁ =>
      cases hright : r.mergeList with
      | none => intro hmerge; cases hmerge
      | some r₁ =>
          intro hmerge
          cases hmerge with
          | some hrep₁ =>
              obtain ⟨count, hcount⟩ := hrep₁.countNodes
              rw [Option.bind_some, hcount, Option.bind_some, Option.bind_some]
              have hbounded₁ : Bounded r₁.runs := by
                rw [RingBuffer.mergeList, Option.map_eq_some_iff] at hright
                obtain ⟨runs, hruns, rfl⟩ := hright
                exact bounded_mergeRuns hruns hbounded
              obtain ⟨cells, hring, rfl⟩ := hrep₁
              exact insertFrom_refines hring hbounded₁

abbrev DeliveryRel :
    Option (ℤ × List UInt8 × SBuffer) →
      Option (ℤ × List UInt8 × RingBuffer) → Prop :=
  Option.Rel fun left right =>
    left.1 = right.1 ∧ left.2.1 = right.2.1 ∧ Represents left.2.2 right.2.2

theorem deliveryRel_of_merge {left : Option SBuffer}
    {right : Option RingBuffer} {count : ℤ} {bytes : List UInt8}
    (hrel : Option.Rel Represents left right) :
    DeliveryRel (left.map fun s => (count, bytes, s))
      (right.map fun r => (count, bytes, r)) := by
  cases hrel with
  | none => exact .none
  | some hrep => exact .some ⟨rfl, rfl, hrep⟩

/-- The run at `head` has been delivered: `head` moves on and the node becomes
the last of the ring. -/
theorem OnRing.deliver {s s' : SBuffer} {rest : List ℕ}
    (hring : s.OnRing (s.head :: rest)) (hsucc : s'.succ = s.succ)
    (hhead : s'.head = s.succ s.head) (hfresh : s'.fresh = s.fresh) :
    s'.OnRing (rest ++ [s.head]) := by
  refine ⟨?_, ?_⟩
  · rw [hsucc, hhead]
    exact hring.cycle.rotate
  · intro address haddress
    rw [hfresh]
    apply hring.allocated address
    simpa [or_comm] using haddress

theorem OnRing.head_notMem {s : SBuffer} {rest : List ℕ}
    (hring : s.OnRing (s.head :: rest)) : s.head ∉ rest :=
  (List.nodup_cons.1 hring.cycle.nodup).1

/-- The ring handed to `mergeList` once the run at `head` has been handed
out. -/
theorem OnRing.delivered {s : SBuffer} {rest : List ℕ}
    (hring : s.OnRing (s.head :: rest)) (dstart : ℤ) :
    Represents (s.delivered dstart)
      { s.view (s.head :: rest) with
        dstart := dstart
        runs := rest.map s.extent ++
          [{ s.extent s.head with filled := false }] } := by
  have hmap : (rest ++ [s.head]).map
      (s.setNode s.head { s.nodes s.head with filled := false }).extent =
      rest.map s.extent ++ [{ s.extent s.head with filled := false }] := by
    simp only [List.map_append, List.map_singleton, extent_setNode,
      Function.update_self, map_update_of_notMem hring.head_notMem]
    rfl
  refine ⟨rest ++ [s.head], hring.deliver ?_ rfl rfl, ?_⟩
  · change (s.setNode s.head { s.nodes s.head with filled := false }).succ =
      s.succ
    rw [succ_setNode]
    exact Function.update_eq_self _ _
  · rw [← hmap]
    rfl

/-- The ring once a part of the run at `head` has been handed out. -/
theorem OnRing.consumed {s : SBuffer} {rest : List ℕ}
    (hring : s.OnRing (s.head :: rest)) (size : ℤ) :
    Represents (s.consumed size)
      { s.view (s.head :: rest) with
        runs := { s.extent s.head with
                  data := (s.extent s.head).data + size
                  size := (s.extent s.head).size - size } ::
          rest.map s.extent } := by
  refine ⟨s.head :: rest, ⟨⟨?_, by simp, hring.cycle.nodup⟩,
    hring.allocated⟩, ?_⟩
  · rw [SBuffer.consumed, succ_setNode]
    change Segment (Function.update s.succ s.head (s.succ s.head))
      s.head (s.head :: rest) s.head
    rw [Function.update_eq_self]
    exact hring.cycle.segment
  · simp only [view, SBuffer.consumed, List.map_cons, extent_setNode,
      Function.update_self, map_update_of_notMem hring.head_notMem]
    rfl

theorem bounded_deliver {cur : Extent} {rest : List Extent}
    (hbounded : Bounded (cur :: rest)) :
    Bounded (rest ++ [{ cur with filled := false }]) := by
  intro run hrun
  rw [List.mem_append, List.mem_singleton] at hrun
  rcases hrun with hrun | rfl
  · exact hbounded run (by simp [hrun])
  · exact hbounded cur (by simp)

theorem requestData_refines {s : SBuffer} {r : RingBuffer}
    (hrep : Represents s r) (hbounded : Bounded r.runs) (size : ℤ) :
    DeliveryRel (s.requestData size) (r.requestData size) := by
  obtain ⟨cells, hring, rfl⟩ := hrep
  cases cells with
  | nil => exact absurd rfl hring.cycle.nonempty
  | cons current rest =>
      obtain rfl : current = s.head := hring.cycle.head_eq
      rw [requestData_eq, RingBuffer.requestData]
      change DeliveryRel _ (if s.Ready then _ else _)
      by_cases hready : s.Ready
      · rw [if_pos hready, if_pos hready]
        change DeliveryRel (Option.bind (fetchBytes s.buffer
          (s.extent s.head) (min (s.extent s.head).size size)) _)
          (if (s.extent s.head).size ≤ size then _ else _)
        by_cases hall : (s.extent s.head).size ≤ size
        · rw [if_pos hall, min_eq_left hall]
          change DeliveryRel _ (Option.bind (fetchBytes s.buffer
            (s.extent s.head) (s.extent s.head).size) _)
          cases fetchBytes s.buffer (s.extent s.head)
              (s.extent s.head).size with
          | none => exact .none
          | some bytes =>
              rw [Option.bind_some, Option.bind_some]
              change DeliveryRel (if (s.extent s.head).size ≤ size then
                Option.bind (signedInt ((s.extent s.head).lastSeq + 1)) _
                else _)
                (Option.bind (signedInt ((s.extent s.head).lastSeq + 1)) _)
              rw [if_pos hall]
              cases signedInt ((s.extent s.head).lastSeq + 1) with
              | none => exact .none
              | some dstart =>
                  exact deliveryRel_of_merge (mergeList_refines
                    (hring.delivered dstart) (bounded_deliver hbounded))
        · rw [if_neg hall, min_eq_right (by omega)]
          change DeliveryRel _
            (Option.map _ (fetchBytes s.buffer (s.extent s.head) size))
          cases fetchBytes s.buffer (s.extent s.head) size with
          | none => exact .none
          | some bytes =>
              rw [Option.bind_some]
              change DeliveryRel
                (if (s.extent s.head).size ≤ size then _ else _) _
              rw [if_neg hall]
              exact .some ⟨rfl, rfl, hring.consumed size⟩
      · rw [if_neg hready, if_neg hready]
        exact .some ⟨rfl, rfl, _, hring, rfl⟩

theorem initHead_represents : Represents initHead RingBuffer.initHead := by
  refine ⟨[1], ⟨⟨?_, by simp, by simp⟩, by simp [initHead]⟩, ?_⟩
  · simp [initHead, succ]
  · simp [initHead, view, RingBuffer.initHead, extent]

end SBuffer

end UdpTransfer.Receiver
