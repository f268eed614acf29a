import UdpTransfer.Receiver.Merging

/-!
# The layout of the ring

From `head` on the ring holds first the live runs, which cover the sequence
numbers from `dstart` on without a gap, and then the stale ones: delivered runs
that have become holes again, all below `dstart`.  Nothing in the program keeps
the two apart but their order.  The layout below is what every operation keeps,
for any arrivals and any reads, as long as the number `INT_MAX`, with which the
program marks an open end, is not itself the number of a packet.
-/

namespace UdpTransfer.Receiver

open UdpTransfer.Memory
open SBuffer

theorem isChain_block {α : Type*} {R : α → α → Prop} {l mid r : List α}
    (hmid : mid ≠ []) :
    (l ++ (mid ++ r)).IsChain R ↔
      l.IsChain R ∧ mid.IsChain R ∧ r.IsChain R ∧
        (∀ x ∈ l.getLast?, ∀ y ∈ mid.head?, R x y) ∧
        (∀ x ∈ mid.getLast?, ∀ y ∈ r.head?, R x y) := by
  have hhead : (mid ++ r).head? = mid.head? := by
    cases mid with
    | nil => exact absurd rfl hmid
    | cons a as => rfl
  rw [List.isChain_append, List.isChain_append, hhead]
  tauto

/-- What may stand behind a run on the ring: behind a live run its successor or
a stale run, behind a stale hole the stale run that follows on from it. -/
def Adjoins (dstart : ℤ) (current next : Extent) : Prop :=
  (dstart ≤ current.firstSeq →
    next.firstSeq = current.lastSeq + 1 ∨ next.lastSeq < dstart) ∧
  (current.firstSeq < dstart →
    next.lastSeq < dstart ∧
      (current.filled = false → next.firstSeq = current.lastSeq + 1))

theorem Adjoins.front {dstart : ℤ} {front run run' : Extent}
    (hadj : Adjoins dstart front run) (hfirst : run'.firstSeq = run.firstSeq)
    (hlast : run.lastSeq < dstart → run'.lastSeq < dstart) :
    Adjoins dstart front run' := by
  rw [Adjoins, hfirst]
  exact ⟨fun hlive => (hadj.1 hlive).imp_right hlast,
    fun hstale => (hadj.2 hstale).imp_left hlast⟩

theorem Adjoins.back {dstart : ℤ} {run run' back : Extent}
    (hadj : Adjoins dstart run back) (hlast : run'.lastSeq = run.lastSeq)
    (hside : run'.firstSeq < dstart ↔ run.firstSeq < dstart)
    (hfilled : run'.filled = false → run.filled = false) :
    Adjoins dstart run' back := by
  rw [Adjoins, hlast, ← not_lt, hside, not_lt]
  exact ⟨hadj.1, fun hstale => ⟨(hadj.2 hstale).1,
    fun hhole => (hadj.2 hstale).2 (hfilled hhole)⟩⟩

theorem Adjoins.consecutive {dstart : ℤ} {run back : Extent}
    (hnext : back.firstSeq = run.lastSeq + 1)
    (hside : run.firstSeq < dstart → back.lastSeq < dstart) :
    Adjoins dstart run back :=
  ⟨fun _ => .inl hnext, fun hstale => ⟨hside hstale, fun _ => hnext⟩⟩

/-- The boundary between live and stale runs, as an empty run. -/
def edge (dstart : ℤ) : Extent where
  firstSeq := dstart
  lastSeq := dstart - 1
  data := 0
  size := 0
  filled := false

structure RunOk (dstart : ℤ) (run : Extent) : Prop where
  ordered : run.firstSeq ≤ run.lastSeq
  bounded : run.lastSeq ≤ intMax
  side : run.lastSeq < dstart ∨ dstart ≤ run.firstSeq
  stored : run.filled = true → run.lastSeq < intMax
  window : run.filled = true → dstart ≤ run.firstSeq →
    run.lastSeq ≤ dstart + 63
  room : run.lastSeq = intMax ∨
    run.size ≤ 1000 * (run.lastSeq - run.firstSeq + 1)
  exact : run.filled = false → dstart ≤ run.firstSeq → run.lastSeq = intMax ∨
    run.size = 1000 * (run.lastSeq - run.firstSeq + 1)

structure Layout (dstart : ℤ) (runs : List Extent) : Prop where
  one_le : 1 ≤ dstart
  dstart_le : dstart ≤ intMax
  nonempty : runs ≠ []
  run_ok : ∀ run ∈ runs, RunOk dstart run
  chain : (edge dstart :: (runs ++ [edge dstart])).IsChain (Adjoins dstart)

/-- The chain of a layout, cut round a block of runs. -/
theorem chain_block {dstart : ℤ} {before mid after : List Extent}
    (hmid : mid ≠ []) :
    (edge dstart :: (before ++ mid ++ after ++ [edge dstart])).IsChain
        (Adjoins dstart) ↔
      (edge dstart :: before).IsChain (Adjoins dstart) ∧
        mid.IsChain (Adjoins dstart) ∧
        (after ++ [edge dstart]).IsChain (Adjoins dstart) ∧
        (∀ x ∈ (edge dstart :: before).getLast?, ∀ y ∈ mid.head?,
          Adjoins dstart x y) ∧
        (∀ x ∈ mid.getLast?, ∀ y ∈ (after ++ [edge dstart]).head?,
          Adjoins dstart x y) := by
  have hsplit : edge dstart :: (before ++ mid ++ after ++ [edge dstart]) =
      (edge dstart :: before) ++ (mid ++ (after ++ [edge dstart])) := by
    simp
  rw [hsplit]
  exact isChain_block hmid

/-- Replacing a block of runs by another that fits in its place. -/
theorem Layout.replace {dstart : ℤ} {before old new after : List Extent}
    (hlayout : Layout dstart (before ++ old ++ after)) (hold : old ≠ [])
    (hnew : new ≠ []) (hok : ∀ run ∈ new, RunOk dstart run)
    (hchain : new.IsChain (Adjoins dstart))
    (hfront : ∀ x, (∀ y ∈ old.head?, Adjoins dstart x y) →
      ∀ y ∈ new.head?, Adjoins dstart x y)
    (hback : ∀ y, y.firstSeq ≤ intMax →
      (∀ x ∈ old.getLast?, Adjoins dstart x y) →
      ∀ x ∈ new.getLast?, Adjoins dstart x y) :
    Layout dstart (before ++ new ++ after) := by
  have hparts := (chain_block hold).1 hlayout.chain
  refine ⟨hlayout.one_le, hlayout.dstart_le, by simp [hnew], ?_,
    (chain_block hnew).2 ?_⟩
  · intro run hrun
    simp only [List.mem_append] at hrun
    rcases hrun with (hrun | hrun) | hrun
    · exact hlayout.run_ok run (by simp [hrun])
    · exact hok run hrun
    · exact hlayout.run_ok run (by simp [hrun])
  · refine ⟨hparts.1, hchain, hparts.2.2.1, ?_, ?_⟩
    · intro x hx
      exact hfront x (hparts.2.2.2.1 x hx)
    · intro x hx y hy
      refine hback y ?_ (fun x hx => hparts.2.2.2.2 x hx y hy) x hx
      have hmem := List.mem_of_mem_head? hy
      rw [List.mem_append, List.mem_singleton] at hmem
      rcases hmem with hmem | rfl
      · have hrun := hlayout.run_ok y (by simp [hmem])
        exact hrun.ordered.trans hrun.bounded
      · exact hlayout.dstart_le

/-! ## Merging -/

theorem Layout.pair {dstart : ℤ} {before after : List Extent}
    {current next : Extent}
    (hlayout : Layout dstart (before ++ current :: next :: after)) :
    RunOk dstart current ∧ RunOk dstart next ∧
      Adjoins dstart current next := by
  refine ⟨hlayout.run_ok current (by simp), hlayout.run_ok next (by simp), ?_⟩
  have hchain : (edge dstart ::
      (before ++ [current, next] ++ after ++ [edge dstart])).IsChain
      (Adjoins dstart) := by
    simpa using hlayout.chain
  have hmid := ((chain_block (by simp)).1 hchain).2.1
  simpa using hmid

/-- Joining two neighbours: the joined run must fit where the pair stood. -/
theorem Layout.join {dstart : ℤ} {before after : List Extent}
    {current next merged : Extent}
    (hlayout : Layout dstart (before ++ current :: next :: after))
    (hok : RunOk dstart merged)
    (hfront : ∀ x, Adjoins dstart x current → Adjoins dstart x merged)
    (hback : ∀ y, Adjoins dstart next y → Adjoins dstart merged y) :
    Layout dstart (before ++ merged :: after) := by
  have hsplit : Layout dstart (before ++ [current, next] ++ after) := by
    simpa using hlayout
  have hjoined : Layout dstart (before ++ [merged] ++ after) := by
    refine hsplit.replace (by simp) (by simp) ?_ (List.isChain_singleton _)
      ?_ ?_
    · intro run hrun
      rw [List.mem_singleton] at hrun
      rw [hrun]
      exact hok
    · intro x hx y hy
      simp only [List.head?_cons, Option.mem_some_iff] at hx hy
      subst hy
      exact hfront x (hx current rfl)
    · intro y _ hy x hx
      simp only [List.getLast?_singleton, Option.mem_some_iff] at hx
      subst hx
      exact hback y (hy next (by simp))
  simpa using hjoined

theorem Layout.mergeStep {dstart : ℤ} {left right : List Extent}
    (hstep : MergeStep dstart left right) (hlayout : Layout dstart left) :
    Layout dstart right := by
  have hdstart := hlayout.dstart_le
  cases hstep with
  | following before after current next hfollow =>
      obtain ⟨hcur, hnext, hadj⟩ := hlayout.pair
      rw [followsOn_iff] at hfollow
      obtain ⟨hlast, hfilled⟩ := hfollow
      have hside : current.firstSeq < dstart ∧ next.lastSeq < dstart ∨
          dstart ≤ current.firstSeq ∧ dstart ≤ next.firstSeq := by
        have := hcur.ordered
        rcases hcur.side with h | h
        · exact .inl ⟨by omega, (hadj.2 (by omega)).1⟩
        · exact .inr ⟨h, by omega⟩
      have h1 := hcur.ordered
      have h2 := hnext.ordered
      apply hlayout.join
      · refine ⟨?_, hnext.bounded, ?_, ?_, ?_, ?_, ?_⟩
        · simp only [mergeFollowing_firstSeq, mergeFollowing_lastSeq]
          omega
        · simp only [mergeFollowing_firstSeq, mergeFollowing_lastSeq]
          omega
        · simp only [mergeFollowing_filled, mergeFollowing_lastSeq]
          intro h
          exact hnext.stored (by rw [← hfilled, h])
        · simp only [mergeFollowing_filled, mergeFollowing_lastSeq,
            mergeFollowing_firstSeq]
          intro h hlive
          exact hnext.window (by rw [← hfilled, h]) (by omega)
        · have h3 := hcur.room
          have h4 := hnext.room
          have h5 := hnext.bounded
          simp only [mergeFollowing]
          omega
        · have h5 := hnext.bounded
          simp only [mergeFollowing_filled, mergeFollowing_firstSeq]
          intro hhole hlive
          have h3 := hcur.exact hhole hlive
          have h4 := hnext.exact (by rw [← hfilled, hhole]) (by omega)
          simp only [mergeFollowing]
          omega
      · intro x hx
        refine hx.front rfl fun _ => ?_
        simp only [mergeFollowing_lastSeq]
        omega
      · intro y hy
        refine hy.back rfl ?_ ?_
        · simp only [mergeFollowing_firstSeq]
          omega
        · rw [mergeFollowing_filled, hfilled]
          exact id
  | spare before after current next hspare hnot =>
      obtain ⟨hcur, hnext, hadj⟩ := hlayout.pair
      rw [sparesHoles_iff] at hspare
      obtain ⟨hhole, hhole', hcurStart, hnextStart⟩ := hspare
      have h1 := hcur.ordered
      have h2 := hnext.ordered
      have h3 := hnext.bounded
      have hgap : next.firstSeq = current.lastSeq + 1 → False := by
        intro heq
        rcases hnot with h | h
        · rw [Bool.eq_false_iff, ne_eq, followsOn_iff] at h
          exact h ⟨by omega, by rw [hhole, hhole']⟩
        · omega
      have hlive : dstart ≤ current.firstSeq := by
        by_contra hstale
        push Not at hstale
        exact hgap ((hadj.2 hstale).2 hhole)
      have hstale : next.lastSeq < dstart := by
        rcases hadj.1 hlive with h | h
        · exact absurd h hgap
        · exact h
      apply hlayout.join
      · refine ⟨?_, le_rfl, .inr hlive, ?_, ?_, .inl rfl, fun _ _ => .inl rfl⟩
        · simp only [mergeSpare_firstSeq, mergeSpare_lastSeq]
          have := hcur.bounded
          omega
        · simp [hhole]
        · simp [hhole]
      · intro x hx
        exact hx.front rfl fun _ => by omega
      · intro y hy
        simp only [Adjoins, mergeSpare_firstSeq] at hy ⊢
        refine ⟨fun _ => .inr (hy.2 (by omega)).1, fun h => ?_⟩
        omega

theorem Layout.mergeRuns {dstart : ℤ} {runs merged : List Extent}
    (hmerge : mergeRuns dstart runs = some merged)
    (hlayout : Layout dstart runs) : Layout dstart merged :=
  mergeRuns_invariant (fun _ _ => Layout.mergeStep) hmerge hlayout

/-! ## Placing a packet -/

theorem Takes.bounds {dstart seqnum : ℤ} {cur : Extent} {placed : Placement}
    (htakes : Takes cur seqnum 1000 placed) (hcur : RunOk dstart cur) :
    cur.firstSeq ≤ seqnum ∧ seqnum ≤ cur.lastSeq := by
  have hordered := hcur.ordered
  cases htakes with
  | beginning hfirst hsize hmax => exact ⟨hfirst.le, by omega⟩
  | whole hfirst hsize => exact ⟨hfirst.le, by omega⟩
  | middle hfirst hlast => exact ⟨hfirst.le, hlast.le⟩
  | ending hfirst hlast => exact ⟨hfirst.le, hlast.ge⟩

/-- Packet `seqnum` does not bear the number that marks an open end, or lies
beyond the window. -/
def OffSentinel (dstart seqnum : ℤ) : Prop :=
  seqnum = intMax → dstart + 63 < intMax

instance (dstart seqnum : ℤ) : Decidable (OffSentinel dstart seqnum) :=
  inferInstanceAs (Decidable (_ → _))

theorem offSentinel_of_lt {dstart seqnum : ℤ} (hmax : seqnum < intMax) :
    OffSentinel dstart seqnum :=
  fun hsentinel => absurd hsentinel hmax.ne

/-- Such a packet finds a place only below the open end. -/
theorem OffSentinel.lt_intMax {dstart seqnum : ℤ} {cur : Extent}
    {placed : Placement} (hoff : OffSentinel dstart seqnum)
    (hcur : RunOk dstart cur) (htakes : Takes cur seqnum 1000 placed)
    (hwindow : seqnum ≤ dstart + 63) : seqnum < intMax := by
  have hlow := (htakes.bounds hcur).2
  have hhigh := hcur.bounded
  refine lt_of_le_of_ne (hlow.trans hhigh) fun hsentinel => ?_
  have hbeyond := hoff hsentinel
  omega

/-- The run of a placed packet, on whichever side of `dstart` it lies. -/
theorem runOk_packet {dstart seqnum : ℤ} {node : Extent}
    (hmax : seqnum < intMax) (hwindow : seqnum ≤ dstart + 63)
    (hfirst : node.firstSeq = seqnum) (hlast : node.lastSeq = seqnum)
    (hsize : node.size = 1000) (hfilled : node.filled = true) :
    RunOk dstart node := by
  refine ⟨by omega, by omega, by omega, fun _ => by omega,
    fun _ _ => by omega, .inr (by omega), ?_⟩
  rw [hfilled]
  simp

theorem Layout.place {dstart seqnum : ℤ} {before after : List Extent}
    {cur : Extent} {placed : Placement}
    (hlayout : Layout dstart (before ++ cur :: after))
    (hhole : cur.filled = false) (htakes : Takes cur seqnum 1000 placed)
    (hmax : seqnum < intMax) (hwindow : seqnum ≤ dstart + 63) :
    Layout dstart (refill before placed after) := by
  have hcur := hlayout.run_ok cur (by simp)
  have hbounds := htakes.bounds hcur
  have hside := hcur.side
  have hroom := hcur.room
  have hexact := hcur.exact hhole
  have hlast := hcur.bounded
  have hsplit : Layout dstart (before ++ [cur] ++ after) := by
    simpa using hlayout
  have hregroup : refill before placed after =
      before ++ (placed.front ++ placed.node :: placed.back) ++ after := by
    simp [refill]
  rw [hregroup]
  cases htakes with
  | beginning hfirst hsize _ =>
      refine hsplit.replace (by simp) (by simp) ?_ ?_ ?_ ?_
      · intro run hrun
        simp only [List.nil_append, List.mem_cons, List.not_mem_nil,
          or_false] at hrun
        rcases hrun with rfl | rfl
        · exact runOk_packet hmax hwindow hfirst rfl rfl rfl
        · refine ⟨by simp only; omega, hlast, by simp only; omega, by simp,
            by simp, by simp only; omega, ?_⟩
          simp only
          omega
      · simp only [List.nil_append, List.isChain_cons_cons,
          List.isChain_singleton, and_true]
        exact .consecutive rfl (by simp only; omega)
      · intro x hx y hy
        simp only [List.head?_cons, Option.mem_some_iff, List.nil_append]
          at hx hy
        subst hy
        exact (hx cur rfl).front rfl (by simp only; omega)
      · intro y _ hy x hx
        simp only [List.nil_append, List.getLast?_cons_cons,
          List.getLast?_singleton, Option.mem_some_iff] at hx
        subst hx
        exact (hy cur (by simp)).back rfl (by simp only; omega)
          (fun _ => hhole)
  | whole hfirst hsize =>
      refine hsplit.replace (by simp) (by simp) ?_ (by simp) ?_ ?_
      · intro run hrun
        simp only [List.nil_append, List.mem_singleton] at hrun
        subst hrun
        exact runOk_packet hmax hwindow hfirst rfl hsize.symm rfl
      · intro x hx y hy
        simp only [List.head?_cons, Option.mem_some_iff, List.nil_append]
          at hx hy
        subst hy
        exact (hx cur rfl).front rfl (by simp only; omega)
      · intro y hy' hy x hx
        simp only [List.nil_append, List.getLast?_singleton,
          Option.mem_some_iff] at hx
        subst hx
        have hadj := hy cur (by simp)
        -- an open hole of one packet closes here, and nothing lives behind it
        refine ⟨fun hlive => ?_, fun hstale => ⟨(hadj.2 hstale).1, by simp⟩⟩
        have := hadj.1 hlive
        have := hexact hlive
        simp only
        omega
  | middle hfirst hend =>
      refine hsplit.replace (by simp) (by simp) ?_ ?_ ?_ ?_
      · intro run hrun
        simp only [List.cons_append, List.nil_append, List.mem_cons,
          List.not_mem_nil, or_false] at hrun
        rcases hrun with rfl | rfl | rfl
        · refine ⟨?_, ?_, ?_, ?_, ?_, ?_, ?_⟩ <;>
            simp only [holeBefore, hhole] <;> omega
        · exact runOk_packet hmax hwindow rfl rfl rfl rfl
        · refine ⟨?_, ?_, ?_, ?_, ?_, ?_, ?_⟩ <;>
            simp only [holeBehind, holeBefore] <;> first | omega | simp
      · simp only [List.cons_append, List.nil_append, List.isChain_cons_cons,
          List.isChain_singleton, and_true]
        exact ⟨.consecutive (by simp [packetInside, holeBefore])
            (by simp only [packetInside, holeBefore]; omega),
          .consecutive (by simp [packetInside, holeBehind])
            (by simp only [packetInside, holeBehind]; omega)⟩
      · intro x hx y hy
        simp only [List.head?_cons, Option.mem_some_iff, List.cons_append]
          at hx hy
        subst hy
        exact (hx cur rfl).front rfl (by simp only [holeBefore]; omega)
      · intro y _ hy x hx
        simp only [List.cons_append, List.nil_append, List.getLast?_cons_cons,
          List.getLast?_singleton, Option.mem_some_iff] at hx
        subst hx
        exact (hy cur (by simp)).back rfl (by simp only [holeBehind]; omega)
          (fun _ => hhole)
  | ending hfirst hend =>
      refine hsplit.replace (by simp) (by simp) ?_ ?_ ?_ ?_
      · intro run hrun
        simp only [List.cons_append, List.nil_append, List.mem_cons,
          List.not_mem_nil, or_false] at hrun
        rcases hrun with rfl | rfl
        · refine ⟨?_, ?_, ?_, ?_, ?_, ?_, ?_⟩ <;> simp only [hhole] <;>
            omega
        · exact runOk_packet hmax hwindow rfl rfl rfl rfl
      · simp only [List.cons_append, List.nil_append, List.isChain_cons_cons,
          List.isChain_singleton, and_true]
        exact .consecutive (by simp) (by simp only; omega)
      · intro x hx y hy
        simp only [List.head?_cons, Option.mem_some_iff, List.cons_append]
          at hx hy
        subst hy
        exact (hx cur rfl).front rfl (by simp only; omega)
      · intro y _ hy x hx
        simp only [List.cons_append, List.nil_append, List.getLast?_cons_cons,
          List.getLast?_singleton, Option.mem_some_iff] at hx
        subst hx
        exact (hy cur (by simp)).back hend.symm (by simp only; omega) (by simp)

/-! ## Delivering -/

/-- Behind a run stand only stale runs and, if it is live, later ones. -/
theorem chain_behind {dstart : ℤ} {runs : List Extent} :
    ∀ {run : Extent}, (run :: runs).IsChain (Adjoins dstart) →
      (∀ other ∈ run :: runs, RunOk dstart other) → ∀ other ∈ runs,
        other.lastSeq < dstart ∨
          dstart ≤ run.firstSeq ∧ run.lastSeq < other.firstSeq := by
  induction runs with
  | nil => simp
  | cons next runs ih =>
      intro run hchain hok other hother
      rw [List.isChain_cons_cons] at hchain
      obtain ⟨hadj, hchain⟩ := hchain
      have hrun := hok run (by simp)
      have hnext := hok next (by simp)
      have hfirst : next.lastSeq < dstart ∨
          dstart ≤ run.firstSeq ∧ run.lastSeq < next.firstSeq := by
        rcases lt_or_ge run.firstSeq dstart with hstale | hlive
        · exact .inl (hadj.2 hstale).1
        · rcases hadj.1 hlive with h | h
          · exact .inr ⟨hlive, by omega⟩
          · exact .inl h
      rcases List.mem_cons.1 hother with rfl | hother
      · exact hfirst
      · have hlater := ih hchain
          (fun run hmem => hok run (List.mem_cons_of_mem _ hmem)) other hother
        have h1 := hnext.ordered
        have h2 := hrun.ordered
        omega

/-- Two live runs of a ring have no number in common. -/
theorem Layout.pairwise {dstart : ℤ} {runs : List Extent}
    (hlayout : Layout dstart runs) :
    runs.Pairwise fun run other => other.lastSeq < dstart ∨
      dstart ≤ run.firstSeq ∧ run.lastSeq < other.firstSeq := by
  have hchain : runs.IsChain (Adjoins dstart) := by
    have := hlayout.chain.tail
    rw [List.tail_cons, List.isChain_append] at this
    exact this.1
  have hok := hlayout.run_ok
  clear hlayout
  induction runs with
  | nil => exact .nil
  | cons run runs ih =>
      refine .cons (chain_behind hchain hok) (ih hchain.tail ?_)
      exact fun other hother => hok other (List.mem_cons_of_mem _ hother)

theorem Layout.disjoint {dstart : ℤ} {before after : List Extent}
    {cur run : Extent}
    (hlayout : Layout dstart (before ++ cur :: after))
    (hcur : dstart ≤ cur.firstSeq) (hrun : run ∈ before ++ after) :
    run.lastSeq < cur.firstSeq ∨ cur.lastSeq < run.firstSeq := by
  have hpairs := hlayout.pairwise
  have hordered := (hlayout.run_ok cur (by simp)).ordered
  rw [List.pairwise_append, List.pairwise_cons] at hpairs
  rcases List.mem_append.1 hrun with hrun | hrun
  · have := hpairs.2.2 run hrun cur (by simp)
    omega
  · have hordered' := (hlayout.run_ok run (by simp [hrun])).ordered
    have := hpairs.2.1.1 run hrun
    omega

theorem RunOk.forward {dstart dstart' : ℤ} {run : Extent}
    (hrun : RunOk dstart run) (hle : dstart ≤ dstart')
    (hside : run.lastSeq < dstart ∨ dstart' ≤ run.firstSeq) :
    RunOk dstart' run :=
  ⟨hrun.ordered, hrun.bounded, by omega, hrun.stored,
    fun hfilled hlive => (hrun.window hfilled (hle.trans hlive)).trans
      (by omega),
    hrun.room, fun hhole hlive => hrun.exact hhole (hle.trans hlive)⟩

theorem Adjoins.forward {dstart dstart' : ℤ} {run back : Extent}
    (hadj : Adjoins dstart run back) (hle : dstart ≤ dstart')
    (hordered : run.firstSeq ≤ run.lastSeq)
    (hside : run.lastSeq < dstart ∨ dstart' ≤ run.firstSeq) :
    Adjoins dstart' run back := by
  refine ⟨fun hlive => ?_, fun hstale => ?_⟩
  · exact (hadj.1 (hle.trans hlive)).imp_right fun h => by omega
  · have := hadj.2 (by omega)
    exact ⟨by omega, this.2⟩

/-- The delivered run joins the ring from behind, as a stale hole. -/
theorem Layout.deliver {dstart : ℤ} {cur : Extent} {rest : List Extent}
    (hlayout : Layout dstart (cur :: rest)) (hfilled : cur.filled = true)
    (hfirst : cur.firstSeq = dstart) :
    Layout (cur.lastSeq + 1) (rest ++ [{ cur with filled := false }]) := by
  have hcur := hlayout.run_ok cur (by simp)
  have hordered := hcur.ordered
  have hstored := hcur.stored hfilled
  have hchain : (cur :: (rest ++ [edge dstart])).IsChain (Adjoins dstart) :=
    hlayout.chain.tail
  rw [← List.cons_append, List.isChain_append] at hchain
  obtain ⟨hinner, -, hend⟩ := hchain
  have hbehind := chain_behind hinner hlayout.run_ok
  have hside : ∀ run ∈ rest,
      run.lastSeq < dstart ∨ cur.lastSeq + 1 ≤ run.firstSeq := by
    intro run hrun
    have := hbehind run hrun
    omega
  have hone := hlayout.one_le
  refine ⟨by omega, by omega, by simp, ?_, ?_⟩
  · intro run hrun
    rw [List.mem_append, List.mem_singleton] at hrun
    rcases hrun with hrun | rfl
    · exact (hlayout.run_ok run (by simp [hrun])).forward (by omega)
        (hside run hrun)
    · refine ⟨hordered, hcur.bounded, .inl (by simp only; omega), by simp,
        by simp, hcur.room, fun _ hlive => ?_⟩
      simp only at hlive
      omega
  · have hfront : (edge (cur.lastSeq + 1) :: rest).IsChain
        (Adjoins (cur.lastSeq + 1)) := by
      have hforward : (cur :: rest).IsChain fun run back =>
          run ∈ rest → Adjoins (cur.lastSeq + 1) run back := by
        refine hinner.imp fun run back hadj hrun => ?_
        exact hadj.forward (by omega)
          (hlayout.run_ok run (by simp [hrun])).ordered (hside run hrun)
      cases rest with
      | nil => simp
      | cons next rest =>
          rw [List.isChain_cons_cons] at hinner ⊢
          refine ⟨⟨fun _ => ?_, fun h => by simp [edge] at h⟩, ?_⟩
          · have := hinner.1.1 (by omega)
            simp only [edge]
            omega
          · exact hforward.tail.imp_of_mem_imp
              fun run back hrun _ hadj => hadj hrun
    rw [List.append_assoc, ← List.cons_append, List.isChain_append]
    refine ⟨hfront, ?_, ?_⟩
    · simp only [List.cons_append, List.nil_append, List.isChain_cons_cons,
        List.isChain_singleton, and_true]
      exact .consecutive rfl fun _ => by simp [edge]
    · intro x hx y hy
      simp only [List.cons_append, List.head?_cons, Option.mem_some_iff] at hy
      subst hy
      refine ⟨fun _ => .inr (by simp), fun hstale => ⟨by simp, fun hhole => ?_⟩⟩
      -- the stale run that ended at `dstart` is followed by the delivered one
      cases rest with
      | nil =>
          simp only [List.getLast?_singleton, Option.mem_some_iff] at hx
          subst hx
          simp [edge] at hstale
      | cons next rest =>
          rw [List.getLast?_cons_cons] at hx
          have hmem := List.mem_of_mem_getLast? hx
          have hadj := hend x (by simpa using hx) (edge dstart) (by simp)
          have hxrun := hlayout.run_ok x (List.mem_cons_of_mem _ hmem)
          have h1 := hxrun.ordered
          have h2 := hside x hmem
          have h3 := (hadj.2 (by omega)).2 hhole
          simpa [edge, hfirst] using h3

theorem Layout.consume {dstart count : ℤ} {cur : Extent} {rest : List Extent}
    (hlayout : Layout dstart (cur :: rest)) (hfilled : cur.filled = true)
    (hcount : 0 ≤ count) :
    Layout dstart ({ cur with data := cur.data + count,
                              size := cur.size - count } :: rest) := by
  have hcur := hlayout.run_ok cur (by simp)
  have hsplit : Layout dstart ([] ++ [cur] ++ rest) := hlayout
  suffices hconsumed : Layout dstart
      ([] ++ [{ cur with data := cur.data + count,
                         size := cur.size - count }] ++ rest) from hconsumed
  refine hsplit.replace (by simp) (by simp) ?_ (by simp) ?_ ?_
  · intro run hrun
    rw [List.mem_singleton] at hrun
    subst hrun
    have hroom := hcur.room
    exact ⟨hcur.ordered, hcur.bounded, hcur.side, hcur.stored, hcur.window,
      by simp only; omega, by simp [hfilled]⟩
  · intro x hx y hy
    simp only [List.head?_cons, Option.mem_some_iff] at hx hy
    subst hy
    exact (hx cur rfl).front rfl id
  · intro y _ hy x hx
    simp only [List.getLast?_singleton, Option.mem_some_iff] at hx
    subst hx
    exact (hy cur (by simp)).back rfl Iff.rfl id

theorem layout_initHead :
    Layout RingBuffer.initHead.dstart RingBuffer.initHead.runs := by
  refine ⟨by decide, by decide, by simp [RingBuffer.initHead], ?_, ?_⟩
  · intro run hrun
    simp only [RingBuffer.initHead, List.mem_singleton] at hrun
    subst hrun
    exact ⟨by decide, by decide, by decide, by decide, by decide, by decide,
      by decide⟩
  · simp [RingBuffer.initHead, edge, Adjoins]

end UdpTransfer.Receiver
