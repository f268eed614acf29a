import UdpTransfer.Receiver.Termination

/-!
# The space of the buffer

The sizes of the runs on the ring add up to the buffer, less what has been
handed out of a run that is being read.  The program loses these bytes when the
rest of such a run is delivered, because the hole that comes back has only the
size of the rest.  And a packet that is put far into an open hole makes the
hole behind it smaller than nothing where a stale run still holds space.
-/

namespace UdpTransfer.Receiver

open UdpTransfer.Memory
open UdpTransfer.Runs
open SBuffer

def totalSize (runs : List Extent) : ℤ := (runs.map Extent.size).sum

/-- The space of the holes. -/
def freeSpace (runs : List Extent) : ℤ :=
  (runs.map fun run => if run.filled = true then 0 else run.size).sum

@[simp]
theorem totalSize_append (left right : List Extent) :
    totalSize (left ++ right) = totalSize left + totalSize right := by
  simp [totalSize]

@[simp]
theorem totalSize_cons (run : Extent) (runs : List Extent) :
    totalSize (run :: runs) = run.size + totalSize runs := by
  simp [totalSize]

@[simp]
theorem totalSize_nil : totalSize [] = 0 := rfl

@[simp]
theorem freeSpace_append (left right : List Extent) :
    freeSpace (left ++ right) = freeSpace left + freeSpace right := by
  simp [freeSpace]

@[simp]
theorem freeSpace_cons (run : Extent) (runs : List Extent) :
    freeSpace (run :: runs) =
      (if run.filled = true then 0 else run.size) + freeSpace runs := by
  simp [freeSpace]

@[simp]
theorem freeSpace_nil : freeSpace [] = 0 := rfl

/-- A merge moves no space. -/
theorem totalSize_mergeStep {dstart : ℤ} {left right : List Extent}
    (hstep : MergeStep dstart left right) : totalSize right = totalSize left := by
  cases hstep with
  | following before after current next hfollow =>
      simp only [totalSize_append, totalSize_cons, mergeFollowing]
      omega
  | spare before after current next hspare _ =>
      simp only [totalSize_append, totalSize_cons, mergeSpare]
      omega

theorem freeSpace_mergeStep {dstart : ℤ} {left right : List Extent}
    (hstep : MergeStep dstart left right) : freeSpace right = freeSpace left := by
  cases hstep with
  | following before after current next hfollow =>
      have hkinds := (followsOn_iff.1 hfollow).2
      simp only [freeSpace_append, freeSpace_cons, mergeFollowing, hkinds]
      split <;> omega
  | spare before after current next hspare _ =>
      obtain ⟨hhole, hhole', -⟩ := sparesHoles_iff.1 hspare
      simp only [freeSpace_append, freeSpace_cons, mergeSpare, hhole, hhole']
      simp only [Bool.false_eq_true, if_false]
      omega

theorem totalSize_mergeRuns {dstart : ℤ} {runs merged : List Extent}
    (hmerge : mergeRuns dstart runs = some merged) :
    totalSize merged = totalSize runs :=
  mergeRuns_invariant (I := fun other => totalSize other = totalSize runs)
    (fun _ _ hstep heq => (totalSize_mergeStep hstep).trans heq) hmerge rfl

theorem freeSpace_mergeRuns {dstart : ℤ} {runs merged : List Extent}
    (hmerge : mergeRuns dstart runs = some merged) :
    freeSpace merged = freeSpace runs :=
  mergeRuns_invariant (I := fun other => freeSpace other = freeSpace runs)
    (fun _ _ hstep heq => (freeSpace_mergeStep hstep).trans heq) hmerge rfl

/-- Cutting a packet out of a hole moves no space. -/
theorem totalSize_refill {before after : List Extent} {cur : Extent}
    {seqnum : ℤ} {placed : Placement} (htakes : Takes cur seqnum 1000 placed) :
    totalSize (refill before placed after) =
      totalSize (before ++ cur :: after) := by
  have hpieces : totalSize placed.front + placed.node.size +
      totalSize placed.back = cur.size := by
    cases htakes with
    | beginning hfirst hsize _ => simp
    | whole hfirst hsize => simp
    | middle hfirst hend =>
        simp only [totalSize_cons, totalSize_nil, packetInside, holeBehind]
        omega
    | ending hfirst hend => simp
  simp only [refill, totalSize_append, totalSize_cons]
  omega

/-! ## Sizes that go with the numbers -/

/-- A run that ends has a thousand bytes for each of its packets, of which
`partly` are gone. -/
def ExactSize (partly : ℤ) (run : Extent) : Prop :=
  run.lastSeq = intMax ∨
    run.size + partly = 1000 * (run.lastSeq - run.firstSeq + 1)

/-- Only the run at `head` is read in part. -/
def ExactSizes (partly : ℤ) (runs : List Extent) : Prop :=
  ∃ head rest, runs = head :: rest ∧ ExactSize partly head ∧
    ∀ run ∈ rest, ExactSize 0 run

theorem exactSize_mergeFollowing {partly : ℤ} {current next : Extent}
    (hfollow : followsOn current next = true) (hbound : next.firstSeq ≤ intMax)
    (hcur : ExactSize partly current) (hnext : ExactSize 0 next) :
    ExactSize partly (mergeFollowing current next) := by
  have hlast := (followsOn_iff.1 hfollow).1
  rcases hnext with hopen | hnext
  · exact .inl hopen
  · rcases hcur with hopen | hcur
    · omega
    · right
      simp only [mergeFollowing]
      omega

theorem exactSizes_mergeStep {dstart partly : ℤ} {left right : List Extent}
    (hstep : MergeStep dstart left right) (hbounded : Bounded left)
    (hexact : ExactSizes partly left) : ExactSizes partly right := by
  obtain ⟨head, rest, heq, hhead, hrest⟩ := hexact
  cases hstep with
  | following before after current next hfollow =>
      have hbound := (hbounded next (by simp)).1
      cases before with
      | nil =>
          cases heq
          refine ⟨_, _, rfl, ?_, fun run hrun =>
            hrest run (List.mem_cons_of_mem _ hrun)⟩
          exact exactSize_mergeFollowing hfollow hbound hhead
            (hrest next List.mem_cons_self)
      | cons front before =>
          rw [List.cons_append, List.cons.injEq] at heq
          obtain ⟨rfl, rfl⟩ := heq
          refine ⟨front, before ++ mergeFollowing current next :: after, rfl,
            hhead, ?_⟩
          intro run hrun
          simp only [List.mem_append, List.mem_cons] at hrun
          rcases hrun with hrun | rfl | hrun
          · exact hrest run (by simp [hrun])
          · exact exactSize_mergeFollowing hfollow hbound
              (hrest current (by simp)) (hrest next (by simp))
          · exact hrest run (by simp [hrun])
  | spare before after current next hspare _ =>
      cases before with
      | nil =>
          cases heq
          exact ⟨_, _, rfl, .inl rfl, fun run hrun =>
            hrest run (List.mem_cons_of_mem _ hrun)⟩
      | cons front before =>
          rw [List.cons_append, List.cons.injEq] at heq
          obtain ⟨rfl, rfl⟩ := heq
          refine ⟨front, before ++ mergeSpare current next :: after, rfl, hhead,
            ?_⟩
          intro run hrun
          simp only [List.mem_append, List.mem_cons] at hrun
          rcases hrun with hrun | rfl | hrun
          · exact hrest run (by simp [hrun])
          · exact .inl rfl
          · exact hrest run (by simp [hrun])

theorem exactSizes_mergeRuns {dstart partly : ℤ} {runs merged : List Extent}
    (hmerge : mergeRuns dstart runs = some merged) (hbounded : Bounded runs)
    (hexact : ExactSizes partly runs) : ExactSizes partly merged := by
  have hboth := mergeRuns_invariant
    (I := fun runs => Bounded runs ∧ ExactSizes partly runs)
    (fun _ _ hstep h =>
      ⟨bounded_mergeStep hstep h.1, exactSizes_mergeStep hstep h.1 h.2⟩)
    hmerge ⟨hbounded, hexact⟩
  exact hboth.2

theorem exactSize_pieces {cur : Extent} {seqnum : ℤ} {placed : Placement}
    (htakes : Takes cur seqnum 1000 placed) (hmax : seqnum < intMax)
    (hcur : ExactSize 0 cur) :
    ∀ piece ∈ placed.front ++ placed.node :: placed.back,
      ExactSize 0 piece := by
  intro piece hpiece
  cases htakes with
  | beginning hfirst hsize _ =>
      simp only [List.nil_append, List.mem_cons, List.not_mem_nil, or_false]
        at hpiece
      rcases hpiece with rfl | rfl
      · right
        simp only
        omega
      · refine hcur.imp_right fun hcur => ?_
        simp only
        omega
  | whole hfirst hsize =>
      simp only [List.nil_append, List.mem_singleton] at hpiece
      subst hpiece
      right
      simp only
      omega
  | middle hfirst hend =>
      simp only [List.cons_append, List.nil_append, List.mem_cons,
        List.not_mem_nil, or_false] at hpiece
      rcases hpiece with rfl | rfl | rfl
      · right
        simp only [holeBefore]
        omega
      · right
        simp only [packetInside]
        omega
      · refine hcur.imp_right fun hcur => ?_
        simp only [holeBehind, holeBefore]
        omega
  | ending hfirst hend =>
      simp only [List.cons_append, List.nil_append, List.mem_cons,
        List.not_mem_nil, or_false] at hpiece
      rcases hpiece with rfl | rfl
      · right
        rcases hcur with hopen | hcur
        · omega
        · simp only
          omega
      · right
        simp only
        omega

theorem exactSizes_refill {partly seqnum : ℤ} {before after : List Extent}
    {cur : Extent} {placed : Placement}
    (hexact : ExactSizes partly (before ++ cur :: after))
    (hhead : before = [] → partly = 0)
    (htakes : Takes cur seqnum 1000 placed) (hmax : seqnum < intMax) :
    ExactSizes partly (refill before placed after) := by
  obtain ⟨head, rest, heq, hfirst, hrest⟩ := hexact
  cases before with
  | nil =>
      obtain rfl := hhead rfl
      rw [List.nil_append, List.cons.injEq] at heq
      obtain ⟨rfl, rfl⟩ := heq
      have hpieces := exactSize_pieces htakes hmax hfirst
      have hall : ∀ run ∈ refill [] placed after, ExactSize 0 run :=
        forall_mem_refill.2 ⟨by simp, hpieces, hrest⟩
      have hne : refill [] placed after ≠ [] := by simp [refill]
      generalize refill [] placed after = runs at hall hne ⊢
      cases runs with
      | nil => exact absurd rfl hne
      | cons run runs =>
          exact ⟨run, runs, rfl, hall run List.mem_cons_self,
            fun other hother => hall other (List.mem_cons_of_mem _ hother)⟩
  | cons front before =>
      rw [List.cons_append, List.cons.injEq] at heq
      obtain ⟨rfl, rfl⟩ := heq
      have hpieces := exactSize_pieces htakes hmax (hrest cur (by simp))
      refine ⟨front, before ++ (placed.front ++ placed.node ::
        (placed.back ++ after)), by simp [refill], hfirst, ?_⟩
      intro run hrun
      simp only [List.mem_append, List.mem_cons] at hrun
      rcases hrun with hrun | hrun | rfl | hrun | hrun
      · exact hrest run (by simp [hrun])
      · exact hpieces run (by simp [hrun])
      · exact hpieces _ (by simp)
      · exact hpieces run (by simp [hrun])
      · exact hrest run (by simp [hrun])

/-! ## Sizes below zero -/

/-- A run may be smaller than nothing only where the next merge joins it with
one that makes up for it. -/
def Backed (dstart : ℤ) : List Extent → Prop
  | [] => True
  | [run] => 0 ≤ run.size
  | run :: next :: rest =>
      (0 ≤ run.size ∨ sparesHoles dstart run next = true ∧
        followsOn run next = false ∧ 0 ≤ run.size + next.size) ∧
      (0 ≤ next.size ∨ run.filled = true) ∧ Backed dstart (next :: rest)

def NoneBelowZero (runs : List Extent) : Prop := ∀ run ∈ runs, 0 ≤ run.size

theorem backed_of_noneBelowZero {dstart : ℤ} {runs : List Extent}
    (hsizes : NoneBelowZero runs) : Backed dstart runs := by
  induction runs using Backed.induct with
  | case1 => trivial
  | case2 run => exact hsizes run List.mem_cons_self
  | case3 run next rest ih =>
      refine ⟨.inl (hsizes run List.mem_cons_self),
        .inl (hsizes next (by simp)), ih fun other hother => ?_⟩
      exact hsizes other (List.mem_cons_of_mem _ hother)

/-- A run that makes up for no other may be replaced by a larger one of the
same kind. -/
theorem Backed.replace {dstart : ℤ} {run run' : Extent} {rest : List Extent}
    (hbacked : Backed dstart (run :: rest)) (hsize : 0 ≤ run'.size)
    (hkind : run'.filled = run.filled) : Backed dstart (run' :: rest) := by
  cases rest with
  | nil => exact hsize
  | cons next rest =>
      obtain ⟨-, hnext, hrest⟩ := hbacked
      exact ⟨.inl hsize, hkind ▸ hnext, hrest⟩

theorem walk_noneBelowZero {dstart : ℤ} {runs : List Extent}
    (after : List Extent) :
    ∀ (before : List Extent) (current : Extent) (phase : Phase),
      walk dstart before current phase after = some runs →
      NoneBelowZero before → Backed dstart (current :: after) →
      NoneBelowZero runs := by
  induction after with
  | nil =>
      intro before current phase hwalk hbefore hbacked
      rw [walk] at hwalk
      split at hwalk
      · cases hwalk
      · cases hwalk
        intro run hrun
        rw [List.mem_append, List.mem_singleton] at hrun
        rcases hrun with hrun | rfl
        · exact hbefore run hrun
        · exact hbacked
  | cons next after ih =>
      intro before current phase hwalk hbefore hbacked
      obtain ⟨hcurrent, hnext, hrest⟩ := hbacked
      rw [walk] at hwalk
      split at hwalk
      · rename_i hfollow
        have hkinds := (followsOn_iff.1 hfollow.2).2
        have hsize : 0 ≤ current.size := by
          rcases hcurrent with h | ⟨-, hnot, -⟩
          · exact h
          · rw [hfollow.2] at hnot
            cases hnot
        have hnextSize : 0 ≤ next.size := by
          rcases hnext with h | hfilled
          · exact h
          · cases after with
            | nil => exact hrest
            | cons other after =>
                rcases hrest.1 with h | ⟨hspare, -⟩
                · exact h
                · have hhole := (sparesHoles_iff.1 hspare).1
                  rw [hkinds, hhole] at hfilled
                  cases hfilled
        exact ih _ _ _ hwalk hbefore (hrest.replace
          (add_nonneg hsize hnextSize) hkinds)
      · split at hwalk
        · rename_i hspare
          obtain ⟨hhole, hhole', -⟩ := sparesHoles_iff.1 hspare
          have hnextSize : 0 ≤ next.size := by
            rcases hnext with h | hfilled
            · exact h
            · rw [hhole] at hfilled
              cases hfilled
          have hsize : 0 ≤ current.size + next.size := by
            rcases hcurrent with h | ⟨-, -, h⟩
            · exact add_nonneg h hnextSize
            · exact h
          exact ih _ _ _ hwalk hbefore
            (hrest.replace hsize (hhole.trans hhole'.symm))
        · rename_i hspare
          refine ih _ _ _ hwalk ?_ hrest
          intro run hrun
          rw [List.mem_append, List.mem_singleton] at hrun
          rcases hrun with hrun | rfl
          · exact hbefore run hrun
          · rcases hcurrent with h | ⟨h, -⟩
            · exact h
            · exact absurd h hspare

theorem mergeRuns_noneBelowZero {dstart : ℤ} {runs merged : List Extent}
    (hmerge : mergeRuns dstart runs = some merged)
    (hbacked : Backed dstart runs) : NoneBelowZero merged := by
  cases runs with
  | nil => cases hmerge
  | cons current after =>
      exact walk_noneBelowZero after [] current .arrived hmerge (by
        simp [NoneBelowZero]) hbacked

theorem backed_append {dstart : ℤ} {before runs : List Extent}
    (hbefore : NoneBelowZero before) (hhead : ∀ run ∈ runs.head?, 0 ≤ run.size)
    (hbacked : Backed dstart runs) : Backed dstart (before ++ runs) := by
  induction before with
  | nil => exact hbacked
  | cons run before ih =>
      have hrun := hbefore run List.mem_cons_self
      have hrest := ih fun other hother =>
        hbefore other (List.mem_cons_of_mem _ hother)
      rw [List.cons_append]
      cases hcons : before ++ runs with
      | nil => exact hrun
      | cons next rest =>
          rw [hcons] at hrest
          refine ⟨.inl hrun, .inl ?_, hrest⟩
          cases before with
          | nil => exact hhead next (by rw [← List.nil_append runs, hcons]; rfl)
          | cons other before =>
              cases hcons
              exact hbefore next (by simp)

/-- The space of the hole behind, which a merge would add. -/
def spareSize : List Extent → ℤ
  | [] => 0
  | next :: _ => if next.filled = true then 0 else next.size

/-- A packet from the middle of an open hole leaves too little behind it; the
next hole, which starts anew at `dstart`, has the rest. -/
theorem backed_middle {dstart seqnum : ℤ} {before after : List Extent}
    {cur next : Extent} (hlayout : Layout dstart (before ++ cur :: next :: after))
    (hafter : NoneBelowZero (next :: after)) (hfirst : cur.firstSeq < seqnum)
    (hopen : cur.lastSeq = intMax) (hmax : seqnum < intMax)
    (hnext : next.filled = false)
    (hfront : 0 ≤ (holeBefore cur seqnum).size)
    (hback : 0 ≤ (holeBehind cur seqnum 1000).size + next.size) :
    Backed dstart (holeBefore cur seqnum :: packetInside cur seqnum 1000 ::
      holeBehind cur seqnum 1000 :: next :: after) := by
  obtain ⟨hrun, hrunNext, -⟩ := hlayout.pair
  have hside := hrun.side
  have hbound := hrunNext.bounded
  have hordered := hrunNext.ordered
  have hdstart := hlayout.dstart_le
  have hpairs := hlayout.pairwise
  rw [List.pairwise_append, List.pairwise_cons] at hpairs
  have hbeyond := hpairs.2.1.1 next List.mem_cons_self
  have hspare : sparesHoles dstart (holeBehind cur seqnum 1000) next = true := by
    rw [sparesHoles_iff]
    simp only [holeBehind]
    exact ⟨trivial, hnext, by omega, by omega⟩
  have hnot : followsOn (holeBehind cur seqnum 1000) next = false := by
    rw [Bool.eq_false_iff, ne_eq, followsOn_iff]
    simp only [holeBehind]
    omega
  have hbacked : Backed dstart (holeBehind cur seqnum 1000 :: next :: after) :=
    ⟨.inr ⟨hspare, hnot, hback⟩, .inl (hafter next List.mem_cons_self),
      backed_of_noneBelowZero hafter⟩
  have hpacket : 0 ≤ (packetInside cur seqnum 1000).size := by
    simp [packetInside]
  exact ⟨.inl hfront, .inl hpacket, .inl hpacket, .inr rfl, hbacked⟩

/-- Cutting a packet out of a hole that has room for it, or gets it from the
hole behind, leaves sizes that the next merge makes up for. -/
theorem backed_refill {dstart seqnum : ℤ} {before after : List Extent}
    {cur : Extent} {placed : Placement}
    (hlayout : Layout dstart (before ++ cur :: after))
    (hsizes : NoneBelowZero (before ++ cur :: after)) (hcur : ExactSize 0 cur)
    (htakes : Takes cur seqnum 1000 placed) (hmax : seqnum < intMax)
    (hroom : cur.firstSeq < seqnum → cur.lastSeq = intMax →
      1000 * (seqnum - cur.firstSeq + 1) ≤ cur.size + spareSize after) :
    Backed dstart (refill before placed after) := by
  have hbefore : NoneBelowZero before := fun run hrun =>
    hsizes run (by simp [hrun])
  have hafter : NoneBelowZero after := fun run hrun =>
    hsizes run (by simp [hrun])
  have hcurSize := hsizes cur (by simp)
  have hall : NoneBelowZero (placed.front ++ placed.node :: placed.back) →
      Backed dstart (refill before placed after) := by
    intro hpieces
    apply backed_of_noneBelowZero
    exact forall_mem_refill.2 ⟨hbefore, hpieces, hafter⟩
  cases htakes with
  | beginning hfirst hsize _ =>
      apply hall
      simp only [NoneBelowZero, List.nil_append, List.forall_mem_cons,
        List.not_mem_nil, false_imp_iff, implies_true, and_true]
      omega
  | whole hfirst hsize =>
      apply hall
      simp only [NoneBelowZero, List.nil_append, List.mem_singleton, forall_eq]
      exact hcurSize
  | middle hfirst hend =>
      have hfront : 0 ≤ (holeBefore cur seqnum).size := by
        simp only [holeBefore]
        omega
      have hbehind : (holeBehind cur seqnum 1000).size =
          cur.size - 1000 * (seqnum - cur.firstSeq + 1) := by
        simp only [holeBehind, holeBefore]
        omega
      by_cases hback : 0 ≤ (holeBehind cur seqnum 1000).size
      · apply hall
        simp only [NoneBelowZero, List.cons_append, List.nil_append,
          List.forall_mem_cons, List.not_mem_nil, false_imp_iff, implies_true,
          and_true]
        exact ⟨hfront, by simp [packetInside], hback⟩
      · -- only an open hole is too small, and then the hole behind makes up
        have hopen : cur.lastSeq = intMax := by
          rcases hcur with h | h
          · exact h
          · omega
        have hspace := hroom hfirst hopen
        cases after with
        | nil =>
            simp only [spareSize] at hspace
            omega
        | cons next after =>
            simp only [spareSize] at hspace
            split at hspace
            · omega
            · rename_i hnext
              have hpieces := backed_middle hlayout hafter hfirst hopen hmax
                (by simpa using hnext) hfront (by omega)
              have hregroup : refill before
                  { front := [holeBefore cur seqnum]
                    node := packetInside cur seqnum 1000
                    back := [holeBehind cur seqnum 1000] } (next :: after) =
                  before ++ holeBefore cur seqnum ::
                    packetInside cur seqnum 1000 ::
                    holeBehind cur seqnum 1000 :: next :: after := by
                simp [refill]
              rw [hregroup]
              refine backed_append hbefore ?_ hpieces
              intro run hrun
              cases hrun
              exact hfront
  | ending hfirst hend =>
      apply hall
      have hsize : 1000 ≤ cur.size := by
        rcases hcur with hopen | hcur
        · omega
        · omega
      simp only [NoneBelowZero, List.cons_append, List.nil_append,
        List.forall_mem_cons, List.not_mem_nil, false_imp_iff, implies_true,
        and_true]
      omega

/-! ## Sessions -/

/-- The receiver together with the number of bytes that have been handed out of
the run at `head` since `dstart` last moved. -/
def metered (payload : ℤ → Payload) : System (Session × ℤ) Call where
  initial m := m = (Session.start, 0)
  step m c m' := m.1.call payload c = some m'.1 ∧
    m'.2 = if m'.1.sbuffer.dstart = m.1.sbuffer.dstart then
      m.2 + ((m'.1.out.length : ℤ) - m.1.out.length)
    else
      0

/-- The sizes on the ring and what has been handed out of a run that is still
being read make up the buffer, and no size is negative. -/
def SpaceConserved (m : Session × ℤ) : Prop :=
  totalSize m.1.sbuffer.toRing.runs + m.2 = 64000 ∧
    NoneBelowZero m.1.sbuffer.toRing.runs

/-- The space of what has been delivered completely is free again. -/
def SpaceReturned (m m' : Session × ℤ) : Prop :=
  m'.1.sbuffer.dstart ≠ m.1.sbuffer.dstart →
    freeSpace m'.1.sbuffer.toRing.runs = freeSpace m.1.sbuffer.toRing.runs +
      1000 * (m'.1.sbuffer.dstart - m.1.sbuffer.dstart)

/-- The condition on a call.  A packet that is put into an open hole behind its
first number finds room in front of it, together with the hole behind, and a
run is delivered to its end only if no part of it was read before. -/
def keepsSpace : Session × ℤ → Call → Prop
  | m, .addData seqnum =>
      OffSentinel m.1.sbuffer.dstart seqnum ∧ ∀ before hole after,
        m.1.sbuffer.toRing.runs = before ++ hole :: after →
        (∀ other ∈ before, ¬ Stops other seqnum) → Fits hole seqnum →
        seqnum ≤ m.1.sbuffer.dstart + 63 →
        hole.firstSeq < seqnum → hole.lastSeq = intMax →
        1000 * (seqnum - hole.firstSeq + 1) ≤ hole.size + spareSize after
  | m, .requestData size =>
      ∀ cur rest, m.1.sbuffer.toRing.runs = cur :: rest →
        cur.filled = true → cur.firstSeq = m.1.sbuffer.dstart →
        cur.size ≤ size → m.2 = 0

/-- What every guarded call keeps. -/
structure Spacious (r : RingBuffer) (partly : ℤ) : Prop where
  total : totalSize r.runs + partly = 64000
  sizes : NoneBelowZero r.runs
  exact : ExactSizes partly r.runs
  reading : partly ≠ 0 → ∃ head rest, r.runs = head :: rest ∧
    head.filled = true ∧ head.firstSeq = r.dstart

theorem spacious_initHead : Spacious RingBuffer.initHead 0 := by
  refine ⟨by decide, ?_, ?_, fun h => absurd rfl h⟩
  · intro run hrun
    simp only [RingBuffer.initHead, List.mem_singleton] at hrun
    subst hrun
    decide
  · exact ⟨_, [], rfl, .inr (by decide), by simp⟩

theorem Spacious.addData {r r' : RingBuffer} {partly seqnum result : ℤ}
    {data : List UInt8} (hsound : Sound r) (hlayout : Layout r.dstart r.runs)
    (hoff : OffSentinel r.dstart seqnum)
    (hroom : ∀ before hole after, r.runs = before ++ hole :: after →
      (∀ other ∈ before, ¬ Stops other seqnum) → Fits hole seqnum →
      seqnum ≤ r.dstart + 63 → hole.firstSeq < seqnum →
      hole.lastSeq = intMax →
      1000 * (seqnum - hole.firstSeq + 1) ≤ hole.size + spareSize after)
    (hadd : r.addData seqnum 1000 data = some (result, r'))
    (hspacious : Spacious r partly) :
    r'.dstart = r.dstart ∧ Spacious r' partly := by
  rw [hsound.addData_eq, Option.bind_eq_some_iff] at hadd
  obtain ⟨answer, hseek, hadd⟩ := hadd
  cases answer with
  | duplicate =>
      cases hadd
      exact ⟨rfl, hspacious⟩
  | rejected =>
      cases hadd
      exact ⟨rfl, hspacious⟩
  | placed before placed after =>
      obtain ⟨buffer, runs, -, hmerge, -, rfl⟩ := settle_eq_some_iff.1 hadd
      obtain ⟨hole, hruns, hbefore, hfits, hfill, -, hwindow⟩ :=
        (seek_eq_placed_iff hlayout.one_le).1 hseek
      have htakes := takes_of_fillRun hfits.1 hfill (filled_of_fits hfits hfill)
      have hrun := hlayout.run_ok hole (by simp [hruns])
      have hmax := hoff.lt_intMax hrun htakes hwindow
      have hspace := hroom before hole after hruns hbefore hfits hwindow
      obtain ⟨htotal, hsizes, hexact, hreading⟩ := hspacious
      have hbounded := hsound.bounded
      rw [hruns] at htotal hsizes hexact hlayout hreading hbounded
      -- while a run is being read, `head` points to it and not to a hole
      have hhead : before = [] → partly = 0 := by
        rintro rfl
        by_contra hne
        obtain ⟨head, rest, heq, hfilled, -⟩ := hreading hne
        cases heq
        rw [hfits.1] at hfilled
        cases hfilled
      have hholeExact : ExactSize 0 hole := by
        obtain ⟨head, rest, heq, hfirst, hrest⟩ := hexact
        cases before with
        | nil =>
            cases heq
            rw [← hhead rfl]
            exact hfirst
        | cons front before =>
            rw [List.cons_append, List.cons.injEq] at heq
            exact hrest hole (by simp [← heq.2])
      refine ⟨rfl, ?_, ?_, ?_, ?_⟩
      · rw [totalSize_mergeRuns hmerge, totalSize_refill htakes]
        exact htotal
      · exact mergeRuns_noneBelowZero hmerge (backed_refill hlayout hsizes
          hholeExact htakes hmax hspace)
      · exact exactSizes_mergeRuns hmerge (bounded_refill hbounded htakes)
          (exactSizes_refill hexact hhead htakes hmax)
      · intro hne
        obtain ⟨head, rest, heq, hfilled, hfirst⟩ := hreading hne
        cases before with
        | nil => exact absurd (hhead rfl) hne
        | cons front before =>
            rw [List.cons_append, List.cons.injEq] at heq
            obtain ⟨rfl, -⟩ := heq
            obtain ⟨first, rest', rfl, hfirst', hfilled'⟩ :=
              head_mergeRuns (show mergeRuns r.dstart (front :: (before ++
                (placed.front ++ placed.node :: (placed.back ++ after)))) =
                some runs by simpa [refill] using hmerge)
            exact ⟨first, rest', rfl, hfilled'.trans hfilled,
              hfirst'.trans hfirst⟩

theorem Spacious.part {r : RingBuffer} {partly size : ℤ} {cur : Extent}
    {rest : List Extent} (hruns : r.runs = cur :: rest)
    (hfilled : cur.filled = true) (hfirst : cur.firstSeq = r.dstart)
    (hpart : size < cur.size) (hspacious : Spacious r partly) :
    Spacious { r with
      runs := { cur with data := cur.data + size,
                         size := cur.size - size } :: rest }
      (partly + size) := by
  obtain ⟨htotal, hsizes, hexact, -⟩ := hspacious
  rw [hruns] at htotal hsizes hexact
  refine ⟨?_, ?_, ?_, fun _ => ⟨_, rest, rfl, hfilled, hfirst⟩⟩
  · simp only [totalSize_cons] at htotal ⊢
    omega
  · intro run hrun
    rcases List.mem_cons.1 hrun with rfl | hrun
    · simp only
      omega
    · exact hsizes run (List.mem_cons_of_mem _ hrun)
  · obtain ⟨head, rest', heq, hhead, hrest⟩ := hexact
    cases heq
    refine ⟨_, rest, rfl, hhead.imp_right fun h => ?_, hrest⟩
    simp only
    omega

/-- A run that is delivered in one piece gives back all its space. -/
theorem Spacious.whole {r : RingBuffer} {cur : Extent} {rest runs : List Extent}
    (hsound : Sound r) (hlayout : Layout r.dstart r.runs)
    (hruns : r.runs = cur :: rest) (hfilled : cur.filled = true)
    (hfirst : cur.firstSeq = r.dstart)
    (hmerge : mergeRuns (cur.lastSeq + 1)
      (rest ++ [{ cur with filled := false }]) = some runs)
    (hspacious : Spacious r 0) :
    Spacious { r with dstart := cur.lastSeq + 1, runs := runs } 0 ∧
      freeSpace runs =
        freeSpace r.runs + 1000 * (cur.lastSeq + 1 - r.dstart) := by
  obtain ⟨htotal, hsizes, hexact, -⟩ := hspacious
  have hbounded := hsound.bounded
  rw [hruns] at htotal hsizes hexact hbounded hlayout
  have hstored := (hlayout.run_ok cur (by simp)).stored hfilled
  obtain ⟨head, rest', heq, hcur, hrest⟩ := hexact
  rw [List.cons.injEq] at heq
  obtain ⟨rfl, rfl⟩ := heq
  have hsize : cur.size = 1000 * (cur.lastSeq + 1 - r.dstart) := by
    rcases hcur with h | h
    · omega
    · omega
  have hall : ∀ run ∈ rest ++ [{ cur with filled := false }],
      ExactSize 0 run ∧ 0 ≤ run.size ∧
        (run.firstSeq ≤ intMax ∧ run.lastSeq ≤ intMax) := by
    intro run hrun
    rw [List.mem_append, List.mem_singleton] at hrun
    rcases hrun with hrun | rfl
    · exact ⟨hrest run hrun, hsizes run (List.mem_cons_of_mem _ hrun),
        hbounded run (List.mem_cons_of_mem _ hrun)⟩
    · exact ⟨hcur, hsizes cur List.mem_cons_self,
        hbounded cur List.mem_cons_self⟩
  refine ⟨⟨?_, ?_, ?_, fun h => absurd rfl h⟩, ?_⟩
  · rw [totalSize_mergeRuns hmerge]
    simp only [totalSize_append, totalSize_cons, totalSize_nil] at htotal ⊢
    omega
  · exact mergeRuns_noneBelowZero hmerge
      (backed_of_noneBelowZero fun run hrun => (hall run hrun).2.1)
  · refine exactSizes_mergeRuns hmerge (fun run hrun => (hall run hrun).2.2) ?_
    have hne : rest ++ [{ cur with filled := false }] ≠ [] := by simp
    generalize rest ++ [{ cur with filled := false }] = others at hall hne ⊢
    cases others with
    | nil => exact absurd rfl hne
    | cons first others =>
        exact ⟨first, others, rfl, (hall first List.mem_cons_self).1,
          fun run hrun => (hall run (List.mem_cons_of_mem _ hrun)).1⟩
  · rw [freeSpace_mergeRuns hmerge, hruns]
    simp only [freeSpace_append, freeSpace_cons, freeSpace_nil, hfilled]
    simp only [Bool.false_eq_true, if_false, if_true]
    omega

theorem Spacious.requestData {r r' : RingBuffer} {partly size count : ℤ}
    {bytes : List UInt8} (hsound : Sound r) (hlayout : Layout r.dstart r.runs)
    (hwhole : ∀ cur rest, r.runs = cur :: rest → cur.filled = true →
      cur.firstSeq = r.dstart → cur.size ≤ size → partly = 0)
    (hrequest : r.requestData size = some (count, bytes, r'))
    (hspacious : Spacious r partly) :
    r'.dstart = r.dstart ∧ Spacious r' (partly + bytes.length) ∨
      r'.dstart ≠ r.dstart ∧ Spacious r' 0 ∧
        freeSpace r'.runs =
          freeSpace r.runs + 1000 * (r'.dstart - r.dstart) := by
  rw [RingBuffer.requestData] at hrequest
  cases hruns : r.runs with
  | nil => exact absurd hruns hsound.nonempty
  | cons cur rest =>
      have hordered := (hlayout.run_ok cur (by simp [hruns])).ordered
      simp only [hruns] at hrequest
      split at hrequest
      · rename_i hready
        split at hrequest
        · rename_i hsize
          simp only [RingBuffer.mergeList, Option.bind_eq_some_iff,
            Option.map_eq_some_iff, signedInt_eq_some] at hrequest
          obtain ⟨fetched, -, dstart, ⟨rfl, -⟩, _, ⟨runs, hmerge, rfl⟩, heq⟩ :=
            hrequest
          cases heq
          obtain rfl := hwhole cur rest hruns hready.1 hready.2 hsize
          right
          have hfreed := hspacious.whole hsound hlayout hruns hready.1 hready.2
            hmerge
          refine ⟨?_, hfreed.1, hruns ▸ hfreed.2⟩
          have hfirst := hready.2
          simp only
          omega
        · rename_i hpart
          rw [Option.map_eq_some_iff] at hrequest
          obtain ⟨fetched, hfetch, heq⟩ := hrequest
          cases heq
          obtain ⟨hsize, rfl⟩ := fetchBytes_circRead hfetch
          left
          refine ⟨rfl, ?_⟩
          rw [length_circRead, Int.toNat_of_nonneg hsize]
          exact hspacious.part hruns hready.1 hready.2 (by omega)
      · cases hrequest
        left
        refine ⟨rfl, ?_⟩
        rw [List.length_nil, Nat.cast_zero, add_zero]
        exact hspacious

theorem receiver_of_metered {payload : ℤ → Payload} {m : Session × ℤ}
    (hreach : ((metered payload).restrict keepsSpace).Reachable m) :
    ((receiver payload).restrict noSentinel).Reachable m.1 := by
  induction hreach with
  | initial hinit =>
      rw [hinit]
      exact .initial rfl
  | @step m _ c _ hstep ih =>
      refine ih.step (l := c) ⟨?_, hstep.2.1⟩
      cases c with
      | addData seqnum => exact hstep.1.1
      | requestData size => trivial

/-- A guarded call keeps the space, and gives back that of a run that it
delivers. -/
theorem Spacious.step {payload : ℤ → Payload} {m m' : Session × ℤ} {c : Call}
    (hmerged : Merged m.1.sbuffer)
    (hlayout : Layout m.1.sbuffer.toRing.dstart m.1.sbuffer.toRing.runs)
    (hspacious : Spacious m.1.sbuffer.toRing m.2) (hguard : keepsSpace m c)
    (hstep : (metered payload).step m c m') :
    Spacious m'.1.sbuffer.toRing m'.2 ∧ SpaceReturned m m' := by
  obtain ⟨t, partly⟩ := m'
  obtain ⟨hcall, hpartly⟩ := hstep
  cases c with
  | addData seqnum =>
      obtain ⟨⟨result, s⟩, hadd, heq⟩ := Option.map_eq_some_iff.1 hcall
      simp only at heq hpartly
      subst heq
      obtain ⟨hdstart, hkept⟩ := hspacious.addData hmerged.sound hlayout
        hguard.1 hguard.2 (hmerged.toRing_addData hadd)
      have hsame : s.dstart = m.1.sbuffer.dstart := hdstart
      simp only [hsame, if_true, sub_self, add_zero] at hpartly
      rw [hpartly]
      exact ⟨hkept, fun hmoved => absurd hsame hmoved⟩
  | requestData size =>
      obtain ⟨⟨count, bytes, s⟩, hrequest, heq⟩ := Option.map_eq_some_iff.1 hcall
      simp only at heq hpartly
      subst heq
      rcases hspacious.requestData hmerged.sound hlayout hguard
        (hmerged.toRing_requestData hrequest) with
        ⟨hdstart, hkept⟩ | ⟨hmoved, hkept, hfreed⟩
      · have hsame : s.dstart = m.1.sbuffer.dstart := hdstart
        simp only [hsame, if_true, List.length_append, Nat.cast_add,
          add_sub_cancel_left] at hpartly
        rw [hpartly]
        exact ⟨hkept, fun hmoved => absurd hsame hmoved⟩
      · have hchanged : s.dstart ≠ m.1.sbuffer.dstart := hmoved
        simp only [hchanged, if_false] at hpartly
        rw [hpartly]
        exact ⟨hkept, fun _ => hfreed⟩

theorem spacious_reachable {payload : ℤ → Payload} {m : Session × ℤ}
    (hreach : ((metered payload).restrict keepsSpace).Reachable m) :
    Spacious m.1.sbuffer.toRing m.2 := by
  refine hreach.invariant_with (I := fun m => Spacious m.1.sbuffer.toRing m.2)
    (J := fun m => ((receiver payload).restrict noSentinel).Reachable m.1)
    (fun m hreach => receiver_of_metered hreach) ?_ ?_
  · rintro m rfl
    rw [show Session.start.sbuffer = initHead from rfl,
      initHead_represents.toRing_eq]
    exact spacious_initHead
  · intro m c m' hreach hspacious hstep
    exact (hspacious.step (merged_reachable hreach.of_restrict)
      (layout_reachable hreach) hstep.1 hstep.2).1

/-- Every session can be metered. -/
theorem metered_of_receiver {payload : ℤ → Payload}
    {guard : Session → Call → Prop} (guard' : Session × ℤ → Call → Prop)
    (hguard : ∀ t partly c, guard t c → guard' (t, partly) c) {t : Session}
    (hreach : ((receiver payload).restrict guard).Reachable t) :
    ∃ partly, ((metered payload).restrict guard').Reachable (t, partly) := by
  induction hreach with
  | initial hinit =>
      rw [hinit]
      exact ⟨0, .initial rfl⟩
  | @step t t' c _ hstep ih =>
      obtain ⟨partly, hreach⟩ := ih
      refine ⟨if t'.sbuffer.dstart = t.sbuffer.dstart then
        partly + ((t'.out.length : ℤ) - t.out.length) else 0, ?_⟩
      exact hreach.step (l := c)
        ⟨hguard t partly c hstep.1, hstep.2, rfl⟩

/-- In every session whose calls meet the condition, the space is conserved,
and each call that meets it gives back the space of what it has delivered. -/
theorem space_conserved (payload : ℤ → Payload) (m : Session × ℤ)
    (hreach : ((metered payload).restrict keepsSpace).Reachable m) :
    SpaceConserved m ∧ ∀ c m', keepsSpace m c → (metered payload).step m c m' →
      SpaceReturned m m' := by
  have hspacious := spacious_reachable hreach
  refine ⟨⟨hspacious.total, hspacious.sizes⟩, fun c m' hguard hstep => ?_⟩
  have hreach' := receiver_of_metered hreach
  exact (hspacious.step (merged_reachable hreach'.of_restrict)
    (layout_reachable hreach') hguard hstep).2

/-- Packet 1 arrives and is delivered, and its 1000 bytes are free again. -/
theorem space_conserved_returned :
    ∃ m m', ((metered numbered).restrict keepsSpace).Reachable m ∧
      keepsSpace m (.requestData 1000) ∧
      (metered numbered).step m (.requestData 1000) m' ∧
      SpaceConserved m ∧ SpaceConserved m' ∧
      m'.1.sbuffer.dstart = m.1.sbuffer.dstart + 1 ∧
      freeSpace m'.1.sbuffer.toRing.runs =
        freeSpace m.1.sbuffer.toRing.runs + 1000 := by
  have h : Reaches numbered (fun t c => t.sbuffer.toRing =
      RingBuffer.initHead ∧ c = .addData 1) RingBuffer.initHead [] [] :=
    reaches_start
  obtain ⟨_, _, -, h⟩ := h.store 1 (fun _ ht => ⟨ht, rfl⟩) rfl (by decide) rfl
  obtain ⟨t, hreach, hring, -, -⟩ := h
  have hmerged := merged_reachable hreach.of_restrict
  obtain ⟨partly, hmetered⟩ := metered_of_receiver keepsSpace
    (by
      rintro t partly _ ⟨ht, rfl⟩
      refine ⟨offSentinel_of_lt (by decide), ?_⟩
      intro before hole after hruns _ _ _ _ hopen
      have hhole : hole ∈ RingBuffer.initHead.runs := by
        rw [← ht, hruns]
        simp
      rw [RingBuffer.initHead, List.mem_singleton] at hhole
      rw [hhole] at hopen
      cases hopen) hreach
  have hruns : t.sbuffer.toRing.runs =
      [⟨1, 1, 0, 1000, true⟩, ⟨2, 64, 1000, 63000, false⟩] :=
    congrArg RingBuffer.runs hring
  have hdstart : t.sbuffer.dstart = 1 := congrArg RingBuffer.dstart hring
  obtain ⟨hconserved, hreturns⟩ :=
    space_conserved numbered (t, partly) hmetered
  have hpartly : partly = 0 := by
    have htotal := hconserved.1
    rw [show (t, partly).1.sbuffer.toRing.runs = _ from hruns,
      show totalSize _ = 64000 from rfl] at htotal
    simpa using htotal
  have hguard : keepsSpace (t, partly) (.requestData 1000) :=
    fun _ _ _ _ _ _ => hpartly
  obtain ⟨s, hleft, hrest⟩ := hmerged.exists_requestData
    (requestData_whole hruns rfl hdstart.symm le_rfl (by decide) (by decide)
      rfl)
  have hmoved : s.dstart = 2 := congrArg RingBuffer.dstart hrest
  have hstep : (metered numbered).step (t, partly) (.requestData 1000)
      ({ t with
          sbuffer := s
          out := t.out ++ circRead 64000 t.sbuffer.toRing.buffer 0
            (1000 : ℤ).toNat }, 0) := by
    constructor
    · simp only [Session.call, hleft, Option.map_some]
    · simp only [hmoved, hdstart]
      rw [if_neg (by decide)]
  refine ⟨_, _, hmetered, hguard, hstep, hconserved,
    (space_conserved numbered _ (hmetered.step ⟨hguard, hstep⟩)).1, ?_, ?_⟩
  · simp only [hmoved, hdstart]
    rfl
  · have hfreed := hreturns _ _ hguard hstep (by
      simp only [hmoved, hdstart]
      decide)
    simp only [hmoved, hdstart] at hfreed
    exact hfreed

/-- Packet 1 is delivered in two requests, of 25 bytes and of the rest. -/
theorem not_space_conserved :
    ¬ ∀ (payload : ℤ → Payload) (m : Session × ℤ),
      (metered payload).Reachable m → SpaceConserved m := by
  intro hclaim
  have h : Reaches numbered anyCall RingBuffer.initHead [] [] := reaches_start
  obtain ⟨_, _, -, h⟩ := h.store 1 (fun _ _ => trivial) rfl (by decide) rfl
  have h := h.requestData 25 (fun _ _ => trivial) rfl
  obtain ⟨t, hreach, hring, -, -⟩ := h
  have hmerged := merged_reachable hreach.of_restrict
  obtain ⟨partly, hmetered⟩ := metered_of_receiver
    (fun _ _ => True) (fun _ _ _ _ => trivial) hreach
  have hruns : t.sbuffer.toRing.runs =
      [{ firstSeq := 1, lastSeq := 1, data := 25, size := 975, filled := true },
       { firstSeq := 2, lastSeq := 64, data := 1000, size := 63000,
         filled := false }] :=
    congrArg RingBuffer.runs hring
  have hdstart : t.sbuffer.toRing.dstart = 1 := congrArg RingBuffer.dstart hring
  have hrequest := requestData_whole hruns rfl hdstart.symm
    (show (975 : ℤ) ≤ 1000 by decide) (by decide) (by decide) rfl
  obtain ⟨s, hleft, hrest⟩ := hmerged.exists_requestData hrequest
  have hmoved : s.dstart = 2 := congrArg RingBuffer.dstart hrest
  have hstep : (metered numbered).step (t, partly) (.requestData 1000)
      ({ t with
          sbuffer := s
          out := t.out ++ circRead 64000 t.sbuffer.toRing.buffer 25
            (975 : ℤ).toNat }, 0) := by
    constructor
    · simp only [Session.call, hleft, Option.map_some]
    · have hbefore : t.sbuffer.dstart = 1 := hdstart
      simp only [hmoved, hbefore]
      rw [if_neg (by decide)]
  have htotal := (hclaim numbered _ (hmetered.of_restrict.step hstep)).1
  have hsum : totalSize s.toRing.runs = 63975 := by
    rw [hrest]
    rfl
  simp only [hsum] at htotal
  exact absurd htotal (by decide)

end UdpTransfer.Receiver
