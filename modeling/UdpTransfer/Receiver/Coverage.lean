import UdpTransfer.Receiver.Session

/-!
# Acknowledged numbers stay covered

A number for which `addData` returned nonzero is from then on covered: it lies
in a filled run of the ring until that run is delivered, and below `dstart`
from then on.  Filled runs are never cut, and merges only lengthen them.
-/

namespace UdpTransfer.Receiver

open SBuffer

/-- Some filled run of the ring contains `seqnum`. -/
def Holds (runs : List Extent) (seqnum : ℤ) : Prop :=
  ∃ run ∈ runs, run.filled = true ∧ run.firstSeq ≤ seqnum ∧
    seqnum ≤ run.lastSeq

def Covered (r : RingBuffer) (seqnum : ℤ) : Prop :=
  seqnum < r.dstart ∨ Holds r.runs seqnum

/-- No filled run is empty. -/
def Proper (runs : List Extent) : Prop :=
  ∀ run ∈ runs, run.filled = true → run.firstSeq ≤ run.lastSeq

theorem Holds.mono {left right : List Extent} {seqnum : ℤ}
    (hholds : Holds left seqnum)
    (hsub : ∀ run ∈ left, run.filled = true → run ∈ right) :
    Holds right seqnum := by
  obtain ⟨run, hrun, hfilled, hrange⟩ := hholds
  exact ⟨run, hsub run hrun hfilled, hfilled, hrange⟩

theorem proper_mergeStep {dstart : ℤ} {left right : List Extent}
    (hstep : MergeStep dstart left right) (hproper : Proper left) :
    Proper right := by
  apply hstep.forall_run hproper
  · intro current hcurrent next hnext hfollow hfilled
    obtain ⟨hlast, hkinds⟩ := followsOn_iff.1 hfollow
    have h1 := hproper current hcurrent hfilled
    have h2 := hproper next hnext (hkinds ▸ hfilled)
    simp only [mergeFollowing_firstSeq, mergeFollowing_lastSeq]
    omega
  · intro current _ next _ hspare hfilled
    rw [mergeSpare_filled, (sparesHoles_iff.1 hspare).1] at hfilled
    cases hfilled

theorem holds_mergeStep {dstart seqnum : ℤ} {left right : List Extent}
    (hstep : MergeStep dstart left right) (hproper : Proper left)
    (hholds : Holds left seqnum) : Holds right seqnum := by
  obtain ⟨run, hrun, hfilled, hlow, hhigh⟩ := hholds
  cases hstep with
  | following before after current next hfollow =>
      rw [followsOn_iff] at hfollow
      have hmerged : mergeFollowing current next ∈
          before ++ mergeFollowing current next :: after := by simp
      simp only [List.mem_append, List.mem_cons] at hrun
      rcases hrun with hrun | rfl | rfl | hrun
      · exact ⟨run, by simp [hrun], hfilled, hlow, hhigh⟩
      · have := hproper next (by simp) (hfollow.2 ▸ hfilled)
        exact ⟨_, hmerged, hfilled, hlow,
          by simp only [mergeFollowing_lastSeq]; omega⟩
      · have hcur : current.filled = true := hfollow.2 ▸ hfilled
        have := hproper current (by simp) hcur
        exact ⟨_, hmerged, hcur, by simp only [mergeFollowing_firstSeq]; omega,
          hhigh⟩
      · exact ⟨run, by simp [hrun], hfilled, hlow, hhigh⟩
  | spare before after current next hspare _ =>
      rw [sparesHoles_iff] at hspare
      simp only [List.mem_append, List.mem_cons] at hrun
      rcases hrun with hrun | rfl | rfl | hrun
      · exact ⟨run, by simp [hrun], hfilled, hlow, hhigh⟩
      · rw [hspare.1] at hfilled
        cases hfilled
      · rw [hspare.2.1] at hfilled
        cases hfilled
      · exact ⟨run, by simp [hrun], hfilled, hlow, hhigh⟩

theorem proper_mergeRuns {dstart : ℤ} {runs merged : List Extent}
    (hmerge : mergeRuns dstart runs = some merged) (hproper : Proper runs) :
    Proper merged :=
  mergeRuns_invariant (fun _ _ => proper_mergeStep) hmerge hproper

theorem holds_mergeRuns {dstart seqnum : ℤ} {runs merged : List Extent}
    (hmerge : mergeRuns dstart runs = some merged) (hproper : Proper runs)
    (hholds : Holds runs seqnum) : Holds merged seqnum := by
  have hboth := mergeRuns_invariant
    (I := fun runs => Proper runs ∧ Holds runs seqnum)
    (fun _ _ hstep h =>
      ⟨proper_mergeStep hstep h.1, holds_mergeStep hstep h.1 h.2⟩)
    hmerge ⟨hproper, hholds⟩
  exact hboth.2

/-- The runs that a packet does not touch, and the packet itself, are what is
filled after it has been placed. -/
theorem mem_refill {before after : List Extent} {cur : Extent}
    {seqnum size : ℤ} {placed : Placement} (hhole : cur.filled = false)
    (htakes : Takes cur seqnum size placed) {run : Extent}
    (hfilled : run.filled = true) :
    run ∈ refill before placed after ↔
      run ∈ before ++ cur :: after ∨ run = placed.node := by
  have hfront : run ∉ placed.front := by
    cases htakes <;> simp only [List.not_mem_nil, List.mem_singleton,
      not_false_eq_true] <;> rintro rfl <;> simp [holeBefore, hhole] at hfilled
  have hback : run ∉ placed.back := by
    cases htakes <;> simp only [List.not_mem_nil, List.mem_singleton,
      not_false_eq_true] <;> rintro rfl <;> simp [holeBehind] at hfilled
  have hcur : run ≠ cur := by
    rintro rfl
    simp [hhole] at hfilled
  simp only [refill, List.mem_append, List.mem_cons, hfront, hback, hcur]
  tauto

theorem proper_refill {before after : List Extent} {cur : Extent}
    {seqnum size : ℤ} {placed : Placement} (hhole : cur.filled = false)
    (htakes : Takes cur seqnum size placed)
    (hproper : Proper (before ++ cur :: after)) :
    Proper (refill before placed after) := by
  intro run hrun hfilled
  rcases (mem_refill hhole htakes hfilled).1 hrun with hold | rfl
  · exact hproper run hold hfilled
  · rw [htakes.node.1, htakes.node.2.1]

theorem holds_refill {before after : List Extent} {cur : Extent}
    {seqnum size other : ℤ} {placed : Placement} (hhole : cur.filled = false)
    (htakes : Takes cur seqnum size placed)
    (hholds : Holds (before ++ cur :: after) other) :
    Holds (refill before placed after) other :=
  hholds.mono fun _ hrun hfilled =>
    (mem_refill hhole htakes hfilled).2 (.inl hrun)

theorem holds_refill_self {before after : List Extent} {cur : Extent}
    {seqnum size : ℤ} {placed : Placement}
    (htakes : Takes cur seqnum size placed) :
    Holds (refill before placed after) seqnum := by
  obtain ⟨hfirst, hlast, -, hfilled⟩ := htakes.node
  exact ⟨placed.node, by simp [refill], hfilled, hfirst.le, hlast.ge⟩

/-! ## Calls -/

theorem Proper.arrival {r r' : RingBuffer} {seqnum result : ℤ}
    {data : List UInt8} (harrival : Arrival r seqnum data result r')
    (hproper : Proper r.runs) : Proper r'.runs := by
  cases harrival with
  | duplicate _ => exact hproper
  | rejected _ => exact hproper
  | stored before after runs placed buffer dend hseek _ hmerge =>
      obtain ⟨mid, cur, hfound, hruns, hhole, -, htakes⟩ := seek_placed hseek
      rw [List.nil_append] at hfound
      rw [hruns, ← hfound] at hproper
      exact proper_mergeRuns hmerge (proper_refill hhole htakes hproper)

theorem Covered.arrival {r r' : RingBuffer} {seqnum result other : ℤ}
    {data : List UInt8} (harrival : Arrival r seqnum data result r')
    (hproper : Proper r.runs) (hcovered : Covered r other) :
    Covered r' other := by
  cases harrival with
  | duplicate _ => exact hcovered
  | rejected _ => exact hcovered
  | stored before after runs placed buffer dend hseek _ hmerge =>
      obtain ⟨mid, cur, hfound, hruns, hhole, -, htakes⟩ := seek_placed hseek
      rw [List.nil_append] at hfound
      rw [hruns, ← hfound] at hproper
      refine hcovered.imp_right fun hholds => ?_
      rw [hruns, ← hfound] at hholds
      exact holds_mergeRuns hmerge (proper_refill hhole htakes hproper)
        (holds_refill hhole htakes hholds)

/-- A number that `addData` answers with nonzero is covered. -/
theorem covered_of_arrival {r r' : RingBuffer} {seqnum result : ℤ}
    {data : List UInt8} (harrival : Arrival r seqnum data result r')
    (hproper : Proper r.runs) (hresult : result ≠ 0) : Covered r' seqnum := by
  cases harrival with
  | duplicate hseek =>
      obtain ⟨run, hrun, hfirst, hfilled⟩ := seek_duplicate hseek
      have := hproper run hrun hfilled
      exact .inr ⟨run, hrun, hfilled, hfirst.le, by omega⟩
  | rejected _ => exact absurd rfl hresult
  | stored before after runs placed buffer dend hseek _ hmerge =>
      obtain ⟨mid, cur, hfound, hruns, hhole, -, htakes⟩ := seek_placed hseek
      rw [List.nil_append] at hfound
      rw [hruns, ← hfound] at hproper
      exact .inr (holds_mergeRuns hmerge (proper_refill hhole htakes hproper)
        (holds_refill_self htakes))

theorem Proper.delivery {r r' : RingBuffer} {size : ℤ} {bytes : List UInt8}
    (hdelivery : Delivery r size bytes r') (hproper : Proper r.runs) :
    Proper r'.runs := by
  cases hdelivery with
  | nothing => exact hproper
  | whole cur rest runs hruns _ _ _ hmerge =>
      rw [hruns] at hproper
      refine proper_mergeRuns hmerge ?_
      intro run hrun hfilled
      rw [List.mem_append, List.mem_singleton] at hrun
      rcases hrun with hrun | rfl
      · exact hproper run (by simp [hrun]) hfilled
      · cases hfilled
  | part cur rest hruns _ _ _ _ =>
      rw [hruns] at hproper
      intro run hrun hfilled
      rcases List.mem_cons.1 hrun with rfl | hrun
      · exact hproper cur (by simp) hfilled
      · exact hproper run (by simp [hrun]) hfilled

theorem Covered.delivery {r r' : RingBuffer} {size seqnum : ℤ}
    {bytes : List UInt8} (hdelivery : Delivery r size bytes r')
    (hproper : Proper r.runs) (hcovered : Covered r seqnum) :
    Covered r' seqnum := by
  cases hdelivery with
  | nothing => exact hcovered
  | whole cur rest runs hruns hfilled hfirst _ hmerge =>
      rw [hruns] at hproper
      rw [Covered, hruns] at hcovered
      have hcur := hproper cur (by simp) hfilled
      by_cases hbelow : seqnum < cur.lastSeq + 1
      · exact .inl hbelow
      · right
        have hrest : Proper (rest ++ [{ cur with filled := false }]) := by
          intro run hrun hfilled
          rw [List.mem_append, List.mem_singleton] at hrun
          rcases hrun with hrun | rfl
          · exact hproper run (by simp [hrun]) hfilled
          · cases hfilled
        refine holds_mergeRuns hmerge hrest ?_
        rcases hcovered with hlow | ⟨run, hrun, hrange⟩
        · omega
        · rcases List.mem_cons.1 hrun with rfl | hrun
          · omega
          · exact ⟨run, by simp [hrun], hrange⟩
  | part cur rest hruns hfilled _ _ _ =>
      refine hcovered.imp_right fun hholds => ?_
      rw [hruns] at hholds
      obtain ⟨run, hrun, hrange⟩ := hholds
      rcases List.mem_cons.1 hrun with rfl | hrun
      · exact ⟨_, List.mem_cons_self, hrange⟩
      · exact ⟨run, List.mem_cons_of_mem _ hrun, hrange⟩

theorem Proper.called {payload : ℤ → Payload} {t t' : Session} {c : Call}
    (hcalled : Called payload t c t') (hproper : Proper t.sbuffer.toRing.runs) :
    Proper t'.sbuffer.toRing.runs := by
  cases hcalled with
  | addData seqnum result s harrival => exact hproper.arrival harrival
  | requestData size bytes s hdelivery => exact hproper.delivery hdelivery

theorem proper_initHead : Proper initHead.toRing.runs := by
  rw [initHead_represents.toRing_eq]
  simp [Proper, RingBuffer.initHead]

/-- In every session, what has been acknowledged is covered. -/
theorem acked_covered {payload : ℤ → Payload} {guard : Session → Call → Prop}
    {t : Session} (hreach : ((receiver payload).restrict guard).Reachable t) :
    ∀ seqnum ∈ t.acked, Covered t.sbuffer.toRing seqnum := by
  have hboth := session_invariant
    (I := fun t => Proper t.sbuffer.toRing.runs ∧
      ∀ seqnum ∈ t.acked, Covered t.sbuffer.toRing seqnum)
    ⟨proper_initHead, by simp [Session.start]⟩ ?_ hreach
  · exact hboth.2
  rintro t c t' - - hcalled ⟨hproper, hcovered⟩
  refine ⟨hproper.called hcalled, ?_⟩
  cases hcalled with
  | addData seqnum result s harrival =>
      intro other hother
      have hkept : other ∈ t.acked → Covered s.toRing other := fun hmem =>
        (hcovered other hmem).arrival harrival hproper
      simp only at hother
      split at hother
      · rename_i hresult
        rcases List.mem_cons.1 hother with rfl | hmem
        · exact covered_of_arrival harrival hproper hresult
        · exact hkept hmem
      · exact hkept hother
  | requestData size bytes s hdelivery =>
      intro other hother
      exact (hcovered other hother).delivery hdelivery hproper

end UdpTransfer.Receiver
