import Mathlib.Data.List.Chain
import UdpTransfer.Core.Links

/-!
# Doubly linked lists

A doubly linked list is threaded by two pointer maps, `next` and `prev`.  With
the null cell in front and behind, where `next null` is the first cell and
`prev null` the last, every two neighbours point at each other, and taking a
cell out or putting one in changes two pointers wherever it happens.
-/

namespace UdpTransfer.Links

open Function

variable {Cell : Type*} {next prev next' prev' : Cell → Cell} {null : Cell}

/-- The two cells point at each other. -/
def Neighbours (next prev : Cell → Cell) (a b : Cell) : Prop :=
  next a = b ∧ prev b = a

/-- The list from `next null` to `prev null` visits `cells`. -/
structure Threaded (next prev : Cell → Cell) (null : Cell)
    (cells : List Cell) : Prop where
  chain : (null :: (cells ++ [null])).IsChain (Neighbours next prev)
  nodup : (null :: cells).Nodup

theorem isChain_congr {l : List Cell} (hchain : l.IsChain (Neighbours next prev))
    (hnext : ∀ a ∈ l.dropLast, next' a = next a)
    (hprev : ∀ b ∈ l.tail, prev' b = prev b) :
    l.IsChain (Neighbours next' prev') := by
  rw [List.isChain_iff_getElem] at hchain ⊢
  intro i hi
  obtain ⟨hforward, hback⟩ := hchain i hi
  refine ⟨?_, ?_⟩
  · rw [hnext _ ?_, hforward]
    rw [List.mem_iff_getElem]
    exact ⟨i, by rw [List.length_dropLast]; omega, by simp⟩
  · rw [hprev _ ?_, hback]
    rw [List.mem_iff_getElem]
    exact ⟨i, by rw [List.length_tail]; omega, by simp⟩

/-- Only the pointers of the cells and of null matter. -/
theorem Threaded.congr {cells : List Cell}
    (hthread : Threaded next prev null cells)
    (hnext : ∀ a ∈ null :: cells, next' a = next a)
    (hprev : ∀ b ∈ null :: cells, prev' b = prev b) :
    Threaded next' prev' null cells := by
  refine ⟨isChain_congr hthread.chain (fun a ha => hnext a ?_)
    (fun b hb => hprev b ?_), hthread.nodup⟩
  · rw [← List.cons_append, List.dropLast_concat] at ha
    exact ha
  · rw [List.tail_cons, List.mem_append, List.mem_singleton] at hb
    rw [List.mem_cons]
    exact hb.symm

theorem segment_of_isChain {cells : List Cell} :
    ∀ {p : Cell}, (p :: (cells ++ [null])).IsChain (Neighbours next prev) →
      Segment next (next p) cells null := by
  induction cells with
  | nil =>
      intro p hchain
      rw [List.nil_append, List.isChain_pair] at hchain
      exact hchain.1
  | cons cell cells ih =>
      intro p hchain
      rw [List.cons_append, List.isChain_cons_cons] at hchain
      exact ⟨hchain.1.1, ih hchain.2⟩

theorem Threaded.forward {cells : List Cell}
    (hthread : Threaded next prev null cells) :
    Segment next (next null) cells null :=
  segment_of_isChain hthread.chain

theorem Threaded.reverse {cells : List Cell}
    (hthread : Threaded next prev null cells) :
    Threaded prev next null cells.reverse := by
  have hends : null :: (cells.reverse ++ [null]) =
      (null :: (cells ++ [null])).reverse := by simp
  constructor
  · rw [hends, List.isChain_reverse]
    exact hthread.chain.imp fun a b h => ⟨h.2, h.1⟩
  · have hnodup := hthread.nodup
    rw [List.nodup_cons] at hnodup ⊢
    rwa [List.mem_reverse, List.nodup_reverse]

theorem Threaded.backward {cells : List Cell}
    (hthread : Threaded next prev null cells) :
    Segment prev (prev null) cells.reverse null :=
  hthread.reverse.forward

/-- The cell before a place, and the cell behind it. -/
theorem exists_ends (null : Cell) (before after : List Cell) :
    ∃ left right,
      null :: before = left ++ [before.getLastD null] ∧
        after ++ [null] = after.headD null :: right := by
  have hleft : ∃ left, null :: before = left ++ [before.getLastD null] := by
    rcases List.eq_nil_or_concat before with rfl | ⟨front, last, rfl⟩
    · exact ⟨[], rfl⟩
    · exact ⟨null :: front, by simp⟩
  have hright : ∃ right, after ++ [null] = after.headD null :: right := by
    cases after with
    | nil => exact ⟨[], rfl⟩
    | cons first rest => exact ⟨rest ++ [null], rfl⟩
  obtain ⟨left, hleft⟩ := hleft
  obtain ⟨right, hright⟩ := hright
  exact ⟨left, right, hleft, hright⟩

/-- New pointers at the two ends of a gap leave what lies on either side as it
was. -/
theorem Threaded.sides {before mid after : List Cell}
    (hthread : Threaded next prev null (before ++ mid ++ after))
    (hnext : ∀ a, a ≠ before.getLastD null → a ∈ null :: (before ++ after) →
      next' a = next a)
    (hprev : ∀ b, b ≠ after.headD null → b ∈ null :: (before ++ after) →
      prev' b = prev b) :
    (null :: before).IsChain (Neighbours next' prev') ∧
      (after ++ [null]).IsChain (Neighbours next' prev') := by
  obtain ⟨left, right, hleft, hright⟩ := exists_ends null before after
  have hnodup := hthread.nodup
  have hchain := hthread.chain
  rw [List.append_assoc, List.append_assoc, ← List.cons_append] at hchain
  rw [List.append_assoc, ← List.cons_append] at hnodup
  have hsides := List.nodup_append.1 hnodup
  have hright' := List.nodup_append.1 hsides.2.1
  constructor
  · refine isChain_congr hchain.left_of_append ?_ ?_
    · intro a ha
      rw [hleft, List.dropLast_concat] at ha
      refine hnext a ?_ ?_
      · rintro rfl
        rw [hleft] at hsides
        exact (List.nodup_append.1 hsides.1).2.2 _ ha _
          (List.mem_singleton_self _) rfl
      · have : a ∈ null :: before := by
          rw [hleft]
          exact List.mem_append_left _ ha
        simp only [List.mem_cons, List.mem_append] at this ⊢
        tauto
    · intro b hb
      rw [List.tail_cons] at hb
      refine hprev b ?_ (by simp [hb])
      rintro rfl
      cases after with
      | nil =>
          exact (List.nodup_cons.1 hsides.1).1 hb
      | cons first rest =>
          exact hsides.2.2 _ (List.mem_cons_of_mem _ hb) first
            (by simp) rfl
  · refine isChain_congr hchain.right_of_append.right_of_append ?_ ?_
    · intro a ha
      rw [List.dropLast_concat] at ha
      refine hnext a ?_ (by simp [ha])
      rintro rfl
      have hmem : before.getLastD null ∈ null :: before := by
        rw [hleft]
        simp
      exact hsides.2.2 _ hmem _ (List.mem_append_right _ ha) rfl
    · intro b hb
      cases after with
      | nil => simp at hb
      | cons first rest =>
          rw [List.cons_append, List.tail_cons, List.mem_append,
            List.mem_singleton] at hb
          have hne : b ≠ first := by
            rintro rfl
            rcases hb with hb | rfl
            · exact (List.nodup_cons.1 hright'.2.1).1 hb
            · exact hsides.2.2 _ List.mem_cons_self _ (by simp) rfl
          refine hprev b hne ?_
          simp only [List.mem_cons, List.mem_append]
          tauto

/-- Where a cell stands in the list, its pointers name its neighbours. -/
theorem Threaded.at_cell {before after : List Cell} {cell : Cell}
    (hthread : Threaded next prev null (before ++ cell :: after)) :
    prev cell = before.getLastD null ∧ next cell = after.headD null := by
  obtain ⟨left, right, hleft, hright⟩ := exists_ends null before after
  have hchain := hthread.chain
  rw [List.append_assoc, ← List.cons_append, hleft, List.cons_append, hright,
    List.append_assoc, List.singleton_append, List.isChain_append_cons_cons,
    List.isChain_cons_cons] at hchain
  exact ⟨hchain.2.1.2, hchain.2.2.1.1⟩

variable [DecidableEq Cell]

/-- Putting a cell in. -/
theorem Threaded.link {before after : List Cell} {cell : Cell}
    (hthread : Threaded next prev null (before ++ after))
    (hcell : cell ∉ null :: (before ++ after))
    (hnext : next' = update (update next cell (after.headD null))
      (before.getLastD null) cell)
    (hprev : prev' = update (update prev cell (before.getLastD null))
      (after.headD null) cell) :
    Threaded next' prev' null (before ++ cell :: after) := by
  obtain ⟨left, right, hleft, hright⟩ := exists_ends null before after
  have hbefore : before.getLastD null ∈ null :: (before ++ after) := by
    have : before.getLastD null ∈ null :: before := by
      rw [hleft]
      simp
    simp only [List.mem_cons, List.mem_append] at this ⊢
    tauto
  have hafter : after.headD null ∈ null :: (before ++ after) := by
    have : after.headD null ∈ after ++ [null] := by
      rw [hright]
      simp
    simp only [List.mem_cons, List.mem_append, List.not_mem_nil] at this ⊢
    tauto
  have hne : cell ≠ before.getLastD null := by
    rintro rfl
    exact hcell hbefore
  have hne' : cell ≠ after.headD null := by
    rintro rfl
    exact hcell hafter
  have hthread' : Threaded next prev null (before ++ [] ++ after) := by
    rwa [List.append_nil]
  obtain ⟨hfront, hback⟩ : (null :: before).IsChain (Neighbours next' prev') ∧
      (after ++ [null]).IsChain (Neighbours next' prev') := hthread'.sides
    (fun a ha hmem => by
      have hcell' : a ≠ cell := by
        rintro rfl
        exact hcell hmem
      rw [hnext, update_of_ne ha, update_of_ne hcell'])
    (fun b hb hmem => by
      have hcell' : b ≠ cell := by
        rintro rfl
        exact hcell hmem
      rw [hprev, update_of_ne hb, update_of_ne hcell'])
  constructor
  · rw [List.append_assoc, ← List.cons_append, hleft, List.cons_append, hright,
      List.append_assoc, List.singleton_append, List.isChain_append_cons_cons,
      List.isChain_cons_cons, ← hleft, ← hright]
    refine ⟨hfront, ⟨?_, ?_⟩, ⟨?_, ?_⟩, hback⟩
    · rw [hnext, update_self]
    · rw [hprev, update_of_ne hne', update_self]
    · rw [hnext, update_of_ne hne, update_self]
    · rw [hprev, update_self]
  · have hperm : (null :: (before ++ cell :: after)).Perm
        (cell :: null :: (before ++ after)) :=
      (List.Perm.cons null List.perm_middle).trans (List.Perm.swap _ _ _)
    rw [hperm.nodup_iff, List.nodup_cons]
    exact ⟨hcell, hthread.nodup⟩

/-- Taking a cell out. -/
theorem Threaded.unlink {before after : List Cell} {cell : Cell}
    (hthread : Threaded next prev null (before ++ cell :: after))
    (hnext : next' = update next (before.getLastD null) (after.headD null))
    (hprev : prev' = update prev (after.headD null) (before.getLastD null)) :
    Threaded next' prev' null (before ++ after) := by
  obtain ⟨left, right, hleft, hright⟩ := exists_ends null before after
  have hthread' : Threaded next prev null (before ++ [cell] ++ after) := by
    simpa using hthread
  obtain ⟨hfront, hback⟩ : (null :: before).IsChain (Neighbours next' prev') ∧
      (after ++ [null]).IsChain (Neighbours next' prev') := hthread'.sides
    (fun a ha _ => by rw [hnext, update_of_ne ha])
    (fun b hb _ => by rw [hprev, update_of_ne hb])
  constructor
  · rw [List.append_assoc, ← List.cons_append, hleft, hright,
      List.append_assoc, List.singleton_append, List.isChain_append_cons_cons,
      ← hleft, ← hright]
    refine ⟨hfront, ⟨?_, ?_⟩, hback⟩
    · rw [hnext, update_self]
    · rw [hprev, update_self]
  · refine List.Sublist.nodup ?_ hthread.nodup
    simp

end UdpTransfer.Links
