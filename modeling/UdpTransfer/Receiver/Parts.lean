import UdpTransfer.Receiver.SBuffer

/-!
# The parts of a call

`addData` copies a packet and merges the ring once its walk has found a place;
`requestData` does so once it has found the run at `head` ready.  `walkFrom` is
that walk alone, and the two equations below put the calls together from their
walk, their `memcpy`s and their merges.
-/

namespace UdpTransfer.Receiver

open UdpTransfer.Memory

namespace SBuffer

/-- Where the walk of `addData` ends: with an answer, or at the node that is to
take the packet. -/
inductive Walked where
  | answered (result : ℤ) (s : SBuffer)
  | placed (s : SBuffer) (current : ℕ)

/-- The walk of `addData` round the ring, up to the copy. -/
def walkFrom (seqnum size : ℤ) (s : SBuffer) (current : ℕ) : Option Walked :=
  let cur := s.nodes current
  if cur.firstSeq = seqnum ∧ cur.filled = true then
    some (.answered 1 s)
  else
    match signedInt (s.dstart + 63) with
    | none => none
    | some limit =>
      if seqnum > limit then
        some (.answered 0 s)
      else if cur.filled = false then
        match fillHole s current seqnum size with
        | none => none
        | some (s, current) =>
          if (s.nodes current).filled = true then
            some (.placed s current)
          else if (s.nodes current).next = s.head then
            some (.answered 0 s)
          else
            by apply walkFrom; exacts [seqnum, size, s, (s.nodes current).next]
      else if cur.next = s.head then
        some (.answered 0 s)
      else
        by apply walkFrom; exacts [seqnum, size, s, cur.next]
partial_fixpoint

/-- The buffer handed to `mergeList` once packet `seqnum` has been copied. -/
def stored (s : SBuffer) (seqnum : ℤ) (buffer : ℕ → UInt8) : SBuffer :=
  { s with
    buffer := buffer
    dend := if seqnum > s.dend then seqnum else s.dend }

/-- The copy and the merge behind a walk that found a place. -/
def finish (seqnum : ℤ) (data : List UInt8) : Walked → Option (ℤ × SBuffer)
  | .answered result s => some (result, s)
  | .placed s current =>
      (storeBytes s.buffer (s.nodes current).toExtent data).bind fun buffer =>
        (mergeList (s.stored seqnum buffer)).map fun s => (1, s)

variable {seqnum size : ℤ} {data : List UInt8}

/-- A walk that ends is finished by the copy and the merge. -/
theorem insertFrom_of_walkFrom {s : SBuffer} {current : ℕ} {walked : Walked}
    (hwalk : walkFrom seqnum size s current = some walked) :
    insertFrom seqnum size data s current = finish seqnum data walked := by
  refine walkFrom.partial_correctness seqnum size
    (fun s current walked =>
      insertFrom seqnum size data s current = finish seqnum data walked)
    ?_ s current walked hwalk
  intro walk ih s current walked hwalk
  rw [insertFrom]
  dsimp only at hwalk
  split at hwalk
  · rename_i hfound
    rw [if_pos hfound]
    cases hwalk
    rfl
  · rename_i hfound
    rw [if_neg hfound]
    cases hlimit : signedInt (s.dstart + 63) with
    | none => simp [hlimit] at hwalk
    | some limit =>
        rw [hlimit] at hwalk
        dsimp only at hwalk ⊢
        split at hwalk
        · rename_i hrange
          rw [if_pos hrange]
          cases hwalk
          rfl
        · rename_i hrange
          rw [if_neg hrange]
          split at hwalk
          · rename_i hhole
            rw [if_pos hhole]
            cases hfill : fillHole s current seqnum size with
            | none => simp [hfill] at hwalk
            | some filled =>
                rw [hfill] at hwalk
                dsimp only at hwalk ⊢
                split at hwalk
                · rename_i hplaced
                  rw [if_pos hplaced]
                  cases hwalk
                  rw [finish]
                  cases storeBytes filled.1.buffer
                      (filled.1.nodes filled.2).toExtent data with
                  | none => rfl
                  | some buffer =>
                      dsimp only [Option.bind_some, stored]
                      cases mergeList _ <;> rfl
                · rename_i hplaced
                  rw [if_neg hplaced]
                  split at hwalk
                  · rename_i hlast
                    rw [if_pos hlast]
                    cases hwalk
                    rfl
                  · rename_i hlast
                    rw [if_neg hlast]
                    exact ih _ _ _ hwalk
          · rename_i hhole
            rw [if_neg hhole]
            split at hwalk
            · rename_i hlast
              rw [if_pos hlast]
              cases hwalk
              rfl
            · rename_i hlast
              rw [if_neg hlast]
              exact ih _ _ _ hwalk

/-- Where the call returns, its walk has ended. -/
theorem walkFrom_of_insertFrom {s : SBuffer} {current : ℕ}
    {answer : ℤ × SBuffer}
    (hinsert : insertFrom seqnum size data s current = some answer) :
    ∃ walked, walkFrom seqnum size s current = some walked := by
  refine insertFrom.partial_correctness seqnum size data
    (fun s current _ => ∃ walked, walkFrom seqnum size s current = some walked)
    ?_ s current answer hinsert
  intro insert ih s current answer hinsert
  rw [walkFrom]
  dsimp only at hinsert ⊢
  split
  · exact ⟨_, rfl⟩
  · rename_i hfound
    rw [if_neg hfound] at hinsert
    cases hlimit : signedInt (s.dstart + 63) with
    | none => simp [hlimit] at hinsert
    | some limit =>
        rw [hlimit] at hinsert
        dsimp only at hinsert ⊢
        split
        · exact ⟨_, rfl⟩
        · rename_i hrange
          rw [if_neg hrange] at hinsert
          split
          · rename_i hhole
            rw [if_pos hhole] at hinsert
            cases hfill : fillHole s current seqnum size with
            | none => simp [hfill] at hinsert
            | some filled =>
                rw [hfill] at hinsert
                dsimp only at hinsert ⊢
                split
                · exact ⟨_, rfl⟩
                · rename_i hplaced
                  rw [if_neg hplaced] at hinsert
                  split
                  · exact ⟨_, rfl⟩
                  · rename_i hlast
                    rw [if_neg hlast] at hinsert
                    exact ih _ _ _ hinsert
          · rename_i hhole
            rw [if_neg hhole] at hinsert
            split
            · exact ⟨_, rfl⟩
            · rename_i hlast
              rw [if_neg hlast] at hinsert
              exact ih _ _ _ hinsert

/-- The walk of `addData` put together from its search, its copy and its
merge. -/
theorem insertFrom_eq (s : SBuffer) (current : ℕ) :
    insertFrom seqnum size data s current =
      (walkFrom seqnum size s current).bind (finish seqnum data) := by
  cases hwalk : walkFrom seqnum size s current with
  | some walked => exact insertFrom_of_walkFrom hwalk
  | none =>
      rw [Option.bind_none, Option.eq_none_iff_forall_ne_some]
      intro answer hinsert
      obtain ⟨walked, hwalked⟩ := walkFrom_of_insertFrom hinsert
      rw [hwalk] at hwalked
      cases hwalked

/-! ## Deliveries -/

/-- The run at `head` is stored and the next to be handed out. -/
def Ready (s : SBuffer) : Prop :=
  (s.nodes s.head).filled = true ∧ (s.nodes s.head).firstSeq = s.dstart

instance (s : SBuffer) : Decidable s.Ready :=
  inferInstanceAs (Decidable (_ ∧ _))

/-- The buffer handed to `mergeList` once the run at `head` has been handed
out. -/
def delivered (s : SBuffer) (dstart : ℤ) : SBuffer :=
  { s.setNode s.head { s.nodes s.head with filled := false } with
    dstart := dstart
    head := (s.nodes s.head).next }

/-- The buffer once `size` bytes of a longer run at `head` have been handed
out. -/
def consumed (s : SBuffer) (size : ℤ) : SBuffer :=
  s.setNode s.head
    { s.nodes s.head with
      data := (s.nodes s.head).data + size
      size := (s.nodes s.head).size - size }

/-- `requestData` put together from its copies and its merge. -/
theorem requestData_eq (s : SBuffer) (size : ℤ) :
    s.requestData size =
      if s.Ready then
        (fetchBytes s.buffer (s.nodes s.head).toExtent
            (min (s.nodes s.head).size size)).bind fun bytes =>
          if (s.nodes s.head).size ≤ size then
            (signedInt ((s.nodes s.head).lastSeq + 1)).bind fun dstart =>
              (mergeList (s.delivered dstart)).map fun s' =>
                ((s.nodes s.head).size, bytes, s')
          else
            some (size, bytes, s.consumed size)
      else
        some (0, [], s) := by
  rw [requestData]
  dsimp only
  by_cases hready : s.Ready
  · rw [if_pos hready, if_pos (And.intro hready.1 hready.2)]
    split
    · rename_i hall
      rw [min_eq_left hall]
      rfl
    · rename_i hpart
      rw [min_eq_right (by omega)]
      exact Option.map_eq_bind
  · rw [if_neg hready, if_neg (fun h => hready ⟨h.1, h.2⟩)]

end SBuffer

end UdpTransfer.Receiver
