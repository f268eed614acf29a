import UdpTransfer.System.Replies

/-!
# When ftps finishes

`ftps` waits for replies as long as it has not got the header and as many bytes
behind it as the header announces.  It finishes with the reply that brings the
last of them, however the replies cut the stream, if it can write the file at
all.
-/

namespace UdpTransfer.Ftps

open UdpTransfer.Bytes
open UdpTransfer.Memory

section

variable {creates : List UInt8 → Bool} {cuts : List ℕ} {n : UInt32}
  {name body stream written : List UInt8} {databufin : ℕ → UInt8} {k : ℕ}

/-- The loop for the header ends with the reply that completes it. -/
theorem exists_readHeader {requestSize : UInt32}
    (hcuts : (cuts.take k).sum = requestSize.toNat)
    (hstream : requestSize.toNat ≤ stream.length) :
    ∃ k' ≤ k, (cuts.take k').sum = requestSize.toNat ∧ ∃ databufin',
      readHeader cuts requestSize databufin stream =
        some (databufin', cuts.drop k', stream.drop requestSize.toNat) := by
  induction cuts generalizing requestSize databufin stream k with
  | nil =>
      have hzero : requestSize.toNat = 0 := by simpa using hcuts.symm
      have hdone : ¬ requestSize > 0 := by
        rw [gt_iff_lt, UInt32.lt_iff_toNat_lt, hzero]
        exact lt_irrefl 0
      exact ⟨0, Nat.zero_le k, by rw [hzero]; rfl, databufin,
        by rw [readHeader_done hdone, hzero]; rfl⟩
  | cons cut cuts ih =>
      by_cases hpos : requestSize > 0
      · cases k with
        | zero =>
            rw [gt_iff_lt, UInt32.lt_iff_toNat_lt, ← hcuts] at hpos
            exact absurd hpos (lt_irrefl 0)
        | succ k =>
            rw [List.take_succ_cons, List.sum_cons] at hcuts
            have hreply : (stream.take cut).length = cut :=
              List.length_take_of_le (by omega)
            have hleft : (requestSize - UInt32.ofNat cut).toNat =
                requestSize.toNat - cut := by
              rw [← hreply]
              exact toNat_sub_reply (by omega)
            obtain ⟨k', hle, hsum, databufin', hread⟩ :=
              @ih (stream.drop cut)
                (write databufin (24 - requestSize).toNat (stream.take cut))
                k (requestSize - UInt32.ofNat cut) (by omega)
                (by rw [hleft, List.length_drop]; omega)
            refine ⟨k' + 1, Nat.succ_le_succ hle, ?_, databufin', ?_⟩
            · rw [List.take_succ_cons, List.sum_cons, hsum, hleft]
              omega
            · rw [readHeader, if_pos hpos, recv, if_pos (by omega),
                Option.bind_some]
              dsimp only
              rw [hreply, hread, hleft, List.drop_drop,
                Nat.add_sub_cancel' (by omega)]
              rfl
      · have hzero : requestSize.toNat = 0 := by
          rw [gt_iff_lt, UInt32.lt_iff_toNat_lt] at hpos
          exact Nat.eq_zero_of_not_pos hpos
        exact ⟨0, Nat.zero_le k, by rw [hzero]; rfl, databufin,
          by rw [readHeader_done hpos, hzero]; rfl⟩

/-- The loop for the file ends if the replies bring enough, and only then. -/
theorem readBody_isSome_iff {size rval : ℤ} (hrval : -2147483648 ≤ rval)
    (hcuts : ∀ cut ∈ cuts, cut ≤ 25) (hstream : cuts.sum ≤ stream.length)
    (hfits : rval + cuts.sum ≤ 2147483647) :
    (readBody size cuts rval databufin written stream).isSome ↔
      size ≤ rval + cuts.sum := by
  induction cuts generalizing rval databufin written stream with
  | nil =>
      rw [readBody]
      split
      · rename_i hsize
        simp only [Option.isSome_none, Bool.false_eq_true, List.sum_nil,
          Nat.cast_zero, add_zero, false_iff]
        omega
      · rename_i hsize
        simp only [Option.isSome_some, List.sum_nil, Nat.cast_zero, add_zero,
          true_iff]
        omega
  | cons cut cuts ih =>
      rw [List.forall_mem_cons] at hcuts
      rw [List.sum_cons] at hstream hfits ⊢
      rw [Nat.cast_add] at hfits ⊢
      rw [readBody]
      split
      · rename_i hsize
        have hcut : cut ≤ (25 : UInt32).toNat := hcuts.1
        have hnext : signedInt (rval + (stream.take cut).length) =
            some (rval + cut) := by
          rw [List.length_take_of_le (by omega)]
          exact if_pos (by omega)
        rw [recv, if_pos ⟨hcut, by omega⟩, Option.bind_some]
        dsimp only
        rw [hnext, Option.bind_some, ih (by omega) hcuts.2 (by
          rw [List.length_drop]; omega) (by omega), add_assoc]
      · rename_i hsize
        simp only [Option.isSome_some, true_iff]
        omega

/-- What lies between two places with the same sum is nothing. -/
theorem forall_mem_drop {k' : ℕ} (hle : k' ≤ k)
    (hsum : (cuts.take k').sum = (cuts.take k).sum)
    (hcuts : ∀ cut ∈ cuts.drop k, cut ≤ 25) : ∀ cut ∈ cuts.drop k', cut ≤ 25 := by
  obtain ⟨between, rfl⟩ := Nat.exists_eq_add_of_le hle
  have hzero : ((cuts.drop k').take between).sum = 0 := by
    rw [List.take_add, List.sum_append] at hsum
    omega
  intro cut hcut
  rw [← List.take_append_drop between (cuts.drop k'), List.mem_append] at hcut
  rcases hcut with hcut | hcut
  · rw [List.sum_eq_zero_iff_forall_eq_nat.1 hzero cut hcut]
    exact Nat.zero_le 25
  · rw [List.drop_drop] at hcut
    exact hcuts cut hcut

/-- With replies that bring the header and then come to `cuts.sum - 24` bytes,
`ftps` finishes if it can write the file and these bytes are as many as the
header announces, and only then. -/
theorem main_isSome_iff (hname : name.length = 20)
    (hheader : (cuts.take k).sum = 24) (hcuts : ∀ cut ∈ cuts.drop k, cut ≤ 25)
    (hstream : cuts.sum ≤ 24 + body.length)
    (hfits : body.length ≤ 2147483647) :
    (main creates cuts (header n name ++ body)).isSome ↔
      ((received name).length < 20 ∧ creates (received name) = true) ∧
        24 + n.toInt32.toInt ≤ cuts.sum := by
  have hlength := @length_header n name hname
  have htwentyfour : (24 : UInt32).toNat = 24 := rfl
  obtain ⟨k', hle, hsum, databufin, hread⟩ :=
    @exists_readHeader cuts (header n name ++ body) (fun _ => 0) k 24 hheader
      (by rw [List.length_append, hlength, htwentyfour]; omega)
  obtain ⟨-, -, -, -, -, hbuffer⟩ := readHeader_spec (by decide) hread
  have hbytes : read databufin 0 24 = header n name := by
    rw [hbuffer, htwentyfour, Nat.sub_self, ← hlength, List.take_left]
    rfl
  obtain ⟨hsize, hfilename⟩ := filename_of_header hbytes
  have hsplit : (cuts.drop k').sum + 24 = cuts.sum := by
    have hboth := congrArg List.sum (List.take_append_drop k' cuts)
    rw [List.sum_append, hsum] at hboth
    omega
  have hbody := @readBody_isSome_iff (cuts.drop k') body [] databufin
    n.toInt32.toInt 0 (by decide)
    (forall_mem_drop hle (hsum.trans hheader.symm) hcuts) (by omega) (by omega)
  rw [main, hread, Option.bind_some]
  change (afterHeader creates databufin (cuts.drop k')
    ((header n name ++ body).drop 24)).isSome ↔ _
  rw [afterHeader, hfilename, hsize, ← hlength, List.drop_left]
  by_cases hshort : (received name).length < 20
  · by_cases hcreates : creates (received name) = true
    · rw [if_pos hshort, Option.bind_some, if_pos hcreates, Option.isSome_map,
        hbody, and_iff_right ⟨hshort, hcreates⟩]
      omega
    · rw [if_pos hshort, Option.bind_some, if_neg hcreates]
      simp [hcreates]
  · rw [if_neg hshort]
    simp [hshort]

end

/-- A file of 31 bytes: the last reply goes beyond it. -/
theorem main_isSome_iff_lastReply :
    (main (fun _ => true) [4, 20, 25, 0, 7]
      (header 31 (97 :: List.replicate 19 0) ++ List.replicate 40 7)).isSome :=
  (@main_isSome_iff (fun _ => true) [4, 20, 25, 0, 7] 31
    (97 :: List.replicate 19 0) (List.replicate 40 7) 2 rfl rfl (by decide)
    (by decide) (by decide)).2 ⟨⟨by decide, rfl⟩, by decide⟩

end UdpTransfer.Ftps
