import UdpTransfer.Core.Bytes
import UdpTransfer.Core.Memory

/-!
# Reading a file from the stream

`ftps` asks for the 24 bytes of the header, each time for those still missing,
and then for the file, each time for 25 bytes.  A reply takes at most as many
bytes from the stream as were asked for.  `cuts` lists how many the replies
take, and there is no result while `ftps` still waits for one.
-/

namespace UdpTransfer.Ftps

open UdpTransfer.Bytes
open UdpTransfer.Memory

/-- A reply of `cut` bytes, and what it leaves of the stream. -/
def recv (requestSize : UInt32) (cut : ℕ) (stream : List UInt8) :
    Option (List UInt8 × List UInt8) :=
  if cut ≤ requestSize.toNat ∧ cut ≤ stream.length then
    some (stream.take cut, stream.drop cut)
  else
    none

/-- Reads what is missing of the header, `requestSize` bytes, into `databufin`. -/
def readHeader : (cuts : List ℕ) → (requestSize : UInt32) →
    (databufin : ℕ → UInt8) → (stream : List UInt8) →
    Option ((ℕ → UInt8) × List ℕ × List UInt8)
  | [], requestSize, databufin, stream =>
      if requestSize > 0 then none else some (databufin, [], stream)
  | cut :: cuts, requestSize, databufin, stream =>
      if requestSize > 0 then
        (recv requestSize cut stream).bind fun (reply, stream) =>
          readHeader cuts (requestSize - UInt32.ofNat reply.length)
            (write databufin (24 - requestSize).toNat reply) stream
      else
        some (databufin, cut :: cuts, stream)

/-- `ntohl(*((uint32_t *)(temp)))` as an `int`. -/
def filesize (databufin : ℕ → UInt8) : ℤ :=
  (ntohl (UInt32.ofNat (leValue (read databufin 0 4)))).toInt32.toInt

/-- The name after `strcat`, for which `filename` has 20 bytes. -/
def filename (databufin : ℕ → UInt8) : Option (List UInt8) :=
  let temp := read databufin 4 20
  let filename := "recvd/".toList.map (fun c => UInt8.ofNat c.toNat) ++
    temp.takeWhile fun byte => byte ≠ 0
  if filename.length < 20 then some filename else none

/-- Reads the file and writes it.  Every request is for 25 bytes. -/
def readBody (filesize : ℤ) : (cuts : List ℕ) → (rval : ℤ) →
    (databufin : ℕ → UInt8) → (written stream : List UInt8) →
    Option (List UInt8 × List UInt8)
  | [], rval, _, written, stream =>
      if rval < filesize then none else some (written, stream)
  | cut :: cuts, rval, databufin, written, stream =>
      if rval < filesize then
        (recv 25 cut stream).bind fun (reply, stream) =>
          let databufin := write databufin 0 reply
          let tempval := reply.length
          (signedInt (rval + tempval)).bind fun rval =>
            readBody filesize cuts rval databufin
              (written ++ read databufin 0 tempval) stream
      else
        some (written, stream)

structure Output where
  filename : List UInt8
  written : List UInt8
  /-- What is left of the stream. -/
  rest : List UInt8
  deriving DecidableEq

/-- `main` once its sockets are set up.  `creates` tells which files can be
created; without one the calls on it have no result. -/
def main (creates : List UInt8 → Bool) (cuts : List ℕ) (stream : List UInt8) :
    Option Output :=
  (readHeader cuts 24 (fun _ => 0) stream).bind
    fun (databufin, cuts, stream) =>
      (filename databufin).bind fun name =>
        if creates name then
          (readBody (filesize databufin) cuts 0 databufin [] stream).map
            fun (written, rest) =>
              { filename := name, written := written, rest := rest }
        else
          none

/-! ## The header -/

section

variable {requestSize : UInt32} {cut : ℕ} {cuts : List ℕ}
  {reply stream rest written : List UInt8} {databufin : ℕ → UInt8}

theorem recv_eq_some (hrecv : recv requestSize cut stream = some (reply, rest)) :
    cut ≤ requestSize.toNat ∧ cut ≤ stream.length ∧ reply = stream.take cut ∧
      rest = stream.drop cut := by
  rw [recv] at hrecv
  split at hrecv
  · rename_i hcut
    cases hrecv
    exact ⟨hcut.1, hcut.2, rfl, rfl⟩
  · cases hrecv

/-- The replies to a header that has been read make up exactly the header. -/
theorem readHeader_spec {databufin' : ℕ → UInt8} {cuts' : List ℕ}
    (hrequest : requestSize.toNat ≤ 24)
    (hread : readHeader cuts requestSize databufin stream =
      some (databufin', cuts', rest)) :
    ∃ k, (cuts.take k).sum = requestSize.toNat ∧ cuts' = cuts.drop k ∧
      requestSize.toNat ≤ stream.length ∧
      rest = stream.drop requestSize.toNat ∧
      read databufin' 0 24 = read databufin 0 (24 - requestSize.toNat) ++
        stream.take requestSize.toNat := by
  have hdone : ∀ {requestSize : UInt32}, ¬ requestSize > 0 →
      requestSize.toNat = 0 := by
    intro requestSize hzero
    rw [gt_iff_lt, UInt32.lt_iff_toNat_lt] at hzero
    exact Nat.eq_zero_of_not_pos hzero
  induction cuts generalizing requestSize databufin stream with
  | nil =>
      rw [readHeader] at hread
      split at hread
      · cases hread
      · rename_i hzero
        cases hread
        rw [hdone hzero]
        exact ⟨0, by simp⟩
  | cons cut cuts ih =>
      rw [readHeader] at hread
      split at hread
      · rw [Option.bind_eq_some_iff] at hread
        obtain ⟨⟨reply, mid⟩, hrecv, hread⟩ := hread
        obtain ⟨hcut, hlength, rfl, rfl⟩ := recv_eq_some hrecv
        simp only [List.length_take_of_le hlength] at hread
        have hcut' : (UInt32.ofNat cut).toNat = cut := by
          rw [UInt32.toNat_ofNat', Nat.mod_eq_of_lt (by omega)]
        have hleft : (requestSize - UInt32.ofNat cut).toNat =
            requestSize.toNat - cut := by
          rw [UInt32.toNat_sub_of_le _ _ (by
            rwa [UInt32.le_iff_toNat_le, hcut']), hcut']
        have hoff : (24 - requestSize).toNat = 24 - requestSize.toNat :=
          UInt32.toNat_sub_of_le _ _ (UInt32.le_iff_toNat_le.2 hrequest)
        obtain ⟨k, hsum, rfl, hrest, hdrop, hbuffer⟩ :=
          ih (by omega) hread
        rw [hleft, List.length_drop] at hrest
        refine ⟨k + 1, ?_, rfl, by omega, ?_, ?_⟩
        · rw [List.take_succ_cons, List.sum_cons, hsum, hleft]
          omega
        · rw [hdrop, hleft, List.drop_drop, Nat.add_sub_cancel' hcut]
        · have hplace : 24 - (requestSize.toNat - cut) =
              24 - requestSize.toNat + (stream.take cut).length := by
            rw [List.length_take_of_le hlength]
            omega
          rw [hbuffer, hleft, hoff, hplace, read_write_append, List.append_assoc,
            ← List.take_add, Nat.add_sub_cancel' hcut]
      · rename_i hzero
        cases hread
        rw [hdone hzero]
        exact ⟨0, by simp⟩

theorem filesize_eq {n : UInt32} (hheader : read databufin 0 4 =
    wordBytes (htonl n)) : filesize databufin = n.toInt32.toInt := by
  rw [filesize, hheader, ofNat_leValue_wordBytes, ntohl_htonl]

/-! ## The file -/

/-- What has been written are the bytes of the replies up to the one with which
the size is reached. -/
theorem readBody_spec {size rval : ℤ} {written' : List UInt8}
    (hread : readBody size cuts rval databufin written stream =
      some (written', rest)) :
    ∃ k, (cuts.take k).sum ≤ stream.length ∧
      written' = written ++ stream.take (cuts.take k).sum ∧
      rest = stream.drop (cuts.take k).sum ∧
      size ≤ rval + (cuts.take k).sum ∧
      ∀ j < k, rval + (cuts.take j).sum < size := by
  induction cuts generalizing rval databufin written stream with
  | nil =>
      rw [readBody] at hread
      split at hread
      · cases hread
      · rename_i hsize
        cases hread
        exact ⟨0, by simpa using hsize⟩
  | cons cut cuts ih =>
      rw [readBody] at hread
      split at hread
      · rename_i hsize
        rw [Option.bind_eq_some_iff] at hread
        obtain ⟨⟨reply, mid⟩, hrecv, hread⟩ := hread
        obtain ⟨-, hlength, rfl, rfl⟩ := recv_eq_some hrecv
        rw [Option.bind_eq_some_iff] at hread
        obtain ⟨next, hnext, hread⟩ := hread
        obtain ⟨rfl, -, -⟩ := signedInt_eq_some.1 hnext
        obtain ⟨k, hsum, rfl, rfl, hreached, hbefore⟩ := ih hread
        rw [List.length_take_of_le hlength] at hreached hbefore
        rw [List.length_drop] at hsum
        refine ⟨k + 1, ?_, ?_, ?_, ?_, ?_⟩
        · rw [List.take_succ_cons, List.sum_cons]
          omega
        · rw [read_write, List.append_assoc, ← List.take_add,
            List.take_succ_cons, List.sum_cons]
        · rw [List.drop_drop, List.take_succ_cons, List.sum_cons]
        · rw [List.take_succ_cons, List.sum_cons, Nat.cast_add]
          omega
        · intro j hj
          cases j with
          | zero => simpa using hsize
          | succ j =>
              have hj' := hbefore j (by omega)
              rw [List.take_succ_cons, List.sum_cons, Nat.cast_add]
              omega
      · rename_i hsize
        cases hread
        exact ⟨0, by simpa using hsize⟩

end

/-! ## One file -/

/-- The 24 bytes that announce a file of `n` bytes. -/
def header (n : UInt32) (name : List UInt8) : List UInt8 :=
  wordBytes (htonl n) ++ name

theorem length_header {n : UInt32} {name : List UInt8}
    (hname : name.length = 20) : (header n name).length = 24 := by
  rw [header, List.length_append, length_wordBytes, hname]

/-- The file has been written, and nothing behind it has been taken. -/
def ConsumesFile (n : UInt32) (body : List UInt8) (output : Output) : Prop :=
  output.written = body.take n.toNat ∧ output.rest = body.drop n.toNat

/-- The size comes through unless the `int` cannot hold it. -/
theorem toInt_toInt32 (n : UInt32) :
    n.toInt32.toInt = if n.toNat < 2147483648 then (n.toNat : ℤ)
      else n.toNat - 4294967296 := by
  have hlt := n.toNat_lt
  have hbits : n.toInt32.toInt = n.toBitVec.toInt := rfl
  rw [hbits, BitVec.toInt_eq_toNat_cond]
  have hnat : n.toBitVec.toNat = n.toNat := rfl
  rw [hnat]
  split <;> split <;> omega

section

variable {creates : List UInt8 → Bool} {cuts : List ℕ} {n : UInt32}
  {name body : List UInt8} {output : Output}

/-- A run that finished: `k` replies bring the header, and `m` all that has been
read.  It stops with the first that reaches the size. -/
theorem main_spec (hname : name.length = 20)
    (hmain : main creates cuts (header n name ++ body) = some output) :
    ∃ k m taken, k ≤ m ∧ (cuts.take k).sum = 24 ∧
      (cuts.take m).sum = 24 + taken ∧ taken ≤ body.length ∧
      output.written = body.take taken ∧ output.rest = body.drop taken ∧
      n.toInt32.toInt ≤ taken ∧
      ∀ j, k ≤ j → j < m →
        ((cuts.take j).sum : ℤ) < 24 + n.toInt32.toInt := by
  rw [main, Option.bind_eq_some_iff] at hmain
  obtain ⟨⟨databufin, cuts', stream⟩, hheader, hmain⟩ := hmain
  rw [Option.bind_eq_some_iff] at hmain
  obtain ⟨name', -, hmain⟩ := hmain
  split at hmain
  · rw [Option.map_eq_some_iff] at hmain
    obtain ⟨⟨written, rest⟩, hbody, rfl⟩ := hmain
    obtain ⟨k, hsum, rfl, -, rfl, hbuffer⟩ :=
      readHeader_spec (by decide) hheader
    have htwentyfour : (24 : UInt32).toNat = 24 := rfl
    have hlength := @length_header n name hname
    have htake : (header n name ++ body).take 24 = header n name := by
      rw [← hlength, List.take_left]
    have hdrop : (header n name ++ body).drop 24 = body := by
      rw [← hlength, List.drop_left]
    rw [htwentyfour] at hsum hbuffer hbody
    have hword : read databufin 0 4 = wordBytes (htonl n) := by
      have hread : read databufin 0 24 = header n name := by
        rw [hbuffer, htake]
        rfl
      rw [show 24 = 4 + 20 from rfl, read_add, header] at hread
      exact (List.append_inj hread (by simp)).1
    rw [hdrop, filesize_eq hword] at hbody
    obtain ⟨i, htaken, rfl, rfl, hreached, hbefore⟩ := readBody_spec hbody
    have hsplit : ∀ j, (cuts.take (k + j)).sum =
        24 + ((cuts.drop k).take j).sum := by
      intro j
      rw [List.take_add, List.sum_append, hsum]
    refine ⟨k, k + i, _, by omega, hsum, hsplit i, htaken, by simp, rfl,
      by omega, ?_⟩
    intro j hj hj'
    obtain ⟨t, rfl⟩ := Nat.exists_eq_add_of_le hj
    have hlt := hbefore t (by omega)
    rw [hsplit, Nat.cast_add]
    omega
  · cases hmain

theorem sum_take_le {i j : ℕ} (hij : i ≤ j) :
    (cuts.take i).sum ≤ (cuts.take j).sum := by
  obtain ⟨t, rfl⟩ := Nat.exists_eq_add_of_le hij
  rw [List.take_add, List.sum_append]
  exact Nat.le_add_right _ _

/-- No reply reaches over the end of the file. -/
theorem ConsumesFile.of_boundary (hname : name.length = 20)
    (hmain : main creates cuts (header n name ++ body) = some output)
    (hfits : n.toNat < 2147483648)
    (hend : ∃ i, (cuts.take i).sum = 24 + n.toNat) :
    ConsumesFile n body output := by
  obtain ⟨k, m, taken, hkm, hheader, htaken, -, hwritten, hrest, hreached,
    hbefore⟩ := main_spec hname hmain
  rw [toInt_toInt32, if_pos hfits] at hreached hbefore
  obtain ⟨i, hi⟩ := hend
  have hexact : taken = n.toNat := by
    rcases Nat.lt_or_ge i m with him | hmi
    · rcases Nat.lt_or_ge i k with hik | hki
      · -- an empty file: the header is all that is read
        have hempty := @sum_take_le cuts i k hik.le
        rcases Nat.lt_or_ge k m with hlt | hge
        · have := hbefore k le_rfl hlt
          omega
        · obtain rfl : k = m := by omega
          omega
      · have := hbefore i hki him
        omega
    · have := @sum_take_le cuts m i hmi
      omega
  rw [hexact] at hwritten hrest
  exact ⟨hwritten, hrest⟩

theorem ConsumesFile.boundary (hname : name.length = 20)
    (hbody : n.toNat ≤ body.length)
    (hmain : main creates cuts (header n name ++ body) = some output)
    (hfile : ConsumesFile n body output) :
    n.toNat < 2147483648 ∧ ∃ i, (cuts.take i).sum = 24 + n.toNat := by
  obtain ⟨k, m, taken, hkm, hheader, htaken, hlength, hwritten, -, hreached,
    hbefore⟩ := main_spec hname hmain
  have hexact : taken = n.toNat := by
    have hsame := congrArg List.length (hwritten.symm.trans hfile.1)
    rwa [List.length_take_of_le hlength, List.length_take_of_le hbody] at hsame
  refine ⟨?_, m, by rw [htaken, hexact]⟩
  by_contra hbig
  -- the size is negative, and nothing behind the header is read
  rw [toInt_toInt32, if_neg hbig] at hbefore
  have hlt := n.toNat_lt
  rcases Nat.lt_or_ge k m with hkm | hmk
  · have := hbefore k le_rfl hkm
    omega
  · obtain rfl : k = m := by omega
    omega

/-- A run that finished has read the file and no more if its size fits an `int`
and one of the replies ends where the file does, and only then. -/
theorem consumesFile_iff (hname : name.length = 20)
    (hbody : n.toNat ≤ body.length)
    (hmain : main creates cuts (header n name ++ body) = some output) :
    ConsumesFile n body output ↔
      n.toNat < 2147483648 ∧ ∃ i, (cuts.take i).sum = 24 + n.toNat :=
  ⟨fun hfile => hfile.boundary hname hbody hmain,
    fun hcond => ConsumesFile.of_boundary hname hmain hcond.1 hcond.2⟩

end

theorem consumesFile_twoReplies :
    ConsumesFile 2 [7, 8, 9] ⟨[114, 101, 99, 118, 100, 47, 97], [7, 8], [9]⟩ :=
  (@consumesFile_iff (fun _ => true) [4, 20, 1, 1] 2
    (97 :: List.replicate 19 0) [7, 8, 9] _ rfl (by decide) rfl).2
      ⟨by decide, 4, rfl⟩

/-- A reply that goes on behind a file of one byte is written as a whole. -/
theorem not_consumesFile :
    ¬ ∀ (creates : List UInt8 → Bool) (cuts : List ℕ) (n : UInt32)
      (name body : List UInt8) (output : Output),
      name.length = 20 → n.toNat ≤ body.length →
      main creates cuts (header n name ++ body) = some output →
      ConsumesFile n body output := by
  intro hall
  have hfile := hall (fun _ => true) [24, 2] 1 (97 :: List.replicate 19 0)
    [7, 8] ⟨[114, 101, 99, 118, 100, 47, 97], [7, 8], []⟩ rfl (by decide) rfl
  exact absurd hfile.2 (by decide)

end UdpTransfer.Ftps
