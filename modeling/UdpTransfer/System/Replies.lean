import UdpTransfer.System.Ftps

/-!
# One reply at a time

`ftps` as its peer sees it: it waits in `RECV` for so many bytes, takes a reply
and waits for the next one, until it closes the file.  Step by step it comes to
the result of its `main`, and at each place the replies so far make up the
header and what has been written.
-/

namespace UdpTransfer.Ftps

open UdpTransfer.Bytes
open UdpTransfer.Memory

/-- Where `ftps` has come to. -/
inductive Progress where
  /-- It waits in the loop for the header. -/
  | header (requestSize : UInt32) (databufin : ℕ → UInt8)
  /-- It waits in the loop for the file. -/
  | body (name : List UInt8) (size rval : ℤ) (databufin : ℕ → UInt8)
      (written : List UInt8)
  /-- It has closed the file. -/
  | closed (name written : List UInt8)

namespace Progress

/-- How many bytes it has asked for. -/
def request : Progress → Option UInt32
  | .header requestSize _ => some requestSize
  | .body _ _ _ _ _ => some 25
  | .closed _ _ => none

/-- `while (rval < filesize)`. -/
def nextBody (name : List UInt8) (size rval : ℤ) (databufin : ℕ → UInt8)
    (written : List UInt8) : Progress :=
  if rval < size then .body name size rval databufin written
  else .closed name written

/-- `while (request_size > 0)`, and what stands between the loops. -/
def nextHeader (creates : List UInt8 → Bool) (requestSize : UInt32)
    (databufin : ℕ → UInt8) : Option Progress :=
  if requestSize > 0 then
    some (.header requestSize databufin)
  else
    (filename databufin).bind fun name =>
      if creates name then
        some (nextBody name (filesize databufin) 0 databufin [])
      else
        none

/-- Before the first reply. -/
def start : Progress := .header 24 fun _ => 0

/-- Takes a reply, which is not longer than what it has asked for. -/
def step (creates : List UInt8 → Bool) : Progress → List UInt8 → Option Progress
  | .header requestSize databufin, reply =>
      if reply.length ≤ requestSize.toNat then
        nextHeader creates (requestSize - UInt32.ofNat reply.length)
          (write databufin (24 - requestSize).toNat reply)
      else
        none
  | .body name size rval databufin written, reply =>
      if reply.length ≤ 25 then
        let databufin := write databufin 0 reply
        let tempval := reply.length
        (signedInt (rval + tempval)).map fun rval =>
          nextBody name size rval databufin
            (written ++ Memory.read databufin 0 tempval)
      else
        none
  | .closed _ _, _ => none

end Progress

/-! ## The result of main -/

variable {creates : List UInt8 → Bool}

/-- The replies from here on bring the loop for the file to its end. -/
theorem readBody_of_steps {name name' : List UInt8} {size rval : ℤ}
    {databufin : ℕ → UInt8} {written written' : List UInt8}
    {replies : List (List UInt8)}
    (hsteps : replies.foldlM (Progress.step creates)
      (Progress.nextBody name size rval databufin written) =
        some (.closed name' written')) :
    name' = name ∧ readBody size (replies.map List.length) rval databufin written
      replies.flatten = some (written', []) := by
  induction replies generalizing rval databufin written with
  | nil =>
      rw [Progress.nextBody] at hsteps
      split at hsteps
      · cases hsteps
      · rename_i hsize
        cases hsteps
        exact ⟨rfl, by rw [List.map_nil, readBody, if_neg hsize]; rfl⟩
  | cons reply replies ih =>
      rw [Progress.nextBody] at hsteps
      split at hsteps
      · rename_i hsize
        obtain ⟨mid, hstep, hsteps⟩ := Option.bind_eq_some_iff.1 hsteps
        rw [Progress.step] at hstep
        split at hstep
        · rename_i hlength
          obtain ⟨next, hnext, rfl⟩ := Option.map_eq_some_iff.1 hstep
          obtain ⟨hname, hread⟩ := ih hsteps
          refine ⟨hname, ?_⟩
          rw [List.map_cons, readBody, if_pos hsize, List.flatten_cons, recv,
            if_pos ⟨hlength, by simp⟩, Option.bind_some, List.take_left,
            List.drop_left]
          simp only
          rw [hnext, Option.bind_some]
          exact hread
        · cases hstep
      · -- behind the end there is no step
        rw [List.foldlM_cons] at hsteps
        cases hsteps

/-- What `main` does behind the loop for the header. -/
def afterHeader (creates : List UInt8 → Bool) (databufin : ℕ → UInt8)
    (cuts : List ℕ) (stream : List UInt8) : Option Output :=
  (filename databufin).bind fun name =>
    if creates name then
      (readBody (filesize databufin) cuts 0 databufin [] stream).map
        fun (written, rest) =>
          { filename := name, written := written, rest := rest }
    else
      none

theorem readHeader_done {cuts : List ℕ} {requestSize : UInt32}
    (hzero : ¬ requestSize > 0) (databufin : ℕ → UInt8) (stream : List UInt8) :
    readHeader cuts requestSize databufin stream =
      some (databufin, cuts, stream) := by
  cases cuts with
  | nil => rw [readHeader, if_neg hzero]
  | cons cut cuts => rw [readHeader, if_neg hzero]

theorem afterHeader_of_steps {databufin : ℕ → UInt8} {requestSize : UInt32}
    {progress : Progress} {name written : List UInt8}
    {replies : List (List UInt8)} (hzero : ¬ requestSize > 0)
    (hnext : Progress.nextHeader creates requestSize databufin = some progress)
    (hsteps : replies.foldlM (Progress.step creates) progress =
      some (.closed name written)) :
    afterHeader creates databufin (replies.map List.length) replies.flatten =
      some ⟨name, written, []⟩ := by
  rw [Progress.nextHeader, if_neg hzero] at hnext
  obtain ⟨name', hname', hnext⟩ := Option.bind_eq_some_iff.1 hnext
  split at hnext
  · rename_i hcreates
    obtain rfl := Option.some.inj hnext
    obtain ⟨rfl, hread⟩ := readBody_of_steps hsteps
    rw [afterHeader, hname', Option.bind_some, if_pos hcreates, hread]
    rfl
  · cases hnext

/-- Replies that lead to the end lead through the header. -/
theorem main_of_header {requestSize : UInt32} {databufin : ℕ → UInt8}
    {progress : Progress} {name written : List UInt8}
    {replies : List (List UInt8)}
    (hnext : Progress.nextHeader creates requestSize databufin = some progress)
    (hsteps : replies.foldlM (Progress.step creates) progress =
      some (.closed name written)) :
    ((readHeader (replies.map List.length) requestSize databufin
        replies.flatten).bind fun (databufin, cuts, stream) =>
      afterHeader creates databufin cuts stream) = some ⟨name, written, []⟩ := by
  by_cases hpos : requestSize > 0
  · induction replies generalizing requestSize databufin progress with
    | nil =>
        rw [Progress.nextHeader, if_pos hpos] at hnext
        cases hnext
        cases hsteps
    | cons reply replies ih =>
        rw [Progress.nextHeader, if_pos hpos] at hnext
        cases hnext
        obtain ⟨mid, hstep, hsteps⟩ := Option.bind_eq_some_iff.1 hsteps
        rw [Progress.step] at hstep
        split at hstep
        · rename_i hlength
          rw [List.map_cons, readHeader, if_pos hpos, List.flatten_cons, recv,
            if_pos ⟨hlength, by simp⟩, Option.bind_some, List.take_left,
            List.drop_left]
          dsimp only
          by_cases hmore : requestSize - UInt32.ofNat reply.length > 0
          · exact ih hstep hsteps hmore
          · rw [readHeader_done hmore, Option.bind_some]
            exact afterHeader_of_steps hmore hstep hsteps
        · cases hstep
  · rw [readHeader_done hpos, Option.bind_some]
    exact afterHeader_of_steps hpos hnext hsteps

/-- Taken one by one, the replies come to the result of `main`. -/
theorem main_of_steps {name written : List UInt8} {replies : List (List UInt8)}
    (hsteps : replies.foldlM (Progress.step creates) Progress.start =
      some (.closed name written)) :
    main creates (replies.map List.length) replies.flatten =
      some ⟨name, written, []⟩ :=
  main_of_header (if_pos (by decide)) hsteps

/-! ## The bytes so far -/

/-- The bytes of `recvd/`. -/
def folder : List UInt8 := [114, 101, 99, 118, 100, 47]

/-- The name under which a file is written, from the name in the header. -/
def received (field : List UInt8) : List UInt8 :=
  folder ++ field.takeWhile fun byte => byte ≠ 0

/-- The 24 bytes name a file that can be created, and its size. -/
def Announces (creates : List UInt8 → Bool) (head name : List UInt8) (size : ℤ) :
    Prop :=
  ∃ databufin, Memory.read databufin 0 24 = head ∧
    filename databufin = some name ∧ filesize databufin = size ∧
    creates name = true

/-- `out` is all that has come in replies. -/
inductive Progress.Holds (creates : List UInt8 → Bool) (out : List UInt8) :
    Progress → Prop where
  | header (requestSize : UInt32) (databufin : ℕ → UInt8)
      (hpos : 0 < requestSize.toNat)
      (hlength : out.length + requestSize.toNat = 24)
      (hread : Memory.read databufin 0 out.length = out) :
      Holds creates out (.header requestSize databufin)
  | body (name : List UInt8) (size : ℤ) (databufin : ℕ → UInt8)
      (head written : List UInt8) (hout : out = head ++ written)
      (hhead : head.length = 24) (hname : Announces creates head name size)
      (hsize : (written.length : ℤ) < size) :
      Holds creates out (.body name size written.length databufin written)
  | closed (name : List UInt8) (size : ℤ) (head written : List UInt8)
      (hout : out = head ++ written) (hhead : head.length = 24)
      (hname : Announces creates head name size)
      (hsize : size ≤ written.length) :
      Holds creates out (.closed name written)

theorem Progress.holds_start : Holds creates [] .start :=
  .header 24 _ (by decide) rfl rfl

theorem Progress.holds_nextBody {out head written name : List UInt8} {size : ℤ}
    (databufin : ℕ → UInt8) (hout : out = head ++ written)
    (hhead : head.length = 24) (hname : Announces creates head name size) :
    Holds creates out (nextBody name size written.length databufin written) := by
  rw [nextBody]
  split
  · rename_i hsize
    exact .body name size databufin head written hout hhead hname hsize
  · rename_i hsize
    exact .closed name size head written hout hhead hname (not_lt.1 hsize)

theorem Progress.holds_nextHeader {out : List UInt8} {requestSize : UInt32}
    {databufin : ℕ → UInt8} {progress : Progress}
    (hlength : out.length + requestSize.toNat = 24)
    (hread : Memory.read databufin 0 out.length = out)
    (hnext : nextHeader creates requestSize databufin = some progress) :
    Holds creates out progress := by
  rw [nextHeader] at hnext
  split at hnext
  · rename_i hmore
    rw [gt_iff_lt, UInt32.lt_iff_toNat_lt] at hmore
    obtain rfl := Option.some.inj hnext
    exact .header _ _ hmore hlength hread
  · rename_i hdone
    have hwhole : out.length = 24 := by
      have hzero : requestSize.toNat = 0 := by
        rw [gt_iff_lt, UInt32.lt_iff_toNat_lt] at hdone
        exact Nat.eq_zero_of_not_pos hdone
      omega
    obtain ⟨name, hname, hnext⟩ := Option.bind_eq_some_iff.1 hnext
    split at hnext
    · rename_i hcreates
      obtain rfl := Option.some.inj hnext
      rw [hwhole] at hread
      have hannounces : Announces creates out name (filesize databufin) :=
        ⟨databufin, hread, hname, rfl, hcreates⟩
      have hbody := holds_nextBody databufin (List.append_nil out).symm hwhole
        hannounces
      rwa [List.length_nil, Nat.cast_zero] at hbody
    · cases hnext

/-- What is still missing of the header after a reply. -/
theorem toNat_sub_reply {requestSize : UInt32} {reply : List UInt8}
    (hreply : reply.length ≤ requestSize.toNat) :
    (requestSize - UInt32.ofNat reply.length).toNat =
      requestSize.toNat - reply.length := by
  have hcut : (UInt32.ofNat reply.length).toNat = reply.length := by
    have hlt := requestSize.toNat_lt
    rw [UInt32.toNat_ofNat', Nat.mod_eq_of_lt (by omega)]
  rw [UInt32.toNat_sub_of_le _ _ (by rwa [UInt32.le_iff_toNat_le, hcut]), hcut]

/-- The reply is written behind the bytes of the header that are there. -/
theorem read_header_reply {requestSize : UInt32} {databufin : ℕ → UInt8}
    {out reply : List UInt8} (hlength : out.length + requestSize.toNat = 24)
    (hread : Memory.read databufin 0 out.length = out) :
    Memory.read (write databufin (24 - requestSize).toNat reply) 0
      (out ++ reply).length = out ++ reply := by
  have hle : requestSize ≤ 24 := UInt32.le_iff_toNat_le.2 (by
    rw [show (24 : UInt32).toNat = 24 from rfl]; omega)
  have hoff : (24 - requestSize).toNat = out.length := by
    rw [UInt32.toNat_sub_of_le _ _ hle, show (24 : UInt32).toNat = 24 from rfl]
    omega
  rw [hoff, List.length_append, read_write_append, hread]

theorem Progress.Holds.step {out reply : List UInt8} {progress next : Progress}
    (hholds : Holds creates out progress)
    (hstep : progress.step creates reply = some next) :
    Holds creates (out ++ reply) next := by
  cases hholds with
  | header requestSize databufin hpos hlength hread =>
      rw [Progress.step] at hstep
      split at hstep
      · rename_i hreply
        refine holds_nextHeader ?_ (read_header_reply hlength hread) hstep
        rw [List.length_append, toNat_sub_reply hreply]
        omega
      · cases hstep
  | body name size databufin head written hout hhead hname hsize =>
      rw [Progress.step] at hstep
      split at hstep
      · obtain ⟨rval, hrval, rfl⟩ := Option.map_eq_some_iff.1 hstep
        obtain ⟨rfl, -, -⟩ := signedInt_eq_some.1 hrval
        rw [read_write, ← Nat.cast_add, ← List.length_append]
        exact holds_nextBody _ (by rw [hout, List.append_assoc]) hhead hname
      · cases hstep
  | closed name size head written hout hhead hname hsize => cases hstep

theorem filename_of_header {databufin : ℕ → UInt8} {n : UInt32}
    {field : List UInt8}
    (hread : Memory.read databufin 0 24 = Ftps.header n field) :
    filesize databufin = n.toInt32.toInt ∧ filename databufin =
      if (received field).length < 20 then some (received field) else none := by
  have hword := length_wordBytes (htonl n)
  rw [Ftps.header, show 24 = 4 + 20 from rfl, read_add, Nat.zero_add] at hread
  obtain ⟨hsize, htemp⟩ := List.append_inj hread (by simp)
  refine ⟨filesize_eq hsize, ?_⟩
  rw [filename, htemp]
  rfl

/-- The first 24 bytes of a stream that begins with a header are the header. -/
theorem Announces.of_header {head name field : List UInt8} {size : ℤ}
    {n : UInt32} (hannounces : Announces creates head name size)
    (hhead : head = header n field) :
    size = n.toInt32.toInt ∧ name = received field ∧ name.length < 20 := by
  obtain ⟨databufin, hread, hname, rfl, -⟩ := hannounces
  obtain ⟨hsize, hfilename⟩ := filename_of_header (hread.trans hhead)
  rw [hfilename] at hname
  split at hname
  · rename_i hlength
    obtain rfl := Option.some.inj hname
    exact ⟨hsize, rfl, hlength⟩
  · cases hname

/-- `ftps` takes what it is given of a file that it can write. -/
theorem Progress.Holds.exists_step {out reply field body : List UInt8}
    {n : UInt32} {progress : Progress} {size : UInt32}
    (hholds : Holds creates out progress)
    (hrequest : progress.request = some size)
    (hreply : reply.length ≤ size.toNat)
    (hfront : out ++ reply <+: Ftps.header n field ++ body)
    (hfield : field.length = 20) (hsize : body.length ≤ 2147483647)
    (hname : (received field).length < 20)
    (hcreates : creates (received field) = true) :
    ∃ next, progress.step creates reply = some next := by
  cases hholds with
  | header requestSize databufin hpos hlength hread =>
      cases hrequest
      rw [Progress.step, if_pos hreply, nextHeader]
      split
      · exact ⟨_, rfl⟩
      · rename_i hdone
        rw [gt_iff_lt, UInt32.lt_iff_toNat_lt, toNat_sub_reply hreply] at hdone
        have hzero : (0 : UInt32).toNat = 0 := rfl
        have hwhole : (out ++ reply).length = 24 := by
          rw [List.length_append]
          omega
        have hhead := List.prefix_of_prefix_length_le hfront
          (List.prefix_append (Ftps.header n field) body)
          (hwhole.trans (length_header hfield).symm).le
        have hbytes := hhead.eq_of_length
          (hwhole.trans (length_header hfield).symm)
        have hbuffer := @read_header_reply _ _ _ reply hlength hread
        rw [hwhole, hbytes] at hbuffer
        rw [(filename_of_header hbuffer).2, if_pos hname, Option.bind_some,
          if_pos hcreates]
        exact ⟨_, rfl⟩
  | body name size' databufin head written hout hhead hannounces hmore =>
      cases hrequest
      have hlength := hfront.length_le
      rw [List.length_append, List.length_append, hout, List.length_append,
        length_header hfield] at hlength
      have hreply : reply.length ≤ 25 := hreply
      rw [Progress.step, if_pos hreply]
      dsimp only
      rw [signedInt, if_pos (by omega)]
      exact ⟨_, rfl⟩
  | closed name size' head written hout hhead hannounces hreached =>
      cases hrequest

end UdpTransfer.Ftps
