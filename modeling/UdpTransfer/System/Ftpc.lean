import UdpTransfer.System.Ftps

/-!
# Sending a file

`ftpc` sends the header together with the first bytes of the file, and then the
rest of it, 1000 bytes at a time until `feof`.  Put together the datagrams are
the header and the file.  The end of a file is noticed only by a read that comes
too short, and so the last datagram is always shorter than the others.
-/

namespace UdpTransfer.Ftpc

open UdpTransfer.Bytes
open UdpTransfer.Memory
open UdpTransfer.Ftps

/-! ## Pieces of 1000 bytes -/

/-- The bytes cut every 1000, the last piece being shorter, and empty if need
be. -/
def pieces (bytes : List UInt8) : List (List UInt8) :=
  (List.range (bytes.length / 1000 + 1)).map fun i =>
    (bytes.drop (1000 * i)).take 1000

theorem pieces_short {bytes : List UInt8} (hshort : bytes.length < 1000) :
    pieces bytes = [bytes] := by
  rw [pieces, Nat.div_eq_of_lt hshort]
  simp [List.take_of_length_le hshort.le]

theorem pieces_long {bytes : List UInt8} (hlong : 1000 ≤ bytes.length) :
    pieces bytes = bytes.take 1000 :: pieces (bytes.drop 1000) := by
  have hcount : bytes.length / 1000 = (bytes.length - 1000) / 1000 + 1 := by
    omega
  rw [pieces, pieces, hcount, List.range_succ_eq_map, List.length_drop]
  simp only [List.map_cons, List.map_map, Nat.mul_zero, List.drop_zero]
  congr 1
  apply List.map_congr_left
  intro i _
  simp only [Function.comp_apply, List.drop_drop]
  congr 2
  omega

theorem flatten_pieces (bytes : List UInt8) : (pieces bytes).flatten = bytes := by
  induction hlength : bytes.length using Nat.strong_induction_on
    generalizing bytes with
  | _ length ih =>
      rcases Nat.lt_or_ge bytes.length 1000 with hshort | hlong
      · rw [pieces_short hshort, List.flatten_singleton]
      · rw [pieces_long hlong, List.flatten_cons,
          ih _ (by rw [List.length_drop]; omega) (bytes.drop 1000) rfl,
          List.take_append_drop]

theorem length_of_mem_pieces {bytes piece : List UInt8}
    (hpiece : piece ∈ pieces bytes) : piece.length ≤ 1000 := by
  obtain ⟨i, -, rfl⟩ := List.mem_map.1 hpiece
  exact List.length_take_le _ _

/-! ## The program -/

structure State where
  buf : ℕ → UInt8
  /-- The bytes of the file that are still to be read. -/
  transFile : List UInt8
  feof : Bool

namespace State

/-- `fread(buf + off, 1, count, transFile)`, which returns how many there
were. -/
def fread (s : State) (off count : ℕ) : ℕ × State :=
  let bytes := s.transFile.take count
  (bytes.length,
    { buf := write s.buf off bytes
      transFile := s.transFile.drop count
      feof := s.feof || decide (s.transFile.length < count) })

/-- One round of the loop: the datagram for `SEND`, once its bytes are read. -/
def sendBlock (s : State) : List UInt8 × State :=
  let (bytesRead, s) := s.fread 0 1000
  (Memory.read s.buf 0 bytesRead, s)

theorem sendBlock_eq (s : State) :
    s.sendBlock = (s.transFile.take 1000,
      { buf := write s.buf 0 (s.transFile.take 1000)
        transFile := s.transFile.drop 1000
        feof := s.feof || decide (s.transFile.length < 1000) }) := by
  rw [sendBlock, fread]
  simp only [read_write]

/-- `while(feof(transFile) == 0)`. -/
def sendRest (s : State) : List (List UInt8) :=
  if s.feof then
    []
  else
    s.sendBlock.1 :: s.sendBlock.2.sendRest
termination_by if s.feof then 0 else s.transFile.length + 1
decreasing_by
  rename_i hopen
  rw [if_neg hopen]
  simp only [sendBlock_eq, Bool.eq_false_iff.2 hopen, Bool.false_or,
    decide_eq_true_eq, List.length_drop]
  split <;> omega

end State

/-- The first datagram.  The name must end inside `buf`. -/
def sendHeader (fsize : UInt32) (filename transFile : List UInt8) :
    Option (List UInt8 × State) :=
  if 4 + filename.length ≤ 1000 then
    let buf := write (fun _ => 0) 0 (wordBytes (htonl fsize))
    let buf := write buf 4 filename
    let (bytesRead, s) :=
      { buf, transFile, feof := false : State }.fread 24 (1000 - 24)
    some (Memory.read s.buf 0 (bytesRead + 24), s)
  else
    none

/-- The datagrams of a file, each of which is answered before the next one. -/
def sendFile (fsize : UInt32) (filename transFile : List UInt8) :
    Option (List (List UInt8)) :=
  (sendHeader fsize filename transFile).map fun (datagram, s) =>
    datagram :: s.sendRest

def fileSize (file : List UInt8) : UInt32 := UInt32.ofNat file.length

/-- `main`, for a file that can be opened. -/
def main (filename file : List UInt8) : Option (List (List UInt8)) :=
  sendFile (fileSize file) filename file

/-! ## What is sent -/

/-- The 20 bytes of the header that hold the name. -/
def nameField (filename : List UInt8) : List UInt8 :=
  (filename ++ List.replicate 20 0).take 20

theorem length_nameField (filename : List UInt8) :
    (nameField filename).length = 20 := by
  rw [nameField, List.length_take, List.length_append, List.length_replicate]
  omega

theorem State.sendRest_eq_pieces (s : State) (hopen : s.feof = false) :
    s.sendRest = pieces s.transFile := by
  induction hlength : s.transFile.length using Nat.strong_induction_on
    generalizing s with
  | _ length ih =>
      rw [State.sendRest, if_neg (by simp [hopen]), State.sendBlock_eq]
      rcases Nat.lt_or_ge s.transFile.length 1000 with hshort | hlong
      · -- this read comes too short, and there is no further one
        rw [State.sendRest, if_pos (by simp [hshort]), pieces_short hshort,
          List.take_of_length_le hshort.le]
      · rw [pieces_long hlong, ih _ _ _ _ rfl]
        · simp only [List.length_drop]
          omega
        · simp [hopen, hlong]

theorem read_write_before {mem : ℕ → UInt8} {off off' len : ℕ}
    (src : List UInt8) (hbefore : off + len ≤ off') :
    Memory.read (write mem off' src) off len = Memory.read mem off len := by
  apply List.map_congr_left
  intro i hi
  have hlt := List.mem_range.1 hi
  rw [write, if_neg (by omega)]

/-- What was there before goes on where the bytes written end. -/
theorem read_write_take (mem : ℕ → UInt8) (off len : ℕ) (src : List UInt8) :
    Memory.read (write mem off src) off len =
      src.take len ++ Memory.read mem (off + src.length) (len - src.length) := by
  apply List.ext_getElem
  · simp only [length_read, List.length_append, List.length_take]
    omega
  intro i hi _
  rw [length_read] at hi
  simp only [Memory.read, List.getElem_map, List.getElem_range, write]
  rw [if_pos (Nat.le_add_right off i), Nat.add_sub_cancel_left]
  rcases Nat.lt_or_ge i src.length with hlt | hge
  · rw [List.getElem_append_left (by simp; omega), List.getElem_take,
      List.getElem?_eq_getElem hlt, Option.getD_some]
  · have htake : (src.take len).length = src.length := by
      rw [List.length_take]
      omega
    rw [List.getElem_append_right (by omega), List.getElem?_eq_none hge]
    simp only [List.getElem_map, List.getElem_range, htake, Option.getD_none]
    congr 1
    omega

theorem read_zero (off len : ℕ) :
    Memory.read (fun _ => (0 : UInt8)) off len = List.replicate len 0 := by
  rw [Memory.read, List.map_const', List.length_range]

/-- Size and name stand in the first 24 bytes. -/
theorem read_name (fsize : UInt32) (filename : List UInt8) :
    Memory.read (write (write (fun _ => 0) 0 (wordBytes (htonl fsize))) 4
      filename) 0 24 = header fsize (nameField filename) := by
  have hword := length_wordBytes (htonl fsize)
  have hsize : Memory.read (write (fun _ => 0) 0 (wordBytes (htonl fsize))) 0 4 =
      wordBytes (htonl fsize) := by
    rw [← hword, read_write]
  have hzero : Memory.read (write (fun _ => 0) 0 (wordBytes (htonl fsize)))
      (4 + filename.length) (20 - filename.length) =
        List.replicate (20 - filename.length) 0 := by
    rw [← read_zero (4 + filename.length)]
    apply List.map_congr_left
    intro i _
    rw [write, if_pos (Nat.zero_le _), List.getElem?_eq_none (by omega)]
    rfl
  rw [show 24 = 4 + 20 from rfl, read_add, Nat.zero_add,
    read_write_before filename (by rfl), hsize, read_write_take, hzero, header,
    nameField, List.take_append, List.take_replicate,
    Nat.min_eq_left (Nat.sub_le _ _)]

theorem sendHeader_eq {fsize : UInt32} {filename : List UInt8}
    (transFile : List UInt8) (hname : filename.length ≤ 996) :
    ∃ s, sendHeader fsize filename transFile =
        some (header fsize (nameField filename) ++ transFile.take 976, s) ∧
      s.transFile = transFile.drop 976 ∧
      s.feof = decide (transFile.length < 976) := by
  rw [sendHeader, if_pos (by omega)]
  refine ⟨_, congrArg some (Prod.ext ?_ rfl), rfl, Bool.false_or _⟩
  dsimp only [State.fread]
  rw [Nat.add_comm, read_add, Nat.zero_add, read_write,
    read_write_before _ (by rfl), read_name]

/-- What is sent are the pieces of the header and the file. -/
theorem sendFile_eq_pieces (fsize : UInt32) (filename transFile : List UInt8) :
    sendFile fsize filename transFile =
      if filename.length ≤ 996 then
        some (pieces (header fsize (nameField filename) ++ transFile))
      else
        none := by
  split
  · rename_i hname
    have hheader := @length_header fsize _ (length_nameField filename)
    obtain ⟨s, hsend, hrest, hfeof⟩ := @sendHeader_eq fsize _ transFile hname
    rw [sendFile, hsend, Option.map_some]
    congr 1
    dsimp only
    rcases Nat.lt_or_ge transFile.length 976 with hshort | hlong
    · rw [State.sendRest, if_pos (by simp [hfeof, hshort]),
        List.take_of_length_le hshort.le, pieces_short (by simp; omega)]
    · have hlength : 1000 ≤
          (header fsize (nameField filename) ++ transFile).length := by
        rw [List.length_append, hheader]
        omega
      rw [s.sendRest_eq_pieces (by simp [hfeof, hlong]), hrest,
        pieces_long hlength, List.take_append, List.drop_append,
        List.take_of_length_le (hheader.trans_le (by decide)),
        List.drop_of_length_le (hheader.trans_le (by decide)), hheader,
        List.nil_append]
  · rename_i hname
    rw [sendFile, sendHeader, if_neg (by omega), Option.map_none]

/-- Every piece but the last has 1000 bytes. -/
theorem exists_pieces (bytes : List UInt8) :
    ∃ full last, pieces bytes = full ++ [last] ∧
      (∀ piece ∈ full, piece.length = 1000) ∧
      full.length = bytes.length / 1000 ∧
      last.length = bytes.length % 1000 := by
  rw [pieces, List.range_succ, List.map_append]
  refine ⟨_, _, rfl, ?_, by simp, ?_⟩
  · intro piece hpiece
    obtain ⟨i, hi, rfl⟩ := List.mem_map.1 hpiece
    have hlt := List.mem_range.1 hi
    rw [List.length_take, List.length_drop]
    omega
  · rw [List.length_take, List.length_drop]
    omega

/-- A file is sent whole behind its header, in datagrams of 1000 bytes and one
that is shorter. -/
theorem main_eq_some (filename file : List UInt8) :
    filename.length ≤ 996 ↔ ∃ full last,
      main filename file = some (full ++ [last]) ∧
      (full ++ [last]).flatten =
        header (fileSize file) (nameField filename) ++ file ∧
      (∀ datagram ∈ full, datagram.length = 1000) ∧
      last.length = (24 + file.length) % 1000 := by
  constructor
  · intro hname
    have hheader := @length_header (fileSize file) _ (length_nameField filename)
    obtain ⟨full, last, hpieces, hfull, -, hlast⟩ := exists_pieces
      (header (fileSize file) (nameField filename) ++ file)
    rw [List.length_append, hheader] at hlast
    refine ⟨full, last, ?_, ?_, hfull, hlast⟩
    · rw [main, sendFile_eq_pieces, if_pos hname, hpieces]
    · rw [← hpieces, flatten_pieces]
  · rintro ⟨full, last, hmain, -⟩
    by_contra hname
    rw [main, sendFile_eq_pieces, if_neg hname] at hmain
    cases hmain

end UdpTransfer.Ftpc
