import UdpTransfer.Core.Register
import UdpTransfer.Wire.Garbled

/-!
# The errors that the checksum finds

The table of `crc32.c` holds what the register of the reflected polynomial
does with eight bits, so the checksum is that of the bits of the buffer one by
one.  With this the errors in a full packet are followed to the calls of
`addData`: alterations within 32 consecutive bits, and alterations of up to
three bits anywhere.
-/

namespace UdpTransfer.Wire

open UdpTransfer.Bytes
open UdpTransfer.Register

/-- The bits of a byte, the lowest first. -/
def byteBits (byte : UInt8) : List Bool :=
  (List.range 8).map byte.toNat.testBit

def bitsOf (bytes : List UInt8) : List Bool := bytes.flatMap byteBits

/-- The polynomial of the table, without its highest coefficient and with the
next one lowest. -/
def polynomial : BitVec 32 := 0xEDB88320

theorem length_byteBits (byte : UInt8) : (byteBits byte).length = 8 := by
  rw [byteBits, List.length_map, List.length_range]

@[simp]
theorem length_bitsOf (bytes : List UInt8) :
    (bitsOf bytes).length = 8 * bytes.length := by
  induction bytes with
  | nil => rfl
  | cons byte bytes ih =>
      rw [bitsOf, List.flatMap_cons, List.length_append, length_byteBits]
      change 8 + (bitsOf bytes).length = _
      rw [ih, List.length_cons]
      omega

theorem bitsOf_append (bytes bytes' : List UInt8) :
    bitsOf (bytes ++ bytes') = bitsOf bytes ++ bitsOf bytes' :=
  List.flatMap_append

theorem bitsOf_take (n : ℕ) (bytes : List UInt8) :
    bitsOf (bytes.take n) = (bitsOf bytes).take (8 * n) := by
  rcases le_total n bytes.length with hle | hle
  · conv_rhs => rw [← List.take_append_drop n bytes, bitsOf_append]
    rw [List.take_left']
    rw [length_bitsOf, List.length_take, Nat.min_eq_left hle]
  · rw [List.take_of_length_le hle, List.take_of_length_le]
    rw [length_bitsOf]
    omega

theorem bitsOf_drop (n : ℕ) (bytes : List UInt8) :
    bitsOf (bytes.drop n) = (bitsOf bytes).drop (8 * n) := by
  rcases le_total n bytes.length with hle | hle
  · conv_rhs => rw [← List.take_append_drop n bytes, bitsOf_append]
    rw [List.drop_left']
    rw [length_bitsOf, List.length_take, Nat.min_eq_left hle]
  · rw [List.drop_eq_nil_of_le hle, List.drop_eq_nil_of_le]
    · rfl
    · rw [length_bitsOf]
      omega

theorem byteBits_injective : Function.Injective byteBits := by
  intro byte byte' heq
  apply UInt8.toNat_inj.mp
  apply Nat.eq_of_testBit_eq
  intro i
  by_cases hi : i < 8
  · have hbit := congrArg (fun bits => bits[i]?) heq
    simpa [byteBits, hi] using hbit
  · have hbound : ∀ byte : UInt8, byte.toNat.testBit i = false := by
      intro byte
      apply Nat.testBit_lt_two_pow
      exact lt_of_lt_of_le byte.toNat_lt (Nat.pow_le_pow_right two_pos (by omega))
    rw [hbound, hbound]

theorem bitsOf_injective {bytes bytes' : List UInt8}
    (heq : bitsOf bytes = bitsOf bytes') : bytes = bytes' := by
  have hlength := congrArg List.length heq
  rw [length_bitsOf, length_bitsOf] at hlength
  induction bytes generalizing bytes' with
  | nil =>
      cases bytes' with
      | nil => rfl
      | cons byte' bytes' => simp at hlength
  | cons byte bytes ih =>
      cases bytes' with
      | nil => simp at hlength
      | cons byte' bytes' =>
          obtain ⟨hhead, htail⟩ := List.append_inj
            (show byteBits byte ++ bitsOf bytes =
              byteBits byte' ++ bitsOf bytes' from heq)
            (by rw [length_byteBits, length_byteBits])
          simp only [List.length_cons] at hlength
          rw [byteBits_injective hhead, ih htail (by omega)]

/-! ## The table -/

/-- Each word of the table is its index, clocked eight times. -/
theorem crc32Tab_eq {i : ℕ} (hi : i < 256) :
    (crc32Tab.getD i 0).toBitVec = (clock polynomial)^[8] (BitVec.ofNat 32 i) := by
  have hall : (List.range 256).all (fun i =>
      (crc32Tab.getD i 0).toBitVec ==
        (clock polynomial)^[8] (BitVec.ofNat 32 i)) = true := by
    decide +kernel
  exact eq_of_beq (List.all_eq_true.mp hall i (List.mem_range.mpr hi))

theorem pack_byteBits (byte : UInt8) :
    pack (byteBits byte) = byte.toUInt32.toBitVec := by
  apply BitVec.eq_of_getLsbD_eq
  intro i hi
  have hbit : byte.toUInt32.toBitVec.getLsbD i = byte.toNat.testBit i := by
    change byte.toUInt32.toNat.testBit i = _
    rw [UInt8.toNat_toUInt32]
  rw [getLsbD_pack _ hi, hbit, byteBits, List.getD_eq_getElem?_getD]
  by_cases hin : i < 8
  · simp [hin]
  · rw [Nat.testBit_lt_two_pow (lt_of_lt_of_le byte.toNat_lt
      (Nat.pow_le_pow_right two_pos (not_lt.mp hin)))]
    simp [hin]

theorem toBitVec_crcStep (crc : UInt32) (byte : UInt8) :
    (crcStep crc byte).toBitVec =
      serial polynomial crc.toBitVec (byteBits byte) := by
  have hlength : (byteBits byte).length ≤ 32 := by
    rw [length_byteBits]
    decide
  have hindex : BitVec.ofNat 32 (crcIndex crc byte) =
      (crc ^^^ byte.toUInt32).toBitVec &&& BitVec.ofNat 32 (2 ^ 8 - 1) :=
    BitVec.ofNat_toNat ..
  have hout : byte.toUInt32.toBitVec >>> 8 = 0#32 := by
    apply BitVec.eq_of_toNat_eq
    rw [BitVec.toNat_ushiftRight]
    change byte.toUInt32.toNat >>> 8 = 0
    rw [UInt8.toNat_toUInt32]
    exact Nat.shiftRight_eq_zero _ _ byte.toNat_lt
  calc (crcStep crc byte).toBitVec
      = (crc32Tab.getD (crcIndex crc byte) 0).toBitVec ^^^
          crc.toBitVec >>> 8 := rfl
    _ = (clock polynomial)^[8]
          ((crc ^^^ byte.toUInt32).toBitVec &&& BitVec.ofNat 32 (2 ^ 8 - 1)) ^^^
          crc.toBitVec >>> 8 := by
        rw [crc32Tab_eq (crcIndex_lt crc byte), hindex]
    _ = (clock polynomial)^[8] (crc ^^^ byte.toUInt32).toBitVec := by
        rw [iterate_clock_eq polynomial 8 (crc ^^^ byte.toUInt32).toBitVec,
          UInt32.toBitVec_xor, BitVec.ushiftRight_xor_distrib, hout,
          BitVec.xor_zero]
    _ = serial polynomial crc.toBitVec (byteBits byte) := by
        rw [serial_eq polynomial _ hlength, length_byteBits, pack_byteBits,
          UInt32.toBitVec_xor]

/-- The loop of `crc32` is the register, eight bits at a time. -/
theorem toBitVec_foldl_crcStep (crc : UInt32) (buf : List UInt8) :
    (buf.foldl crcStep crc).toBitVec =
      serial polynomial crc.toBitVec (bitsOf buf) := by
  induction buf generalizing crc with
  | nil => rfl
  | cons byte buf ih =>
      rw [List.foldl_cons, ih, toBitVec_crcStep, ← serial_append]
      rfl

/-- The checksum of every buffer, from every seed, is the one of its bits. -/
theorem toBitVec_crc32 (crc : UInt32) (buf : List UInt8) :
    (crc32 crc buf).toBitVec =
      ~~~ serial polynomial (~~~ crc.toBitVec) (bitsOf buf) := by
  have hnot : ∀ word : UInt32,
      (word ^^^ 0xFFFFFFFF).toBitVec = ~~~ word.toBitVec := by
    intro word
    rw [UInt32.toBitVec_xor]
    exact BitVec.xor_allOnes
  rw [crc32_eq, hnot, toBitVec_foldl_crcStep, hnot]

/-- The checksum without a table: eight shifts for each byte. -/
def crc32Plain (crc : UInt32) (buf : List UInt8) : UInt32 :=
  let shift (crc : UInt32) : UInt32 :=
    if crc &&& 1 = 1 then (crc >>> 1) ^^^ 0xEDB88320 else crc >>> 1
  let update (crc : UInt32) (byte : UInt8) : UInt32 :=
    shift^[8] (crc ^^^ byte.toUInt32)
  buf.foldl update (crc ^^^ 0xFFFFFFFF) ^^^ 0xFFFFFFFF

/-- The table saves the shifts and changes nothing else. -/
theorem crc32_eq_crc32Plain (crc : UInt32) (buf : List UInt8) :
    crc32 crc buf = crc32Plain crc buf := by
  let shift (crc : UInt32) : UInt32 :=
    if crc &&& 1 = 1 then (crc >>> 1) ^^^ 0xEDB88320 else crc >>> 1
  have hshift : ∀ word, (shift word).toBitVec = clock polynomial word.toBitVec := by
    intro word
    have hlow : word &&& 1 = 1 ↔ word.toBitVec.getLsbD 0 = true := by
      rw [← UInt32.toNat_inj, UInt32.toNat_and, BitVec.getLsbD,
        Nat.testBit_zero, decide_eq_true_eq]
      exact iff_of_eq (congrArg (· = 1) (Nat.and_one_is_mod word.toNat))
    unfold clock
    by_cases hbit : word &&& 1 = 1
    · rw [if_pos (hlow.mp hbit)]
      exact congrArg UInt32.toBitVec (if_pos hbit)
    · rw [if_neg fun hset => hbit (hlow.mpr hset)]
      exact congrArg UInt32.toBitVec (if_neg hbit)
  have hshifts : ∀ n word, (shift^[n] word).toBitVec =
      (clock polynomial)^[n] word.toBitVec := by
    intro n
    induction n with
    | zero => exact fun word => rfl
    | succ n ih =>
        intro word
        rw [Function.iterate_succ_apply, ih, hshift]
        rfl
  have hstep : crcStep = fun crc byte => shift^[8] (crc ^^^ byte.toUInt32) := by
    funext crc byte
    apply UInt32.toBitVec_inj.mp
    rw [toBitVec_crcStep, hshifts, UInt32.toBitVec_xor, serial_eq,
      length_byteBits, pack_byteBits]
    rw [length_byteBits]
    decide
  rw [crc32_eq, hstep]
  rfl

theorem apart_polynomial : Apart polynomial 8032 :=
  apart_of_distinct (d := 32) polynomial (by decide) (by decide +kernel)

/-! ## Full packets -/

/-- What the checksum says something about: itself and the payload. -/
def covered (bytes : List UInt8) : List UInt8 :=
  (bytes.drop 16).take 4 ++ bytes.drop 24

theorem crc32_frame (remote : SockAddr) (d : Datagram) :
    ((frame remote d).drop 16).take 4 = wordBytes d.crc32 := by
  have hremote : remote.toList.length = 16 := remote.toList_length
  rw [frame, List.append_assoc, List.append_assoc, List.drop_left' hremote,
    List.take_left' (length_wordBytes _)]

theorem payload_frame (remote : SockAddr) (d : Datagram) :
    (frame remote d).drop 24 = d.payload := by
  have hremote : remote.toList.length = 16 := remote.toList_length
  rw [frame, List.drop_left']
  rw [List.length_append, List.length_append, length_wordBytes,
    length_wordBytes, hremote]

theorem covered_frame (remote : SockAddr) (d : Datagram) :
    covered (frame remote d) = wordBytes d.crc32 ++ d.payload := by
  rw [covered, crc32_frame, payload_frame]

/-- Any 1024 bytes are a full packet. -/
theorem exists_frame {bytes : List UInt8} (hlength : bytes.length = 1024) :
    ∃ (remote : SockAddr) (d : Datagram), d.payload.length = 1000 ∧
      bytes = frame remote d := by
  refine ⟨⟨bytes.take 16, by rw [List.length_take, hlength]; rfl⟩,
    { crc32 := UInt32.ofNat (leValue ((bytes.drop 16).take 4))
      packnum := UInt32.ofNat (leValue ((bytes.drop 20).take 4))
      payload := bytes.drop 24 }, ?_, ?_⟩
  · rw [List.length_drop, hlength]
  · have hcrc : ((bytes.drop 16).take 4).length = 4 := by
      rw [List.length_take, List.length_drop, hlength]
      rfl
    have hpacknum : ((bytes.drop 20).take 4).length = 4 := by
      rw [List.length_take, List.length_drop, hlength]
      rfl
    have htake : bytes.take 16 ++ (bytes.drop 16).take 4 ++
        (bytes.drop 20).take 4 = bytes.take 24 := by
      rw [← List.take_add, ← List.take_add]
    change bytes = bytes.take 16 ++ wordBytes _ ++ wordBytes _ ++ bytes.drop 24
    rw [wordBytes_leValue hcrc, wordBytes_leValue hpacknum, htake,
      List.take_append_drop]

theorem rejects_frame_iff (memory : ℤ → UInt8) (buffer tempbuf : ℤ)
    (remote : SockAddr) {d : Datagram} (hpayload : d.payload.length = 1000) :
    rejects (remoteisset memory buffer tempbuf (frame remote d)) ↔
      crc32 crcpoly d.payload ≠ d.crc32 := by
  rw [rejects_iff, remoteisset_full memory buffer tempbuf remote hpayload]
  constructor
  · intro hcalls hcrc
    rw [if_pos hcrc] at hcalls
    exact List.cons_ne_nil _ _ hcalls
  · intro hcrc
    rw [if_neg hcrc]

theorem testBit_leBytes (len value : ℕ) {i : ℕ} (hi : i < 8 * len) :
    (bitsOf (leBytes len value)).getD i false = value.testBit i := by
  induction len generalizing value i with
  | zero => omega
  | succ len ih =>
      rw [leBytes]
      change (byteBits (UInt8.ofNat value) ++
        bitsOf (leBytes len (value / 256))).getD i false = _
      by_cases hin : i < 8
      · rw [List.getD_append _ _ _ _ (by rwa [length_byteBits]), byteBits,
          List.getD_eq_getElem?_getD]
        simp [hin, UInt8.toNat_ofNat', Nat.testBit_mod_two_pow (j := 8)]
      · rw [List.getD_append_right _ _ _ _ (by rw [length_byteBits]; omega),
          length_byteBits, ih _ (by omega)]
        have hdiv := Nat.testBit_div_two_pow (n := 8) value (i - 8)
        rwa [Nat.sub_add_cancel (not_lt.mp hin)] at hdiv

theorem pack_wordBytes (word : UInt32) :
    pack (bitsOf (wordBytes word)) = word.toBitVec := by
  apply BitVec.eq_of_getLsbD_eq
  intro i hi
  rw [getLsbD_pack _ hi, wordBytes, testBit_leBytes _ _ (by omega)]
  rfl

/-- Payload and checksum of an accepted packet always leave the register the
same. -/
theorem serial_of_accepted {d : Datagram}
    (hcrc : crc32 crcpoly d.payload = d.crc32) :
    serial polynomial (~~~ crcpoly.toBitVec)
        (bitsOf d.payload ++ bitsOf (wordBytes d.crc32)) =
      (clock polynomial)^[32] (BitVec.allOnes 32) := by
  have hlength : (bitsOf (wordBytes d.crc32)).length = 32 := by
    rw [length_bitsOf, length_wordBytes]
  rw [serial_append, serial_eq polynomial _ hlength.le, hlength, pack_wordBytes,
    ← hcrc, toBitVec_crc32]
  generalize serial polynomial _ (bitsOf d.payload) = x
  rw [← BitVec.xor_allOnes, ← BitVec.xor_assoc, BitVec.xor_self,
    BitVec.zero_xor]

section Window

variable {A : Type*} {front burst burst' : List A} (back : List A) {n : ℕ}

theorem take_window (hn : n ≤ front.length) :
    (front ++ burst ++ back).take n = (front ++ burst' ++ back).take n := by
  rw [List.append_assoc, List.append_assoc,
    List.take_append_of_le_length hn, List.take_append_of_le_length hn]

theorem drop_window (hn : n ≤ front.length + burst.length) :
    (front ++ burst ++ back).drop n =
      front.drop n ++ burst.drop (n - front.length) ++ back := by
  rw [List.drop_append_of_le_length (by rwa [List.length_append]),
    List.drop_append]

theorem drop_behind_window (hsame : burst.length = burst'.length)
    (hn : front.length + burst.length ≤ n) :
    (front ++ burst ++ back).drop n = (front ++ burst' ++ back).drop n := by
  have hdrop : ∀ middle : List A, middle.length = burst'.length →
      (front ++ middle ++ back).drop n =
        back.drop (n - (front.length + burst'.length)) := by
    intro middle hmiddle
    rw [List.drop_append, List.drop_eq_nil_of_le, List.nil_append,
      List.length_append, hmiddle]
    rw [List.length_append]
    omega
  rw [hdrop burst hsame, hdrop burst' rfl]

end Window

/-- A burst that reaches into the payload does not reach the checksum, and
the payload no longer fits it. -/
theorem burst_crc32_ne {remote remote' : SockAddr} {d d' : Datagram}
    {front burst burst' back : List Bool}
    (hcrc : crc32 crcpoly d.payload = d.crc32)
    (hsent : bitsOf (frame remote d) = front ++ burst ++ back)
    (hreceived : bitsOf (frame remote' d') = front ++ burst' ++ back)
    (hlength : burst.length ≤ 32) (hsame : burst.length = burst'.length)
    (hdata : d'.payload ≠ d.payload) : crc32 crcpoly d'.payload ≠ d'.crc32 := by
  have hbits : bitsOf d.payload = (front ++ burst ++ back).drop 192 := by
    rw [← hsent, ← payload_frame remote d, bitsOf_drop]
  have hbits' : bitsOf d'.payload = (front ++ burst' ++ back).drop 192 := by
    rw [← hreceived, ← payload_frame remote' d', bitsOf_drop]
  have hreach : 192 < front.length + burst.length := by
    by_contra hle
    apply hdata
    apply bitsOf_injective
    rw [hbits, hbits', drop_behind_window back hsame (not_lt.mp hle)]
  have hword : d'.crc32 = crc32 crcpoly d.payload := by
    have htake : (frame remote' d').take 20 = (frame remote d).take 20 := by
      apply bitsOf_injective
      rw [bitsOf_take, bitsOf_take, hsent, hreceived,
        take_window back (by omega)]
    have hbytes := congrArg (List.drop 16) htake
    rw [List.drop_take, List.drop_take] at hbytes
    have hwords := (crc32_frame remote' d').symm.trans
      (hbytes.trans (crc32_frame remote d))
    rw [← ofNat_leValue_wordBytes d'.crc32, hwords, ofNat_leValue_wordBytes,
      hcrc]
  have hburst : burst'.drop (192 - front.length) ≠
      burst.drop (192 - front.length) := by
    intro heq
    apply hdata
    apply bitsOf_injective
    rw [hbits, hbits', drop_window back (by omega), heq,
      drop_window back (by omega)]
  rw [hword]
  intro hcrc'
  have hserial := congrArg UInt32.toBitVec hcrc'
  rw [toBitVec_crc32, toBitVec_crc32, BitVec.not_inj, hbits, hbits',
    drop_window back (by omega), drop_window back (by omega)] at hserial
  refine serial_ne_of_burst (by decide) _ _ _ ?_ ?_ hburst hserial
  · rw [List.length_drop]
    omega
  · rw [List.length_drop, List.length_drop, hsame]

theorem length_eq_of_burst {remote remote' : SockAddr} {d d' : Datagram}
    {front burst burst' back : List Bool} (hd : d.payload.length = 1000)
    (hd' : d'.payload.length = 1000)
    (hsent : bitsOf (frame remote d) = front ++ burst ++ back)
    (hreceived : bitsOf (frame remote' d') = front ++ burst' ++ back) :
    burst.length = burst'.length := by
  have hsent := congrArg List.length hsent
  have hreceived := congrArg List.length hreceived
  rw [length_bitsOf, length_frame, hd, List.length_append,
    List.length_append] at hsent
  rw [length_bitsOf, length_frame, hd', List.length_append,
    List.length_append] at hreceived
  omega

/-- A burst in the checksum or the payload leaves two that do not fit. -/
theorem crc32_ne_of_burst {remote remote' : SockAddr} {d d' : Datagram}
    {front burst burst' back : List Bool} (hd : d.payload.length = 1000)
    (hd' : d'.payload.length = 1000) (hcrc : crc32 crcpoly d.payload = d.crc32)
    (hsent : bitsOf (frame remote d) = front ++ burst ++ back)
    (hreceived : bitsOf (frame remote' d') = front ++ burst' ++ back)
    (hlength : burst.length ≤ 32)
    (hcovered : covered (frame remote' d') ≠ covered (frame remote d)) :
    crc32 crcpoly d'.payload ≠ d'.crc32 := by
  intro hcrc'
  have hdata : d'.payload ≠ d.payload := by
    intro hdata
    apply hcovered
    rw [covered_frame, covered_frame, ← hcrc', ← hcrc, hdata]
  exact burst_crc32_ne hcrc hsent hreceived hlength
    (length_eq_of_burst hd hd' hsent hreceived) hdata hcrc'

/-- So do one, two or three altered bits. -/
theorem crc32_ne_of_distance {remote remote' : SockAddr} {d d' : Datagram}
    (hd : d.payload.length = 1000) (hd' : d'.payload.length = 1000)
    (hcrc : crc32 crcpoly d.payload = d.crc32)
    (hdistance : 1 ≤ distance (bitsOf (covered (frame remote' d')))
        (bitsOf (covered (frame remote d))) ∧
      distance (bitsOf (covered (frame remote' d')))
        (bitsOf (covered (frame remote d))) ≤ 3) :
    crc32 crcpoly d'.payload ≠ d'.crc32 := by
  intro hcrc'
  have hword : ∀ word word' : UInt32, (bitsOf (wordBytes word)).length =
      (bitsOf (wordBytes word')).length := by
    intro word word'
    rw [length_bitsOf, length_bitsOf, length_wordBytes, length_wordBytes]
  have hbits : (bitsOf d'.payload).length = (bitsOf d.payload).length := by
    rw [length_bitsOf, length_bitsOf, hd', hd]
  rw [covered_frame, covered_frame, bitsOf_append, bitsOf_append,
    distance_append (hword _ _), Nat.add_comm, ← distance_append hbits]
    at hdistance
  apply serial_ne_of_distance (by decide) apart_polynomial
    (~~~ crcpoly.toBitVec) _ _ hdistance
  · rw [serial_of_accepted hcrc', serial_of_accepted hcrc]
  · rw [List.length_append, length_bitsOf, length_bitsOf, length_wordBytes, hd']
  · rw [List.length_append, List.length_append, hword, hbits]

section Detected

variable (memory : ℤ → UInt8) (buffer tempbuf : ℤ) (remote : SockAddr)

/-- The bits of a full packet have been altered on its way: one, two or three
of its checksum and its payload, or, besides others, some of these within 32
consecutive bits. -/
def Garbled (sent received : List UInt8) : Prop :=
  received.length = 1024 ∧
    ((1 ≤ distance (bitsOf (covered received)) (bitsOf (covered sent)) ∧
        distance (bitsOf (covered received)) (bitsOf (covered sent)) ≤ 3) ∨
      (covered received ≠ covered sent ∧
        ∃ front burst burst' back, bitsOf sent = front ++ burst ++ back ∧
          bitsOf received = front ++ burst' ++ back ∧ burst.length ≤ 32))

theorem Garbled.rejects {d : Datagram} {bytes : List UInt8}
    (hgarbled : Garbled (frame remote d) bytes)
    (hd : d.payload.length = 1000) (hcrc : crc32 crcpoly d.payload = d.crc32) :
    rejects (remoteisset memory buffer tempbuf bytes) := by
  obtain ⟨hbytes, hbits⟩ := hgarbled
  obtain ⟨remote', d', hd', rfl⟩ := exists_frame hbytes
  rw [rejects_frame_iff memory buffer tempbuf remote' hd']
  rcases hbits with hdistance | ⟨hcovered, front, burst, burst', back, hsent,
    hreceived, hlength⟩
  · exact crc32_ne_of_distance hd hd' hcrc hdistance
  · exact crc32_ne_of_burst hd hd' hcrc hsent hreceived hlength hcovered

variable (bsn : ℤ) {payload : List UInt8} (hpayload : payload.length = 1000)
  {bytes : List UInt8} (hbytes : bytes.length = 1024)
include hpayload hbytes

/-- A full packet that arrives with one, two or three bits of its checksum and
payload altered is rejected, whatever became of the rest. -/
theorem remoteisset_rejects_of_distance
    (hdistance : 1 ≤ distance (bitsOf (covered bytes))
        (bitsOf (covered (frame remote (datagram bsn payload)))) ∧
      distance (bitsOf (covered bytes))
        (bitsOf (covered (frame remote (datagram bsn payload)))) ≤ 3) :
    rejects (remoteisset memory buffer tempbuf bytes) := by
  obtain ⟨remote', d, hd, rfl⟩ := exists_frame hbytes
  rw [rejects_frame_iff memory buffer tempbuf remote' hd]
  exact crc32_ne_of_distance (d := datagram bsn payload) hpayload hd rfl
    hdistance

/-- A full packet altered within 32 consecutive bits is rejected exactly if
its checksum or its payload has been altered. -/
theorem remoteisset_rejects_iff_of_burst {front burst burst' back : List Bool}
    (hsent : bitsOf (frame remote (datagram bsn payload)) =
      front ++ burst ++ back)
    (hreceived : bitsOf bytes = front ++ burst' ++ back)
    (hlength : burst.length ≤ 32) :
    rejects (remoteisset memory buffer tempbuf bytes) ↔
      covered bytes ≠ covered (frame remote (datagram bsn payload)) := by
  obtain ⟨remote', d, hd, rfl⟩ := exists_frame hbytes
  rw [rejects_frame_iff memory buffer tempbuf remote' hd]
  constructor
  · intro hcrc heq
    rw [covered_frame, covered_frame] at heq
    obtain ⟨hword, hdata⟩ := List.append_inj heq
      (by rw [length_wordBytes, length_wordBytes])
    apply hcrc
    rw [hdata, ← ofNat_leValue_wordBytes d.crc32, hword,
      ofNat_leValue_wordBytes]
    rfl
  · intro hcovered
    exact crc32_ne_of_burst (d := datagram bsn payload) hpayload hd rfl hsent
      hreceived hlength hcovered

end Detected

theorem bitsOf_frame_cons (remote : SockAddr) (crc packnum : UInt32)
    (byte : UInt8) (payload : List UInt8) :
    bitsOf (frame remote ⟨crc, packnum, byte :: payload⟩) =
      bitsOf (remote.toList ++ wordBytes crc ++ wordBytes packnum) ++
        byteBits byte ++ bitsOf payload := by
  rw [List.append_assoc]
  exact bitsOf_append _ (byte :: payload)

/-- A thousand zeros, with the lowest bit of the first one set. -/
def oneSet : Datagram :=
  { datagram 1 (List.replicate 1000 0) with
    payload := 1 :: List.replicate 999 0 }

theorem remoteisset_rejects_of_distance_oneSet :
    rejects (remoteisset (fun _ => 0) 0 0
      (frame (List.Vector.replicate 16 0) oneSet)) := by
  have hone : distance
      (bitsOf (covered (frame (List.Vector.replicate 16 0) oneSet)))
      (bitsOf (covered (frame (List.Vector.replicate 16 0)
        (datagram 1 (List.replicate 1000 0))))) = 1 := by
    rw [covered_frame, covered_frame, bitsOf_append, bitsOf_append]
    change distance (_ ++ (byteBits 1 ++ bitsOf (List.replicate 999 0)))
      (bitsOf (wordBytes oneSet.crc32) ++
        (byteBits 0 ++ bitsOf (List.replicate 999 0))) = 1
    rw [distance_append rfl,
      distance_append (show (byteBits 1).length = (byteBits 0).length from rfl),
      distance_self, distance_self]
    rfl
  exact @remoteisset_rejects_of_distance (fun _ => 0) 0 0
    (List.Vector.replicate 16 0) 1 (List.replicate 1000 0)
    List.length_replicate _
    (by rw [length_frame, oneSet, List.length_cons, List.length_replicate])
    (by rw [hone]; decide)

theorem remoteisset_rejects_iff_of_burst_oneSet :
    rejects (remoteisset (fun _ => 0) 0 0
        (frame (List.Vector.replicate 16 0) oneSet)) ↔
      covered (frame (List.Vector.replicate 16 0) oneSet) ≠
        covered (frame (List.Vector.replicate 16 0)
          (datagram 1 (List.replicate 1000 0))) :=
  remoteisset_rejects_iff_of_burst (fun _ => 0) 0 0
    (List.Vector.replicate 16 0) 1 List.length_replicate
    (by rw [length_frame, oneSet, List.length_cons, List.length_replicate])
    (bitsOf_frame_cons _ _ _ 0 (List.replicate 999 0))
    (bitsOf_frame_cons _ _ _ 1 (List.replicate 999 0))
    (by rw [length_byteBits]; decide)

end UdpTransfer.Wire
