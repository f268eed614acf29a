import UdpTransfer.Core.Records
import UdpTransfer.System.Copy

/-!
# The datagrams that come back to tcpdc

`tcpds` sends an acknowledgement behind the address that troll reads, in the
order of the host, and `timerprocess` sends the number of a timer in network
order.  `receiveAndSend` takes both apart, as often as they are contained in
what it has received.  From any datagrams it gets the numbers that were sent.
-/

namespace UdpTransfer.Channels

open UdpTransfer.Bytes
open UdpTransfer.Records
open UdpTransfer.Rounds
open UdpTransfer.Sender
open UdpTransfer.Wire

/-- `struct trollSock` of `tcpds`. -/
structure TrollSock where
  remote : SockAddr
  ack : UInt32

/-- The bytes of `pack`. -/
def TrollSock.bytes (pack : TrollSock) : List UInt8 :=
  pack.remote.toList ++ wordBytes pack.ack

/-- What `timerprocess` sends when a timer has run out. -/
def expiration (byteSeqNum : UInt32) : List UInt8 := wordBytes (htonl byteSeqNum)

/-- `recvd / size` as an `int`, where the division is one of `size_t`s. -/
def nums (recvd size : ℤ) : ℤ :=
  (UInt32.ofInt (recvd % 2 ^ 64 / size)).toInt32.toInt

/-- What a call of `receiveAndSend` meets with.  A socket is not readable, or
`RECV` fails, or it returns a datagram. -/
structure Call where
  temp : List UInt8
  temp_length : temp.length = 1000
  host : Option (Option (List UInt8))
  remote : Option (Option (List UInt8))
  timer : Option (Option (List UInt8))
  /-- The stack, and the address of an array `buffer` on it. -/
  memory : ℤ → UInt8
  buffer : ℤ
  stop : ℕ → Timespec
  clock : ℕ → Timespec

namespace Call

/-- The stack after `RECV` into the 1000 bytes of `buffer`, and what `RECV`
returns. -/
def recv (c : Call) : Option (List UInt8) → (ℤ → UInt8) × ℤ
  | none => (c.memory, -1)
  | some datagram =>
      (overlay c.memory c.buffer (datagram.take 1000),
        (datagram.take 1000).length)

def recvRemote (c : Call) (t : State) : Option State :=
  match c.remote with
  | none => some t
  | some recvd =>
      let (buffer, recvd) := c.recv recvd
      (List.range (nums recvd 20).toNat).foldlM
        (fun t (i : ℕ) =>
          let ack := wordAt buffer (c.buffer + (16 : ℕ) + i * (20 : ℕ))
          t.recvACK (ack, c.stop i))
        t

def recvTimer (c : Call) (t : State) : State :=
  match c.timer with
  | none => t
  | some recvd =>
      let (buffer, recvd) := c.recv recvd
      (List.range (nums recvd 4).toNat).foldl
        (fun t (i : ℕ) =>
          let exp := ntohl (wordAt buffer (c.buffer + (0 : ℕ) + i * (4 : ℕ)))
          t.timerExpire exp)
        t

def receiveAndSend (c : Call) (t : State) : Option State :=
  (t.retry c.temp).bind fun t =>
    (t.recvHost c.temp c.host).bind fun t =>
      (c.recvRemote t).bind fun t => (c.recvTimer t).sendWindow c.clock

end Call

/-! ## What the datagrams carry -/

/-- What was received on a socket are these records, and maybe a part of one. -/
def Carries {α : Type} (encode : α → List UInt8) (width : ℕ) (xs : List α) :
    Option (Option (List UInt8)) → Prop
  | some (some datagram) => ∃ rest, datagram.take 1000 = xs.flatMap encode ++ rest ∧
      rest.length < width
  | _ => xs = []

theorem TrollSock.length_bytes (pack : TrollSock) : pack.bytes.length = 20 := by
  rw [TrollSock.bytes, List.length_append, List.Vector.toList_length,
    length_wordBytes]

theorem TrollSock.exists_bytes {block : List UInt8} (hblock : block.length = 20) :
    ∃ pack : TrollSock, pack.bytes = block := by
  have hword : (block.drop 16).length = 4 := by
    rw [List.length_drop, hblock]
  refine ⟨⟨⟨block.take 16, by rw [List.length_take, hblock]; rfl⟩,
    UInt32.ofNat (leValue (block.drop 16))⟩, ?_⟩
  rw [TrollSock.bytes, wordBytes_leValue hword]
  exact List.take_append_drop 16 block

theorem wordBytes_injective : Function.Injective wordBytes := by
  intro left right heq
  rw [← ofNat_leValue_wordBytes left, heq, ofNat_leValue_wordBytes]

theorem TrollSock.bytes_injective : Function.Injective TrollSock.bytes := by
  rintro ⟨remote, ack⟩ ⟨remote', ack'⟩ heq
  obtain ⟨hremote, hack⟩ := List.append_inj heq (by
    rw [List.Vector.toList_length, List.Vector.toList_length])
  rw [TrollSock.mk.injEq]
  exact ⟨List.Vector.toList_injective hremote, wordBytes_injective hack⟩

theorem length_expiration (byteSeqNum : UInt32) :
    (expiration byteSeqNum).length = 4 := length_wordBytes _

theorem expiration_injective : Function.Injective expiration := by
  intro left right heq
  rw [← ntohl_htonl left, wordBytes_injective heq, ntohl_htonl]

section Carries

variable {α : Type} {encode : α → List UInt8} {width : ℕ}

theorem exists_carries (hpos : 0 < width)
    (hblock : ∀ block : List UInt8, block.length = width →
      ∃ x, encode x = block) (recvd : Option (Option (List UInt8))) :
    ∃ xs, Carries encode width xs recvd := by
  rcases recvd with - | - | datagram
  · exact ⟨[], rfl⟩
  · exact ⟨[], rfl⟩
  · exact exists_flatMap hpos hblock (datagram.take 1000)

theorem Carries.unique (hwidth : ∀ x, (encode x).length = width)
    (hinj : Function.Injective encode) {xs ys : List α}
    {recvd : Option (Option (List UInt8))} (hxs : Carries encode width xs recvd)
    (hys : Carries encode width ys recvd) : ys = xs := by
  rcases recvd with - | - | datagram
  · exact hys.trans hxs.symm
  · exact hys.trans hxs.symm
  · obtain ⟨rest, hbytes, hrest⟩ := hxs
    obtain ⟨rest', hbytes', hrest'⟩ := hys
    exact flatMap_inj hwidth hinj hrest' hrest (hbytes'.symm.trans hbytes)

/-- A datagram of records carries as many of them as fit into the array. -/
theorem carries_records (hwidth : ∀ x, (encode x).length = width) {count : ℕ}
    (hpos : 0 < width) (hcount : 1000 = count * width) (xs : List α) :
    Carries encode width (xs.take count) (some (some (xs.flatMap encode))) := by
  obtain ⟨rest, hbytes, hrest⟩ :=
    @take_flatMap _ _ _ hwidth hpos xs [] hpos count
  rw [List.append_nil, ← hcount] at hbytes
  exact ⟨rest, hbytes, hrest⟩

end Carries

/-! ## The loops -/

theorem nums_eq {recvd size : ℤ} (hlow : 0 ≤ recvd) (hhigh : recvd ≤ 1000)
    (hsize : 0 < size) : nums recvd size = recvd / size := by
  have hmod : recvd % 2 ^ 64 = recvd := Int.emod_eq_of_lt hlow (by omega)
  have hle : recvd / size ≤ recvd := Int.ediv_le_self size hlow
  have hnonneg : 0 ≤ recvd / size := Int.ediv_nonneg hlow hsize.le
  rw [nums, hmod]
  exact seqnumOf_ofInt (by omega) (by omega)

theorem toNat_nums_records {α : Type} {encode : α → List UInt8} {width : ℕ}
    (hwidth : ∀ x, (encode x).length = width) {datagram rest : List UInt8}
    {xs : List α} (hbytes : datagram.take 1000 = xs.flatMap encode ++ rest)
    (hrest : rest.length < width) :
    (nums ((datagram.take 1000).length : ℕ) (width : ℤ)).toNat = xs.length := by
  have hle : (datagram.take 1000).length ≤ 1000 := List.length_take_le _ _
  have hpos : 0 < width := Nat.zero_lt_of_lt hrest
  rw [nums_eq (by omega) (by omega) (by omega), ← Int.natCast_ediv,
    Int.toNat_natCast, hbytes, length_div hwidth xs hrest]

theorem Call.recvRemote_eq {c : Call} {packs : List TrollSock}
    (hcarries : Carries TrollSock.bytes 20 packs c.remote) (t : State) :
    c.recvRemote t = (packs.zipIdx.map fun (pack, i) =>
      (pack.ack, c.stop i)).foldlM State.recvACK t := by
  rw [recvRemote]
  cases hremote : c.remote with
  | none =>
      rw [hremote] at hcarries
      obtain rfl : packs = [] := hcarries
      rfl
  | some recvd =>
      rw [hremote] at hcarries
      cases recvd with
      | none =>
          obtain rfl : packs = [] := hcarries
          rfl
      | some datagram =>
          obtain ⟨rest, hbytes, hrest⟩ := hcarries
          have hcount := toNat_nums_records TrollSock.length_bytes hbytes hrest
          have hloop : ((List.range packs.length).map fun i : ℕ =>
              (wordAt (overlay c.memory c.buffer (datagram.take 1000))
                (c.buffer + (16 : ℕ) + i * (20 : ℕ)), c.stop i)) =
              packs.zipIdx.map fun (pack, i) => (pack.ack, c.stop i) := by
            apply List.ext_getElem (by simp)
            intro i hi hi'
            have hword := wordAt_record
              (fun pack : TrollSock => pack.remote.toList_length)
              (fun pack => (List.append_nil pack.bytes).symm)
              TrollSock.length_bytes c.memory c.buffer rest
              (show i < packs.length by simpa using hi)
            rw [← hbytes] at hword
            simp only [List.getElem_map, List.getElem_range,
              List.getElem_zipIdx, Nat.zero_add, hword]
          simp only [recv]
          rw [← hloop, List.foldlM_map]
          exact congrArg (fun n => (List.range n).foldlM _ t) hcount

theorem Call.recvTimer_eq {c : Call} {notices : List UInt32}
    (hcarries : Carries expiration 4 notices c.timer) (t : State) :
    c.recvTimer t = notices.foldl State.timerExpire t := by
  rw [recvTimer]
  cases htimer : c.timer with
  | none =>
      rw [htimer] at hcarries
      obtain rfl : notices = [] := hcarries
      rfl
  | some recvd =>
      rw [htimer] at hcarries
      cases recvd with
      | none =>
          obtain rfl : notices = [] := hcarries
          rfl
      | some datagram =>
          obtain ⟨rest, hbytes, hrest⟩ := hcarries
          have hcount := toNat_nums_records length_expiration hbytes hrest
          have hwords := @map_wordAt UInt32 expiration 4 (fun _ => [])
            (fun _ => []) htonl 0 (fun _ => rfl)
            (fun num => (List.append_nil (expiration num)).symm)
            length_expiration c.memory c.buffer notices rest
          have hloop : ((List.range notices.length).map fun i : ℕ =>
              ntohl (wordAt (overlay c.memory c.buffer (datagram.take 1000))
                (c.buffer + (0 : ℕ) + i * (4 : ℕ)))) = notices := by
            have hmap := congrArg (List.map ntohl) hwords
            rw [List.map_map, List.map_map, ← hbytes] at hmap
            refine hmap.trans ?_
            rw [show ntohl ∘ htonl = id from funext ntohl_htonl, List.map_id]
          simp only [recv]
          conv_rhs => rw [← hloop, List.foldl_map]
          exact congrArg (fun n => (List.range n).foldl _ t) hcount

/-- The round of the numbers that a call has received. -/
def Call.round (c : Call) (packs : List TrollSock) (notices : List UInt32) :
    Round where
  temp := c.temp
  temp_length := c.temp_length
  host := c.host
  acks := packs.zipIdx.map fun (pack, i) => (pack.ack, c.stop i)
  expirations := notices
  clock := c.clock

theorem Call.receiveAndSend_eq {c : Call} {packs : List TrollSock}
    {notices : List UInt32} (hpacks : Carries TrollSock.bytes 20 packs c.remote)
    (hnotices : Carries expiration 4 notices c.timer) (t : State) :
    c.receiveAndSend t = t.receiveAndSend (c.round packs notices) := by
  rw [receiveAndSend, State.receiveAndSend]
  simp only [recvRemote_eq hpacks, recvTimer_eq hnotices, Call.round]

/-- Whatever datagrams come, they carry certain acknowledgements and notices and
no others, and the call does what the round of these does. -/
theorem receiveAndSend_eq_round (c : Call) :
    ∃ packs notices,
      (∀ packs', Carries TrollSock.bytes 20 packs' c.remote ↔ packs' = packs) ∧
      (∀ notices', Carries expiration 4 notices' c.timer ↔
        notices' = notices) ∧
      ∀ t, c.receiveAndSend t = t.receiveAndSend (c.round packs notices) := by
  obtain ⟨packs, hpacks⟩ := exists_carries (by decide)
    (fun block => @TrollSock.exists_bytes block) c.remote
  obtain ⟨notices, hnotices⟩ := exists_carries (by decide)
    (fun block hblock => exists_wordBytes_htonl hblock) c.timer
  refine ⟨packs, notices, fun packs' => ⟨fun hpacks' => ?_, fun h => h ▸ hpacks⟩,
    fun notices' => ⟨fun hnotices' => ?_, fun h => h ▸ hnotices⟩,
    Call.receiveAndSend_eq hpacks hnotices⟩
  · exact hpacks.unique TrollSock.length_bytes TrollSock.bytes_injective hpacks'
  · exact hnotices.unique length_expiration expiration_injective hnotices'

/-- With the acknowledgements that `tcpds` has sent, such a call is a run of the
whole system. -/
theorem Call.reachable {creates : List UInt8 → Bool}
    {filename file : List UInt8} {s : Copy.State} {c : Call} {t : State}
    {packs : List TrollSock}
    (hreach : (Copy.copy creates filename file).Reachable s)
    (hplace : s.place = .round) (hreadable : Copy.Readable s c.host)
    (hremote : c.remote = some (some (packs.flatMap TrollSock.bytes)))
    (hacks : ∀ pack ∈ packs, pack.ack ∈ s.acks)
    (hcall : c.receiveAndSend s.tcpdc = some t) :
    ∃ s', (Copy.copy creates filename file).Reachable s' ∧ s'.tcpdc = t ∧
      s'.place = .round := by
  have hpacks := carries_records TrollSock.length_bytes (by decide)
    (show 1000 = 50 * 20 from rfl) packs
  rw [← hremote] at hpacks
  obtain ⟨notices, hnotices⟩ := exists_carries (by decide)
    (fun block hblock => exists_wordBytes_htonl hblock) c.timer
  rw [receiveAndSend_eq hpacks hnotices] at hcall
  refine Copy.receiveAndSend_reachable hreach hplace hreadable ?_ hcall
  rintro ack hack
  simp only [Call.round, List.mem_map, Prod.exists] at hack
  obtain ⟨pack, i, hmem, rfl⟩ := hack
  exact hacks pack (List.mem_of_mem_take (List.fst_mem_of_mem_zipIdx hmem))

end UdpTransfer.Channels
