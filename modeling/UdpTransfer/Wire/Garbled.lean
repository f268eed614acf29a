import Mathlib.Data.Nat.Bitwise
import UdpTransfer.Core.Folds
import UdpTransfer.Wire.Remoteisset

/-!
# Garbled datagrams

A datagram in which one byte has been altered is the datagram of other fields.
The checksum finds an altered payload, because one step of the loop is
injective in the register and in the byte, and it finds an altered checksum.
It does not cover the packet number.
-/

namespace UdpTransfer.Wire

open UdpTransfer.Bytes
open UdpTransfer.Folds
open UdpTransfer.Receiver

/-- The body of the loop of `crc32`. -/
def crcStep (crc : UInt32) (byte : UInt8) : UInt32 :=
  crc32Tab.getD ((crc ^^^ byte.toUInt32) &&& 0xFF).toNat 0 ^^^ (crc >>> 8)

theorem crc32_eq (crc : UInt32) (buf : List UInt8) :
    crc32 crc buf =
      buf.foldl crcStep (crc ^^^ 0xFFFFFFFF) ^^^ 0xFFFFFFFF :=
  rfl

/-- The highest bytes of the table. -/
def crcTops : List ℕ := crc32Tab.toList.map fun word => word.toNat >>> 24

theorem length_crcTops : crcTops.length = 256 := by decide +kernel

theorem mem_crcTops {top : ℕ} (htop : top < 256) : top ∈ crcTops := by
  have hall : (List.range 256).all (fun t => crcTops.any (Nat.beq t)) = true := by
    decide +kernel
  have hany := List.all_eq_true.mp hall top (List.mem_range.mpr htop)
  obtain ⟨top', hmem, heq⟩ := List.any_eq_true.mp hany
  rwa [Nat.eq_of_beq_eq_true heq]

/-- The highest byte tells the words of the table apart. -/
theorem nodup_crcTops : crcTops.Nodup := by
  have hsub : (List.range 256).Subperm crcTops := by
    apply List.subperm_of_subset List.nodup_range
    intro top htop
    exact mem_crcTops (List.mem_range.mp htop)
  have hperm := hsub.perm_of_length_le (by
    rw [length_crcTops, List.length_range])
  exact hperm.nodup_iff.mp List.nodup_range

/-- The word of the table that a step looks up. -/
def crcIndex (crc : UInt32) (byte : UInt8) : ℕ :=
  ((crc ^^^ byte.toUInt32) &&& 0xFF).toNat

theorem crcIndex_eq (crc : UInt32) (byte : UInt8) :
    crcIndex crc byte = crc.toNat % 256 ^^^ byte.toNat := by
  have hbyte : byte.toNat % 2 ^ 8 = byte.toNat :=
    Nat.mod_eq_of_lt byte.toNat_lt
  rw [crcIndex, UInt32.toNat_and, UInt32.toNat_xor, UInt8.toNat_toUInt32]
  change (crc.toNat ^^^ byte.toNat) &&& (2 ^ 8 - 1) = _
  rw [Nat.and_two_pow_sub_one_eq_mod, Nat.xor_mod_two_pow, hbyte]

theorem crcIndex_lt (crc : UInt32) (byte : UInt8) :
    crcIndex crc byte < 256 := by
  rw [crcIndex_eq]
  exact Nat.xor_lt_two_pow (Nat.mod_lt _ (by decide)) byte.toNat_lt

/-- A step shifts out all but the looked-up word from the highest byte. -/
theorem top_crcStep (crc : UInt32) (byte : UInt8) :
    (crcStep crc byte).toNat >>> 24 =
      (crc32Tab.getD (crcIndex crc byte) 0).toNat >>> 24 := by
  have hout : (crc >>> 8).toNat >>> 24 = 0 := by
    rw [UInt32.toNat_shiftRight, ← Nat.shiftRight_add]
    exact Nat.shiftRight_eq_zero _ _ crc.toNat_lt
  rw [crcStep, UInt32.toNat_xor, Nat.shiftRight_xor_distrib, hout,
    Nat.xor_zero, crcIndex]

theorem crcIndex_eq_of_crcStep_eq {crc crc' : UInt32} {byte byte' : UInt8}
    (heq : crcStep crc byte = crcStep crc' byte') :
    crcIndex crc byte = crcIndex crc' byte' := by
  have htops : (crc32Tab.getD (crcIndex crc byte) 0).toNat >>> 24 =
      (crc32Tab.getD (crcIndex crc' byte') 0).toNat >>> 24 := by
    rw [← top_crcStep, ← top_crcStep, heq]
  have hget : ∀ i (hi : i < crcTops.length),
      crcTops[i] = (crc32Tab.getD i 0).toNat >>> 24 := by
    intro i hi
    simp only [crcTops, List.getElem_map, Array.getElem_toList]
    rw [Array.getD_eq_getD_getElem?, Array.getElem?_eq_getElem, Option.getD_some]
  have hlt : crcIndex crc byte < crcTops.length :=
    lt_of_lt_of_eq (crcIndex_lt crc byte) length_crcTops.symm
  have hlt' : crcIndex crc' byte' < crcTops.length :=
    lt_of_lt_of_eq (crcIndex_lt crc' byte') length_crcTops.symm
  rw [← hget _ hlt, ← hget _ hlt'] at htops
  exact (nodup_crcTops.getElem_inj_iff).mp htops

theorem shiftRight_eq_of_crcStep_eq {crc crc' : UInt32} {byte byte' : UInt8}
    (heq : crcStep crc byte = crcStep crc' byte') :
    crc.toNat / 256 = crc'.toNat / 256 := by
  have hindex := crcIndex_eq_of_crcStep_eq heq
  have hshift : crc >>> 8 = crc' >>> 8 := by
    unfold crcStep at heq
    change crc32Tab.getD (crcIndex crc byte) 0 ^^^ (crc >>> 8) =
      crc32Tab.getD (crcIndex crc' byte') 0 ^^^ (crc' >>> 8) at heq
    rw [hindex] at heq
    exact (UInt32.xor_right_inj _).mp heq
  have hnat := congrArg UInt32.toNat hshift
  rwa [UInt32.toNat_shiftRight, UInt32.toNat_shiftRight,
    Nat.shiftRight_eq_div_pow, Nat.shiftRight_eq_div_pow] at hnat

/-- The step tells the registers apart. -/
theorem crcStep_injective_crc (byte : UInt8) :
    Function.Injective (crcStep · byte) := by
  intro crc crc' heq
  have hindex := crcIndex_eq_of_crcStep_eq heq
  rw [crcIndex_eq, crcIndex_eq] at hindex
  have hlow : crc.toNat % 256 = crc'.toNat % 256 :=
    Nat.xor_left_inj.mp hindex
  have hhigh := shiftRight_eq_of_crcStep_eq heq
  apply UInt32.toNat_inj.mp
  rw [← Nat.div_add_mod crc.toNat 256, hlow, hhigh, Nat.div_add_mod]

/-- The step tells the bytes apart. -/
theorem crcStep_injective_byte (crc : UInt32) :
    Function.Injective (crcStep crc) := by
  intro byte byte' heq
  have hindex := crcIndex_eq_of_crcStep_eq heq
  rw [crcIndex_eq, crcIndex_eq] at hindex
  exact UInt8.toNat_inj.mp (Nat.xor_right_inj.mp hindex)

/-- One altered byte changes the checksum. -/
theorem crc32_set_ne (crc : UInt32) {buf : List UInt8} {i : ℕ}
    (hi : i < buf.length) {value : UInt8} (hne : buf[i] ≠ value) :
    crc32 crc (buf.set i value) ≠ crc32 crc buf := by
  rw [crc32_eq, crc32_eq]
  intro heq
  exact foldl_set_ne crcStep_injective_crc crcStep_injective_byte _ hi hne
    ((UInt32.xor_left_inj _).mp heq)

/-- The frame with another byte at place `i`. -/
def altered (remote : SockAddr) (d : Datagram) (i : ℕ) (value : UInt8) :
    List UInt8 :=
  (frame remote d).set i value

theorem altered_crc32 (remote : SockAddr) (d : Datagram) {i : ℕ} (hi : i < 4)
    (value : UInt8) :
    altered remote d (16 + i) value =
      frame remote { d with
        crc32 := UInt32.ofNat (leValue ((wordBytes d.crc32).set i value)) } := by
  have hremote : remote.toList.length = 16 := remote.toList_length
  have hword : ((wordBytes d.crc32).set i value).length = 4 := by
    rw [List.length_set, length_wordBytes]
  rw [altered, frame, frame, wordBytes_leValue hword, List.set_append_left,
    List.set_append_left, List.set_append_right, hremote,
    Nat.add_sub_cancel_left]
  all_goals simp only [List.length_append, length_wordBytes, hremote]; omega

theorem altered_packnum (remote : SockAddr) (d : Datagram) {i : ℕ}
    (hi : i < 4) (value : UInt8) :
    altered remote d (20 + i) value =
      frame remote { d with
        packnum :=
          UInt32.ofNat (leValue ((wordBytes d.packnum).set i value)) } := by
  have hremote : remote.toList.length = 16 := remote.toList_length
  have hword : ((wordBytes d.packnum).set i value).length = 4 := by
    rw [List.length_set, length_wordBytes]
  have hplace : 20 + i - (remote.toList ++ wordBytes d.crc32).length = i := by
    rw [List.length_append, length_wordBytes, hremote, Nat.add_sub_cancel_left]
  rw [altered, frame, frame, wordBytes_leValue hword, List.set_append_left,
    List.set_append_right, hplace]
  all_goals simp only [List.length_append, length_wordBytes, hremote]; omega

theorem altered_payload (remote : SockAddr) (d : Datagram) (i : ℕ)
    (value : UInt8) :
    altered remote d (24 + i) value =
      frame remote { d with payload := d.payload.set i value } := by
  have hremote : remote.toList.length = 16 := remote.toList_length
  have hplace : 24 + i - (remote.toList ++ wordBytes d.crc32 ++
      wordBytes d.packnum).length = i := by
    rw [List.length_append, List.length_append, length_wordBytes,
      length_wordBytes, hremote, Nat.add_sub_cancel_left]
  rw [altered, frame, frame, List.set_append_right, hplace]
  simp only [List.length_append, length_wordBytes, hremote]
  omega

theorem altered_ne {remote : SockAddr} {d : Datagram} {i : ℕ}
    (hi : i < (frame remote d).length) {value : UInt8}
    (hne : (frame remote d)[i]? ≠ some value) :
    altered remote d i value ≠ frame remote d := by
  intro heq
  have hget : (altered remote d i value)[i]? = some value :=
    List.getElem?_set_self hi
  rw [heq] at hget
  exact hne hget

/-- No call of `addData`, and no acknowledgement. -/
def rejects (calls : List Received) : Prop :=
  calls = [] ∧ ∀ s, acknowledge s calls = some ([], s)

theorem rejects_iff {calls : List Received} : rejects calls ↔ calls = [] := by
  constructor
  · exact And.left
  · intro hcalls
    subst hcalls
    exact ⟨rfl, fun _ => rfl⟩

section Altered

variable (memory : ℤ → UInt8) (buffer tempbuf : ℤ) (remote : SockAddr)
  (bsn : ℤ) {payload : List UInt8} (hpayload : payload.length = 1000) {i : ℕ}
  {value : UInt8}
  (hne : (frame remote (datagram bsn payload))[i]? ≠ some value)
include hpayload hne

/-- An altered checksum is not that of the payload. -/
theorem remoteisset_altered_crc32 (hi : 16 ≤ i ∧ i < 20) :
    remoteisset memory buffer tempbuf
      (altered remote (datagram bsn payload) i value) = [] := by
  have hlength : (frame remote (datagram bsn payload)).length = 1024 := by
    rw [length_frame]
    exact congrArg (24 + ·) hpayload
  have haltered := altered_ne (by omega) hne
  obtain ⟨j, rfl⟩ : ∃ j, i = 16 + j := ⟨i - 16, by omega⟩
  rw [altered_crc32 remote _ (by omega)] at haltered ⊢
  rw [remoteisset_full memory buffer tempbuf remote hpayload, if_neg]
  intro hcrc
  apply haltered
  exact congrArg (fun word => frame remote
    { datagram bsn payload with crc32 := word }) hcrc.symm

/-- The checksum does not depend on the packet number. -/
theorem remoteisset_altered_packnum (hi : 20 ≤ i ∧ i < 24) :
    ∃ packnum, remoteisset memory buffer tempbuf
      (altered remote (datagram bsn payload) i value) =
        [{ packetnumber := packnum, size := 1000, data := payload }] := by
  obtain ⟨j, rfl⟩ : ∃ j, i = 20 + j := ⟨i - 20, by omega⟩
  rw [altered_packnum remote _ (by omega),
    remoteisset_full memory buffer tempbuf remote hpayload, if_pos (by rfl)]
  exact ⟨_, rfl⟩

/-- The checksum finds an altered byte of the payload. -/
theorem remoteisset_altered_payload (hi : 24 ≤ i ∧ i < 1024) :
    remoteisset memory buffer tempbuf
      (altered remote (datagram bsn payload) i value) = [] := by
  have hlength : (frame remote (datagram bsn payload)).length = 1024 := by
    rw [length_frame]
    exact congrArg (24 + ·) hpayload
  have haltered := altered_ne (by omega) hne
  obtain ⟨j, rfl⟩ : ∃ j, i = 24 + j := ⟨i - 24, by omega⟩
  have hj : j < payload.length := by omega
  have hbyte : payload[j] ≠ value := by
    intro heq
    apply haltered
    rw [altered_payload, ← heq]
    exact congrArg (fun bytes => frame remote
      { datagram bsn payload with payload := bytes }) (List.set_getElem_self hj)
  have hset : (payload.set j value).length = 1000 := by
    rw [List.length_set, hpayload]
  rw [altered_payload, remoteisset_full memory buffer tempbuf remote hset,
    if_neg]
  exact crc32_set_ne crcpoly hj hbyte

/-- A full packet in which one byte behind the address has been altered is
rejected exactly when that byte is not one of the packet number. -/
theorem remoteisset_rejects_iff (hi : 16 ≤ i ∧ i ≤ 1023) :
    rejects (remoteisset memory buffer tempbuf
        (altered remote (datagram bsn payload) i value)) ↔
      ¬ (20 ≤ i ∧ i ≤ 23) := by
  rw [rejects_iff]
  constructor
  · intro hcalls hpacknum
    obtain ⟨packnum, hcall⟩ := remoteisset_altered_packnum memory buffer
      tempbuf remote bsn hpayload hne (by omega)
    rw [hcalls] at hcall
    exact List.cons_ne_nil _ _ hcall.symm
  · intro hpacknum
    by_cases hcrc : i < 20
    · exact remoteisset_altered_crc32 memory buffer tempbuf remote bsn
        hpayload hne ⟨hi.1, hcrc⟩
    · exact remoteisset_altered_payload memory buffer tempbuf remote bsn
        hpayload hne (by omega)

end Altered

/-- Packet 1, a thousand zeros, with the first of them altered to 2. -/
theorem remoteisset_rejects_iff_zeros :
    rejects (remoteisset (fun _ => 0) 0 0
      (altered (List.Vector.replicate 16 0)
        (datagram 1 (List.replicate 1000 0)) 24 2)) :=
  (remoteisset_rejects_iff (fun _ => 0) 0 0 (List.Vector.replicate 16 0) 1
    List.length_replicate (by decide +kernel) (by decide)).2 (by decide)

/-- Packet 1, a thousand zeros, with the lowest byte of its number altered
to 2. -/
theorem not_remoteisset_rejects :
    ¬ rejects (remoteisset (fun _ => 0) 0 0
      (altered (List.Vector.replicate 16 0)
        (datagram 1 (List.replicate 1000 0)) 20 2)) := by
  rw [rejects_iff, altered_packnum _ _ (show 0 < 4 by decide),
    remoteisset_full _ _ _ _ List.length_replicate, if_pos (by rfl)]
  exact List.cons_ne_nil _ _

end UdpTransfer.Wire
