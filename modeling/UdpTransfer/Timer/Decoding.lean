import UdpTransfer.Core.Bytes
import UdpTransfer.Timer.DeltaList

/-!
# Timer commands

`starttimer` and `canceltimer` send records of four words in network order, and
`timerprocess` takes them apart byte by byte.  A store outside its four-byte
array has no result.  Records after the first are looked for one word further
on instead of four, and the array only starts anew in a record that starts a
timer.
-/

namespace UdpTransfer.Timer

open Function
open UdpTransfer.Bytes

/-! ## Records -/

inductive Command where
  | start (byteSeqNum itime dtime : UInt32)
  | cancel (byteSeqNum : UInt32)
  deriving DecidableEq

/-- A record of 16 bytes.  The last two words of a cancel may be any. -/
inductive Record where
  | start (byteSeqNum itime dtime : UInt32)
  | cancel (byteSeqNum third fourth : UInt32)
  deriving DecidableEq

namespace Record

def command : Record → Command
  | start byteSeqNum itime dtime => .start byteSeqNum itime dtime
  | cancel byteSeqNum _ _ => .cancel byteSeqNum

def words : Record → List UInt32
  | start byteSeqNum itime dtime => [1, byteSeqNum, itime, dtime]
  | cancel byteSeqNum third fourth => [2, byteSeqNum, third, fourth]

def bytes (record : Record) : List UInt8 :=
  record.words.flatMap fun word => wordBytes (htonl word)

end Record

/-- The datagram that starts a timer, which has none if an `int` cannot hold
the seconds. -/
def starttimer (time : ℚ) (byteSeqNum : UInt32) : Option (List UInt8) :=
  -- convert double to two ints
  (Timers.toInt time).bind fun itemp =>
    let dtemp := time - itemp
    let ltime := htonl (UInt32.ofInt itemp)
    (Timers.toInt (dtemp * 1000)).map fun itemp =>
      let ldec := htonl (UInt32.ofInt itemp)
      wordBytes (htonl 1) ++ wordBytes (htonl byteSeqNum) ++ wordBytes ltime ++
        wordBytes ldec

/-- The datagram that cancels a timer.  Of its 16 bytes the last 8 are those that
lie behind the block of 8. -/
def canceltimer (byteSeqNum : UInt32) (behind : List UInt8) : List UInt8 :=
  wordBytes (htonl 2) ++ wordBytes (htonl byteSeqNum) ++ behind

/-! ## The loop of timerprocess -/

structure Decoder where
  flag : Int32
  byte : UInt32
  itime : UInt32
  dtime : UInt32
  temp : ℕ → UInt8
  c : ℕ

/-- `ntohl(*((uint32_t *)(temp)))`. -/
def Decoder.value (d : Decoder) : UInt32 :=
  ntohl (UInt32.ofNat (leValue [d.temp 0, d.temp 1, d.temp 2, d.temp 3]))

/-- One turn of the loop over the bytes of record `y`. -/
def decodeByte (buf : ℕ → UInt8) (y : ℕ) (d : Decoder) (i : ℕ) :
    Option Decoder :=
  if d.c < 4 then
    let d := { d with temp := update d.temp d.c (buf (y * 4 + i)), c := d.c + 1 }
    some
      (if i = 3 then
        { d with flag := d.value.toInt32, temp := fun _ => 0, c := 0 }
      else if i = 7 then
        { d with byte := d.value, temp := fun _ => 0, c := 0 }
      else if i = 11 ∧ d.flag = 1 then
        { d with itime := d.value, temp := fun _ => 0, c := 0 }
      else if i = 15 ∧ d.flag = 1 then
        { d with dtime := d.value, temp := fun _ => 0, c := 0 }
      else
        d)
  else
    none

/-- The fields of record `y`.  `temp` holds what happens to be there. -/
def decodeRecord (buf : ℕ → UInt8) (y : ℕ) (temp : ℕ → UInt8) :
    Option Decoder :=
  (List.range 16).foldlM (decodeByte buf y)
    { flag := 0, byte := 0, itime := 0, dtime := 0, temp := temp, c := 0 }

/-- The commands of `remaining` records from record `y` on. -/
def decodeFrom (buf : ℕ → UInt8) (temps : ℕ → ℕ → UInt8) :
    (remaining y : ℕ) → Option (List Command)
  | 0, _ => some []
  | remaining + 1, y =>
      (decodeRecord buf y (temps y)).bind fun d =>
        -- Start = 1
        if d.flag = 1 then
          (decodeFrom buf temps remaining (y + 1)).map
            (.start d.byte d.itime d.dtime :: ·)
        -- Cancel = 2
        else if d.flag = 2 then
          (decodeFrom buf temps remaining (y + 1)).map (.cancel d.byte :: ·)
        -- Quit = 3
        else if d.flag = 3 then
          some []
        else
          decodeFrom buf temps remaining (y + 1)

/-- `buf` after it has been cleared and `data` received into its 320 bytes. -/
def received (data : List UInt8) : ℕ → UInt8 := fun i =>
  ((data.take 320)[i]?).getD 0

/-- The commands read from one datagram. -/
def decode (temps : ℕ → ℕ → UInt8) (data : List UInt8) :
    Option (List Command) :=
  let read := (data.take 320).length
  let x := read / 16
  decodeFrom (received data) temps x 0

/-- What `timerprocess` does on a command. -/
def Command.perform (s : Timers) : Command → Option Timers
  | start byteSeqNum itime dtime =>
      let time : ℚ := itime.toNat + (dtime.toNat : ℚ) / 1000
      s.insertValue time 0 byteSeqNum
  | cancel byteSeqNum =>
      (s.removeValue byteSeqNum).map fun (_, _, s) => s

/-- The timers after one datagram has been read. -/
def serve (temps : ℕ → ℕ → UInt8) (data : List UInt8) (s : Timers) :
    Option Timers :=
  (decode temps data).bind fun commands => commands.foldlM Command.perform s

/-! ## Words in network order -/

/-- A word in network order stands at offset `a`. -/
def WordAt (buf : ℕ → UInt8) (a : ℕ) (word : UInt32) : Prop :=
  [buf a, buf (a + 1), buf (a + 2), buf (a + 3)] = wordBytes (htonl word)

theorem WordAt.value {buf : ℕ → UInt8} {a : ℕ} {word : UInt32}
    (hword : WordAt buf a word) :
    ntohl (UInt32.ofNat
      (leValue [buf a, buf (a + 1), buf (a + 2), buf (a + 3)])) = word := by
  rw [hword, ofNat_leValue_wordBytes, ntohl_htonl]

/-! ## One record -/

theorem toInt32_eq_one {word : UInt32} : word.toInt32 = 1 ↔ word = 1 := by
  constructor
  · intro hflag
    have hword := congrArg Int32.toUInt32 hflag
    rwa [UInt32.toUInt32_toInt32] at hword
  · rintro rfl
    rfl

section Record

variable {buf : ℕ → UInt8} {y i : ℕ} {d : Decoder} {word : UInt32}

theorem decodeByte_inner (hi : i % 4 ≠ 3) (hc : d.c < 4) :
    decodeByte buf y d i = some
      { d with temp := update d.temp d.c (buf (y * 4 + i)), c := d.c + 1 } := by
  have hne : i ≠ 3 ∧ i ≠ 7 ∧ i ≠ 11 ∧ i ≠ 15 := by omega
  rw [decodeByte, if_pos hc]
  simp only [hne.1, hne.2.1, hne.2.2.1, hne.2.2.2, false_and, if_false]

/-- Four turns of the loop from an empty array on fill it.  For the seconds and
the milliseconds of a record that starts no timer it stays full. -/
theorem foldlM_decodeByte (hc : d.c = 0) (hi : i % 4 = 0)
    (hword : WordAt buf (y * 4 + i) word) :
    ∃ temp, [i, i + 1, i + 2, i + 3].foldlM (decodeByte buf y) d = some
      (if i = 0 then
        { d with flag := word.toInt32, temp := fun _ => 0, c := 0 }
      else if i = 4 then
        { d with byte := word, temp := fun _ => 0, c := 0 }
      else if i = 8 ∧ d.flag = 1 then
        { d with itime := word, temp := fun _ => 0, c := 0 }
      else if i = 12 ∧ d.flag = 1 then
        { d with dtime := word, temp := fun _ => 0, c := 0 }
      else
        { d with temp := temp, c := 4 }) := by
  let t₁ := update d.temp 0 (buf (y * 4 + i))
  let t₂ := update t₁ 1 (buf (y * 4 + (i + 1)))
  let t₃ := update t₂ 2 (buf (y * 4 + (i + 2)))
  let t₄ := update t₃ 3 (buf (y * 4 + (i + 3)))
  have hfill : [i, i + 1, i + 2].foldlM (decodeByte buf y) d =
      some { d with temp := t₃, c := 3 } := by
    rw [List.foldlM_cons, decodeByte_inner (by omega) (by omega), hc]
    change [i + 1, i + 2].foldlM (decodeByte buf y)
      { d with temp := t₁, c := 1 } = _
    rw [List.foldlM_cons, decodeByte_inner (by omega) (by simp)]
    change [i + 2].foldlM (decodeByte buf y) { d with temp := t₂, c := 2 } = _
    rw [List.foldlM_cons, decodeByte_inner (by omega) (by simp)]
    rfl
  let full : Decoder := { d with temp := t₄, c := 4 }
  have hvalue : full.value = word := by
    rw [Decoder.value, ← hword.value]
    simp [full, t₄, t₃, t₂, t₁, add_assoc]
  have hlast : decodeByte buf y { d with temp := t₃, c := 3 } (i + 3) = some
      (if i + 3 = 3 then
        { full with flag := full.value.toInt32, temp := fun _ => 0, c := 0 }
      else if i + 3 = 7 then
        { full with byte := full.value, temp := fun _ => 0, c := 0 }
      else if i + 3 = 11 ∧ full.flag = 1 then
        { full with itime := full.value, temp := fun _ => 0, c := 0 }
      else if i + 3 = 15 ∧ full.flag = 1 then
        { full with dtime := full.value, temp := fun _ => 0, c := 0 }
      else
        full) := if_pos (by simp)
  refine ⟨t₄, ?_⟩
  change ([i, i + 1, i + 2] ++ [i + 3]).foldlM (decodeByte buf y) d = _
  rw [List.foldlM_append, hfill]
  change (decodeByte buf y { d with temp := t₃, c := 3 } (i + 3)).bind some = _
  rw [hlast, hvalue, Option.bind_some]
  simp only [Nat.reduceEqDiff, Nat.add_eq_right]
  rfl

/-- What record `y` decodes to.  Unless it starts a timer, the array overflows. -/
theorem decodeRecord_eq {words : ℕ → UInt32} (temp : ℕ → UInt8)
    (hwords : ∀ k < 4, WordAt buf (y * 4 + k * 4) (words k)) :
    decodeRecord buf y temp =
      if words 0 = 1 then
        some { flag := 1, byte := words 1, itime := words 2, dtime := words 3,
               temp := fun _ => 0, c := 0 }
      else none := by
  let d₀ : Decoder :=
    { flag := 0, byte := 0, itime := 0, dtime := 0, temp := temp, c := 0 }
  let d₁ : Decoder :=
    { d₀ with flag := (words 0).toInt32, temp := fun _ => 0 }
  let d₂ : Decoder := { d₁ with byte := words 1 }
  have hfirst : [0, 1, 2, 3].foldlM (decodeByte buf y) d₀ = some d₁ := by
    obtain ⟨_, hfill⟩ := @foldlM_decodeByte buf y 0 d₀ _ rfl rfl
      (hwords 0 (by norm_num))
    rw [hfill, if_pos rfl]
  have hsecond : [4, 5, 6, 7].foldlM (decodeByte buf y) d₁ = some d₂ := by
    obtain ⟨_, hfill⟩ := @foldlM_decodeByte buf y 4 d₁ _ rfl rfl
      (hwords 1 (by norm_num))
    rw [hfill, if_neg (by norm_num), if_pos rfl]
  obtain ⟨_, hthird⟩ := @foldlM_decodeByte buf y 8 d₂ _ rfl rfl
    (hwords 2 (by norm_num))
  have hsplit : List.range 16 = [0, 1, 2, 3] ++ ([4, 5, 6, 7] ++
      ([8, 9, 10, 11] ++ [12, 13, 14, 15])) := rfl
  have hstart : decodeRecord buf y temp =
      ([8, 9, 10, 11].foldlM (decodeByte buf y) d₂).bind
        ([12, 13, 14, 15].foldlM (decodeByte buf y)) := by
    rw [decodeRecord, hsplit, List.foldlM_append, hfirst, Option.bind_eq_bind,
      Option.bind_some, List.foldlM_append, hsecond, Option.bind_eq_bind,
      Option.bind_some, List.foldlM_append, Option.bind_eq_bind]
  have hflag : d₂.flag = 1 ↔ words 0 = 1 := toInt32_eq_one
  rw [hstart, hthird, Option.bind_some]
  by_cases hone : words 0 = 1
  · have hd₂ := hflag.2 hone
    let d₃ : Decoder := { d₂ with itime := words 2 }
    have hd₃ : d₃.flag = 1 := hd₂
    obtain ⟨_, hfourth⟩ := @foldlM_decodeByte buf y 12 d₃ _ rfl rfl
      (hwords 3 (by norm_num))
    rw [if_pos hone, if_neg (by norm_num), if_neg (by norm_num),
      if_pos ⟨rfl, hd₂⟩]
    refine hfourth.trans ?_
    rw [if_neg (by norm_num), if_neg (by norm_num), if_neg (by norm_num),
      if_pos ⟨rfl, hd₃⟩, ← hd₃]
  · rw [if_neg hone, if_neg (by norm_num), if_neg (by norm_num),
      if_neg fun h => hone (hflag.1 h.2), if_neg (by norm_num)]
    rw [List.foldlM_cons, decodeByte, if_neg (by simp)]
    rfl

/-- From every place on four words are read, as if a record began there. -/
theorem decodeFrom_eq_some {words : ℕ → UInt32} (temps : ℕ → ℕ → UInt8)
    {remaining : ℕ} {commands : List Command}
    (hwords : ∀ j < y + remaining + 3, WordAt buf (j * 4) (words j)) :
    decodeFrom buf temps remaining y = some commands ↔
      (∀ j ∈ List.range' y remaining, words j = 1) ∧
        commands = (List.range' y remaining).map fun j =>
          .start (words (j + 1)) (words (j + 2)) (words (j + 3)) := by
  induction remaining generalizing y commands with
  | zero => simp [decodeFrom, eq_comm]
  | succ remaining ih =>
      have hrecord := @decodeRecord_eq buf y (fun k => words (y + k)) (temps y)
        (by
          intro k hk
          have hword := hwords (y + k) (by omega)
          rwa [add_mul] at hword)
      rw [Nat.add_zero] at hrecord
      have hrest := fun rest => @ih (y + 1) rest fun j hj =>
        hwords j (by omega)
      rw [decodeFrom, hrecord, List.range'_succ, List.forall_mem_cons,
        List.map_cons]
      by_cases hone : words y = 1
      · rw [if_pos hone, Option.bind_some, if_pos rfl, and_iff_right hone,
          Option.map_eq_some_iff]
        constructor
        · rintro ⟨rest, hdecode, rfl⟩
          obtain ⟨hones, rfl⟩ := (hrest rest).1 hdecode
          exact ⟨hones, rfl⟩
        · rintro ⟨hones, rfl⟩
          exact ⟨_, (hrest _).2 ⟨hones, rfl⟩, rfl⟩
      · rw [if_neg hone]
        constructor
        · intro hnone
          cases hnone
        · rintro ⟨⟨h, -⟩, -⟩
          exact absurd h hone

end Record

/-! ## A datagram of records -/

@[simp]
theorem Record.length_words (record : Record) : record.words.length = 4 := by
  cases record <;> rfl

theorem Record.length_flatMap_words (records : List Record) :
    (records.flatMap Record.words).length = 4 * records.length := by
  simp [List.length_flatMap, mul_comm]

theorem length_flatMap_wordBytes (words : List UInt32) :
    (words.flatMap fun word => wordBytes (htonl word)).length =
      words.length * 4 := by
  simp [List.length_flatMap]

theorem Record.flatMap_bytes (records : List Record) :
    records.flatMap Record.bytes =
      (records.flatMap Record.words).flatMap fun word =>
        wordBytes (htonl word) := by
  rw [List.flatMap_assoc]
  rfl

theorem wordAt_received {words : List UInt32} {j : ℕ}
    (hlength : words.length * 4 ≤ 320) (hj : j < words.length) :
    WordAt (received (words.flatMap fun word => wordBytes (htonl word)))
      (j * 4) words[j] := by
  let data := words.flatMap fun word => wordBytes (htonl word)
  have hdata : data.take 320 = data :=
    List.take_of_length_le (by rwa [length_flatMap_wordBytes])
  have hsplit : data =
      ((words.take j).flatMap fun word => wordBytes (htonl word)) ++
        (wordBytes (htonl words[j]) ++
          (words.drop (j + 1)).flatMap fun word => wordBytes (htonl word)) := by
    conv_lhs => rw [show data = words.flatMap _ from rfl,
      ← List.take_append_drop j words, List.drop_eq_getElem_cons hj]
    rw [List.flatMap_append, List.flatMap_cons]
  have hbefore : ((words.take j).flatMap fun word =>
      wordBytes (htonl word)).length = j * 4 := by
    rw [length_flatMap_wordBytes, List.length_take_of_le hj.le]
  have hbyte : ∀ t < 4, received data (j * 4 + t) =
      (wordBytes (htonl words[j])).getD t 0 := by
    intro t ht
    rw [received, hdata, hsplit, List.getElem?_append_right (by omega), hbefore,
      Nat.add_sub_cancel_left, List.getElem?_append_left (by simpa using ht),
      List.getD_eq_getElem?_getD]
  apply List.ext_getElem (by simp)
  intro t ht ht'
  rw [← List.getD_eq_getElem _ 0 ht', ← hbyte t (by simpa using ht')]
  have hcases : t = 0 ∨ t = 1 ∨ t = 2 ∨ t = 3 := by
    simp only [length_wordBytes] at ht'
    omega
  rcases hcases with rfl | rfl | rfl | rfl <;> rfl

/-- The commands of a datagram of records. -/
theorem decode_records {temps : ℕ → ℕ → UInt8} {records : List Record}
    (hlength : records.length ≤ 20) {commands : List Command} :
    decode temps (records.flatMap Record.bytes) = some commands ↔
      (∀ j < records.length, (records.flatMap Record.words).getD j 0 = 1) ∧
        commands = (List.range records.length).map fun j =>
          .start ((records.flatMap Record.words).getD (j + 1) 0)
            ((records.flatMap Record.words).getD (j + 2) 0)
            ((records.flatMap Record.words).getD (j + 3) 0) := by
  have hwords := Record.length_flatMap_words records
  have hdata : (records.flatMap Record.bytes).length = records.length * 16 := by
    rw [Record.flatMap_bytes, length_flatMap_wordBytes, hwords]
    omega
  have hread : ((records.flatMap Record.bytes).take 320).length / 16 =
      records.length := by
    rw [List.length_take, hdata]
    omega
  rw [decode]
  simp only [hread]
  by_cases hnone : records = []
  · subst hnone
    simp [decodeFrom, eq_comm]
  have hpos : 0 < records.length := List.length_pos_iff.2 hnone
  rw [@decodeFrom_eq_some _ _
    (fun j => (records.flatMap Record.words).getD j 0), List.range_eq_range']
  · simp
  · intro j hj
    have hlt : j < (records.flatMap Record.words).length := by omega
    rw [Record.flatMap_bytes, List.getD_eq_getElem _ _ hlt]
    exact wordAt_received (by omega) hlt

/-- Decoding undoes encoding, whatever the array held before.  No store falls
outside of it then. -/
def DecodesExactly (records : List Record) : Prop :=
  ∀ temps, decode temps (records.flatMap Record.bytes) =
    some (records.map Record.command)

/-- Every record starts a timer, and reads the same one word further on for each
record before it as it does in its own place. -/
def Overlapping (records : List Record) : Prop :=
  ∀ y record, records[y]? = some record →
    (∃ byteSeqNum itime dtime, record = .start byteSeqNum itime dtime) ∧
      ((records.flatMap Record.words).drop y).take 4 = record.words

theorem take_drop_four {words : List UInt32} {y : ℕ}
    (hy : y + 4 ≤ words.length) :
    (words.drop y).take 4 = [words.getD y 0, words.getD (y + 1) 0,
      words.getD (y + 2) 0, words.getD (y + 3) 0] := by
  apply List.ext_getElem (by simp; omega)
  intro t ht ht'
  have hcases : t = 0 ∨ t = 1 ∨ t = 2 ∨ t = 3 := by
    simp only [List.length_cons, List.length_nil] at ht'
    omega
  rw [List.getElem_take, List.getElem_drop]
  rw [← List.getD_eq_getElem words 0 (by omega)]
  rcases hcases with rfl | rfl | rfl | rfl <;> rfl

theorem Overlapping.decodesExactly {records : List Record}
    (hlength : records.length ≤ 20) (hoverlap : Overlapping records) :
    DecodesExactly records := by
  intro temps
  have hwords := Record.length_flatMap_words records
  have hfour : ∀ y (hy : y < records.length),
      (records.flatMap Record.words).getD y 0 = 1 ∧
        records[y].command = .start
          ((records.flatMap Record.words).getD (y + 1) 0)
          ((records.flatMap Record.words).getD (y + 2) 0)
          ((records.flatMap Record.words).getD (y + 3) 0) := by
    intro y hy
    obtain ⟨⟨byteSeqNum, itime, dtime, hrecord⟩, htake⟩ :=
      hoverlap y records[y] (List.getElem?_eq_getElem hy)
    rw [take_drop_four (by omega), hrecord] at htake
    simp only [Record.words, List.cons.injEq, and_true] at htake
    obtain ⟨hone, hnumber, hseconds, hmillis⟩ := htake
    rw [hone, hnumber, hseconds, hmillis, hrecord]
    exact ⟨rfl, rfl⟩
  rw [decode_records hlength]
  refine ⟨fun y hy => (hfour y hy).1, ?_⟩
  apply List.ext_getElem (by simp)
  intro y hy hy'
  rw [List.getElem_map, List.getElem_map, List.getElem_range]
  exact (hfour y (by simpa using hy)).2

theorem DecodesExactly.overlapping {records : List Record}
    (hlength : records.length ≤ 20) (hexact : DecodesExactly records) :
    Overlapping records := by
  have hwords := Record.length_flatMap_words records
  obtain ⟨hone, hcommands⟩ :=
    (decode_records hlength).1 (hexact fun _ _ => 0)
  intro y record hrecord
  obtain ⟨hy, rfl⟩ := List.getElem?_eq_some_iff.1 hrecord
  have hcommand : records[y].command = .start
      ((records.flatMap Record.words).getD (y + 1) 0)
      ((records.flatMap Record.words).getD (y + 2) 0)
      ((records.flatMap Record.words).getD (y + 3) 0) := by
    have := congrArg (fun commands => commands[y]?) hcommands
    simpa [hy] using this
  rw [take_drop_four (by omega), hone y hy]
  cases hcase : records[y] with
  | start byteSeqNum itime dtime =>
      rw [hcase, Record.command, Command.start.injEq] at hcommand
      obtain ⟨hnumber, hseconds, hmillis⟩ := hcommand
      rw [← hnumber, ← hseconds, ← hmillis]
      exact ⟨⟨_, _, _, rfl⟩, rfl⟩
  | cancel byteSeqNum third fourth =>
      rw [hcase, Record.command] at hcommand
      cases hcommand

/-- Decoding undoes encoding for records that overlap so, and for no others. -/
theorem decodesExactly_iff {records : List Record}
    (hlength : records.length ≤ 20) :
    DecodesExactly records ↔ Overlapping records :=
  ⟨fun hexact => hexact.overlapping hlength,
    fun hoverlap => hoverlap.decodesExactly hlength⟩

/-- Two records of which the second is also what stands one word behind the
first, and two of which it is not. -/
theorem decodesExactly_start :
    DecodesExactly [.start 1 20 320, .start 20 320 1] ∧
      ¬ DecodesExactly [.start 1 20 320, .start 2 20 320] := by
  constructor
  · refine (decodesExactly_iff (by simp)).2 fun y record hrecord => ?_
    match y with
    | 0 =>
        obtain rfl := Option.some.inj hrecord
        exact ⟨⟨_, _, _, rfl⟩, rfl⟩
    | 1 =>
        obtain rfl := Option.some.inj hrecord
        exact ⟨⟨_, _, _, rfl⟩, rfl⟩
    | y + 2 => simp at hrecord
  · intro hexact
    have hsecond := ((decodesExactly_iff (by simp)).1 hexact 1 _ rfl).2
    exact absurd hsecond (by decide)

/-- A cancel overflows the array. -/
theorem not_decodesExactly :
    ¬ ∀ records : List Record, 1 ≤ records.length → records.length ≤ 20 →
      DecodesExactly records := by
  intro hall
  have hexact := hall [.cancel 7 0 0] (by simp) (by simp)
  obtain ⟨⟨_, _, _, hstart⟩, -⟩ := hexact.overlapping (by simp) 0 _ rfl
  cases hstart

/-! ## The datagrams of the sender -/

theorem toNat_ofInt {value : ℤ} (hnonneg : 0 ≤ value) (hfits : value < 2 ^ 32) :
    ((UInt32.ofInt value).toNat : ℤ) = value := by
  have hmod : (value % 2 ^ 32).toNat % 2 ^ 32 = value.toNat := by omega
  rw [UInt32.ofInt, UInt32.toNat_ofNat', hmod, Int.toNat_of_nonneg hnonneg]

theorem millis_bounds (time : ℚ) :
    0 ≤ (time - ⌊time⌋) * 1000 ∧ ⌊(time - ⌊time⌋) * 1000⌋ < 1000 := by
  have hlow : 0 ≤ time - ⌊time⌋ := Int.fract_nonneg time
  have hhigh : time - ⌊time⌋ < 1 := Int.fract_lt_one time
  exact ⟨by linarith, Int.floor_lt.2 (by push_cast; linarith)⟩

theorem starttimer_eq {time : ℚ} (hnonneg : 0 ≤ time)
    (hfits : time < 2147483648) (byteSeqNum : UInt32) :
    starttimer time byteSeqNum = some (Record.start byteSeqNum
      (UInt32.ofInt ⌊time⌋)
      (UInt32.ofInt ⌊(time - ⌊time⌋) * 1000⌋)).bytes := by
  obtain ⟨hpart, hmillis⟩ := millis_bounds time
  have hseconds : ⌊time⌋ < 2147483648 := Int.floor_lt.2 (by exact_mod_cast hfits)
  rw [starttimer, (Timers.toInt_of_nonneg hnonneg).2 ⟨rfl, by omega⟩,
    Option.bind_some]
  simp only [(Timers.toInt_of_nonneg hpart).2 ⟨rfl, by omega⟩, Option.map_some]
  simp [Record.bytes, Record.words]

theorem canceltimer_eq {behind : List UInt8} (hbehind : behind.length = 8)
    (byteSeqNum : UInt32) :
    ∃ third fourth, canceltimer byteSeqNum behind =
      (Record.cancel byteSeqNum third fourth).bytes := by
  obtain ⟨third, hthird⟩ := @exists_wordBytes_htonl (behind.take 4)
    (by simp [hbehind])
  obtain ⟨fourth, hfourth⟩ := @exists_wordBytes_htonl (behind.drop 4)
    (by simp [hbehind])
  refine ⟨third, fourth, ?_⟩
  rw [canceltimer, ← List.take_append_drop 4 behind, ← hthird, ← hfourth]
  simp [Record.bytes, Record.words]

/-- A timer that is started runs for the delay in whole milliseconds. -/
theorem serve_starttimer {time : ℚ} (hnonneg : 0 ≤ time)
    (hfits : time < 2147483648) (byteSeqNum : UInt32) (s : Timers)
    (temps : ℕ → ℕ → UInt8) :
    ∃ data, starttimer time byteSeqNum = some data ∧
      serve temps data s = s.insertValue
        (⌊time⌋ + (⌊(time - ⌊time⌋) * 1000⌋ : ℚ) / 1000) 0 byteSeqNum := by
  let itime := UInt32.ofInt ⌊time⌋
  let dtime := UInt32.ofInt ⌊(time - ⌊time⌋) * 1000⌋
  refine ⟨_, starttimer_eq hnonneg hfits byteSeqNum, ?_⟩
  have hseconds : ((itime.toNat : ℤ) : ℚ) = ⌊time⌋ := by
    have hhigh : ⌊time⌋ < 2147483648 := Int.floor_lt.2 (by exact_mod_cast hfits)
    rw [toNat_ofInt (Int.floor_nonneg.2 hnonneg) (by omega)]
  have hmillis : ((dtime.toNat : ℤ) : ℚ) = ⌊(time - ⌊time⌋) * 1000⌋ := by
    obtain ⟨hpart, hhigh⟩ := millis_bounds time
    rw [toNat_ofInt (Int.floor_nonneg.2 hpart) (by omega)]
  have hdecode : decode temps (Record.start byteSeqNum itime dtime).bytes =
      some [.start byteSeqNum itime dtime] := by
    have hone := (@decode_records temps [.start byteSeqNum itime dtime]
      (by simp) [.start byteSeqNum itime dtime]).2 (by
        refine ⟨fun j hj => ?_, rfl⟩
        obtain rfl := Nat.lt_one_iff.1 hj
        rfl)
    rwa [List.flatMap_singleton] at hone
  rw [serve, hdecode, Option.bind_some, ← hmillis, ← hseconds]
  exact bind_pure _

/-- No cancel comes through. -/
theorem serve_canceltimer {behind : List UInt8} (hbehind : behind.length = 8)
    (byteSeqNum : UInt32) (s : Timers) (temps : ℕ → ℕ → UInt8) :
    serve temps (canceltimer byteSeqNum behind) s = none := by
  obtain ⟨third, fourth, hcancel⟩ := canceltimer_eq hbehind byteSeqNum
  have hdecode : decode temps (canceltimer byteSeqNum behind) = none := by
    rw [hcancel, ← List.flatMap_singleton Record.bytes,
      Option.eq_none_iff_forall_ne_some]
    intro commands hsome
    have hone := ((decode_records (by simp)).1 hsome).1 0 Nat.one_pos
    exact absurd hone (by simp [Record.words])
  rw [serve, hdecode]
  rfl

end UdpTransfer.Timer
