import UdpTransfer.Core.Bytes

/-!
# Records of one width

A datagram can carry several records of the same width one behind the other.
Where it has been received, a field stands at the same place in each of them,
and what follows behind the last full record changes nothing.
-/

namespace UdpTransfer.Records

open UdpTransfer.Bytes

variable {α : Type*} {encode : α → List UInt8} {width : ℕ}

theorem length_flatMap (hwidth : ∀ x, (encode x).length = width) (xs : List α) :
    (xs.flatMap encode).length = xs.length * width := by
  induction xs with
  | nil => simp
  | cons x xs ih =>
      rw [List.flatMap_cons, List.length_append, hwidth, ih, List.length_cons,
        Nat.succ_mul, Nat.add_comm]

/-- The bytes in front of a record, and those behind it. -/
theorem flatMap_split (hwidth : ∀ x, (encode x).length = width) {xs : List α}
    {i : ℕ} (hi : i < xs.length) :
    ∃ before after, xs.flatMap encode = before ++ encode xs[i] ++ after ∧
      before.length = i * width := by
  refine ⟨(xs.take i).flatMap encode, (xs.drop (i + 1)).flatMap encode, ?_, ?_⟩
  · conv_lhs => rw [← List.take_append_drop i xs, List.drop_eq_getElem_cons hi]
    rw [List.flatMap_append, List.flatMap_cons, List.append_assoc]
  · rw [length_flatMap hwidth, List.length_take_of_le hi.le]

/-- How many full records there are. -/
theorem length_div (hwidth : ∀ x, (encode x).length = width) (xs : List α)
    {rest : List UInt8} (hrest : rest.length < width) :
    (xs.flatMap encode ++ rest).length / width = xs.length := by
  have hpos : 0 < width := Nat.zero_lt_of_lt hrest
  rw [List.length_append, length_flatMap hwidth, Nat.add_comm,
    Nat.add_mul_div_right _ _ hpos, Nat.div_eq_of_lt hrest, Nat.zero_add]

/-- The bytes of as many full records as there is room for. -/
theorem take_flatMap (hwidth : ∀ x, (encode x).length = width) (hpos : 0 < width)
    (xs : List α) {rest : List UInt8} (hrest : rest.length < width) (k : ℕ) :
    ∃ rest', (xs.flatMap encode ++ rest).take (k * width) =
        (xs.take k).flatMap encode ++ rest' ∧ rest'.length < width := by
  have hlength := length_flatMap hwidth xs
  rcases Nat.lt_or_ge xs.length k with hlt | hge
  · have hle : xs.length * width + width ≤ k * width := by
      rw [← Nat.succ_mul]
      exact Nat.mul_le_mul_right width hlt
    refine ⟨rest, ?_, hrest⟩
    rw [List.take_of_length_le (by rw [List.length_append, hlength]; omega),
      List.take_of_length_le hlt.le]
  · have hfront : ((xs.take k).flatMap encode).length = k * width := by
      rw [length_flatMap hwidth, List.length_take_of_le hge]
    refine ⟨[], ?_, hpos⟩
    conv_lhs => rw [← List.take_append_drop k xs]
    rw [List.flatMap_append, List.append_assoc, ← hfront, List.take_left,
      List.append_nil]

/-- Where every block of the width is a record, any bytes are records and a part
of one. -/
theorem exists_flatMap (hpos : 0 < width)
    (hblock : ∀ block : List UInt8, block.length = width →
      ∃ x, encode x = block) (bytes : List UInt8) :
    ∃ (xs : List α) (rest : List UInt8), bytes = xs.flatMap encode ++ rest ∧
      rest.length < width := by
  induction hn : bytes.length using Nat.strong_induction_on generalizing bytes
    with
  | _ n ih =>
      rcases Nat.lt_or_ge n width with hlt | hge
      · exact ⟨[], bytes, rfl, hn ▸ hlt⟩
      · obtain ⟨x, hx⟩ := hblock (bytes.take width)
          (List.length_take_of_le (hn ▸ hge))
        obtain ⟨xs, rest, hbytes, hrest⟩ := ih (bytes.drop width).length
          (by rw [List.length_drop]; omega) (bytes.drop width) rfl
        refine ⟨x :: xs, rest, ?_, hrest⟩
        rw [List.flatMap_cons, List.append_assoc, ← hbytes, hx,
          List.take_append_drop]

/-- The records can be told from the bytes. -/
theorem flatMap_inj (hwidth : ∀ x, (encode x).length = width)
    (hinj : Function.Injective encode) {xs ys : List α}
    {rest rest' : List UInt8} (hrest : rest.length < width)
    (hrest' : rest'.length < width)
    (heq : xs.flatMap encode ++ rest = ys.flatMap encode ++ rest') : xs = ys := by
  induction xs generalizing ys with
  | nil =>
      cases ys with
      | nil => rfl
      | cons y ys =>
          have hlength := congrArg List.length heq
          rw [List.flatMap_nil, List.nil_append, List.flatMap_cons,
            List.length_append, List.length_append, hwidth] at hlength
          omega
  | cons x xs ih =>
      cases ys with
      | nil =>
          have hlength := congrArg List.length heq
          rw [List.flatMap_nil, List.nil_append, List.flatMap_cons,
            List.length_append, List.length_append, hwidth] at hlength
          omega
      | cons y ys =>
          rw [List.flatMap_cons, List.flatMap_cons, List.append_assoc,
            List.append_assoc] at heq
          obtain ⟨hfirst, hbehind⟩ :=
            List.append_inj heq ((hwidth x).trans (hwidth y).symm)
          rw [hinj hfirst, ih hbehind]

section Field

variable {front back : α → List UInt8} {word : α → UInt32} {offset : ℕ}

/-- The word behind `offset` bytes of a record, read where it was received. -/
theorem wordAt_record (hfront : ∀ x, (front x).length = offset)
    (hencode : ∀ x, encode x = front x ++ wordBytes (word x) ++ back x)
    (hwidth : ∀ x, (encode x).length = width) (memory : ℤ → UInt8) (a : ℤ)
    {xs : List α} (rest : List UInt8) {i : ℕ} (hi : i < xs.length) :
    wordAt (overlay memory a (xs.flatMap encode ++ rest))
      (a + offset + i * width) = word xs[i] := by
  obtain ⟨before, after, hsplit, hbefore⟩ := flatMap_split hwidth hi
  have hbytes : xs.flatMap encode ++ rest =
      (before ++ front xs[i]) ++ wordBytes (word xs[i]) ++
        (back xs[i] ++ after ++ rest) := by
    rw [hsplit, hencode]
    simp only [List.append_assoc]
  have hplace : a + offset + i * width =
      a + ((before ++ front xs[i]).length : ℕ) := by
    rw [List.length_append, hbefore, hfront]
    push_cast
    ring
  rw [hbytes, hplace]
  exact wordAt_overlay memory a _ _ _

/-- The words of all records, read one after the other. -/
theorem map_wordAt (hfront : ∀ x, (front x).length = offset)
    (hencode : ∀ x, encode x = front x ++ wordBytes (word x) ++ back x)
    (hwidth : ∀ x, (encode x).length = width) (memory : ℤ → UInt8) (a : ℤ)
    (xs : List α) (rest : List UInt8) :
    ((List.range xs.length).map fun i : ℕ =>
        wordAt (overlay memory a (xs.flatMap encode ++ rest))
          (a + offset + i * width)) = xs.map word := by
  apply List.ext_getElem (by simp)
  intro i hi hi'
  rw [List.getElem_map, List.getElem_map, List.getElem_range]
  exact wordAt_record hfront hencode hwidth memory a rest (by simpa using hi')

end Field

end UdpTransfer.Records
