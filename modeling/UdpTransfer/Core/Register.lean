import Mathlib.Data.Nat.Bitwise
import Mathlib.Data.List.Nodup

/-!
# Shift registers with feedback

A register that takes a message bit by bit, lowest bit of the register first,
over an arbitrary feedback word.  Clocking is linear, and it is injective if
the highest bit of the feedback is set; from this come the errors that the
final contents of the register tell apart.
-/

namespace UdpTransfer.Register

variable {w : ℕ} (poly : BitVec w)

/-- The register moves down, and the bit that leaves it adds the feedback. -/
def clock (x : BitVec w) : BitVec w :=
  if x.getLsbD 0 then (x >>> 1) ^^^ poly else x >>> 1

/-- A bit, as the lowest one of the register. -/
def unit (bit : Bool) : BitVec w := (BitVec.ofBool bit).setWidth w

/-- The contents of the register after a message. -/
def serial (x : BitVec w) (bits : List Bool) : BitVec w :=
  bits.foldl (fun x bit => clock poly (x ^^^ unit bit)) x

/-- The first bits of a message, the first one lowest. -/
def pack : List Bool → BitVec w
  | [] => 0#w
  | bit :: bits => (pack bits <<< 1) ^^^ unit bit

@[simp]
theorem serial_nil (x : BitVec w) : serial poly x [] = x := rfl

theorem serial_cons (x : BitVec w) (bit : Bool) (bits : List Bool) :
    serial poly x (bit :: bits) =
      serial poly (clock poly (x ^^^ unit bit)) bits := rfl

theorem serial_append (x : BitVec w) (bits bits' : List Bool) :
    serial poly x (bits ++ bits') = serial poly (serial poly x bits) bits' :=
  List.foldl_append

@[simp]
theorem unit_false : (unit false : BitVec w) = 0#w := by
  simp [unit]

theorem getLsbD_unit (bit : Bool) {i : ℕ} (hi : i < w) :
    (unit bit : BitVec w).getLsbD i = (decide (i = 0) && bit) := by
  rcases i with _ | i <;> simp [unit, hi]

section Linear

theorem clock_xor (x y : BitVec w) :
    clock poly (x ^^^ y) = clock poly x ^^^ clock poly y := by
  ext i hi
  unfold clock
  rw [BitVec.getLsbD_xor]
  cases x.getLsbD 0 <;> cases y.getLsbD 0 <;>
    simp [BitVec.ushiftRight_xor_distrib, Bool.xor_comm, Bool.xor_left_comm]

@[simp]
theorem clock_zero : clock poly 0#w = 0#w := by
  simp [clock]

theorem iterate_clock_xor (n : ℕ) (x y : BitVec w) :
    (clock poly)^[n] (x ^^^ y) = (clock poly)^[n] x ^^^ (clock poly)^[n] y := by
  induction n generalizing x y with
  | zero => rfl
  | succ n ih =>
      rw [Function.iterate_succ_apply, clock_xor, ih]
      rfl

theorem iterate_clock_zero (n : ℕ) : (clock poly)^[n] 0#w = 0#w :=
  Function.iterate_fixed (clock_zero poly) n

end Linear

section Pack

theorem getLsbD_pack (bits : List Bool) {i : ℕ} (hi : i < w) :
    (pack bits : BitVec w).getLsbD i = bits.getD i false := by
  induction bits generalizing i with
  | nil => simp [pack]
  | cons bit bits ih =>
      rw [pack, BitVec.getLsbD_xor, getLsbD_unit bit hi,
        BitVec.getLsbD_shiftLeft]
      cases i with
      | zero => simp
      | succ i => simp [hi, ih (Nat.lt_of_succ_lt hi)]

/-- Messages that fit the register are told apart by their bits. -/
theorem pack_injective {bits bits' : List Bool} (hlength : bits.length ≤ w)
    (hsame : bits.length = bits'.length)
    (heq : (pack bits : BitVec w) = pack bits') : bits = bits' := by
  apply List.ext_getElem hsame
  intro i hi hi'
  have hbit := congrArg (fun x : BitVec w => x.getLsbD i) heq
  simp only [getLsbD_pack _ (lt_of_lt_of_le hi hlength)] at hbit
  rwa [List.getD_eq_getElem _ _ hi, List.getD_eq_getElem _ _ hi'] at hbit

/-- What stands one place up, with nothing leaving at the top, comes down. -/
theorem clock_shiftLeft {x : BitVec w} (hx : ∀ i, w ≤ i + 1 → x.getLsbD i = false) :
    clock poly (x <<< 1) = x := by
  have hlow : (x <<< 1).getLsbD 0 = false := by simp
  unfold clock
  rw [hlow, if_neg Bool.false_ne_true]
  ext i hi
  rw [BitVec.getElem_ushiftRight, BitVec.getLsbD_shiftLeft,
    ← BitVec.getLsbD_eq_getElem]
  by_cases htop : 1 + i < w
  · simp [htop]
  · rw [hx i (by omega)]
    simp [htop]

theorem iterate_clock_shiftLeft (n : ℕ) {x : BitVec w}
    (hx : ∀ i, w ≤ i + n → x.getLsbD i = false) :
    (clock poly)^[n] (x <<< n) = x := by
  induction n with
  | zero => simp
  | succ n ih =>
      rw [Function.iterate_succ_apply, BitVec.shiftLeft_add,
        clock_shiftLeft poly]
      · exact ih fun i hi => hx i (by omega)
      · intro i hi
        rw [BitVec.getLsbD_shiftLeft]
        by_cases hin : i < n
        · simp [hin]
        · rw [hx (i - n) (by omega), Bool.and_false]

/-- A message that fits the register may be put in at once. -/
theorem serial_eq (x : BitVec w) {bits : List Bool} (hlength : bits.length ≤ w) :
    serial poly x bits = (clock poly)^[bits.length] (x ^^^ pack bits) := by
  induction bits generalizing x with
  | nil => simp [pack]
  | cons bit bits ih =>
      have hlt : bits.length < w := hlength
      have hpack : clock poly ((pack bits : BitVec w) <<< 1) = pack bits := by
        apply clock_shiftLeft
        intro i hi
        by_cases hin : i < w
        · rw [getLsbD_pack bits hin, List.getD_eq_default _ _ (by omega)]
        · exact BitVec.getLsbD_of_ge _ _ (by omega)
      calc serial poly x (bit :: bits)
          = (clock poly)^[bits.length] (clock poly (x ^^^ unit bit) ^^^
              clock poly (pack bits <<< 1)) := by
            rw [serial_cons, ih _ hlt.le, hpack]
        _ = (clock poly)^[bits.length + 1]
              (x ^^^ unit bit ^^^ pack bits <<< 1) := by
            rw [← clock_xor, ← Function.iterate_succ_apply]
        _ = (clock poly)^[(bit :: bits).length] (x ^^^ pack (bit :: bits)) := by
            rw [pack, List.length_cons, BitVec.xor_assoc,
              BitVec.xor_comm (unit bit)]

/-- Several clocks at once, with a table for the bits that leave. -/
theorem iterate_clock_eq (n : ℕ) (x : BitVec w) :
    (clock poly)^[n] x =
      (clock poly)^[n] (x &&& BitVec.ofNat w (2 ^ n - 1)) ^^^ (x >>> n) := by
  have hsplit : x = (x &&& BitVec.ofNat w (2 ^ n - 1)) ^^^ (x >>> n) <<< n := by
    ext i hi
    have hmask : (BitVec.ofNat w (2 ^ n - 1))[i] = decide (i < n) := by
      rw [← BitVec.getLsbD_eq_getElem, BitVec.getLsbD_ofNat,
        Nat.testBit_two_pow_sub_one]
      simp [hi]
    rw [BitVec.getElem_xor, BitVec.getElem_and, BitVec.getElem_shiftLeft, hmask]
    by_cases hin : i < n
    · simp [hin]
    · simp [hin, Nat.add_sub_of_le (not_lt.mp hin), BitVec.getLsbD_eq_getElem hi]
  have hshift : (clock poly)^[n] ((x >>> n) <<< n) = x >>> n := by
    apply iterate_clock_shiftLeft
    intro i hi
    rw [BitVec.getLsbD_ushiftRight]
    exact BitVec.getLsbD_of_ge _ _ (by omega)
  calc (clock poly)^[n] x
      = (clock poly)^[n] ((x &&& BitVec.ofNat w (2 ^ n - 1)) ^^^
          (x >>> n) <<< n) := congrArg _ hsplit
    _ = _ := by rw [iterate_clock_xor, hshift]

end Pack

section Injective

variable {poly} (hpoly : poly.msb = true)
include hpoly

theorem eq_zero_of_clock_eq_zero {x : BitVec w} (hx : clock poly x = 0#w) :
    x = 0#w := by
  rw [BitVec.msb_eq_getLsbD_last] at hpoly
  unfold clock at hx
  cases hlow : x.getLsbD 0 with
  | true =>
      -- the highest bit can only come from the feedback
      rw [hlow, if_pos rfl] at hx
      have htop := congrArg (fun y : BitVec w => y.getLsbD (w - 1)) hx
      simp only [BitVec.getLsbD_xor, BitVec.getLsbD_ushiftRight, hpoly] at htop
      rw [BitVec.getLsbD_of_ge x _ (by omega)] at htop
      simp at htop
  | false =>
      rw [hlow, if_neg Bool.false_ne_true] at hx
      apply BitVec.eq_of_getLsbD_eq
      intro i hi
      cases i with
      | zero => simpa using hlow
      | succ i =>
          have hbit := congrArg (fun y : BitVec w => y.getLsbD i) hx
          simpa [BitVec.getLsbD_ushiftRight, Nat.add_comm] using hbit

theorem clock_injective : Function.Injective (clock poly) := by
  intro x y heq
  have hzero : clock poly (x ^^^ y) = 0#w := by
    rw [clock_xor, heq, BitVec.xor_self]
  exact BitVec.xor_eq_zero_iff.mp (eq_zero_of_clock_eq_zero hpoly hzero)

theorem serial_injective (bits : List Bool) :
    Function.Injective (serial poly · bits) := by
  induction bits with
  | nil => exact fun _ _ heq => heq
  | cons bit bits ih =>
      intro x y heq
      exact (BitVec.xor_left_inj _).mp (clock_injective hpoly (ih heq))

/-- Messages that differ only within the length of the register leave
different contents. -/
theorem serial_ne_of_burst (x : BitVec w) (front back : List Bool)
    {burst burst' : List Bool} (hlength : burst.length ≤ w)
    (hsame : burst.length = burst'.length) (hne : burst ≠ burst') :
    serial poly x (front ++ burst ++ back) ≠
      serial poly x (front ++ burst' ++ back) := by
  rw [serial_append, serial_append, serial_append, serial_append]
  intro heq
  have hburst := serial_injective hpoly back heq
  have hlength' : burst'.length ≤ w := hsame ▸ hlength
  beta_reduce at hburst
  rw [serial_eq poly (serial poly x front) hlength,
    serial_eq poly (serial poly x front) hlength', ← hsame] at hburst
  have hpack := (clock_injective hpoly).iterate _ hburst
  exact hne (pack_injective hlength hsame
    ((BitVec.xor_right_inj _).mp hpack))

end Injective

section Distance

/-- Where two messages differ. -/
def difference (bits bits' : List Bool) : List Bool :=
  List.zipWith xor bits bits'

/-- The number of bits in which two messages differ. -/
def distance (bits bits' : List Bool) : ℕ := (difference bits bits').count true

theorem length_difference {bits bits' : List Bool}
    (hsame : bits.length = bits'.length) :
    (difference bits bits').length = bits.length := by
  rw [difference, List.length_zipWith, ← hsame, Nat.min_self]

theorem distance_self (bits : List Bool) : distance bits bits = 0 := by
  induction bits with
  | nil => rfl
  | cons bit bits ih =>
      rw [distance, difference, List.zipWith_cons_cons, Bool.xor_self,
        List.count_cons_of_ne Bool.false_ne_true]
      exact ih

theorem distance_append {front front' : List Bool}
    (hsame : front.length = front'.length) (back back' : List Bool) :
    distance (front ++ back) (front' ++ back') =
      distance front front' + distance back back' := by
  rw [distance, difference, List.zipWith_append hsame, List.count_append]
  rfl

theorem unit_xor (bit bit' : Bool) :
    (unit bit ^^^ unit bit' : BitVec w) = unit (xor bit bit') := by
  apply BitVec.eq_of_getLsbD_eq
  intro i hi
  rw [BitVec.getLsbD_xor, getLsbD_unit _ hi, getLsbD_unit _ hi,
    getLsbD_unit _ hi]
  cases decide (i = 0) <;> simp

theorem serial_xor (x y : BitVec w) {bits bits' : List Bool}
    (hsame : bits.length = bits'.length) :
    serial poly x bits ^^^ serial poly y bits' =
      serial poly (x ^^^ y) (difference bits bits') := by
  induction bits generalizing x y bits' with
  | nil =>
      cases bits' with
      | nil => rfl
      | cons bit' bits' => cases hsame
  | cons bit bits ih =>
      cases bits' with
      | nil => cases hsame
      | cons bit' bits' =>
          have hbits : x ^^^ unit bit ^^^ (y ^^^ unit bit') =
              x ^^^ y ^^^ unit (xor bit bit') := by
            rw [← unit_xor]
            ac_rfl
          rw [serial_cons, serial_cons, ih _ _ (Nat.succ.inj hsame),
            ← clock_xor, hbits]
          rfl

/-- How often the register is still clocked behind each set bit. -/
def places : List Bool → List ℕ
  | [] => []
  | bit :: bits =>
      if bit then (bits.length + 1) :: places bits else places bits

theorem length_places (bits : List Bool) :
    (places bits).length = bits.count true := by
  induction bits with
  | nil => rfl
  | cons bit bits ih => cases bit <;> simp [places, ih]

theorem mem_places {bits : List Bool} {n : ℕ} (hn : n ∈ places bits) :
    1 ≤ n ∧ n ≤ bits.length := by
  induction bits with
  | nil => cases hn
  | cons bit bits ih =>
      rw [List.length_cons]
      rw [places] at hn
      split at hn
      · rcases List.mem_cons.mp hn with rfl | hn
        · omega
        · have := ih hn
          omega
      · have := ih hn
        omega

theorem pairwise_places (bits : List Bool) :
    (places bits).Pairwise (· > ·) := by
  induction bits with
  | nil => exact List.Pairwise.nil
  | cons bit bits ih =>
      rw [places]
      split
      · refine List.pairwise_cons.mpr ⟨fun n hn => ?_, ih⟩
        have := mem_places hn
        omega
      · exact ih

theorem serial_eq_xor (x : BitVec w) (bits : List Bool) :
    serial poly x bits =
      (clock poly)^[bits.length] x ^^^ serial poly 0#w bits := by
  induction bits generalizing x with
  | nil => simp
  | cons bit bits ih =>
      rw [serial_cons, serial_cons, ih, ih (clock poly (0#w ^^^ unit bit)),
        clock_xor, clock_xor, clock_zero, BitVec.zero_xor, iterate_clock_xor,
        List.length_cons, Function.iterate_succ_apply, BitVec.xor_assoc]

/-- Each set bit adds what the register makes of it. -/
theorem serial_zero (bits : List Bool) :
    serial poly 0#w bits =
      (places bits).foldr (fun n x => (clock poly)^[n] (unit true) ^^^ x) 0#w := by
  induction bits with
  | nil => rfl
  | cons bit bits ih =>
      rw [serial_cons, BitVec.zero_xor, serial_eq_xor, ih]
      cases bit with
      | true => rfl
      | false => simp [places, iterate_clock_zero]

/-- No two of the first `n` states that a single bit goes through are the same
but for the lowest bit. -/
def Apart (n : ℕ) : Prop :=
  ∀ i j, i < j → j < n →
    (clock poly)^[i] (unit true) >>> 1 ≠ (clock poly)^[j] (unit true) >>> 1

variable {poly}

theorem unit_true_shiftRight : (unit true : BitVec w) >>> 1 = 0#w := by
  apply BitVec.eq_of_getLsbD_eq
  intro i hi
  rw [BitVec.getLsbD_ushiftRight]
  by_cases hin : 1 + i < w
  · simp [getLsbD_unit true hin]
  · simp [BitVec.getLsbD_of_ge _ _ (not_lt.mp hin)]

theorem Apart.ne_unit {n : ℕ} (hapart : Apart poly n) {i : ℕ} (hpos : 0 < i)
    (hi : i < n) : (clock poly)^[i] (unit true) ≠ unit true := by
  intro heq
  apply hapart 0 i hpos hi
  rw [heq]
  rfl

theorem Apart.xor_ne_unit {n : ℕ} (hapart : Apart poly n) {i j : ℕ}
    (hij : i < j) (hj : j < n) :
    (clock poly)^[j] (unit true) ^^^ (clock poly)^[i] (unit true) ≠
      unit true := by
  intro heq
  apply hapart i j hij hj
  have hshift := congrArg (fun x : BitVec w => x >>> 1) heq
  beta_reduce at hshift
  rw [BitVec.ushiftRight_xor_distrib, unit_true_shiftRight] at hshift
  exact (BitVec.xor_eq_zero_iff.mp hshift).symm

/-- One, two or three set bits are not lost in the register. -/
theorem serial_zero_ne (hpoly : poly.msb = true) {n : ℕ} (hapart : Apart poly n)
    {bits : List Bool} (hlength : bits.length ≤ n)
    (hcount : 1 ≤ bits.count true ∧ bits.count true ≤ 3) :
    serial poly 0#w bits ≠ 0#w := by
  -- the last set bit may be taken to be the last bit of the message
  have hback : ∀ {k l : ℕ}, l < k → (clock poly)^[k] (unit true) =
      (clock poly)^[l] ((clock poly)^[k - l] (unit true)) := by
    intro k l hlt
    rw [← Function.iterate_add_apply, Nat.add_sub_cancel' hlt.le]
  have hzero : ∀ k {x : BitVec w}, (clock poly)^[k] x = 0#w → x = 0#w := by
    intro k x hx
    apply (clock_injective hpoly).iterate k
    rw [hx, iterate_clock_zero]
  have hunit : (unit true : BitVec w) ≠ 0#w := by
    intro heq
    have hw : 0 < w := by
      rw [BitVec.msb_eq_getLsbD_last] at hpoly
      exact lt_of_le_of_lt (Nat.zero_le _) (BitVec.lt_of_getLsbD hpoly)
    have hbit := getLsbD_unit true hw
    rw [heq] at hbit
    simp at hbit
  have hplaces := length_places bits
  have hpairwise := pairwise_places bits
  have hmem : ∀ k ∈ places bits, 1 ≤ k ∧ k ≤ bits.length :=
    fun _ => mem_places
  rw [serial_zero]
  rcases hcase : places bits with _ | ⟨a, _ | ⟨b, _ | ⟨c, _ | ⟨d, rest⟩⟩⟩⟩
  all_goals rw [hcase] at hplaces hpairwise hmem
  all_goals simp only [List.length_cons, List.length_nil, List.foldr_cons,
    List.foldr_nil, List.pairwise_cons, List.mem_cons, List.not_mem_nil,
    BitVec.xor_zero] at hplaces hpairwise hmem ⊢
  · omega
  · exact fun heq => hunit (hzero a heq)
  · have hab : b < a := by simpa using hpairwise
    have ha := hmem a (Or.inl rfl)
    have hb := hmem b (Or.inr (Or.inl rfl))
    rw [hback hab, ← iterate_clock_xor]
    intro heq
    exact hapart.ne_unit (by omega) (by omega)
      (BitVec.xor_eq_zero_iff.mp (hzero b heq))
  · have hab : b < a := hpairwise.1 b (Or.inl rfl)
    have hbc : c < b := by simpa using hpairwise.2
    have ha := hmem a (Or.inl rfl)
    have hc := hmem c (Or.inr (Or.inr (Or.inl rfl)))
    rw [hback (hbc.trans hab), hback hbc, ← iterate_clock_xor,
      ← iterate_clock_xor, ← BitVec.xor_assoc]
    intro heq
    exact hapart.xor_ne_unit (by omega) (by omega)
      (BitVec.xor_eq_zero_iff.mp (hzero c heq))
  · omega

/-- Messages that differ in one, two or three bits leave different contents. -/
theorem serial_ne_of_distance (hpoly : poly.msb = true) {n : ℕ}
    (hapart : Apart poly n) (x : BitVec w) {bits bits' : List Bool}
    (hlength : bits.length ≤ n) (hsame : bits.length = bits'.length)
    (hdistance : 1 ≤ distance bits bits' ∧ distance bits bits' ≤ 3) :
    serial poly x bits ≠ serial poly x bits' := by
  intro heq
  have hlength' : (difference bits bits').length ≤ n := by
    rwa [length_difference hsame]
  apply serial_zero_ne hpoly hapart hlength' hdistance
  calc serial poly 0#w (difference bits bits')
      = serial poly (x ^^^ x) (difference bits bits') := by rw [BitVec.xor_self]
    _ = serial poly x bits ^^^ serial poly x bits' :=
        (serial_xor poly x x hsame).symm
    _ = 0#w := by rw [heq, BitVec.xor_self]

end Distance

section Distinct

/-- The states of `clock`, as numbers and halved. -/
def halves (poly : ℕ) : ℕ → ℕ → List ℕ
  | 0, _ => []
  | n + 1, x =>
      x / 2 :: halves poly n
        (bif (x % 2).beq 1 then x / 2 ^^^ poly else x / 2)

/-- The even and the odd numbers of a list, halved. -/
def deal : List ℕ → List ℕ × List ℕ → List ℕ × List ℕ
  | [], piles => piles
  | x :: xs, (evens, odds) =>
      bif (x % 2).beq 0 then deal xs (x / 2 :: evens, odds)
      else deal xs (evens, x / 2 :: odds)

/-- Whether the numbers of a list differ, digit by digit. -/
def distinct : ℕ → List ℕ → Bool
  | _, [] => true
  | _, [_] => true
  | 0, _ :: _ :: _ => false
  | d + 1, x :: y :: xs =>
      match deal (x :: y :: xs) ([], []) with
      | (evens, odds) => distinct d evens && distinct d odds

theorem beq_eq_decide (m n : ℕ) : m.beq n = decide (m = n) := by
  rw [Bool.eq_iff_iff, Nat.beq_eq, decide_eq_true_eq]

theorem deal_eq (xs evens odds : List ℕ) :
    deal xs (evens, odds) =
      (((xs.filter (· % 2 = 0)).map (· / 2)).reverse ++ evens,
        ((xs.filter (¬ · % 2 = 0)).map (· / 2)).reverse ++ odds) := by
  induction xs generalizing evens odds with
  | nil => rfl
  | cons x xs ih =>
      rw [deal, ih, ih, beq_eq_decide]
      rcases Nat.mod_two_eq_zero_or_one x with hx | hx <;> simp [hx]

theorem nodup_of_distinct {d : ℕ} {xs : List ℕ} (hxs : distinct d xs = true) :
    xs.Nodup := by
  induction d generalizing xs with
  | zero =>
      rcases xs with _ | ⟨x, _ | ⟨y, xs⟩⟩
      · exact List.nodup_nil
      · exact List.nodup_singleton x
      · simp [distinct] at hxs
  | succ d ih =>
      rcases xs with _ | ⟨x, _ | ⟨y, xs⟩⟩
      · exact List.nodup_nil
      · exact List.nodup_singleton x
      · rw [distinct, deal_eq, Bool.and_eq_true] at hxs
        have hevens := ih hxs.1
        have hodds := ih hxs.2
        rw [List.append_nil, List.nodup_reverse] at hevens hodds
        have hperm := List.filter_append_perm (· % 2 = 0) (x :: y :: xs)
        refine hperm.nodup_iff.mp (List.Nodup.append (hevens.of_map _) ?_ ?_)
        · simpa only [decide_not] using hodds.of_map _
        · intro z heven hodd
          simp only [List.mem_filter] at heven hodd
          rw [heven.2] at hodd
          exact Bool.false_ne_true hodd.2

/-- The state of the register as a number. -/
theorem toNat_clock (x : BitVec w) :
    (clock poly x).toNat =
      bif (x.toNat % 2).beq 1 then x.toNat / 2 ^^^ poly.toNat
      else x.toNat / 2 := by
  rw [clock, BitVec.getLsbD, Nat.testBit_zero, beq_eq_decide]
  by_cases hodd : x.toNat % 2 = 1 <;> simp [hodd, Nat.shiftRight_eq_div_pow]

theorem getElem?_halves (n : ℕ) (x : BitVec w) {i : ℕ} (hi : i < n) :
    (halves poly.toNat n x.toNat)[i]? =
      some ((clock poly)^[i] x >>> 1).toNat := by
  induction n generalizing x i with
  | zero => exact absurd hi (Nat.not_lt_zero i)
  | succ n ih =>
      rw [halves, ← toNat_clock]
      cases i with
      | zero =>
          rw [List.getElem?_cons_zero]
          rfl
      | succ i =>
          rw [List.getElem?_cons_succ, ih _ (Nat.lt_of_succ_lt_succ hi)]
          rfl

/-- The states are apart if the check on numbers succeeds. -/
theorem apart_of_distinct {d n : ℕ} (hw : 0 < w)
    (hdistinct : distinct d (halves poly.toNat n 1) = true) : Apart poly n := by
  intro i j hij hj heq
  have hunit : (unit true : BitVec w).toNat = 1 := by
    simp [unit, Nat.one_mod_two_pow_eq_one.mpr hw]
  have hi := getElem?_halves poly n (unit true) (hij.trans hj)
  have hj := getElem?_halves poly n (unit true) hj
  rw [heq, ← hj] at hi
  have hlt : i < (halves poly.toNat n (unit true : BitVec w).toNat).length := by
    by_contra hge
    rw [hj, List.getElem?_eq_none (not_lt.mp hge)] at hi
    cases hi
  rw [hunit] at hlt hi
  exact hij.ne
    ((List.getElem?_inj hlt (nodup_of_distinct hdistinct)).mp hi)

end Distinct

end UdpTransfer.Register
