import Mathlib.Data.Int.ModEq
import Mathlib.Data.List.Basic
import Mathlib.Data.List.GetD
import Mathlib.Data.List.Range
import Mathlib.Tactic.Linarith

/-!
# Machine integers, bounded memory and circular buffers

Integer arithmetic is carried out over `ℤ`, and `signedInt` marks the places
where a result outside the 32-bit range makes the C program undefined.  A memory
region of `cap` cells is a function on offsets, and `memcpy` into or out of it
is defined only when the whole block lies inside the region: a negative length
or an offset past the end has no result.  Over it stands the circular view of
the region, in which every integer names a cell by its residue modulo `cap`.  A
block copied in two pieces round the end of the region is, in that view, one
block.
-/

namespace UdpTransfer.Memory

/-- The value of a signed 32-bit computation, which has none on overflow. -/
def signedInt (value : ℤ) : Option ℤ :=
  if -2147483648 ≤ value ∧ value ≤ 2147483647 then some value else none

theorem signedInt_eq_some {value result : ℤ} :
    signedInt value = some result ↔
      result = value ∧ -2147483648 ≤ value ∧ value ≤ 2147483647 := by
  rw [signedInt]
  split
  · rename_i hrange
    simp [hrange, eq_comm]
  · rename_i hrange
    simp [hrange]

variable {α : Type*}

/-- The cells from `off` on are those of `src`, the others those of `mem`. -/
def write (mem : ℕ → α) (off : ℕ) (src : List α) : ℕ → α := fun i =>
  if off ≤ i then (src[i - off]?).getD (mem i) else mem i

def read (mem : ℕ → α) (off len : ℕ) : List α :=
  (List.range len).map fun i => mem (off + i)

/-- `memcpy (region + off, src + start, len)`. -/
def memcpyIn (cap : ℤ) (mem : ℕ → α) (off : ℤ) (src : List α)
    (start len : ℤ) : Option (ℕ → α) :=
  if 0 ≤ off ∧ 0 ≤ len ∧ off + len ≤ cap ∧
      0 ≤ start ∧ start + len ≤ src.length then
    some (write mem off.toNat ((src.drop start.toNat).take len.toNat))
  else
    none

/-- The block `memcpy (dst, region + off, len)` copies. -/
def memcpyOut (cap : ℤ) (mem : ℕ → α) (off len : ℤ) : Option (List α) :=
  if 0 ≤ off ∧ 0 ≤ len ∧ off + len ≤ cap then
    some (read mem off.toNat len.toNat)
  else
    none

/-- The cell that circular position `a` names. -/
def circ (cap : ℤ) (mem : ℕ → α) (a : ℤ) : α := mem (a % cap).toNat

/-- The `len` cells from circular position `a` on. -/
def circRead (cap : ℤ) (mem : ℕ → α) (a : ℤ) (len : ℕ) : List α :=
  (List.range len).map fun i : ℕ => circ cap mem (a + i)

/-- `mem'` is `mem` with `src` written from circular position `a` on. -/
structure CircWrite (cap : ℤ) (mem mem' : ℕ → α) (a : ℤ) (src : List α) :
    Prop where
  inside : ∀ (i : ℕ) (hi : i < src.length), circ cap mem' (a + i) = src[i]
  outside : ∀ b : ℤ, (∀ i : ℕ, i < src.length → ¬ b ≡ a + i [ZMOD cap]) →
    circ cap mem' b = circ cap mem b

@[simp]
theorem length_read (mem : ℕ → α) (off len : ℕ) :
    (read mem off len).length = len := by
  simp [read]

theorem read_add (mem : ℕ → α) (off m n : ℕ) :
    read mem off (m + n) = read mem off m ++ read mem (off + m) n := by
  simp only [read, List.range_add, List.map_append, List.map_map]
  congr 1
  apply List.map_congr_left
  intro i _
  simp only [Function.comp_apply, add_assoc]

theorem read_write (mem : ℕ → α) (off : ℕ) (src : List α) :
    read (write mem off src) off src.length = src := by
  apply List.ext_getElem (length_read _ _ _)
  intro i hi hi'
  simp only [read, List.getElem_map, List.getElem_range, write]
  rw [if_pos (Nat.le_add_right off i), Nat.add_sub_cancel_left,
    List.getElem?_eq_getElem hi', Option.getD_some]

/-- What is written goes on where the cells before it end. -/
theorem read_write_append (mem : ℕ → α) (off : ℕ) (src : List α) :
    read (write mem off src) 0 (off + src.length) = read mem 0 off ++ src := by
  rw [read_add, Nat.zero_add, read_write]
  congr 1
  apply List.map_congr_left
  intro i hi
  have hlt := List.mem_range.1 hi
  rw [write, if_neg (by omega)]

@[simp]
theorem length_circRead (cap : ℤ) (mem : ℕ → α) (a : ℤ) (len : ℕ) :
    (circRead cap mem a len).length = len := by
  simp [circRead]

@[simp]
theorem getElem_circRead (cap : ℤ) (mem : ℕ → α) (a : ℤ) (len i : ℕ)
    (hi : i < (circRead cap mem a len).length) :
    (circRead cap mem a len)[i] = circ cap mem (a + i) := by
  simp [circRead]

theorem circ_congr {cap : ℤ} {mem : ℕ → α} {a b : ℤ} (h : a ≡ b [ZMOD cap]) :
    circ cap mem a = circ cap mem b := by
  rw [circ, circ, h]

theorem circ_of_bounds {cap : ℤ} {mem : ℕ → α} {a : ℤ} (h0 : 0 ≤ a)
    (h1 : a < cap) : circ cap mem a = mem a.toNat := by
  rw [circ, Int.emod_eq_of_lt h0 h1]

theorem circRead_congr {cap : ℤ} {mem mem' : ℕ → α} {a b : ℤ} {len : ℕ}
    (h : ∀ i : ℕ, i < len → circ cap mem (a + i) = circ cap mem' (b + i)) :
    circRead cap mem a len = circRead cap mem' b len := by
  apply List.map_congr_left
  intro i hi
  exact h i (List.mem_range.1 hi)

theorem circRead_add (cap : ℤ) (mem : ℕ → α) (a : ℤ) (m n : ℕ) :
    circRead cap mem a (m + n) =
      circRead cap mem a m ++ circRead cap mem (a + m) n := by
  simp only [circRead, List.range_add, List.map_append, List.map_map]
  congr 1
  apply List.map_congr_left
  intro i _
  simp only [Function.comp_apply, Nat.cast_add, add_assoc]

theorem memcpyOut_eq_circRead {cap : ℤ} {mem : ℕ → α} {off len : ℤ}
    {out : List α} (h : memcpyOut cap mem off len = some out) :
    out = circRead cap mem off len.toNat := by
  rw [memcpyOut] at h
  split at h
  · rename_i hb
    obtain ⟨h0, hlen, hcap⟩ := hb
    cases h
    apply List.map_congr_left
    intro i hi
    have hi' := List.mem_range.1 hi
    rw [circ_of_bounds (by omega) (by omega)]
    congr 1
    omega
  · cases h

theorem memcpyOut_bounds {cap : ℤ} {mem : ℕ → α} {off len : ℤ} {out : List α}
    (h : memcpyOut cap mem off len = some out) :
    0 ≤ off ∧ 0 ≤ len ∧ off + len ≤ cap := by
  rw [memcpyOut] at h
  split at h
  · assumption
  · cases h

/-- Reading up to the end of the region and on from its start is one circular
read. -/
theorem memcpyOut_split {cap : ℤ} {mem : ℕ → α} {off len : ℤ}
    {first second : List α} (hfirst : memcpyOut cap mem off (cap - off) = some first)
    (hsecond : memcpyOut cap mem 0 (len - (cap - off)) = some second) :
    first ++ second = circRead cap mem off len.toNat := by
  have hb := memcpyOut_bounds hfirst
  have hb' := memcpyOut_bounds hsecond
  have hlen : len.toNat = (cap - off).toNat + (len - (cap - off)).toNat := by
    omega
  rw [hlen, circRead_add, memcpyOut_eq_circRead hfirst,
    memcpyOut_eq_circRead hsecond]
  congr 1
  apply circRead_congr
  intro i _
  apply circ_congr
  have : off + ((cap - off).toNat : ℤ) + i = 0 + i + cap := by omega
  rw [this]
  exact (Int.ModEq.symm (by simp [Int.ModEq]))

theorem memcpyIn_bounds {cap : ℤ} {mem mem' : ℕ → α} {off start len : ℤ}
    {src : List α} (h : memcpyIn cap mem off src start len = some mem') :
    0 ≤ off ∧ 0 ≤ len ∧ off + len ≤ cap ∧
      0 ≤ start ∧ start + len ≤ src.length := by
  rw [memcpyIn] at h
  split at h
  · assumption
  · cases h

/-- A copy inside the region has a result. -/
theorem memcpyIn_isSome {cap : ℤ} (mem : ℕ → α) {off start len : ℤ}
    {src : List α} (hoff : 0 ≤ off ∧ 0 ≤ len ∧ off + len ≤ cap)
    (hsrc : 0 ≤ start ∧ start + len ≤ src.length) :
    ∃ mem', memcpyIn cap mem off src start len = some mem' :=
  ⟨_, if_pos ⟨hoff.1, hoff.2.1, hoff.2.2, hsrc⟩⟩

/-- No more of the source matters than is copied. -/
theorem memcpyIn_take {cap : ℤ} {mem : ℕ → α} {off start len : ℤ}
    {src : List α} {n : ℕ} (hn : n ≤ src.length) (hlen : start + len ≤ n) :
    memcpyIn cap mem off (src.take n) start len =
      memcpyIn cap mem off src start len := by
  have hlength : (src.take n).length = n := List.length_take_of_le hn
  rw [memcpyIn, memcpyIn, hlength]
  by_cases hbounds : 0 ≤ off ∧ 0 ≤ len ∧ off + len ≤ cap ∧ 0 ≤ start
  · rw [if_pos (by omega), if_pos (by omega), List.drop_take, List.take_take,
      min_eq_left (by omega)]
  · rw [if_neg (by omega), if_neg (by omega)]

theorem memcpyIn_circWrite {cap : ℤ} {mem mem' : ℕ → α} {off start len : ℤ}
    {src : List α} (hcap : 0 < cap)
    (h : memcpyIn cap mem off src start len = some mem') :
    CircWrite cap mem mem' off ((src.drop start.toNat).take len.toNat) := by
  obtain ⟨h0, hlen, hoff, hstart, hsrc⟩ := memcpyIn_bounds h
  rw [memcpyIn, if_pos ⟨h0, hlen, hoff, hstart, hsrc⟩] at h
  cases h
  constructor
  · intro i hi
    simp only [List.length_take, List.length_drop] at hi
    rw [circ_of_bounds (by omega) (by omega), write, if_pos (by omega)]
    have hpos : (off + (i : ℤ)).toNat - off.toNat = i := by omega
    rw [hpos, List.getElem?_eq_getElem (by simp; omega), Option.getD_some]
  · intro b hb
    rw [circ, circ, write]
    split
    · rename_i hle
      rw [List.getElem?_eq_none, Option.getD_none]
      by_contra hlt
      push Not at hlt
      apply hb _ hlt
      have hmod := Int.emod_nonneg b (by omega : cap ≠ 0)
      have : off + (((b % cap).toNat - off.toNat : ℕ) : ℤ) = b % cap := by omega
      rw [this]
      exact (Int.mod_modEq b cap).symm
    · rfl

/-- Two writes one behind the other are one write. -/
theorem CircWrite.append {cap : ℤ} {mem mid mem' : ℕ → α} {a : ℤ}
    {first second : List α} (hfirst : CircWrite cap mem mid a first)
    (hsecond : CircWrite cap mid mem' (a + first.length) second)
    (hfit : (first.length : ℤ) + second.length ≤ cap) :
    CircWrite cap mem mem' a (first ++ second) := by
  constructor
  · intro i hi
    by_cases hlt : i < first.length
    · rw [List.getElem_append_left hlt, hsecond.outside, hfirst.inside i hlt]
      intro j hj hmod
      have hdvd := (Int.modEq_iff_dvd.1 hmod)
      obtain ⟨k, hk⟩ := hdvd
      have : 0 < cap * k ∧ cap * k < cap := by constructor <;> omega
      have hk0 : 0 < k := by
        by_contra hneg
        have := mul_nonpos_of_nonneg_of_nonpos (by omega : 0 ≤ cap)
          (by omega : k ≤ 0)
        omega
      have := le_mul_of_one_le_right (by omega : 0 ≤ cap) hk0
      omega
    · push Not at hlt
      rw [List.getElem_append_right hlt]
      have hi' : i - first.length < second.length := by
        rw [List.length_append] at hi
        omega
      rw [← hsecond.inside (i - first.length) hi']
      congr 1
      omega
  · intro b hb
    rw [hsecond.outside, hfirst.outside]
    · intro i hi
      exact hb i (by rw [List.length_append]; omega)
    · intro i hi
      have := hb (first.length + i) (by rw [List.length_append]; omega)
      simpa only [Nat.cast_add, add_assoc] using this

theorem CircWrite.congr {cap : ℤ} {mem mem' : ℕ → α} {a b : ℤ} {src : List α}
    (hwrite : CircWrite cap mem mem' a src) (hmod : a ≡ b [ZMOD cap]) :
    CircWrite cap mem mem' b src := by
  constructor
  · intro i hi
    rw [← hwrite.inside i hi]
    exact circ_congr (hmod.symm.add_right _)
  · intro c hc
    apply hwrite.outside
    intro i hi h
    exact hc i hi (h.trans (hmod.add_right _))

/-- Writing up to the end of the region and on from its start is one circular
write. -/
theorem memcpyIn_split {cap : ℤ} {mem mid mem' : ℕ → α} {off len : ℤ}
    {src : List α} (hcap : 0 < cap) (hlen : len ≤ cap)
    (hfirst : memcpyIn cap mem off src 0 (cap - off) = some mid)
    (hsecond : memcpyIn cap mid 0 src (cap - off) (len - (cap - off)) =
      some mem') :
    CircWrite cap mem mem' off (src.take len.toNat) := by
  have hb := memcpyIn_bounds hfirst
  have hb' := memcpyIn_bounds hsecond
  have h1 := memcpyIn_circWrite hcap hfirst
  have h2 := memcpyIn_circWrite hcap hsecond
  simp only [Int.toNat_zero, List.drop_zero] at h1
  have hlength : (src.take (cap - off).toNat).length = (cap - off).toNat := by
    simp only [List.length_take]
    omega
  have h2' : CircWrite cap mid mem' (off + (src.take (cap - off).toNat).length)
      ((src.drop (cap - off).toNat).take (len - (cap - off)).toNat) := by
    apply h2.congr
    rw [hlength]
    have : off + (((cap - off).toNat : ℕ) : ℤ) = 0 + cap := by omega
    rw [this]
    exact Int.ModEq.symm (by simp [Int.ModEq])
  have hsum := h1.append h2' (by
    rw [hlength]
    simp only [List.length_take, List.length_drop]
    omega)
  have htake : src.take len.toNat =
      src.take (cap - off).toNat ++
        (src.drop (cap - off).toNat).take (len - (cap - off)).toNat := by
    rw [← List.take_add]
    congr 1
    omega
  rw [htake]
  exact hsum

end UdpTransfer.Memory
