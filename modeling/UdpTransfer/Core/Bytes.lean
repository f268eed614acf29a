import Mathlib.Data.List.Basic
import Mathlib.Data.Nat.Digits.Lemmas
import Mathlib.Tactic.Ring

/-!
# Bytes at addresses

A memory maps addresses to bytes.  A block that is stored in it can be read
back piece by piece, and a machine word is stored as its digits to the base
256, the lowest first.  On the network the highest comes first.
-/

namespace UdpTransfer.Bytes

/-- The `len` bytes from address `a` on. -/
def bytesAt (memory : ℤ → UInt8) (a : ℤ) (len : ℕ) : List UInt8 :=
  (List.range len).map fun i : ℕ => memory (a + i)

/-- The memory with `bytes` stored from address `a` on. -/
def overlay (memory : ℤ → UInt8) (a : ℤ) (bytes : List UInt8) : ℤ → UInt8 :=
  fun b => if a ≤ b then (bytes[(b - a).toNat]?).getD (memory b) else memory b

/-- The lowest `len` digits to the base 256, the lowest first. -/
def leBytes : ℕ → ℕ → List UInt8
  | 0, _ => []
  | len + 1, value => UInt8.ofNat value :: leBytes len (value / 256)

def leValue : List UInt8 → ℕ
  | [] => 0
  | byte :: bytes => byte.toNat + 256 * leValue bytes

def wordBytes (word : UInt32) : List UInt8 := leBytes 4 word.toNat

/-- The 32-bit word at address `a`. -/
def wordAt (memory : ℤ → UInt8) (a : ℤ) : UInt32 :=
  UInt32.ofNat (leValue (bytesAt memory a 4))

@[simp]
theorem length_bytesAt (memory : ℤ → UInt8) (a : ℤ) (len : ℕ) :
    (bytesAt memory a len).length = len := by
  simp [bytesAt]

@[simp]
theorem length_leBytes (len value : ℕ) : (leBytes len value).length = len := by
  induction len generalizing value with
  | zero => rfl
  | succ len ih => rw [leBytes, List.length_cons, ih]

@[simp]
theorem length_wordBytes (word : UInt32) : (wordBytes word).length = 4 :=
  length_leBytes 4 word.toNat

theorem leValue_leBytes (len value : ℕ) :
    leValue (leBytes len value) = value % 256 ^ len := by
  induction len generalizing value with
  | zero => simp [leBytes, leValue, Nat.mod_one]
  | succ len ih =>
      rw [leBytes, leValue, ih, pow_succ', Nat.mod_mul]
      rfl

theorem leValue_lt (bytes : List UInt8) :
    leValue bytes < 256 ^ bytes.length := by
  induction bytes with
  | nil => exact Nat.one_pos
  | cons byte bytes ih =>
      have hbyte := byte.toNat_lt
      rw [leValue, List.length_cons, pow_succ]
      omega

theorem leBytes_leValue (bytes : List UInt8) :
    leBytes bytes.length (leValue bytes) = bytes := by
  induction bytes with
  | nil => rfl
  | cons byte bytes ih =>
      have hbyte := byte.toNat_lt
      have hlow : UInt8.ofNat (byte.toNat + 256 * leValue bytes) = byte := by
        apply UInt8.toNat_inj.mp
        rw [UInt8.toNat_ofNat']
        omega
      have hhigh : (byte.toNat + 256 * leValue bytes) / 256 = leValue bytes := by
        omega
      rw [List.length_cons, leValue, leBytes, hlow, hhigh, ih]

/-- Any four bytes are those of a word. -/
theorem wordBytes_leValue {bytes : List UInt8} (hlength : bytes.length = 4) :
    wordBytes (UInt32.ofNat (leValue bytes)) = bytes := by
  have hlt : leValue bytes < 2 ^ 32 := by
    have hvalue := leValue_lt bytes
    rwa [hlength] at hvalue
  rw [wordBytes, UInt32.toNat_ofNat', Nat.mod_eq_of_lt hlt, ← hlength,
    leBytes_leValue]

theorem ofNat_leValue_wordBytes (word : UInt32) :
    UInt32.ofNat (leValue (wordBytes word)) = word := by
  have hlt : word.toNat < 256 ^ 4 := word.toNat_lt
  rw [wordBytes, leValue_leBytes, Nat.mod_eq_of_lt hlt, UInt32.ofNat_toNat]

theorem wordAt_eq {memory : ℤ → UInt8} {a : ℤ} {word : UInt32}
    (hbytes : bytesAt memory a 4 = wordBytes word) : wordAt memory a = word := by
  rw [wordAt, hbytes, ofNat_leValue_wordBytes]

/-- A piece of a stored block. -/
theorem bytesAt_overlay (memory : ℤ → UInt8) (a : ℤ)
    (before piece after : List UInt8) :
    bytesAt (overlay memory a (before ++ piece ++ after)) (a + before.length)
      piece.length = piece := by
  apply List.ext_getElem (length_bytesAt _ _ _)
  intro i hi hi'
  have hplace : (a + (before.length : ℤ) + i - a).toNat = before.length + i := by
    omega
  have hlt : before.length + i < (before ++ piece).length := by
    rw [List.length_append]
    omega
  simp only [bytesAt, List.getElem_map, List.getElem_range, overlay]
  rw [if_pos (by omega), hplace, List.getElem?_append_left hlt,
    List.getElem?_append_right (Nat.le_add_right _ _), Nat.add_sub_cancel_left,
    List.getElem?_eq_getElem hi', Option.getD_some]

/-- A word among the bytes of a stored block. -/
theorem wordAt_overlay (memory : ℤ → UInt8) (a : ℤ)
    (before : List UInt8) (word : UInt32) (after : List UInt8) :
    wordAt (overlay memory a (before ++ wordBytes word ++ after))
      (a + before.length) = word :=
  wordAt_eq (bytesAt_overlay memory a before (wordBytes word) after)

/-! ## Network order -/

/-- The word with its bytes the other way round, on a host that stores the
lowest first. -/
def htonl (word : UInt32) : UInt32 :=
  UInt32.ofNat (leValue (wordBytes word).reverse)

def ntohl (word : UInt32) : UInt32 :=
  UInt32.ofNat (leValue (wordBytes word).reverse)

theorem wordBytes_htonl (word : UInt32) :
    wordBytes (htonl word) = (wordBytes word).reverse :=
  wordBytes_leValue (by simp)

theorem ntohl_htonl (word : UInt32) : ntohl (htonl word) = word := by
  rw [ntohl, wordBytes_htonl, List.reverse_reverse, ofNat_leValue_wordBytes]

/-- Any four bytes are a word in network order. -/
theorem exists_wordBytes_htonl {bytes : List UInt8} (hlength : bytes.length = 4) :
    ∃ word, wordBytes (htonl word) = bytes := by
  refine ⟨UInt32.ofNat (leValue bytes.reverse), ?_⟩
  rw [wordBytes_htonl, wordBytes_leValue (by simpa using hlength),
    List.reverse_reverse]

end UdpTransfer.Bytes
