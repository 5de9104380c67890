import Mathlib.Data.List.Basic
import Mathlib.Data.Nat.Bitwise
import Mathlib.Tactic.Ring

open List

-- Sequences of bytes: numbers in big-endian order, buffers and blocks.
namespace Bytes

-- The lowest `k` bytes of a number, the most significant one first.
def toBe : (k : Nat) → (n : Nat) → List UInt8
  | 0, _ => []
  | k + 1, n => toBe k (n / 256) ++ [UInt8.ofNat n]

def ofBe (bytes : List UInt8) : Nat :=
  bytes.foldl (fun n byte => n * 256 + byte.toNat) 0

-- `n & !mask`.
def clearBits (n mask : Nat) : Nat :=
  n - (n &&& mask)

variable {α : Type}

-- `Vec::resize`: a buffer that is too long loses its end.
def resize (xs : List α) (size : Nat) (x : α) : List α :=
  xs.take size ++ replicate (size - xs.length) x

-- `slice::chunks`, as many as the fuel allows.
def chunksFrom (size : Nat) : (fuel : Nat) → List α → List (List α)
  | 0, _ => []
  | fuel + 1, xs => if xs.isEmpty then [] else xs.take size :: chunksFrom size fuel (xs.drop size)

def chunks (size : Nat) (xs : List α) : List (List α) :=
  chunksFrom size xs.length xs

-- A loop that fills the places of an array one after the other.
def fill (f : List α → Nat → α) (first count : Nat) (xs : List α) : List α :=
  (List.range' first count).foldl (fun xs i => xs.set i (f xs i)) xs

@[simp]
theorem length_toBe (k n : Nat) : (toBe k n).length = k := by
  induction k generalizing n
  case zero => rfl
  case succ k hi => simp [toBe, hi]

theorem toBe_mod (k n : Nat) : toBe k (n % 256 ^ k) = toBe k n := by
  induction k generalizing n
  case zero => rfl
  case succ k hi =>
    have hd : n % 256 ^ (k + 1) / 256 = n / 256 % 256 ^ k := by
      rw [Nat.pow_succ', Nat.mod_mul_right_div_self]
    have hm : UInt8.ofNat (n % 256 ^ (k + 1)) = UInt8.ofNat n := by
      apply UInt8.toNat_inj.mp
      exact Nat.mod_mod_of_dvd n (Dvd.intro_left (256 ^ k) rfl)
    rw [toBe, toBe, hd, hi, hm]

theorem clearBits_two_pow (n k : Nat) : clearBits n (2 ^ k - 1) = n - n % 2 ^ k := by
  rw [clearBits, Nat.and_two_pow_sub_one_eq_mod]

@[simp]
theorem length_resize (xs : List α) (size : Nat) (x : α) : (resize xs size x).length = size := by
  simp only [resize, length_append, length_take, length_replicate]
  omega

theorem resize_of_le (h : xs.length ≤ size) (x : α) :
    resize xs size x = xs ++ replicate (size - xs.length) x := by
  rw [resize, take_of_length_le h]

section

variable (hs : 0 < size)
include hs

theorem chunksFrom_eq (hf : n ≤ fuel) (hl : xs.length = n * size) :
    chunksFrom size fuel xs = (List.range n).map fun i => (xs.drop (i * size)).take size := by
  induction n generalizing fuel xs
  case zero =>
    obtain rfl : xs = [] := length_eq_zero_iff.mp (by simpa using hl)
    cases fuel <;> rfl
  case succ n hi =>
    obtain ⟨fuel, rfl⟩ : ∃ m, fuel = m + 1 := ⟨fuel - 1, by omega⟩
    have he : xs ≠ [] := by
      rintro rfl
      simp only [length_nil, Nat.succ_mul] at hl
      omega
    have hd : (xs.drop size).length = n * size := by
      rw [length_drop, hl, Nat.succ_mul]
      omega
    rw [chunksFrom, if_neg (by simpa using he), hi (by omega) hd, range_succ_eq_map,
      map_cons, map_map]
    simp [Nat.succ_mul, Nat.add_comm]

theorem chunks_eq (hl : xs.length = n * size) :
    chunks size xs = (List.range n).map fun i => (xs.drop (i * size)).take size :=
  chunksFrom_eq hs (by rw [hl]; exact Nat.le_mul_of_pos_right n hs) hl

theorem flatten_chunksFrom (hf : xs.length ≤ fuel) :
    (chunksFrom size fuel xs).flatten = xs := by
  induction fuel generalizing xs
  case zero =>
    obtain rfl := eq_nil_of_length_eq_zero (Nat.le_zero.mp hf)
    rfl
  case succ fuel ih =>
    rw [chunksFrom]
    split
    case isTrue he => exact (isEmpty_iff.mp he).symm
    case isFalse he =>
      rw [flatten_cons, ih (by rw [length_drop]; omega), take_append_drop]

theorem flatten_chunks (xs : List α) : (chunks size xs).flatten = xs :=
  flatten_chunksFrom hs (Nat.le_refl _)

end

theorem length_chunksFrom (h : chunk ∈ chunksFrom size fuel xs) : chunk.length ≤ size := by
  induction fuel generalizing xs
  case zero => cases h
  case succ fuel ih =>
    rw [chunksFrom] at h
    split at h
    case isTrue => cases h
    rcases mem_cons.mp h with rfl | h
    · rw [length_take]
      exact Nat.min_le_left ..
    · exact ih h

theorem length_chunks (h : chunk ∈ chunks size xs) : chunk.length ≤ size :=
  length_chunksFrom h

section Fill

variable {W : Nat → α} {count : Nat}

@[simp]
theorem length_fill : (fill f first count xs).length = xs.length := by
  induction count generalizing first xs
  case zero => rfl
  case succ count hi =>
    exact hi.trans length_set

-- What a loop computes place by place from the places before is the solution of its equations.
theorem getD_fill (hl : first + count ≤ xs.length) (hx : ∀ j < first, xs.getD j d = W j)
    (hf : ∀ xs i, first ≤ i → (∀ j < i, xs.getD j d = W j) → f xs i = W i) :
    ∀ j < first + count, (fill f first count xs).getD j d = W j := by
  induction count generalizing first xs
  case zero => exact hx
  case succ count hi =>
    have hs : ∀ j < first + 1, (xs.set first (f xs first)).getD j d = W j := by
      intro j hj
      by_cases he : j = first
      · subst he
        rw [getD_eq_getElem?_getD, getElem?_set_self (by omega), Option.getD_some]
        exact hf xs j le_rfl hx
      · rw [getD_eq_getElem?_getD, getElem?_set_ne (Ne.symm he),
          ← getD_eq_getElem?_getD]
        exact hx j (by omega)
    have hr : ∀ j < first + 1 + count,
        (fill f (first + 1) count (xs.set first (f xs first))).getD j d = W j :=
      hi (by simp only [length_set]; omega) hs fun ys i hm => hf ys i (by omega)
    intro j hj
    exact hr j (by omega)

end Fill

end Bytes
