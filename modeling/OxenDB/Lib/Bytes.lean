import Mathlib

namespace Lib

abbrev Bytes := List UInt8

/-- Offsets are `off_t`: no file grows past this position. -/
def maxFileSize : ℕ := 2 ^ 63 - 1

def leBytes : ℕ → ℕ → Bytes
  | 0, _ => []
  | k + 1, n => UInt8.ofNat n :: leBytes k (n / 256)

def leValue : Bytes → ℕ
  | [] => 0
  | b :: bs => b.toNat + 256 * leValue bs

@[simp] theorem leBytes_length (k n : ℕ) : (leBytes k n).length = k := by
  induction k generalizing n with
  | zero => rfl
  | succ k ih => simp [leBytes, ih]

theorem leValue_leBytes (k n : ℕ) : leValue (leBytes k n) = n % 256 ^ k := by
  induction k generalizing n with
  | zero => simp [leBytes, leValue, Nat.mod_one]
  | succ k ih =>
    have hb : (UInt8.ofNat n).toNat = n % 256 := by simp
    rw [leBytes, leValue, ih, hb, pow_succ', Nat.mod_mul]

theorem leBytes_leValue (bs : Bytes) : leBytes bs.length (leValue bs) = bs := by
  induction bs with
  | nil => rfl
  | cons b bs ih =>
    have hb : b.toNat < 256 := b.toNat_lt
    have hd : (b.toNat + 256 * leValue bs) / 256 = leValue bs := by omega
    have hm : UInt8.ofNat (b.toNat + 256 * leValue bs) = b := by
      apply UInt8.toNat_inj.mp
      rw [UInt8.toNat_ofNat']
      omega
    rw [List.length_cons, leValue, leBytes, hd, hm, ih]

theorem leValue_lt (bs : Bytes) : leValue bs < 256 ^ bs.length := by
  induction bs with
  | nil => simp [leValue]
  | cons b bs ih =>
    have hb : b.toNat < 256 := b.toNat_lt
    rw [leValue, List.length_cons, pow_succ']
    omega

/-- A positional write: a gap below `off` reads as zeros, and an empty write changes nothing. -/
def writeAt (f : Bytes) (off : ℕ) (bs : Bytes) : Bytes :=
  if bs.isEmpty then f
  else f.take off ++ List.replicate (off - f.length) 0 ++ bs ++ f.drop (off + bs.length)

def readAt (f : Bytes) (off n : ℕ) : Option Bytes :=
  if off + n ≤ f.length then some ((f.drop off).take n) else none

@[irreducible] def slice (f : Bytes) (off n : ℕ) : Bytes := (List.range n).map (fun i => f.getD (off + i) 0)

@[simp] theorem writeAt_nil (f : Bytes) (off : ℕ) : writeAt f off [] = f := rfl

theorem writeAt_length (f : Bytes) (off : ℕ) (bs : Bytes) (hb : bs ≠ []) :
    (writeAt f off bs).length = max f.length (off + bs.length) := by
  have he : bs.isEmpty = false := by simpa using hb
  simp only [writeAt, he, Bool.false_eq_true, ↓reduceIte, List.length_append, List.length_take,
    List.length_replicate, List.length_drop]
  omega

theorem writeAt_length_le (f : Bytes) (off : ℕ) (bs : Bytes) :
    f.length ≤ (writeAt f off bs).length := by
  by_cases hb : bs = []
  · simp [hb]
  · rw [writeAt_length f off bs hb]
    exact le_max_left _ _

theorem writeAt_getD (f : Bytes) (off : ℕ) (bs : Bytes) (i : ℕ) :
    (writeAt f off bs).getD i 0 =
      if off ≤ i ∧ i < off + bs.length then bs.getD (i - off) 0 else f.getD i 0 := by
  by_cases hb : bs = []
  · have hi : ¬ (off ≤ i ∧ i < off + bs.length) := by simp [hb]
    simp [hb]
  have he : bs.isEmpty = false := by simpa using hb
  simp only [writeAt, he, Bool.false_eq_true, ↓reduceIte, List.getD_eq_getElem?_getD]
  by_cases hlo : i < off
  · rw [if_neg (by omega), List.append_assoc, List.getElem?_append_left (by simp; omega)]
    by_cases hf : i < f.length
    · rw [List.getElem?_append_left (by simp; omega), List.getElem?_take_of_lt hlo]
    · rw [List.getElem?_append_right (by simp; omega), List.getElem?_replicate,
        List.getElem?_eq_none (by omega)]
      split <;> rfl
  by_cases hhi : i < off + bs.length
  · rw [if_pos ⟨by omega, hhi⟩, List.getElem?_append_left (by simp; omega),
      List.getElem?_append_right (by simp; omega)]
    congr 2
    simp
    omega
  · rw [if_neg (by omega), List.getElem?_append_right (by simp; omega), List.getElem?_drop]
    congr 2
    simp
    omega

theorem writeAt_end (f bs : Bytes) : writeAt f f.length bs = f ++ bs := by
  rw [writeAt]
  split_ifs with hb
  · rw [List.isEmpty_iff.mp hb, List.append_nil]
  · simp

theorem writeAt_zero (f bs : Bytes) (hb : bs ≠ []) (h : f.length ≤ bs.length) : writeAt f 0 bs = bs := by
  have he : bs.isEmpty = false := by simpa using hb
  simp only [writeAt, he, Bool.false_eq_true, if_false, List.take_zero, Nat.zero_sub, List.replicate_zero,
    List.nil_append, Nat.zero_add]
  rw [List.drop_of_length_le h, List.append_nil]

@[simp] theorem slice_length (f : Bytes) (off n : ℕ) : (slice f off n).length = n := by
  simp [slice]

theorem slice_getElem? (f : Bytes) (off n i : ℕ) (hi : i < n) :
    (slice f off n)[i]? = some (f.getD (off + i) 0) := by
  simp [slice, hi]

theorem slice_congr (f g : Bytes) (off n : ℕ) (h : ∀ i < n, f.getD (off + i) 0 = g.getD (off + i) 0) :
    slice f off n = slice g off n := by
  unfold slice
  apply List.map_congr_left
  intro i hi
  exact h i (List.mem_range.mp hi)

theorem readAt_eq (f : Bytes) (off n : ℕ) (h : off + n ≤ f.length) :
    readAt f off n = some (slice f off n) := by
  rw [readAt, if_pos h]
  congr 1
  apply List.ext_getElem?
  intro i
  by_cases hi : i < n
  · rw [slice_getElem? f off n i hi, List.getElem?_take_of_lt hi, List.getElem?_drop,
      List.getD_eq_getElem?_getD, List.getElem?_eq_getElem (by omega), Option.getD_some]
  · rw [List.getElem?_eq_none (by simp; omega), List.getElem?_eq_none (by simp; omega)]

theorem readAt_eq_none (f : Bytes) (off n : ℕ) (h : ¬ off + n ≤ f.length) :
    readAt f off n = none := if_neg h

theorem readAt_some_iff (f : Bytes) (off n : ℕ) (bs : Bytes) :
    readAt f off n = some bs ↔ off + n ≤ f.length ∧ slice f off n = bs := by
  by_cases h : off + n ≤ f.length
  · simp [readAt_eq f off n h, h]
  · simp [readAt_eq_none f off n h, h]

theorem slice_writeAt_same (f : Bytes) (off : ℕ) (bs : Bytes) :
    slice (writeAt f off bs) off bs.length = bs := by
  apply List.ext_getElem?
  intro i
  by_cases hi : i < bs.length
  · rw [slice_getElem? _ _ _ _ hi, writeAt_getD, if_pos ⟨by omega, by omega⟩,
      Nat.add_sub_cancel_left, List.getD_eq_getElem?_getD, List.getElem?_eq_getElem hi,
      Option.getD_some]
  · rw [List.getElem?_eq_none (by simpa using hi), List.getElem?_eq_none (by simpa using hi)]

theorem slice_writeAt_disjoint (f : Bytes) (off : ℕ) (bs : Bytes) (off' n : ℕ)
    (h : off' + n ≤ off ∨ off + bs.length ≤ off') :
    slice (writeAt f off bs) off' n = slice f off' n := by
  apply slice_congr
  intro i hi
  rw [writeAt_getD, if_neg (by omega)]

theorem slice_zero (f : Bytes) : slice f 0 f.length = f := by
  apply List.ext_getElem?
  intro i
  by_cases hi : i < f.length
  · rw [slice_getElem? _ _ _ _ hi, Nat.zero_add, List.getD_eq_getElem?_getD,
      List.getElem?_eq_getElem hi, Option.getD_some]
  · rw [List.getElem?_eq_none (by simpa using hi), List.getElem?_eq_none (by omega)]

theorem slice_append_left (a b : Bytes) (off n : ℕ) (h : off + n ≤ a.length) :
    slice (a ++ b) off n = slice a off n := by
  apply slice_congr
  intro i hi
  rw [List.getD_eq_getElem?_getD, List.getD_eq_getElem?_getD, List.getElem?_append_left (by omega)]

theorem slice_append_right (a b : Bytes) (off n : ℕ) :
    slice (a ++ b) (a.length + off) n = slice b off n := by
  unfold slice
  apply List.map_congr_left
  intro i _
  rw [List.getD_eq_getElem?_getD, List.getD_eq_getElem?_getD,
    List.getElem?_append_right (by omega)]
  congr 2
  omega

theorem slice_drop (f : Bytes) (k off n : ℕ) : slice (f.drop k) off n = slice f (k + off) n := by
  unfold slice
  apply List.map_congr_left
  intro i _
  rw [List.getD_eq_getElem?_getD, List.getD_eq_getElem?_getD, List.getElem?_drop, Nat.add_assoc]

theorem slice_middle (a b c : Bytes) : slice (a ++ (b ++ c)) a.length b.length = b := by
  have h := slice_append_right a (b ++ c) 0 b.length
  rw [Nat.add_zero] at h
  rw [h, slice_append_left b c 0 b.length (by omega), slice_zero]

theorem slice_append (f : Bytes) (off n m : ℕ) :
    slice f off n ++ slice f (off + n) m = slice f off (n + m) := by
  unfold slice
  rw [List.range_add, List.map_append, List.map_map]
  simp only [Function.comp_def, Nat.add_assoc]

theorem slice_eq_take_drop (f : Bytes) (off n : ℕ) (h : off + n ≤ f.length) :
    slice f off n = (f.drop off).take n := by
  have hr := readAt_eq f off n h
  rw [readAt, if_pos h] at hr
  exact (Option.some.inj hr).symm

theorem slice_eq_drop (f : Bytes) (off n : ℕ) (h : off + n = f.length) : slice f off n = f.drop off := by
  rw [slice_eq_take_drop f off n h.le]
  apply List.take_of_length_le
  rw [List.length_drop]
  omega

theorem leBytes_leValue_slice (f : Bytes) (off n : ℕ) :
    leBytes n (leValue (slice f off n)) = slice f off n := by
  have h := leBytes_leValue (slice f off n)
  rwa [slice_length] at h

end Lib
