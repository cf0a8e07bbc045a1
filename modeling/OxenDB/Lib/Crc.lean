import Mathlib

/-!
Shift registers with feedback over xor, least significant bit first: one step, many steps, and a
message fed one bit at a time.
-/

namespace Lib

variable {w : ℕ} (p : BitVec w)

def crcStep (x : BitVec w) : BitVec w := if x.getLsbD 0 then (x >>> 1) ^^^ p else x >>> 1

def crcBit (x : BitVec w) (b : Bool) : BitVec w :=
  if x.getLsbD 0 ^^ b then (x >>> 1) ^^^ p else x >>> 1

def crcBits (x : BitVec w) (bits : List Bool) : BitVec w := bits.foldl (crcBit p) x

def ofBits (w : ℕ) : List Bool → BitVec w
  | [] => 0
  | b :: bs => BitVec.setWidth w (BitVec.ofBool b) ^^^ (ofBits w bs <<< 1)

theorem crcStep_xor (x y : BitVec w) : crcStep p (x ^^^ y) = crcStep p x ^^^ crcStep p y := by
  unfold crcStep
  rw [BitVec.getLsbD_xor, BitVec.ushiftRight_xor_distrib]
  cases x.getLsbD 0 <;> cases y.getLsbD 0 <;> simp only [Bool.xor_false, Bool.xor_true, Bool.not_false,
    Bool.not_true, Bool.false_eq_true, if_true, if_false]
  · rw [BitVec.xor_assoc]
  · rw [BitVec.xor_assoc, BitVec.xor_assoc, BitVec.xor_comm p]
  · rw [BitVec.xor_assoc, BitVec.xor_comm p, BitVec.xor_assoc, BitVec.xor_self, BitVec.xor_zero]

theorem crcStep_iterate_xor (n : ℕ) (x y : BitVec w) :
    (crcStep p)^[n] (x ^^^ y) = (crcStep p)^[n] x ^^^ (crcStep p)^[n] y := by
  induction n generalizing x y with
  | zero => rfl
  | succ n ih => rw [Function.iterate_succ_apply, crcStep_xor, ih]; rfl

theorem getLsbD_of_toNat_lt {x : BitVec w} {k i : ℕ} (h : x.toNat < 2 ^ k) (hi : k ≤ i) :
    x.getLsbD i = false := by
  apply Nat.testBit_lt_two_pow
  exact h.trans_le (Nat.pow_le_pow_right (by omega) hi)

theorem crcStep_shiftLeft (x : BitVec w) (h : x.toNat < 2 ^ (w - 1)) : crcStep p (x <<< 1) = x := by
  have hlow : (x <<< 1).getLsbD 0 = false := by simp
  rw [crcStep, hlow]
  apply BitVec.eq_of_getLsbD_eq
  intro i hi
  by_cases hw : 1 + i < w
  · simp [hw, BitVec.getLsbD_eq_getElem hi]
  · have hx := getLsbD_of_toNat_lt h (show w - 1 ≤ i by omega)
    simp [hw, hx]

theorem crcStep_iterate_shiftLeft (k : ℕ) (x : BitVec w) (h : x.toNat < 2 ^ (w - k)) :
    (crcStep p)^[k] (x <<< k) = x := by
  induction k with
  | zero => simp
  | succ k ih =>
    have hk : x.toNat < 2 ^ (w - k) := h.trans_le (Nat.pow_le_pow_right (by omega) (by omega))
    have hlt : (x <<< k).toNat < 2 ^ (w - 1) := by
      rw [BitVec.toNat_shiftLeft, Nat.shiftLeft_eq]
      apply lt_of_le_of_lt (Nat.mod_le _ _)
      by_cases hw : k + 1 ≤ w
      · calc x.toNat * 2 ^ k < 2 ^ (w - (k + 1)) * 2 ^ k := Nat.mul_lt_mul_of_pos_right h (by positivity)
          _ = 2 ^ (w - 1) := by rw [← pow_add]; congr 1; omega
      · have hz : x.toNat = 0 := by
          rw [Nat.sub_eq_zero_of_le (by omega), pow_zero] at h
          omega
        rw [hz, Nat.zero_mul]
        positivity
    rw [Function.iterate_succ_apply, BitVec.shiftLeft_add, crcStep_shiftLeft p _ hlt, ih hk]

theorem ofBits_lt (w : ℕ) (bits : List Bool) : (ofBits w bits).toNat < 2 ^ bits.length := by
  induction bits with
  | nil => simp [ofBits]
  | cons b bs ih =>
    rw [ofBits, BitVec.toNat_xor, List.length_cons]
    apply Nat.xor_lt_two_pow
    · rw [BitVec.toNat_setWidth]
      apply lt_of_le_of_lt (Nat.mod_le _ _)
      have := (BitVec.ofBool b).isLt
      calc (BitVec.ofBool b).toNat < 2 ^ 1 := this
        _ ≤ 2 ^ (bs.length + 1) := Nat.pow_le_pow_right (by omega) (by omega)
    · rw [BitVec.toNat_shiftLeft, Nat.shiftLeft_eq]
      apply lt_of_le_of_lt (Nat.mod_le _ _)
      omega

theorem getLsbD_ofBits (bits : List Bool) (i : ℕ) (hi : i < w) :
    (ofBits w bits).getLsbD i = bits.getD i false := by
  induction bits generalizing i with
  | nil => simp [ofBits]
  | cons b bs ih =>
    cases i with
    | zero => simp [ofBits, hi]
    | succ i =>
      have h := ih i (by omega)
      simp [ofBits, hi, BitVec.getLsbD_eq_getElem (show i < w by omega)] at h ⊢
      exact h

theorem ofBits_append (bits bits' : List Bool) :
    ofBits w (bits ++ bits') = ofBits w bits ^^^ (ofBits w bits' <<< bits.length) := by
  induction bits with
  | nil => simp [ofBits]
  | cons b bs ih =>
    rw [List.cons_append, ofBits, ofBits, ih, BitVec.shiftLeft_xor_distrib, ← BitVec.shiftLeft_add,
      BitVec.xor_assoc, List.length_cons]

theorem crcBit_eq (x : BitVec w) (b : Bool) :
    crcBit p x b = crcStep p (x ^^^ BitVec.setWidth w (BitVec.ofBool b)) := by
  rcases Nat.eq_zero_or_pos w with rfl | hw
  · exact Subsingleton.elim _ _
  · have hbit : (BitVec.setWidth w (BitVec.ofBool b)).getLsbD 0 = b := by
      simp [hw]
    have hshift : BitVec.setWidth w (BitVec.ofBool b) >>> 1 = 0#w := by
      apply BitVec.eq_of_getLsbD_eq
      intro i hi
      simp
    rw [crcBit, crcStep, BitVec.getLsbD_xor, hbit, BitVec.ushiftRight_xor_distrib, hshift, BitVec.xor_zero]

theorem crcBits_eq (x : BitVec w) (bits : List Bool) (h : bits.length ≤ w) :
    crcBits p x bits = (crcStep p)^[bits.length] (x ^^^ ofBits w bits) := by
  induction bits generalizing x with
  | nil => simp [crcBits, ofBits]
  | cons b bs ih =>
    rw [List.length_cons] at h
    have hlt : (ofBits w bs).toNat < 2 ^ (w - 1) :=
      (ofBits_lt w bs).trans_le (Nat.pow_le_pow_right (by omega) (by omega))
    change crcBits p (crcBit p x b) bs = _
    rw [ih _ (by omega), crcBit_eq, ofBits, ← BitVec.xor_assoc, List.length_cons,
      Function.iterate_succ_apply, crcStep_xor p _ (ofBits w bs <<< 1), crcStep_shiftLeft p _ hlt]

theorem crcBits_append (x : BitVec w) (bits bits' : List Bool) :
    crcBits p x (bits ++ bits') = crcBits p (crcBits p x bits) bits' := List.foldl_append

end Lib
