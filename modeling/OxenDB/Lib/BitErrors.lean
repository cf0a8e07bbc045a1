import OxenDB.Lib.Bytes
import OxenDB.Lib.Crc

/-!
Errors in a message as sets of flipped bits, and which of them a shift register tells apart from
no error: those of odd weight, and those that fit into its width.
-/

namespace Lib

def bit (b : Bool) : ZMod 2 := if b then 1 else 0

theorem bit_xor (a b : Bool) : bit (a ^^ b) = bit a + bit b := by
  cases a <;> cases b <;> decide

def pattern (e : ℕ → Bool) (n : ℕ) : List Bool := (List.range n).map e

@[simp] theorem pattern_length (e : ℕ → Bool) (n : ℕ) : (pattern e n).length = n := by
  simp [pattern]

theorem pattern_add (e : ℕ → Bool) (a n : ℕ) :
    pattern e (a + n) = pattern e a ++ pattern (fun k => e (a + k)) n := by
  simp [pattern, List.range_add, Function.comp_def]

theorem pattern_false {e : ℕ → Bool} {n : ℕ} (h : ∀ k < n, e k = false) :
    pattern e n = List.replicate n false := by
  apply List.eq_replicate_iff.mpr
  refine ⟨by simp, ?_⟩
  intro b hb
  obtain ⟨k, hk, rfl⟩ := List.mem_map.mp hb
  exact h k (List.mem_range.mp hk)

theorem pattern_getD (e : ℕ → Bool) (n i : ℕ) (hi : i < n) : (pattern e n).getD i false = e i := by
  simp [pattern, hi]

def weight (e : ℕ → Bool) (n : ℕ) : ℕ := ((Finset.range n).filter (e · = true)).card

theorem weight_cast (e : ℕ → Bool) (n : ℕ) :
    (weight e n : ZMod 2) = ∑ i ∈ Finset.range n, bit (e i) := by
  rw [weight, ← Finset.sum_boole]
  rfl

theorem weight_add (e : ℕ → Bool) (a n : ℕ) :
    weight e (a + n) = weight e a + weight (fun k => e (a + k)) n := by
  simp only [weight, Finset.card_filter, Finset.sum_range_add]

theorem weight_false {e : ℕ → Bool} {n : ℕ} (h : ∀ k < n, e k = false) : weight e n = 0 := by
  rw [weight, Finset.card_eq_zero, Finset.filter_eq_empty_iff]
  intro k hk
  simp [h k (Finset.mem_range.mp hk)]

theorem weight_finset (E : Finset ℕ) (n : ℕ) (h : ∀ k ∈ E, k < n) : weight (· ∈ E) n = E.card := by
  rw [weight]
  congr 1
  ext k
  simp only [Finset.mem_filter, Finset.mem_range, decide_eq_true_eq]
  exact ⟨fun hk => hk.2, fun hk => ⟨h k hk, hk⟩⟩

/-- Bit `k` of a byte string is bit `k % 8` of byte `k / 8`, counted from the least significant. -/
def flipBits (e : ℕ → Bool) (f : Bytes) : Bytes :=
  f.mapIdx fun i b => b ^^^ UInt8.ofBitVec (BitVec.ofFnLE fun j : Fin 8 => e (8 * i + j))

@[simp] theorem flipBits_length (e : ℕ → Bool) (f : Bytes) : (flipBits e f).length = f.length := by
  simp [flipBits]

theorem flipBits_cons (e : ℕ → Bool) (b : UInt8) (f : Bytes) :
    flipBits e (b :: f) = (b ^^^ UInt8.ofBitVec (BitVec.ofFnLE fun j : Fin 8 => e j)) ::
      flipBits (fun k => e (8 + k)) f := by
  simp only [flipBits, List.mapIdx_cons, Nat.mul_zero, Nat.zero_add, Nat.mul_add, Nat.mul_one,
    Nat.add_comm _ 8, Nat.add_assoc]

theorem flipBits_drop (e : ℕ → Bool) (f : Bytes) (n : ℕ) :
    (flipBits e f).drop n = flipBits (fun k => e (8 * n + k)) (f.drop n) := by
  apply List.ext_getElem?
  intro i
  simp only [flipBits, List.getElem?_drop, List.getElem?_mapIdx, Nat.mul_add, Nat.add_assoc]

theorem flipBits_take (e : ℕ → Bool) (f : Bytes) (n : ℕ) : (flipBits e f).take n = flipBits e (f.take n) := by
  apply List.ext_getElem?
  intro i
  simp only [flipBits, List.getElem?_take, List.getElem?_mapIdx]
  split <;> rfl

theorem testBit_flipByte (e : ℕ → Bool) (b : UInt8) (j : ℕ) (hj : j < 8) :
    (b ^^^ UInt8.ofBitVec (BitVec.ofFnLE fun j : Fin 8 => e j)).toNat.testBit j = (b.toNat.testBit j ^^ e j) := by
  rw [UInt8.toNat_xor, Nat.testBit_xor]
  simp [hj]

section Register

variable {w : ℕ} (p : BitVec w)

def parity (x : BitVec w) : ZMod 2 := ∑ i ∈ Finset.range w, bit (x.getLsbD i)

theorem parity_zero : parity (0#w) = 0 := by
  simp [parity, bit]

theorem parity_xor (x y : BitVec w) : parity (x ^^^ y) = parity x + parity y := by
  simp only [parity, BitVec.getLsbD_xor, bit_xor, Finset.sum_add_distrib]

theorem parity_shift (x : BitVec w) : parity (x >>> 1) + bit (x.getLsbD 0) = parity x := by
  have hsum := Finset.sum_range_succ' (fun i => bit (x.getLsbD i)) w
  rw [Finset.sum_range_succ, BitVec.getLsbD_of_ge x w le_rfl] at hsum
  simp only [bit, Bool.false_eq_true, if_false, add_zero] at hsum
  simp only [parity, bit, BitVec.getLsbD_ushiftRight, Nat.add_comm 1]
  exact hsum.symm

theorem crcBit_parity (hp : parity p = 1) (x : BitVec w) (b : Bool) :
    parity (crcBit p x b) = parity x + bit b := by
  have hshift := parity_shift x
  rw [crcBit]
  cases hx : x.getLsbD 0 <;> cases b <;>
    simp only [hx, Bool.xor_false, Bool.xor_true, Bool.not_false, Bool.not_true, Bool.false_eq_true, if_true,
      if_false, bit, add_zero] at hshift ⊢
  · exact hshift
  · rw [parity_xor, hp, hshift]
  · rw [parity_xor, hp, hshift]
  · rw [← hshift, add_assoc, CharTwo.add_self_eq_zero, add_zero]

theorem crcBits_parity (hp : parity p = 1) (x : BitVec w) (bits : List Bool) :
    parity (crcBits p x bits) = parity x + (bits.map bit).sum := by
  induction bits generalizing x with
  | nil => simp [crcBits]
  | cons b bs ih =>
    change parity (crcBits p (crcBit p x b) bs) = _
    rw [ih, crcBit_parity p hp, List.map_cons, List.sum_cons, add_assoc]

theorem crcBits_pattern_parity (hp : parity p = 1) (e : ℕ → Bool) (n : ℕ) :
    parity (crcBits p 0#w (pattern e n)) = weight e n := by
  rw [crcBits_parity p hp, weight_cast, parity_zero, zero_add, pattern, List.map_map]
  rfl

theorem crcBit_xor (x y : BitVec w) (a b : Bool) :
    crcBit p (x ^^^ y) (a ^^ b) = crcBit p x a ^^^ crcBit p y b := by
  have hbit : BitVec.setWidth w (BitVec.ofBool (a ^^ b)) =
      BitVec.setWidth w (BitVec.ofBool a) ^^^ BitVec.setWidth w (BitVec.ofBool b) := by
    rw [← BitVec.setWidth_xor]
    cases a <;> cases b <;> rfl
  rw [crcBit_eq, crcBit_eq, crcBit_eq, ← crcStep_xor, hbit]
  congr 1
  ac_rfl

theorem crcBits_xor (x y : BitVec w) (as bs : List Bool) (h : as.length = bs.length) :
    crcBits p (x ^^^ y) (List.zipWith xor as bs) = crcBits p x as ^^^ crcBits p y bs := by
  induction as generalizing x y bs with
  | nil =>
    cases bs with
    | nil => rfl
    | cons b bs => simp at h
  | cons a as ih =>
    cases bs with
    | nil => simp at h
    | cons b bs =>
      simp only [List.zipWith_cons_cons]
      change crcBits p (crcBit p (x ^^^ y) (a ^^ b)) _ = crcBits p (crcBit p x a) as ^^^ crcBits p (crcBit p y b) bs
      rw [crcBit_xor, ih _ _ _ (by simpa using h)]

theorem crcStep_zero : crcStep p 0#w = 0#w := by simp [crcStep]

theorem crcStep_eq_zero (hp : p.getLsbD (w - 1) = true) {x : BitVec w} (h : crcStep p x = 0#w) : x = 0#w := by
  have hshift : ∀ i, (x >>> 1).getLsbD i = x.getLsbD (i + 1) := by
    intro i
    rw [BitVec.getLsbD_ushiftRight, Nat.add_comm]
  by_cases hx : x.getLsbD 0 = true
  · have htop : (x >>> 1).getLsbD (w - 1) = false := by
      rw [hshift]
      exact BitVec.getLsbD_of_ge x _ (by omega)
    rw [crcStep, if_pos hx, BitVec.xor_eq_zero_iff] at h
    rw [h, hp] at htop
    cases htop
  · rw [crcStep, if_neg hx] at h
    apply BitVec.eq_of_getLsbD_eq
    intro i _
    rw [BitVec.getLsbD_zero]
    cases i with
    | zero => exact Bool.eq_false_iff.mpr hx
    | succ i => rw [← hshift, h, BitVec.getLsbD_zero]

theorem crcStep_iterate_eq_zero (hp : p.getLsbD (w - 1) = true) (n : ℕ) {x : BitVec w}
    (h : (crcStep p)^[n] x = 0#w) : x = 0#w := by
  induction n generalizing x with
  | zero => exact h
  | succ n ih => exact crcStep_eq_zero p hp (ih h)

theorem crcBits_replicate_false (x : BitVec w) (n : ℕ) :
    crcBits p x (List.replicate n false) = (crcStep p)^[n] x := by
  induction n generalizing x with
  | zero => rfl
  | succ n ih =>
    have hstep : crcBit p x false = crcStep p x := by simp [crcBit, crcStep]
    rw [List.replicate_succ, Function.iterate_succ_apply, ← ih, ← hstep]
    rfl

theorem ofBits_xor (as bs : List Bool) (h : as.length = bs.length) :
    ofBits w (List.zipWith xor as bs) = ofBits w as ^^^ ofBits w bs := by
  apply BitVec.eq_of_getLsbD_eq
  intro i hi
  rw [BitVec.getLsbD_xor, getLsbD_ofBits _ _ hi, getLsbD_ofBits _ _ hi, getLsbD_ofBits _ _ hi]
  by_cases hl : i < as.length
  · simp [List.getElem?_zipWith, List.getElem?_eq_getElem hl, List.getElem?_eq_getElem (h ▸ hl)]
  · simp [List.getElem?_zipWith, List.getElem?_eq_none (not_lt.mp hl), List.getElem?_eq_none (h ▸ not_lt.mp hl)]

theorem getLsbD_ofBits_pattern (e : ℕ → Bool) (i : ℕ) (hi : i < w) :
    (ofBits w (pattern e w)).getLsbD i = e i := by
  rw [getLsbD_ofBits _ _ hi, pattern_getD _ _ _ hi]

theorem parity_ofBits_pattern (e : ℕ → Bool) : parity (ofBits w (pattern e w)) = weight e w := by
  rw [parity, weight_cast]
  apply Finset.sum_congr rfl
  intro i hi
  rw [getLsbD_ofBits_pattern e i (Finset.mem_range.mp hi)]

theorem weight_ofBits_pattern (e : ℕ → Bool) : weight (ofBits w (pattern e w)).getLsbD w = weight e w := by
  rw [weight, weight]
  congr 1
  apply Finset.filter_congr
  intro i hi
  rw [getLsbD_ofBits_pattern e i (Finset.mem_range.mp hi)]

theorem ofBits_eq_zero {bits : List Bool} (hl : bits.length ≤ w) (h : ofBits w bits = 0#w) :
    ∀ i, bits.getD i false = false := by
  intro i
  by_cases hi : i < w
  · rw [← getLsbD_ofBits bits i hi, h, BitVec.getLsbD_zero]
  · rw [List.getD_eq_default _ _ (by omega)]

theorem crcBits_burst (hp : p.getLsbD (w - 1) = true) (e : ℕ → Bool) (n i : ℕ)
    (hin : ∀ k, e k = true → i ≤ k ∧ k < i + w) (h : crcBits p 0#w (pattern e n) = 0#w) :
    ∀ k < n, e k = false := by
  have hout : ∀ k, k < i ∨ i + w ≤ k → e k = false := by
    intro k hk
    by_contra hne
    have := hin k (by simpa using hne)
    omega
  -- The message is zeros, a window of at most `w` bits, and zeros.
  let a := min i n
  let m := min w (n - a)
  let b := n - a - m
  have hn : n = a + (m + b) := by omega
  have hlead : pattern e a = List.replicate a false := pattern_false (fun k hk => hout k (by omega))
  have htrail : pattern (fun k => e (a + (m + k))) b = List.replicate b false :=
    pattern_false (fun k hk => hout _ (by omega))
  have hzero : crcBits p 0#w (List.replicate a false) = 0#w := by
    rw [crcBits_replicate_false, Function.iterate_fixed (crcStep_zero p)]
  rw [hn, pattern_add, pattern_add, hlead, htrail, crcBits_append, hzero, crcBits_append,
    crcBits_replicate_false] at h
  have hwin := crcStep_iterate_eq_zero p hp b h
  rw [crcBits_eq p _ _ (by rw [pattern_length]; omega), BitVec.zero_xor] at hwin
  have hbits := ofBits_eq_zero (by rw [pattern_length]; omega) (crcStep_iterate_eq_zero p hp _ hwin)
  intro k hk
  by_cases hka : k < a ∨ a + m ≤ k
  · exact hout k (by omega)
  · have hbit := hbits (k - a)
    rw [pattern_getD _ _ _ (by omega)] at hbit
    rwa [show a + (k - a) = k by omega] at hbit

end Register

end Lib
