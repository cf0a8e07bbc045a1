import Mathlib.Data.Finset.Card
import Mathlib.Data.Nat.ModEq

/-!
Hashing by multiplication: keys in a row become multiples of the factor in a row, and some bits in the
middle of the product pick the bin.
-/

namespace Lib

theorem mod_eq_zero_of_add {a x n : ℕ} (h : (a + x) % n = a % n) : x % n = 0 := by
  have hzero : a + x ≡ a + 0 [MOD n] := h
  exact Nat.mod_eq_zero_of_dvd (Nat.modEq_zero_iff_dvd.mp hzero.add_left_cancel')

theorem bin_ne {h δ s w n : ℕ} (hs : s ≤ w) (hn : n ∣ 2 ^ (w - s)) (h0 : δ / 2 ^ s % n ≠ 0)
    (h1 : (δ / 2 ^ s + 1) % n ≠ 0) : (h + δ) % 2 ^ w / 2 ^ s % n ≠ h / 2 ^ s % n := by
  have hpow : 2 ^ w = 2 ^ s * 2 ^ (w - s) := by rw [← Nat.pow_add, Nat.add_sub_cancel' hs]
  rw [hpow, Nat.mod_mul_right_div_self, Nat.mod_mod_of_dvd _ hn, Nat.add_div (Nat.two_pow_pos s)]
  intro he
  split_ifs at he
  · rw [Nat.add_assoc] at he
    exact h1 (mod_eq_zero_of_add he)
  · rw [Nat.add_zero] at he
    exact h0 (mod_eq_zero_of_add he)

theorem card_bin_le {β : Type} [DecidableEq β] {f : ℕ → β} {w q len : ℕ} (hw : 0 < w)
    (hf : ∀ j d, 0 < d → d < w → f (j + d) ≠ f j) (hlen : len ≤ w * q) (b : β) :
    ((Finset.range len).filter (fun j => f j = b)).card ≤ q := by
  have hblocks : ((Finset.range len).filter (fun j => f j = b)).card ≤ (Finset.range q).card := by
    apply Finset.card_le_card_of_injOn (· / w)
    · intro j hj
      have hlt := Finset.mem_range.mp (Finset.mem_filter.mp hj).1
      exact Finset.mem_coe.mpr (Finset.mem_range.mpr (Nat.div_lt_of_lt_mul (by omega)))
    · intro j hj j' hj' he
      have hbin := (Finset.mem_filter.mp hj).2.trans (Finset.mem_filter.mp hj').2.symm
      have hdiv := Nat.div_add_mod j w
      have hdiv' := Nat.div_add_mod j' w
      have hlt := Nat.mod_lt j hw
      have hlt' := Nat.mod_lt j' hw
      simp only at he
      rw [he] at hdiv
      rcases Nat.lt_trichotomy j j' with hl | hl | hl
      · refine absurd ?_ (hf j (j' - j) (by omega) (by omega))
        rw [Nat.add_sub_cancel' hl.le]
        exact hbin.symm
      · exact hl
      · refine absurd ?_ (hf j' (j - j') (by omega) (by omega))
        rw [Nat.add_sub_cancel' hl.le]
        exact hbin
  rwa [Finset.card_range] at hblocks

end Lib
