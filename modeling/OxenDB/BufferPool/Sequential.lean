import OxenDB.BufferPool.WorkingSet
import OxenDB.Lib.MulHash

namespace OxenDB

open Lib

def spread : ℕ → ℕ
  | 64 => 59
  | 32 => 5
  | 16 => 5
  | 8 => 5
  | 4 => 3
  | _ => 1

def pagesFrom (first : PageId) (len : ℕ) : Finset PageId :=
  (Finset.range len).image (fun j => first + UInt64.ofNat j)

theorem spread_pos (n : ℕ) : 0 < spread n := by
  unfold spread
  split <;> decide

theorem spread_gap {k d : ℕ} (hk : k ≤ 6) (hd : 0 < d) (hlt : d < spread (2 ^ k)) :
    d * 0x9E3779B97F4A7C15 / 2 ^ 32 % 2 ^ k ≠ 0 ∧ (d * 0x9E3779B97F4A7C15 / 2 ^ 32 + 1) % 2 ^ k ≠ 0 := by
  have hall : ∀ k < 7, ∀ d < spread (2 ^ k), 0 < d →
      d * 0x9E3779B97F4A7C15 / 2 ^ 32 % 2 ^ k ≠ 0 ∧ (d * 0x9E3779B97F4A7C15 / 2 ^ 32 + 1) % 2 ^ k ≠ 0 := by
    decide
  exact hall k (by omega) d hlt hd

namespace BufferPool

variable {α : Type} {p : BufferPool α} {disk : DiskManager} {capacity : ℕ} {first : PageId} {len : ℕ}

theorem shardFor_add {κ : Type} {p : BufferPool α κ} {k : ℕ} (hp : p.shards.length = 2 ^ k) (hk : k ≤ 6)
    (id : PageId) {d : ℕ} (hd : 0 < d) (hlt : d < spread (2 ^ k)) : p.shardFor (id + UInt64.ofNat d) ≠ p.shardFor id := by
  obtain ⟨h0, h1⟩ := spread_gap hk hd hlt
  have hdvd : 2 ^ k ∣ 2 ^ (64 - 32) := Nat.pow_dvd_pow 2 (by omega)
  have hne := @bin_ne (id * 0x9E3779B97F4A7C15).toNat (d * 0x9E3779B97F4A7C15) 32 64 (2 ^ k) (by decide) hdvd h0 h1
  have hmul : ((id + UInt64.ofNat d) * 0x9E3779B97F4A7C15).toNat =
      ((id * 0x9E3779B97F4A7C15).toNat + d * 0x9E3779B97F4A7C15) % 2 ^ 64 := by
    rw [UInt64.toNat_mul, UInt64.toNat_add, UInt64.toNat_mul, UInt64.toNat_ofNat', show
      (0x9E3779B97F4A7C15 : UInt64).toNat = 0x9E3779B97F4A7C15 from rfl]
    omega
  have hshift : ∀ x : UInt64, (x >>> 32).toNat = x.toNat / 2 ^ 32 := by
    intro x
    rw [UInt64.toNat_shiftRight]
    exact Nat.shiftRight_eq_div_pow _ _
  rw [shardFor, shardFor, hp, Nat.and_two_pow_sub_one_eq_mod, Nat.and_two_pow_sub_one_eq_mod, hshift, hshift, hmul]
  exact hne

theorem new_shape (hnew : BufferPool.new disk capacity = .ok p) : ∃ k ≤ 6, shardCountFor capacity = 2 ^ k ∧
    p.shards.length = 2 ^ k ∧ ∀ n ∈ p.sizes, capacity / 2 ^ k ≤ n := by
  obtain ⟨-, hsizes⟩ := new_ok_kept hnew
  obtain ⟨k, hk, hpow⟩ := shardCountFor_two_pow capacity
  rw [hpow] at hsizes
  refine ⟨k, hk, hpow, ?_, fun n hn => ?_⟩
  · rw [← List.length_map (fun sh : Shard α => sh.frames.length), ← sizes, hsizes, List.length_map,
      List.length_range]
  · rw [hsizes] at hn
    obtain ⟨i, -, rfl⟩ := List.mem_map.mp hn
    exact Nat.le_add_right _ _

theorem pagesFrom_fits (hnew : BufferPool.new disk capacity = .ok p)
    (hlen : len ≤ spread (shardCountFor capacity) * (capacity / shardCountFor capacity)) (first : PageId) :
    p.Fits (pagesFrom first len) := by
  obtain ⟨k, hk, hpow, hp, hsizes⟩ := new_shape hnew
  rw [hpow] at hlen
  intro i n hn
  refine le_trans ?_ (hsizes n (List.mem_of_getElem? hn))
  rw [share, pagesFrom, Finset.filter_image]
  refine Finset.card_image_le.trans (card_bin_le (spread_pos _) (fun j d hd hlt => ?_) hlen i)
  rw [UInt64.ofNat_add, ← UInt64.add_assoc]
  exact shardFor_add hp hk _ hd hlt

variable [DecidableEq α]

/-- Pages in a row are spread over the shards, 59 of them over as many shards when there are 64. So in a pool
of 4096 frames any 3776 pages in a row have a frame each: as long as nothing else is asked for, none of them
is evicted, and a fetch of one returns an error only if its disk read does. -/
theorem pages_in_a_row_stay_cached {acts : List (Action α)} {p q : BufferPool α UInt32}
    (hnew : BufferPool.new disk capacity = .ok p)
    (hlen : len ≤ spread (shardCountFor capacity) * (capacity / shardCountFor capacity))
    (hr : Run BoundedTurn p acts q) (hin : ∀ a ∈ acts, a.Within (pagesFrom first len)) :
    (∀ id d, 0 < d → d < spread (shardCountFor capacity) → p.shardFor (id + UInt64.ofNat d) ≠ p.shardFor id) ∧
    (∀ acts' q', Run BoundedTurn q acts' q' → (∀ a ∈ acts', a.Within (pagesFrom first len)) →
      ∀ id, q.cached id ≠ none → q'.cached id ≠ none) ∧
    ∀ disk a q' label owner id e, q.FewPins → step { q with disk := disk } a = some (q', label) →
      a.Within (pagesFrom first len) → label.returned = some (owner, id, .error e) →
      lastCall owner (acts ++ [a]) = some ⟨owner, id, .fetch⟩ →
      ∃ rd, a = .fetch owner id rd ∧ disk.readPage id rd = .error e := by
  obtain ⟨p₀, rfl, hnew₀⟩ := exists_new hnew
  obtain ⟨k, hk, hpow, hp, -⟩ := new_shape hnew₀
  obtain ⟨q₀, rfl, hres, hflush⟩ := exists_resident hnew₀ (pagesFrom_fits hnew₀ hlen first) hr hin
  refine ⟨fun id d hd hlt => ?_, fun acts' q' hr' hin' id => hres.stays_cached hr' hin', ?_⟩
  · rw [hpow] at hlt
    rw [wrap_shardFor, wrap_shardFor]
    exact shardFor_add hp hk id hd hlt
  · intro disk a q' label owner id e hf hs ha he hcall
    rcases (hres.turn hflush hf hs ha).2 owner id e he with hread | ⟨page, rfl, -⟩ | hflush
    · exact hread
    · rw [lastCall_of_starts acts (show _ = some ⟨owner, id, .install page⟩ from rfl)] at hcall
      cases hcall
    · cases hflush.symm.trans hcall

theorem pages_in_a_row_stay_cached_4096 : ∃ p : BufferPool Unit UInt32,
    BufferPool.new DiskManager.create 4096 = .ok p ∧
    (∀ id d, 0 < d → d < 59 → p.shardFor (id + UInt64.ofNat d) ≠ p.shardFor id) ∧
    ∀ acts q acts' q', Run BoundedTurn p acts q → (∀ a ∈ acts, a.Within (pagesFrom 1 3776)) →
      Run BoundedTurn q acts' q' → (∀ a ∈ acts', a.Within (pagesFrom 1 3776)) →
      ∀ id, q.cached id ≠ none → q'.cached id ≠ none := by
  obtain ⟨p, hnew⟩ : ∃ p : BufferPool Unit UInt32, BufferPool.new DiskManager.create 4096 = .ok p := ⟨_, rfl⟩
  have hrow := fun acts q => @pages_in_a_row_stay_cached _ _ 4096 1 3776 _ acts p q hnew (by decide)
  obtain ⟨hspread, -⟩ := hrow [] p .start (by rintro a ⟨⟩)
  refine ⟨p, hnew, hspread, ?_⟩
  intro acts q acts' q' hr hin hr' hin'
  exact (hrow acts q hr hin).2.1 acts' q' hr' hin'

end BufferPool

end OxenDB
