import OxenDB.BufferPool.Coherence
import OxenDB.BufferPool.Turns

namespace OxenDB

open Lib

theorem shardCountFor_two_pow (capacity : ℕ) : ∃ k ≤ 6, shardCountFor capacity = 2 ^ k := by
  refine ⟨Nat.log2 (max 1 (min (capacity / targetShardFrames) maxShards)), ?_, Nat.one_shiftLeft _⟩
  have hle : max 1 (min (capacity / targetShardFrames) maxShards) < 2 ^ 7 := by
    rw [maxShards]
    omega
  exact Nat.le_of_lt_succ ((Nat.log2_lt (by omega)).mpr hle)

theorem shardCountFor_mul_le (capacity : ℕ) : shardCountFor capacity * min capacity 64 ≤ capacity := by
  by_cases hc : capacity < 64
  · have hone : shardCountFor capacity = 1 := by
      rw [shardCountFor, targetShardFrames, Nat.div_eq_of_lt hc]
      rfl
    rw [hone, Nat.one_mul]
    exact Nat.min_le_left _ _
  · have hle : shardCountFor capacity ≤ max 1 (min (capacity / targetShardFrames) maxShards) := by
      rw [shardCountFor, Nat.one_shiftLeft]
      exact Nat.log2_self_le (by omega)
    rw [targetShardFrames] at hle
    calc shardCountFor capacity * min capacity 64 = shardCountFor capacity * 64 := by
          rw [Nat.min_eq_right (by omega)]
      _ ≤ capacity / 64 * 64 := Nat.mul_le_mul_right 64 (by omega)
      _ ≤ capacity := Nat.div_mul_le_self capacity 64

theorem sum_shares (q r m : ℕ) :
    ((List.range m).map (fun i => q + if i < r then 1 else 0)).sum = m * q + min m r := by
  induction m with
  | zero => simp
  | succ m ih =>
    rw [List.range_succ, List.map_append, List.sum_append, ih, Nat.succ_mul]
    simp only [List.map_cons, List.map_nil, List.sum_cons, List.sum_nil]
    split_ifs <;> omega

namespace BufferPool

variable {α : Type} {p p' : BufferPool α} {capacity : ℕ}

def sizes {κ : Type} (p : BufferPool α κ) : List ℕ := p.shards.map (fun sh => sh.frames.length)

structure Kept (p : BufferPool α) : Prop where
  nonempty : 0 < p.shards.length
  shards : ∀ (i : ℕ) (sh : Shard α), p.shards[i]? = some sh → sh.Kept (fun id => p.shardFor id = i)

structure Keeps (p p' : BufferPool α) : Prop where
  kept : p'.Kept
  sizes : p'.sizes = p.sizes

theorem Kept.put (h : p.Kept) {i : ℕ} {sh sh' : Shard α} (hi : p.shards[i]? = some sh)
    (hk : sh.Keeps (fun id => p.shardFor id = i) sh') (disk : DiskManager) :
    p.Keeps ⟨p.shards.set i sh', disk⟩ := by
  have hlen : (p.shards.set i sh').length = p.shards.length := List.length_set
  have hlt : i < p.shards.length := (List.getElem?_eq_some_iff.mp hi).1
  refine ⟨⟨hlen.symm ▸ h.nonempty, ?_⟩, ?_⟩
  · intro j sh'' hj
    simp only [show ∀ id, BufferPool.shardFor ⟨p.shards.set i sh', disk⟩ id = p.shardFor id from
      shardFor_congr hlen]
    rcases eq_or_ne i j with rfl | hne
    · rw [List.getElem?_set_self hlt] at hj
      cases hj
      exact hk.kept
    · rw [List.getElem?_set_ne hne] at hj
      exact h.shards j sh'' hj
  · have hsize : p.sizes[i]? = some sh.frames.length := by
      rw [BufferPool.sizes, List.getElem?_map, hi]
      rfl
    obtain ⟨hlt', hget⟩ := List.getElem?_eq_some_iff.mp hsize
    change (p.shards.set i sh').map _ = _
    rw [List.map_set, hk.frames, ← hget]
    exact List.set_getElem_self hlt'

theorem Kept.step [DecidableEq α] {a : Action α} {label : Label α} (h : p.Kept)
    (hs : BufferPool.step p a = some (p', label)) : p.Keeps p' := by
  cases a with
  | fetch owner id rd =>
    simp only [BufferPool.step] at hs
    split_ifs at hs
    obtain ⟨sh, hl, hs⟩ := Option.map_eq_some_iff.mp hs
    obtain ⟨hi, hh⟩ := lockState_some hl
    cases hs
    have hk := h.shards _ _ hi
    exact h.put hi ((Shard.fetchPage_opened hk hh p.disk owner id rd).keeps hk hh rfl) _
  | install owner id page =>
    simp only [BufferPool.step] at hs
    split_ifs at hs
    · cases hs
      exact ⟨h, rfl⟩
    · obtain ⟨sh, hl, hs⟩ := Option.map_eq_some_iff.mp hs
      obtain ⟨hi, hh⟩ := lockState_some hl
      cases hs
      have hk := h.shards _ _ hi
      exact h.put hi ((Shard.installPage_opened hk hh owner id page).keeps hk hh rfl) _
  | flush owner id =>
    simp only [BufferPool.step] at hs
    split_ifs at hs
    obtain ⟨sh, hl, hs⟩ := Option.map_eq_some_iff.mp hs
    obtain ⟨hi, hh⟩ := lockState_some hl
    cases hs
    exact h.put hi ((Shard.flushPage_opened owner id).keeps (h.shards _ _ hi) hh rfl) _
  | resume i wr rd =>
    obtain ⟨o, hb, ho⟩ := Option.map_eq_some_iff.mp hs
    obtain ⟨sh, hi, hr⟩ := Option.bind_eq_some_iff.mp hb
    cases ho
    exact h.put hi ((h.shards _ _ hi).keeps_resume hr) _
  | work i k wr =>
    obtain ⟨o, hb, ho⟩ := Option.map_eq_some_iff.mp hs
    obtain ⟨sh, hi, hw⟩ := Option.bind_eq_some_iff.mp hb
    cases ho
    exact h.put hi ((h.shards _ _ hi).keeps_work hw) _
  | guard i k g =>
    obtain ⟨r, hb, hr⟩ := Option.map_eq_some_iff.mp hs
    obtain ⟨sh, hi, hg⟩ := Option.bind_eq_some_iff.mp hb
    cases hr
    exact h.put hi ((h.shards _ _ hi).keeps_guard hg) _
  | unpin i k =>
    obtain ⟨r, hb, hr⟩ := Option.map_eq_some_iff.mp hs
    obtain ⟨sh, hl, hu⟩ := Option.bind_eq_some_iff.mp hb
    obtain ⟨hi, hh⟩ := lockState_some hl
    cases hr
    exact h.put hi ((h.shards _ _ hi).keeps_unpin hh hu) _
  | sync ev =>
    cases hs
    exact ⟨⟨h.nonempty, h.shards⟩, rfl⟩

def Turn {κ : Type} [DecidableEq α] [OfNat κ 0] [OfNat κ 1] [Add κ] [Sub κ] [LT κ] [DecidableLT κ]
    (p : BufferPool α κ) (a : Action α) (p' : BufferPool α κ) : Prop :=
  ∃ disk label, BufferPool.step { p with disk := disk } a = some (p', label)

theorem Kept.turn [DecidableEq α] {a : Action α} (h : p.Kept) (ht : p.Turn a p') : p.Keeps p' := by
  obtain ⟨disk, label, hs⟩ := ht
  obtain ⟨hk, hsizes⟩ := Kept.step (p := { p with disk := disk }) ⟨h.nonempty, h.shards⟩ hs
  exact ⟨hk, hsizes⟩

theorem new_kept (disk : DiskManager) (hc : 0 < capacity) :
    ∃ p : BufferPool α, BufferPool.new disk capacity = .ok p ∧ p.Kept ∧
    p.sizes = (List.range (shardCountFor capacity)).map (fun i =>
      capacity / shardCountFor capacity + if i < capacity % shardCountFor capacity then 1 else 0) := by
  refine ⟨_, if_neg hc.ne', ⟨?_, ?_⟩, ?_⟩
  · rw [List.length_map, List.length_range]
    exact shardCountFor_pos capacity
  · intro i sh hi
    obtain ⟨n, hn, rfl⟩ := new_shards (if_neg hc.ne' : BufferPool.new disk capacity = _) i sh hi
    exact Shard.new_kept hn
  · rw [sizes, List.map_map]
    refine List.map_congr_left fun i _ => ?_
    exact List.length_replicate

theorem new_ok_kept {disk : DiskManager} (h : BufferPool.new disk capacity = .ok p) : p.Kept ∧
    p.sizes = (List.range (shardCountFor capacity)).map (fun i =>
      capacity / shardCountFor capacity + if i < capacity % shardCountFor capacity then 1 else 0) := by
  have hc : 0 < capacity := Nat.pos_of_ne_zero (fun hc => by rw [hc] at h; cases h)
  obtain ⟨p', h', hkept⟩ := @new_kept α capacity disk hc
  cases h'.symm.trans h
  exact hkept

theorem Kept.unique (h : p.Kept) {id : PageId} {i j f g : ℕ} {sh sh' : Shard α} (hi : p.shards[i]? = some sh)
    (hj : p.shards[j]? = some sh') (hf : sh.state.framePages[f]? = some (some id))
    (hg : sh'.state.framePages[g]? = some (some id)) : i = j ∧ f = g := by
  have hbi := (h.shards i sh hi).books
  have hbj := (h.shards j sh' hj).books
  have hf' := (hbi.mapped id f).mpr hf
  have hg' := (hbj.mapped id g).mpr hg
  obtain rfl : i = j := (hbi.mine id f hf').symm.trans (hbj.mine id g hg')
  cases hi.symm.trans hj
  exact ⟨rfl, Option.some.inj (hf'.symm.trans hg')⟩

theorem sharding_exact [DecidableEq α] (disk : DiskManager) (hc : 0 < capacity) :
    ∃ p₀ : BufferPool α, BufferPool.new disk capacity = .ok p₀ ∧ ∀ acts p, Run Turn p₀ acts p →
      (∃ k ≤ 6, p.shards.length = 2 ^ k) ∧ p.capacity = capacity ∧
      (∀ sh ∈ p.shards, ∀ sh' ∈ p.shards, sh.frames.length ≤ sh'.frames.length + 1) ∧
      (∀ sh ∈ p.shards, min capacity 64 ≤ sh.frames.length) ∧
      (∀ id, p.shardFor id < p.shards.length ∧
        p.shardFor id = ((id * 0x9E3779B97F4A7C15) >>> 32).toNat % shardCountFor capacity) ∧
      ∀ (id : PageId) (i j f g : ℕ) (sh sh' : Shard α), p.shards[i]? = some sh → p.shards[j]? = some sh' →
        sh.state.framePages[f]? = some (some id) → sh'.state.framePages[g]? = some (some id) →
        i = j ∧ f = g := by
  obtain ⟨p₀, hnew, hkept, hsizes⟩ := @new_kept α capacity disk hc
  refine ⟨p₀, hnew, fun acts p hrun => ?_⟩
  obtain ⟨hk, hs⟩ : p₀.Keeps p := by
    refine hrun.invariant (I := fun _ p => p₀.Keeps p) ⟨hkept, rfl⟩ ?_
    intro _ p _ p' _ h ht
    obtain ⟨hk, hs⟩ := h.kept.turn ht
    exact ⟨hk, hs.trans h.sizes⟩
  rw [hsizes] at hs
  have hlen : p.shards.length = shardCountFor capacity := by
    rw [← List.length_map (fun sh : Shard α => sh.frames.length), ← sizes, hs, List.length_map,
      List.length_range]
  have hsize : ∀ sh ∈ p.shards, ∃ i, sh.frames.length = capacity / shardCountFor capacity +
      if i < capacity % shardCountFor capacity then 1 else 0 := by
    intro sh hsh
    have hm : sh.frames.length ∈ p.sizes := List.mem_map_of_mem hsh
    rw [hs] at hm
    obtain ⟨i, -, hi⟩ := List.mem_map.mp hm
    exact ⟨i, hi.symm⟩
  obtain ⟨k, hk6, hpow⟩ := shardCountFor_two_pow capacity
  refine ⟨⟨k, hk6, hlen.trans hpow⟩, ?_, ?_, ?_, fun id => ⟨shardFor_lt hk.nonempty id, ?_⟩, ?_⟩
  · change p.sizes.sum = capacity
    rw [hs, sum_shares, Nat.min_eq_right (Nat.mod_lt _ (shardCountFor_pos capacity)).le, Nat.div_add_mod]
  · intro sh hsh sh' hsh'
    obtain ⟨i, hi⟩ := hsize sh hsh
    obtain ⟨j, hj⟩ := hsize sh' hsh'
    rw [hi, hj]
    split_ifs <;> omega
  · intro sh hsh
    obtain ⟨i, hi⟩ := hsize sh hsh
    have hdiv : min capacity 64 ≤ capacity / shardCountFor capacity := by
      rw [Nat.le_div_iff_mul_le (shardCountFor_pos capacity), Nat.mul_comm]
      exact shardCountFor_mul_le capacity
    rw [hi]
    exact Nat.le_add_right_of_le hdiv
  · rw [shardFor, hlen, hpow, Nat.and_two_pow_sub_one_eq_mod]
  · intro id i j f g sh sh' hi hj hf hg
    exact hk.unique hi hj hf hg

theorem sharding_exact_two : ∃ p₀ : BufferPool Unit,
    BufferPool.new DiskManager.create 129 = .ok p₀ ∧ p₀.capacity = 129 ∧
      ∀ id, p₀.shardFor id < p₀.shards.length := by
  obtain ⟨p₀, hnew, h⟩ := @sharding_exact Unit 129 _ DiskManager.create (show 0 < 129 by decide)
  obtain ⟨-, hcap, -, -, hfor, -⟩ := h [] p₀ .start
  exact ⟨p₀, hnew, hcap, fun id => (hfor id).1⟩

end BufferPool

end OxenDB
