import OxenDB.BufferPool.Progress
import OxenDB.Database.Success

namespace OxenDB

open Lib

variable {α : Type}

theorem Shard.AllPinned.frames_le {mine : PageId → Prop} {sh : Shard α} (h : sh.AllPinned) (hk : sh.Kept mine) :
    sh.frames.length ≤ sh.activities.length := by
  have hsub : List.range sh.frames.length ⊆ sh.pinnedAt.map Prod.fst := by
    intro f hf
    have hpos := h f (List.mem_range.mp hf)
    rw [hk.books.counts] at hpos
    exact List.count_pos_iff.mp hpos
  have hle := (List.nodup_range.subperm hsub).length_le
  rw [List.length_range, List.length_map, Shard.pinnedAt, List.length_map] at hle
  rw [Shard.activities, List.length_append, List.length_map, List.length_map]
  omega

namespace BufferPool

variable {p p' : BufferPool α}

theorem activities_length_le {i : ℕ} {sh : Shard α} (hi : p.shards[i]? = some sh) :
    sh.activities.length ≤ p.activities.length := by
  obtain ⟨rest, hperm, -⟩ := flatMap_set Shard.activities p.shards i hi
  rw [activities, hperm.length_eq, List.length_append]
  exact Nat.le_add_right _ _

theorem new_sizes {disk : DiskManager} {n : ℕ} (h : BufferPool.new disk n = .ok p) :
    p.capacity = n ∧ ∀ k ∈ p.sizes, min n 64 ≤ k := by
  obtain ⟨-, hsizes⟩ := new_ok_kept h
  refine ⟨?_, fun k hk => ?_⟩
  · change p.sizes.sum = n
    rw [hsizes, sum_shares, Nat.min_eq_right (Nat.mod_lt _ (shardCountFor_pos n)).le, Nat.div_add_mod]
  · rw [hsizes] at hk
    obtain ⟨i, -, rfl⟩ := List.mem_map.mp hk
    have hdiv : min n 64 ≤ n / shardCountFor n := by
      rw [Nat.le_div_iff_mul_le (shardCountFor_pos n), Nat.mul_comm]
      exact shardCountFor_mul_le n
    exact Nat.le_add_right_of_le hdiv

end BufferPool

namespace Database

variable {m₀ : PageMap} {db₀ db db' : Database} {es : List Event} {e : Event}

theorem Step.sizes (hs : Step db e db') (hk : db.pool.Kept) : db'.pool.sizes = db.pool.sizes := by
  cases hs with
  | pool _ hp => exact (hk.step hp).sizes
  | copyPage _ _ hp => exact (hk.step hp).sizes
  | _ => rfl

theorem sizes_run (hs : db₀.Starts m₀) (hr : Run Step db₀ es db) : db.pool.sizes = db₀.pool.sizes := by
  apply hr.invariant (I := fun _ db => db.pool.sizes = db₀.pool.sizes) rfl
  intro ls s l s' hls hsizes hstep
  exact (hstep.sizes (Inv.run hs hls).locks.pool.kept).trans hsizes

/-- With working I/O, no call on the pool fails while fewer page handles and calls are alive than the pool
has frames, or than 64 if it has more. -/
theorem few_handles_never_fail (hs : db₀.Starts m₀) (hr : Run (Restrict Step Smooth) db₀ es db)
    (hfew : db.pool.activities.length < min db₀.pool.capacity 64) {a : Action Owner} {label : Label Owner}
    (hstep : Restrict Step Smooth db (.pool a label) db') (owner : Owner) (id : PageId) (err : Error) :
    label.returned ≠ some (owner, id, .error err) := by
  intro hret
  have hrun : Run Step db₀ es db := hr.mono (fun _ _ _ h => h.1)
  have hi := Inv.run hs hrun
  have hg := healthy_run hs hr
  have hcount := current_count_lt hs hrun (smooth_bounded hr)
  have hlt := (UInt64.le_iff_toNat_le.mp (hi.pageCount_le hg)).trans_lt hcount
  obtain ⟨hstep, hsucceeds, -⟩ := hstep
  cases hstep with
  | pool ha hstep =>
    obtain ⟨-, -, -, sh, hsh, hall⟩ := hi.call_failed hg hlt ha hsucceeds.1 hsucceeds.2 hstep hret
    have hle := (hall.frames_le (hi.locks.pool.kept.shards _ _ hsh)).trans (BufferPool.activities_length_le hsh)
    have hsize : sh.frames.length ∈ db.pool.sizes := List.mem_map_of_mem (List.mem_of_getElem? hsh)
    rw [sizes_run hs hrun] at hsize
    obtain ⟨o, n, auto, pool, -, hp, rfl⟩ := hs.eq
    obtain ⟨hcap, hmin⟩ := BufferPool.new_sizes hp
    have hge := hmin _ hsize
    rw [hcap] at hfew
    omega

theorem few_handles_never_fail_first : ∃ es db db' label, Run (Restrict Step Smooth) smallest es db ∧
    db.pool.activities = [] ∧ Restrict Step Smooth db (.pool (.fetch (.reader 0 0) 1 true) label) db' ∧
    ∀ owner id err, label.returned ≠ some (owner, id, .error err) := by
  obtain ⟨es, hrun, -⟩ := smallest_smooth
  have hbegan := (hrun.step ⟨.beginRead 0 rfl List.not_mem_nil List.not_mem_nil, trivial, trivial⟩).step
    ⟨.readLock List.mem_cons_self rfl, trivial, trivial⟩
  have hfetch := @Step.pool { smallest.committed with readers := [0] } (.fetch (.reader 0 0) 1 true) _ _
    ⟨List.mem_cons_self, rfl⟩ rfl
  refine ⟨_, _, _, _, hbegan, rfl, ⟨hfetch, ⟨rfl, rfl⟩, trivial⟩, ?_⟩
  exact few_handles_never_fail smallest_starts hbegan (show 0 < min 1 64 by decide) ⟨hfetch, ⟨rfl, rfl⟩, trivial⟩

end Database

end OxenDB
