import OxenDB.BufferPool.Pool
import OxenDB.BufferPool.PinSteps

namespace OxenDB

open Lib

theorem Cache.Step.lift {mine : PageId → Prop} {c c' : Cache} {ch : Change}
    (h : Step mine c ch c') (d d' : Cache) (hdisk : d.disk = c.disk) (hdisk' : d'.disk = c'.disk)
    (hmine : ∀ id, mine id → d.frame id = c.frame id)
    (hmine' : ∀ id, mine id → d'.frame id = c'.frame id)
    (hother : ∀ id, ¬ mine id → d'.frame id = d.frame id) : Step (fun _ => True) d ch d' := by
  obtain ⟨df, dd⟩ := d
  obtain ⟨df', dd'⟩ := d'
  obtain ⟨cf, cd⟩ := c
  simp only at hdisk hdisk' hmine hmine' hother
  subst hdisk hdisk'
  have hsame : (∀ id, mine id → c'.frame id = cf id) → df' = df := by
    intro he
    funext id
    by_cases hm : mine id
    · rw [hmine' id hm, he id hm, hmine id hm]
    · exact hother id hm
  have hupdate : ∀ id x, mine id → c'.frame = Function.update cf id x →
      df' = Function.update df id x := by
    intro id x hm he
    funext id'
    rcases eq_or_ne id' id with rfl | hne
    · rw [hmine' id' hm, he, Function.update_self, Function.update_self]
    · rw [Function.update_of_ne hne]
      by_cases hm' : mine id'
      · rw [hmine' id' hm', he, Function.update_of_ne hne, hmine id' hm']
      · exact hother id' hm'
  cases h with
  | quiet =>
    rw [hsame (fun _ _ => rfl)]
    exact .quiet _
  | load hm hf hp hv =>
    rw [hupdate _ _ hm rfl]
    exact .load trivial ((hmine _ hm).trans hf) hp hv
  | writeBack wr hm hf =>
    rw [hupdate _ _ hm rfl]
    exact .writeBack (c := ⟨df, dd⟩) wr trivial ((hmine _ hm).trans hf)
  | evict wr hm hf hok =>
    rw [hupdate _ _ hm rfl]
    exact .evict (c := ⟨df, dd⟩) wr trivial ((hmine _ hm).trans hf) hok
  | put page hm =>
    rw [hupdate _ _ hm rfl]
    exact .put page trivial
  | mark hm hf =>
    rw [hupdate _ _ hm rfl]
    exact .mark (c := ⟨df, dd⟩) trivial ((hmine _ hm).trans hf)

theorem DataFile.sync_contents (f : DataFile) (ev : SyncEvent) : (f.sync ev).contents = f.contents := by
  cases ev <;> rfl

theorem DiskManager.holds_sync {d : DiskManager} (ev : SyncEvent) {id : PageId} {page : Page}
    (h : d.Holds id page) : DiskManager.Holds { d with file := d.file.sync ev } id page := by
  rw [DiskManager.Holds, d.file.sync_contents ev]
  exact h

namespace BufferPool

variable {α : Type} {p p' : BufferPool α}

def cached {κ : Type} (p : BufferPool α κ) (id : PageId) : Option Frame :=
  p.shards[p.shardFor id]?.bind (fun sh => sh.cached id)

def cache {κ : Type} (p : BufferPool α κ) : Cache := ⟨p.cached, p.disk⟩

structure Inv (p : BufferPool α) : Prop where
  nonempty : 0 < p.shards.length
  shards : ∀ (i : ℕ) (sh : Shard α), p.shards[i]? = some sh → sh.Inv (fun id => p.shardFor id = i) p.disk

structure Steps (p : BufferPool α) (label : Label α) (p' : BufferPool α) : Prop where
  inv : p'.Inv
  step : Cache.Step (fun _ => True) p.cache label.toChange p'.cache
  length : p'.shards.length = p.shards.length

theorem shardFor_lt (h : 0 < p.shards.length) (id : PageId) : p.shardFor id < p.shards.length := by
  have hle : p.shardFor id ≤ p.shards.length - 1 := Nat.and_le_right
  omega

theorem shardFor_congr (h : p'.shards.length = p.shards.length) (id : PageId) :
    p'.shardFor id = p.shardFor id := by
  rw [shardFor, shardFor, h]

theorem cached_of_shard {i : ℕ} {sh : Shard α} (hi : p.shards[i]? = some sh) {id : PageId}
    (hid : p.shardFor id = i) : p.cached id = sh.cached id := by
  rw [cached, hid, hi]
  rfl

theorem steps_of_shard {i : ℕ} {sh : Shard α} {o : Outcome α} (h : p.Inv)
    (hbound : p.disk.pageCount.toNat ≤ 2 ^ 52) (hi : p.shards[i]? = some sh)
    (hs : sh.Steps (fun id => p.shardFor id = i) p.disk o) :
    p.Steps o.label ⟨p.shards.set i o.shard, o.disk⟩ := by
  have hlen : (p.shards.set i o.shard).length = p.shards.length := List.length_set
  have hlt : i < p.shards.length := (List.getElem?_eq_some_iff.mp hi).1
  have hfor : ∀ id, BufferPool.shardFor ⟨p.shards.set i o.shard, o.disk⟩ id = p.shardFor id :=
    shardFor_congr hlen
  have hget : (p.shards.set i o.shard)[i]? = some o.shard := List.getElem?_set_self hlt
  refine ⟨⟨by rw [hlen]; exact h.nonempty, ?_⟩, ?_, hlen⟩
  · intro j sh' hj
    simp only [hfor]
    rcases eq_or_ne i j with rfl | hne
    · rw [hget] at hj
      injection hj with hj
      subst hj
      exact hs.inv
    · rw [List.getElem?_set_ne hne] at hj
      have hinv := h.shards j sh' hj
      refine ⟨hinv.toKept, hinv.writers, fun s hs' => ?_⟩
      refine (hinv.loads s hs').mono (fun owner id page f he => hs.step.holds hbound ?_)
      -- The page belongs to another shard, so this one has not cached it.
      change (sh.state.pageTable id).map sh.frame = none
      rw [Option.map_eq_none_iff]
      by_contra hne'
      obtain ⟨f', hf'⟩ := Option.ne_none_iff_exists'.mp hne'
      subst he
      exact hne (((h.shards i sh hi).books.mine id f' hf').symm.trans (hinv.held _ hs').1)
  · refine hs.step.lift p.cache (BufferPool.cache ⟨p.shards.set i o.shard, o.disk⟩)
      rfl rfl ?_ ?_ ?_
    · intro id hid
      exact cached_of_shard hi hid
    · intro id hid
      exact cached_of_shard hget ((hfor id).trans hid)
    · intro id hid
      change BufferPool.cached _ id = p.cached id
      rw [cached, cached, hfor, List.getElem?_set_ne (fun he => hid he.symm)]

theorem Inv.setDisk (h : p.Inv) {disk : DiskManager}
    (hd : ∀ id page, p.disk.Holds id page → disk.Holds id page) :
    BufferPool.Inv { p with disk := disk } where
  nonempty := h.nonempty
  shards i sh hi := by
    have hinv := h.shards i sh hi
    exact ⟨hinv.toKept, hinv.writers, fun s hs => (hinv.loads s hs).mono (fun _ id page _ _ => hd id page)⟩

theorem lockState_some {i : ℕ} {sh : Shard α} (h : p.lockState i = some sh) :
    p.shards[i]? = some sh ∧ sh.held = none := by
  rw [lockState, Option.filter_eq_some_iff] at h
  exact ⟨h.1, Option.isNone_iff_eq_none.mp h.2⟩

theorem step_steps [DecidableEq α] {a : Action α} {label : Label α} (h : p.Inv)
    (hbound : p.disk.pageCount.toNat ≤ 2 ^ 52) (hsync : ∀ ev, a ≠ .sync ev)
    (hs : p.step a = some (p', label)) : p.Steps label p' := by
  cases a with
  | fetch owner id rd =>
    simp only [step] at hs
    split_ifs at hs
    obtain ⟨sh, hl, hs⟩ := Option.map_eq_some_iff.mp hs
    obtain ⟨hi, hh⟩ := lockState_some hl
    cases hs
    exact steps_of_shard h hbound hi (Shard.fetchPage_steps (h.shards _ _ hi) hh hbound owner rfl rd)
  | install owner id page =>
    simp only [step] at hs
    split_ifs at hs
    · cases hs
      exact ⟨h, .quiet _, rfl⟩
    · obtain ⟨sh, hl, hs⟩ := Option.map_eq_some_iff.mp hs
      obtain ⟨hi, hh⟩ := lockState_some hl
      cases hs
      exact steps_of_shard h hbound hi (Shard.installPage_steps (h.shards _ _ hi) hh owner rfl page)
  | flush owner id =>
    simp only [step] at hs
    split_ifs at hs
    obtain ⟨sh, hl, hs⟩ := Option.map_eq_some_iff.mp hs
    obtain ⟨hi, hh⟩ := lockState_some hl
    cases hs
    exact steps_of_shard h hbound hi (Shard.flushPage_steps (h.shards _ _ hi) hh owner rfl)
  | resume i wr rd =>
    obtain ⟨o, hb, ho⟩ := Option.map_eq_some_iff.mp hs
    obtain ⟨sh, hi, hr⟩ := Option.bind_eq_some_iff.mp hb
    cases ho
    exact steps_of_shard h hbound hi (Shard.resume_steps (h.shards _ _ hi) hbound hr)
  | work i k wr =>
    obtain ⟨o, hb, ho⟩ := Option.map_eq_some_iff.mp hs
    obtain ⟨sh, hi, hr⟩ := Option.bind_eq_some_iff.mp hb
    cases ho
    exact steps_of_shard h hbound hi (Shard.work_steps (h.shards _ _ hi) hbound hr)
  | guard i k g =>
    obtain ⟨r, hb, hr⟩ := Option.map_eq_some_iff.mp hs
    obtain ⟨sh, hi, hg⟩ := Option.bind_eq_some_iff.mp hb
    cases hr
    exact steps_of_shard h hbound hi (Shard.guard_steps (h.shards _ _ hi) hg)
  | unpin i k =>
    obtain ⟨r, hb, hr⟩ := Option.map_eq_some_iff.mp hs
    obtain ⟨sh, hl, hu⟩ := Option.bind_eq_some_iff.mp hb
    obtain ⟨hi, hh⟩ := lockState_some hl
    cases hr
    exact steps_of_shard h hbound hi (Shard.unpin_steps (h.shards _ _ hi) hh hu)
  | sync ev => exact absurd rfl (hsync ev)

end BufferPool

end OxenDB
