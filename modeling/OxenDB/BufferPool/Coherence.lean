import OxenDB.BufferPool.PinCounts
import OxenDB.BufferPool.PoolCalls
import OxenDB.Lib.Overlay
import OxenDB.Lib.Transition

namespace OxenDB

open Lib

namespace BufferPool

variable {α : Type} {p p' : BufferPool α}

theorem shardCountFor_pos (capacity : ℕ) : 0 < shardCountFor capacity := by
  rw [shardCountFor, Nat.one_shiftLeft]
  exact Nat.two_pow_pos _

theorem shardCountFor_le {capacity : ℕ} (h : capacity ≠ 0) : shardCountFor capacity ≤ capacity := by
  rw [shardCountFor, Nat.one_shiftLeft]
  have hdiv : capacity / targetShardFrames ≤ capacity := Nat.div_le_self _ _
  exact (Nat.log2_self_le (by omega)).trans (by omega)

theorem new_shards {disk : DiskManager} {capacity : ℕ} (h : BufferPool.new disk capacity = .ok p)
    (i : ℕ) (sh : Shard α) (hi : p.shards[i]? = some sh) : ∃ n > 0, sh = Shard.new n := by
  rw [BufferPool.new] at h
  split_ifs at h with hc
  injection h with h
  subst h
  rw [List.getElem?_map] at hi
  obtain ⟨j, -, rfl⟩ := Option.map_eq_some_iff.mp hi
  have hdiv : 0 < capacity / shardCountFor capacity :=
    Nat.div_pos (shardCountFor_le hc) (shardCountFor_pos _)
  exact ⟨_, by omega, rfl⟩

theorem new_activities {disk : DiskManager} {capacity : ℕ} (h : BufferPool.new disk capacity = .ok p) :
    p.activities = [] := by
  rw [activities, List.flatMap_eq_nil_iff]
  intro sh hsh
  obtain ⟨i, hi⟩ := List.mem_iff_getElem?.mp hsh
  obtain ⟨n, -, rfl⟩ := new_shards h i sh hi
  rfl

theorem new_ok {disk : DiskManager} {capacity : ℕ} (h : BufferPool.new disk capacity = .ok p) :
    p.Inv ∧ p.disk = disk ∧ ∀ id, p.cached id = none := by
  have hget := new_shards h
  rw [BufferPool.new] at h
  split_ifs at h with hc
  injection h with h
  subst h
  refine ⟨⟨?_, ?_⟩, rfl, ?_⟩
  · rw [List.length_map, List.length_range]
    exact shardCountFor_pos capacity
  · intro i sh hi
    obtain ⟨n, hn, rfl⟩ := hget i sh hi
    refine ⟨Shard.new_kept hn, ?_, ?_⟩
    · rintro q ⟨⟩
    · rintro s ⟨⟩
  · intro id
    rw [cached]
    cases hi : (BufferPool.shards _)[BufferPool.shardFor _ id]? with
    | none => rfl
    | some sh =>
      obtain ⟨n, -, rfl⟩ := hget _ sh hi
      rfl

end BufferPool

namespace BufferPool

variable {α : Type} [DecidableEq α] {disk : DiskManager} {capacity : ℕ} {p₀ p : BufferPool α}
  {labels : List (Label α)}

def Step {κ : Type} [OfNat κ 0] [OfNat κ 1] [Add κ] [Sub κ] [LT κ] [DecidableLT κ] (p : BufferPool α κ)
    (label : Label α) (p' : BufferPool α κ) : Prop :=
  ∃ a, p.step a = some (p', label)

def updates (labels : List (Label α)) : List (PageId × Bytes) :=
  (labels.filterMap (fun label => label.update)).map (fun u => (u.1, u.2.body))

structure Tracks (p₀ : BufferPool α) (labels : List (Label α)) (p : BufferPool α) : Prop where
  inv : p.Inv
  count : p.disk.pageCount = p₀.disk.pageCount
  coherent : p.cache.Coherent
  content : p.cache.content = overlay p₀.cache.content (updates labels)

omit [DecidableEq α] in
theorem tracks_new (h : BufferPool.new disk capacity = .ok p₀) : p₀.Tracks [] p₀ where
  inv := (new_ok h).1
  count := rfl
  coherent id frame hf := by
    rw [show p₀.cache.frame id = none from (new_ok h).2.2 id] at hf
    cases hf
  content := rfl

omit [DecidableEq α] in
theorem Tracks.quiet (h : p₀.Tracks labels p) : p₀.Tracks (labels ++ [({ } : Label α)]) p := by
  refine ⟨h.inv, h.count, h.coherent, ?_⟩
  rw [h.content]
  congr 1
  simp [updates]

omit [DecidableEq α] in
theorem Tracks.setFile (h : p₀.Tracks labels p) {file : DataFile} (hf : file.contents = p.disk.file.contents) :
    p₀.Tracks labels { p with disk := { p.disk with file := file } } := by
  have hholds : ∀ id page, p.disk.Holds id page → DiskManager.Holds { p.disk with file := file } id page := by
    intro id page hp
    rw [DiskManager.Holds, hf]
    exact hp
  refine ⟨h.inv.setDisk hholds, h.count, fun id frame hc hd => hholds _ _ (h.coherent id frame hc hd), ?_⟩
  rw [← h.content]
  funext id
  exact Cache.content_congr rfl (congrArg (slotOf · id) hf)

theorem tracks_step (hbound : p₀.disk.pageCount.toNat ≤ 2 ^ 52) (h : p₀.Tracks labels p)
    {label : Label α} {p' : BufferPool α} (hs : Step p label p') :
    p₀.Tracks (labels ++ [label]) p' := by
  obtain ⟨a, hs⟩ := hs
  by_cases hsync : ∃ ev, a = .sync ev
  · obtain ⟨ev, rfl⟩ := hsync
    cases hs
    exact (h.setFile (p.disk.file.sync_contents ev)).quiet
  rw [not_exists] at hsync
  have hb : p.disk.pageCount.toNat ≤ 2 ^ 52 := by
    rw [h.count]
    exact hbound
  have hst := step_steps h.inv hb hsync hs
  refine ⟨hst.inv, hst.step.pageCount.trans h.count, hst.step.coherent hb h.coherent, ?_⟩
  rw [updates, List.filterMap_append, List.map_append, overlay_append]
  change _ = overlay (overlay p₀.cache.content (updates labels)) _
  rw [← h.content]
  funext id
  cases hu : label.update with
  | none =>
    simp only [List.filterMap_cons, hu, List.filterMap_nil, List.map_nil, overlay_nil]
    refine hst.step.content hb h.coherent (fun page he => ?_)
    cases hu.symm.trans he
  | some u =>
    simp only [List.filterMap_cons, hu, List.filterMap_nil, List.map_cons, List.map_nil, overlay_cons,
      overlay_nil]
    rcases eq_or_ne id u.1 with rfl | hne
    · rw [Function.update_self]
      exact hst.step.content_of_update hu
    · rw [Function.update_of_ne hne]
      refine hst.step.content hb h.coherent (fun page he => ?_)
      injection hu.symm.trans he with he
      exact hne (by rw [he])

theorem tracks_run (hnew : BufferPool.new disk capacity = .ok p₀) (hcount : disk.pageCount.toNat ≤ 2 ^ 52)
    (hrun : Run Step p₀ labels p) : p₀.Tracks labels p := by
  apply hrun.invariant (tracks_new hnew)
  intro ls s l s' _ h hs
  refine tracks_step ?_ h hs
  rw [(new_ok hnew).2.1]
  exact hcount

omit [DecidableEq α] in
theorem Inv.counted (h : p.Inv) : p.Counted := counted_of_kept (fun i sh hi => (h.shards i sh hi).toKept)

omit [DecidableEq α] in
theorem wrap_cache (p : BufferPool α) : p.wrap.cache = p.cache := by
  have hcached : p.wrap.cached = p.cached := by
    funext id
    rw [cached, cached, wrap_shardFor, wrap_getElem?]
    cases p.shards[p.shardFor id]? <;> rfl
  rw [cache, cache, hcached]
  rfl

omit [DecidableEq α] in
theorem exists_new {p : BufferPool α UInt32} (h : BufferPool.new disk capacity = .ok p) :
    ∃ q : BufferPool α, q.wrap = p ∧ BufferPool.new disk capacity = .ok q := by
  rw [new_wrap] at h
  cases hq : (BufferPool.new disk capacity : Except Error (BufferPool α)) with
  | error e =>
    rw [hq] at h
    cases h
  | ok q =>
    rw [hq] at h
    cases h
    exact ⟨q, rfl, rfl⟩

theorem exists_step (hc : p.Counted) (hf : p.wrap.FewPins) {a : Action α} {label : Label α}
    {p' : BufferPool α UInt32} (hs : p.wrap.step a = some (p', label)) :
    ∃ q, q.wrap = p' ∧ p.step a = some (q, label) := by
  rw [wrap_step hc hf.of_wrap] at hs
  obtain ⟨⟨q, l⟩, hq, he⟩ := Option.map_eq_some_iff.mp hs
  cases he
  exact ⟨q, rfl, hq⟩

def Bounded {κ : Type} (p : BufferPool α κ) (_ : Label α) : Prop := p.FewPins

theorem exists_run (hnew : BufferPool.new disk capacity = .ok p₀) (hcount : disk.pageCount.toNat ≤ 2 ^ 52)
    {p : BufferPool α UInt32} (hrun : Run (Restrict Step Bounded) p₀.wrap labels p) :
    ∃ q, q.wrap = p ∧ Run Step p₀ labels q := by
  apply hrun.of_image
  rintro ls q l p' hq ⟨⟨a, hs⟩, hf⟩
  obtain ⟨q', rfl, hs'⟩ := exists_step (tracks_run hnew hcount hq).inv.counted hf hs
  exact ⟨q', rfl, a, hs'⟩

theorem content_changes_only_by_updates {p₀ p : BufferPool α UInt32}
    (hnew : BufferPool.new disk capacity = .ok p₀) (hcount : disk.pageCount.toNat ≤ 2 ^ 52)
    (hrun : Run (Restrict Step Bounded) p₀ labels p) :
    (∀ id, p.cache.content id = overlay p₀.cache.content (updates labels) id) ∧
      ∀ label p' owner id page, Restrict Step Bounded p label p' → label.read = some (owner, id, page) →
        page.body = p.cache.content id := by
  obtain ⟨q₀, rfl, hnew₀⟩ := exists_new hnew
  obtain ⟨q, rfl, hq⟩ := exists_run hnew₀ hcount hrun
  have htracks := tracks_run hnew₀ hcount hq
  rw [wrap_cache, wrap_cache]
  refine ⟨fun id => by rw [htracks.content], ?_⟩
  rintro label p' owner id page ⟨⟨a, hs⟩, hf⟩ hr
  obtain ⟨q', rfl, hs'⟩ := exists_step htracks.inv.counted hf hs
  obtain ⟨-, -, frame, hframe, rfl⟩ := (step_calls htracks.inv hs').read hr
  exact (Cache.content_cached hframe).symm

end BufferPool

section Wrapped

variable (disk : DiskManager) (id : PageId) (page : Page)

def installing : BufferPool Unit UInt32 :=
  ⟨[{ (Shard.new 1 : Shard Unit UInt32) with
      state := { PoolState.new 1 with freeFrames := [] }
      held := some (.fill () id page true 0) }], disk⟩

def installedShard : Shard Unit UInt32 :=
  ⟨[⟨page, true⟩], ({ PoolState.new 1 with freeFrames := [] }.map id 0).touch 0, none, []⟩

def flushing : BufferPool Unit UInt32 :=
  ⟨[{ installedShard id page with
      state := (installedShard id page).state.pin 0
      pins := [⟨(), 0, id, .flush⟩] }], disk⟩

theorem new_one : BufferPool.new disk 1 = .ok (⟨[Shard.new 1], disk⟩ : BufferPool Unit UInt32) := rfl

theorem shardFor_one (sh : Shard Unit UInt32) (id : PageId) :
    BufferPool.shardFor (⟨[sh], disk⟩ : BufferPool Unit UInt32) id = 0 := Nat.and_zero _

theorem step_install_one (hp : page.pageId = id) :
    BufferPool.step (⟨[Shard.new 1], disk⟩ : BufferPool Unit UInt32) (.install () id page) =
      some (installing disk id page, { }) := by
  simp only [BufferPool.step, hp]
  rw [if_pos (show BufferPool.idle _ _ = true from rfl), if_neg (not_not.mpr rfl), shardFor_one]
  rfl

theorem fewPins_one {sh : Shard Unit UInt32} (h : sh.pins.length ≤ 1) :
    BufferPool.FewPins (⟨[sh], disk⟩ : BufferPool Unit UInt32) := by
  intro sh' hsh f
  have hle := List.count_le_length (a := f) (l := sh.pins.map Pin.frame)
  rw [List.length_map] at hle
  rw [List.mem_singleton.mp hsh, Shard.pinsAt]
  omega

theorem step_flush_one : BufferPool.step (⟨[installedShard id page], disk⟩ : BufferPool Unit UInt32) (.flush () id) =
    some (flushing disk id page, { }) := by
  have htable : (installedShard id page).state.pageTable id = some 0 := Function.update_self ..
  simp only [BufferPool.step]
  rw [if_pos (show BufferPool.idle _ _ = true from rfl), shardFor_one]
  change some (BufferPool.put _ 0 ((installedShard id page).flushPage () id)) = _
  rw [Shard.flushPage, htable]
  rfl

theorem installed_run (hp : page.pageId = id) : Run (Restrict BufferPool.Step BufferPool.Bounded)
    (⟨[Shard.new 1], disk⟩ : BufferPool Unit UInt32)
    [{ }, { update := some (id, page), returned := some ((), id, .ok ()) }] ⟨[installedShard id page], disk⟩ := by
  refine .step (.step .start ⟨⟨_, step_install_one disk id page hp⟩, ?_⟩) ⟨⟨.resume 0 .ok true, rfl⟩, ?_⟩
  · exact fewPins_one disk (Nat.zero_le 1)
  · exact fewPins_one disk (Nat.zero_le 1)

theorem flushing_run (hp : page.pageId = id) : Run (Restrict BufferPool.Step BufferPool.Bounded)
    (⟨[Shard.new 1], disk⟩ : BufferPool Unit UInt32)
    [{ }, { update := some (id, page), returned := some ((), id, .ok ()) }, { }] (flushing disk id page) :=
  (installed_run disk id page hp).step ⟨⟨_, step_flush_one disk id page⟩, fewPins_one disk (Nat.zero_le 1)⟩

theorem step_work_one (hp : page.pageId = id) (hid : DataPage disk.pageCount id)
    (hoff : (fileOffset id).toNat + pageSize ≤ maxFileSize) :
    (flushing disk id page).step (.work 0 0 .ok) = some (⟨[{ installedShard id page with
        frames := [⟨page.seal, false⟩]
        state := (installedShard id page).state.pin 0
        pins := [⟨(), 0, id, .drop (.ok ())⟩] }],
      { disk with file := disk.file.writeSlot id page.seal.data }⟩, { written := some (id, page.seal) }) := by
  have hstep : (flushing disk id page).step (.work 0 0 .ok) =
      some (⟨[{ installedShard id page with
          frames := [((Frame.mk page true).writeBack disk id .ok).frame]
          state := (installedShard id page).state.pin 0
          pins := [⟨(), 0, id, .drop ((Frame.mk page true).writeBack disk id .ok).result⟩] }],
        ((Frame.mk page true).writeBack disk id .ok).disk⟩,
        { written := ((Frame.mk page true).writeBack disk id .ok).written }) := rfl
  rw [hstep, Frame.writeBack_ok hp hid hoff]

theorem cached_one (sh : Shard Unit UInt32) :
    BufferPool.cached (⟨[sh], disk⟩ : BufferPool Unit UInt32) = sh.cached := by
  funext id
  rw [BufferPool.cached, shardFor_one]
  rfl

end Wrapped

theorem content_changes_only_by_updates_install :
    DiskManager.create.pageCount.toNat ≤ 2 ^ 52 ∧
      (flushing DiskManager.create 1 (Page.new 1 .heap)).cache.content 1 = (Page.new 1 .heap).body := by
  have hcount : DiskManager.create.pageCount.toNat ≤ 2 ^ 52 := by decide
  have hrun := flushing_run DiskManager.create 1 (Page.new 1 .heap) (Page.new_pageId 1 .heap)
  refine ⟨hcount, ?_⟩
  rw [(BufferPool.content_changes_only_by_updates (new_one _) hcount hrun).1 1]
  simp only [BufferPool.updates, List.filterMap_cons, List.filterMap_nil, List.map_cons, List.map_nil,
    overlay_cons, overlay_nil, Function.update_self]

theorem wrapped_offset_overwrites_page :
    ∃ (disk : DiskManager) (p₀ p p' : BufferPool Unit UInt32) (labels : List (Label Unit)) (label : Label Unit),
      DiskManager.create.setPageCount 4503599627370498 = .ok disk ∧
      BufferPool.new disk 1 = .ok p₀ ∧ Run BufferPool.Step p₀ labels p ∧
      BufferPool.Step p label p' ∧ label.update = none ∧
      p'.cache.content 1 ≠ p.cache.content 1 := by
  have hid : DataPage 4503599627370498 4503599627370497 := ⟨by decide, by decide⟩
  have hoff : (fileOffset 4503599627370497).toNat = slotOffset 1 := by decide
  let disk : DiskManager := { DiskManager.create with pageCount := 4503599627370498 }
  let page := Page.new 4503599627370497 .heap
  have hpage : page.pageId = 4503599627370497 := Page.new_pageId _ _
  let p' : BufferPool Unit UInt32 := ⟨[{ installedShard 4503599627370497 page with
      frames := [⟨page.seal, false⟩]
      state := (installedShard 4503599627370497 page).state.pin 0
      pins := [⟨(), 0, 4503599627370497, .drop (.ok ())⟩] }],
    { disk with file := disk.file.writeSlot 4503599627370497 page.seal.data }⟩
  have hwork : BufferPool.Step (flushing disk 4503599627370497 page) _ p' :=
    ⟨_, step_work_one disk 4503599627370497 page hpage hid (by rw [hoff]; decide)⟩
  refine ⟨disk, _, _, p', _, _, if_neg (by decide), new_one disk,
    (flushing_run disk _ page hpage).mono (fun _ _ _ h => h.1), hwork, rfl, ?_⟩
  have hafter : p'.cache.content 1 = page.body := by
    have hcached : p'.cached 1 = none := by
      rw [cached_one]
      rfl
    rw [Cache.content_uncached (c := p'.cache) hcached]
    change (slotOf (writeAt disk.file.contents (fileOffset 4503599627370497).toNat page.seal.data) 1).drop 4 = _
    rw [hoff, slotOf, ← page.seal.size, slice_writeAt_same]
    exact page.seal_body
  have hbefore : (flushing disk 4503599627370497 page).cache.content 1 =
      (slotOf FileHeader.new.encode.data 1).drop 4 := by
    apply Cache.content_uncached
    change BufferPool.cached _ 1 = none
    rw [flushing, cached_one]
    rfl
  rw [hafter, hbefore]
  intro he
  have hnew : page.body[0]? = some 2 := by
    have hd : page.data.getD 4 0 = 2 := Page.new_getD _ .heap 4 (by decide)
    rw [Page.body, List.getElem?_drop, List.getElem?_eq_getElem (by rw [page.size]; decide)]
    rw [List.getD_eq_getElem?_getD, List.getElem?_eq_getElem (by rw [page.size]; decide)] at hd
    exact congrArg some hd
  have hold : ((slotOf FileHeader.new.encode.data 1).drop 4)[0]? = some 0 := by
    rw [List.getElem?_drop, slotOf, slice_getElem? _ _ _ _ (by decide), List.getD_eq_getElem?_getD,
      List.getElem?_eq_none (by rw [FileHeader.new.encode.size]; decide)]
    rfl
  rw [he, hold] at hnew
  cases hnew

end OxenDB
