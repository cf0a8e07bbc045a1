import OxenDB.BufferPool.Cache
import OxenDB.BufferPool.Turns

namespace OxenDB

variable {α : Type}

def Section.Loads (disk : DiskManager) : Section α → Prop
  | .fill _ id page false _ => disk.Holds id page ∧ page.Valid id
  | _ => True

theorem Section.Loads.mono {s : Section α} {disk disk' : DiskManager} (h : s.Loads disk)
    (hd : ∀ owner id page f, s = .fill owner id page false f → disk.Holds id page → disk'.Holds id page) :
    s.Loads disk' := by
  match s, h with
  | .evict _ _ _ _ _, h => exact h
  | .fill _ _ _ true _, h => exact h
  | .fill owner id page false f, h => exact ⟨hd owner id page f rfl h.1, h.2⟩

namespace Shard

def cached {κ : Type} (sh : Shard α κ) (id : PageId) : Option Frame := (sh.state.pageTable id).map sh.frame

def Writers (sh : Shard α) : Prop :=
  ∀ p ∈ sh.pins, ∀ r, p.stage = .handle r true → (sh.frame p.frame).dirty = true

structure Inv (mine : PageId → Prop) (disk : DiskManager) (sh : Shard α) : Prop extends Kept mine sh where
  writers : sh.Writers
  loads : ∀ s, sh.held = some s → s.Loads disk

structure Steps (mine : PageId → Prop) (disk : DiskManager) (sh : Shard α) (o : Outcome α) : Prop where
  inv : Inv mine o.disk o.shard
  step : Cache.Step mine ⟨sh.cached, disk⟩ o.label.toChange ⟨o.shard.cached, o.disk⟩

section Frames

variable {mine : PageId → Prop} {sh : Shard α} {f : ℕ} {x : Frame}

theorem frame_set_self (hf : f < sh.frames.length) :
    Shard.frame { sh with frames := sh.frames.set f x } f = x := by
  rw [frame, getD_set _ _ _ _ hf, if_pos rfl]

theorem frame_set_ne (g : ℕ) (hf : f < sh.frames.length) (hg : f ≠ g) :
    Shard.frame { sh with frames := sh.frames.set f x } g = sh.frame g := by
  rw [frame, frame, getD_set _ _ _ _ hf, if_neg hg]

theorem cached_set {reserved : Option ℕ} {pins : List (ℕ × PageId)}
    (h : Books mine sh.frames.length sh.state reserved pins) {id : PageId}
    (hf : sh.state.pageTable id = some f) :
    Shard.cached { sh with frames := sh.frames.set f x } = Function.update sh.cached id (some x) := by
  have hlt := h.lt_of_mapped hf
  funext id'
  change (sh.state.pageTable id').map (Shard.frame { sh with frames := sh.frames.set f x }) = _
  rcases eq_or_ne id' id with rfl | hne
  · rw [Function.update_self, hf, Option.map_some, frame_set_self hlt]
  · rw [Function.update_of_ne hne, cached]
    cases hg : sh.state.pageTable id' with
    | none => rfl
    | some g =>
      have hfg : f ≠ g := by
        rintro rfl
        exact hne (h.mapped_inj hg hf)
      rw [Option.map_some, Option.map_some, frame_set_ne g hlt hfg]

theorem cached_map {reserved : Option ℕ} {pins : List (ℕ × PageId)}
    (h : Books mine sh.frames.length sh.state reserved pins) (id : PageId)
    (hf : sh.state.framePages[f]? = some none) :
    Shard.cached { sh with frames := sh.frames.set f x, state := sh.state.map id f } =
      Function.update sh.cached id (some x) := by
  have hlt : f < sh.frames.length := by
    rw [← h.framePages]
    exact (List.getElem?_eq_some_iff.mp hf).1
  funext id'
  change (Function.update sh.state.pageTable id (some f) id').map
    (Shard.frame { sh with frames := sh.frames.set f x }) = _
  rcases eq_or_ne id' id with rfl | hne
  · rw [Function.update_self, Function.update_self, Option.map_some, frame_set_self hlt]
  · rw [Function.update_of_ne hne, Function.update_of_ne hne, cached]
    cases hg : sh.state.pageTable id' with
    | none => rfl
    | some g =>
      have hfg : f ≠ g := by
        rintro rfl
        rw [(h.mapped id' f).mp hg] at hf
        cases hf
      rw [Option.map_some, Option.map_some, frame_set_ne g hlt hfg]

theorem cached_unmap {reserved : Option ℕ} {pins : List (ℕ × PageId)}
    (h : Books mine sh.frames.length sh.state reserved pins) {id : PageId}
    (hf : sh.state.pageTable id = some f) :
    Shard.cached { sh with frames := sh.frames.set f x, state := sh.state.unmap id f } =
      Function.update sh.cached id none := by
  funext id'
  change (Function.update sh.state.pageTable id none id').map
    (Shard.frame { sh with frames := sh.frames.set f x }) = _
  rcases eq_or_ne id' id with rfl | hne
  · rw [Function.update_self, Function.update_self, Option.map_none]
  · rw [Function.update_of_ne hne, Function.update_of_ne hne]
    have hset := congrFun (cached_set (x := x) h hf) id'
    rw [Function.update_of_ne hne] at hset
    exact hset

theorem cached_clock {st : PoolState} (hst : sh.state.SameButClock st) :
    Shard.cached { sh with state := st } = sh.cached := by
  funext id
  rw [cached, cached]
  change (st.pageTable id).map sh.frame = _
  rw [hst.pageTable]

theorem Writers.set_unpinned (h : sh.Writers) (hlt : f < sh.frames.length)
    (hf : ∀ p ∈ sh.pins, p.frame ≠ f) : Writers { sh with frames := sh.frames.set f x } := by
  intro p hp r hr
  rw [frame_set_ne _ hlt (hf p hp).symm]
  exact h p hp r hr

theorem Writers.set_dirty (h : sh.Writers) (hlt : f < sh.frames.length) (hx : x.dirty = true) :
    Writers { sh with frames := sh.frames.set f x } := by
  intro p hp r hr
  rcases eq_or_ne f p.frame with rfl | hne
  · rw [frame_set_self hlt]
    exact hx
  · rw [frame_set_ne _ hlt hne]
    exact h p hp r hr

theorem Writers.cons (h : sh.Writers) {q : Pin α} (hq : ∀ r, q.stage ≠ .handle r true) :
    Writers { sh with pins := q :: sh.pins } := by
  rintro p (_ | ⟨_, hp⟩) r hr
  · exact absurd hr (hq r)
  · exact h p hp r hr

theorem Writers.setStage (h : sh.Writers) {k : ℕ} {p : Pin α} {stage : Stage}
    (hs : ∀ r, stage = .handle r true → (sh.frame p.frame).dirty = true) :
    (sh.setStage k p stage).Writers := by
  intro q hq r hr
  rcases List.mem_or_eq_of_mem_set hq with hq | rfl
  · exact h q hq r hr
  · exact hs r hr

end Frames

variable {mine : PageId → Prop} {sh sh' : Shard α}

theorem Opened.cached {a : α} {id : PageId} {stage : Stage} (ho : Opened sh a id stage sh') :
    sh'.cached = sh.cached := by
  cases ho with
  | returned hst => exact cached_clock hst
  | @pinned _ f hf hst => exact @cached_clock _ { sh with state := sh.state.pin f } _ hst
  | evict hst hid hf hp => exact cached_clock hst
  | take hfree hid => rfl

theorem Opened.keeps_writers {a : α} {id : PageId} {stage : Stage} (ho : Opened sh a id stage sh')
    (hstage : ∀ r, stage ≠ .handle r true) (h : sh.Writers) : sh'.Writers := by
  cases ho with
  | returned hst => exact h
  | pinned hf hst => exact h.cons hstage
  | evict hst hid hf hp => exact h
  | take hfree hid => exact h

theorem Resumed.keeps_writers {s : Section α} (hr : Resumed sh s sh') (hs : sh.held = some s) (hk : sh.Kept mine)
    (h : sh.Writers) : sh'.Writers := by
  have haim := hk.held s hs
  have hfree := hk.not_pinned (hk.unpinned hs)
  have hlt : s.frame < sh.frames.length := by
    rw [← hk.books.framePages]
    cases s with
    | evict => exact (List.getElem?_eq_some_iff.mp ((hk.books.mapped _ _).mp haim.2.2.1)).1
    | fill => exact (List.getElem?_eq_some_iff.mp haim.2.2).1
  cases hr with
  | failed => exact h.set_unpinned hlt hfree
  | evicted => exact h.set_unpinned hlt hfree
  | unread => exact h.set_unpinned hlt hfree
  | loaded => exact Writers.cons (h.set_unpinned hlt hfree) (by rintro r ⟨⟩)
  | installed => exact h.set_unpinned hlt hfree

end Shard

end OxenDB
