import OxenDB.BufferPool.Books

namespace OxenDB

variable {α : Type}

def Section.owner : Section α → α
  | .evict owner _ _ _ _ => owner
  | .fill owner _ _ _ _ => owner

def Section.frame : Section α → ℕ
  | .evict _ _ _ victim _ => victim
  | .fill _ _ _ _ f => f

def Section.Aims (mine : PageId → Prop) (st : PoolState) : Section α → Prop
  | .evict _ id _ victim oldId => mine id ∧ st.pageTable id = none ∧
    st.pageTable oldId = some victim ∧ st.pinCounts.getD victim 0 = 0
  | .fill _ id _ _ f => mine id ∧ st.pageTable id = none ∧ st.framePages[f]? = some none

def Stage.Calls : Stage → Prop
  | .install _ => True
  | .flush => True
  | _ => False

def Stage.guards : Stage → Bool → ℕ
  | .handle reads _, false => reads
  | .handle _ writing, true => if writing then 1 else 0
  | _, _ => 0

namespace Shard

def reserved (sh : Shard α) : Option ℕ :=
  match sh.held with
  | some (.fill _ _ _ _ f) => some f
  | _ => none

def pinnedAt (sh : Shard α) : List (ℕ × PageId) := sh.pins.map (fun p => (p.frame, p.pageId))

structure Kept (mine : PageId → Prop) (sh : Shard α) : Prop where
  books : Books mine sh.frames.length sh.state sh.reserved sh.pinnedAt
  held : ∀ s, sh.held = some s → s.Aims mine sh.state

inductive Opened (sh : Shard α) (a : α) (id : PageId) (stage : Stage) : Shard α → Prop
  | returned {st : PoolState} : sh.state.SameButClock st → Opened sh a id stage { sh with state := st }
  | pinned {st : PoolState} {f : ℕ} : sh.state.pageTable id = some f →
      (sh.state.pin f).SameButClock st →
      Opened sh a id stage { sh with state := st, pins := ⟨a, f, id, stage⟩ :: sh.pins }
  | evict {st : PoolState} {oldId : PageId} {want : Want} {f : ℕ} : sh.state.SameButClock st →
      sh.state.pageTable id = none → sh.state.framePages[f]? = some (some oldId) →
      sh.state.pinCounts.getD f 0 = 0 →
      Opened sh a id stage { sh with state := st, held := some (.evict a id want f oldId) }
  | take {page : Page} {install : Bool} {f : ℕ} {rest : List ℕ} :
      sh.state.freeFrames = f :: rest → sh.state.pageTable id = none →
      Opened sh a id stage
        { sh with
          state := { sh.state with freeFrames := rest }
          held := some (.fill a id page install f) }

inductive Resumed (sh : Shard α) : Section α → Shard α → Prop
  | failed {a : α} {id oldId : PageId} {want : Want} {f : ℕ} {x : Frame} :
      Resumed sh (.evict a id want f oldId) { sh with frames := sh.frames.set f x, held := none }
  | evicted {a : α} {id oldId : PageId} {want : Want} {f : ℕ} {x : Frame} {page : Page} {install : Bool} :
      Resumed sh (.evict a id want f oldId)
        { sh with
          frames := sh.frames.set f x
          state := sh.state.unmap oldId f
          held := some (.fill a id page install f) }
  | unread {a : α} {id oldId : PageId} {want : Want} {f : ℕ} {x : Frame} :
      Resumed sh (.evict a id want f oldId)
        { sh with
          frames := sh.frames.set f x
          state := (sh.state.unmap oldId f).release f
          held := none }
  | loaded {a : α} {id : PageId} {page : Page} {f : ℕ} {x : Frame} :
      Resumed sh (.fill a id page false f)
        { sh with
          frames := sh.frames.set f x
          state := { (sh.state.map id f).touch f with pinCounts := sh.state.pinCounts.set f 1 }
          held := none
          pins := ⟨a, f, id, .handle 0 false⟩ :: sh.pins }
  | installed {a : α} {id : PageId} {page : Page} {f : ℕ} {x : Frame} :
      Resumed sh (.fill a id page true f)
        { sh with
          frames := sh.frames.set f x
          state := (sh.state.map id f).touch f
          held := none }

structure Keeps (mine : PageId → Prop) (sh sh' : Shard α) : Prop where
  kept : sh'.Kept mine
  frames : sh'.frames.length = sh.frames.length
  pinned : ∀ f, 0 < sh.state.pinCounts.getD f 0 → sh'.state.framePages[f]? = sh.state.framePages[f]?

variable {mine : PageId → Prop} {sh sh' : Shard α} {a : α} {id : PageId} {stage : Stage} {k : ℕ}
  {p : Pin α}

theorem reserved_of_held_none (h : sh.held = none) : sh.reserved = none := by
  rw [reserved, h]

theorem pinnedAt_setStage (hk : sh.pins[k]? = some p) (stage : Stage) :
    (sh.setStage k p stage).pinnedAt = sh.pinnedAt := by
  obtain ⟨hlt, rfl⟩ := List.getElem?_eq_some_iff.mp hk
  rw [pinnedAt, setStage, List.map_set]
  change (sh.pinnedAt.set k (sh.pins[k].frame, sh.pins[k].pageId)) = sh.pinnedAt
  have hget : sh.pinnedAt[k]? = some (sh.pins[k].frame, sh.pins[k].pageId) := by
    rw [pinnedAt, List.getElem?_map, List.getElem?_eq_getElem hlt]
    rfl
  apply List.ext_getElem?
  intro i
  rw [List.getElem?_set]
  split_ifs with hi hl
  · rw [← hi, hget]
  · subst hi
    rw [pinnedAt, List.length_map] at hl
    exact absurd hlt hl
  · rfl

theorem Kept.mapped_of_pin (h : sh.Kept mine) (hp : p ∈ sh.pins) :
    sh.state.pageTable p.pageId = some p.frame :=
  (h.books.mapped _ _).mpr (h.books.pinned (p.frame, p.pageId) (List.mem_map_of_mem hp))

theorem Kept.not_pinned (h : sh.Kept mine) {f : ℕ} (hf : sh.state.pinCounts.getD f 0 = 0) :
    ∀ p ∈ sh.pins, p.frame ≠ f := fun p hp =>
  h.books.not_pinned hf (p.frame, p.pageId) (List.mem_map_of_mem hp)

theorem Kept.books_free (h : sh.Kept mine) (hh : sh.held = none) :
    Books mine sh.frames.length sh.state none sh.pinnedAt := by
  rw [← reserved_of_held_none hh]
  exact h.books

theorem Kept.of_free {frames : List Frame} {st : PoolState} {pins : List (Pin α)}
    (hb : Books mine frames.length st none (pins.map (fun p => (p.frame, p.pageId)))) :
    Kept mine ⟨frames, st, none, pins⟩ :=
  ⟨hb, by rintro s ⟨⟩⟩

theorem Kept.unpinned (h : sh.Kept mine) {s : Section α} (hs : sh.held = some s) :
    sh.state.pinCounts.getD s.frame 0 = 0 := by
  have haim := h.held s hs
  cases s with
  | evict => exact haim.2.2.2
  | fill => exact h.books.counts_unmapped haim.2.2

theorem new_kept {n : ℕ} (hn : 0 < n) : (new n : Shard α).Kept mine := by
  apply Kept.of_free
  rw [List.length_replicate]
  exact Books.new _ hn

theorem Opened.keeps (ho : Opened sh a id stage sh') (h : sh.Kept mine) (hh : sh.held = none) (hm : mine id) :
    sh.Keeps mine sh' := by
  have hb := h.books_free hh
  cases ho with
  | returned hst =>
    refine ⟨⟨h.books.clock hst, ?_⟩, rfl, fun f _ => by rw [hst.framePages]⟩
    intro s hs
    rw [hh] at hs
    cases hs
  | pinned hf hst =>
    refine ⟨⟨(h.books.pin hf).clock hst, ?_⟩, rfl, fun f _ => by rw [hst.framePages]; rfl⟩
    intro s hs
    rw [hh] at hs
    cases hs
  | evict hst hid hf hp =>
    refine ⟨⟨hb.clock hst, ?_⟩, rfl, fun f _ => by rw [hst.framePages]⟩
    rintro s ⟨⟩
    rw [Section.Aims, hst.pageTable, hst.pinCounts]
    exact ⟨hm, hid, (hb.mapped _ _).mpr hf, hp⟩
  | @take _ _ f rest hfree hid =>
    have hf := (hb.free f).mp (by rw [hfree]; exact List.mem_cons_self)
    refine ⟨⟨hb.pop hfree, ?_⟩, rfl, fun f _ => rfl⟩
    rintro s ⟨⟩
    exact ⟨hm, hid, hf.1⟩

theorem unmap_framePages {st : PoolState} {id : PageId} {f : ℕ} (hf : f < st.framePages.length) :
    (st.unmap id f).framePages[f]? = some none := List.getElem?_set_self hf

theorem unmap_pageTable {st : PoolState} {id oldId : PageId} {f : ℕ} (h : st.pageTable id = none) :
    (st.unmap oldId f).pageTable id = none := by
  change Function.update st.pageTable oldId none id = none
  rcases eq_or_ne id oldId with rfl | hne
  · rw [Function.update_self]
  · rw [Function.update_of_ne hne, h]

theorem Resumed.keeps {s : Section α} (hr : Resumed sh s sh') (h : sh.Kept mine) (hs : sh.held = some s) :
    sh.Keeps mine sh' := by
  have haim := h.held s hs
  have hzero := h.unpinned hs
  have hb := h.books
  rw [reserved, hs] at hb
  -- Only the frame the call works on changes its page, and nobody has pinned it.
  have hpinned : ∀ x g, 0 < sh.state.pinCounts.getD g 0 →
      (sh.state.framePages.set s.frame x)[g]? = sh.state.framePages[g]? := by
    intro x g hg
    apply List.getElem?_set_ne
    rintro rfl
    omega
  cases hr with
  | @failed _ _ _ _ f x =>
    refine ⟨Kept.of_free ?_, List.length_set, fun _ _ => rfl⟩
    rw [List.length_set]
    exact hb
  | @evicted _ id oldId _ f x =>
    have hlt : f < sh.state.framePages.length := by
      rw [hb.framePages]
      exact hb.lt_of_mapped haim.2.2.1
    refine ⟨⟨?_, ?_⟩, List.length_set, hpinned none⟩
    · change Books _ (sh.frames.set f x).length _ (some f) sh.pinnedAt
      rw [List.length_set]
      exact hb.unmap haim.2.2.1 haim.2.2.2
    · rintro s ⟨⟩
      exact ⟨haim.1, unmap_pageTable haim.2.1, unmap_framePages hlt⟩
  | @unread _ id oldId _ f x =>
    have hlt : f < sh.state.framePages.length := by
      rw [hb.framePages]
      exact hb.lt_of_mapped haim.2.2.1
    refine ⟨Kept.of_free ?_, List.length_set, hpinned none⟩
    rw [List.length_set]
    exact (hb.unmap haim.2.2.1 haim.2.2.2).release (unmap_framePages hlt)
  | @loaded a id page f x =>
    have hpin := ((hb.map haim.2.2 haim.2.1 haim.1).clock (PoolState.sameButClock_touch _ f)).pin
      (show ((sh.state.map id f).touch f).pageTable id = some f from Function.update_self ..)
    have hone : ((sh.state.map id f).touch f).pinCounts.getD f 0 + 1 = 1 := by
      change sh.state.pinCounts.getD f 0 + 1 = 1
      rw [show sh.state.pinCounts.getD f 0 = 0 from hzero]
    rw [PoolState.pin, hone] at hpin
    refine ⟨Kept.of_free ?_, List.length_set, hpinned (some id)⟩
    rw [List.length_set]
    exact hpin
  | @installed a id page f x =>
    refine ⟨Kept.of_free ?_, List.length_set, hpinned (some id)⟩
    rw [List.length_set]
    exact (hb.map haim.2.2 haim.2.1 haim.1).clock (PoolState.sameButClock_touch _ f)

theorem Kept.setStage (h : sh.Kept mine) (hk : sh.pins[k]? = some p) (stage : Stage) {frames : List Frame}
    (hl : frames.length = sh.frames.length) :
    sh.Keeps mine { sh.setStage k p stage with frames := frames } := by
  refine ⟨⟨?_, h.held⟩, hl, fun _ _ => rfl⟩
  change Books _ frames.length sh.state sh.reserved (sh.setStage k p stage).pinnedAt
  rw [hl, pinnedAt_setStage hk]
  exact h.books

theorem Kept.frames (h : sh.Kept mine) {frames : List Frame} (hl : frames.length = sh.frames.length) :
    sh.Keeps mine { sh with frames := frames } := by
  refine ⟨⟨?_, h.held⟩, hl, fun _ _ => rfl⟩
  change Books _ frames.length sh.state sh.reserved sh.pinnedAt
  rw [hl]
  exact h.books

theorem Kept.unpin (h : sh.Kept mine) (hh : sh.held = none) (hk : sh.pins[k]? = some p) :
    sh.Keeps mine { sh with state := sh.state.unpin p.frame, pins := sh.pins.eraseIdx k } := by
  have hk' : sh.pinnedAt[k]? = some (p.frame, p.pageId) := by
    rw [pinnedAt, List.getElem?_map, hk]
    rfl
  refine ⟨⟨?_, ?_⟩, rfl, fun _ _ => rfl⟩
  · change Books _ sh.frames.length (sh.state.unpin p.frame) sh.reserved
      ((sh.pins.eraseIdx k).map (fun p => (p.frame, p.pageId)))
    rw [← List.eraseIdx_map]
    exact h.books.unpin hk'
  · intro s hs
    rw [hh] at hs
    cases hs

theorem fetchPage_opened (h : sh.Kept mine) (hh : sh.held = none) (disk : DiskManager) (a : α) (id : PageId)
    (rd : Bool) : Opened sh a id (.handle 0 false) (sh.fetchPage disk a id rd).1 := by
  rw [fetchPage]
  cases hf : sh.state.pageTable id with
  | some f => exact .pinned hf (PoolState.sameButClock_touch _ _)
  | none =>
    have hspec := (h.books_free hh).acquire sh.frames.length
    generalize sh.state.acquireFrame sh.frames.length = r at hspec ⊢
    obtain ⟨st, acquired⟩ := r
    cases hspec with
    | @free f rest hfree =>
      simp only [load]
      cases disk.readPage id rd with
      | ok page => exact .take hfree hf
      | error e =>
        -- The frame goes back to where it was taken from.
        have hsame : { sh with state := PoolState.release { sh.state with freeFrames := rest } f, held := none } =
            { sh with state := sh.state } := by
          rw [PoolState.release, ← hfree, ← hh]
        rw [hsame]
        exact .returned (.refl _)
    | victim _ hst hfp hp => exact .evict hst hf hfp hp
    | exhausted hst _ => exact .returned hst

theorem installPage_opened (h : sh.Kept mine) (hh : sh.held = none) (a : α) (id : PageId) (page : Page) :
    Opened sh a id (.install page) (sh.installPage a id page).1 := by
  rw [installPage]
  cases hf : sh.state.pageTable id with
  | some f => exact .pinned hf (PoolState.sameButClock_touch _ _)
  | none =>
    have hspec := (h.books_free hh).acquire sh.frames.length
    generalize sh.state.acquireFrame sh.frames.length = r at hspec ⊢
    obtain ⟨st, acquired⟩ := r
    cases hspec with
    | free hfree => exact .take hfree hf
    | victim _ hst hfp hp => exact .evict hst hf hfp hp
    | exhausted hst _ => exact .returned hst

theorem flushPage_opened (a : α) (id : PageId) : Opened sh a id .flush (sh.flushPage a id).1 := by
  rw [flushPage]
  cases hf : sh.state.pageTable id with
  | none => exact .returned (.refl _)
  | some f => exact .pinned hf (.refl _)

theorem resume_resumed {disk : DiskManager} {wr : WriteResult} {rd : Bool} {o : Outcome α} {s : Section α}
    (hs : sh.held = some s) (hr : sh.resume disk wr rd = some o) : Resumed sh s o.shard := by
  rw [resume.eq_def] at hr
  cases s with
  | evict a id want f oldId =>
    simp only [hs] at hr
    generalize (sh.frame f).writeBack disk oldId wr = w at hr
    obtain ⟨x, disk', written, result⟩ := w
    cases result with
    | error e =>
      injection hr with hr
      subst hr
      exact .failed
    | ok u =>
      cases want with
      | install page =>
        injection hr with hr
        subst hr
        exact .evicted
      | fetch =>
        injection hr with hr
        subst hr
        simp only [load]
        cases disk'.readPage id rd with
        | ok page => exact .evicted
        | error e => exact .unread
  | fill a id page install f =>
    cases install with
    | false =>
      simp only [hs] at hr
      injection hr with hr
      subst hr
      exact .loaded
    | true =>
      simp only [hs] at hr
      injection hr with hr
      subst hr
      exact .installed

theorem exists_resume (sh : Shard α) {s : Section α} (hs : sh.held = some s) (disk : DiskManager)
    (wr : WriteResult) (rd : Bool) : ∃ o, sh.resume disk wr rd = some o := by
  rw [resume.eq_def, hs]
  cases s with
  | evict a id want f oldId =>
    simp only
    cases ((sh.frame f).writeBack disk oldId wr).result with
    | error e => exact ⟨_, rfl⟩
    | ok u =>
      cases want with
      | fetch => exact ⟨_, rfl⟩
      | install page => exact ⟨_, rfl⟩
  | fill a id page install f =>
    cases install with
    | false => exact ⟨_, rfl⟩
    | true => exact ⟨_, rfl⟩

theorem work_worked {disk : DiskManager} {wr : WriteResult} {o : Outcome α} (hk : sh.pins[k]? = some p)
    (hw : sh.work disk k wr = some o) :
    (∃ x result, o.shard = { sh.setStage k p (.drop result) with frames := sh.frames.set p.frame x }) ∧
      ∀ b, p.stage.guards b = 0 := by
  rw [work.eq_def, hk] at hw
  simp only at hw
  split_ifs at hw
  cases hs : p.stage with
  | handle r w => rw [hs] at hw; cases hw
  | drop result => rw [hs] at hw; cases hw
  | install page =>
    rw [hs] at hw
    injection hw with hw
    subst hw
    exact ⟨⟨_, _, rfl⟩, fun b => rfl⟩
  | flush =>
    rw [hs] at hw
    injection hw with hw
    subst hw
    exact ⟨⟨_, _, rfl⟩, fun b => rfl⟩

theorem guard_stage {g : Guard} {r : Shard α × Label α} (hg : sh.guard k g = some r) :
    ∃ p reads writing, sh.pins[k]? = some p ∧ p.stage = .handle reads writing := by
  rw [guard.eq_def] at hg
  cases hk : sh.pins[k]? with
  | none => rw [hk] at hg; cases hg
  | some p =>
    cases hs : p.stage with
    | install page => simp only [hk, hs] at hg; cases hg
    | flush => simp only [hk, hs] at hg; cases hg
    | drop result => simp only [hk, hs] at hg; cases hg
    | handle reads writing => exact ⟨p, reads, writing, rfl, hs⟩

theorem guard_lock {b : Bool} {r : Shard α × Label α} (hk : sh.pins[k]? = some p)
    (hg : sh.guard k (if b then .lockWrite else .lockRead) = some r) :
    ∃ stage frames, r.1 = { sh.setStage k p stage with frames := frames } ∧
      frames.length = sh.frames.length ∧ ¬ p.stage.Calls ∧
      ∀ c, stage.guards c = p.stage.guards c + if c = b then 1 else 0 := by
  obtain ⟨q, reads, writing, hq, hs⟩ := guard_stage hg
  rw [hk] at hq
  cases hq
  simp only [guard, hk, hs] at hg
  cases b with
  | false =>
    simp only [Bool.false_eq_true, if_false] at hg
    split_ifs at hg
    injection hg with hg
    subst hg
    refine ⟨.handle (reads + 1) writing, sh.frames, rfl, rfl, by rw [hs]; exact id, ?_⟩
    intro c
    cases c <;> simp [Stage.guards, hs]
  | true =>
    simp only [if_true] at hg
    split_ifs at hg with hun
    injection hg with hg
    subst hg
    -- Nobody holds the lock, so this handle does not either.
    have hfree := List.all_eq_true.mp hun p (List.mem_of_getElem? hk)
    simp only [hs, ne_eq, not_true_eq_false, decide_false, Bool.false_or, Bool.and_eq_true,
      Bool.not_eq_true'] at hfree
    refine ⟨.handle reads true, _, rfl, List.length_set, by rw [hs]; exact id, ?_⟩
    intro c
    cases c <;> simp [Stage.guards, hs, hfree.2]

theorem guard_unlock {b : Bool} {r : Shard α × Label α} (hk : sh.pins[k]? = some p)
    (hg : sh.guard k (if b then .unlockWrite else .unlockRead) = some r) :
    ∃ stage, r.1 = sh.setStage k p stage ∧ ¬ p.stage.Calls ∧
      ∀ c, p.stage.guards c = stage.guards c + if c = b then 1 else 0 := by
  obtain ⟨q, reads, writing, hq, hs⟩ := guard_stage hg
  rw [hk] at hq
  cases hq
  simp only [guard, hk, hs] at hg
  cases b with
  | false =>
    simp only [Bool.false_eq_true, if_false] at hg
    split_ifs at hg with hr
    injection hg with hg
    subst hg
    refine ⟨.handle (reads - 1) writing, rfl, by rw [hs]; exact id, ?_⟩
    intro c
    cases c <;> simp [Stage.guards, hs]
    omega
  | true =>
    simp only [if_true] at hg
    split_ifs at hg with hw
    injection hg with hg
    subst hg
    refine ⟨.handle reads false, rfl, by rw [hs]; exact id, ?_⟩
    intro c
    cases c <;> simp [Stage.guards, hs, hw]

theorem guard_read {r : Shard α × Label α} (hg : sh.guard k .read = some r) : r.1 = sh := by
  obtain ⟨p, reads, writing, hk, hs⟩ := guard_stage hg
  simp only [guard, hk, hs] at hg
  split_ifs at hg
  injection hg with hg
  rw [← hg]

theorem guard_write {page : Page} {r : Shard α × Label α} (hg : sh.guard k (.write page) = some r) :
    ∃ frames, r.1 = { sh with frames := frames } ∧ frames.length = sh.frames.length := by
  obtain ⟨p, reads, writing, hk, hs⟩ := guard_stage hg
  simp only [guard, hk, hs] at hg
  split_ifs at hg
  injection hg with hg
  rw [← hg]
  exact ⟨_, rfl, List.length_set⟩

theorem unpin_inv {r : Shard α × Label α} (hk : sh.pins[k]? = some p) (hu : sh.unpin k = some r) :
    r.1 = { sh with state := sh.state.unpin p.frame, pins := sh.pins.eraseIdx k } ∧ ¬ p.stage.Calls ∧
      ∀ b, p.stage.guards b = 0 := by
  rw [unpin.eq_def, hk] at hu
  simp only at hu
  split at hu
  · rename_i hs
    injection hu with hu
    rw [← hu, hs]
    exact ⟨rfl, id, fun b => by cases b <;> rfl⟩
  · rename_i hs
    injection hu with hu
    rw [← hu, hs]
    exact ⟨rfl, id, fun b => rfl⟩
  · cases hu

theorem Kept.keeps_resume (h : sh.Kept mine) {disk : DiskManager} {wr : WriteResult} {rd : Bool} {o : Outcome α}
    (hr : sh.resume disk wr rd = some o) : sh.Keeps mine o.shard := by
  cases hs : sh.held with
  | none =>
    rw [resume.eq_def, hs] at hr
    cases hr
  | some s => exact (resume_resumed hs hr).keeps h hs

theorem Kept.keeps_work (h : sh.Kept mine) {disk : DiskManager} {wr : WriteResult} {o : Outcome α}
    (hw : sh.work disk k wr = some o) : sh.Keeps mine o.shard := by
  cases hk : sh.pins[k]? with
  | none =>
    rw [work.eq_def, hk] at hw
    cases hw
  | some p =>
    obtain ⟨⟨x, result, ho⟩, -⟩ := work_worked hk hw
    rw [ho]
    exact h.setStage hk _ List.length_set

theorem Kept.keeps_guard (h : sh.Kept mine) {g : Guard} {r : Shard α × Label α} (hg : sh.guard k g = some r) :
    sh.Keeps mine r.1 := by
  obtain ⟨p, reads, writing, hk, -⟩ := guard_stage hg
  have hlock : ∀ b : Bool, g = (if b then .lockWrite else .lockRead) → sh.Keeps mine r.1 := by
    rintro b rfl
    obtain ⟨stage, frames, hr, hl, -⟩ := guard_lock hk hg
    rw [hr]
    exact h.setStage hk stage hl
  have hunlock : ∀ b : Bool, g = (if b then .unlockWrite else .unlockRead) → sh.Keeps mine r.1 := by
    rintro b rfl
    obtain ⟨stage, hr, -⟩ := guard_unlock hk hg
    rw [hr]
    exact h.setStage hk stage rfl
  cases g with
  | lockRead => exact hlock false rfl
  | lockWrite => exact hlock true rfl
  | unlockRead => exact hunlock false rfl
  | unlockWrite => exact hunlock true rfl
  | read =>
    rw [guard_read hg]
    exact h.frames rfl
  | write page =>
    obtain ⟨frames, hr, hl⟩ := guard_write hg
    rw [hr]
    exact h.frames hl

theorem Kept.keeps_unpin (h : sh.Kept mine) (hh : sh.held = none) {r : Shard α × Label α}
    (hu : sh.unpin k = some r) : sh.Keeps mine r.1 := by
  cases hk : sh.pins[k]? with
  | none =>
    rw [unpin.eq_def, hk] at hu
    cases hu
  | some p =>
    rw [(unpin_inv hk hu).1]
    exact h.unpin hh hk

end Shard

end OxenDB
