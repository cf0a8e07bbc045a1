import OxenDB.BufferPool.Sharding
import OxenDB.BufferPool.ShardSteps
import OxenDB.BufferPool.Views

namespace OxenDB

open Lib

variable {α : Type}

def Section.Sealed : Section α → Prop
  | .evict _ id (.install page) _ _ => page.Valid id
  | .evict _ _ .fetch _ _ => True
  | .fill _ id page _ _ => page.Valid id

def Stage.Sealed (id : PageId) : Stage → Prop
  | .install page => page.Valid id
  | _ => True

structure Label.Sealed (label : Label α) : Prop where
  read : ∀ owner id page, label.read = some (owner, id, page) → page.Valid id
  written : ∀ id page, label.written = some (id, page) → page.Valid id

structure Shard.Sealed (sh : Shard α) : Prop where
  cached : ∀ id frame, sh.cached id = some frame → frame.page.Valid id
  held : ∀ s, sh.held = some s → s.Sealed
  pins : ∀ q ∈ sh.pins, q.stage.Sealed q.pageId

theorem DiskManager.readPage_valid {d : DiskManager} {id : PageId} {rd : Bool} {page : Page}
    (h : d.readPage id rd = .ok page) : page.Valid id := by
  rw [readPage.eq_def] at h
  cases hc : d.checkDataPage id with
  | error e => rw [hc] at h; cases h
  | ok u =>
    simp only [hc] at h
    split_ifs at h
    cases hr : (readAt d.file.contents (fileOffset id).toNat pageSize).bind Page.ofBytes with
    | none => rw [hr] at h; cases h
    | some page' =>
      simp only [hr] at h
      cases hv : page'.verify id with
      | error e => rw [hv] at h; cases h
      | ok header =>
        rw [hv] at h
        injection h with h
        subst h
        exact ⟨header, hv⟩

theorem Frame.WriteBackSpec.valid {frame : Frame} {d : DiskManager} {id : PageId} {w : WroteBack}
    (h : frame.WriteBackSpec d id w) (hv : frame.page.Valid id) :
    w.frame.page.Valid id ∧ ∀ id' page, w.written = some (id', page) → page.Valid id' := by
  constructor
  · rcases h.page with hp | hp
    · rwa [hp]
    · rwa [hp, hv.seal_eq]
  · intro id' page hw
    obtain ⟨-, hu⟩ := h.written hw
    cases hu
    rwa [hv.seal_eq]

namespace Shard

variable {mine : PageId → Prop} {sh : Shard α} {k : ℕ}

theorem silent_sealed {label : Label α} (hr : label.read = none) (hw : label.written = none) : label.Sealed := by
  constructor
  · intro owner id page h
    rw [hr] at h
    cases h
  · intro id page h
    rw [hw] at h
    cases h

theorem sealed_update {cached : PageId → Option Frame} (h : ∀ id frame, cached id = some frame → frame.page.Valid id)
    {id : PageId} {x : Option Frame} (hx : ∀ frame, x = some frame → frame.page.Valid id) (id' : PageId)
    (frame : Frame) (hc : Function.update cached id x id' = some frame) : frame.page.Valid id' := by
  rcases eq_or_ne id' id with rfl | hne
  · rw [Function.update_self] at hc
    exact hx frame hc
  · rw [Function.update_of_ne hne] at hc
    exact h id' frame hc

theorem new_sealed (n : ℕ) : (new n : Shard α).Sealed where
  cached id frame h := by cases h
  held s h := by cases h
  pins q h := by cases h

theorem load_sealed (h : sh.Sealed) (disk : DiskManager) (owner : α) (id : PageId) (f : ℕ) (rd : Bool) :
    (sh.load disk owner id f rd).1.Sealed ∧ (sh.load disk owner id f rd).2.read = none ∧
      (sh.load disk owner id f rd).2.written = none := by
  rw [load]
  cases hr : disk.readPage id rd with
  | error e => exact ⟨⟨h.cached, by rintro s ⟨⟩, h.pins⟩, rfl, rfl⟩
  | ok page =>
    refine ⟨⟨h.cached, ?_, h.pins⟩, rfl, rfl⟩
    rintro s ⟨⟩
    exact DiskManager.readPage_valid hr

theorem Sealed.clock (h : sh.Sealed) {st : PoolState} (hst : sh.state.SameButClock st) :
    Shard.Sealed { sh with state := st } := by
  refine ⟨?_, h.held, h.pins⟩
  rw [cached_clock hst]
  exact h.cached

theorem Sealed.evict (h : sh.Sealed) {st : PoolState} (hst : sh.state.SameButClock st) {s : Section α}
    (hs : s.Sealed) : Shard.Sealed { sh with state := st, held := some s } := by
  refine ⟨(h.clock hst).cached, ?_, h.pins⟩
  rintro s' ⟨⟩
  exact hs

theorem Sealed.pin (h : sh.Sealed) {st : PoolState} {f : ℕ} (hst : (sh.state.pin f).SameButClock st) {q : Pin α}
    (hq : q.stage.Sealed q.pageId) : Shard.Sealed { sh with state := st, pins := q :: sh.pins } := by
  have hp : Shard.Sealed { sh with state := sh.state.pin f } := ⟨h.cached, h.held, h.pins⟩
  exact ⟨(hp.clock hst).cached, h.held, List.forall_mem_cons.mpr ⟨hq, h.pins⟩⟩

theorem fetchPage_sealed (h : sh.Sealed) (hk : sh.Kept mine) (hh : sh.held = none) (disk : DiskManager)
    (owner : α) (id : PageId) (rd : Bool) :
    (sh.fetchPage disk owner id rd).1.Sealed ∧ (sh.fetchPage disk owner id rd).2.Sealed := by
  rw [fetchPage]
  cases hf : sh.state.pageTable id with
  | some f => exact ⟨h.pin (PoolState.sameButClock_touch _ f) trivial, silent_sealed rfl rfl⟩
  | none =>
    have hspec := (hk.books_free hh).acquire sh.frames.length
    generalize sh.state.acquireFrame sh.frames.length = r at hspec ⊢
    obtain ⟨st, acquired⟩ := r
    cases hspec with
    | @free f rest hfree =>
      have hpop : Shard.Sealed { sh with state := { sh.state with freeFrames := rest } } :=
        ⟨h.cached, h.held, h.pins⟩
      obtain ⟨hs, hr, hw⟩ := load_sealed hpop disk owner id f rd
      exact ⟨hs, silent_sealed hr hw⟩
    | victim _ hst => exact ⟨h.evict hst trivial, silent_sealed rfl rfl⟩
    | exhausted hst => exact ⟨h.clock hst, silent_sealed rfl rfl⟩

theorem installPage_sealed (h : sh.Sealed) (hk : sh.Kept mine) (hh : sh.held = none) (owner : α) {id : PageId}
    {page : Page} (hv : page.Valid id) :
    (sh.installPage owner id page).1.Sealed ∧ (sh.installPage owner id page).2.Sealed := by
  rw [installPage]
  cases hf : sh.state.pageTable id with
  | some f => exact ⟨h.pin (PoolState.sameButClock_touch _ f) hv, silent_sealed rfl rfl⟩
  | none =>
    have hspec := (hk.books_free hh).acquire sh.frames.length
    generalize sh.state.acquireFrame sh.frames.length = r at hspec ⊢
    obtain ⟨st, acquired⟩ := r
    cases hspec with
    | @free f rest hfree =>
      refine ⟨⟨h.cached, ?_, h.pins⟩, silent_sealed rfl rfl⟩
      rintro s ⟨⟩
      exact hv
    | victim _ hst => exact ⟨h.evict hst hv, silent_sealed rfl rfl⟩
    | exhausted hst => exact ⟨h.clock hst, silent_sealed rfl rfl⟩

theorem flushPage_sealed (h : sh.Sealed) (owner : α) (id : PageId) :
    (sh.flushPage owner id).1.Sealed ∧ (sh.flushPage owner id).2.Sealed := by
  rw [flushPage]
  cases hf : sh.state.pageTable id with
  | some f => exact ⟨h.pin (.refl _) trivial, silent_sealed rfl rfl⟩
  | none => exact ⟨h, silent_sealed rfl rfl⟩

theorem resume_sealed (h : sh.Sealed) (hk : sh.Kept mine) {disk : DiskManager} {wr : WriteResult} {rd : Bool}
    {o : Outcome α} (hr : sh.resume disk wr rd = some o) : o.shard.Sealed ∧ o.label.Sealed := by
  rw [resume.eq_def] at hr
  cases hh : sh.held with
  | none => rw [hh] at hr; cases hr
  | some s =>
    have haim := hk.held s hh
    have hsealed := h.held s hh
    cases s with
    | evict owner id want victim oldId =>
      obtain ⟨-, -, hold, -⟩ := haim
      have hcached : sh.cached oldId = some (sh.frame victim) := by rw [cached, hold]; rfl
      obtain ⟨hv, hw⟩ := ((sh.frame victim).writeBack_spec disk oldId wr).valid (h.cached _ _ hcached)
      simp only [hh] at hr
      generalize (sh.frame victim).writeBack disk oldId wr = w at hr hv hw
      obtain ⟨frame, disk', written, result⟩ := w
      have hb := hk.books
      cases result with
      | error e =>
        injection hr with hr
        subst hr
        refine ⟨⟨?_, by rintro s ⟨⟩, h.pins⟩, by rintro _ _ _ ⟨⟩, hw⟩
        change ∀ id' frame', Shard.cached { sh with frames := sh.frames.set victim frame } id' = _ → _
        rw [cached_set hb hold]
        exact sealed_update h.cached (by rintro _ ⟨⟩; exact hv)
      | ok u =>
        have hun : ∀ id' frame', Shard.cached
            { sh with frames := sh.frames.set victim frame, state := sh.state.unmap oldId victim } id' =
              some frame' → frame'.page.Valid id' := by
          rw [cached_unmap hb hold]
          exact sealed_update h.cached (by rintro _ ⟨⟩)
        cases want with
        | fetch =>
          injection hr with hr
          subst hr
          have hsh : Shard.Sealed ⟨sh.frames.set victim frame, sh.state.unmap oldId victim,
              some (.evict owner id .fetch victim oldId), sh.pins⟩ := ⟨hun, by rintro s ⟨⟩; trivial, h.pins⟩
          obtain ⟨hs, hread, hwrit⟩ := load_sealed hsh disk' owner id victim rd
          exact ⟨hs, (silent_sealed hread hwrit).read, hw⟩
        | install page =>
          injection hr with hr
          subst hr
          refine ⟨⟨hun, ?_, h.pins⟩, by rintro _ _ _ ⟨⟩, hw⟩
          rintro s ⟨⟩
          exact hsealed
    | fill owner id page install f =>
      have hmap : ∀ x : Frame, x.page = page → ∀ id' frame', Shard.cached
          { sh with frames := sh.frames.set f x, state := sh.state.map id f } id' = some frame' →
            frame'.page.Valid id' := by
        intro x hx
        rw [cached_map hk.books id haim.2.2]
        refine sealed_update h.cached ?_
        rintro _ ⟨⟩
        rw [hx]
        exact hsealed
      simp only [hh] at hr
      cases install with
      | false =>
        injection hr with hr
        subst hr
        exact ⟨⟨hmap _ rfl, by rintro s ⟨⟩, List.forall_mem_cons.mpr ⟨trivial, h.pins⟩⟩, silent_sealed rfl rfl⟩
      | true =>
        injection hr with hr
        subst hr
        exact ⟨⟨hmap _ rfl, by rintro s ⟨⟩, h.pins⟩, silent_sealed rfl rfl⟩

theorem Sealed.setStage (h : sh.Sealed) {q : Pin α} (stage : Stage) (hs : stage.Sealed q.pageId) :
    (sh.setStage k q stage).Sealed := by
  refine ⟨h.cached, h.held, ?_⟩
  intro r hr
  rcases List.mem_or_eq_of_mem_set hr with hr | rfl
  · exact h.pins r hr
  · exact hs

theorem Kept.cached_pin (hk : sh.Kept mine) {q : Pin α} (hq : sh.pins[k]? = some q) :
    sh.state.pageTable q.pageId = some q.frame :=
  (hk.books.mapped _ _).mpr (hk.books.pinned _ (List.mem_map_of_mem (List.mem_of_getElem? hq)))

theorem work_sealed (h : sh.Sealed) (hk : sh.Kept mine) {disk : DiskManager} {wr : WriteResult} {o : Outcome α}
    (hw : sh.work disk k wr = some o) : o.shard.Sealed ∧ o.label.Sealed := by
  rw [work.eq_def] at hw
  cases hq : sh.pins[k]? with
  | none => rw [hq] at hw; cases hw
  | some q =>
    have hmap := hk.cached_pin hq
    have hcached : sh.cached q.pageId = some (sh.frame q.frame) := by rw [cached, hmap]; rfl
    have hset : ∀ (x : Frame) (result : Except Error Unit), x.page.Valid q.pageId →
        Shard.Sealed { sh.setStage k q (.drop result) with frames := sh.frames.set q.frame x } := by
      intro x result hx
      refine ⟨?_, h.held, (h.setStage (.drop result) trivial).pins⟩
      change ∀ id' frame', Shard.cached { sh with frames := sh.frames.set q.frame x } id' = _ → _
      rw [cached_set hk.books hmap]
      refine sealed_update h.cached ?_
      rintro _ ⟨⟩
      exact hx
    simp only [hq] at hw
    split_ifs at hw
    have hstage := h.pins q (List.mem_of_getElem? hq)
    cases hs : q.stage with
    | handle reads writing => rw [hs] at hw; cases hw
    | drop result => rw [hs] at hw; cases hw
    | install page =>
      rw [hs] at hw hstage
      injection hw with hw
      subst hw
      exact ⟨hset _ _ hstage, silent_sealed rfl rfl⟩
    | flush =>
      rw [hs] at hw
      injection hw with hw
      subst hw
      obtain ⟨hv, hwr⟩ := ((sh.frame q.frame).writeBack_spec disk q.pageId wr).valid (h.cached _ _ hcached)
      exact ⟨hset _ _ hv, by rintro _ _ _ ⟨⟩, hwr⟩

theorem guard_sealed (h : sh.Sealed) (hk : sh.Kept mine) {g : Guard} (hg : ¬ g.Edits) {r : Shard α × Label α}
    (hr : sh.guard k g = some r) : r.1.Sealed ∧ r.2.Sealed := by
  obtain ⟨q, reads, writing, hq, hs⟩ := guard_stage hr
  rw [guard.eq_def] at hr
  cases g with
  | lockRead =>
    simp only [hq, hs] at hr
    split_ifs at hr
    injection hr with hr
    subst hr
    exact ⟨h.setStage _ trivial, silent_sealed rfl rfl⟩
  | read =>
    simp only [hq, hs] at hr
    split_ifs at hr
    injection hr with hr
    subst hr
    refine ⟨h, ?_, by rintro _ _ ⟨⟩⟩
    rintro _ _ _ ⟨⟩
    apply h.cached
    rw [cached, hk.cached_pin hq]
    rfl
  | unlockRead =>
    simp only [hq, hs] at hr
    split_ifs at hr
    injection hr with hr
    subst hr
    exact ⟨h.setStage _ trivial, silent_sealed rfl rfl⟩
  | lockWrite => exact absurd trivial hg
  | write page => exact absurd trivial hg
  | unlockWrite => exact absurd trivial hg

theorem unpin_sealed (h : sh.Sealed) {r : Shard α × Label α} (hr : sh.unpin k = some r) :
    r.1.Sealed ∧ r.2.Sealed := by
  have hs : ∀ st : PoolState, st.pageTable = sh.state.pageTable →
      Shard.Sealed { sh with state := st, pins := sh.pins.eraseIdx k } := by
    intro st hst
    refine ⟨?_, h.held, fun q hq => h.pins q (List.mem_of_mem_eraseIdx hq)⟩
    intro id frame hc
    rw [cached, hst] at hc
    exact h.cached id frame hc
  rw [unpin.eq_def] at hr
  cases hq : sh.pins[k]? with
  | none => rw [hq] at hr; cases hr
  | some q =>
    simp only [hq] at hr
    split at hr
    · injection hr with hr
      subst hr
      exact ⟨hs _ rfl, silent_sealed rfl rfl⟩
    · injection hr with hr
      subst hr
      exact ⟨hs _ rfl, silent_sealed rfl rfl⟩
    · cases hr

end Shard

namespace BufferPool

def Sealed (p : BufferPool α) : Prop := ∀ sh ∈ p.shards, sh.Sealed

theorem new_sealed {disk : DiskManager} {capacity : ℕ} {p : BufferPool α} (h : new disk capacity = .ok p) :
    p.Sealed := by
  rw [new] at h
  split_ifs at h
  injection h with h
  subst h
  intro sh hsh
  obtain ⟨i, -, rfl⟩ := List.mem_map.mp hsh
  exact Shard.new_sealed _

variable {p p' : BufferPool α}

theorem Sealed.put (h : p.Sealed) {i : ℕ} {sh : Shard α} (hs : sh.Sealed) (disk : DiskManager) :
    Sealed ⟨p.shards.set i sh, disk⟩ := by
  intro sh' hsh'
  rcases List.mem_or_eq_of_mem_set hsh' with hsh' | rfl
  · exact h sh' hsh'
  · exact hs

theorem Sealed.step [DecidableEq α] {a : Action α} {label : Label α} (h : p.Sealed) (hk : p.Kept)
    (ha : ¬ a.Edits) (hi : ∀ owner id page, a = .install owner id page → page.Valid id)
    (hs : BufferPool.step p a = some (p', label)) : p'.Sealed ∧ label.Sealed := by
  cases a with
  | fetch owner id rd =>
    simp only [BufferPool.step] at hs
    split_ifs at hs
    obtain ⟨sh, hl, hs⟩ := Option.map_eq_some_iff.mp hs
    obtain ⟨hsh, hh⟩ := lockState_some hl
    cases hs
    obtain ⟨hsh', hlabel⟩ := Shard.fetchPage_sealed (h sh (List.mem_of_getElem? hsh)) (hk.shards _ _ hsh) hh
      p.disk owner id rd
    exact ⟨h.put hsh' _, hlabel⟩
  | install owner id page =>
    simp only [BufferPool.step] at hs
    split_ifs at hs
    · cases hs
      exact ⟨h, Shard.silent_sealed rfl rfl⟩
    · obtain ⟨sh, hl, hs⟩ := Option.map_eq_some_iff.mp hs
      obtain ⟨hsh, hh⟩ := lockState_some hl
      cases hs
      obtain ⟨hsh', hlabel⟩ := Shard.installPage_sealed (h sh (List.mem_of_getElem? hsh)) (hk.shards _ _ hsh) hh
        owner (hi owner id page rfl)
      exact ⟨h.put hsh' _, hlabel⟩
  | flush owner id =>
    simp only [BufferPool.step] at hs
    split_ifs at hs
    obtain ⟨sh, hl, hs⟩ := Option.map_eq_some_iff.mp hs
    obtain ⟨hsh, hh⟩ := lockState_some hl
    cases hs
    obtain ⟨hsh', hlabel⟩ := Shard.flushPage_sealed (h sh (List.mem_of_getElem? hsh)) owner id
    exact ⟨h.put hsh' _, hlabel⟩
  | resume i wr rd =>
    obtain ⟨o, hb, ho⟩ := Option.map_eq_some_iff.mp hs
    obtain ⟨sh, hsh, hr⟩ := Option.bind_eq_some_iff.mp hb
    cases ho
    obtain ⟨hsh', hlabel⟩ := Shard.resume_sealed (h sh (List.mem_of_getElem? hsh)) (hk.shards _ _ hsh) hr
    exact ⟨h.put hsh' _, hlabel⟩
  | work i k wr =>
    obtain ⟨o, hb, ho⟩ := Option.map_eq_some_iff.mp hs
    obtain ⟨sh, hsh, hw⟩ := Option.bind_eq_some_iff.mp hb
    cases ho
    obtain ⟨hsh', hlabel⟩ := Shard.work_sealed (h sh (List.mem_of_getElem? hsh)) (hk.shards _ _ hsh) hw
    exact ⟨h.put hsh' _, hlabel⟩
  | guard i k g =>
    obtain ⟨r, hb, hr⟩ := Option.map_eq_some_iff.mp hs
    obtain ⟨sh, hsh, hg⟩ := Option.bind_eq_some_iff.mp hb
    cases hr
    obtain ⟨hsh', hlabel⟩ := Shard.guard_sealed (h sh (List.mem_of_getElem? hsh)) (hk.shards _ _ hsh) ha hg
    exact ⟨h.put hsh' _, hlabel⟩
  | unpin i k =>
    obtain ⟨r, hb, hr⟩ := Option.map_eq_some_iff.mp hs
    obtain ⟨sh, hl, hu⟩ := Option.bind_eq_some_iff.mp hb
    obtain ⟨hsh, -⟩ := lockState_some hl
    cases hr
    obtain ⟨hsh', hlabel⟩ := Shard.unpin_sealed (h sh (List.mem_of_getElem? hsh)) hu
    exact ⟨h.put hsh' _, hlabel⟩
  | sync ev =>
    cases hs
    exact ⟨h, Shard.silent_sealed rfl rfl⟩

end BufferPool

end OxenDB
