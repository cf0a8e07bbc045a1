import OxenDB.BufferPool.Invariant

namespace OxenDB.Shard

variable {α : Type} {mine : PageId → Prop} {disk : DiskManager} {sh sh' : Shard α}

theorem Opened.steps {a : α} {id : PageId} {stage : Stage} {label : Label α} (ho : Opened sh a id stage sh')
    (h : Inv mine disk sh) (hh : sh.held = none) (hm : mine id) (hstage : ∀ r, stage ≠ .handle r true)
    (hloads : ∀ s, sh'.held = some s → s.Loads disk) (hlabel : label.toChange = { }) :
    Steps mine disk sh ⟨sh', disk, label⟩ := by
  refine ⟨⟨(ho.keeps h.toKept hh hm).kept, ho.keeps_writers hstage h.writers, hloads⟩, ?_⟩
  change Cache.Step mine _ label.toChange ⟨sh'.cached, disk⟩
  rw [ho.cached, hlabel]
  exact .quiet _

theorem load_label (sh : Shard α) (disk : DiskManager) (owner : α) (id : PageId) (f : ℕ) (rd : Bool) :
    (sh.load disk owner id f rd).2.toChange = { } := by
  rw [load]
  cases disk.readPage id rd <;> rfl

theorem load_loads (sh : Shard α) (owner : α) (id : PageId) (f : ℕ) (rd : Bool)
    (hbound : disk.pageCount.toNat ≤ 2 ^ 52) :
    ∀ s, (sh.load disk owner id f rd).1.held = some s → s.Loads disk := by
  rw [load]
  cases hr : disk.readPage id rd with
  | error e => rintro s ⟨⟩
  | ok page =>
    rintro s ⟨⟩
    exact (DiskManager.readPage_ok hbound hr).2

theorem fetchPage_steps (h : Inv mine disk sh) (hh : sh.held = none)
    (hbound : disk.pageCount.toNat ≤ 2 ^ 52) (owner : α) {id : PageId} (hm : mine id) (rd : Bool) :
    Steps mine disk sh ⟨(sh.fetchPage disk owner id rd).1, disk, (sh.fetchPage disk owner id rd).2⟩ := by
  refine (fetchPage_opened h.toKept hh disk owner id rd).steps h hh hm (by rintro r ⟨⟩) ?_ ?_
  · rw [fetchPage]
    cases sh.state.pageTable id with
    | some f =>
      intro s hs
      cases hh.symm.trans hs
    | none =>
      rcases sh.state.acquireFrame sh.frames.length with ⟨st, _ | _ | _ | _⟩
      · exact load_loads _ _ _ _ _ hbound
      · rintro s ⟨⟩
        trivial
      · intro s hs
        cases hh.symm.trans hs
      · intro s hs
        cases hh.symm.trans hs
  · rw [fetchPage]
    cases sh.state.pageTable id with
    | some f => rfl
    | none =>
      rcases sh.state.acquireFrame sh.frames.length with ⟨st, _ | _ | _ | _⟩
      · exact load_label ..
      · rfl
      · rfl
      · rfl

theorem installPage_steps (h : Inv mine disk sh) (hh : sh.held = none) (owner : α) {id : PageId}
    (hm : mine id) (page : Page) :
    Steps mine disk sh ⟨(sh.installPage owner id page).1, disk, (sh.installPage owner id page).2⟩ := by
  refine (installPage_opened h.toKept hh owner id page).steps h hh hm (by rintro r ⟨⟩) ?_ ?_
  · rw [installPage]
    cases sh.state.pageTable id with
    | some f =>
      intro s hs
      cases hh.symm.trans hs
    | none =>
      rcases sh.state.acquireFrame sh.frames.length with ⟨st, _ | _ | _ | _⟩
      · rintro s ⟨⟩
        trivial
      · rintro s ⟨⟩
        trivial
      · intro s hs
        cases hh.symm.trans hs
      · intro s hs
        cases hh.symm.trans hs
  · rw [installPage]
    cases sh.state.pageTable id with
    | some f => rfl
    | none => rcases sh.state.acquireFrame sh.frames.length with ⟨st, _ | _ | _ | _⟩ <;> rfl

theorem flushPage_steps (h : Inv mine disk sh) (hh : sh.held = none) (owner : α) {id : PageId} (hm : mine id) :
    Steps mine disk sh ⟨(sh.flushPage owner id).1, disk, (sh.flushPage owner id).2⟩ := by
  refine (flushPage_opened owner id).steps h hh hm (by rintro r ⟨⟩) ?_ ?_
  · rw [flushPage]
    cases sh.state.pageTable id <;>
    · intro s hs
      cases hh.symm.trans hs
  · rw [flushPage]
    cases sh.state.pageTable id <;> rfl

theorem resume_loads (hbound : disk.pageCount.toNat ≤ 2 ^ 52) {wr : WriteResult} {rd : Bool} {o : Outcome α}
    (hr : sh.resume disk wr rd = some o) {s : Section α} (hs : sh.held = some s) :
    ∀ s', o.shard.held = some s' → s'.Loads o.disk := by
  rw [resume.eq_def, hs] at hr
  cases s with
  | evict owner id want victim oldId =>
    have hcount := ((sh.frame victim).writeBack_spec disk oldId wr).pageCount
    simp only at hr
    generalize (sh.frame victim).writeBack disk oldId wr = w at hr hcount
    obtain ⟨frame, disk', written, result⟩ := w
    cases result with
    | error e =>
      cases hr
      rintro s' ⟨⟩
    | ok u =>
      cases want with
      | fetch =>
        cases hr
        exact load_loads _ _ _ _ _ (by rw [hcount]; exact hbound)
      | install page =>
        cases hr
        rintro s' ⟨⟩
        trivial
  | fill owner id page install f =>
    cases install with
    | false =>
      cases hr
      rintro s' ⟨⟩
    | true =>
      cases hr
      rintro s' ⟨⟩

theorem resume_evict_cache (h : Inv mine disk sh) {wr : WriteResult} {rd : Bool} {o : Outcome α}
    (hr : sh.resume disk wr rd = some o) {owner : α} {id oldId : PageId} {want : Want} {victim : ℕ}
    (hs : sh.held = some (.evict owner id want victim oldId)) :
    Cache.Step mine ⟨sh.cached, disk⟩ o.label.toChange ⟨o.shard.cached, o.disk⟩ := by
  rw [resume.eq_def] at hr
  obtain ⟨-, -, hold, -⟩ := h.held _ hs
  have hmine := h.books.mine _ _ hold
  have hcached : sh.cached oldId = some (sh.frame victim) := by rw [cached, hold]; rfl
  have hwb := Cache.Step.writeBack (c := ⟨sh.cached, disk⟩) wr hmine hcached
  have hev := Cache.Step.evict (c := ⟨sh.cached, disk⟩) wr hmine hcached
  simp only [hs] at hr
  generalize (sh.frame victim).writeBack disk oldId wr = w at *
  obtain ⟨frame, disk', written, result⟩ := w
  cases result with
  | error e =>
    cases hr
    change Cache.Step mine _ _ ⟨Shard.cached { sh with frames := sh.frames.set victim frame }, _⟩
    rw [cached_set h.books hold]
    exact hwb
  | ok u =>
    have hev' := hev rfl
    rw [← cached_unmap (x := frame) h.books hold] at hev'
    cases want with
    | fetch =>
      cases hr
      simp only [load]
      cases disk'.readPage id rd with
      | ok page => exact hev'
      | error e => exact hev'
    | install page =>
      cases hr
      exact hev'

theorem resume_fill_cache (h : Inv mine disk sh) {wr : WriteResult} {rd : Bool} {o : Outcome α}
    (hr : sh.resume disk wr rd = some o) {owner : α} {id : PageId} {page : Page} {install : Bool} {f : ℕ}
    (hs : sh.held = some (.fill owner id page install f)) :
    Cache.Step mine ⟨sh.cached, disk⟩ o.label.toChange ⟨o.shard.cached, o.disk⟩ := by
  rw [resume.eq_def] at hr
  obtain ⟨hm, hid, hf⟩ := h.held _ hs
  have hloads := h.loads _ hs
  have hcached : sh.cached id = none := by rw [cached, hid]; rfl
  simp only [hs] at hr
  cases install with
  | false =>
    cases hr
    change Cache.Step mine _ _ ⟨Shard.cached
      { sh with frames := sh.frames.set f _, state := sh.state.map id f }, _⟩
    rw [cached_map h.books id hf]
    exact .load hm hcached hloads.1 hloads.2
  | true =>
    cases hr
    change Cache.Step mine _ _ ⟨Shard.cached
      { sh with frames := sh.frames.set f _, state := sh.state.map id f }, _⟩
    rw [cached_map h.books id hf]
    exact .put page hm

theorem resume_steps (h : Inv mine disk sh) (hbound : disk.pageCount.toNat ≤ 2 ^ 52)
    {wr : WriteResult} {rd : Bool} {o : Outcome α} (hr : sh.resume disk wr rd = some o) :
    Steps mine disk sh o := by
  cases hs : sh.held with
  | none =>
    rw [resume.eq_def, hs] at hr
    cases hr
  | some s =>
    have hres := resume_resumed hs hr
    refine ⟨⟨(hres.keeps h.toKept hs).kept, hres.keeps_writers hs h.toKept h.writers,
      resume_loads hbound hr hs⟩, ?_⟩
    cases s with
    | evict owner id want victim oldId => exact resume_evict_cache h hr hs
    | fill owner id page install f => exact resume_fill_cache h hr hs

end OxenDB.Shard
