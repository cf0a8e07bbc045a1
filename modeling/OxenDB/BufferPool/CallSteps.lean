import OxenDB.BufferPool.Calls

namespace OxenDB

variable {α : Type} {mine : PageId → Prop} {disk disk' : DiskManager} {sh : Shard α} {c c' : Cache}
  {wr : WriteResult} {rd : Bool} {edits : Prop} {k : ℕ} {p : Pin α}

structure Cache.Sees (c : Cache) (mine : PageId → Prop) (disk : DiskManager) (sh : Shard α) : Prop where
  disk : c.disk = disk
  frame : ∀ id, mine id → c.frame id = sh.cached id

namespace Shard

def others (sh : Shard α) (k : ℕ) : List (Activity α) :=
  sh.held.toList.map Section.activity ++ (sh.pins.eraseIdx k).map Pin.activity

theorem activities_free (hh : sh.held = none) : sh.activities = sh.pins.map Pin.activity := by
  rw [activities, hh]
  rfl

theorem activities_cons (hh : sh.held = none) (st : PoolState) (q : Pin α) :
    Shard.activities { sh with state := st, pins := q :: sh.pins } = q.activity :: sh.activities := by
  rw [activities, activities, hh]
  rfl

theorem activities_held {s : Section α} (hh : sh.held = some s) :
    sh.activities = s.activity :: sh.pins.map Pin.activity := by
  rw [activities, hh]
  rfl

theorem activities_pin (hk : sh.pins[k]? = some p) : sh.activities.Perm (p.activity :: sh.others k) := by
  obtain ⟨hlt, rfl⟩ := List.getElem?_eq_some_iff.mp hk
  have hperm := (List.getElem_cons_eraseIdx_perm hlt).symm.map Pin.activity
  exact (hperm.append_left _).trans List.perm_middle

theorem activities_setStage (hk : sh.pins[k]? = some p) (stage : Stage) :
    (sh.setStage k p stage).activities.Perm (⟨p.owner, p.pageId, stage.task⟩ :: sh.others k) := by
  obtain ⟨hlt, -⟩ := List.getElem?_eq_some_iff.mp hk
  have hperm := (List.set_perm_cons_eraseIdx hlt { p with stage := stage }).map Pin.activity
  exact (hperm.append_left _).trans List.perm_middle

theorem load_calls (sh : Shard α) (disk : DiskManager) (owner : α) (id : PageId) (f : ℕ) (rd : Bool) :
    (sh.load disk owner id f rd).2.Quiet ∧
      ((∃ e, disk.readPage id rd = .error e ∧
          (sh.load disk owner id f rd).2.returned = some (owner, id, .error e) ∧
          (sh.load disk owner id f rd).1.activities = sh.pins.map Pin.activity) ∨
        ((sh.load disk owner id f rd).2.returned = none ∧
          (sh.load disk owner id f rd).1.activities = ⟨owner, id, .fetch⟩ :: sh.pins.map Pin.activity)) := by
  rw [load]
  cases hr : disk.readPage id rd with
  | error e => exact ⟨⟨rfl, rfl, rfl⟩, .inl ⟨e, rfl, rfl, rfl⟩⟩
  | ok page => exact ⟨⟨rfl, rfl, rfl⟩, .inr ⟨rfl, rfl⟩⟩

theorem fetchPage_calls (h : Inv mine disk sh) (hh : sh.held = none) (hc : c.Sees mine disk sh)
    (hc' : c'.disk = disk) (owner : α) {id : PageId} (hm : mine id) :
    CallStep c c' wr rd sh.AllPinned edits (some ⟨owner, id, .fetch⟩) (sh.fetchPage disk owner id rd).2
      sh.activities (sh.fetchPage disk owner id rd).1.activities := by
  have hacts := activities_free hh
  rw [fetchPage]
  cases hf : sh.state.pageTable id with
  | some f =>
    exact .start ⟨rfl, rfl, rfl⟩ (.inr ⟨rfl, rfl⟩) (.of_eq (activities_cons hh _ _))
  | none =>
    have hspec := (h.books_free hh).acquire sh.frames.length
    generalize sh.state.acquireFrame sh.frames.length = r at hspec ⊢
    obtain ⟨st, a⟩ := r
    cases hspec with
    | @free f rest hfree =>
      obtain ⟨hq, ⟨e, he, hr, ha⟩ | ⟨hr, ha⟩⟩ := load_calls
        { sh with state := { sh.state with freeFrames := rest } } disk owner id f rd
      · refine .refuse hq trivial hr (.read rfl ?_ (by rw [hc']; exact he)) (.of_eq (ha.trans hacts.symm))
        rw [hc.frame id hm, cached, hf]
        rfl
      · refine .start hq (.inl hr) ?_
        rw [hacts, ha]
    | victim _ hst hfp hp =>
      refine .start ⟨rfl, rfl, rfl⟩ (.inl rfl) ?_
      rw [hacts]
      exact List.Perm.refl _
    | exhausted hst hall =>
      refine .refuse ⟨rfl, rfl, rfl⟩ trivial rfl (.exhausted _ ?_) (List.Perm.refl _)
      rw [AllPinned, ← h.books.framePages]
      exact hall

theorem installPage_calls (h : Inv mine disk sh) (hh : sh.held = none) (owner : α) (id : PageId)
    (page : Page) :
    CallStep c c' wr rd sh.AllPinned edits (some ⟨owner, id, .install page⟩) (sh.installPage owner id page).2
      sh.activities (sh.installPage owner id page).1.activities := by
  have hacts := activities_free hh
  rw [installPage]
  cases hf : sh.state.pageTable id with
  | some f =>
    exact .start ⟨rfl, rfl, rfl⟩ (.inl rfl) (.of_eq (activities_cons hh _ _))
  | none =>
    have hspec := (h.books_free hh).acquire sh.frames.length
    generalize sh.state.acquireFrame sh.frames.length = r at hspec ⊢
    obtain ⟨st, a⟩ := r
    cases hspec with
    | free hfree =>
      refine .start ⟨rfl, rfl, rfl⟩ (.inl rfl) ?_
      rw [hacts]
      exact List.Perm.refl _
    | victim _ hst hfp hp =>
      refine .start ⟨rfl, rfl, rfl⟩ (.inl rfl) ?_
      rw [hacts]
      exact List.Perm.refl _
    | exhausted hst hall =>
      refine .refuse ⟨rfl, rfl, rfl⟩ trivial rfl (.exhausted _ ?_) (List.Perm.refl _)
      rw [AllPinned, ← h.books.framePages]
      exact hall

theorem flushPage_calls (hh : sh.held = none) (hc : c.Sees mine disk sh) (owner : α)
    {id : PageId} (hm : mine id) :
    CallStep c c' wr rd sh.AllPinned edits (some ⟨owner, id, .flush⟩) (sh.flushPage owner id).2
      sh.activities (sh.flushPage owner id).1.activities := by
  have hacts := activities_free hh
  rw [flushPage]
  cases hf : sh.state.pageTable id with
  | none =>
    refine .nothing ⟨rfl, rfl, rfl⟩ rfl ?_ rfl (List.Perm.refl _)
    rw [hc.frame id hm, cached, hf]
    rfl
  | some f =>
    exact .start ⟨rfl, rfl, rfl⟩ (.inl rfl) (.of_eq (activities_cons hh _ _))

theorem resume_calls (h : Inv mine disk sh) (hc : c.Sees mine disk sh) {o : Outcome α}
    (hr : sh.resume disk wr rd = some o) (hc' : c'.disk = o.disk) :
    CallStep c c' wr rd False edits none o.label sh.activities o.shard.activities := by
  rw [resume.eq_def] at hr
  cases hh : sh.held with
  | none => rw [hh] at hr; cases hr
  | some s =>
    have hfit := h.held s hh
    have hacts := activities_held hh
    cases s with
    | evict owner id want victim oldId =>
      obtain ⟨hmine, hnew, hold, -⟩ := hfit
      have hframe : c.frame oldId = some (sh.frame victim) := by
        rw [hc.frame oldId (h.books.mine _ _ hold), cached, hold]
        rfl
      have hopen : want.task.Opening := by cases want <;> trivial
      simp only [hh] at hr
      have hwb : ∀ e, ((sh.frame victim).writeBack disk oldId wr).result = .error e →
          Reason c c' wr rd False ⟨owner, id, want.task⟩ e := by
        intro e he
        rw [← hc.disk] at he
        exact .writeBack hframe he
      generalize (sh.frame victim).writeBack disk oldId wr = w at hr hwb
      obtain ⟨frame, disk', written, result⟩ := w
      cases result with
      | error e =>
        injection hr with hr
        subst hr
        exact .fail (x := ⟨owner, id, want.task⟩) ⟨rfl, rfl, rfl⟩ hopen rfl (hwb e rfl)
          (.of_eq hacts) (List.Perm.refl _)
      | ok u =>
        cases want with
        | fetch =>
          injection hr with hr
          subst hr
          obtain ⟨hq, ⟨e, he, hr, ha⟩ | ⟨hr, ha⟩⟩ := load_calls
            ⟨sh.frames.set victim frame, sh.state.unmap oldId victim,
              some (.evict owner id .fetch victim oldId), sh.pins⟩ disk' owner id victim rd
          · refine .fail (x := ⟨owner, id, .fetch⟩) ⟨hq.update, hq.marked, hq.read⟩ trivial hr
              (.read rfl ?_ (by rw [hc']; exact he)) (.of_eq hacts) (.of_eq ha)
            rw [hc.frame id hmine, cached, hnew]
            rfl
          · exact .resume (x := ⟨owner, id, .fetch⟩) ⟨hq.update, hq.marked, hq.read⟩ trivial
              (.inl hr) (.of_eq hacts) (.of_eq ha)
        | install page =>
          injection hr with hr
          subst hr
          exact .resume (x := ⟨owner, id, .install page⟩) ⟨rfl, rfl, rfl⟩ trivial (.inl rfl)
            (.of_eq hacts) (List.Perm.refl _)
    | fill owner id page install f =>
      simp only [hh] at hr
      cases install with
      | false =>
        injection hr with hr
        subst hr
        exact .resume (x := ⟨owner, id, .fetch⟩) ⟨rfl, rfl, rfl⟩ trivial (.inr ⟨rfl, rfl⟩)
          (.of_eq hacts) (List.Perm.refl _)
      | true =>
        injection hr with hr
        subst hr
        exact .installed (x := ⟨owner, id, .install page⟩) rfl rfl rfl rfl rfl (.of_eq hacts)
          (List.Perm.refl _)

theorem work_calls (h : Inv mine disk sh) (hc : c.Sees mine disk sh) {o : Outcome α}
    (hw : sh.work disk k wr = some o) (hc' : c'.Sees mine o.disk o.shard) :
    CallStep c c' wr rd False edits none o.label sh.activities o.shard.activities := by
  rw [work.eq_def] at hw
  cases hk : sh.pins[k]? with
  | none => rw [hk] at hw; cases hw
  | some p =>
    have hmap := h.mapped_of_pin (List.mem_of_getElem? hk)
    have hmine := h.books.mine _ _ hmap
    have hacts := activities_pin hk
    simp only [hk] at hw
    split_ifs at hw with hun
    cases hs : p.stage with
    | handle r w => rw [hs] at hw; cases hw
    | drop result => rw [hs] at hw; cases hw
    | install page =>
      rw [Pin.activity, hs] at hacts
      rw [hs] at hw
      injection hw with hw
      subst hw
      exact .replaced (x := ⟨p.owner, p.pageId, .install page⟩) rfl rfl rfl rfl rfl hacts
        (activities_setStage hk _)
    | flush =>
      rw [Pin.activity, hs] at hacts
      rw [hs] at hw
      injection hw with hw
      subst hw
      have hframe : c.frame p.pageId = some (sh.frame p.frame) := by
        rw [hc.frame _ hmine, cached, hmap]
        rfl
      have hframe' : c'.frame p.pageId = some ((sh.frame p.frame).writeBack c.disk p.pageId wr).frame := by
        rw [hc'.frame _ hmine, hc.disk]
        change Shard.cached { sh with frames := sh.frames.set p.frame _ } p.pageId = _
        rw [cached_set h.books hmap, Function.update_self]
      rw [← hc.disk]
      exact .flushed (x := ⟨p.owner, p.pageId, .flush⟩) ⟨rfl, rfl, rfl⟩ rfl rfl hframe hframe' hacts
        (activities_setStage hk _)

theorem guard_calls (h : Inv mine disk sh) (hc : c.Sees mine disk sh) {g : Guard}
    {r : Shard α × Label α} (hg : sh.guard k g = some r) :
    CallStep c c' wr rd False g.Edits none r.2 sh.activities r.1.activities := by
  rw [guard.eq_def] at hg
  cases hk : sh.pins[k]? with
  | none => rw [hk] at hg; cases hg
  | some p =>
    have hmap := h.mapped_of_pin (List.mem_of_getElem? hk)
    have hframe : c.frame p.pageId = some (sh.frame p.frame) := by
      rw [hc.frame _ (h.books.mine _ _ hmap), cached, hmap]
      rfl
    have hacts := activities_pin hk
    cases hs : p.stage with
    | install page => simp only [hk, hs] at hg; cases hg
    | flush => simp only [hk, hs] at hg; cases hg
    | drop result => simp only [hk, hs] at hg; cases hg
    | handle reads writing =>
      rw [Pin.activity, hs] at hacts
      simp only [hk, hs] at hg
      cases g with
      | read =>
        simp only at hg
        split_ifs at hg
        injection hg with hg
        subst hg
        refine .guarded (x := ⟨p.owner, p.pageId, .fetch⟩) rfl rfl hframe ?_ (fun _ => ⟨rfl, rfl⟩) hacts hacts
        rintro u ⟨⟩
        rfl
      | write page =>
        simp only at hg
        split_ifs at hg
        injection hg with hg
        subst hg
        exact .guarded (x := ⟨p.owner, p.pageId, .fetch⟩) rfl rfl hframe (by rintro u ⟨⟩)
          (fun hn => absurd trivial hn) hacts hacts
      | lockWrite =>
        simp only at hg
        split_ifs at hg
        injection hg with hg
        subst hg
        exact .guarded (x := ⟨p.owner, p.pageId, .fetch⟩) rfl rfl hframe (by rintro u ⟨⟩)
          (fun hn => absurd trivial hn) hacts (activities_setStage hk _)
      | _ =>
        simp only at hg
        split_ifs at hg
        injection hg with hg
        subst hg
        exact .guarded (x := ⟨p.owner, p.pageId, .fetch⟩) rfl rfl hframe (by rintro u ⟨⟩)
          (fun _ => ⟨rfl, rfl⟩) hacts (activities_setStage hk _)

theorem unpin_calls {r : Shard α × Label α} (hu : sh.unpin k = some r) :
    CallStep c c' wr rd False edits none r.2 sh.activities r.1.activities := by
  rw [Shard.unpin.eq_def] at hu
  cases hk : sh.pins[k]? with
  | none => rw [hk] at hu; cases hu
  | some p =>
    have hacts := activities_pin hk
    simp only [hk] at hu
    split at hu
    · next hs =>
      rw [Pin.activity, hs] at hacts
      injection hu with hu
      subst hu
      exact .release (x := ⟨p.owner, p.pageId, .fetch⟩) ⟨rfl, rfl, rfl⟩ rfl rfl hacts (List.Perm.refl _)
    · next result hs =>
      rw [Pin.activity, hs] at hacts
      injection hu with hu
      subst hu
      exact .return (x := ⟨p.owner, p.pageId, .drop result⟩) ⟨rfl, rfl, rfl⟩ rfl rfl hacts
        (List.Perm.refl _)
    · cases hu

end Shard

end OxenDB
