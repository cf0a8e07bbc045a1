import OxenDB.BufferPool.Refinement

namespace OxenDB

variable {α : Type}

structure Label.Quiet (label : Label α) : Prop where
  update : label.update = none
  marked : label.marked = none
  read : label.read = none

def Task.Opening : Task → Prop
  | .fetch => True
  | .install _ => True
  | _ => False

def Shard.Guard.Edits : Shard.Guard → Prop
  | .lockWrite => True
  | .write _ => True
  | .unlockWrite => True
  | _ => False

def Shard.AllPinned (sh : Shard α) : Prop := ∀ f < sh.frames.length, sh.state.pinCounts.getD f 0 > 0

inductive Reason (c c' : Cache) (wr : WriteResult) (rd : Bool) (exhausted : Prop) (x : Activity α) :
    Error → Prop
  | exhausted (msg : String) : exhausted → Reason c c' wr rd exhausted x (.resourceExhausted msg)
  | writeBack {id : PageId} {frame : Frame} {e : Error} : c.frame id = some frame →
      (frame.writeBack c.disk id wr).result = .error e → Reason c c' wr rd exhausted x e
  | read {e : Error} : x.task = .fetch → c.frame x.id = none → c'.disk.readPage x.id rd = .error e →
      Reason c c' wr rd exhausted x e
  | misnamed {page : Page} (e : Error) : x.task = .install page → page.pageId ≠ x.id →
      Reason c c' wr rd exhausted x e

inductive CallStep (c c' : Cache) (wr : WriteResult) (rd : Bool) (exhausted edits : Prop) :
    Option (Activity α) → Label α → List (Activity α) → List (Activity α) → Prop
  | idle {label : Label α} {acts acts' : List (Activity α)} : label.Quiet → label.returned = none →
      acts'.Perm acts → CallStep c c' wr rd exhausted edits none label acts acts'
  | start {x : Activity α} {label : Label α} {acts acts' : List (Activity α)} : label.Quiet →
      label.returned = none ∨ x.task = .fetch ∧ label.returned = some (x.owner, x.id, .ok ()) →
      acts'.Perm (x :: acts) → CallStep c c' wr rd exhausted edits (some x) label acts acts'
  | refuse {x : Activity α} {label : Label α} {acts acts' : List (Activity α)} {e : Error} :
      label.Quiet → x.task.Opening → label.returned = some (x.owner, x.id, .error e) →
      Reason c c' wr rd exhausted x e → acts'.Perm acts →
      CallStep c c' wr rd exhausted edits (some x) label acts acts'
  | nothing {x : Activity α} {label : Label α} {acts acts' : List (Activity α)} :
      label.Quiet → x.task = .flush → c.frame x.id = none →
      label.returned = some (x.owner, x.id, .ok ()) → acts'.Perm acts →
      CallStep c c' wr rd exhausted edits (some x) label acts acts'
  | resume {x : Activity α} {label : Label α} {acts acts' rest : List (Activity α)} : label.Quiet →
      x.task.Opening →
      label.returned = none ∨ x.task = .fetch ∧ label.returned = some (x.owner, x.id, .ok ()) →
      acts.Perm (x :: rest) → acts'.Perm (x :: rest) →
      CallStep c c' wr rd exhausted edits none label acts acts'
  | fail {x : Activity α} {label : Label α} {acts acts' rest : List (Activity α)} {e : Error} :
      label.Quiet → x.task.Opening → label.returned = some (x.owner, x.id, .error e) →
      Reason c c' wr rd exhausted x e → acts.Perm (x :: rest) → acts'.Perm rest →
      CallStep c c' wr rd exhausted edits none label acts acts'
  | installed {x : Activity α} {label : Label α} {acts acts' rest : List (Activity α)} {page : Page} :
      x.task = .install page → label.update = some (x.id, page) → label.marked = none →
      label.read = none → label.returned = some (x.owner, x.id, .ok ()) →
      acts.Perm (x :: rest) → acts'.Perm rest → CallStep c c' wr rd exhausted edits none label acts acts'
  | replaced {x : Activity α} {label : Label α} {acts acts' rest : List (Activity α)} {page : Page} :
      x.task = .install page → label.update = some (x.id, page) → label.marked = none →
      label.read = none → label.returned = none → acts.Perm (x :: rest) →
      acts'.Perm (⟨x.owner, x.id, .drop (.ok ())⟩ :: rest) →
      CallStep c c' wr rd exhausted edits none label acts acts'
  | flushed {x : Activity α} {label : Label α} {acts acts' rest : List (Activity α)} {frame : Frame} :
      label.Quiet → x.task = .flush → label.returned = none → c.frame x.id = some frame →
      c'.frame x.id = some (frame.writeBack c.disk x.id wr).frame → acts.Perm (x :: rest) →
      acts'.Perm (⟨x.owner, x.id, .drop (frame.writeBack c.disk x.id wr).result⟩ :: rest) →
      CallStep c c' wr rd exhausted edits none label acts acts'
  | guarded {x : Activity α} {label : Label α} {acts acts' rest : List (Activity α)} {frame : Frame} :
      x.task = .fetch → label.returned = none → c.frame x.id = some frame →
      (∀ u, label.read = some u → u = (x.owner, x.id, frame.page)) →
      (¬ edits → label.update = none ∧ label.marked = none) →
      acts.Perm (x :: rest) → acts'.Perm (x :: rest) →
      CallStep c c' wr rd exhausted edits none label acts acts'
  | release {x : Activity α} {label : Label α} {acts acts' rest : List (Activity α)} : label.Quiet →
      x.task = .fetch → label.returned = none → acts.Perm (x :: rest) → acts'.Perm rest →
      CallStep c c' wr rd exhausted edits none label acts acts'
  | return {x : Activity α} {label : Label α} {acts acts' rest : List (Activity α)}
      {r : Except Error Unit} : label.Quiet → x.task = .drop r →
      label.returned = some (x.owner, x.id, r) → acts.Perm (x :: rest) → acts'.Perm rest →
      CallStep c c' wr rd exhausted edits none label acts acts'

theorem CallStep.append {c c' : Cache} {wr : WriteResult} {rd : Bool} {exhausted edits : Prop}
    {o : Option (Activity α)} {label : Label α} {acts acts' : List (Activity α)}
    (h : CallStep c c' wr rd exhausted edits o label acts acts') (tail : List (Activity α)) :
    CallStep c c' wr rd exhausted edits o label (acts ++ tail) (acts' ++ tail) := by
  cases h with
  | idle hq hr hp => exact .idle hq hr (hp.append_right tail)
  | start hq hr hp => exact .start hq hr (hp.append_right tail)
  | refuse hq ht hr he hp => exact .refuse hq ht hr he (hp.append_right tail)
  | nothing hq ht hf hr hp => exact .nothing hq ht hf hr (hp.append_right tail)
  | resume hq ht hr hp hp' => exact .resume hq ht hr (hp.append_right tail) (hp'.append_right tail)
  | fail hq ht hr he hp hp' => exact .fail hq ht hr he (hp.append_right tail) (hp'.append_right tail)
  | installed ht hu hm hd hr hp hp' =>
    exact .installed ht hu hm hd hr (hp.append_right tail) (hp'.append_right tail)
  | replaced ht hu hm hd hr hp hp' =>
    exact .replaced ht hu hm hd hr (hp.append_right tail) (hp'.append_right tail)
  | flushed hq ht hr hf hf' hp hp' =>
    exact .flushed hq ht hr hf hf' (hp.append_right tail) (hp'.append_right tail)
  | guarded ht hr hf hd he hp hp' =>
    exact .guarded ht hr hf hd he (hp.append_right tail) (hp'.append_right tail)
  | release hq ht hr hp hp' => exact .release hq ht hr (hp.append_right tail) (hp'.append_right tail)
  | «return» hq ht hr hp hp' => exact .return hq ht hr (hp.append_right tail) (hp'.append_right tail)

theorem CallStep.perm {c c' : Cache} {wr : WriteResult} {rd : Bool} {exhausted edits : Prop}
    {o : Option (Activity α)} {label : Label α} {acts acts' acts₁ acts₁' : List (Activity α)}
    (h : CallStep c c' wr rd exhausted edits o label acts acts') (ha : acts₁.Perm acts)
    (ha' : acts₁'.Perm acts') : CallStep c c' wr rd exhausted edits o label acts₁ acts₁' := by
  cases h with
  | idle hq hr hp => exact .idle hq hr (ha'.trans (hp.trans ha.symm))
  | start hq hr hp => exact .start hq hr (ha'.trans (hp.trans (ha.symm.cons _)))
  | refuse hq ht hr he hp => exact .refuse hq ht hr he (ha'.trans (hp.trans ha.symm))
  | nothing hq ht hf hr hp => exact .nothing hq ht hf hr (ha'.trans (hp.trans ha.symm))
  | resume hq ht hr hp hp' => exact .resume hq ht hr (ha.trans hp) (ha'.trans hp')
  | fail hq ht hr he hp hp' => exact .fail hq ht hr he (ha.trans hp) (ha'.trans hp')
  | installed ht hu hm hd hr hp hp' => exact .installed ht hu hm hd hr (ha.trans hp) (ha'.trans hp')
  | replaced ht hu hm hd hr hp hp' => exact .replaced ht hu hm hd hr (ha.trans hp) (ha'.trans hp')
  | flushed hq ht hr hf hf' hp hp' => exact .flushed hq ht hr hf hf' (ha.trans hp) (ha'.trans hp')
  | guarded ht hr hf hd he hp hp' => exact .guarded ht hr hf hd he (ha.trans hp) (ha'.trans hp')
  | release hq ht hr hp hp' => exact .release hq ht hr (ha.trans hp) (ha'.trans hp')
  | «return» hq ht hr hp hp' => exact .return hq ht hr (ha.trans hp) (ha'.trans hp')

theorem Reason.mono {c c' : Cache} {wr : WriteResult} {rd : Bool} {exhausted exhausted' : Prop}
    {x : Activity α} {e : Error} (h : Reason c c' wr rd exhausted x e) (he : exhausted → exhausted') :
    Reason c c' wr rd exhausted' x e := by
  cases h with
  | exhausted msg hx => exact .exhausted msg (he hx)
  | writeBack hf hw => exact .writeBack hf hw
  | read ht hf hr => exact .read ht hf hr
  | misnamed _ ht hp => exact .misnamed e ht hp

theorem CallStep.mono {c c' : Cache} {wr : WriteResult} {rd : Bool} {exhausted exhausted' edits : Prop}
    {o : Option (Activity α)} {label : Label α} {acts acts' : List (Activity α)}
    (h : CallStep c c' wr rd exhausted edits o label acts acts') (he : exhausted → exhausted') :
    CallStep c c' wr rd exhausted' edits o label acts acts' := by
  cases h with
  | idle hq hr hp => exact .idle hq hr hp
  | start hq hr hp => exact .start hq hr hp
  | refuse hq ht hr hx hp => exact .refuse hq ht hr (hx.mono he) hp
  | nothing hq ht hf hr hp => exact .nothing hq ht hf hr hp
  | resume hq ht hr hp hp' => exact .resume hq ht hr hp hp'
  | fail hq ht hr hx hp hp' => exact .fail hq ht hr (hx.mono he) hp hp'
  | installed ht hu hm hd hr hp hp' => exact .installed ht hu hm hd hr hp hp'
  | replaced ht hu hm hd hr hp hp' => exact .replaced ht hu hm hd hr hp hp'
  | flushed hq ht hr hf hf' hp hp' => exact .flushed hq ht hr hf hf' hp hp'
  | guarded ht hr hf hd hn hp hp' => exact .guarded ht hr hf hd hn hp hp'
  | release hq ht hr hp hp' => exact .release hq ht hr hp hp'
  | «return» hq ht hr hp hp' => exact .return hq ht hr hp hp'

def Unique (acts : List (Activity α)) : Prop := (acts.map Activity.owner).Nodup

theorem Unique.perm {acts acts' : List (Activity α)} (h : Unique acts) (hp : acts'.Perm acts) :
    Unique acts' := (hp.map Activity.owner).nodup_iff.mpr h

theorem Unique.cons {x : Activity α} {acts : List (Activity α)} (h : Unique acts)
    (hx : x.owner ∉ acts.map Activity.owner) : Unique (x :: acts) := List.nodup_cons.mpr ⟨hx, h⟩

theorem Unique.swap {x y : Activity α} {rest : List (Activity α)} (h : Unique (x :: rest))
    (hy : y.owner = x.owner) : Unique (y :: rest) := by
  rw [Unique, List.map_cons, hy]
  exact h

theorem Unique.not_mem {x y : Activity α} {rest : List (Activity α)} (h : Unique (x :: rest))
    (hy : y ∈ rest) : y.owner ≠ x.owner := by
  intro he
  apply (List.nodup_cons.mp h).1
  rw [← he]
  exact List.mem_map_of_mem hy

theorem CallStep.unique {c c' : Cache} {wr : WriteResult} {rd : Bool} {exhausted edits : Prop}
    {o : Option (Activity α)} {label : Label α} {acts acts' : List (Activity α)}
    (h : CallStep c c' wr rd exhausted edits o label acts acts') (hu : Unique acts)
    (hfresh : ∀ x, o = some x → x.owner ∉ acts.map Activity.owner) : Unique acts' := by
  have htail : ∀ {x : Activity α} {rest : List (Activity α)}, acts.Perm (x :: rest) → Unique rest :=
    fun hp => (List.nodup_cons.mp (hu.perm hp.symm)).2
  cases h with
  | idle _ _ hp => exact hu.perm hp
  | start _ _ hp => exact (hu.cons (hfresh _ rfl)).perm hp
  | refuse _ _ _ _ hp => exact hu.perm hp
  | nothing _ _ _ _ hp => exact hu.perm hp
  | resume _ _ _ hp hp' => exact (hu.perm hp.symm).perm hp'
  | fail _ _ _ _ hp hp' => exact (htail hp).perm hp'
  | installed _ _ _ _ _ hp hp' => exact (htail hp).perm hp'
  | replaced _ _ _ _ _ hp hp' =>
    refine Unique.perm (Unique.swap (hu.perm hp.symm) ?_) hp'
    rfl
  | flushed _ _ _ _ _ hp hp' =>
    refine Unique.perm (Unique.swap (hu.perm hp.symm) ?_) hp'
    rfl
  | guarded _ _ _ _ _ hp hp' => exact (hu.perm hp.symm).perm hp'
  | release _ _ _ hp hp' => exact (htail hp).perm hp'
  | «return» _ _ _ hp hp' => exact (htail hp).perm hp'

theorem CallStep.mem_cases {c c' : Cache} {wr : WriteResult} {rd : Bool} {exhausted edits : Prop}
    {o : Option (Activity α)} {label : Label α} {acts acts' : List (Activity α)}
    (h : CallStep c c' wr rd exhausted edits o label acts acts') {y : Activity α} (hy : y ∈ acts') :
    y ∈ acts ∨ o = some y ∨ ∃ x ∈ acts, x.owner = y.owner ∧ x.id = y.id ∧
      ((∃ page, x.task = .install page) ∧ y.task = .drop (.ok ()) ∨
        ∃ frame, c.frame y.id = some frame ∧ c'.frame y.id = some (frame.writeBack c.disk y.id wr).frame ∧
          y.task = .drop (frame.writeBack c.disk y.id wr).result) := by
  have hrest : ∀ {x : Activity α} {rest : List (Activity α)}, acts.Perm (x :: rest) → y ∈ rest → y ∈ acts :=
    fun hp hz => hp.mem_iff.mpr (List.mem_cons_of_mem _ hz)
  cases h with
  | idle _ _ hp => exact .inl (hp.mem_iff.mp hy)
  | start _ _ hp =>
    rcases List.mem_cons.mp (hp.mem_iff.mp hy) with rfl | hy
    · exact .inr (.inl rfl)
    · exact .inl hy
  | refuse _ _ _ _ hp => exact .inl (hp.mem_iff.mp hy)
  | nothing _ _ _ _ hp => exact .inl (hp.mem_iff.mp hy)
  | resume _ _ _ hp hp' => exact .inl (hp.mem_iff.mpr (hp'.mem_iff.mp hy))
  | fail _ _ _ _ hp hp' => exact .inl (hrest hp (hp'.mem_iff.mp hy))
  | installed _ _ _ _ _ hp hp' => exact .inl (hrest hp (hp'.mem_iff.mp hy))
  | @replaced x _ _ _ _ page ht _ _ _ _ hp hp' =>
    rcases List.mem_cons.mp (hp'.mem_iff.mp hy) with rfl | hy
    · exact .inr (.inr ⟨x, hp.mem_iff.mpr List.mem_cons_self, rfl, rfl, .inl ⟨⟨page, ht⟩, rfl⟩⟩)
    · exact .inl (hrest hp hy)
  | @flushed x _ _ _ _ frame _ _ _ hf hf' hp hp' =>
    rcases List.mem_cons.mp (hp'.mem_iff.mp hy) with rfl | hy
    · exact .inr (.inr ⟨x, hp.mem_iff.mpr List.mem_cons_self, rfl, rfl, .inr ⟨frame, hf, hf', rfl⟩⟩)
    · exact .inl (hrest hp hy)
  | guarded _ _ _ _ _ hp hp' => exact .inl (hp.mem_iff.mpr (hp'.mem_iff.mp hy))
  | release _ _ _ hp hp' => exact .inl (hrest hp (hp'.mem_iff.mp hy))
  | «return» _ _ _ hp hp' => exact .inl (hrest hp (hp'.mem_iff.mp hy))

theorem CallStep.read {α : Type} {c c' : Cache} {wr : WriteResult} {rd : Bool} {exhausted edits : Prop}
    {o : Option (Activity α)} {label : Label α} {acts acts' : List (Activity α)}
    (h : CallStep c c' wr rd exhausted edits o label acts acts') {owner : α} {id : PageId} {page : Page}
    (hr : label.read = some (owner, id, page)) :
    label.returned = none ∧ (⟨owner, id, .fetch⟩ : Activity α) ∈ acts ∧
      ∃ frame, c.frame id = some frame ∧ frame.page = page := by
  have hquiet : ¬ label.Quiet := fun hq => by
    rw [hq.read] at hr
    cases hr
  cases h with
  | idle hq => exact absurd hq hquiet
  | start hq => exact absurd hq hquiet
  | refuse hq => exact absurd hq hquiet
  | nothing hq => exact absurd hq hquiet
  | resume hq => exact absurd hq hquiet
  | fail hq => exact absurd hq hquiet
  | installed _ _ _ hd => cases hd.symm.trans hr
  | replaced _ _ _ hd => cases hd.symm.trans hr
  | flushed hq => exact absurd hq hquiet
  | @guarded x _ _ _ _ frame ht hret hf hd _ hp =>
    cases hd _ hr
    obtain ⟨owner, id, task⟩ := x
    cases ht
    exact ⟨hret, hp.mem_iff.mpr List.mem_cons_self, frame, hf, rfl⟩
  | release hq => exact absurd hq hquiet
  | «return» hq => exact absurd hq hquiet

end OxenDB
