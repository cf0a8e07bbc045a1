import OxenDB.BufferPool.Coherence
import OxenDB.BufferPool.Progress

namespace OxenDB

open Lib

variable {α : Type}

def Stage.writes : Stage → Bool
  | .handle _ writing => writing
  | _ => false

def Shard.writers (sh : Shard α) : List (α × PageId) :=
  (sh.pins.filter (fun q => q.stage.writes)).map (fun q => (q.owner, q.pageId))

def BufferPool.writers (p : BufferPool α) : List (α × PageId) := p.shards.flatMap Shard.writers

namespace Shard

variable {sh sh' : Shard α} {k : ℕ} {q : Pin α}

theorem mem_writers {u : α × PageId} :
    u ∈ sh.writers ↔ ∃ q ∈ sh.pins, q.stage.writes = true ∧ u = (q.owner, q.pageId) := by
  simp only [writers, List.mem_map, List.mem_filter, and_assoc, eq_comm]

theorem writers_pin (hk : sh.pins[k]? = some q) : sh.writers.Perm
    ((if q.stage.writes then [(q.owner, q.pageId)] else []) ++
      Shard.writers { sh with pins := sh.pins.eraseIdx k }) := by
  obtain ⟨hlt, rfl⟩ := List.getElem?_eq_some_iff.mp hk
  have hperm := ((List.getElem_cons_eraseIdx_perm hlt).symm.filter (fun q => q.stage.writes)).map
    (fun q : Pin α => (q.owner, q.pageId))
  refine hperm.trans (.of_eq ?_)
  rw [List.filter_cons]
  split_ifs <;> rfl

theorem writers_setStage (hk : sh.pins[k]? = some q) (stage : Stage) : (sh.setStage k q stage).writers.Perm
    ((if stage.writes then [(q.owner, q.pageId)] else []) ++ Shard.writers { sh with pins := sh.pins.eraseIdx k }) := by
  obtain ⟨hlt, -⟩ := List.getElem?_eq_some_iff.mp hk
  have hperm := ((List.set_perm_cons_eraseIdx hlt { q with stage := stage }).filter (fun q => q.stage.writes)).map
    (fun q : Pin α => (q.owner, q.pageId))
  refine hperm.trans (.of_eq ?_)
  rw [List.filter_cons]
  change (if stage.writes = true then _ else _ : List (Pin α)).map _ = _
  split_ifs <;> rfl

theorem writers_cons (hq : q.stage.writes = false) (frames : List Frame) (st : PoolState)
    (held : Option (Section α)) : Shard.writers ⟨frames, st, held, q :: sh.pins⟩ = sh.writers := by
  rw [writers, List.filter_cons, if_neg (by rw [hq]; exact Bool.false_ne_true)]
  rfl

theorem Opened.writers {owner : α} {id : PageId} {stage : Stage} (ho : Opened sh owner id stage sh')
    (hs : stage.writes = false) : sh'.writers = sh.writers := by
  cases ho with
  | returned => rfl
  | pinned => exact writers_cons hs _ _ _
  | evict => rfl
  | take => rfl

theorem Resumed.writers {s : Section α} (hr : Resumed sh s sh') : sh'.writers = sh.writers := by
  cases hr with
  | loaded => exact writers_cons rfl _ _ _
  | failed | evicted | unread | installed => rfl

theorem Moves.writers {a : Action α} (h : sh.Moves a sh') (ha : ¬ a.Edits) : sh'.writers.Subperm sh.writers := by
  have hstage : ∀ {k : ℕ} {q : Pin α} {stage : Stage}, sh.pins[k]? = some q →
      (stage.writes = true → q.stage.writes = true) → (sh.setStage k q stage).writers.Subperm sh.writers := by
    intro k q stage hk hs
    refine ((writers_setStage hk stage).subperm).trans (.trans ?_ (writers_pin hk).symm.subperm)
    refine (List.Sublist.append_right ?_ _).subperm
    split_ifs with h₁ h₂
    · exact List.Sublist.refl _
    · exact absurd (hs h₁) h₂
    · exact List.nil_sublist _
    · exact List.Sublist.refl _
  cases h with
  | fetch _ ho => exact (List.Perm.of_eq (ho.writers rfl)).subperm
  | install _ ho => exact (List.Perm.of_eq (ho.writers rfl)).subperm
  | flush _ ho => exact (List.Perm.of_eq (ho.writers rfl)).subperm
  | resume _ hr => exact (List.Perm.of_eq hr.writers).subperm
  | work hk => exact hstage hk (by rintro ⟨⟩)
  | lockRead hk hs => exact hstage hk (by rw [hs]; exact fun h => h)
  | unlockRead hk hs => exact hstage hk (by rw [hs]; exact fun h => h)
  | read => exact List.Subperm.refl _
  | edit he => exact absurd he ha
  | unpin _ hk => exact (List.sublist_append_right _ _).subperm.trans (writers_pin hk).symm.subperm

theorem unlocked_writes {f : ℕ} (h : sh.unlocked f = true) (hq : q ∈ sh.pins) (hf : q.frame = f) :
    q.stage.writes = false := by
  have hfree := List.all_eq_true.mp h q hq
  cases hs : q.stage with
  | handle reads writing =>
    simp only [hs, hf, ne_eq, not_true_eq_false, decide_false, Bool.false_or, Bool.and_eq_true,
      Bool.not_eq_true'] at hfree
    exact hfree.2
  | install | flush | drop => rfl

theorem guard_lockWrite {r : Shard α × Label α} (hk : sh.pins[k]? = some q) (hg : sh.guard k .lockWrite = some r) :
    r.2.update = none ∧ r.1.writers.Perm ((q.owner, q.pageId) :: sh.writers) ∧
      ∀ q' ∈ sh.pins, q'.frame = q.frame → q'.stage.writes = false := by
  obtain ⟨q', reads, writing, hq, hs⟩ := guard_stage hg
  cases hk.symm.trans hq
  simp only [guard, hk, hs] at hg
  split_ifs at hg with hun
  injection hg with hg
  subst hg
  refine ⟨rfl, ?_, fun q' hq' hf => unlocked_writes hun hq' hf⟩
  have hpin := writers_pin hk
  rw [if_neg (by rw [unlocked_writes hun (List.mem_of_getElem? hk) rfl]; exact Bool.false_ne_true)] at hpin
  exact (writers_setStage hk (.handle reads true)).trans (hpin.symm.cons _)

theorem guard_update {page : Page} {r : Shard α × Label α} (hk : sh.pins[k]? = some q)
    (hg : sh.guard k (.write page) = some r) : q.stage.writes = true ∧ r.2.update = some (q.pageId, page) ∧
      r.1.pins = sh.pins := by
  obtain ⟨q', reads, writing, hq, hs⟩ := guard_stage hg
  cases hk.symm.trans hq
  simp only [guard, hk, hs] at hg
  split_ifs at hg with hw
  injection hg with hg
  subst hg
  exact ⟨by rw [hs]; exact hw, rfl, rfl⟩

theorem guard_unlockWrite {r : Shard α × Label α} (hg : sh.guard k .unlockWrite = some r) :
    r.2.update = none ∧ r.1.writers.Subperm sh.writers := by
  obtain ⟨q, reads, writing, hk, hs⟩ := guard_stage hg
  simp only [guard, hk, hs] at hg
  split_ifs at hg with hw
  injection hg with hg
  subst hg
  refine ⟨rfl, (writers_setStage hk _).subperm.trans (.trans ?_ (writers_pin hk).symm.subperm)⟩
  exact (List.Sublist.append_right (List.nil_sublist _) _).subperm

end Shard

namespace BufferPool

variable {p p' : BufferPool α} {i k : ℕ} {sh sh' : Shard α} {q : Pin α}

theorem writers_owners (p : BufferPool α) : (p.writers.map Prod.fst).Sublist (p.activities.map Activity.owner) := by
  rw [writers, activities, List.map_flatMap, List.map_flatMap]
  refine List.Sublist.flatMap_right _ (fun sh _ => ?_)
  rw [Shard.writers, Shard.activities, List.map_map, List.map_append, List.map_map (l := sh.pins)]
  exact (List.filter_sublist.map _).trans (List.sublist_append_right _ _)

theorem mem_writers (hi : p.shards[i]? = some sh) (hk : sh.pins[k]? = some q) (hq : q.stage.writes = true) :
    (q.owner, q.pageId) ∈ p.writers :=
  List.mem_flatMap.mpr ⟨sh, List.mem_of_getElem? hi, Shard.mem_writers.mpr ⟨q, List.mem_of_getElem? hk, hq, rfl⟩⟩

theorem writers_set (hi : p.shards[i]? = some sh) (hp : p'.shards = p.shards.set i sh')
    (hs : sh'.writers.Subperm sh.writers) : p'.writers.Subperm p.writers := by
  obtain ⟨rest, hr, hr'⟩ := flatMap_set Shard.writers p.shards i hi
  rw [writers, writers, hp]
  exact (hr' sh').subperm.trans (((List.subperm_append_right rest).mpr hs).trans hr.symm.subperm)

variable [DecidableEq α] {a : Action α} {label : Label α}

theorem step_writers (h : p.Kept) (ha : ¬ a.Edits) (hs : p.step a = some (p', label)) :
    p'.writers.Subperm p.writers := by
  rcases step_moves h hs with ⟨hp, -⟩ | ⟨i, sh, sh', hi, hp, hm⟩
  · rw [writers, hp]
    exact List.Subperm.refl _
  · exact writers_set hi hp (hm.writers ha)

theorem step_guard {g : Shard.Guard} (hi : p.shards[i]? = some sh) (hs : p.step (.guard i k g) = some (p', label)) :
    ∃ sh', sh.guard k g = some (sh', label) ∧ p'.shards = p.shards.set i sh' := by
  obtain ⟨r, hb, hr⟩ := Option.map_eq_some_iff.mp hs
  rw [hi] at hb
  cases hr
  exact ⟨r.1, hb, rfl⟩

theorem step_write {page : Page} (hi : p.shards[i]? = some sh) (hk : sh.pins[k]? = some q)
    (hs : p.step (.guard i k (.write page)) = some (p', label)) :
    q.stage.writes = true ∧ label.update = some (q.pageId, page) ∧ p'.writers.Perm p.writers := by
  obtain ⟨sh', hg, hp⟩ := step_guard hi hs
  obtain ⟨hq, hu, hpins⟩ := Shard.guard_update hk hg
  obtain ⟨rest, hr, hr'⟩ := flatMap_set Shard.writers p.shards i hi
  have hsame : sh'.writers = sh.writers := by
    change sh'.pins = sh.pins at hpins
    rw [Shard.writers, Shard.writers, hpins]
  refine ⟨hq, hu, ?_⟩
  rw [writers, writers, hp]
  exact (hr' sh').trans ((List.Perm.of_eq (by rw [hsame])).trans hr.symm)

theorem step_unlockWrite (hs : p.step (.guard i k .unlockWrite) = some (p', label)) :
    label.update = none ∧ p'.writers.Subperm p.writers := by
  obtain ⟨r, hb, hr⟩ := Option.map_eq_some_iff.mp hs
  obtain ⟨sh, hi, hg⟩ := Option.bind_eq_some_iff.mp hb
  cases hr
  obtain ⟨hu, hw⟩ := Shard.guard_unlockWrite hg
  exact ⟨hu, writers_set hi rfl hw⟩

theorem step_lockWrite (h : p.Kept) (hi : p.shards[i]? = some sh) (hk : sh.pins[k]? = some q)
    (hs : p.step (.guard i k .lockWrite) = some (p', label)) : label.update = none ∧
      p'.writers.Perm ((q.owner, q.pageId) :: p.writers) ∧ q.pageId ∉ p.writers.map Prod.snd := by
  obtain ⟨sh', hg, hp⟩ := step_guard hi hs
  obtain ⟨hu, hw, hfree⟩ := Shard.guard_lockWrite hk hg
  refine ⟨hu, ?_, ?_⟩
  · obtain ⟨rest, hr, hr'⟩ := flatMap_set Shard.writers p.shards i hi
    rw [writers, writers, hp]
    exact (hr' sh').trans ((hw.append_right rest).trans (hr.symm.cons _))
  · intro hm
    obtain ⟨u, hu, he⟩ := List.mem_map.mp hm
    obtain ⟨shu, hshu, hu⟩ := List.mem_flatMap.mp hu
    obtain ⟨q', hq', hwrites, rfl⟩ := Shard.mem_writers.mp hu
    obtain ⟨j, hj⟩ := List.mem_iff_getElem?.mp hshu
    -- A page is cached in one shard only, and there in one frame.
    have hpin := (h.shards i sh hi).books.pinned _ (List.mem_map_of_mem (List.mem_of_getElem? hk))
    have hpin' := (h.shards j shu hj).books.pinned _ (List.mem_map_of_mem hq')
    change q'.pageId = q.pageId at he
    simp only [he] at hpin'
    obtain ⟨rfl, hf⟩ := h.unique hi hj hpin hpin'
    cases hi.symm.trans hj
    rw [hfree q' hq' hf.symm] at hwrites
    cases hwrites

end BufferPool

structure Editing (α : Type) (κ : Type := ℕ) where
  pool : BufferPool α κ
  seen : α → Option Page

namespace Editing

def edits (labels : List (Label α)) (id : PageId) : ℕ := ((BufferPool.updates labels).map Prod.fst).count id

variable {p₀ : BufferPool α} {edit : PageId → Bytes → Bytes} {labels : List (Label α)} {s s' : Editing α}
  {label : Label α}

structure Inv (p₀ : BufferPool α) (edit : PageId → Bytes → Bytes) (labels : List (Label α)) (s : Editing α) : Prop where
  tracks : p₀.Tracks labels s.pool
  unique : Unique s.pool.activities
  noInstall : ∀ x ∈ s.pool.activities, ∀ page, x.task ≠ .install page
  exclusive : (s.pool.writers.map Prod.snd).Nodup
  seen : ∀ u ∈ s.pool.writers, ∀ old, s.seen u.1 = some old → old.body = s.pool.cache.content u.2
  content : ∀ id, s.pool.cache.content id = (edit id)^[edits labels id] (p₀.cache.content id)

theorem updates_none (hu : label.update = none) :
    BufferPool.updates (labels ++ [label]) = BufferPool.updates labels := by
  simp [BufferPool.updates, hu]

theorem updates_some {u : PageId × Page} (hu : label.update = some u) :
    BufferPool.updates (labels ++ [label]) = BufferPool.updates labels ++ [(u.1, u.2.body)] := by
  simp [BufferPool.updates, hu]

theorem noInstall_calls {c c' : Cache} {wr : WriteResult} {rd : Bool} {exhausted edited : Prop}
    {o : Option (Activity α)} {acts acts' : List (Activity α)}
    (h : CallStep c c' wr rd exhausted edited o label acts acts') (hn : ∀ x ∈ acts, ∀ page, x.task ≠ .install page)
    (ho : ∀ x, o = some x → ∀ page, x.task ≠ .install page) :
    (∀ x ∈ acts', ∀ page, x.task ≠ .install page) ∧ (¬ edited → label.update = none) := by
  have hsame : acts'.Perm acts → ∀ x ∈ acts', ∀ page, x.task ≠ .install page :=
    fun hp x hx => hn x (hp.mem_iff.mp hx)
  have hmem : ∀ {y : Activity α} {rest : List (Activity α)}, acts.Perm (y :: rest) →
      (∀ page, y.task ≠ .install page) ∧ ∀ x ∈ rest, ∀ page, x.task ≠ .install page := by
    intro y rest hp
    exact List.forall_mem_cons.mp (fun x hx => hn x (hp.mem_iff.mpr hx))
  have hrest : ∀ {rest : List (Activity α)}, acts'.Perm rest → (∀ x ∈ rest, ∀ page, x.task ≠ .install page) →
      ∀ x ∈ acts', ∀ page, x.task ≠ .install page :=
    fun hp hr x hx => hr x (hp.mem_iff.mp hx)
  cases h with
  | idle hq _ hp => exact ⟨hsame hp, fun _ => hq.update⟩
  | start hq _ hp => exact ⟨hrest hp (List.forall_mem_cons.mpr ⟨ho _ rfl, hn⟩), fun _ => hq.update⟩
  | refuse hq _ _ _ hp => exact ⟨hsame hp, fun _ => hq.update⟩
  | nothing hq _ _ _ hp => exact ⟨hsame hp, fun _ => hq.update⟩
  | resume hq _ _ hp hp' => exact ⟨hrest hp' (List.forall_mem_cons.mpr (hmem hp)), fun _ => hq.update⟩
  | fail hq _ _ _ hp hp' => exact ⟨hrest hp' (hmem hp).2, fun _ => hq.update⟩
  | installed ht _ _ _ _ hp => exact absurd ht ((hmem hp).1 _)
  | replaced ht _ _ _ _ hp => exact absurd ht ((hmem hp).1 _)
  | flushed hq _ _ _ _ hp hp' =>
    exact ⟨hrest hp' (List.forall_mem_cons.mpr ⟨by rintro page ⟨⟩, (hmem hp).2⟩), fun _ => hq.update⟩
  | guarded _ _ _ _ he hp hp' =>
    exact ⟨hrest hp' (List.forall_mem_cons.mpr (hmem hp)), fun hne => (he hne).1⟩
  | release hq _ _ hp hp' => exact ⟨hrest hp' (hmem hp).2, fun _ => hq.update⟩
  | «return» hq _ _ hp hp' => exact ⟨hrest hp' (hmem hp).2, fun _ => hq.update⟩

theorem Inv.quiet (h : Inv p₀ edit labels s) {p : BufferPool α} {seen : α → Option Page}
    (ht : p₀.Tracks (labels ++ [label]) p) (hu : label.update = none) (hunique : Unique p.activities)
    (hn : ∀ x ∈ p.activities, ∀ page, x.task ≠ .install page) (hx : (p.writers.map Prod.snd).Nodup)
    (hseen : ∀ u ∈ p.writers, ∀ old, seen u.1 = some old → old.body = s.pool.cache.content u.2) :
    Inv p₀ edit (labels ++ [label]) ⟨p, seen⟩ := by
  have hcontent : p.cache.content = s.pool.cache.content := by
    rw [ht.content, h.tracks.content, updates_none hu]
  refine ⟨ht, hunique, hn, hx, fun u hm old ho => ?_, fun id => ?_⟩
  · rw [hcontent]
    exact hseen u hm old ho
  · rw [hcontent, edits, updates_none hu]
    exact h.content id

variable [DecidableEq α]

/-- One step of one thread. A write through a guard computes the new body from the page it has
looked at under the same guard; nothing else changes a page. -/
inductive Step {κ : Type} [OfNat κ 0] [OfNat κ 1] [Add κ] [Sub κ] [LT κ] [DecidableLT κ]
    (edit : PageId → Bytes → Bytes) : Editing α κ → Label α → Editing α κ → Prop
  | plain {s : Editing α κ} {a : Action α} {p : BufferPool α κ} {label : Label α} : ¬ a.Edits →
      (∀ owner id page, a ≠ .install owner id page) → s.pool.step a = some (p, label) →
      Step edit s label { s with pool := p }
  | lock {s : Editing α κ} {i k : ℕ} {sh : Shard α κ} {q : Pin α} {p : BufferPool α κ} {label : Label α} :
      s.pool.shards[i]? = some sh → sh.pins[k]? = some q →
      s.pool.step (.guard i k .lockWrite) = some (p, label) →
      Step edit s label ⟨p, Function.update s.seen q.owner none⟩
  | look {s : Editing α κ} {i k : ℕ} {sh : Shard α κ} {q : Pin α} {p : BufferPool α κ} {label : Label α}
      {page : Page} :
      s.pool.shards[i]? = some sh → sh.pins[k]? = some q → q.stage.writes = true →
      s.pool.step (.guard i k .read) = some (p, label) → label.read = some (q.owner, q.pageId, page) →
      Step edit s label ⟨p, Function.update s.seen q.owner (some page)⟩
  | write {s : Editing α κ} {i k : ℕ} {sh : Shard α κ} {q : Pin α} {p : BufferPool α κ} {label : Label α}
      {old page : Page} : s.pool.shards[i]? = some sh → sh.pins[k]? = some q → s.seen q.owner = some old →
      page.body = edit q.pageId old.body → s.pool.step (.guard i k (.write page)) = some (p, label) →
      Step edit s label ⟨p, Function.update s.seen q.owner none⟩
  | unlock {s : Editing α κ} {i k : ℕ} {p : BufferPool α κ} {label : Label α} :
      s.pool.step (.guard i k .unlockWrite) = some (p, label) → Step edit s label { s with pool := p }

theorem noInstall_step {p : BufferPool α} {a : Action α} (h : Inv p₀ edit labels s)
    (ha : ∀ owner id page, a ≠ .install owner id page) (hs : s.pool.step a = some (p, label)) :
    (∀ x ∈ p.activities, ∀ page, x.task ≠ .install page) ∧ (¬ a.Edits → label.update = none) := by
  refine noInstall_calls (BufferPool.step_calls h.tracks.inv hs) h.noInstall (fun x hx page ht => ?_)
  cases a with
  | install owner id page => exact absurd rfl (ha owner id page)
  | fetch | flush =>
    cases hx
    cases ht
  | _ => cases hx

theorem nodup_map_of_subperm {β γ : Type} {f : β → γ} {l l' : List β} (h : l.Subperm l') (hn : (l'.map f).Nodup) :
    (l.map f).Nodup := by
  obtain ⟨l₀, hp, hs⟩ := h
  exact (hp.map f).nodup_iff.mp (hn.sublist (hs.map f))

theorem Inv.step (hbound : p₀.disk.pageCount.toNat ≤ 2 ^ 52) (h : Inv p₀ edit labels s)
    (hs : Step edit s label s') : Inv p₀ edit (labels ++ [label]) s' := by
  have hkept := h.tracks.inv.kept
  cases hs with
  | @plain a p _ hne hni hs =>
    obtain ⟨hn, hu⟩ := noInstall_step h hni hs
    have hw := BufferPool.step_writers hkept hne hs
    exact h.quiet (BufferPool.tracks_step hbound h.tracks ⟨_, hs⟩) (hu hne)
      (BufferPool.step_unique h.tracks.inv h.unique hs) hn (nodup_map_of_subperm hw h.exclusive)
      (fun u hm => h.seen u (hw.subset hm))
  | @unlock i k p _ hs =>
    obtain ⟨hn, -⟩ := noInstall_step h (by rintro _ _ _ ⟨⟩) hs
    obtain ⟨hu, hw⟩ := BufferPool.step_unlockWrite hs
    exact h.quiet (BufferPool.tracks_step hbound h.tracks ⟨_, hs⟩) hu
      (BufferPool.step_unique h.tracks.inv h.unique hs) hn (nodup_map_of_subperm hw h.exclusive)
      (fun u hm => h.seen u (hw.subset hm))
  | @lock i k sh q p _ hi hk hs =>
    obtain ⟨hn, -⟩ := noInstall_step h (by rintro _ _ _ ⟨⟩) hs
    obtain ⟨hu, hw, hnot⟩ := BufferPool.step_lockWrite hkept hi hk hs
    refine h.quiet (BufferPool.tracks_step hbound h.tracks ⟨_, hs⟩) hu
      (BufferPool.step_unique h.tracks.inv h.unique hs) hn ?_ (fun u hm old ho => ?_)
    · exact (hw.map Prod.snd).nodup_iff.mpr (List.nodup_cons.mpr ⟨hnot, h.exclusive⟩)
    · have hne : u.1 ≠ q.owner := by
        rintro he
        rw [he, Function.update_self] at ho
        cases ho
      rw [Function.update_of_ne hne] at ho
      refine h.seen u ((List.mem_cons.mp (hw.mem_iff.mp hm)).resolve_left ?_) old ho
      rintro rfl
      exact hne rfl
  | @look i k sh q p label page hi hk hq hs hr =>
    have hne : ¬ (Action.guard i k .read : Action α).Edits := id
    obtain ⟨hn, hu⟩ := noInstall_step h (by rintro _ _ _ ⟨⟩) hs
    have hw := BufferPool.step_writers hkept hne hs
    refine h.quiet (BufferPool.tracks_step hbound h.tracks ⟨_, hs⟩) (hu hne)
      (BufferPool.step_unique h.tracks.inv h.unique hs) hn (nodup_map_of_subperm hw h.exclusive)
      (fun u hm old ho => ?_)
    by_cases he : u.1 = q.owner
    · -- The owner has one handle, so what it sees is its own page.
      have hpair : u = (q.owner, q.pageId) := List.inj_on_of_nodup_map
        (h.unique.sublist (BufferPool.writers_owners s.pool)) (hw.subset hm) (BufferPool.mem_writers hi hk hq) he
      rw [he, Function.update_self] at ho
      cases ho
      obtain ⟨-, -, frame, hf, rfl⟩ := (BufferPool.step_calls h.tracks.inv hs).read hr
      rw [hpair]
      exact (Cache.content_cached hf).symm
    · rw [Function.update_of_ne he] at ho
      exact h.seen u (hw.subset hm) old ho
  | @write i k sh q p label old page hi hk hold hpage hs =>
    obtain ⟨hn, -⟩ := noInstall_step h (by rintro _ _ _ ⟨⟩) hs
    obtain ⟨hq, hu, hw⟩ := BufferPool.step_write hi hk hs
    have htracks := BufferPool.tracks_step hbound h.tracks ⟨_, hs⟩
    have hmem := BufferPool.mem_writers hi hk hq
    have hcontent : p.cache.content = Function.update s.pool.cache.content q.pageId page.body := by
      rw [htracks.content, h.tracks.content, updates_some hu, overlay_append]
      rfl
    refine ⟨htracks, BufferPool.step_unique h.tracks.inv h.unique hs, hn, ?_, fun u hm old' ho => ?_, fun id => ?_⟩
    · exact (hw.map Prod.snd).nodup_iff.mpr h.exclusive
    · change Function.update s.seen q.owner none u.1 = some old' at ho
      have hm := hw.mem_iff.mp hm
      have hne : u.1 ≠ q.owner := by
        rintro he
        rw [he, Function.update_self] at ho
        cases ho
      -- Another handle with a write guard is at another page.
      have hpage : u.2 ≠ q.pageId := fun he => hne (congrArg Prod.fst
        (List.inj_on_of_nodup_map h.exclusive hm hmem he))
      rw [Function.update_of_ne hne] at ho
      rw [hcontent, Function.update_of_ne hpage]
      exact h.seen u hm old' ho
    · rw [hcontent, edits, updates_some hu, List.map_append, List.count_append]
      rcases eq_or_ne id q.pageId with rfl | hne
      · rw [Function.update_self, hpage, h.seen _ hmem old hold, h.content]
        change _ = (edit q.pageId)^[edits labels q.pageId + _] _
        simp [Function.iterate_succ_apply']
      · rw [Function.update_of_ne hne, h.content]
        simp [edits, hne.symm]

theorem Inv.run {disk : DiskManager} {capacity : ℕ} (hnew : BufferPool.new disk capacity = .ok p₀)
    (hcount : disk.pageCount.toNat ≤ 2 ^ 52) (hrun : Run (Step edit) ⟨p₀, fun _ => none⟩ labels s) :
    Inv p₀ edit labels s := by
  obtain ⟨-, hdisk, -⟩ := BufferPool.new_ok hnew
  have hacts := BufferPool.new_activities hnew
  have hwriters : p₀.writers = [] := by
    have hsub := BufferPool.writers_owners p₀
    rw [hacts] at hsub
    exact List.map_eq_nil_iff.mp (List.sublist_nil.mp hsub)
  apply hrun.invariant
  · refine ⟨BufferPool.tracks_new hnew, ?_, ?_, ?_, ?_, fun id => rfl⟩
    · rw [Unique, hacts]
      exact List.nodup_nil
    · rw [hacts]
      rintro x ⟨⟩
    · rw [hwriters]
      exact List.nodup_nil
    · rw [hwriters]
      rintro x ⟨⟩
  · intro ls s l s' _ h hs
    exact h.step (by rw [hdisk]; exact hcount) hs

def wrap (s : Editing α) : Editing α UInt32 := ⟨s.pool.wrap, s.seen⟩

def Bounded {κ : Type} (s : Editing α κ) (_ : Label α) : Prop := s.pool.FewPins

theorem exists_step (hc : s.pool.Counted) {t : Editing α UInt32}
    (hs : Restrict (Step edit) Bounded s.wrap label t) : ∃ s', s'.wrap = t ∧ Step edit s label s' := by
  obtain ⟨hs, hf⟩ := hs
  cases hs with
  | plain hne hni hs =>
    obtain ⟨q, rfl, hs'⟩ := BufferPool.exists_step hc hf hs
    exact ⟨{ s with pool := q }, rfl, .plain hne hni hs'⟩
  | lock hi hk hs =>
    obtain ⟨sh, hi', rfl⟩ := BufferPool.exists_shard hi
    obtain ⟨q, rfl, hs'⟩ := BufferPool.exists_step hc hf hs
    exact ⟨⟨q, _⟩, rfl, .lock hi' hk hs'⟩
  | look hi hk hw hs hr =>
    obtain ⟨sh, hi', rfl⟩ := BufferPool.exists_shard hi
    obtain ⟨q, rfl, hs'⟩ := BufferPool.exists_step hc hf hs
    exact ⟨⟨q, _⟩, rfl, .look hi' hk hw hs' hr⟩
  | write hi hk hold hpage hs =>
    obtain ⟨sh, hi', rfl⟩ := BufferPool.exists_shard hi
    obtain ⟨q, rfl, hs'⟩ := BufferPool.exists_step hc hf hs
    exact ⟨⟨q, _⟩, rfl, .write hi' hk hold hpage hs'⟩
  | unlock hs =>
    obtain ⟨q, rfl, hs'⟩ := BufferPool.exists_step hc hf hs
    exact ⟨{ s with pool := q }, rfl, .unlock hs'⟩

/-- From a pool that was just made, in every order of the threads' steps, with failing reads and
writes and fewer than 2^32 pins on a frame at a time: a page holds as many edits as were written to it. -/
theorem edits_not_lost {disk : DiskManager} {capacity : ℕ} {p₀ : BufferPool α UInt32} {s : Editing α UInt32}
    (hnew : BufferPool.new disk capacity = .ok p₀) (hcount : disk.pageCount.toNat ≤ 2 ^ 52)
    (hrun : Run (Restrict (Step edit) Bounded) ⟨p₀, fun _ => none⟩ labels s) (id : PageId) :
    s.pool.cache.content id = (edit id)^[edits labels id] (p₀.cache.content id) := by
  obtain ⟨q₀, rfl, hnew₀⟩ := BufferPool.exists_new hnew
  obtain ⟨q, rfl, hq⟩ := @Run.of_image _ _ _ _ _ _ wrap (Step edit) ⟨q₀, fun _ => none⟩ hrun
    (fun ls q l t hq hs => exists_step (Inv.run hnew₀ hcount hq).tracks.inv.counted hs)
  rw [wrap, BufferPool.wrap_cache, BufferPool.wrap_cache]
  exact (Inv.run hnew₀ hcount hq).content id

def onePage (page : Page) : DiskManager :=
  { DiskManager.create with
    pageCount := 2
    file := DiskManager.create.file.writeSlot 1 page.data }

theorem onePage_read {page : Page} (hv : page.Valid 1) : (onePage page).readPage 1 true = .ok page := by
  obtain ⟨header, hv⟩ := hv
  have hid : DataPage 2 1 := ⟨by decide, by decide⟩
  have hread : readAt (onePage page).file.contents (fileOffset 1).toNat pageSize = some page.data :=
    @readAt_writeAt_eq _ 1 page (by decide)
  have hpage : Page.ofBytes page.data = some page := dif_pos page.size
  rw [DiskManager.readPage.eq_def, DiskManager.checkDataPage_ok.mpr hid]
  simp only [Bool.true_eq_false, if_false, hread, Option.bind_some, hpage, hv]

def increment (bs : Bytes) : Bytes := bs.map (· + 1)

def incremented (page : Page) : Page := ⟨increment page.data, by rw [increment, List.length_map, page.size]⟩

theorem incremented_body (page : Page) : (incremented page).body = increment page.body := List.map_drop.symm

theorem increment_run {page : Page} (hv : page.Valid 1) : ∃ labels s, edits labels 1 = 1 ∧
    Run (Restrict (Step (fun _ => increment)) Bounded)
      (⟨⟨[Shard.new 1], onePage page⟩, fun _ => none⟩ : Editing Unit UInt32) labels s := by
  have hfetch : Run (Restrict (Step (fun _ => increment)) Bounded)
      (⟨⟨[Shard.new 1], onePage page⟩, fun _ => none⟩ : Editing Unit UInt32) [{ }]
      ⟨⟨[{ (Shard.new 1 : Shard Unit UInt32) with
        state := { PoolState.new 1 with freeFrames := [] }
        held := some (.fill () 1 page false 0) }], onePage page⟩, fun _ => none⟩ := by
    refine Run.start.step ⟨.plain (a := .fetch () 1 true) id (by rintro _ _ _ ⟨⟩) ?_, fewPins_one _ (Nat.zero_le 1)⟩
    simp only [BufferPool.step]
    rw [if_pos (show BufferPool.idle _ _ = true from rfl), shardFor_one]
    change some (BufferPool.put _ 0 (Shard.load _ (onePage page) () 1 0 true)) = _
    rw [Shard.load, onePage_read hv]
    rfl
  have hfill := hfetch.step
    ⟨.plain (a := .resume 0 .ok true) id (by rintro _ _ _ ⟨⟩) rfl, fewPins_one _ (Nat.zero_le 1)⟩
  have hlock := hfill.step ⟨.lock (i := 0) (k := 0) rfl rfl rfl, fewPins_one _ (Nat.le_refl 1)⟩
  have hlook := hlock.step ⟨.look (i := 0) (k := 0) rfl rfl rfl rfl rfl, fewPins_one _ (Nat.le_refl 1)⟩
  have hwrite := hlook.step
    ⟨.write (i := 0) (k := 0) rfl rfl rfl (incremented_body _) rfl, fewPins_one _ (Nat.le_refl 1)⟩
  have hunlock := hwrite.step ⟨.unlock (i := 0) (k := 0) rfl, fewPins_one _ (Nat.le_refl 1)⟩
  exact ⟨_, _, rfl, hunlock⟩

theorem onePage_content (page : Page) :
    (BufferPool.cache (⟨[Shard.new 1], onePage page⟩ : BufferPool Unit UInt32)).content 1 = page.body := by
  have hnone : BufferPool.cached (⟨[Shard.new 1], onePage page⟩ : BufferPool Unit UInt32) 1 = none := by
    rw [cached_one]
    rfl
  rw [Cache.content_uncached (c := BufferPool.cache _) hnone]
  exact congrArg (List.drop 4) (@slotOf_writeAt_eq _ 1 page (by decide))

theorem edits_not_lost_once : ∃ (labels : List (Label Unit)) (s : Editing Unit UInt32), edits labels 1 = 1 ∧
    Run (Restrict (Step (fun _ => increment)) Bounded)
      ⟨⟨[Shard.new 1], onePage (Page.new 1 .heap).seal⟩, fun _ => none⟩ labels s ∧
    s.pool.cache.content 1 = increment (Page.new 1 .heap).seal.body := by
  obtain ⟨labels, s, hedits, hrun⟩ := increment_run (Page.new_valid 1 .heap)
  refine ⟨labels, s, hedits, hrun, ?_⟩
  rw [edits_not_lost (new_one _) (by decide) hrun 1, hedits, Function.iterate_one, onePage_content]

end Editing

end OxenDB
