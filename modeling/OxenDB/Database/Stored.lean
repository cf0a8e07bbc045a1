import OxenDB.Database.Effects
import OxenDB.Database.Writer

namespace OxenDB

open Lib

def Visible (c : Cache) (m : PageMap) : Prop :=
  c.disk.pageCount = m.count ∧ ∀ id, DataPage m.count id → c.Shows id (m.page id)

def Publishes (c : Cache) (m : PageMap) (done : List (PageId × Page)) : Prop :=
  ∀ id, DataPage m.count id ∨ id ∈ done.map Prod.fst → c.Shows id (overlay m.page done id)

def Shown (h : History) (db : Database) : Prop :=
  match db.holder with
  | .durable c => ∃ s, h.log.since = s ++ [c] ∧ Visible db.pool.cache (h.log.base.commits s)
  | .publishing c _ => ∃ s done rest, h.log.since = s ++ [c] ∧ c.installs = done ++ rest ∧
      Remaining c rest db.holder db.pool.activities ∧ db.pool.disk.pageCount = c.pageCount ∧
      Publishes db.pool.cache (h.log.base.commits s) done
  | .failed (.publish _) => True
  | _ => h.stuck = none → Visible db.pool.cache h.log.current

def Flushed (db : Database) : Prop :=
  match db.holder with
  | .checkpointing _ (.flush i todo) => CleanDrops db.pool.cache db.pool.activities ∧
      ∀ id, ¬ db.pool.cache.Clean id →
        i < db.pool.shardFor id ∨ i = db.pool.shardFor id ∧ ∀ ids, todo = some ids → id ∈ ids
  | .checkpointing _ _ => ∀ id, db.pool.cache.Clean id
  | _ => True

structure Stored (h : History) (db : Database) : Prop where
  coherent : db.pool.cache.Coherent
  fits : db.pool.disk.file.contents.length ≤ maxFileSize
  small : db.pool.disk.pageCount.toNat ≤ 2 ^ 52
  dirty : ∀ id frame, db.pool.cache.frame id = some frame → frame.dirty = true →
    ∃ c ∈ h.log.since, (id, frame.page) ∈ c.pages
  inside : ∀ id frame, db.pool.cache.frame id = some frame → frame.dirty = true →
    DataPage db.pool.disk.pageCount id
  aimed : ∀ x ∈ db.pool.activities, x.task = .fetch → DataPage db.pool.disk.pageCount x.id
  shown : Shown h db
  flushed : Flushed db

def Holder.Settled : Holder → Prop
  | .durable _ => False
  | .publishing _ _ => False
  | .failed (.publish _) => False
  | _ => True

theorem Holder.AfterCall.settled {r : Option (Owner × PageId × Except Error Unit)} {holder holder' : Holder}
    (h : AfterCall r holder holder') (hs : holder.Settled) : holder'.Settled := by
  cases h with
  | same => exact hs
  | installed | installFailed => exact absurd hs id
  | flushed | flushFailed => trivial

theorem shown_settled {h : History} {db : Database} {holder : Holder} (hh : db.holder = holder)
    (hs : holder.Settled) : Shown h db ↔ (h.stuck = none → Visible db.pool.cache h.log.current) := by
  rw [Shown, hh]
  cases holder with
  | durable c => exact absurd hs id
  | publishing c todo => exact absurd hs id
  | failed f =>
    cases f with
    | publish c => exact absurd hs id
    | _ => rfl
  | _ => rfl

theorem Commit.installs_eq {c : Commit} (h : ∀ u ∈ c.pages, u.1 ≠ PageId.HEADER) :
    c.installs = c.pages := by
  have hpages : c.pages.filter (fun u => u.1 ≠ PageId.HEADER) = c.pages := by
    rw [List.filter_eq_self]
    intro u hu
    exact decide_eq_true (h u hu)
  rw [Commit.installs, Commit.images, List.filter_append, hpages]
  split_ifs
  · rfl
  · rfl

theorem Visible.mono {c : Cache} {m : PageMap} (h : Visible c m) {disk : DiskManager}
    (hcount : disk.pageCount = c.disk.pageCount)
    (hd : ∀ id page, c.disk.Holds id page → disk.Holds id page) : Visible ⟨c.frame, disk⟩ m :=
  ⟨hcount.trans h.1, fun id hid => (h.2 id hid).mono (hd id _)⟩

section Step

variable {mine : PageId → Prop} {c c' : Cache} {ch : Change} {m : PageMap}

theorem Visible.step (h : Visible c m) (hm : m.WellFormed) (hs : Cache.Step mine c ch c')
    (hbound : c.disk.pageCount.toNat ≤ 2 ^ 52) (hc : c.Coherent) (hu : ch.update = none) :
    Visible c' m := by
  refine ⟨hs.pageCount.trans h.1, fun id hid => ?_⟩
  refine hs.shows hbound hc (hm.pages id hid).seal_eq (fun page he => ?_) (h.2 id hid)
  rw [hu] at he
  cases he

variable {done : List (PageId × Page)}

theorem overlay_seal (hm : m.WellFormed) (hd : ∀ u ∈ done, u.2.Valid u.1) {id : PageId}
    (hid : DataPage m.count id ∨ id ∈ done.map Prod.fst) :
    (overlay m.page done id).seal = overlay m.page done id := by
  by_cases hk : id ∈ done.map Prod.fst
  · obtain ⟨page, hp, he⟩ := overlay_of_mem done id hk
    rw [he m.page]
    exact (hd _ hp).seal_eq
  · rw [overlay_of_not_mem _ _ _ hk]
    exact (hm.pages id (hid.resolve_right hk)).seal_eq

theorem Publishes.step (h : Publishes c m done) (hm : m.WellFormed) (hd : ∀ u ∈ done, u.2.Valid u.1)
    (hs : Cache.Step mine c ch c') (hbound : c.disk.pageCount.toNat ≤ 2 ^ 52) (hc : c.Coherent)
    (hu : ch.update = none) : Publishes c' m done := by
  intro id hid
  refine hs.shows hbound hc (overlay_seal hm hd hid) (fun page he => ?_) (h id hid)
  rw [hu] at he
  cases he

theorem Publishes.snoc (h : Publishes c m done) (hm : m.WellFormed) (hd : ∀ u ∈ done, u.2.Valid u.1)
    (hs : Cache.Step mine c ch c') (hbound : c.disk.pageCount.toNat ≤ 2 ^ 52) (hc : c.Coherent)
    {u : PageId × Page} (hu : ch.update = some u) : Publishes c' m (done ++ [u]) := by
  intro id hid
  rw [overlay_append, overlay_cons, overlay_nil]
  rcases eq_or_ne id u.1 with rfl | hne
  · rw [Function.update_self]
    exact hs.shows_of_update hu
  · rw [Function.update_of_ne hne]
    have hid' : DataPage m.count id ∨ id ∈ done.map Prod.fst := by
      rw [List.map_append, List.mem_append] at hid
      rcases hid with hid | hid | hid
      · exact .inl hid
      · exact .inr hid
      · exact absurd (List.mem_singleton.mp hid) hne
    refine hs.shows hbound hc (overlay_seal hm hd hid') (fun page he => ?_) (h id hid')
    injection hu.symm.trans he with he
    exact hne (by rw [he])

theorem Publishes.visible {c : Commit} {cache : Cache} (h : Publishes cache m c.pages)
    (hc : c.Extends m) (hcount : cache.disk.pageCount = c.pageCount) :
    Visible cache (m.commit c) := by
  refine ⟨hcount, fun id hid => h id ?_⟩
  by_cases hold : DataPage m.count id
  · exact .inl hold
  · exact .inr (hc.fresh id hid hold)

end Step

theorem Chain.last {m : PageMap} {s : List Commit} {c : Commit} (hc : Chain m (s ++ [c])) :
    Chain m s ∧ c.Extends (m.commits s) := by
  obtain ⟨hs, hl⟩ := hc.of_append
  cases hl with
  | cons hc _ => exact ⟨hs, hc⟩

theorem Commit.Extends.installs_eq {m : PageMap} {c : Commit} (hc : c.Extends m) :
    c.installs = c.pages := Commit.installs_eq (fun u hu => (hc.data u hu).1)

namespace Stored

variable {h h' : History} {db db' : Database}

theorem not_clean {c : Cache} {id : PageId} (hc : ¬ c.Clean id) :
    ∃ frame, c.frame id = some frame ∧ frame.dirty = true := by
  rw [Cache.Clean, not_forall] at hc
  obtain ⟨frame, hf⟩ := hc
  rw [Classical.not_imp] at hf
  exact ⟨frame, hf.1, Bool.eq_true_of_not_eq_false hf.2⟩

theorem move (hst : Stored h db) {disk : DiskManager} (hpool : db'.pool = { db.pool with disk := disk })
    (hcount : disk.pageCount = db.pool.disk.pageCount)
    (hholds : ∀ id page, db.pool.disk.Holds id page → disk.Holds id page)
    (hfits : disk.file.contents.length ≤ maxFileSize) (hsince : ∀ c ∈ h.log.since, c ∈ h'.log.since)
    (hshown : Shown h' db') (hflushed : Flushed db') : Stored h' db' where
  coherent id frame hf hd := by
    rw [hpool] at hf ⊢
    exact hholds id frame.page (hst.coherent id frame hf hd)
  fits := by rw [hpool]; exact hfits
  small := by rw [hpool]; change disk.pageCount.toNat ≤ _; rw [hcount]; exact hst.small
  dirty id frame hf hd := by
    rw [hpool] at hf
    obtain ⟨c, hc, hp⟩ := hst.dirty id frame hf hd
    exact ⟨c, hsince c hc, hp⟩
  inside id frame hf hd := by
    rw [hpool] at hf ⊢
    change DataPage disk.pageCount id
    rw [hcount]
    exact hst.inside id frame hf hd
  aimed x hx ht := by
    rw [hpool] at hx ⊢
    change DataPage disk.pageCount x.id
    rw [hcount]
    exact hst.aimed x hx ht
  shown := hshown
  flushed := hflushed

section Pool

variable {a : Action Owner} {label : Label Owner} {pool : BufferPool Owner}

theorem shown_publishing (hst : Stored h db) {c : Commit} {todo : List (PageId × Page)}
    (hh : db.holder = .publishing c todo) : ∃ s done rest, h.log.since = s ++ [c] ∧
      c.installs = done ++ rest ∧ Remaining c rest db.holder db.pool.activities ∧
      db.pool.disk.pageCount = c.pageCount ∧ Publishes db.pool.cache (h.log.base.commits s) done := by
  have hs := hst.shown
  unfold Shown at hs
  rw [hh] at hs ⊢
  exact hs

theorem update_mem (hst : Stored h db) (hl : Locks db) (hchain : Chain h.log.base h.log.since)
    (ha : db.Allows a) (hs : db.pool.step a = some (pool, label)) {u : PageId × Page}
    (hu : label.update = some u) :
    DataPage db.pool.disk.pageCount u.1 ∧ ∃ c ∈ h.log.since, u ∈ c.pages := by
  have hcalls := BufferPool.step_calls hl.pool hs
  obtain ⟨x, hx, -, ht⟩ := hcalls.updated ha.not_edits hu
  obtain ⟨c, todo, -, hh⟩ := (hl.owned x hx).install ht
  obtain ⟨s, done, rest, hsince, hinst, hrem, hcount, -⟩ := hst.shown_publishing hh
  rcases hcalls.remaining ha.not_edits hl.unique (fun _ hx => BufferPool.step_fresh hs hx)
    (fun _ hx => ⟨ha.owned hx, Action.starts_not_drop hx⟩) hl.owned hrem with
    ⟨hn, -⟩ | ⟨hn, -⟩ | ⟨v, rest', rfl, hv, -⟩
  · cases hn.symm.trans hu
  · cases hn.symm.trans hu
  · cases hv.symm.trans hu
    rw [hsince] at hchain
    obtain ⟨-, hext⟩ := hchain.last
    have hmem : u ∈ c.pages := by
      rw [← hext.installs_eq, hinst]
      exact List.mem_append_right _ List.mem_cons_self
    rw [hcount]
    refine ⟨hext.data u hmem, c, ?_, hmem⟩
    rw [hsince]
    exact List.mem_append_right _ List.mem_cons_self

theorem not_updated (hl : Locks db) (ha : db.Allows a) (hs : db.pool.step a = some (pool, label))
    (hh : ∀ c todo, db.holder ≠ .publishing c todo) : label.update = none :=
  (BufferPool.step_calls hl.pool hs).not_updated ha.not_edits hl.owned hh

theorem pool_shown (hst : Stored h db) (hl : Locks db) (hbase : h.log.base.WellFormed)
    (hchain : Chain h.log.base h.log.since) (ha : db.Allows a) (hs : db.pool.step a = some (pool, label)) :
    Shown h { db with pool := pool, holder := db.holder.afterCall label.returned } := by
  have hstep := (BufferPool.step_steps hl.pool hst.small ha.not_sync hs).step
  have hquiet : ∀ {m : PageMap}, m.WellFormed → (∀ c todo, db.holder ≠ .publishing c todo) →
      Visible db.pool.cache m → Visible pool.cache m := fun hm hh hv =>
    hv.step hm hstep hst.small hst.coherent (not_updated hl ha hs hh)
  have hshown := hst.shown
  cases hh : db.holder with
  | durable c =>
    unfold Shown at hshown ⊢
    rw [hh] at hshown
    obtain ⟨s, hsince, hv⟩ := hshown
    rw [hsince] at hchain
    exact ⟨s, hsince, hquiet (hchain.last.1.wellFormed hbase) (by rw [hh]; rintro _ _ ⟨⟩) hv⟩
  | publishing c todo =>
    obtain ⟨s, done, rest, hsince, hinst, hrem, hcount, hpub⟩ := hst.shown_publishing hh
    have hchain' := hchain
    rw [hsince] at hchain'
    obtain ⟨hcs, hext⟩ := hchain'.last
    have hm := hcs.wellFormed hbase
    have hvalid : ∀ u ∈ done, u.2.Valid u.1 := by
      intro u hu
      apply hext.valid
      rw [← hext.installs_eq, hinst]
      exact List.mem_append_left _ hu
    have hcount' := hstep.pageCount.trans hcount
    have hrem' := (BufferPool.step_calls hl.pool hs).remaining ha.not_edits hl.unique
      (fun _ hx => BufferPool.step_fresh hs hx)
      (fun _ hx => ⟨ha.owned hx, Action.starts_not_drop hx⟩) hl.owned hrem
    unfold Shown
    rw [← hh]
    rcases hrem' with ⟨-, hf⟩ | ⟨hu, hr⟩ | ⟨u, rest', rfl, hu, hr⟩
    · simp only [hf]
    · have ⟨todo', hp, _⟩ := hr
      simp only [hp] at hr ⊢
      exact ⟨s, done, rest, hsince, hinst, hr, hcount',
        hpub.step hm hvalid hstep hst.small hst.coherent hu⟩
    · have ⟨todo', hp, _⟩ := hr
      simp only [hp] at hr ⊢
      refine ⟨s, done ++ [u], rest', hsince, ?_, hr, hcount',
        hpub.snoc hm hvalid hstep hst.small hst.coherent hu⟩
      rw [hinst, List.append_assoc]
      rfl
  | failed f =>
    cases f with
    | publish c => trivial
    | _ =>
      intro hn
      exact hquiet (hchain.wellFormed hbase) (by rw [hh]; rintro _ _ ⟨⟩)
        ((shown_settled hh trivial).mp hshown hn)
  | checkpointing auto stage =>
    have hv : h.stuck = none → Visible pool.cache h.log.current := fun hn =>
      hquiet (hchain.wellFormed hbase) (by rw [hh]; rintro _ _ ⟨⟩)
        ((shown_settled hh trivial).mp hshown hn)
    exact (shown_settled rfl (((Holder.checkpointing auto stage).afterCall_spec _).settled trivial)).mpr hv
  | _ =>
    intro hn
    exact hquiet (hchain.wellFormed hbase) (by rw [hh]; rintro _ _ ⟨⟩)
      ((shown_settled hh trivial).mp hshown hn)

theorem pool_flushed (hst : Stored h db) (hl : Locks db) (ha : db.Allows a)
    (hs : db.pool.step a = some (pool, label)) :
    Flushed { db with pool := pool, holder := db.holder.afterCall label.returned } := by
  have hsteps := BufferPool.step_steps hl.pool hst.small ha.not_sync hs
  have hcalls := BufferPool.step_calls hl.pool hs
  have hflushed := hst.flushed
  cases hh : db.holder with
  | checkpointing auto stage =>
    have hclean : ∀ id, db.pool.cache.Clean id → pool.cache.Clean id := by
      intro id hc
      have hn := not_updated hl ha hs (by rw [hh]; rintro _ _ ⟨⟩)
      refine hsteps.step.clean (hcalls.unmarked ha.not_edits) (fun page he => ?_) hc
      cases hn.symm.trans he
    cases stage with
    | flush i todo =>
      unfold Flushed at hflushed
      rw [hh] at hflushed
      obtain ⟨hdrops, hahead⟩ := hflushed
      have hahead' : ∀ id, ¬ pool.cache.Clean id → i < pool.shardFor id ∨
          i = pool.shardFor id ∧ ∀ ids, todo = some ids → id ∈ ids := by
        intro id hd
        rw [BufferPool.shardFor_congr hsteps.length]
        exact hahead id (fun hc => hd (hclean id hc))
      unfold Flushed
      rw [← hh]
      rcases hcalls.flushing (fun _ hx => ⟨ha.owned hx, Action.starts_not_drop hx⟩) hl.owned hh hclean
        hdrops with hf | ⟨hd, hf | ⟨id, ids, rfl, hid, hf⟩⟩
      · simp only [hf]
      · simp only [hf]
        simp only [hh]
        exact ⟨hd, hahead'⟩
      · simp only [hf]
        refine ⟨hd, fun id' hd' => ?_⟩
        rcases hahead' id' hd' with hlt | ⟨he, hm⟩
        · exact .inl hlt
        · refine .inr ⟨he, ?_⟩
          rintro _ ⟨⟩
          rcases List.mem_cons.mp (hm _ rfl) with rfl | hm
          · exact absurd hid hd'
          · exact hm
    | _ =>
      unfold Flushed at hflushed
      rw [hh] at hflushed
      exact fun id => hclean id (hflushed id)
  | publishing c todo =>
    unfold Flushed
    have hspec := (Holder.publishing c todo).afterCall_spec label.returned
    generalize (Holder.publishing c todo).afterCall label.returned = holder' at hspec ⊢
    cases hspec with
    | same | installed | installFailed => trivial
  | failed f => trivial
  | _ => trivial

theorem aimed_step (hl : Locks db) (hsmall : db.pool.disk.pageCount.toNat ≤ 2 ^ 52) (ha : db.Allows a)
    (hwriter : ∀ k id rd, a = .fetch (.writer k) id rd → DataPage db.pool.disk.pageCount id)
    (hs : db.pool.step a = some (pool, label))
    (h : ∀ x ∈ db.pool.activities, x.task = .fetch → DataPage db.pool.disk.pageCount x.id) :
    ∀ x ∈ pool.activities, x.task = .fetch → DataPage pool.disk.pageCount x.id := by
  intro x hx ht
  have hcount : pool.disk.pageCount = db.pool.disk.pageCount :=
    (BufferPool.step_steps hl.pool hsmall ha.not_sync hs).step.pageCount
  rw [hcount]
  rcases (BufferPool.step_calls hl.pool hs).fetches hx ht with hx | hx
  · exact h x hx ht
  · cases a with
    | fetch owner id rd =>
      injection hx with hx
      subst hx
      cases owner with
      | reader r k => exact checkDataPage_ok_iff.mp ha.2
      | writer k => exact hwriter k id rd rfl
      | publisher => exact False.elim ha
      | checkpointer => exact False.elim ha
    | install => cases hx; cases ht
    | flush => cases hx; cases ht
    | _ => cases hx

theorem poolStep (hst : Stored h db) (hl : Locks db) (hbase : h.log.base.WellFormed)
    (hchain : Chain h.log.base h.log.since) (ha : db.Allows a)
    (hwriter : ∀ k id rd, a = .fetch (.writer k) id rd → DataPage db.pool.disk.pageCount id)
    (hs : db.pool.step a = some (pool, label)) :
    Stored h { db with pool := pool, holder := db.holder.afterCall label.returned } := by
  have hsteps := BufferPool.step_steps hl.pool hst.small ha.not_sync hs
  have hcalls := BufferPool.step_calls hl.pool hs
  have hcount : pool.disk.pageCount = db.pool.disk.pageCount := hsteps.step.pageCount
  refine ⟨hsteps.step.coherent hst.small hst.coherent, hsteps.step.fits hst.fits, ?_, ?_, ?_, ?_,
    hst.pool_shown hl hbase hchain ha hs, hst.pool_flushed hl ha hs⟩
  · change pool.disk.pageCount.toNat ≤ _
    rw [hcount]
    exact hst.small
  · intro id frame' hf hd
    rcases hsteps.step.dirty (hcalls.unmarked ha.not_edits) hf hd with hu | ⟨frame, hframe, hdirty, hp⟩
    · exact (hst.update_mem hl hchain ha hs hu).2
    · obtain ⟨c, hc, hm⟩ := hst.dirty id frame hframe hdirty
      refine ⟨c, hc, ?_⟩
      have hvalid := hchain.valid (List.mem_flatMap_of_mem hc hm)
      rcases hp with hp | hp
      · rw [hp]
        exact hm
      · rw [hp, hvalid.seal_eq]
        exact hm
  · intro id frame' hf hd
    change DataPage pool.disk.pageCount id
    rw [hcount]
    rcases hsteps.step.dirty (hcalls.unmarked ha.not_edits) hf hd with hu | ⟨frame, hframe, hdirty, -⟩
    · exact (hst.update_mem hl hchain ha hs hu).1
    · exact hst.inside id frame hframe hdirty
  · exact aimed_step hl hst.small ha hwriter hs hst.aimed

end Pool

end Stored

end OxenDB
