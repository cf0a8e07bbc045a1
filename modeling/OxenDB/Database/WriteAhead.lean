import OxenDB.Database.Publish

namespace OxenDB

open Lib

/-- The images that `replay` would select from the part of the log under an fsync, in log order. -/
def Database.loggedImages (db : Database) : List (PageId × Page) :=
  match Wal.open (db.walFile.contents.take db.wal.durableLen) with
  | .error _ => []
  | .ok o => committedImages (committedTxns o.records) (o.records.map (·.record))

def Database.ResetClean (db : Database) : Prop :=
  ∀ old header t w, db.walFile.unsynced = .reset old header t w → ∀ id, db.pool.cache.Clean id

def Database.CountCommitted (db : Database) (m₀ : PageMap) (h : History) : Prop :=
  ∃ cs, cs <+: h.all ∧ db.pool.disk.pageCount = (m₀.commits cs).count

section Log

variable {m₀ : PageMap} {h : History} {db : Database}

theorem Log.filed_take {l : Log} {f : WalFile} (hf : l.Filed f)
    (hr : ∀ old header t w, f.unsynced ≠ .reset old header t w) :
    f.contents.take l.body.length = l.body := by
  unfold Log.Filed at hf
  cases hu : f.unsynced with
  | none =>
    simp only [hu] at hf
    rw [hf, List.take_length]
  | batch off bytes =>
    simp only [hu] at hf
    obtain ⟨rfl, htake, -⟩ := hf
    exact htake
  | reset old header t w => exact absurd hu (hr old header t w)

theorem Log.committedImages {l : Log} : ∃ o, Wal.open l.body = .ok o ∧
    OxenDB.committedImages (committedTxns o.records) (o.records.map (·.record)) =
      l.since.flatMap (·.images) := by
  obtain ⟨o, ho, hrecords, -, -⟩ := Wal.open_encoded (l.since.flatMap (·.records)) l.firstSeq []
    (noRecord_nil _)
  rw [List.append_nil] at ho
  have hds : o.records.map (·.record) = (l.since.map Commit.block).flatMap (·.records) ++ [] := by
    rw [hrecords, decodedAll_record, List.flatMap_map, List.append_nil]
    rfl
  refine ⟨o, ho, ?_⟩
  rw [committedImages_blocks hds (by rintro r ⟨⟩), List.flatMap_map]
  rfl

theorem Inv.loggedImages (hi : Inv m₀ h db) (hr : ∀ old header t w, db.walFile.unsynced ≠ .reset old header t w) :
    db.loggedImages = h.log.since.flatMap (·.images) := by
  have htake := Log.filed_take hi.logged.file hr
  obtain ⟨o, ho, himages⟩ := @Log.committedImages h.log
  rw [Database.loggedImages, hi.logged.durableLen, htake, ho]
  exact himages

end Log

section Step

variable {m₀ : PageMap} {h : History} {db db' : Database} {e : Event}

theorem Inv.not_resetting (hi : Inv m₀ h db) {c : Commit} {todo : List (PageId × Page)}
    (hh : db.holder = .publishing c todo) : db.walFile.unsynced = .none :=
  hi.unsynced_none hh trivial (by rintro f ⟨⟩) (hi.locks.healthy (by rw [hh]; trivial))

theorem Database.ResetClean.pool (hc : db.ResetClean) (hi : Inv m₀ h db) {a : Action Owner}
    {label : Label Owner} {pool : BufferPool Owner} (ha : db.Allows a)
    (hs : db.pool.step a = some (pool, label)) (holder : Holder) :
    Database.ResetClean { db with pool := pool, holder := holder } := by
  intro old header t w hu id
  have hstep := (BufferPool.step_steps hi.locks.pool hi.stored.small ha.not_sync hs).step
  have hnone := Stored.not_updated hi.locks ha hs (fun c todo hh => by
    cases (hi.not_resetting hh).symm.trans hu)
  refine hstep.clean ((BufferPool.step_calls hi.locks.pool hs).unmarked ha.not_edits) (fun page he => ?_)
    (hc old header t w hu id)
  cases hnone.symm.trans he

theorem Database.ResetClean.step (hc : db.ResetClean) (hi : Inv m₀ h db) (hs : Database.Step db e db') :
    db'.ResetClean := by
  cases hs with
  | pool ha hs => exact hc.pool hi ha hs _
  | @copyPage _ i k _ _ _ _ _ _ _ hs _ =>
    exact hc.pool hi (show db.Allows (.guard i k .read) from .inr (.inl rfl)) hs _
  | walWrite | walWriteFail | walSync | resetSync =>
    rintro _ _ _ _ ⟨⟩
  | truncate hh | truncateFail _ hh | rewrite hh | rewriteFail _ hh =>
    intro _ _ _ _ _
    exact hi.stored.clean_of hh (by rintro i todo ⟨⟩)
  | _ => exact hc

theorem Database.CountCommitted.step (hc : db.CountCommitted m₀ h) (hi : Inv m₀ h db)
    (hs : Database.Step db e db') : db'.CountCommitted m₀ (h.record e) := by
  obtain ⟨cs, hcs, hcount⟩ := hc
  have hpool : ∀ {a label pool}, db.Allows a → db.pool.step a = some (pool, label) →
      pool.disk.pageCount = (m₀.commits cs).count := by
    intro a label pool ha hs
    rw [← hcount]
    exact (BufferPool.step_steps hi.locks.pool hi.stored.small ha.not_sync hs).step.pageCount
  cases hs with
  | pool ha hs => exact ⟨cs, hcs, hpool ha hs⟩
  | @copyPage _ i k _ _ _ _ _ _ _ hs _ =>
    exact ⟨cs, hcs, hpool (show db.Allows (.guard i k .read) from .inr (.inl rfl)) hs⟩
  | walSync => exact ⟨cs, hcs.trans (List.prefix_append _ _), hcount⟩
  | @publishLock c disk hh _ hd =>
    have hshown := hi.stored.shown
    unfold Shown at hshown
    rw [hh] at hshown
    obtain ⟨s, hsince, -⟩ := hshown
    rw [DiskManager.setPageCount] at hd
    split_ifs at hd
    cases hd
    refine ⟨h.all, List.prefix_refl _, ?_⟩
    rw [hi.logged.whole, Log.current, hsince, PageMap.commits_append]
    rfl
  | @poison f _ =>
    cases f with
    | log => exact ⟨cs, hcs, hcount⟩
    | publish c => exact ⟨cs, hcs, hcount⟩
    | checkpoint auto => exact ⟨cs, hcs, hcount⟩
  | _ => exact ⟨cs, hcs, hcount⟩

theorem Cache.Step.unwritten {mine : PageId → Prop} {c c' : Cache} {ch : Change}
    (h : Cache.Step mine c ch c') (hw : ch.written = none) : c'.disk = c.disk := by
  have hnone : ∀ {frame : Frame} {id : PageId} {w : Frame.WroteBack},
      frame.WriteBackSpec c.disk id w → w.written = none → w.disk = c.disk := by
    intro frame id w hspec hn
    cases hspec with
    | clean => rfl
    | refused => rfl
    | beyond => cases hn
    | failed => cases hn
    | ok => cases hn
  cases h with
  | @writeBack id frame wr _ _ => exact hnone (frame.writeBack_spec c.disk id wr) hw
  | @evict id frame wr _ _ _ => exact hnone (frame.writeBack_spec c.disk id wr) hw
  | _ => rfl

end Step

theorem History.stuck_none (m₀ : PageMap) (seq : UInt64) {es : List Event}
    (h : ∀ c, Event.poisoned (.publish c) ∉ es) : (History.of m₀ seq es).stuck = none := by
  induction es using List.reverseRecOn with
  | nil => rfl
  | append_singleton es e ih =>
    have hes := ih (fun c hm => h c (List.mem_append_left _ hm))
    rw [History.of_snoc]
    cases e with
    | poisoned f =>
      cases f with
      | publish c => exact absurd (List.mem_append_right _ List.mem_cons_self) (h c)
      | _ => exact hes
    | _ => exact hes

theorem overlay_images (f : PageId → Page) (cs : List Commit) {id : PageId} (hid : id ≠ PageId.HEADER) :
    overlay f (cs.flatMap (·.images)) id = overlay f (cs.flatMap (·.pages)) id := by
  induction cs generalizing f with
  | nil => rfl
  | cons c cs ih =>
    have hheader : overlay f (if c.grew then [(PageId.HEADER, (FileHeader.mk c.pageCount).encode)] else []) id =
        f id := by
      apply overlay_of_not_mem
      split_ifs
      · simpa using hid
      · simp
    rw [List.flatMap_cons, List.flatMap_cons, Commit.images, overlay_append, overlay_append, overlay_append, ih]
    apply overlay_congr
    intro _
    apply overlay_congr
    intro _
    exact hheader

section Images

variable {m₀ : PageMap} {h : History} {db db' : Database} {e : Event} {id : PageId} {frame : Frame}

theorem Database.ResetClean.not_resetting (hc : db.ResetClean) (hf : db.pool.cache.frame id = some frame)
    (hd : frame.dirty = true) : ∀ old header t w, db.walFile.unsynced ≠ .reset old header t w := by
  intro old header t w hu
  rw [hc old header t w hu id frame hf] at hd
  cases hd

theorem Inv.dirty_logged (hi : Inv m₀ h db) (hc : db.ResetClean) (hf : db.pool.cache.frame id = some frame)
    (hd : frame.dirty = true) : (id, frame.page) ∈ db.loggedImages ∧ frame.page.Valid id := by
  obtain ⟨c, hcm, hu⟩ := hi.stored.dirty id frame hf hd
  refine ⟨?_, hi.logged.chain.valid (List.mem_flatMap_of_mem hcm hu)⟩
  rw [hi.loggedImages (hc.not_resetting hf hd)]
  refine List.mem_flatMap_of_mem hcm ?_
  rw [Commit.images]
  exact List.mem_append_right _ hu

theorem Inv.dirty_latest (hi : Inv m₀ h db) (hc : db.ResetClean) (hf : db.pool.cache.frame id = some frame)
    (hd : frame.dirty = true) (hs : db.holder.Settled) (hstuck : h.stuck = none) (f : PageId → Page) :
    overlay f db.loggedImages id = frame.page := by
  have hv := (shown_settled rfl hs).mp hi.stored.shown hstuck
  have hid : DataPage h.log.current.count id := by
    rw [← hv.1]
    exact hi.stored.inside id frame hf hd
  have hkey : id ∈ db.loggedImages.map Prod.fst :=
    List.mem_map.mpr ⟨_, (hi.dirty_logged hc hf hd).1, rfl⟩
  have hshow := (Cache.shows_cached hf).mp (hv.2 id hid)
  rw [overlay_eq_of_mem f h.log.base.page _ _ hkey, hshow,
    hi.loggedImages (hc.not_resetting hf hd), overlay_images _ _ hid.1, Log.current, PageMap.commits_page]

theorem Inv.written_logged (hi : Inv m₀ h db) (hc : db.ResetClean) {a : Action Owner} {label : Label Owner}
    {pool : BufferPool Owner} (ha : db.Allows a) (hs : db.pool.step a = some (pool, label))
    {u : PageId × Page} (hu : label.written = some u) : u ∈ db.loggedImages := by
  have hstep := (BufferPool.step_steps hi.locks.pool hi.stored.small ha.not_sync hs).step
  obtain ⟨frame, hf, hd, hpage⟩ := hstep.written hu
  obtain ⟨hmem, hvalid⟩ := hi.dirty_logged hc hf hd
  rwa [← hvalid.seal_eq, ← hpage] at hmem

end Images

namespace Database

variable {m₀ : PageMap} {db₀ db : Database} {es : List Event}

theorem write_ahead_run (hs : db₀.Starts m₀) (hr : Run Database.Step db₀ es db) :
    db.ResetClean ∧ db.CountCommitted m₀ (History.of m₀ db₀.wal.nextSeq es) := by
  apply hr.invariant (I := fun es db => db.ResetClean ∧ db.CountCommitted m₀ (History.of m₀ db₀.wal.nextSeq es))
  · obtain ⟨o, n, auto, pool, ho, hp, rfl⟩ := hs.eq
    obtain ⟨seq, -, hfile⟩ := ho.log
    constructor
    · intro old header t w hu
      cases (congrArg WalFile.unsynced hfile).symm.trans hu
    · refine ⟨[], List.nil_prefix, ?_⟩
      change pool.disk.pageCount = m₀.count
      rw [(BufferPool.new_ok hp).2.1, ho.count]
  · rintro ls s l s' hls ⟨hreset, hcount⟩ hstep
    have hi := Inv.run hs hls
    rw [History.of_snoc]
    exact ⟨hreset.step hi hstep, hcount.step hi hstep⟩

/-- Every dirty frame, and every page that is written to the data file, is an image of a durable
commit that the log still holds, and nothing else but the header is written. -/
theorem write_ahead (hs : db₀.Starts m₀) (hr : Run Database.Step db₀ es db) :
    (∀ id frame, db.pool.cache.frame id = some frame → frame.dirty = true →
      (id, frame.page) ∈ db.loggedImages ∧
        (db.holder.Settled → (∀ c, Event.poisoned (.publish c) ∉ es) →
          ∀ f, overlay f db.loggedImages id = frame.page)) ∧
      ∀ e db', Database.Step db e db' →
        (∀ a label u, e = .pool a label → label.written = some u → u ∈ db.loggedImages) ∧
        (db'.pool.disk.file.contents = db.pool.disk.file.contents ∨
          (∃ a label u, e = .pool a label ∧ label.written = some u) ∨
          ∃ ok n cs, e = .header ok ∧ cs <+: (History.of m₀ db₀.wal.nextSeq es).all ∧
            db'.pool.disk.file.contents = writeAt db.pool.disk.file.contents 0
              ((FileHeader.mk (m₀.commits cs).count).encode.data.take n)) := by
  have hi := Inv.run hs hr
  obtain ⟨hreset, cs, hcs, hcount⟩ := write_ahead_run hs hr
  constructor
  · intro id frame hf hd
    refine ⟨(hi.dirty_logged hreset hf hd).1, fun hset hn => ?_⟩
    exact hi.dirty_latest hreset hf hd hset (History.stuck_none _ _ hn)
  · intro e db' hstep
    refine ⟨?_, ?_⟩
    · rintro a label u rfl hw
      cases hstep with
      | pool ha hs => exact hi.written_logged hreset ha hs hw
    · cases hstep with
      | @pool a label pool ha hs =>
        cases hw : label.written with
        | none =>
          have hstep := (BufferPool.step_steps hi.locks.pool hi.stored.small ha.not_sync hs).step
          exact .inl (congrArg (·.file.contents) (hstep.unwritten hw))
        | some u => exact .inr (.inl ⟨a, label, u, rfl, hw⟩)
      | copyPage _ _ hs _ =>
        obtain ⟨r, -, hr⟩ := Option.map_eq_some_iff.mp hs
        cases hr
        exact .inl rfl
      | writeFileHeader =>
        refine .inr (.inr ⟨true, pageSize, cs, rfl, hcs, ?_⟩)
        rw [← hcount]
        rfl
      | writeFileHeaderFail n =>
        refine .inr (.inr ⟨false, n, cs, rfl, hcs, ?_⟩)
        rw [← hcount]
        rfl
      | publishLock _ _ hd => exact .inl (congrArg (·.contents) (DiskManager.setPageCount_file hd))
      | syncPages | syncedPages | syncPagesFail | syncHeader | syncedHeader | syncHeaderFail =>
        exact .inl (DataFile.sync_contents _ _)
      | _ => exact .inl rfl

theorem write_ahead_first :
    smallest.published.pool.cache.frame 1 = some ⟨firstPage, true⟩ ∧
      (1, firstPage) ∈ smallest.published.loggedImages := by
  have hframe : smallest.published.pool.cache.frame 1 = some ⟨firstPage, true⟩ :=
    @holding_cached Owner { DiskManager.create with pageCount := 2 } 1 ⟨firstPage, true⟩
  exact ⟨hframe, ((write_ahead smallest_starts smallest_published).1 1 _ hframe rfl).1⟩

end Database

end OxenDB
