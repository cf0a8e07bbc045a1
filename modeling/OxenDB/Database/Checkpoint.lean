import OxenDB.Database.Crash
import OxenDB.Database.WriteAhead

namespace OxenDB

open Lib

def Database.HeaderStands (db : Database) : Prop :=
  db.poisoned = false → (∀ f, db.holder ≠ .failed f) →
    ∃ v, db.pool.disk.file.headers.getLast? = some v ∧
      readAt db.pool.disk.file.contents (slotOffset PageId.HEADER) pageSize = some v

theorem Database.Step.unpoisoned {db db' : Database} {e : Event} (hs : Database.Step db e db')
    (hp : db'.poisoned = false) : db.poisoned = false := by
  cases hs with
  | poison => cases hp
  | _ => exact hp

theorem Database.guarded_of_unpoisoned {db₀ db : Database} {es : List Event}
    (hr : Run Database.Step db₀ es db) (hp : db.poisoned = false) :
    Run (Restrict Database.Step Guarded) db₀ es db := by
  induction hr with
  | start => exact .start
  | step _ hs ih =>
    have hp' := hs.unpoisoned hp
    exact (ih hp').step ⟨hs, fun _ => hp'⟩

section Header

variable {m₀ : PageMap} {h : History} {db db' : Database} {e : Event}

theorem DataFile.sync_getLast {f : DataFile} (ev : SyncEvent) :
    (f.sync ev).headers.getLast? = f.headers.getLast? := by
  cases ev with
  | start => rfl
  | fail => rfl
  | finish =>
    change (if f.slots PageId.HEADER = .syncing then f.headers.drop (f.headers.length - 1)
      else f.headers).getLast? = _
    split_ifs
    · rcases List.eq_nil_or_concat f.headers with hn | ⟨l, v, hl⟩
      · rw [hn]
        rfl
      · rw [hl]
        simp
    · rfl

theorem readAt_header (contents : Bytes) (page : Page) :
    readAt (writeAt contents 0 (page.data.take pageSize)) (slotOffset PageId.HEADER) pageSize = some page.data := by
  have hread := readAt_writeAt_eq contents page (show PageId.HEADER.toNat < 2 ^ 52 by decide)
  rw [List.take_of_length_le page.size.le]
  exact hread

theorem Database.HeaderStands.pool (hst : db.HeaderStands) (hi : Inv m₀ h db) {a : Action Owner}
    {label : Label Owner} {pool : BufferPool Owner} (ha : db.Allows a)
    (hs : db.pool.step a = some (pool, label)) {holder : Holder}
    (hh : (∀ f, holder ≠ .failed f) → ∀ f, db.holder ≠ .failed f) :
    Database.HeaderStands { db with pool := pool, holder := holder } := by
  intro hp hf
  have hstep := (BufferPool.step_steps hi.locks.pool hi.stored.small ha.not_sync hs).step
  obtain ⟨v, hlast, hread⟩ := hst hp (hh hf)
  refine ⟨v, ?_, (hstep.stable hi.stored.small (.inr rfl)).2 v hread⟩
  rw [← hlast]
  exact congrArg _ hstep.headers

theorem Database.HeaderStands.step (hst : db.HeaderStands) (hi : Inv m₀ h db)
    (hs : Database.Step db e db') : db'.HeaderStands := by
  have move : ∀ {holder}, db.holder = holder → (∀ f, holder ≠ .failed f) → db.poisoned = false →
      ∃ v, db.pool.disk.file.headers.getLast? = some v ∧
        readAt db.pool.disk.file.contents (slotOffset PageId.HEADER) pageSize = some v := by
    intro holder hh hf hp
    refine hst hp (fun f he => hf f ?_)
    rw [← hh, he]
  cases hs with
  | refuse | beginRead | readLock | readDrop | readCount | readOutside | beginWrite
  | writeLockPoisoned | writerCount | writerOutside | readDirty | beginCheckpoint => exact hst
  | pool ha hs =>
    refine hst.pool hi ha hs (fun hf f he => ?_)
    obtain ⟨f', hf'⟩ := Holder.afterCall_failed _ _ f he
    exact hf f' hf'
  | @copyPage _ i k _ _ _ _ _ hh _ hs _ =>
    refine hst.pool hi (show db.Allows (.guard i k .read) from .inr (.inl rfl)) hs (fun _ f he => ?_)
    cases hh.symm.trans he
  | writeLock _ hh | allocatePage _ hh | editPage _ hh | rollback hh | commitEmpty hh
  | commitMalformed hh | commitLog hh | walWrite hh | walSync hh | publishDone hh | commitDone hh
  | autoCheckpoint hh | checkpointLock _ hh | snapshot hh | nextShard hh | flushedAll hh
  | truncate hh | rewrite hh | resetSync hh =>
    intro hp _
    exact move hh (by rintro f ⟨⟩) hp
  | publishLock hh _ hd =>
    intro hp _
    rw [show (db.setDisk _).pool.disk.file = db.pool.disk.file from DiskManager.setPageCount_file hd]
    exact move hh (by rintro f ⟨⟩) hp
  | syncPages hh | syncedPages hh | syncHeader hh | syncedHeader hh =>
    intro hp _
    obtain ⟨v, hlast, hread⟩ := move hh (by rintro f ⟨⟩) hp
    refine ⟨v, (DataFile.sync_getLast _).trans hlast, ?_⟩
    rw [← hread]
    exact congrArg (readAt · _ _) (DataFile.sync_contents _ _)
  | writeFileHeader hh =>
    intro _ _
    refine ⟨(FileHeader.mk db.pool.disk.pageCount).encode.data, ?_, ?_⟩
    · change (db.pool.disk.file.headers ++ [_]).getLast? = _
      rw [List.getLast?_concat]
    · exact readAt_header db.pool.disk.file.contents (FileHeader.mk db.pool.disk.pageCount).encode
  | poison => rintro ⟨⟩
  | _ =>
    intro _ hf
    exact absurd rfl (hf _)

end Header

theorem header_stands_run {m₀ : PageMap} {db₀ db : Database} {es : List Event} (hs : db₀.Starts m₀)
    (hr : Run Database.Step db₀ es db) : db.HeaderStands := by
  apply hr.invariant (I := fun _ db => db.HeaderStands)
  · obtain ⟨o, n, auto, pool, ho, hp, rfl⟩ := hs.eq
    intro _ _
    refine ⟨m₀.slot PageId.HEADER, ?_, ?_⟩
    · change pool.disk.file.headers.getLast? = _
      rw [(BufferPool.new_ok hp).2.1, ho.headers]
      rfl
    · change readAt pool.disk.file.contents _ _ = _
      rw [(BufferPool.new_ok hp).2.1]
      apply ho.slots
      rw [UInt64.lt_iff_toNat_lt]
      exact Nat.pos_of_ne_zero (fun h0 => ho.count_pos (UInt64.toNat_inj.mp h0))
  · intro ls s l s' hls hst hstep
    exact hst.step (Inv.run hs hls) hstep

theorem openedAs_alone {data : Bytes} {wal : Option Bytes} {m : PageMap} (hm : m.WellFormed)
    (hlt : m.count.toNat < 2 ^ 51) (hlen : data.length ≤ maxFileSize)
    (hpages : ∀ id, DataPage m.count id → readAt data (slotOffset id) pageSize = some (m.page id).data)
    (hheader : readAt data (slotOffset PageId.HEADER) pageSize = some (m.slot PageId.HEADER))
    (hw : wal = none ∨ ∃ w, wal = some w ∧ LogHolds w []) :
    ∃ o, openExisting data wal = .ok o ∧ OpenedAs o m := by
  have hslots : ∀ id < m.count, readAt data (slotOffset id) pageSize = some (m.slot id) := by
    intro id hid
    rcases eq_or_ne id PageId.HEADER with rfl | hne
    · exact hheader
    · rw [m.slot_data hne]
      exact hpages id ⟨hne, hid⟩
  rcases hw with rfl | ⟨w, rfl, hw⟩
  · have hopen := DiskManager.open_ok hm.count_pos hlt hslots
    have hex : openExisting data none = .ok ⟨⟨⟨data,
        fun id => if slotOffset id + pageSize ≤ data.length then .synced else .written,
        [m.slot PageId.HEADER]⟩, m.count⟩, Wal.create.1, ⟨Wal.create.2, .none⟩,
        ⟨false, ⟨0, 0, 0⟩, none⟩⟩ := by
      simp only [openExisting, hopen]
    refine ⟨_, hex, rfl, hm.count_pos, hm.pages, hslots, ?_, ?_, rfl, hlen, ⟨0, rfl, rfl⟩⟩
    · intro id hid
      exact if_pos hid
    · intro id
      simp only
      split_ifs <;> decide
  · apply Recoverable.open
    exact ⟨[], hw, (Chain.nil m).restores hm hlt hlen (fun id hid _ => hpages id hid) (fun _ => hheader)⟩

namespace Database

variable {m₀ : PageMap} {db₀ db db' : Database} {es : List Event} {auto : Option Commit}

/-- A checkpoint that returns leaves a data file from which alone the database opens as it is. -/
theorem checkpoint_self_sufficient (hs : db₀.Starts m₀) (hr : Run Database.Step db₀ es db)
    (hp : db.poisoned = false) (hd : Database.Step db (.resetDone auto) db') :
    ∃ m, m = m₀.commits (History.of m₀ db₀.wal.nextSeq es).all ∧ Visible db'.pool.cache m ∧
      db'.pool.disk.file.SelfSufficient m ∧
      readAt db'.pool.disk.file.contents 0 pageSize = some (FileHeader.mk m.count).encode.data ∧
      ∀ data wal, data = db'.pool.disk.file.contents ∨ db'.pool.disk.file.Survives data →
        wal = none ∨ (∃ w, wal = some w ∧ LogHolds w []) →
          ∃ o, openExisting data wal = .ok o ∧ OpenedAs o m := by
  obtain ⟨hi, hdur⟩ := durable_run hs (guarded_of_unpoisoned hr hp)
  have hstands := header_stands_run hs hr
  cases hd with
  | resetSync hh =>
    have hphase := hi.logged.phase
    rw [hh] at hphase
    obtain ⟨hclean, hself⟩ := hdur.resetting _ _ _ _ (by rw [hphase.2])
    have hvisible := hi.visible hh trivial hp
    obtain ⟨v, hlast, hheader⟩ := hstands hp (by rw [hh]; rintro f ⟨⟩)
    rw [hself.headers, List.getLast?_singleton, Option.some_inj] at hlast
    rw [← hlast] at hheader
    refine ⟨_, rfl, ?_⟩
    rw [hi.logged.whole]
    refine ⟨hvisible, hself, ?_, fun data wal hdata hwal => ?_⟩
    · rw [← PageMap.slot_header]
      exact hheader
    · have hlt := hi.stored.count_lt hi.logged hh (by rintro i todo ⟨⟩) hp
      rcases hdata with rfl | hsurv
      · exact openedAs_alone hi.logged.wellFormed hlt hi.stored.fits
          (fun id hid => (hself.pages id hid).2) hheader hwal
      · refine openedAs_alone hi.logged.wellFormed hlt hsurv.2.1
          (fun id hid => hsurv.keeps.lasts hid.1 (hself.pages id hid)) ?_ hwal
        refine hsurv.header (PageMap.slot_length _ _) (fun v hv => ?_)
        change v ∈ db.pool.disk.file.headers at hv
        rw [hself.headers] at hv
        exact List.mem_singleton.mp hv

theorem flush_empty_run {sh : Shard Owner} {disk : DiskManager} (hh : db.holder = .checkpointing auto (.flush 0 none))
    (hpool : db.pool = ⟨[sh], disk⟩) (hheld : sh.held = none) (hempty : ∀ id, sh.state.pageTable id = none) :
    Run Database.Step db [.tau, .tau, .tau] { db with holder := .checkpointing auto .fsyncPages } := by
  have hlock : db.pool.lockState 0 = some sh := by
    rw [hpool, BufferPool.lockState]
    simp [hheld]
  have hsnapshot : Database.Step db .tau { db with holder := .checkpointing auto (.flush 0 (some [])) } :=
    .snapshot hh hlock List.nodup_nil (fun id => by simp [hempty id])
  refine ((Run.start.step hsnapshot).step (.nextShard rfl)).step (.flushedAll rfl ?_)
  rw [hpool]
  rfl

theorem sync_run (hh : db.holder = .checkpointing auto .fsyncPages) :
    Run Database.Step db [.tau, .tau]
      { (db.syncDisk .start).syncDisk .finish with holder := .checkpointing auto .header } := by
  have hrun := (Run.start.step (Database.Step.syncPages hh)).step (.syncedPages rfl)
  exact hrun

theorem header_run (hh : db.holder = .checkpointing auto .header) :
    Run Database.Step db [.header true, .tau, .tau]
      { ((db.writeHeader pageSize).syncDisk .start).syncDisk .finish with holder := .checkpointing auto .reset } := by
  have hrun := ((Run.start.step (Database.Step.writeFileHeader hh)).step (.syncHeader rfl)).step (.syncedHeader rfl)
  exact hrun

theorem rewritten_run {n : ℕ} {seq : UInt64} (hh : db.holder = .checkpointing auto .reset)
    (hwal : db.wal = ⟨n, [], seq, false⟩) :
    Run Database.Step db [.truncated true, .rewritten true] { db with
      holder := .checkpointing auto .rewritten
      walFile := ⟨encodeHeader seq, .reset db.walFile.contents (encodeHeader seq) true true⟩ } := by
  have hreset : db.wal.checkReset = .ok () := by
    rw [hwal]
    rfl
  have hrun := (Run.start.step (Database.Step.truncate hh hreset)).step (.rewrite rfl rfl)
  simp only [hwal, writeAt_header] at hrun ⊢
  exact hrun

structure Shard.Only (id : PageId) (frame : Frame) (sh : Shard Owner) : Prop where
  frames : sh.frames = [frame]
  table : sh.state.pageTable = Function.update (fun _ => none) id (some 0)
  counts : sh.state.pinCounts = [0]
  held : sh.held = none
  pins : sh.pins = []

theorem holding_only (id : PageId) (frame : Frame) : Shard.Only id frame (Shard.holding id frame) :=
  ⟨rfl, rfl, rfl, rfl, rfl⟩

theorem Shard.Only.snapshot {sh : Shard Owner} {id : PageId} {frame : Frame} (h : Shard.Only id frame sh)
    (id' : PageId) : id' ∈ [id] ↔ sh.state.pageTable id' ≠ none := by
  rw [h.table]
  rcases eq_or_ne id' id with rfl | hne
  · simp
  · simp [hne]

def Shard.flushed (sh : Shard Owner) (id : PageId) (frame : Frame) (stage : Stage) : Shard Owner :=
  { sh with
    frames := [frame]
    state := sh.state.pin 0
    pins := [⟨.checkpointer, 0, id, stage⟩] }

theorem Shard.Only.flush {sh : Shard Owner} {id : PageId} {frame : Frame} (h : Shard.Only id frame sh)
    (disk : DiskManager) : BufferPool.step ⟨[sh], disk⟩ (.flush .checkpointer id) =
      some (⟨[Shard.flushed sh id frame .flush], disk⟩, { }) := by
  have htable : sh.state.pageTable id = some 0 := by rw [h.table, Function.update_self]
  have hidle : BufferPool.idle ⟨[sh], disk⟩ Owner.checkpointer = true := by
    simp [BufferPool.idle, Shard.activities, h.held, h.pins]
  have hlock : BufferPool.lockState ⟨[sh], disk⟩ 0 = some sh := by simp [BufferPool.lockState, h.held]
  have hflush : sh.flushPage .checkpointer id = (Shard.flushed sh id frame .flush, { }) := by
    rw [Shard.flushPage, htable, Shard.flushed, ← h.frames, h.pins]
  simp only [BufferPool.step]
  rw [if_pos hidle, shardFor_single, hlock, Option.map_some, hflush]
  rfl

theorem step_work_flushed (sh : Shard Owner) (id : PageId) (frame : Frame) (disk : DiskManager) (wr : WriteResult) :
    BufferPool.step ⟨[Shard.flushed sh id frame .flush], disk⟩ (.work 0 0 wr) =
      some (⟨[Shard.flushed sh id (frame.writeBack disk id wr).frame (.drop (frame.writeBack disk id wr).result)],
        (frame.writeBack disk id wr).disk⟩, { written := (frame.writeBack disk id wr).written }) := rfl

theorem Shard.Only.drop {sh : Shard Owner} {id : PageId} {frame : Frame} (h : Shard.Only id frame sh)
    (disk : DiskManager) (frame' : Frame) :
    BufferPool.step ⟨[Shard.flushed sh id frame' (.drop (.ok ()))], disk⟩ (.unpin 0 0) =
      some (⟨[{ sh with frames := [frame'] }], disk⟩, { returned := some (.checkpointer, id, .ok ()) }) := by
  have hlock : BufferPool.lockState ⟨[Shard.flushed sh id frame' (.drop (.ok ()))], disk⟩ 0 =
      some (Shard.flushed sh id frame' (.drop (.ok ()))) := by simp [BufferPool.lockState, Shard.flushed, h.held]
  have hstate : (sh.state.pin 0).unpin 0 = sh.state := by
    rw [PoolState.pin, PoolState.unpin, h.counts]
    exact congrArg (fun counts => { sh.state with pinCounts := counts }) h.counts.symm
  simp only [BufferPool.step]
  rw [hlock]
  change some (BufferPool.put _ 0 ({ sh with
    frames := [frame'], state := (sh.state.pin 0).unpin 0, pins := [] }, _)) = _
  rw [hstate, ← h.pins]
  rfl

theorem writeBack_ok {id : PageId} {page : Page} {disk : DiskManager} (hp : page.Valid id)
    (hid : DataPage disk.pageCount id) (hoff : (fileOffset id).toNat + pageSize ≤ maxFileSize) :
    (Frame.mk page true).writeBack disk id .ok = ⟨⟨page, false⟩,
      { disk with file := disk.file.writeSlot id page.data }, some (id, page), .ok ()⟩ := by
  rw [Frame.writeBack_ok hp.pageId_eq hid hoff, hp.seal_eq]

theorem flush_run {sh : Shard Owner} {id : PageId} {frame frame' : Frame} {disk disk' : DiskManager}
    {written : Option (PageId × Page)} (hh : db.holder = .checkpointing auto (.flush 0 none))
    (hpool : db.pool = ⟨[sh], disk⟩) (honly : Shard.Only id frame sh)
    (hwb : frame.writeBack disk id .ok = ⟨frame', disk', written, .ok ()⟩) :
    Run Database.Step db [.tau, .pool (.flush .checkpointer id) { }, .pool (.work 0 0 .ok) { written := written },
        .pool (.unpin 0 0) { returned := some (.checkpointer, id, .ok ()) }, .tau, .tau]
      { db with
        pool := ⟨[{ sh with frames := [frame'] }], disk'⟩
        holder := .checkpointing auto .fsyncPages } := by
  have hlock : db.pool.lockState 0 = some sh := by
    rw [hpool, BufferPool.lockState]
    simp [honly.held]
  have hpin := honly.flush disk
  rw [← hpool] at hpin
  have hwork := step_work_flushed sh id frame disk .ok
  rw [hwb] at hwork
  have hsnapshot : Database.Step db .tau { db with holder := .checkpointing auto (.flush 0 (some [id])) } :=
    .snapshot hh hlock (List.nodup_singleton id) honly.snapshot
  have hflush : Database.Step { db with holder := .checkpointing auto (.flush 0 (some [id])) }
      (.pool (.flush .checkpointer id) { }) { db with
        pool := ⟨[Shard.flushed sh id frame .flush], disk⟩
        holder := .checkpointing auto (.flush 0 (some [id])) } := .pool ⟨auto, 0, [], rfl⟩ hpin
  have hwritten : Database.Step { db with
      pool := ⟨[Shard.flushed sh id frame .flush], disk⟩
      holder := .checkpointing auto (.flush 0 (some [id])) }
      (.pool (.work 0 0 .ok) { written := written }) { db with
        pool := ⟨[Shard.flushed sh id frame' (.drop (.ok ()))], disk'⟩
        holder := .checkpointing auto (.flush 0 (some [id])) } := .pool trivial hwork
  have hreturned : Database.Step { db with
      pool := ⟨[Shard.flushed sh id frame' (.drop (.ok ()))], disk'⟩
      holder := .checkpointing auto (.flush 0 (some [id])) }
      (.pool (.unpin 0 0) { returned := some (.checkpointer, id, .ok ()) }) { db with
        pool := ⟨[{ sh with frames := [frame'] }], disk'⟩
        holder := .checkpointing auto (.flush 0 (some [])) } := .pool trivial (honly.drop disk' frame')
  exact (((((Run.start.step hsnapshot).step hflush).step hwritten).step hreturned).step (.nextShard rfl)).step
    (.flushedAll rfl rfl)

def smallest.committed : Database := { smallest.published with holder := .free }

theorem smallest_committed : ∃ es, Run Database.Step smallest es smallest.committed ∧
    (History.of ⟨1, fun _ => Page.zeroed⟩ smallest.wal.nextSeq es).all = [firstCommit] ∧
    (History.of ⟨1, fun _ => Page.zeroed⟩ smallest.wal.nextSeq es).log.since = [firstCommit] :=
  ⟨_, (smallest_published.step (.publishDone rfl)).step (.commitDone rfl rfl), rfl, rfl⟩

theorem firstPage_valid : firstPage.Valid 1 := Page.new_valid 1 .heap

theorem smallest_flushed : ∃ es db, Run Database.Step smallest es db ∧ db.poisoned = false ∧
    (History.of ⟨1, fun _ => Page.zeroed⟩ smallest.wal.nextSeq es).all = [firstCommit] ∧
    (History.of ⟨1, fun _ => Page.zeroed⟩ smallest.wal.nextSeq es).log.since = [firstCommit] ∧
    db.holder = .checkpointing none .header ∧ db.wal = smallest.durable.wal := by
  obtain ⟨es, hrun, hall, hsince⟩ := smallest_committed
  have hpage : DataPage 2 1 := ⟨by decide, by decide⟩
  have hflush := @flush_run { smallest.committed with holder := .checkpointing none (.flush 0 none) } none _ _ _ _ _ _ _
    rfl rfl (holding_only _ _) (writeBack_ok firstPage_valid hpage (by decide))
  refine ⟨_, _, (((hrun.step (.beginCheckpoint rfl)).step (.checkpointLock Nat.one_pos rfl)).trans hflush).trans
    (sync_run rfl), rfl, ?_, ?_, rfl, rfl⟩
  · simp only [History.of, List.foldl_append] at hall ⊢
    exact hall
  · simp only [History.of, List.foldl_append] at hsince ⊢
    exact hsince

theorem checkpoint_self_sufficient_first : ∃ (data : Bytes) (o : Opened),
    openExisting data none = .ok o ∧
      OpenedAs o (PageMap.commits ⟨1, fun _ => Page.zeroed⟩ [firstCommit]) := by
  obtain ⟨es, db, hrun, hp, hall, -, hh, hwal⟩ := smallest_flushed
  have hrun' := (hrun.trans (header_run hh)).trans (rewritten_run rfl hwal)
  obtain ⟨m, rfl, -, -, -, hopen⟩ := checkpoint_self_sufficient smallest_starts hrun' hp (.resetSync rfl)
  obtain ⟨o, ho, has⟩ := hopen _ none (.inl rfl) (.inl rfl)
  refine ⟨_, o, ho, ?_⟩
  simp only [History.of, List.foldl_append] at hall has
  rw [← hall]
  exact has

end Database

theorem grown_images {cs : List Commit} (hg : ∃ c ∈ cs, c.grew = true) :
    PageId.HEADER ∈ (cs.flatMap (·.images)).map Prod.fst := by
  by_contra hn
  obtain ⟨c, hc, hgrew⟩ := hg
  rw [not_grew hn c hc] at hgrew
  cases hgrew

theorem Chain.header_image {m : PageMap} {cs : List Commit} (h : Chain m cs)
    (hg : ∃ c ∈ cs, c.grew = true) (f : PageId → Page) :
    overlay f (cs.flatMap (·.images)) PageId.HEADER = (FileHeader.mk (m.commits cs).count).encode := by
  have hkey := grown_images hg
  have hslot := congrFun h.slot PageId.HEADER
  have hmap := congrFun (overlay_map Page.data f (cs.flatMap (·.images))) PageId.HEADER
  rw [← keys_map_data] at hkey
  rw [PageMap.slot_header, overlay_eq_of_mem _ (Page.data ∘ f) _ _ hkey, hmap] at hslot
  exact (Page.ext hslot).symm

namespace Database

/-- A header that the log holds can be torn in any way while it is written. -/
theorem torn_header_repaired (hs : db₀.Starts m₀) (hr : Run Database.Step db₀ es db)
    (hp : db.poisoned = false) (hh : db.holder = .checkpointing auto .header)
    (hg : ∃ c ∈ (History.of m₀ db₀.wal.nextSeq es).log.since, c.grew = true) :
    (PageId.HEADER, (FileHeader.mk db.pool.disk.pageCount).encode) ∈ db.loggedImages ∧
      (∀ f, overlay f db.loggedImages PageId.HEADER = (FileHeader.mk db.pool.disk.pageCount).encode) ∧
      ∀ ok db', Database.Step db (.header ok) db' → ∀ data wal, db'.pool.disk.file.Keeps data →
        db'.walFile.Survives wal → ∃ o, openExisting data (some wal) = .ok o ∧
          OpenedAs o (m₀.commits (History.of m₀ db₀.wal.nextSeq es).all) := by
  obtain ⟨hi, hdur⟩ := durable_run hs (guarded_of_unpoisoned hr hp)
  obtain ⟨hidle, hunsynced⟩ := hi.idle hh trivial (by rintro f ⟨⟩) hp
  have hcount := (hi.visible hh trivial hp).1
  have himages := hi.loggedImages (by rw [hunsynced]; rintro _ _ _ _ ⟨⟩)
  have hheader : ∀ f, overlay f ((History.of m₀ db₀.wal.nextSeq es).log.since.flatMap (·.images)) PageId.HEADER =
      (FileHeader.mk (History.of m₀ db₀.wal.nextSeq es).log.current.count).encode :=
    hi.logged.chain.header_image hg
  rw [show db.pool.disk.pageCount = _ from hcount, himages]
  refine ⟨?_, hheader, fun ok db' hstep data wal hdata hwal => ?_⟩
  · obtain ⟨page, hmem, hpage⟩ := overlay_of_mem _ _ (grown_images hg)
    rw [← hheader (fun _ => page), hpage]
    exact hmem
  · have hi' := hi.step hstep
    have hdur' := hdur.step hi (by rintro ⟨⟩) hstep
    obtain ⟨v, hlast, -⟩ := header_stands_run hs hr hp (by rw [hh]; rintro f ⟨⟩)
    have hheaders : db'.pool.disk.file.headers =
        db.pool.disk.file.headers ++ [(FileHeader.mk db.pool.disk.pageCount).encode.data] := by
      cases hstep with
      | writeFileHeader => rfl
      | writeFileHeaderFail => rfl
    have hrec := recoverable_of_keeps hi' hdur' hdata hwal (fun hn => ?_) (fun he => ?_)
      (hi.stored.count_lt hi.logged hh (by rintro i todo ⟨⟩) hp) (fun c hc => ?_)
    · rcases hrec with hrec | ⟨c, hc, -⟩
      · exact hrec.open
      · cases hidle.pending.symm.trans hc
    · obtain ⟨c, hc, hgrew⟩ := hg
      rw [hn c hc] at hgrew
      cases hgrew
    · rw [hheaders] at he
      have hlen := congrArg List.length he
      rw [List.length_append, List.length_singleton, List.length_singleton, Nat.add_eq_right,
        List.length_eq_zero_iff] at hlen
      rw [hlen] at hlast
      cases hlast
    · cases hidle.pending.symm.trans hc

theorem torn_header_repaired_first : ∃ db : Database, db.holder = .checkpointing none .header ∧
    (PageId.HEADER, (FileHeader.mk db.pool.disk.pageCount).encode) ∈ db.loggedImages := by
  obtain ⟨es, db, hrun, hp, -, hsince, hh, -⟩ := smallest_flushed
  refine ⟨db, hh, (torn_header_repaired smallest_starts hrun hp hh ⟨firstCommit, ?_, rfl⟩).1⟩
  rw [hsince]
  exact List.mem_cons_self

theorem writeHeader_size {f : DataFile} (hf : f.contents.length = pageSize) (header : Page) :
    (f.writeHeader header pageSize).contents.length = pageSize := by
  change (writeAt f.contents 0 (header.data.take pageSize)).length = pageSize
  rw [List.take_of_length_le header.size.le, writeAt_length _ _ _ header.data_ne_nil, hf, header.size]
  omega

theorem open_zeroed :
    DiskManager.open Page.zeroed.data = .error (.unsupportedFormat "not an oxenDB database file") := by
  have hmagic : slice Page.zeroed.data 4 8 ≠ magic := by
    intro he
    have hbyte := congrArg (·[0]?) he
    rw [slice_getElem? _ _ _ _ (by decide), zeroed_getD] at hbyte
    exact absurd hbyte (by decide)
  have hdecode : FileHeader.decode Page.zeroed = .error (.unsupportedFormat "not an oxenDB database file") :=
    if_pos hmagic
  simp only [DiskManager.open, if_neg (not_lt.mpr Page.zeroed.size.ge), ofBytes_self, hdecode]

theorem openExisting_error {data wal : Bytes} {e : Error} (hd : DiskManager.open data = .error e)
    (hw : wal = encodeHeader 0) : openExisting data (some wal) = .error e := by
  obtain ⟨o, ho, hrec, -, -⟩ := Wal.open_encoded [] 0 [] (noRecord_nil _)
  simp only [encodeAll, List.append_nil] at ho
  have hreplay : replay data o.records = .ok (data, ⟨0, 0, 0⟩) := by
    rw [hrec]
    rfl
  simp only [openExisting, hw, ho, hreplay, hd]

/-- Without a commit that grew the database since the last reset, the log holds no header, and one
that is torn into zeroes is lost with the database. -/
theorem torn_header_lost : ∃ es db db', Run Database.Step smallest es db ∧ db.poisoned = false ∧
    db.holder = .checkpointing none .header ∧ db.loggedImages = [] ∧ Database.Step db (.header true) db' ∧
    db'.pool.disk.file.Keeps Page.zeroed.data ∧ ∀ wal, db'.walFile.Survives wal →
      openExisting Page.zeroed.data (some wal) =
        .error (.unsupportedFormat "not an oxenDB database file") := by
  have hlock : Database.Step { smallest with waitingCheckpoints := 1 } .checkpointLocked
      { smallest with holder := .checkpointing none (.flush 0 none) } := .checkpointLock Nat.one_pos rfl
  have hflush := @flush_empty_run { smallest with holder := .checkpointing none (.flush 0 none) } none _ _
    rfl rfl rfl (fun _ => rfl)
  have hrun := (((Run.start.step (.beginCheckpoint rfl)).step hlock).trans hflush).trans (sync_run rfl)
  refine ⟨_, _, _, hrun, rfl, rfl, ?_, .writeFileHeader rfl, ⟨fun id hid _ bs hread => ?_, ?_⟩,
    fun wal hw => openExisting_error open_zeroed hw.2⟩
  · rw [(Inv.run smallest_starts hrun).loggedImages (by rintro _ _ _ _ ⟨⟩)]
    rfl
  · refine absurd (header_of_slot ?_) hid
    have hsize := @writeHeader_size ((DiskManager.create.file.sync .start).sync .finish) page_size_new
      FileHeader.new.encode
    exact ((readAt_some_iff _ _ _ _).mp hread).1.trans_eq hsize
  · rw [Page.zeroed.size]
    decide

end Database

end OxenDB
