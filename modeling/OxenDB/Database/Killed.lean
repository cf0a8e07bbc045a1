import OxenDB.Database.Restart

/-!
A process that dies while the operating system lives on: the next one reads the files as they were
written, of which much may never have been under an fsync.
-/

namespace OxenDB

open Lib

namespace Opening

variable {l : LogText} {data : Bytes} {s s' : Opening}

def settled (s : Opening) : Opening := { s with undone := [] }

theorem Sound.settled (h : Sound l data s) : Sound l data s.settled := by
  refine ⟨h.safe.imp (·.walSynced s.next) (·.walSynced s.next), .inl rfl, ?_⟩
  have hready := h.ready
  change Ready l data s.settled s.next
  cases hn : s.next with
  | none => trivial
  | truncate o =>
    rw [hn] at hready
    exact ⟨rfl, hready.2⟩
  | syncTail o | validate o =>
    rw [hn] at hready
    exact Reads.walSynced hready _
  | writePages o todo | syncPages o =>
    rw [hn] at hready
    obtain ⟨hw, hknown⟩ := hready
    exact ⟨⟨hw.intact.walSynced _, hw.valid, hw.result, hw.among, hw.lost⟩, hknown⟩
  | openDisk o | truncateLog o disk =>
    rw [hn] at hready
    exact ⟨⟨hready.1.data, hready.1.unsynced, hready.1.lost⟩, hready.2⟩
  | writeHeader o disk | syncLog o disk | assemble o disk =>
    rw [hn] at hready
    exact ⟨hready.1.walSynced _, hready.2⟩

theorem Step.settled {e : OpenEvent} (hs : Step s e s') (he : e ≠ .crash) :
    ∃ t, Step s.settled e t ∧ t.settled = s'.settled := by
  cases hs with
  | readLog hn ho => exact ⟨_, .readLog hn ho, rfl⟩
  | truncate hn => exact ⟨_, .truncate hn, rfl⟩
  | syncTail hn => exact ⟨_, .syncTail hn, rfl⟩
  | validate hn hl => exact ⟨_, .validate hn hl, rfl⟩
  | writePage hn hfit => exact ⟨_, .writePage hn hfit, rfl⟩
  | tearPage junk hn => exact ⟨_, .tearPage junk hn, rfl⟩
  | pagesWritten hn => exact ⟨_, .pagesWritten hn, rfl⟩
  | syncPages hn => exact ⟨_, .syncPages hn, rfl⟩
  | syncPagesFail hn hleft => exact ⟨_, .syncPagesFail hn hleft, rfl⟩
  | openDisk hn hd hw => exact ⟨_, .openDisk hn hd hw, rfl⟩
  | truncateLog hn => exact ⟨_, .truncateLog hn, rfl⟩
  | writeHeader hn => exact ⟨_, .writeHeader hn, rfl⟩
  | syncLog hn => exact ⟨_, .syncLog hn, rfl⟩
  | error => exact ⟨_, .error, rfl⟩
  | crash => exact absurd rfl he

theorem Sound.live {e : OpenEvent} (h : Sound l data s.settled) (hs : Step s e s') (he : e ≠ .crash) :
    Sound l data s'.settled := by
  obtain ⟨t, ht, hsame⟩ := hs.settled he
  rw [← hsame]
  exact (h.step ht).settled

theorem Step.assembles {e : OpenEvent} (hs : Step s e s') {o : OpenedWal} {disk : DiskManager}
    (hn : s'.next = .assemble o disk) : s'.undone = [] := by
  cases hs with
  | readLog => simp only at hn; split_ifs at hn
  | validate => simp only at hn; split_ifs at hn
  | syncLog => rfl
  | _ => cases hn

theorem live_run {s₀ : Opening} {es : List OpenEvent} (h : Sound l data s₀.settled) (hn : s₀.next = .none)
    (hr : Run (Restrict Step (fun _ e => e ≠ .crash)) s₀ es s) :
    Sound l data s.settled ∧ ∀ o disk, s.next = .assemble o disk → s.undone = [] := by
  apply hr.invariant (I := fun _ s => Sound l data s.settled ∧
    ∀ o disk, s.next = .assemble o disk → s.undone = [])
  · refine ⟨h, fun o disk hc => ?_⟩
    cases hn.symm.trans hc
  · rintro _ s e s' - ⟨hi, -⟩ ⟨hstep, he⟩
    exact ⟨hi.live hstep he, fun o disk => hstep.assembles⟩

theorem assembled_crash (h : Sound l data s.settled) {o : OpenedWal} {disk : DiskManager}
    (hn : s.next = .assemble o disk) (hu : s.undone = []) (hs : Step s .crash s') : s' = files s.data s.wal := by
  have hready := h.ready
  change Ready l data s.settled s.next at hready
  rw [hn] at hready
  cases hs with
  | crash hleft hwal =>
    have hunsynced : s.unsynced = [] := hready.1.unsynced
    have hlost : s.lost = [] := hready.1.lost
    rw [hunsynced, hlost] at hleft
    rw [hu, List.mem_singleton] at hwal
    rw [← SameOutside.eq hleft, hwal]

def Reaches (l : LogText) (data : Bytes) (s : Opening) (n : OpenCall) : Prop :=
  ∃ es t, Run (Restrict Step (fun _ e => e = .call)) s es t ∧ Sound l data t.settled ∧ t.next = n

section Completes

variable {n n' : OpenCall} {o : OpenedWal} {disk : DiskManager}

theorem Reaches.call (h : Reaches l data s n) (hstep : ∀ t, Sound l data t.settled → t.next = n →
    ∃ t', Step t .call t' ∧ t'.next = n') : Reaches l data s n' := by
  obtain ⟨es, t, hrun, hsound, hn⟩ := h
  obtain ⟨t', ht, hn'⟩ := hstep t hsound hn
  exact ⟨_, t', hrun.step ⟨ht, rfl⟩, hsound.live ht (by decide), hn'⟩

theorem recovered_images (h : recovered data l.records = .ok disk) : ∃ latest f,
    latestImages (committedTxns l.records) l.records ∅ = .ok latest ∧ writeImages data l.images = .ok f := by
  rw [recovered] at h
  cases hr : replay data l.records with
  | error e =>
    rw [hr] at h
    cases h
  | ok p =>
    simp only [replay] at hr
    cases hl : latestImages (committedTxns l.records) l.records ∅ with
    | error e =>
      rw [committedTxns] at hl
      rw [hl] at hr
      cases hr
    | ok latest =>
      rw [LogText.images_eq hl]
      rw [committedTxns] at hl
      simp only [hl] at hr
      cases hw : writeImages data latest.toList with
      | error e =>
        rw [hw] at hr
        cases hr
      | ok f => exact ⟨latest, f, rfl, rfl⟩

theorem reaches_validate (hn : s.next = .none) (h : Sound l data s.settled) :
    ∃ o, o.wal.checkReset = .ok () ∧ Reaches l data s (.validate o) := by
  obtain ⟨o, ho⟩ := h.safe.opens
  have hread : Step s .call _ := .readLog hn ho
  have hfirst : Reaches l data s (if o.discarded.isSome then .truncate o else .validate o) :=
    ⟨_, _, Run.start.step ⟨hread, rfl⟩, h.live hread (by decide), rfl⟩
  refine ⟨o, Wal.open_checkReset ho, ?_⟩
  split_ifs at hfirst
  · have hcut : Reaches l data s (.syncTail o) := hfirst.call (fun t _ ht => ⟨_, .truncate ht, rfl⟩)
    exact hcut.call (fun t _ ht => ⟨_, .syncTail ht, rfl⟩)
  · exact hfirst

theorem Reaches.writes {f : Bytes} (hf : writeImages data l.images = .ok f) {todo : List (PageId × Page)}
    (h : Reaches l data s (.writePages o todo)) : Reaches l data s (.openDisk o) := by
  induction todo with
  | nil =>
    have hwritten : Reaches l data s (.syncPages o) := h.call (fun t _ ht => ⟨_, .pagesWritten ht, rfl⟩)
    exact hwritten.call (fun t _ ht => ⟨_, .syncPages ht, rfl⟩)
  | cons u todo ih =>
    obtain ⟨id, page⟩ := u
    refine ih (h.call (fun t hsound ht => ⟨_, .writePage ht ?_, rfl⟩))
    have hready := hsound.ready
    change Ready l data t.settled t.next at hready
    rw [ht] at hready
    have hresult := hready.1.result
    rw [hf, writeImages] at hresult
    split_ifs at hresult with hbig
    exact not_lt.mp hbig

theorem Reaches.validated (hrec : recovered data l.records = .ok disk) (h : Reaches l data s (.validate o)) :
    Reaches l data s (.openDisk o) := by
  obtain ⟨latest, f, hl, hf⟩ := recovered_images hrec
  obtain ⟨es, t, hrun, hsound, hn⟩ := h
  have hready := hsound.ready
  change Ready l data t.settled t.next at hready
  rw [hn] at hready
  have himages : ∃ latest, latestImages (committedTxns o.records) o.records ∅ = .ok latest := by
    rcases hready.1 with ⟨-, ho⟩ | ⟨-, ho⟩
    · rw [ho]
      exact ⟨latest, hl⟩
    · rw [ho]
      exact ⟨∅, rfl⟩
  obtain ⟨latest', hl'⟩ := himages
  have hvalid : Step t .call _ := .validate hn hl'
  have hnext : Reaches l data s (if latest'.isEmpty then .openDisk o else .writePages o latest'.toList) :=
    ⟨_, _, hrun.step ⟨hvalid, rfl⟩, hsound.live hvalid (by decide), rfl⟩
  split_ifs at hnext
  · exact hnext
  · exact hnext.writes hf

theorem Reaches.opened (hrec : recovered data l.records = .ok disk) (hw : o.wal.checkReset = .ok ())
    (h : Reaches l data s (.openDisk o)) : Reaches l data s (.assemble o disk) := by
  have hdisk : Reaches l data s (.truncateLog o disk) := by
    refine h.call (fun t hsound ht => ⟨_, .openDisk ht ?_ hw, rfl⟩)
    have hready := hsound.ready
    change Ready l data t.settled t.next at hready
    rw [ht] at hready
    obtain ⟨stats, hreplay⟩ := hready.1.data
    rw [recovered, hreplay] at hrec
    exact hrec
  have hcut : Reaches l data s (.writeHeader o disk) := hdisk.call (fun t _ ht => ⟨_, .truncateLog ht, rfl⟩)
  have hheader : Reaches l data s (.syncLog o disk) := hcut.call (fun t _ ht => ⟨_, .writeHeader ht, rfl⟩)
  exact hheader.call (fun t _ ht => ⟨_, .syncLog ht, rfl⟩)

theorem completes (hn : s.next = .none) (h : Sound l data s.settled)
    (hrec : recovered data l.records = .ok disk) : ∃ o, Reaches l data s (.assemble o disk) := by
  obtain ⟨o, hw, hread⟩ := reaches_validate hn h
  exact ⟨o, (hread.validated hrec).opened hrec hw⟩

end Completes

end Opening

theorem LogHolds.text {wal : Bytes} {cs : List Commit} (h : LogHolds wal cs) (hlen : wal.length ≤ maxFileSize)
    (hv : ∀ u ∈ cs.flatMap (·.images), ValidImage u.1 u.2) :
    ∃ l : LogText, l.Holds wal ∧ (cs.flatMap (·.images)).map Prod.fst ⊆ l.images.map Prod.fst := by
  obtain ⟨seq, rs, bs, rfl, hno, hu⟩ := h
  have hroom : (cs.flatMap (·.records) ++ rs).length < 2 ^ 64 := by
    have hge := encodeAll_length_ge (cs.flatMap (·.records) ++ rs) seq
    rw [List.length_append, List.length_append, maxFileSize] at hlen
    omega
  have hlatest := latestImages_log seq hu hv
  let l : LogText := ⟨seq, cs.flatMap (·.records) ++ rs, bs, hno, hroom⟩
  refine ⟨l, ⟨decodeHeader_encodeHeader seq _, bs, .inl rfl, ?_⟩, ?_⟩
  · exact drop_encodeHeader seq _
  · rw [@LogText.images_eq l _ hlatest]
    intro id hid
    obtain ⟨u, hu, rfl⟩ := List.mem_map.mp hid
    obtain ⟨v, hv⟩ := @exists_mem_foldl_insert PageId Page _ compare _ _ (cs.flatMap (·.images)) u hu
    exact List.mem_map.mpr ⟨_, hv, rfl⟩

section Volatile

variable {m₀ : PageMap} {h : History} {db : Database}

theorem Durable.unsynced_logged (hd : Durable h db) (hi : Inv m₀ h db) {id : PageId}
    (hid : DataPage h.log.current.count id) (hs : db.pool.disk.file.slots id ≠ .synced) :
    id ∈ (h.log.since.flatMap (·.images)).map Prod.fst := by
  by_contra hk
  have hk := images_keys hk
  by_cases hbase : DataPage h.log.base.count id
  · exact hs (hd.kept id hbase hk).1
  · exact hk (hi.logged.chain.fresh hid hbase)

theorem Durable.unsynced_replayed (hd : Durable h db) (hi : Inv m₀ h db) {wal : Bytes}
    (hwal : db.walFile.Survives wal) : ∃ l : LogText, l.Holds wal ∧ ∀ id, DataPage h.log.current.count id →
      db.pool.disk.file.slots id ≠ .synced → id ∈ l.images.map Prod.fst := by
  have hbase := hi.logged.base
  have hchain := hi.logged.chain
  rcases hi.logged.wal_left hwal with hl | ⟨c, -, hext, hl⟩ | ⟨⟨old, header, t, w, hu⟩, hl⟩
  · obtain ⟨l, hholds, hkeys⟩ := hl.text hwal.1 (fun u hu => (hchain.images_valid hbase u hu).2)
    exact ⟨l, hholds, fun id hid hs => hkeys (hd.unsynced_logged hi hid hs)⟩
  · obtain ⟨l, hholds, hkeys⟩ := hl.text hwal.1
      (fun u hu => ((hchain.snoc hext).images_valid hbase u hu).2)
    refine ⟨l, hholds, fun id hid hs => hkeys ?_⟩
    rw [List.flatMap_append, List.map_append]
    exact List.mem_append_left _ (hd.unsynced_logged hi hid hs)
  · -- The log is only reset once every page is under an fsync.
    obtain ⟨l, hholds, -⟩ := hl.text hwal.1 (by rintro u ⟨⟩)
    obtain ⟨-, hself⟩ := hd.resetting _ _ _ _ hu
    exact ⟨l, hholds, fun id hid hs => absurd (hself.pages id hid).1 hs⟩

end Volatile

section Contents

variable {m₀ : PageMap} {h : History} {db db' : Database} {e : Event}

theorem Inv.truncated_log (hi : Inv m₀ h db) {auto : Option Commit} {old header : Bytes}
    (hh : db.holder = .checkpointing auto .truncated) (hu : db.walFile.unsynced = .reset old header true false) :
    db.walFile.contents = old.take walHeaderSize ∧ header = encodeHeader h.log.nextSeq := by
  have hphase := hi.logged.phase
  rw [hh] at hphase
  obtain ⟨-, hfile⟩ := hphase
  rw [hfile] at hu
  cases hu
  rw [hfile]
  exact ⟨h.log.take_body, rfl⟩

theorem Inv.rewritten_log (hi : Inv m₀ h db) {auto : Option Commit} {old header : Bytes}
    (hh : db.holder = .checkpointing auto .truncated) (hu : db.walFile.unsynced = .reset old header true false) :
    WalFile.Survives ⟨writeAt db.walFile.contents 0 header, .reset old header true true⟩
      (writeAt db.walFile.contents 0 header) := by
  obtain ⟨hcut, rfl⟩ := hi.truncated_log hh hu
  refine ⟨?_, true, true, fun _ => rfl, fun _ => rfl, ?_⟩
  · rw [hcut, writeAt_header, encodeHeader_length]
    decide
  · rw [hcut, writeAt_header]
    rfl

theorem walSurvives_step (hi : Inv m₀ h db) (hw : db.walFile.Survives db.walFile.contents)
    (hs : Database.Step db e db') : db'.walFile.Survives db'.walFile.contents := by
  have hcut : (db.walFile.contents.take walHeaderSize).length ≤ maxFileSize :=
    (List.length_take_le' _ _).trans hw.1
  cases hs with
  | @walWrite c hh hfit =>
    have hphase := hi.logged.phase
    rw [hh] at hphase
    obtain ⟨hbusy, hu⟩ := hphase
    have hcontents := hi.logged.contents_eq hu
    have hwrite : writeAt db.walFile.contents db.wal.durableLen db.wal.pending =
        db.walFile.contents ++ db.wal.pending := by
      rw [hi.logged.durableLen, hcontents, writeAt_end]
    have htorn := TornBatch.take c.records h.log.nextSeq (encodeAll c.records h.log.nextSeq).length
    rw [List.take_length, ← hbusy.batch] at htorn
    refine ⟨?_, db.wal.pending, htorn, ?_⟩
    · rw [hwrite, List.length_append, hcontents, ← hi.logged.durableLen]
      exact hfit
    · rw [hwrite, hi.logged.durableLen, hcontents, List.take_left]
  | @walWriteFail c left hh htorn hfit =>
    have hphase := hi.logged.phase
    rw [hh] at hphase
    have hcontents := hi.logged.contents_eq hphase.2
    have htake : db.walFile.contents.take db.wal.durableLen = h.log.body := by
      rw [hi.logged.durableLen, hcontents, List.take_length]
    refine ⟨?_, left, htorn, ?_⟩
    · rw [htake, List.length_append, ← hi.logged.durableLen]
      exact hfit
    · rw [htake, hi.logged.durableLen, List.take_left]
  | walSync | resetSync => exact ⟨hw.1, rfl⟩
  | truncate => exact ⟨hcut, true, false, fun _ => rfl, nofun, (List.append_nil _).symm⟩
  | truncateFail done =>
    cases done with
    | true => exact ⟨hcut, true, false, fun _ => rfl, nofun, (List.append_nil _).symm⟩
    | false => exact ⟨hw.1, false, false, nofun, nofun, (List.take_append_drop _ _).symm⟩
  | rewrite hh hu => exact hi.rewritten_log hh hu
  | rewriteFail done hh hu =>
    cases done with
    | true => exact hi.rewritten_log hh hu
    | false =>
      obtain ⟨hcut, -⟩ := hi.truncated_log hh hu
      exact ⟨hw.1, true, false, fun _ => rfl, nofun, hcut.trans (List.append_nil _).symm⟩
  | _ => exact hw

end Contents

def CheckpointAt.wroteHeader : CheckpointAt → Bool
  | .fsyncHeader => true
  | .fsyncingHeader => true
  | _ => false

def Holder.calm : Holder → Bool
  | .failed _ => false
  | .checkpointing _ stage => !stage.wroteHeader
  | _ => true

theorem Holder.AfterCall.calm {r : Option (Owner × PageId × Except Error Unit)} {holder holder' : Holder}
    (h : AfterCall r holder holder') (hc : holder'.calm = true) : holder.calm = true := by
  cases h with
  | same => exact hc
  | installed | installFailed | flushed | flushFailed => rfl

structure HeaderKept (db : Database) : Prop where
  kept : db.pool.disk.file.slots PageId.HEADER = .synced →
    ∃ bs, readAt db.pool.disk.file.contents 0 pageSize = some bs ∧ db.pool.disk.file.headers = [bs]
  calm : db.poisoned = false → db.holder.calm = true → db.pool.disk.file.slots PageId.HEADER = .synced

namespace HeaderKept

variable {m₀ : PageMap} {h : History} {db db' : Database} {e : Event} {holder : Holder}

theorem move (hk : HeaderKept db) (hfile : db'.pool.disk.file = db.pool.disk.file)
    (hcalm : db'.poisoned = false → db'.holder.calm = true → db.poisoned = false ∧ db.holder.calm = true) :
    HeaderKept db' := by
  refine ⟨?_, ?_⟩
  · rw [hfile]
    exact hk.kept
  · intro hp hc
    rw [hfile]
    exact hk.calm (hcalm hp hc).1 (hcalm hp hc).2

theorem pool (hk : HeaderKept db) (hi : Inv m₀ h db) {a : Action Owner} {label : Label Owner}
    {pool : BufferPool Owner} (ha : db.Allows a) (hs : db.pool.step a = some (pool, label)) :
    HeaderKept { db with pool := pool, holder := db.holder.afterCall label.returned } := by
  have hstep := (BufferPool.step_steps hi.locks.pool hi.stored.small ha.not_sync hs).step
  obtain ⟨hslot, hread⟩ := @Cache.Step.stable _ _ _ _ hstep hi.stored.small PageId.HEADER (.inr rfl)
  have hheaders : pool.disk.file.headers = db.pool.disk.file.headers := hstep.headers
  refine ⟨fun hsync => ?_, fun hp hc => ?_⟩
  · obtain ⟨bs, hbs, hhs⟩ := hk.kept (hslot.symm.trans hsync)
    exact ⟨bs, hread bs hbs, hheaders.trans hhs⟩
  · exact hslot.trans (hk.calm hp ((Holder.afterCall_spec _ _).calm hc))

theorem sync (hk : HeaderKept db) (hs : db.pool.disk.file.slots PageId.HEADER = .synced) (ev : SyncEvent) :
    HeaderKept { db.syncDisk ev with holder := holder } := by
  have hslot : (db.pool.disk.file.sync ev).slots PageId.HEADER = .synced := by
    cases ev with
    | start => simp [DataFile.sync, DataFile.syncBegin, hs]
    | finish => simp [DataFile.sync, DataFile.syncEnd, hs]
    | fail => simp [DataFile.sync, DataFile.syncFail, hs]
  have hheaders : (db.pool.disk.file.sync ev).headers = db.pool.disk.file.headers := by
    cases ev with
    | start | fail => rfl
    | finish => simp [DataFile.sync, DataFile.syncEnd, hs]
  refine ⟨fun _ => ?_, fun _ _ => hslot⟩
  obtain ⟨bs, hbs, hone⟩ := hk.kept hs
  refine ⟨bs, ?_, hheaders.trans hone⟩
  change readAt (db.pool.disk.file.sync ev).contents 0 pageSize = some bs
  rw [DataFile.sync_contents]
  exact hbs

theorem unsynced (hslot : db.pool.disk.file.slots PageId.HEADER ≠ .synced) (hc : db.holder.calm = false) :
    HeaderKept db := by
  refine ⟨fun hs => absurd hs hslot, fun _ h => ?_⟩
  rw [hc] at h
  cases h

theorem slot_writeHeader (db : Database) (n : ℕ) :
    (db.writeHeader n).pool.disk.file.slots PageId.HEADER ≠ .synced := by
  change Function.update db.pool.disk.file.slots PageId.HEADER .written PageId.HEADER ≠ _
  rw [Function.update_self]
  decide

theorem step (hk : HeaderKept db) (hst : db.HeaderStands) (hi : Inv m₀ h db) (hd : Durable h db)
    (hs : Database.Step db e db') : HeaderKept db' := by
  have synced : ∀ {auto stage}, db.holder = .checkpointing auto stage →
      (Holder.checkpointing auto stage).calm = true → db.pool.disk.file.slots PageId.HEADER = .synced := by
    intro auto stage hh hc
    exact hk.calm (hd.unpoisoned _ _ hh) (by rw [hh]; exact hc)
  cases hs with
  | refuse | beginRead | readLock | readDrop | readCount | readOutside | beginWrite
  | writeLockPoisoned | writerCount | writerOutside | readDirty | beginCheckpoint => exact { hk with }
  | pool ha hs => exact hk.pool hi ha hs
  | @copyPage w i k _ id page label pool hh _ hs hr =>
    have hp := hk.pool hi (show db.Allows (.guard i k .read) from .inr (.inl rfl)) hs
    rw [((BufferPool.step_calls hi.locks.pool hs).read hr).1, Holder.afterCall_none] at hp
    exact hp.move rfl (fun hp _ => ⟨hp, by rw [hh]; rfl⟩)
  | writeLock _ hh | allocatePage _ hh | editPage _ hh | rollback hh | commitEmpty hh | commitMalformed hh
  | commitLog hh | walWrite hh | walSync hh | publishDone hh | commitDone hh | resetSync hh | autoCheckpoint hh
  | checkpointLock _ hh | snapshot hh | nextShard hh | flushedAll hh | truncate hh | rewrite hh =>
    exact hk.move rfl (fun hp _ => ⟨hp, by rw [hh]; rfl⟩)
  | publishLock hh _ hdisk =>
    exact hk.move (DiskManager.setPageCount_file hdisk) (fun hp _ => ⟨hp, by rw [hh]; rfl⟩)
  | commitLogPoisoned | walWriteFail | walSyncFail | publishShrink | resetRefused | truncateFail | rewriteFail
  | resetSyncFail => exact hk.move rfl (fun _ hc => by cases hc)
  | syncPages hh | syncedPages hh | syncPagesFail hh => exact hk.sync (synced hh rfl) _
  | writeFileHeader hh => exact unsynced (slot_writeHeader db pageSize) rfl
  | writeFileHeaderFail n hh => exact unsynced (slot_writeHeader db n) rfl
  | syncHeader hh =>
    obtain ⟨-, hslot, -⟩ := hd.stageAt hh
    refine unsynced ?_ rfl
    change (db.pool.disk.file.sync .start).slots PageId.HEADER ≠ .synced
    simp [DataFile.sync, DataFile.syncBegin, hslot]
  | syncedHeader hh =>
    obtain ⟨-, hslot, -⟩ := hd.stageAt hh
    obtain ⟨bs, hlast, hbs⟩ := hst (hd.unpoisoned _ _ hh) (fun f he => by cases hh.symm.trans he)
    refine ⟨fun _ => ⟨bs, hbs, ?_⟩, fun _ _ => ?_⟩
    · obtain ⟨l, hl⟩ := List.getLast?_eq_some_iff.mp hlast
      change (if db.pool.disk.file.slots PageId.HEADER = .syncing then _ else _) = _
      rw [if_pos hslot, hl, List.length_append, List.length_singleton, Nat.add_sub_cancel, List.drop_left]
    · change (db.pool.disk.file.sync .finish).slots PageId.HEADER = .synced
      simp [DataFile.sync, DataFile.syncEnd, hslot]
  | syncHeaderFail hh =>
    obtain ⟨-, hslot, -⟩ := hd.stageAt hh
    refine unsynced ?_ rfl
    change (db.pool.disk.file.sync .fail).slots PageId.HEADER ≠ .synced
    simp [DataFile.sync, DataFile.syncFail, hslot]
  | poison hh => exact ⟨hk.kept, by rintro ⟨⟩⟩

theorem start (hs : db.Starts m₀) : HeaderKept db := by
  obtain ⟨o, n, auto, pool, ho, hp, rfl⟩ := hs.eq
  obtain ⟨-, hdisk, -⟩ := BufferPool.new_ok hp
  have hpos : PageId.HEADER < m₀.count := by
    rw [UInt64.lt_iff_toNat_lt]
    exact Nat.pos_of_ne_zero (fun h0 => ho.count_pos (UInt64.toNat_inj.mp h0))
  have hread := ho.slots _ hpos
  refine ⟨fun _ => ⟨m₀.slot PageId.HEADER, ?_, ?_⟩, fun _ _ => ?_⟩
  · rw [hdisk]
    exact hread
  · rw [hdisk, ho.headers]
  · rw [hdisk]
    exact ho.synced _ ((readAt_some_iff _ _ _ _).mp hread).1

end HeaderKept

namespace Database

variable {m₀ : PageMap} {db₀ db : Database} {es : List Event}

theorem contents_survive (hs : db₀.Starts m₀) (hr : Run (Restrict Database.Step Guarded) db₀ es db) :
    db.walFile.Survives db.walFile.contents ∧ (db.pool.disk.file.slots PageId.HEADER = .synced →
      db.pool.disk.file.Survives db.pool.disk.file.contents) := by
  have hi := (durable_run hs hr).1
  have hkept := hr.invariant (I := fun _ db => db.walFile.Survives db.walFile.contents ∧ HeaderKept db)
    ⟨?_, HeaderKept.start hs⟩ ?_
  · refine ⟨hkept.1, fun hslot => ⟨fun _ _ _ _ hbs => hbs, hi.stored.fits, ?_⟩⟩
    obtain ⟨bs, hbs, hone⟩ := hkept.2.kept hslot
    exact ⟨bs, hbs, fun i _ => ⟨bs, by rw [hone]; exact List.mem_singleton_self _, rfl⟩⟩
  · obtain ⟨o, n, auto, pool, ho, hp, rfl⟩ := hs.eq
    obtain ⟨seq, -, hfile⟩ := ho.log
    rw [hfile]
    refine ⟨?_, rfl⟩
    rw [encodeHeader_length]
    decide
  · rintro ls s l s' hls ⟨hwal, hheader⟩ hstep
    obtain ⟨hi, hd⟩ := durable_run hs hls
    have hst := header_stands_run hs (hls.mono (fun _ _ _ h => h.1))
    exact ⟨walSurvives_step hi hwal hstep.1, hheader.step hst hi hd hstep.1⟩

/-- What the next process finds of a database that holds `m`: files that a crash may leave, of which it
may lose the pages in `unsynced` and `lost` and any of the calls on the log. -/
structure Killed (m : PageMap) (db : Database) (s : Opening) : Prop where
  data : db.pool.disk.file.Survives s.data
  wal : db.walFile.Survives s.wal
  volatile : ∀ id ∈ s.unsynced ++ s.lost, DataPage m.count id ∧ db.pool.disk.file.slots id ≠ .synced
  next : s.next = .none

theorem Killed.sound {s : Opening} {h : History} (hk : Killed (m₀.commits h.all) db s) (hi : Inv m₀ h db)
    (hd : Durable h db) : ∃ l, Opening.Sound l s.data s.settled := by
  obtain ⟨l, hholds, hreplayed⟩ := hd.unsynced_replayed hi hk.wal
  have hmem : ∀ id ∈ s.unsynced ++ s.lost, id ∈ l.images.map Prod.fst := by
    intro id hid
    obtain ⟨hpage, hslot⟩ := hk.volatile id hid
    rw [hi.logged.whole] at hpage
    exact hreplayed id hpage hslot
  refine ⟨l, .inl ⟨fun w hw => ?_, .refl _ _, fun id hid => ?_, fun id hid => ?_⟩, .inl rfl, ?_⟩
  · rw [List.mem_singleton.mp hw]
    exact hholds
  · exact hmem id (List.mem_append_left _ hid)
  · exact hmem id (List.mem_append_right _ hid)
  · change Opening.Ready l s.data s.settled s.next
    rw [hk.next]
    trivial

/-- A process that is killed while no write of the file header is under way leaves files that a crash may
leave. However many attempts to open them fail, the next one shows every commit that returned, and gets
through if its calls succeed. Once an attempt got through, what it shows survives every crash, although
nothing it read need have been under an fsync. A crash before that is left out: it may take back log records
whose pages replay has written. -/
theorem killed_process_recovers (hs : db₀.Starts m₀) (hr : Run (Restrict Database.Step Guarded) db₀ es db)
    (hcount : ∀ c ∈ loggedCommits es, c.pageCount.toNat < 2 ^ 51)
    (hheader : db.pool.disk.file.slots PageId.HEADER = .synced) :
    db.pool.disk.file.Survives db.pool.disk.file.contents ∧ db.walFile.Survives db.walFile.contents ∧
    ∀ (path : DbPath) (options : Options) (s₀ s : Opening) (attempts : List OpenEvent),
      options.bufferPoolPages ≠ 0 → Killed (m₀.commits (History.of m₀ db₀.wal.nextSeq es).all) db s₀ →
      Run (Restrict Opening.Step (fun _ e => e ≠ .crash)) s₀ attempts s →
      ∃ db₁ cs, Database.open path (some s.data) (some s.wal) options = .ok db₁ ∧
        Visible db₁.pool.cache (m₀.commits cs) ∧ cs <+: loggedCommits es ∧
        (∀ e ∈ es, ∀ c, e.returns = some c → c ∈ cs) ∧
        (∃ calls t o disk, Run (Restrict Opening.Step (fun _ e => e = .call)) { s with next := .none } calls t ∧
          t.next = .assemble o disk) ∧
        ∀ o disk, s.next = .assemble o disk →
          BufferPool.new disk options.bufferPoolPages = .ok db₁.pool ∧
          ∀ s', Opening.Step s .crash s' → Database.open path (some s'.data) (some s'.wal) options = .ok db₁ := by
  obtain ⟨hi, hd⟩ := durable_run hs hr
  obtain ⟨hwal, hdata⟩ := contents_survive hs hr
  refine ⟨hdata hheader, hwal, ?_⟩
  intro path options s₀ s attempts hn hk hrun
  obtain ⟨l, hstart⟩ := hk.sound hi hd
  obtain ⟨hsound, hundone⟩ := Opening.live_run hstart hk.next hrun
  have hfirst : (openExisting s₀.data (some s₀.wal)).map (·.disk) = _ := hstart.safe.openExisting
  have hlast : (openExisting s.data (some s.wal)).map (·.disk) = _ := hsound.safe.openExisting
  have hpool := open_pool_congr (hlast.trans hfirst.symm) path options
  obtain ⟨o₀, cs, ho, has, hall, hlogged⟩ := recovers_logged hs hr hcount hk.data hk.wal
  obtain ⟨db₀', hdb⟩ := assemble_ok o₀ hn
  have hopen : Database.open path (some s₀.data) (some s₀.wal) options = .ok db₀' := by
    rw [Database.open, ho]
    exact hdb
  rw [hopen] at hpool
  cases hthen : Database.open path (some s.data) (some s.wal) options with
  | error e =>
    rw [hthen] at hpool
    cases hpool
  | ok db₁ =>
    rw [hthen] at hpool
    injection hpool with hpool
    have hpool : db₁.pool = db₀'.pool := hpool
    rw [ho] at hfirst
    refine ⟨db₁, cs, rfl, ?_, hlogged, ?_, ?_, ?_⟩
    · rw [hpool]
      exact Starts.visible ⟨o₀, options, has, hdb⟩
    · intro e he c hc
      exact hall.subset ((returned_run m₀ hs (hr.mono (fun _ _ _ h => h.1))).2 e he c hc)
    · obtain ⟨o, calls, t, hcalls, -, ht⟩ := Opening.completes rfl (hsound.live .error (by decide)) hfirst.symm
      exact ⟨calls, t, o, _, hcalls, ht⟩
    · intro o disk hnext
      rw [hsound.assemble hnext] at hfirst
      injection hfirst with hfirst
      refine ⟨?_, fun s' hcrash => ?_⟩
      · rw [← hfirst, ← assemble_pool, hdb, hpool]
        rfl
      · rw [Opening.assembled_crash hsound hnext (hundone o disk hnext) hcrash]
        exact hthen

theorem killed_process_recovers_first : ∃ s₀ calls t o disk db₁,
    s₀.unsynced = [1] ∧ s₀.undone = [encodeHeader 0] ∧
    Run (Restrict Opening.Step (fun _ e => e ≠ .crash)) s₀ calls t ∧ t.next = .assemble o disk ∧
    Database.open .db (some t.data) (some t.wal) ⟨1, true, none⟩ = .ok db₁ ∧
    ∀ s', Opening.Step t .crash s' →
      Database.open .db (some s'.data) (some s'.wal) ⟨1, true, none⟩ = .ok db₁ := by
  have hrun := (smallest_published.step (.publishDone rfl)).step (.commitDone rfl rfl)
  obtain ⟨hdata, hwal, hattempts⟩ := killed_process_recovers smallest_starts (guarded_of_unpoisoned hrun rfl)
    (by decide) rfl
  let s₀ : Opening := ⟨smallest.committed.pool.disk.file.contents, [1], [],
    smallest.committed.walFile.contents, [encodeHeader 0], .none⟩
  have hkilled : Killed (PageMap.commits ⟨1, fun _ => Page.zeroed⟩ [firstCommit]) smallest.committed s₀ := by
    refine ⟨hdata, hwal, fun id hid => ?_, rfl⟩
    rw [List.mem_singleton.mp hid]
    exact ⟨⟨by decide, by decide⟩, by decide⟩
  obtain ⟨-, -, -, -, -, -, ⟨calls, t, o, disk, hcalls, ht⟩, -⟩ :=
    hattempts .db ⟨1, true, none⟩ s₀ s₀ [] (by decide) hkilled .start
  have hlive : Run (Restrict Opening.Step (fun _ e => e ≠ .crash)) s₀ calls t :=
    hcalls.mono (fun _ _ _ h => ⟨h.1, by rw [h.2]; exact OpenEvent.noConfusion⟩)
  obtain ⟨db₁, -, hopen, -, -, -, -, hdone⟩ :=
    hattempts .db ⟨1, true, none⟩ s₀ t calls (by decide) hkilled hlive
  exact ⟨s₀, calls, t, o, disk, db₁, rfl, rfl, hlive, ht, hopen, (hdone o disk ht).2⟩

end Database

end OxenDB
