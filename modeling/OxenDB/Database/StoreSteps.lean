import OxenDB.Database.LogSteps

namespace OxenDB

open Lib

theorem Visible.count_lt {c : Cache} {m : PageMap} (h : Visible c m) (hc : c.Coherent)
    (hclean : ∀ id, c.Clean id) (hfits : c.disk.file.contents.length ≤ maxFileSize) :
    m.count.toNat < 2 ^ 51 := by
  by_contra hge
  have hlt := m.count.toNat_lt
  have hid : (UInt64.ofNat (m.count.toNat - 1)).toNat = m.count.toNat - 1 := by
    rw [UInt64.toNat_ofNat']
    omega
  have hdata : DataPage m.count (UInt64.ofNat (m.count.toNat - 1)) := by
    refine ⟨fun h0 => ?_, ?_⟩
    · rw [h0, show PageId.HEADER.toNat = 0 from rfl] at hid
      omega
    · rw [UInt64.lt_iff_toNat_lt, hid]
      omega
  obtain ⟨-, -, hread⟩ := (h.2 _ hdata).holds hc (hclean _)
  have hlen := ((readAt_some_iff _ _ _ _).mp hread).1
  rw [slotOffset, hid, pageSize] at hlen
  rw [maxFileSize] at hfits
  omega

theorem DataFile.writeHeader_length {f : DataFile} (hf : f.contents.length ≤ maxFileSize) (header : Page)
    (n : ℕ) : (f.writeHeader header n).contents.length ≤ maxFileSize := by
  have hlen : (header.data.take n).length ≤ pageSize := by
    rw [List.length_take, header.size]
    exact Nat.min_le_right _ _
  change (writeAt f.contents 0 (header.data.take n)).length ≤ maxFileSize
  by_cases hb : header.data.take n = []
  · rw [hb, writeAt_nil]
    exact hf
  · rw [writeAt_length _ _ _ hb]
    rw [maxFileSize] at hf ⊢
    rw [pageSize] at hlen
    omega

namespace Stored

variable {m₀ : PageMap} {h : History} {db db' : Database} {e : Event} {holder holder' : Holder}
  {disk : DiskManager}

theorem settle (hst : Stored h db) (hh : db.holder = holder) (hs : holder.Settled)
    (hh' : db'.holder = holder') (hs' : holder'.Settled) (hpool : db'.pool = { db.pool with disk := disk })
    (hcount : disk.pageCount = db.pool.disk.pageCount)
    (hholds : ∀ id page, db.pool.disk.Holds id page → disk.Holds id page)
    (hfits : disk.file.contents.length ≤ maxFileSize) (hflushed : Flushed db') : Stored h db' := by
  refine hst.move hpool hcount hholds hfits (fun _ hc => hc) ?_ hflushed
  refine (shown_settled hh' hs').mpr (fun hn => ?_)
  rw [hpool]
  exact ((shown_settled hh hs).mp hst.shown hn).mono hcount hholds

theorem flushed_of (hh : db.holder = holder) (hc : ∀ auto stage, holder ≠ .checkpointing auto stage) :
    Flushed db := by
  unfold Flushed
  rw [hh]
  cases holder with
  | checkpointing auto stage => exact absurd rfl (hc auto stage)
  | _ => trivial

theorem clean_of (hst : Stored h db) {auto : Option Commit} {stage : CheckpointAt}
    (hh : db.holder = .checkpointing auto stage) (hs : ∀ i todo, stage ≠ .flush i todo) (id : PageId) :
    db.pool.cache.Clean id := by
  have hf := hst.flushed
  unfold Flushed at hf
  rw [hh] at hf
  cases stage with
  | flush i todo => exact absurd rfl (hs i todo)
  | _ => exact hf id

theorem flushed_start (hl : Locks db) (hh : db.holder = holder) (hq : holder.Quiet)
    (auto : Option Commit) : Flushed { db with holder := .checkpointing auto (.flush 0 none) } := by
  refine ⟨fun x hx hck => ?_, fun id _ => ?_⟩
  · obtain ⟨r, k, ho, -⟩ := hl.quiet hh hq x hx
    cases ho.symm.trans hck
  · rcases Nat.eq_zero_or_pos (db.pool.shardFor id) with h0 | h0
    · exact .inr ⟨h0.symm, by rintro _ ⟨⟩⟩
    · exact .inl h0

theorem flush_ahead (hst : Stored h db) {auto : Option Commit} {i : ℕ} {todo : Option (List PageId)}
    (hh : db.holder = .checkpointing auto (.flush i todo)) :
    CleanDrops db.pool.cache db.pool.activities ∧ ∀ id, ¬ db.pool.cache.Clean id →
      i < db.pool.shardFor id ∨ i = db.pool.shardFor id ∧ ∀ ids, todo = some ids → id ∈ ids := by
  have hf := hst.flushed
  unfold Flushed at hf
  rw [hh] at hf
  exact hf

theorem cached_mem {id : PageId} {i : ℕ} {sh : Shard Owner} (hi : db.pool.lockState i = some sh)
    (hid : i = db.pool.shardFor id) (hc : ¬ db.pool.cache.Clean id) : sh.state.pageTable id ≠ none := by
  obtain ⟨frame, hframe, -⟩ := not_clean hc
  obtain ⟨hget, -⟩ := BufferPool.lockState_some hi
  rw [show db.pool.cache.frame id = sh.cached id from BufferPool.cached_of_shard hget hid.symm,
    Shard.cached] at hframe
  intro hn
  rw [hn] at hframe
  cases hframe

theorem publishLock (hst : Stored h db) (hl : Locks db) (hlog : Logged m₀ h db) {c : Commit}
    (hh : db.holder = .durable c) (hd : db.pool.disk.setPageCount c.pageCount = .ok disk) :
    Stored h { db.setDisk disk with holder := .publishing c c.installs } := by
  have hshown := hst.shown
  unfold Shown at hshown
  rw [hh] at hshown
  obtain ⟨s, hsince, hv⟩ := hshown
  have hcount : h.log.current.count = c.pageCount := by
    rw [Log.current, hsince, PageMap.commits_append]
    rfl
  rw [DiskManager.setPageCount] at hd
  split_ifs at hd with hlt
  injection hd with hd
  subst hd
  have hmono : ∀ {id : PageId}, DataPage db.pool.disk.pageCount id → DataPage c.pageCount id :=
    fun hid => ⟨hid.1, UInt64.lt_of_lt_of_le hid.2 (UInt64.not_lt.mp hlt)⟩
  refine ⟨hst.coherent, hst.fits, ?_, hst.dirty, ?_, ?_, ?_, trivial⟩
  · change c.pageCount.toNat ≤ 2 ^ 52
    rw [← hcount]
    exact hlog.small.le
  · exact fun id frame hf hd => hmono (hst.inside id frame hf hd)
  · exact fun x hx ht => hmono (hst.aimed x hx ht)
  · refine ⟨s, [], c.installs, hsince, rfl, Remaining.none (fun x hx hp => ?_), rfl, fun id hid => ?_⟩
    · obtain ⟨r, k, ho, -⟩ := hl.quiet hh trivial x hx
      cases ho.symm.trans hp
    · rcases hid with hid | hid
      · exact (hv.2 id hid).mono (fun h => h)
      · cases hid

theorem publishDone (hst : Stored h db) (hlog : Logged m₀ h db) {c : Commit}
    (hh : db.holder = .publishing c []) : Stored h { db with holder := .published c } := by
  obtain ⟨s, done, rest, hsince, hinst, ⟨todo, hp, hr⟩, hcount, hpub⟩ := hst.shown_publishing hh
  have hchain := hlog.chain
  rw [hsince] at hchain
  obtain ⟨hcs, hext⟩ := hchain.last
  have hrest : rest = [] := by
    rw [hh] at hp
    injection hp with _ hp
    rcases hr with ⟨-, -, -, -, u, rfl⟩ | ⟨-, rfl⟩
    · cases hp
    · exact hp.symm
  rw [hrest, List.append_nil, hext.installs_eq] at hinst
  rw [← hinst] at hpub
  refine { hst with shown := fun _ => ?_, flushed := trivial }
  have hv := hpub.visible hext hcount
  rw [Log.current, hsince, PageMap.commits_append]
  exact hv

theorem resetSync (hst : Stored h db) {auto : Option Commit} (hh : db.holder = .checkpointing auto .rewritten)
    {wal : Wal} {walFile : WalFile} :
    Stored (h.record (.resetDone auto)) { db with holder := .free, wal := wal, walFile := walFile } := by
  refine { hst with dirty := fun id frame hf hd => ?_, shown := ?_, flushed := trivial }
  · have hc := hst.clean_of hh (by rintro i todo ⟨⟩) id frame hf
    rw [hc] at hd
    cases hd
  · have hv := (shown_settled hh trivial).mp hst.shown
    exact hv

theorem poison (hst : Stored h db) {f : Failure} (hh : db.holder = .failed f) :
    Stored (h.record (.poisoned f)) { db with poisoned := true, holder := .free } := by
  cases f with
  | publish c => exact { hst with shown := (by rintro ⟨⟩), flushed := trivial }
  | log => exact { hst with shown := (shown_settled hh trivial).mp hst.shown, flushed := trivial }
  | checkpoint auto =>
    exact { hst with shown := (shown_settled hh trivial).mp hst.shown, flushed := trivial }

theorem count_lt (hst : Stored h db) (hlog : Logged m₀ h db) {auto : Option Commit} {stage : CheckpointAt}
    (hh : db.holder = .checkpointing auto stage) (hs : ∀ i todo, stage ≠ .flush i todo)
    (hp : db.poisoned = false) : h.log.current.count.toNat < 2 ^ 51 := by
  have hv := (shown_settled hh trivial).mp hst.shown (hlog.not_stuck hp)
  exact hv.count_lt hst.coherent (hst.clean_of hh hs) hst.fits

theorem step (hst : Stored h db) (hl : Locks db) (hlog : Logged m₀ h db)
    (hs : Database.Step db e db') : Stored (h.record e) db' := by
  have keep : ∀ id page, db.pool.disk.Holds id page → db.pool.disk.Holds id page := fun _ _ h => h
  have sync : ∀ ev id page, db.pool.disk.Holds id page →
      DiskManager.Holds { db.pool.disk with file := db.pool.disk.file.sync ev } id page :=
    fun ev _ _ => DiskManager.holds_sync ev
  have header : ∀ n id page, db.pool.disk.Holds id page → DiskManager.Holds { db.pool.disk with
      file := db.pool.disk.file.writeHeader (FileHeader.mk db.pool.disk.pageCount).encode n } id page :=
    fun n _ _ => DiskManager.holds_writeHeader _ n
  have fits : ∀ ev, (db.pool.disk.file.sync ev).contents.length ≤ maxFileSize := by
    intro ev
    rw [DataFile.sync_contents]
    exact hst.fits
  have fitsHeader := DataFile.writeHeader_length hst.fits (FileHeader.mk db.pool.disk.pageCount).encode
  cases hs with
  | refuse | beginRead | readLock | readDrop | readCount | readOutside | beginWrite
  | writeLockPoisoned | writerCount | writerOutside | readDirty | beginCheckpoint =>
    exact { hst with }
  | @pool a label pool ha hs =>
    refine hst.poolStep hl hlog.base hlog.chain ha ?_ hs
    rintro k id rd rfl
    exact hlog.writer_aimed hl hst.counts ha
  | writeLock _ hh | allocatePage _ hh | editPage _ hh | rollback hh | commitEmpty hh
  | commitMalformed hh | walWrite hh | walWriteFail hh | walSyncFail hh | resetSyncFail hh
  | resetRefused hh | truncateFail _ hh | rewriteFail _ hh | commitLogPoisoned hh =>
    exact hst.settle hh trivial rfl trivial rfl rfl keep hst.fits (flushed_of rfl (by rintro _ _ ⟨⟩))
  | @copyPage w i k _ id page label pool hh hd hs hr =>
    have ha : db.Allows (.guard i k .read) := .inr (.inl rfl)
    have hp := hst.poolStep hl hlog.base hlog.chain ha (by rintro _ _ _ ⟨⟩) hs
    rw [((BufferPool.step_calls hl.pool hs).read hr).1, Holder.afterCall_none] at hp
    exact hp.settle hh trivial rfl trivial rfl rfl (fun _ _ h => h) hp.fits
      (flushed_of rfl (by rintro _ _ ⟨⟩))
  | commitLog hh | commitDone hh =>
    have hst' : Stored h { db with holder := .free } :=
      hst.settle hh trivial rfl trivial rfl rfl keep hst.fits trivial
    exact { hst' with }
  | @walSync c hh =>
    have hpoison : db.poisoned = false := hl.healthy (by rw [hh]; trivial)
    refine hst.move rfl rfl keep hst.fits (fun _ hc => List.mem_append_left _ hc) ?_ trivial
    exact ⟨h.log.since, rfl, (shown_settled hh trivial).mp hst.shown (hlog.not_stuck hpoison)⟩
  | publishLock hh _ hd => exact hst.publishLock hl hlog hh hd
  | publishShrink hh => exact hst.move rfl rfl keep hst.fits (fun _ hc => hc) trivial trivial
  | publishDone hh => exact hst.publishDone hlog hh
  | @autoCheckpoint c hh _ =>
    exact hst.settle hh trivial rfl trivial rfl rfl keep hst.fits (flushed_start hl hh trivial (some c))
  | checkpointLock _ hh =>
    exact hst.settle hh trivial rfl trivial rfl rfl keep hst.fits (flushed_start hl hh trivial none)
  | @snapshot auto i sh ids hh hi hnd hids =>
    obtain ⟨hdrops, hahead⟩ := hst.flush_ahead hh
    refine hst.settle hh trivial rfl trivial rfl rfl keep hst.fits ⟨hdrops, fun id hid => ?_⟩
    rcases hahead id hid with hlt | ⟨he, -⟩
    · exact .inl hlt
    · refine .inr ⟨he, ?_⟩
      rintro _ ⟨⟩
      exact (hids id).mpr (cached_mem hi he hid)
  | @nextShard auto i hh =>
    obtain ⟨hdrops, hahead⟩ := hst.flush_ahead hh
    refine hst.settle hh trivial rfl trivial rfl rfl keep hst.fits ⟨hdrops, fun id hid => ?_⟩
    rcases hahead id hid with hlt | ⟨-, hm⟩
    · rcases Nat.lt_or_eq_of_le (Nat.succ_le_of_lt hlt) with hlt | he
      · exact .inl hlt
      · exact .inr ⟨he, by rintro _ ⟨⟩⟩
    · cases hm [] rfl
  | @flushedAll auto i hh hi =>
    obtain ⟨-, hahead⟩ := hst.flush_ahead hh
    refine hst.settle hh trivial rfl trivial rfl rfl keep hst.fits (fun id => ?_)
    by_contra hid
    have hlt := BufferPool.shardFor_lt hl.pool.nonempty id
    rcases hahead id hid with hlt' | ⟨he, -⟩ <;> omega
  | syncPages hh | syncHeader hh =>
    exact hst.settle hh trivial rfl trivial rfl rfl (sync .start) (fits .start)
      (fun id => hst.clean_of hh (by rintro _ _ ⟨⟩) id)
  | syncedPages hh | syncedHeader hh =>
    exact hst.settle hh trivial rfl trivial rfl rfl (sync .finish) (fits .finish)
      (fun id => hst.clean_of hh (by rintro _ _ ⟨⟩) id)
  | syncPagesFail hh | syncHeaderFail hh =>
    exact hst.settle hh trivial rfl trivial rfl rfl (sync .fail) (fits .fail) trivial
  | writeFileHeader hh =>
    exact hst.settle hh trivial rfl trivial rfl rfl (header _) (fitsHeader _)
      (fun id => hst.clean_of hh (by rintro _ _ ⟨⟩) id)
  | writeFileHeaderFail n hh =>
    exact hst.settle hh trivial rfl trivial rfl rfl (header n) (fitsHeader n) trivial
  | truncate hh | rewrite hh =>
    exact hst.settle hh trivial rfl trivial rfl rfl keep hst.fits
      (fun id => hst.clean_of hh (by rintro _ _ ⟨⟩) id)
  | resetSync hh => exact hst.resetSync hh
  | poison hh => exact hst.poison hh

end Stored

end OxenDB
