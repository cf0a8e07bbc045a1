import OxenDB.Database.LogSteps

namespace OxenDB

open Lib

namespace Counts

variable {m₀ : PageMap} {h : History} {db db' : Database} {e : Event} {holder holder' : Holder}
  {disk : DiskManager}

theorem settle (hc : Counts h db) (hh : db.holder = holder) (hs : holder.Settled)
    (hh' : db'.holder = holder') (hs' : holder'.Settled) (hpool : db'.pool = { db.pool with disk := disk })
    (hcount : disk.pageCount = db.pool.disk.pageCount) : Counts h db' where
  small := by
    rw [hpool]
    change disk.pageCount.toNat ≤ _
    rw [hcount]
    exact hc.small
  aimed x hx ht := by
    rw [hpool] at hx ⊢
    change DataPage disk.pageCount x.id
    rw [hcount]
    exact hc.aimed x hx ht
  counted := by
    refine (pageCounted_settled hh' hs').mpr (fun hn => ?_)
    rw [hpool]
    exact hcount.trans ((pageCounted_settled hh hs).mp hc.counted hn)

theorem poolStep (hc : Counts h db) (hl : Locks db) (hlog : Logged m₀ h db) {a : Action Owner}
    {label : Label Owner} {pool : BufferPool Owner} (ha : db.Allows a)
    (hs : db.pool.step a = some (pool, label)) :
    Counts h { db with pool := pool, holder := db.holder.afterCall label.returned } := by
  have hcount : pool.disk.pageCount = db.pool.disk.pageCount :=
    (BufferPool.step_steps hl.pool hc.small ha.not_sync hs).step.pageCount
  refine ⟨?_, ?_, ?_⟩
  · change pool.disk.pageCount.toNat ≤ _
    rw [hcount]
    exact hc.small
  · apply Stored.aimed_step hl hc.small ha _ hs hc.aimed
    rintro k id rd rfl
    exact hlog.writer_aimed hl hc ha
  · have hcounted := hc.counted
    have hmoved : PageCounted h { db with pool := pool } := by
      unfold PageCounted at hcounted ⊢
      simp only [hcount]
      exact hcounted
    have hspec := db.holder.afterCall_spec label.returned
    unfold PageCounted at hmoved ⊢
    generalize db.holder.afterCall label.returned = holder' at hspec ⊢
    generalize db.holder = holder at hspec hmoved
    cases hspec with
    | same | installed | flushed | flushFailed => exact hmoved
    | installFailed => trivial

theorem publishLock (hc : Counts h db) (hlog : Logged m₀ h db) {c : Commit} (hh : db.holder = .durable c)
    (hd : db.pool.disk.setPageCount c.pageCount = .ok disk) :
    Counts h { db.setDisk disk with holder := .publishing c c.installs } := by
  have hcounted := hc.counted
  rw [PageCounted, hh] at hcounted
  obtain ⟨s, hsince, -⟩ := hcounted
  have hcount : h.log.current.count = c.pageCount := by
    rw [Log.current, hsince, PageMap.commits_append]
    rfl
  rw [DiskManager.setPageCount] at hd
  split_ifs at hd with hlt
  injection hd with hd
  subst hd
  refine ⟨?_, fun x hx ht => ?_, ⟨s, hsince⟩, rfl⟩
  · change c.pageCount.toNat ≤ 2 ^ 52
    rw [← hcount]
    exact hlog.small.le
  · obtain ⟨hne, hx⟩ := hc.aimed x hx ht
    exact ⟨hne, UInt64.lt_of_lt_of_le hx (UInt64.not_lt.mp hlt)⟩

theorem step (hc : Counts h db) (hl : Locks db) (hlog : Logged m₀ h db) (hs : Database.Step db e db') :
    Counts (h.record e) db' := by
  cases hs with
  | refuse | beginRead | readLock | readDrop | readCount | readOutside | beginWrite
  | writeLockPoisoned | writerCount | writerOutside | readDirty | beginCheckpoint => exact { hc with }
  | pool ha hs => exact hc.poolStep hl hlog ha hs
  | @copyPage w i k _ id page label pool hh hd hs hr =>
    have ha : db.Allows (.guard i k .read) := .inr (.inl rfl)
    have hp := hc.poolStep hl hlog ha hs
    rw [((BufferPool.step_calls hl.pool hs).read hr).1, Holder.afterCall_none] at hp
    exact hp.settle hh trivial rfl trivial rfl rfl
  | writeLock _ hh | allocatePage _ hh | editPage _ hh | rollback hh | commitEmpty hh
  | commitMalformed hh | walWrite hh | walWriteFail hh | walSyncFail hh | resetSyncFail hh
  | resetRefused hh | truncateFail _ hh | rewriteFail _ hh | commitLogPoisoned hh | autoCheckpoint hh
  | checkpointLock _ hh | snapshot hh | nextShard hh | flushedAll hh | syncPages hh | syncHeader hh
  | syncedPages hh | syncedHeader hh | syncPagesFail hh | syncHeaderFail hh | writeFileHeader hh
  | writeFileHeaderFail _ hh | truncate hh | rewrite hh =>
    exact hc.settle hh trivial rfl trivial rfl rfl
  | commitLog hh | commitDone hh =>
    have hc' : Counts h { db with holder := .free } := hc.settle hh trivial rfl trivial rfl rfl
    exact { hc' with }
  | @walSync c hh =>
    have hpoison : db.poisoned = false := hl.healthy (by rw [hh]; trivial)
    refine ⟨hc.small, hc.aimed, h.log.since, rfl, ?_⟩
    exact (pageCounted_settled hh trivial).mp hc.counted (hlog.not_stuck hpoison)
  | publishLock hh _ hd => exact hc.publishLock hlog hh hd
  | publishShrink hh => exact ⟨hc.small, hc.aimed, trivial⟩
  | @publishDone c hh =>
    have hcounted := hc.counted
    rw [PageCounted, hh] at hcounted
    obtain ⟨⟨s, hsince⟩, hcount⟩ := hcounted
    have hcurrent : h.log.current.count = c.pageCount := by
      rw [Log.current, hsince, PageMap.commits_append]
      rfl
    exact ⟨hc.small, hc.aimed, fun _ => hcount.trans hcurrent.symm⟩
  | @resetSync auto hh =>
    have hc' : Counts h { db with holder := .free } := hc.settle hh trivial rfl trivial rfl rfl
    exact ⟨hc'.small, hc'.aimed, hc'.counted⟩
  | @poison f hh =>
    refine ⟨hc.small, hc.aimed, ?_⟩
    cases f with
    | publish c => rintro ⟨⟩
    | log => exact (pageCounted_settled hh trivial).mp hc.counted
    | checkpoint auto => exact (pageCounted_settled hh trivial).mp hc.counted

end Counts

end OxenDB
