import OxenDB.Database.Owned

namespace OxenDB

open Lib

structure Locks (db : Database) : Prop where
  pool : db.pool.Inv
  unique : Unique db.pool.activities
  owned : ∀ x ∈ db.pool.activities, Owned db.holder db.readers x
  exclusive : db.holder.exclusive = true → db.readers = []
  healthy : db.holder.Commits → db.poisoned = false
  walHealthy : db.wal.poisoned = true → db.poisoned = true ∨ ∃ f, db.holder = .failed f

theorem DiskManager.setPageCount_file {d d' : DiskManager} {count : UInt64}
    (h : d.setPageCount count = .ok d') : d'.file = d.file := by
  rw [setPageCount] at h
  split_ifs at h
  injection h with h
  rw [← h]

theorem DiskManager.holds_writeHeader {d : DiskManager} (header : Page) (n : ℕ) {id : PageId}
    {page : Page} (h : d.Holds id page) :
    DiskManager.Holds { d with file := d.file.writeHeader header n } id page := by
  refine ⟨h.1, h.2.1, ?_⟩
  have hlen : (header.data.take n).length ≤ pageSize := by
    rw [List.length_take, header.size]
    exact Nat.min_le_right _ _
  have hzero : PageId.HEADER.toNat < 2 ^ 52 := by decide
  exact readAt_writeAt_ne hlen hzero h.1 h.2.2

namespace Locks

variable {db db' : Database} {e : Event}

theorem move (h : Locks db) {disk : DiskManager} {holder : Holder}
    (hpool : db'.pool = { db.pool with disk := disk }) (hreaders : db'.readers = db.readers)
    (hholder : db'.holder = holder) (hdisk : ∀ id page, db.pool.disk.Holds id page → disk.Holds id page)
    (hby : ∀ x ∈ db.pool.activities, ByReader db.readers x)
    (hex : holder.exclusive = true → db.readers = []) (hhealthy : holder.Commits → db'.poisoned = false)
    (hwal : db'.wal.poisoned = true → db'.poisoned = true ∨ ∃ f, holder = .failed f) : Locks db' where
  pool := by rw [hpool]; exact h.pool.setDisk hdisk
  unique := by rw [hpool]; exact h.unique
  owned x hx := by
    rw [hpool] at hx
    rw [hreaders]
    exact Owned.of_reader (hby x hx) _
  exclusive := by rw [hholder, hreaders]; exact hex
  healthy := by rw [hholder]; exact hhealthy
  walHealthy := by rw [hholder]; exact hwal

theorem quiet (h : Locks db) {holder : Holder} (hh : db.holder = holder) (hq : holder.Quiet) :
    ∀ x ∈ db.pool.activities, ByReader db.readers x := by
  intro x hx
  have ho := h.owned x hx
  rw [hh] at ho
  exact ho.of_quiet hq

theorem notWriting (h : Locks db) {w : WriteTxn} (hh : db.holder = .writer w) (hw : ¬ db.Writing) :
    ∀ x ∈ db.pool.activities, ByReader db.readers x := by
  intro x hx
  have ho := h.owned x hx
  refine ho.byReader (fun k hk => hw ⟨x, hx, k, hk⟩) (fun hk => ?_) (fun hk => ?_)
  · obtain ⟨_, _, _, he, -⟩ := ho.of_publisher hk
    rw [hh] at he
    cases he
  · obtain ⟨_, _, _, he, -⟩ := ho.of_checkpointer hk
    rw [hh] at he
    cases he

theorem walHealthy_of (h : Locks db) {holder : Holder} (hh : db.holder = holder)
    (hf : ∀ f, holder ≠ .failed f) (hw : db.wal.poisoned = true) : db.poisoned = true := by
  rcases h.walHealthy hw with hp | ⟨f, hp⟩
  · exact hp
  · exact absurd (hh.symm.trans hp) (hf f)

theorem advance (h : Locks db) {disk : DiskManager} {holder holder' : Holder}
    (hh : db.holder = holder) (hby : ∀ x ∈ db.pool.activities, ByReader db.readers x)
    (hpool : db'.pool = { db.pool with disk := disk }) (hreaders : db'.readers = db.readers)
    (hholder : db'.holder = holder') (hdisk : ∀ id page, db.pool.disk.Holds id page → disk.Holds id page)
    (hpoison : db'.poisoned = db.poisoned) (hwal : db'.wal.poisoned = db.wal.poisoned)
    (hfail : ∀ f, holder ≠ .failed f) (hcommits : holder'.Commits → holder.Commits)
    (hex : holder'.exclusive = true → db.readers = []) : Locks db' := by
  refine h.move hpool hreaders hholder hdisk hby hex (fun hc => ?_) (fun hw => ?_)
  · rw [hpoison]
    apply h.healthy
    rw [hh]
    exact hcommits hc
  · rw [hwal] at hw
    rw [hpoison]
    exact .inl (h.walHealthy_of hh hfail hw)

theorem fail (h : Locks db) {disk : DiskManager} {holder : Holder} {f : Failure}
    (hh : db.holder = holder) (hby : ∀ x ∈ db.pool.activities, ByReader db.readers x)
    (hpool : db'.pool = { db.pool with disk := disk }) (hreaders : db'.readers = db.readers)
    (hholder : db'.holder = .failed f)
    (hdisk : ∀ id page, db.pool.disk.Holds id page → disk.Holds id page)
    (hpoison : db'.poisoned = db.poisoned) (hcommits : (Holder.failed f).Commits → holder.Commits) :
    Locks db' := by
  refine h.move hpool hreaders hholder hdisk hby (by rintro ⟨⟩) (fun hc => ?_) (fun _ => .inr ⟨f, rfl⟩)
  rw [hpoison]
  apply h.healthy
  rw [hh]
  exact hcommits hc

theorem poolStep (h : Locks db) (hsmall : db.pool.disk.pageCount.toNat ≤ 2 ^ 52) {a : Action Owner}
    {label : Label Owner} {pool : BufferPool Owner} (ha : db.Allows a)
    (hs : db.pool.step a = some (pool, label)) :
    Locks { db with pool := pool, holder := db.holder.afterCall label.returned } where
  pool := (BufferPool.step_steps h.pool hsmall ha.not_sync hs).inv
  unique := BufferPool.step_unique h.pool h.unique hs
  owned := (BufferPool.step_calls h.pool hs).owned h.unique (fun _ hx => BufferPool.step_fresh hs hx)
    (fun _ hx => ha.owned hx) h.owned
  exclusive hx := h.exclusive ((Holder.afterCall_spec _ _).exclusive hx)
  healthy hx := h.healthy ((Holder.afterCall_spec _ _).commits hx)
  walHealthy hw := by
    rcases h.walHealthy hw with hp | ⟨f, hf⟩
    · exact .inl hp
    · exact .inr (Holder.afterCall_failed _ _ f hf)

theorem writer (h : Locks db) {w w' : WriteTxn} (hh : db.holder = .writer w) :
    Locks { db with holder := .writer w' } := by
  refine { h with owned := fun x hx => ?_, exclusive := by rintro ⟨⟩, healthy := fun _ => ?_,
                  walHealthy := fun hw => ?_ }
  · have ho := h.owned x hx
    rw [hh] at ho
    unfold Owned at ho ⊢
    cases hw : x.owner with
    | reader r k => rw [hw] at ho; exact ho
    | writer k => rw [hw] at ho; exact ⟨⟨w', rfl⟩, ho.2⟩
    | publisher =>
      rw [hw] at ho
      obtain ⟨_, _, _, he, -⟩ := ho
      cases he
    | checkpointer =>
      rw [hw] at ho
      obtain ⟨_, _, _, he, -⟩ := ho
      cases he
  · apply h.healthy
    rw [hh]
    trivial
  · exact .inl (h.walHealthy_of hh (by rintro f ⟨⟩) hw)

theorem step (h : Locks db) (hsmall : db.pool.disk.pageCount.toNat ≤ 2 ^ 52)
    (hs : Database.Step db e db') : Locks db' := by
  have keep : ∀ id page, db.pool.disk.Holds id page → db.pool.disk.Holds id page := fun _ _ h => h
  have sync : ∀ ev id page, db.pool.disk.Holds id page →
      DiskManager.Holds { db.pool.disk with file := db.pool.disk.file.sync ev } id page :=
    fun ev _ _ => DiskManager.holds_sync ev
  have header : ∀ n id page, db.pool.disk.Holds id page → DiskManager.Holds { db.pool.disk with
      file := db.pool.disk.file.writeHeader (FileHeader.mk db.pool.disk.pageCount).encode n } id page :=
    fun n _ _ => DiskManager.holds_writeHeader _ n
  have stage : ∀ {auto at₁ at₂}, (Holder.checkpointing auto at₂).Commits →
      (Holder.checkpointing auto at₁).Commits := by
    rintro (_ | c) _ _ hc
    · exact hc
    · trivial
  have failed : ∀ {auto at₁}, (Holder.failed (.checkpoint auto)).Commits →
      (Holder.checkpointing auto at₁).Commits := by
    rintro (_ | c) _ hc
    · exact hc
    · trivial
  cases hs with
  | refuse => exact h
  | beginRead => exact { h with }
  | readLock hr hx =>
    refine { h with owned := fun x hm => (h.owned x hm).mono (List.subset_cons_self _ _), exclusive := ?_ }
    intro he
    rw [hx] at he
    cases he
  | @readDrop r hr hx =>
    refine { h with owned := fun x hm => ?_, exclusive := fun he => ?_ }
    · have ho := h.owned x hm
      unfold Owned at ho ⊢
      cases hw : x.owner with
      | reader r' k =>
        rw [hw] at ho
        have hne : r' ≠ r := by
          rintro rfl
          exact hx ⟨x, hm, k, hw⟩
        exact ⟨(List.mem_erase_of_ne hne).mpr ho.1, ho.2⟩
      | writer k => rw [hw] at ho; exact ho
      | publisher => rw [hw] at ho; exact ho
      | checkpointer => rw [hw] at ho; exact ho
    · rw [h.exclusive he] at hr
      cases hr
  | readCount => exact h
  | readOutside => exact h
  | pool ha hs => exact h.poolStep hsmall ha hs
  | beginWrite => exact { h with }
  | writeLock _ hh hp =>
    refine h.move rfl rfl rfl keep (h.quiet hh trivial) (by rintro ⟨⟩)
      (fun _ => Database.checkPoisoned_ok.mp hp) (fun hw => ?_)
    exact .inl (h.walHealthy_of hh (by rintro f ⟨⟩) hw)
  | writeLockPoisoned => exact { h with }
  | writerCount => exact h
  | writerOutside => exact h
  | allocatePage ty hh => exact h.writer hh
  | @copyPage w i k _ _ _ _ _ hh hd hs hr =>
    have ha : db.Allows (.guard i k .read) := .inr (.inl rfl)
    have hp := h.poolStep hsmall ha hs
    have hret := ((BufferPool.step_calls h.pool hs).read hr).1
    rw [hret, Holder.afterCall_none] at hp
    exact hp.writer hh
  | editPage page hh hd => exact h.writer hh
  | readDirty => exact h
  | rollback hh hw =>
    exact h.advance hh (h.notWriting hh hw) rfl rfl rfl keep rfl rfl (by rintro f ⟨⟩) (by rintro ⟨⟩)
      (by rintro ⟨⟩)
  | commitEmpty hh hw _ =>
    exact h.advance hh (h.notWriting hh hw) rfl rfl rfl keep rfl rfl (by rintro f ⟨⟩) (by rintro ⟨⟩)
      (by rintro ⟨⟩)
  | commitMalformed hh hw _ =>
    exact h.advance hh (h.notWriting hh hw) rfl rfl rfl keep rfl rfl (by rintro f ⟨⟩) (by rintro ⟨⟩)
      (by rintro ⟨⟩)
  | commitLog hh hw _ _ ha =>
    exact h.advance hh (h.notWriting hh hw) rfl rfl rfl keep rfl (Wal.appendAll_poisoned ha)
      (by rintro f ⟨⟩) (fun _ => trivial) (by rintro ⟨⟩)
  | commitLogPoisoned hh hw _ _ ha =>
    exact h.fail hh (h.notWriting hh hw) rfl rfl rfl keep rfl (fun _ => trivial)
  | walWrite hh _ =>
    exact h.advance hh (h.quiet hh trivial) rfl rfl rfl keep rfl rfl (by rintro f ⟨⟩) (fun _ => trivial)
      (by rintro ⟨⟩)
  | walWriteFail hh _ _ =>
    exact h.fail hh (h.quiet hh trivial) rfl rfl rfl keep rfl (fun _ => trivial)
  | walSync hh =>
    exact h.advance hh (h.quiet hh trivial) rfl rfl rfl keep rfl rfl (by rintro f ⟨⟩) (fun _ => trivial)
      (by rintro ⟨⟩)
  | walSyncFail hh =>
    exact h.fail hh (h.quiet hh trivial) rfl rfl rfl keep rfl (fun _ => trivial)
  | @publishLock c disk hh hr hd =>
    have hfile := DiskManager.setPageCount_file hd
    refine h.advance hh (h.quiet hh trivial) rfl rfl rfl (fun id page hp => ?_) rfl rfl
      (by rintro f ⟨⟩) (fun _ => trivial) (fun _ => hr)
    rw [DiskManager.Holds, hfile]
    exact hp
  | publishShrink hh hr _ =>
    exact h.fail hh (h.quiet hh trivial) rfl rfl rfl keep rfl (fun _ => trivial)
  | publishDone hh =>
    exact h.advance hh (h.quiet hh trivial) rfl rfl rfl keep rfl rfl (by rintro f ⟨⟩) (fun _ => trivial)
      (by rintro ⟨⟩)
  | commitDone hh _ =>
    exact h.advance hh (h.quiet hh trivial) rfl rfl rfl keep rfl rfl (by rintro f ⟨⟩) (by rintro ⟨⟩)
      (by rintro ⟨⟩)
  | autoCheckpoint hh _ =>
    exact h.advance hh (h.quiet hh trivial) rfl rfl rfl keep rfl rfl (by rintro f ⟨⟩) (fun _ => trivial)
      (by rintro ⟨⟩)
  | beginCheckpoint => exact { h with }
  | checkpointLock _ hh =>
    exact h.advance hh (h.quiet hh trivial) rfl rfl rfl keep rfl rfl (by rintro f ⟨⟩) (by rintro ⟨⟩)
      (by rintro ⟨⟩)
  | snapshot hh _ _ _ =>
    exact h.advance hh (h.quiet hh trivial) rfl rfl rfl keep rfl rfl (by rintro f ⟨⟩) stage
      (by rintro ⟨⟩)
  | nextShard hh =>
    exact h.advance hh (h.quiet hh trivial) rfl rfl rfl keep rfl rfl (by rintro f ⟨⟩) stage
      (by rintro ⟨⟩)
  | flushedAll hh _ =>
    exact h.advance hh (h.quiet hh trivial) rfl rfl rfl keep rfl rfl (by rintro f ⟨⟩) stage
      (by rintro ⟨⟩)
  | syncPages hh =>
    exact h.advance hh (h.quiet hh trivial) rfl rfl rfl (sync .start) rfl rfl (by rintro f ⟨⟩) stage
      (by rintro ⟨⟩)
  | syncedPages hh =>
    exact h.advance hh (h.quiet hh trivial) rfl rfl rfl (sync .finish) rfl rfl (by rintro f ⟨⟩) stage
      (by rintro ⟨⟩)
  | syncPagesFail hh =>
    exact h.fail hh (h.quiet hh trivial) rfl rfl rfl (sync .fail) rfl failed
  | writeFileHeader hh =>
    exact h.advance hh (h.quiet hh trivial) rfl rfl rfl (header _) rfl rfl (by rintro f ⟨⟩) stage
      (by rintro ⟨⟩)
  | writeFileHeaderFail n hh =>
    exact h.fail hh (h.quiet hh trivial) rfl rfl rfl (header n) rfl failed
  | syncHeader hh =>
    exact h.advance hh (h.quiet hh trivial) rfl rfl rfl (sync .start) rfl rfl (by rintro f ⟨⟩) stage
      (by rintro ⟨⟩)
  | syncedHeader hh =>
    exact h.advance hh (h.quiet hh trivial) rfl rfl rfl (sync .finish) rfl rfl (by rintro f ⟨⟩) stage
      (by rintro ⟨⟩)
  | syncHeaderFail hh =>
    exact h.fail hh (h.quiet hh trivial) rfl rfl rfl (sync .fail) rfl failed
  | resetRefused hh _ =>
    exact h.fail hh (h.quiet hh trivial) rfl rfl rfl keep rfl failed
  | truncate hh _ =>
    exact h.advance hh (h.quiet hh trivial) rfl rfl rfl keep rfl rfl (by rintro f ⟨⟩) stage
      (by rintro ⟨⟩)
  | truncateFail _ hh _ =>
    exact h.fail hh (h.quiet hh trivial) rfl rfl rfl keep rfl failed
  | rewrite hh _ =>
    exact h.advance hh (h.quiet hh trivial) rfl rfl rfl keep rfl rfl (by rintro f ⟨⟩) stage
      (by rintro ⟨⟩)
  | rewriteFail _ hh _ =>
    exact h.fail hh (h.quiet hh trivial) rfl rfl rfl keep rfl failed
  | resetSync hh =>
    exact h.advance hh (h.quiet hh trivial) rfl rfl rfl keep rfl rfl (by rintro f ⟨⟩) (by rintro ⟨⟩)
      (by rintro ⟨⟩)
  | resetSyncFail hh =>
    exact h.fail hh (h.quiet hh trivial) rfl rfl rfl keep rfl failed
  | poison hh =>
    exact h.move rfl rfl rfl keep (h.quiet hh trivial) (by rintro ⟨⟩) (by rintro ⟨⟩) (fun _ => .inl rfl)

end Locks

end OxenDB
