import OxenDB.Database.Checkpoint

namespace OxenDB

open Lib

namespace Event

def logs : Event → Option Commit
  | .logged c => some c
  | _ => none

/-- The commit that returns Ok with this step; it does so even if the checkpoint it ran failed. -/
def returns : Event → Option Commit
  | .commitOk c => some c
  | .resetDone auto => auto
  | .poisoned (.checkpoint auto) => auto
  | _ => none

def Overwrites : Event → Prop
  | .header _ => True
  | .truncated _ => True
  | .rewritten _ => True
  | .resetDone _ => True
  | _ => False

end Event

def loggedCommits (es : List Event) : List Commit := es.filterMap Event.logs

def Holder.owes : Holder → Option Commit
  | .durable c => some c
  | .publishing c _ => some c
  | .published c => some c
  | .checkpointing auto _ => auto
  | .failed (.publish c) => some c
  | .failed (.checkpoint auto) => auto
  | _ => none

def Owes (h : History) (db : Database) : Prop := ∀ c, db.holder.owes = some c → c ∈ h.all

theorem Holder.AfterCall.owes {r : Option (Owner × PageId × Except Error Unit)} {holder holder' : Holder}
    (h : AfterCall r holder holder') : holder'.owes = holder.owes := by
  cases h with
  | same | installed | installFailed | flushed | flushFailed => rfl

section Step

variable {m₀ : PageMap} {h : History} {db db' : Database} {e : Event}

theorem Owes.step (ho : Owes h db) (hs : Database.Step db e db') : Owes (h.record e) db' := by
  cases hs with
  | pool _ _ =>
    intro c hc
    rw [show Holder.owes _ = _ from (Holder.afterCall_spec _ _).owes] at hc
    exact ho c hc
  | publishLock hh | publishShrink hh | publishDone hh | autoCheckpoint hh | snapshot hh
  | nextShard hh | flushedAll hh | syncPages hh | syncedPages hh | syncPagesFail hh
  | writeFileHeader hh | writeFileHeaderFail _ hh | syncHeader hh | syncedHeader hh | syncHeaderFail hh
  | resetRefused hh | truncate hh | truncateFail _ hh | rewrite hh | rewriteFail _ hh | resetSyncFail hh =>
    intro c hc
    apply ho
    rw [hh]
    exact hc
  | walSync hh =>
    rintro c hc
    cases hc
    exact List.mem_append_right _ List.mem_cons_self
  | refuse | beginRead | readLock | readDrop | readCount | readOutside | beginWrite
  | writeLockPoisoned | writerCount | writerOutside | readDirty | beginCheckpoint => exact ho
  | _ => rintro c ⟨⟩

theorem Owes.returned (ho : Owes h db) (hs : Database.Step db e db') {c : Commit} (hc : e.returns = some c) :
    c ∈ h.all := by
  cases hs with
  | commitDone hh =>
    apply ho
    rw [hh]
    exact hc
  | resetSync hh =>
    apply ho
    rw [hh]
    exact hc
  | @poison f hh =>
    apply ho
    rw [hh]
    cases f with
    | checkpoint auto => exact hc
    | _ => cases hc
  | _ => cases hc

theorem History.record_all (h : History) (e : Event) : h.all <+: (h.record e).all := by
  cases e with
  | durable c => exact List.prefix_append _ _
  | poisoned f =>
    cases f with
    | _ => exact List.prefix_refl _
  | _ => exact List.prefix_refl _

theorem Inv.logged_step (hi : Inv m₀ h db) (hs : Database.Step db e db') :
    (h.record e).all ++ (h.record e).log.pending.toList = h.all ++ h.log.pending.toList ++ e.logs.toList := by
  cases hs with
  | commitLog hh =>
    have hidle := (hi.logged.idle_writer hi.locks hh).2.1.pending
    rw [hidle]
    simp [Event.logs, History.record, Log.propose]
  | walSync hh =>
    have hphase := hi.logged.phase
    rw [hh] at hphase
    rw [hphase.1.pending.pending]
    simp [Event.logs, History.record, Log.push]
  | resetSync hh =>
    have hphase := hi.logged.phase
    rw [hh] at hphase
    rw [hphase.1.pending]
    simp [Event.logs, History.record, Log.reset]
  | @poison f hh =>
    cases f with
    | _ => simp [Event.logs, History.record]
  | _ => simp [Event.logs, History.record]

end Step

theorem commits_count_lt {m : PageMap} {cs : List Commit} (hm : m.count.toNat < 2 ^ 51)
    (hc : ∀ c ∈ cs, c.pageCount.toNat < 2 ^ 51) : (m.commits cs).count.toNat < 2 ^ 51 := by
  induction cs generalizing m with
  | nil => exact hm
  | cons c cs ih =>
    apply @ih (m.commit c)
    · exact hc c List.mem_cons_self
    · exact fun c' hc' => hc c' (List.mem_cons_of_mem _ hc')

theorem Database.Starts.count_lt {db : Database} {m : PageMap} (hs : db.Starts m) : m.count.toNat < 2 ^ 51 := by
  obtain ⟨o, options, ho, -⟩ := hs
  exact ho.count_lt

namespace Database

variable {m₀ : PageMap} {db₀ db : Database} {es : List Event}

theorem logged_run (hs : db₀.Starts m₀) (hr : Run Database.Step db₀ es db) :
    loggedCommits es = (History.of m₀ db₀.wal.nextSeq es).all ++
      (History.of m₀ db₀.wal.nextSeq es).log.pending.toList := by
  apply hr.invariant (I := fun es _ => loggedCommits es = (History.of m₀ db₀.wal.nextSeq es).all ++
    (History.of m₀ db₀.wal.nextSeq es).log.pending.toList)
  · rfl
  · intro ls s l s' hls hlog hstep
    rw [History.of_snoc, (Inv.run hs hls).logged_step hstep, ← hlog, loggedCommits, loggedCommits,
      List.filterMap_append]
    congr 1

theorem returned_run (m₀ : PageMap) (hs : db₀.Starts m₀) (hr : Run Database.Step db₀ es db) :
    Owes (History.of m₀ db₀.wal.nextSeq es) db ∧
      ∀ e ∈ es, ∀ c, e.returns = some c → c ∈ (History.of m₀ db₀.wal.nextSeq es).all := by
  apply hr.invariant (I := fun es db => Owes (History.of m₀ db₀.wal.nextSeq es) db ∧
    ∀ e ∈ es, ∀ c, e.returns = some c → c ∈ (History.of m₀ db₀.wal.nextSeq es).all)
  · obtain ⟨o, n, auto, pool, -, -, rfl⟩ := hs.eq
    constructor
    · rintro c ⟨⟩
    · rintro e ⟨⟩
  · rintro ls s l s' - ⟨howes, hreturned⟩ hstep
    rw [History.of_snoc]
    refine ⟨howes.step hstep, fun e he c hc => ?_⟩
    apply (History.record_all _ l).subset
    rcases List.mem_append.mp he with he | he
    · exact hreturned e he c hc
    · rw [List.mem_singleton] at he
      rw [he] at hc
      exact howes.returned hstep hc

theorem current_count_lt (hs : db₀.Starts m₀) (hr : Run Database.Step db₀ es db)
    (hcount : ∀ c ∈ loggedCommits es, c.pageCount.toNat < 2 ^ 51) :
    (History.of m₀ db₀.wal.nextSeq es).log.current.count.toNat < 2 ^ 51 := by
  rw [← (Inv.run hs hr).logged.whole]
  apply commits_count_lt hs.count_lt
  intro c hc
  apply hcount
  rw [logged_run hs hr]
  exact List.mem_append_left _ hc

theorem recovers_logged (hs : db₀.Starts m₀) (hr : Run (Restrict Database.Step Guarded) db₀ es db)
    (hcount : ∀ c ∈ loggedCommits es, c.pageCount.toNat < 2 ^ 51) {data wal : Bytes}
    (hdata : db.pool.disk.file.Survives data) (hwal : db.walFile.Survives wal) :
    ∃ o cs, openExisting data (some wal) = .ok o ∧ OpenedAs o (m₀.commits cs) ∧
      (History.of m₀ db₀.wal.nextSeq es).all <+: cs ∧ cs <+: loggedCommits es := by
  obtain ⟨hi, hdur⟩ := durable_run hs hr
  have hrun : Run Database.Step db₀ es db := hr.mono (fun _ _ _ h => h.1)
  have hcurrent := current_count_lt hs hrun hcount
  have hlogged := logged_run hs hrun
  have hpending : ∀ c, (History.of m₀ db₀.wal.nextSeq es).log.pending = some c →
      c.pageCount.toNat < 2 ^ 51 := by
    intro c hc
    apply hcount
    rw [hlogged, hc]
    exact List.mem_append_right _ List.mem_cons_self
  rw [hlogged]
  rcases recoverable_of_crash hi hdur hdata hwal hcurrent hpending with hrec | ⟨c, hc, hrec⟩
  · obtain ⟨o, ho, has⟩ := hrec.open
    exact ⟨o, _, ho, has, List.prefix_refl _, List.prefix_append _ _⟩
  · obtain ⟨o, ho, has⟩ := hrec.open
    rw [hc]
    exact ⟨o, _, ho, has, List.prefix_append _ _, List.prefix_refl _⟩

theorem synced_log_survives (hs : db₀.Starts m₀) (hr : Run Database.Step db₀ es db)
    (hu : db.walFile.unsynced = .none) : db.walFile.Survives db.walFile.contents := by
  have hlog := (Inv.run hs hr).logged
  have hfile := hlog.file
  rw [WalFile.Survives, hu]
  rw [Log.Filed, hu] at hfile
  rw [hfile]
  exact ⟨hlog.room, rfl⟩

theorem committed_data_survives :
    smallest.committed.pool.disk.file.Survives FileHeader.new.encode.data := by
  refine ⟨fun id hid hsynced => ?_, ?_, _, readAt_self _, fun i _ => ⟨_, List.mem_singleton_self _, rfl⟩⟩
  · cases (if_neg hid).symm.trans hsynced
  · rw [Page.size]
    decide

theorem zeroed_verify (id : PageId) (header : PageHeader) : Page.zeroed.verify id ≠ .ok header := by
  intro hv
  obtain ⟨-, -, h, hd⟩ := (Page.verify_ok_iff _ _).mp ⟨header, hv⟩
  rw [Page.decodeHeader, zeroed_getD] at hd
  cases hd

theorem readAt_first (p q : Page) : readAt (p.data ++ q.data) 0 pageSize = some p.data := by
  have hslice := slice_zero p.data
  rw [p.size] at hslice
  rw [readAt_some_iff, List.length_append, p.size, q.size]
  constructor
  · omega
  · rw [slice_append_left _ _ _ _ (by rw [p.size, Nat.zero_add]), hslice]

theorem readAt_second (p q : Page) : readAt (p.data ++ q.data) pageSize pageSize = some q.data := by
  have hslice := slice_append_right p.data q.data 0 q.data.length
  rw [slice_zero, p.size, q.size, Nat.add_zero] at hslice
  rw [readAt_some_iff, List.length_append, p.size, q.size]
  exact ⟨le_rfl, hslice⟩

def lostPage : Bytes := (FileHeader.mk 2).encode.data ++ Page.zeroed.data

theorem lostPage_slots (id : PageId) (hid : id < 2) :
    readAt lostPage (slotOffset id) pageSize = some (PageMap.slot ⟨2, fun _ => Page.zeroed⟩ id) := by
  have hid' : id.toNat < 2 := UInt64.lt_iff_toNat_lt.mp hid
  obtain rfl | rfl : id = 0 ∨ id = 1 := by
    rw [← UInt64.toNat_inj, ← UInt64.toNat_inj]
    change id.toNat = 0 ∨ id.toNat = 1
    omega
  · exact readAt_first _ _
  · exact readAt_second _ _

theorem lostPage_open : ∃ disk, DiskManager.open lostPage = .ok disk ∧ disk.pageCount = 2 ∧
    ∀ ok page, disk.readPage 1 ok ≠ .ok page := by
  have hopen := @DiskManager.open_ok lostPage ⟨2, fun _ => Page.zeroed⟩ (by decide) (by decide) lostPage_slots
  refine ⟨_, hopen, rfl, fun ok page hread => ?_⟩
  obtain ⟨-, ⟨-, -, hholds⟩, header, hv⟩ := DiskManager.readPage_ok (by decide) hread
  have hslot := lostPage_slots 1 (by decide)
  rw [PageMap.slot_data _ (by decide)] at hslot
  have hzeroed : page = Page.zeroed := Page.ext (Option.some_inj.mp (hholds.symm.trans hslot))
  rw [hzeroed] at hv
  exact zeroed_verify 1 header hv

theorem failed_run {auto : Option Commit} (hh : db.holder = .checkpointing auto .fsyncPages) :
    Run Database.Step db [.tau, .ioError]
      { (db.syncDisk .start).syncDisk .fail with holder := .failed (.checkpoint auto) } := by
  have hrun := (Run.start.step (Database.Step.syncPages hh)).step (.syncPagesFail rfl)
  exact hrun

theorem lost_sync {f : DataFile} {id : PageId} (h : f.slots id = .lost) (ev : SyncEvent) :
    (f.sync ev).slots id = .lost := by
  cases ev <;> simp [DataFile.sync, DataFile.syncBegin, DataFile.syncEnd, DataFile.syncFail, h]

theorem lost_of_failed {f : DataFile} {id : PageId} (h : f.slots id = .written) :
    ((f.sync .start).sync .fail).slots id = .lost := by
  simp [DataFile.sync, DataFile.syncBegin, DataFile.syncFail, h]

def lostFile : DataFile := ((DiskManager.create.file.writeSlot 1 firstPage.data).sync .start).sync .fail

def smallest.poisoned : Database :=
  { smallest.committed with
    pool := ⟨[Shard.holding 1 ⟨firstPage, false⟩], ⟨lostFile, 2⟩⟩
    poisoned := true
    waitingCheckpoints := 1 }

theorem smallest_poisoned : ∃ es, Run (Restrict Database.Step Guarded) smallest es smallest.poisoned ∧
    .commitOk firstCommit ∈ es ∧ .poisoned (.checkpoint none) ∈ es ∧
    ∀ c ∈ loggedCommits es, c.pageCount.toNat < 2 ^ 51 := by
  have hpage : DataPage 2 1 := ⟨by decide, by decide⟩
  have hcommitted := (smallest_published.step (.publishDone rfl)).step (.commitDone rfl rfl)
  have hflush := @flush_run { smallest.committed with
      waitingCheckpoints := 1
      holder := .checkpointing none (.flush 0 none) } none _ _ _ _ _ _ _
    rfl rfl (holding_only _ _) (writeBack_ok firstPage_valid hpage (by decide))
  have hfailed := (((hcommitted.step (.beginCheckpoint rfl)).step (.beginCheckpoint rfl)).step
    (.checkpointLock Nat.two_pos rfl)).trans (hflush.trans (failed_run rfl))
  have hpoisoned := (guarded_of_unpoisoned hfailed rfl).step ⟨.poison rfl, by rintro ⟨⟩⟩
  exact ⟨_, hpoisoned, by simp, by simp, by decide⟩

theorem lostFile_slots {id : PageId} (hid : id ≠ PageId.HEADER) : lostFile.slots id = .lost := by
  apply lost_of_failed
  change Function.update (fun id => if id = PageId.HEADER then SlotState.synced else .written) 1 .written id = _
  rcases eq_or_ne id 1 with rfl | hne
  · exact Function.update_self ..
  · rw [Function.update_of_ne hne, if_neg hid]

theorem header_survives {f : DataFile} {header : Page} {left : Bytes}
    (hread : readAt left 0 pageSize = some header.data) (hlen : left.length ≤ maxFileSize) (hpages : ∀ id ≠ PageId.HEADER,
      (((f.writeHeader header pageSize).sync .start).sync .finish).slots id = .synced →
      ∀ bs, readAt (f.writeHeader header pageSize).contents (slotOffset id) pageSize = some bs →
        readAt left (slotOffset id) pageSize = some bs) :
    (((f.writeHeader header pageSize).sync .start).sync .finish).Survives left := by
  refine ⟨hpages, hlen, header.data, hread, fun i _ => ⟨header.data, ?_, rfl⟩⟩
  apply List.mem_of_getLast?
  rw [DataFile.sync_getLast, DataFile.sync_getLast]
  exact List.getLast?_concat

theorem lost_reset {f : DataFile} {header : Page} (hlost : ∀ id ≠ PageId.HEADER, f.slots id = .lost) :
    (((((f.sync .start).sync .finish).writeHeader header pageSize).sync .start).sync .finish).Survives
      (header.data ++ Page.zeroed.data) := by
  refine header_survives (readAt_first _ _) ?_ (fun id hid hsynced => ?_)
  · rw [List.length_append, Page.size, Page.size]
    decide
  · have hslot : (((f.sync .start).sync .finish).writeHeader header pageSize).slots id = .lost :=
      (Function.update_of_ne hid ..).trans (lost_sync (lost_sync (hlost id hid) .start) .finish)
    cases (lost_sync (lost_sync hslot .start) .finish).symm.trans hsynced

theorem lostFile_survives : lostFile.Survives FileHeader.new.encode.data := by
  refine ⟨fun id hid hsynced => ?_, ?_, _, readAt_self _, fun i _ => ⟨_, List.mem_singleton_self _, rfl⟩⟩
  · cases (lostFile_slots hid).symm.trans hsynced
  · rw [Page.size]
    decide

/-- If every checkpoint takes the WAL lock of a database that is not poisoned, then nothing is
overwritten after a failure, and every commit that returned is recovered. -/
theorem poison_stops_checkpoints (hs : db₀.Starts m₀) (hr : Run (Restrict Database.Step Guarded) db₀ es db) :
    (db.poisoned = true → ∀ e db', Database.Step db e db' → ¬ e.Overwrites) ∧
      ((∀ c ∈ loggedCommits es, c.pageCount.toNat < 2 ^ 51) →
        ∀ data wal, db.pool.disk.file.Survives data → db.walFile.Survives wal →
          ∃ o cs, openExisting data (some wal) = .ok o ∧ OpenedAs o (m₀.commits cs) ∧
            cs <+: loggedCommits es ∧ ∀ e ∈ es, ∀ c, e.returns = some c → c ∈ cs) := by
  have hrun : Run Database.Step db₀ es db := hr.mono (fun _ _ _ h => h.1)
  constructor
  · intro hpoisoned e db' hstep hover
    have hdur := (durable_run hs hr).2
    have healthy : ∀ auto stage, db.holder ≠ .checkpointing auto stage := by
      intro auto stage hh
      rw [hdur.unpoisoned auto stage hh] at hpoisoned
      cases hpoisoned
    cases hstep with
    | writeFileHeader hh | truncate hh | rewrite hh | resetSync hh => exact healthy _ _ hh
    | writeFileHeaderFail _ hh | truncateFail _ hh | rewriteFail _ hh => exact healthy _ _ hh
    | _ => exact hover
  · intro hcount data wal hdata hwal
    obtain ⟨o, cs, ho, has, hall, hlogged⟩ := recovers_logged hs hr hcount hdata hwal
    refine ⟨o, cs, ho, has, hlogged, fun e he c hc => ?_⟩
    exact hall.subset ((returned_run m₀ hs hrun).2 e he c hc)

theorem poison_stops_checkpoints_failed : smallest.poisoned.poisoned = true ∧
    (∀ e db', Database.Step smallest.poisoned e db' → ¬ e.Overwrites) ∧
    ∃ o cs, openExisting FileHeader.new.encode.data (some smallest.poisoned.walFile.contents) = .ok o ∧
      OpenedAs o (PageMap.commits ⟨1, fun _ => Page.zeroed⟩ cs) ∧ firstCommit ∈ cs := by
  obtain ⟨es, hrun, hok, -, hcount⟩ := smallest_poisoned
  obtain ⟨hstops, hrecovers⟩ := poison_stops_checkpoints smallest_starts hrun
  have hwal := synced_log_survives smallest_starts (hrun.mono (fun _ _ _ h => h.1)) rfl
  obtain ⟨o, cs, ho, has, -, hmem⟩ := hrecovers hcount _ _ lostFile_survives hwal
  exact ⟨rfl, hstops rfl, o, cs, ho, has, hmem _ hok firstCommit rfl⟩

/-- A checkpoint that waited for the WAL lock while another one failed does not look at the poison
flag again: it finds the pages clean that the failed fsync lost, and resets the log. -/
theorem waiting_checkpoint_loses_commit : ∃ es es' db, Run Database.Step smallest es smallest.poisoned ∧
    .commitOk firstCommit ∈ es ∧ .poisoned (.checkpoint none) ∈ es ∧
    Run Database.Step smallest.poisoned es' db ∧ .header true ∈ es' ∧ .resetDone none ∈ es' ∧
    db.pool.disk.file.Survives lostPage ∧ ∀ wal, db.walFile.Survives wal →
      ∃ o, openExisting lostPage (some wal) = .ok o ∧ o.disk.pageCount = 2 ∧
        ∀ ok page, o.disk.readPage 1 ok ≠ .ok page := by
  obtain ⟨es, hrun, hok, hpoisoned, -⟩ := smallest_poisoned
  have hlock : Database.Step smallest.poisoned .checkpointLocked { smallest.poisoned with
      waitingCheckpoints := 0
      holder := .checkpointing none (.flush 0 none) } := .checkpointLock Nat.one_pos rfl
  have hflush := @flush_run { smallest.poisoned with
      waitingCheckpoints := 0
      holder := .checkpointing none (.flush 0 none) } none _ _ _ _ _ _ _ rfl rfl (holding_only _ _) rfl
  have hreset := ((((Run.start.step hlock).trans hflush).trans (sync_run rfl)).trans (header_run rfl)).trans
    (rewritten_run rfl rfl)
  refine ⟨es, _, _, hrun.mono (fun _ _ _ h => h.1), hok, hpoisoned, hreset.step (.resetSync rfl), by simp, by simp,
    lost_reset (fun id => lostFile_slots), ?_⟩
  rintro wal ⟨-, rfl⟩
  obtain ⟨disk, hopen, hcount, hread⟩ := lostPage_open
  obtain ⟨o, ho⟩ := openExisting_empty lostPage _
  rw [hopen] at ho
  exact ⟨_, ho, hcount, hread⟩

section Half

variable {α : Type} {id old : PageId} {page : Page} {frame frame' : Frame} {disk disk' : DiskManager}
  {wr : WriteResult} {written : Option (PageId × Page)} {c : Commit}

def Shard.passed (id : PageId) (frame : Frame) : Shard α :=
  ⟨[frame], { (Shard.holding id frame : Shard α).state with refBits := [false] }, none, []⟩

def Shard.evicting (owner : α) (id old : PageId) (page : Page) (frame : Frame) : Shard α :=
  { Shard.passed old frame with held := some (.evict owner id (.install page) 0 old) }

theorem holding_acquire (id : PageId) (frame : Frame) (n : ℕ) :
    (Shard.holding id frame : Shard α).state.acquireFrame n =
      ((Shard.passed id frame : Shard α).state, .victim 0 id) := by
  have hpass : (Shard.holding id frame : Shard α).state.pass = (Shard.passed id frame : Shard α).state := by
    simp [PoolState.pass, PoolState.advance, PoolState.clear, PoolState.map, PoolState.touch, PoolState.new,
      Shard.holding, Shard.passed]
  have hvictim : (Shard.holding id frame : Shard α).state.findVictim =
      ((Shard.passed id frame : Shard α).state, some 0) := by
    change PoolState.findVictimLoop 2 _ = _
    rw [PoolState.findVictimLoop_pass 1 _ (by rintro ⟨-, h⟩; cases h), hpass,
      PoolState.findVictimLoop_take 0 (Shard.passed id frame : Shard α).state ⟨rfl, rfl⟩]
    simp [PoolState.advance, PoolState.map, PoolState.touch, PoolState.new, Shard.holding, Shard.passed]
  rw [PoolState.acquireFrame, hvictim]
  rfl

theorem step_install_full [DecidableEq α] (disk : DiskManager) (owner : α) (hp : page.pageId = id)
    (hne : id ≠ old) : BufferPool.step ⟨[Shard.holding old frame], disk⟩ (.install owner id page) =
      some (⟨[Shard.evicting owner id old page frame], disk⟩, { }) := by
  have hnone : (Shard.holding old frame : Shard α).state.pageTable id = none := Function.update_of_ne hne ..
  simp only [BufferPool.step, hp]
  rw [if_pos (show BufferPool.idle _ _ = true from rfl), if_neg (not_not.mpr rfl), shardFor_single]
  change some (BufferPool.put _ 0 ((Shard.holding old frame : Shard α).installPage owner id page)) = _
  simp only [Shard.installPage, hnone, holding_acquire]
  rfl

theorem step_resume_failed [DecidableEq α] (owner : α)
    (hwb : frame.writeBack disk old wr = ⟨frame', disk', written, .error .io⟩) :
    BufferPool.step ⟨[Shard.evicting owner id old page frame], disk⟩ (.resume 0 wr true) =
      some (⟨[Shard.passed old frame'], disk'⟩,
        { written := written, returned := some (owner, id, .error .io) }) := by
  have hresume : (Shard.evicting owner id old page frame).resume disk wr true =
      some ⟨Shard.passed old frame', disk', { written := written, returned := some (owner, id, .error .io) }⟩ := by
    have hheld : (Shard.evicting owner id old page frame).held = some (.evict owner id (.install page) 0 old) := rfl
    have hframe : (Shard.evicting owner id old page frame).frame 0 = frame := rfl
    rw [Shard.resume.eq_def]
    simp only [hheld, hframe, hwb]
    rfl
  simp only [BufferPool.step, List.getElem?_cons_zero, Option.bind_some, hresume]
  rfl

theorem publish_fails_run (hh : db.holder = .publishing c [(id, page)])
    (hpool : db.pool = ⟨[Shard.holding old frame], disk⟩) (hp : page.pageId = id) (hne : id ≠ old)
    (hwb : frame.writeBack disk old wr = ⟨frame', disk', written, .error .io⟩) :
    Run Database.Step db [.pool (.install .publisher id page) { },
      .pool (.resume 0 wr true) { written := written, returned := some (.publisher, id, .error .io) }]
      { db with pool := ⟨[Shard.passed old frame'], disk'⟩, holder := .failed (.publish c) } := by
  have hevict := @step_install_full Owner id old page frame _ disk .publisher hp hne
  rw [← hpool] at hevict
  have hallows : db.Allows (.install .publisher id page) := ⟨c, [], hh⟩
  have hstep := Database.Step.pool hallows hevict
  rw [hh] at hstep
  exact (Run.start.step hstep).step (.pool trivial (step_resume_failed _ hwb))

theorem writeBack_failed (hp : page.Valid id) (hid : DataPage disk.pageCount id)
    (hoff : (fileOffset id).toNat + pageSize ≤ maxFileSize) :
    (Frame.mk page true).writeBack disk id (.failed []) = ⟨⟨page, true⟩,
      { disk with file := disk.file.writeSlot id [] }, some (id, page), .error .io⟩ := by
  rw [Frame.writeBack, if_pos rfl, DiskManager.writePage.eq_def, DiskManager.checkDataPage_ok.mpr hid]
  simp only [hp.pageId_eq, hp.seal_eq, ne_eq, not_true_eq_false, if_false, Nat.not_lt.mpr hoff, if_true,
    List.take_nil]

end Half

def secondPage : Page := (Page.new 2 .heap).seal

def secondCommit : Commit := ⟨2, 3, true, [(2, secondPage)]⟩

theorem second_seals : sealPages (WriteTxn.allocatePage ⟨∅, 2⟩ .heap).2.dirty.toList = .ok [(2, secondPage)] :=
  allocated_seals 2

theorem secondPage_pageId : secondPage.pageId = 2 := by
  rw [secondPage, Page.seal_pageId, Page.new_pageId]

theorem secondCommit_fits {seq : UInt64} : walHeaderSize + (encodeAll firstCommit.records 0).length +
    (encodeAll secondCommit.records seq).length ≤ maxFileSize := by
  rw [encodeAll_length, encodeAll_length, Commit.records_len, Commit.records_len]
  change walHeaderSize + (2 * pageImageLen + commitLen) + (2 * pageImageLen + commitLen) ≤ maxFileSize
  decide

def smallest.half (waiting : ℕ) : Database :=
  { smallest.committed with
    pool := ⟨[Shard.passed 1 ⟨firstPage, true⟩], ⟨DiskManager.create.file.writeSlot 1 [], 3⟩⟩
    wal := ⟨walHeaderSize + (encodeAll firstCommit.records 0).length +
        (encodeAll secondCommit.records (0 + UInt64.ofNat firstCommit.records.length)).length, [],
      0 + UInt64.ofNat firstCommit.records.length + UInt64.ofNat secondCommit.records.length, false⟩
    walFile := ⟨writeAt smallest.committed.walFile.contents
      (walHeaderSize + (encodeAll firstCommit.records 0).length)
      (encodeAll secondCommit.records (0 + UInt64.ofNat firstCommit.records.length)), .none⟩
    nextTxn := 3
    waitingCheckpoints := waiting
    holder := .failed (.publish secondCommit) }

theorem half_run (waiting : ℕ) : Run Database.Step { smallest.committed with waitingCheckpoints := waiting }
    ([.tau, .writeBegan, .allocated .heap] ++ [.logged secondCommit, .tau, .durable secondCommit] ++
      [.publishing secondCommit] ++ [.pool (.install .publisher 2 secondPage) { }, .pool (.resume 0 (.failed []) true)
        { written := some (1, firstPage), returned := some (.publisher, 2, .error .io) }])
    (smallest.half waiting) := by
  have hidle : ¬ Writing { smallest.committed with
      waitingCheckpoints := waiting
      holder := .writer (WriteTxn.allocatePage ⟨∅, 2⟩ .heap).2 } := by
    rintro ⟨x, hx, -⟩
    cases hx
  have hpage : DataPage 3 1 := ⟨by decide, by decide⟩
  have hwrite := @write_run { smallest.committed with waitingCheckpoints := waiting } rfl rfl rfl .heap
  have hcommit := hwrite.trans
    (@commit_run _ secondCommit _ _ _ _ rfl hidle rfl second_seals rfl rfl secondCommit_fits)
  exact (hcommit.step (.publishLock rfl rfl rfl)).trans (publish_fails_run rfl rfl secondPage_pageId (by decide)
    (writeBack_failed firstPage_valid hpage (by decide)))

end Database

end OxenDB
