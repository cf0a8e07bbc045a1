import OxenDB.Attempts
import OxenDB.Database.Success

namespace OxenDB

open Lib

namespace Database

variable {data data' wal wal' : Bytes} {s : Opening} {attempts : List OpenEvent}

theorem open_pool_congr (h : (openExisting data (some wal)).map (·.disk) =
      (openExisting data' (some wal')).map (·.disk)) (path : DbPath) (options : Options) :
    (Database.open path (some data) (some wal) options).map (·.pool) =
      (Database.open path (some data') (some wal') options).map (·.pool) := by
  rw [Database.open, Database.open]
  cases h₁ : openExisting data (some wal) with
  | error e =>
    cases h₂ : openExisting data' (some wal') with
    | error e' =>
      rw [h₁, h₂] at h
      cases h
      rfl
    | ok o' =>
      rw [h₁, h₂] at h
      cases h
  | ok o =>
    cases h₂ : openExisting data' (some wal') with
    | error e' =>
      rw [h₁, h₂] at h
      cases h
    | ok o' =>
      rw [h₁, h₂] at h
      injection h with h
      exact (assemble_pool o options).trans ((congrArg (BufferPool.new · _) h).trans (assemble_pool o' options).symm)

theorem committed_log : smallest.committed.walFile.contents =
    encodeHeader 0 ++ encodeAll firstCommit.records 0 := by
  have hl := encodeHeader_length 0
  change writeAt (encodeHeader 0) walHeaderSize (encodeAll firstCommit.records 0) = _
  rw [← hl, writeAt_end]

theorem committed_images : latestImages (committedTxns (decodedAll firstCommit.records 0))
    (decodedAll firstCommit.records 0) ∅ =
      .ok (((∅ : PageTree).insert PageId.HEADER (FileHeader.mk 2).encode).insert 1 firstPage) := by
  have hvalid : ∀ u ∈ [firstCommit].flatMap (·.images), ValidImage u.1 u.2 := by
    intro u hu
    have hu : u ∈ [(PageId.HEADER, (FileHeader.mk 2).encode), (1, firstPage)] := hu
    rcases List.mem_pair.mp hu with rfl | rfl
    · exact ⟨_, FileHeader.decode_encode ⟨2⟩ (by decide)⟩
    · exact firstPage_valid
  have hlatest := @latestImages_log [firstCommit] [] 0 (by rintro r ⟨⟩) hvalid
  rw [List.append_nil, List.flatMap_singleton] at hlatest
  exact hlatest

theorem committed_torn : Run Opening.Step
    (.files FileHeader.new.encode.data smallest.committed.walFile.contents) [.call, .call, .error, .crash]
    (.files (writeAt FileHeader.new.encode.data 0 (List.replicate pageSize 0))
      smallest.committed.walFile.contents) := by
  have hno : NoRecord [] ((0 : UInt64) + UInt64.ofNat firstCommit.records.length) := noRecord_nil _
  obtain ⟨o, ho, hrec, -⟩ := Wal.open_encoded firstCommit.records 0 [] hno
  rw [List.append_nil] at ho
  have hhead := decodeHeader_encodeHeader 0 (encodeAll firstCommit.records 0)
  have hd := LogText.tidy_of firstCommit.records hhead (drop_encodeHeader 0 _) o ho
  have hl := committed_images
  rw [← hrec] at hl
  rw [← committed_log] at ho
  have htear := Opening.tear_run FileHeader.new.encode.data (List.replicate pageSize 0) ho hd hl rfl
  have hoff : (fileOffset PageId.HEADER).toNat = 0 := rfl
  rw [hoff, List.take_replicate, Nat.min_self] at htear
  exact htear.step (.crash (.refl _ _) List.mem_cons_self)

def shortFile : Bytes := (FileHeader.mk 3).encode.data ++ firstPage.data

theorem shortFile_open : DiskManager.open shortFile = .error (.corruption
    "file is 8192 bytes but header lists 3 pages (12288 bytes)") := by
  have hlen : shortFile.length = 8192 := by
    rw [shortFile, List.length_append, Page.size, Page.size]
    rfl
  have hpage : (readAt shortFile 0 pageSize).bind Page.ofBytes = some (FileHeader.mk 3).encode := by
    rw [shortFile, readAt_first, Option.bind_some, Page.ofBytes_some rfl]
  have hopen := DiskManager.open_short (by rw [hlen]; decide) hpage (FileHeader.decode_encode ⟨3⟩ (by decide))
    (by rw [hlen]; decide)
  rw [hlen] at hopen
  exact hopen

theorem shortFile_refused {wal : Bytes} {seq : UInt64} (hwal : wal = encodeHeader seq) (path : DbPath)
    (options : Options) : Database.open path (some shortFile) (some wal) options = .error (.corruption
      "file is 8192 bytes but header lists 3 pages (12288 bytes)") := by
  obtain ⟨o, ho⟩ := openExisting_empty shortFile seq
  rw [hwal, Database.open, ho, shortFile_open]
  rfl

theorem passed_only (id : PageId) (frame : Frame) : Shard.Only id frame (Shard.passed id frame) :=
  ⟨rfl, rfl, rfl, rfl, rfl⟩

theorem writeAt_first (p q r : Page) : writeAt (p.data ++ q.data) 0 r.data = r.data ++ q.data := by
  have hdrop : (p.data ++ q.data).drop r.data.length = q.data := by rw [r.size, ← p.size, List.drop_left]
  have hne : r.data.isEmpty = false := by
    rw [List.isEmpty_eq_false_iff, ne_eq, ← List.length_eq_zero_iff, r.size]
    decide
  simp only [writeAt, hne, Bool.false_eq_true, if_false, List.take_zero, Nat.zero_sub, List.replicate_zero,
    List.nil_append, Nat.zero_add, hdrop]

theorem header_over_page {f : DataFile} {p : Page} (hf : f.contents = p.data) (q r : Page) :
    ((((((f.writeSlot 1 []).writeSlot 1 q.data).sync .start).sync .finish).writeHeader r pageSize).sync .start |>.sync
      .finish).Survives (r.data ++ q.data) := by
  have hcontents : (((((f.writeSlot 1 []).writeSlot 1 q.data).sync .start).sync .finish).writeHeader r
      pageSize).contents = r.data ++ q.data := by
    have hend := writeAt_end p.data q.data
    rw [p.size] at hend
    simp only [DataFile.writeHeader, DataFile.sync_contents, DataFile.writeSlot, writeAt_nil, hf,
      show (fileOffset 1).toNat = pageSize from rfl, hend, List.take_of_length_le r.size.le, writeAt_first]
  refine header_survives (readAt_first _ _) ?_ (fun id hid _ bs hread => ?_)
  · rw [List.length_append, r.size, q.size]
    decide
  · rwa [hcontents] at hread

/-- Attempts to open the files of a database may fail or crash at any call, any number of times: the
files they leave open as the original ones would have, and what a crash of the database left opens
with its commits. -/
theorem recovery_restarts (hlen : wal.length ≤ maxFileSize)
    (hr : Run Opening.Step (.files data wal) attempts s) (path : DbPath) (options : Options) :
    (Database.open path (some s.data) (some s.wal) options).map (·.pool) =
        (Database.open path (some data) (some wal) options).map (·.pool) ∧
      (∀ o disk, s.next = .assemble o disk → (openExisting data (some wal)).map (·.disk) = .ok disk) ∧
      ∀ m₀ db₀ es db, db₀.Starts m₀ → Run (Restrict Database.Step Guarded) db₀ es db →
        (∀ c ∈ loggedCommits es, c.pageCount.toNat < 2 ^ 51) → db.pool.disk.file.Survives data →
        db.walFile.Survives wal → options.bufferPoolPages ≠ 0 →
        ∃ db₁ db₂ cs, Database.open path (some data) (some wal) options = .ok db₁ ∧
          Database.open path (some s.data) (some s.wal) options = .ok db₂ ∧ db₂.pool = db₁.pool ∧
          Visible db₂.pool.cache (m₀.commits cs) ∧ cs <+: loggedCommits es ∧
          ∀ e ∈ es, ∀ c, e.returns = some c → c ∈ cs := by
  obtain ⟨hsame, hdone⟩ := Opening.same_outcome hlen hr
  have hpool := open_pool_congr hsame path options
  refine ⟨hpool, hdone, ?_⟩
  intro m₀ db₀ es db hs hrun hcount hdata hwal hn
  obtain ⟨o, cs, ho, has, hall, hlogged⟩ := recovers_logged hs hrun hcount hdata hwal
  obtain ⟨db₁, hdb⟩ := assemble_ok o hn
  have hfirst : Database.open path (some data) (some wal) options = .ok db₁ := by
    rw [Database.open, ho]
    exact hdb
  have hvisible : Visible db₁.pool.cache (m₀.commits cs) := Starts.visible ⟨o, options, has, hdb⟩
  rw [hfirst] at hpool
  cases hlast : Database.open path (some s.data) (some s.wal) options with
  | error e =>
    rw [hlast] at hpool
    cases hpool
  | ok db₂ =>
    rw [hlast] at hpool
    injection hpool with hpool
    refine ⟨db₁, db₂, cs, hfirst, rfl, hpool, ?_, hlogged, ?_⟩
    · have hpool : db₂.pool = db₁.pool := hpool
      rw [hpool]
      exact hvisible
    · intro e he c hc
      have hplain : Run Database.Step db₀ es db := hrun.mono (fun _ _ _ h => h.1)
      exact hall.subset ((returned_run m₀ hs hplain).2 e he c hc)

theorem recovery_restarts_torn : ∃ db₁ db₂, Database.open .db (some FileHeader.new.encode.data)
      (some smallest.committed.walFile.contents) ⟨1, true, none⟩ = .ok db₁ ∧
    Database.open .db (some (writeAt FileHeader.new.encode.data 0 (List.replicate pageSize 0)))
      (some smallest.committed.walFile.contents) ⟨1, true, none⟩ = .ok db₂ ∧ db₂.pool = db₁.pool := by
  have hrun := (smallest_published.step (.publishDone rfl)).step (.commitDone rfl rfl)
  have hwal := synced_log_survives smallest_starts hrun rfl
  obtain ⟨-, -, hcrash⟩ := recovery_restarts hwal.1 committed_torn .db ⟨1, true, none⟩
  obtain ⟨db₁, db₂, cs, h₁, h₂, hpool, -⟩ := hcrash _ _ _ _ smallest_starts
    (guarded_of_unpoisoned hrun rfl) (by decide) committed_data_survives hwal (by decide)
  exact ⟨db₁, db₂, h₁, h₂, hpool⟩

/-- A checkpoint waits for the WAL lock while the second commit fails to publish its page. It writes the new
page count into the header and resets the log, and no open accepts the two pages of the file. -/
theorem waiting_checkpoint_ruins_file : ∃ es db, Run Database.Step smallest es db ∧ .commitOk firstCommit ∈ es ∧
    .resetDone none ∈ es ∧ db.pool.disk.file.Survives shortFile ∧ ∀ wal, db.walFile.Survives wal →
      ∀ path options, Database.open path (some shortFile) (some wal) options =
        .error (.corruption "file is 8192 bytes but header lists 3 pages (12288 bytes)") := by
  have hcommitted := (smallest_published.step (.publishDone rfl)).step (.commitDone rfl rfl)
  have hpoisoned := ((hcommitted.step (.beginCheckpoint rfl)).trans (half_run 1)).step (.poison rfl)
  have hlock := hpoisoned.step (.checkpointLock Nat.one_pos rfl)
  have hpage : DataPage 3 1 := ⟨by decide, by decide⟩
  have hflush := @flush_run { smallest.half 0 with
      poisoned := true
      holder := .checkpointing none (.flush 0 none) } none _ _ _ _ _ _ _
    rfl rfl (passed_only _ _) (writeBack_ok firstPage_valid hpage (by decide))
  have hreset := (((hlock.trans hflush).trans (sync_run rfl)).trans (header_run rfl)).trans (rewritten_run rfl rfl)
  refine ⟨_, _, hreset.step (.resetSync rfl), by simp, by simp, ?_, ?_⟩
  · exact header_over_page rfl firstPage (FileHeader.mk 3).encode
  · rintro wal ⟨-, hwal⟩ path options
    exact shortFile_refused hwal path options

end Database

end OxenDB
