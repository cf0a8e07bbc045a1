import OxenDB.Database.State

namespace OxenDB

open Lib

/-- What a step shows. `ioError` is an I/O call that failed; the writes of a checkpoint to the header
and to the log carry whether they succeeded. -/
inductive Event
  | tau
  | ioError
  | refused (e : Error)
  | readCalled (r : ℕ)
  | readBegan (r : ℕ)
  | readEnded (r : ℕ)
  | counted (r : ℕ) (n : UInt64)
  | pool (a : Action Owner) (label : Label Owner)
  | writeBegan
  | writerCounted (n : UInt64)
  | allocated (ty : PageType)
  | copied (id : PageId) (page : Page)
  | edited (id : PageId) (page : Page)
  | writerSaw (id : PageId) (page : Page)
  | rolledBack
  | committedNothing
  | rejected (e : Error)
  | logged (c : Commit)
  | durable (c : Commit)
  | publishing (c : Commit)
  | published (c : Commit)
  | commitOk (c : Commit)
  | checkpointLocked
  | header (ok : Bool)
  | truncated (ok : Bool)
  | rewritten (ok : Bool)
  | resetDone (auto : Option Commit)
  | poisoned (f : Failure)

namespace Database

/-- One step of one thread, from one lock acquisition or I/O call to the next. -/
inductive Step : Database → Event → Database → Prop
  | refuse {db : Database} {e : Error} : db.checkPoisoned = .error e → Step db (.refused e) db
  | beginRead {db : Database} (r : ℕ) : db.checkPoisoned = .ok () → r ∉ db.waitingReads →
      r ∉ db.readers → Step db (.readCalled r) { db with waitingReads := r :: db.waitingReads }
  | readLock {db : Database} {r : ℕ} : r ∈ db.waitingReads → db.holder.exclusive = false →
      Step db (.readBegan r)
        { db with waitingReads := db.waitingReads.erase r, readers := r :: db.readers }
  | readDrop {db : Database} {r : ℕ} : r ∈ db.readers → ¬ db.Reading r →
      Step db (.readEnded r) { db with readers := db.readers.erase r }
  | readCount {db : Database} {r : ℕ} : r ∈ db.readers → Step db (.counted r db.pool.disk.pageCount) db
  | readOutside {db : Database} {r : ℕ} {id : PageId} {e : Error} : r ∈ db.readers →
      checkDataPage id db.pool.disk.pageCount = .error e → Step db (.refused e) db
  | pool {db : Database} {a : Action Owner} {label : Label Owner} {pool : BufferPool Owner} :
      db.Allows a → db.pool.step a = some (pool, label) →
      Step db (.pool a label) { db with pool := pool, holder := db.holder.afterCall label.returned }
  | beginWrite {db : Database} : db.checkPoisoned = .ok () →
      Step db .tau { db with waitingWrites := db.waitingWrites + 1 }
  | writeLock {db : Database} : 0 < db.waitingWrites → db.holder = .free → db.checkPoisoned = .ok () →
      Step db .writeBegan { db with
        waitingWrites := db.waitingWrites - 1
        holder := .writer ⟨∅, db.pool.disk.pageCount⟩ }
  | writeLockPoisoned {db : Database} {e : Error} : 0 < db.waitingWrites → db.holder = .free →
      db.checkPoisoned = .error e →
      Step db (.refused e) { db with waitingWrites := db.waitingWrites - 1 }
  | writerCount {db : Database} {w : WriteTxn} : db.holder = .writer w →
      Step db (.writerCounted w.pageCount) db
  | writerOutside {db : Database} {w : WriteTxn} {id : PageId} {e : Error} : db.holder = .writer w →
      checkDataPage id w.pageCount = .error e → Step db (.refused e) db
  -- Pages are allocated and edited through `&mut self`, while no `read_page` of the transaction runs.
  | allocatePage {db : Database} {w : WriteTxn} (ty : PageType) : db.holder = .writer w → ¬ db.Writing →
      Step db (.allocated ty) { db with holder := .writer (w.allocatePage ty).2 }
  | copyPage {db : Database} {w : WriteTxn} {i k n : ℕ} {id : PageId} {page : Page}
      {label : Label Owner} {pool : BufferPool Owner} : db.holder = .writer w → w.dirty[id]? = none →
      db.pool.step (.guard i k .read) = some (pool, label) → label.read = some (.writer n, id, page) →
      Step db (.copied id page) { db with pool := pool, holder := .writer (w.put id page) }
  | editPage {db : Database} {w : WriteTxn} {id : PageId} (page : Page) : db.holder = .writer w →
      w.dirty[id]? ≠ none → ¬ db.Writing → Step db (.edited id page) { db with holder := .writer (w.put id page) }
  | readDirty {db : Database} {w : WriteTxn} {id : PageId} {page : Page} : db.holder = .writer w →
      w.dirty[id]? = some page → Step db (.writerSaw id page) db
  | rollback {db : Database} {w : WriteTxn} : db.holder = .writer w → ¬ db.Writing →
      Step db .rolledBack { db with holder := .free }
  | commitEmpty {db : Database} {w : WriteTxn} : db.holder = .writer w → ¬ db.Writing →
      w.dirty.isEmpty = true → Step db .committedNothing { db with holder := .free }
  | commitMalformed {db : Database} {w : WriteTxn} {e : Error} : db.holder = .writer w → ¬ db.Writing →
      sealPages w.dirty.toList = .error e → Step db (.rejected e) { db with holder := .free }
  | commitLog {db : Database} {w : WriteTxn} {pages : List (PageId × Page)} {wal : Wal} :
      db.holder = .writer w → ¬ db.Writing → w.dirty.isEmpty = false →
      sealPages w.dirty.toList = .ok pages →
      db.wal.appendAll (w.toCommit db.nextTxn db.pool.disk.pageCount pages).records = .ok wal →
      Step db (.logged (w.toCommit db.nextTxn db.pool.disk.pageCount pages)) { db with
        wal := wal
        nextTxn := db.nextTxn + 1
        holder := .logging (w.toCommit db.nextTxn db.pool.disk.pageCount pages) }
  | commitLogPoisoned {db : Database} {w : WriteTxn} {pages : List (PageId × Page)} {e : Error} :
      db.holder = .writer w → ¬ db.Writing → w.dirty.isEmpty = false →
      sealPages w.dirty.toList = .ok pages →
      db.wal.appendAll (w.toCommit db.nextTxn db.pool.disk.pageCount pages).records = .error e →
      Step db .tau { db with nextTxn := db.nextTxn + 1, holder := .failed .log }
  | walWrite {db : Database} {c : Commit} : db.holder = .logging c →
      db.wal.durableLen + db.wal.pending.length ≤ maxFileSize →
      Step db .tau { db with
        holder := .flushing c
        walFile := ⟨writeAt db.walFile.contents db.wal.durableLen db.wal.pending,
          .batch db.wal.durableLen db.wal.pending⟩ }
  | walWriteFail {db : Database} {c : Commit} {left : Bytes} : db.holder = .logging c →
      TornBatch db.wal.pending left → db.wal.durableLen + left.length ≤ maxFileSize →
      Step db .ioError { db with
        holder := .failed .log
        wal := { db.wal with poisoned := true }
        walFile := ⟨db.walFile.contents.take db.wal.durableLen ++ left,
          .batch db.wal.durableLen db.wal.pending⟩ }
  | walSync {db : Database} {c : Commit} : db.holder = .flushing c →
      Step db (.durable c) { db with
        holder := .durable c
        wal := { db.wal with durableLen := db.wal.durableLen + db.wal.pending.length, pending := [] }
        walFile := ⟨db.walFile.contents, .none⟩ }
  | walSyncFail {db : Database} {c : Commit} : db.holder = .flushing c →
      Step db .ioError { db with
        holder := .failed .log
        wal := { db.wal with poisoned := true } }
  | publishLock {db : Database} {c : Commit} {disk : DiskManager} : db.holder = .durable c →
      db.readers = [] → db.pool.disk.setPageCount c.pageCount = .ok disk →
      Step db (.publishing c) { db.setDisk disk with holder := .publishing c c.installs }
  | publishShrink {db : Database} {c : Commit} {e : Error} : db.holder = .durable c →
      db.readers = [] → db.pool.disk.setPageCount c.pageCount = .error e →
      Step db .tau { db with holder := .failed (.publish c) }
  | publishDone {db : Database} {c : Commit} : db.holder = .publishing c [] →
      Step db (.published c) { db with holder := .published c }
  | commitDone {db : Database} {c : Commit} : db.holder = .published c → db.autoCheckpoint = false →
      Step db (.commitOk c) { db with holder := .free }
  | autoCheckpoint {db : Database} {c : Commit} : db.holder = .published c →
      db.autoCheckpoint = true →
      Step db .tau { db with holder := .checkpointing (some c) (.flush 0 none) }
  | beginCheckpoint {db : Database} : db.checkPoisoned = .ok () →
      Step db .tau { db with waitingCheckpoints := db.waitingCheckpoints + 1 }
  | checkpointLock {db : Database} : 0 < db.waitingCheckpoints → db.holder = .free →
      Step db .checkpointLocked { db with
        waitingCheckpoints := db.waitingCheckpoints - 1
        holder := .checkpointing none (.flush 0 none) }
  | snapshot {db : Database} {auto : Option Commit} {i : ℕ} {sh : Shard Owner} {ids : List PageId} :
      db.holder = .checkpointing auto (.flush i none) → db.pool.lockState i = some sh → ids.Nodup →
      (∀ id, id ∈ ids ↔ sh.state.pageTable id ≠ none) →
      Step db .tau { db with holder := .checkpointing auto (.flush i (some ids)) }
  | nextShard {db : Database} {auto : Option Commit} {i : ℕ} :
      db.holder = .checkpointing auto (.flush i (some [])) →
      Step db .tau { db with holder := .checkpointing auto (.flush (i + 1) none) }
  | flushedAll {db : Database} {auto : Option Commit} {i : ℕ} :
      db.holder = .checkpointing auto (.flush i none) → i = db.pool.shards.length →
      Step db .tau { db with holder := .checkpointing auto .fsyncPages }
  | syncPages {db : Database} {auto : Option Commit} : db.holder = .checkpointing auto .fsyncPages →
      Step db .tau { db.syncDisk .start with holder := .checkpointing auto .fsyncingPages }
  | syncedPages {db : Database} {auto : Option Commit} :
      db.holder = .checkpointing auto .fsyncingPages →
      Step db .tau { db.syncDisk .finish with holder := .checkpointing auto .header }
  | syncPagesFail {db : Database} {auto : Option Commit} :
      db.holder = .checkpointing auto .fsyncingPages →
      Step db .ioError { db.syncDisk .fail with holder := .failed (.checkpoint auto) }
  | writeFileHeader {db : Database} {auto : Option Commit} : db.holder = .checkpointing auto .header →
      Step db (.header true)
        { db.writeHeader pageSize with holder := .checkpointing auto .fsyncHeader }
  | writeFileHeaderFail {db : Database} {auto : Option Commit} (n : ℕ) :
      db.holder = .checkpointing auto .header →
      Step db (.header false) { db.writeHeader n with holder := .failed (.checkpoint auto) }
  | syncHeader {db : Database} {auto : Option Commit} :
      db.holder = .checkpointing auto .fsyncHeader →
      Step db .tau { db.syncDisk .start with holder := .checkpointing auto .fsyncingHeader }
  | syncedHeader {db : Database} {auto : Option Commit} :
      db.holder = .checkpointing auto .fsyncingHeader →
      Step db .tau { db.syncDisk .finish with holder := .checkpointing auto .reset }
  | syncHeaderFail {db : Database} {auto : Option Commit} :
      db.holder = .checkpointing auto .fsyncingHeader →
      Step db .ioError { db.syncDisk .fail with holder := .failed (.checkpoint auto) }
  | resetRefused {db : Database} {auto : Option Commit} {e : Error} :
      db.holder = .checkpointing auto .reset → db.wal.checkReset = .error e →
      Step db .tau { db with holder := .failed (.checkpoint auto) }
  | truncate {db : Database} {auto : Option Commit} : db.holder = .checkpointing auto .reset →
      db.wal.checkReset = .ok () →
      Step db (.truncated true) { db with
        holder := .checkpointing auto .truncated
        walFile := ⟨db.walFile.contents.take walHeaderSize,
          .reset db.walFile.contents (encodeHeader db.wal.nextSeq) true false⟩ }
  | truncateFail {db : Database} {auto : Option Commit} (done : Bool) :
      db.holder = .checkpointing auto .reset → db.wal.checkReset = .ok () →
      Step db (.truncated false) { db with
        holder := .failed (.checkpoint auto)
        wal := { db.wal with poisoned := true }
        walFile := ⟨if done then db.walFile.contents.take walHeaderSize else db.walFile.contents,
          .reset db.walFile.contents (encodeHeader db.wal.nextSeq) true false⟩ }
  | rewrite {db : Database} {auto : Option Commit} {old header : Bytes} :
      db.holder = .checkpointing auto .truncated → db.walFile.unsynced = .reset old header true false →
      Step db (.rewritten true) { db with
        holder := .checkpointing auto .rewritten
        walFile := ⟨writeAt db.walFile.contents 0 header, .reset old header true true⟩ }
  | rewriteFail {db : Database} {auto : Option Commit} {old header : Bytes} (done : Bool) :
      db.holder = .checkpointing auto .truncated → db.walFile.unsynced = .reset old header true false →
      Step db (.rewritten false) { db with
        holder := .failed (.checkpoint auto)
        wal := { db.wal with poisoned := true }
        walFile := ⟨if done then writeAt db.walFile.contents 0 header else db.walFile.contents,
          .reset old header true true⟩ }
  | resetSync {db : Database} {auto : Option Commit} : db.holder = .checkpointing auto .rewritten →
      Step db (.resetDone auto) { db with
        holder := .free
        wal := { db.wal with durableLen := walHeaderSize }
        walFile := ⟨db.walFile.contents, .none⟩ }
  | resetSyncFail {db : Database} {auto : Option Commit} :
      db.holder = .checkpointing auto .rewritten →
      Step db .ioError { db with
        holder := .failed (.checkpoint auto)
        wal := { db.wal with poisoned := true } }
  | poison {db : Database} {f : Failure} : db.holder = .failed f →
      Step db (.poisoned f) { db with poisoned := true, holder := .free }

end Database

end OxenDB
