import OxenDB.Open
import OxenDB.BufferPool.PoolCalls

namespace OxenDB

open Lib

/-- The calls on the pool: handle `k` of read transaction `r`, handle `k` of the write transaction,
and the calls that `publish` and `flush_all` make one after another. -/
inductive Owner
  | reader (r k : ℕ)
  | writer (k : ℕ)
  | publisher
  | checkpointer
  deriving DecidableEq

def checkDataPage (id : PageId) (pageCount : UInt64) : Except Error Unit :=
  if id = PageId.HEADER ∨ id ≥ pageCount then
    .error (.invalidArgument s!"{pageName id} is not a data page (database has {pageCount} pages)")
  else .ok ()

structure WriteTxn where
  dirty : PageTree
  pageCount : UInt64

namespace WriteTxn

def allocatePage (w : WriteTxn) (ty : PageType) : PageId × WriteTxn :=
  (w.pageCount, ⟨w.dirty.insert w.pageCount (Page.new w.pageCount ty), w.pageCount + 1⟩)

def put (w : WriteTxn) (id : PageId) (page : Page) : WriteTxn := { w with dirty := w.dirty.insert id page }

def toCommit (w : WriteTxn) (txn : TxnId) (pageCount : UInt64) (pages : List (PageId × Page)) : Commit :=
  ⟨txn, w.pageCount, decide (w.pageCount > pageCount), pages⟩

end WriteTxn

def sealPages : List (PageId × Page) → Except Error (List (PageId × Page))
  | [] => .ok []
  | (id, page) :: rest =>
    match page.seal.verify id with
    | .error err =>
      .error (.invalidArgument s!"transaction left {pageName id} malformed: {err.display}")
    | .ok _ =>
      match sealPages rest with
      | .error e => .error e
      | .ok pages => .ok ((id, page.seal) :: pages)

def Commit.installs (c : Commit) : List (PageId × Page) :=
  c.images.filter (fun u => u.1 ≠ PageId.HEADER)

/-- Where `write_checkpoint` stands; `flush i none` is about to take the snapshot of shard `i`. -/
inductive CheckpointAt
  | flush (i : ℕ) (todo : Option (List PageId))
  | fsyncPages
  | fsyncingPages
  | header
  | fsyncHeader
  | fsyncingHeader
  | reset
  | truncated
  | rewritten

inductive Failure
  | log
  | publish (c : Commit)
  | checkpoint (auto : Option Commit)

/-- Who holds the WAL mutex, and how far it got. A checkpoint that a commit runs carries the commit. -/
inductive Holder
  | free
  | writer (w : WriteTxn)
  | logging (c : Commit)
  | flushing (c : Commit)
  | durable (c : Commit)
  | publishing (c : Commit) (todo : List (PageId × Page))
  | published (c : Commit)
  | checkpointing (auto : Option Commit) (stage : CheckpointAt)
  | failed (f : Failure)

namespace Holder

def exclusive : Holder → Bool
  | .publishing _ _ => true
  | _ => false

def afterCall : Holder → Option (Owner × PageId × Except Error Unit) → Holder
  | .publishing c (_ :: todo), some (.publisher, _, .ok ()) => .publishing c todo
  | .publishing c _, some (.publisher, _, .error _) => .failed (.publish c)
  | .checkpointing auto (.flush i todo), some (.checkpointer, _, result) =>
    match afterFlush todo result with
    | .ok todo => .checkpointing auto (.flush i todo)
    | .error _ => .failed (.checkpoint auto)
  | h, _ => h

end Holder

structure Database where
  pool : BufferPool Owner
  autoCheckpointBytes : Option ℕ
  wal : Wal
  walFile : WalFile
  nextTxn : TxnId
  poisoned : Bool
  holder : Holder
  readers : List ℕ
  waitingReads : List ℕ
  waitingWrites : ℕ
  waitingCheckpoints : ℕ

namespace Database

def assemble (o : Opened) (options : Options) : Except Error Database :=
  match BufferPool.new o.disk options.bufferPoolPages with
  | .error e => .error e
  | .ok pool =>
    .ok ⟨pool, options.autoCheckpointBytes, o.wal, o.walFile, 1, false, .free, [], [], 0, 0⟩

theorem assemble_pool (o : Opened) (options : Options) :
    (assemble o options).map (·.pool) = BufferPool.new o.disk options.bufferPoolPages := by
  rw [assemble]
  cases (BufferPool.new o.disk options.bufferPoolPages : Except Error (BufferPool Owner)) with
  | error e => rfl
  | ok pool => rfl

def checkPoisoned (db : Database) : Except Error Unit :=
  if db.poisoned then
    .error (.poisoned
      "an earlier failure left the database in an unknown state; reopen it to recover")
  else .ok ()

theorem checkPoisoned_ok {db : Database} : db.checkPoisoned = .ok () ↔ db.poisoned = false := by
  rw [checkPoisoned]
  split_ifs with hp
  · simp [hp]
  · simp [hp]

def autoCheckpoint (db : Database) : Bool :=
  match db.autoCheckpointBytes with
  | some limit => db.wal.durableLen ≥ limit
  | none => false

def setDisk (db : Database) (disk : DiskManager) : Database :=
  { db with pool := { db.pool with disk := disk } }

def syncDisk (db : Database) (ev : SyncEvent) : Database :=
  db.setDisk { db.pool.disk with file := db.pool.disk.file.sync ev }

def writeHeader (db : Database) (n : ℕ) : Database :=
  db.setDisk { db.pool.disk with
    file := db.pool.disk.file.writeHeader (FileHeader.mk db.pool.disk.pageCount).encode n }

/-- The pool actions that some thread may take: transactions only fetch and read, `publish` installs
the next page of its commit, `flush_cached` flushes the next id of its snapshot. -/
def Allows (db : Database) : Action Owner → Prop
  | .fetch (.reader r _) id _ => r ∈ db.readers ∧ checkDataPage id db.pool.disk.pageCount = .ok ()
  | .fetch (.writer _) id _ => ∃ w, db.holder = .writer w ∧ checkDataPage id w.pageCount = .ok () ∧
      w.dirty[id]? = none
  | .install .publisher id page => ∃ c todo, db.holder = .publishing c ((id, page) :: todo)
  | .flush .checkpointer id => ∃ auto i todo,
      db.holder = .checkpointing auto (.flush i (some (id :: todo)))
  | .resume _ _ _ => True
  | .work _ _ _ => True
  | .guard _ _ g => g = .lockRead ∨ g = .read ∨ g = .unlockRead
  | .unpin _ _ => True
  | _ => False

def Writing (db : Database) : Prop := ∃ x ∈ db.pool.activities, ∃ k, x.owner = .writer k

def Reading (db : Database) (r : ℕ) : Prop := ∃ x ∈ db.pool.activities, ∃ k, x.owner = .reader r k

end Database

end OxenDB
