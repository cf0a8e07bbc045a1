import OxenDB.BufferPool.Shard

namespace OxenDB

open Lib

def targetShardFrames : ℕ := 64

def maxShards : ℕ := 64

def shardCountFor (capacity : ℕ) : ℕ :=
  1 <<< Nat.log2 (max 1 (min (capacity / targetShardFrames) maxShards))

structure BufferPool (α : Type) (κ : Type := ℕ) where
  shards : List (Shard α κ)
  disk : DiskManager

inductive Task
  | fetch
  | install (page : Page)
  | flush
  | drop (result : Except Error Unit)

structure Activity (α : Type) where
  owner : α
  id : PageId
  task : Task

section Activity

variable {α : Type}

def Want.task : Want → Task
  | .fetch => .fetch
  | .install page => .install page

def Section.activity : Section α → Activity α
  | .evict owner id want _ _ => ⟨owner, id, want.task⟩
  | .fill owner id page install _ => ⟨owner, id, if install then .install page else .fetch⟩

def Stage.task : Stage → Task
  | .handle _ _ => .fetch
  | .install page => .install page
  | .flush => .flush
  | .drop result => .drop result

def Pin.activity (p : Pin α) : Activity α := ⟨p.owner, p.pageId, p.stage.task⟩

def Shard.activities {κ : Type} (sh : Shard α κ) : List (Activity α) :=
  sh.held.toList.map Section.activity ++ sh.pins.map Pin.activity

end Activity

inductive SyncEvent
  | start
  | finish
  | fail

def DataFile.sync (f : DataFile) : SyncEvent → DataFile
  | .start => f.syncBegin
  | .finish => f.syncEnd
  | .fail => f.syncFail

/-- One action runs from one lock acquisition to the next. `owner` names the call, and the handle
it returns; a `flush_all` is the `flush` actions of its snapshots and one fsync. -/
inductive Action (α : Type)
  | fetch (owner : α) (id : PageId) (rd : Bool)
  | install (owner : α) (id : PageId) (page : Page)
  | flush (owner : α) (id : PageId)
  | resume (i : ℕ) (wr : WriteResult) (rd : Bool)
  | work (i k : ℕ) (wr : WriteResult)
  | guard (i k : ℕ) (g : Shard.Guard)
  | unpin (i k : ℕ)
  | sync (ev : SyncEvent)

namespace BufferPool

variable {α κ : Type}

def new [OfNat κ 0] (disk : DiskManager) (capacity : ℕ) : Except Error (BufferPool α κ) :=
  if capacity = 0 then .error (.invalidArgument "buffer pool capacity must be at least 1")
  else
    let n := shardCountFor capacity
    .ok ⟨(List.range n).map (fun i => Shard.new (capacity / n + if i < capacity % n then 1 else 0)),
      disk⟩

def capacity (p : BufferPool α κ) : ℕ := (p.shards.map (fun sh => sh.frames.length)).sum

def shardFor (p : BufferPool α κ) (id : PageId) : ℕ :=
  ((id * 0x9E3779B97F4A7C15) >>> 32).toNat &&& (p.shards.length - 1)

def put (p : BufferPool α κ) (i : ℕ) (r : Shard α κ × Label α) : BufferPool α κ × Label α :=
  ({ p with shards := p.shards.set i r.1 }, r.2)

def putOutcome (p : BufferPool α κ) (i : ℕ) (r : Outcome α κ) : BufferPool α κ × Label α :=
  (⟨p.shards.set i r.shard, r.disk⟩, r.label)

def lockState (p : BufferPool α κ) (i : ℕ) : Option (Shard α κ) :=
  p.shards[i]?.filter (fun sh => sh.held.isNone)

def idle [DecidableEq α] (p : BufferPool α κ) (owner : α) : Bool :=
  p.shards.all (fun sh => sh.activities.all (fun a => a.owner ≠ owner))

def step [DecidableEq α] [OfNat κ 0] [OfNat κ 1] [Add κ] [Sub κ] [LT κ] [DecidableLT κ]
    (p : BufferPool α κ) : Action α → Option (BufferPool α κ × Label α)
  | .fetch owner id rd =>
    if p.idle owner then
      (p.lockState (p.shardFor id)).map
        (fun sh => p.put (p.shardFor id) (sh.fetchPage p.disk owner id rd))
    else none
  | .install owner id page =>
    if p.idle owner then
      if page.pageId ≠ id then
        some (p, { returned := some (owner, id, .error (.invalidArgument
          s!"cannot install {pageName page.pageId} as {pageName id}")) })
      else
        (p.lockState (p.shardFor id)).map
          (fun sh => p.put (p.shardFor id) (sh.installPage owner id page))
    else none
  | .flush owner id =>
    if p.idle owner then
      (p.lockState (p.shardFor id)).map
        (fun sh => p.put (p.shardFor id) (sh.flushPage owner id))
    else none
  | .resume i wr rd => (p.shards[i]?.bind (fun sh => sh.resume p.disk wr rd)).map (p.putOutcome i)
  | .work i k wr => (p.shards[i]?.bind (fun sh => sh.work p.disk k wr)).map (p.putOutcome i)
  | .guard i k g => (p.shards[i]?.bind (fun sh => sh.guard k g)).map (p.put i)
  | .unpin i k => ((p.lockState i).bind (fun sh => sh.unpin k)).map (p.put i)
  | .sync ev => some ({ p with disk := { p.disk with file := p.disk.file.sync ev } }, { })

end BufferPool

/-- What is left of the ids of a shard that `flush_cached` goes through, once a `flush_page` returned. -/
def afterFlush : Option (List PageId) → Except Error Unit → Except Error (Option (List PageId))
  | some (_ :: todo), .ok () => .ok (some todo)
  | todo, .ok () => .ok todo
  | _, .error e => .error e

end OxenDB
