import OxenDB.Disk

namespace OxenDB

open Lib

structure Frame where
  page : Page
  dirty : Bool

structure Frame.WroteBack where
  frame : Frame
  disk : DiskManager
  written : Option (PageId × Page)
  result : Except Error Unit

def Frame.writeBack (frame : Frame) (disk : DiskManager) (id : PageId) (wr : WriteResult) :
    Frame.WroteBack :=
  if frame.dirty then
    let w := disk.writePage id frame.page wr
    let written := if w.issued then some (id, w.page) else none
    match w.result with
    | .ok () => ⟨⟨w.page, false⟩, w.disk, written, .ok ()⟩
    | .error e => ⟨⟨w.page, true⟩, w.disk, written, .error e⟩
  else ⟨frame, disk, none, .ok ()⟩

/-- The free list is a stack whose top is the head of the list. The pin counts are of any type `κ`: the
source's is `u32`, and `ℕ` counts without a bound. -/
structure PoolState (κ : Type := ℕ) where
  pageTable : PageId → Option ℕ
  framePages : List (Option PageId)
  pinCounts : List κ
  refBits : List Bool
  clockHand : ℕ
  freeFrames : List ℕ

namespace PoolState

variable {κ : Type}

def new [OfNat κ 0] (capacity : ℕ) : PoolState κ :=
  ⟨fun _ => none, List.replicate capacity none, List.replicate capacity 0,
    List.replicate capacity false, 0, List.range capacity⟩

def pin [OfNat κ 0] [OfNat κ 1] [Add κ] (st : PoolState κ) (f : ℕ) : PoolState κ :=
  { st with pinCounts := st.pinCounts.set f (st.pinCounts.getD f 0 + 1) }

def unpin [OfNat κ 0] [OfNat κ 1] [Sub κ] (st : PoolState κ) (f : ℕ) : PoolState κ :=
  { st with pinCounts := st.pinCounts.set f (st.pinCounts.getD f 0 - 1) }

def touch (st : PoolState κ) (f : ℕ) : PoolState κ := { st with refBits := st.refBits.set f true }

def map (st : PoolState κ) (id : PageId) (f : ℕ) : PoolState κ :=
  { st with
    pageTable := Function.update st.pageTable id (some f)
    framePages := st.framePages.set f (some id) }

def unmap (st : PoolState κ) (id : PageId) (f : ℕ) : PoolState κ :=
  { st with
    pageTable := Function.update st.pageTable id none
    framePages := st.framePages.set f none }

def release (st : PoolState κ) (f : ℕ) : PoolState κ := { st with freeFrames := f :: st.freeFrames }

def findVictimLoop [OfNat κ 0] [LT κ] [DecidableLT κ] : ℕ → PoolState κ → PoolState κ × Option ℕ
  | 0, st => (st, none)
  | n + 1, st =>
    let f := st.clockHand
    let st := { st with clockHand := (f + 1) % st.framePages.length }
    if st.pinCounts.getD f 0 > 0 then findVictimLoop n st
    else if st.refBits.getD f false then
      findVictimLoop n { st with refBits := st.refBits.set f false }
    else (st, some f)

def findVictim [OfNat κ 0] [LT κ] [DecidableLT κ] (st : PoolState κ) : PoolState κ × Option ℕ :=
  findVictimLoop (2 * st.framePages.length) st

end PoolState

/-- What `acquire_frame` comes to before it takes the lock of a victim; `panic` is its `expect`. -/
inductive Acquired
  | free (f : ℕ)
  | victim (f : ℕ) (oldId : PageId)
  | exhausted (e : Error)
  | panic

def PoolState.acquireFrame {κ : Type} [OfNat κ 0] [LT κ] [DecidableLT κ] (st : PoolState κ) (capacity : ℕ) :
    PoolState κ × Acquired :=
  match st.freeFrames with
  | f :: rest => ({ st with freeFrames := rest }, .free f)
  | [] =>
    match st.findVictim with
    | (st, none) => (st, .exhausted (.resourceExhausted
        s!"all {capacity} frames in a buffer pool shard are pinned"))
    | (st, some victim) =>
      match st.framePages.getD victim none with
      | some oldId => (st, .victim victim oldId)
      | none => (st, .panic)

/-- Where a call that holds a pin stands: a handle with its live guards, a call about to take the
frame lock, or one that has released it and goes on to `unpin` and to return. -/
inductive Stage
  | handle (reads : ℕ) (writing : Bool)
  | install (page : Page)
  | flush
  | drop (result : Except Error Unit)

structure Pin (α : Type) where
  owner : α
  frame : ℕ
  pageId : PageId
  stage : Stage

inductive Want
  | fetch
  | install (page : Page)

/-- The call that holds `state` while it waits for a frame lock: of a victim to write back, or of
the frame it fills. -/
inductive Section (α : Type)
  | evict (owner : α) (id : PageId) (want : Want) (victim : ℕ) (oldId : PageId)
  | fill (owner : α) (id : PageId) (page : Page) (install : Bool) (frame : ℕ)

structure Shard (α : Type) (κ : Type := ℕ) where
  frames : List Frame
  state : PoolState κ
  held : Option (Section α)
  pins : List (Pin α)

/-- What a step does to the cache: the page whose contents it replaces, the page it marks dirty
and the write it issues to the data file. -/
structure Change where
  update : Option (PageId × Page) := none
  marked : Option PageId := none
  written : Option (PageId × Page) := none

structure Label (α : Type) extends Change where
  returned : Option (α × PageId × Except Error Unit) := none
  read : Option (α × PageId × Page) := none

structure Outcome (α : Type) (κ : Type := ℕ) where
  shard : Shard α κ
  disk : DiskManager
  label : Label α

namespace Shard

variable {α κ : Type}

def new [OfNat κ 0] (capacity : ℕ) : Shard α κ :=
  ⟨List.replicate capacity ⟨Page.zeroed, false⟩, PoolState.new capacity, none, []⟩

def frame (sh : Shard α κ) (f : ℕ) : Frame := sh.frames.getD f ⟨Page.zeroed, false⟩

def load (sh : Shard α κ) (disk : DiskManager) (owner : α) (id : PageId) (f : ℕ) (rd : Bool) :
    Shard α κ × Label α :=
  match disk.readPage id rd with
  | .error e =>
    ({ sh with state := sh.state.release f, held := none }, { returned := some (owner, id, .error e) })
  | .ok page => ({ sh with held := some (.fill owner id page false f) }, { })

/-- `fetch_page` from `lock_state` to its next frame lock or its return. -/
def fetchPage [OfNat κ 0] [OfNat κ 1] [Add κ] [LT κ] [DecidableLT κ] (sh : Shard α κ)
    (disk : DiskManager) (owner : α) (id : PageId) (rd : Bool) : Shard α κ × Label α :=
  match sh.state.pageTable id with
  | some f =>
    ({ sh with
        state := (sh.state.pin f).touch f
        pins := ⟨owner, f, id, .handle 0 false⟩ :: sh.pins },
      { returned := some (owner, id, .ok ()) })
  | none =>
    match sh.state.acquireFrame sh.frames.length with
    | (st, .free f) => load { sh with state := st } disk owner id f rd
    | (st, .victim f oldId) => ({ sh with state := st, held := some (.evict owner id .fetch f oldId) }, { })
    | (st, .exhausted e) => ({ sh with state := st }, { returned := some (owner, id, .error e) })
    | (st, .panic) => ({ sh with state := st }, { })

def installPage [OfNat κ 0] [OfNat κ 1] [Add κ] [LT κ] [DecidableLT κ] (sh : Shard α κ) (owner : α)
    (id : PageId) (page : Page) : Shard α κ × Label α :=
  match sh.state.pageTable id with
  | some f =>
    ({ sh with
        state := (sh.state.pin f).touch f
        pins := ⟨owner, f, id, .install page⟩ :: sh.pins }, { })
  | none =>
    match sh.state.acquireFrame sh.frames.length with
    | (st, .free f) => ({ sh with state := st, held := some (.fill owner id page true f) }, { })
    | (st, .victim f oldId) =>
      ({ sh with state := st, held := some (.evict owner id (.install page) f oldId) }, { })
    | (st, .exhausted e) => ({ sh with state := st }, { returned := some (owner, id, .error e) })
    | (st, .panic) => ({ sh with state := st }, { })

def flushPage [OfNat κ 0] [OfNat κ 1] [Add κ] (sh : Shard α κ) (owner : α) (id : PageId) :
    Shard α κ × Label α :=
  match sh.state.pageTable id with
  | none => (sh, { returned := some (owner, id, .ok ()) })
  | some f =>
    ({ sh with state := sh.state.pin f, pins := ⟨owner, f, id, .flush⟩ :: sh.pins }, { })

def resume [OfNat κ 1] (sh : Shard α κ) (disk : DiskManager) (wr : WriteResult) (rd : Bool) :
    Option (Outcome α κ) :=
  match sh.held with
  | none => none
  | some (.evict owner id want victim oldId) =>
    let w := (sh.frame victim).writeBack disk oldId wr
    let sh := { sh with frames := sh.frames.set victim w.frame }
    match w.result with
    | .error e =>
      some ⟨{ sh with held := none }, w.disk,
        { written := w.written, returned := some (owner, id, .error e) }⟩
    | .ok () =>
      let sh := { sh with state := sh.state.unmap oldId victim }
      match want with
      | .fetch =>
        let r := sh.load w.disk owner id victim rd
        some ⟨r.1, w.disk, { r.2 with written := w.written }⟩
      | .install page =>
        some ⟨{ sh with held := some (.fill owner id page true victim) }, w.disk, { written := w.written }⟩
  | some (.fill owner id page false f) =>
    let st := (sh.state.map id f).touch f
    some ⟨{ sh with
        frames := sh.frames.set f ⟨page, false⟩
        state := { st with pinCounts := st.pinCounts.set f 1 }
        held := none
        pins := ⟨owner, f, id, .handle 0 false⟩ :: sh.pins },
      disk, { returned := some (owner, id, .ok ()) }⟩
  | some (.fill owner id page true f) =>
    some ⟨{ sh with
        frames := sh.frames.set f ⟨page, true⟩
        state := (sh.state.map id f).touch f
        held := none },
      disk, { update := some (id, page), returned := some (owner, id, .ok ()) }⟩

def noWriter (sh : Shard α κ) (f : ℕ) : Bool :=
  sh.pins.all (fun q => match q.stage with
    | .handle _ writing => q.frame ≠ f || !writing
    | _ => true)

def unlocked (sh : Shard α κ) (f : ℕ) : Bool :=
  sh.pins.all (fun q => match q.stage with
    | .handle reads writing => q.frame ≠ f || (reads == 0 && !writing)
    | _ => true)

def setStage (sh : Shard α κ) (k : ℕ) (p : Pin α) (stage : Stage) : Shard α κ :=
  { sh with pins := sh.pins.set k { p with stage := stage } }

def work (sh : Shard α κ) (disk : DiskManager) (k : ℕ) (wr : WriteResult) : Option (Outcome α κ) :=
  match sh.pins[k]? with
  | none => none
  | some p =>
    if sh.unlocked p.frame then
      match p.stage with
      | .install page =>
        some ⟨{ sh.setStage k p (.drop (.ok ())) with frames := sh.frames.set p.frame ⟨page, true⟩ },
          disk, { update := some (p.pageId, page) }⟩
      | .flush =>
        let w := (sh.frame p.frame).writeBack disk p.pageId wr
        some ⟨{ sh.setStage k p (.drop w.result) with frames := sh.frames.set p.frame w.frame },
          w.disk, { written := w.written }⟩
      | _ => none
    else none

inductive Guard
  | lockRead
  | read
  | unlockRead
  | lockWrite
  | write (page : Page)
  | unlockWrite

def guard (sh : Shard α κ) (k : ℕ) (g : Guard) : Option (Shard α κ × Label α) :=
  match sh.pins[k]? with
  | none => none
  | some p =>
    match p.stage with
    | .handle reads writing =>
      match g with
      | .lockRead =>
        if sh.noWriter p.frame then some (sh.setStage k p (.handle (reads + 1) writing), { }) else none
      | .read =>
        if reads > 0 ∨ writing then some (sh, { read := some (p.owner, p.pageId, (sh.frame p.frame).page) }) else none
      | .unlockRead => if reads > 0 then some (sh.setStage k p (.handle (reads - 1) writing), { }) else none
      | .lockWrite =>
        if sh.unlocked p.frame then
          some ({ sh.setStage k p (.handle reads true) with
              frames := sh.frames.set p.frame ⟨(sh.frame p.frame).page, true⟩ },
            { marked := some p.pageId })
        else none
      | .write page =>
        if writing then
          some ({ sh with frames := sh.frames.set p.frame ⟨page, (sh.frame p.frame).dirty⟩ },
            { update := some (p.pageId, page) })
        else none
      | .unlockWrite => if writing then some (sh.setStage k p (.handle reads false), { }) else none
    | _ => none

def unpin [OfNat κ 0] [OfNat κ 1] [Sub κ] (sh : Shard α κ) (k : ℕ) : Option (Shard α κ × Label α) :=
  match sh.pins[k]? with
  | none => none
  | some p =>
    match p.stage with
    | .handle 0 false => some ({ sh with state := sh.state.unpin p.frame, pins := sh.pins.eraseIdx k }, { })
    | .drop result =>
      some ({ sh with state := sh.state.unpin p.frame, pins := sh.pins.eraseIdx k },
        { returned := some (p.owner, p.pageId, result) })
    | _ => none

end Shard

end OxenDB
