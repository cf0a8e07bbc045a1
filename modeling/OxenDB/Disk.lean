import OxenDB.FileHeader

namespace OxenDB

open Lib

/-- Whether the bytes of a page slot are covered by an fsync: `syncing` while the fsync that covers
them runs, `lost` where none ever will. -/
inductive SlotState
  | synced
  | written
  | syncing
  | lost
  deriving DecidableEq

/-- The data file as the operating system keeps it. `headers` are the contents page 0 was given
since the last fsync that returned, oldest first. -/
structure DataFile where
  contents : Bytes
  slots : PageId → SlotState
  headers : List Bytes

def slotOffset (id : PageId) : ℕ := id.toNat * pageSize

namespace DataFile

/-- The contents a crash may leave: slots under an fsync keep their bytes, every other data page
may hold anything, and page 0 is a mix of the contents it was given. -/
def Survives (f : DataFile) (left : Bytes) : Prop :=
  (∀ id ≠ PageId.HEADER, f.slots id = .synced → ∀ bs,
    readAt f.contents (slotOffset id) pageSize = some bs →
      readAt left (slotOffset id) pageSize = some bs) ∧
  left.length ≤ maxFileSize ∧
  ∃ header, readAt left 0 pageSize = some header ∧
    ∀ i < pageSize, ∃ v ∈ f.headers, header[i]? = v[i]?

def writeSlot (f : DataFile) (id : PageId) (bs : Bytes) : DataFile :=
  { f with
    contents := writeAt f.contents (fileOffset id).toNat bs
    slots := Function.update f.slots id .written }

def writeHeader (f : DataFile) (header : Page) (n : ℕ) : DataFile :=
  { f with
    contents := writeAt f.contents 0 (header.data.take n)
    slots := Function.update f.slots PageId.HEADER .written
    headers := f.headers ++ [header.data] }

def syncBegin (f : DataFile) : DataFile :=
  { f with slots := fun id => if f.slots id = .written then .syncing else f.slots id }

def syncEnd (f : DataFile) : DataFile :=
  { f with
    slots := fun id => if f.slots id = .syncing then .synced else f.slots id
    headers := if f.slots PageId.HEADER = .syncing then f.headers.drop (f.headers.length - 1)
      else f.headers }

/-- A failed fsync may have dropped what it covered, and a later one does not bring it back. -/
def syncFail (f : DataFile) : DataFile :=
  { f with slots := fun id => if f.slots id = .syncing then .lost else f.slots id }

end DataFile

/-- How a page write ends: a failed one may have put any bytes of the slot into the file. -/
inductive WriteResult
  | ok
  | failed (junk : Bytes)

structure DiskManager where
  file : DataFile
  pageCount : UInt64

def Page.ofBytes (bs : Bytes) : Option Page :=
  if h : bs.length = pageSize then some ⟨bs, h⟩ else none

namespace DiskManager

def create : DiskManager :=
  ⟨⟨FileHeader.new.encode.data, fun id => if id = PageId.HEADER then .synced else .written,
    [FileHeader.new.encode.data]⟩, FileHeader.new.pageCount⟩

def setPageCount (d : DiskManager) (count : UInt64) : Except Error DiskManager :=
  if count < d.pageCount then
    .error (.invalidArgument s!"cannot shrink database from {d.pageCount} to {count} pages")
  else .ok { d with pageCount := count }

def checkDataPage (d : DiskManager) (id : PageId) : Except Error Unit :=
  if id = PageId.HEADER then
    .error (.invalidArgument "page 0 is the file header and cannot be accessed as a data page")
  else if id ≥ d.pageCount then
    .error (.invalidArgument s!"{pageName id} is out of bounds (file has {d.pageCount} pages)")
  else .ok ()

def readPage (d : DiskManager) (id : PageId) (ok : Bool) : Except Error Page :=
  match d.checkDataPage id with
  | .error e => .error e
  | .ok () =>
    if ok = false then .error .io
    else
      match (readAt d.file.contents (fileOffset id).toNat pageSize).bind Page.ofBytes with
      | none => .error .io
      | some page =>
        match page.verify id with
        | .error e => .error e
        | .ok _ => .ok page

structure Written where
  page : Page
  disk : DiskManager
  issued : Bool
  result : Except Error Unit

def writePage (d : DiskManager) (id : PageId) (page : Page) (wr : WriteResult) : Written :=
  match d.checkDataPage id with
  | .error e => ⟨page, d, false, .error e⟩
  | .ok () =>
    if page.pageId ≠ id then
      ⟨page, d, false, .error (.invalidArgument
        s!"refusing to write {pageName page.pageId} to the location of {pageName id}")⟩
    else if (fileOffset id).toNat + pageSize > maxFileSize then ⟨page.seal, d, true, .error .io⟩
    else
      match wr with
      | .ok => ⟨page.seal, { d with file := d.file.writeSlot id page.seal.data }, true, .ok ()⟩
      | .failed junk =>
        ⟨page.seal, { d with file := d.file.writeSlot id (junk.take pageSize) }, true, .error .io⟩

def «open» (contents : Bytes) : Except Error DiskManager :=
  if contents.length < pageSize then
    .error (.unsupportedFormat
      s!"file is {contents.length} bytes, too small to be an oxenDB database")
  else
    match (readAt contents 0 pageSize).bind Page.ofBytes with
    | none => .error .io
    | some page =>
      match FileHeader.decode page with
      | .error e => .error e
      | .ok header =>
        let expected := header.pageCount * 4096
        if contents.length < expected.toNat then
          .error (.corruption
            s!"file is {contents.length} bytes but header lists {header.pageCount} pages ({expected} bytes)")
        else
          .ok ⟨⟨contents,
            fun id => if slotOffset id + pageSize ≤ contents.length then .synced else .written,
            [page.data]⟩, header.pageCount⟩

end DiskManager

end OxenDB
