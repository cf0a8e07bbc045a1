import OxenDB.Lib.Overlay
import OxenDB.FileHeader
import OxenDB.WalRecord

/-!
What a database is for: a page count and a page for every id below it, changed by whole
transactions.
-/

namespace OxenDB

open Lib

structure PageMap where
  count : UInt64
  page : PageId → Page

def DataPage (count : UInt64) (id : PageId) : Prop := id ≠ PageId.HEADER ∧ id < count

def PageMap.Same (m m' : PageMap) : Prop :=
  m.count = m'.count ∧ ∀ id, DataPage m.count id → m.page id = m'.page id

structure TxnBlock where
  txn : TxnId
  images : List (PageId × Page)

namespace TxnBlock

def imageRecords (b : TxnBlock) : List WalRecord :=
  b.images.map (fun u => WalRecord.pageImage b.txn u.1 u.2)

def records (b : TxnBlock) : List WalRecord := b.imageRecords ++ [.commit b.txn]

end TxnBlock

/-- A committed transaction: the page count it leaves and the pages it wrote, in page order. -/
structure Commit where
  txn : TxnId
  pageCount : UInt64
  grew : Bool
  pages : List (PageId × Page)

namespace Commit

def images (c : Commit) : List (PageId × Page) :=
  (if c.grew then [(PageId.HEADER, (FileHeader.mk c.pageCount).encode)] else []) ++ c.pages

def block (c : Commit) : TxnBlock := ⟨c.txn, c.images⟩

def imageRecords (c : Commit) : List WalRecord := c.block.imageRecords

def records (c : Commit) : List WalRecord := c.block.records

theorem imageRecords_eq (c : Commit) :
    c.imageRecords = c.images.map (fun u => WalRecord.pageImage c.txn u.1 u.2) := rfl

theorem records_eq (c : Commit) : c.records = c.imageRecords ++ [.commit c.txn] := rfl

end Commit

def PageMap.commit (m : PageMap) (c : Commit) : PageMap := ⟨c.pageCount, overlay m.page c.pages⟩

def PageMap.commits (m : PageMap) (cs : List Commit) : PageMap := cs.foldl PageMap.commit m

theorem PageMap.commits_append (m : PageMap) (cs cs' : List Commit) :
    m.commits (cs ++ cs') = (m.commits cs).commits cs' := List.foldl_append

theorem PageMap.commits_page (m : PageMap) (cs : List Commit) :
    (m.commits cs).page = overlay m.page (cs.flatMap (·.pages)) := by
  induction cs generalizing m with
  | nil => rfl
  | cons c cs ih =>
    rw [List.flatMap_cons, overlay_append]
    exact ih (m.commit c)

end OxenDB
