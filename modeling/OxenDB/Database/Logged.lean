import OxenDB.Database.Stored

namespace OxenDB

open Lib

structure Log.Pending (l : Log) (c : Commit) : Prop where
  pending : l.pending = some c
  proposes : ∃ n, c.Proposes l.current n
  txn : c.txn = l.nextTxn

def Log.Filed (l : Log) (f : WalFile) : Prop :=
  match f.unsynced with
  | .none => f.contents = l.body
  | .batch off bytes => off = l.body.length ∧ f.contents.take off = l.body ∧
      ∃ c, l.Pending c ∧ bytes = encodeAll c.records l.nextSeq
  | .reset old header _ _ => old = l.body ∧ header = encodeHeader l.nextSeq

structure Log.Idle (l : Log) (wal : Wal) (nextTxn : TxnId) : Prop where
  pending : l.pending = none
  batch : wal.pending = []
  nextSeq : wal.nextSeq = l.nextSeq
  nextTxn : nextTxn = l.nextTxn

structure Log.Busy (l : Log) (wal : Wal) (nextTxn : TxnId) (c : Commit) : Prop where
  pending : l.Pending c
  batch : wal.pending = encodeAll c.records l.nextSeq
  nextSeq : wal.nextSeq = (l.push c).nextSeq
  nextTxn : nextTxn = (l.push c).nextTxn

def Log.Phase (l : Log) (wal : Wal) (f : WalFile) (nextTxn : TxnId) : Holder → Prop
  | .logging c => l.Busy wal nextTxn c ∧ f.unsynced = .none
  | .flushing c => l.Busy wal nextTxn c ∧ (l.push c).body.length ≤ maxFileSize ∧
      f = ⟨(l.push c).body, .batch l.body.length (encodeAll c.records l.nextSeq)⟩
  | .checkpointing _ .truncated => l.Idle wal nextTxn ∧
      f = ⟨encodeHeader l.firstSeq, .reset l.body (encodeHeader l.nextSeq) true false⟩
  | .checkpointing _ .rewritten => l.Idle wal nextTxn ∧
      f = ⟨encodeHeader l.nextSeq, .reset l.body (encodeHeader l.nextSeq) true true⟩
  | _ => wal.poisoned = false → l.Idle wal nextTxn ∧ f.unsynced = .none

structure Logged (m₀ : PageMap) (h : History) (db : Database) : Prop where
  base : h.log.base.WellFormed
  chain : Chain h.log.base h.log.since
  whole : m₀.commits h.all = h.log.current
  small : h.log.current.count.toNat < 2 ^ 52
  baseSmall : db.poisoned = false → h.log.base.count.toNat < 2 ^ 51
  stuck : h.stuck ≠ none → db.poisoned = true
  txns : h.log.since.map (·.txn) =
    (List.range h.log.since.length).map (fun i => h.log.firstTxn + UInt64.ofNat i)
  room : h.log.body.length ≤ maxFileSize
  durableLen : db.wal.durableLen = h.log.body.length
  file : h.log.Filed db.walFile
  phase : h.log.Phase db.wal db.walFile db.nextTxn db.holder
  writer : ∀ w, db.holder = .writer w → ∃ n, w.Over h.log.current n

def PageCounted (h : History) (db : Database) : Prop :=
  match db.holder with
  | .durable c => ∃ s, h.log.since = s ++ [c] ∧ db.pool.disk.pageCount = (h.log.base.commits s).count
  | .publishing c _ => (∃ s, h.log.since = s ++ [c]) ∧ db.pool.disk.pageCount = c.pageCount
  | .failed (.publish _) => True
  | _ => h.stuck = none → db.pool.disk.pageCount = h.log.current.count

structure Counts (h : History) (db : Database) : Prop where
  small : db.pool.disk.pageCount.toNat ≤ 2 ^ 52
  aimed : ∀ x ∈ db.pool.activities, x.task = .fetch → DataPage db.pool.disk.pageCount x.id
  counted : PageCounted h db

theorem pageCounted_settled {h : History} {db : Database} {holder : Holder} (hh : db.holder = holder)
    (hs : holder.Settled) :
    PageCounted h db ↔ (h.stuck = none → db.pool.disk.pageCount = h.log.current.count) := by
  rw [PageCounted, hh]
  cases holder with
  | durable c => exact absurd hs id
  | publishing c todo => exact absurd hs id
  | failed f =>
    cases f with
    | publish c => exact absurd hs id
    | _ => rfl
  | _ => rfl

theorem Stored.counts {h : History} {db : Database} (hst : Stored h db) : Counts h db where
  small := hst.small
  aimed := hst.aimed
  counted := by
    have hshown := hst.shown
    unfold Shown at hshown
    unfold PageCounted
    cases hh : db.holder with
    | durable c =>
      rw [hh] at hshown
      obtain ⟨s, hsince, hv⟩ := hshown
      exact ⟨s, hsince, hv.1⟩
    | publishing c todo =>
      rw [hh] at hshown
      obtain ⟨s, done, rest, hsince, -, -, hcount, -⟩ := hshown
      exact ⟨⟨s, hsince⟩, hcount⟩
    | failed f =>
      rw [hh] at hshown
      cases f with
      | publish c => trivial
      | _ => exact fun hn => (hshown hn).1
    | _ =>
      rw [hh] at hshown
      exact fun hn => (hshown hn).1

theorem Log.reset_body (l : Log) : l.reset.body = encodeHeader l.nextSeq := List.append_nil _

theorem Log.reset_nextSeq (l : Log) : l.reset.nextSeq = l.nextSeq := by simp [Log.nextSeq, Log.reset]

theorem Log.reset_nextTxn (l : Log) : l.reset.nextTxn = l.nextTxn := by simp [Log.nextTxn, Log.reset]

theorem Log.push_nextSeq (l : Log) (c : Commit) :
    (l.push c).nextSeq = l.nextSeq + UInt64.ofNat c.records.length := by
  rw [nextSeq, nextSeq, push, List.flatMap_append, List.length_append, UInt64.ofNat_add,
    UInt64.add_assoc, List.flatMap_singleton]

theorem Log.push_body (l : Log) (c : Commit) :
    (l.push c).body = l.body ++ encodeAll c.records l.nextSeq := by
  rw [body, body, push, List.flatMap_append, encodeAll_append, List.flatMap_singleton,
    List.append_assoc]
  rfl

theorem Log.take_body (l : Log) : l.body.take walHeaderSize = encodeHeader l.firstSeq := by
  rw [body, take_encodeHeader]

theorem Log.drop_body (l : Log) :
    l.body.drop walHeaderSize = encodeAll (l.since.flatMap (·.records)) l.firstSeq := by
  rw [body, drop_encodeHeader]

theorem Log.body_length (l : Log) :
    l.body.length = walHeaderSize + ((l.since.flatMap (·.records)).map WalRecord.len).sum := by
  rw [body, List.length_append, encodeHeader_length, encodeAll_length]

theorem Commit.images_length_le (c : Commit) : c.images.length ≤ c.pages.length + 1 := by
  rw [images, List.length_append]
  split_ifs
  · exact (Nat.add_comm _ _).le
  · exact Nat.add_le_add_right (Nat.zero_le 1) _ |>.trans (Nat.add_comm _ _).le

theorem Commit.records_len (c : Commit) :
    (c.records.map WalRecord.len).sum = c.images.length * pageImageLen + commitLen := by
  have himg : ∀ us : List (PageId × Page),
      ((us.map (fun u => WalRecord.pageImage c.txn u.1 u.2)).map WalRecord.len).sum =
        us.length * pageImageLen := by
    intro us
    induction us with
    | nil => simp
    | cons u us ih =>
      rw [List.map_cons, List.map_cons, List.sum_cons, ih, List.length_cons, Nat.add_mul, Nat.one_mul,
        Nat.add_comm]
      rfl
  rw [Commit.records_eq, List.map_append, List.sum_append, Commit.imageRecords_eq, himg]
  rfl

theorem Commit.pages_le_images (c : Commit) : c.pages.length ≤ c.images.length := by
  rw [Commit.images, List.length_append]
  exact Nat.le_add_left _ _

theorem records_len_ge (cs : List Commit) :
    (cs.flatMap (·.pages)).length * pageImageLen + cs.length * commitLen ≤
      ((cs.flatMap (·.records)).map WalRecord.len).sum := by
  induction cs with
  | nil => simp
  | cons c cs ih =>
    have hle := Nat.mul_le_mul_right pageImageLen c.pages_le_images
    have hc := c.records_len
    simp only [List.flatMap_cons, List.map_append, List.sum_append, List.length_append,
      List.length_cons, Nat.add_mul, Nat.one_mul] at ih ⊢
    omega

theorem Log.pages_lt {l : Log} (h : l.body.length ≤ maxFileSize) :
    (l.since.flatMap (·.pages)).length < 2 ^ 51 := by
  have hp := records_len_ge l.since
  rw [pageImageLen, recordHeaderSize, pageSize] at hp
  rw [l.body_length, maxFileSize] at h
  omega

theorem Log.commits_lt {l : Log} (h : l.body.length ≤ maxFileSize) : l.since.length < 2 ^ 63 := by
  have hp := records_len_ge l.since
  rw [commitLen, recordHeaderSize] at hp
  rw [l.body_length, maxFileSize] at h
  omega

def Holder.Plain : Holder → Prop
  | .logging _ => False
  | .flushing _ => False
  | .checkpointing _ .truncated => False
  | .checkpointing _ .rewritten => False
  | _ => True

theorem Log.phase_plain {l : Log} {wal : Wal} {f : WalFile} {nextTxn : TxnId} {holder : Holder}
    (hp : holder.Plain) : l.Phase wal f nextTxn holder ↔
      (wal.poisoned = false → l.Idle wal nextTxn ∧ f.unsynced = .none) := by
  cases holder with
  | logging c => exact absurd hp id
  | flushing c => exact absurd hp id
  | checkpointing auto stage =>
    cases stage with
    | truncated => exact absurd hp id
    | rewritten => exact absurd hp id
    | _ => rfl
  | _ => rfl

theorem Holder.AfterCall.plain {r : Option (Owner × PageId × Except Error Unit)} {holder holder' : Holder}
    (h : AfterCall r holder holder') (hp : holder.Plain) : holder'.Plain := by
  cases h with
  | same => exact hp
  | installed | installFailed | flushed | flushFailed => trivial

theorem Holder.AfterCall.writer {r : Option (Owner × PageId × Except Error Unit)} {holder holder' : Holder}
    (h : AfterCall r holder holder') {w : WriteTxn} (hw : holder' = .writer w) : holder = .writer w := by
  cases h with
  | same => exact hw
  | installed | installFailed | flushed | flushFailed => cases hw

end OxenDB
