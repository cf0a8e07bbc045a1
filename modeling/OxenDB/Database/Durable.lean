import OxenDB.Database.Invariant

namespace OxenDB

open Lib

def Guarded (db : Database) (e : Event) : Prop := e = .checkpointLocked → db.poisoned = false

def DataFile.Lasts (f : DataFile) (id : PageId) (page : Page) : Prop :=
  f.slots id = .synced ∧ readAt f.contents (slotOffset id) pageSize = some page.data

structure DataFile.SelfSufficient (f : DataFile) (m : PageMap) : Prop where
  pages : ∀ id, DataPage m.count id → f.Lasts id (m.page id)
  headers : f.headers = [m.slot PageId.HEADER]

def DataFile.Stage (f : DataFile) (m : PageMap) : Holder → Prop
  | .checkpointing _ .fsyncingPages => ∀ id, f.slots id ≠ .written
  | .checkpointing _ .header => ∀ id, f.slots id = .synced
  | .checkpointing _ .fsyncHeader => (∀ id ≠ PageId.HEADER, f.slots id = .synced) ∧
      f.slots PageId.HEADER = .written ∧ f.headers.getLast? = some (m.slot PageId.HEADER)
  | .checkpointing _ .fsyncingHeader => (∀ id ≠ PageId.HEADER, f.slots id = .synced) ∧
      f.slots PageId.HEADER = .syncing ∧ f.headers.getLast? = some (m.slot PageId.HEADER)
  | .checkpointing _ .reset => (∀ id, f.slots id = .synced) ∧ f.headers = [m.slot PageId.HEADER]
  | _ => True

structure Durable (h : History) (db : Database) : Prop where
  unpoisoned : ∀ auto stage, db.holder = .checkpointing auto stage → db.poisoned = false
  kept : ∀ id, DataPage h.log.base.count id →
    id ∉ (h.log.since.flatMap (·.pages)).map Prod.fst →
      db.pool.disk.file.Lasts id (h.log.base.page id)
  headers : (∀ c ∈ h.log.since, c.grew = false) →
    ∀ v ∈ db.pool.disk.file.headers, v = h.log.base.slot PageId.HEADER
  notLost : db.poisoned = false → (∀ f, db.holder ≠ .failed f) → ∀ id, db.pool.disk.file.slots id ≠ .lost
  stage : db.pool.disk.file.Stage h.log.current db.holder
  resetting : ∀ old header t w, db.walFile.unsynced = .reset old header t w →
    (∀ id, db.pool.cache.Clean id) ∧ db.pool.disk.file.SelfSufficient h.log.current

namespace DataFile

variable {f : DataFile} {m : PageMap} {auto : Option Commit}

theorem sync_notLost {ev : SyncEvent} (hev : ev ≠ .fail) (h : ∀ id, f.slots id ≠ .lost) (id : PageId) :
    (f.sync ev).slots id ≠ .lost := by
  cases ev with
  | start =>
    change (if _ then _ else _) ≠ _
    split_ifs
    · decide
    · exact h id
  | finish =>
    change (if _ then _ else _) ≠ _
    split_ifs
    · decide
    · exact h id
  | fail => exact absurd rfl hev

theorem Stage.pagesBegun (f : DataFile) : (f.sync .start).Stage m (.checkpointing auto .fsyncingPages) := by
  intro id
  change (if _ then _ else _) ≠ _
  split_ifs with hw
  · decide
  · exact hw

theorem Stage.pagesSynced (h : f.Stage m (.checkpointing auto .fsyncingPages))
    (hl : ∀ id, f.slots id ≠ .lost) : (f.sync .finish).Stage m (.checkpointing auto .header) := by
  intro id
  change (if _ then _ else _) = _
  split_ifs with hw
  · rfl
  · cases hc : f.slots id with
    | synced => rfl
    | written => exact absurd hc (h id)
    | syncing => exact absurd hc hw
    | lost => exact absurd hc (hl id)

theorem Stage.headerBegun (h : f.Stage m (.checkpointing auto .fsyncHeader)) :
    (f.sync .start).Stage m (.checkpointing auto .fsyncingHeader) := by
  obtain ⟨hslots, hheader, hlast⟩ := h
  refine ⟨?_, ?_, hlast⟩
  · intro id hid
    change (if _ then _ else _) = _
    rw [hslots id hid]
    rfl
  · change (if _ then _ else _) = _
    rw [hheader]
    rfl

theorem Stage.headerSynced (h : f.Stage m (.checkpointing auto .fsyncingHeader)) :
    (f.sync .finish).Stage m (.checkpointing auto .reset) := by
  obtain ⟨hslots, hheader, hlast⟩ := h
  refine ⟨?_, ?_⟩
  · intro id
    change (if _ then _ else _) = _
    rcases eq_or_ne id PageId.HEADER with rfl | hne
    · rw [hheader]
      rfl
    · rw [hslots id hne]
      rfl
  · change (if f.slots PageId.HEADER = .syncing then _ else _) = _
    rw [if_pos hheader]
    obtain ⟨l, hl⟩ := List.getLast?_eq_some_iff.mp hlast
    rw [hl, List.length_append, List.length_singleton, Nat.add_sub_cancel, List.drop_left]

end DataFile

theorem DataFile.Lasts.sync {f : DataFile} {id : PageId} {page : Page} (h : f.Lasts id page)
    (ev : SyncEvent) : (f.sync ev).Lasts id page := by
  refine ⟨?_, by rw [f.sync_contents ev]; exact h.2⟩
  have hs : f.slots id = .synced := h.1
  cases ev with
  | start => simp [DataFile.sync, DataFile.syncBegin, hs]
  | finish => simp [DataFile.sync, DataFile.syncEnd, hs]
  | fail => simp [DataFile.sync, DataFile.syncFail, hs]

theorem DataFile.Lasts.writeHeader {f : DataFile} {id : PageId} {page : Page} (h : f.Lasts id page)
    (hid : id ≠ PageId.HEADER) (header : Page) (n : ℕ) : (f.writeHeader header n).Lasts id page := by
  refine ⟨(Function.update_of_ne hid ..).trans h.1, ?_⟩
  have hlen : (header.data.take n).length ≤ pageSize := by
    rw [List.length_take, header.size]
    exact Nat.min_le_right _ _
  have hzero : PageId.HEADER.toNat < 2 ^ 52 := by decide
  exact readAt_writeAt_ne hlen hzero hid h.2

theorem DataFile.sync_headers {f : DataFile} (ev : SyncEvent) {v : Bytes}
    (hv : v ∈ (f.sync ev).headers) : v ∈ f.headers := by
  cases ev with
  | start => exact hv
  | fail => exact hv
  | finish =>
    change v ∈ (if f.slots PageId.HEADER = .syncing then f.headers.drop (f.headers.length - 1)
      else f.headers) at hv
    split_ifs at hv
    · exact List.mem_of_mem_drop hv
    · exact hv

theorem Log.slot_header {l : Log} (hc : Chain l.base l.since) (hg : ∀ c ∈ l.since, c.grew = false) :
    l.current.slot PageId.HEADER = l.base.slot PageId.HEADER := by
  rw [PageMap.slot_header, PageMap.slot_header, Log.current, hc.count_eq hg]

theorem Holder.AfterCall.stage {r : Option (Owner × PageId × Except Error Unit)} {holder holder' : Holder}
    (h : AfterCall r holder holder') {auto : Option Commit} {stage : CheckpointAt}
    (hs : holder' = .checkpointing auto stage) : ∃ stage', holder = .checkpointing auto stage' ∧
      (stage' = stage ∨ ∃ i todo todo', stage' = .flush i todo ∧ stage = .flush i todo') := by
  cases h with
  | same => exact ⟨stage, hs, .inl rfl⟩
  | flushed =>
    cases hs
    exact ⟨_, rfl, .inr ⟨_, _, _, rfl, rfl⟩⟩
  | installed | installFailed | flushFailed => cases hs

end OxenDB
