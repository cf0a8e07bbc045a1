import OxenDB.Open
import OxenDB.Lib.TornWrites
import OxenDB.Lib.Transition

namespace OxenDB

open Lib

/-- The next call of an attempt to open existing files, with what the calls before it returned. -/
inductive OpenCall
  | none
  | truncate (opened : OpenedWal)
  | syncTail (opened : OpenedWal)
  | validate (opened : OpenedWal)
  | writePages (opened : OpenedWal) (todo : List (PageId × Page))
  | syncPages (opened : OpenedWal)
  | openDisk (opened : OpenedWal)
  | truncateLog (opened : OpenedWal) (disk : DiskManager)
  | writeHeader (opened : OpenedWal) (disk : DiskManager)
  | syncLog (opened : OpenedWal) (disk : DiskManager)
  | assemble (opened : OpenedWal) (disk : DiskManager)

/-- The two files while attempts to open them come and go. `unsynced` are the pages written since the
last fsync of the data file, `lost` those that a failed fsync gave up; `undone` are the contents the
log has when some of the calls on it since its last fsync are undone. -/
structure Opening where
  data : Bytes
  unsynced : List PageId
  lost : List PageId
  wal : Bytes
  undone : List Bytes
  next : OpenCall

inductive OpenEvent
  | call
  | error
  | crash
  deriving DecidableEq

def pageSpan (id : PageId) : Span := ((fileOffset id).toNat, pageSize)

namespace Opening

def files (data wal : Bytes) : Opening := ⟨data, [], [], wal, [], .none⟩

def onWal (s : Opening) (f : Bytes → Bytes) (next : OpenCall) : Opening :=
  { s with wal := f s.wal, undone := s.wal :: s.undone ++ s.undone.map f, next := next }

inductive Step : Opening → OpenEvent → Opening → Prop
  | readLog {s : Opening} {o : OpenedWal} (hn : s.next = .none) (ho : Wal.open s.wal = .ok o) :
      Step s .call { s with next := if o.discarded.isSome then .truncate o else .validate o }
  | truncate {s : Opening} {o : OpenedWal} (hn : s.next = .truncate o) :
      Step s .call (s.onWal (·.take o.wal.durableLen) (.syncTail o))
  | syncTail {s : Opening} {o : OpenedWal} (hn : s.next = .syncTail o) :
      Step s .call { s with undone := [], next := .validate o }
  | validate {s : Opening} {o : OpenedWal} {latest : PageTree} (hn : s.next = .validate o)
      (hl : latestImages (committedTxns o.records) o.records ∅ = .ok latest) :
      Step s .call
        { s with next := if latest.isEmpty then .openDisk o else .writePages o latest.toList }
  | writePage {s : Opening} {o : OpenedWal} {id : PageId} {page : Page} {todo : List (PageId × Page)}
      (hn : s.next = .writePages o ((id, page) :: todo))
      (hfit : (fileOffset id).toNat + pageSize ≤ maxFileSize) :
      Step s .call
        { s with
          data := writeAt s.data (fileOffset id).toNat page.data
          unsynced := id :: s.unsynced
          lost := s.lost.filter (· ≠ id)
          next := .writePages o todo }
  | tearPage {s : Opening} {o : OpenedWal} {id : PageId} {page : Page} {todo : List (PageId × Page)}
      (junk : Bytes) (hn : s.next = .writePages o ((id, page) :: todo)) :
      Step s .error
        { s with
          data := writeAt s.data (fileOffset id).toNat (junk.take pageSize)
          unsynced := id :: s.unsynced
          next := .none }
  | pagesWritten {s : Opening} {o : OpenedWal} (hn : s.next = .writePages o []) :
      Step s .call { s with next := .syncPages o }
  | syncPages {s : Opening} {o : OpenedWal} (hn : s.next = .syncPages o) :
      Step s .call { s with unsynced := [], next := .openDisk o }
  | syncPagesFail {s : Opening} {o : OpenedWal} {left : Bytes} (hn : s.next = .syncPages o)
      (hleft : SameOutside (s.unsynced.map pageSpan) s.data left) :
      Step s .error
        { s with data := left, unsynced := [], lost := s.unsynced ++ s.lost, next := .none }
  | openDisk {s : Opening} {o : OpenedWal} {disk : DiskManager} (hn : s.next = .openDisk o)
      (hd : DiskManager.open s.data = .ok disk) (hw : o.wal.checkReset = .ok ()) :
      Step s .call { s with next := .truncateLog o disk }
  | truncateLog {s : Opening} {o : OpenedWal} {disk : DiskManager} (hn : s.next = .truncateLog o disk) :
      Step s .call (s.onWal (·.take walHeaderSize) (.writeHeader o disk))
  | writeHeader {s : Opening} {o : OpenedWal} {disk : DiskManager} (hn : s.next = .writeHeader o disk) :
      Step s .call (s.onWal (writeAt · 0 (encodeHeader o.wal.nextSeq)) (.syncLog o disk))
  | syncLog {s : Opening} {o : OpenedWal} {disk : DiskManager} (hn : s.next = .syncLog o disk) :
      Step s .call { s with undone := [], next := .assemble o disk }
  -- Any call may fail without effect, and a call that had its effect may report an error.
  | error {s : Opening} : Step s .error { s with next := .none }
  | crash {s : Opening} {left wal : Bytes}
      (hleft : SameOutside ((s.unsynced ++ s.lost).map pageSpan) s.data left)
      (hwal : wal ∈ s.wal :: s.undone) : Step s .crash (files left wal)

end Opening

structure LogText where
  seq : UInt64
  rs : List WalRecord
  tail : Bytes
  stops : NoRecord tail (seq + UInt64.ofNat rs.length)
  room : rs.length < 2 ^ 64

namespace LogText

variable {l : LogText} {w : Bytes} {o : OpenedWal} {q : UInt64}

def next (l : LogText) : UInt64 := l.seq + UInt64.ofNat l.rs.length

def records (l : LogText) : List DecodedRecord := decodedAll l.rs l.seq

def images (l : LogText) : List (PageId × Page) :=
  match latestImages (committedTxns l.records) l.records ∅ with
  | .ok latest => latest.toList
  | .error _ => []

structure Holds (l : LogText) (w : Bytes) : Prop where
  header : decodeHeader w = .ok l.seq
  body : ∃ tail, (tail = l.tail ∨ tail = []) ∧ w.drop walHeaderSize = encodeAll l.rs l.seq ++ tail

structure Derived (l : LogText) (w : Bytes) : Prop where
  header : ∃ q, (q = l.seq ∨ q = l.next) ∧ decodeHeader w = .ok q
  body : w.drop walHeaderSize = [] ∨
    ∃ tail, (tail = l.tail ∨ tail = []) ∧ w.drop walHeaderSize = encodeAll l.rs l.seq ++ tail

def Spent (l : LogText) (w : Bytes) : Prop :=
  ∃ q, (q = l.seq ∨ q = l.next) ∧ decodeHeader w = .ok q ∧ NoRecord (w.drop walHeaderSize) q

def Known (l : LogText) (o : OpenedWal) : Prop := o.wal.nextSeq = l.seq ∨ o.wal.nextSeq = l.next

def Tidy (w : Bytes) : Prop := ∀ o, Wal.open w = .ok o → o.discarded = none

theorem stops_tail {tail : Bytes} (h : tail = l.tail ∨ tail = []) : NoRecord tail l.next := by
  rcases h with rfl | rfl
  · exact l.stops
  · exact noRecord_nil _

theorem stale {tail : Bytes} (h : tail = l.tail ∨ tail = []) :
    NoRecord (encodeAll l.rs l.seq ++ tail) l.next := by
  have hstale := @noRecord_stale l.rs l.seq l.room
  have htail := stops_tail h
  cases hrs : l.rs with
  | nil => simpa [encodeAll] using htail
  | cons r rs =>
    rw [hrs] at hstale
    intro d hd
    rw [encodeAll, List.append_assoc, WalRecord.decode_encode] at hd
    injection hd with hd
    subst hd
    rw [next, hrs]
    apply hstale
    rw [encodeAll, WalRecord.decode_encode]

theorem Holds.derived (h : l.Holds w) : l.Derived w :=
  ⟨⟨_, .inl rfl, h.header⟩, .inr h.body⟩

theorem Derived.holds_or_spent (h : l.Derived w) : l.Holds w ∨ l.Spent w := by
  obtain ⟨q, hq, hhead⟩ := h.header
  rcases h.body with hnil | ⟨tail, ht, hbody⟩
  · exact .inr ⟨q, hq, hhead, by rw [hnil]; exact noRecord_nil _⟩
  · rcases hq with rfl | rfl
    · exact .inl ⟨hhead, tail, ht, hbody⟩
    · exact .inr ⟨_, .inr rfl, hhead, by rw [hbody]; exact stale ht⟩

theorem drop_take_header (w : Bytes) : (w.take walHeaderSize).drop walHeaderSize = [] :=
  List.drop_of_length_le (List.length_take_le _ _)

theorem Derived.truncated (h : l.Derived w) : l.Derived (w.take walHeaderSize) := by
  obtain ⟨q, hq, hhead⟩ := h.header
  exact ⟨⟨q, hq, decodeHeader_take hhead (le_refl _)⟩, .inl (drop_take_header w)⟩

theorem rewritten_eq (w : Bytes) (q : UInt64) :
    writeAt w 0 (encodeHeader q) = encodeHeader q ++ w.drop walHeaderSize := by
  have hl := encodeHeader_length q
  have hne : (encodeHeader q).isEmpty = false := by
    rw [List.isEmpty_eq_false_iff]
    intro hnil
    simp [hnil, walHeaderSize] at hl
  rw [writeAt, hne]
  simp [hl]

theorem Derived.rewritten (h : l.Derived w) (hq : q = l.seq ∨ q = l.next) :
    l.Derived (writeAt w 0 (encodeHeader q)) ∧
      (writeAt w 0 (encodeHeader q)).drop walHeaderSize = w.drop walHeaderSize := by
  have hdrop : (writeAt w 0 (encodeHeader q)).drop walHeaderSize = w.drop walHeaderSize := by
    rw [rewritten_eq, drop_encodeHeader]
  refine ⟨⟨⟨q, hq, ?_⟩, ?_⟩, hdrop⟩
  · rw [rewritten_eq]
    exact decodeHeader_encodeHeader q _
  · rw [hdrop]
    exact h.body

theorem Derived.spent (h : l.Derived w) (hnil : w.drop walHeaderSize = []) : l.Spent w := by
  obtain ⟨q, hq, hhead⟩ := h.header
  exact ⟨q, hq, hhead, by rw [hnil]; exact noRecord_nil _⟩

theorem tidy_of (rs : List WalRecord) (hhead : decodeHeader w = .ok q)
    (hbody : w.drop walHeaderSize = encodeAll rs q) : Tidy w := by
  intro o ho
  obtain ⟨o', ho', hp⟩ := Wal.open_parses hhead (hbody.trans (List.append_nil _).symm) (noRecord_nil _)
  rw [ho] at ho'
  cases ho'
  simpa using hp.discarded

theorem Derived.tidy (h : l.Derived w) (hnil : w.drop walHeaderSize = []) : Tidy w := by
  obtain ⟨q, -, hhead⟩ := h.header
  exact tidy_of [] hhead hnil

theorem Holds.read (h : l.Holds w) (ho : Wal.open w = .ok o) :
    o.records = l.records ∧ l.Known o ∧ l.Holds (w.take o.wal.durableLen) ∧
      Tidy (w.take o.wal.durableLen) := by
  obtain ⟨tail, ht, hbody⟩ := h.body
  obtain ⟨o', ho', hp⟩ := Wal.open_parses h.header hbody (stops_tail ht)
  rw [ho] at ho'
  cases ho'
  have hlen : o.wal.durableLen = walHeaderSize + (encodeAll l.rs l.seq).length := by rw [hp.wal]
  have hhead : decodeHeader (w.take o.wal.durableLen) = .ok l.seq := by
    apply decodeHeader_take h.header
    rw [hlen]
    exact Nat.le_add_right _ _
  have hcut : (w.take o.wal.durableLen).drop walHeaderSize = encodeAll l.rs l.seq := by
    rw [hlen, List.drop_take, hbody, Nat.add_sub_cancel_left, List.take_left]
  refine ⟨hp.records, .inr (by rw [hp.wal]; rfl), ⟨hhead, [], .inr rfl, ?_⟩, tidy_of l.rs hhead hcut⟩
  rw [hcut, List.append_nil]

theorem Spent.read (h : l.Spent w) (ho : Wal.open w = .ok o) :
    o.records = [] ∧ l.Known o ∧ o.wal.durableLen = walHeaderSize := by
  obtain ⟨q, hq, hhead, hno⟩ := h
  have hz : q + UInt64.ofNat ([] : List WalRecord).length = q := by simp
  have hbody : w.drop walHeaderSize = encodeAll [] q ++ w.drop walHeaderSize := rfl
  obtain ⟨o', ho', hp⟩ := Wal.open_parses hhead hbody (by rwa [hz])
  rw [ho] at ho'
  cases ho'
  refine ⟨hp.records, ?_, by rw [hp.wal]; rfl⟩
  rw [Known, hp.wal, hz]
  exact hq

end LogText

theorem writeImages_congr {us : List (PageId × Page)} {f g : Bytes}
    (h : SameOutside ((us.map Prod.fst).map pageSpan) f g) : writeImages f us = writeImages g us := by
  induction us generalizing f g with
  | nil => rw [h.eq]
  | cons u us ih =>
    obtain ⟨id, page⟩ := u
    rw [writeImages, writeImages]
    split_ifs
    · rfl
    · apply ih
      apply SameOutside.write _ page.data_ne_nil
      rw [page.size]
      exact h

def recovered (data : Bytes) (records : List DecodedRecord) : Except Error DiskManager :=
  match replay data records with
  | .error e => .error e
  | .ok (data, _) => DiskManager.open data

theorem Wal.open_checkReset {wal : Bytes} {o : OpenedWal} (ho : Wal.open wal = .ok o) :
    o.wal.checkReset = .ok () := by
  rw [Wal.open] at ho
  cases hh : decodeHeader wal with
  | error e =>
    rw [hh] at ho
    cases ho
  | ok seq =>
    rw [hh] at ho
    injection ho with ho
    rw [← ho]
    simp [Wal.checkReset, Wal.checkPoisoned]

theorem openExisting_disk {data wal : Bytes} {o : OpenedWal} (ho : Wal.open wal = .ok o) :
    (openExisting data (some wal)).map (·.disk) = recovered data o.records := by
  simp only [openExisting, ho, recovered]
  cases replay data o.records with
  | error e => rfl
  | ok p =>
    dsimp only
    cases DiskManager.open p.1 with
    | error e => rfl
    | ok disk =>
      rw [Wal.reset, Wal.open_checkReset ho]
      rfl

namespace LogText

variable {l : LogText} {data f : Bytes} {latest : PageTree}

theorem images_eq (hl : latestImages (committedTxns l.records) l.records ∅ = .ok latest) :
    l.images = latest.toList := by
  rw [images, hl]

theorem replay_congr (h : SameOutside ((l.images.map Prod.fst).map pageSpan) data f) :
    replay f l.records = replay data l.records := by
  cases hl : latestImages (committedTxns l.records) l.records ∅ with
  | error e =>
    have he := hl
    rw [committedTxns] at he
    simp only [replay, he]
  | ok latest =>
    have he := hl
    rw [committedTxns] at he
    rw [images_eq hl] at h
    simp only [replay, he, writeImages_congr h]

theorem replay_images (hl : latestImages (committedTxns l.records) l.records ∅ = .ok latest)
    (hw : writeImages data l.images = .ok f) : ∃ stats, replay data l.records = .ok (f, stats) := by
  rw [images_eq hl] at hw
  rw [committedTxns] at hl
  exact ⟨_, by simp only [replay, hl, hw]; rfl⟩

end LogText

theorem replay_nil (data : Bytes) : replay data [] = .ok (data, ⟨0, 0, 0⟩) := rfl

namespace Opening

variable (l : LogText) (data : Bytes)

structure Intact (s : Opening) : Prop where
  logs : ∀ w ∈ s.wal :: s.undone, l.Holds w
  data : SameOutside ((l.images.map Prod.fst).map pageSpan) data s.data
  unsynced : s.unsynced ⊆ l.images.map Prod.fst
  lost : s.lost ⊆ l.images.map Prod.fst

structure Replayed (s : Opening) : Prop where
  data : ∃ stats, replay data l.records = .ok (s.data, stats)
  unsynced : s.unsynced = []
  lost : s.lost = []

structure Restored (s : Opening) : Prop extends Replayed l data s where
  logs : ∀ w ∈ s.wal :: s.undone, l.Derived w
  spent : l.Spent s.wal

def Safe (s : Opening) : Prop := Intact l data s ∨ Restored l data s

def Reads (s : Opening) (o : OpenedWal) : Prop :=
  (Intact l data s ∧ o.records = l.records ∨ Restored l data s ∧ o.records = []) ∧ l.Known o

structure Writing (s : Opening) (todo : List (PageId × Page)) : Prop where
  intact : Intact l data s
  valid : ∃ latest, latestImages (committedTxns l.records) l.records ∅ = .ok latest
  result : writeImages s.data todo = writeImages data l.images
  among : todo.map Prod.fst ⊆ l.images.map Prod.fst
  lost : s.lost ⊆ todo.map Prod.fst

def Ready (s : Opening) : OpenCall → Prop
  | .none => True
  | .truncate o => s.undone = [] ∧ Wal.open s.wal = .ok o
  | .syncTail o | .validate o => Reads l data s o
  | .writePages o todo => Writing l data s todo ∧ l.Known o
  | .syncPages o => Writing l data s [] ∧ l.Known o
  | .openDisk o => Replayed l data s ∧ l.Known o
  | .truncateLog o disk => Replayed l data s ∧ l.Known o ∧ DiskManager.open s.data = .ok disk
  | .writeHeader o disk =>
    Restored l data s ∧ l.Known o ∧ DiskManager.open s.data = .ok disk ∧ s.wal.drop walHeaderSize = []
  | .syncLog _ disk | .assemble _ disk => Restored l data s ∧ DiskManager.open s.data = .ok disk

structure Sound (s : Opening) : Prop where
  safe : Safe l data s
  tidy : s.undone = [] ∨ LogText.Tidy s.wal
  ready : Ready l data s s.next

variable {l : LogText} {data : Bytes} {s s' : Opening} {o : OpenedWal}

theorem Safe.derived (h : Safe l data s) : ∀ w ∈ s.wal :: s.undone, l.Derived w := by
  rcases h with h | h
  · exact fun w hw => (h.logs w hw).derived
  · exact h.logs

theorem Intact.goto (h : Intact l data s) (n : OpenCall) : Intact l data { s with next := n } :=
  ⟨h.logs, h.data, h.unsynced, h.lost⟩

theorem Replayed.goto (h : Replayed l data s) (n : OpenCall) : Replayed l data { s with next := n } :=
  ⟨h.data, h.unsynced, h.lost⟩

theorem Restored.goto (h : Restored l data s) (n : OpenCall) : Restored l data { s with next := n } :=
  ⟨h.toReplayed.goto n, h.logs, h.spent⟩

theorem Safe.goto (h : Safe l data s) (n : OpenCall) : Safe l data { s with next := n } :=
  h.imp (·.goto n) (·.goto n)

theorem Reads.goto (h : Reads l data s o) (n : OpenCall) : Reads l data { s with next := n } o :=
  ⟨h.1.imp (fun h => ⟨h.1.goto n, h.2⟩) (fun h => ⟨h.1.goto n, h.2⟩), h.2⟩

theorem Intact.walSynced (h : Intact l data s) (n : OpenCall) :
    Intact l data { s with undone := [], next := n } :=
  ⟨fun w hw => h.logs w (List.mem_cons.mpr (.inl (List.mem_singleton.mp hw))), h.data, h.unsynced, h.lost⟩

theorem Restored.walSynced (h : Restored l data s) (n : OpenCall) :
    Restored l data { s with undone := [], next := n } :=
  ⟨⟨h.data, h.unsynced, h.lost⟩, fun w hw => h.logs w (List.mem_cons.mpr (.inl (List.mem_singleton.mp hw))),
    h.spent⟩

theorem forall_onWal {P : Bytes → Prop} {f : Bytes → Bytes} {n : OpenCall}
    (h : ∀ w ∈ s.wal :: s.undone, P w) (hf : ∀ w ∈ s.wal :: s.undone, P (f w)) :
    ∀ w ∈ (s.onWal f n).wal :: (s.onWal f n).undone, P w := by
  intro w hw
  rcases List.mem_cons.mp hw with rfl | hw
  · exact hf _ List.mem_cons_self
  · rcases List.mem_append.mp hw with hw | hw
    · exact h w hw
    · obtain ⟨v, hv, rfl⟩ := List.mem_map.mp hw
      exact hf v (List.mem_cons_of_mem _ hv)

theorem Safe.reads (h : Safe l data s) (ho : Wal.open s.wal = .ok o) : Reads l data s o := by
  rcases h with h | h
  · obtain ⟨hrec, hknown, -⟩ := (h.logs _ List.mem_cons_self).read ho
    exact ⟨.inl ⟨h, hrec⟩, hknown⟩
  · obtain ⟨hrec, hknown, -⟩ := h.spent.read ho
    exact ⟨.inr ⟨h, hrec⟩, hknown⟩

theorem Sound.readLog (h : Sound l data s) (ho : Wal.open s.wal = .ok o) :
    Sound l data { s with next := if o.discarded.isSome then .truncate o else .validate o } := by
  refine ⟨h.safe.goto _, h.tidy, ?_⟩
  dsimp only
  split_ifs with hd
  · refine ⟨?_, ho⟩
    rcases h.tidy with hu | ht
    · exact hu
    · rw [ht o ho] at hd
      cases hd
  · exact (h.safe.reads ho).goto _

theorem Safe.truncated (h : Safe l data s) (hu : s.undone = []) (ho : Wal.open s.wal = .ok o) :
    Reads l data (s.onWal (·.take o.wal.durableLen) (.syncTail o)) o ∧
      LogText.Tidy (s.wal.take o.wal.durableLen) := by
  rcases h with h | h
  · have hw := h.logs _ List.mem_cons_self
    obtain ⟨hrec, hknown, hcut, htidy⟩ := hw.read ho
    refine ⟨⟨.inl ⟨⟨?_, h.data, h.unsynced, h.lost⟩, hrec⟩, hknown⟩, htidy⟩
    apply forall_onWal h.logs
    intro w hmem
    rw [hu, List.mem_singleton] at hmem
    rw [hmem]
    exact hcut
  · have hw := h.logs _ List.mem_cons_self
    obtain ⟨hrec, hknown, hlen⟩ := h.spent.read ho
    rw [hlen]
    have hcut := LogText.drop_take_header s.wal
    refine ⟨⟨.inr ⟨⟨⟨h.data, h.unsynced, h.lost⟩, ?_, hw.truncated.spent hcut⟩, hrec⟩, hknown⟩,
      hw.truncated.tidy hcut⟩
    exact forall_onWal h.logs (fun w hmem => (h.logs w hmem).truncated)

theorem Reads.safe (h : Reads l data s o) : Safe l data s :=
  h.1.imp And.left And.left

theorem Reads.walSynced (h : Reads l data s o) (n : OpenCall) :
    Reads l data { s with undone := [], next := n } o :=
  ⟨h.1.imp (fun h => ⟨h.1.walSynced n, h.2⟩) (fun h => ⟨h.1.walSynced n, h.2⟩), h.2⟩

theorem Sound.validate (h : Sound l data s) (hr : Reads l data s o) {latest : PageTree}
    (hl : latestImages (committedTxns o.records) o.records ∅ = .ok latest) :
    Sound l data
      { s with next := if latest.isEmpty then .openDisk o else .writePages o latest.toList } := by
  refine ⟨h.safe.goto _, h.tidy, ?_⟩
  dsimp only
  obtain ⟨hi | hi, hknown⟩ := hr
  · obtain ⟨hi, hrec⟩ := hi
    rw [hrec] at hl
    have himg := LogText.images_eq hl
    split_ifs with he
    · rw [← Std.TreeMap.isEmpty_toList, List.isEmpty_iff, ← himg] at he
      have hu := hi.unsynced
      have hlost := hi.lost
      have hdata := hi.data
      rw [he] at hu hlost hdata
      refine ⟨⟨?_, List.subset_nil.mp hu, List.subset_nil.mp hlost⟩, hknown⟩
      apply LogText.replay_images hl
      rw [he, writeImages, hdata.eq]
    · refine ⟨⟨hi.goto _, ⟨latest, hl⟩, ?_, ?_, ?_⟩, hknown⟩
      · rw [← himg]
        exact (writeImages_congr hi.data).symm
      · rw [himg]
        exact List.Subset.refl _
      · rw [← himg]
        exact hi.lost
  · obtain ⟨hi, hrec⟩ := hi
    rw [hrec] at hl
    cases hl
    exact ⟨hi.toReplayed.goto _, hknown⟩

theorem Intact.write (h : Intact l data s) {id : PageId} {bs : Bytes} {lost : List PageId} {n : OpenCall}
    (hid : id ∈ l.images.map Prod.fst) (hlen : bs.length ≤ pageSize) (hlost : lost ⊆ s.lost) :
    Intact l data
      { s with
        data := writeAt s.data (fileOffset id).toNat bs
        unsynced := id :: s.unsynced
        lost := lost
        next := n } := by
  refine ⟨h.logs, h.data.trans ?_, List.cons_subset.mpr ⟨hid, h.unsynced⟩, List.Subset.trans hlost h.lost⟩
  apply (SameOutside.tear s.data hlen).mono
  intro w hw
  rw [List.mem_singleton.mp hw]
  exact List.mem_map_of_mem hid

theorem Writing.write {id : PageId} {page : Page} {todo : List (PageId × Page)}
    (h : Writing l data s ((id, page) :: todo)) (hfit : (fileOffset id).toNat + pageSize ≤ maxFileSize)
    (n : OpenCall) :
    Writing l data
      { s with
        data := writeAt s.data (fileOffset id).toNat page.data
        unsynced := id :: s.unsynced
        lost := s.lost.filter (· ≠ id)
        next := n } todo := by
  have hid : id ∈ l.images.map Prod.fst := h.among List.mem_cons_self
  refine ⟨h.intact.write hid (le_of_eq page.size) (List.filter_subset_self _), h.valid, ?_, ?_, ?_⟩
  · rw [← h.result, writeImages, if_neg (not_lt.mpr hfit)]
  · exact fun x hx => h.among (List.mem_cons_of_mem _ hx)
  · intro x hx
    obtain ⟨hx, hne⟩ := List.mem_filter.mp hx
    rcases List.mem_cons.mp (h.lost hx) with rfl | hx
    · simp at hne
    · exact hx

theorem Writing.synced (h : Writing l data s []) (n : OpenCall) :
    Replayed l data { s with unsynced := [], next := n } := by
  obtain ⟨latest, hl⟩ := h.valid
  refine ⟨?_, rfl, List.subset_nil.mp h.lost⟩
  exact LogText.replay_images hl h.result.symm

theorem writeImages_same {us : List (PageId × Page)} {f g : Bytes} (h : writeImages f us = .ok g) :
    SameOutside ((us.map Prod.fst).map pageSpan) f g := by
  induction us generalizing f with
  | nil =>
    cases h
    exact .refl _ _
  | cons u us ih =>
    obtain ⟨id, page⟩ := u
    rw [writeImages] at h
    split_ifs at h
    refine SameOutside.trans ?_ ((ih h).mono (List.subset_cons_self _ _))
    apply (SameOutside.tear f (le_of_eq page.size)).mono
    intro w hw
    rw [List.mem_singleton.mp hw]
    exact List.mem_cons_self

theorem Replayed.intact (h : Replayed l data s) (hlogs : ∀ w ∈ s.wal :: s.undone, l.Holds w) :
    Intact l data s := by
  obtain ⟨stats, hr⟩ := h.data
  refine ⟨hlogs, ?_, by rw [h.unsynced]; exact List.nil_subset _, by rw [h.lost]; exact List.nil_subset _⟩
  cases hl : latestImages (committedTxns l.records) l.records ∅ with
  | error e =>
    rw [committedTxns] at hl
    simp only [replay, hl] at hr
    cases hr
  | ok latest =>
    rw [LogText.images_eq hl]
    rw [committedTxns] at hl
    simp only [replay, hl] at hr
    cases hw : writeImages data latest.toList with
    | error e =>
      rw [hw] at hr
      cases hr
    | ok f =>
      rw [hw] at hr
      cases hr
      exact writeImages_same hw

theorem Safe.crash (h : Safe l data s) {left wal : Bytes}
    (hleft : SameOutside ((s.unsynced ++ s.lost).map pageSpan) s.data left)
    (hwal : wal ∈ s.wal :: s.undone) : Safe l data (files left wal) := by
  rcases h with h | h
  · refine .inl ⟨?_, h.data.trans (hleft.mono ?_), List.nil_subset _, List.nil_subset _⟩
    · intro w hw
      rw [List.mem_singleton.mp hw]
      exact h.logs wal hwal
    · exact List.map_subset _ (List.append_subset.mpr ⟨h.unsynced, h.lost⟩)
  · have hr : Replayed l data (files left wal) := by
      rw [h.unsynced, h.lost] at hleft
      rw [← hleft.eq]
      exact ⟨h.data, rfl, rfl⟩
    have hlog := h.logs wal hwal
    have hall : ∀ {P : Bytes → Prop}, P wal → ∀ w ∈ (files left wal).wal :: (files left wal).undone, P w := by
      intro P hP w hw
      rw [List.mem_singleton.mp hw]
      exact hP
    rcases hlog.holds_or_spent with hholds | hspent
    · exact .inl (hr.intact (hall hholds))
    · exact .inr ⟨hr, hall hlog, hspent⟩

theorem Sound.truncateLog (h : Sound l data s) {disk : DiskManager} (hr : Replayed l data s)
    (hknown : l.Known o) (hd : DiskManager.open s.data = .ok disk) :
    Sound l data (s.onWal (·.take walHeaderSize) (.writeHeader o disk)) := by
  have hall := h.safe.derived
  have hwal := (hall _ List.mem_cons_self).truncated
  have hcut := LogText.drop_take_header s.wal
  have hrest : Restored l data (s.onWal (·.take walHeaderSize) (.writeHeader o disk)) :=
    ⟨⟨hr.data, hr.unsynced, hr.lost⟩, forall_onWal hall (fun w hw => (hall w hw).truncated),
      hwal.spent hcut⟩
  exact ⟨.inr hrest, .inr (hwal.tidy hcut), hrest, hknown, hd, hcut⟩

theorem Restored.writeHeader (h : Restored l data s) {disk : DiskManager} (hknown : l.Known o)
    (hd : DiskManager.open s.data = .ok disk) (hnil : s.wal.drop walHeaderSize = []) :
    Sound l data (s.onWal (writeAt · 0 (encodeHeader o.wal.nextSeq)) (.syncLog o disk)) := by
  obtain ⟨hwal, hdrop⟩ := (h.logs _ List.mem_cons_self).rewritten hknown
  rw [hnil] at hdrop
  have hrest : Restored l data (s.onWal (writeAt · 0 (encodeHeader o.wal.nextSeq)) (.syncLog o disk)) :=
    ⟨⟨h.data, h.unsynced, h.lost⟩, forall_onWal h.logs (fun w hw => ((h.logs w hw).rewritten hknown).1),
      hwal.spent hdrop⟩
  exact ⟨.inr hrest, .inr (hwal.tidy hdrop), hrest, hd⟩

theorem Sound.step {e : OpenEvent} (h : Sound l data s) (hs : Step s e s') : Sound l data s' := by
  have hready := h.ready
  cases hs with
  | readLog hn ho => exact h.readLog ho
  | truncate hn =>
    rw [hn] at hready
    obtain ⟨hr, htidy⟩ := h.safe.truncated hready.1 hready.2
    exact ⟨hr.safe, .inr htidy, hr⟩
  | syncTail hn =>
    rw [hn] at hready
    exact ⟨(Reads.walSynced hready _).safe, .inl rfl, Reads.walSynced hready _⟩
  | validate hn hl =>
    rw [hn] at hready
    exact h.validate hready hl
  | writePage hn hfit =>
    rw [hn] at hready
    exact ⟨.inl (hready.1.write hfit _).intact, h.tidy, hready.1.write hfit _, hready.2⟩
  | tearPage junk hn =>
    rw [hn] at hready
    have hid := hready.1.among List.mem_cons_self
    refine ⟨.inl ?_, h.tidy, trivial⟩
    exact hready.1.intact.write hid (List.length_take_le pageSize junk) (List.Subset.refl _)
  | pagesWritten hn =>
    rw [hn] at hready
    obtain ⟨hw, hknown⟩ := hready
    exact ⟨h.safe.goto _, h.tidy, ⟨hw.intact.goto _, hw.valid, hw.result, hw.among, hw.lost⟩, hknown⟩
  | syncPages hn =>
    rw [hn] at hready
    obtain ⟨hw, hknown⟩ := hready
    have hi := hw.intact
    exact ⟨.inl ⟨hi.logs, hi.data, List.nil_subset _, hi.lost⟩, h.tidy, hw.synced _, hknown⟩
  | syncPagesFail hn hleft =>
    rw [hn] at hready
    have hi := hready.1.intact
    refine ⟨.inl ⟨hi.logs, hi.data.trans (hleft.mono ?_), List.nil_subset _, ?_⟩, h.tidy, trivial⟩
    · exact List.map_subset _ hi.unsynced
    · exact List.append_subset.mpr ⟨hi.unsynced, hi.lost⟩
  | openDisk hn hd hw =>
    rw [hn] at hready
    exact ⟨h.safe.goto _, h.tidy, hready.1.goto _, hready.2, hd⟩
  | truncateLog hn =>
    rw [hn] at hready
    exact h.truncateLog hready.1 hready.2.1 hready.2.2
  | writeHeader hn =>
    rw [hn] at hready
    obtain ⟨hr, hknown, hd, hnil⟩ := hready
    exact hr.writeHeader hknown hd hnil
  | syncLog hn =>
    rw [hn] at hready
    exact ⟨.inr (hready.1.walSynced _), .inl rfl, hready.1.walSynced _, hready.2⟩
  | error => exact ⟨h.safe.goto _, h.tidy, trivial⟩
  | crash hleft hwal => exact ⟨h.safe.crash hleft hwal, .inl rfl, trivial⟩

theorem exists_text {wal : Bytes} {q : UInt64} (hhead : decodeHeader wal = .ok q)
    (hlen : wal.length ≤ maxFileSize) : ∃ l : LogText, l.Holds wal := by
  obtain ⟨rs, tail, hbody, hno⟩ := scan_split (wal.drop walHeaderSize) q
  have hroom : rs.length < 2 ^ 64 := by
    have hge := encodeAll_length_ge rs q
    have hl := congrArg List.length hbody
    rw [List.length_drop, List.length_append] at hl
    rw [maxFileSize] at hlen
    omega
  exact ⟨⟨q, rs, tail, hno, hroom⟩, hhead, tail, .inl rfl, hbody⟩

theorem Holds.sound {wal : Bytes} (h : l.Holds wal) : Sound l data (files data wal) := by
  refine ⟨.inl ⟨?_, .refl _ _, List.nil_subset _, List.nil_subset _⟩, .inl rfl, trivial⟩
  intro w hw
  rw [List.mem_singleton.mp hw]
  exact h

theorem Safe.recovered (h : Safe l data s) (ho : Wal.open s.wal = .ok o) :
    recovered s.data o.records = OxenDB.recovered data l.records := by
  obtain ⟨hi | hi, -⟩ := h.reads ho
  · rw [hi.2, OxenDB.recovered, OxenDB.recovered, LogText.replay_congr hi.1.data]
  · obtain ⟨stats, hr⟩ := hi.1.data
    rw [hi.2, OxenDB.recovered, OxenDB.recovered, replay_nil, hr]

theorem Safe.opens (h : Safe l data s) : ∃ o, Wal.open s.wal = .ok o := by
  obtain ⟨q, -, hhead⟩ := (h.derived _ List.mem_cons_self).header
  exact ⟨_, by simp only [Wal.open, hhead]; rfl⟩

theorem Safe.openExisting (h : Safe l data s) :
    (openExisting s.data (some s.wal)).map (·.disk) = OxenDB.recovered data l.records := by
  obtain ⟨o, ho⟩ := h.opens
  rw [openExisting_disk ho, h.recovered ho]

theorem Sound.assemble (h : Sound l data s) {disk : DiskManager} (hn : s.next = .assemble o disk) :
    OxenDB.recovered data l.records = .ok disk := by
  have hready := h.ready
  rw [hn] at hready
  obtain ⟨stats, hr⟩ := hready.1.data
  rw [OxenDB.recovered, hr]
  exact hready.2

theorem unread {wal : Bytes} {e : Error} {es : List OpenEvent} (hhead : decodeHeader wal = .error e)
    (hr : Run Step (files data wal) es s) : s = files data wal := by
  apply hr.invariant (I := fun _ s => s = files data wal) rfl
  rintro _ _ e _ - rfl hs
  cases hs with
  | readLog hn ho =>
    simp only [files, Wal.open, hhead] at ho
    cases ho
  | error => rfl
  | crash hleft hwal => rw [List.mem_singleton.mp hwal, ← SameOutside.eq hleft]; rfl
  | truncate hn | syncTail hn | validate hn | writePage hn | tearPage _ hn | pagesWritten hn | syncPages hn
  | syncPagesFail hn | openDisk hn | truncateLog hn | writeHeader hn | syncLog hn => cases hn

theorem tear_run (f junk : Bytes) {wal : Bytes} {latest : PageTree} {id : PageId} {page : Page}
    {todo : List (PageId × Page)} (ho : Wal.open wal = .ok o) (hd : o.discarded = none)
    (hl : latestImages (committedTxns o.records) o.records ∅ = .ok latest)
    (hlist : latest.toList = (id, page) :: todo) :
    Run Step (files f wal) [.call, .call, .error]
      ⟨writeAt f (fileOffset id).toNat (junk.take pageSize), [id], [], wal, [], .none⟩ := by
  have hread : Step (files f wal) .call ⟨f, [], [], wal, [], .validate o⟩ := by
    have hstep := Step.readLog (s := files f wal) rfl ho
    rw [hd] at hstep
    exact hstep
  have hvalid : Step ⟨f, [], [], wal, [], .validate o⟩ .call
      ⟨f, [], [], wal, [], .writePages o ((id, page) :: todo)⟩ := by
    have hstep := Step.validate (s := ⟨f, [], [], wal, [], .validate o⟩) rfl hl
    have hne : latest.isEmpty = false := by rw [← Std.TreeMap.isEmpty_toList, hlist]; rfl
    rw [hne, hlist] at hstep
    exact hstep
  exact ((Run.start.step hread).step hvalid).step (.tearPage junk rfl)

theorem same_outcome {wal : Bytes} {es : List OpenEvent} (hlen : wal.length ≤ maxFileSize)
    (hr : Run Step (files data wal) es s) :
    (openExisting s.data (some s.wal)).map (·.disk) = (openExisting data (some wal)).map (·.disk) ∧
      ∀ o disk, s.next = .assemble o disk → (openExisting data (some wal)).map (·.disk) = .ok disk := by
  cases hhead : decodeHeader wal with
  | error e =>
    rw [unread hhead hr]
    refine ⟨rfl, ?_⟩
    rintro o disk ⟨⟩
  | ok q =>
    obtain ⟨l, hl⟩ := exists_text hhead hlen
    have hstart : Sound l data (files data wal) := Holds.sound hl
    have hs : Sound l data s := hr.invariant (I := fun _ s => Sound l data s) hstart
      (fun _ _ _ _ _ hi hstep => hi.step hstep)
    have hfirst := hstart.safe.openExisting
    refine ⟨hs.safe.openExisting.trans hfirst.symm, ?_⟩
    intro o disk hn
    exact hfirst.trans (hs.assemble hn)

end Opening

end OxenDB
