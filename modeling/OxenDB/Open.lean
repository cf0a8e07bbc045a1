import OxenDB.Recovery
import OxenDB.WalFile

namespace OxenDB

open Lib

structure Options where
  bufferPoolPages : ℕ
  createIfMissing : Bool
  autoCheckpointBytes : Option ℕ

def Options.default : Options := ⟨4096, true, some (4 * 1024 * 1024)⟩

structure OpenReport where
  created : Bool
  recovery : RecoveryStats
  discardedWalTail : Option DiscardedTail

structure Opened where
  disk : DiskManager
  wal : Wal
  walFile : WalFile
  report : OpenReport

def Wal.checkReset (w : Wal) : Except Error Unit :=
  match w.checkPoisoned with
  | .error e => .error e
  | .ok () =>
    if w.pending ≠ [] then .error (.invalidArgument "cannot reset a WAL with unflushed records")
    else .ok ()

def Wal.reset (w : Wal) (contents : Bytes) : Except Error (Wal × Bytes) :=
  match w.checkReset with
  | .error e => .error e
  | .ok () =>
    .ok ({ w with durableLen := walHeaderSize },
      writeAt (contents.take walHeaderSize) 0 (encodeHeader w.nextSeq))

def openExisting (data : Bytes) (wal : Option Bytes) : Except Error Opened :=
  match wal with
  | none =>
    match DiskManager.open data with
    | .error e => .error e
    | .ok disk => .ok ⟨disk, Wal.create.1, ⟨Wal.create.2, .none⟩, ⟨false, ⟨0, 0, 0⟩, none⟩⟩
  | some wal =>
    match Wal.open wal with
    | .error e => .error e
    | .ok opened =>
      match replay data opened.records with
      | .error e => .error e
      | .ok (data, stats) =>
        match DiskManager.open data with
        | .error e => .error e
        | .ok disk =>
          match opened.wal.reset opened.contents with
          | .error e => .error e
          | .ok (wal, contents) =>
            .ok ⟨disk, wal, ⟨contents, .none⟩, ⟨false, stats, opened.discarded⟩⟩

def PageMap.slot (m : PageMap) (id : PageId) : Bytes :=
  if id = PageId.HEADER then (FileHeader.mk m.count).encode.data else (m.page id).data

structure OpenedAs (o : Opened) (m : PageMap) : Prop where
  count : o.disk.pageCount = m.count
  count_pos : m.count ≠ 0
  pages : ∀ id, DataPage m.count id → (m.page id).Valid id
  slots : ∀ id < m.count, readAt o.disk.file.contents (slotOffset id) pageSize = some (m.slot id)
  synced : ∀ id, slotOffset id + pageSize ≤ o.disk.file.contents.length → o.disk.file.slots id = .synced
  notLost : ∀ id, o.disk.file.slots id ≠ .lost
  headers : o.disk.file.headers = [m.slot PageId.HEADER]
  bounded : o.disk.file.contents.length ≤ maxFileSize
  log : ∃ seq, o.wal = ⟨walHeaderSize, [], seq, false⟩ ∧ o.walFile = ⟨encodeHeader seq, .none⟩

structure Restores (data : Bytes) (us : List (PageId × Page)) (m : PageMap) : Prop where
  count_pos : m.count ≠ 0
  count_lt : m.count.toNat < 2 ^ 51
  bounded : data.length ≤ maxFileSize
  pages : ∀ id, DataPage m.count id → (m.page id).Valid id
  below : ∀ u ∈ us, u.1 < m.count
  valid : ∀ u ∈ us, ValidImage u.1 u.2
  kept : ∀ id < m.count, id ∉ us.map Prod.fst → readAt data (slotOffset id) pageSize = some (m.slot id)
  latest : ∀ id, id ∈ us.map Prod.fst → overlay m.slot (us.map (fun u => (u.1, u.2.data))) id = m.slot id

/-- A log that recovery reads as the whole committed transactions `cs`: after them stand at most
images of one without its commit record, and bytes that continue neither. -/
def LogHolds (wal : Bytes) (cs : List Commit) : Prop :=
  ∃ (seq : UInt64) (rs : List WalRecord) (bs : Bytes),
    wal = encodeHeader seq ++ (encodeAll (cs.flatMap (·.records) ++ rs) seq ++ bs) ∧
    NoRecord bs (seq + UInt64.ofNat (cs.flatMap (·.records) ++ rs).length) ∧ ImagesOutside (cs.map (·.txn)) rs

def Recoverable (data wal : Bytes) (m : PageMap) : Prop :=
  ∃ cs, LogHolds wal cs ∧ Restores data (cs.flatMap (·.images)) m

theorem keys_map_data (us : List (PageId × Page)) :
    (us.map (fun u => (u.1, u.2.data))).map Prod.fst = us.map Prod.fst := by
  simp [Function.comp_def]

theorem PageMap.slot_header (m : PageMap) :
    m.slot PageId.HEADER = (FileHeader.mk m.count).encode.data := if_pos rfl

theorem PageMap.slot_data (m : PageMap) {id : PageId} (h : id ≠ PageId.HEADER) :
    m.slot id = (m.page id).data := if_neg h

theorem PageMap.slot_length (m : PageMap) (id : PageId) : (m.slot id).length = pageSize := by
  unfold PageMap.slot
  split
  · exact Page.size _
  · exact Page.size _

theorem Restores.slots {data data' : Bytes} {us : List (PageId × Page)} {m : PageMap}
    (h : Restores data us m)
    (hs : slotOf data' = overlay (slotOf data) (us.map (fun u => (u.1, u.2.data))))
    (hl : data.length ≤ data'.length) (hk : ∀ u ∈ us, slotOffset u.1 + pageSize ≤ data'.length) :
    ∀ id < m.count, readAt data' (slotOffset id) pageSize = some (m.slot id) := by
  intro id hid
  rw [readAt_some_iff]
  change _ ∧ slotOf data' id = m.slot id
  rw [hs]
  by_cases hm : id ∈ us.map Prod.fst
  · have hm' := hm
    rw [← keys_map_data] at hm'
    obtain ⟨u, hu, rfl⟩ := List.mem_map.mp hm
    exact ⟨hk u hu, by rw [overlay_eq_of_mem _ m.slot _ _ hm', h.latest _ hm]⟩
  · obtain ⟨hlen, hslot⟩ := (readAt_some_iff _ _ _ _).mp (h.kept id hid hm)
    exact ⟨by omega, by rw [overlay_of_not_mem _ _ _ (by rwa [keys_map_data])]; exact hslot⟩

theorem Page.ofBytes_some {bs : Bytes} {p : Page} (h : bs = p.data) : Page.ofBytes bs = some p := by
  subst h
  rw [Page.ofBytes, dif_pos p.size]

theorem Page.data_of_ofBytes {bs : Bytes} {p : Page} (h : Page.ofBytes bs = some p) : p.data = bs := by
  rw [Page.ofBytes] at h
  split_ifs at h
  rw [← Option.some.inj h]

theorem readAt_self (page : Page) : readAt page.data 0 pageSize = some page.data := by
  have hslice := slice_zero page.data
  rw [page.size] at hslice
  rw [readAt_eq _ _ _ (by rw [page.size, Nat.zero_add]), hslice]

theorem ofBytes_self (page : Page) : (readAt page.data 0 pageSize).bind Page.ofBytes = some page := by
  rw [readAt_self]
  exact Page.ofBytes_some rfl

theorem DiskManager.open_of_header {data : Bytes} {page : Page} {h : FileHeader}
    (hlen : pageSize ≤ data.length) (hpage : (readAt data 0 pageSize).bind Page.ofBytes = some page)
    (hdec : FileHeader.decode page = .ok h) (hexp : (h.pageCount * 4096).toNat ≤ data.length) :
    DiskManager.open data = .ok ⟨⟨data,
      fun id => if slotOffset id + pageSize ≤ data.length then .synced else .written, [page.data]⟩,
      h.pageCount⟩ := by
  simp only [DiskManager.open, if_neg (not_lt.mpr hlen), hpage, hdec, if_neg (not_lt.mpr hexp)]

theorem DiskManager.open_short {data : Bytes} {page : Page} {h : FileHeader}
    (hlen : pageSize ≤ data.length) (hpage : (readAt data 0 pageSize).bind Page.ofBytes = some page)
    (hdec : FileHeader.decode page = .ok h) (hshort : data.length < (h.pageCount * 4096).toNat) :
    DiskManager.open data = .error (.corruption
      s!"file is {data.length} bytes but header lists {h.pageCount} pages ({h.pageCount * 4096} bytes)") := by
  simp only [DiskManager.open, if_neg (not_lt.mpr hlen), hpage, hdec, if_pos hshort]

theorem DiskManager.open_inv {data : Bytes} {disk : DiskManager} (h : DiskManager.open data = .ok disk) :
    ∃ page header, (readAt data 0 pageSize).bind Page.ofBytes = some page ∧
      FileHeader.decode page = .ok header ∧ (header.pageCount * 4096).toNat ≤ data.length ∧
      disk.pageCount = header.pageCount := by
  rw [DiskManager.open] at h
  split_ifs at h
  cases hp : (readAt data 0 pageSize).bind Page.ofBytes with
  | none => rw [hp] at h; cases h
  | some page =>
    rw [hp] at h
    cases hd : FileHeader.decode page with
    | error e => simp only [hd] at h; cases h
    | ok header =>
      simp only [hd] at h
      split_ifs at h with hlen
      injection h with h
      exact ⟨page, header, rfl, hd, not_lt.mp hlen, by rw [← h]⟩

theorem DiskManager.open_ok {data : Bytes} {m : PageMap} (hpos : m.count ≠ 0) (hlt : m.count.toNat < 2 ^ 51)
    (hs : ∀ id < m.count, readAt data (slotOffset id) pageSize = some (m.slot id)) :
    DiskManager.open data = .ok ⟨⟨data,
      fun id => if slotOffset id + pageSize ≤ data.length then .synced else .written,
      [m.slot PageId.HEADER]⟩, m.count⟩ := by
  have hc : 0 < m.count.toNat := by
    rcases Nat.eq_zero_or_pos m.count.toNat with h | h
    · exact absurd (UInt64.toNat_inj.mp h) hpos
    · exact h
  have h0 := hs PageId.HEADER (UInt64.lt_iff_toNat_lt.mpr hc)
  have hz : slotOffset PageId.HEADER = 0 := rfl
  rw [hz] at h0
  have hlast := hs (UInt64.ofNat (m.count.toNat - 1)) (by
    rw [UInt64.lt_iff_toNat_lt, UInt64.toNat_ofNat']
    omega)
  obtain ⟨hlen0, -⟩ := (readAt_some_iff _ _ _ _).mp h0
  obtain ⟨hlen, -⟩ := (readAt_some_iff _ _ _ _).mp hlast
  have hexp : (m.count * 4096).toNat ≤ data.length := by
    rw [slotOffset, UInt64.toNat_ofNat', pageSize] at hlen
    rw [UInt64.toNat_mul, show (4096 : UInt64).toNat = 4096 from rfl]
    omega
  have hofb : (readAt data 0 pageSize).bind Page.ofBytes = some (FileHeader.mk m.count).encode := by
    rw [h0, m.slot_header, Option.bind_some]
    exact Page.ofBytes_some (p := (FileHeader.mk m.count).encode) rfl
  have hdec := FileHeader.decode_encode ⟨m.count⟩ hpos
  rw [DiskManager.open_of_header (by omega) hofb hdec hexp, m.slot_header]

theorem writeAt_header (contents : Bytes) (seq : UInt64) :
    writeAt (contents.take walHeaderSize) 0 (encodeHeader seq) = encodeHeader seq := by
  have hl := encodeHeader_length seq
  apply writeAt_zero
  · intro h
    simp [h, walHeaderSize] at hl
  · rw [hl, List.length_take]
    exact Nat.min_le_left _ _

theorem Recoverable.open {data wal : Bytes} {m : PageMap} (h : Recoverable data wal m) :
    ∃ o, openExisting data (some wal) = .ok o ∧ OpenedAs o m := by
  obtain ⟨cs, ⟨seq, rs, bs, rfl, hno, hu⟩, hr⟩ := h
  obtain ⟨o, ho, hrec, -, hwal⟩ := Wal.open_encoded _ _ _ hno
  have hids : ∀ u ∈ cs.flatMap (·.images), u.1.toNat < 2 ^ 51 - 1 := by
    intro u hm
    have h1 := UInt64.lt_iff_toNat_lt.mp (hr.below u hm)
    have h2 := hr.count_lt
    omega
  obtain ⟨data', stats, hrep, hslots, hlen, hkeys, hb⟩ := replay_log data cs rs seq hu hr.valid hids
  have hs := hr.slots hslots hlen hkeys
  have hopen := DiskManager.open_ok hr.count_pos hr.count_lt hs
  have hreset : o.wal.reset o.contents = .ok ({ o.wal with durableLen := walHeaderSize },
      encodeHeader (seq + UInt64.ofNat (cs.flatMap (·.records) ++ rs).length)) := by
    rw [hwal]
    simp only [Wal.reset, Wal.checkReset, Wal.checkPoisoned, writeAt_header]
    simp
  have hex : openExisting data (some (encodeHeader seq ++
      (encodeAll (cs.flatMap (·.records) ++ rs) seq ++ bs))) = .ok ⟨⟨⟨data',
        fun id => if slotOffset id + pageSize ≤ data'.length then .synced else .written,
        [m.slot PageId.HEADER]⟩, m.count⟩, { o.wal with durableLen := walHeaderSize },
        ⟨encodeHeader (seq + UInt64.ofNat (cs.flatMap (·.records) ++ rs).length), .none⟩,
        ⟨false, stats, o.discarded⟩⟩ := by
    simp only [openExisting, ho, hrec, hrep, hopen, hreset]
  refine ⟨_, hex, rfl, hr.count_pos, hr.pages, hs, ?_, ?_, rfl, hb hr.bounded, ?_⟩
  · intro id hid
    exact if_pos hid
  · intro id
    simp only
    split_ifs <;> decide
  · exact ⟨_, by rw [hwal], rfl⟩

end OxenDB
