import OxenDB.Database.Crash
import OxenDB.Database.Create

namespace OxenDB

open Lib

def ReadBack (contents : Bytes) (u : PageId × Page) : Prop :=
  if u.1 = PageId.HEADER then (readAt contents 0 pageSize).bind Page.ofBytes = some u.2
  else ∀ d : DiskManager, d.file.contents = contents → u.1 < d.pageCount → d.readPage u.1 true = .ok u.2

/-- What becomes of an image that commit `c` logs behind the commits `since`. -/
structure Accepted (since : List Commit) (firstSeq : UInt64) (c : Commit) (u : PageId × Page) : Prop where
  decoded : ∀ seq rest, WalRecord.decode ((WalRecord.pageImage c.txn u.1 u.2).encode seq [] ++ rest) =
    .ok ⟨seq, .pageImage c.txn u.1 u.2, pageImageLen⟩
  validated : ∀ seq, validateImage u.1 u.2 seq = .ok ()
  writtenBack : ∀ (d : DiskManager) wr, (d.writePage u.1 u.2 wr).result = .ok () →
    (d.writePage u.1 u.2 wr).disk.readPage u.1 true = .ok u.2
  replayed : ∀ data data' stats,
    replay data (decodedAll ((since ++ [c]).flatMap (·.records)) firstSeq) = .ok (data', stats) →
      ReadBack data' u

theorem sealPages_error {l : List (PageId × Page)} {e : Error} (h : sealPages l = .error e) :
    ∃ text, e = .invalidArgument text := by
  induction l with
  | nil => cases h
  | cons u l ih =>
    obtain ⟨id, page⟩ := u
    rw [sealPages] at h
    cases hv : page.seal.verify id with
    | error err =>
      rw [hv] at h
      injection h with h
      exact ⟨_, h.symm⟩
    | ok hdr =>
      rw [hv] at h
      cases hs : sealPages l with
      | error e' =>
        rw [hs] at h
        injection h with h
        subst h
        exact ih hs
      | ok rest =>
        rw [hs] at h
        cases h

theorem DiskManager.readPage_of_slot {d : DiskManager} {id : PageId} {page : Page}
    (hd : DataPage d.pageCount id) (hv : page.Valid id)
    (hr : readAt d.file.contents (fileOffset id).toNat pageSize = some page.data) :
    d.readPage id true = .ok page := by
  obtain ⟨hdr, hv⟩ := hv
  simp only [DiskManager.readPage, DiskManager.checkDataPage_ok.mpr hd, hr, Option.bind_some,
    Page.ofBytes_some (p := page) rfl, hv]
  rfl

theorem DiskManager.readPage_written {d : DiskManager} {id : PageId} {page : Page} {wr : WriteResult}
    (hv : page.Valid id) (h : (d.writePage id page wr).result = .ok ()) :
    (d.writePage id page wr).disk.readPage id true = .ok page := by
  unfold DiskManager.writePage at h ⊢
  cases hc : d.checkDataPage id with
  | error e => rw [hc] at h; cases h
  | ok _ =>
    rw [hc] at h
    simp only at h ⊢
    split_ifs at h ⊢ with hid hfit
    cases wr with
    | failed junk => cases h
    | ok =>
      apply DiskManager.readPage_of_slot
      · exact DiskManager.checkDataPage_ok.mp hc
      · exact hv
      · change readAt (writeAt d.file.contents _ page.seal.data) _ _ = _
        rw [hv.seal_eq, readAt_some_iff, writeAt_length _ _ _ page.data_ne_nil, ← page.size]
        exact ⟨le_max_right _ _, slice_writeAt_same _ _ _⟩

theorem writeImages_fits {data data' : Bytes} {us : List (PageId × Page)}
    (h : writeImages data us = .ok data') :
    ∀ u ∈ us, (fileOffset u.1).toNat + pageSize ≤ maxFileSize := by
  induction us generalizing data with
  | nil => simp
  | cons u us ih =>
    rw [writeImages] at h
    split_ifs at h with hfit
    intro v hv
    rcases List.mem_cons.mp hv with rfl | hv
    · exact not_lt.mp hfit
    · exact ih h v hv

theorem replay_fits {data data' : Bytes} {cs : List Commit} {seq : UInt64} {stats : RecoveryStats}
    (hv : ∀ u ∈ cs.flatMap (·.images), ValidImage u.1 u.2)
    (h : replay data (decodedAll (cs.flatMap (·.records)) seq) = .ok (data', stats)) :
    ∀ u ∈ cs.flatMap (·.images), (fileOffset u.1).toNat + pageSize ≤ maxFileSize := by
  have hlatest := @latestImages_log cs [] seq (by rintro r ⟨⟩) hv
  rw [List.append_nil, committedTxns] at hlatest
  simp only [replay] at h
  rw [hlatest] at h
  dsimp only at h
  cases hw : writeImages data ((cs.flatMap (·.images)).foldl (fun t u => t.insert u.1 u.2)
      (∅ : PageTree)).toList with
  | error e =>
    rw [hw] at h
    cases h
  | ok data'' =>
    intro u hu
    obtain ⟨v, hv⟩ := @exists_mem_foldl_insert PageId Page _ compare _ _ (cs.flatMap (·.images)) u hu
    exact writeImages_fits hw (u.1, v) hv

theorem Commit.Extends.slot_image {m : PageMap} {c : Commit} (h : c.Extends m) {u : PageId × Page}
    (hu : u ∈ c.images) : (m.commit c).slot u.1 = u.2.data := by
  rw [Commit.images, List.mem_append] at hu
  rcases hu with hu | hu
  · split_ifs at hu with hg
    · rw [List.mem_singleton.mp hu]
      exact PageMap.slot_header _
    · cases hu
  · rw [PageMap.slot_data _ (h.data u hu).1]
    exact congrArg Page.data (overlay_of_nodup m.page c.pages h.nodup u.1 u.2 hu)

theorem replay_reads_back {m : PageMap} {cs : List Commit} {c : Commit} {seq : UInt64}
    {data data' : Bytes} {stats : RecoveryStats} (hm : m.WellFormed) (hc : Chain m (cs ++ [c]))
    (hcount : (m.commits (cs ++ [c])).count.toNat < 2 ^ 52) {u : PageId × Page} (hu : u ∈ c.images)
    (h : replay data (decodedAll ((cs ++ [c]).flatMap (·.records)) seq) = .ok (data', stats)) :
    ReadBack data' u := by
  have himages := hc.images_valid hm
  have hfits := replay_fits (fun u hu => (himages u hu).2) h
  have hids : ∀ u ∈ (cs ++ [c]).flatMap (·.images), u.1.toNat < 2 ^ 51 - 1 := by
    intro v hv
    have hlt := UInt64.lt_iff_toNat_lt.mp (himages v hv).1
    have hfit := hfits v hv
    rw [fileOffset_toNat (by omega), slotOffset, pageSize, maxFileSize] at hfit
    omega
  have hmem : u ∈ (cs ++ [c]).flatMap (·.images) :=
    List.mem_flatMap_of_mem (List.mem_append_right _ List.mem_cons_self) hu
  obtain ⟨data'', stats', hreplay, hslots, -, hlen, -⟩ :=
    replay_log data (cs ++ [c]) [] seq (by rintro r ⟨⟩) (fun u hu => (himages u hu).2) hids
  rw [List.append_nil] at hreplay
  cases hreplay.symm.trans h
  have hslot : slotOf data' u.1 = u.2.data := by
    have hext := hc.last.2.slot_image hu
    have hkey : u.1 ∈ (((cs ++ [c]).flatMap (·.images)).map (fun u => (u.1, u.2.data))).map Prod.fst := by
      rw [keys_map_data]
      exact List.mem_map_of_mem hmem
    have hchain := congrFun hc.slot u.1
    rw [PageMap.commits_append] at hchain
    rw [hslots, overlay_eq_of_mem _ m.slot _ _ hkey, ← hchain]
    exact hext
  have hread : readAt data' (slotOffset u.1) pageSize = some u.2.data :=
    (readAt_some_iff _ _ _ _).mpr ⟨hlen u hmem, hslot⟩
  have hvalid := (himages u hmem).2
  unfold ReadBack
  split_ifs with hid
  · rw [hid] at hread
    rw [show (0 : ℕ) = slotOffset PageId.HEADER from rfl, hread, Option.bind_some]
    exact Page.ofBytes_some (p := u.2) rfl
  · rintro d rfl hlt
    rw [ValidImage, if_neg hid] at hvalid
    apply DiskManager.readPage_of_slot ⟨hid, hlt⟩ hvalid
    have hid' := hids u hmem
    rwa [fileOffset_toNat (by omega)]

theorem accepted_of_chain {m : PageMap} {since : List Commit} {c : Commit} (seq : UInt64)
    (hm : m.WellFormed) (hc : Chain m (since ++ [c]))
    (hcount : (m.commits (since ++ [c])).count.toNat < 2 ^ 52) {u : PageId × Page} (hu : u ∈ c.images) :
    Accepted since seq c u where
  decoded s rest := (WalRecord.pageImage c.txn u.1 u.2).decode_encode s rest
  validated s := by
    apply validateImage_ok
    apply (hc.images_valid hm u _).2
    exact List.mem_flatMap_of_mem (List.mem_append_right _ List.mem_cons_self) hu
  writtenBack d wr h := by
    have hvalid := (hc.images_valid hm u
      (List.mem_flatMap_of_mem (List.mem_append_right _ List.mem_cons_self) hu)).2
    by_cases hid : u.1 = PageId.HEADER
    · simp [hid, DiskManager.writePage, DiskManager.checkDataPage] at h
    · rw [ValidImage, if_neg hid] at hvalid
      exact DiskManager.readPage_written hvalid h
  replayed data data' stats h := replay_reads_back hm hc hcount hu h

namespace Database

variable {m₀ : PageMap} {db₀ db db' : Database} {es : List Event} {w : WriteTxn}

theorem commit_chain {h : History} {pages : List (PageId × Page)} (hi : Inv m₀ h db)
    (hh : db.holder = .writer w) (hp : sealPages w.dirty.toList = .ok pages)
    (hfit : db.wal.durableLen +
      (encodeAll (w.toCommit db.nextTxn db.pool.disk.pageCount pages).records db.wal.nextSeq).length ≤
        maxFileSize) :
    Chain h.log.base (h.log.since ++ [w.toCommit db.nextTxn db.pool.disk.pageCount pages]) ∧
      (h.log.base.commits (h.log.since ++ [w.toCommit db.nextTxn db.pool.disk.pageCount pages])).count.toNat <
        2 ^ 52 := by
  have hpoison : db.poisoned = false := hi.locks.healthy (by rw [hh]; trivial)
  obtain ⟨-, hidle, -⟩ := hi.logged.idle_writer hi.locks hh
  obtain ⟨n, hover⟩ := hi.logged.writer w hh
  have hprop := hover.proposes hp db.nextTxn
  rw [← hi.logged.writer_count hi.locks hi.stored.counts hh] at hprop
  rw [hidle.nextSeq, hi.logged.durableLen, ← List.length_append, ← h.log.push_body] at hfit
  have hpend : (h.log.propose (w.toCommit db.nextTxn db.pool.disk.pageCount pages)).Pending
      (w.toCommit db.nextTxn db.pool.disk.pageCount pages) := ⟨rfl, ⟨n, hprop⟩, hidle.nextTxn⟩
  have hext := hpend.extends hi.logged.wellFormed hi.logged.small hfit
  have hchain := hi.logged.chain.snoc hext
  exact ⟨hchain, hi.logged.push_small hpoison hchain hfit⟩

/-- Every image of a commit that passes validation is accepted by everything that reads it later;
a commit that does not pass leaves the log alone. -/
theorem commit_images_accepted (hs : db₀.Starts m₀) (hr : Run Database.Step db₀ es db)
    (hh : db.holder = .writer w) :
    (∀ pages, sealPages w.dirty.toList = .ok pages →
      ∀ c, c = w.toCommit db.nextTxn db.pool.disk.pageCount pages →
        db.wal.durableLen + (encodeAll c.records db.wal.nextSeq).length ≤ maxFileSize →
          ∀ u ∈ c.images,
            Accepted (History.of m₀ db₀.wal.nextSeq es).log.since
              (History.of m₀ db₀.wal.nextSeq es).log.firstSeq c u) ∧
    ∀ e, sealPages w.dirty.toList = .error e → (∃ text, e = .invalidArgument text) ∧
      (∀ c db', ¬ Database.Step db (.logged c) db') ∧
      ∀ e' db', Database.Step db (.rejected e') db' →
        e' = e ∧ db'.wal = db.wal ∧ db'.walFile = db.walFile := by
  have hi := Inv.run hs hr
  refine ⟨?_, ?_⟩
  · rintro pages hp c rfl hfit u hu
    obtain ⟨hchain, hcount⟩ := commit_chain hi hh hp hfit
    exact accepted_of_chain _ hi.logged.base hchain hcount hu
  · intro e he
    refine ⟨sealPages_error he, ?_, ?_⟩
    · intro c db' hstep
      cases hstep with
      | commitLog hh' _ _ hp =>
        cases hh.symm.trans hh'
        cases he.symm.trans hp
    · intro e' db' hstep
      cases hstep with
      | commitMalformed hh' _ hp =>
        cases hh.symm.trans hh'
        cases he.symm.trans hp
        exact ⟨rfl, rfl, rfl⟩

theorem sealPages_valid {l : List (PageId × Page)} (h : ∀ u ∈ l, u.2.seal.Valid u.1) :
    sealPages l = .ok (l.map (fun u => (u.1, u.2.seal))) := by
  induction l with
  | nil => rfl
  | cons u l ih =>
    obtain ⟨hdr, hv⟩ := h u List.mem_cons_self
    rw [sealPages, hv, ih (fun v hv => h v (List.mem_cons_of_mem _ hv))]
    rfl

theorem allocated_seals (n : UInt64) : sealPages (WriteTxn.allocatePage ⟨∅, n⟩ .heap).2.dirty.toList =
    .ok [(n, (Page.new n .heap).seal)] := by
  have hlist : (WriteTxn.allocatePage ⟨∅, n⟩ .heap).2.dirty.toList = [(n, Page.new n .heap)] := rfl
  rw [hlist, sealPages_valid]
  · rfl
  · intro u hu
    rw [List.mem_singleton.mp hu]
    exact Page.new_valid n .heap

theorem begin_run (hp : db.poisoned = false) (hh : db.holder = .free) : Run Database.Step db [.tau, .writeBegan]
    { db with holder := .writer ⟨∅, db.pool.disk.pageCount⟩ } := by
  have hok : db.checkPoisoned = .ok () := checkPoisoned_ok.mpr hp
  have hbegan : Database.Step { db with waitingWrites := db.waitingWrites + 1 } .writeBegan
      { db with holder := .writer ⟨∅, db.pool.disk.pageCount⟩ } := .writeLock (Nat.succ_pos _) hh hok
  exact (Run.start.step (.beginWrite hok)).step hbegan

theorem write_run (hp : db.poisoned = false) (hh : db.holder = .free) (ha : db.pool.activities = [])
    (ty : PageType) : Run Database.Step db [.tau, .writeBegan, .allocated ty]
      { db with holder := .writer (WriteTxn.allocatePage ⟨∅, db.pool.disk.pageCount⟩ ty).2 } := by
  refine (begin_run hp hh).step (.allocatePage ty rfl ?_)
  rintro ⟨x, hx, -⟩
  rw [show BufferPool.activities _ = [] from ha] at hx
  cases hx

def firstWrite : WriteTxn := (WriteTxn.allocatePage ⟨∅, 1⟩ .heap).2

def firstPage : Page := (Page.new 1 .heap).seal

def firstCommit : Commit := ⟨1, 2, true, [(1, firstPage)]⟩

theorem firstWrite_run : Run Database.Step smallest [.tau, .writeBegan, .allocated .heap]
    { smallest with holder := .writer firstWrite } := write_run rfl rfl rfl .heap

theorem firstWrite_idle : ¬ Writing { smallest with holder := .writer firstWrite } := smallest_idle rfl

theorem firstWrite_seals : sealPages firstWrite.dirty.toList = .ok [(1, firstPage)] := allocated_seals 1

theorem firstCommit_fits : walHeaderSize + (encodeAll firstCommit.records 0).length ≤ maxFileSize := by
  rw [encodeAll_length, Commit.records_len]
  change walHeaderSize + (2 * pageImageLen + commitLen) ≤ maxFileSize
  decide

theorem commit_images_accepted_first : ∃ c : Commit, c.grew = true ∧ c.images.length = 2 ∧
    ∀ u ∈ c.images, Accepted [] 0 c u := by
  refine ⟨firstCommit, rfl, rfl, ?_⟩
  have h := (commit_images_accepted smallest_starts firstWrite_run rfl).1 _ firstWrite_seals firstCommit rfl
  have hwal : smallest.wal = ⟨walHeaderSize, [], 0, false⟩ := rfl
  simp only [hwal] at h
  exact h firstCommit_fits

theorem header_image_not_read : ∃ db₀ es db db' c header,
    db₀.Starts ⟨1, fun _ => Page.zeroed⟩ ∧ Run Database.Step db₀ es db ∧
    Database.Step db (.logged c) db' ∧ (PageId.HEADER, header) ∈ c.images ∧
    ∀ (d : DiskManager) rd, d.readPage PageId.HEADER rd =
      .error (.invalidArgument "page 0 is the file header and cannot be accessed as a data page") := by
  have happend := Wal.appendAll_ok Wal.create.1 firstCommit.records rfl
  exact ⟨smallest, _, _, _, firstCommit, (FileHeader.mk 2).encode, smallest_starts, firstWrite_run,
    .commitLog rfl firstWrite_idle rfl firstWrite_seals happend, List.mem_cons_self, fun d rd => rfl⟩

end Database

end OxenDB
