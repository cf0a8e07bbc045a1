import OxenDB.Open
import OxenDB.Replay
import OxenDB.BufferPool.Cache

namespace OxenDB

open Lib

def extent (id : PageId) : Set ℕ := Set.Ico (fileOffset id).toNat ((fileOffset id).toNat + pageSize)

theorem extent_eq {id : PageId} (h : id.toNat < 2 ^ 52) :
    extent id = Set.Ico (slotOffset id) (slotOffset id + pageSize) := by
  rw [extent, fileOffset_toNat h]

theorem extent_disjoint {id id' : PageId} (h : id.toNat < 2 ^ 52) (h' : id'.toNat < 2 ^ 52) (hne : id ≠ id') :
    Disjoint (extent id) (extent id') := by
  rw [extent_eq h, extent_eq h', Set.disjoint_left]
  intro k hk hk'
  have := slotOffset_disjoint hne
  simp only [Set.mem_Ico] at hk hk'
  omega

namespace DiskManager

theorem open_header {contents : Bytes} {d : DiskManager} (h : DiskManager.open contents = .ok d) :
    d.pageCount = u64At contents 20 ∧ (d.pageCount * 4096).toNat ≤ contents.length := by
  obtain ⟨page, header, hp, hd, hlen, hcount⟩ := open_inv h
  obtain ⟨bs, hr, hb⟩ := Option.bind_eq_some_iff.mp hp
  obtain ⟨hle, rfl⟩ := (readAt_some_iff _ _ _ _).mp hr
  have hdata : page.data = contents.take pageSize := by
    rw [Page.data_of_ofBytes hb, slice_eq_take_drop _ _ _ hle, List.drop_zero]
  have hfield : u64At page.data 20 = u64At contents 20 := by
    have hs := slice_append_left (contents.take pageSize) (contents.drop pageSize) 20 8 (by
      rw [← hdata, page.size]
      decide)
    rw [List.take_append_drop] at hs
    rw [u64At, u64At, hdata, hs]
  rw [hcount, FileHeader.decode_pageCount hd, hfield]
  rw [FileHeader.decode_pageCount hd, hfield] at hlen
  exact ⟨rfl, hlen⟩

theorem open_contains_iff {contents : Bytes} {d : DiskManager} (hfile : contents.length ≤ maxFileSize)
    (h : DiskManager.open contents = .ok d) :
    d.pageCount.toNat * pageSize ≤ contents.length ↔ (u64At contents 20).toNat < 2 ^ 52 := by
  obtain ⟨hcount, hlen⟩ := open_header h
  rw [← hcount, pageSize]
  rw [UInt64.toNat_mul, show (4096 : UInt64).toNat = 4096 from rfl] at hlen
  rw [maxFileSize] at hfile
  omega

/-- An accepted file has room for the pages it claims exactly if the product with the page size does not wrap. -/
theorem open_contains {contents : Bytes} {d : DiskManager} (hfile : contents.length ≤ maxFileSize)
    (h : DiskManager.open contents = .ok d) :
    (d.pageCount.toNat * pageSize ≤ contents.length ↔ (u64At contents 20).toNat < 2 ^ 52) ∧
      ((u64At contents 20).toNat < 2 ^ 52 →
        (∀ id, d.checkDataPage id = .ok () →
          (fileOffset id).toNat = id.toNat * pageSize ∧ extent id ⊆ Set.Iio contents.length ∧
            Disjoint (extent id) (extent PageId.HEADER)) ∧
        ∀ id id', d.checkDataPage id = .ok () → d.checkDataPage id' = .ok () → id ≠ id' →
          Disjoint (extent id) (extent id')) := by
  have hiff := open_contains_iff hfile h
  refine ⟨hiff, ?_⟩
  intro hn
  have hprod := hiff.mpr hn
  rw [← (open_header h).1] at hn
  have hid : ∀ id, d.checkDataPage id = .ok () → id.toNat < 2 ^ 52 := by
    intro id hc
    have hlt := UInt64.lt_iff_toNat_lt.mp (checkDataPage_ok.mp hc).2
    omega
  refine ⟨?_, ?_⟩
  · intro id hc
    obtain ⟨hne, hlt⟩ := checkDataPage_ok.mp hc
    rw [UInt64.lt_iff_toNat_lt] at hlt
    refine ⟨fileOffset_toNat (hid id hc), ?_, extent_disjoint (hid id hc) (by decide) hne⟩
    intro k hk
    rw [extent_eq (hid id hc), Set.mem_Ico, slotOffset, pageSize] at hk
    rw [pageSize] at hprod
    rw [Set.mem_Iio]
    omega
  · intro id id' hc hc' hne
    exact extent_disjoint (hid id hc) (hid id' hc') hne

theorem open_encoded (header : FileHeader) (rest : Bytes) (hpos : header.pageCount ≠ 0)
    (hlen : (header.pageCount * 4096).toNat ≤ pageSize + rest.length) :
    ∃ d, DiskManager.open (header.encode.data ++ rest) = .ok d ∧ d.pageCount = header.pageCount := by
  have hsize := header.encode.size
  have hread : readAt (header.encode.data ++ rest) 0 pageSize = some header.encode.data := by
    rw [readAt_some_iff, ← hsize, List.length_append, slice_append_left _ _ _ _ (by omega), slice_zero]
    exact ⟨by omega, rfl⟩
  have hpage : (readAt (header.encode.data ++ rest) 0 pageSize).bind Page.ofBytes = some header.encode := by
    rw [hread, ← readAt_self header.encode]
    exact ofBytes_self header.encode
  refine ⟨_, open_of_header ?_ hpage (FileHeader.decode_encode header hpos) ?_, rfl⟩
  · rw [List.length_append, hsize]
    exact Nat.le_add_right _ _
  · rwa [List.length_append, hsize]

theorem open_contains_two :
    ∃ d, DiskManager.open ((FileHeader.mk 2).encode.data ++ Page.zeroed.data) = .ok d ∧
      d.checkDataPage 1 = .ok () ∧ extent 1 ⊆ Set.Iio (2 * pageSize) := by
  have hlen : ((FileHeader.mk 2).encode.data ++ Page.zeroed.data).length = 2 * pageSize := by
    rw [List.length_append, Page.size, Page.size, two_mul]
  have hn : (u64At ((FileHeader.mk 2).encode.data ++ Page.zeroed.data) 20).toNat < 2 ^ 52 := by
    rw [u64At, slice_append_left _ _ _ _ (by rw [Page.size]; decide)]
    exact (congrArg UInt64.toNat (FileHeader.encode_pageCount ⟨2⟩)).trans_lt (by decide)
  obtain ⟨d, hd, hcount⟩ := open_encoded ⟨2⟩ Page.zeroed.data (by decide) (by rw [Page.size]; decide)
  have hone : d.checkDataPage 1 = .ok () := by
    rw [checkDataPage_ok, hcount]
    exact ⟨by decide, by decide⟩
  have hin := ((open_contains (by rw [hlen]; decide) hd).2 hn).1 1 hone
  rw [hlen] at hin
  exact ⟨d, hd, hone, hin.2.1⟩

theorem open_accepts_wrapped :
    ∃ d, DiskManager.open (FileHeader.mk 4503599627370497).encode.data = .ok d ∧
      d.pageCount.toNat * pageSize > (FileHeader.mk 4503599627370497).encode.data.length ∧
      d.checkDataPage 4503599627370496 = .ok () ∧
      extent 4503599627370496 = extent PageId.HEADER := by
  obtain ⟨d, hd, hcount⟩ := open_encoded ⟨4503599627370497⟩ [] (by decide) (by decide)
  rw [List.append_nil] at hd
  refine ⟨d, hd, ?_, ?_, rfl⟩
  · rw [Page.size, hcount]
    decide
  · rw [checkDataPage_ok, hcount]
    exact ⟨by decide, by decide⟩

end DiskManager

theorem decodedAll_seq {rs : List WalRecord} {seq : UInt64} {i : ℕ} {d : DecodedRecord}
    (h : (decodedAll rs seq)[i]? = some d) : d.seq = seq + UInt64.ofNat i ∧ i < rs.length := by
  induction rs generalizing seq i with
  | nil => simp [decodedAll] at h
  | cons r rs ih =>
    cases i with
    | zero =>
      rw [decodedAll, List.getElem?_cons_zero] at h
      rw [← Option.some.inj h]
      simp
    | succ i =>
      rw [decodedAll, List.getElem?_cons_succ] at h
      obtain ⟨hseq, hi⟩ := ih h
      rw [hseq, ofNat_succ_add, List.length_cons]
      exact ⟨rfl, by omega⟩

theorem toNat_add_ofNat {seq : UInt64} {i n : ℕ} (h : seq.toNat + n < 2 ^ 64) (hi : i ≤ n) :
    (seq + UInt64.ofNat i).toNat = seq.toNat + i := by
  rw [UInt64.toNat_add, UInt64.toNat_ofNat']
  omega

theorem toNat_add_one_iff {n : UInt64} : (n + 1).toNat = n.toNat + 1 ↔ n.toNat + 1 < 2 ^ 64 := by
  rw [UInt64.toNat_add, show (1 : UInt64).toNat = 1 from rfl]
  omega

theorem decodedAll_exact_iff {rs : List WalRecord} {seq : UInt64} :
    (∀ d ∈ decodedAll rs seq, (d.seq + 1).toNat = d.seq.toNat + 1) ↔ seq.toNat + rs.length < 2 ^ 64 := by
  induction rs generalizing seq with
  | nil => simpa [decodedAll] using seq.toNat_lt
  | cons r rs ih =>
    rw [decodedAll, List.forall_mem_cons, ih, List.length_cons]
    constructor
    · rintro ⟨hone, hrest⟩
      rw [show (seq + 1).toNat = seq.toNat + 1 from hone] at hrest
      omega
    · intro h
      have hone : (seq + 1).toNat = seq.toNat + 1 := toNat_add_one_iff.mpr (by omega)
      exact ⟨hone, by rw [hone]; omega⟩

theorem fileOffset_exact_iff {id : PageId} :
    (fileOffset id).toNat = id.toNat * pageSize ↔ id.toNat < 2 ^ 52 := by
  rw [fileOffset, UInt64.toNat_mul, show (4096 : UInt64).toNat = 4096 from rfl, pageSize]
  omega

namespace Wal

structure Holds (contents : Bytes) (seq : UInt64) (rs : List WalRecord) (left : Bytes) : Prop where
  bytes : contents = encodeHeader seq ++ (encodeAll rs seq ++ left)
  stops : NoRecord left (seq + UInt64.ofNat rs.length)

theorem exists_holds {contents : Bytes} {o : OpenedWal} (h : Wal.open contents = .ok o) :
    ∃ seq rs left, Holds contents seq rs left := by
  cases hd : decodeHeader contents with
  | error e => simp [Wal.open, hd] at h
  | ok seq =>
    obtain ⟨rs, left, hbs, hno⟩ := scan_split (contents.drop walHeaderSize) seq
    refine ⟨seq, rs, left, ?_, hno⟩
    rw [encodeHeader_of_decodeHeader hd, ← hbs, List.take_append_drop]

theorem Holds.open {contents left : Bytes} {seq : UInt64} {rs : List WalRecord} {o : OpenedWal}
    (hc : Holds contents seq rs left) (h : Wal.open contents = .ok o) :
    o.records = decodedAll rs seq ∧ o.wal.nextSeq = seq + UInt64.ofNat rs.length := by
  obtain ⟨o', ho, hrec, -, hwal⟩ := Wal.open_encoded rs seq left hc.stops
  rw [← hc.bytes, h] at ho
  rw [Except.ok.inj ho, hrec, hwal]
  exact ⟨rfl, rfl⟩

end Wal

theorem writeImages_exact {data data' : Bytes} {us : List (PageId × Page)} (hids : ∀ u ∈ us, u.1.toNat < 2 ^ 52)
    (h : writeImages data us = .ok data') : data' = applyImages data us := by
  induction us generalizing data with
  | nil => exact (Except.ok.inj h).symm
  | cons u us ih =>
    rw [writeImages] at h
    split_ifs at h
    rw [fileOffset_toNat (hids u List.mem_cons_self)] at h
    exact ih (fun v hv => hids v (List.mem_cons_of_mem _ hv)) h

def replayedImages (ds : List DecodedRecord) : List (PageId × Page) :=
  committedImages (committedTxns ds) (ds.map (·.record))

theorem replay_exact {data data' : Bytes} {ds : List DecodedRecord} {stats : RecoveryStats}
    (hids : ∀ u ∈ replayedImages ds, u.1.toNat < 2 ^ 52) (h : replay data ds = .ok (data', stats)) :
    data' = applyImages data (replayedImages ds) := by
  by_cases hv : ∀ u ∈ replayedImages ds, ValidImage u.1 u.2
  · have hlatest := latestImages_ok (committedTxns ds) ds ∅ hv
    simp only [replay] at h
    rw [show (ds.filterMap (fun d => committedTxn d.record)).dedup = committedTxns ds from rfl, hlatest] at h
    dsimp only at h
    cases hw : writeImages data
        ((replayedImages ds).foldl (fun t u => t.insert u.1 u.2) (∅ : PageTree)).toList with
    | error e =>
      rw [replayedImages] at hw
      rw [hw] at h
      cases h
    | ok data'' =>
      have hdata := writeImages_exact (fun u hu => hids u (mem_of_mem_foldl_insert _ u hu)) hw
      rw [applyImages_latest] at hdata
      rw [replayedImages] at hw
      rw [hw] at h
      rw [← hdata]
      exact (congrArg Prod.fst (Except.ok.inj h)).symm
  · push Not at hv
    obtain ⟨msg, hm⟩ := latestImages_error (committedTxns ds) ds ∅ hv
    simp only [replay] at h
    rw [show (ds.filterMap (fun d => committedTxn d.record)).dedup = committedTxns ds from rfl, hm] at h
    cases h

theorem mem_replayedImages {rs : List WalRecord} {seq : UInt64} {id : PageId} {page : Page} :
    (id, page) ∈ replayedImages (decodedAll rs seq) ↔ ∃ txn, .pageImage txn id page ∈ rs ∧ .commit txn ∈ rs := by
  have hcommitted : ∀ txn, txn ∈ committedTxns (decodedAll rs seq) ↔ .commit txn ∈ rs := by
    intro txn
    have hmap : (decodedAll rs seq).filterMap (fun d => committedTxn d.record) = rs.filterMap committedTxn := by
      nth_rewrite 2 [← decodedAll_record rs seq]
      rw [List.filterMap_map]
      rfl
    rw [committedTxns, List.mem_dedup, hmap, List.mem_filterMap]
    constructor
    · rintro ⟨r, hr, ht⟩
      cases r with
      | pageImage => cases ht
      | commit txn' => cases ht; exact hr
    · intro hr
      exact ⟨_, hr, rfl⟩
  rw [replayedImages, committedImages, decodedAll_record, List.mem_filterMap]
  constructor
  · rintro ⟨r, hr, hu⟩
    cases r with
    | pageImage txn id' page' =>
      dsimp only at hu
      split_ifs at hu with htxn
      cases hu
      exact ⟨txn, hr, (hcommitted txn).mp htxn⟩
    | commit txn => cases hu
  · rintro ⟨txn, hr, hc⟩
    exact ⟨_, hr, by dsimp only; rw [if_pos ((hcommitted txn).mpr hc)]⟩

def CommittedBelow (rs : List WalRecord) (n : ℕ) : Prop :=
  ∀ txn id page, .pageImage txn id page ∈ rs → .commit txn ∈ rs → id.toNat < n

theorem committedBelow_iff {rs : List WalRecord} {seq : UInt64} {n : ℕ} :
    CommittedBelow rs n ↔ ∀ u ∈ replayedImages (decodedAll rs seq), u.1.toNat < n := by
  constructor
  · rintro h ⟨id, page⟩ hu
    obtain ⟨txn, hr, hc⟩ := mem_replayedImages.mp hu
    exact h txn id page hr hc
  · intro h txn id page hr hc
    exact h (id, page) (mem_replayedImages.mpr ⟨txn, hr, hc⟩)

theorem replayedImages_block (b : TxnBlock) (seq : UInt64) :
    replayedImages (decodedAll b.records seq) = b.images := by
  have hds : (decodedAll b.records seq).map (·.record) = [b].flatMap (·.records) ++ [] := by
    rw [decodedAll_record, List.flatMap_singleton, List.append_nil]
  have himg := committedImages_blocks hds (by intro r hr; cases hr)
  rwa [List.flatMap_singleton] at himg

theorem replay_single {id : PageId} {page : Page} (txn : TxnId) (seq : UInt64) (data : Bytes)
    (hv : ValidImage id page) (hfit : (fileOffset id).toNat + pageSize ≤ maxFileSize) :
    ∃ stats, replay data (decodedAll (TxnBlock.mk txn [(id, page)]).records seq) =
      .ok (writeAt data (fileOffset id).toNat page.data, stats) := by
  let ds := decodedAll (TxnBlock.mk txn [(id, page)]).records seq
  have himg : committedImages (committedTxns ds) (ds.map (·.record)) = [(id, page)] :=
    replayedImages_block (TxnBlock.mk txn [(id, page)]) seq
  have hlatest := latestImages_ok (committedTxns ds) ds ∅ (by
    rw [himg]
    intro u hu
    rw [List.mem_singleton.mp hu]
    exact hv)
  have htree : ((∅ : PageTree).insert id page).toList = [(id, page)] := rfl
  rw [himg, List.foldl_cons, List.foldl_nil] at hlatest
  simp only [replay]
  rw [show ((decodedAll (TxnBlock.mk txn [(id, page)]).records seq).filterMap
    (fun d => committedTxn d.record)).dedup = committedTxns ds from rfl, hlatest]
  simp only [htree, writeImages, if_neg (not_lt.mpr hfit)]
  exact ⟨_, rfl⟩

/-- Recovery's numbers are exact exactly if the log's first sequence number leaves room for its records and no
committed image is of a page at or above 2^52. -/
theorem recovery_arithmetic_exact {contents data data' : Bytes} {o : OpenedWal} {stats : RecoveryStats}
    (ho : Wal.open contents = .ok o) (hr : replay data o.records = .ok (data', stats)) :
    (∃ seq rs left, Wal.Holds contents seq rs left) ∧
      ∀ seq rs left, Wal.Holds contents seq rs left →
        ((∀ d ∈ o.records, (d.seq + 1).toNat = d.seq.toNat + 1) ↔ seq.toNat + rs.length < 2 ^ 64) ∧
        ((∀ u ∈ replayedImages o.records, (fileOffset u.1).toNat = u.1.toNat * pageSize) ↔
          CommittedBelow rs (2 ^ 52)) ∧
        (seq.toNat + rs.length < 2 ^ 64 →
          (∀ i d, o.records[i]? = some d → d.seq.toNat = seq.toNat + i) ∧
          o.wal.nextSeq.toNat = seq.toNat + rs.length) ∧
        (CommittedBelow rs (2 ^ 52) →
          (∀ u ∈ replayedImages o.records, (u.1 ≠ PageId.HEADER → Disjoint (extent u.1) (extent PageId.HEADER)) ∧
            ∀ v ∈ replayedImages o.records, u.1 ≠ v.1 → Disjoint (extent u.1) (extent v.1)) ∧
          data' = applyImages data (replayedImages o.records)) := by
  refine ⟨Wal.exists_holds ho, ?_⟩
  intro seq rs left hc
  obtain ⟨hrec, hnext⟩ := hc.open ho
  rw [hrec] at hr ⊢
  rw [hnext]
  refine ⟨decodedAll_exact_iff, ?_, ?_, ?_⟩
  · simp only [fileOffset_exact_iff]
    exact committedBelow_iff.symm
  · intro hseq
    refine ⟨?_, toNat_add_ofNat hseq le_rfl⟩
    intro i d hi
    obtain ⟨hd, hlt⟩ := decodedAll_seq hi
    rw [hd, toNat_add_ofNat hseq hlt.le]
  · intro hids
    have hids := (@committedBelow_iff rs seq _).mp hids
    refine ⟨?_, replay_exact hids hr⟩
    intro u hu
    exact ⟨extent_disjoint (hids u hu) (by decide), fun v hv => extent_disjoint (hids u hu) (hids v hv)⟩

theorem recovery_arithmetic_exact_one : ∃ o data' stats,
    Wal.open (encodeHeader 7 ++ (encodeAll (TxnBlock.mk 1 [(1, (Page.new 1 .heap).seal)]).records 7 ++ [])) = .ok o ∧
      replay [] o.records = .ok (data', stats) ∧ o.wal.nextSeq.toNat = 9 ∧
      data' = applyImages [] [(1, (Page.new 1 .heap).seal)] := by
  have hvalid := Page.new_valid 1 .heap
  revert hvalid
  generalize (Page.new 1 .heap).seal = page
  intro hvalid
  let b : TxnBlock := ⟨1, [(1, page)]⟩
  obtain ⟨o, ho, hrec, -, -⟩ := Wal.open_encoded b.records 7 [] (noRecord_nil _)
  obtain ⟨stats, hr⟩ := replay_single 1 7 [] (show ValidImage 1 page from hvalid) (by decide)
  rw [← hrec] at hr
  have hids : CommittedBelow b.records (2 ^ 52) := by
    intro txn id page' hmem _
    change _ ∈ [WalRecord.pageImage 1 1 page, .commit 1] at hmem
    simp only [List.mem_cons, WalRecord.pageImage.injEq, reduceCtorEq, List.not_mem_nil, or_false] at hmem
    rw [hmem.2.1]
    decide
  obtain ⟨-, -, hseq, hdata⟩ := (recovery_arithmetic_exact ho hr).2 7 b.records [] ⟨rfl, noRecord_nil _⟩
  refine ⟨o, _, stats, ho, hr, (hseq (show 7 + 2 < 2 ^ 64 by decide)).2, ?_⟩
  rw [(hdata hids).2, hrec, replayedImages_block]

theorem wrapped_image_overwrites_header :
    (∃ o data' stats, Wal.open (encodeHeader 0 ++
        (encodeAll (TxnBlock.mk 1 [(4503599627370496, (Page.new 4503599627370496 .heap).seal)]).records 0 ++ [])) =
        .ok o ∧
      replay FileHeader.new.encode.data o.records = .ok (data', stats) ∧
      data' = (Page.new 4503599627370496 .heap).seal.data) ∧
    ∃ o data' stats, Wal.open (encodeHeader 18446744073709551615 ++
        (encodeAll [.commit 1] 18446744073709551615 ++ [])) = .ok o ∧
      replay FileHeader.new.encode.data o.records = .ok (data', stats) ∧ o.wal.nextSeq = 0 := by
  refine ⟨?_, ?_⟩
  · have hvalid := Page.new_valid 4503599627370496 .heap
    revert hvalid
    generalize (Page.new 4503599627370496 .heap).seal = page
    generalize FileHeader.new.encode = header
    intro hvalid
    let b : TxnBlock := ⟨1, [(4503599627370496, page)]⟩
    obtain ⟨o, ho, hrec, -, -⟩ := Wal.open_encoded b.records 0 [] (noRecord_nil _)
    obtain ⟨stats, hr⟩ := replay_single 1 0 header.data (show ValidImage 4503599627370496 page from hvalid)
      (by decide)
    rw [← hrec] at hr
    have hdata : writeAt header.data (fileOffset 4503599627370496).toNat page.data = page.data :=
      writeAt_zero _ _ page.data_ne_nil (by rw [header.size, page.size])
    exact ⟨o, _, stats, ho, hr, hdata⟩
  · obtain ⟨o, ho, hrec, -, hwal⟩ := Wal.open_encoded [.commit 1] 18446744073709551615 [] (noRecord_nil _)
    refine ⟨o, _, _, ho, by rw [hrec]; rfl, by rw [hwal]; rfl⟩

end OxenDB
