import OxenDB.Recovery

namespace OxenDB

open Lib

def writeImagesFile (data : Bytes) : List (PageId × Page) → Bytes × Except Error Unit
  | [] => (data, .ok ())
  | (id, page) :: rest =>
    if (fileOffset id).toNat + pageSize > maxFileSize then (data, .error .io)
    else writeImagesFile (writeAt data (fileOffset id).toNat page.data) rest

def replayFile (data : Bytes) (records : List DecodedRecord) : Bytes × Except Error RecoveryStats :=
  let committed := committedTxns records
  let allTxns := (records.map (fun d => d.record.txn)).dedup
  match latestImages committed records ∅ with
  | .error e => (data, .error e)
  | .ok latest =>
    match writeImagesFile data latest.toList with
    | (data, .error e) => (data, .error e)
    | (data, .ok ()) =>
      (data, .ok ⟨committed.length, allTxns.length - committed.length, latest.size⟩)

theorem writeImages_eq_file (data : Bytes) (us : List (PageId × Page)) :
    writeImages data us = (writeImagesFile data us).2.map (fun _ => (writeImagesFile data us).1) := by
  induction us generalizing data with
  | nil => rfl
  | cons u us ih =>
    rw [writeImages, writeImagesFile]
    split
    · rfl
    · exact ih _

theorem replay_eq_file (data : Bytes) (records : List DecodedRecord) :
    replay data records = (replayFile data records).2.map (fun stats => ((replayFile data records).1, stats)) := by
  simp only [replay, replayFile, writeImages_eq_file]
  change (match latestImages (committedTxns records) records ∅ with
    | .error e => _
    | .ok latest => _) = _
  cases latestImages (committedTxns records) records ∅ with
  | error e => rfl
  | ok latest =>
    cases h : writeImagesFile data latest.toList with
    | mk data' r =>
      cases r with
      | error e => simp [h, Except.map]
      | ok u => simp [h, Except.map, committedTxns]

def putImage (data : Bytes) (u : PageId × Page) : Bytes := writeAt data (slotOffset u.1) u.2.data

def applyImages (data : Bytes) (us : List (PageId × Page)) : Bytes := us.foldl putImage data

def applyBlocks (data : Bytes) (bs : List TxnBlock) : Bytes :=
  bs.foldl (fun data b => applyImages data b.images) data

theorem applyBlocks_eq (data : Bytes) (bs : List TxnBlock) :
    applyBlocks data bs = applyImages data (bs.flatMap (·.images)) := by
  induction bs generalizing data with
  | nil => rfl
  | cons b bs ih =>
    rw [List.flatMap_cons, applyImages, List.foldl_append]
    exact ih _

def numberedSlot (data : Bytes) (n : ℕ) : Bytes := slice data (n * pageSize) pageSize

theorem eq_of_numberedSlot {f g : Bytes} (hlen : f.length = g.length) (h : numberedSlot f = numberedSlot g) :
    f = g := by
  apply List.ext_getElem?
  intro i
  by_cases hi : i < f.length
  · have hslot := congrArg (fun s : Bytes => s[i % pageSize]?) (congrFun h (i / pageSize))
    have hmod : i % pageSize < pageSize := Nat.mod_lt _ (by decide)
    have hadd : i / pageSize * pageSize + i % pageSize = i := Nat.div_add_mod' i pageSize
    simp only [numberedSlot, slice_getElem? _ _ _ _ hmod, hadd, List.getD_eq_getElem?_getD,
      List.getElem?_eq_getElem hi, List.getElem?_eq_getElem (hlen ▸ hi), Option.getD_some] at hslot
    rw [List.getElem?_eq_getElem hi, List.getElem?_eq_getElem (hlen ▸ hi)]
    exact hslot
  · rw [List.getElem?_eq_none (by omega), List.getElem?_eq_none (by omega)]

theorem numberedSlot_putImage (data : Bytes) (u : PageId × Page) :
    numberedSlot (putImage data u) = Function.update (numberedSlot data) u.1.toNat u.2.data := by
  funext n
  rcases eq_or_ne n u.1.toNat with rfl | hne
  · rw [Function.update_self, numberedSlot]
    have hs := slice_writeAt_same data (slotOffset u.1) u.2.data
    rwa [u.2.size] at hs
  · rw [Function.update_of_ne hne, numberedSlot, numberedSlot, putImage]
    apply slice_writeAt_disjoint
    rw [u.2.size, slotOffset, pageSize]
    omega

theorem numberedSlot_applyImages (data : Bytes) (us : List (PageId × Page)) :
    numberedSlot (applyImages data us) =
      overlay (numberedSlot data) ((us.map (fun u => (u.1, u.2.data))).map (fun u => (u.1.toNat, u.2))) := by
  induction us generalizing data with
  | nil => rfl
  | cons u us ih =>
    rw [List.map_cons, List.map_cons, overlay_cons, ← numberedSlot_putImage]
    exact ih _

theorem applyImages_length_le (data : Bytes) (us : List (PageId × Page)) (n : ℕ) :
    (applyImages data us).length ≤ n ↔
      data.length ≤ n ∧ ∀ k ∈ us.map Prod.fst, slotOffset k + pageSize ≤ n := by
  induction us generalizing data with
  | nil => simp [applyImages]
  | cons u us ih =>
    have hl : (putImage data u).length = max data.length (slotOffset u.1 + pageSize) := by
      rw [putImage, writeAt_length _ _ _ u.2.data_ne_nil, u.2.size]
    change (applyImages (putImage data u) us).length ≤ n ↔ _
    rw [ih, hl, max_le_iff, List.map_cons, List.forall_mem_cons, and_assoc]

theorem applyImages_latest (data : Bytes) (us : List (PageId × Page)) :
    applyImages data (us.foldl (fun t u => t.insert u.1 u.2) (∅ : PageTree)).toList =
      applyImages data us := by
  have hkeys := @mem_keys_foldl_insert PageId Page _ compare _ _ us
  apply eq_of_numberedSlot
  · apply le_antisymm
    · rw [applyImages_length_le]
      obtain ⟨h₁, h₂⟩ := (applyImages_length_le data us _).mp (le_refl _)
      exact ⟨h₁, fun k hk => h₂ k ((hkeys k).mp hk)⟩
    · rw [applyImages_length_le]
      obtain ⟨h₁, h₂⟩ := (applyImages_length_le data _ _).mp (le_refl _)
      exact ⟨h₁, fun k hk => h₂ k ((hkeys k).mpr hk)⟩
  · funext n
    rw [numberedSlot_applyImages, numberedSlot_applyImages]
    by_cases hn : ∃ k : PageId, k.toNat = n
    · obtain ⟨k, rfl⟩ := hn
      have hinj : Function.Injective UInt64.toNat := fun a b h => UInt64.toNat_inj.mp h
      rw [overlay_comap hinj, overlay_comap hinj, overlay_map_toList]
    · have hout : ∀ vs : List (PageId × Page),
          n ∉ ((vs.map (fun u => (u.1, u.2.data))).map (fun u => (u.1.toNat, u.2))).map Prod.fst := by
        intro vs hm
        simp only [List.map_map, List.mem_map, Function.comp_apply] at hm
        obtain ⟨u, -, hu⟩ := hm
        exact hn ⟨u.1, hu⟩
      rw [overlay_of_not_mem _ _ _ (hout _), overlay_of_not_mem _ _ _ (hout _)]

theorem writeImagesFile_ok (data : Bytes) (us : List (PageId × Page))
    (h : ∀ u ∈ us, slotOffset u.1 + pageSize ≤ maxFileSize) :
    writeImagesFile data us = (applyImages data us, .ok ()) := by
  induction us generalizing data with
  | nil => rfl
  | cons u us ih =>
    have hu := h u List.mem_cons_self
    have hoff : (fileOffset u.1).toNat = slotOffset u.1 := by
      apply fileOffset_toNat
      rw [slotOffset, pageSize, maxFileSize] at hu
      omega
    rw [writeImagesFile, hoff, if_neg (by omega)]
    exact ih _ (fun v hv => h v (List.mem_cons_of_mem _ hv))

theorem writeImagesFile_refused (data : Bytes) (us : List (PageId × Page)) {u : PageId × Page} (hu : u ∈ us)
    (hid : u.1.toNat < 2 ^ 51) (h : ¬ slotOffset u.1 + pageSize ≤ maxFileSize) :
    ∃ data', writeImagesFile data us = (data', .error .io) := by
  induction us generalizing data with
  | nil => cases hu
  | cons v us ih =>
    rw [writeImagesFile]
    split_ifs with hv
    · exact ⟨data, rfl⟩
    · rcases List.mem_cons.mp hu with rfl | hu
      · rw [fileOffset_toNat (by omega)] at hv
        exact absurd (not_lt.mp hv) h
      · exact ih _ hu

theorem validateImage_error {id : PageId} {page : Page} (h : ¬ ValidImage id page) (seq : UInt64) :
    ∃ msg, validateImage id page seq = .error (.corruption msg) := by
  rw [ValidImage] at h
  by_cases hid : id = PageId.HEADER
  · rw [if_pos hid] at h
    cases hd : FileHeader.decode page with
    | ok x => exact absurd ⟨x, hd⟩ h
    | error e => exact ⟨_, by simp only [validateImage, if_pos hid, hd, Except.map, Except.mapError]; rfl⟩
  · rw [if_neg hid] at h
    cases hd : page.verify id with
    | ok x => exact absurd ⟨x, hd⟩ h
    | error e => exact ⟨_, by simp only [validateImage, if_neg hid, hd, Except.map, Except.mapError]; rfl⟩

theorem latestImages_error (committed : List TxnId) (ds : List DecodedRecord) (latest : PageTree)
    (h : ∃ u ∈ committedImages committed (ds.map (·.record)), ¬ ValidImage u.1 u.2) :
    ∃ msg, latestImages committed ds latest = .error (.corruption msg) := by
  induction ds generalizing latest with
  | nil =>
    obtain ⟨u, hu, -⟩ := h
    cases hu
  | cons d ds ih =>
    obtain ⟨seq, r, len⟩ := d
    cases r with
    | commit txn => exact ih latest h
    | pageImage txn id page =>
      by_cases hc : txn ∈ committed
      · by_cases hv : ValidImage id page
        · simp only [latestImages, if_pos hc, validateImage_ok hv]
          apply ih
          obtain ⟨u, hu, hn⟩ := h
          simp only [committedImages, List.map_cons, List.filterMap_cons, hc, if_true, List.mem_cons] at hu
          rcases hu with rfl | hu
          · exact absurd hv hn
          · exact ⟨u, hu, hn⟩
        · obtain ⟨msg, hm⟩ := validateImage_error hv seq
          exact ⟨msg, by simp only [latestImages, if_pos hc, hm]⟩
      · simp only [latestImages, if_neg hc]
        apply ih
        simpa [committedImages, hc] using h

theorem dedup_length_eq {α : Type} [DecidableEq α] {l l' : List α} (hl' : l'.Nodup)
    (h : ∀ x, x ∈ l ↔ x ∈ l') : l.dedup.length = l'.length := by
  have hset : l.toFinset = l'.toFinset := by
    ext x
    rw [List.mem_toFinset, List.mem_toFinset]
    exact h x
  rw [← List.card_toFinset, hset, List.toFinset_card_of_nodup hl']

section Blocks

variable {bs : List TxnBlock} {last : Option TxnBlock} {ds : List DecodedRecord}

theorem imagesOutside_last (hids : ((bs ++ last.toList).map (·.txn)).Nodup) :
    ImagesOutside (bs.map (·.txn)) (last.toList.flatMap (·.imageRecords)) := by
  intro r hr
  obtain ⟨b, hb, hr⟩ := List.mem_flatMap.mp hr
  obtain ⟨u, -, rfl⟩ := List.mem_map.mp hr
  refine ⟨b.txn, u.1, u.2, rfl, fun hm => ?_⟩
  rw [List.map_append, List.nodup_append] at hids
  exact hids.2.2 b.txn hm b.txn (List.mem_map_of_mem hb) rfl

theorem mem_txns (hds : ds.map (·.record) = bs.flatMap (·.records) ++ last.toList.flatMap (·.imageRecords))
    (hlast : ∀ b ∈ last, b.images ≠ []) (txn : TxnId) :
    txn ∈ ds.map (fun d => d.record.txn) ↔ txn ∈ (bs ++ last.toList).map (·.txn) := by
  have himg : ∀ b : TxnBlock, ∀ r ∈ b.imageRecords, r.txn = b.txn := by
    intro b r hr
    obtain ⟨u, -, rfl⟩ := List.mem_map.mp hr
    rfl
  have hrec : ∀ b : TxnBlock, ∀ r ∈ b.records, r.txn = b.txn := by
    intro b r hr
    rcases List.mem_append.mp hr with hr | hr
    · exact himg b r hr
    · rw [List.mem_singleton.mp hr]
      rfl
  have hmap : ds.map (fun d => d.record.txn) = (ds.map (·.record)).map WalRecord.txn := by
    rw [List.map_map]
    rfl
  rw [hmap, hds, List.map_append, List.map_append, List.mem_append, List.mem_append]
  apply or_congr
  · constructor
    · intro h
      obtain ⟨r, hr, rfl⟩ := List.mem_map.mp h
      obtain ⟨b, hb, hr⟩ := List.mem_flatMap.mp hr
      exact List.mem_map.mpr ⟨b, hb, (hrec b r hr).symm⟩
    · intro h
      obtain ⟨b, hb, rfl⟩ := List.mem_map.mp h
      exact List.mem_map.mpr ⟨.commit b.txn, List.mem_flatMap.mpr ⟨b, hb, by simp [TxnBlock.records]⟩, rfl⟩
  · constructor
    · intro h
      obtain ⟨r, hr, rfl⟩ := List.mem_map.mp h
      obtain ⟨b, hb, hr⟩ := List.mem_flatMap.mp hr
      exact List.mem_map.mpr ⟨b, hb, (himg b r hr).symm⟩
    · intro h
      obtain ⟨b, hb, rfl⟩ := List.mem_map.mp h
      obtain ⟨u, us, hu⟩ := List.exists_cons_of_ne_nil (hlast b (Option.mem_toList.mp hb))
      refine List.mem_map.mpr ⟨.pageImage b.txn u.1 u.2, List.mem_flatMap.mpr ⟨b, hb, ?_⟩, rfl⟩
      simp [TxnBlock.imageRecords, hu]

theorem txns_length (hds : ds.map (·.record) = bs.flatMap (·.records) ++ last.toList.flatMap (·.imageRecords))
    (hids : ((bs ++ last.toList).map (·.txn)).Nodup) (hlast : ∀ b ∈ last, b.images ≠ []) :
    (committedTxns ds).length = bs.length ∧
      (ds.map (fun d => d.record.txn)).dedup.length = bs.length + last.toList.length := by
  have hnodup : (bs.map (·.txn)).Nodup := by
    rw [List.map_append] at hids
    exact hids.of_append_left
  constructor
  · rw [committedTxns_log hds (imagesOutside_last hids), List.dedup_eq_self.mpr hnodup, List.length_map]
  · rw [dedup_length_eq hids (mem_txns hds hlast), List.length_map, List.length_append]

/-- `replay` is the committed transactions applied one after another. -/
theorem replay_applies_blocks_in_order (data : Bytes)
    (hds : ds.map (·.record) = bs.flatMap (·.records) ++ last.toList.flatMap (·.imageRecords))
    (hids : ((bs ++ last.toList).map (·.txn)).Nodup) (hlast : ∀ b ∈ last, b.images ≠ [])
    (hpages : ∀ b ∈ bs, ∀ u ∈ b.images, u.1.toNat < 2 ^ 51) :
    ((∀ b ∈ bs, ∀ u ∈ b.images, ValidImage u.1 u.2) →
      if ∀ b ∈ bs, ∀ u ∈ b.images, slotOffset u.1 + pageSize ≤ maxFileSize then
        replayFile data ds = (applyBlocks data bs, .ok ⟨bs.length, last.toList.length,
          ((bs.flatMap (·.images)).map Prod.fst).dedup.length⟩)
      else ∃ data', replayFile data ds = (data', .error .io)) ∧
    ((∃ b ∈ bs, ∃ u ∈ b.images, ¬ ValidImage u.1 u.2) →
      ∃ msg, replayFile data ds = (data, .error (.corruption msg))) := by
  have hout := imagesOutside_last hids
  obtain ⟨hcommitted, hall⟩ := txns_length hds hids hlast
  constructor
  · intro hv
    have hlatest := latestImages_blocks hds hout (fun u hu => by
      obtain ⟨b, hb, hu⟩ := List.mem_flatMap.mp hu
      exact hv b hb u hu)
    split_ifs with hfit
    · have hw := writeImagesFile_ok data
        ((bs.flatMap (·.images)).foldl (fun t u => t.insert u.1 u.2) (∅ : PageTree)).toList (fun u hu => by
          obtain ⟨b, hb, hu⟩ := List.mem_flatMap.mp (mem_of_mem_foldl_insert _ u hu)
          exact hfit b hb u hu)
      rw [applyImages_latest, ← applyBlocks_eq] at hw
      simp only [replayFile, hlatest, hw, hcommitted, hall, size_foldl_insert, Nat.add_sub_cancel_left]
    · push Not at hfit
      obtain ⟨b, hb, u, hu, hbig⟩ := hfit
      obtain ⟨v, hmem⟩ := @exists_mem_foldl_insert PageId Page _ compare _ _ (bs.flatMap (·.images)) u
        (List.mem_flatMap.mpr ⟨b, hb, hu⟩)
      obtain ⟨data', hw⟩ := writeImagesFile_refused data _ hmem (hpages b hb u hu) (not_le.mpr hbig)
      exact ⟨data', by simp only [replayFile, hlatest, hw]⟩
  · rintro ⟨b, hb, u, hu, hn⟩
    have herr := latestImages_error (committedTxns ds) ds ∅ (by
      rw [committedImages_blocks hds hout]
      exact ⟨u, List.mem_flatMap.mpr ⟨b, hb, hu⟩, hn⟩)
    obtain ⟨msg, hm⟩ := herr
    exact ⟨msg, by simp only [replayFile, hm]⟩

theorem replay_applies_blocks_in_order_one :
    replayFile [] (decodedAll ((TxnBlock.mk 1 [(1, (Page.new 1 .heap).seal)]).records ++
        (TxnBlock.mk 2 [(7, Page.zeroed)]).imageRecords) 0) =
      (applyBlocks [] [⟨1, [(1, (Page.new 1 .heap).seal)]⟩], .ok ⟨1, 1, 1⟩) := by
  have hrun : ∀ page junk : Page, ValidImage 1 page →
      replayFile [] (decodedAll ((TxnBlock.mk 1 [(1, page)]).records ++
        (TxnBlock.mk 2 [(7, junk)]).imageRecords) 0) = (applyBlocks [] [⟨1, [(1, page)]⟩], .ok ⟨1, 1, 1⟩) := by
    intro page junk hvalid
    have hds : (decodedAll ((TxnBlock.mk 1 [(1, page)]).records ++
        (TxnBlock.mk 2 [(7, junk)]).imageRecords) 0).map (·.record) =
        [TxnBlock.mk 1 [(1, page)]].flatMap (·.records) ++
          (some (TxnBlock.mk 2 [(7, junk)])).toList.flatMap (·.imageRecords) := by
      rw [decodedAll_record]
      rfl
    have hids : (([TxnBlock.mk 1 [(1, page)]] ++ (some (TxnBlock.mk 2 [(7, junk)])).toList).map
        (·.txn)).Nodup := by
      simp only [Option.toList_some, List.singleton_append, List.map_cons, List.map_nil]
      decide
    have hlast : ∀ b ∈ some (TxnBlock.mk 2 [(7, junk)]), b.images ≠ [] := by
      rintro b ⟨⟩
      exact List.cons_ne_nil _ _
    have hpages : ∀ b ∈ [TxnBlock.mk 1 [(1, page)]], ∀ u ∈ b.images, u.1.toNat < 2 ^ 51 := by
      intro b hb u hu
      rw [List.mem_singleton.mp hb] at hu
      rw [List.mem_singleton.mp hu]
      change (1 : UInt64).toNat < 2 ^ 51
      decide
    have hall : ∀ b ∈ [TxnBlock.mk 1 [(1, page)]], ∀ u ∈ b.images, ValidImage u.1 u.2 := by
      intro b hb u hu
      rw [List.mem_singleton.mp hb] at hu
      rw [List.mem_singleton.mp hu]
      exact hvalid
    have h := replay_applies_blocks_in_order [] hds hids hlast hpages
    rw [if_pos (by simp [slotOffset, pageSize, maxFileSize])] at h
    exact h.1 hall
  apply hrun
  rw [ValidImage, if_neg (by decide)]
  exact Page.new_valid 1 .heap

end Blocks

end OxenDB
