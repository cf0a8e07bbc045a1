import OxenDB.PageMap
import OxenDB.Disk
import OxenDB.Wal

namespace OxenDB

open Lib

abbrev PageTree := Std.TreeMap PageId Page

structure RecoveryStats where
  committedTxns : ℕ
  incompleteTxns : ℕ
  pagesRestored : ℕ
  deriving DecidableEq, Repr

def validateImage (id : PageId) (page : Page) (seq : UInt64) : Except Error Unit :=
  let result := if id = PageId.HEADER then (FileHeader.decode page).map (fun _ => ())
    else (page.verify id).map (fun _ => ())
  result.mapError (fun err => .corruption
    s!"WAL record {seq} holds an invalid image of {pageName id}: {err.display}")

def committedTxn : WalRecord → Option TxnId
  | .commit txn => some txn
  | .pageImage .. => none

/-- The loop that keeps the last committed image of each page. -/
def latestImages (committed : List TxnId) : List DecodedRecord → PageTree → Except Error PageTree
  | [], latest => .ok latest
  | decoded :: rest, latest =>
    match decoded.record with
    | .pageImage txn id page =>
      if txn ∈ committed then
        match validateImage id page decoded.seq with
        | .error e => .error e
        | .ok () => latestImages committed rest (latest.insert id page)
      else latestImages committed rest latest
    | .commit _ => latestImages committed rest latest

def writeImages (data : Bytes) : List (PageId × Page) → Except Error Bytes
  | [] => .ok data
  | (id, page) :: rest =>
    if (fileOffset id).toNat + pageSize > maxFileSize then .error .io
    else writeImages (writeAt data (fileOffset id).toNat page.data) rest

/-- `replay` with the contents it leaves in the data file, when its I/O calls succeed. -/
def replay (data : Bytes) (records : List DecodedRecord) : Except Error (Bytes × RecoveryStats) :=
  let committed := (records.filterMap (fun d => committedTxn d.record)).dedup
  let allTxns := (records.map (fun d => d.record.txn)).dedup
  match latestImages committed records ∅ with
  | .error e => .error e
  | .ok latest =>
    match writeImages data latest.toList with
    | .error e => .error e
    | .ok data =>
      .ok (data, ⟨committed.length, allTxns.length - committed.length, latest.size⟩)

def ValidImage (id : PageId) (page : Page) : Prop :=
  if id = PageId.HEADER then ∃ h, FileHeader.decode page = .ok h else page.Valid id

theorem validateImage_ok {id : PageId} {page : Page} (h : ValidImage id page) (seq : UInt64) :
    validateImage id page seq = .ok () := by
  unfold ValidImage at h
  by_cases hid : id = PageId.HEADER
  · rw [if_pos hid] at h
    obtain ⟨x, hx⟩ := h
    simp [validateImage, hid, hx, Except.map, Except.mapError]
  · rw [if_neg hid] at h
    obtain ⟨x, hx⟩ := h
    simp [validateImage, hid, hx, Except.map, Except.mapError]

theorem fileOffset_toNat {id : PageId} (h : id.toNat < 2 ^ 52) : (fileOffset id).toNat = slotOffset id := by
  rw [fileOffset, slotOffset, UInt64.toNat_mul, pageSize]
  have : (4096 : UInt64).toNat = 4096 := rfl
  rw [this]
  omega

def slotOf (data : Bytes) (id : PageId) : Bytes := slice data (slotOffset id) pageSize

theorem slotOffset_disjoint {id id' : PageId} (h : id' ≠ id) :
    slotOffset id' + pageSize ≤ slotOffset id ∨ slotOffset id + pageSize ≤ slotOffset id' := by
  have hne : id'.toNat ≠ id.toNat := fun he => h (UInt64.toNat_inj.mp he)
  unfold slotOffset pageSize
  omega

theorem slotOf_writeAt (data : Bytes) (id : PageId) (page : Page) (h : id.toNat < 2 ^ 52) :
    slotOf (writeAt data (fileOffset id).toNat page.data) =
      Function.update (slotOf data) id page.data := by
  funext id'
  rw [fileOffset_toNat h]
  by_cases hid : id' = id
  · subst hid
    rw [Function.update_self, slotOf]
    have hs := slice_writeAt_same data (slotOffset id') page.data
    rwa [page.size] at hs
  · rw [Function.update_of_ne hid]
    apply slice_writeAt_disjoint
    rw [page.size]
    exact slotOffset_disjoint hid

theorem Page.data_ne_nil (p : Page) : p.data ≠ [] := by
  intro h
  have := p.size
  simp [h, pageSize] at this

theorem writeImages_ok (us : List (PageId × Page)) (data : Bytes)
    (hf : ∀ u ∈ us, u.1.toNat < 2 ^ 51 - 1) :
    ∃ data', writeImages data us = .ok data' ∧
      slotOf data' = overlay (slotOf data) (us.map (fun u => (u.1, u.2.data))) ∧
      data.length ≤ data'.length ∧ (∀ u ∈ us, slotOffset u.1 + pageSize ≤ data'.length) ∧
      (data.length ≤ maxFileSize → data'.length ≤ maxFileSize) := by
  induction us generalizing data with
  | nil => exact ⟨data, rfl, rfl, le_refl _, by simp, id⟩
  | cons u us ih =>
    obtain ⟨pid, page⟩ := u
    have hid : pid.toNat < 2 ^ 51 - 1 := hf (pid, page) (by simp)
    have hoff := fileOffset_toNat (show pid.toNat < 2 ^ 52 by omega)
    have hfit : ¬ (fileOffset pid).toNat + pageSize > maxFileSize := by
      rw [hoff, slotOffset, pageSize, maxFileSize]
      omega
    have hlen := writeAt_length data (fileOffset pid).toNat page.data page.data_ne_nil
    rw [page.size, hoff] at hlen
    obtain ⟨data', h1, h2, h3, h4, h5⟩ := ih (writeAt data (fileOffset pid).toNat page.data)
      (fun u hu => hf u (List.mem_cons_of_mem _ hu))
    rw [hoff, hlen] at h3 h5
    refine ⟨data', ?_, ?_, by omega, ?_, ?_⟩
    · rw [writeImages, if_neg hfit, h1]
    · rw [h2, slotOf_writeAt data pid page (by omega)]
      rfl
    · intro u hu
      rcases List.mem_cons.mp hu with rfl | hu
      · dsimp only
        omega
      · exact h4 u hu
    · intro hd
      apply h5
      rw [hoff] at hfit
      omega

def committedImages (committed : List TxnId) (rs : List WalRecord) : List (PageId × Page) :=
  rs.filterMap (fun
    | .pageImage txn id page => if txn ∈ committed then some (id, page) else none
    | .commit _ => none)

theorem latestImages_ok (committed : List TxnId) (ds : List DecodedRecord) (latest : PageTree)
    (hv : ∀ u ∈ committedImages committed (ds.map (·.record)), ValidImage u.1 u.2) :
    latestImages committed ds latest =
      .ok ((committedImages committed (ds.map (·.record))).foldl (fun t u => t.insert u.1 u.2) latest) := by
  induction ds generalizing latest with
  | nil => rfl
  | cons d ds ih =>
    obtain ⟨seq, r, len⟩ := d
    cases r with
    | commit txn => exact ih latest hv
    | pageImage txn id page =>
      by_cases hc : txn ∈ committed
      · have he : committedImages committed (.pageImage txn id page :: ds.map (·.record)) =
            (id, page) :: committedImages committed (ds.map (·.record)) := by
          simp [committedImages, hc]
        rw [List.map_cons, he] at hv ⊢
        have hok := validateImage_ok (hv (id, page) (by simp)) seq
        simp only [latestImages, if_pos hc, hok, List.foldl_cons]
        exact ih _ (fun u hu => hv u (List.mem_cons_of_mem _ hu))
      · have he : committedImages committed (.pageImage txn id page :: ds.map (·.record)) =
            committedImages committed (ds.map (·.record)) := by
          simp [committedImages, hc]
        rw [List.map_cons, he] at hv ⊢
        simp only [latestImages, if_neg hc]
        exact ih latest hv

namespace TxnBlock

theorem committedTxn_records (b : TxnBlock) : b.records.filterMap committedTxn = [b.txn] := by
  have hi : b.imageRecords.filterMap committedTxn = [] := by
    rw [List.filterMap_eq_nil_iff]
    intro r hr
    obtain ⟨u, -, rfl⟩ := List.mem_map.mp hr
    rfl
  simp [records, hi, committedTxn]

theorem committedImages_records (b : TxnBlock) (committed : List TxnId) (h : b.txn ∈ committed) :
    committedImages committed b.records = b.images := by
  have hc : committedImages committed [WalRecord.commit b.txn] = [] := rfl
  rw [records, committedImages, List.filterMap_append]
  change _ ++ committedImages committed [WalRecord.commit b.txn] = _
  rw [hc, List.append_nil, imageRecords, List.filterMap_map]
  apply List.filterMap_some.symm.trans ?_ |>.symm
  apply List.filterMap_congr
  intro u _
  simp [h]

end TxnBlock

def ImagesOutside (txns : List TxnId) (rs : List WalRecord) : Prop :=
  ∀ r ∈ rs, ∃ txn id page, r = .pageImage txn id page ∧ txn ∉ txns

theorem committedTxn_log (bs : List TxnBlock) (rs : List WalRecord)
    (h : ImagesOutside (bs.map (·.txn)) rs) :
    (bs.flatMap (·.records) ++ rs).filterMap committedTxn = bs.map (·.txn) := by
  have hr : rs.filterMap committedTxn = [] := by
    rw [List.filterMap_eq_nil_iff]
    intro r hr
    obtain ⟨txn, id, page, rfl, -⟩ := h r hr
    rfl
  rw [List.filterMap_append, hr, List.append_nil]
  clear h hr
  induction bs with
  | nil => rfl
  | cons b bs ih =>
    rw [List.flatMap_cons, List.filterMap_append, ih, b.committedTxn_records]
    rfl

theorem committedImages_log (bs : List TxnBlock) (rs : List WalRecord) (committed : List TxnId)
    (hc : ∀ txn, txn ∈ committed ↔ txn ∈ bs.map (·.txn)) (h : ImagesOutside (bs.map (·.txn)) rs) :
    committedImages committed (bs.flatMap (·.records) ++ rs) = bs.flatMap (·.images) := by
  have hr : committedImages committed rs = [] := by
    rw [committedImages, List.filterMap_eq_nil_iff]
    intro r hr
    obtain ⟨txn, id, page, rfl, hn⟩ := h r hr
    simp [hc, hn]
  have hbs : ∀ bs' : List TxnBlock, (∀ b ∈ bs', b.txn ∈ committed) →
      committedImages committed (bs'.flatMap (·.records)) = bs'.flatMap (·.images) := by
    intro bs' hm
    induction bs' with
    | nil => rfl
    | cons b bs' ih =>
      rw [List.flatMap_cons, List.flatMap_cons, committedImages, List.filterMap_append]
      change committedImages committed b.records ++ committedImages committed _ = _
      rw [b.committedImages_records committed (hm b (by simp)),
        ih (fun b' hb' => hm b' (List.mem_cons_of_mem _ hb'))]
  rw [committedImages, List.filterMap_append]
  change committedImages committed _ ++ committedImages committed rs = _
  rw [hr, List.append_nil]
  exact hbs bs (fun b hm => (hc _).mpr (List.mem_map_of_mem hm))

def committedTxns (ds : List DecodedRecord) : List TxnId :=
  (ds.filterMap (fun d => committedTxn d.record)).dedup

section Blocks

variable {ds : List DecodedRecord} {bs : List TxnBlock} {rs : List WalRecord}

theorem committedTxns_log (hds : ds.map (·.record) = bs.flatMap (·.records) ++ rs)
    (h : ImagesOutside (bs.map (·.txn)) rs) : committedTxns ds = (bs.map (·.txn)).dedup := by
  rw [committedTxns, ← committedTxn_log bs rs h, ← hds, List.filterMap_map]
  rfl

theorem committedImages_blocks (hds : ds.map (·.record) = bs.flatMap (·.records) ++ rs)
    (h : ImagesOutside (bs.map (·.txn)) rs) :
    committedImages (committedTxns ds) (ds.map (·.record)) = bs.flatMap (·.images) := by
  rw [committedTxns_log hds h, hds]
  apply committedImages_log bs rs _ _ h
  intro txn
  rw [List.mem_dedup]

theorem latestImages_blocks (hds : ds.map (·.record) = bs.flatMap (·.records) ++ rs)
    (h : ImagesOutside (bs.map (·.txn)) rs) (hv : ∀ u ∈ bs.flatMap (·.images), ValidImage u.1 u.2) :
    latestImages (committedTxns ds) ds ∅ =
      .ok ((bs.flatMap (·.images)).foldl (fun t u => t.insert u.1 u.2) ∅) := by
  have hi := committedImages_blocks hds h
  have hok := latestImages_ok (committedTxns ds) ds ∅ (by rwa [hi])
  rwa [hi] at hok

end Blocks

theorem latestImages_log {cs : List Commit} {rs : List WalRecord} (seq : UInt64)
    (hu : ImagesOutside (cs.map (·.txn)) rs) (hv : ∀ u ∈ cs.flatMap (·.images), ValidImage u.1 u.2) :
    latestImages (committedTxns (decodedAll (cs.flatMap (·.records) ++ rs) seq))
        (decodedAll (cs.flatMap (·.records) ++ rs) seq) ∅ =
      .ok ((cs.flatMap (·.images)).foldl (fun t u => t.insert u.1 u.2) ∅) := by
  have hds : (decodedAll (cs.flatMap (·.records) ++ rs) seq).map (·.record) =
      (cs.map Commit.block).flatMap (·.records) ++ rs := by
    rw [decodedAll_record, List.flatMap_map]
    rfl
  have htxns : (cs.map Commit.block).map (·.txn) = cs.map (·.txn) := List.map_map
  have himg : (cs.map Commit.block).flatMap (·.images) = cs.flatMap (·.images) := List.flatMap_map ..
  have hlatest := latestImages_blocks hds (by rw [htxns]; exact hu) (by rwa [himg])
  rwa [himg] at hlatest

theorem replay_log (data : Bytes) (cs : List Commit) (rs : List WalRecord) (seq : UInt64)
    (hu : ImagesOutside (cs.map (·.txn)) rs) (hv : ∀ u ∈ cs.flatMap (·.images), ValidImage u.1 u.2)
    (hf : ∀ u ∈ cs.flatMap (·.images), u.1.toNat < 2 ^ 51 - 1) :
    ∃ data' stats, replay data (decodedAll (cs.flatMap (·.records) ++ rs) seq) = .ok (data', stats) ∧
      slotOf data' = overlay (slotOf data) ((cs.flatMap (·.images)).map (fun u => (u.1, u.2.data))) ∧
      data.length ≤ data'.length ∧
      (∀ u ∈ cs.flatMap (·.images), slotOffset u.1 + pageSize ≤ data'.length) ∧
      (data.length ≤ maxFileSize → data'.length ≤ maxFileSize) := by
  have hlatest := latestImages_log seq hu hv
  let latest : PageTree := (cs.flatMap (·.images)).foldl (fun t u => t.insert u.1 u.2) ∅
  have hmem : ∀ u ∈ latest.toList, u ∈ cs.flatMap (·.images) := mem_of_mem_foldl_insert _
  obtain ⟨data', h1, h2, h3, h4, h5⟩ := writeImages_ok latest.toList data (fun u hu => hf u (hmem u hu))
  rw [committedTxns] at hlatest
  refine ⟨data', _, by simp only [replay]; rw [hlatest]; dsimp only; rw [h1], ?_, h3, ?_, h5⟩
  · rw [h2, overlay_map_toList]
  · intro u hu
    obtain ⟨v, hv⟩ := @exists_mem_foldl_insert PageId Page _ compare _ _ (cs.flatMap (·.images)) u hu
    exact h4 (u.1, v) hv

end OxenDB
