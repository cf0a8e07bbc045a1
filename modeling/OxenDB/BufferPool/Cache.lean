import OxenDB.BufferPool.Shard
import OxenDB.Recovery

/-!
A write-back cache over the data file, page by page: what the buffer pool is for, without its
frames, its pins and its clock.
-/

namespace OxenDB

open Lib

def DiskManager.Holds (d : DiskManager) (id : PageId) (page : Page) : Prop :=
  id ≠ PageId.HEADER ∧ id.toNat < 2 ^ 52 ∧
    readAt d.file.contents (slotOffset id) pageSize = some page.data

structure Cache where
  frame : PageId → Option Frame
  disk : DiskManager

namespace Cache

def content (c : Cache) (id : PageId) : Bytes :=
  match c.frame id with
  | some frame => frame.page.body
  | none => (slotOf c.disk.file.contents id).drop 4

def Coherent (c : Cache) : Prop :=
  ∀ id frame, c.frame id = some frame → frame.dirty = false → c.disk.Holds id frame.page

inductive Step (mine : PageId → Prop) : Cache → Change → Cache → Prop
  | quiet (c : Cache) : Step mine c { } c
  | load {c : Cache} {id : PageId} {page : Page} : mine id → c.frame id = none →
      c.disk.Holds id page → page.Valid id →
      Step mine c { } ⟨Function.update c.frame id (some ⟨page, false⟩), c.disk⟩
  | writeBack {c : Cache} {id : PageId} {frame : Frame} (wr : WriteResult) :
      mine id → c.frame id = some frame →
      Step mine c { written := (frame.writeBack c.disk id wr).written }
        ⟨Function.update c.frame id (some (frame.writeBack c.disk id wr).frame),
          (frame.writeBack c.disk id wr).disk⟩
  | evict {c : Cache} {id : PageId} {frame : Frame} (wr : WriteResult) :
      mine id → c.frame id = some frame → (frame.writeBack c.disk id wr).result = .ok () →
      Step mine c { written := (frame.writeBack c.disk id wr).written }
        ⟨Function.update c.frame id none, (frame.writeBack c.disk id wr).disk⟩
  | put {c : Cache} {id : PageId} (page : Page) : mine id →
      Step mine c { update := some (id, page) }
        ⟨Function.update c.frame id (some ⟨page, true⟩), c.disk⟩
  | mark {c : Cache} {id : PageId} {frame : Frame} : mine id → c.frame id = some frame →
      Step mine c { marked := some id }
        ⟨Function.update c.frame id (some ⟨frame.page, true⟩), c.disk⟩

end Cache

theorem slotOf_writeAt_ne (data : Bytes) {id id' : PageId} {bs : Bytes} (hbs : bs.length ≤ pageSize)
    (hid : id.toNat < 2 ^ 52) (hne : id' ≠ id) :
    slotOf (writeAt data (fileOffset id).toNat bs) id' = slotOf data id' := by
  rw [fileOffset_toNat hid, slotOf, slotOf]
  apply slice_writeAt_disjoint
  rcases slotOffset_disjoint hne with h | h <;> omega

theorem slotOf_writeAt_eq (data : Bytes) {id : PageId} (page : Page) (hid : id.toNat < 2 ^ 52) :
    slotOf (writeAt data (fileOffset id).toNat page.data) id = page.data := by
  rw [fileOffset_toNat hid, slotOf, ← page.size]
  exact slice_writeAt_same _ _ _

theorem readAt_writeAt_ne {data : Bytes} {id id' : PageId} {bs bs' : Bytes}
    (hbs : bs.length ≤ pageSize) (hid : id.toNat < 2 ^ 52) (hne : id' ≠ id)
    (h : readAt data (slotOffset id') pageSize = some bs') :
    readAt (writeAt data (fileOffset id).toNat bs) (slotOffset id') pageSize = some bs' := by
  rw [readAt_some_iff] at h ⊢
  have hl := writeAt_length_le data (fileOffset id).toNat bs
  have hs := slotOf_writeAt_ne data hbs hid hne
  rw [slotOf, slotOf] at hs
  exact ⟨h.1.trans hl, hs.trans h.2⟩

theorem readAt_writeAt_eq (data : Bytes) {id : PageId} (page : Page) (hid : id.toNat < 2 ^ 52) :
    readAt (writeAt data (fileOffset id).toNat page.data) (slotOffset id) pageSize = some page.data := by
  rw [readAt_some_iff]
  refine ⟨?_, slotOf_writeAt_eq data page hid⟩
  rw [writeAt_length _ _ _ page.data_ne_nil, fileOffset_toNat hid, page.size]
  exact le_max_right _ _

namespace DiskManager

theorem checkDataPage_ok {d : DiskManager} {id : PageId} :
    d.checkDataPage id = .ok () ↔ DataPage d.pageCount id := by
  rw [checkDataPage, DataPage]
  split_ifs with h₁ h₂
  · simp [h₁]
  · simp only [false_iff, not_and]
    intro _
    exact UInt64.not_lt.mpr h₂
  · simp only [true_iff]
    exact ⟨h₁, UInt64.not_le.mp h₂⟩

theorem readPage_ok {d : DiskManager} {id : PageId} {rd : Bool} {page : Page}
    (hbound : d.pageCount.toNat ≤ 2 ^ 52) (h : d.readPage id rd = .ok page) :
    DataPage d.pageCount id ∧ d.Holds id page ∧ page.Valid id := by
  rw [readPage.eq_def] at h
  cases hc : d.checkDataPage id with
  | error e => rw [hc] at h; cases h
  | ok u =>
    have hd := checkDataPage_ok.mp hc
    have hid : id.toNat < 2 ^ 52 := (UInt64.lt_iff_toNat_lt.mp hd.2).trans_le hbound
    rw [hc] at h
    simp only at h
    split_ifs at h
    rw [fileOffset_toNat hid] at h
    cases hr : readAt d.file.contents (slotOffset id) pageSize with
    | none => rw [hr] at h; cases h
    | some bs =>
      rw [hr, Option.bind_some, Page.ofBytes] at h
      split_ifs at h with hl
      simp only at h
      cases hv : (Page.mk bs hl).verify id with
      | error e => rw [hv] at h; cases h
      | ok hdr =>
        rw [hv] at h
        injection h with h
        subst h
        exact ⟨hd, ⟨hd.1, hid, hr⟩, hdr, hv⟩

end DiskManager

theorem Frame.writeBack_ok {page : Page} {disk : DiskManager} {id : PageId} (hp : page.pageId = id)
    (hid : DataPage disk.pageCount id) (hoff : (fileOffset id).toNat + pageSize ≤ maxFileSize) :
    (Frame.mk page true).writeBack disk id .ok = ⟨⟨page.seal, false⟩,
      { disk with file := disk.file.writeSlot id page.seal.data }, some (id, page.seal), .ok ()⟩ := by
  rw [Frame.writeBack, if_pos rfl, DiskManager.writePage.eq_def, DiskManager.checkDataPage_ok.mpr hid]
  simp only [hp, ne_eq, not_true_eq_false, if_false, Nat.not_lt.mpr hoff, if_true]

inductive Frame.WriteBackSpec (frame : Frame) (d : DiskManager) (id : PageId) : WroteBack → Prop
  | clean : frame.dirty = false → WriteBackSpec frame d id ⟨frame, d, none, .ok ()⟩
  | refused (e : Error) : frame.dirty = true → ¬ (DataPage d.pageCount id ∧ frame.page.pageId = id) →
      WriteBackSpec frame d id ⟨⟨frame.page, true⟩, d, none, .error e⟩
  | beyond : frame.dirty = true → DataPage d.pageCount id → frame.page.pageId = id →
      WriteBackSpec frame d id ⟨⟨frame.page.seal, true⟩, d, some (id, frame.page.seal), .error .io⟩
  | failed (junk : Bytes) : frame.dirty = true → DataPage d.pageCount id → frame.page.pageId = id →
      (fileOffset id).toNat + pageSize ≤ maxFileSize → junk.length ≤ pageSize →
      WriteBackSpec frame d id ⟨⟨frame.page.seal, true⟩, { d with file := d.file.writeSlot id junk },
        some (id, frame.page.seal), .error .io⟩
  | ok : frame.dirty = true → DataPage d.pageCount id → frame.page.pageId = id →
      (fileOffset id).toNat + pageSize ≤ maxFileSize →
      WriteBackSpec frame d id ⟨⟨frame.page.seal, false⟩,
        { d with file := d.file.writeSlot id frame.page.seal.data }, some (id, frame.page.seal), .ok ()⟩

theorem Frame.writeBack_spec (frame : Frame) (d : DiskManager) (id : PageId) (wr : WriteResult) :
    frame.WriteBackSpec d id (frame.writeBack d id wr) := by
  rw [Frame.writeBack]
  cases hdirty : frame.dirty with
  | false => exact .clean hdirty
  | true =>
    rw [if_pos rfl, DiskManager.writePage.eq_def]
    cases hc : d.checkDataPage id with
    | error e =>
      refine .refused e hdirty (fun h => ?_)
      rw [DiskManager.checkDataPage_ok.mpr h.1] at hc
      cases hc
    | ok u =>
      have hd := DiskManager.checkDataPage_ok.mp hc
      by_cases hp : frame.page.pageId = id
      · by_cases hm : (fileOffset id).toNat + pageSize ≤ maxFileSize
        · cases wr with
          | ok =>
            simp only [hp, ne_eq, not_true_eq_false, if_false, Nat.not_lt.mpr hm, if_true]
            exact .ok hdirty hd hp hm
          | failed junk =>
            simp only [hp, ne_eq, not_true_eq_false, if_false, Nat.not_lt.mpr hm, if_true]
            exact .failed _ hdirty hd hp hm (List.length_take_le _ _)
        · simp only [hp, ne_eq, not_true_eq_false, if_false, Nat.not_le.mp hm, if_true]
          exact .beyond hdirty hd hp
      · simp only [ne_eq, hp, not_false_eq_true, if_true]
        exact .refused _ hdirty (fun h => hp h.2)

namespace Frame.WriteBackSpec

variable {frame : Frame} {d : DiskManager} {id : PageId} {w : WroteBack}

theorem pageCount (h : frame.WriteBackSpec d id w) : w.disk.pageCount = d.pageCount := by
  cases h <;> rfl

theorem body (h : frame.WriteBackSpec d id w) : w.frame.page.body = frame.page.body := by
  cases h with
  | clean => rfl
  | refused => rfl
  | beyond => exact Page.seal_body _
  | failed => exact Page.seal_body _
  | ok => exact Page.seal_body _

theorem dirty (h : frame.WriteBackSpec d id w) (hw : w.frame.dirty = true) : frame.dirty = true := by
  cases h with
  | clean hc => exact hw
  | refused _ hd => exact hd
  | beyond hd => exact hd
  | failed _ hd => exact hd
  | ok hd => exact hd

theorem clean_of_ok (h : frame.WriteBackSpec d id w) (hw : w.result = .ok ()) :
    w.frame.dirty = false := by
  cases h with
  | clean hc => exact hc
  | refused => cases hw
  | beyond => cases hw
  | failed => cases hw
  | ok => rfl

theorem written (h : frame.WriteBackSpec d id w) {u : PageId × Page} (hw : w.written = some u) :
    frame.dirty = true ∧ u = (id, frame.page.seal) := by
  cases h with
  | clean => cases hw
  | refused => cases hw
  | beyond hd =>
    injection hw with hw
    exact ⟨hd, hw.symm⟩
  | failed _ hd =>
    injection hw with hw
    exact ⟨hd, hw.symm⟩
  | ok hd =>
    injection hw with hw
    exact ⟨hd, hw.symm⟩

theorem slotOf_ne (h : frame.WriteBackSpec d id w) (hbound : d.pageCount.toNat ≤ 2 ^ 52)
    {id' : PageId} (hne : id' ≠ id) :
    slotOf w.disk.file.contents id' = slotOf d.file.contents id' := by
  have hlt : DataPage d.pageCount id → id.toNat < 2 ^ 52 := fun hd =>
    (UInt64.lt_iff_toNat_lt.mp hd.2).trans_le hbound
  cases h with
  | clean => rfl
  | refused => rfl
  | beyond => rfl
  | failed junk _ hd _ _ hj => exact slotOf_writeAt_ne _ hj (hlt hd) hne
  | ok _ hd => exact slotOf_writeAt_ne _ frame.page.seal.size.le (hlt hd) hne

theorem holds_ne (h : frame.WriteBackSpec d id w) (hbound : d.pageCount.toNat ≤ 2 ^ 52)
    {id' : PageId} {page : Page} (hne : id' ≠ id) (hd : d.Holds id' page) : w.disk.Holds id' page := by
  have hlt : DataPage d.pageCount id → id.toNat < 2 ^ 52 := fun hd =>
    (UInt64.lt_iff_toNat_lt.mp hd.2).trans_le hbound
  refine ⟨hd.1, hd.2.1, ?_⟩
  cases h with
  | clean => exact hd.2.2
  | refused => exact hd.2.2
  | beyond => exact hd.2.2
  | failed junk _ hp _ _ hj => exact readAt_writeAt_ne hj (hlt hp) hne hd.2.2
  | ok _ hp => exact readAt_writeAt_ne frame.page.seal.size.le (hlt hp) hne hd.2.2

theorem holds (h : frame.WriteBackSpec d id w) (hbound : d.pageCount.toNat ≤ 2 ^ 52)
    (hclean : frame.dirty = false → d.Holds id frame.page) (hw : w.frame.dirty = false) :
    w.disk.Holds id w.frame.page := by
  cases h with
  | clean hc => exact hclean hc
  | refused => cases hw
  | beyond => cases hw
  | failed => cases hw
  | ok _ hd =>
    have hlt : id.toNat < 2 ^ 52 := (UInt64.lt_iff_toNat_lt.mp hd.2).trans_le hbound
    exact ⟨hd.1, hlt, readAt_writeAt_eq _ frame.page.seal hlt⟩

end Frame.WriteBackSpec

theorem DiskManager.Holds.slotOf_eq {d : DiskManager} {id : PageId} {page : Page}
    (h : d.Holds id page) : slotOf d.file.contents id = page.data :=
  ((readAt_some_iff _ _ _ _).mp h.2.2).2

namespace Cache

variable {mine : PageId → Prop} {c c' : Cache} {ch : Change}

theorem Step.pageCount (h : Step mine c ch c') : c'.disk.pageCount = c.disk.pageCount := by
  cases h with
  | writeBack wr _ _ => exact (Frame.writeBack_spec _ _ _ _).pageCount
  | evict wr _ _ _ => exact (Frame.writeBack_spec _ _ _ _).pageCount
  | _ => rfl

theorem Step.holds (h : Step mine c ch c') (hbound : c.disk.pageCount.toNat ≤ 2 ^ 52) {id : PageId}
    {page : Page} (hf : c.frame id = none) (hd : c.disk.Holds id page) : c'.disk.Holds id page := by
  have hne : ∀ {id' : PageId} {frame : Frame}, c.frame id' = some frame → id ≠ id' := by
    rintro id' frame hid rfl
    rw [hf] at hid
    cases hid
  cases h with
  | writeBack wr _ hid => exact (Frame.writeBack_spec _ _ _ _).holds_ne hbound (hne hid) hd
  | evict wr _ hid _ => exact (Frame.writeBack_spec _ _ _ _).holds_ne hbound (hne hid) hd
  | _ => exact hd

theorem Coherent.update (hc : c.Coherent) {id : PageId} {x : Option Frame} {disk : DiskManager}
    (hne : ∀ id' page, id' ≠ id → c.disk.Holds id' page → disk.Holds id' page)
    (hx : ∀ frame, x = some frame → frame.dirty = false → disk.Holds id frame.page) :
    Coherent ⟨Function.update c.frame id x, disk⟩ := by
  intro id' frame hf hd
  change Function.update c.frame id x id' = some frame at hf
  rcases eq_or_ne id' id with rfl | h
  · rw [Function.update_self] at hf
    exact hx frame hf hd
  · rw [Function.update_of_ne h] at hf
    exact hne id' frame.page h (hc id' frame hf hd)

theorem Step.coherent (h : Step mine c ch c') (hbound : c.disk.pageCount.toNat ≤ 2 ^ 52)
    (hc : c.Coherent) : c'.Coherent := by
  cases h with
  | quiet => exact hc
  | load _ _ hp _ =>
    refine hc.update (fun _ _ _ h => h) ?_
    rintro _ ⟨⟩ _
    exact hp
  | @writeBack id frame wr _ hid =>
    have hspec := frame.writeBack_spec c.disk id wr
    refine hc.update (fun _ _ hne => hspec.holds_ne hbound hne) ?_
    rintro _ ⟨⟩ hd
    exact hspec.holds hbound (hc id frame hid) hd
  | @evict id frame wr _ hid _ =>
    refine hc.update (fun _ _ hne => (frame.writeBack_spec c.disk id wr).holds_ne hbound hne) ?_
    rintro _ ⟨⟩
  | put =>
    refine hc.update (fun _ _ _ h => h) ?_
    rintro _ ⟨⟩ ⟨⟩
  | mark =>
    refine hc.update (fun _ _ _ h => h) ?_
    rintro _ ⟨⟩ ⟨⟩

theorem content_cached {id : PageId} {frame : Frame} (h : c.frame id = some frame) :
    c.content id = frame.page.body := by rw [content, h]

theorem content_uncached {id : PageId} (h : c.frame id = none) :
    c.content id = (slotOf c.disk.file.contents id).drop 4 := by rw [content, h]

theorem content_congr {id : PageId} (hf : c'.frame id = c.frame id)
    (hs : slotOf c'.disk.file.contents id = slotOf c.disk.file.contents id) :
    c'.content id = c.content id := by rw [content, content, hf, hs]

theorem content_update {id : PageId} {disk : DiskManager} {frame : Frame} {f : PageId → Option Frame} :
    Cache.content ⟨Function.update f id (some frame), disk⟩ id = frame.page.body :=
  content_cached (Function.update_self ..)

theorem Step.content (h : Step mine c ch c') (hbound : c.disk.pageCount.toNat ≤ 2 ^ 52)
    (hc : c.Coherent) {id : PageId} (hu : ∀ page, ch.update ≠ some (id, page)) :
    c'.content id = c.content id := by
  cases h with
  | quiet => rfl
  | @load id' page _ hf hp _ =>
    rcases eq_or_ne id id' with rfl | hne
    · rw [content_update, content_uncached hf, hp.slotOf_eq]
      rfl
    · exact content_congr (Function.update_of_ne hne ..) rfl
  | @writeBack id' frame' wr _ hid' =>
    have hspec := frame'.writeBack_spec c.disk id' wr
    rcases eq_or_ne id id' with rfl | hne
    · rw [content_update, content_cached hid', hspec.body]
    · exact content_congr (Function.update_of_ne hne ..) (hspec.slotOf_ne hbound hne)
  | @evict id' frame' wr _ hid' hok =>
    have hspec := frame'.writeBack_spec c.disk id' wr
    rcases eq_or_ne id id' with rfl | hne
    · have hholds := hspec.holds hbound (hc id frame' hid') (hspec.clean_of_ok hok)
      rw [content_uncached (Function.update_self ..), content_cached hid', hholds.slotOf_eq]
      exact hspec.body
    · exact content_congr (Function.update_of_ne hne ..) (hspec.slotOf_ne hbound hne)
  | @put id' page _ =>
    have hne : id ≠ id' := by
      rintro rfl
      exact hu page rfl
    exact content_congr (Function.update_of_ne hne ..) rfl
  | @mark id' frame' _ hid' =>
    rcases eq_or_ne id id' with rfl | hne
    · rw [content_update, content_cached hid']
    · exact content_congr (Function.update_of_ne hne ..) rfl

theorem Step.content_of_update (h : Step mine c ch c') {id : PageId} {page : Page}
    (hu : ch.update = some (id, page)) : c'.content id = page.body := by
  cases h with
  | put =>
    injection hu with hu
    injection hu with hid hpage
    subst hid hpage
    exact content_update
  | _ => cases hu

end Cache

end OxenDB
