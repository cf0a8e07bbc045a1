import OxenDB.BufferPool.Cache

namespace OxenDB

open Lib

theorem DataFile.writeSlot_length {f : DataFile} {id : PageId} {bs : Bytes} (hf : f.contents.length ≤ maxFileSize)
    (hid : (fileOffset id).toNat + pageSize ≤ maxFileSize) (hbs : bs.length ≤ pageSize) :
    (f.writeSlot id bs).contents.length ≤ maxFileSize := by
  change (writeAt f.contents (fileOffset id).toNat bs).length ≤ maxFileSize
  by_cases hb : bs = []
  · rw [hb, writeAt_nil]
    exact hf
  · rw [writeAt_length _ _ _ hb]
    omega

namespace Frame.WriteBackSpec

variable {frame : Frame} {d : DiskManager} {id : PageId} {w : WroteBack}

theorem clean_eq (h : frame.WriteBackSpec d id w) (hc : frame.dirty = false) :
    w.frame = frame ∧ w.disk = d := by
  cases h with
  | clean => exact ⟨rfl, rfl⟩
  | refused _ hd => rw [hc] at hd; cases hd
  | beyond hd => rw [hc] at hd; cases hd
  | failed _ hd => rw [hc] at hd; cases hd
  | ok hd => rw [hc] at hd; cases hd

theorem page (h : frame.WriteBackSpec d id w) :
    w.frame.page = frame.page ∨ w.frame.page = frame.page.seal := by
  cases h with
  | clean => exact .inl rfl
  | refused => exact .inl rfl
  | beyond => exact .inr rfl
  | failed => exact .inr rfl
  | ok => exact .inr rfl

theorem headers (h : frame.WriteBackSpec d id w) : w.disk.file.headers = d.file.headers := by
  cases h <;> rfl

theorem slots (h : frame.WriteBackSpec d id w) {id' : PageId} (hne : id' ≠ id) :
    w.disk.file.slots id' = d.file.slots id' := by
  cases h with
  | failed => exact Function.update_of_ne hne ..
  | ok => exact Function.update_of_ne hne ..
  | _ => rfl

theorem slots_notLost (h : frame.WriteBackSpec d id w) {id' : PageId} (hl : d.file.slots id' ≠ .lost) :
    w.disk.file.slots id' ≠ .lost := by
  rcases eq_or_ne id' id with rfl | hne
  · cases h with
    | failed =>
      change Function.update d.file.slots id' .written id' ≠ .lost
      rw [Function.update_self]
      decide
    | ok =>
      change Function.update d.file.slots id' .written id' ≠ .lost
      rw [Function.update_self]
      decide
    | _ => exact hl
  · rw [h.slots hne]
    exact hl

theorem fits (h : frame.WriteBackSpec d id w) (hf : d.file.contents.length ≤ maxFileSize) :
    w.disk.file.contents.length ≤ maxFileSize := by
  cases h with
  | failed junk _ _ _ hid hj => exact DataFile.writeSlot_length hf hid hj
  | ok _ _ _ hid => exact DataFile.writeSlot_length hf hid frame.page.seal.size.le
  | _ => exact hf

theorem readAt_ne (h : frame.WriteBackSpec d id w) (hbound : d.pageCount.toNat ≤ 2 ^ 52)
    {id' : PageId} {bs : Bytes} (hne : id' ≠ id)
    (hr : readAt d.file.contents (slotOffset id') pageSize = some bs) :
    readAt w.disk.file.contents (slotOffset id') pageSize = some bs := by
  have hlt : DataPage d.pageCount id → id.toNat < 2 ^ 52 := fun hd =>
    (UInt64.lt_iff_toNat_lt.mp hd.2).trans_le hbound
  cases h with
  | failed junk _ hp _ _ hj => exact readAt_writeAt_ne hj (hlt hp) hne hr
  | ok _ hp => exact readAt_writeAt_ne frame.page.seal.size.le (hlt hp) hne hr
  | _ => exact hr

theorem not_header (h : frame.WriteBackSpec d PageId.HEADER w) : w.disk = d := by
  cases h with
  | beyond _ hd => exact absurd rfl hd.1
  | failed _ _ hd => exact absurd rfl hd.1
  | ok _ hd => exact absurd rfl hd.1
  | _ => rfl

end Frame.WriteBackSpec

namespace Cache

variable {mine : PageId → Prop} {c c' : Cache} {ch : Change}

def Clean (c : Cache) (id : PageId) : Prop := ∀ frame, c.frame id = some frame → frame.dirty = false

def Shows (c : Cache) (id : PageId) (page : Page) : Prop :=
  match c.frame id with
  | some frame => frame.page = page
  | none => c.disk.Holds id page

theorem shows_cached {id : PageId} {page : Page} {frame : Frame} (hf : c.frame id = some frame) :
    c.Shows id page ↔ frame.page = page := by rw [Shows, hf]

theorem shows_uncached {id : PageId} {page : Page} (hf : c.frame id = none) :
    c.Shows id page ↔ c.disk.Holds id page := by rw [Shows, hf]

theorem Shows.holds {id : PageId} {page : Page} (h : c.Shows id page) (hc : c.Coherent)
    (hclean : c.Clean id) : c.disk.Holds id page := by
  cases hf : c.frame id with
  | none => exact (shows_uncached hf).mp h
  | some frame =>
    rw [← (shows_cached hf).mp h]
    exact hc id frame hf (hclean frame hf)

theorem Shows.mono {id : PageId} {page : Page} {disk : DiskManager} (h : c.Shows id page)
    (hd : c.disk.Holds id page → disk.Holds id page) : Shows ⟨c.frame, disk⟩ id page := by
  cases hf : c.frame id with
  | none => exact (shows_uncached (c := ⟨c.frame, disk⟩) hf).mpr (hd ((shows_uncached hf).mp h))
  | some frame => exact (shows_cached (c := ⟨c.frame, disk⟩) hf).mpr ((shows_cached hf).mp h)

theorem shows_update {f : PageId → Option Frame} {disk : DiskManager} {id : PageId} {page : Page}
    {frame : Frame} (h : frame.page = page) : Shows ⟨Function.update f id (some frame), disk⟩ id page :=
  (shows_cached (c := ⟨Function.update f id (some frame), disk⟩) (Function.update_self ..)).mpr h

theorem Shows.update_ne {id id' : PageId} {page : Page} {disk : DiskManager} {x : Option Frame}
    (h : c.Shows id page) (hne : id ≠ id') (hd : c.disk.Holds id page → disk.Holds id page) :
    Shows ⟨Function.update c.frame id' x, disk⟩ id page := by
  unfold Shows at h ⊢
  simp only [Function.update_of_ne hne]
  split at h
  · exact h
  · exact hd h

theorem Step.shows (h : Step mine c ch c') (hbound : c.disk.pageCount.toNat ≤ 2 ^ 52)
    (hc : c.Coherent) {id : PageId} {page : Page} (hs : page.seal = page)
    (hu : ∀ page, ch.update ≠ some (id, page)) (hshow : c.Shows id page) : c'.Shows id page := by
  have hwritten : ∀ {frame : Frame} {w : Frame.WroteBack}, frame.WriteBackSpec c.disk id w →
      frame.page = page → w.frame.page = page := by
    intro frame w hspec hp
    rcases hspec.page with hw | hw
    · rw [hw, hp]
    · rw [hw, hp, hs]
  cases h with
  | quiet => exact hshow
  | @load id' page' _ hf hp _ =>
    rcases eq_or_ne id id' with rfl | hne
    · have hold := (shows_uncached hf).mp hshow
      refine shows_update (Page.ext ?_)
      rw [← hp.slotOf_eq, hold.slotOf_eq]
    · exact hshow.update_ne hne (fun h => h)
  | @writeBack id' frame' wr _ hid' =>
    have hspec := frame'.writeBack_spec c.disk id' wr
    rcases eq_or_ne id id' with rfl | hne
    · exact shows_update (hwritten hspec ((shows_cached hid').mp hshow))
    · exact hshow.update_ne hne (hspec.holds_ne hbound hne)
  | @evict id' frame' wr _ hid' hok =>
    have hspec := frame'.writeBack_spec c.disk id' wr
    rcases eq_or_ne id id' with rfl | hne
    · have hholds := hspec.holds hbound (hc id frame' hid') (hspec.clean_of_ok hok)
      rw [hwritten hspec ((shows_cached hid').mp hshow)] at hholds
      refine (shows_uncached ?_).mpr hholds
      exact Function.update_self ..
    · exact hshow.update_ne hne (hspec.holds_ne hbound hne)
  | @put id' page' _ =>
    have hne : id ≠ id' := by
      rintro rfl
      exact hu page' rfl
    exact hshow.update_ne hne (fun h => h)
  | @mark id' frame' _ hid' =>
    rcases eq_or_ne id id' with rfl | hne
    · exact shows_update ((shows_cached hid').mp hshow)
    · exact hshow.update_ne hne (fun h => h)

theorem Step.shows_of_update (h : Step mine c ch c') {id : PageId} {page : Page}
    (hu : ch.update = some (id, page)) : c'.Shows id page := by
  cases h with
  | put =>
    injection hu with hu
    injection hu with hid hpage
    subst hid hpage
    exact shows_update rfl
  | _ => cases hu

theorem Step.dirty (h : Step mine c ch c') (hm : ch.marked = none) {id : PageId} {frame' : Frame}
    (hf : c'.frame id = some frame') (hd : frame'.dirty = true) :
    ch.update = some (id, frame'.page) ∨ ∃ frame, c.frame id = some frame ∧ frame.dirty = true ∧
      (frame'.page = frame.page ∨ frame'.page = frame.page.seal) := by
  have hother : ∀ {id' : PageId} {x : Option Frame}, id ≠ id' →
      Function.update c.frame id' x id = some frame' → ∃ frame, c.frame id = some frame ∧
        frame.dirty = true ∧ (frame'.page = frame.page ∨ frame'.page = frame.page.seal) := by
    intro id' x hne hf
    rw [Function.update_of_ne hne] at hf
    exact ⟨frame', hf, hd, .inl rfl⟩
  cases h with
  | quiet => exact .inr ⟨frame', hf, hd, .inl rfl⟩
  | @load id' page _ _ _ _ =>
    rcases eq_or_ne id id' with rfl | hne
    · cases (Function.update_self id _ c.frame).symm.trans hf
      cases hd
    · exact .inr (hother hne hf)
  | @writeBack id' frame wr _ hid' =>
    rcases eq_or_ne id id' with rfl | hne
    · have hspec := frame.writeBack_spec c.disk id wr
      injection (Function.update_self id _ c.frame).symm.trans hf with hf
      subst hf
      exact .inr ⟨frame, hid', hspec.dirty hd, hspec.page⟩
    · exact .inr (hother hne hf)
  | @evict id' frame wr _ hid' _ =>
    rcases eq_or_ne id id' with rfl | hne
    · cases (Function.update_self id none c.frame).symm.trans hf
    · exact .inr (hother hne hf)
  | @put id' page _ =>
    rcases eq_or_ne id id' with rfl | hne
    · injection (Function.update_self id _ c.frame).symm.trans hf with hf
      subst hf
      exact .inl rfl
    · exact .inr (hother hne hf)
  | mark => cases hm

theorem Step.clean (h : Step mine c ch c') (hm : ch.marked = none) {id : PageId}
    (hu : ∀ page, ch.update ≠ some (id, page)) (hc : c.Clean id) : c'.Clean id := by
  intro frame' hf
  by_contra hd
  rcases h.dirty hm hf (Bool.eq_true_of_not_eq_false hd) with he | ⟨frame, hframe, hdirty, -⟩
  · exact hu _ he
  · rw [hc frame hframe] at hdirty
    cases hdirty

theorem Step.written (h : Step mine c ch c') {u : PageId × Page} (hw : ch.written = some u) :
    ∃ frame, c.frame u.1 = some frame ∧ frame.dirty = true ∧ u.2 = frame.page.seal := by
  cases h with
  | @writeBack id frame wr _ hf =>
    obtain ⟨hd, rfl⟩ := (frame.writeBack_spec c.disk id wr).written hw
    exact ⟨frame, hf, hd, rfl⟩
  | @evict id frame wr _ hf _ =>
    obtain ⟨hd, rfl⟩ := (frame.writeBack_spec c.disk id wr).written hw
    exact ⟨frame, hf, hd, rfl⟩
  | _ => cases hw

theorem Step.fits (h : Step mine c ch c') (hf : c.disk.file.contents.length ≤ maxFileSize) :
    c'.disk.file.contents.length ≤ maxFileSize := by
  cases h with
  | @writeBack id frame wr _ _ => exact (frame.writeBack_spec c.disk id wr).fits hf
  | @evict id frame wr _ _ _ => exact (frame.writeBack_spec c.disk id wr).fits hf
  | _ => exact hf

theorem Step.headers (h : Step mine c ch c') : c'.disk.file.headers = c.disk.file.headers := by
  cases h with
  | @writeBack id frame wr _ _ => exact (frame.writeBack_spec c.disk id wr).headers
  | @evict id frame wr _ _ _ => exact (frame.writeBack_spec c.disk id wr).headers
  | _ => rfl

theorem Step.notLost (h : Step mine c ch c') {id : PageId} (hl : c.disk.file.slots id ≠ .lost) :
    c'.disk.file.slots id ≠ .lost := by
  cases h with
  | @writeBack id frame wr _ _ => exact (frame.writeBack_spec c.disk id wr).slots_notLost hl
  | @evict id frame wr _ _ _ => exact (frame.writeBack_spec c.disk id wr).slots_notLost hl
  | _ => exact hl

theorem Step.stable (h : Step mine c ch c') (hbound : c.disk.pageCount.toNat ≤ 2 ^ 52) {id : PageId}
    (hc : c.Clean id ∨ id = PageId.HEADER) : c'.disk.file.slots id = c.disk.file.slots id ∧
      ∀ bs, readAt c.disk.file.contents (slotOffset id) pageSize = some bs →
        readAt c'.disk.file.contents (slotOffset id) pageSize = some bs := by
  have hwrite : ∀ {id' : PageId} {frame : Frame} {w : Frame.WroteBack}, c.frame id' = some frame →
      frame.WriteBackSpec c.disk id' w → w.disk.file.slots id = c.disk.file.slots id ∧
        ∀ bs, readAt c.disk.file.contents (slotOffset id) pageSize = some bs →
          readAt w.disk.file.contents (slotOffset id) pageSize = some bs := by
    intro id' frame w hf hspec
    rcases eq_or_ne id id' with rfl | hne
    · have hdisk : w.disk = c.disk := by
        rcases hc with hc | rfl
        · exact (hspec.clean_eq (hc frame hf)).2
        · exact hspec.not_header
      rw [hdisk]
      exact ⟨rfl, fun _ h => h⟩
    · exact ⟨hspec.slots hne, fun _ => hspec.readAt_ne hbound hne⟩
  cases h with
  | @writeBack id' frame wr _ hf => exact hwrite hf (frame.writeBack_spec c.disk id' wr)
  | @evict id' frame wr _ hf _ => exact hwrite hf (frame.writeBack_spec c.disk id' wr)
  | _ => exact ⟨rfl, fun _ h => h⟩

end Cache

end OxenDB
