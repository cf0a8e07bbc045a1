import OxenDB.Database.Sealed
import OxenDB.Database.ReadTxns

namespace OxenDB

open Lib

namespace Page

/-- A change through the methods that leave the page type, the page id and the reserved bytes alone. -/
inductive Edit : Page → Page → Prop
  | payload (p : Page) (off : ℕ) (bs : Bytes) (h : pageHeaderSize + off + bs.length ≤ pageSize) :
      Edit p (p.setPayload off bs h)
  | lsn (p : Page) (lsn : UInt64) : Edit p (p.setLsn lsn)

def typeByte (p : Page) : UInt8 := p.data.getD 4 0

variable {p q : Page} {id : PageId} {header header' : PageHeader}

theorem patch_getD {off : ℕ} {bs : Bytes} (h : off + bs.length ≤ pageSize) {i : ℕ} (hi : i < off) :
    (p.patch off bs h).data.getD i 0 = p.data.getD i 0 := by
  change (writeAt p.data off bs).getD i 0 = _
  rw [writeAt_getD, if_neg (by omega)]

theorem Edit.getD (h : Edit p q) {i : ℕ} (hi : i < 16) : q.data.getD i 0 = p.data.getD i 0 := by
  cases h with
  | payload off bs h => exact patch_getD h (by rw [pageHeaderSize]; omega)
  | lsn lsn => exact patch_getD _ hi

theorem Edit.slice_eq (h : Edit p q) {off n : ℕ} (hn : off + n ≤ 16) : slice q.data off n = slice p.data off n :=
  slice_congr _ _ _ _ (fun i hi => h.getD (by omega))

theorem Edit.typeByte (h : Edit p q) : q.typeByte = p.typeByte := h.getD (by decide)

theorem Edit.pageId (h : Edit p q) : q.pageId = p.pageId := by
  rw [Page.pageId, u64At, h.slice_eq (by decide)]
  rfl

theorem Edit.decodes (h : Edit p q) (hd : p.decodeHeader id = .ok header) :
    ∃ header', q.decodeHeader id = .ok header' := by
  rw [decodeHeader.eq_def] at hd ⊢
  rw [h.getD (by decide), h.slice_eq (by decide)]
  cases ht : PageType.tryFrom (p.data.getD 4 0) with
  | error raw => rw [ht] at hd; cases hd
  | ok ty =>
    rw [ht] at hd
    simp only at hd ⊢
    split_ifs at hd ⊢
    exact ⟨_, rfl⟩

theorem Edit.valid (h : Edit p q) (hv : p.seal.Valid id) : q.seal.Valid id := by
  obtain ⟨-, hid, header, hd⟩ := (verify_ok_iff _ _).mp hv
  rw [seal_pageId] at hid
  rw [seal_decodeHeader] at hd
  refine (verify_ok_iff _ _).mpr ⟨seal_seal q, ?_, ?_⟩
  · rw [seal_pageId, h.pageId, hid]
  · rw [seal_decodeHeader]
    exact h.decodes hd

theorem Valid.sealed (h : p.Valid id) : p.seal.Valid id := by rwa [h.seal_eq]

theorem verify_header (h : p.verify id = .ok header) : p.decodeHeader id = .ok header ∧ header.pageId = id := by
  rw [verify.eq_def] at h
  simp only at h
  split_ifs at h
  cases hd : p.decodeHeader id with
  | error e => rw [hd] at h; cases h
  | ok header' =>
    rw [hd] at h
    simp only at h
    split_ifs at h with hne
    cases h
    exact ⟨rfl, not_not.mp hne⟩

theorem decodeHeader_pageType (h : p.decodeHeader id = .ok header) :
    PageType.tryFrom p.typeByte = .ok header.pageType := by
  rw [decodeHeader.eq_def] at h
  rw [typeByte]
  cases ht : PageType.tryFrom (p.data.getD 4 0) with
  | error raw => rw [ht] at h; cases h
  | ok ty =>
    rw [ht] at h
    simp only at h
    split_ifs at h
    cases h
    rfl

theorem seal_payload (p : Page) : p.seal.payload = p.payload := by
  have hd : ∀ q : Page, q.payload = q.body.drop 20 := fun q => by rw [payload, body, List.drop_drop]; rfl
  rw [hd, hd, seal_body]

theorem seal_typeByte (p : Page) : p.seal.typeByte = p.typeByte := p.seal_getD 4 le_rfl

end Page

def WriteTxn.Each (w : WriteTxn) (P : PageId → Page → Prop) : Prop :=
  ∀ (id : PageId) (page : Page), w.dirty[id]? = some page → P id page

theorem WriteTxn.Each.insert {w : WriteTxn} {P : PageId → Page → Prop} (h : w.Each P) {id : PageId} {page : Page}
    (hp : P id page) (count : UInt64) : WriteTxn.Each ⟨w.dirty.insert id page, count⟩ P := by
  intro id' page' hd
  simp only at hd
  rw [insert_getElem?] at hd
  split_ifs at hd with hid
  · cases hd
    exact hid ▸ hp
  · exact h id' page' hd

def Holder.Drafts (P : WriteTxn → Prop) (Q : Commit → Prop) : Holder → Prop
  | .writer w => P w
  | .logging c => Q c
  | .flushing c => Q c
  | _ => True

theorem Holder.AfterCall.drafts {r : Option (Owner × PageId × Except Error Unit)} {holder holder' : Holder}
    (h : AfterCall r holder holder') {P : WriteTxn → Prop} {Q : Commit → Prop} (hd : holder.Drafts P Q) :
    holder'.Drafts P Q := by
  cases h with
  | same => exact hd
  | installed | installFailed | flushed | flushFailed => trivial

namespace Database

def EditsPayload (db : Database) (e : Event) : Prop :=
  ∀ id page, e = .edited id page →
    ∃ w old, db.holder = .writer w ∧ w.dirty[id]? = some old ∧ old.Edit page

variable {db db' : Database} {e : Event} {P : WriteTxn → Prop} {Q : Commit → Prop}

theorem Step.drafts (hs : Step db e db') (h : db.holder.Drafts P Q)
    (hbegin : db.holder = .free → db.checkPoisoned = .ok () → P ⟨∅, db.pool.disk.pageCount⟩)
    (hallocate : ∀ w ty, db.holder = .writer w → P w → P (w.allocatePage ty).2)
    (hcopy : ∀ w i k n id page label pool, db.holder = .writer w → w.dirty[id]? = none →
      db.pool.step (.guard i k .read) = some (pool, label) → label.read = some (.writer n, id, page) →
      e = .copied id page → P w → P (w.put id page))
    (hedit : ∀ w id page, db.holder = .writer w → e = .edited id page → P w → P (w.put id page))
    (hlog : ∀ w pages, db.holder = .writer w → sealPages w.dirty.toList = .ok pages → P w →
      Q (w.toCommit db.nextTxn db.pool.disk.pageCount pages)) : db'.holder.Drafts P Q := by
  have hold : ∀ {holder : Holder}, db.holder = holder → holder.Drafts P Q := fun hh => hh ▸ h
  cases hs with
  | pool => exact (Holder.afterCall_spec _ _).drafts h
  | writeLock _ hh hp => exact hbegin hh hp
  | allocatePage ty hh => exact hallocate _ ty hh (hold hh)
  | copyPage hh hd hp hr => exact hcopy _ _ _ _ _ _ _ _ hh hd hp hr rfl (hold hh)
  | editPage page hh => exact hedit _ _ _ hh rfl (hold hh)
  | commitLog hh _ _ hseal => exact hlog _ _ hh hseal (hold hh)
  | @walWrite c hh =>
    have hq : Q c := hold hh
    exact hq
  | refuse | beginRead | readLock | readDrop | readCount | readOutside | beginWrite | writeLockPoisoned
  | writerCount | writerOutside | readDirty | beginCheckpoint => exact h
  | _ => trivial

def Formed (db : Database) : Prop :=
  db.holder.Drafts (fun w => w.Each (fun id page => page.seal.Valid id)) (fun _ => True)

theorem Formed.step (h : db.Formed) (he : e.Sealed) (hedit : EditsPayload db e) (hs : Step db e db') :
    db'.Formed := by
  refine hs.drafts h ?_ ?_ ?_ ?_ (fun _ _ _ _ _ => trivial)
  · intro _ _ id page hd
    simp at hd
  · intro w ty _ hw
    exact hw.insert (Page.new_valid _ ty) _
  · rintro w _ _ _ id page _ _ _ _ _ _ rfl hw
    exact hw.insert (Page.Valid.sealed he) _
  · rintro w id page hh rfl hw
    obtain ⟨w', old, hh', hd, hold⟩ := hedit id page rfl
    cases hh.symm.trans hh'
    exact hw.insert (hold.valid (hw id old hd)) _

theorem Formed.seals {w : WriteTxn} (h : db.Formed) (hh : db.holder = .writer w) :
    sealPages w.dirty.toList = .ok (w.dirty.toList.map (fun u => (u.1, u.2.seal))) := by
  rw [Formed, hh] at h
  exact sealPages_valid (fun u hu => h u.1 u.2 (Std.TreeMap.mem_toList_iff_getElem?_eq_some.mp hu))

theorem Formed.not_rejected (h : db.Formed) (hs : Step db e db') {err : Error} : e ≠ .rejected err := by
  rintro rfl
  cases hs with
  | commitMalformed hh _ hseal => cases (h.seals hh).symm.trans hseal

/-- A transaction that changes its pages only through `payload_mut` and `set_lsn` is never refused as
malformed, whatever the transactions before it did and on a disk that rots as on any other: sealing succeeds
whenever it commits, and logs every page with the header and the payload of its private copy. -/
theorem payload_edits_commit {path : DbPath} {data wal : Option Bytes} {options : Options} {db₀ db₁ db₂ : Database}
    {es es' : List Event} (ho : Database.open path data wal options = .ok db₀) (hr : Run Decay db₀ es db₁)
    (hb : Step db₁ .writeBegan db₂) (hr' : Run (Restrict Decay EditsPayload) db₂ es' db) :
    (∀ err, Event.rejected err ∉ es') ∧
    ∀ w, db.holder = .writer w → ∃ pages, sealPages w.dirty.toList = .ok pages ∧
      ∀ (id : PageId) (page : Page), w.dirty[id]? = some page → (id, page.seal) ∈ pages ∧
        page.seal.payload = page.payload ∧
        ∃ header, page.decodeHeader id = .ok header ∧ page.seal.verify id = .ok header ∧ header.pageId = id := by
  have hrun := hr'.invariant (I := fun es db => db.Sealed ∧ db.Formed ∧ ∀ err, Event.rejected err ∉ es)
    ⟨(sealed_run ho (hr.step (.step hb))).1, ?_, ?_⟩ ?_
  · obtain ⟨-, hformed, hnone⟩ := hrun
    refine ⟨hnone, fun w hh => ⟨_, hformed.seals hh, fun id page hd => ?_⟩⟩
    refine ⟨List.mem_map.mpr ⟨(id, page), Std.TreeMap.mem_toList_iff_getElem?_eq_some.mpr hd, rfl⟩,
      page.seal_payload, ?_⟩
    rw [Formed, hh] at hformed
    obtain ⟨header, hv⟩ := hformed id page hd
    obtain ⟨hdec, hid⟩ := Page.verify_header hv
    rw [Page.seal_decodeHeader] at hdec
    exact ⟨header, hdec, hv, hid⟩
  · cases hb with
    | writeLock =>
      intro id page hd
      simp at hd
  · simp
  · rintro ls s l s' - ⟨hsealed, hformed, hnone⟩ ⟨hstep, hedit⟩
    obtain ⟨hsealed', hl⟩ := hsealed.decay hstep
    cases hstep with
    | step hstep =>
      refine ⟨hsealed', hformed.step hl hedit hstep, fun err hm => ?_⟩
      rcases List.mem_append.mp hm with hm | hm
      · exact hnone err hm
      · exact hformed.not_rejected hstep (List.mem_singleton.mp hm).symm
    | rot =>
      refine ⟨hsealed', hformed, fun err hm => ?_⟩
      rcases List.mem_append.mp hm with hm | hm
      · exact hnone err hm
      · cases List.mem_singleton.mp hm

def firstPayload : Page := (Page.new 1 .heap).setPayload 0 [7] (by decide)

theorem payload_edits_commit_second : ∃ es es' db₁ db₂ db w pages, Run Decay smallest es db₁ ∧
    Event.edited 1 Page.zeroed ∈ es ∧ Step db₁ .writeBegan db₂ ∧ Run (Restrict Decay EditsPayload) db₂ es' db ∧
    Event.edited 1 firstPayload ∈ es' ∧ db.holder = .writer w ∧ sealPages w.dirty.toList = .ok pages ∧
    (1, firstPayload.seal) ∈ pages ∧ firstPayload.seal.payload = firstPayload.payload := by
  have hzeroed : Step { smallest with holder := .writer firstWrite } (.edited 1 Page.zeroed) _ :=
    .editPage Page.zeroed rfl (Option.some_ne_none _) firstWrite_idle
  have hback := ((firstWrite_run.step hzeroed).step (.rollback rfl (smallest_idle rfl))).step (.beginWrite rfl)
  have hbegan : Step { smallest with waitingWrites := 1 } .writeBegan { smallest with holder := .writer ⟨∅, 1⟩ } :=
    .writeLock Nat.one_pos rfl rfl
  have hallocated : Run (Restrict Decay EditsPayload) { smallest with holder := .writer ⟨∅, 1⟩ } [.allocated .heap]
      { smallest with holder := .writer firstWrite } :=
    Run.start.step ⟨.step (.allocatePage .heap rfl (smallest_idle rfl)), by simp [EditsPayload]⟩
  have hedit : EditsPayload { smallest with holder := .writer firstWrite } (.edited 1 firstPayload) := by
    rintro _ _ ⟨⟩
    exact ⟨firstWrite, Page.new 1 .heap, rfl, rfl, .payload _ 0 [7] (by decide)⟩
  have hrun := hallocated.step ⟨.step (.editPage firstPayload rfl (Option.some_ne_none _) firstWrite_idle), hedit⟩
  have hdecay : Run Decay smallest _ { smallest with waitingWrites := 1 } :=
    hback.mono (fun _ _ _ h => Decay.step h)
  obtain ⟨pages, hseal, hpages⟩ := (payload_edits_commit smallest_open hdecay hbegan hrun).2 _ rfl
  have hpage := hpages 1 firstPayload rfl
  exact ⟨_, _, _, _, _, _, pages, hdecay, by simp, hbegan, hrun, by simp, rfl, hseal, hpage.1, hpage.2.1⟩

end Database

structure PageMap.KeepsTypes (m m' : PageMap) : Prop where
  count : m.count ≤ m'.count
  types : ∀ id, DataPage m.count id → (m'.page id).typeByte = (m.page id).typeByte

theorem PageMap.KeepsTypes.trans {m m' m'' : PageMap} (h : m.KeepsTypes m') (h' : m'.KeepsTypes m'') :
    m.KeepsTypes m'' where
  count := UInt64.le_trans h.count h'.count
  types id hid := (h'.types id ⟨hid.1, UInt64.lt_of_lt_of_le hid.2 h.count⟩).trans (h.types id hid)

def WriteTxn.Typed (m : PageMap) (w : WriteTxn) : Prop :=
  ∃ n, w.Over m n ∧ (m.count.toNat + n < 2 ^ 64 →
    w.Each (fun id page => DataPage m.count id → page.typeByte = (m.page id).typeByte))

def Commit.Typed (m : PageMap) (c : Commit) : Prop :=
  ∃ n, c.Proposes m n ∧ (m.count.toNat + n < 2 ^ 64 →
    ∀ u ∈ c.pages, DataPage m.count u.1 → u.2.typeByte = (m.page u.1).typeByte)

def Database.Typed (h : History) (db : Database) : Prop :=
  db.holder.Drafts (WriteTxn.Typed h.log.current) (Commit.Typed h.log.current)

namespace WriteTxn.Typed

variable {m : PageMap} {w : WriteTxn} {id : PageId} {page : Page}

theorem new (m : PageMap) : WriteTxn.Typed m ⟨∅, m.count⟩ :=
  ⟨0, .new m, fun _ id page hd => by simp at hd⟩

theorem allocatePage (h : w.Typed m) (ty : PageType) : WriteTxn.Typed m (w.allocatePage ty).2 := by
  obtain ⟨n, hover, hw⟩ := h
  refine ⟨n + 1, hover.allocatePage ty, fun hn => (hw (by omega)).insert (fun hid => ?_) _⟩
  have hlt := UInt64.lt_iff_toNat_lt.mp hid.2
  rw [hover.count, UInt64.toNat_add, UInt64.toNat_ofNat'] at hlt
  omega

theorem put (h : w.Typed m) (hid : DataPage m.count id ∨ id ∈ w.dirty)
    (hp : w.Each (fun id page => DataPage m.count id → page.typeByte = (m.page id).typeByte) →
      DataPage m.count id → page.typeByte = (m.page id).typeByte) : WriteTxn.Typed m (w.put id page) := by
  obtain ⟨n, hover, hw⟩ := h
  exact ⟨n, hover.put page hid, fun hn => (hw hn).insert (hp (hw hn)) _⟩

theorem toCommit (h : w.Typed m) {pages : List (PageId × Page)} (hp : sealPages w.dirty.toList = .ok pages)
    (txn : TxnId) : Commit.Typed m (w.toCommit txn m.count pages) := by
  obtain ⟨n, hover, hw⟩ := h
  refine ⟨n, hover.proposes hp txn, fun hn u hu hid => ?_⟩
  change u ∈ pages at hu
  rw [(sealPages_ok hp).1] at hu
  obtain ⟨⟨id, page⟩, hd, rfl⟩ := List.mem_map.mp hu
  rw [Page.seal_typeByte]
  exact hw hn id page (Std.TreeMap.mem_toList_iff_getElem?_eq_some.mp hd) hid

end WriteTxn.Typed

theorem Commit.Typed.keepsTypes {m : PageMap} {c : Commit} (h : c.Typed m) (hc : c.Extends m)
    (hm : m.count.toNat < 2 ^ 52) (hlen : c.pages.length < 2 ^ 53) : m.KeepsTypes (m.commit c) := by
  obtain ⟨n, hprop, hpages⟩ := h
  have hn := hprop.allocated_le (by omega)
  refine ⟨hc.count_le, fun id hid => ?_⟩
  change (overlay m.page c.pages id).typeByte = _
  by_cases hk : id ∈ c.pages.map Prod.fst
  · obtain ⟨u, hu, rfl⟩ := List.mem_map.mp hk
    rw [overlay_of_nodup m.page c.pages hc.nodup u.1 u.2 hu]
    exact hpages (by omega) u hu hid
  · rw [overlay_of_not_mem _ _ _ hk]

namespace Database

variable {m₀ : PageMap} {h : History} {db₀ db db' : Database} {e : Event} {es es' : List Event}

theorem record_current (h : History) (hs : Step db e db') : (h.record e).log.current = h.log.current ∨
    ∀ P Q, db'.holder.Drafts P Q := by
  cases e with
  | durable c => cases hs with | walSync => exact .inr (fun _ _ => trivial)
  | resetDone auto => cases hs with | resetSync => exact .inr (fun _ _ => trivial)
  | poisoned f => cases f <;> exact .inl rfl
  | _ => exact .inl rfl

theorem Typed.step (ht : db.Typed h) (hi : Inv m₀ h db) (hedit : EditsPayload db e) (hs : Step db e db') :
    db'.Typed (h.record e) := by
  rcases record_current h hs with hcurrent | hnone
  · rw [Typed, hcurrent]
    refine hs.drafts ht ?_ ?_ ?_ ?_ ?_
    · intro hh hp
      rw [(pageCounted_settled hh trivial).mp hi.stored.counts.counted (hi.logged.not_stuck (checkPoisoned_ok.mp hp))]
      exact .new _
    · intro w ty _ hw
      exact hw.allocatePage ty
    · intro w i k n id page label pool hh hd hp hread _ hw
      have hunbroken : Unbroken h db :=
        ⟨hi.logged.not_stuck (hi.locks.healthy (by rw [hh]; trivial)), fun c hc => by cases hh.symm.trans hc⟩
      obtain ⟨-, hid, hpage⟩ := hi.handle_read hunbroken hp hread
      rw [hh] at hid hpage
      exact hw.put (.inl hid) (fun _ _ => congrArg Page.typeByte hpage)
    · rintro w id page hh rfl hw
      obtain ⟨w', old, hh', hd, hold⟩ := hedit id page rfl
      cases hh.symm.trans hh'
      refine hw.put (.inr ?_) (fun heach hid => hold.typeByte.trans (heach id old hd hid))
      rw [Std.TreeMap.mem_iff_isSome_getElem?, hd]
      rfl
    · intro w pages hh hseal hw
      rw [hi.logged.writer_count hi.locks hi.stored.counts hh]
      exact hw.toCommit hseal _
  · exact hnone _ _

theorem Typed.keepsTypes (ht : db.Typed h) (hi : Inv m₀ h db) (hs : Step db e db') :
    (m₀.commits h.all).KeepsTypes (m₀.commits (h.record e).all) := by
  have hrefl : (m₀.commits h.all).KeepsTypes (m₀.commits h.all) := ⟨UInt64.le_refl _, fun _ _ => rfl⟩
  cases e with
  | durable c =>
    cases hs with
    | walSync hh =>
      have hphase := hi.logged.phase
      rw [hh] at hphase
      obtain ⟨hbusy, hroom, -⟩ := hphase
      rw [Typed, hh] at ht
      have hext := hbusy.pending.extends hi.logged.wellFormed hi.logged.small hroom
      have hpages := Log.pages_lt hroom
      rw [Log.push, List.flatMap_append, List.length_append, List.flatMap_singleton] at hpages
      change (m₀.commits h.all).KeepsTypes (m₀.commits (h.all ++ [c]))
      rw [PageMap.commits_append, hi.logged.whole]
      exact Commit.Typed.keepsTypes ht hext hi.logged.small (by omega)
  | poisoned f => cases f <;> exact hrefl
  | _ => exact hrefl

theorem typed_run (hs : db₀.Starts m₀) (hr : Run (Restrict Step EditsPayload) db₀ es db) :
    db.Typed (History.of m₀ db₀.wal.nextSeq es) := by
  apply hr.invariant (I := fun es db => db.Typed (History.of m₀ db₀.wal.nextSeq es))
  · obtain ⟨o, n, auto, pool, -, -, rfl⟩ := hs.eq
    trivial
  · rintro ls s l s' hls ht ⟨hstep, hedit⟩
    rw [History.of_snoc]
    exact ht.step (Inv.run hs (hls.mono (fun _ _ _ h => h.1))) hedit hstep

/-- A page keeps the type it was allocated with: as long as transactions change pages only through
`payload_mut` and `set_lsn`, no later commit gives another type to a page of the database. -/
theorem page_type_never_changes (hs : db₀.Starts m₀) (hr : Run (Restrict Step EditsPayload) db₀ es db)
    (hr' : Run (Restrict Step EditsPayload) db es' db') (id : PageId)
    (hid : DataPage (m₀.commits (History.of m₀ db₀.wal.nextSeq es).all).count id) {header header' : PageHeader}
    (hv : ((m₀.commits (History.of m₀ db₀.wal.nextSeq es).all).page id).verify id = .ok header)
    (hv' : ((m₀.commits (History.of m₀ db₀.wal.nextSeq (es ++ es')).all).page id).verify id = .ok header') :
    header'.pageType = header.pageType := by
  have hkeeps := hr'.invariant (I := fun es' _ => (m₀.commits (History.of m₀ db₀.wal.nextSeq es).all).KeepsTypes
    (m₀.commits (History.of m₀ db₀.wal.nextSeq (es ++ es')).all)) ?_ ?_
  · have ht := Page.decodeHeader_pageType (Page.verify_header hv).1
    have ht' := Page.decodeHeader_pageType (Page.verify_header hv').1
    rw [hkeeps.types id hid, ht] at ht'
    injection ht' with ht'
    exact ht'.symm
  · rw [List.append_nil]
    exact ⟨UInt64.le_refl _, fun _ _ => rfl⟩
  · rintro ls s l s' hls hkeeps ⟨hstep, -⟩
    have hrun := hr.trans hls
    rw [← List.append_assoc, History.of_snoc]
    exact hkeeps.trans ((typed_run hs hrun).keepsTypes (Inv.run hs (hrun.mono (fun _ _ _ h => h.1))) hstep)

section Rewritten

def rewrittenPage : Page := firstPage.setPayload 0 [7] (by decide)

def rewrite : WriteTxn := WriteTxn.put (WriteTxn.put ⟨∅, 2⟩ 1 firstPage) 1 rewrittenPage

def rewriteCommit : Commit := ⟨2, 2, false, [(1, rewrittenPage.seal)]⟩

theorem rewrittenPage_valid : rewrittenPage.seal.Valid 1 :=
  (Page.Edit.payload firstPage 0 [7] (by decide)).valid firstPage_valid.sealed

theorem rewrite_seals : sealPages rewrite.dirty.toList = .ok [(1, rewrittenPage.seal)] := by
  have hlist : rewrite.dirty.toList = [(1, rewrittenPage)] := rfl
  rw [hlist, sealPages_valid]
  · rfl
  · intro u hu
    rw [List.mem_singleton.mp hu]
    exact rewrittenPage_valid

theorem rewrittenPage_edits {db : Database} (hh : db.holder = .writer (WriteTxn.put ⟨∅, 2⟩ 1 firstPage)) :
    EditsPayload db (.edited 1 rewrittenPage) := by
  rintro _ _ ⟨⟩
  exact ⟨_, firstPage, hh, rfl, .payload firstPage 0 [7] (by decide)⟩

theorem rewriteCommit_fits {seq : UInt64} : walHeaderSize + (encodeAll firstCommit.records 0).length +
    (encodeAll rewriteCommit.records seq).length ≤ maxFileSize := by
  rw [encodeAll_length, encodeAll_length, Commit.records_len, Commit.records_len]
  change walHeaderSize + (2 * pageImageLen + commitLen) + (1 * pageImageLen + commitLen) ≤ maxFileSize
  decide

theorem rewrite_run : ∃ es db, Run (Restrict Step EditsPayload) smallest.committed es db ∧
    Event.edited 1 rewrittenPage ∈ es ∧
    ∀ h : History, (es.foldl History.record h).all = h.all ++ [rewriteCommit] := by
  have hbegan : Run Step smallest.committed _ { smallest.committed with holder := .writer ⟨∅, 2⟩ } :=
    begin_run rfl rfl
  have hfetch := hbegan.step (@Step.pool _ (.fetch (.writer 0) 1 true) _ _ ⟨_, rfl, rfl, rfl⟩ rfl)
  have hlock := hfetch.step (@Step.pool _ (.guard 0 0 .lockRead) _ _ (.inl rfl) rfl)
  have hcopy := hlock.step (@Step.copyPage _ _ 0 0 0 1 firstPage _ _ rfl rfl rfl rfl)
  have hunlock := hcopy.step (@Step.pool _ (.guard 0 0 .unlockRead) _ _ (.inr (.inr rfl)) rfl)
  have hunpin := hunlock.step (@Step.pool _ (.unpin 0 0) _ _ trivial rfl)
  have hcopied : Run (Restrict Step EditsPayload) _ _ _ := hunpin.restrict (by simp [EditsPayload])
  have hedit := hcopied.step ⟨@Step.editPage _ _ 1 rewrittenPage rfl (Option.some_ne_none firstPage)
    (by rintro ⟨x, hx, -⟩; cases hx), rewrittenPage_edits rfl⟩
  have hcommit := hedit.trans ((@commit_run _ rewriteCommit rewrite _ _ _ rfl
    (by rintro ⟨x, hx, -⟩; cases hx) rfl rewrite_seals rfl rfl rewriteCommit_fits).restrict
      (by simp [EditsPayload]))
  exact ⟨_, _, hcommit, by simp, fun h => rfl⟩

end Rewritten

theorem page_type_never_changes_first : ∃ es es' db db' header header',
    Run (Restrict Step EditsPayload) smallest es db ∧ Run (Restrict Step EditsPayload) db es' db' ∧
    Event.edited 1 rewrittenPage ∈ es' ∧ firstPage.verify 1 = .ok header ∧
    rewrittenPage.seal.verify 1 = .ok header' ∧ header'.pageType = header.pageType := by
  have hfirst : Run (Restrict Step EditsPayload) smallest _ smallest.committed :=
    ((smallest_published.step (.publishDone rfl)).step (.commitDone rfl rfl)).restrict (by simp [EditsPayload])
  obtain ⟨es', db', hsecond, hedited, hall⟩ := rewrite_run
  obtain ⟨header, hv⟩ := firstPage_valid
  obtain ⟨header', hv'⟩ := rewrittenPage_valid
  refine ⟨_, es', _, db', header, header', hfirst, hsecond, hedited, hv, hv', ?_⟩
  refine page_type_never_changes smallest_starts hfirst hsecond 1 ⟨by decide, by decide⟩ hv ?_
  rw [History.of, List.foldl_append, hall]
  exact hv'

end Database

end OxenDB
