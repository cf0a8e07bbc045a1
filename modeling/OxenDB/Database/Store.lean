import OxenDB.Database.Success

/-!
What the transactions of a database see: one page map that whole commits replace, of which every
read transaction keeps the state it began on.
-/

namespace OxenDB

open Lib

inductive Writing
  | idle
  | «open» (view : PageMap)
  | committed (c : Commit)

/-- `called r` are the commits that had returned when `r` asked to begin, `readers r` those that
were published when it began. -/
structure Store where
  commits : List Commit
  returned : List Commit
  called : ℕ → List Commit
  readers : ℕ → Option (List Commit)
  writing : Writing

namespace Store

inductive Event
  | readCalled (r : ℕ)
  | readBegan (r : ℕ)
  | readEnded (r : ℕ)
  | counted (r : ℕ) (n : UInt64)
  | read (r : ℕ) (id : PageId) (page : Page)
  | writeBegan
  | writerCounted (n : UInt64)
  | writerRead (id : PageId) (page : Page)
  | allocated (ty : PageType)
  | edited (id : PageId) (page : Page)
  | abandoned
  | published (c : Commit)
  | returned (c : Commit)

def start : Store := ⟨[], [], fun _ => [], fun _ => none, .idle⟩

inductive Step (m₀ : PageMap) : Store → Event → Store → Prop
  | readCalled {s : Store} (r : ℕ) :
      Step m₀ s (.readCalled r) { s with called := Function.update s.called r s.returned }
  | readBegan {s : Store} {r : ℕ} : s.readers r = none → s.called r ⊆ s.commits →
      Step m₀ s (.readBegan r) { s with readers := Function.update s.readers r (some s.commits) }
  | readEnded {s : Store} {r : ℕ} {cs : List Commit} : s.readers r = some cs →
      Step m₀ s (.readEnded r) { s with readers := Function.update s.readers r none }
  | counted {s : Store} {r : ℕ} {cs : List Commit} : s.readers r = some cs →
      Step m₀ s (.counted r (m₀.commits cs).count) s
  | read {s : Store} {r : ℕ} {cs : List Commit} {id : PageId} : s.readers r = some cs →
      DataPage (m₀.commits cs).count id → Step m₀ s (.read r id ((m₀.commits cs).page id)) s
  | writeBegan {s : Store} : s.writing = .idle →
      Step m₀ s .writeBegan { s with writing := .open (m₀.commits s.commits) }
  | writerCounted {s : Store} {v : PageMap} : s.writing = .open v → Step m₀ s (.writerCounted v.count) s
  | writerRead {s : Store} {v : PageMap} (id : PageId) : s.writing = .open v →
      Step m₀ s (.writerRead id (v.page id)) s
  | allocated {s : Store} {v : PageMap} (ty : PageType) : s.writing = .open v →
      Step m₀ s (.allocated ty) { s with
        writing := .open ⟨v.count + 1, Function.update v.page v.count (Page.new v.count ty)⟩ }
  | edited {s : Store} {v : PageMap} (id : PageId) (page : Page) : s.writing = .open v →
      Step m₀ s (.edited id page) { s with writing := .open { v with page := Function.update v.page id page } }
  | abandoned {s : Store} {v : PageMap} : s.writing = .open v → Step m₀ s .abandoned { s with writing := .idle }
  | published {s : Store} {v : PageMap} {c : Commit} : s.writing = .open v →
      ((m₀.commits s.commits).commit c).Same ⟨v.count, fun id => (v.page id).seal⟩ →
      Step m₀ s (.published c) { s with commits := s.commits ++ [c], writing := .committed c }
  | returned {s : Store} {c : Commit} : s.writing = .committed c →
      Step m₀ s (.returned c) { s with returned := s.returned ++ [c], writing := .idle }

end Store

def Event.shows : Event → Option Store.Event
  | .readCalled r => some (.readCalled r)
  | .readBegan r => some (.readBegan r)
  | .readEnded r => some (.readEnded r)
  | .counted r n => some (.counted r n)
  | .pool _ label =>
    match label.read with
    | some (.reader r _, id, page) => some (.read r id page)
    | some (.writer _, id, page) => some (.writerRead id page)
    | _ => none
  | .writeBegan => some .writeBegan
  | .writerCounted n => some (.writerCounted n)
  | .allocated ty => some (.allocated ty)
  | .copied id page => some (.writerRead id page)
  | .edited id page => some (.edited id page)
  | .writerSaw id page => some (.writerRead id page)
  | .rolledBack => some .abandoned
  | .committedNothing => some .abandoned
  | .rejected _ => some .abandoned
  | .published c => some (.published c)
  | .commitOk c => some (.returned c)
  | .resetDone (some c) => some (.returned c)
  | _ => none

structure WriteTxn.Views (w : WriteTxn) (m v : PageMap) : Prop where
  count : v.count = w.pageCount
  pages : ∀ id, DataPage m.count id ∨ id ∈ w.dirty → v.page id = w.dirty[id]?.getD (m.page id)

structure Commit.Seals (c : Commit) (m v : PageMap) : Prop where
  count : c.pageCount = v.count
  pages : ∀ id, DataPage m.count id ∨ id ∈ c.pages.map Prod.fst → overlay m.page c.pages id = (v.page id).seal

def Holder.Writes (m : PageMap) (wr : Writing) : Holder → Prop
  | .free => wr = .idle
  | .writer w => ∃ v, wr = .open v ∧ w.Views m v
  | .logging c => ∃ v, wr = .open v ∧ c.Seals m v
  | .flushing c => ∃ v, wr = .open v ∧ c.Seals m v
  | .durable c => ∃ v, wr = .open v ∧ c.Seals m v
  | .publishing c _ => ∃ v, wr = .open v ∧ c.Seals m v
  | .published c => wr = .committed c
  | .checkpointing auto _ => wr = auto.elim .idle .committed
  | .failed _ => False

def Unedited (m : PageMap) (w : WriteTxn) (acts : List (Activity Owner)) : Prop :=
  ∀ x ∈ acts, x.task = .fetch → (∃ k, x.owner = .writer k) →
    ∀ page, w.dirty[x.id]? = some page → page = m.page x.id

structure Represents (m₀ : PageMap) (h : History) (db : Database) (s : Store) : Prop where
  commits : m₀.commits s.commits = h.shown db.holder
  returned : s.returned ⊆ s.commits
  called : ∀ r, s.called r ⊆ s.returned
  committed : ∀ c, s.writing = .committed c → c ∈ s.commits
  readers : ∀ r, s.readers r = if r ∈ db.readers then some s.commits else none
  tickets : (db.waitingReads ++ db.readers).Nodup
  writing : db.holder.Writes (h.shown db.holder) s.writing
  handles : ∀ w, db.holder = .writer w → Unedited h.log.current w db.pool.activities

theorem insert_getElem? (t : PageTree) (id id' : PageId) (page : Page) :
    (t.insert id page)[id']? = if id = id' then some page else t[id']? := by
  rw [Std.TreeMap.getElem?_insert]
  simp only [Std.LawfulEqCmp.compare_eq_iff_eq]

theorem mem_insert_iff (t : PageTree) (id id' : PageId) (page : Page) :
    id' ∈ t.insert id page ↔ id = id' ∨ id' ∈ t := by
  rw [Std.TreeMap.mem_insert, Std.LawfulEqCmp.compare_eq_iff_eq]

namespace WriteTxn.Views

variable {w : WriteTxn} {m v : PageMap}

theorem new (m : PageMap) : WriteTxn.Views ⟨∅, m.count⟩ m m where
  count := rfl
  pages id _ := by simp

theorem insert (hv : w.Views m v) (id : PageId) (page : Page) (count : UInt64) :
    WriteTxn.Views ⟨w.dirty.insert id page, count⟩ m ⟨count, Function.update v.page id page⟩ where
  count := rfl
  pages id' hid := by
    rw [mem_insert_iff] at hid
    rw [insert_getElem?]
    rcases eq_or_ne id id' with rfl | hne
    · simp
    · rw [if_neg hne]
      refine (Function.update_of_ne hne.symm ..).trans (hv.pages id' ?_)
      exact hid.imp_right (Or.resolve_left · hne)

theorem allocatePage (hv : w.Views m v) (ty : PageType) :
    (w.allocatePage ty).2.Views m ⟨v.count + 1, Function.update v.page v.count (Page.new v.count ty)⟩ := by
  rw [hv.count]
  exact hv.insert _ _ _

theorem put (hv : w.Views m v) (id : PageId) (page : Page) :
    (w.put id page).Views m { v with page := Function.update v.page id page } := by
  rw [hv.count]
  exact hv.insert _ _ _

theorem copy (hv : w.Views m v) {id : PageId} (hid : DataPage m.count id) (hd : w.dirty[id]? = none) :
    v.page id = m.page id ∧ (w.put id (m.page id)).Views m v := by
  have hpage := hv.pages id (.inl hid)
  rw [hd, Option.getD_none] at hpage
  refine ⟨hpage, ?_⟩
  have hput := hv.put id (m.page id)
  rw [← hpage, Function.update_eq_self] at hput
  rw [← hpage]
  exact hput

theorem seals (hv : w.Views m v) (hm : m.WellFormed) {pages : List (PageId × Page)}
    (hp : sealPages w.dirty.toList = .ok pages) (txn : TxnId) (count : UInt64) :
    (w.toCommit txn count pages).Seals m v where
  count := hv.count.symm
  pages id hid := by
    change _ ∨ id ∈ pages.map Prod.fst at hid
    rw [sealPages_keys hp] at hid
    change overlay m.page pages id = _
    rw [hv.pages id hid]
    cases hd : w.dirty[id]? with
    | none =>
      have hnot : id ∉ w.dirty := by
        rw [Std.TreeMap.mem_iff_isSome_getElem?, hd]
        exact Bool.false_ne_true
      rw [overlay_of_not_mem _ _ _ (by rwa [sealPages_keys hp]), Option.getD_none,
        (hm.pages id (hid.resolve_right hnot)).seal_eq]
    | some page =>
      have hmem : (id, page.seal) ∈ pages := by
        rw [(sealPages_ok hp).1]
        exact List.mem_map.mpr ⟨(id, page), Std.TreeMap.mem_toList_iff_getElem?_eq_some.mpr hd, rfl⟩
      rw [overlay_of_nodup _ _ (sealPages_nodup hp) _ _ hmem, Option.getD_some]

end WriteTxn.Views

theorem Commit.Seals.same {c : Commit} {m v : PageMap} (hs : c.Seals m v) (hc : c.Extends m) :
    (m.commit c).Same ⟨v.count, fun id => (v.page id).seal⟩ := by
  refine ⟨hs.count, fun id hid => hs.pages id ?_⟩
  by_cases hold : DataPage m.count id
  · exact .inl hold
  · exact .inr (hc.fresh id hid hold)

theorem Holder.AfterCall.writes {r : Option (Owner × PageId × Except Error Unit)} {holder holder' : Holder}
    (h : AfterCall r holder holder') (hf : ∀ f, holder' ≠ .failed f) :
    (∀ h : History, h.shown holder' = h.shown holder) ∧ ∀ m wr, holder.Writes m wr → holder'.Writes m wr := by
  cases h with
  | same | installed | flushed => exact ⟨fun _ => rfl, fun _ _ hw => hw⟩
  | installFailed | flushFailed => exact absurd rfl (hf _)

section Step

variable {m₀ : PageMap} {h h' : History} {db db' : Database} {s : Store} {e : Event}

theorem Locks.not_publishing (hl : Locks db) {r : ℕ} (hr : r ∈ db.readers) (c : Commit)
    (todo : List (PageId × Page)) : db.holder ≠ .publishing c todo := by
  intro hh
  rw [hl.exclusive (by rw [hh]; rfl)] at hr
  cases hr

theorem Inv.handle_read (hi : Inv m₀ h db) (hw : Unbroken h db) {a : Action Owner}
    {label : Label Owner} {pool : BufferPool Owner} (hs : db.pool.step a = some (pool, label)) {owner : Owner}
    {id : PageId} {page : Page} (hread : label.read = some (owner, id, page)) :
    Owned db.holder db.readers ⟨owner, id, .fetch⟩ ∧ DataPage (h.shown db.holder).count id ∧
      page = (h.shown db.holder).page id := by
  obtain ⟨-, hmem, frame, hframe, hpage⟩ := (BufferPool.step_calls hi.locks.pool hs).read hread
  have howned := hi.locks.owned _ hmem
  have hvisible := hi.shown_visible hw (fun c todo hh => ?_)
  · have hid := hi.stored.aimed _ hmem rfl
    rw [show db.pool.disk.pageCount = _ from hvisible.1] at hid
    refine ⟨howned, hid, ?_⟩
    rw [← hpage]
    exact (Cache.shows_cached hframe).mp (hvisible.2 id hid)
  · obtain ⟨_, _, _, -, ht | ht⟩ := howned.of_publisher (hi.locks.publisher_alone hh howned)
    · cases ht
    · cases ht

namespace Represents

theorem write (hr : Represents m₀ h db s) {holder : Holder} (hh : db.holder = holder) (wr : Writing)
    (hreaders : db'.readers = db.readers ∧ db'.waitingReads = db.waitingReads)
    (hshown : h'.shown db'.holder = h.shown holder) (hc : ∀ c, wr = .committed c → c ∈ s.commits)
    (hw : db'.holder.Writes (h.shown holder) wr)
    (hn : ∀ w, db'.holder = .writer w → Unedited h'.log.current w db'.pool.activities) :
    Represents m₀ h' db' { s with writing := wr } where
  commits := by
    rw [hshown, ← hh]
    exact hr.commits
  returned := hr.returned
  called := hr.called
  committed := hc
  readers := by
    rw [hreaders.1]
    exact hr.readers
  tickets := by
    rw [hreaders.1, hreaders.2]
    exact hr.tickets
  writing := by
    rw [hshown]
    exact hw
  handles := hn

theorem keep (hr : Represents m₀ h db s) {holder : Holder} (hh : db.holder = holder)
    (hreaders : db'.readers = db.readers ∧ db'.waitingReads = db.waitingReads)
    (hshown : h'.shown db'.holder = h.shown holder)
    (hw : ∀ wr, holder.Writes (h.shown holder) wr → db'.holder.Writes (h.shown holder) wr)
    (hn : ∀ w, db'.holder = .writer w → Unedited h'.log.current w db'.pool.activities) :
    Represents m₀ h' db' s := by
  apply hr.write hh s.writing hreaders hshown hr.committed _ hn
  apply hw
  rw [← hh]
  exact hr.writing

theorem returns (hr : Represents m₀ h db s) {holder : Holder} (hh : db.holder = holder) {c : Commit}
    (hc : s.writing = .committed c) (hreaders : db'.readers = db.readers ∧ db'.waitingReads = db.waitingReads)
    (hshown : h'.shown db'.holder = h.shown holder) (hfree : db'.holder = .free) :
    Represents m₀ h' db' { s with returned := s.returned ++ [c], writing := .idle } := by
  have hidle := hr.write hh .idle hreaders hshown (by rintro c ⟨⟩) (by rw [hfree]; rfl)
    (by rw [hfree]; rintro w ⟨⟩)
  refine { hidle with returned := ?_, called := fun r => ?_ }
  · apply List.append_subset.mpr
    exact ⟨hr.returned, List.cons_subset.mpr ⟨hr.committed c hc, List.nil_subset _⟩⟩
  · exact List.Subset.trans (hr.called r) (List.subset_append_left _ _)

theorem holds (hr : Represents m₀ h db s) {holder : Holder} (hh : db.holder = holder) :
    holder.Writes (h.shown holder) s.writing := by
  rw [← hh]
  exact hr.writing

theorem called_read (hr : Represents m₀ h db s) {r : ℕ} (hw : r ∉ db.waitingReads) (hn : r ∉ db.readers) :
    Represents m₀ h { db with waitingReads := r :: db.waitingReads }
      { s with called := Function.update s.called r s.returned } where
  commits := hr.commits
  returned := hr.returned
  called r' := by
    change Function.update s.called r s.returned r' ⊆ s.returned
    rcases eq_or_ne r' r with rfl | hne
    · rw [Function.update_self]
      exact List.Subset.refl _
    · rw [Function.update_of_ne hne]
      exact hr.called r'
  committed := hr.committed
  readers := hr.readers
  tickets := by
    refine List.nodup_cons.mpr ⟨fun hm => ?_, hr.tickets⟩
    rcases List.mem_append.mp hm with hm | hm
    · exact hw hm
    · exact hn hm
  writing := hr.writing
  handles := hr.handles

theorem began_read (hr : Represents m₀ h db s) {r : ℕ} (hw : r ∈ db.waitingReads) :
    Store.Step m₀ s (.readBegan r) { s with readers := Function.update s.readers r (some s.commits) } ∧
      Represents m₀ h { db with waitingReads := db.waitingReads.erase r, readers := r :: db.readers }
        { s with readers := Function.update s.readers r (some s.commits) } := by
  have hn : r ∉ db.readers := fun hm => List.disjoint_of_nodup_append hr.tickets hw hm
  constructor
  · apply Store.Step.readBegan
    · rw [hr.readers, if_neg hn]
    · exact List.Subset.trans (hr.called r) hr.returned
  · refine ⟨hr.commits, hr.returned, hr.called, hr.committed, fun r' => ?_, ?_, hr.writing, hr.handles⟩
    · rcases eq_or_ne r' r with rfl | hne
      · simp
      · simp [hne, hr.readers r']
    · refine List.Perm.nodup ?_ hr.tickets
      refine ((List.perm_cons_erase hw).append_right _).trans ?_
      exact List.perm_middle.symm

theorem ended_read (hr : Represents m₀ h db s) {r : ℕ} (hm : r ∈ db.readers) :
    Store.Step m₀ s (.readEnded r) { s with readers := Function.update s.readers r none } ∧
      Represents m₀ h { db with readers := db.readers.erase r }
        { s with readers := Function.update s.readers r none } := by
  have hnodup := (List.nodup_append.mp hr.tickets).2.1
  constructor
  · apply Store.Step.readEnded
    rw [hr.readers, if_pos hm]
  · refine ⟨hr.commits, hr.returned, hr.called, hr.committed, fun r' => ?_, ?_, hr.writing, hr.handles⟩
    · rcases eq_or_ne r' r with rfl | hne
      · simp [hnodup.mem_erase_iff]
      · simp [hne, hr.readers r', hnodup.mem_erase_iff]
    · exact hr.tickets.sublist ((List.erase_sublist).append_left _)

theorem publish (hr : Represents m₀ h db s) (hi : Inv m₀ h db) {c : Commit} (hh : db.holder = .publishing c []) :
    Store.Step m₀ s (.published c) { s with commits := s.commits ++ [c], writing := .committed c } ∧
      Represents m₀ h { db with holder := .published c }
        { s with commits := s.commits ++ [c], writing := .committed c } := by
  obtain ⟨s₀, done, rest, hsince, -⟩ := hi.stored.shown_publishing hh
  have hshown : h.shown db.holder = h.log.base.commits s₀ := by
    rw [hh, History.shown, hsince, List.dropLast_concat]
  have hext := (hsince ▸ hi.logged.chain).last.2
  have hcommits := hr.commits
  rw [hshown] at hcommits
  obtain ⟨v, hv, hseals⟩ := hr.holds hh
  rw [← hh, hshown] at hseals
  have hreaders := hi.locks.exclusive (by rw [hh]; rfl)
  have hcurrent : m₀.commits (s.commits ++ [c]) = h.log.current := by
    rw [PageMap.commits_append, hcommits, Log.current, hsince, PageMap.commits_append]
  constructor
  · apply Store.Step.published hv
    rw [hcommits]
    exact hseals.same hext
  · refine ⟨hcurrent, ?_, hr.called, ?_, fun r => ?_, hr.tickets, rfl, ?_⟩
    · exact List.Subset.trans hr.returned (List.subset_append_left _ _)
    · rintro c' ⟨⟩
      exact List.mem_append_right _ List.mem_cons_self
    · have hnone := hr.readers r
      rw [hreaders] at hnone
      simp only [hreaders]
      exact hnone
    · rintro w ⟨⟩

theorem handles_pool (hr : Represents m₀ h db s) (hi : Inv m₀ h db) {a : Action Owner} {label : Label Owner}
    {pool : BufferPool Owner} (ha : db.Allows a) (hs : db.pool.step a = some (pool, label)) {w : WriteTxn}
    (hh : db.holder = .writer w) : Unedited h.log.current w pool.activities := by
  intro x hx ht hk page hd
  rcases (BufferPool.step_calls hi.locks.pool hs).fetches hx ht with hold | hnew
  · exact hr.handles w hh x hold ht hk page hd
  · cases a with
    | fetch owner id rd =>
      cases hnew
      obtain ⟨k, rfl⟩ := hk
      obtain ⟨w', hh', -, hnone⟩ := ha
      cases hh.symm.trans hh'
      cases hnone.symm.trans hd
    | install | flush =>
      cases hnew
      cases ht
    | _ => cases hnew

theorem pool (hr : Represents m₀ h db s) (hi : Inv m₀ h db) (hg : Healthy db) {a : Action Owner}
    {label : Label Owner} {pool : BufferPool Owner} (ha : db.Allows a) (hs : db.pool.step a = some (pool, label))
    (hf : ∀ f, db.holder.afterCall label.returned ≠ .failed f) :
    Represents m₀ h { db with pool := pool, holder := db.holder.afterCall label.returned } s ∧
      Answers (Store.Step m₀) s (Event.pool a label).shows s := by
  obtain ⟨hshown, hwrites⟩ := (Holder.afterCall_spec _ _).writes hf
  constructor
  · refine hr.keep rfl ⟨rfl, rfl⟩ (hshown h) (hwrites _) (fun w hw => ?_)
    exact hr.handles_pool hi ha hs ((Holder.afterCall_spec _ _).writer hw)
  cases hread : label.read with
  | none =>
    simp only [Event.shows, hread]
    rfl
  | some u =>
    obtain ⟨owner, id, page⟩ := u
    obtain ⟨-, hmem, -⟩ := (BufferPool.step_calls hi.locks.pool hs).read hread
    obtain ⟨howned, hid, rfl⟩ := hi.handle_read (hg.unbroken hi) hs hread
    cases owner with
    | reader r k =>
      rw [← hr.commits] at hid
      simp only [Event.shows, hread, ← hr.commits]
      exact .read (by rw [hr.readers, if_pos howned.1]) hid
    | writer k =>
      obtain ⟨⟨w, hh⟩, -⟩ := howned
      obtain ⟨v, hv, hviews⟩ := hr.holds hh
      have hpage : v.page id = (h.shown db.holder).page id := by
        rw [hh] at hid ⊢
        rw [hviews.pages id (.inl hid)]
        cases hd : w.dirty[id]? with
        | none => rfl
        | some page => exact hr.handles w hh _ hmem rfl ⟨k, rfl⟩ page hd
      simp only [Event.shows, hread, ← hpage]
      exact .writerRead id hv
    | publisher | checkpointer =>
      simp only [Event.shows, hread]
      rfl

theorem step (hr : Represents m₀ h db s) (hi : Inv m₀ h db) (hg : Healthy db) (hg' : Healthy db')
    (hs : Database.Step db e db') :
    ∃ s', Represents m₀ (h.record e) db' s' ∧ Answers (Store.Step m₀) s e.shows s' := by
  have hcount : ∀ {w}, db.holder = .writer w → db.pool.disk.pageCount = h.log.current.count :=
    fun hh => hi.logged.writer_count hi.locks hi.stored.counts hh
  cases hs with
  | refuse | readOutside | beginWrite | writeLockPoisoned | writerOutside | beginCheckpoint =>
    exact ⟨s, { hr with }, rfl⟩
  | beginRead r _ hw hn => exact ⟨_, hr.called_read hw hn, .readCalled r⟩
  | readLock hw _ =>
    obtain ⟨hstep, hrep⟩ := hr.began_read hw
    exact ⟨_, hrep, hstep⟩
  | readDrop hm _ =>
    obtain ⟨hstep, hrep⟩ := hr.ended_read hm
    exact ⟨_, hrep, hstep⟩
  | readCount hm =>
    have hvisible := hi.shown_visible (hg.unbroken hi) (hi.locks.not_publishing hm)
    refine ⟨s, hr, ?_⟩
    rw [show db.pool.disk.pageCount = _ from hvisible.1, ← hr.commits]
    exact .counted (by rw [hr.readers, if_pos hm])
  | pool ha hs => exact ⟨s, hr.pool hi hg ha hs hg'.running⟩
  | writeLock _ hh _ =>
    have hvisible := hi.visible hh trivial hg.poisoned
    have hcurrent : m₀.commits s.commits = h.log.current := by
      rw [hr.commits, hh]
      rfl
    refine ⟨{ s with writing := .open (m₀.commits s.commits) },
      hr.write hh _ ⟨rfl, rfl⟩ rfl (by rintro c ⟨⟩) ⟨_, rfl, ?_⟩ ?_, .writeBegan (hr.holds hh)⟩
    · rw [show db.pool.disk.pageCount = _ from hvisible.1, hcurrent]
      exact .new _
    · rintro w ⟨⟩ x _ _ _ page hd
      simp at hd
  | writerCount hh =>
    obtain ⟨v, hv, hviews⟩ := hr.holds hh
    refine ⟨s, hr, ?_⟩
    rw [← hviews.count]
    exact .writerCounted hv
  | @readDirty w id page hh hd =>
    obtain ⟨v, hv, hviews⟩ := hr.holds hh
    have hpage := hviews.pages id (.inr (by rw [Std.TreeMap.mem_iff_isSome_getElem?, hd]; rfl))
    rw [hd, Option.getD_some] at hpage
    refine ⟨s, hr, ?_⟩
    rw [← hpage]
    exact .writerRead id hv
  | allocatePage ty hh hn =>
    obtain ⟨v, hv, hviews⟩ := hr.holds hh
    refine ⟨_, hr.write hh (.open _) ⟨rfl, rfl⟩ rfl (by rintro c ⟨⟩) ⟨_, rfl, hviews.allocatePage ty⟩ ?_,
      .allocated ty hv⟩
    intro w _ x hx _ hk
    exact absurd ⟨x, hx, hk⟩ hn
  | @editPage w id page hh hd hn =>
    obtain ⟨v, hv, hviews⟩ := hr.holds hh
    refine ⟨_, hr.write hh (.open _) ⟨rfl, rfl⟩ rfl (by rintro c ⟨⟩) ⟨_, rfl, hviews.put id page⟩ ?_,
      .edited id page hv⟩
    intro w _ x hx _ hk
    exact absurd ⟨x, hx, hk⟩ hn
  | @copyPage w i k n id page _ pool hh hd hs hread =>
    obtain ⟨-, hid, rfl⟩ := hi.handle_read (hg.unbroken hi) hs hread
    rw [hh] at hid ⊢
    obtain ⟨v, hv, hviews⟩ := hr.holds hh
    have hhandles := hr.handles_pool hi (show db.Allows (.guard i k .read) from .inr (.inl rfl)) hs hh
    refine ⟨s, hr.keep hh ⟨rfl, rfl⟩ rfl ?_ ?_, ?_⟩
    · rintro wr ⟨v', hv', hviews'⟩
      exact ⟨v', hv', (hviews'.copy hid hd).2⟩
    · rintro w' ⟨⟩ x hx ht hk page hdirty
      rw [show (w.put id _).dirty[x.id]? = _ from insert_getElem? _ _ _ _] at hdirty
      split_ifs at hdirty with he
      · cases hdirty
        rw [← he]
        rfl
      · exact hhandles x hx ht hk page hdirty
    · rw [← (hviews.copy hid hd).1]
      exact .writerRead id hv
  | rollback hh | commitEmpty hh | commitMalformed hh =>
    obtain ⟨v, hv, -⟩ := hr.holds hh
    exact ⟨_, hr.write hh .idle ⟨rfl, rfl⟩ rfl (by rintro c ⟨⟩) rfl (by rintro w ⟨⟩), .abandoned hv⟩
  | commitLog hh _ _ hp =>
    have hwf := hi.logged.chain.wellFormed hi.logged.base
    refine ⟨s, hr.keep hh ⟨rfl, rfl⟩ rfl ?_ (by rintro w ⟨⟩), rfl⟩
    rintro wr ⟨v, hv, hviews⟩
    exact ⟨v, hv, hviews.seals hwf hp _ _⟩
  | walSync hh =>
    refine ⟨s, hr.keep hh ⟨rfl, rfl⟩ ?_ (fun _ hw => hw) (by rintro w ⟨⟩), rfl⟩
    change h.log.base.commits (h.log.since ++ [_]).dropLast = _
    rw [List.dropLast_concat]
    rfl
  | publishDone hh =>
    obtain ⟨hstep, hrep⟩ := hr.publish hi hh
    exact ⟨_, hrep, hstep⟩
  | commitDone hh => exact ⟨_, hr.returns hh (hr.holds hh) ⟨rfl, rfl⟩ rfl rfl, .returned (hr.holds hh)⟩
  | @resetSync auto hh =>
    cases auto with
    | none => exact ⟨s, hr.keep hh ⟨rfl, rfl⟩ rfl (fun _ hw => hw) (by rintro w ⟨⟩), rfl⟩
    | some c => exact ⟨_, hr.returns hh (hr.holds hh) ⟨rfl, rfl⟩ rfl rfl, .returned (hr.holds hh)⟩
  | poison hh => exact absurd hh (hg.running _)
  | walWrite hh | publishLock hh | autoCheckpoint hh | checkpointLock _ hh =>
    exact ⟨s, hr.keep hh ⟨rfl, rfl⟩ rfl (fun _ hw => hw) (by rintro w ⟨⟩), rfl⟩
  | snapshot hh | nextShard hh | flushedAll hh | syncPages hh | syncedPages hh | writeFileHeader hh
  | syncHeader hh | syncedHeader hh | truncate hh | rewrite hh =>
    exact ⟨s, hr.keep hh ⟨rfl, rfl⟩ rfl (fun _ hw => hw) (by rintro w ⟨⟩), rfl⟩
  | _ => exact absurd rfl (hg'.running _)

end Represents

end Step

namespace Database

variable {m₀ : PageMap} {db₀ db : Database} {es : List Event}

theorem represents_start (hs : db₀.Starts m₀) : Represents m₀ (History.start m₀ db₀.wal.nextSeq) db₀ Store.start := by
  obtain ⟨o, n, auto, pool, -, -, rfl⟩ := hs.eq
  refine ⟨rfl, ?_, ?_, ?_, ?_, ?_, rfl, ?_⟩
  · exact List.Subset.refl _
  · exact fun _ => List.Subset.refl _
  · rintro c ⟨⟩
  · exact fun _ => rfl
  · exact List.nodup_nil
  · rintro w ⟨⟩

theorem simulates_store (hs : db₀.Starts m₀) (hr : Run (Restrict Database.Step Smooth) db₀ es db) :
    ∃ s, Run (Store.Step m₀) Store.start (es.filterMap Event.shows) s ∧
      Represents m₀ (History.of m₀ db₀.wal.nextSeq es) db s := by
  apply hr.simulates (R := fun ls => Represents m₀ (History.of m₀ db₀.wal.nextSeq ls)) (represents_start hs)
  intro ls db l db' s hls hrep hl
  have hrun : Run Database.Step db₀ ls db := hls.mono (fun _ _ _ h => h.1)
  rw [History.of_snoc]
  exact hrep.step (Inv.run hs hrun) (healthy_run hs hls) (healthy_run hs (hls.step hl)) hl.1

/-- What the transactions of a database see is what a page map shows that whole commits replace, and
a call of theirs fails only if every frame it could use is pinned. -/
theorem refines_store (hs : db₀.Starts m₀) (hr : Run (Restrict Database.Step Smooth) db₀ es db) :
    (∃ s, Run (Store.Step m₀) Store.start (es.filterMap Event.shows) s ∧
      (∀ r ∈ db.readers, ∃ cs, s.readers r = some cs ∧
        ∀ id, checkDataPage id db.pool.disk.pageCount = .ok () ↔ DataPage (m₀.commits cs).count id) ∧
      ∀ w, db.holder = .writer w → ∃ v, s.writing = .open v ∧
        ∀ id, checkDataPage id w.pageCount = .ok () ↔ DataPage v.count id) ∧
    ∀ a label db' owner id e, Restrict Database.Step Smooth db (.pool a label) db' →
      label.returned = some (owner, id, .error e) → (∃ msg, e = .resourceExhausted msg) ∧
        ∃ sh, db.pool.shards[db.pool.shardFor id]? = some sh ∧ sh.AllPinned := by
  have hrun : Run Database.Step db₀ es db := hr.mono (fun _ _ _ h => h.1)
  have hi := Inv.run hs hrun
  have hg := healthy_run hs hr
  constructor
  · obtain ⟨s, hstore, hrep⟩ := simulates_store hs hr
    refine ⟨s, hstore, fun r hm => ⟨s.commits, ?_, fun id => ?_⟩, fun w hh => ?_⟩
    · rw [hrep.readers, if_pos hm]
    · have hvisible := hi.shown_visible (hg.unbroken hi) (hi.locks.not_publishing hm)
      rw [checkDataPage_ok_iff, show db.pool.disk.pageCount = _ from hvisible.1, hrep.commits]
    · obtain ⟨v, hv, hviews⟩ := hrep.holds hh
      refine ⟨v, hv, fun id => ?_⟩
      rw [checkDataPage_ok_iff, hviews.count]
  · rintro a label db' owner id e ⟨hstep, hsucceeds, -⟩ hret
    have hcount := current_count_lt hs hrun (smooth_bounded hr)
    have hlt := (UInt64.le_iff_toNat_le.mp (hi.pageCount_le hg)).trans_lt hcount
    cases hstep with
    | pool ha hstep => exact (hi.call_failed hg hlt ha hsucceeds.1 hsucceeds.2 hstep hret).2.2

theorem refines_store_first : ∃ es s, Run (Store.Step ⟨1, fun _ => Page.zeroed⟩) Store.start es s ∧
    .published firstCommit ∈ es ∧ .returned firstCommit ∈ es ∧ .read 0 1 firstPage ∈ es := by
  obtain ⟨es, hrun, -, -, hpublished, hreturned⟩ := smallest_smooth
  have hbegan := (hrun.step ⟨.beginRead 0 rfl List.not_mem_nil List.not_mem_nil, trivial, trivial⟩).step
    ⟨.readLock List.mem_cons_self rfl, trivial, trivial⟩
  have hfetch := hbegan.step ⟨@Step.pool _ (.fetch (.reader 0 0) 1 true) _ _ ⟨List.mem_cons_self, rfl⟩ rfl,
    ⟨rfl, rfl⟩, trivial⟩
  have hlock := hfetch.step ⟨@Step.pool _ (.guard 0 0 .lockRead) _ _ (.inl rfl) rfl, ⟨rfl, rfl⟩, trivial⟩
  have hread := hlock.step ⟨@Step.pool _ (.guard 0 0 .read) _ _ (.inr (.inl rfl)) rfl, ⟨rfl, rfl⟩, trivial⟩
  obtain ⟨⟨s, hstore, -⟩, -⟩ := refines_store smallest_starts hread
  refine ⟨_, s, hstore, ?_, ?_, ?_⟩
  · exact List.mem_filterMap.mpr ⟨.published firstCommit, by simp [hpublished], rfl⟩
  · exact List.mem_filterMap.mpr ⟨.commitOk firstCommit, by simp [hreturned], rfl⟩
  · exact List.mem_filterMap.mpr ⟨_, List.mem_append_right _ (List.mem_singleton_self _), rfl⟩

end Database

end OxenDB
