import OxenDB.Database.LogSize

namespace OxenDB

open Lib

def Unwritten (es : List Event) (id : PageId) : Prop :=
  ∀ c ∈ loggedCommits es, id ∉ c.images.map Prod.fst

structure DataUntouched (db₀ : Database) (es : List Event) (db : Database) : Prop where
  count : Unwritten es PageId.HEADER → db.pool.disk.pageCount = db₀.pool.disk.pageCount
  slots : ∀ id, Unwritten es id →
    slotOf db.pool.disk.file.contents id = slotOf db₀.pool.disk.file.contents id
  contents : loggedCommits es = [] → db.pool.disk.file.contents = db₀.pool.disk.file.contents

structure LogUntouched (db₀ db : Database) : Prop where
  contents : db.walFile.contents = db₀.walFile.contents
  nextSeq : db.wal.nextSeq = db₀.wal.nextSeq
  header : ∀ old header t w, db.walFile.unsynced = .reset old header t w → header = db₀.walFile.contents

theorem writeAt_take (f : Bytes) (n : ℕ) : writeAt f 0 (f.take n) = f := by
  rw [writeAt]
  split_ifs
  · rfl
  · simp only [List.take_zero, Nat.zero_sub, List.replicate_zero, List.nil_append, Nat.zero_add]
    rw [List.length_take]
    rcases le_total n f.length with h | h
    · rw [min_eq_left h, List.take_append_drop]
    · rw [min_eq_right h, List.take_of_length_le h, List.drop_length, List.append_nil]

theorem slotOf_writeAt_take {f hdr : Bytes} (h : slotOf f PageId.HEADER = hdr) (n : ℕ) :
    slotOf (writeAt f 0 (hdr.take n)) PageId.HEADER = hdr := by
  subst h
  apply slice_congr
  intro i hi
  rw [writeAt_getD]
  split_ifs with hin
  · have hlt : i < n := by
      have hlen := hin.2
      rw [List.length_take] at hlen
      change 0 + i < _ at hlen
      omega
    have hget := slice_getElem? f (slotOffset PageId.HEADER) pageSize i hi
    change ((slotOf f PageId.HEADER).take n).getD (0 + i - 0) 0 = _
    rw [Nat.zero_add, Nat.sub_zero, List.getD_eq_getElem?_getD, List.getElem?_take_of_lt hlt, slotOf, hget]
    rfl
  · rfl

theorem History.since_subset (m₀ : PageMap) (seq : UInt64) (es : List Event) :
    (History.of m₀ seq es).log.since ⊆ (History.of m₀ seq es).all := by
  induction es using List.reverseRecOn with
  | nil => exact List.nil_subset _
  | append_singleton es e ih =>
    rw [History.of_snoc]
    cases e with
    | durable c =>
      rintro d hd
      rcases List.mem_append.mp hd with hd | hd
      · exact List.mem_append_left _ (ih hd)
      · exact List.mem_append_right _ hd
    | resetDone auto => exact List.nil_subset _
    | poisoned f => cases f <;> exact ih
    | _ => exact ih

theorem Cache.Step.slot_ne {mine : PageId → Prop} {c c' : Cache} {ch : Change} {id : PageId}
    (h : Cache.Step mine c ch c') (hbound : c.disk.pageCount.toNat ≤ 2 ^ 52)
    (hw : ∀ u, ch.written = some u → id ≠ u.1) :
    slotOf c'.disk.file.contents id = slotOf c.disk.file.contents id := by
  cases hch : ch.written with
  | none => rw [h.unwritten hch]
  | some u =>
    cases h with
    | @writeBack id' frame wr _ _ =>
      have hspec := frame.writeBack_spec c.disk id' wr
      obtain ⟨-, rfl⟩ := hspec.written hch
      exact hspec.slotOf_ne hbound (hw _ hch)
    | @evict id' frame wr _ _ _ =>
      have hspec := frame.writeBack_spec c.disk id' wr
      obtain ⟨-, rfl⟩ := hspec.written hch
      exact hspec.slotOf_ne hbound (hw _ hch)
    | _ => cases hch

namespace Unwritten

variable {es : List Event} {e : Event} {id : PageId}

theorem before (h : Unwritten (es ++ [e]) id) : Unwritten es id := by
  intro c hc
  refine h c ?_
  rw [loggedCommits_snoc]
  exact List.mem_append_left _ hc

theorem of_nil (h : loggedCommits es = []) (id : PageId) : Unwritten es id := by
  intro c hc
  rw [h] at hc
  cases hc

theorem not_grew (h : Unwritten es PageId.HEADER) {c : Commit} (hc : c ∈ loggedCommits es) : c.grew = false := by
  by_contra hg
  rw [Bool.not_eq_false] at hg
  refine h c hc ?_
  rw [Commit.images, if_pos hg]
  exact List.mem_cons_self

end Unwritten

theorem loggedCommits_before {es : List Event} {e : Event} (h : loggedCommits (es ++ [e]) = []) :
    loggedCommits es = [] := by
  rw [loggedCommits_snoc] at h
  exact (List.append_eq_nil_iff.mp h).1

section Steps

variable {m₀ : PageMap} {h : History} {db₀ db db' : Database} {es : List Event} {e : Event}

theorem DataUntouched.move (hu : DataUntouched db₀ es db)
    (hcount : db'.pool.disk.pageCount = db.pool.disk.pageCount)
    (hdata : db'.pool.disk.file.contents = db.pool.disk.file.contents) : DataUntouched db₀ (es ++ [e]) db' := by
  refine ⟨fun hn => ?_, fun id hn => ?_, fun hn => ?_⟩
  · rw [hcount, hu.count hn.before]
  · rw [hdata, hu.slots id hn.before]
  · rw [hdata, hu.contents (loggedCommits_before hn)]

theorem DataUntouched.pool (hu : DataUntouched db₀ es db) (hi : Inv m₀ h db)
    (hsince : ∀ c ∈ h.log.since, c ∈ loggedCommits es) {a : Action Owner} {label : Label Owner}
    {pool : BufferPool Owner} (ha : db.Allows a) (hs : db.pool.step a = some (pool, label)) (holder : Holder) :
    DataUntouched db₀ (es ++ [e]) { db with pool := pool, holder := holder } := by
  have hstep := (BufferPool.step_steps hi.locks.pool hi.stored.small ha.not_sync hs).step
  have hwritten : ∀ u, label.written = some u → ∃ c ∈ loggedCommits es, u.1 ∈ c.images.map Prod.fst := by
    intro u hw
    obtain ⟨frame, hf, hd, -⟩ := hstep.written hw
    obtain ⟨c, hc, hpage⟩ := hi.stored.dirty u.1 frame hf hd
    refine ⟨c, hsince c hc, List.mem_map.mpr ⟨(u.1, frame.page), ?_, rfl⟩⟩
    rw [Commit.images]
    exact List.mem_append_right _ hpage
  refine ⟨fun hn => ?_, fun id hn => ?_, fun hn => ?_⟩
  · exact hstep.pageCount.trans (hu.count hn.before)
  · refine (hstep.slot_ne hi.stored.small fun u hw => ?_).trans (hu.slots id hn.before)
    rintro rfl
    obtain ⟨c, hc, hid⟩ := hwritten u hw
    exact hn.before c hc hid
  · have hnil := loggedCommits_before hn
    have hnone : label.written = none := by
      by_contra hw
      obtain ⟨u, hw⟩ := Option.ne_none_iff_exists'.mp hw
      obtain ⟨c, hc, -⟩ := hwritten u hw
      rw [hnil] at hc
      cases hc
    exact (congrArg (·.file.contents) (hstep.unwritten hnone)).trans (hu.contents hnil)

theorem DataUntouched.writeHeader (hu : DataUntouched db₀ es db)
    (hheader : readAt db₀.pool.disk.file.contents 0 pageSize =
      some (FileHeader.mk db₀.pool.disk.pageCount).encode.data) (n : ℕ) (holder : Holder) :
    DataUntouched db₀ (es ++ [e]) { db.writeHeader n with holder := holder } := by
  obtain ⟨hlen, hslice⟩ := (readAt_some_iff _ _ _ _).mp hheader
  have hslot : slotOf db₀.pool.disk.file.contents PageId.HEADER =
      (FileHeader.mk db₀.pool.disk.pageCount).encode.data := hslice
  refine ⟨fun hn => hu.count hn.before, fun id hn => ?_, fun hn => ?_⟩
  · change slotOf (writeAt db.pool.disk.file.contents 0
      ((FileHeader.mk db.pool.disk.pageCount).encode.data.take n)) id = _
    rcases eq_or_ne id PageId.HEADER with rfl | hne
    · rw [hu.count hn.before, hslot]
      exact slotOf_writeAt_take ((hu.slots _ hn.before).trans hslot) n
    · refine (@slotOf_writeAt_ne _ PageId.HEADER _ _ ?_ (by decide) hne).trans
        (hu.slots id hn.before)
      rw [List.length_take, Page.size]
      exact min_le_right _ _
  · have hnil := loggedCommits_before hn
    change writeAt db.pool.disk.file.contents 0
      ((FileHeader.mk db.pool.disk.pageCount).encode.data.take n) = _
    rw [hu.count (.of_nil hnil _), hu.contents hnil, ← hslice, slice_eq_take_drop _ _ _ hlen, List.drop_zero,
      List.take_take, writeAt_take]

theorem DataUntouched.step (hu : DataUntouched db₀ es db) (hi : Inv m₀ h db)
    (hsince : ∀ c ∈ h.log.since, c ∈ loggedCommits es)
    (hheader : readAt db₀.pool.disk.file.contents 0 pageSize =
      some (FileHeader.mk db₀.pool.disk.pageCount).encode.data) (hs : Database.Step db e db') :
    DataUntouched db₀ (es ++ [e]) db' := by
  cases hs with
  | pool ha hs => exact hu.pool hi hsince ha hs _
  | @copyPage _ i k _ _ _ _ _ _ _ hs _ =>
    exact hu.pool hi hsince (show db.Allows (.guard i k .read) from .inr (.inl rfl)) hs _
  | writeFileHeader => exact hu.writeHeader hheader _ _
  | writeFileHeaderFail n => exact hu.writeHeader hheader n _
  | @publishLock c disk hh _ hd =>
    have hcounted := hi.stored.counts.counted
    unfold PageCounted at hcounted
    rw [hh] at hcounted
    obtain ⟨s, hs, hcount⟩ := hcounted
    have hchain := hi.logged.chain
    rw [hs] at hchain
    rw [DiskManager.setPageCount] at hd
    split_ifs at hd
    cases hd
    refine ⟨fun hn => ?_, fun id hn => ?_, fun hn => ?_⟩
    · -- A commit that does not grow the file publishes the page count that was there.
      have hgrew := hn.before.not_grew (hsince c (by rw [hs]; exact List.mem_append_right _ List.mem_cons_self))
      rw [hchain.last.2.grew, decide_eq_false_iff_not, ← hcount] at hgrew
      have hle := hchain.last.2.count_le
      rw [← hcount] at hle
      exact (UInt64.le_antisymm (UInt64.not_lt.mp hgrew) hle).trans (hu.count hn.before)
    · exact hu.slots id hn.before
    · exact hu.contents (loggedCommits_before hn)
  | syncPages | syncedPages | syncPagesFail | syncHeader | syncedHeader | syncHeaderFail =>
    exact hu.move rfl (DataFile.sync_contents _ _)
  | _ => exact hu.move rfl rfl

theorem LogUntouched.move (hu : LogUntouched db₀ db) (hcontents : db'.walFile.contents = db.walFile.contents)
    (hseq : db'.wal.nextSeq = db.wal.nextSeq)
    (hreset : ∀ old header t w, db'.walFile.unsynced = .reset old header t w → header = db₀.walFile.contents) :
    LogUntouched db₀ db' := ⟨hcontents.trans hu.contents, hseq.trans hu.nextSeq, hreset⟩

theorem LogUntouched.step (hu : LogUntouched db₀ db) (hi : Inv m₀ h db) (hpending : h.log.pending = none)
    (hlog : db₀.walFile.contents = encodeHeader db₀.wal.nextSeq) (he : e.logs = none)
    (hs : Database.Step db e db') : LogUntouched db₀ db' := by
  have hheader : encodeHeader db.wal.nextSeq = db₀.walFile.contents := by rw [hu.nextSeq, hlog]
  have htake : db.walFile.contents.take walHeaderSize = db.walFile.contents := by
    rw [hu.contents, hlog, ← encodeHeader_length db₀.wal.nextSeq, List.take_length]
  have hwrite : writeAt db.walFile.contents 0 db₀.walFile.contents = db.walFile.contents := by
    have hsame := writeAt_take db.walFile.contents db.walFile.contents.length
    rw [List.take_length] at hsame
    rwa [← hu.contents]
  cases hs with
  | commitLog => cases he
  | walWrite hh | walWriteFail hh =>
    have hphase := hi.logged.phase
    rw [hh] at hphase
    cases hpending.symm.trans hphase.1.pending.pending
  | truncate =>
    refine hu.move htake rfl ?_
    rintro _ _ _ _ ⟨⟩
    exact hheader
  | truncateFail done =>
    refine hu.move ?_ rfl ?_
    · change (if done then _ else _) = _
      split_ifs
      · exact htake
      · rfl
    · rintro _ _ _ _ ⟨⟩
      exact hheader
  | @rewrite auto old header _ hr =>
    have hold := hu.header _ _ _ _ hr
    refine hu.move (by rw [hold]; exact hwrite) rfl ?_
    rintro _ _ _ _ ⟨⟩
    exact hold
  | @rewriteFail auto old header done _ hr =>
    have hold := hu.header _ _ _ _ hr
    refine hu.move ?_ rfl ?_
    · change (if done then _ else _) = _
      split_ifs
      · rw [hold]
        exact hwrite
      · rfl
    · rintro _ _ _ _ ⟨⟩
      exact hold
  | walSync | resetSync => exact hu.move rfl rfl (by rintro _ _ _ _ ⟨⟩)
  | _ => exact hu.move rfl rfl hu.header

end Steps

namespace Database

variable {m₀ : PageMap} {db₀ db : Database} {es : List Event}

theorem Starts.header (hs : db₀.Starts m₀) : readAt db₀.pool.disk.file.contents 0 pageSize =
    some (FileHeader.mk db₀.pool.disk.pageCount).encode.data := by
  obtain ⟨o, n, auto, pool, ho, hp, rfl⟩ := hs.eq
  have hslot := ho.slots PageId.HEADER (by
    have hpos := ho.count_pos
    rw [UInt64.lt_iff_toNat_lt]
    exact Nat.pos_of_ne_zero (fun h0 => hpos (UInt64.toNat_inj.mp h0)))
  rw [PageMap.slot_header, ← ho.count] at hslot
  change readAt pool.disk.file.contents 0 pageSize = some (FileHeader.mk pool.disk.pageCount).encode.data
  rw [(BufferPool.new_ok hp).2.1]
  exact hslot

theorem Starts.log (hs : db₀.Starts m₀) : db₀.walFile = ⟨encodeHeader db₀.wal.nextSeq, .none⟩ := by
  obtain ⟨o, n, auto, pool, ho, hp, rfl⟩ := hs.eq
  obtain ⟨seq, hwal, hfile⟩ := ho.log
  rw [hwal, hfile]

theorem untouched_run (hs : db₀.Starts m₀) (hr : Run Step db₀ es db) :
    DataUntouched db₀ es db ∧ (loggedCommits es = [] → LogUntouched db₀ db) := by
  apply hr.invariant (I := fun es db => DataUntouched db₀ es db ∧ (loggedCommits es = [] → LogUntouched db₀ db))
  · refine ⟨⟨fun _ => rfl, fun _ _ => rfl, fun _ => rfl⟩, fun _ => ⟨rfl, rfl, ?_⟩⟩
    intro old header t w hreset
    rw [hs.log] at hreset
    cases hreset
  · rintro ls s l s' hls ⟨hdata, hlog⟩ hstep
    have hi := Inv.run hs hls
    have hlogged := logged_run hs hls
    have hsince : ∀ c ∈ (History.of m₀ db₀.wal.nextSeq ls).log.since, c ∈ loggedCommits ls := by
      intro c hc
      rw [hlogged]
      exact List.mem_append_left _ (History.since_subset _ _ _ hc)
    refine ⟨hdata.step hi hsince hs.header hstep, fun hnil => ?_⟩
    rw [loggedCommits_snoc, List.append_eq_nil_iff, Option.toList_eq_nil_iff] at hnil
    rw [hnil.1, eq_comm, List.append_eq_nil_iff, Option.toList_eq_nil_iff] at hlogged
    exact (hlog hnil.1).step hi hlogged.2 (by rw [hs.log]) hnil.2 hstep

/-- A page that no commit wrote has the bytes it had when the session began, page 0 among them as long as
no commit grew the file. A session that commits nothing leaves both files as it found them, whatever it
reads, rolls back or checkpoints and whichever of its I/O calls fail. -/
theorem only_commits_change_files (hs : db₀.Starts m₀) (hr : Run Step db₀ es db) :
    (∀ id, (∀ c ∈ loggedCommits es, id ∉ c.images.map Prod.fst) →
      slotOf db.pool.disk.file.contents id = slotOf db₀.pool.disk.file.contents id) ∧
    (loggedCommits es = [] → db.pool.disk.file.contents = db₀.pool.disk.file.contents ∧
      db.walFile.contents = db₀.walFile.contents) := by
  obtain ⟨hdata, hlog⟩ := untouched_run hs hr
  exact ⟨hdata.slots, fun hnil => ⟨hdata.contents hnil, (hlog hnil).contents⟩⟩

theorem only_commits_change_files_rolledBack : ∃ es db, Run Step smallest es db ∧
    Event.rolledBack ∈ es ∧ Event.rewritten true ∈ es ∧ Event.header true ∈ es ∧ db.wal.poisoned = true ∧
    db.pool.disk.file.contents = smallest.pool.disk.file.contents ∧
    db.walFile.contents = smallest.walFile.contents := by
  have hwrite : Run Step smallest [.tau, .writeBegan, .allocated .heap, .rolledBack, .tau, .checkpointLocked]
      { smallest with holder := .checkpointing none (.flush 0 none) } :=
    ((((write_run rfl rfl rfl .heap).step (.rollback rfl (smallest_idle rfl))).step (.beginCheckpoint rfl)).step
      (.checkpointLock Nat.one_pos rfl))
  have hflushed := ((hwrite.trans (flush_empty_run rfl rfl rfl (fun _ => rfl))).trans (sync_run rfl)).trans
    (header_run rfl)
  have hfailed := (hflushed.trans (rewritten_run rfl rfl)).step (.resetSyncFail rfl)
  refine ⟨_, _, hfailed, ?_, ?_, ?_, rfl, (only_commits_change_files smallest_starts hfailed).2 rfl⟩
  all_goals simp

end Database

end OxenDB
