import OxenDB.Database.Store

/-!
What a read transaction observes when a publish fails: `publish` gives its lock back before the
database is poisoned, and `begin_read` looks at the poison flag before it waits for the lock.
-/

namespace OxenDB

open Lib

def Event.PublishFails : Event → Prop
  | .pool _ label => ∃ id e, label.returned = some (.publisher, id, .error e)
  | _ => False

def Event.publishes : Event → Option Commit
  | .published c => some c
  | _ => none

def publishedCommits (es : List Event) : List Commit := es.filterMap Event.publishes

def Event.Sees (r : ℕ) (m : PageMap) : Event → Prop
  | .counted r' n => r' = r → n = m.count
  | .pool _ label => ∀ k id page, label.read = some (.reader r k, id, page) →
      DataPage m.count id ∧ page = m.page id
  | _ => True

theorem Holder.AfterCall.publish_failed {r : Option (Owner × PageId × Except Error Unit)} {holder holder' : Holder}
    (h : AfterCall r holder holder') {c : Commit} (hw : holder ≠ .failed (.publish c))
    (hf : holder' = .failed (.publish c)) : ∃ id e, r = some (.publisher, id, .error e) := by
  cases h with
  | same => exact absurd hf hw
  | installFailed hr => exact ⟨_, _, hr⟩
  | installed | flushed | flushFailed => cases hf

section Step

variable {m₀ : PageMap} {h : History} {db db' : Database} {e : Event} {r : ℕ}

theorem Unbroken.step (hw : Unbroken h db) (hi : Inv m₀ h db) (hs : Database.Step db e db') (hf : ¬ e.PublishFails) :
    Unbroken (h.record e) db' := by
  cases hs with
  | pool ha hs => exact ⟨hw.stuck, fun c hc => hf ((Holder.afterCall_spec _ _).publish_failed (hw.running c) hc)⟩
  | publishShrink hh _ hd => exact absurd hd (hi.publish_grows hh _)
  | @poison f hh =>
    cases f with
    | publish c => exact absurd hh (hw.running c)
    | _ => exact ⟨hw.stuck, by rintro c ⟨⟩⟩
  | refuse | beginRead | readLock | readDrop | readCount | readOutside | beginWrite | writeLockPoisoned
  | writerCount | writerOutside | readDirty | beginCheckpoint => exact ⟨hw.stuck, hw.running⟩
  | _ => exact ⟨hw.stuck, by rintro c ⟨⟩⟩

theorem Holder.AfterCall.shown {r : Option (Owner × PageId × Except Error Unit)} {holder holder' : Holder}
    (hc : AfterCall r holder holder') (hf : ¬ ∃ id e, r = some (.publisher, id, .error e)) :
    h.shown holder' = h.shown holder := by
  cases hc with
  | installFailed hr => exact absurd ⟨_, _, hr⟩ hf
  | same | installed | flushed | flushFailed => rfl

theorem Inv.shown_step (hi : Inv m₀ h db) (hs : Database.Step db e db') (hf : ¬ e.PublishFails) :
    (h.record e).shown db'.holder = (h.shown db.holder).commits e.publishes.toList := by
  cases hs with
  | refuse | beginRead | readLock | readDrop | readCount | readOutside | beginWrite | writeLockPoisoned
  | writerCount | writerOutside | readDirty | beginCheckpoint => rfl
  | pool ha hs => exact (Holder.afterCall_spec _ _).shown hf
  | @walSync c hh =>
    rw [hh]
    change h.log.base.commits (h.log.since ++ [c]).dropLast = h.log.current
    rw [List.dropLast_concat]
    rfl
  | @publishDone c hh =>
    obtain ⟨s, _, _, hsince, -⟩ := hi.stored.shown_publishing hh
    rw [hh]
    change h.log.base.commits h.log.since = (h.log.base.commits h.log.since.dropLast).commits [c]
    rw [hsince, List.dropLast_concat, PageMap.commits_append]
  | publishShrink hh _ hd => exact absurd hd (hi.publish_grows hh _)
  | writeLock _ hh | allocatePage _ hh | editPage _ hh | copyPage hh | rollback hh | commitEmpty hh
  | commitMalformed hh | commitLog hh | commitLogPoisoned hh | walWrite hh | walWriteFail hh | walSyncFail hh
  | publishLock hh | autoCheckpoint hh | checkpointLock _ hh | commitDone hh
  | snapshot hh | nextShard hh | flushedAll hh | syncPages hh | syncedPages hh | syncPagesFail hh
  | writeFileHeader hh | writeFileHeaderFail _ hh | syncHeader hh | syncedHeader hh | syncHeaderFail hh
  | resetRefused hh | truncate hh | truncateFail _ hh | rewrite hh | rewriteFail _ hh
  | resetSyncFail hh | resetSync hh =>
    rw [hh]
    rfl
  | @poison f hh =>
    rw [hh]
    cases f <;> rfl

theorem Locks.no_publish (hl : Locks db) (hr : r ∈ db.readers) (hs : Database.Step db e db') :
    ¬ e.PublishFails ∧ e.publishes = none := by
  have hnot := hl.not_publishing hr
  cases hs with
  | pool ha hs =>
    refine ⟨?_, rfl⟩
    rintro ⟨id, err, hret⟩
    obtain ⟨x, hx, -, hm, -⟩ := (BufferPool.step_calls hl.pool hs).failed hret
    obtain ⟨c, page, todo, hh, -⟩ := (hl.call_owned ha hm).of_publisher hx
    exact hnot c _ hh
  | publishDone hh => exact absurd hh (hnot _ _)
  | _ => exact ⟨id, rfl⟩

theorem Database.Step.still_reading (hr : r ∈ db.readers) (hs : Database.Step db e db') (he : e ≠ .readEnded r) :
    r ∈ db'.readers := by
  cases hs with
  | readLock => exact List.mem_cons_of_mem _ hr
  | @readDrop r' =>
    refine (List.mem_erase_of_ne ?_).mpr hr
    rintro rfl
    exact he rfl
  | _ => exact hr

theorem Inv.sees (hi : Inv m₀ h db) (hw : Unbroken h db) (hs : Database.Step db e db') :
    e.Sees r (h.shown db.holder) := by
  cases hs with
  | readCount hm =>
    intro _
    exact (hi.shown_visible hw (hi.locks.not_publishing hm)).1
  | pool ha hs =>
    intro k id page hread
    exact (hi.handle_read hw hs hread).2
  | _ => trivial

structure Reads (r : ℕ) (m : PageMap) (h : History) (db : Database) : Prop where
  reading : r ∈ db.readers
  unbroken : Unbroken h db
  shown : h.shown db.holder = m

theorem Reads.step {m : PageMap} (hr : Reads r m h db) (hi : Inv m₀ h db) (hs : Database.Step db e db')
    (he : e ≠ .readEnded r) : Reads r m (h.record e) db' ∧ e.Sees r m := by
  obtain ⟨hf, hnone⟩ := hi.locks.no_publish hr.reading hs
  refine ⟨⟨hs.still_reading hr.reading he, hr.unbroken.step hi hs hf, ?_⟩, ?_⟩
  · rw [hi.shown_step hs hf, hnone, hr.shown]
    rfl
  · rw [← hr.shown]
    exact hi.sees hr.unbroken hs

end Step

namespace Database

variable {m₀ : PageMap} {db₀ db : Database} {es pre post : List Event} {r : ℕ}

theorem unbroken_run (hs : db₀.Starts m₀) (hr : Run Database.Step db₀ es db) (hf : ∀ e ∈ es, ¬ e.PublishFails) :
    Unbroken (History.of m₀ db₀.wal.nextSeq es) db ∧
      (History.of m₀ db₀.wal.nextSeq es).shown db.holder = m₀.commits (publishedCommits es) := by
  revert hf
  apply hr.invariant (I := fun es db => (∀ e ∈ es, ¬ e.PublishFails) →
    Unbroken (History.of m₀ db₀.wal.nextSeq es) db ∧
      (History.of m₀ db₀.wal.nextSeq es).shown db.holder = m₀.commits (publishedCommits es))
  · intro _
    obtain ⟨o, n, auto, pool, -, -, rfl⟩ := hs.eq
    exact ⟨⟨rfl, by rintro c ⟨⟩⟩, rfl⟩
  · intro es db e db' hrun ih hstep hf
    obtain ⟨hw, hshown⟩ := ih (fun x hx => hf x (List.mem_append_left _ hx))
    have hi := Inv.run hs hrun
    have he := hf e (List.mem_append_right _ List.mem_cons_self)
    rw [History.of_snoc]
    refine ⟨hw.step hi hstep he, ?_⟩
    rw [hi.shown_step hstep he, hshown, publishedCommits, publishedCommits, List.filterMap_append,
      PageMap.commits_append]
    cases e <;> rfl

theorem reads_run {m : PageMap} (hs : db₀.Starts m₀) {db₁ : Database} (hr : Run Database.Step db₀ es db₁)
    (hread : Reads r m (History.of m₀ db₀.wal.nextSeq es) db₁) (hrun : Run Database.Step db₁ post db)
    (hpost : .readEnded r ∉ post) :
    Reads r m (History.of m₀ db₀.wal.nextSeq (es ++ post)) db ∧ ∀ e ∈ post, e.Sees r m := by
  revert hpost
  apply hrun.invariant (I := fun post db => .readEnded r ∉ post →
    Reads r m (History.of m₀ db₀.wal.nextSeq (es ++ post)) db ∧ ∀ e ∈ post, e.Sees r m)
  · intro _
    rw [List.append_nil]
    exact ⟨hread, by rintro e ⟨⟩⟩
  · intro ls db e db' hls ih hstep hpost
    rw [List.mem_append, List.mem_singleton, not_or] at hpost
    obtain ⟨hread, hsees⟩ := ih hpost.1
    obtain ⟨hread', he⟩ := hread.step (Inv.run hs (hr.trans hls)) hstep (Ne.symm hpost.2)
    rw [← List.append_assoc, History.of_snoc]
    refine ⟨hread', fun x hx => ?_⟩
    rcases List.mem_append.mp hx with hx | hx
    · exact hsees x hx
    · rw [List.mem_singleton.mp hx]
      exact he

/-- A read transaction that began before any publish failed observes the commits that were published
then, and all of each. -/
theorem readers_see_whole_commits (hs : db₀.Starts m₀)
    (hr : Run Database.Step db₀ (pre ++ .readBegan r :: post) db) (hpre : ∀ e ∈ pre, ¬ e.PublishFails)
    (hpost : .readEnded r ∉ post) :
    Visible db.pool.cache (m₀.commits (publishedCommits pre)) ∧
      ∀ e ∈ post, e.Sees r (m₀.commits (publishedCommits pre)) := by
  rw [List.append_cons] at hr
  obtain ⟨db₁, hbegan, hrun⟩ := hr.split
  have hread : Reads r (m₀.commits (publishedCommits pre))
      (History.of m₀ db₀.wal.nextSeq (pre ++ [.readBegan r])) db₁ := by
    obtain ⟨hw, hshown⟩ := unbroken_run hs hbegan (by simpa [or_imp, forall_and, Event.PublishFails] using hpre)
    obtain ⟨_, -, hstep⟩ := hbegan.last
    refine ⟨?_, hw, ?_⟩
    · cases hstep
      exact List.mem_cons_self
    · rw [hshown, publishedCommits, List.filterMap_append]
      exact congrArg m₀.commits (List.append_nil _)
  obtain ⟨⟨hmem, hw, hshown⟩, hsees⟩ := reads_run hs hbegan hread hrun hpost
  have hi := Inv.run hs hr
  refine ⟨?_, hsees⟩
  rw [← hshown]
  exact hi.shown_visible hw (hi.locks.not_publishing hmem)

theorem readers_see_whole_commits_first : ∃ db : Database, db.readers = [0] ∧
    Visible db.pool.cache (PageMap.commits ⟨1, fun _ => Page.zeroed⟩ [firstCommit]) := by
  have hrun := (((smallest_published.step (.publishDone rfl)).step (.commitDone rfl rfl)).step
    (.beginRead 0 rfl List.not_mem_nil List.not_mem_nil)).step (.readLock List.mem_cons_self rfl)
  refine ⟨_, rfl, (readers_see_whole_commits smallest_starts hrun ?_ List.not_mem_nil).1⟩
  intro e he
  simp only [List.mem_append, List.mem_cons, List.not_mem_nil, or_false] at he
  rcases he with ((((rfl | rfl | rfl | rfl | rfl | rfl) | rfl | rfl | rfl) | rfl) | rfl) | rfl <;>
    simp [Event.PublishFails]

theorem second_missing (frame : Frame) (n : UInt64) (page : Page) : ¬ (BufferPool.cache
    (⟨[Shard.passed 1 frame], ⟨DiskManager.create.file.writeSlot 1 [], n⟩⟩ : BufferPool Owner)).Shows 2 page := by
  rw [Cache.shows_uncached]
  · rintro ⟨-, -, hread⟩
    have hlen := ((readAt_some_iff _ _ _ _).mp hread).1
    change slotOffset 2 + pageSize ≤ (writeAt FileHeader.new.encode.data (fileOffset 1).toNat []).length at hlen
    rw [writeAt_nil, FileHeader.new.encode.size] at hlen
    exact absurd hlen (by decide)
  · change BufferPool.cached _ 2 = none
    rw [BufferPool.cached, shardFor_single]
    change (Function.update (fun _ => none) 1 (some 0) (2 : PageId)).map
      (Shard.frame (Shard.passed 1 frame : Shard Owner)) = none
    rw [Function.update_of_ne (by decide)]
    rfl

/-- The second commit's page finds the only frame taken by a dirty page that the file refuses. A
read transaction that begins before the poison counts three pages, of which the last is nowhere. -/
theorem reader_counts_missing_page : ∃ pre post db c u, Run Database.Step smallest (pre ++ .readBegan 0 :: post) db ∧
    .publishing c ∈ pre ∧ .counted 0 c.pageCount ∈ post ∧ u ∈ c.pages ∧ DataPage c.pageCount u.1 ∧
    ∀ page, ¬ db.pool.cache.Shows u.1 page := by
  obtain ⟨es, hrun, -⟩ := smallest_committed
  have hfail := hrun.trans (half_run 0)
  have hbegan := (hfail.step (.beginRead 0 rfl List.not_mem_nil List.not_mem_nil)).step
    (.readLock List.mem_cons_self rfl)
  have hcounted := hbegan.step (.readCount List.mem_cons_self)
  rw [List.append_assoc] at hcounted
  refine ⟨_, _, _, secondCommit, (2, secondPage), hcounted, by simp, List.mem_singleton_self _,
    List.mem_singleton_self _, ⟨by decide, by decide⟩, second_missing _ _⟩

end Database

end OxenDB
