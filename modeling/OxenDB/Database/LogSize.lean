import OxenDB.Database.Success

namespace OxenDB

open Lib

def Commit.logSize (c : Commit) : ℕ := c.images.length * pageImageLen + commitLen

/-- No log is shorter than its header, so a limit below that bounds nothing. -/
def logLimit (limit : ℕ) : ℕ := max limit (walHeaderSize + 1)

structure LogBound (limit : ℕ) (es : List Event) (db : Database) : Prop where
  auto : db.autoCheckpointBytes = some limit
  low : db.poisoned = false → db.holder.owed = 0 → db.wal.durableLen < logLimit limit
  high : db.wal.durableLen < logLimit limit ∨
    ∃ c ∈ loggedCommits es, db.wal.durableLen < logLimit limit + c.logSize

theorem loggedCommits_snoc (es : List Event) (e : Event) :
    loggedCommits (es ++ [e]) = loggedCommits es ++ e.logs.toList := by
  rw [loggedCommits, loggedCommits, List.filterMap_append, List.filterMap_cons]
  cases e.logs <;> rfl

namespace LogBound

variable {m₀ : PageMap} {h : History} {limit : ℕ} {es : List Event} {db db' : Database} {e : Event}

theorem below (hauto : db.autoCheckpointBytes = some limit) (hlt : db.wal.durableLen < logLimit limit) :
    LogBound limit es db := ⟨hauto, fun _ _ => hlt, .inl hlt⟩

theorem move (hb : LogBound limit es db) (hauto : db'.autoCheckpointBytes = db.autoCheckpointBytes)
    (hlen : db'.wal.durableLen = db.wal.durableLen) (hpoison : db'.poisoned = false → db.poisoned = false)
    (howed : db'.poisoned = false → db'.holder.owed = 0 → db.holder.owed = 0) :
    LogBound limit (es ++ [e]) db' := by
  refine ⟨hauto.trans hb.auto, fun hp ho => ?_, ?_⟩
  · rw [hlen]
    exact hb.low (hpoison hp) (howed hp ho)
  · rw [hlen, loggedCommits_snoc]
    rcases hb.high with hlt | ⟨c, hc, hlt⟩
    · exact .inl hlt
    · exact .inr ⟨c, List.mem_append_left _ hc, hlt⟩

theorem step (hb : LogBound limit es db) (hi : Inv m₀ h db)
    (hlogged : loggedCommits es = h.all ++ h.log.pending.toList) (hs : Database.Step db e db') :
    LogBound limit (es ++ [e]) db' := by
  cases hs with
  | refuse | beginRead | readLock | readDrop | readCount | readOutside | beginWrite | writeLockPoisoned
  | writerCount | writerOutside | readDirty | beginCheckpoint => exact hb.move rfl rfl id (fun _ ho => ho)
  | pool =>
    refine hb.move rfl rfl id (fun _ ho => ?_)
    rw [← (Holder.afterCall_spec _ _).owed]
    exact ho
  | writeLock _ hh | allocatePage _ hh | editPage _ hh | copyPage hh | rollback hh | commitEmpty hh
  | commitMalformed hh | commitLogPoisoned hh | walWrite hh | walWriteFail hh | walSyncFail hh
  | publishLock hh | publishShrink hh | publishDone hh | autoCheckpoint hh | checkpointLock _ hh
  | snapshot hh | nextShard hh | flushedAll hh | syncPages hh | syncedPages hh | syncPagesFail hh
  | writeFileHeader hh | writeFileHeaderFail _ hh | syncHeader hh | syncedHeader hh | syncHeaderFail hh
  | resetRefused hh | truncate hh | truncateFail _ hh | rewrite hh | rewriteFail _ hh
  | resetSyncFail hh =>
    refine hb.move rfl rfl id (fun _ ho => ?_)
    rw [hh]
    exact ho
  | commitLog hh _ _ _ happend =>
    rw [Wal.appendAll_ok _ _ (hi.logged.idle_writer hi.locks hh).1] at happend
    injection happend with happend
    refine hb.move rfl (by rw [← happend]) id (fun _ _ => ?_)
    rw [hh]
    rfl
  | @walSync c hh =>
    have hphase := hi.logged.phase
    rw [hh] at hphase
    have hlow := hb.low (hi.locks.healthy (by rw [hh]; trivial)) (by rw [hh]; rfl)
    have hsize : db.wal.pending.length = c.logSize := by
      rw [hphase.1.batch, encodeAll_length, Commit.records_len]
      rfl
    refine ⟨hb.auto, fun _ ho => absurd ho Nat.one_ne_zero, .inr ⟨c, ?_, ?_⟩⟩
    · rw [loggedCommits_snoc, hlogged, hphase.1.pending.pending]
      exact List.mem_append_left _ (List.mem_append_right _ List.mem_cons_self)
    · change db.wal.durableLen + db.wal.pending.length < _
      rw [hsize]
      exact Nat.add_lt_add_right hlow _
  | commitDone hh hauto =>
    refine below hb.auto (lt_max_of_lt_left ?_)
    rw [Database.autoCheckpoint, hb.auto] at hauto
    exact Nat.lt_of_not_le (of_decide_eq_false hauto)
  | resetSync => exact below hb.auto (lt_max_of_lt_right (Nat.lt_succ_self _))
  | poison hh => exact hb.move rfl rfl (by rintro ⟨⟩) (by rintro ⟨⟩)

end LogBound

namespace Database

variable {m₀ : PageMap} {limit : ℕ} {db₀ db : Database} {es : List Event}

theorem logBound_run (hs : db₀.Starts m₀) (hauto : db₀.autoCheckpointBytes = some limit)
    (hr : Run Step db₀ es db) : LogBound limit es db := by
  apply hr.invariant (I := fun es db => LogBound limit es db)
  · obtain ⟨o, n, auto, pool, ho, hp, rfl⟩ := hs.eq
    obtain ⟨seq, hwal, -⟩ := ho.log
    refine .below hauto (lt_max_of_lt_right ?_)
    rw [hwal]
    exact Nat.lt_succ_self _
  · intro ls s l s' hls hb hstep
    exact hb.step (Inv.run hs hls) (logged_run hs hls) hstep

/-- With automatic checkpoints the log of a healthy database is below the limit, or empty, whenever no
commit or checkpoint is under way; and at no time, whatever fails, does its durable part exceed the
limit by more than one commit. -/
theorem log_stays_bounded (hs : db₀.Starts m₀) (hauto : db₀.autoCheckpointBytes = some limit)
    (hr : Run Step db₀ es db) :
    (db.poisoned = false → (db.holder = .free ∨ ∃ w, db.holder = .writer w) →
      db.walFile.contents.length < logLimit limit) ∧
    (db.wal.durableLen < logLimit limit ∨
      ∃ c ∈ loggedCommits es, db.wal.durableLen < logLimit limit + c.logSize) := by
  have hb := logBound_run hs hauto hr
  have hi := Inv.run hs hr
  have hfree : ∀ {holder : Holder}, db.holder = holder → holder.Plain → holder.owed = 0 →
      (∀ f, holder ≠ .failed f) → db.poisoned = false → db.walFile.contents.length < logLimit limit := by
    intro holder hh hplain howed hrunning hp
    rw [hi.logged.contents_eq (hi.unsynced_none hh hplain hrunning hp), ← hi.logged.durableLen]
    exact hb.low hp (by rw [hh]; exact howed)
  refine ⟨fun hp hh => ?_, hb.high⟩
  rcases hh with hh | ⟨w, hh⟩
  · exact hfree hh trivial rfl (by rintro f ⟨⟩) hp
  · exact hfree hh trivial rfl (by rintro f ⟨⟩) hp

def limited : Database := { smallest with autoCheckpointBytes := some 100 }

theorem limited_durable : Run Step limited
    [.tau, .writeBegan, .allocated .heap, .logged firstCommit, .tau, .durable firstCommit]
    { smallest.durable with autoCheckpointBytes := some 100 } := by
  have hwrite : Run Step limited [.tau, .writeBegan, .allocated .heap]
      { limited with holder := .writer firstWrite } := write_run rfl rfl rfl .heap
  exact hwrite.trans (commit_run rfl (smallest_idle rfl) rfl firstWrite_seals rfl rfl firstCommit_fits)

theorem log_stays_bounded_first : ∃ es db, Run Step limited es db ∧ logLimit 100 < db.wal.durableLen ∧
    ∃ c ∈ loggedCommits es, db.wal.durableLen < logLimit 100 + c.logSize := by
  have hstarts : limited.Starts ⟨1, fun _ => Page.zeroed⟩ :=
    ⟨.created, ⟨1, true, some 100⟩, openedAs_created _, rfl⟩
  have hlong : logLimit 100 < walHeaderSize + (encodeAll firstCommit.records 0).length := by
    rw [encodeAll_length, Commit.records_len]
    change logLimit 100 < walHeaderSize + (2 * pageImageLen + commitLen)
    decide
  obtain ⟨-, hlow | hhigh⟩ := log_stays_bounded hstarts rfl limited_durable
  · exact absurd hlong (Nat.lt_asymm hlow)
  · exact ⟨_, _, limited_durable, hlong, hhigh⟩

end Database

end OxenDB
