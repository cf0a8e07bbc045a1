import OxenDB.BufferPool.Coherence
import OxenDB.Database.StoreSteps
import OxenDB.Lib.Transition

namespace OxenDB

open Lib

def Holder.owed : Holder → ℕ
  | .durable _ => 1
  | .publishing _ _ => 1
  | .published _ => 1
  | .checkpointing auto _ => auto.toList.length
  | .failed (.publish _) => 1
  | .failed (.checkpoint auto) => auto.toList.length
  | _ => 0

structure Counted (h : History) (db : Database) : Prop where
  count : h.all.length = h.returned + db.holder.owed + h.stuck.toList.length
  alone : h.log.pending ≠ none → h.stuck = none ∧ db.holder.owed = 0

structure Inv (m₀ : PageMap) (h : History) (db : Database) : Prop where
  locks : Locks db
  stored : Stored h db
  logged : Logged m₀ h db
  counted : Counted h db

theorem Holder.AfterCall.owed {r : Option (Owner × PageId × Except Error Unit)} {holder holder' : Holder}
    (h : AfterCall r holder holder') : holder'.owed = holder.owed := by
  cases h with
  | same | installed | installFailed | flushed | flushFailed => rfl

namespace Counted

variable {m₀ : PageMap} {h : History} {db db' : Database} {e : Event} {holder holder' : Holder}

theorem move (hc : Counted h db) (hh : db.holder = holder) (hh' : db'.holder = holder')
    (ho : holder'.owed = holder.owed) : Counted h db' := by
  refine ⟨?_, ?_⟩
  · rw [hh', ho, ← hh]
    exact hc.count
  · rw [hh', ho, ← hh]
    exact hc.alone

theorem pending_none (hc : Counted h db) (ho : db.holder.owed ≠ 0) : h.log.pending = none := by
  by_contra hp
  exact ho (hc.alone hp).2

theorem step (hc : Counted h db) (hl : Locks db) (hlog : Logged m₀ h db)
    (hs : Database.Step db e db') : Counted (h.record e) db' := by
  cases hs with
  | refuse | beginRead | readLock | readDrop | readCount | readOutside | beginWrite
  | writeLockPoisoned | writerCount | writerOutside | readDirty | beginCheckpoint =>
    exact { hc with }
  | pool ha hs => exact hc.move rfl rfl (Holder.afterCall_spec _ _).owed
  | writeLock _ hh | allocatePage _ hh | editPage _ hh | copyPage hh | rollback hh | commitEmpty hh
  | commitMalformed hh | commitLogPoisoned hh | walWrite hh | walWriteFail hh | walSyncFail hh
  | publishLock hh | publishShrink hh | publishDone hh | autoCheckpoint hh | checkpointLock _ hh
  | snapshot hh | nextShard hh | flushedAll hh | syncPages hh | syncedPages hh | syncPagesFail hh
  | writeFileHeader hh | writeFileHeaderFail _ hh | syncHeader hh | syncedHeader hh | syncHeaderFail hh
  | resetRefused hh | truncate hh | truncateFail _ hh | rewrite hh | rewriteFail _ hh
  | resetSyncFail hh => exact hc.move hh rfl rfl
  | commitLog hh =>
    have hpoison : db.poisoned = false := hl.healthy (by rw [hh]; trivial)
    have hcount := hc.count
    rw [hh] at hcount
    exact ⟨hcount, fun _ => ⟨hlog.not_stuck hpoison, rfl⟩⟩
  | @walSync c hh =>
    have hcount := hc.count
    rw [hh] at hcount
    refine ⟨?_, fun hn => absurd rfl hn⟩
    change (h.all ++ [c]).length = h.returned + 1 + h.stuck.toList.length
    rw [List.length_append, hcount]
    simp only [Holder.owed, List.length_singleton]
    omega
  | commitDone hh =>
    have hcount := hc.count
    rw [hh] at hcount
    have hpend := hc.pending_none (by rw [hh]; exact Nat.one_ne_zero)
    exact ⟨hcount, fun hn => absurd hpend hn⟩
  | @resetSync auto hh =>
    have hcount := hc.count
    rw [hh] at hcount
    exact ⟨hcount, fun hn => absurd rfl hn⟩
  | @poison f hh =>
    have hcount := hc.count
    have halone := hc.alone
    rw [hh] at hcount halone
    cases f with
    | log => exact ⟨hcount, halone⟩
    | publish c =>
      have hcommits : (Holder.failed (.publish c)).Commits := trivial
      have hstuck := hlog.not_stuck (hl.healthy (by rw [hh]; exact hcommits))
      rw [hstuck] at hcount
      refine ⟨hcount, fun hn => ?_⟩
      cases (halone hn).2
    | checkpoint auto =>
      refine ⟨hcount, fun hn => ?_⟩
      exact ⟨(halone hn).1, rfl⟩

end Counted

theorem OpenedAs.wellFormed {o : Opened} {m : PageMap} (h : OpenedAs o m) : m.WellFormed :=
  ⟨h.count_pos, h.pages⟩

theorem OpenedAs.count_lt {o : Opened} {m : PageMap} (h : OpenedAs o m) : m.count.toNat < 2 ^ 51 := by
  by_contra hge
  have hlt := m.count.toNat_lt
  have hid : (UInt64.ofNat (m.count.toNat - 1)).toNat = m.count.toNat - 1 := by
    rw [UInt64.toNat_ofNat']
    omega
  have hread := h.slots (UInt64.ofNat (m.count.toNat - 1)) (by
    rw [UInt64.lt_iff_toNat_lt, hid]
    omega)
  have hlen := ((readAt_some_iff _ _ _ _).mp hread).1
  have hb := h.bounded
  rw [slotOffset, hid, pageSize] at hlen
  rw [maxFileSize] at hb
  omega

namespace Database

/-- A handle that `open` just returned for a database that holds `m`. -/
def Starts (db : Database) (m : PageMap) : Prop :=
  ∃ o options, OpenedAs o m ∧ Database.assemble o options = .ok db

theorem Starts.eq {db : Database} {m : PageMap} (h : db.Starts m) : ∃ o n auto pool,
    OpenedAs o m ∧ BufferPool.new o.disk n = .ok pool ∧
      db = ⟨pool, auto, o.wal, o.walFile, 1, false, .free, [], [], 0, 0⟩ := by
  obtain ⟨o, options, ho, ha⟩ := h
  rw [Database.assemble] at ha
  cases hp : (BufferPool.new o.disk options.bufferPoolPages : Except Error (BufferPool Owner)) with
  | error e => rw [hp] at ha; cases ha
  | ok pool =>
    rw [hp] at ha
    injection ha with ha
    exact ⟨o, _, _, pool, ho, hp, ha.symm⟩

end Database

theorem Locks.start {disk : DiskManager} {n : ℕ} {auto : Option ℕ} {pool : BufferPool Owner}
    (hp : BufferPool.new disk n = .ok pool) (wal : Wal) (walFile : WalFile) (hw : wal.poisoned = false) :
    Locks ⟨pool, auto, wal, walFile, 1, false, .free, [], [], 0, 0⟩ := by
  have hacts := BufferPool.new_activities hp
  refine ⟨(BufferPool.new_ok hp).1, ?_, ?_, ?_, ?_, ?_⟩
  · rw [Unique, hacts]
    exact List.nodup_nil
  · intro x hx
    rw [hacts] at hx
    cases hx
  · rintro ⟨⟩
  · rintro ⟨⟩
  · intro hpoison
    cases hw.symm.trans hpoison

theorem Logged.start {m₀ : PageMap} (pool : BufferPool Owner) (auto : Option ℕ) (seq : UInt64)
    (hm : m₀.WellFormed) (hcount : m₀.count.toNat < 2 ^ 51) :
    Logged m₀ (History.start m₀ seq) ⟨pool, auto, ⟨walHeaderSize, [], seq, false⟩, ⟨encodeHeader seq, .none⟩,
      1, false, .free, [], [], 0, 0⟩ := by
  have hbody : (History.start m₀ seq).log.body = encodeHeader seq := List.append_nil _
  refine ⟨hm, .nil _, rfl, ?_, fun _ => hcount, fun hn => absurd rfl hn, rfl, ?_, ?_, hbody.symm, ?_, ?_⟩
  · change m₀.count.toNat < 2 ^ 52
    omega
  · rw [hbody, encodeHeader_length, walHeaderSize, maxFileSize]
    omega
  · rw [hbody, encodeHeader_length]
  · exact fun _ => ⟨⟨rfl, rfl, by simp [Log.nextSeq, History.start], rfl⟩, rfl⟩
  · rintro w ⟨⟩

namespace Inv

variable {m₀ : PageMap} {h : History} {db db' db₀ : Database} {e : Event} {es : List Event}

theorem step (hi : Inv m₀ h db) (hs : Database.Step db e db') : Inv m₀ (h.record e) db' where
  locks := hi.locks.step hi.stored.small hs
  stored := hi.stored.step hi.locks hi.logged hs
  logged := hi.logged.step hi.locks hi.stored.counts
    (fun _ hh hp => hi.stored.count_lt hi.logged hh (by rintro i todo ⟨⟩) hp) hs
  counted := hi.counted.step hi.locks hi.logged hs

theorem start (hs : db.Starts m₀) : Inv m₀ (History.start m₀ db.wal.nextSeq) db := by
  obtain ⟨o, n, auto, pool, ho, hp, rfl⟩ := hs.eq
  obtain ⟨seq, hwal, hfile⟩ := ho.log
  obtain ⟨hpool, hdisk, hcached⟩ := BufferPool.new_ok hp
  have hacts := BufferPool.new_activities hp
  have hcount := ho.count_lt
  have hnone : ∀ id, pool.cache.frame id = none := hcached
  rw [hwal, hfile]
  refine ⟨.start hp _ _ rfl, ⟨?_, ?_, ?_, ?_, ?_, ?_, ?_, trivial⟩, .start _ _ seq ho.wellFormed hcount,
    rfl, ?_⟩
  · intro id frame hf
    rw [hnone id] at hf
    cases hf
  · rw [hdisk]
    exact ho.bounded
  · rw [hdisk, ho.count]
    omega
  · intro id frame hf
    rw [hnone id] at hf
    cases hf
  · intro id frame hf
    rw [hnone id] at hf
    cases hf
  · intro x hx
    rw [hacts] at hx
    cases hx
  · intro _
    have hd : pool.cache.disk = o.disk := hdisk
    refine ⟨by rw [hd]; exact ho.count, fun id hid => (Cache.shows_uncached (hnone id)).mpr ?_⟩
    have hlt := UInt64.lt_iff_toNat_lt.mp hid.2
    rw [hd]
    refine ⟨hid.1, ?_, ?_⟩
    · change id.toNat < m₀.count.toNat at hlt
      omega
    · have hslot := ho.slots id hid.2
      rwa [m₀.slot_data hid.1] at hslot
  · exact fun hn => absurd rfl hn

theorem run (hs : db₀.Starts m₀) (hr : Run Database.Step db₀ es db) :
    Inv m₀ (History.of m₀ db₀.wal.nextSeq es) db := by
  apply hr.invariant (start hs)
  intro ls s l s' _ hi hstep
  rw [History.of_snoc]
  exact hi.step hstep

end Inv

end OxenDB
