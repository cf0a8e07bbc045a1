import OxenDB.Database.Logged

namespace OxenDB

open Lib

theorem Log.phase_afterCall {l : Log} {wal : Wal} {f : WalFile} {nextTxn : TxnId} {holder : Holder}
    (r : Option (Owner × PageId × Except Error Unit)) (h : l.Phase wal f nextTxn holder) :
    l.Phase wal f nextTxn (holder.afterCall r) := by
  by_cases hp : holder.Plain
  · exact (Log.phase_plain ((holder.afterCall_spec r).plain hp)).mpr ((Log.phase_plain hp).mp h)
  · rwa [Holder.afterCall_other r]
    · rintro c todo rfl
      exact hp trivial
    · rintro auto i todo rfl
      exact hp trivial

theorem Log.Pending.extends {l : Log} {c : Commit} (h : l.Pending c) (hc : l.current.WellFormed)
    (hsmall : l.current.count.toNat < 2 ^ 52) (hroom : (l.push c).body.length ≤ maxFileSize) :
    c.Extends l.current := by
  obtain ⟨n, hn⟩ := h.proposes
  have hpages := Log.pages_lt hroom
  rw [push, List.flatMap_append, List.length_append, List.flatMap_singleton] at hpages
  exact hn.extends hc (by omega) (by omega)

namespace Logged

variable {m₀ : PageMap} {h : History} {db db' : Database} {e : Event} {holder holder' : Holder}

theorem wellFormed (hlog : Logged m₀ h db) : h.log.current.WellFormed := hlog.chain.wellFormed hlog.base

theorem not_stuck (hlog : Logged m₀ h db) (hp : db.poisoned = false) : h.stuck = none := by
  by_contra hs
  rw [hlog.stuck hs] at hp
  cases hp

theorem plain (hlog : Logged m₀ h db) (hh : db.holder = holder) (hp : holder.Plain)
    (hh' : db'.holder = holder') (hp' : holder'.Plain) (hwal : db'.wal = db.wal)
    (hfile : db'.walFile = db.walFile) (hnext : db'.nextTxn = db.nextTxn)
    (hpoison : db'.poisoned = db.poisoned)
    (hwriter : ∀ w, holder' = .writer w → ∃ n, w.Over h.log.current n) : Logged m₀ h db' where
  base := hlog.base
  chain := hlog.chain
  whole := hlog.whole
  small := hlog.small
  baseSmall := by rw [hpoison]; exact hlog.baseSmall
  stuck := by rw [hpoison]; exact hlog.stuck
  txns := hlog.txns
  room := hlog.room
  durableLen := by rw [hwal]; exact hlog.durableLen
  file := by rw [hfile]; exact hlog.file
  phase := by
    rw [hwal, hfile, hnext, hh']
    have hphase := hlog.phase
    rw [hh] at hphase
    exact (Log.phase_plain hp').mpr ((Log.phase_plain hp).mp hphase)
  writer := by rw [hh']; exact hwriter

theorem contents_eq (hlog : Logged m₀ h db) (hu : db.walFile.unsynced = .none) :
    db.walFile.contents = h.log.body := by
  have hf := hlog.file
  unfold Log.Filed at hf
  rw [hu] at hf
  exact hf

theorem idle_writer (hlog : Logged m₀ h db) (hl : Locks db) {w : WriteTxn} (hh : db.holder = .writer w) :
    db.wal.poisoned = false ∧ h.log.Idle db.wal db.nextTxn ∧ db.walFile.unsynced = .none := by
  have hpoison : db.poisoned = false := hl.healthy (by rw [hh]; trivial)
  have hwal : db.wal.poisoned = false := by
    rw [Bool.eq_false_iff]
    intro hw
    rw [hl.walHealthy_of hh (by rintro f ⟨⟩) hw] at hpoison
    cases hpoison
  have hphase := hlog.phase
  rw [hh] at hphase
  exact ⟨hwal, hphase hwal⟩

theorem writer_count (hlog : Logged m₀ h db) (hl : Locks db) (hc : Counts h db) {w : WriteTxn}
    (hh : db.holder = .writer w) : db.pool.disk.pageCount = h.log.current.count := by
  have hpoison : db.poisoned = false := hl.healthy (by rw [hh]; trivial)
  exact (pageCounted_settled hh trivial).mp hc.counted (hlog.not_stuck hpoison)

theorem writer_aimed (hlog : Logged m₀ h db) (hl : Locks db) (hc : Counts h db) {k : ℕ} {id : PageId}
    {rd : Bool} (ha : db.Allows (.fetch (.writer k) id rd)) : DataPage db.pool.disk.pageCount id := by
  obtain ⟨w, hh, hck, hd⟩ := ha
  obtain ⟨n, hn⟩ := hlog.writer w hh
  rw [hlog.writer_count hl hc hh]
  refine hn.dataPage (checkDataPage_ok_iff.mp hck) (fun hm => ?_)
  rw [Std.TreeMap.mem_iff_isSome_getElem?, hd] at hm
  cases hm

theorem commitLog (hlog : Logged m₀ h db) (hl : Locks db) {w : WriteTxn} (hh : db.holder = .writer w)
    {c : Commit} {wal : Wal} {n : ℕ} (hprop : c.Proposes h.log.current n) (htxn : c.txn = db.nextTxn)
    (ha : db.wal.appendAll c.records = .ok wal) :
    Logged m₀ (h.record (.logged c))
      { db with wal := wal, nextTxn := db.nextTxn + 1, holder := .logging c } := by
  obtain ⟨hwal, hidle, hu⟩ := hlog.idle_writer hl hh
  rw [Wal.appendAll_ok _ _ hwal] at ha
  injection ha with ha
  subst ha
  refine { hlog with file := ?_, phase := ⟨⟨⟨rfl, ⟨n, hprop⟩, ?_⟩, ?_, ?_, ?_⟩, hu⟩, writer := ?_ }
  · change Log.Filed (h.log.propose c) db.walFile
    unfold Log.Filed
    rw [hu]
    exact hlog.contents_eq hu
  · rw [htxn]
    exact hidle.nextTxn
  · change db.wal.pending ++ encodeAll c.records db.wal.nextSeq = _
    rw [hidle.batch, hidle.nextSeq]
    rfl
  · change db.wal.nextSeq + _ = _
    rw [hidle.nextSeq, Log.push_nextSeq]
    rfl
  · change db.nextTxn + 1 = h.log.firstTxn + UInt64.ofNat (h.log.since ++ [c]).length
    rw [hidle.nextTxn, List.length_append, UInt64.ofNat_add, ← UInt64.add_assoc]
    rfl
  · rintro w ⟨⟩

theorem walWrite (hlog : Logged m₀ h db) {c : Commit} (hh : db.holder = .logging c)
    (hfit : db.wal.durableLen + db.wal.pending.length ≤ maxFileSize) :
    Logged m₀ h { db with
      holder := .flushing c
      walFile := ⟨writeAt db.walFile.contents db.wal.durableLen db.wal.pending,
        .batch db.wal.durableLen db.wal.pending⟩ } := by
  have hphase := hlog.phase
  rw [hh] at hphase
  obtain ⟨hbusy, hu⟩ := hphase
  have hcontents : writeAt db.walFile.contents db.wal.durableLen db.wal.pending = (h.log.push c).body := by
    rw [hlog.durableLen, hlog.contents_eq hu, writeAt_end, h.log.push_body, hbusy.batch]
  refine { hlog with file := ?_, phase := ⟨hbusy, ?_, ?_⟩, writer := ?_ }
  · refine ⟨hlog.durableLen, ?_, c, hbusy.pending, hbusy.batch⟩
    change (writeAt db.walFile.contents db.wal.durableLen db.wal.pending).take db.wal.durableLen = _
    rw [hcontents, hlog.durableLen, h.log.push_body, List.take_left]
  · rw [h.log.push_body, List.length_append, ← hbusy.batch, ← hlog.durableLen]
    exact hfit
  · rw [hcontents, hlog.durableLen, hbusy.batch]
  · rintro w ⟨⟩

theorem walWriteFail (hlog : Logged m₀ h db) {c : Commit} (hh : db.holder = .logging c) (left : Bytes) :
    Logged m₀ h { db with
      holder := .failed .log
      wal := { db.wal with poisoned := true }
      walFile := ⟨db.walFile.contents.take db.wal.durableLen ++ left,
        .batch db.wal.durableLen db.wal.pending⟩ } := by
  have hphase := hlog.phase
  rw [hh] at hphase
  obtain ⟨hbusy, hu⟩ := hphase
  have htake : db.walFile.contents.take db.wal.durableLen = h.log.body := by
    rw [hlog.durableLen, hlog.contents_eq hu, List.take_length]
  refine { hlog with file := ⟨hlog.durableLen, ?_, c, hbusy.pending, hbusy.batch⟩, phase := ?_,
                     writer := ?_ }
  · change (db.walFile.contents.take db.wal.durableLen ++ left).take db.wal.durableLen = _
    rw [htake, hlog.durableLen, List.take_left]
  · rintro ⟨⟩
  · rintro w ⟨⟩

theorem txns_push {l : Log} {c : Commit}
    (h : l.since.map (·.txn) = (List.range l.since.length).map (fun i => l.firstTxn + UInt64.ofNat i))
    (hc : c.txn = l.nextTxn) : (l.push c).since.map (·.txn) =
      (List.range (l.push c).since.length).map (fun i => (l.push c).firstTxn + UInt64.ofNat i) := by
  change (l.since ++ [c]).map (·.txn) = (List.range (l.since ++ [c]).length).map _
  rw [List.map_append, h, List.length_append, List.length_singleton, List.range_succ, List.map_append,
    List.map_singleton, List.map_singleton, hc]
  rfl

theorem push_small (hlog : Logged m₀ h db) (hpoison : db.poisoned = false) {c : Commit}
    (hchain : Chain h.log.base (h.log.since ++ [c])) (hroom : (h.log.push c).body.length ≤ maxFileSize) :
    (h.log.base.commits (h.log.since ++ [c])).count.toNat < 2 ^ 52 := by
  have hgrow := hchain.growth
  have hbase := hlog.baseSmall hpoison
  have hpages := Log.pages_lt hroom
  change ((h.log.since ++ [c]).flatMap (·.pages)).length < _ at hpages
  omega

theorem walSync (hlog : Logged m₀ h db) (hl : Locks db) {c : Commit} (hh : db.holder = .flushing c) :
    Logged m₀ (h.record (.durable c)) { db with
      holder := .durable c
      wal := { db.wal with durableLen := db.wal.durableLen + db.wal.pending.length, pending := [] }
      walFile := ⟨db.walFile.contents, .none⟩ } := by
  have hphase := hlog.phase
  rw [hh] at hphase
  obtain ⟨hbusy, hroom, hfile⟩ := hphase
  have hext := hbusy.pending.extends hlog.wellFormed hlog.small hroom
  have hchain : Chain h.log.base (h.log.since ++ [c]) := hlog.chain.snoc hext
  have hcurrent : (h.log.push c).current = h.log.current.commit c :=
    PageMap.commits_append h.log.base h.log.since [c]
  have hpoison : db.poisoned = false := hl.healthy (by rw [hh]; trivial)
  refine ⟨hlog.base, hchain, ?_, hlog.push_small hpoison hchain hroom, hlog.baseSmall, hlog.stuck,
    txns_push hlog.txns hbusy.pending.txn, hroom, ?_, ?_, ?_, ?_⟩
  · change m₀.commits (h.all ++ [c]) = (h.log.push c).current
    rw [PageMap.commits_append, hlog.whole, hcurrent]
    rfl
  · change db.wal.durableLen + db.wal.pending.length = (h.log.push c).body.length
    rw [h.log.push_body, List.length_append, hlog.durableLen, hbusy.batch]
  · change db.walFile.contents = (h.log.push c).body
    rw [hfile]
  · intro _
    exact ⟨⟨rfl, rfl, hbusy.nextSeq, hbusy.nextTxn⟩, rfl⟩
  · rintro w ⟨⟩

theorem idle_reset (hlog : Logged m₀ h db) {auto : Option Commit}
    (hh : db.holder = .checkpointing auto .reset) (hr : db.wal.checkReset = .ok ()) :
    h.log.Idle db.wal db.nextTxn ∧ db.walFile.contents = h.log.body := by
  have hwal : db.wal.poisoned = false := by
    rw [Bool.eq_false_iff]
    intro hw
    simp [Wal.checkReset, Wal.checkPoisoned, hw] at hr
  have hphase := hlog.phase
  rw [hh] at hphase
  obtain ⟨hidle, hu⟩ := hphase hwal
  exact ⟨hidle, hlog.contents_eq hu⟩

theorem truncate (hlog : Logged m₀ h db) {auto : Option Commit}
    (hh : db.holder = .checkpointing auto .reset) (hr : db.wal.checkReset = .ok ()) :
    Logged m₀ h { db with
      holder := .checkpointing auto .truncated
      walFile := ⟨db.walFile.contents.take walHeaderSize,
        .reset db.walFile.contents (encodeHeader db.wal.nextSeq) true false⟩ } := by
  obtain ⟨hidle, hcontents⟩ := hlog.idle_reset hh hr
  have htake : db.walFile.contents.take walHeaderSize = encodeHeader h.log.firstSeq := by
    rw [hcontents, h.log.take_body]
  refine { hlog with file := ⟨hcontents, ?_⟩, phase := ⟨hidle, ?_⟩, writer := ?_ }
  · rw [hidle.nextSeq]
  · rw [htake, hcontents, hidle.nextSeq]
  · rintro w ⟨⟩

theorem truncateFail (hlog : Logged m₀ h db) {auto : Option Commit}
    (hh : db.holder = .checkpointing auto .reset) (hr : db.wal.checkReset = .ok ()) (contents : Bytes) :
    Logged m₀ h { db with
      holder := .failed (.checkpoint auto)
      wal := { db.wal with poisoned := true }
      walFile := ⟨contents, .reset db.walFile.contents (encodeHeader db.wal.nextSeq) true false⟩ } := by
  obtain ⟨hidle, hcontents⟩ := hlog.idle_reset hh hr
  refine { hlog with file := ⟨hcontents, by rw [hidle.nextSeq]⟩, phase := ?_, writer := ?_ }
  · rintro ⟨⟩
  · rintro w ⟨⟩

theorem rewrite (hlog : Logged m₀ h db) {auto : Option Commit} {old header : Bytes}
    (hh : db.holder = .checkpointing auto .truncated)
    (hu : db.walFile.unsynced = .reset old header true false) :
    Logged m₀ h { db with
      holder := .checkpointing auto .rewritten
      walFile := ⟨writeAt db.walFile.contents 0 header, .reset old header true true⟩ } := by
  have hphase := hlog.phase
  rw [hh] at hphase
  obtain ⟨hidle, hfile⟩ := hphase
  rw [hfile] at hu
  injection hu with hold hheader
  subst hold hheader
  have hwrite : writeAt db.walFile.contents 0 (encodeHeader h.log.nextSeq) =
      encodeHeader h.log.nextSeq := by
    have hw := writeAt_header (encodeHeader h.log.firstSeq) h.log.nextSeq
    have hc : db.walFile.contents = encodeHeader h.log.firstSeq := by rw [hfile]
    rw [← encodeHeader_length h.log.firstSeq, List.take_length] at hw
    rw [hc, hw]
  refine { hlog with file := ⟨rfl, rfl⟩, phase := ⟨hidle, ?_⟩, writer := ?_ }
  · rw [hwrite]
  · rintro w ⟨⟩

theorem rewriteFail (hlog : Logged m₀ h db) {auto : Option Commit} {old header : Bytes}
    (hh : db.holder = .checkpointing auto .truncated)
    (hu : db.walFile.unsynced = .reset old header true false) (contents : Bytes) :
    Logged m₀ h { db with
      holder := .failed (.checkpoint auto)
      wal := { db.wal with poisoned := true }
      walFile := ⟨contents, .reset old header true true⟩ } := by
  have hphase := hlog.phase
  rw [hh] at hphase
  obtain ⟨-, hfile⟩ := hphase
  rw [hfile] at hu
  injection hu with hold hheader
  subst hold hheader
  refine { hlog with file := ⟨rfl, rfl⟩, phase := ?_, writer := ?_ }
  · rintro ⟨⟩
  · rintro w ⟨⟩

theorem resetSync (hlog : Logged m₀ h db) {auto : Option Commit}
    (hh : db.holder = .checkpointing auto .rewritten)
    (hsmall : db.poisoned = false → h.log.current.count.toNat < 2 ^ 51) :
    Logged m₀ (h.record (.resetDone auto)) { db with
      holder := .free
      wal := { db.wal with durableLen := walHeaderSize }
      walFile := ⟨db.walFile.contents, .none⟩ } := by
  have hphase := hlog.phase
  rw [hh] at hphase
  obtain ⟨hidle, hfile⟩ := hphase
  have hlen : h.log.reset.body.length = walHeaderSize := by
    rw [h.log.reset_body, encodeHeader_length]
  refine ⟨hlog.wellFormed, .nil _, hlog.whole, hlog.small, hsmall, hlog.stuck, rfl, ?_, hlen.symm, ?_, ?_, ?_⟩
  · change h.log.reset.body.length ≤ maxFileSize
    rw [hlen, walHeaderSize, maxFileSize]
    omega
  · change db.walFile.contents = h.log.reset.body
    rw [hfile, h.log.reset_body]
  · intro _
    refine ⟨⟨rfl, hidle.batch, ?_, ?_⟩, rfl⟩
    · exact hidle.nextSeq.trans h.log.reset_nextSeq.symm
    · exact hidle.nextTxn.trans h.log.reset_nextTxn.symm
  · rintro w ⟨⟩

theorem syncFail (hlog : Logged m₀ h db) (f : Failure) :
    Logged m₀ h { db with holder := .failed f, wal := { db.wal with poisoned := true } } := by
  refine { hlog with phase := ?_, writer := ?_ }
  · rintro ⟨⟩
  · rintro w ⟨⟩

theorem poison (hlog : Logged m₀ h db) {f : Failure} (hh : db.holder = .failed f) :
    Logged m₀ (h.record (.poisoned f)) { db with poisoned := true, holder := .free } := by
  have hphase := hlog.phase
  rw [hh] at hphase
  have hfailed : (Holder.failed f).Plain := trivial
  have hfree : Holder.free.Plain := trivial
  have hlog' : Logged m₀ h { db with poisoned := true, holder := .free } := by
    refine { hlog with baseSmall := ?_, stuck := fun _ => rfl, phase := ?_, writer := ?_ }
    · rintro ⟨⟩
    · exact (Log.phase_plain hfree).mpr ((Log.phase_plain hfailed).mp hphase)
    · rintro w ⟨⟩
  cases f with
  | log => exact hlog'
  | publish c => exact { hlog' with stuck := fun _ => rfl }
  | checkpoint auto => exact { hlog' with }

theorem step (hlog : Logged m₀ h db) (hl : Locks db) (hc : Counts h db)
    (hsmall : ∀ auto, db.holder = .checkpointing auto .rewritten → db.poisoned = false →
      h.log.current.count.toNat < 2 ^ 51)
    (hs : Database.Step db e db') : Logged m₀ (h.record e) db' := by
  have nowriter : ∀ {holder : Holder}, (∀ w, holder ≠ .writer w) →
      ∀ w, holder = .writer w → ∃ n, w.Over h.log.current n := fun hn w hw => absurd hw (hn w)
  cases hs with
  | refuse | beginRead | readLock | readDrop | readCount | readOutside | beginWrite
  | writeLockPoisoned | writerCount | writerOutside | readDirty | beginCheckpoint =>
    exact { hlog with }
  | pool ha hs =>
    exact { hlog with
      phase := Log.phase_afterCall _ hlog.phase
      writer := fun w hw => hlog.writer w ((Holder.afterCall_spec _ _).writer hw) }
  | writeLock _ hh hp =>
    refine hlog.plain hh trivial rfl trivial rfl rfl rfl rfl ?_
    rintro _ ⟨⟩
    rw [(pageCounted_settled hh trivial).mp hc.counted (hlog.not_stuck (Database.checkPoisoned_ok.mp hp))]
    exact ⟨0, WriteTxn.Over.new _⟩
  | @allocatePage w ty hh =>
    obtain ⟨n, hn⟩ := hlog.writer w hh
    refine hlog.plain hh trivial rfl trivial rfl rfl rfl rfl ?_
    rintro _ ⟨⟩
    exact ⟨n + 1, hn.allocatePage ty⟩
  | @copyPage w i k _ id page label pool hh hd hs hr =>
    obtain ⟨n, hn⟩ := hlog.writer w hh
    refine hlog.plain hh trivial rfl trivial rfl rfl rfl rfl ?_
    rintro _ ⟨⟩
    obtain ⟨-, hx, -⟩ := (BufferPool.step_calls hl.pool hs).read hr
    have hdata := hc.aimed _ hx rfl
    rw [hlog.writer_count hl hc hh] at hdata
    exact ⟨n, hn.put page (.inl hdata)⟩
  | @editPage w id page hh hd =>
    obtain ⟨n, hn⟩ := hlog.writer w hh
    refine hlog.plain hh trivial rfl trivial rfl rfl rfl rfl ?_
    rintro _ ⟨⟩
    refine ⟨n, hn.put page (.inr ?_)⟩
    rw [Std.TreeMap.mem_iff_isSome_getElem?]
    exact Option.isSome_iff_ne_none.mpr hd
  | rollback hh | commitEmpty hh | commitMalformed hh =>
    exact hlog.plain hh trivial rfl trivial rfl rfl rfl rfl (nowriter (by rintro w ⟨⟩))
  | @commitLog w pages wal hh _ _ hp ha =>
    obtain ⟨n, hn⟩ := hlog.writer w hh
    rw [hlog.writer_count hl hc hh] at ha ⊢
    exact hlog.commitLog hl hh (hn.proposes hp _) rfl ha
  | commitLogPoisoned hh _ _ _ ha =>
    rw [Wal.appendAll_ok _ _ (hlog.idle_writer hl hh).1] at ha
    cases ha
  | walWrite hh hfit => exact hlog.walWrite hh hfit
  | walWriteFail hh => exact hlog.walWriteFail hh _
  | walSync hh => exact hlog.walSync hl hh
  | walSyncFail | resetSyncFail => exact hlog.syncFail _
  | publishLock hh | publishShrink hh | publishDone hh | autoCheckpoint hh | checkpointLock _ hh
  | snapshot hh | nextShard hh | flushedAll hh | syncPages hh | syncedPages hh | syncPagesFail hh
  | writeFileHeader hh | writeFileHeaderFail _ hh | syncHeader hh | syncedHeader hh | syncHeaderFail hh
  | resetRefused hh =>
    exact hlog.plain hh trivial rfl trivial rfl rfl rfl rfl (nowriter (by rintro w ⟨⟩))
  | commitDone hh =>
    have hlog' : Logged m₀ h { db with holder := .free } :=
      hlog.plain hh trivial rfl trivial rfl rfl rfl rfl (nowriter (by rintro w ⟨⟩))
    exact { hlog' with }
  | truncate hh hr => exact hlog.truncate hh hr
  | truncateFail _ hh hr => exact hlog.truncateFail hh hr _
  | rewrite hh hu => exact hlog.rewrite hh hu
  | rewriteFail _ hh hu => exact hlog.rewriteFail hh hu _
  | resetSync hh => exact hlog.resetSync hh (hsmall _ hh)
  | poison hh => exact hlog.poison hh

end Logged

end OxenDB
