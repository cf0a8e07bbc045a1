import OxenDB.Database.Durable

namespace OxenDB

open Lib

theorem Inv.idle {m₀ : PageMap} {h : History} {db : Database} {holder : Holder}
    (hi : Inv m₀ h db) (hh : db.holder = holder) (hp : holder.Plain) (hf : ∀ f, holder ≠ .failed f)
    (hpoison : db.poisoned = false) : h.log.Idle db.wal db.nextTxn ∧ db.walFile.unsynced = .none := by
  have hwal : db.wal.poisoned = false := by
    rw [Bool.eq_false_iff]
    intro hw
    rw [hi.locks.walHealthy_of hh hf hw] at hpoison
    cases hpoison
  have hphase := hi.logged.phase
  rw [hh] at hphase
  exact (Log.phase_plain hp).mp hphase hwal

theorem Inv.unsynced_none {m₀ : PageMap} {h : History} {db : Database} {holder : Holder}
    (hi : Inv m₀ h db) (hh : db.holder = holder) (hp : holder.Plain) (hf : ∀ f, holder ≠ .failed f)
    (hpoison : db.poisoned = false) : db.walFile.unsynced = .none := (hi.idle hh hp hf hpoison).2

theorem Inv.visible {m₀ : PageMap} {h : History} {db : Database} {holder : Holder} (hi : Inv m₀ h db)
    (hh : db.holder = holder) (hs : holder.Settled) (hpoison : db.poisoned = false) :
    Visible db.pool.cache h.log.current :=
  (shown_settled hh hs).mp hi.stored.shown (hi.logged.not_stuck hpoison)

namespace Durable

variable {m₀ : PageMap} {h : History} {db db' : Database} {e : Event} {holder : Holder}

theorem clean_of_kept (hi : Inv m₀ h db) {id : PageId}
    (hk : id ∉ (h.log.since.flatMap (·.pages)).map Prod.fst) : db.pool.cache.Clean id := by
  intro frame hf
  by_contra hd
  obtain ⟨c, hc, hm⟩ := hi.stored.dirty id frame hf (Bool.eq_true_of_not_eq_false hd)
  exact hk (List.mem_map.mpr ⟨_, List.mem_flatMap_of_mem hc hm, rfl⟩)

theorem stageAt (hd : Durable h db) (hh : db.holder = holder) : db.pool.disk.file.Stage h.log.current holder := by
  rw [← hh]
  exact hd.stage

theorem same (hd : Durable h db) (hfile : db'.pool.disk.file = db.pool.disk.file)
    (hunp : ∀ auto stage, db'.holder = .checkpointing auto stage → db'.poisoned = false)
    (hlost : db'.poisoned = false → (∀ f, db'.holder ≠ .failed f) →
      db.poisoned = false ∧ ∀ f, db.holder ≠ .failed f)
    (hstage : db.pool.disk.file.Stage h.log.current db'.holder)
    (hreset : ∀ old header t w, db'.walFile.unsynced = .reset old header t w →
      (∀ id, db'.pool.cache.Clean id) ∧ db'.pool.disk.file.SelfSufficient h.log.current) :
    Durable h db' where
  unpoisoned := hunp
  kept id hid hk := by rw [hfile]; exact hd.kept id hid hk
  headers hg := by rw [hfile]; exact hd.headers hg
  notLost hp hf := by
    obtain ⟨hp, hf⟩ := hlost hp hf
    rw [hfile]
    exact hd.notLost hp hf
  stage := by rw [hfile]; exact hstage
  resetting := hreset

theorem stage_afterCall {f : DataFile} {m : PageMap} (r : Option (Owner × PageId × Except Error Unit))
    (h : f.Stage m holder) : f.Stage m (holder.afterCall r) := by
  cases ha : holder.afterCall r with
  | checkpointing auto stage =>
    obtain ⟨stage', rfl, rfl | ⟨i, todo, todo', rfl, rfl⟩⟩ := (Holder.afterCall_spec _ _).stage ha
    · exact h
    · trivial
  | _ => trivial

theorem stage_congr {f f' : DataFile} {m : PageMap} (hh : f'.headers = f.headers)
    (hslots : ∀ auto stage, holder = .checkpointing auto stage → (∃ i todo, stage = .flush i todo) ∨
      ∀ id, f'.slots id = f.slots id) (h : f.Stage m holder) : f'.Stage m holder := by
  cases holder with
  | checkpointing auto stage =>
    rcases hslots auto stage rfl with ⟨i, todo, rfl⟩ | hs
    · trivial
    · cases stage with
      | flush i todo => trivial
      | fsyncPages => trivial
      | fsyncingPages =>
        intro id
        rw [hs id]
        exact h id
      | header =>
        intro id
        rw [hs id]
        exact h id
      | fsyncHeader =>
        obtain ⟨h₁, h₂, h₃⟩ := h
        exact ⟨fun id hid => (hs id).trans (h₁ id hid), (hs _).trans h₂, by rw [hh]; exact h₃⟩
      | fsyncingHeader =>
        obtain ⟨h₁, h₂, h₃⟩ := h
        exact ⟨fun id hid => (hs id).trans (h₁ id hid), (hs _).trans h₂, by rw [hh]; exact h₃⟩
      | reset =>
        obtain ⟨h₁, h₂⟩ := h
        exact ⟨fun id => (hs id).trans (h₁ id), by rw [hh]; exact h₂⟩
      | truncated => trivial
      | rewritten => trivial
  | _ => trivial

theorem poolStep (hd : Durable h db) (hi : Inv m₀ h db) {a : Action Owner} {label : Label Owner}
    {pool : BufferPool Owner} (ha : db.Allows a) (hs : db.pool.step a = some (pool, label)) :
    Durable h { db with pool := pool, holder := db.holder.afterCall label.returned } := by
  have hstep := (BufferPool.step_steps hi.locks.pool hi.stored.small ha.not_sync hs).step
  have hcalls := BufferPool.step_calls hi.locks.pool hs
  have hstable := fun {id : PageId} => @Cache.Step.stable _ _ _ _ hstep hi.stored.small id
  have hlasts : ∀ {id : PageId} {page : Page}, db.pool.cache.Clean id →
      db.pool.disk.file.Lasts id page → pool.disk.file.Lasts id page := by
    intro id page hc hl
    obtain ⟨hslot, hread⟩ := hstable (.inl hc)
    exact ⟨hslot.trans hl.1, hread _ hl.2⟩
  refine ⟨fun auto stage hh => ?_, fun id hid hk => ?_, fun hg v hv => ?_, fun hp hf id => ?_, ?_, ?_⟩
  · obtain ⟨stage', hh', -⟩ := (Holder.afterCall_spec _ _).stage hh
    exact hd.unpoisoned auto stage' hh'
  · exact hlasts (clean_of_kept hi hk) (hd.kept id hid hk)
  · change v ∈ pool.disk.file.headers at hv
    rw [show pool.disk.file.headers = _ from hstep.headers] at hv
    exact hd.headers hg v hv
  · refine hstep.notLost (hd.notLost hp (fun f hh => ?_) id)
    obtain ⟨f', hf'⟩ := Holder.afterCall_failed _ label.returned f hh
    exact hf f' hf'
  · refine stage_afterCall _ (stage_congr hstep.headers (fun auto stage hh => ?_) hd.stage)
    by_cases hfl : ∃ i todo, stage = .flush i todo
    · exact .inl hfl
    · refine .inr (fun id => (hstable (.inl ?_)).1)
      exact hi.stored.clean_of hh (fun i todo he => hfl ⟨i, todo, he⟩) id
  · intro old header t w hu
    obtain ⟨hclean, hself⟩ := hd.resetting old header t w hu
    have hnp : ∀ c todo, db.holder ≠ .publishing c todo := by
      intro c todo hh
      have hn := hi.unsynced_none hh trivial (by rintro f ⟨⟩) (hi.locks.healthy (by rw [hh]; trivial))
      cases hn.symm.trans hu
    have hnone := Stored.not_updated hi.locks ha hs hnp
    refine ⟨fun id => ?_, ⟨fun id hid => hlasts (hclean id) (hself.pages id hid), ?_⟩⟩
    · refine hstep.clean (hcalls.unmarked ha.not_edits) (fun page he => ?_) (hclean id)
      cases hnone.symm.trans he
    · exact hstep.headers.trans hself.headers

theorem selfSufficient (hd : Durable h db) (hi : Inv m₀ h db) {auto : Option Commit}
    (hh : db.holder = .checkpointing auto .reset) :
    (∀ id, db.pool.cache.Clean id) ∧ db.pool.disk.file.SelfSufficient h.log.current := by
  have hclean := hi.stored.clean_of hh (by rintro i todo ⟨⟩)
  have hv := hi.visible hh trivial (hd.unpoisoned _ _ hh)
  obtain ⟨hslots, hheaders⟩ := hd.stageAt hh
  refine ⟨hclean, fun id hid => ⟨hslots id, ?_⟩, hheaders⟩
  exact ((hv.2 id hid).holds hi.stored.coherent (hclean id)).2.2

theorem sync (hd : Durable h db) (hi : Inv m₀ h db) {auto : Option Commit} {stage : CheckpointAt}
    (hh : db.holder = .checkpointing auto stage) (hq : (Holder.checkpointing auto stage).Plain)
    (ev : SyncEvent)
    (hunp : ∀ auto stage, holder = .checkpointing auto stage → db.poisoned = false)
    (hlost : (∀ f, holder ≠ .failed f) → ∀ id, (db.pool.disk.file.sync ev).slots id ≠ .lost)
    (hstage : (db.pool.disk.file.sync ev).Stage h.log.current holder) :
    Durable h { db.syncDisk ev with holder := holder } := by
  refine ⟨hunp, fun id hid hk => (hd.kept id hid hk).sync ev, fun hg v hv => ?_, fun _ => hlost, hstage, ?_⟩
  · exact hd.headers hg v (DataFile.sync_headers ev hv)
  · intro old header t w hu
    have hn := hi.unsynced_none hh hq (by rintro f ⟨⟩) (hd.unpoisoned _ _ hh)
    cases hn.symm.trans hu

theorem writeHeader (hd : Durable h db) (hi : Inv m₀ h db) {auto : Option Commit}
    (hh : db.holder = .checkpointing auto .header) (n : ℕ)
    (hstage : (db.writeHeader n).pool.disk.file.Stage h.log.current holder) :
    Durable h { db.writeHeader n with holder := holder } := by
  have hpoison := hd.unpoisoned _ _ hh
  have hv := hi.visible hh trivial hpoison
  have hslots := hd.stageAt hh
  refine ⟨fun _ _ _ => hpoison, fun id hid hk => (hd.kept id hid hk).writeHeader hid.1 _ n,
    fun hg v hmem => ?_, fun _ _ id => ?_, hstage, ?_⟩
  · rcases List.mem_append.mp hmem with hmem | hmem
    · exact hd.headers hg v hmem
    · rw [List.mem_singleton.mp hmem, ← Log.slot_header hi.logged.chain hg, PageMap.slot_header,
        show db.pool.disk.pageCount = _ from hv.1]
  · change Function.update db.pool.disk.file.slots PageId.HEADER .written id ≠ .lost
    rcases eq_or_ne id PageId.HEADER with rfl | hne
    · rw [Function.update_self]
      decide
    · rw [Function.update_of_ne hne, hslots id]
      decide
  · intro old header t w hu
    have hn := hi.unsynced_none hh trivial (by rintro f ⟨⟩) hpoison
    cases hn.symm.trans hu

theorem logged (hd : Durable h db) {c : Commit} : Durable (h.record (.logged c)) db := { hd with }

theorem returned (hd : Durable h db) {c : Commit} : Durable (h.record (.commitOk c)) db := { hd with }

theorem walSync (hd : Durable h db) {c : Commit} {wal : Wal} {contents : Bytes}
    (hh : db.holder = .flushing c) : Durable (h.record (.durable c))
      { db with holder := .durable c, wal := wal, walFile := ⟨contents, .none⟩ } := by
  refine ⟨by rintro _ _ ⟨⟩, fun id hid hk => hd.kept id hid (fun hm => hk ?_), fun hg => ?_, ?_, trivial,
    by rintro _ _ _ _ ⟨⟩⟩
  · change id ∈ ((h.log.since ++ [c]).flatMap (·.pages)).map Prod.fst
    rw [List.flatMap_append, List.map_append]
    exact List.mem_append_left _ hm
  · exact hd.headers (fun c' hc' => hg c' (List.mem_append_left _ hc'))
  · intro hp _
    refine hd.notLost hp (fun f hf => ?_)
    cases hh.symm.trans hf

theorem resetSync (hd : Durable h db) (hi : Inv m₀ h db) {auto : Option Commit} {wal : Wal}
    {contents : Bytes} (hh : db.holder = .checkpointing auto .rewritten) :
    Durable (h.record (.resetDone auto))
      { db with holder := .free, wal := wal, walFile := ⟨contents, .none⟩ } := by
  have hphase := hi.logged.phase
  rw [hh] at hphase
  obtain ⟨-, hself⟩ := hd.resetting _ _ _ _ (by rw [hphase.2])
  refine ⟨by rintro _ _ ⟨⟩, fun id hid _ => hself.pages id hid, fun _ v hv => ?_, ?_, trivial,
    by rintro _ _ _ _ ⟨⟩⟩
  · rw [show db.pool.disk.file.headers = _ from hself.headers] at hv
    exact List.mem_singleton.mp hv
  · intro hp _
    refine hd.notLost hp (fun f hf => ?_)
    cases hh.symm.trans hf

theorem poison (hd : Durable h db) {f : Failure} :
    Durable (h.record (.poisoned f)) { db with poisoned := true, holder := .free } := by
  have hd' : Durable h { db with poisoned := true, holder := .free } :=
    hd.same rfl (by rintro _ _ ⟨⟩) (by rintro ⟨⟩) trivial hd.resetting
  cases f with
  | log => exact hd'
  | publish c => exact { hd' with }
  | checkpoint auto => exact { hd' with }

theorem step (hd : Durable h db) (hi : Inv m₀ h db) (hg : Guarded db e)
    (hs : Database.Step db e db') : Durable (h.record e) db' := by
  have sound : ∀ {holder : Holder}, db.holder = holder → (∀ f, holder ≠ .failed f) →
      ∀ f, db.holder ≠ .failed f := by
    rintro holder hh hf f he
    exact hf f (hh.symm.trans he)
  have notLost : ∀ {auto stage}, db.holder = .checkpointing auto stage →
      ∀ id, db.pool.disk.file.slots id ≠ .lost := by
    intro auto stage hh
    exact hd.notLost (hd.unpoisoned _ _ hh) (sound hh (by rintro f ⟨⟩))
  cases hs with
  | refuse | beginRead | readLock | readDrop | readCount | readOutside | beginWrite
  | writeLockPoisoned | writerCount | writerOutside | readDirty | beginCheckpoint =>
    exact { hd with }
  | pool ha hs => exact hd.poolStep hi ha hs
  | @copyPage w i k _ id page label pool hh _ hs hr =>
    have ha : db.Allows (.guard i k .read) := .inr (.inl rfl)
    have hp := hd.poolStep hi ha hs
    refine hp.same rfl (by rintro _ _ ⟨⟩) (fun hp _ => ⟨hp, fun f hf => ?_⟩) trivial hp.resetting
    rw [((BufferPool.step_calls hi.locks.pool hs).read hr).1, Holder.afterCall_none] at hf
    cases hh.symm.trans hf
  | writeLock _ hh | allocatePage _ hh | editPage _ hh | rollback hh | commitEmpty hh
  | commitMalformed hh | publishDone hh =>
    exact hd.same rfl (by rintro _ _ ⟨⟩) (fun hp _ => ⟨hp, sound hh (by rintro f ⟨⟩)⟩) trivial
      hd.resetting
  | commitLog hh =>
    apply Durable.logged
    exact hd.same rfl (by rintro _ _ ⟨⟩) (fun hp _ => ⟨hp, sound hh (by rintro f ⟨⟩)⟩) trivial
      hd.resetting
  | commitDone hh =>
    apply Durable.returned
    exact hd.same rfl (by rintro _ _ ⟨⟩) (fun hp _ => ⟨hp, sound hh (by rintro f ⟨⟩)⟩) trivial
      hd.resetting
  | publishLock hh _ hdisk =>
    have hfile := DiskManager.setPageCount_file hdisk
    refine hd.same hfile (by rintro _ _ ⟨⟩) (fun hp _ => ⟨hp, sound hh (by rintro f ⟨⟩)⟩) trivial ?_
    intro old header t w hu
    have hn := hi.unsynced_none hh trivial (by rintro f ⟨⟩) (hi.locks.healthy (by rw [hh]; trivial))
    cases hn.symm.trans hu
  | commitLogPoisoned hh | publishShrink hh | walSyncFail hh | resetRefused hh | resetSyncFail hh =>
    exact hd.same rfl (by rintro _ _ ⟨⟩) (fun _ hf => absurd rfl (hf _)) trivial hd.resetting
  | walWrite hh =>
    exact hd.same rfl (by rintro _ _ ⟨⟩) (fun hp _ => ⟨hp, sound hh (by rintro f ⟨⟩)⟩) trivial
      (by rintro _ _ _ _ ⟨⟩)
  | walWriteFail hh =>
    exact hd.same rfl (by rintro _ _ ⟨⟩) (fun _ hf => absurd rfl (hf _)) trivial
      (by rintro _ _ _ _ ⟨⟩)
  | walSync hh => exact hd.walSync hh
  | autoCheckpoint hh =>
    exact hd.same rfl (fun _ _ _ => hi.locks.healthy (by rw [hh]; trivial))
      (fun hp _ => ⟨hp, sound hh (by rintro f ⟨⟩)⟩) trivial hd.resetting
  | checkpointLock _ hh =>
    exact hd.same rfl (fun _ _ _ => hg rfl) (fun hp _ => ⟨hp, sound hh (by rintro f ⟨⟩)⟩) trivial
      hd.resetting
  | snapshot hh | nextShard hh | flushedAll hh =>
    exact hd.same rfl (fun _ _ _ => hd.unpoisoned _ _ hh) (fun hp _ => ⟨hp, sound hh (by rintro f ⟨⟩)⟩)
      trivial hd.resetting
  | syncPages hh =>
    exact hd.sync hi hh trivial .start (fun _ _ _ => hd.unpoisoned _ _ hh)
      (fun _ => DataFile.sync_notLost (by rintro ⟨⟩) (notLost hh)) (DataFile.Stage.pagesBegun _)
  | syncedPages hh =>
    exact hd.sync hi hh trivial .finish (fun _ _ _ => hd.unpoisoned _ _ hh)
      (fun _ => DataFile.sync_notLost (by rintro ⟨⟩) (notLost hh)) ((hd.stageAt hh).pagesSynced (notLost hh))
  | syncPagesFail hh =>
    exact hd.sync hi hh trivial .fail (by rintro _ _ ⟨⟩) (fun hf => absurd rfl (hf _)) trivial
  | writeFileHeader hh =>
    refine hd.writeHeader hi hh _ ?_
    have hstage := hd.stageAt hh
    have hv := hi.visible hh trivial (hd.unpoisoned _ _ hh)
    refine ⟨fun id hid => (Function.update_of_ne hid ..).trans (hstage id), ?_, ?_⟩
    · change Function.update db.pool.disk.file.slots PageId.HEADER .written PageId.HEADER = _
      rw [Function.update_self]
    · change (db.pool.disk.file.headers ++ [_]).getLast? = _
      rw [List.getLast?_concat, PageMap.slot_header, show db.pool.disk.pageCount = _ from hv.1]
  | writeFileHeaderFail n hh => exact hd.writeHeader hi hh n trivial
  | syncHeader hh =>
    exact hd.sync hi hh trivial .start (fun _ _ _ => hd.unpoisoned _ _ hh)
      (fun _ => DataFile.sync_notLost (by rintro ⟨⟩) (notLost hh)) (hd.stageAt hh).headerBegun
  | syncedHeader hh =>
    exact hd.sync hi hh trivial .finish (fun _ _ _ => hd.unpoisoned _ _ hh)
      (fun _ => DataFile.sync_notLost (by rintro ⟨⟩) (notLost hh)) (hd.stageAt hh).headerSynced
  | syncHeaderFail hh =>
    exact hd.sync hi hh trivial .fail (by rintro _ _ ⟨⟩) (fun hf => absurd rfl (hf _)) trivial
  | truncate hh =>
    exact hd.same rfl (fun _ _ _ => hd.unpoisoned _ _ hh) (fun hp _ => ⟨hp, sound hh (by rintro f ⟨⟩)⟩)
      trivial (fun _ _ _ _ _ => hd.selfSufficient hi hh)
  | truncateFail _ hh =>
    exact hd.same rfl (by rintro _ _ ⟨⟩) (fun _ hf => absurd rfl (hf _)) trivial
      (fun _ _ _ _ _ => hd.selfSufficient hi hh)
  | rewrite hh hu =>
    exact hd.same rfl (fun _ _ _ => hd.unpoisoned _ _ hh) (fun hp _ => ⟨hp, sound hh (by rintro f ⟨⟩)⟩)
      trivial (fun _ _ _ _ _ => hd.resetting _ _ _ _ hu)
  | rewriteFail _ hh hu =>
    exact hd.same rfl (by rintro _ _ ⟨⟩) (fun _ hf => absurd rfl (hf _)) trivial
      (fun _ _ _ _ _ => hd.resetting _ _ _ _ hu)
  | resetSync hh => exact hd.resetSync hi hh
  | poison hh => exact hd.poison

theorem start (hs : db.Starts m₀) : Durable (History.start m₀ db.wal.nextSeq) db := by
  obtain ⟨o, n, auto, pool, ho, hp, rfl⟩ := hs.eq
  obtain ⟨seq, -, hfile⟩ := ho.log
  obtain ⟨-, hdisk, -⟩ := BufferPool.new_ok hp
  refine ⟨by rintro _ _ ⟨⟩, fun id hid _ => ?_, fun _ v hv => ?_, fun _ _ id => ?_, trivial, ?_⟩
  · have hslot := ho.slots id hid.2
    have hlen := ((readAt_some_iff _ _ _ _).mp hslot).1
    rw [m₀.slot_data hid.1] at hslot
    rw [hdisk]
    exact ⟨ho.synced id hlen, hslot⟩
  · change v ∈ pool.disk.file.headers at hv
    rw [hdisk, ho.headers] at hv
    exact List.mem_singleton.mp hv
  · rw [hdisk]
    exact ho.notLost id
  · intro old header t w hu
    rw [hfile] at hu
    cases hu

end Durable

theorem durable_run {m₀ : PageMap} {db₀ db : Database} {es : List Event} (hs : db₀.Starts m₀)
    (hr : Run (Restrict Database.Step Guarded) db₀ es db) :
    Inv m₀ (History.of m₀ db₀.wal.nextSeq es) db ∧ Durable (History.of m₀ db₀.wal.nextSeq es) db := by
  apply hr.invariant (I := fun es db => Inv m₀ (History.of m₀ db₀.wal.nextSeq es) db ∧
    Durable (History.of m₀ db₀.wal.nextSeq es) db) ⟨Inv.start hs, Durable.start hs⟩
  rintro ls s l s' - ⟨hi, hd⟩ ⟨hstep, hg⟩
  rw [History.of_snoc]
  exact ⟨hi.step hstep, hd.step hi hg hstep⟩

end OxenDB
