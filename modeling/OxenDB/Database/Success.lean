import OxenDB.Database.Poison

namespace OxenDB

open Lib

def Event.Succeeds : Event → Prop
  | .ioError => False
  | .header ok => ok = true
  | .truncated ok => ok = true
  | .rewritten ok => ok = true
  | .pool a _ => a.wr = .ok ∧ a.rd = true
  | _ => True

/-- A commit keeps the page count below 2^51, so that every page has an offset in the file. -/
def Event.Bounded : Event → Prop
  | .logged c => c.pageCount.toNat < 2 ^ 51
  | _ => True

def Smooth (_ : Database) (e : Event) : Prop := e.Succeeds ∧ e.Bounded

structure Healthy (db : Database) : Prop where
  poisoned : db.poisoned = false
  running : ∀ f, db.holder ≠ .failed f
  drops : ∀ x ∈ db.pool.activities, ∀ e, x.task ≠ .drop (.error e)

theorem Holder.AfterCall.fails {r : Option (Owner × PageId × Except Error Unit)} {holder holder' : Holder}
    (h : AfterCall r holder holder') {f : Failure} (hr : holder ≠ .failed f) (hf : holder' = .failed f) : ∃ id e,
      r = some (.publisher, id, .error e) ∨ r = some (.checkpointer, id, .error e) := by
  cases h with
  | same => exact absurd hf hr
  | installFailed he => exact ⟨_, _, .inl he⟩
  | flushFailed he => exact ⟨_, _, .inr he⟩
  | installed | flushed => cases hf

section Step

variable {m₀ : PageMap} {h : History} {db db' : Database} {e : Event}

theorem Inv.pageCount_le (hi : Inv m₀ h db) (hg : Healthy db) : db.pool.disk.pageCount ≤ h.log.current.count := by
  have hcounted := hi.stored.counts.counted
  have hstuck := hi.logged.not_stuck hg.poisoned
  unfold PageCounted at hcounted
  cases hh : db.holder with
  | durable c =>
    rw [hh] at hcounted
    obtain ⟨s, hsince, hcount⟩ := hcounted
    have hchain := hi.logged.chain
    rw [hsince] at hchain
    rw [hcount, Log.current, hsince, PageMap.commits_append]
    exact hchain.last.2.count_le
  | publishing c todo =>
    rw [hh] at hcounted
    obtain ⟨⟨s, hsince⟩, hcount⟩ := hcounted
    rw [hcount, Log.current, hsince, PageMap.commits_append]
    exact UInt64.le_refl _
  | failed f => exact absurd hh (hg.running f)
  | _ =>
    rw [hh] at hcounted
    rw [hcounted hstuck]
    exact UInt64.le_refl _

theorem Inv.writeBack_succeeds (hi : Inv m₀ h db) (hlt : db.pool.disk.pageCount.toNat < 2 ^ 51) {id : PageId}
    {frame : Frame} (hf : db.pool.cache.frame id = some frame) :
    (frame.writeBack db.pool.disk id .ok).result = .ok () := by
  obtain ⟨page, dirty⟩ := frame
  cases dirty with
  | false => rfl
  | true =>
    obtain ⟨c, hc, hu⟩ := hi.stored.dirty id _ hf rfl
    have hvalid : page.Valid id := hi.logged.chain.valid (List.mem_flatMap_of_mem hc hu)
    have hpage := hi.stored.inside id _ hf rfl
    have hid := UInt64.lt_iff_toNat_lt.mp hpage.2
    rw [Database.writeBack_ok hvalid hpage]
    rw [fileOffset_toNat (by omega), slotOffset, pageSize, maxFileSize]
    omega

def History.shown (h : History) : Holder → PageMap
  | .durable _ => h.log.base.commits h.log.since.dropLast
  | .publishing _ _ => h.log.base.commits h.log.since.dropLast
  | _ => h.log.current

theorem Inv.shown_wellFormed (hi : Inv m₀ h db) : (h.shown db.holder).WellFormed := by
  have hdrop : Chain h.log.base h.log.since.dropLast := by
    have hchain := hi.logged.chain
    obtain ⟨rest, hrest⟩ := List.dropLast_prefix h.log.since
    rw [← hrest] at hchain
    exact hchain.of_append.1
  cases db.holder with
  | durable | publishing => exact hdrop.wellFormed hi.logged.base
  | _ => exact hi.logged.chain.wellFormed hi.logged.base

structure Unbroken (h : History) (db : Database) : Prop where
  stuck : h.stuck = none
  running : ∀ c, db.holder ≠ .failed (.publish c)

theorem Healthy.unbroken (hg : Healthy db) (hi : Inv m₀ h db) : Unbroken h db :=
  ⟨hi.logged.not_stuck hg.poisoned, fun _ => hg.running _⟩

theorem Inv.shown_visible (hi : Inv m₀ h db) (hw : Unbroken h db) (hp : ∀ c todo, db.holder ≠ .publishing c todo) :
    Visible db.pool.cache (h.shown db.holder) := by
  have hshown := hi.stored.shown
  unfold Shown at hshown
  cases hh : db.holder with
  | durable c =>
    rw [hh] at hshown
    obtain ⟨s, hsince, hv⟩ := hshown
    rw [History.shown, hsince, List.dropLast_concat]
    exact hv
  | publishing c todo => exact absurd hh (hp c todo)
  | failed f =>
    rw [hh] at hshown
    cases f with
    | publish c => exact absurd hh (hw.running c)
    | _ => exact hshown hw.stuck
  | _ =>
    rw [hh] at hshown
    exact hshown hw.stuck

theorem DiskManager.readPage_of_holds {d : DiskManager} {id : PageId} {page : Page} (hid : DataPage d.pageCount id)
    (hbound : d.pageCount.toNat ≤ 2 ^ 52) (hd : d.Holds id page) (hp : page.Valid id) :
    d.readPage id true = .ok page := by
  apply readPage_of_slot hid hp
  rw [fileOffset_toNat ((UInt64.lt_iff_toNat_lt.mp hid.2).trans_le hbound)]
  exact hd.2.2

theorem Inv.fetch_aimed (hi : Inv m₀ h db) {a : Action Owner} (ha : db.Allows a) {x : Activity Owner}
    (hx : a.starts = none ∧ x ∈ db.pool.activities ∨ a.starts = some x) (ht : x.task = .fetch) :
    DataPage db.pool.disk.pageCount x.id := by
  rcases hx with ⟨-, hx⟩ | hx
  · exact hi.stored.aimed x hx ht
  · cases a with
    | fetch owner id rd =>
      cases hx
      cases owner with
      | reader r k => exact checkDataPage_ok_iff.mp ha.2
      | writer k => exact hi.logged.writer_aimed hi.locks hi.stored.counts ha
      | publisher => exact False.elim ha
      | checkpointer => exact False.elim ha
    | install => cases hx; cases ht
    | flush => cases hx; cases ht
    | _ => cases hx

theorem Inv.call_failed (hi : Inv m₀ h db) (hg : Healthy db) (hlt : db.pool.disk.pageCount.toNat < 2 ^ 51)
    {a : Action Owner} {label : Label Owner} {pool : BufferPool Owner} (ha : db.Allows a) (hwr : a.wr = .ok)
    (hrd : a.rd = true) (hs : db.pool.step a = some (pool, label)) {owner : Owner} {id : PageId} {e : Error}
    (hret : label.returned = some (owner, id, .error e)) :
    owner ≠ .publisher ∧ owner ≠ .checkpointer ∧ (∃ msg, e = .resourceExhausted msg) ∧
      ∃ sh, db.pool.shards[db.pool.shardFor id]? = some sh ∧ sh.AllPinned := by
  obtain ⟨x, rfl, rfl, hm, hreason⟩ := (BufferPool.step_calls hi.locks.pool hs).failed hret
  have howned := hi.locks.call_owned ha hm
  have hwb : ∀ id frame, db.pool.cache.frame id = some frame →
      (frame.writeBack db.pool.disk id a.wr).result = .ok () := by
    intro id frame hframe
    rw [hwr]
    exact hi.writeBack_succeeds hlt hframe
  have hpub : x.owner ≠ .publisher := by
    intro hx
    obtain ⟨c, page, todo, hh, -⟩ := howned.of_publisher hx
    rw [hx] at hret
    obtain ⟨-, old, frame, hframe, -, hw⟩ := hi.install_failed hh ha hs hret
    rw [hwb old frame hframe] at hw
    cases hw
  have hdrop : x.task ≠ .drop (.error e) := by
    rcases hm with ⟨-, hm⟩ | hm
    · exact hg.drops x hm e
    · exact Action.starts_not_drop hm _
  have hcheck : x.owner ≠ .checkpointer := by
    intro hx
    obtain ⟨auto, i, todo, -, ht | ⟨r, ht⟩⟩ := howned.of_checkpointer hx
    · rcases hreason with ⟨hopening, -⟩ | hreason
      · rw [ht] at hopening
        exact hopening
      · exact hdrop hreason
    · rcases hreason with ⟨hopening, -⟩ | hreason
      · rw [ht] at hopening
        exact hopening
      · exact hdrop hreason
  refine ⟨hpub, hcheck, ?_⟩
  have hfetch := howned.task_fetch hpub hcheck
  rcases hreason with ⟨-, hreason⟩ | hreason
  · cases hreason with
    | exhausted msg hex =>
      obtain ⟨y, sh, hy, hsh, hall⟩ := hex
      rcases hm with ⟨hm, -⟩ | hm
      · cases hm.symm.trans hy
      · cases hm.symm.trans hy
        exact ⟨⟨msg, rfl⟩, sh, hsh, hall⟩
    | writeBack hf hw => cases (hwb _ _ hf).symm.trans hw
    | read _ hf hr =>
      have hvisible := hi.shown_visible (hg.unbroken hi) (fun c todo hh => hpub (hi.locks.publisher_alone hh howned))
      have hid := hi.fetch_aimed ha hm hfetch
      have hstep := (BufferPool.step_steps hi.locks.pool hi.stored.small ha.not_sync hs).step
      have hid' := hid
      rw [show db.pool.disk.pageCount = _ from hvisible.1] at hid'
      have hholds := hstep.holds hi.stored.small hf ((Cache.shows_uncached hf).mp (hvisible.2 _ hid'))
      rw [hrd, DiskManager.readPage_of_holds (by rw [hstep.pageCount]; exact hid)
        (by rw [hstep.pageCount]; exact hi.stored.small) hholds (hi.shown_wellFormed.pages _ hid')] at hr
      cases hr
    | misnamed _ ht => cases hfetch.symm.trans ht
  · exact absurd hreason hdrop

theorem Inv.call_succeeds (hi : Inv m₀ h db) (hg : Healthy db) (hlt : db.pool.disk.pageCount.toNat < 2 ^ 51)
    {a : Action Owner} {label : Label Owner} {pool : BufferPool Owner} (ha : db.Allows a) (hwr : a.wr = .ok)
    (hrd : a.rd = true) (hs : db.pool.step a = some (pool, label)) (f : Failure) :
    db.holder.afterCall label.returned ≠ .failed f := by
  intro hf
  obtain ⟨id, e, hret | hret⟩ := (Holder.afterCall_spec _ _).fails (hg.running _) hf
  · exact (hi.call_failed hg hlt ha hwr hrd hs hret).1 rfl
  · exact (hi.call_failed hg hlt ha hwr hrd hs hret).2.1 rfl

theorem CallStep.drops {c c' : Cache} {wr : WriteResult} {rd : Bool} {exhausted edits : Prop}
    {o : Option (Activity Owner)} {label : Label Owner} {acts acts' : List (Activity Owner)}
    (hcall : CallStep c c' wr rd exhausted edits o label acts acts')
    (hstart : ∀ x, o = some x → ∀ r, x.task ≠ .drop r)
    (hwb : ∀ id frame, c.frame id = some frame → (frame.writeBack c.disk id wr).result = .ok ())
    (hdrops : ∀ x ∈ acts, ∀ e, x.task ≠ .drop (.error e)) : ∀ x ∈ acts', ∀ e, x.task ≠ .drop (.error e) := by
  intro y hy e ht
  rcases hcall.mem_cases hy with hold | hnew | ⟨x, -, -, -, ⟨-, hdrop⟩ | ⟨frame, hf, -, hdrop⟩⟩
  · exact hdrops y hold e ht
  · exact hstart y hnew _ ht
  · cases ht.symm.trans hdrop
  · rw [hwb y.id frame hf] at hdrop
    cases ht.symm.trans hdrop

theorem Healthy.pool (hg : Healthy db) (hi : Inv m₀ h db) (hlt : db.pool.disk.pageCount.toNat < 2 ^ 51)
    {a : Action Owner} {label : Label Owner} {pool : BufferPool Owner} (hwr : a.wr = .ok)
    (hs : db.pool.step a = some (pool, label)) {holder : Holder} (hf : ∀ f, holder ≠ .failed f) :
    Healthy { db with pool := pool, holder := holder } := by
  refine ⟨hg.poisoned, hf, ?_⟩
  apply (BufferPool.step_calls hi.locks.pool hs).drops (fun x hx => Action.starts_not_drop hx) _ hg.drops
  intro id frame hframe
  rw [hwr]
  exact hi.writeBack_succeeds hlt hframe

theorem Healthy.wal (hg : Healthy db) (hl : Locks db) : db.wal.poisoned = false := by
  by_contra hp
  rcases hl.walHealthy (Bool.eq_true_of_not_eq_false hp) with hpoisoned | ⟨f, hf⟩
  · rw [hg.poisoned] at hpoisoned
    cases hpoisoned
  · exact hg.running f hf

theorem Inv.publish_grows (hi : Inv m₀ h db) {c : Commit} (hh : db.holder = .durable c) (e : Error) :
    db.pool.disk.setPageCount c.pageCount ≠ .error e := by
  intro hd
  have hcounted := hi.stored.counts.counted
  rw [PageCounted, hh] at hcounted
  obtain ⟨s, hsince, hcount⟩ := hcounted
  have hchain := hi.logged.chain
  rw [hsince] at hchain
  rw [DiskManager.setPageCount, hcount, if_neg (UInt64.not_lt.mpr hchain.last.2.count_le)] at hd
  cases hd

theorem Inv.reset_accepted (hi : Inv m₀ h db) (hw : db.wal.poisoned = false) {auto : Option Commit}
    (hh : db.holder = .checkpointing auto .reset) (e : Error) : db.wal.checkReset ≠ .error e := by
  intro hreset
  have hphase := hi.logged.phase
  rw [hh] at hphase
  rw [Wal.checkReset, Wal.checkPoisoned, hw, (hphase hw).1.batch] at hreset
  cases hreset

theorem Healthy.step (hg : Healthy db) (hi : Inv m₀ h db) (hlt : h.log.current.count.toNat < 2 ^ 51)
    (hs : Database.Step db e db') (he : e.Succeeds) : Healthy db' := by
  have hlt' : db.pool.disk.pageCount.toNat < 2 ^ 51 :=
    (UInt64.le_iff_toNat_le.mp (hi.pageCount_le hg)).trans_lt hlt
  have hwal := hg.wal hi.locks
  cases hs with
  | refuse | beginRead | readLock | readDrop | readCount | readOutside | beginWrite
  | writeLockPoisoned | writerCount | writerOutside | readDirty | beginCheckpoint => exact { hg with }
  | pool ha hs => exact hg.pool hi hlt' he.1 hs (hi.call_succeeds hg hlt' ha he.1 he.2 hs)
  | copyPage _ _ hs => exact hg.pool hi hlt' rfl hs (by rintro f ⟨⟩)
  | walWriteFail | walSyncFail | syncPagesFail | syncHeaderFail | resetSyncFail => exact False.elim he
  | writeFileHeaderFail | truncateFail | rewriteFail => cases he
  | poison hh => exact absurd hh (hg.running _)
  | publishShrink hh _ hd => exact absurd hd (hi.publish_grows hh _)
  | commitLogPoisoned _ _ _ _ happend =>
    rw [Wal.appendAll_ok _ _ hwal] at happend
    cases happend
  | resetRefused hh hreset => exact absurd hreset (hi.reset_accepted hwal hh _)
  | _ => exact ⟨hg.poisoned, by rintro f ⟨⟩, hg.drops⟩

end Step

namespace Database

variable {m₀ : PageMap} {h : History} {db₀ db : Database} {es : List Event}

theorem smooth_bounded (hr : Run (Restrict Database.Step Smooth) db₀ es db) :
    ∀ c ∈ loggedCommits es, c.pageCount.toNat < 2 ^ 51 := by
  apply hr.invariant (I := fun es _ => ∀ c ∈ loggedCommits es, c.pageCount.toNat < 2 ^ 51)
  · rintro c ⟨⟩
  · rintro ls s l s' - hbounded ⟨-, -, hl⟩ c hc
    rw [loggedCommits, List.filterMap_append, List.mem_append] at hc
    rcases hc with hc | hc
    · exact hbounded c hc
    · obtain ⟨e, he, hlogs⟩ := List.mem_filterMap.mp hc
      rw [List.mem_singleton] at he
      subst he
      cases e with
      | logged c' =>
        cases hlogs
        exact hl
      | _ => cases hlogs

theorem healthy_run (hs : db₀.Starts m₀) (hr : Run (Restrict Database.Step Smooth) db₀ es db) : Healthy db := by
  apply hr.invariant (I := fun _ db => Healthy db)
  · obtain ⟨o, n, auto, pool, ho, hp, rfl⟩ := hs.eq
    refine ⟨rfl, by rintro f ⟨⟩, fun x hx => ?_⟩
    rw [show BufferPool.activities _ = [] from BufferPool.new_activities hp] at hx
    cases hx
  · rintro ls s l s' hls hg ⟨hstep, hl, -⟩
    have hrun : Run Database.Step db₀ ls s := hls.mono (fun _ _ _ h => h.1)
    exact hg.step (Inv.run hs hrun) (current_count_lt hs hrun (smooth_bounded hls)) hstep hl

theorem returned_length (m₀ : PageMap) (seq : UInt64) (es : List Event) :
    (History.of m₀ seq es).returned = (es.filterMap Event.returns).length := by
  induction es using List.reverseRecOn with
  | nil => rfl
  | append_singleton es e ih =>
    rw [History.of_snoc, List.filterMap_append, List.length_append, ← ih]
    cases e with
    | resetDone auto => cases auto <;> rfl
    | poisoned f =>
      cases f with
      | checkpoint auto => cases auto <;> rfl
      | _ => rfl
    | _ => rfl

theorem Starts.visible (hs : db.Starts m₀) : Visible db.pool.cache m₀ := by
  have hi := Inv.start hs
  obtain ⟨o, n, auto, pool, -, -, rfl⟩ := hs.eq
  exact (@shown_settled _ _ .free rfl trivial).mp hi.stored.shown rfl

theorem owed_commits {holder : Holder} (h : holder.owed ≠ 0) : holder.owed = 1 ∧ holder.Commits := by
  cases holder with
  | durable | publishing | published => exact ⟨rfl, trivial⟩
  | checkpointing auto stage =>
    cases auto with
    | none => exact absurd rfl h
    | some c => exact ⟨rfl, trivial⟩
  | failed f =>
    cases f with
    | log => exact absurd rfl h
    | publish c => exact ⟨rfl, trivial⟩
    | checkpoint auto =>
      cases auto with
      | none => exact absurd rfl h
      | some c => exact ⟨rfl, trivial⟩
  | _ => exact absurd rfl h

theorem owed_le_one (hi : Inv m₀ h db) :
    db.holder.owed + h.stuck.toList.length + h.log.pending.toList.length ≤ 1 := by
  by_cases howed : db.holder.owed = 0
  · rw [howed, Nat.zero_add]
    by_cases hpending : h.log.pending = none
    · rw [hpending]
      cases h.stuck <;> simp
    · rw [(hi.counted.alone hpending).1]
      cases h.log.pending <;> simp
  · obtain ⟨hone, hcommits⟩ := owed_commits howed
    rw [hone, hi.counted.pending_none howed, hi.logged.not_stuck (hi.locks.healthy hcommits)]
    rfl

theorem logged_length (hs : db₀.Starts m₀) (hr : Run Database.Step db₀ es db) :
    (es.filterMap Event.returns).length ≤ (History.of m₀ db₀.wal.nextSeq es).all.length ∧
      (loggedCommits es).length ≤ (es.filterMap Event.returns).length + 1 := by
  have hi := Inv.run hs hr
  have hcount := hi.counted.count
  have hone := owed_le_one hi
  rw [← returned_length m₀ db₀.wal.nextSeq es, logged_run hs hr, List.length_append]
  omega

/-- After a crash of a run without failures, the database opens with the first `k` commits, of which
at most the last did not return. -/
theorem crash_keeps_commits (hs : db₀.Starts m₀) (hr : Run (Restrict Database.Step Smooth) db₀ es db)
    {data wal : Bytes} (hdata : db.pool.disk.file.Survives data) (hwal : db.walFile.Survives wal)
    (path : DbPath) (options : Options) (hn : options.bufferPoolPages ≠ 0) :
    ∃ db' k, Database.open path (some data) (some wal) options = .ok db' ∧
      Visible db'.pool.cache (m₀.commits ((loggedCommits es).take k)) ∧
      db'.Starts (m₀.commits ((loggedCommits es).take k)) ∧ k ≤ (loggedCommits es).length ∧
      (es.filterMap Event.returns).length ≤ k ∧ k ≤ (es.filterMap Event.returns).length + 1 := by
  have hrun : Run Database.Step db₀ es db := hr.mono (fun _ _ _ h => h.1)
  obtain ⟨o, cs, ho, has, hall, hlogged⟩ := recovers_logged hs
    (guarded_of_unpoisoned hrun (healthy_run hs hr).poisoned) (smooth_bounded hr) hdata hwal
  obtain ⟨db', hdb⟩ := assemble_ok o hn
  have hstarts : db'.Starts (m₀.commits cs) := ⟨o, options, has, hdb⟩
  have hopen : Database.open path (some data) (some wal) options = .ok db' := by
    rw [Database.open, ho]
    exact hdb
  obtain ⟨hreturned, hmore⟩ := logged_length hs hrun
  have hlen := hlogged.length_le
  refine ⟨db', cs.length, hopen, ?_, ?_, hlen, hreturned.trans hall.length_le, hlen.trans hmore⟩
  · rw [← List.prefix_iff_eq_take.mp hlogged]
    exact hstarts.visible
  · rw [← List.prefix_iff_eq_take.mp hlogged]
    exact hstarts

theorem smallest_smooth : ∃ es, Run (Restrict Database.Step Smooth) smallest es smallest.committed ∧
    loggedCommits es = [firstCommit] ∧ es.filterMap Event.returns = [firstCommit] ∧
    .published firstCommit ∈ es ∧ .commitOk firstCommit ∈ es := by
  have hrun := (smallest_published.step (.publishDone rfl)).step (.commitDone rfl rfl)
  have hcount : firstCommit.pageCount.toNat < 2 ^ 51 := by decide
  refine ⟨_, hrun.restrict (fun _ e he => ?_), rfl, rfl, by simp, by simp⟩
  simp only [List.mem_append, List.mem_cons, List.not_mem_nil, or_false] at he
  rcases he with (((rfl | rfl | rfl | rfl | rfl | rfl) | rfl | rfl | rfl) | rfl) | rfl <;> constructor <;> trivial

theorem crash_keeps_commits_first : ∃ db',
    Database.open .db (some FileHeader.new.encode.data) (some smallest.committed.walFile.contents)
      ⟨1, true, none⟩ = .ok db' ∧
    Visible db'.pool.cache (PageMap.commits ⟨1, fun _ => Page.zeroed⟩ [firstCommit]) := by
  obtain ⟨es, hrun, hlogged, hreturned, -, -⟩ := smallest_smooth
  have hwal := synced_log_survives smallest_starts (hrun.mono (fun _ _ _ h => h.1)) rfl
  obtain ⟨db', k, hopen, hvisible, -, -, hge, -⟩ := crash_keeps_commits smallest_starts hrun
    committed_data_survives hwal .db ⟨1, true, none⟩ Nat.one_ne_zero
  rw [hreturned] at hge
  rw [hlogged, List.take_of_length_le hge] at hvisible
  exact ⟨db', hopen, hvisible⟩

end Database

end OxenDB
