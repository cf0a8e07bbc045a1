import OxenDB.Database.Images

namespace OxenDB

open Lib

variable {α : Type}

def BufferPool.Unpinned (p : BufferPool α) : Prop := ∀ sh ∈ p.shards, ∀ n ∈ sh.state.pinCounts, n = 0

theorem Shard.Inv.pinCounts_zero {mine : PageId → Prop} {disk : DiskManager} {sh : Shard α}
    (h : sh.Inv mine disk) (hp : sh.pins = []) (f : ℕ) : sh.state.pinCounts.getD f 0 = 0 := by
  rw [h.books.counts, pinnedAt, hp]
  rfl

namespace BufferPool

variable {p : BufferPool α}

theorem pins_nil (ha : p.activities = []) {sh : Shard α} (hsh : sh ∈ p.shards) : sh.pins = [] := by
  have hacts := List.flatMap_eq_nil_iff.mp ha sh hsh
  rw [Shard.activities, List.append_eq_nil_iff, List.map_eq_nil_iff, List.map_eq_nil_iff] at hacts
  exact hacts.2

theorem unpinned (h : p.Inv) (ha : p.activities = []) : p.Unpinned := by
  intro sh hsh n hn
  obtain ⟨i, hi⟩ := List.mem_iff_getElem?.mp hsh
  obtain ⟨f, hf⟩ := List.mem_iff_getElem?.mp hn
  have hzero := (h.shards i sh hi).pinCounts_zero (pins_nil ha hsh) f
  rwa [List.getD_eq_getElem?_getD, hf, Option.getD_some] at hzero

theorem not_exhausted (h : p.Inv) (ha : p.activities = []) (a : Action α) : ¬ p.Exhausted a := by
  rintro ⟨x, sh, -, hsh, hall⟩
  have hinv := h.shards _ sh hsh
  have hzero := hinv.pinCounts_zero (pins_nil ha (List.mem_of_getElem? hsh)) 0
  have hpos := hall 0 hinv.books.capacity
  omega

end BufferPool

section CallStep

variable {c c' : Cache} {wr : WriteResult} {rd : Bool} {exhausted edits : Prop}
  {o : Option (Activity α)} {label : Label α} {acts acts' : List (Activity α)} {owner : α} {id : PageId}

theorem CallStep.ends (h : CallStep c c' wr rd exhausted edits o label acts acts') (hu : Unique acts)
    (hfresh : ∀ x, o = some x → x.owner ∉ acts.map Activity.owner) {res : Except Error Unit}
    (hr : label.returned = some (owner, id, res)) :
    (∃ x ∈ acts', x.owner = owner ∧ x.task = .fetch) ∨ owner ∉ acts'.map Activity.owner := by
  have gone : ∀ {x : Activity α} {rest : List (Activity α)} {id' : PageId} {r : Except Error Unit},
      label.returned = some (x.owner, id', r) → acts.Perm (x :: rest) → acts'.Perm rest →
      owner ∉ acts'.map Activity.owner := by
    intro x rest id' r hx hp hp' hm
    cases hx.symm.trans hr
    obtain ⟨y, hy, he⟩ := List.mem_map.mp hm
    exact (hu.perm hp.symm).not_mem (hp'.mem_iff.mp hy) he
  have refused : ∀ {x : Activity α} {id' : PageId} {r : Except Error Unit}, o = some x →
      label.returned = some (x.owner, id', r) → acts'.Perm acts → owner ∉ acts'.map Activity.owner := by
    intro x id' r ho hx hp hm
    cases hx.symm.trans hr
    exact hfresh x ho ((hp.map _).mem_iff.mp hm)
  cases h with
  | idle _ hn => cases hn.symm.trans hr
  | start _ hn hp =>
    rcases hn with hn | ⟨ht, hn⟩
    · cases hn.symm.trans hr
    · cases hn.symm.trans hr
      exact .inl ⟨_, hp.mem_iff.mpr List.mem_cons_self, rfl, ht⟩
  | refuse _ _ hn _ hp => exact .inr (refused rfl hn hp)
  | nothing _ _ _ hn hp => exact .inr (refused rfl hn hp)
  | resume _ _ hn _ hp' =>
    rcases hn with hn | ⟨ht, hn⟩
    · cases hn.symm.trans hr
    · cases hn.symm.trans hr
      exact .inl ⟨_, hp'.mem_iff.mpr List.mem_cons_self, rfl, ht⟩
  | fail _ _ hn _ hp hp' => exact .inr (gone hn hp hp')
  | installed _ _ _ _ hn hp hp' => exact .inr (gone hn hp hp')
  | replaced _ _ _ _ hn => cases hn.symm.trans hr
  | flushed _ _ hn => cases hn.symm.trans hr
  | guarded _ hn => cases hn.symm.trans hr
  | release _ _ hn => cases hn.symm.trans hr
  | «return» _ _ hn hp hp' => exact .inr (gone hn hp hp')

theorem CallStep.failed (h : CallStep c c' wr rd exhausted edits o label acts acts') {e : Error}
    (hr : label.returned = some (owner, id, .error e)) :
    ∃ x, x.owner = owner ∧ x.id = id ∧ (o = none ∧ x ∈ acts ∨ o = some x) ∧
      (x.task.Opening ∧ Reason c c' wr rd exhausted x e ∨ x.task = .drop (.error e)) := by
  cases h with
  | idle _ hn => cases hn.symm.trans hr
  | start _ hn =>
    rcases hn with hn | ⟨-, hn⟩
    · cases hn.symm.trans hr
    · cases hn.symm.trans hr
  | refuse _ ht hn he =>
    cases hn.symm.trans hr
    exact ⟨_, rfl, rfl, .inr rfl, .inl ⟨ht, he⟩⟩
  | nothing _ _ _ hn => cases hn.symm.trans hr
  | resume _ _ hn =>
    rcases hn with hn | ⟨-, hn⟩
    · cases hn.symm.trans hr
    · cases hn.symm.trans hr
  | fail _ ht hn he hp =>
    cases hn.symm.trans hr
    exact ⟨_, rfl, rfl, .inl ⟨rfl, hp.mem_iff.mpr List.mem_cons_self⟩, .inl ⟨ht, he⟩⟩
  | installed _ _ _ _ hn => cases hn.symm.trans hr
  | replaced _ _ _ _ hn => cases hn.symm.trans hr
  | flushed _ _ hn => cases hn.symm.trans hr
  | guarded _ hn => cases hn.symm.trans hr
  | release _ _ hn => cases hn.symm.trans hr
  | «return» _ ht hn hp =>
    cases hn.symm.trans hr
    exact ⟨_, rfl, rfl, .inl ⟨rfl, hp.mem_iff.mpr List.mem_cons_self⟩, .inr ht⟩

end CallStep

variable {m₀ : PageMap} {h : History} {db db' db₀ : Database} {es : List Event} {c : Commit}
  {todo : List (PageId × Page)}

theorem Owned.by_publisher {holder : Holder} {x : Activity Owner} (hx : Owned holder [] x)
    (hw : ∀ w, holder ≠ .writer w) (hc : ∀ auto stage, holder ≠ .checkpointing auto stage) :
    x.owner = .publisher := by
  unfold Owned at hx
  cases ho : x.owner with
  | reader r k =>
    rw [ho] at hx
    cases hx.1
  | writer k =>
    rw [ho] at hx
    obtain ⟨⟨w, hw'⟩, -⟩ := hx
    exact absurd hw' (hw w)
  | publisher => rfl
  | checkpointer =>
    rw [ho] at hx
    obtain ⟨auto, i, todo, hc', -⟩ := hx
    exact absurd hc' (hc auto _)

theorem Locks.call_owned (hl : Locks db) {a : Action Owner} (ha : db.Allows a) {x : Activity Owner}
    (hx : a.starts = none ∧ x ∈ db.pool.activities ∨ a.starts = some x) : Owned db.holder db.readers x := by
  rcases hx with ⟨-, hx⟩ | hx
  · exact hl.owned x hx
  · exact ha.owned hx

theorem Locks.publisher_alone (hl : Locks db) (hh : db.holder = .publishing c todo) {x : Activity Owner}
    (hx : Owned db.holder db.readers x) : x.owner = .publisher := by
  rw [hl.exclusive (by rw [hh]; rfl), hh] at hx
  exact hx.by_publisher (by rintro w ⟨⟩) (by rintro auto stage ⟨⟩)

theorem Locks.idle_publisher (hl : Locks db) (hh : db.holder = .publishing c todo)
    (hi : Owner.publisher ∉ db.pool.activities.map Activity.owner) : db.pool.activities = [] := by
  rw [List.eq_nil_iff_forall_not_mem]
  intro x hx
  apply hi
  rw [← hl.publisher_alone hh (hl.owned x hx)]
  exact List.mem_map_of_mem hx

theorem Inv.install_valid (hi : Inv m₀ h db) {x : Activity Owner} {page : Page}
    (hx : x ∈ db.pool.activities ∨ x.owner ∉ db.pool.activities.map Activity.owner)
    (ho : Owned db.holder db.readers x) (ht : x.task = .install page) : page.Valid x.id := by
  obtain ⟨c, todo, hpub, hh⟩ := ho.install ht
  obtain ⟨s, done, rest, hsince, hinst, ⟨todo', hh', hrem⟩, -, -⟩ := hi.stored.shown_publishing hh
  cases hh.symm.trans hh'
  have hext := (hsince ▸ hi.logged.chain).last.2
  have hrest : (x.id, page) :: todo = rest := by
    rcases hrem with ⟨y, hy, hyo, hyt, -⟩ | ⟨-, hrest⟩
    · rcases hx with hx | hx
      · have heq : x = y := List.inj_on_of_nodup_map hi.locks.unique hx hy (hpub.trans hyo.symm)
        rw [heq, hyt] at ht
        cases ht
      · exact absurd (List.mem_map.mpr ⟨y, hy, hyo.trans hpub.symm⟩) hx
    · exact hrest
  apply hext.valid (x.id, page)
  rw [← hext.installs_eq, hinst, ← hrest]
  exact List.mem_append_right _ List.mem_cons_self

theorem Inv.writeBack_error (hi : Inv m₀ h db) {id : PageId} {frame : Frame} {wr : WriteResult} {e : Error}
    (hf : db.pool.cache.frame id = some frame)
    (he : (frame.writeBack db.pool.disk id wr).result = .error e) : frame.dirty = true ∧ e = .io := by
  have hspec := frame.writeBack_spec db.pool.disk id wr
  generalize frame.writeBack db.pool.disk id wr = w at he hspec
  cases hspec with
  | clean => cases he
  | refused _ hd hn =>
    obtain ⟨c, hc, hu⟩ := hi.stored.dirty id frame hf hd
    refine absurd ⟨hi.stored.inside id frame hf hd, ?_⟩ hn
    exact (hi.logged.chain.valid (List.mem_flatMap_of_mem hc hu)).pageId_eq
  | beyond hd =>
    cases he
    exact ⟨hd, rfl⟩
  | failed _ hd =>
    cases he
    exact ⟨hd, rfl⟩
  | ok => cases he

theorem Inv.install_returned (hi : Inv m₀ h db) (hh : db.holder = .publishing c todo) {a : Action Owner}
    {label : Label Owner} {pool : BufferPool Owner} (ha : db.Allows a)
    (hs : db.pool.step a = some (pool, label)) {id : PageId} {res : Except Error Unit}
    (hret : label.returned = some (.publisher, id, res)) : pool.activities = [] := by
  have hl' := hi.locks.poolStep hi.stored.small ha hs
  have hreaders := hi.locks.exclusive (by rw [hh]; rfl)
  have howned : ∀ x ∈ pool.activities, x.owner = .publisher := by
    intro x hx
    have ho := hl'.owned x hx
    simp only [hreaders, hh] at ho
    have hspec := (Holder.publishing c todo).afterCall_spec label.returned
    generalize (Holder.publishing c todo).afterCall label.returned = holder' at hspec ho
    cases hspec with
    | same | installed | installFailed => exact ho.by_publisher (by rintro w ⟨⟩) (by rintro auto stage ⟨⟩)
  have hends := (BufferPool.step_calls hi.locks.pool hs).ends hi.locks.unique
    (fun _ hx => BufferPool.step_fresh hs hx) hret
  rcases hends with ⟨x, hx, hxo, ht⟩ | hgone
  · obtain ⟨_, _, _, -, ht' | ht'⟩ := (hl'.owned x hx).of_publisher hxo
    · cases ht.symm.trans ht'
    · cases ht.symm.trans ht'
  · rw [List.eq_nil_iff_forall_not_mem]
    intro x hx
    exact hgone (List.mem_map.mpr ⟨x, hx, howned x hx⟩)

theorem Inv.install_failed (hi : Inv m₀ h db) (hh : db.holder = .publishing c todo) {a : Action Owner}
    {label : Label Owner} {pool : BufferPool Owner} (ha : db.Allows a)
    (hs : db.pool.step a = some (pool, label)) {id : PageId} {e : Error}
    (hret : label.returned = some (.publisher, id, .error e)) :
    e = .io ∧ ∃ old frame, db.pool.cache.frame old = some frame ∧ frame.dirty = true ∧
      (frame.writeBack db.pool.disk old a.wr).result = .error .io := by
  obtain ⟨x, hx, -, hm, hreason⟩ := (BufferPool.step_calls hi.locks.pool hs).failed hret
  have howned := hi.locks.call_owned ha hm
  rcases hreason with ⟨-, hreason⟩ | hdrop
  · cases hreason with
    | exhausted _ hex =>
      -- Only the first step of the call looks for a frame, and then nothing is pinned.
      have ⟨y, _, hy, _⟩ := hex
      have hfresh := BufferPool.step_fresh hs hy
      rw [hi.locks.publisher_alone hh (ha.owned hy)] at hfresh
      exact absurd hex (BufferPool.not_exhausted hi.locks.pool (hi.locks.idle_publisher hh hfresh) a)
    | writeBack hf hw =>
      obtain ⟨hd, rfl⟩ := hi.writeBack_error hf hw
      exact ⟨rfl, _, _, hf, hd, hw⟩
    | read ht =>
      obtain ⟨_, _, _, -, ht' | ht'⟩ := howned.of_publisher hx
      · cases ht.symm.trans ht'
      · cases ht.symm.trans ht'
    | misnamed _ ht hne =>
      refine absurd (hi.install_valid ?_ howned ht).pageId_eq hne
      exact hm.imp And.right (BufferPool.step_fresh hs)
  · obtain ⟨_, _, _, -, ht' | ht'⟩ := howned.of_publisher hx
    · cases hdrop.symm.trans ht'
    · cases hdrop.symm.trans ht'

namespace Database

/-- While a commit is being published, no frame is pinned before or after any of its installs, and
an install fails only if the file refuses to take a dirty frame back. -/
theorem publish_never_exhausts (hs : db₀.Starts m₀) (hr : Run Database.Step db₀ es db)
    (hh : db.holder = .publishing c todo) :
    (db.pool.idle .publisher = true → db.pool.Unpinned) ∧
      ∀ a label db' id res, Database.Step db (.pool a label) db' →
        label.returned = some (.publisher, id, res) → db'.pool.Unpinned ∧
          ∀ e, res = .error e → e = .io ∧ ∃ old frame, db.pool.cache.frame old = some frame ∧
            frame.dirty = true ∧ (frame.writeBack db.pool.disk old a.wr).result = .error .io := by
  have hi := Inv.run hs hr
  refine ⟨fun hidle => ?_, fun a label db' id res hstep hret => ?_⟩
  · exact BufferPool.unpinned hi.locks.pool (hi.locks.idle_publisher hh (BufferPool.idle_iff.mp hidle))
  · have hl' := hi.locks.step hi.stored.small hstep
    cases hstep with
    | pool ha hs =>
      refine ⟨BufferPool.unpinned hl'.pool (hi.install_returned hh ha hs hret), ?_⟩
      rintro e rfl
      exact hi.install_failed hh ha hs hret

theorem commit_logged {w : WriteTxn} {pages : List (PageId × Page)} {n : ℕ} {seq : UInt64}
    (hh : db.holder = .writer w) (hw : ¬ db.Writing) (hd : w.dirty.isEmpty = false)
    (hp : sealPages w.dirty.toList = .ok pages) (hwal : db.wal = ⟨n, [], seq, false⟩)
    (hc : c = w.toCommit db.nextTxn db.pool.disk.pageCount pages) :
    Database.Step db (.logged c) { db with
      wal := ⟨n, encodeAll c.records seq, seq + UInt64.ofNat c.records.length, false⟩
      nextTxn := db.nextTxn + 1
      holder := .logging c } := by
  have happend : db.wal.appendAll c.records =
      .ok ⟨n, encodeAll c.records seq, seq + UInt64.ofNat c.records.length, false⟩ := by
    rw [hwal]
    exact Wal.appendAll_ok _ _ rfl
  subst hc
  exact .commitLog hh hw hd hp happend

theorem commit_written {n : ℕ} {batch : Bytes} {seq : UInt64} {poisoned : Bool} (hh : db.holder = .logging c)
    (hwal : db.wal = ⟨n, batch, seq, poisoned⟩) (hfit : n + batch.length ≤ maxFileSize) :
    Database.Step db .tau { db with
      holder := .flushing c
      walFile := ⟨writeAt db.walFile.contents n batch, .batch n batch⟩ } := by
  have hstep := Database.Step.walWrite hh (by rw [hwal]; exact hfit)
  simp only [hwal] at hstep ⊢
  exact hstep

theorem commit_run {w : WriteTxn} {pages : List (PageId × Page)} {n : ℕ} {seq : UInt64}
    (hh : db.holder = .writer w) (hw : ¬ db.Writing) (hd : w.dirty.isEmpty = false)
    (hp : sealPages w.dirty.toList = .ok pages) (hwal : db.wal = ⟨n, [], seq, false⟩)
    (hc : c = w.toCommit db.nextTxn db.pool.disk.pageCount pages)
    (hfit : n + (encodeAll c.records seq).length ≤ maxFileSize) :
    Run Database.Step db [.logged c, .tau, .durable c] { db with
      wal := ⟨n + (encodeAll c.records seq).length, [], seq + UInt64.ofNat c.records.length, false⟩
      walFile := ⟨writeAt db.walFile.contents n (encodeAll c.records seq), .none⟩
      nextTxn := db.nextTxn + 1
      holder := .durable c } :=
  ((Run.start.step (commit_logged hh hw hd hp hwal hc)).step (commit_written rfl rfl hfit)).step
    (.walSync rfl)

def smallest.durable : Database :=
  { smallest with
    wal := ⟨walHeaderSize + (encodeAll firstCommit.records 0).length, [],
      0 + UInt64.ofNat firstCommit.records.length, false⟩
    walFile := ⟨writeAt (encodeHeader 0) walHeaderSize (encodeAll firstCommit.records 0), .none⟩
    nextTxn := 2
    holder := .durable firstCommit }

theorem smallest_durable : Run Database.Step smallest
    [.tau, .writeBegan, .allocated .heap, .logged firstCommit, .tau, .durable firstCommit]
    smallest.durable := by
  exact firstWrite_run.trans (commit_run rfl firstWrite_idle rfl firstWrite_seals rfl rfl firstCommit_fits)

def Shard.holding (id : PageId) (frame : Frame) : Shard α :=
  ⟨[frame], ({ PoolState.new 1 with freeFrames := [] }.map id 0).touch 0, none, []⟩

theorem shardFor_single (sh : Shard α) (disk : DiskManager) (id : PageId) :
    BufferPool.shardFor ⟨[sh], disk⟩ id = 0 := Nat.and_zero _

theorem step_install_new [DecidableEq α] (disk : DiskManager) (owner : α) {id : PageId} {page : Page}
    (hp : page.pageId = id) : BufferPool.step ⟨[Shard.new 1], disk⟩ (.install owner id page) =
      some (⟨[{ (Shard.new 1 : Shard α) with
        state := { PoolState.new 1 with freeFrames := [] }
        held := some (.fill owner id page true 0) }], disk⟩, { }) := by
  simp only [BufferPool.step, hp]
  rw [if_pos (show BufferPool.idle _ _ = true from rfl), if_neg (not_not.mpr rfl), shardFor_single]
  rfl

theorem holding_cached (disk : DiskManager) (id : PageId) (frame : Frame) :
    BufferPool.cached (⟨[Shard.holding id frame], disk⟩ : BufferPool α) id = some frame := by
  rw [BufferPool.cached, shardFor_single]
  change (Function.update (fun _ => none) id (some 0) id).map _ = _
  rw [Function.update_self]
  rfl

def smallest.published : Database :=
  { smallest.durable with
    pool := ⟨[Shard.holding 1 ⟨firstPage, true⟩], { DiskManager.create with pageCount := 2 }⟩
    holder := .publishing firstCommit [] }

theorem firstPage_pageId : firstPage.pageId = 1 := by
  rw [firstPage, Page.seal_pageId, Page.new_pageId]

theorem smallest_published : Run Database.Step smallest
    ([.tau, .writeBegan, .allocated .heap, .logged firstCommit, .tau, .durable firstCommit] ++
      [.publishing firstCommit, .pool (.install .publisher 1 firstPage) { },
        .pool (.resume 0 .ok true)
          { update := some (1, firstPage), returned := some (.publisher, 1, .ok ()) }]) smallest.published := by
  have hlock : Database.Step smallest.durable (.publishing firstCommit) { smallest.durable with
      pool := ⟨[Shard.new 1], { DiskManager.create with pageCount := 2 }⟩
      holder := .publishing firstCommit [(1, firstPage)] } := .publishLock rfl rfl rfl
  have hinstall : Database.Step { smallest.durable with
      pool := ⟨[Shard.new 1], { DiskManager.create with pageCount := 2 }⟩
      holder := .publishing firstCommit [(1, firstPage)] } (.pool (.install .publisher 1 firstPage) { })
      { smallest.durable with
        pool := ⟨[{ (Shard.new 1 : Shard Owner) with
          state := { PoolState.new 1 with freeFrames := [] }
          held := some (.fill .publisher 1 firstPage true 0) }], { DiskManager.create with pageCount := 2 }⟩
        holder := .publishing firstCommit [(1, firstPage)] } :=
    .pool ⟨firstCommit, [], rfl⟩ (step_install_new _ _ firstPage_pageId)
  have hfill : Database.Step { smallest.durable with
      pool := ⟨[{ (Shard.new 1 : Shard Owner) with
        state := { PoolState.new 1 with freeFrames := [] }
        held := some (.fill .publisher 1 firstPage true 0) }], { DiskManager.create with pageCount := 2 }⟩
      holder := .publishing firstCommit [(1, firstPage)] }
      (.pool (.resume 0 .ok true)
        { update := some (1, firstPage), returned := some (.publisher, 1, .ok ()) }) smallest.published :=
    .pool trivial rfl
  exact smallest_durable.trans (((Run.start.step hlock).step hinstall).step hfill)

theorem publish_never_exhausts_first : ∃ db : Database,
    db.holder = .publishing firstCommit [(1, firstPage)] ∧ db.pool.Unpinned := by
  have hrun := smallest_durable.step (.publishLock rfl rfl rfl)
  exact ⟨_, rfl, (publish_never_exhausts smallest_starts hrun rfl).1 rfl⟩

end Database

end OxenDB
