import OxenDB.BufferPool.Progress
import OxenDB.Database.Publish
import OxenDB.Lib.Termination

namespace OxenDB

open Lib

def Event.Asks : Event → Prop
  | .readCalled _ => True
  | .counted _ _ => True
  | .pool (.fetch ..) _ => True
  | .pool (.guard _ _ .lockRead) _ => True
  | .pool (.guard _ _ .read) _ => True
  | .writerCounted _ => True
  | .allocated _ => True
  | .copied _ _ => True
  | .edited _ _ => True
  | .writerSaw _ _ => True
  | _ => False

def Event.Advances : Event → Prop
  | .refused _ => False
  | .readBegan _ => False
  | _ => True

/-- A step of a call in progress, or the end of a transaction. Of the refusals only that of a
`begin_write` that waited for the lock counts. -/
structure Database.Settles (db : Database) (e : Event) (db' : Database) : Prop where
  step : Step db e db'
  asks : ¬ e.Asks
  waiting : db'.waitingWrites + db'.waitingCheckpoints ≤ db.waitingWrites + db.waitingCheckpoints
  refused : ∀ err, e = .refused err → db'.waitingWrites < db.waitingWrites

inductive Txn
  | read (r : ℕ)
  | write

def Owner.txn : Owner → Option Txn
  | .reader r _ => some (.read r)
  | .writer _ => some .write
  | _ => none

/-- A settling step in which no thread that waits for a lock ends its transaction or drops its handles, `waits`
being the transactions of such threads; no reader passes a commit that waits for the publish lock. -/
structure Database.Proceeds (waits : Txn → Prop) (db : Database) (e : Event) (db' : Database) : Prop
    extends Settles db e db' where
  queue : ∀ r c, e = .readBegan r → db.holder ≠ .durable c
  readers : ∀ r ∈ db.readers, waits (.read r) → r ∈ db'.readers
  writer : ∀ w, db.holder = .writer w → waits .write → db'.holder = .writer w
  handles : ∀ x ∈ db.pool.activities, ∀ t, x.owner.txn = some t → waits t → x ∈ db'.pool.activities

def Database.Open (db : Database) : Txn → Prop
  | .read r => r ∈ db.readers
  | .write => ∃ w, db.holder = .writer w

structure Database.Idle (db : Database) : Prop where
  holder : db.holder = .free
  readers : db.readers = []
  waitingReads : db.waitingReads = []
  waitingWrites : db.waitingWrites = 0
  waitingCheckpoints : db.waitingCheckpoints = 0
  activities : db.pool.activities = []

def CheckpointAt.turns (sizes : List ℕ) : CheckpointAt → ℕ
  | .flush i none => ((sizes.drop i).map (fun n => 5 * n + 6)).sum + 10
  | .flush i (some todo) => ((sizes.drop (i + 1)).map (fun n => 5 * n + 6)).sum + 5 * todo.length + 11
  | .fsyncPages => 9
  | .fsyncingPages => 8
  | .header => 7
  | .fsyncHeader => 6
  | .fsyncingHeader => 5
  | .reset => 4
  | .truncated => 3
  | .rewritten => 2

def checkpointTurns (sizes : List ℕ) : ℕ := (CheckpointAt.flush 0 none).turns sizes

def Holder.turns (sizes : List ℕ) : Holder → ℕ
  | .free => 0
  | .writer w => checkpointTurns sizes + 5 * w.dirty.size + 15
  | .logging c => checkpointTurns sizes + 5 * c.installs.length + 9
  | .flushing c => checkpointTurns sizes + 5 * c.installs.length + 8
  | .durable c => checkpointTurns sizes + 5 * c.installs.length + 7
  | .publishing _ todo => checkpointTurns sizes + 5 * todo.length + 2
  | .published _ => checkpointTurns sizes + 1
  | .checkpointing _ stage => stage.turns sizes
  | .failed _ => 1

namespace Database

def due (db : Database) : ℕ :=
  match db.holder.caller with
  | some owner => if db.pool.idle owner then 4 else 0
  | none => 0

def turns (db : Database) : ℕ :=
  2 * db.waitingReads.length + db.readers.length +
    db.waitingWrites * (checkpointTurns db.pool.sizes + 16) +
    db.waitingCheckpoints * (checkpointTurns db.pool.sizes + 1) +
    db.holder.turns db.pool.sizes + db.due + db.pool.turns

structure Orderly (db : Database) : Prop where
  readOnly : db.pool.ReadOnly
  index : ∀ auto i todo, db.holder = .checkpointing auto (.flush i todo) →
    i ≤ db.pool.shards.length ∧ (todo ≠ none → i < db.pool.shards.length)

end Database

section Books

variable {mine : PageId → Prop} {n : ℕ} {st : PoolState} {reserved : Option ℕ} {pins : List (ℕ × PageId)}

theorem Books.cached_le (h : Books mine n st reserved pins) {ids : List PageId} (hn : ids.Nodup)
    (hm : ∀ id ∈ ids, st.pageTable id ≠ none) : ids.length ≤ n := by
  have hsub : ids.map some ⊆ st.framePages := by
    intro x hx
    obtain ⟨id, hid, rfl⟩ := List.mem_map.mp hx
    obtain ⟨f, hf⟩ := Option.ne_none_iff_exists'.mp (hm id hid)
    exact List.mem_of_getElem? ((h.mapped id f).mp hf)
  have hle := ((hn.map (Option.some_injective _)).subperm hsub).length_le
  rwa [List.length_map, h.framePages] at hle

theorem Books.exists_snapshot (h : Books mine n st reserved pins) :
    ∃ ids : List PageId, ids.Nodup ∧ ∀ id, id ∈ ids ↔ st.pageTable id ≠ none := by
  refine ⟨(st.framePages.filterMap id).dedup, List.nodup_dedup _, fun x => ?_⟩
  rw [List.mem_dedup, List.mem_filterMap]
  constructor
  · rintro ⟨y, hy, rfl⟩
    obtain ⟨f, hf⟩ := List.mem_iff_getElem?.mp hy
    rw [(h.mapped x f).mpr hf]
    exact Option.some_ne_none f
  · intro hx
    obtain ⟨f, hf⟩ := Option.ne_none_iff_exists'.mp hx
    exact ⟨some x, List.mem_of_getElem? ((h.mapped x f).mp hf), rfl⟩

end Books

section CallStep

variable {α : Type} {c c' : Cache} {wr : WriteResult} {rd : Bool} {exhausted edits : Prop}
  {o : Option (Activity α)} {label : Label α} {acts acts' : List (Activity α)}

theorem CallStep.leaves (h : CallStep c c' wr rd exhausted edits o label acts acts') {x : Activity α}
    (hx : x ∈ acts) (ht : x.task ≠ .fetch) (hout : x.owner ∉ acts'.map Activity.owner) :
    ∃ id r, label.returned = some (x.owner, id, r) := by
  have hstays : ¬ ∃ y ∈ acts', y.owner = x.owner := fun ⟨y, hy, ho⟩ => hout (ho ▸ List.mem_map_of_mem hy)
  have hgone : ∀ {y : Activity α} {rest : List (Activity α)}, acts.Perm (y :: rest) → acts'.Perm rest →
      x = y := by
    intro y rest hp hp'
    rcases List.mem_cons.mp (hp.mem_iff.mp hx) with rfl | hm
    · rfl
    · exact absurd ⟨x, hp'.mem_iff.mpr hm, rfl⟩ hstays
  have hkept : ∀ {y z : Activity α} {rest : List (Activity α)}, acts.Perm (y :: rest) →
      acts'.Perm (z :: rest) → z.owner = y.owner → False := by
    intro y z rest hp hp' ho
    rcases List.mem_cons.mp (hp.mem_iff.mp hx) with rfl | hm
    · exact hstays ⟨z, hp'.mem_iff.mpr List.mem_cons_self, ho⟩
    · exact hstays ⟨x, hp'.mem_iff.mpr (List.mem_cons_of_mem _ hm), rfl⟩
  have hsame : acts'.Perm acts → False := fun hp => hstays ⟨x, hp.mem_iff.mpr hx, rfl⟩
  cases h with
  | idle _ _ hp => exact (hsame hp).elim
  | start _ _ hp => exact absurd ⟨x, hp.mem_iff.mpr (List.mem_cons_of_mem _ hx), rfl⟩ hstays
  | refuse _ _ _ _ hp => exact (hsame hp).elim
  | nothing _ _ _ _ hp => exact (hsame hp).elim
  | resume _ _ _ hp hp' => exact (hkept hp hp' rfl).elim
  | fail _ _ hr _ hp hp' =>
    rw [hgone hp hp']
    exact ⟨_, _, hr⟩
  | installed _ _ _ _ hr hp hp' =>
    rw [hgone hp hp']
    exact ⟨_, _, hr⟩
  | replaced _ _ _ _ _ hp hp' => exact (hkept hp hp' rfl).elim
  | flushed _ _ _ _ _ hp hp' => exact (hkept hp hp' rfl).elim
  | guarded _ _ _ _ _ hp hp' => exact (hkept hp hp' rfl).elim
  | release _ hf _ hp hp' =>
    rw [hgone hp hp'] at ht
    exact absurd hf ht
  | «return» _ _ hr hp hp' =>
    rw [hgone hp hp']
    exact ⟨_, _, hr⟩

theorem CallStep.enters {x : Activity α} (h : CallStep c c' wr rd exhausted edits (some x) label acts acts')
    (ht : x.task ≠ .fetch) :
    (label.returned = none ∧ x.owner ∈ acts'.map Activity.owner) ∨
      ∃ r, label.returned = some (x.owner, x.id, r) := by
  cases h with
  | start _ hr hp =>
    rcases hr with hr | ⟨hf, -⟩
    · exact .inl ⟨hr, List.mem_map_of_mem (hp.mem_iff.mpr List.mem_cons_self)⟩
    · exact absurd hf ht
  | refuse _ _ hr _ _ => exact .inr ⟨_, hr⟩
  | nothing _ _ _ hr _ => exact .inr ⟨_, hr⟩

end CallStep

theorem checkpointTurns_pos (sizes : List ℕ) : 10 ≤ checkpointTurns sizes := Nat.le_add_left _ _

theorem CheckpointAt.flush_turns (sizes : List ℕ) (i : ℕ) (todo : Option (List PageId)) :
    10 ≤ (CheckpointAt.flush i todo).turns sizes := by
  cases todo with
  | none => exact Nat.le_add_left _ _
  | some todo => exact Nat.le_add_left_of_le (Nat.le_succ 10)

theorem Holder.AfterCall.turns {r : Option (Owner × PageId × Except Error Unit)} {holder holder' : Holder}
    (h : AfterCall r holder holder') (sizes : List ℕ) : holder'.turns sizes + 4 < holder.turns sizes ∨
      holder' = holder ∧ ∀ owner id res, holder.caller = some owner → r ≠ some (owner, id, res) := by
  have hpos := checkpointTurns_pos sizes
  cases h with
  | same hr => exact .inr ⟨rfl, hr⟩
  | installed | installFailed =>
    left
    simp only [Holder.turns, List.length_cons]
    omega
  | flushed =>
    left
    simp only [Holder.turns, CheckpointAt.turns, List.length_cons]
    omega
  | @flushFailed auto i todo =>
    have hflush := CheckpointAt.flush_turns sizes i todo
    left
    simp only [Holder.turns]
    omega

theorem Holder.AfterCall.flush {r : Option (Owner × PageId × Except Error Unit)} {holder holder' : Holder}
    (h : AfterCall r holder holder') {auto : Option Commit} {i : ℕ} {todo : Option (List PageId)}
    (he : holder' = .checkpointing auto (.flush i todo)) :
    ∃ todo', holder = .checkpointing auto (.flush i todo') ∧ (todo ≠ none → todo' ≠ none) := by
  cases h with
  | same => exact ⟨todo, he, id⟩
  | flushed =>
    cases he
    exact ⟨_, rfl, fun _ => Option.some_ne_none _⟩
  | installed | installFailed | flushFailed => cases he

theorem Holder.caller_owner {holder : Holder} {owner : Owner} (h : holder.caller = some owner) :
    owner = .publisher ∨ owner = .checkpointer := by
  rw [caller.eq_def] at h
  split at h
  · cases h
    exact .inl rfl
  · cases h
    exact .inr rfl
  · cases h

theorem Owned.of_caller {holder : Holder} {readers : List ℕ} {x : Activity Owner} (h : Owned holder readers x)
    (hc : holder.caller = some x.owner) : x.task ≠ .fetch := by
  intro ht
  rcases Holder.caller_owner hc with ho | ho
  · obtain ⟨_, _, _, -, hx | hx⟩ := h.of_publisher ho
    · cases ht.symm.trans hx
    · cases ht.symm.trans hx
  · obtain ⟨_, _, _, -, hx | ⟨r, hx⟩⟩ := h.of_checkpointer ho
    · cases ht.symm.trans hx
    · cases ht.symm.trans hx

theorem Commit.installs_le (c : Commit) : c.installs.length ≤ c.pages.length + 1 :=
  (List.length_filter_le _ _).trans c.images_length_le

theorem sealPages_length {w : WriteTxn} {pages : List (PageId × Page)} (h : sealPages w.dirty.toList = .ok pages) :
    pages.length = w.dirty.size := by
  rw [(sealPages_ok h).1, List.length_map, Std.TreeMap.length_toList]

namespace Database

variable {m₀ : PageMap} {h : History} {db db' db₀ : Database} {e : Event} {es : List Event}

theorem due_le (db : Database) : db.due ≤ 4 := by
  rw [due]
  split
  · split_ifs
    · exact le_rfl
    · exact Nat.zero_le 4
  · exact Nat.zero_le 4

theorem due_none (hc : db.holder.caller = none) : db.due = 0 := by
  rw [due, hc]

theorem turns_advance {holder holder' : Holder} (hh : db.holder = holder) (hh' : db'.holder = holder')
    (hreads : db'.waitingReads = db.waitingReads) (hreaders : db'.readers = db.readers)
    (hwrites : db'.waitingWrites = db.waitingWrites)
    (hchecks : db'.waitingCheckpoints = db.waitingCheckpoints)
    (hpool : db'.pool.shards = db.pool.shards)
    (hlt : holder'.turns db.pool.sizes + 4 < holder.turns db.pool.sizes ∨
      holder'.caller = none ∧ holder'.turns db.pool.sizes < holder.turns db.pool.sizes) :
    db'.turns < db.turns := by
  have hsizes : db'.pool.sizes = db.pool.sizes := by rw [BufferPool.sizes, hpool]; rfl
  have hturns : db'.pool.turns = db.pool.turns := by rw [BufferPool.turns, hpool]; rfl
  rw [turns, turns, hreads, hreaders, hwrites, hchecks, hsizes, hturns, hh, hh']
  rcases hlt with hlt | ⟨hc, hlt⟩
  · have hdue := db'.due_le
    omega
  · rw [due_none (by rw [hh']; exact hc)]
    omega

theorem turns_finish (hl : Locks db) {a : Action Owner} {label : Label Owner} {pool : BufferPool Owner}
    (hs : db.pool.step a = some (pool, label)) (ha : a.Finishes) :
    turns { db with pool := pool, holder := db.holder.afterCall label.returned } < db.turns := by
  have hkept := hl.pool.kept
  have hsizes := (hkept.step hs).sizes
  have hpool := BufferPool.step_turns_lt hkept ha hs
  simp only [turns, hsizes]
  rcases (db.holder.afterCall_spec label.returned).turns db.pool.sizes with hlt | ⟨heq, hnot⟩
  · have hdue := due_le { db with pool := pool, holder := db.holder.afterCall label.returned }
    omega
  · rw [heq]
    -- The holder's own call is still in progress, for it has not returned.
    suffices hdue : due { db with pool := pool } ≤ db.due by omega
    rw [due, due]
    change (match db.holder.caller with | some owner => if pool.idle owner then 4 else 0 | none => 0) ≤ _
    cases hc : db.holder.caller with
    | none => exact le_rfl
    | some owner =>
      simp only
      by_cases hidle : db.pool.idle owner = true
      · rw [if_pos hidle]
        split_ifs
        · exact le_rfl
        · exact Nat.zero_le 4
      · rw [if_neg hidle, if_neg]
        intro hout
        rw [BufferPool.idle_iff, not_not] at hidle
        obtain ⟨x, hx, rfl⟩ := List.mem_map.mp hidle
        rw [BufferPool.idle_iff] at hout
        obtain ⟨id, r, hr⟩ :=
          (BufferPool.step_calls hl.pool hs).leaves hx ((hl.owned x hx).of_caller hc) hout
        exact hnot _ id r hc hr

theorem turns_call (hl : Locks db) {a : Action Owner} {label : Label Owner} {pool : BufferPool Owner}
    {x : Activity Owner} (hx : a.starts = some x) (ht : x.task ≠ .fetch) (hc : db.holder.caller = some x.owner)
    (hs : db.pool.step a = some (pool, label)) :
    turns { db with pool := pool, holder := db.holder.afterCall label.returned } < db.turns := by
  have hkept := hl.pool.kept
  have hsizes := (hkept.step hs).sizes
  have hpool := BufferPool.step_turns_le hkept hx hs
  have hdue : db.due = 4 := by
    rw [due, hc]
    exact if_pos (BufferPool.idle_iff.mpr (BufferPool.step_fresh hs hx))
  have hcall := BufferPool.step_calls hl.pool hs
  rw [hx] at hcall
  simp only [turns, hsizes, hdue]
  rcases (db.holder.afterCall_spec label.returned).turns db.pool.sizes with hlt | ⟨heq, hnot⟩
  · have hdue' := due_le { db with pool := pool, holder := db.holder.afterCall label.returned }
    omega
  · rcases hcall.enters ht with ⟨-, hin⟩ | ⟨r, hr⟩
    · have hdue' : due { db with pool := pool, holder := db.holder.afterCall label.returned } = 0 := by
        rw [due, heq, hc]
        refine if_neg (fun hidle => ?_)
        exact BufferPool.idle_iff.mp hidle hin
      rw [heq] at hdue' ⊢
      omega
    · exact absurd hr (hnot _ _ _ hc)

theorem snapshot_turns {sizes : List ℕ} {i n : ℕ} {ids : List PageId} (hn : sizes[i]? = some n)
    (hle : ids.length ≤ n) (auto : Option Commit) :
    (Holder.checkpointing auto (.flush i (some ids))).turns sizes + 4 <
      (Holder.checkpointing auto (.flush i none)).turns sizes := by
  obtain ⟨hlt, rfl⟩ := List.getElem?_eq_some_iff.mp hn
  simp only [Holder.turns, CheckpointAt.turns]
  rw [List.drop_eq_getElem_cons hlt, List.map_cons, List.sum_cons]
  omega

theorem turns_poolStep (hl : Locks db) {a : Action Owner} {label : Label Owner} {pool : BufferPool Owner}
    (ha : db.Allows a) (hs : db.pool.step a = some (pool, label)) (hasks : ¬ (Event.pool a label).Asks) :
    turns { db with pool := pool, holder := db.holder.afterCall label.returned } < db.turns := by
  cases a with
  | fetch => exact absurd trivial hasks
  | install owner id page =>
    cases owner with
    | publisher =>
      obtain ⟨c, todo, hh⟩ := ha
      exact turns_call hl rfl (by rintro ⟨⟩) (by rw [hh]; rfl) hs
    | reader | writer | checkpointer => exact False.elim ha
  | flush owner id =>
    cases owner with
    | checkpointer =>
      obtain ⟨auto, i, todo, hh⟩ := ha
      exact turns_call hl rfl (by rintro ⟨⟩) (by rw [hh]; rfl) hs
    | reader | writer | publisher => exact False.elim ha
  | resume | work | unpin => exact turns_finish hl hs trivial
  | guard i k g =>
    rcases ha with rfl | rfl | rfl
    · exact absurd trivial hasks
    · exact absurd trivial hasks
    · exact turns_finish hl hs trivial
  | sync => exact False.elim ha

theorem Settles.turns_lt (hs : db.Settles e db') (hl : Locks db) : db'.turns < db.turns := by
  obtain ⟨hstep, hasks, hwaiting, hrefused⟩ := hs
  have hpos := checkpointTurns_pos db.pool.sizes
  cases hstep with
  | refuse | readOutside | writerOutside => exact absurd (hrefused _ rfl) (Nat.lt_irrefl _)
  | beginRead | readCount | writerCount | allocatePage | copyPage | editPage | readDirty =>
    exact absurd trivial hasks
  | beginWrite =>
    exfalso
    simp only at hwaiting
    omega
  | beginCheckpoint =>
    exfalso
    simp only at hwaiting
    omega
  | @readLock r hr hx =>
    have hlen := List.length_erase_of_mem hr
    have hne := List.length_pos_of_mem hr
    have hdue : due { db with waitingReads := db.waitingReads.erase r, readers := r :: db.readers } = db.due := rfl
    simp only [turns, hlen, hdue, List.length_cons]
    omega
  | @readDrop r hr hx =>
    have hlen := List.length_erase_of_mem hr
    have hne := List.length_pos_of_mem hr
    have hdue : due { db with readers := db.readers.erase r } = db.due := rfl
    simp only [turns, hlen, hdue]
    omega
  | pool ha hs => exact turns_poolStep hl ha hs hasks
  | writeLock hw hh hp =>
    obtain ⟨n, hn⟩ := Nat.exists_eq_succ_of_ne_zero hw.ne'
    have hdue : due { db with
        waitingWrites := n, holder := .writer ⟨∅, db.pool.disk.pageCount⟩ } = 0 := due_none rfl
    simp only [turns, hn, Nat.succ_sub_one, hdue, Nat.succ_mul, Holder.turns, Std.TreeMap.size_emptyc]
    omega
  | writeLockPoisoned hw hh hp =>
    obtain ⟨n, hn⟩ := Nat.exists_eq_succ_of_ne_zero hw.ne'
    have hdue : due { db with waitingWrites := n } = db.due := rfl
    simp only [turns, hn, Nat.succ_sub_one, hdue, Nat.succ_mul]
    omega
  | rollback hh | commitEmpty hh | commitMalformed hh =>
    refine turns_advance hh rfl rfl rfl rfl rfl rfl (.inr ⟨rfl, ?_⟩)
    simp only [Holder.turns]
    omega
  | @commitLog w pages wal hh hw hne hseal happend =>
    refine turns_advance hh rfl rfl rfl rfl rfl rfl (.inr ⟨rfl, ?_⟩)
    have hle := (w.toCommit db.nextTxn db.pool.disk.pageCount pages).installs_le
    change _ ≤ pages.length + 1 at hle
    rw [sealPages_length hseal] at hle
    simp only [Holder.turns]
    omega
  | commitLogPoisoned hh | walWrite hh | walWriteFail hh | walSync hh | walSyncFail hh
  | publishShrink hh | publishDone hh | commitDone hh | autoCheckpoint hh | flushedAll hh | syncPages hh
  | syncedPages hh | syncPagesFail hh | writeFileHeader hh | writeFileHeaderFail _ hh | syncHeader hh
  | syncedHeader hh | syncHeaderFail hh | resetRefused hh | truncate hh | truncateFail _ hh
  | rewrite hh | rewriteFail _ hh | resetSync hh | resetSyncFail hh | poison hh | nextShard hh =>
    refine turns_advance hh rfl rfl rfl rfl rfl rfl (.inr ⟨rfl, ?_⟩)
    simp only [Holder.turns, CheckpointAt.turns, checkpointTurns, List.length_nil]
    omega
  | publishLock hh =>
    refine turns_advance hh rfl rfl rfl rfl rfl rfl (.inl ?_)
    simp only [Holder.turns]
    omega
  | checkpointLock hw hh =>
    obtain ⟨n, hn⟩ := Nat.exists_eq_succ_of_ne_zero hw.ne'
    have hdue : due { db with
        waitingCheckpoints := n, holder := .checkpointing none (.flush 0 none) } = 0 := due_none rfl
    simp only [turns, hn, Nat.succ_sub_one, hdue, Nat.succ_mul, Holder.turns, checkpointTurns]
    omega
  | @snapshot auto i sh ids hh hlock hn hm =>
    refine turns_advance hh rfl rfl rfl rfl rfl rfl (.inl (snapshot_turns (n := sh.frames.length) ?_ ?_ auto))
    · rw [BufferPool.sizes, List.getElem?_map, (BufferPool.lockState_some hlock).1]
      rfl
    · have hbooks := (hl.pool.shards _ _ (BufferPool.lockState_some hlock).1).books
      exact hbooks.cached_le hn (fun id hid => (hm id).mp hid)

theorem Orderly.move (ho : db.Orderly) (hpool : db'.pool.shards = db.pool.shards)
    (hflush : ∀ auto i todo, db'.holder = .checkpointing auto (.flush i todo) →
      i ≤ db.pool.shards.length ∧ (todo ≠ none → i < db.pool.shards.length)) : db'.Orderly := by
  refine ⟨?_, ?_⟩
  · rw [BufferPool.ReadOnly, hpool]
    exact ho.readOnly
  · rw [hpool]
    exact hflush

theorem Orderly.step (ho : db.Orderly) (hl : Locks db) (hs : Step db e db') : db'.Orderly := by
  cases hs with
  | refuse | beginRead | readLock | readDrop | readCount | readOutside | beginWrite | writeLockPoisoned
  | writerCount | writerOutside | readDirty | beginCheckpoint => exact ho.move rfl ho.index
  | @pool a label pool ha hs =>
    have hlen : pool.shards.length = db.pool.shards.length := by
      have hsizes := congrArg List.length (hl.pool.kept.step hs).sizes
      rwa [BufferPool.sizes, BufferPool.sizes, List.length_map, List.length_map] at hsizes
    refine ⟨ho.readOnly.step hl.pool.kept ha.not_edits hs, fun auto i todo hh => ?_⟩
    obtain ⟨todo', hh, himp⟩ := (Holder.afterCall_spec _ _).flush hh
    obtain ⟨hle, hlt⟩ := ho.index auto i todo' hh
    rw [hlen]
    exact ⟨hle, fun hn => hlt (himp hn)⟩
  | copyPage _ _ hs => exact ⟨ho.readOnly.step hl.pool.kept id hs, by rintro auto i todo ⟨⟩⟩
  | writeLock | allocatePage | editPage | rollback | commitEmpty | commitMalformed | commitLog
  | commitLogPoisoned | walWrite | walWriteFail | walSync | walSyncFail | publishLock | publishShrink
  | publishDone | commitDone | flushedAll | syncPages | syncedPages | syncPagesFail | writeFileHeader
  | writeFileHeaderFail | syncHeader | syncedHeader | syncHeaderFail | resetRefused | truncate
  | truncateFail | rewrite | rewriteFail | resetSync | resetSyncFail | poison =>
    exact ho.move rfl (by rintro auto i todo ⟨⟩)
  | autoCheckpoint | checkpointLock =>
    refine ho.move rfl ?_
    rintro auto i todo ⟨⟩
    exact ⟨Nat.zero_le _, fun hn => absurd rfl hn⟩
  | @snapshot auto i sh ids hh hlock =>
    have hlt := (List.getElem?_eq_some_iff.mp (BufferPool.lockState_some hlock).1).1
    refine ho.move rfl ?_
    rintro auto i todo ⟨⟩
    exact ⟨hlt.le, fun _ => hlt⟩
  | nextShard hh =>
    have hlt := (ho.index _ _ _ hh).2 (Option.some_ne_none _)
    refine ho.move rfl ?_
    rintro auto i todo ⟨⟩
    exact ⟨hlt, fun hn => absurd rfl hn⟩

theorem Orderly.run (hs : db₀.Starts m₀) (hr : Run Step db₀ es db) : db.Orderly := by
  apply hr.invariant (I := fun _ db => db.Orderly)
  · obtain ⟨o, n, auto, pool, ho, hp, rfl⟩ := hs.eq
    refine ⟨fun sh hsh q hq => ?_, by rintro auto i todo ⟨⟩⟩
    obtain ⟨i, hi⟩ := List.mem_iff_getElem?.mp hsh
    obtain ⟨capacity, -, rfl⟩ := BufferPool.new_shards hp i sh hi
    cases hq
  · intro ls s l s' hr ho hstep
    exact ho.step (Inv.run hs hr).locks hstep

theorem Settles.of_step (hs : Step db e db') (ha : ¬ e.Asks) (hr : ∀ err, e ≠ .refused err)
    (hw : db'.waitingWrites = db.waitingWrites) (hc : db'.waitingCheckpoints = db.waitingCheckpoints) :
    db.Settles e db' :=
  ⟨hs, ha, by rw [hw, hc], fun err he => absurd he (hr err)⟩

theorem lockState_free {p : BufferPool Owner} (hp : p.activities = []) {i : ℕ} (hi : i < p.shards.length) :
    ∃ sh, p.lockState i = some sh := by
  obtain ⟨sh, hsh⟩ : ∃ sh, p.shards[i]? = some sh := ⟨_, List.getElem?_eq_getElem hi⟩
  have hacts := List.flatMap_eq_nil_iff.mp hp sh (List.mem_of_getElem? hsh)
  refine ⟨sh, ?_⟩
  rw [BufferPool.lockState, hsh, Option.filter_some, if_pos]
  cases hh : sh.held with
  | none => rfl
  | some s =>
    rw [Shard.activities_held hh] at hacts
    cases hacts

theorem idle_free {p : BufferPool Owner} (hp : p.activities = []) (owner : Owner) : p.idle owner = true := by
  rw [BufferPool.idle_iff, hp]
  exact List.not_mem_nil

theorem exists_settle_holder (hi : Inv m₀ h db) (ho : db.Orderly) (hacts : db.pool.activities = [])
    (hreaders : db.readers = []) (hh : db.holder ≠ .free) :
    ∃ e db', db.Settles e db' ∧ ∀ r, e ≠ .readBegan r := by
  have hquiet : ¬ db.Writing := by
    rintro ⟨x, hx, -⟩
    rw [hacts] at hx
    cases hx
  have hok : ∀ {e : Event} {db' : Database}, Step db e db' → ¬ e.Asks → e.Advances →
      db'.waitingWrites = db.waitingWrites → db'.waitingCheckpoints = db.waitingCheckpoints →
      ∃ e db', db.Settles e db' ∧ ∀ r, e ≠ .readBegan r := by
    intro e db' hs ha hadv hw hc
    exact ⟨e, db', .of_step hs ha (by rintro err rfl; exact hadv) hw hc, by rintro r rfl; exact hadv⟩
  have hcall : ∀ {a : Action Owner} {r : BufferPool Owner × Label Owner}, db.Allows a →
      db.pool.step a = some r → ¬ (Event.pool a r.2).Asks →
      ∃ e db', db.Settles e db' ∧ ∀ r, e ≠ .readBegan r :=
    fun ha hs hasks => hok (.pool ha hs) hasks trivial rfl rfl
  have hphase := hi.logged.phase
  cases hholder : db.holder with
  | free => exact absurd hholder hh
  | writer w => exact hok (.rollback hholder hquiet) id trivial rfl rfl
  | logging c =>
    rw [hholder] at hphase
    by_cases hfits : db.wal.durableLen + db.wal.pending.length ≤ maxFileSize
    · exact hok (.walWrite hholder hfits) id trivial rfl rfl
    · have htorn := TornBatch.take c.records h.log.nextSeq 0
      rw [← hphase.1.batch, List.take_zero] at htorn
      refine hok (.walWriteFail hholder htorn ?_) id trivial rfl rfl
      rw [hi.logged.durableLen]
      exact hi.logged.room
  | flushing c => exact hok (.walSync hholder) id trivial rfl rfl
  | durable c =>
    cases hd : db.pool.disk.setPageCount c.pageCount with
    | error e => exact hok (.publishShrink hholder hreaders hd) id trivial rfl rfl
    | ok disk => exact hok (.publishLock hholder hreaders hd) id trivial rfl rfl
  | publishing c todo =>
    cases todo with
    | nil => exact hok (.publishDone hholder) id trivial rfl rfl
    | cons u todo =>
      obtain ⟨id, page⟩ := u
      have ha : db.Allows (.install .publisher id page) := ⟨c, todo, hholder⟩
      have hsome : ∃ r, db.pool.step (.install .publisher id page) = some r := by
        simp only [BufferPool.step, idle_free hacts, if_true]
        split_ifs
        · exact ⟨_, rfl⟩
        · obtain ⟨sh, hsh⟩ := lockState_free hacts (BufferPool.shardFor_lt hi.locks.pool.nonempty id)
          rw [hsh]
          exact ⟨_, rfl⟩
      obtain ⟨r, hr⟩ := hsome
      exact hcall ha hr (fun hf => hf)
  | published c =>
    cases hauto : db.autoCheckpoint with
    | false => exact hok (.commitDone hholder hauto) id trivial rfl rfl
    | true => exact hok (.autoCheckpoint hholder hauto) id trivial rfl rfl
  | failed f => exact hok (.poison hholder) id trivial rfl rfl
  | checkpointing auto stage =>
    cases stage with
    | flush i todo =>
      obtain ⟨hle, hlt⟩ := ho.index auto i todo hholder
      rcases todo with _ | _ | ⟨id, todo⟩
      · rcases hle.eq_or_lt with heq | hlt
        · exact hok (.flushedAll hholder heq) id trivial rfl rfl
        · obtain ⟨sh, hsh⟩ := lockState_free hacts hlt
          have hbooks := (hi.locks.pool.shards _ _ (BufferPool.lockState_some hsh).1).books
          obtain ⟨ids, hnodup, hids⟩ := hbooks.exists_snapshot
          exact hok (.snapshot hholder hsh hnodup hids) id trivial rfl rfl
      · exact hok (.nextShard hholder) id trivial rfl rfl
      · have ha : db.Allows (.flush .checkpointer id) := ⟨auto, i, todo, hholder⟩
        obtain ⟨sh, hsh⟩ := lockState_free hacts (BufferPool.shardFor_lt hi.locks.pool.nonempty id)
        have hr : db.pool.step (.flush .checkpointer id) =
            some (db.pool.put (db.pool.shardFor id) (sh.flushPage .checkpointer id)) := by
          simp only [BufferPool.step, idle_free hacts, if_true, hsh, Option.map_some]
        exact hcall ha hr (fun hf => hf)
    | fsyncPages => exact hok (.syncPages hholder) id trivial rfl rfl
    | fsyncingPages => exact hok (.syncedPages hholder) id trivial rfl rfl
    | header => exact hok (.writeFileHeader hholder) id trivial rfl rfl
    | fsyncHeader => exact hok (.syncHeader hholder) id trivial rfl rfl
    | fsyncingHeader => exact hok (.syncedHeader hholder) id trivial rfl rfl
    | reset =>
      cases hreset : db.wal.checkReset with
      | error e => exact hok (.resetRefused hholder hreset) id trivial rfl rfl
      | ok u => exact hok (.truncate hholder hreset) id trivial rfl rfl
    | truncated =>
      rw [hholder] at hphase
      exact hok (.rewrite hholder (by rw [hphase.2])) id trivial rfl rfl
    | rewritten => exact hok (.resetSync hholder) id trivial rfl rfl

theorem Settles.proceeds {waits : Txn → Prop} (hs : db.Settles e db') (hl : Locks db)
    (hw : ∀ t, db.Open t → ¬ waits t) (hq : ∀ r c, e = .readBegan r → db.holder ≠ .durable c) :
    db.Proceeds waits e db' := by
  refine ⟨hs, hq, ?_, ?_, ?_⟩
  · intro r hr hwaits
    exact absurd hwaits (hw (.read r) hr)
  · intro w hh hwaits
    exact absurd hwaits (hw .write ⟨w, hh⟩)
  · intro x hx t ht hwaits
    have howned := hl.owned x hx
    rw [Owned] at howned
    cases ho : x.owner with
    | reader r k =>
      rw [ho] at howned ht
      cases ht
      exact absurd hwaits (hw _ howned.1)
    | writer k =>
      rw [ho] at howned ht
      cases ht
      exact absurd hwaits (hw _ howned.1)
    | publisher | checkpointer =>
      rw [ho] at ht
      cases ht

theorem idle_of_stuck {waits : Txn → Prop} (hi : Inv m₀ h db) (ho : db.Orderly)
    (hw : ∀ t, db.Open t → ¬ waits t) (hstuck : ∀ e db', ¬ db.Proceeds waits e db') : db.Idle := by
  have hno : ∀ {e db'}, db.Settles e db' → ∃ r c, e = .readBegan r ∧ db.holder = .durable c := by
    intro e db' hs
    by_contra hq
    push Not at hq
    exact hstuck e db' (hs.proceeds hi.locks hw hq)
  have hacts : db.pool.activities = [] := by
    by_contra hne
    obtain ⟨a, r, hf, hs⟩ := BufferPool.exists_finish ho.readOnly hne
    have hallows : db.Allows a ∧ ¬ (Event.pool a r.2).Asks := by
      cases a with
      | resume | work | unpin => exact ⟨trivial, id⟩
      | guard i k g => cases g <;> first | exact absurd hf id | exact ⟨.inr (.inr rfl), id⟩
      | fetch | install | flush | sync => exact absurd hf (fun h => h)
    obtain ⟨_, _, he, -⟩ := hno (.of_step (.pool hallows.1 hs) hallows.2 (by rintro err ⟨⟩) rfl rfl)
    cases he
  have hreaders : db.readers = [] := by
    by_contra hne
    obtain ⟨r, hr⟩ := List.exists_mem_of_ne_nil _ hne
    have hdone : ¬ db.Reading r := by
      rintro ⟨x, hx, -⟩
      rw [hacts] at hx
      cases hx
    obtain ⟨_, _, he, -⟩ := hno (.of_step (.readDrop hr hdone) id (by rintro err ⟨⟩) rfl rfl)
    cases he
  have hholder : db.holder = .free := by
    by_contra hne
    obtain ⟨e, db', hs, hread⟩ := exists_settle_holder hi ho hacts hreaders hne
    obtain ⟨r, _, he, -⟩ := hno hs
    exact hread r he
  have hfree : ∀ {e db'}, ¬ db.Settles e db' := by
    intro e db' hs
    obtain ⟨_, _, -, hh⟩ := hno hs
    cases hholder.symm.trans hh
  refine ⟨hholder, hreaders, ?_, ?_, ?_, hacts⟩
  · by_contra hne
    obtain ⟨r, hr⟩ := List.exists_mem_of_ne_nil _ hne
    exact hfree (.of_step (.readLock hr (by rw [hholder]; rfl)) id (by rintro err ⟨⟩) rfl rfl)
  · by_contra hne
    have hpos := Nat.pos_of_ne_zero hne
    have hless : db.waitingWrites - 1 < db.waitingWrites := Nat.sub_lt hpos Nat.one_pos
    cases hc : db.checkPoisoned with
    | ok u =>
      refine hfree ⟨.writeLock hpos hholder hc, id, ?_, by rintro err ⟨⟩⟩
      exact Nat.add_le_add_right hless.le _
    | error err =>
      refine hfree ⟨.writeLockPoisoned hpos hholder hc, id, ?_, fun _ _ => hless⟩
      exact Nat.add_le_add_right hless.le _
  · by_contra hne
    have hpos := Nat.pos_of_ne_zero hne
    refine hfree ⟨.checkpointLock hpos hholder, id, ?_, by rintro err ⟨⟩⟩
    exact Nat.add_le_add_left (Nat.sub_le _ _) _

/-- A commit waits for a reader whose own thread waits, and every call that waits stays where it is. -/
structure Deadlocked (r : ℕ) (c : Commit) (db db' : Database) : Prop where
  holder : db'.holder = .durable c
  reader : r ∈ db'.readers
  waitingReads : db'.waitingReads = db.waitingReads
  waitingWrites : db'.waitingWrites = db.waitingWrites
  waitingCheckpoints : db'.waitingCheckpoints = db.waitingCheckpoints

theorem Proceeds.deadlocked {waits : Txn → Prop} {r : ℕ} {c : Commit} (hs : db.Proceeds waits e db')
    (hh : db.holder = .durable c) (hr : r ∈ db.readers) (hw : waits (.read r)) : Deadlocked r c db db' := by
  have hr' := hs.readers r hr hw
  obtain ⟨⟨hstep, hasks, hwaiting, hrefused⟩, hqueue, -⟩ := hs
  cases hstep with
  | refuse | readOutside | writerOutside => exact absurd (hrefused _ rfl) (Nat.lt_irrefl _)
  | beginRead | readCount | writerCount | allocatePage | copyPage | editPage | readDirty =>
    exact absurd trivial hasks
  | beginWrite =>
    exfalso
    simp only at hwaiting
    omega
  | beginCheckpoint =>
    exfalso
    simp only at hwaiting
    omega
  | readLock => exact absurd hh (hqueue _ _ rfl)
  | readDrop => exact ⟨hh, hr', rfl, rfl, rfl⟩
  | pool => exact ⟨by rw [hh]; rfl, hr', rfl, rfl, rfl⟩
  | publishLock _ hnone | publishShrink _ hnone =>
    rw [hnone] at hr
    cases hr
  | writeLock _ hh' | writeLockPoisoned _ hh' | checkpointLock _ hh' | rollback hh' | commitEmpty hh'
  | commitMalformed hh' | commitLog hh' | commitLogPoisoned hh' | walWrite hh' | walWriteFail hh' | walSync hh'
  | walSyncFail hh' | publishDone hh' | commitDone hh' | autoCheckpoint hh' | snapshot hh' | nextShard hh'
  | flushedAll hh' | syncPages hh' | syncedPages hh' | syncPagesFail hh' | writeFileHeader hh'
  | writeFileHeaderFail _ hh' | syncHeader hh' | syncedHeader hh' | syncHeaderFail hh' | resetRefused hh'
  | truncate hh' | truncateFail _ hh' | rewrite hh' | rewriteFail _ hh' | resetSync hh' | resetSyncFail hh'
  | poison hh' => cases hh.symm.trans hh'

theorem deadlocked_run {waits : Txn → Prop} {r : ℕ} {c : Commit} (hrun : Run (Proceeds waits) db es db')
    (hh : db.holder = .durable c) (hr : r ∈ db.readers) (hw : waits (.read r)) : Deadlocked r c db db' := by
  apply hrun.invariant (I := fun _ s => Deadlocked r c db s)
  · exact ⟨hh, hr, rfl, rfl, rfl⟩
  · intro ls s l s' _ hd hs
    have hd' := hs.deadlocked hd.holder hd.reader hw
    exact ⟨hd'.holder, hd'.reader, hd'.waitingReads.trans hd.waitingReads,
      hd'.waitingWrites.trans hd.waitingWrites, hd'.waitingCheckpoints.trans hd.waitingCheckpoints⟩

/-- Once the callers ask for nothing more, whatever is in progress ends within `turns` steps, in every order of
the steps, and it stops only where nothing is left to do or where a thread waits with a transaction open. While a
commit waits for a reader of such a thread, nothing that waits ever goes on. -/
theorem calls_come_to_an_end (hs : db₀.Starts m₀) (hr : Run Step db₀ es db) :
    (∀ es' db', Run Settles db es' db' → es'.length ≤ db.turns ∧
      ∀ waits, (∀ e db'', ¬ db'.Proceeds waits e db'') → db'.Idle ∨ ∃ t, db'.Open t ∧ waits t) ∧
    (∃ es' db', Run (Proceeds (fun _ => False)) db es' db' ∧ db'.Idle) ∧
    ∀ waits r c, db.holder = .durable c → r ∈ db.readers → waits (.read r) →
      ∀ es' db', Run (Proceeds waits) db es' db' → Deadlocked r c db db' := by
  have hreach : ∀ {es' db'}, Run Settles db es' db' → Run Step db₀ (es ++ es') db' :=
    fun hrun => hr.trans (hrun.mono (fun _ _ _ hstep => hstep.step))
  have hsettles : ∀ {waits es' db'}, Run (Proceeds waits) db es' db' → Run Settles db es' db' :=
    fun hrun => hrun.mono (fun _ _ _ hstep => hstep.toSettles)
  have hlower : ∀ es' s e s', Run Settles db es' s → s.Settles e s' → s'.turns < s.turns :=
    fun es' s e s' hrun hstep => hstep.turns_lt (Inv.run hs (hreach hrun)).locks
  have hend : ∀ {es' db'}, Run Settles db es' db' → ∀ waits, (∀ t, db'.Open t → ¬ waits t) →
      (∀ e db'', ¬ db'.Proceeds waits e db'') → db'.Idle :=
    fun hrun waits hw hstuck =>
      idle_of_stuck (Inv.run hs (hreach hrun)) (Orderly.run hs (hreach hrun)) hw hstuck
  refine ⟨?_, ?_, ?_⟩
  · intro es' db' hrun
    refine ⟨?_, ?_⟩
    · have hle := hrun.length_le hlower
      omega
    · intro waits hstuck
      by_cases hw : ∃ t, db'.Open t ∧ waits t
      · exact .inr hw
      · push Not at hw
        exact .inl (hend hrun waits hw hstuck)
  · obtain ⟨es', db', hrun, hstuck⟩ := Run.start.exists_end
      (fun es' s e s' hrun hstep => hlower es' s e s' (hsettles hrun) hstep.toSettles)
    exact ⟨es', db', hrun, hend (hsettles hrun) _ (fun _ _ => id) hstuck⟩
  · intro waits r c hh hread hw es' db' hrun
    exact deadlocked_run hrun hh hread hw

theorem calls_come_to_an_end_first :
    (∃ es db, Run (Proceeds (fun _ => False)) { smallest with holder := .writer firstWrite } es db ∧ db.Idle) ∧
      ∀ es db, Run (Proceeds (· = .read 0)) { smallest.durable with readers := [0], waitingReads := [1] } es db →
        db.waitingReads = [1] ∧ ¬ db.Idle := by
  have hcalled : Step smallest.durable (.readCalled 0) { smallest.durable with waitingReads := [0] } :=
    .beginRead 0 rfl List.not_mem_nil List.not_mem_nil
  have hbegan : Step { smallest.durable with waitingReads := [0] } (.readBegan 0)
      { smallest.durable with readers := [0], waitingReads := [] } := .readLock List.mem_cons_self rfl
  have hnested : Step { smallest.durable with readers := [0], waitingReads := [] } (.readCalled 1)
      { smallest.durable with readers := [0], waitingReads := [1] } :=
    .beginRead 1 rfl List.not_mem_nil (by decide)
  refine ⟨(calls_come_to_an_end smallest_starts firstWrite_run).2.1, ?_⟩
  intro es db hrun
  have hdead := (calls_come_to_an_end smallest_starts
    (((smallest_durable.step hcalled).step hbegan).step hnested)).2.2 (· = .read 0) 0 firstCommit rfl
    List.mem_cons_self rfl es db hrun
  refine ⟨hdead.waitingReads, ?_⟩
  intro hidle
  cases hdead.holder.symm.trans hidle.holder

end Database

end OxenDB
