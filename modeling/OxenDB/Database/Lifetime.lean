import OxenDB.Database.Restart

/-!
The whole life of a database: sessions that end in crashes at any point, attempts to open what they
left that fail or crash in turn, and the next session. What survives is every commit that returned,
session after session.
-/

namespace OxenDB

open Lib

namespace Database

/-- What a handle did in one session. Every I/O call may fail; checkpoints begin on a database that is
not poisoned, and page counts stay below 2^51. -/
def Session (db₀ : Database) (es : List Event) (db : Database) : Prop :=
  Run (Restrict Step Guarded) db₀ es db ∧ ∀ c ∈ loggedCommits es, c.pageCount.toNat < 2 ^ 51

inductive Lifetime (db₀ : Database) : List (List Event) → Bytes → Bytes → Prop
  | first {es : List Event} {db : Database} {data wal : Bytes} :
      Session db₀ es db → db.pool.disk.file.Survives data → db.walFile.Survives wal →
      Lifetime db₀ [es] data wal
  | next {ss : List (List Event)} {data data' wal wal' : Bytes} {attempts : List OpenEvent} {s : Opening}
      {path : DbPath} {options : Options} {db₁ db : Database} {es : List Event} : Lifetime db₀ ss data wal →
      Run Opening.Step (.files data wal) attempts s →
      Database.open path (some s.data) (some s.wal) options = .ok db₁ →
      Session db₁ es db → db.pool.disk.file.Survives data' → db.walFile.Survives wal' →
      Lifetime db₀ (ss ++ [es]) data' wal'

/-- Of each session a first part of the commits it logged, in order, with all that returned. -/
inductive Survived : List (List Event) → List Commit → Prop
  | nil : Survived [] []
  | snoc {ss : List (List Event)} {es : List Event} {cs cs' : List Commit} : Survived ss cs →
      cs' <+: loggedCommits es → (∀ e ∈ es, ∀ c, e.returns = some c → c ∈ cs') →
      Survived (ss ++ [es]) (cs ++ cs')

variable {m m₀ : PageMap} {db₀ db : Database} {ss : List (List Event)} {es : List Event}
  {data wal : Bytes} {attempts : List OpenEvent} {s : Opening}

theorem Survived.returned {cs : List Commit} (h : Survived ss cs) (hes : es ∈ ss) {e : Event} {c : Commit}
    (he : e ∈ es) (hc : e.returns = some c) : c ∈ cs := by
  induction h with
  | nil => cases hes
  | snoc _ _ hreturned ih =>
    rcases List.mem_append.mp hes with hes | hes
    · exact List.mem_append_left _ (ih hes)
    · rw [List.mem_singleton] at hes
      subst hes
      exact List.mem_append_right _ (hreturned e he c hc)

def Holds (data wal : Bytes) (m : PageMap) : Prop :=
  wal.length ≤ maxFileSize ∧ ∃ o, openExisting data (some wal) = .ok o ∧ OpenedAs o m

theorem session_holds (hs : db₀.Starts m) (hr : Session db₀ es db)
    (hdata : db.pool.disk.file.Survives data) (hwal : db.walFile.Survives wal) :
    ∃ cs, Holds data wal (m.commits cs) ∧ cs <+: loggedCommits es ∧
      ∀ e ∈ es, ∀ c, e.returns = some c → c ∈ cs := by
  obtain ⟨hrun, hcount⟩ := hr
  have hplain : Run Step db₀ es db := hrun.mono (fun _ _ _ h => h.1)
  obtain ⟨o, cs, ho, has, hall, hlogged⟩ := recovers_logged hs hrun hcount hdata hwal
  refine ⟨cs, ⟨hwal.1, o, ho, has⟩, hlogged, fun e he c hc => ?_⟩
  exact hall.subset ((returned_run m hs hplain).2 e he c hc)

theorem attempts_start (hh : Holds data wal m) (ha : Run Opening.Step (.files data wal) attempts s)
    (path : DbPath) (options : Options) :
    (∀ db, Database.open path (some s.data) (some s.wal) options = .ok db → db.Starts m) ∧
      (options.bufferPoolPages ≠ 0 →
        ∃ db, Database.open path (some s.data) (some s.wal) options = .ok db) := by
  obtain ⟨hlen, o, ho, has⟩ := hh
  have hsame := (Opening.same_outcome hlen ha).1
  rw [ho] at hsame
  cases ho' : openExisting s.data (some s.wal) with
  | error e =>
    rw [ho'] at hsame
    cases hsame
  | ok o' =>
    rw [ho'] at hsame
    injection hsame with hdisk
    have hdisk : o'.disk = o.disk := hdisk
    have hopened : OpenedAs o' m := by
      refine ⟨?_, has.count_pos, has.pages, ?_, ?_, ?_, ?_, ?_, (openExisting_log ho').2⟩
      · rw [hdisk]
        exact has.count
      · rw [hdisk]
        exact has.slots
      · rw [hdisk]
        exact has.synced
      · rw [hdisk]
        exact has.notLost
      · rw [hdisk]
        exact has.headers
      · rw [hdisk]
        exact has.bounded
    simp only [Database.open, ho']
    exact ⟨fun db hdb => ⟨o', options, hopened, hdb⟩, fun hn => assemble_ok o' hn⟩

theorem Lifetime.holds (hl : Lifetime db₀ ss data wal) (hs : db₀.Starts m₀) :
    ∃ cs, Survived ss cs ∧ Holds data wal (m₀.commits cs) := by
  induction hl with
  | first hr hdata hwal =>
    obtain ⟨cs, hh, hlogged, hreturned⟩ := session_holds hs hr hdata hwal
    exact ⟨cs, .snoc .nil hlogged hreturned, hh⟩
  | next _ ha hopen hr hdata hwal ih =>
    obtain ⟨cs, hsurvived, hh⟩ := ih
    obtain ⟨cs', hh', hlogged, hreturned⟩ :=
      session_holds ((attempts_start hh ha _ _).1 _ hopen) hr hdata hwal
    rw [← PageMap.commits_append] at hh'
    exact ⟨cs ++ cs', hsurvived.snoc hlogged hreturned, hh'⟩

/-- However many sessions a database went through, each ended by a crash at any point, and however
many attempts to open its files failed or crashed since: the next open finds, session after session,
the first of its commits with all those that returned. -/
theorem commits_outlive_sessions (hs : db₀.Starts m₀) (hl : Lifetime db₀ ss data wal)
    (ha : Run Opening.Step (.files data wal) attempts s) (path : DbPath) (options : Options)
    (hn : options.bufferPoolPages ≠ 0) :
    ∃ db cs, Database.open path (some s.data) (some s.wal) options = .ok db ∧ Survived ss cs ∧
      db.Starts (m₀.commits cs) ∧ Visible db.pool.cache (m₀.commits cs) := by
  obtain ⟨cs, hsurvived, hh⟩ := hl.holds hs
  obtain ⟨hstarts, hopens⟩ := attempts_start hh ha path options
  obtain ⟨db, hdb⟩ := hopens hn
  exact ⟨db, cs, hdb, hsurvived, hstarts db hdb, (hstarts db hdb).visible⟩

theorem Starts.survives (hs : db.Starts m) : db.pool.disk.file.Survives db.pool.disk.file.contents := by
  obtain ⟨o, n, auto, pool, has, hpool, rfl⟩ := hs.eq
  change DataFile.Survives pool.disk.file pool.disk.file.contents
  rw [(BufferPool.new_ok hpool).2.1]
  have hpos : PageId.HEADER < m.count := UInt64.pos_iff_ne_zero.mpr has.count_pos
  refine ⟨fun _ _ _ _ hbs => hbs, has.bounded, _, has.slots _ hpos, ?_⟩
  intro i _
  rw [has.headers]
  exact ⟨_, List.mem_singleton_self _, rfl⟩

theorem durable_session (hs : db.Starts m) (hcount : m.count.toNat + 1 < 2 ^ 51) : ∃ es c db', Session db es db' ∧
    Event.durable c ∈ es ∧ db'.pool.disk.file.Survives db'.pool.disk.file.contents ∧
    db'.walFile.Survives db'.walFile.contents := by
  have hsurvives := hs.survives
  obtain ⟨o, n, auto, pool, has, hpool, heq⟩ := hs.eq
  obtain ⟨seq, hwal, -⟩ := has.log
  have hacts : db.pool.activities = [] := by
    rw [heq]
    exact BufferPool.new_activities hpool
  have hdisk : db.pool.disk.pageCount = m.count := by
    rw [heq]
    exact (congrArg DiskManager.pageCount (BufferPool.new_ok hpool).2.1).trans has.count
  have hwrite := @write_run db (by rw [heq]) (by rw [heq]) hacts .heap
  let count := db.pool.disk.pageCount
  let w := (WriteTxn.allocatePage ⟨∅, count⟩ .heap).2
  let c := w.toCommit db.nextTxn count [(count, (Page.new count .heap).seal)]
  have hidle : ¬ Writing { db with holder := .writer w } := by
    rintro ⟨x, hx, -⟩
    rw [show BufferPool.activities _ = [] from hacts] at hx
    cases hx
  have hfit : walHeaderSize + (encodeAll c.records seq).length ≤ maxFileSize := by
    rw [encodeAll_length, Commit.records_len]
    have himages : c.images.length ≤ 2 := c.images_length_le
    calc walHeaderSize + (c.images.length * pageImageLen + commitLen)
        ≤ walHeaderSize + (2 * pageImageLen + commitLen) := by gcongr
      _ ≤ maxFileSize := by decide
  have hrun := hwrite.trans (@commit_run _ c w _ walHeaderSize seq rfl hidle rfl (allocated_seals _)
    (by rw [heq]; exact hwal) rfl hfit)
  refine ⟨_, c, _, ⟨guarded_of_unpoisoned hrun (by rw [heq]), ?_⟩, by simp, hsurvives,
    synced_log_survives hs hrun rfl⟩
  intro c' hc'
  rw [show loggedCommits _ = [c] from rfl, List.mem_singleton] at hc'
  rw [hc']
  change (db.pool.disk.pageCount + 1).toNat < 2 ^ 51
  rw [hdisk, UInt64.toNat_add, show (1 : UInt64).toNat = 1 from rfl]
  omega

theorem commits_outlive_sessions_torn : ∃ es es' c data wal db cs, Lifetime smallest [es, es'] data wal ∧
    Survived [es, es'] cs ∧ firstCommit ∈ cs ∧ Event.durable c ∈ es' ∧
    Database.open .db (some data) (some wal) ⟨1, true, none⟩ = .ok db ∧
    Visible db.pool.cache (PageMap.commits ⟨1, fun _ => Page.zeroed⟩ cs) := by
  obtain ⟨es, hrun, hlogged, -, -, hok⟩ := smallest_smooth
  have hplain : Run Step smallest es smallest.committed := hrun.mono (fun _ _ _ h => h.1)
  have hsession : Session smallest es smallest.committed := ⟨guarded_of_unpoisoned hplain rfl, smooth_bounded hrun⟩
  have hwal := synced_log_survives smallest_starts hplain rfl
  obtain ⟨cs, hholds, hcs, hreturned⟩ := session_holds smallest_starts hsession committed_data_survives hwal
  have hone : cs = [firstCommit] := by
    rw [hlogged] at hcs
    exact hcs.eq_of_length_le (List.length_pos_of_mem (hreturned _ hok _ rfl))
  rw [hone] at hholds
  obtain ⟨hstarts, hopens⟩ := attempts_start hholds committed_torn .db ⟨1, true, none⟩
  obtain ⟨db₁, hopen⟩ := hopens Nat.one_ne_zero
  obtain ⟨es', c, db₂, hsession', hdurable, hdata', hwal'⟩ := durable_session (hstarts db₁ hopen) (by decide)
  have hlife : Lifetime smallest ([es] ++ [es']) _ _ :=
    .next (.first hsession committed_data_survives hwal) committed_torn hopen hsession' hdata' hwal'
  obtain ⟨db, cs, hdb, hsurvived, -, hvisible⟩ := commits_outlive_sessions smallest_starts hlife Run.start .db
    ⟨1, true, none⟩ Nat.one_ne_zero
  exact ⟨es, es', c, _, _, db, cs, hlife, hsurvived, hsurvived.returned List.mem_cons_self hok rfl, hdurable, hdb,
    hvisible⟩

end Database

end OxenDB
