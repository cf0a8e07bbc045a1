import OxenDB.Database.Counts
import OxenDB.Database.Crash
import OxenDB.Database.Publish
import OxenDB.WalSessions

namespace OxenDB

open Lib

structure Commit.Block (before : UInt64) (c : Commit) : Prop where
  grew : c.grew = true ↔ before < c.pageCount
  header : PageId.HEADER ∈ c.images.map Prod.fst ↔ c.grew = true
  sorted : (c.images.map Prod.fst).Pairwise (· < ·)

inductive Blocks : UInt64 → List Commit → Prop
  | nil (before : UInt64) : Blocks before []
  | cons {before : UInt64} {c : Commit} {cs : List Commit} :
      c.Block before → Blocks c.pageCount cs → Blocks before (c :: cs)

/-- The records are whole blocks of some of the transactions `cs`, in their order, and then images
of the next one without its commit record. Before them came the transactions `before`, from `count` pages on. -/
def BlockRecords (count : UInt64) (cs : List Commit) (rs : List WalRecord) : Prop :=
  ∃ (before done : List Commit) (last : Option Commit) (j : ℕ),
    rs = done.flatMap (·.records) ++ last.toList.flatMap (fun c => c.imageRecords.take j) ∧
    before ++ (done ++ last.toList) <+: cs ∧ ((done ++ last.toList).map (·.txn)).Pairwise (· < ·) ∧
    Blocks count (before ++ (done ++ last.toList))

inductive SessionEvent
  | opened (count : UInt64)
  | did (e : Event)
  | ended
  | openCrashed

inductive Sessions
  | closed (data wal : Bytes)
  | running (db : Database)

namespace Sessions

/-- Nothing is said of what a session leaves in the data file: the log does not depend on it. -/
inductive Step : Sessions → SessionEvent → Sessions → Prop
  | «open» {data wal : Bytes} {path : DbPath} {options : Options} {db : Database} :
      Database.open path (some data) (some wal) options = .ok db →
      Step (.closed data wal) (.opened db.pool.disk.pageCount) (.running db)
  | openCrash {data data' wal wal' : Bytes} :
      WalSystem.Step ⟨wal, none⟩ .openCrash ⟨wal', none⟩ →
      Step (.closed data wal) .openCrashed (.closed data' wal')
  | resetCrash {data data' wal wal' : Bytes} {s : WalSystem} {records : List DecodedRecord}
      {discarded : Option DiscardedTail} {truncated written : Bool} :
      WalSystem.Step ⟨wal, none⟩ (.open records discarded) s →
      WalSystem.Step s (.resetCrash truncated written) ⟨wal', none⟩ →
      Step (.closed data wal) .openCrashed (.closed data' wal')
  | did {db db' : Database} {e : Event} : Database.Step db e db' → Step (.running db) (.did e) (.running db')
  | «end» {db : Database} {data wal : Bytes} : db.walFile.Survives wal →
      Step (.running db) .ended (.closed data wal)

def logs (cs : List Commit) : SessionEvent → List Commit
  | .opened _ => []
  | .did (.logged c) => cs ++ [c]
  | _ => cs

def logged (es : List SessionEvent) : List Commit := es.foldl logs []

def counts (count : UInt64) : SessionEvent → UInt64
  | .opened count' => count'
  | _ => count

def opened (count : UInt64) (es : List SessionEvent) : UInt64 := es.foldl counts count

end Sessions

/-- Every page has an offset in the data file, and the 64-bit counters do not wrap. -/
structure Database.InRange (db : Database) : Prop where
  pages : db.pool.disk.pageCount.toNat < 2 ^ 51
  txns : db.nextTxn.toNat + 1 < 2 ^ 64
  allocated : ∀ w, db.holder = .writer w → w.pageCount.toNat + 1 < 2 ^ 64

def Sessions.InRange : Sessions → SessionEvent → Prop
  | .running db, _ => db.InRange
  | .closed _ _, _ => True

theorem Sessions.logged_snoc (es : List SessionEvent) (e : SessionEvent) :
    logged (es ++ [e]) = logs (logged es) e := by
  rw [logged, List.foldl_append]
  rfl

theorem Sessions.opened_snoc (count : UInt64) (es : List SessionEvent) (e : SessionEvent) :
    opened count (es ++ [e]) = counts (opened count es) e := by
  rw [opened, List.foldl_append]
  rfl

structure Commit.Ordered (c : Commit) : Prop where
  header : PageId.HEADER ∈ c.images.map Prod.fst ↔ c.grew = true
  sorted : (c.images.map Prod.fst).Pairwise (· < ·)

theorem PageMap.commits_count {m m' : PageMap} (h : m.count = m'.count) (cs : List Commit) :
    (m.commits cs).count = (m'.commits cs).count := by
  induction cs generalizing m m' with
  | nil => exact h
  | cons c cs ih => exact ih rfl

theorem Blocks.append {m : PageMap} {cs cs' : List Commit} (h : Blocks m.count cs)
    (h' : Blocks (m.commits cs).count cs') : Blocks m.count (cs ++ cs') := by
  induction cs generalizing m with
  | nil => exact h'
  | cons c cs ih =>
    cases h with
    | cons hb h => exact .cons hb (ih (m := m.commit c) h h')

theorem Chain.blocks {m : PageMap} {cs : List Commit} (h : Chain m cs) (ho : ∀ c ∈ cs, c.Ordered) :
    Blocks m.count cs := by
  induction h with
  | nil => exact .nil _
  | @cons m c cs hc _ ih =>
    obtain ⟨hheader, hsorted⟩ := ho c List.mem_cons_self
    refine .cons ⟨?_, hheader, hsorted⟩ (ih (fun c' hc' => ho c' (List.mem_cons_of_mem _ hc')))
    rw [hc.grew, decide_eq_true_iff]

theorem blockRecords_nil (count : UInt64) (cs : List Commit) : BlockRecords count cs [] :=
  ⟨[], [], none, 0, rfl, List.nil_prefix, .nil, .nil _⟩

theorem BlockRecords.reset {count : UInt64} {cs : List Commit} {rs : List WalRecord} (h : BlockRecords count cs rs)
    {p : Prop} [Decidable p] : BlockRecords count cs (if p then [] else rs) := by
  split_ifs
  · exact blockRecords_nil count cs
  · exact h

theorem blockRecords_whole {count : UInt64} {cs before done : List Commit} (hwithin : before ++ done <+: cs)
    (hascending : (done.map (·.txn)).Pairwise (· < ·)) (hblocks : Blocks count (before ++ done)) :
    BlockRecords count cs (done.flatMap (·.records)) := by
  refine ⟨before, done, none, 0, (List.append_nil _).symm, ?_, ?_, ?_⟩
  · rwa [Option.toList_none, List.append_nil]
  · rwa [Option.toList_none, List.append_nil]
  · rwa [Option.toList_none, List.append_nil]

def Holder.Nonzero (holder : Holder) : Prop :=
  ∀ w, holder = .writer w → w.pageCount ≠ 0 ∧ ∀ id ∈ w.dirty, id ≠ PageId.HEADER

theorem sealPages_sorted {w : WriteTxn} {pages : List (PageId × Page)}
    (h : sealPages w.dirty.toList = .ok pages) : (pages.map Prod.fst).Pairwise (· < ·) := by
  have hfst : (Prod.fst ∘ fun u : PageId × Page => (u.1, u.2.seal)) = Prod.fst := rfl
  rw [(sealPages_ok h).1, List.map_map, hfst, Std.TreeMap.map_fst_toList_eq_keys]
  have hkeys : w.dirty.keys.Pairwise (fun a b => compare a b = .lt) := Std.TreeMap.ordered_keys
  exact hkeys.imp compareOfLessAndEq_eq_lt.mp

theorem WriteTxn.toCommit_ordered {w : WriteTxn} {pages : List (PageId × Page)} (txn : TxnId)
    (count : UInt64) (hp : sealPages w.dirty.toList = .ok pages) (hw : ∀ id ∈ w.dirty, id ≠ PageId.HEADER) :
    (w.toCommit txn count pages).Ordered := by
  have hne : ∀ id ∈ pages.map Prod.fst, id ≠ PageId.HEADER := fun id hid =>
    hw id ((sealPages_keys hp id).mp hid)
  have hsorted := sealPages_sorted hp
  have himages : (w.toCommit txn count pages).images.map Prod.fst =
      (if (w.toCommit txn count pages).grew then [PageId.HEADER] else []) ++ pages.map Prod.fst := by
    rw [Commit.images, List.map_append]
    split_ifs <;> rfl
  refine ⟨?_, ?_⟩
  · rw [himages, List.mem_append]
    split_ifs with hg
    · simp [hg]
    · simp only [List.not_mem_nil, false_or, hg]
      exact ⟨fun hm => absurd rfl (hne _ hm), by rintro ⟨⟩⟩
  · rw [himages]
    split_ifs
    · refine List.pairwise_cons.mpr ⟨fun id hid => ?_, hsorted⟩
      rw [UInt64.lt_iff_toNat_lt]
      refine Nat.pos_of_ne_zero (fun h0 => hne id hid ?_)
      exact UInt64.toNat_inj.mp h0
    · exact hsorted

structure Session (m : PageMap) (h : History) (cs : List Commit) (db : Database) : Prop where
  locks : Locks db
  counts : Counts h db
  logged : Logged m h db
  listed : ∃ before, cs = before ++ (h.log.since ++ h.log.pending.toList) ∧ Blocks m.count before ∧
    (m.commits before).count = h.log.base.count
  ascending : (cs.map (·.txn)).Pairwise (· < ·)
  below : ∀ c ∈ cs, c.txn < db.nextTxn
  ordered : ∀ c ∈ cs, c.Ordered
  nonzero : db.holder.Nonzero

namespace Session

variable {m : PageMap} {h : History} {cs : List Commit} {db db' : Database} {e : Event}

theorem lt_succ {a b : TxnId} (h : a < b) (hb : b.toNat + 1 < 2 ^ 64) : a < b + 1 := by
  rw [UInt64.lt_iff_toNat_lt] at h ⊢
  rw [UInt64.toNat_add, show (1 : UInt64).toNat = 1 from rfl]
  omega

theorem lt_self_succ {b : TxnId} (hb : b.toNat + 1 < 2 ^ 64) : b < b + 1 := by
  rw [UInt64.lt_iff_toNat_lt, UInt64.toNat_add, show (1 : UInt64).toNat = 1 from rfl]
  omega

theorem blocks (hs : Session m h cs db) : Blocks h.log.base.count h.log.since := by
  obtain ⟨before, hb, -⟩ := hs.listed
  apply hs.logged.chain.blocks
  intro c hc
  apply hs.ordered
  rw [hb]
  exact List.mem_append_right _ (List.mem_append_left _ hc)

theorem listed_step (hs : Session m h cs db) (hstep : Database.Step db e db') :
    ∃ before, Sessions.logs cs (.did e) =
      before ++ ((h.record e).log.since ++ (h.record e).log.pending.toList) ∧ Blocks m.count before ∧
      (m.commits before).count = (h.record e).log.base.count := by
  obtain ⟨before, hb, hblocks, hcount⟩ := hs.listed
  cases hstep with
  | @commitLog w pages wal hh =>
    obtain ⟨-, hidle, -⟩ := hs.logged.idle_writer hs.locks hh
    rw [hidle.pending, Option.toList_none, List.append_nil] at hb
    refine ⟨before, ?_, hblocks, hcount⟩
    rw [hb]
    exact List.append_assoc _ _ _
  | @walSync c hh =>
    have hphase := hs.logged.phase
    rw [hh] at hphase
    rw [hphase.1.pending.pending] at hb
    refine ⟨before, ?_, hblocks, hcount⟩
    rw [hb]
    exact congrArg (before ++ ·) (List.append_nil _).symm
  | resetSync hh =>
    have hphase := hs.logged.phase
    rw [hh] at hphase
    rw [hphase.1.pending, Option.toList_none, List.append_nil] at hb
    refine ⟨cs, (List.append_nil cs).symm, ?_, ?_⟩
    · rw [hb]
      exact hblocks.append (by rw [hcount]; exact hs.blocks)
    · rw [hb, PageMap.commits_append]
      exact PageMap.commits_count hcount _
  | @poison f => cases f <;> exact ⟨before, hb, hblocks, hcount⟩
  | _ => exact ⟨before, hb, hblocks, hcount⟩

theorem txns_step (hs : Session m h cs db) (hr : db.InRange) (hstep : Database.Step db e db') :
    ((Sessions.logs cs (.did e)).map (·.txn)).Pairwise (· < ·) ∧
      ∀ c ∈ Sessions.logs cs (.did e), c.txn < db'.nextTxn := by
  cases hstep with
  | @commitLog w pages wal hh =>
    refine ⟨?_, fun c hc => ?_⟩
    · change ((cs ++ [w.toCommit db.nextTxn db.pool.disk.pageCount pages]).map (·.txn)).Pairwise (· < ·)
      rw [List.map_append, List.pairwise_append]
      refine ⟨hs.ascending, List.pairwise_singleton _ _, ?_⟩
      intro a ha b hb
      obtain ⟨c, hc, rfl⟩ := List.mem_map.mp ha
      rw [List.map_singleton, List.mem_singleton] at hb
      subst hb
      exact hs.below c hc
    · rcases List.mem_append.mp hc with hc | hc
      · exact lt_succ (hs.below c hc) hr.txns
      · rw [List.mem_singleton.mp hc]
        exact lt_self_succ hr.txns
  | commitLogPoisoned => exact ⟨hs.ascending, fun c hc => lt_succ (hs.below c hc) hr.txns⟩
  | _ => exact ⟨hs.ascending, hs.below⟩

theorem ordered_step (hs : Session m h cs db) (hstep : Database.Step db e db') :
    ∀ c ∈ Sessions.logs cs (.did e), c.Ordered := by
  cases hstep with
  | @commitLog w pages wal hh _ _ hp =>
    intro c hc
    rcases List.mem_append.mp hc with hc | hc
    · exact hs.ordered c hc
    · rw [List.mem_singleton.mp hc]
      exact w.toCommit_ordered _ _ hp (hs.nonzero w hh).2
  | _ => exact hs.ordered

theorem nonzero_step (hs : Session m h cs db) (hr : db.InRange) (hstep : Database.Step db e db') :
    db'.holder.Nonzero := by
  cases hstep with
  | refuse | beginRead | readLock | readDrop | readCount | readOutside | beginWrite
  | writeLockPoisoned | writerCount | writerOutside | readDirty | beginCheckpoint => exact hs.nonzero
  | pool ha hstep => exact fun w hw => hs.nonzero w ((Holder.afterCall_spec _ _).writer hw)
  | writeLock _ hh hp =>
    rintro w ⟨⟩
    refine ⟨?_, fun id hid => by simp at hid⟩
    rw [(pageCounted_settled hh trivial).mp hs.counts.counted
      (hs.logged.not_stuck (Database.checkPoisoned_ok.mp hp))]
    exact hs.logged.wellFormed.count_pos
  | @allocatePage w ty hh =>
    rintro _ ⟨⟩
    obtain ⟨hcount, hkeys⟩ := hs.nonzero w hh
    refine ⟨fun h0 => ?_, fun id hid => ?_⟩
    · change w.pageCount + 1 = 0 at h0
      have hlt := lt_self_succ (hr.allocated w hh)
      rw [h0, UInt64.lt_iff_toNat_lt] at hlt
      exact absurd hlt (Nat.not_lt_zero _)
    · change id ∈ w.dirty.insert w.pageCount _ at hid
      rcases Std.TreeMap.mem_insert.mp hid with he | hid
      · rw [← Std.LawfulEqCmp.eq_of_compare he]
        exact hcount
      · exact hkeys id hid
  | @copyPage w i k _ id page label pool hh hd hstep hread =>
    rintro _ ⟨⟩
    obtain ⟨hcount, hkeys⟩ := hs.nonzero w hh
    obtain ⟨-, hx, -⟩ := (BufferPool.step_calls hs.locks.pool hstep).read hread
    refine ⟨hcount, fun id' hid => ?_⟩
    change id' ∈ w.dirty.insert id page at hid
    rcases Std.TreeMap.mem_insert.mp hid with he | hid
    · rw [← Std.LawfulEqCmp.eq_of_compare he]
      exact (hs.counts.aimed _ hx rfl).1
    · exact hkeys id' hid
  | @editPage w id page hh hd =>
    rintro _ ⟨⟩
    obtain ⟨hcount, hkeys⟩ := hs.nonzero w hh
    refine ⟨hcount, fun id' hid => ?_⟩
    change id' ∈ w.dirty.insert id page at hid
    rcases Std.TreeMap.mem_insert.mp hid with he | hid
    · rw [← Std.LawfulEqCmp.eq_of_compare he]
      apply hkeys
      rw [Std.TreeMap.mem_iff_isSome_getElem?]
      exact Option.isSome_iff_ne_none.mpr hd
    · exact hkeys id' hid
  | _ => rintro w ⟨⟩

theorem step (hs : Session m h cs db) (hr : db.InRange) (hstep : Database.Step db e db') :
    Session m (h.record e) (Sessions.logs cs (.did e)) db' where
  locks := hs.locks.step hs.counts.small hstep
  counts := hs.counts.step hs.locks hs.logged hstep
  logged := by
    apply hs.logged.step hs.locks hs.counts _ hstep
    intro auto hh hp
    rw [← (pageCounted_settled hh trivial).mp hs.counts.counted (hs.logged.not_stuck hp)]
    exact hr.pages
  listed := hs.listed_step hstep
  ascending := (hs.txns_step hr hstep).1
  below := (hs.txns_step hr hstep).2
  ordered := hs.ordered_step hstep
  nonzero := hs.nonzero_step hr hstep

theorem start {path : DbPath} {data wal : Option Bytes} {options : Options}
    (h : Database.open path data wal options = .ok db) (hr : db.InRange) :
    ∃ m h, m.count = db.pool.disk.pageCount ∧ Session m h [] db := by
  obtain ⟨disk, n, pool, auto, seq, hpos, hp, rfl⟩ := Database.open_eq h
  obtain ⟨-, hdisk, -⟩ := BufferPool.new_ok hp
  have hacts := BufferPool.new_activities hp
  have hcount : pool.disk.pageCount = disk.pageCount := by rw [hdisk]
  have hpages : pool.disk.pageCount.toNat < 2 ^ 51 := hr.pages
  have hm : PageMap.WellFormed ⟨pool.disk.pageCount, fun id => (Page.new id .heap).seal⟩ :=
    ⟨by rw [hcount]; exact hpos, fun id _ => Page.new_valid id .heap⟩
  refine ⟨_, _, rfl, .start hp _ _ rfl, ⟨?_, ?_, fun _ => rfl⟩, .start pool auto seq hm hpages,
    ⟨[], rfl, .nil _, rfl⟩, .nil, by simp, by simp, by rintro w ⟨⟩⟩
  · change pool.disk.pageCount.toNat ≤ 2 ^ 52
    omega
  · intro x hx
    change x ∈ pool.activities at hx
    rw [hacts] at hx
    cases hx

variable {wal : Bytes}

theorem records_since (hs : Session m h cs db) : BlockRecords m.count cs (h.log.since.flatMap (·.records)) := by
  obtain ⟨before, hb, hblocks, hcount⟩ := hs.listed
  have hwithin : before ++ h.log.since <+: cs := ⟨h.log.pending.toList, by rw [hb, List.append_assoc]⟩
  have hascending := hs.ascending.sublist
    (((List.sublist_append_right before h.log.since).trans hwithin.sublist).map (·.txn))
  exact blockRecords_whole hwithin hascending (hblocks.append (by rw [hcount]; exact hs.blocks))

theorem records_pending (hs : Session m h cs db) {c : Commit} (hc : h.log.Pending c) {j : ℕ}
    (hj : j ≤ c.records.length) :
    BlockRecords m.count cs (h.log.since.flatMap (·.records) ++ c.records.take j) := by
  obtain ⟨before, hb, hblocks, hcount⟩ := hs.listed
  rw [hc.pending, Option.toList_some] at hb
  obtain ⟨n, hn⟩ := hc.proposes
  have hwithin : before ++ (h.log.since ++ [c]) <+: cs := by rw [hb]
  have hascending : ((h.log.since ++ [c]).map (·.txn)).Pairwise (· < ·) :=
    hs.ascending.sublist (((List.sublist_append_right before _).trans hwithin.sublist).map _)
  have hblocks : Blocks m.count (before ++ (h.log.since ++ [c])) := by
    obtain ⟨hheader, hsorted⟩ := hs.ordered c
      (hwithin.subset (List.mem_append_right _ (List.mem_append_right _ List.mem_cons_self)))
    apply hblocks.append
    rw [hcount]
    refine hs.blocks.append (.cons ⟨?_, hheader, hsorted⟩ (.nil _))
    rw [hn.grew, decide_eq_true_iff]
    rfl
  rcases Nat.lt_or_eq_of_le hj with hlt | rfl
  · refine ⟨before, h.log.since, some c, j, ?_, hwithin, hascending, hblocks⟩
    rw [Commit.records_eq, List.length_append, List.length_singleton] at hlt
    rw [Commit.records_eq, List.take_append_of_le_length (by omega), Option.toList_some,
      List.flatMap_singleton]
  · have hwhole := blockRecords_whole hwithin hascending hblocks
    rw [List.flatMap_append, List.flatMap_singleton] at hwhole
    rwa [List.take_length]

theorem left (hs : Session m h cs db) (hw : db.walFile.Survives wal) :
    ∃ first rs, WalSystem.Closed ⟨wal, none⟩ ⟨first, rs, []⟩ ∧ BlockRecords m.count cs rs := by
  obtain ⟨hlen, hw⟩ := hw
  have hfile := hs.logged.file
  unfold Log.Filed at hfile
  have hbody : WalView.bytes ⟨h.log.firstSeq, h.log.since.flatMap (·.records), []⟩ = h.log.body := rfl
  cases hu : db.walFile.unsynced with
  | none =>
    simp only [hu] at hw hfile
    refine ⟨h.log.firstSeq, _, ⟨rfl, ⟨[], ?_, noRecord_nil _⟩, rfl, hs.logged.room⟩, hs.records_since⟩
    rw [List.append_nil, hw]
    exact hfile
  | batch off bytes =>
    simp only [hu] at hw hfile
    obtain ⟨-, htake, c, hc, rfl⟩ := hfile
    obtain ⟨tail, ht, rfl⟩ := hw
    obtain ⟨j, hj, bs, rfl, hno⟩ := ht.records c.records h.log.nextSeq rfl
    have hbytes : WalView.bytes ⟨h.log.firstSeq, h.log.since.flatMap (·.records) ++ c.records.take j, []⟩ =
        h.log.body ++ encodeAll (c.records.take j) h.log.nextSeq := by
      rw [WalView.bytes, encodeAll_append, ← List.append_assoc]
      rfl
    rw [htake] at hlen
    refine ⟨h.log.firstSeq, _, ⟨rfl, ⟨bs, ?_, ?_⟩, rfl, ?_⟩, hs.records_pending hc hj⟩
    · rw [hbytes, htake, List.append_assoc]
    · rw [WalView.next, List.length_append, List.length_take, Nat.min_eq_left hj, UInt64.ofNat_add,
        ← UInt64.add_assoc]
      exact hno
    · rw [hbytes, List.length_append]
      rw [List.length_append, List.length_append] at hlen
      omega
  | reset old header truncated written =>
    simp only [hu] at hw hfile
    obtain ⟨rfl, rfl⟩ := hfile
    obtain ⟨t, w, -, -, rfl⟩ := hw
    have hholds : WalSystem.Holds ⟨h.log.body, some ⟨h.log.body.length, [], h.log.nextSeq, false⟩⟩
        ⟨h.log.firstSeq, h.log.since.flatMap (·.records), []⟩ := by
      refine ⟨hbody.symm, ?_, hs.logged.room⟩
      simp [hbody, encodeAll, WalView.next, Log.nextSeq]
    have hcheck : Wal.checkReset ⟨h.log.body.length, [], h.log.nextSeq, false⟩ = .ok () := by
      simp [Wal.checkReset, Wal.checkPoisoned]
    have hclosed := hholds.resetCrash t w rfl hcheck
    simp only [WalView.record] at hclosed
    exact ⟨_, _, hclosed, hs.records_since.reset⟩

end Session

namespace Sessions

variable {es : List SessionEvent} {s s' : Sessions} {e : SessionEvent}

def Keeps (count : UInt64) (cs : List Commit) : Sessions → Prop
  | .closed _ wal => ∃ first rs, WalSystem.Closed ⟨wal, none⟩ ⟨first, rs, []⟩ ∧ BlockRecords count cs rs
  | .running db => db.InRange → ∃ m h, m.count = count ∧ Session m h cs db

theorem Keeps.step {count : UInt64} {cs : List Commit} (h : s.Keeps count cs)
    (hs : Restrict Step InRange s e s') : s'.Keeps (counts count e) (logs cs e) := by
  obtain ⟨hs, hr⟩ := hs
  cases hs with
  | «open» ho => exact Session.start ho
  | @openCrash data data' wal wal' hc =>
    obtain ⟨first, rs, hclosed, hrs⟩ := h
    have hnext : WalSystem.Refines ⟨wal', none⟩ _ := WalSystem.Refines.step (.inr hclosed) hc
    exact ⟨first, rs, hnext.closed rfl, hrs⟩
  | @resetCrash data data' wal wal' s' records discarded t w ho hc =>
    obtain ⟨first, rs, hclosed, hrs⟩ := h
    have hnext : WalSystem.Refines ⟨wal', none⟩ _ :=
      WalSystem.Refines.step (WalSystem.Refines.step (.inr hclosed) ho) hc
    exact ⟨_, _, hnext.closed rfl, hrs.reset⟩
  | did hstep =>
    intro _
    obtain ⟨m, h, hm, hs⟩ := h hr
    exact ⟨m, _, hm, hs.step hr hstep⟩
  | «end» hw =>
    obtain ⟨m, h, rfl, hs⟩ := h hr
    exact hs.left hw

/-- However many sessions a database has seen, and wherever they ended, the records that the next
open finds are the blocks of transactions of the last session, of which only the last block may
lack records at its end. -/
theorem log_is_blocks {path : DbPath} {data₀ wal₀ : Option Bytes} {options : Options} {db : Database}
    {data wal : Bytes} (ho : Database.open path data₀ wal₀ options = .ok db)
    (hr : Run (Restrict Step InRange) (.running db) es (.closed data wal)) :
    ∃ o, Wal.open wal = .ok o ∧
      BlockRecords (opened db.pool.disk.pageCount es) (logged es) (o.records.map (·.record)) := by
  have hkeeps : Keeps (opened db.pool.disk.pageCount es) (logged es) (.closed data wal) := by
    apply hr.invariant (I := fun es s => Keeps (opened db.pool.disk.pageCount es) (logged es) s)
    · exact Session.start ho
    · intro es s e s' _ hk hs
      rw [logged_snoc, opened_snoc]
      exact hk.step hs
  obtain ⟨first, rs, hclosed, hrs⟩ := hkeeps
  obtain ⟨o, hopen, hrecords, -, -⟩ := hclosed.open
  refine ⟨o, hopen, ?_⟩
  rwa [hrecords, decodedAll_record]

theorem run_did {db₀ db : Database} {ds : List Event}
    (hr : Run (Restrict Database.Step (fun db _ => db.InRange)) db₀ ds db) :
    Run (Restrict Step InRange) (.running db₀) (ds.map .did) (.running db) := by
  induction hr with
  | start => exact .start
  | step _ hl ih =>
    rw [List.map_append]
    exact ih.step ⟨.did hl.1, hl.2⟩

theorem smallest_inRange (wal : Wal) (walFile : WalFile) (txn : TxnId) (holder : Holder) (writes : ℕ)
    (ht : txn.toNat ≤ 2) (hw : ∀ w, holder = .writer w → w.pageCount.toNat ≤ 2) :
    Database.InRange ⟨Database.smallest.pool, none, wal, walFile, txn, false, holder, [], [], writes, 0⟩ := by
  have hcount : Database.smallest.pool.disk.pageCount.toNat < 2 ^ 51 := by decide
  refine ⟨hcount, ?_, fun w hh => ?_⟩
  · change txn.toNat + 1 < 2 ^ 64
    omega
  · have := hw w hh
    omega

theorem first_commit : ∃ db, db.InRange ∧
    Run (Restrict Database.Step (fun db _ => db.InRange)) Database.smallest
      [.tau, .writeBegan, .allocated .heap, .logged Database.firstCommit, .tau] db ∧
    db.walFile = ⟨encodeHeader 0 ++ encodeAll Database.firstCommit.records 0,
      .batch walHeaderSize (encodeAll Database.firstCommit.records 0)⟩ := by
  have hbegan : Database.Step { Database.smallest with waitingWrites := 1 } .writeBegan
      { Database.smallest with holder := .writer ⟨∅, 1⟩ } := .writeLock Nat.one_pos rfl rfl
  have hallocated : Database.Step { Database.smallest with holder := .writer ⟨∅, 1⟩ } (.allocated .heap)
      { Database.smallest with holder := .writer Database.firstWrite } := .allocatePage .heap rfl
      (Database.smallest_idle rfl)
  have hlogged : Database.Step { Database.smallest with holder := .writer Database.firstWrite }
      (.logged Database.firstCommit) { Database.smallest with
        wal := ⟨walHeaderSize, encodeAll Database.firstCommit.records 0,
          0 + UInt64.ofNat Database.firstCommit.records.length, false⟩
        nextTxn := 2
        holder := .logging Database.firstCommit } :=
    Database.commit_logged rfl Database.firstWrite_idle rfl Database.firstWrite_seals rfl rfl
  have hwritten := @Database.commit_written { Database.smallest with
      wal := ⟨walHeaderSize, encodeAll Database.firstCommit.records 0,
        0 + UInt64.ofNat Database.firstCommit.records.length, false⟩
      nextTxn := 2
      holder := .logging Database.firstCommit } _ _ _ _ _ rfl rfl Database.firstCommit_fits
  have hend := writeAt_end (encodeHeader 0) (encodeAll Database.firstCommit.records 0)
  rw [encodeHeader_length] at hend
  have hrange := smallest_inRange Wal.create.1 ⟨Wal.create.2, .none⟩ 1
  have hcalled := hrange .free 0 (by decide) (by rintro w ⟨⟩)
  have hwaiting := hrange .free 1 (by decide) (by rintro w ⟨⟩)
  have hempty := hrange (.writer ⟨∅, 1⟩) 0 (by decide) (by rintro w ⟨⟩; decide)
  have hwriting := hrange (.writer Database.firstWrite) 0 (by decide) (by rintro w ⟨⟩; decide)
  refine ⟨_, ?_, ((((Run.start.step ⟨.beginWrite rfl, hcalled⟩).step ⟨hbegan, hwaiting⟩).step
    ⟨hallocated, hempty⟩).step ⟨hlogged, hwriting⟩).step ⟨hwritten, ?_⟩, ?_⟩
  · exact smallest_inRange _ _ _ _ _ (by decide) (by rintro w ⟨⟩)
  · exact smallest_inRange _ _ _ _ _ (by decide) (by rintro w ⟨⟩)
  · rw [← hend]
    rfl

theorem log_is_blocks_cut : ∃ c o, c.images.length = 2 ∧
    Wal.open (encodeHeader 0 ++ (encodeAll c.records 0).take pageImageLen) = .ok o ∧
    BlockRecords 1 [c] (o.records.map (·.record)) := by
  obtain ⟨db, hrange, hrun, hfile⟩ := first_commit
  obtain ⟨c, hc⟩ : ∃ c, c = Database.firstCommit := ⟨_, rfl⟩
  rw [← hc] at hrun hfile
  have hleft : db.walFile.Survives (encodeHeader 0 ++ (encodeAll c.records 0).take pageImageLen) := by
    rw [hfile]
    refine ⟨?_, _, .take c.records 0 pageImageLen, ?_⟩
    · rw [List.length_append, encodeHeader_length, List.length_take]
      have hmin := Nat.min_le_left pageImageLen (encodeAll c.records 0).length
      have hle : walHeaderSize + pageImageLen ≤ maxFileSize := by decide
      omega
    · dsimp only
      rw [take_encodeHeader]
  have hended : Restrict Step InRange (.running db) .ended (.closed []
      (encodeHeader 0 ++ (encodeAll c.records 0).take pageImageLen)) := ⟨.end hleft, hrange⟩
  obtain ⟨o, ho, hblocks⟩ := log_is_blocks Database.smallest_open ((run_did hrun).step hended)
  exact ⟨c, o, by rw [hc]; rfl, ho, hblocks⟩

end Sessions

end OxenDB
