import OxenDB.Replay
import OxenDB.Database.Poison

namespace OxenDB

open Lib

section Blocks

variable {bs : List TxnBlock} {last : Option TxnBlock} {ds : List DecodedRecord}

theorem replay_stats {data data' : Bytes} {stats : RecoveryStats}
    (hds : ds.map (·.record) = bs.flatMap (·.records) ++ last.toList.flatMap (·.imageRecords))
    (hids : ((bs ++ last.toList).map (·.txn)).Nodup) (hlast : ∀ b ∈ last, b.images ≠ [])
    (h : replay data ds = .ok (data', stats)) :
    stats = ⟨bs.length, last.toList.length, ((bs.flatMap (·.images)).map Prod.fst).dedup.length⟩ := by
  have hout := imagesOutside_last hids
  have hvalid : ∀ u ∈ bs.flatMap (·.images), ValidImage u.1 u.2 := by
    by_contra hv
    push Not at hv
    rw [← committedImages_blocks hds hout] at hv
    obtain ⟨msg, herr⟩ := latestImages_error (committedTxns ds) ds ∅ hv
    rw [replay] at h
    rw [committedTxns] at herr
    simp only [herr] at h
    cases h
  have hlatest := latestImages_blocks hds hout hvalid
  obtain ⟨hcommitted, hall⟩ := txns_length hds hids hlast
  rw [committedTxns] at hlatest hcommitted
  simp only [replay, hlatest] at h
  split at h
  · cases h
  · injection h with h
    injection h with _ h
    rw [← h, hcommitted, hall, size_foldl_insert, Nat.add_sub_cancel_left]

end Blocks

structure LeftLog (wal : Bytes) (cs : List Commit) (last : Option TxnBlock) (left : Bytes) : Prop where
  bytes : ∃ seq, wal = encodeHeader seq ++
      (encodeAll (cs.flatMap (·.records) ++ last.toList.flatMap (·.imageRecords)) seq ++ left) ∧
    NoRecord left (seq + UInt64.ofNat (cs.flatMap (·.records) ++ last.toList.flatMap (·.imageRecords)).length)
  txns : (cs.map (·.txn) ++ last.toList.map (·.txn)).Nodup
  images : ∀ b ∈ last, b.images ≠ []

theorem LeftLog.report {wal left data : Bytes} {cs : List Commit} {last : Option TxnBlock} {o : Opened}
    (h : LeftLog wal cs last left) (ho : openExisting data (some wal) = .ok o) :
    o.report.created = false ∧
      o.report.recovery = ⟨cs.length, last.toList.length, ((cs.flatMap (·.images)).map Prod.fst).dedup.length⟩ ∧
      o.report.discardedWalTail.map DiscardedTail.bytes = if left = [] then none else some left.length := by
  obtain ⟨seq, rfl, hno⟩ := h.bytes
  obtain ⟨opened, hopen, hp⟩ := Wal.open_parses (decodeHeader_encodeHeader seq _) (drop_encodeHeader seq _) hno
  have hds : opened.records.map (·.record) =
      (cs.map Commit.block).flatMap (·.records) ++ last.toList.flatMap (·.imageRecords) := by
    rw [hp.records, decodedAll_record, List.flatMap_map]
    rfl
  simp only [openExisting, hopen] at ho
  cases hr : replay data opened.records with
  | error e => simp only [hr] at ho; cases ho
  | ok r =>
    have htxns : ((cs.map Commit.block ++ last.toList).map (·.txn)).Nodup := by
      rw [List.map_append, List.map_map]
      exact h.txns
    have hstats := replay_stats hds htxns h.images (show replay data opened.records = .ok (r.1, r.2) from hr)
    rw [List.length_map, List.flatMap_map] at hstats
    simp only [hr] at ho
    split at ho
    · cases ho
    · split at ho
      · cases ho
      · injection ho with ho
        rw [← ho]
        exact ⟨rfl, hstats, hp.discarded⟩

namespace Logged

variable {m₀ : PageMap} {h : History} {db : Database} {wal : Bytes}

theorem txns_nodup (hlog : Logged m₀ h db) : (h.log.since.map (·.txn)).Nodup := by
  have hlt := Log.commits_lt hlog.room
  rw [hlog.txns]
  refine List.Nodup.map_on (fun i hi j hj he => ?_) List.nodup_range
  rw [List.mem_range] at hi hj
  have he := (UInt64.add_right_inj h.log.firstTxn).mp he
  rw [← UInt64.toNat_inj, UInt64.toNat_ofNat', UInt64.toNat_ofNat'] at he
  omega

theorem leaves_more {rs : List WalRecord} {cs : List Commit} {last : Option TxnBlock} {left : Bytes}
    (hrs : rs = cs.flatMap (·.records) ++ last.toList.flatMap (·.imageRecords))
    (hno : NoRecord left (h.log.nextSeq + UInt64.ofNat rs.length))
    (htxns : ((h.log.since ++ cs).map (·.txn) ++ last.toList.map (·.txn)).Nodup)
    (himages : ∀ b ∈ last, b.images ≠ []) :
    LeftLog (h.log.body ++ (encodeAll rs h.log.nextSeq ++ left)) (h.log.since ++ cs) last left := by
  refine ⟨⟨h.log.firstSeq, ?_, ?_⟩, htxns, himages⟩
  · rw [List.flatMap_append, List.append_assoc, ← hrs, encodeAll_append, Log.body, List.append_assoc,
      List.append_assoc]
    rfl
  · rw [List.flatMap_append, List.append_assoc, ← hrs, List.length_append, UInt64.ofNat_add, ← UInt64.add_assoc]
    exact hno

theorem leaves_body (hlog : Logged m₀ h db) : LeftLog h.log.body h.log.since none [] := by
  refine ⟨⟨h.log.firstSeq, ?_, noRecord_nil _⟩, ?_, by rintro b ⟨⟩⟩
  · rw [Option.toList_none, List.flatMap_nil, List.append_nil, List.append_nil]
    rfl
  · rw [Option.toList_none, List.map_nil, List.append_nil]
    exact hlog.txns_nodup

theorem leaves_stale {seq : UInt64} {bs : Bytes} (hno : NoRecord bs seq) :
    LeftLog (encodeHeader seq ++ bs) [] none bs := by
  refine ⟨⟨seq, rfl, ?_⟩, List.nodup_nil, by rintro b ⟨⟩⟩
  change NoRecord bs (seq + 0)
  rwa [UInt64.add_zero]

theorem records_take_images {c : Commit} {j : ℕ} (hj : j < c.records.length) :
    c.records.take j = (TxnBlock.mk c.txn (c.images.take j)).imageRecords := by
  rw [Commit.records_eq, List.length_append, List.length_singleton] at hj
  rw [Commit.records_eq, List.take_append_of_le_length (by omega), Commit.imageRecords_eq, ← List.map_take]
  rfl

theorem leaves_batch (hlog : Logged m₀ h db) {c : Commit} (hc : h.log.Pending c) {tail : Bytes}
    (ht : TornBatch (encodeAll c.records h.log.nextSeq) tail) : ∃ cs last left,
      LeftLog (h.log.body ++ tail) (h.log.since ++ cs) last left ∧ (cs = [] ∨ cs = [c] ∧ last = none) := by
  have hnodup := hlog.txns_nodup
  have hnew : (h.log.since.map (·.txn) ++ [c.txn]).Nodup := by
    refine List.nodup_append.mpr ⟨hnodup, List.nodup_singleton _, fun a ha b hb => ?_⟩
    rw [List.mem_singleton.mp hb]
    exact ne_of_mem_of_not_mem ha (Log.pending_txn hlog.room hlog.txns hc.txn)
  obtain ⟨j, hj, bs, rfl, hno⟩ := ht.records c.records h.log.nextSeq rfl
  have hlen : (c.records.take j).length = j := by rw [List.length_take, Nat.min_eq_left hj]
  rw [← hlen] at hno
  rcases Nat.lt_or_eq_of_le hj with hlt | he
  · rcases Nat.eq_zero_or_pos j with rfl | hpos
    · refine ⟨[], none, bs, leaves_more rfl hno ?_ (by rintro b ⟨⟩), .inl rfl⟩
      rw [List.append_nil, Option.toList_none, List.map_nil, List.append_nil]
      exact hnodup
    · refine ⟨[], some ⟨c.txn, c.images.take j⟩, bs, leaves_more ?_ hno ?_ ?_, .inl rfl⟩
      · rw [records_take_images hlt]
        exact (List.append_nil _).symm
      · rw [List.append_nil]
        exact hnew
      · rintro b ⟨⟩
        rw [Commit.records_eq, Commit.imageRecords_eq, List.length_append, List.length_map,
        List.length_singleton] at hlt
        refine List.ne_nil_of_length_pos ?_
        rw [List.length_take]
        omega
  · refine ⟨[c], none, bs, leaves_more ?_ hno ?_ (by rintro b ⟨⟩), .inr ⟨rfl, rfl⟩⟩
    · rw [he, List.take_length]
      simp
    · rw [List.map_append, Option.toList_none, List.map_nil, List.append_nil]
      exact hnew

theorem leaves (hlog : Logged m₀ h db) (hs : db.walFile.Survives wal) : ∃ cs last left, LeftLog wal cs last left ∧
    ((cs = h.log.since ∧ (last = none ∨ ∃ c, h.log.pending = some c)) ∨
      (∃ c, h.log.pending = some c ∧ cs = h.log.since ++ [c] ∧ last = none) ∨
      (∃ old header t w, db.walFile.unsynced = .reset old header t w) ∧ cs = [] ∧ last = none) ∧
    (db.walFile.unsynced = .none → cs = h.log.since ∧ last = none ∧ left = []) := by
  obtain ⟨hlen, hs⟩ := hs
  have hfile := hlog.file
  unfold Log.Filed at hfile
  cases hu : db.walFile.unsynced with
  | none =>
    simp only [hu] at hs hfile
    rw [hs, hfile]
    exact ⟨_, none, [], hlog.leaves_body, .inl ⟨rfl, .inl rfl⟩, fun _ => ⟨rfl, rfl, rfl⟩⟩
  | batch off bytes =>
    simp only [hu] at hs hfile
    obtain ⟨-, htake, c, hc, rfl⟩ := hfile
    obtain ⟨tail, ht, rfl⟩ := hs
    rw [htake]
    obtain ⟨cs, last, left, hl, hcs⟩ := hlog.leaves_batch hc ht
    refine ⟨_, last, left, hl, ?_, by rintro ⟨⟩⟩
    rcases hcs with rfl | ⟨rfl, rfl⟩
    · exact .inl ⟨List.append_nil _, .inr ⟨c, hc.pending⟩⟩
    · exact .inr (.inl ⟨c, hc.pending, rfl, rfl⟩)
  | reset old header truncated written =>
    simp only [hu] at hs hfile
    obtain ⟨rfl, rfl⟩ := hfile
    obtain ⟨t, w, -, -, rfl⟩ := hs
    rw [h.log.take_body, h.log.drop_body]
    have hnone : ∀ seq, LeftLog (encodeHeader seq) [] none [] := by
      intro seq
      have hstale := leaves_stale (noRecord_nil seq)
      rwa [List.append_nil] at hstale
    cases t with
    | true =>
      refine ⟨[], none, [], ?_, .inr (.inr ⟨⟨_, _, _, _, rfl⟩, rfl, rfl⟩), by rintro ⟨⟩⟩
      rw [if_pos rfl, List.append_nil]
      split
      · exact hnone _
      · exact hnone _
    | false =>
      rw [if_neg Bool.false_ne_true]
      cases w with
      | true =>
        rw [if_pos rfl]
        exact ⟨[], none, _, leaves_stale (Log.stale hlog.room), .inr (.inr ⟨⟨_, _, _, _, rfl⟩, rfl, rfl⟩), by rintro ⟨⟩⟩
      | false =>
        rw [if_neg Bool.false_ne_true]
        exact ⟨_, none, [], hlog.leaves_body, .inl ⟨rfl, .inl rfl⟩, by rintro ⟨⟩⟩

end Logged

namespace Database

variable {m₀ : PageMap} {db₀ db : Database} {es : List Event} {data wal : Bytes} {o : Opened}

/-- The report counts the commits of the log, and one transaction more if it was being logged. A log
without a write in flight is counted exactly, and nothing of it is discarded. -/
theorem open_report_exact (hs : db₀.Starts m₀) (hr : Run Database.Step db₀ es db)
    (hwal : db.walFile.Survives wal) (ho : openExisting data (some wal) = .ok o) : ∃ cs incomplete,
      o.report.created = false ∧
      o.report.recovery = ⟨cs.length, incomplete, ((cs.flatMap (·.images)).map Prod.fst).dedup.length⟩ ∧
      ((cs = (History.of m₀ db₀.wal.nextSeq es).log.since ∧
          (incomplete = 0 ∨ incomplete = 1 ∧ ∃ c, (History.of m₀ db₀.wal.nextSeq es).log.pending = some c)) ∨
        (∃ c, (History.of m₀ db₀.wal.nextSeq es).log.pending = some c ∧
          cs = (History.of m₀ db₀.wal.nextSeq es).log.since ++ [c] ∧ incomplete = 0) ∨
        (∃ old header t w, db.walFile.unsynced = .reset old header t w) ∧ cs = [] ∧ incomplete = 0) ∧
      (db.walFile.unsynced = .none → cs = (History.of m₀ db₀.wal.nextSeq es).log.since ∧ incomplete = 0 ∧
        o.report.discardedWalTail = none) := by
  obtain ⟨cs, last, left, hleft, hcs, hnone⟩ := (Inv.run hs hr).logged.leaves hwal
  obtain ⟨hcreated, hstats, htail⟩ := hleft.report ho
  refine ⟨cs, last.toList.length, hcreated, hstats, ?_, fun hu => ?_⟩
  · rcases hcs with ⟨rfl, rfl | hp⟩ | ⟨c, hp, rfl, rfl⟩ | ⟨hu, rfl, rfl⟩
    · exact .inl ⟨rfl, .inl rfl⟩
    · refine .inl ⟨rfl, ?_⟩
      cases last with
      | none => exact .inl rfl
      | some b => exact .inr ⟨rfl, hp⟩
    · exact .inr (.inl ⟨c, hp, rfl, rfl⟩)
    · exact .inr (.inr ⟨hu, rfl, rfl⟩)
  · obtain ⟨rfl, rfl, rfl⟩ := hnone hu
    exact ⟨rfl, rfl, Option.map_eq_none_iff.mp htail⟩

theorem open_report_exact_first : ∃ o, openExisting FileHeader.new.encode.data
    (some smallest.committed.walFile.contents) = .ok o ∧
      o.report.recovery = ⟨1, 0, 2⟩ ∧ o.report.discardedWalTail = none := by
  have hrun := (smallest_published.step (.publishDone rfl)).step (.commitDone rfl rfl)
  have hwal := synced_log_survives smallest_starts hrun rfl
  obtain ⟨o, -, ho, -⟩ := recovers_logged smallest_starts (guarded_of_unpoisoned hrun rfl) (by decide)
    committed_data_survives hwal
  obtain ⟨cs, incomplete, -, hstats, -, hexact⟩ := open_report_exact smallest_starts hrun hwal ho
  obtain ⟨rfl, rfl, htail⟩ := hexact rfl
  exact ⟨o, ho, hstats, htail⟩

end Database

end OxenDB
