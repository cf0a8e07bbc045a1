import OxenDB.Attempts
import OxenDB.Corruption
import OxenDB.Database.Report

namespace OxenDB

open Lib

/-- Flips of bits of a record that its length and its checksum are sure to show. -/
def WalRecord.Shows (r : WalRecord) (E : Finset ℕ) : Prop :=
  ((∀ k ∈ E, k < 32) ∧ 1 ≤ E.card ∧ E.card ≤ 3) ∨
    (∀ k ∈ E, 32 ≤ k ∧ k < 8 * r.len) ∧ (Odd E.card ∨ (∀ k ∈ E, 64 ≤ k) ∧ Burst E)

theorem WalRecord.Shows.noRecord {r : WalRecord} {E : Finset ℕ} (h : r.Shows E) (seq seq' : UInt64) (rest : Bytes) :
    NoRecord (flipBits (· ∈ E) (r.encode seq []) ++ rest) seq' := by
  intro d hd
  have hbad : ∃ reason,
      WalRecord.decode (flipBits (· ∈ E) (r.encode seq []) ++ rest) = .error (.invalid reason) := by
    rcases h with ⟨hE, h1, h3⟩ | ⟨hE, h⟩
    · exact r.flip_len seq rest hE h1 h3
    · exact r.flip_rest seq rest hE h
  obtain ⟨reason, hbad⟩ := hbad
  rw [hbad] at hd
  cases hd

def headerShows (E : Finset ℕ) : Prop :=
  (∀ k ∈ E, k < 8 * walHeaderSize) ∧ (Odd E.card ∨ (∀ k ∈ E, 32 ≤ k) ∧ Burst E)

theorem encodeHeader_sealed (seq : UInt64) : Sealed (encodeHeader seq) := by
  have hd := decodeHeader_encodeHeader seq []
  have hl := encodeHeader_length seq
  rw [List.append_nil] at hd
  simp only [decodeHeader] at hd
  rw [← hl, List.take_length] at hd
  split_ifs at hd with h1 h2 h3
  exact not_not.mp h2

theorem decodeHeader_flip {E : Finset ℕ} (h : headerShows E) (seq : UInt64) (rest : Bytes) :
    ∃ e, decodeHeader (flipBits (· ∈ E) (encodeHeader seq) ++ rest) = .error e := by
  have hl : (flipBits (· ∈ E) (encodeHeader seq)).length = walHeaderSize := by
    rw [flipBits_length, encodeHeader_length]
  have hseen : ¬ Sealed (flipBits (· ∈ E) (encodeHeader seq)) :=
    flip_seen (by rw [encodeHeader_length]; decide) (encodeHeader_sealed seq)
      (by rw [encodeHeader_length]; exact h.1) h.2
  have htake : (flipBits (· ∈ E) (encodeHeader seq) ++ rest).take walHeaderSize =
      flipBits (· ∈ E) (encodeHeader seq) := by rw [← hl, List.take_left]
  simp only [decodeHeader, htake]
  split_ifs with h1 h2 h3
  · exact ⟨_, rfl⟩
  · exact ⟨_, rfl⟩
  · exact absurd (not_not.mp h2) hseen
  · exact absurd (not_not.mp h2) hseen

def Log.damaged (l : Log) (i : ℕ) (r : WalRecord) (E : Finset ℕ) (rest : Bytes) : Bytes :=
  encodeHeader l.firstSeq ++ (encodeAll ((l.since.flatMap (·.records)).take i) l.firstSeq ++
    (flipBits (· ∈ E) (r.encode (l.firstSeq + UInt64.ofNat i) []) ++ rest))

theorem take_records {cs : List Commit} {i : ℕ} (hi : i < (cs.flatMap (·.records)).length) :
    ∃ k c j, cs[k]? = some c ∧ j < c.records.length ∧
      (cs.flatMap (·.records)).take i = (cs.take k).flatMap (·.records) ++ c.records.take j ∧
      ((cs.take k).flatMap (·.records)).length + j = i := by
  induction cs generalizing i with
  | nil => exact absurd hi (Nat.not_lt_zero _)
  | cons c cs ih =>
    rw [List.flatMap_cons, List.length_append] at hi
    rcases Nat.lt_or_ge i c.records.length with hlt | hge
    · refine ⟨0, c, i, rfl, hlt, ?_, ?_⟩
      · rw [List.flatMap_cons, List.take_append_of_le_length hlt.le]
        rfl
      · simp
    · obtain ⟨k, d, j, hd, hj, htake, hlen⟩ := @ih (i - c.records.length) (by omega)
      refine ⟨k + 1, d, j, by simpa using hd, hj, ?_, ?_⟩
      · rw [List.flatMap_cons, List.take_append, List.take_of_length_le hge, htake, List.take_succ_cons,
          List.flatMap_cons, List.append_assoc]
      · rw [List.take_succ_cons, List.flatMap_cons, List.length_append]
        omega

theorem flipBits_empty (f : Bytes) : flipBits (· ∈ (∅ : Finset ℕ)) f = f := by
  apply List.ext_getElem?
  intro i
  have hzero : (BitVec.ofFnLE fun j : Fin 8 => decide (8 * i + (j : ℕ) ∈ (∅ : Finset ℕ))) = 0#8 := by
    simp only [Finset.notMem_empty, decide_false]
    decide
  simp only [flipBits, List.getElem?_mapIdx, hzero]
  simp

theorem Log.damaged_nothing {l : Log} {i : ℕ} {r : WalRecord} (hr : (l.since.flatMap (·.records))[i]? = some r) :
    l.damaged i r ∅ (encodeAll ((l.since.flatMap (·.records)).drop (i + 1)) (l.firstSeq + UInt64.ofNat (i + 1))) =
      l.body := by
  obtain ⟨hlt, hget⟩ := List.getElem?_eq_some_iff.mp hr
  have hsplit : l.since.flatMap (·.records) =
      (l.since.flatMap (·.records)).take i ++ r :: (l.since.flatMap (·.records)).drop (i + 1) := by
    rw [← hget, ← List.drop_eq_getElem_cons hlt, List.take_append_drop]
  have hlen : ((l.since.flatMap (·.records)).take i).length = i := by
    rw [List.length_take, Nat.min_eq_left hlt.le]
  rw [Log.damaged, flipBits_empty, Log.body]
  conv_rhs => rw [hsplit, encodeAll_append, hlen, encodeAll]
  rw [UInt64.ofNat_add, ← UInt64.add_assoc]
  rfl

namespace Logged

variable {m₀ : PageMap} {h : History} {db : Database}

theorem nodup_before (hlog : Logged m₀ h db) {k : ℕ} {c : Commit} (hc : h.log.since[k]? = some c) :
    ((h.log.since.take k).map (·.txn) ++ [c.txn]).Nodup := by
  have hsub := hlog.txns_nodup.sublist ((List.take_sublist (k + 1) h.log.since).map (·.txn))
  rw [List.take_add_one, hc, List.map_append] at hsub
  exact hsub

theorem uncommitted_before (hlog : Logged m₀ h db) {k j : ℕ} {c : Commit} (hc : h.log.since[k]? = some c)
    (hj : j < c.records.length) : ImagesOutside ((h.log.since.take k).map (·.txn)) (c.records.take j) := by
  intro r hr
  obtain ⟨id, page, rfl⟩ := Commit.records_take hj hr
  refine ⟨c.txn, id, page, rfl, fun hmem => ?_⟩
  exact (List.nodup_append.mp (hlog.nodup_before hc)).2.2 _ hmem _ (List.mem_singleton_self _) rfl

theorem leaves_damaged (hlog : Logged m₀ h db) {i : ℕ} {r : WalRecord} {E : Finset ℕ} (rest : Bytes)
    (hr : (h.log.since.flatMap (·.records))[i]? = some r) (hE : r.Shows E) : ∃ k c j,
      h.log.since[k]? = some c ∧ j < c.records.length ∧
      ((h.log.since.take k).flatMap (·.records)).length + j = i ∧
      (h.log.since.flatMap (·.records)).take i = (h.log.since.take k).flatMap (·.records) ++ c.records.take j ∧
      LeftLog (h.log.damaged i r E rest) (h.log.since.take k)
        (if j = 0 then none else some ⟨c.txn, c.images.take j⟩)
        (flipBits (· ∈ E) (r.encode (h.log.firstSeq + UInt64.ofNat i) []) ++ rest) := by
  obtain ⟨hlt, -⟩ := List.getElem?_eq_some_iff.mp hr
  obtain ⟨k, c, j, hc, hj, htake, hlen⟩ := take_records hlt
  refine ⟨k, c, j, hc, hj, hlen, htake, ?_⟩
  have himages : (if j = 0 then none else some (TxnBlock.mk c.txn (c.images.take j))).toList.flatMap
      (·.imageRecords) = c.records.take j := by
    split_ifs with h0
    · rw [h0]
      rfl
    · rw [records_take_images hj]
      exact List.append_nil _
  refine ⟨⟨h.log.firstSeq, ?_, ?_⟩, ?_, ?_⟩
  · rw [himages, ← htake]
    rfl
  · rw [himages, List.length_append, List.length_take, Nat.min_eq_left hj.le, hlen]
    exact hE.noRecord _ _ _
  · refine (hlog.nodup_before hc).sublist (List.Sublist.append_left ?_ _)
    split_ifs
    · exact List.nil_sublist _
    · exact List.Sublist.refl _
  · intro b hb
    split_ifs at hb with h0
    · cases hb
    · cases hb
      refine List.ne_nil_of_length_pos ?_
      rw [Commit.records_eq, Commit.imageRecords_eq, List.length_append, List.length_map,
        List.length_singleton] at hj
      rw [List.length_take]
      omega

end Logged

theorem DiskManager.open_contents {data : Bytes} {disk : DiskManager} (h : DiskManager.open data = .ok disk) :
    disk.file.contents = data := by
  obtain ⟨page, header, hpage, hdec, hexp, -⟩ := DiskManager.open_inv h
  obtain ⟨bs, hread, -⟩ := Option.bind_eq_some_iff.mp hpage
  have hlen := ((readAt_some_iff _ _ _ _).mp hread).1
  rw [DiskManager.open_of_header (by omega) hpage hdec hexp] at h
  cases h
  rfl

theorem openExisting_contents {data data' wal : Bytes} {opened : OpenedWal} {stats : RecoveryStats} {o : Opened}
    (hw : Wal.open wal = .ok opened) (hr : replay data opened.records = .ok (data', stats))
    (ho : openExisting data (some wal) = .ok o) : o.disk.file.contents = data' := by
  have hdisk := @openExisting_disk data wal opened hw
  rw [ho, recovered, hr] at hdisk
  exact DiskManager.open_contents hdisk.symm

section Inv

variable {m₀ : PageMap} {h : History} {db : Database} {i : ℕ} {r : WalRecord} {E : Finset ℕ}

theorem Inv.open_damaged (hi : Inv m₀ h db) (hcount : h.log.current.count.toNat < 2 ^ 51)
    (hr : (h.log.since.flatMap (·.records))[i]? = some r) (hE : r.Shows E) (rest : Bytes) :
    (∃ opened, Wal.open (h.log.damaged i r E rest) = .ok opened ∧
      opened.records = decodedAll ((h.log.since.flatMap (·.records)).take i) h.log.firstSeq) ∧
    ∀ data o, openExisting data (some (h.log.damaged i r E rest)) = .ok o → ∃ k c j,
      h.log.since[k]? = some c ∧ j < c.records.length ∧
      ((h.log.since.take k).flatMap (·.records)).length + j = i ∧
      o.report.recovery = ⟨k, if j = 0 then 0 else 1,
        (((h.log.since.take k).flatMap (·.images)).map Prod.fst).dedup.length⟩ ∧
      o.report.discardedWalTail.map DiscardedTail.bytes = some (r.len + rest.length) ∧
      slotOf o.disk.file.contents = overlay (slotOf data)
        (((h.log.since.take k).flatMap (·.images)).map (fun u => (u.1, u.2.data))) := by
  obtain ⟨k, c, j, hc, hj, hlen, htake, hleft⟩ := hi.logged.leaves_damaged rest hr hE
  obtain ⟨opened, hopen, hrec, -⟩ := Wal.open_encoded ((h.log.since.flatMap (·.records)).take i)
    h.log.firstSeq _ (hE.noRecord _ _ rest)
  refine ⟨⟨opened, hopen, hrec⟩, fun data o ho => ⟨k, c, j, hc, hj, hlen, ?_, ?_, ?_⟩⟩
  · obtain ⟨hk, -⟩ := List.getElem?_eq_some_iff.mp hc
    rw [(hleft.report ho).2.1, List.length_take, Nat.min_eq_left hk.le]
    split_ifs <;> rfl
  · have hlength : (flipBits (· ∈ E) (r.encode (h.log.firstSeq + UInt64.ofNat i) []) ++ rest).length =
        r.len + rest.length := by rw [List.length_append, flipBits_length, r.encode_length]
    rw [(hleft.report ho).2.2, if_neg, hlength]
    intro hnil
    have hpos := r.len_pos
    rw [hnil, List.length_nil] at hlength
    omega
  · have hmem : ∀ u ∈ (h.log.since.take k).flatMap (·.images), u ∈ h.log.since.flatMap (·.images) := by
      intro u hu
      obtain ⟨d, hd, hu⟩ := List.mem_flatMap.mp hu
      exact List.mem_flatMap.mpr ⟨d, List.mem_of_mem_take hd, hu⟩
    have hvalid := hi.logged.chain.images_valid hi.logged.base
    have hids : ∀ u ∈ (h.log.since.take k).flatMap (·.images), u.1.toNat < 2 ^ 51 - 1 := by
      intro u hu
      have hlt : u.1.toNat < h.log.current.count.toNat := UInt64.lt_iff_toNat_lt.mp (hvalid u (hmem u hu)).1
      omega
    obtain ⟨data', stats, hreplay, hslots, -⟩ := replay_log data (h.log.since.take k) (c.records.take j)
      h.log.firstSeq (hi.logged.uncommitted_before hc hj) (fun u hu => (hvalid u (hmem u hu)).2) hids
    rw [← htake, ← hrec] at hreplay
    rw [openExisting_contents hopen hreplay ho, hslots]

end Inv

namespace Database

variable {m₀ : PageMap} {db₀ db : Database} {es : List Event}

/-- Damage to a log on which no write is in flight. A damaged header keeps the database from opening. A
damaged record ends the log: the records before it are read, the report counts the transactions that are
whole before it and the bytes from it on, and of the log only the pages of those transactions are written. -/
theorem log_damage_contained (hs : db₀.Starts m₀) (hr : Run Database.Step db₀ es db)
    (hcount : ∀ c ∈ loggedCommits es, c.pageCount.toNat < 2 ^ 51) (hu : db.walFile.unsynced = .none)
    {log : Log} (hlog : log = (History.of m₀ db₀.wal.nextSeq es).log) :
    (∀ E rest path data options, headerShows E → ∃ e, Database.open path (some data)
      (some (flipBits (· ∈ E) (db.walFile.contents.take walHeaderSize) ++ rest)) options = .error e) ∧
    ∀ i r, (log.since.flatMap (·.records))[i]? = some r →
      db.walFile.contents = log.damaged i r ∅ (encodeAll ((log.since.flatMap (·.records)).drop (i + 1))
        (log.firstSeq + UInt64.ofNat (i + 1))) ∧
      ∀ E rest, r.Shows E → (∃ opened, Wal.open (log.damaged i r E rest) = .ok opened ∧
          opened.records = decodedAll ((log.since.flatMap (·.records)).take i) log.firstSeq) ∧
        ∀ data o, openExisting data (some (log.damaged i r E rest)) = .ok o → ∃ k c j,
          log.since[k]? = some c ∧ j < c.records.length ∧
          ((log.since.take k).flatMap (·.records)).length + j = i ∧
          o.report.recovery = ⟨k, if j = 0 then 0 else 1,
            (((log.since.take k).flatMap (·.images)).map Prod.fst).dedup.length⟩ ∧
          o.report.discardedWalTail.map DiscardedTail.bytes = some (r.len + rest.length) ∧
          slotOf o.disk.file.contents = overlay (slotOf data)
            (((log.since.take k).flatMap (·.images)).map (fun u => (u.1, u.2.data))) := by
  subst hlog
  have hi := Inv.run hs hr
  have hbody := hi.logged.contents_eq hu
  refine ⟨fun E rest path data options hE => ?_, fun i r hget => ⟨?_, fun E rest hE => ?_⟩⟩
  · have htake : db.walFile.contents.take walHeaderSize =
        encodeHeader (History.of m₀ db₀.wal.nextSeq es).log.firstSeq := by
      rw [hbody, Log.take_body]
    obtain ⟨e, he⟩ := decodeHeader_flip hE (History.of m₀ db₀.wal.nextSeq es).log.firstSeq rest
    refine ⟨e, ?_⟩
    rw [htake]
    simp only [Database.open, openExisting, Wal.open, he]
  · rw [Log.damaged_nothing hget, hbody]
  · exact hi.open_damaged (current_count_lt hs hr hcount) hget hE rest

theorem log_damage_contained_first : ∃ wal opened o, Wal.open wal = .ok opened ∧ opened.records.length = 2 ∧
    openExisting FileHeader.new.encode.data (some wal) = .ok o ∧ o.report.recovery = ⟨0, 1, 0⟩ ∧
    o.report.discardedWalTail.map DiscardedTail.bytes = some commitLen := by
  have hrun := (smallest_published.step (.publishDone rfl)).step (.commitDone rfl rfl)
  obtain ⟨-, hrecords⟩ := log_damage_contained smallest_starts hrun (by decide) rfl rfl
  obtain ⟨-, hdamage⟩ := hrecords 2 (.commit 1) rfl
  have hshows : (WalRecord.commit 1).Shows {64, 95} :=
    .inr ⟨by decide, .inr ⟨by decide, by decide, 64, by decide⟩⟩
  obtain ⟨⟨opened, hopen, hrec⟩, hreport⟩ := hdamage {64, 95} [] hshows
  have hholds : LogHolds
      (Log.damaged ⟨⟨1, fun _ => Page.zeroed⟩, 0, 1, [firstCommit], none⟩ 2 (.commit 1) {64, 95} []) [] := by
    refine ⟨0, firstCommit.records.take 2, _, rfl, hshows.noRecord _ _ _, fun r hr => ?_⟩
    obtain ⟨id, page, rfl⟩ := Commit.records_take (by decide) hr
    exact ⟨_, id, page, rfl, List.not_mem_nil⟩
  have hrestores : Restores FileHeader.new.encode.data [] ⟨1, fun _ => Page.zeroed⟩ := by
    refine (Chain.nil _).restores (Inv.start smallest_starts).logged.base (by decide) ?_ ?_ (fun _ => readAt_self _)
    · rw [Page.size]
      decide
    · intro id hid
      exact absurd (UInt64.lt_one_iff.mp hid.2) hid.1
  obtain ⟨o, ho, -⟩ := Recoverable.open ⟨[], hholds, hrestores⟩
  obtain ⟨k, c, j, hc, -, hlen, hstats, htail, -⟩ := hreport _ o ho
  have hc : [firstCommit][k]? = some c := hc
  cases k with
  | zero =>
    rw [List.take_zero, List.flatMap_nil, List.length_nil, Nat.zero_add] at hlen
    subst hlen
    exact ⟨_, opened, o, hopen, by rw [hrec]; rfl, ho, hstats, htail⟩
  | succ k => cases hc

end Database

end OxenDB
