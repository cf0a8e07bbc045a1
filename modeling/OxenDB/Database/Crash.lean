import OxenDB.Database.DurableSteps

namespace OxenDB

open Lib

theorem overlay_slot {m : PageMap} {us : List (PageId × Page)} {id : PageId} (hid : id ≠ PageId.HEADER) :
    overlay m.slot (us.map (fun u => (u.1, u.2.data))) id = (overlay m.page us id).data := by
  have hmap := congrFun (overlay_map Page.data m.page us) id
  rw [Function.comp_apply] at hmap
  rw [← hmap]
  apply overlay_congr
  intro _
  exact m.slot_data hid

theorem Commit.Extends.slot {c : Commit} {m : PageMap} (h : c.Extends m) :
    (m.commit c).slot = overlay m.slot (c.images.map (fun u => (u.1, u.2.data))) := by
  have hpages : PageId.HEADER ∉ (c.pages.map (fun u => (u.1, u.2.data))).map Prod.fst := by
    rw [keys_map_data]
    intro hm
    obtain ⟨u, hu, he⟩ := List.mem_map.mp hm
    exact (h.data u hu).1 he
  funext id
  rw [Commit.images, List.map_append, overlay_append]
  rcases eq_or_ne id PageId.HEADER with rfl | hne
  · rw [overlay_of_not_mem _ _ _ hpages, PageMap.slot_header]
    split_ifs with hg
    · simp only [List.map_cons, List.map_nil, overlay_cons, overlay_nil, Function.update_self]
      rfl
    · have hle := h.grew
      rw [Bool.eq_false_iff.mpr hg, eq_comm, decide_eq_false_iff_not] at hle
      have heq : c.pageCount = m.count := UInt64.le_antisymm (UInt64.not_lt.mp hle) h.count_le
      change (FileHeader.mk c.pageCount).encode.data = m.slot PageId.HEADER
      rw [heq, PageMap.slot_header]
  · rw [(m.commit c).slot_data hne]
    have hskip : overlay m.slot ((if c.grew = true then
        [(PageId.HEADER, (FileHeader.mk c.pageCount).encode)] else []).map (fun u => (u.1, u.2.data))) id =
        m.slot id := by
      apply overlay_of_not_mem
      split_ifs
      · simpa using hne
      · simp
    rw [overlay_congr _ m.slot _ _ (fun _ => hskip), overlay_slot hne]
    rfl

theorem Chain.slot {m : PageMap} {cs : List Commit} (h : Chain m cs) :
    (m.commits cs).slot = overlay m.slot ((cs.flatMap (·.images)).map (fun u => (u.1, u.2.data))) := by
  induction h with
  | nil => rfl
  | @cons m c cs hc _ ih =>
    rw [List.flatMap_cons, List.map_append, overlay_append, ← hc.slot]
    exact ih

theorem Chain.images_valid {m : PageMap} {cs : List Commit} (h : Chain m cs) (hm : m.WellFormed) :
    ∀ u ∈ cs.flatMap (·.images), u.1 < (m.commits cs).count ∧ ValidImage u.1 u.2 := by
  induction h with
  | nil => simp
  | @cons m c cs hc hcs ih =>
    have hm' := hc.wellFormed hm
    have hle := hcs.count_le
    intro u hu
    rw [List.flatMap_cons, List.mem_append] at hu
    rcases hu with hu | hu
    · rw [Commit.images, List.mem_append] at hu
      rcases hu with hu | hu
      · split_ifs at hu
        · rw [List.mem_singleton.mp hu]
          refine ⟨UInt64.lt_of_lt_of_le ?_ hle, ?_⟩
          · have hpos := hm'.count_pos
            rw [← UInt64.toNat_inj.ne] at hpos
            rw [UInt64.lt_iff_toNat_lt]
            exact Nat.pos_of_ne_zero hpos
          · rw [ValidImage, if_pos rfl]
            exact ⟨_, FileHeader.decode_encode ⟨c.pageCount⟩ hm'.count_pos⟩
        · cases hu
      · have hd := hc.data u hu
        refine ⟨UInt64.lt_of_lt_of_le hd.2 hle, ?_⟩
        rw [ValidImage, if_neg hd.1]
        exact hc.valid u hu
    · exact ih hm' u hu

theorem images_keys {cs : List Commit} {id : PageId} (hid : id ∉ (cs.flatMap (·.images)).map Prod.fst) :
    id ∉ (cs.flatMap (·.pages)).map Prod.fst := by
  intro hm
  obtain ⟨u, hu, he⟩ := List.mem_map.mp hm
  obtain ⟨c, hc, hu⟩ := List.mem_flatMap.mp hu
  refine hid (List.mem_map.mpr ⟨u, List.mem_flatMap_of_mem hc ?_, he⟩)
  rw [Commit.images]
  exact List.mem_append_right _ hu

theorem not_grew {cs : List Commit} (hid : PageId.HEADER ∉ (cs.flatMap (·.images)).map Prod.fst) :
    ∀ c ∈ cs, c.grew = false := by
  intro c hc
  rw [Bool.eq_false_iff]
  intro hg
  refine hid (List.mem_map.mpr ⟨(PageId.HEADER, (FileHeader.mk c.pageCount).encode),
    List.mem_flatMap_of_mem hc ?_, rfl⟩)
  rw [Commit.images, if_pos hg]
  exact List.mem_append_left _ List.mem_cons_self

theorem Chain.restores {m : PageMap} {cs : List Commit} {data : Bytes} (h : Chain m cs)
    (hm : m.WellFormed) (hcount : (m.commits cs).count.toNat < 2 ^ 51) (hlen : data.length ≤ maxFileSize)
    (hkept : ∀ id, DataPage m.count id → id ∉ (cs.flatMap (·.pages)).map Prod.fst →
      readAt data (slotOffset id) pageSize = some (m.page id).data)
    (hheader : (∀ c ∈ cs, c.grew = false) →
      readAt data (slotOffset PageId.HEADER) pageSize = some (m.slot PageId.HEADER)) :
    Restores data (cs.flatMap (·.images)) (m.commits cs) where
  count_pos := (h.wellFormed hm).count_pos
  count_lt := hcount
  bounded := hlen
  pages := (h.wellFormed hm).pages
  below u hu := (h.images_valid hm u hu).1
  valid u hu := (h.images_valid hm u hu).2
  kept id hid hk := by
    have hslot : (m.commits cs).slot id = m.slot id := by
      rw [h.slot, overlay_of_not_mem _ _ _ (by rwa [keys_map_data])]
    rw [hslot]
    rcases eq_or_ne id PageId.HEADER with rfl | hne
    · exact hheader (not_grew hk)
    · rw [m.slot_data hne]
      refine hkept id ?_ (images_keys hk)
      by_contra hnew
      exact images_keys hk (h.fresh ⟨hne, hid⟩ hnew)
  latest id hk := by
    rw [← keys_map_data] at hk
    rw [overlay_eq_of_mem _ m.slot _ _ hk, ← h.slot]

theorem logHolds_body (seq : UInt64) (cs : List Commit) :
    LogHolds (encodeHeader seq ++ encodeAll (cs.flatMap (·.records)) seq) cs := by
  refine ⟨seq, [], [], ?_, noRecord_nil _, by rintro r ⟨⟩⟩
  rw [List.append_nil, List.append_nil]

theorem logHolds_stale {seq : UInt64} {bs : Bytes} (h : NoRecord bs seq) :
    LogHolds (encodeHeader seq ++ bs) [] := by
  refine ⟨seq, [], bs, ?_, ?_, by rintro r ⟨⟩⟩
  · rw [List.flatMap_nil, List.append_nil, encodeAll, List.nil_append]
  · rw [List.flatMap_nil, List.append_nil, List.length_nil]
    simpa using h

theorem Log.records_lt {l : Log} (h : l.body.length ≤ maxFileSize) :
    (l.since.flatMap (·.records)).length < 2 ^ 64 := by
  have hr := encodeAll_length_ge (l.since.flatMap (·.records)) l.firstSeq
  rw [body, List.length_append, maxFileSize] at h
  omega

theorem Log.stale {l : Log} (h : l.body.length ≤ maxFileSize) :
    NoRecord (encodeAll (l.since.flatMap (·.records)) l.firstSeq) l.nextSeq :=
  noRecord_stale (Log.records_lt h)

theorem Log.pending_txn {l : Log} {c : Commit} (hroom : l.body.length ≤ maxFileSize)
    (htxns : l.since.map (·.txn) =
      (List.range l.since.length).map (fun i => l.firstTxn + UInt64.ofNat i))
    (hc : c.txn = l.nextTxn) : c.txn ∉ l.since.map (·.txn) := by
  have hlt := Log.commits_lt hroom
  rw [htxns, hc, Log.nextTxn]
  intro hm
  obtain ⟨i, hi, he⟩ := List.mem_map.mp hm
  rw [List.mem_range] at hi
  have he := (UInt64.add_right_inj l.firstTxn).mp he
  rw [← UInt64.toNat_inj, UInt64.toNat_ofNat', UInt64.toNat_ofNat'] at he
  omega

theorem Commit.records_take {c : Commit} {j : ℕ} (hj : j < c.records.length) {r : WalRecord}
    (hr : r ∈ c.records.take j) : ∃ id page, r = .pageImage c.txn id page := by
  rw [Commit.records_eq, List.length_append, List.length_singleton] at hj
  rw [Commit.records_eq, List.take_append_of_le_length (by omega)] at hr
  obtain ⟨u, -, rfl⟩ := List.mem_map.mp (List.mem_of_mem_take hr)
  exact ⟨u.1, u.2, rfl⟩

namespace Logged

variable {m₀ : PageMap} {h : History} {db : Database} {wal : Bytes}

theorem batch_left (hlog : Logged m₀ h db) {c : Commit} (hc : h.log.Pending c) {tail : Bytes}
    (ht : TornBatch (encodeAll c.records h.log.nextSeq) tail) (hlen : (h.log.body ++ tail).length ≤ maxFileSize) :
    LogHolds (h.log.body ++ tail) h.log.since ∨
      c.Extends h.log.current ∧ LogHolds (h.log.body ++ tail) (h.log.since ++ [c]) := by
  obtain ⟨j, hj, bs, rfl, hno⟩ := ht.records c.records h.log.nextSeq rfl
  rcases Nat.lt_or_eq_of_le hj with hlt | rfl
  · refine .inl ⟨h.log.firstSeq, c.records.take j, bs, ?_, ?_, fun r hr => ?_⟩
    · rw [encodeAll_append, Log.body, List.append_assoc, List.append_assoc]
      rfl
    · rw [List.length_append, List.length_take, Nat.min_eq_left hj, UInt64.ofNat_add,
        ← UInt64.add_assoc]
      exact hno
    · obtain ⟨id, page, rfl⟩ := Commit.records_take hlt hr
      exact ⟨c.txn, id, page, rfl, Log.pending_txn hlog.room hlog.txns hc.txn⟩
  · rw [List.take_length] at hlen ⊢
    refine .inr ⟨hc.extends hlog.wellFormed hlog.small ?_, h.log.firstSeq, [], bs, ?_, ?_, by rintro r ⟨⟩⟩
    · rw [h.log.push_body, List.length_append]
      rw [List.length_append, List.length_append] at hlen
      omega
    · rw [List.append_nil, List.flatMap_append, List.flatMap_singleton, encodeAll_append, Log.body,
        List.append_assoc, List.append_assoc]
      rfl
    · rw [List.append_nil, List.flatMap_append, List.flatMap_singleton, List.length_append,
        UInt64.ofNat_add, ← UInt64.add_assoc]
      exact hno

theorem wal_left (hlog : Logged m₀ h db) (hs : db.walFile.Survives wal) :
    LogHolds wal h.log.since ∨
      (∃ c, h.log.pending = some c ∧ c.Extends h.log.current ∧ LogHolds wal (h.log.since ++ [c])) ∨
      (∃ old header t w, db.walFile.unsynced = .reset old header t w) ∧ LogHolds wal [] := by
  obtain ⟨hlen, hs⟩ := hs
  have hfile := hlog.file
  unfold Log.Filed at hfile
  cases hu : db.walFile.unsynced with
  | none =>
    simp only [hu] at hs hfile
    rw [hs, hfile]
    exact .inl (logHolds_body _ _)
  | batch off bytes =>
    simp only [hu] at hs hfile
    obtain ⟨-, htake, c, hc, rfl⟩ := hfile
    obtain ⟨tail, ht, rfl⟩ := hs
    rw [htake] at hlen ⊢
    rcases hlog.batch_left hc ht hlen with hl | ⟨he, hl⟩
    · exact .inl hl
    · exact .inr (.inl ⟨c, hc.pending, he, hl⟩)
  | reset old header truncated written =>
    simp only [hu] at hs hfile
    obtain ⟨rfl, rfl⟩ := hfile
    obtain ⟨t, w, -, -, rfl⟩ := hs
    rw [h.log.take_body, h.log.drop_body]
    have hnone := logHolds_stale (noRecord_nil h.log.nextSeq)
    have hold := logHolds_stale (noRecord_nil h.log.firstSeq)
    rw [List.append_nil] at hnone hold
    cases t with
    | true =>
      refine .inr (.inr ⟨⟨_, _, _, _, rfl⟩, ?_⟩)
      simp only [if_true, List.append_nil]
      cases w with
      | true => simpa only [if_true] using hnone
      | false => simpa only [Bool.false_eq_true, if_false] using hold
    | false =>
      simp only [Bool.false_eq_true, if_false]
      cases w with
      | true =>
        simp only [if_true]
        exact .inr (.inr ⟨⟨_, _, _, _, rfl⟩, logHolds_stale (Log.stale hlog.room)⟩)
      | false =>
        simp only [Bool.false_eq_true, if_false]
        exact .inl (logHolds_body _ _)

end Logged

def DataFile.Keeps (f : DataFile) (left : Bytes) : Prop :=
  (∀ id ≠ PageId.HEADER, f.slots id = .synced → ∀ bs,
    readAt f.contents (slotOffset id) pageSize = some bs →
      readAt left (slotOffset id) pageSize = some bs) ∧
  left.length ≤ maxFileSize

theorem DataFile.Keeps.lasts {f : DataFile} {left : Bytes} (h : f.Keeps left) {id : PageId} {page : Page}
    (hid : id ≠ PageId.HEADER) (hl : f.Lasts id page) :
    readAt left (slotOffset id) pageSize = some page.data := h.1 id hid hl.1 _ hl.2

theorem DataFile.Survives.keeps {f : DataFile} {left : Bytes} (h : f.Survives left) : f.Keeps left :=
  ⟨h.1, h.2.1⟩

theorem DataFile.Survives.header {f : DataFile} {left bs : Bytes} (h : f.Survives left)
    (hbs : bs.length = pageSize) (hall : ∀ v ∈ f.headers, v = bs) :
    readAt left (slotOffset PageId.HEADER) pageSize = some bs := by
  obtain ⟨-, -, header, hread, hmix⟩ := h
  have hlen : header.length = pageSize := by
    rw [← ((readAt_some_iff _ _ _ _).mp hread).2, slice_length]
  have heq : header = bs := by
    apply List.ext_getElem?
    intro i
    by_cases hi : i < pageSize
    · obtain ⟨v, hv, he⟩ := hmix i hi
      rw [he, hall v hv]
    · rw [List.getElem?_eq_none (by omega), List.getElem?_eq_none (by omega)]
  rw [← heq]
  exact hread

section Crash

variable {m₀ : PageMap} {h : History} {db : Database} {data wal : Bytes}

theorem recoverable_of_keeps (hi : Inv m₀ h db) (hd : Durable h db)
    (hdata : db.pool.disk.file.Keeps data) (hwal : db.walFile.Survives wal)
    (hheader : (∀ c ∈ h.log.since, c.grew = false) →
      readAt data (slotOffset PageId.HEADER) pageSize = some (h.log.base.slot PageId.HEADER))
    (hreset : db.pool.disk.file.headers = [h.log.current.slot PageId.HEADER] →
      readAt data (slotOffset PageId.HEADER) pageSize = some (h.log.current.slot PageId.HEADER))
    (hcount : h.log.current.count.toNat < 2 ^ 51)
    (hpending : ∀ c, h.log.pending = some c → c.pageCount.toNat < 2 ^ 51) :
    Recoverable data wal (m₀.commits h.all) ∨
      ∃ c, h.log.pending = some c ∧ Recoverable data wal (m₀.commits (h.all ++ [c])) := by
  have hbase := hi.logged.base
  have hchain := hi.logged.chain
  rcases hi.logged.wal_left hwal with hl | ⟨c, hc, hext, hl⟩ | ⟨⟨old, header, t, w, hu⟩, hl⟩
  · rw [hi.logged.whole]
    refine .inl ⟨_, hl, hchain.restores hbase hcount hdata.2 (fun id hid hk => ?_) hheader⟩
    exact hdata.lasts hid.1 (hd.kept id hid hk)
  · refine .inr ⟨c, hc, _, hl, ?_⟩
    have hcurrent : m₀.commits (h.all ++ [c]) = h.log.base.commits (h.log.since ++ [c]) := by
      rw [PageMap.commits_append, hi.logged.whole, PageMap.commits_append]
      rfl
    have hcount' : (h.log.base.commits (h.log.since ++ [c])).count.toNat < 2 ^ 51 := by
      rw [PageMap.commits_append]
      exact hpending c hc
    rw [hcurrent]
    refine (hchain.snoc hext).restores hbase hcount' hdata.2 (fun id hid hk => ?_) (fun hg => ?_)
    · refine hdata.lasts hid.1 (hd.kept id hid (fun hm => hk ?_))
      rw [List.flatMap_append, List.map_append]
      exact List.mem_append_left _ hm
    · exact hheader (fun c' hc' => hg c' (List.mem_append_left _ hc'))
  · rw [hi.logged.whole]
    obtain ⟨-, hself⟩ := hd.resetting _ _ _ _ hu
    refine .inl ⟨_, hl, (Chain.nil h.log.current).restores hi.logged.wellFormed hcount hdata.2 ?_ ?_⟩
    · exact fun id hid _ => hdata.lasts hid.1 (hself.pages id hid)
    · exact fun _ => hreset hself.headers

theorem recoverable_of_crash (hi : Inv m₀ h db) (hd : Durable h db)
    (hdata : db.pool.disk.file.Survives data) (hwal : db.walFile.Survives wal)
    (hcount : h.log.current.count.toNat < 2 ^ 51)
    (hpending : ∀ c, h.log.pending = some c → c.pageCount.toNat < 2 ^ 51) :
    Recoverable data wal (m₀.commits h.all) ∨
      ∃ c, h.log.pending = some c ∧ Recoverable data wal (m₀.commits (h.all ++ [c])) := by
  refine recoverable_of_keeps hi hd hdata.keeps hwal (fun hg => ?_) (fun hh => ?_) hcount hpending
  · exact hdata.header (PageMap.slot_length _ _) (hd.headers hg)
  · refine hdata.header (PageMap.slot_length _ _) (fun v hv => ?_)
    rw [hh] at hv
    exact List.mem_singleton.mp hv

end Crash

end OxenDB
