import OxenDB.Database.History

namespace OxenDB

open Lib

structure WriteTxn.Over (w : WriteTxn) (m : PageMap) (n : ℕ) : Prop where
  count : w.pageCount = m.count + UInt64.ofNat n
  fresh : ∀ j < n, m.count + UInt64.ofNat j ∈ w.dirty
  keys : ∀ id ∈ w.dirty, DataPage m.count id ∨ ∃ j < n, id = m.count + UInt64.ofNat j

structure Commit.Proposes (c : Commit) (m : PageMap) (n : ℕ) : Prop where
  count : c.pageCount = m.count + UInt64.ofNat n
  grew : c.grew = decide (c.pageCount > m.count)
  nodup : (c.pages.map Prod.fst).Nodup
  valid : ∀ u ∈ c.pages, u.2.Valid u.1
  fresh : ∀ j < n, m.count + UInt64.ofNat j ∈ c.pages.map Prod.fst
  keys : ∀ u ∈ c.pages, DataPage m.count u.1 ∨ ∃ j < n, u.1 = m.count + UInt64.ofNat j

theorem checkDataPage_ok_iff {id : PageId} {count : UInt64} :
    checkDataPage id count = .ok () ↔ DataPage count id := by
  rw [checkDataPage, DataPage]
  split_ifs with h
  · simp only [false_iff, not_and]
    intro hne
    rcases h with h | h
    · exact absurd h hne
    · exact UInt64.not_lt.mpr h
  · rw [not_or] at h
    exact ⟨fun _ => ⟨h.1, UInt64.not_le.mp h.2⟩, fun _ => rfl⟩

namespace WriteTxn.Over

variable {w : WriteTxn} {m : PageMap} {n : ℕ} {id : PageId}

theorem new (m : PageMap) : WriteTxn.Over ⟨∅, m.count⟩ m 0 where
  count := by simp
  fresh j hj := absurd hj (Nat.not_lt_zero j)
  keys id hid := by simp at hid

theorem allocatePage (h : w.Over m n) (ty : PageType) : (w.allocatePage ty).2.Over m (n + 1) where
  count := by
    change w.pageCount + 1 = _
    rw [h.count, UInt64.add_assoc, UInt64.ofNat_add]
    rfl
  fresh j hj := by
    change _ ∈ w.dirty.insert w.pageCount _
    rw [Std.TreeMap.mem_insert]
    rcases Nat.lt_succ_iff_lt_or_eq.mp hj with hj | rfl
    · exact .inr (h.fresh j hj)
    · rw [h.count]
      exact .inl Std.ReflCmp.compare_self
  keys id hid := by
    change _ ∈ w.dirty.insert w.pageCount _ at hid
    rw [Std.TreeMap.mem_insert] at hid
    rcases hid with hid | hid
    · have he := Std.LawfulEqCmp.eq_of_compare hid
      exact .inr ⟨n, Nat.lt_succ_self n, by rw [← he, h.count]⟩
    · rcases h.keys id hid with hd | ⟨j, hj, he⟩
      · exact .inl hd
      · exact .inr ⟨j, Nat.lt_succ_of_lt hj, he⟩

theorem put (h : w.Over m n) (page : Page) (hid : DataPage m.count id ∨ id ∈ w.dirty) :
    (w.put id page).Over m n where
  count := h.count
  fresh j hj := by
    change _ ∈ w.dirty.insert id page
    rw [Std.TreeMap.mem_insert]
    exact .inr (h.fresh j hj)
  keys id' hid' := by
    change _ ∈ w.dirty.insert id page at hid'
    rw [Std.TreeMap.mem_insert] at hid'
    rcases hid' with he | hm
    · rw [← Std.LawfulEqCmp.eq_of_compare he]
      rcases hid with hd | hm
      · exact .inl hd
      · exact h.keys id hm
    · exact h.keys id' hm

theorem dataPage (h : w.Over m n) (hid : DataPage w.pageCount id) (hm : id ∉ w.dirty) :
    DataPage m.count id := by
  refine ⟨hid.1, UInt64.not_le.mp (fun hle => hm ?_)⟩
  have hlt := UInt64.lt_iff_toNat_lt.mp hid.2
  have hge := UInt64.le_iff_toNat_le.mp hle
  have hid64 := id.toNat_lt
  have hj : id = m.count + UInt64.ofNat (id.toNat - m.count.toNat) := by
    apply UInt64.toNat_inj.mp
    rw [UInt64.toNat_add, UInt64.toNat_ofNat']
    omega
  rw [hj]
  apply h.fresh
  by_contra hn
  rw [h.count, UInt64.toNat_add, UInt64.toNat_ofNat'] at hlt
  omega

end WriteTxn.Over

theorem sealPages_ok {l pages : List (PageId × Page)} (h : sealPages l = .ok pages) :
    pages = l.map (fun u => (u.1, u.2.seal)) ∧ ∀ u ∈ pages, u.2.Valid u.1 := by
  induction l generalizing pages with
  | nil =>
    injection h with h
    subst h
    exact ⟨rfl, by simp⟩
  | cons u l ih =>
    obtain ⟨id, page⟩ := u
    rw [sealPages] at h
    cases hv : page.seal.verify id with
    | error e => rw [hv] at h; cases h
    | ok hdr =>
      rw [hv] at h
      cases hs : sealPages l with
      | error e => rw [hs] at h; cases h
      | ok rest =>
        rw [hs] at h
        injection h with h
        subst h
        obtain ⟨hmap, hvalid⟩ := ih hs
        refine ⟨by rw [List.map_cons, ← hmap], ?_⟩
        intro v hm
        rcases List.mem_cons.mp hm with rfl | hm
        · exact ⟨hdr, hv⟩
        · exact hvalid v hm

theorem sealPages_keys {w : WriteTxn} {pages : List (PageId × Page)}
    (h : sealPages w.dirty.toList = .ok pages) (id : PageId) :
    id ∈ pages.map Prod.fst ↔ id ∈ w.dirty := by
  rw [(sealPages_ok h).1, List.map_map]
  have hfst : (Prod.fst ∘ fun u : PageId × Page => (u.1, u.2.seal)) = Prod.fst := rfl
  rw [hfst, Std.TreeMap.map_fst_toList_eq_keys, Std.TreeMap.mem_keys]

theorem sealPages_nodup {w : WriteTxn} {pages : List (PageId × Page)} (h : sealPages w.dirty.toList = .ok pages) :
    (pages.map Prod.fst).Nodup := by
  have hfst : (Prod.fst ∘ fun u : PageId × Page => (u.1, u.2.seal)) = Prod.fst := rfl
  rw [(sealPages_ok h).1, List.map_map, hfst, Std.TreeMap.map_fst_toList_eq_keys]
  exact Std.TreeMap.nodup_keys

theorem WriteTxn.Over.proposes {w : WriteTxn} {m : PageMap} {n : ℕ} (h : w.Over m n)
    {pages : List (PageId × Page)} (hp : sealPages w.dirty.toList = .ok pages) (txn : TxnId) :
    (w.toCommit txn m.count pages).Proposes m n where
  count := h.count
  grew := rfl
  nodup := sealPages_nodup hp
  valid := (sealPages_ok hp).2
  fresh j hj := (sealPages_keys hp _).mpr (h.fresh j hj)
  keys u hu := h.keys u.1 ((sealPages_keys hp _).mp (List.mem_map_of_mem hu))

theorem Commit.Proposes.allocated_le {c : Commit} {m : PageMap} {n : ℕ} (h : c.Proposes m n)
    (hlen : c.pages.length < 2 ^ 64) : n ≤ c.pages.length := by
  by_contra hn
  have hinj : ((List.range (c.pages.length + 1)).map (fun j => m.count + UInt64.ofNat j)).Nodup := by
    refine List.Nodup.map_on (fun a ha b hb he => ?_) List.nodup_range
    rw [List.mem_range] at ha hb
    have he := (UInt64.add_right_inj m.count).mp he
    rw [← UInt64.toNat_inj, UInt64.toNat_ofNat', UInt64.toNat_ofNat'] at he
    omega
  have hsub : (List.range (c.pages.length + 1)).map (fun j => m.count + UInt64.ofNat j) ⊆
      c.pages.map Prod.fst := by
    intro id hid
    obtain ⟨j, hj, rfl⟩ := List.mem_map.mp hid
    rw [List.mem_range] at hj
    exact h.fresh j (by omega)
  have hle := (hinj.subperm hsub).length_le
  rw [List.length_map, List.length_map, List.length_range] at hle
  omega

theorem Commit.Proposes.extends {c : Commit} {m : PageMap} {n : ℕ} (h : c.Proposes m n)
    (hm : m.WellFormed) (hcount : m.count.toNat < 2 ^ 53) (hlen : c.pages.length < 2 ^ 53) :
    c.Extends m := by
  have hn := h.allocated_le (by omega)
  have hpos : m.count.toNat ≠ 0 := fun h0 => hm.count_pos (UInt64.toNat_inj.mp h0)
  have hadd : ∀ j ≤ n, (m.count + UInt64.ofNat j).toNat = m.count.toNat + j := by
    intro j hj
    rw [UInt64.toNat_add, UInt64.toNat_ofNat']
    omega
  have hc : c.pageCount.toNat = m.count.toNat + n := by
    rw [h.count]
    exact hadd n (Nat.le_refl n)
  refine ⟨?_, h.grew, h.nodup, h.valid, ?_, ?_, by omega⟩
  · rw [UInt64.le_iff_toNat_le]
    omega
  · intro u hu
    rcases h.keys u hu with hd | ⟨j, hj, he⟩
    · refine ⟨hd.1, ?_⟩
      have hlt := UInt64.lt_iff_toNat_lt.mp hd.2
      rw [UInt64.lt_iff_toNat_lt]
      omega
    · have hj' := hadd j hj.le
      rw [← he] at hj'
      refine ⟨fun h0 => ?_, ?_⟩
      · rw [h0, show PageId.HEADER.toNat = 0 from rfl] at hj'
        omega
      · rw [UInt64.lt_iff_toNat_lt]
        omega
  · intro id hid hnew
    have hlt := UInt64.lt_iff_toNat_lt.mp hid.2
    have hge : m.count.toNat ≤ id.toNat := by
      by_contra hlt'
      exact hnew ⟨hid.1, UInt64.lt_iff_toNat_lt.mpr (by omega)⟩
    have he : m.count + UInt64.ofNat (id.toNat - m.count.toNat) = id := by
      apply UInt64.toNat_inj.mp
      rw [hadd _ (by omega)]
      omega
    rw [← he]
    exact h.fresh _ (by omega)

end OxenDB
