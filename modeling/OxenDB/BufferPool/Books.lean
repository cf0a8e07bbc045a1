import OxenDB.BufferPool.Clock

namespace OxenDB

theorem getD_set {β : Type} (l : List β) {f : ℕ} (g : ℕ) (x d : β) (hf : f < l.length) :
    (l.set f x).getD g d = if f = g then x else l.getD g d := by
  rw [List.getD_eq_getElem?_getD, List.getElem?_set]
  split_ifs
  · rfl
  · rfl

/-- The bookkeeping of a shard with `n` frames. A reserved frame is neither free nor mapped. -/
structure Books (mine : PageId → Prop) (n : ℕ) (st : PoolState) (reserved : Option ℕ)
    (pins : List (ℕ × PageId)) : Prop where
  capacity : 0 < n
  framePages : st.framePages.length = n
  pinCounts : st.pinCounts.length = n
  refBits : st.refBits.length = n
  clockHand : st.clockHand < n
  mapped : ∀ id f, st.pageTable id = some f ↔ st.framePages[f]? = some (some id)
  mine : ∀ id f, st.pageTable id = some f → mine id
  free : ∀ f, f ∈ st.freeFrames ↔ st.framePages[f]? = some none ∧ reserved ≠ some f
  nodup : st.freeFrames.Nodup
  counts : ∀ f, st.pinCounts.getD f 0 = (pins.map Prod.fst).count f
  pinned : ∀ p ∈ pins, st.framePages[p.1]? = some (some p.2)

namespace Books

variable {mine : PageId → Prop} {n : ℕ} {st st' : PoolState} {reserved : Option ℕ}
  {pins : List (ℕ × PageId)} {f : ℕ} {id : PageId}

theorem lt_of_mapped (h : Books mine n st reserved pins) (hf : st.pageTable id = some f) : f < n := by
  have hm := (h.mapped id f).mp hf
  rw [← h.framePages]
  exact (List.getElem?_eq_some_iff.mp hm).1

theorem mapped_inj (h : Books mine n st reserved pins) {id' : PageId} (hf : st.pageTable id = some f)
    (hf' : st.pageTable id' = some f) : id = id' := by
  have h₁ := (h.mapped id f).mp hf
  have h₂ := (h.mapped id' f).mp hf'
  rw [h₁] at h₂
  injection h₂ with h₂
  injection h₂

theorem clock (h : Books mine n st reserved pins) (hs : st.SameButClock st') :
    Books mine n st' reserved pins where
  capacity := h.capacity
  framePages := by rw [hs.framePages, h.framePages]
  pinCounts := by rw [hs.pinCounts, h.pinCounts]
  refBits := by rw [hs.refBits, h.refBits]
  clockHand := by
    have hc := hs.clockHand (by rw [h.framePages]; exact h.clockHand)
    rwa [h.framePages] at hc
  mapped := by rw [hs.pageTable, hs.framePages]; exact h.mapped
  mine := by rw [hs.pageTable]; exact h.mine
  free := by rw [hs.framePages, hs.freeFrames]; exact h.free
  nodup := by rw [hs.freeFrames]; exact h.nodup
  counts := by rw [hs.pinCounts]; exact h.counts
  pinned := by rw [hs.framePages]; exact h.pinned

theorem acquire (h : Books mine n st none pins) (capacity : ℕ) :
    st.AcquireSpec capacity (st.acquireFrame capacity).1 (st.acquireFrame capacity).2 := by
  apply PoolState.acquireFrame_spec
  · rw [h.framePages]
    exact h.clockHand
  · intro hnil f hf
    have hm := (h.free f).mpr ⟨hf, by simp⟩
    rw [hnil] at hm
    cases hm

theorem pin (h : Books mine n st reserved pins) (hf : st.pageTable id = some f) :
    Books mine n (st.pin f) reserved ((f, id) :: pins) where
  capacity := h.capacity
  framePages := h.framePages
  pinCounts := by rw [PoolState.pin, List.length_set, h.pinCounts]
  refBits := h.refBits
  clockHand := h.clockHand
  mapped := h.mapped
  mine := h.mine
  free := h.free
  nodup := h.nodup
  counts g := by
    change (st.pinCounts.set f (st.pinCounts.getD f 0 + 1)).getD g 0 = _
    rw [getD_set _ _ _ _ (by rw [h.pinCounts]; exact h.lt_of_mapped hf), h.counts, h.counts,
      List.map_cons, List.count_cons]
    split_ifs with hfg hfg' hfg'
    · subst hfg; rfl
    · exact absurd (by simp [hfg]) hfg'
    · exact absurd (by simpa using hfg') hfg
    · rfl
  pinned := by
    rintro p (_ | ⟨_, hp⟩)
    · exact (h.mapped id f).mp hf
    · exact h.pinned p hp

theorem unpin (h : Books mine n st reserved pins) {k : ℕ} {p : ℕ × PageId} (hk : pins[k]? = some p) :
    Books mine n (st.unpin p.1) reserved (pins.eraseIdx k) where
  capacity := h.capacity
  framePages := h.framePages
  pinCounts := by rw [PoolState.unpin, List.length_set, h.pinCounts]
  refBits := h.refBits
  clockHand := h.clockHand
  mapped := h.mapped
  mine := h.mine
  free := h.free
  nodup := h.nodup
  counts g := by
    have hp : p ∈ pins := List.mem_of_getElem? hk
    have hlt : p.1 < st.pinCounts.length := by
      rw [h.pinCounts, ← h.framePages]
      exact (List.getElem?_eq_some_iff.mp (h.pinned p hp)).1
    -- Putting the erased pin back in front only permutes the list.
    have hperm : (p :: pins.eraseIdx k).Perm pins := by
      obtain ⟨hk', rfl⟩ := List.getElem?_eq_some_iff.mp hk
      exact List.getElem_cons_eraseIdx_perm hk'
    have hcount := (hperm.map Prod.fst).count_eq g
    rw [List.map_cons, List.count_cons] at hcount
    change (st.pinCounts.set p.1 (st.pinCounts.getD p.1 0 - 1)).getD g 0 = _
    rw [getD_set _ _ _ _ hlt, h.counts, h.counts]
    split_ifs with hg
    · subst hg
      rw [if_pos (by simp)] at hcount
      omega
    · rw [if_neg (by simpa using hg)] at hcount
      omega
  pinned q hq := h.pinned q (List.mem_of_mem_eraseIdx hq)

theorem pop (h : Books mine n st none pins) {rest : List ℕ} (hf : st.freeFrames = f :: rest) :
    Books mine n { st with freeFrames := rest } (some f) pins where
  capacity := h.capacity
  framePages := h.framePages
  pinCounts := h.pinCounts
  refBits := h.refBits
  clockHand := h.clockHand
  mapped := h.mapped
  mine := h.mine
  free g := by
    have hg := h.free g
    have hn := h.nodup
    rw [hf] at hg hn
    have hfr := (List.nodup_cons.mp hn).1
    constructor
    · intro hm
      refine ⟨(hg.mp (List.mem_cons_of_mem _ hm)).1, ?_⟩
      rintro ⟨⟩
      exact hfr hm
    · rintro ⟨hg', hne⟩
      rcases List.mem_cons.mp (hg.mpr ⟨hg', by simp⟩) with rfl | hm
      · exact absurd rfl hne
      · exact hm
  nodup := by
    have hn := h.nodup
    rw [hf] at hn
    exact (List.nodup_cons.mp hn).2
  counts := h.counts
  pinned := h.pinned

theorem release (h : Books mine n st (some f) pins) (hf : st.framePages[f]? = some none) :
    Books mine n (st.release f) none pins where
  capacity := h.capacity
  framePages := h.framePages
  pinCounts := h.pinCounts
  refBits := h.refBits
  clockHand := h.clockHand
  mapped := h.mapped
  mine := h.mine
  free g := by
    change g ∈ f :: st.freeFrames ↔ _
    rw [List.mem_cons, h.free]
    constructor
    · rintro (rfl | ⟨hg, _⟩)
      · exact ⟨hf, by simp⟩
      · exact ⟨hg, by simp⟩
    · rintro ⟨hg, _⟩
      rcases eq_or_ne g f with rfl | hne
      · exact .inl rfl
      · refine .inr ⟨hg, ?_⟩
        rintro ⟨⟩
        exact hne rfl
  nodup := by
    refine List.nodup_cons.mpr ⟨fun hm => ?_, h.nodup⟩
    exact ((h.free f).mp hm).2 rfl
  counts := h.counts
  pinned := h.pinned

theorem not_pinned (h : Books mine n st reserved pins) (hf : st.pinCounts.getD f 0 = 0) :
    ∀ p ∈ pins, p.1 ≠ f := by
  rintro p hp rfl
  rw [h.counts] at hf
  exact List.count_eq_zero.mp hf (List.mem_map_of_mem hp)

theorem unmap (h : Books mine n st none pins) (hf : st.pageTable id = some f)
    (hp : st.pinCounts.getD f 0 = 0) : Books mine n (st.unmap id f) (some f) pins where
  capacity := h.capacity
  framePages := by rw [PoolState.unmap, List.length_set, h.framePages]
  pinCounts := h.pinCounts
  refBits := h.refBits
  clockHand := h.clockHand
  mapped id' g := by
    change Function.update st.pageTable id none id' = some g ↔ (st.framePages.set f none)[g]? = _
    rw [List.getElem?_set]
    rcases eq_or_ne id' id with rfl | hid
    · rw [Function.update_self]
      split_ifs with hfg hlt
      · simp
      · simp
      · rw [← h.mapped, hf]
        simp [hfg]
    · rw [Function.update_of_ne hid, h.mapped]
      split_ifs with hfg hlt
      · subst hfg
        rw [(h.mapped id f).mp hf]
        simp [hid.symm]
      · subst hfg
        rw [(h.mapped id f).mp hf]
        simp [hid.symm]
      · rfl
  mine id' g hg := by
    change Function.update st.pageTable id none id' = some g at hg
    rcases eq_or_ne id' id with rfl | hid
    · rw [Function.update_self] at hg
      cases hg
    · rw [Function.update_of_ne hid] at hg
      exact h.mine id' g hg
  free g := by
    change g ∈ st.freeFrames ↔ (st.framePages.set f none)[g]? = some none ∧ some f ≠ some g
    rw [h.free, List.getElem?_set]
    have hne : st.framePages[f]? ≠ some none := by
      rw [(h.mapped id f).mp hf]
      simp
    rcases eq_or_ne f g with rfl | hfg
    · simp [hne]
    · simp [hfg]
  nodup := h.nodup
  counts := h.counts
  pinned p hpin := by
    change (st.framePages.set f none)[p.1]? = _
    rw [List.getElem?_set_ne (h.not_pinned hp p hpin).symm]
    exact h.pinned p hpin

theorem map (h : Books mine n st (some f) pins) (hf : st.framePages[f]? = some none)
    (hid : st.pageTable id = none) (hm : mine id) : Books mine n (st.map id f) none pins where
  capacity := h.capacity
  framePages := by rw [PoolState.map, List.length_set, h.framePages]
  pinCounts := h.pinCounts
  refBits := h.refBits
  clockHand := h.clockHand
  mapped id' g := by
    change Function.update st.pageTable id (some f) id' = some g ↔
      (st.framePages.set f (some id))[g]? = _
    have hlt := (List.getElem?_eq_some_iff.mp hf).1
    rw [List.getElem?_set]
    rcases eq_or_ne id' id with rfl | hne
    · rw [Function.update_self]
      rcases eq_or_ne f g with rfl | hfg
      · simp [hlt]
      · rw [if_neg hfg, ← h.mapped, hid]
        simp [hfg]
    · rw [Function.update_of_ne hne, h.mapped]
      rcases eq_or_ne f g with rfl | hfg
      · rw [hf]
        simp [hlt, hne.symm]
      · rw [if_neg hfg]
  mine id' g hg := by
    change Function.update st.pageTable id (some f) id' = some g at hg
    rcases eq_or_ne id' id with rfl | hne
    · exact hm
    · rw [Function.update_of_ne hne] at hg
      exact h.mine id' g hg
  free g := by
    change g ∈ st.freeFrames ↔ (st.framePages.set f (some id))[g]? = some none ∧ none ≠ some g
    rw [h.free, List.getElem?_set]
    rcases eq_or_ne f g with rfl | hfg
    · simp
    · simp [hfg]
  nodup := h.nodup
  counts := h.counts
  pinned p hp := by
    have hne : f ≠ p.1 := by
      rintro rfl
      rw [h.pinned p hp] at hf
      cases hf
    change (st.framePages.set f (some id))[p.1]? = _
    rw [List.getElem?_set_ne hne]
    exact h.pinned p hp

theorem counts_unmapped (h : Books mine n st reserved pins) (hf : st.framePages[f]? = some none) :
    st.pinCounts.getD f 0 = 0 := by
  rw [h.counts]
  refine List.count_eq_zero.mpr (fun hm => ?_)
  obtain ⟨p, hp, rfl⟩ := List.mem_map.mp hm
  rw [h.pinned p hp] at hf
  cases hf

end Books

theorem Books.new (mine : PageId → Prop) {n : ℕ} (hn : 0 < n) :
    Books mine n (PoolState.new n) none [] where
  capacity := hn
  framePages := List.length_replicate
  pinCounts := List.length_replicate
  refBits := List.length_replicate
  clockHand := hn
  mapped id f := by
    change none = some f ↔ (List.replicate n none)[f]? = _
    rw [List.getElem?_replicate]
    split_ifs <;> simp
  mine id f h := by cases h
  free f := by
    change f ∈ List.range n ↔ (List.replicate n none)[f]? = some none ∧ _
    rw [List.mem_range, List.getElem?_replicate]
    split_ifs with hf <;> simp [hf]
  nodup := List.nodup_range
  counts f := by
    change (List.replicate n 0).getD f 0 = 0
    rw [List.getD_eq_getElem?_getD, List.getElem?_replicate]
    split_ifs <;> rfl
  pinned p hp := by cases hp

end OxenDB
