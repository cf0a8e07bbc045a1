import OxenDB.BufferPool.ShardSteps

namespace OxenDB.Shard

variable {α : Type} {mine : PageId → Prop} {disk : DiskManager} {sh : Shard α} {k : ℕ} {p : Pin α}

theorem not_writing_of_unlocked {f : ℕ} (h : sh.unlocked f = true) {q : Pin α} (hq : q ∈ sh.pins)
    (hf : q.frame = f) (r : ℕ) : q.stage ≠ .handle r true := by
  intro hs
  have hall := List.all_eq_true.mp h q hq
  rw [hs] at hall
  simp [hf] at hall

theorem work_steps (h : Inv mine disk sh) (hbound : disk.pageCount.toNat ≤ 2 ^ 52) {wr : WriteResult}
    {o : Outcome α} (hw : sh.work disk k wr = some o) : Steps mine disk sh o := by
  rw [work.eq_def] at hw
  cases hk : sh.pins[k]? with
  | none => rw [hk] at hw; cases hw
  | some p =>
    have hp := List.mem_of_getElem? hk
    have hmap := h.mapped_of_pin hp
    have hlt := h.books.lt_of_mapped hmap
    have hmine := h.books.mine _ _ hmap
    have hcached : sh.cached p.pageId = some (sh.frame p.frame) := by rw [cached, hmap]; rfl
    simp only [hk] at hw
    split_ifs at hw with hun
    cases hs : p.stage with
    | handle r w => rw [hs] at hw; cases hw
    | drop result => rw [hs] at hw; cases hw
    | install page =>
      rw [hs] at hw
      injection hw with hw
      subst hw
      refine ⟨⟨(h.toKept.setStage hk _ List.length_set).kept, ?_, h.loads⟩, ?_⟩
      · have hw' : (sh.setStage k p (.drop (.ok ()))).Writers := h.writers.setStage (by rintro r ⟨⟩)
        exact hw'.set_dirty hlt rfl
      · change Cache.Step mine _ _
          ⟨Shard.cached { sh with frames := sh.frames.set p.frame ⟨page, true⟩ }, _⟩
        rw [cached_set h.books hmap]
        exact .put page hmine
    | flush =>
      rw [hs] at hw
      have hspec := (sh.frame p.frame).writeBack_spec disk p.pageId wr
      have hwb := Cache.Step.writeBack (c := ⟨sh.cached, disk⟩) wr hmine hcached
      generalize (sh.frame p.frame).writeBack disk p.pageId wr = w at hw hspec hwb
      injection hw with hw
      subst hw
      refine ⟨⟨(h.toKept.setStage hk _ List.length_set).kept, ?_, ?_⟩, ?_⟩
      · intro q hq r hr
        rcases List.mem_or_eq_of_mem_set hq with hq | rfl
        · have hne : p.frame ≠ q.frame := fun hf => not_writing_of_unlocked hun hq hf.symm r hr
          change (Shard.frame { sh with frames := sh.frames.set p.frame w.frame } q.frame).dirty = true
          rw [frame_set_ne _ hlt hne]
          exact h.writers q hq r hr
        · cases hr
      · intro s hs'
        refine (h.loads s hs').mono (fun owner id page f he => hspec.holds_ne hbound ?_)
        rintro rfl
        subst he
        cases hmap.symm.trans (h.held _ hs').2.1
      · change Cache.Step mine _ _
          ⟨Shard.cached { sh with frames := sh.frames.set p.frame w.frame }, _⟩
        rw [cached_set h.books hmap]
        exact hwb

theorem guard_steps (h : Inv mine disk sh) {g : Guard} {r : Shard α × Label α}
    (hg : sh.guard k g = some r) : Steps mine disk sh ⟨r.1, disk, r.2⟩ := by
  have hkept := (h.toKept.keeps_guard hg).kept
  obtain ⟨p, reads, writing, hk, hs⟩ := guard_stage hg
  have hp := List.mem_of_getElem? hk
  have hmap := h.mapped_of_pin hp
  have hlt := h.books.lt_of_mapped hmap
  have hmine := h.books.mine _ _ hmap
  have hcached : sh.cached p.pageId = some (sh.frame p.frame) := by rw [cached, hmap]; rfl
  have hdirty : writing = true → (sh.frame p.frame).dirty = true := by
    rintro rfl
    exact h.writers p hp reads hs
  simp only [guard, hk, hs] at hg
  cases g with
  | lockRead =>
    simp only at hg
    split_ifs at hg
    cases hg
    refine ⟨⟨hkept, h.writers.setStage ?_, h.loads⟩, .quiet _⟩
    rintro r ⟨⟩
    exact hdirty rfl
  | read =>
    simp only at hg
    split_ifs at hg
    cases hg
    exact ⟨h, .quiet _⟩
  | unlockRead =>
    simp only at hg
    split_ifs at hg
    cases hg
    refine ⟨⟨hkept, h.writers.setStage ?_, h.loads⟩, .quiet _⟩
    rintro r ⟨⟩
    exact hdirty rfl
  | lockWrite =>
    simp only at hg
    split_ifs at hg
    cases hg
    refine ⟨⟨hkept, ?_, h.loads⟩, ?_⟩
    · intro q hq r hr
      change (Shard.frame { sh with frames := sh.frames.set p.frame _ } q.frame).dirty = true
      rcases eq_or_ne p.frame q.frame with hf | hf
      · rw [← hf, frame_set_self hlt]
      · rw [frame_set_ne _ hlt hf]
        rcases List.mem_or_eq_of_mem_set hq with hq | rfl
        · exact h.writers q hq r hr
        · exact absurd rfl hf
    · change Cache.Step mine _ _
        ⟨Shard.cached { sh with frames := sh.frames.set p.frame ⟨_, true⟩ }, _⟩
      rw [cached_set h.books hmap]
      exact .mark hmine hcached
  | write page =>
    simp only at hg
    split_ifs at hg with hw
    cases hg
    rw [hdirty hw] at hkept ⊢
    refine ⟨⟨hkept, h.writers.set_dirty hlt rfl, h.loads⟩, ?_⟩
    change Cache.Step mine _ _
      ⟨Shard.cached { sh with frames := sh.frames.set p.frame ⟨page, true⟩ }, _⟩
    rw [cached_set h.books hmap]
    exact .put page hmine
  | unlockWrite =>
    simp only at hg
    split_ifs at hg
    cases hg
    refine ⟨⟨hkept, h.writers.setStage ?_, h.loads⟩, .quiet _⟩
    rintro r ⟨⟩

theorem unpin_steps (h : Inv mine disk sh) (hh : sh.held = none) {r : Shard α × Label α}
    (hu : sh.unpin k = some r) : Steps mine disk sh ⟨r.1, disk, r.2⟩ := by
  have hkept := (h.toKept.keeps_unpin hh hu).kept
  rw [Shard.unpin.eq_def] at hu
  cases hk : sh.pins[k]? with
  | none => rw [hk] at hu; cases hu
  | some p =>
    have hwriters : Writers { sh with state := sh.state.unpin p.frame, pins := sh.pins.eraseIdx k } :=
      fun q hq => h.writers q (List.mem_of_mem_eraseIdx hq)
    simp only [hk] at hu
    split at hu
    · cases hu
      exact ⟨⟨hkept, hwriters, h.loads⟩, .quiet _⟩
    · cases hu
      exact ⟨⟨hkept, hwriters, h.loads⟩, .quiet _⟩
    · cases hu

end OxenDB.Shard
