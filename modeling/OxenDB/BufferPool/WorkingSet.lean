import Mathlib.Data.Finset.Card
import OxenDB.BufferPool.Progress

namespace OxenDB

open Lib

variable {α : Type}

def Section.Fills (T : Finset PageId) : Section α → Prop
  | .evict .. => False
  | .fill _ id _ _ _ => id ∈ T

def Action.Within (S : Finset PageId) : Action α → Prop
  | .fetch _ id _ => id ∈ S
  | .install _ id _ => id ∈ S
  | _ => True

def Stage.Flushes : Stage → Prop
  | .flush => True
  | .drop (.error _) => True
  | _ => False

def lastCall [DecidableEq α] (owner : α) (acts : List (Action α)) : Option (Activity α) :=
  ((acts.filterMap Action.starts).filter (fun x => x.owner = owner)).getLast?

section LastCall

variable [DecidableEq α] {a : Action α} {x : Activity α} {owner : α}

theorem lastCall_of_starts (acts : List (Action α)) (ha : a.starts = some x) :
    lastCall x.owner (acts ++ [a]) = some x := by
  simp [lastCall, ha]

theorem lastCall_append (acts : List (Action α)) (ha : ∀ x, a.starts = some x → x.owner ≠ owner) :
    lastCall owner (acts ++ [a]) = lastCall owner acts := by
  rw [lastCall, lastCall, List.filterMap_append, List.filter_append]
  cases hs : a.starts with
  | none => simp [hs]
  | some x => simp [hs, ha x hs]

end LastCall

theorem Books.exists_free {mine : PageId → Prop} {n : ℕ} {st : PoolState} {pins : List (ℕ × PageId)}
    {T : Finset PageId} {id : PageId} (hb : Books mine n st none pins)
    (hT : ∀ id f, st.pageTable id = some f → id ∈ T) (hid : id ∈ T) (hnone : st.pageTable id = none)
    (hfit : T.card ≤ n) : ∃ f rest, st.freeFrames = f :: rest := by
  rw [← List.ne_nil_iff_exists_cons]
  intro hnil
  -- Every frame is taken, by pages of `T` other than `id`.
  have htaken : ∀ f ∈ Finset.range n, ∃ id', st.framePages[f]? = some (some id') := by
    intro f hf
    rw [Finset.mem_range, ← hb.framePages] at hf
    have hget := List.getElem?_eq_getElem hf
    cases hpage : st.framePages[f] with
    | some id' => exact ⟨id', by rw [hget, hpage]⟩
    | none =>
      have hmem := (hb.free f).mpr ⟨by rw [hget, hpage], by simp⟩
      rw [hnil] at hmem
      cases hmem
  choose! page hpage using htaken
  have hle : (Finset.range n).card ≤ (T.erase id).card := by
    refine Finset.card_le_card_of_injOn page (fun f hf => ?_) (fun f hf g hg he => ?_)
    · have hmap := (hb.mapped _ _).mpr (hpage f hf)
      refine Finset.mem_coe.mpr (Finset.mem_erase.mpr ⟨?_, hT _ _ hmap⟩)
      intro he
      rw [he, hnone] at hmap
      cases hmap
    · have hf' := (hb.mapped _ _).mpr (hpage f hf)
      have hg' := (hb.mapped _ _).mpr (hpage g hg)
      rw [← he] at hg'
      exact Option.some.inj (hf'.symm.trans hg')
  have hpos := Finset.card_pos.mpr ⟨id, hid⟩
  rw [Finset.card_range, Finset.card_erase_of_mem hid] at hle
  omega

namespace Shard

structure Resident (T : Finset PageId) (sh : Shard α) : Prop where
  mapped : ∀ id f, sh.state.pageTable id = some f → id ∈ T
  held : ∀ s, sh.held = some s → s.Fills T

structure Stays (T : Finset PageId) (sh sh' : Shard α) : Prop where
  resident : sh'.Resident T
  cached : ∀ id, sh.state.pageTable id ≠ none → sh'.state.pageTable id ≠ none

def Flushes (sh : Shard α) (owner : α) (id : PageId) : Prop :=
  ∃ q ∈ sh.pins, q.stage.Flushes ∧ q.owner = owner ∧ q.pageId = id

variable {T : Finset PageId} {mine : PageId → Prop} {sh sh' : Shard α} {id : PageId} {k : ℕ} {owner : α}

theorem Flushes.cons {q : Pin α} (h : ∃ q' ∈ q :: sh.pins, q'.stage.Flushes ∧ q'.owner = owner ∧ q'.pageId = id) :
    sh.Flushes owner id ∨ q.stage.Flushes ∧ q.owner = owner ∧ q.pageId = id := by
  obtain ⟨q', hq', hf⟩ := h
  rcases List.mem_cons.mp hq' with rfl | hq'
  · exact .inr hf
  · exact .inl ⟨q', hq', hf⟩

theorem Opened.flushes {a : α} {id' : PageId} {stage : Stage} (ho : Opened sh a id' stage sh')
    (h : sh'.Flushes owner id) : sh.Flushes owner id ∨ stage.Flushes ∧ a = owner ∧ id' = id := by
  cases ho with
  | returned | evict | take => exact .inl h
  | pinned => exact Flushes.cons h

theorem Resumed.flushes {s : Section α} (hr : Resumed sh s sh') (h : sh'.Flushes owner id) :
    sh.Flushes owner id := by
  cases hr with
  | failed | evicted | unread | installed => exact h
  | loaded => exact (Flushes.cons h).resolve_right (fun hn => hn.1)

theorem Flushes.of_setStage {q : Pin α} {stage : Stage} (hk : sh.pins[k]? = some q)
    (hs : stage.Flushes → q.stage.Flushes) (h : (sh.setStage k q stage).Flushes owner id) :
    sh.Flushes owner id := by
  obtain ⟨q', hq', hf, ho, hid⟩ := h
  rcases List.mem_or_eq_of_mem_set hq' with hq' | rfl
  · exact ⟨q', hq', hf, ho, hid⟩
  · exact ⟨q, List.mem_of_getElem? hk, hs hf, ho, hid⟩

theorem Moves.flushes {a : Action α} (hm : sh.Moves a sh') (h : sh'.Flushes owner id) :
    sh.Flushes owner id ∨ a.starts = some ⟨owner, id, .flush⟩ := by
  cases hm with
  | fetch _ ho => exact .inl ((ho.flushes h).resolve_right (fun hn => hn.1))
  | install _ ho => exact .inl ((ho.flushes h).resolve_right (fun hn => hn.1))
  | flush _ ho =>
    rcases ho.flushes h with h | ⟨-, rfl, rfl⟩
    · exact .inl h
    · exact .inr rfl
  | resume _ hr => exact .inl (hr.flushes h)
  | @work _ _ _ q _ result hk _ hr =>
    refine .inl (Flushes.of_setStage hk (fun hs => ?_) h)
    cases result with
    | ok => exact hs.elim
    | error e =>
      rw [hr e rfl]
      exact trivial
  | lockRead hk | unlockRead hk => exact .inl (Flushes.of_setStage hk False.elim h)
  | read => exact .inl h
  | edit _ hpins =>
    obtain ⟨q, hq, hf, hq'⟩ := h
    rcases hpins q hq with hq | ⟨reads, writing, hs⟩
    · exact .inl ⟨q, hq, hf, hq'⟩
    · rw [hs] at hf
      exact hf.elim
  | unpin =>
    obtain ⟨q, hq, hf⟩ := h
    exact .inl ⟨q, List.mem_of_mem_eraseIdx hq, hf⟩

theorem Resident.same (h : sh.Resident T) (htable : sh'.state.pageTable = sh.state.pageTable)
    (hheld : sh'.held = sh.held) : sh.Stays T sh' := by
  refine ⟨⟨?_, ?_⟩, ?_⟩
  · rw [htable]
    exact h.mapped
  · rw [hheld]
    exact h.held
  · rw [htable]
    exact fun _ hid => hid

theorem Resident.fill (h : sh.Resident T) (htable : sh'.state.pageTable = sh.state.pageTable)
    {s : Section α} (hheld : sh'.held = some s) (hs : s.Fills T) : sh.Stays T sh' := by
  refine ⟨⟨?_, ?_⟩, ?_⟩
  · rw [htable]
    exact h.mapped
  · rw [hheld]
    rintro _ ⟨⟩
    exact hs
  · rw [htable]
    exact fun _ hid => hid

theorem fetchPage_stays (h : sh.Resident T) (hk : sh.Kept mine) (hh : sh.held = none)
    (hfit : T.card ≤ sh.frames.length) (hid : id ∈ T) (disk : DiskManager) (owner : α) (rd : Bool) :
    sh.Stays T (sh.fetchPage disk owner id rd).1 ∧ (sh.fetchPage disk owner id rd).2.written = none ∧
      ∀ x id' e, (sh.fetchPage disk owner id rd).2.returned = some (x, id', .error e) →
        x = owner ∧ id' = id ∧ disk.readPage id rd = .error e := by
  rw [fetchPage]
  cases hf : sh.state.pageTable id with
  | some f => exact ⟨h.same rfl rfl, rfl, by rintro x id' e ⟨⟩⟩
  | none =>
    obtain ⟨f, rest, hfree⟩ := (hk.books_free hh).exists_free h.mapped hid hf hfit
    simp only [PoolState.acquireFrame, hfree, load]
    cases hread : disk.readPage id rd with
    | ok page => exact ⟨h.fill rfl rfl hid, rfl, by rintro x id' e ⟨⟩⟩
    | error e =>
      refine ⟨h.same rfl hh.symm, rfl, ?_⟩
      rintro x id' e' ⟨⟩
      exact ⟨rfl, rfl, rfl⟩

theorem installPage_stays (h : sh.Resident T) (hk : sh.Kept mine) (hh : sh.held = none)
    (hfit : T.card ≤ sh.frames.length) (hid : id ∈ T) (owner : α) (page : Page) :
    sh.Stays T (sh.installPage owner id page).1 ∧ (sh.installPage owner id page).2.written = none ∧
      (sh.installPage owner id page).2.returned = none := by
  rw [installPage]
  cases hf : sh.state.pageTable id with
  | some f => exact ⟨h.same rfl rfl, rfl, rfl⟩
  | none =>
    obtain ⟨f, rest, hfree⟩ := (hk.books_free hh).exists_free h.mapped hid hf hfit
    simp only [PoolState.acquireFrame, hfree]
    exact ⟨h.fill rfl rfl hid, trivial, trivial⟩

theorem flushPage_stays (h : sh.Resident T) (owner : α) (id : PageId) :
    sh.Stays T (sh.flushPage owner id).1 ∧ (sh.flushPage owner id).2.written = none ∧
      ∀ x id' e, (sh.flushPage owner id).2.returned ≠ some (x, id', .error e) := by
  rw [flushPage]
  cases hf : sh.state.pageTable id with
  | some f => exact ⟨h.same rfl rfl, rfl, by rintro x id' e ⟨⟩⟩
  | none => exact ⟨h.same rfl rfl, rfl, by rintro x id' e ⟨⟩⟩

theorem Resident.map (h : sh.Resident T) {f : ℕ} (hid : id ∈ T)
    (htable : sh'.state.pageTable = Function.update sh.state.pageTable id (some f)) (hheld : sh'.held = none) :
    sh.Stays T sh' := by
  refine ⟨⟨fun id' f' hm => ?_, ?_⟩, fun id' hm => ?_⟩
  · rw [htable] at hm
    rcases eq_or_ne id' id with rfl | hne
    · exact hid
    · rw [Function.update_of_ne hne] at hm
      exact h.mapped id' f' hm
  · rw [hheld]
    rintro s ⟨⟩
  · rw [htable]
    rcases eq_or_ne id' id with rfl | hne
    · rw [Function.update_self]
      exact Option.some_ne_none f
    · rwa [Function.update_of_ne hne]

theorem resume_stays (h : sh.Resident T) {disk : DiskManager} {wr : WriteResult} {rd : Bool} {o : Outcome α}
    (hr : sh.resume disk wr rd = some o) : sh.Stays T o.shard ∧ o.label.written = none ∧
      ∀ x id e, o.label.returned ≠ some (x, id, .error e) := by
  rw [resume.eq_def] at hr
  cases hs : sh.held with
  | none => rw [hs] at hr; cases hr
  | some s =>
    have hfills := h.held s hs
    cases s with
    | evict => exact hfills.elim
    | fill owner id page install f =>
      rw [hs] at hr
      cases install with
      | false =>
        injection hr with hr
        subst hr
        exact ⟨h.map hfills rfl rfl, rfl, by rintro x id e ⟨⟩⟩
      | true =>
        injection hr with hr
        subst hr
        exact ⟨h.map hfills rfl rfl, rfl, by rintro x id e ⟨⟩⟩

theorem work_stays (h : sh.Resident T) {disk : DiskManager} {wr : WriteResult} {o : Outcome α}
    (hw : sh.work disk k wr = some o) : sh.Stays T o.shard ∧ o.label.returned = none := by
  rw [work.eq_def] at hw
  cases hk : sh.pins[k]? with
  | none => rw [hk] at hw; cases hw
  | some p =>
    simp only [hk] at hw
    split_ifs at hw
    cases hs : p.stage with
    | handle r w => rw [hs] at hw; cases hw
    | drop result => rw [hs] at hw; cases hw
    | install page =>
      rw [hs] at hw
      injection hw with hw
      subst hw
      exact ⟨h.same rfl rfl, rfl⟩
    | flush =>
      rw [hs] at hw
      injection hw with hw
      subst hw
      exact ⟨h.same rfl rfl, rfl⟩

theorem guard_stays (h : sh.Resident T) {g : Guard} {r : Shard α × Label α} (hg : sh.guard k g = some r) :
    sh.Stays T r.1 ∧ r.2.written = none ∧ r.2.returned = none := by
  obtain ⟨p, reads, writing, hk, hs⟩ := guard_stage hg
  rw [guard.eq_def] at hg
  simp only [hk, hs] at hg
  cases g <;> (simp only at hg; split_ifs at hg; injection hg with hg; subst hg; exact ⟨h.same rfl rfl, rfl, rfl⟩)

theorem unpin_stays (h : sh.Resident T) {r : Shard α × Label α} (hu : sh.unpin k = some r) :
    sh.Stays T r.1 ∧ r.2.written = none ∧
      ∀ x id e, r.2.returned = some (x, id, .error e) → sh.Flushes x id := by
  rw [unpin.eq_def] at hu
  cases hk : sh.pins[k]? with
  | none => rw [hk] at hu; cases hu
  | some p =>
    simp only [hk] at hu
    split at hu
    · injection hu with hu
      subst hu
      exact ⟨h.same rfl rfl, rfl, by rintro x id e ⟨⟩⟩
    · rename_i result hs
      injection hu with hu
      subst hu
      refine ⟨h.same rfl rfl, rfl, ?_⟩
      rintro x id e ⟨⟩
      exact ⟨p, List.mem_of_getElem? hk, by rw [hs]; trivial, rfl, rfl⟩
    · cases hu

end Shard

namespace BufferPool

variable {p p' : BufferPool α} {S : Finset PageId} {a : Action α} {label : Label α}

def share {κ : Type} (p : BufferPool α κ) (S : Finset PageId) (i : ℕ) : Finset PageId :=
  S.filter (fun id => p.shardFor id = i)

def Fits {κ : Type} (p : BufferPool α κ) (S : Finset PageId) : Prop :=
  ∀ i n, p.sizes[i]? = some n → (p.share S i).card ≤ n

def Flushes (p : BufferPool α) (owner : α) (id : PageId) : Prop := ∃ sh ∈ p.shards, sh.Flushes owner id

structure Resident (S : Finset PageId) (p : BufferPool α) : Prop where
  kept : p.Kept
  fits : p.Fits S
  shards : ∀ (i : ℕ) (sh : Shard α), p.shards[i]? = some sh → sh.Resident (p.share S i)

theorem Resident.fits_shard (h : p.Resident S) {i : ℕ} {sh : Shard α} (hi : p.shards[i]? = some sh) :
    (p.share S i).card ≤ sh.frames.length := by
  refine h.fits i _ ?_
  rw [sizes, List.getElem?_map, hi]
  rfl

def Fails (disk : DiskManager) (a : Action α) (owner : α) (id : PageId) (e : Error) (flush : Prop) : Prop :=
  (∃ rd, a = .fetch owner id rd ∧ disk.readPage id rd = .error e) ∨
    (∃ page, a = .install owner id page ∧ page.pageId ≠ id) ∨ flush

structure Stays (S : Finset PageId) (p : BufferPool α) (a : Action α) (label : Label α) (p' : BufferPool α) :
    Prop where
  resident : p'.Resident S
  cached : ∀ id, p.cached id ≠ none → p'.cached id ≠ none
  written : label.written ≠ none → ∃ i k wr, a = .work i k wr
  failed : ∀ owner id e, label.returned = some (owner, id, .error e) →
    Fails p.disk a owner id e (p.Flushes owner id)

theorem Resident.put (h : p.Resident S) {i : ℕ} {sh sh' : Shard α} (hi : p.shards[i]? = some sh)
    (hk : p.Keeps p') (hp : p'.shards = p.shards.set i sh') (hst : sh.Stays (p.share S i) sh')
    (hw : label.written ≠ none → ∃ i k wr, a = .work i k wr)
    (he : ∀ owner id e, label.returned = some (owner, id, .error e) →
      Fails p.disk a owner id e (p.Flushes owner id)) : Stays S p a label p' := by
  have hlen : p'.shards.length = p.shards.length := by rw [hp, List.length_set]
  have hlt : i < p.shards.length := (List.getElem?_eq_some_iff.mp hi).1
  have hshare : p'.share S = p.share S := by
    funext j
    simp only [share, shardFor_congr hlen]
  refine ⟨⟨hk.kept, ?_, ?_⟩, ?_, hw, he⟩
  · rw [Fits, hk.sizes, hshare]
    exact h.fits
  · rw [hshare, hp]
    intro j sh'' hj
    rcases eq_or_ne i j with rfl | hne
    · rw [List.getElem?_set_self hlt] at hj
      cases hj
      exact hst.resident
    · rw [List.getElem?_set_ne hne] at hj
      exact h.shards j sh'' hj
  · intro id hid
    rw [cached, shardFor_congr hlen, hp]
    rw [cached] at hid
    rcases eq_or_ne i (p.shardFor id) with rfl | hne
    · rw [hi] at hid
      rw [List.getElem?_set_self hlt]
      simp only [Option.bind_some, Shard.cached, ne_eq, Option.map_eq_none_iff] at hid ⊢
      exact hst.cached id hid
    · rw [List.getElem?_set_ne hne]
      exact hid

theorem Resident.disk (h : p.Resident S) (disk : DiskManager) : Resident S { p with disk := disk } :=
  ⟨⟨h.kept.nonempty, h.kept.shards⟩, h.fits, h.shards⟩

theorem new_resident {disk : DiskManager} {capacity : ℕ} (hnew : BufferPool.new disk capacity = .ok p)
    (hfit : p.Fits S) : p.Resident S := by
  refine ⟨(new_ok_kept hnew).1, hfit, fun i sh hi => ?_⟩
  obtain ⟨n, -, rfl⟩ := new_shards hnew i sh hi
  exact ⟨by rintro id f ⟨⟩, by rintro s ⟨⟩⟩

variable [DecidableEq α]

theorem Resident.step (h : p.Resident S) (ha : a.Within S) (hs : BufferPool.step p a = some (p', label)) :
    Stays S p a label p' := by
  have hkeeps := h.kept.step hs
  have hin : ∀ {id : PageId}, id ∈ S → id ∈ p.share S (p.shardFor id) :=
    fun hid => Finset.mem_filter.mpr ⟨hid, rfl⟩
  cases a with
  | fetch owner id rd =>
    simp only [BufferPool.step] at hs
    split_ifs at hs
    obtain ⟨sh, hl, hs⟩ := Option.map_eq_some_iff.mp hs
    obtain ⟨hi, hh⟩ := lockState_some hl
    cases hs
    obtain ⟨hst, hw, he⟩ := Shard.fetchPage_stays (h.shards _ _ hi) (h.kept.shards _ _ hi) hh (h.fits_shard hi)
      (hin ha) p.disk owner rd
    refine h.put hi hkeeps rfl hst (fun hn => absurd hw hn) (fun x id' e hr => ?_)
    obtain ⟨rfl, rfl, hread⟩ := he x id' e hr
    exact .inl ⟨rd, rfl, hread⟩
  | install owner id page =>
    simp only [BufferPool.step] at hs
    split_ifs at hs with _ hp
    · cases hs
      refine ⟨h, fun _ hid => hid, fun hn => absurd rfl hn, ?_⟩
      rintro x id' e ⟨⟩
      exact .inr (.inl ⟨page, rfl, hp⟩)
    · obtain ⟨sh, hl, hs⟩ := Option.map_eq_some_iff.mp hs
      obtain ⟨hi, hh⟩ := lockState_some hl
      cases hs
      obtain ⟨hst, hw, he⟩ := Shard.installPage_stays (h.shards _ _ hi) (h.kept.shards _ _ hi) hh (h.fits_shard hi)
        (hin ha) owner page
      exact h.put hi hkeeps rfl hst (fun hn => absurd hw hn)
        (fun x id' e hr => absurd (he.symm.trans hr) (Option.some_ne_none _).symm)
  | flush owner id =>
    simp only [BufferPool.step] at hs
    split_ifs at hs
    obtain ⟨sh, hl, hs⟩ := Option.map_eq_some_iff.mp hs
    obtain ⟨hi, hh⟩ := lockState_some hl
    cases hs
    obtain ⟨hst, hw, he⟩ := Shard.flushPage_stays (h.shards _ _ hi) owner id
    exact h.put hi hkeeps rfl hst (fun hn => absurd hw hn) (fun x id' e hr => absurd hr (he x id' e))
  | resume i wr rd =>
    obtain ⟨o, hb, ho⟩ := Option.map_eq_some_iff.mp hs
    obtain ⟨sh, hi, hr⟩ := Option.bind_eq_some_iff.mp hb
    cases ho
    obtain ⟨hst, hw, he⟩ := Shard.resume_stays (h.shards _ _ hi) hr
    exact h.put hi hkeeps rfl hst (fun hn => absurd hw hn) (fun x id' e hr => absurd hr (he x id' e))
  | work i k wr =>
    obtain ⟨o, hb, ho⟩ := Option.map_eq_some_iff.mp hs
    obtain ⟨sh, hi, hw⟩ := Option.bind_eq_some_iff.mp hb
    cases ho
    obtain ⟨hst, he⟩ := Shard.work_stays (h.shards _ _ hi) hw
    exact h.put hi hkeeps rfl hst (fun _ => ⟨i, k, wr, rfl⟩)
      (fun x id' e hr => absurd (he.symm.trans hr) (Option.some_ne_none _).symm)
  | guard i k g =>
    obtain ⟨r, hb, hr⟩ := Option.map_eq_some_iff.mp hs
    obtain ⟨sh, hi, hg⟩ := Option.bind_eq_some_iff.mp hb
    cases hr
    obtain ⟨hst, hw, he⟩ := Shard.guard_stays (h.shards _ _ hi) hg
    exact h.put hi hkeeps rfl hst (fun hn => absurd hw hn)
      (fun x id' e hr => absurd (he.symm.trans hr) (Option.some_ne_none _).symm)
  | unpin i k =>
    obtain ⟨r, hb, hr⟩ := Option.map_eq_some_iff.mp hs
    obtain ⟨sh, hl, hu⟩ := Option.bind_eq_some_iff.mp hb
    obtain ⟨hi, hh⟩ := lockState_some hl
    cases hr
    obtain ⟨hst, hw, he⟩ := Shard.unpin_stays (h.shards _ _ hi) hu
    exact h.put hi hkeeps rfl hst (fun hn => absurd hw hn)
      (fun x id' e hr => .inr (.inr ⟨sh, List.mem_of_getElem? hi, he x id' e hr⟩))
  | sync ev =>
    cases hs
    exact ⟨⟨hkeeps.kept, h.fits, h.shards⟩, fun _ hid => hid, fun hn => absurd rfl hn, by rintro x id' e ⟨⟩⟩

theorem Resident.run {acts : List (Action α)} (h : p.Resident S) (hr : Run Turn p acts p')
    (ha : ∀ a ∈ acts, a.Within S) : p'.Resident S ∧ ∀ id, p.cached id ≠ none → p'.cached id ≠ none := by
  refine hr.invariant (I := fun acts p' => (∀ a ∈ acts, a.Within S) → p'.Resident S ∧
    ∀ id, p.cached id ≠ none → p'.cached id ≠ none) (fun _ => ⟨h, fun _ hid => hid⟩) ?_ ha
  rintro ls q l q' - hq ⟨disk, label, hs⟩ hls
  obtain ⟨hres, hcached⟩ := hq (fun a hm => hls a (List.mem_append_left _ hm))
  have hst := (hres.disk disk).step (hls l (List.mem_append_right _ List.mem_cons_self)) hs
  exact ⟨hst.resident, fun id hid => hst.cached id (hcached id hid)⟩

def Flushing (acts : List (Action α)) (p : BufferPool α) : Prop :=
  ∀ owner id, p.Flushes owner id → lastCall owner acts = some ⟨owner, id, .flush⟩

omit [DecidableEq α] in
theorem Flushes.active {owner : α} {id : PageId} (h : p.Flushes owner id) :
    owner ∈ p.activities.map Activity.owner := by
  obtain ⟨sh, hsh, q, hq, -, rfl, -⟩ := h
  refine List.mem_map.mpr ⟨q.activity, List.mem_flatMap.mpr ⟨sh, hsh, ?_⟩, rfl⟩
  exact List.mem_append_right _ (List.mem_map_of_mem hq)

variable {acts : List (Action α)}

theorem Flushing.last (h : Flushing acts p) (hs : p.step a = some (p', label)) {owner : α} {id : PageId}
    (hf : p.Flushes owner id) : lastCall owner (acts ++ [a]) = some ⟨owner, id, .flush⟩ := by
  rw [lastCall_append acts, h owner id hf]
  rintro x hx rfl
  exact step_fresh hs hx hf.active

theorem Flushing.step (h : Flushing acts p) (hk : p.Kept) (hs : p.step a = some (p', label)) :
    Flushing (acts ++ [a]) p' := by
  rintro owner id ⟨sh', hsh', hf⟩
  rcases step_moves hk hs with ⟨hp, -⟩ | ⟨i, sh, sh'', hi, hp, hm⟩
  · rw [hp] at hsh'
    exact h.last hs ⟨sh', hsh', hf⟩
  · rw [hp] at hsh'
    rcases List.mem_or_eq_of_mem_set hsh' with hsh | rfl
    · exact h.last hs ⟨sh', hsh, hf⟩
    · rcases hm.flushes hf with hf | ha
      · exact h.last hs ⟨sh, List.mem_of_getElem? hi, hf⟩
      · exact lastCall_of_starts acts ha

theorem Flushing.run {p₀ : BufferPool α} (hk : p₀.Kept) (h : Flushing [] p₀) (hr : Run Turn p₀ acts p) :
    Flushing acts p := by
  refine (hr.invariant (I := fun acts (p : BufferPool α) => p.Kept ∧ Flushing acts p) ⟨hk, h⟩ ?_).2
  rintro ls q l q' - ⟨hq, hf⟩ ⟨disk, label, hs⟩
  have hq' : BufferPool.Kept { q with disk := disk } := ⟨hq.nonempty, hq.shards⟩
  exact ⟨(hq'.step hs).kept, @Flushing.step _ { q with disk := disk } _ _ _ _ _ hf hq' hs⟩

theorem new_flushing {disk : DiskManager} {capacity : ℕ} (hnew : BufferPool.new disk capacity = .ok p) :
    Flushing [] p := by
  rintro owner id ⟨sh, hsh, q, hq, -⟩
  obtain ⟨i, hi⟩ := List.mem_iff_getElem?.mp hsh
  obtain ⟨n, -, rfl⟩ := new_shards hnew i sh hi
  cases hq

def BoundedTurn : BufferPool α UInt32 → Action α → BufferPool α UInt32 → Prop :=
  Restrict Turn (fun p _ => p.FewPins)

theorem exists_turn (h : p.Kept) {q : BufferPool α UInt32} (ht : BoundedTurn p.wrap a q) :
    ∃ p', p'.wrap = q ∧ p.Turn a p' := by
  obtain ⟨⟨disk, label, hs⟩, hf⟩ := ht
  obtain ⟨p', rfl, hs'⟩ := @exists_step _ _ { p with disk := disk } (counted_of_kept h.shards) hf _ _ _ hs
  exact ⟨p', rfl, disk, label, hs'⟩

theorem exists_turns (h : p.Kept) {q : BufferPool α UInt32} (hr : Run BoundedTurn p.wrap acts q) :
    ∃ p', p'.wrap = q ∧ Run Turn p acts p' := by
  apply hr.of_image
  rintro ls p₁ l q' hp₁ ht
  have hkept := hp₁.invariant (I := fun _ (p : BufferPool α) => p.Kept) h (fun _ _ _ _ _ hk hl => (hk.turn hl).kept)
  exact exists_turn hkept ht

omit [DecidableEq α] in
theorem wrap_cached (p : BufferPool α) (id : PageId) : p.wrap.cached id = p.cached id :=
  congrFun (congrArg Cache.frame (wrap_cache p)) id

omit [DecidableEq α] in
theorem wrap_fits (p : BufferPool α) : p.wrap.Fits S ↔ p.Fits S := by
  have hsizes : p.wrap.sizes = p.sizes := by
    rw [sizes, wrap, List.map_map]
    rfl
  simp only [Fits, share, hsizes, wrap_shardFor]

theorem Resident.stays_cached (h : p.Resident S) {q : BufferPool α UInt32} (hr : Run BoundedTurn p.wrap acts q)
    (ha : ∀ a ∈ acts, a.Within S) {id : PageId} (hid : p.wrap.cached id ≠ none) : q.cached id ≠ none := by
  obtain ⟨p', rfl, hr'⟩ := exists_turns h.kept hr
  rw [wrap_cached] at hid ⊢
  exact (h.run hr' ha).2 id hid

theorem Resident.turn (h : p.Resident S) (hp : Flushing acts p) {disk : DiskManager} {q : BufferPool α UInt32}
    (hf : p.wrap.FewPins) (hs : BufferPool.step { p.wrap with disk := disk } a = some (q, label)) (ha : a.Within S) :
    (label.written ≠ none → ∃ i k wr, a = .work i k wr) ∧
      ∀ owner id e, label.returned = some (owner, id, .error e) →
        Fails disk a owner id e (lastCall owner (acts ++ [a]) = some ⟨owner, id, .flush⟩) := by
  have hd := h.disk disk
  obtain ⟨p', rfl, hs'⟩ := @exists_step _ _ { p with disk := disk } (counted_of_kept hd.kept.shards) hf _ _ _ hs
  have hst := hd.step ha hs'
  refine ⟨hst.written, fun owner id e he => ?_⟩
  rcases hst.failed owner id e he with hfail | hfail | hfail
  · exact .inl hfail
  · exact .inr (.inl hfail)
  · exact .inr (.inr (@Flushing.last _ { p with disk := disk } _ _ _ _ _ hp hs' _ _ hfail))

theorem exists_resident {disk : DiskManager} {capacity : ℕ} (hnew : BufferPool.new disk capacity = .ok p)
    (hfit : p.Fits S) {q : BufferPool α UInt32} (hr : Run BoundedTurn p.wrap acts q) (hS : ∀ a ∈ acts, a.Within S) :
    ∃ p', p'.wrap = q ∧ p'.Resident S ∧ Flushing acts p' := by
  have hres := new_resident hnew hfit
  obtain ⟨p', rfl, hr'⟩ := exists_turns hres.kept hr
  exact ⟨p', rfl, (hres.run hr' hS).1, Flushing.run hres.kept (new_flushing hnew) hr'⟩

/-- As long as only pages of a set are asked for, of which no shard gets more than it has frames, a page
that was cached once is cached for good, nothing but a flush writes to the data file, and a call returns an
error only if it is a fetch that cannot read its page, an install of another page's bytes or a flush. -/
theorem working_set_stays_cached {disk : DiskManager} {capacity : ℕ} {p₀ p : BufferPool α UInt32}
    (hnew : BufferPool.new disk capacity = .ok p₀) (hfit : p₀.Fits S) (hr : Run BoundedTurn p₀ acts p)
    (hS : ∀ a ∈ acts, a.Within S) :
    (∀ acts' p', Run BoundedTurn p acts' p' → (∀ a ∈ acts', a.Within S) →
      ∀ id, p.cached id ≠ none → p'.cached id ≠ none) ∧
    ∀ disk a p' label, p.FewPins → step { p with disk := disk } a = some (p', label) → a.Within S →
      (label.written ≠ none → ∃ i k wr, a = .work i k wr) ∧
      ∀ owner id e, label.returned = some (owner, id, .error e) →
        (∃ rd, a = .fetch owner id rd ∧ disk.readPage id rd = .error e) ∨
        (∃ page, a = .install owner id page ∧ page.pageId ≠ id) ∨
        lastCall owner (acts ++ [a]) = some ⟨owner, id, .flush⟩ := by
  obtain ⟨q₀, rfl, hnew₀⟩ := exists_new hnew
  obtain ⟨q, rfl, hres, hflush⟩ := exists_resident hnew₀ ((wrap_fits q₀).mp hfit) hr hS
  exact ⟨fun acts' p' hr' hS' id => hres.stays_cached hr' hS',
    fun disk a p' label hf hs ha => hres.turn hflush hf hs ha⟩

theorem installed_table (id : PageId) (page : Page) : (installedShard id page).state.pageTable id = some 0 :=
  Function.update_self ..

theorem working_set_stays_cached_one : ∃ (p₀ p p' : BufferPool Unit UInt32) (disk : DiskManager),
    BufferPool.new DiskManager.create 1 = .ok p₀ ∧ disk.file.contents = [] ∧
    Run BoundedTurn p₀ [.install () 1 (Page.new 1 .heap), .resume 0 .ok true] p ∧
    (∃ label, step { p with disk := disk } (.fetch () 1 false) = some (p', label)) ∧
    p.cached 1 ≠ none ∧ p'.cached 1 ≠ none := by
  have hfits : Fits (⟨[Shard.new 1], DiskManager.create⟩ : BufferPool Unit UInt32) {1} := by
    intro i n hn
    have hle := Finset.card_filter_le ({1} : Finset PageId)
      (fun id => BufferPool.shardFor (⟨[Shard.new 1], DiskManager.create⟩ : BufferPool Unit UInt32) id = i)
    refine hle.trans ?_
    rw [Finset.card_singleton]
    cases i with
    | zero => cases hn; exact le_rfl
    | succ i => cases hn
  have hinstall : BoundedTurn (⟨[Shard.new 1], DiskManager.create⟩ : BufferPool Unit UInt32)
      (.install () 1 (Page.new 1 .heap)) (installing DiskManager.create 1 (Page.new 1 .heap)) :=
    ⟨⟨_, _, step_install_one _ _ _ (Page.new_pageId 1 .heap)⟩, by exact fewPins_one _ (Nat.zero_le 1)⟩
  have hrun := (Run.start.step hinstall).step (⟨⟨DiskManager.create, _, rfl⟩,
    by exact fewPins_one _ (Nat.zero_le 1)⟩ : BoundedTurn _ (.resume 0 .ok true)
      ⟨[installedShard 1 (Page.new 1 .heap)], DiskManager.create⟩)
  have htable := installed_table 1 (Page.new 1 .heap)
  have hcached : BufferPool.cached ⟨[installedShard 1 (Page.new 1 .heap)], DiskManager.create⟩ 1 ≠ none := by
    rw [BufferPool.cached, shardFor_one]
    change (Option.map _ ((installedShard 1 (Page.new 1 .heap)).state.pageTable 1)) ≠ none
    rw [htable]
    exact Option.some_ne_none _
  obtain ⟨p', label, hfetch⟩ : ∃ p' label,
      step (⟨[installedShard 1 (Page.new 1 .heap)], ⟨⟨[], fun _ => .lost, []⟩, 2⟩⟩ : BufferPool Unit UInt32)
        (.fetch () 1 false) = some (p', label) := by
    simp only [step]
    rw [if_pos (show BufferPool.idle _ _ = true from rfl), shardFor_one]
    change ∃ p' label, some (BufferPool.put _ 0
      ((installedShard 1 (Page.new 1 .heap)).fetchPage _ () 1 false)) = some (p', label)
    rw [Shard.fetchPage, htable]
    exact ⟨_, _, rfl⟩
  have hwithin : ∀ a ∈ ([.install () 1 (Page.new 1 .heap), .resume 0 .ok true] : List (Action Unit)),
      a.Within {1} := by
    simp [Action.Within]
  refine ⟨_, _, _, _, new_one _, rfl, hrun, ⟨_, hfetch⟩, hcached, ?_⟩
  exact (working_set_stays_cached (new_one _) hfits hrun hwithin).1 _ _
    (Run.start.step ⟨⟨_, _, hfetch⟩, by exact fewPins_one _ (Nat.zero_le 1)⟩) (by simp [Action.Within]) 1 hcached

end BufferPool

end OxenDB
