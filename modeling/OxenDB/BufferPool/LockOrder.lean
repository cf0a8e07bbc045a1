import OxenDB.BufferPool.Holds

namespace OxenDB

open Lib

variable {T α : Type}

structure Shard.Represented {κ : Type} [OfNat κ 0] [LT κ] [DecidableLT κ] (n : ℕ) (sh : Shard α κ) : Prop where
  inverse : ∀ id f, sh.state.pageTable id = some f ↔ sh.state.framePages[f]? = some (some id)
  nodup : sh.state.freeFrames.Nodup
  free : ∀ f, f ∈ sh.state.freeFrames ↔ sh.state.framePages[f]? = some none
  unpinned : ∀ f ∈ sh.state.freeFrames, sh.state.pinCounts.getD f 0 = 0
  clockHand : sh.state.clockHand < n
  lengths : sh.frames.length = n ∧ sh.state.framePages.length = n ∧ sh.state.pinCounts.length = n ∧
    sh.state.refBits.length = n
  complete : ∀ f < n, f ∈ sh.state.freeFrames ∨ ∃ id, sh.state.pageTable id = some f
  victim : (sh.state.acquireFrame n).2 ≠ .panic

structure Shard.InBounds {κ : Type} (n : ℕ) (sh : Shard α κ) : Prop where
  mapped : ∀ id f, sh.state.pageTable id = some f → f < n
  free : ∀ f ∈ sh.state.freeFrames, f < n
  pins : ∀ p ∈ sh.pins, p.frame < n
  held : ∀ x, sh.held = some x → x.frame < n

namespace Threads

variable [DecidableEq α]

structure Inv (who : α → T) (n : ℕ) (s : Threads T α) : Prop where
  kept : s.shard.Kept (fun _ => True)
  size : s.shard.frames.length = n
  unique : s.shard.owners.Nodup
  holder : ∀ x, s.shard.held = some x →
    s.pos (who x.owner) = .wantFrame x.owner x.frame ∨ s.pos (who x.owner) = .inFrame x.owner x.frame
  inside : ∀ t a f, s.pos t = .inFrame a f → who a = t ∧ s.shard.Needs a f
  counted : GuardCount s.shard.pins s.guards

variable {who : α → T} {n : ℕ} {s s' : Threads T α} {t : T}

theorem new_inv (hn : 0 < n) : Inv who n (new n) where
  kept := Shard.new_kept hn
  size := List.length_replicate
  unique := List.nodup_nil
  holder x hx := by cases hx
  inside t a f ht := by cases ht
  counted := by
    constructor
    · intro p hp
      cases hp
    · intro h hh
      cases hh

theorem Inv.unique_pins (h : Inv who n s) : (s.shard.pins.map Pin.owner).Nodup := h.unique.of_append_right

def OffFrame : Position α → Prop
  | .wantFrame .. | .inFrame .. => False
  | _ => True

theorem Inv.not_holder (h : Inv who n s) (ht : OffFrame (s.pos t)) {x : Section α}
    (hx : s.shard.held = some x) : who x.owner ≠ t := by
  rintro rfl
  rcases h.holder x hx with hp | hp
  · rw [hp] at ht
    exact ht
  · rw [hp] at ht
    exact ht

theorem Inv.pin_not_holder (h : Inv who n s) {p : Pin α} (hm : p ∈ s.shard.pins)
    (hp : s.pos t = .wantFrame p.owner p.frame) {x : Section α} (hx : s.shard.held = some x) : who x.owner ≠ t := by
  rintro rfl
  have hne := Shard.held_unique h.unique hx hm
  rcases h.holder x hx with hq | hq
  · rw [hp] at hq
    injection hq with hq _
    exact hne hq
  · rw [hp] at hq
    cases hq

theorem Inv.reshape (h : Inv who n s) {sh' : Shard α} {guards' : List (Hold T α)}
    (hk : s.shard.Keeps (fun _ => True) sh') (hu : sh'.owners.Nodup) (hh : sh'.held = s.shard.held)
    (hn : ∀ a f, s.shard.Needs a f → sh'.Needs a f)
    (hc : GuardCount sh'.pins guards') : Inv who n ⟨sh', s.pos, guards'⟩ := by
  refine ⟨hk.kept, hk.frames.trans h.size, hu, ?_, ?_, hc⟩
  · intro x hx
    exact h.holder x (hh ▸ hx)
  · intro t a f ht
    obtain ⟨hw, hneeds⟩ := h.inside t a f ht
    exact ⟨hw, hn a f hneeds⟩

theorem Inv.stage (h : Inv who n s) {k : ℕ} {p : Pin α} (hk : s.shard.pins[k]? = some p) (hc : ¬ p.stage.Calls)
    {stage : Stage} {frames : List Frame} (hl : frames.length = s.shard.frames.length)
    {guards' : List (Hold T α)} (hg : GuardCount (s.shard.pins.set k { p with stage := stage }) guards') :
    Inv who n ⟨{ s.shard.setStage k p stage with frames := frames }, s.pos, guards'⟩ := by
  refine h.reshape (h.kept.setStage hk stage hl) ?_ rfl ?_ hg
  · rw [Shard.owners_setStage hk]
    exact h.unique
  · exact fun a f => Shard.needs_setStage hk hc stage frames

theorem Inv.represented (h : Inv who n s) (hh : s.shard.held = none) : s.shard.Represented n := by
  have hb := h.kept.books_free hh
  rw [h.size] at hb
  have hfree : ∀ f, f ∈ s.shard.state.freeFrames ↔ s.shard.state.framePages[f]? = some none := by
    intro f
    rw [hb.free]
    exact and_iff_left (by simp)
  refine ⟨hb.mapped, hb.nodup, hfree, ?_, hb.clockHand, ⟨h.size, hb.framePages, hb.pinCounts, hb.refBits⟩,
    ?_, (hb.acquire n).not_panic⟩
  · intro f hf
    exact hb.counts_unmapped ((hfree f).mp hf)
  · intro f hf
    rw [← hb.framePages] at hf
    have hget := List.getElem?_eq_getElem hf
    cases hp : s.shard.state.framePages[f] with
    | none => exact .inl ((hfree f).mpr (by rw [hget, hp]))
    | some id => exact .inr ⟨id, (hb.mapped id f).mpr (by rw [hget, hp])⟩

theorem Inv.inBounds (h : Inv who n s) : s.shard.InBounds n := by
  have hb := h.kept.books
  rw [h.size] at hb
  have hlt : ∀ f x, s.shard.state.framePages[f]? = some x → f < n := by
    intro f x hf
    rw [← hb.framePages]
    exact (List.getElem?_eq_some_iff.mp hf).1
  refine ⟨fun id f hf => hb.lt_of_mapped hf, ?_, ?_, ?_⟩
  · intro f hf
    exact hlt f _ ((hb.free f).mp hf).1
  · intro p hp
    exact hlt p.frame _ (hb.pinned (p.frame, p.pageId) (List.mem_map_of_mem hp))
  · intro x hx
    have haim := h.kept.held x hx
    cases x with
    | evict => exact hb.lt_of_mapped haim.2.2.1
    | fill => exact hlt _ _ haim.2.2

variable [DecidableEq T]

theorem Inv.go (h : Inv who n s) {x : Position α} (hx : ∀ a f, x = .inFrame a f → who a = t ∧ s.shard.Needs a f)
    (hh : ∀ y, s.shard.held = some y → who y.owner = t → x = .inFrame y.owner y.frame) :
    Inv who n { s with pos := s.move t x } := by
  refine ⟨h.kept, h.size, h.unique, ?_, ?_, h.counted⟩
  · intro y hy
    by_cases ht : who y.owner = t
    · right
      change Function.update s.pos t x (who y.owner) = _
      rw [ht, Function.update_self]
      exact hh y hy ht
    · change Function.update s.pos t x (who y.owner) = _ ∨ Function.update s.pos t x (who y.owner) = _
      rw [Function.update_of_ne ht]
      exact h.holder y hy
  · intro t' a f hp
    change Function.update s.pos t x t' = _ at hp
    by_cases ht : t' = t
    · subst ht
      rw [Function.update_self] at hp
      exact hx a f hp
    · rw [Function.update_of_ne ht] at hp
      exact h.inside t' a f hp

theorem Inv.turn (h : Inv who n s) {a : α} {sh' : Shard α} {x : Position α} (ha : who a = t)
    (hl : s.shard.Leaves a sh') (hk : s.shard.Keeps (fun _ => True) sh') (hu : sh'.owners.Nodup)
    (hx : sh'.Next a x ∨ x = .wantDrop a ∧ ∀ y, sh'.held = some y → y.owner ≠ a)
    (hs : ∀ y, s.shard.held = some y → who y.owner = t → y.owner = a) (hc : GuardCount sh'.pins s.guards) :
    Inv who n ⟨sh', s.move t x, s.guards⟩ := by
  refine ⟨hk.kept, hk.frames.trans h.size, hu, ?_, ?_, hc⟩
  · intro y hy
    change Function.update s.pos t x (who y.owner) = _ ∨ Function.update s.pos t x (who y.owner) = _
    by_cases hya : y.owner = a
    · left
      rw [hya, ha, Function.update_self]
      rcases hx with hx | ⟨-, hx⟩
      · rw [← hya] at hx ⊢
        exact Shard.Next.of_held hu hy hx
      · exact absurd hya (hx y hy)
    · have hy' := (hl.held y hya).mp hy
      rw [Function.update_of_ne (fun ht => hya (hs y hy' ht))]
      exact h.holder y hy'
  · intro t' b f hp
    change Function.update s.pos t x t' = _ at hp
    by_cases ht : t' = t
    · subst ht
      rw [Function.update_self] at hp
      subst hp
      rcases hx with hx | ⟨hx, -⟩
      · cases hx
      · cases hx
    · rw [Function.update_of_ne ht] at hp
      obtain ⟨hw, hneeds⟩ := h.inside t' b f hp
      have hne : b ≠ a := by
        rintro rfl
        exact ht (hw.symm.trans ha)
      exact ⟨hw, (hl.needs hne).mpr hneeds⟩

theorem Inv.out (h : Inv who n s) (ht : ∀ y, s.shard.held = some y → who y.owner ≠ t) {x : Position α}
    (hx : ∀ a f, x ≠ .inFrame a f) : Inv who n { s with pos := s.move t x } := by
  apply h.go
  · intro a f he
    exact absurd he (hx a f)
  · intro y hy he
    exact absurd he (ht y hy)

theorem Inv.opened (h : Inv who n s) {a : α} {id : PageId} {stage : Stage} {sh' : Shard α} {x : Position α}
    (hh : s.shard.held = none) (ha : who a = t) (hf : a ∉ s.shard.owners)
    (hs : ∀ b, stage.guards b = 0) (ho : s.shard.Opened a id stage sh') (hx : sh'.Next a x) :
    Inv who n ⟨sh', s.move t x, s.guards⟩ := by
  have hc : GuardCount sh'.pins s.guards := by
    rw [Shard.owners_free hh] at hf
    cases ho with
    | returned => exact h.counted
    | pinned => exact h.counted.cons hf hs
    | evict => exact h.counted
    | take => exact h.counted
  refine h.turn ha (ho.leaves hh) (ho.keeps h.kept hh trivial) (ho.unique hh h.unique hf) (.inl hx) ?_ hc
  intro y hy
  rw [hh] at hy
  cases hy

theorem Inv.resumed (h : Inv who n s) {sec : Section α} {sh' : Shard α} {x : Position α}
    (hp : s.pos t = .inFrame sec.owner sec.frame) (hs : s.shard.held = some sec) (hr : s.shard.Resumed sec sh')
    (hx : sh'.Next sec.owner x) : Inv who n ⟨sh', s.move t x, s.guards⟩ := by
  have hfresh := h.unique
  rw [Shard.owners_held hs, List.nodup_cons] at hfresh
  have hc : GuardCount sh'.pins s.guards := by
    cases hr with
    | failed => exact h.counted
    | evicted => exact h.counted
    | unread => exact h.counted
    | loaded => exact h.counted.cons hfresh.1 (fun b => by cases b <;> rfl)
    | installed => exact h.counted
  refine h.turn (h.inside _ _ _ hp).1 (hr.leaves hs) (hr.keeps h.kept hs) (hr.unique hs h.unique) (.inl hx) ?_ hc
  intro y hy _
  rw [hs] at hy
  cases hy
  rfl

theorem Inv.finished (h : Inv who n s) {k : ℕ} {p : Pin α} {x : Frame} {result : Except Error Unit}
    (hp : s.pos t = .inFrame p.owner p.frame) (hk : s.shard.pins[k]? = some p) (hz : ∀ b, p.stage.guards b = 0) :
    Inv who n ⟨{ s.shard.setStage k p (.drop result) with frames := s.shard.frames.set p.frame x },
      s.move t (.wantDrop p.owner), s.guards⟩ := by
  have hown : ∀ y, s.shard.held = some y → y.owner ≠ p.owner := fun y hy =>
    (Shard.held_unique h.unique hy (List.mem_of_getElem? hk)).symm
  refine h.turn (h.inside _ _ _ hp).1 (Shard.setStage_leaves hk _ _) (h.kept.setStage hk _ List.length_set)
    (by rw [Shard.owners_setStage hk]; exact h.unique) (.inr ⟨rfl, hown⟩) ?_
    (h.counted.keep h.unique_pins hk (fun b => (hz b).symm))
  intro y hy ht
  have hy' := h.holder y hy
  rw [ht, hp] at hy'
  rcases hy' with hy' | hy'
  · cases hy'
  · injection hy' with hy' _
    exact hy'.symm

theorem Inv.step (h : Inv who n s) (hstep : Step who s t s') : Inv who n s' := by
  cases hstep with
  | call hp =>
    apply h.out
    · exact fun y => h.not_holder (by rw [hp]; trivial)
    · rintro a f ⟨⟩
  | snapshot hp hh =>
    apply h.out
    · exact fun y => h.not_holder (by rw [hp]; trivial)
    · rintro a f ⟨⟩
  | fetch id disk rd hp hh ha hf hx =>
    exact h.opened hh ha hf (fun b => by cases b <;> rfl) (Shard.fetchPage_opened h.kept hh disk _ id rd) hx
  | install id page hp hh ha hf hx =>
    exact h.opened hh ha hf (fun b => rfl) (Shard.installPage_opened h.kept hh _ id page) hx
  | flush id hp hh ha hf hx =>
    exact h.opened hh ha hf (fun b => rfl) (Shard.flushPage_opened _ id) hx
  | enter hp ha hn hfree =>
    apply h.go
    · rintro b g ⟨⟩
      exact ⟨ha, hn⟩
    · rintro y hy rfl
      rcases h.holder y hy with hq | hq
      · rw [hp] at hq
        cases hq
        rfl
      · rw [hp] at hq
        cases hq
  | leave disk wr rd hp hs hr hx => exact h.resumed hp hs (Shard.resume_resumed hs hr) hx
  | finish k disk wr hp hk hw =>
    obtain ⟨⟨x, result, ho⟩, hz⟩ := Shard.work_worked hk hw
    rw [ho]
    exact h.finished hp hk hz
  | want hp hm hs hd =>
    apply h.out
    · exact fun y => h.not_holder (by rw [hp]; trivial)
    · rintro a f ⟨⟩
  | lockRead k hp hk hfree hg =>
    obtain ⟨stage, frames, hr, hl, hc, hs⟩ := Shard.guard_lock (b := false) hk hg
    rw [hr]
    have hinv := h.stage hk hc hl (h.counted.lock h.unique_pins hk t hs)
    exact hinv.out (fun y => h.pin_not_holder (List.mem_of_getElem? hk) hp) (by rintro a f ⟨⟩)
  | lockWrite k hp hk hfree hg =>
    obtain ⟨stage, frames, hr, hl, hc, hs⟩ := Shard.guard_lock (b := true) hk hg
    rw [hr]
    have hinv := h.stage hk hc hl (h.counted.lock h.unique_pins hk t hs)
    exact hinv.out (fun y => h.pin_not_holder (List.mem_of_getElem? hk) hp) (by rintro a f ⟨⟩)
  | read k hp hh ht hk hown hg =>
    rw [Shard.guard_read hg]
    exact h
  | write k page hp hh ht hx hk hown hg =>
    obtain ⟨frames, hr, hl⟩ := Shard.guard_write hg
    rw [hr]
    exact h.reshape (h.kept.frames hl) h.unique rfl (fun _ _ => id) h.counted
  | unlock k hp hperm ht hk hown hg =>
    obtain ⟨stage, hr, hc, hs⟩ := Shard.guard_unlock hk hg
    rw [hr]
    exact h.stage hk hc rfl (h.counted.unlock h.unique_pins hk hperm hown hs)
  | drop hp hm hs hw hd =>
    apply h.out
    · exact fun y => h.not_holder (by rw [hp]; trivial)
    · rintro a f ⟨⟩
  | unpin k hp hh hk hu =>
    obtain ⟨hr, hc, hz⟩ := Shard.unpin_inv hk hu
    rw [hr]
    have hinv := h.reshape (h.kept.unpin hh hk) (Shard.unpin_unique h.unique _ k) rfl
      (fun _ _ => Shard.needs_unpin hk hc _) (h.counted.erase hk hz)
    apply hinv.out
    · exact fun y => h.not_holder (by rw [hp]; trivial)
    · rintro a f ⟨⟩

theorem inv_run {ls : List T} (hn : 0 < n) (h : Run (Step who) (new n) ls s) : Inv who n s :=
  h.invariant (I := fun _ s => Inv who n s) (new_inv hn) (fun _ _ _ _ _ hi hs => hi.step hs)

theorem Step.pinned (h : Inv who n s) (hstep : Step who s t s') {f : ℕ}
    (hf : 0 < s.shard.state.pinCounts.getD f 0) :
    s'.shard.state.framePages[f]? = s.shard.state.framePages[f]? := by
  cases hstep with
  | call => rfl
  | snapshot => rfl
  | fetch id disk rd hp hh =>
    exact ((Shard.fetchPage_opened h.kept hh disk _ id rd).keeps h.kept hh trivial).pinned f hf
  | install id page hp hh =>
    exact ((Shard.installPage_opened h.kept hh _ id page).keeps h.kept hh trivial).pinned f hf
  | flush id hp hh => exact ((Shard.flushPage_opened _ id).keeps h.kept hh trivial).pinned f hf
  | enter => rfl
  | leave disk wr rd hp hs hr => exact (h.kept.keeps_resume hr).pinned f hf
  | finish k disk wr hp hk hw => exact (h.kept.keeps_work hw).pinned f hf
  | want => rfl
  | lockRead k hp hk hfree hg => exact (h.kept.keeps_guard hg).pinned f hf
  | lockWrite k hp hk hfree hg => exact (h.kept.keeps_guard hg).pinned f hf
  | read k hp hh ht hk hown hg => exact (h.kept.keeps_guard hg).pinned f hf
  | write k page hp hh ht hx hk hown hg => exact (h.kept.keeps_guard hg).pinned f hf
  | unlock k hp hperm ht hk hown hg => exact (h.kept.keeps_guard hg).pinned f hf
  | drop => rfl
  | unpin k hp hh hk hu => exact (h.kept.keeps_unpin hh hu).pinned f hf

end Threads

end OxenDB
