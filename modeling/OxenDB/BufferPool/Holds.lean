import OxenDB.BufferPool.Threads

namespace OxenDB

open Lib

variable {T α : Type}

section Lists

variable {β : Type} {l : List β} {k : ℕ} {x : β}

theorem mem_iff_eraseIdx (hk : l[k]? = some x) (y : β) : y ∈ l ↔ y = x ∨ y ∈ l.eraseIdx k := by
  obtain ⟨hlt, rfl⟩ := List.getElem?_eq_some_iff.mp hk
  rw [← List.mem_cons]
  exact (List.getElem_cons_eraseIdx_perm hlt).mem_iff.symm

theorem mem_set_iff (hk : l[k]? = some x) (y z : β) : z ∈ l.set k y ↔ z = y ∨ z ∈ l.eraseIdx k := by
  obtain ⟨hlt, -⟩ := List.getElem?_eq_some_iff.mp hk
  rw [← List.mem_cons]
  exact (List.set_perm_cons_eraseIdx hlt _).mem_iff

theorem not_mem_eraseIdx {γ : Type} {g : β → γ} (hn : (l.map g).Nodup) (hk : l[k]? = some x) {y : β}
    (hy : y ∈ l.eraseIdx k) : g y ≠ g x := by
  obtain ⟨hlt, rfl⟩ := List.getElem?_eq_some_iff.mp hk
  have hnd := ((List.getElem_cons_eraseIdx_perm hlt).map g).nodup_iff.mpr hn
  rw [List.map_cons, List.nodup_cons] at hnd
  intro he
  apply hnd.1
  rw [← he]
  exact List.mem_map_of_mem hy

end Lists

namespace Shard

structure Leaves (a : α) (sh sh' : Shard α) : Prop where
  pins : ∀ p : Pin α, p.owner ≠ a → (p ∈ sh'.pins ↔ p ∈ sh.pins)
  held : ∀ x : Section α, x.owner ≠ a → (sh'.held = some x ↔ sh.held = some x)

variable {sh sh' : Shard α} {a : α} {id : PageId} {stage : Stage} {k : ℕ} {p : Pin α}

theorem Leaves.needs (h : Leaves a sh sh') {b : α} {f : ℕ} (hb : b ≠ a) : sh'.Needs b f ↔ sh.Needs b f := by
  constructor
  · rintro (⟨x, hx, rfl, hf⟩ | ⟨p, hp, rfl, hf⟩)
    · exact .inl ⟨x, (h.held x hb).mp hx, rfl, hf⟩
    · exact .inr ⟨p, (h.pins p hb).mp hp, rfl, hf⟩
  · rintro (⟨x, hx, rfl, hf⟩ | ⟨p, hp, rfl, hf⟩)
    · exact .inl ⟨x, (h.held x hb).mpr hx, rfl, hf⟩
    · exact .inr ⟨p, (h.pins p hb).mpr hp, rfl, hf⟩

theorem Opened.leaves (ho : Opened sh a id stage sh') (hh : sh.held = none) : Leaves a sh sh' := by
  cases ho with
  | returned => exact ⟨fun p _ => Iff.rfl, fun x _ => Iff.rfl⟩
  | pinned =>
    refine ⟨?_, fun x _ => Iff.rfl⟩
    intro p hp
    rw [List.mem_cons, or_iff_right]
    rintro rfl
    exact hp rfl
  | evict =>
    refine ⟨fun p _ => Iff.rfl, ?_⟩
    intro x hx
    simp only [hh, Option.some.injEq, reduceCtorEq, iff_false]
    rintro rfl
    exact hx rfl
  | take =>
    refine ⟨fun p _ => Iff.rfl, ?_⟩
    intro x hx
    simp only [hh, Option.some.injEq, reduceCtorEq, iff_false]
    rintro rfl
    exact hx rfl

theorem Resumed.leaves {s : Section α} (hr : Resumed sh s sh') (hs : sh.held = some s) :
    Leaves s.owner sh sh' := by
  have hnone : ∀ x : Section α, x.owner ≠ s.owner → (none = some x ↔ sh.held = some x) := by
    intro x hx
    simp only [hs, Option.some.injEq, reduceCtorEq, false_iff]
    rintro rfl
    exact hx rfl
  cases hr with
  | failed => exact ⟨fun p _ => Iff.rfl, hnone⟩
  | evicted =>
    refine ⟨fun p _ => Iff.rfl, ?_⟩
    intro x hx
    rw [← hnone x hx]
    simp only [Option.some.injEq, reduceCtorEq, iff_false]
    rintro rfl
    exact hx rfl
  | unread => exact ⟨fun p _ => Iff.rfl, hnone⟩
  | loaded =>
    refine ⟨?_, hnone⟩
    intro p hp
    rw [List.mem_cons, or_iff_right]
    rintro rfl
    exact hp rfl
  | installed => exact ⟨fun p _ => Iff.rfl, hnone⟩

theorem setStage_leaves (hk : sh.pins[k]? = some p) (stage : Stage) (frames : List Frame) :
    Leaves p.owner sh { sh.setStage k p stage with frames := frames } := by
  refine ⟨?_, fun x _ => Iff.rfl⟩
  intro q hq
  change q ∈ sh.pins.set k { p with stage := stage } ↔ _
  rw [mem_set_iff hk, mem_iff_eraseIdx hk, or_iff_right, or_iff_right]
  · rintro rfl
    exact hq rfl
  · rintro rfl
    exact hq rfl

theorem owners_free (hh : sh.held = none) : sh.owners = sh.pins.map Pin.owner := by
  rw [owners, hh]
  rfl

theorem owners_held {s : Section α} (hs : sh.held = some s) : sh.owners = s.owner :: sh.pins.map Pin.owner := by
  rw [owners, hs]
  rfl

theorem held_unique (hu : sh.owners.Nodup) {x : Section α} (hx : sh.held = some x) (hp : p ∈ sh.pins) :
    p.owner ≠ x.owner := by
  rw [owners_held hx] at hu
  intro he
  apply (List.nodup_cons.mp hu).1
  rw [← he]
  exact List.mem_map_of_mem hp

theorem Next.of_held (hu : sh.owners.Nodup) {s : Section α} (hs : sh.held = some s) {x : Position α}
    (hx : sh.Next s.owner x) : x = .wantFrame s.owner s.frame := by
  cases x with
  | free => exact absurd (.inl ⟨s, hs, rfl, rfl⟩) (hx s.frame)
  | wantFrame b f =>
    obtain ⟨rfl, ⟨y, hy, -, rfl⟩ | ⟨p, hp, hown, -⟩⟩ := hx
    · rw [hs] at hy
      cases hy
      rfl
    · exact absurd hown (held_unique hu hs hp)
  | wantState => cases hx
  | wantDrop b => cases hx
  | inFrame b f => cases hx

theorem Opened.unique (ho : Opened sh a id stage sh') (hh : sh.held = none) (hu : sh.owners.Nodup)
    (ha : a ∉ sh.owners) : sh'.owners.Nodup := by
  have hcons : (a :: sh.pins.map Pin.owner).Nodup := by
    rw [owners_free hh] at hu ha
    exact List.nodup_cons.mpr ⟨ha, hu⟩
  cases ho with
  | returned => exact hu
  | pinned =>
    rw [owners, hh]
    exact hcons
  | evict => exact hcons
  | take => exact hcons

theorem Resumed.unique {s : Section α} (hr : Resumed sh s sh') (hs : sh.held = some s) (hu : sh.owners.Nodup) :
    sh'.owners.Nodup := by
  rw [owners_held hs] at hu
  cases hr with
  | failed => exact (List.nodup_cons.mp hu).2
  | evicted => exact hu
  | unread => exact (List.nodup_cons.mp hu).2
  | loaded => exact hu
  | installed => exact (List.nodup_cons.mp hu).2

theorem owners_setStage (hk : sh.pins[k]? = some p) (stage : Stage) (frames : List Frame) :
    Shard.owners { sh.setStage k p stage with frames := frames } = sh.owners := by
  obtain ⟨hlt, rfl⟩ := List.getElem?_eq_some_iff.mp hk
  have hset : (sh.pins.set k { sh.pins[k] with stage := stage }).map Pin.owner = sh.pins.map Pin.owner := by
    have hself := @List.set_getElem_self _ (sh.pins.map Pin.owner) k (by simpa using hlt)
    rw [List.getElem_map] at hself
    rw [List.map_set]
    exact hself
  rw [owners, owners]
  exact congrArg _ hset

theorem unpin_unique (hu : sh.owners.Nodup) (st : PoolState) (k : ℕ) :
    (Shard.owners { sh with state := st, pins := sh.pins.eraseIdx k }).Nodup := by
  apply List.Nodup.sublist _ hu
  exact (List.Sublist.refl _).append ((List.eraseIdx_sublist _ _).map _)

theorem needs_setStage (hk : sh.pins[k]? = some p) (hc : ¬ p.stage.Calls) (stage : Stage) (frames : List Frame)
    {b : α} {f : ℕ} (h : sh.Needs b f) : Shard.Needs { sh.setStage k p stage with frames := frames } b f := by
  rcases h with h | ⟨q, hq, hb, hf, hcalls⟩
  · exact .inl h
  · rcases (mem_iff_eraseIdx hk q).mp hq with rfl | hq
    · exact absurd hcalls hc
    · exact .inr ⟨q, (mem_set_iff hk _ q).mpr (.inr hq), hb, hf, hcalls⟩

theorem needs_unpin (hk : sh.pins[k]? = some p) (hc : ¬ p.stage.Calls) (st : PoolState) {b : α} {f : ℕ}
    (h : sh.Needs b f) : Shard.Needs { sh with state := st, pins := sh.pins.eraseIdx k } b f := by
  rcases h with h | ⟨q, hq, hb, hf, hcalls⟩
  · exact .inl h
  · rcases (mem_iff_eraseIdx hk q).mp hq with rfl | hq
    · exact absurd hcalls hc
    · exact .inr ⟨q, hq, hb, hf, hcalls⟩

end Shard

section GuardCount

variable [DecidableEq α] {pins : List (Pin α)} {guards : List (Hold T α)} {k : ℕ} {p : Pin α}

def guardsOf (guards : List (Hold T α)) (a : α) (b : Bool) : ℕ :=
  guards.countP (fun h => decide (h.handle = a ∧ h.exclusive = b))

structure GuardCount (pins : List (Pin α)) (guards : List (Hold T α)) : Prop where
  counts : ∀ p ∈ pins, ∀ b, guardsOf guards p.owner b = p.stage.guards b
  placed : ∀ h ∈ guards, ∃ p ∈ pins, p.owner = h.handle ∧ p.frame = h.frame

theorem GuardCount.cons (h : GuardCount pins guards) {q : Pin α} (hq : q.owner ∉ pins.map Pin.owner)
    (hs : ∀ b, q.stage.guards b = 0) : GuardCount (q :: pins) guards := by
  refine ⟨?_, ?_⟩
  · intro p hp b
    rcases List.mem_cons.mp hp with rfl | hp
    · rw [hs, guardsOf, List.countP_eq_zero]
      intro g hg
      obtain ⟨r, hr, hown, -⟩ := h.placed g hg
      simp only [decide_eq_true_eq, not_and]
      intro he
      exact absurd (List.mem_map.mpr ⟨r, hr, hown.trans he⟩) hq
    · exact h.counts p hp b
  · intro g hg
    obtain ⟨r, hr, hown⟩ := h.placed g hg
    exact ⟨r, List.mem_cons_of_mem _ hr, hown⟩

theorem GuardCount.erase (h : GuardCount pins guards) (hk : pins[k]? = some p) (hs : ∀ b, p.stage.guards b = 0) :
    GuardCount (pins.eraseIdx k) guards := by
  refine ⟨fun q hq => h.counts q (List.mem_of_mem_eraseIdx hq), ?_⟩
  intro g hg
  obtain ⟨q, hq, hown, hf⟩ := h.placed g hg
  have hne : q.owner ≠ p.owner := by
    intro he
    have hzero := h.counts p (List.mem_of_getElem? hk) g.exclusive
    rw [hs, guardsOf, List.countP_eq_zero] at hzero
    exact hzero g hg (by simp [← hown, he])
  rcases (mem_iff_eraseIdx hk q).mp hq with rfl | hq
  · exact absurd rfl hne
  · exact ⟨q, hq, hown, hf⟩

theorem GuardCount.set (h : GuardCount pins guards) (hn : (pins.map Pin.owner).Nodup) (hk : pins[k]? = some p)
    {stage : Stage} {guards' : List (Hold T α)} (hs : ∀ b, guardsOf guards' p.owner b = stage.guards b)
    (ho : ∀ a ≠ p.owner, ∀ b, guardsOf guards' a b = guardsOf guards a b)
    (hp : ∀ g ∈ guards', g ∈ guards ∨ g.handle = p.owner ∧ g.frame = p.frame) :
    GuardCount (pins.set k { p with stage := stage }) guards' := by
  refine ⟨?_, ?_⟩
  · intro q hq b
    rcases (mem_set_iff hk _ q).mp hq with rfl | hq
    · exact hs b
    · rw [ho _ (not_mem_eraseIdx hn hk hq)]
      exact h.counts q (List.mem_of_mem_eraseIdx hq) b
  · intro g hg
    rcases hp g hg with hg | ⟨hown, hf⟩
    · obtain ⟨q, hq, hown, hf⟩ := h.placed g hg
      rcases (mem_iff_eraseIdx hk q).mp hq with rfl | hq
      · exact ⟨_, (mem_set_iff hk _ _).mpr (.inl rfl), hown, hf⟩
      · exact ⟨q, (mem_set_iff hk _ q).mpr (.inr hq), hown, hf⟩
    · exact ⟨_, (mem_set_iff hk _ _).mpr (.inl rfl), hown.symm, hf.symm⟩

theorem GuardCount.keep (h : GuardCount pins guards) (hn : (pins.map Pin.owner).Nodup) (hk : pins[k]? = some p)
    {stage : Stage} (hs : ∀ b, stage.guards b = p.stage.guards b) :
    GuardCount (pins.set k { p with stage := stage }) guards := by
  apply h.set hn hk
  · intro b
    rw [hs]
    exact h.counts p (List.mem_of_getElem? hk) b
  · exact fun _ _ _ => rfl
  · exact fun g hg => .inl hg

theorem guardsOf_cons (g : Hold T α) (a : α) (b : Bool) :
    guardsOf (g :: guards) a b = guardsOf guards a b + if g.handle = a ∧ g.exclusive = b then 1 else 0 := by
  simp only [guardsOf, List.countP_cons, decide_eq_true_eq]

theorem GuardCount.lock (h : GuardCount pins guards) (hn : (pins.map Pin.owner).Nodup) (hk : pins[k]? = some p)
    {stage : Stage} (t : T) {b : Bool} (hs : ∀ c, stage.guards c = p.stage.guards c + if c = b then 1 else 0) :
    GuardCount (pins.set k { p with stage := stage }) (⟨t, p.owner, p.frame, b⟩ :: guards) := by
  apply h.set hn hk
  · intro c
    rw [guardsOf_cons, hs, h.counts p (List.mem_of_getElem? hk)]
    simp only [true_and, eq_comm]
  · intro a ha c
    rw [guardsOf_cons, if_neg (fun he => ha he.1.symm), Nat.add_zero]
  · intro g hg
    rcases List.mem_cons.mp hg with rfl | hg
    · exact .inr ⟨rfl, rfl⟩
    · exact .inl hg

theorem GuardCount.unlock (h : GuardCount pins guards) (hn : (pins.map Pin.owner).Nodup) (hk : pins[k]? = some p)
    {stage : Stage} {g : Hold T α} {rest : List (Hold T α)} (hperm : guards.Perm (g :: rest))
    (hg : g.handle = p.owner)
    (hs : ∀ c, p.stage.guards c = stage.guards c + if c = g.exclusive then 1 else 0) :
    GuardCount (pins.set k { p with stage := stage }) rest := by
  have hcount : ∀ a c, guardsOf guards a c =
      guardsOf rest a c + if g.handle = a ∧ g.exclusive = c then 1 else 0 := by
    intro a c
    rw [← guardsOf_cons]
    exact hperm.countP_eq _
  apply h.set hn hk
  · intro c
    have hp := h.counts p (List.mem_of_getElem? hk) c
    rw [hcount, hs] at hp
    simp only [hg, true_and, eq_comm] at hp
    omega
  · intro a ha c
    rw [hcount, if_neg (fun he => ha (he.1.symm.trans hg)), Nat.add_zero]
  · intro x hx
    exact .inl (hperm.mem_iff.mpr (List.mem_cons_of_mem _ hx))

end GuardCount

end OxenDB
