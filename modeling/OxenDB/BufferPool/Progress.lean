import OxenDB.BufferPool.PoolCalls
import OxenDB.BufferPool.Sharding

namespace OxenDB

variable {α : Type}

theorem sum_map_set {β : Type} (f : β → ℕ) {l : List β} {i : ℕ} {x : β} (hi : l[i]? = some x) (y : β) :
    ((l.set i y).map f).sum + f x = (l.map f).sum + f y := by
  obtain ⟨hlt, rfl⟩ := List.getElem?_eq_some_iff.mp hi
  have hset := ((List.set_perm_cons_eraseIdx hlt y).map f).sum_eq
  have hget := ((List.getElem_cons_eraseIdx_perm hlt).map f).sum_eq
  rw [List.map_cons, List.sum_cons] at hset hget
  omega

def Action.Finishes : Action α → Prop
  | .resume .. => True
  | .work .. => True
  | .guard _ _ .unlockRead => True
  | .unpin .. => True
  | _ => False

inductive Shard.Moves (sh : Shard α) : Action α → Shard α → Prop
  | fetch {owner : α} {id : PageId} {rd : Bool} {sh' : Shard α} : sh.held = none →
      Opened sh owner id (.handle 0 false) sh' → Moves sh (.fetch owner id rd) sh'
  | install {owner : α} {id : PageId} {page : Page} {sh' : Shard α} : sh.held = none →
      Opened sh owner id (.install page) sh' → Moves sh (.install owner id page) sh'
  | flush {owner : α} {id : PageId} {sh' : Shard α} : sh.held = none →
      Opened sh owner id .flush sh' → Moves sh (.flush owner id) sh'
  | resume {i : ℕ} {wr : WriteResult} {rd : Bool} {s : Section α} {sh' : Shard α} : sh.held = some s →
      Resumed sh s sh' → Moves sh (.resume i wr rd) sh'
  | work {i k : ℕ} {wr : WriteResult} {p : Pin α} {x : Frame} {result : Except Error Unit} :
      sh.pins[k]? = some p → p.stage.Calls → (∀ e, result = .error e → p.stage = .flush) →
      Moves sh (.work i k wr) { sh.setStage k p (.drop result) with frames := sh.frames.set p.frame x }
  | lockRead {i k reads : ℕ} {writing : Bool} {p : Pin α} : sh.pins[k]? = some p →
      p.stage = .handle reads writing →
      Moves sh (.guard i k .lockRead) (sh.setStage k p (.handle (reads + 1) writing))
  | unlockRead {i k reads : ℕ} {writing : Bool} {p : Pin α} : sh.pins[k]? = some p →
      p.stage = .handle (reads + 1) writing →
      Moves sh (.guard i k .unlockRead) (sh.setStage k p (.handle reads writing))
  | read {i k : ℕ} : Moves sh (.guard i k .read) sh
  | edit {i k : ℕ} {g : Shard.Guard} {sh' : Shard α} : g.Edits →
      (∀ q ∈ sh'.pins, q ∈ sh.pins ∨ ∃ reads writing, q.stage = .handle reads writing) →
      Moves sh (.guard i k g) sh'
  | unpin {i k : ℕ} {p : Pin α} : sh.held = none → sh.pins[k]? = some p → ¬ p.stage.Calls →
      Moves sh (.unpin i k) { sh with state := sh.state.unpin p.frame, pins := sh.pins.eraseIdx k }

namespace Shard

variable {mine : PageId → Prop} {sh sh' : Shard α} {k : ℕ}

theorem work_moves {disk : DiskManager} {wr : WriteResult} {o : Outcome α} (i : ℕ)
    (hw : sh.work disk k wr = some o) : sh.Moves (.work i k wr) o.shard := by
  rw [work.eq_def] at hw
  cases hk : sh.pins[k]? with
  | none => rw [hk] at hw; cases hw
  | some p =>
    simp only [hk] at hw
    split_ifs at hw
    cases hs : p.stage with
    | handle r w => rw [hs] at hw; cases hw
    | drop result => rw [hs] at hw; cases hw
    | install page =>
      rw [hs] at hw
      injection hw with hw
      subst hw
      exact .work hk (by rw [hs]; trivial) (by rintro e ⟨⟩)
    | flush =>
      rw [hs] at hw
      injection hw with hw
      subst hw
      exact .work hk (by rw [hs]; trivial) (fun _ _ => hs)

theorem guard_moves {g : Guard} {r : Shard α × Label α} (i : ℕ) (hg : sh.guard k g = some r) :
    sh.Moves (.guard i k g) r.1 := by
  obtain ⟨p, reads, writing, hk, hs⟩ := guard_stage hg
  cases g with
  | lockRead =>
    simp only [guard, hk, hs] at hg
    split_ifs at hg
    injection hg with hg
    subst hg
    exact .lockRead hk hs
  | unlockRead =>
    simp only [guard, hk, hs] at hg
    split_ifs at hg with hr
    obtain ⟨n, rfl⟩ := Nat.exists_eq_add_of_lt hr
    injection hg with hg
    subst hg
    rw [Nat.zero_add] at hs ⊢
    exact .unlockRead hk hs
  | read =>
    rw [guard_read hg]
    exact .read
  | write =>
    obtain ⟨frames, hr, -⟩ := guard_write hg
    rw [hr]
    exact .edit trivial (fun q hq => .inl hq)
  | lockWrite | unlockWrite =>
    simp only [guard, hk, hs] at hg
    split_ifs at hg
    injection hg with hg
    subst hg
    refine .edit trivial (fun q hq => ?_)
    rcases List.mem_or_eq_of_mem_set hq with hq | rfl
    · exact .inl hq
    · exact .inr ⟨_, _, rfl⟩

end Shard

namespace BufferPool

variable {p p' : BufferPool α} {a : Action α} {label : Label α}

theorem Inv.kept (h : p.Inv) : p.Kept := ⟨h.nonempty, fun i sh hi => (h.shards i sh hi).toKept⟩

variable [DecidableEq α]

theorem step_moves (h : p.Kept) (hs : p.step a = some (p', label)) : (p'.shards = p.shards ∧ ¬ a.Finishes) ∨
    ∃ i sh sh', p.shards[i]? = some sh ∧ p'.shards = p.shards.set i sh' ∧ sh.Moves a sh' := by
  cases a with
  | fetch owner id rd =>
    simp only [BufferPool.step] at hs
    split_ifs at hs
    obtain ⟨sh, hl, hs⟩ := Option.map_eq_some_iff.mp hs
    obtain ⟨hi, hh⟩ := lockState_some hl
    cases hs
    exact .inr ⟨_, _, _, hi, rfl, .fetch hh (Shard.fetchPage_opened (h.shards _ _ hi) hh _ _ _ _)⟩
  | install owner id page =>
    simp only [BufferPool.step] at hs
    split_ifs at hs
    · cases hs
      exact .inl ⟨rfl, fun hf => hf⟩
    · obtain ⟨sh, hl, hs⟩ := Option.map_eq_some_iff.mp hs
      obtain ⟨hi, hh⟩ := lockState_some hl
      cases hs
      exact .inr ⟨_, _, _, hi, rfl, .install hh (Shard.installPage_opened (h.shards _ _ hi) hh _ _ _)⟩
  | flush owner id =>
    simp only [BufferPool.step] at hs
    split_ifs at hs
    obtain ⟨sh, hl, hs⟩ := Option.map_eq_some_iff.mp hs
    obtain ⟨hi, hh⟩ := lockState_some hl
    cases hs
    exact .inr ⟨_, _, _, hi, rfl, .flush hh (Shard.flushPage_opened _ _)⟩
  | resume i wr rd =>
    obtain ⟨o, hb, ho⟩ := Option.map_eq_some_iff.mp hs
    obtain ⟨sh, hi, hr⟩ := Option.bind_eq_some_iff.mp hb
    cases ho
    cases hh : sh.held with
    | none =>
      rw [Shard.resume.eq_def, hh] at hr
      cases hr
    | some s => exact .inr ⟨_, _, _, hi, rfl, .resume hh (Shard.resume_resumed hh hr)⟩
  | work i k wr =>
    obtain ⟨o, hb, ho⟩ := Option.map_eq_some_iff.mp hs
    obtain ⟨sh, hi, hw⟩ := Option.bind_eq_some_iff.mp hb
    cases ho
    exact .inr ⟨_, _, _, hi, rfl, Shard.work_moves i hw⟩
  | guard i k g =>
    obtain ⟨r, hb, hr⟩ := Option.map_eq_some_iff.mp hs
    obtain ⟨sh, hi, hg⟩ := Option.bind_eq_some_iff.mp hb
    cases hr
    exact .inr ⟨_, _, _, hi, rfl, Shard.guard_moves i hg⟩
  | unpin i k =>
    obtain ⟨r, hb, hr⟩ := Option.map_eq_some_iff.mp hs
    obtain ⟨sh, hl, hu⟩ := Option.bind_eq_some_iff.mp hb
    obtain ⟨hi, hh⟩ := lockState_some hl
    cases hr
    cases hk : sh.pins[k]? with
    | none =>
      rw [Shard.unpin.eq_def, hk] at hu
      cases hu
    | some p =>
      obtain ⟨hr, hc, -⟩ := Shard.unpin_inv hk hu
      refine .inr ⟨_, _, _, hi, rfl, ?_⟩
      rw [hr]
      exact .unpin hh hk hc
  | sync ev =>
    cases hs
    exact .inl ⟨rfl, id⟩

end BufferPool

def Section.turns : Section α → ℕ
  | .evict .. => 3
  | .fill .. => 2

def Stage.turns : Stage → ℕ
  | .handle reads _ => reads + 1
  | .install _ => 2
  | .flush => 2
  | .drop _ => 1

def Shard.turns (sh : Shard α) : ℕ :=
  (sh.held.toList.map Section.turns).sum + (sh.pins.map (fun p => p.stage.turns)).sum

def BufferPool.turns (p : BufferPool α) : ℕ := (p.shards.map Shard.turns).sum

def Stage.ReadOnly : Stage → Prop
  | .handle _ writing => writing = false
  | _ => True

def BufferPool.ReadOnly (p : BufferPool α) : Prop := ∀ sh ∈ p.shards, ∀ q ∈ sh.pins, q.stage.ReadOnly

namespace Shard

variable {sh sh' : Shard α} {a : Action α} {k : ℕ} {q : Pin α}

theorem turns_free (hh : sh.held = none) : sh.turns = (sh.pins.map (fun p => p.stage.turns)).sum := by
  rw [turns, hh]
  exact Nat.zero_add _

theorem turns_held {s : Section α} (hh : sh.held = some s) :
    sh.turns = s.turns + (sh.pins.map (fun p => p.stage.turns)).sum := by
  rw [turns, hh]
  rfl

theorem turns_setStage (hk : sh.pins[k]? = some q) (stage : Stage) (frames : List Frame) :
    Shard.turns { sh.setStage k q stage with frames := frames } + q.stage.turns =
      sh.turns + stage.turns := by
  have hset := sum_map_set (fun p : Pin α => p.stage.turns) hk { q with stage := stage }
  simp only [turns, setStage] at hset ⊢
  omega

theorem Opened.turns {owner : α} {id : PageId} {stage : Stage} (h : Opened sh owner id stage sh')
    (hh : sh.held = none) (hs : stage.turns ≤ 3) : sh'.turns ≤ sh.turns + 3 := by
  cases h with
  | returned => exact Nat.le_add_right _ _
  | pinned =>
    simp only [Shard.turns, List.map_cons, List.sum_cons]
    omega
  | evict | take =>
    rw [turns_free hh, turns_held rfl]
    simp only [Section.turns]
    omega

theorem Resumed.turns {s : Section α} (h : Resumed sh s sh') (hh : sh.held = some s) :
    sh'.turns < sh.turns := by
  rw [turns_held hh]
  cases h with
  | failed | unread | installed =>
    rw [turns_free rfl]
    simp only [Section.turns]
    omega
  | evicted =>
    rw [turns_held rfl]
    simp only [Section.turns]
    omega
  | loaded =>
    rw [turns_free rfl]
    simp only [Section.turns, List.map_cons, List.sum_cons, Stage.turns]
    omega

theorem Moves.turns_lt (h : sh.Moves a sh') (ha : a.Finishes) : sh'.turns < sh.turns := by
  cases h with
  | fetch | install | flush | lockRead | read => exact absurd ha id
  | resume hh hr => exact hr.turns hh
  | @work _ k _ q x result hk hc =>
    have hset := turns_setStage hk (.drop result) (sh.frames.set q.frame x)
    cases hs : q.stage with
    | install | flush =>
      rw [hs] at hset
      change _ + 2 = _ + 1 at hset
      omega
    | handle | drop =>
      rw [hs] at hc
      exact absurd hc id
  | @unlockRead _ k reads writing q hk hs =>
    have hset := turns_setStage hk (.handle reads writing) sh.frames
    rw [hs] at hset
    simp only [Stage.turns] at hset
    change (sh.setStage k q _).turns + _ = _ at hset
    omega
  | @edit _ _ g _ hg => cases g <;> first | exact absurd hg id | exact absurd ha id
  | @unpin _ k q hh hk hc =>
    obtain ⟨hlt, rfl⟩ := List.getElem?_eq_some_iff.mp hk
    have hsum := ((List.getElem_cons_eraseIdx_perm hlt).map (fun p : Pin α => p.stage.turns)).sum_eq
    have hpos : 0 < (sh.pins[k]).stage.turns := by
      cases (sh.pins[k]).stage <;> exact Nat.succ_pos _
    rw [List.map_cons, List.sum_cons] at hsum
    simp only [Shard.turns]
    omega

theorem Moves.turns_le {x : Activity α} (h : sh.Moves a sh') (ha : a.starts = some x) :
    sh'.turns ≤ sh.turns + 3 := by
  cases h with
  | fetch hh ho => exact ho.turns hh (by decide)
  | install hh ho => exact ho.turns hh (Nat.le_succ 2)
  | flush hh ho => exact ho.turns hh (by decide)
  | resume | work | lockRead | unlockRead | read | edit | unpin => cases ha

theorem Moves.readOnly (h : sh.Moves a sh') (ha : ¬ a.Edits) (hr : ∀ q ∈ sh.pins, q.stage.ReadOnly) :
    ∀ q ∈ sh'.pins, q.stage.ReadOnly := by
  have hopened : ∀ {owner id stage}, Opened sh owner id stage sh' → stage.ReadOnly →
      ∀ q ∈ sh'.pins, q.stage.ReadOnly := by
    intro owner id stage ho hs
    cases ho with
    | returned | evict | take => exact hr
    | pinned => exact List.forall_mem_cons.mpr ⟨hs, hr⟩
  have hset : ∀ {k : ℕ} {q : Pin α} {stage : Stage}, stage.ReadOnly →
      ∀ q' ∈ sh.pins.set k { q with stage := stage }, q'.stage.ReadOnly := by
    intro k q stage hs q' hq'
    rcases List.mem_or_eq_of_mem_set hq' with hq' | rfl
    · exact hr q' hq'
    · exact hs
  cases h with
  | fetch _ ho => exact hopened ho rfl
  | install _ ho => exact hopened ho trivial
  | flush _ ho => exact hopened ho trivial
  | resume _ hres =>
    cases hres with
    | failed | evicted | unread | installed => exact hr
    | loaded => exact List.forall_mem_cons.mpr ⟨rfl, hr⟩
  | work => exact hset trivial
  | lockRead hk hs | unlockRead hk hs =>
    have hq := hr _ (List.mem_of_getElem? hk)
    rw [hs] at hq
    exact hset hq
  | read => exact hr
  | edit hg => exact absurd hg ha
  | unpin => exact fun q hq => hr q (List.mem_of_mem_eraseIdx hq)

theorem exists_turn (hact : sh.activities ≠ []) (hr : ∀ q ∈ sh.pins, q.stage.ReadOnly) (disk : DiskManager) :
    (∃ o, sh.resume disk .ok true = some o) ∨ (∃ k o, sh.work disk k .ok = some o) ∨
      (∃ k r, sh.guard k .unlockRead = some r) ∨ (sh.held = none ∧ ∃ k r, sh.unpin k = some r) := by
  cases hh : sh.held with
  | some s => exact .inl (exists_resume sh hh disk .ok true)
  | none =>
    rw [activities_free hh, ne_eq, List.map_eq_nil_iff] at hact
    by_cases hg : ∃ q ∈ sh.pins, ∃ reads writing, q.stage = .handle (reads + 1) writing
    · obtain ⟨q, hq, reads, writing, hs⟩ := hg
      obtain ⟨k, hk⟩ := List.mem_iff_getElem?.mp hq
      refine .inr (.inr (.inl ⟨k, (sh.setStage k q (.handle reads writing), { }), ?_⟩))
      simp only [guard, hk, hs]
      rw [if_pos (Nat.succ_pos _)]
      rfl
    · -- No guard is left, so every frame lock is free.
      have hnone : ∀ q ∈ sh.pins, ∀ reads writing, q.stage = .handle reads writing →
          reads = 0 ∧ writing = false := by
        intro q hq reads writing hs
        have hro := hr q hq
        rw [hs] at hro
        refine ⟨?_, hro⟩
        by_contra hne
        obtain ⟨n, rfl⟩ := Nat.exists_eq_succ_of_ne_zero hne
        exact hg ⟨q, hq, n, writing, hs⟩
      have hfree : ∀ f, sh.unlocked f = true := by
        intro f
        refine List.all_eq_true.mpr (fun q hq => ?_)
        cases hs : q.stage with
        | handle reads writing =>
          obtain ⟨rfl, rfl⟩ := hnone q hq reads writing hs
          simp
        | install | flush | drop => rfl
      obtain ⟨q, rest, hpins⟩ := List.exists_cons_of_ne_nil hact
      have hk : sh.pins[0]? = some q := by rw [hpins]; rfl
      cases hs : q.stage with
      | handle reads writing =>
        obtain ⟨rfl, rfl⟩ := hnone q (List.mem_of_getElem? hk) reads writing hs
        exact .inr (.inr (.inr ⟨rfl, 0, _, by simp only [unpin, hk, hs]; rfl⟩))
      | drop result => exact .inr (.inr (.inr ⟨rfl, 0, _, by simp only [unpin, hk, hs]; rfl⟩))
      | install page =>
        exact .inr (.inl ⟨0, _, by simp only [work, hk, hs, if_pos (hfree q.frame)]; rfl⟩)
      | flush => exact .inr (.inl ⟨0, _, by simp only [work, hk, hs, if_pos (hfree q.frame)]; rfl⟩)

end Shard

namespace BufferPool

variable {p p' : BufferPool α} {a : Action α} {label : Label α}

theorem turns_set {i : ℕ} {sh sh' : Shard α} (hi : p.shards[i]? = some sh) (hp : p'.shards = p.shards.set i sh') :
    p'.turns + sh.turns = p.turns + sh'.turns := by
  rw [turns, hp]
  exact sum_map_set Shard.turns hi sh'

variable [DecidableEq α]

theorem step_turns_lt (h : p.Kept) (ha : a.Finishes) (hs : p.step a = some (p', label)) :
    p'.turns < p.turns := by
  rcases step_moves h hs with ⟨-, hn⟩ | ⟨i, sh, sh', hi, hp, hm⟩
  · exact absurd ha hn
  · have hset := turns_set hi hp
    have hlt := hm.turns_lt ha
    omega

theorem step_turns_le (h : p.Kept) {x : Activity α} (ha : a.starts = some x)
    (hs : p.step a = some (p', label)) : p'.turns ≤ p.turns + 3 := by
  rcases step_moves h hs with ⟨hp, -⟩ | ⟨i, sh, sh', hi, hp, hm⟩
  · rw [turns, hp]
    exact Nat.le_add_right _ _
  · have hset := turns_set hi hp
    have hle := hm.turns_le ha
    omega

theorem ReadOnly.step (hr : p.ReadOnly) (h : p.Kept) (ha : ¬ a.Edits) (hs : BufferPool.step p a = some (p', label)) :
    p'.ReadOnly := by
  rcases step_moves h hs with ⟨hp, -⟩ | ⟨i, sh, sh', hi, hp, hm⟩
  · rw [ReadOnly, hp]
    exact hr
  · intro sh₁ hsh₁
    rw [hp] at hsh₁
    rcases List.mem_or_eq_of_mem_set hsh₁ with hsh₁ | rfl
    · exact hr sh₁ hsh₁
    · exact hm.readOnly ha (hr sh (List.mem_of_getElem? hi))

theorem exists_finish (hr : p.ReadOnly) (hact : p.activities ≠ []) :
    ∃ a r, a.Finishes ∧ p.step a = some r := by
  obtain ⟨x, hx⟩ := List.exists_mem_of_ne_nil _ hact
  obtain ⟨sh, hsh, hx⟩ := List.mem_flatMap.mp hx
  obtain ⟨i, hi⟩ := List.mem_iff_getElem?.mp hsh
  rcases Shard.exists_turn (List.ne_nil_of_mem hx) (hr sh hsh) p.disk with
    ⟨o, ho⟩ | ⟨k, o, ho⟩ | ⟨k, r, hg⟩ | ⟨hh, k, r, hu⟩
  · exact ⟨.resume i .ok true, _, trivial, by simp only [step, hi, Option.bind_some, ho, Option.map_some]; rfl⟩
  · exact ⟨.work i k .ok, _, trivial, by simp only [step, hi, Option.bind_some, ho, Option.map_some]; rfl⟩
  · exact ⟨.guard i k .unlockRead, _, trivial, by simp only [step, hi, Option.bind_some, hg, Option.map_some]; rfl⟩
  · have hl : p.lockState i = some sh := by
      rw [lockState, hi, Option.filter_some, hh]
      rfl
    exact ⟨.unpin i k, _, trivial, by simp only [step, hl, Option.bind_some, hu, Option.map_some]; rfl⟩

end BufferPool

end OxenDB
