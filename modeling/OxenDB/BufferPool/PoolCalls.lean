import OxenDB.BufferPool.CallSteps

namespace OxenDB

variable {α : Type}

def Action.starts : Action α → Option (Activity α)
  | .fetch owner id _ => some ⟨owner, id, .fetch⟩
  | .install owner id page => some ⟨owner, id, .install page⟩
  | .flush owner id => some ⟨owner, id, .flush⟩
  | _ => none

def Action.wr : Action α → WriteResult
  | .resume _ wr _ => wr
  | .work _ _ wr => wr
  | _ => .ok

def Action.rd : Action α → Bool
  | .fetch _ _ rd => rd
  | .resume _ _ rd => rd
  | _ => true

def Action.Edits : Action α → Prop
  | .guard _ _ g => g.Edits
  | _ => False

namespace BufferPool

variable {p p' : BufferPool α} {i : ℕ} {sh : Shard α}

def activities (p : BufferPool α) : List (Activity α) := p.shards.flatMap Shard.activities

def Exhausted (p : BufferPool α) (a : Action α) : Prop :=
  ∃ x sh, a.starts = some x ∧ p.shards[p.shardFor x.id]? = some sh ∧ sh.AllPinned

theorem flatMap_set {β γ : Type} (f : β → List γ) (l : List β) (i : ℕ) {x : β} (hi : l[i]? = some x) :
    ∃ rest, (l.flatMap f).Perm (f x ++ rest) ∧ ∀ y, ((l.set i y).flatMap f).Perm (f y ++ rest) := by
  induction l generalizing i with
  | nil => cases hi
  | cons z l ih =>
    cases i with
    | zero =>
      injection hi with hi
      subst hi
      exact ⟨l.flatMap f, .of_eq List.flatMap_cons, fun y => .of_eq List.flatMap_cons⟩
    | succ i =>
      obtain ⟨rest, h, h'⟩ := ih i hi
      have hswap : ∀ w, (f z ++ (f w ++ rest)).Perm (f w ++ (f z ++ rest)) := by
        intro w
        rw [← List.append_assoc, ← List.append_assoc]
        exact List.perm_append_comm.append_right rest
      refine ⟨f z ++ rest, ?_, fun y => ?_⟩
      · rw [List.flatMap_cons]
        exact (h.append_left _).trans (hswap x)
      · rw [List.set_cons_succ, List.flatMap_cons]
        exact ((h' y).append_left _).trans (hswap y)

theorem calls_of_shard {c c' : Cache} {wr : WriteResult} {rd : Bool} {exhausted edits : Prop}
    {x : Option (Activity α)} {o : Outcome α} (hi : p.shards[i]? = some sh)
    (h : CallStep c c' wr rd exhausted edits x o.label sh.activities o.shard.activities) :
    CallStep c c' wr rd exhausted edits x o.label p.activities
      (BufferPool.activities ⟨p.shards.set i o.shard, o.disk⟩) := by
  obtain ⟨rest, hp, hp'⟩ := flatMap_set Shard.activities p.shards i hi
  exact (h.append rest).perm hp (hp' o.shard)

theorem sees (hi : p.shards[i]? = some sh) :
    p.cache.Sees (fun id => p.shardFor id = i) p.disk sh :=
  ⟨rfl, fun _ hid => cached_of_shard hi hid⟩

theorem sees_set (hi : p.shards[i]? = some sh) (o : Outcome α) :
    (BufferPool.cache ⟨p.shards.set i o.shard, o.disk⟩).Sees (fun id => p.shardFor id = i)
      o.disk o.shard := by
  have hlt : i < p.shards.length := (List.getElem?_eq_some_iff.mp hi).1
  refine ⟨rfl, fun id hid => cached_of_shard (List.getElem?_set_self hlt) ?_⟩
  exact (shardFor_congr List.length_set id).trans hid

variable [DecidableEq α]

theorem idle_iff {owner : α} : p.idle owner = true ↔ owner ∉ p.activities.map Activity.owner := by
  simp only [idle, activities, List.all_eq_true, List.mem_map, List.mem_flatMap, not_exists, not_and,
    decide_eq_true_eq]
  constructor
  · rintro h x ⟨sh, hsh, hx⟩
    exact h sh hsh x hx
  · intro h sh hsh x hx
    exact h x ⟨sh, hsh, hx⟩

theorem step_fresh {a : Action α} {r : BufferPool α × Label α} (hs : p.step a = some r)
    {x : Activity α} (hx : a.starts = some x) : x.owner ∉ p.activities.map Activity.owner := by
  rw [← idle_iff]
  cases a with
  | fetch owner id rd =>
    injection hx with hx
    subst hx
    simp only [step] at hs
    split_ifs at hs with hi
    exact hi
  | install owner id page =>
    injection hx with hx
    subst hx
    simp only [step] at hs
    split_ifs at hs with hi
    · exact hi
    · exact hi
  | flush owner id =>
    injection hx with hx
    subst hx
    simp only [step] at hs
    split_ifs at hs with hi
    exact hi
  | _ => cases hx

theorem step_calls {a : Action α} {label : Label α} (h : p.Inv) (hs : p.step a = some (p', label)) :
    CallStep p.cache p'.cache a.wr a.rd (p.Exhausted a) a.Edits a.starts label p.activities p'.activities := by
  have hex : ∀ {x : Activity α} {sh : Shard α}, p.shards[p.shardFor x.id]? = some sh →
      a.starts = some x → sh.AllPinned → p.Exhausted a :=
    fun {x sh} hsh hx hall => ⟨x, sh, hx, hsh, hall⟩
  cases a with
  | fetch owner id rd =>
    simp only [step] at hs
    split_ifs at hs
    obtain ⟨sh, hl, hs⟩ := Option.map_eq_some_iff.mp hs
    obtain ⟨hi, hh⟩ := lockState_some hl
    cases hs
    exact (calls_of_shard (o := ⟨_, _, _⟩) hi
      (Shard.fetchPage_calls (h.shards _ _ hi) hh (sees hi) rfl owner rfl)).mono (hex (x := ⟨owner, id, .fetch⟩) hi rfl)
  | install owner id page =>
    simp only [step] at hs
    split_ifs at hs with _ hne
    · cases hs
      exact .refuse ⟨rfl, rfl, rfl⟩ trivial rfl (.misnamed _ rfl hne) (List.Perm.refl _)
    · obtain ⟨sh, hl, hs⟩ := Option.map_eq_some_iff.mp hs
      obtain ⟨hi, hh⟩ := lockState_some hl
      cases hs
      exact (calls_of_shard (o := ⟨_, _, _⟩) hi
        (Shard.installPage_calls (h.shards _ _ hi) hh owner id page)).mono
          (hex (x := ⟨owner, id, .install page⟩) hi rfl)
  | flush owner id =>
    simp only [step] at hs
    split_ifs at hs
    obtain ⟨sh, hl, hs⟩ := Option.map_eq_some_iff.mp hs
    obtain ⟨hi, hh⟩ := lockState_some hl
    cases hs
    exact (calls_of_shard (o := ⟨_, _, _⟩) hi
      (Shard.flushPage_calls hh (sees hi) owner rfl)).mono (hex (x := ⟨owner, id, .flush⟩) hi rfl)
  | resume i wr rd =>
    obtain ⟨o, hb, ho⟩ := Option.map_eq_some_iff.mp hs
    obtain ⟨sh, hi, hr⟩ := Option.bind_eq_some_iff.mp hb
    cases ho
    exact (calls_of_shard hi (Shard.resume_calls (h.shards _ _ hi) (sees hi) hr rfl)).mono False.elim
  | work i k wr =>
    obtain ⟨o, hb, ho⟩ := Option.map_eq_some_iff.mp hs
    obtain ⟨sh, hi, hr⟩ := Option.bind_eq_some_iff.mp hb
    cases ho
    exact (calls_of_shard hi (Shard.work_calls (h.shards _ _ hi) (sees hi) hr (sees_set hi o))).mono
      False.elim
  | guard i k g =>
    obtain ⟨r, hb, hr⟩ := Option.map_eq_some_iff.mp hs
    obtain ⟨sh, hi, hg⟩ := Option.bind_eq_some_iff.mp hb
    cases hr
    exact (calls_of_shard (o := ⟨_, _, _⟩) hi
      (Shard.guard_calls (h.shards _ _ hi) (sees hi) hg)).mono False.elim
  | unpin i k =>
    obtain ⟨r, hb, hr⟩ := Option.map_eq_some_iff.mp hs
    obtain ⟨sh, hl, hu⟩ := Option.bind_eq_some_iff.mp hb
    obtain ⟨hi, -⟩ := lockState_some hl
    cases hr
    exact (calls_of_shard (o := ⟨_, _, _⟩) hi (Shard.unpin_calls hu)).mono False.elim
  | sync ev =>
    cases hs
    exact .idle ⟨rfl, rfl, rfl⟩ rfl (List.Perm.refl _)

theorem step_unique {a : Action α} {label : Label α} (h : p.Inv) (hu : Unique p.activities)
    (hs : p.step a = some (p', label)) : Unique p'.activities :=
  (step_calls h hs).unique hu (fun _ hx => step_fresh hs hx)

end BufferPool

end OxenDB
