import OxenDB.BufferPool.Coherence
import OxenDB.BufferPool.Views

namespace OxenDB

open Lib

inductive FlushEvent (α : Type)
  | call (label : Label α)
  | fsync (ev : SyncEvent)

def DataFile.fsynced (f : DataFile) (covers : PageId → Bool) : DataFile :=
  { f with slots := fun id => if covers id ∧ f.slots id ≠ .lost then .synced else f.slots id }

/-- A failed fsync may drop whatever was not under one yet, also what others have written. -/
def DataFile.fsyncFailed (f : DataFile) : DataFile :=
  { f with slots := fun id => if f.slots id = .synced then .synced else .lost }

def uncover (covers : PageId → Bool) : Option (PageId × Page) → PageId → Bool
  | none => covers
  | some (id, _) => Function.update covers id false

/-- A pool whose threads fsync its file, several at a time. An fsync in progress covers the pages that
were not written to since it began. -/
structure Shared (α : Type) (κ : Type := ℕ) where
  pool : BufferPool α κ
  syncs : List (PageId → Bool)

namespace Shared

variable {α κ : Type}

def setFile (s : Shared α κ) (file : DataFile) (syncs : List (PageId → Bool)) : Shared α κ :=
  ⟨{ s.pool with disk := { s.pool.disk with file := file } }, syncs⟩

def after (s : Shared α κ) (pool : BufferPool α κ) (label : Label α) : Shared α κ :=
  ⟨pool, s.syncs.map (uncover · label.written)⟩

inductive Step [DecidableEq α] [OfNat κ 0] [OfNat κ 1] [Add κ] [Sub κ] [LT κ] [DecidableLT κ]
    (may : Action α → Prop) : Shared α κ → FlushEvent α → Shared α κ → Prop
  | turn {s : Shared α κ} {a : Action α} {pool : BufferPool α κ} {label : Label α} :
      may a → (∀ ev, a ≠ .sync ev) → s.pool.step a = some (pool, label) →
      Step may s (.call label) (s.after pool label)
  | syncStart {s : Shared α κ} : Step may s (.fsync .start) { s with syncs := (fun _ => true) :: s.syncs }
  | synced {s : Shared α κ} {k : ℕ} {covers : PageId → Bool} : s.syncs[k]? = some covers →
      Step may s (.fsync .finish) (s.setFile (s.pool.disk.file.fsynced covers) (s.syncs.eraseIdx k))
  | syncFailed {s : Shared α κ} {k : ℕ} {covers : PageId → Bool} : s.syncs[k]? = some covers →
      Step may s (.fsync .fail) (s.setFile s.pool.disk.file.fsyncFailed (s.syncs.eraseIdx k))

def Bounded (s : Shared α κ) (_ : FlushEvent α) : Prop := s.pool.FewPins

end Shared

/-- Where a `flush_all` stands: before the snapshot of shard `i`, with the ids left of it, or at the
fsync. -/
inductive FlushAt
  | shard (i : ℕ) (todo : Option (List PageId))
  | sync
  | syncing (covers : PageId → Bool)
  | returned (result : Except Error Unit)

def FlushAt.after {α : Type} [DecidableEq α] (me : α) : FlushAt → FlushEvent α → FlushAt
  | .shard i todo, .call label =>
    match label.returned with
    | none => .shard i todo
    | some (owner, _, result) =>
      if owner = me then
        match afterFlush todo result with
        | .ok todo => .shard i todo
        | .error e => .returned (.error e)
      else .shard i todo
  | .syncing covers, .call label => .syncing (uncover covers label.written)
  | stage, _ => stage

structure FlushAll (α : Type) (κ : Type := ℕ) where
  shared : Shared α κ
  stage : FlushAt

namespace FlushAll

variable {α κ : Type}

def Others (me : α) (a : Action α) : Prop := ∀ x, a.starts = some x → x.owner ≠ me

inductive Step [DecidableEq α] [OfNat κ 0] [OfNat κ 1] [Add κ] [Sub κ] [LT κ] [DecidableLT κ]
    (me : α) : FlushAll α κ → FlushEvent α → FlushAll α κ → Prop
  -- A call or an fsync of another thread, or the next turn of any call.
  | other {s : FlushAll α κ} {e : FlushEvent α} {shared : Shared α κ} : s.shared.Step (Others me) e shared →
      Step me s e ⟨shared, s.stage.after me e⟩
  | snapshot {s : FlushAll α κ} {i : ℕ} {sh : Shard α κ} {ids : List PageId} : s.stage = .shard i none →
      s.shared.pool.lockState i = some sh → ids.Nodup → (∀ id, id ∈ ids ↔ sh.state.pageTable id ≠ none) →
      Step me s (.call { }) ⟨s.shared, .shard i (some ids)⟩
  | flushPage {s : FlushAll α κ} {i : ℕ} {id : PageId} {todo : List PageId} {pool : BufferPool α κ}
      {label : Label α} : s.stage = .shard i (some (id :: todo)) →
      s.shared.pool.step (.flush me id) = some (pool, label) →
      Step me s (.call label) ⟨s.shared.after pool label, s.stage.after me (.call label)⟩
  | nextShard {s : FlushAll α κ} {i : ℕ} : s.stage = .shard i (some []) →
      Step me s (.call { }) ⟨s.shared, .shard (i + 1) none⟩
  | flushed {s : FlushAll α κ} {i : ℕ} : s.stage = .shard i none → i = s.shared.pool.shards.length →
      Step me s (.call { }) ⟨s.shared, .sync⟩
  | sync {s : FlushAll α κ} : s.stage = .sync → Step me s (.fsync .start) ⟨s.shared, .syncing (fun _ => true)⟩
  | synced {s : FlushAll α κ} {covers : PageId → Bool} : s.stage = .syncing covers →
      Step me s (.fsync .finish)
        ⟨s.shared.setFile (s.shared.pool.disk.file.fsynced covers) s.shared.syncs, .returned (.ok ())⟩
  | syncFailed {s : FlushAll α κ} {covers : PageId → Bool} : s.stage = .syncing covers →
      Step me s (.fsync .fail)
        ⟨s.shared.setFile s.shared.pool.disk.file.fsyncFailed s.shared.syncs, .returned (.error .io)⟩

def Bounded (s : FlushAll α κ) (_ : FlushEvent α) : Prop := s.shared.pool.FewPins

end FlushAll

def FlushEvent.labels {α : Type} (es : List (FlushEvent α)) : List (Label α) :=
  es.filterMap (fun e => match e with
    | .call label => some label
    | .fsync _ => none)

def touched {α : Type} (es : List (FlushEvent α)) : List PageId :=
  (FlushEvent.labels es).flatMap (fun label => (label.update.map Prod.fst).toList ++ label.marked.toList)

def FlushAt.Left {α : Type} (p : BufferPool α) (id : PageId) : FlushAt → Prop
  | .shard i todo => i < p.shardFor id ∨ i = p.shardFor id ∧ ∀ ids, todo = some ids → id ∈ ids
  | .returned (.error _) => True
  | _ => False

def FlushAt.Covers (id : PageId) (slot : SlotState) : FlushAt → Prop
  | .syncing covers => covers id = true
  | .returned (.ok ()) => slot = .synced ∨ slot = .lost
  | _ => True

section Calls

variable {α : Type} {c c' : Cache} {wr : WriteResult} {rd : Bool} {exhausted edits : Prop}
  {o : Option (Activity α)} {label : Label α} {acts acts' : List (Activity α)} {me : α}

theorem CallStep.still (h : CallStep c c' wr rd exhausted edits o label acts acts')
    (htask : ∀ x ∈ acts, x.owner = me → ∀ page, x.task ≠ .install page) {y : Activity α} (hy : y ∈ acts')
    (hme : y.owner = me) : y ∈ acts ∨ o = some y ∨
      ∃ x ∈ acts, x.owner = me ∧ x.id = y.id ∧ ∃ frame : Frame,
        c'.frame y.id = some (frame.writeBack c.disk y.id wr).frame ∧
        y.task = .drop (frame.writeBack c.disk y.id wr).result := by
  rcases h.mem_cases hy with hold | hnew | ⟨x, hx, ho, hid, ⟨⟨page, ht⟩, -⟩ | ⟨frame, -, hf, hdrop⟩⟩
  · exact .inl hold
  · exact .inr (.inl hnew)
  · exact absurd ht (htask x hx (ho.trans hme) page)
  · exact .inr (.inr ⟨x, hx, ho.trans hme, hid, frame, hf, hdrop⟩)

theorem CallStep.returns (h : CallStep c c' wr rd exhausted edits o label acts acts') (hu : Unique acts)
    (hfresh : ∀ x, o = some x → x.owner ∉ acts.map Activity.owner)
    (htask : ∀ x, x ∈ acts ∨ o = some x → x.owner = me → ¬ x.task.Opening)
    {id : PageId} {r : Except Error Unit} (hret : label.returned = some (me, id, r)) :
    (∀ y ∈ acts', y.owner ≠ me) ∧ ((c.frame id = none ∧ ∃ x, o = some x ∧ x.owner = me ∧ x.id = id ∧ r = .ok ()) ∨
      ∃ x ∈ acts, x.owner = me ∧ x.id = id ∧ x.task = .drop r) := by
  have hopen : ∀ {x : Activity α}, x ∈ acts ∨ o = some x → x.task.Opening → ∀ {id' : PageId} {r' : Except Error Unit},
      label.returned = some (x.owner, id', r') → False := by
    intro x hx ht id' r' he
    cases hret.symm.trans he
    exact htask x hx rfl ht
  cases h with
  | idle _ hn => cases hn.symm.trans hret
  | start _ hr =>
    rcases hr with hr | ⟨ht, hr⟩
    · cases hr.symm.trans hret
    · exact (hopen (.inr rfl) (by rw [ht]; trivial) hr).elim
  | refuse _ ht hr => exact (hopen (.inr rfl) ht hr).elim
  | @nothing x _ _ _ _ _ hf hr hp =>
    cases hr.symm.trans hret
    refine ⟨fun y hy => ?_, .inl ⟨hf, x, rfl, rfl, rfl, rfl⟩⟩
    intro he
    apply hfresh x rfl
    rw [← he]
    exact List.mem_map_of_mem (hp.mem_iff.mp hy)
  | resume _ ht hr hp =>
    rcases hr with hr | ⟨-, hr⟩
    · cases hr.symm.trans hret
    · exact (hopen (.inl (hp.mem_iff.mpr List.mem_cons_self)) ht hr).elim
  | fail _ ht hr _ hp => exact (hopen (.inl (hp.mem_iff.mpr List.mem_cons_self)) ht hr).elim
  | installed ht _ _ _ hr hp => exact (hopen (.inl (hp.mem_iff.mpr List.mem_cons_self)) (by rw [ht]; trivial) hr).elim
  | replaced _ _ _ _ hn => cases hn.symm.trans hret
  | flushed _ _ hn => cases hn.symm.trans hret
  | guarded _ hn => cases hn.symm.trans hret
  | release _ _ hn => cases hn.symm.trans hret
  | @«return» x _ _ _ _ _ _ ht hr hp hp' =>
    cases hr.symm.trans hret
    refine ⟨fun y hy => (hu.perm hp.symm).not_mem (hp'.mem_iff.mp hy), .inr ⟨x, ?_, rfl, rfl, ht⟩⟩
    exact hp.mem_iff.mpr List.mem_cons_self

end Calls

theorem Cache.Step.clean_at {mine : PageId → Prop} {c c' : Cache} {ch : Change} {id : PageId}
    (h : Cache.Step mine c ch c') (hm : ch.marked ≠ some id) (hu : ∀ page, ch.update ≠ some (id, page))
    (hc : c.Clean id) : c'.Clean id := by
  cases hmark : ch.marked with
  | none => exact h.clean hmark hu hc
  | some id' =>
    cases h with
    | mark =>
      cases hmark
      intro frame hf
      change Function.update c.frame id' _ id = some frame at hf
      rw [Function.update_of_ne (fun he => hm (by rw [he]))] at hf
      exact hc frame hf
    | _ => cases hmark

section Touched

variable {α : Type} {es : List (FlushEvent α)} {label : Label α} {id : PageId} {p₀ p : BufferPool α}

theorem labels_call (es : List (FlushEvent α)) (label : Label α) :
    FlushEvent.labels (es ++ [.call label]) = FlushEvent.labels es ++ [label] := by
  simp [FlushEvent.labels]

theorem labels_fsync (es : List (FlushEvent α)) (ev : SyncEvent) :
    FlushEvent.labels (es ++ [.fsync ev]) = FlushEvent.labels es := by
  simp [FlushEvent.labels]

theorem touched_fsync (es : List (FlushEvent α)) (ev : SyncEvent) : touched (es ++ [.fsync ev]) = touched es := by
  rw [touched, labels_fsync, touched]

theorem touched_snoc (h : id ∉ touched (es ++ [.call label])) : id ∉ touched es ∧
    label.marked ≠ some id ∧ ∀ page, label.update ≠ some (id, page) := by
  rw [touched, labels_call, List.flatMap_append, List.mem_append, not_or, List.flatMap_singleton, List.mem_append,
    not_or, Option.mem_toList, Option.mem_toList] at h
  refine ⟨h.1, h.2.2, fun page hu => h.2.1 ?_⟩
  rw [hu]
  rfl

end Touched

namespace FlushAt

variable {α : Type} {me : α} {stage : FlushAt}

theorem left_congr {p p' : BufferPool α} (h : p'.shards.length = p.shards.length) (id : PageId) :
    stage.Left p' id ↔ stage.Left p id := by
  cases stage with
  | shard i todo => rw [Left, Left, BufferPool.shardFor_congr h]
  | returned r => cases r <;> rfl
  | _ => rfl

variable [DecidableEq α] {label : Label α}

theorem after_other (h : ∀ id res, label.returned ≠ some (me, id, res)) :
    stage.after me (.call label) = stage ∨
      ∃ covers, stage = .syncing covers ∧ stage.after me (.call label) = .syncing (uncover covers label.written) := by
  cases stage with
  | shard i todo =>
    left
    rw [after]
    cases hr : label.returned with
    | none => rfl
    | some r =>
      obtain ⟨owner, id, res⟩ := r
      refine if_neg ?_
      rintro rfl
      exact h id res hr
  | syncing covers => exact .inr ⟨covers, rfl, rfl⟩
  | sync => exact .inl rfl
  | returned r => exact .inl rfl

theorem after_ok (i : ℕ) {id : PageId} (todo : List PageId) (h : label.returned = some (me, id, .ok ())) :
    (FlushAt.shard i (some (id :: todo))).after me (.call label) = .shard i (some todo) := by
  rw [after, h]
  exact if_pos rfl

theorem after_error (i : ℕ) {id : PageId} (todo : List PageId) {e : Error}
    (h : label.returned = some (me, id, .error e)) :
    (FlushAt.shard i (some (id :: todo))).after me (.call label) = .returned (.error e) := by
  rw [after, h]
  exact if_pos rfl

end FlushAt

namespace FlushAll

variable {α : Type} {me : α} {p₀ : BufferPool α} {es : List (FlushEvent α)} {s s' : FlushAll α} {label : Label α}

structure Barrier (me : α) (p₀ : BufferPool α) (es : List (FlushEvent α)) (s : FlushAll α) : Prop where
  tracks : p₀.Tracks (FlushEvent.labels es) s.shared.pool
  unique : Unique s.shared.pool.activities
  calls : ∀ x ∈ s.shared.pool.activities, x.owner = me → ∃ i todo, s.stage = .shard i (some (x.id :: todo)) ∧
    (x.task = .flush ∨ ∃ r, x.task = .drop r ∧ (r = .ok () → x.id ∉ touched es → s.shared.pool.cache.Clean x.id))
  left : ∀ id ∉ touched es, ¬ s.shared.pool.cache.Clean id → s.stage.Left s.shared.pool id
  covers : ∀ id ∉ touched es, s.stage.Covers id (s.shared.pool.disk.file.slots id)
  lost : ∀ id ∉ touched es, s.shared.pool.disk.file.slots id = .lost →
    p₀.disk.file.slots id = .lost ∨ .fsync .fail ∈ es

theorem Barrier.move (hb : Barrier me p₀ es s) (hidle : ∀ i id todo, s.stage ≠ .shard i (some (id :: todo)))
    {stage : FlushAt}
    (hleft : ∀ id, ¬ s.shared.pool.cache.Clean id → s.stage.Left s.shared.pool id → stage.Left s.shared.pool id)
    (hcovers : ∀ id slot, stage.Covers id slot) : Barrier me p₀ (es ++ [.call { }]) ⟨s.shared, stage⟩ := by
  have hold : ∀ {id : PageId}, id ∉ touched (es ++ [.call { }]) → id ∉ touched es := fun hid => (touched_snoc hid).1
  refine ⟨?_, hb.unique, fun x hx hme => ?_, fun id hid hd => ?_, fun id _ => hcovers id _, fun id hid hl => ?_⟩
  · rw [labels_call]
    exact hb.tracks.quiet
  · obtain ⟨i, todo, hstage, -⟩ := hb.calls x hx hme
    exact absurd hstage (hidle i _ todo)
  · exact hleft id hd (hb.left id (hold hid) hd)
  · exact (hb.lost id (hold hid) hl).imp_right (List.mem_append_left _)

theorem Barrier.fsync (hb : Barrier me p₀ es s) {slots : PageId → SlotState} {syncs : List (PageId → Bool)}
    {ev : SyncEvent} {stage : FlushAt} (hstage : stage = s.stage ∨ ∀ i id todo, s.stage ≠ .shard i (some (id :: todo)))
    (hleft : ∀ id, s.stage.Left s.shared.pool id → stage.Left s.shared.pool id)
    (hcovers : ∀ id, s.stage.Covers id (s.shared.pool.disk.file.slots id) → stage.Covers id (slots id))
    (hlost : ∀ id, slots id = .lost → s.shared.pool.disk.file.slots id = .lost ∨ ev = .fail) :
    Barrier me p₀ (es ++ [.fsync ev])
      ⟨s.shared.setFile { s.shared.pool.disk.file with slots := slots } syncs, stage⟩ := by
  refine ⟨?_, hb.unique, fun x hx hme => ?_, fun id hid hd => ?_, fun id hid => ?_, fun id hid hl => ?_⟩
  · rw [labels_fsync]
    exact hb.tracks.setFile rfl
  · obtain ⟨i, todo, hat, hcall⟩ := hb.calls x hx hme
    rw [touched_fsync]
    rcases hstage with rfl | hno
    · exact ⟨i, todo, hat, hcall⟩
    · exact absurd hat (hno i _ todo)
  · rw [touched_fsync] at hid
    exact (FlushAt.left_congr rfl id).mpr (hleft id (hb.left id hid hd))
  · rw [touched_fsync] at hid
    exact hcovers id (hb.covers id hid)
  · rw [touched_fsync] at hid
    rcases hlost id hl with hl | rfl
    · exact (hb.lost id hid hl).imp_right (List.mem_append_left _)
    · exact .inr (List.mem_append_right _ List.mem_cons_self)

theorem fsynced_lost {f : DataFile} {covers : PageId → Bool} {id : PageId} (h : (f.fsynced covers).slots id = .lost) :
    f.slots id = .lost := by
  change (if covers id = true ∧ f.slots id ≠ .lost then SlotState.synced else f.slots id) = .lost at h
  split_ifs at h
  exact h

theorem fsynced_of {f : DataFile} {covers : PageId → Bool} {id : PageId}
    (h : covers id = true ∨ f.slots id = .synced ∨ f.slots id = .lost) :
    (f.fsynced covers).slots id = .synced ∨ (f.fsynced covers).slots id = .lost := by
  change (if covers id = true ∧ f.slots id ≠ .lost then SlotState.synced else f.slots id) = .synced ∨
    (if covers id = true ∧ f.slots id ≠ .lost then SlotState.synced else f.slots id) = .lost
  split_ifs with hc
  · exact .inl rfl
  · rcases h with h | h
    · exact .inr (not_not.mp fun hl => hc ⟨h, hl⟩)
    · exact h

theorem fsyncFailed_of {f : DataFile} {id : PageId} :
    f.fsyncFailed.slots id = .synced ∨ f.fsyncFailed.slots id = .lost := by
  change (if f.slots id = .synced then SlotState.synced else .lost) = .synced ∨
    (if f.slots id = .synced then SlotState.synced else .lost) = .lost
  split_ifs
  · exact .inl rfl
  · exact .inr rfl

theorem Barrier.otherSync (hb : Barrier me p₀ es s) {slots : PageId → SlotState} {syncs : List (PageId → Bool)}
    {ev : SyncEvent}
    (hslots : ∀ id, s.shared.pool.disk.file.slots id = .synced ∨ s.shared.pool.disk.file.slots id = .lost →
      slots id = .synced ∨ slots id = .lost)
    (hlost : ∀ id, slots id = .lost → s.shared.pool.disk.file.slots id = .lost ∨ ev = .fail) :
    Barrier me p₀ (es ++ [.fsync ev])
      ⟨s.shared.setFile { s.shared.pool.disk.file with slots := slots } syncs, s.stage⟩ := by
  refine hb.fsync (.inl rfl) (fun _ h => h) (fun id hcover => ?_) hlost
  cases hstage : s.stage with
  | returned r =>
    rw [hstage] at hcover
    cases r with
    | ok u => exact hslots id hcover
    | error e => trivial
  | syncing covers =>
    rw [hstage] at hcover
    exact hcover
  | _ => trivial

theorem cached_of_dirty {p : BufferPool α} {i : ℕ} {sh : Shard α} {id : PageId} (hl : p.lockState i = some sh)
    (hi : i = p.shardFor id) (hd : ¬ p.cache.Clean id) : sh.state.pageTable id ≠ none := by
  obtain ⟨hget, -⟩ := BufferPool.lockState_some hl
  intro hn
  refine hd (fun frame hf => ?_)
  rw [show p.cache.frame id = sh.cached id from BufferPool.cached_of_shard hget hi.symm, Shard.cached, hn] at hf
  cases hf

variable [DecidableEq α]

theorem Barrier.turn (hb : Barrier me p₀ es s) (hbound : p₀.disk.pageCount.toNat ≤ 2 ^ 52) {a : Action α}
    {pool : BufferPool α} (hsync : ∀ ev, a ≠ .sync ev)
    (hstart : ∀ x, a.starts = some x → x.owner = me → x.task = .flush ∧
      ∃ i todo, s.stage = .shard i (some (x.id :: todo)))
    (hs : s.shared.pool.step a = some (pool, label)) :
    Barrier me p₀ (es ++ [.call label]) ⟨s.shared.after pool label, s.stage.after me (.call label)⟩ := by
  have hsmall : s.shared.pool.disk.pageCount.toNat ≤ 2 ^ 52 := by
    rw [hb.tracks.count]
    exact hbound
  have hsteps := BufferPool.step_steps hb.tracks.inv hsmall hsync hs
  have hcalls := BufferPool.step_calls hb.tracks.inv hs
  have htracks : p₀.Tracks (FlushEvent.labels (es ++ [.call label])) pool := by
    rw [labels_call]
    exact BufferPool.tracks_step hbound hb.tracks ⟨a, hs⟩
  have hunique := BufferPool.step_unique hb.tracks.inv hb.unique hs
  have hclean : ∀ {id : PageId}, id ∉ touched (es ++ [.call label]) → s.shared.pool.cache.Clean id →
      pool.cache.Clean id := by
    intro id hid hc
    obtain ⟨-, hm, hu⟩ := touched_snoc hid
    exact hsteps.step.clean_at hm hu hc
  have hlost : ∀ id ∉ touched (es ++ [.call label]), pool.disk.file.slots id = .lost →
      p₀.disk.file.slots id = .lost ∨ .fsync .fail ∈ es ++ [.call label] := by
    intro id hid hl
    have hl' : s.shared.pool.disk.file.slots id = .lost := by
      by_contra hn
      exact hsteps.step.notLost hn hl
    exact (hb.lost id (touched_snoc hid).1 hl').imp_right (List.mem_append_left _)
  have htask : ∀ x, x ∈ s.shared.pool.activities ∨ a.starts = some x → x.owner = me → ¬ x.task.Opening := by
    rintro x (hx | hx) hme
    · obtain ⟨i, todo, -, ht | ⟨r, ht, -⟩⟩ := hb.calls x hx hme
      · rw [ht]; exact id
      · rw [ht]; exact id
    · rw [(hstart x hx hme).1]
      exact id
  by_cases hret : ∃ id r, label.returned = some (me, id, r)
  · obtain ⟨id, r, hret⟩ := hret
    obtain ⟨hnone, hdone⟩ := hcalls.returns hb.unique (fun x hx => BufferPool.step_fresh hs hx) htask hret
    -- The id that returns is the one the snapshot is at, and it is clean unless it was touched.
    obtain ⟨i, todo, hstage, hcleaned⟩ : ∃ i todo, s.stage = .shard i (some (id :: todo)) ∧
        (r = .ok () → id ∉ touched es → s.shared.pool.cache.Clean id) := by
      rcases hdone with ⟨hf, x, hx, hme, rfl, -⟩ | ⟨x, hx, hme, rfl, ht⟩
      · obtain ⟨-, i, todo, hstage⟩ := hstart x hx hme
        refine ⟨i, todo, hstage, fun _ _ frame hframe => ?_⟩
        cases hf.symm.trans hframe
      · obtain ⟨i, todo, hstage, ht' | ⟨r', ht', hc⟩⟩ := hb.calls x hx hme
        · cases ht.symm.trans ht'
        · cases ht.symm.trans ht'
          exact ⟨i, todo, hstage, hc⟩
    rw [hstage]
    cases r with
    | error e =>
      rw [FlushAt.after_error i todo hret]
      exact ⟨htracks, hunique, fun x hx hme => absurd hme (hnone x hx), fun _ _ _ => trivial, fun _ _ => trivial,
        hlost⟩
    | ok u =>
      rw [FlushAt.after_ok i todo hret]
      refine ⟨htracks, hunique, fun x hx hme => absurd hme (hnone x hx), fun id' hid hd => ?_, fun _ _ => trivial,
        hlost⟩
      have hid' := (touched_snoc hid).1
      have hleft := hb.left id' hid' (fun hc => hd (hclean hid hc))
      rw [hstage] at hleft
      refine (FlushAt.left_congr hsteps.length id').mpr ?_
      refine hleft.imp_right (fun ⟨hi, hmem⟩ => ⟨hi, ?_⟩)
      rintro _ ⟨⟩
      refine (List.mem_cons.mp (hmem _ rfl)).resolve_left ?_
      rintro rfl
      exact hd (hclean hid (hcleaned rfl hid'))
  · have hother : s.stage.after me (.call label) = s.stage ∨ _ :=
      FlushAt.after_other (fun id r hr => hret ⟨id, r, hr⟩)
    refine ⟨htracks, hunique, ?_, ?_, ?_, hlost⟩
    · intro y hy hme
      have hstay : ∀ {i : ℕ} {todo : List PageId}, s.stage = .shard i (some (y.id :: todo)) →
          s.stage.after me (.call label) = .shard i (some (y.id :: todo)) := by
        intro i todo hstage
        rcases hother with he | ⟨covers, he, -⟩
        · rw [he, hstage]
        · cases hstage.symm.trans he
      rcases hcalls.still (fun x hx hme page ht => htask x (.inl hx) hme (by rw [ht]; trivial)) hy hme with
        hy | hy | ⟨x, hx, hxme, hid, frame, hframe, ht⟩
      · obtain ⟨i, todo, hstage, ht | ⟨r, ht, hc⟩⟩ := hb.calls y hy hme
        · exact ⟨i, todo, hstay hstage, .inl ht⟩
        · exact ⟨i, todo, hstay hstage, .inr ⟨r, ht, fun hr hid => hclean hid (hc hr (touched_snoc hid).1)⟩⟩
      · obtain ⟨ht, i, todo, hstage⟩ := hstart y hy hme
        exact ⟨i, todo, hstay hstage, .inl ht⟩
      · obtain ⟨i, todo, hstage, -⟩ := hb.calls x hx hxme
        rw [hid] at hstage
        refine ⟨i, todo, hstay hstage, .inr ⟨_, ht, fun hok _ frame' hf => ?_⟩⟩
        cases hframe.symm.trans hf
        exact (frame.writeBack_spec _ _ _).clean_of_ok hok
    · intro id hid hd
      refine (FlushAt.left_congr hsteps.length id).mpr ?_
      have hleft := hb.left id (touched_snoc hid).1 (fun hc => hd (hclean hid hc))
      rcases hother with he | ⟨covers, he, -⟩
      · rw [he]
        exact hleft
      · rw [he] at hleft
        exact hleft.elim
    · intro id hid
      have hid' := (touched_snoc hid).1
      have hcover := hb.covers id hid'
      -- At the fsync and after it the page is clean, so that nothing writes to its slot.
      have hstable : s.shared.pool.cache.Clean id → pool.disk.file.slots id = s.shared.pool.disk.file.slots id :=
        fun hc => (hsteps.step.stable hsmall (.inl hc)).1
      have hleft := fun hc => hb.left id hid' hc
      rcases hother with he | ⟨covers, he, he'⟩
      · rw [he]
        cases hstage : s.stage with
        | returned r =>
          rw [hstage] at hleft hcover
          cases r with
          | ok u =>
            change pool.disk.file.slots id = .synced ∨ pool.disk.file.slots id = .lost
            rw [hstable (not_not.mp hleft)]
            exact hcover
          | error e => trivial
        | syncing covers =>
          rw [hstage] at hcover
          exact hcover
        | _ => trivial
      · rw [he'] 
        rw [he] at hleft hcover
        change uncover covers label.written id = true
        cases hw : label.written with
        | none => exact hcover
        | some u =>
          obtain ⟨id', page⟩ := u
          have hne : id ≠ id' := by
            rintro rfl
            obtain ⟨frame, hf, hd, -⟩ := hsteps.step.written hw
            rw [not_not.mp hleft frame hf] at hd
            cases hd
          rw [uncover, Function.update_of_ne hne]
          exact hcover

theorem Barrier.step (hb : Barrier me p₀ es s) (hbound : p₀.disk.pageCount.toNat ≤ 2 ^ 52) {e : FlushEvent α}
    (hs : Step me s e s') : Barrier me p₀ (es ++ [e]) s' := by
  cases hs with
  | other hs =>
    cases hs with
    | turn hstart hsync hs => exact hb.turn hbound hsync (fun x hx hme => absurd hme (hstart x hx)) hs
    | syncStart =>
      have hstage : s.stage.after me (.fsync .start : FlushEvent α) = s.stage := by cases s.stage <;> rfl
      rw [hstage]
      exact hb.otherSync (fun _ h => h) (fun _ h => .inl h)
    | synced =>
      have hstage : s.stage.after me (.fsync .finish : FlushEvent α) = s.stage := by cases s.stage <;> rfl
      rw [hstage]
      exact hb.otherSync (fun _ h => fsynced_of (.inr h)) (fun _ h => .inl (fsynced_lost h))
    | syncFailed =>
      have hstage : s.stage.after me (.fsync .fail : FlushEvent α) = s.stage := by cases s.stage <;> rfl
      rw [hstage]
      exact hb.otherSync (fun _ _ => fsyncFailed_of) (fun _ _ => .inr rfl)
  | @flushPage i id todo pool _ hstage hs =>
    refine hb.turn hbound (by rintro ev ⟨⟩) ?_ hs
    rintro x ⟨⟩ -
    exact ⟨rfl, i, todo, hstage⟩
  | @snapshot i sh ids hstage hl _ hids =>
    refine hb.move (by rw [hstage]; rintro _ _ _ ⟨⟩) (fun id hd hleft => ?_) (fun _ _ => trivial)
    rw [hstage] at hleft
    refine hleft.imp_right (fun ⟨hi, _⟩ => ⟨hi, ?_⟩)
    rintro _ ⟨⟩
    exact (hids id).mpr (cached_of_dirty hl hi hd)
  | @nextShard i hstage =>
    refine hb.move (by rw [hstage]; rintro _ _ _ ⟨⟩) (fun id _ hleft => ?_) (fun _ _ => trivial)
    rw [hstage] at hleft
    rcases hleft with hlt | ⟨-, hmem⟩
    · rcases Nat.lt_or_eq_of_le (Nat.succ_le_of_lt hlt) with hlt | heq
      · exact .inl hlt
      · exact .inr ⟨heq, by rintro _ ⟨⟩⟩
    · cases hmem _ rfl
  | @flushed i hstage hi =>
    refine hb.move (by rw [hstage]; rintro _ _ _ ⟨⟩) (fun id _ hleft => ?_) (fun _ _ => trivial)
    rw [hstage] at hleft
    have hlt := BufferPool.shardFor_lt hb.tracks.inv.nonempty id
    rcases hleft with hlt' | ⟨heq, -⟩
    · omega
    · omega
  | sync hstage =>
    refine hb.fsync (.inr (by rw [hstage]; rintro _ _ _ ⟨⟩)) (fun id hleft => ?_) (fun _ _ => rfl)
      (fun _ h => .inl h)
    rw [hstage] at hleft
    exact hleft
  | synced hstage =>
    refine hb.fsync (.inr (by rw [hstage]; rintro _ _ _ ⟨⟩)) (fun id hleft => ?_) (fun id hcover => ?_)
      (fun _ h => .inl (fsynced_lost h))
    · rw [hstage] at hleft
      exact hleft
    · rw [hstage] at hcover
      exact fsynced_of (.inl hcover)
  | syncFailed hstage =>
    exact hb.fsync (.inr (by rw [hstage]; rintro _ _ _ ⟨⟩)) (fun _ _ => trivial) (fun _ _ => trivial)
      (fun _ _ => .inr rfl)

end FlushAll

namespace Shared

variable {α : Type} {disk : DiskManager} {capacity : ℕ} {p : BufferPool α} {es : List (FlushEvent α)} {s : Shared α}

def wrap (s : Shared α) : Shared α UInt32 := ⟨s.pool.wrap, s.syncs⟩

variable [DecidableEq α] {may : Action α → Prop}

theorem tracks_run (hnew : BufferPool.new disk capacity = .ok p) (hcount : disk.pageCount.toNat ≤ 2 ^ 52)
    (hrun : Run (Step may) ⟨p, []⟩ es s) : p.Tracks (FlushEvent.labels es) s.pool ∧ Unique s.pool.activities := by
  refine hrun.invariant (I := fun es (s : Shared α) => p.Tracks (FlushEvent.labels es) s.pool ∧
    Unique s.pool.activities) ⟨BufferPool.tracks_new hnew, ?_⟩ ?_
  · rw [Unique, BufferPool.new_activities hnew]
    exact List.nodup_nil
  · rintro es q e q' - ⟨ht, hu⟩ hstep
    cases hstep with
    | turn hmay hsync hs =>
      rw [labels_call]
      refine ⟨BufferPool.tracks_step ?_ ht ⟨_, hs⟩, BufferPool.step_unique ht.inv hu hs⟩
      rw [(BufferPool.new_ok hnew).2.1]
      exact hcount
    | syncStart =>
      rw [labels_fsync]
      exact ⟨ht, hu⟩
    | synced hk =>
      rw [labels_fsync]
      exact ⟨ht.setFile rfl, hu⟩
    | syncFailed hk =>
      rw [labels_fsync]
      exact ⟨ht.setFile rfl, hu⟩

theorem exists_step (hc : s.pool.Counted) {e : FlushEvent α} {t : Shared α UInt32}
    (hs : Step may s.wrap e t) (hf : s.wrap.pool.FewPins) : ∃ s', s'.wrap = t ∧ Step may s e s' := by
  cases hs with
  | turn hmay hsync hs =>
    obtain ⟨q, rfl, hs'⟩ := BufferPool.exists_step hc hf hs
    exact ⟨s.after q _, rfl, .turn hmay hsync hs'⟩
  | syncStart => exact ⟨_, rfl, .syncStart⟩
  | synced hk => exact ⟨s.setFile _ _, rfl, .synced hk⟩
  | syncFailed hk => exact ⟨s.setFile _ _, rfl, .syncFailed hk⟩

end Shared

namespace FlushAll

variable {α : Type} {me : α} {disk : DiskManager} {capacity : ℕ} {p : BufferPool α} {s₀ : Shared α}
  {es₀ es : List (FlushEvent α)} {s : FlushAll α}

def wrap (s : FlushAll α) : FlushAll α UInt32 := ⟨s.shared.wrap, s.stage⟩

variable [DecidableEq α]

theorem Barrier.start (htracks : p.Tracks (FlushEvent.labels es₀) s₀.pool) (hunique : Unique s₀.pool.activities)
    (hidle : s₀.pool.idle me = true) : Barrier me s₀.pool [] ⟨s₀, .shard 0 none⟩ := by
  refine ⟨⟨htracks.inv, rfl, htracks.coherent, rfl⟩, hunique, fun x hx hme => ?_, fun id _ _ => ?_,
    fun _ _ => trivial, fun _ _ h => .inl h⟩
  · rw [BufferPool.idle_iff, ← hme] at hidle
    exact absurd (List.mem_map_of_mem hx) hidle
  · rcases Nat.eq_zero_or_pos (s₀.pool.shardFor id) with h0 | h0
    · exact .inr ⟨h0.symm, by rintro _ ⟨⟩⟩
    · exact .inl h0

theorem Barrier.run (hnew : BufferPool.new disk capacity = .ok p) (hcount : disk.pageCount.toNat ≤ 2 ^ 52)
    (hrun : Run (Shared.Step fun _ => True) ⟨p, []⟩ es₀ s₀) (hidle : s₀.pool.idle me = true)
    (hr : Run (Step me) ⟨s₀, .shard 0 none⟩ es s) : Barrier me s₀.pool es s := by
  obtain ⟨htracks, hunique⟩ := Shared.tracks_run hnew hcount hrun
  have hbound : s₀.pool.disk.pageCount.toNat ≤ 2 ^ 52 := by
    rw [htracks.count, (BufferPool.new_ok hnew).2.1]
    exact hcount
  exact hr.invariant (Barrier.start htracks hunique hidle) (fun _ _ _ _ _ hb hstep => hb.step hbound hstep)

theorem exists_step (hc : s.shared.pool.Counted) {e : FlushEvent α} {t : FlushAll α UInt32}
    (hs : Restrict (Step me) Bounded s.wrap e t) : ∃ s', s'.wrap = t ∧ Step me s e s' := by
  obtain ⟨hs, hf⟩ := hs
  cases hs with
  | other hs =>
    obtain ⟨q, rfl, hs'⟩ := Shared.exists_step hc hs hf
    exact ⟨⟨q, _⟩, rfl, .other hs'⟩
  | snapshot hstage hl hnd hids =>
    change s.shared.pool.wrap.lockState _ = _ at hl
    rw [BufferPool.wrap_lockState] at hl
    obtain ⟨sh, hl', rfl⟩ := Option.map_eq_some_iff.mp hl
    exact ⟨⟨s.shared, _⟩, rfl, .snapshot hstage hl' hnd hids⟩
  | flushPage hstage hs =>
    obtain ⟨q, rfl, hs'⟩ := BufferPool.exists_step hc hf hs
    exact ⟨⟨s.shared.after q _, _⟩, rfl, .flushPage hstage hs'⟩
  | nextShard hstage => exact ⟨⟨s.shared, _⟩, rfl, .nextShard hstage⟩
  | flushed hstage hi =>
    refine ⟨⟨s.shared, _⟩, rfl, .flushed hstage (hi.trans ?_)⟩
    exact List.length_map ..
  | sync hstage => exact ⟨⟨s.shared, _⟩, rfl, .sync hstage⟩
  | synced hstage => exact ⟨⟨s.shared.setFile _ _, _⟩, rfl, .synced hstage⟩
  | syncFailed hstage => exact ⟨⟨s.shared.setFile _ _, _⟩, rfl, .syncFailed hstage⟩

end FlushAll

end OxenDB
