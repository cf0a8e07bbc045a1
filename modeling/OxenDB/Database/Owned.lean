import OxenDB.Database.History

namespace OxenDB

open Lib

def Owned (holder : Holder) (readers : List ℕ) (x : Activity Owner) : Prop :=
  match x.owner with
  | .reader r _ => r ∈ readers ∧ x.task = .fetch
  | .writer _ => (∃ w, holder = .writer w) ∧ x.task = .fetch
  | .publisher => ∃ c page todo, holder = .publishing c ((x.id, page) :: todo) ∧
      (x.task = .install page ∨ x.task = .drop (.ok ()))
  | .checkpointer => ∃ auto i todo, holder = .checkpointing auto (.flush i (some (x.id :: todo))) ∧
      (x.task = .flush ∨ ∃ r, x.task = .drop r)

def ByReader (readers : List ℕ) (x : Activity Owner) : Prop :=
  ∃ r k, x.owner = .reader r k ∧ r ∈ readers ∧ x.task = .fetch

namespace Holder

def Quiet : Holder → Prop
  | .writer _ => False
  | .publishing _ (_ :: _) => False
  | .checkpointing _ (.flush _ (some (_ :: _))) => False
  | _ => True

def Commits : Holder → Prop
  | .free => False
  | .checkpointing none _ => False
  | .failed (.checkpoint none) => False
  | _ => True

def caller : Holder → Option Owner
  | .publishing _ (_ :: _) => some .publisher
  | .checkpointing _ (.flush _ (some (_ :: _))) => some .checkpointer
  | _ => none

inductive AfterCall (r : Option (Owner × PageId × Except Error Unit)) : Holder → Holder → Prop
  | same {holder : Holder} : (∀ owner id res, holder.caller = some owner → r ≠ some (owner, id, res)) →
      AfterCall r holder holder
  | installed {c : Commit} {u : PageId × Page} {todo : List (PageId × Page)} {id : PageId} :
      r = some (.publisher, id, .ok ()) → AfterCall r (.publishing c (u :: todo)) (.publishing c todo)
  | installFailed {c : Commit} {todo : List (PageId × Page)} {id : PageId} {e : Error} :
      r = some (.publisher, id, .error e) → AfterCall r (.publishing c todo) (.failed (.publish c))
  | flushed {auto : Option Commit} {i : ℕ} {id' id : PageId} {todo : List PageId} :
      r = some (.checkpointer, id, .ok ()) →
      AfterCall r (.checkpointing auto (.flush i (some (id' :: todo)))) (.checkpointing auto (.flush i (some todo)))
  | flushFailed {auto : Option Commit} {i : ℕ} {todo : Option (List PageId)} {id : PageId} {e : Error} :
      r = some (.checkpointer, id, .error e) →
      AfterCall r (.checkpointing auto (.flush i todo)) (.failed (.checkpoint auto))

theorem afterCall_spec (holder : Holder) (r : Option (Owner × PageId × Except Error Unit)) :
    AfterCall r holder (holder.afterCall r) := by
  rw [afterCall.eq_def]
  split
  · exact .installed rfl
  · exact .installFailed rfl
  · rename_i auto i todo id result
    cases result with
    | error e => rcases todo with _ | _ | _ <;> exact .flushFailed rfl
    | ok =>
      rcases todo with _ | _ | ⟨id', todo⟩
      · exact .same (by rintro _ _ _ ⟨⟩)
      · exact .same (by rintro _ _ _ ⟨⟩)
      · exact .flushed rfl
  · rename_i h₁ h₂ h₃
    refine .same ?_
    rintro owner id res hc rfl
    cases holder with
    | publishing c todo =>
      cases todo with
      | nil => cases hc
      | cons u todo =>
        cases hc
        cases res with
        | ok => exact h₁ _ _ _ _ rfl rfl
        | error e => exact h₂ _ _ _ _ rfl rfl
    | checkpointing auto stage =>
      cases stage with
      | flush i todo =>
        rcases todo with _ | _ | ⟨id', todo⟩
        · cases hc
        · cases hc
        · cases hc
          exact h₃ _ _ _ _ _ rfl rfl
      | _ => cases hc
    | _ => cases hc

theorem AfterCall.eq {r : Option (Owner × PageId × Except Error Unit)} {holder holder' : Holder}
    (h : AfterCall r holder holder') (hp : ∀ id res, r ≠ some (.publisher, id, res))
    (hc : ∀ id res, r ≠ some (.checkpointer, id, res)) : holder' = holder := by
  cases h with
  | same => rfl
  | installed hr | installFailed hr => exact absurd hr (hp _ _)
  | flushed hr | flushFailed hr => exact absurd hr (hc _ _)

theorem afterCall_none (h : Holder) : h.afterCall none = h :=
  (h.afterCall_spec none).eq (by rintro _ _ ⟨⟩) (by rintro _ _ ⟨⟩)

section AfterCall

variable {r : Option (Owner × PageId × Except Error Unit)} {holder holder' : Holder}

theorem AfterCall.commits (h : AfterCall r holder holder') (hc : holder'.Commits) : holder.Commits := by
  cases h with
  | same => exact hc
  | installed | installFailed => trivial
  | @flushed auto | @flushFailed auto =>
    cases auto with
    | none => exact hc
    | some c => trivial

theorem AfterCall.exclusive (h : AfterCall r holder holder') (hx : holder'.exclusive = true) :
    holder.exclusive = true := by
  cases h with
  | same => exact hx
  | installed | installFailed => rfl
  | flushed | flushFailed => cases hx

end AfterCall

theorem afterCall_failed (h : Holder) (r : Option (Owner × PageId × Except Error Unit)) (f : Failure)
    (hf : h = .failed f) : ∃ f, h.afterCall r = .failed f := by
  subst hf
  exact ⟨f, rfl⟩

end Holder

namespace Owned

variable {holder holder' : Holder} {readers readers' : List ℕ} {x : Activity Owner}

theorem of_reader (h : ByReader readers x) (holder : Holder) : Owned holder readers x := by
  obtain ⟨r, k, ho, hr, ht⟩ := h
  rw [Owned, ho]
  exact ⟨hr, ht⟩

theorem mono (h : Owned holder readers x) (hr : readers ⊆ readers') : Owned holder readers' x := by
  unfold Owned at h ⊢
  cases ho : x.owner with
  | reader r k =>
    rw [ho] at h
    exact ⟨hr h.1, h.2⟩
  | writer k => rw [ho] at h; exact h
  | publisher => rw [ho] at h; exact h
  | checkpointer => rw [ho] at h; exact h

theorem byReader (h : Owned holder readers x) (hw : ∀ k, x.owner = .writer k → False)
    (hp : x.owner ≠ .publisher) (hc : x.owner ≠ .checkpointer) : ByReader readers x := by
  unfold Owned at h
  cases ho : x.owner with
  | reader r k =>
    rw [ho] at h
    exact ⟨r, k, ho, h.1, h.2⟩
  | writer k => exact absurd ho (fun e => hw k e)
  | publisher => exact absurd ho hp
  | checkpointer => exact absurd ho hc

theorem of_quiet (h : Owned holder readers x) (hq : holder.Quiet) : ByReader readers x := by
  unfold Owned at h
  cases ho : x.owner with
  | reader r k =>
    rw [ho] at h
    exact ⟨r, k, ho, h.1, h.2⟩
  | writer k =>
    rw [ho] at h
    obtain ⟨⟨w, rfl⟩, -⟩ := h
    exact absurd hq id
  | publisher =>
    rw [ho] at h
    obtain ⟨c, page, todo, rfl, -⟩ := h
    exact absurd hq id
  | checkpointer =>
    rw [ho] at h
    obtain ⟨auto, i, todo, rfl, -⟩ := h
    exact absurd hq id

theorem of_publisher (h : Owned holder readers x) (ho : x.owner = .publisher) :
    ∃ c page todo, holder = .publishing c ((x.id, page) :: todo) ∧
      (x.task = .install page ∨ x.task = .drop (.ok ())) := by
  rwa [Owned, ho] at h

theorem of_checkpointer (h : Owned holder readers x) (ho : x.owner = .checkpointer) :
    ∃ auto i todo, holder = .checkpointing auto (.flush i (some (x.id :: todo))) ∧
      (x.task = .flush ∨ ∃ r, x.task = .drop r) := by
  rwa [Owned, ho] at h

theorem task_fetch (h : Owned holder readers x) (hp : x.owner ≠ .publisher)
    (hc : x.owner ≠ .checkpointer) : x.task = .fetch := by
  unfold Owned at h
  cases ho : x.owner with
  | reader r k => rw [ho] at h; exact h.2
  | writer k => rw [ho] at h; exact h.2
  | publisher => exact absurd ho hp
  | checkpointer => exact absurd ho hc

theorem afterCall_eq (h : x.owner ≠ .publisher) (h' : x.owner ≠ .checkpointer) (id : PageId)
    (res : Except Error Unit) : holder.afterCall (some (x.owner, id, res)) = holder := by
  refine (holder.afterCall_spec _).eq ?_ ?_
  · intro id' res' he
    exact h (congrArg Prod.fst (Option.some.inj he))
  · intro id' res' he
    exact h' (congrArg Prod.fst (Option.some.inj he))

theorem install (h : Owned holder readers x) {page : Page} (ht : x.task = .install page) :
    ∃ c todo, x.owner = .publisher ∧ holder = .publishing c ((x.id, page) :: todo) := by
  unfold Owned at h
  cases ho : x.owner with
  | reader r k => rw [ho, ht] at h; cases h.2
  | writer k => rw [ho, ht] at h; cases h.2
  | publisher =>
    rw [ho, ht] at h
    obtain ⟨c, page', todo, hh, he | he⟩ := h
    · injection he with he
      subst he
      exact ⟨c, todo, rfl, hh⟩
    · cases he
  | checkpointer =>
    rw [ho, ht] at h
    obtain ⟨auto, i, todo, hh, he | ⟨r, he⟩⟩ := h
    · cases he
    · cases he

theorem flush (h : Owned holder readers x) (ht : x.task = .flush) :
    ∃ auto i todo, x.owner = .checkpointer ∧
      holder = .checkpointing auto (.flush i (some (x.id :: todo))) := by
  unfold Owned at h
  cases ho : x.owner with
  | reader r k => rw [ho, ht] at h; cases h.2
  | writer k => rw [ho, ht] at h; cases h.2
  | publisher =>
    rw [ho, ht] at h
    obtain ⟨c, page, todo, hh, he | he⟩ := h
    · cases he
    · cases he
  | checkpointer =>
    rw [ho] at h
    obtain ⟨auto, i, todo, hh, -⟩ := h
    exact ⟨auto, i, todo, rfl, hh⟩

theorem drop (h : Owned holder readers x) {r : Except Error Unit} (ht : x.task = .drop r) :
    (x.owner = .publisher ∧ r = .ok () ∧ ∃ c page todo, holder = .publishing c ((x.id, page) :: todo)) ∨
      (x.owner = .checkpointer ∧ ∃ auto i todo,
        holder = .checkpointing auto (.flush i (some (x.id :: todo)))) := by
  unfold Owned at h
  cases ho : x.owner with
  | reader r k => rw [ho, ht] at h; cases h.2
  | writer k => rw [ho, ht] at h; cases h.2
  | publisher =>
    rw [ho, ht] at h
    obtain ⟨c, page, todo, hh, he | he⟩ := h
    · cases he
    · injection he with he
      exact .inl ⟨rfl, he, c, page, todo, hh⟩
  | checkpointer =>
    rw [ho] at h
    obtain ⟨auto, i, todo, hh, -⟩ := h
    exact .inr ⟨rfl, auto, i, todo, hh⟩

theorem other {y : Activity Owner} (h : Owned holder readers x)
    (hx : x.owner = .publisher ∨ x.owner = .checkpointer) (hy : Owned holder readers y)
    (hne : y.owner ≠ x.owner) : ByReader readers y := by
  rcases hx with hx | hx
  · obtain ⟨c, page, todo, rfl, -⟩ := h.of_publisher hx
    rw [hx] at hne
    refine hy.byReader (fun k hk => ?_) hne (fun hk => ?_)
    · rw [Owned, hk] at hy
      obtain ⟨⟨w, hw⟩, -⟩ := hy
      cases hw
    · obtain ⟨auto, i, todo', hw, -⟩ := hy.of_checkpointer hk
      cases hw
  · obtain ⟨auto, i, todo, rfl, -⟩ := h.of_checkpointer hx
    rw [hx] at hne
    refine hy.byReader (fun k hk => ?_) (fun hk => ?_) hne
    · rw [Owned, hk] at hy
      obtain ⟨⟨w, hw⟩, -⟩ := hy
      cases hw
    · obtain ⟨c, page, todo', hw, -⟩ := hy.of_publisher hk
      cases hw

end Owned

section CallStep

variable {c c' : Cache} {wr : WriteResult} {rd : Bool} {exhausted edits : Prop} {holder : Holder}
  {readers : List ℕ} {o : Option (Activity Owner)} {label : Label Owner}
  {acts acts' rest : List (Activity Owner)} {x : Activity Owner}

theorem owned_after_return (hx : Owned holder readers x) (hrest : ∀ y ∈ rest, Owned holder readers y)
    (hne : ∀ y ∈ rest, y.owner ≠ x.owner) (id : PageId) (res : Except Error Unit) :
    ∀ y ∈ rest, Owned (holder.afterCall (some (x.owner, id, res))) readers y := by
  intro y hy
  by_cases hs : x.owner = .publisher ∨ x.owner = .checkpointer
  · exact Owned.of_reader (hx.other hs (hrest y hy) (hne y hy)) _
  · rw [not_or] at hs
    rw [Owned.afterCall_eq hs.1 hs.2]
    exact hrest y hy

theorem owned_after_fetch (hx : Owned holder readers x)
    (hr : label.returned = none ∨ x.task = .fetch ∧ label.returned = some (x.owner, x.id, .ok ())) :
    holder.afterCall label.returned = holder := by
  rcases hr with hr | ⟨ht, hr⟩
  · rw [hr, Holder.afterCall_none]
  · rw [hr]
    refine Owned.afterCall_eq (fun ho => ?_) (fun ho => ?_) _ _
    · obtain ⟨_, _, _, -, h | h⟩ := hx.of_publisher ho
      · rw [ht] at h; cases h
      · rw [ht] at h; cases h
    · obtain ⟨_, _, _, -, h | ⟨r, h⟩⟩ := hx.of_checkpointer ho
      · rw [ht] at h; cases h
      · rw [ht] at h; cases h

theorem CallStep.owned (h : CallStep c c' wr rd exhausted edits o label acts acts') (hu : Unique acts)
    (hfresh : ∀ x, o = some x → x.owner ∉ acts.map Activity.owner)
    (hstart : ∀ x, o = some x → Owned holder readers x) (ho : ∀ x ∈ acts, Owned holder readers x) :
    ∀ x ∈ acts', Owned (holder.afterCall label.returned) readers x := by
  have hfree : ∀ {x : Activity Owner}, o = some x → ∀ y ∈ acts, y.owner ≠ x.owner := by
    intro x hx y hy he
    apply hfresh x hx
    rw [← he]
    exact List.mem_map_of_mem hy
  have htail : ∀ {x : Activity Owner} {rest : List (Activity Owner)}, acts.Perm (x :: rest) →
      Owned holder readers x ∧ (∀ y ∈ rest, Owned holder readers y) ∧
        ∀ y ∈ rest, y.owner ≠ x.owner := by
    intro x rest hp
    refine ⟨ho x (hp.mem_iff.mpr List.mem_cons_self), fun y hy => ?_, fun y hy => ?_⟩
    · exact ho y (hp.mem_iff.mpr (List.mem_cons_of_mem _ hy))
    · exact (hu.perm hp.symm).not_mem hy
  cases h with
  | idle _ hr hp =>
    rw [hr, Holder.afterCall_none]
    intro y hy
    exact ho y (hp.mem_iff.mp hy)
  | start _ hr hp =>
    rw [owned_after_fetch (hstart _ rfl) hr]
    intro y hy
    rcases List.mem_cons.mp (hp.mem_iff.mp hy) with rfl | hy
    · exact hstart _ rfl
    · exact ho y hy
  | refuse _ _ hr _ hp =>
    rw [hr]
    intro y hy
    exact owned_after_return (hstart _ rfl) ho (hfree rfl) _ _ y (hp.mem_iff.mp hy)
  | nothing _ _ _ hr hp =>
    rw [hr]
    intro y hy
    exact owned_after_return (hstart _ rfl) ho (hfree rfl) _ _ y (hp.mem_iff.mp hy)
  | resume _ _ hr hp hp' =>
    rw [owned_after_fetch (htail hp).1 hr]
    intro y hy
    exact ho y (hp.mem_iff.mpr (hp'.mem_iff.mp hy))
  | fail _ _ hr _ hp hp' =>
    obtain ⟨h₁, h₂, h₃⟩ := htail hp
    rw [hr]
    intro y hy
    exact owned_after_return h₁ h₂ h₃ _ _ y (hp'.mem_iff.mp hy)
  | installed _ _ _ _ hr hp hp' =>
    obtain ⟨h₁, h₂, h₃⟩ := htail hp
    rw [hr]
    intro y hy
    exact owned_after_return h₁ h₂ h₃ _ _ y (hp'.mem_iff.mp hy)
  | @replaced x _ _ _ rest page ht _ _ _ hr hp hp' =>
    obtain ⟨h₁, h₂, -⟩ := htail hp
    rw [hr, Holder.afterCall_none]
    intro y hy
    rcases List.mem_cons.mp (hp'.mem_iff.mp hy) with rfl | hy
    · obtain ⟨c, todo, hpub, hh⟩ := h₁.install ht
      rw [Owned, hpub]
      exact ⟨c, page, todo, hh, .inr rfl⟩
    · exact h₂ y hy
  | flushed _ ht hr _ _ hp hp' =>
    obtain ⟨h₁, h₂, -⟩ := htail hp
    rw [hr, Holder.afterCall_none]
    intro y hy
    rcases List.mem_cons.mp (hp'.mem_iff.mp hy) with rfl | hy
    · obtain ⟨auto, i, todo, hck, hh⟩ := h₁.flush ht
      rw [Owned, hck]
      exact ⟨auto, i, todo, hh, .inr ⟨_, rfl⟩⟩
    · exact h₂ y hy
  | guarded _ hr _ _ _ hp hp' =>
    rw [hr, Holder.afterCall_none]
    intro y hy
    exact ho y (hp.mem_iff.mpr (hp'.mem_iff.mp hy))
  | release _ _ hr hp hp' =>
    rw [hr, Holder.afterCall_none]
    intro y hy
    exact (htail hp).2.1 y (hp'.mem_iff.mp hy)
  | «return» _ _ hr hp hp' =>
    obtain ⟨h₁, h₂, h₃⟩ := htail hp
    rw [hr]
    intro y hy
    exact owned_after_return h₁ h₂ h₃ _ _ y (hp'.mem_iff.mp hy)

end CallStep

theorem Database.Allows.not_sync {db : Database} {a : Action Owner} (h : db.Allows a) :
    ∀ ev, a ≠ .sync ev := by
  rintro ev rfl
  exact h

theorem Database.Allows.not_edits {db : Database} {a : Action Owner} (h : db.Allows a) : ¬ a.Edits := by
  cases a with
  | guard i k g =>
    rcases h with rfl | rfl | rfl
    · exact id
    · exact id
    · exact id
  | _ => exact id

theorem Database.Allows.owned {db : Database} {a : Action Owner} (h : db.Allows a) {x : Activity Owner}
    (hx : a.starts = some x) : Owned db.holder db.readers x := by
  cases a with
  | fetch owner id rd =>
    injection hx with hx
    subst hx
    cases owner with
    | reader r k => exact ⟨h.1, rfl⟩
    | writer k =>
      obtain ⟨w, hw, -⟩ := h
      exact ⟨⟨w, hw⟩, rfl⟩
    | publisher => exact False.elim h
    | checkpointer => exact False.elim h
  | install owner id page =>
    injection hx with hx
    subst hx
    cases owner with
    | publisher =>
      obtain ⟨c, todo, hh⟩ := h
      exact ⟨c, page, todo, hh, .inl rfl⟩
    | reader r k => exact False.elim h
    | writer k => exact False.elim h
    | checkpointer => exact False.elim h
  | flush owner id =>
    injection hx with hx
    subst hx
    cases owner with
    | checkpointer =>
      obtain ⟨auto, i, todo, hh⟩ := h
      exact ⟨auto, i, todo, hh, .inl rfl⟩
    | reader r k => exact False.elim h
    | writer k => exact False.elim h
    | publisher => exact False.elim h
  | resume => cases hx
  | work => cases hx
  | guard => cases hx
  | unpin => cases hx
  | sync => cases hx

end OxenDB
