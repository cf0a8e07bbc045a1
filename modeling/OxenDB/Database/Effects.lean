import OxenDB.BufferPool.Views
import OxenDB.Database.Locks

namespace OxenDB

open Lib

def Remaining (c : Commit) (rest : List (PageId × Page)) (holder : Holder)
    (acts : List (Activity Owner)) : Prop :=
  ∃ todo, holder = .publishing c todo ∧
    ((∃ x ∈ acts, x.owner = .publisher ∧ x.task = .drop (.ok ()) ∧ ∃ u, todo = u :: rest) ∨
      ((∀ x ∈ acts, x.owner = .publisher → ∃ page, x.task = .install page) ∧ todo = rest))

def CleanDrops (c : Cache) (acts : List (Activity Owner)) : Prop :=
  ∀ x ∈ acts, x.owner = .checkpointer → x.task = .drop (.ok ()) → c.Clean x.id

section CallStep

variable {c c' : Cache} {wr : WriteResult} {rd : Bool} {exhausted edits : Prop} {holder : Holder}
  {readers : List ℕ} {o : Option (Activity Owner)} {label : Label Owner}
  {acts acts' rest : List (Activity Owner)} {x : Activity Owner} {cm : Commit}
  {images : List (PageId × Page)}

theorem CallStep.unmarked (h : CallStep c c' wr rd exhausted edits o label acts acts')
    (he : ¬ edits) : label.marked = none := by
  cases h with
  | idle hq => exact hq.marked
  | start hq => exact hq.marked
  | refuse hq => exact hq.marked
  | nothing hq => exact hq.marked
  | resume hq => exact hq.marked
  | fail hq => exact hq.marked
  | installed _ _ hm => exact hm
  | replaced _ _ hm => exact hm
  | flushed hq => exact hq.marked
  | guarded _ _ _ _ hn => exact (hn he).2
  | release hq => exact hq.marked
  | «return» hq => exact hq.marked

theorem CallStep.updated (h : CallStep c c' wr rd exhausted edits o label acts acts') (he : ¬ edits)
    {u : PageId × Page} (hu : label.update = some u) :
    ∃ x ∈ acts, x.id = u.1 ∧ x.task = .install u.2 := by
  have hquiet : ¬ label.Quiet := fun hq => by
    rw [hq.update] at hu
    cases hu
  cases h with
  | idle hq => exact absurd hq hquiet
  | start hq => exact absurd hq hquiet
  | refuse hq => exact absurd hq hquiet
  | nothing hq => exact absurd hq hquiet
  | resume hq => exact absurd hq hquiet
  | fail hq => exact absurd hq hquiet
  | @installed x _ _ _ _ page ht hn _ _ _ hp _ =>
    cases hn.symm.trans hu
    exact ⟨x, hp.mem_iff.mpr List.mem_cons_self, rfl, ht⟩
  | @replaced x _ _ _ _ page ht hn _ _ _ hp _ =>
    cases hn.symm.trans hu
    exact ⟨x, hp.mem_iff.mpr List.mem_cons_self, rfl, ht⟩
  | flushed hq => exact absurd hq hquiet
  | guarded _ _ _ _ hn => cases (hn he).1.symm.trans hu
  | release hq => exact absurd hq hquiet
  | «return» hq => exact absurd hq hquiet

theorem CallStep.not_updated (h : CallStep c c' wr rd exhausted edits o label acts acts') (he : ¬ edits)
    (ho : ∀ x ∈ acts, Owned holder readers x) (hh : ∀ cm todo, holder ≠ .publishing cm todo) :
    label.update = none := by
  cases hu : label.update with
  | none => rfl
  | some u =>
    obtain ⟨x, hx, -, ht⟩ := h.updated he hu
    obtain ⟨cm, todo, -, hp⟩ := (ho x hx).install ht
    exact absurd hp (hh cm _)

theorem CallStep.fetches (h : CallStep c c' wr rd exhausted edits o label acts acts') {y : Activity Owner}
    (hy : y ∈ acts') (ht : y.task = .fetch) : y ∈ acts ∨ o = some y := by
  rcases h.mem_cases hy with hold | hnew | ⟨x, -, -, -, ⟨-, hdrop⟩ | ⟨frame, -, -, hdrop⟩⟩
  · exact .inl hold
  · exact .inr hnew
  · cases ht.symm.trans hdrop
  · cases ht.symm.trans hdrop

theorem Remaining.perm (h : Remaining cm images holder acts) (hp : acts'.Perm acts) :
    Remaining cm images holder acts' := by
  obtain ⟨todo, hh, ⟨x, hx, hr⟩ | ⟨hall, ht⟩⟩ := h
  · exact ⟨todo, hh, .inl ⟨x, hp.mem_iff.mpr hx, hr⟩⟩
  · exact ⟨todo, hh, .inr ⟨fun x hx => hall x (hp.mem_iff.mp hx), ht⟩⟩

theorem Remaining.cons (h : Remaining cm images holder acts) (hx : x.owner ≠ .publisher) :
    Remaining cm images holder (x :: acts) := by
  obtain ⟨todo, hh, ⟨y, hy, hr⟩ | ⟨hall, ht⟩⟩ := h
  · exact ⟨todo, hh, .inl ⟨y, List.mem_cons_of_mem _ hy, hr⟩⟩
  · refine ⟨todo, hh, .inr ⟨fun y hy ho => ?_, ht⟩⟩
    rcases List.mem_cons.mp hy with rfl | hy
    · exact absurd ho hx
    · exact hall y hy ho

theorem Remaining.of_cons (h : Remaining cm images holder (x :: acts)) (hx : x.owner ≠ .publisher) :
    Remaining cm images holder acts := by
  obtain ⟨todo, hh, ⟨y, hy, ho, hr⟩ | ⟨hall, ht⟩⟩ := h
  · rcases List.mem_cons.mp hy with rfl | hy
    · exact absurd ho hx
    · exact ⟨todo, hh, .inl ⟨y, hy, ho, hr⟩⟩
  · exact ⟨todo, hh, .inr ⟨fun y hy => hall y (List.mem_cons_of_mem _ hy), ht⟩⟩

theorem Remaining.install (h : Remaining cm images holder (x :: acts)) (hu : Unique (x :: acts))
    {page : Page} (ho : x.owner = .publisher) (ht : x.task = .install page) :
    holder = .publishing cm images ∧ ∀ y ∈ acts, y.owner ≠ .publisher := by
  have hne : ∀ y ∈ acts, y.owner ≠ .publisher := fun y hy => by
    rw [← ho]
    exact hu.not_mem hy
  obtain ⟨todo, hh, ⟨y, hy, hp, hd, -⟩ | ⟨-, rfl⟩⟩ := h
  · rcases List.mem_cons.mp hy with rfl | hy
    · cases ht.symm.trans hd
    · exact absurd hp (hne y hy)
  · exact ⟨hh, hne⟩

theorem Remaining.drop (h : Remaining cm images holder (x :: acts)) (hu : Unique (x :: acts))
    (ho : x.owner = .publisher) (ht : x.task = .drop (.ok ())) :
    (∃ u, holder = .publishing cm (u :: images)) ∧ ∀ y ∈ acts, y.owner ≠ .publisher := by
  have hne : ∀ y ∈ acts, y.owner ≠ .publisher := fun y hy => by
    rw [← ho]
    exact hu.not_mem hy
  obtain ⟨todo, hh, ⟨y, hy, hp, hd, u, rfl⟩ | ⟨hall, -⟩⟩ := h
  · exact ⟨⟨u, hh⟩, hne⟩
  · obtain ⟨page, hp⟩ := hall x List.mem_cons_self ho
    cases ht.symm.trans hp

theorem Remaining.none (hne : ∀ y ∈ acts, y.owner ≠ .publisher) :
    Remaining cm images (.publishing cm images) acts :=
  ⟨images, rfl, .inr ⟨fun y hy ho => absurd ho (hne y hy), rfl⟩⟩

theorem Owned.not_checkpointer {todo : List (PageId × Page)} (hx : Owned holder readers x)
    (hh : holder = .publishing cm todo) : x.owner ≠ .checkpointer := by
  intro hck
  obtain ⟨_, _, _, he, -⟩ := hx.of_checkpointer hck
  rw [hh] at he
  cases he

theorem Owned.not_flush {todo : List (PageId × Page)} (hx : Owned holder readers x)
    (hh : holder = .publishing cm todo) : x.task ≠ .flush := by
  intro ht
  obtain ⟨_, _, _, hck, -⟩ := hx.flush ht
  exact hx.not_checkpointer hh hck

theorem Owned.fetch_not_publisher (hx : Owned holder readers x) (ht : x.task = .fetch) :
    x.owner ≠ .publisher := by
  intro hpub
  obtain ⟨_, _, _, -, he | he⟩ := hx.of_publisher hpub
  · cases ht.symm.trans he
  · cases ht.symm.trans he

theorem Holder.publish_error {todo : List (PageId × Page)} (hh : holder = .publishing cm todo)
    (hpub : x.owner = .publisher) (e : Error) :
    holder.afterCall (some (x.owner, x.id, .error e)) = .failed (.publish cm) := by
  rw [hh, hpub]
  cases todo <;> rfl

theorem CallStep.remaining (h : CallStep c c' wr rd exhausted edits o label acts acts') (he : ¬ edits)
    (hu : Unique acts) (hfresh : ∀ x, o = some x → x.owner ∉ acts.map Activity.owner)
    (hstart : ∀ x, o = some x → Owned holder readers x ∧ ∀ r, x.task ≠ .drop r)
    (ho : ∀ x ∈ acts, Owned holder readers x) (hr : Remaining cm images holder acts) :
    (label.update = none ∧ holder.afterCall label.returned = .failed (.publish cm)) ∨
      (label.update = none ∧ Remaining cm images (holder.afterCall label.returned) acts') ∨
      ∃ u images', images = u :: images' ∧ label.update = some u ∧
        Remaining cm images' (holder.afterCall label.returned) acts' := by
  have ⟨todo, hh, _⟩ := hr
  have hmem : ∀ {x : Activity Owner} {rest : List (Activity Owner)}, acts.Perm (x :: rest) →
      Owned holder readers x := fun hp => ho _ (hp.mem_iff.mpr List.mem_cons_self)
  cases h with
  | idle hq hret hp =>
    rw [hret, Holder.afterCall_none]
    exact .inr (.inl ⟨hq.update, hr.perm hp⟩)
  | @start x _ _ _ hq hret hp =>
    obtain ⟨hx, hnd⟩ := hstart x rfl
    rw [owned_after_fetch hx hret]
    refine .inr (.inl ⟨hq.update, ?_⟩)
    refine Remaining.perm ?_ hp
    by_cases hpub : x.owner = .publisher
    · obtain ⟨todo', hh', ⟨y, hy, hyp, -⟩ | ⟨hall, rfl⟩⟩ := hr
      · exact absurd (hpub ▸ hyp ▸ List.mem_map_of_mem hy) (hfresh x rfl)
      · refine ⟨_, hh', .inr ⟨fun y hy hyp => ?_, rfl⟩⟩
        rcases List.mem_cons.mp hy with rfl | hy
        · obtain ⟨_, page, _, -, ht | ht⟩ := hx.of_publisher hpub
          · exact ⟨page, ht⟩
          · exact absurd ht (hnd _)
        · exact hall y hy hyp
    · exact hr.cons hpub
  | @refuse x _ _ _ e hq _ hret _ hp =>
    obtain ⟨hx, -⟩ := hstart x rfl
    rw [hret]
    by_cases hpub : x.owner = .publisher
    · exact .inl ⟨hq.update, Holder.publish_error hh hpub e⟩
    · rw [Owned.afterCall_eq hpub (hx.not_checkpointer hh)]
      exact .inr (.inl ⟨hq.update, hr.perm hp⟩)
  | @nothing x _ _ _ _ ht => exact absurd ht ((hstart x rfl).1.not_flush hh)
  | @resume x _ _ _ rest hq _ hret hp hp' =>
    rw [owned_after_fetch (hmem hp) hret]
    exact .inr (.inl ⟨hq.update, hr.perm (hp'.trans hp.symm)⟩)
  | @fail x _ _ _ rest e hq _ hret _ hp hp' =>
    rw [hret]
    by_cases hpub : x.owner = .publisher
    · exact .inl ⟨hq.update, Holder.publish_error hh hpub e⟩
    · rw [Owned.afterCall_eq hpub ((hmem hp).not_checkpointer hh)]
      exact .inr (.inl ⟨hq.update, ((hr.perm hp.symm).of_cons hpub).perm hp'⟩)
  | @installed x _ _ _ rest page ht hup _ _ hret hp hp' =>
    obtain ⟨_, todo', hpub, hh'⟩ := (hmem hp).install ht
    obtain ⟨hi, hne⟩ := (hr.perm hp.symm).install (hu.perm hp.symm) hpub ht
    rw [hi] at hh'
    injection hh' with hcm himg
    subst himg
    rw [hret, hi, hpub]
    exact .inr (.inr ⟨_, _, rfl, hup, (Remaining.none hne).perm hp'⟩)
  | @replaced x _ _ _ rest page ht hup _ _ hret hp hp' =>
    obtain ⟨_, todo', hpub, hh'⟩ := (hmem hp).install ht
    obtain ⟨hi, hne⟩ := (hr.perm hp.symm).install (hu.perm hp.symm) hpub ht
    rw [hi] at hh'
    injection hh' with hcm himg
    subst himg
    rw [hret, Holder.afterCall_none, hi]
    refine .inr (.inr ⟨_, _, rfl, hup, Remaining.perm ?_ hp'⟩)
    exact ⟨_, rfl, .inl ⟨_, List.mem_cons_self, hpub, rfl, _, rfl⟩⟩
  | @flushed x _ _ _ _ _ _ ht _ _ _ hp => exact absurd ht ((hmem hp).not_flush hh)
  | @guarded x _ _ _ rest _ ht hret _ _ hn hp hp' =>
    rw [hret, Holder.afterCall_none]
    exact .inr (.inl ⟨(hn he).1, hr.perm (hp'.trans hp.symm)⟩)
  | @release x _ _ _ rest hq ht hret hp hp' =>
    rw [hret, Holder.afterCall_none]
    exact .inr (.inl ⟨hq.update, ((hr.perm hp.symm).of_cons ((hmem hp).fetch_not_publisher ht)).perm hp'⟩)
  | @«return» x _ _ _ rest r hq ht hret hp hp' =>
    rcases (hmem hp).drop ht with ⟨hpub, rfl, -⟩ | ⟨hck, -⟩
    · obtain ⟨⟨u, hi⟩, hne⟩ := (hr.perm hp.symm).drop (hu.perm hp.symm) hpub ht
      rw [hret, hi, hpub]
      exact .inr (.inl ⟨hq.update, (Remaining.none hne).perm hp'⟩)
    · exact absurd hck ((hmem hp).not_checkpointer hh)

theorem CleanDrops.perm (h : CleanDrops c acts) (hp : acts'.Perm acts) : CleanDrops c acts' :=
  fun x hx => h x (hp.mem_iff.mp hx)

theorem CleanDrops.of_cons (h : CleanDrops c (x :: acts)) : CleanDrops c acts :=
  fun y hy => h y (List.mem_cons_of_mem _ hy)

theorem CleanDrops.cons (h : CleanDrops c acts)
    (hx : x.owner = .checkpointer → x.task = .drop (.ok ()) → c.Clean x.id) : CleanDrops c (x :: acts) := by
  intro y hy
  rcases List.mem_cons.mp hy with rfl | hy
  · exact hx
  · exact h y hy

theorem CleanDrops.mono (h : CleanDrops c acts) (hc : ∀ id, c.Clean id → c'.Clean id) :
    CleanDrops c' acts := fun x hx ho ht => hc x.id (h x hx ho ht)

section Flushing

variable {auto : Option Commit} {i : ℕ} {todo : Option (List PageId)}

theorem Owned.not_publisher (hx : Owned holder readers x)
    (hh : holder = .checkpointing auto (.flush i todo)) : x.owner ≠ .publisher := by
  intro hpub
  obtain ⟨_, _, _, he, -⟩ := hx.of_publisher hpub
  rw [hh] at he
  cases he

theorem Holder.flush_error (hh : holder = .checkpointing auto (.flush i todo))
    (hck : x.owner = .checkpointer) (e : Error) :
    holder.afterCall (some (x.owner, x.id, .error e)) = .failed (.checkpoint auto) := by
  rw [hh, hck]
  rcases todo with _ | _ | _ <;> rfl

theorem Owned.flush_done (hx : Owned holder readers x)
    (hh : holder = .checkpointing auto (.flush i todo)) (hck : x.owner = .checkpointer) :
    ∃ ids, todo = some (x.id :: ids) ∧
      holder.afterCall (some (x.owner, x.id, .ok ())) = .checkpointing auto (.flush i (some ids)) := by
  obtain ⟨_, _, ids, he, -⟩ := hx.of_checkpointer hck
  rw [hh] at he
  injection he with _ he
  injection he with _ he
  refine ⟨ids, he, ?_⟩
  rw [hh, he, hck]
  rfl

theorem CallStep.flushing (h : CallStep c c' wr rd exhausted edits o label acts acts')
    (hstart : ∀ x, o = some x → Owned holder readers x ∧ ∀ r, x.task ≠ .drop r)
    (ho : ∀ x ∈ acts, Owned holder readers x) (hh : holder = .checkpointing auto (.flush i todo))
    (hclean : ∀ id, c.Clean id → c'.Clean id) (hd : CleanDrops c acts) :
    holder.afterCall label.returned = .failed (.checkpoint auto) ∨
      CleanDrops c' acts' ∧ (holder.afterCall label.returned = holder ∨
        ∃ id ids, todo = some (id :: ids) ∧ c'.Clean id ∧
          holder.afterCall label.returned = .checkpointing auto (.flush i (some ids))) := by
  have hmem : ∀ {x : Activity Owner} {rest : List (Activity Owner)}, acts.Perm (x :: rest) →
      Owned holder readers x := fun hp => ho _ (hp.mem_iff.mpr List.mem_cons_self)
  cases h with
  | idle hq hret hp =>
    rw [hret, Holder.afterCall_none]
    exact .inr ⟨(hd.mono hclean).perm hp, .inl rfl⟩
  | @start x _ _ _ hq hret hp =>
    obtain ⟨hx, hnd⟩ := hstart x rfl
    rw [owned_after_fetch hx hret]
    refine .inr ⟨CleanDrops.perm ?_ hp, .inl rfl⟩
    exact (hd.mono hclean).cons (fun _ ht => absurd ht (hnd _))
  | @refuse x _ _ _ e hq _ hret _ hp =>
    obtain ⟨hx, -⟩ := hstart x rfl
    rw [hret]
    by_cases hck : x.owner = .checkpointer
    · exact .inl (Holder.flush_error hh hck e)
    · rw [Owned.afterCall_eq (hx.not_publisher hh) hck]
      exact .inr ⟨(hd.mono hclean).perm hp, .inl rfl⟩
  | @nothing x _ _ _ _ ht hf hret hp =>
    obtain ⟨hx, -⟩ := hstart x rfl
    obtain ⟨_, _, _, hck, -⟩ := hx.flush ht
    obtain ⟨ids, htodo, hafter⟩ := hx.flush_done hh hck
    rw [hret, hafter]
    refine .inr ⟨(hd.mono hclean).perm hp, .inr ⟨x.id, ids, htodo, hclean _ ?_, rfl⟩⟩
    intro frame hframe
    rw [hf] at hframe
    cases hframe
  | @resume x _ _ _ rest hq _ hret hp hp' =>
    rw [owned_after_fetch (hmem hp) hret]
    exact .inr ⟨(hd.mono hclean).perm (hp'.trans hp.symm), .inl rfl⟩
  | @fail x _ _ _ rest e hq _ hret _ hp hp' =>
    rw [hret]
    by_cases hck : x.owner = .checkpointer
    · exact .inl (Holder.flush_error hh hck e)
    · rw [Owned.afterCall_eq ((hmem hp).not_publisher hh) hck]
      exact .inr ⟨((hd.mono hclean).perm hp.symm).of_cons.perm hp', .inl rfl⟩
  | @installed x _ _ _ rest page ht _ _ _ _ hp _ =>
    obtain ⟨_, _, hpub, -⟩ := (hmem hp).install ht
    exact absurd hpub ((hmem hp).not_publisher hh)
  | @replaced x _ _ _ rest page ht _ _ _ _ hp _ =>
    obtain ⟨_, _, hpub, -⟩ := (hmem hp).install ht
    exact absurd hpub ((hmem hp).not_publisher hh)
  | @flushed x _ _ _ rest frame _ _ hret hf hf' hp hp' =>
    rw [hret, Holder.afterCall_none]
    refine .inr ⟨CleanDrops.perm ?_ hp', .inl rfl⟩
    refine ((hd.mono hclean).perm hp.symm).of_cons.cons (fun _ hok frame' hframe => ?_)
    injection hok with hok
    rw [show c'.frame x.id = some frame' from hframe] at hf'
    injection hf' with hf'
    rw [hf']
    exact (frame.writeBack_spec _ _ _).clean_of_ok hok
  | @guarded x _ _ _ rest _ _ hret _ _ _ hp hp' =>
    rw [hret, Holder.afterCall_none]
    exact .inr ⟨(hd.mono hclean).perm (hp'.trans hp.symm), .inl rfl⟩
  | @release x _ _ _ rest _ _ hret hp hp' =>
    rw [hret, Holder.afterCall_none]
    exact .inr ⟨((hd.mono hclean).perm hp.symm).of_cons.perm hp', .inl rfl⟩
  | @«return» x _ _ _ rest r _ ht hret hp hp' =>
    have hx := hmem hp
    rcases hx.drop ht with ⟨hpub, -⟩ | ⟨hck, -⟩
    · exact absurd hpub (hx.not_publisher hh)
    · rw [hret]
      cases r with
      | error e => exact .inl (Holder.flush_error hh hck e)
      | ok u =>
        obtain ⟨ids, htodo, hafter⟩ := hx.flush_done hh hck
        rw [hafter]
        refine .inr ⟨((hd.mono hclean).perm hp.symm).of_cons.perm hp', .inr ⟨x.id, ids, htodo, ?_, rfl⟩⟩
        exact hclean _ (hd x (hp.mem_iff.mpr List.mem_cons_self) hck ht)

end Flushing

end CallStep

theorem Action.starts_not_drop {a : Action Owner} {x : Activity Owner} (h : a.starts = some x)
    (r : Except Error Unit) : x.task ≠ .drop r := by
  intro ht
  cases a with
  | fetch => cases h; cases ht
  | install => cases h; cases ht
  | flush => cases h; cases ht
  | _ => cases h

theorem Holder.afterCall_other {holder : Holder} (r : Option (Owner × PageId × Except Error Unit))
    (hp : ∀ c todo, holder ≠ .publishing c todo)
    (hf : ∀ auto i todo, holder ≠ .checkpointing auto (.flush i todo)) : holder.afterCall r = holder := by
  have hspec := holder.afterCall_spec r
  generalize holder.afterCall r = holder' at hspec ⊢
  cases hspec with
  | same => rfl
  | installed | installFailed => exact absurd rfl (hp _ _)
  | flushed | flushFailed => exact absurd rfl (hf _ _ _)

end OxenDB
