import OxenDB.Database.Create

namespace OxenDB

open Lib

structure Untouched (db db' : Database) : Prop where
  wal : db'.wal = db.wal
  walFile : db'.walFile = db.walFile
  nextTxn : db'.nextTxn = db.nextTxn
  poisoned : db'.poisoned = db.poisoned
  pageCount : db'.pool.disk.pageCount = db.pool.disk.pageCount
  content : ∀ id, db'.pool.cache.content id = db.pool.cache.content id

inductive Event.Abandons : Event → Prop
  | rolledBack : Abandons .rolledBack
  | rejected (e : Error) : Abandons (.rejected e)
  | committedNothing : Abandons .committedNothing

def Database.WritingStep (db : Database) (e : Event) (db' : Database) : Prop :=
  Database.Step db e db' ∧ ∃ w, db'.holder = .writer w

namespace Untouched

variable {m₀ : PageMap} {h : History} {db db' db'' : Database} {e : Event} {w w' : WriteTxn}

theorem refl (db : Database) : Untouched db db := ⟨rfl, rfl, rfl, rfl, rfl, fun _ => rfl⟩

theorem trans (h : Untouched db db') (h' : Untouched db' db'') : Untouched db db'' where
  wal := h'.wal.trans h.wal
  walFile := h'.walFile.trans h.walFile
  nextTxn := h'.nextTxn.trans h.nextTxn
  poisoned := h'.poisoned.trans h.poisoned
  pageCount := h'.pageCount.trans h.pageCount
  content id := (h'.content id).trans (h.content id)

theorem pool (hi : Inv m₀ h db) (hh : db.holder = .writer w) {a : Action Owner} {label : Label Owner}
    {pool : BufferPool Owner} (ha : db.Allows a) (hs : db.pool.step a = some (pool, label))
    (holder : Holder) : Untouched db { db with pool := pool, holder := holder } := by
  have hstep := (BufferPool.step_steps hi.locks.pool hi.stored.small ha.not_sync hs).step
  have hnone : label.update = none :=
    Stored.not_updated hi.locks ha hs (by rw [hh]; rintro c todo ⟨⟩)
  refine ⟨rfl, rfl, rfl, rfl, hstep.pageCount, fun id => ?_⟩
  apply hstep.content hi.stored.small hi.stored.coherent
  intro page hu
  cases hnone.symm.trans hu

theorem step (hi : Inv m₀ h db) (hh : db.holder = .writer w) (hs : Database.Step db e db')
    (hh' : db'.holder = .writer w') : Untouched db db' := by
  cases hs with
  | pool ha hs => exact pool hi hh ha hs _
  | @copyPage _ i k _ _ _ _ _ _ _ hs _ =>
    exact pool hi hh (show db.Allows (.guard i k .read) from .inr (.inl rfl)) hs _
  | refuse | beginRead | readLock | readDrop | readCount | readOutside | beginWrite
  | writeLockPoisoned | writerCount | writerOutside | allocatePage | editPage | readDirty
  | beginCheckpoint => exact { refl db with }
  | writeLock _ hfree =>
    cases hh.symm.trans hfree
  | _ => cases hh'

theorem abandoned (hs : Database.Step db e db') (ha : e.Abandons) : Untouched db db' := by
  cases ha with
  | rolledBack =>
    cases hs
    exact { refl db with }
  | rejected e =>
    cases hs
    exact { refl db with }
  | committedNothing =>
    cases hs
    exact { refl db with }

end Untouched

namespace Database

variable {m₀ : PageMap} {db₀ db db₁ db₂ db₃ : Database} {es es' : List Event} {e : Event}

theorem Step.writeBegan_holder (hs : Database.Step db .writeBegan db₁) :
    db₁.holder = .writer ⟨∅, db.pool.disk.pageCount⟩ ∧ Untouched db db₁ := by
  cases hs
  exact ⟨rfl, { Untouched.refl db with }⟩

theorem writing_untouched (hs : db₀.Starts m₀) (hr : Run Database.Step db₀ es db₁)
    (hh : ∃ w, db₁.holder = .writer w) (hw : Run WritingStep db₁ es' db₂) : Untouched db₁ db₂ := by
  have hkept : (∃ ls, Run Database.Step db₀ ls db₂) ∧ (∃ w, db₂.holder = .writer w) ∧ Untouched db₁ db₂ := by
    apply hw.invariant (I := fun _ s => (∃ ls, Run Database.Step db₀ ls s) ∧ (∃ w, s.holder = .writer w) ∧
      Untouched db₁ s)
    · exact ⟨⟨es, hr⟩, hh, .refl db₁⟩
    · rintro _ s l s' _ ⟨⟨ls, hls⟩, ⟨w, hw⟩, hu⟩ ⟨hstep, w', hw'⟩
      exact ⟨⟨_, hls.step hstep⟩, ⟨w', hw'⟩, hu.trans (.step (Inv.run hs hls) hw hstep hw')⟩
  exact hkept.2.2

/-- A write transaction that ends without logging leaves the log, the counters, the poison flag and
every page as they were, whatever the other threads do meanwhile. -/
theorem abandoned_write_leaves_no_trace (hs : db₀.Starts m₀) (hr : Run Database.Step db₀ es db)
    (hb : Database.Step db .writeBegan db₁) (hw : Run WritingStep db₁ es' db₂)
    (he : Database.Step db₂ e db₃) (ha : e.Abandons) :
    Untouched db db₃ ∧ ∀ db₄, Database.Step db₃ .writeBegan db₄ → db₄.holder = db₁.holder := by
  obtain ⟨hholder, hbegan⟩ := hb.writeBegan_holder
  have hwriting := writing_untouched hs (hr.step hb) ⟨_, hholder⟩ hw
  have huntouched := (hbegan.trans hwriting).trans (.abandoned he ha)
  refine ⟨huntouched, fun db₄ hnext => ?_⟩
  rw [hnext.writeBegan_holder.1, hholder, huntouched.pageCount]

theorem abandoned_write_leaves_no_trace_first : ∃ db db₁ db₂ db₃ : Database,
    Database.Step db .writeBegan db₁ ∧ Database.Step db₁ (.allocated .heap) db₂ ∧
    Database.Step db₂ .rolledBack db₃ ∧ Untouched db db₃ := by
  have hbegan : Database.Step { smallest with waitingWrites := 1 } .writeBegan _ :=
    .writeLock Nat.one_pos rfl rfl
  refine ⟨_, _, _, _, hbegan, .allocatePage .heap rfl (smallest_idle rfl), .rollback rfl (smallest_idle rfl), ?_⟩
  exact (abandoned_write_leaves_no_trace smallest_starts (Run.start.step (.beginWrite rfl)) hbegan
    (Run.start.step ⟨.allocatePage .heap rfl (smallest_idle rfl), _, rfl⟩)
    (.rollback rfl (smallest_idle rfl)) .rolledBack).1

end Database

end OxenDB
