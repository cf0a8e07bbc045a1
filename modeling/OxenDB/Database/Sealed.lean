import OxenDB.BufferPool.Sealed
import OxenDB.Database.Success

/-!
A session over a disk that rots: between any two steps the bytes of both files may turn into
anything. A page that no longer verifies is an error to whoever fetches it; it never reaches a
transaction, the log or the data file.
-/

namespace OxenDB

open Lib

def Holder.toInstall : Holder → List (PageId × Page)
  | .logging c => c.installs
  | .flushing c => c.installs
  | .durable c => c.installs
  | .publishing _ todo => todo
  | _ => []

theorem Holder.AfterCall.toInstall {r : Option (Owner × PageId × Except Error Unit)} {holder holder' : Holder}
    (h : AfterCall r holder holder') : holder'.toInstall ⊆ holder.toInstall := by
  cases h with
  | same => exact List.Subset.refl _
  | installed => exact List.subset_cons_self _ _
  | installFailed | flushed | flushFailed => exact List.nil_subset _

theorem Commit.installs_subset (c : Commit) : c.installs ⊆ c.pages := by
  intro u hu
  obtain ⟨hu, hne⟩ := List.mem_filter.mp hu
  rw [Commit.images, List.mem_append] at hu
  refine hu.resolve_left fun hu => ?_
  split_ifs at hu
  · rw [List.mem_singleton.mp hu] at hne
    exact absurd rfl (of_decide_eq_true hne)
  · cases hu

namespace Database

inductive Decay : Database → Event → Database → Prop
  | step {db db' : Database} {e : Event} : Step db e db' → Decay db e db'
  | rot {db : Database} (data log : Bytes) : Decay db .tau { db with
      pool := { db.pool with disk := { db.pool.disk with file := { db.pool.disk.file with contents := data } } }
      walFile := { db.walFile with contents := log } }

structure Sealed (db : Database) : Prop where
  kept : db.pool.Kept
  pool : db.pool.Sealed
  installs : ∀ u ∈ db.holder.toInstall, u.2.Valid u.1

end Database

def Event.Sealed : Event → Prop
  | .pool _ label => label.Sealed
  | .copied id page => page.Valid id
  | .logged c => ∀ u ∈ c.pages, u.2.Valid u.1
  | _ => True

namespace Database

variable {db db' : Database} {e : Event}

theorem Sealed.pool_step (h : db.Sealed) {a : Action Owner} {label : Label Owner} {pool : BufferPool Owner}
    (ha : db.Allows a) (hs : db.pool.step a = some (pool, label)) : (pool.Kept ∧ pool.Sealed) ∧ label.Sealed := by
  have hinstalls : ∀ owner id page, a = .install owner id page → page.Valid id := by
    rintro owner id page rfl
    cases owner with
    | publisher =>
      obtain ⟨c, todo, hh⟩ := ha
      exact h.installs (id, page) (by rw [hh]; exact List.mem_cons_self)
    | _ => exact ha.elim
  obtain ⟨hp, hl⟩ := h.pool.step h.kept ha.not_edits hinstalls hs
  exact ⟨⟨(h.kept.step hs).kept, hp⟩, hl⟩

theorem Sealed.disk (h : db.Sealed) (disk : DiskManager) : (db.setDisk disk).Sealed :=
  ⟨⟨h.kept.nonempty, h.kept.shards⟩, h.pool, h.installs⟩

theorem Sealed.step (h : db.Sealed) (hs : Step db e db') : db'.Sealed ∧ e.Sealed := by
  cases hs with
  | pool ha hp =>
    obtain ⟨⟨hk, hp⟩, hl⟩ := h.pool_step ha hp
    exact ⟨⟨hk, hp, fun u hu => h.installs u ((Holder.afterCall_spec _ _).toInstall hu)⟩, hl⟩
  | @copyPage w i k n id page label pool hh hd hp hr =>
    have ha : db.Allows (.guard i k .read) := .inr (.inl rfl)
    obtain ⟨⟨hk, hp⟩, hl⟩ := h.pool_step ha hp
    exact ⟨⟨hk, hp, by rintro u ⟨⟩⟩, hl.read _ _ _ hr⟩
  | commitLog hh _ _ hseal =>
    have hv := (sealPages_ok hseal).2
    exact ⟨⟨h.kept, h.pool, fun u hu => hv u (Commit.installs_subset _ hu)⟩, hv⟩
  | walWrite hh => exact ⟨⟨h.kept, h.pool, by have := h.installs; rwa [hh] at this⟩, trivial⟩
  | walSync hh => exact ⟨⟨h.kept, h.pool, by have := h.installs; rwa [hh] at this⟩, trivial⟩
  | publishLock hh =>
    exact ⟨⟨(h.disk _).kept, h.pool, by have := h.installs; rwa [hh] at this⟩, trivial⟩
  | _ =>
    refine ⟨⟨?_, ?_, ?_⟩, trivial⟩
    · first | exact h.kept | exact (h.disk _).kept
    · exact h.pool
    · first | exact h.installs | (rintro u ⟨⟩)

theorem Sealed.decay (h : db.Sealed) (hs : Decay db e db') : db'.Sealed ∧ e.Sealed := by
  cases hs with
  | step hs => exact h.step hs
  | rot => exact ⟨⟨(h.disk _).kept, h.pool, h.installs⟩, trivial⟩

theorem Sealed.start {path : DbPath} {data wal : Option Bytes} {options : Options}
    (h : Database.open path data wal options = .ok db) : db.Sealed := by
  obtain ⟨disk, n, pool, auto, seq, -, hp, rfl⟩ := Database.open_eq h
  exact ⟨(BufferPool.new_ok_kept hp).1, BufferPool.new_sealed hp, by rintro u ⟨⟩⟩

theorem sealed_run {path : DbPath} {data wal : Option Bytes} {options : Options} {db₀ : Database} {es : List Event}
    (ho : Database.open path data wal options = .ok db₀) (hr : Run Decay db₀ es db) :
    db.Sealed ∧ ∀ e ∈ es, e.Sealed := by
  apply hr.invariant (I := fun es db => db.Sealed ∧ ∀ e ∈ es, e.Sealed)
  · exact ⟨Sealed.start ho, by simp⟩
  · rintro ls s l s' - ⟨hs, hls⟩ hstep
    obtain ⟨hs', hl⟩ := hs.decay hstep
    exact ⟨hs', List.forall_mem_append.mpr ⟨hls, List.forall_mem_singleton.mpr hl⟩⟩

/-- What a transaction reads or copies out of the pool, what is written back and what is logged passes
verification, whatever becomes of the bytes on disk. -/
theorem corruption_never_read {path : DbPath} {data wal : Option Bytes} {options : Options} {db₀ db : Database}
    {es : List Event} (ho : Database.open path data wal options = .ok db₀) (hr : Run Decay db₀ es db) :
    (∀ a label, .pool a label ∈ es →
      (∀ owner id page, label.read = some (owner, id, page) → page.Valid id) ∧
      ∀ id page, label.written = some (id, page) → page.Valid id) ∧
    (∀ id page, .copied id page ∈ es → page.Valid id) ∧
    ∀ c, .logged c ∈ es → ∀ u ∈ c.pages, u.2.Valid u.1 := by
  obtain ⟨-, hes⟩ := sealed_run ho hr
  refine ⟨fun a label hm => ?_, fun id page hm => hes _ hm, fun c hm => hes _ hm⟩
  exact ⟨(hes _ hm).read, (hes _ hm).written⟩

theorem corruption_never_read_cached : ∃ es db a label, Run Decay smallest es db ∧ .pool a label ∈ es ∧
    db.pool.disk.file.contents = [] ∧ label.read = some (.reader 0 0, 1, firstPage) ∧ firstPage.Valid 1 := by
  obtain ⟨es, hrun, -⟩ := smallest_committed
  have hrot := (hrun.mono (fun _ _ _ h => Decay.step h)).step (.rot [] [])
  have hbegan := (hrot.step (.step (.beginRead 0 rfl List.not_mem_nil List.not_mem_nil))).step
    (.step (.readLock List.mem_cons_self rfl))
  have hfetch := hbegan.step (.step (@Step.pool _ (.fetch (.reader 0 0) 1 true) _ _ ⟨List.mem_cons_self, rfl⟩ rfl))
  have hlock := hfetch.step (.step (@Step.pool _ (.guard 0 0 .lockRead) _ _ (.inl rfl) rfl))
  have hread := hlock.step (.step (@Step.pool _ (.guard 0 0 .read) _ _ (.inr (.inl rfl)) rfl))
  refine ⟨_, _, _, _, hread, List.mem_append_right _ (List.mem_singleton_self _), rfl, rfl, ?_⟩
  exact ((corruption_never_read smallest_open hread).1 _ _
    (List.mem_append_right _ (List.mem_singleton_self _))).1 _ _ _ rfl

end Database

end OxenDB
