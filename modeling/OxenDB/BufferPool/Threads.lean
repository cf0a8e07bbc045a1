import OxenDB.BufferPool.Turns
import OxenDB.Lib.Transition

/-!
The threads of one shard, one lock acquisition or release at a time. A call is named by `a : α` and
made by thread `who a`; the handle that a `fetch_page` returns keeps the call's name, and any thread
may take guards through it or drop it.
-/

namespace OxenDB

open Lib

/-- Where a thread stands: outside of the pool's functions, at a lock it wants, or inside the frame
lock that a call took. -/
inductive Position (α : Type)
  | free
  | wantState
  | wantDrop (a : α)
  | wantFrame (a : α) (f : ℕ)
  | inFrame (a : α) (f : ℕ)

structure Hold (T α : Type) where
  thread : T
  handle : α
  frame : ℕ
  exclusive : Bool

structure Threads (T α : Type) (κ : Type := ℕ) where
  shard : Shard α κ
  pos : T → Position α
  guards : List (Hold T α)

def Shard.Needs {α κ : Type} (sh : Shard α κ) (a : α) (f : ℕ) : Prop :=
  (∃ s, sh.held = some s ∧ s.owner = a ∧ s.frame = f) ∨
    ∃ p ∈ sh.pins, p.owner = a ∧ p.frame = f ∧ p.stage.Calls

def Shard.Next {α κ : Type} (sh : Shard α κ) (a : α) : Position α → Prop
  | .free => ∀ f, ¬ sh.Needs a f
  | .wantFrame b f => b = a ∧ sh.Needs a f
  | _ => False

def Stage.isHandle : Stage → Bool
  | .handle _ _ => true
  | _ => false

def Shard.handlesAt {α κ : Type} (sh : Shard α κ) (f : ℕ) : ℕ :=
  sh.pins.countP (fun p => p.frame == f && p.stage.isHandle)

def Shard.owners {α κ : Type} (sh : Shard α κ) : List α := sh.held.toList.map Section.owner ++ sh.pins.map Pin.owner

namespace Threads

variable {T α κ : Type}

def new [OfNat κ 0] (capacity : ℕ) : Threads T α κ := ⟨Shard.new capacity, fun _ => .free, []⟩

def HoldsFrame (s : Threads T α κ) (t : T) (f : ℕ) : Prop :=
  (∃ a, s.pos t = .inFrame a f) ∨ ∃ h ∈ s.guards, h.thread = t ∧ h.frame = f

def Excludes (s : Threads T α κ) (t : T) (f : ℕ) : Prop :=
  (∃ a, s.pos t = .inFrame a f) ∨ ∃ h ∈ s.guards, h.thread = t ∧ h.frame = f ∧ h.exclusive = true

variable [DecidableEq T]

def move (s : Threads T α κ) (t : T) (x : Position α) : T → Position α := Function.update s.pos t x

/-- The disk is any at each step: other shards and the checkpointer write to it as well. -/
inductive Step [OfNat κ 0] [OfNat κ 1] [Add κ] [Sub κ] [LT κ] [DecidableLT κ] (who : α → T) :
    Threads T α κ → T → Threads T α κ → Prop
  | call {s : Threads T α κ} {t : T} : s.pos t = .free → Step who s t { s with pos := s.move t .wantState }
  -- `flush_cached` takes the page table's keys.
  | snapshot {s : Threads T α κ} {t : T} : s.pos t = .wantState → s.shard.held = none →
      Step who s t { s with pos := s.move t .free }
  | fetch {s : Threads T α κ} {t : T} {a : α} {x : Position α} (id : PageId) (disk : DiskManager) (rd : Bool) :
      s.pos t = .wantState → s.shard.held = none → who a = t → a ∉ s.shard.owners →
      (s.shard.fetchPage disk a id rd).1.Next a x →
      Step who s t ⟨(s.shard.fetchPage disk a id rd).1, s.move t x, s.guards⟩
  | install {s : Threads T α κ} {t : T} {a : α} {x : Position α} (id : PageId) (page : Page) :
      s.pos t = .wantState → s.shard.held = none → who a = t → a ∉ s.shard.owners →
      (s.shard.installPage a id page).1.Next a x →
      Step who s t ⟨(s.shard.installPage a id page).1, s.move t x, s.guards⟩
  | flush {s : Threads T α κ} {t : T} {a : α} {x : Position α} (id : PageId) :
      s.pos t = .wantState → s.shard.held = none → who a = t → a ∉ s.shard.owners →
      (s.shard.flushPage a id).1.Next a x →
      Step who s t ⟨(s.shard.flushPage a id).1, s.move t x, s.guards⟩
  | enter {s : Threads T α κ} {t : T} {a : α} {f : ℕ} : s.pos t = .wantFrame a f → who a = t →
      s.shard.Needs a f → (∀ t', ¬ s.HoldsFrame t' f) → Step who s t { s with pos := s.move t (.inFrame a f) }
  | leave {s : Threads T α κ} {t : T} {sec : Section α} {o : Outcome α κ} {x : Position α} (disk : DiskManager)
      (wr : WriteResult) (rd : Bool) : s.pos t = .inFrame sec.owner sec.frame → s.shard.held = some sec →
      s.shard.resume disk wr rd = some o → o.shard.Next sec.owner x →
      Step who s t ⟨o.shard, s.move t x, s.guards⟩
  | finish {s : Threads T α κ} {t : T} {p : Pin α} {o : Outcome α κ} (k : ℕ) (disk : DiskManager)
      (wr : WriteResult) : s.pos t = .inFrame p.owner p.frame → s.shard.pins[k]? = some p →
      s.shard.work disk k wr = some o → Step who s t ⟨o.shard, s.move t (.wantDrop p.owner), s.guards⟩
  | want {s : Threads T α κ} {t : T} {p : Pin α} {reads : ℕ} {writing : Bool} : s.pos t = .free →
      p ∈ s.shard.pins → p.stage = .handle reads writing → (∀ t', s.pos t' ≠ .wantDrop p.owner) →
      Step who s t { s with pos := s.move t (.wantFrame p.owner p.frame) }
  | lockRead {s : Threads T α κ} {t : T} {p : Pin α} {r : Shard α κ × Label α} (k : ℕ) :
      s.pos t = .wantFrame p.owner p.frame → s.shard.pins[k]? = some p →
      (∀ t', ¬ s.Excludes t' p.frame) → s.shard.guard k .lockRead = some r →
      Step who s t ⟨r.1, s.move t .free, ⟨t, p.owner, p.frame, false⟩ :: s.guards⟩
  | lockWrite {s : Threads T α κ} {t : T} {p : Pin α} {r : Shard α κ × Label α} (k : ℕ) :
      s.pos t = .wantFrame p.owner p.frame → s.shard.pins[k]? = some p →
      (∀ t', ¬ s.HoldsFrame t' p.frame) → s.shard.guard k .lockWrite = some r →
      Step who s t ⟨r.1, s.move t .free, ⟨t, p.owner, p.frame, true⟩ :: s.guards⟩
  | read {s : Threads T α κ} {t : T} {p : Pin α} {h : Hold T α} {r : Shard α κ × Label α} (k : ℕ) :
      s.pos t = .free → h ∈ s.guards → h.thread = t → s.shard.pins[k]? = some p → h.handle = p.owner →
      s.shard.guard k .read = some r → Step who s t { s with shard := r.1 }
  | write {s : Threads T α κ} {t : T} {p : Pin α} {h : Hold T α} {r : Shard α κ × Label α} (k : ℕ) (page : Page) :
      s.pos t = .free → h ∈ s.guards → h.thread = t → h.exclusive = true → s.shard.pins[k]? = some p →
      h.handle = p.owner → s.shard.guard k (.write page) = some r → Step who s t { s with shard := r.1 }
  | unlock {s : Threads T α κ} {t : T} {p : Pin α} {h : Hold T α} {r : Shard α κ × Label α}
      {rest : List (Hold T α)} (k : ℕ) : s.pos t = .free → s.guards.Perm (h :: rest) → h.thread = t →
      s.shard.pins[k]? = some p → h.handle = p.owner →
      s.shard.guard k (if h.exclusive then .unlockWrite else .unlockRead) = some r →
      Step who s t ⟨r.1, s.pos, rest⟩
  | drop {s : Threads T α κ} {t : T} {p : Pin α} : s.pos t = .free → p ∈ s.shard.pins →
      p.stage = .handle 0 false → (∀ t' f, s.pos t' ≠ .wantFrame p.owner f) →
      (∀ t', s.pos t' ≠ .wantDrop p.owner) → Step who s t { s with pos := s.move t (.wantDrop p.owner) }
  | unpin {s : Threads T α κ} {t : T} {p : Pin α} {r : Shard α κ × Label α} (k : ℕ) : s.pos t = .wantDrop p.owner →
      s.shard.held = none → s.shard.pins[k]? = some p → s.shard.unpin k = some r →
      Step who s t ⟨r.1, s.move t .free, s.guards⟩

end Threads

end OxenDB
