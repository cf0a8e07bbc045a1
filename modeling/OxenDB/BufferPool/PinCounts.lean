import OxenDB.BufferPool.Pool
import OxenDB.BufferPool.Turns

/-!
The pin counts of the source are `u32` and wrap. While no frame has 2^32 pins at a time, a pool that
counts in `UInt32` does exactly what the pool that counts in `ℕ` does.
-/

namespace OxenDB

variable {α : Type}

namespace PoolState

def wrap (st : PoolState) : PoolState UInt32 :=
  ⟨st.pageTable, st.framePages, st.pinCounts.map UInt32.ofNat, st.refBits, st.clockHand, st.freeFrames⟩

theorem wrap_new (n : ℕ) : (new n : PoolState).wrap = new n := by
  rw [wrap, new, new, List.map_replicate]
  rfl

@[simp]
theorem wrap_pageTable (st : PoolState) : st.wrap.pageTable = st.pageTable := rfl

@[simp]
theorem wrap_framePages (st : PoolState) : st.wrap.framePages = st.framePages := rfl

@[simp]
theorem wrap_freeFrames (st : PoolState) : st.wrap.freeFrames = st.freeFrames := rfl

theorem wrap_getD (st : PoolState) (f : ℕ) :
    st.wrap.pinCounts.getD f 0 = UInt32.ofNat (st.pinCounts.getD f 0) :=
  List.getD_map st.pinCounts 0 UInt32.ofNat

theorem wrap_set (st : PoolState) (f x : ℕ) :
    wrap { st with pinCounts := st.pinCounts.set f x } =
      { st.wrap with pinCounts := st.wrap.pinCounts.set f (UInt32.ofNat x) } := by
  rw [wrap, wrap, List.map_set]

theorem wrap_pin (st : PoolState) (f : ℕ) : (st.pin f).wrap = st.wrap.pin f := by
  rw [pin, pin, wrap_set, wrap_getD, UInt32.ofNat_add]
  rfl

theorem wrap_unpin (st : PoolState) {f : ℕ} (hf : 0 < st.pinCounts.getD f 0) :
    (st.unpin f).wrap = st.wrap.unpin f := by
  rw [unpin, unpin, wrap_set, wrap_getD, UInt32.ofNat_sub hf]
  rfl

theorem wrap_pinned {st : PoolState} {f : ℕ} (hf : st.pinCounts.getD f 0 < 2 ^ 32) :
    st.wrap.pinCounts.getD f 0 > 0 ↔ st.pinCounts.getD f 0 > 0 := by
  rw [wrap_getD, gt_iff_lt, UInt32.lt_iff_toNat_lt, UInt32.toNat_ofNat_of_lt' hf]
  rfl

theorem wrap_findVictimLoop (n : ℕ) (st : PoolState) (h : ∀ f, st.pinCounts.getD f 0 < 2 ^ 32) :
    findVictimLoop n st.wrap = Prod.map wrap id (findVictimLoop n st) := by
  induction n generalizing st with
  | zero => rfl
  | succ n ih =>
    simp only [findVictimLoop]
    by_cases hp : st.pinCounts.getD st.clockHand 0 > 0
    · rw [if_pos hp]
      exact (if_pos ((wrap_pinned (h _)).mpr hp)).trans (ih st.advance h)
    rw [if_neg hp]
    refine (if_neg (mt (wrap_pinned (h _)).mp hp)).trans ?_
    by_cases hr : st.refBits.getD st.clockHand false = true
    · rw [if_pos hr]
      exact (if_pos hr).trans (ih (st.advance.clear st.clockHand) h)
    · rw [if_neg hr]
      exact if_neg hr

theorem wrap_acquireFrame (st : PoolState) (capacity : ℕ) (h : ∀ f, st.pinCounts.getD f 0 < 2 ^ 32) :
    st.wrap.acquireFrame capacity = Prod.map wrap id (st.acquireFrame capacity) := by
  have hv : st.wrap.findVictim = Prod.map wrap id st.findVictim := wrap_findVictimLoop _ st h
  simp only [acquireFrame, wrap_freeFrames, hv]
  cases st.freeFrames with
  | cons f rest => rfl
  | nil =>
    obtain ⟨st', v⟩ := st.findVictim
    cases v with
    | none => rfl
    | some victim =>
      simp only [Prod.map, id, wrap_framePages]
      cases st'.framePages.getD victim none <;> rfl

end PoolState

namespace Shard

def pinsAt {κ : Type} (sh : Shard α κ) (f : ℕ) : ℕ := (sh.pins.map Pin.frame).count f

def FewPins {κ : Type} (sh : Shard α κ) : Prop := ∀ f, sh.pinsAt f < 2 ^ 32

def wrap (sh : Shard α) : Shard α UInt32 := ⟨sh.frames, sh.state.wrap, sh.held, sh.pins⟩

def Counted (sh : Shard α) : Prop := ∀ f, sh.state.pinCounts.getD f 0 = sh.pinsAt f

variable {mine : PageId → Prop} {sh : Shard α}

theorem Kept.counted (h : sh.Kept mine) : sh.Counted := by
  intro f
  rw [h.books.counts, pinnedAt, List.map_map]
  rfl

theorem Counted.lt (h : sh.Counted) (hf : sh.FewPins) (f : ℕ) : sh.state.pinCounts.getD f 0 < 2 ^ 32 := by
  rw [h f]
  exact hf f

theorem Counted.pos (h : sh.Counted) {p : Pin α} (hp : p ∈ sh.pins) :
    0 < sh.state.pinCounts.getD p.frame 0 := by
  rw [h, pinsAt, List.count_pos_iff]
  exact List.mem_map_of_mem hp

theorem wrap_new (n : ℕ) : (new n : Shard α).wrap = new n := by
  rw [wrap, new, PoolState.wrap_new]
  rfl

@[simp]
theorem wrap_frames (sh : Shard α) : sh.wrap.frames = sh.frames := rfl

@[simp]
theorem wrap_state (sh : Shard α) : sh.wrap.state = sh.state.wrap := rfl

@[simp]
theorem wrap_held (sh : Shard α) : sh.wrap.held = sh.held := rfl

@[simp]
theorem wrap_pins (sh : Shard α) : sh.wrap.pins = sh.pins := rfl

theorem wrap_load (sh : Shard α) (disk : DiskManager) (owner : α) (id : PageId) (f : ℕ) (rd : Bool) :
    sh.wrap.load disk owner id f rd = ((sh.load disk owner id f rd).1.wrap, (sh.load disk owner id f rd).2) := by
  rw [load, load]
  cases disk.readPage id rd <;> rfl

theorem wrap_fetchPage (hc : sh.Counted) (hf : sh.FewPins) (disk : DiskManager) (owner : α) (id : PageId)
    (rd : Bool) : sh.wrap.fetchPage disk owner id rd =
      ((sh.fetchPage disk owner id rd).1.wrap, (sh.fetchPage disk owner id rd).2) := by
  have hacquire := PoolState.wrap_acquireFrame sh.state sh.frames.length (hc.lt hf)
  simp only [fetchPage, wrap_state, PoolState.wrap_pageTable, wrap_frames, wrap_held, wrap_pins, hacquire]
  cases sh.state.pageTable id with
  | some f =>
    simp only [← PoolState.wrap_pin]
    rfl
  | none =>
    generalize sh.state.acquireFrame sh.frames.length = r
    obtain ⟨st, _ | _ | _ | _⟩ := r
    · exact wrap_load { sh with state := st } disk owner id _ rd
    · rfl
    · rfl
    · rfl

theorem wrap_installPage (hc : sh.Counted) (hf : sh.FewPins) (owner : α) (id : PageId) (page : Page) :
    sh.wrap.installPage owner id page =
      ((sh.installPage owner id page).1.wrap, (sh.installPage owner id page).2) := by
  have hacquire := PoolState.wrap_acquireFrame sh.state sh.frames.length (hc.lt hf)
  simp only [installPage, wrap_state, PoolState.wrap_pageTable, wrap_frames, wrap_held, wrap_pins, hacquire]
  cases sh.state.pageTable id with
  | some f =>
    simp only [← PoolState.wrap_pin]
    rfl
  | none =>
    generalize sh.state.acquireFrame sh.frames.length = r
    obtain ⟨st, _ | _ | _ | _⟩ := r <;> rfl

theorem wrap_flushPage (sh : Shard α) (owner : α) (id : PageId) :
    sh.wrap.flushPage owner id = ((sh.flushPage owner id).1.wrap, (sh.flushPage owner id).2) := by
  simp only [flushPage, wrap_state, PoolState.wrap_pageTable, wrap_frames, wrap_held, wrap_pins]
  cases sh.state.pageTable id with
  | none => rfl
  | some f =>
    simp only [← PoolState.wrap_pin]
    rfl

end Shard

def Outcome.wrap (o : Outcome α) : Outcome α UInt32 := ⟨o.shard.wrap, o.disk, o.label⟩

namespace Shard

variable {sh : Shard α}

theorem wrap_resume (sh : Shard α) (disk : DiskManager) (wr : WriteResult) (rd : Bool) :
    sh.wrap.resume disk wr rd = (sh.resume disk wr rd).map Outcome.wrap := by
  rw [resume.eq_def, resume.eq_def, wrap_held]
  cases sh.held with
  | none => rfl
  | some s =>
    cases s with
    | evict owner id want victim oldId =>
      simp only [show sh.wrap.frame victim = sh.frame victim from rfl]
      generalize (sh.frame victim).writeBack disk oldId wr = w
      obtain ⟨frame, disk', written, result⟩ := w
      cases result with
      | error e => rfl
      | ok u =>
        cases want with
        | fetch =>
          simp only [load]
          cases disk'.readPage id rd <;> rfl
        | install page => rfl
    | fill owner id page install f =>
      cases install with
      | true => rfl
      | false =>
        have hset := PoolState.wrap_set ((sh.state.map id f).touch f) f 1
        simp only [Option.map_some, Outcome.wrap, wrap]
        rw [hset]
        rfl

theorem wrap_work (sh : Shard α) (disk : DiskManager) (k : ℕ) (wr : WriteResult) :
    sh.wrap.work disk k wr = (sh.work disk k wr).map Outcome.wrap := by
  rw [work.eq_def, work.eq_def, wrap_pins]
  cases sh.pins[k]? with
  | none => rfl
  | some p =>
    simp only [show sh.wrap.unlocked p.frame = sh.unlocked p.frame from rfl]
    split_ifs
    · cases p.stage <;> rfl
    · rfl

theorem wrap_guard (sh : Shard α) (k : ℕ) (g : Guard) :
    sh.wrap.guard k g = (sh.guard k g).map (fun r => (r.1.wrap, r.2)) := by
  rw [guard.eq_def, guard.eq_def, wrap_pins]
  cases sh.pins[k]? with
  | none => rfl
  | some p =>
    simp only
    cases p.stage with
    | handle reads writing =>
      cases g <;> 
      · simp only [show sh.wrap.unlocked p.frame = sh.unlocked p.frame from rfl,
          show sh.wrap.noWriter p.frame = sh.noWriter p.frame from rfl]
        split_ifs <;> rfl
    | install page => rfl
    | flush => rfl
    | drop result => rfl

theorem wrap_unpin (hc : sh.Counted) (k : ℕ) :
    sh.wrap.unpin k = (sh.unpin k).map (fun r => (r.1.wrap, r.2)) := by
  rw [unpin.eq_def, unpin.eq_def, wrap_pins]
  cases hk : sh.pins[k]? with
  | none => rfl
  | some p =>
    have hpos := PoolState.wrap_unpin sh.state (hc.pos (List.mem_of_getElem? hk))
    simp only [wrap_state, ← hpos]
    split <;> rfl

end Shard

namespace BufferPool

def wrap (p : BufferPool α) : BufferPool α UInt32 := ⟨p.shards.map Shard.wrap, p.disk⟩

def FewPins {κ : Type} (p : BufferPool α κ) : Prop := ∀ sh ∈ p.shards, sh.FewPins

def Counted (p : BufferPool α) : Prop := ∀ sh ∈ p.shards, sh.Counted

variable {p : BufferPool α}

theorem counted_of_kept {mine : ℕ → PageId → Prop}
    (h : ∀ (i : ℕ) (sh : Shard α), p.shards[i]? = some sh → sh.Kept (mine i)) : p.Counted := by
  intro sh hsh
  obtain ⟨i, hi⟩ := List.mem_iff_getElem?.mp hsh
  exact (h i sh hi).counted

theorem FewPins.of_wrap (h : p.wrap.FewPins) : p.FewPins := fun sh hsh =>
  h sh.wrap (List.mem_map_of_mem hsh)

theorem new_wrap (disk : DiskManager) (capacity : ℕ) :
    (BufferPool.new disk capacity : Except Error (BufferPool α UInt32)) =
      (BufferPool.new disk capacity).map wrap := by
  rw [BufferPool.new, BufferPool.new]
  split_ifs
  · rfl
  · simp only [Except.map, wrap, List.map_map, Function.comp_def, Shard.wrap_new]

theorem wrap_shardFor (p : BufferPool α) (id : PageId) : p.wrap.shardFor id = p.shardFor id := by
  rw [shardFor, shardFor, wrap, List.length_map]

theorem wrap_getElem? (p : BufferPool α) (i : ℕ) : p.wrap.shards[i]? = p.shards[i]?.map Shard.wrap :=
  List.getElem?_map ..

theorem exists_shard {i : ℕ} {sh : Shard α UInt32} (h : p.wrap.shards[i]? = some sh) :
    ∃ sh₀, p.shards[i]? = some sh₀ ∧ sh₀.wrap = sh := by
  rw [wrap_getElem?] at h
  exact Option.map_eq_some_iff.mp h

theorem wrap_lockState (p : BufferPool α) (i : ℕ) : p.wrap.lockState i = (p.lockState i).map Shard.wrap := by
  rw [lockState, lockState, wrap_getElem?, Option.filter_map]
  rfl

theorem wrap_put (p : BufferPool α) (i : ℕ) (sh : Shard α) (label : Label α) :
    p.wrap.put i (sh.wrap, label) = ((p.put i (sh, label)).1.wrap, label) := by
  rw [put, put, wrap, wrap, List.map_set]

theorem wrap_putOutcome (p : BufferPool α) (i : ℕ) (o : Outcome α) :
    p.wrap.putOutcome i o.wrap = ((p.putOutcome i o).1.wrap, (p.putOutcome i o).2) := by
  rw [putOutcome, putOutcome, wrap, wrap, List.map_set]
  rfl

variable [DecidableEq α]

theorem wrap_idle (p : BufferPool α) (owner : α) : p.wrap.idle owner = p.idle owner := by
  rw [idle, idle, wrap, List.all_map]
  rfl

omit [DecidableEq α] in
theorem mem_of_lockState {i : ℕ} {sh : Shard α} (h : p.lockState i = some sh) : sh ∈ p.shards := by
  rw [lockState, Option.filter_eq_some_iff] at h
  exact List.mem_of_getElem? h.1

theorem wrap_step (hc : p.Counted) (hf : p.FewPins) (a : Action α) :
    p.wrap.step a = (p.step a).map (fun r => (r.1.wrap, r.2)) := by
  cases a with
  | fetch owner id rd =>
    simp only [step, wrap_idle, wrap_shardFor, wrap_lockState]
    split_ifs
    · cases hl : p.lockState (p.shardFor id) with
      | none => rfl
      | some sh =>
        have hsh := mem_of_lockState hl
        simp only [Option.map_some]
        rw [show p.wrap.disk = p.disk from rfl, Shard.wrap_fetchPage (hc sh hsh) (hf sh hsh), wrap_put]
        rfl
    · rfl
  | install owner id page =>
    simp only [step, wrap_idle, wrap_shardFor, wrap_lockState]
    split_ifs
    · rfl
    · cases hl : p.lockState (p.shardFor id) with
      | none => rfl
      | some sh =>
        have hsh := mem_of_lockState hl
        simp only [Option.map_some]
        rw [Shard.wrap_installPage (hc sh hsh) (hf sh hsh), wrap_put]
        rfl
    · rfl
  | flush owner id =>
    simp only [step, wrap_idle, wrap_shardFor, wrap_lockState]
    split_ifs
    · cases p.lockState (p.shardFor id) with
      | none => rfl
      | some sh =>
        simp only [Option.map_some]
        rw [Shard.wrap_flushPage, wrap_put]
        rfl
    · rfl
  | resume i wr rd =>
    simp only [step, wrap_getElem?]
    cases p.shards[i]? with
    | none => rfl
    | some sh =>
      simp only [Option.map_some, Option.bind_some, Shard.wrap_resume, Option.map_map]
      exact congrArg (Option.map · (sh.resume p.disk wr rd)) (funext (wrap_putOutcome p i))
  | work i k wr =>
    simp only [step, wrap_getElem?]
    cases p.shards[i]? with
    | none => rfl
    | some sh =>
      simp only [Option.map_some, Option.bind_some, Shard.wrap_work, Option.map_map]
      exact congrArg (Option.map · (sh.work p.disk k wr)) (funext (wrap_putOutcome p i))
  | guard i k g =>
    simp only [step, wrap_getElem?]
    cases p.shards[i]? with
    | none => rfl
    | some sh =>
      simp only [Option.map_some, Option.bind_some, Shard.wrap_guard, Option.map_map]
      exact congrArg (Option.map · (sh.guard k g)) (funext fun r => wrap_put p i r.1 r.2)
  | unpin i k =>
    simp only [step, wrap_lockState]
    cases hl : p.lockState i with
    | none => rfl
    | some sh =>
      simp only [Option.map_some, Option.bind_some, Shard.wrap_unpin (hc sh (mem_of_lockState hl)), Option.map_map]
      exact congrArg (Option.map · (sh.unpin k)) (funext fun r => wrap_put p i r.1 r.2)
  | sync ev => rfl

end BufferPool

end OxenDB
