import OxenDB.BufferPool.Cache
import OxenDB.BufferPool.LockOrder
import OxenDB.BufferPool.PinCounts

namespace OxenDB

open Lib

variable {T α : Type}

theorem Shard.Represented.wrap {n : ℕ} {sh : Shard α} (h : sh.Represented n)
    (hlt : ∀ f, sh.state.pinCounts.getD f 0 < 2 ^ 32) : sh.wrap.Represented n where
  inverse := h.inverse
  nodup := h.nodup
  free := h.free
  unpinned f hf := by
    rw [wrap_state, PoolState.wrap_getD, h.unpinned f hf]
    rfl
  clockHand := h.clockHand
  lengths := by
    obtain ⟨hframes, hpages, hcounts, hbits⟩ := h.lengths
    exact ⟨hframes, hpages, (List.length_map _).trans hcounts, hbits⟩
  complete := h.complete
  victim := by
    rw [wrap_state, PoolState.wrap_acquireFrame _ _ hlt]
    exact h.victim

namespace Threads

def wrap (s : Threads T α) : Threads T α UInt32 := ⟨s.shard.wrap, s.pos, s.guards⟩

def Bounded {κ : Type} (s : Threads T α κ) (_ : T) : Prop := s.shard.FewPins

section Wrap

variable [DecidableEq α] {who : α → T} {n : ℕ} {s : Threads T α} {t : T}

variable [DecidableEq T]

omit [DecidableEq α] in
theorem exists_step (hc : s.shard.Counted) (hf : s.shard.FewPins) {s' : Threads T α UInt32}
    (h : Step who s.wrap t s') : ∃ s₀, s₀.wrap = s' ∧ Step who s t s₀ := by
  cases h with
  | call hp => exact ⟨_, rfl, .call hp⟩
  | snapshot hp hh => exact ⟨_, rfl, .snapshot hp hh⟩
  | @fetch a x id disk rd hp hh ha hfresh hx =>
    have hw : s.wrap.shard.fetchPage disk a id rd = _ := Shard.wrap_fetchPage hc hf disk a id rd
    rw [hw] at hx ⊢
    exact ⟨_, rfl, .fetch id disk rd hp hh ha hfresh hx⟩
  | @install a x id page hp hh ha hfresh hx =>
    have hw : s.wrap.shard.installPage a id page = _ := Shard.wrap_installPage hc hf a id page
    rw [hw] at hx ⊢
    exact ⟨_, rfl, .install id page hp hh ha hfresh hx⟩
  | @flush a x id hp hh ha hfresh hx =>
    have hw : s.wrap.shard.flushPage a id = _ := Shard.wrap_flushPage s.shard a id
    rw [hw] at hx ⊢
    exact ⟨_, rfl, .flush id hp hh ha hfresh hx⟩
  | enter hp ha hn hfree => exact ⟨_, rfl, .enter hp ha hn hfree⟩
  | leave disk wr rd hp hs hr hx =>
    obtain ⟨o, ho, rfl⟩ := Option.map_eq_some_iff.mp ((Shard.wrap_resume ..).symm.trans hr)
    exact ⟨_, rfl, .leave disk wr rd hp hs ho hx⟩
  | finish k disk wr hp hk hw =>
    obtain ⟨o, ho, rfl⟩ := Option.map_eq_some_iff.mp ((Shard.wrap_work ..).symm.trans hw)
    exact ⟨_, rfl, .finish k disk wr hp hk ho⟩
  | want hp hm hs hd => exact ⟨_, rfl, .want hp hm hs hd⟩
  | lockRead k hp hk hfree hg =>
    obtain ⟨r, hr, rfl⟩ := Option.map_eq_some_iff.mp ((Shard.wrap_guard ..).symm.trans hg)
    exact ⟨_, rfl, .lockRead k hp hk hfree hr⟩
  | lockWrite k hp hk hfree hg =>
    obtain ⟨r, hr, rfl⟩ := Option.map_eq_some_iff.mp ((Shard.wrap_guard ..).symm.trans hg)
    exact ⟨_, rfl, .lockWrite k hp hk hfree hr⟩
  | read k hp hh ht hk hown hg =>
    obtain ⟨r, hr, rfl⟩ := Option.map_eq_some_iff.mp ((Shard.wrap_guard ..).symm.trans hg)
    exact ⟨{ s with shard := r.1 }, rfl, .read k hp hh ht hk hown hr⟩
  | write k page hp hh ht hx hk hown hg =>
    obtain ⟨r, hr, rfl⟩ := Option.map_eq_some_iff.mp ((Shard.wrap_guard ..).symm.trans hg)
    exact ⟨{ s with shard := r.1 }, rfl, .write k page hp hh ht hx hk hown hr⟩
  | unlock k hp hperm ht hk hown hg =>
    obtain ⟨r, hr, rfl⟩ := Option.map_eq_some_iff.mp ((Shard.wrap_guard ..).symm.trans hg)
    exact ⟨_, rfl, .unlock k hp hperm ht hk hown hr⟩
  | drop hp hm hs hw hd => exact ⟨_, rfl, .drop hp hm hs hw hd⟩
  | unpin k hp hh hk hu =>
    obtain ⟨r, hr, rfl⟩ := Option.map_eq_some_iff.mp ((Shard.wrap_unpin hc k).symm.trans hu)
    exact ⟨_, rfl, .unpin k hp hh hk hr⟩

theorem exists_run (hn : 0 < n) {ls : List T} {s' : Threads T α UInt32}
    (h : Run (Restrict (Step who) Bounded) (new n) ls s') : ∃ s, s.wrap = s' ∧ Inv who n s := by
  have hnew : (new n : Threads T α UInt32) = (new n : Threads T α).wrap := by
    rw [new, new, wrap, Shard.wrap_new]
  rw [hnew] at h
  obtain ⟨s, hs, hrun⟩ := @Run.of_image _ _ _ _ _ _ wrap (Step who) (new n) h (by
    rintro ls s t s' hs ⟨hstep, hf⟩
    exact exists_step (inv_run hn hs).kept.counted hf hstep)
  exact ⟨s, hs, inv_run hn hrun⟩

end Wrap

section Leaked

def alone (sh : Shard ℕ UInt32) (x : Position ℕ) : Threads Unit ℕ UInt32 := ⟨sh, fun _ => x, []⟩

def handles : ℕ → List (Pin ℕ)
  | 0 => []
  | m + 1 => ⟨m, 0, 1, .handle 0 false⟩ :: handles m

def leaked (page : Page) (m : ℕ) : Shard ℕ UInt32 :=
  ⟨[⟨page, true⟩], { ({ PoolState.new 1 with freeFrames := [] }.map 1 0).touch 0 with
    pinCounts := [UInt32.ofNat m] }, none, handles m⟩

abbrev AloneStep : Threads Unit ℕ UInt32 → Unit → Threads Unit ℕ UInt32 → Prop := Step (fun _ => ())

variable {page : Page} {m : ℕ} {sh sh' : Shard ℕ UInt32} {x y : Position ℕ}

theorem alone_step (h : AloneStep (alone sh x) () ⟨sh', (alone sh x).move () y, []⟩) :
    AloneStep (alone sh x) () (alone sh' y) := by
  have hmove : (alone sh x).move () y = fun _ => y := funext fun _ => Function.update_self ..
  rwa [hmove] at h

theorem alone_enter {a f : ℕ} (hn : sh.Needs a f) :
    AloneStep (alone sh (.wantFrame a f)) () (alone sh (.inFrame a f)) := by
  refine alone_step (.enter rfl rfl hn ?_)
  rintro t' (⟨b, hb⟩ | ⟨h, hh, -⟩)
  · cases hb
  · cases hh

theorem mem_handles {q : Pin ℕ} (h : q ∈ handles m) : q.owner < m ∧ q.frame = 0 ∧ q.stage = .handle 0 false := by
  induction m with
  | zero => cases h
  | succ m ih =>
    rcases List.mem_cons.mp h with rfl | h
    · exact ⟨Nat.lt_succ_self m, rfl, rfl⟩
    · obtain ⟨hlt, hrest⟩ := ih h
      exact ⟨Nat.lt_succ_of_lt hlt, hrest⟩

theorem length_handles (m : ℕ) : (handles m).length = m := by
  induction m with
  | zero => rfl
  | succ m ih => rw [handles, List.length_cons, ih]

theorem countP_handles (m : ℕ) : (handles m).countP (fun p => p.frame == 0 && p.stage.isHandle) = m := by
  rw [List.countP_eq_length.mpr, length_handles]
  intro q hq
  obtain ⟨-, hf, hs⟩ := mem_handles hq
  rw [hf, hs]
  rfl

theorem not_needs (hh : sh.held = none) (hp : sh.pins = handles m) (a f : ℕ) : ¬ sh.Needs a f := by
  rintro (⟨s, hs, -⟩ | ⟨q, hq, -, -, hc⟩)
  · rw [hh] at hs
    cases hs
  · rw [hp] at hq
    rw [(mem_handles hq).2.2] at hc
    exact hc

theorem not_mem_owners (hh : sh.held = none) (hp : sh.pins = handles m) : m ∉ sh.owners := by
  rw [Shard.owners, hh, hp]
  intro hm
  obtain ⟨q, hq, he⟩ := List.mem_map.mp hm
  exact absurd he (mem_handles hq).1.ne

theorem fewPins_alone (hp : sh.pins = handles m) (hm : m < 2 ^ 32) : (alone sh x).shard.FewPins := by
  intro f
  refine lt_of_le_of_lt List.count_le_length ?_
  rw [List.length_map]
  change sh.pins.length < _
  rwa [hp, length_handles]

theorem run_installing (page : Page) : Run (Restrict AloneStep Bounded) (new 1) [(), ()]
    (alone ((Shard.new 1 : Shard ℕ UInt32).installPage 0 1 page).1 (.wantFrame 0 0)) := by
  have hcall : AloneStep (alone (Shard.new 1) .free) () (alone (Shard.new 1) .wantState) :=
    alone_step (.call rfl)
  have hinstall : AloneStep (alone (Shard.new 1) .wantState) ()
      (alone ((Shard.new 1 : Shard ℕ UInt32).installPage 0 1 page).1 (.wantFrame 0 0)) :=
    alone_step (.install 1 page rfl rfl rfl List.not_mem_nil ⟨rfl, .inl ⟨_, rfl, rfl, rfl⟩⟩)
  have hzero : (0 : ℕ) < 2 ^ 32 := by decide
  exact (Run.start.step ⟨hcall, fewPins_alone (m := 0) rfl hzero⟩).step ⟨hinstall, fewPins_alone (m := 0) rfl hzero⟩

theorem run_installed (page : Page) :
    Run (Restrict AloneStep Bounded) (new 1) [(), (), (), ()] (alone (leaked page 0) .free) := by
  have henter : AloneStep (alone ((Shard.new 1 : Shard ℕ UInt32).installPage 0 1 page).1 (.wantFrame 0 0)) ()
      (alone ((Shard.new 1 : Shard ℕ UInt32).installPage 0 1 page).1 (.inFrame 0 0)) :=
    alone_enter (.inl ⟨_, rfl, rfl, rfl⟩)
  have hleave : AloneStep (alone ((Shard.new 1 : Shard ℕ UInt32).installPage 0 1 page).1 (.inFrame 0 0)) ()
      (alone (leaked page 0) .free) :=
    alone_step (.leave (o := ⟨leaked page 0, _, _⟩) DiskManager.create .ok true (by exact rfl)
      (show _ = some (Section.fill 0 1 page true 0) from rfl) rfl (fun f => @not_needs 0 _ rfl rfl 0 f))
  have hzero : (0 : ℕ) < 2 ^ 32 := by decide
  exact ((run_installing page).step ⟨henter, fewPins_alone (m := 0) rfl hzero⟩).step
    ⟨hleave, fewPins_alone (m := 0) rfl hzero⟩

theorem leaked_table (page : Page) (m : ℕ) (id : PageId) :
    (leaked page m).state.pageTable id = if id = 1 then some 0 else none := by
  change Function.update (fun _ => none) 1 (some 0) id = _
  rw [Function.update_apply]

theorem leaked_fetch (page : Page) (m : ℕ) (disk : DiskManager) (rd : Bool) :
    ((leaked page m).fetchPage disk m 1 rd).1 = leaked page (m + 1) := by
  rw [Shard.fetchPage, leaked_table, if_pos rfl]
  simp only [leaked, PoolState.pin, PoolState.touch, handles, UInt32.ofNat_add]
  rfl

theorem run_leaked (page : Page) (hm : m ≤ 2 ^ 32) :
    ∃ ls, Run (Restrict AloneStep Bounded) (new 1) ls (alone (leaked page m) .free) := by
  induction m with
  | zero => exact ⟨_, run_installed page⟩
  | succ m ih =>
    obtain ⟨ls, hrun⟩ := ih (Nat.le_of_succ_le hm)
    have hcall : AloneStep (alone (leaked page m) .free) () (alone (leaked page m) .wantState) :=
      alone_step (.call rfl)
    have hfetch : AloneStep (alone (leaked page m) .wantState) () (alone (leaked page (m + 1)) .free) := by
      rw [← leaked_fetch page m DiskManager.create true]
      refine alone_step (.fetch 1 DiskManager.create true rfl rfl rfl (not_mem_owners rfl rfl) ?_)
      intro f
      rw [show (alone (leaked page m) .wantState).shard = leaked page m from rfl, leaked_fetch]
      exact @not_needs (m + 1) _ rfl rfl m f
    exact ⟨_, (hrun.step ⟨hcall, fewPins_alone rfl hm⟩).step ⟨hfetch, fewPins_alone rfl hm⟩⟩

def evicting (page : Page) (m : ℕ) : Shard ℕ UInt32 :=
  { leaked page m with
    state := { (leaked page m).state with pinCounts := [0], refBits := [false] }
    held := some (.evict m 2 .fetch 0 1) }

def freed (x : Frame) (page : Page) (m : ℕ) : Shard ℕ UInt32 :=
  ⟨[x], ((evicting page m).state.unmap 1 0).release 0, none, handles m⟩

def twoPages : DiskManager := { DiskManager.create with pageCount := 2 }

theorem ofNat_two_pow (hm : m = 2 ^ 32) : UInt32.ofNat m = 0 := by
  rw [hm]
  rfl

theorem leaked_evict (page : Page) (hm : UInt32.ofNat m = 0) :
    ((leaked page m).fetchPage twoPages m 2 false).1 = evicting page m := by
  have hacquire : (leaked page m).state.acquireFrame (leaked page m).frames.length =
      ((evicting page m).state, .victim 0 1) := by
    simp only [evicting, leaked, hm]
    rfl
  rw [Shard.fetchPage, leaked_table, if_neg (by decide), hacquire]
  rfl

theorem evicting_resume (hp : page.pageId = 1) :
    ∃ x disk label, (evicting page m).resume twoPages .ok false = some ⟨freed x page m, disk, label⟩ := by
  have hw := @Frame.writeBack_ok page twoPages 1 hp ⟨by decide, by decide⟩ (by decide)
  have hframe : (evicting page m).frame 0 = ⟨page, true⟩ := rfl
  have hread : ∀ file, DiskManager.readPage { twoPages with file := file } 2 false = .error (.invalidArgument
      s!"{pageName 2} is out of bounds (file has {twoPages.pageCount} pages)") := fun _ => rfl
  rw [Shard.resume.eq_def]
  simp only [show (evicting page m).held = some (.evict m 2 .fetch 0 1) from rfl, hframe, hw, Shard.load, hread]
  exact ⟨_, _, _, rfl⟩

theorem run_freed (hp : page.pageId = 1) (hm : UInt32.ofNat (m + 1) = 0) :
    ∃ x, Run AloneStep (alone (leaked page (m + 1)) .free) [(), (), (), (), (), ()]
      (alone { freed x page (m + 1) with
        state := { (freed x page (m + 1)).state with pinCounts := [4294967295] }
        pins := handles m } .free) := by
  obtain ⟨x, disk, label, hresume⟩ := @evicting_resume page (m + 1) hp
  have hcall : AloneStep (alone (leaked page (m + 1)) .free) () (alone (leaked page (m + 1)) .wantState) :=
    alone_step (.call rfl)
  have hfetch : AloneStep (alone (leaked page (m + 1)) .wantState) ()
      (alone (evicting page (m + 1)) (.wantFrame (m + 1) 0)) := by
    rw [← leaked_evict page hm]
    refine alone_step (.fetch 2 twoPages false rfl rfl rfl (not_mem_owners rfl rfl) ⟨rfl, .inl ?_⟩)
    rw [show (alone (leaked page (m + 1)) .wantState).shard = leaked page (m + 1) from rfl, leaked_evict page hm]
    exact ⟨_, rfl, rfl, rfl⟩
  have henter : AloneStep (alone (evicting page (m + 1)) (.wantFrame (m + 1) 0)) ()
      (alone (evicting page (m + 1)) (.inFrame (m + 1) 0)) :=
    alone_enter (.inl ⟨_, rfl, rfl, rfl⟩)
  have hleave : AloneStep (alone (evicting page (m + 1)) (.inFrame (m + 1) 0)) ()
      (alone (freed x page (m + 1)) .free) := by
    refine alone_step (.leave (o := ⟨freed x page (m + 1), disk, label⟩) twoPages .ok false (by exact rfl)
      (show _ = some (Section.evict (m + 1) 2 .fetch 0 1) from rfl) hresume ?_)
    exact fun f => @not_needs (m + 1) _ rfl rfl (m + 1) f
  have hdrop : AloneStep (alone (freed x page (m + 1)) .free) ()
      (alone (freed x page (m + 1)) (.wantDrop m)) := by
    refine alone_step (.drop (p := ⟨m, 0, 1, .handle 0 false⟩) rfl List.mem_cons_self rfl ?_ ?_)
    · rintro t f ⟨⟩
    · rintro t ⟨⟩
  have hunpin : AloneStep (alone (freed x page (m + 1)) (.wantDrop m)) ()
      (alone { freed x page (m + 1) with
        state := { (freed x page (m + 1)).state with pinCounts := [4294967295] }
        pins := handles m } .free) :=
    alone_step (.unpin (p := ⟨m, 0, 1, .handle 0 false⟩) (r := (_, _)) 0 rfl rfl rfl rfl)
  exact ⟨x, (((((Run.start.step hcall).step hfetch).step henter).step hleave).step hdrop).step hunpin⟩

end Leaked

section Bound

variable [DecidableEq T] [DecidableEq α] {who : α → T} {n : ℕ} {s : Threads T α UInt32} {ls : List T}

/-- While no frame has 2^32 pins, the tables of a shard fit together whenever `state` is free, and a pinned
frame stays with its page. -/
theorem representation_kept (hn : 0 < n) (hrun : Run (Restrict (Step who) Bounded) (new n) ls s)
    (hf : s.shard.FewPins) :
    (s.shard.held = none → s.shard.Represented n) ∧ s.shard.InBounds n ∧
    ∀ t s', Step who s t s' → ∀ p ∈ s.shard.pins,
      s'.shard.state.framePages[p.frame]? = s.shard.state.framePages[p.frame]? := by
  obtain ⟨s₀, rfl, h⟩ := exists_run hn hrun
  have hcounted := h.kept.counted
  refine ⟨fun hh => (h.represented hh).wrap (hcounted.lt hf), ?_, ?_⟩
  · obtain ⟨hmapped, hfree, hpins, hheld⟩ := h.inBounds
    exact ⟨hmapped, hfree, hpins, hheld⟩
  · intro t s' hs p hp
    obtain ⟨s₁, rfl, hs'⟩ := exists_step hcounted hf hs
    exact hs'.pinned h (hcounted.pos hp)

theorem representation_kept_installed : ∃ (ls : List Unit) (s : Threads Unit ℕ UInt32),
    Run (Restrict AloneStep Bounded) (new 1) ls s ∧ s.shard.FewPins ∧ s.shard.held = none ∧
    s.shard.handlesAt 0 = 1 ∧ s.shard.Represented 1 := by
  obtain ⟨ls, hrun⟩ := run_leaked Page.zeroed (show 1 ≤ 2 ^ 32 by decide)
  have hfew : (alone (leaked Page.zeroed 1) .free).shard.FewPins := fewPins_alone rfl (by decide)
  exact ⟨ls, _, hrun, hfew, rfl, rfl, (representation_kept (by decide) hrun hfew).1 rfl⟩

/-- With 2^32 live handles the frame of page 1 is evicted, and freed when the fetch that took it fails; the
next handle that is dropped leaves it on the free list with a pin count of 2^32 - 1. -/
theorem pinned_frame_freed : ∃ (ls ls' : List Unit) (s s' : Threads Unit ℕ UInt32),
    Run (Restrict AloneStep Bounded) (new 1) ls s ∧ s.shard.handlesAt 0 = 2 ^ 32 ∧
    s.shard.state.framePages[0]? = some (some 1) ∧ Run AloneStep s ls' s' ∧ s'.shard.held = none ∧
    s'.shard.handlesAt 0 = 2 ^ 32 - 1 ∧ s'.shard.state.framePages[0]? = some none ∧
    0 ∈ s'.shard.state.freeFrames ∧ s'.shard.state.pinCounts.getD 0 0 = 4294967295 := by
  obtain ⟨m, hm⟩ : ∃ m, m + 1 = 2 ^ 32 := ⟨2 ^ 32 - 1, by norm_num⟩
  obtain ⟨ls, hrun⟩ := run_leaked (Page.new 1 .heap) hm.le
  obtain ⟨x, hfreed⟩ := run_freed (Page.new_pageId 1 .heap) (ofNat_two_pow hm)
  refine ⟨ls, _, _, _, hrun, ?_, rfl, hfreed, rfl, ?_, rfl, List.mem_cons_self, rfl⟩
  · exact (countP_handles (m + 1)).trans hm
  · exact (countP_handles m).trans (by omega)

end Bound

end Threads

end OxenDB
