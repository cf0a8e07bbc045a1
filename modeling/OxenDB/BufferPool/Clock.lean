import OxenDB.BufferPool.Shard

namespace OxenDB.PoolState

structure SameButClock (st st' : PoolState) : Prop where
  pageTable : st'.pageTable = st.pageTable
  framePages : st'.framePages = st.framePages
  pinCounts : st'.pinCounts = st.pinCounts
  freeFrames : st'.freeFrames = st.freeFrames
  refBits : st'.refBits.length = st.refBits.length
  clockHand : st.clockHand < st.framePages.length → st'.clockHand < st.framePages.length

theorem SameButClock.refl (st : PoolState) : SameButClock st st := ⟨rfl, rfl, rfl, rfl, rfl, id⟩

theorem SameButClock.trans {st st' st'' : PoolState} (h : SameButClock st st')
    (h' : SameButClock st' st'') : SameButClock st st'' where
  pageTable := h'.pageTable.trans h.pageTable
  framePages := h'.framePages.trans h.framePages
  pinCounts := h'.pinCounts.trans h.pinCounts
  freeFrames := h'.freeFrames.trans h.freeFrames
  refBits := h'.refBits.trans h.refBits
  clockHand hlt := by
    have h₁ := h'.clockHand (by rw [h.framePages]; exact h.clockHand hlt)
    rwa [h.framePages] at h₁

theorem sameButClock_touch (st : PoolState) (f : ℕ) : SameButClock st (st.touch f) :=
  ⟨rfl, rfl, rfl, rfl, by simp [touch], id⟩

def advance (st : PoolState) : PoolState :=
  { st with clockHand := (st.clockHand + 1) % st.framePages.length }

def clear (st : PoolState) (f : ℕ) : PoolState := { st with refBits := st.refBits.set f false }

def skips (st : PoolState) (f : ℕ) : Prop :=
  st.pinCounts.getD f 0 > 0 ∨ st.refBits.getD f false = false

theorem sameButClock_advance (st : PoolState) : SameButClock st st.advance :=
  ⟨rfl, rfl, rfl, rfl, rfl, fun h => Nat.mod_lt _ (by omega)⟩

theorem sameButClock_clear (st : PoolState) (f : ℕ) : SameButClock st (st.clear f) :=
  ⟨rfl, rfl, rfl, rfl, by simp [clear], id⟩

theorem findVictimLoop_succ (n : ℕ) (st : PoolState) :
    findVictimLoop (n + 1) st =
      if st.pinCounts.getD st.clockHand 0 > 0 then findVictimLoop n st.advance
      else if st.refBits.getD st.clockHand false then
        findVictimLoop n (st.advance.clear st.clockHand)
      else (st.advance, some st.clockHand) := rfl

def pass (st : PoolState) : PoolState :=
  if st.pinCounts.getD st.clockHand 0 > 0 then st.advance else st.advance.clear st.clockHand

def Unpinned (st : PoolState) (f : ℕ) : Prop := st.pinCounts.getD f 0 = 0

def Takes (st : PoolState) (f : ℕ) : Prop := st.Unpinned f ∧ st.refBits.getD f false = false

def ahead (st : PoolState) (j : ℕ) : ℕ := (st.clockHand + j) % st.framePages.length

theorem findVictimLoop_pass (n : ℕ) (st : PoolState) (h : ¬st.Takes st.clockHand) :
    findVictimLoop (n + 1) st = findVictimLoop n st.pass := by
  rw [findVictimLoop_succ, pass]
  split_ifs with hp hr
  · rfl
  · rfl
  · exact absurd ⟨Nat.eq_zero_of_not_pos hp, Bool.eq_false_of_not_eq_true hr⟩ h

theorem findVictimLoop_take (n : ℕ) (st : PoolState) (h : st.Takes st.clockHand) :
    findVictimLoop (n + 1) st = (st.advance, some st.clockHand) := by
  rw [findVictimLoop_succ, if_neg (by rw [h.1]; exact Nat.lt_irrefl 0), h.2, if_neg Bool.false_ne_true]

theorem sameButClock_pass (st : PoolState) : SameButClock st st.pass := by
  rw [pass]
  split_ifs
  · exact sameButClock_advance st
  · exact (sameButClock_advance st).trans (sameButClock_clear _ _)

theorem sameButClock_iterate (st : PoolState) (i : ℕ) : SameButClock st (pass^[i] st) := by
  induction i with
  | zero => exact .refl st
  | succ i ih =>
    rw [Function.iterate_succ_apply']
    exact ih.trans (sameButClock_pass _)

theorem unpinned_iterate (st : PoolState) (i f : ℕ) : (pass^[i] st).Unpinned f ↔ st.Unpinned f := by
  rw [Unpinned, (sameButClock_iterate st i).pinCounts, Unpinned]

theorem clockHand_pass (st : PoolState) : st.pass.clockHand = st.advance.clockHand := by
  rw [pass]
  split_ifs
  · rfl
  · rfl

theorem clockHand_iterate (st : PoolState) (hhand : st.clockHand < st.framePages.length) (i : ℕ) :
    (pass^[i] st).clockHand = st.ahead i := by
  induction i with
  | zero => exact (Nat.mod_eq_of_lt hhand).symm
  | succ i ih =>
    rw [Function.iterate_succ_apply', clockHand_pass]
    change ((pass^[i] st).clockHand + 1) % (pass^[i] st).framePages.length = _
    rw [ih, (sameButClock_iterate st i).framePages, ahead, Nat.mod_add_mod]
    rfl

theorem refBits_clear (st : PoolState) (g f : ℕ) :
    (st.clear g).refBits.getD f false = true ↔ st.refBits.getD f false = true ∧ g ≠ f := by
  change (st.refBits.set g false).getD f false = true ↔ _
  rw [List.getD_eq_getElem?_getD, List.getD_eq_getElem?_getD]
  by_cases hg : g = f
  · subst hg
    rw [List.getElem?_set_self']
    cases st.refBits[g]? with
    | none => simp
    | some b => simp
  · rw [List.getElem?_set_ne hg]
    exact (and_iff_left hg).symm

theorem refBits_pass (st : PoolState) (f : ℕ) :
    st.pass.refBits.getD f false = true ↔
      st.refBits.getD f false = true ∧ (st.Unpinned f → st.clockHand ≠ f) := by
  rw [pass]
  split_ifs with hp
  · refine (and_iff_left ?_).symm
    rintro hu rfl
    exact Nat.ne_of_gt hp hu
  · rw [refBits_clear]
    refine and_congr_right fun _ => ⟨fun hne _ => hne, ?_⟩
    rintro hne rfl
    exact hne (Nat.eq_zero_of_not_pos hp) rfl

theorem refBits_iterate (st : PoolState) (hhand : st.clockHand < st.framePages.length) (i f : ℕ) :
    (pass^[i] st).refBits.getD f false = true ↔
      st.refBits.getD f false = true ∧ (st.Unpinned f → ∀ j < i, st.ahead j ≠ f) := by
  induction i with
  | zero => simp
  | succ i ih =>
    rw [Function.iterate_succ_apply', refBits_pass, ih, unpinned_iterate, clockHand_iterate st hhand,
      and_assoc, ← imp_and]
    refine and_congr_right fun _ => imp_congr_right fun _ => ?_
    exact Nat.forall_lt_succ_right.symm

def TakesAt (st : PoolState) (i : ℕ) : Prop := (pass^[i] st).Takes (st.ahead i)

theorem ahead_lt (st : PoolState) (hhand : st.clockHand < st.framePages.length) (j : ℕ) :
    st.ahead j < st.framePages.length := Nat.mod_lt _ (by omega)

theorem ahead_ne (st : PoolState) {i j : ℕ} (hij : j < i) (hi : i < st.framePages.length) :
    st.ahead j ≠ st.ahead i := by
  intro h
  have h' := Nat.ModEq.add_left_cancel' st.clockHand h
  rw [Nat.ModEq, Nat.mod_eq_of_lt (hij.trans hi), Nat.mod_eq_of_lt hi] at h'
  omega

theorem ahead_add (st : PoolState) (j : ℕ) : st.ahead (st.framePages.length + j) = st.ahead j := by
  rw [ahead, Nat.add_left_comm, Nat.add_mod_left, ahead]

theorem exists_ahead (st : PoolState) {f : ℕ} (hf : f < st.framePages.length) :
    ∃ j < st.framePages.length, st.ahead j = f := by
  refine ⟨(f + st.framePages.length - st.clockHand % st.framePages.length) % st.framePages.length,
    Nat.mod_lt _ (by omega), ?_⟩
  rw [ahead, Nat.add_mod_mod]
  have hm : st.clockHand % st.framePages.length < st.framePages.length := Nat.mod_lt _ (by omega)
  have hd := Nat.div_add_mod st.clockHand st.framePages.length
  have : st.clockHand + (f + st.framePages.length - st.clockHand % st.framePages.length) =
      f + st.framePages.length * (st.clockHand / st.framePages.length + 1) := by
    rw [Nat.mul_add]
    omega
  rw [this, Nat.add_mul_mod_self_left, Nat.mod_eq_of_lt hf]

theorem takesAt_first (st : PoolState) (hhand : st.clockHand < st.framePages.length) {i : ℕ}
    (hi : i < st.framePages.length) : st.TakesAt i ↔ st.Takes (st.ahead i) := by
  rw [TakesAt, Takes, Takes, unpinned_iterate, ← Bool.not_eq_true, ← Bool.not_eq_true]
  refine and_congr_right fun _ => not_congr ?_
  rw [refBits_iterate st hhand]
  exact and_iff_left fun _ j hj => st.ahead_ne hj hi

theorem skips_iterate (st : PoolState) (hhand : st.clockHand < st.framePages.length) {i j : ℕ}
    (hj : j < i) : (pass^[i] st).skips (st.ahead j) := by
  by_cases hu : st.Unpinned (st.ahead j)
  · refine .inr (Bool.eq_false_of_not_eq_true ?_)
    rw [refBits_iterate st hhand]
    exact fun h => h.2 hu j hj rfl
  · refine .inl ?_
    rw [(sameButClock_iterate st i).pinCounts]
    exact Nat.pos_of_ne_zero hu

theorem takes_of_skips {st : PoolState} {f : ℕ} (h : st.skips f) : st.Takes f ↔ st.Unpinned f := by
  refine and_iff_left_of_imp fun hu => h.resolve_left ?_
  rw [hu]
  exact Nat.lt_irrefl 0

theorem takesAt_second (st : PoolState) (hhand : st.clockHand < st.framePages.length) (i : ℕ) :
    st.TakesAt (st.framePages.length + i) ↔ st.Unpinned (st.ahead i) := by
  obtain ⟨j, hj, he⟩ := st.exists_ahead (st.ahead_lt hhand i)
  have hskip := st.skips_iterate hhand (Nat.lt_add_right i hj)
  rw [he] at hskip
  rw [TakesAt, ahead_add, takes_of_skips hskip, unpinned_iterate]

theorem findVictimLoop_iterate (st : PoolState) (hhand : st.clockHand < st.framePages.length)
    (i n : ℕ) (h : ∀ j < i, ¬st.TakesAt j) :
    findVictimLoop (i + n) st = findVictimLoop n (pass^[i] st) := by
  induction i generalizing n with
  | zero => rw [Nat.zero_add]; rfl
  | succ i ih =>
    have hi := h i (Nat.lt_succ_self i)
    rw [TakesAt, ← clockHand_iterate st hhand] at hi
    rw [show i + 1 + n = i + (n + 1) by omega, ih (n + 1) fun j hj => h j (Nat.lt_succ_of_lt hj),
      findVictimLoop_pass n _ hi, Function.iterate_succ_apply']

theorem findVictim_take (st : PoolState) (hhand : st.clockHand < st.framePages.length) {i : ℕ}
    (hi : i < 2 * st.framePages.length) (ht : st.TakesAt i) (h : ∀ j < i, ¬st.TakesAt j) :
    st.findVictim = ((pass^[i] st).advance, some (st.ahead i)) := by
  obtain ⟨n, hn⟩ := Nat.exists_eq_add_of_lt hi
  rw [TakesAt, ← clockHand_iterate st hhand] at ht
  rw [findVictim, hn, Nat.add_assoc, findVictimLoop_iterate st hhand i _ h, findVictimLoop_take n _ ht,
    clockHand_iterate st hhand]

theorem findVictim_pass (st : PoolState) (hhand : st.clockHand < st.framePages.length)
    (h : ∀ j < 2 * st.framePages.length, ¬st.TakesAt j) :
    st.findVictim = (pass^[2 * st.framePages.length] st, none) :=
  findVictimLoop_iterate st hhand _ 0 h

def FirstAhead (st : PoolState) (p : ℕ → Prop) (j : ℕ) : Prop :=
  j < st.framePages.length ∧ p (st.ahead j) ∧ ∀ i < j, ¬p (st.ahead i)

theorem exists_firstAhead (st : PoolState) (p : ℕ → Prop) {f : ℕ} (hf : f < st.framePages.length)
    (hp : p f) : ∃ j, st.FirstAhead p j := by
  classical
  obtain ⟨j, hj, rfl⟩ := st.exists_ahead hf
  have h : ∃ i, p (st.ahead i) := ⟨j, hp⟩
  exact ⟨Nat.find h, (Nat.find_min' h hp).trans_lt hj, Nat.find_spec h, fun _ hi => Nat.find_min h hi⟩

inductive ClockSpec (st : PoolState) : PoolState × Option ℕ → Prop
  | first {j : ℕ} : st.FirstAhead st.Takes j →
      ClockSpec st ((pass^[j] st).advance, some (st.ahead j))
  | second {j : ℕ} : (∀ f < st.framePages.length, ¬st.Takes f) → st.FirstAhead st.Unpinned j →
      ClockSpec st ((pass^[st.framePages.length + j] st).advance, some (st.ahead j))
  | pinned : (∀ f < st.framePages.length, ¬st.Unpinned f) →
      ClockSpec st (pass^[2 * st.framePages.length] st, none)

theorem findVictim_spec (st : PoolState) (hhand : st.clockHand < st.framePages.length) :
    ClockSpec st st.findVictim := by
  by_cases ht : ∃ f < st.framePages.length, st.Takes f
  · obtain ⟨f, hf, ht⟩ := ht
    obtain ⟨j, hj, htake, hmin⟩ := st.exists_firstAhead _ hf ht
    have hbefore : ∀ i < j, ¬st.TakesAt i := by
      intro i hi
      rw [takesAt_first st hhand (hi.trans hj)]
      exact hmin i hi
    rw [findVictim_take st hhand (by omega) ((takesAt_first st hhand hj).mpr htake) hbefore]
    exact .first ⟨hj, htake, hmin⟩
  push Not at ht
  have hfirst : ∀ i < st.framePages.length, ¬st.TakesAt i := by
    intro i hi
    rw [takesAt_first st hhand hi]
    exact ht _ (st.ahead_lt hhand i)
  -- A frame past the first sweep is met at its own distance once more.
  have hsweep : ∀ i, ¬i < st.framePages.length → (st.TakesAt i ↔
      st.Unpinned (st.ahead (i - st.framePages.length))) := by
    intro i hi
    rw [← takesAt_second st hhand, Nat.add_sub_cancel' (Nat.le_of_not_lt hi)]
  by_cases hu : ∃ f < st.framePages.length, st.Unpinned f
  · obtain ⟨f, hf, hu⟩ := hu
    obtain ⟨j, hj, hup, hmin⟩ := st.exists_firstAhead _ hf hu
    have hbefore : ∀ i < st.framePages.length + j, ¬st.TakesAt i := by
      intro i hi
      by_cases hlt : i < st.framePages.length
      · exact hfirst i hlt
      · rw [hsweep i hlt]
        exact hmin _ (by omega)
    rw [findVictim_take st hhand (by omega) ((takesAt_second st hhand j).mpr hup) hbefore, ahead_add]
    exact .second ht ⟨hj, hup, hmin⟩
  · push Not at hu
    rw [findVictim_pass st hhand]
    · exact .pinned hu
    · intro i _
      by_cases hlt : i < st.framePages.length
      · exact hfirst i hlt
      · rw [hsweep i hlt]
        exact hu _ (st.ahead_lt hhand _)

theorem ClockSpec.same {st : PoolState} {r : PoolState × Option ℕ} (h : ClockSpec st r) :
    SameButClock st r.1 := by
  cases h with
  | first => exact (sameButClock_iterate st _).trans (sameButClock_advance _)
  | second => exact (sameButClock_iterate st _).trans (sameButClock_advance _)
  | pinned => exact sameButClock_iterate st _

theorem ClockSpec.some {st st' : PoolState} {f : ℕ} (hhand : st.clockHand < st.framePages.length)
    (h : ClockSpec st (st', some f)) : f < st.framePages.length ∧ st.Unpinned f := by
  cases h with
  | first hfirst => exact ⟨st.ahead_lt hhand _, hfirst.2.1.1⟩
  | second _ hfirst => exact ⟨st.ahead_lt hhand _, hfirst.2.1⟩

theorem ClockSpec.none {st st' : PoolState} (h : ClockSpec st (st', none)) :
    ∀ f < st.framePages.length, ¬st.Unpinned f := by
  cases h with
  | pinned hpinned => exact hpinned

/-- The first `k` frames from the hand have been passed over: of the bits that were set, exactly those
of the unpinned ones among them are clear now. -/
def ClearedPast (st st' : PoolState) (k : ℕ) : Prop :=
  ∀ f, st'.refBits.getD f false = true ↔
    st.refBits.getD f false = true ∧ (st.Unpinned f → ∀ i < k, st.ahead i ≠ f)

theorem clockHand_advance (st : PoolState) (hhand : st.clockHand < st.framePages.length) (i : ℕ) :
    (pass^[i] st).advance.clockHand = (st.ahead i + 1) % st.framePages.length := by
  change ((pass^[i] st).clockHand + 1) % (pass^[i] st).framePages.length = _
  rw [clockHand_iterate st hhand, (sameButClock_iterate st i).framePages]

theorem refBits_pinned (st : PoolState) (hhand : st.clockHand < st.framePages.length)
    (h : ∀ f < st.framePages.length, ¬st.Unpinned f) (i : ℕ) :
    (pass^[i] st).refBits = st.refBits := by
  induction i with
  | zero => rfl
  | succ i ih =>
    have hp : (pass^[i] st).pinCounts.getD (pass^[i] st).clockHand 0 > 0 := by
      rw [(sameButClock_iterate st i).pinCounts, clockHand_iterate st hhand]
      exact Nat.pos_of_ne_zero (h _ (st.ahead_lt hhand i))
    rw [Function.iterate_succ_apply', pass, if_pos hp]
    exact ih

theorem iterate_pinned (st : PoolState) (hhand : st.clockHand < st.framePages.length)
    (h : ∀ f < st.framePages.length, ¬st.Unpinned f) : pass^[2 * st.framePages.length] st = st := by
  have hsame := st.sameButClock_iterate (2 * st.framePages.length)
  have hrefs := st.refBits_pinned hhand h (2 * st.framePages.length)
  have hclock : (pass^[2 * st.framePages.length] st).clockHand = st.clockHand := by
    rw [clockHand_iterate st hhand, ahead, Nat.add_mul_mod_self_right, Nat.mod_eq_of_lt hhand]
  generalize pass^[2 * st.framePages.length] st = st' at hsame hrefs hclock ⊢
  obtain ⟨hpages, hframes, hpins, hfree, -, -⟩ := hsame
  cases st
  cases st'
  simp_all

theorem findVictim_second_chance (st : PoolState) (hhand : st.clockHand < st.framePages.length) :
    ((∃ f, st.findVictim.2 = some f) ↔ ∃ f < st.framePages.length, st.Unpinned f) ∧
    (st.findVictim.2 = none → st.findVictim.1 = st) ∧
    SameButClock st st.findVictim.1 ∧
    ∀ f, st.findVictim.2 = some f →
      f < st.framePages.length ∧ st.Unpinned f ∧
      st.findVictim.1.clockHand = (f + 1) % st.framePages.length ∧
      ((∃ g < st.framePages.length, st.Takes g) → ∃ j, f = st.ahead j ∧
        st.FirstAhead st.Takes j ∧ ClearedPast st st.findVictim.1 j) ∧
      ((∀ g < st.framePages.length, ¬st.Takes g) → ∃ j, f = st.ahead j ∧
        st.FirstAhead st.Unpinned j ∧
        ClearedPast st st.findVictim.1 (st.framePages.length + j)) := by
  have hspec := findVictim_spec st hhand
  refine ⟨?_, ?_, hspec.same, ?_⟩
  · generalize st.findVictim = r at hspec
    cases hspec with
    | @first j hfirst => exact iff_of_true ⟨_, rfl⟩ ⟨_, st.ahead_lt hhand j, hfirst.2.1.1⟩
    | @second j _ hfirst => exact iff_of_true ⟨_, rfl⟩ ⟨_, st.ahead_lt hhand j, hfirst.2.1⟩
    | pinned hpinned =>
      refine iff_of_false ?_ ?_
      · rintro ⟨f, hf⟩
        cases hf
      · rintro ⟨f, hf, hu⟩
        exact hpinned f hf hu
  · generalize st.findVictim = r at hspec
    intro hnone
    cases hspec with
    | first => cases hnone
    | second => cases hnone
    | pinned hpinned => exact st.iterate_pinned hhand hpinned
  · intro f hf
    generalize st.findVictim = r at hspec hf ⊢
    cases hspec with
    | @first j hfirst =>
      obtain rfl : st.ahead j = f := Option.some.inj hf
      refine ⟨st.ahead_lt hhand j, hfirst.2.1.1, st.clockHand_advance hhand j, fun _ => ?_, ?_⟩
      · exact ⟨j, rfl, hfirst, st.refBits_iterate hhand j⟩
      · intro hno
        exact absurd hfirst.2.1 (hno _ (st.ahead_lt hhand j))
    | @second j hno hfirst =>
      obtain rfl : st.ahead j = f := Option.some.inj hf
      refine ⟨st.ahead_lt hhand j, hfirst.2.1, ?_, ?_, fun _ => ?_⟩
      · rw [clockHand_advance st hhand, ahead_add]
      · rintro ⟨g, hg, ht⟩
        exact absurd ht (hno g hg)
      · exact ⟨j, rfl, hfirst, st.refBits_iterate hhand _⟩
    | pinned => cases hf

theorem findVictim_second_chance_three : ∃ st : PoolState,
    st.clockHand < st.framePages.length ∧ st.findVictim.2 = some 2 ∧
    st.findVictim.1.clockHand = (2 + 1) % st.framePages.length ∧
    ∃ j, 2 = st.ahead j ∧ st.FirstAhead st.Takes j ∧ ClearedPast st st.findVictim.1 j := by
  let st : PoolState :=
    ⟨fun _ => none, [none, none, none], [1, 0, 0], [false, true, false], 1, []⟩
  have hhand : st.clockHand < st.framePages.length := by decide
  obtain ⟨-, -, hclock, hfirst, -⟩ := (findVictim_second_chance st hhand).2.2.2 2 rfl
  exact ⟨st, hhand, rfl, hclock, hfirst ⟨2, by decide, rfl, rfl⟩⟩

inductive AcquireSpec (st : PoolState) (capacity : ℕ) : PoolState → Acquired → Prop
  | free {f : ℕ} {rest : List ℕ} :
      st.freeFrames = f :: rest → AcquireSpec st capacity { st with freeFrames := rest } (.free f)
  | victim {st' : PoolState} {f : ℕ} {oldId : PageId} :
      st.freeFrames = [] → SameButClock st st' → st.framePages[f]? = some (some oldId) →
      st.pinCounts.getD f 0 = 0 → AcquireSpec st capacity st' (.victim f oldId)
  | exhausted {st' : PoolState} :
      SameButClock st st' → (∀ f < st.framePages.length, st.pinCounts.getD f 0 > 0) →
      AcquireSpec st capacity st' (.exhausted (.resourceExhausted
        s!"all {capacity} frames in a buffer pool shard are pinned"))

theorem AcquireSpec.not_panic {st st' : PoolState} {capacity : ℕ} {acquired : Acquired}
    (h : AcquireSpec st capacity st' acquired) : acquired ≠ .panic := by
  cases h with
  | free => exact Acquired.noConfusion
  | victim => exact Acquired.noConfusion
  | exhausted => exact Acquired.noConfusion

theorem acquireFrame_spec (st : PoolState) (capacity : ℕ)
    (hhand : st.clockHand < st.framePages.length)
    (hfree : st.freeFrames = [] → ∀ f : ℕ, st.framePages[f]? ≠ some none) :
    AcquireSpec st capacity (st.acquireFrame capacity).1 (st.acquireFrame capacity).2 := by
  rw [acquireFrame]
  cases hl : st.freeFrames with
  | cons f rest => exact .free hl
  | nil =>
    have hspec := findVictim_spec st hhand
    have hsame := hspec.same
    generalize st.findVictim = r at hspec hsame ⊢
    obtain ⟨st', v⟩ := r
    cases v with
    | none => exact .exhausted hsame fun f hf => Nat.pos_of_ne_zero (hspec.none f hf)
    | some victim =>
      obtain ⟨hlt, hpin⟩ := hspec.some hhand
      have hpages : st'.framePages = st.framePages := hsame.framePages
      have hget := List.getElem?_eq_getElem hlt
      cases ho : st.framePages[victim] with
      | none => exact absurd (by rw [hget, ho]) (hfree hl victim)
      | some oldId =>
        have hd : st'.framePages.getD victim none = some oldId := by
          rw [hpages, List.getD_eq_getElem?_getD, hget, ho]
          rfl
        simp only [hd]
        exact .victim hl hsame (by rw [hget, ho]) hpin

end OxenDB.PoolState
