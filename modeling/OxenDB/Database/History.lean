import OxenDB.Database.Step

namespace OxenDB

open Lib

structure PageMap.WellFormed (m : PageMap) : Prop where
  count_pos : m.count ≠ 0
  pages : ∀ id, DataPage m.count id → (m.page id).Valid id

structure Commit.Extends (c : Commit) (m : PageMap) : Prop where
  count_le : m.count ≤ c.pageCount
  grew : c.grew = decide (c.pageCount > m.count)
  nodup : (c.pages.map Prod.fst).Nodup
  valid : ∀ u ∈ c.pages, u.2.Valid u.1
  data : ∀ u ∈ c.pages, DataPage c.pageCount u.1
  fresh : ∀ id, DataPage c.pageCount id → ¬ DataPage m.count id → id ∈ c.pages.map Prod.fst
  growth : c.pageCount.toNat ≤ m.count.toNat + c.pages.length

inductive Chain : PageMap → List Commit → Prop
  | nil (m : PageMap) : Chain m []
  | cons {m : PageMap} {c : Commit} {cs : List Commit} :
      c.Extends m → Chain (m.commit c) cs → Chain m (c :: cs)

theorem Commit.Extends.wellFormed {c : Commit} {m : PageMap} (h : c.Extends m) (hm : m.WellFormed) :
    (m.commit c).WellFormed where
  count_pos h0 := by
    have hle := UInt64.le_iff_toNat_le.mp h.count_le
    apply hm.count_pos
    rw [← UInt64.toNat_inj] at h0 ⊢
    change c.pageCount.toNat = 0 at h0
    change m.count.toNat = 0
    omega
  pages id hid := by
    change (overlay m.page c.pages id).Valid id
    by_cases hk : id ∈ c.pages.map Prod.fst
    · obtain ⟨u, hu, rfl⟩ := List.mem_map.mp hk
      rw [overlay_of_nodup m.page c.pages h.nodup u.1 u.2 hu]
      exact h.valid u hu
    · rw [overlay_of_not_mem _ _ _ hk]
      apply hm.pages
      by_contra hold
      exact hk (h.fresh id hid hold)

namespace Chain

variable {m : PageMap} {c : Commit} {cs cs' : List Commit}

theorem append (h : Chain m cs) (h' : Chain (m.commits cs) cs') : Chain m (cs ++ cs') := by
  induction h with
  | nil => exact h'
  | cons hc _ ih => exact .cons hc (ih h')

theorem snoc (h : Chain m cs) (hc : c.Extends (m.commits cs)) : Chain m (cs ++ [c]) :=
  h.append (.cons hc (.nil _))

theorem of_append (h : Chain m (cs ++ cs')) : Chain m cs ∧ Chain (m.commits cs) cs' := by
  induction cs generalizing m with
  | nil => exact ⟨.nil m, h⟩
  | cons c cs ih =>
    cases h with
    | cons hc h =>
      obtain ⟨h₁, h₂⟩ := ih h
      exact ⟨.cons hc h₁, h₂⟩

theorem wellFormed (h : Chain m cs) (hm : m.WellFormed) : (m.commits cs).WellFormed := by
  induction h with
  | nil => exact hm
  | cons hc _ ih => exact ih (hc.wellFormed hm)

theorem count_le (h : Chain m cs) : m.count ≤ (m.commits cs).count := by
  induction h with
  | nil => exact UInt64.le_refl _
  | cons hc _ ih => exact UInt64.le_trans hc.count_le ih

theorem growth (h : Chain m cs) :
    (m.commits cs).count.toNat ≤ m.count.toNat + (cs.flatMap (·.pages)).length := by
  induction h with
  | nil => exact Nat.le_add_right _ _
  | @cons m c cs hc _ ih =>
    have hg := hc.growth
    rw [List.flatMap_cons, List.length_append]
    change (PageMap.commits (m.commit c) cs).count.toNat ≤ _
    change (PageMap.commits (m.commit c) cs).count.toNat ≤ c.pageCount.toNat + _ at ih
    omega

theorem valid (h : Chain m cs) {u : PageId × Page} (hu : u ∈ cs.flatMap (·.pages)) :
    u.2.Valid u.1 := by
  induction h with
  | nil => cases hu
  | @cons m c cs hc h ih =>
    rw [List.flatMap_cons, List.mem_append] at hu
    rcases hu with hu | hu
    · exact hc.valid u hu
    · exact ih hu

theorem fresh (h : Chain m cs) {id : PageId} (hid : DataPage (m.commits cs).count id)
    (hnew : ¬ DataPage m.count id) : id ∈ (cs.flatMap (·.pages)).map Prod.fst := by
  induction h with
  | nil => exact absurd hid hnew
  | @cons m c cs hc h ih =>
    rw [List.flatMap_cons, List.map_append, List.mem_append]
    by_cases hmid : DataPage c.pageCount id
    · exact .inl (hc.fresh id hmid hnew)
    · exact .inr (ih hid hmid)

theorem count_eq (h : Chain m cs) (hg : ∀ c ∈ cs, c.grew = false) :
    (m.commits cs).count = m.count := by
  induction h with
  | nil => rfl
  | @cons m c cs hc h ih =>
    have hcg := hg c List.mem_cons_self
    rw [hc.grew, decide_eq_false_iff_not] at hcg
    have heq : c.pageCount = m.count := UInt64.le_antisymm (UInt64.not_lt.mp hcg) hc.count_le
    exact (ih (fun c' hc' => hg c' (List.mem_cons_of_mem _ hc'))).trans heq

end Chain

/-- What the files stand for: the map at the last reset of the log, the numbers its records and
commits go on from, the commits logged since, and the commit whose records may or may not have
reached the log. -/
structure Log where
  base : PageMap
  firstSeq : UInt64
  firstTxn : TxnId
  since : List Commit
  pending : Option Commit

namespace Log

def current (l : Log) : PageMap := l.base.commits l.since

def body (l : Log) : Bytes := encodeHeader l.firstSeq ++ encodeAll (l.since.flatMap (·.records)) l.firstSeq

def nextSeq (l : Log) : UInt64 := l.firstSeq + UInt64.ofNat (l.since.flatMap (·.records)).length

def nextTxn (l : Log) : TxnId := l.firstTxn + UInt64.ofNat l.since.length

def propose (l : Log) (c : Commit) : Log := { l with pending := some c }

def push (l : Log) (c : Commit) : Log := { l with since := l.since ++ [c], pending := none }

def reset (l : Log) : Log := ⟨l.current, l.nextSeq, l.nextTxn, [], none⟩

end Log

/-- `all` are the commits that became durable, in order, `stuck` is the one whose publish failed, and
`returned` of them returned Ok. -/
structure History where
  log : Log
  all : List Commit
  stuck : Option Commit
  returned : ℕ

namespace History

def start (m : PageMap) (seq : UInt64) : History := ⟨⟨m, seq, 1, [], none⟩, [], none, 0⟩

def record (h : History) : Event → History
  | .logged c => { h with log := h.log.propose c }
  | .durable c => { h with log := h.log.push c, all := h.all ++ [c] }
  | .commitOk _ => { h with returned := h.returned + 1 }
  | .resetDone auto => { h with log := h.log.reset, returned := h.returned + auto.toList.length }
  | .poisoned (.publish c) => { h with stuck := some c }
  | .poisoned (.checkpoint auto) => { h with returned := h.returned + auto.toList.length }
  | _ => h

def of (m : PageMap) (seq : UInt64) (es : List Event) : History := es.foldl record (start m seq)

theorem of_snoc (m : PageMap) (seq : UInt64) (es : List Event) (e : Event) :
    of m seq (es ++ [e]) = (of m seq es).record e := by
  rw [of, List.foldl_append]
  rfl

end History

end OxenDB
