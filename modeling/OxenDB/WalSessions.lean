import OxenDB.Open
import OxenDB.Lib.Transition

namespace OxenDB

open Lib

def Wal.flush (w : Wal) (contents : Bytes) : Except Error (Wal × Bytes) :=
  match w.checkPoisoned with
  | .error e => .error e
  | .ok () =>
    if w.pending = [] then .ok (w, contents)
    else
      .ok ({ w with durableLen := w.durableLen + w.pending.length, pending := [] },
        writeAt contents w.durableLen w.pending)

inductive WalEvent
  | append (r : WalRecord)
  | flush
  | reset
  | close
  | tear (k : ℕ)
  | resetCrash (truncated written : Bool)
  | «open» (records : List DecodedRecord) (discarded : Option DiscardedTail)
  | openCrash

structure WalSystem where
  contents : Bytes
  handle : Option Wal

namespace WalSystem

def created : WalSystem := ⟨Wal.create.2, some Wal.create.1⟩

/-- A crash inside `flush` leaves `k` bytes of the batch; one inside `reset` any of its two writes;
one inside `open` may come before or after the truncation of the tail. -/
inductive Step : WalSystem → WalEvent → WalSystem → Prop
  | append {s : WalSystem} {w w' : Wal} {r : WalRecord} : s.handle = some w → w.append r = .ok w' →
      Step s (.append r) { s with handle := some w' }
  | flush {s : WalSystem} {w w' : Wal} {contents : Bytes} : s.handle = some w →
      w.flush s.contents = .ok (w', contents) → contents.length ≤ maxFileSize →
      Step s .flush ⟨contents, some w'⟩
  | reset {s : WalSystem} {w w' : Wal} {contents : Bytes} : s.handle = some w →
      w.reset s.contents = .ok (w', contents) → Step s .reset ⟨contents, some w'⟩
  | close {s : WalSystem} {w : Wal} : s.handle = some w → Step s .close ⟨s.contents, none⟩
  | tear {s : WalSystem} {w : Wal} (k : ℕ) : s.handle = some w → w.checkPoisoned = .ok () →
      (s.contents.take w.durableLen ++ w.pending.take k).length ≤ maxFileSize →
      Step s (.tear k) ⟨s.contents.take w.durableLen ++ w.pending.take k, none⟩
  | resetCrash {s : WalSystem} {w : Wal} (truncated written : Bool) : s.handle = some w →
      w.checkReset = .ok () →
      Step s (.resetCrash truncated written)
        ⟨(if written then encodeHeader w.nextSeq else s.contents.take walHeaderSize) ++
          (if truncated then [] else s.contents.drop walHeaderSize), none⟩
  | «open» {s : WalSystem} {o : OpenedWal} : s.handle = none → Wal.open s.contents = .ok o →
      Step s (.open o.records o.discarded) ⟨o.contents, some o.wal⟩
  | openCrash {s : WalSystem} {o : OpenedWal} (truncated : Bool) : s.handle = none →
      Wal.open s.contents = .ok o →
      Step s .openCrash ⟨if truncated then o.contents else s.contents, none⟩

end WalSystem

/-- The log as a list of records: those that are durable since the last reset, and those that the
open session appended and did not flush. -/
structure WalView where
  first : UInt64
  kept : List WalRecord
  pending : List WalRecord

def wholeRecords : ℕ → List WalRecord → List WalRecord
  | _, [] => []
  | k, r :: rs => if r.len ≤ k then r :: wholeRecords (k - r.len) rs else []

namespace WalView

def next (v : WalView) : UInt64 := v.first + UInt64.ofNat v.kept.length

def record (v : WalView) : WalEvent → WalView
  | .append r => { v with pending := v.pending ++ [r] }
  | .flush => ⟨v.first, v.kept ++ v.pending, []⟩
  | .reset => ⟨v.next, [], []⟩
  | .close => { v with pending := [] }
  | .tear k => ⟨v.first, v.kept ++ wholeRecords k v.pending, []⟩
  | .resetCrash truncated written =>
    ⟨if written then v.next else v.first, if truncated ∨ written then [] else v.kept, []⟩
  | .open _ _ => v
  | .openCrash => v

def after (v : WalView) (es : List WalEvent) : WalView := es.foldl record v

def bytes (v : WalView) : Bytes := encodeHeader v.first ++ encodeAll v.kept v.first

end WalView

theorem WalView.after_snoc (v : WalView) (es : List WalEvent) (e : WalEvent) :
    v.after (es ++ [e]) = (v.after es).record e := by
  rw [after, List.foldl_append]
  rfl

structure WalSystem.Holds (s : WalSystem) (v : WalView) : Prop where
  contents : s.contents = v.bytes
  handle : s.handle = some ⟨v.bytes.length, encodeAll v.pending v.next,
    v.next + UInt64.ofNat v.pending.length, false⟩
  room : v.bytes.length ≤ maxFileSize

structure WalSystem.Closed (s : WalSystem) (v : WalView) : Prop where
  handle : s.handle = none
  contents : ∃ left, s.contents = v.bytes ++ left ∧ NoRecord left v.next
  pending : v.pending = []
  room : v.bytes.length ≤ maxFileSize

def WalSystem.Refines (s : WalSystem) (v : WalView) : Prop := s.Holds v ∨ s.Closed v

theorem encodeAll_take (rs : List WalRecord) (seq : UInt64) (k : ℕ) :
    ∃ left, (encodeAll rs seq).take k = encodeAll (wholeRecords k rs) seq ++ left ∧
      NoRecord left (seq + UInt64.ofNat (wholeRecords k rs).length) := by
  induction rs generalizing seq k with
  | nil => exact ⟨[], by simp [encodeAll, wholeRecords], noRecord_nil _⟩
  | cons r rs ih =>
    have hlen := r.encode_length seq
    by_cases hk : r.len ≤ k
    · obtain ⟨left, hl, hno⟩ := ih (seq + 1) (k - r.len)
      refine ⟨left, ?_, ?_⟩
      · rw [wholeRecords, if_pos hk, encodeAll, encodeAll, List.take_append, hlen, hl,
          List.take_of_length_le (by omega), List.append_assoc]
      · rw [wholeRecords, if_pos hk, List.length_cons, ← ofNat_succ_add]
        exact hno
    · refine ⟨(r.encode seq []).take k, ?_, ?_⟩
      · have hz : k - r.len = 0 := by omega
        rw [wholeRecords, if_neg hk]
        simp [encodeAll, List.take_append, hlen, hz]
      · intro d hd
        rw [r.decode_take seq k (by omega)] at hd
        cases hd

namespace WalSystem

variable {s s' : WalSystem} {v : WalView} {e : WalEvent}

theorem created_holds : created.Holds ⟨0, [], []⟩ := by
  have hb : WalView.bytes ⟨0, [], []⟩ = encodeHeader 0 := List.append_nil _
  refine ⟨hb.symm, ?_, ?_⟩
  · rw [hb, encodeHeader_length]
    rfl
  · rw [hb, encodeHeader_length]
    decide

theorem Closed.open (h : s.Closed v) : ∃ o, Wal.open s.contents = .ok o ∧
    o.records = decodedAll v.kept v.first ∧ o.contents = v.bytes ∧
      o.wal = ⟨v.bytes.length, [], v.next, false⟩ := by
  obtain ⟨left, hc, hno⟩ := h.contents
  obtain ⟨o, ho, hrec, hcont, hwal⟩ := Wal.open_encoded v.kept v.first left hno
  refine ⟨o, ?_, hrec, hcont, ?_⟩
  · rw [hc, WalView.bytes, List.append_assoc]
    exact ho
  · rw [hwal, hcont]
    rfl

theorem Holds.append {w w' : Wal} {r : WalRecord} (h : s.Holds v) (hw : s.handle = some w)
    (ha : w.append r = .ok w') : Holds { s with handle := some w' } (v.record (.append r)) := by
  rw [h.handle, Option.some.injEq] at hw
  subst hw
  simp only [Wal.append, Wal.checkPoisoned, Bool.false_eq_true, if_false] at ha
  injection ha with ha
  subst ha
  refine ⟨h.contents, ?_, h.room⟩
  simp only [WalView.record, WalView.next, WalView.bytes, Option.some.injEq, Wal.mk.injEq, true_and, and_true]
  refine ⟨?_, ?_⟩
  · rw [WalRecord.encode_append, encodeAll_append]
    simp [encodeAll]
  · rw [List.length_append, List.length_singleton, UInt64.ofNat_add, ← UInt64.add_assoc]
    rfl

theorem Holds.flush {w w' : Wal} {contents : Bytes} (h : s.Holds v) (hw : s.handle = some w)
    (hf : w.flush s.contents = .ok (w', contents)) (hlen : contents.length ≤ maxFileSize) :
    Holds ⟨contents, some w'⟩ (v.record .flush) := by
  have hbytes : (v.record .flush).bytes = v.bytes ++ encodeAll v.pending v.next := by
    rw [WalView.bytes, WalView.bytes, WalView.record, encodeAll_append, List.append_assoc]
    rfl
  have hnext : (v.record .flush).next = v.next + UInt64.ofNat v.pending.length := by
    rw [WalView.next, WalView.next, WalView.record, List.length_append, UInt64.ofNat_add, UInt64.add_assoc]
  rw [h.handle, Option.some.injEq] at hw
  subst hw
  simp only [Wal.flush, Wal.checkPoisoned, Bool.false_eq_true, if_false] at hf
  have hcont : contents = (v.record .flush).bytes ∧
      w' = ⟨(v.record .flush).bytes.length, [], (v.record .flush).next, false⟩ := by
    rw [hbytes, hnext]
    split_ifs at hf with hp
    · injection hf with hf
      obtain ⟨rfl, rfl⟩ := Prod.mk.inj hf
      rw [hp, List.append_nil]
      exact ⟨h.contents, rfl⟩
    · injection hf with hf
      obtain ⟨rfl, rfl⟩ := Prod.mk.inj hf
      rw [h.contents, writeAt_end, List.length_append]
      exact ⟨rfl, rfl⟩
  obtain ⟨rfl, rfl⟩ := hcont
  refine ⟨rfl, ?_, hlen⟩
  simp [WalView.record, encodeAll]

theorem Holds.reset {w w' : Wal} {contents : Bytes} (h : s.Holds v) (hw : s.handle = some w)
    (hr : w.reset s.contents = .ok (w', contents)) :
    Holds ⟨contents, some w'⟩ (v.record .reset) := by
  have hbytes : (v.record .reset).bytes = encodeHeader v.next := List.append_nil _
  have hlen : (encodeHeader v.next).length = walHeaderSize := encodeHeader_length _
  rw [h.handle, Option.some.injEq] at hw
  subst hw
  simp only [Wal.reset, Wal.checkReset, Wal.checkPoisoned, Bool.false_eq_true, if_false] at hr
  split_ifs at hr with hp
  rw [not_not] at hp
  have hpend : v.pending = [] := by
    have hge := encodeAll_length_ge v.pending v.next
    rw [hp, List.length_nil] at hge
    exact List.length_eq_zero_iff.mp (by omega)
  rw [hpend] at hr
  simp only [List.length_nil, encodeAll, writeAt_header] at hr
  injection hr with hr
  obtain ⟨rfl, rfl⟩ := Prod.mk.inj hr
  have hz : v.next + UInt64.ofNat 0 = v.next := by simp
  rw [hz]
  refine ⟨hbytes.symm, ?_, ?_⟩
  · rw [hbytes, hlen]
    simp [WalView.record, WalView.next, encodeAll]
  · rw [hbytes, hlen]
    decide

theorem Holds.close (h : s.Holds v) : Closed ⟨s.contents, none⟩ (v.record .close) :=
  ⟨rfl, ⟨[], by rw [List.append_nil]; exact h.contents, noRecord_nil _⟩, rfl, h.room⟩

theorem Holds.tear {w : Wal} {k : ℕ} (h : s.Holds v) (hw : s.handle = some w)
    (hlen : (s.contents.take w.durableLen ++ w.pending.take k).length ≤ maxFileSize) :
    Closed ⟨s.contents.take w.durableLen ++ w.pending.take k, none⟩ (v.record (.tear k)) := by
  rw [h.handle, Option.some.injEq] at hw
  subst hw
  obtain ⟨left, hl, hno⟩ := encodeAll_take v.pending v.next k
  have htake : s.contents.take v.bytes.length = v.bytes := by
    rw [h.contents, List.take_length]
  have hbytes : (v.record (.tear k)).bytes = v.bytes ++ encodeAll (wholeRecords k v.pending) v.next := by
    rw [WalView.bytes, WalView.bytes, WalView.record, encodeAll_append, List.append_assoc]
    rfl
  have hnext : (v.record (.tear k)).next =
      v.next + UInt64.ofNat (wholeRecords k v.pending).length := by
    rw [WalView.next, WalView.next, WalView.record, List.length_append, UInt64.ofNat_add, UInt64.add_assoc]
  dsimp only at hlen ⊢
  rw [htake, hl] at hlen ⊢
  refine ⟨rfl, ⟨left, ?_, ?_⟩, rfl, ?_⟩
  · rw [hbytes, List.append_assoc]
  · rw [hnext]
    exact hno
  · rw [hbytes]
    rw [List.length_append, List.length_append] at hlen
    rw [List.length_append]
    omega

theorem Holds.resetCrash {w : Wal} (truncated written : Bool) (h : s.Holds v) (hw : s.handle = some w)
    (hr : w.checkReset = .ok ()) :
    Closed ⟨(if written then encodeHeader w.nextSeq else s.contents.take walHeaderSize) ++
      (if truncated then [] else s.contents.drop walHeaderSize), none⟩
      (v.record (.resetCrash truncated written)) := by
  rw [h.handle, Option.some.injEq] at hw
  subst hw
  simp only [Wal.checkReset, Wal.checkPoisoned, Bool.false_eq_true, if_false] at hr
  split_ifs at hr with hp
  rw [not_not] at hp
  have hge := encodeAll_length_ge v.pending v.next
  rw [hp, List.length_nil] at hge
  have hpend : v.pending = [] := List.length_eq_zero_iff.mp (by omega)
  have htake : s.contents.take walHeaderSize = encodeHeader v.first := by
    rw [h.contents, WalView.bytes, take_encodeHeader]
  have hdrop : s.contents.drop walHeaderSize = encodeAll v.kept v.first := by
    rw [h.contents, WalView.bytes, drop_encodeHeader]
  have hlt : v.kept.length < 2 ^ 64 := by
    have hk := encodeAll_length_ge v.kept v.first
    have hroom := h.room
    rw [WalView.bytes, List.length_append, maxFileSize] at hroom
    omega
  have hsmall : ∀ seq : UInt64, (encodeHeader seq ++ encodeAll [] seq).length ≤ maxFileSize := by
    intro seq
    rw [encodeAll, List.append_nil, encodeHeader_length]
    decide
  have hz : v.next + UInt64.ofNat 0 = v.next := by simp
  have hz' : v.first + UInt64.ofNat 0 = v.first := by simp
  dsimp only
  rw [htake, hdrop, hpend, List.length_nil, hz]
  cases truncated with
  | true =>
    cases written with
    | true =>
      refine ⟨rfl, ⟨[], ?_, noRecord_nil _⟩, rfl, hsmall _⟩
      simp [WalView.record, WalView.bytes, encodeAll]
    | false =>
      refine ⟨rfl, ⟨[], ?_, noRecord_nil _⟩, rfl, hsmall _⟩
      simp [WalView.record, WalView.bytes, encodeAll]
  | false =>
    cases written with
    | true =>
      refine ⟨rfl, ⟨encodeAll v.kept v.first, ?_, ?_⟩, rfl, hsmall _⟩
      · simp [WalView.record, WalView.bytes, encodeAll]
      · change NoRecord _ (v.next + UInt64.ofNat 0)
        rw [hz]
        exact noRecord_stale hlt
    | false =>
      refine ⟨rfl, ⟨[], ?_, noRecord_nil _⟩, rfl, h.room⟩
      simp [WalView.record, WalView.bytes]

theorem Holds.not_closed (h : s.Holds v) : s.handle ≠ none := by
  rw [h.handle]
  exact Option.some_ne_none _

theorem Refines.holds {w : Wal} (h : s.Refines v) (hw : s.handle = some w) : s.Holds v := by
  rcases h with h | h
  · exact h
  · rw [h.handle] at hw
    cases hw

theorem Refines.closed (h : s.Refines v) (hw : s.handle = none) : s.Closed v := by
  rcases h with h | h
  · exact absurd hw h.not_closed
  · exact h

theorem Refines.step (h : s.Refines v) (hs : Step s e s') : s'.Refines (v.record e) := by
  cases hs with
  | append hw ha => exact .inl ((h.holds hw).append hw ha)
  | flush hw hf hlen => exact .inl ((h.holds hw).flush hw hf hlen)
  | reset hw hr => exact .inl ((h.holds hw).reset hw hr)
  | close hw => exact .inr (h.holds hw).close
  | tear k hw _ hlen => exact .inr ((h.holds hw).tear hw hlen)
  | resetCrash t w hw hr => exact .inr ((h.holds hw).resetCrash t w hw hr)
  | @«open» o hw ho =>
    have hc := h.closed hw
    obtain ⟨o', ho', -, hcont, hwal⟩ := hc.open
    rw [ho'] at ho
    injection ho with ho
    subst ho
    refine .inl ⟨hcont, ?_, hc.room⟩
    rw [hwal]
    simp [WalView.record, hc.pending, encodeAll]
  | @openCrash o truncated hw ho =>
    have hc := h.closed hw
    obtain ⟨o', ho', -, hcont, -⟩ := hc.open
    rw [ho'] at ho
    injection ho with ho
    subst ho
    refine .inr ⟨rfl, ?_, hc.pending, hc.room⟩
    cases truncated with
    | true => exact ⟨[], by rw [List.append_nil]; exact hcont, noRecord_nil _⟩
    | false => exact hc.contents

theorem Refines.run {s₀ : WalSystem} {es : List WalEvent} (h : s₀.Refines v) (hr : Run Step s₀ es s) :
    s.Refines (v.after es) := by
  apply hr.invariant (I := fun es s => s.Refines (v.after es)) h
  intro es s e s' _ hi hs
  rw [WalView.after_snoc]
  exact hi.step hs

/-- What every open of the file returns, at any point of any run of sessions. -/
theorem sessions_refine_record_list {es : List WalEvent} (hr : Run Step created es s) :
    (s.handle = none → ∃ o, Wal.open s.contents = .ok o ∧
      o.records = decodedAll (WalView.after ⟨0, [], []⟩ es).kept (WalView.after ⟨0, [], []⟩ es).first ∧
      o.contents = (WalView.after ⟨0, [], []⟩ es).bytes ∧
      o.wal = ⟨o.contents.length, [], (WalView.after ⟨0, [], []⟩ es).next, false⟩) ∧
    (∀ w, s.handle = some w → s.contents = (WalView.after ⟨0, [], []⟩ es).bytes ∧
      w.durableLen = s.contents.length ∧
      w.pending = encodeAll (WalView.after ⟨0, [], []⟩ es).pending (WalView.after ⟨0, [], []⟩ es).next ∧
      w.poisoned = false) := by
  have h := Refines.run (.inl created_holds) hr
  constructor
  · intro hw
    obtain ⟨o, ho, hrec, hcont, hwal⟩ := (h.closed hw).open
    refine ⟨o, ho, hrec, hcont, ?_⟩
    rw [hwal, hcont]
  · intro w hw
    have hh := h.holds hw
    rw [hh.handle, Option.some.injEq] at hw
    subst hw
    exact ⟨hh.contents, by rw [hh.contents], rfl, rfl⟩

theorem sessions_refine_record_list_torn : ∃ s o,
    Run Step created [.append (.commit 1), .append (.commit 2), .tear 30] s ∧ s.handle = none ∧
      Wal.open s.contents = .ok o ∧ o.records = decodedAll [.commit 1] 0 := by
  have hfit : ∀ a b : Bytes, (a.take walHeaderSize ++ b.take 30).length ≤ maxFileSize := by
    intro a b
    have ha := List.length_take_le walHeaderSize a
    have hb := List.length_take_le 30 b
    rw [walHeaderSize] at ha ⊢
    rw [List.length_append, maxFileSize]
    omega
  have h1 : Run Step created [.append (.commit 1)] _ := .step .start (.append rfl rfl)
  have h2 : Run Step created [.append (.commit 1), .append (.commit 2)] _ := .step h1 (.append rfl rfl)
  have h3 : Run Step created [.append (.commit 1), .append (.commit 2), .tear 30] _ :=
    .step h2 (.tear 30 rfl rfl (hfit _ _))
  obtain ⟨o, ho, hrec, -⟩ := (sessions_refine_record_list h3).1 rfl
  exact ⟨_, o, h3, rfl, ho, hrec⟩

end WalSystem

def appendedRecords (es : List WalEvent) : List WalRecord :=
  es.filterMap (fun
    | .append r => some r
    | _ => none)

theorem wholeRecords_sublist (k : ℕ) (rs : List WalRecord) : (wholeRecords k rs).Sublist rs := by
  induction rs generalizing k with
  | nil => exact List.Sublist.refl _
  | cons r rs ih =>
    rw [wholeRecords]
    split
    · exact (ih _).cons_cons r
    · exact List.nil_sublist _

theorem WalView.kept_sublist (first : UInt64) (es : List WalEvent) :
    ((WalView.after ⟨first, [], []⟩ es).kept ++ (WalView.after ⟨first, [], []⟩ es).pending).Sublist
      (appendedRecords es) := by
  induction es using List.reverseRecOn with
  | nil => exact List.Sublist.refl _
  | append_singleton es e ih =>
    rw [WalView.after_snoc, appendedRecords, List.filterMap_append]
    change List.Sublist _ (appendedRecords es ++ _)
    have hkept := (List.sublist_append_left _ _).trans ih
    generalize WalView.after ⟨first, [], []⟩ es = v at ih hkept
    cases e with
    | append r =>
      change (v.kept ++ (v.pending ++ [r])).Sublist (appendedRecords es ++ [r])
      rw [← List.append_assoc]
      exact ih.append (List.Sublist.refl _)
    | flush =>
      change (v.kept ++ v.pending ++ []).Sublist (appendedRecords es ++ [])
      exact ih.append (List.Sublist.refl _)
    | reset => exact List.nil_sublist _
    | close =>
      change (v.kept ++ []).Sublist (appendedRecords es ++ [])
      exact hkept.append (List.Sublist.refl _)
    | tear k =>
      change (v.kept ++ wholeRecords k v.pending ++ []).Sublist (appendedRecords es ++ [])
      apply List.Sublist.append _ (List.Sublist.refl _)
      exact ((List.Sublist.refl _).append (wholeRecords_sublist _ _)).trans ih
    | resetCrash t w =>
      change ((if t ∨ w then [] else v.kept) ++ []).Sublist (appendedRecords es ++ [])
      apply List.Sublist.append _ (List.Sublist.refl _)
      split
      · exact List.nil_sublist _
      · exact hkept
    | «open» _ _ =>
      change (v.kept ++ v.pending).Sublist (appendedRecords es ++ [])
      rwa [List.append_nil]
    | openCrash =>
      change (v.kept ++ v.pending).Sublist (appendedRecords es ++ [])
      rwa [List.append_nil]

namespace WalSystem

variable {s s' : WalSystem}

/-- A crash inside `reset` keeps every record of the log or none, and in the second case no later
open returns a record that was not appended since. -/
theorem reset_crash_keeps_all_or_none {first : UInt64} {rs : List WalRecord} {truncated written : Bool}
    (hs : s.Holds ⟨first, rs, []⟩) (hc : Step s (.resetCrash truncated written) s') :
    ∃ o, Wal.open s'.contents = .ok o ∧
      (o.records = decodedAll rs first ∧ truncated = false ∧ written = false ∨ o.records = []) ∧
      (o.records = [] → ∀ es s'', Run Step s' es s'' → s''.handle = none →
        ∃ o', Wal.open s''.contents = .ok o' ∧
          (o'.records.map (·.record)).Sublist (appendedRecords es)) := by
  have h' : s'.Refines (WalView.record ⟨first, rs, []⟩ (.resetCrash truncated written)) :=
    Refines.step (.inl hs) hc
  have hnone : s'.handle = none := by
    cases hc
    rfl
  obtain ⟨o, ho, hrec, -⟩ := (h'.closed hnone).open
  refine ⟨o, ho, ?_, ?_⟩
  · rw [hrec]
    by_cases ht : truncated = true ∨ written = true
    · right
      simp [WalView.record, ht, decodedAll]
    · left
      rw [not_or, Bool.not_eq_true, Bool.not_eq_true] at ht
      simp [WalView.record, ht.1, ht.2]
  · intro hempty es s'' hr hclosed
    have hkept : (WalView.record ⟨first, rs, []⟩ (.resetCrash truncated written)).kept = [] := by
      rw [hempty] at hrec
      cases hk : (WalView.record ⟨first, rs, []⟩ (.resetCrash truncated written)).kept with
      | nil => rfl
      | cons r rs' => rw [hk] at hrec; cases hrec
    have hview : WalView.record ⟨first, rs, []⟩ (.resetCrash truncated written) =
        ⟨if written then WalView.next ⟨first, rs, []⟩ else first, [], []⟩ := by
      simp only [WalView.record] at hkept ⊢
      rw [hkept]
    rw [hview] at h'
    obtain ⟨o', ho', hrec', -⟩ := ((h'.run hr).closed hclosed).open
    refine ⟨o', ho', ?_⟩
    rw [hrec', decodedAll_record]
    exact (List.sublist_append_left _ _).trans (WalView.kept_sublist _ es)

theorem reset_crash_keeps_all_or_none_header : ∃ s s',
    s.Holds ⟨0, [.commit 1], []⟩ ∧ Step s (.resetCrash false true) s' ∧
      ∃ o, Wal.open s'.contents = .ok o ∧
        (o.records = decodedAll [.commit 1] 0 ∧ false = false ∧ true = false ∨ o.records = []) ∧
        (o.records = [] → ∀ es s'', Run Step s' es s'' → s''.handle = none →
          ∃ o', Wal.open s''.contents = .ok o' ∧
            (o'.records.map (·.record)).Sublist (appendedRecords es)) := by
  have hs : WalSystem.Holds ⟨WalView.bytes ⟨0, [.commit 1], []⟩,
      some ⟨(WalView.bytes ⟨0, [.commit 1], []⟩).length, [], 1, false⟩⟩ ⟨0, [.commit 1], []⟩ := by
    refine ⟨rfl, rfl, ?_⟩
    rw [WalView.bytes, List.length_append, encodeHeader_length, encodeAll_length]
    decide
  exact ⟨_, _, hs, .resetCrash false true rfl rfl,
    reset_crash_keeps_all_or_none hs (.resetCrash false true rfl rfl)⟩

end WalSystem

end OxenDB
