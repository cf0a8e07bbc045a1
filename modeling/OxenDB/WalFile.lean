import OxenDB.Wal

/-!
The log file as the operating system keeps it: its contents as later calls see them, and what
was written since the last fsync that returned.
-/

namespace OxenDB

open Lib

inductive WalUnsynced
  | none
  | batch (off : ℕ) (bytes : Bytes)
  | reset (old header : Bytes) (truncated written : Bool)

structure WalFile where
  contents : Bytes
  unsynced : WalUnsynced

/-- What a crash leaves of a batch of records: the first of them that does not survive as it was
written leaves bytes that are no valid record of its sequence number. -/
inductive TornBatch : Bytes → Bytes → Prop
  | whole : TornBatch [] []
  | torn {batch left : Bytes} {d : DecodedRecord} :
      WalRecord.decode batch = .ok d → NoRecord left d.seq → TornBatch batch left
  | keep {batch left : Bytes} {d : DecodedRecord} :
      WalRecord.decode batch = .ok d → TornBatch (batch.drop d.len) left →
        TornBatch batch (batch.take d.len ++ left)

/-- The contents a crash may leave. Truncation and the header write of a reset are each
all-or-nothing and reach the disk in either order. -/
def WalFile.Survives (w : WalFile) (left : Bytes) : Prop :=
  left.length ≤ maxFileSize ∧
  match w.unsynced with
  | .none => left = w.contents
  | .batch off bytes => ∃ tail, TornBatch bytes tail ∧ left = w.contents.take off ++ tail
  | .reset old header truncated written =>
    ∃ t h : Bool, (t = true → truncated = true) ∧ (h = true → written = true) ∧
      left = (if h then header else old.take walHeaderSize) ++ (if t then [] else old.drop walHeaderSize)

theorem encodeAll_decode {rs : List WalRecord} {seq : UInt64} {d : DecodedRecord}
    (h : WalRecord.decode (encodeAll rs seq) = .ok d) :
    ∃ r rs', rs = r :: rs' ∧ d = ⟨seq, r, r.len⟩ ∧
      (encodeAll rs seq).take d.len = r.encode seq [] ∧
      (encodeAll rs seq).drop d.len = encodeAll rs' (seq + 1) := by
  cases rs with
  | nil => exact absurd rfl (noRecord_nil _ d h)
  | cons r rs' =>
    rw [encodeAll, WalRecord.decode_encode] at h
    injection h with h
    subst h
    refine ⟨r, rs', rfl, rfl, ?_, ?_⟩
    · rw [encodeAll, ← r.encode_length seq, List.take_left]
    · rw [encodeAll, ← r.encode_length seq, List.drop_left]

theorem encodeAll_length_ge (rs : List WalRecord) (seq : UInt64) :
    rs.length ≤ (encodeAll rs seq).length := by
  induction rs generalizing seq with
  | nil => exact Nat.zero_le _
  | cons r rs ih =>
    have hr := r.len_pos
    have hrs := ih (seq + 1)
    rw [encodeAll, List.length_append, r.encode_length, List.length_cons]
    omega

theorem noRecord_stale {rs : List WalRecord} {seq : UInt64} (h : rs.length < 2 ^ 64) :
    NoRecord (encodeAll rs seq) (seq + UInt64.ofNat rs.length) := by
  intro d hd he
  obtain ⟨r, rs', rfl, rfl, -⟩ := encodeAll_decode hd
  have he' : seq + 0 = seq + UInt64.ofNat (r :: rs').length := by
    rw [UInt64.add_zero]
    exact he
  have hz := (UInt64.add_right_inj seq).mp he'
  rw [← UInt64.toNat_inj, UInt64.toNat_ofNat', List.length_cons] at hz
  rw [List.length_cons] at h
  change 0 = _ at hz
  omega

theorem TornBatch.records {batch left : Bytes} (h : TornBatch batch left) :
    ∀ (rs : List WalRecord) (seq : UInt64), batch = encodeAll rs seq →
      ∃ j ≤ rs.length, ∃ bs, left = encodeAll (rs.take j) seq ++ bs ∧
        NoRecord bs (seq + UInt64.ofNat j) := by
  induction h with
  | whole =>
    intro rs seq hb
    exact ⟨0, by omega, [], by simp [encodeAll], noRecord_nil _⟩
  | @torn batch left d hd hn =>
    intro rs seq hb
    subst hb
    obtain ⟨r, rs', rfl, rfl, -, -⟩ := encodeAll_decode hd
    exact ⟨0, by omega, left, by simp [encodeAll], by simpa using hn⟩
  | @keep batch left d hd _ ih =>
    intro rs seq hb
    subst hb
    obtain ⟨r, rs', rfl, rfl, htake, hdrop⟩ := encodeAll_decode hd
    obtain ⟨j, hj, bs, hbs, hno⟩ := ih rs' (seq + 1) hdrop
    refine ⟨j + 1, by simpa using hj, bs, ?_, by rwa [← ofNat_succ_add]⟩
    rw [htake, hbs, List.take_succ_cons, encodeAll, List.append_assoc]

theorem TornBatch.take (rs : List WalRecord) (seq : UInt64) (k : ℕ) :
    TornBatch (encodeAll rs seq) ((encodeAll rs seq).take k) := by
  induction rs generalizing seq k with
  | nil =>
    rw [encodeAll, List.take_nil]
    exact .whole
  | cons r rs ih =>
    have hlen := r.encode_length seq
    have hd := r.decode_encode seq (encodeAll rs (seq + 1))
    rw [encodeAll]
    by_cases hk : r.len ≤ k
    · have htail : TornBatch ((r.encode seq [] ++ encodeAll rs (seq + 1)).drop r.len)
          ((encodeAll rs (seq + 1)).take (k - r.len)) := by
        rw [← hlen, List.drop_left, hlen]
        exact ih _ _
      have hkeep := TornBatch.keep hd htail
      dsimp only at hkeep
      rw [← hlen, List.take_left, hlen] at hkeep
      rwa [List.take_append, hlen, List.take_of_length_le (by omega)]
    · refine .torn hd (fun d hd' => ?_)
      rw [List.take_append_of_le_length (by omega), r.decode_take seq k (by omega)] at hd'
      cases hd'

end OxenDB
