import OxenDB.Lib.BitErrors
import OxenDB.ChecksumPaths
import OxenDB.FileHeader
import OxenDB.WalRecord

namespace OxenDB

open Lib

theorem bits_length (f : Bytes) : (f.flatMap bitsOf).length = 8 * f.length := by
  induction f with
  | nil => rfl
  | cons b f ih =>
    rw [List.flatMap_cons, List.length_append, ih, bitsOf, List.length_map, List.length_range, List.length_cons]
    omega

theorem bitsOf_flip (e : ℕ → Bool) (b : UInt8) :
    bitsOf (b ^^^ UInt8.ofBitVec (BitVec.ofFnLE fun j : Fin 8 => e j)) =
      List.zipWith xor (bitsOf b) (pattern e 8) := by
  rw [bitsOf, bitsOf, pattern, List.zipWith_map, List.zipWith_self]
  apply List.map_congr_left
  intro j hj
  exact testBit_flipByte e b j (List.mem_range.mp hj)

theorem bits_flip (e : ℕ → Bool) (f : Bytes) :
    (flipBits e f).flatMap bitsOf = List.zipWith xor (f.flatMap bitsOf) (pattern e (8 * f.length)) := by
  induction f generalizing e with
  | nil => rfl
  | cons b f ih =>
    have hlen : (bitsOf b).length = (pattern e 8).length := by simp [bitsOf]
    rw [flipBits_cons, List.flatMap_cons, List.flatMap_cons, ih, bitsOf_flip, List.length_cons,
      show 8 * (f.length + 1) = 8 + 8 * f.length by ring, pattern_add, List.zipWith_append hlen]

theorem crc32c_toBitVec (f : Bytes) :
    (crc32c f).toBitVec = ~~~crcBits poly.toBitVec (BitVec.allOnes 32) (f.flatMap bitsOf) := by
  have hnew : Crc32c.new.state.toBitVec = BitVec.allOnes 32 := by decide
  rw [crc32c, Crc32c.finalize, Crc32c.update, updateSlice8_eq, UInt32.toBitVec_not, bitSerial_toBitVec, hnew]

theorem crc32c_flip (e : ℕ → Bool) (f : Bytes) :
    (crc32c (flipBits e f)).toBitVec =
      (crc32c f).toBitVec ^^^ crcBits poly.toBitVec 0#32 (pattern e (8 * f.length)) := by
  have hlin := crcBits_xor poly.toBitVec (BitVec.allOnes 32) 0#32 (f.flatMap bitsOf)
    (pattern e (8 * f.length)) (by rw [bits_length, pattern_length])
  rw [BitVec.xor_zero] at hlin
  rw [crc32c_toBitVec, crc32c_toBitVec, bits_flip, hlin, BitVec.not_xor_left]

theorem leValue_testBit (f : Bytes) (i : ℕ) : (leValue f).testBit i = (f.flatMap bitsOf).getD i false := by
  induction f generalizing i with
  | nil => simp [leValue]
  | cons b f ih =>
    have hlen : (bitsOf b).length = 8 := by simp [bitsOf]
    rw [leValue, Nat.add_comm, show (256 : ℕ) = 2 ^ 8 from rfl,
      Nat.testBit_two_pow_mul_add _ b.toNat_lt, List.flatMap_cons, List.getD_eq_getElem?_getD]
    by_cases hi : i < 8
    · rw [if_pos hi, List.getElem?_append_left (by omega)]
      simp [bitsOf, hi]
    · rw [if_neg hi, ih, List.getElem?_append_right (by omega), hlen, List.getD_eq_getElem?_getD]

theorem u32At_toBitVec (f : Bytes) (h : 4 ≤ f.length) :
    (u32At f 0).toBitVec = ofBits 32 ((f.take 4).flatMap bitsOf) := by
  have hs : slice f 0 4 = f.take 4 := by rw [slice_eq_take_drop f 0 4 (by omega), List.drop_zero]
  apply BitVec.eq_of_getLsbD_eq
  intro i hi
  rw [getLsbD_ofBits _ _ hi, ← leValue_testBit, u32At, hs, UInt32.toBitVec_ofNat', BitVec.getLsbD_ofNat,
    decide_eq_true hi, Bool.true_and]

theorem u32At_flip (e : ℕ → Bool) (f : Bytes) (h : 4 ≤ f.length) :
    (u32At (flipBits e f) 0).toBitVec = (u32At f 0).toBitVec ^^^ ofBits 32 (pattern e 32) := by
  have hlen : 8 * (f.take 4).length = 32 := by simp; omega
  rw [u32At_toBitVec _ (by simpa using h), u32At_toBitVec _ h, flipBits_take, bits_flip, hlen,
    ofBits_xor _ _ (by rw [bits_length, hlen, pattern_length])]

def Sealed (f : Bytes) : Prop := u32At f 0 = crc32c (f.drop 4)

theorem sealed_flip_iff {f : Bytes} (hl : 4 ≤ f.length) (hs : Sealed f) (e : ℕ → Bool) :
    Sealed (flipBits e f) ↔ ofBits 32 (pattern e 32) =
      crcBits poly.toBitVec 0#32 (pattern (fun k => e (32 + k)) (8 * (f.length - 4))) := by
  rw [Sealed, ← UInt32.toBitVec_inj, flipBits_drop, crc32c_flip, u32At_flip e f hl, hs, List.length_drop,
    BitVec.xor_right_inj]

theorem odd_seen {f : Bytes} (hl : 4 ≤ f.length) (hs : Sealed f) {e : ℕ → Bool}
    (ho : Odd (weight e (8 * f.length))) : ¬ Sealed (flipBits e f) := by
  intro hf
  have hp : parity poly.toBitVec = 1 := by decide
  have heq := congrArg parity ((sealed_flip_iff hl hs e).mp hf)
  rw [parity_ofBits_pattern, crcBits_pattern_parity _ hp] at heq
  have hsum := congrArg (Nat.cast (R := ZMod 2)) (weight_add e 32 (8 * (f.length - 4)))
  rw [Nat.cast_add, ← heq, CharTwo.add_self_eq_zero, show 32 + 8 * (f.length - 4) = 8 * f.length by omega] at hsum
  exact Nat.not_even_iff_odd.mpr ho ((ZMod.natCast_eq_zero_iff_even).mp hsum)

theorem burst_seen {f : Bytes} (hl : 4 ≤ f.length) (hs : Sealed f) {e : ℕ → Bool} {i k : ℕ}
    (hlow : ∀ k < 32, e k = false) (hin : ∀ k, e k = true → i ≤ k ∧ k < i + 32)
    (hk : k < 8 * f.length) (he : e k = true) : ¬ Sealed (flipBits e f) := by
  intro hf
  have htop : poly.toBitVec.getLsbD (32 - 1) = true := by decide
  have hzero : ofBits 32 (pattern e 32) = 0#32 := by
    rw [pattern_false hlow]
    decide
  rw [sealed_flip_iff hl hs, hzero] at hf
  have hge : 32 ≤ k := by
    by_contra hlt
    rw [hlow k (by omega)] at he
    cases he
  have hnone := crcBits_burst _ htop _ _ (i - 32)
    (fun j hj => by have := hin (32 + j) hj; omega) hf.symm (k - 32) (by omega)
  rw [show 32 + (k - 32) = k by omega, he] at hnone
  cases hnone

theorem not_mem_below {E : Finset ℕ} {n : ℕ} (h : ∀ k ∈ E, n ≤ k) : ∀ k < n, decide (k ∈ E) = false := by
  intro k hk
  rw [decide_eq_false_iff_not]
  intro hm
  exact absurd (h k hm) (not_le.mpr hk)

def Burst (E : Finset ℕ) : Prop := E.Nonempty ∧ ∃ i, ∀ k ∈ E, i ≤ k ∧ k < i + 32

theorem flip_seen {f : Bytes} (hl : 4 ≤ f.length) (hs : Sealed f) {E : Finset ℕ}
    (hE : ∀ k ∈ E, k < 8 * f.length) (h : Odd E.card ∨ (∀ k ∈ E, 32 ≤ k) ∧ Burst E) :
    ¬ Sealed (flipBits (· ∈ E) f) := by
  rcases h with ho | ⟨hge, ⟨k, hk⟩, i, hi⟩
  · apply odd_seen hl hs
    rwa [weight_finset E _ hE]
  · exact burst_seen hl hs (not_mem_below hge) (fun k hk => hi k (of_decide_eq_true hk)) (hE k hk) (decide_eq_true hk)

def Page.flip (p : Page) (E : Finset ℕ) : Page :=
  ⟨flipBits (· ∈ E) p.data, by rw [flipBits_length, p.size]⟩

theorem Page.verify_sealed {p : Page} {id : PageId} {h : PageHeader} (hv : p.verify id = .ok h) :
    Sealed p.data := by
  simp only [Page.verify] at hv
  split_ifs at hv with hc
  exact not_not.mp hc

theorem FileHeader.decode_sealed {p : Page} {h : FileHeader} (hd : FileHeader.decode p = .ok h) :
    Sealed p.data := by
  simp only [FileHeader.decode] at hd
  split_ifs at hd with hm hc
  exact not_not.mp hc

theorem error_of_not_ok {ε α : Type} {x : Except ε α} (h : ∀ a, x ≠ .ok a) : ∃ e, x = .error e := by
  cases x with
  | error e => exact ⟨e, rfl⟩
  | ok a => exact absurd rfl (h a)

theorem Page.flip_detected (p : Page) (E : Finset ℕ) (hE : ∀ k ∈ E, k < 8 * pageSize)
    (h : Odd E.card ∨ (∀ k ∈ E, 32 ≤ k) ∧ Burst E) :
    (∀ id header, p.verify id = .ok header → ∃ e, (p.flip E).verify id = .error e) ∧
      ∀ header, FileHeader.decode p = .ok header → ∃ e, FileHeader.decode (p.flip E) = .error e := by
  have hl : 4 ≤ p.data.length := by rw [p.size]; decide
  rw [← p.size] at hE
  refine ⟨?_, ?_⟩
  · intro id header hv
    apply error_of_not_ok
    intro header' hv'
    exact flip_seen hl (Page.verify_sealed hv) hE h (Page.verify_sealed hv')
  · intro header hd
    apply error_of_not_ok
    intro header' hd'
    exact flip_seen hl (FileHeader.decode_sealed hd) hE h (FileHeader.decode_sealed hd')

theorem Page.flip_detected_first :
    (∃ e, ((Page.new 1 .heap).seal.flip {0}).verify 1 = .error e) ∧
      ∃ e, FileHeader.decode (FileHeader.new.encode.flip {32, 63}) = .error e := by
  refine ⟨?_, ?_⟩
  · obtain ⟨header, hv⟩ := Page.new_valid 1 .heap
    exact (Page.flip_detected _ {0} (by decide) (.inl (by decide))).1 1 header hv
  · have hb : Burst {32, 63} := ⟨by decide, 32, by decide⟩
    exact (Page.flip_detected _ {32, 63} (by decide) (.inr ⟨by decide, hb⟩)).2 _
      (FileHeader.decode_encode _ (by decide))

namespace WalRecord

theorem encode_sealed (r : WalRecord) (seq : UInt64) : Sealed ((r.encode seq []).drop 4) := by
  have hdrop : (r.encode seq []).drop 4 = leBytes 4 (crc32c (r.tail seq)).toNat ++ r.tail seq := by
    rw [encode_eq, List.nil_append, List.append_assoc]
    exact List.drop_left' (leBytes_length 4 _)
  rw [Sealed, hdrop, u32At_leBytes, List.drop_left' (leBytes_length 4 _)]

theorem decode_illegal {buf : Bytes} (hl : 4 ≤ buf.length)
    (h : (u32At buf 0).toNat ≠ pageImageLen ∧ (u32At buf 0).toNat ≠ commitLen) :
    ∃ reason, decode buf = .error (.invalid reason) := by
  rw [decode, if_neg (not_lt.mpr hl)]
  exact ⟨_, if_pos h⟩

theorem decode_unsealed {buf : Bytes} {len : ℕ} (h4 : 4 ≤ len) (hl : len ≤ buf.length)
    (hlen : (u32At buf 0).toNat = len) (h : ¬ Sealed ((buf.take len).drop 4)) :
    ∃ reason, decode buf = .error (.invalid reason) := by
  by_cases hlegal : (u32At buf 0).toNat ≠ pageImageLen ∧ (u32At buf 0).toNat ≠ commitLen
  · exact decode_illegal (h4.trans hl) hlegal
  · have hne : u32At (buf.take len) 4 ≠ crc32c ((buf.take len).drop 8) := by
      intro he
      apply h
      rw [Sealed, List.drop_drop, u32At, slice_drop]
      exact he
    rw [hlen] at hlegal
    simp only [decode, if_neg (not_lt.mpr (h4.trans hl)), hlen, if_neg hlegal, if_neg (not_lt.mpr hl)]
    rw [if_pos hne]
    exact ⟨_, rfl⟩

theorem len_distance {a b : BitVec 32} (ha : a.toNat = pageImageLen ∨ a.toNat = commitLen)
    (hb : b.toNat = pageImageLen ∨ b.toNat = commitLen) :
    weight (a ^^^ b).getLsbD 32 = 0 ∨ weight (a ^^^ b).getLsbD 32 = 4 := by
  have hval : ∀ x : BitVec 32, x.toNat = pageImageLen ∨ x.toNat = commitLen → x = 4129#32 ∨ x = 25#32 := by
    intro x hx
    exact hx.imp (fun h => BitVec.eq_of_toNat_eq h) (fun h => BitVec.eq_of_toNat_eq h)
  rcases hval a ha with rfl | rfl <;> rcases hval b hb with rfl | rfl
  · left; decide
  · right; decide
  · right; decide
  · left; decide

theorem u32At_append (a b : Bytes) (h : 4 ≤ a.length) : u32At (a ++ b) 0 = u32At a 0 := by
  rw [u32At, u32At, slice_append_left a b 0 4 (by omega)]

theorem encode_u32At (r : WalRecord) (seq : UInt64) : (u32At (r.encode seq []) 0).toNat = r.len := by
  have h := r.encode_take_len seq r.len r.four_le_len
  rwa [← r.encode_length seq, List.take_length, r.encode_length seq] at h

theorem flip_u32At (r : WalRecord) (seq : UInt64) (rest : Bytes) (e : ℕ → Bool) :
    (u32At (flipBits e (r.encode seq []) ++ rest) 0).toBitVec =
      (u32At (r.encode seq []) 0).toBitVec ^^^ ofBits 32 (pattern e 32) := by
  have h4 := r.four_le_len
  rw [← r.encode_length seq] at h4
  rw [u32At_append _ _ (by rwa [flipBits_length]), u32At_flip e _ h4]

theorem flip_len (r : WalRecord) (seq : UInt64) (rest : Bytes) {E : Finset ℕ} (hE : ∀ k ∈ E, k < 32)
    (h1 : 1 ≤ E.card) (h3 : E.card ≤ 3) :
    ∃ reason, decode (flipBits (· ∈ E) (r.encode seq []) ++ rest) = .error (.invalid reason) := by
  have h4 := r.four_le_len
  rw [← r.encode_length seq] at h4
  apply decode_illegal (by rw [List.length_append, flipBits_length]; omega)
  have hx := r.flip_u32At seq rest (· ∈ E)
  have hold := r.len_cases
  rw [← r.encode_u32At seq] at hold
  have hcard := weight_finset E 32 hE
  rw [← weight_ofBits_pattern] at hcard
  rw [← not_or]
  intro hnew
  have hdist := len_distance hold hnew
  rw [hx, ← BitVec.xor_assoc, BitVec.xor_self, BitVec.zero_xor, hcard] at hdist
  omega

theorem flip_rest (r : WalRecord) (seq : UInt64) (rest : Bytes) {E : Finset ℕ}
    (hE : ∀ k ∈ E, 32 ≤ k ∧ k < 8 * r.len) (h : Odd E.card ∨ (∀ k ∈ E, 64 ≤ k) ∧ Burst E) :
    ∃ reason, decode (flipBits (· ∈ E) (r.encode seq []) ++ rest) = .error (.invalid reason) := by
  have h4 := r.four_le_len
  have hlow := not_mem_below (fun k hk => (hE k hk).1)
  have hlen : (u32At (flipBits (· ∈ E) (r.encode seq []) ++ rest) 0).toNat = r.len := by
    have hx := r.flip_u32At seq rest (· ∈ E)
    rw [pattern_false hlow, show ofBits 32 (List.replicate 32 false) = 0#32 by decide, BitVec.xor_zero,
      UInt32.toBitVec_inj] at hx
    rw [hx, encode_u32At]
  have htake : (flipBits (· ∈ E) (r.encode seq []) ++ rest).take r.len = flipBits (· ∈ E) (r.encode seq []) := by
    rw [← r.encode_length seq, ← flipBits_length (· ∈ E), List.take_left]
  apply decode_unsealed h4 (by rw [List.length_append, flipBits_length, encode_length]; omega) hlen
  rw [htake, flipBits_drop]
  have hl : ((r.encode seq []).drop 4).length = r.len - 4 := by rw [List.length_drop, encode_length]
  have htail : 4 ≤ r.len - 4 := by rcases r.len_cases with h | h <;> rw [h] <;> decide
  rcases h with ho | ⟨hge, ⟨k, hk⟩, i, hi⟩
  · have hw := weight_add (· ∈ E) 32 (8 * (r.len - 4))
    rw [weight_false hlow, show 32 + 8 * (r.len - 4) = 8 * r.len by omega,
      weight_finset E _ (fun k hk => (hE k hk).2), Nat.zero_add] at hw
    apply odd_seen (by rwa [hl]) (r.encode_sealed seq)
    rw [hl]
    rwa [hw] at ho
  · have hpos := hE k hk
    refine burst_seen (i := i - 32) (k := k - 32) (by rwa [hl]) (r.encode_sealed seq) ?_ ?_ (by omega) ?_
    · intro j hj
      exact not_mem_below hge (8 * 4 + j) (by omega)
    · intro j hj
      have := hi _ (of_decide_eq_true hj)
      omega
    · rw [show 8 * 4 + (k - 32) = k by omega]
      exact decide_eq_true hk

theorem flip_invalid (r : WalRecord) (seq : UInt64) (rest : Bytes) (E : Finset ℕ)
    (h : ((∀ k ∈ E, k < 32) ∧ 1 ≤ E.card ∧ E.card ≤ 3) ∨
      ((∀ k ∈ E, 32 ≤ k ∧ k < 8 * (r.encode seq []).length) ∧ Odd E.card) ∨
      ((∀ k ∈ E, 64 ≤ k ∧ k < 8 * (r.encode seq []).length) ∧ Burst E)) :
    ∃ reason, decode (flipBits (· ∈ E) (r.encode seq []) ++ rest) = .error (.invalid reason) := by
  rw [r.encode_length] at h
  rcases h with ⟨hE, h1, h3⟩ | ⟨hE, ho⟩ | ⟨hE, hb⟩
  · exact r.flip_len seq rest hE h1 h3
  · exact r.flip_rest seq rest hE (.inl ho)
  · have hlow : ∀ k ∈ E, 32 ≤ k ∧ k < 8 * r.len := by
      intro k hk
      have := hE k hk
      omega
    exact r.flip_rest seq rest hlow (.inr ⟨fun k hk => (hE k hk).1, hb⟩)

theorem flip_invalid_commit :
    ∃ reason, decode (flipBits (· ∈ ({64, 95} : Finset ℕ)) ((commit 1).encode 1 []) ++ [0]) =
      .error (.invalid reason) := by
  have hb : Burst {64, 95} := ⟨by decide, 64, by decide⟩
  have hE : ∀ k ∈ ({64, 95} : Finset ℕ), 64 ≤ k ∧ k < 8 * ((commit 1).encode 1 []).length := by
    rw [encode_length]
    decide
  exact flip_invalid (commit 1) 1 [0] {64, 95} (.inr (.inr ⟨hE, hb⟩))

end WalRecord

end OxenDB
