import OxenDB.Page

namespace OxenDB

open Lib

def recordHeaderSize : ℕ := 25
def pageImageLen : ℕ := recordHeaderSize + 8 + pageSize
def commitLen : ℕ := recordHeaderSize

def typePageImage : UInt8 := 1
def typeCommit : UInt8 := 2

abbrev TxnId := UInt64

inductive WalRecord
  | pageImage (txn : TxnId) (pageId : PageId) (page : Page)
  | commit (txn : TxnId)
  deriving DecidableEq

structure DecodedRecord where
  seq : UInt64
  record : WalRecord
  len : ℕ
  deriving DecidableEq

inductive DecodeError
  | incomplete
  | invalid (reason : String)
  deriving DecidableEq, Repr

namespace WalRecord

def txn : WalRecord → TxnId
  | .pageImage txn _ _ => txn
  | .commit txn => txn

def len : WalRecord → ℕ
  | .pageImage .. => pageImageLen
  | .commit _ => commitLen

def code : WalRecord → UInt8
  | .pageImage .. => typePageImage
  | .commit _ => typeCommit

def payload : WalRecord → Bytes
  | .pageImage _ pageId page => leBytes 8 pageId.toNat ++ page.data
  | .commit _ => []

def encode (r : WalRecord) (seq : UInt64) (out : Bytes) : Bytes :=
  let start := out.length
  let buf := out ++ leBytes 4 r.len ++ [0, 0, 0, 0] ++ leBytes 8 seq.toNat ++ [r.code] ++
    leBytes 8 r.txn.toNat ++ r.payload
  let checksum := crc32c (buf.drop (start + 8))
  writeAt buf (start + 4) (leBytes 4 checksum.toNat)

def decode (buf : Bytes) : Except DecodeError DecodedRecord :=
  if buf.length < 4 then .error .incomplete
  else
    let len := (u32At buf 0).toNat
    if len ≠ pageImageLen ∧ len ≠ commitLen then .error (.invalid s!"impossible record length {len}")
    else if buf.length < len then .error .incomplete
    else
      let bytes := buf.take len
      let stored := u32At bytes 4
      let actual := crc32c (bytes.drop 8)
      if stored ≠ actual then
        .error (.invalid s!"checksum mismatch (stored {hex32 stored}, computed {hex32 actual})")
      else
        let seq := u64At bytes 8
        let txn := u64At bytes 17
        let ty := bytes.getD 16 0
        if ty = typePageImage ∧ len = pageImageLen then
          let pageId := u64At bytes recordHeaderSize
          let page := Page.zeroed.patch 0 (slice bytes (recordHeaderSize + 8) pageSize)
            (by rw [slice_length, Nat.zero_add])
          .ok ⟨seq, .pageImage txn pageId page, len⟩
        else if ty = typeCommit ∧ len = commitLen then .ok ⟨seq, .commit txn, len⟩
        else .error (.invalid s!"record type {ty} with length {len}")

def tail (r : WalRecord) (seq : UInt64) : Bytes :=
  leBytes 8 seq.toNat ++ [r.code] ++ leBytes 8 r.txn.toNat ++ r.payload

theorem tail_length (r : WalRecord) (seq : UInt64) : (r.tail seq).length + 8 = r.len := by
  cases r <;> simp [tail, payload, len, pageImageLen, commitLen, recordHeaderSize, Page.size]
  omega

theorem encode_eq (r : WalRecord) (seq : UInt64) (out : Bytes) :
    r.encode seq out =
      out ++ (leBytes 4 r.len ++ leBytes 4 (crc32c (r.tail seq)).toNat ++ r.tail seq) := by
  have hbuf : out ++ leBytes 4 r.len ++ [0, 0, 0, 0] ++ leBytes 8 seq.toNat ++ [r.code] ++
      leBytes 8 r.txn.toNat ++ r.payload = out ++ leBytes 4 r.len ++ [0, 0, 0, 0] ++ r.tail seq := by
    simp [tail]
  have hdrop : (out ++ leBytes 4 r.len ++ [0, 0, 0, 0] ++ r.tail seq).drop (out.length + 8) =
      r.tail seq := by
    rw [List.drop_append_of_le_length (by simp), List.drop_of_length_le (by simp), List.nil_append]
  have hne : (leBytes 4 (crc32c (r.tail seq)).toNat).isEmpty = false := by simp [leBytes]
  have htake : (out ++ leBytes 4 r.len ++ [0, 0, 0, 0] ++ r.tail seq).take (out.length + 4) =
      out ++ leBytes 4 r.len := by
    rw [List.append_assoc, List.take_append_of_le_length (by simp), List.take_of_length_le (by simp)]
  simp only [encode, hbuf, hdrop]
  rw [writeAt, hne, if_neg (by simp), htake, leBytes_length, Nat.add_assoc, hdrop]
  simp

theorem encode_length (r : WalRecord) (seq : UInt64) : (r.encode seq []).length = r.len := by
  have := r.tail_length seq
  rw [encode_eq]
  simp only [List.nil_append, List.length_append, leBytes_length]
  omega

theorem encode_append (r : WalRecord) (seq : UInt64) (out : Bytes) :
    r.encode seq out = out ++ r.encode seq [] := by
  rw [encode_eq, encode_eq r seq [], List.nil_append]

theorem len_cases (r : WalRecord) : r.len = pageImageLen ∨ r.len = commitLen := by
  cases r <;> simp [len]

theorem len_pos (r : WalRecord) : 0 < r.len := by
  cases r <;> simp [len, pageImageLen, commitLen, recordHeaderSize]

theorem len_lt (r : WalRecord) : r.len < 256 ^ 4 := by
  rcases r.len_cases with h | h <;> rw [h] <;> decide

theorem u64At_middle (a c : Bytes) (x : UInt64) (off : ℕ) (ha : a.length = off) :
    u64At (a ++ (leBytes 8 x.toNat ++ c)) off = x := by
  have hs := slice_middle a (leBytes 8 x.toNat) c
  rw [leBytes_length, ha] at hs
  rw [u64At, hs, leValue_leBytes]
  apply UInt64.toNat_inj.mp
  rw [UInt64.toNat_ofNat']
  have := x.toNat_lt
  omega

theorem four_le_len (r : WalRecord) : 4 ≤ r.len := by
  rcases r.len_cases with h | h <;> rw [h] <;> decide

theorem len_legal (r : WalRecord) : ¬ (r.len ≠ pageImageLen ∧ r.len ≠ commitLen) := by
  rcases r.len_cases with h | h <;> simp [h]

section Layout

variable (r : WalRecord) (seq : UInt64)

theorem u32At_len (bs : Bytes) : (u32At (leBytes 4 r.len ++ bs) 0).toNat = r.len := by
  have hs := slice_middle [] (leBytes 4 r.len) bs
  simp only [List.nil_append, List.length_nil, leBytes_length] at hs
  rw [u32At, hs, leValue_leBytes, UInt32.toNat_ofNat', Nat.mod_eq_of_lt r.len_lt]
  exact Nat.mod_eq_of_lt (by simpa using r.len_lt)

theorem encode_drop : (r.encode seq []).drop 8 = r.tail seq := by
  rw [encode_eq, List.nil_append, List.drop_append_of_le_length (by simp),
    List.drop_of_length_le (by simp), List.nil_append]

theorem encode_crc : u32At (r.encode seq []) 4 = crc32c (r.tail seq) := by
  have hs := slice_middle (leBytes 4 r.len) (leBytes 4 (crc32c (r.tail seq)).toNat) (r.tail seq)
  rw [u32At, encode_eq, List.nil_append, List.append_assoc]
  simp only [leBytes_length] at hs
  rw [hs, leValue_leBytes]
  apply UInt32.toNat_inj.mp
  rw [UInt32.toNat_ofNat']
  have := (crc32c (r.tail seq)).toNat_lt
  omega

theorem encode_fields : r.encode seq [] = leBytes 4 r.len ++ leBytes 4 (crc32c (r.tail seq)).toNat ++
    leBytes 8 seq.toNat ++ [r.code] ++ leBytes 8 r.txn.toNat ++ r.payload := by
  rw [encode_eq, tail]
  simp only [List.nil_append, List.append_assoc]

theorem encode_seq : u64At (r.encode seq []) 8 = seq := by
  rw [encode_fields]
  simp only [List.append_assoc]
  rw [← List.append_assoc]
  exact u64At_middle _ _ _ _ (by simp)

theorem encode_code : (r.encode seq []).getD 16 0 = r.code := by
  rw [encode_fields, List.append_assoc, List.append_assoc, List.getD_eq_getElem?_getD,
    List.getElem?_append_right (by simp)]
  simp

theorem encode_txn : u64At (r.encode seq []) 17 = r.txn := by
  rw [encode_fields, List.append_assoc]
  exact u64At_middle _ _ _ _ (by simp)

variable (txn : TxnId) (id : PageId) (page : Page)

theorem encode_pageId : u64At (encode (.pageImage txn id page) seq []) recordHeaderSize = id := by
  rw [encode_fields]
  exact u64At_middle _ _ _ _ (by simp [recordHeaderSize])

theorem encode_page :
    slice (encode (.pageImage txn id page) seq []) (recordHeaderSize + 8) pageSize = page.data := by
  have hs := slice_append_right (leBytes 4 (len (.pageImage txn id page)) ++
    leBytes 4 (crc32c (tail (.pageImage txn id page) seq)).toNat ++ leBytes 8 seq.toNat ++
    [code (.pageImage txn id page)] ++ leBytes 8 (WalRecord.txn (.pageImage txn id page)).toNat ++
    leBytes 8 id.toNat) page.data 0 pageSize
  rw [encode_fields]
  simp only [payload, ← List.append_assoc]
  simp only [List.length_append, leBytes_length, List.length_singleton] at hs
  rw [show recordHeaderSize + 8 = 4 + 4 + 8 + 1 + 8 + 8 + 0 from rfl, hs, ← page.size, slice_zero]

end Layout

theorem decode_encode (r : WalRecord) (seq : UInt64) (rest : Bytes) :
    decode (r.encode seq [] ++ rest) = .ok ⟨seq, r, r.len⟩ := by
  have hlen := r.encode_length seq
  have htake : (r.encode seq [] ++ rest).take r.len = r.encode seq [] := by
    rw [← hlen, List.take_left]
  have hl32 : (u32At (r.encode seq [] ++ rest) 0).toNat = r.len := by
    rw [encode_eq, List.nil_append, List.append_assoc, List.append_assoc]
    exact r.u32At_len _
  have hge : ¬ (r.encode seq [] ++ rest).length < r.len := by
    rw [List.length_append, hlen]
    omega
  have h4 : ¬ (r.encode seq [] ++ rest).length < 4 := by
    have := r.four_le_len
    omega
  simp only [decode, if_neg h4, hl32, if_neg r.len_legal, if_neg hge, htake, encode_drop, encode_crc, ne_eq,
    not_true_eq_false, if_false, encode_seq, encode_txn, encode_code]
  cases r with
  | commit t =>
    have hc : ¬ (code (.commit t) = typePageImage ∧ len (.commit t) = pageImageLen) := by
      simp [code, typeCommit, typePageImage]
    rw [if_neg hc, if_pos ⟨rfl, rfl⟩]
    rfl
  | pageImage t id page =>
    have hpatch : ∀ h, Page.zeroed.patch 0 page.data h = page :=
      fun h => Page.ext (Page.zeroed_patch h page.size)
    rw [if_pos ⟨rfl, rfl⟩]
    simp only [encode_pageId, encode_page, hpatch]
    rfl

theorem decode_len {buf : Bytes} {d : DecodedRecord} (h : decode buf = .ok d) :
    (d.len = pageImageLen ∨ d.len = commitLen) ∧ d.len ≤ buf.length := by
  simp only [decode] at h
  split_ifs at h with h4 hl hb hc hp hm
  · injection h with h
    exact ⟨by rw [← h]; tauto, by rw [← h]; exact not_lt.mp hb⟩
  · injection h with h
    exact ⟨by rw [← h]; tauto, by rw [← h]; exact not_lt.mp hb⟩

theorem decode_len_pos {buf : Bytes} {d : DecodedRecord} (h : decode buf = .ok d) : 0 < d.len := by
  rcases (decode_len h).1 with h | h <;> rw [h] <;> decide

theorem encode_take_len (r : WalRecord) (seq : UInt64) (k : ℕ) (hk : 4 ≤ k) :
    (u32At ((r.encode seq []).take k) 0).toNat = r.len := by
  have htake : (r.encode seq []).take k =
      leBytes 4 r.len ++ ((leBytes 4 (crc32c (r.tail seq)).toNat ++ r.tail seq).take (k - 4)) := by
    rw [encode_eq, List.nil_append, List.append_assoc, List.take_append, leBytes_length,
      List.take_of_length_le (by rw [leBytes_length]; exact hk)]
  rw [htake, u32At_len]

theorem decode_take (r : WalRecord) (seq : UInt64) (k : ℕ) (hk : k < r.len) :
    decode ((r.encode seq []).take k) = .error .incomplete := by
  have hlen : ((r.encode seq []).take k).length = k := by
    rw [List.length_take, r.encode_length, Nat.min_eq_left hk.le]
  by_cases h4 : k < 4
  · rw [decode, if_pos (by rwa [hlen])]
  · simp only [decode, hlen, if_neg h4, r.encode_take_len seq k (by omega), if_neg r.len_legal, if_pos hk]

structure Fields (bytes : Bytes) (d : DecodedRecord) : Prop where
  length : bytes.length = d.len
  len : (u32At bytes 0).toNat = d.len
  checksum : u32At bytes 4 = crc32c (bytes.drop 8)
  seq : d.seq = u64At bytes 8
  txn : d.record.txn = u64At bytes 17
  code : bytes.getD 16 0 = d.record.code
  payload : d.record.payload = bytes.drop recordHeaderSize
  kind : d.record.len = d.len

theorem decode_fields {buf : Bytes} {d : DecodedRecord} (h : decode buf = .ok d) :
    Fields (buf.take d.len) d := by
  have hle := (decode_len h).2
  have h0 : ∀ n, 4 ≤ n → n ≤ buf.length → u32At (buf.take n) 0 = u32At buf 0 := by
    intro n hn hb
    have hs := slice_append_left (buf.take n) (buf.drop n) 0 4 (by rw [List.length_take]; omega)
    rw [List.take_append_drop] at hs
    rw [u32At, u32At, hs]
  simp only [decode] at h
  split_ifs at h with h4 hl hb hc hp hm
  · obtain ⟨hty, hlen⟩ := hp
    injection h with h
    rw [← h] at hle ⊢
    have hbl : (buf.take (u32At buf 0).toNat).length = (u32At buf 0).toNat := by
      rw [List.length_take, Nat.min_eq_left hle]
    have h4 : 4 ≤ (u32At buf 0).toNat := by
      rw [hlen]
      decide
    refine ⟨hbl, ?_, not_not.mp hc, rfl, rfl, hty, ?_, hlen.symm⟩
    · rw [h0 _ h4 hle]
    · rw [payload, leBytes_u64At, Page.zeroed_patch _ (slice_length _ _ _), slice_append]
      apply slice_eq_drop
      rw [hbl, hlen]
      rfl
  · obtain ⟨hty, hlen⟩ := hm
    injection h with h
    rw [← h] at hle ⊢
    have hbl : (buf.take (u32At buf 0).toNat).length = (u32At buf 0).toNat := by
      rw [List.length_take, Nat.min_eq_left hle]
    have h4 : 4 ≤ (u32At buf 0).toNat := by
      rw [hlen]
      decide
    refine ⟨hbl, ?_, not_not.mp hc, rfl, rfl, hty, ?_, hlen.symm⟩
    · rw [h0 _ h4 hle]
    · rw [payload, List.drop_of_length_le (by rw [hbl, hlen]; rfl)]

theorem Fields.encode {bytes : Bytes} {d : DecodedRecord} (h : Fields bytes d) :
    d.record.encode d.seq [] = bytes := by
  have hge : recordHeaderSize ≤ bytes.length := by
    rw [h.length, ← h.kind]
    rcases d.record.len_cases with hl | hl <;> rw [hl] <;> decide
  rw [recordHeaderSize] at hge
  have hcode : [d.record.code] = slice bytes 16 1 := by
    rw [← h.code]
    simp [slice]
  have htail : d.record.tail d.seq = bytes.drop 8 := by
    have hp : d.record.payload = slice bytes 25 (bytes.length - 25) := by
      rw [h.payload, slice_eq_drop _ _ _ (by omega)]
      rfl
    rw [tail, h.seq, h.txn, hcode, leBytes_u64At, leBytes_u64At, hp, slice_append, slice_append,
      slice_append, slice_eq_drop _ _ _ (by omega)]
  rw [encode_eq, htail, ← h.checksum, h.kind, ← h.len, List.nil_append, leBytes_u32At, leBytes_u32At,
    slice_append, ← slice_eq_drop bytes 8 (bytes.length - 8) (by omega), slice_append,
    slice_eq_drop _ _ _ (by omega), List.drop_zero]

theorem encode_decode {buf : Bytes} {d : DecodedRecord} (h : decode buf = .ok d) :
    d.record.encode d.seq [] = buf.take d.len := (decode_fields h).encode

theorem codec_inverse (r : WalRecord) (seq : UInt64) (out rest : Bytes) :
    r.encode seq out = out ++ r.encode seq [] ∧
      decode (r.encode seq [] ++ rest) = .ok ⟨seq, r, (r.encode seq []).length⟩ ∧
      (∀ p, p <+: r.encode seq [] → p ≠ r.encode seq [] → decode p = .error .incomplete) ∧
      ∀ buf d, decode buf = .ok d →
        d.len ≤ buf.length ∧ d.record.encode d.seq out = out ++ buf.take d.len := by
  refine ⟨r.encode_append seq out, ?_, ?_, ?_⟩
  · rw [r.encode_length]
    exact r.decode_encode seq rest
  · intro p hp hne
    have hle := hp.length_le
    have hlt : p.length < r.len := by
      rw [← r.encode_length seq]
      exact lt_of_le_of_ne hle (fun he => hne (hp.eq_of_length he))
    rw [List.prefix_iff_eq_take.mp hp]
    exact r.decode_take seq _ hlt
  · intro buf d h
    rw [encode_append, encode_decode h]
    exact ⟨(decode_len h).2, rfl⟩

end WalRecord

end OxenDB
