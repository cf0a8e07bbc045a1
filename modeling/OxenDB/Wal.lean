import OxenDB.WalRecord

namespace OxenDB

open Lib

def walMagic : Bytes := [0x6f, 0x78, 0x65, 0x6e, 0x57, 0x41, 0x4c, 0]

def walFormatVersion : UInt32 := 1

def walHeaderSize : ℕ := 24

def encodeHeader (firstSeq : UInt64) : Bytes :=
  let header := writeAt (writeAt (writeAt (List.replicate walHeaderSize 0) 4 walMagic)
    12 (leBytes 4 walFormatVersion.toNat)) 16 (leBytes 8 firstSeq.toNat)
  writeAt header 0 (leBytes 4 (crc32c (header.drop 4)).toNat)

def decodeHeader (contents : Bytes) : Except Error UInt64 :=
  if contents.length < walHeaderSize ∨ slice contents 4 8 ≠ walMagic then
    .error (.unsupportedFormat "not an oxenDB WAL file")
  else
    let header := contents.take walHeaderSize
    let version := u32At header 12
    if u32At header 0 ≠ crc32c (header.drop 4) then .error (.corruption "WAL header checksum mismatch")
    else if version ≠ walFormatVersion then
      .error (.unsupportedFormat
        s!"WAL format version {version}, this build supports version {walFormatVersion}")
    else .ok (u64At header 16)

structure Scan where
  records : List DecodedRecord
  offset : ℕ
  nextSeq : UInt64
  stopReason : Option String

/-- The loop of `Wal::open` over the bytes that are left, from the sequence number it expects. -/
def scan (bs : Bytes) (nextSeq : UInt64) : Scan :=
  if bs = [] then ⟨[], 0, nextSeq, none⟩
  else
    match _h : WalRecord.decode bs with
    | .ok decoded =>
      if decoded.seq = nextSeq then
        let rest := scan (bs.drop decoded.len) (nextSeq + 1)
        ⟨decoded :: rest.records, decoded.len + rest.offset, rest.nextSeq, rest.stopReason⟩
      else
        ⟨[], 0, nextSeq, some s!"expected sequence number {nextSeq}, found {decoded.seq}"⟩
    | .error .incomplete => ⟨[], 0, nextSeq, some "incomplete record"⟩
    | .error (.invalid reason) => ⟨[], 0, nextSeq, some reason⟩
termination_by bs.length
decreasing_by
  have hl := WalRecord.decode_len _h
  have hp := WalRecord.decode_len_pos _h
  rw [List.length_drop]
  omega

structure DiscardedTail where
  bytes : ℕ
  reason : String

structure Wal where
  durableLen : ℕ
  pending : Bytes
  nextSeq : UInt64
  poisoned : Bool

structure OpenedWal where
  wal : Wal
  records : List DecodedRecord
  discarded : Option DiscardedTail
  contents : Bytes

namespace Wal

def create : Wal × Bytes := (⟨walHeaderSize, [], 0, false⟩, encodeHeader 0)

def «open» (contents : Bytes) : Except Error OpenedWal :=
  match decodeHeader contents with
  | .error e => .error e
  | .ok firstSeq =>
    let s := scan (contents.drop walHeaderSize) firstSeq
    let offset := walHeaderSize + s.offset
    let discarded := s.stopReason.map (fun reason => ⟨contents.length - offset, reason⟩)
    .ok ⟨⟨offset, [], s.nextSeq, false⟩, s.records, discarded,
      if discarded.isSome then contents.take offset else contents⟩

def checkPoisoned (w : Wal) : Except Error Unit :=
  if w.poisoned then .error (.poisoned "an earlier WAL write failed; reopen the database to recover")
  else .ok ()

def append (w : Wal) (record : WalRecord) : Except Error Wal :=
  match w.checkPoisoned with
  | .error e => .error e
  | .ok () => .ok { w with pending := record.encode w.nextSeq w.pending, nextSeq := w.nextSeq + 1 }

def appendAll (w : Wal) : List WalRecord → Except Error Wal
  | [] => .ok w
  | record :: rest =>
    match w.append record with
    | .error e => .error e
    | .ok w => w.appendAll rest

end Wal

def encodeAll : List WalRecord → UInt64 → Bytes
  | [], _ => []
  | r :: rs, seq => r.encode seq [] ++ encodeAll rs (seq + 1)

def decodedAll : List WalRecord → UInt64 → List DecodedRecord
  | [], _ => []
  | r :: rs, seq => ⟨seq, r, r.len⟩ :: decodedAll rs (seq + 1)

theorem decodedAll_record (rs : List WalRecord) (seq : UInt64) :
    (decodedAll rs seq).map (·.record) = rs := by
  induction rs generalizing seq with
  | nil => rfl
  | cons r rs ih => simp [decodedAll, ih]

theorem ofNat_succ_add (seq : UInt64) (n : ℕ) :
    seq + 1 + UInt64.ofNat n = seq + UInt64.ofNat (n + 1) := by
  rw [UInt64.ofNat_add, UInt64.add_assoc, UInt64.add_comm 1]
  rfl

theorem encodeAll_append (rs rs' : List WalRecord) (seq : UInt64) :
    encodeAll (rs ++ rs') seq = encodeAll rs seq ++ encodeAll rs' (seq + UInt64.ofNat rs.length) := by
  induction rs generalizing seq with
  | nil => simp [encodeAll]
  | cons r rs ih =>
    rw [List.cons_append, encodeAll, encodeAll, ih, List.append_assoc, List.length_cons, ofNat_succ_add]

theorem encodeAll_length (rs : List WalRecord) (seq : UInt64) :
    (encodeAll rs seq).length = (rs.map WalRecord.len).sum := by
  induction rs generalizing seq with
  | nil => rfl
  | cons r rs ih =>
    rw [encodeAll, List.length_append, r.encode_length, ih, List.map_cons, List.sum_cons]

theorem Wal.appendAll_ok (w : Wal) (rs : List WalRecord) (h : w.poisoned = false) :
    w.appendAll rs = .ok { w with
      pending := w.pending ++ encodeAll rs w.nextSeq
      nextSeq := w.nextSeq + UInt64.ofNat rs.length } := by
  induction rs generalizing w with
  | nil => simp [Wal.appendAll, encodeAll]
  | cons r rs ih =>
    have ha : w.append r = .ok { w with
        pending := r.encode w.nextSeq w.pending, nextSeq := w.nextSeq + 1 } := by
      simp [Wal.append, Wal.checkPoisoned, h]
    rw [Wal.appendAll, ha]
    dsimp only
    rw [ih { w with pending := r.encode w.nextSeq w.pending, nextSeq := w.nextSeq + 1 } h]
    rw [encodeAll, r.encode_append w.nextSeq w.pending, List.append_assoc, List.length_cons]
    simp only [ofNat_succ_add]

theorem Wal.appendAll_poisoned {w w' : Wal} {rs : List WalRecord} (h : w.appendAll rs = .ok w') :
    w'.poisoned = w.poisoned := by
  induction rs generalizing w with
  | nil =>
    injection h with h
    rw [h]
  | cons r rs ih =>
    rw [Wal.appendAll] at h
    cases ha : w.append r with
    | error e => rw [ha] at h; cases h
    | ok v =>
      rw [ha] at h
      rw [ih h]
      rw [Wal.append] at ha
      cases hc : w.checkPoisoned with
      | error e => rw [hc] at ha; cases ha
      | ok u =>
        rw [hc] at ha
        injection ha with ha
        rw [← ha]

def NoRecord (bs : Bytes) (seq : UInt64) : Prop := ∀ d, WalRecord.decode bs = .ok d → d.seq ≠ seq

theorem noRecord_nil (seq : UInt64) : NoRecord [] seq := by
  intro d h
  simp [WalRecord.decode] at h

theorem scan_of_noRecord {bs : Bytes} {seq : UInt64} (h : NoRecord bs seq) :
    (scan bs seq).records = [] ∧ (scan bs seq).offset = 0 ∧ (scan bs seq).nextSeq = seq ∧
      ((scan bs seq).stopReason = none ↔ bs = []) := by
  rw [scan]
  split
  · rename_i hbs
    exact ⟨rfl, rfl, rfl, fun _ => hbs, fun _ => rfl⟩
  · rename_i hbs
    split
    · rename_i d hd
      rw [if_neg (h d hd)]
      simp [hbs]
    · simp [hbs]
    · simp [hbs]

theorem scan_cons (r : WalRecord) (seq : UInt64) (bs : Bytes) :
    scan (r.encode seq [] ++ bs) seq =
      ⟨⟨seq, r, r.len⟩ :: (scan bs (seq + 1)).records, r.len + (scan bs (seq + 1)).offset,
        (scan bs (seq + 1)).nextSeq, (scan bs (seq + 1)).stopReason⟩ := by
  have hne : r.encode seq [] ++ bs ≠ [] := by
    intro h
    have hl := congrArg List.length h
    have := r.len_pos
    simp only [List.length_append, r.encode_length, List.length_nil] at hl
    omega
  have hd := r.decode_encode seq bs
  have hdrop : (r.encode seq [] ++ bs).drop r.len = bs := by
    rw [← r.encode_length seq, List.drop_left]
  rw [scan, if_neg hne]
  split
  · rename_i d hd'
    rw [hd] at hd'
    injection hd' with hd'
    subst hd'
    simp only [↓reduceIte, hdrop]
  · rename_i hd'
    rw [hd] at hd'
    cases hd'
  · rename_i reason hd'
    rw [hd] at hd'
    cases hd'

theorem scan_encodeAll (rs : List WalRecord) (seq : UInt64) (bs : Bytes)
    (h : NoRecord bs (seq + UInt64.ofNat rs.length)) :
    (scan (encodeAll rs seq ++ bs) seq).records = decodedAll rs seq ∧
      (scan (encodeAll rs seq ++ bs) seq).offset = (encodeAll rs seq).length ∧
      (scan (encodeAll rs seq ++ bs) seq).nextSeq = seq + UInt64.ofNat rs.length ∧
      ((scan (encodeAll rs seq ++ bs) seq).stopReason = none ↔ bs = []) := by
  induction rs generalizing seq with
  | nil =>
    have hz : seq + UInt64.ofNat 0 = seq := by simp
    simp only [List.length_nil, hz] at h
    simpa [encodeAll, decodedAll] using scan_of_noRecord h
  | cons r rs ih =>
    rw [List.length_cons, ← ofNat_succ_add] at h
    obtain ⟨h1, h2, h3, h4⟩ := ih (seq + 1) h
    rw [encodeAll, List.append_assoc, scan_cons]
    refine ⟨by rw [h1, decodedAll], ?_, by rw [h3, List.length_cons, ofNat_succ_add], h4⟩
    rw [h2, List.length_append, r.encode_length]

theorem encodeHeader_eq (seq : UInt64) : ∃ t : Bytes,
    encodeHeader seq = leBytes 4 (crc32c t).toNat ++ t ∧
      t = walMagic ++ leBytes 4 walFormatVersion.toNat ++ leBytes 8 seq.toNat := by
  refine ⟨_, ?_, rfl⟩
  have h8 : (leBytes 8 seq.toNat).isEmpty = false := by simp [leBytes]
  have h1 : writeAt (List.replicate walHeaderSize 0) 4 walMagic =
      [0, 0, 0, 0] ++ walMagic ++ List.replicate 12 0 := by decide
  have h2 : writeAt ([0, 0, 0, 0] ++ walMagic ++ List.replicate 12 0) 12
      (leBytes 4 walFormatVersion.toNat) =
      [0, 0, 0, 0] ++ (walMagic ++ leBytes 4 walFormatVersion.toNat) ++ List.replicate 8 0 := by decide
  have h3 : writeAt ([0, 0, 0, 0] ++ (walMagic ++ leBytes 4 walFormatVersion.toNat) ++
      List.replicate 8 0) 16 (leBytes 8 seq.toNat) =
      [0, 0, 0, 0] ++ (walMagic ++ leBytes 4 walFormatVersion.toNat ++ leBytes 8 seq.toNat) := by
    rw [writeAt, h8, if_neg (by simp), leBytes_length]
    rfl
  have h4 : ∀ a t : Bytes, a.length = 4 → writeAt ([0, 0, 0, 0] ++ t) 0 a = a ++ t := by
    intro a t ha
    have hne : a.isEmpty = false := by cases a <;> simp_all
    rw [writeAt, hne, if_neg (by simp), ha]
    simp
  simp only [encodeHeader, h1, h2, h3]
  rw [h4 _ _ (leBytes_length _ _)]
  rfl

theorem encodeHeader_length (seq : UInt64) : (encodeHeader seq).length = walHeaderSize := by
  obtain ⟨t, he, ht⟩ := encodeHeader_eq seq
  rw [he, ht]
  simp [walMagic, walHeaderSize]

theorem take_encodeHeader (seq : UInt64) (rest : Bytes) :
    (encodeHeader seq ++ rest).take walHeaderSize = encodeHeader seq := by
  rw [← encodeHeader_length seq, List.take_left]

theorem drop_encodeHeader (seq : UInt64) (rest : Bytes) :
    (encodeHeader seq ++ rest).drop walHeaderSize = rest := by
  rw [← encodeHeader_length seq, List.drop_left]

theorem u64At_encodeHeader (seq : UInt64) : u64At (encodeHeader seq) 16 = seq := by
  obtain ⟨t, he, ht⟩ := encodeHeader_eq seq
  have := WalRecord.u64At_middle (leBytes 4 (crc32c t).toNat ++
    (walMagic ++ leBytes 4 walFormatVersion.toNat)) [] seq 16 (by simp [walMagic])
  rw [List.append_nil] at this
  rw [he]
  nth_rewrite 2 [ht]
  rw [← List.append_assoc]
  exact this

theorem decodeHeader_encodeHeader (seq : UInt64) (rest : Bytes) :
    decodeHeader (encodeHeader seq ++ rest) = .ok seq := by
  have hl := encodeHeader_length seq
  obtain ⟨t, he, ht⟩ := encodeHeader_eq seq
  have htake := take_encodeHeader seq rest
  have hmagic : slice (encodeHeader seq ++ rest) 4 8 = walMagic := by
    rw [he, ht, List.append_assoc, List.append_assoc, List.append_assoc]
    exact slice_middle (leBytes 4 _) walMagic _
  have hstored : u32At (encodeHeader seq) 0 = crc32c t := by rw [he]; exact u32At_leBytes _ _
  have hdrop : (encodeHeader seq).drop 4 = t := by
    rw [he, List.drop_append_of_le_length (by simp), List.drop_of_length_le (by simp), List.nil_append]
  have hver : u32At (encodeHeader seq) 12 = walFormatVersion := by
    have hs := slice_middle (leBytes 4 (crc32c t).toNat ++ walMagic)
      (leBytes 4 walFormatVersion.toNat) (leBytes 8 seq.toNat)
    have hlen : (leBytes 4 (crc32c t).toNat ++ walMagic).length = 12 := by simp [walMagic]
    rw [hlen, leBytes_length] at hs
    rw [u32At, he]
    nth_rewrite 2 [ht]
    rw [List.append_assoc, ← List.append_assoc, hs]
    decide
  have hlong : ¬ ((encodeHeader seq ++ rest).length < walHeaderSize ∨
      slice (encodeHeader seq ++ rest) 4 8 ≠ walMagic) := by
    simp only [List.length_append, hl, hmagic]
    simp
  simp only [decodeHeader, if_neg hlong, htake, hstored, hdrop, hver, u64At_encodeHeader, ne_eq,
    not_true_eq_false, if_false]

theorem scan_split (bs : Bytes) (seq : UInt64) : ∃ rs rest,
    bs = encodeAll rs seq ++ rest ∧ NoRecord rest (seq + UInt64.ofNat rs.length) := by
  fun_induction scan bs seq with
  | case1 seq =>
    exact ⟨[], [], rfl, noRecord_nil _⟩
  | case2 bs hne d hd rest ih =>
    obtain ⟨rs, left, hbs, hno⟩ := ih
    refine ⟨d.record :: rs, left, ?_, ?_⟩
    · rw [encodeAll, WalRecord.encode_decode hd, List.append_assoc, ← hbs, List.take_append_drop]
    · rw [List.length_cons, ← ofNat_succ_add]
      exact hno
  | case3 bs seq hne d hd hseq =>
    refine ⟨[], bs, rfl, ?_⟩
    intro d' hd'
    rw [hd] at hd'
    injection hd' with hd'
    simpa [← hd'] using hseq
  | case4 bs seq hne hd =>
    refine ⟨[], bs, rfl, ?_⟩
    intro d' hd'
    rw [hd] at hd'
    cases hd'
  | case5 bs seq hne reason hd =>
    refine ⟨[], bs, rfl, ?_⟩
    intro d' hd'
    rw [hd] at hd'
    cases hd'

theorem decodeHeader_length {contents : Bytes} {seq : UInt64} (h : decodeHeader contents = .ok seq) :
    walHeaderSize ≤ contents.length := by
  simp only [decodeHeader] at h
  split_ifs at h with h1
  rw [not_or] at h1
  exact not_lt.mp h1.1

theorem encodeHeader_of_decodeHeader {contents : Bytes} {seq : UInt64} (h : decodeHeader contents = .ok seq) :
    encodeHeader seq = contents.take walHeaderSize := by
  have hlen : (contents.take walHeaderSize).length = walHeaderSize := by
    rw [List.length_take, Nat.min_eq_left (decodeHeader_length h)]
  obtain ⟨t, he, ht⟩ := encodeHeader_eq seq
  have hmagic := slice_append_left (contents.take walHeaderSize) (contents.drop walHeaderSize) 4 8 (by
    rw [hlen]
    decide)
  rw [List.take_append_drop] at hmagic
  simp only [decodeHeader] at h
  split_ifs at h with h₁ h₂ h₃
  rw [not_or, not_not, hmagic] at h₁
  generalize contents.take walHeaderSize = f at *
  have hbody : f.drop 4 = t := by
    rw [ht, ← Except.ok.inj h, leBytes_u64At, ← h₁.2, ← not_not.mp h₃, leBytes_u32At, slice_append _ 4,
      slice_append _ 4, slice_eq_drop _ _ _ (by rw [hlen]; rfl)]
  rw [he, ← hbody, ← not_not.mp h₂, leBytes_u32At, ← slice_eq_drop f 4 20 (by rw [hlen]; rfl), slice_append _ 0,
    slice_eq_drop _ _ _ (by rw [hlen]; rfl), List.drop_zero]

theorem decodeHeader_take {contents : Bytes} {seq : UInt64} (h : decodeHeader contents = .ok seq)
    {n : ℕ} (hn : walHeaderSize ≤ n) : decodeHeader (contents.take n) = .ok seq := by
  have hle := decodeHeader_length h
  have hlen : ¬ (contents.take n).length < walHeaderSize := by
    rw [List.length_take]
    omega
  have hmagic : slice (contents.take n) 4 8 = slice contents 4 8 := by
    have hs := slice_append_left (contents.take n) (contents.drop n) 4 8 (by
      rw [List.length_take]
      unfold walHeaderSize at *
      omega)
    rw [← hs, List.take_append_drop]
  have htake : (contents.take n).take walHeaderSize = contents.take walHeaderSize := by
    rw [List.take_take, Nat.min_eq_left hn]
  rw [← h]
  simp only [decodeHeader, hlen, hmagic, htake, not_lt.mpr hle]

namespace Wal

/-- What `Wal::open` returns for a file that holds the records `rs` behind its header, then `left`. -/
structure Parses (contents : Bytes) (seq : UInt64) (rs : List WalRecord) (left : Bytes)
    (o : OpenedWal) : Prop where
  bytes : contents = contents.take walHeaderSize ++ (encodeAll rs seq ++ left)
  records : o.records = decodedAll rs seq
  stops : NoRecord left (seq + UInt64.ofNat rs.length)
  wal : o.wal = ⟨walHeaderSize + (encodeAll rs seq).length, [], seq + UInt64.ofNat rs.length, false⟩
  discarded : o.discarded.map DiscardedTail.bytes = if left = [] then none else some left.length
  contents : o.contents = contents.take o.wal.durableLen

theorem open_parses {contents left : Bytes} {seq : UInt64} {rs : List WalRecord}
    (h : decodeHeader contents = .ok seq) (hbs : contents.drop walHeaderSize = encodeAll rs seq ++ left)
    (hno : NoRecord left (seq + UInt64.ofNat rs.length)) :
    ∃ o, Wal.open contents = .ok o ∧ Parses contents seq rs left o := by
  have hle := decodeHeader_length h
  obtain ⟨h1, h2, h3, h4⟩ := scan_encodeAll rs seq left hno
  rw [← hbs] at h1 h2 h3 h4
  have hlen := congrArg List.length hbs
  rw [List.length_drop, List.length_append] at hlen
  refine ⟨_, by simp only [Wal.open, h]; rfl, ?_⟩
  simp only [h1, h2, h3]
  refine ⟨?_, rfl, hno, rfl, ?_, ?_⟩
  · rw [← hbs, List.take_append_drop]
  · cases hs : (scan (contents.drop walHeaderSize) seq).stopReason with
    | none => simp [h4.mp hs]
    | some reason =>
      have hne : left ≠ [] := by
        intro he
        rw [h4.mpr he] at hs
        cases hs
      simp only [Option.map_some, if_neg hne]
      congr 1
      omega
  · cases hs : (scan (contents.drop walHeaderSize) seq).stopReason with
    | none =>
      rw [h4.mp hs, List.length_nil] at hlen
      simp only [Option.map_none, Option.isSome_none, Bool.false_eq_true, if_false]
      rw [List.take_of_length_le (by omega)]
    | some reason => simp

theorem Parses.reopen {contents left : Bytes} {seq : UInt64} {rs : List WalRecord} {o : OpenedWal}
    (h : decodeHeader contents = .ok seq) (hp : Parses contents seq rs left o) :
    ∃ o', Wal.open o.contents = .ok o' ∧ Parses o.contents seq rs [] o' := by
  have hdurable : o.wal.durableLen = walHeaderSize + (encodeAll rs seq).length := by rw [hp.wal]
  have hdrop : contents.drop walHeaderSize = encodeAll rs seq ++ left := by
    have hle := decodeHeader_length h
    nth_rewrite 1 [hp.bytes]
    rw [List.drop_append_of_le_length (by rw [List.length_take]; omega),
      List.drop_of_length_le (by rw [List.length_take]; omega), List.nil_append]
  apply open_parses
  · rw [hp.contents, hdurable]
    exact decodeHeader_take h (by omega)
  · rw [hp.contents, hdurable, List.drop_take, hdrop, Nat.add_sub_cancel_left, List.take_left,
      List.append_nil]
  · exact noRecord_nil _

/-- `Wal::open` reads the longest sequence of valid records behind a header, cuts off the rest, and
finds the same records when it opens what it left. -/
theorem open_reads_longest_prefix {contents : Bytes} {seq : UInt64}
    (h : decodeHeader contents = .ok seq) :
    ∃ rs left o, Wal.open contents = .ok o ∧ Parses contents seq rs left o ∧
      ∃ o', Wal.open o.contents = .ok o' ∧ o'.records = o.records ∧ o'.discarded = none ∧
        o'.contents = o.contents := by
  obtain ⟨rs, left, hbs, hno⟩ := scan_split (contents.drop walHeaderSize) seq
  obtain ⟨o, ho, hp⟩ := open_parses h hbs hno
  obtain ⟨o', ho', hp'⟩ := hp.reopen h
  refine ⟨rs, left, o, ho, hp, o', ho', ?_, ?_, ?_⟩
  · rw [hp'.records, hp.records]
  · simpa using hp'.discarded
  · rw [hp'.contents, hp'.wal, hp.contents, hp.wal]
    exact List.take_of_length_le (List.length_take_le _ _)

theorem open_reads_longest_prefix_torn :
    decodeHeader (encodeHeader 7 ++ ((WalRecord.commit 3).encode 7 [] ++ [25, 0, 0])) = .ok 7 ∧
      ∃ rs left o, Wal.open (encodeHeader 7 ++ ((WalRecord.commit 3).encode 7 [] ++ [25, 0, 0])) = .ok o ∧
        Parses (encodeHeader 7 ++ ((WalRecord.commit 3).encode 7 [] ++ [25, 0, 0])) 7 rs left o ∧
        ∃ o', Wal.open o.contents = .ok o' ∧ o'.records = o.records ∧ o'.discarded = none ∧
          o'.contents = o.contents :=
  ⟨decodeHeader_encodeHeader 7 _, open_reads_longest_prefix (decodeHeader_encodeHeader 7 _)⟩

end Wal

theorem Wal.open_encoded (rs : List WalRecord) (seq : UInt64) (bs : Bytes)
    (h : NoRecord bs (seq + UInt64.ofNat rs.length)) :
    ∃ o, Wal.open (encodeHeader seq ++ (encodeAll rs seq ++ bs)) = .ok o ∧
      o.records = decodedAll rs seq ∧
      o.contents = encodeHeader seq ++ encodeAll rs seq ∧
      o.wal = ⟨o.contents.length, [], seq + UInt64.ofNat rs.length, false⟩ := by
  have hl := encodeHeader_length seq
  obtain ⟨o, ho, hp⟩ := Wal.open_parses (decodeHeader_encodeHeader seq _) (drop_encodeHeader seq _) h
  have hcontents : o.contents = encodeHeader seq ++ encodeAll rs seq := by
    rw [hp.contents, hp.wal, ← hl, ← List.length_append, ← List.append_assoc, List.take_left]
  refine ⟨o, ho, hp.records, hcontents, ?_⟩
  rw [hp.wal, hcontents, List.length_append, hl]

end OxenDB
