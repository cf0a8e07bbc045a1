import OxenDB.Checksum
import OxenDB.Lib.Crc

namespace OxenDB
open Lib

def serialBit (crc : UInt32) (bit : Bool) : UInt32 :=
  if decide (crc &&& 1 ≠ 0) ^^ bit then (crc >>> 1) ^^^ poly else crc >>> 1

def bitsOf (byte : UInt8) : List Bool := (List.range 8).map (fun i => byte.toNat.testBit i)

/-- The reflected CRC applied one bit at a time: what every path is for. -/
def bitSerial (crc : UInt32) (bytes : Bytes) : UInt32 := (bytes.flatMap bitsOf).foldl serialBit crc

theorem decide_low_bit (x : UInt32) : decide (x &&& 1 ≠ 0) = x.toBitVec.getLsbD 0 := by
  have h : (x &&& 1).toBitVec = BitVec.setWidth 32 (BitVec.ofBool (x.toBitVec.getLsbD 0)) := by
    rw [UInt32.toBitVec_and]
    exact BitVec.and_one_eq_setWidth_ofBool_getLsbD
  have hzero : x &&& 1 = 0 ↔ x.toBitVec.getLsbD 0 = false := by
    rw [← UInt32.toBitVec_inj, h]
    cases x.toBitVec.getLsbD 0 <;> decide
  simp only [ne_eq, hzero, Bool.not_eq_false, Bool.decide_eq_true]

theorem serialBit_toBitVec (crc : UInt32) (bit : Bool) :
    (serialBit crc bit).toBitVec = crcBit poly.toBitVec crc.toBitVec bit := by
  rw [serialBit, crcBit, decide_low_bit]
  split <;> simp

theorem bitStep_toBitVec (x : UInt32) : (bitStep x).toBitVec = crcStep poly.toBitVec x.toBitVec := by
  rw [crcStep, ← decide_low_bit]
  by_cases hx : x &&& 1 ≠ 0
  · rw [bitStep, if_pos hx, decide_eq_true hx]
    simp
  · rw [bitStep, if_neg hx, decide_eq_false hx]
    simp

theorem bitStep_iterate_toBitVec (n : ℕ) (x : UInt32) :
    (bitStep^[n] x).toBitVec = (crcStep poly.toBitVec)^[n] x.toBitVec := by
  induction n generalizing x with
  | zero => rfl
  | succ n ih => rw [Function.iterate_succ_apply, Function.iterate_succ_apply, ih, bitStep_toBitVec]

theorem bitStep_iterate_xor (n : ℕ) (x y : UInt32) :
    bitStep^[n] (x ^^^ y) = bitStep^[n] x ^^^ bitStep^[n] y := by
  apply UInt32.toBitVec_inj.mp
  rw [UInt32.toBitVec_xor, bitStep_iterate_toBitVec, bitStep_iterate_toBitVec, bitStep_iterate_toBitVec,
    UInt32.toBitVec_xor, crcStep_iterate_xor]

theorem bitSerial_toBitVec (crc : UInt32) (bytes : Bytes) :
    (bitSerial crc bytes).toBitVec = crcBits poly.toBitVec crc.toBitVec (bytes.flatMap bitsOf) := by
  rw [bitSerial, crcBits]
  induction bytes.flatMap bitsOf generalizing crc with
  | nil => rfl
  | cons b bs ih => rw [List.foldl_cons, List.foldl_cons, ih, serialBit_toBitVec]

theorem ofBits_bitsOf (b : UInt8) : ofBits 32 (bitsOf b) = b.toUInt32.toBitVec := by
  apply BitVec.eq_of_getLsbD_eq
  intro i hi
  rw [getLsbD_ofBits _ _ hi, bitsOf]
  by_cases h8 : i < 8
  · simp [h8, BitVec.getLsbD_eq_getElem hi, BitVec.getElem_eq_testBit_toNat]
  · have hb : b.toNat.testBit i = false := by
      apply Nat.testBit_lt_two_pow
      exact b.toNat_lt.trans_le (Nat.pow_le_pow_right (by omega) (not_lt.mp h8))
    simpa [h8, BitVec.getLsbD_eq_getElem hi, BitVec.getElem_eq_testBit_toNat] using hb

theorem bitSerial_byte (crc : UInt32) (b : UInt8) :
    bitSerial crc [b] = bitStep^[8] (crc ^^^ b.toUInt32) := by
  apply UInt32.toBitVec_inj.mp
  have hlen : (bitsOf b).length = 8 := by simp [bitsOf]
  rw [bitSerial_toBitVec, List.flatMap_singleton, crcBits_eq _ _ _ (by omega), hlen, ofBits_bitsOf,
    bitStep_iterate_toBitVec, UInt32.toBitVec_xor]

theorem bitSerial_append (crc : UInt32) (bs bs' : Bytes) :
    bitSerial crc (bs ++ bs') = bitSerial (bitSerial crc bs) bs' := by
  rw [bitSerial, List.flatMap_append, List.foldl_append]
  rfl

theorem split_low_byte (x : UInt32) : x = (x &&& (0xFF : UInt32)) ^^^ ((x >>> 8) <<< 8) := by
  apply UInt32.toBitVec_inj.mp
  apply BitVec.eq_of_getLsbD_eq
  intro i hi
  have h255 : (255 : ℕ).testBit i = decide (i < 8) := by
    rw [show (255 : ℕ) = 2 ^ 8 - 1 from rfl, Nat.testBit_two_pow_sub_one]
  have hmask : (255#32)[i] = decide (i < 8) := by
    rw [← BitVec.getLsbD_eq_getElem, BitVec.getLsbD_ofNat, h255, decide_eq_true hi, Bool.true_and]
  by_cases h8 : i < 8
  · simp [hi, h8, hmask]
  · have hsub : 8 + (i - 8) = i := by omega
    simp [hi, h8, hmask, hsub]

theorem bitStep_byte (x : UInt32) : bitStep^[8] x = table0 (x &&& 0xFF) ^^^ (x >>> 8) := by
  have hshift : bitStep^[8] ((x >>> 8) <<< 8) = x >>> 8 := by
    apply UInt32.toBitVec_inj.mp
    have hlt : (x >>> 8).toBitVec.toNat < 2 ^ (32 - 8) := by
      have := x.toNat_lt
      simp [Nat.shiftRight_eq_div_pow]
      omega
    have hs := crcStep_iterate_shiftLeft poly.toBitVec 8 (x >>> 8).toBitVec hlt
    rw [bitStep_iterate_toBitVec, ← hs]
    congr 1
  conv_lhs => rw [split_low_byte x]
  rw [bitStep_iterate_xor, hshift]
  rfl

theorem tables_eq (k : ℕ) (i : UInt32) : tables k i = bitStep^[8 * (k + 1)] i := by
  induction k with
  | zero => rfl
  | succ k ih =>
    rw [tables, UInt32.xor_comm, ← bitStep_byte, ih, ← Function.iterate_add_apply,
      show 8 + 8 * (k + 1) = 8 * (k + 1 + 1) by ring]

theorem bitStep_split (n : ℕ) (x : UInt32) :
    bitStep^[n + 8] x = bitStep^[n + 8] (x &&& 0xFF) ^^^ bitStep^[n] (x >>> 8) := by
  rw [Function.iterate_add_apply, bitStep_byte, bitStep_iterate_xor, table0, ← Function.iterate_add_apply]

theorem bitStep_word (k : ℕ) (x : UInt32) :
    bitStep^[8 * (k + 4)] x = tables (k + 3) (x &&& 0xFF) ^^^ tables (k + 2) ((x >>> 8) &&& 0xFF) ^^^
      tables (k + 1) ((x >>> 16) &&& 0xFF) ^^^ tables k (x >>> 24) := by
  have h16 : x >>> 8 >>> 8 = x >>> 16 := by
    apply UInt32.toBitVec_inj.mp
    simp [← BitVec.shiftRight_add]
  have h24 : x >>> 16 >>> 8 = x >>> 24 := by
    apply UInt32.toBitVec_inj.mp
    simp [← BitVec.shiftRight_add]
  rw [show 8 * (k + 4) = 8 * (k + 3) + 8 by ring, bitStep_split, show 8 * (k + 3) = 8 * (k + 2) + 8 by ring,
    bitStep_split _ (x >>> 8), h16, show 8 * (k + 2) = 8 * (k + 1) + 8 by ring, bitStep_split _ (x >>> 16), h24,
    tables_eq, tables_eq, tables_eq, tables_eq]
  simp only [UInt32.xor_assoc]
  rfl

theorem updateBytewise_eq (crc : UInt32) (bytes : Bytes) : updateBytewise crc bytes = bitSerial crc bytes := by
  induction bytes generalizing crc with
  | nil => rfl
  | cons b bs ih =>
    have hb : (crc ^^^ b.toUInt32) >>> 8 = crc >>> 8 := by
      apply UInt32.toBitVec_inj.mp
      apply BitVec.eq_of_getLsbD_eq
      intro i hi
      simp
    rw [← List.singleton_append, bitSerial_append, bitSerial_byte, bitStep_byte, hb]
    exact ih _

theorem word_bits (b0 b1 b2 b3 : UInt8) :
    ofBits 32 ([b0, b1, b2, b3].flatMap bitsOf) = (word b0 b1 b2 b3).toBitVec := by
  have hlen : ∀ b, (bitsOf b).length = 8 := fun b => by simp [bitsOf]
  simp only [List.flatMap_cons, List.flatMap_nil, ofBits_append, ofBits_bitsOf, hlen, word]
  apply BitVec.eq_of_getLsbD_eq
  intro i hi
  have hz : ∀ (b : UInt8) (j : ℕ), 8 ≤ j → b.toBitVec.getLsbD j = false :=
    fun b j hj => BitVec.getLsbD_of_ge _ _ hj
  simp only [ofBits, BitVec.getLsbD_xor, BitVec.getLsbD_or, BitVec.getLsbD_shiftLeft, UInt32.toBitVec_or]
  simp
  rcases (show i < 8 ∨ (8 ≤ i ∧ i < 16) ∨ (16 ≤ i ∧ i < 24) ∨ 24 ≤ i by omega) with h | ⟨h, h'⟩ | ⟨h, h'⟩ | h
  · have h16 : i < 16 := by omega
    have h24 : i < 24 := by omega
    simp [h, h16, h24, hi]
  · have h24 : i < 24 := by omega
    have hsub : i - 8 < 8 := by omega
    simp [h', h24, hi, hz _ _ h, hsub, not_lt.mpr h]
  · have h8 : ¬ i < 8 := by omega
    have hmid : ¬ i - 8 < 8 := by omega
    have hsub : i - 16 < 8 := by omega
    have heq : i - 8 - 8 = i - 16 := by omega
    have hle : i - 8 < 32 := by omega
    have hle' : i - 16 < 32 := by omega
    simp [h', hi, h8, hmid, hsub, heq, hle, hle', hz _ i (by omega), hz _ (i - 8) (by omega),
      not_lt.mpr h]
  · have h8 : ¬ i < 8 := by omega
    have h16 : ¬ i < 16 := by omega
    have hmid : ¬ i - 8 < 8 := by omega
    have hmid' : ¬ i - 16 < 8 := by omega
    have heq : i - 8 - 8 = i - 16 := by omega
    have heq' : i - 16 - 8 = i - 24 := by omega
    have hle : i - 8 < 32 := by omega
    have hle' : i - 16 < 32 := by omega
    simp [hi, h8, h16, hmid, hmid', heq, heq', hle, hle', hz _ i (by omega), hz _ (i - 8) (by omega),
      hz _ (i - 16) (by omega), not_lt.mpr h]

theorem bitSerial_word (crc : UInt32) (b0 b1 b2 b3 : UInt8) :
    bitSerial crc [b0, b1, b2, b3] = bitStep^[32] (crc ^^^ word b0 b1 b2 b3) := by
  have hlen : ([b0, b1, b2, b3].flatMap bitsOf).length = 32 := by simp [bitsOf]
  apply UInt32.toBitVec_inj.mp
  rw [bitSerial_toBitVec, crcBits_eq _ _ _ (by omega), hlen, word_bits, bitStep_iterate_toBitVec,
    UInt32.toBitVec_xor]

theorem updateSlice8_eq (crc : UInt32) (bytes : Bytes) : updateSlice8 crc bytes = bitSerial crc bytes := by
  fun_induction updateSlice8 crc bytes with
  | case1 crc b0 b1 b2 b3 b4 b5 b6 b7 rest lo hi ih =>
    have hsplit : b0 :: b1 :: b2 :: b3 :: b4 :: b5 :: b6 :: b7 :: rest =
        [b0, b1, b2, b3] ++ ([b4, b5, b6, b7] ++ rest) := rfl
    rw [ih, hsplit, bitSerial_append, bitSerial_append, bitSerial_word, bitSerial_word, bitStep_iterate_xor,
      ← Function.iterate_add_apply, UInt32.xor_comm crc]
    congr 1
    have hlo := bitStep_word 4 lo
    have hhi := bitStep_word 0 hi
    rw [show 32 + 32 = 8 * (4 + 4) from rfl, hlo]
    change _ = _ ^^^ bitStep^[8 * (0 + 4)] hi
    rw [hhi]
    simp only [UInt32.xor_assoc]
  | case2 crc rest => exact updateBytewise_eq _ _

def word64 (bytes : Bytes) : UInt64 := UInt64.ofNat (leValue bytes)

/-- The CRC32C instructions of ARMv8 and of SSE4.2: each performs the bit-serial step on the
little-endian bytes of its operand, and the last one extends its result with zeros. -/
structure CrcInstructions where
  crc32cb : UInt32 → UInt8 → UInt32
  crc32cd : UInt32 → UInt64 → UInt32
  mmCrc32U8 : UInt32 → UInt8 → UInt32
  mmCrc32U64 : UInt64 → UInt64 → UInt64
  crc32cb_eq : ∀ crc byte, crc32cb crc byte = bitSerial crc [byte]
  crc32cd_eq : ∀ crc word, crc32cd crc word = bitSerial crc (leBytes 8 word.toNat)
  mmCrc32U8_eq : ∀ crc byte, mmCrc32U8 crc byte = bitSerial crc [byte]
  mmCrc32U64_eq : ∀ crc word,
    mmCrc32U64 crc word = (bitSerial crc.toUInt32 (leBytes 8 word.toNat)).toUInt64

instance : Inhabited CrcInstructions :=
  ⟨⟨fun crc byte => bitSerial crc [byte], fun crc word => bitSerial crc (leBytes 8 word.toNat),
    fun crc byte => bitSerial crc [byte],
    fun crc word => (bitSerial crc.toUInt32 (leBytes 8 word.toNat)).toUInt64,
    fun _ _ => rfl, fun _ _ => rfl, fun _ _ => rfl, fun _ _ => rfl⟩⟩

def updateAarch64 (cpu : CrcInstructions) (crc : UInt32) : Bytes → UInt32
  | b0 :: b1 :: b2 :: b3 :: b4 :: b5 :: b6 :: b7 :: rest =>
    updateAarch64 cpu (cpu.crc32cd crc (word64 [b0, b1, b2, b3, b4, b5, b6, b7])) rest
  | rest => rest.foldl cpu.crc32cb crc

def updateX86Words (cpu : CrcInstructions) (crc : UInt64) : Bytes → UInt64 × Bytes
  | b0 :: b1 :: b2 :: b3 :: b4 :: b5 :: b6 :: b7 :: rest =>
    updateX86Words cpu (cpu.mmCrc32U64 crc (word64 [b0, b1, b2, b3, b4, b5, b6, b7])) rest
  | rest => (crc, rest)

def updateX86 (cpu : CrcInstructions) (crc : UInt32) (bytes : Bytes) : UInt32 :=
  let r := updateX86Words cpu crc.toUInt64 bytes
  r.2.foldl cpu.mmCrc32U8 r.1.toUInt32

inductive ChecksumPath
  | aarch64
  | x86
  | slice8
  | bytewise

def ChecksumPath.update (cpu : CrcInstructions) : ChecksumPath → UInt32 → Bytes → UInt32
  | .aarch64 => updateAarch64 cpu
  | .x86 => updateX86 cpu
  | .slice8 => updateSlice8
  | .bytewise => updateBytewise

def Crc32c.updateBy (cpu : CrcInstructions) (path : ChecksumPath) (h : Crc32c) (bytes : Bytes) : Crc32c :=
  ⟨path.update cpu h.state bytes⟩

theorem leBytes_word64 (bytes : Bytes) (h : bytes.length = 8) : leBytes 8 (word64 bytes).toNat = bytes := by
  have hlt := leValue_lt bytes
  have hb := leBytes_leValue bytes
  rw [h] at hlt hb
  rw [word64, UInt64.toNat_ofNat', Nat.mod_eq_of_lt (by simpa using hlt), hb]

theorem foldl_bitSerial {step : UInt32 → UInt8 → UInt32} (h : ∀ crc byte, step crc byte = bitSerial crc [byte])
    (crc : UInt32) (bytes : Bytes) : bytes.foldl step crc = bitSerial crc bytes := by
  induction bytes generalizing crc with
  | nil => rfl
  | cons b bs ih =>
    rw [List.foldl_cons, ih, h, ← List.singleton_append (l := bs), bitSerial_append]

theorem updateAarch64_eq (cpu : CrcInstructions) (crc : UInt32) (bytes : Bytes) :
    updateAarch64 cpu crc bytes = bitSerial crc bytes := by
  fun_induction updateAarch64 cpu crc bytes with
  | case1 crc b0 b1 b2 b3 b4 b5 b6 b7 rest ih =>
    rw [ih, cpu.crc32cd_eq, leBytes_word64 _ rfl, ← bitSerial_append]
    rfl
  | case2 crc rest => exact foldl_bitSerial cpu.crc32cb_eq _ _

theorem updateX86_eq (cpu : CrcInstructions) (crc : UInt32) (bytes : Bytes) :
    updateX86 cpu crc bytes = bitSerial crc bytes := by
  have hwords : ∀ (x : UInt64) (bs : Bytes), bitSerial (updateX86Words cpu x bs).1.toUInt32
      (updateX86Words cpu x bs).2 = bitSerial x.toUInt32 bs := by
    intro x bs
    fun_induction updateX86Words cpu x bs with
    | case1 x b0 b1 b2 b3 b4 b5 b6 b7 rest ih =>
      rw [ih, cpu.mmCrc32U64_eq, leBytes_word64 _ rfl, UInt32.toUInt32_toUInt64, ← bitSerial_append]
      rfl
    | case2 x rest => rfl
  rw [updateX86, foldl_bitSerial cpu.mmCrc32U8_eq, hwords, UInt32.toUInt32_toUInt64]

theorem ChecksumPath.update_eq (cpu : CrcInstructions) (path : ChecksumPath) (crc : UInt32)
    (bytes : Bytes) : path.update cpu crc bytes = bitSerial crc bytes := by
  cases path with
  | aarch64 => exact updateAarch64_eq cpu crc bytes
  | x86 => exact updateX86_eq cpu crc bytes
  | slice8 => exact updateSlice8_eq crc bytes
  | bytewise => exact updateBytewise_eq crc bytes

theorem updateBy_pieces (cpu : CrcInstructions) (pieces : List (ChecksumPath × Bytes)) (h : Crc32c) :
    (pieces.foldl (fun h u => h.updateBy cpu u.1 u.2) h).state =
      bitSerial h.state (pieces.flatMap Prod.snd) := by
  induction pieces generalizing h with
  | nil => rfl
  | cons u us ih =>
    rw [List.foldl_cons, ih, List.flatMap_cons, bitSerial_append]
    change bitSerial (u.1.update cpu h.state u.2) _ = _
    rw [u.1.update_eq]

theorem checksum_paths_agree (cpu : CrcInstructions) (crc : UInt32) (bytes : Bytes) :
    updateSlice8 crc bytes = updateBytewise crc bytes ∧
      updateBytewise crc bytes = bitSerial crc bytes ∧
      updateAarch64 cpu crc bytes = bitSerial crc bytes ∧
      updateX86 cpu crc bytes = bitSerial crc bytes ∧
      ∀ pieces : List (ChecksumPath × Bytes), pieces.flatMap Prod.snd = bytes →
        (pieces.foldl (fun h u => h.updateBy cpu u.1 u.2) Crc32c.new).finalize = crc32c bytes := by
  refine ⟨?_, updateBytewise_eq crc bytes, updateAarch64_eq cpu crc bytes, updateX86_eq cpu crc bytes, ?_⟩
  · rw [updateSlice8_eq, updateBytewise_eq]
  · rintro pieces rfl
    rw [crc32c, Crc32c.finalize, Crc32c.finalize, updateBy_pieces, Crc32c.update, updateSlice8_eq]

example : crc32c [0x31, 0x32, 0x33, 0x34, 0x35, 0x36, 0x37, 0x38, 0x39] = 0xE3069283 := by
  rw [crc32c]
  decide +kernel

end OxenDB
