import OxenDB.Page

namespace OxenDB

open Lib

def magic : Bytes := [0x6f, 0x78, 0x65, 0x6e, 0x44, 0x42, 0, 0]

def formatVersion : UInt32 := 1

structure FileHeader where
  pageCount : UInt64
  deriving DecidableEq, Repr

def FileHeader.new : FileHeader := ⟨1⟩

/-- The checksum stored last is the one `Page::seal` stores. -/
def FileHeader.encode (h : FileHeader) : Page :=
  ((((Page.zeroed.patch 4 magic (by decide)).patch 12 (leBytes 4 formatVersion.toNat) (by decide)).patch
    16 (leBytes 4 pageSize) (by decide)).patch
    20 (leBytes 8 h.pageCount.toNat) (by simp [pageSize])).seal

def FileHeader.decode (page : Page) : Except Error FileHeader :=
  let stored := u32At page.data 0
  let actual := crc32c (page.data.drop 4)
  let version := u32At page.data 12
  let size := u32At page.data 16
  let count := u64At page.data 20
  if slice page.data 4 8 ≠ magic then .error (.unsupportedFormat "not an oxenDB database file")
  else if stored ≠ actual then
    .error (.corruption
      s!"file header checksum mismatch (stored {hex32 stored}, computed {hex32 actual})")
  else if version ≠ formatVersion then
    .error (.unsupportedFormat
      s!"file format version {version}, this build supports version {formatVersion}")
  else if size.toNat ≠ pageSize then
    .error (.unsupportedFormat s!"page size {size}, this build supports {pageSize}")
  else if count = 0 then .error (.corruption "file header reports zero pages")
  else .ok ⟨count⟩

theorem FileHeader.encode_fields (h : FileHeader) :
    slice h.encode.data 4 8 = magic ∧
      slice h.encode.data 12 4 = leBytes 4 formatVersion.toNat ∧
      slice h.encode.data 16 4 = leBytes 4 pageSize ∧
      slice h.encode.data 20 8 = leBytes 8 h.pageCount.toNat := by
  let w1 := writeAt Page.zeroed.data 4 magic
  let w2 := writeAt w1 12 (leBytes 4 formatVersion.toNat)
  let w3 := writeAt w2 16 (leBytes 4 pageSize)
  let w4 := writeAt w3 20 (leBytes 8 h.pageCount.toNat)
  have hseal : ∀ off n, 4 ≤ off → slice h.encode.data off n = slice w4 off n :=
    fun off n ho => Page.seal_slice _ off n ho
  have h4 : ∀ off n, off + n ≤ 20 → slice w4 off n = slice w3 off n :=
    fun off n ho => slice_writeAt_disjoint _ _ _ _ _ (Or.inl ho)
  have h3 : ∀ off n, off + n ≤ 16 → slice w3 off n = slice w2 off n :=
    fun off n ho => slice_writeAt_disjoint _ _ _ _ _ (Or.inl ho)
  have h2 : ∀ off n, off + n ≤ 12 → slice w2 off n = slice w1 off n :=
    fun off n ho => slice_writeAt_disjoint _ _ _ _ _ (Or.inl ho)
  refine ⟨?_, ?_, ?_, ?_⟩
  · rw [hseal _ _ (by omega), h4 _ _ (by omega), h3 _ _ (by omega), h2 _ _ (by omega)]
    exact slice_writeAt_same Page.zeroed.data 4 magic
  · rw [hseal _ _ (by omega), h4 _ _ (by omega), h3 _ _ (by omega)]
    exact slice_writeAt_same w1 12 (leBytes 4 formatVersion.toNat)
  · rw [hseal _ _ (by omega), h4 _ _ (by omega)]
    exact slice_writeAt_same w2 16 (leBytes 4 pageSize)
  · rw [hseal _ _ (by omega)]
    simpa only [leBytes_length] using slice_writeAt_same w3 20 (leBytes 8 h.pageCount.toNat)

theorem FileHeader.encode_tail (h : FileHeader) (n : ℕ) : slice h.encode.data 28 n = List.replicate n 0 := by
  let w1 := writeAt Page.zeroed.data 4 magic
  let w2 := writeAt w1 12 (leBytes 4 formatVersion.toNat)
  let w3 := writeAt w2 16 (leBytes 4 pageSize)
  have h4 : slice (writeAt w3 20 (leBytes 8 h.pageCount.toNat)) 28 n = slice w3 28 n :=
    slice_writeAt_disjoint _ _ _ _ _ (.inr (by rw [leBytes_length]))
  have h3 : slice w3 28 n = slice w2 28 n :=
    slice_writeAt_disjoint _ _ _ _ _ (.inr (by rw [leBytes_length]; omega))
  have h2 : slice w2 28 n = slice w1 28 n :=
    slice_writeAt_disjoint _ _ _ _ _ (.inr (by rw [leBytes_length]; omega))
  have h1 : slice w1 28 n = slice Page.zeroed.data 28 n :=
    slice_writeAt_disjoint _ _ _ _ _ (.inr (by decide))
  refine (Page.seal_slice _ 28 n (by omega)).trans (h4.trans (h3.trans (h2.trans (h1.trans ?_))))
  apply List.ext_getElem?
  intro i
  by_cases hi : i < n
  · rw [slice_getElem? _ _ _ _ hi, List.getElem?_replicate, if_pos hi, zeroed_getD]
  · rw [List.getElem?_eq_none (by rw [slice_length]; omega),
      List.getElem?_eq_none (by rw [List.length_replicate]; omega)]

theorem FileHeader.encode_pageCount (h : FileHeader) : u64At h.encode.data 20 = h.pageCount := by
  rw [u64At, h.encode_fields.2.2.2, leValue_leBytes]
  apply UInt64.toNat_inj.mp
  rw [UInt64.toNat_ofNat']
  have := h.pageCount.toNat_lt
  omega

theorem FileHeader.decode_encode (h : FileHeader) (hn : h.pageCount ≠ 0) :
    FileHeader.decode h.encode = .ok h := by
  obtain ⟨hm, hv, hs, -⟩ := h.encode_fields
  have hver : u32At h.encode.data 12 = formatVersion := by rw [u32At, hv]; decide
  have hsz : (u32At h.encode.data 16).toNat = pageSize := by rw [u32At, hs]; decide
  have hst : u32At h.encode.data 0 = crc32c (h.encode.data.drop 4) := Page.seal_stored _
  simp [FileHeader.decode, hm, hst, hver, hsz, h.encode_pageCount, hn]

theorem FileHeader.decode_pageCount {page : Page} {h : FileHeader} (hd : FileHeader.decode page = .ok h) :
    h.pageCount = u64At page.data 20 := by
  simp only [FileHeader.decode] at hd
  split_ifs at hd
  injection hd with hd
  rw [← hd]

theorem FileHeader.decode_pos {page : Page} {h : FileHeader} (hd : FileHeader.decode page = .ok h) :
    h.pageCount ≠ 0 := by
  simp only [FileHeader.decode] at hd
  split_ifs at hd with _ _ _ _ hc
  intro hz
  injection hd with hd
  exact hc (by rw [← hz, ← hd])

end OxenDB
