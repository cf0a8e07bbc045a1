import OxenDB.Checksum
import OxenDB.Error

namespace OxenDB

open Lib

def pageSize : ℕ := 4096

abbrev PageId := UInt64

def PageId.HEADER : PageId := 0

/-- `id * PAGE_SIZE` in `u64` arithmetic, wrapping as in a release build. -/
def fileOffset (id : PageId) : UInt64 := id * 4096

def pageName (id : PageId) : String := s!"page {id}"

def u32At (bs : Bytes) (off : ℕ) : UInt32 := UInt32.ofNat (leValue (slice bs off 4))

def u64At (bs : Bytes) (off : ℕ) : UInt64 := UInt64.ofNat (leValue (slice bs off 8))

inductive PageType
  | free
  | heap
  deriving DecidableEq, Repr

def PageType.code : PageType → UInt8
  | .free => 1
  | .heap => 2

def PageType.tryFrom (value : UInt8) : Except UInt8 PageType :=
  if value = 1 then .ok .free else if value = 2 then .ok .heap else .error value

structure PageHeader where
  pageType : PageType
  pageId : PageId
  lsn : UInt64
  deriving DecidableEq, Repr

@[ext] structure Page where
  data : Bytes
  size : data.length = pageSize
  deriving DecidableEq

def Page.zeroed : Page := ⟨List.replicate pageSize 0, by simp⟩

def Page.patch (p : Page) (off : ℕ) (bs : Bytes) (h : off + bs.length ≤ pageSize) : Page :=
  ⟨writeAt p.data off bs, by
    by_cases hb : bs = []
    · simp [hb, p.size]
    · rw [writeAt_length _ _ _ hb, p.size]; omega⟩

def Page.new (id : PageId) (ty : PageType) : Page :=
  (Page.zeroed.patch 4 [ty.code] (by simp [pageSize])).patch 8 (leBytes 8 id.toNat) (by simp [pageSize])

def Page.pageId (p : Page) : PageId := u64At p.data 8

def pageHeaderSize : ℕ := 24

def Page.setLsn (p : Page) (lsn : UInt64) : Page := p.patch 16 (leBytes 8 lsn.toNat) (by simp [pageSize])

def Page.payload (p : Page) : Bytes := p.data.drop pageHeaderSize

def Page.setPayload (p : Page) (off : ℕ) (bs : Bytes) (h : pageHeaderSize + off + bs.length ≤ pageSize) : Page :=
  p.patch (pageHeaderSize + off) bs h

def Page.body (p : Page) : Bytes := p.data.drop 4

def Page.seal (p : Page) : Page :=
  ⟨leBytes 4 (crc32c (p.data.drop 4)).toNat ++ p.data.drop 4, by
    have := p.size
    simp only [List.length_append, leBytes_length, List.length_drop, pageSize] at *
    omega⟩

def Page.decodeHeader (p : Page) (expected : PageId) : Except Error PageHeader :=
  match PageType.tryFrom (p.data.getD 4 0) with
  | .error raw => .error (.corruption s!"{pageName expected}: unknown page type {raw}")
  | .ok ty =>
    if (slice p.data 5 3).any (· ≠ 0) then
      .error (.corruption s!"{pageName expected}: reserved header bytes are set")
    else .ok ⟨ty, u64At p.data 8, u64At p.data 16⟩

def Page.verify (p : Page) (expected : PageId) : Except Error PageHeader :=
  let stored := u32At p.data 0
  let actual := crc32c (p.data.drop 4)
  if stored ≠ actual then
    .error (.corruption
      s!"{pageName expected}: checksum mismatch (stored {hex32 stored}, computed {hex32 actual})")
  else
    match p.decodeHeader expected with
    | .error e => .error e
    | .ok header =>
      if header.pageId ≠ expected then
        .error (.corruption s!"{pageName expected}: header says it is {pageName header.pageId}")
      else .ok header

@[simp] theorem Page.seal_body (p : Page) : p.seal.body = p.body := by
  simp [Page.seal, Page.body]

theorem Page.seal_congr {p q : Page} (h : p.body = q.body) : p.seal = q.seal := by
  apply Page.ext
  simp only [Page.seal, Page.body] at *
  rw [h]

@[simp] theorem Page.seal_seal (p : Page) : p.seal.seal = p.seal := Page.seal_congr p.seal_body

theorem Page.seal_getD (p : Page) (i : ℕ) (h : 4 ≤ i) : p.seal.data.getD i 0 = p.data.getD i 0 := by
  simp only [Page.seal, List.getD_eq_getElem?_getD]
  rw [List.getElem?_append_right (by simpa using h), leBytes_length, List.getElem?_drop]
  congr 2
  omega

theorem Page.seal_slice (p : Page) (off n : ℕ) (h : 4 ≤ off) :
    slice p.seal.data off n = slice p.data off n :=
  slice_congr _ _ _ _ (fun i _ => p.seal_getD _ (by omega))

@[simp] theorem Page.seal_pageId (p : Page) : p.seal.pageId = p.pageId := by
  rw [Page.pageId, u64At, p.seal_slice 8 8 (by omega)]
  rfl

@[simp] theorem Page.seal_decodeHeader (p : Page) (id : PageId) :
    p.seal.decodeHeader id = p.decodeHeader id := by
  simp only [Page.decodeHeader, u64At, p.seal_getD 4 (by omega), p.seal_slice 5 3 (by omega),
    p.seal_slice 8 8 (by omega), p.seal_slice 16 8 (by omega)]

theorem u32At_leBytes (x : UInt32) (bs : Bytes) : u32At (leBytes 4 x.toNat ++ bs) 0 = x := by
  have hs : slice (leBytes 4 x.toNat ++ bs) 0 4 = leBytes 4 x.toNat := by
    apply List.ext_getElem?
    intro i
    by_cases hi : i < 4
    · rw [slice_getElem? _ _ _ _ hi, Nat.zero_add, List.getD_eq_getElem?_getD,
        List.getElem?_append_left (by simpa using hi), List.getElem?_eq_getElem (by simpa using hi),
        Option.getD_some]
    · rw [List.getElem?_eq_none (by simp; omega), List.getElem?_eq_none (by simp; omega)]
  rw [u32At, hs, leValue_leBytes]
  apply UInt32.toNat_inj.mp
  rw [UInt32.toNat_ofNat']
  have := x.toNat_lt
  omega

theorem Page.seal_stored (p : Page) : u32At p.seal.data 0 = crc32c (p.seal.data.drop 4) := by
  have hd : p.seal.data.drop 4 = p.data.drop 4 := p.seal_body
  rw [hd]
  exact u32At_leBytes _ _

theorem leBytes_u32At (bs : Bytes) (off : ℕ) : leBytes 4 (u32At bs off).toNat = slice bs off 4 := by
  have hlt := leValue_lt (slice bs off 4)
  rw [slice_length] at hlt
  rw [u32At, UInt32.toNat_ofNat', Nat.mod_eq_of_lt (by simpa using hlt), leBytes_leValue_slice]

theorem leBytes_u64At (bs : Bytes) (off : ℕ) : leBytes 8 (u64At bs off).toNat = slice bs off 8 := by
  have hlt := leValue_lt (slice bs off 8)
  rw [slice_length] at hlt
  rw [u64At, UInt64.toNat_ofNat', Nat.mod_eq_of_lt (by simpa using hlt), leBytes_leValue_slice]

theorem eq_of_sealed {f g : Bytes} (hf : u32At f 0 = crc32c (f.drop 4)) (hg : u32At g 0 = crc32c (g.drop 4))
    (hl : 4 ≤ f.length) (hl' : 4 ≤ g.length) (h : f.drop 4 = g.drop 4) : f = g := by
  have hstart : f.take 4 = g.take 4 := by
    have hf' := leBytes_u32At f 0
    have hg' := leBytes_u32At g 0
    rw [slice_eq_take_drop _ _ _ (by omega), List.drop_zero] at hf' hg'
    rw [← hf', ← hg', hf, hg, h]
  rw [← List.take_append_drop 4 f, hstart, h, List.take_append_drop]

theorem zeroed_getD (i : ℕ) : Page.zeroed.data.getD i 0 = 0 := by
  change (List.replicate pageSize 0).getD i 0 = 0
  rw [List.getD_eq_getElem?_getD, List.getElem?_replicate]
  split_ifs <;> rfl

theorem Page.seal_eq_of_stored (p : Page) (h : u32At p.data 0 = crc32c (p.data.drop 4)) :
    p.seal = p := by
  have hle : 0 + 4 ≤ p.data.length := by
    rw [p.size]
    decide
  apply Page.ext
  change leBytes 4 (crc32c (p.data.drop 4)).toNat ++ p.data.drop 4 = p.data
  rw [← h, leBytes_u32At, slice_eq_take_drop _ _ _ hle, List.drop_zero, List.take_append_drop]

theorem Page.verify_ok_iff (p : Page) (id : PageId) :
    (∃ h, p.verify id = .ok h) ↔
      p.seal = p ∧ p.pageId = id ∧ ∃ h, p.decodeHeader id = .ok h := by
  have hid : ∀ h, p.decodeHeader id = .ok h → h.pageId = p.pageId := by
    intro h hd
    unfold Page.decodeHeader at hd
    split at hd
    · cases hd
    · split at hd
      · cases hd
      · cases hd; rfl
  constructor
  · rintro ⟨h, hv⟩
    unfold Page.verify at hv
    dsimp only at hv
    split at hv
    · cases hv
    · rename_i hs
      split at hv
      · cases hv
      · rename_i header hd
        split at hv
        · cases hv
        · rename_i hne
          exact ⟨p.seal_eq_of_stored (not_not.mp hs), (hid _ hd).symm.trans (not_not.mp hne), _, hd⟩
  · rintro ⟨hs, hi, h, hd⟩
    refine ⟨h, ?_⟩
    have hst : u32At p.data 0 = crc32c (p.data.drop 4) := by rw [← hs]; exact p.seal_stored
    simp [Page.verify, hst, hd, hid h hd, hi]

def Page.Valid (p : Page) (id : PageId) : Prop := ∃ h, p.verify id = .ok h

theorem Page.Valid.seal_eq {p : Page} {id : PageId} (h : p.Valid id) : p.seal = p :=
  ((p.verify_ok_iff id).mp h).1

theorem Page.Valid.pageId_eq {p : Page} {id : PageId} (h : p.Valid id) : p.pageId = id :=
  ((p.verify_ok_iff id).mp h).2.1

theorem u64At_leBytes (f : Bytes) (off : ℕ) (x : UInt64) :
    u64At (writeAt f off (leBytes 8 x.toNat)) off = x := by
  have hs := slice_writeAt_same f off (leBytes 8 x.toNat)
  rw [leBytes_length] at hs
  rw [u64At, hs, leValue_leBytes]
  apply UInt64.toNat_inj.mp
  rw [UInt64.toNat_ofNat']
  have := x.toNat_lt
  omega

theorem Page.new_pageId (id : PageId) (ty : PageType) : (Page.new id ty).pageId = id :=
  u64At_leBytes _ _ _

theorem Page.zeroed_getD (i : ℕ) : Page.zeroed.data.getD i 0 = 0 := by
  simp only [Page.zeroed, List.getD_eq_getElem?_getD, List.getElem?_replicate]
  split <;> rfl

theorem Page.new_getD (id : PageId) (ty : PageType) (i : ℕ) (hi : i < 8) :
    (Page.new id ty).data.getD i 0 = if i = 4 then ty.code else 0 := by
  have h8 : ¬ (8 ≤ i ∧ i < 8 + (leBytes 8 id.toNat).length) := by omega
  simp only [Page.new, Page.patch, writeAt_getD, if_neg h8, List.length_singleton]
  by_cases h4 : i = 4
  · subst h4; simp
  · rw [if_neg (by omega), if_neg h4, Page.zeroed_getD]

theorem Page.new_valid (id : PageId) (ty : PageType) : (Page.new id ty).seal.Valid id := by
  refine ((Page.new id ty).seal.verify_ok_iff id).mpr
    ⟨Page.seal_seal _, by rw [Page.seal_pageId, Page.new_pageId], ?_⟩
  have hr : ∀ b ∈ slice (Page.new id ty).data 5 3, b = 0 := by
    intro b hb
    unfold slice at hb
    obtain ⟨i, hi, rfl⟩ := List.mem_map.mp hb
    have := List.mem_range.mp hi
    rw [Page.new_getD id ty _ (by omega), if_neg (by omega)]
  have hany : (slice (Page.new id ty).data 5 3).any (· ≠ 0) = false := by
    rw [List.any_eq_false]
    intro b hb
    simpa using hr b hb
  have hty : PageType.tryFrom ty.code = .ok ty := by cases ty <;> rfl
  rw [Page.seal_decodeHeader, Page.decodeHeader, Page.new_getD id ty 4 (by omega), if_pos rfl, hty]
  simp only [hany, Bool.false_eq_true, ↓reduceIte]
  exact ⟨_, rfl⟩

theorem Page.zeroed_patch {bs : Bytes} (h : 0 + bs.length ≤ pageSize) (hlen : bs.length = pageSize) :
    (Page.zeroed.patch 0 bs h).data = bs := by
  apply writeAt_zero
  · rintro rfl
    simp [pageSize] at hlen
  · simp [Page.zeroed, hlen]

end OxenDB
