import OxenDB.Database.Invariant

namespace OxenDB

open Lib

def Opened.created : Opened :=
  ⟨DiskManager.create, Wal.create.1, ⟨Wal.create.2, .none⟩, ⟨true, ⟨0, 0, 0⟩, none⟩⟩

def skipped (part : List Char) : Bool := part = [] ∨ part = ['.']

/-- `Path::file_name` with the parts before it, on a path whose separator is `/`. -/
def fileName (path : String) : Option (List (List Char) × List Char) :=
  match (path.toList.splitOn '/').reverse.dropWhile skipped with
  | [] => none
  | name :: parent => if name = ['.', '.'] then none else some (parent.reverse, name)

def withFileName (parent : List (List Char)) (name : List Char) : String :=
  match (parent.reverse.dropWhile skipped).reverse, parent with
  | [], [] :: _ => String.ofList ('/' :: name)
  | [], ['.'] :: _ => String.ofList ('.' :: '/' :: name)
  | dirs, _ => String.ofList (['/'].intercalate (dirs ++ [name]))

def walPathFor (path : String) : Except Error String :=
  match fileName path with
  | none => .error (.invalidArgument s!"{path} is not a file path")
  | some (parent, name) => .ok (withFileName parent (name ++ "-wal".toList))

example : walPathFor "/a/b/app.oxen" = .ok "/a/b/app.oxen-wal" := rfl

example : walPathFor "/" = .error (.invalidArgument "/ is not a file path") := rfl

structure DbPath where
  text : String
  wal : String
  named : walPathFor text = .ok wal

def DbPath.db : DbPath := ⟨"db", "db-wal", rfl⟩

namespace Database

/-- `Database::open` on the files that exist at `path` and at its `wal_path_for`. -/
def «open» (path : DbPath) (data wal : Option Bytes) (options : Options) : Except Error Database :=
  match data with
  | some data =>
    match openExisting data wal with
    | .error e => .error e
    | .ok o => assemble o options
  | none =>
    if options.createIfMissing = false then
      .error (.invalidArgument s!"database {path.text} does not exist")
    else if wal ≠ none then
      .error (.invalidArgument s!"{path.wal} exists but its database file {path.text} does not")
    else assemble .created options

def openPath (path : String) (data wal : Option Bytes) (options : Options) : Except Error Database :=
  match h : walPathFor path with
  | .error e => .error e
  | .ok walPath => Database.open ⟨path, walPath, h⟩ data wal options

theorem openPath_eq (path : String) (data wal : Option Bytes) (options : Options) :
    (∃ p : DbPath, p.text = path ∧ openPath path data wal options = Database.open p data wal options) ∨
      openPath path data wal options = .error (.invalidArgument s!"{path} is not a file path") := by
  rw [openPath]
  split
  · rename_i e he
    rw [walPathFor] at he
    split at he
    · cases he
      exact .inr rfl
    · cases he
  · rename_i walPath h
    exact .inl ⟨⟨path, walPath, h⟩, rfl, rfl⟩

end Database

structure NewFile where
  contents : Bytes
  synced : Bool
  entered : Bool

/-- What survives of an unsynced write: some of its bytes, in a file that need not reach its end. -/
def PartOf (left whole : Bytes) : Prop :=
  left.length ≤ whole.length ∧ ∀ i < left.length, left[i]? = whole[i]? ∨ left[i]? = some 0

def NewFile.Leaves (f : NewFile) (left : Option Bytes) : Prop :=
  (f.entered = false ∧ left = none) ∨
    ∃ bs, left = some bs ∧ if f.synced then bs = f.contents else PartOf bs f.contents

/-- The calls that `DiskManager::create` and `Wal::create` make for a file that begins with
`header`. -/
inductive NewFile.Step (header : Bytes) : Option NewFile → Option NewFile → Prop
  | createNew : Step header none (some ⟨[], false, false⟩)
  | write : Step header (some ⟨[], false, false⟩) (some ⟨header, false, false⟩)
  | syncAll : Step header (some ⟨header, false, false⟩) (some ⟨header, true, false⟩)
  | syncParentDir : Step header (some ⟨header, true, false⟩) (some ⟨header, true, true⟩)

def Whole (header : Bytes) (left : Option Bytes) : Prop := left = none ∨ left = some header

structure Creation where
  data : Option NewFile
  wal : Option NewFile

namespace Creation

inductive Step : Creation → Creation → Prop
  | data {s : Creation} {f : Option NewFile} : s.wal = none →
      NewFile.Step FileHeader.new.encode.data s.data f → Step s { s with data := f }
  | wal {s : Creation} {data : Bytes} {f : Option NewFile} : s.data = some ⟨data, true, true⟩ →
      NewFile.Step (encodeHeader 0) s.wal f → Step s { s with wal := f }

def Leaves (s : Creation) (data wal : Option Bytes) : Prop :=
  (match s.data with
    | none => data = none
    | some f => f.Leaves data) ∧
  match s.wal with
    | none => wal = none
    | some f => f.Leaves wal

def nothing : Creation := ⟨none, none⟩

def withoutWal (data : Bytes) : Creation := ⟨some ⟨data, true, true⟩, none⟩

end Creation

theorem page_size_new : FileHeader.new.encode.data.length = pageSize := FileHeader.new.encode.size

theorem header_of_slot {id : PageId} (h : slotOffset id + pageSize ≤ pageSize) : id = PageId.HEADER := by
  rw [slotOffset, pageSize] at h
  apply UInt64.toNat_inj.mp
  change id.toNat = 0
  omega

theorem header_of_lt_one {id : PageId} (h : id < 1) : id = PageId.HEADER := by
  have hlt := UInt64.lt_iff_toNat_lt.mp h
  apply UInt64.toNat_inj.mp
  change id.toNat = 0
  change id.toNat < 1 at hlt
  omega

theorem openedAs_created (page : PageId → Page) : OpenedAs .created ⟨1, page⟩ where
  count := rfl
  count_pos := by simp
  pages id hid := absurd (header_of_lt_one hid.2) hid.1
  slots id hid := by
    rw [header_of_lt_one hid, PageMap.slot_header]
    refine (readAt_some_iff _ _ _ _).mpr ⟨?_, ?_⟩
    · change 0 * pageSize + pageSize ≤ FileHeader.new.encode.data.length
      rw [page_size_new, Nat.zero_mul, Nat.zero_add]
    · have hwhole := slice_zero FileHeader.new.encode.data
      rwa [page_size_new] at hwhole
  synced id hid := by
    change _ ≤ FileHeader.new.encode.data.length at hid
    rw [page_size_new] at hid
    rw [header_of_slot hid]
    rfl
  notLost id := by
    change (if id = PageId.HEADER then SlotState.synced else .written) ≠ .lost
    split_ifs <;> decide
  headers := rfl
  bounded := by
    change FileHeader.new.encode.data.length ≤ maxFileSize
    rw [page_size_new]
    decide
  log := ⟨0, rfl, rfl⟩

theorem DiskManager.open_created : DiskManager.open FileHeader.new.encode.data = .ok DiskManager.create := by
  have ho := openedAs_created (fun _ => FileHeader.new.encode)
  have hopen := DiskManager.open_ok ho.count_pos ho.count_lt ho.slots
  refine hopen.trans (congrArg Except.ok ?_)
  rw [DiskManager.create, DiskManager.mk.injEq, DataFile.mk.injEq]
  refine ⟨⟨rfl, funext fun id => ?_, rfl⟩, rfl⟩
  by_cases hid : id = PageId.HEADER
  · subst hid
    rw [if_pos rfl, if_pos]
    exact (ho.slots PageId.HEADER (by decide) |> (readAt_some_iff _ _ _ _).mp).1
  · rw [if_neg hid, if_neg]
    intro hle
    change _ ≤ FileHeader.new.encode.data.length at hle
    rw [page_size_new] at hle
    exact hid (header_of_slot hle)

theorem PartOf.getD {f g : Bytes} (h : PartOf f g) (i : ℕ) : f.getD i 0 = g.getD i 0 ∨ f.getD i 0 = 0 := by
  rw [List.getD_eq_getElem?_getD, List.getD_eq_getElem?_getD]
  by_cases hi : i < f.length
  · rcases h.2 i hi with he | he
    · exact .inl (by rw [he])
    · exact .inr (by rw [he]; rfl)
  · exact .inr (by rw [List.getElem?_eq_none (Nat.le_of_not_lt hi)]; rfl)

theorem PartOf.field {f g v : Bytes} (h : PartOf f g) {off : ℕ} (hv : slice g off v.length = v) (k : ℕ)
    (hz : ∀ i < v.length, i ≠ k → v[i]? = some 0) :
    slice f off v.length = v ∨ slice f off v.length = List.replicate v.length 0 := by
  have hg : ∀ i < v.length, v[i]? = some (g.getD (off + i) 0) := by
    intro i hi
    rw [← slice_getElem? g off v.length i hi, hv]
  by_cases hk : f.getD (off + k) 0 = g.getD (off + k) 0
  · left
    rw [← hv, slice_length]
    apply slice_congr
    intro i hi
    by_cases hik : i = k
    · rw [hik, hk]
    · have hzero := Option.some_inj.mp ((hg i hi).symm.trans (hz i hi hik))
      rcases h.getD (off + i) with he | he
      · exact he
      · rw [he, hzero]
  · right
    apply List.ext_getElem?
    intro i
    by_cases hi : i < v.length
    · rw [slice_getElem? _ _ _ _ hi, List.getElem?_replicate, if_pos hi, Option.some_inj]
      rcases h.getD (off + i) with he | he
      · by_cases hik : i = k
        · rw [hik] at he
          exact absurd he hk
        · rw [he]
          exact Option.some_inj.mp ((hg i hi).symm.trans (hz i hi hik))
      · exact he
    · rw [List.getElem?_eq_none (by rw [slice_length]; omega),
        List.getElem?_eq_none (by rw [List.length_replicate]; omega)]

theorem FileHeader.eq_of_part {p : Page} {h : FileHeader} (hpart : PartOf p.data FileHeader.new.encode.data)
    (hd : FileHeader.decode p = .ok h) : p.data = FileHeader.new.encode.data := by
  obtain ⟨hmagic, hversion, hsize, hcount⟩ := FileHeader.new.encode_fields
  simp only [FileHeader.decode] at hd
  split_ifs at hd with h₁ h₂ h₃ h₄ h₅
  have hle : 4 ≤ p.data.length := by
    rw [p.size]
    decide
  have hle' : 4 ≤ FileHeader.new.encode.data.length := by
    rw [page_size_new]
    decide
  refine eq_of_sealed (not_not.mp h₂) (Page.seal_stored _) hle hle' ?_
  have hfield : slice p.data 20 8 = slice FileHeader.new.encode.data 20 8 := by
    rcases hpart.field (v := leBytes 8 FileHeader.new.pageCount.toNat) hcount 0 (by decide) with he | he
    · rw [hcount]
      exact he
    · have hzero : u64At p.data 20 = 0 := congrArg (fun bs => UInt64.ofNat (leValue bs)) he
      exact absurd hzero h₅
  have htail : slice p.data 28 4068 = slice FileHeader.new.encode.data 28 4068 := by
    have hz := FileHeader.new.encode_tail 4068
    rw [hz]
    rcases hpart.field (v := List.replicate 4068 0) (by rw [List.length_replicate]; exact hz) 0
      (fun i hi _ => by rw [List.length_replicate] at hi; rw [List.getElem?_replicate, if_pos hi]) with he | he
    · rwa [List.length_replicate] at he
    · rwa [List.length_replicate] at he
  have hbody : ∀ q : Page, q.data.drop 4 = slice q.data 4 8 ++ (slice q.data 12 4 ++ (slice q.data 16 4 ++
      (slice q.data 20 8 ++ slice q.data 28 4068))) := by
    intro q
    rw [slice_append _ 20, slice_append _ 16, slice_append _ 12, slice_append _ 4,
      slice_eq_drop _ _ _ (by rw [q.size]; rfl)]
  rw [hbody, hbody, hfield, htail, hmagic, hversion, hsize, not_not.mp h₁, ← leBytes_u32At p.data 12,
    not_not.mp h₃, ← leBytes_u32At p.data 16, not_not.mp h₄]

theorem decodeHeader_eq_of_part {bs : Bytes} {seq : UInt64} (hpart : PartOf bs (encodeHeader 0))
    (hd : decodeHeader bs = .ok seq) : bs = encodeHeader 0 := by
  have hbs : encodeHeader seq = bs := by
    rw [encodeHeader_of_decodeHeader hd, List.take_of_length_le (hpart.1.trans (encodeHeader_length 0).le)]
  have hzero : slice (encodeHeader 0) 16 8 = leBytes 8 0 := by
    rw [← leBytes_u64At, u64At_encodeHeader]
    rfl
  have hfield : slice bs 16 8 = slice (encodeHeader 0) 16 8 := by
    rcases hpart.field (v := leBytes 8 0) hzero 0 (by decide) with h | h
    · exact h.trans hzero.symm
    · exact h.trans hzero.symm
  have hseq : seq = 0 := by rw [← u64At_encodeHeader seq, hbs, u64At, hfield, ← u64At, u64At_encodeHeader]
  rw [← hbs, hseq]

theorem DiskManager.eq_of_part {bs : Bytes} {disk : DiskManager} (hpart : PartOf bs FileHeader.new.encode.data)
    (hd : DiskManager.open bs = .ok disk) : bs = FileHeader.new.encode.data := by
  obtain ⟨page, header, hpage, hdec, -⟩ := DiskManager.open_inv hd
  obtain ⟨bs', hread, hof⟩ := Option.bind_eq_some_iff.mp hpage
  obtain ⟨hle, hslice⟩ := (readAt_some_iff _ _ _ _).mp hread
  have hlen : bs.length = pageSize := le_antisymm (hpart.1.trans page_size_new.le) (by omega)
  have hdata : page.data = bs := by
    rw [Page.data_of_ofBytes hof, ← hslice, ← hlen, slice_zero]
  rw [← hdata] at hpart ⊢
  exact FileHeader.eq_of_part hpart hdec

theorem openExisting_empty (data : Bytes) (seq : UInt64) : ∃ report,
    openExisting data (some (encodeHeader seq)) = (DiskManager.open data).map (fun disk =>
      ⟨disk, ⟨walHeaderSize, [], seq, false⟩, ⟨encodeHeader seq, .none⟩, report⟩) := by
  obtain ⟨o, ho, hrec, hcontents, hwal⟩ := Wal.open_encoded [] seq [] (noRecord_nil _)
  simp only [encodeAll, List.append_nil] at ho hcontents
  have hreplay : replay data o.records = .ok (data, ⟨0, 0, 0⟩) := by
    rw [hrec]
    rfl
  have hreset : o.wal.reset o.contents = .ok (⟨walHeaderSize, [], seq, false⟩, encodeHeader seq) := by
    rw [hwal]
    simp only [Wal.reset, Wal.checkReset, Wal.checkPoisoned, writeAt_header]
    simp
  refine ⟨⟨false, ⟨0, 0, 0⟩, o.discarded⟩, ?_⟩
  simp only [openExisting, ho, hreplay, hreset]
  cases DiskManager.open data with
  | error e => rfl
  | ok disk => rfl

theorem openExisting_whole {data : Bytes} {wal : Option Bytes} {disk : DiskManager}
    (hd : DiskManager.open data = .ok disk) (hw : Whole (encodeHeader 0) wal) :
    ∃ report, openExisting data wal = .ok ⟨disk, Wal.create.1, ⟨Wal.create.2, .none⟩, report⟩ := by
  rcases hw with rfl | rfl
  · refine ⟨⟨false, ⟨0, 0, 0⟩, none⟩, ?_⟩
    simp only [openExisting, hd]
  · obtain ⟨report, ho⟩ := openExisting_empty data 0
    rw [hd] at ho
    exact ⟨report, ho⟩

theorem Database.assemble_ok (o : Opened) {options : Options} (hn : options.bufferPoolPages ≠ 0) :
    ∃ db, Database.assemble o options = .ok db := by
  cases hp : (BufferPool.new o.disk options.bufferPoolPages : Except Error (BufferPool Owner)) with
  | error e =>
    rw [BufferPool.new, if_neg hn] at hp
    cases hp
  | ok pool => exact ⟨_, by rw [Database.assemble, hp]⟩

def Database.smallest : Database :=
  ⟨⟨[Shard.new 1], .create⟩, none, Wal.create.1, ⟨Wal.create.2, .none⟩, 1, false, .free, [], [], 0, 0⟩

theorem Database.smallest_open : Database.open .db none none ⟨1, true, none⟩ = .ok smallest := rfl

theorem Database.smallest_idle {db : Database} (he : db.pool = smallest.pool) : ¬ db.Writing := by
  rintro ⟨x, hx, -⟩
  rw [he] at hx
  cases hx

theorem Database.smallest_starts : smallest.Starts ⟨1, fun _ => Page.zeroed⟩ :=
  ⟨.created, ⟨1, true, none⟩, openedAs_created _, rfl⟩

theorem Database.open_whole {data : Bytes} {wal : Option Bytes} {o : Opened} (path : DbPath)
    (options : Options) (ho : openExisting data none = .ok o) (hw : Whole (encodeHeader 0) wal) :
    Database.open path (some data) wal options = Database.assemble o options := by
  cases hd : DiskManager.open data with
  | error e =>
    simp only [openExisting, hd] at ho
    cases ho
  | ok disk =>
    simp only [openExisting, hd] at ho
    injection ho with ho
    obtain ⟨report, hopen⟩ := openExisting_whole hd hw
    simp only [Database.open, hopen, ← ho]
    rfl

theorem DiskManager.open_pos {data : Bytes} {disk : DiskManager} (h : DiskManager.open data = .ok disk) :
    disk.pageCount ≠ 0 := by
  obtain ⟨page, header, -, hd, -, hcount⟩ := DiskManager.open_inv h
  rw [hcount]
  exact FileHeader.decode_pos hd

theorem openExisting_log {data : Bytes} {wal : Option Bytes} {o : Opened}
    (h : openExisting data wal = .ok o) :
    o.disk.pageCount ≠ 0 ∧ ∃ seq, o.wal = ⟨walHeaderSize, [], seq, false⟩ ∧ o.walFile = ⟨encodeHeader seq, .none⟩ := by
  cases wal with
  | none =>
    cases hd : DiskManager.open data with
    | error e => simp only [openExisting, hd] at h; cases h
    | ok disk =>
      simp only [openExisting, hd] at h
      injection h with h
      rw [← h]
      exact ⟨DiskManager.open_pos hd, 0, rfl, rfl⟩
  | some wal =>
    cases hw : decodeHeader wal with
    | error e => simp only [openExisting, Wal.open, hw] at h; cases h
    | ok first =>
      simp only [openExisting, Wal.open, hw] at h
      cases hr : replay data (scan (wal.drop walHeaderSize) first).records with
      | error e => simp only [hr] at h; cases h
      | ok r =>
        simp only [hr] at h
        cases hd : DiskManager.open r.1 with
        | error e => simp only [hd] at h; cases h
        | ok disk =>
          simp only [hd, Wal.reset, Wal.checkReset, Wal.checkPoisoned, writeAt_header] at h
          injection h with h
          rw [← h]
          exact ⟨DiskManager.open_pos hd, _, rfl, rfl⟩

theorem Database.open_eq {path : DbPath} {data wal : Option Bytes} {options : Options} {db : Database}
    (h : Database.open path data wal options = .ok db) : ∃ disk n pool auto seq,
      disk.pageCount ≠ 0 ∧ BufferPool.new disk n = .ok pool ∧
      db = ⟨pool, auto, ⟨walHeaderSize, [], seq, false⟩, ⟨encodeHeader seq, .none⟩, 1, false, .free, [], [], 0, 0⟩ := by
  have hopened : ∃ o, Database.assemble o options = .ok db ∧ o.disk.pageCount ≠ 0 ∧
      ∃ seq, o.wal = ⟨walHeaderSize, [], seq, false⟩ ∧ o.walFile = ⟨encodeHeader seq, .none⟩ := by
    cases data with
    | none =>
      simp only [Database.open] at h
      split_ifs at h
      exact ⟨_, h, by decide, 0, rfl, rfl⟩
    | some data =>
      cases ho : openExisting data wal with
      | error e => simp only [Database.open, ho] at h; cases h
      | ok o =>
        simp only [Database.open, ho] at h
        exact ⟨o, h, openExisting_log ho⟩
  obtain ⟨o, ha, hpos, seq, hwal, hfile⟩ := hopened
  rw [Database.assemble, hwal, hfile] at ha
  cases hp : (BufferPool.new o.disk options.bufferPoolPages : Except Error (BufferPool Owner)) with
  | error e => rw [hp] at ha; cases ha
  | ok pool =>
    rw [hp] at ha
    injection ha with ha
    exact ⟨o.disk, _, pool, _, seq, hpos, hp, ha.symm⟩

theorem Database.open_files {path : DbPath} {data : Bytes} {wal : Option Bytes} {options : Options} {db : Database}
    (hp : ∀ bs, wal = some bs → PartOf bs (encodeHeader 0))
    (h : Database.open path (some data) wal options = .ok db) :
    Whole (encodeHeader 0) wal ∧ ∃ disk, DiskManager.open data = .ok disk := by
  have hopen : ∃ o, openExisting data wal = .ok o := by
    cases ho : openExisting data wal with
    | error e => simp only [Database.open, ho] at h; cases h
    | ok o => exact ⟨o, rfl⟩
  obtain ⟨o, ho⟩ := hopen
  cases wal with
  | none =>
    refine ⟨.inl rfl, ?_⟩
    cases hd : DiskManager.open data with
    | error e => simp only [openExisting, hd] at ho; cases ho
    | ok disk => exact ⟨disk, rfl⟩
  | some bs =>
    have hbs : bs = encodeHeader 0 := by
      cases hw : decodeHeader bs with
      | error e => simp only [openExisting, Wal.open, hw] at ho; cases ho
      | ok seq => exact decodeHeader_eq_of_part (hp bs rfl) hw
    refine ⟨.inr (congrArg some hbs), ?_⟩
    obtain ⟨report, hempty⟩ := openExisting_empty data 0
    rw [hbs, hempty] at ho
    cases hd : DiskManager.open data with
    | error e => rw [hd] at ho; cases ho
    | ok disk => exact ⟨disk, rfl⟩

namespace Creation

def Ordered (s : Creation) : Prop :=
  (∀ f, s.data = some f → f.synced = true → f.contents = FileHeader.new.encode.data) ∧
    (s.wal ≠ none → s.data = some ⟨FileHeader.new.encode.data, true, true⟩)

theorem Ordered.step {s s' : Creation} (h : s.Ordered) (hs : Step s s') : s'.Ordered := by
  cases hs with
  | data hw hf =>
    refine ⟨?_, fun hn => absurd hw hn⟩
    generalize s.data = d at hf
    cases hf with
    | createNew | write =>
      rintro f ⟨⟩ hf
      cases hf
    | syncAll | syncParentDir =>
      rintro f ⟨⟩ _
      rfl
  | @wal data f hd hf =>
    refine ⟨h.1, fun _ => ?_⟩
    have hdata : data = _ := h.1 _ hd rfl
    rw [← hdata]
    exact hd

theorem ordered_run {s : Creation} (h : Relation.ReflTransGen Step nothing s) : s.Ordered := by
  induction h with
  | refl => exact ⟨by rintro f ⟨⟩, fun hn => absurd rfl hn⟩
  | tail _ hs ih => exact ih.step hs

theorem withoutWal_data {data : Bytes} {s : Creation}
    (h : Relation.ReflTransGen Step (withoutWal data) s) : s.data = some ⟨data, true, true⟩ := by
  induction h with
  | refl => rfl
  | tail _ hs ih =>
    cases hs with
    | data hw hf =>
      rw [ih] at hf
      cases hf
    | wal hd hf => exact ih

theorem leaves_entered {s : Creation} {data : Bytes} {left wal : Option Bytes}
    (hs : s.data = some ⟨data, true, true⟩) (hl : s.Leaves left wal) : left = some data := by
  have hdata := hl.1
  rw [hs] at hdata
  rcases hdata with ⟨hf, -⟩ | ⟨bs, hbs, hc⟩
  · cases hf
  · rw [if_pos rfl] at hc
    rw [hbs, hc]

theorem leaves_data {s : Creation} {wal : Option Bytes} (hs : s.Ordered) (hl : s.Leaves none wal) :
    wal = none := by
  by_cases hw : s.wal = none
  · have hwal := hl.2
    rw [hw] at hwal
    exact hwal
  · cases leaves_entered (hs.2 hw) hl

def OfHeader (header : Bytes) (f : NewFile) : Prop := f.contents = header ∨ f.contents = [] ∧ f.synced = false

theorem ofHeader_step {header : Bytes} {f : Option NewFile} {g : NewFile} (h : NewFile.Step header f (some g)) :
    OfHeader header g := by
  cases h with
  | createNew => exact .inr ⟨rfl, rfl⟩
  | write | syncAll | syncParentDir => exact .inl rfl

theorem OfHeader.part {header bs : Bytes} {f : NewFile} (h : OfHeader header f) (hl : f.Leaves (some bs)) :
    PartOf bs header := by
  obtain ⟨-, hnone⟩ | ⟨bs', he, hleft⟩ := hl
  · cases hnone
  cases he
  rcases h with hh | ⟨hempty, hs⟩
  · rw [hh] at hleft
    split_ifs at hleft
    · rw [hleft]
      exact ⟨le_rfl, fun i _ => .inl rfl⟩
    · exact hleft
  · rw [hs, if_neg (by decide), hempty] at hleft
    have hbs : bs = [] := List.length_eq_zero_iff.mp (Nat.le_zero.mp hleft.1)
    rw [hbs]
    exact ⟨Nat.zero_le _, fun i hi => absurd hi (Nat.not_lt_zero i)⟩

theorem wal_run {s₀ s : Creation} (h : Relation.ReflTransGen Step s₀ s) (h₀ : s₀.wal = none) :
    ∀ f, s.wal = some f → OfHeader (encodeHeader 0) f := by
  induction h with
  | refl =>
    rw [h₀]
    rintro f ⟨⟩
  | tail _ hs ih =>
    cases hs with
    | data => exact ih
    | wal _ hf =>
      rintro f rfl
      exact ofHeader_step hf

theorem data_run {s : Creation} (h : Relation.ReflTransGen Step nothing s) :
    ∀ f, s.data = some f → OfHeader FileHeader.new.encode.data f := by
  induction h with
  | refl => rintro f ⟨⟩
  | tail _ hs ih =>
    cases hs with
    | data _ hf =>
      rintro f rfl
      exact ofHeader_step hf
    | wal => exact ih

theorem leaves_wal {s₀ s : Creation} {left : Option Bytes} {bs : Bytes} (h : Relation.ReflTransGen Step s₀ s)
    (h₀ : s₀.wal = none) (hl : s.Leaves left (some bs)) : PartOf bs (encodeHeader 0) := by
  have hwal := hl.2
  cases hs : s.wal with
  | none =>
    rw [hs] at hwal
    cases hwal
  | some f =>
    rw [hs] at hwal
    exact (wal_run h h₀ f hs).part hwal

theorem leaves_header {s : Creation} {bs : Bytes} {wal : Option Bytes} (h : Relation.ReflTransGen Step nothing s)
    (hl : s.Leaves (some bs) wal) : PartOf bs FileHeader.new.encode.data := by
  have hdata := hl.1
  cases hs : s.data with
  | none =>
    rw [hs] at hdata
    cases hdata
  | some f =>
    rw [hs] at hdata
    exact (data_run h f hs).part hdata

/-- After a crash during creation the next open succeeds exactly if every file that the crash left holds its
whole header, and then it returns what the interrupted one would have returned. -/
theorem open_after_crash {s : Creation} {left wal : Option Bytes} (path : DbPath) (options : Options)
    (hl : s.Leaves left wal) (hc : options.createIfMissing = true) (hn : options.bufferPoolPages ≠ 0) :
    (Relation.ReflTransGen Step nothing s →
      ((∃ db, Database.open path left wal options = .ok db) ↔
        Whole FileHeader.new.encode.data left ∧ Whole (encodeHeader 0) wal) ∧
      ∀ db, Database.open path left wal options = .ok db → ∀ page, db.Starts ⟨1, page⟩) ∧
    ∀ data o, Relation.ReflTransGen Step (withoutWal data) s → openExisting data none = .ok o →
      ((∃ db, Database.open path left wal options = .ok db) ↔ Whole (encodeHeader 0) wal) ∧
      ∀ db, Database.open path left wal options = .ok db → Database.assemble o options = .ok db := by
  refine ⟨fun hr => ?_, fun data o hr ho => ?_⟩
  · have hwhole : ∀ db, Database.open path left wal options = .ok db →
        Whole FileHeader.new.encode.data left ∧ Whole (encodeHeader 0) wal := by
      intro db hdb
      cases left with
      | none => exact ⟨.inl rfl, .inl (leaves_data (ordered_run hr) hl)⟩
      | some data =>
        obtain ⟨hwal, disk, hdisk⟩ := Database.open_files (fun bs hbs => leaves_wal hr rfl (hbs ▸ hl)) hdb
        exact ⟨.inr (congrArg some (DiskManager.eq_of_part (leaves_header hr hl) hdisk)), hwal⟩
    have hopen : Whole FileHeader.new.encode.data left → Whole (encodeHeader 0) wal →
        Database.open path left wal options = Database.assemble .created options := by
      rintro (rfl | rfl) hw
      · have hnone := leaves_data (ordered_run hr) hl
        simp [Database.open, hc, hnone]
      · obtain ⟨report, ho⟩ := openExisting_whole DiskManager.open_created (.inl rfl)
        exact (Database.open_whole path options ho hw).trans rfl
    refine ⟨⟨fun ⟨db, hdb⟩ => hwhole db hdb, fun ⟨hd, hw⟩ => ?_⟩, fun db hdb page => ?_⟩
    · rw [hopen hd hw]
      exact Database.assemble_ok .created hn
    · obtain ⟨hd, hw⟩ := hwhole db hdb
      rw [hopen hd hw] at hdb
      exact ⟨.created, options, openedAs_created page, hdb⟩
  · obtain rfl := leaves_entered (withoutWal_data hr) hl
    have hwhole : ∀ db, Database.open path (some data) wal options = .ok db → Whole (encodeHeader 0) wal :=
      fun db hdb => (Database.open_files (fun bs hbs => leaves_wal hr rfl (hbs ▸ hl)) hdb).1
    refine ⟨⟨fun ⟨db, hdb⟩ => hwhole db hdb, fun hw => ?_⟩, fun db hdb => ?_⟩
    · rw [Database.open_whole path options ho hw]
      exact Database.assemble_ok o hn
    · rwa [Database.open_whole path options ho (hwhole db hdb)] at hdb

theorem open_after_crash_synced :
    (∃ db, Database.open .db (some FileHeader.new.encode.data) none .default = .ok db) ∧
    ∃ db, Database.open .db (some FileHeader.new.encode.data) (some (encodeHeader 0)) .default = .ok db := by
  have hdata : (⟨some ⟨FileHeader.new.encode.data, true, false⟩, none⟩ : Creation).Leaves
      (some FileHeader.new.encode.data) none := ⟨.inr ⟨_, rfl, rfl⟩, rfl⟩
  have hwal : (⟨some ⟨FileHeader.new.encode.data, true, true⟩, some ⟨encodeHeader 0, true, false⟩⟩ :
      Creation).Leaves (some FileHeader.new.encode.data) (some (encodeHeader 0)) :=
    ⟨.inr ⟨_, rfl, rfl⟩, .inr ⟨_, rfl, rfl⟩⟩
  obtain ⟨report, ho⟩ := openExisting_whole DiskManager.open_created (.inl rfl)
  constructor
  · have hrun : Relation.ReflTransGen Step nothing _ :=
      ((Relation.ReflTransGen.refl.tail (.data rfl .createNew)).tail (.data rfl .write)).tail (.data rfl .syncAll)
    exact ((open_after_crash .db .default hdata rfl (by decide)).1 hrun).1.mpr ⟨.inr rfl, .inl rfl⟩
  · have hrun : Relation.ReflTransGen Step (withoutWal FileHeader.new.encode.data) _ :=
      ((Relation.ReflTransGen.refl.tail (.wal rfl .createNew)).tail (.wal rfl .write)).tail (.wal rfl .syncAll)
    exact ((open_after_crash .db .default hwal rfl (by decide)).2 FileHeader.new.encode.data _ hrun ho).1.mpr
      (.inr rfl)

/-- A crash before the first fsync of either file can leave it empty, and then every open fails. -/
theorem empty_file_unopenable :
    (∃ s, Relation.ReflTransGen Step nothing s ∧ s.Leaves (some []) none ∧
      ∀ path options, Database.open path (some []) none options =
        .error (.unsupportedFormat "file is 0 bytes, too small to be an oxenDB database")) ∧
    ∀ data, ∃ s, Relation.ReflTransGen Step (withoutWal data) s ∧ s.Leaves (some data) (some []) ∧
      ∀ path options, Database.open path (some data) (some []) options =
        .error (.unsupportedFormat "not an oxenDB WAL file") := by
  have hpart : PartOf [] [] := ⟨le_rfl, fun i hi => absurd hi (Nat.not_lt_zero i)⟩
  refine ⟨⟨_, Relation.ReflTransGen.refl.tail (.data rfl .createNew), ⟨.inr ⟨[], rfl, hpart⟩, rfl⟩,
    fun path options => rfl⟩, fun data => ⟨_, Relation.ReflTransGen.refl.tail (.wal rfl .createNew),
    ⟨.inr ⟨data, rfl, rfl⟩, .inr ⟨[], rfl, hpart⟩⟩, fun path options => rfl⟩⟩

end Creation

end OxenDB
