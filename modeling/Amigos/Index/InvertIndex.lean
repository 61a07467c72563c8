import Mathlib.Data.List.Forall2
import Amigos.Common.Words
import Amigos.Index.Storage
import Amigos.Indexer.Merge

/-!
# Loading an index file (`InvertIndex::configure`)

The table `_invIdx` says for every item of the index file its token, where its entries begin and
how many there are. There are two loaders. The plain one walks through the file and skips the
entries by their sizes; the optimised one is told by the position file where each item begins.
`getEntries` later reads the entries of an item from where the table says they are, and
`findTknIdx` looks a word up by its hash.

All of them are put against one description of the table, `table`, which is a function of the
items: `readInvIdx_eq` and `readInvIdxOpt_eq` say that both loaders compute it, `findTknIdx_eq` that
the search finds the first item with a token, `getEntries_eq` that the offsets lead to the entries.
-/

set_option autoImplicit false

namespace Amigos.Index

open Amigos.Lib
open Amigos.Common

/-! ## The source -/

/-- What `InvertIndex` holds, but for its document database. -/
structure InvertIndex where
  invIdx : List InvIdxItem
  invIdxStream : IStream
  postingStore : PostingStorage
  docStore : DocStorage
  deriving DecidableEq, Repr

/-- `_readInvIdxItemOpt`; `size` is that of `_invIdx`. -/
def readInvIdxItemOpt (size : Nat) (ifs ifsForOpt : IStream) :
    Option (InvIdxItem × IStream × IStream) := do
  let (offset, ifsForOpt) ← readFrom ifsForOpt (α := UInt64)
  let ifs := ifs.seek offset.toNat
  let (tokId, ifs) ← readFrom ifs
  let offset := UInt64.ofNat ifs.pos
  let (entriesCnt, ifs) ← readFrom ifs
  return ({ tokId, offset, idf := { size, entriesCnt } }, ifs, ifsForOpt)

/-- The loop of `_readInvIdxItem`: skip `n` entries. -/
def skipEntries : Nat → IStream → Option IStream
  | 0, ifs => some ifs
  | n + 1, ifs => do
    let (size, ifs) ← readFrom ifs (α := UInt8)
    skipEntries n (ifs.seek (ifs.pos + (2 * size.toNat + 1 + 8 + 4)))

/-- `_readInvIdxItem`. -/
def readInvIdxItem (size : Nat) (ifs : IStream) : Option (InvIdxItem × IStream) := do
  let (tokId, ifs) ← readFrom ifs
  let offset := UInt64.ofNat ifs.pos
  let (entriesCnt, ifs) ← readFrom ifs (α := UInt32)
  let ifs ← skipEntries entriesCnt.toNat ifs
  return ({ tokId, offset, idf := { size, entriesCnt } }, ifs)

/-- The loop of `configure` without a position file, for the `n` items that are left. -/
def readInvIdx (size : Nat) : Nat → IStream → Option (List InvIdxItem × IStream)
  | 0, ifs => some ([], ifs)
  | n + 1, ifs => do
    let (item, ifs) ← readInvIdxItem size ifs
    let (items, ifs) ← readInvIdx size n ifs
    return (item :: items, ifs)

/-- The loop of `configure` with a position file. -/
def readInvIdxOpt (size : Nat) : Nat → IStream → IStream → Option (List InvIdxItem × IStream)
  | 0, ifs, _ => some ([], ifs)
  | n + 1, ifs, ifsForOpt => do
    let (item, ifs, ifsForOpt) ← readInvIdxItemOpt size ifs ifsForOpt
    let (items, ifs) ← readInvIdxOpt size n ifs ifsForOpt
    return (item :: items, ifs)

/-- The part of `configure` that fills `_invIdx`; `posFile` is read only if the configuration
names it. -/
def loadInvIdx (config : Config) (indexFile posFile : Bytes) :
    Option (List InvIdxItem × IStream) := do
  let (size, ifs) ← readFromEnd ⟨indexFile, 0⟩
  if config.invertIndexIPosFile.isEmpty then readInvIdx size.toNat size.toNat ifs
  else readInvIdxOpt size.toNat size.toNat ifs ⟨posFile, 0⟩

def InvertIndex.getEntries (ii : InvertIndex) (tknIdx : UInt32) (res : List Entry) :
    Option (List Entry × InvertIndex) := do
  let item ← ii.invIdx[tknIdx.toNat]?
  let (res, ifs) ← readEntries (ii.invIdxStream.seek item.offset.toNat) res
  return (res, { ii with invIdxStream := ifs })

def unexistingToken : UInt32 := -1

/-- `findTknIdx`; it looks at the position found, also where that is the end of the table. -/
def InvertIndex.findTknIdx (ii : InvertIndex) (word : Bytes) : Option UInt32 := do
  let tokId := murmurHash2 word
  let pos := UInt32.ofNat (← lowerBound (fun item => decide (item.tokId < tokId)) ii.invIdx)
  let item ← ii.invIdx[pos.toNat]?
  return if item.tokId = tokId then pos else unexistingToken

def InvertIndex.getIDF (ii : InvertIndex) (tknIdx : UInt32) : Option Idf := do
  let item ← ii.invIdx[tknIdx.toNat]?
  return item.idf

def InvertIndex.getDocId (ii : InvertIndex) (entry : Entry) : Option UInt32 :=
  ii.docStore.getDocId entry.docIdOffset

def InvertIndex.getNZone (ii : InvertIndex) (entry : Entry) (nZoneId : UInt8) : Option UInt32 :=
  ii.docStore.getNumZone entry.docIdOffset nZoneId

/-! ## The table of a file -/

/-- The items of an index file, as any loader should see them: the first one begins at `base`,
and its entries behind its token. -/
def tableFrom (size base : Nat) : List IdxItem → List InvIdxItem
  | [] => []
  | it :: items =>
    { tokId := it.token
      offset := UInt64.ofNat (base + 4)
      idf := { size, entriesCnt := UInt32.ofNat it.entries.length } } ::
        tableFrom size (base + it.bytes.length) items

def table (items : List IdxItem) : List InvIdxItem := tableFrom items.length 0 items

@[simp] theorem length_tableFrom (size base : Nat) (items : List IdxItem) :
    (tableFrom size base items).length = items.length := by
  induction items generalizing base with
  | nil => rfl
  | cons it items ih => simp [tableFrom, ih]

/-! ## The plain loader -/

theorem length_entryBytes (e : Entry) :
    (entryBytes e).length = 1 + (2 * e.postingInfo.postingSizes.length + 1 + 8 + 4) := by
  simp only [entryBytes, postingInfoBytes, List.length_append, length_podBytes, width_UInt8,
    width_UInt32, width_UInt64, length_flatMap_podBytes, width_UInt16]
  omega

/-- Skipping an entry by its size skips its bytes. -/
theorem skipEntries_eq (entries : List Entry) (h : ∀ e ∈ entries, e.Fits) :
    ∀ (s : IStream) (rest : Bytes), s.unread = entries.flatMap entryBytes ++ rest →
      skipEntries entries.length s
        = some (s.seek (s.pos + (entries.flatMap entryBytes).length)) := by
  induction entries with
  | nil => exact fun s rest _ => by simp [skipEntries, IStream.seek]
  | cons e entries ih =>
    intro s rest hs
    have hfits : e.postingInfo.postingSizes.length < 2 ^ 8 := h e List.mem_cons_self
    have hsize : (UInt8.ofNat e.postingInfo.postingSizes.length).toNat
        = e.postingInfo.postingSizes.length := by
      rw [UInt8.toNat_ofNat', Nat.mod_eq_of_lt hfits]
    rw [List.flatMap_cons, List.append_assoc] at hs
    have hnext := IStream.unread_seek_append hs
    have hread : readFrom s = some (UInt8.ofNat e.postingInfo.postingSizes.length,
        s.seek (s.pos + 1)) := by
      rw [entryBytes, postingInfoBytes, List.append_assoc, List.append_assoc] at hs
      exact decodes_readFrom _ s _ hs
    have hpos : s.pos + 1 + (2 * e.postingInfo.postingSizes.length + 1 + 8 + 4)
        = s.pos + (entryBytes e).length := by rw [length_entryBytes]; omega
    simp only [List.length_cons, skipEntries, hread, Option.bind_eq_bind, Option.bind_some, hsize,
      IStream.pos_seek, IStream.seek_seek, hpos]
    rw [ih (fun x hx => h x (List.mem_cons_of_mem _ hx)) _ _ hnext]
    simp [Nat.add_assoc]

/-- The counts of an item, read behind its token. -/
theorem decodes_token_count (it : IdxItem) {s : IStream} {rest : Bytes}
    (hs : s.unread = it.bytes ++ rest) :
    readFrom s = some (it.token, s.seek (s.pos + 4)) ∧
    readFrom (s.seek (s.pos + 4))
      = some (UInt32.ofNat it.entries.length, s.seek (s.pos + 8)) ∧
    (s.seek (s.pos + 8)).unread = it.entries.flatMap entryBytes ++ rest := by
  rw [IdxItem.bytes, entriesBytes, List.append_assoc, List.append_assoc] at hs
  have hcount := IStream.unread_seek_append hs
  exact ⟨decodes_readFrom it.token s _ hs, decodes_readFrom _ _ _ hcount,
    IStream.unread_seek_append hcount⟩

theorem length_bytes (it : IdxItem) :
    it.bytes.length = 8 + (it.entries.flatMap entryBytes).length := by
  simp only [IdxItem.bytes, entriesBytes, List.length_append, length_podBytes, width_UInt32]
  omega

theorem readInvIdxItem_eq {it : IdxItem} (h : it.Fits) (size : Nat) {s : IStream} {rest : Bytes}
    (hs : s.unread = it.bytes ++ rest) :
    readInvIdxItem size s = some
      ({ tokId := it.token, offset := UInt64.ofNat (s.pos + 4),
         idf := { size, entriesCnt := UInt32.ofNat it.entries.length } },
        s.seek (s.pos + it.bytes.length)) := by
  obtain ⟨htok, hcnt, hentries⟩ := decodes_token_count it hs
  have hlen : (UInt32.ofNat it.entries.length).toNat = it.entries.length := by
    rw [UInt32.toNat_ofNat', Nat.mod_eq_of_lt h.count]
  have hskip := skipEntries_eq it.entries h.entries _ _ hentries
  simp only [readInvIdxItem, htok, Option.bind_eq_bind, Option.bind_some, hcnt, hlen, hskip,
    IStream.pos_seek, IStream.seek_seek, Option.pure_def, length_bytes, Nat.add_assoc]

/-- **The plain loader computes the table**, by induction on the items ahead of the stream. -/
theorem readInvIdx_eq (size : Nat) {items : List IdxItem} (h : ∀ it ∈ items, it.Fits) :
    ∀ {s : IStream} {rest : Bytes}, s.unread = items.flatMap IdxItem.bytes ++ rest →
      ∃ s', readInvIdx size items.length s = some (tableFrom size s.pos items, s') ∧
        s'.data = s.data := by
  induction items with
  | nil => exact fun _ => ⟨_, rfl, rfl⟩
  | cons it items ih =>
    intro s rest hs
    rw [List.flatMap_cons, List.append_assoc] at hs
    have hitem := readInvIdxItem_eq (h it List.mem_cons_self) size hs
    obtain ⟨s', hrest, hdata⟩ := ih (fun x hx => h x (List.mem_cons_of_mem _ hx))
      (IStream.unread_seek_append hs)
    refine ⟨s', ?_, hdata⟩
    simp only [List.length_cons, readInvIdx, hitem, Option.bind_eq_bind, Option.bind_some, hrest,
      Option.pure_def, tableFrom, IStream.pos_seek]

/-! ## The optimised loader -/

theorem readInvIdxItemOpt_eq (it : IdxItem) (size : Nat) {s sOpt : IStream} {a b restOpt : Bytes}
    (hdata : s.data = a ++ (it.bytes ++ b)) (hlen : a.length < 2 ^ 64)
    (hopt : sOpt.unread = podBytes (UInt64.ofNat a.length) ++ restOpt) :
    readInvIdxItemOpt size s sOpt = some
      ({ tokId := it.token, offset := UInt64.ofNat (a.length + 4),
         idf := { size, entriesCnt := UInt32.ofNat it.entries.length } },
        s.seek (a.length + 8), sOpt.seek (sOpt.pos + 8)) := by
  have hoffset := decodes_readFrom (UInt64.ofNat a.length) sOpt _ hopt
  have hnat : (UInt64.ofNat a.length).toNat = a.length := by
    rw [UInt64.toNat_ofNat', Nat.mod_eq_of_lt hlen]
  obtain ⟨htok, hcnt, -⟩ := decodes_token_count it (IStream.unread_seek_of_data hdata)
  simp only [IStream.pos_seek, IStream.seek_seek] at htok hcnt
  simp only [readInvIdxItemOpt, hoffset, length_podBytes, width_UInt64, Option.bind_eq_bind,
    Option.bind_some, hnat, htok, hcnt, IStream.pos_seek, Option.pure_def]

/-- **The optimised loader computes the table**, by induction on the items behind `a`. -/
theorem readInvIdxOpt_eq (size : Nat) {items : List IdxItem} :
    ∀ {s sOpt : IStream} {a b restOpt : Bytes}, s.data = a ++ (items.flatMap IdxItem.bytes ++ b) →
      s.data.length < 2 ^ 64 →
      sOpt.unread = (Indexer.positions a.length items).flatMap podBytes ++ restOpt →
      ∃ s', readInvIdxOpt size items.length s sOpt = some (tableFrom size a.length items, s') ∧
        s'.data = s.data := by
  induction items with
  | nil => exact fun _ _ _ => ⟨_, rfl, rfl⟩
  | cons it items ih =>
    intro s sOpt a b restOpt hdata hlen hopt
    rw [List.flatMap_cons, List.append_assoc] at hdata
    rw [Indexer.positions, List.flatMap_cons, List.append_assoc] at hopt
    have halen : a.length < 2 ^ 64 := by
      have := congrArg List.length hdata
      rw [List.length_append] at this
      omega
    have hitem := readInvIdxItemOpt_eq it size hdata halen hopt
    have hbehind := IStream.unread_seek_append hopt
    rw [← List.append_assoc] at hdata
    rw [← List.length_append] at hbehind
    obtain ⟨s', hrest, hdata'⟩ := ih (s := s.seek (a.length + 8)) hdata hlen hbehind
    refine ⟨s', ?_, hdata'⟩
    rw [List.length_append] at hrest
    simp only [length_podBytes, width_UInt64] at hrest
    simp only [List.length_cons, readInvIdxOpt, hitem, Option.bind_eq_bind, Option.bind_some,
      hrest, Option.pure_def, tableFrom]

/-! ## Reading entries back -/

theorem tableFrom_append (size base : Nat) (a b : List IdxItem) :
    tableFrom size base (a ++ b)
      = tableFrom size base a ++ tableFrom size (base + (a.flatMap IdxItem.bytes).length) b := by
  induction a generalizing base with
  | nil => simp [tableFrom]
  | cons it a ih => simp [tableFrom, ih, Nat.add_assoc]

/-- What the table says of the item between `a` and `b`. -/
theorem tableFrom_getElem? (size : Nat) (a b : List IdxItem) (it : IdxItem) :
    (tableFrom size 0 (a ++ it :: b))[a.length]? = some
      { tokId := it.token, offset := UInt64.ofNat ((a.flatMap IdxItem.bytes).length + 4),
        idf := { size, entriesCnt := UInt32.ofNat it.entries.length } } := by
  rw [tableFrom_append, List.getElem?_append_right (by simp)]
  simp [tableFrom]

/-- An index file with the counts of its format, no larger than a file offset can say. The trailer
has 32 bits: of 2^32 items it says that there is none. -/
structure IndexFile where
  items : List IdxItem
  fits : ∀ it ∈ items, it.Fits
  count : items.length < 2 ^ 32
  size : (indexBytes items).length < 2 ^ 63

def IndexFile.bytes (f : IndexFile) : Bytes := indexBytes f.items

/-- The table of the file, at the number of the item between `a` and `b`. -/
theorem IndexFile.table_getElem? (f : IndexFile) {a b : List IdxItem} {it : IdxItem}
    (hitems : f.items = a ++ it :: b) :
    (table f.items)[(UInt32.ofNat a.length).toNat]? = some
      { tokId := it.token, offset := UInt64.ofNat ((a.flatMap IdxItem.bytes).length + 4),
        idf := { size := f.items.length, entriesCnt := UInt32.ofNat it.entries.length } } := by
  have hlen : a.length < 2 ^ 32 := by
    have := f.count
    rw [hitems, List.length_append] at this
    omega
  have hitem := tableFrom_getElem? f.items.length a b it
  rw [← hitems] at hitem
  rw [UInt32.toNat_ofNat', Nat.mod_eq_of_lt hlen, table, hitem]

/-- **The table leads to the entries**, wherever the stream stands. -/
theorem getEntries_eq {f : IndexFile} {ii : InvertIndex} (htable : ii.invIdx = table f.items)
    (hdata : ii.invIdxStream.data = f.bytes) {a b : List IdxItem} {it : IdxItem}
    (hitems : f.items = a ++ it :: b) :
    ∃ pos, ii.getEntries (UInt32.ofNat a.length) [] = some (it.entries,
      { ii with invIdxStream := { data := f.bytes, pos := pos } }) := by
  have hfits : it.Fits := f.fits it (by rw [hitems]; simp)
  have hbytes : f.bytes = a.flatMap IdxItem.bytes ++ podBytes it.token ++
      (entriesBytes it.entries ++ (b.flatMap IdxItem.bytes ++
        podBytes (UInt32.ofNat f.items.length))) := by
    simp [IndexFile.bytes, indexBytes, hitems, IdxItem.bytes]
  have hoff : (UInt64.ofNat ((a.flatMap IdxItem.bytes).length + 4)).toNat
      = (a.flatMap IdxItem.bytes ++ podBytes it.token).length := by
    have hsize := f.size
    rw [← IndexFile.bytes, hbytes, List.length_append, List.length_append, length_podBytes,
      width_UInt32] at hsize
    rw [UInt64.toNat_ofNat', Nat.mod_eq_of_lt (by omega), List.length_append, length_podBytes,
      width_UInt32]
  have hread := (decodes_readEntries_nil hfits).at_seek (hdata.trans hbytes)
  refine ⟨(a.flatMap IdxItem.bytes ++ podBytes it.token).length
    + (entriesBytes it.entries).length, ?_⟩
  simp only [InvertIndex.getEntries, htable, f.table_getElem? hitems, Option.bind_eq_bind,
    Option.bind_some, hoff, hread, Option.pure_def]
  rw [IStream.seek, hdata]

/-! ## Finding a token -/

theorem exists_of_mem_tableFrom {size base : Nat} {items : List IdxItem} {item : InvIdxItem}
    (h : item ∈ tableFrom size base items) : ∃ it ∈ items, item.tokId = it.token := by
  induction items generalizing base with
  | nil => simp [tableFrom] at h
  | cons it items ih =>
    rcases List.mem_cons.mp h with rfl | h
    · exact ⟨it, List.mem_cons_self, rfl⟩
    · obtain ⟨it', hmem, heq⟩ := ih h
      exact ⟨it', List.mem_cons_of_mem _ hmem, heq⟩

/-- **The binary search finds the first item with the token of a word**, in a file whose tokens
do not decrease. -/
theorem findTknIdx_eq {f : IndexFile} {ii : InvertIndex} (htable : ii.invIdx = table f.items)
    {a b : List IdxItem} {it : IdxItem} (hitems : f.items = a ++ it :: b) {word : Bytes}
    (hword : it.token = murmurHash2 word) (ha : ∀ x ∈ a, x.token < it.token)
    (hb : ∀ x ∈ b, it.token ≤ x.token) :
    ii.findTknIdx word = some (UInt32.ofNat a.length) := by
  have hsearch : lowerBound (fun item : InvIdxItem => decide (item.tokId < it.token))
      (table f.items) = some a.length := by
    rw [table, hitems, tableFrom_append]
    refine (lowerBound_of_partition ?_ ?_).trans (by rw [length_tableFrom])
    · intro item hmem
      obtain ⟨x, hx, heq⟩ := exists_of_mem_tableFrom hmem
      rw [heq]
      exact decide_eq_true (ha x hx)
    · intro item hmem
      obtain ⟨x, hx, heq⟩ := exists_of_mem_tableFrom hmem
      rw [heq]
      rcases List.mem_cons.mp hx with rfl | hx
      · exact decide_eq_false (lt_irrefl _)
      · exact decide_eq_false (not_lt.mpr (hb x hx))
  simp only [InvertIndex.findTknIdx, ← hword, htable, hsearch, Option.bind_eq_bind,
    Option.bind_some, f.table_getElem? hitems, if_true, Option.pure_def]

theorem getIDF_eq {f : IndexFile} {ii : InvertIndex} (htable : ii.invIdx = table f.items)
    {a b : List IdxItem} {it : IdxItem} (hitems : f.items = a ++ it :: b) :
    ii.getIDF (UInt32.ofNat a.length)
      = some { size := f.items.length, entriesCnt := UInt32.ofNat it.entries.length } := by
  simp only [InvertIndex.getIDF, htable, f.table_getElem? hitems, Option.bind_eq_bind,
    Option.bind_some, Option.pure_def]

/-! ## The loaders agree -/

theorem loadInvIdx_plain (f : IndexFile) {config : Config}
    (hplain : config.invertIndexIPosFile.isEmpty = true) (posFile : Bytes) :
    ∃ s, loadInvIdx config f.bytes posFile = some (table f.items, s) ∧ s.data = f.bytes := by
  have hsize : (UInt32.ofNat f.items.length).toNat = f.items.length := by
    rw [UInt32.toNat_ofNat', Nat.mod_eq_of_lt f.count]
  obtain ⟨s, hload, hdata⟩ := readInvIdx_eq f.items.length f.fits
    (IStream.unread_mk (indexBytes f.items))
  refine ⟨s, ?_, hdata⟩
  simp only [loadInvIdx, IndexFile.bytes, readFromEnd_indexBytes, Option.bind_eq_bind,
    Option.bind_some, hplain, if_true, hsize, hload, table]

theorem loadInvIdx_opt (f : IndexFile) {config : Config}
    (hopt : config.invertIndexIPosFile.isEmpty = false) :
    ∃ s, loadInvIdx config f.bytes (Indexer.posBytes f.items) = some (table f.items, s) ∧
      s.data = f.bytes := by
  have hsize : (UInt32.ofNat f.items.length).toNat = f.items.length := by
    rw [UInt32.toNat_ofNat', Nat.mod_eq_of_lt f.count]
  have hlen : (IStream.mk (indexBytes f.items) 0).data.length < 2 ^ 64 := by
    have := f.size
    simp only
    omega
  have hpos : (IStream.mk (Indexer.posBytes f.items) 0).unread
      = (Indexer.positions ([] : Bytes).length f.items).flatMap podBytes ++ [] := by
    rw [List.append_nil]; rfl
  have hdata : (IStream.mk (indexBytes f.items) 0).data
      = [] ++ (f.items.flatMap IdxItem.bytes ++ podBytes (UInt32.ofNat f.items.length)) := rfl
  obtain ⟨s, hload, hdata⟩ := readInvIdxOpt_eq f.items.length hdata hlen hpos
  refine ⟨s, ?_, hdata⟩
  simp only [loadInvIdx, IndexFile.bytes, readFromEnd_indexBytes, Option.bind_eq_bind,
    Option.bind_some, hopt, Bool.false_eq_true, if_false, hsize, hload, table, List.length_nil]

/-- **Writer and readers agree.** The plain loader finds every item with its token, its number of
entries and an offset that leads `getEntries` to its entries, and the optimised one finds the same
table by the position file that any run of `_mergeIndexes` wrote beside this index. -/
theorem loadInvIdx_correct (f : IndexFile) (plain opt : Config)
    (hplain : plain.invertIndexIPosFile.isEmpty = true)
    (hopt : opt.invertIndexIPosFile.isEmpty = false) (noFile : Bytes) :
    ∃ (tbl : List InvIdxItem) (s : IStream),
      loadInvIdx plain f.bytes noFile = some (tbl, s) ∧ s.data = f.bytes ∧
      tbl.length = f.items.length ∧
      (∀ i (hi : i < f.items.length) (ht : i < tbl.length),
        tbl[i].tokId = f.items[i].token ∧
        tbl[i].idf.entriesCnt.toNat = f.items[i].entries.length ∧
        ∀ ii : InvertIndex, ii.invIdx = tbl → ii.invIdxStream.data = f.bytes →
          ∃ pos, ii.getEntries (UInt32.ofNat i) [] = some (f.items[i].entries,
            { ii with invIdxStream := { data := f.bytes, pos := pos } })) ∧
      ∀ (S : StdSort) (fuel : Nat) (files : List Bytes) (pos : Bytes),
        Indexer.mergeIndexes S fuel opt files = some (f.bytes, some pos) →
          ∃ s', loadInvIdx opt f.bytes pos = some (tbl, s') ∧ s'.data = f.bytes := by
  obtain ⟨s, hload, hdata⟩ := loadInvIdx_plain f hplain noFile
  refine ⟨table f.items, s, hload, hdata, length_tableFrom _ _ _, fun i hi ht => ?_, ?_⟩
  · have hsplit : f.items = f.items.take i ++ f.items[i] :: f.items.drop (i + 1) := by
      rw [← List.drop_eq_getElem_cons hi, List.take_append_drop]
    have hlen : (f.items.take i).length = i := by rw [List.length_take]; omega
    have hget :=
      tableFrom_getElem? f.items.length (f.items.take i) (f.items.drop (i + 1)) f.items[i]
    rw [← hsplit, hlen, ← table, List.getElem?_eq_getElem ht, Option.some.injEq] at hget
    refine ⟨by rw [hget], ?_, fun ii htable hii => ?_⟩
    · have hcount := (f.fits _ (List.getElem_mem hi)).count
      rw [hget, UInt32.toNat_ofNat', Nat.mod_eq_of_lt hcount]
    · have hentries := getEntries_eq htable hii hsplit
      rwa [hlen] at hentries
  · intro S fuel files pos hmerge
    obtain ⟨items, hfits, hout⟩ := Indexer.mergeIndexes_writes hmerge
    simp only [hopt, Bool.false_eq_true, if_false, Prod.mk.injEq, Option.some.injEq] at hout
    obtain rfl : f.items = items := indexBytes_injective f.fits hfits hout.1
    rw [hout.2]
    exact loadInvIdx_opt f hopt

/-- The entry of a document with one posting, in the first zone. -/
def oneEntry (docIdOffset : UInt32) : Entry := ⟨docIdOffset, ⟨1, 0, [1]⟩⟩

/-- Two items, the first with two entries. Merged from two files, whose entries for the token 7 are
sorted, they are found by both loaders. -/
theorem loadInvIdx_correct_merged :
    let items : List IdxItem := [⟨7, [oneEntry 1, oneEntry 2]⟩, ⟨9, [oneEntry 2]⟩]
    let files : List (List IdxItem) :=
      [[⟨7, [oneEntry 2]⟩, ⟨9, [oneEntry 2]⟩], [⟨7, [oneEntry 1]⟩]]
    let plain : Config :=
      { docIdTag := "id", invertIndexIPosFile := "", numZones := [], textZones := [],
        trashZones := [] }
    let opt : Config := { plain with invertIndexIPosFile := "ipos" }
    ∃ (fuel : Nat) (pos : Bytes) (tbl : List InvIdxItem) (s s' : IStream),
      Indexer.mergeIndexes mergeSorter fuel opt (files.map indexBytes)
          = some (indexBytes items, some pos) ∧
      loadInvIdx plain (indexBytes items) [] = some (tbl, s) ∧
      loadInvIdx opt (indexBytes items) pos = some (tbl, s') ∧
      tbl.length = 2 ∧ ∀ i (hi : i < 2),
        ∀ ii : InvertIndex, ii.invIdx = tbl → ii.invIdxStream.data = indexBytes items →
          ∃ pos, ii.getEntries (UInt32.ofNat i) [] = some (items[i].entries,
            { ii with invIdxStream := { data := indexBytes items, pos := pos } }) := by
  intro items files plain opt
  have hsort : mergeSorter.sort compareEntries ([oneEntry 2] ++ ([oneEntry 1] ++ []))
      = [oneEntry 1, oneEntry 2] := by
    simp [mergeSorter, List.mergeSort, List.MergeSort.Internal.splitInTwo, compareEntries,
      oneEntry]
  have hlast : mergeSorter.sort compareEntries ([oneEntry 2] ++ []) = [oneEntry 2] :=
    List.perm_singleton.mp (mergeSorter.perm _ _)
  -- The first file goes on, the second is erased, and the first has the other token.
  have hmerges : Indexer.Merges mergeSorter (files.filterMap Indexer.Live.ofItems)
      [⟨7, mergeSorter.sort compareEntries ([oneEntry 2] ++ ([oneEntry 1] ++ []))⟩,
        ⟨9, mergeSorter.sort compareEntries ([oneEntry 2] ++ [])⟩] :=
    .round (by decide) (.read rfl (.eraseLast rfl (.pass (by decide) .stop)))
      (.round (by decide) (.eraseLast rfl .stop) .nil)
  have hread : files.map Indexer.readable = files := by decide
  rw [hsort, hlast, ← hread] at hmerges
  obtain ⟨fuel, hrun⟩ := Indexer.mergeIndexes_eq (by decide) (by decide)
    (fun t => Nat.lt_of_le_of_lt List.countP_le_length (by decide)) opt hmerges
  obtain ⟨tbl, s, hplain, -, hlen, hitems, hopt⟩ :=
    loadInvIdx_correct ⟨items, by decide, by decide, by decide⟩ plain opt rfl rfl []
  obtain ⟨s', hload, -⟩ :=
    hopt mergeSorter fuel (files.map indexBytes) _ (hrun fuel (Nat.le_refl _))
  exact ⟨fuel, _, tbl, s, s', hrun fuel (Nat.le_refl _), hplain, hload, hlen,
    fun i hi => (hitems i hi (hi.trans_eq hlen.symm)).2.2⟩

/-- `n` items without entries. -/
def manyItems (n : Nat) : List IdxItem := List.replicate n ⟨0, []⟩

theorem length_manyItems (n : Nat) : (manyItems n).length = n := List.length_replicate

theorem fits_manyItems {n : Nat} : ∀ it ∈ manyItems n, it.Fits := by
  intro it hit
  rw [List.eq_of_mem_replicate hit]
  decide

/-- **The trailer of 2^32 items is 0**: the plain loader finds none of them. -/
theorem not_loadInvIdx_many :
    ¬ ∀ items : List IdxItem, (∀ it ∈ items, it.Fits) → ∀ plain opt : Config,
      plain.invertIndexIPosFile.isEmpty = true → opt.invertIndexIPosFile.isEmpty = false →
      ∀ noFile : Bytes, ∃ (tbl : List InvIdxItem) (s : IStream),
        loadInvIdx plain (indexBytes items) noFile = some (tbl, s) ∧
        (∀ i (hi : i < items.length), ∃ ht : i < tbl.length,
          tbl[i].tokId = items[i].token ∧
          ∀ ii : InvertIndex, ii.invIdx = tbl → ii.invIdxStream.data = indexBytes items →
            ∃ pos, ii.getEntries (UInt32.ofNat i) [] = some (items[i].entries,
              { ii with invIdxStream := { data := indexBytes items, pos := pos } })) ∧
        ∀ (S : StdSort) (fuel : Nat) (files : List Bytes) (pos : Bytes),
          Indexer.mergeIndexes S fuel opt files = some (indexBytes items, some pos) →
            ∃ s', loadInvIdx opt (indexBytes items) pos = some (tbl, s') := by
  intro hclaim
  obtain ⟨items, hlen, hfits⟩ : ∃ items : List IdxItem, items.length = 2 ^ 32 ∧
      ∀ it ∈ items, it.Fits := ⟨manyItems _, length_manyItems _, fits_manyItems⟩
  obtain ⟨tbl, s, hload, hitems, -⟩ := hclaim items hfits
    { docIdTag := "id", invertIndexIPosFile := "", numZones := [], textZones := [],
      trashZones := [] }
    { docIdTag := "id", invertIndexIPosFile := "ipos", numZones := [], textZones := [],
      trashZones := [] } rfl rfl []
  have hzero : (UInt32.ofNat items.length).toNat = 0 := by
    rw [hlen]
    rfl
  simp only [loadInvIdx, readFromEnd_indexBytes, Option.bind_eq_bind, Option.bind_some, hzero,
    readInvIdx] at hload
  have hnil : tbl = [] := by
    have hfst := congrArg (Option.map Prod.fst) hload
    exact (Option.some.inj hfst).symm
  obtain ⟨ht, -⟩ := hitems 0 (by rw [hlen]; decide)
  rw [hnil] at ht
  exact absurd ht (Nat.not_lt_zero 0)

end Amigos.Index
