import Amigos.Index.Struct

/-!
# The document store and the postings file, as the searcher reads them (`index_struct.cpp`)

`DocStorage` is a table with one row for each document and is addressed by row: the
`docIdOffset` of an entry. `PostingStorage` is one flat file of 16-bit positions. An entry says
where its positions begin, in which zones they are and how many there are in each, and
`getFullPosting` cuts the file accordingly, with a cursor that it advances by what it has cut.
-/

set_option autoImplicit false

namespace Amigos.Index

open Amigos.Lib

/-! ## The document store -/

/-- Column by column: the ids, the numeric zones, the word counts of the text zones. -/
structure DocStorage where
  docIds : List UInt32
  nZones : List (List UInt32)
  tZonesWCnt : List (List UInt16)
  deriving DecidableEq, Repr

namespace DocStorage

/-- The members before `_load`: no rows, and a column for each zone of the configuration. -/
def sized (config : Config) : DocStorage :=
  { docIds := []
    nZones := List.replicate config.numZones.length []
    tZonesWCnt := List.replicate config.textZones.length [] }

def getDocId (st : DocStorage) (docIdOfs : UInt32) : Option UInt32 := st.docIds[docIdOfs.toNat]?

def getNumZone (st : DocStorage) (docIdOffset : UInt32) (nZoneId : UInt8) : Option UInt32 := do
  let column ← st.nZones[nZoneId.toNat]?
  column[docIdOffset.toNat]?

def getTZoneWCnt (st : DocStorage) (docIdOffset : UInt32) (tZoneId : UInt8) : Option UInt16 := do
  let column ← st.tZonesWCnt[tZoneId.toNat]?
  column[docIdOffset.toNat]?

/-- The loops of `_load`: every column gets `count` values behind row `start`. -/
def loadColumns {α : Type} [Pod α] [Inhabited α] (start count : Nat) :
    List (List α) → IStream → Option (List (List α) × IStream)
  | [], ifs => some ([], ifs)
  | vec :: vecs, ifs => do
    let (vals, ifs) ← readMany count ifs
    let (vecs, ifs) ← loadColumns start count vecs ifs
    return ((resize start default vec ++ vals) :: vecs, ifs)

/-- The second half of `_load`. Undefined are a file that is cut short and a row count whose
32-bit sum with the present one wraps, so that the read goes behind the vector. -/
def loadRows (st : DocStorage) (ifs : IStream) : Option (DocStorage × IStream) := do
  let start := st.docIds.length
  let (count, ifs) ← readFrom ifs (α := UInt32)
  if 2 ^ 32 ≤ start + count.toNat then none
  let (ids, ifs) ← readMany count.toNat ifs
  let (nZones, ifs) ← loadColumns start count.toNat st.nZones ifs
  let (tZonesWCnt, ifs) ← loadColumns start count.toNat st.tZonesWCnt ifs
  return ({ docIds := st.docIds ++ ids, nZones, tZonesWCnt }, ifs)

/-- `_load` in append mode: an exception, or the store with the rows of the file behind its own. -/
def load (st : DocStorage) (dataPath : String) (file : Option Bytes) :
    Option (Except String DocStorage) :=
  match file with
  | none => some (.error ("Cannot open '" ++ dataPath ++ "'"))
  | some data => do
    let (nZonesCnt, ifs) ← readFrom ⟨data, 0⟩ (α := UInt32)
    let (tZonesCnt, ifs) ← readFrom ifs (α := UInt32)
    if st.nZones.length ≠ nZonesCnt.toNat then
      return .error ("Cannot load from '" ++ dataPath ++
        "' into index: count of numeric zones isn't equal")
    else if st.tZonesWCnt.length ≠ tZonesCnt.toNat then
      return .error ("Cannot load from '" ++ dataPath ++
        "' into index: count of text zones isn't equal")
    else
      let (st, _) ← st.loadRows ifs
      return .ok st

end DocStorage

/-! ## The postings file -/

/-- A range of the postings file, in 16-bit units. `Posting()` is empty. -/
structure Posting where
  begin : Nat
  size : Nat
  deriving DecidableEq, Repr

instance : Inhabited Posting := ⟨⟨0, 0⟩⟩

/-- `Posting(src, seek, size)`. -/
def Posting.at (seek : UInt64) (size : UInt16) : Posting :=
  { begin := (seek / 2).toNat, size := size.toNat }

/-- The positions in the range. -/
def Posting.read (src : Bytes) (p : Posting) : Option (List UInt16) := do
  let (vals, _) ← readMany p.size ⟨src, 2 * p.begin⟩
  return vals

structure PostingStorage where
  src : Bytes
  tZonesCnt : UInt8
  deriving DecidableEq, Repr

/-- The loop of `getFullPosting` from zone `i` on, for the `n` zones that are left: `po` is the
cursor, `sizes` what `psIt` has still ahead. -/
def fullPostingLoop (inZone : UInt8) : (n i : Nat) → (po : UInt64) → (sizes : List UInt16) →
    (res : List Posting) → Option (List Posting)
  | 0, _, _, _, res => some res
  | n + 1, i, po, sizes, res => do
    let mask ← i2mask[i]?
    if mask &&& inZone ≠ 0 then
      match sizes with
      | [] => none
      | size :: sizes =>
        let np := Posting.at (po * 2) size
        fullPostingLoop inZone n (i + 1) (po + UInt64.ofNat np.size) sizes (res.set i np)
    else fullPostingLoop inZone n (i + 1) po sizes res

def PostingStorage.getFullPosting (st : PostingStorage) (entry : Entry) (res : List Posting) :
    Option (List Posting) :=
  fullPostingLoop entry.postingInfo.inZone st.tZonesCnt.toNat 0 entry.postingInfo.postingOffset
    entry.postingInfo.postingSizes (resize st.tZonesCnt.toNat default res)

end Amigos.Index
