import Amigos.Lib.Bytes
import Amigos.Lib.Sorting

/-!
# The data model of the index (`index_struct.h`)

The fields are the source's, in the source's widths. What the source stores in a `double` (the
inverse document frequency) is kept as the two counts it is computed from.
-/

set_option autoImplicit false

namespace Amigos.Index

open Amigos.Lib

/-- The bit of a text zone in `PostingInfo.inZone`; there are eight. -/
def i2mask : List UInt8 := [1, 2, 4, 8, 16, 32, 64, 128]

structure Zone where
  name : String
  path : List String
  isOptional : Bool
  needSave : Bool
  deriving DecidableEq, Repr

/-- The part of `Config` that the indexer computes with; its paths name files that the model
has as values. Every zone has an `int` id, its place in the list, which bounds the lists. -/
structure Config where
  docIdTag : String
  /-- Optional: no position file is written when it is empty. -/
  invertIndexIPosFile : String
  numZones : List Zone
  textZones : List Zone
  trashZones : List Zone
  numZones_lt : numZones.length < 2 ^ 31 := by decide
  textZones_lt : textZones.length < 2 ^ 31 := by decide
  deriving DecidableEq, Repr

structure PostingInfo where
  inZone : UInt8
  postingOffset : UInt64
  postingSizes : List UInt16
  deriving DecidableEq, Repr

structure Entry where
  docIdOffset : UInt32
  postingInfo : PostingInfo
  deriving DecidableEq, Repr

/-- `Index::Entry()` zeroes its fields. -/
instance : Inhabited Entry := ⟨⟨0, ⟨0, 0, []⟩⟩⟩

/-- `std::log(size / entriesCnt)`, before the logarithm is taken. -/
structure Idf where
  size : Nat
  entriesCnt : UInt32
  deriving DecidableEq, Repr

structure InvIdxItem where
  tokId : UInt32
  offset : UInt64
  idf : Idf
  deriving DecidableEq, Repr

structure RawDoc where
  title : Bytes
  videoId : Bytes
  subtitles : Bytes
  time : Bytes
  deriving DecidableEq, Repr

/-- `std::vector::resize`. -/
def resize {α : Type} (n : Nat) (a : α) (v : List α) : List α :=
  v.take n ++ List.replicate (n - v.length) a

/-- `compareEntries`. -/
def compareEntries (e1 e2 : Entry) : Bool := decide (e1.docIdOffset < e2.docIdOffset)

theorem sorted_compareEntries (S : StdSort) (entries : List Entry) :
    (S.sort compareEntries entries).Pairwise (fun a b => a.docIdOffset ≤ b.docIdOffset) :=
  S.sorted_le_key Entry.docIdOffset entries

end Amigos.Index
