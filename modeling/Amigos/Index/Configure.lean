import Amigos.Index.InvertIndex
import Amigos.Lib.Outcome

/-!
# Opening an index (`InvertIndex::configure`)

The four files of an index directory are opened one after the other, and the first one that cannot
be opened is named in an exception. The postings file is mapped into memory, which an empty file
cannot be. The position file is not checked at all: where it is named and missing, every item is
read from wherever the bytes say that were there before, and means nothing.

The table of tokens is what `loadInvIdx` makes of the index file. `configure_eq` puts it together
with the stores.
-/

set_option autoImplicit false

namespace Amigos.Index

open Amigos.Lib

/-! ## The source -/

/-- The files of an index directory; `none` is a file that cannot be opened. -/
structure IndexFiles where
  postings : Option Bytes
  docStore : Option Bytes
  invertIndex : Option Bytes
  ipos : Option Bytes
  deriving DecidableEq, Repr

/-- Their paths, as the configuration gives them. -/
structure IndexPaths where
  postings : String
  docStore : String
  invertIndex : String
  deriving DecidableEq, Repr

/-- `PostingStorage`, from its constructor: `open` and `mmap` fail with one message. -/
def PostingStorage.load (config : Config) (path : String) :
    Option Bytes → Outcome String PostingStorage
  | none => .exception ("Cannot open '" ++ path ++ "'")
  | some [] => .exception ("Cannot open '" ++ path ++ "'")
  | some (b :: src) => .ok { src := b :: src, tZonesCnt := UInt8.ofNat config.textZones.length }

/-- `DocStorage`, from its constructor. -/
def DocStorage.open (config : Config) (path : String) (file : Option Bytes) :
    Outcome String DocStorage := do
  let loaded ← .ofOption ((DocStorage.sized config).load path file)
  .ofExcept loaded

def InvertIndex.configure (config : Config) (paths : IndexPaths) (files : IndexFiles) :
    Outcome String InvertIndex := do
  let postingStore ← PostingStorage.load config paths.postings files.postings
  let docStore ← DocStorage.open config paths.docStore files.docStore
  match files.invertIndex with
  | none => .exception ("Cannot open invert index file '" ++ paths.invertIndex ++ "'")
  | some indexFile =>
    let (invIdx, invIdxStream) ← .ofOption (loadInvIdx config indexFile (files.ipos.getD []))
    return { invIdx, invIdxStream, postingStore, docStore }

/-! ## A directory that is complete -/

theorem PostingStorage.load_of_ne_nil (config : Config) (path : String) {src : Bytes}
    (h : src ≠ []) : PostingStorage.load config path (some src)
      = .ok { src, tZonesCnt := UInt8.ofNat config.textZones.length } := by
  cases src with
  | nil => exact absurd rfl h
  | cons b src => rfl

/-- **What is configured from the files of an index**, whichever loader reads them: the table of
the items, and the stores. -/
theorem InvertIndex.configure_eq {config : Config} {paths : IndexPaths} {files : IndexFiles}
    (f : IndexFile) (hindex : files.invertIndex = some f.bytes)
    (hipos : config.invertIndexIPosFile.isEmpty = false →
      files.ipos = some (Indexer.posBytes f.items))
    {src : Bytes} (hpostings : files.postings = some src) (hsrc : src ≠ [])
    {docStore : DocStorage} (hstore : (DocStorage.sized config).load paths.docStore files.docStore
      = some (.ok docStore)) :
    ∃ invIdxStream : IStream, invIdxStream.data = f.bytes ∧
      InvertIndex.configure config paths files = .ok
        { invIdx := table f.items
          invIdxStream
          postingStore := { src, tZonesCnt := UInt8.ofNat config.textZones.length }
          docStore } := by
  obtain ⟨s, hload, hdata⟩ : ∃ s, loadInvIdx config f.bytes (files.ipos.getD [])
      = some (table f.items, s) ∧ s.data = f.bytes := by
    cases hplain : config.invertIndexIPosFile.isEmpty with
    | true => exact loadInvIdx_plain f hplain _
    | false =>
      rw [hipos hplain, Option.getD_some]
      exact loadInvIdx_opt f hplain
  refine ⟨s, hdata, ?_⟩
  have hpostingStore := PostingStorage.load_of_ne_nil config paths.postings hsrc
  rw [configure, hpostings, hpostingStore, Outcome.ok_bind, DocStorage.open, hstore,
    Outcome.ofOption_some, Outcome.ok_bind, hindex]
  show (Outcome.ofOption (loadInvIdx config f.bytes (files.ipos.getD [])) >>= _) = _
  rw [hload]
  rfl

end Amigos.Index
