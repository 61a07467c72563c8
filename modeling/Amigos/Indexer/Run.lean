import Amigos.Indexer.Split
import Amigos.Indexer.Zones

/-!
# A run of the indexer (`indexer.cpp`)

`Indexer` is an object between two statements: the index in memory, the stores, and the part of
the index directory that it works on. `processItem` is the body of the loop of `_parseRawData`, one
item, in the order of the source; an `Index::Exception` leaves it with the object as it is at that
moment. Around it are the loops over items and files, `cook` with its handler, and a whole run,
from the constructor, which reads the stores, to the destructor, which writes them.

Everything that is proved about runs is proved of an item first. `processItem_step` says once what
an item can do, one constructor of `ItemStep` for each way through the body; `processItems_inv`
and `parseFiles_ok` and `parseFiles_exception` carry it to the loops.
-/

set_option autoImplicit false

namespace Amigos

open Amigos.Lib
open Amigos.Index

/-! ## The object -/

/-- The index directory, but for the stores. -/
structure Indexer.IndexDir where
  invertIndex : Option Bytes
  ipos : Option Bytes
  /-- The raw index files `.0`, `.1` and so on, each as the items that were written to it. -/
  flushFiles : List (Option (List IdxItem))
  deriving DecidableEq, Repr

structure Indexer where
  charsCnt : UInt64
  entriesCnt : UInt64
  invIdx : List IdxItem
  statDict : List (Bytes × UInt32)
  docStore : DocStorage
  postingStore : Indexer.DynPostingStore
  /-- The calls of `putDoc`, the last one last. -/
  docDB : List (UInt32 × RawDoc)
  dir : Indexer.IndexDir
  deriving DecidableEq, Repr

namespace Indexer

/-- An `Index::Exception`, and the object that it leaves behind. -/
structure Failure where
  errMsg : String
  ix : Indexer
  deriving DecidableEq, Repr

/-- What the code leaves to its environment: the text processing, `istream >> uint32_t`, and the
sizes of the library's containers, on which `_hasSpace` decides. -/
structure Env extends TextEnv where
  readUInt : Bytes → UInt32
  hasSpace : Indexer → Bool

def stou (env : Env) (str : Bytes) : UInt32 := if str.isEmpty then 0 else env.readUInt str

/-- An environment that is right about ASCII texts of at most one word, without stop words, and
about digits. -/
def Env.oneWord : Env where
  terminate2vec text := if text.isEmpty then [] else [text]
  codec := { str2wstr := fun str => str.map UInt8.toUInt32
             wstr2str := fun wstr _ => wstr.map UInt32.toUInt8 }
  stopwords := []
  iterate := id
  iterate_perm := List.Perm.refl
  fuel := 256
  fuel_gt := by decide
  readUInt str := str.foldl (fun n ch => 10 * n + (ch.toUInt32 - 48)) 0
  hasSpace _ := true

/-! ## Flushing -/

/-- What `_flushToDisk` writes. -/
def rawIndexBytes (invIdx : List IdxItem) : Bytes :=
  writeTo (invIdx.foldl (fun ofs pair => writeIdxItem ofs pair.token pair.entries) [])
    (UInt32.ofNat invIdx.length)

theorem rawIndexBytes_eq (items : List IdxItem) : rawIndexBytes items = indexBytes items := by
  have hfold : ∀ (items : List IdxItem) (ofs : Bytes),
      items.foldl (fun ofs pair => writeIdxItem ofs pair.token pair.entries) ofs
        = ofs ++ items.flatMap IdxItem.bytes := by
    intro items
    induction items with
    | nil => simp
    | cons it items ih =>
      intro ofs
      rw [List.foldl_cons, ih, writeIdxItem_eq, List.flatMap_cons, List.append_assoc]
  rw [rawIndexBytes, hfold, writeTo, List.nil_append, indexBytes]

/-- A file of items, under the first name that `_findFirstEmptyFile` finds free. -/
def putFirstEmpty (items : List IdxItem) :
    List (Option (List IdxItem)) → List (Option (List IdxItem))
  | [] => [some items]
  | none :: files => some items :: files
  | some file :: files => some file :: putFirstEmpty items files

def flushToDisk (ix : Indexer) : Indexer :=
  { ix with
    dir := { ix.dir with flushFiles := putFirstEmpty ix.invIdx ix.dir.flushFiles }
    invIdx := []
    statDict := []
    entriesCnt := 0
    charsCnt := 0 }

/-! ## One item -/

/-- `_extractTextZones` behind its extraction: the counts of the words, and, for the proofs, the
entries it has recorded. -/
def addText (env : TextEnv) (ix : Indexer) (zonesVec : List Bytes) :
    Option (List UInt16 × List (UInt32 × Entry) × Indexer) := do
  let zones ← zonesVec.mapM env.bterms
  let (wordsCnt, s) := addZones
    { pos := 0, tmpDict := [], charsCnt := ix.charsCnt, statDict := ix.statDict } zones
  let (recorded, postingStore) ← recordTokens env.fuel wordsCnt
    (UInt32.ofNat (DynDocStorage.size ix.docStore)) ix.postingStore (env.iterate s.tmpDict)
  return (wordsCnt, recorded,
    { ix with
      charsCnt := s.charsCnt
      statDict := s.statDict
      entriesCnt := ix.entriesCnt + UInt64.ofNat s.tmpDict.length
      invIdx := recorded.foldl (fun idx r => addEntry r.1 r.2 idx) ix.invIdx
      postingStore })

/-- The locals of `_parseRawData` that live longer than an item. -/
structure ParseState where
  ix : Indexer
  itemsCnt : UInt32
  zonesForSave : ZonesMap

/-- The check every thousand items. -/
def ParseState.countItem (env : Env) (s : ParseState) : ParseState :=
  { s with
    ix := if s.itemsCnt % 1000 == 999 && !env.hasSpace s.ix then s.ix.flushToDisk else s.ix
    itemsCnt := s.itemsCnt + 1 }

/-- `for (auto pair: zonesForSave) pair.second = "";` empties the copy `pair`, not the map. -/
def clearZones (zonesForSave : ZonesMap) : ZonesMap := zonesForSave

/-- The body of the loop over the items. Undefined stands also for the end of the program, where
a null text is made a `std::string` or an assertion of the bigramer fails. -/
def processItem (env : Env) (config : Config) (s : ParseState) (itemTag : XMLElement) :
    Outcome Failure ParseState := do
  let s := s.countItem env
  if itemTag.name ≠ "item" then
    .exception ⟨"There is an incorrect tag '" ++ itemTag.name ++ "'", s.ix⟩
  else
  let idTag ← (getNecessaryTag itemTag.children config.docIdTag).mapException (⟨·, s.ix⟩)
  let idText ← .ofOption idTag.text
  let docId := stou env idText
  let (zonesVec, forSave) ←
    (extractZones itemTag config.numZones s.zonesForSave).mapException (⟨·, s.ix⟩)
  let numZones := zonesVec.map (stou env)
  -- English subtitles that are translated: the item is passed over.
  let enType ← .ofOption numZones[3]?
  if enType = 1 then return { s with zonesForSave := forSave }
  else
  let (zonesVec, forSave) ←
    (extractZones itemTag config.textZones forSave).mapException (⟨·, s.ix⟩)
  let (wordsCnt, _, ix) ← .ofOption (s.ix.addText env.toTextEnv zonesVec)
  let (_, forSave) ← (extractZones itemTag config.trashZones forSave).mapException (⟨·, ix⟩)
  let docStore ← (Outcome.ofExcept
    (DynDocStorage.addDoc ix.docStore docId numZones wordsCnt)).mapException (⟨·, ix⟩)
  let doc := rawDocOf forSave
  return { s with
    ix := { ix with docStore, docDB := ix.docDB ++ [(docId, doc)] }
    zonesForSave := clearZones forSave }

def processItems (env : Env) (config : Config) (s : ParseState) :
    List XMLElement → Outcome Failure ParseState
  | [] => .ok s
  | itemTag :: items => do
    let s ← processItem env config s itemTag
    processItems env config s items

/-! ## The raw data -/

/-- What `LoadFile` makes of a directory entry; an XML file is its top level elements. -/
inductive RawFileKind where
  | notRegular
  | malformed
  | xml (top : List XMLElement)

inductive RawDirKind where
  | missing
  | notDirectory
  | files (entries : List (String × RawFileKind))

/-- The directory of raw data. -/
structure RawDir where
  path : String
  kind : RawDirKind

/-- The exception of a file names it. -/
def Failure.inFile (path : String) (f : Failure) : Failure :=
  { f with errMsg := "Parse file '" ++ path ++ "' is failed. " ++ f.errMsg }

def parseFile (env : Env) (config : Config) (s : ParseState) (path : String) :
    RawFileKind → Outcome Failure ParseState
  | .notRegular => .exception ⟨"'" ++ path ++ "' isn't a regular file", s.ix⟩
  | .malformed => .exception ⟨"Cannot load xml file '" ++ path ++ "'", s.ix⟩
  | .xml top =>
    let parsed : Outcome Failure ParseState := do
      let itemsTag ← (getNecessaryTag top "items").mapException (⟨·, s.ix⟩)
      processItems env config s itemsTag.children
    parsed.mapException (Failure.inFile path)

def parseFiles (env : Env) (config : Config) (s : ParseState) :
    List (String × RawFileKind) → Outcome Failure ParseState
  | [] => .ok s
  | (path, file) :: files => do
    let s ← parseFile env config s path file
    parseFiles env config s files

/-- The state in front of the first item. -/
def ParseState.start (ix : Indexer) : ParseState := { ix, itemsCnt := 0, zonesForSave := [] }

def parseRawData (env : Env) (config : Config) (raw : RawDir) (ix : Indexer) :
    Outcome Failure Indexer :=
  match raw.kind with
  | .missing => .exception ⟨"Directory '" ++ raw.path ++ "' doesn't exist", ix⟩
  | .notDirectory => .exception ⟨"'" ++ raw.path ++ "' isn't a directory", ix⟩
  | .files entries => do
    let s ← parseFiles env config (.start ix) entries
    return s.ix

/-! ## Runs -/

/-- The files that `_mergeIndexes` opens. -/
def IndexDir.rawFiles (dir : IndexDir) : List Bytes :=
  dir.invertIndex.toList ++
    ((dir.flushFiles.takeWhile Option.isSome).filterMap id).map rawIndexBytes

/-- The merged files, under their names. -/
def withIndex (ix : Indexer) (index : Bytes) (ipos : Option Bytes) : Indexer :=
  { ix with dir := { ix.dir with invertIndex := some index, ipos := ipos <|> ix.dir.ipos } }

/-- `_mergeIndexes` in the directory: the files that it has merged stay where they are. -/
def mergeOnDisk (S : StdSort) (fuel : Nat) (config : Config) (ix : Indexer) :
    Outcome Failure Indexer := do
  let (index, ipos) ← .ofOption (mergeIndexes S fuel config ix.dir.rawFiles)
  return ix.withIndex index ipos

/-- `Indexer::cook`. The handler flushes what is there and throws again. -/
def cook (S : StdSort) (fuel : Nat) (env : Env) (config : Config) (raw : RawDir) (ix : Indexer) :
    Outcome Failure Indexer :=
  let tried : Outcome Failure Indexer := do
    let ix ← parseRawData env config raw ix
    ix.flushToDisk.mergeOnDisk S fuel config
  tried.mapException fun f => { f with ix := f.ix.flushToDisk }

/-- What a run leaves for the next one. -/
structure Disk where
  dir : IndexDir
  docStoreFile : Option Bytes
  postings : Bytes
  docDB : List (UInt32 × RawDoc)

/-- A directory that has never been indexed into. -/
def Disk.empty : Disk :=
  { dir := { invertIndex := none, ipos := none, flushFiles := [] }
    docStoreFile := none
    postings := []
    docDB := [] }

/-- The constructor. -/
def construct (config : Config) (docStorePath : String) (disk : Disk) : Option Indexer := do
  let docStore ← DynDocStorage.create config docStorePath disk.docStoreFile
  return { charsCnt := 0
           entriesCnt := 0
           invIdx := []
           statDict := []
           docStore
           postingStore := .create disk.postings
           docDB := disk.docDB
           dir := disk.dir }

theorem construct_eq_some {config : Config} {docStorePath : String} {disk : Disk} {ix : Indexer}
    (h : construct config docStorePath disk = some ix) :
    DynDocStorage.create config docStorePath disk.docStoreFile = some ix.docStore ∧
      ix.postingStore = .create disk.postings ∧ ix.invIdx = [] ∧ ix.dir = disk.dir := by
  simp only [construct, Option.bind_eq_bind, Option.bind_eq_some_iff, Option.pure_def,
    Option.some.injEq] at h
  obtain ⟨docStore, hcreate, rfl⟩ := h
  exact ⟨hcreate, rfl, rfl, rfl⟩

/-- The indexer over a directory that has never been indexed into. -/
def empty (config : Config) : Indexer :=
  { charsCnt := 0
    entriesCnt := 0
    invIdx := []
    statDict := []
    docStore := DocStorage.sized config
    postingStore := .create []
    docDB := []
    dir := Disk.empty.dir }

theorem construct_empty (config : Config) (docStorePath : String) :
    construct config docStorePath Disk.empty = some (empty config) := rfl

/-- The destructor. -/
def destroy (ix : Indexer) : Disk :=
  { dir := ix.dir
    docStoreFile := some (DynDocStorage.save ix.docStore)
    postings := ix.postingStore.ofs
    docDB := ix.docDB }

/-! ## A small collection -/

/-- Four numeric zones, of them the views, and a title, all optional; only the title is saved. -/
def titleConfig : Config where
  docIdTag := "id"
  invertIndexIPosFile := ""
  numZones :=
    { name := "views_cnt", path := ["views_cnt"], isOptional := true, needSave := false } ::
      List.replicate 3 { name := "num", path := ["num"], isOptional := true, needSave := false }
  textZones := [{ name := "title", path := ["title"], isOptional := true, needSave := true }]
  trashZones := []

/-- The document 1, of title `x`, viewed five times. -/
def titled : XMLElement :=
  .mk "item" none [.mk "id" (some [49]) [], .mk "title" (some [120]) [],
    .mk "views_cnt" (some [53]) []]

/-- A directory with one file, of these items. -/
def oneFile (items : List XMLElement) : RawDir where
  path := "raw"
  kind := .files [("raw/0.xml", .xml [.mk "items" none items])]

/-- The object behind a run over these items. -/
def ranOver (ix : Indexer) (items : List XMLElement) : Indexer :=
  match parseRawData .oneWord titleConfig (oneFile items) ix with
  | .ok ix' => ix'
  | _ => ix

/-! ## What an item can do -/

/-- English subtitles that are translated: such an item is passed over. -/
def Skipped (env : Env) (config : Config) (itemTag : XMLElement) : Prop :=
  (config.numZones.map fun zone => stou env ((zoneText itemTag zone).getD []))[3]? = some 1

instance (env : Env) (config : Config) (itemTag : XMLElement) :
    Decidable (Skipped env config itemTag) := by unfold Skipped; infer_instance

/-- What an item has for the text zones. -/
def textsOf (config : Config) (itemTag : XMLElement) : List Bytes :=
  config.textZones.map fun zone => (zoneText itemTag zone).getD []

/-- What an item puts into the map of saved zones. -/
def savedOf (env : Env) (config : Config) (itemTag : XMLElement) : ZonesMap :=
  if Skipped env config itemTag then savedBy itemTag config.numZones
  else savedBy itemTag config.trashZones ++ (savedBy itemTag config.textZones ++
    savedBy itemTag config.numZones)

/-- The id of an item. -/
def docIdOf (env : Env) (config : Config) (itemTag : XMLElement) : Option UInt32 := do
  let idTag ← firstChildElement itemTag.children config.docIdTag
  let idText ← idTag.text
  return stou env idText

/-- The item gets as far as its text: it is one, it has an id and the zones that are necessary, and
it is not passed over. -/
structure ReachesText (env : Env) (config : Config) (itemTag : XMLElement) : Prop where
  name : itemTag.name = "item"
  id : (firstChildElement itemTag.children config.docIdTag).isSome = true
  numZones : HasZones itemTag config.numZones
  kept : ¬ Skipped env config itemTag
  textZones : HasZones itemTag config.textZones

/-- **What an item can do.** It throws before its text is recorded, and the object is that of the
check; it throws behind that; it is passed over; or its document is stored. -/
inductive ItemStep (env : Env) (config : Config) (s : ParseState) (itemTag : XMLElement) :
    Outcome Failure ParseState → Prop where
  | early {msg : String} (hreach : ¬ ReachesText env config itemTag) :
    ItemStep env config s itemTag (.exception ⟨msg, (s.countItem env).ix⟩)
  | late {msg : String} {wordsCnt : List UInt16} {recorded : List (UInt32 × Entry)} {ix : Indexer}
      (hreach : ReachesText env config itemTag)
      (htext : (s.countItem env).ix.addText env.toTextEnv (textsOf config itemTag)
        = some (wordsCnt, recorded, ix)) :
    ItemStep env config s itemTag (.exception ⟨msg, ix⟩)
  | skipped (hskip : Skipped env config itemTag) :
    ItemStep env config s itemTag (.ok { s.countItem env with
      zonesForSave := savedOf env config itemTag ++ s.zonesForSave })
  | stored {docId : UInt32} {numZones : List UInt32} {wordsCnt : List UInt16}
      {recorded : List (UInt32 × Entry)} {ix : Indexer} {docStore : DocStorage}
      (hid : docIdOf env config itemTag = some docId)
      (hreach : ReachesText env config itemTag)
      (htext : (s.countItem env).ix.addText env.toTextEnv (textsOf config itemTag)
        = some (wordsCnt, recorded, ix))
      (hadd : DynDocStorage.addDoc ix.docStore docId numZones wordsCnt = .ok docStore) :
    ItemStep env config s itemTag (.ok { s.countItem env with
      ix := { ix with
        docStore
        docDB := ix.docDB ++
          [(docId, rawDocOf (savedOf env config itemTag ++ s.zonesForSave))] }
      zonesForSave := savedOf env config itemTag ++ s.zonesForSave })

theorem getNecessaryTag_eq_ok {children : List XMLElement} {tag : String} {result : XMLElement}
    (h : getNecessaryTag children tag = .ok result) :
    firstChildElement children tag = some result := by
  unfold getNecessaryTag at h
  split at h
  · cases h
  · cases h
    assumption

theorem getNecessaryTag_eq_exception {children : List XMLElement} {tag msg : String}
    (h : getNecessaryTag children tag = .exception msg) :
    firstChildElement children tag = none := by
  unfold getNecessaryTag at h
  split at h
  · assumption
  · cases h

/-- **One item**, taken apart at its steps in their order. -/
theorem processItem_step {env : Env} {config : Config} {s : ParseState} {itemTag : XMLElement}
    {o : Outcome Failure ParseState} (h : processItem env config s itemTag = o)
    (hdef : o ≠ .undefined) : ItemStep env config s itemTag o := by
  unfold processItem at h
  split at h
  · rename_i hname
    subst h
    exact .early fun hreach => hname hreach.name
  rename_i hname
  rw [not_not] at hname
  obtain ⟨msg, htag, rfl⟩ | ⟨idTag, htag, h⟩ := Outcome.mapException_bind h hdef
  · exact .early fun hreach => by
      have hid := hreach.id
      rw [getNecessaryTag_eq_exception htag] at hid
      exact Bool.false_ne_true hid
  have hidTag := getNecessaryTag_eq_ok htag
  obtain ⟨idText, hidText, h⟩ := Outcome.ofOption_bind h hdef
  -- The numeric zones, and whether the item is passed over.
  obtain ⟨msg, hnum, rfl⟩ | ⟨⟨numVec, forNum⟩, hnum, h⟩ := Outcome.mapException_bind h hdef
  · exact .early fun hreach => extractZones_eq_exception hnum hreach.numZones
  obtain ⟨rfl, rfl, hnumZones⟩ := extractZones_eq_ok hnum
  obtain ⟨enType, henType, h⟩ := Outcome.ofOption_bind h hdef
  rw [List.map_map] at henType
  split at h
  · rename_i hone
    have hskip : Skipped env config itemTag := henType.trans (congrArg some hone)
    have hsaved : savedBy itemTag config.numZones = savedOf env config itemTag :=
      (if_pos hskip).symm
    subst h
    rw [hsaved]
    exact .skipped hskip
  rename_i hone
  have hkept : ¬ Skipped env config itemTag := fun hskip =>
    hone (Option.some.inj (henType.symm.trans hskip))
  -- The text.
  obtain ⟨msg, htext, rfl⟩ | ⟨⟨textVec, forText⟩, htext, h⟩ := Outcome.mapException_bind h hdef
  · exact .early fun hreach => extractZones_eq_exception htext hreach.textZones
  obtain ⟨rfl, rfl, htextZones⟩ := extractZones_eq_ok htext
  have hreach : ReachesText env config itemTag :=
    ⟨hname, by rw [hidTag]; rfl, hnumZones, hkept, htextZones⟩
  obtain ⟨⟨wordsCnt, recorded, ix⟩, hadd, h⟩ := Outcome.ofOption_bind h hdef
  -- Behind the text: the trash zones, and the stores.
  obtain ⟨msg, htrash, rfl⟩ | ⟨⟨trashVec, forTrash⟩, htrash, h⟩ := Outcome.mapException_bind h hdef
  · exact .late hreach hadd
  obtain ⟨rfl, rfl, -⟩ := extractZones_eq_ok htrash
  obtain ⟨msg, hstore, rfl⟩ | ⟨docStore, hstore, h⟩ := Outcome.mapException_bind h hdef
  · exact .late hreach hadd
  have hid : docIdOf env config itemTag = some (stou env idText) := by
    rw [docIdOf, hidTag, Option.bind_eq_bind, Option.bind_some, hidText]
    rfl
  have hsaved : savedBy itemTag config.trashZones ++ (savedBy itemTag config.textZones ++
      (savedBy itemTag config.numZones ++ (s.countItem env).zonesForSave))
      = savedOf env config itemTag ++ s.zonesForSave := by
    rw [savedOf, if_neg hkept, List.append_assoc, List.append_assoc]
    rfl
  subst h
  rw [hsaved]
  exact .stored hid hreach hadd (Outcome.ofExcept_eq_ok hstore)

/-! ## The check between two items -/

theorem countItem_ix (env : Env) (s : ParseState) :
    (s.countItem env).ix = s.ix ∨ (s.countItem env).ix = s.ix.flushToDisk := by
  unfold ParseState.countItem
  dsimp only
  split
  · exact Or.inr rfl
  · exact Or.inl rfl

theorem docStore_countItem (env : Env) (s : ParseState) :
    (s.countItem env).ix.docStore = s.ix.docStore := by
  rcases countItem_ix env s with h | h <;> rw [h]
  rfl

theorem postingStore_countItem (env : Env) (s : ParseState) :
    (s.countItem env).ix.postingStore = s.ix.postingStore := by
  rcases countItem_ix env s with h | h <;> rw [h]
  rfl

/-! ## What a sequence of items can do -/

theorem processItems_cons (env : Env) (config : Config) (s : ParseState) (itemTag : XMLElement)
    (items : List XMLElement) : processItems env config s (itemTag :: items)
      = (processItem env config s itemTag >>= fun s' => processItems env config s' items) := rfl

theorem processItems_append (env : Env) (config : Config) (before items : List XMLElement) :
    ∀ s : ParseState, processItems env config s (before ++ items)
      = (processItems env config s before >>= fun s' => processItems env config s' items) := by
  induction before with
  | nil => exact fun s => rfl
  | cons itemTag before ih =>
    intro s
    rw [List.cons_append, processItems_cons, processItems_cons]
    cases processItem env config s itemTag with
    | ok s' => exact ih s'
    | exception f => rfl
    | undefined => rfl

/-- **The run rule**: what every item keeps holds behind all of them. -/
theorem processItems_inv {env : Env} {config : Config} (Inv : ParseState → Prop)
    (step : ∀ {s s' : ParseState} {itemTag : XMLElement}, Inv s →
      ItemStep env config s itemTag (.ok s') → Inv s')
    {items : List XMLElement} : ∀ {s s' : ParseState}, Inv s →
      processItems env config s items = .ok s' → Inv s' := by
  induction items with
  | nil =>
    intro s s' hs h
    cases h
    exact hs
  | cons itemTag items ih =>
    intro s s' hs h
    obtain ⟨s₁, hitem, h⟩ := Outcome.bind_eq_ok h
    exact ih (step hs (processItem_step hitem (by simp))) h

/-! ## What the raw data can do -/

/-- The items of the files, up to the first file that has none to offer. -/
def itemsOf : List (String × RawFileKind) → List XMLElement
  | [] => []
  | (_, .xml top) :: files =>
    match firstChildElement top "items" with
    | some itemsTag => itemsTag.children ++ itemsOf files
    | none => []
  | (_, _) :: _ => []

def RawDir.items (raw : RawDir) : List XMLElement :=
  match raw.kind with
  | .files entries => itemsOf entries
  | _ => []

theorem parseFile_xml (env : Env) (config : Config) (s : ParseState) (path : String)
    {top : List XMLElement} {itemsTag : XMLElement}
    (h : firstChildElement top "items" = some itemsTag) :
    parseFile env config s path (.xml top)
      = (processItems env config s itemsTag.children).mapException (Failure.inFile path) := by
  rw [parseFile, getNecessaryTag, h]
  rfl

/-- Files that are parsed to their end are one sequence of items. -/
theorem parseFiles_ok {env : Env} {config : Config} {files : List (String × RawFileKind)} :
    ∀ {s s' : ParseState}, parseFiles env config s files = .ok s' →
      processItems env config s (itemsOf files) = .ok s' := by
  induction files with
  | nil => exact fun h => h
  | cons file files ih =>
    obtain ⟨path, kind⟩ := file
    intro s s' h
    obtain ⟨s₁, hfile, hrest⟩ := Outcome.bind_eq_ok h
    cases kind with
    | notRegular => cases hfile
    | malformed => cases hfile
    | xml top =>
      cases hitems : firstChildElement top "items" with
      | none => simp [parseFile, getNecessaryTag, hitems] at hfile
      | some itemsTag =>
        rw [parseFile_xml env config s path hitems] at hfile
        have hthis := Outcome.mapException_eq_ok hfile
        simp only [itemsOf, hitems]
        rw [processItems_append, hthis]
        exact ih hrest

/-- An item that throws ends the parsing of all files, with the object that it leaves. -/
theorem parseFiles_exception {env : Env} {config : Config} {files : List (String × RawFileKind)}
    {f : Failure} : ∀ {s : ParseState}, processItems env config s (itemsOf files) = .exception f →
      ∃ msg, parseFiles env config s files = .exception ⟨msg, f.ix⟩ := by
  induction files with
  | nil => exact fun h => by cases h
  | cons file files ih =>
    obtain ⟨path, kind⟩ := file
    intro s h
    cases kind with
    | notRegular => cases h
    | malformed => cases h
    | xml top =>
      cases hitems : firstChildElement top "items" with
      | none =>
        simp only [itemsOf, hitems] at h
        cases h
      | some itemsTag =>
        simp only [itemsOf, hitems] at h
        rw [processItems_append] at h
        rw [parseFiles, parseFile_xml env config s path hitems]
        rcases Outcome.bind_eq_exception h with hthis | ⟨s₁, hthis, h⟩
        · rw [hthis]
          exact ⟨(f.inFile path).errMsg, rfl⟩
        · rw [hthis]
          exact ih h

theorem parseRawData_ok {env : Env} {config : Config} {raw : RawDir} {ix ix' : Indexer}
    (h : parseRawData env config raw ix = .ok ix') :
    ∃ s', processItems env config (.start ix) raw.items = .ok s' ∧ s'.ix = ix' := by
  unfold parseRawData at h
  unfold RawDir.items
  split at h
  · cases h
  · cases h
  · rename_i entries hkind
    obtain ⟨s', hfiles, h⟩ := Outcome.bind_eq_ok h
    cases h
    rw [hkind]
    exact ⟨s', parseFiles_ok hfiles, rfl⟩

theorem parseRawData_exception {env : Env} {config : Config} {raw : RawDir} {ix : Indexer}
    {f : Failure} (h : processItems env config (.start ix) raw.items = .exception f) :
    ∃ msg, parseRawData env config raw ix = .exception ⟨msg, f.ix⟩ := by
  unfold RawDir.items at h
  unfold parseRawData
  cases hkind : raw.kind with
  | missing =>
    rw [hkind] at h
    cases h
  | notDirectory =>
    rw [hkind] at h
    cases h
  | files entries =>
    rw [hkind] at h
    obtain ⟨msg, hfiles⟩ := parseFiles_exception h
    exact ⟨msg, by dsimp only; rw [hfiles]; rfl⟩

end Indexer

end Amigos
