import Amigos.Indexer.Recorded

/-!
# What a run has recorded, read back

An entry is recorded in the middle of a run: its document is not yet in the store, and its
positions are at the end of a postings file that goes on growing. It is read long after, from the
two files that the run leaves.

Two facts carry the argument from one moment to the other. A run only ever adds to the postings
and to the documents (`Grows`), and it keeps its counter in step with the postings and its table a
table (`Sound`). What an entry is worth at the time it is recorded was settled before
(`recordTokens_readsBack`, `load_save`); `entries_readBack` puts it at the end of the run.
-/

set_option autoImplicit false

namespace Amigos.Indexer

open Amigos.Lib
open Amigos.Index

/-! ## What a run keeps -/

/-- The stores are what they are taken for. -/
structure Sound (config : Config) (ix : Indexer) : Prop where
  tracks : Tracks ix.postingStore
  tabular : Tabular config ix.docStore

/-- Nothing is taken back. -/
structure Grows (ix ix' : Indexer) : Prop where
  postings : ix.postingStore.ofs <+: ix'.postingStore.ofs
  docIds : ix.docStore.docIds <+: ix'.docStore.docIds

theorem Grows.refl (ix : Indexer) : Grows ix ix := ⟨List.prefix_rfl, List.prefix_rfl⟩

theorem Grows.trans {ix ix' ix'' : Indexer} (h : Grows ix ix') (h' : Grows ix' ix'') :
    Grows ix ix'' := ⟨h.postings.trans h'.postings, h.docIds.trans h'.docIds⟩

/-- A store that is opened on an empty file tracks it. -/
theorem Sound.construct {config : Config} {docStorePath : String} {disk : Disk} {ix : Indexer}
    (hempty : disk.postings = []) (h : Indexer.construct config docStorePath disk = some ix) :
    Sound config ix := by
  obtain ⟨hcreate, hpostings, -, -⟩ := construct_eq_some h
  rw [hempty] at hpostings
  exact ⟨⟨0, by rw [hpostings]; rfl, by rw [hpostings]; rfl⟩, .create hcreate⟩

/-- The store stays a table. -/
theorem ItemStep.tabular {env : Env} {config : Config} {s s' : ParseState} {itemTag : XMLElement}
    (hstep : ItemStep env config s itemTag (.ok s')) (h : Tabular config s.ix.docStore) :
    Tabular config s'.ix.docStore := by
  rw [← docStore_countItem env s] at h
  cases hstep with
  | skipped hskip => exact h
  | stored hid hreach htext hadd =>
    obtain ⟨zones, dict, htext⟩ := addText_eq_some htext
    rw [htext.docStore] at hadd
    exact h.addDoc hadd

theorem Sound.step {env : Env} {config : Config} {s s' : ParseState} {itemTag : XMLElement}
    (h : Sound config s.ix) (hstep : ItemStep env config s itemTag (.ok s')) :
    Sound config s'.ix ∧ Grows s.ix s'.ix := by
  have htabular := hstep.tabular h.tabular
  have hdocs := docStore_countItem env s
  have hpostings := postingStore_countItem env s
  cases hstep with
  | skipped hskip =>
    refine ⟨⟨hpostings ▸ h.tracks, htabular⟩, ⟨?_, ?_⟩⟩
    · simp only [hpostings, List.prefix_rfl]
    · simp only [hdocs, List.prefix_rfl]
  | @stored docId numZones wordsCnt recorded ix docStore hid hreach htext hadd =>
    obtain ⟨zones, dict, htext⟩ := addText_eq_some htext
    have hrecords := htext.records
    rw [hpostings] at hrecords
    refine ⟨⟨hrecords.tracks h.tracks, htabular⟩, ⟨hrecords.behind, ?_⟩⟩
    dsimp only
    rw [docIds_addDoc hadd, htext.docStore, hdocs]
    exact List.prefix_append _ _

theorem processItems_sound {env : Env} {config : Config} {items : List XMLElement}
    {s s' : ParseState} (h : Sound config s.ix)
    (hrun : processItems env config s items = .ok s') :
    Sound config s'.ix ∧ Grows s.ix s'.ix :=
  processItems_inv (fun s' => Sound config s'.ix ∧ Grows s.ix s'.ix)
    (fun hinv hstep => by
      obtain ⟨hsound, hgrows⟩ := hinv.1.step hstep
      exact ⟨hsound, hinv.2.trans hgrows⟩)
    ⟨h, .refl _⟩ hrun

/-! ## The entries of an item -/

/-- The entries that the run records for the item behind `before`. -/
def recordedFor (env : Env) (config : Config) (ix : Indexer) (before : List XMLElement)
    (itemTag : XMLElement) : Option (List (UInt32 × Entry)) :=
  match processItems env config (.start ix) before with
  | .ok s => ((s.countItem env).ix.addText env.toTextEnv (textsOf config itemTag)).map (·.2.1)
  | _ => none

/-- **What the entry of a token is worth** to a reader of the two files: the id of the document,
and for every zone the ascending places of the token among the words of the zone. -/
structure Resolves (config : Config) (docStorePath : String) (disk : Disk)
    (zones : List (List Bytes)) (docId t : UInt32) (e : Entry) : Prop where
  document : ∃ st, (DocStorage.sized config).load docStorePath disk.docStoreFile = some (.ok st) ∧
    st.getDocId e.docIdOffset = some docId
  positions : ∃ res,
    PostingStorage.getFullPosting
      { src := disk.postings, tZonesCnt := UInt8.ofNat config.textZones.length } e [] = some res ∧
    List.Forall₂ (fun words posting => ∃ vals, posting.read disk.postings = some vals ∧
      vals.map UInt16.toNat = tokenPositions t words) zones res

theorem toNat_narrow {ps : List Nat} (h : ∀ p ∈ ps, p < 2 ^ 16) :
    (narrow ps).map UInt16.toNat = ps := by
  rw [narrow, List.map_map]
  refine (List.map_congr_left fun p hp => ?_).trans (List.map_id _)
  rw [Function.comp_apply, UInt16.toNat_ofNat', Nat.mod_eq_of_lt (h p hp), id]

/-- In 16 bits there is room for every place. -/
theorem ReadsBack.positions {src : Bytes} {zones : List (List Bytes)} {r : UInt32 × Entry}
    (h : ReadsBack src zones r) (hwords : zones.flatten.length < 2 ^ 16) :
    ∃ res, PostingStorage.getFullPosting { src, tZonesCnt := UInt8.ofNat zones.length } r.2 []
        = some res ∧
      List.Forall₂ (fun words posting => ∃ vals, posting.read src = some vals ∧
        vals.map UInt16.toNat = tokenPositions r.1 words) zones res := by
  obtain ⟨res, hfull, hread⟩ := h
  refine ⟨res, hfull, ?_⟩
  rw [List.forall₂_iff_get] at hread ⊢
  refine ⟨hread.1, fun i hi hi' => ⟨_, hread.2 i hi hi', toNat_narrow fun p hp => ?_⟩⟩
  obtain ⟨hlt, -⟩ := List.mem_findIdxs_iff_exists_getElem_pos.mp hp
  have hle := (List.sublist_flatten_of_mem (List.get_mem zones ⟨i, hi⟩)).length_le
  omega

namespace AddsText

variable {env : TextEnv} {ix ix' : Indexer} {texts : List Bytes} {wordsCnt : List UInt16}
  {recorded : List (UInt32 × Entry)} {zones : List (List Bytes)}
  {dict : List (UInt32 × List UInt16)}

/-- A token of the text has one entry. -/
theorem exists_unique_entry (h : AddsText env ix texts wordsCnt recorded ix' zones dict)
    {t : UInt32} (ht : tokenPositions t zones.flatten ≠ []) :
    ∃ e, ∀ e', (t, e') ∈ recorded ↔ e' = e := by
  have htoken : t ∈ recorded.map Prod.fst := by
    rw [h.records.tokens]
    exact (h.dictionary.mem_tokens t).mpr ht
  have hnodup : (recorded.map Prod.fst).Nodup := by
    rw [h.records.tokens]
    exact h.dictionary.nodup
  obtain ⟨⟨t', e⟩, hmem, rfl⟩ := List.mem_map.mp htoken
  refine ⟨e, fun e' => ⟨fun hmem' => ?_, fun he => he ▸ hmem⟩⟩
  exact congrArg Prod.snd (List.inj_on_of_nodup_map hnodup hmem' hmem rfl)

/-- The entries of a text read back, from every file that begins with the postings file as the
text leaves it. -/
theorem readsBack (h : AddsText env ix texts wordsCnt recorded ix' zones dict)
    (hzones : zones.length ≤ 8) (hwords : zones.flatten.length < 2 ^ 16)
    (htracks : Tracks ix.postingStore) {src more : Bytes}
    (hsrc : src = ix'.postingStore.ofs ++ more) (hlen : src.length < 2 * 2 ^ 32) :
    ∀ r ∈ recorded, ReadsBack src zones r := by
  have hdict : ∀ pair ∈ dict, pair.2 = narrow ((placesOf pair.1 zones).through 0) := by
    intro pair hpair
    rw [through_placesOf]
    exact ((h.dictionary.mem_iff pair.1 pair.2).mp hpair).1
  obtain ⟨recorded', st, hrecorded, -, hback⟩ := recordTokens_readsBack hzones hwords
    env.fuel_gt (UInt32.ofNat (DynDocStorage.size ix.docStore)) dict ix.postingStore hdict htracks
  have hrun := h.run
  rw [h.counts, hrecorded, Option.some.injEq, Prod.mk.injEq] at hrun
  obtain ⟨rfl, hst⟩ := hrun
  exact hback (hst ▸ hsrc) hlen

end AddsText

/-- The document of an entry, in the store that is saved at the end. -/
theorem document_saved {config : Config} {st : DocStorage} (h : Tabular config st)
    (hdocs : st.docIds.length < 2 ^ 32) {docIds : List UInt32} {docId : UInt32}
    (hstored : docIds ++ [docId] <+: st.docIds) (docStorePath : String) :
    ∃ st', (DocStorage.sized config).load docStorePath (some (DynDocStorage.save st))
        = some (.ok st') ∧
      st'.getDocId (UInt32.ofNat docIds.length) = some docId := by
  refine ⟨st, load_save_self h hdocs docStorePath, ?_⟩
  obtain ⟨more, hmore⟩ := hstored
  have hlen : docIds.length < st.docIds.length := by
    rw [← hmore, List.length_append, List.length_append, List.length_singleton]
    omega
  rw [DocStorage.getDocId, UInt32.toNat_ofNat', Nat.mod_eq_of_lt (by omega), ← hmore]
  simp

/-- **Every entry of a run reads back.** A run on an empty postings file writes fewer than 2^32
positions, and leaves fewer than 2^32 documents. Then of every item that is not passed over, with
at most eight text zones and 65535 words, one entry is recorded for each of its tokens, and this
entry resolves to the item. The flush and the merge behind the items do not touch the stores. -/
theorem entries_readBack (env : Env) (config : Config) {docStorePath : String} {disk : Disk}
    {ix ix' : Indexer} {raw : RawDir} (hempty : disk.postings = [])
    (hnew : construct config docStorePath disk = some ix)
    (hrun : parseRawData env config raw ix = .ok ix')
    (hpositions : (destroy ix').postings.length < 2 * 2 ^ 32)
    (hdocs : DynDocStorage.size ix'.docStore < 2 ^ 32)
    {before behind : List XMLElement} {itemTag : XMLElement}
    (hitems : raw.items = before ++ itemTag :: behind) (hkept : ¬ Skipped env config itemTag)
    (hzones : config.textZones.length ≤ 8) {zones : List (List Bytes)}
    (hwords : (textsOf config itemTag).mapM env.bterms = some zones)
    (hlen : zones.flatten.length ≤ 65535) :
    ∃ docId recorded, docIdOf env config itemTag = some docId ∧
      recordedFor env config ix before itemTag = some recorded ∧
      ∀ t, tokenPositions t zones.flatten ≠ [] →
        ∃ e, (∀ e', (t, e') ∈ recorded ↔ e' = e) ∧
          Resolves config docStorePath (destroy ix') zones docId t e := by
  obtain ⟨s', hall, rfl⟩ := parseRawData_ok hrun
  rw [hitems, processItems_append] at hall
  obtain ⟨s, hbefore, hall⟩ := Outcome.bind_eq_ok hall
  obtain ⟨s₁, hitem, hbehind⟩ := Outcome.bind_eq_ok hall
  -- In front of the item, at the item, and behind it: the stores are sound, and only grow.
  have hs : Sound config s.ix := (processItems_sound (.construct hempty hnew) hbefore).1
  have hstep := processItem_step hitem (by simp)
  obtain ⟨hsound₁, -⟩ := hs.step hstep
  obtain ⟨hsound, hgrows⟩ := processItems_sound hsound₁ hbehind
  have hdocStore := docStore_countItem env s
  have hpostings := postingStore_countItem env s
  cases hstep with
  | skipped hskip => exact absurd hskip hkept
  | @stored docId numZones wordsCnt recorded ixText docStore hid hreach htext hadd =>
    refine ⟨docId, recorded, hid, by simp only [recordedFor, hbefore, htext]; rfl, ?_⟩
    obtain ⟨zones', dict, htext⟩ := addText_eq_some htext
    obtain rfl : zones = zones' := Option.some.inj (hwords.symm.trans htext.words)
    have hzonesLen : zones.length = config.textZones.length := by
      rw [length_of_mapM hwords, textsOf, List.length_map]
    have hwordsLen : zones.flatten.length < 2 ^ 16 := Nat.lt_succ_of_le hlen
    obtain ⟨more, hmore⟩ := hgrows.postings
    have hread := htext.readsBack (hzonesLen ▸ hzones) hwordsLen (hpostings ▸ hs.tracks)
      hmore.symm hpositions
    intro t ht
    obtain ⟨e, hunique⟩ := htext.exists_unique_entry ht
    have hmem : (t, e) ∈ recorded := (hunique e).mpr rfl
    refine ⟨e, hunique, ?_, ?_⟩
    -- The document: its row is the number that the entry was recorded under.
    · have hoffset : e.docIdOffset = UInt32.ofNat s.ix.docStore.docIds.length := by
        rw [htext.records.docIdOffset _ hmem, hdocStore]
        rfl
      have hstored : s.ix.docStore.docIds ++ [docId] <+: s'.ix.docStore.docIds := by
        rw [← hdocStore, ← htext.docStore, ← docIds_addDoc hadd]
        exact hgrows.docIds
      rw [hoffset]
      exact document_saved hsound.tabular hdocs hstored docStorePath
    -- The positions: the file still begins with what the item has left in it.
    · have hpositions := (hread _ hmem).positions hwordsLen
      rw [hzonesLen] at hpositions
      exact hpositions

/-! ## A store that is full -/

/-- `n` documents of the id 0. -/
def rowsOf (n : Nat) : DocStorage :=
  { docIds := List.replicate n 0
    nZones := List.replicate 4 (List.replicate n 0)
    tZonesWCnt := [List.replicate n 0] }

/-- A directory with these documents, and no postings. -/
def withRows (n : Nat) : Disk :=
  { Disk.empty with docStoreFile := some (DynDocStorage.save (rowsOf n)) }

def indexerWithRows (n : Nat) : Indexer := { empty titleConfig with docStore := rowsOf n }

theorem parseRawData_withRows (n : Nat) :
    parseRawData .oneWord titleConfig (oneFile [titled]) (indexerWithRows n)
      = .ok (ranOver (indexerWithRows n) [titled]) := rfl

theorem tabular_rowsOf (n : Nat) : Tabular titleConfig (rowsOf n) where
  numZones := rfl
  textZones := rfl
  nColumns vec hvec := by
    rw [List.eq_of_mem_replicate hvec]
    exact List.length_replicate.trans List.length_replicate.symm
  tColumns vec hvec := by
    rw [List.mem_singleton.mp hvec]
    exact List.length_replicate.trans List.length_replicate.symm

theorem construct_withRows {n : Nat} (hn : n < 2 ^ 32) (docStorePath : String) :
    construct titleConfig docStorePath (withRows n) = some (indexerWithRows n) := by
  have hrows : (rowsOf n).docIds.length < 2 ^ 32 := by
    rw [rowsOf, List.length_replicate]
    exact hn
  have hcreate := create_save (tabular_rowsOf n) hrows docStorePath
  simp only [construct, withRows, hcreate, Option.bind_eq_bind, Option.bind_some, Option.pure_def]
  rfl

/-- The last document that fits into the store makes its count 0. -/
theorem not_entries_readBack_fullStore : ¬ ∀ (env : Env) (config : Config) (docStorePath : String)
    (disk : Disk) (ix ix' : Indexer) (raw : RawDir), disk.postings = [] →
    construct config docStorePath disk = some ix → parseRawData env config raw ix = .ok ix' →
    (destroy ix').postings.length < 2 * 2 ^ 32 →
    ∀ (before behind : List XMLElement) (itemTag : XMLElement),
    raw.items = before ++ itemTag :: behind → ¬ Skipped env config itemTag →
    config.textZones.length ≤ 8 → ∀ zones : List (List Bytes),
    (textsOf config itemTag).mapM env.bterms = some zones → zones.flatten.length ≤ 65535 →
    ∃ docId recorded, docIdOf env config itemTag = some docId ∧
      recordedFor env config ix before itemTag = some recorded ∧
      ∀ t, tokenPositions t zones.flatten ≠ [] →
        ∃ e, (∀ e', (t, e') ∈ recorded ↔ e' = e) ∧
          Resolves config docStorePath (destroy ix') zones docId t e := by
  intro h
  obtain ⟨n, hn⟩ : ∃ n, n + 1 = 2 ^ 32 := ⟨2 ^ 32 - 1, rfl⟩
  have hnew := construct_withRows (n := n) (by omega) ""
  obtain ⟨docId, recorded, -, -, hentries⟩ := h .oneWord titleConfig "" (withRows n)
    (indexerWithRows n) (ranOver (indexerWithRows n) [titled]) (oneFile [titled]) rfl hnew
    (parseRawData_withRows n)
    (Nat.lt_of_lt_of_le (show 2 < 4 by decide) (by decide)) [] [] titled rfl (by decide) (by decide)
    [[[120]]] rfl (by decide)
  obtain ⟨e, -, hresolves⟩ := hentries (Common.murmurHash2 [120]) (by decide)
  obtain ⟨st, hload, hdocId⟩ := hresolves.document
  obtain ⟨s', hrun, hix⟩ := parseRawData_ok (parseRawData_withRows n)
  have htabular : Tabular titleConfig (ranOver (indexerWithRows n) [titled]).docStore := by
    rw [← hix]
    exact (processItems_sound (.construct rfl hnew) hrun).1.tabular
  have hsize : (ranOver (indexerWithRows n) [titled]).docStore.docIds.length = 2 ^ 32 := by
    have hdocIds : (ranOver (indexerWithRows n) [titled]).docStore.docIds
        = List.replicate n 0 ++ [1] := rfl
    rw [hdocIds, List.length_append, List.length_replicate, ← hn]
    rfl
  have hsaved := (load_save htabular "").symm.trans hload
  rw [hsize] at hsaved
  have hempty : st.docIds = [] := by
    cases hsaved
    rfl
  rw [DocStorage.getDocId, hempty] at hdocId
  cases hdocId

/-- An environment that finds other words. -/
def Env.withWords (env : Env) (terminate2vec : Bytes → List Bytes) : Env :=
  { env with terminate2vec }

/-- The words of a text are between its spaces. -/
def spacedEnv : Env :=
  Env.oneWord.withWords fun text => (text.splitOnP fun ch => ch == 32).filter fun word =>
    !word.isEmpty

/-- A title and a description. -/
def twoZoneConfig : Config where
  docIdTag := "id"
  invertIndexIPosFile := ""
  numZones := titleConfig.numZones
  textZones := titleConfig.textZones ++
    [{ name := "descr", path := ["descr"], isOptional := true, needSave := false }]
  trashZones := []

/-- The document 1, of title `x` and description `# x y`. -/
def described : XMLElement :=
  .mk "item" none [.mk "id" (some [49]) [], .mk "title" (some [120]) [],
    .mk "descr" (some [35, 32, 120, 32, 121]) []]

def describedRun : Indexer :=
  match parseRawData spacedEnv twoZoneConfig (oneFile [described]) (empty twoZoneConfig) with
  | .ok ix' => ix'
  | _ => empty twoZoneConfig

/-- Both zones have the token of `x`, and in one of them there is a word that is passed over. -/
theorem entries_readBack_described : ∃ docId recorded,
    docIdOf spacedEnv twoZoneConfig described = some docId ∧
      recordedFor spacedEnv twoZoneConfig (empty twoZoneConfig) [] described = some recorded ∧
      ∀ t, tokenPositions t (List.flatten [[[120]], [[35], [120], [121]]]) ≠ [] →
        ∃ e, (∀ e', (t, e') ∈ recorded ↔ e' = e) ∧
          Resolves twoZoneConfig "" (destroy describedRun) [[[120]], [[35], [120], [121]]]
            docId t e :=
  @entries_readBack spacedEnv twoZoneConfig "" Disk.empty (empty twoZoneConfig) describedRun
    (oneFile [described]) rfl (construct_empty twoZoneConfig "") rfl (by decide) (by decide) [] []
    described rfl (by decide) (by decide) [[[120]], [[35], [120], [121]]] rfl (by decide)

end Amigos.Indexer
