import Amigos.Index.Configure
import Amigos.Indexer.Collection
import Amigos.Searcher.Outcomes

/-!
# Searching a collection

The indexer and the searcher are two programs, and what they have in common is a directory. Here the
directory that a history of runs has left (`Indexed`) is opened by the searcher (`configure`), and
its queries are put next to the documents themselves.

Whatever the searcher opens serves the collection (`Serves`): its rows and entries are those of the
documents. Soundness needs no more: a document that is found contains every token. For the other
direction every token has to be in the index once. `_mergeIndexes` does not always see to that, and
`findTknIdx` reads one of the items of a token only. `indexed_answersDocs_iff` is the whole of it.
-/

set_option autoImplicit false

namespace Amigos.Searcher

open Amigos.Lib
open Amigos.Common
open Amigos.Index
open Amigos.Indexer
open Amigos.Ranker

/-! ## The directory -/

/-- The files of a directory. -/
def filesOf (disk : Disk) : IndexFiles where
  postings := some disk.postings
  docStore := disk.docStoreFile
  invertIndex := disk.dir.invertIndex
  ipos := disk.dir.ipos

theorem map_tokId_tableFrom (size base : Nat) (items : List IdxItem) :
    (tableFrom size base items).map InvIdxItem.tokId = items.map IdxItem.token := by
  induction items generalizing base with
  | nil => rfl
  | cons it items ih => rw [tableFrom, List.map_cons, List.map_cons, ih]

/-- The table and the index file have the same tokens. -/
theorem strictTokens_of_table {items : List IdxItem}
    (h : (table items).Pairwise fun a b => a.tokId < b.tokId) : StrictTokens items := by
  have hmap : ((table items).map InvIdxItem.tokId).Pairwise (· < ·) := List.pairwise_map.mpr h
  rw [table, map_tokId_tableFrom] at hmap
  exact List.pairwise_map.mp hmap

/-- **The index is that of the documents**: a row for each of them, and an entry for each of its
tokens. -/
structure Serves (li : LoadedIndex) (docs : List IndexedDoc) : Prop where
  documents : docs.length < 2 ^ 32
  rows : Rows docs li.index.docStore
  tells : Tells docs (pairs li.file.items)
  filled : Filled li.file.items

/-- **A complete directory is opened**, by either loader. -/
theorem exists_configured {config : Config} {paths : IndexPaths} {disk : Disk}
    {docs : List IndexedDoc} {items : List IdxItem}
    (h : Complete config paths.docStore disk docs items)
    (hsize : (indexBytes items).length < 2 ^ 63) :
    ∃ li : LoadedIndex, InvertIndex.configure config paths (filesOf disk) = .ok li.index ∧
      li.file.items = items ∧ Serves li docs := by
  let file : IndexFile :=
    { items, fits := h.entries.items_fit h.documents, count := h.count, size := hsize }
  obtain ⟨docStore, hload, htabular, hrows⟩ := h.store
  obtain ⟨stream, hdata, hconfigure⟩ := @InvertIndex.configure_eq config paths (filesOf disk) file
    h.index h.ipos disk.postings rfl h.postings docStore hload
  have hlen : docStore.docIds.length = docs.length := hrows.size
  have hstored : ∀ it ∈ items, ∀ e ∈ it.entries, e.docIdOffset.toNat < docStore.docIds.length := by
    intro it hit e he
    rw [hlen]
    exact h.entries.upper (it.token, e) (mem_pairs.mpr ⟨it, hit, rfl, he⟩)
  have hviewed : ∀ d : UInt32, d.toNat < docStore.docIds.length →
      (docStore.getNumZone d viewsCnt).isSome := by
    intro d hd
    have hne : docs ≠ [] := by
      rintro rfl
      rw [hlen] at hd
      exact absurd hd (Nat.not_lt_zero _)
    have hcol : 0 < docStore.nZones.length := by
      rw [htabular.numZones]
      exact Nat.lt_of_le_of_lt (Nat.zero_le 3) (h.numZones hne)
    have hvec := htabular.nColumns _ (List.getElem_mem hcol)
    show ((docStore.nZones[0]?).bind fun column => column[d.toNat]?).isSome = true
    rw [List.getElem?_eq_getElem hcol, Option.bind_some, List.getElem?_eq_getElem (hvec ▸ hd)]
    rfl
  exact ⟨{ file, index := _, table_eq := rfl, data_eq := hdata, sorted := h.ascending,
           increasing := h.increasing, stored := hstored, viewed := hviewed },
    hconfigure, rfl, h.documents, hrows, h.tells, h.filled⟩

/-! ## What is in the index -/

namespace Serves

variable {li : LoadedIndex} {docs : List IndexedDoc}

theorem length_docIds (h : Serves li docs) : li.index.docStore.docIds.length = docs.length :=
  h.rows.size

theorem views_eq (h : Serves li docs) {d : UInt32} {doc : IndexedDoc}
    (hdoc : docs[d.toNat]? = some doc) : doc.numbers[0]? = some (li.views d) := by
  obtain ⟨hlt, -⟩ := List.getElem?_eq_some_iff.mp hdoc
  have hviews := li.getNumZone_views (h.length_docIds ▸ hlt)
  simp only [DocStorage.getNumZone, Option.bind_eq_bind, Option.bind_eq_some_iff] at hviews
  obtain ⟨column, hcolumn, hval⟩ := hviews
  have hrow := congrArg (·[d.toNat]?) (h.rows.numbers 0 column hcolumn)
  simp only [List.getElem?_map, hdoc, hval, Option.map_some, Option.some.injEq] at hrow
  exact hrow.symm

/-- An entry of a word is of a document that has its token. -/
theorem hasToken_of_mem_entriesOf (h : Serves li docs) {word : Bytes} {e : Entry}
    (he : e ∈ li.entriesOf word) :
    ∃ doc, docs[e.docIdOffset.toNat]? = some doc ∧ doc.HasToken (murmurHash2 word) := by
  apply (h.tells _ _).mp
  refine ⟨e, mem_pairs.mpr ?_, rfl⟩
  unfold LoadedIndex.entriesOf at he
  cases hit : li.itemOf word with
  | none =>
    rw [hit] at he
    exact absurd he List.not_mem_nil
  | some it =>
    rw [hit] at he
    have htoken := List.find?_some hit
    exact ⟨it, List.mem_of_find?_eq_some hit, beq_iff_eq.mp htoken, he⟩

theorem exists_token_iff (h : Serves li docs) (P : UInt32 → Prop) :
    (∃ it ∈ li.file.items, P it.token) ↔ ∃ doc ∈ docs, ∃ t, P t ∧ doc.HasToken t := by
  constructor
  · rintro ⟨it, hit, hP⟩
    obtain ⟨e, he⟩ := List.exists_mem_of_ne_nil _ (h.filled it hit)
    obtain ⟨doc, hdoc, htoken⟩ := (h.tells it.token _).mp
      ⟨e, mem_pairs.mpr ⟨it, hit, rfl, he⟩, rfl⟩
    exact ⟨doc, List.mem_of_getElem? hdoc, it.token, hP, htoken⟩
  · rintro ⟨doc, hdoc, t, hP, htoken⟩
    obtain ⟨d, hd⟩ := List.getElem?_of_mem hdoc
    obtain ⟨e, he, -⟩ := (h.tells t d).mpr ⟨doc, hd, htoken⟩
    obtain ⟨it, hit, rfl, -⟩ := mem_pairs.mp he
    exact ⟨it, hit, hP⟩

theorem occurs_iff (h : Serves li docs) (word : Bytes) :
    li.Occurs word ↔ ∃ doc ∈ docs, doc.HasToken (murmurHash2 word) := by
  have hitems : li.Occurs word ↔ ∃ it ∈ li.file.items, it.token = murmurHash2 word := by
    rw [LoadedIndex.Occurs, LoadedIndex.itemOf, List.find?_isSome]
    simp only [beq_iff_eq]
  rw [hitems, h.exists_token_iff (· = murmurHash2 word)]
  simp only [exists_eq_left]

/-- A document that contains the tokens has them. -/
theorem hasTokens_of_contains (h : Serves li docs) {tokens : List Bytes} {d : UInt32}
    (hd : li.Contains tokens d) :
    ∃ doc, docs[d.toNat]? = some doc ∧ ∀ token ∈ tokens, doc.HasToken (murmurHash2 token) := by
  obtain ⟨hlt, hall⟩ := hd
  rw [h.length_docIds] at hlt
  refine ⟨_, List.getElem?_eq_getElem hlt, fun token htoken => ?_⟩
  obtain ⟨e, he, rfl⟩ := hall token htoken
  obtain ⟨doc, hdoc, hhas⟩ := h.hasToken_of_mem_entriesOf he
  rw [List.getElem?_eq_getElem hlt, Option.some.injEq] at hdoc
  exact hdoc ▸ hhas

/-- **In an index with each token once**, a document has an entry for each of its tokens where it
is looked for. -/
theorem contains_iff (h : Serves li docs) (hstrict : StrictTokens li.file.items)
    (tokens : List Bytes) (d : UInt32) :
    li.Contains tokens d ↔
      ∃ doc, docs[d.toNat]? = some doc ∧ ∀ token ∈ tokens, doc.HasToken (murmurHash2 token) := by
  constructor
  · exact h.hasTokens_of_contains
  · rintro ⟨doc, hdoc, hall⟩
    obtain ⟨hlt, -⟩ := List.getElem?_eq_some_iff.mp hdoc
    refine ⟨h.length_docIds ▸ hlt, fun token htoken => ?_⟩
    obtain ⟨e, he, hd⟩ := (h.tells _ _).mpr ⟨doc, hdoc, hall token htoken⟩
    obtain ⟨it, hit, hhash, hmem⟩ := mem_pairs.mp he
    have hocc : li.Occurs token :=
      (h.occurs_iff token).mpr ⟨doc, List.mem_of_getElem? hdoc, hall token htoken⟩
    -- The item that is found is the only one with the token.
    obtain ⟨it', hit'⟩ := Option.isSome_iff_exists.mp hocc
    have hfound := List.find?_some hit'
    have htoken' : it'.token = murmurHash2 token := beq_iff_eq.mp hfound
    have hsame : it' = it := by
      have hnodup : (li.file.items.map IdxItem.token).Nodup :=
        List.pairwise_map.mpr (hstrict.imp fun hlt => ne_of_lt hlt)
      exact List.inj_on_of_nodup_map hnodup (List.mem_of_find?_eq_some hit') hit
        (htoken'.trans hhash.symm)
    refine ⟨e, ?_, UInt32.toNat_inj.mp hd⟩
    rw [LoadedIndex.entriesOf, hit', hsame]
    exact hmem

end Serves

/-! ## Queries -/

/-- The document has the tokens of a query. -/
def HasTokens (doc : IndexedDoc) (tokens : List Bytes) : Prop :=
  ∀ token ∈ tokens, doc.HasToken (murmurHash2 token)

instance (doc : IndexedDoc) (tokens : List Bytes) : Decidable (HasTokens doc tokens) := by
  unfold HasTokens; infer_instance

/-- The tokens of a query are those of some documents, or, up to the first one that is not, there
is a document with a larger token. -/
def KnownIn (docs : List IndexedDoc) : List Bytes → Prop
  | [] => True
  | token :: tokens =>
    if ∃ doc ∈ docs, doc.HasToken (murmurHash2 token) then KnownIn docs tokens
    else ∃ doc ∈ docs, ∃ t, murmurHash2 token ≤ t ∧ doc.HasToken t

/-- Of the documents that have all tokens, one has been viewed, if there are any. -/
def ViewedIn (docs : List IndexedDoc) (tokens : List Bytes) : Prop :=
  (∃ doc ∈ docs, HasTokens doc tokens) →
    ∃ doc ∈ docs, HasTokens doc tokens ∧ doc.numbers[0]? ≠ some 0

theorem HasTokens.knownIn {docs : List IndexedDoc} {doc : IndexedDoc} {tokens : List Bytes}
    (h : HasTokens doc tokens) (hdoc : doc ∈ docs) : KnownIn docs tokens := by
  induction tokens with
  | nil => trivial
  | cons token tokens ih =>
    rw [KnownIn, if_pos ⟨doc, hdoc, h token List.mem_cons_self⟩]
    exact ih fun t ht => h t (List.mem_cons_of_mem _ ht)

/-- The documents at some rows. -/
theorem length_rows_le {docs : List IndexedDoc} {tokens : List Bytes} {rows : List UInt32}
    (hnodup : rows.Nodup)
    (hrows : ∀ d ∈ rows, ∃ doc, docs[d.toNat]? = some doc ∧ HasTokens doc tokens) :
    rows.length ≤ (docs.filter fun doc => HasTokens doc tokens).length := by
  let numbered := docs.zipIdx.filter fun p => HasTokens p.1 tokens
  have hlen : numbered.length = (docs.filter fun doc => HasTokens doc tokens).length := by
    have hmap : (docs.zipIdx.map Prod.fst).filter (fun doc => HasTokens doc tokens)
        = numbered.map Prod.fst := List.filter_map ..
    rw [← List.length_map (f := Prod.fst), ← hmap, List.zipIdx_map_fst]
  have hsubset : rows.map UInt32.toNat ⊆ numbered.map Prod.snd := by
    intro k hk
    obtain ⟨d, hd, rfl⟩ := List.mem_map.mp hk
    obtain ⟨doc, hdoc, hhas⟩ := hrows d hd
    refine List.mem_map.mpr ⟨(doc, d.toNat), List.mem_filter.mpr ⟨?_, decide_eq_true hhas⟩, rfl⟩
    exact List.mem_zipIdx_iff_getElem?.mpr hdoc
  have hle := (List.subperm_of_subset (hnodup.map fun a b h => UInt32.toNat_inj.mp h)
    hsubset).length_le
  rwa [List.length_map, List.length_map, hlen] at hle

theorem Serves.known_iff {li : LoadedIndex} {docs : List IndexedDoc} (h : Serves li docs)
    (tokens : List Bytes) : li.Known tokens ↔ KnownIn docs tokens := by
  induction tokens with
  | nil => exact Iff.rfl
  | cons token tokens ih =>
    by_cases hocc : li.Occurs token
    · rw [LoadedIndex.known_cons_of_occurs hocc, KnownIn, if_pos ((h.occurs_iff token).mp hocc)]
      exact ih
    · rw [LoadedIndex.known_cons_of_not_occurs hocc, KnownIn,
        if_neg fun hdoc => hocc ((h.occurs_iff token).mpr hdoc)]
      exact h.exists_token_iff (murmurHash2 token ≤ ·)

theorem Serves.viewed_iff {li : LoadedIndex} {docs : List IndexedDoc} (h : Serves li docs)
    (hstrict : StrictTokens li.file.items) (tokens : List Bytes) :
    li.Viewed tokens ↔ ViewedIn docs tokens := by
  -- The number of a document fits 32 bits.
  have hnumber : ∀ P : IndexedDoc → Prop, (∃ d : UInt32, ∃ doc, docs[d.toNat]? = some doc ∧ P doc) ↔
      ∃ doc ∈ docs, P doc := by
    intro P
    constructor
    · rintro ⟨d, doc, hdoc, hP⟩
      exact ⟨doc, List.mem_of_getElem? hdoc, hP⟩
    · rintro ⟨doc, hdoc, hP⟩
      obtain ⟨i, hi⟩ := List.getElem?_of_mem hdoc
      obtain ⟨hlt, -⟩ := List.getElem?_eq_some_iff.mp hi
      have hnat : (UInt32.ofNat i).toNat = i := by
        rw [UInt32.toNat_ofNat', Nat.mod_eq_of_lt (hlt.trans h.documents)]
      exact ⟨UInt32.ofNat i, doc, by rw [hnat]; exact hi, hP⟩
  have hfound : (∃ d, li.Contains tokens d) ↔ ∃ doc ∈ docs, HasTokens doc tokens := by
    rw [← hnumber]
    exact exists_congr fun d => h.contains_iff hstrict tokens d
  have hviewed : (∃ d, li.Contains tokens d ∧ li.views d ≠ 0) ↔
      ∃ doc ∈ docs, HasTokens doc tokens ∧ doc.numbers[0]? ≠ some 0 := by
    rw [← hnumber]
    refine exists_congr fun d => ?_
    rw [h.contains_iff hstrict tokens d]
    constructor
    · rintro ⟨⟨doc, hdoc, hall⟩, hv⟩
      refine ⟨doc, hdoc, hall, ?_⟩
      rw [h.views_eq hdoc]
      exact fun heq => hv (Option.some.inj heq)
    · rintro ⟨doc, hdoc, hall, hv⟩
      refine ⟨⟨doc, hdoc, hall⟩, fun hzero => hv ?_⟩
      rw [h.views_eq hdoc, hzero]
  rw [LoadedIndex.Viewed, ViewedIn, hfound, hviewed]

section

variable {δ τ σ : Type} [LinearOrder δ] [LinearOrder τ] [LinearOrder σ]

/-- **What a query over a collection should do**: append the ids of the documents that it finds.
Of the rows whose documents have all tokens these are the best, in the order of their ranks. -/
def AnswersDocs (S : StdSort) (r : Ranks δ τ σ) (li : LoadedIndex) (docs : List IndexedDoc)
    (tokens : List Bytes) (docsId : List UInt32) : Prop :=
  ∃ (rows returned ids : List UInt32) (index : InvertIndex) (fuel₀ : Nat),
    Finds r li tokens rows returned ∧
    (∀ d : UInt32, d ∈ rows ↔ ∃ doc, docs[d.toNat]? = some doc ∧ HasTokens doc tokens) ∧
    returned.map (fun d => docs[d.toNat]?.map IndexedDoc.docId) = ids.map some ∧
    ∀ fuel, fuel₀ ≤ fuel → search fuel S r li.index tokens docsId = some (docsId ++ ids, index)

/-- In the store and in the collection a document has the same id. -/
theorem Serves.map_docId {li : LoadedIndex} {docs : List IndexedDoc} (h : Serves li docs)
    (returned : List UInt32) :
    returned.map (fun d => docs[d.toNat]?.map IndexedDoc.docId)
      = returned.map li.index.docStore.getDocId := by
  refine List.map_congr_left fun d _ => ?_
  rw [DocStorage.getDocId, h.rows.ids, List.getElem?_map]

theorem Serves.answersDocs_iff_answers {li : LoadedIndex} {docs : List IndexedDoc}
    (h : Serves li docs) (hstrict : StrictTokens li.file.items) {S : StdSort} {r : Ranks δ τ σ}
    {tokens : List Bytes} {docsId : List UInt32} :
    AnswersDocs S r li docs tokens docsId ↔ Answers S r li tokens docsId := by
  constructor
  · rintro ⟨rows, returned, ids, index, fuel₀, hfinds, -, hids, hrun⟩
    exact ⟨rows, returned, ids, index, fuel₀, hfinds, (h.map_docId returned).symm.trans hids, hrun⟩
  · rintro ⟨rows, returned, ids, index, fuel₀, hfinds, hids, hrun⟩
    refine ⟨rows, returned, ids, index, fuel₀, hfinds, fun d => ?_,
      (h.map_docId returned).trans hids, hrun⟩
    exact (hfinds.mem_docs d).trans (h.contains_iff hstrict tokens d)

/-- **A document that has the tokens is among the answers**, if the ranking keeps them all. -/
theorem AnswersDocs.exists_mem {S : StdSort} {r : Ranks δ τ σ} {li : LoadedIndex}
    {docs : List IndexedDoc} (hsize : docs.length < 2 ^ 32) {tokens : List Bytes}
    {docsId : List UInt32} (h : AnswersDocs S r li docs tokens docsId) {doc : IndexedDoc}
    (hdoc : doc ∈ docs) (hhas : HasTokens doc tokens)
    (hfew : (docs.filter fun doc => HasTokens doc tokens).length ≤ maxDraftDocs) :
    ∃ ids index fuel₀, doc.docId ∈ ids ∧ ids.length ≤ maxDraftDocs ∧ ∀ fuel, fuel₀ ≤ fuel →
      search fuel S r li.index tokens docsId = some (docsId ++ ids, index) := by
  obtain ⟨rows, returned, ids, index, fuel₀, hfinds, hrows, hids, hrun⟩ := h
  obtain ⟨i, hi⟩ := List.getElem?_of_mem hdoc
  obtain ⟨hlt, -⟩ := List.getElem?_eq_some_iff.mp hi
  have hnat : (UInt32.ofNat i).toNat = i := by
    rw [UInt32.toNat_ofNat', Nat.mod_eq_of_lt (hlt.trans hsize)]
  have hrow : UInt32.ofNat i ∈ rows := (hrows _).mpr ⟨doc, by rw [hnat]; exact hi, hhas⟩
  -- Nothing is left out.
  have hall : returned.Perm rows := by
    have hle := length_rows_le hfinds.docs_nodup fun d hd => (hrows d).mp hd
    have hlen : returned.length = rows.length := by
      rw [hfinds.length, Nat.min_eq_right (hle.trans hfew)]
    exact (List.subperm_of_subset hfinds.nodup hfinds.subset).perm_of_length_le hlen.ge
  refine ⟨ids, index, fuel₀, ?_, ?_, hrun⟩
  · have hmem : some doc.docId ∈ ids.map some := by
      rw [← hids]
      refine List.mem_map.mpr ⟨UInt32.ofNat i, hall.mem_iff.mpr hrow, ?_⟩
      rw [hnat, hi]
      rfl
    exact (List.mem_map_of_injective (Option.some_injective _)).mp hmem
  · have hlen := congrArg List.length hids
    rw [List.length_map, List.length_map] at hlen
    rw [← hlen, hfinds.length]
    exact Nat.min_le_left _ _

/-- Known tokens, of whose documents one has been viewed, are answered. -/
theorem Serves.answersDocs {li : LoadedIndex} {docs : List IndexedDoc} (h : Serves li docs)
    (hstrict : StrictTokens li.file.items) (S : StdSort) (r : Ranks δ τ σ)
    (hval : r.val 500 ≤ r.val 5000) {tokens : List Bytes} (hne : tokens ≠ [])
    (hknown : KnownIn docs tokens) (hviewed : ViewedIn docs tokens) (docsId : List UInt32) :
    AnswersDocs S r li docs tokens docsId :=
  (h.answersDocs_iff_answers hstrict).mpr (answers_of_known S r hval hne
    ((h.known_iff tokens).mpr hknown) ((h.viewed_iff hstrict tokens).mpr hviewed) docsId)

/-- The index that a history leaves is opened, and serves the documents of the history. -/
theorem exists_serves {S : StdSort} {config : Config}
    (hzones : config.textZones.length ≤ 255) {paths : IndexPaths} {disk : Disk}
    {docs : List IndexedDoc} (h : Indexed S config paths.docStore disk docs) {bytes : Bytes}
    (hindex : disk.dir.invertIndex = some bytes) (hsize : bytes.length < 2 ^ 63) :
    ∃ li : LoadedIndex, InvertIndex.configure config paths (filesOf disk) = .ok li.index ∧
      Serves li docs := by
  cases h.settled hzones with
  | fresh hnone _ =>
    rw [hnone] at hindex
    cases hindex
  | @complete _ items hcomplete =>
    rw [hcomplete.index, Option.some.injEq] at hindex
    subst hindex
    obtain ⟨li, hconfigure, -, hserves⟩ := exists_configured hcomplete hsize
    exact ⟨li, hconfigure, hserves⟩

theorem LoadedIndex.strictTokens {li : LoadedIndex}
    (h : li.index.invIdx.Pairwise fun a b => a.tokId < b.tokId) : StrictTokens li.file.items := by
  rw [li.table_eq] at h
  exact strictTokens_of_table h

/-- **Whatever a query returns is right**, in any history, also where tokens are in the index more
than once: the ids of documents that have every token of the query. -/
theorem indexed_sound (S : StdSort) (r : Ranks δ τ σ) (hval : r.val 500 ≤ r.val 5000)
    {config : Config} (hzones : config.textZones.length ≤ 255) {paths : IndexPaths} {disk : Disk}
    {docs : List IndexedDoc} (h : Indexed S config paths.docStore disk docs) {bytes : Bytes}
    (hindex : disk.dir.invertIndex = some bytes) (hsize : bytes.length < 2 ^ 63) :
    ∃ li : LoadedIndex, InvertIndex.configure config paths (filesOf disk) = .ok li.index ∧
      ∀ tokens docsId, tokens ≠ [] → ∃ fuel₀, ∀ fuel, fuel₀ ≤ fuel → ∀ result index,
        search fuel S r li.index tokens docsId = some (result, index) →
          ∃ ids, result = docsId ++ ids ∧
            ∀ id ∈ ids, ∃ doc ∈ docs, doc.docId = id ∧ HasTokens doc tokens := by
  obtain ⟨li, hconfigure, hserves⟩ := exists_serves hzones h hindex hsize
  refine ⟨li, hconfigure, fun tokens docsId hne => ?_⟩
  by_cases hdefined : li.Known tokens ∧ li.Viewed tokens
  · obtain ⟨rows, returned, ids, index, fuel₀, hfinds, hids, hrun⟩ :=
      answers_of_known S r hval hne hdefined.1 hdefined.2 docsId
    refine ⟨fuel₀, fun fuel hfuel result index' hresult => ?_⟩
    rw [hrun fuel hfuel, Option.some.injEq, Prod.mk.injEq] at hresult
    refine ⟨ids, hresult.1.symm, fun id hid => ?_⟩
    have hmem : some id ∈ returned.map li.index.docStore.getDocId := by
      rw [hids]
      exact List.mem_map_of_mem hid
    obtain ⟨d, hd, hdocId⟩ := List.mem_map.mp hmem
    have hcontains := (hfinds.mem_docs d).mp (hfinds.subset d hd)
    obtain ⟨doc, hdoc, hhas⟩ := hserves.hasTokens_of_contains hcontains
    refine ⟨doc, List.mem_of_getElem? hdoc, ?_, hhas⟩
    rw [DocStorage.getDocId, hserves.rows.ids, List.getElem?_map, hdoc] at hdocId
    exact Option.some.inj hdocId
  · obtain ⟨fuel₀, hnone⟩ := search_eq_none S r hne hdefined docsId
    refine ⟨fuel₀, fun fuel hfuel result index hresult => ?_⟩
    rw [hnone fuel hfuel] at hresult
    cases hresult

end

/-! ## One title -/

/-- The document of the title `x`. -/
def titledDocs : List IndexedDoc := documentsOf .oneWord titleConfig [titled]

theorem indexed_firstRun : Indexed mergeSorter titleConfig "" (destroy firstRun) titledDocs := by
  obtain ⟨fuel, hcook⟩ := cook_firstRun
  exact Indexed.empty.run (by simp [Disk.empty]) ⟨by decide, by decide⟩
    (construct_empty titleConfig "") hcook

/-- The query `x`. -/
def queryX : List Bytes := [[120]]

theorem hasTokens_titledDocs : ∀ doc ∈ titledDocs, HasTokens doc queryX := by decide

theorem knownIn_titledDocs : KnownIn titledDocs queryX :=
  (hasTokens_titledDocs _ List.mem_cons_self).knownIn List.mem_cons_self

theorem viewedIn_titledDocs : ViewedIn titledDocs queryX := fun _ =>
  ⟨_, List.mem_cons_self, hasTokens_titledDocs _ List.mem_cons_self, by decide⟩

theorem configure_firstRun : ∃ index,
    InvertIndex.configure titleConfig ⟨"", "", ""⟩ (filesOf (destroy firstRun)) = .ok index ∧
      index.invIdx.Pairwise fun a b => a.tokId < b.tokId :=
  ⟨_, rfl, by decide⟩

/-- The query finds the document 1. -/
theorem search_firstRun {index : InvertIndex}
    (hindex : InvertIndex.configure titleConfig ⟨"", "", ""⟩ (filesOf (destroy firstRun))
      = .ok index) :
    ∃ ids index' fuel₀, 1 ∈ ids ∧ ∀ fuel, fuel₀ ≤ fuel →
      search fuel mergeSorter constRanks index queryX [] = some (ids, index') := by
  obtain ⟨li, hconfigure, hserves⟩ := @exists_serves mergeSorter titleConfig (by decide)
    ⟨"", "", ""⟩ _ _ indexed_firstRun _ rfl (by decide)
  obtain ⟨_, hopened, hpairwise⟩ := configure_firstRun
  rw [hindex, Outcome.ok.injEq] at hconfigure hopened
  subst hopened hconfigure
  obtain ⟨ids, index', fuel₀, hid, -, hrun⟩ := (hserves.answersDocs
    (LoadedIndex.strictTokens hpairwise) mergeSorter constRanks (by decide) (by decide)
    knownIn_titledDocs viewedIn_titledDocs []).exists_mem hserves.documents List.mem_cons_self
    (hasTokens_titledDocs _ List.mem_cons_self) (by decide)
  exact ⟨ids, index', fuel₀, hid, hrun⟩

/-- The query `x` finds the title `x`, and nothing that has no `x` in it. -/
theorem indexed_sound_firstRun : ∃ index ids index' fuel,
    InvertIndex.configure titleConfig ⟨"", "", ""⟩ (filesOf (destroy firstRun)) = .ok index ∧
      search fuel mergeSorter constRanks index queryX [] = some (ids, index') ∧ 1 ∈ ids ∧
      ∀ id ∈ ids, ∃ doc ∈ titledDocs, doc.docId = id ∧ HasTokens doc queryX := by
  obtain ⟨li, hconfigure, hsound⟩ := @indexed_sound _ _ _ _ _ _ mergeSorter constRanks
    (by decide) titleConfig (by decide) ⟨"", "", ""⟩ _ _ indexed_firstRun _ rfl (by decide)
  obtain ⟨ids, index', fuel₁, hid, hfinds⟩ := search_firstRun hconfigure
  obtain ⟨fuel₀, hsound⟩ := hsound queryX [] (by decide)
  have hrun := hfinds (max fuel₀ fuel₁) (Nat.le_max_right _ _)
  obtain ⟨_, rfl, hdocs⟩ := hsound _ (Nat.le_max_left _ _) _ _ hrun
  exact ⟨li.index, _, index', _, hconfigure, hrun, hid, hdocs⟩

end Amigos.Searcher
