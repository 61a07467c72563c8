import Amigos.Index.Intersect
import Amigos.Ranker

/-!
# Answering a query (`Searcher::search`)

`search` looks the tokens up, intersects their entry lists, ranks what is left twice and returns
the ids. Each stage has its equation already; what is left is to say of *one* list of documents
what all the stages do to it. `Joined.eq_map` is the turn: the intersection is the image of the
documents under `tupleOf`, so that the two rankings, which rearrange and cut images, rearrange and
cut the documents.

`search_correct` needs a token. Without one `intersectEntries` returns at once and nothing is
found, although every document contains all of no tokens (`not_answers_no_tokens`).
-/

set_option autoImplicit false

namespace Amigos.Searcher

open Amigos.Lib
open Amigos.Common
open Amigos.Index
open Amigos.Ranker

/-! ## The source -/

/-- The first loop of `search`. The outer `none` is undefined, the inner one the early return. -/
def lookUp (index : InvertIndex) :
    List Bytes → Option (Option (List Idf × List (List Entry)) × InvertIndex)
  | [] => some (some ([], []), index)
  | token :: tokens => do
    let tknId ← index.findTknIdx token
    if tknId = unexistingToken then return (none, index)
    let idf ← index.getIDF tknId
    let (entries, index) ← index.getEntries tknId []
    let (rest, index) ← lookUp index tokens
    return (rest.map fun (idfs, lists) => (idf :: idfs, entries :: lists), index)

/-- `Searcher::search`: `docsId` is what the caller's vector holds already. -/
def search {δ τ σ : Type} [LinearOrder δ] [LinearOrder τ] [LinearOrder σ] (fuel : Nat)
    (S : StdSort) (r : Ranks δ τ σ) (index : InvertIndex) (tokens : List Bytes)
    (docsId : List UInt32) : Option (List UInt32 × InvertIndex) := do
  let (found, index) ← lookUp index tokens
  match found with
  | none => return (docsId, index)
  | some (tokIdfs, entriesByToken) =>
    let entriesByDoc ← intersectEntries fuel entriesByToken []
    let entriesByDocDraft ← draftRanking S r index entriesByDoc tokIdfs
    let docidByRank ← getListOfSortedDocidByRank S r index entriesByDocDraft
    return (docsId ++ docidByRank.map Prod.fst, index)

/-! ## A loaded index -/

/-- An index as `configure` has loaded it: tokens that do not decrease, entry lists that are
strictly increasing, and a document store that has every document of an entry and its views. -/
structure LoadedIndex where
  file : IndexFile
  index : InvertIndex
  table_eq : index.invIdx = table file.items
  data_eq : index.invIdxStream.data = file.bytes
  sorted : file.items.Pairwise fun it it' => it.token ≤ it'.token
  increasing : ∀ it ∈ file.items, Increasing it.entries
  stored : ∀ it ∈ file.items, ∀ e ∈ it.entries, e.docIdOffset.toNat < index.docStore.docIds.length
  viewed : ∀ d : UInt32, d.toNat < index.docStore.docIds.length →
    (index.docStore.getNumZone d viewsCnt).isSome

namespace LoadedIndex

/-- The item of a word; the index knows it by its hash. -/
def itemOf (li : LoadedIndex) (word : Bytes) : Option IdxItem :=
  li.file.items.find? fun it => it.token == murmurHash2 word

/-- The entries of a word, none if it does not occur. -/
def entriesOf (li : LoadedIndex) (word : Bytes) : List Entry :=
  ((li.itemOf word).map IdxItem.entries).getD []

def idfOf (li : LoadedIndex) (word : Bytes) : Idf :=
  { size := li.file.items.length, entriesCnt := UInt32.ofNat (li.entriesOf word).length }

/-- The word occurs in the index. -/
def Occurs (li : LoadedIndex) (word : Bytes) : Prop := (li.itemOf word).isSome = true

instance (li : LoadedIndex) (word : Bytes) : Decidable (li.Occurs word) := by
  unfold Occurs; infer_instance

/-- The document in row `d` of the store contains every token. -/
def Contains (li : LoadedIndex) (tokens : List Bytes) (d : UInt32) : Prop :=
  d.toNat < li.index.docStore.docIds.length ∧
    ∀ word ∈ tokens, ∃ e ∈ li.entriesOf word, e.docIdOffset = d

/-- The number of views of a document. -/
def views (li : LoadedIndex) (d : UInt32) : UInt32 :=
  (li.index.docStore.getNumZone d viewsCnt).getD 0

/-- The id of a document. -/
def docId (li : LoadedIndex) (d : UInt32) : UInt32 := (li.index.docStore.getDocId d).getD 0

/-- Whichever loader has read the file, the table of a loaded index is what it has made of it. -/
theorem loaded (li : LoadedIndex) (config : Config) (posFile : Bytes)
    (hpos : config.invertIndexIPosFile.isEmpty = true ∨
      posFile = Indexer.posBytes li.file.items) :
    ∃ s, loadInvIdx config li.file.bytes posFile = some (li.index.invIdx, s) ∧
      s.data = li.index.invIdxStream.data := by
  rw [li.table_eq, li.data_eq]
  cases hplain : config.invertIndexIPosFile.isEmpty with
  | true => exact loadInvIdx_plain li.file hplain posFile
  | false =>
    rcases hpos with h | rfl
    · rw [hplain] at h
      exact absurd h Bool.false_ne_true
    · exact loadInvIdx_opt li.file hplain

theorem getNumZone_views (li : LoadedIndex) {d : UInt32}
    (hd : d.toNat < li.index.docStore.docIds.length) :
    li.index.docStore.getNumZone d viewsCnt = some (li.views d) := by
  obtain ⟨v, hv⟩ := Option.isSome_iff_exists.mp (li.viewed d hd)
  rw [views, hv, Option.getD_some]

theorem getDocId_docId (li : LoadedIndex) {d : UInt32}
    (hd : d.toNat < li.index.docStore.docIds.length) :
    li.index.docStore.getDocId d = some (li.docId d) := by
  rw [docId, DocStorage.getDocId, List.getElem?_eq_getElem hd, Option.getD_some]

end LoadedIndex

/-- The entries of document `d` in the lists, one from each. -/
def tupleOf (lists : List (List Entry)) (d : UInt32) : List Entry :=
  lists.filterMap fun l => l.find? fun e => e.docIdOffset == d

/-- **What a query should find.** Of the documents `docs` that contain every token, `returned`
are `min 200 n` different ones, none of the others has a higher draft rank than one of them, and
they stand in three groups by the rank of the title, each by falling rank of the subtitles. -/
structure Finds {δ τ σ : Type} [LinearOrder δ] [LinearOrder τ] [LinearOrder σ] (r : Ranks δ τ σ)
    (li : LoadedIndex) (tokens : List Bytes) (docs returned : List UInt32) : Prop where
  docs_nodup : docs.Nodup
  mem_docs : ∀ d, d ∈ docs ↔ li.Contains tokens d
  nodup : returned.Nodup
  subset : ∀ d ∈ returned, d ∈ docs
  length : returned.length = min maxDraftDocs docs.length
  best : ∀ d ∈ docs, d ∉ returned → ∀ d' ∈ returned,
    draftOf r (tokens.map li.idfOf) (tupleOf (tokens.map li.entriesOf)) li.views
        (maxOf li.views docs) d
      ≤ draftOf r (tokens.map li.idfOf) (tupleOf (tokens.map li.entriesOf)) li.views
        (maxOf li.views docs) d'
  grouped : ∃ best good rest, returned = best ++ good ++ rest ∧
    Grouped r (tupleOf (tokens.map li.entriesOf)) best good rest

/-- `search` appends the ids of the documents that the query should find. -/
def Answers {δ τ σ : Type} [LinearOrder δ] [LinearOrder τ] [LinearOrder σ] (S : StdSort)
    (r : Ranks δ τ σ) (li : LoadedIndex) (tokens : List Bytes) (docsId : List UInt32) : Prop :=
  ∃ (docs returned ids : List UInt32) (index : InvertIndex) (fuel₀ : Nat),
    Finds r li tokens docs returned ∧
    returned.map li.index.docStore.getDocId = ids.map some ∧
    ∀ fuel, fuel₀ ≤ fuel → search fuel S r li.index tokens docsId = some (docsId ++ ids, index)

/-! ## Looking up -/

theorem LoadedIndex.exists_split {li : LoadedIndex} {word : Bytes} (h : li.Occurs word) :
    ∃ a it b, li.file.items = a ++ it :: b ∧ li.itemOf word = some it ∧
      it.token = murmurHash2 word ∧ (∀ x ∈ a, x.token < it.token) ∧
      ∀ x ∈ b, it.token ≤ x.token := by
  obtain ⟨it, hit⟩ := Option.isSome_iff_exists.mp h
  obtain ⟨htok, a, b, hitems, ha⟩ := List.find?_eq_some_iff_append.mp hit
  have htok' : it.token = murmurHash2 word := beq_iff_eq.mp htok
  have hsorted := li.sorted
  rw [hitems, List.pairwise_append, List.pairwise_cons] at hsorted
  refine ⟨a, it, b, hitems, hit, htok', ?_, hsorted.2.1.1⟩
  intro x hx
  refine lt_of_le_of_ne (hsorted.2.2 x hx it List.mem_cons_self) ?_
  intro heq
  have := ha x hx
  rw [heq, htok'] at this
  simp at this

/-- The entries of a word are those of an item of the file. -/
theorem LoadedIndex.exists_of_mem_entriesOf {li : LoadedIndex} {word : Bytes} {e : Entry}
    (h : e ∈ li.entriesOf word) : ∃ it ∈ li.file.items, li.entriesOf word = it.entries := by
  unfold entriesOf at h ⊢
  cases hit : li.itemOf word with
  | none => rw [hit] at h; simp at h
  | some it => exact ⟨it, List.mem_of_find?_eq_some hit, rfl⟩

theorem LoadedIndex.occurs_of_mem_entriesOf {li : LoadedIndex} {word : Bytes} {e : Entry}
    (h : e ∈ li.entriesOf word) : li.Occurs word := by
  unfold entriesOf at h
  unfold Occurs
  cases hit : li.itemOf word with
  | none => rw [hit] at h; simp at h
  | some it => rfl

theorem LoadedIndex.increasing_entriesOf (li : LoadedIndex) (word : Bytes) :
    Increasing (li.entriesOf word) := by
  unfold entriesOf
  cases hit : li.itemOf word with
  | none => exact List.Pairwise.nil
  | some it => exact li.increasing it (List.mem_of_find?_eq_some hit)

/-- **The tokens are looked up**, by induction on the tokens; the index stream moves on the way. -/
theorem lookUp_eq (li : LoadedIndex) {tokens : List Bytes} (hocc : ∀ w ∈ tokens, li.Occurs w) :
    ∀ index : InvertIndex, index.invIdx = table li.file.items →
      index.invIdxStream.data = li.file.bytes →
      ∃ s' : IStream, lookUp index tokens
        = some (some (tokens.map li.idfOf, tokens.map li.entriesOf),
            { index with invIdxStream := s' }) := by
  induction tokens with
  | nil => exact fun index _ _ => ⟨index.invIdxStream, rfl⟩
  | cons word tokens ih =>
    intro index htable hdata
    obtain ⟨a, it, b, hitems, hitem, htok, ha, hb⟩ := li.exists_split
      (hocc word List.mem_cons_self)
    have hentries : li.entriesOf word = it.entries := by rw [LoadedIndex.entriesOf, hitem]; rfl
    have hfind := findTknIdx_eq htable hitems htok ha hb
    have hidf := getIDF_eq htable hitems
    obtain ⟨pos, hget⟩ := getEntries_eq htable hdata hitems
    obtain ⟨s', hrest⟩ := ih (fun w hw => hocc w (List.mem_cons_of_mem _ hw))
      { index with invIdxStream := ⟨li.file.bytes, pos⟩ } htable rfl
    -- A position is never mistaken for the value that says there is none.
    have hexists : UInt32.ofNat a.length ≠ unexistingToken := by
      have hlen := li.file.count
      rw [hitems, List.length_append, List.length_cons] at hlen
      rw [Ne, ← UInt32.toNat_inj, UInt32.toNat_ofNat', Nat.mod_eq_of_lt (by omega)]
      exact Nat.ne_of_lt (show a.length < 2 ^ 32 - 1 by omega)
    refine ⟨s', ?_⟩
    simp only [lookUp, hfind, if_neg hexists, hidf, hget, hrest, Option.bind_eq_bind,
      Option.bind_some, Option.map_some, Option.pure_def, List.map_cons, hentries,
      LoadedIndex.idfOf]

/-! ## Tuples -/

theorem find?_of_increasing {l : List Entry} (h : Increasing l) {e : Entry} (he : e ∈ l) :
    l.find? (fun x => x.docIdOffset == e.docIdOffset) = some e := by
  obtain ⟨a, b, rfl⟩ := List.append_of_mem he
  have hbefore := (List.pairwise_append.mp h).2.2
  rw [List.find?_append, List.find?_eq_none.mpr, Option.none_or, List.find?_cons_of_pos (by simp)]
  intro x hx
  have hlt := hbefore x hx e List.mem_cons_self
  simpa using ne_of_lt hlt

theorem TupleFor.eq_tupleOf {lists : List (List Entry)} {d : UInt32} {tuple : List Entry}
    (h : TupleFor lists d tuple) (hinc : ∀ l ∈ lists, Increasing l) : tuple = tupleOf lists d := by
  induction h with
  | nil => rfl
  | @cons l e lists tuple he _ ih =>
    obtain ⟨hmem, rfl⟩ := he
    rw [tupleOf, List.filterMap_cons_some (find?_of_increasing (hinc l List.mem_cons_self) hmem)]
    rw [ih fun l hl => hinc l (List.mem_cons_of_mem _ hl)]
    rfl

/-- **An intersection is the image of its documents.** -/
theorem Joined.eq_map {lists : List (List Entry)} {docs : List UInt32} {out : List (List Entry)}
    (h : Joined lists docs out) (hinc : ∀ l ∈ lists, Increasing l) :
    out = docs.map (tupleOf lists) := by
  have htuples := h.tuples.imp fun _ _ ht => TupleFor.eq_tupleOf ht hinc
  rw [← List.forall₂_eq_eq_eq, List.forall₂_map_right_iff]
  exact htuples.flip

/-- Every document of an intersection has a tuple with an entry in front. -/
theorem Joined.head {lists : List (List Entry)} {docs : List UInt32} {out : List (List Entry)}
    (h : Joined lists docs out) (hinc : ∀ l ∈ lists, Increasing l) (hne : lists ≠ []) :
    ∀ d ∈ docs, ∃ e, (tupleOf lists d).head? = some e ∧ e.docIdOffset = d := by
  have htuples := h.tuples
  rw [Joined.eq_map h hinc, List.forall₂_map_right_iff] at htuples
  exact fun d hd => TupleFor.head (List.forall₂_same.mp htuples d hd) hne

/-! ## The query -/

/-- With a token, the documents of the intersection are those that contain every token. -/
theorem LoadedIndex.contains_iff (li : LoadedIndex) {tokens : List Bytes} (hne : tokens ≠ [])
    (d : UInt32) :
    li.Contains tokens d ↔ ∀ l ∈ tokens.map li.entriesOf, ∃ e ∈ l, e.docIdOffset = d := by
  constructor
  · rintro ⟨-, h⟩ l hl
    obtain ⟨word, hword, rfl⟩ := List.mem_map.mp hl
    exact h word hword
  · intro h
    have hall : ∀ word ∈ tokens, ∃ e ∈ li.entriesOf word, e.docIdOffset = d :=
      fun word hword => h _ (List.mem_map_of_mem hword)
    obtain ⟨word, hword⟩ := List.exists_mem_of_ne_nil tokens hne
    obtain ⟨e, he, rfl⟩ := hall word hword
    obtain ⟨it, hit, heq⟩ := LoadedIndex.exists_of_mem_entriesOf he
    exact ⟨li.stored it hit e (heq ▸ he), hall⟩

/-- **A query is answered.** For any rank functions, any `std::sort` and any tokens of the index,
at least one of them, if a document that contains them all has been viewed. -/
theorem search_correct {δ τ σ : Type} [LinearOrder δ] [LinearOrder τ] [LinearOrder σ]
    (S : StdSort) (r : Ranks δ τ σ) (hval : r.val 500 ≤ r.val 5000) (li : LoadedIndex)
    (tokens : List Bytes) (hne : tokens ≠ []) (hocc : ∀ word ∈ tokens, li.Occurs word)
    (hviews : ∃ d, li.Contains tokens d ∧ li.views d ≠ 0) (docsId : List UInt32) :
    Answers S r li tokens docsId := by
  have hinc : ∀ l ∈ tokens.map li.entriesOf, Increasing l := by
    intro l hl
    obtain ⟨word, -, rfl⟩ := List.mem_map.mp hl
    exact li.increasing_entriesOf word
  have hlists : tokens.map li.entriesOf ≠ [] := by simpa using hne
  obtain ⟨s', hlook⟩ := lookUp_eq li hocc li.index li.table_eq li.data_eq
  obtain ⟨out, docs, hrun, hj⟩ := intersectEntries_joined _ hlists hinc
  have hout := Joined.eq_map hj hinc
  have hmem : ∀ d, d ∈ docs ↔ li.Contains tokens d := fun d =>
    (hj.mem d).trans (li.contains_iff hne d).symm
  have hnodup : docs.Nodup := hj.increasing.imp fun h => ne_of_lt h
  have hhead := Joined.head hj hinc hlists
  -- Both rankings read of a document what the store has in the row of its first entry.
  have hzone : ∀ d ∈ docs, ∃ e, (tupleOf (tokens.map li.entriesOf) d).head? = some e ∧
      ({ li.index with invIdxStream := s' } : InvertIndex).getNZone e viewsCnt
        = some (li.views d) := by
    intro d hd
    obtain ⟨e, he, rfl⟩ := hhead d hd
    exact ⟨e, he, li.getNumZone_views ((hmem _).mp hd).1⟩
  have hid : ∀ d ∈ docs, ∃ e, (tupleOf (tokens.map li.entriesOf) d).head? = some e ∧
      ({ li.index with invIdxStream := s' } : InvertIndex).getDocId e = some (li.docId d) := by
    intro d hd
    obtain ⟨e, he, rfl⟩ := hhead d hd
    exact ⟨e, he, li.getDocId_docId ((hmem _).mp hd).1⟩
  have hpos : maxOf li.views docs ≠ 0 := by
    obtain ⟨d, hd, hv⟩ := hviews
    intro hzero
    have hle := le_maxOf (f := li.views) ((hmem d).mpr hd)
    rw [hzero] at hle
    exact hv (UInt32.le_zero_iff.mp hle)
  obtain ⟨kept, dropped, hperm, hlen, hdraft, hbest⟩ :=
    draftRanking_eq S r (tokens.map li.idfOf) hzone hpos
  have hkept : ∀ d ∈ kept, d ∈ docs := fun d hd =>
    hperm.mem_iff.mp (List.mem_append_left _ hd)
  obtain ⟨best, good, rest, hperm', hlist, hgrouped⟩ :=
    getListOfSortedDocidByRank_eq S r hval (fun d hd => hid d (hkept d hd))
  refine ⟨docs, best ++ good ++ rest, (best ++ good ++ rest).map li.docId,
    { li.index with invIdxStream := s' }, ((tokens.map li.entriesOf).map List.length).sum + 1,
    ?_, ?_, fun fuel hfuel => ?_⟩
  · refine ⟨hnodup, hmem, ?_, ?_, ?_, ?_, best, good, rest, rfl, hgrouped⟩
    · exact hperm'.nodup_iff.mpr (List.nodup_append.mp (hperm.nodup_iff.mpr hnodup)).1
    · exact fun d hd => hkept d (hperm'.mem_iff.mp hd)
    · rw [hperm'.length_eq, hlen]
    -- A document that is not returned is one that the draft ranking has dropped.
    · intro d hd hout' d' hd'
      refine hbest d ?_ d' (hperm'.mem_iff.mp hd')
      rcases List.mem_append.mp (hperm.mem_iff.mpr hd) with hin | hin
      · exact absurd (hperm'.mem_iff.mpr hin) hout'
      · exact hin
  · rw [List.map_map]
    exact List.map_congr_left fun d hd =>
      li.getDocId_docId ((hmem d).mp (hkept d (hperm'.mem_iff.mp hd))).1
  · have hfuel' := hrun fuel (Nat.lt_of_succ_le hfuel)
    simp only [search, hlook, Option.bind_eq_bind, Option.bind_some, hfuel', hout, hdraft, hlist,
      List.map_map, Option.pure_def]
    rfl

/-! ## One document, and five -/

/-- The index of one document, with id 42 and seven views, that consists of the word `a`. -/
def oneDocument : LoadedIndex :=
  let file : IndexFile :=
    { items := [⟨murmurHash2 [97], [⟨0, ⟨1, 0, [1]⟩⟩]⟩], fits := by decide, count := by decide,
      size := by decide }
  { file
    index :=
      { invIdx := table file.items
        invIdxStream := ⟨file.bytes, 0⟩
        postingStore := ⟨[0, 0], 1⟩
        docStore := { docIds := [42], nZones := [[7], [0], [0], [0]], tZonesWCnt := [[1]] } }
    table_eq := rfl
    data_eq := rfl
    sorted := by decide
    increasing := by decide
    stored := by decide
    viewed := fun d hd => by
      obtain rfl : d = 0 := UInt32.toNat_inj.mp (Nat.lt_one_iff.mp hd)
      rfl }

/-- Ranks for it: its views, and constants. -/
def constRanks : Ranks Nat Nat Nat :=
  { draft := fun _ _ views => views.toNat, title := fun _ => 600, subs := fun _ => 3, val := id }

/-- An index of five documents with the word `b`; the first four of them have the word `a`, too. -/
def fiveDocuments : LoadedIndex :=
  let file : IndexFile :=
    { items :=
        [⟨murmurHash2 [98], [0, 1, 2, 3, 4].map fun d => ⟨d, ⟨1, 0, [1]⟩⟩⟩,
          ⟨murmurHash2 [97], [0, 1, 2, 3].map fun d => ⟨d, ⟨1, 0, [1]⟩⟩⟩]
      fits := by decide, count := by decide, size := by decide +kernel }
  { file
    index :=
      { invIdx := table file.items
        invIdxStream := ⟨file.bytes, 0⟩
        postingStore := ⟨[0, 0], 1⟩
        docStore :=
          { docIds := [40, 41, 42, 43, 44]
            nZones := [7, 9, 0, 3, 5] :: List.replicate 3 [0, 0, 0, 0, 0]
            tZonesWCnt := [[2, 2, 2, 2, 2]] } }
    table_eq := rfl
    data_eq := rfl
    sorted := by decide
    increasing := by decide
    stored := by decide
    viewed := fun d hd => by
      have hcolumn : d.toNat < ([7, 9, 0, 3, 5] : List UInt32).length := hd
      exact Option.isSome_iff_exists.mpr ⟨_, List.getElem?_eq_getElem hcolumn⟩ }

/-- The document 2 is among the best, 1 and 3 among the good ones, and 0 is behind them. -/
def rowRanks : Ranks Nat Nat Nat :=
  { draft := fun _ _ views => views.toNat
    title := fun entries => [100, 600, 6000, 700].getD (entries.headD default).docIdOffset.toNat 0
    subs := fun entries => (entries.headD default).docIdOffset.toNat
    val := id }

theorem search_correct_fiveDocuments :
    (∀ word ∈ [[97], [98]], fiveDocuments.Occurs word) ∧
    Answers mergeSorter rowRanks fiveDocuments [[97], [98]] [] := by
  have hocc : ∀ word ∈ [[97], [98]], fiveDocuments.Occurs word := by decide
  have hcontains : fiveDocuments.Contains [[97], [98]] 0 := ⟨by decide, by decide⟩
  exact ⟨hocc, search_correct mergeSorter rowRanks (by decide) fiveDocuments [[97], [98]]
    (by decide) hocc ⟨0, hcontains, by decide⟩ []⟩

/-! ## No tokens -/

theorem search_nil {δ τ σ : Type} [LinearOrder δ] [LinearOrder τ] [LinearOrder σ] (fuel : Nat)
    (S : StdSort) (r : Ranks δ τ σ) (index : InvertIndex) (docsId : List UInt32) :
    search fuel S r index [] docsId = some (docsId, index) := by
  have hdraft : draftRanking S r index [] [] = some [] := by
    simp [draftRanking, getMaxNZone, maxNZoneFrom]
  have hsearch : ∀ val : τ, lowerBound (titleOnlyMore (σ := σ) val) [] = some 0 := fun _ => rfl
  have hlist : getListOfSortedDocidByRank S r index [] = some [] := by
    simp [getListOfSortedDocidByRank, docidByRank, hsearch]
  simp only [search, lookUp, intersectEntries, hdraft, hlist, Option.bind_eq_bind,
    Option.bind_some, List.map_nil, List.append_nil, Option.pure_def]

/-- **A query without tokens finds nothing**, although all of its tokens occur in the index and a
document that contains them all has been viewed. -/
theorem not_answers_no_tokens :
    (∀ word ∈ [], oneDocument.Occurs word) ∧
    (∃ d, oneDocument.Contains [] d ∧ oneDocument.views d ≠ 0) ∧
    ¬ Answers mergeSorter constRanks oneDocument [] [] := by
  have hcontains : oneDocument.Contains [] 0 := ⟨by decide, by simp⟩
  refine ⟨by simp, ⟨0, hcontains, by decide⟩, ?_⟩
  rintro ⟨docs, returned, ids, index, fuel₀, hfinds, hids, hrun⟩
  have hnone : ids = [] := by
    have hrun' := hrun fuel₀ (Nat.le_refl _)
    rw [search_nil] at hrun'
    simp only [List.nil_append, Option.some.injEq, Prod.mk.injEq] at hrun'
    exact hrun'.1.symm
  have hreturned : returned = [] := by simpa [hnone] using hids
  have hmem := (hfinds.mem_docs 0).mpr hcontains
  have hlen := hfinds.length
  rw [hreturned, List.length_nil, maxDraftDocs] at hlen
  have hpos := List.length_pos_of_mem hmem
  omega

end Amigos.Searcher
