import Amigos.Searcher

/-!
# Every outcome of a query (`Searcher::search`)

`search` can come to an end in two ways: a token is not in the index and nothing is found, or all
tokens are, and the documents that contain them are ranked. It can also fail to mean anything, and
in two places only. `findTknIdx` reads behind the table for a token above all others (`Known`), and
the ranker divides by the largest number of views of the documents found, which may be 0.

`answers_iff` says that these are all: where neither happens, the query is answered, with the best
of the documents that contain every token, which may be none.
-/

set_option autoImplicit false

namespace Amigos.Searcher

open Amigos.Lib
open Amigos.Common
open Amigos.Index
open Amigos.Ranker

/-! ## A token that does not occur -/

namespace LoadedIndex

/-- **The tokens are looked up inside of the table**, up to the first one that does not occur. -/
def Known (li : LoadedIndex) : List Bytes → Prop
  | [] => True
  | word :: words =>
    if li.Occurs word then li.Known words
    else ∃ it ∈ li.file.items, murmurHash2 word ≤ it.token

theorem known_cons_of_occurs {li : LoadedIndex} {word : Bytes} (h : li.Occurs word)
    (words : List Bytes) : li.Known (word :: words) ↔ li.Known words := by
  rw [Known, if_pos h]

theorem known_cons_of_not_occurs {li : LoadedIndex} {word : Bytes} (h : ¬ li.Occurs word)
    (words : List Bytes) :
    li.Known (word :: words) ↔ ∃ it ∈ li.file.items, murmurHash2 word ≤ it.token := by
  rw [Known, if_neg h]

theorem known_of_occurs {li : LoadedIndex} {words : List Bytes}
    (h : ∀ word ∈ words, li.Occurs word) : li.Known words := by
  induction words with
  | nil => trivial
  | cons word words ih =>
    obtain ⟨hword, hwords⟩ := List.forall_mem_cons.mp h
    exact (known_cons_of_occurs hword words).mpr (ih hwords)

theorem token_ne_of_not_occurs {li : LoadedIndex} {word : Bytes} (h : ¬ li.Occurs word) :
    ∀ it ∈ li.file.items, it.token ≠ murmurHash2 word := by
  intro it hit heq
  apply h
  rw [Occurs, itemOf, List.find?_isSome]
  exact ⟨it, hit, beq_iff_eq.mpr heq⟩

/-- The search for a token that does not occur ends at the first one above it, or behind all. -/
theorem findTknIdx_of_not_occurs {li : LoadedIndex} {word : Bytes} (h : ¬ li.Occurs word)
    {index : InvertIndex} (htable : index.invIdx = table li.file.items) :
    index.findTknIdx word
      = if (∃ it ∈ li.file.items, murmurHash2 word ≤ it.token) then some unexistingToken
        else none := by
  obtain ⟨t, ht⟩ : ∃ t, t = murmurHash2 word := ⟨_, rfl⟩
  obtain ⟨a, b, hsplit, ha, hb⟩ := exists_partition
    (fun it : IdxItem => decide (it.token < t))
    (li.sorted.imp fun {x y} hxy hy => decide_eq_true (lt_of_le_of_lt hxy (of_decide_eq_true hy)))
  have hsearch : lowerBound (fun item : InvIdxItem => decide (item.tokId < t)) index.invIdx
      = some a.length := by
    rw [htable, table, hsplit, tableFrom_append]
    refine (lowerBound_of_partition ?_ ?_).trans (by rw [length_tableFrom])
    · intro item hmem
      obtain ⟨x, hx, heq⟩ := exists_of_mem_tableFrom hmem
      rw [heq]
      exact ha x hx
    · intro item hmem
      obtain ⟨x, hx, heq⟩ := exists_of_mem_tableFrom hmem
      rw [heq]
      exact hb x hx
  rw [← ht]
  cases b with
  | nil =>
    have hnone : ¬ ∃ it ∈ li.file.items, t ≤ it.token := by
      rintro ⟨it, hit, hle⟩
      rw [hsplit, List.append_nil] at hit
      exact absurd (of_decide_eq_true (ha it hit)) (not_lt.mpr hle)
    have hlen : (UInt32.ofNat a.length).toNat = (table li.file.items).length := by
      have hcount := li.file.count
      rw [hsplit, List.append_nil] at hcount ⊢
      rw [table, length_tableFrom, UInt32.toNat_ofNat', Nat.mod_eq_of_lt hcount]
    rw [if_neg hnone]
    simp only [InvertIndex.findTknIdx, ← ht, hsearch, Option.bind_eq_bind, Option.bind_some, hlen]
    rw [htable, List.getElem?_eq_none (Nat.le_refl _)]
    rfl
  | cons it b =>
    have hit : it ∈ li.file.items := by
      rw [hsplit]
      exact List.mem_append_right a List.mem_cons_self
    have hle : t ≤ it.token := not_lt.mp (of_decide_eq_false (hb it List.mem_cons_self))
    have hne : it.token ≠ t := ht ▸ token_ne_of_not_occurs h it hit
    rw [if_pos ⟨it, hit, hle⟩]
    simp only [InvertIndex.findTknIdx, ← ht, hsearch, Option.bind_eq_bind, Option.bind_some]
    rw [htable, li.file.table_getElem? hsplit, Option.bind_some, if_neg hne]
    rfl

/-- A document that contains all tokens contains each of them. -/
theorem not_contains_of_not_occurs {li : LoadedIndex} {tokens : List Bytes} {word : Bytes}
    (hword : word ∈ tokens) (h : ¬ li.Occurs word) (d : UInt32) : ¬ li.Contains tokens d := by
  rintro ⟨-, hall⟩
  obtain ⟨e, he, -⟩ := hall word hword
  exact h (occurs_of_mem_entriesOf he)

end LoadedIndex

/-- A token that occurs is looked up, and leaves the stream in the index file. -/
theorem lookUp_cons (li : LoadedIndex) {word : Bytes} (hocc : li.Occurs word)
    (tokens : List Bytes) {index : InvertIndex} (htable : index.invIdx = table li.file.items)
    (hdata : index.invIdxStream.data = li.file.bytes) :
    ∃ pos, lookUp index (word :: tokens)
      = (lookUp { index with invIdxStream := ⟨li.file.bytes, pos⟩ } tokens).map fun found =>
          (found.1.map fun p => (li.idfOf word :: p.1, li.entriesOf word :: p.2), found.2) := by
  obtain ⟨a, it, b, hitems, hitem, htok, ha, hb⟩ := li.exists_split hocc
  have hentries : li.entriesOf word = it.entries := by rw [LoadedIndex.entriesOf, hitem]; rfl
  have hexists : UInt32.ofNat a.length ≠ unexistingToken := by
    have hlen := li.file.count
    rw [hitems, List.length_append, List.length_cons] at hlen
    rw [Ne, ← UInt32.toNat_inj, UInt32.toNat_ofNat', Nat.mod_eq_of_lt (by omega)]
    exact Nat.ne_of_lt (show a.length < 2 ^ 32 - 1 by omega)
  obtain ⟨pos, hget⟩ := getEntries_eq htable hdata hitems
  refine ⟨pos, ?_⟩
  simp only [lookUp, findTknIdx_eq htable hitems htok ha hb, if_neg hexists,
    getIDF_eq htable hitems, hget, Option.bind_eq_bind, Option.bind_some, Option.map_eq_bind,
    Option.pure_def, hentries, LoadedIndex.idfOf]
  rfl

/-- Tokens that all occur are looked up without the stores. -/
theorem lookUp_of_occurs (li : LoadedIndex) {tokens : List Bytes}
    (hocc : ∀ word ∈ tokens, li.Occurs word) :
    ∃ index, index.docStore = li.index.docStore ∧
      lookUp li.index tokens
        = some (some (tokens.map li.idfOf, tokens.map li.entriesOf), index) := by
  obtain ⟨s', hlook⟩ := lookUp_eq li hocc li.index li.table_eq li.data_eq
  exact ⟨{ li.index with invIdxStream := s' }, rfl, hlook⟩

/-- **Looking up stops at a token that does not occur**, or reads outside of the table. -/
theorem lookUp_of_not_occurs (li : LoadedIndex) {tokens : List Bytes}
    (hnot : ¬ ∀ word ∈ tokens, li.Occurs word) :
    ∀ index : InvertIndex, index.invIdx = table li.file.items →
      index.invIdxStream.data = li.file.bytes →
      (li.Known tokens →
        ∃ s' : IStream, lookUp index tokens = some (none, { index with invIdxStream := s' })) ∧
      (¬ li.Known tokens → lookUp index tokens = none) := by
  induction tokens with
  | nil => exact absurd (fun word hword => absurd hword List.not_mem_nil) hnot
  | cons word tokens ih =>
    intro index htable hdata
    by_cases hocc : li.Occurs word
    · have hrest : ¬ ∀ w ∈ tokens, li.Occurs w := fun hall =>
        hnot (List.forall_mem_cons.mpr ⟨hocc, hall⟩)
      obtain ⟨pos, hcons⟩ := lookUp_cons li hocc tokens htable hdata
      obtain ⟨hknown, hunknown⟩ :=
        ih hrest { index with invIdxStream := ⟨li.file.bytes, pos⟩ } htable rfl
      rw [LoadedIndex.known_cons_of_occurs hocc, hcons]
      refine ⟨fun h => ?_, fun h => ?_⟩
      · obtain ⟨s', hstop⟩ := hknown h
        exact ⟨s', by rw [hstop]; rfl⟩
      · rw [hunknown h]
        rfl
    · have hfind := LoadedIndex.findTknIdx_of_not_occurs hocc htable
      rw [LoadedIndex.known_cons_of_not_occurs hocc]
      refine ⟨fun hknown => ⟨index.invIdxStream, ?_⟩, fun hunknown => ?_⟩
      · rw [if_pos hknown] at hfind
        simp only [lookUp, hfind, Option.bind_eq_bind, Option.bind_some, if_true, Option.pure_def]
      · rw [if_neg hunknown] at hfind
        simp only [lookUp, hfind, Option.bind_eq_bind, Option.bind_none]

/-! ## The documents that are found -/

/-- **The documents of a query**: those that contain every token. The first entry of a document
is one of it. -/
structure Matches (li : LoadedIndex) (tokens : List Bytes) (docs : List UInt32) : Prop where
  nodup : docs.Nodup
  mem : ∀ d, d ∈ docs ↔ li.Contains tokens d
  head : ∀ d ∈ docs, ∃ e, (tupleOf (tokens.map li.entriesOf) d).head? = some e ∧
    e.docIdOffset = d

/-- **The intersection is the documents of the query**, with enough fuel. -/
theorem exists_matches (li : LoadedIndex) {tokens : List Bytes} (hne : tokens ≠ []) :
    ∃ docs, Matches li tokens docs ∧
      ∀ fuel, ((tokens.map li.entriesOf).map List.length).sum < fuel →
        intersectEntries fuel (tokens.map li.entriesOf) []
          = some (docs.map (tupleOf (tokens.map li.entriesOf))) := by
  have hinc : ∀ l ∈ tokens.map li.entriesOf, Increasing l := by
    intro l hl
    obtain ⟨word, -, rfl⟩ := List.mem_map.mp hl
    exact li.increasing_entriesOf word
  have hlists : tokens.map li.entriesOf ≠ [] := by simpa using hne
  obtain ⟨out, docs, hrun, hjoined⟩ := intersectEntries_joined _ hlists hinc
  refine ⟨docs, ⟨hjoined.increasing.imp fun h => ne_of_lt h, fun d => ?_,
    Joined.head hjoined hinc hlists⟩, fun fuel hfuel => ?_⟩
  · exact (hjoined.mem d).trans (li.contains_iff hne d).symm
  · rw [hrun fuel hfuel, Joined.eq_map hjoined hinc]

namespace Matches

variable {li : LoadedIndex} {tokens : List Bytes} {docs : List UInt32} {index : InvertIndex}

/-- The rankings read the numbers of views in the rows of the documents. -/
theorem getNZone_views (h : Matches li tokens docs) (hstore : index.docStore = li.index.docStore) :
    ∀ d ∈ docs, ∃ e, (tupleOf (tokens.map li.entriesOf) d).head? = some e ∧
      index.getNZone e viewsCnt = some (li.views d) := by
  intro d hd
  obtain ⟨e, he, rfl⟩ := h.head d hd
  refine ⟨e, he, ?_⟩
  rw [InvertIndex.getNZone, hstore]
  exact li.getNumZone_views ((h.mem _).mp hd).1

/-- And the ids. -/
theorem getDocId_docId (h : Matches li tokens docs) (hstore : index.docStore = li.index.docStore) :
    ∀ d ∈ docs, ∃ e, (tupleOf (tokens.map li.entriesOf) d).head? = some e ∧
      index.getDocId e = some (li.docId d) := by
  intro d hd
  obtain ⟨e, he, rfl⟩ := h.head d hd
  refine ⟨e, he, ?_⟩
  rw [InvertIndex.getDocId, hstore]
  exact li.getDocId_docId ((h.mem _).mp hd).1

end Matches

section Ranking

variable {δ τ σ : Type} [LinearOrder δ] {S : StdSort} {r : Ranks δ τ σ} {index : InvertIndex}

theorem draftRanking_nil (idfs : List Idf) : draftRanking S r index [] idfs = some [] := by
  simp [draftRanking, getMaxNZone, maxNZoneFrom]

/-- Documents that nobody has viewed are ranked by a division by 0. -/
theorem draftRanking_of_no_views {α : Type} {tuple : α → List Entry} {views : α → UInt32}
    {docs : List α} (hviews : ∀ d ∈ docs, ∃ e, (tuple d).head? = some e ∧
      index.getNZone e viewsCnt = some (views d))
    (hne : docs ≠ []) (hzero : maxOf views docs = 0) (idfs : List Idf) :
    draftRanking S r index (docs.map tuple) idfs = none := by
  have hmax : getMaxNZone index (docs.map tuple) viewsCnt = some (maxOf views docs) :=
    maxNZoneFrom_eq hviews 0
  obtain ⟨d, rest, rfl⟩ := List.exists_cons_of_ne_nil hne
  obtain ⟨e, hhead, hzone⟩ := hviews d List.mem_cons_self
  obtain ⟨more, htuple⟩ := List.head?_eq_some_iff.mp hhead
  have hrank : getDraftRank r index (tuple d) idfs
      ((List.replicate numZonesCnt 0).set viewsCnt.toNat (maxOf views (d :: rest))) = none := by
    have hslot : ((List.replicate numZonesCnt (0 : UInt32)).set viewsCnt.toNat
        (maxOf views (d :: rest)))[viewsCnt.toNat]? = some (maxOf views (d :: rest)) := rfl
    simp only [htuple, getDraftRank, hzone, hslot, Option.bind_eq_bind, Option.bind_some,
      if_pos hzero, Option.bind_none]
  rw [List.map_cons] at hmax
  simp only [draftRanking, hmax, List.map_cons, List.mapM_cons, hrank, Option.bind_eq_bind,
    Option.bind_some, Option.bind_none]

/-- **The two rankings of the documents of a query**, unless none of them has been viewed. -/
theorem Matches.ranked [LinearOrder τ] [LinearOrder σ] {li : LoadedIndex} {tokens : List Bytes}
    {docs : List UInt32} (h : Matches li tokens docs) (hval : r.val 500 ≤ r.val 5000)
    (hstore : index.docStore = li.index.docStore)
    (hviews : docs = [] ∨ maxOf li.views docs ≠ 0) :
    ∃ returned draft ranked, Finds r li tokens docs returned ∧
      draftRanking S r index (docs.map (tupleOf (tokens.map li.entriesOf)))
        (tokens.map li.idfOf) = some draft ∧
      getListOfSortedDocidByRank S r index draft = some ranked ∧
      ranked.map Prod.fst = returned.map li.docId := by
  obtain ⟨kept, dropped, hperm, hlen, hdraft, hbest⟩ : ∃ kept dropped : List UInt32,
      (kept ++ dropped).Perm docs ∧ kept.length = min maxDraftDocs docs.length ∧
      draftRanking S r index (docs.map (tupleOf (tokens.map li.entriesOf)))
        (tokens.map li.idfOf) = some (kept.map (tupleOf (tokens.map li.entriesOf))) ∧
      ∀ d ∈ dropped, ∀ d' ∈ kept,
        draftOf r (tokens.map li.idfOf) (tupleOf (tokens.map li.entriesOf)) li.views
          (maxOf li.views docs) d ≤
        draftOf r (tokens.map li.idfOf) (tupleOf (tokens.map li.entriesOf)) li.views
          (maxOf li.views docs) d' := by
    rcases hviews with rfl | hpos
    · exact ⟨[], [], .refl _, rfl, draftRanking_nil _, by simp⟩
    · exact draftRanking_eq S r _ (h.getNZone_views hstore) hpos
  have hkept : ∀ d ∈ kept, d ∈ docs := fun d hd =>
    hperm.mem_iff.mp (List.mem_append_left _ hd)
  obtain ⟨best, good, rest, hperm', hlist, hgrouped⟩ := getListOfSortedDocidByRank_eq S r hval
    fun d hd => h.getDocId_docId hstore d (hkept d hd)
  have hreturned : ∀ d, d ∈ best ++ good ++ rest ↔ d ∈ kept := fun d => hperm'.mem_iff
  refine ⟨best ++ good ++ rest, _, _, ?_, hdraft, hlist, by rw [List.map_map]; rfl⟩
  refine ⟨h.nodup, h.mem, ?_, fun d hd => hkept d ((hreturned d).mp hd), ?_, ?_,
    best, good, rest, rfl, hgrouped⟩
  · exact hperm'.nodup_iff.mpr (List.nodup_append.mp (hperm.nodup_iff.mpr h.nodup)).1
  · rw [hperm'.length_eq, hlen]
  · intro d hd hout d' hd'
    refine hbest d ?_ d' ((hreturned d').mp hd')
    rcases List.mem_append.mp (hperm.mem_iff.mpr hd) with hin | hin
    · exact absurd ((hreturned d).mpr hin) hout
    · exact hin

end Ranking

/-! ## The outcomes -/

/-- **A document that is found has been viewed**, if one is found. -/
def LoadedIndex.Viewed (li : LoadedIndex) (tokens : List Bytes) : Prop :=
  (∃ d, li.Contains tokens d) → ∃ d, li.Contains tokens d ∧ li.views d ≠ 0

theorem maxOf_eq_zero {α : Type} {f : α → UInt32} {docs : List α} (h : ∀ d ∈ docs, f d = 0) :
    maxOf f docs = 0 := by
  unfold maxOf
  induction docs with
  | nil => rfl
  | cons d docs ih =>
    obtain ⟨hd, hdocs⟩ := List.forall_mem_cons.mp h
    rw [List.foldl_cons, hd, max_self]
    exact ih hdocs

theorem Matches.viewed_iff {li : LoadedIndex} {tokens : List Bytes} {docs : List UInt32}
    (h : Matches li tokens docs) :
    li.Viewed tokens ↔ docs = [] ∨ maxOf li.views docs ≠ 0 := by
  constructor
  · intro hviewed
    by_contra hnot
    rw [not_or, not_not] at hnot
    obtain ⟨d, hd⟩ := List.exists_mem_of_ne_nil docs hnot.1
    obtain ⟨d', hd', hv⟩ := hviewed ⟨d, (h.mem d).mp hd⟩
    have hle := le_maxOf (f := li.views) ((h.mem d').mpr hd')
    rw [hnot.2] at hle
    exact hv (UInt32.le_zero_iff.mp hle)
  · rintro hdocs ⟨d, hd⟩
    by_contra hnot
    rw [not_exists] at hnot
    rcases hdocs with rfl | hpos
    · exact absurd ((h.mem d).mpr hd) List.not_mem_nil
    · refine hpos (maxOf_eq_zero fun d' hd' => ?_)
      by_contra hv
      exact hnot d' ⟨(h.mem d').mp hd', hv⟩

section

variable {δ τ σ : Type} [LinearOrder δ] [LinearOrder τ] [LinearOrder σ]

/-- **A query is answered** if its tokens are known and a document that it finds has been viewed. -/
theorem answers_of_known (S : StdSort) (r : Ranks δ τ σ) (hval : r.val 500 ≤ r.val 5000)
    {li : LoadedIndex} {tokens : List Bytes} (hne : tokens ≠ []) (hknown : li.Known tokens)
    (hviewed : li.Viewed tokens) (docsId : List UInt32) : Answers S r li tokens docsId := by
  obtain ⟨docs, hmatches, hrun⟩ := exists_matches li hne
  have hids : ∀ {returned : List UInt32}, Finds r li tokens docs returned →
      returned.map li.index.docStore.getDocId = (returned.map li.docId).map some := by
    intro returned hfinds
    rw [List.map_map]
    exact List.map_congr_left fun d hd =>
      li.getDocId_docId ((hmatches.mem d).mp (hfinds.subset d hd)).1
  by_cases hocc : ∀ word ∈ tokens, li.Occurs word
  · obtain ⟨index, hstore, hlook⟩ := lookUp_of_occurs li hocc
    obtain ⟨returned, draft, ranked, hfinds, hdraft, hranked, hreturned⟩ :=
      hmatches.ranked (S := S) hval hstore (hmatches.viewed_iff.mp hviewed)
    refine ⟨docs, returned, returned.map li.docId, index,
      ((tokens.map li.entriesOf).map List.length).sum + 1, hfinds, hids hfinds,
      fun fuel hfuel => ?_⟩
    simp only [search, hlook, Option.bind_eq_bind, Option.bind_some,
      hrun fuel (Nat.lt_of_succ_le hfuel), hdraft, hranked, hreturned, Option.pure_def]
  -- A token does not occur: no document contains all of them, and nothing is found.
  · obtain ⟨s', hlook⟩ := (lookUp_of_not_occurs li hocc li.index li.table_eq li.data_eq).1 hknown
    obtain ⟨word, hword, hnot⟩ : ∃ word ∈ tokens, ¬ li.Occurs word := by simpa using hocc
    have hnone : ∀ d, ¬ li.Contains tokens d :=
      LoadedIndex.not_contains_of_not_occurs hword hnot
    have hfinds : Finds r li tokens [] [] := by
      refine ⟨List.nodup_nil, fun d => ?_, List.nodup_nil, by simp, rfl, by simp, [], [], [], rfl,
        by simp, by simp, by simp, .nil, .nil, .nil⟩
      exact iff_of_false List.not_mem_nil (hnone d)
    refine ⟨[], [], [], { li.index with invIdxStream := s' }, 0, hfinds, rfl, fun fuel _ => ?_⟩
    simp only [search, hlook, Option.bind_eq_bind, Option.bind_some, Option.pure_def,
      List.append_nil]

/-- Otherwise it means nothing, with any fuel. -/
theorem search_eq_none (S : StdSort) (r : Ranks δ τ σ) {li : LoadedIndex} {tokens : List Bytes}
    (hne : tokens ≠ []) (hnot : ¬ (li.Known tokens ∧ li.Viewed tokens)) (docsId : List UInt32) :
    ∃ fuel₀, ∀ fuel, fuel₀ ≤ fuel → search fuel S r li.index tokens docsId = none := by
  obtain ⟨docs, hmatches, hrun⟩ := exists_matches li hne
  by_cases hocc : ∀ word ∈ tokens, li.Occurs word
  · have hunviewed : ¬ (docs = [] ∨ maxOf li.views docs ≠ 0) := fun h =>
      hnot ⟨li.known_of_occurs hocc, hmatches.viewed_iff.mpr h⟩
    rw [not_or, not_not] at hunviewed
    obtain ⟨index, hstore, hlook⟩ := lookUp_of_occurs li hocc
    have hdraft := draftRanking_of_no_views (S := S) (r := r)
      (hmatches.getNZone_views hstore) hunviewed.1 hunviewed.2 (tokens.map li.idfOf)
    refine ⟨((tokens.map li.entriesOf).map List.length).sum + 1, fun fuel hfuel => ?_⟩
    simp only [search, hlook, Option.bind_eq_bind, Option.bind_some,
      hrun fuel (Nat.lt_of_succ_le hfuel), hdraft, Option.bind_none]
  · have hunknown : ¬ li.Known tokens := by
      intro hknown
      obtain ⟨word, hword, hnone⟩ : ∃ word ∈ tokens, ¬ li.Occurs word := by simpa using hocc
      refine hnot ⟨hknown, ?_⟩
      rintro ⟨d, hd⟩
      exact absurd hd (LoadedIndex.not_contains_of_not_occurs hword hnone d)
    have hlook := (lookUp_of_not_occurs li hocc li.index li.table_eq li.data_eq).2 hunknown
    refine ⟨0, fun fuel _ => ?_⟩
    simp only [search, hlook, Option.bind_eq_bind, Option.bind_none]

theorem known_of_answers {S : StdSort} {r : Ranks δ τ σ} {li : LoadedIndex} {tokens : List Bytes}
    (hne : tokens ≠ []) {docsId : List UInt32} (h : Answers S r li tokens docsId) :
    li.Known tokens ∧ li.Viewed tokens := by
  obtain ⟨_, _, _, _, fuel₀, _, _, hrun⟩ := h
  by_contra hnot
  obtain ⟨fuel₁, hnone⟩ := search_eq_none S r hne hnot docsId
  have hsome := hrun (max fuel₀ fuel₁) (Nat.le_max_left _ _)
  rw [hnone _ (Nat.le_max_right _ _)] at hsome
  cases hsome

/-- **Exactly these queries are answered**, of those that have a token. -/
theorem answers_iff (S : StdSort) (r : Ranks δ τ σ) (hval : r.val 500 ≤ r.val 5000)
    (li : LoadedIndex) (tokens : List Bytes) (hne : tokens ≠ []) (docsId : List UInt32) :
    Answers S r li tokens docsId ↔ li.Known tokens ∧ li.Viewed tokens := by
  constructor
  · exact known_of_answers hne
  · rintro ⟨hknown, hviewed⟩
    exact answers_of_known S r hval hne hknown hviewed docsId

end

/-- The word `a` in the index of one document, and next to it a word that is not. -/
theorem answers_iff_oneDocument :
    Answers mergeSorter constRanks oneDocument [[97], [98]] [] ↔
      oneDocument.Known [[97], [98]] ∧ oneDocument.Viewed [[97], [98]] :=
  answers_iff mergeSorter constRanks (by decide) oneDocument [[97], [98]] (List.cons_ne_nil _ _) []

end Amigos.Searcher
