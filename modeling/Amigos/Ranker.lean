import Amigos.Index.InvertIndex

/-!
# Ranking (`ranker.cpp`)

The documents a query has found go through two stages. `draft_ranking` sorts them by a cheap rank
and keeps the best two hundred. `get_list_of_sorted_docid_by_rank` sorts those by the rank of
their titles, cuts the result at two thresholds, and sorts each of the three pieces again, by the
rank of the subtitles.

The ranks are floating point and are computed from term frequencies and positions. Here they are
parameters (`Ranks`): functions into linear orders, of the entries of a document and, for the
draft rank, of the inverse document frequencies and the scaled number of views. What is kept is
everything the ranker does with them, the integer division by the largest number of views
included, which is undefined when nothing has been viewed.

Every sort here is one of an image, the documents with what the ranker has attached to them, and
`exists_sort_map` takes it back to a rearrangement of the documents.
-/

set_option autoImplicit false

namespace Amigos.Ranker

open Amigos.Lib
open Amigos.Index

/-! ## The source -/

/-- `Ranker::VIEWS_CNT`. -/
def viewsCnt : UInt8 := 0

/-- `Ranker::numZonesCnt`. -/
def numZonesCnt : Nat := 10

/-- `MAX_DRAFT_DOCS`. -/
def maxDraftDocs : Nat := 200

/-- The rank functions, and the numbers that title ranks are compared with. -/
structure Ranks (δ τ σ : Type) where
  draft : List Idf → List Entry → UInt32 → δ
  title : List Entry → τ
  subs : List Entry → σ
  val : Nat → τ

section

variable {δ τ σ : Type}

/-- `get_draft_rank`; without an entry no views are added. -/
def getDraftRank (r : Ranks δ τ σ) (index : InvertIndex) (entriesByDoc : List Entry)
    (idfs : List Idf) (maxNzonesVals : List UInt32) : Option δ :=
  match entriesByDoc with
  | [] => some (r.draft idfs [] 0)
  | entry :: _ => do
    let views ← index.getNZone entry viewsCnt
    let maxViews ← maxNzonesVals[viewsCnt.toNat]?
    if maxViews = 0 then none
    return r.draft idfs entriesByDoc (views / maxViews)

/-- The loop of `getMaxNZone`; `front()` of no entries is undefined. -/
def maxNZoneFrom (index : InvertIndex) (nzone : UInt8) (max : UInt32) :
    List (List Entry) → Option UInt32
  | [] => some max
  | entries :: entriesByDoc => do
    let front ← entries.head?
    let val ← index.getNZone front nzone
    maxNZoneFrom index nzone (Max.max val max) entriesByDoc

def getMaxNZone (index : InvertIndex) (entriesByDoc : List (List Entry)) (nzone : UInt8) :
    Option UInt32 :=
  maxNZoneFrom index nzone 0 entriesByDoc

def draftRanking [LinearOrder δ] (S : StdSort) (r : Ranks δ τ σ) (index : InvertIndex)
    (entriesByDocs : List (List Entry)) (idfs : List Idf) : Option (List (List Entry)) := do
  let maxViews ← getMaxNZone index entriesByDocs viewsCnt
  let maxNzonesVals := (List.replicate numZonesCnt 0).set viewsCnt.toNat maxViews
  let withRank ← entriesByDocs.mapM fun entries => do
    let rank ← getDraftRank r index entries idfs maxNzonesVals
    return (entries, rank)
  let withRank := S.sort (fun e1 e2 => decide (e1.2 > e2.2)) withRank
  let num := if entriesByDocs.length > maxDraftDocs then maxDraftDocs else entriesByDocs.length
  return (withRank.take num).map Prod.fst

/-- The first loop of `get_list_of_sorted_docid_by_rank`. -/
def docidByRank (r : Ranks δ τ σ) (index : InvertIndex) :
    List (List Entry) → Option (List (UInt32 × τ × σ))
  | [] => some []
  | [] :: entriesByDoc => docidByRank r index entriesByDoc
  | (entry :: entries) :: entriesByDoc => do
    let docRank := (r.title (entry :: entries), r.subs (entry :: entries))
    let docId ← index.getDocId entry
    let rest ← docidByRank r index entriesByDoc
    return (docId, docRank) :: rest

def compTitle [LinearOrder τ] (x y : UInt32 × τ × σ) : Bool := decide (x.2.1 > y.2.1)

def compSubs [LinearOrder σ] (x y : UInt32 × τ × σ) : Bool := decide (x.2.2 > y.2.2)

def titleOnlyMore [LinearOrder τ] (val : τ) (i : UInt32 × τ × σ) : Bool := decide (val ≤ i.2.1)

/-- The sorts of `get_list_of_sorted_docid_by_rank`. Sorting from `it1` to `it2` is undefined
where they are not in this order. -/
def getListOfSortedDocidByRank [LinearOrder τ] [LinearOrder σ] (S : StdSort) (r : Ranks δ τ σ)
    (index : InvertIndex) (entriesByDoc : List (List Entry)) :
    Option (List (UInt32 × τ × σ)) := do
  let docids ← docidByRank r index entriesByDoc
  let docids := S.sort compTitle docids
  let it1 ← lowerBound (titleOnlyMore (r.val 5000)) docids
  let it2 ← lowerBound (titleOnlyMore (r.val 500)) docids
  if it2 < it1 then none
  return S.sort compSubs (docids.take it1) ++
    (S.sort compSubs ((docids.drop it1).take (it2 - it1)) ++ S.sort compSubs (docids.drop it2))

end

/-! ## The draft ranking -/

section

variable {δ τ σ : Type} {α : Type} {index : InvertIndex}

/-- The largest of the numbers `f` gives, and 0. -/
def maxOf (f : α → UInt32) (docs : List α) : UInt32 :=
  docs.foldl (fun m d => max (f d) m) 0

theorem maxNZoneFrom_eq {tuple : α → List Entry} {val : α → UInt32} {nzone : UInt8} {docs : List α}
    (hval : ∀ d ∈ docs, ∃ e, (tuple d).head? = some e ∧ index.getNZone e nzone = some (val d)) :
    ∀ m, maxNZoneFrom index nzone m (docs.map tuple)
      = some (docs.foldl (fun m d => max (val d) m) m) := by
  induction docs with
  | nil => exact fun _ => rfl
  | cons d docs ih =>
    intro m
    obtain ⟨e, hhead, hzone⟩ := hval d List.mem_cons_self
    simp only [List.map_cons, maxNZoneFrom, hhead, hzone, Option.bind_eq_bind, Option.bind_some,
      List.foldl_cons]
    exact ih (fun x hx => hval x (List.mem_cons_of_mem _ hx)) _

theorem le_foldl_max (f : α → UInt32) (docs : List α) :
    ∀ m, m ≤ docs.foldl (fun m d => max (f d) m) m ∧
      ∀ d ∈ docs, f d ≤ docs.foldl (fun m d => max (f d) m) m := by
  induction docs with
  | nil => exact fun m => ⟨le_refl m, by simp⟩
  | cons d docs ih =>
    intro m
    obtain ⟨hm, hdocs⟩ := ih (max (f d) m)
    refine ⟨le_trans (le_max_right _ _) hm, ?_⟩
    intro x hx
    rcases List.mem_cons.mp hx with rfl | hx
    · exact le_trans (le_max_left _ _) hm
    · exact hdocs x hx

theorem le_maxOf {f : α → UInt32} {docs : List α} {d : α} (h : d ∈ docs) : f d ≤ maxOf f docs :=
  (le_foldl_max f docs 0).2 d h

/-- The draft rank of a document with these entries and views. -/
def draftOf (r : Ranks δ τ σ) (idfs : List Idf) (tuple : α → List Entry) (views : α → UInt32)
    (maxViews : UInt32) (d : α) : δ :=
  r.draft idfs (tuple d) (views d / maxViews)

/-- **The draft ranking keeps the best two hundred**: it splits the documents, in some order, into
those it returns and those it drops, none of which ranks above a returned one. -/
theorem draftRanking_eq [LinearOrder δ] (S : StdSort) (r : Ranks δ τ σ) (idfs : List Idf)
    {tuple : α → List Entry} {views : α → UInt32} {docs : List α}
    (hviews : ∀ d ∈ docs, ∃ e, (tuple d).head? = some e ∧
      index.getNZone e viewsCnt = some (views d))
    (hpos : maxOf views docs ≠ 0) :
    ∃ kept dropped : List α, (kept ++ dropped).Perm docs ∧
      kept.length = min maxDraftDocs docs.length ∧
      draftRanking S r index (docs.map tuple) idfs = some (kept.map tuple) ∧
      ∀ d ∈ dropped, ∀ d' ∈ kept, draftOf r idfs tuple views (maxOf views docs) d
        ≤ draftOf r idfs tuple views (maxOf views docs) d' := by
  have hmax : getMaxNZone index (docs.map tuple) viewsCnt = some (maxOf views docs) :=
    maxNZoneFrom_eq hviews 0
  have hrank : ∀ d ∈ docs, getDraftRank r index (tuple d) idfs
      ((List.replicate numZonesCnt 0).set viewsCnt.toNat (maxOf views docs))
        = some (draftOf r idfs tuple views (maxOf views docs) d) := by
    intro d hd
    obtain ⟨e, hhead, hzone⟩ := hviews d hd
    obtain ⟨rest, htuple⟩ := List.head?_eq_some_iff.mp hhead
    have hslot : ((List.replicate numZonesCnt (0 : UInt32)).set viewsCnt.toNat
        (maxOf views docs))[viewsCnt.toNat]? = some (maxOf views docs) := rfl
    simp only [htuple, getDraftRank, hzone, hslot, Option.bind_eq_bind, Option.bind_some,
      if_neg hpos, Option.pure_def, draftOf]
  have hpairs : (docs.map tuple).mapM (fun entries => (getDraftRank r index entries idfs
      ((List.replicate numZonesCnt 0).set viewsCnt.toNat (maxOf views docs))).bind
        fun rank => some (entries, rank))
      = some (docs.map fun d => (tuple d, draftOf r idfs tuple views (maxOf views docs) d)) :=
    mapM_eq_some_map fun d hd => by rw [hrank d hd]; rfl
  obtain ⟨L, hperm, hsort, hsorted⟩ := S.exists_sort_map (α := α) Prod.snd
    (fun d => (tuple d, draftOf r idfs tuple views (maxOf views docs) d)) docs
  -- All documents have a rank; cutting the sorted list leaves the best ones in front.
  have hnum : (if docs.length > maxDraftDocs then maxDraftDocs else docs.length)
      = min maxDraftDocs docs.length := by
    split <;> omega
  refine ⟨L.take (min maxDraftDocs docs.length), L.drop (min maxDraftDocs docs.length), ?_, ?_,
    ?_, ?_⟩
  · rwa [List.take_append_drop]
  · rw [List.length_take, hperm.length_eq]
    omega
  · simp only [draftRanking, hmax, Option.bind_eq_bind, Option.bind_some, Option.pure_def, hpairs,
      hsort, List.length_map, hnum, ← List.map_take, List.map_map]
    rfl
  · intro d hd d' hd'
    rw [← List.take_append_drop (min maxDraftDocs docs.length) L] at hsorted
    exact (List.pairwise_append.mp hsorted).2.2 d' hd' d hd

/-! ## The final ranking -/

/-- Three groups, by the rank of the title, each by falling rank of the subtitles. -/
structure Grouped [LinearOrder τ] [LinearOrder σ] (r : Ranks δ τ σ) (tuple : α → List Entry)
    (best good rest : List α) : Prop where
  best_title : ∀ d ∈ best, r.val 5000 ≤ r.title (tuple d)
  good_title : ∀ d ∈ good, r.val 500 ≤ r.title (tuple d) ∧ r.title (tuple d) < r.val 5000
  rest_title : ∀ d ∈ rest, r.title (tuple d) < r.val 500
  best_subs : best.Pairwise fun d d' => r.subs (tuple d) ≥ r.subs (tuple d')
  good_subs : good.Pairwise fun d d' => r.subs (tuple d) ≥ r.subs (tuple d')
  rest_subs : rest.Pairwise fun d d' => r.subs (tuple d) ≥ r.subs (tuple d')

theorem docidByRank_eq (r : Ranks δ τ σ) {tuple : α → List Entry} {docId : α → UInt32}
    {docs : List α} (hid : ∀ d ∈ docs, ∃ e, (tuple d).head? = some e ∧
      index.getDocId e = some (docId d)) :
    docidByRank r index (docs.map tuple)
      = some (docs.map fun d => (docId d, r.title (tuple d), r.subs (tuple d))) := by
  induction docs with
  | nil => rfl
  | cons d docs ih =>
    obtain ⟨e, hhead, hget⟩ := hid d List.mem_cons_self
    obtain ⟨rest, htuple⟩ := List.head?_eq_some_iff.mp hhead
    simp only [List.map_cons, htuple, docidByRank, hget, Option.bind_eq_bind, Option.bind_some,
      ih (fun x hx => hid x (List.mem_cons_of_mem _ hx)), Option.pure_def]

/-- **The final ranking rearranges the documents into the three groups.** After the sort by
title each threshold is a partition point, the higher one in front of the lower. -/
theorem getListOfSortedDocidByRank_eq [LinearOrder τ] [LinearOrder σ] (S : StdSort)
    (r : Ranks δ τ σ) (hval : r.val 500 ≤ r.val 5000) {tuple : α → List Entry}
    {docId : α → UInt32} {docs : List α}
    (hid : ∀ d ∈ docs, ∃ e, (tuple d).head? = some e ∧ index.getDocId e = some (docId d)) :
    ∃ best good rest : List α, (best ++ good ++ rest).Perm docs ∧
      getListOfSortedDocidByRank S r index (docs.map tuple)
        = some ((best ++ good ++ rest).map fun d =>
            (docId d, r.title (tuple d), r.subs (tuple d))) ∧
      Grouped r tuple best good rest := by
  let row : α → UInt32 × τ × σ := fun d => (docId d, r.title (tuple d), r.subs (tuple d))
  obtain ⟨L, hperm, hsort, hsorted⟩ := S.exists_sort_map (fun x => x.2.1) row docs
  obtain ⟨a, bc, rfl, ha, hbc⟩ := exists_cut (fun d => r.title (tuple d)) (r.val 5000) hsorted
  obtain ⟨b, c, rfl, hb, hc⟩ := exists_cut (fun d => r.title (tuple d)) (r.val 500)
    (List.pairwise_append.mp hsorted).2.1
  -- The iterators stand behind `a` and behind `b`.
  have hit1 : lowerBound (titleOnlyMore (r.val 5000)) ((a ++ (b ++ c)).map row)
      = some a.length :=
    lowerBound_map_of_partition (fun d hd => decide_eq_true (ha d hd))
      (fun d hd => decide_eq_false (not_le_of_gt (hbc d hd)))
  have hit2 : lowerBound (titleOnlyMore (r.val 500)) ((a ++ (b ++ c)).map row)
      = some (a.length + b.length) := by
    rw [← List.append_assoc, ← List.length_append]
    refine lowerBound_map_of_partition (fun d hd => decide_eq_true ?_)
      (fun d hd => decide_eq_false (not_le_of_gt (hc d hd)))
    rcases List.mem_append.mp hd with hd | hd
    · exact le_trans hval (ha d hd)
    · exact hb d hd
  -- Each piece is sorted for itself.
  obtain ⟨a', hpa, hsa, hna⟩ := S.exists_sort_map (fun x => x.2.2) row a
  obtain ⟨b', hpb, hsb, hnb⟩ := S.exists_sort_map (fun x => x.2.2) row b
  obtain ⟨c', hpc, hsc, hnc⟩ := S.exists_sort_map (fun x => x.2.2) row c
  refine ⟨a', b', c', ?_, ?_, ?_⟩
  · rw [List.append_assoc]
    exact (hpa.append (hpb.append hpc)).trans hperm
  · have hcut1 : ((a ++ (b ++ c)).map row).take a.length = a.map row := by simp
    have hcut2 : (((a ++ (b ++ c)).map row).drop a.length).take b.length = b.map row := by simp
    have hcut3 : ((a ++ (b ++ c)).map row).drop (a.length + b.length) = c.map row := by
      rw [← List.append_assoc, List.map_append, ← List.length_append]
      exact List.drop_left' (List.length_map _)
    have hdocids := docidByRank_eq r hid
    simp only [getListOfSortedDocidByRank, hdocids, Option.bind_eq_bind, Option.bind_some]
    rw [show S.sort compTitle (docs.map row) = _ from hsort, hit1, hit2]
    simp only [Option.bind_some, if_neg (Nat.not_lt.mpr (Nat.le_add_right a.length b.length)),
      Nat.add_sub_cancel_left, hcut1, hcut2, hcut3, Option.pure_def]
    rw [List.append_assoc, List.map_append, List.map_append]
    exact congrArg some (congrArg₂ _ hsa (congrArg₂ _ hsb hsc))
  · refine ⟨?_, ?_, ?_, hna, hnb, hnc⟩
    · exact fun d hd => ha d (hpa.mem_iff.mp hd)
    · intro d hd
      have hmem := hpb.mem_iff.mp hd
      exact ⟨hb d hmem, hbc d (List.mem_append_left c hmem)⟩
    · exact fun d hd => hc d (hpc.mem_iff.mp hd)

end

end Amigos.Ranker
