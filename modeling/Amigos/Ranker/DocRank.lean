import Amigos.Indexer.Split
import Amigos.Ranker
import Amigos.Ranker.Positions

/-!
# The rank of a document (`get_doc_rank`)

The ranks of the title and of the subtitles come from the same two steps: the positions of all
tokens are put into one list (`Amigos.Ranker.Positions`), and its passages are counted
(`Amigos.Ranker.Windows`). The second step relies on the order that the first one leaves. So both
ranks are sums over all maximal windows of the merged positions (`getDocRank_eq`), if the postings
are in order. Those that the indexer has recorded are (`getDocRank_readsBack`). The documents are
then sorted by these ranks (`docidByRank_docRanks`).
-/

set_option autoImplicit false

namespace Amigos.Ranker

open Amigos.Lib Amigos.Common Amigos.Index Amigos.Indexer

/-- What `get_doc_rank` does for a zone. -/
def getZoneRank (fuel : Nat) (src : Bytes) (entries : List Entry) (zoneId : Nat)
    (postingsByEntries : List (List Posting)) : Option ℚ := do
  let positions ← getPositionsForZone fuel src entries zoneId [] postingsByEntries
  let (rank, _) ← getRank .exact fuel positions (UInt64.ofNat entries.length)
  return rank

/-- `get_doc_rank`, over exact rationals; the zones are those of the title and of the subtitles. -/
def getDocRank (fuel : Nat) (index : InvertIndex) (entries : List Entry) : Option (ℚ × ℚ) := do
  let postingsByEntries ← entries.mapM fun entry => index.postingStore.getFullPosting entry []
  let src := index.postingStore.src
  let rankTitle ← getZoneRank fuel src entries 0 postingsByEntries
  let rankSubs ← getZoneRank fuel src entries 2 postingsByEntries
  return (rankTitle * 5, rankSubs)

/-- **A rank of positions**: the bonuses of all maximal windows, each counted once. -/
structure IsRank (allPos : Positions) (windowSize : UInt64) (rank : ℚ)
    (windows : List (Nat × Nat)) : Prop where
  sum : rank = (windows.map (windowBonus .exact allPos (clampWindow windowSize))).sum
  ascending : windows.Pairwise fun u v => u.1 < v.1 ∧ u.2 < v.2
  maximal : ∀ s e, (s, e) ∈ windows ↔
    MaximalWindow (posAt allPos) allPos.length (min windowSize.toNat 10) s e

/-- The postings of a zone can be read, and each is in order. -/
structure ReadsZone (src : Bytes) (postingsByEntries : List (List Posting)) (zoneId : Nat)
    (postings : List (List UInt16)) : Prop where
  read : (List.range postings.length).mapM (postingsOf src postingsByEntries zoneId)
    = some postings
  sorted : ∀ posting ∈ postings, posting.Pairwise (· ≤ ·)

theorem getZoneRank_eq {src : Bytes} {entries : List Entry} {zoneId : Nat}
    {postingsByEntries : List (List Posting)} {postings : List (List UInt16)}
    (h : ReadsZone src postingsByEntries zoneId postings) (hlen : entries.length = postings.length)
    (hsize : 1 ≤ UInt64.ofNat entries.length) :
    ∃ rank windows, IsRank (mergedTagged postings) (UInt64.ofNat entries.length) rank windows ∧
      ∀ fuel, 2 * (allTagged postings).length < fuel →
        getZoneRank fuel src entries zoneId postingsByEntries = some rank := by
  obtain ⟨windows, hrank, hascending, hmaximal⟩ := getRank_eq_sum (mergedTagged postings)
    (UInt64.ofNat entries.length) ((mergedTagged_inOrder h.sorted).imp of_decide_eq_true) hsize
  refine ⟨_, windows, ⟨rfl, hascending, hmaximal⟩, fun fuel hfuel => ?_⟩
  have hmerge : getPositionsForZone fuel src entries zoneId [] postingsByEntries
      = some (mergedTagged postings) := by
    rw [getPositionsForZone, hlen]
    exact foldlM_insertPosting h.read (by omega)
  rw [← (mergedTagged_perm postings).length_eq] at hfuel
  rw [getZoneRank, hmerge, Option.bind_eq_bind, Option.bind_some, hrank fuel hfuel]
  rfl

/-- **Both ranks are sums over the maximal windows**, the one of the title five times. -/
theorem getDocRank_eq {index : InvertIndex} {entries : List Entry}
    {postingsByEntries : List (List Posting)} {title subs : List (List UInt16)}
    (hfull : (entries.mapM fun entry => index.postingStore.getFullPosting entry [])
      = some postingsByEntries)
    (htitle : ReadsZone index.postingStore.src postingsByEntries 0 title)
    (hsubs : ReadsZone index.postingStore.src postingsByEntries 2 subs)
    (htitleLen : entries.length = title.length) (hsubsLen : entries.length = subs.length)
    (hsize : 1 ≤ UInt64.ofNat entries.length) :
    ∃ rankTitle titleWindows rankSubs subsWindows fuel₀,
      IsRank (mergedTagged title) (UInt64.ofNat entries.length) rankTitle titleWindows ∧
      IsRank (mergedTagged subs) (UInt64.ofNat entries.length) rankSubs subsWindows ∧
      ∀ fuel, fuel₀ < fuel → getDocRank fuel index entries = some (rankTitle * 5, rankSubs) := by
  obtain ⟨rankTitle, titleWindows, hrankTitle, hrunTitle⟩ := getZoneRank_eq htitle htitleLen hsize
  obtain ⟨rankSubs, subsWindows, hrankSubs, hrunSubs⟩ := getZoneRank_eq hsubs hsubsLen hsize
  refine ⟨rankTitle, titleWindows, rankSubs, subsWindows,
    2 * ((allTagged title).length + (allTagged subs).length), hrankTitle, hrankSubs, ?_⟩
  intro fuel hfuel
  have htitleRun := hrunTitle fuel (by omega)
  have hsubsRun := hrunSubs fuel (by omega)
  simp only [getDocRank, hfull, htitleRun, hsubsRun, Option.bind_eq_bind, Option.bind_some,
    Option.pure_def]

/-! ## An indexed document -/

theorem mapM_range_getElem? {α β : Type} (f : α → Option β) (l : List α) :
    (List.range l.length).mapM (fun i => l[i]?.bind f) = l.mapM f := by
  induction l with
  | nil => rfl
  | cons a l ih =>
    rw [List.length_cons, List.range_succ_eq_map, List.mapM_cons, List.mapM_map, List.mapM_cons,
      ← ih]
    rfl

/-- The places of a token are ascending, also in 16 bits. -/
theorem pairwise_narrow_tokenPositions (t : UInt32) {words : List Bytes}
    (hwords : words.length < 2 ^ 16) :
    (narrow (tokenPositions t words)).Pairwise (· ≤ ·) := by
  have hascending : (tokenPositions t words).Pairwise (· < ·) := List.pairwise_findIdxs
  refine List.pairwise_map.mpr (hascending.imp_of_mem fun {p q} _ hq hlt => ?_)
  obtain ⟨hin, -⟩ := List.mem_findIdxs_iff_exists_getElem_pos.mp hq
  apply UInt16.le_iff_toNat_le.mpr
  rw [UInt16.toNat_ofNat', UInt16.toNat_ofNat', Nat.mod_eq_of_lt (by omega),
    Nat.mod_eq_of_lt (by omega)]
  exact Nat.le_of_lt hlt

section

variable {src : Bytes} {zones : List (List Bytes)} {tokens : List (UInt32 × Entry)}

/-- The entries of one document have their postings, and in each zone those of its words. -/
theorem postings_of_readsBack (hback : ∀ r ∈ tokens, ReadsBack src zones r) :
    ∃ postingsByEntries,
      ((tokens.map Prod.snd).mapM fun entry => PostingStorage.getFullPosting
        { src, tZonesCnt := UInt8.ofNat zones.length } entry []) = some postingsByEntries ∧
      ∀ {zoneId : Nat} {words : List Bytes}, zones[zoneId]? = some words →
        (postingsByEntries.mapM fun postings => postings[zoneId]?.bind fun posting =>
          posting.read src) = some (tokens.map fun r => narrow (tokenPositions r.1 words)) := by
  induction tokens with
  | nil => exact ⟨[], rfl, fun _ => rfl⟩
  | cons r tokens ih =>
    rw [List.forall_mem_cons] at hback
    obtain ⟨postings, hfull, hread⟩ := hback.1
    obtain ⟨postingsByEntries, hrest, hzone⟩ := ih hback.2
    refine ⟨postings :: postingsByEntries, ?_, fun {zoneId words} hwords => ?_⟩
    · simp only [List.map_cons, List.mapM_cons, hfull, hrest, Option.bind_eq_bind,
        Option.bind_some, Option.pure_def]
    · have hget : (postings[zoneId]?.bind fun posting => posting.read src)
          = some (narrow (tokenPositions r.1 words)) := by
        obtain ⟨hlt, rfl⟩ := List.getElem?_eq_some_iff.mp hwords
        have hlt' : zoneId < postings.length := hread.length_eq ▸ hlt
        rw [List.getElem?_eq_getElem hlt', Option.bind_some]
        exact hread.get hlt hlt'
      simp only [List.map_cons, List.mapM_cons, hget, hzone hwords, Option.bind_eq_bind,
        Option.bind_some, Option.pure_def]

theorem readsZone_of_readsBack {postingsByEntries : List (List Posting)} {zoneId : Nat}
    {words : List Bytes} (hwords : words.length < 2 ^ 16)
    (hread : (postingsByEntries.mapM fun postings => postings[zoneId]?.bind fun posting =>
      posting.read src) = some (tokens.map fun r => narrow (tokenPositions r.1 words))) :
    ReadsZone src postingsByEntries zoneId
      (tokens.map fun r => narrow (tokenPositions r.1 words)) where
  read := by
    rw [length_of_mapM hread, ← hread]
    exact mapM_range_getElem? _ _
  sorted posting hposting := by
    obtain ⟨r, -, rfl⟩ := List.mem_map.mp hposting
    exact pairwise_narrow_tokenPositions r.1 hwords

/-- **The rank of an indexed document**: the entries read back as those of one document, and the
positions are the places of their tokens among the words of the title and of the subtitles. -/
theorem getDocRank_readsBack {index : InvertIndex}
    (hstore : index.postingStore = { src, tZonesCnt := UInt8.ofNat zones.length })
    (hback : ∀ r ∈ tokens, ReadsBack src zones r) (hwords : zones.flatten.length < 2 ^ 16)
    {title subs : List Bytes} (htitle : zones[0]? = some title) (hsubs : zones[2]? = some subs)
    (hsize : 1 ≤ UInt64.ofNat tokens.length) :
    ∃ rankTitle titleWindows rankSubs subsWindows fuel₀,
      IsRank (mergedTagged (tokens.map fun r => narrow (tokenPositions r.1 title)))
        (UInt64.ofNat tokens.length) rankTitle titleWindows ∧
      IsRank (mergedTagged (tokens.map fun r => narrow (tokenPositions r.1 subs)))
        (UInt64.ofNat tokens.length) rankSubs subsWindows ∧
      ∀ fuel, fuel₀ < fuel →
        getDocRank fuel index (tokens.map Prod.snd) = some (rankTitle * 5, rankSubs) := by
  have hlen : ∀ {zoneId : Nat} {words : List Bytes}, zones[zoneId]? = some words →
      words.length < 2 ^ 16 := fun hzone =>
    Nat.lt_of_le_of_lt (List.sublist_flatten_of_mem (List.mem_of_getElem? hzone)).length_le hwords
  obtain ⟨postingsByEntries, hfull, hzone⟩ := postings_of_readsBack hback
  have hreadTitle := readsZone_of_readsBack (hlen htitle) (hzone htitle)
  have hreadSubs := readsZone_of_readsBack (hlen hsubs) (hzone hsubs)
  have hentries : (tokens.map Prod.snd).length = tokens.length := List.length_map _
  have hpostings : ∀ words : List Bytes, (tokens.map Prod.snd).length
      = (tokens.map fun r => narrow (tokenPositions r.1 words)).length := fun words => by
    rw [List.length_map, List.length_map]
  have hrank := @getDocRank_eq index (tokens.map Prod.snd) postingsByEntries _ _
    (by rwa [hstore]) (by rwa [hstore]) (by rwa [hstore]) (hpostings title) (hpostings subs)
    (by rwa [hentries])
  rwa [hentries] at hrank

end

/-- The title `x y x`, no description, and the subtitles `y x`. -/
def subtitledWords : List (List Bytes) := [[[120], [121], [120]], [], [[121], [120]]]

/-- The tokens of `x` and `y`, and their entries. -/
def subtitledTokens : List (UInt32 × Entry) :=
  [(murmurHash2 [120], entryFor subtitledWords 0 0 (murmurHash2 [120])),
    (murmurHash2 [121], entryFor subtitledWords 0 3 (murmurHash2 [121]))]

/-- Their places: 0, 2 and 1 for `x`, and 1 and 0 for `y`. -/
def subtitledSrc : Bytes := [0, 0, 2, 0, 1, 0, 1, 0, 0, 0]

def subtitledIndex : InvertIndex where
  invIdx := []
  invIdxStream := ⟨[], 0⟩
  postingStore := { src := subtitledSrc, tZonesCnt := 3 }
  docStore := { docIds := [], nZones := [], tZonesWCnt := [] }

theorem readsBack_subtitled : ∀ r ∈ subtitledTokens, ReadsBack subtitledSrc subtitledWords r := by
  rw [subtitledTokens, List.forall_mem_cons, List.forall_mem_singleton]
  exact ⟨⟨_, rfl, .cons rfl (.cons rfl (.cons rfl .nil))⟩,
    ⟨_, rfl, .cons rfl (.cons rfl (.cons rfl .nil))⟩⟩

/-- The rank of this document for the query `x y`. -/
theorem getDocRank_readsBack_subtitled :
    ∃ rankTitle titleWindows rankSubs subsWindows fuel₀,
      IsRank (mergedTagged (subtitledTokens.map fun r =>
        narrow (tokenPositions r.1 [[120], [121], [120]]))) 2 rankTitle titleWindows ∧
      IsRank (mergedTagged (subtitledTokens.map fun r =>
        narrow (tokenPositions r.1 [[121], [120]]))) 2 rankSubs subsWindows ∧
      ∀ fuel, fuel₀ < fuel → getDocRank fuel subtitledIndex (subtitledTokens.map Prod.snd)
        = some (rankTitle * 5, rankSubs) :=
  getDocRank_readsBack rfl readsBack_subtitled (by decide) rfl rfl (by decide)

/-! ## All documents -/

/-- The ranks of `Amigos.Ranker`, with those of a document exact. -/
def docRanks {δ : Type} (fuel : Nat) (index : InvertIndex) (r : Ranks δ ℚ ℚ) : Ranks δ ℚ ℚ :=
  { r with
    title := fun entries => (getDocRank fuel index entries).elim 0 Prod.fst
    subs := fun entries => (getDocRank fuel index entries).elim 0 Prod.snd }

/-- A round of the first loop of `get_list_of_sorted_docid_by_rank`. -/
def rankedDoc (fuel : Nat) (index : InvertIndex) (entries : List Entry) :
    Option (UInt32 × ℚ × ℚ) := do
  let docRank ← getDocRank fuel index entries
  let entry ← entries.head?
  let docId ← index.getDocId entry
  return (docId, docRank)

/-- **The documents are ranked by `get_doc_rank`**, where it is defined of all of them. -/
theorem docidByRank_docRanks {δ : Type} {fuel : Nat} {index : InvertIndex} (r : Ranks δ ℚ ℚ)
    {entriesByDoc : List (List Entry)}
    (hdefined : ∀ entries ∈ entriesByDoc, entries ≠ [] →
      (getDocRank fuel index entries).isSome = true) :
    docidByRank (docRanks fuel index r) index entriesByDoc
      = (entriesByDoc.filter (· ≠ [])).mapM (rankedDoc fuel index) := by
  induction entriesByDoc with
  | nil => rfl
  | cons entries entriesByDoc ih =>
    rw [List.forall_mem_cons] at hdefined
    cases entries with
    | nil => exact ih hdefined.2
    | cons entry entries =>
      obtain ⟨docRank, hrank⟩ := Option.isSome_iff_exists.mp
        (hdefined.1 (List.cons_ne_nil entry entries))
      rw [docidByRank, ih hdefined.2, List.filter_cons_of_pos (by simp), List.mapM_cons]
      simp only [rankedDoc, docRanks, hrank, List.head?_cons, Option.elim_some,
        Option.bind_eq_bind, Option.bind_some, Option.pure_def]
      cases index.getDocId entry <;> rfl

end Amigos.Ranker
