import Mathlib.Algebra.BigOperators.Group.List.Basic
import Mathlib.Algebra.Order.Field.Rat
import Mathlib.Tactic.Ring
import Amigos.Index.ZonesTf
import Amigos.Ranker

/-!
# The draft rank (`Ranker::get_draft_rank`, `draft_ranking`)

The draft rank of a document is the sum of a part for its text and a part for its views. Both are
exact rationals here, where `Amigos.Ranker` leaves them open.

The text part is added up token by token, from a vector that `getZonesTf` appends to in every round
and that is read at fixed places, so every token is scored by the frequencies of the first one
(`textRank_eq`). The views part is a quotient of integers: it is 1 for a document with the most
views, 0 for every other one, and undefined if nothing has been viewed.
-/

set_option autoImplicit false

namespace Amigos.Ranker

open Amigos.Lib
open Amigos.Index

/-! ## The source -/

/-- `Ranker::TextZone`. -/
def titleZone : Nat := 0
def descZone : Nat := 1
def subZone : Nat := 2

/-- The loop of `get_draft_rank` over the entries that are left and their idfs. -/
def textRankLoop (index : InvertIndex) (config : Config) :
    List Entry → List ℚ → (zonesTf : List ℚ) → (rank : ℚ) → Option ℚ
  | [], _, _, rank => some rank
  | _ :: _, [], _, _ => none
  | entry :: entries, idf :: idfs, zonesTf, rank => do
    let zonesTf ← index.getZonesTf config entry zonesTf
    let title ← zonesTf[titleZone]?
    let desc ← zonesTf[descZone]?
    let sub ← zonesTf[subZone]?
    textRankLoop index config entries idfs zonesTf (rank + idf * (title + desc * (1 / 5) + sub * 5))

/-- The text part of `get_draft_rank`. -/
def textRank (index : InvertIndex) (config : Config) (entriesByDoc : List Entry) (idfs : List ℚ) :
    Option ℚ :=
  textRankLoop index config entriesByDoc idfs [] 0

/-- `get_draft_rank`, over exact rationals; the views are divided as integers. -/
def draftRank (index : InvertIndex) (config : Config) (entriesByDoc : List Entry) (idfs : List ℚ)
    (maxNzonesVals : List UInt32) : Option ℚ := do
  let rank ← textRank index config entriesByDoc idfs
  match entriesByDoc with
  | [] => some rank
  | entry :: _ =>
    let views ← index.getNZone entry viewsCnt
    let maxViews ← maxNzonesVals[viewsCnt.toNat]?
    if maxViews = 0 then none else some (rank + ((views / maxViews).toNat : ℚ))

/-- `draft_ranking` up to the sort: the ranks of the documents. -/
def draftRanks (index : InvertIndex) (config : Config) (entriesByDocs : List (List Entry))
    (idfs : List ℚ) : Option (List ℚ) := do
  let maxViews ← getMaxNZone index entriesByDocs viewsCnt
  let maxNzonesVals := (List.replicate numZonesCnt 0).set viewsCnt.toNat maxViews
  entriesByDocs.mapM fun entriesByDoc => draftRank index config entriesByDoc idfs maxNzonesVals

/-! ## The text part -/

/-- What the frequencies of a token count. -/
def score (tf : List ℚ) : ℚ :=
  tf.getD titleZone 0 + (1 / 5) * tf.getD descZone 0 + 5 * tf.getD subZone 0

/-- One round: the token is scored by what stands first in the vector. -/
theorem textRankLoop_cons {index : InvertIndex} {config : Config} {entry : Entry}
    {old first more : List ℚ} (hfirst : 3 ≤ first.length)
    (hentry : index.getZonesTf config entry old = some (first ++ more)) (entries : List Entry)
    (idf : ℚ) (idfs : List ℚ) (rank : ℚ) :
    textRankLoop index config (entry :: entries) (idf :: idfs) old rank
      = textRankLoop index config entries idfs (first ++ more) (rank + idf * score first) := by
  obtain ⟨t, d, s, rest, rfl⟩ : ∃ t d s rest, first = t :: d :: s :: rest := by
    rcases first with _ | ⟨t, _ | ⟨d, _ | ⟨s, rest⟩⟩⟩
    · simp at hfirst
    · simp at hfirst
    · simp at hfirst
    · exact ⟨t, d, s, rest, rfl⟩
  have hscore : t + d * (1 / 5) + s * 5 = score (t :: d :: s :: rest) := by
    show t + d * (1 / 5) + s * 5 = t + 1 / 5 * d + 5 * s
    ring
  rw [textRankLoop, hentry, ← hscore]
  rfl

/-- **Once the vector begins with frequencies, they are read in every round**, by induction on the
entries. -/
theorem textRankLoop_eq {index : InvertIndex} {config : Config} {first : List ℚ}
    (hfirst : 3 ≤ first.length) {entries : List Entry} :
    ∀ {idfs more : List ℚ} {rank : ℚ}, idfs.length = entries.length →
      (∀ e ∈ entries, ∃ tf, index.getZonesTf config e [] = some tf) →
      textRankLoop index config entries idfs (first ++ more) rank
        = some (rank + idfs.sum * score first) := by
  induction entries with
  | nil =>
    intro idfs more rank hlen _
    rw [List.length_eq_zero_iff.mp hlen, textRankLoop, List.sum_nil, zero_mul, add_zero]
  | cons entry entries ih =>
    intro idfs more rank hlen htf
    cases idfs with
    | nil => cases hlen
    | cons idf idfs =>
      obtain ⟨tf, hentry⟩ := htf entry List.mem_cons_self
      have happend : index.getZonesTf config entry (first ++ more)
          = some (first ++ (more ++ tf)) := by
        rw [index.getZonesTf_append, hentry, Option.map_some, List.append_assoc]
      rw [textRankLoop_cons hfirst happend, ih (Nat.succ.inj hlen)
        (fun e he => htf e (List.mem_cons_of_mem _ he)), List.sum_cons, add_mul, add_assoc]

/-- What the text part should be: every token by its own frequencies. -/
def ownTextRank (idfs : List ℚ) (tfs : List (List ℚ)) : ℚ :=
  (List.zipWith (fun idf tf => idf * score tf) idfs tfs).sum

/-- **The text part, as the code has it**: every token by the frequencies of the first one. -/
theorem textRank_eq {index : InvertIndex} {config : Config} {entries : List Entry} {idfs : List ℚ}
    {tfs : List (List ℚ)} (hlen : idfs.length = entries.length)
    (hzones : 3 ≤ config.textZones.length)
    (htfs : entries.mapM (fun e => index.getZonesTf config e []) = some tfs) :
    textRank index config entries idfs = some (idfs.sum * score (tfs.headD [])) := by
  cases entries with
  | nil =>
    rw [List.length_eq_zero_iff.mp hlen, textRank, textRankLoop, List.sum_nil, zero_mul]
  | cons entry entries =>
    cases idfs with
    | nil => cases hlen
    | cons idf idfs =>
      obtain ⟨first, tfs, hentry, hentries, rfl⟩ := mapM_cons_eq_some htfs
      have hfirst : 3 ≤ first.length := by rwa [InvertIndex.length_getZonesTf hentry]
      rw [← List.append_nil first] at hentry
      rw [textRank, textRankLoop_cons hfirst hentry, textRankLoop_eq hfirst (Nat.succ.inj hlen)
        (fun e he => defined_of_mapM hentries he), List.headD_cons, List.sum_cons, zero_add,
        add_mul]

/-- **When every token counts by its own frequencies**: exactly if, weighted with the idfs, the
scores differ by nothing in all from that of the first token. -/
theorem textRank_own_iff (index : InvertIndex) (config : Config) (entries : List Entry)
    (idfs : List ℚ) (tfs : List (List ℚ)) (hlen : idfs.length = entries.length)
    (hzones : 3 ≤ config.textZones.length)
    (htfs : entries.mapM (fun e => index.getZonesTf config e []) = some tfs) :
    textRank index config entries idfs = some (ownTextRank idfs tfs) ↔
      (List.zipWith (fun idf tf => idf * (score tf - score (tfs.headD []))) idfs tfs).sum = 0 := by
  have hsum : ∀ (s : ℚ) (idfs : List ℚ) (tfs : List (List ℚ)), idfs.length = tfs.length →
      (List.zipWith (fun idf tf => idf * (score tf - s)) idfs tfs).sum
        = ownTextRank idfs tfs - idfs.sum * s := by
    intro s idfs
    induction idfs with
    | nil =>
      intro tfs _
      simp [ownTextRank]
    | cons idf idfs ih =>
      intro tfs hlen
      cases tfs with
      | nil => cases hlen
      | cons tf tfs =>
        simp only [List.zipWith_cons_cons, List.sum_cons, ih tfs (Nat.succ.inj hlen), ownTextRank]
        ring
  rw [textRank_eq hlen hzones htfs, hsum _ idfs tfs (hlen.trans (length_of_mapM htfs).symm),
    Option.some.injEq, sub_eq_zero]
  exact eq_comm

/-! ## The views -/

section

variable {index : InvertIndex} {config : Config} {docs : List (List Entry)} {idfs : List ℚ}
  {views : List Entry → UInt32} {text : List Entry → ℚ}

/-- The views part is 1 for the most views and 0 for fewer. -/
theorem div_maxOf {d : List Entry} (hd : d ∈ docs) (hpos : maxOf views docs ≠ 0) :
    (views d / maxOf views docs).toNat = if views d = maxOf views docs then 1 else 0 := by
  have hle : (views d).toNat ≤ (maxOf views docs).toNat := UInt32.le_iff_toNat_le.mp (le_maxOf hd)
  have hpos' : 0 < (maxOf views docs).toNat := by
    apply Nat.pos_of_ne_zero
    exact fun hzero => hpos (UInt32.toNat_inj.mp hzero)
  rw [UInt32.toNat_div]
  split
  · rename_i heq
    rw [heq, Nat.div_self hpos']
  · rename_i hne
    have hlt : (views d).toNat < (maxOf views docs).toNat :=
      Nat.lt_of_le_of_ne hle fun heq => hne (UInt32.toNat_inj.mp heq)
    exact Nat.div_eq_of_lt hlt

theorem getMaxNZone_eq (hviews : ∀ d ∈ docs, ∃ e, d.head? = some e ∧
    index.getNZone e viewsCnt = some (views d)) :
    getMaxNZone index docs viewsCnt = some (maxOf views docs) := by
  have h := @maxNZoneFrom_eq _ index id views viewsCnt docs hviews 0
  rwa [List.map_id] at h

/-- The rank of one document. -/
theorem draftRank_eq {d : List Entry} {maxViews : UInt32}
    (hviews : ∃ e, d.head? = some e ∧ index.getNZone e viewsCnt = some (views d))
    (htext : textRank index config d idfs = some (text d)) :
    draftRank index config d idfs ((List.replicate numZonesCnt 0).set viewsCnt.toNat maxViews)
      = if maxViews = 0 then none else some (text d + ((views d / maxViews).toNat : ℚ)) := by
  obtain ⟨e, hhead, hzone⟩ := hviews
  obtain ⟨rest, rfl⟩ := List.head?_eq_some_iff.mp hhead
  have hslot : ((List.replicate numZonesCnt (0 : UInt32)).set viewsCnt.toNat
      maxViews)[viewsCnt.toNat]? = some maxViews := rfl
  simp only [draftRank, htext, hzone, hslot, Option.bind_eq_bind, Option.bind_some]

/-- **The draft ranks**, where some document has been viewed: the text, and 1 for the most
views. -/
theorem draftRanks_eq (hviews : ∀ d ∈ docs, ∃ e, d.head? = some e ∧
      index.getNZone e viewsCnt = some (views d))
    (htext : ∀ d ∈ docs, textRank index config d idfs = some (text d))
    (hpos : maxOf views docs ≠ 0) :
    draftRanks index config docs idfs
      = some (docs.map fun d => text d + if views d = maxOf views docs then 1 else 0) := by
  have hrank : ∀ d ∈ docs, draftRank index config (id d) idfs
      ((List.replicate numZonesCnt 0).set viewsCnt.toNat (maxOf views docs))
        = some (text d + if views d = maxOf views docs then 1 else 0) := by
    intro d hd
    rw [id, draftRank_eq (hviews d hd) (htext d hd), if_neg hpos, div_maxOf hd hpos]
    split <;> simp
  have hall := @mapM_eq_some_map _ _ _ (fun d => draftRank index config d idfs _) id _ docs hrank
  rw [List.map_id] at hall
  rw [draftRanks, getMaxNZone_eq hviews]
  exact hall

/-- Without a view the first document divides by 0. -/
theorem draftRanks_eq_none (hne : docs ≠ [])
    (hviews : ∀ d ∈ docs, ∃ e, d.head? = some e ∧ index.getNZone e viewsCnt = some (views d))
    (htext : ∀ d ∈ docs, textRank index config d idfs = some (text d))
    (hzero : maxOf views docs = 0) : draftRanks index config docs idfs = none := by
  rw [draftRanks, getMaxNZone_eq hviews, hzero]
  obtain ⟨d, docs, rfl⟩ := List.exists_cons_of_ne_nil hne
  have hfirst := @draftRank_eq _ config _ _ _ d 0 (hviews d List.mem_cons_self)
    (htext d List.mem_cons_self)
  rw [if_pos rfl] at hfirst
  simp only [Option.bind_eq_bind, Option.bind_some, List.mapM_cons, hfirst]
  rfl

/-- **What views should do to the draft ranks**: there are ranks, and with the same text more views
rank higher. -/
def RanksByViews (index : InvertIndex) (config : Config) (docs : List (List Entry))
    (idfs : List ℚ) (views : List Entry → UInt32) (text : List Entry → ℚ) : Prop :=
  ∃ rank : List Entry → ℚ, draftRanks index config docs idfs = some (docs.map rank) ∧
    ∀ d ∈ docs, ∀ d' ∈ docs, text d = text d' → views d < views d' → rank d < rank d'

end

/-- **When they do**: exactly if some document has been viewed, and of any two with the same text
part and different views one has the most of all. -/
theorem ranksByViews_iff (index : InvertIndex) (config : Config) (docs : List (List Entry))
    (idfs : List ℚ) (views : List Entry → UInt32) (text : List Entry → ℚ) (hne : docs ≠ [])
    (hviews : ∀ d ∈ docs, ∃ e, d.head? = some e ∧ index.getNZone e viewsCnt = some (views d))
    (htext : ∀ d ∈ docs, textRank index config d idfs = some (text d)) :
    RanksByViews index config docs idfs views text ↔
      maxOf views docs ≠ 0 ∧ ∀ d ∈ docs, ∀ d' ∈ docs, text d = text d' → views d < views d' →
        views d' = maxOf views docs := by
  constructor
  · rintro ⟨rank, hranks, hmore⟩
    have hpos : maxOf views docs ≠ 0 := by
      intro hzero
      rw [draftRanks_eq_none hne hviews htext hzero] at hranks
      cases hranks
    refine ⟨hpos, fun d hd d' hd' hsame hlt => ?_⟩
    rw [draftRanks_eq hviews htext hpos, Option.some.injEq, List.map_inj_left] at hranks
    have hrank := hmore d hd d' hd' hsame hlt
    -- Were neither the most viewed, both would get nothing for their views.
    by_contra hnot
    have hnot' : views d ≠ maxOf views docs :=
      fun heq => absurd (heq ▸ hlt) (not_lt_of_ge (le_maxOf hd'))
    rw [← hranks d hd, ← hranks d' hd', if_neg hnot, if_neg hnot', hsame] at hrank
    exact lt_irrefl _ hrank
  · rintro ⟨hpos, hmost⟩
    refine ⟨_, draftRanks_eq hviews htext hpos, fun d hd d' hd' hsame hlt => ?_⟩
    have hmax := hmost d hd d' hd' hsame hlt
    have hnot : views d ≠ maxOf views docs := fun heq => absurd (heq.trans hmax.symm) hlt.ne
    rw [if_pos hmax, if_neg hnot, hsame]
    exact add_lt_add_right zero_lt_one _

/-! ## The ranks of the draft ranking -/

section

variable {τ σ : Type}

/-- The ranks of `Amigos.Ranker`, with the draft rank exact; `val` are the logarithms. -/
def exactRanks (index : InvertIndex) (config : Config) (val : Idf → ℚ) (r : Ranks ℚ τ σ) :
    Ranks ℚ τ σ :=
  { r with draft := fun idfs entries views =>
      (textRank index config entries (idfs.map val)).getD 0 + (views.toNat : ℚ) }

/-- The draft ranking sorts by the draft rank: where the text part is defined, its ranks are those
of `get_draft_rank`. -/
theorem getDraftRank_exactRanks {index : InvertIndex} {config : Config} {val : Idf → ℚ}
    (r : Ranks ℚ τ σ) {entriesByDoc : List Entry} {idfs : List Idf} {text : ℚ}
    (htext : textRank index config entriesByDoc (idfs.map val) = some text)
    (maxNzonesVals : List UInt32) :
    getDraftRank (exactRanks index config val r) index entriesByDoc idfs maxNzonesVals
      = draftRank index config entriesByDoc (idfs.map val) maxNzonesVals := by
  cases entriesByDoc with
  | nil =>
    rw [draftRank, htext]
    show some ((textRank index config [] (idfs.map val)).getD 0 + ((0 : UInt32).toNat : ℚ)) = _
    rw [htext]
    simp
  | cons entry entries =>
    simp only [getDraftRank, draftRank, exactRanks, htext, Option.bind_eq_bind, Option.bind_some,
      Option.getD_some, Option.pure_def]
    cases index.getNZone entry viewsCnt with
    | none => rfl
    | some views => cases maxNzonesVals[viewsCnt.toNat]? <;> rfl

end

/-! ## Three documents of one word -/

/-- A configuration with the three text zones that the ranker reads. -/
def rankedConfig : Config where
  docIdTag := "id"
  invertIndexIPosFile := ""
  numZones := [{ name := "views", path := ["views"], isOptional := false, needSave := false }]
  textZones :=
    [{ name := "title", path := ["title"], isOptional := false, needSave := true },
      { name := "desc", path := ["desc"], isOptional := false, needSave := false },
      { name := "en_sub", path := ["en_sub"], isOptional := false, needSave := true }]
  trashZones := []

/-- Documents with one word in each text zone, and with these views. -/
def rankedIndex (views : List UInt32) : InvertIndex where
  invIdx := []
  invIdxStream := ⟨[], 0⟩
  postingStore := { src := [], tZonesCnt := 3 }
  docStore :=
    { docIds := views.map fun _ => 0
      nZones := [views]
      tZonesWCnt := List.replicate 3 (views.map fun _ => 1) }

/-- The entry of a word that is in the zones of this mask of a document, once in each. -/
def rankedEntry (docIdOffset : UInt32) (inZone : UInt8) : Entry :=
  ⟨docIdOffset, ⟨inZone, 0, [1]⟩⟩

/-- Two tokens, one in the title and one in the subtitles: both are scored as in the title. -/
theorem not_textRank_own_twoTokens : ¬ ∀ (index : InvertIndex) (config : Config)
    (entries : List Entry) (idfs : List ℚ) (tfs : List (List ℚ)), idfs.length = entries.length →
    3 ≤ config.textZones.length →
    entries.mapM (fun e => index.getZonesTf config e []) = some tfs →
    textRank index config entries idfs = some (ownTextRank idfs tfs) := by
  intro hclaim
  have h := hclaim (rankedIndex [0]) rankedConfig [rankedEntry 0 1, rankedEntry 0 4] [1, 1]
    [[1, 0, 0], [0, 0, 1]] rfl (Nat.le_refl 3) (by decide +kernel)
  exact absurd h (by decide +kernel)

/-- Both of them in the title. -/
theorem textRank_own_iff_titleTokens :
    textRank (rankedIndex [0]) rankedConfig [rankedEntry 0 1, rankedEntry 0 1] [1, 2]
      = some (ownTextRank [1, 2] [[1, 0, 0], [1, 0, 0]]) :=
  (textRank_own_iff (rankedIndex [0]) rankedConfig [rankedEntry 0 1, rankedEntry 0 1] [1, 2]
    [[1, 0, 0], [1, 0, 0]] rfl (Nat.le_refl 3) (by decide +kernel)).mpr (by decide +kernel)

/-- The views of the document of these entries. -/
def rankedViews (views : List UInt32) (d : List Entry) : UInt32 :=
  (d.head?.bind fun e => (rankedIndex views).getNZone e viewsCnt).getD 0

/-- The documents, all with the word in the title. -/
def rankedDocs (n : Nat) : List (List Entry) :=
  (List.range n).map fun d => [rankedEntry (UInt32.ofNat d) 1]

theorem rankedViews_three (d : List Entry) (hd : d ∈ rankedDocs 3) : ∃ e, d.head? = some e ∧
    (rankedIndex [3, 2, 1]).getNZone e viewsCnt = some (rankedViews [3, 2, 1] d) := by
  obtain ⟨i, hi, rfl⟩ := List.mem_map.mp hd
  have hlt : i < 3 := List.mem_range.mp hi
  refine ⟨_, rfl, ?_⟩
  revert i
  decide

theorem textRank_rankedDocs (d : List Entry) (hd : d ∈ rankedDocs 3) :
    textRank (rankedIndex [3, 2, 1]) rankedConfig d [1] = some 1 := by
  revert d
  decide +kernel

/-- Three documents with 3, 2 and 1 views: the second ranks like the third. -/
theorem not_ranksByViews_three : ¬ ∀ (index : InvertIndex) (config : Config)
    (docs : List (List Entry)) (idfs : List ℚ) (views : List Entry → UInt32)
    (text : List Entry → ℚ), docs ≠ [] →
    (∀ d ∈ docs, ∃ e, d.head? = some e ∧ index.getNZone e viewsCnt = some (views d)) →
    (∀ d ∈ docs, textRank index config d idfs = some (text d)) →
    RanksByViews index config docs idfs views text := by
  intro hclaim
  obtain ⟨rank, hranks, hmore⟩ := hclaim (rankedIndex [3, 2, 1]) rankedConfig (rankedDocs 3) [1]
    (rankedViews [3, 2, 1]) (fun _ => 1) (by decide) rankedViews_three textRank_rankedDocs
  have heval : draftRanks (rankedIndex [3, 2, 1]) rankedConfig (rankedDocs 3) [1]
      = some [2, 1, 1] := by decide +kernel
  have hlt := hmore [rankedEntry 2 1] (by decide) [rankedEntry 1 1] (by decide) rfl (by decide)
  have hboth : [rank [rankedEntry 0 1], rank [rankedEntry 1 1], rank [rankedEntry 2 1]]
      = [2, 1, 1] := Option.some.inj (hranks.symm.trans heval)
  simp only [List.cons.injEq] at hboth
  rw [hboth.2.1, hboth.2.2.1] at hlt
  exact lt_irrefl _ hlt

/-- The same three documents. -/
theorem ranksByViews_iff_three :
    RanksByViews (rankedIndex [3, 2, 1]) rankedConfig (rankedDocs 3) [1] (rankedViews [3, 2, 1])
        (fun _ => 1) ↔
      maxOf (rankedViews [3, 2, 1]) (rankedDocs 3) ≠ 0 ∧
        ∀ d ∈ rankedDocs 3, ∀ d' ∈ rankedDocs 3, (1 : ℚ) = 1 →
          rankedViews [3, 2, 1] d < rankedViews [3, 2, 1] d' →
          rankedViews [3, 2, 1] d' = maxOf (rankedViews [3, 2, 1]) (rankedDocs 3) :=
  ranksByViews_iff (rankedIndex [3, 2, 1]) rankedConfig (rankedDocs 3) [1]
    (rankedViews [3, 2, 1]) (fun _ => 1) (by decide) rankedViews_three textRank_rankedDocs

end Amigos.Ranker
