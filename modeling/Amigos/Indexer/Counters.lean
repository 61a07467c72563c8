import Amigos.Index.Phrases
import Amigos.Indexer.Recorded

/-!
# How many words an item may have (`_extractTextZones`, `splitByZones`)

The words of an item are numbered, and counted zone by zone, in 16 bits, and no one looks whether
that is enough. `zonesTold_iff` says for which items it is: those with fewer than `2 ^ 16` words
in all. Then every position comes to the zone that it was recorded in; with one word more the
number behind the last word is 0 again, and the counts may be anything.
-/

set_option autoImplicit false

namespace Amigos.Indexer

open Amigos.Lib
open Amigos.Common
open Amigos.Index

/-- **The zones are told apart.** Behind every word the counters are the number of words so far, in
all and in the zone; and every position of the dictionary is put, by `splitByZones`, into the zone
that it was recorded in: a piece for each zone in which the token has a place, with its places
there, and the bit of each such zone. -/
structure ZonesTold (fuel : Nat) (start : TextState) (zones : List (List Bytes)) : Prop where
  counters : ∀ done words more behind, zones = done ++ (words ++ more) :: behind →
    (addWords (addZones start done).2 words).2.pos.toNat = done.flatten.length + words.length ∧
      (addWords (addZones start done).2 words).1.toNat = words.length
  split : ∀ t ps, (t, ps) ∈ (addZones start zones).2.tmpDict →
    ∃ info, splitByZones fuel ps (addZones start zones).1
        = some (((zones.map (tokenPositions t)).filter (· ≠ [])).map narrow, info) ∧
      ∀ i words, zones[i]? = some words →
        (info.inZone.toNat.testBit i = true ↔ tokenPositions t words ≠ [])

/-- The counters as the code has them: the true numbers, as far as 16 bits go. -/
theorem counters_eq (charsCnt : UInt64) (statDict : List (Bytes × UInt32))
    (done : List (List Bytes)) (words : List Bytes) :
    (addWords (addZones { pos := 0, tmpDict := [], charsCnt, statDict } done).2 words).2.pos
        = UInt16.ofNat (done.flatten.length + words.length) ∧
      (addWords (addZones { pos := 0, tmpDict := [], charsCnt, statDict } done).2 words).1
        = UInt16.ofNat words.length := by
  obtain ⟨-, hdone⟩ := addZones_collected done { pos := 0, tmpDict := [], charsCnt, statDict } 0
  have hpos := hdone.pos rfl
  rw [Nat.zero_add] at hpos
  obtain ⟨hcnt, hwords⟩ := addWords_collected
    (addZones { pos := 0, tmpDict := [], charsCnt, statDict } done).2 words done.flatten.length
  exact ⟨hwords.pos hpos, hcnt⟩

/-- With fewer than `2 ^ 16` words the counters are right. -/
theorem counters_of_lt {zones : List (List Bytes)} (hlt : zones.flatten.length < 2 ^ 16)
    (charsCnt : UInt64) (statDict : List (Bytes × UInt32)) {done : List (List Bytes)}
    {words more : List Bytes} {behind : List (List Bytes)}
    (hzones : zones = done ++ (words ++ more) :: behind) :
    (addWords (addZones { pos := 0, tmpDict := [], charsCnt, statDict } done).2 words).2.pos.toNat
        = done.flatten.length + words.length ∧
      (addWords (addZones { pos := 0, tmpDict := [], charsCnt, statDict } done).2 words).1.toNat
        = words.length := by
  obtain ⟨hpos, hcnt⟩ := counters_eq charsCnt statDict done words
  have hle : done.flatten.length + words.length ≤ zones.flatten.length := by
    rw [hzones, List.flatten_append, List.flatten_cons, List.length_append, List.length_append,
      List.length_append]
    omega
  rw [hpos, hcnt, UInt16.toNat_ofNat', UInt16.toNat_ofNat']
  exact ⟨Nat.mod_eq_of_lt (by omega), Nat.mod_eq_of_lt (by omega)⟩

/-- A zone has its bit if the token has a place there. -/
theorem testBit_mask_placesOf {zones : List (List Bytes)} (hzones : zones.length ≤ 8) (t : UInt32)
    {i : Nat} {words : List Bytes} (hi : zones[i]? = some words) :
    ((placesOf t zones).mask 0).toNat.testBit i = true ↔ tokenPositions t words ≠ [] := by
  have hplaces : (placesOf t zones)[i]? = some (words.length, tokenPositions t words) := by
    rw [placesOf, List.getElem?_map, hi, Option.map_some]
  rw [testBit_mask (by rw [placesOf, List.length_map]; exact (Nat.zero_add _).trans_le hzones)]
  constructor
  · rintro ⟨j, z, hj, hget, hne⟩
    rw [Nat.zero_add] at hj
    rw [← hj, hplaces] at hget
    cases hget
    exact hne
  · exact fun hne => ⟨i, _, (Nat.zero_add i).symm, hplaces, hne⟩

/-- Behind the last word the counter is below `2 ^ 16`, as every number of 16 bits is. -/
theorem ZonesTold.lt {fuel : Nat} {start : TextState} {zones : List (List Bytes)}
    (h : ZonesTold fuel start zones) : zones.flatten.length < 2 ^ 16 := by
  rcases List.eq_nil_or_concat zones with rfl | ⟨done, words, rfl⟩
  · exact Nat.two_pow_pos 16
  · rw [List.concat_eq_append] at h ⊢
    obtain ⟨hpos, -⟩ := h.counters done words [] [] (by rw [List.append_nil])
    rw [List.flatten_append, List.flatten_singleton, List.length_append, ← hpos]
    exact UInt16.toNat_lt _

/-- **For which items 16 bits are enough**: those with fewer than `2 ^ 16` words. -/
theorem zonesTold_iff (env : TextEnv) (ix : Indexer) (texts : List Bytes)
    (zones : List (List Bytes)) (htexts : texts.length ≤ 8)
    (hwords : texts.mapM env.bterms = some zones) :
    ZonesTold env.fuel
        { pos := 0, tmpDict := [], charsCnt := ix.charsCnt, statDict := ix.statDict } zones ↔
      zones.flatten.length < 2 ^ 16 := by
  have hzones : zones.length ≤ 8 := (length_of_mapM hwords).trans_le htexts
  refine ⟨ZonesTold.lt, fun hlt => ⟨fun _ _ _ _ hsplit => counters_of_lt hlt _ _ hsplit, ?_⟩⟩
  intro t ps hmem
  obtain ⟨rfl, -⟩ := ((addZones_dictionary zones ix.charsCnt ix.statDict).mem_iff t ps).mp hmem
  have hsplit := splitByZones_eq (fits_placesOf hzones hlt t) env.fuel_gt
  rw [through_placesOf, counts_placesOf] at hsplit
  obtain ⟨hcounts, -⟩ := addZones_collected zones
    { pos := 0, tmpDict := [], charsCnt := ix.charsCnt, statDict := ix.statDict } 0
  have hnarrow : narrow (zones.map List.length)
      = zones.map fun words => UInt16.ofNat words.length := by
    rw [narrow, List.map_map]
    rfl
  have hpieces : (placesOf t zones).pieces = (zones.map (tokenPositions t)).filter (· ≠ []) := by
    rw [Places.pieces, placesOf, List.map_map]
    rfl
  rw [hcounts, ← hnarrow, ← hpieces]
  exact ⟨_, hsplit, fun i words hi => testBit_mask_placesOf hzones t hi⟩

/-! ## A text of as many words as there are numbers -/

/-- An environment that is right about ASCII texts of one word a line, without stop words. -/
def TextEnv.lines : TextEnv :=
  { Env.oneWord.toTextEnv with
    terminate2vec := fun text => (Index.lines text).filter (· ≠ [])
    codec := .ascii }

/-- The letter `x` on each of `n` lines. -/
def linesOf (n : Nat) : Bytes := (List.replicate n [120]).flatMap fun line => line ++ [10]

theorem bterms_linesOf (n : Nat) :
    TextEnv.lines.bterms (linesOf n) = some (List.replicate n [120]) := by
  have hlines : Index.lines (linesOf n) = List.replicate n [120] :=
    lines_flatMap fun line hline => by
      rw [List.eq_of_mem_replicate hline]
      decide
  have hwords : TextEnv.lines.terminate2vec (linesOf n) = List.replicate n [120] := by
    show (Index.lines (linesOf n)).filter (· ≠ []) = _
    rw [hlines]
    exact List.filter_eq_self.mpr fun line hline => by
      rw [List.eq_of_mem_replicate hline]
      rfl
  have hbigrams : ∀ (left : Option Bytes) (n : Nat),
      bigramsFrom .ascii [] left (List.replicate n [120]) = some (List.replicate n [120]) := by
    intro left n
    induction n generalizing left with
    | zero => rfl
    | succ n ih =>
      rw [List.replicate_succ, bigramsFrom, ih]
      rfl
  rw [TextEnv.bterms, hwords]
  exact hbigrams none n

/-- A title of `2 ^ 16` words: the counters are 0 behind the last one. -/
theorem not_zonesTold_manyLines :
    ¬ ∀ (env : TextEnv) (ix : Indexer) (texts : List Bytes) (zones : List (List Bytes)),
      texts.length ≤ 8 → texts.mapM env.bterms = some zones →
      ZonesTold env.fuel
        { pos := 0, tmpDict := [], charsCnt := ix.charsCnt, statDict := ix.statDict } zones := by
  intro hclaim
  have hwords : [linesOf (2 ^ 16)].mapM TextEnv.lines.bterms
      = some [List.replicate (2 ^ 16) [120]] := by
    rw [List.mapM_cons, bterms_linesOf]
    rfl
  have h := hclaim .lines (empty titleConfig) [linesOf (2 ^ 16)] [List.replicate (2 ^ 16) [120]]
    (Nat.succ_le_succ (Nat.zero_le 7)) hwords
  have hlt := h.lt
  rw [List.flatten_singleton, List.length_replicate] at hlt
  exact absurd hlt (Nat.lt_irrefl _)

/-- With the count 0 for the only zone the inner loop runs past it. -/
theorem splitByZones_zeroCount (fuel : Nat) (val : UInt16) (posting : List UInt16) :
    splitByZones fuel (val :: posting) [0] = none := by
  have hagain : skipPass [0] val (0, 0, true) = some (.again (1, 0, true)) := by
    simp [skipPass]
  have hskip : iterate (skipPass [0] val) fuel (0, 0, true) = none := by
    cases fuel with
    | zero => rfl
    | succ fuel =>
      rw [iterate_again hagain]
      cases fuel <;> rfl
  rw [splitByZones, splitVals_cons, splitVal, hskip]
  rfl

/-- So no document comes out of such a title, whatever has been indexed before. -/
theorem addText_manyLines (ix : Indexer) : ix.addText .lines [linesOf (2 ^ 16)] = none := by
  have hwords : [linesOf (2 ^ 16)].mapM TextEnv.lines.bterms
      = some [List.replicate (2 ^ 16) [120]] := by
    rw [List.mapM_cons, bterms_linesOf]
    rfl
  cases h : ix.addText .lines [linesOf (2 ^ 16)] with
  | none => rfl
  | some r =>
    exfalso
    obtain ⟨wordsCnt, recorded, ix'⟩ := r
    obtain ⟨zones, dict, hadds⟩ := addText_eq_some h
    obtain rfl := Option.some.inj (hadds.words.symm.trans hwords)
    have hcounts := hadds.counts
    rw [List.map_singleton, List.length_replicate] at hcounts
    -- The dictionary has the word `x`; its first token already has no entry.
    have hmem : ([120] : Bytes) ∈ [List.replicate (2 ^ 16) ([120] : Bytes)].flatten := by
      rw [List.flatten_singleton, List.mem_replicate]
      exact ⟨Nat.two_pow_pos 16 |>.ne', rfl⟩
    have hne := hadds.dictionary.ne_nil_iff.mpr ⟨[120], hmem, by decide⟩
    obtain ⟨⟨t, ps⟩, dict, rfl⟩ := List.exists_cons_of_ne_nil hne
    obtain ⟨-, hps⟩ := (hadds.dictionary.mem_iff t ps).mp List.mem_cons_self
    obtain ⟨val, posting, rfl⟩ := List.exists_cons_of_ne_nil hps
    have hrun := hadds.run
    rw [hcounts, recordTokens, recordToken] at hrun
    have hzero : narrow [2 ^ 16] = [0] := by decide
    rw [hzero, splitByZones_zeroCount] at hrun
    cases hrun

/-- A title of two words, and a description of one. -/
theorem zonesTold_iff_twoZones :
    ZonesTold 256 { pos := 0, tmpDict := [], charsCnt := 0, statDict := [] }
        [[[120], [120]], [[120]]] ↔ 3 < 2 ^ 16 :=
  zonesTold_iff .lines (empty titleConfig) [linesOf 2, linesOf 1] [[[120], [120]], [[120]]]
    (by decide) (by decide)

end Amigos.Indexer
