import Amigos.Indexer.Run

/-!
# What an item records (`_extractTextZones`, behind the words)

`addText` is taken apart once, into `AddsText`: the words of the zones, the dictionary over them,
and the entries that are recorded for it. What the proofs about runs use of an entry does not
depend on where the positions stand: its token, its document, and that its counts fit the file
format. `pairs_addEntries` says where it goes: into the index in memory, next to what was there.
-/

set_option autoImplicit false

namespace Amigos.Indexer

open Amigos.Lib
open Amigos.Index

/-! ## The dictionary over a text -/

/-- Every token of the text once, with its places. -/
structure Dictionary (words : List Bytes) (dict : List (UInt32 × List UInt16)) : Prop where
  nodup : (dict.map Prod.fst).Nodup
  mem_iff : ∀ t ps, (t, ps) ∈ dict ↔ ps = narrow (tokenPositions t words) ∧ ps ≠ []

/-- The loop over the dictionary may meet its elements in any order. -/
theorem Dictionary.perm {words : List Bytes} {dict dict' : List (UInt32 × List UInt16)}
    (h : Dictionary words dict) (hperm : dict'.Perm dict) : Dictionary words dict' where
  nodup := (hperm.map Prod.fst).nodup_iff.mpr h.nodup
  mem_iff t ps := hperm.mem_iff.trans (h.mem_iff t ps)

theorem Dictionary.mem_tokens {words : List Bytes} {dict : List (UInt32 × List UInt16)}
    (h : Dictionary words dict) (t : UInt32) :
    t ∈ dict.map Prod.fst ↔ tokenPositions t words ≠ [] := by
  constructor
  · intro ht
    obtain ⟨⟨t', ps⟩, hmem, rfl⟩ := List.mem_map.mp ht
    obtain ⟨hps, hne⟩ := (h.mem_iff t' ps).mp hmem
    intro hnil
    rw [hnil] at hps
    exact hne hps
  · intro hne
    have hmem := (h.mem_iff t (narrow (tokenPositions t words))).mpr
      ⟨rfl, fun hnil => hne (List.map_eq_nil_iff.mp hnil)⟩
    exact List.mem_map.mpr ⟨_, hmem, rfl⟩

/-- A token has a place if a word without bad symbols has its hash. -/
theorem tokenPositions_ne_nil {t : UInt32} {words : List Bytes} : tokenPositions t words ≠ [] ↔
    ∃ word ∈ words, hasBadSymbols word = false ∧ Common.murmurHash2 word = t := by
  constructor
  · intro hne
    obtain ⟨i, hi⟩ := List.exists_mem_of_ne_nil _ hne
    obtain ⟨hlt, htok⟩ := List.mem_findIdxs_iff_exists_getElem_pos.mp hi
    rw [isToken, Bool.and_eq_true, Bool.not_eq_true', beq_iff_eq] at htok
    exact ⟨words[i], List.getElem_mem hlt, htok⟩
  · rintro ⟨word, hword, hgood, rfl⟩
    obtain ⟨i, hi, rfl⟩ := List.getElem_of_mem hword
    have htok : isToken (Common.murmurHash2 words[i]) words[i] = true := by simp [isToken, hgood]
    have hmem : i ∈ tokenPositions (Common.murmurHash2 words[i]) words :=
      List.mem_findIdxs_iff_exists_getElem_pos.mpr ⟨hi, htok⟩
    exact List.ne_nil_of_mem hmem

/-- The dictionary is empty if no word is good for a token. -/
theorem Dictionary.ne_nil_iff {words : List Bytes} {dict : List (UInt32 × List UInt16)}
    (h : Dictionary words dict) :
    dict ≠ [] ↔ ∃ word ∈ words, hasBadSymbols word = false := by
  constructor
  · intro hne
    obtain ⟨⟨t, ps⟩, hmem⟩ := List.exists_mem_of_ne_nil dict hne
    have hpos := (h.mem_tokens t).mp (List.mem_map.mpr ⟨(t, ps), hmem, rfl⟩)
    obtain ⟨word, hword, hgood, -⟩ := tokenPositions_ne_nil.mp hpos
    exact ⟨word, hword, hgood⟩
  · rintro ⟨word, hword, hgood⟩ rfl
    have hpos := tokenPositions_ne_nil.mpr ⟨word, hword, hgood, rfl⟩
    exact absurd ((h.mem_tokens _).mpr hpos) List.not_mem_nil

theorem addZones_dictionary (zones : List (List Bytes)) (charsCnt : UInt64)
    (statDict : List (Bytes × UInt32)) : Dictionary zones.flatten
      (addZones { pos := 0, tmpDict := [], charsCnt, statDict } zones).2.tmpDict := by
  obtain ⟨-, hcollected⟩ :=
    addZones_collected zones { pos := 0, tmpDict := [], charsCnt, statDict } 0
  have hok := hcollected.ok ⟨List.nodup_nil, by simp⟩
  have hlookUp : ∀ t, lookUpPos t
      (addZones { pos := 0, tmpDict := [], charsCnt, statDict } zones).2.tmpDict
        = narrow (tokenPositions t zones.flatten) := fun t => hcollected.lookUp rfl t
  refine ⟨hok.nodup, fun t ps => ⟨fun hmem => ?_, ?_⟩⟩
  · exact ⟨(hok.lookUpPos_of_mem hmem).symm.trans (hlookUp t), hok.nonempty _ hmem⟩
  · rintro ⟨rfl, hne⟩
    rw [← hlookUp] at hne ⊢
    exact mem_of_lookUpPos_ne_nil hne

/-! ## The text of an item -/

/-- **What `addText` does**: the words of the zones are collected in a dictionary, and an entry is
recorded for every token of it. -/
structure AddsText (env : TextEnv) (ix : Indexer) (texts : List Bytes) (wordsCnt : List UInt16)
    (recorded : List (UInt32 × Entry)) (ix' : Indexer) (zones : List (List Bytes))
    (dict : List (UInt32 × List UInt16)) : Prop where
  words : texts.mapM env.bterms = some zones
  counts : wordsCnt = narrow (zones.map List.length)
  dictionary : Dictionary zones.flatten dict
  run : recordTokens env.fuel wordsCnt (UInt32.ofNat (DynDocStorage.size ix.docStore))
    ix.postingStore dict = some (recorded, ix'.postingStore)
  invIdx : ix'.invIdx = recorded.foldl (fun idx r => addEntry r.1 r.2 idx) ix.invIdx
  docStore : ix'.docStore = ix.docStore
  dir : ix'.dir = ix.dir

theorem addText_eq_some {env : TextEnv} {ix ix' : Indexer} {texts : List Bytes}
    {wordsCnt : List UInt16} {recorded : List (UInt32 × Entry)}
    (h : ix.addText env texts = some (wordsCnt, recorded, ix')) :
    ∃ zones dict, AddsText env ix texts wordsCnt recorded ix' zones dict := by
  simp only [addText, Option.bind_eq_bind, Option.bind_eq_some_iff, Option.pure_def,
    Option.some.injEq, Prod.mk.injEq] at h
  obtain ⟨zones, hzones, ⟨recorded', postingStore⟩, hrun, rfl, rfl, rfl⟩ := h
  obtain ⟨hcounts, -⟩ := addZones_collected zones
    { pos := 0, tmpDict := [], charsCnt := ix.charsCnt, statDict := ix.statDict } 0
  refine ⟨zones, _, ⟨hzones, ?_, (addZones_dictionary zones _ _).perm (env.iterate_perm _), hrun,
    rfl, rfl, rfl⟩⟩
  rw [hcounts, narrow, List.map_map]
  rfl

/-! ## The pieces of an entry -/

/-- `splitByZones` opens a piece for a zone at most once, on its way from zone to zone. -/
structure Split.Counts (s : Split) : Prop where
  zone : s.zi.toNat < 255
  pieces : s.splitPosting.length ≤ s.zi.toNat + 1
  isNew : s.isNewZone = true → s.splitPosting.length ≤ s.zi.toNat

/-- Skipping zones leaves room for one piece more. -/
theorem skip_counts {zwCnt : List UInt16} (hlen : zwCnt.length ≤ 255) {val : UInt16} {fuel n : Nat}
    {zi zi' : UInt8} {offset offset' : UInt16} {isNewZone isNewZone' : Bool}
    (hpieces : n ≤ zi.toNat + 1) (hnew : isNewZone = true → n ≤ zi.toNat)
    (h : iterate (skipPass zwCnt val) fuel (zi, offset, isNewZone)
      = some (zi', offset', isNewZone')) :
    zi'.toNat < 255 ∧ n ≤ zi'.toNat + 1 ∧ (isNewZone' = true → n ≤ zi'.toNat) := by
  have hzone : ∀ {zi : UInt8} {cnt : UInt16}, zwCnt[zi.toNat]? = some cnt → zi.toNat < 255 :=
    fun hget => Nat.lt_of_lt_of_le (List.getElem?_eq_some_iff.mp hget).1 hlen
  refine iterate_inv
    (fun s : UInt8 × UInt16 × Bool => n ≤ s.1.toNat + 1 ∧ (s.2.2 = true → n ≤ s.1.toNat))
    (fun s : UInt8 × UInt16 × Bool =>
      s.1.toNat < 255 ∧ n ≤ s.1.toNat + 1 ∧ (s.2.2 = true → n ≤ s.1.toNat))
    ?_ ?_ ⟨hpieces, hnew⟩ h
  · rintro ⟨zi, offset, isNewZone⟩ s' ⟨hn, -⟩ hpass
    obtain ⟨cnt, -, ⟨-, heq, hnext, -⟩ | ⟨-, heq⟩⟩ := skipPass_cases hlen hpass
    · cases heq
      have hle : n ≤ (zi + 1).toNat := by
        rw [hnext]
        exact hn
      exact ⟨Nat.le_succ_of_le hle, fun _ => hle⟩
    · cases heq
  · rintro ⟨zi, offset, isNewZone⟩ b ⟨hn, hnew⟩ hpass
    obtain ⟨cnt, hget, ⟨-, heq, -⟩ | ⟨-, heq⟩⟩ := skipPass_cases hlen hpass
    · cases heq
    · cases heq
      exact ⟨hzone hget, hn, hnew⟩

theorem Split.Counts.splitVal {fuel : Nat} {zwCnt : List UInt16} (hlen : zwCnt.length ≤ 255)
    {s s' : Split} {val : UInt16} (h : s.Counts)
    (hval : Indexer.splitVal fuel zwCnt s val = some s') : s'.Counts := by
  simp only [Indexer.splitVal, Option.bind_eq_bind, Option.bind_eq_some_iff] at hval
  obtain ⟨⟨zi, offset, isNewZone⟩, hskip, hval⟩ := hval
  obtain ⟨hzone, hpieces, hnew⟩ := skip_counts hlen h.pieces h.isNew hskip
  split at hval
  · rename_i hopen
    simp only [Option.bind_eq_some_iff, Option.pure_def, Option.some.injEq] at hval
    obtain ⟨mask, -, rfl⟩ := hval
    refine ⟨hzone, ?_, fun hfalse => absurd hfalse Bool.false_ne_true⟩
    rw [List.length_append]
    exact Nat.succ_le_succ (hnew hopen)
  · simp only [Option.bind_eq_some_iff, Option.pure_def, Option.some.injEq] at hval
    obtain ⟨back, hback, rfl⟩ := hval
    -- The place goes to the last piece, and the number of pieces stays.
    have hsame : (s.splitPosting.dropLast ++ [back ++ [val - offset]]).length
        = s.splitPosting.length := by
      have hpos : 0 < s.splitPosting.length :=
        List.length_pos_of_mem (List.mem_of_getLast? hback)
      rw [List.length_append, List.length_dropLast, List.length_singleton]
      omega
    refine ⟨hzone, ?_, ?_⟩ <;> dsimp only <;> rw [hsame]
    · exact hpieces
    · exact hnew

theorem Split.Counts.splitVals {fuel : Nat} {zwCnt : List UInt16} (hlen : zwCnt.length ≤ 255)
    {posting : List UInt16} : ∀ {s s' : Split}, s.Counts →
      Indexer.splitVals fuel zwCnt s posting = some s' → s'.Counts := by
  induction posting with
  | nil =>
    intro s s' h hvals
    cases hvals
    exact h
  | cons val posting ih =>
    intro s s' h hvals
    rw [splitVals_cons, Option.bind_eq_some_iff] at hvals
    obtain ⟨s₁, hval, hvals⟩ := hvals
    exact ih (h.splitVal hlen hval) hvals

/-- An entry of at most 255 zones has a number of sizes that fits the file format. -/
theorem recordToken_fits {fuel : Nat} {wordsCnt : List UInt16} (hlen : wordsCnt.length ≤ 255)
    {docIdOffset : UInt32} {st st' : DynPostingStore} {pair : UInt32 × List UInt16}
    {r : UInt32 × Entry} (h : recordToken fuel wordsCnt docIdOffset st pair = some (r, st')) :
    r.2.Fits := by
  simp only [recordToken, splitByZones, Option.bind_eq_bind, Option.bind_eq_some_iff,
    Option.pure_def, Option.some.injEq, Prod.mk.injEq] at h
  obtain ⟨⟨fzpBuf, postingInfo⟩, ⟨s, hvals, rfl, rfl⟩, rfl, -⟩ := h
  have hcounts := Split.Counts.splitVals hlen ⟨by decide, Nat.zero_le _, fun _ => Nat.le_refl _⟩
    hvals
  have hle := hcounts.pieces
  have hzone := hcounts.zone
  show (s.splitPosting.map fun vec => UInt16.ofNat vec.length).length < 2 ^ 8
  rw [List.length_map]
  omega

/-! ## The entries -/

/-- **What the loop over a dictionary does**: an entry for every token, under the number of the
document, and their positions behind what the file has. -/
structure Records (wordsCnt : List UInt16) (docIdOffset : UInt32)
    (dict : List (UInt32 × List UInt16)) (st : DynPostingStore) (recorded : List (UInt32 × Entry))
    (st' : DynPostingStore) : Prop where
  tokens : recorded.map Prod.fst = dict.map Prod.fst
  docIdOffset : ∀ r ∈ recorded, r.2.docIdOffset = docIdOffset
  fits : wordsCnt.length ≤ 255 → ∀ r ∈ recorded, r.2.Fits
  behind : st.ofs <+: st'.ofs
  tracks : Tracks st → Tracks st'

theorem recordToken_records {fuel : Nat} {wordsCnt : List UInt16} {docIdOffset : UInt32}
    {st st' : DynPostingStore} {pair : UInt32 × List UInt16} {r : UInt32 × Entry}
    (h : recordToken fuel wordsCnt docIdOffset st pair = some (r, st')) :
    Records wordsCnt docIdOffset [pair] st [r] st' := by
  have hfits := fun hlen => recordToken_fits hlen h
  simp only [recordToken, Option.bind_eq_bind, Option.bind_eq_some_iff, Option.pure_def,
    Option.some.injEq, Prod.mk.injEq] at h
  obtain ⟨⟨fzpBuf, postingInfo⟩, -, rfl, rfl⟩ := h
  refine ⟨rfl, by simp, fun hlen => by simpa using hfits hlen, ?_,
    fun htracks => htracks.addTokenPosting fzpBuf⟩
  rw [DynPostingStore.addTokenPosting_eq]
  exact List.prefix_append _ _

theorem Records.cons {wordsCnt : List UInt16} {docIdOffset : UInt32}
    {dict : List (UInt32 × List UInt16)} {st st₁ st' : DynPostingStore}
    {recorded : List (UInt32 × Entry)} {pair : UInt32 × List UInt16} {r : UInt32 × Entry}
    (h : Records wordsCnt docIdOffset [pair] st [r] st₁)
    (h' : Records wordsCnt docIdOffset dict st₁ recorded st') :
    Records wordsCnt docIdOffset (pair :: dict) st (r :: recorded) st' where
  tokens := congrArg₂ (· ++ ·) h.tokens h'.tokens
  docIdOffset := List.forall_mem_cons.mpr ⟨h.docIdOffset r List.mem_cons_self, h'.docIdOffset⟩
  fits hlen := List.forall_mem_cons.mpr ⟨h.fits hlen r List.mem_cons_self, h'.fits hlen⟩
  behind := h.behind.trans h'.behind
  tracks htracks := h'.tracks (h.tracks htracks)

theorem recordTokens_records {fuel : Nat} {wordsCnt : List UInt16} {docIdOffset : UInt32} :
    ∀ {dict : List (UInt32 × List UInt16)} {st st' : DynPostingStore}
      {recorded : List (UInt32 × Entry)},
      recordTokens fuel wordsCnt docIdOffset st dict = some (recorded, st') →
      Records wordsCnt docIdOffset dict st recorded st' := by
  intro dict
  induction dict with
  | nil =>
    intro st st' recorded h
    simp only [recordTokens, Option.some.injEq, Prod.mk.injEq] at h
    obtain ⟨rfl, rfl⟩ := h
    exact ⟨rfl, by simp, fun _ => by simp, List.prefix_rfl, id⟩
  | cons pair dict ih =>
    intro st st' recorded h
    simp only [recordTokens, Option.bind_eq_bind, Option.bind_eq_some_iff, Option.pure_def,
      Option.some.injEq, Prod.mk.injEq] at h
    obtain ⟨⟨r, st₁⟩, htoken, ⟨recorded', st₂⟩, hrest, rfl, rfl⟩ := h
    exact (recordToken_records htoken).cons (ih hrest)

namespace AddsText

variable {env : TextEnv} {ix ix' : Indexer} {texts : List Bytes} {wordsCnt : List UInt16}
  {recorded : List (UInt32 × Entry)} {zones : List (List Bytes)}
  {dict : List (UInt32 × List UInt16)}

theorem records (h : AddsText env ix texts wordsCnt recorded ix' zones dict) :
    Records wordsCnt (UInt32.ofNat (DynDocStorage.size ix.docStore)) dict ix.postingStore recorded
      ix'.postingStore := recordTokens_records h.run

/-- The text does not touch the document store, and its document is added behind it. -/
theorem size_addDoc (h : AddsText env ix texts wordsCnt recorded ix' zones dict) {docId : UInt32}
    {nZones : List UInt32} {tZonesWCnt : List UInt16} {docStore : DocStorage}
    (hadd : DynDocStorage.addDoc ix'.docStore docId nZones tZonesWCnt = .ok docStore) :
    DynDocStorage.size docStore = DynDocStorage.size ix.docStore + 1 := by
  rw [DynDocStorage.size, docIds_addDoc hadd, h.docStore, List.length_append]
  rfl

/-- The words of a document are those of its texts. -/
theorem mem_words (h : AddsText env ix texts wordsCnt recorded ix' zones dict) (word : Bytes) :
    word ∈ zones.flatten ↔
      ∃ text ∈ texts, ∃ words, env.bterms text = some words ∧ word ∈ words := by
  have hmem := mem_of_mapM h.words
  constructor
  · intro hword
    obtain ⟨words, hwords, hword⟩ := List.mem_flatten.mp hword
    obtain ⟨text, htext, hbterms⟩ := (hmem words).mp hwords
    exact ⟨text, htext, words, hbterms, hword⟩
  · rintro ⟨text, htext, words, hbterms, hword⟩
    exact List.mem_flatten.mpr ⟨words, (hmem words).mpr ⟨text, htext, hbterms⟩, hword⟩

/-- **What is recorded of a text**: entries of the document, for the hashes of the words without
bad symbols. -/
theorem recorded_iff (h : AddsText env ix texts wordsCnt recorded ix' zones dict) (t : UInt32) :
    (∃ e, (t, e) ∈ recorded ∧ e.docIdOffset = UInt32.ofNat (DynDocStorage.size ix.docStore)) ↔
      ∃ word ∈ zones.flatten, hasBadSymbols word = false ∧ Common.murmurHash2 word = t := by
  have htokens : t ∈ recorded.map Prod.fst ↔ tokenPositions t zones.flatten ≠ [] := by
    rw [h.records.tokens]
    exact h.dictionary.mem_tokens t
  rw [← tokenPositions_ne_nil, ← htokens]
  constructor
  · rintro ⟨e, hmem, -⟩
    exact List.mem_map.mpr ⟨(t, e), hmem, rfl⟩
  · intro ht
    obtain ⟨⟨t', e⟩, hmem, rfl⟩ := List.mem_map.mp ht
    exact ⟨e, hmem, h.records.docIdOffset _ hmem⟩

/-- Anything is recorded only of a text with a word that is good for it. -/
theorem ne_nil_iff (h : AddsText env ix texts wordsCnt recorded ix' zones dict) :
    recorded ≠ [] ↔ ∃ word ∈ zones.flatten, hasBadSymbols word = false := by
  rw [← h.dictionary.ne_nil_iff, not_iff_not, ← List.map_eq_nil_iff (f := Prod.fst),
    h.records.tokens, List.map_eq_nil_iff]

end AddsText

/-! ## The index in memory -/

/-- A recorded entry goes to its token. -/
theorem pairs_addEntry (t : UInt32) (e : Entry) (items : List IdxItem) :
    (pairs (addEntry t e items)).Perm ((t, e) :: pairs items) := by
  induction items with
  | nil => exact .refl _
  | cons it items ih =>
    unfold addEntry
    split
    · exact .refl _
    · split
      · rename_i ht
        subst ht
        rw [pairs_cons, pairs_cons, List.map_append, List.append_assoc]
        exact List.perm_middle
      · rw [pairs_cons, pairs_cons]
        exact (ih.append_left _).trans List.perm_middle

theorem pairs_addEntries (recorded : List (UInt32 × Entry)) : ∀ items : List IdxItem,
    (pairs (recorded.foldl (fun idx r => addEntry r.1 r.2 idx) items)).Perm
      (recorded ++ pairs items) := by
  induction recorded with
  | nil => exact fun items => .refl _
  | cons r recorded ih =>
    intro items
    rw [List.foldl_cons, List.cons_append]
    exact (ih _).trans (((pairs_addEntry r.1 r.2 items).append_left recorded).trans
      List.perm_middle)

end Amigos.Indexer
