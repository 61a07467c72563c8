import Amigos.Indexer.Flushed

/-!
# The collection behind an index

What a run indexes is a sequence of documents, `documentsOf`: of every item that is not passed over,
its id, its numbers and the words of its text zones. This module says what the files of a run know
of it. The rows of the document store are the documents, in their order (`Rows`), and the entries of
the index are those of the documents and their tokens, no more and no less (`Tells`).

Both are properties of one moment, so they are carried as the run goes: an item adds a row and the
entries of a document (`Collecting.step`), a flush moves entries from the memory to a file, and a
merge rearranges them. `Indexed` is the collection behind a directory after any number of runs, and
`Indexed.settled` is the induction on them.
-/

set_option autoImplicit false

namespace Amigos.Indexer

open Amigos.Lib
open Amigos.Index

/-! ## Documents -/

/-- A document, as the index should know it. -/
structure IndexedDoc where
  docId : UInt32
  /-- The values of the numeric zones. -/
  numbers : List UInt32
  /-- The words of the text zones, with the bigrams. -/
  zones : List (List Bytes)
  deriving DecidableEq, Repr

/-- One of the words that a token is made of has this hash. -/
def IndexedDoc.HasToken (doc : IndexedDoc) (t : UInt32) : Prop :=
  ∃ word ∈ doc.zones.flatten, hasBadSymbols word = false ∧ Common.murmurHash2 word = t

instance (doc : IndexedDoc) (t : UInt32) : Decidable (doc.HasToken t) := by
  unfold IndexedDoc.HasToken; infer_instance

/-- The numbers of an item; a zone that is not there counts as empty. -/
def numbersOf (env : Env) (config : Config) (itemTag : XMLElement) : List UInt32 :=
  config.numZones.map fun zone => stou env ((zoneText itemTag zone).getD [])

/-- The document of an item, if it is not passed over. -/
def documentOf (env : Env) (config : Config) (itemTag : XMLElement) : Option IndexedDoc :=
  if Skipped env config itemTag then none
  else do
    let docId ← docIdOf env config itemTag
    let zones ← (textsOf config itemTag).mapM env.bterms
    return { docId, numbers := numbersOf env config itemTag, zones }

def documentsOf (env : Env) (config : Config) (items : List XMLElement) : List IndexedDoc :=
  items.filterMap (documentOf env config)

/-- **An item that is stored**, with the row that it adds. -/
theorem processItem_stored {env : Env} {config : Config} {s s' : ParseState}
    {itemTag : XMLElement} (h : processItem env config s itemTag = .ok s')
    (hkept : ¬ Skipped env config itemTag) :
    3 < config.numZones.length ∧
    ∃ docId wordsCnt recorded ix docStore docDB, docIdOf env config itemTag = some docId ∧
      (s.countItem env).ix.addText env.toTextEnv (textsOf config itemTag)
        = some (wordsCnt, recorded, ix) ∧
      DynDocStorage.addDoc ix.docStore docId (numbersOf env config itemTag) wordsCnt
        = .ok docStore ∧
      s'.ix = { ix with docStore, docDB } := by
  unfold processItem at h
  split at h
  · cases h
  obtain ⟨idTag, htag, h⟩ := Outcome.bind_eq_ok h
  have hidTag := getNecessaryTag_eq_ok (Outcome.mapException_eq_ok htag)
  obtain ⟨idText, hidText, h⟩ := Outcome.bind_eq_ok h
  obtain ⟨⟨numVec, forNum⟩, hnum, h⟩ := Outcome.bind_eq_ok h
  obtain ⟨rfl, -, -⟩ := extractZones_eq_ok (Outcome.mapException_eq_ok hnum)
  obtain ⟨enType, henType, h⟩ := Outcome.bind_eq_ok h
  have henType := Outcome.ofOption_eq_ok henType
  rw [List.map_map] at henType
  -- An item that is passed over ends here.
  split at h
  · rename_i hone
    exact absurd (henType.trans (congrArg some hone)) hkept
  obtain ⟨⟨textVec, forText⟩, htext, h⟩ := Outcome.bind_eq_ok h
  obtain ⟨rfl, -, -⟩ := extractZones_eq_ok (Outcome.mapException_eq_ok htext)
  obtain ⟨⟨wordsCnt, recorded, ix⟩, hadd, h⟩ := Outcome.bind_eq_ok h
  obtain ⟨⟨trashVec, forTrash⟩, -, h⟩ := Outcome.bind_eq_ok h
  obtain ⟨docStore, hstore, h⟩ := Outcome.bind_eq_ok h
  have hid : docIdOf env config itemTag = some (stou env idText) := by
    rw [docIdOf, hidTag, Option.bind_eq_bind, Option.bind_some, Outcome.ofOption_eq_ok hidText]
    rfl
  have hstore := Outcome.ofExcept_eq_ok (Outcome.mapException_eq_ok hstore)
  rw [List.map_map] at hstore
  cases h
  obtain ⟨hzones, -⟩ := List.getElem?_eq_some_iff.mp henType
  rw [List.length_map] at hzones
  exact ⟨hzones, _, wordsCnt, recorded, ix, docStore, _, hid, Outcome.ofOption_eq_ok hadd, hstore,
    rfl⟩

/-! ## Rows -/

/-- **The rows of the store are the documents.** -/
structure Rows (docs : List IndexedDoc) (st : DocStorage) : Prop where
  ids : st.docIds = docs.map IndexedDoc.docId
  numbers : ∀ (z : Nat) (vec : List UInt32), st.nZones[z]? = some vec →
    vec.map some = docs.map fun doc => doc.numbers[z]?
  wordsCnt : ∀ (z : Nat) (vec : List UInt16), st.tZonesWCnt[z]? = some vec →
    vec.map some = docs.map fun doc => doc.zones[z]?.map fun words => UInt16.ofNat words.length

theorem Rows.sized (config : Config) : Rows [] (DocStorage.sized config) where
  ids := rfl
  numbers z vec h := by rw [List.eq_of_mem_replicate (List.mem_of_getElem? h)]; rfl
  wordsCnt z vec h := by rw [List.eq_of_mem_replicate (List.mem_of_getElem? h)]; rfl

/-- A value behind each column. -/
theorem columns_snoc {α : Type} {docs : List IndexedDoc} {doc : IndexedDoc}
    {f : Nat → IndexedDoc → Option α} {cols : List (List α)} {vals : List α}
    (hcols : ∀ (z : Nat) (vec : List α), cols[z]? = some vec → vec.map some = docs.map (f z))
    (hvals : ∀ z : Nat, vals[z]? = f z doc) :
    ∀ (z : Nat) (vec : List α), (cols.zipWith (fun vec val => vec ++ [val]) vals)[z]? = some vec →
      vec.map some = (docs ++ [doc]).map (f z) := by
  intro z vec h
  obtain ⟨col, val, hcol, hval, rfl⟩ := List.getElem?_zipWith_eq_some.mp h
  rw [List.map_append, List.map_append, hcols z col hcol, List.map_singleton, List.map_singleton,
    ← hvals z, hval]

theorem Rows.addDoc {docs : List IndexedDoc} {st st' : DocStorage} (h : Rows docs st)
    {doc : IndexedDoc}
    (hadd : DynDocStorage.addDoc st doc.docId doc.numbers (narrow (doc.zones.map List.length))
      = .ok st') : Rows (docs ++ [doc]) st' := by
  unfold DynDocStorage.addDoc at hadd
  split at hadd
  · cases hadd
  cases hadd
  refine ⟨?_, columns_snoc h.numbers fun z => rfl, columns_snoc h.wordsCnt fun z => ?_⟩
  · rw [h.ids, List.map_append, List.map_singleton]
  · rw [narrow, List.map_map, List.getElem?_map]
    rfl

theorem Rows.size {docs : List IndexedDoc} {st : DocStorage} (h : Rows docs st) :
    DynDocStorage.size st = docs.length := by
  rw [DynDocStorage.size, h.ids, List.length_map]

/-! ## Entries -/

/-- **The entries are those of the documents**: a token has one for a document exactly if the
document has the token. -/
def Tells (docs : List IndexedDoc) (ps : List (UInt32 × Entry)) : Prop :=
  ∀ (t : UInt32) (d : Nat), (∃ e, (t, e) ∈ ps ∧ e.docIdOffset.toNat = d) ↔
    ∃ doc, docs[d]? = some doc ∧ doc.HasToken t

theorem Tells.nil : Tells [] [] := by
  intro t d
  simp

theorem Tells.perm {docs : List IndexedDoc} {ps qs : List (UInt32 × Entry)} (h : Tells docs ps)
    (hperm : qs.Perm ps) : Tells docs qs := by
  intro t d
  rw [← h t d]
  simp only [hperm.mem_iff]

/-- The entries of the next document. -/
theorem Tells.append {docs : List IndexedDoc} {ps recorded : List (UInt32 × Entry)}
    {doc : IndexedDoc} (h : Tells docs ps)
    (hrecorded : ∀ t, (∃ e, (t, e) ∈ recorded) ↔ doc.HasToken t)
    (hnumber : ∀ r ∈ recorded, r.2.docIdOffset.toNat = docs.length) :
    Tells (docs ++ [doc]) (ps ++ recorded) := by
  intro t d
  have hold : (∃ e, (t, e) ∈ ps ∧ e.docIdOffset.toNat = d) ↔
      ∃ doc', docs[d]? = some doc' ∧ doc'.HasToken t := h t d
  rcases Nat.lt_trichotomy d docs.length with hd | rfl | hd
  · rw [List.getElem?_append_left hd, ← hold]
    constructor
    · rintro ⟨e, he, rfl⟩
      rcases List.mem_append.mp he with he | he
      · exact ⟨e, he, rfl⟩
      · exact absurd (hnumber _ he) (Nat.ne_of_lt hd)
    · rintro ⟨e, he, heq⟩
      exact ⟨e, List.mem_append_left _ he, heq⟩
  · rw [List.getElem?_concat_length]
    simp only [Option.some.injEq, exists_eq_left', ← hrecorded t]
    constructor
    · rintro ⟨e, he, heq⟩
      rcases List.mem_append.mp he with he | he
      · obtain ⟨doc', hdoc', -⟩ := hold.mp ⟨e, he, heq⟩
        simp at hdoc'
      · exact ⟨e, he⟩
    · rintro ⟨e, he⟩
      exact ⟨e, List.mem_append_right _ he, hnumber _ he⟩
  · have hnone : (docs ++ [doc])[d]? = none := by
      rw [List.getElem?_eq_none]
      simpa [Nat.succ_le_iff] using hd
    rw [hnone]
    refine iff_of_false ?_ (by simp)
    rintro ⟨e, he, heq⟩
    rcases List.mem_append.mp he with he | he
    · obtain ⟨doc', hdoc', -⟩ := hold.mp ⟨e, he, heq⟩
      rw [List.getElem?_eq_none (Nat.le_of_lt hd)] at hdoc'
      cases hdoc'
    · exact absurd (heq ▸ hnumber _ he) (Nat.ne_of_gt hd)

/-- The words of a collection. -/
def wordsOf (docs : List IndexedDoc) : List Bytes := docs.flatMap fun doc => doc.zones.flatten

/-- There is no more than one entry for each word of a collection. -/
theorem Tells.length_le {docs : List IndexedDoc} {ps : List (UInt32 × Entry)} (h : Tells docs ps)
    (honce : (ps.map key).Nodup) : ps.length ≤ (wordsOf docs).length := by
  -- The words with the numbers of their documents.
  let numbered : List (UInt32 × Nat) := docs.zipIdx.flatMap fun p =>
    p.1.zones.flatten.map fun word => (Common.murmurHash2 word, p.2)
  have hlen : numbered.length = (wordsOf docs).length := by
    have hsum : ∀ (docs : List IndexedDoc) (k : Nat), ((docs.zipIdx k).flatMap fun p =>
        p.1.zones.flatten.map fun word => (Common.murmurHash2 word, p.2)).length
          = (docs.flatMap fun doc => doc.zones.flatten).length := by
      intro docs
      induction docs with
      | nil => exact fun _ => rfl
      | cons doc docs ih =>
        intro k
        rw [List.zipIdx_cons, List.flatMap_cons, List.flatMap_cons, List.length_append,
          List.length_append, List.length_map, ih]
    exact hsum docs 0
  have hnodup : (ps.map fun p => (p.1, p.2.docIdOffset.toNat)).Nodup := by
    apply (List.Nodup.of_map key honce).map_on
    intro p hp q hq hpq
    obtain ⟨htoken, hnumber⟩ := Prod.mk.inj hpq
    exact List.inj_on_of_nodup_map honce hp hq (Prod.ext htoken (UInt32.toNat_inj.mp hnumber))
  have hsubset : (ps.map fun p => (p.1, p.2.docIdOffset.toNat)) ⊆ numbered := by
    intro k hk
    obtain ⟨⟨t, e⟩, hp, rfl⟩ := List.mem_map.mp hk
    obtain ⟨doc, hdoc, word, hword, -, rfl⟩ := (h t e.docIdOffset.toNat).mp ⟨e, hp, rfl⟩
    refine List.mem_flatMap.mpr ⟨(doc, e.docIdOffset.toNat), ?_,
      List.mem_map.mpr ⟨word, hword, rfl⟩⟩
    exact List.mem_zipIdx_iff_getElem?.mpr hdoc
  have hle := (List.subperm_of_subset hnodup hsubset).length_le
  rwa [List.length_map, hlen] at hle

/-! ## Items that have entries -/

/-- Every item has an entry. -/
def Filled (items : List IdxItem) : Prop := ∀ it ∈ items, it.entries ≠ []

theorem Filled.addEntry (token : UInt32) (entry : Entry) {items : List IdxItem}
    (h : Filled items) : Filled (Indexer.addEntry token entry items) := by
  induction items with
  | nil => simp [Indexer.addEntry, Filled]
  | cons x items ih =>
    obtain ⟨hx, hitems⟩ := List.forall_mem_cons.mp h
    unfold Indexer.addEntry
    split
    · exact List.forall_mem_cons.mpr ⟨List.cons_ne_nil _ _, h⟩
    · split
      · exact List.forall_mem_cons.mpr ⟨List.append_ne_nil_of_left_ne_nil hx _, hitems⟩
      · exact List.forall_mem_cons.mpr ⟨hx, ih hitems⟩

theorem Filled.addEntries {recorded : List (UInt32 × Entry)} {items : List IdxItem}
    (h : Filled items) :
    Filled (recorded.foldl (fun idx r => Indexer.addEntry r.1 r.2 idx) items) := by
  induction recorded generalizing items with
  | nil => exact h
  | cons r recorded ih => exact ih (h.addEntry r.1 r.2)

/-- There are no more items than entries. -/
theorem Filled.length_le {items : List IdxItem} (h : Filled items) :
    items.length ≤ (pairs items).length := by
  induction items with
  | nil => exact Nat.le_refl _
  | cons it items ih =>
    obtain ⟨hit, hitems⟩ := List.forall_mem_cons.mp h
    have hpos := List.length_pos_iff.mpr hit
    have hle := ih hitems
    rw [pairs_cons, List.length_append, List.length_map, List.length_cons]
    omega

/-- The walk of a round collects something, since the least token is that of a file. -/
theorem Collects.entries_ne_nil {t : UInt32} {before rest live : List Live}
    {entries : List Entry} (h : Collects t before rest live entries)
    (hfilled : ∀ x ∈ rest, Filled x.items) (hx : ∃ x ∈ rest, x.cur.token = t) : entries ≠ [] := by
  induction h with
  | stop =>
    obtain ⟨x, hx, -⟩ := hx
    exact absurd hx List.not_mem_nil
  | pass hne _ ih =>
    obtain ⟨x, hx, hxt⟩ := hx
    rcases List.mem_cons.mp hx with rfl | hx
    · exact absurd hxt hne
    · exact ih (fun y hy => hfilled y (List.mem_cons_of_mem _ hy)) ⟨x, hx, hxt⟩
  | read _ _ _ =>
    exact List.append_ne_nil_of_left_ne_nil (hfilled _ List.mem_cons_self _ List.mem_cons_self) _
  | erase _ _ _ =>
    exact List.append_ne_nil_of_left_ne_nil (hfilled _ List.mem_cons_self _ List.mem_cons_self) _
  | eraseLast _ _ _ =>
    exact List.append_ne_nil_of_left_ne_nil (hfilled _ List.mem_cons_self _ List.mem_cons_self) _

/-- Tokens that do not decrease. -/
def Ascending (items : List IdxItem) : Prop := items.Pairwise fun a b => a.token ≤ b.token

theorem StrictTokens.ascending {items : List IdxItem} (h : StrictTokens items) :
    Ascending items := h.imp le_of_lt

/-- **What a merge keeps of its files**: every item has an entry, and the tokens do not decrease. -/
theorem Merges.filled_ascending {S : StdSort} {live : List Live} {items : List IdxItem}
    (h : Merges S live items) (hlive : ∀ x ∈ live, Filled x.items ∧ Ascending x.items) :
    Filled items ∧ Ascending items := by
  induction h with
  | nil => exact ⟨fun it hit => absurd hit List.not_mem_nil, List.Pairwise.nil⟩
  | @round live rest entries items hne hcollect hrest ih =>
    have hkept : ∀ y ∈ rest, ∃ x ∈ live, y.items <:+ x.items := by
      simpa using hcollect.suffix
    obtain ⟨hfilled, hascending⟩ := ih fun y hy => by
      obtain ⟨x, hx, hsuffix⟩ := hkept y hy
      exact ⟨fun it hit => (hlive x hx).1 it (hsuffix.subset hit),
        (hlive x hx).2.sublist hsuffix.sublist⟩
    have hsome := hcollect.entries_ne_nil (fun x hx => (hlive x hx).1) (leastToken_mem hne)
    refine ⟨List.forall_mem_cons.mpr ⟨fun hnil => hsome ?_, hfilled⟩,
      List.pairwise_cons.mpr ⟨fun it hit => ?_, hascending⟩⟩
    · have hperm := S.perm compareEntries entries
      rw [show S.sort compareEntries entries = [] from hnil] at hperm
      exact List.nil_perm.mp hperm
    -- What is merged later comes out of a file, and no file has a smaller token.
    · obtain ⟨y, hy, it', hit', htoken⟩ := (hrest.hasToken_iff it.token).mp ⟨it, hit, rfl⟩
      obtain ⟨x, hx, hsuffix⟩ := hkept y hy
      show leastToken live ≤ it.token
      rw [← htoken]
      refine (leastToken_le hx).trans ?_
      rcases List.mem_cons.mp (hsuffix.subset hit') with rfl | hmore
      · exact le_refl _
      · exact (List.pairwise_cons.mp (hlive x hx).2).1 it' hmore

/-! ## Positions -/

/-- A place goes to some piece. -/
theorem flatten_splitVal {fuel : Nat} {zwCnt : List UInt16} {s s' : Split} {val : UInt16}
    (h : splitVal fuel zwCnt s val = some s') : s'.splitPosting.flatten ≠ [] := by
  simp only [splitVal, Option.bind_eq_bind, Option.bind_eq_some_iff] at h
  obtain ⟨⟨zi, offset, isNewZone⟩, -, h⟩ := h
  split at h
  · simp only [Option.bind_eq_some_iff, Option.pure_def, Option.some.injEq] at h
    obtain ⟨mask, -, rfl⟩ := h
    simp
  · simp only [Option.bind_eq_some_iff, Option.pure_def, Option.some.injEq] at h
    obtain ⟨back, -, rfl⟩ := h
    simp

theorem flatten_splitVals {fuel : Nat} {zwCnt : List UInt16} {posting : List UInt16} :
    ∀ {s s' : Split}, splitVals fuel zwCnt s posting = some s' → posting ≠ [] →
      s'.splitPosting.flatten ≠ [] := by
  induction posting with
  | nil => exact fun _ hne => absurd rfl hne
  | cons val posting ih =>
    intro s s' h _
    rw [splitVals_cons, Option.bind_eq_some_iff] at h
    obtain ⟨s₁, hval, h⟩ := h
    cases posting with
    | nil =>
      cases h
      exact flatten_splitVal hval
    | cons _ _ => exact ih h (List.cons_ne_nil _ _)

/-- A token that has a place leaves something in the postings file. -/
theorem ofs_recordToken {fuel : Nat} {wordsCnt : List UInt16} {docIdOffset : UInt32}
    {st st' : DynPostingStore} {pair : UInt32 × List UInt16} {r : UInt32 × Entry}
    (h : recordToken fuel wordsCnt docIdOffset st pair = some (r, st')) (hne : pair.2 ≠ []) :
    st'.ofs ≠ [] := by
  simp only [recordToken, splitByZones, Option.bind_eq_bind, Option.bind_eq_some_iff,
    Option.pure_def, Option.some.injEq, Prod.mk.injEq] at h
  obtain ⟨⟨fzpBuf, postingInfo⟩, ⟨s, hvals, rfl, rfl⟩, -, rfl⟩ := h
  obtain ⟨pos, rest, hflatten⟩ := List.exists_cons_of_ne_nil (flatten_splitVals hvals hne)
  rw [DynPostingStore.addTokenPosting_eq, hflatten, List.flatMap_cons]
  intro hnil
  have hlen := congrArg List.length hnil
  simp at hlen

theorem AddsText.postings_ne_nil {env : TextEnv} {ix ix' : Indexer} {texts : List Bytes}
    {wordsCnt : List UInt16} {recorded : List (UInt32 × Entry)} {zones : List (List Bytes)}
    {dict : List (UInt32 × List UInt16)}
    (h : AddsText env ix texts wordsCnt recorded ix' zones dict) (hne : recorded ≠ []) :
    ix'.postingStore.ofs ≠ [] := by
  have hrun := h.run
  cases dict with
  | nil =>
    simp only [recordTokens, Option.some.injEq, Prod.mk.injEq] at hrun
    exact absurd hrun.1.symm hne
  | cons pair dict =>
    simp only [recordTokens, Option.bind_eq_bind, Option.bind_eq_some_iff, Option.pure_def,
      Option.some.injEq, Prod.mk.injEq] at hrun
    obtain ⟨⟨r, st⟩, htoken, ⟨recorded', st'⟩, hrest, -, rfl⟩ := hrun
    have hfirst := ofs_recordToken htoken
      ((h.dictionary.mem_iff pair.1 pair.2).mp List.mem_cons_self).2
    obtain ⟨more, hmore⟩ := (recordTokens_records hrest).behind
    rw [← hmore]
    exact List.append_ne_nil_of_left_ne_nil hfirst more

/-! ## A run -/

/-- The raw index files of a run that has begun without any. -/
def IndexDir.flushed (dir : IndexDir) : List (List IdxItem) := dir.flushFiles.filterMap id

/-- All entries of a run, those on the disk and those in memory. -/
def allEntries (ix : Indexer) : List (UInt32 × Entry) :=
  ix.dir.flushed.flatMap pairs ++ pairs ix.invIdx

/-- **In a run**: with the entries `old` of the index that was there before, the stores and the
entries are those of the documents so far. -/
structure Collecting (config : Config) (old : List (UInt32 × Entry)) (docs : List IndexedDoc)
    (ix : Indexer) : Prop where
  rows : Rows docs ix.docStore
  tells : Tells docs (old ++ ix.allEntries)
  memory : Filled ix.invIdx
  files : ∀ items ∈ ix.dir.flushed, Filled items
  postings : ix.invIdx ≠ [] → ix.postingStore.ofs ≠ []
  numZones : docs ≠ [] → 3 < config.numZones.length

theorem InRun.flushed {start ix : Indexer} {files : List (List IdxItem)}
    (h : InRun start ix files) : ix.dir.flushed = files := by
  obtain ⟨j, hj⟩ := h.flushFiles
  rw [IndexDir.flushed, hj, List.filterMap_append, List.filterMap_map]
  have hnone : (List.replicate j (none : Option (List IdxItem))).filterMap id = [] :=
    List.filterMap_eq_nil_iff.mpr fun file hfile => List.eq_of_mem_replicate hfile
  rw [hnone, List.append_nil]
  exact List.filterMap_some

/-- A flush moves entries, and changes nothing else. -/
theorem Collecting.flushToDisk {config : Config} {old : List (UInt32 × Entry)}
    {docs : List IndexedDoc} {start ix : Indexer} {files : List (List IdxItem)}
    (hrun : InRun start ix files) (h : Collecting config old docs ix) :
    Collecting config old docs ix.flushToDisk := by
  have hflushed : ix.flushToDisk.dir.flushed = ix.dir.flushed ++ [ix.invIdx] := by
    rw [hrun.flushToDisk.flushed, hrun.flushed]
  have hentries : ix.flushToDisk.allEntries = ix.allEntries := by
    rw [allEntries, hflushed, List.flatMap_append, List.flatMap_singleton]
    exact List.append_nil _
  refine ⟨h.rows, ?_, fun it hit => absurd hit List.not_mem_nil, ?_, fun h => absurd rfl h,
    h.numZones⟩
  · rw [hentries]
    exact h.tells
  · rw [hflushed]
    intro items hitems
    rcases List.mem_append.mp hitems with hitems | hitems
    · exact h.files items hitems
    · rw [List.mem_singleton.mp hitems]
      exact h.memory

theorem Collecting.countItem {config : Config} {old : List (UInt32 × Entry)}
    {docs : List IndexedDoc} {start : Indexer} {s : ParseState} {files : List (List IdxItem)}
    (hrun : InRun start s.ix files) (h : Collecting config old docs s.ix) (env : Env) :
    Collecting config old docs (s.countItem env).ix := by
  rcases countItem_ix env s with hix | hix <;> rw [hix]
  · exact h
  · exact h.flushToDisk hrun

/-- **An item adds its document**, if it has one. -/
theorem Collecting.step {old : List (UInt32 × Entry)} {docs : List IndexedDoc} {env : Env}
    {config : Config} {start : Indexer} {s s' : ParseState} {itemTag : XMLElement}
    {files : List (List IdxItem)} (hrun : InRun start s.ix files)
    (h : Collecting config old docs s.ix) (hsize : docs.length < 2 ^ 32)
    (hitem : processItem env config s itemTag = .ok s') :
    Collecting config old (docs ++ (documentOf env config itemTag).toList) s'.ix := by
  have hcount := h.countItem hrun env
  by_cases hkept : Skipped env config itemTag
  · have hnone : documentOf env config itemTag = none := if_pos hkept
    rw [hnone, Option.toList_none, List.append_nil]
    cases processItem_step hitem (by simp) with
    | skipped _ => exact hcount
    | stored _ hreach _ _ => exact absurd hkept hreach.kept
  obtain ⟨hnumZones, docId, wordsCnt, recorded, ix, docStore, docDB, hid, htext, hadd, hix⟩ :=
    processItem_stored hitem hkept
  obtain ⟨zones, dict, htext⟩ := addText_eq_some htext
  have hdoc : documentOf env config itemTag
      = some { docId, numbers := numbersOf env config itemTag, zones } := by
    rw [documentOf, if_neg hkept, hid, htext.words]
    rfl
  have hstore : ix.docStore = (s.countItem env).ix.docStore := htext.docStore
  have hdir : ix.dir = (s.countItem env).ix.dir := htext.dir
  have hlast : DynDocStorage.size (s.countItem env).ix.docStore = docs.length := hcount.rows.size
  rw [hdoc, Option.toList_some, hix]
  refine ⟨?_, ?_, ?_, ?_, ?_, fun _ => hnumZones⟩
  · rw [htext.counts, hstore] at hadd
    exact hcount.rows.addDoc hadd
  -- What is recorded has the number of the row that is added.
  · have hperm : (old ++ ({ ix with docStore, docDB } : Indexer).allEntries).Perm
        ((old ++ (s.countItem env).ix.allEntries) ++ recorded) := by
      show (old ++ (ix.dir.flushed.flatMap pairs ++ pairs ix.invIdx)).Perm _
      rw [hdir, htext.invIdx, allEntries, List.append_assoc, List.append_assoc]
      refine List.Perm.append_left _ (List.Perm.append_left _ ?_)
      exact (pairs_addEntries recorded _).trans List.perm_append_comm
    refine Tells.perm (hcount.tells.append (fun t => ?_) fun r hr => ?_) hperm
    · refine Iff.trans ?_ (htext.recorded_iff t)
      constructor
      · rintro ⟨e, he⟩
        exact ⟨e, he, htext.records.docIdOffset _ he⟩
      · rintro ⟨e, he, -⟩
        exact ⟨e, he⟩
    · rw [htext.records.docIdOffset r hr, hlast, UInt32.toNat_ofNat', Nat.mod_eq_of_lt hsize]
  · show Filled ix.invIdx
    rw [htext.invIdx]
    exact hcount.memory.addEntries
  · show ∀ items ∈ ix.dir.flushed, Filled items
    rw [hdir]
    exact hcount.files
  · show ix.invIdx ≠ [] → ix.postingStore.ofs ≠ []
    intro hmemory
    by_cases hrecorded : recorded = []
    · rw [htext.invIdx, hrecorded] at hmemory
      obtain ⟨more, hmore⟩ := htext.records.behind
      rw [← hmore]
      exact List.append_ne_nil_of_left_ne_nil (hcount.postings hmemory) more
    · exact htext.postings_ne_nil hrecorded

theorem documentsOf_cons (env : Env) (config : Config) (itemTag : XMLElement)
    (items : List XMLElement) : documentsOf env config (itemTag :: items)
      = (documentOf env config itemTag).toList ++ documentsOf env config items := by
  rw [documentsOf, List.filterMap_cons]
  cases documentOf env config itemTag <;> rfl

/-- **A run over some items** adds their documents, by induction on the items. -/
theorem Collecting.processItems {old : List (UInt32 × Entry)} {env : Env} {config : Config}
    (hzones : config.textZones.length ≤ 255) {start : Indexer} {items : List XMLElement} :
    ∀ {docs : List IndexedDoc} {s s' : ParseState} {files : List (List IdxItem)},
      InRun start s.ix files → Collecting config old docs s.ix →
      (docs ++ documentsOf env config items).length < 2 ^ 32 →
      Indexer.processItems env config s items = .ok s' →
      (∃ files', InRun start s'.ix files') ∧
        Collecting config old (docs ++ documentsOf env config items) s'.ix := by
  induction items with
  | nil =>
    intro docs s s' files hrun h _ hitems
    cases hitems
    rw [documentsOf, List.filterMap_nil, List.append_nil]
    exact ⟨⟨files, hrun⟩, h⟩
  | cons itemTag items ih =>
    intro docs s s' files hrun h hsize hitems
    obtain ⟨s₁, hitem, hitems⟩ := Outcome.bind_eq_ok hitems
    rw [documentsOf_cons, ← List.append_assoc] at hsize ⊢
    have hroom : docs.length < 2 ^ 32 := by
      rw [List.append_assoc, List.length_append] at hsize
      omega
    obtain ⟨files₁, hrun₁⟩ := hrun.step hzones (by rw [h.rows.size]; exact hroom)
      (processItem_step hitem (by simp))
    exact ih hrun₁ (h.step hrun hroom hitem) hsize hitems

/-! ## The directory behind a run -/

/-- **What a run leaves of a collection**: an index of all its entries, and a store of all its
rows, each of which can be loaded. -/
structure Complete (config : Config) (docStorePath : String) (disk : Disk)
    (docs : List IndexedDoc) (items : List IdxItem) : Prop where
  index : disk.dir.invertIndex = some (indexBytes items)
  ipos : config.invertIndexIPosFile.isEmpty = false → disk.dir.ipos = some (posBytes items)
  store : ∃ st, (DocStorage.sized config).load docStorePath disk.docStoreFile = some (.ok st) ∧
    Tabular config st ∧ Rows docs st
  postings : disk.postings ≠ []
  numZones : docs ≠ [] → 3 < config.numZones.length
  documents : docs.length < 2 ^ 32
  count : items.length < 2 ^ 32
  entries : EntriesBetween 0 docs.length (pairs items)
  tells : Tells docs (pairs items)
  increasing : ∀ it ∈ items, Increasing it.entries
  filled : Filled items
  ascending : Ascending items

/-- A directory between two runs: nothing has been indexed, or the index is complete. -/
inductive Settled (config : Config) (docStorePath : String) (disk : Disk) :
    List IndexedDoc → Prop where
  | fresh (hindex : disk.dir.invertIndex = none)
      (hstore : DynDocStorage.create config docStorePath disk.docStoreFile
        = some (DocStorage.sized config)) : Settled config docStorePath disk []
  | complete {docs : List IndexedDoc} {items : List IdxItem}
      (h : Complete config docStorePath disk docs items) :
      Settled config docStorePath disk docs

theorem Settled.empty (config : Config) (docStorePath : String) :
    Settled config docStorePath Disk.empty [] := .fresh rfl rfl

/-- What the next run begins with. -/
theorem Settled.begins {config : Config} {docStorePath : String} {disk : Disk}
    {docs : List IndexedDoc} (h : Settled config docStorePath disk docs) :
    ∃ (index : Option (List IdxItem)) (st : DocStorage),
      disk.dir.invertIndex = index.map indexBytes ∧
      DynDocStorage.create config docStorePath disk.docStoreFile = some st ∧ Rows docs st ∧
      EntriesBetween 0 docs.length (index.toList.flatMap pairs) ∧
      Tells docs (index.toList.flatMap pairs) ∧ (docs ≠ [] → 3 < config.numZones.length) ∧
      ∀ items ∈ index.toList, Filled items ∧ Ascending items := by
  cases h with
  | fresh hindex hstore =>
    exact ⟨none, _, hindex, hstore, Rows.sized config, .nil _ _, .nil, by simp, by simp⟩
  | @complete docs items h =>
    obtain ⟨st, hload, -, hrows⟩ := h.store
    refine ⟨some items, st, h.index, ?_, hrows, ?_, ?_, h.numZones, ?_⟩
    · rw [DynDocStorage.create, hload]
      rfl
    · rw [Option.toList_some, List.flatMap_singleton]
      exact h.entries
    · rw [Option.toList_some, List.flatMap_singleton]
      exact h.tells
    · rw [Option.toList_some]
      exact List.forall_mem_singleton.mpr ⟨h.filled, h.ascending⟩

/-- There are numbers for all documents and all words. -/
structure Room (docs : List IndexedDoc) : Prop where
  documents : docs.length < 2 ^ 32
  words : (wordsOf docs).length < 2 ^ 32

/-- A merge of the files of a collection. -/
theorem mergeIndexes_tells {S : StdSort} {fuel : Nat} {config : Config}
    {files : List (List IdxItem)} {index : Bytes} {ipos : Option Bytes} {docs : List IndexedDoc}
    (hroom : Room docs) (hentries : EntriesBetween 0 docs.length (files.flatMap pairs))
    (htells : Tells docs (files.flatMap pairs))
    (hfiles : ∀ items ∈ files, Filled items ∧ Ascending items)
    (h : mergeIndexes S fuel config (files.map indexBytes) = some (index, ipos)) :
    ∃ items, index = indexBytes items ∧
      ipos = (if config.invertIndexIPosFile.isEmpty then none else some (posBytes items)) ∧
      items.length < 2 ^ 32 ∧ EntriesBetween 0 docs.length (pairs items) ∧
      Tells docs (pairs items) ∧ (∀ it ∈ items, Increasing it.entries) ∧ Filled items ∧
      Ascending items ∧ Merges S (files.filterMap Live.ofItems) items := by
  -- No file has more items than there are words.
  have hwords := Nat.lt_of_le_of_lt (htells.length_le hentries.once) hroom.words
  have hreadable : files.map readable = files := by
    refine (List.map_congr_left fun items hitems => ?_).trans (List.map_id _)
    apply readable_of_lt
    have hsub : (pairs items).Sublist (files.flatMap pairs) :=
      List.sublist_flatten_of_mem (List.mem_map_of_mem hitems)
    exact Nat.lt_of_le_of_lt ((hfiles items hitems).1.length_le.trans hsub.length_le) hwords
  obtain ⟨items, hindex, hmerges⟩ := mergeIndexes_eq_some
    (fun items hitems => (hentries.sublist (List.sublist_flatten_of_mem
      (List.mem_map_of_mem hitems))).items_fit hroom.documents)
    (fun t => by rw [hreadable]; exact (hentries.entryCount_le t).trans_lt hroom.documents) h
  rw [hreadable] at hmerges
  have hperm := hmerges.perm
  rw [livePairs_ofItems] at hperm
  have hmerged := hentries.perm hperm.symm
  obtain ⟨hfilled, hascending⟩ := hmerges.filled_ascending fun x hx => by
    obtain ⟨items, hitems, hlive⟩ := List.mem_filterMap.mp hx
    cases items with
    | nil => cases hlive
    | cons it more =>
      cases hlive
      exact hfiles _ hitems
  have hfits := hmerged.items_fit hroom.documents
  refine ⟨items, hindex, ?_, ?_, hmerged, htells.perm hperm.symm,
    fun it hit => hmerged.increasing hit (hmerges.sorted it hit), hfilled, hascending, hmerges⟩
  · obtain ⟨items', hfits', hout⟩ := mergeIndexes_writes h
    obtain ⟨hindex', hipos⟩ := Prod.mk.inj hout
    rw [hipos, indexBytes_injective hfits hfits' (hindex.symm.trans hindex')]
  · exact Nat.lt_of_le_of_lt (hfilled.length_le.trans hperm.length_eq.ge) hwords

/-- **A run leaves the collection complete**, if it finds no raw index files and has room. What it
has merged are the index that was there and its own files, in each of which a token is once. -/
theorem Settled.run {S : StdSort} {fuel : Nat} {env : Env} {config : Config}
    (hzones : config.textZones.length ≤ 255) {docStorePath : String} {disk : Disk}
    {docs : List IndexedDoc} (h : Settled config docStorePath disk docs)
    (hclean : ∀ file ∈ disk.dir.flushFiles, file = none) {raw : RawDir} {ix ix' : Indexer}
    (hroom : Room (docs ++ documentsOf env config raw.items))
    (hnew : construct config docStorePath disk = some ix)
    (hcook : cook S fuel env config raw ix = .ok ix') :
    ∃ index items, disk.dir.invertIndex = Option.map indexBytes index ∧
      Complete config docStorePath (destroy ix') (docs ++ documentsOf env config raw.items) items ∧
      (∀ file ∈ ix'.dir.flushed, StrictTokens file) ∧
      Merges S ((index.toList ++ ix'.dir.flushed).filterMap Live.ofItems) items := by
  obtain ⟨index, st, hindex, hst, hrows, hold, htold, hnumZones, hordered⟩ := h.begins
  obtain ⟨hcreate, -, hmemory, hdir⟩ := construct_eq_some hnew
  obtain rfl : ix.docStore = st := Option.some.inj (hcreate.symm.trans hst)
  obtain ⟨s, hrun, hmerge⟩ := cook_eq_ok hcook
  -- In front of the items, behind them, and behind the last flush.
  have hstart : InRun ix (ParseState.start ix).ix [] := .start (hdir ▸ hclean) hmemory
  have hbegin : Collecting config (index.toList.flatMap pairs) docs (ParseState.start ix).ix := by
    refine ⟨hrows, ?_, ?_, ?_, fun hne => absurd hmemory hne, hnumZones⟩
    · rw [allEntries, hstart.flushed]
      show Tells docs (_ ++ ([].flatMap pairs ++ pairs ix.invIdx))
      rw [hmemory]
      simpa [pairs] using htold
    · show Filled ix.invIdx
      rw [hmemory]
      exact fun it hit => absurd hit List.not_mem_nil
    · rw [hstart.flushed]
      exact fun items hitems => absurd hitems List.not_mem_nil
  obtain ⟨⟨files, hfiles⟩, hcollected⟩ := hbegin.processItems hzones hstart hroom.documents hrun
  have hinOrder : InOrder s.ix := by
    have hbefore : InOrder (ParseState.start ix).ix :=
      ⟨hmemory ▸ List.Pairwise.nil, fun items hitems => by cases hclean _ (hdir ▸ hitems)⟩
    have hends : (processItems env config (.start ix) raw.items).Ends (fun s' => InOrder s'.ix)
        (fun f => InOrder f.ix) := hbefore.processItems
    rw [hrun] at hends
    exact hends
  have hflushed := hfiles.flushToDisk
  have hall := hcollected.flushToDisk hfiles
  obtain ⟨j, hj⟩ := hflushed.flushFiles
  -- What is merged.
  obtain ⟨bytes, ipos, hmerged, hbytes, hdocStore⟩ := mergeOnDisk_eq_ok hmerge
  have hmerge' := hmerge
  rw [mergeOnDisk, hmerged] at hmerge'
  cases hmerge'
  rw [rawFiles_eq (hflushed.invertIndex.trans (hdir ▸ hindex)) hj] at hmerged
  have hsize : DynDocStorage.size s.ix.docStore
      = (docs ++ documentsOf env config raw.items).length := hcollected.rows.size
  have hflat : (index.toList ++ (files ++ [s.ix.invIdx])).flatMap pairs
      = index.toList.flatMap pairs ++ s.ix.flushToDisk.allEntries := by
    rw [List.flatMap_append, allEntries, hflushed.flushed]
    exact congrArg (_ ++ ·) (List.append_nil _).symm
  have hbetween : EntriesBetween 0 (docs ++ documentsOf env config raw.items).length
      ((index.toList ++ (files ++ [s.ix.invIdx])).flatMap pairs) := by
    have hnew := (hrows.size ▸ hold).append hflushed.entries (Nat.zero_le _) hfiles.grown
    rw [← hsize, hflat, allEntries, hflushed.flushed]
    exact hnew
  have hstrict : ∀ items ∈ s.ix.flushToDisk.dir.flushed, StrictTokens items := by
    intro items hitems
    obtain ⟨file, hfile, hsome⟩ := List.mem_filterMap.mp hitems
    exact hinOrder.flushToDisk.files items (hsome ▸ hfile)
  obtain ⟨items, rfl, rfl, hcount, hentries, htells, hincreasing, hfilled, hascending, hmerges⟩ :=
    mergeIndexes_tells hroom hbetween (hflat ▸ hall.tells) (fun items hitems => by
      rcases List.mem_append.mp hitems with hitems | hitems
      · exact hordered items hitems
      · rw [← hflushed.flushed] at hitems
        exact ⟨hall.files items hitems, (hstrict items hitems).ascending⟩) hmerged
  have htabular : Tabular config s.ix.docStore :=
    processItems_inv (fun s => Tabular config s.ix.docStore) (fun h hstep => hstep.tabular h)
      (.create hcreate) hrun
  rw [← hflushed.flushed] at hmerges
  refine ⟨index, items, hindex, ⟨hbytes, fun hopt => ?_,
    ⟨s.ix.docStore, ?_, htabular, hcollected.rows⟩, ?_, hcollected.numZones, hroom.documents,
    hcount, hentries, htells, hincreasing, hfilled, hascending⟩, hstrict, hmerges⟩
  · show (_ <|> _) = _
    rw [hopt]
    rfl
  · exact load_save_self htabular (hsize.trans_lt hroom.documents) docStorePath
  · refine hcollected.postings fun hnil => ?_
    rw [mergeOnDisk_of_empty S fuel config hnil] at hmerge
    cases hmerge

/-! ## One flush -/

/-- In this state the check of the next `n` items does not flush. -/
def Quiet (env : Env) (s : ParseState) (n : Nat) : Prop :=
  (∀ ix, env.hasSpace ix = true) ∨ s.itemsCnt.toNat + n < 1000

theorem Quiet.countItem {env : Env} {s : ParseState} {n : Nat} (h : Quiet env s (n + 1)) :
    (s.countItem env).ix = s.ix ∧ Quiet env (s.countItem env) n := by
  unfold ParseState.countItem Quiet
  rcases h with hspace | hcnt
  · exact ⟨by simp [hspace], .inl hspace⟩
  · have hmod : ¬ s.itemsCnt % 1000 = 999 := by
      intro heq
      have hnat : s.itemsCnt.toNat % 1000 = 999 := congrArg UInt32.toNat heq
      omega
    refine ⟨by simp [hmod], .inr ?_⟩
    show (s.itemsCnt + 1).toNat + n < 1000
    rw [UInt32.toNat_add, show (1 : UInt32).toNat = 1 from rfl]
    omega

theorem Quiet.processItem {env : Env} {config : Config} {s s' : ParseState}
    {itemTag : XMLElement} {n : Nat} (h : Quiet env s (n + 1))
    (hitem : processItem env config s itemTag = .ok s') :
    s'.ix.dir = s.ix.dir ∧ Quiet env s' n := by
  obtain ⟨hix, hquiet⟩ := h.countItem
  cases processItem_step hitem (by simp) with
  | skipped _ => exact ⟨congrArg Indexer.dir hix, hquiet⟩
  | stored _ _ htext _ =>
    obtain ⟨zones, dict, htext⟩ := addText_eq_some htext
    exact ⟨htext.dir.trans (congrArg Indexer.dir hix), hquiet⟩

theorem Quiet.processItems {env : Env} {config : Config} {items : List XMLElement} :
    ∀ {s s' : ParseState}, Quiet env s items.length →
      processItems env config s items = .ok s' → s'.ix.dir = s.ix.dir := by
  induction items with
  | nil =>
    intro s s' _ hitems
    cases hitems
    rfl
  | cons itemTag items ih =>
    intro s s' h hitems
    obtain ⟨s₁, hitem, hitems⟩ := Outcome.bind_eq_ok hitems
    obtain ⟨hdir, hquiet⟩ := h.processItem hitem
    exact (ih hquiet hitems).trans hdir

/-- **The collection behind a directory**: the documents of all runs over it, each of which has
found no raw index files. Between two runs such files can be removed. -/
inductive Indexed (S : StdSort) (config : Config) (docStorePath : String) :
    Disk → List IndexedDoc → Prop where
  | empty : Indexed S config docStorePath Disk.empty []
  | run {fuel : Nat} {env : Env} {raw : RawDir} {disk : Disk} {docs : List IndexedDoc}
      {ix ix' : Indexer} (h : Indexed S config docStorePath disk docs)
      (hclean : ∀ file ∈ disk.dir.flushFiles, file = none)
      (hroom : Room (docs ++ documentsOf env config raw.items))
      (hnew : construct config docStorePath disk = some ix)
      (hcook : cook S fuel env config raw ix = .ok ix') :
      Indexed S config docStorePath (destroy ix') (docs ++ documentsOf env config raw.items)
  | removed {disk : Disk} {docs : List IndexedDoc} {files : List (Option (List IdxItem))}
      (h : Indexed S config docStorePath disk docs)
      (hremoved : List.Forall₂ (fun file file' => file' = file ∨ file' = none)
        disk.dir.flushFiles files) :
      Indexed S config docStorePath { disk with dir := { disk.dir with flushFiles := files } } docs

theorem Indexed.settled {S : StdSort} {config : Config} (hzones : config.textZones.length ≤ 255)
    {docStorePath : String} {disk : Disk} {docs : List IndexedDoc}
    (h : Indexed S config docStorePath disk docs) : Settled config docStorePath disk docs := by
  induction h with
  | empty => exact .empty config docStorePath
  | run _ hclean hroom hnew hcook ih =>
    obtain ⟨_, items, _, hcomplete, -, -⟩ := ih.run hzones hclean hroom hnew hcook
    exact .complete hcomplete
  | removed _ _ ih =>
    cases ih with
    | fresh hindex hstore => exact .fresh hindex hstore
    | complete h =>
      exact .complete ⟨h.index, h.ipos, h.store, h.postings, h.numZones, h.documents, h.count,
        h.entries, h.tells, h.increasing, h.filled, h.ascending⟩

end Amigos.Indexer
