import Mathlib.Data.List.Flatten
import Mathlib.Logic.Relation
import Amigos.Index.Intersect
import Amigos.Indexer.ReadBack

/-!
# Runs over one directory (`Indexer::cook`, again and again)

The merged index is both what a run leaves and what the next run begins with: `_mergeIndexes`
merges it with the raw index files `.0`, `.1` and so on. These files stay where they are
(`//boost::filesystem::remove(path);`), so the next run merges them again, behind its own.

Where a run finds none of them, all is well, and the argument is about the numbers of documents.
`EntriesBetween m n` says of some entries that they are of the documents from `m` to `n`, with one
entry at most for a token and a document. What the index has is between 0 and the size of the store,
what a run records is between that size and the next (`InRun.step`), and a merge brings the two
together without losing or doubling anything. `history_correct` is the induction on the runs.
-/

set_option autoImplicit false

namespace Amigos.Indexer

open Amigos.Lib
open Amigos.Index

/-! ## Entries of a range of documents -/

/-- What may be in an index once. -/
def key (p : UInt32 × Entry) : UInt32 × UInt32 := (p.1, p.2.docIdOffset)

/-- Entries of the documents from `m` to `n`, each token and document once. -/
structure EntriesBetween (m n : Nat) (ps : List (UInt32 × Entry)) : Prop where
  once : (ps.map key).Nodup
  lower : ∀ p ∈ ps, m ≤ p.2.docIdOffset.toNat
  upper : ∀ p ∈ ps, p.2.docIdOffset.toNat < n
  fits : ∀ p ∈ ps, p.2.Fits

namespace EntriesBetween

variable {m n k : Nat} {ps qs : List (UInt32 × Entry)}

theorem nil (m n : Nat) : EntriesBetween m n [] :=
  ⟨List.nodup_nil, by simp, by simp, by simp⟩

theorem sublist (h : EntriesBetween m n ps) (hsub : qs.Sublist ps) : EntriesBetween m n qs where
  once := h.once.sublist (hsub.map key)
  lower p hp := h.lower p (hsub.subset hp)
  upper p hp := h.upper p (hsub.subset hp)
  fits p hp := h.fits p (hsub.subset hp)

theorem perm (h : EntriesBetween m n ps) (hperm : qs.Perm ps) : EntriesBetween m n qs where
  once := (hperm.map key).nodup_iff.mpr h.once
  lower p hp := h.lower p (hperm.mem_iff.mp hp)
  upper p hp := h.upper p (hperm.mem_iff.mp hp)
  fits p hp := h.fits p (hperm.mem_iff.mp hp)

/-- **Ranges that follow each other** have no document in common. -/
theorem append (h : EntriesBetween m n ps) (h' : EntriesBetween n k qs) (hmn : m ≤ n)
    (hnk : n ≤ k) : EntriesBetween m k (ps ++ qs) where
  once := by
    rw [List.map_append]
    refine List.nodup_append.mpr ⟨h.once, h'.once, fun a ha b hb hab => ?_⟩
    obtain ⟨p, hp, rfl⟩ := List.mem_map.mp ha
    obtain ⟨q, hq, rfl⟩ := List.mem_map.mp hb
    have hsame : p.2.docIdOffset = q.2.docIdOffset := congrArg Prod.snd hab
    have hlt := Nat.lt_of_lt_of_le (h.upper p hp) (h'.lower q hq)
    rw [hsame] at hlt
    exact Nat.lt_irrefl _ hlt
  lower p hp := by
    rcases List.mem_append.mp hp with hp | hp
    · exact h.lower p hp
    · exact hmn.trans (h'.lower p hp)
  upper p hp := by
    rcases List.mem_append.mp hp with hp | hp
    · exact (h.upper p hp).trans_le hnk
    · exact h'.upper p hp
  fits p hp := by
    rcases List.mem_append.mp hp with hp | hp
    · exact h.fits p hp
    · exact h'.fits p hp

/-- A token has at most one entry for a document. -/
theorem entryCount_le (h : EntriesBetween m n ps) (t : UInt32) : entryCount t ps ≤ n := by
  have hsub := h.sublist (List.filter_sublist (p := fun p => p.1 == t) (l := ps))
  have hnodup : ((ps.filter fun p => p.1 == t).map fun p => p.2.docIdOffset.toNat).Nodup := by
    apply (List.Nodup.of_map key hsub.once).map_on
    intro p hp q hq hpq
    have hp' : p.1 = t := beq_iff_eq.mp (List.mem_filter.mp hp).2
    have hq' : q.1 = t := beq_iff_eq.mp (List.mem_filter.mp hq).2
    exact List.inj_on_of_nodup_map hsub.once hp hq
      (Prod.ext (hp'.trans hq'.symm) (UInt32.toNat_inj.mp hpq))
  have hsubset : ((ps.filter fun p => p.1 == t).map fun p => p.2.docIdOffset.toNat)
      ⊆ List.range n := by
    intro i hi
    obtain ⟨p, hp, rfl⟩ := List.mem_map.mp hi
    exact List.mem_range.mpr (hsub.upper p hp)
  have hle := (List.subperm_of_subset hnodup hsubset).length_le
  rwa [List.length_map, List.length_range, ← List.countP_eq_length_filter] at hle

variable {items : List IdxItem}

/-- Items with these entries fit their counts. -/
theorem items_fit (h : EntriesBetween m n (pairs items)) (hn : n < 2 ^ 32) :
    ∀ it ∈ items, it.Fits := by
  intro it hit
  refine ⟨?_, fun e he => h.fits (it.token, e) (mem_pairs.mpr ⟨it, hit, rfl, he⟩)⟩
  exact ((length_entries_le hit).trans (h.entryCount_le it.token)).trans_lt hn

/-- An entry list that is sorted is strictly increasing. -/
theorem increasing (h : EntriesBetween m n (pairs items)) {it : IdxItem} (hit : it ∈ items)
    (hsorted : it.entries.Pairwise fun a b => a.docIdOffset ≤ b.docIdOffset) :
    Increasing it.entries := by
  have hsub : (it.entries.map (it.token, ·)).Sublist (pairs items) :=
    List.sublist_flatten_of_mem (List.mem_map_of_mem hit)
  have honce := (h.sublist hsub).once
  rw [List.map_map, List.Nodup, List.pairwise_map] at honce
  refine (hsorted.and honce).imp fun {a b} hab => lt_of_le_of_ne hab.1 fun heq => ?_
  exact hab.2 (congrArg (it.token, ·) heq)

end EntriesBetween

/-! ## The raw index files of a run -/

/-- Where no file is left over, the free names are taken one after the other. -/
theorem putFirstEmpty_files (items : List IdxItem) (files : List (List IdxItem)) (j : Nat) :
    putFirstEmpty items (files.map some ++ List.replicate j none)
      = (files ++ [items]).map some ++ List.replicate (j - 1) none := by
  induction files with
  | nil => cases j <;> rfl
  | cons file files ih =>
    rw [List.map_cons, List.cons_append, putFirstEmpty, ih]
    rfl

/-- The files that are merged: the index, if there is one, and all raw files of the run. -/
theorem rawFiles_eq {dir : IndexDir} {index : Option (List IdxItem)}
    {files : List (List IdxItem)} {j : Nat} (hindex : dir.invertIndex = index.map indexBytes)
    (hfiles : dir.flushFiles = files.map some ++ List.replicate j none) :
    dir.rawFiles = (index.toList ++ files).map indexBytes := by
  have htake : (files.map some ++ List.replicate j none).takeWhile Option.isSome
      = files.map (some : List IdxItem → Option (List IdxItem)) := by
    rw [List.takeWhile_append_of_pos (by simp)]
    cases j with
    | zero => simp
    | succ j => simp [List.replicate_succ]
  have hbytes : rawIndexBytes = indexBytes := funext rawIndexBytes_eq
  rw [IndexDir.rawFiles, hindex, hfiles, htake, List.filterMap_map, List.map_append, hbytes]
  cases index <;> simp

/-! ## A run on a directory without raw index files -/

/-- In a run that began as `start`: its raw index files, and what they and the memory hold. -/
structure InRun (start ix : Indexer) (files : List (List IdxItem)) : Prop where
  flushFiles : ∃ j, ix.dir.flushFiles = files.map some ++ List.replicate j none
  invertIndex : ix.dir.invertIndex = start.dir.invertIndex
  grown : DynDocStorage.size start.docStore ≤ DynDocStorage.size ix.docStore
  entries : EntriesBetween (DynDocStorage.size start.docStore) (DynDocStorage.size ix.docStore)
    (files.flatMap pairs ++ pairs ix.invIdx)

theorem InRun.start {ix : Indexer} (hclean : ∀ file ∈ ix.dir.flushFiles, file = none)
    (hmemory : ix.invIdx = []) : InRun ix ix [] where
  flushFiles := ⟨ix.dir.flushFiles.length, List.eq_replicate_of_mem hclean⟩
  invertIndex := rfl
  grown := Nat.le_refl _
  entries := by
    rw [hmemory]
    exact .nil _ _

/-- A flush moves the entries in memory to the next file. -/
theorem InRun.flushToDisk {start ix : Indexer} {files : List (List IdxItem)}
    (h : InRun start ix files) : InRun start ix.flushToDisk (files ++ [ix.invIdx]) where
  flushFiles := by
    obtain ⟨j, hj⟩ := h.flushFiles
    exact ⟨j - 1, (congrArg (putFirstEmpty ix.invIdx) hj).trans (putFirstEmpty_files _ _ _)⟩
  invertIndex := h.invertIndex
  grown := h.grown
  entries := by
    have hsame : (files ++ [ix.invIdx]).flatMap pairs ++ pairs ix.flushToDisk.invIdx
        = files.flatMap pairs ++ pairs ix.invIdx := by
      rw [List.flatMap_append, List.flatMap_singleton]
      exact List.append_nil _
    rw [hsame]
    exact h.entries

theorem InRun.countItem {start : Indexer} {s : ParseState} {files : List (List IdxItem)}
    (h : InRun start s.ix files) (env : Env) :
    ∃ files', InRun start (s.countItem env).ix files' := by
  rcases countItem_ix env s with hix | hix <;> rw [hix]
  · exact ⟨files, h⟩
  · exact ⟨_, h.flushToDisk⟩

/-- What a text records is of one document, the next. -/
theorem AddsText.between {env : TextEnv} {ix ix' : Indexer} {texts : List Bytes}
    {wordsCnt : List UInt16} {recorded : List (UInt32 × Entry)} {zones : List (List Bytes)}
    {dict : List (UInt32 × List UInt16)}
    (h : AddsText env ix texts wordsCnt recorded ix' zones dict) (htexts : texts.length ≤ 255)
    (hsize : DynDocStorage.size ix.docStore < 2 ^ 32) :
    EntriesBetween (DynDocStorage.size ix.docStore) (DynDocStorage.size ix.docStore + 1)
      recorded := by
  have hnumber : ∀ r ∈ recorded, r.2.docIdOffset.toNat = DynDocStorage.size ix.docStore := by
    intro r hr
    rw [h.records.docIdOffset r hr, UInt32.toNat_ofNat', Nat.mod_eq_of_lt hsize]
  have hcounts : wordsCnt.length ≤ 255 := by
    rw [h.counts, length_narrow, List.length_map, length_of_mapM h.words]
    exact htexts
  refine ⟨?_, fun r hr => (hnumber r hr).ge, fun r hr => ?_, h.records.fits hcounts⟩
  · refine List.Nodup.of_map Prod.fst ?_
    rw [List.map_map]
    exact h.records.tokens ▸ h.dictionary.nodup
  · rw [hnumber r hr]
    exact Nat.lt_succ_self _

/-- **An item** adds the entries of one document, and the document. -/
theorem InRun.step {env : Env} {config : Config} (hzones : config.textZones.length ≤ 255)
    {start : Indexer} {s s' : ParseState} {itemTag : XMLElement} {files : List (List IdxItem)}
    (h : InRun start s.ix files) (hsize : DynDocStorage.size s.ix.docStore < 2 ^ 32)
    (hstep : ItemStep env config s itemTag (.ok s')) : ∃ files', InRun start s'.ix files' := by
  obtain ⟨files', hcount⟩ := h.countItem env
  cases hstep with
  | skipped hskip => exact ⟨files', hcount⟩
  | @stored docId numZones wordsCnt recorded ix docStore hid hreach htext hadd =>
    obtain ⟨zones, dict, htext⟩ := addText_eq_some htext
    have hbetween := htext.between
      (by rw [textsOf, List.length_map]; exact hzones)
      (by rw [docStore_countItem]; exact hsize)
    have hdocs := htext.size_addDoc hadd
    have hdir : ix.dir = (s.countItem env).ix.dir := htext.dir
    refine ⟨files', ?_, ?_, ?_, ?_⟩
    · obtain ⟨j, hj⟩ := hcount.flushFiles
      exact ⟨j, (congrArg IndexDir.flushFiles hdir).trans hj⟩
    · exact (congrArg IndexDir.invertIndex hdir).trans hcount.invertIndex
    · dsimp only
      rw [hdocs]
      exact Nat.le_succ_of_le hcount.grown
    -- The new entries are behind all others of the run, as their document is.
    · have hperm : (files'.flatMap pairs ++ pairs ix.invIdx).Perm
          ((files'.flatMap pairs ++ pairs (s.countItem env).ix.invIdx) ++ recorded) := by
        rw [htext.invIdx, List.append_assoc]
        exact ((pairs_addEntries recorded _).trans List.perm_append_comm).append_left _
      dsimp only
      rw [hdocs]
      exact (hcount.entries.append hbetween hcount.grown (Nat.le_succ _)).perm hperm

/-- The items that get a document. -/
def keptCnt (env : Env) (config : Config) (items : List XMLElement) : Nat :=
  items.countP fun itemTag => !decide (Skipped env config itemTag)

theorem ItemStep.size {env : Env} {config : Config} {s s' : ParseState} {itemTag : XMLElement}
    (h : ItemStep env config s itemTag (.ok s')) :
    DynDocStorage.size s'.ix.docStore
      = DynDocStorage.size s.ix.docStore + keptCnt env config [itemTag] := by
  cases h with
  | skipped hskip =>
    have hnone : keptCnt env config [itemTag] = 0 := by simp [keptCnt, hskip]
    dsimp only
    rw [hnone, docStore_countItem]
    rfl
  | stored hid hreach htext hadd =>
    obtain ⟨zones, dict, htext⟩ := addText_eq_some htext
    have hone : keptCnt env config [itemTag] = 1 := by simp [keptCnt, hreach.kept]
    rw [hone]
    exact (htext.size_addDoc hadd).trans
      (congrArg (DynDocStorage.size · + 1) (docStore_countItem env s))

/-- **A run over some items** that has room for their documents. -/
theorem InRun.processItems {env : Env} {config : Config} (hzones : config.textZones.length ≤ 255)
    {start : Indexer} {items : List XMLElement} :
    ∀ {s s' : ParseState} {files : List (List IdxItem)}, InRun start s.ix files →
      DynDocStorage.size s.ix.docStore + keptCnt env config items < 2 ^ 32 →
      Indexer.processItems env config s items = .ok s' →
      (∃ files', InRun start s'.ix files') ∧ DynDocStorage.size s'.ix.docStore < 2 ^ 32 := by
  induction items with
  | nil =>
    intro s s' files h hsize hrun
    cases hrun
    exact ⟨⟨files, h⟩, hsize⟩
  | cons itemTag items ih =>
    intro s s' files h hsize hrun
    obtain ⟨s₁, hitem, hrun⟩ := Outcome.bind_eq_ok hrun
    have hstep := processItem_step hitem (by simp)
    have hsplit : keptCnt env config (itemTag :: items)
        = keptCnt env config [itemTag] + keptCnt env config items := by
      rw [← List.singleton_append, keptCnt, List.countP_append]
      rfl
    obtain ⟨files₁, h₁⟩ := h.step hzones (by omega) hstep
    exact ih h₁ (by rw [hstep.size]; omega) hrun

/-! ## What a run leaves -/

/-- **What the merged index should be**: every entry list strictly increasing, a document at most
once for a token, and all of them in the saved document store. -/
structure IndexCorrect (config : Config) (docStorePath : String) (disk : Disk)
    (items : List IdxItem) : Prop where
  bytes : disk.dir.invertIndex = some (indexBytes items)
  fits : ∀ it ∈ items, it.Fits
  increasing : ∀ it ∈ items, Increasing it.entries
  once : ((pairs items).map key).Nodup
  documents : ∃ st, (DocStorage.sized config).load docStorePath disk.docStoreFile = some (.ok st) ∧
    ∀ it ∈ items, ∀ e ∈ it.entries, e.docIdOffset.toNat < DynDocStorage.size st

/-- A merge of files with entries of the first `n` documents. -/
theorem mergeIndexes_between {S : StdSort} {fuel : Nat} {config : Config}
    {files : List (List IdxItem)} {index : Bytes} {ipos : Option Bytes} {n : Nat}
    (hfiles : EntriesBetween 0 n (files.flatMap pairs)) (hn : n < 2 ^ 32)
    (h : mergeIndexes S fuel config (files.map indexBytes) = some (index, ipos)) :
    ∃ items, index = indexBytes items ∧ EntriesBetween 0 n (pairs items) ∧
      ∀ it ∈ items, Increasing it.entries := by
  have hread : EntriesBetween 0 n ((files.map readable).flatMap pairs) := by
    rw [List.flatMap_map]
    refine hfiles.sublist (List.Sublist.flatMap_right files fun items _ => ?_)
    exact (List.take_sublist _ _).flatMap _
  obtain ⟨items, hindex, hmerges⟩ := mergeIndexes_eq_some
    (fun items hitems => (hfiles.sublist (List.sublist_flatten_of_mem
      (List.mem_map_of_mem hitems))).items_fit hn)
    (fun t => (hread.entryCount_le t).trans_lt hn) h
  have hperm := hmerges.perm
  rw [livePairs_ofItems] at hperm
  have hentries := hread.perm hperm.symm
  exact ⟨items, hindex, hentries, fun it hit => hentries.increasing hit (hmerges.sorted it hit)⟩

theorem mergeOnDisk_eq_ok {S : StdSort} {fuel : Nat} {config : Config} {ix ix' : Indexer}
    (h : ix.mergeOnDisk S fuel config = .ok ix') :
    ∃ index ipos, mergeIndexes S fuel config ix.dir.rawFiles = some (index, ipos) ∧
      ix'.dir.invertIndex = some index ∧ ix'.docStore = ix.docStore := by
  obtain ⟨⟨index, ipos⟩, hmerge, h⟩ := Outcome.bind_eq_ok h
  cases h
  exact ⟨index, ipos, Outcome.ofOption_eq_ok hmerge, rfl, rfl⟩

theorem cook_eq_ok {S : StdSort} {fuel : Nat} {env : Env} {config : Config} {raw : RawDir}
    {ix ix' : Indexer} (h : cook S fuel env config raw ix = .ok ix') :
    ∃ s, processItems env config (.start ix) raw.items = .ok s ∧
      s.ix.flushToDisk.mergeOnDisk S fuel config = .ok ix' := by
  obtain ⟨ix₁, hparse, hmerge⟩ := Outcome.bind_eq_ok (Outcome.mapException_eq_ok h)
  obtain ⟨s, hrun, rfl⟩ := parseRawData_ok hparse
  exact ⟨s, hrun, hmerge⟩

/-- A directory between two runs: the index, if there is one, has entries of the documents in the
store. -/
structure Consistent (config : Config) (docStorePath : String) (disk : Disk) : Prop where
  intro ::
  index : ∃ (index : Option (List IdxItem)) (st : DocStorage),
    disk.dir.invertIndex = index.map indexBytes ∧
      DynDocStorage.create config docStorePath disk.docStoreFile = some st ∧
      EntriesBetween 0 (DynDocStorage.size st) (index.toList.flatMap pairs)

theorem Consistent.empty (config : Config) (docStorePath : String) :
    Consistent config docStorePath Disk.empty :=
  ⟨none, DocStorage.sized config, rfl, rfl, .nil _ _⟩

/-- **A run on a consistent directory without raw index files** leaves a consistent directory, with
a correct index. -/
theorem Consistent.run {S : StdSort} {fuel : Nat} {env : Env} {config : Config}
    (hzones : config.textZones.length ≤ 255) {docStorePath : String} {disk : Disk}
    (h : Consistent config docStorePath disk)
    (hclean : ∀ file ∈ disk.dir.flushFiles, file = none) {raw : RawDir} {ix ix' : Indexer}
    (hnew : construct config docStorePath disk = some ix)
    (hdocs : DynDocStorage.size ix.docStore + keptCnt env config raw.items < 2 ^ 32)
    (hcook : cook S fuel env config raw ix = .ok ix') :
    Consistent config docStorePath (destroy ix') ∧
      ∃ items, IndexCorrect config docStorePath (destroy ix') items := by
  obtain ⟨index, st, hindex, hst, hold⟩ := h.index
  obtain ⟨hcreate, -, hmemory, hdir⟩ := construct_eq_some hnew
  obtain rfl : ix.docStore = st := Option.some.inj (hcreate.symm.trans hst)
  obtain ⟨s, hrun, hmerge⟩ := cook_eq_ok hcook
  have hstart : InRun ix (ParseState.start ix).ix [] := .start (hdir ▸ hclean) hmemory
  obtain ⟨⟨files, hfiles⟩, hsize⟩ := hstart.processItems hzones hdocs hrun
  have htabular : Tabular config s.ix.docStore :=
    processItems_inv (fun s => Tabular config s.ix.docStore) (fun h hstep => hstep.tabular h)
      (.create hcreate) hrun
  -- What is merged: the old index, and all that the run has flushed.
  have hflushed := hfiles.flushToDisk
  obtain ⟨j, hj⟩ := hflushed.flushFiles
  obtain ⟨bytes, ipos, hmerged, hbytes, hdocStore⟩ := mergeOnDisk_eq_ok hmerge
  rw [rawFiles_eq (hflushed.invertIndex.trans (hdir ▸ hindex)) hj] at hmerged
  have hall : EntriesBetween 0 (DynDocStorage.size s.ix.docStore)
      ((index.toList ++ (files ++ [s.ix.invIdx])).flatMap pairs) := by
    have hnew := hold.append hflushed.entries (Nat.zero_le _) hfiles.grown
    rw [List.flatMap_append]
    exact hnew.sublist ((List.sublist_append_left _ _).append_left _)
  obtain ⟨items, rfl, hentries, hincreasing⟩ := mergeIndexes_between hall hsize hmerged
  -- What is left: the merged index, and the store that the next run will load.
  have hsaved : (destroy ix').docStoreFile = some (DynDocStorage.save s.ix.docStore) :=
    congrArg (some ∘ DynDocStorage.save) hdocStore
  refine ⟨⟨some items, s.ix.docStore, hbytes, ?_, ?_⟩, items, hbytes, hentries.items_fit hsize,
    hincreasing, hentries.once, s.ix.docStore, ?_, ?_⟩
  · rw [hsaved]
    exact create_save htabular hsize docStorePath
  · rw [Option.toList_some, List.flatMap_singleton]
    exact hentries
  · rw [hsaved]
    exact load_save_self htabular hsize docStorePath
  · exact fun it hit e he => hentries.upper (it.token, e) (mem_pairs.mpr ⟨it, hit, rfl, he⟩)

/-! ## Histories -/

/-- One complete run, under a condition on what it begins with. -/
inductive Run (S : StdSort) (config : Config) (docStorePath : String)
    (Cond : Env → RawDir → Disk → Indexer → Prop) : Disk → Disk → Prop where
  | intro {fuel : Nat} {env : Env} {raw : RawDir} {disk : Disk} {ix ix' : Indexer}
      (hcond : Cond env raw disk ix) (hnew : construct config docStorePath disk = some ix)
      (hcook : cook S fuel env config raw ix = .ok ix') :
      Run S config docStorePath Cond disk (destroy ix')

/-- No raw index file is left over, and there is room for the documents. -/
structure CleanStart (config : Config) (env : Env) (raw : RawDir) (disk : Disk) (ix : Indexer) :
    Prop where
  noRawFile : ∀ file ∈ disk.dir.flushFiles, file = none
  room : DynDocStorage.size ix.docStore + keptCnt env config raw.items < 2 ^ 32

/-- What can happen to a directory: a run that starts clean, or raw index files are removed from
outside. -/
inductive HistoryStep (S : StdSort) (config : Config) (docStorePath : String) :
    Disk → Disk → Prop where
  | run {disk disk' : Disk} (h : Run S config docStorePath (CleanStart config) disk disk') :
      HistoryStep S config docStorePath disk disk'
  | removed {disk : Disk} {files : List (Option (List IdxItem))}
      (h : List.Forall₂ (fun file file' => file' = file ∨ file' = none) disk.dir.flushFiles files) :
      HistoryStep S config docStorePath disk
        { disk with dir := { disk.dir with flushFiles := files } }

theorem HistoryStep.consistent {S : StdSort} {config : Config}
    (hzones : config.textZones.length ≤ 255) {docStorePath : String} {disk disk' : Disk}
    (hstep : HistoryStep S config docStorePath disk disk')
    (h : Consistent config docStorePath disk) : Consistent config docStorePath disk' := by
  cases hstep with
  | run hrun =>
    cases hrun with
    | intro hcond hnew hcook => exact (h.run hzones hcond.noRawFile hnew hcond.room hcook).1
  | removed _ => exact ⟨h.index⟩

theorem history_consistent {S : StdSort} {config : Config} (hzones : config.textZones.length ≤ 255)
    {docStorePath : String} {disk : Disk}
    (h : Relation.ReflTransGen (HistoryStep S config docStorePath) Disk.empty disk) :
    Consistent config docStorePath disk := by
  induction h with
  | refl => exact .empty config docStorePath
  | tail _ hstep ih => exact hstep.consistent hzones ih

/-- **The index is correct after every run** of a history in which every run starts clean. -/
theorem history_correct (S : StdSort) (config : Config) (hzones : config.textZones.length ≤ 255)
    {docStorePath : String} {disk disk' : Disk}
    (hhistory : Relation.ReflTransGen (HistoryStep S config docStorePath) Disk.empty disk)
    (hrun : Run S config docStorePath (CleanStart config) disk disk') :
    ∃ items, IndexCorrect config docStorePath disk' items := by
  have hconsistent := history_consistent hzones hhistory
  cases hrun with
  | intro hcond hnew hcook => exact (hconsistent.run hzones hcond.noRawFile hnew hcond.room hcook).2

/-! ## The same documents, indexed twice -/

theorem cook_of_merge {S : StdSort} {fuel : Nat} {env : Env} {config : Config} {raw : RawDir}
    {ix ix' : Indexer} {index : Bytes} {ipos : Option Bytes}
    (hparse : parseRawData env config raw ix = .ok ix')
    (hmerge : mergeIndexes S fuel config ix'.flushToDisk.dir.rawFiles = some (index, ipos)) :
    cook S fuel env config raw ix = .ok (ix'.flushToDisk.withIndex index ipos) := by
  simp only [cook, hparse, mergeOnDisk, hmerge, Outcome.ok_bind, Outcome.ofOption_some]
  rfl

/-- A run whose merge is known. -/
theorem cook_of_merges {S : StdSort} {env : Env} {config : Config} {raw : RawDir} {ix ix' : Indexer}
    {files : List (List IdxItem)} {items : List IdxItem}
    (hparse : parseRawData env config raw ix = .ok ix')
    (hraw : ix'.flushToDisk.dir.rawFiles = files.map indexBytes)
    (hne : ∀ items ∈ files, readable items ≠ []) (hfits : ∀ items ∈ files, ∀ it ∈ items, it.Fits)
    (hbound : ∀ t, entryCount t
      (livePairs ((files.map readable).filterMap Live.ofItems)) < 2 ^ 32)
    (hmerges : Merges S ((files.map readable).filterMap Live.ofItems) items) :
    ∃ fuel, cook S fuel env config raw ix = .ok (ix'.flushToDisk.withIndex (indexBytes items)
      (if config.invertIndexIPosFile.isEmpty then none else some (posBytes items))) := by
  obtain ⟨fuel, hmerge⟩ := mergeIndexes_eq hne hfits hbound config hmerges
  refine ⟨fuel, cook_of_merge hparse ?_⟩
  rw [hraw]
  exact hmerge fuel (Nat.le_refl _)

/-- The token of `x`. -/
def tokenX : UInt32 := Common.murmurHash2 [120]

/-- The entry of the title `x` in a document. -/
def entryX (docIdOffset : UInt32) : Entry := ⟨docIdOffset, ⟨1, 0, [1]⟩⟩

/-- What a run over `titled` flushes, by the number of the document. -/
def flushedX (docIdOffset : UInt32) : List IdxItem := [⟨tokenX, [entryX docIdOffset]⟩]

/-- The object behind a first run. -/
def firstRun : Indexer :=
  (ranOver (empty titleConfig) [titled]).flushToDisk.withIndex (indexBytes (flushedX 0)) none

theorem sort_entry (e : Entry) : mergeSorter.sort compareEntries [e] = [e] :=
  List.perm_singleton.mp (mergeSorter.perm _ _)

/-- A run on an empty directory that flushes this file only. -/
theorem cook_flushedX {items : List XMLElement} {docIdOffset : UInt32}
    (hparse : parseRawData .oneWord titleConfig (oneFile items) (empty titleConfig)
      = .ok (ranOver (empty titleConfig) items))
    (hindex : (ranOver (empty titleConfig) items).flushToDisk.dir.invertIndex = none)
    (hfiles : (ranOver (empty titleConfig) items).flushToDisk.dir.flushFiles
      = [some (flushedX docIdOffset)]) :
    ∃ fuel, cook mergeSorter fuel .oneWord titleConfig (oneFile items) (empty titleConfig)
      = .ok ((ranOver (empty titleConfig) items).flushToDisk.withIndex
        (indexBytes (flushedX docIdOffset)) none) := by
  have hraw : (ranOver (empty titleConfig) items).flushToDisk.dir.rawFiles
      = [flushedX docIdOffset].map indexBytes :=
    @rawFiles_eq _ none [flushedX docIdOffset] 0 hindex hfiles
  have hfits : ∀ it ∈ flushedX docIdOffset, it.Fits :=
    List.forall_mem_singleton.mpr ⟨show 1 < 2 ^ 32 by decide,
      List.forall_mem_singleton.mpr (show 1 < 2 ^ 8 by decide)⟩
  have hmerges : Merges mergeSorter (([flushedX docIdOffset].map readable).filterMap Live.ofItems)
      [⟨tokenX, mergeSorter.sort compareEntries ([entryX docIdOffset] ++ [])⟩] :=
    .round (List.cons_ne_nil _ _) (.eraseLast rfl .stop) .nil
  rw [List.append_nil, sort_entry] at hmerges
  exact cook_of_merges hparse hraw (List.forall_mem_singleton.mpr (List.cons_ne_nil _ _))
    (List.forall_mem_singleton.mpr hfits)
    (fun t => List.countP_le_length.trans_lt (show 1 < 2 ^ 32 by decide)) hmerges

theorem cook_firstRun : ∃ fuel, cook mergeSorter fuel .oneWord titleConfig (oneFile [titled])
    (empty titleConfig) = .ok firstRun :=
  cook_flushedX rfl rfl rfl

/-- The object of a second run, in front of it. -/
def secondStart : Indexer := (construct titleConfig "" (destroy firstRun)).getD (empty titleConfig)

theorem construct_secondStart : construct titleConfig "" (destroy firstRun) = some secondStart :=
  rfl

/-- The second run has merged the document 0 from the index and from the file `.0`. -/
def twice : List Entry := mergeSorter.sort compareEntries [entryX 0, entryX 1, entryX 0]

def secondRun : Indexer :=
  (ranOver secondStart [titled]).flushToDisk.withIndex (indexBytes [⟨tokenX, twice⟩]) none

theorem cook_secondRun : ∃ fuel, cook mergeSorter fuel .oneWord titleConfig (oneFile [titled])
    secondStart = .ok secondRun := by
  have hraw : (ranOver secondStart [titled]).flushToDisk.dir.rawFiles
      = [flushedX 0, flushedX 0, flushedX 1].map indexBytes :=
    @rawFiles_eq _ (some (flushedX 0)) [flushedX 0, flushedX 1] 0 rfl rfl
  -- The index is erased, `.0` is passed over, `.1` is erased, and the walk comes round to `.0`.
  have hmerges : Merges mergeSorter
      (([flushedX 0, flushedX 0, flushedX 1].map readable).filterMap Live.ofItems)
      [⟨tokenX, mergeSorter.sort compareEntries
        ([entryX 0] ++ ([entryX 1] ++ ([entryX 0] ++ [])))⟩] :=
    .round (by decide) (.erase rfl (.eraseLast rfl (.eraseLast rfl .stop))) .nil
  exact cook_of_merges rfl hraw (by decide) (by decide)
    (fun t => List.countP_le_length.trans_lt (by decide)) hmerges

theorem not_increasing_twice : ¬ Increasing twice := by
  intro h
  have hnodup : twice.Nodup := h.imp fun {a b} hlt hab => absurd (hab ▸ hlt) (lt_irrefl _)
  have htwice : ([entryX 0, entryX 1, entryX 0] : List Entry).Nodup :=
    (mergeSorter.perm compareEntries _).nodup_iff.mp hnodup
  exact absurd htwice (by decide)

/-- Two runs, and nothing removed in between: a document is twice in an entry list. -/
theorem not_history_correct_twice : ¬ ∀ (S : StdSort) (config : Config) (docStorePath : String)
    (disk disk' : Disk),
    Relation.ReflTransGen (Run S config docStorePath fun _ _ _ _ => True) Disk.empty disk →
    Run S config docStorePath (fun _ _ _ _ => True) disk disk' →
    ∃ items, IndexCorrect config docStorePath disk' items := by
  intro h
  obtain ⟨fuel, hfirst⟩ := cook_firstRun
  obtain ⟨fuel', hsecond⟩ := cook_secondRun
  obtain ⟨items, hcorrect⟩ := h mergeSorter titleConfig "" _ _
    (.single (.intro trivial (construct_empty titleConfig "") hfirst))
    (.intro trivial construct_secondStart hsecond)
  -- Bytes determine their items, so a correct index would have to be this one.
  have hfits : ∀ it ∈ [IdxItem.mk tokenX twice], it.Fits := by
    intro it hit
    rw [List.mem_singleton.mp hit]
    have hperm := mergeSorter.perm compareEntries [entryX 0, entryX 1, entryX 0]
    refine ⟨hperm.length_eq.trans_lt (by decide), fun e he => ?_⟩
    have hall : ∀ e ∈ [entryX 0, entryX 1, entryX 0], e.Fits := by decide
    exact hall e (hperm.mem_iff.mp he)
  have hitems : items = [⟨tokenX, twice⟩] := indexBytes_injective hcorrect.fits hfits
    (Option.some.inj (hcorrect.bytes.symm.trans rfl))
  exact not_increasing_twice
    (hcorrect.increasing ⟨tokenX, twice⟩ (hitems ▸ List.mem_singleton.mpr rfl))

/-- What the first run leaves, without its raw index file. -/
def cleaned : Disk :=
  { destroy firstRun with dir := { (destroy firstRun).dir with flushFiles := [none] } }

def cleanedStart : Indexer := (construct titleConfig "" cleaned).getD (empty titleConfig)

theorem construct_cleanedStart : construct titleConfig "" cleaned = some cleanedStart := rfl

/-- The walk has passed over the file `.0`, which is left to the next round. -/
def cleanedRun : Indexer :=
  (ranOver cleanedStart [titled]).flushToDisk.withIndex (indexBytes (flushedX 0 ++ flushedX 1)) none

theorem cook_cleanedRun : ∃ fuel, cook mergeSorter fuel .oneWord titleConfig (oneFile [titled])
    cleanedStart = .ok cleanedRun := by
  have hraw : (ranOver cleanedStart [titled]).flushToDisk.dir.rawFiles
      = [flushedX 0, flushedX 1].map indexBytes :=
    @rawFiles_eq _ (some (flushedX 0)) [flushedX 1] 0 rfl rfl
  have hmerges : Merges mergeSorter (([flushedX 0, flushedX 1].map readable).filterMap Live.ofItems)
      [⟨tokenX, mergeSorter.sort compareEntries ([entryX 0] ++ [])⟩,
        ⟨tokenX, mergeSorter.sort compareEntries ([entryX 1] ++ [])⟩] :=
    .round (by decide) (.erase rfl .stop) (.round (by decide) (.eraseLast rfl .stop) .nil)
  rw [List.append_nil, List.append_nil, sort_entry, sort_entry] at hmerges
  exact cook_of_merges rfl hraw (by decide) (by decide)
    (fun t => List.countP_le_length.trans_lt (by decide)) hmerges

/-- A run, its raw index file removed, and a run over the same document. -/
theorem history_correct_cleanedRun :
    ∃ items, IndexCorrect titleConfig "" (destroy cleanedRun) items := by
  obtain ⟨fuel, hfirst⟩ := cook_firstRun
  obtain ⟨fuel', hsecond⟩ := cook_cleanedRun
  have hremoved : HistoryStep mergeSorter titleConfig "" (destroy firstRun) cleaned :=
    .removed (.cons (.inr rfl) .nil)
  exact history_correct mergeSorter titleConfig (by decide)
    (.tail (.single (.run (.intro ⟨by decide, by decide⟩ (construct_empty titleConfig "") hfirst)))
      hremoved)
    (.intro ⟨by decide, by decide⟩ construct_cleanedStart hsecond)

end Amigos.Indexer
