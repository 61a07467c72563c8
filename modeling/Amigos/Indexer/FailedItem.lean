import Amigos.Indexer.Recorded

/-!
# An item that throws (`cook`'s handler)

When an item throws, the handler of `cook` flushes what is in memory. The entries of an item are
recorded under the number that its document is going to have, and the document is added last. So
an entry that is flushed without its document points behind the store, to the document that is
added next.

`NoOrphans` is what every item that does not throw keeps: all entries, in memory and in the files
of the run, are of documents in the store. `failedItem_correct_iff` says exactly when an item that
throws keeps it too: it must not get as far as recording an entry.
-/

set_option autoImplicit false

namespace Amigos.Indexer

open Amigos.Lib
open Amigos.Index

/-! ## The files of a run -/

/-- The raw index file with the suffix `k`. -/
def IndexDir.file (dir : IndexDir) (k : Nat) : Option (List IdxItem) := (dir.flushFiles[k]?).join

/-- A file that `dir` did not have and `dir'` has. -/
def WrittenFile (dir dir' : IndexDir) (items : List IdxItem) : Prop :=
  ∃ k, dir.file k = none ∧ dir'.file k = some items

theorem putFirstEmpty_spec (items : List IdxItem) : ∀ files : List (Option (List IdxItem)),
    ∃ k : Nat, (files[k]?).join = none ∧ ((putFirstEmpty items files)[k]?).join = some items ∧
      ∀ j, j ≠ k → ((putFirstEmpty items files)[j]?).join = (files[j]?).join
  | [] => ⟨0, rfl, rfl, fun j hj => by
      cases j with
      | zero => exact absurd rfl hj
      | succ j => rfl⟩
  | none :: files => ⟨0, rfl, rfl, fun j hj => by
      cases j with
      | zero => exact absurd rfl hj
      | succ j => rfl⟩
  | some file :: files => by
    obtain ⟨k, hfree, hput, hother⟩ := putFirstEmpty_spec items files
    refine ⟨k + 1, hfree, hput, fun j hj => ?_⟩
    cases j with
    | zero => rfl
    | succ j => exact hother j fun h => hj (congrArg (· + 1) h)

/-- **A flush** puts the index in memory under a free suffix, and touches no other file. -/
theorem flushToDisk_file (ix : Indexer) : ∃ k, ix.dir.file k = none ∧
    ix.flushToDisk.dir.file k = some ix.invIdx ∧
    ∀ j, j ≠ k → ix.flushToDisk.dir.file j = ix.dir.file j :=
  putFirstEmpty_spec ix.invIdx ix.dir.flushFiles

/-! ## Entries of documents that are in the store -/

/-- All entries are of the first `n` documents. -/
def Below (n : Nat) (items : List IdxItem) : Prop := ∀ p ∈ pairs items, p.2.docIdOffset.toNat < n

theorem Below.mono {m n : Nat} {items : List IdxItem} (h : Below m items) (hmn : m ≤ n) :
    Below n items := fun p hp => Nat.lt_of_lt_of_le (h p hp) hmn

/-- In a run that found the directory as `dir`: no file has been lost, and the entries in memory
and in the files of the run are of documents in the store. -/
structure NoOrphans (dir : IndexDir) (ix : Indexer) : Prop where
  kept : ∀ k items, dir.file k = some items → ix.dir.file k = some items
  memory : Below (DynDocStorage.size ix.docStore) ix.invIdx
  written : ∀ items, WrittenFile dir ix.dir items →
    Below (DynDocStorage.size ix.docStore) items

section

variable {dir : IndexDir}

/-- The files of the run behind a flush. -/
theorem writtenFile_flushToDisk {ix : Indexer}
    (hkept : ∀ k items, dir.file k = some items → ix.dir.file k = some items)
    (items : List IdxItem) : WrittenFile dir ix.flushToDisk.dir items ↔
      WrittenFile dir ix.dir items ∨ items = ix.invIdx := by
  obtain ⟨k, hfree, hput, hother⟩ := flushToDisk_file ix
  constructor
  · rintro ⟨j, hnone, hfile⟩
    by_cases hj : j = k
    · subst hj
      exact Or.inr (Option.some.inj (hfile.symm.trans hput))
    · exact Or.inl ⟨j, hnone, (hother j hj).symm.trans hfile⟩
  · rintro (⟨j, hnone, hfile⟩ | rfl)
    -- A file that is there is not the one that the flush has found free.
    · have hj : j ≠ k := by
        rintro rfl
        rw [hfree] at hfile
        cases hfile
      exact ⟨j, hnone, (hother j hj).trans hfile⟩
    · have hnone : dir.file k = none := by
        cases h : dir.file k with
        | none => rfl
        | some items =>
          have hfile := hkept k items h
          rw [hfree] at hfile
          cases hfile
      exact ⟨k, hnone, hput⟩

theorem kept_flushToDisk {ix : Indexer}
    (hkept : ∀ k items, dir.file k = some items → ix.dir.file k = some items) :
    ∀ k items, dir.file k = some items → ix.flushToDisk.dir.file k = some items := by
  obtain ⟨k, hfree, -, hother⟩ := flushToDisk_file ix
  intro j items h
  have hfile := hkept j items h
  have hj : j ≠ k := by
    rintro rfl
    rw [hfree] at hfile
    cases hfile
  exact (hother j hj).trans hfile

theorem NoOrphans.flushToDisk {ix : Indexer} (h : NoOrphans dir ix) :
    NoOrphans dir ix.flushToDisk where
  kept := kept_flushToDisk h.kept
  memory p hp := absurd hp List.not_mem_nil
  written items hitems := by
    rcases (writtenFile_flushToDisk h.kept items).mp hitems with hold | rfl
    · exact h.written items hold
    · exact h.memory

theorem NoOrphans.countItem {env : Env} {s : ParseState} (h : NoOrphans dir s.ix) :
    NoOrphans dir (s.countItem env).ix := by
  rcases countItem_ix env s with hix | hix <;> rw [hix]
  · exact h
  · exact h.flushToDisk

/-- An entry is recorded under the number of a document that is still to come. -/
theorem AddsText.memory {env : TextEnv} {ix ix' : Indexer} {texts : List Bytes}
    {wordsCnt : List UInt16} {recorded : List (UInt32 × Entry)} {zones : List (List Bytes)}
    {textDict : List (UInt32 × List UInt16)}
    (h : AddsText env ix texts wordsCnt recorded ix' zones textDict) {n : Nat}
    (hmem : Below n ix.invIdx) :
    Below n ix'.invIdx ↔ (recorded ≠ [] →
      (UInt32.ofNat (DynDocStorage.size ix.docStore)).toNat < n) := by
  have hperm := pairs_addEntries recorded ix.invIdx
  rw [← h.invIdx] at hperm
  constructor
  · intro hbelow hne
    obtain ⟨r, hr⟩ := List.exists_mem_of_ne_nil recorded hne
    have hlt := hbelow r (hperm.mem_iff.mpr (List.mem_append_left _ hr))
    rwa [h.records.docIdOffset r hr] at hlt
  · intro hlt p hp
    rcases List.mem_append.mp (hperm.mem_iff.mp hp) with hr | hold
    · rw [h.records.docIdOffset p hr]
      exact hlt (List.ne_nil_of_mem hr)
    · exact hmem p hold

/-- **An item that does not throw** keeps the invariant: what it records is of the document that
it adds. -/
theorem NoOrphans.step {env : Env} {config : Config} {s s' : ParseState} {itemTag : XMLElement}
    (h : NoOrphans dir s.ix) (hstep : ItemStep env config s itemTag (.ok s')) :
    NoOrphans dir s'.ix := by
  have hcount : NoOrphans dir (s.countItem env).ix := h.countItem
  cases hstep with
  | skipped hskip => exact hcount
  | @stored docId numZones wordsCnt recorded ix docStore hid hreach htext hadd =>
    obtain ⟨zones, dict, htext⟩ := addText_eq_some htext
    have hsize := htext.size_addDoc hadd
    have hle : DynDocStorage.size (s.countItem env).ix.docStore ≤ DynDocStorage.size docStore :=
      hsize ▸ Nat.le_succ _
    refine ⟨?_, ?_, ?_⟩
    · intro k items hfile
      exact (congrArg (IndexDir.file · k) htext.dir).trans (hcount.kept k items hfile)
    · apply (htext.memory (hcount.memory.mono hle)).mpr
      intro _
      rw [UInt32.toNat_ofNat', hsize]
      exact Nat.lt_succ_of_le (Nat.mod_le _ _)
    · rintro items ⟨k, hnone, hfile⟩
      rw [show ix.dir = (s.countItem env).ix.dir from htext.dir] at hfile
      exact (hcount.written items ⟨k, hnone, hfile⟩).mono hle

end

theorem NoOrphans.construct {config : Config} {docStorePath : String} {disk : Disk} {ix : Indexer}
    (h : Indexer.construct config docStorePath disk = some ix) : NoOrphans disk.dir ix := by
  obtain ⟨-, -, hmemory, hdir⟩ := construct_eq_some h
  refine ⟨fun k items h => hdir ▸ h, ?_, ?_⟩
  · rw [hmemory]
    exact fun p hp => absurd hp List.not_mem_nil
  · rintro items ⟨k, hnone, hfile⟩
    rw [hdir] at hfile
    exact absurd (hnone.symm.trans hfile) (by simp)

/-! ## The item that throws -/

/-- The run comes to this item in the state `s`, and it throws. -/
structure FailsAt (env : Env) (config : Config) (raw : RawDir) (ix : Indexer) (s : ParseState)
    (itemTag : XMLElement) : Prop where
  reached : ∃ before behind, raw.items = before ++ itemTag :: behind ∧
    processItems env config (.start ix) before = .ok s
  throws : ∃ f, processItem env config s itemTag = .exception f

/-- A text of the item has a word that goes into the index. -/
def Indexable (env : TextEnv) (config : Config) (itemTag : XMLElement) : Prop :=
  ∃ text ∈ textsOf config itemTag, ∃ words, env.bterms text = some words ∧
    ∃ word ∈ words, hasBadSymbols word = false

theorem AddsText.indexable_iff {env : TextEnv} {config : Config} {itemTag : XMLElement}
    {ix ix' : Indexer} {wordsCnt : List UInt16} {recorded : List (UInt32 × Entry)}
    {zones : List (List Bytes)} {dict : List (UInt32 × List UInt16)}
    (h : AddsText env ix (textsOf config itemTag) wordsCnt recorded ix' zones dict) :
    recorded ≠ [] ↔ Indexable env config itemTag := by
  rw [h.ne_nil_iff]
  constructor
  · rintro ⟨word, hword, hgood⟩
    obtain ⟨text, htext, words, hbterms, hword⟩ := (h.mem_words word).mp hword
    exact ⟨text, htext, words, hbterms, word, hword, hgood⟩
  · rintro ⟨text, htext, words, hbterms, word, hword, hgood⟩
    exact ⟨word, (h.mem_words word).mpr ⟨text, htext, words, hbterms, hword⟩, hgood⟩

/-- **When an item that throws leaves nothing behind**: it throws before its text is recorded, or
it has no word for the index, or 32 bits do not tell its document from an earlier one. -/
def LeavesNothing (env : Env) (config : Config) (s : ParseState) (itemTag : XMLElement) : Prop :=
  ReachesText env config itemTag → Indexable env.toTextEnv config itemTag →
    2 ^ 32 ≤ DynDocStorage.size s.ix.docStore

/-- A run to an item that throws, with its handler. -/
theorem FailsAt.cook {env : Env} {config : Config} {raw : RawDir} {ix : Indexer} {s : ParseState}
    {itemTag : XMLElement} (h : FailsAt env config raw ix s itemTag) (S : StdSort) (fuel : Nat) :
    ∃ (f : Failure) (msg : String), processItem env config s itemTag = .exception f ∧
      cook S fuel env config raw ix = .exception ⟨msg, f.ix.flushToDisk⟩ := by
  obtain ⟨before, behind, hitems, hbefore⟩ := h.reached
  obtain ⟨f, hthrows⟩ := h.throws
  have hrun : processItems env config (.start ix) raw.items = .exception f := by
    rw [hitems, processItems_append, hbefore, Outcome.ok_bind, processItems_cons, hthrows]
    rfl
  obtain ⟨msg, hparse⟩ := parseRawData_exception hrun
  refine ⟨f, msg, hthrows, ?_⟩
  rw [Indexer.cook, hparse]
  rfl

/-- **The handler leaves entries of stored documents only** exactly if the item that throws leaves
nothing behind. -/
theorem failedItem_correct_iff (S : StdSort) (fuel : Nat) (env : Env) (config : Config)
    (raw : RawDir) {docStorePath : String} {disk : Disk} {ix : Indexer} {s : ParseState}
    {itemTag : XMLElement} (hnew : construct config docStorePath disk = some ix)
    (hfail : FailsAt env config raw ix s itemTag) :
    ∃ f, cook S fuel env config raw ix = .exception f ∧
      ((∀ items, WrittenFile disk.dir f.ix.dir items →
          Below (DynDocStorage.size f.ix.docStore) items) ↔
        LeavesNothing env config s itemTag) := by
  obtain ⟨f, msg, hthrows, hcook⟩ := hfail.cook S fuel
  obtain ⟨before, -, -, hbefore⟩ := hfail.reached
  have hs : NoOrphans disk.dir s.ix :=
    processItems_inv (fun s => NoOrphans disk.dir s.ix) NoOrphans.step (.construct hnew) hbefore
  have hcount : NoOrphans disk.dir (s.countItem env).ix := hs.countItem
  have hstep := processItem_step hthrows (by simp)
  refine ⟨_, hcook, ?_⟩
  cases hstep with
  | early hreach => exact iff_of_true hcount.flushToDisk.written fun h => absurd h hreach
  | @late msg wordsCnt recorded ix' hreach htext =>
    obtain ⟨zones, dict, htext⟩ := addText_eq_some htext
    have hkept : ∀ k items, disk.dir.file k = some items → ix'.dir.file k = some items := by
      rw [htext.dir]
      exact hcount.kept
    have hsize : DynDocStorage.size ix'.docStore = DynDocStorage.size s.ix.docStore := by
      rw [htext.docStore, docStore_countItem]
    -- The number is below the size only where it has wrapped.
    have hnumber : (UInt32.ofNat (DynDocStorage.size s.ix.docStore)).toNat
        < DynDocStorage.size s.ix.docStore ↔ 2 ^ 32 ≤ DynDocStorage.size s.ix.docStore := by
      rw [UInt32.toNat_ofNat']
      exact ⟨fun h => Nat.le_of_not_lt fun hlt => absurd (Nat.mod_eq_of_lt hlt) (Nat.ne_of_lt h),
        fun h => Nat.lt_of_lt_of_le (Nat.mod_lt _ (by decide)) h⟩
    have hold : ∀ items, WrittenFile disk.dir ix'.dir items →
        Below (DynDocStorage.size s.ix.docStore) items := by
      rw [htext.dir, ← docStore_countItem env s]
      exact hcount.written
    have hmemory := htext.memory hcount.memory
    rw [htext.indexable_iff, docStore_countItem, hnumber] at hmemory
    have hafter : ix'.flushToDisk.docStore = ix'.docStore := rfl
    simp only [hafter, hsize]
    constructor
    · exact fun h _ =>
        hmemory.mp (h ix'.invIdx ((writtenFile_flushToDisk hkept _).mpr (Or.inr rfl)))
    · intro h items hitems
      rcases (writtenFile_flushToDisk hkept items).mp hitems with hwritten | rfl
      · exact hold items hwritten
      · exact hmemory.mpr (h hreach)

/-! ## An item without its video -/

/-- The title is optional, the video is necessary. -/
def videoConfig : Config :=
  { titleConfig with
    trashZones :=
      [{ name := "video_id", path := ["video_id"], isOptional := false, needSave := true }] }

theorem failsAt_withoutVideo : FailsAt .oneWord videoConfig (oneFile [titled])
    (empty videoConfig) (.start (empty videoConfig)) titled where
  reached := ⟨[], [], rfl, rfl⟩
  throws := ⟨_, rfl⟩

/-- What the handler leaves of a run over this item. -/
def leftWithoutVideo : Failure :=
  match cook mergeSorter 0 .oneWord videoConfig (oneFile [titled]) (empty videoConfig) with
  | .exception f => f
  | _ => ⟨"", empty videoConfig⟩

/-- The title's entry is flushed, and there is no document for it. -/
theorem not_below_withoutVideo : ¬ ∀ (S : StdSort) (fuel : Nat) (env : Env) (config : Config)
    (raw : RawDir) (docStorePath : String) (disk : Disk) (ix : Indexer) (s : ParseState)
    (itemTag : XMLElement), construct config docStorePath disk = some ix →
    FailsAt env config raw ix s itemTag →
    ∃ f, cook S fuel env config raw ix = .exception f ∧
      ∀ items, WrittenFile disk.dir f.ix.dir items →
        Below (DynDocStorage.size f.ix.docStore) items := by
  intro h
  obtain ⟨f, hcook, hbelow⟩ := h mergeSorter 0 .oneWord videoConfig (oneFile [titled]) ""
    Disk.empty (empty videoConfig) (.start (empty videoConfig)) titled rfl
    failsAt_withoutVideo
  have hleft : f = leftWithoutVideo := Outcome.exception.inj (hcook.symm.trans rfl)
  subst hleft
  have hempty := hbelow ((leftWithoutVideo.ix.dir.file 0).getD []) ⟨0, rfl, rfl⟩
  exact absurd (hempty _ (List.mem_singleton.mpr rfl)) (by decide)

theorem failedItem_correct_iff_withoutVideo : ∃ f,
    cook mergeSorter 0 .oneWord videoConfig (oneFile [titled]) (empty videoConfig)
        = .exception f ∧
      ((∀ items, WrittenFile Disk.empty.dir f.ix.dir items →
          Below (DynDocStorage.size f.ix.docStore) items) ↔
        LeavesNothing .oneWord videoConfig (.start (empty videoConfig)) titled) :=
  failedItem_correct_iff mergeSorter 0 .oneWord videoConfig (oneFile [titled])
    (construct_empty videoConfig "") failsAt_withoutVideo

end Amigos.Indexer
