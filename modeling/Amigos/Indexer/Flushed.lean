import Amigos.Indexer.MergeOrder
import Amigos.Indexer.History

/-!
# A raw index file, read to its end (`RawIndex`)

`_flushToDisk` writes whatever the index holds, and `cook` calls it behind the parsing and in its
handler without a look at the index. `RawIndex` counts the items down from the trailer; it reads
the first token in its constructor, and drops what `readNextToken` answers there. For the file of
an empty index the answer is that there is none: `curTok` stays as it was allocated, and the
counter has gone from zero to the largest `size_t`, so that from then on the file never runs out.

`RawIndex.deliver` is what one gets who opens a file and asks until nothing is left. A reader
delivers as many items as its counter says (`length_deliver`), whatever it reads, and this alone
decides between the files: `delivered_iff`. The merge asks in the same way, and ends where every
file delivers its items, `allDelivered_iff`.

That the tokens of a file are in order is what the runs keep, and what an exception keeps as well
(`InOrder.cook`). That there are any is not: `cook_of_empty`.
-/

set_option autoImplicit false

namespace Amigos.Indexer

open Amigos.Lib Amigos.Index

/-! ## The reader and its user -/

/-- The items of an open file: the one at `curTok`, and so on for as long as `readNextToken` says
that there is one more. A file that has no token has to say so when it is asked. -/
def RawIndex.deliver : Nat → RawIndex → Option (List IdxItem)
  | 0, _ => none
  | fuel + 1, r =>
    match r.curTok with
    | some token => do
      let (entries, r) ← r.readTokEntries []
      let (more, r) ← r.readNextToken
      if more then (⟨token, entries⟩ :: ·) <$> r.deliver fuel else some [⟨token, entries⟩]
    | none => do
      let (more, r) ← r.readNextToken
      if more then r.deliver fuel else some []

/-- An index in memory: `_invIdx` is an `std::map`, so each token is there once, in its place. -/
structure InvIdx where
  items : List IdxItem
  strict : StrictTokens items

namespace InvIdx

/-- What `_flushToDisk` writes of it. -/
def file (idx : InvIdx) : Bytes := rawIndexBytes idx.items

/-- **What is written is delivered**, in its order and with nothing behind it. -/
def Delivered (idx : InvIdx) : Prop :=
  ∃ r fuel, RawIndex.ofFile idx.file = some r ∧ r.deliver fuel = some idx.items

/-- **When it is**: there is an item, and all counts fit their fields. -/
structure Countable (idx : InvIdx) : Prop where
  nonempty : idx.items ≠ []
  count : idx.items.length < 2 ^ 32
  fits : ∀ it ∈ idx.items, it.Fits

end InvIdx

/-- **The raw files of a directory do their work**: each delivers what it was given, and the merge
of all of them comes to its end. -/
structure AllDelivered (S : StdSort) (config : Config) (indexes : List InvIdx) : Prop where
  delivered : ∀ idx ∈ indexes, idx.Delivered
  ends : ∃ fuel out, mergeIndexes S fuel config (indexes.map InvIdx.file) = some out

/-! ## The counter -/

section Counter

variable {r r' : RawIndex} {items : List IdxItem}

theorem readNextToken_false (h : r.readNextToken = some (false, r')) : r.size = 0 := by
  by_contra hne
  rw [RawIndex.readNextToken, if_neg hne] at h
  simp [Option.bind_eq_some_iff] at h

theorem readNextToken_true (h : r.readNextToken = some (true, r')) :
    r'.size.toNat + 1 = r.size.toNat ∧ r'.curTok.isSome = true := by
  have hne : r.size ≠ 0 := by
    intro hzero
    rw [RawIndex.readNextToken, if_pos hzero] at h
    simp at h
  rw [RawIndex.readNextToken, if_neg hne] at h
  simp only [Option.bind_eq_bind, Option.bind_eq_some_iff, Option.pure_def, Option.some.injEq,
    Prod.mk.injEq, true_and] at h
  obtain ⟨⟨token, ifs⟩, -, rfl⟩ := h
  have hle : 1 ≤ r.size.toNat := UInt64.lt_iff_toNat_lt.mp (UInt64.pos_iff_ne_zero.mpr hne)
  have hnat : (r.size - 1).toNat = r.size.toNat - 1 :=
    UInt64.toNat_sub_of_le _ _ (UInt64.le_iff_toNat_le.mpr hle)
  exact ⟨by simp only [hnat]; omega, rfl⟩

theorem readTokEntries_size {es acc : List Entry} (h : r.readTokEntries acc = some (es, r')) :
    r'.size = r.size := by
  simp only [RawIndex.readTokEntries, Option.bind_eq_bind, Option.bind_eq_some_iff,
    Option.pure_def, Option.some.injEq, Prod.mk.injEq] at h
  obtain ⟨_, -, -, rfl⟩ := h
  rfl

theorem readTokEntries_fits {token : UInt32} {es : List Entry}
    (h : r.readTokEntries [] = some (es, r')) : IdxItem.Fits ⟨token, es⟩ := by
  simp only [RawIndex.readTokEntries, Option.bind_eq_bind, Option.bind_eq_some_iff,
    Option.pure_def, Option.some.injEq, Prod.mk.injEq] at h
  obtain ⟨⟨es', ifs⟩, hread, rfl, -⟩ := h
  obtain ⟨hcount, hfits⟩ := fits_of_readEntries (fun e he => absurd he List.not_mem_nil) hread
  exact ⟨hcount, hfits⟩

/-- What a file does when it delivers: one constructor for each way through `deliver`. -/
inductive Delivers : RawIndex → List IdxItem → Prop where
  | next {r r₁ r₂ : RawIndex} {token : UInt32} {es : List Entry} {items : List IdxItem}
      (hcur : r.curTok = some token) (hread : r.readTokEntries [] = some (es, r₁))
      (hnext : r₁.readNextToken = some (true, r₂)) (h : Delivers r₂ items) :
      Delivers r (⟨token, es⟩ :: items)
  | last {r r₁ r₂ : RawIndex} {token : UInt32} {es : List Entry}
      (hcur : r.curTok = some token) (hread : r.readTokEntries [] = some (es, r₁))
      (hnext : r₁.readNextToken = some (false, r₂)) : Delivers r [⟨token, es⟩]
  | first {r r₁ : RawIndex} {items : List IdxItem} (hcur : r.curTok = none)
      (hnext : r.readNextToken = some (true, r₁)) (h : Delivers r₁ items) : Delivers r items
  | nothing {r r₁ : RawIndex} (hcur : r.curTok = none)
      (hnext : r.readNextToken = some (false, r₁)) : Delivers r []

theorem delivers_of_deliver {fuel : Nat} (h : r.deliver fuel = some items) : Delivers r items := by
  induction fuel generalizing r items with
  | zero => cases h
  | succ fuel ih =>
    cases hcur : r.curTok with
    | some token =>
      simp only [RawIndex.deliver, hcur, Option.bind_eq_bind, Option.bind_eq_some_iff] at h
      obtain ⟨⟨es, r₁⟩, hread, ⟨more, r₂⟩, hnext, h⟩ := h
      cases more with
      | true =>
        simp only [if_true, Option.map_eq_map, Option.map_eq_some_iff] at h
        obtain ⟨rest, hrest, rfl⟩ := h
        exact .next hcur hread hnext (ih hrest)
      | false =>
        obtain rfl := Option.some.inj h
        exact .last hcur hread hnext
    | none =>
      simp only [RawIndex.deliver, hcur, Option.bind_eq_bind, Option.bind_eq_some_iff] at h
      obtain ⟨⟨more, r₁⟩, hnext, h⟩ := h
      cases more with
      | true => exact .first hcur hnext (ih h)
      | false =>
        obtain rfl := Option.some.inj h
        exact .nothing hcur hnext

/-- **As many items as the counter says**, and one more if there is a token already. -/
theorem length_deliver (h : Delivers r items) :
    items.length = r.size.toNat + (if r.curTok.isSome then 1 else 0) := by
  induction h with
  | next hcur hread hnext _ ih =>
    obtain ⟨hsize, hsome⟩ := readNextToken_true hnext
    rw [readTokEntries_size hread] at hsize
    simp only [hsome, if_true] at ih
    simp only [hcur, Option.isSome_some, if_true, List.length_cons]
    omega
  | last hcur hread hnext =>
    have hsize := readNextToken_false hnext
    rw [readTokEntries_size hread] at hsize
    simp [hcur, hsize]
  | first hcur hnext _ ih =>
    obtain ⟨hsize, hsome⟩ := readNextToken_true hnext
    simp only [hsome, if_true] at ih
    simp only [hcur, Option.isSome_none, Bool.false_eq_true, if_false]
    omega
  | nothing hcur hnext => simp [hcur, readNextToken_false hnext]

/-- What is delivered fits, as everything that is read. -/
theorem Delivers.fits (h : Delivers r items) : ∀ it ∈ items, it.Fits := by
  induction h with
  | next _ hread _ _ ih => exact List.forall_mem_cons.mpr ⟨readTokEntries_fits hread, ih⟩
  | last _ hread _ => exact List.forall_mem_singleton.mpr (readTokEntries_fits hread)
  | first _ _ _ ih => exact ih
  | nothing _ _ => exact fun it hit => absurd hit List.not_mem_nil

end Counter

/-! ## A file in front of its items -/

theorem Holds.toNat_size {r : RawIndex} {x : Live} (h : Holds r x) :
    r.size.toNat = x.more.length := by
  have hcount := h.count
  rw [h.size, UInt64.toNat_ofNat', Nat.mod_eq_of_lt (by omega)]

/-- **An open file delivers what it holds**, with a pass for each item. -/
theorem Holds.deliver {r : RawIndex} {it : IdxItem} {more : List IdxItem}
    (h : Holds r ⟨it, more⟩) : r.deliver (more.length + 1) = some (it :: more) := by
  induction more generalizing r it with
  | nil =>
    obtain ⟨r₁, hread, hbehind⟩ := h.readTokEntries []
      (by simpa using (h.fits it List.mem_cons_self).count)
    obtain ⟨r₂, hnext⟩ := hbehind.readNextToken_nil
    simp [RawIndex.deliver, h.curTok, hread, hnext]
  | cons next more ih =>
    obtain ⟨r₁, hread, hbehind⟩ := h.readTokEntries []
      (by simpa using (h.fits it List.mem_cons_self).count)
    obtain ⟨r₂, hnext, hholds⟩ := hbehind.readNextToken_cons
    rw [List.length_cons, RawIndex.deliver]
    simp [h.curTok, hread, hnext, ih hholds]

/-- The tokens of an index are 32-bit numbers, each of them once. -/
theorem InvIdx.length_le (idx : InvIdx) : idx.items.length ≤ 2 ^ 32 :=
  length_le_of_increasing
    (idx.strict.imp fun h => UInt32.lt_iff_toNat_lt.mp h) (fun it _ => it.token.toNat_lt)

/-- **Exactly the countable indexes** are delivered. The counter of a file without an item has
wrapped, and there are not so many tokens as it then says. -/
theorem InvIdx.delivered_iff (idx : InvIdx) : idx.Delivered ↔ idx.Countable := by
  constructor
  · rintro ⟨r, fuel, hopen, hdeliver⟩
    have hdelivers := delivers_of_deliver hdeliver
    have hlen := length_deliver hdelivers
    rw [InvIdx.file, rawIndexBytes_eq] at hopen
    cases hread : readable idx.items with
    | nil =>
      obtain rfl := Option.some.inj ((ofFile_nil hread).symm.trans hopen)
      have hle := idx.length_le
      have hwrapped : (0xFFFFFFFFFFFFFFFF : UInt64).toNat = 2 ^ 64 - 1 := rfl
      simp only [hwrapped, Option.isSome_none, Bool.false_eq_true, if_false] at hlen
      omega
    | cons it more =>
      obtain ⟨r', hopen', hholds⟩ := Holds.ofFile hread hdelivers.fits
      obtain rfl := Option.some.inj (hopen'.symm.trans hopen)
      rw [hholds.toNat_size, hholds.curTok] at hlen
      simp only [Option.isSome_some, if_true] at hlen
      have hreadable := length_readable idx.items
      rw [hread, List.length_cons, ← hlen] at hreadable
      refine ⟨fun hnil => ?_, ?_, hdelivers.fits⟩
      · rw [hnil] at hlen
        cases hlen
      · rw [hreadable]
        exact UInt32.toNat_lt _
  · rintro ⟨hne, hcount, hfits⟩
    cases hitems : idx.items with
    | nil => exact absurd hitems hne
    | cons it more =>
      have hread : readable idx.items = it :: more := (readable_of_lt hcount).trans hitems
      obtain ⟨r, hopen, hholds⟩ := Holds.ofFile hread hfits
      refine ⟨r, more.length + 1, ?_, hitems ▸ hholds.deliver⟩
      rw [InvIdx.file, rawIndexBytes_eq]
      exact hopen

/-! ## The merge of raw files -/

/-- **The merge of countable indexes ends**, unless a token has more entries in all of them than a
vector can count. -/
theorem mergeIndexes_ends (S : StdSort) (config : Config) {indexes : List InvIdx}
    (hcount : ∀ idx ∈ indexes, idx.Countable)
    (hbound : ∀ t, entryCount t (indexes.flatMap fun idx => pairs idx.items) < 2 ^ 32) :
    ∃ fuel out, mergeIndexes S fuel config (indexes.map InvIdx.file) = some out := by
  have hfile : indexes.map InvIdx.file = (indexes.map InvIdx.items).map indexBytes := by
    rw [List.map_map]
    exact List.map_congr_left fun idx _ => rawIndexBytes_eq idx.items
  have hread : (indexes.map InvIdx.items).map readable = indexes.map InvIdx.items := by
    rw [List.map_map]
    exact List.map_congr_left fun idx hidx => readable_of_lt (hcount idx hidx).count
  have hlive : livePairs (((indexes.map InvIdx.items).map readable).filterMap Live.ofItems)
      = indexes.flatMap fun idx => pairs idx.items := by
    rw [livePairs_ofItems, hread, List.flatMap_map]
  have hne : ∀ items ∈ indexes.map InvIdx.items, readable items ≠ [] :=
    List.forall_mem_map.mpr fun idx hidx => by
      rw [readable_of_lt (hcount idx hidx).count]
      exact (hcount idx hidx).nonempty
  have hfits : ∀ items ∈ indexes.map InvIdx.items, ∀ it ∈ items, it.Fits :=
    List.forall_mem_map.mpr fun idx hidx => (hcount idx hidx).fits
  obtain ⟨items, hmerges⟩ :=
    Merges.total S (((indexes.map InvIdx.items).map readable).filterMap Live.ofItems)
  obtain ⟨fuel, hrun⟩ := mergeIndexes_eq hne hfits (fun t => hlive ▸ hbound t) config hmerges
  rw [hfile]
  exact ⟨fuel, _, hrun fuel (Nat.le_refl _)⟩

/-- **The raw files of a directory are delivered, and merged to an end, exactly if** each of them
is countable. -/
theorem allDelivered_iff (S : StdSort) (config : Config) (indexes : List InvIdx) :
    ((∀ idx ∈ indexes, idx.Delivered) ↔ ∀ idx ∈ indexes, idx.Countable) ∧
      ((∀ t, entryCount t (indexes.flatMap fun idx => pairs idx.items) < 2 ^ 32) →
        (AllDelivered S config indexes ↔ ∀ idx ∈ indexes, idx.Countable)) := by
  have hdelivered : (∀ idx ∈ indexes, idx.Delivered) ↔ ∀ idx ∈ indexes, idx.Countable :=
    forall₂_congr fun idx _ => idx.delivered_iff
  refine ⟨hdelivered, fun hbound => ⟨fun h => hdelivered.mp h.delivered, fun h => ?_⟩⟩
  exact ⟨hdelivered.mpr h, mergeIndexes_ends S config h hbound⟩

/-- One token, in one document. -/
def oneIdx : InvIdx where
  items := [⟨7, [⟨0, ⟨1, 0, [1]⟩⟩]⟩]
  strict := List.pairwise_singleton _ _

theorem allDelivered_iff_twice : AllDelivered mergeSorter titleConfig [oneIdx, oneIdx] := by
  have hcount : oneIdx.Countable := ⟨by decide, by decide, by decide⟩
  refine ((allDelivered_iff mergeSorter titleConfig [oneIdx, oneIdx]).2 fun t => ?_).mpr ?_
  · have hle : entryCount t ([oneIdx, oneIdx].flatMap fun idx => pairs idx.items) ≤ 2 :=
      List.countP_le_length
    omega
  · exact List.forall_mem_cons.mpr ⟨hcount, List.forall_mem_singleton.mpr hcount⟩

/-! ## What the runs flush -/

theorem exists_token_of_mem_addEntry {token : UInt32} {entry : Entry} {items : List IdxItem}
    {it : IdxItem} (h : it ∈ addEntry token entry items) :
    it.token = token ∨ ∃ old ∈ items, it.token = old.token := by
  induction items with
  | nil => exact Or.inl (congrArg IdxItem.token (List.mem_singleton.mp h))
  | cons x items ih =>
    unfold addEntry at h
    split at h
    · rcases List.mem_cons.mp h with rfl | h
      · exact Or.inl rfl
      · exact Or.inr ⟨it, h, rfl⟩
    · split at h
      · rcases List.mem_cons.mp h with rfl | h
        · exact Or.inr ⟨x, List.mem_cons_self, rfl⟩
        · exact Or.inr ⟨it, List.mem_cons_of_mem _ h, rfl⟩
      · rcases List.mem_cons.mp h with rfl | h
        · exact Or.inr ⟨it, List.mem_cons_self, rfl⟩
        · rcases ih h with heq | ⟨old, hold, heq⟩
          · exact Or.inl heq
          · exact Or.inr ⟨old, List.mem_cons_of_mem _ hold, heq⟩

theorem StrictTokens.addEntry (token : UInt32) (entry : Entry) {items : List IdxItem}
    (h : StrictTokens items) : StrictTokens (Indexer.addEntry token entry items) := by
  induction items with
  | nil => exact List.pairwise_singleton _ _
  | cons x items ih =>
    obtain ⟨hx, hitems⟩ := List.pairwise_cons.mp h
    unfold Indexer.addEntry
    split
    · rename_i hlt
      refine List.pairwise_cons.mpr ⟨fun it hit => ?_, h⟩
      rcases List.mem_cons.mp hit with rfl | hit
      · exact hlt
      · exact hlt.trans (hx it hit)
    · rename_i hge
      split
      · exact List.pairwise_cons.mpr ⟨hx, hitems⟩
      · rename_i hne
        refine List.pairwise_cons.mpr ⟨fun it hit => ?_, ih hitems⟩
        rcases exists_token_of_mem_addEntry hit with heq | ⟨old, hold, heq⟩
        · rw [heq]
          exact lt_of_le_of_ne (not_lt.mp hge) (Ne.symm hne)
        · rw [heq]
          exact hx old hold

theorem StrictTokens.addEntries {recorded : List (UInt32 × Entry)} {items : List IdxItem}
    (h : StrictTokens items) :
    StrictTokens (recorded.foldl (fun idx r => Indexer.addEntry r.1 r.2 idx) items) := by
  induction recorded generalizing items with
  | nil => exact h
  | cons r recorded ih => exact ih (h.addEntry r.1 r.2)

/-- The index in memory is one, and so was every index that has been flushed. -/
structure InOrder (ix : Indexer) : Prop where
  memory : StrictTokens ix.invIdx
  files : ∀ items, some items ∈ ix.dir.flushFiles → StrictTokens items

theorem mem_of_mem_putFirstEmpty {items x : List IdxItem} {files : List (Option (List IdxItem))}
    (h : some x ∈ putFirstEmpty items files) : x = items ∨ some x ∈ files := by
  induction files with
  | nil => exact Or.inl (Option.some.inj (List.mem_singleton.mp h))
  | cons file files ih =>
    cases file with
    | none => simpa [putFirstEmpty] using h
    | some file =>
      rcases List.mem_cons.mp h with heq | h
      · exact Or.inr (heq ▸ List.mem_cons_self)
      · exact (ih h).imp id (List.mem_cons_of_mem _)

theorem InOrder.flushToDisk {ix : Indexer} (h : InOrder ix) : InOrder ix.flushToDisk where
  memory := List.Pairwise.nil
  files items hitems := by
    rcases mem_of_mem_putFirstEmpty hitems with rfl | hold
    · exact h.memory
    · exact h.files items hold

theorem InOrder.addText {env : TextEnv} {ix ix' : Indexer} {texts : List Bytes}
    {wordsCnt : List UInt16} {recorded : List (UInt32 × Entry)} (h : InOrder ix)
    (htext : ix.addText env texts = some (wordsCnt, recorded, ix')) : InOrder ix' := by
  obtain ⟨zones, dict, hadds⟩ := addText_eq_some htext
  refine ⟨?_, ?_⟩
  · rw [hadds.invIdx]
    exact h.memory.addEntries
  · rw [hadds.dir]
    exact h.files

section Runs

variable {env : Env} {config : Config}

/-- **An item**, whether it throws or not. -/
theorem InOrder.processItem {s : ParseState} (h : InOrder s.ix) (itemTag : XMLElement) :
    (Indexer.processItem env config s itemTag).Ends (fun s' => InOrder s'.ix)
      (fun f => InOrder f.ix) := by
  have hcount : InOrder (s.countItem env).ix := by
    rcases countItem_ix env s with hix | hix <;> rw [hix]
    · exact h
    · exact h.flushToDisk
  generalize ho : Indexer.processItem env config s itemTag = o
  by_cases hdef : o = .undefined
  · rw [hdef]
    trivial
  cases processItem_step ho hdef with
  | early _ => exact hcount
  | late _ htext => exact hcount.addText htext
  | skipped _ => exact ⟨hcount.memory, hcount.files⟩
  | stored _ _ htext _ =>
    have hix := hcount.addText htext
    exact ⟨hix.memory, hix.files⟩

theorem InOrder.processItems {items : List XMLElement} {s : ParseState} (h : InOrder s.ix) :
    (Indexer.processItems env config s items).Ends (fun s' => InOrder s'.ix)
      (fun f => InOrder f.ix) := by
  induction items generalizing s with
  | nil => exact h
  | cons itemTag items ih => exact (h.processItem itemTag).bind fun s' hs' => ih hs'

theorem InOrder.parseFile {s : ParseState} (h : InOrder s.ix) (path : String)
    (kind : RawFileKind) : (Indexer.parseFile env config s path kind).Ends
      (fun s' => InOrder s'.ix) (fun f => InOrder f.ix) := by
  cases kind with
  | notRegular => exact h
  | malformed => exact h
  | xml top =>
    have hget : (getNecessaryTag top "items").Ends (fun _ => True) (fun _ => True) := by
      cases getNecessaryTag top "items" <;> trivial
    refine Outcome.Ends.mapException (Outcome.Ends.bind (hget.mapException fun _ _ => ?_)
      fun itemsTag _ => h.processItems) fun f hf => hf
    exact h

theorem InOrder.parseFiles {files : List (String × RawFileKind)} {s : ParseState}
    (h : InOrder s.ix) : (Indexer.parseFiles env config s files).Ends
      (fun s' => InOrder s'.ix) (fun f => InOrder f.ix) := by
  induction files generalizing s with
  | nil => exact h
  | cons file files ih => exact (h.parseFile file.1 file.2).bind fun s' hs' => ih hs'

theorem InOrder.parseRawData {raw : RawDir} {ix : Indexer} (h : InOrder ix) :
    (Indexer.parseRawData env config raw ix).Ends InOrder (fun f => InOrder f.ix) := by
  unfold Indexer.parseRawData
  cases raw.kind with
  | missing => exact h
  | notDirectory => exact h
  | files entries =>
    have hstart : InOrder (ParseState.start ix).ix := h
    exact hstart.parseFiles.bind fun s' hs' => hs'

/-- **Every file that `cook` flushes**, the one of its handler too, holds an index with its tokens
in order. -/
theorem InOrder.cook {S : StdSort} {fuel : Nat} {raw : RawDir} {ix : Indexer} (h : InOrder ix) :
    (Indexer.cook S fuel env config raw ix).Ends InOrder (fun f => InOrder f.ix) := by
  refine Outcome.Ends.mapException (h.parseRawData.bind fun ix' hix' => ?_)
    fun f hf => hf.flushToDisk
  have hflushed := hix'.flushToDisk
  unfold mergeOnDisk
  cases mergeIndexes S fuel config ix'.flushToDisk.dir.rawFiles with
  | none => trivial
  | some out => exact ⟨hflushed.memory, hflushed.files⟩

end Runs

/-! ## An empty index -/

/-- The index behind a flush. -/
def emptyIdx : InvIdx where
  items := []
  strict := List.Pairwise.nil

/-- **Its file is not delivered.** -/
theorem not_allDelivered_empty :
    ¬ ∀ (S : StdSort) (config : Config) (indexes : List InvIdx), AllDelivered S config indexes := by
  intro hclaim
  have hdelivered := (hclaim mergeSorter titleConfig [emptyIdx]).delivered emptyIdx
    (List.mem_singleton_self _)
  exact ((InvIdx.delivered_iff emptyIdx).mp hdelivered).nonempty rfl

/-- A free name is found for a file, whatever is there. -/
theorem mem_putFirstEmpty {items : List IdxItem} {files : List (Option (List IdxItem))} :
    some items ∈ (putFirstEmpty items files).takeWhile Option.isSome := by
  induction files with
  | nil => exact List.mem_singleton_self _
  | cons file files ih =>
    cases file with
    | none => exact List.mem_cons_self
    | some file => exact List.mem_cons_of_mem _ ih

/-- **A flush of an empty index leaves nothing that can be merged**, with any fuel. -/
theorem mergeOnDisk_of_empty (S : StdSort) (fuel : Nat) (config : Config) {ix : Indexer}
    (hempty : ix.invIdx = []) : ix.flushToDisk.mergeOnDisk S fuel config = .undefined := by
  have hfile : rawIndexBytes [] ∈ ix.flushToDisk.dir.rawFiles := by
    refine List.mem_append_right _ (List.mem_map_of_mem (List.mem_filterMap.mpr ⟨some [], ?_, rfl⟩))
    rw [← hempty]
    exact mem_putFirstEmpty
  rw [rawIndexBytes_eq] at hfile
  rw [mergeOnDisk, mergeIndexes_eq_none hfile (ofFile_nil rfl) rfl]
  rfl

/-- So `cook` does not come to an end when it has parsed items and recorded nothing of them since
the last flush. -/
theorem cook_of_empty (S : StdSort) (fuel : Nat) {env : Env} {config : Config} {raw : RawDir}
    {ix ix' : Indexer} (hparse : parseRawData env config raw ix = .ok ix')
    (hempty : ix'.invIdx = []) : cook S fuel env config raw ix = .undefined := by
  simp only [cook, hparse, Outcome.ok_bind, mergeOnDisk_of_empty S fuel config hempty]
  rfl

end Amigos.Indexer
