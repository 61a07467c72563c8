import Mathlib.Data.List.Basic
import Amigos.Index.Storage

/-!
# The stores that the indexer fills (`DynDocStorage`, `DynPostingStore`)

The document store is loaded when the indexer is constructed, gets a row for every document, and
is written back as a whole when it is destroyed. `load_save` says what the next reader finds: all
the rows, or, when there are more than a 32-bit count can say, the first ones.

The posting store is the postings file, open for appending, and a counter of its own that is
taken for the length of the file. `offsetsCorrect_iff` says exactly when it is.
-/

set_option autoImplicit false

namespace Amigos.Indexer

open Amigos.Lib Amigos.Index

/-! ## The document store -/

namespace DynDocStorage

/-- The constructor: an exception of `_load` leaves an empty store. -/
def create (config : Config) (path : String) (file : Option Bytes) : Option DocStorage := do
  match ← (DocStorage.sized config).load path file with
  | .ok st => return st
  | .error _ => return DocStorage.sized config

/-- `addDoc`. -/
def addDoc (st : DocStorage) (docId : UInt32) (nZones : List UInt32) (tZonesWCnt : List UInt16) :
    Except String DocStorage :=
  if nZones.length ≠ st.nZones.length ∨ tZonesWCnt.length ≠ st.tZonesWCnt.length then
    throw "Cannot add new document to DynDocStorage, there is incorrect count of numeric zones"
  else return {
    docIds := st.docIds ++ [docId]
    nZones := st.nZones.zipWith (fun vec val => vec ++ [val]) nZones
    tZonesWCnt := st.tZonesWCnt.zipWith (fun vec val => vec ++ [val]) tZonesWCnt }

def size (st : DocStorage) : Nat := st.docIds.length

/-- What the destructor writes: `count` values of every vector, where `count` is 32 bits wide. -/
def save (st : DocStorage) : Bytes :=
  let count := UInt32.ofNat st.docIds.length
  let ofs := writeTo [] (UInt32.ofNat st.nZones.length)
  let ofs := writeTo ofs (UInt32.ofNat st.tZonesWCnt.length)
  let ofs := writeTo ofs count
  let ofs := ofs ++ (st.docIds.take count.toNat).flatMap podBytes
  let ofs := ofs ++ st.nZones.flatMap fun vec => (vec.take count.toNat).flatMap podBytes
  ofs ++ st.tZonesWCnt.flatMap fun vec => (vec.take count.toNat).flatMap podBytes

end DynDocStorage

/-- A store with a column for every zone, and all columns of one length. -/
structure Tabular (config : Config) (st : DocStorage) : Prop where
  numZones : st.nZones.length = config.numZones.length
  textZones : st.tZonesWCnt.length = config.textZones.length
  nColumns : ∀ vec ∈ st.nZones, vec.length = st.docIds.length
  tColumns : ∀ vec ∈ st.tZonesWCnt, vec.length = st.docIds.length

/-- The first `n` rows. -/
def DocStorage.takeRows (n : Nat) (st : DocStorage) : DocStorage :=
  { docIds := st.docIds.take n
    nZones := st.nZones.map (·.take n)
    tZonesWCnt := st.tZonesWCnt.map (·.take n) }

theorem DocStorage.takeRows_of_le {config : Config} {st : DocStorage} (h : Tabular config st)
    {n : Nat} (hn : st.docIds.length ≤ n) : DocStorage.takeRows n st = st := by
  have hcols : ∀ {α : Type} (cols : List (List α)), (∀ vec ∈ cols, vec.length = st.docIds.length) →
      cols.map (·.take n) = cols := by
    intro α cols hall
    refine (List.map_congr_left fun vec hvec => ?_).trans (List.map_id _)
    exact List.take_of_length_le (by rw [hall vec hvec]; exact hn)
  cases st with
  | mk docIds nZones tZonesWCnt =>
    simp only [takeRows, List.take_of_length_le hn, hcols _ h.nColumns, hcols _ h.tColumns]

theorem Tabular.sized (config : Config) : Tabular config (DocStorage.sized config) where
  numZones := List.length_replicate
  textZones := List.length_replicate
  nColumns vec hvec := by rw [List.eq_of_mem_replicate hvec]; rfl
  tColumns vec hvec := by rw [List.eq_of_mem_replicate hvec]; rfl

theorem docIds_addDoc {st st' : DocStorage} {docId : UInt32} {nZones : List UInt32}
    {tZonesWCnt : List UInt16} (hadd : DynDocStorage.addDoc st docId nZones tZonesWCnt = .ok st') :
    st'.docIds = st.docIds ++ [docId] := by
  unfold DynDocStorage.addDoc at hadd
  split at hadd
  · cases hadd
  · cases hadd
    rfl

/-- Adding a row to a table gives a table. -/
theorem Tabular.addDoc {config : Config} {st st' : DocStorage} (h : Tabular config st)
    {docId : UInt32} {nZones : List UInt32} {tZonesWCnt : List UInt16}
    (hadd : DynDocStorage.addDoc st docId nZones tZonesWCnt = .ok st') : Tabular config st' := by
  have hcols : ∀ {α : Type} {cols : List (List α)} {vals : List α},
      (∀ vec ∈ cols, vec.length = st.docIds.length) →
      ∀ vec ∈ cols.zipWith (fun vec val => vec ++ [val]) vals,
        vec.length = st.docIds.length + 1 := by
    intro α cols vals hall vec hvec
    obtain ⟨i, hi, rfl⟩ := List.getElem_of_mem hvec
    rw [List.getElem_zipWith, List.length_append, hall _ (List.getElem_mem _)]
    rfl
  unfold DynDocStorage.addDoc at hadd
  split at hadd
  · cases hadd
  · rename_i hsize
    rw [not_or, not_not, not_not] at hsize
    cases hadd
    refine ⟨?_, ?_, ?_, ?_⟩
    · rw [List.length_zipWith, hsize.1, Nat.min_self]; exact h.numZones
    · rw [List.length_zipWith, hsize.2, Nat.min_self]; exact h.textZones
    · simpa using hcols h.nColumns
    · simpa using hcols h.tColumns

theorem decodes_loadColumns {α : Type} [Pod α] [Inhabited α] (n : Nat) (cols : List (List α))
    (h : ∀ vec ∈ cols, n ≤ vec.length) :
    Decodes (DocStorage.loadColumns 0 n (List.replicate cols.length []))
      (cols.flatMap fun vec => (vec.take n).flatMap podBytes) (cols.map (·.take n)) := by
  induction cols with
  | nil => exact Decodes.pure []
  | cons vec cols ih =>
    have hrest := ih fun v hv => h v (List.mem_cons_of_mem _ hv)
    have hvals := decodes_readMany (vec.take n)
    rw [List.length_take, Nat.min_eq_left (h vec List.mem_cons_self)] at hvals
    exact hvals.bind (hrest.map fun s => by simp [resize])

/-- The saved bytes behind the header. -/
def rowsBytes (st : DocStorage) : Bytes :=
  let n := (UInt32.ofNat st.docIds.length).toNat
  podBytes (UInt32.ofNat st.docIds.length) ++ ((st.docIds.take n).flatMap podBytes ++
    ((st.nZones.flatMap fun vec => (vec.take n).flatMap podBytes) ++
      st.tZonesWCnt.flatMap fun vec => (vec.take n).flatMap podBytes))

theorem save_eq (st : DocStorage) : DynDocStorage.save st
    = podBytes (UInt32.ofNat st.nZones.length) ++
      (podBytes (UInt32.ofNat st.tZonesWCnt.length) ++ rowsBytes st) := by
  simp only [DynDocStorage.save, writeTo, rowsBytes, List.nil_append, List.append_assoc]

theorem decodes_loadRows {config : Config} {st : DocStorage} (h : Tabular config st) :
    Decodes (DocStorage.sized config).loadRows (rowsBytes st)
      (DocStorage.takeRows (UInt32.ofNat st.docIds.length).toNat st) := by
  obtain ⟨n, hcount⟩ : ∃ n, (UInt32.ofNat st.docIds.length).toNat = n := ⟨_, rfl⟩
  have hn : n ≤ st.docIds.length := by
    rw [← hcount, UInt32.toNat_ofNat']; exact Nat.mod_le _ _
  have hn32 : ¬ 2 ^ 32 ≤ n := Nat.not_le.mpr (hcount ▸ (UInt32.ofNat st.docIds.length).toNat_lt)
  have hids := decodes_readMany (st.docIds.take n)
  have hnum := decodes_loadColumns n st.nZones fun vec hv => by rw [h.nColumns vec hv]; exact hn
  have htext := decodes_loadColumns n st.tZonesWCnt fun vec hv => by
    rw [h.tColumns vec hv]; exact hn
  rw [List.length_take, Nat.min_eq_left hn] at hids
  rw [h.numZones] at hnum
  rw [h.textZones] at htext
  rw [rowsBytes, hcount]
  refine (decodes_readFrom _).bind ?_
  simp only [hcount, DocStorage.sized, List.length_nil, Nat.zero_add, if_neg hn32,
    List.nil_append, Option.bind_eq_bind, Option.pure_def]
  refine hids.bind ?_
  dsimp only
  refine hnum.bind ?_
  dsimp only
  exact htext.map fun _ => rfl

/-- **What the next reader finds** of a saved store: the rows that its count speaks of. -/
theorem load_save {config : Config} {st : DocStorage} (h : Tabular config st) (path : String) :
    (DocStorage.sized config).load path (some (DynDocStorage.save st))
      = some (.ok (DocStorage.takeRows (UInt32.ofNat st.docIds.length).toNat st)) := by
  have hfield : ∀ m < 2 ^ 31, (UInt32.ofNat m).toNat = m := fun m hm => by
    rw [UInt32.toNat_ofNat', Nat.mod_eq_of_lt (by omega)]
  have hunread := (IStream.unread_mk (DynDocStorage.save st)).trans (save_eq st)
  obtain ⟨s₁, hn, h₁⟩ := (decodes_readFrom _).run hunread
  obtain ⟨s₂, ht, h₂⟩ := (decodes_readFrom _).run h₁
  obtain ⟨s₃, hrows, -⟩ := (decodes_loadRows h).run (h₂.trans (List.append_nil _).symm)
  rw [h.numZones] at hn
  rw [h.textZones] at ht
  have hcols : (DocStorage.sized config).nZones.length = config.numZones.length ∧
      (DocStorage.sized config).tZonesWCnt.length = config.textZones.length :=
    ⟨List.length_replicate, List.length_replicate⟩
  simp only [DocStorage.load, hn, ht, hrows, Option.bind_eq_bind, Option.bind_some, hcols,
    hfield _ config.numZones_lt, hfield _ config.textZones_lt, ne_eq, not_true_eq_false, if_false,
    Option.pure_def]

/-- A store that its count can speak of is found again as it was. -/
theorem load_save_self {config : Config} {st : DocStorage} (h : Tabular config st)
    (hrows : st.docIds.length < 2 ^ 32) (path : String) :
    (DocStorage.sized config).load path (some (DynDocStorage.save st)) = some (.ok st) := by
  rw [load_save h, UInt32.toNat_ofNat', Nat.mod_eq_of_lt hrows,
    DocStorage.takeRows_of_le h (Nat.le_refl _)]

theorem create_save {config : Config} {st : DocStorage} (h : Tabular config st)
    (hrows : st.docIds.length < 2 ^ 32) (path : String) :
    DynDocStorage.create config path (some (DynDocStorage.save st)) = some st := by
  simp only [DynDocStorage.create, load_save_self h hrows, Option.bind_eq_bind, Option.bind_some,
    Option.pure_def]

theorem length_of_loadColumns {α : Type} [Pod α] [Inhabited α] {start count : Nat} :
    ∀ {cols cols' : List (List α)} {ifs ifs' : IStream},
      DocStorage.loadColumns start count cols ifs = some (cols', ifs') →
      cols'.length = cols.length ∧ ∀ vec ∈ cols', vec.length = start + count := by
  intro cols
  induction cols with
  | nil =>
    intro cols' ifs ifs' h
    simp only [DocStorage.loadColumns, Option.some.injEq, Prod.mk.injEq] at h
    rw [← h.1]
    exact ⟨rfl, fun vec hvec => absurd hvec List.not_mem_nil⟩
  | cons vec cols ih =>
    intro cols' ifs ifs' h
    simp only [DocStorage.loadColumns, Option.bind_eq_bind, Option.bind_eq_some_iff,
      Option.pure_def, Option.some.injEq, Prod.mk.injEq] at h
    obtain ⟨⟨vals, ifs₁⟩, hvals, ⟨rest, ifs₂⟩, hrest, rfl, -⟩ := h
    obtain ⟨hlen, hall⟩ := ih hrest
    refine ⟨by rw [List.length_cons, List.length_cons, hlen],
      List.forall_mem_cons.mpr ⟨?_, hall⟩⟩
    rw [List.length_append, length_of_readMany hvals, resize, List.length_append,
      List.length_take, List.length_replicate]
    omega

/-- Whatever is loaded into an empty table is a table. -/
theorem Tabular.loadRows {config : Config} {ifs ifs' : IStream} {st : DocStorage}
    (h : (DocStorage.sized config).loadRows ifs = some (st, ifs')) : Tabular config st := by
  simp only [DocStorage.loadRows, Option.bind_eq_bind, Option.bind_eq_some_iff] at h
  obtain ⟨⟨count, ifs₁⟩, -, h⟩ := h
  split at h
  · cases h
  simp only [Option.bind_eq_some_iff, Option.pure_def, Option.some.injEq, Prod.mk.injEq] at h
  obtain ⟨⟨ids, ifs₂⟩, hids, ⟨nZones, ifs₃⟩, hnum, ⟨tZonesWCnt, ifs₄⟩, htext, rfl, -⟩ := h
  obtain ⟨hnumLen, hnumAll⟩ := length_of_loadColumns hnum
  obtain ⟨htextLen, htextAll⟩ := length_of_loadColumns htext
  have hrows : ((DocStorage.sized config).docIds ++ ids).length
      = (DocStorage.sized config).docIds.length + count.toNat := by
    rw [List.length_append, length_of_readMany hids]
  refine ⟨hnumLen.trans List.length_replicate, htextLen.trans List.length_replicate, ?_, ?_⟩
  · exact fun vec hvec => (hnumAll vec hvec).trans hrows.symm
  · exact fun vec hvec => (htextAll vec hvec).trans hrows.symm

/-- The store begins as a table, whatever was saved. -/
theorem Tabular.create {config : Config} {path : String} {file : Option Bytes} {st : DocStorage}
    (h : DynDocStorage.create config path file = some st) : Tabular config st := by
  simp only [DynDocStorage.create, Option.bind_eq_bind, Option.bind_eq_some_iff] at h
  obtain ⟨loaded, hload, h⟩ := h
  cases loaded with
  | error msg =>
    cases h
    exact .sized config
  | ok loaded =>
    cases h
    cases file with
    | none => simp [DocStorage.load] at hload
    | some data =>
      simp only [DocStorage.load, Option.bind_eq_bind, Option.bind_eq_some_iff] at hload
      obtain ⟨⟨nZonesCnt, ifs₁⟩, -, ⟨tZonesCnt, ifs₂⟩, -, hload⟩ := hload
      split at hload
      · cases hload
      split at hload
      · cases hload
      simp only [Option.bind_eq_some_iff, Option.pure_def, Option.some.injEq, Except.ok.injEq]
        at hload
      obtain ⟨⟨loaded, ifs₃⟩, hrows, rfl⟩ := hload
      exact .loadRows hrows

/-! ## The posting store -/

/-- The postings file, and what is taken for its length. -/
structure DynPostingStore where
  commonSize : UInt32
  ofs : Bytes
  deriving DecidableEq, Repr

namespace DynPostingStore

/-- The constructor opens in append mode, and sets the counter to 0. -/
def create (file : Bytes) : DynPostingStore := { commonSize := 0, ofs := file }

/-- `addTokenPosting`, with the offset it delivers. -/
def addTokenPosting (st : DynPostingStore) (zonesPosting : List (List UInt16)) :
    UInt64 × DynPostingStore :=
  (st.commonSize.toUInt64, zonesPosting.foldl (fun st vec =>
    { commonSize := UInt32.ofNat (st.commonSize.toNat + vec.length)
      ofs := st.ofs ++ vec.flatMap podBytes }) st)

theorem addTokenPosting_eq (st : DynPostingStore) (zonesPosting : List (List UInt16)) :
    st.addTokenPosting zonesPosting = (st.commonSize.toUInt64,
      { commonSize := st.commonSize + UInt32.ofNat zonesPosting.flatten.length
        ofs := st.ofs ++ zonesPosting.flatten.flatMap podBytes }) := by
  rw [addTokenPosting, Prod.mk.injEq]
  refine ⟨rfl, ?_⟩
  induction zonesPosting generalizing st with
  | nil => simp
  | cons vec rest ih =>
    rw [List.foldl_cons, ih]
    simp [UInt32.ofNat_add, UInt32.add_assoc]

end DynPostingStore

/-- The calls of a run, each with the values it writes, one list for every zone. -/
abbrev PostingCalls := List (List (List UInt16))

/-- The store that has been opened on `file` and has served `calls`. -/
def postingStoreAfter (file : Bytes) (calls : PostingCalls) : DynPostingStore :=
  calls.foldl (fun st call => (st.addTokenPosting call).2) (.create file)

/-- How many values have been written. -/
def postingCount (calls : PostingCalls) : Nat := (calls.map fun call => call.flatten.length).sum

/-- The offset that a call behind `calls` is given. -/
def nextOffset (file : Bytes) (calls : PostingCalls) (call : List (List UInt16)) : Nat :=
  ((postingStoreAfter file calls).addTokenPosting call).1.toNat

theorem postingStoreAfter_eq (file : Bytes) (calls : PostingCalls) :
    postingStoreAfter file calls
      = { commonSize := UInt32.ofNat (postingCount calls)
          ofs := file ++ calls.flatten.flatten.flatMap podBytes } := by
  have hfold : ∀ (calls : PostingCalls) (st : DynPostingStore),
      calls.foldl (fun st call => (st.addTokenPosting call).2) st
        = { commonSize := st.commonSize + UInt32.ofNat (postingCount calls)
            ofs := st.ofs ++ calls.flatten.flatten.flatMap podBytes } := by
    intro calls
    induction calls with
    | nil => intro st; simp [postingCount]
    | cons call calls ih =>
      intro st
      rw [List.foldl_cons, ih, DynPostingStore.addTokenPosting_eq]
      simp [postingCount, UInt32.ofNat_add, UInt32.add_assoc]
  rw [postingStoreAfter, hfold]
  simp [DynPostingStore.create]

theorem nextOffset_eq (file : Bytes) (calls : PostingCalls) (call : List (List UInt16)) :
    nextOffset file calls call = postingCount calls % 2 ^ 32 := by
  rw [nextOffset, DynPostingStore.addTokenPosting_eq, postingStoreAfter_eq]
  simp

/-- The file has grown by two bytes for every value. -/
theorem length_postingStoreAfter (file : Bytes) (calls : PostingCalls) :
    (postingStoreAfter file calls).ofs.length = file.length + 2 * postingCount calls := by
  have hcount : calls.flatten.flatten.length = postingCount calls := by
    induction calls with
    | nil => rfl
    | cons call calls ih => simpa [postingCount] using ih
  rw [postingStoreAfter_eq, List.length_append, length_flatMap_podBytes, width_UInt16, hcount,
    Nat.mul_comm]

/-- **What the offsets should be**, for the calls that write anything: where the first value
stands, in 16-bit units. Then no call's slice meets another's, or what was there before. -/
structure OffsetsCorrect (file : Bytes) (calls : PostingCalls) : Prop where
  first : ∀ {before call behind}, calls = before ++ call :: behind → call.flatten ≠ [] →
    2 * nextOffset file before call = (postingStoreAfter file before).ofs.length
  earlier : ∀ {before call behind}, calls = before ++ call :: behind → call.flatten ≠ [] →
    file.length ≤ 2 * nextOffset file before call
  disjoint : ∀ {before call between call' behind},
    calls = before ++ call :: (between ++ call' :: behind) → call.flatten ≠ [] →
    call'.flatten ≠ [] →
    nextOffset file before call + call.flatten.length
      ≤ nextOffset file (before ++ call :: between) call'

/-- **When they are**: whatever is written, is written to a file that was empty, behind fewer than
2^32 values. -/
def OffsetCondition (file : Bytes) (calls : PostingCalls) : Prop :=
  ∀ {before call behind}, calls = before ++ call :: behind → call.flatten ≠ [] →
    file = [] ∧ postingCount before < 2 ^ 32

theorem postingCount_append (before : PostingCalls) (call : List (List UInt16))
    (between : PostingCalls) : postingCount (before ++ call :: between)
      = postingCount before + call.flatten.length + postingCount between := by
  simp [postingCount, Nat.add_assoc]

/-- **The offsets are correct exactly under the condition.** -/
theorem offsetsCorrect_iff (file : Bytes) (calls : PostingCalls) :
    OffsetsCorrect file calls ↔ OffsetCondition file calls := by
  constructor
  -- A remainder that is the length of the file plus the count is the count, and the file is empty.
  · intro h before call behind hcalls hcall
    have hfirst := h.first hcalls hcall
    rw [nextOffset_eq, length_postingStoreAfter] at hfirst
    have hmod := Nat.mod_le (postingCount before) (2 ^ 32)
    have hlt := Nat.mod_lt (postingCount before) (Nat.two_pow_pos 32)
    exact ⟨List.length_eq_zero_iff.mp (by omega), by omega⟩
  · intro h
    refine ⟨fun hcalls hcall => ?_, fun hcalls hcall => ?_, fun hcalls hcall hcall' => ?_⟩
    · obtain ⟨hfile, hlt⟩ := h hcalls hcall
      rw [nextOffset_eq, length_postingStoreAfter, Nat.mod_eq_of_lt hlt, hfile, List.length_nil,
        Nat.zero_add]
    · obtain ⟨hfile, -⟩ := h hcalls hcall
      rw [hfile]
      exact Nat.zero_le _
    · obtain ⟨-, hlt⟩ := h hcalls hcall
      rw [← List.cons_append, ← List.append_assoc] at hcalls
      obtain ⟨-, hlt'⟩ := h hcalls hcall'
      rw [nextOffset_eq, nextOffset_eq, Nat.mod_eq_of_lt hlt, Nat.mod_eq_of_lt hlt',
        postingCount_append]
      omega

/-- A second run on a postings file of one value begins at offset 0 again. -/
theorem not_offsetsCorrect_second_run : ¬ ∀ (file : Bytes) (calls : PostingCalls),
    OffsetsCorrect file calls := by
  intro h
  have hearlier : ([5, 0] : Bytes).length ≤ 2 * nextOffset [5, 0] [] [[9]] :=
    (h [5, 0] [[[9]]]).earlier rfl (by decide)
  exact absurd hearlier (by decide)

end Amigos.Indexer
