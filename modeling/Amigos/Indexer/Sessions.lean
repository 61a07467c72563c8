import Amigos.Indexer.Run

/-!
# The document store over many sessions (`DynDocStorage`)

A session constructs the store over a file, adds documents, and destroys it; the next session
finds what it has saved. Here the members are changed in place, and an exception carries the store
as it stands when it is thrown: that all columns are as before is then a fact about the order of
checks and changes (`addDocInPlace_eq`, `loadInPlace_eq`).

`HoldsDocs` relates a store to the documents that it stands for, column by column. A call keeps
it, and so does a session, as long as 32 bits can count the rows.
-/

set_option autoImplicit false

namespace Amigos.Indexer

open Amigos.Lib
open Amigos.Index

/-! ## The source, in place -/

/-- The arguments of `addDoc`. -/
structure Doc where
  docId : UInt32
  nZones : List UInt32
  tZonesWCnt : List UInt16
  deriving DecidableEq, Repr

/-- An exception of a call on the store, and the store as the call leaves it. -/
structure Thrown where
  what : String
  store : DocStorage
  deriving DecidableEq, Repr

/-- The loops of `addDoc`: `vals[i]` goes to column `i`. Undefined if there are too few. -/
def pushColumns {α : Type} : List (List α) → List α → Option (List (List α))
  | [], _ => some []
  | _ :: _, [] => none
  | vec :: vecs, val :: vals => do
    let vecs ← pushColumns vecs vals
    return (vec ++ [val]) :: vecs

def addDocInPlace (st : DocStorage) (doc : Doc) : Outcome Thrown DocStorage :=
  if doc.nZones.length ≠ st.nZones.length ∨ doc.tZonesWCnt.length ≠ st.tZonesWCnt.length then
    .exception ⟨"Cannot add new document to DynDocStorage, there is incorrect count of numeric " ++
      "zones", st⟩
  else do
    let st := { st with docIds := st.docIds ++ [doc.docId] }
    let nZones ← .ofOption (pushColumns st.nZones doc.nZones)
    let st := { st with nZones }
    let tZonesWCnt ← .ofOption (pushColumns st.tZonesWCnt doc.tZonesWCnt)
    return { st with tZonesWCnt }

/-- `_load`; behind its checks nothing throws. -/
def loadInPlace (st : DocStorage) (dataPath : String) (file : Option Bytes) :
    Outcome Thrown DocStorage :=
  match file with
  | none => .exception ⟨"Cannot open '" ++ dataPath ++ "'", st⟩
  | some data => do
    let (nZonesCnt, ifs) ← .ofOption (readFrom ⟨data, 0⟩ (α := UInt32))
    let (tZonesCnt, ifs) ← .ofOption (readFrom ifs (α := UInt32))
    if st.nZones.length ≠ nZonesCnt.toNat then
      .exception ⟨"Cannot load from '" ++ dataPath ++
        "' into index: count of numeric zones isn't equal", st⟩
    else if st.tZonesWCnt.length ≠ tZonesCnt.toNat then
      .exception ⟨"Cannot load from '" ++ dataPath ++
        "' into index: count of text zones isn't equal", st⟩
    else
      let (st, _) ← .ofOption (st.loadRows ifs)
      return st

/-- The constructor: it catches what `_load` throws, and goes on with the store as it is. -/
def createInPlace (config : Config) (path : String) (file : Option Bytes) : Option DocStorage :=
  match loadInPlace (DocStorage.sized config) path file with
  | .ok st => some st
  | .exception thrown => some thrown.store
  | .undefined => none

/-- Calls of `addDoc`, by a caller that catches what they throw. -/
def addDocs : DocStorage → List Doc → Option DocStorage
  | st, [] => some st
  | st, doc :: docs =>
    match addDocInPlace st doc with
    | .ok st => addDocs st docs
    | .exception thrown => addDocs thrown.store docs
    | .undefined => none

/-- The life of a store: the file that it leaves. -/
def session (config : Config) (path : String) (file : Option Bytes) (docs : List Doc) :
    Option Bytes := do
  let st ← createInPlace config path file
  let st ← addDocs st docs
  return DynDocStorage.save st

/-- Sessions over one file. -/
def sessions (config : Config) (path : String) :
    Option Bytes → List (List Doc) → Option (Option Bytes)
  | file, [] => some file
  | file, docs :: rest => do
    let data ← session config path file docs
    sessions config path (some data) rest

/-! ## What an exception leaves -/

theorem pushColumns_eq {α : Type} {vecs : List (List α)} : ∀ {vals : List α},
    vals.length = vecs.length →
      pushColumns vecs vals = some (vecs.zipWith (fun vec val => vec ++ [val]) vals) := by
  induction vecs with
  | nil => exact fun _ => rfl
  | cons vec vecs ih =>
    intro vals hlen
    cases vals with
    | nil => cases hlen
    | cons val vals =>
      rw [pushColumns, ih (Nat.succ.inj hlen)]
      rfl

/-- **`addDoc` checks before it changes anything**: it throws and leaves the store as it was, or
adds its row. -/
theorem addDocInPlace_eq (st : DocStorage) (doc : Doc) :
    addDocInPlace st doc =
      match DynDocStorage.addDoc st doc.docId doc.nZones doc.tZonesWCnt with
      | .ok st' => .ok st'
      | .error what => .exception ⟨what, st⟩ := by
  unfold addDocInPlace DynDocStorage.addDoc
  by_cases hcnt : doc.nZones.length ≠ st.nZones.length ∨
      doc.tZonesWCnt.length ≠ st.tZonesWCnt.length
  · rw [if_pos hcnt, if_pos hcnt]
    rfl
  · rw [if_neg hcnt, if_neg hcnt]
    rw [not_or, not_not, not_not] at hcnt
    dsimp only
    rw [pushColumns_eq hcnt.1, pushColumns_eq hcnt.2]
    rfl

/-- **So does `_load`.** -/
theorem loadInPlace_eq (st : DocStorage) (dataPath : String) (file : Option Bytes) :
    loadInPlace st dataPath file =
      match st.load dataPath file with
      | some (.ok st') => .ok st'
      | some (.error what) => .exception ⟨what, st⟩
      | none => .undefined := by
  cases file with
  | none => rfl
  | some data =>
    unfold loadInPlace DocStorage.load
    dsimp only
    cases hn : readFrom ⟨data, 0⟩ (α := UInt32) with
    | none => rfl
    | some r =>
      obtain ⟨nZonesCnt, ifs⟩ := r
      cases ht : readFrom ifs (α := UInt32) with
      | none => simp [ht]; rfl
      | some r =>
        obtain ⟨tZonesCnt, ifs'⟩ := r
        simp only [ht, Outcome.ofOption_some, Outcome.ok_bind, Option.bind_eq_bind,
          Option.bind_some]
        split
        · rfl
        split
        · rfl
        cases hrows : st.loadRows ifs' <;> rfl

theorem addDocInPlace_unchanged {st : DocStorage} {doc : Doc} {thrown : Thrown}
    (h : addDocInPlace st doc = .exception thrown) : thrown.store = st := by
  rw [addDocInPlace_eq] at h
  split at h
  · cases h
  · cases h
    rfl

theorem loadInPlace_unchanged {st : DocStorage} {dataPath : String} {file : Option Bytes}
    {thrown : Thrown} (h : loadInPlace st dataPath file = .exception thrown) :
    thrown.store = st := by
  rw [loadInPlace_eq] at h
  split at h
  · cases h
  · cases h
    rfl
  · cases h

/-- The constructor finds what the earlier definition of it says. -/
theorem createInPlace_eq (config : Config) (path : String) (file : Option Bytes) :
    createInPlace config path file = DynDocStorage.create config path file := by
  rw [createInPlace, loadInPlace_eq, DynDocStorage.create]
  rcases (DocStorage.sized config).load path file with _ | (what | st) <;> rfl

/-! ## The documents of a store -/

/-- A value for every zone. -/
def Doc.Fits (config : Config) (doc : Doc) : Prop :=
  doc.nZones.length = config.numZones.length ∧ doc.tZonesWCnt.length = config.textZones.length

instance (config : Config) (doc : Doc) : Decidable (doc.Fits config) := by
  unfold Doc.Fits; infer_instance

/-- Column `z` has, document for document, the value number `z`. -/
def HoldsZones {α : Type} (cols : List (List α)) (vals : List (List α)) : Prop :=
  ∀ (z : Nat) (vec : List α), cols[z]? = some vec →
    List.Forall₂ (fun (val : α) (zones : List α) => zones[z]? = some val) vec vals

/-- **The store holds these documents**, in this order: it has a column for every zone, and every
column one value for each document. -/
structure HoldsDocs (config : Config) (st : DocStorage) (docs : List Doc) : Prop where
  numZones : st.nZones.length = config.numZones.length
  textZones : st.tZonesWCnt.length = config.textZones.length
  docIds : st.docIds = docs.map Doc.docId
  nZones : HoldsZones st.nZones (docs.map Doc.nZones)
  tZonesWCnt : HoldsZones st.tZonesWCnt (docs.map Doc.tZonesWCnt)

theorem HoldsZones.length {α : Type} {cols vals : List (List α)} (h : HoldsZones cols vals)
    {vec : List α} (hvec : vec ∈ cols) : vec.length = vals.length := by
  obtain ⟨z, hz⟩ := List.mem_iff_getElem?.mp hvec
  exact (h z vec hz).length_eq

/-- Every column gets a value, and the zones a document. -/
theorem HoldsZones.push {α : Type} {cols vals : List (List α)} (h : HoldsZones cols vals)
    (row : List α) :
    HoldsZones (cols.zipWith (fun vec val => vec ++ [val]) row) (vals ++ [row]) := by
  intro z vec hz
  obtain ⟨col, val, hcol, hval, rfl⟩ := List.getElem?_zipWith_eq_some.mp hz
  exact List.rel_append (h z col hcol) (.cons hval .nil)

/-- All columns of a store that holds documents are of one length. -/
theorem HoldsDocs.tabular {config : Config} {st : DocStorage} {docs : List Doc}
    (h : HoldsDocs config st docs) : Tabular config st where
  numZones := h.numZones
  textZones := h.textZones
  nColumns vec hvec := by rw [h.nZones.length hvec, h.docIds, List.length_map, List.length_map]
  tColumns vec hvec := by
    rw [h.tZonesWCnt.length hvec, h.docIds, List.length_map, List.length_map]

theorem HoldsDocs.sized (config : Config) : HoldsDocs config (DocStorage.sized config) [] where
  numZones := List.length_replicate
  textZones := List.length_replicate
  docIds := rfl
  nZones z vec hz := by
    rw [List.eq_of_mem_replicate (List.mem_of_getElem? hz)]
    exact .nil
  tZonesWCnt z vec hz := by
    rw [List.eq_of_mem_replicate (List.mem_of_getElem? hz)]
    exact .nil

/-- Row `i` of the store is this document, in every column. -/
structure RowIs (config : Config) (st : DocStorage) (i : Nat) (doc : Doc) : Prop where
  docId : st.docIds[i]? = some doc.docId
  nZones : ∀ z < config.numZones.length, ∃ vec val,
    st.nZones[z]? = some vec ∧ vec[i]? = some val ∧ doc.nZones[z]? = some val
  tZonesWCnt : ∀ z < config.textZones.length, ∃ vec val,
    st.tZonesWCnt[z]? = some vec ∧ vec[i]? = some val ∧ doc.tZonesWCnt[z]? = some val

theorem HoldsZones.row {α : Type} {cols vals : List (List α)} (h : HoldsZones cols vals)
    {i z : Nat} {row : List α} (hrow : vals[i]? = some row) (hz : z < cols.length) :
    ∃ vec val, cols[z]? = some vec ∧ vec[i]? = some val ∧ row[z]? = some val := by
  have hvec := List.getElem?_eq_getElem hz
  obtain ⟨hi, rfl⟩ := List.getElem?_eq_some_iff.mp hrow
  have hall := h z _ hvec
  have hi' : i < cols[z].length := hall.length_eq ▸ hi
  exact ⟨cols[z], cols[z][i], hvec, List.getElem?_eq_getElem hi', hall.get hi' hi⟩

theorem HoldsDocs.row {config : Config} {st : DocStorage} {docs : List Doc}
    (h : HoldsDocs config st docs) {i : Nat} {doc : Doc} (hdoc : docs[i]? = some doc) :
    RowIs config st i doc where
  docId := by rw [h.docIds, List.getElem?_map, hdoc, Option.map_some]
  nZones z hz := h.nZones.row (by rw [List.getElem?_map, hdoc, Option.map_some])
    (hz.trans_eq h.numZones.symm)
  tZonesWCnt z hz := h.tZonesWCnt.row (by rw [List.getElem?_map, hdoc, Option.map_some])
    (hz.trans_eq h.textZones.symm)

/-! ## A call -/

/-- **One `addDoc`** of a table: it adds the document if it fits, and throws if it does not. -/
theorem addDocInPlace_cases {config : Config} {st : DocStorage} (h : Tabular config st)
    (doc : Doc) :
    (doc.Fits config ∧ ∃ st', addDocInPlace st doc = .ok st' ∧
      DynDocStorage.addDoc st doc.docId doc.nZones doc.tZonesWCnt = .ok st') ∨
    (¬ doc.Fits config ∧ ∃ what, addDocInPlace st doc = .exception ⟨what, st⟩) := by
  rw [addDocInPlace_eq, Doc.Fits, ← h.numZones, ← h.textZones]
  by_cases hfits : doc.nZones.length = st.nZones.length ∧
      doc.tZonesWCnt.length = st.tZonesWCnt.length
  · have hcnt : ¬ (doc.nZones.length ≠ st.nZones.length ∨
        doc.tZonesWCnt.length ≠ st.tZonesWCnt.length) := by
      rw [not_or, not_not, not_not]
      exact hfits
    refine .inl ⟨hfits, ?_⟩
    rw [DynDocStorage.addDoc, if_neg hcnt]
    exact ⟨_, rfl, rfl⟩
  · refine .inr ⟨hfits, ?_⟩
    rw [DynDocStorage.addDoc, if_pos (not_and_or.mp hfits)]
    exact ⟨_, rfl⟩

theorem HoldsDocs.addDoc {config : Config} {st st' : DocStorage} {docs : List Doc} {doc : Doc}
    (h : HoldsDocs config st docs)
    (hadd : DynDocStorage.addDoc st doc.docId doc.nZones doc.tZonesWCnt = .ok st') :
    HoldsDocs config st' (docs ++ [doc]) := by
  have htab := h.tabular.addDoc hadd
  have hdocIds := docIds_addDoc hadd
  refine ⟨htab.numZones, htab.textZones, ?_, ?_, ?_⟩
  · rw [hdocIds, h.docIds, List.map_append]
    rfl
  all_goals
    unfold DynDocStorage.addDoc at hadd
    split at hadd
    · cases hadd
    cases hadd
    rw [List.map_append]
  · exact h.nZones.push doc.nZones
  · exact h.tZonesWCnt.push doc.tZonesWCnt

/-- The calls of a session, by induction on them. -/
theorem addDocs_eq {config : Config} {calls : List Doc} : ∀ {st : DocStorage} {docs : List Doc},
    HoldsDocs config st docs → ∃ st', addDocs st calls = some st' ∧
      HoldsDocs config st' (docs ++ calls.filter fun doc => doc.Fits config) := by
  induction calls with
  | nil =>
    intro st docs h
    exact ⟨st, rfl, by rwa [List.filter_nil, List.append_nil]⟩
  | cons doc calls ih =>
    intro st docs h
    rw [addDocs]
    rcases addDocInPlace_cases h.tabular doc with
      ⟨hfits, st₁, hcall, hadd⟩ | ⟨hfits, what, hcall⟩
    · obtain ⟨st', hrun, hholds⟩ := ih (h.addDoc hadd)
      rw [hcall, List.filter_cons_of_pos (by simpa using hfits)]
      rw [List.append_assoc] at hholds
      exact ⟨st', hrun, hholds⟩
    · obtain ⟨st', hrun, hholds⟩ := ih h
      rw [hcall, List.filter_cons_of_neg (by simpa using hfits)]
      exact ⟨st', hrun, hholds⟩

/-! ## Sessions -/

/-- The file holds these documents: the next constructor finds them. -/
def FileHolds (config : Config) (path : String) (file : Option Bytes) (docs : List Doc) : Prop :=
  ∃ st, createInPlace config path file = some st ∧ HoldsDocs config st docs

/-- A file that is not there, or of another configuration, holds nothing. -/
theorem fileHolds_nil {config : Config} {path : String} {file : Option Bytes} {thrown : Thrown}
    (h : loadInPlace (DocStorage.sized config) path file = .exception thrown) :
    FileHolds config path file [] := by
  have hstore : thrown.store = DocStorage.sized config := loadInPlace_unchanged h
  refine ⟨DocStorage.sized config, ?_, .sized config⟩
  rw [createInPlace, h, ← hstore]

/-- **One session** adds the documents that fit, in the order of the calls. -/
theorem session_eq {config : Config} {path : String} {file : Option Bytes} {docs calls : List Doc}
    (h : FileHolds config path file docs)
    (hlen : (docs ++ calls.filter fun doc => doc.Fits config).length < 2 ^ 32) :
    ∃ data, session config path file calls = some data ∧
      FileHolds config path (some data) (docs ++ calls.filter fun doc => doc.Fits config) := by
  obtain ⟨st, hcreate, hholds⟩ := h
  obtain ⟨st', hcalls, hholds'⟩ := addDocs_eq hholds
  refine ⟨DynDocStorage.save st', ?_, st', ?_, hholds'⟩
  · rw [session, hcreate, Option.bind_eq_bind, Option.bind_some, hcalls]
    rfl
  · have hrows : st'.docIds.length < 2 ^ 32 := by
      rw [hholds'.docIds, List.length_map]
      exact hlen
    rw [createInPlace_eq]
    exact create_save hholds'.tabular hrows path

/-- All sessions, by induction on them. -/
theorem sessions_eq {config : Config} {path : String} {runs : List (List Doc)} :
    ∀ {file : Option Bytes} {docs : List Doc}, FileHolds config path file docs →
      (docs ++ runs.flatten.filter fun doc => doc.Fits config).length < 2 ^ 32 →
      ∃ file', sessions config path file runs = some file' ∧
        FileHolds config path file' (docs ++ runs.flatten.filter fun doc => doc.Fits config) := by
  induction runs with
  | nil =>
    intro file docs h _
    refine ⟨file, rfl, ?_⟩
    rwa [List.flatten_nil, List.filter_nil, List.append_nil]
  | cons calls runs ih =>
    intro file docs h hlen
    rw [List.flatten_cons, List.filter_append, ← List.append_assoc] at hlen ⊢
    have hlen' := Nat.lt_of_le_of_lt (List.prefix_append _ _).length_le hlen
    obtain ⟨data, hrun, hholds⟩ := session_eq h hlen'
    obtain ⟨file', hruns, hholds'⟩ := ih hholds hlen
    refine ⟨file', ?_, hholds'⟩
    rw [sessions, hrun]
    exact hruns

/-- **Any sessions over one file**, from one that the first constructor cannot load: not there, or
of another configuration. The next constructor finds a table whose rows are the documents of the
calls that did not throw, in the order of the calls; a call throws exactly if the document does not
fit, and neither it nor a load that throws changes a column. -/
theorem sessions_correct {config : Config} {path : String} {file : Option Bytes} {thrown : Thrown}
    (hnew : loadInPlace (DocStorage.sized config) path file = .exception thrown)
    {runs : List (List Doc)}
    (hlen : (runs.flatten.filter fun doc => doc.Fits config).length < 2 ^ 32) :
    (∃ file' st, sessions config path file runs = some file' ∧
      createInPlace config path file' = some st ∧ Tabular config st ∧
      st.docIds.length = (runs.flatten.filter fun doc => doc.Fits config).length ∧
      ∀ (i : Nat) (doc : Doc), (runs.flatten.filter fun doc => doc.Fits config)[i]? = some doc →
        RowIs config st i doc) ∧
    (∀ (st : DocStorage) (doc : Doc), Tabular config st →
      (doc.Fits config ↔ ∃ st', addDocInPlace st doc = .ok st') ∧
      (¬ doc.Fits config ↔ ∃ what, addDocInPlace st doc = .exception ⟨what, st⟩)) ∧
    (∀ (st : DocStorage) (doc : Doc) (thrown : Thrown),
      addDocInPlace st doc = .exception thrown → thrown.store = st) ∧
    ∀ (st : DocStorage) (path : String) (file : Option Bytes) (thrown : Thrown),
      loadInPlace st path file = .exception thrown → thrown.store = st := by
  refine ⟨?_, fun st doc htab => ?_, fun _ _ _ => addDocInPlace_unchanged,
    fun _ _ _ _ => loadInPlace_unchanged⟩
  · obtain ⟨file', hrun, st, hcreate, hholds⟩ := sessions_eq (fileHolds_nil hnew) hlen
    rw [List.nil_append] at hholds
    refine ⟨file', st, hrun, hcreate, hholds.tabular, ?_, fun i doc hdoc => hholds.row hdoc⟩
    rw [hholds.docIds, List.length_map]
  · rcases addDocInPlace_cases htab doc with ⟨hfits, st', hcall, -⟩ | ⟨hfits, what, hcall⟩
    · refine ⟨⟨fun _ => ⟨st', hcall⟩, fun _ => hfits⟩, fun hnot => absurd hfits hnot, ?_⟩
      rintro ⟨what, hthrown⟩
      cases hcall.symm.trans hthrown
    · refine ⟨⟨fun h => absurd h hfits, ?_⟩, fun _ => ⟨what, hcall⟩, fun _ => hfits⟩
      rintro ⟨st', hok⟩
      cases hcall.symm.trans hok

/-! ## Two sessions -/

/-- A document for `titleConfig`, and one with too few numbers. -/
def fitting : Doc := { docId := 7, nZones := [5, 0, 0, 0], tZonesWCnt := [2] }
def misfit : Doc := { docId := 8, nZones := [1], tZonesWCnt := [2] }

/-- A session with a call that throws, and another one behind it. -/
theorem sessions_correct_two : ∃ thrown,
    loadInPlace (DocStorage.sized titleConfig) "" none = .exception thrown ∧
    ∃ file' st, sessions titleConfig "" none [[fitting, misfit], [fitting]] = some file' ∧
      createInPlace titleConfig "" file' = some st ∧ st.docIds.length = 2 ∧
      RowIs titleConfig st 1 fitting := by
  have hnew : loadInPlace (DocStorage.sized titleConfig) "" none
      = .exception ⟨"Cannot open ''", DocStorage.sized titleConfig⟩ := rfl
  have hdocs : [[fitting, misfit], [fitting]].flatten.filter (fun doc => doc.Fits titleConfig)
      = [fitting, fitting] := by decide
  obtain ⟨⟨file', st, hrun, hcreate, -, hlen, hrows⟩, -⟩ :=
    @sessions_correct _ _ _ _ hnew [[fitting, misfit], [fitting]] (by rw [hdocs]; decide)
  rw [hdocs] at hlen hrows
  exact ⟨_, hnew, file', st, hrun, hcreate, hlen, hrows 1 fitting rfl⟩

end Amigos.Indexer
