import Amigos.Index.DocDatabase
import Amigos.Indexer.History
import Amigos.Indexer.SavedZones

/-!
# The database behind a run

Every item that is not passed over puts its document into the database, under its id and with what
stands in the map of saved zones. So what is read under the id of an item, once the run is over, is
what the last item of this id has put there: its own zones and, for those that it lacks, the zones
of the items before it (`getDoc_of_run`). It is the item's own document exactly if no earlier item
is seen (`getDoc_own_iff`), whatever the runs before have left.
-/

set_option autoImplicit false

namespace Amigos.Indexer

open Amigos.Lib
open Amigos.Index

/-! ## The calls of a run -/

/-- The id that an item is stored under, if it is not passed over. -/
def storedId (env : Env) (config : Config) (itemTag : XMLElement) : Option UInt32 :=
  if Skipped env config itemTag then none else docIdOf env config itemTag

/-- What some items put into the database, with the zones of those before them. -/
def storedDocs (env : Env) (config : Config) : ZonesMap → List XMLElement → List (UInt32 × RawDoc)
  | _, [] => []
  | zones, itemTag :: items =>
    let zones := savedOf env config itemTag ++ zones
    ((storedId env config itemTag).toList.map fun docId => (docId, rawDocOf zones)) ++
      storedDocs env config zones items

theorem docDB_countItem (env : Env) (s : ParseState) : (s.countItem env).ix.docDB = s.ix.docDB := by
  rcases countItem_ix env s with h | h <;> rw [h]
  rfl

theorem docDB_addText {env : TextEnv} {ix ix' : Indexer} {texts : List Bytes}
    {wordsCnt : List UInt16} {recorded : List (UInt32 × Entry)}
    (h : ix.addText env texts = some (wordsCnt, recorded, ix')) : ix'.docDB = ix.docDB := by
  simp only [addText, Option.bind_eq_bind, Option.bind_eq_some_iff, Option.pure_def,
    Option.some.injEq, Prod.mk.injEq] at h
  obtain ⟨zones, -, ⟨recorded', postingStore⟩, -, -, -, rfl⟩ := h
  rfl

/-- One item makes one call, or none. -/
theorem ItemStep.docDB {env : Env} {config : Config} {s s' : ParseState} {itemTag : XMLElement}
    (h : ItemStep env config s itemTag (.ok s')) :
    s'.ix.docDB = s.ix.docDB ++ (storedId env config itemTag).toList.map fun docId =>
      (docId, rawDocOf (savedOf env config itemTag ++ s.zonesForSave)) := by
  cases h with
  | skipped hskip =>
    rw [storedId, if_pos hskip]
    exact (docDB_countItem env s).trans (List.append_nil _).symm
  | stored hid hreach htext hadd =>
    rw [storedId, if_neg hreach.kept, hid]
    show Indexer.docDB _ ++ _ = _
    rw [docDB_addText htext, docDB_countItem]
    rfl

/-- **The calls of a run over items.** -/
theorem processItems_docDB {env : Env} {config : Config} {items : List XMLElement} :
    ∀ {s s' : ParseState}, processItems env config s items = .ok s' →
      s'.ix.docDB = s.ix.docDB ++ storedDocs env config s.zonesForSave items := by
  induction items with
  | nil =>
    intro s s' h
    cases h
    exact (List.append_nil _).symm
  | cons itemTag items ih =>
    intro s s' h
    obtain ⟨s₁, hitem, h⟩ := Outcome.bind_eq_ok h
    have hstep := processItem_step hitem (by simp)
    rw [ih h, hstep.docDB, hstep.saved, storedDocs, List.append_assoc]

theorem cook_docDB {S : StdSort} {fuel : Nat} {env : Env} {config : Config} {raw : RawDir}
    {ix ix' : Indexer} (h : cook S fuel env config raw ix = .ok ix') :
    ix'.docDB = ix.docDB ++ storedDocs env config [] raw.items := by
  obtain ⟨s, hrun, hmerge⟩ := cook_eq_ok h
  obtain ⟨⟨index, ipos⟩, -, hmerge⟩ := Outcome.bind_eq_ok hmerge
  cases hmerge
  exact processItems_docDB hrun

/-! ## What is read -/

theorem lastPut_append (calls calls' : List (UInt32 × RawDoc)) (key : UInt32) :
    lastPut (calls ++ calls') key = (lastPut calls' key).or (lastPut calls key) := by
  unfold lastPut
  rw [List.reverse_append, List.find?_append]
  cases calls'.reverse.find? fun call => call.1 == key <;> rfl

/-- Items that are not stored under an id leave what is there. -/
theorem lastPut_storedDocs_eq_none {env : Env} {config : Config} {key : UInt32}
    {items : List XMLElement} (h : ∀ itemTag ∈ items, storedId env config itemTag ≠ some key) :
    ∀ zones, lastPut (storedDocs env config zones items) key = none := by
  induction items with
  | nil => exact fun _ => rfl
  | cons itemTag items ih =>
    intro zones
    obtain ⟨hhead, htail⟩ := List.forall_mem_cons.mp h
    rw [storedDocs, lastPut_append, ih htail, Option.none_or]
    cases hid : storedId env config itemTag with
    | none => rfl
    | some docId =>
      have hne : (docId == key) = false := beq_eq_false_iff_ne.mpr fun heq =>
        hhead (hid.trans (congrArg some heq))
      simp [lastPut, hne]

theorem storedDocs_append (env : Env) (config : Config) (before items : List XMLElement) :
    ∀ zones, storedDocs env config zones (before ++ items) = storedDocs env config zones before ++
      storedDocs env config (savedAll env config before ++ zones) items := by
  induction before with
  | nil => exact fun zones => rfl
  | cons itemTag before ih =>
    intro zones
    rw [List.cons_append, storedDocs, ih, storedDocs, savedAll_cons, List.append_assoc,
      List.append_assoc]

/-- The last document under the id of an item that no later one has. -/
theorem lastPut_storedDocs {env : Env} {config : Config} {before after : List XMLElement}
    {itemTag : XMLElement} {docId : UInt32} (hid : storedId env config itemTag = some docId)
    (hlater : ∀ other ∈ after, storedId env config other ≠ some docId) :
    lastPut (storedDocs env config [] (before ++ itemTag :: after)) docId
      = some (rawDocOf (savedOf env config itemTag ++ savedAll env config before)) := by
  rw [storedDocs_append, List.append_nil, lastPut_append, storedDocs, lastPut_append,
    lastPut_storedDocs_eq_none hlater, Option.none_or, hid]
  simp [lastPut]

section

variable {S : StdSort} {fuel : Nat} {env : Env} {config : Config} {raw : RawDir} {ix ix' : Indexer}
  {before after : List XMLElement} {itemTag : XMLElement} {docId : UInt32}

/-- **What is read of an item**: its zones, and behind them those of the items before it. -/
theorem getDoc_of_run (hcook : cook S fuel env config raw ix = .ok ix')
    (hfits : ∀ call ∈ ix'.docDB, call.2.Fits) (hitems : raw.items = before ++ itemTag :: after)
    (hid : storedId env config itemTag = some docId)
    (hlater : ∀ other ∈ after, storedId env config other ≠ some docId) (res : RawDoc) :
    (DocDatabase.empty.putDocs ix'.docDB).getDoc docId res
      = some (true, rawDocOf (savedOf env config itemTag ++ savedAll env config before)) := by
  rw [getDoc_putDocs _ _ _ _ hfits, cook_docDB hcook, hitems, lastPut_append,
    lastPut_storedDocs hid hlater]
  rfl

/-- **A document is its item's own** in the database exactly if no earlier item of the run is
seen. -/
theorem getDoc_own_iff (hcook : cook S fuel env config raw ix = .ok ix')
    (hfits : ∀ call ∈ ix'.docDB, call.2.Fits) (hitems : raw.items = before ++ itemTag :: after)
    (hid : storedId env config itemTag = some docId)
    (hlater : ∀ other ∈ after, storedId env config other ≠ some docId) (res : RawDoc) :
    (DocDatabase.empty.putDocs ix'.docDB).getDoc docId res
        = some (true, ownDoc env config itemTag) ↔ Unseen env config before itemTag := by
  rw [getDoc_of_run hcook hfits hitems hid hlater res, Option.some.injEq, Prod.mk.injEq,
    rawDocOf_own_iff]
  exact and_iff_right rfl

end

/-- The document of the title `x`. -/
def docX : RawDoc := { title := [120], videoId := [], subtitles := [], time := [] }

/-- A run over the untitled document, and behind it the one of title `x`. -/
def bothRun : Indexer :=
  (ranOver (empty titleConfig) [untitled, titled]).flushToDisk.withIndex (indexBytes (flushedX 1))
    none

theorem cook_bothRun : ∃ fuel, cook mergeSorter fuel .oneWord titleConfig
    (oneFile [untitled, titled]) (empty titleConfig) = .ok bothRun :=
  cook_flushedX rfl rfl rfl

/-- The title `x` is read back as it is: the untitled document has saved nothing. -/
theorem getDoc_own_iff_bothRun :
    (DocDatabase.empty.putDocs bothRun.docDB).getDoc 1 docX
      = some (true, ownDoc .oneWord titleConfig titled) := by
  obtain ⟨fuel, hcook⟩ := cook_bothRun
  have hfits : ∀ call ∈ bothRun.docDB, call.2.Fits := by
    have hstored : ∀ call ∈ bothRun.docDB, call.2 = docX ∨ call.2 = { docX with title := [] } := by
      decide
    intro call hcall
    rcases hstored call hcall with hdoc | hdoc <;> rw [hdoc] <;>
      exact ⟨by decide, by decide, by decide, by decide⟩
  refine (getDoc_own_iff hcook hfits (show _ = [untitled] ++ titled :: [] from rfl) (by decide)
    (fun _ h => absurd h List.not_mem_nil) docX).mpr ?_
  intro name _ _
  rfl

end Amigos.Indexer
