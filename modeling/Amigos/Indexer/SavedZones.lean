import Amigos.Indexer.Run

/-!
# What is stored of a document (`zonesForSave`)

All items of a run put their saved zones into one map. The map is meant to be emptied behind
every item, but the loop that does it empties copies of its elements. So what is stored of an item
is what stands in the map, `savedAll`: the item's own zones, and behind them those of all items
before it.

`lastDoc_own_iff` compares two runs that end in the same item, and says exactly when the earlier
items are not seen.
-/

set_option autoImplicit false

namespace Amigos.Indexer

open Amigos.Lib
open Amigos.Index

/-! ## The map behind a sequence of items -/

/-- What the items put into the map, the last item's zones in front. -/
def savedAll (env : Env) (config : Config) (items : List XMLElement) : ZonesMap :=
  (items.reverse.map (savedOf env config)).flatten

theorem savedAll_cons (env : Env) (config : Config) (itemTag : XMLElement)
    (items : List XMLElement) : savedAll env config (itemTag :: items)
      = savedAll env config items ++ savedOf env config itemTag := by
  simp [savedAll]

/-- One item puts its zones in front. -/
theorem ItemStep.saved {env : Env} {config : Config} {s s' : ParseState} {itemTag : XMLElement}
    (h : ItemStep env config s itemTag (.ok s')) :
    s'.zonesForSave = savedOf env config itemTag ++ s.zonesForSave := by
  cases h with
  | skipped hskip => rfl
  | stored hid hreach htext hadd => rfl

theorem processItems_saved {env : Env} {config : Config} {items : List XMLElement} :
    ∀ {s s' : ParseState}, processItems env config s items = .ok s' →
      s'.zonesForSave = savedAll env config items ++ s.zonesForSave := by
  induction items with
  | nil =>
    intro s s' h
    cases h
    rfl
  | cons itemTag items ih =>
    intro s s' h
    obtain ⟨s₁, hitem, h⟩ := Outcome.bind_eq_ok h
    have hstep := processItem_step hitem (by simp)
    rw [ih h, hstep.saved, savedAll_cons, List.append_assoc]

/-! ## The last document -/

/-- The document that was stored last. -/
def lastDoc (ix : Indexer) : Option RawDoc := ix.docDB.getLast?.map Prod.snd

/-- What an item says of itself: a zone that it does not have is empty. -/
def ownDoc (env : Env) (config : Config) (itemTag : XMLElement) : RawDoc :=
  rawDocOf (savedOf env config itemTag)

/-- An item that is not passed over is stored, with what stands in the map. -/
theorem ItemStep.lastDoc {env : Env} {config : Config} {s s' : ParseState} {itemTag : XMLElement}
    (h : ItemStep env config s itemTag (.ok s')) (hkept : ¬ Skipped env config itemTag) :
    lastDoc s'.ix = some (rawDocOf (savedOf env config itemTag ++ s.zonesForSave)) := by
  cases h with
  | skipped hskip => exact absurd hskip hkept
  | stored hid hreach htext hadd => simp [Indexer.lastDoc]

theorem parseRawData_lastDoc {env : Env} {config : Config} {raw : RawDir} {ix ix' : Indexer}
    {before : List XMLElement} {itemTag : XMLElement} (hitems : raw.items = before ++ [itemTag])
    (h : parseRawData env config raw ix = .ok ix') (hkept : ¬ Skipped env config itemTag) :
    lastDoc ix'
      = some (rawDocOf (savedOf env config itemTag ++ savedAll env config before)) := by
  obtain ⟨s', hrun, rfl⟩ := parseRawData_ok h
  rw [hitems, processItems_append] at hrun
  obtain ⟨s, hbefore, hrun⟩ := Outcome.bind_eq_ok hrun
  obtain ⟨s₁, hitem, hnil⟩ := Outcome.bind_eq_ok hrun
  cases hnil
  rw [(processItem_step hitem (by simp)).lastDoc hkept, processItems_saved hbefore]
  exact congrArg (fun zones => some (rawDocOf (_ ++ zones))) (List.append_nil _)

/-! ## When the earlier items are not seen -/

/-- The zones that a document has. -/
def docZones : List String := ["title", "en_sub", "en_sub_time", "video_id"]

/-- The zones that the item lacks were last saved empty, or never. -/
def Unseen (env : Env) (config : Config) (before : List XMLElement) (itemTag : XMLElement) : Prop :=
  ∀ name ∈ docZones, (savedOf env config itemTag).lookup name = none →
    (savedAll env config before).get name = []

theorem ZonesMap.get_append (zones zones' : ZonesMap) (name : String) :
    ZonesMap.get (zones ++ zones') name
      = if zones.lookup name = none then ZonesMap.get zones' name else ZonesMap.get zones name := by
  rw [ZonesMap.get, List.lookup_append]
  cases h : zones.lookup name with
  | none => rfl
  | some text => simp [ZonesMap.get, h]

theorem rawDocOf_inj {zones zones' : ZonesMap} : rawDocOf zones = rawDocOf zones'
    ↔ ∀ name ∈ docZones, ZonesMap.get zones name = ZonesMap.get zones' name := by
  rw [rawDocOf, rawDocOf, RawDoc.mk.injEq]
  simp only [docZones, List.forall_mem_cons, List.not_mem_nil, IsEmpty.forall_iff, implies_true,
    and_true]
  constructor
  · exact fun ⟨htitle, hvideo, hsub, htime⟩ => ⟨htitle, hsub, htime, hvideo⟩
  · exact fun ⟨htitle, hsub, htime, hvideo⟩ => ⟨htitle, hvideo, hsub, htime⟩

theorem rawDocOf_own_iff (env : Env) (config : Config) (before : List XMLElement)
    (itemTag : XMLElement) :
    rawDocOf (savedOf env config itemTag ++ savedAll env config before) = ownDoc env config itemTag
      ↔ Unseen env config before itemTag := by
  rw [ownDoc, rawDocOf_inj]
  apply forall₂_congr
  intro name _
  rw [ZonesMap.get_append]
  split
  · rename_i hnone
    have hempty : ZonesMap.get (savedOf env config itemTag) name = [] := by
      rw [ZonesMap.get, hnone]
      rfl
    rw [hempty]
    exact ⟨fun h _ => h, fun h => h hnone⟩
  · rename_i hsome
    exact ⟨fun _ hnone => absurd hnone hsome, fun _ => rfl⟩

/-- **Two runs that end in the same item store the same of it, its own**, exactly if neither has
an earlier item that is seen. -/
theorem lastDoc_own_iff (env : Env) (config : Config) {rawA rawB : RawDir}
    {ixA ixA' ixB ixB' : Indexer} {beforeA beforeB : List XMLElement} {itemTag : XMLElement}
    (hitemsA : rawA.items = beforeA ++ [itemTag]) (hitemsB : rawB.items = beforeB ++ [itemTag])
    (hA : parseRawData env config rawA ixA = .ok ixA')
    (hB : parseRawData env config rawB ixB = .ok ixB') (hkept : ¬ Skipped env config itemTag) :
    (lastDoc ixA' = some (ownDoc env config itemTag) ∧ lastDoc ixB' = lastDoc ixA') ↔
      Unseen env config beforeA itemTag ∧ Unseen env config beforeB itemTag := by
  rw [parseRawData_lastDoc hitemsA hA hkept, parseRawData_lastDoc hitemsB hB hkept,
    Option.some.injEq, Option.some.injEq, ← rawDocOf_own_iff, ← rawDocOf_own_iff]
  constructor
  · exact fun ⟨hownA, hsame⟩ => ⟨hownA, hsame.trans hownA⟩
  · exact fun ⟨hownA, hownB⟩ => ⟨hownA, hownB.trans hownA.symm⟩

/-! ## A title that is not the document's -/

/-- The document 2, without a title. -/
def untitled : XMLElement := .mk "item" none [.mk "id" (some [50]) []]

/-- An untitled document behind one of title `x` is stored under that title. -/
theorem not_lastDoc_own_untitled : ¬ ∀ (env : Env) (config : Config) (rawA rawB : RawDir)
    (ixA ixA' ixB ixB' : Indexer) (beforeA beforeB : List XMLElement) (itemTag : XMLElement),
    rawA.items = beforeA ++ [itemTag] → rawB.items = beforeB ++ [itemTag] →
    parseRawData env config rawA ixA = .ok ixA' → parseRawData env config rawB ixB = .ok ixB' →
    ¬ Skipped env config itemTag →
    lastDoc ixA' = some (ownDoc env config itemTag) ∧ lastDoc ixB' = lastDoc ixA' := by
  intro h
  have hown := (h .oneWord titleConfig (oneFile [titled, untitled]) (oneFile [untitled])
    (empty titleConfig) (ranOver (empty titleConfig) [titled, untitled])
    (empty titleConfig) (ranOver (empty titleConfig) [untitled]) [titled] [] untitled
    rfl rfl rfl rfl (by decide)).1
  exact absurd hown (by decide)

/-- The document of title `x`, behind the untitled one and alone. -/
theorem lastDoc_own_iff_titled :
    (lastDoc (ranOver (empty titleConfig) [untitled, titled])
        = some (ownDoc .oneWord titleConfig titled) ∧
      lastDoc (ranOver (empty titleConfig) [titled])
        = lastDoc (ranOver (empty titleConfig) [untitled, titled])) ↔
    Unseen .oneWord titleConfig [untitled] titled ∧ Unseen .oneWord titleConfig [] titled :=
  @lastDoc_own_iff .oneWord titleConfig (oneFile [untitled, titled]) (oneFile [titled])
    (empty titleConfig) (ranOver (empty titleConfig) [untitled, titled])
    (empty titleConfig) (ranOver (empty titleConfig) [titled]) [untitled] [] titled
    rfl rfl rfl rfl (by decide)

end Amigos.Indexer
