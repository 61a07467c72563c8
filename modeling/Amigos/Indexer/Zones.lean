import Amigos.Lib.Outcome
import Amigos.Index.Struct

/-!
# What an item says (`extractZones`, `tinyxml2_ext.hpp`)

The raw data is XML. A zone names a path of tags below an item; `extractZones` goes down the paths
of some zones, collects the texts it finds, and puts those of the zones that are to be saved into
a map that it shares with all other calls.

The map is only ever added to, so a call is described by what it adds: `savedBy`, which depends on
the item and the zones and on nothing else (`extractZones_eq_ok`).
-/

set_option autoImplicit false

namespace Amigos.Indexer

open Amigos.Lib
open Amigos.Index

/-! ## The tree -/

/-- An element: its name, its text (that of the first child, if this is a text node) and its child
elements. -/
inductive XMLElement where
  | mk (name : String) (text : Option Bytes) (children : List XMLElement)

namespace XMLElement

def name : XMLElement → String
  | mk name _ _ => name

/-- `GetText`; null if there is none. -/
def text : XMLElement → Option Bytes
  | mk _ text _ => text

def children : XMLElement → List XMLElement
  | mk _ _ children => children

end XMLElement

/-- `FirstChildElement`, among the children of a node. -/
def firstChildElement (children : List XMLElement) (tag : String) : Option XMLElement :=
  children.find? fun child => child.name == tag

def getNecessaryTag (children : List XMLElement) (tag : String) : Outcome String XMLElement :=
  match firstChildElement children tag with
  | none => .exception ("There is no tag '" ++ tag ++ "'")
  | some result => .ok result

/-! ## The map of saved zones -/

/-- `std::map<std::string, std::string>`; what was put last stands in front. -/
abbrev ZonesMap := List (String × Bytes)

/-- `operator[]`: a zone that is not there is put there, with an empty text. -/
def ZonesMap.get (zones : ZonesMap) (name : String) : Bytes := (zones.lookup name).getD []

/-- The constructor of `RawDoc`. -/
def rawDocOf (zones : ZonesMap) : RawDoc :=
  { title := zones.get "title"
    subtitles := zones.get "en_sub"
    time := zones.get "en_sub_time"
    videoId := zones.get "video_id" }

/-! ## Extraction -/

/-- Down the path of a zone. A child of a tag that is not there is undefined. -/
def findTag (curTag : XMLElement) : List String → Option (Option XMLElement)
  | [] => some (some curTag)
  | tag :: path =>
    match firstChildElement curTag.children tag with
    | some child => findTag child path
    | none => if path.isEmpty then some none else none

/-- One pass of the loop of `extractZones`: what the zone puts into `outVec`, where the empty text
stood. (The trash zones are read into a vector that still has its old texts, but nothing reads
it.) -/
def extractZone (tiElem : XMLElement) (zone : Zone) (forSave : ZonesMap) :
    Outcome String (Bytes × ZonesMap) := do
  let curTag ← .ofOption (findTag tiElem zone.path)
  match curTag with
  | none =>
    if zone.isOptional then return ([], forSave)
    else .exception ("Zone '" ++ zone.name ++ "' is necessary")
  | some curTag =>
    match curTag.text with
    | none => return ([], forSave)
    | some text =>
      return (text, if zone.needSave then (zone.name, text) :: forSave else forSave)

def extractZones (tiElem : XMLElement) :
    List Zone → ZonesMap → Outcome String (List Bytes × ZonesMap)
  | [], forSave => .ok ([], forSave)
  | zone :: zonesVec, forSave => do
    let (out, forSave) ← extractZone tiElem zone forSave
    let (outVec, forSave) ← extractZones tiElem zonesVec forSave
    return (out :: outVec, forSave)

/-! ## What a call adds -/

/-- The text that an item has for a zone. -/
def zoneText (tiElem : XMLElement) (zone : Zone) : Option Bytes :=
  match findTag tiElem zone.path with
  | some (some curTag) => curTag.text
  | _ => none

/-- What is saved of an item for a zone. -/
def savedZone (tiElem : XMLElement) (zone : Zone) : ZonesMap :=
  match zoneText tiElem zone with
  | some text => if zone.needSave then [(zone.name, text)] else []
  | none => []

/-- What is saved of an item for some zones, the last one in front. -/
def savedBy (tiElem : XMLElement) (zones : List Zone) : ZonesMap :=
  (zones.reverse.map (savedZone tiElem)).flatten

/-- The path of the zone ends at a tag that is not there. -/
def isMissing (tiElem : XMLElement) (zone : Zone) : Bool :=
  match findTag tiElem zone.path with
  | some none => true
  | _ => false

/-- The item has what is necessary of these zones. -/
def HasZones (tiElem : XMLElement) (zones : List Zone) : Prop :=
  ∀ zone ∈ zones, isMissing tiElem zone = true → zone.isOptional = true

instance (tiElem : XMLElement) (zones : List Zone) : Decidable (HasZones tiElem zones) := by
  unfold HasZones
  infer_instance

theorem extractZone_eq_ok {tiElem : XMLElement} {zone : Zone} {forSave forSave' : ZonesMap}
    {out : Bytes} (h : extractZone tiElem zone forSave = .ok (out, forSave')) :
    out = (zoneText tiElem zone).getD [] ∧ forSave' = savedZone tiElem zone ++ forSave ∧
      (isMissing tiElem zone = true → zone.isOptional = true) := by
  obtain ⟨curTag, hfind, h⟩ := Outcome.bind_eq_ok h
  have hpath := Outcome.ofOption_eq_ok hfind
  cases curTag with
  | none =>
    have htext : zoneText tiElem zone = none := by rw [zoneText, hpath]
    simp only at h
    split at h
    · rename_i hoptional
      cases h
      exact ⟨by rw [htext]; rfl, by rw [savedZone, htext]; rfl, fun _ => hoptional⟩
    · cases h
  | some curTag =>
    have htext : zoneText tiElem zone = curTag.text := by rw [zoneText, hpath]
    have hthere : ¬ isMissing tiElem zone = true := by
      rw [isMissing, hpath]
      exact Bool.false_ne_true
    cases ht : curTag.text with
    | none =>
      simp only [ht] at h
      cases h
      exact ⟨by rw [htext, ht]; rfl, by rw [savedZone, htext, ht]; rfl, fun h => absurd h hthere⟩
    | some text =>
      simp only [ht] at h
      cases h
      refine ⟨by rw [htext, ht]; rfl, ?_, fun h => absurd h hthere⟩
      cases hsave : zone.needSave <;> simp [savedZone, htext, ht, hsave]

theorem extractZone_eq_exception {tiElem : XMLElement} {zone : Zone} {forSave : ZonesMap}
    {msg : String} (h : extractZone tiElem zone forSave = .exception msg) :
    isMissing tiElem zone = true ∧ zone.isOptional = false := by
  rcases Outcome.bind_eq_exception h with h | ⟨curTag, hfind, h⟩
  · exact absurd h Outcome.ofOption_ne_exception
  · have hpath := Outcome.ofOption_eq_ok hfind
    cases curTag with
    | none =>
      simp only at h
      split at h
      · cases h
      · exact ⟨by rw [isMissing, hpath], Bool.not_eq_true _ ▸ ‹_›⟩
    | some curTag => cases ht : curTag.text <;> simp [ht] at h

/-- **A call adds what the item has for its zones**, whatever the map already holds. -/
theorem extractZones_eq_ok {tiElem : XMLElement} {zonesVec : List Zone} :
    ∀ {forSave forSave' : ZonesMap} {outVec : List Bytes},
      extractZones tiElem zonesVec forSave = .ok (outVec, forSave') →
      outVec = zonesVec.map (fun zone => (zoneText tiElem zone).getD []) ∧
        forSave' = savedBy tiElem zonesVec ++ forSave ∧ HasZones tiElem zonesVec := by
  induction zonesVec with
  | nil =>
    intro forSave forSave' outVec h
    cases h
    exact ⟨rfl, rfl, fun zone hzone => absurd hzone List.not_mem_nil⟩
  | cons zone zonesVec ih =>
    intro forSave forSave' outVec h
    obtain ⟨⟨out, forSave₁⟩, hzone, h⟩ := Outcome.bind_eq_ok h
    obtain ⟨⟨outVec', forSave₂⟩, hrest, h⟩ := Outcome.bind_eq_ok h
    cases h
    obtain ⟨rfl, rfl, hfirst⟩ := extractZone_eq_ok hzone
    obtain ⟨rfl, rfl, hothers⟩ := ih hrest
    exact ⟨rfl, by simp [savedBy], List.forall_mem_cons.mpr ⟨hfirst, hothers⟩⟩

/-- A call throws where a necessary zone is missing. -/
theorem extractZones_eq_exception {tiElem : XMLElement} {zonesVec : List Zone} {msg : String} :
    ∀ {forSave : ZonesMap}, extractZones tiElem zonesVec forSave = .exception msg →
      ¬ HasZones tiElem zonesVec := by
  induction zonesVec with
  | nil => exact fun h => by cases h
  | cons zone zonesVec ih =>
    intro forSave h hall
    obtain ⟨hfirst, hothers⟩ := List.forall_mem_cons.mp hall
    rcases Outcome.bind_eq_exception h with h | ⟨⟨out, forSave₁⟩, -, h⟩
    · obtain ⟨hmissing, hnecessary⟩ := extractZone_eq_exception h
      exact absurd (hfirst hmissing) (by rw [hnecessary]; exact Bool.false_ne_true)
    · rcases Outcome.bind_eq_exception h with h | ⟨_, -, h⟩
      · exact ih h hothers
      · cases h

/-! ## Tags that are missing -/

/-- The element at the end of a path, if every step of it exists. -/
def reached (tiElem : XMLElement) : List String → Option XMLElement
  | [] => some tiElem
  | tag :: path => (firstChildElement tiElem.children tag).bind fun child => reached child path

/-- The path of the zone breaks off before its last step. -/
def BreaksOff (tiElem : XMLElement) (zone : Zone) : Prop := reached tiElem zone.path.dropLast = none

/-- The zone does not stop the loop: its path exists, or only its last step is missing and it need
not be there. -/
def Passes (tiElem : XMLElement) (zone : Zone) : Prop :=
  ¬ BreaksOff tiElem zone ∧ (reached tiElem zone.path = none → zone.isOptional = true)

/-- The walk down a path is defined exactly if no step before the last one is missing. -/
theorem findTag_eq (path : List String) : ∀ tiElem : XMLElement,
    findTag tiElem path
      = (reached tiElem path.dropLast).map fun _ => reached tiElem path := by
  induction path with
  | nil => exact fun _ => rfl
  | cons tag path ih =>
    intro tiElem
    rw [findTag, reached]
    cases path with
    | nil => cases firstChildElement tiElem.children tag <;> rfl
    | cons next path =>
      rw [List.dropLast_cons_cons, reached]
      cases firstChildElement tiElem.children tag with
      | none => rfl
      | some child => exact ih child

theorem reached_eq_none_of_dropLast {path : List String} : ∀ {tiElem : XMLElement},
    reached tiElem path.dropLast = none → reached tiElem path = none := by
  induction path with
  | nil => exact fun h => h
  | cons tag path ih =>
    intro tiElem h
    cases path with
    | nil => cases h
    | cons next path =>
      rw [List.dropLast_cons_cons, reached] at h
      rw [reached]
      cases hchild : firstChildElement tiElem.children tag with
      | none => rfl
      | some child =>
        rw [hchild] at h
        exact ih h

/-- The text at the end of the path of a zone, if every step of it exists. -/
def pathText (tiElem : XMLElement) (zone : Zone) : Option Bytes :=
  (reached tiElem zone.path).bind XMLElement.text

theorem zoneText_eq_pathText (tiElem : XMLElement) (zone : Zone) :
    zoneText tiElem zone = pathText tiElem zone := by
  rw [zoneText, pathText, findTag_eq]
  cases hbreak : reached tiElem zone.path.dropLast with
  | none =>
    rw [reached_eq_none_of_dropLast hbreak]
    rfl
  | some _ => cases reached tiElem zone.path <;> rfl

/-- **What extraction should come to**: where every missing zone is optional, the texts at the ends
of the paths, and what is to be saved of them; where a missing zone is necessary, an exception. A
zone is missing if any step of its path is. -/
structure Extracts (tiElem : XMLElement) (zonesVec : List Zone) (forSave : ZonesMap)
    (out : Outcome String (List Bytes × ZonesMap)) : Prop where
  ok : (∀ zone ∈ zonesVec, reached tiElem zone.path = none → zone.isOptional = true) →
    out = .ok (zonesVec.map fun zone => (pathText tiElem zone).getD [],
      savedBy tiElem zonesVec ++ forSave)
  throws : (∃ zone ∈ zonesVec, reached tiElem zone.path = none ∧ zone.isOptional = false) →
    ∃ msg, out = .exception msg

/-- One zone: a path that breaks off is undefined, and otherwise only its last step can be
missing. -/
theorem extractZone_cases (tiElem : XMLElement) (zone : Zone) (forSave : ZonesMap) :
    (BreaksOff tiElem zone ∧ extractZone tiElem zone forSave = .undefined) ∨
    (¬ BreaksOff tiElem zone ∧ reached tiElem zone.path = none ∧ zone.isOptional = false ∧
      ∃ msg, extractZone tiElem zone forSave = .exception msg) ∨
    (Passes tiElem zone ∧ extractZone tiElem zone forSave
      = .ok ((pathText tiElem zone).getD [], savedZone tiElem zone ++ forSave)) := by
  rw [extractZone, findTag_eq, savedZone, zoneText_eq_pathText, pathText, Passes, BreaksOff]
  cases hbreak : reached tiElem zone.path.dropLast with
  | none => exact .inl ⟨rfl, rfl⟩
  | some _ =>
    right
    cases hpath : reached tiElem zone.path with
    | none =>
      cases hoptional : zone.isOptional with
      | false => exact .inl ⟨Option.some_ne_none _, rfl, rfl, _, rfl⟩
      | true => exact .inr ⟨⟨Option.some_ne_none _, fun _ => rfl⟩, rfl⟩
    | some curTag =>
      refine .inr ⟨⟨Option.some_ne_none _, fun h => absurd h (Option.some_ne_none _)⟩, ?_⟩
      rw [Option.bind_some, Option.map_some, Outcome.ofOption_some, Outcome.ok_bind]
      cases htext : curTag.text with
      | none => simp [htext]
      | some text => cases zone.needSave <;> simp [htext]

/-- The first zone that does not pass decides, if there is one. By induction on the zones. -/
theorem extractZones_cases (tiElem : XMLElement) (zonesVec : List Zone) : ∀ forSave : ZonesMap,
    ((∀ zone ∈ zonesVec, Passes tiElem zone) ∧ extractZones tiElem zonesVec forSave
      = .ok (zonesVec.map fun zone => (pathText tiElem zone).getD [],
        savedBy tiElem zonesVec ++ forSave)) ∨
    ∃ before zone behind, zonesVec = before ++ zone :: behind ∧
      (∀ z ∈ before, Passes tiElem z) ∧
      ((BreaksOff tiElem zone ∧ extractZones tiElem zonesVec forSave = .undefined) ∨
      (¬ BreaksOff tiElem zone ∧ reached tiElem zone.path = none ∧ zone.isOptional = false ∧
        ∃ msg, extractZones tiElem zonesVec forSave = .exception msg)) := by
  induction zonesVec with
  | nil => exact fun _ => .inl ⟨fun _ h => absurd h List.not_mem_nil, rfl⟩
  | cons zone zonesVec ih =>
    intro forSave
    rw [extractZones]
    rcases extractZone_cases tiElem zone forSave with ⟨hbreak, h⟩ | ⟨hbreak, hnone, hopt, msg, h⟩ |
      ⟨hpass, h⟩
    · refine .inr ⟨[], zone, zonesVec, rfl, fun _ h => absurd h List.not_mem_nil, .inl ⟨hbreak, ?_⟩⟩
      rw [h]
      rfl
    · refine .inr ⟨[], zone, zonesVec, rfl, fun _ h => absurd h List.not_mem_nil,
        .inr ⟨hbreak, hnone, hopt, msg, ?_⟩⟩
      rw [h]
      rfl
    · rw [h, Outcome.ok_bind]
      rcases ih (savedZone tiElem zone ++ forSave) with ⟨hall, hrest⟩ |
        ⟨before, z, behind, rfl, hbefore, hrest⟩
      · refine .inl ⟨List.forall_mem_cons.mpr ⟨hpass, hall⟩, ?_⟩
        simp only [hrest, Outcome.ok_bind, Outcome.pure_eq, List.map_cons]
        simp [savedBy]
      · refine .inr ⟨zone :: before, z, behind, rfl, List.forall_mem_cons.mpr ⟨hpass, hbefore⟩, ?_⟩
        rcases hrest with ⟨hbreak, hrest⟩ | ⟨hbreak, hnone, hopt, msg, hrest⟩
        · refine .inl ⟨hbreak, ?_⟩
          simp only [hrest]
          rfl
        · refine .inr ⟨hbreak, hnone, hopt, msg, ?_⟩
          simp only [hrest]
          rfl

/-- Of two places in a list one is in front of the other, or they are the same. -/
theorem mem_of_append_cons_eq {α : Type} {before behind before' behind' : List α} {a a' : α}
    (h : before ++ a :: behind = before' ++ a' :: behind') :
    a ∈ before' ∨ a = a' ∨ a' ∈ before := by
  rcases List.append_eq_append_iff.mp h with ⟨c, rfl, hc⟩ | ⟨c, rfl, hc⟩
  · cases c with
    | nil => exact .inr (.inl (List.cons.inj hc).1)
    | cons x c =>
      obtain ⟨rfl, -⟩ := List.cons.inj hc
      exact .inl List.mem_append_cons_self
  · cases c with
    | nil => exact .inr (.inl (List.cons.inj hc).1.symm)
    | cons x c =>
      obtain ⟨rfl, -⟩ := List.cons.inj hc
      exact .inr (.inr List.mem_append_cons_self)

/-- **Extraction does what it should** exactly if every zone whose path breaks off before its last
step stands behind one that throws: a necessary zone of which the last step is missing. -/
theorem extractZones_extracts_iff (tiElem : XMLElement) (zonesVec : List Zone)
    (forSave : ZonesMap) :
    Extracts tiElem zonesVec forSave (extractZones tiElem zonesVec forSave) ↔
      ∀ before zone behind, zonesVec = before ++ zone :: behind → BreaksOff tiElem zone →
        ∃ z ∈ before, ¬ BreaksOff tiElem z ∧ reached tiElem z.path = none ∧
          z.isOptional = false := by
  rcases extractZones_cases tiElem zonesVec forSave with ⟨hall, h⟩ |
    ⟨before, zone, behind, rfl, hbefore, ⟨hbreak, h⟩ | ⟨hbreak, hnone, hopt, msg, h⟩⟩
  · -- Every zone passes, so no path breaks off and nothing necessary is missing.
    rw [h]
    refine ⟨fun _ before zone behind heq hbreak => ?_, fun _ => ⟨fun _ => rfl, ?_⟩⟩
    · have hmem : zone ∈ zonesVec := heq ▸ List.mem_append_cons_self
      exact absurd hbreak (hall zone hmem).1
    · rintro ⟨zone, hzone, hnone, hopt⟩
      have := (hall zone hzone).2 hnone
      rw [hopt] at this
      cases this
  · -- The loop comes to a path that breaks off.
    have hnone := reached_eq_none_of_dropLast hbreak
    rw [h]
    constructor
    · intro hex
      by_cases hopt : ∀ z ∈ before ++ zone :: behind, reached tiElem z.path = none →
          z.isOptional = true
      · cases hex.ok hopt
      · push Not at hopt
        obtain ⟨z, hz, hz', hne⟩ := hopt
        obtain ⟨msg, hmsg⟩ := hex.throws ⟨z, hz, hz', Bool.eq_false_iff.mpr hne⟩
        cases hmsg
    · intro hcond
      obtain ⟨z, hz, -, hz', hopt⟩ := hcond before zone behind rfl hbreak
      have := (hbefore z hz).2 hz'
      rw [hopt] at this
      cases this
  · -- The loop comes to a necessary zone of which the last step is missing.
    rw [h]
    refine ⟨fun _ before' zone' behind' heq hbreak' => ?_,
      fun _ => ⟨fun hall => ?_, fun _ => ⟨msg, rfl⟩⟩⟩
    · rcases mem_of_append_cons_eq heq with hmem | rfl | hmem
      · exact ⟨zone, hmem, hbreak, hnone, hopt⟩
      · exact absurd hbreak' hbreak
      · exact absurd hbreak' (hbefore zone' hmem).1
    · have := hall zone List.mem_append_cons_self hnone
      rw [hopt] at this
      cases this

/-- An optional zone at `en`, `text`, of an item without an `en`. -/
theorem not_extracts_twoSteps : ¬ ∀ (tiElem : XMLElement) (zonesVec : List Zone)
    (forSave : ZonesMap),
    Extracts tiElem zonesVec forSave (extractZones tiElem zonesVec forSave) := by
  intro hclaim
  have h := hclaim (.mk "item" none [])
    [{ name := "en_text", path := ["en", "text"], isOptional := true, needSave := false }] []
  have hok : Outcome.undefined = Outcome.ok ([[]], []) := h.ok (by simp)
  cases hok

end Amigos.Indexer
