import Amigos.Indexer.RawFile
import Amigos.Spider.Records

/-!
# The output of the spider as the raw data of the indexer

`converter.py` writes what `Indexer::_parseRawData` reads. A record of clean text becomes an item
whose elements are the fields of the record, in order (`loadFile_document`), so a zone has the text
that stands under its path in the record (`Tells.pathText`). Only what is not wrapped is decoded by
the reader: such a value has to stand for itself (`Verbatim`).

A run of the converter hands over every record once, if no two of its files are opened in the same
second (`rawData_of_run`); the order of the files is that in which the directory lists them.
-/

set_option autoImplicit false

namespace Amigos.Spider

open Amigos.Lib
open Amigos.Index (Zone)
open Amigos.Indexer (XMLElement RawFileKind elements getText loadFile reached pathText
  firstChildElement)
open Amigos.TinyXml2 (Node Writes White Fills elementText textNodes tagText_nil isWhiteSpace)

/-! ## The nodes of a record -/

/-- What the reader makes of a record. -/
def nodesOf : Info → List Node
  | .nil => []
  | .free tag text items => .element tag.name [] [.text true text] :: nodesOf items
  | .plain tag value items => .element tag.name [] (textNodes value) :: nodesOf items
  | .dict tag content items => .element tag.name [] (nodesOf content) :: nodesOf items

/-- A field: white space, an element and the end of the line. -/
theorem writes_field {shift : ℕ} {tag : TagName} {inner behind : Str} {children nodes : List Node}
    (hinner : Fills inner children) (hbehind : Writes behind nodes) :
    Writes (openTag shift tag.name ++ inner ++ closeTag tag.name ++ behind)
      (.element tag.name [] children :: nodes) := by
  have hshape : openTag shift tag.name ++ inner ++ closeTag tag.name ++ behind
      = List.replicate shift ' ' ++ (elementText tag.name [] inner ++ (['\n'] ++ behind)) := by
    have hclose : "</".toList = ['<', '/'] := by decide
    have hend : ">\n".toList = ['>', '\n'] := by decide
    simp [openTag, closeTag, elementText, hclose, hend]
  rw [hshape]
  exact (Writes.white (white_spaces shift)).append ((Writes.filled tag.isName tagText_nil
    hinner).append ((Writes.white white_newline).append hbehind))

/-- **A record of clean text writes its nodes.** -/
theorem writes_nodesOf (info : Info) : info.Clean → ∀ shift,
    Writes (xmlOf shift info.toDict) (nodesOf info) := by
  induction info with
  | nil => exact fun _ _ => .nil
  | free tag text items ih =>
    intro hclean shift
    have hcdata : Writes (wrapCDATA text) [.text true text] := by
      rw [wrapCDATA, List.append_assoc]
      exact .cdata hclean.1
    exact writes_field hcdata.fills (ih hclean.2 shift)
  | plain tag value items ih =>
    intro hclean shift
    exact writes_field (.text hclean.1.noMark) (ih hclean.2 shift)
  | dict tag content items ih ih' =>
    intro hclean shift
    have hinner := ((Writes.white white_newline).append (ih hclean.1 (shift + 2))).append
      (Writes.white (white_spaces shift))
    have hfield := @writes_field shift tag _ _ _ _ hinner.fills (ih' hclean.2 shift)
    simpa [xmlOf, Info.toDict, nodesOf] using hfield

/-! ## Its elements -/

/-- The value stands for itself in a file: it has no mark-up, no reference, no line end that is
normalized and no NUL. -/
def Verbatim (value : Str) : Prop := ∀ c ∈ ['<', '&', '\r', '\x00'], c ∉ value

instance (value : Str) : Decidable (Verbatim value) :=
  List.decidableBAll (fun c => c ∉ value) _

theorem Verbatim.plain {value : Str} (h : Verbatim value) : Plain value :=
  ⟨h '<' (by decide), h '\x00' (by decide)⟩

theorem verbatim_nil : Verbatim [] := fun _ _ => List.not_mem_nil

/-- What is not wrapped stands for itself. -/
def Info.Literal : Info → Prop
  | .nil => True
  | .free _ _ items => items.Literal
  | .plain _ value items => Verbatim value ∧ items.Literal
  | .dict _ content items => content.Literal ∧ items.Literal

/-- The text that is read where a value stands: white space is none. -/
def readText (value : Str) : Option Str := if value.all isWhiteSpace then none else some value

/-- The elements of a record. -/
def fields : Info → List XMLElement
  | .nil => []
  | .free tag text items => .mk (String.ofList tag.name) (some (utf8 text)) [] :: fields items
  | .plain tag value items =>
    .mk (String.ofList tag.name) ((readText value).map utf8) [] :: fields items
  | .dict tag content items => .mk (String.ofList tag.name) none (fields content) :: fields items

section

variable (characterRef : Str → Option (Str × ℕ))

/-- The nodes of a record are elements, none of them a text. -/
theorem getText_nodesOf (info : Info) : getText characterRef (nodesOf info) = some none := by
  cases info <;> rfl

theorem getText_textNodes {value : Str} (h : Verbatim value) :
    getText characterRef (textNodes value) = some (readText value) := by
  rw [textNodes, readText]
  by_cases hwhite : value.all isWhiteSpace = true
  · rw [if_pos hwhite, if_pos hwhite]
    rfl
  · rw [if_neg hwhite, if_neg hwhite]
    have hvalue := TinyXml2.getStr_plain characterRef (h '&' (by decide))
      (Nat.lt_succ_self value.length)
    rw [TinyXml2.normalizeNewlines_eq (h '\r' (by decide))] at hvalue
    exact congrArg (Option.map some) hvalue

theorem elements_textNodes (text : Str) : elements characterRef (textNodes text) = some [] := by
  rw [textNodes]
  split <;> rfl

theorem elements_nodesOf (info : Info) : info.Clean → info.Literal →
    elements characterRef (nodesOf info) = some (fields info) := by
  induction info with
  | nil => exact fun _ _ => rfl
  | free tag text items ih =>
    intro hclean hliteral
    have htext : getText characterRef [.text true text] = some (some text) :=
      congrArg (fun s => some (some s)) (TinyXml2.normalizeNewlines_eq hclean.1.noCr)
    have hnone : elements characterRef [.text true text] = some [] := rfl
    rw [nodesOf, elements, Indexer.element, htext, hnone, ih hclean.2 hliteral]
    rfl
  | plain tag value items ih =>
    intro hclean hliteral
    rw [nodesOf, elements, Indexer.element, getText_textNodes characterRef hliteral.1,
      elements_textNodes, ih hclean.2 hliteral.2]
    rfl
  | dict tag content items ih ih' =>
    intro hclean hliteral
    rw [nodesOf, elements, Indexer.element, getText_nodesOf, ih hclean.1 hliteral.1,
      ih' hclean.2 hliteral.2]
    rfl

end

/-! ## The file -/

/-- A record as an item. -/
def itemOf (record : Info) : XMLElement := .mk "item" none (fields record)

theorem fields_itemsOf (records : List Info) : fields (itemsOf records) = records.map itemOf := by
  induction records with
  | nil => rfl
  | cons record records ih =>
    have hname : String.ofList itemTag.name = "item" := String.ofList_toList
    show XMLElement.mk (String.ofList itemTag.name) none (fields record) ::
      fields (itemsOf records) = _
    rw [ih, hname]
    rfl

theorem literal_itemsOf (records : List Info) :
    (itemsOf records).Literal ↔ ∀ record ∈ records, record.Literal := by
  induction records with
  | nil => exact iff_of_true trivial fun _ h => absurd h List.not_mem_nil
  | cons record records ih =>
    rw [List.forall_mem_cons, ← ih]
    rfl

/-- The reader comes to the end of a file of clean text. -/
theorem parse_document_eq {records : List Info} (hclean : ∀ record ∈ records, record.Clean) :
    ∃ fuel₀, ∀ fuel, fuel₀ < fuel → TinyXml2.parse (fuel + 1) (document (records.map Info.toDict))
      = .ok [.declaration headerText, .element itemsTag.name [] (nodesOf (itemsOf records))] := by
  have hcontent : (itemsOf records).Clean := (clean_itemsOf records).mpr hclean
  have hall : (Info.dict itemsTag (itemsOf records) .nil).Clean := ⟨hcontent, trivial⟩
  have hinner : Fills (['\n'] ++ xmlOf 2 (itemsOf records).toDict)
      (nodesOf (itemsOf records)) :=
    ((Writes.white white_newline).append (writes_nodesOf _ hcontent 2)).fills
  have hread := @TinyXml2.Parses.elementText _ _ _ _ _ itemsTag.isName tagText_nil hinner true _ _ _
    _ (TinyXml2.Parses.white white_newline)
  have hshape : xmlOf 0 (Info.dict itemsTag (itemsOf records) .nil).toDict
      = elementText itemsTag.name [] (['\n'] ++ xmlOf 2 (itemsOf records).toDict) ++ ['\n'] := by
    have hclose : "</".toList = ['<', '/'] := by decide
    have hend : ">\n".toList = ['>', '\n'] := by decide
    simp [xmlOf, Info.toDict, openTag, closeTag, elementText, hclose, hend]
  have htagged : TinyXml2.Tagged (elementText itemsTag.name []
      (['\n'] ++ xmlOf 2 (itemsOf records).toDict) ++ ['\n']) := TinyXml2.tagged_cons _
  refine ⟨(elementText itemsTag.name [] (['\n'] ++ xmlOf 2 (itemsOf records).toDict) ++
    ['\n']).length, fun fuel hfuel => ?_⟩
  rw [parse_document, List.append_nil, cPart_eq (noNul_xmlOf hall 0), hshape,
    TinyXml2.parseDeep_white white_newline htagged, hread fuel hfuel]
  rfl

/-- **A file of records is loaded** as the list of its items. -/
theorem loadFile_document (characterRef : Str → Option (Str × ℕ)) {records : List Info}
    (hclean : ∀ record ∈ records, record.Clean) (hliteral : ∀ record ∈ records, record.Literal) :
    ∃ fuel₀, ∀ fuel, fuel₀ ≤ fuel →
      loadFile characterRef fuel (document (records.map Info.toDict))
        = some (.xml [.mk "items" none (records.map itemOf)]) := by
  obtain ⟨fuel₀, hparse⟩ := parse_document_eq hclean
  have helements := elements_nodesOf characterRef (Info.dict itemsTag (itemsOf records) .nil)
    ⟨(clean_itemsOf records).mpr hclean, trivial⟩
    ⟨(literal_itemsOf records).mpr hliteral, trivial⟩
  have hname : String.ofList itemsTag.name = "items" := String.ofList_toList
  rw [fields, fields_itemsOf, hname] at helements
  refine ⟨fuel₀ + 2, fun fuel hfuel => ?_⟩
  obtain ⟨fuel, rfl⟩ := Nat.exists_eq_add_of_le' (Nat.le_of_add_left_le hfuel)
  rw [loadFile, hparse (fuel + 1) (by omega)]
  -- The declaration is no element.
  have hskip : elements characterRef (.declaration headerText ::
      nodesOf (.dict itemsTag (itemsOf records) .nil))
        = some [.mk "items" none (records.map itemOf)] := by
    show (elements characterRef (nodesOf (.dict itemsTag (itemsOf records) .nil))).bind some = _
    rw [helements]
    rfl
  exact congrArg (Option.map RawFileKind.xml) hskip

/-! ## What an item says -/

/-- What stands under a path: an element, and its text if it has one. -/
def Info.lookup : Info → List String → Option (Option Str)
  | _, [] => some none
  | .nil, _ :: _ => none
  | .free tag text items, step :: path =>
    if String.ofList tag.name = step then if path = [] then some (some text) else none
    else items.lookup (step :: path)
  | .plain tag value items, step :: path =>
    if String.ofList tag.name = step then if path = [] then some (readText value) else none
    else items.lookup (step :: path)
  | .dict tag content items, step :: path =>
    if String.ofList tag.name = step then content.lookup path else items.lookup (step :: path)

/-- **The item says what the record says**: there is an element under a path exactly if something
stands under it, and it has its text. -/
structure Tells (record : Info) (item : XMLElement) : Prop where
  name : item.name = "item"
  found : ∀ path : List String, (reached item path).map XMLElement.text
    = (record.lookup path).map (Option.map utf8)

/-- One step down is to the first field of this name. -/
theorem reached_cons {name step : String} {text : Option Bytes} {field : XMLElement}
    {others : List XMLElement} {path : List String} :
    reached (.mk name text (field :: others)) (step :: path)
      = if field.name = step then reached field path
        else reached (.mk name text others) (step :: path) := by
  rw [reached, reached]
  show ((field :: others).find? fun child => child.name == step).bind _ = _
  rw [List.find?_cons]
  by_cases hname : field.name = step
  · rw [if_pos hname, beq_iff_eq.mpr hname]
    rfl
  · rw [if_neg hname, beq_false_of_ne hname]
    rfl

/-- Under a text there is nothing. -/
theorem text_reached_leaf (name : String) (text : Option Bytes) (path : List String) :
    (reached (.mk name text []) path).map XMLElement.text
      = if path = [] then some text else none := by
  cases path <;> rfl

theorem text_reached_fields (info : Info) : ∀ (name : String) (path : List String),
    (reached (.mk name none (fields info)) path).map XMLElement.text
      = (info.lookup path).map (Option.map utf8) := by
  induction info with
  | nil =>
    intro name path
    cases path <;> rfl
  | free tag text items ih =>
    intro name path
    cases path with
    | nil => rfl
    | cons step path =>
      rw [fields, reached_cons, Info.lookup, apply_ite (Option.map XMLElement.text),
        apply_ite (Option.map (Option.map utf8)), text_reached_leaf, ih]
      refine if_congr Iff.rfl ?_ rfl
      split <;> rfl
  | plain tag value items ih =>
    intro name path
    cases path with
    | nil => rfl
    | cons step path =>
      rw [fields, reached_cons, Info.lookup, apply_ite (Option.map XMLElement.text),
        apply_ite (Option.map (Option.map utf8)), text_reached_leaf, ih]
      refine if_congr Iff.rfl ?_ rfl
      split <;> rfl
  | dict tag content items ih ih' =>
    intro name path
    cases path with
    | nil => rfl
    | cons step path =>
      rw [fields, reached_cons, Info.lookup, apply_ite (Option.map XMLElement.text),
        apply_ite (Option.map (Option.map utf8)), ih, ih']
      rfl

theorem tells_itemOf (record : Info) : Tells record (itemOf record) :=
  ⟨rfl, text_reached_fields record "item"⟩

/-- The text of a zone. -/
theorem Tells.pathText {record : Info} {item : XMLElement} (h : Tells record item) (zone : Zone) :
    pathText item zone = (record.lookup zone.path).join.map utf8 := by
  have hfound := h.found zone.path
  rw [Indexer.pathText]
  cases hreached : reached item zone.path with
  | none =>
    rw [hreached] at hfound
    rw [Option.map_eq_none_iff.mp hfound.symm]
    rfl
  | some element =>
    rw [hreached] at hfound
    obtain ⟨text, hlookup, htext⟩ := Option.map_eq_some_iff.mp hfound.symm
    rw [hlookup, Option.bind_some, ← htext]
    rfl

/-! ## A run of the converter -/

/-- The calls of `save`, as the converter is given them. -/
def savedCalls (calls : List (ℚ × Info)) : List (ℚ × Dict) :=
  calls.map fun call => (call.1, call.2.toDict)

/-- Lists of records that are together the records of some dictionaries. -/
theorem exists_records {parts : List (ℤ × List Dict)} : ∀ {records : List Info},
    parts.flatMap Prod.snd = records.map Info.toDict → ∃ lists : List (List Info),
      parts.map Prod.snd = lists.map (List.map Info.toDict) ∧ lists.flatten = records := by
  induction parts with
  | nil =>
    intro records h
    rw [List.map_eq_nil_iff.mp h.symm]
    exact ⟨[], rfl, rfl⟩
  | cons part parts ih =>
    intro records h
    obtain ⟨first, others, rfl, hfirst, hothers⟩ := List.map_eq_append_iff.mp h.symm
    obtain ⟨lists, hlists, rfl⟩ := ih hothers.symm
    exact ⟨first :: lists, by rw [List.map_cons, hlists, ← hfirst]; rfl, rfl⟩

/-- **The files of a run are documents of its records**, in order: of all of them if no two files
are opened in the same second, and of fewer otherwise. -/
theorem convert_documents (flushAfter : ℤ) (start : ℚ) (calls : List (ℚ × Info)) :
    ∃ lists : List (List Info), lists.flatten.Sublist (calls.map Prod.snd) ∧
      ((openings flushAfter start (savedCalls calls)).Nodup →
        lists.flatten = calls.map Prod.snd) ∧
      (¬ (openings flushAfter start (savedCalls calls)).Nodup →
        lists.flatten.length < calls.length) ∧
      (convert flushAfter start (savedCalls calls)).map Prod.snd
        = lists.map fun records => document (records.map Info.toDict) := by
  obtain ⟨parts, last, hcut⟩ := Cut.run (savedCalls calls) (Cut.init flushAfter start)
  have hcalls : [] ++ (savedCalls calls).map Prod.snd = (calls.map Prod.snd).map Info.toDict := by
    rw [List.nil_append, savedCalls, List.map_map, List.map_map]
    rfl
  rw [hcalls] at hcut
  obtain ⟨records, hsub, hrecords⟩ := List.sublist_map_iff.mp hcut.sublist
  have hparts : (parts ++ [(0, last)]).flatMap Prod.snd = parts.flatMap Prod.snd ++ last := by
    rw [List.flatMap_append, List.flatMap_singleton]
  obtain ⟨lists, hlists, rfl⟩ := exists_records (hparts.trans hrecords)
  refine ⟨lists, hsub, fun hnodup => ?_, fun hdup => ?_, ?_⟩
  · refine hsub.eq_of_length ?_
    have hlen := congrArg List.length (hrecords.symm.trans (hcut.whole hnodup).1)
    rwa [List.length_map, List.length_map] at hlen
  · have hlen := hcut.lost hdup
    rwa [hrecords, List.length_map, List.length_map, List.length_map] at hlen
  · rw [convert, Converter.del, hcut.files, hcut.fd]
    have hdocuments := congrArg (List.map document) hlists
    rw [List.map_map, List.map_append] at hdocuments
    rw [List.map_append, List.map_map]
    exact hdocuments.trans (List.map_map ..)

/-- A file with these items. -/
def fileOf (items : List XMLElement) : RawFileKind := .xml [.mk "items" none items]

/-- The directory lists these files, in some order. -/
def ListedAs (characterRef : Str → Option (Str × ℕ)) (fuel : ℕ) (files : List (ℤ × Str))
    (entries : List (String × RawFileKind)) : Prop :=
  (entries.map fun entry => some entry.2).Perm
    (files.map fun file => loadFile characterRef fuel file.2)

/-- The items of such a file. -/
def itemsIn : RawFileKind → List XMLElement
  | .xml [itemsTag] => itemsTag.children
  | _ => []

/-- Files with items are one sequence of them. -/
theorem itemsOf_files {entries : List (String × RawFileKind)}
    (h : ∀ entry ∈ entries, ∃ items, entry.2 = fileOf items) :
    Indexer.itemsOf entries = (entries.map Prod.snd).flatMap itemsIn := by
  induction entries with
  | nil => rfl
  | cons entry entries ih =>
    obtain ⟨path, kind⟩ := entry
    obtain ⟨⟨items, hkind⟩, hothers⟩ := List.forall_mem_cons.mp h
    cases hkind
    show items ++ Indexer.itemsOf entries = _
    rw [ih hothers]
    rfl

/-- Finitely many files need finite fuel. -/
theorem loadFile_documents (characterRef : Str → Option (Str × ℕ)) {lists : List (List Info)}
    (h : ∀ records ∈ lists, ∀ record ∈ records, record.Clean ∧ record.Literal) :
    ∃ fuel₀, ∀ fuel, fuel₀ ≤ fuel → ∀ records ∈ lists,
      loadFile characterRef fuel (document (records.map Info.toDict))
        = some (fileOf (records.map itemOf)) := by
  induction lists with
  | nil => exact ⟨0, fun _ _ _ h => absurd h List.not_mem_nil⟩
  | cons records lists ih =>
    obtain ⟨hfirst, hothers⟩ := List.forall_mem_cons.mp h
    obtain ⟨fuel₁, hload₁⟩ := loadFile_document characterRef (fun record h => (hfirst record h).1)
      fun record h => (hfirst record h).2
    obtain ⟨fuel₂, hload₂⟩ := ih hothers
    refine ⟨max fuel₁ fuel₂, fun fuel hfuel => List.forall_mem_cons.mpr ⟨?_, ?_⟩⟩
    · exact hload₁ fuel ((Nat.le_max_left _ _).trans hfuel)
    · exact hload₂ fuel ((Nat.le_max_right _ _).trans hfuel)

/-- The records of a run, as items, whatever the order in which its files are listed. -/
theorem rawData_of_run (characterRef : Str → Option (Str × ℕ)) {files : List (ℤ × Str)}
    {lists : List (List Info)} (hfiles : files.map Prod.snd
      = lists.map fun records => document (records.map Info.toDict))
    (h : ∀ records ∈ lists, ∀ record ∈ records, record.Clean ∧ record.Literal) :
    ∃ fuel₀, ∀ fuel, fuel₀ ≤ fuel → (∃ entries, ListedAs characterRef fuel files entries) ∧
      ∀ entries, ListedAs characterRef fuel files entries →
        (Indexer.itemsOf entries).Perm (lists.flatten.map itemOf) := by
  obtain ⟨fuel₀, hload⟩ := loadFile_documents characterRef h
  refine ⟨fuel₀, fun fuel hfuel => ?_⟩
  have hkinds : (files.map fun file => loadFile characterRef fuel file.2)
      = (lists.map fun records => fileOf (records.map itemOf)).map some := by
    have hmap := congrArg (List.map (loadFile characterRef fuel)) hfiles
    rw [List.map_map, List.map_map] at hmap
    rw [List.map_map]
    exact hmap.trans (List.map_congr_left fun records hrecords => hload fuel hfuel records hrecords)
  refine ⟨⟨lists.map fun records => ("", fileOf (records.map itemOf)), ?_⟩, fun entries hperm => ?_⟩
  · rw [ListedAs, hkinds, List.map_map, List.map_map]
    exact List.Perm.refl _
  rw [ListedAs, hkinds, ← Function.comp_def some Prod.snd, ← List.map_map] at hperm
  have hperm' := (List.map_perm_map_iff (Option.some_injective _)).mp hperm
  have hentries : ∀ entry ∈ entries, ∃ items, entry.2 = fileOf items := by
    intro entry hentry
    have hmem := hperm'.subset (List.mem_map_of_mem hentry)
    obtain ⟨records, -, hkind⟩ := List.mem_map.mp hmem
    exact ⟨_, hkind.symm⟩
  rw [itemsOf_files hentries]
  refine (hperm'.flatMap_right itemsIn).trans (List.Perm.of_eq ?_)
  rw [List.flatMap_map]
  show lists.flatMap (fun records => records.map itemOf) = _
  rw [← List.map_flatMap, List.flatMap_id']

/-! ## Videos -/

theorem verbatim_formatInt (n : ℤ) : Verbatim (formatInt n) := by
  intro c hc
  have hchar : ∀ c ∈ ['<', '&', '\r', '\x00'], c.isDigit = false ∧ c ≠ '-' := by
    simp only [List.forall_mem_cons, List.not_mem_nil, false_implies, implies_true, and_true]
    decide
  exact notMem_formatInt (hchar c hc).1 (hchar c hc).2 n

/-- What the page says about a video without being wrapped stands for itself. -/
structure Video.Literal (video : Video) : Prop where
  videoId : Verbatim video.videoId
  isFamilyFriendly : Verbatim video.isFamilyFriendly
  date : Verbatim video.date

theorem Video.Literal.clean {video : Video} (h : video.Literal)
    (hfree : ∀ text ∈ video.freeTexts, TinyXml2.Clean text) : video.info.Clean := by
  refine video.clean_iff.mpr ⟨hfree, ?_⟩
  simp only [Video.plainValues, List.forall_mem_cons]
  exact ⟨h.videoId.plain, h.isFamilyFriendly.plain, h.date.plain, fun _ h =>
    absurd h List.not_mem_nil⟩

theorem literal_langInfo (subs : Option VideoSubs) : (langInfo subs).Literal := by
  cases subs with
  | none => trivial
  | some subs => exact ⟨verbatim_formatInt _, trivial⟩

theorem literal_keywordsInfo {keywords : Option Str} {items : Info} (h : items.Literal) :
    (keywordsInfo keywords items).Literal := by
  cases keywords with
  | none => exact ⟨verbatim_nil, h⟩
  | some keywords => exact h

theorem verbatim_loudnessText (loudness : Option ℤ) : Verbatim (loudnessText loudness) := by
  cases loudness with
  | none => exact verbatim_nil
  | some loudness => exact verbatim_formatInt loudness

/-- The numbers of a record are literal anyway. -/
theorem Video.Literal.info {video : Video} (h : video.Literal) : video.info.Literal := by
  have hsubs : (Info.dict ⟨"ru".toList, by decide⟩ (langInfo video.ru) <|
      .dict ⟨"en".toList, by decide⟩ (langInfo video.en) .nil).Literal :=
    ⟨literal_langInfo _, literal_langInfo _, trivial⟩
  refine ⟨h.videoId, verbatim_formatInt _, literal_keywordsInfo ⟨verbatim_loudnessText _,
    verbatim_formatInt _, h.isFamilyFriendly, verbatim_formatInt _, h.date, verbatim_formatInt _,
    verbatim_formatInt _, verbatim_formatInt _, verbatim_formatInt _, hsubs⟩⟩

/-- The calls of a run over videos. -/
def infoCalls (calls : List (ℚ × Video)) : List (ℚ × Info) :=
  calls.map fun call => (call.1, call.2.info)

/-- The files of the run over these videos. -/
def filesOfVideos (flushAfter : ℤ) (start : ℚ) (calls : List (ℚ × Video)) : List (ℤ × Str) :=
  convert flushAfter start (savedCalls (infoCalls calls))

/-- The seconds in which it opens them. -/
def openingsOfVideos (flushAfter : ℤ) (start : ℚ) (calls : List (ℚ × Video)) : List ℤ :=
  openings flushAfter start (savedCalls (infoCalls calls))

/-- **What it is to hand over some videos**: however the files are listed, and with enough fuel to
load them, their items are one for every video, and each item says what the page of its video
says. -/
def HandsOver (characterRef : Str → Option (Str × ℕ)) (files : List (ℤ × Str))
    (videos : List Video) : Prop :=
  ∃ fuel₀, ∀ fuel, fuel₀ ≤ fuel → ∀ entries, ListedAs characterRef fuel files entries →
    ∃ items, (Indexer.itemsOf entries).Perm items ∧
      List.Forall₂ (fun video item => Tells video.info item) videos items

section

variable (characterRef : Str → Option (Str × ℕ)) {flushAfter : ℤ} {start : ℚ}
  {calls : List (ℚ × Video)}
  (hclean : ∀ call ∈ calls, ∀ text ∈ call.2.freeTexts, TinyXml2.Clean text)
  (hliteral : ∀ call ∈ calls, call.2.Literal)

include hclean hliteral

/-- The items of a run over videos. -/
theorem rawData_of_videos : ∃ records : List Info,
    ((openingsOfVideos flushAfter start calls).Nodup →
      records = calls.map fun call => call.2.info) ∧
    (¬ (openingsOfVideos flushAfter start calls).Nodup → records.length < calls.length) ∧
    ∃ fuel₀, ∀ fuel, fuel₀ ≤ fuel →
      (∃ entries, ListedAs characterRef fuel (filesOfVideos flushAfter start calls) entries) ∧
      ∀ entries, ListedAs characterRef fuel (filesOfVideos flushAfter start calls) entries →
        (Indexer.itemsOf entries).Perm (records.map itemOf) := by
  obtain ⟨lists, hsub, hwhole, hlost, hfiles⟩ :=
    convert_documents flushAfter start (infoCalls calls)
  have hinfos : (infoCalls calls).map Prod.snd = calls.map fun call => call.2.info := by
    rw [infoCalls, List.map_map]
    rfl
  rw [hinfos] at hsub hwhole
  have hrecord : ∀ records ∈ lists, ∀ record ∈ records, record.Clean ∧ record.Literal := by
    intro records hrecords record hrecord
    obtain ⟨call, hcall, rfl⟩ :=
      List.mem_map.mp (hsub.subset (List.mem_flatten.mpr ⟨records, hrecords, hrecord⟩))
    exact ⟨(hliteral call hcall).clean (hclean call hcall), (hliteral call hcall).info⟩
  refine ⟨lists.flatten, hwhole, fun hdup => ?_, rawData_of_run characterRef hfiles hrecord⟩
  exact (hlost hdup).trans_eq (List.length_map _)

theorem handsOver_of_nodup (hnodup : (openingsOfVideos flushAfter start calls).Nodup) :
    HandsOver characterRef (filesOfVideos flushAfter start calls) (calls.map Prod.snd) := by
  obtain ⟨records, hwhole, -, fuel₀, hraw⟩ :=
    @rawData_of_videos characterRef flushAfter start calls hclean hliteral
  refine ⟨fuel₀, fun fuel hfuel entries hlists => ⟨_, (hraw fuel hfuel).2 entries hlists, ?_⟩⟩
  rw [hwhole hnodup, List.map_map, List.forall₂_map_left_iff, List.forall₂_map_right_iff]
  exact List.forall₂_same.mpr fun call _ => tells_itemOf call.2.info

/-- **What the spider saves is what the indexer reads**, exactly if no two files are opened in the
same second. -/
theorem handsOver_iff :
    HandsOver characterRef (filesOfVideos flushAfter start calls) (calls.map Prod.snd) ↔
      (openingsOfVideos flushAfter start calls).Nodup := by
  obtain ⟨records, -, hlost, fuel₀, hraw⟩ :=
    @rawData_of_videos characterRef flushAfter start calls hclean hliteral
  constructor
  · rintro ⟨fuel₁, hhands⟩
    by_contra hdup
    have hless := hlost hdup
    obtain ⟨⟨entries, hlists⟩, hitems⟩ := hraw (max fuel₀ fuel₁) (Nat.le_max_left _ _)
    obtain ⟨items, hperm, htells⟩ := hhands _ (Nat.le_max_right _ _) entries hlists
    have hlen := ((hitems entries hlists).symm.trans hperm).length_eq
    rw [List.length_map, ← htells.length_eq, List.length_map] at hlen
    omega
  · exact handsOver_of_nodup characterRef hclean hliteral

end

/-- A text of letters is clean. -/
theorem clean_x : TinyXml2.Clean ['x'] := ⟨by decide, by decide, by decide⟩

theorem clean_nil : TinyXml2.Clean [] := ⟨by decide, by decide, by decide⟩

/-- Two videos, saved at the seconds 1 and 2. -/
def twoVideos : List (ℚ × Video) := [(1, titled ['x']), (2, { titled [] with id := 1 })]

/-- Every record fills a file here, and the last file is empty: both videos are handed over. -/
theorem handsOver_iff_titled :
    (filesOfVideos 100 0 twoVideos).map Prod.fst = [0, 1, 2] ∧
      HandsOver (fun _ => none) (filesOfVideos 100 0 twoVideos)
        [titled ['x'], { titled [] with id := 1 }] := by
  have hclean : ∀ call ∈ twoVideos, ∀ text ∈ call.2.freeTexts, TinyXml2.Clean text := by
    rw [twoVideos, List.forall_mem_cons, List.forall_mem_singleton]
    constructor
    · show ∀ text ∈ [['x'], [], []], TinyXml2.Clean text
      simp [clean_x, clean_nil]
    · show ∀ text ∈ [[], [], []], TinyXml2.Clean text
      simp [clean_nil]
  have hliteral : ∀ call ∈ twoVideos, call.2.Literal := by
    rw [twoVideos, List.forall_mem_cons, List.forall_mem_singleton]
    exact ⟨⟨verbatim_nil, verbatim_nil, verbatim_nil⟩, verbatim_nil, verbatim_nil, verbatim_nil⟩
  exact ⟨by decide +kernel,
    (handsOver_iff (fun _ => none) hclean hliteral).mpr (by decide +kernel)⟩

end Amigos.Spider
