import Amigos.Contrib.TinyXml2
import Amigos.Spider.Converter
import Amigos.Spider.Parser

/-!
# Records, as the indexer reads them

What strangers have written about a video is put between `<![CDATA[` and `]]>` as it is; numbers,
dates and flags stand in their elements without. The reader ends a section at the first `]]>`: what
is behind it in the text is mark-up then, and may close the element, the item or the whole list. A
date is a piece of the page, too, and is mark-up from its first `<` on.

So a file is read back, item by item and field by field, exactly if all free text in it is clean and
all that is not wrapped is plain (`readBack_iff`, and `videos_readBack_iff` for the records that the
converter makes). Up to the first field that is not, everything is read as it was written; that
field is not, whatever the rest comes to. If the tags and the free text only are asked for, a `<` in
another value may come to nothing: it can begin a comment.
-/

set_option autoImplicit false

namespace Amigos.Spider

open Amigos.Lib
open Amigos.TinyXml2 (Node isName White parseDeep Parses getCdata textNodes)

/-! ## Records -/

structure TagName where
  name : Str
  isName : isName name = true

/-- A record, item by item: free text is wrapped, and a number, a date or a flag is not. -/
inductive Info where
  | nil
  | free (tag : TagName) (text : Str) (items : Info)
  | plain (tag : TagName) (value : Str) (items : Info)
  | dict (tag : TagName) (content items : Info)

/-- What `save` is given. -/
def Info.toDict : Info → Dict
  | .nil => .nil
  | .free tag text items => .text tag.name (wrapCDATA text) items.toDict
  | .plain tag value items => .text tag.name value items.toDict
  | .dict tag content items => .dict tag.name content.toDict items.toDict

/-- A value without mark-up, and without the end of a C string. -/
structure Plain (value : Str) : Prop where
  noMark : '<' ∉ value
  noNul : '\x00' ∉ value

/-- Free text is clean, and what is not wrapped is plain. -/
def Info.Clean : Info → Prop
  | .nil => True
  | .free _ text items => TinyXml2.Clean text ∧ items.Clean
  | .plain _ value items => Plain value ∧ items.Clean
  | .dict _ content items => content.Clean ∧ items.Clean

/-- What is not wrapped has no mark-up in it. -/
def Info.Unmarked : Info → Prop
  | .nil => True
  | .free _ _ items => items.Unmarked
  | .plain _ value items => '<' ∉ value ∧ items.Unmarked
  | .dict _ content items => content.Unmarked ∧ items.Unmarked

/-- **The nodes are those of the record**: the same tags, nested in the same way, and free text
that is the one that was wrapped. The `whole` record is read if the other values stand there as they
were written. -/
inductive Reads (whole : Prop) : Info → List Node → Prop where
  | nil : Reads whole .nil []
  | free {tag : TagName} {text : Str} {items : Info} {attributes : List (Str × Str)}
    {children nodes : List Node} (hchildren : ∀ node ∈ children, node.isElement = false)
    (htext : getCdata children = some text) (h : Reads whole items nodes) :
    Reads whole (.free tag text items) (.element tag.name attributes children :: nodes)
  | plain {tag : TagName} {value : Str} {items : Info} {attributes : List (Str × Str)}
    {children nodes : List Node} (hchildren : ∀ node ∈ children, node.isElement = false)
    (hvalue : whole → children = textNodes value) (h : Reads whole items nodes) :
    Reads whole (.plain tag value items) (.element tag.name attributes children :: nodes)
  | dict {tag : TagName} {content items : Info} {attributes : List (Str × Str)}
    {children nodes : List Node} (hcontent : Reads whole content children)
    (h : Reads whole items nodes) :
    Reads whole (.dict tag content items) (.element tag.name attributes children :: nodes)

/-! ## The list of items -/

def itemTag : TagName := ⟨"item".toList, by decide⟩
def itemsTag : TagName := ⟨"items".toList, by decide⟩

/-- The items of a file. -/
def itemsOf (records : List Info) : Info := records.foldr (.dict itemTag) .nil

/-- **A file of records is read back**: behind the declaration stands the list, and its children are
the items, in order. -/
def ReadBack (whole : Prop) (records : List Info) : Prop :=
  ∃ fuel header nodes, TinyXml2.parse fuel (document (records.map Info.toDict))
    = .ok (header :: nodes) ∧ Reads whole (.dict itemsTag (itemsOf records) .nil) nodes

theorem xmlOf_itemsOf (records : List Info) :
    xmlOf 2 (itemsOf records).toDict = (records.map Info.toDict).flatMap item := by
  induction records with
  | nil => rfl
  | cons record records ih =>
    rw [List.map_cons, List.flatMap_cons, ← ih]
    show openTag 2 itemTag.name ++ ['\n'] ++ xmlOf 4 record.toDict ++
      (List.replicate 2 ' ' ++ closeTag itemTag.name) ++ xmlOf 2 (itemsOf records).toDict = _
    rfl

theorem document_eq (records : List Info) : document (records.map Info.toDict)
    = xmlHeader ++ xmlOf 0 (Info.dict itemsTag (itemsOf records) .nil).toDict := by
  show _ = xmlHeader ++ (openTag 0 itemsTag.name ++ ['\n'] ++ xmlOf 2 (itemsOf records).toDict ++
    (List.replicate 0 ' ' ++ closeTag itemsTag.name) ++ [])
  rw [xmlOf_itemsOf, document, beginning, List.append_nil, List.append_assoc, List.append_assoc]
  rfl

theorem clean_itemsOf (records : List Info) :
    (itemsOf records).Clean ↔ ∀ record ∈ records, record.Clean := by
  induction records with
  | nil => exact iff_of_true trivial fun _ h => absurd h List.not_mem_nil
  | cons record records ih =>
    rw [List.forall_mem_cons, ← ih]
    rfl

theorem unmarked_itemsOf (records : List Info) :
    (itemsOf records).Unmarked ↔ ∀ record ∈ records, record.Unmarked := by
  induction records with
  | nil => exact iff_of_true trivial fun _ h => absurd h List.not_mem_nil
  | cons record records ih =>
    rw [List.forall_mem_cons, ← ih]
    rfl

/-! ## How a record is laid out -/

theorem white_spaces (shift : ℕ) : White (List.replicate shift ' ') := by
  intro c hc
  rw [List.eq_of_mem_replicate hc]
  rfl

theorem white_nil : White [] := fun _ hc => absurd hc List.not_mem_nil

theorem white_newline : White ['\n'] := by
  intro c hc
  rw [List.mem_singleton.mp hc]
  rfl

theorem White.append {s t : Str} (hs : White s) (ht : White t) : White (s ++ t) := by
  intro c hc
  exact (List.mem_append.mp hc).elim (hs c) (ht c)

theorem TagName.noNul (tag : TagName) : '\x00' ∉ tag.name := by
  intro hmem
  have hchar := TinyXml2.isNameChar_of_mem tag.isName hmem
  revert hchar
  decide

theorem openTag_append (shift : ℕ) (tag : TagName) (s : Str) :
    openTag shift tag.name ++ s
      = List.replicate shift ' ' ++ '<' :: (tag.name ++ '>' :: s) := by
  simp [openTag]

theorem closeTag_append (tag : TagName) (s : Str) :
    closeTag tag.name ++ s = "</".toList ++ tag.name ++ '>' :: '\n' :: s := by
  simp [closeTag]

theorem noNul_blanks (shift : ℕ) : '\x00' ∉ List.replicate shift ' ' :=
  fun h => absurd (List.eq_of_mem_replicate h) (by decide)

theorem noNul_openTag (shift : ℕ) (tag : TagName) : '\x00' ∉ openTag shift tag.name := by
  simp [openTag, tag.noNul]

theorem noNul_closeTag (tag : TagName) : '\x00' ∉ closeTag tag.name := by
  simp [closeTag, tag.noNul]

/-- What follows an opening tag, up to the tag that closes it and on. -/
theorem xmlOf_free (shift : ℕ) (tag : TagName) (text : Str) (items : Info) (tail : Str) :
    xmlOf shift (Info.free tag text items).toDict ++ tail = openTag shift tag.name ++
      (cdataBegin ++ (text ++ cdataEnd ++
        (closeTag tag.name ++ (xmlOf shift items.toDict ++ tail)))) := by
  simp only [Info.toDict, xmlOf, wrapCDATA, List.append_assoc]

theorem xmlOf_plain (shift : ℕ) (tag : TagName) (value : Str) (items : Info) (tail : Str) :
    xmlOf shift (Info.plain tag value items).toDict ++ tail = openTag shift tag.name ++
      (value ++ (closeTag tag.name ++ (xmlOf shift items.toDict ++ tail))) := by
  simp only [Info.toDict, xmlOf, List.append_assoc]

theorem xmlOf_dict (shift : ℕ) (tag : TagName) (content items : Info) (tail : Str) :
    xmlOf shift (Info.dict tag content items).toDict ++ tail = openTag shift tag.name ++
      (['\n'] ++ (xmlOf (shift + 2) content.toDict ++ (List.replicate shift ' ' ++
        (closeTag tag.name ++ (xmlOf shift items.toDict ++ tail))))) := by
  simp only [Info.toDict, xmlOf, List.append_assoc]

/-! ## What is read is clean -/

/-- A value that is read as it was written is plain: it ends where the mark-up begins. -/
theorem plain_of_textNodes {value tail rest : Str} {fuel : ℕ} {document noChildren : Bool}
    {endTag : Option Str} (hread : parseDeep fuel document noChildren (cPart (value ++ tail))
      = .ok (textNodes value, endTag, rest)) : Plain value := by
  by_cases hwhite : value.all TinyXml2.isWhiteSpace = true
  · have hchar := List.all_eq_true.mp hwhite
    exact ⟨fun hmem => absurd (hchar _ hmem) (by decide), fun hmem =>
      absurd (hchar _ hmem) (by decide)⟩
  · rw [textNodes, if_neg hwhite] at hread
    obtain ⟨hfront, hmark⟩ := TinyXml2.text_of_parseDeep hread
    exact ⟨hmark, fun hmem => nul_notMem_cPart _ (hfront.subset hmem)⟩

/-- A value without mark-up is plain if it is closed: otherwise the document ends in it. -/
theorem plain_of_closed {value tail rest name : Str} {fuel : ℕ} {document noChildren : Bool}
    {nodes : List Node} (hmark : '<' ∉ value)
    (hread : parseDeep fuel document noChildren (cPart (value ++ tail))
      = .ok (nodes, some name, rest)) : Plain value := by
  refine ⟨hmark, fun hmem => ?_⟩
  rw [cPart_append_of_mem hmem] at hread
  have hcut : '<' ∉ cPart value := fun h => hmark ((List.takeWhile_prefix _).subset h)
  cases TinyXml2.endTag_of_parseDeep hcut hread

/-- **Where the nodes are those of the record, it is clean**, and the rest of the file is left. By
induction on the record. -/
theorem clean_of_reads {whole : Prop} (info : Info) :
    ∀ {shift fuel : ℕ} {document noChildren : Bool}
    {ws tail rest : Str} {nodes more ns : List Node} {endTag : Option Str},
    whole ∨ info.Unmarked → White ws →
    parseDeep fuel document noChildren (ws ++ cPart (xmlOf shift info.toDict ++ tail))
      = .ok (nodes, endTag, rest) → nodes = ns ++ more → Reads whole info ns →
    info.Clean ∧ ∃ fuel' noChildren' ws', White ws' ∧
      parseDeep fuel' document noChildren' (ws' ++ cPart tail) = .ok (more, endTag, rest) := by
  induction info with
  | nil =>
    intro shift fuel document noChildren ws tail rest nodes more ns endTag hmarks hws hread hnodes
      hreads
    cases hreads
    subst hnodes
    exact ⟨trivial, fuel, noChildren, ws, hws, hread⟩
  | free tag text items ih =>
    intro shift fuel document noChildren ws tail rest nodes more ns endTag hmarks hws hread hnodes
      hreads
    have hcdata : '\x00' ∉ cdataBegin := by decide
    have hbegin : cdataBegin = "<![CDATA[".toList := rfl
    rw [xmlOf_free, cPart_append (noNul_openTag shift tag), openTag_append, cPart_append hcdata,
      hbegin, ← List.append_assoc] at hread
    obtain ⟨fuel₁, children, p, nodes₁, hchildren, hsiblings, rfl⟩ := TinyXml2.element_of_parseDeep
      (White.append hws (white_spaces shift)) tag.isName hread
    obtain ⟨fuel₂, value, p', nodes₂, htext, hchildren, rfl⟩ :=
      TinyXml2.cdata_of_parseDeep hchildren
    cases hreads with
    | free hno hget hreads =>
    obtain ⟨hnode, hbehind⟩ := List.cons.inj hnodes
    cases hnode
    have hend : cdataEnd = "]]>".toList := rfl
    rw [hend] at htext
    obtain ⟨hclean, rfl⟩ := TinyXml2.clean_of_parseText htext (Option.some.inj hget)
    rw [cPart_append (noNul_closeTag tag), closeTag_append, ← List.nil_append "</".toList]
      at hchildren
    obtain ⟨-, -, rfl⟩ := TinyXml2.closing_of_parseDeep white_nil tag.isName hchildren
    obtain ⟨hitems, hrest⟩ := ih hmarks white_newline hsiblings hbehind hreads
    exact ⟨⟨hclean, hitems⟩, hrest⟩
  | plain tag value items ih =>
    intro shift fuel document noChildren ws tail rest nodes more ns endTag hmarks hws hread hnodes
      hreads
    rw [xmlOf_plain, cPart_append (noNul_openTag shift tag), openTag_append,
      ← List.append_assoc] at hread
    obtain ⟨fuel₁, children, p, nodes₁, hchildren, hsiblings, rfl⟩ := TinyXml2.element_of_parseDeep
      (White.append hws (white_spaces shift)) tag.isName hread
    cases hreads with
    | plain hno hvalue hreads =>
    obtain ⟨hnode, hbehind⟩ := List.cons.inj hnodes
    cases hnode
    have hplain : Plain value := by
      rcases hmarks with hwhole | hmarks
      · rw [hvalue hwhole] at hchildren
        exact plain_of_textNodes hchildren
      · exact plain_of_closed hmarks.1 hchildren
    rw [cPart_append hplain.noNul, cPart_append (noNul_closeTag tag), closeTag_append,
      ← List.append_assoc, ← List.append_assoc] at hchildren
    obtain ⟨-, -, rfl⟩ := TinyXml2.plain_of_parseDeep hplain.noMark tag.isName hchildren
    obtain ⟨hitems, hrest⟩ := ih (hmarks.imp id And.right) white_newline hsiblings hbehind hreads
    exact ⟨⟨hplain, hitems⟩, hrest⟩
  | dict tag content items ihcontent ih =>
    intro shift fuel document noChildren ws tail rest nodes more ns endTag hmarks hws hread hnodes
      hreads
    have hnewline : '\x00' ∉ ['\n'] := by decide
    rw [xmlOf_dict, cPart_append (noNul_openTag shift tag), openTag_append,
      cPart_append hnewline, ← List.append_assoc] at hread
    obtain ⟨fuel₁, children, p, nodes₁, hchildren, hsiblings, rfl⟩ := TinyXml2.element_of_parseDeep
      (White.append hws (white_spaces shift)) tag.isName hread
    cases hreads with
    | dict hcontent hreads =>
    obtain ⟨hnode, hbehind⟩ := List.cons.inj hnodes
    cases hnode
    obtain ⟨hclean, fuel₂, noChildren₂, ws₂, hws₂, hclosing⟩ :=
      ihcontent (hmarks.imp id And.left) white_newline hchildren (List.append_nil _).symm hcontent
    rw [cPart_append (noNul_blanks shift), cPart_append (noNul_closeTag tag), closeTag_append,
      ← List.append_assoc, ← List.append_assoc, ← List.append_assoc] at hclosing
    obtain ⟨-, -, rfl⟩ := TinyXml2.closing_of_parseDeep
      (White.append hws₂ (white_spaces shift)) tag.isName hclosing
    obtain ⟨hitems, hrest⟩ := ih (hmarks.imp id And.right) white_newline hsiblings hbehind hreads
    exact ⟨⟨hclean, hitems⟩, hrest⟩

/-! ## What is clean is read -/

/-- Clean text is read to its end. -/
theorem noNul_xmlOf {info : Info} (h : info.Clean) :
    ∀ shift, '\x00' ∉ xmlOf shift info.toDict := by
  induction info with
  | nil => exact fun _ => List.not_mem_nil
  | free tag text items ih =>
    intro shift
    have hbegin : '\x00' ∉ cdataBegin := by decide
    have hend : '\x00' ∉ cdataEnd := by decide
    simp [Info.toDict, xmlOf, wrapCDATA, noNul_openTag, noNul_closeTag, hbegin, hend, h.1.noNul,
      ih h.2 shift]
  | plain tag value items ih =>
    intro shift
    simp [Info.toDict, xmlOf, noNul_openTag, noNul_closeTag, h.1.noNul, ih h.2 shift]
  | dict tag content items ihcontent ih =>
    intro shift
    simp [Info.toDict, xmlOf, noNul_openTag, noNul_closeTag, ihcontent h.1 (shift + 2),
      ih h.2 shift]

/-- A field, and the fields behind it. -/
theorem parses_field {shift : ℕ} {tag : TagName} {document noChildren : Bool}
    {ws body behind rest : Str} {children nodes : List Node} {endTag : Option Str} (hws : White ws)
    (hchildren : Parses false noChildren (body ++ (closeTag tag.name ++ behind))
      (children, some tag.name, '\n' :: behind))
    (hnodes : Parses document (noChildren && !document) ('\n' :: behind) (nodes, endTag, rest)) :
    Parses document noChildren
      (ws ++ (openTag shift tag.name ++ (body ++ (closeTag tag.name ++ behind))))
      (.element tag.name [] children :: nodes, endTag, rest) := by
  rw [openTag_append, ← List.append_assoc ws]
  rw [closeTag_append] at hchildren ⊢
  refine .element (White.append hws (white_spaces shift)) tag.isName (by simp) hchildren ?_ hnodes
  simp only [List.length_append, List.length_cons]
  omega

/-- What closes a field. -/
theorem parses_close {noChildren : Bool} {ws : Str} (hws : White ws) (tag : TagName)
    (behind : Str) : Parses false noChildren (ws ++ (closeTag tag.name ++ behind))
      ([], some tag.name, '\n' :: behind) := by
  rw [closeTag_append, ← List.append_assoc ws, ← List.append_assoc ws]
  exact .closing hws tag.isName _

/-- **A record of clean text is read**, and then what is behind it. By induction on the record. -/
theorem reads_of_clean (whole : Prop) (info : Info) : ∀ {shift : ℕ} {document noChildren : Bool}
    {ws tail rest : Str} {more : List Node} {endTag : Option Str}, info.Clean → White ws →
    (∀ noChildren' ws', White ws' →
      Parses document noChildren' (ws' ++ tail) (more, endTag, rest)) →
    ∃ ns, Reads whole info ns ∧
      Parses document noChildren (ws ++ (xmlOf shift info.toDict ++ tail))
        (ns ++ more, endTag, rest) := by
  induction info with
  | nil =>
    intro shift document noChildren ws tail rest more endTag _ hws htail
    exact ⟨[], .nil, htail noChildren ws hws⟩
  | free tag text items ih =>
    intro shift document noChildren ws tail rest more endTag hclean hws htail
    obtain ⟨hclean, hitems⟩ := hclean
    obtain ⟨ns, hreads, hsiblings⟩ := @ih shift document (noChildren && !document) _ tail rest more
      endTag hitems white_newline htail
    rw [List.singleton_append] at hsiblings
    have hno : ∀ node ∈ [Node.text true text], node.isElement = false := by
      rw [List.forall_mem_singleton]
      rfl
    have hget : getCdata [Node.text true text] = some text :=
      congrArg some (TinyXml2.normalizeNewlines_eq hclean.noCr)
    refine ⟨.element tag.name [] [.text true text] :: ns, .free hno hget hreads, ?_⟩
    have hbegin : cdataBegin = "<![CDATA[".toList := rfl
    have hend : cdataEnd = "]]>".toList := rfl
    rw [xmlOf_free, ← List.append_assoc cdataBegin]
    refine parses_field hws ?_ hsiblings
    rw [List.append_assoc, hbegin, hend]
    exact .cdata (hclean.parseText _) (List.suffix_append _ _).length_le
      (parses_close white_nil tag _)
  | plain tag value items ih =>
    intro shift document noChildren ws tail rest more endTag hclean hws htail
    obtain ⟨hplain, hitems⟩ := hclean
    obtain ⟨ns, hreads, hsiblings⟩ := @ih shift document (noChildren && !document) _ tail rest more
      endTag hitems white_newline htail
    rw [List.singleton_append] at hsiblings
    have hchildren := @Parses.plain false noChildren _ _ hplain.noMark tag.isName
      ('\n' :: (xmlOf shift items.toDict ++ tail))
    refine ⟨.element tag.name [] (textNodes value) :: ns,
      .plain (TinyXml2.isElement_textNodes value) (fun _ => rfl) hreads, ?_⟩
    rw [xmlOf_plain]
    refine parses_field hws ?_ hsiblings
    rw [closeTag_append, ← List.append_assoc value, ← List.append_assoc value]
    exact hchildren
  | dict tag content items ihcontent ih =>
    intro shift document noChildren ws tail rest more endTag hclean hws htail
    obtain ⟨hcontent, hitems⟩ := hclean
    obtain ⟨ns, hreads, hsiblings⟩ := @ih shift document (noChildren && !document) _ tail rest more
      endTag hitems white_newline htail
    rw [List.singleton_append] at hsiblings
    have hclosing : ∀ noChildren' ws', White ws' → Parses false noChildren'
        (ws' ++ (List.replicate shift ' ' ++ (closeTag tag.name ++
          (xmlOf shift items.toDict ++ tail))))
        ([], some tag.name, '\n' :: (xmlOf shift items.toDict ++ tail)) := by
      intro noChildren' ws' hws'
      rw [← List.append_assoc ws']
      exact parses_close (White.append hws' (white_spaces shift)) tag _
    obtain ⟨children, hread, hchildren⟩ := @ihcontent (shift + 2) false noChildren _ _ _ _ _
      hcontent white_newline hclosing
    rw [List.append_nil] at hchildren
    refine ⟨.element tag.name [] children :: ns, .dict hread hreads, ?_⟩
    rw [xmlOf_dict, ← List.append_assoc ['\n'], ← List.append_assoc _ (List.replicate shift ' ')]
    refine parses_field hws ?_ hsiblings
    rw [List.append_assoc, List.append_assoc]
    exact hchildren

/-! ## The file -/

/-- What the declaration says. -/
def headerText : Str := "xml version=\"1.0\" encoding=\"utf-8\" ".toList

/-- The declaration is read, and behind it the list. -/
theorem parse_document (fuel : ℕ) (records : List Info) :
    TinyXml2.parse (fuel + 1) (document (records.map Info.toDict)) = (do
      let (nodes, _, _) ← parseDeep fuel true false (['\n'] ++
        cPart (xmlOf 0 (Info.dict itemsTag (itemsOf records) .nil).toDict ++ []))
      return .declaration headerText :: nodes) := by
  have hheader : xmlHeader = '<' :: '?' :: (headerText ++ ['?', '>', '\n']) := by decide
  have hnul : '\x00' ∉ xmlHeader := by decide
  rw [document_eq, List.append_nil]
  generalize xmlOf 0 (Info.dict itemsTag (itemsOf records) .nil).toDict = text
  have hshape : xmlHeader ++ cPart text
      = '<' :: '?' :: (headerText ++ '?' :: '>' :: (['\n'] ++ cPart text)) := by
    rw [hheader]
    simp
  unfold TinyXml2.parse
  rw [cPart_append hnul, hshape, TinyXml2.skipWhiteSpace_cons (by decide)]
  have hbom : ∀ p : Str, ¬ ('<' :: p).head? = some '\ufeff' := by
    intro p
    rw [List.head?_cons]
    decide
  dsimp only
  rw [if_neg (hbom _), if_neg (List.cons_ne_nil _ _), TinyXml2.parseDeep_declaration (by decide)]
  cases parseDeep fuel true false (['\n'] ++ cPart text) <;> rfl

theorem clean_of_readBack {whole : Prop} {records : List Info}
    (hmarks : whole ∨ ∀ record ∈ records, record.Unmarked) (h : ReadBack whole records) :
    ∀ record ∈ records, record.Clean := by
  obtain ⟨fuel, header, nodes, hparse, hreads⟩ := h
  rw [← clean_itemsOf]
  cases fuel with
  | zero =>
    unfold TinyXml2.parse parseDeep at hparse
    dsimp only at hparse
    split_ifs at hparse <;> cases hparse
  | succ fuel =>
  rw [parse_document] at hparse
  obtain ⟨⟨nodes', endTag, rest⟩, hread, hnodes⟩ := Outcome.bind_eq_ok hparse
  cases hnodes
  have hunmarked : whole ∨ (Info.dict itemsTag (itemsOf records) .nil).Unmarked :=
    hmarks.imp id fun h => ⟨(unmarked_itemsOf records).mpr h, trivial⟩
  exact (clean_of_reads _ hunmarked white_newline hread (List.append_nil nodes).symm hreads).1.1

theorem readBack_of_clean (whole : Prop) {records : List Info}
    (hclean : ∀ record ∈ records, record.Clean) : ReadBack whole records := by
  have hall : (Info.dict itemsTag (itemsOf records) .nil).Clean :=
    ⟨(clean_itemsOf records).mpr hclean, trivial⟩
  have hend : ∀ noChildren' ws', White ws' →
      Parses true noChildren' (ws' ++ []) ([], none, []) := by
    intro noChildren' ws' hws'
    rw [List.append_nil]
    exact .white hws'
  obtain ⟨nodes, hreads, hparses⟩ := @reads_of_clean whole _ 0 true false _ _ _ _ _ hall
    white_newline hend
  rw [List.append_nil, List.append_nil, ← cPart_eq (noNul_xmlOf hall 0)] at hparses
  have hparse : ∀ {fuel}, parseDeep fuel true false (['\n'] ++
        cPart (xmlOf 0 (Info.dict itemsTag (itemsOf records) .nil).toDict))
          = .ok (nodes, none, []) →
      TinyXml2.parse (fuel + 1) (document (records.map Info.toDict))
        = .ok (.declaration headerText :: nodes) := by
    intro fuel hread
    rw [parse_document, List.append_nil, hread]
    rfl
  exact ⟨_, _, nodes, hparse (hparses _ (Nat.lt_succ_self _)), hreads⟩

/-- **A file is read back exactly if it is clean**: as a whole, or if nothing that is not wrapped
has mark-up in it. -/
theorem readBack_iff {whole : Prop} {records : List Info}
    (hmarks : whole ∨ ∀ record ∈ records, record.Unmarked) :
    ReadBack whole records ↔ ∀ record ∈ records, record.Clean :=
  ⟨clean_of_readBack hmarks, readBack_of_clean whole⟩

/-! ## Videos -/

/-- An `int`, formatted. -/
def formatInt : ℤ → Str
  | .ofNat n => Nat.toDigits 10 n
  | .negSucc n => '-' :: Nat.toDigits 10 (n + 1)

theorem notMem_formatInt {c : Char} (hdigit : c.isDigit = false) (hsign : c ≠ '-') (n : ℤ) :
    c ∉ formatInt n := by
  have hdigits : ∀ n, c ∉ Nat.toDigits 10 n := by
    intro n hmem
    have hc := Nat.isDigit_of_mem_toDigits (b := 10) (by decide) (by decide) hmem
    rw [hdigit] at hc
    cases hc
  cases n with
  | ofNat n => exact hdigits n
  | negSucc n =>
    rw [formatInt, List.mem_cons, not_or]
    exact ⟨hsign, hdigits (n + 1)⟩

theorem plain_formatInt (n : ℤ) : Plain (formatInt n) where
  noMark := notMem_formatInt (by decide) (by decide) n
  noNul := notMem_formatInt (by decide) (by decide) n

theorem plain_nil : Plain [] := ⟨List.not_mem_nil, List.not_mem_nil⟩

/-- The subtitles of a language, before they are wrapped. -/
structure VideoSubs where
  type : ℤ
  timeInfo : Str
  text : Str

/-- What a page and its subtitles say about a video, before anything is wrapped. -/
structure Video where
  videoId : Str
  id : ℤ
  title : Str
  description : Str
  keywords : Option Str
  loudness : Option ℤ
  quality : ℤ
  isFamilyFriendly : Str
  viewsCnt : ℤ
  date : Str
  type : ℤ
  author : Str
  subscribersCnt : ℤ
  like : ℤ
  dislike : ℤ
  ru : Option VideoSubs
  en : Option VideoSubs

def VideoSubs.info (subs : VideoSubs) : Info :=
  .plain ⟨"type".toList, by decide⟩ (formatInt subs.type) <|
  .free ⟨"time_info".toList, by decide⟩ subs.timeInfo <|
  .free ⟨"text".toList, by decide⟩ subs.text .nil

/-- `result[lang]`: without a section it is empty. -/
def langInfo : Option VideoSubs → Info
  | none => .nil
  | some subs => subs.info

/-- `getKeywords`: a page without them has none to wrap. -/
def keywordsInfo (keywords : Option Str) (items : Info) : Info :=
  match keywords with
  | none => .plain ⟨"keywords".toList, by decide⟩ [] items
  | some keywords => .free ⟨"keywords".toList, by decide⟩ keywords items

/-- `getLoudness`. -/
def loudnessText : Option ℤ → Str
  | none => []
  | some loudness => formatInt loudness

/-- `info` in `run`, in the order in which it is filled. -/
def Video.info (video : Video) : Info :=
  .plain ⟨"video_id".toList, by decide⟩ video.videoId <|
  .plain ⟨"id".toList, by decide⟩ (formatInt video.id) <|
  .free ⟨"title".toList, by decide⟩ video.title <|
  .free ⟨"description".toList, by decide⟩ video.description <|
  keywordsInfo video.keywords <|
  .plain ⟨"loudness".toList, by decide⟩ (loudnessText video.loudness) <|
  .plain ⟨"quality".toList, by decide⟩ (formatInt video.quality) <|
  .plain ⟨"is_family_friendly".toList, by decide⟩ video.isFamilyFriendly <|
  .plain ⟨"views_cnt".toList, by decide⟩ (formatInt video.viewsCnt) <|
  .plain ⟨"date".toList, by decide⟩ video.date <|
  .plain ⟨"type".toList, by decide⟩ (formatInt video.type) <|
  .free ⟨"author".toList, by decide⟩ video.author <|
  .plain ⟨"subscribers_cnt".toList, by decide⟩ (formatInt video.subscribersCnt) <|
  .plain ⟨"like".toList, by decide⟩ (formatInt video.like) <|
  .plain ⟨"dislike".toList, by decide⟩ (formatInt video.dislike) <|
  .dict ⟨"ru".toList, by decide⟩ (langInfo video.ru) <|
  .dict ⟨"en".toList, by decide⟩ (langInfo video.en) .nil

/-- The free text of a video: what is passed to `wrapCDATA`. -/
def Video.freeTexts (video : Video) : List Str :=
  [video.title, video.description, video.author] ++ video.keywords.toList ++
    video.ru.toList.flatMap (fun subs => [subs.timeInfo, subs.text]) ++
    video.en.toList.flatMap (fun subs => [subs.timeInfo, subs.text])

/-- What of a page stands in the record without being wrapped. -/
def Video.plainValues (video : Video) : List Str :=
  [video.videoId, video.isFamilyFriendly, video.date]

/-- Free text is clean, and what is not wrapped is plain. -/
structure Video.Clean (video : Video) : Prop where
  free : ∀ text ∈ video.freeTexts, TinyXml2.Clean text
  plain : ∀ value ∈ video.plainValues, Plain value

theorem langInfo_clean_iff (subs : Option VideoSubs) : (langInfo subs).Clean ↔
    ∀ text ∈ subs.toList.flatMap (fun subs => [subs.timeInfo, subs.text]),
      TinyXml2.Clean text := by
  cases subs with
  | none => simp [langInfo, Info.Clean]
  | some subs => simp [langInfo, VideoSubs.info, Info.Clean, plain_formatInt]

theorem keywordsInfo_clean_iff (keywords : Option Str) (items : Info) :
    (keywordsInfo keywords items).Clean ↔
      (∀ text ∈ keywords.toList, TinyXml2.Clean text) ∧ items.Clean := by
  cases keywords with
  | none => simp [keywordsInfo, Info.Clean, plain_nil]
  | some keywords => simp [keywordsInfo, Info.Clean]

theorem plain_loudnessText (loudness : Option ℤ) : Plain (loudnessText loudness) := by
  cases loudness with
  | none => exact plain_nil
  | some loudness => exact plain_formatInt loudness

/-- The numbers of a record are plain anyway. -/
theorem Video.clean_iff (video : Video) : video.info.Clean ↔ video.Clean := by
  simp only [Video.info, Info.Clean, keywordsInfo_clean_iff, langInfo_clean_iff, plain_formatInt,
    plain_loudnessText, true_and, and_true]
  constructor
  · rintro ⟨hid, htitle, hdescription, hkeywords, hflag, hdate, hauthor, hru, hen⟩
    constructor
    · simp only [Video.freeTexts, List.forall_mem_append, List.forall_mem_cons]
      exact ⟨⟨⟨⟨htitle, hdescription, hauthor, fun _ h => absurd h List.not_mem_nil⟩, hkeywords⟩,
        hru⟩, hen⟩
    · simp only [Video.plainValues, List.forall_mem_cons]
      exact ⟨hid, hflag, hdate, fun _ h => absurd h List.not_mem_nil⟩
  · rintro ⟨hfree, hplain⟩
    simp only [Video.freeTexts, List.forall_mem_append, List.forall_mem_cons] at hfree
    simp only [Video.plainValues, List.forall_mem_cons] at hplain
    obtain ⟨⟨⟨⟨htitle, hdescription, hauthor, -⟩, hkeywords⟩, hru⟩, hen⟩ := hfree
    exact ⟨hplain.1, htitle, hdescription, hkeywords, hplain.2.1, hplain.2.2.1, hauthor, hru, hen⟩

theorem Video.unmarked_iff (video : Video) :
    video.info.Unmarked ↔ ∀ value ∈ video.plainValues, '<' ∉ value := by
  have hkeywords : ∀ items : Info,
      (keywordsInfo video.keywords items).Unmarked ↔ items.Unmarked := by
    intro items
    cases video.keywords <;> simp [keywordsInfo, Info.Unmarked]
  have hsubs : ∀ subs : Option VideoSubs, (langInfo subs).Unmarked := by
    intro subs
    cases subs with
    | none => trivial
    | some subs => exact ⟨(plain_formatInt _).noMark, trivial⟩
  simp only [Video.info, Info.Unmarked, hkeywords, hsubs, (plain_formatInt _).noMark,
    (plain_loudnessText _).noMark, Video.plainValues, List.forall_mem_cons, not_false_eq_true,
    true_and, and_true]
  constructor
  · rintro ⟨hid, hflag, hdate⟩
    exact ⟨hid, hflag, hdate, fun _ h => absurd h List.not_mem_nil⟩
  · rintro ⟨hid, hflag, hdate, -⟩
    exact ⟨hid, hflag, hdate⟩

theorem clean_videos_iff (videos : List Video) :
    (∀ record ∈ videos.map Video.info, record.Clean) ↔ ∀ video ∈ videos, video.Clean := by
  rw [List.forall_mem_map]
  exact forall₂_congr fun video _ => video.clean_iff

/-- **The videos of a file are read back if they are clean**: none of the free text has a `]]>`, a
CR or a NUL in it, and the id, the flag and the date have neither a `<` nor a NUL. They are read
back as a whole exactly then. As far as the tags and the free text go this is exact, too, unless
there is a `<` in an id, a flag or a date: it may begin a comment, or write out what follows it in
the file. -/
theorem videos_readBack_iff (videos : List Video) :
    (ReadBack True (videos.map Video.info) ↔ ∀ video ∈ videos, video.Clean) ∧
    ((∀ video ∈ videos, video.Clean) → ReadBack False (videos.map Video.info)) ∧
    ((∀ video ∈ videos, ∀ value ∈ video.plainValues, '<' ∉ value) →
      (ReadBack False (videos.map Video.info) ↔ ∀ video ∈ videos, video.Clean)) := by
  rw [← clean_videos_iff]
  refine ⟨readBack_iff (.inl trivial), readBack_of_clean False, fun hmarks => ?_⟩
  refine readBack_iff (.inr ?_)
  rw [List.forall_mem_map]
  exact fun video hvideo => video.unmarked_iff.mpr (hmarks video hvideo)

/-- A video of this title. -/
def titled (title : Str) : Video where
  videoId := []
  id := 0
  title := title
  description := []
  keywords := none
  loudness := none
  quality := 0
  isFamilyFriendly := []
  viewsCnt := 0
  date := []
  type := 0
  author := []
  subscribersCnt := 0
  like := 0
  dislike := 0
  ru := none
  en := none

/-- **A title with `]]>` is not read back.** -/
theorem not_readBack_title : ¬ ∀ videos : List Video, ReadBack False (videos.map Video.info) := by
  intro hall
  have hunmarked : ∀ record ∈ [titled "a]]>b".toList].map Video.info, record.Unmarked := by
    rw [List.map_singleton, List.forall_mem_singleton, Video.unmarked_iff]
    simp [Video.plainValues, titled]
  have hclean := clean_of_readBack (.inr hunmarked) (hall [titled "a]]>b".toList]) _
    List.mem_cons_self
  have htitle := ((Video.clean_iff _).mp hclean).free "a]]>b".toList
    (by simp [Video.freeTexts, titled])
  exact htitle.noEnd ⟨['a'], ['b'], by decide⟩

end Amigos.Spider
