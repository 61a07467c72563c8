import Mathlib.Data.List.Infix
import Amigos.Lib.Outcome
import Amigos.Lib.Utf8

/-!
# The XML reader (`contrib/tinyxml2`)

`parse` is `XMLDocument::Parse`. The reader works on bytes; all that it asks for is ASCII, and bytes
from 128 on are letters of a name to it, so characters do as well. A C string ends at its first NUL.

A closing tag is read like an element and handed to the level above, and at the outermost level it
ends the document. What stands in a node is decoded only when it is asked for. References are
decoded in texts outside of CDATA; nothing here asks for these.

`parseDeep_element` is the rule for an element. A section is read up to its first `]]>`, whatever
was meant to end there, so the strings that it gives back are the clean ones (`Clean.parseText`,
`clean_of_parseText`).
-/

set_option autoImplicit false

namespace Amigos.TinyXml2

open Amigos.Lib

/-- Text of a document. -/
abbrev Str := List Char

/-! ## The source -/

inductive XmlError where
  | parsingElement
  | parsingAttribute
  | parsingText
  | parsingCdata
  | parsingComment
  | parsingDeclaration
  | parsingUnknown
  | emptyDocument
  | mismatchedElement
  | parsing
  deriving DecidableEq, Repr

inductive Node where
  | text (cdata : Bool) (value : Str)
  | comment (value : Str)
  | declaration (value : Str)
  | unknown (value : Str)
  | element (name : Str) (attributes : List (Str × Str)) (children : List Node)

/-- `XMLUtil::IsWhiteSpace`. -/
def isWhiteSpace (c : Char) : Bool := c == ' ' || ('\t' ≤ c && c ≤ '\r')

/-- `XMLUtil::SkipWhiteSpace`. -/
def skipWhiteSpace (p : Str) : Str := p.dropWhile isWhiteSpace

/-- `XMLUtil::IsNameStartChar`. -/
def isNameStartChar (c : Char) : Bool := 128 ≤ c.toNat || c.isAlpha || c == ':' || c == '_'

/-- `XMLUtil::IsNameChar`. -/
def isNameChar (c : Char) : Bool := isNameStartChar c || c.isDigit || c == '.' || c == '-'

/-- `StrPair::ParseText`: the text before the first `endTag`, and what is behind it. -/
def parseText (endTag : Str) : Str → Option (Str × Str)
  | [] => none
  | c :: p =>
    if endTag.isPrefixOf (c :: p) then some ([], (c :: p).drop endTag.length)
    else (parseText endTag p).map fun (value, p) => (c :: value, p)

/-- `StrPair::ParseName`. -/
def parseName : Str → Option (Str × Str)
  | [] => none
  | c :: p =>
    if isNameStartChar c then some (c :: p.takeWhile isNameChar, p.dropWhile isNameChar) else none

/-- `XMLAttribute::ParseDeep`. -/
def parseAttribute (p : Str) : Option (Str × Str × Str) := do
  let (name, p) ← parseName p
  match skipWhiteSpace p with
  | '=' :: p =>
    match skipWhiteSpace p with
    | quote :: p =>
      if quote = '"' ∨ quote = '\'' then do
        let (value, p) ← parseText [quote] p
        return (name, value, p)
      else none
    | [] => none
  | _ => none

/-- `XMLElement::ParseAttributes`, with some attributes read already; whether the element is closed
right away. -/
def parseAttributes : ℕ → List (Str × Str) → Str →
    Outcome XmlError (List (Str × Str) × Bool × Str)
  | 0, _, _ => .undefined
  | fuel + 1, attributes, p =>
    match skipWhiteSpace p with
    | [] => .exception .parsingElement
    | c :: p =>
      if isNameStartChar c then
        match parseAttribute (c :: p) with
        | none => .exception .parsingAttribute
        | some (name, value, p) =>
          if attributes.any (fun attr => attr.1 == name) then .exception .parsingAttribute
          else parseAttributes fuel (attributes ++ [(name, value)]) p
      else if c = '>' then .ok (attributes, false, p)
      else if c = '/' ∧ p.head? = some '>' then .ok (attributes, true, p.tail)
      else .exception .parsingElement

/-- `XMLElement::ElementClosingType`. -/
inductive ClosingType where
  | opening
  | closed
  | closing
  deriving DecidableEq, Repr

structure Tag where
  name : Str
  attributes : List (Str × Str)
  closingType : ClosingType
  rest : Str
  deriving DecidableEq, Repr

/-- `XMLElement::ParseDeep`, as far as the tag. -/
def parseTag (p : Str) : Outcome XmlError Tag := do
  let p := skipWhiteSpace p
  let (closingType, p) := if p.head? = some '/' then (.closing, p.tail) else (.opening, p)
  match parseName p with
  | none => .exception .parsing
  | some (name, p) =>
    let (attributes, closed, rest) ← parseAttributes (p.length + 1) [] p
    return { name, attributes, closingType := if closed then .closed else closingType, rest }

inductive Kind where
  | declaration
  | comment
  | cdata
  | unknown
  | element
  | text
  deriving DecidableEq, Repr

/-- `XMLDocument::Identify`: what begins here, and where its contents do. -/
def identify (p : Str) : Option (Kind × Str) :=
  let q := skipWhiteSpace p
  if q = [] then none
  else if "<?".toList.isPrefixOf q then some (.declaration, q.drop 2)
  else if "<!--".toList.isPrefixOf q then some (.comment, q.drop 4)
  else if "<![CDATA[".toList.isPrefixOf q then some (.cdata, q.drop 9)
  else if "<!".toList.isPrefixOf q then some (.unknown, q.drop 2)
  else if "<".toList.isPrefixOf q then some (.element, q.drop 1)
  -- All of a text counts.
  else some (.text, p)

/-- `ParseDeep` of a node that is no element. -/
def parseLeaf (noChildren : Bool) (p : Str) : Kind → Outcome XmlError (Node × Str)
  | .declaration =>
    match parseText "?>".toList p with
    | none => .exception .parsingDeclaration
    | some (value, p) =>
      if noChildren then .ok (.declaration value, p) else .exception .parsingDeclaration
  | .comment =>
    match parseText "-->".toList p with
    | none => .exception .parsingComment
    | some (value, p) => .ok (.comment value, p)
  | .cdata =>
    match parseText "]]>".toList p with
    | none => .exception .parsingCdata
    | some (value, p) => .ok (.text true value, p)
  | .unknown =>
    match parseText ">".toList p with
    | none => .exception .parsingUnknown
    | some (value, p) => .ok (.unknown value, p)
  | .text =>
    match parseText "<".toList p with
    | none => .exception .parsingText
    | some (value, p) => if p = [] then .exception .parsing else .ok (.text false value, '<' :: p)
  | .element => .exception .parsing

/-- `XMLNode::ParseDeep`: the nodes, the name of the closing tag behind them if there is one, and
what is left. `noChildren` is that of the document, which has its children when they are complete.
-/
def parseDeep : ℕ → Bool → Bool → Str → Outcome XmlError (List Node × Option Str × Str)
  | 0, _, _, _ => .undefined
  | fuel + 1, document, noChildren, p =>
    match identify p with
    | none => .ok ([], none, [])
    | some (.element, p) => do
      let tag ← parseTag p
      match tag.closingType with
      | .closing => return ([], some tag.name, tag.rest)
      | .closed =>
        let (nodes, endTag, p) ← parseDeep fuel document (noChildren && !document) tag.rest
        return (.element tag.name tag.attributes [] :: nodes, endTag, p)
      | .opening =>
        if tag.rest = [] then .exception .mismatchedElement
        else
          let (children, endTag, p) ← parseDeep fuel false noChildren tag.rest
          match endTag with
          | none => .exception .parsing
          | some name =>
            if name = tag.name then
              let (nodes, endTag, p) ← parseDeep fuel document (noChildren && !document) p
              return (.element tag.name tag.attributes children :: nodes, endTag, p)
            else .exception .mismatchedElement
    | some (kind, p) => do
      let (node, p) ← parseLeaf noChildren p kind
      let (nodes, endTag, p) ← parseDeep fuel document (noChildren && !document) p
      return (node :: nodes, endTag, p)

/-- `XMLDocument::Parse`. -/
def parse (fuel : ℕ) (text : Str) : Outcome XmlError (List Node) :=
  let p := skipWhiteSpace (cPart text)
  let p := if p.head? = some '\ufeff' then p.tail else p
  if p = [] then .exception .emptyDocument
  else do
    let (nodes, _, _) ← parseDeep fuel true true p
    return nodes

/-- `StrPair::GetStr` of a text in CDATA: CR, CR LF and LF CR become LF. -/
def normalizeNewlines : Str → Str
  | [] => []
  | [c] => [if c = '\r' then '\n' else c]
  | c :: d :: p =>
    if (c = '\r' ∧ d = '\n') ∨ (c = '\n' ∧ d = '\r') then '\n' :: normalizeNewlines p
    else (if c = '\r' then '\n' else c) :: normalizeNewlines (d :: p)

/-- `GetText` of an element that begins with CDATA. -/
def getCdata : List Node → Option Str
  | .text true value :: _ => some (normalizeNewlines value)
  | _ => none

def Node.isElement : Node → Bool
  | .element .. => true
  | _ => false

/-- The children of an element with a text in it: white space is none. -/
def textNodes (text : Str) : List Node :=
  if text.all isWhiteSpace then [] else [.text false text]

theorem isElement_textNodes (text : Str) : ∀ node ∈ textNodes text, node.isElement = false := by
  intro node hnode
  rw [textNodes] at hnode
  split at hnode
  · cases hnode
  · rw [List.mem_singleton.mp hnode]
    rfl

/-! ## Texts and names -/

/-- **What is read up to a mark**: it ends where the mark stands first. -/
theorem parseText_cases {endTag : Str} (hne : endTag ≠ []) : ∀ p : Str,
    (parseText endTag p = none ∧ ¬ endTag <:+: p) ∨
    ∃ value rest, parseText endTag p = some (value, rest) ∧ p = value ++ endTag ++ rest ∧
      ∀ i < value.length, ¬ endTag <+: p.drop i := by
  intro p
  induction p with
  | nil => exact .inl ⟨rfl, fun h => hne (List.infix_nil.mp h)⟩
  | cons c p ih =>
    unfold parseText
    by_cases hprefix : endTag <+: c :: p
    · obtain ⟨rest, hrest⟩ := hprefix
      refine .inr ⟨[], rest, ?_, hrest.symm, fun i hi => absurd hi (Nat.not_lt_zero i)⟩
      rw [if_pos (List.isPrefixOf_iff_prefix.mpr ⟨rest, hrest⟩), ← hrest, List.drop_left]
    · rw [if_neg (fun h => hprefix (List.isPrefixOf_iff_prefix.mp h))]
      rcases ih with ⟨hnone, hnot⟩ | ⟨value, rest, hsome, hp, hfirst⟩
      · refine .inl ⟨by rw [hnone]; rfl, fun hinfix => ?_⟩
        exact (List.infix_cons_iff.mp hinfix).elim hprefix hnot
      · refine .inr ⟨c :: value, rest, by rw [hsome]; rfl, by rw [hp]; rfl, ?_⟩
        intro i hi
        cases i with
        | zero => exact hprefix
        | succ i => exact hfirst i (Nat.lt_of_succ_lt_succ hi)

theorem parseText_eq_none_iff {endTag : Str} (hne : endTag ≠ []) (p : Str) :
    parseText endTag p = none ↔ ¬ endTag <:+: p := by
  rcases parseText_cases hne p with ⟨hnone, hnot⟩ | ⟨value, rest, hsome, hp, -⟩
  · exact iff_of_true hnone hnot
  · refine iff_of_false (by rw [hsome]; exact nofun) (not_not.mpr ?_)
    exact ⟨value, rest, hp.symm⟩

/-- A text ends where the mark stands first. -/
theorem parseText_eq {endTag value rest : Str} (hne : endTag ≠ [])
    (hfirst : ∀ i < value.length, ¬ endTag <+: (value ++ endTag ++ rest).drop i) :
    parseText endTag (value ++ endTag ++ rest) = some (value, rest) := by
  rcases parseText_cases hne (value ++ endTag ++ rest) with
    ⟨-, hnot⟩ | ⟨value', rest', hsome, heq, hfirst'⟩
  · exact absurd ⟨value, rest, rfl⟩ hnot
  · have hle : value.length ≤ value'.length := by
      by_contra hlt
      refine hfirst value'.length (Nat.lt_of_not_le hlt) ?_
      rw [heq, List.append_assoc, List.drop_left]
      exact List.prefix_append _ rest'
    have hge : value'.length ≤ value.length := by
      by_contra hlt
      refine hfirst' value.length (Nat.lt_of_not_le hlt) ?_
      rw [List.append_assoc, List.drop_left]
      exact List.prefix_append _ rest
    rw [List.append_assoc, List.append_assoc] at heq
    obtain ⟨rfl, hrest⟩ := List.append_inj heq (Nat.le_antisymm hle hge)
    rw [hsome, List.append_cancel_left hrest]

/-- What follows makes no difference. -/
theorem parseText_append {endTag p value rest : Str} (hne : endTag ≠ [])
    (h : parseText endTag p = some (value, rest)) (q : Str) :
    parseText endTag (p ++ q) = some (value, rest ++ q) := by
  rcases parseText_cases hne p with ⟨hnone, -⟩ | ⟨value', rest', hsome, hp, hfirst⟩
  · cases hnone.symm.trans h
  cases hsome.symm.trans h
  have hshape : p ++ q = value ++ endTag ++ (rest ++ q) := by rw [hp, List.append_assoc]
  rw [hshape]
  refine parseText_eq hne fun i hi hprefix => hfirst i hi ?_
  have hlen : p.length = value.length + endTag.length + rest.length := by
    rw [hp, List.length_append, List.length_append]
  rw [← hshape, List.drop_append_of_le_length (by omega)] at hprefix
  refine List.prefix_of_prefix_length_le hprefix (List.prefix_append _ q) ?_
  rw [List.length_drop]
  omega

/-- No mark goes over a character that it has not. -/
theorem parseText_line {endTag line : Str} {c : Char} (hne : endTag ≠ []) (hc : c ∉ endTag)
    (h : parseText endTag line = none) (p : Str) : parseText endTag (line ++ c :: p)
      = (parseText endTag p).map fun (value, rest) => (line ++ c :: value, rest) := by
  have hstart : ∀ {line : Str}, ¬ endTag <+: line →
      (endTag.isPrefixOf (line ++ c :: p)) = false := by
    intro line hnot
    rw [Bool.eq_false_iff, ne_eq, List.isPrefixOf_iff_prefix]
    intro hprefix
    rcases List.prefix_or_prefix_of_prefix hprefix (List.prefix_append line (c :: p)) with
      hshort | ⟨behind, hlong⟩
    · exact hnot hshort
    rw [← hlong, List.prefix_append_right_inj] at hprefix
    cases behind with
    | nil => exact hnot ⟨[], by rw [← hlong, List.append_nil, List.append_nil]⟩
    | cons d behind =>
      obtain ⟨rfl, -⟩ := List.cons_prefix_cons.mp hprefix
      exact hc (hlong ▸ List.mem_append_right _ List.mem_cons_self)
  induction line with
  | nil =>
    have hnil : ¬ endTag <+: [] := fun hprefix => hne (List.prefix_nil.mp hprefix)
    have hnot := hstart hnil
    rw [List.nil_append] at hnot ⊢
    rw [parseText, hnot, if_neg Bool.false_ne_true]
    rfl
  | cons d line ih =>
    have hnot := (parseText_eq_none_iff hne _).mp h
    rw [List.infix_cons_iff, not_or] at hnot
    have hd := hstart hnot.1
    rw [List.cons_append] at hd ⊢
    rw [parseText, hd, if_neg Bool.false_ne_true, ih ((parseText_eq_none_iff hne _).mpr hnot.2),
      Option.map_map]
    rfl

/-- A name of an element. -/
def isName : Str → Bool
  | [] => false
  | c :: name => isNameStartChar c && name.all isNameChar

theorem isNameChar_of_mem {name : Str} (h : isName name = true) {c : Char} (hc : c ∈ name) :
    isNameChar c = true := by
  cases name with
  | nil => cases hc
  | cons d name =>
    obtain ⟨hstart, hall⟩ := Bool.and_eq_true_iff.mp h
    rcases List.mem_cons.mp hc with rfl | hc
    · simp [isNameChar, hstart]
    · exact List.all_eq_true.mp hall c hc

theorem parseName_eq {name : Str} (h : isName name = true) {c : Char} (hc : isNameChar c = false)
    (rest : Str) : parseName (name ++ c :: rest) = some (name, c :: rest) := by
  cases name with
  | nil => cases h
  | cons d name =>
    obtain ⟨hstart, hall⟩ := Bool.and_eq_true_iff.mp h
    have hname : ∀ c ∈ name, isNameChar c = true := List.all_eq_true.mp hall
    rw [List.cons_append, parseName, if_pos hstart, List.takeWhile_append_of_pos hname,
      List.dropWhile_append_of_pos hname, List.takeWhile_cons_of_neg (by simp [hc]),
      List.dropWhile_cons_of_neg (by simp [hc]), List.append_nil]

/-- Text that is skipped. -/
def White (s : Str) : Prop := ∀ c ∈ s, isWhiteSpace c = true

theorem skipWhiteSpace_cons {c : Char} (h : isWhiteSpace c = false) (p : Str) :
    skipWhiteSpace (c :: p) = c :: p :=
  List.dropWhile_cons_of_neg (by simp [h])

theorem White.skip {ws : Str} (h : White ws) (p : Str) :
    skipWhiteSpace (ws ++ p) = skipWhiteSpace p :=
  List.dropWhile_append_of_pos h

theorem toNat_of_isNameStartChar {c : Char} (h : isNameStartChar c = true) :
    c.toNat = 58 ∨ 65 ≤ c.toNat := by
  simp only [isNameStartChar, Bool.or_eq_true, decide_eq_true_eq, beq_iff_eq] at h
  rcases h with ((h | halpha) | rfl) | rfl
  · exact .inr (Nat.le_trans (by decide) h)
  · rcases (Bool.or_eq_true _ _).mp halpha with hupper | hlower
    · have hrange : 'A'.val ≤ c.val ∧ c.val ≤ 'Z'.val := of_decide_eq_true hupper
      exact .inr (UInt32.le_iff_toNat_le.mp hrange.1)
    · have hrange := Bool.and_eq_true_iff.mp hlower
      have hle : 'a'.val ≤ c.val := of_decide_eq_true hrange.1
      exact .inr (Nat.le_trans (by decide) (UInt32.le_iff_toNat_le.mp hle))
  · exact .inl rfl
  · exact .inr (by decide)

theorem isWhiteSpace_of_isNameStartChar {c : Char} (h : isNameStartChar c = true) :
    isWhiteSpace c = false := by
  have hcode := toNat_of_isNameStartChar h
  rw [Bool.eq_false_iff]
  intro hwhite
  simp only [isWhiteSpace, Bool.or_eq_true, beq_iff_eq, Bool.and_eq_true,
    decide_eq_true_eq] at hwhite
  rcases hwhite with rfl | ⟨-, hle⟩
  · revert hcode
    decide
  · have hle' : c.toNat ≤ 13 := hle
    omega

/-! ## Tags -/

theorem exists_cons_of_isName {name : Str} (h : isName name = true) :
    ∃ c name', name = c :: name' ∧ isNameStartChar c = true := by
  cases name with
  | nil => cases h
  | cons c name' => exact ⟨c, name', rfl, (Bool.and_eq_true_iff.mp h).1⟩

/-- An opening tag, without attributes. -/
theorem parseTag_opening {name : Str} (h : isName name = true) (rest : Str) :
    parseTag (name ++ '>' :: rest) = .ok ⟨name, [], .opening, rest⟩ := by
  obtain ⟨c, name', rfl, hstart⟩ := exists_cons_of_isName h
  have hcode := toNat_of_isNameStartChar hstart
  have hslash : ¬ (c :: name' ++ '>' :: rest).head? = some '/' := by
    rw [List.cons_append, List.head?_cons, Option.some.injEq]
    rintro rfl
    revert hcode
    decide
  have hskip : skipWhiteSpace (c :: name' ++ '>' :: rest) = c :: name' ++ '>' :: rest :=
    skipWhiteSpace_cons (isWhiteSpace_of_isNameStartChar hstart) _
  unfold parseTag
  dsimp only
  rw [hskip, if_neg hslash]
  dsimp only
  rw [parseName_eq h (by decide)]
  rfl

theorem parseTag_closing {name : Str} (h : isName name = true) (rest : Str) :
    parseTag ('/' :: (name ++ '>' :: rest)) = .ok ⟨name, [], .closing, rest⟩ := by
  unfold parseTag
  dsimp only
  rw [skipWhiteSpace_cons (by decide), if_pos List.head?_cons]
  dsimp only [List.tail_cons]
  rw [parseName_eq h (by decide)]
  rfl

/-! ## What begins at a position -/

theorem identify_element {ws : Str} (hws : White ws) {c : Char}
    (hc : c = '/' ∨ isNameStartChar c = true) (p : Str) :
    identify (ws ++ '<' :: c :: p) = some (.element, c :: p) := by
  have hne : '?' ≠ c ∧ '!' ≠ c := by
    rcases hc with rfl | hc
    · decide
    · have hcode := toNat_of_isNameStartChar hc
      constructor
      · rintro rfl
        revert hcode
        decide
      · rintro rfl
        revert hcode
        decide
  unfold identify
  rw [hws.skip, skipWhiteSpace_cons (by decide)]
  simp [List.isPrefixOf, hne.1, hne.2]

theorem identify_cdata (p : Str) : identify ("<![CDATA[".toList ++ p) = some (.cdata, p) := by
  unfold identify
  rw [show skipWhiteSpace ("<![CDATA[".toList ++ p) = "<![CDATA[".toList ++ p from
    skipWhiteSpace_cons (by decide) _]
  rfl

theorem identify_white {ws : Str} (h : White ws) : identify ws = none := by
  have hskip : skipWhiteSpace ws = [] := by
    have hskip := h.skip []
    rwa [List.append_nil] at hskip
  unfold identify
  rw [hskip]
  rfl

/-- A text that is not all white, up to the next mark-up. -/
theorem identify_text {text : Str} (h : ¬ White text) (hmark : '<' ∉ text) (p : Str) :
    identify (text ++ p) = some (.text, text ++ p) := by
  obtain ⟨c, rest, hc, hskip⟩ : ∃ c rest, c ∈ text ∧ skipWhiteSpace (text ++ p) = c :: rest := by
    induction text with
    | nil => exact absurd (fun c hc => absurd hc List.not_mem_nil) h
    | cons c text ih =>
      by_cases hwhite : isWhiteSpace c = true
      · have htext : ¬ White text := by
          intro hall
          refine h fun d hd => ?_
          rcases List.mem_cons.mp hd with rfl | hd
          · exact hwhite
          · exact hall d hd
        obtain ⟨d, rest, hd, hskip⟩ := ih htext (fun hmem => hmark (List.mem_cons_of_mem _ hmem))
        refine ⟨d, rest, List.mem_cons_of_mem _ hd, ?_⟩
        rw [List.cons_append, skipWhiteSpace, List.dropWhile_cons_of_pos hwhite]
        exact hskip
      · exact ⟨c, text ++ p, List.mem_cons_self,
          skipWhiteSpace_cons (Bool.eq_false_iff.mpr hwhite) _⟩
  have hne : '<' ≠ c := by
    rintro rfl
    exact hmark hc
  unfold identify
  rw [hskip]
  simp [List.isPrefixOf, hne]

/-! ## Elements -/

/-- A closing tag is handed up. -/
theorem parseDeep_closing {ws name : Str} (hws : White ws) (h : isName name = true)
    (document noChildren : Bool) (fuel : ℕ) (rest : Str) :
    parseDeep (fuel + 1) document noChildren (ws ++ "</".toList ++ name ++ '>' :: rest)
      = .ok ([], some name, rest) := by
  have hshape : ws ++ "</".toList ++ name ++ '>' :: rest
      = ws ++ '<' :: '/' :: (name ++ '>' :: rest) := by
    simp
  rw [hshape, parseDeep, identify_element hws (.inl rfl)]
  dsimp only
  rw [parseTag_closing h]
  rfl

/-- **The rule for an element**, read from its opening tag on: its children, up to its closing tag,
and what follows. -/
theorem parseDeep_element {ws name : Str} (hws : White ws) (h : isName name = true)
    (document noChildren : Bool) (fuel : ℕ) {p : Str} (hp : p ≠ []) :
    parseDeep (fuel + 1) document noChildren (ws ++ '<' :: (name ++ '>' :: p)) = (do
      let (children, endTag, p) ← parseDeep fuel false noChildren p
      match endTag with
      | none => .exception .parsing
      | some name' =>
        if name' = name then
          let (nodes, endTag, p) ← parseDeep fuel document (noChildren && !document) p
          return (.element name [] children :: nodes, endTag, p)
        else .exception .mismatchedElement) := by
  obtain ⟨c, name', rfl, hstart⟩ := exists_cons_of_isName h
  rw [List.cons_append, parseDeep, identify_element hws (.inr hstart)]
  dsimp only
  rw [← List.cons_append, parseTag_opening h, Outcome.ok_bind]
  dsimp only
  rw [if_neg hp]

/-- The rule for a section, and one for a text. -/
theorem parseDeep_cdata (document noChildren : Bool) (fuel : ℕ) (p : Str) :
    parseDeep (fuel + 1) document noChildren ("<![CDATA[".toList ++ p) =
      match parseText "]]>".toList p with
      | none => .exception .parsingCdata
      | some (value, p) => do
        let (nodes, endTag, p) ← parseDeep fuel document (noChildren && !document) p
        return (.text true value :: nodes, endTag, p) := by
  rw [parseDeep, identify_cdata]
  dsimp only [parseLeaf]
  cases parseText "]]>".toList p <;> rfl

/-- A text without the first character of the mark. -/
theorem parseText_of_notMem {c : Char} {text : Str} (h : c ∉ text) (endTag p : Str) :
    parseText (c :: endTag) (text ++ (c :: endTag ++ p)) = some (text, p) := by
  induction text with
  | nil =>
    rw [List.nil_append, List.cons_append, parseText, ← List.cons_append,
      if_pos (List.isPrefixOf_iff_prefix.mpr (List.prefix_append _ p)), List.drop_left]
  | cons d text ih =>
    have hne : c ≠ d := fun heq => h (heq ▸ List.mem_cons_self)
    have hnot : (c :: endTag).isPrefixOf (d :: (text ++ (c :: endTag ++ p))) = false := by
      simp [List.isPrefixOf, hne]
    rw [List.cons_append, parseText, hnot, if_neg Bool.false_ne_true,
      ih (fun hmem => h (List.mem_cons_of_mem _ hmem))]
    rfl

theorem parseDeep_text {text : Str} (h : ¬ White text) (hmark : '<' ∉ text)
    (document noChildren : Bool) (fuel : ℕ) {p : Str} (hp : p ≠ []) :
    parseDeep (fuel + 1) document noChildren (text ++ '<' :: p) = (do
      let (nodes, endTag, p) ← parseDeep fuel document (noChildren && !document) ('<' :: p)
      return (.text false text :: nodes, endTag, p)) := by
  have hmarkup : "<".toList = ['<'] := by decide
  have htext : parseText ['<'] (text ++ '<' :: p) = some (text, p) :=
    parseText_of_notMem hmark [] p
  rw [parseDeep, identify_text h hmark]
  dsimp only [parseLeaf]
  rw [hmarkup, htext]
  dsimp only
  rw [if_neg hp, Outcome.ok_bind]

/-- The rule for a declaration, at the beginning of a document. -/
theorem parseDeep_declaration {text : Str} (hmark : '?' ∉ text) (fuel : ℕ) (p : Str) :
    parseDeep (fuel + 1) true true ('<' :: '?' :: (text ++ '?' :: '>' :: p)) = (do
      let (nodes, endTag, p) ← parseDeep fuel true false p
      return (.declaration text :: nodes, endTag, p)) := by
  have hend : "?>".toList = ['?', '>'] := by decide
  have htext : parseText ['?', '>'] (text ++ '?' :: '>' :: p) = some (text, p) :=
    parseText_of_notMem hmark ['>'] p
  have hidentify : identify ('<' :: '?' :: (text ++ '?' :: '>' :: p))
      = some (.declaration, text ++ '?' :: '>' :: p) := by
    unfold identify
    rw [skipWhiteSpace_cons (by decide)]
    simp [List.isPrefixOf]
  rw [parseDeep, hidentify]
  dsimp only [parseLeaf]
  rw [hend, htext]
  dsimp only
  rw [if_pos rfl, Outcome.ok_bind]
  rfl

/-- An element whose tag is the last of the document has no end. -/
theorem parseDeep_element_nil {ws name : Str} (hws : White ws) (h : isName name = true)
    (document noChildren : Bool) (fuel : ℕ) :
    parseDeep (fuel + 1) document noChildren (ws ++ '<' :: (name ++ ['>']))
      = .exception .mismatchedElement := by
  obtain ⟨c, name', rfl, hstart⟩ := exists_cons_of_isName h
  rw [List.cons_append, parseDeep, identify_element hws (.inr hstart)]
  dsimp only
  rw [← List.cons_append, parseTag_opening h, Outcome.ok_bind]
  dsimp only
  rw [if_pos rfl]

/-! ## What has been read -/

section

variable {document noChildren : Bool} {fuel : ℕ} {nodes : List Node} {endTag : Option Str}
  {rest : Str}

theorem closing_of_parseDeep {ws name : Str} (hws : White ws) (h : isName name = true) {p : Str}
    (hread : parseDeep fuel document noChildren (ws ++ "</".toList ++ name ++ '>' :: p)
      = .ok (nodes, endTag, rest)) : nodes = [] ∧ endTag = some name ∧ rest = p := by
  cases fuel with
  | zero => cases hread
  | succ fuel =>
    rw [parseDeep_closing hws h] at hread
    cases hread
    exact ⟨rfl, rfl, rfl⟩

/-- An element that has been read has been read with its children. -/
theorem element_of_parseDeep {ws name : Str} (hws : White ws) (h : isName name = true) {p : Str}
    (hread : parseDeep fuel document noChildren (ws ++ '<' :: (name ++ '>' :: p))
      = .ok (nodes, endTag, rest)) :
    ∃ fuel' children p' nodes', parseDeep fuel' false noChildren p = .ok (children, some name, p') ∧
      parseDeep fuel' document (noChildren && !document) p' = .ok (nodes', endTag, rest) ∧
      nodes = .element name [] children :: nodes' := by
  cases fuel with
  | zero => cases hread
  | succ fuel =>
    have hp : p ≠ [] := by
      rintro rfl
      rw [parseDeep_element_nil hws h] at hread
      cases hread
    rw [parseDeep_element hws h document noChildren fuel hp] at hread
    obtain ⟨⟨children, endTag', p'⟩, hchildren, hread⟩ := Outcome.bind_eq_ok hread
    cases endTag' with
    | none => cases hread
    | some name' =>
      by_cases hname : name' = name
      · subst hname
        simp only [if_true] at hread
        obtain ⟨⟨nodes', endTag', p''⟩, hnodes, hread⟩ := Outcome.bind_eq_ok hread
        cases hread
        exact ⟨fuel, children, p', nodes', hchildren, hnodes, rfl⟩
      · simp only [if_neg hname] at hread
        cases hread

theorem cdata_of_parseDeep {p : Str} (hread : parseDeep fuel document noChildren
      ("<![CDATA[".toList ++ p) = .ok (nodes, endTag, rest)) :
    ∃ fuel' value p' nodes', parseText "]]>".toList p = some (value, p') ∧
      parseDeep fuel' document (noChildren && !document) p' = .ok (nodes', endTag, rest) ∧
      nodes = .text true value :: nodes' := by
  cases fuel with
  | zero => cases hread
  | succ fuel =>
    rw [parseDeep_cdata] at hread
    cases htext : parseText "]]>".toList p with
    | none =>
      rw [htext] at hread
      cases hread
    | some found =>
      obtain ⟨value, p'⟩ := found
      rw [htext] at hread
      obtain ⟨⟨nodes', endTag', p''⟩, hnodes, hread⟩ := Outcome.bind_eq_ok hread
      cases hread
      exact ⟨fuel, value, p', nodes', rfl, hnodes, rfl⟩

/-- Without mark-up nothing is closed. -/
theorem endTag_of_parseDeep {p : Str} (hmark : '<' ∉ p)
    (hread : parseDeep fuel document noChildren p = .ok (nodes, endTag, rest)) : endTag = none := by
  cases fuel with
  | zero => cases hread
  | succ fuel =>
    by_cases hwhite : White p
    · rw [parseDeep, identify_white hwhite] at hread
      cases hread
      rfl
    · have hidentify := identify_text hwhite hmark []
      have hmarkup : "<".toList = ['<'] := by decide
      have hnone : parseText ['<'] p = none := by
        rcases parseText_cases (List.cons_ne_nil '<' []) p with
          ⟨hnone, -⟩ | ⟨value, behind, -, rfl, -⟩
        · exact hnone
        · exact absurd (by simp) hmark
      rw [List.append_nil] at hidentify
      rw [parseDeep, hidentify] at hread
      dsimp only [parseLeaf] at hread
      rw [hmarkup, hnone] at hread
      cases hread

theorem text_of_parseLeaf {kind : Kind} {p value : Str}
    (h : parseLeaf noChildren p kind = .ok (.text false value, rest)) :
    kind = .text ∧ ∃ behind, parseText "<".toList p = some (value, behind) := by
  cases kind with
  | text =>
    rw [parseLeaf] at h
    cases htext : parseText "<".toList p with
    | none =>
      rw [htext] at h
      cases h
    | some found =>
      obtain ⟨value', behind⟩ := found
      rw [htext] at h
      dsimp only at h
      split at h
      · cases h
      · cases h
        exact ⟨rfl, behind, rfl⟩
  | element => cases h
  | declaration =>
    rw [parseLeaf] at h
    split at h
    · cases h
    · split at h <;> cases h
  | _ =>
    rw [parseLeaf] at h
    split at h <;> cases h

/-- What is read first is a leaf, if it is no element. -/
theorem leaf_of_parseDeep {p : Str} {node : Node} (helement : node.isElement = false)
    (hread : parseDeep fuel document noChildren p = .ok (node :: nodes, endTag, rest)) :
    ∃ kind p' p'', identify p = some (kind, p') ∧
      parseLeaf noChildren p' kind = .ok (node, p'') := by
  cases fuel with
  | zero => cases hread
  | succ fuel =>
  rw [parseDeep] at hread
  split at hread
  · cases hread
  · obtain ⟨tag, -, hread⟩ := Outcome.bind_eq_ok hread
    split at hread
    · cases hread
    · obtain ⟨⟨nodes', endTag', p'⟩, -, hread⟩ := Outcome.bind_eq_ok hread
      cases hread
      cases helement
    · split at hread
      · cases hread
      obtain ⟨⟨children, endTag', p'⟩, -, hread⟩ := Outcome.bind_eq_ok hread
      cases endTag' with
      | none => cases hread
      | some name =>
        by_cases hname : name = tag.name
        · simp only [if_pos hname] at hread
          obtain ⟨⟨nodes', endTag', p''⟩, -, hread⟩ := Outcome.bind_eq_ok hread
          cases hread
          cases helement
        · simp only [if_neg hname] at hread
          cases hread
  · rename_i kind p' hne hidentify
    obtain ⟨⟨node', p''⟩, hleaf, hread⟩ := Outcome.bind_eq_ok hread
    obtain ⟨⟨nodes', endTag', p₁⟩, -, hread⟩ := Outcome.bind_eq_ok hread
    cases hread
    exact ⟨kind, p', p'', hidentify, hleaf⟩

/-- A text that has been read goes up to the next mark. -/
theorem text_of_parseDeep {p value : Str}
    (hread : parseDeep fuel document noChildren p
      = .ok (.text false value :: nodes, endTag, rest)) :
    value <+: p ∧ '<' ∉ value := by
  obtain ⟨kind, p', p'', hidentify, hleaf⟩ := leaf_of_parseDeep rfl hread
  obtain ⟨rfl, behind, htext⟩ := text_of_parseLeaf hleaf
  obtain rfl : p = p' := by
    unfold identify at hidentify
    dsimp only at hidentify
    split_ifs at hidentify <;> cases hidentify
    rfl
  rcases parseText_cases (show "<".toList ≠ [] by decide) p with
    ⟨hnone, -⟩ | ⟨value', behind', hsome, hshape, hfirst⟩
  · cases hnone.symm.trans htext
  cases hsome.symm.trans htext
  rw [List.append_assoc] at hshape
  refine ⟨⟨_, hshape.symm⟩, fun hmem => ?_⟩
  obtain ⟨before, after, hvalue⟩ := List.append_of_mem hmem
  refine hfirst before.length (by simp [hvalue]) ?_
  rw [hshape, hvalue, List.append_assoc, List.drop_left]
  exact ⟨_, rfl⟩

/-- Text without mark-up, up to a closing tag. -/
theorem plain_of_parseDeep {text name : Str} (hmark : '<' ∉ text) (h : isName name = true) {p : Str}
    (hread : parseDeep fuel document noChildren (text ++ "</".toList ++ name ++ '>' :: p)
      = .ok (nodes, endTag, rest)) :
    (∀ node ∈ nodes, node.isElement = false) ∧ endTag = some name ∧ rest = p := by
  by_cases hwhite : White text
  · obtain ⟨rfl, hend, hrest⟩ := closing_of_parseDeep hwhite h hread
    exact ⟨fun node hnode => absurd hnode List.not_mem_nil, hend, hrest⟩
  · have hshape : text ++ "</".toList ++ name ++ '>' :: p
        = text ++ '<' :: ('/' :: (name ++ '>' :: p)) := by
      simp
    cases fuel with
    | zero => cases hread
    | succ fuel =>
      rw [hshape, parseDeep_text hwhite hmark _ _ _ (List.cons_ne_nil _ _)] at hread
      obtain ⟨⟨nodes', endTag', p'⟩, hnodes, hread⟩ := Outcome.bind_eq_ok hread
      cases hread
      have hnil : White [] := fun c hc => absurd hc List.not_mem_nil
      obtain ⟨rfl, hend, hrest⟩ := closing_of_parseDeep hnil h hnodes
      refine ⟨?_, hend, hrest⟩
      rw [List.forall_mem_singleton]
      rfl

end

/-! ## What will be read -/

/-- A fuel above the length of the text is enough to read this. -/
def Parses (document noChildren : Bool) (p : Str) (result : List Node × Option Str × Str) : Prop :=
  ∀ fuel, p.length < fuel → parseDeep fuel document noChildren p = .ok result

section

variable {document noChildren : Bool} {nodes : List Node} {endTag : Option Str} {rest : Str}

theorem Parses.white {ws : Str} (hws : White ws) :
    Parses document noChildren ws ([], none, []) := by
  intro fuel hfuel
  obtain ⟨fuel, rfl⟩ := Nat.exists_eq_succ_of_ne_zero (Nat.ne_zero_of_lt hfuel)
  rw [parseDeep, identify_white hws]

theorem Parses.closing {ws name : Str} (hws : White ws) (h : isName name = true) (p : Str) :
    Parses document noChildren (ws ++ "</".toList ++ name ++ '>' :: p) ([], some name, p) := by
  intro fuel hfuel
  obtain ⟨fuel, rfl⟩ := Nat.exists_eq_succ_of_ne_zero (Nat.ne_zero_of_lt hfuel)
  exact parseDeep_closing hws h document noChildren fuel p

theorem Parses.element {ws name : Str} (hws : White ws) (h : isName name = true) {p p' : Str}
    {children : List Node} (hp : p ≠ [])
    (hchildren : Parses false noChildren p (children, some name, p')) (hle : p'.length ≤ p.length)
    (hnodes : Parses document (noChildren && !document) p' (nodes, endTag, rest)) :
    Parses document noChildren (ws ++ '<' :: (name ++ '>' :: p))
      (.element name [] children :: nodes, endTag, rest) := by
  intro fuel hfuel
  obtain ⟨fuel, rfl⟩ := Nat.exists_eq_succ_of_ne_zero (Nat.ne_zero_of_lt hfuel)
  have hlen : p.length < fuel := by
    simp only [List.length_append, List.length_cons] at hfuel
    omega
  rw [parseDeep_element hws h document noChildren fuel hp, hchildren fuel hlen, Outcome.ok_bind]
  dsimp only
  rw [if_pos rfl, hnodes fuel (Nat.lt_of_le_of_lt hle hlen)]
  rfl

theorem Parses.cdata {p p' value : Str} (htext : parseText "]]>".toList p = some (value, p'))
    (hle : p'.length ≤ p.length)
    (h : Parses document (noChildren && !document) p' (nodes, endTag, rest)) :
    Parses document noChildren ("<![CDATA[".toList ++ p)
      (.text true value :: nodes, endTag, rest) := by
  intro fuel hfuel
  obtain ⟨fuel, rfl⟩ := Nat.exists_eq_succ_of_ne_zero (Nat.ne_zero_of_lt hfuel)
  have hlen : p'.length < fuel := by
    rw [List.length_append] at hfuel
    have hnine : "<![CDATA[".toList.length = 9 := rfl
    omega
  rw [parseDeep_cdata, htext]
  dsimp only
  rw [h fuel hlen]
  rfl

/-- Text without mark-up, up to a closing tag. -/
theorem Parses.plain {text name : Str} (hmark : '<' ∉ text) (h : isName name = true) (p : Str) :
    Parses document noChildren (text ++ "</".toList ++ name ++ '>' :: p)
      (textNodes text, some name, p) := by
  rw [textNodes]
  by_cases hall : text.all isWhiteSpace = true
  · rw [if_pos hall]
    exact .closing (List.all_eq_true.mp hall) h p
  · rw [if_neg hall]
    have hwhite : ¬ White text := fun hwhite => hall (List.all_eq_true.mpr hwhite)
    have hshape : text ++ "</".toList ++ name ++ '>' :: p
        = text ++ '<' :: ('/' :: (name ++ '>' :: p)) := by
      simp
    have hnil : White [] := fun c hc => absurd hc List.not_mem_nil
    intro fuel hfuel
    obtain ⟨fuel, rfl⟩ := Nat.exists_eq_succ_of_ne_zero (Nat.ne_zero_of_lt hfuel)
    obtain ⟨fuel, rfl⟩ : ∃ n, fuel = n + 1 := by
      apply Nat.exists_eq_succ_of_ne_zero
      simp only [List.length_append, List.length_cons] at hfuel
      omega
    rw [hshape, parseDeep_text hwhite hmark _ _ _ (List.cons_ne_nil _ _)]
    have hclosing := parseDeep_closing hnil h document (noChildren && !document) fuel p
    rw [show [] ++ "</".toList ++ name ++ '>' :: p = '<' :: '/' :: (name ++ '>' :: p) by simp]
      at hclosing
    rw [hclosing]
    rfl

end

/-! ## What a section says -/

theorem length_normalizeNewlines_le (s : Str) : (normalizeNewlines s).length ≤ s.length := by
  fun_induction normalizeNewlines s with
  | case1 => exact Nat.le_refl _
  | case2 c => exact Nat.le_refl _
  | case3 c d p h ih =>
    simp only [List.length_cons]
    omega
  | case4 c d p h ih => exact Nat.succ_le_succ ih

theorem normalizeNewlines_eq {s : Str} (h : '\r' ∉ s) : normalizeNewlines s = s := by
  fun_induction normalizeNewlines s with
  | case1 => rfl
  | case2 c =>
    rw [if_neg]
    rintro rfl
    exact h List.mem_cons_self
  | case3 c d p hpair ih =>
    rcases hpair with ⟨rfl, -⟩ | ⟨-, rfl⟩
    · exact absurd List.mem_cons_self h
    · exact absurd (List.mem_cons_of_mem _ List.mem_cons_self) h
  | case4 c d p hpair ih =>
    rw [if_neg, ih (fun hmem => h (List.mem_cons_of_mem _ hmem))]
    rintro rfl
    exact h List.mem_cons_self

/-- No CR is left. -/
theorem cr_notMem_normalizeNewlines (s : Str) : '\r' ∉ normalizeNewlines s := by
  fun_induction normalizeNewlines s with
  | case1 => exact List.not_mem_nil
  | case2 c =>
    rw [List.mem_singleton]
    split_ifs with hc
    · decide
    · exact fun heq => hc heq.symm
  | case3 c d p h ih =>
    rw [List.mem_cons, not_or]
    exact ⟨by decide, ih⟩
  | case4 c d p h ih =>
    rw [List.mem_cons, not_or]
    refine ⟨?_, ih⟩
    split_ifs with hc
    · decide
    · exact fun heq => hc heq.symm

/-- The end of a section does not begin in front of itself. -/
theorem cdataEnd_start {s rest : Str} (hne : s ≠ [])
    (h : "]]>".toList <+: s ++ "]]>".toList ++ rest) : "]]>".toList <+: s := by
  match s, hne, h with
  | [a], _, h =>
    obtain ⟨behind, hbehind⟩ := h
    simp at hbehind
  | [a, b], _, h =>
    obtain ⟨behind, hbehind⟩ := h
    simp at hbehind
  | a :: b :: c :: s, _, h =>
    obtain ⟨behind, hbehind⟩ := h
    simp only [String.reduceToList, List.cons_append, List.nil_append, List.cons.injEq] at hbehind
    obtain ⟨rfl, rfl, rfl, -⟩ := hbehind
    exact ⟨s, rfl⟩

/-- Nor inside of what stands before it. -/
theorem cdataEnd_inside {s rest : Str} {i : ℕ} (hi : i < s.length)
    (h : "]]>".toList <+: (s ++ "]]>".toList ++ rest).drop i) : "]]>".toList <:+: s := by
  rw [List.append_assoc, List.drop_append_of_le_length (Nat.le_of_lt hi),
    ← List.append_assoc] at h
  have hne : s.drop i ≠ [] := by
    rw [ne_eq, List.drop_eq_nil_iff]
    exact Nat.not_le_of_lt hi
  exact (cdataEnd_start hne h).isInfix.trans (List.drop_suffix i s).isInfix

/-- A section goes up to the mark behind it, if there is none in it. -/
theorem parseText_section {s : Str} (h : ¬ "]]>".toList <:+: s) (rest : Str) :
    parseText "]]>".toList (s ++ "]]>".toList ++ rest) = some (s, rest) :=
  parseText_eq (by decide) fun _ hi hprefix => h (cdataEnd_inside hi hprefix)

/-- **A string that a section gives back**: the section does not end in it, a C string does not, and
no newline of it is another than LF. -/
structure Clean (s : Str) : Prop where
  noEnd : ¬ "]]>".toList <:+: s
  noCr : '\r' ∉ s
  noNul : '\x00' ∉ s

/-- A section of a clean string is that string. -/
theorem Clean.parseText {s : Str} (h : Clean s) (rest : Str) :
    parseText "]]>".toList (s ++ "]]>".toList ++ rest) = some (s, rest) :=
  parseText_section h.noEnd rest

/-- **A string that is read back is clean.** What is read is not longer than what it is decoded
from, so nothing of the string can have been taken for the end. -/
theorem clean_of_parseText {s tail value rest : Str}
    (hread : TinyXml2.parseText "]]>".toList (cPart (s ++ "]]>".toList ++ tail))
      = some (value, rest)) (hvalue : normalizeNewlines value = s) :
    Clean s ∧ rest = cPart tail := by
  rcases parseText_cases (show "]]>".toList ≠ [] by decide) (cPart (s ++ "]]>".toList ++ tail)) with
    ⟨hnone, -⟩ | ⟨value', rest', hsome, heq, hfirst⟩
  · rw [hnone] at hread
    cases hread
  rw [hsome] at hread
  cases hread
  have hle : s.length ≤ value.length := by
    rw [← hvalue]
    exact length_normalizeNewlines_le value
  have hstarts : s <+: value := by
    have hs : s <+: s ++ "]]>".toList ++ tail := by
      rw [List.append_assoc]
      exact List.prefix_append s _
    have hcut := List.takeWhile_prefix (fun ch => ch != '\x00') (l := s ++ "]]>".toList ++ tail)
    have hv : value <+: cPart (s ++ "]]>".toList ++ tail) := by
      rw [heq, List.append_assoc]
      exact List.prefix_append value _
    exact List.prefix_of_prefix_length_le hs (hv.trans hcut) hle
  have hnul : '\x00' ∉ s := by
    intro hmem
    apply nul_notMem_cPart (s ++ "]]>".toList ++ tail)
    rw [heq, List.append_assoc]
    exact List.mem_append_left _ (hstarts.subset hmem)
  have hcut : cPart (s ++ "]]>".toList ++ tail) = s ++ "]]>".toList ++ cPart tail := by
    apply cPart_append
    rw [List.mem_append, not_or]
    exact ⟨hnul, by decide⟩
  have hge : value.length ≤ s.length := by
    by_contra hlt
    refine hfirst s.length (Nat.lt_of_not_le hlt) ?_
    rw [hcut, List.append_assoc, List.drop_left]
    exact List.prefix_append _ _
  have hsame : s = value := hstarts.eq_of_length (Nat.le_antisymm hle hge)
  refine ⟨⟨?_, hvalue ▸ cr_notMem_normalizeNewlines value, hnul⟩, ?_⟩
  · rintro ⟨before, behind, hinside⟩
    have hlt : before.length < value.length := by
      rw [← hsame, ← hinside, List.length_append, List.length_append]
      have hthree : "]]>".toList.length = 3 := rfl
      omega
    refine hfirst before.length hlt ?_
    rw [hcut, ← hinside, List.append_assoc, List.append_assoc, List.append_assoc, List.drop_left]
    exact List.prefix_append _ _
  · rw [hcut, ← hsame] at heq
    exact (List.append_cancel_left heq).symm

end Amigos.TinyXml2
