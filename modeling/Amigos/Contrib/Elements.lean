import Amigos.Contrib.TinyXml2

/-!
# Elements with attributes, and texts that write nodes

`Writes t nodes` is what one wants to know of a piece of a document: in front of whatever follows,
the reader takes the text `t` for these nodes and goes on behind it. Such pieces are put together
(`Writes.append`, `Writes.flatMap`) and into elements (`Writes.element`), and a whole document of
them is read back by `parse` (`Writes.parse`). White space writes nothing, because what follows
begins with a mark: the reader would take it for the beginning of a text otherwise.

A value may have any characters but the quote that it stands in; the reader looks for nothing else
in it.
-/

set_option autoImplicit false

namespace Amigos.TinyXml2

open Amigos.Lib

/-! ## Attributes -/

/-- The text of some attributes. -/
inductive Attributes : List (Str × Str) → Str → Prop where
  | nil : Attributes [] []
  | cons {name value ws ws₁ ws₂ t : Str} {attributes : List (Str × Str)} (hws : White ws)
      (hws₁ : White ws₁) (hws₂ : White ws₂) (hname : isName name = true) (hvalue : '"' ∉ value)
      (h : Attributes attributes t) :
      Attributes ((name, value) :: attributes)
        (ws ++ (name ++ (ws₁ ++ '=' :: (ws₂ ++ '"' :: (value ++ '"' :: t)))))

theorem isNameChar_of_isWhiteSpace {c : Char} (h : isWhiteSpace c = true) :
    isNameChar c = false := by
  rw [isWhiteSpace, Bool.or_eq_true, beq_iff_eq, Bool.and_eq_true, decide_eq_true_eq,
    decide_eq_true_eq] at h
  rcases h with rfl | ⟨-, hle⟩
  · decide
  · have hle' : c.toNat ≤ 13 := hle
    rw [Bool.eq_false_iff]
    intro hname
    simp only [isNameChar, Bool.or_eq_true, beq_iff_eq] at hname
    rcases hname with ((hstart | hdigit) | rfl) | rfl
    · have hcode := toNat_of_isNameStartChar hstart
      omega
    · have hrange : '0'.val ≤ c.val := (Bool.and_eq_true_iff.mp hdigit).1 |> of_decide_eq_true
      have hcode : 48 ≤ c.toNat := UInt32.le_iff_toNat_le.mp hrange
      omega
    · revert hle'
      decide
    · revert hle'
      decide

/-- A name ends at white space, and at what else is not a letter of it. -/
theorem parseName_white {name : Str} (h : isName name = true) {ws : Str} (hws : White ws) {c : Char}
    (hc : isNameChar c = false) (rest : Str) :
    parseName (name ++ (ws ++ c :: rest)) = some (name, ws ++ c :: rest) := by
  cases ws with
  | nil => exact parseName_eq h hc rest
  | cons w ws =>
    exact parseName_eq h (isNameChar_of_isWhiteSpace (hws w List.mem_cons_self)) (ws ++ c :: rest)

theorem parseAttribute_eq {name value ws₁ ws₂ : Str} (hws₁ : White ws₁) (hws₂ : White ws₂)
    (hname : isName name = true) (hvalue : '"' ∉ value) (p : Str) :
    parseAttribute (name ++ (ws₁ ++ '=' :: (ws₂ ++ '"' :: (value ++ '"' :: p))))
      = some (name, value, p) := by
  have htext : parseText ['"'] (value ++ '"' :: p) = some (value, p) :=
    parseText_of_notMem hvalue [] p
  unfold parseAttribute
  simp only [parseName_white hname hws₁ (by decide : isNameChar '=' = false), hws₁.skip,
    hws₂.skip, skipWhiteSpace_cons (by decide : isWhiteSpace '=' = false),
    skipWhiteSpace_cons (by decide : isWhiteSpace '"' = false), htext, Option.bind_eq_bind,
    Option.bind_some, Option.pure_def, true_or, if_true]

theorem Attributes.length_le {attributes : List (Str × Str)} {t : Str}
    (h : Attributes attributes t) : attributes.length ≤ t.length := by
  induction h with
  | nil => exact Nat.le_refl _
  | cons _ _ _ _ _ _ ih =>
    simp only [List.length_cons, List.length_append]
    omega

/-- **Attributes are read** one after the other, up to what closes the tag. -/
theorem Attributes.parse {attributes : List (Str × Str)} {t : Str} (h : Attributes attributes t)
    (fuel : ℕ) : ∀ {before : List (Str × Str)}, ((before ++ attributes).map Prod.fst).Nodup → ∀ p,
      parseAttributes (attributes.length + fuel) before (t ++ p)
        = parseAttributes fuel (before ++ attributes) p := by
  induction h with
  | nil =>
    intro before _ p
    rw [List.append_nil, List.nil_append, List.length_nil, Nat.zero_add]
  | @cons name value ws ws₁ ws₂ t attributes hws hws₁ hws₂ hname hvalue _ ih =>
    intro before hnodup p
    obtain ⟨c, name', rfl, hstart⟩ := exists_cons_of_isName hname
    have hnew : ¬ (before.any fun attr => attr.1 == c :: name') = true := by
      rw [List.any_eq_true]
      rintro ⟨attr, hattr, heq⟩
      rw [List.map_append, List.nodup_append] at hnodup
      exact hnodup.2.2 attr.1 (List.mem_map_of_mem hattr) (c :: name') List.mem_cons_self
        (beq_iff_eq.mp heq)
    have hread := parseAttribute_eq hws₁ hws₂ hname hvalue (t ++ p)
    have hrest := @ih (before ++ [(c :: name', value)])
      (by rw [List.append_assoc]; exact hnodup) p
    rw [List.append_assoc, List.singleton_append] at hrest
    rw [List.length_cons, Nat.add_right_comm]
    simp only [List.cons_append, List.append_assoc] at hread ⊢
    rw [parseAttributes, hws.skip, skipWhiteSpace_cons (isWhiteSpace_of_isNameStartChar hstart)]
    dsimp only
    rw [if_pos hstart, hread]
    dsimp only
    rw [if_neg hnew, hrest]

/-! ## Tags -/

/-- The text of a tag between its name and the mark that closes it: a name ends where it does not
go on. -/
structure TagText (attributes : List (Str × Str)) (t : Str) : Prop where
  split : ∃ t' ws, t = t' ++ ws ∧ Attributes attributes t' ∧ White ws
  ends : ∀ c ∈ t.head?, isNameChar c = false
  nodup : (attributes.map Prod.fst).Nodup

theorem TagText.parseName {attributes : List (Str × Str)} {t : Str} (h : TagText attributes t)
    {name : Str} (hname : isName name = true) {c : Char} (hc : isNameChar c = false) (p : Str) :
    parseName (name ++ (t ++ c :: p)) = some (name, t ++ c :: p) := by
  cases t with
  | nil => exact parseName_eq hname hc p
  | cons d t => exact parseName_eq hname (h.ends d rfl) (t ++ c :: p)

/-- With as much fuel as the text is long, what closes the tag is reached. -/
theorem TagText.parseAttributes {attributes : List (Str × Str)} {t : Str}
    (h : TagText attributes t) (p : Str) {fuel : ℕ} (hfuel : t.length < fuel) : ∃ fuel',
      TinyXml2.parseAttributes fuel [] (t ++ p)
        = TinyXml2.parseAttributes (fuel' + 1) attributes p := by
  obtain ⟨t', ws, rfl, hattributes, hws⟩ := h.split
  have hlen := hattributes.length_le
  rw [List.length_append] at hfuel
  obtain ⟨fuel, rfl⟩ : ∃ k, fuel = attributes.length + (k + 1) :=
    ⟨fuel - attributes.length - 1, by omega⟩
  refine ⟨fuel, ?_⟩
  rw [List.append_assoc, hattributes.parse (fuel + 1) (List.nil_append attributes ▸ h.nodup),
    List.nil_append]
  unfold TinyXml2.parseAttributes
  rw [hws.skip]

theorem skipWhiteSpace_isName {name : Str} (h : isName name = true) (p : Str) :
    skipWhiteSpace (name ++ p) = name ++ p ∧ (name ++ p).head? ≠ some '/' := by
  obtain ⟨c, name', rfl, hstart⟩ := exists_cons_of_isName h
  refine ⟨skipWhiteSpace_cons (isWhiteSpace_of_isNameStartChar hstart) _, ?_⟩
  have hcode := toNat_of_isNameStartChar hstart
  rw [List.cons_append, List.head?_cons, Ne, Option.some.injEq]
  rintro rfl
  revert hcode
  decide

/-- An opening tag. -/
theorem parseTag_attributes {name t : Str} {attributes : List (Str × Str)}
    (hname : isName name = true) (h : TagText attributes t) (p : Str) :
    parseTag (name ++ (t ++ '>' :: p)) = .ok ⟨name, attributes, .opening, p⟩ := by
  obtain ⟨hskip, hslash⟩ := skipWhiteSpace_isName hname (t ++ '>' :: p)
  have hlen : t.length < (t ++ '>' :: p).length + 1 := by
    rw [List.length_append]
    omega
  obtain ⟨fuel', hread⟩ := h.parseAttributes ('>' :: p) hlen
  unfold parseTag
  simp only [hskip, if_neg hslash, h.parseName hname (by decide : isNameChar '>' = false), hread]
  rfl

/-- A tag that closes its element right away. -/
theorem parseTag_closed {name t : Str} {attributes : List (Str × Str)}
    (hname : isName name = true) (h : TagText attributes t) (p : Str) :
    parseTag (name ++ (t ++ '/' :: '>' :: p)) = .ok ⟨name, attributes, .closed, p⟩ := by
  obtain ⟨hskip, hslash⟩ := skipWhiteSpace_isName hname (t ++ '/' :: '>' :: p)
  have hlen : t.length < (t ++ '/' :: '>' :: p).length + 1 := by
    rw [List.length_append]
    omega
  obtain ⟨fuel', hread⟩ := h.parseAttributes ('/' :: '>' :: p) hlen
  unfold parseTag
  simp only [hskip, if_neg hslash, h.parseName hname (by decide : isNameChar '/' = false), hread]
  rfl

/-! ## Pieces of a document -/

/-- What stands here begins with a mark, behind white space. -/
def Tagged (p : Str) : Prop := ∃ ws q, White ws ∧ p = ws ++ '<' :: q

theorem Tagged.white {ws p : Str} (hws : White ws) (h : Tagged p) : Tagged (ws ++ p) := by
  obtain ⟨ws', q, hws', rfl⟩ := h
  refine ⟨ws ++ ws', q, ?_, (List.append_assoc _ _ _).symm⟩
  intro c hc
  exact (List.mem_append.mp hc).elim (hws c) (hws' c)

/-- White space in front of a mark makes no difference. -/
theorem parseDeep_white {ws p : Str} (hws : White ws) (h : Tagged p) (fuel : ℕ)
    (document noChildren : Bool) :
    parseDeep fuel document noChildren (ws ++ p) = parseDeep fuel document noChildren p := by
  obtain ⟨ws', q, hws', rfl⟩ := h
  have hidentify : identify (ws ++ (ws' ++ '<' :: q)) = identify (ws' ++ '<' :: q) := by
    unfold identify
    rw [hws.skip, hws'.skip, skipWhiteSpace_cons (by decide)]
    simp only [show "<".toList = ['<'] from rfl, List.isPrefixOf, beq_self_eq_true, Bool.and_true,
      if_true]
  cases fuel with
  | zero => rfl
  | succ fuel => rw [parseDeep, parseDeep, hidentify]

/-- **A text that writes nodes**: whatever begins with a mark behind it, the reader takes it for
these nodes and goes on there. -/
structure Writes (t : Str) (nodes : List Node) : Prop where
  tagged : ∀ p, Tagged p → Tagged (t ++ p)
  parses : ∀ p, Tagged p → ∀ nodes' endTag rest, Parses false false p (nodes', endTag, rest) →
    Parses false false (t ++ p) (nodes ++ nodes', endTag, rest)

theorem Writes.nil : Writes [] [] := ⟨fun _ h => h, fun _ _ _ _ _ h => h⟩

theorem Writes.append {t t' : Str} {nodes nodes' : List Node} (h : Writes t nodes)
    (h' : Writes t' nodes') : Writes (t ++ t') (nodes ++ nodes') := by
  constructor
  · intro p hp
    rw [List.append_assoc]
    exact h.tagged _ (h'.tagged p hp)
  · intro p hp behind endTag rest hparses
    rw [List.append_assoc, List.append_assoc]
    exact h.parses _ (h'.tagged p hp) _ _ _ (h'.parses p hp _ _ _ hparses)

theorem Writes.white {ws : Str} (hws : White ws) : Writes ws [] := by
  refine ⟨fun p hp => hp.white hws, fun p hp behind endTag rest h fuel hfuel => ?_⟩
  rw [parseDeep_white hws hp]
  exact h fuel (Nat.lt_of_le_of_lt (by rw [List.length_append]; omega) hfuel)

theorem Writes.flatMap {α : Type} {f : α → Str} {g : α → List Node} {l : List α}
    (h : ∀ a ∈ l, Writes (f a) (g a)) : Writes (l.flatMap f) (l.flatMap g) := by
  induction l with
  | nil => exact .nil
  | cons a l ih =>
    obtain ⟨ha, hl⟩ := List.forall_mem_cons.mp h
    exact ha.append (ih hl)

/-- An element that is closed right away. -/
def closedText (name t : Str) : Str := '<' :: (name ++ (t ++ ['/', '>']))

/-- An element, its children written between its tags. -/
def elementText (name t inner : Str) : Str :=
  '<' :: (name ++ (t ++ '>' :: (inner ++ '<' :: '/' :: (name ++ ['>']))))

theorem tagged_cons (p : Str) : Tagged ('<' :: p) :=
  ⟨[], p, fun _ hc => absurd hc List.not_mem_nil, rfl⟩

theorem tagged_elementText (name t inner : Str) : Tagged (elementText name t inner) := tagged_cons _

theorem Writes.closed {name t : Str} {attributes : List (Str × Str)} (hname : isName name = true)
    (h : TagText attributes t) : Writes (closedText name t) [.element name attributes []] := by
  refine ⟨fun p _ => tagged_cons _, fun p _ behind endTag rest hp fuel hfuel => ?_⟩
  have hshape : closedText name t ++ p = '<' :: (name ++ (t ++ '/' :: '>' :: p)) := by
    simp [closedText]
  rw [hshape] at hfuel ⊢
  obtain ⟨fuel, rfl⟩ := Nat.exists_eq_succ_of_ne_zero (Nat.ne_zero_of_lt hfuel)
  have hlen : p.length < fuel := by
    simp only [List.length_append, List.length_cons] at hfuel
    omega
  obtain ⟨c, name', hcons, hstart⟩ := exists_cons_of_isName hname
  have hidentify : identify ('<' :: (name ++ (t ++ '/' :: '>' :: p)))
      = some (.element, name ++ (t ++ '/' :: '>' :: p)) := by
    rw [hcons]
    exact @identify_element [] (fun c hc => absurd hc List.not_mem_nil) c (.inr hstart) _
  rw [parseDeep, hidentify]
  dsimp only
  rw [parseTag_closed hname h, Outcome.ok_bind]
  dsimp only
  rw [Bool.false_and, hp fuel hlen]
  rfl

/-- **A text that fills an element**: in front of a closing tag, the reader takes it for these
children. -/
def Fills (inner : Str) (children : List Node) : Prop :=
  ∀ name, isName name = true → ∀ p,
    Parses false false (inner ++ '<' :: '/' :: (name ++ '>' :: p)) (children, some name, p)

theorem closing_eq (text name p : Str) :
    text ++ "</".toList ++ name ++ '>' :: p = text ++ '<' :: '/' :: (name ++ '>' :: p) := by
  simp

theorem Writes.fills {t : Str} {nodes : List Node} (h : Writes t nodes) : Fills t nodes := by
  intro name hname p
  have hclosing := @Parses.closing false false [] name (fun c hc => absurd hc List.not_mem_nil)
    hname p
  rw [closing_eq, List.nil_append] at hclosing
  have hchildren := h.parses _ (tagged_cons _) _ _ _ hclosing
  rwa [List.append_nil] at hchildren

theorem Fills.text {text : Str} (hmark : '<' ∉ text) : Fills text (textNodes text) := by
  intro name hname p
  rw [← closing_eq]
  exact .plain hmark hname p

/-- **An element**, read from its opening tag on, at any level. -/
theorem Parses.elementText {name t inner : Str} {attributes : List (Str × Str)}
    {children : List Node} (hname : isName name = true) (h : TagText attributes t)
    (hinner : Fills inner children) {document : Bool} {p : Str} {nodes : List Node}
    {endTag : Option Str} {rest : Str} (hp : Parses document false p (nodes, endTag, rest)) :
    Parses document false (elementText name t inner ++ p)
      (.element name attributes children :: nodes, endTag, rest) := by
  intro fuel hfuel
  -- Behind the tag: what writes the children, and the closing tag.
  have hshape : TinyXml2.elementText name t inner ++ p
      = '<' :: (name ++ (t ++ '>' :: (inner ++ '<' :: '/' :: (name ++ '>' :: p)))) := by
    simp [TinyXml2.elementText]
  rw [hshape] at hfuel ⊢
  have hchildren := hinner name hname p
  obtain ⟨fuel, rfl⟩ := Nat.exists_eq_succ_of_ne_zero (Nat.ne_zero_of_lt hfuel)
  simp only [List.length_append, List.length_cons] at hfuel
  obtain ⟨c, name', hcons, hstart⟩ := exists_cons_of_isName hname
  have hidentify : ∀ q, identify ('<' :: (name ++ q)) = some (.element, name ++ q) := by
    intro q
    rw [hcons]
    exact @identify_element [] (fun c hc => absurd hc List.not_mem_nil) c (.inr hstart) _
  have hbehind : inner ++ '<' :: '/' :: (name ++ '>' :: p) ≠ [] :=
    List.append_ne_nil_of_right_ne_nil _ (List.cons_ne_nil _ _)
  rw [parseDeep, hidentify]
  dsimp only
  rw [parseTag_attributes hname h, Outcome.ok_bind]
  dsimp only
  rw [if_neg hbehind, hchildren fuel (by
    simp only [List.length_append, List.length_cons]
    omega), Outcome.ok_bind]
  dsimp only
  rw [if_pos rfl, Bool.false_and, hp fuel (by omega)]
  rfl

theorem Writes.filled {name t inner : Str} {attributes : List (Str × Str)}
    {children : List Node} (hname : isName name = true) (h : TagText attributes t)
    (hinner : Fills inner children) :
    Writes (elementText name t inner) [.element name attributes children] :=
  ⟨fun _ _ => tagged_cons _, fun _ _ _ _ _ hp => Parses.elementText hname h hinner hp⟩

theorem Writes.element {name t inner : Str} {attributes : List (Str × Str)}
    {children : List Node} (hname : isName name = true) (h : TagText attributes t)
    (hinner : Writes inner children) :
    Writes (elementText name t inner) [.element name attributes children] :=
  .filled hname h hinner.fills

theorem tagText_nil : TagText [] [] :=
  ⟨⟨[], [], rfl, .nil, fun _ hc => absurd hc List.not_mem_nil⟩,
    fun _ hc => absurd hc (Option.not_mem_none _), List.nodup_nil⟩

/-- A section, of a string that it gives back. -/
theorem Writes.cdata {s : Str} (h : Clean s) :
    Writes ("<![CDATA[".toList ++ (s ++ "]]>".toList)) [.text true s] := by
  have hbegin : "<![CDATA[".toList = '<' :: "![CDATA[".toList := by decide
  refine ⟨fun p _ => ?_, fun p _ behind endTag rest hp => ?_⟩
  · rw [hbegin]
    exact tagged_cons _
  · rw [List.append_assoc]
    refine .cdata (h.parseText p) ?_ hp
    rw [List.length_append]
    exact Nat.le_add_left _ _

theorem parse_of_mark {q : Str} (h : '\x00' ∉ '<' :: q) (fuel : ℕ) :
    TinyXml2.parse fuel ('<' :: q) = (do
      let (nodes, _, _) ← parseDeep fuel true true ('<' :: q)
      return nodes) := by
  unfold TinyXml2.parse
  rw [cPart_eq h, skipWhiteSpace_cons (by decide)]
  rfl

/-- **A document is read back**: a declaration, white space and one element. -/
theorem Writes.parse {declaration ws name t inner : Str} {attributes : List (Str × Str)}
    {children : List Node} (hmark : '?' ∉ declaration) (hws : White ws)
    (hname : isName name = true) (h : TagText attributes t) (hinner : Writes inner children)
    (hnul : '\x00' ∉ elementText name t inner) (hnul' : '\x00' ∉ declaration ++ ws) {fuel : ℕ}
    (hfuel : declaration.length + ws.length + (elementText name t inner).length + 4 < fuel) :
    TinyXml2.parse fuel
        ('<' :: '?' :: (declaration ++ '?' :: '>' :: (ws ++ elementText name t inner)))
      = .ok [.declaration declaration, .element name attributes children] := by
  have hclean : '\x00' ∉ '<' :: '?' :: (declaration ++
      '?' :: '>' :: (ws ++ elementText name t inner)) := by
    rw [List.mem_append, not_or] at hnul'
    simp only [List.mem_cons, List.mem_append, not_or]
    exact ⟨by decide, by decide, hnul'.1, by decide, by decide, hnul'.2, hnul⟩
  have hend : Parses true false [] ([], none, []) :=
    .white fun c hc => absurd hc List.not_mem_nil
  have helement := Parses.elementText hname h hinner.fills hend
  rw [List.append_nil] at helement
  obtain ⟨fuel, rfl⟩ := Nat.exists_eq_succ_of_ne_zero (Nat.ne_zero_of_lt hfuel)
  rw [parse_of_mark hclean, parseDeep_declaration hmark,
    parseDeep_white hws (tagged_elementText name t inner), helement fuel (by omega)]
  rfl

end Amigos.TinyXml2
