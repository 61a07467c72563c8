import Mathlib.Data.List.Infix

/-!
# Phrases between separators

A phrase is some words with a separator between two. It occurs in a text where it stands between
separators or the ends of the text. Searches for such occurrences put a separator around the phrase
and around the text and look for one list inside the other; `prefix_padded_iff` says that this is
the same, and at the same position.

Words have no separator inside. So an occurrence of a word does not cross the end of an occurrence
of a phrase (`OccursAt.end_le`).

`findFrom` is the search of the standard libraries, and what it finds is a `FirstAt`.
-/

set_option autoImplicit false

namespace Amigos.Lib

section

variable {α : Type} {sep : α}

/-- Words with a separator between two. -/
def joined (sep : α) : List (List α) → List α
  | [] => []
  | w :: ws => w ++ ws.flatMap fun v => sep :: v

theorem foldl_joined (w : List α) (ws : List (List α)) :
    ws.foldl (fun phrase v => phrase ++ sep :: v) w = joined sep (w :: ws) := by
  induction ws generalizing w with
  | nil => exact (List.append_nil w).symm
  | cons v ws ih =>
    rw [List.foldl_cons, ih]
    simp only [joined, List.flatMap_cons, List.append_assoc]

/-- A phrase ends with its last word, and so not with a separator. -/
theorem joined_ne_concat {ws : List (List α)} (hws : ∀ w ∈ ws, w ≠ [] ∧ sep ∉ w)
    (phrase : List α) : joined sep ws ≠ phrase ++ [sep] := by
  have hword : ∀ {w : List α}, w ≠ [] → sep ∉ w → w.getLast? ≠ some sep := fun _ hnot hlast =>
    hnot (List.mem_of_getLast? hlast)
  intro heq
  have hlast : (joined sep ws).getLast? = some sep := by rw [heq, List.getLast?_concat]
  cases ws with
  | nil => cases hlast
  | cons w ws =>
    rcases List.eq_nil_or_concat ws with rfl | ⟨us, v, rfl⟩
    · obtain ⟨hne, hnot⟩ := hws w List.mem_cons_self
      exact hword hne hnot (by rwa [joined, List.flatMap_nil, List.append_nil] at hlast)
    · obtain ⟨hne, hnot⟩ := hws v (by simp)
      refine hword hne hnot ?_
      rw [joined, List.concat_eq_append, List.flatMap_append, List.flatMap_singleton,
        ← List.append_assoc, List.getLast?_append_cons, List.getLast?_cons_of_ne_nil hne] at hlast
      exact hlast

/-- A phrase stands at a position of a text, between separators or the ends of the text. -/
structure OccursAt (sep : α) (text phrase : List α) (p : Nat) : Prop where
  le : p ≤ text.length
  starts : phrase <+: text.drop p
  front : p = 0 ∨ text[p - 1]? = some sep
  back : p + phrase.length = text.length ∨ text[p + phrase.length]? = some sep

theorem OccursAt.length_le {text phrase : List α} {p : Nat} (h : OccursAt sep text phrase p) :
    p + phrase.length ≤ text.length := by
  have hlen := h.starts.length_le
  have hle := h.le
  rw [List.length_drop] at hlen
  omega

theorem OccursAt.take_eq {text phrase : List α} {p : Nat} (h : OccursAt sep text phrase p) :
    (text.drop p).take phrase.length = phrase :=
  (List.prefix_iff_eq_take.mp h.starts).symm

/-- **Words do not cross the end of a phrase.** -/
theorem OccursAt.end_le {text word phrase : List α} {p q : Nat} (hsep : sep ∉ word)
    (hword : OccursAt sep text word p) (hphrase : OccursAt sep text phrase q)
    (hp : p ≤ q + phrase.length) : p + word.length ≤ q + phrase.length := by
  by_contra hlt
  have hle := hword.length_le
  rcases hphrase.back with hback | hback
  · exact hlt (hback ▸ hle)
  · -- The separator behind the phrase is inside the word.
    obtain ⟨i, hi⟩ := Nat.exists_eq_add_of_le hp
    have hlen : i < word.length := by omega
    have hget := hword.starts.getElem hlen
    rw [List.getElem_drop] at hget
    rw [hi, List.getElem?_eq_getElem (by omega), Option.some.injEq] at hback
    exact hsep (hback ▸ hget ▸ List.getElem_mem hlen)

/-- The first word of a phrase occurs where the phrase does. -/
theorem OccursAt.first {text w : List α} {ws : List (List α)} {p : Nat}
    (h : OccursAt sep text (joined sep (w :: ws)) p) : OccursAt sep text w p := by
  cases ws with
  | nil => rwa [joined, List.flatMap_nil, List.append_nil] at h
  | cons v ws =>
    have hstarts : w ++ [sep] <+: text.drop p := by
      refine List.IsPrefix.trans ?_ h.starts
      exact ⟨v ++ ws.flatMap fun v => sep :: v, by simp [joined]⟩
    refine ⟨h.le, (List.prefix_append w [sep]).trans hstarts, h.front, .inr ?_⟩
    have hlen : w.length < (w ++ [sep]).length := by simp
    have hget := hstarts.getElem hlen
    rw [List.getElem_concat_length rfl, List.getElem_drop] at hget
    rw [hget, ← List.getElem?_eq_getElem]

/-! ## Searching with separators around -/

theorem prefix_concat_concat_iff (phrase rest : List α) : phrase ++ [sep] <+: rest ++ [sep] ↔
    phrase <+: rest ∧ (phrase.length = rest.length ∨ rest[phrase.length]? = some sep) := by
  rw [List.prefix_concat_iff]
  constructor
  · rintro (heq | hstarts)
    · obtain rfl := List.append_cancel_right heq
      exact ⟨List.prefix_rfl, .inl rfl⟩
    · obtain ⟨behind, rfl⟩ := hstarts
      exact ⟨⟨sep :: behind, by simp⟩, .inr (by simp)⟩
  · rintro ⟨⟨behind, rfl⟩, hback⟩
    cases behind with
    | nil => exact .inl (by simp)
    | cons c behind =>
      have hc : c = sep := by simpa using hback
      exact .inr ⟨behind, by simp [hc]⟩

/-- **A padded search finds the occurrences.** -/
theorem prefix_padded_iff (text phrase : List α) (p : Nat) :
    sep :: (phrase ++ [sep]) <+: (sep :: (text ++ [sep])).drop p ↔ OccursAt sep text phrase p := by
  cases p with
  | zero =>
    rw [List.drop_zero, List.cons_prefix_cons, and_iff_right rfl, prefix_concat_concat_iff]
    constructor
    · rintro ⟨hstarts, hback⟩
      exact ⟨Nat.zero_le _, hstarts, .inl rfl, by rwa [Nat.zero_add]⟩
    · intro h
      have hback := h.back
      rw [Nat.zero_add] at hback
      exact ⟨h.starts, hback⟩
  | succ p =>
    rw [List.drop_succ_cons]
    rcases Nat.lt_or_ge p text.length with hlt | hge
    · rw [List.drop_append_of_le_length (Nat.le_of_lt hlt), List.drop_eq_getElem_cons hlt,
        List.cons_append, List.cons_prefix_cons, prefix_concat_concat_iff, List.getElem?_drop,
        List.length_drop]
      constructor
      · rintro ⟨hfront, hstarts, hback⟩
        refine ⟨hlt, hstarts, .inr ?_, hback.imp_left fun hlen => by omega⟩
        rw [Nat.add_sub_cancel, List.getElem?_eq_getElem hlt, hfront]
      · intro h
        refine ⟨?_, h.starts, h.back.imp_left fun hlen => by omega⟩
        have hfront := h.front.resolve_left (Nat.succ_ne_zero p)
        rw [Nat.add_sub_cancel, List.getElem?_eq_getElem hlt, Option.some.injEq] at hfront
        exact hfront.symm
    · -- Behind the text only the last separator is left.
      constructor
      · intro h
        have hlen := h.length_le
        simp only [List.length_cons, List.length_append, List.length_nil, List.length_drop] at hlen
        omega
      · intro h
        exact absurd h.le (Nat.not_le_of_lt (Nat.lt_succ_of_le hge))

/-- The first position from `pos` on where the pattern is found. -/
def findFrom [DecidableEq α] (text pattern : List α) (pos : Nat) : Option Nat :=
  (List.range' pos (text.length + 1 - pos)).find? fun p => pattern.isPrefixOf (text.drop p)

/-- **What a search can find.** -/
theorem findFrom_cases [DecidableEq α] (text : List α) {pattern : List α} (hne : pattern ≠ [])
    (pos : Nat) :
    (findFrom text pattern pos = none ∧ ∀ p, pos ≤ p → ¬ pattern <+: text.drop p) ∨
    ∃ p, findFrom text pattern pos = some p ∧ pos ≤ p ∧ p < text.length ∧
      pattern <+: text.drop p ∧ ∀ i, pos ≤ i → i < p → ¬ pattern <+: text.drop i := by
  have hinside : ∀ {p}, pattern <+: text.drop p → p < text.length := by
    intro p h
    by_contra hge
    rw [List.drop_eq_nil_of_le (Nat.le_of_not_lt hge)] at h
    exact hne (List.prefix_nil.mp h)
  cases hfind : findFrom text pattern pos with
  | none =>
    refine .inl ⟨rfl, fun p hp h => ?_⟩
    have hlt := hinside h
    have hnot := List.find?_eq_none.mp hfind p (List.mem_range'_1.mpr ⟨hp, by omega⟩)
    exact hnot (List.isPrefixOf_iff_prefix.mpr h)
  | some p =>
    obtain ⟨hfound, hp, hfirst⟩ := List.find?_range'_eq_some.mp hfind
    have hstarts := List.isPrefixOf_iff_prefix.mp hfound
    refine .inr ⟨p, rfl, (List.mem_range'_1.mp hp).1, hinside hstarts, hstarts,
      fun i hi hlt h => ?_⟩
    have hnot := hfirst i hi hlt
    rw [List.isPrefixOf_iff_prefix.mpr h] at hnot
    cases hnot

/-! ## The first occurrence -/

/-- The first occurrence of a pattern from `pos` on stands at `p`. -/
structure FirstAt (text pattern : List α) (pos p : Nat) : Prop where
  le : pos ≤ p
  stands : pattern <+: text.drop p
  first : ∀ i, pos ≤ i → i < p → ¬ pattern <+: text.drop i

theorem FirstAt.unique {text pattern : List α} {pos p q : Nat} (hp : FirstAt text pattern pos p)
    (hq : FirstAt text pattern pos q) : p = q := by
  rcases Nat.lt_trichotomy p q with hlt | heq | hlt
  · exact absurd hp.stands (hq.first p hp.le hlt)
  · exact heq
  · exact absurd hq.stands (hp.first q hq.le hlt)

/-- It is not behind any other occurrence. -/
theorem FirstAt.le_of_stands {text pattern : List α} {pos p q : Nat}
    (h : FirstAt text pattern pos p) (hle : pos ≤ q) (hstands : pattern <+: text.drop q) :
    p ≤ q :=
  Nat.le_of_not_lt fun hlt => h.first q hle hlt hstands

theorem FirstAt.end_le {text pattern : List α} {pos p : Nat} (h : FirstAt text pattern pos p)
    (hne : pattern ≠ []) : p + pattern.length ≤ text.length := by
  have hlen := h.stands.length_le
  have hpos := List.length_pos_of_ne_nil hne
  rw [List.length_drop] at hlen
  omega

theorem findFrom_eq_some_iff [DecidableEq α] (text : List α) {pattern : List α}
    (hne : pattern ≠ []) (pos p : Nat) :
    findFrom text pattern pos = some p ↔ FirstAt text pattern pos p := by
  rcases findFrom_cases text hne pos with ⟨hnone, hnot⟩ | ⟨q, hsome, hle, -, hstands, hfirst⟩
  · rw [hnone]
    refine iff_of_false (fun h => nomatch h) ?_
    exact fun h => hnot p h.le h.stands
  · have hq : FirstAt text pattern pos q := ⟨hle, hstands, hfirst⟩
    rw [hsome, Option.some.injEq]
    constructor
    · rintro rfl
      exact hq
    · exact hq.unique

/-- A list has a pattern inside where the pattern stands somewhere. -/
theorem infix_drop_iff {text pattern : List α} {pos : Nat} :
    pattern <:+: text.drop pos ↔ ∃ p, pos ≤ p ∧ pattern <+: text.drop p := by
  constructor
  · rintro ⟨before, behind, hinside⟩
    refine ⟨pos + before.length, Nat.le_add_right _ _, ?_⟩
    rw [← List.drop_drop, ← hinside, List.append_assoc, List.drop_left]
    exact List.prefix_append pattern behind
  · rintro ⟨p, hle, hstands⟩
    refine hstands.isInfix.trans ?_
    rw [← Nat.add_sub_cancel' hle, ← List.drop_drop]
    exact (List.drop_suffix _ _).isInfix

/-- A pattern of one element. -/
theorem singleton_prefix_drop_iff {text : List α} {c : α} {p : Nat} :
    [c] <+: text.drop p ↔ text[p]? = some c := by
  rw [← List.head?_drop]
  cases text.drop p with
  | nil => simp
  | cons d rest => simp [List.cons_prefix_cons, eq_comm]

theorem findFrom_eq_none_iff [DecidableEq α] (text : List α) {pattern : List α}
    (hne : pattern ≠ []) (pos : Nat) :
    findFrom text pattern pos = none ↔ ¬ pattern <:+: text.drop pos := by
  rw [infix_drop_iff]
  rcases findFrom_cases text hne pos with ⟨hnone, hnot⟩ | ⟨q, hsome, hle, -, hstands, -⟩
  · exact iff_of_true hnone fun ⟨p, hle, hstands⟩ => hnot p hle hstands
  · rw [hsome]
    refine iff_of_false (fun h => nomatch h) ?_
    exact fun h => h ⟨q, hle, hstands⟩

end

end Amigos.Lib
