import Mathlib.Data.List.Infix
import Amigos.Lib.Language

/-!
# Where a pattern is found

What a search finds in a text that is known piece by piece. A literal is matched where it stands and
nowhere else (`lit_seq`), a greedy class takes all that it can if what follows cannot begin in it
(`greedy_seq`), and a lazy dot goes on exactly over what is `Barren` for what follows
(`head_dots_seq`, `head_lazy_seq`). `finditer_skip` and `finditer_hit` put the matches together.

The other way round, a pattern whose words all have a mark in them is not found more often than the
mark (`length_finditer_le`), and once less if the first one cannot be reached (`finditer_lost`).
-/

set_option autoImplicit false

namespace Amigos.Lib

variable {α : Type}

namespace Regex

/-! ## One way, or none -/

theorem seq_of_ways {r : Regex α} {s t : List α} {g : Groups α} (h : r.ways s = [(g, t)])
    (r' : Regex α) : (seq r r').ways s = (r'.ways t).map fun w => (w.1 ++ g, w.2) := by
  rw [ways, h, List.flatMap_singleton]

theorem seq_of_way {r : Regex α} {s t : List α} (h : r.ways s = [([], t)]) (r' : Regex α) :
    (seq r r').ways s = r'.ways t := by
  rw [seq_of_ways h]
  simp only [List.append_nil, List.map_id']

theorem seq_of_nil {r : Regex α} {s : List α} (h : r.ways s = []) (r' : Regex α) :
    (seq r r').ways s = [] := by
  rw [ways, h, List.flatMap_nil]

section

variable [DecidableEq α]

/-- **A literal is matched where it stands.** -/
theorem lit_ways (l s : List α) : (lit l).ways (l ++ s) = [([], s)] := by
  induction l with
  | nil => rfl
  | cons a l ih =>
    have hone : (one (· = a)).ways (a :: (l ++ s)) = [([], l ++ s)] :=
      if_pos (decide_eq_true rfl)
    exact (seq_of_way hone (lit l)).trans ih

/-- It is not matched elsewhere. -/
theorem lit_ways_of_not {l : List α} : ∀ {s : List α}, ¬ l <+: s → (lit l).ways s = [] := by
  induction l with
  | nil => exact fun h => absurd List.nil_prefix h
  | cons a l ih =>
    intro s h
    cases s with
    | nil => exact seq_of_nil rfl (lit l)
    | cons b s =>
      by_cases hab : b = a
      · subst hab
        have hone : (one (· = b)).ways (b :: s) = [([], s)] := if_pos (decide_eq_true rfl)
        refine (seq_of_way hone (lit l)).trans (ih fun hprefix => h ?_)
        exact List.cons_prefix_cons.mpr ⟨rfl, hprefix⟩
      · have hone : (one (· = a)).ways (b :: s) = [] := if_neg (by simpa using hab)
        exact seq_of_nil hone (lit l)

theorem lit_seq (l s : List α) (r : Regex α) : (seq (lit l) r).ways (l ++ s) = r.ways s :=
  seq_of_way (lit_ways l s) r

theorem lit_seq_of_not {l s : List α} (h : ¬ l <+: s) (r : Regex α) :
    (seq (lit l) r).ways s = [] :=
  seq_of_nil (lit_ways_of_not h) r

/-- A literal does not begin with another character than its first. -/
theorem lit_seq_of_ne {a c : α} (h : a ≠ c) (l s : List α) (r : Regex α) :
    (seq (lit (c :: l)) r).ways (a :: s) = [] :=
  lit_seq_of_not (fun hprefix => h (List.cons_prefix_cons.mp hprefix).1.symm) r

end

/-! ## Repeated classes -/

theorem star_one_cons (greedy : Bool) (p : α → Bool) (a : α) (s : List α) :
    (star greedy (one p)).ways (a :: s) =
      let more := if p a then (star greedy (one p)).ways s else []
      if greedy then more ++ [([], a :: s)] else ([], a :: s) :: more := by
  have hmore : ((one p).ways (a :: s)).flatMap (fun w => if w.2.length < (a :: s).length then
      (starLoop greedy (one p).ways s.length w.2).map fun w' => (w'.1 ++ w.1, w'.2) else [])
      = if p a then (star greedy (one p)).ways s else [] := by
    rw [ways]
    split
    · have hlt : s.length < (a :: s).length := Nat.lt_succ_self _
      rw [List.flatMap_singleton]
      simp only [if_pos hlt, List.append_nil, List.map_id', ways]
    · rfl
  show starLoop greedy (one p).ways (s.length + 1) (a :: s) = _
  rw [starLoop, hmore]

theorem star_nil (greedy : Bool) (r : Regex α) : (star greedy r).ways [] = [([], [])] :=
  starLoop_nil greedy r.ways 0

/-- **A greedy class takes all that it can**, if what follows cannot begin in the class. -/
theorem greedy_seq {p : α → Bool} {r : Regex α}
    (hr : ∀ a s, p a = true → r.ways (a :: s) = []) {v : List α} (hv : ∀ a ∈ v, p a = true)
    {t : List α} (ht : ∀ a ∈ t.head?, p a = false) :
    (seq (star true (one p)) r).ways (v ++ t) = r.ways t := by
  induction v with
  | nil =>
    rw [List.nil_append]
    cases t with
    | nil => exact seq_of_way (star_nil true _) r
    | cons a t =>
      have ha : p a = false := ht a rfl
      refine seq_of_way ?_ r
      rw [star_one_cons, ha]
      rfl
  | cons a v ih =>
    have ha : p a = true := hv a List.mem_cons_self
    have hrest := ih fun b hb => hv b (List.mem_cons_of_mem a hb)
    rw [ways] at hrest ⊢
    rw [List.cons_append, star_one_cons, ha]
    simp only [if_true, List.flatMap_append, List.flatMap_singleton, hr a _ ha, List.map_nil,
      List.append_nil]
    exact hrest

/-! ## Lazy dots -/

/-- Any text, as little as possible. -/
def dots : Regex α := star false (one fun _ => true)

end Regex

/-- **Nothing begins in `v`**, where `t` stands behind it. -/
def Barren (r : Regex α) (v t : List α) : Prop :=
  ∀ i < v.length, r.ways ((v ++ t).drop i) = []

theorem Barren.nil (r : Regex α) (t : List α) : Barren r [] t :=
  fun i hi => absurd hi (Nat.not_lt_zero i)

theorem Barren.cons {r : Regex α} {a : α} {v t : List α} (ha : r.ways (a :: (v ++ t)) = [])
    (hv : Barren r v t) : Barren r (a :: v) t := by
  intro i hi
  cases i with
  | zero => exact ha
  | succ i => exact hv i (Nat.lt_of_succ_lt_succ hi)

theorem Barren.append {r : Regex α} {v w t : List α} (hv : Barren r v (w ++ t))
    (hw : Barren r w t) : Barren r (v ++ w) t := by
  intro i hi
  rw [List.append_assoc]
  rcases Nat.lt_or_ge i v.length with hlt | hge
  · exact hv i hlt
  · rw [List.length_append] at hi
    rw [List.drop_append, List.drop_eq_nil_of_le hge, List.nil_append]
    exact hw (i - v.length) (by omega)

/-- A pattern that begins with one character, and a text without it. -/
theorem Barren.of_notMem {r : Regex α} {c : α} (hr : ∀ a s, a ≠ c → r.ways (a :: s) = [])
    {v : List α} (hv : c ∉ v) (t : List α) : Barren r v t := by
  induction v with
  | nil => exact .nil r t
  | cons a v ih =>
    have hne : a ≠ c := fun heq => hv (heq ▸ List.mem_cons_self)
    exact .cons (hr a _ hne) (ih fun hmem => hv (List.mem_cons_of_mem a hmem))

section

variable [DecidableEq α] {c : α} {v : List α}

/-- A literal in a text without its first character. -/
theorem Barren.lit (h : c ∉ v) (l t : List α) : Barren (.lit (c :: l)) v t :=
  .of_notMem (fun _ _ ha =>
    Regex.lit_ways_of_not fun hprefix => ha (List.cons_prefix_cons.mp hprefix).1.symm) h t

theorem Barren.lit_seq (h : c ∉ v) (l t : List α) (r : Regex α) :
    Barren (.seq (.lit (c :: l)) r) v t :=
  .of_notMem (fun _ s ha => Regex.lit_seq_of_ne ha l s r) h t

end

namespace Regex

/-- The ways of lazy dots: over nothing first, over all of `v` at some time. -/
theorem dots_ways (v t : List α) : ∃ before behind,
    dots.ways (v ++ t) = before ++ (([] : Groups α), t) :: behind ∧
      ∀ w ∈ before, ∃ i < v.length, w = ([], (v ++ t).drop i) := by
  induction v with
  | nil =>
    cases t with
    | nil => exact ⟨[], [], star_nil false _, fun _ h => absurd h List.not_mem_nil⟩
    | cons a t =>
      exact ⟨[], dots.ways t, star_one_cons false _ a t, fun _ h => absurd h List.not_mem_nil⟩
  | cons a v ih =>
    obtain ⟨before, behind, hways, hbefore⟩ := ih
    refine ⟨([], a :: (v ++ t)) :: before, behind, ?_, ?_⟩
    · rw [List.cons_append, List.cons_append, ← hways]
      exact star_one_cons false _ a (v ++ t)
    · intro w hw
      rcases List.mem_cons.mp hw with rfl | hw
      · exact ⟨0, Nat.succ_pos _, rfl⟩
      · obtain ⟨i, hi, rfl⟩ := hbefore w hw
        exact ⟨i + 1, Nat.succ_lt_succ hi, rfl⟩

theorem head?_flatMap_of_nil {β : Type} {f : α → List β} {before behind : List α} {a : α}
    (hbefore : ∀ b ∈ before, f b = []) (ha : f a ≠ []) :
    ((before ++ a :: behind).flatMap f).head? = (f a).head? := by
  rw [List.flatMap_append, List.flatMap_eq_nil_iff.mpr hbefore, List.nil_append, List.flatMap_cons,
    List.head?_append_of_ne_nil _ ha]

/-- **Lazy dots stop where something follows for the first time.** -/
theorem head_dots_seq {r : Regex α} {v t : List α} (hv : Barren r v t) (ht : r.ways t ≠ []) :
    ((seq dots r).ways (v ++ t)).head? = (r.ways t).head? := by
  obtain ⟨before, behind, hways, hbefore⟩ := dots_ways v t
  have hid : ∀ s, (r.ways s).map (fun w => (w.1 ++ ([] : Groups α), w.2)) = r.ways s := by
    simp only [List.append_nil, List.map_id', implies_true]
  rw [ways, hways, head?_flatMap_of_nil, hid]
  · intro w hw
    obtain ⟨i, hi, rfl⟩ := hbefore w hw
    rw [hv i hi, List.map_nil]
  · rw [hid]
    exact ht

/-- The same with the text kept as a group. -/
theorem head_lazy_seq {r : Regex α} {v t : List α} (n : Nat) (hv : Barren r v t)
    (ht : r.ways t ≠ []) : ((seq (lazy n) r).ways (v ++ t)).head?
      = (r.ways t).head?.map fun w => (w.1 ++ [(n, v)], w.2) := by
  obtain ⟨before, behind, hways, hbefore⟩ := dots_ways v t
  have hlazy : (lazy n).ways (v ++ t) = (dots.ways (v ++ t)).map fun w =>
      ((n, (v ++ t).take ((v ++ t).length - w.2.length)) :: w.1, w.2) := rfl
  have htake : (v ++ t).take ((v ++ t).length - t.length) = v := by
    rw [List.length_append, Nat.add_sub_cancel, List.take_left]
  rw [ways, hlazy, hways, List.map_append, List.map_cons, head?_flatMap_of_nil, htake,
    List.head?_map]
  · intro w hw
    obtain ⟨w', hw', rfl⟩ := List.mem_map.mp hw
    obtain ⟨i, hi, rfl⟩ := hbefore w' hw'
    rw [hv i hi, List.map_nil]
  · rw [ne_eq, List.map_eq_nil_iff]
    exact ht

theorem lit_seq_ne_nil [DecidableEq α] {l t : List α} {r : Regex α} {w : Groups α × List α}
    (h : (r.ways t).head? = some w) : (seq (lit l) r).ways (l ++ t) ≠ [] := by
  rw [lit_seq]
  intro hnil
  rw [hnil] at h
  cases h

/-- Dots up to a literal whose first character is not in them. -/
theorem head_dots_lit [DecidableEq α] {c : α} {l v t : List α} {r : Regex α}
    {w : Groups α × List α} (hv : c ∉ v) (h : (r.ways t).head? = some w) :
    ((seq dots (seq (lit (c :: l)) r)).ways (v ++ (c :: l ++ t))).head? = some w := by
  rw [head_dots_seq (.lit_seq hv l _ r) (lit_seq_ne_nil h), lit_seq, h]

theorem head_lazy_lit [DecidableEq α] {c : α} {l v t : List α} {r : Regex α}
    {w : Groups α × List α} (n : Nat) (hv : c ∉ v) (h : (r.ways t).head? = some w) :
    ((seq (lazy n) (seq (lit (c :: l)) r)).ways (v ++ (c :: l ++ t))).head?
      = some (w.1 ++ [(n, v)], w.2) := by
  rw [head_lazy_seq n (.lit_seq hv l _ r) (lit_seq_ne_nil h), lit_seq, h]
  rfl

end Regex

/-! ## All matches -/

theorem finditer_cons_of_nil {r : Regex α} {a : α} {s : List α} (h : r.ways (a :: s) = []) :
    finditer r (a :: s) = finditer r s := by
  rw [finditer, pieces, List.length_cons, piecesLoop, h]
  rfl

/-- Nothing is found in what is barren. -/
theorem finditer_skip {r : Regex α} {v t : List α} (h : Barren r v t) :
    finditer r (v ++ t) = finditer r t := by
  induction v with
  | nil => rfl
  | cons a v ih =>
    have ha : r.ways (a :: (v ++ t)) = [] := h 0 (Nat.succ_pos _)
    have hv : Barren r v t := fun i hi => h (i + 1) (Nat.succ_lt_succ hi)
    exact (finditer_cons_of_nil ha).trans (ih hv)

/-- **A match**, and the matches behind it. -/
theorem finditer_hit {r : Regex α} {s t : List α} {g : Groups α}
    (h : (r.ways s).head? = some (g, t)) (hlt : t.length < s.length) :
    finditer r s = g :: finditer r t := by
  cases s with
  | nil => exact absurd hlt (Nat.not_lt_zero _)
  | cons a s =>
    have hle : t.length ≤ s.length := Nat.le_of_lt_succ hlt
    rw [finditer, pieces, List.length_cons, piecesLoop, h]
    simp only [if_pos hlt, List.filterMap_cons]
    rw [piecesLoop_fuel hle (Nat.le_refl _)]
    rfl

/-- What a search does at a character. -/
theorem finditer_cons (r : Regex α) (a : α) (s : List α) :
    finditer r (a :: s) = finditer r s ∨
      ∃ g t, (g, t) ∈ r.ways (a :: s) ∧ finditer r (a :: s) = g :: finditer r t := by
  cases h : (r.ways (a :: s)).head? with
  | none => exact .inl (finditer_cons_of_nil (List.head?_eq_none_iff.mp h))
  | some w =>
    obtain ⟨g, t⟩ := w
    by_cases hlt : t.length < (a :: s).length
    · exact .inr ⟨g, t, List.mem_of_head? h, finditer_hit h hlt⟩
    · left
      rw [finditer, pieces, List.length_cons, piecesLoop, h]
      simp only [if_neg hlt, List.filterMap_cons]
      rfl

/-! ## Marks -/

/-- What begins with a character that is not in `v` begins behind it. -/
theorem suffix_of_notMem {c : α} {v x z t : List α} (hc : c ∉ v) (h : x ++ c :: z = v ++ t) :
    c :: z <:+ t := by
  rcases List.append_eq_append_iff.mp h with ⟨v', rfl, hz⟩ | ⟨x', -, rfl⟩
  · cases v' with
    | nil => exact ⟨[], hz⟩
    | cons b v' =>
      obtain rfl := (List.cons.inj hz).1
      exact absurd (List.mem_append_right x List.mem_cons_self) hc
  · exact List.suffix_append x' _

section

variable [DecidableEq α] {r : Regex α} {c : α} {l : List α}

/-- How often a literal stands in a text. -/
def occurrences (l s : List α) : Nat := s.tails.countP fun t => l.isPrefixOf t

theorem occurrences_cons (l : List α) (a : α) (s : List α) : occurrences l (a :: s)
    = occurrences l s + if l.isPrefixOf (a :: s) then 1 else 0 := by
  rw [occurrences, List.tails_cons, List.countP_cons]
  rfl

theorem occurrences_le_append (l v t : List α) : occurrences l t ≤ occurrences l (v ++ t) := by
  induction v with
  | nil => exact Nat.le_refl _
  | cons a v ih =>
    rw [List.cons_append, occurrences_cons]
    exact Nat.le_add_right_of_le ih

theorem occurrences_lit (c : α) (l t : List α) :
    occurrences (c :: l) (c :: l ++ t) = occurrences (c :: l) (l ++ t) + 1 := by
  have hprefix : (c :: l).isPrefixOf (c :: (l ++ t)) = true :=
    List.isPrefixOf_iff_prefix.mpr (List.prefix_append (c :: l) t)
  rw [List.cons_append, occurrences_cons, hprefix, if_pos rfl]

theorem occurrences_behind (x y t : List α) :
    occurrences (c :: l) t + 1 ≤ occurrences (c :: l) (x ++ (c :: l ++ (y ++ t))) :=
  calc occurrences (c :: l) t + 1
      ≤ occurrences (c :: l) (l ++ (y ++ t)) + 1 := by
        rw [← List.append_assoc]
        exact Nat.succ_le_succ (occurrences_le_append _ (l ++ y) t)
    _ = occurrences (c :: l) (c :: l ++ (y ++ t)) := (occurrences_lit c l _).symm
    _ ≤ _ := occurrences_le_append _ x _

theorem occurrences_skip {v t : List α} (h : Barren (.lit l) v t) :
    occurrences l (v ++ t) = occurrences l t := by
  induction v with
  | nil => rfl
  | cons a v ih =>
    have ha : (Regex.lit l).ways (a :: (v ++ t)) = [] := h 0 (Nat.succ_pos _)
    have hnot : l.isPrefixOf (a :: (v ++ t)) = false := by
      rw [Bool.eq_false_iff, ne_eq, List.isPrefixOf_iff_prefix]
      rintro ⟨s, hs⟩
      rw [← hs, Regex.lit_ways] at ha
      cases ha
    have hv : Barren (.lit l) v t := fun i hi => h (i + 1) (Nat.succ_lt_succ hi)
    rw [List.cons_append, occurrences_cons, hnot, ih hv]
    rfl

/-- **Not more often than the mark.** -/
theorem length_finditer_le (hr : ∀ v ∈ r.language, ∃ x y, v = x ++ (c :: l ++ y)) {n : Nat} :
    ∀ {s : List α}, s.length ≤ n → (finditer r s).length ≤ occurrences (c :: l) s := by
  induction n with
  | zero =>
    intro s hs
    rw [List.length_eq_zero_iff.mp (Nat.le_zero.mp hs)]
    exact Nat.zero_le _
  | succ n ih =>
    intro s hs
    cases s with
    | nil => exact Nat.zero_le _
    | cons a s =>
      rw [List.length_cons] at hs
      rcases finditer_cons r a s with heq | ⟨g, t, hway, heq⟩
      · rw [heq]
        exact (ih (Nat.le_of_succ_le_succ hs)).trans (occurrences_le_append _ [a] s)
      · obtain ⟨v, hv, hs'⟩ := Regex.ways_language hway
        obtain ⟨x, y, rfl⟩ := hr v hv
        have hshape : a :: s = x ++ (c :: l ++ (y ++ t)) := by
          rw [← hs', List.append_assoc, List.append_assoc]
        have hlen := congrArg List.length hshape
        simp only [List.length_append, List.length_cons] at hlen
        rw [heq, List.length_cons, hshape]
        have hrest := Nat.succ_le_succ (ih (s := t) (by omega))
        exact hrest.trans (occurrences_behind x y t)

/-- What is found behind a match has its marks behind the one of the match. -/
theorem length_finditer_lt (hr : ∀ v ∈ r.language, ∃ x y, v = x ++ (c :: l ++ y))
    {g : Groups α} {s y t : List α} (h : c :: l ++ (y ++ t) <:+ s) :
    (g :: finditer r t).length ≤ occurrences (c :: l) s := by
  obtain ⟨x, rfl⟩ := h
  exact (Nat.succ_le_succ (length_finditer_le hr (Nat.le_refl _))).trans
    (occurrences_behind x y t)

theorem length_finditer_append (hr : ∀ v ∈ r.language, ∃ x y, v = x ++ (c :: l ++ y))
    {v : List α} (hv : c ∉ v) (t : List α) :
    (finditer r (v ++ t)).length ≤ occurrences (c :: l) t := by
  induction v with
  | nil => exact length_finditer_le hr (Nat.le_refl _)
  | cons a v ih =>
    rcases finditer_cons r a (v ++ t) with heq | ⟨g, t', hway, heq⟩
    · exact heq ▸ ih fun hmem => hv (List.mem_cons_of_mem a hmem)
    · obtain ⟨word, hword, hs⟩ := Regex.ways_language hway
      obtain ⟨x, y, rfl⟩ := hr word hword
      rw [List.append_assoc, List.append_assoc] at hs
      rw [List.cons_append, heq]
      exact length_finditer_lt hr (suffix_of_notMem hv hs)

/-- **A mark is lost** if nothing that stands in front of it begins a match: the search goes on
behind it. -/
theorem finditer_lost (hc : c ∉ l) {v : List α}
    (hr : ∀ word ∈ r.language, ∃ x y, word = x ++ (c :: l ++ y) ∧ ∀ v', v' <:+ v → ¬ x <+: v')
    (t : List α) : (finditer r (v ++ (c :: l ++ t))).length ≤ occurrences (c :: l) t := by
  have hmark : ∀ word ∈ r.language, ∃ x y, word = x ++ (c :: l ++ y) := by
    intro word hword
    obtain ⟨x, y, heq, -⟩ := hr word hword
    exact ⟨x, y, heq⟩
  have hbehind := length_finditer_append hmark hc t
  have hpass : ∀ v', v' <:+ v → ∀ a s, a :: s = v' ++ (c :: l ++ t) →
      (finditer r s).length ≤ occurrences (c :: l) t →
        (finditer r (a :: s)).length ≤ occurrences (c :: l) t := by
    intro v' hv' a s hs hle
    rcases finditer_cons r a s with heq | ⟨g, t', hway, heq⟩
    · rwa [heq]
    · obtain ⟨word, hword, hword'⟩ := Regex.ways_language hway
      obtain ⟨x, y, rfl, hlost⟩ := hr word hword
      rw [heq]
      rw [hs, List.append_assoc, List.append_assoc] at hword'
      rcases List.append_eq_append_iff.mp hword' with ⟨v'', rfl, -⟩ | ⟨x', rfl, hrest⟩
      · exact absurd (List.prefix_append x v'') (hlost _ hv')
      · cases x' with
        | nil =>
          rw [List.append_nil] at hlost
          exact absurd List.prefix_rfl (hlost v' hv')
        | cons b x' =>
          exact length_finditer_lt hmark (suffix_of_notMem hc (List.cons.inj hrest).2.symm)
  induction v with
  | nil => exact hpass [] List.suffix_rfl c (l ++ t) rfl hbehind
  | cons a v ih =>
    have hv : ∀ v', v' <:+ v → v' <:+ a :: v := fun v' h => h.trans (List.suffix_cons a v)
    refine hpass (a :: v) List.suffix_rfl a (v ++ (c :: l ++ t)) rfl (ih ?_ ?_)
    · intro word hword
      obtain ⟨x, y, heq, hlost⟩ := hr word hword
      exact ⟨x, y, heq, fun v' h => hlost v' (hv v' h)⟩
    · exact fun v' h => hpass v' (hv v' h)

end

end Amigos.Lib
