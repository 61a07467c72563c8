import Amigos.Contrib.TinyXml2
import Amigos.Lib.Escape
import Amigos.Lib.Loop

/-!
# The value of an attribute or a text (`StrPair::GetStr`)

A value is decoded in place when it is first asked for: one pointer reads, another one writes
behind it, into the same memory. What is written never reaches what is still to be read, because a
reference is longer than what it stands for and two characters of a line end become one. So a
text in which the five characters of the entity table are escaped comes out as it was, up to its
line ends (`getStr_references`), and a text without references stays as it is (`getStr_plain`).

A `&` that begins no reference the reader knows is passed over and not written: what stands there
then is whatever was there before. No escaped text has one.
-/

set_option autoImplicit false

namespace Amigos.TinyXml2

open Amigos.Lib

/-! ## The source -/

/-- `entities`: a pattern and its value. -/
def entities : List (Str × Char) :=
  [("quot".toList, '"'), ("amp".toList, '&'), ("apos".toList, '\''), ("lt".toList, '<'),
    ("gt".toList, '>')]

/-- The entity that the text behind a `&` names. -/
def findEntity (p : Str) : Option (Str × Char) :=
  entities.find? fun entity => entity.1.isPrefixOf p && (p.drop entity.1.length).head? == some ';'

/-- The loop of `GetStr`, over the memory, what is read next and what is written next, for a value
with both flags of `ATTRIBUTE_VALUE`, which are those of `TEXT_ELEMENT`. `characterRef` is
`GetCharacterRef`: what the reference in front stands for, and its length. The memory is one of
characters: what is left behind an entity that is not known is a stale character here, and a stale
byte in the code. -/
def getStrPass (characterRef : Str → Option (Str × ℕ)) (stop : ℕ) :
    Str × ℕ × ℕ → Option (Pass (Str × ℕ × ℕ) Str)
  | (mem, p, q) =>
    if p < stop then
      match mem.drop p with
      | [] => none
      | c :: rest =>
        if c = '\r' then
          some (.again (mem.set q '\n', if rest.head? = some '\n' then p + 2 else p + 1, q + 1))
        else if c = '\n' then
          some (.again (mem.set q '\n', if rest.head? = some '\r' then p + 2 else p + 1, q + 1))
        else if c = '&' then
          if rest.head? = some '#' then
            match characterRef (c :: rest) with
            | none => some (.again (mem.set q c, p + 1, q + 1))
            | some (buf, len) => some (.again
              (mem.take q ++ buf ++ mem.drop (q + buf.length), p + len, q + buf.length))
          else
            match findEntity rest with
            | some entity => some (.again (mem.set q entity.2, p + (entity.1.length + 2), q + 1))
            | none => some (.again (mem, p + 1, q + 1))
        else some (.again (mem.set q c, p + 1, q + 1))
    else some (.leave (mem.take q))

/-- `GetStr` of an attribute or a text; a NUL is put behind it first. -/
def getStr (characterRef : Str → Option (Str × ℕ)) (fuel : ℕ) (value : Str) : Option Str :=
  iterate (getStrPass characterRef value.length) fuel (value ++ ['\x00'], 0, 0)

/-! ## One memory, two pointers -/

/-- `done` has been written, `rest` is to be read, and between the two is what was read already. -/
def Standing (stop : ℕ) (done rest : Str) : Str × ℕ × ℕ → Prop
  | (mem, p, q) => mem.length = stop + 1 ∧ ∃ stale : Str, mem = done ++ (stale ++ rest) ∧
      p = done.length + stale.length ∧ q = done.length

section

variable {stop : ℕ} {done rest mem : Str} {p q : ℕ}

theorem Standing.drop (h : Standing stop done rest (mem, p, q)) : mem.drop p = rest := by
  obtain ⟨-, stale, rfl, rfl, -⟩ := h
  rw [List.drop_append, List.drop_eq_nil_of_le (Nat.le_add_right _ _), List.nil_append,
    Nat.add_sub_cancel_left, List.drop_left]

theorem Standing.take (h : Standing stop done rest (mem, p, q)) : mem.take q = done := by
  obtain ⟨-, stale, rfl, -, rfl⟩ := h
  exact List.take_left

/-- The NUL behind the value is not read. -/
theorem Standing.lt_iff (h : Standing stop done (rest ++ ['\x00']) (mem, p, q)) :
    p < stop ↔ rest ≠ [] := by
  obtain ⟨hlen, stale, rfl, rfl, -⟩ := h
  simp only [List.length_append, List.length_singleton] at hlen
  rw [← List.length_pos_iff]
  omega

/-- **A character is written** where something was read, now or before. -/
theorem Standing.write (piece : Str) (h : Standing stop done (piece ++ rest) (mem, p, q))
    (hpiece : piece ≠ []) (x : Char) :
    Standing stop (done ++ [x]) rest (mem.set q x, p + piece.length, q + 1) := by
  obtain ⟨hmem, stale, rfl, rfl, rfl⟩ := h
  obtain ⟨c, behind, hcons⟩ :=
    List.exists_cons_of_ne_nil (List.append_ne_nil_of_right_ne_nil stale hpiece)
  have hlen : stale.length + piece.length = behind.length + 1 := by
    rw [← List.length_append, hcons, List.length_cons]
  refine ⟨List.length_set.trans hmem, behind, ?_, ?_, ?_⟩
  · rw [← List.append_assoc stale, hcons, List.set_append_right _ _ (Nat.le_refl _), Nat.sub_self]
    simp only [List.cons_append, List.set_cons_zero, List.append_assoc, List.nil_append]
  · rw [List.length_append, List.length_singleton]
    omega
  · rw [List.length_append, List.length_singleton]

end

/-! ## Escaped text -/

/-- The reference of each of the characters of the table. -/
def references : List (Char × Str) :=
  [('&', "&amp;".toList), ('<', "&lt;".toList), ('>', "&gt;".toList), ('"', "&quot;".toList),
    ('\'', "&apos;".toList)]

/-- A reference names its character. -/
theorem findEntity_reference {entry : Char × Str} (h : entry ∈ references) (rest : Str) :
    ∃ name, entry.2 = '&' :: (name ++ [';']) ∧ name.head? ≠ some '#' ∧ name ≠ [] ∧
      findEntity (name ++ ';' :: rest) = some (name, entry.1) := by
  simp only [references, List.mem_cons, List.not_mem_nil, or_false] at h
  rcases h with rfl | rfl | rfl | rfl | rfl
  · exact ⟨"amp".toList, rfl, by decide, by decide, rfl⟩
  · exact ⟨"lt".toList, rfl, by decide, by decide, rfl⟩
  · exact ⟨"gt".toList, rfl, by decide, by decide, rfl⟩
  · exact ⟨"quot".toList, rfl, by decide, by decide, rfl⟩
  · exact ⟨"apos".toList, rfl, by decide, by decide, rfl⟩

section

variable {characterRef : Str → Option (Str × ℕ)} {stop : ℕ} {done rest mem : Str} {p q : ℕ}

/-- A reference is read and its character is written. -/
theorem getStrPass_reference {entry : Char × Str} (hentry : entry ∈ references)
    (h : Standing stop done (entry.2 ++ rest) (mem, p, q)) (hp : p < stop) : ∃ s,
      getStrPass characterRef stop (mem, p, q) = some (.again s) ∧
      Standing stop (done ++ [entry.1]) rest s := by
  obtain ⟨name, hname, hhash, hne, hfind⟩ := findEntity_reference hentry rest
  obtain ⟨first, name, rfl⟩ := List.exists_cons_of_ne_nil hne
  have hdrop : mem.drop p = '&' :: ((first :: name) ++ ';' :: rest) := by
    rw [h.drop, hname]
    simp
  have hhead : ((first :: name) ++ ';' :: rest).head? ≠ some '#' := hhash
  have hlen : entry.2.length = (first :: name).length + 2 := by
    rw [hname]
    simp
  have hwrite := Standing.write entry.2 h (by rw [hname]; exact List.cons_ne_nil _ _) entry.1
  rw [hlen] at hwrite
  refine ⟨_, ?_, hwrite⟩
  simp only [getStrPass, if_pos hp, hdrop, if_neg (by decide : ¬ ('&' = '\r')),
    if_neg (by decide : ¬ ('&' = '\n')), if_true, if_neg hhead, hfind]

/-- A letter is copied. -/
theorem getStrPass_letter {c : Char} (hc : c ≠ '\r' ∧ c ≠ '\n' ∧ c ≠ '&')
    (h : Standing stop done (c :: rest) (mem, p, q)) (hp : p < stop) : ∃ s,
      getStrPass characterRef stop (mem, p, q) = some (.again s) ∧
      Standing stop (done ++ [c]) rest s := by
  have hwrite : Standing stop (done ++ [c]) rest (mem.set q c, p + 1, q + 1) :=
    Standing.write [c] h (List.cons_ne_nil _ _) c
  refine ⟨_, ?_, hwrite⟩
  simp only [getStrPass, if_pos hp, h.drop, if_neg hc.1, if_neg hc.2.1, if_neg hc.2.2]

/-- The other half of a line end. -/
def otherHalf (c : Char) : Char := if c = '\r' then '\n' else '\r'

/-- A line end of two characters becomes one. -/
theorem getStrPass_pair {c : Char} (hc : c = '\r' ∨ c = '\n')
    (h : Standing stop done (c :: otherHalf c :: rest) (mem, p, q)) (hp : p < stop) : ∃ s,
      getStrPass characterRef stop (mem, p, q) = some (.again s) ∧
      Standing stop (done ++ ['\n']) rest s := by
  have hwrite : Standing stop (done ++ ['\n']) rest (mem.set q '\n', p + 2, q + 1) :=
    Standing.write [c, otherHalf c] h (List.cons_ne_nil _ _) '\n'
  refine ⟨_, ?_, hwrite⟩
  rcases hc with rfl | rfl
  · simp only [getStrPass, if_pos hp, h.drop, if_true, otherHalf, List.head?_cons]
  · simp only [getStrPass, if_pos hp, h.drop, if_true, otherHalf, List.head?_cons,
      if_neg (by decide : ¬ ('\n' = '\r'))]

/-- A half of a line end becomes one, too. -/
theorem getStrPass_half {c : Char} (hc : c = '\r' ∨ c = '\n')
    (hrest : rest.head? ≠ some (otherHalf c)) (h : Standing stop done (c :: rest) (mem, p, q))
    (hp : p < stop) : ∃ s,
      getStrPass characterRef stop (mem, p, q) = some (.again s) ∧
      Standing stop (done ++ ['\n']) rest s := by
  have hwrite : Standing stop (done ++ ['\n']) rest (mem.set q '\n', p + 1, q + 1) :=
    Standing.write [c] h (List.cons_ne_nil _ _) '\n'
  refine ⟨_, ?_, hwrite⟩
  rcases hc with rfl | rfl
  · have hhead : rest.head? ≠ some '\n' := hrest
    simp only [getStrPass, if_pos hp, h.drop, if_true, if_neg hhead]
  · have hhead : rest.head? ≠ some '\r' := hrest
    simp only [getStrPass, if_pos hp, h.drop, if_neg (by decide : ¬ ('\n' = '\r')), if_true,
      if_neg hhead]

end

theorem normalizeNewlines_pair {c : Char} (hc : c = '\r' ∨ c = '\n') (s : Str) :
    normalizeNewlines (c :: otherHalf c :: s) = '\n' :: normalizeNewlines s := by
  rcases hc with rfl | rfl
  · rw [normalizeNewlines, if_pos (.inl ⟨rfl, rfl⟩)]
  · rw [normalizeNewlines, if_pos (.inr ⟨rfl, rfl⟩)]

/-- Anything but a pair: the character is taken for itself. -/
theorem normalizeNewlines_one {c : Char} {s : Str}
    (h : (c = '\r' ∨ c = '\n') → s.head? ≠ some (otherHalf c)) :
    normalizeNewlines (c :: s) = (if c = '\r' then '\n' else c) :: normalizeNewlines s := by
  cases s with
  | nil => rfl
  | cons d s =>
    rw [normalizeNewlines, if_neg]
    rintro (⟨rfl, rfl⟩ | ⟨rfl, rfl⟩)
    · exact h (.inl rfl) rfl
    · exact h (.inr rfl) rfl

section

variable {table : List (Char × Str)} (htable : ∀ entry ∈ table, entry ∈ references)

include htable

theorem lookup_lineEnd {c : Char} (hc : c = '\r' ∨ c = '\n') : table.lookup c = none := by
  rcases lookup_cases table c with ⟨entry, hentry, rfl, -⟩ | ⟨hnone, -⟩
  · have hline : ∀ entry ∈ references, ¬ (entry.1 = '\r' ∨ entry.1 = '\n') := by decide
    exact absurd hc (hline entry (htable entry hentry))
  · exact hnone

/-- An escaped text begins with a line end only where the text does. -/
theorem head_escapeBy {c : Char} (hc : c = '\r' ∨ c = '\n') (s : Str) :
    (escapeBy table s ++ ['\x00']).head? = some c ↔ s.head? = some c := by
  cases s with
  | nil =>
    show some '\x00' = some c ↔ none = some c
    rcases hc with rfl | rfl <;> decide
  | cons d s =>
    rw [escapeBy_cons, List.head?_cons]
    rcases lookup_cases table d with ⟨entry, hentry, hname, hfound⟩ | ⟨hnone, -⟩
    · obtain ⟨name, hshape, -⟩ := findEntity_reference (htable entry hentry) []
      have hd : d ≠ c := by
        rintro rfl
        rw [lookup_lineEnd htable hc] at hfound
        cases hfound
      rw [hfound, Option.getD_some, hshape]
      refine iff_of_false ?_ fun h => hd (Option.some.inj h)
      intro h
      rcases hc with rfl | rfl <;> exact absurd (Option.some.inj h) (by decide)
    · rw [hnone]
      rfl

theorem escapeBy_lineEnd {c : Char} (hc : c = '\r' ∨ c = '\n') (s : Str) :
    escapeBy table (c :: s) = c :: escapeBy table s := by
  rw [escapeBy_cons, lookup_lineEnd htable hc]
  rfl

/-- **The loop**, by the length of what is left of the text: a line end may take two characters.
The text is escaped by some references of the table, and a `&` is one of those that are. -/
theorem iterate_getStrPass (characterRef : Str → Option (Str × ℕ)) {stop : ℕ} :
    ∀ {fuel : ℕ} (s : Str), s.length < fuel → ('&' ∉ table.map Prod.fst → '&' ∉ s) →
      ∀ (done : Str) (state : Str × ℕ × ℕ),
      Standing stop done (escapeBy table s ++ ['\x00']) state →
      iterate (getStrPass characterRef stop) fuel state = some (done ++ normalizeNewlines s) := by
  intro fuel
  induction fuel with
  | zero => exact fun s hfuel => absurd hfuel (Nat.not_lt_zero _)
  | succ fuel ih =>
    rintro s hfuel hamp done ⟨mem, p, q⟩ h
    -- A pass that writes `x` and leaves the escaped text of `s'`.
    have hstep : ∀ (x : Char) (s' : Str), s'.length < s.length → s' ⊆ s → (∃ state',
        getStrPass characterRef stop (mem, p, q) = some (.again state') ∧
        Standing stop (done ++ [x]) (escapeBy table s' ++ ['\x00']) state') →
        iterate (getStrPass characterRef stop) (fuel + 1) (mem, p, q)
          = some (done ++ x :: normalizeNewlines s') := by
      rintro x s' hless hsub ⟨state', hpass, hstanding⟩
      have hamp' : '&' ∉ table.map Prod.fst → '&' ∉ s' := fun hnot hmem => hamp hnot (hsub hmem)
      rw [iterate_again hpass, ih s' (by omega) hamp' _ _ hstanding, List.append_assoc]
      rfl
    cases s with
    | nil =>
      have hstop : ¬ p < stop := fun hlt => h.lt_iff.mp hlt rfl
      have hpass : getStrPass characterRef stop (mem, p, q) = some (.leave done) := by
        simp only [getStrPass, if_neg hstop, h.take]
      rw [iterate_leave hpass, normalizeNewlines, List.append_nil]
    | cons c s =>
      have hless : s.length < (c :: s).length := Nat.lt_succ_self _
      have hsub : s ⊆ c :: s := List.subset_cons_self c s
      rcases lookup_cases table c with ⟨entry, hentry, rfl, hfound⟩ | ⟨hnone, hnot⟩
      · obtain ⟨name, hshape, -⟩ := findEntity_reference (htable entry hentry) []
        have hescape : escapeBy table (entry.1 :: s)
            = entry.2 ++ escapeBy table s := by
          rw [escapeBy_cons, hfound, Option.getD_some]
        have hline : ¬ (entry.1 = '\r' ∨ entry.1 = '\n') := by
          intro hc
          rw [lookup_lineEnd htable hc] at hfound
          cases hfound
        have hp : p < stop := h.lt_iff.mpr (by
          rw [hescape, hshape]
          exact List.cons_ne_nil _ _)
        rw [hescape, List.append_assoc] at h
        rw [normalizeNewlines_one fun hc => absurd hc hline, if_neg fun hc => hline (.inl hc)]
        exact hstep _ s hless hsub (getStrPass_reference (htable entry hentry) h hp)
      · have hescape : escapeBy table (c :: s) = c :: escapeBy table s := by
          rw [escapeBy_cons, hnone]
          rfl
        have hp : p < stop := h.lt_iff.mpr (by
          rw [hescape]
          exact List.cons_ne_nil _ _)
        rw [hescape, List.cons_append] at h
        by_cases hc : c = '\r' ∨ c = '\n'
        · have hother : otherHalf c = '\r' ∨ otherHalf c = '\n' := by
            rcases hc with rfl | rfl
            · exact .inr rfl
            · exact .inl rfl
          have hend : (if c = '\r' then '\n' else c) = '\n' := by
            rcases hc with rfl | rfl <;> rfl
          by_cases hpair : s.head? = some (otherHalf c)
          · obtain ⟨s, rfl⟩ := List.head?_eq_some_iff.mp hpair
            rw [escapeBy_lineEnd htable hother, List.cons_append] at h
            rw [normalizeNewlines_pair hc]
            exact hstep _ s (Nat.lt_trans (Nat.lt_succ_self _) hless)
              (List.Subset.trans (List.subset_cons_self _ s) hsub) (getStrPass_pair hc h hp)
          · rw [normalizeNewlines_one fun _ => hpair, hend]
            exact hstep _ s hless hsub
              (getStrPass_half hc (mt (head_escapeBy htable hother s).mp hpair) h hp)
        · have hletter : c ≠ '\r' ∧ c ≠ '\n' ∧ c ≠ '&' := by
            refine ⟨fun heq => hc (.inl heq), fun heq => hc (.inr heq), ?_⟩
            rintro rfl
            exact hamp hnot List.mem_cons_self
          rw [normalizeNewlines_one fun h => absurd h hc, if_neg hletter.1]
          exact hstep _ s hless hsub (getStrPass_letter hletter h hp)

end

theorem standing_start (value : Str) :
    Standing value.length [] (value ++ ['\x00']) (value ++ ['\x00'], 0, 0) :=
  ⟨List.length_append, [], rfl, rfl, rfl⟩

/-- A text without references says what it is. -/
theorem getStr_plain (characterRef : Str → Option (Str × ℕ)) {fuel : ℕ} {s : Str}
    (hamp : '&' ∉ s) (hfuel : s.length < fuel) :
    getStr characterRef fuel s = some (normalizeNewlines s) := by
  have hplain : escapeBy [] s = s := escapeBy_of_notMem fun _ h => absurd h List.not_mem_nil
  have hempty : ∀ entry ∈ ([] : List (Char × Str)), entry ∈ references :=
    fun _ h => absurd h List.not_mem_nil
  refine iterate_getStrPass hempty characterRef s hfuel (fun _ => hamp) [] _ ?_
  rw [hplain]
  exact standing_start s

end Amigos.TinyXml2
