import Mathlib.Data.List.Basic
import Mathlib.Logic.Function.Basic

/-!
# Escaping by a table of codes

`substitute` puts a code for every occurrence of one symbol, `escapeBy` a code for every symbol of a
table at once. Passes of `substitute` do the same as `escapeBy` if no code has a symbol of a later
pass (`foldl_substitute`). The way back, `unescapeBy`, reads from left to right and puts the symbol
wherever a code begins. It finds what was escaped if every code begins with a symbol, so that
no code begins at a letter that was kept, and no code is the beginning of another.
-/

set_option autoImplicit false

namespace Amigos.Lib

universe u

variable {α : Type u} [DecidableEq α]

/-- The code for every occurrence of the symbol. -/
def substitute (symbol : α) (code s : List α) : List α :=
  s.flatMap fun a => if a = symbol then code else [a]

theorem substitute_append (symbol : α) (code s t : List α) :
    substitute symbol code (s ++ t) = substitute symbol code s ++ substitute symbol code t :=
  List.flatMap_append

theorem substitute_self (symbol : α) (code s : List α) :
    substitute symbol code (symbol :: s) = code ++ substitute symbol code s := by
  unfold substitute
  rw [List.flatMap_cons, if_pos rfl]

theorem substitute_of_notMem {symbol : α} (code : List α) {s : List α} (h : symbol ∉ s) :
    substitute symbol code s = s := by
  induction s with
  | nil => rfl
  | cons a s ih =>
    obtain ⟨hne, hs⟩ := not_or.mp (mt List.mem_cons.mpr h)
    unfold substitute at ih ⊢
    rw [List.flatMap_cons, if_neg (Ne.symm hne), ih hs, List.singleton_append]

/-- The codes for all the symbols of a table at once. -/
def escapeBy (table : List (α × List α)) (s : List α) : List α :=
  s.flatMap fun a => (table.lookup a).getD [a]

theorem escapeBy_cons (table : List (α × List α)) (a : α) (s : List α) :
    escapeBy table (a :: s) = (table.lookup a).getD [a] ++ escapeBy table s := rfl

theorem lookup_entry {table : List (α × List α)} {entry : α × List α} {a : α} (h : a = entry.1) :
    (entry :: table).lookup a = some entry.2 := by
  subst h
  exact List.lookup_cons_self

theorem lookup_skip {table : List (α × List α)} {entry : α × List α} {a : α} (h : a ≠ entry.1) :
    (entry :: table).lookup a = table.lookup a := by
  have hne : (a == entry.1) = false := beq_eq_false_iff_ne.mpr h
  rw [List.lookup_cons, hne]

/-- A letter is found in the table, under its own name, or it is no symbol. -/
theorem lookup_cases (table : List (α × List α)) (a : α) :
    (∃ entry ∈ table, entry.1 = a ∧ table.lookup a = some entry.2) ∨
      (table.lookup a = none ∧ a ∉ table.map Prod.fst) := by
  induction table with
  | nil => exact .inr ⟨rfl, List.not_mem_nil⟩
  | cons entry table ih =>
    by_cases ha : a = entry.1
    · exact .inl ⟨entry, List.mem_cons_self, ha.symm, lookup_entry ha⟩
    · rw [lookup_skip ha]
      rcases ih with ⟨found, hmem, hfound⟩ | ⟨hnone, hnot⟩
      · exact .inl ⟨found, List.mem_cons_of_mem _ hmem, hfound⟩
      · refine .inr ⟨hnone, ?_⟩
        rw [List.map_cons, List.mem_cons, not_or]
        exact ⟨ha, hnot⟩

theorem escapeBy_of_notMem {table : List (α × List α)} {s : List α}
    (h : ∀ symbol ∈ table.map Prod.fst, symbol ∉ s) : escapeBy table s = s := by
  induction s with
  | nil => rfl
  | cons a s ih =>
    have hs : escapeBy table s = s := ih fun symbol hsymbol hmem =>
      h symbol hsymbol (List.mem_cons_of_mem a hmem)
    rw [escapeBy_cons, hs]
    rcases lookup_cases table a with ⟨entry, hmem, hname, -⟩ | ⟨hnone, -⟩
    · exact absurd List.mem_cons_self (hname ▸ h entry.1 (List.mem_map_of_mem hmem))
    · rw [hnone]
      rfl

/-- **Passes over the whole text do what one pass with all codes does**, if no code has a symbol
of a later pass. -/
theorem foldl_substitute {table : List (α × List α)}
    (h : table.Pairwise fun earlier later => later.1 ∉ earlier.2) (s : List α) :
    table.foldl (fun s entry => substitute entry.1 entry.2 s) s = escapeBy table s := by
  induction table generalizing s with
  | nil =>
    unfold escapeBy
    exact (List.flatMap_singleton' s).symm
  | cons entry table ih =>
    obtain ⟨hcode, htable⟩ := List.pairwise_cons.mp h
    rw [List.foldl_cons, ih htable]
    unfold substitute escapeBy
    rw [List.flatMap_assoc]
    apply List.flatMap_congr
    intro a _
    by_cases ha : a = entry.1
    · rw [if_pos ha, lookup_entry ha]
      apply escapeBy_of_notMem
      intro symbol hsymbol
      obtain ⟨later, hlater, rfl⟩ := List.mem_map.mp hsymbol
      exact hcode later hlater
    · rw [if_neg ha, lookup_skip ha]
      exact List.append_nil _

/-! ## The way back -/

/-- Behind `skip` more letters of a code that has been read. -/
def unescapeFrom (table : List (α × List α)) : ℕ → List α → List α
  | _, [] => []
  | skip + 1, _ :: s => unescapeFrom table skip s
  | 0, a :: s =>
    match table.find? fun entry => entry.2.isPrefixOf (a :: s) with
    | some entry => entry.1 :: unescapeFrom table (entry.2.length - 1) s
    | none => a :: unescapeFrom table 0 s

/-- The symbol for every code, from left to right. -/
def unescapeBy (table : List (α × List α)) (s : List α) : List α := unescapeFrom table 0 s

/-- A table whose codes can be told apart in an escaped text. -/
structure Readable (table : List (α × List α)) : Prop where
  begins : ∀ entry ∈ table, ∃ first ∈ table.map Prod.fst, entry.2.head? = some first
  apart : ∀ entry ∈ table, ∀ other ∈ table, entry.2 <+: other.2 → entry = other

theorem unescapeFrom_length (table : List (α × List α)) (code s : List α) :
    unescapeFrom table code.length (code ++ s) = unescapeFrom table 0 s := by
  induction code with
  | nil => rfl
  | cons a code ih => exact ih

/-- At a code its symbol is read. -/
theorem unescapeBy_code {table : List (α × List α)} (h : Readable table) {entry : α × List α}
    (hentry : entry ∈ table) (s : List α) :
    unescapeBy table (entry.2 ++ s) = entry.1 :: unescapeBy table s := by
  obtain ⟨first, -, hfirst⟩ := h.begins entry hentry
  obtain ⟨rest, hcode⟩ := List.head?_eq_some_iff.mp hfirst
  have hfind : (table.find? fun other => other.2.isPrefixOf (first :: (rest ++ s)))
      = some entry := by
    cases hfound : table.find? fun other => other.2.isPrefixOf (first :: (rest ++ s)) with
    | none =>
      have hnot := List.find?_eq_none.mp hfound entry hentry
      rw [List.isPrefixOf_iff_prefix, hcode] at hnot
      exact absurd (List.prefix_append (first :: rest) s) hnot
    | some other =>
      have hother := List.mem_of_find?_eq_some hfound
      have hmatched := List.find?_some hfound
      have hbegins : other.2 <+: entry.2 ++ s := by
        rw [hcode]
        exact List.isPrefixOf_iff_prefix.mp hmatched
      -- Two codes at one place: one of them begins the other.
      rcases List.prefix_or_prefix_of_prefix hbegins (List.prefix_append entry.2 s) with hle | hge
      · rw [h.apart other hother entry hentry hle]
      · rw [h.apart entry hentry other hother hge]
  unfold unescapeBy
  rw [hcode, List.cons_append, unescapeFrom, hfind]
  simp only [hcode, List.length_cons, Nat.add_sub_cancel]
  rw [unescapeFrom_length]

/-- At any other letter the letter is kept. -/
theorem unescapeBy_letter {table : List (α × List α)} (h : Readable table) {a : α}
    (ha : a ∉ table.map Prod.fst) (s : List α) :
    unescapeBy table (a :: s) = a :: unescapeBy table s := by
  have hfind : (table.find? fun entry => entry.2.isPrefixOf (a :: s)) = none := by
    rw [List.find?_eq_none]
    intro entry hentry
    obtain ⟨first, hsymbol, hfirst⟩ := h.begins entry hentry
    obtain ⟨rest, hcode⟩ := List.head?_eq_some_iff.mp hfirst
    rw [List.isPrefixOf_iff_prefix, hcode, List.cons_prefix_cons]
    rintro ⟨heq, -⟩
    exact ha (heq ▸ hsymbol)
  unfold unescapeBy
  rw [unescapeFrom, hfind]

/-- **What was escaped is read back.** -/
theorem unescapeBy_escapeBy {table : List (α × List α)} (h : Readable table) (s : List α) :
    unescapeBy table (escapeBy table s) = s := by
  induction s with
  | nil => rfl
  | cons a s ih =>
    rw [escapeBy_cons]
    rcases lookup_cases table a with ⟨entry, hentry, hname, hfound⟩ | ⟨hnone, hnot⟩
    · rw [hfound, Option.getD_some, unescapeBy_code h hentry, ih, hname]
    · rw [hnone, Option.getD_none, List.singleton_append, unescapeBy_letter h hnot, ih]

theorem escapeBy_injective {table : List (α × List α)} (h : Readable table) :
    Function.Injective (escapeBy table) :=
  Function.LeftInverse.injective (unescapeBy_escapeBy h)

end Amigos.Lib
