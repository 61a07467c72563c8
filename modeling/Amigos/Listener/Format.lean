import Amigos.Lib.Bytes
import Amigos.Lib.Delimited
import Amigos.Lib.Escape
import Amigos.Lib.Loop

/-!
# Texts in an answer (`Format` of `listener/main.cpp`)

A text is written into the XML of an answer with five characters replaced by entities, one
character after the other, each by a loop that searches the whole text again. The loop goes on
behind the first letter of what it has put. An entity begins with the ampersand, and this one is
replaced first: no later pass meets a character that an earlier one has put, so the five passes
are one escaping of the text (`format_eq`), and it can be undone.
-/

set_option autoImplicit false

namespace Amigos.Listener

open Amigos.Lib

/-! ## The source -/

/-- The bytes of an ASCII literal. -/
def ascii (s : String) : Bytes := s.toList.map fun ch => UInt8.ofNat ch.toNat

/-- The loop of `ReplaceSubstring`, over the text and the index. -/
def replacePass (replaceStr newStr : Bytes) : Bytes × ℕ → Option (Pass (Bytes × ℕ) Bytes)
  | (str, index) =>
    match findFrom str replaceStr index with
    | none => some (.leave str)
    | some index =>
      some (.again (str.take index ++ newStr ++ str.drop (index + replaceStr.length),
        index + replaceStr.length))

def replaceSubstring (fuel : ℕ) (str replaceStr newStr : Bytes) : Option Bytes :=
  iterate (replacePass replaceStr newStr) fuel (str, 0)

/-- `symbols` and `symbolCode`. -/
def symbolCodes : List (Bytes × Bytes) :=
  [(ascii "&", ascii "&amp;"), (ascii "<", ascii "&lt;"), (ascii ">", ascii "&gt;"),
    (ascii "\"", ascii "&quot;"), (ascii "'", ascii "&apos;")]

def format (fuel : ℕ) (str : Bytes) : Option Bytes :=
  symbolCodes.foldlM (fun str symbol => replaceSubstring fuel str symbol.1 symbol.2) str

/-! ## What it comes to -/

/-- The entity of each of the five characters. -/
def entities : List (UInt8 × Bytes) :=
  [(38, ascii "&amp;"), (60, ascii "&lt;"), (62, ascii "&gt;"), (34, ascii "&quot;"),
    (39, ascii "&apos;")]

theorem symbolCodes_eq : symbolCodes = entities.map fun entity => ([entity.1], entity.2) := by
  decide +kernel

/-- What the search behind `pre` finds: nothing, or the first of the characters that are left. -/
theorem findFrom_one (pre rest : Bytes) (x : UInt8) :
    (x ∉ rest ∧ findFrom (pre ++ rest) [x] pre.length = none) ∨
    ∃ kept tail, rest = kept ++ x :: tail ∧ x ∉ kept ∧
      findFrom (pre ++ rest) [x] pre.length = some (pre.length + kept.length) := by
  have hat : ∀ i, [x] <+: (pre ++ rest).drop (pre.length + i) ↔ rest[i]? = some x := by
    intro i
    rw [singleton_prefix_drop_iff, List.getElem?_append_right (Nat.le_add_right _ _),
      Nat.add_sub_cancel_left]
  rcases findFrom_cases (pre ++ rest) (List.cons_ne_nil x []) pre.length with
    ⟨hnone, hnot⟩ | ⟨p, hsome, hle, -, hfound, hfirst⟩
  · refine .inl ⟨?_, hnone⟩
    intro hmem
    obtain ⟨i, hi⟩ := List.mem_iff_getElem?.mp hmem
    exact hnot _ (Nat.le_add_right _ i) ((hat i).mpr hi)
  · obtain ⟨i, rfl⟩ := Nat.exists_eq_add_of_le hle
    have hi := (hat i).mp hfound
    obtain ⟨hlt, hx⟩ := List.getElem?_eq_some_iff.mp hi
    refine .inr ⟨rest.take i, rest.drop (i + 1), ?_, ?_, ?_⟩
    · rw [← hx, ← List.drop_eq_getElem_cons hlt, List.take_append_drop]
    · intro hmem
      obtain ⟨j, hj⟩ := List.mem_iff_getElem?.mp hmem
      have hji : j < i := by
        obtain ⟨hlength, -⟩ := List.getElem?_eq_some_iff.mp hj
        exact Nat.lt_of_lt_of_le hlength (List.length_take_le i rest)
      rw [List.getElem?_take_of_lt hji] at hj
      exact hfirst _ (Nat.le_add_right _ j) (Nat.add_lt_add_left hji _) ((hat j).mpr hj)
    · rw [hsome, List.length_take, Nat.min_eq_left (Nat.le_of_lt hlt)]

/-- **One pass of replacements**: from where it stands on, every `x` becomes the entity. Behind the
entity's first letter there is no `x`, so what is left to replace gets less. -/
theorem iterate_replacePass {x first : UInt8} {code : Bytes} (hcode : x ∉ code) :
    ∀ {fuel : ℕ} (pre rest : Bytes), rest.count x < fuel →
      iterate (replacePass [x] (first :: code)) fuel (pre ++ rest, pre.length)
        = some (pre ++ substitute x (first :: code) rest) := by
  intro fuel
  induction fuel with
  | zero => exact fun pre rest hfuel => absurd hfuel (Nat.not_lt_zero _)
  | succ fuel ih =>
    intro pre rest hfuel
    rcases findFrom_one pre rest x with ⟨hnot, hnone⟩ | ⟨kept, tail, rfl, hkept, hsome⟩
    · have hpass : replacePass [x] (first :: code) (pre ++ rest, pre.length)
          = some (.leave (pre ++ rest)) := by
        simp only [replacePass, hnone]
      rw [iterate_leave hpass, substitute_of_notMem _ hnot]
    · have hpass : replacePass [x] (first :: code) (pre ++ (kept ++ x :: tail), pre.length)
          = some (.again ((pre ++ kept ++ [first]) ++ (code ++ tail),
            (pre ++ kept ++ [first]).length)) := by
        have hlength : pre.length + kept.length = (pre ++ kept).length :=
          List.length_append.symm
        have hdrop : (pre ++ kept ++ x :: tail).drop ((pre ++ kept).length + 1) = tail := by
          rw [← List.drop_drop, List.drop_left]
          rfl
        simp only [replacePass, hsome]
        rw [hlength, ← List.append_assoc, List.take_left, List.length_singleton, hdrop]
        simp only [List.append_assoc, List.cons_append, List.nil_append, List.length_append,
          List.length_cons, List.length_nil, Nat.add_assoc, Nat.zero_add]
      have hless : (code ++ tail).count x < fuel := by
        rw [List.count_append, List.count_cons_self, List.count_eq_zero_of_not_mem hkept] at hfuel
        rw [List.count_append, List.count_eq_zero_of_not_mem hcode]
        omega
      rw [iterate_again hpass, ih _ _ hless, substitute_append, substitute_append,
        substitute_self, substitute_of_notMem _ hkept, substitute_of_notMem _ hcode]
      simp only [List.append_assoc, List.cons_append, List.nil_append]

/-- A pass of `Format`. -/
theorem replaceSubstring_eq {x first : UInt8} {code : Bytes} (hcode : x ∉ code) {fuel : ℕ}
    {str : Bytes} (hfuel : str.count x < fuel) :
    replaceSubstring fuel str [x] (first :: code) = some (substitute x (first :: code) str) :=
  iterate_replacePass hcode [] str hfuel

/-- Of another character a pass with this entity leaves as many as there were. -/
theorem count_substitute {x y : UInt8} {code : Bytes} (hne : y ≠ x) (hcode : y ∉ code)
    (str : Bytes) : (substitute x code str).count y = str.count y := by
  induction str with
  | nil => rfl
  | cons b str ih =>
    unfold substitute at ih ⊢
    rw [List.flatMap_cons, List.count_append, ih]
    by_cases hb : b = x
    · rw [if_pos hb, List.count_eq_zero_of_not_mem hcode, List.count_cons_of_ne (hb ▸ hne.symm),
        Nat.zero_add]
    · rw [if_neg hb, ← List.count_append, List.singleton_append]

/-- A table that the passes can go through: an entity has its own character at most in front, and
no character that is replaced later. -/
structure Passes (table : List (UInt8 × Bytes)) : Prop where
  own : ∀ entity ∈ table, entity.2 ≠ [] ∧ entity.1 ∉ entity.2.tail
  later : table.Pairwise fun earlier later => later.1 ≠ earlier.1 ∧ later.1 ∉ earlier.2

/-- **All passes**, if the fuel is above the number of characters to replace. -/
theorem foldlM_replaceSubstring {table : List (UInt8 × Bytes)} (h : Passes table) {fuel : ℕ}
    (str : Bytes) (hfuel : ∀ entity ∈ table, str.count entity.1 < fuel) :
    (table.map fun entity => ([entity.1], entity.2)).foldlM
        (fun str symbol => replaceSubstring fuel str symbol.1 symbol.2) str
      = some (table.foldl (fun str entity => substitute entity.1 entity.2 str) str) := by
  induction table generalizing str with
  | nil => rfl
  | cons entity table ih =>
    obtain ⟨hhead, htail⟩ := List.pairwise_cons.mp h.later
    obtain ⟨hne, hcode⟩ := h.own entity List.mem_cons_self
    obtain ⟨first, code, hentity⟩ := List.exists_cons_of_ne_nil hne
    rw [hentity, List.tail_cons] at hcode
    have htable : Passes table := ⟨fun e he => h.own e (List.mem_cons_of_mem _ he), htail⟩
    have hpass : replaceSubstring fuel str [entity.1] entity.2
        = some (substitute entity.1 entity.2 str) := by
      rw [hentity]
      exact replaceSubstring_eq hcode (hfuel entity List.mem_cons_self)
    rw [List.map_cons, List.foldlM_cons, hpass, List.foldl_cons]
    apply ih htable
    intro later hlater
    rw [count_substitute (hhead later hlater).1 (hhead later hlater).2]
    exact hfuel later (List.mem_cons_of_mem _ hlater)

theorem passes_entities : Passes entities where
  own := by decide +kernel
  later := by decide +kernel

theorem readable_entities : Readable entities where
  begins := by decide +kernel
  apart := by decide +kernel

/-- **`Format` is one escaping of the text.** -/
theorem format_eq {fuel : ℕ} {str : Bytes} (hfuel : str.length < fuel) :
    format fuel str = some (escapeBy entities str) := by
  have hcount : ∀ entity ∈ entities, str.count entity.1 < fuel :=
    fun entity _ => Nat.lt_of_le_of_lt List.count_le_length hfuel
  have hlater : entities.Pairwise fun earlier later => later.1 ∉ earlier.2 :=
    passes_entities.later.imp fun h => h.2
  unfold format
  rw [symbolCodes_eq, foldlM_replaceSubstring passes_entities str hcount, foldl_substitute hlater]

/-- More fuel changes nothing about what is delivered. -/
theorem format_mono {fuel fuel' : ℕ} (hle : fuel ≤ fuel') {str res : Bytes}
    (h : format fuel str = some res) : format fuel' str = some res := by
  unfold format at h ⊢
  generalize symbolCodes = symbols at h ⊢
  induction symbols generalizing str with
  | nil => exact h
  | cons symbol symbols ih =>
    rw [List.foldlM_cons, Option.bind_eq_bind, Option.bind_eq_some_iff] at h
    obtain ⟨next, hnext, hrest⟩ := h
    have hmore : replaceSubstring fuel' str symbol.1 symbol.2 = some next :=
      iterate_mono (fun _ _ hpass => hpass) hle hnext
    rw [List.foldlM_cons, hmore]
    exact ih hrest

/-- Whatever `Format` delivers, with any fuel, is this escaping. -/
theorem eq_escapeBy_of_format {fuel : ℕ} {str res : Bytes} (h : format fuel str = some res) :
    res = escapeBy entities str := by
  have hmore := format_mono (Nat.le_add_right fuel (str.length + 1)) h
  rw [format_eq (by omega)] at hmore
  exact (Option.some.inj hmore).symm

/-- **`Format` escapes, and nothing is lost**: with enough fuel it ends, in the text with each of
the five characters replaced once; putting the characters back gives the text; and no other text
gives the same. -/
theorem format_correct (str : Bytes) {fuel : ℕ} (hfuel : str.length < fuel) :
    format fuel str = some (escapeBy entities str) ∧
      unescapeBy entities (escapeBy entities str) = str ∧
      ∀ other fuel', format fuel' other = format fuel str → other = str := by
  refine ⟨format_eq hfuel, unescapeBy_escapeBy readable_entities str, ?_⟩
  intro other fuel' h
  rw [format_eq hfuel] at h
  exact (escapeBy_injective readable_entities (eq_escapeBy_of_format h)).symm

/-- A text with an entity in it already. -/
theorem format_correct_entity :
    format 6 (ascii "<&lt;") = some (ascii "&lt;&amp;lt;") ∧
      unescapeBy entities (ascii "&lt;&amp;lt;") = ascii "<&lt;" ∧
      ∀ other fuel', format fuel' other = format 6 (ascii "<&lt;") → other = ascii "<&lt;" := by
  have hescape : escapeBy entities (ascii "<&lt;") = ascii "&lt;&amp;lt;" := by decide +kernel
  have hfuel : (ascii "<&lt;").length < 6 := by decide +kernel
  have h := format_correct (ascii "<&lt;") hfuel
  rwa [hescape] at h

end Amigos.Listener
