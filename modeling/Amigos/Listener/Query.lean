import Amigos.Lib.Decimal
import Amigos.Lib.Loop
import Amigos.Lib.Outcome
import Mathlib.Data.List.TakeWhile

/-!
# The request of a client (`ParseQuery` and `Search` of `listener/main.cpp`)

A request is a text in quotes, two numbers and a letter, each behind spaces. The text ends at the
last quote of all, so it may have any bytes in it, quotes too, and what was asked for is read
exactly (`parseQuery_request`).

No loop looks at the length of the string. A loop over spaces stops at the NUL behind the string
at the latest, but a loop over a number stops at a space only. `parseQuery_defined_iff` says which
requests the function comes to an end on: those with two fields behind the quotes that a space
follows.

Positions are natural numbers: a request has at most the 1024 bytes that are received at once. The
numbers of the documents are `int`s, and wrap where the language says nothing.
-/

set_option autoImplicit false

namespace Amigos.Listener

open Amigos.Lib

/-! ## The source -/

/-- `query[i]`. The NUL behind the string may be read, and nothing behind that. -/
def charAt (query : Bytes) (i : ℕ) : Option UInt8 :=
  if i ≤ query.length then some (query.getD i 0) else none

/-- `while (query[i] == ' ')`. -/
def spacesPass (query : Bytes) (i : ℕ) : Option (Pass ℕ ℕ) :=
  (charAt query i).map fun ch => if ch = 32 then .again (i + 1) else .leave i

/-- A digit more; a `char` has a sign. -/
def addDigit (number : Int32) (ch : UInt8) : Int32 := 10 * number + ch.toInt8.toInt32 - 48

/-- `while (query[i] != ' ')`, over the number and the position. -/
def numberPass (query : Bytes) : Int32 × ℕ → Option (Pass (Int32 × ℕ) (Int32 × ℕ))
  | (number, i) => (charAt query i).map fun ch =>
    if ch = 32 then .leave (number, i) else .again (addDigit number ch, i + 1)

/-- The first quote, or 0. -/
def firstQuote (query : Bytes) : ℕ := (query.findIdx? fun ch => ch == 34).getD 0

/-- The last quote, or 0. -/
def lastQuote (query : Bytes) : ℕ :=
  (query.reverse.findIdx? fun ch => ch == 34).elim 0 fun k => query.length - 1 - k

/-- What the standard library throws. -/
inductive StdException where
  | outOfRange
  deriving DecidableEq, Repr

/-- `query.substr(start+1, end-start-1)`. A negative count is more than any string has. -/
def between (query : Bytes) (start stop : ℕ) : Outcome StdException Bytes :=
  if start + 1 > query.length then .exception .outOfRange
  else if stop < start + 1 then .ok (query.drop (start + 1))
  else .ok ((query.drop (start + 1)).take (stop - start - 1))

structure ParsedQuery where
  toSearch : Bytes
  startDoc : Int32
  endDoc : Int32
  findOnlyInSubs : Bool
  deriving DecidableEq, Repr

/-- `ParseQuery`. A read behind the string, and a loop that does not end, is undefined. -/
def parseQuery (fuel : ℕ) (query : Bytes) : Outcome StdException ParsedQuery := do
  let start := firstQuote query
  let stop := lastQuote query
  let toSearch ← between query start stop
  let i ← .ofOption (iterate (spacesPass query) fuel (stop + 1))
  let (startDoc, i) ← .ofOption (iterate (numberPass query) fuel (0, i))
  let i ← .ofOption (iterate (spacesPass query) fuel i)
  let (endDoc, i) ← .ofOption (iterate (numberPass query) fuel (0, i))
  let i ← .ofOption (iterate (spacesPass query) fuel i)
  let ch ← .ofOption (charAt query i)
  return { toSearch, startDoc, endDoc, findOnlyInSubs := ch == 116 }

/-- The string that `Search` builds of what was received. -/
def queryOf (buff : Bytes) : Bytes := (buff.filter fun ch => ch != 0) ++ [0]

/-! ## Where a loop stops -/

def blank (ch : UInt8) : Bool := ch == 32

def printed (ch : UInt8) : Bool := ch != 32

/-- At position `i` of the string `rest` is left. -/
structure Standing (query : Bytes) (i : ℕ) (rest : Bytes) : Prop where
  le : i ≤ query.length
  left : query.drop i = rest

theorem Standing.next {query rest : Bytes} {i : ℕ} {b : UInt8} (h : Standing query i (b :: rest)) :
    charAt query i = some b ∧ Standing query (i + 1) rest := by
  have hget : query[i]? = some b := by rw [← List.head?_drop, h.left, List.head?_cons]
  obtain ⟨hlt, -⟩ := List.getElem?_eq_some_iff.mp hget
  constructor
  · unfold charAt
    rw [if_pos h.le, List.getD_eq_getElem?_getD, hget, Option.getD_some]
  · refine ⟨hlt, ?_⟩
    rw [← List.drop_drop, h.left]
    rfl

theorem Standing.end {query : Bytes} {i : ℕ} (h : Standing query i []) :
    charAt query i = some 0 ∧ charAt query (i + 1) = none := by
  have hlength := List.drop_eq_nil_iff.mp h.left
  have hi : i = query.length := Nat.le_antisymm h.le hlength
  constructor
  · unfold charAt
    rw [if_pos h.le, List.getD_eq_getElem?_getD, List.getElem?_eq_none hlength, Option.getD_none]
  · unfold charAt
    rw [if_neg (by omega)]

/-- A loop over spaces stops, at the end of the string at the latest. -/
theorem iterate_spacesPass {query : Bytes} (rest : Bytes) : ∀ {i fuel : ℕ},
    Standing query i rest → rest.length < fuel →
      ∃ j, iterate (spacesPass query) fuel i = some j ∧
        Standing query j (rest.dropWhile blank) := by
  induction rest with
  | nil =>
    intro i fuel h hfuel
    have hpass : spacesPass query i = some (.leave i) := by
      unfold spacesPass
      rw [h.end.1]
      rfl
    exact ⟨i, iterate_leave_of_lt hfuel hpass, h⟩
  | cons b rest ih =>
    intro i fuel h hfuel
    obtain ⟨hchar, hnext⟩ := h.next
    by_cases hb : b = 32
    · have hpass : spacesPass query i = some (.again (i + 1)) := by
        unfold spacesPass
        rw [hchar, Option.map_some, if_pos hb]
      obtain ⟨fuel', hle, hrun⟩ := iterate_again_of_lt hfuel hpass
      rw [hrun, List.dropWhile_cons_of_pos (p := blank) (beq_iff_eq.mpr hb)]
      exact ih hnext hle
    · have hpass : spacesPass query i = some (.leave i) := by
        unfold spacesPass
        rw [hchar, Option.map_some, if_neg hb]
      rw [List.dropWhile_cons_of_neg (p := blank) (mt beq_iff_eq.mp hb)]
      exact ⟨i, iterate_leave_of_lt hfuel hpass, h⟩

/-- A loop over a number stops at a space, if there is one. -/
theorem iterate_numberPass {query : Bytes} (rest : Bytes) : ∀ {i fuel : ℕ} (number : Int32),
    Standing query i rest → rest.length < fuel → 32 ∈ rest →
      ∃ j, iterate (numberPass query) fuel (number, i)
          = some ((rest.takeWhile printed).foldl addDigit number, j) ∧
        Standing query j (rest.dropWhile printed) := by
  induction rest with
  | nil => exact fun _ _ _ hspace => absurd hspace List.not_mem_nil
  | cons b rest ih =>
    intro i fuel number h hfuel hspace
    obtain ⟨hchar, hnext⟩ := h.next
    by_cases hb : b = 32
    · have hpass : numberPass query (number, i) = some (.leave (number, i)) := by
        simp only [numberPass, hchar, Option.map_some, if_pos hb]
      have hnot : ¬ printed b = true := fun hprinted => bne_iff_ne.mp hprinted hb
      rw [List.dropWhile_cons_of_neg hnot, List.takeWhile_cons_of_neg hnot]
      exact ⟨i, iterate_leave_of_lt hfuel hpass, h⟩
    · have hpass : numberPass query (number, i) = some (.again (addDigit number b, i + 1)) := by
        simp only [numberPass, hchar, Option.map_some, if_neg hb]
      obtain ⟨fuel', hle, hrun⟩ := iterate_again_of_lt hfuel hpass
      have hmem : 32 ∈ rest := (List.mem_cons.mp hspace).resolve_left (Ne.symm hb)
      have hprinted : printed b = true := bne_iff_ne.mpr hb
      rw [hrun, List.dropWhile_cons_of_pos hprinted, List.takeWhile_cons_of_pos hprinted,
        List.foldl_cons]
      exact ih _ hnext hle hmem

/-- Without a space it leaves the string, whatever the fuel is. -/
theorem iterate_numberPass_none {query : Bytes} (rest : Bytes) : ∀ {i : ℕ} (fuel : ℕ)
    (number : Int32), Standing query i rest → 32 ∉ rest →
      iterate (numberPass query) fuel (number, i) = none := by
  induction rest with
  | nil =>
    intro i fuel number h _
    obtain ⟨hnul, hbeyond⟩ := h.end
    have hpass : numberPass query (number, i) = some (.again (addDigit number 0, i + 1)) := by
      simp only [numberPass, hnul, Option.map_some]
      rfl
    have hout : numberPass query (addDigit number 0, i + 1) = none := by
      simp only [numberPass, hbeyond, Option.map_none]
    rcases fuel with _ | _ | fuel
    · rfl
    · rw [iterate_again hpass]
      rfl
    · rw [iterate_again hpass, iterate, hout]
  | cons b rest ih =>
    intro i fuel number h hspace
    obtain ⟨hb, hrest⟩ := not_or.mp (mt List.mem_cons.mpr hspace)
    obtain ⟨hchar, hnext⟩ := h.next
    have hpass : numberPass query (number, i) = some (.again (addDigit number b, i + 1)) := by
      simp only [numberPass, hchar, Option.map_some, if_neg (Ne.symm hb)]
    cases fuel with
    | zero => rfl
    | succ fuel =>
      rw [iterate_again hpass]
      exact ih fuel _ hnext hrest

/-! ## Fields -/

/-- What stands behind the spaces and the field in front. -/
def skipField (rest : Bytes) : Bytes := (rest.dropWhile blank).dropWhile printed

/-- The number that the field in front is read as. -/
def fieldNumber (rest : Bytes) : Int32 :=
  ((rest.dropWhile blank).takeWhile printed).foldl addDigit 0

theorem space_mem_iff (rest : Bytes) : 32 ∈ rest.dropWhile blank ↔ skipField rest ≠ [] := by
  unfold skipField
  rw [Ne, List.dropWhile_eq_nil_iff]
  constructor
  · intro hmem hall
    exact absurd (hall 32 hmem) (by decide)
  · intro hnot
    push Not at hnot
    obtain ⟨ch, hmem, hch⟩ := hnot
    have hspace : ch = 32 := by
      by_contra hne
      exact hch (bne_iff_ne.mpr hne)
    rwa [← hspace]

theorem length_skipField_le (rest : Bytes) : (skipField rest).length ≤ rest.length :=
  Nat.le_trans (List.length_dropWhile_le _ _) (List.length_dropWhile_le _ _)

/-- **A field that a space follows is read**, and the next one begins at that space. -/
theorem iterate_field {query rest : Bytes} {i fuel : ℕ} (h : Standing query i rest)
    (hfuel : rest.length < fuel) (hfield : skipField rest ≠ []) :
    ∃ j k, iterate (spacesPass query) fuel i = some j ∧
      iterate (numberPass query) fuel (0, j) = some (fieldNumber rest, k) ∧
      Standing query k (skipField rest) := by
  obtain ⟨j, hspaces, hj⟩ := iterate_spacesPass rest h hfuel
  have hlength : (rest.dropWhile blank).length < fuel :=
    Nat.lt_of_le_of_lt (List.length_dropWhile_le _ _) hfuel
  obtain ⟨k, hnumber, hk⟩ :=
    iterate_numberPass _ 0 hj hlength ((space_mem_iff rest).mpr hfield)
  exact ⟨j, k, hspaces, hnumber, hk⟩

/-- **Any other field takes the loop out of the string**: where both loops came to an end, with
whatever fuel, a space follows the field. -/
theorem iterate_field_inv {query rest : Bytes} {i j k fuel : ℕ} {number : Int32}
    (h : Standing query i rest) (hspaces : iterate (spacesPass query) fuel i = some j)
    (hnumber : iterate (numberPass query) fuel (0, j) = some (number, k)) :
    skipField rest ≠ [] ∧ Standing query k (skipField rest) := by
  -- More fuel, and enough of it, leads to the same positions.
  have hle : fuel ≤ fuel + (rest.length + 1) := Nat.le_add_right _ _
  have hlt : rest.length < fuel + (rest.length + 1) := by omega
  have hspaces := iterate_mono (fun _ _ hpass => hpass) hle hspaces
  have hnumber := iterate_mono (fun _ _ hpass => hpass) hle hnumber
  have hfield : skipField rest ≠ [] := by
    intro hnil
    obtain ⟨j', hsame, hj'⟩ := iterate_spacesPass rest h hlt
    rw [hspaces, Option.some.injEq] at hsame
    subst hsame
    rw [iterate_numberPass_none _ _ 0 hj' fun hmem => (space_mem_iff rest).mp hmem hnil] at hnumber
    cases hnumber
  obtain ⟨j', k', hsame, hsame', hk'⟩ := iterate_field h hlt hfield
  rw [hspaces, Option.some.injEq] at hsame
  subst hsame
  rw [hnumber, Option.some.injEq, Prod.mk.injEq] at hsame'
  exact ⟨hfield, hsame'.2 ▸ hk'⟩

/-- What stands behind the last quote, or behind the first byte if there is no quote. -/
def behindQuotes (query : Bytes) : Bytes := query.drop (lastQuote query + 1)

theorem lastQuote_lt {query : Bytes} (h : query ≠ []) : lastQuote query < query.length := by
  have hpos := List.length_pos_iff.mpr h
  unfold lastQuote
  cases query.reverse.findIdx? fun ch => ch == 34 with
  | none => exact hpos
  | some k => exact Nat.lt_of_le_of_lt (Nat.sub_le _ _) (Nat.sub_one_lt (Nat.ne_of_gt hpos))

theorem firstQuote_lt {query : Bytes} (h : query ≠ []) : firstQuote query < query.length := by
  unfold firstQuote
  cases hfind : query.findIdx? fun ch => ch == 34 with
  | none => exact List.length_pos_iff.mpr h
  | some k =>
    obtain ⟨hlt, -⟩ := List.findIdx?_eq_some_iff_getElem.mp hfind
    exact hlt

theorem standing_behindQuotes {query : Bytes} (h : query ≠ []) :
    Standing query (lastQuote query + 1) (behindQuotes query) :=
  ⟨lastQuote_lt h, rfl⟩

theorem between_eq_ok {query : Bytes} {start : ℕ} (h : start < query.length) (stop : ℕ) :
    between query start stop = .ok (if stop < start + 1 then query.drop (start + 1)
      else (query.drop (start + 1)).take (stop - start - 1)) := by
  unfold between
  rw [if_neg (Nat.not_lt.mpr h)]
  split <;> rfl

theorem Standing.charAt {query rest : Bytes} {i : ℕ} (h : Standing query i rest) :
    charAt query i = some (rest.headD 0) := by
  cases rest with
  | nil => exact h.end.1
  | cons b rest => exact h.next.1

/-- **With two fields behind the quotes everything is read.** -/
theorem parseQuery_fields {query : Bytes} (hne : query ≠ []) {fuel : ℕ}
    (hfuel : query.length < fuel) (hfields : skipField (skipField (behindQuotes query)) ≠ []) :
    parseQuery fuel query = .ok
      { toSearch := if lastQuote query < firstQuote query + 1 then query.drop (firstQuote query + 1)
          else (query.drop (firstQuote query + 1)).take (lastQuote query - firstQuote query - 1)
        startDoc := fieldNumber (behindQuotes query)
        endDoc := fieldNumber (skipField (behindQuotes query))
        findOnlyInSubs :=
          ((skipField (skipField (behindQuotes query))).dropWhile blank).headD 0 == 116 } := by
  have hfirst : skipField (behindQuotes query) ≠ [] := by
    intro hnil
    rw [hnil] at hfields
    exact hfields rfl
  have hlength : (behindQuotes query).length < fuel :=
    Nat.lt_of_le_of_lt (List.drop_sublist _ _).length_le hfuel
  have hlength₂ : (skipField (behindQuotes query)).length < fuel :=
    Nat.lt_of_le_of_lt (length_skipField_le _) hlength
  have hlength₃ : (skipField (skipField (behindQuotes query))).length < fuel :=
    Nat.lt_of_le_of_lt (length_skipField_le _) hlength₂
  obtain ⟨i₁, i₂, hspaces₁, hnumber₁, hi₂⟩ :=
    iterate_field (standing_behindQuotes hne) hlength hfirst
  obtain ⟨i₃, i₄, hspaces₂, hnumber₂, hi₄⟩ := iterate_field hi₂ hlength₂ hfields
  obtain ⟨i₅, hspaces₃, hi₅⟩ := iterate_spacesPass _ hi₄ hlength₃
  unfold parseQuery
  simp only [between_eq_ok (firstQuote_lt hne), hspaces₁, hnumber₁, hspaces₂, hnumber₂, hspaces₃,
    hi₅.charAt, Outcome.ofOption_some, Outcome.ok_bind, Outcome.pure_eq]

/-- **Without, the string is left.** -/
theorem parseQuery_undefined {query : Bytes} (hne : query ≠ []) (fuel : ℕ)
    (hfields : skipField (skipField (behindQuotes query)) = []) :
    parseQuery fuel query = .undefined := by
  unfold parseQuery
  simp only [between_eq_ok (firstQuote_lt hne), Outcome.ok_bind]
  cases hspaces₁ : iterate (spacesPass query) fuel (lastQuote query + 1) with
  | none => rfl
  | some i₁ =>
  rw [Outcome.ofOption_some, Outcome.ok_bind]
  cases hnumber₁ : iterate (numberPass query) fuel (0, i₁) with
  | none => rfl
  | some read₁ =>
  obtain ⟨startDoc, i₂⟩ := read₁
  obtain ⟨-, hi₂⟩ := iterate_field_inv (standing_behindQuotes hne) hspaces₁ hnumber₁
  simp only [Outcome.ofOption_some, Outcome.ok_bind]
  cases hspaces₂ : iterate (spacesPass query) fuel i₂ with
  | none => rfl
  | some i₃ =>
  rw [Outcome.ofOption_some, Outcome.ok_bind]
  cases hnumber₂ : iterate (numberPass query) fuel (0, i₃) with
  | none => rfl
  | some read₂ =>
  obtain ⟨endDoc, i₄⟩ := read₂
  obtain ⟨hsecond, -⟩ := iterate_field_inv hi₂ hspaces₂ hnumber₂
  exact absurd hfields hsecond

theorem queryOf_ne_nil (buff : Bytes) : queryOf buff ≠ [] :=
  List.append_ne_nil_of_right_ne_nil _ (List.cons_ne_nil _ _)

/-- **Which requests are read at all.** `ParseQuery` comes to an end inside the string that `Search`
builds exactly if behind the quotes two fields stand with a space behind each. -/
theorem parseQuery_defined_iff (buff : Bytes) :
    (∃ fuel, parseQuery fuel (queryOf buff) ≠ .undefined) ↔
      skipField (skipField (behindQuotes (queryOf buff))) ≠ [] := by
  constructor
  · rintro ⟨fuel, hdefined⟩ hfields
    exact hdefined (parseQuery_undefined (queryOf_ne_nil buff) fuel hfields)
  · intro hfields
    refine ⟨(queryOf buff).length + 1, ?_⟩
    rw [parseQuery_fields (queryOf_ne_nil buff) (Nat.lt_succ_self _) hfields]
    intro h
    cases h

/-- The request `a`: there is no space at which the first number would end. -/
theorem not_parseQuery_defined_a : ¬ ∃ fuel, parseQuery fuel (queryOf [97]) ≠ .undefined := by
  rintro ⟨fuel, hdefined⟩
  exact hdefined (parseQuery_undefined (by decide) fuel (by decide))

/-! ## A request that is well formed -/

/-- A text in quotes, two numbers, and a letter, with spaces in front of each. What stands behind
the letter is not looked at, as long as it has no quote in it. -/
structure Request where
  toSearch : Bytes
  startDoc : ℕ
  endDoc : ℕ
  letter : UInt8
  spaces : ℕ
  spaces₂ : ℕ
  spaces₃ : ℕ
  tail : Bytes
  startDoc_lt : startDoc < 2 * 10 ^ 9
  endDoc_lt : endDoc < 2 * 10 ^ 9
  letter_ne : letter ≠ 32 ∧ letter ≠ 34
  no_quote : 34 ∉ tail

/-- The request behind the quotes. The spaces are one more than the field says. -/
def Request.fields (r : Request) : Bytes :=
  List.replicate (r.spaces + 1) 32 ++ (decimal r.startDoc ++ (List.replicate (r.spaces₂ + 1) 32 ++
    (decimal r.endDoc ++ (List.replicate (r.spaces₃ + 1) 32 ++ (r.letter :: r.tail)))))

def Request.bytes (r : Request) : Bytes := 34 :: (r.toSearch ++ 34 :: r.fields)

/-- A digit counts as what it stands for. -/
theorem addDigit_digitByte (n : ℕ) {d : ℕ} (h : d < 10) :
    addDigit (Int32.ofNat n) (digitByte d) = Int32.ofNat (10 * n + d) := by
  have hdigit : (digitByte d).toInt8.toInt32 = Int32.ofNat d + 48 := by
    revert d
    decide
  unfold addDigit
  rw [hdigit, Int32.ofNat_add, Int32.ofNat_mul]
  show 10 * Int32.ofNat n + (Int32.ofNat d + 48) - 48 = 10 * Int32.ofNat n + Int32.ofNat d
  rw [← Int32.add_assoc, Int32.add_sub_cancel]

/-- **The digits of a number are read as it.** -/
theorem foldl_addDigit (n : ℕ) : (decimal n).foldl addDigit 0 = Int32.ofNat n := by
  induction n using decimal_induction with
  | digit n h =>
    rw [decimal_of_lt h, List.foldl_cons, List.foldl_nil]
    exact (addDigit_digitByte 0 h).trans (congrArg Int32.ofNat (Nat.zero_add n))
  | more n h ih =>
    rw [decimal_of_le h, List.foldl_append, ih, List.foldl_cons, List.foldl_nil,
      addDigit_digitByte _ (Nat.mod_lt n (by decide)), Nat.div_add_mod]

theorem printed_of_mem_decimal {n : ℕ} {ch : UInt8} (h : ch ∈ decimal n) : printed ch = true := by
  have hdigit := (digit_of_mem_decimal h).1
  apply bne_iff_ne.mpr
  rintro rfl
  exact absurd hdigit (by decide)

/-- Spaces in front are passed over. -/
theorem dropWhile_spaces (k : ℕ) {ch : UInt8} (hch : ch ≠ 32) (rest : Bytes) :
    (List.replicate k 32 ++ ch :: rest).dropWhile blank = ch :: rest := by
  have hall : ∀ b ∈ List.replicate k (32 : UInt8), blank b = true := by
    intro b hb
    rw [List.eq_of_mem_replicate hb]
    rfl
  rw [List.dropWhile_append_of_pos hall,
    List.dropWhile_cons_of_neg (p := blank) (mt beq_iff_eq.mp hch)]

/-- What is left of a field behind its spaces, if it is a number. -/
theorem dropWhile_number (k n : ℕ) (rest : Bytes) :
    (List.replicate k 32 ++ (decimal n ++ rest)).dropWhile blank = decimal n ++ rest := by
  obtain ⟨d, digits, hdigits⟩ := List.exists_cons_of_ne_nil (decimal_ne_nil n)
  have hd : d ≠ 32 := bne_iff_ne.mp (printed_of_mem_decimal (hdigits ▸ List.mem_cons_self))
  rw [hdigits, List.cons_append]
  exact dropWhile_spaces k hd _

/-- **A number between spaces is read, and what stands behind it is left.** -/
theorem field_number (k n m : ℕ) (rest : Bytes) :
    fieldNumber (List.replicate k 32 ++ (decimal n ++ (List.replicate (m + 1) 32 ++ rest)))
        = Int32.ofNat n ∧
      skipField (List.replicate k 32 ++ (decimal n ++ (List.replicate (m + 1) 32 ++ rest)))
        = List.replicate (m + 1) 32 ++ rest := by
  have hspace : ¬ printed 32 = true := by decide
  have hall : ∀ ch ∈ decimal n, printed ch = true := fun ch => printed_of_mem_decimal
  unfold fieldNumber skipField
  rw [dropWhile_number, List.takeWhile_append_of_pos hall, List.dropWhile_append_of_pos hall,
    List.replicate_succ, List.cons_append, List.takeWhile_cons_of_neg hspace,
    List.dropWhile_cons_of_neg hspace, List.append_nil, foldl_addDigit]
  exact ⟨rfl, rfl⟩

/-- There is no quote behind the quotes. -/
theorem Request.quote_notMem_fields (r : Request) : 34 ∉ r.fields := by
  have hspaces : ∀ k, (34 : UInt8) ∉ List.replicate k 32 := by
    intro k hmem
    exact absurd (List.eq_of_mem_replicate hmem) (by decide)
  have hdecimal : ∀ n, (34 : UInt8) ∉ decimal n := by
    intro n hmem
    exact absurd (digit_of_mem_decimal hmem).1 (by decide)
  unfold Request.fields
  simp only [List.mem_append, List.mem_cons, not_or]
  exact ⟨hspaces _, hdecimal _, hspaces _, hdecimal _, hspaces _, r.letter_ne.2.symm, r.no_quote⟩

/-- The last quote is the one that no other follows. -/
theorem lastQuote_append (front : Bytes) {tail : Bytes} (h : 34 ∉ tail) :
    lastQuote (front ++ 34 :: tail) = front.length := by
  have hnone : (tail.reverse.findIdx? fun ch => ch == 34) = none := by
    rw [List.findIdx?_eq_none_iff]
    intro ch hch
    apply beq_eq_false_iff_ne.mpr
    rintro rfl
    exact h (List.mem_reverse.mp hch)
  unfold lastQuote
  rw [List.reverse_append, List.reverse_cons, List.append_assoc, List.findIdx?_append, hnone,
    List.singleton_append, List.findIdx?_cons]
  simp

theorem Request.lastQuote (r : Request) : lastQuote r.bytes = r.toSearch.length + 1 := by
  have hbytes : r.bytes = (34 :: r.toSearch) ++ 34 :: r.fields := rfl
  rw [hbytes, lastQuote_append _ r.quote_notMem_fields, List.length_cons]

theorem Request.behindQuotes (r : Request) : behindQuotes r.bytes = r.fields := by
  have hbytes : r.bytes = (34 :: r.toSearch ++ [34]) ++ r.fields := by
    simp only [Request.bytes, List.cons_append, List.append_assoc, List.nil_append]
  have hlength : r.toSearch.length + 1 + 1 = (34 :: r.toSearch ++ [34]).length := by
    simp only [List.length_append, List.length_cons, List.length_nil]
  unfold Listener.behindQuotes
  rw [r.lastQuote, hlength, hbytes, List.drop_left]

/-- **A request is read back**: the text with all that is in it, both numbers, and whether the
letter is a `t`. -/
theorem parseQuery_request (r : Request) {fuel : ℕ} (hfuel : r.bytes.length < fuel) :
    ∃ query, parseQuery fuel r.bytes = .ok query ∧ query.toSearch = r.toSearch ∧
      query.startDoc.toInt = r.startDoc ∧ query.endDoc.toInt = r.endDoc ∧
      (query.findOnlyInSubs = true ↔ r.letter = 116) := by
  obtain ⟨hstart, hskip⟩ := field_number (r.spaces + 1) r.startDoc r.spaces₂
    (decimal r.endDoc ++ (List.replicate (r.spaces₃ + 1) 32 ++ (r.letter :: r.tail)))
  obtain ⟨hend, hskip₂⟩ := field_number (r.spaces₂ + 1) r.endDoc r.spaces₃ (r.letter :: r.tail)
  have hfirst : firstQuote r.bytes = 0 := rfl
  have hfields : skipField (skipField (behindQuotes r.bytes))
      = List.replicate (r.spaces₃ + 1) 32 ++ (r.letter :: r.tail) := by
    rw [r.behindQuotes, Request.fields, hskip, hskip₂]
  have hne : skipField (skipField (behindQuotes r.bytes)) ≠ [] := by
    rw [hfields]
    exact List.append_ne_nil_of_right_ne_nil _ (List.cons_ne_nil _ _)
  have hbytes : r.bytes ≠ [] := List.cons_ne_nil _ _
  refine ⟨_, parseQuery_fields hbytes hfuel hne, ?_, ?_, ?_, ?_⟩
  · simp only [hfirst, r.lastQuote]
    rw [if_neg (by omega), Request.bytes, Nat.zero_add, List.drop_one, List.tail_cons,
      Nat.sub_zero, Nat.add_sub_cancel, List.take_left]
  · simp only [r.behindQuotes, Request.fields, hstart]
    exact Int32.toInt_ofNat_of_lt (Nat.lt_trans r.startDoc_lt (by decide))
  · simp only [r.behindQuotes, Request.fields, hskip, hend]
    exact Int32.toInt_ofNat_of_lt (Nat.lt_trans r.endDoc_lt (by decide))
  · simp only [hfields, dropWhile_spaces _ r.letter_ne.1, List.headD_cons, beq_iff_eq]

/-- A request for `a" 1 t"`. -/
def quotesRequest : Request where
  toSearch := [97, 34, 32, 49, 32, 116, 34]
  startDoc := 10
  endDoc := 5
  letter := 102
  spaces := 0
  spaces₂ := 1
  spaces₃ := 0
  tail := [0]
  startDoc_lt := by decide
  endDoc_lt := by decide
  letter_ne := by decide
  no_quote := by decide

/-- It is read, although what stands in the text looks like the rest of a request. -/
theorem parseQuery_request_quotes :
    ∃ query, parseQuery 100 quotesRequest.bytes = .ok query ∧
      query.toSearch = [97, 34, 32, 49, 32, 116, 34] ∧ query.startDoc.toInt = (10 : ℕ) ∧
      query.endDoc.toInt = (5 : ℕ) ∧ (query.findOnlyInSubs = true ↔ (102 : UInt8) = 116) :=
  parseQuery_request quotesRequest (by decide +kernel)

end Amigos.Listener
