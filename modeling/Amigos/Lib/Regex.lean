import Mathlib.Data.List.Basic

/-!
# Regular expressions with a preference

A backtracking matcher tries its alternatives in a fixed order and is content with the first that
leads to a match. `ways` lists them all, in that order: the first is what the matcher finds, and
what a repetition prefers is its place in the list. `pieces` goes over a text from left to right
and cuts it into matches and single characters; searching and substituting read off the pieces.

A pattern that cannot match a character works between its occurrences: `pieces_append` cuts a text
at such a character.
-/

set_option autoImplicit false

namespace Amigos.Lib

variable {α : Type}

inductive Regex (α : Type) where
  | nil
  /-- One character. -/
  | one (p : α → Bool)
  | seq (r r' : Regex α)
  /-- The first one is preferred. -/
  | alt (r r' : Regex α)
  /-- Any number of times: as often as possible, or as rarely. -/
  | star (greedy : Bool) (r : Regex α)
  /-- A group, by its number. -/
  | group (n : Nat) (r : Regex α)

/-- What the groups have matched, the last one in front. -/
abbrev Groups (α : Type) := List (Nat × List α)

/-- A group that has not taken part is empty. -/
def Groups.get (g : Groups α) (n : Nat) : List α := (g.lookup n).getD []

/-- Up to `n` rounds, each of which consumes something. -/
def starLoop (greedy : Bool) (ways : List α → List (Groups α × List α)) :
    Nat → List α → List (Groups α × List α)
  | 0, s => [([], s)]
  | n + 1, s =>
    let more := (ways s).flatMap fun w =>
      if w.2.length < s.length then
        (starLoop greedy ways n w.2).map fun w' => (w'.1 ++ w.1, w'.2)
      else []
    if greedy then more ++ [([], s)] else ([], s) :: more

namespace Regex

/-- **The ways to match a beginning of `s`**, in the order of preference, each with its groups and
what is left of `s`. -/
def ways : Regex α → List α → List (Groups α × List α)
  | .nil, s => [([], s)]
  | .one _, [] => []
  | .one p, a :: s => if p a then [([], s)] else []
  | .seq r r', s => (r.ways s).flatMap fun w => (r'.ways w.2).map fun w' => (w'.1 ++ w.1, w'.2)
  | .alt r r', s => r.ways s ++ r'.ways s
  | .star greedy r, s => starLoop greedy r.ways s.length s
  | .group n r, s =>
    (r.ways s).map fun w => ((n, s.take (s.length - w.2.length)) :: w.1, w.2)

/-! ## Abbreviations -/

def lit [DecidableEq α] (s : List α) : Regex α := s.foldr (fun a r => .seq (.one (· = a)) r) .nil

def opt (r : Regex α) : Regex α := .alt r .nil

def plus (r : Regex α) : Regex α := .seq r (.star true r)

/-- Exactly `n` times. -/
def rep (r : Regex α) : Nat → Regex α
  | 0 => .nil
  | n + 1 => .seq r (rep r n)

/-- At most `n` times, as often as possible. -/
def upTo (r : Regex α) : Nat → Regex α
  | 0 => .nil
  | n + 1 => opt (.seq r (upTo r n))

/-- `(.*?)`, where the dot is any character. -/
def lazy (n : Nat) : Regex α := .group n (.star false (.one fun _ => true))

end Regex

/-! ## Pieces -/

inductive Piece (α : Type) where
  | char (a : α)
  | hit (whole : List α) (groups : Groups α)

/-- **From left to right**: a match where there is one that consumes something, else a
character. -/
def piecesLoop (r : Regex α) : Nat → List α → List (Piece α)
  | 0, _ => []
  | _ + 1, [] => []
  | n + 1, a :: s =>
    match (r.ways (a :: s)).head? with
    | none => .char a :: piecesLoop r n s
    | some (groups, rest) =>
      if rest.length < (a :: s).length then
        .hit ((a :: s).take ((a :: s).length - rest.length)) groups :: piecesLoop r n rest
      else .char a :: piecesLoop r n s

def pieces (r : Regex α) (s : List α) : List (Piece α) := piecesLoop r s.length s

/-- All matches, one behind the other. -/
def finditer (r : Regex α) (s : List α) : List (Groups α) :=
  (pieces r s).filterMap fun
    | .char _ => none
    | .hit _ groups => some groups

/-- Every match replaced. -/
def sub (r : Regex α) (f : List α → Groups α → List α) (s : List α) : List α :=
  (pieces r s).flatMap fun
    | .char a => [a]
    | .hit whole groups => f whole groups

/-! ## Fuel -/

theorem starLoop_nil (greedy : Bool) (ways : List α → List (Groups α × List α)) (n : Nat) :
    starLoop greedy ways n [] = [([], [])] := by
  cases n with
  | zero => rfl
  | succ n =>
    have hmore : ((ways []).flatMap fun w => if w.2.length < ([] : List α).length then
        (starLoop greedy ways n w.2).map fun w' => (w'.1 ++ w.1, w'.2) else []) = [] :=
      List.flatMap_eq_nil_iff.mpr fun w _ => if_neg (Nat.not_lt_zero _)
    rw [starLoop, hmore]
    cases greedy <;> rfl

/-- As many rounds as there are characters are enough. -/
theorem starLoop_fuel {greedy : Bool} {ways : List α → List (Groups α × List α)} {n : Nat} :
    ∀ {m : Nat} {s : List α}, s.length ≤ n → s.length ≤ m →
      starLoop greedy ways n s = starLoop greedy ways m s := by
  induction n with
  | zero =>
    intro m s hn _
    rw [List.length_eq_zero_iff.mp (Nat.le_zero.mp hn), starLoop_nil, starLoop_nil]
  | succ n ih =>
    intro m s hn hm
    cases m with
    | zero => rw [List.length_eq_zero_iff.mp (Nat.le_zero.mp hm), starLoop_nil, starLoop_nil]
    | succ m =>
      have hmore : ∀ w ∈ ways s,
          (if w.2.length < s.length then
            (starLoop greedy ways n w.2).map fun w' => (w'.1 ++ w.1, w'.2) else [])
          = if w.2.length < s.length then
            (starLoop greedy ways m w.2).map fun w' => (w'.1 ++ w.1, w'.2) else [] := by
        intro w _
        split
        · rename_i hlt
          rw [ih (m := m) (by omega) (by omega)]
        · rfl
      simp only [starLoop]
      rw [List.flatMap_congr hmore]

theorem piecesLoop_fuel {r : Regex α} {n : Nat} : ∀ {m : Nat} {s : List α}, s.length ≤ n →
    s.length ≤ m → piecesLoop r n s = piecesLoop r m s := by
  induction n with
  | zero =>
    intro m s hn _
    rw [List.length_eq_zero_iff.mp (Nat.le_zero.mp hn)]
    cases m <;> rfl
  | succ n ih =>
    intro m s hn hm
    cases s with
    | nil => cases m <;> rfl
    | cons a s =>
      cases m with
      | zero => exact absurd hm (Nat.not_succ_le_zero _)
      | succ m =>
        rw [List.length_cons] at hn hm
        rw [piecesLoop, piecesLoop, ih (m := m) (s := s) (by omega) (by omega)]
        split
        · rfl
        · split
          · rename_i hlt
            rw [List.length_cons] at hlt
            rw [ih (m := m) (by omega) (by omega)]
          · rfl

/-! ## A character that a pattern cannot match -/

/-- No class of the pattern has this character. -/
def Regex.avoids (c : α) : Regex α → Bool
  | .nil => true
  | .one p => !p c
  | .seq r r' => r.avoids c && r'.avoids c
  | .alt r r' => r.avoids c && r'.avoids c
  | .star _ r => r.avoids c
  | .group _ r => r.avoids c

/-- The same ways, with something behind the text. -/
def extend (behind : List α) (ws : List (Groups α × List α)) : List (Groups α × List α) :=
  ws.map fun w => (w.1, w.2 ++ behind)

/-- What has been consumed is the same, whatever comes behind. -/
theorem take_consumed (s rest behind : List α) :
    (s ++ behind).take ((s ++ behind).length - (rest ++ behind).length)
      = s.take (s.length - rest.length) := by
  rw [List.length_append, List.length_append, Nat.add_sub_add_right,
    List.take_append_of_le_length (Nat.sub_le _ _)]

theorem starLoop_extend {greedy : Bool} {ways : List α → List (Groups α × List α)}
    {behind : List α} (hbehind : behind ≠ [])
    (hways : ∀ s, ways (s ++ behind) = extend behind (ways s)) {n : Nat} :
    ∀ {s : List α}, (s ++ behind).length ≤ n →
      starLoop greedy ways n (s ++ behind) = extend behind (starLoop greedy ways n s) := by
  have hpos := List.length_pos_iff.mpr hbehind
  induction n with
  | zero =>
    intro s hn
    rw [List.length_append] at hn
    omega
  | succ n ih =>
    intro s hn
    have hmore : ((ways (s ++ behind)).flatMap fun w => if w.2.length < (s ++ behind).length then
        (starLoop greedy ways n w.2).map fun w' => (w'.1 ++ w.1, w'.2) else [])
        = extend behind ((ways s).flatMap fun w => if w.2.length < s.length then
          (starLoop greedy ways n w.2).map fun w' => (w'.1 ++ w.1, w'.2) else []) := by
      rw [hways, extend, extend, List.flatMap_map, List.map_flatMap]
      apply List.flatMap_congr
      intro w _
      rw [List.length_append] at hn
      simp only [List.length_append, Nat.add_lt_add_iff_right]
      split
      · rename_i hlt
        rw [ih (by rw [List.length_append]; omega), extend, List.map_map, List.map_map]
        rfl
      · rfl
    rw [starLoop, starLoop, hmore]
    cases greedy with
    | true => simp only [if_true, extend, List.map_append, List.map_cons, List.map_nil]
    | false => rfl

/-- **A pattern stops at a character that it cannot match**, whatever comes behind it. -/
theorem Regex.ways_append {r : Regex α} {c : α} (h : r.avoids c = true) (behind : List α) :
    ∀ s : List α, r.ways (s ++ c :: behind) = extend (c :: behind) (r.ways s) := by
  induction r with
  | nil => exact fun s => rfl
  | one p =>
    intro s
    cases s with
    | nil =>
      rw [avoids, Bool.not_eq_true'] at h
      simp only [List.nil_append, ways, h]
      rfl
    | cons a s =>
      rw [List.cons_append, ways, ways]
      split <;> rfl
  | seq r r' ih ih' =>
    intro s
    rw [avoids, Bool.and_eq_true] at h
    rw [ways, ways, ih h.1, extend, extend, List.flatMap_map, List.map_flatMap]
    apply List.flatMap_congr
    intro w _
    rw [ih' h.2, extend, List.map_map, List.map_map]
    rfl
  | alt r r' ih ih' =>
    intro s
    rw [avoids, Bool.and_eq_true] at h
    rw [ways, ways, ih h.1, ih' h.2, extend, extend, extend, List.map_append]
  | star greedy r ih =>
    intro s
    have hlen : s.length ≤ (s ++ c :: behind).length := (List.prefix_append _ _).length_le
    rw [ways, ways, starLoop_extend (List.cons_ne_nil c behind) (ih h) (Nat.le_refl _),
      starLoop_fuel hlen (Nat.le_refl _)]
  | group n r ih =>
    intro s
    rw [ways, ways, ih h, extend, extend, List.map_map, List.map_map]
    apply List.map_congr_left
    intro w hw
    simp only [Function.comp_apply, take_consumed]

/-- The character itself is a piece, since whatever is matched there is nothing. -/
theorem piecesLoop_cons {r : Regex α} {c : α} (h : r.avoids c = true) (behind : List α) (n : Nat) :
    piecesLoop r (n + 1) (c :: behind) = .char c :: piecesLoop r n behind := by
  have hways := Regex.ways_append h behind []
  rw [List.nil_append] at hways
  rw [piecesLoop, hways, extend, List.head?_map]
  cases (r.ways []).head? with
  | none => rfl
  | some w =>
    have hnot : ¬ (w.2 ++ c :: behind).length < (c :: behind).length := by
      rw [List.length_append]
      omega
    simp only [Option.map_some, if_neg hnot]

theorem piecesLoop_append {r : Regex α} {c : α} (h : r.avoids c = true) {behind : List α}
    {n : Nat} : ∀ {s : List α}, (s ++ c :: behind).length ≤ n →
      piecesLoop r n (s ++ c :: behind) = piecesLoop r n s ++ .char c :: pieces r behind := by
  induction n with
  | zero =>
    intro s hn
    rw [List.length_append, List.length_cons] at hn
    omega
  | succ n ih =>
    intro s hn
    cases s with
    | nil =>
      have hlen : behind.length ≤ n := Nat.le_of_succ_le_succ hn
      rw [List.nil_append, piecesLoop_cons h, piecesLoop_fuel hlen (Nat.le_refl _)]
      rfl
    | cons a s =>
      have hlen : (s ++ c :: behind).length ≤ n := Nat.le_of_succ_le_succ hn
      have hways := Regex.ways_append h behind (a :: s)
      rw [List.cons_append] at hways
      rw [List.cons_append, piecesLoop, piecesLoop, hways, extend, List.head?_map, ih hlen]
      cases hfirst : (r.ways (a :: s)).head? with
      | none => rfl
      | some w =>
        have hlt : (w.2 ++ c :: behind).length < (a :: (s ++ c :: behind)).length ↔
            w.2.length < (a :: s).length := by
          rw [← List.cons_append, List.length_append, List.length_append,
            Nat.add_lt_add_iff_right]
        have htake := take_consumed (a :: s) w.2 (c :: behind)
        rw [List.cons_append] at htake
        simp only [Option.map_some, hlt, htake]
        split
        · rename_i hless
          rw [List.length_cons] at hless
          rw [List.length_append] at hlen
          rw [ih (by rw [List.length_append]; omega)]
          rfl
        · rfl

/-- **Line by line**: a text is cut into pieces at such a character. -/
theorem pieces_append {r : Regex α} {c : α} (h : r.avoids c = true) (behind : List α)
    (s : List α) :
    pieces r (s ++ c :: behind) = pieces r s ++ .char c :: pieces r behind := by
  have hlen : s.length ≤ (s ++ c :: behind).length := (List.prefix_append _ _).length_le
  rw [pieces, piecesLoop_append h (Nat.le_refl _), piecesLoop_fuel hlen (Nat.le_refl _)]
  rfl

theorem sub_append {r : Regex α} {c : α} (h : r.avoids c = true)
    (f : List α → Groups α → List α) (s behind : List α) :
    sub r f (s ++ c :: behind) = sub r f s ++ c :: sub r f behind := by
  rw [sub, pieces_append h, List.flatMap_append, List.flatMap_cons]
  rfl

/-- **Substituting in lines**, each of which ends in the character that is never matched. -/
theorem sub_lines {r : Regex α} {c : α} (h : r.avoids c = true) (f : List α → Groups α → List α)
    (lines : List (List α)) :
    sub r f (lines.flatMap fun line => line ++ [c])
      = lines.flatMap fun line => sub r f line ++ [c] := by
  induction lines with
  | nil => rfl
  | cons line lines ih =>
    rw [List.flatMap_cons, List.flatMap_cons, List.append_assoc, List.append_assoc,
      List.singleton_append, List.singleton_append, sub_append h, ih]

end Amigos.Lib
