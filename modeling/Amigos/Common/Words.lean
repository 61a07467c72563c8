import Amigos.Lib.Bytes

/-!
# Words: their hash and their bigrams (`MurmurHash2.cpp`, `bigramer.cpp`)

The index knows a word by its 32-bit hash. Before it is hashed, a text goes through the
bigramer: a stop word is replaced by itself glued to the end of the word on its left and by
itself glued to the beginning of the word on its right.

The conversion between multibyte and wide strings is the C library's and depends on the locale;
it is a parameter (`Codec`), and nothing is assumed of it.
-/

set_option autoImplicit false

namespace Amigos.Common

open Amigos.Lib

/-! ## `MurmurHash2` -/

/-- The mixing constant `m`. -/
def murmurM : UInt32 := 0x5bd1e995

/-- The loop over blocks of four bytes, and the switch on the last few. -/
def murmurMix (h : UInt32) : Bytes → UInt32
  | b0 :: b1 :: b2 :: b3 :: data =>
    let k : UInt32 := UInt32.ofNat (leNat [b0, b1, b2, b3])
    let k := k * murmurM
    let k := k ^^^ (k >>> 24)
    let k := k * murmurM
    murmurMix (h * murmurM ^^^ k) data
  | [d0, d1, d2] =>
    (((h ^^^ d2.toUInt32 <<< 16) ^^^ d1.toUInt32 <<< 8) ^^^ d0.toUInt32) * murmurM
  | [d0, d1] => ((h ^^^ d1.toUInt32 <<< 8) ^^^ d0.toUInt32) * murmurM
  | [d0] => (h ^^^ d0.toUInt32) * murmurM
  | [] => h

/-- `MurmurHash2` with the default seed. The length is passed as an `int`: nothing is read of a
string whose length is negative there. -/
def murmurHash2 (key : Bytes) : UInt32 :=
  let len := key.length % 2 ^ 32
  let h := murmurMix (0 ^^^ UInt32.ofNat len) (if len < 2 ^ 31 then key.take len else [])
  let h := h ^^^ (h >>> 13)
  let h := h * murmurM
  h ^^^ (h >>> 15)

/-- The bytes of `hello`: one block and one byte behind it. -/
example : murmurHash2 [104, 101, 108, 108, 111] = 3848350155 := by decide

/-! ## The bigramer -/

/-- `str2wstr` and `wstr2str`: `mbstowcs` and `wcstombs` under the locale of the program. -/
structure Codec where
  str2wstr : Bytes → List UInt32
  wstr2str : List UInt32 → Nat → Bytes

/-- `L'_'`. -/
def underscore : UInt32 := 95

/-- Undefined where the assertions fail. -/
def makeLBigram (c : Codec) (leftWord word : Bytes) : Option Bytes :=
  let wLeftWord := c.str2wstr leftWord
  let wWord := c.str2wstr word
  if wLeftWord.isEmpty || wWord.isEmpty then none else
  let lWSize := wLeftWord.length
  let wRes :=
    if lWSize > 1 then [underscore] ++ wLeftWord.drop (lWSize - 2) ++ wWord
    else [underscore, underscore] ++ wLeftWord.drop (lWSize - 1) ++ wWord
  some (c.wstr2str wRes (word.length + 6))

def makeRBigram (c : Codec) (word rightWord : Bytes) : Option Bytes :=
  let wRightWord := c.str2wstr rightWord
  let wWord := c.str2wstr word
  if wRightWord.isEmpty || wWord.isEmpty then none else
  let rWSize := wRightWord.length
  let wRes :=
    if rWSize > 1 then wWord ++ wRightWord.take 2 ++ [underscore]
    else wWord ++ wRightWord.drop (rWSize - 1) ++ [underscore, underscore]
  some (c.wstr2str wRes (word.length + 6))

/-- What the bigramer puts for `word`, given its neighbours. -/
def bigrams (c : Codec) (stopwords : List Bytes) (left : Option Bytes) (word : Bytes)
    (right : Option Bytes) : Option (List Bytes) :=
  if stopwords.contains word then do
    let l ← left.elim (some []) fun w => (makeLBigram c w word).map ([·])
    let r ← right.elim (some []) fun w => (makeRBigram c word w).map ([·])
    return l ++ r
  else some [word]

/-- The loop of `bigram2vec`, behind the word `left`. -/
def bigramsFrom (c : Codec) (stopwords : List Bytes) (left : Option Bytes) :
    List Bytes → Option (List Bytes)
  | [] => some []
  | word :: words => do
    let res ← bigrams c stopwords left word words.head?
    let rest ← bigramsFrom c stopwords (some word) words
    return res ++ rest

def bigram2vec (c : Codec) (stopwords : List Bytes) (words : List Bytes) : Option (List Bytes) :=
  bigramsFrom c stopwords none words

/-! ## The bigrams of a part of a text -/

/-- The tokens that a text has for the word at place `i`. -/
def wordTokens (c : Codec) (stopwords words : List Bytes) (i : Nat) : Option (List Bytes) := do
  let word ← words[i]?
  bigrams c stopwords (if i = 0 then none else words[i - 1]?) word words[i + 1]?

/-- The tokens that a text has for the words from place `a` on, up to place `b`. -/
def rangeTokens (c : Codec) (stopwords words : List Bytes) (a b : Nat) : Option (List Bytes) := do
  let tokens ← (List.range' a (b - a)).mapM (wordTokens c stopwords words)
  return tokens.flatten

/-- The left bigram of the first word of a run, if it is a stop word. -/
def leftEdge (c : Codec) (stopwords : List Bytes) (left first : Option Bytes) :
    Option (List Bytes) :=
  match left, first with
  | some leftWord, some word =>
    if stopwords.contains word then (makeLBigram c leftWord word).map ([·]) else some []
  | _, _ => some []

/-- The right bigram of the last word of a run, if it is a stop word. -/
def rightEdge (c : Codec) (stopwords : List Bytes) (last right : Option Bytes) :
    Option (List Bytes) :=
  match last, right with
  | some word, some rightWord =>
    if stopwords.contains word then (makeRBigram c word rightWord).map ([·]) else some []
  | _, _ => some []

/-- What a run of words puts into the result, between its neighbours. -/
def contributed (c : Codec) (stopwords : List Bytes) (left : Option Bytes) :
    List Bytes → Option Bytes → Option (List Bytes)
  | [], _ => some []
  | word :: words, right => do
    let res ← bigrams c stopwords left word (words.head?.or right)
    let rest ← contributed c stopwords (some word) words right
    return res ++ rest

section

variable {c : Codec} {stopwords : List Bytes}

theorem bigramsFrom_eq_contributed (words : List Bytes) : ∀ left : Option Bytes,
    bigramsFrom c stopwords left words = contributed c stopwords left words none := by
  induction words with
  | nil => exact fun _ => rfl
  | cons word words ih =>
    intro left
    rw [bigramsFrom, contributed, ih, Option.or_none]

theorem bigram2vec_eq_contributed (words : List Bytes) :
    bigram2vec c stopwords words = contributed c stopwords none words none :=
  bigramsFrom_eq_contributed words none

/-! ### The edges -/

theorem bigrams_left (left : Option Bytes) (word : Bytes) (right : Option Bytes) :
    bigrams c stopwords left word right = (leftEdge c stopwords left (some word)).bind fun l =>
      (bigrams c stopwords none word right).map (l ++ ·) := by
  by_cases hstop : stopwords.contains word = true
  · cases left with
    | none => simp [bigrams, leftEdge]
    | some leftWord =>
      simp only [bigrams, leftEdge, if_pos hstop, Option.elim_some, Option.elim_none,
        Option.bind_eq_bind, Option.bind_some, Option.pure_def, List.nil_append]
      cases makeLBigram c leftWord word <;> cases right.elim (some []) _ <;> rfl
  · have hnone : leftEdge c stopwords left (some word) = some [] := by
      cases left <;> simp only [leftEdge, if_neg hstop]
    rw [hnone]
    simp only [bigrams, if_neg hstop, Option.bind_some, Option.map_some, List.nil_append]

theorem bigrams_right (left : Option Bytes) (word : Bytes) (right : Option Bytes) :
    bigrams c stopwords left word right = (bigrams c stopwords left word none).bind fun res =>
      (rightEdge c stopwords (some word) right).map (res ++ ·) := by
  by_cases hstop : stopwords.contains word = true
  · cases right with
    | none => simp [bigrams, rightEdge]
    | some rightWord =>
      simp only [bigrams, rightEdge, if_pos hstop, Option.elim_some, Option.elim_none,
        Option.bind_eq_bind, Option.bind_some, Option.pure_def, List.append_nil]
      cases makeRBigram c word rightWord <;> cases left.elim (some []) _ <;> rfl
  · have hnone : rightEdge c stopwords (some word) right = some [] := by
      cases right <;> simp only [rightEdge, if_neg hstop]
    rw [hnone]
    simp only [bigrams, if_neg hstop, Option.bind_some, Option.map_some, List.append_nil]

/-- The left neighbour matters to the first word only. -/
theorem contributed_left (left : Option Bytes) (run : List Bytes) (right : Option Bytes) :
    contributed c stopwords left run right = (leftEdge c stopwords left run.head?).bind fun l =>
      (contributed c stopwords none run right).map (l ++ ·) := by
  cases run with
  | nil => cases left <;> rfl
  | cons word run =>
    rw [contributed, contributed, bigrams_left, List.head?_cons]
    cases leftEdge c stopwords left (some word) with
    | none => rfl
    | some l =>
      cases bigrams c stopwords none word (run.head?.or right) with
      | none => rfl
      | some res => cases contributed c stopwords (some word) run right <;> simp

/-- The right neighbour matters to the last word only. -/
theorem contributed_right (run : List Bytes) (right : Option Bytes) : ∀ left : Option Bytes,
    contributed c stopwords left run right = (contributed c stopwords left run none).bind
      fun res => (rightEdge c stopwords run.getLast? right).map (res ++ ·) := by
  induction run with
  | nil => exact fun left => rfl
  | cons word run ih =>
    intro left
    rw [contributed, contributed]
    cases run with
    | nil =>
      rw [List.head?_nil, Option.none_or, Option.none_or, bigrams_right left word right,
        List.getLast?_singleton, contributed, contributed]
      cases bigrams c stopwords left word none with
      | none => rfl
      | some res => cases rightEdge c stopwords (some word) right <;> simp
    | cons next run =>
      rw [ih, List.getLast?_cons_cons]
      simp only [List.head?_cons, Option.some_or]
      cases bigrams c stopwords left word (some next) with
      | none => rfl
      | some here =>
        cases contributed c stopwords (some word) (next :: run) none with
        | none => rfl
        | some res => cases rightEdge c stopwords (next :: run).getLast? right <;> simp

/-- **What a run contributes, without its edges**, is what it has for itself. -/
theorem contributed_trim {left right : Option Bytes} {run here : List Bytes}
    (h : contributed c stopwords left run right = some here) :
    ∃ l tokens r, leftEdge c stopwords left run.head? = some l ∧
      bigram2vec c stopwords run = some tokens ∧
      rightEdge c stopwords run.getLast? right = some r ∧ here = l ++ (tokens ++ r) := by
  rw [contributed_left, Option.bind_eq_some_iff] at h
  obtain ⟨l, hleft, h⟩ := h
  obtain ⟨trimmed, htrimmed, rfl⟩ := Option.map_eq_some_iff.mp h
  rw [contributed_right, Option.bind_eq_some_iff] at htrimmed
  obtain ⟨tokens, htokens, htrimmed⟩ := htrimmed
  obtain ⟨r, hright, rfl⟩ := Option.map_eq_some_iff.mp htrimmed
  rw [← bigram2vec_eq_contributed] at htokens
  exact ⟨l, tokens, r, hleft, htokens, hright, rfl⟩

/-! ### Runs, one behind the other -/

theorem contributed_append {xs ys : List Bytes} {right : Option Bytes} :
    ∀ {left : Option Bytes} {res : List Bytes},
      contributed c stopwords left (xs ++ ys) right = some res →
      ∃ here rest, contributed c stopwords left xs (ys.head?.or right) = some here ∧
        contributed c stopwords (xs.getLast?.or left) ys right = some rest ∧
          res = here ++ rest := by
  induction xs with
  | nil => exact fun {left res} h => ⟨[], res, rfl, h, rfl⟩
  | cons word xs ih =>
    intro left res h
    rw [List.cons_append] at h
    simp only [contributed, Option.bind_eq_bind, Option.bind_eq_some_iff, Option.pure_def,
      Option.some.injEq] at h
    obtain ⟨tokens, htokens, rest, hrest, rfl⟩ := h
    obtain ⟨here, behind, hhere, hbehind, rfl⟩ := ih hrest
    refine ⟨tokens ++ here, behind, ?_, ?_, (List.append_assoc _ _ _).symm⟩
    · rw [List.head?_append, Option.or_assoc] at htokens
      simp only [contributed, htokens, hhere, Option.bind_eq_bind, Option.bind_some,
        Option.pure_def]
    · rw [List.getLast?_cons, Option.some_or]
      cases hlast : xs.getLast? <;> simpa [hlast] using hbehind

/-- A text in three parts: what each of them contributes. -/
theorem bigram2vec_parts {before run behind res : List Bytes}
    (h : bigram2vec c stopwords (before ++ (run ++ behind)) = some res) :
    ∃ pre here post, contributed c stopwords none before (run ++ behind).head? = some pre ∧
      contributed c stopwords before.getLast? run behind.head? = some here ∧
      contributed c stopwords (run.getLast?.or before.getLast?) behind none = some post ∧
      res = pre ++ (here ++ post) := by
  rw [bigram2vec_eq_contributed] at h
  obtain ⟨pre, rest, hpre, hrest, rfl⟩ := contributed_append h
  obtain ⟨here, post, hhere, hpost, rfl⟩ := contributed_append hrest
  simp only [Option.or_none] at hpre hhere hpost
  exact ⟨pre, here, post, hpre, hhere, hpost, rfl⟩

theorem wordTokens_append (before : List Bytes) (word : Bytes) (run behind : List Bytes) :
    wordTokens c stopwords (before ++ (word :: run ++ behind)) before.length
      = bigrams c stopwords before.getLast? word (run.head?.or behind.head?) := by
  have hleft : (if before.length = 0 then none
      else (before ++ (word :: run ++ behind))[before.length - 1]?) = before.getLast? := by
    cases before with
    | nil => rfl
    | cons b before =>
      rw [List.length_cons, if_neg (Nat.succ_ne_zero _), List.getLast?_eq_getElem?]
      exact List.getElem?_append_left (Nat.lt_succ_self _)
  have hright : (before ++ (word :: run ++ behind))[before.length + 1]?
      = run.head?.or behind.head? := by
    rw [List.getElem?_append_right (Nat.le_add_right _ 1), Nat.add_sub_cancel_left,
      List.cons_append, List.getElem?_cons_succ, ← List.head?_eq_getElem?, List.head?_append]
  rw [wordTokens, hleft, hright, List.getElem?_append_right (Nat.le_refl _), Nat.sub_self]
  rfl

theorem rangeTokens_succ (words : List Bytes) (a n : Nat) :
    rangeTokens c stopwords words a (a + (n + 1)) = do
      let res ← wordTokens c stopwords words a
      let rest ← rangeTokens c stopwords words (a + 1) (a + 1 + n)
      return res ++ rest := by
  rw [rangeTokens, rangeTokens, Nat.add_sub_cancel_left, Nat.add_sub_cancel_left,
    List.range'_succ, List.mapM_cons]
  cases wordTokens c stopwords words a with
  | none => rfl
  | some res => cases (List.range' (a + 1) n).mapM (wordTokens c stopwords words) <;> rfl

end

/-- Word by word, the contribution of a run is that of its places in the text. By induction on the
run; what is behind goes over to what is before it. -/
theorem rangeTokens_eq_contributed (c : Codec) (stopwords run behind : List Bytes) :
    ∀ before : List Bytes,
      rangeTokens c stopwords (before ++ (run ++ behind)) before.length
          (before.length + run.length)
        = contributed c stopwords before.getLast? run behind.head? := by
  induction run with
  | nil =>
    intro before
    simp [rangeTokens, contributed]
  | cons word run ih =>
    intro before
    have hrest := ih (before ++ [word])
    rw [List.append_assoc, List.length_append, List.length_singleton,
      List.getLast?_append_of_ne_nil _ (List.cons_ne_nil word []), List.getLast?_singleton] at hrest
    rw [List.length_cons, rangeTokens_succ, wordTokens_append, contributed]
    exact congrArg _ (funext fun _ => congrArg (Option.bind · _) hrest)

/-- **A run of words out of a text**: its bigrams are a piece of those of the text. They are what
the text has for the words of the run, without the left bigram of the first word and the right
bigram of the last one, where these are stop words. -/
theorem bigram2vec_cut (c : Codec) (stopwords before run behind : List Bytes) {res : List Bytes}
    (h : bigram2vec c stopwords (before ++ (run ++ behind)) = some res) :
    ∃ pre left tokens right post, bigram2vec c stopwords run = some tokens ∧ tokens <:+: res ∧
      res = pre ++ ((left ++ (tokens ++ right)) ++ post) ∧
      leftEdge c stopwords before.getLast? run.head? = some left ∧
      rightEdge c stopwords run.getLast? behind.head? = some right ∧
      rangeTokens c stopwords (before ++ (run ++ behind)) 0 before.length = some pre ∧
      rangeTokens c stopwords (before ++ (run ++ behind)) before.length
        (before.length + run.length) = some (left ++ (tokens ++ right)) ∧
      rangeTokens c stopwords (before ++ (run ++ behind)) (before.length + run.length)
        (before ++ (run ++ behind)).length = some post := by
  have hbefore := rangeTokens_eq_contributed c stopwords before (run ++ behind) []
  have hrun := rangeTokens_eq_contributed c stopwords run behind before
  have hbehind := rangeTokens_eq_contributed c stopwords behind [] (before ++ run)
  rw [List.nil_append, List.length_nil, Nat.zero_add, List.getLast?_nil] at hbefore
  rw [List.append_nil, ← List.length_append, List.append_assoc, List.getLast?_append,
    List.head?_nil] at hbehind
  obtain ⟨pre, here, post, hpre, hhere, hpost, rfl⟩ := bigram2vec_parts h
  obtain ⟨left, tokens, right, hleft, htokens, hright, rfl⟩ := contributed_trim hhere
  rw [← List.length_append] at hrun ⊢
  refine ⟨pre, left, tokens, right, post, htokens, ⟨pre ++ left, right ++ post, ?_⟩, rfl, hleft,
    hright, hbefore.trans hpre, hrun.trans hhere, hbehind.trans hpost⟩
  simp only [List.append_assoc]

/-- What the conversions are for ASCII, in any locale. -/
def Codec.ascii : Codec where
  str2wstr str := str.map UInt8.toUInt32
  wstr2str wstr n := (wstr.map UInt32.toUInt8).take n

/-- The word `the`, out of `in the end`: alone it has no neighbour, and there it has two. -/
theorem bigram2vec_cut_the :
    ∃ pre left tokens right post, bigram2vec .ascii [[116, 104, 101]] [[116, 104, 101]]
        = some tokens ∧
      tokens <:+: [[105, 110], [95, 105, 110, 116, 104, 101], [116, 104, 101, 101, 110, 95],
        [101, 110, 100]] ∧
      [[105, 110], [95, 105, 110, 116, 104, 101], [116, 104, 101, 101, 110, 95], [101, 110, 100]]
        = pre ++ ((left ++ (tokens ++ right)) ++ post) ∧
      leftEdge .ascii [[116, 104, 101]] (some [105, 110]) (some [116, 104, 101]) = some left ∧
      rightEdge .ascii [[116, 104, 101]] (some [116, 104, 101]) (some [101, 110, 100])
        = some right ∧
      rangeTokens .ascii [[116, 104, 101]] [[105, 110], [116, 104, 101], [101, 110, 100]] 0 1
        = some pre ∧
      rangeTokens .ascii [[116, 104, 101]] [[105, 110], [116, 104, 101], [101, 110, 100]] 1 2
        = some (left ++ (tokens ++ right)) ∧
      rangeTokens .ascii [[116, 104, 101]] [[105, 110], [116, 104, 101], [101, 110, 100]] 2 3
        = some post :=
  bigram2vec_cut .ascii [[116, 104, 101]] [[105, 110]] [[116, 104, 101]] [[101, 110, 100]]
    (by decide)

/-- The bigrams of a run are among those of the text. -/
theorem bigram2vec_infix {c : Codec} {stopwords : List Bytes} {run words res : List Bytes}
    (hrun : run <:+: words) (h : bigram2vec c stopwords words = some res) :
    ∃ tokens, bigram2vec c stopwords run = some tokens ∧ tokens ⊆ res := by
  obtain ⟨before, behind, rfl⟩ := hrun
  rw [List.append_assoc] at h
  obtain ⟨pre, here, post, -, hhere, -, rfl⟩ := bigram2vec_parts h
  obtain ⟨left, tokens, right, -, htokens, -, rfl⟩ := contributed_trim hhere
  refine ⟨tokens, htokens, fun token htoken => ?_⟩
  simp [htoken]

end Amigos.Common
