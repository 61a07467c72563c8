import Mathlib.Data.List.Infix
import Amigos.Lib.Utf8

/-!
# The English stemmer (`porter2_stemmer.cpp`)

`stem` cuts endings off a word, one step after the other. What comes out depends on many tables, but
little of it is a surprise: it is the front of the word with at most two letters of a replacement
behind it (`Stemmed`), and it is not empty. A step either takes letters away (`Stemmed.take`) or
puts a replacement where a suffix was (`Stemmed.replace`); the second keeps the bound, because a
suffix that is replaced is long enough to take the letters of an earlier replacement with it.

The last step looks at the last letter without asking whether there is one. There are two words of
which nothing is left by then (`stem_correct`).
-/

set_option autoImplicit false

namespace Amigos.Porter2Stemmer

open Amigos.Lib

/-! ## The source -/

/-- The bytes of an ASCII string. -/
def str (s : String) : Bytes := s.toList.map fun ch => UInt8.ofNat ch.toNat

def lowerY : UInt8 := 121
def upperY : UInt8 := 89

/-- `a - b`, of `size_t`. -/
def subSize (a b : Nat) : Nat := if b ≤ a then a - b else a + 2 ^ 64 - b

def isVowelY (ch : UInt8) : Bool := (str "eaiouy").contains ch
def isVowel (ch : UInt8) : Bool := (str "eaiou").contains ch
def isValidLIEnding (ch : UInt8) : Bool := (str "cdeghkmnrt").contains ch

def endsWith (word suffix : Bytes) : Bool :=
  decide (suffix.length ≤ word.length) && word.drop (word.length - suffix.length) == suffix

def containsVowel (word : Bytes) (start stop : Nat) : Bool :=
  decide (start ≤ stop ∧ stop < word.length) && ((word.take stop).drop start).any isVowelY

def endsInDouble (word : Bytes) : Bool :=
  match word.reverse with
  | a :: b :: _ => a == b && (str "bdfgmnprt").contains a
  | _ => false

/-- The word with the suffix replaced, if it ends in it behind `start`. -/
def replaceIfExists (word suffix replacement : Bytes) (start : Nat) : Option Bytes :=
  if start ≤ word.length && endsWith (word.drop start) suffix then
    some (word.take (word.length - suffix.length) ++ replacement)
  else none

/-- The first entry of a table that applies. -/
def replaceFirst (subs : List (Bytes × Bytes)) (word : Bytes) (start : Nat) : Option Bytes :=
  subs.findSome? fun sub => replaceIfExists word sub.1 sub.2 start

def firstNonVowelAfterVowel (word : Bytes) (start : Nat) : Nat :=
  if start = 0 then word.length
  else
    ((List.range' start (word.length - start)).find? fun i =>
      !isVowelY (word.getD i 0) && isVowelY (word.getD (i - 1) 0)).elim word.length (· + 1)

def getStartR1 (word : Bytes) : Nat :=
  if word.take 5 = str "gener" then 5
  else if word.take 6 = str "commun" then 6
  else if word.take 5 = str "arsen" then 5
  else firstNonVowelAfterVowel word 1

def getStartR2 (word : Bytes) (startR1 : Nat) : Nat :=
  if startR1 = word.length then startR1 else firstNonVowelAfterVowel word (startR1 + 1)

/-- The loop of `changeY` behind the letter `prev`; it skips the letter behind a change. -/
def changeYFrom (prev : UInt8) : Bytes → Bytes
  | [] => []
  | [ch] => [if ch == lowerY && isVowel prev then upperY else ch]
  | ch :: next :: rest =>
    if ch == lowerY && isVowel prev then upperY :: next :: changeYFrom next rest
    else ch :: changeYFrom ch (next :: rest)

def changeY (word : Bytes) : Bytes :=
  if word.contains lowerY then
    match word with
    | [] => []
    | first :: rest =>
      let first := if first == lowerY then upperY else first
      first :: changeYFrom first rest
  else word

def exceptions : List (Bytes × Bytes) :=
  [("skis", "ski"), ("skies", "sky"), ("dying", "die"), ("lying", "lie"), ("tying", "tie"),
    ("idly", "idl"), ("gently", "gentl"), ("ugly", "ugli"), ("early", "earli"), ("only", "onli"),
    ("singly", "singl")].map fun entry => (str entry.1, str entry.2)

def invariants : List Bytes :=
  ["sky", "news", "howe", "atlas", "cosmos", "bias", "andes"].map str

/-- What the stemmer makes of a word that it has a rule of its own for. -/
def special (word : Bytes) : Option Bytes :=
  match exceptions.lookup word with
  | some stem => some stem
  | none => if invariants.contains word then some word else none

def step0 (word : Bytes) : Bytes :=
  (replaceIfExists word (str "'s'") [] 0 <|> replaceIfExists word (str "'s") [] 0 <|>
    replaceIfExists word (str "'") [] 0).getD word

/-- The word behind step 1a, and whether it is one to stop at. -/
def step1A (word : Bytes) : Bytes × Bool :=
  let word :=
    match replaceIfExists word (str "sses") (str "ss") 0 with
    | some word => word
    | none =>
      if endsWith word (str "ied") || endsWith word (str "ies") then
        if word.length ≤ 4 then word.take (subSize word.length 1)
        else word.take (subSize word.length 2)
      else if endsWith word (str "s") && !endsWith word (str "us") && !endsWith word (str "ss") then
        if 2 < word.length && containsVowel word 0 (subSize word.length 2) then
          word.take (subSize word.length 1)
        else word
      else word
  (word, (["inning", "outing", "canning", "herring", "earring", "proceed", "exceed",
    "succeed"].map str).contains word)

/-- The deletion of step 1b, if the part in front contains a vowel. -/
def deleteBehindVowel (word suffix : Bytes) : Option Bytes :=
  if containsVowel word 0 (subSize word.length suffix.length) then
    replaceIfExists word suffix [] 0
  else none

/-- A vowel between two letters that are none, or one at the beginning. -/
def isShort (word : Bytes) : Bool :=
  match word.reverse with
  | c :: b :: a :: _ => !isVowelY a && isVowelY b && !isVowelY c && !(str "wxY").contains c
  | [c, b] => isVowelY b && !isVowelY c
  | _ => false

def step1B (word : Bytes) (startR1 : Nat) : Bytes :=
  if endsWith word (str "eedly") || endsWith word (str "eed") then
    (replaceIfExists word (str "eedly") (str "ee") startR1 <|>
      replaceIfExists word (str "eed") (str "ee") startR1).getD word
  else
    match deleteBehindVowel word (str "ed") <|> deleteBehindVowel word (str "edly") <|>
      deleteBehindVowel word (str "ing") <|> deleteBehindVowel word (str "ingly") with
    | none => word
    | some word =>
      if endsWith word (str "at") || endsWith word (str "bl") || endsWith word (str "iz") then
        word ++ str "e"
      else if endsInDouble word then word.take (subSize word.length 1)
      else if startR1 = word.length && isShort word then word ++ str "e"
      else word

def step1C (word : Bytes) : Bytes :=
  match word.reverse with
  | last :: before :: _ :: _ =>
    if (last == lowerY || last == upperY) && !isVowel before then
      word.take (word.length - 1) ++ str "i"
    else word
  | _ => word

def step2Subs : List (Bytes × Bytes) :=
  [("ational", "ate"), ("tional", "tion"), ("enci", "ence"), ("anci", "ance"), ("abli", "able"),
    ("entli", "ent"), ("izer", "ize"), ("ization", "ize"), ("ation", "ate"), ("ator", "ate"),
    ("alism", "al"), ("aliti", "al"), ("alli", "al"), ("fulness", "ful"), ("ousli", "ous"),
    ("ousness", "ous"), ("iveness", "ive"), ("iviti", "ive"), ("biliti", "ble"), ("bli", "ble"),
    ("fulli", "ful"), ("lessli", "less")].map fun sub => (str sub.1, str sub.2)

/-- The suffixes that `li` is not taken off. -/
def longerThanLi : List Bytes :=
  ["abli", "entli", "aliti", "alli", "ousli", "bli", "fulli", "lessli"].map str

def step2 (word : Bytes) (startR1 : Nat) : Bytes :=
  match replaceFirst step2Subs word startR1 with
  | some word => word
  | none =>
    match replaceIfExists word (str "logi") (str "log") (subSize startR1 1) with
    | some word => word
    | none =>
      if endsWith word (str "li") && !longerThanLi.any (endsWith word) &&
          decide (3 < word.length) && decide (startR1 ≤ subSize word.length 2) &&
          (word[subSize word.length 3]?).any isValidLIEnding then
        word.take (subSize word.length 2)
      else word

def step3Subs : List (Bytes × Bytes) :=
  [("ational", "ate"), ("tional", "tion"), ("alize", "al"), ("icate", "ic"), ("iciti", "ic"),
    ("ical", "ic"), ("ful", ""), ("ness", "")].map fun sub => (str sub.1, str sub.2)

def step3 (word : Bytes) (startR1 startR2 : Nat) : Bytes :=
  (replaceFirst step3Subs word startR1 <|> replaceIfExists word (str "ative") [] startR2).getD word

def step4Subs : List (Bytes × Bytes) :=
  ["al", "ance", "ence", "er", "ic", "able", "ible", "ant", "ement", "ment", "ism", "ate", "iti",
    "ous", "ive", "ize"].map fun suffix => (str suffix, [])

def step4 (word : Bytes) (startR2 : Nat) : Bytes :=
  (replaceFirst step4Subs word startR2 <|>
    (if endsWith word (str "ement") || endsWith word (str "ment") then none
      else replaceIfExists word (str "ent") [] startR2) <|>
    replaceIfExists word (str "sion") (str "s") (subSize startR2 1) <|>
    replaceIfExists word (str "tion") (str "t") (subSize startR2 1)).getD word

/-- Undefined where it looks in front of the word. -/
def step5 (word : Bytes) (startR1 startR2 : Nat) : Option Bytes := do
  let size := word.length
  let last ← word[subSize size 1]?
  if last == 101 then
    if startR2 ≤ subSize size 1 then return word.take (subSize size 1)
    else if startR1 ≤ subSize size 1 && !isShort (word.take (subSize size 1)) then
      return word.take (subSize size 1)
    else return word
  else if last == 108 && decide (startR2 ≤ subSize size 1) then
    let before ← word[subSize size 2]?
    if before == 108 then return word.take (subSize size 1) else return word
  else return word

/-- `std::replace(word.begin(), word.end(), 'Y', 'y')`. -/
def lowerYs (word : Bytes) : Bytes := word.map fun ch => if ch == upperY then lowerY else ch

/-- What `stem` does with a word that it has no rule of its own for. -/
def runSteps (word : Bytes) : Option Bytes := do
  let word := changeY word
  let startR1 := getStartR1 word
  let startR2 := getStartR2 word startR1
  let (word, stop) := step1A (step0 word)
  if stop then return lowerYs word
  else
    let word := step1C (step1B word startR1)
    let word := step4 (step3 (step2 word startR1) startR1 startR2) startR2
    let word ← step5 word startR1 startR2
    return lowerYs word

/-- The word without the quote in front of it. -/
def unquote (word : Bytes) : Bytes := if word.head? == some 39 then word.drop 1 else word

def stem (word : Bytes) : Option Bytes :=
  if word.length ≤ 2 || word == str "<s>" || word == str "</s>" then some word
  else
    let word := if 35 < word.length then word.take 35 else word
    let word := unquote word
    match special word with
    | some word => some word
    | none => runSteps word

/-! ## A front of the word and a short ending -/

/-- `x` is a front of `w` with at most `k` letters behind it. -/
def Stemmed (k : Nat) (w x : Bytes) : Prop := ∃ p e, x = p ++ e ∧ p <+: w ∧ e.length ≤ k

theorem Stemmed.refl (k : Nat) (w : Bytes) : Stemmed k w w :=
  ⟨w, [], (List.append_nil w).symm, List.prefix_rfl, Nat.zero_le k⟩

theorem Stemmed.mono {k k' : Nat} {w x : Bytes} (h : Stemmed k w x) (hle : k ≤ k') :
    Stemmed k' w x := by
  obtain ⟨p, e, hx, hp, he⟩ := h
  exact ⟨p, e, hx, hp, he.trans hle⟩

theorem Stemmed.take {k : Nat} {w x : Bytes} (h : Stemmed k w x) (n : Nat) :
    Stemmed k w (x.take n) := by
  obtain ⟨p, e, rfl, hp, he⟩ := h
  refine ⟨p.take n, e.take (n - p.length), List.take_append, (List.take_prefix n p).trans hp, ?_⟩
  exact (List.length_take_le' _ _).trans he

/-- **A replacement takes the letters of the last one with it**, if it begins in front of them. -/
theorem Stemmed.replace {k k' n : Nat} {w x d : Bytes} (h : Stemmed k w x)
    (hn : n + k ≤ x.length) (hd : d.length ≤ k') : Stemmed k' w (x.take n ++ d) := by
  obtain ⟨p, e, rfl, hp, he⟩ := h
  rw [List.length_append] at hn
  have hfront : (p ++ e).take n = p.take n := List.take_append_of_le_length (by omega)
  exact ⟨p.take n, d, by rw [hfront], (List.take_prefix n p).trans hp, hd⟩

/-- What a step can do: from a word with at most `k` letters of a replacement it makes one with at
most `k'`, which is not longer, and not empty unless the word was. -/
structure Cuts (k k' : Nat) (x y : Bytes) : Prop where
  stemmed : ∀ w, Stemmed k w x → Stemmed k' w y
  length : y.length ≤ x.length
  ne_nil : x ≠ [] → y ≠ []

theorem Cuts.refl (k : Nat) (x : Bytes) : Cuts k k x x := ⟨fun _ h => h, Nat.le_refl _, id⟩

theorem Cuts.mono {k k' : Nat} (hle : k ≤ k') (x : Bytes) : Cuts k k' x x :=
  ⟨fun _ h => h.mono hle, Nat.le_refl _, id⟩

theorem Cuts.trans {a b c : Nat} {x y z : Bytes} (h : Cuts a b x y) (h' : Cuts b c y z) :
    Cuts a c x z :=
  ⟨fun w hw => h'.stemmed w (h.stemmed w hw), h'.length.trans h.length,
    fun hx => h'.ne_nil (h.ne_nil hx)⟩

theorem Cuts.take {k k' : Nat} (hle : k ≤ k') {x : Bytes} {n : Nat} (hn : 0 < n) :
    Cuts k k' x (x.take n) := by
  refine ⟨fun w h => (h.take n).mono hle, List.length_take_le' _ _, fun hx hnil => ?_⟩
  rcases List.take_eq_nil_iff.mp hnil with hzero | hx'
  · exact absurd hzero hn.ne'
  · exact hx hx'

theorem Cuts.replace {k k' : Nat} {x d : Bytes} {n : Nat} (hn : 0 < n) (hk : n + k ≤ x.length)
    (hd : d.length ≤ k') (hlen : n + d.length ≤ x.length) : Cuts k k' x (x.take n ++ d) := by
  refine ⟨fun w h => h.replace hk hd, ?_, fun _ hnil => ?_⟩
  · rw [List.length_append, List.length_take]
    omega
  · rw [List.append_eq_nil_iff, List.take_eq_nil_iff] at hnil
    rcases hnil.1 with hzero | rfl
    · exact hn.ne' hzero
    · exact hn.ne' (Nat.le_zero.mp ((Nat.le_add_right n k).trans hk))

/-- A step that may not apply. -/
theorem Cuts.getD {k k' : Nat} (hle : k ≤ k') {x : Bytes} {found : Option Bytes}
    (h : ∀ y, found = some y → Cuts k k' x y) : Cuts k k' x (found.getD x) := by
  cases found with
  | some y => exact h y rfl
  | none => exact .mono hle x

/-! ## Replacing a suffix -/

theorem endsWith_iff {word suffix : Bytes} : endsWith word suffix = true ↔ suffix <:+ word := by
  unfold endsWith
  rw [Bool.and_eq_true, decide_eq_true_eq, beq_iff_eq, List.suffix_iff_eq_drop]
  constructor
  · exact fun h => h.2.symm
  · intro h
    refine ⟨?_, h.symm⟩
    rw [h, List.length_drop]
    exact Nat.sub_le _ _

theorem replaceIfExists_eq_some {word suffix replacement : Bytes} {start : Nat} {y : Bytes}
    (h : replaceIfExists word suffix replacement start = some y) :
    suffix <:+ word ∧ start + suffix.length ≤ word.length ∧
      y = word.take (word.length - suffix.length) ++ replacement := by
  unfold replaceIfExists at h
  split at h
  · rename_i hcond
    rw [Bool.and_eq_true, decide_eq_true_eq, endsWith_iff] at hcond
    obtain ⟨hstart, hsuffix⟩ := hcond
    have hle := hsuffix.length_le
    rw [List.length_drop] at hle
    exact ⟨hsuffix.trans (List.drop_suffix _ _), by omega, (Option.some.inj h).symm⟩
  · cases h

/-- The letters that two words have in common in front. -/
def common : Bytes → Bytes → Nat
  | a :: s, b :: t => if a == b then common s t + 1 else 0
  | _, _ => 0

theorem common_spec (s t : Bytes) : t = s.take (common s t) ++ t.drop (common s t) ∧
    common s t ≤ s.length := by
  fun_induction common s t with
  | case1 a s b t heq ih =>
    rw [beq_iff_eq] at heq
    subst heq
    rw [List.take_succ_cons, List.drop_succ_cons, List.cons_append, ← ih.1, List.length_cons]
    exact ⟨rfl, Nat.succ_le_succ ih.2⟩
  | case2 a s b t hne => exact ⟨rfl, Nat.zero_le _⟩
  | case3 s t hcons => exact ⟨by simp, Nat.zero_le _⟩

/-- A rule that keeps the bound: it puts no letter behind what it leaves of the word, or at most
`k'`, and then the suffix has `k` letters more than it leaves. -/
def Keeps (k k' : Nat) (suffix replacement : Bytes) : Prop :=
  replacement.length ≤ suffix.length ∧
    (k ≤ k' ∧ replacement.length = common suffix replacement ∨
      common suffix replacement + k ≤ suffix.length ∧
        replacement.length ≤ common suffix replacement + k')

instance (k k' : Nat) (suffix replacement : Bytes) : Decidable (Keeps k k' suffix replacement) := by
  unfold Keeps; infer_instance

/-- **What a rule does.** -/
theorem cuts_of_replaceIfExists {k k' start : Nat} {word suffix replacement y : Bytes}
    (h : replaceIfExists word suffix replacement start = some y)
    (hkeeps : Keeps k k' suffix replacement) (hstart : 0 < start ∨ replacement ≠ []) :
    Cuts k k' word y := by
  obtain ⟨hsuffix, hlen, hy⟩ := replaceIfExists_eq_some h
  obtain ⟨hcommon, hle⟩ := common_spec suffix replacement
  obtain ⟨hshort, hkeeps⟩ := hkeeps
  -- The common letters are letters of the word.
  have hword : y = word.take (word.length - suffix.length + common suffix replacement)
      ++ replacement.drop (common suffix replacement) := by
    rw [hy]
    conv_lhs => rw [hcommon]
    rw [← List.append_assoc]
    congr 1
    obtain ⟨front, rfl⟩ := hsuffix
    have hfront : (front ++ suffix).length - suffix.length = front.length := by simp
    rw [hfront, List.take_left, List.take_length_add_append]
  have hlength : y.length = word.length - suffix.length + replacement.length := by
    rw [hy, List.length_append, List.length_take, Nat.min_eq_left (Nat.sub_le _ _)]
  refine ⟨fun w hw => ?_, by omega, fun _ hnil => ?_⟩
  · rw [hword]
    rcases hkeeps with ⟨hkk, hprefix⟩ | ⟨hlong, hrest⟩
    · rw [List.drop_eq_nil_of_le hprefix.le, List.append_nil]
      exact (hw.take _).mono hkk
    · apply hw.replace
      · omega
      · rw [List.length_drop]
        omega
  · rw [hnil, List.length_nil] at hlength
    rcases hstart with hpos | hne
    · omega
    · exact absurd (List.length_eq_zero_iff.mp (by omega)) hne

theorem cuts_of_replaceFirst {k k' start : Nat} {subs : List (Bytes × Bytes)} {word y : Bytes}
    (h : replaceFirst subs word start = some y) (hkeeps : ∀ sub ∈ subs, Keeps k k' sub.1 sub.2)
    (hstart : 0 < start) : Cuts k k' word y := by
  obtain ⟨sub, hsub, hy⟩ := List.exists_of_findSome?_eq_some h
  exact cuts_of_replaceIfExists hy (hkeeps sub hsub) (.inl hstart)

/-! ## The steps -/

theorem subSize_of_le {a b : Nat} (h : b ≤ a) : subSize a b = a - b := if_pos h

theorem containsVowel_pos {word : Bytes} {stop : Nat} (h : containsVowel word 0 stop = true) :
    0 < stop := by
  rcases Nat.eq_zero_or_pos stop with rfl | hpos
  · simp [containsVowel] at h
  · exact hpos

theorem length_pos_of_endsWith {word suffix : Bytes} (h : endsWith word suffix = true) :
    suffix.length ≤ word.length := (endsWith_iff.mp h).length_le

theorem cuts_step1A (word : Bytes) : Cuts 0 0 word (step1A word).1 := by
  unfold step1A
  dsimp only
  split
  · rename_i y hy
    exact cuts_of_replaceIfExists hy (by decide) (.inr (by decide))
  split
  -- Both endings have three letters.
  · rename_i hend
    have hlen : 3 ≤ word.length := by
      rcases (Bool.or_eq_true _ _).mp hend with hend | hend <;> exact length_pos_of_endsWith hend
    split
    · rw [subSize_of_le (by omega)]
      exact .take (Nat.le_refl _) (by omega)
    · rw [subSize_of_le (by omega)]
      exact .take (Nat.le_refl _) (by omega)
  split
  · split
    · rename_i hcond
      rw [Bool.and_eq_true, decide_eq_true_eq] at hcond
      rw [subSize_of_le (by omega)]
      exact .take (Nat.le_refl _) (by omega)
    · exact .refl 0 word
  · exact .refl 0 word

/-- A deletion leaves the part with the vowel. -/
theorem deleteBehindVowel_eq_some {word suffix y : Bytes}
    (h : deleteBehindVowel word suffix = some y) :
    ∃ n, y = word.take n ∧ 0 < n ∧ n + suffix.length = word.length := by
  unfold deleteBehindVowel at h
  split at h
  · rename_i hvowel
    obtain ⟨-, hlen, hy⟩ := replaceIfExists_eq_some h
    have hpos := containsVowel_pos hvowel
    rw [subSize_of_le (by omega)] at hpos
    exact ⟨_, hy.trans (List.append_nil _), hpos, by omega⟩
  · cases h

theorem cuts_step1B (word : Bytes) (startR1 : Nat) : Cuts 0 1 word (step1B word startR1) := by
  unfold step1B
  split
  · cases hfirst : replaceIfExists word (str "eedly") (str "ee") startR1 with
    | some y =>
      exact cuts_of_replaceIfExists hfirst (by decide) (.inr (by decide))
    | none =>
      cases hsecond : replaceIfExists word (str "eed") (str "ee") startR1 with
      | some y =>
        exact cuts_of_replaceIfExists hsecond (by decide) (.inr (by decide))
      | none => exact .mono (Nat.zero_le 1) word
  split
  · exact .mono (Nat.zero_le 1) word
  · rename_i y hdeleted
    -- At least two letters are deleted, and one at most comes back.
    obtain ⟨n, rfl, hpos, hlen⟩ : ∃ n, y = word.take n ∧ 0 < n ∧ n + 2 ≤ word.length := by
      have hcases : ∃ suffix : Bytes, 2 ≤ suffix.length ∧
          deleteBehindVowel word suffix = some y := by
        simp only [Option.orElse_eq_orElse, Option.orElse_eq_or, Option.or_eq_some_iff] at hdeleted
        rcases hdeleted with h | ⟨-, h | ⟨-, h | ⟨-, h⟩⟩⟩
        · exact ⟨_, by decide, h⟩
        · exact ⟨_, by decide, h⟩
        · exact ⟨_, by decide, h⟩
        · exact ⟨_, by decide, h⟩
      obtain ⟨suffix, htwo, h⟩ := hcases
      obtain ⟨n, hy, hpos, hlen⟩ := deleteBehindVowel_eq_some h
      exact ⟨n, hy, hpos, by omega⟩
    have hback : Cuts 0 1 word (word.take n ++ str "e") :=
      .replace hpos (by omega) (by decide) (by
        rw [show (str "e").length = 1 from by decide]
        omega)
    split
    · exact hback
    split
    · rename_i hdouble
      have htwo : 2 ≤ (word.take n).length := by
        unfold endsInDouble at hdouble
        split at hdouble
        · rename_i hrev
          rw [← List.length_reverse, hrev, List.length_cons, List.length_cons]
          omega
        · cases hdouble
      rw [subSize_of_le (by omega)]
      exact (Cuts.take (Nat.zero_le 1) hpos).trans (.take (Nat.le_refl 1) (by omega))
    split
    · exact hback
    · exact .take (Nat.zero_le 1) hpos

theorem cuts_step1C (word : Bytes) : Cuts 1 1 word (step1C word) := by
  unfold step1C
  split
  · rename_i last before third rest hrev
    have hlen : 3 ≤ word.length := by
      rw [← List.length_reverse, hrev]
      simp
    split
    · have hone : (str "i").length = 1 := by decide
      exact .replace (by omega) (by omega) hone.le (by omega)
    · exact .refl 1 word
  · exact .refl 1 word

theorem cuts_step2 (word : Bytes) {startR1 : Nat} (hpos : 0 < startR1) :
    Cuts 1 2 word (step2 word startR1) := by
  unfold step2
  split
  · rename_i y hy
    exact cuts_of_replaceFirst hy (by decide) hpos
  split
  · rename_i y hy
    exact cuts_of_replaceIfExists hy (by decide) (.inr (by decide))
  split
  · rename_i hcond
    simp only [Bool.and_eq_true, decide_eq_true_eq] at hcond
    obtain ⟨⟨⟨-, hlen⟩, -⟩, -⟩ := hcond
    rw [subSize_of_le (by omega)]
    exact .take (Nat.le_succ 1) (by omega)
  · exact .mono (Nat.le_succ 1) word

theorem cuts_step3 (word : Bytes) {startR1 startR2 : Nat} (hpos₁ : 0 < startR1)
    (hpos₂ : 0 < startR2) : Cuts 2 2 word (step3 word startR1 startR2) := by
  apply Cuts.getD (Nat.le_refl 2)
  intro y h
  simp only [Option.orElse_eq_orElse, Option.orElse_eq_or, Option.or_eq_some_iff] at h
  rcases h with h | ⟨-, h⟩
  · exact cuts_of_replaceFirst h (by decide) hpos₁
  · exact cuts_of_replaceIfExists h (by decide) (.inl hpos₂)

theorem cuts_step4 (word : Bytes) {startR2 : Nat} (hpos : 0 < startR2) :
    Cuts 2 2 word (step4 word startR2) := by
  apply Cuts.getD (Nat.le_refl 2)
  intro y h
  simp only [Option.orElse_eq_orElse, Option.orElse_eq_or, Option.or_eq_some_iff] at h
  rcases h with h | ⟨-, h | ⟨-, h | ⟨-, h⟩⟩⟩
  · exact cuts_of_replaceFirst h (by decide) hpos
  · split at h
    · cases h
    · exact cuts_of_replaceIfExists h (by decide) (.inl hpos)
  · exact cuts_of_replaceIfExists h (by decide) (.inr (by decide))
  · exact cuts_of_replaceIfExists h (by decide) (.inr (by decide))

/-- **The last step needs a last letter.** -/
theorem step5_cases (word : Bytes) {startR1 startR2 : Nat} (hpos₁ : 0 < startR1)
    (hpos₂ : 0 < startR2) :
    (word = [] ∧ step5 word startR1 startR2 = none) ∨
      ∃ y, step5 word startR1 startR2 = some y ∧ Cuts 2 2 word y := by
  rcases List.eq_nil_or_concat word with rfl | ⟨front, last, rfl⟩
  · exact .inl ⟨rfl, rfl⟩
  right
  rw [List.concat_eq_append]
  have hlen : (front ++ [last]).length = front.length + 1 := by simp
  have hlast : (front ++ [last])[front.length]? = some last := by simp
  have hcut : subSize (front.length + 1) 1 = front.length := subSize_of_le (Nat.le_add_left 1 _)
  -- What is cut off is behind a region, so something stays.
  have htake : ∀ start, 0 < start → start ≤ front.length →
      Cuts 2 2 (front ++ [last]) ((front ++ [last]).take front.length) :=
    fun start hpos hle => .take (Nat.le_refl 2) (hpos.trans_le hle)
  simp only [step5, hlen, hcut, hlast, Option.bind_eq_bind, Option.bind_some]
  split
  · split
    · rename_i hle
      exact ⟨_, rfl, htake _ hpos₂ hle⟩
    split
    · rename_i hcond
      rw [Bool.and_eq_true, decide_eq_true_eq] at hcond
      exact ⟨_, rfl, htake _ hpos₁ hcond.1⟩
    · exact ⟨_, rfl, .refl 2 _⟩
  split
  · rename_i hcond
    rw [Bool.and_eq_true, decide_eq_true_eq] at hcond
    have hfront : 0 < front.length := hpos₂.trans_le hcond.2
    have hbefore : ∃ b, (front ++ [last])[subSize (front.length + 1) 2]? = some b := by
      rw [subSize_of_le (by omega)]
      exact ⟨_, List.getElem?_eq_getElem (by rw [hlen]; omega)⟩
    obtain ⟨b, hb⟩ := hbefore
    rw [hb, Option.bind_some]
    split
    · exact ⟨_, rfl, htake _ hpos₂ hcond.2⟩
    · exact ⟨_, rfl, .refl 2 _⟩
  · exact ⟨_, rfl, .refl 2 _⟩

theorem firstNonVowelAfterVowel_pos {word : Bytes} (hne : word ≠ []) (start : Nat) :
    0 < firstNonVowelAfterVowel word start := by
  unfold firstNonVowelAfterVowel
  have hpos := List.length_pos_iff.mpr hne
  split
  · exact hpos
  · generalize List.find? _ _ = found
    cases found with
    | none => exact hpos
    | some i => exact Nat.succ_pos i

theorem getStartR1_pos {word : Bytes} (hne : word ≠ []) : 0 < getStartR1 word := by
  unfold getStartR1
  repeat' split
  · exact Nat.succ_pos _
  · exact Nat.succ_pos _
  · exact Nat.succ_pos _
  · exact firstNonVowelAfterVowel_pos hne 1

theorem getStartR2_pos {word : Bytes} (hne : word ≠ []) {startR1 : Nat} (hpos : 0 < startR1) :
    0 < getStartR2 word startR1 := by
  unfold getStartR2
  split
  · exact hpos
  · exact firstNonVowelAfterVowel_pos hne _

/-! ## The letter `Y` -/

theorem lowerYs_eq {word : Bytes} (h : upperY ∉ word) : lowerYs word = word := by
  refine (List.map_congr_left fun ch hch => ?_).trans (List.map_id word)
  apply if_neg
  intro heq
  rw [beq_iff_eq] at heq
  exact h (heq ▸ hch)

theorem upperY_notMem_lowerYs (word : Bytes) : upperY ∉ lowerYs word := by
  intro h
  obtain ⟨ch, -, hch⟩ := List.mem_map.mp h
  split at hch
  · exact absurd hch (by decide)
  · rename_i hne
    exact hne (beq_iff_eq.mpr hch)

theorem lowerYs_changeYFrom (prev : UInt8) (word : Bytes) :
    lowerYs (changeYFrom prev word) = lowerYs word := by
  fun_induction changeYFrom prev word with
  | case1 => rfl
  | case2 prev ch =>
    split
    · rename_i hcond
      rw [Bool.and_eq_true, beq_iff_eq] at hcond
      rw [hcond.1]
      rfl
    · rfl
  | case3 prev ch next rest hcond ih =>
    rw [Bool.and_eq_true, beq_iff_eq] at hcond
    rw [hcond.1]
    show _ :: _ :: lowerYs (changeYFrom next rest) = _ :: _ :: lowerYs rest
    rw [ih]
    rfl
  | case4 prev ch next rest hcond ih =>
    show _ :: lowerYs (changeYFrom ch (next :: rest)) = _ :: lowerYs (next :: rest)
    rw [ih]

theorem lowerYs_changeY (word : Bytes) : lowerYs (changeY word) = lowerYs word := by
  unfold changeY
  split
  · cases word with
    | nil => rfl
    | cons first rest =>
      show _ :: lowerYs (changeYFrom _ rest) = _ :: lowerYs rest
      rw [lowerYs_changeYFrom]
      congr 1
      cases hfirst : first == lowerY with
      | true =>
        rw [beq_iff_eq.mp hfirst]
        rfl
      | false => rfl
  · rfl

@[simp] theorem length_lowerYs (word : Bytes) : (lowerYs word).length = word.length :=
  List.length_map _

theorem length_changeY (word : Bytes) : (changeY word).length = word.length := by
  rw [← length_lowerYs (changeY word), lowerYs_changeY, length_lowerYs]

theorem Stemmed.lowerYs {k : Nat} {w x : Bytes} (h : Stemmed k w x) :
    Stemmed k (Porter2Stemmer.lowerYs w) (Porter2Stemmer.lowerYs x) := by
  obtain ⟨p, e, rfl, hp, he⟩ := h
  exact ⟨_, _, List.map_append, hp.map _, (length_lowerYs e).trans_le he⟩

/-! ## Words that nothing is left of -/

theorem take_of_replaceIfExists {word suffix y : Bytes}
    (h : replaceIfExists word suffix [] 0 = some y) :
    y = word.take (word.length - suffix.length) ∧ (y = [] → word = suffix) := by
  obtain ⟨hsuffix, -, hy⟩ := replaceIfExists_eq_some h
  rw [List.append_nil] at hy
  refine ⟨hy, fun hnil => (hsuffix.eq_of_length_le ?_).symm⟩
  rw [hnil, eq_comm, List.take_eq_nil_iff] at hy
  rcases hy with hzero | rfl
  · exact Nat.le_of_sub_eq_zero hzero
  · exact Nat.zero_le _

/-- The words that `step0` takes off as a whole. -/
def quoteSuffixes : List Bytes := ["'s'", "'s", "'"].map str

theorem step0_spec (word : Bytes) : (∃ n, step0 word = word.take n) ∧
    (step0 word = [] ↔ word = [] ∨ word ∈ quoteSuffixes) := by
  have hfound : ∀ y, (replaceIfExists word (str "'s'") [] 0 <|>
      replaceIfExists word (str "'s") [] 0 <|> replaceIfExists word (str "'") [] 0) = some y →
      (∃ n, y = word.take n) ∧ (y = [] → word ∈ quoteSuffixes) := by
    intro y h
    simp only [Option.orElse_eq_orElse, Option.orElse_eq_or, Option.or_eq_some_iff] at h
    rcases h with h | ⟨-, h | ⟨-, h⟩⟩
    · obtain ⟨hy, hword⟩ := take_of_replaceIfExists h
      exact ⟨⟨_, hy⟩, fun hnil => hword hnil ▸ by decide⟩
    · obtain ⟨hy, hword⟩ := take_of_replaceIfExists h
      exact ⟨⟨_, hy⟩, fun hnil => hword hnil ▸ by decide⟩
    · obtain ⟨hy, hword⟩ := take_of_replaceIfExists h
      exact ⟨⟨_, hy⟩, fun hnil => hword hnil ▸ by decide⟩
  have hquotes : ∀ quotes ∈ quoteSuffixes, step0 quotes = [] := by decide
  have hforth : (∃ n, step0 word = word.take n) ∧
      (step0 word = [] → word = [] ∨ word ∈ quoteSuffixes) := by
    unfold step0
    generalize (_ <|> _ : Option Bytes) = found at hfound ⊢
    cases found with
    | some y => exact ⟨(hfound y rfl).1, fun hnil => .inr ((hfound y rfl).2 hnil)⟩
    | none => exact ⟨⟨word.length, List.take_length.symm⟩, .inl⟩
  refine ⟨hforth.1, hforth.2, ?_⟩
  rintro (rfl | hword)
  · rfl
  · exact hquotes word hword

theorem changeY_quoteSuffixes {word : Bytes} (h : changeY word ∈ quoteSuffixes) :
    word ∈ quoteSuffixes := by
  -- There is no `y` in any of them.
  have hfix : ∀ w ∈ quoteSuffixes, lowerYs w = w ∧ lowerY ∉ w := by decide
  obtain ⟨hlower, hnone⟩ := hfix _ h
  have heq : lowerYs word = changeY word := by rw [← lowerYs_changeY, hlower]
  have hword : lowerYs word = word := by
    apply lowerYs_eq
    intro hmem
    exact hnone (heq ▸ List.mem_map.mpr ⟨upperY, hmem, rfl⟩)
  rwa [← heq, hword] at h

/-- **The steps**, from a word that is not taken off as a whole. -/
theorem runSteps_eq {word : Bytes} (hne : word ≠ []) (hquotes : word ∉ quoteSuffixes) :
    ∃ y, runSteps word = some (lowerYs y) ∧ y ≠ [] ∧ y.length ≤ word.length ∧
      Stemmed 2 (changeY word) y := by
  have hY : changeY word ≠ [] := by
    rw [← List.length_pos_iff, length_changeY]
    exact List.length_pos_iff.mpr hne
  obtain ⟨⟨n, hn⟩, hempty⟩ := step0_spec (changeY word)
  have hsome : step0 (changeY word) ≠ [] := by
    rw [Ne, hempty, not_or]
    exact ⟨hY, fun h => hquotes (changeY_quoteSuffixes h)⟩
  have hstart : Stemmed 0 (changeY word) (step0 (changeY word)) :=
    hn ▸ (Stemmed.refl 0 (changeY word)).take n
  have hlen : (step0 (changeY word)).length ≤ word.length := by
    rw [hn, ← length_changeY word]
    exact List.length_take_le' _ _
  have hpos₁ := getStartR1_pos hY
  have hpos₂ := getStartR2_pos hY hpos₁
  have hcuts₁ := cuts_step1A (step0 (changeY word))
  simp only [runSteps, Option.bind_eq_bind, Option.pure_def]
  split
  · exact ⟨_, rfl, hcuts₁.ne_nil hsome, hcuts₁.length.trans hlen,
      (hcuts₁.stemmed _ hstart).mono (Nat.zero_le 2)⟩
  · generalize hword : (step1A (step0 (changeY word))).1 = word₁ at hcuts₁ ⊢
    have hcuts := ((((hcuts₁.trans (cuts_step1B word₁ (getStartR1 (changeY word)))).trans
      (cuts_step1C _)).trans (cuts_step2 _ hpos₁)).trans (cuts_step3 _ hpos₁ hpos₂)).trans
      (cuts_step4 _ hpos₂)
    rcases step5_cases _ hpos₁ hpos₂ with ⟨hnil, -⟩ | ⟨y, hy, hcuts₅⟩
    · exact absurd hnil (hcuts.ne_nil hsome)
    · have hall := hcuts.trans hcuts₅
      rw [hy]
      exact ⟨y, rfl, hall.ne_nil hsome, hall.length.trans hlen, hall.stemmed _ hstart⟩

/-! ## Stems -/

theorem special_spec {word y : Bytes} (h : special word = some y) :
    y ≠ [] ∧ y.length ≤ word.length ∧ upperY ∉ y ∧ Stemmed 2 (lowerYs word) y := by
  unfold special at h
  split at h
  · rename_i stem hlookup
    have htable : ∀ entry ∈ exceptions, entry.2 ≠ [] ∧ entry.2.length ≤ entry.1.length ∧
        upperY ∉ entry.2 ∧ lowerYs entry.1 = entry.1 ∧
        entry.2.length ≤ common entry.1 entry.2 + 2 := by
      decide
    cases h
    have hmem : (word, y) ∈ exceptions := by
      obtain ⟨l₁, l₂, heq, -⟩ := List.lookup_eq_some_iff.mp hlookup
      rw [heq]
      simp
    obtain ⟨hne, hlen, hY, hlower, hcommon⟩ := htable _ hmem
    refine ⟨hne, hlen, hY, word.take (common word y), y.drop (common word y),
      (common_spec word y).1, ?_, ?_⟩
    · rw [show lowerYs word = word from hlower]
      exact List.take_prefix _ _
    · have hdrop : y.length ≤ common word y + 2 := hcommon
      rw [List.length_drop]
      omega
  · split at h
    · rename_i hmem
      have htable : ∀ w ∈ invariants, w ≠ [] ∧ upperY ∉ w ∧ lowerYs w = w := by decide
      cases h
      obtain ⟨hne, hY, hlower⟩ := htable word (List.contains_iff_mem.mp hmem)
      exact ⟨hne, Nat.le_refl _, hY, hlower.symm ▸ .refl 2 word⟩
    · cases h

/-- **A stem**: the front of the word in lower case, and at most two letters. -/
structure StemOf (word out : Bytes) : Prop where
  stemmed : Stemmed 2 (lowerYs (unquote (word.take 35))) out
  ne_nil : word ≠ [] → out ≠ []
  length : out.length ≤ word.length ∧ out.length ≤ 35
  noUpperY : upperY ∈ out → word.length ≤ 2

theorem stem_of_short {word : Bytes} (h : word.length ≤ 2) :
    stem word = some word ∧ StemOf word word := by
  constructor
  · simp [stem, h]
  · exact ⟨⟨[], word, rfl, List.nil_prefix, h⟩, id, ⟨Nat.le_refl _, by omega⟩, fun _ => h⟩

theorem length_unquote_le (word : Bytes) : (unquote word).length ≤ word.length := by
  unfold unquote
  split
  · exact (List.drop_sublist 1 word).length_le
  · exact Nat.le_refl _

/-- Words of more than two letters that are not tags. -/
theorem stem_of_long {word : Bytes} (hlen : 2 < word.length)
    (htag : word ∉ ["<s>", "</s>"].map str) :
    stem word = match special (unquote (word.take 35)) with
      | some out => some out
      | none => runSteps (unquote (word.take 35)) := by
  have hnot : ¬ (word.length ≤ 2 || word == str "<s>" || word == str "</s>") = true := by
    simpa [Nat.not_le.mpr hlen] using htag
  rw [stem, if_neg hnot]
  have htake : (if 35 < word.length then word.take 35 else word) = word.take 35 := by
    split
    · rfl
    · exact (List.take_of_length_le (by omega)).symm
  rw [htake]

/-- The two words: a quote, and one that is taken off as a whole. -/
def lostWords : List Bytes := ["''s", "''s'"].map str

theorem unquote_mem_quoteSuffixes {word : Bytes} (hlen : 2 < word.length) :
    unquote (word.take 35) ∈ quoteSuffixes ↔ word ∈ lostWords := by
  have hback : ∀ w ∈ lostWords, unquote (w.take 35) ∈ quoteSuffixes := by decide
  refine ⟨fun h => ?_, hback word⟩
  have hquotes : ∀ w ∈ quoteSuffixes, w.length ≤ 3 ∧ w.head? = some 39 ∧
      (2 < (39 :: w).length → (39 :: w) ∈ lostWords) := by decide
  obtain ⟨hshort, hhead, hword⟩ := hquotes _ h
  unfold unquote at h hshort hhead hword
  split at h
  -- The quote that is taken off first.
  · rename_i hfirst
    rw [if_pos hfirst] at hshort hword
    rw [beq_iff_eq] at hfirst
    have hcons : word.take 35 = 39 :: (word.take 35).drop 1 := by
      cases htake : word.take 35 with
      | nil => rw [htake] at hfirst; cases hfirst
      | cons ch rest => rw [htake] at hfirst; cases hfirst; rfl
    have hle : word.length ≤ 35 := by
      have hlength := congrArg List.length hcons
      rw [List.length_take, List.length_cons] at hlength
      omega
    rw [← hcons, List.take_of_length_le hle] at hword
    exact hword hlen
  · rename_i hfirst
    rw [if_neg hfirst] at hhead
    exact absurd (beq_iff_eq.mpr hhead) hfirst

theorem unquote_ne_nil {word : Bytes} (hlen : 2 < word.length) : unquote (word.take 35) ≠ [] := by
  unfold unquote
  split
  · rw [Ne, List.drop_eq_nil_iff, List.length_take]
    omega
  · rw [Ne, List.take_eq_nil_iff, not_or]
    exact ⟨by decide, List.ne_nil_of_length_pos (by omega)⟩

/-- A word is one of the two, or it has a stem. -/
theorem stem_cases (word : Bytes) :
    (word ∈ lostWords ∧ stem word = none) ∨
      (word ∉ lostWords ∧ ∃ out, stem word = some out ∧ StemOf word out) := by
  rcases Nat.lt_or_ge 2 word.length with hlen | hshort
  · by_cases htag : word ∈ ["<s>", "</s>"].map str
    · have htags : ∀ w ∈ ["<s>", "</s>"].map str, stem w = some w ∧ w ∉ lostWords ∧
          lowerYs (unquote (w.take 35)) = w ∧ w ≠ [] ∧ w.length ≤ 35 ∧ upperY ∉ w := by
        decide
      obtain ⟨hstem, hlost, hlower, hne, h35, hY⟩ := htags word htag
      exact .inr ⟨hlost, word, hstem, by rw [hlower]; exact .refl 2 word, fun _ => hne,
        ⟨Nat.le_refl _, h35⟩, fun h => absurd h hY⟩
    · have hne := unquote_ne_nil hlen
      have hcut : (unquote (word.take 35)).length ≤ min 35 word.length :=
        (length_unquote_le _).trans (List.length_take ..).le
      rw [stem_of_long hlen htag, ← unquote_mem_quoteSuffixes hlen]
      split
      · rename_i y hspecial
        obtain ⟨hy, hylen, hY, hstemmed⟩ := special_spec hspecial
        have hnone : unquote (word.take 35) ∉ quoteSuffixes := by
          intro hmem
          have htable : ∀ w ∈ quoteSuffixes, special w = none := by decide
          rw [htable _ hmem] at hspecial
          cases hspecial
        exact .inr ⟨hnone, y, rfl, hstemmed, fun _ => hy, by omega, fun h => absurd h hY⟩
      · by_cases hquotes : unquote (word.take 35) ∈ quoteSuffixes
        · have htable : ∀ w ∈ quoteSuffixes, runSteps w = none := by decide
          exact .inl ⟨hquotes, htable _ hquotes⟩
        · obtain ⟨y, hrun, hy, hylen, hstemmed⟩ := runSteps_eq hne hquotes
          refine .inr ⟨hquotes, lowerYs y, hrun, ?_, fun _ => ?_, ?_,
            fun h => absurd h (upperY_notMem_lowerYs y)⟩
          · rw [← lowerYs_changeY]
            exact hstemmed.lowerYs
          · rw [← List.length_pos_iff, length_lowerYs]
            exact List.length_pos_iff.mpr hy
          · rw [length_lowerYs]
            omega
  · obtain ⟨hstem, hword⟩ := stem_of_short hshort
    refine .inr ⟨fun hlost => ?_, word, hstem, hword⟩
    have hlong : ∀ w ∈ lostWords, 2 < w.length := by decide
    exact absurd (hlong word hlost) (Nat.not_lt.mpr hshort)

/-- There are two words that the stemmer reads in front of. -/
theorem stem_eq_none_iff (word : Bytes) : stem word = none ↔ word ∈ lostWords := by
  rcases stem_cases word with ⟨hlost, hnone⟩ | ⟨hnot, out, hsome, -⟩
  · exact iff_of_true hnone hlost
  · exact iff_of_false (hsome ▸ Option.some_ne_none out) hnot

/-- **The stemmer**: of every word but these two it returns a stem. -/
theorem stem_correct (word : Bytes) :
    (stem word = none ↔ word ∈ lostWords) ∧ ∀ out, stem word = some out → StemOf word out := by
  refine ⟨stem_eq_none_iff word, fun out hout => ?_⟩
  rcases stem_cases word with ⟨-, hnone⟩ | ⟨-, out', hsome, hstem⟩
  · rw [hout] at hnone
    cases hnone
  · rw [hout, Option.some.injEq] at hsome
    exact hsome ▸ hstem

/-! ## Words of another alphabet -/

/-- No letter of the word is ASCII. -/
def Foreign (word : Bytes) : Prop := ∀ ch ∈ word, 128 ≤ ch

/-- Some letter is. -/
def HasAscii (word : Bytes) : Prop := ∃ ch ∈ word, ch < 128

instance (word : Bytes) : Decidable (HasAscii word) := by unfold HasAscii; infer_instance

theorem Foreign.ne {word s : Bytes} (h : Foreign word) (hs : HasAscii s) : word ≠ s := by
  rintro rfl
  obtain ⟨ch, hmem, hlt⟩ := hs
  exact absurd (h ch hmem) (UInt8.not_le.mpr hlt)

theorem Foreign.endsWith {word suffix : Bytes} (h : Foreign word) (hs : HasAscii suffix) :
    endsWith word suffix = false := by
  rw [Bool.eq_false_iff, Ne, endsWith_iff]
  intro hsuffix
  obtain ⟨ch, hmem, hlt⟩ := hs
  exact absurd (h ch (hsuffix.subset hmem)) (UInt8.not_le.mpr hlt)

theorem Foreign.replaceIfExists {word suffix : Bytes} (h : Foreign word) (hs : HasAscii suffix)
    (replacement : Bytes) (start : Nat) :
    replaceIfExists word suffix replacement start = none := by
  cases hfound : Porter2Stemmer.replaceIfExists word suffix replacement start with
  | none => rfl
  | some y =>
    have hsuffix := (replaceIfExists_eq_some hfound).1
    have hnot := h.endsWith hs
    rw [endsWith_iff.mpr hsuffix] at hnot
    cases hnot

theorem Foreign.replaceFirst {word : Bytes} (h : Foreign word) {subs : List (Bytes × Bytes)}
    (hs : ∀ sub ∈ subs, HasAscii sub.1) (start : Nat) : replaceFirst subs word start = none := by
  rw [Porter2Stemmer.replaceFirst, List.findSome?_eq_none_iff]
  exact fun sub hsub => h.replaceIfExists (hs sub hsub) _ _

theorem Foreign.last_ne {word : Bytes} (h : Foreign word) {i : Nat} {ch letter : UInt8}
    (hch : word[i]? = some ch) (hletter : letter < 128) : (ch == letter) = false := by
  rw [beq_eq_false_iff_ne]
  rintro rfl
  exact absurd (h ch (List.mem_of_getElem? hch)) (UInt8.not_le.mpr hletter)

theorem Foreign.changeY {word : Bytes} (h : Foreign word) : changeY word = word := by
  apply if_neg
  rw [List.contains_iff_mem]
  exact fun hmem => absurd (h _ hmem) (by decide)

theorem Foreign.lowerYs {word : Bytes} (h : Foreign word) : lowerYs word = word :=
  lowerYs_eq fun hmem => absurd (h _ hmem) (by decide)

theorem Foreign.step0 {word : Bytes} (h : Foreign word) : step0 word = word := by
  simp only [Porter2Stemmer.step0, h.replaceIfExists (by decide : HasAscii (str "'s'")),
    h.replaceIfExists (by decide : HasAscii (str "'s")),
    h.replaceIfExists (by decide : HasAscii (str "'"))]
  rfl

theorem Foreign.step1A {word : Bytes} (h : Foreign word) : step1A word = (word, false) := by
  have hstop : (["inning", "outing", "canning", "herring", "earring", "proceed", "exceed",
      "succeed"].map str).contains word = false := by
    have hall : ∀ w ∈ ["inning", "outing", "canning", "herring", "earring", "proceed", "exceed",
        "succeed"].map str, HasAscii w := by decide
    rw [Bool.eq_false_iff, Ne, List.contains_iff_mem]
    exact fun hmem => h.ne (hall word hmem) rfl
  simp only [Porter2Stemmer.step1A, h.replaceIfExists (by decide : HasAscii (str "sses")),
    h.endsWith (by decide : HasAscii (str "ied")),
    h.endsWith (by decide : HasAscii (str "ies")),
    h.endsWith (by decide : HasAscii (str "s")), Bool.false_and, Bool.or_self,
    Bool.false_eq_true, if_false, hstop]

theorem Foreign.deleteBehindVowel {word suffix : Bytes} (h : Foreign word)
    (hs : HasAscii suffix) : deleteBehindVowel word suffix = none := by
  unfold Porter2Stemmer.deleteBehindVowel
  split
  · exact h.replaceIfExists hs _ _
  · rfl

theorem Foreign.step1B {word : Bytes} (h : Foreign word) (startR1 : Nat) :
    step1B word startR1 = word := by
  simp only [Porter2Stemmer.step1B, h.endsWith (by decide : HasAscii (str "eedly")),
    h.endsWith (by decide : HasAscii (str "eed")), Bool.or_self, Bool.false_eq_true,
    if_false, h.deleteBehindVowel (by decide : HasAscii (str "ed")),
    h.deleteBehindVowel (by decide : HasAscii (str "edly")),
    h.deleteBehindVowel (by decide : HasAscii (str "ing")),
    h.deleteBehindVowel (by decide : HasAscii (str "ingly"))]
  rfl

theorem Foreign.step1C {word : Bytes} (h : Foreign word) : step1C word = word := by
  unfold Porter2Stemmer.step1C
  split
  · rename_i last before third rest hrev
    have hlast : last ∈ word := by
      rw [← List.mem_reverse, hrev]
      exact List.mem_cons_self
    obtain ⟨i, hi⟩ := List.getElem?_of_mem hlast
    rw [h.last_ne hi (by decide), h.last_ne hi (by decide)]
    rfl
  · rfl

theorem Foreign.step2 {word : Bytes} (h : Foreign word) (startR1 : Nat) :
    step2 word startR1 = word := by
  simp only [Porter2Stemmer.step2,
    h.replaceFirst (by decide : ∀ sub ∈ step2Subs, HasAscii sub.1),
    h.replaceIfExists (by decide : HasAscii (str "logi")),
    h.endsWith (by decide : HasAscii (str "li")), Bool.false_and, Bool.false_eq_true,
    if_false]

theorem Foreign.step3 {word : Bytes} (h : Foreign word) (startR1 startR2 : Nat) :
    step3 word startR1 startR2 = word := by
  simp only [Porter2Stemmer.step3,
    h.replaceFirst (by decide : ∀ sub ∈ step3Subs, HasAscii sub.1),
    h.replaceIfExists (by decide : HasAscii (str "ative"))]
  rfl

theorem Foreign.step4 {word : Bytes} (h : Foreign word) (startR2 : Nat) :
    step4 word startR2 = word := by
  simp only [Porter2Stemmer.step4,
    h.replaceFirst (by decide : ∀ sub ∈ step4Subs, HasAscii sub.1),
    h.replaceIfExists (by decide : HasAscii (str "ent")),
    h.replaceIfExists (by decide : HasAscii (str "sion")),
    h.replaceIfExists (by decide : HasAscii (str "tion")), ite_self]
  rfl

theorem Foreign.step5 {word : Bytes} (h : Foreign word) (hne : word ≠ [])
    (startR1 startR2 : Nat) : step5 word startR1 startR2 = some word := by
  have hlt : subSize word.length 1 < word.length := by
    have hpos := List.length_pos_iff.mpr hne
    rw [subSize_of_le hpos]
    omega
  have hlast := List.getElem?_eq_getElem hlt
  simp only [Porter2Stemmer.step5, hlast, Option.bind_eq_bind, Option.bind_some,
    h.last_ne hlast (by decide : (101 : UInt8) < 128),
    h.last_ne hlast (by decide : (108 : UInt8) < 128), Bool.false_and, Bool.false_eq_true,
    if_false, Option.pure_def]

/-- No step applies. -/
theorem Foreign.runSteps {word : Bytes} (h : Foreign word) (hne : word ≠ []) :
    runSteps word = some word := by
  simp only [Porter2Stemmer.runSteps, h.changeY, h.step0, h.step1A, h.step1B, h.step1C, h.step2,
    h.step3, h.step4, h.step5 hne, h.lowerYs, Option.bind_eq_bind, Option.bind_some,
    Bool.false_eq_true, if_false, Option.pure_def]

/-- **A word of another alphabet** is cut behind 35 bytes, and nothing else. -/
theorem Foreign.stem {word : Bytes} (h : Foreign word) : stem word = some (word.take 35) := by
  rcases Nat.lt_or_ge 2 word.length with hlen | hshort
  · have htag : word ∉ ["<s>", "</s>"].map str := by
      have hall : ∀ w ∈ ["<s>", "</s>"].map str, HasAscii w := by decide
      exact fun hmem => h.ne (hall word hmem) rfl
    have htake : Foreign (word.take 35) := fun ch hch => h ch (List.mem_of_mem_take hch)
    have hne : word.take 35 ≠ [] := by
      rw [Ne, List.take_eq_nil_iff, not_or]
      exact ⟨by decide, List.ne_nil_of_length_pos (by omega)⟩
    have hunquote : unquote (word.take 35) = word.take 35 := by
      apply if_neg
      rw [beq_iff_eq]
      intro hhead
      exact absurd (htake 39 (List.mem_of_mem_head? hhead)) (by decide)
    have hspecial : special (word.take 35) = none := by
      have hkeys : ∀ entry ∈ exceptions, HasAscii entry.1 := by decide
      have hinvariants : ∀ w ∈ invariants, HasAscii w := by decide
      have hlookup : exceptions.lookup (word.take 35) = none := by
        rw [List.lookup_eq_none_iff]
        exact fun entry hentry => bne_iff_ne.mpr (htake.ne (hkeys entry hentry))
      have hcontains : ¬ invariants.contains (word.take 35) = true := by
        rw [List.contains_iff_mem]
        exact fun hmem => htake.ne (hinvariants _ hmem) rfl
      rw [special, hlookup]
      exact if_neg hcontains
    rw [stem_of_long hlen htag, hunquote, hspecial]
    exact htake.runSteps hne
  · rw [(stem_of_short hshort).1, List.take_of_length_le (by omega)]

/-- **Words of two-byte letters**, such as Cyrillic ones: up to 17 letters they stay as they are,
and a longer one is cut in the middle of its letter 18, so that what is left is not UTF-8. -/
theorem stem_twoByte (s : List Char) (h : ∀ ch ∈ s, TwoByte ch) :
    (s.length ≤ 17 → stem (utf8 s) = some (utf8 s)) ∧
      (17 < s.length → ∃ out, stem (utf8 s) = some out ∧ ∀ t, utf8 t ≠ out) := by
  have hforeign : Foreign (utf8 s) := by
    intro b hb
    obtain ⟨ch, hch, hb⟩ := List.mem_flatMap.mp hb
    exact le_of_mem_utf8EncodeChar (h ch hch) hb
  have hlen := length_utf8_twoByte h
  constructor
  · intro hshort
    rw [hforeign.stem, List.take_of_length_le (by omega)]
  · intro hlong
    refine ⟨_, hforeign.stem, fun t ht => ?_⟩
    have hall := twoByte_of_utf8_take h ht
    have hodd := congrArg List.length ht
    rw [length_utf8_twoByte hall, List.length_take, hlen] at hodd
    omega

/-- The word of eighteen letters `я`. -/
theorem stem_twoByte_ya : ∃ out,
    stem (utf8 (List.replicate 18 'я')) = some out ∧ ∀ t, utf8 t ≠ out :=
  (stem_twoByte (List.replicate 18 'я') fun ch hch => by
    rw [List.eq_of_mem_replicate hch]
    decide).2 (by decide)

end Amigos.Porter2Stemmer
