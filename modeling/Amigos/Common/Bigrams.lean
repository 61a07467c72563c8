import Amigos.Common.Words
import Amigos.Lib.Utf8

/-!
# What a bigram tells, and whether there is room for it (`bigramer.cpp`, `normalizer.cpp`)

A bigram is built as a wide string and then encoded into as many bytes as the stop word has, and
six. As wide strings bigrams are unambiguous: an underscore in front, or one behind, tells the
side, a second one that the neighbour has one letter, and what is left behind the letters is the
stop word. A right bigram read backwards is a left one (`wideRBigram_reverse`), so what holds of
the left ones holds of both.
-/

set_option autoImplicit false

namespace Amigos.Common

open Amigos.Lib

/-! ## The wide strings -/

/-- The string `w_res` of `make_L_bigram`. -/
def wideLBigram (wLeftWord wWord : List UInt32) : List UInt32 :=
  let lWSize := wLeftWord.length
  if lWSize > 1 then [underscore] ++ wLeftWord.drop (lWSize - 2) ++ wWord
  else [underscore, underscore] ++ wLeftWord.drop (lWSize - 1) ++ wWord

/-- The string `w_res` of `make_R_bigram`. -/
def wideRBigram (wWord wRightWord : List UInt32) : List UInt32 :=
  let rWSize := wRightWord.length
  if rWSize > 1 then wWord ++ wRightWord.take 2 ++ [underscore]
  else wWord ++ wRightWord.drop (rWSize - 1) ++ [underscore, underscore]

theorem makeLBigram_eq (c : Codec) (leftWord word : Bytes) :
    makeLBigram c leftWord word =
      if (c.str2wstr leftWord).isEmpty || (c.str2wstr word).isEmpty then none
      else some (c.wstr2str (wideLBigram (c.str2wstr leftWord) (c.str2wstr word))
        (word.length + 6)) := rfl

theorem makeRBigram_eq (c : Codec) (word rightWord : Bytes) :
    makeRBigram c word rightWord =
      if (c.str2wstr rightWord).isEmpty || (c.str2wstr word).isEmpty then none
      else some (c.wstr2str (wideRBigram (c.str2wstr word) (c.str2wstr rightWord))
        (word.length + 6)) := rfl

/-- A word as a wide string: it has a letter, and no underscore, at which the tokenizer splits. -/
structure WideWord where
  letters : List UInt32
  ne_nil : letters ≠ []
  no_underscore : underscore ∉ letters

/-- The same word read backwards. -/
def WideWord.reverse (w : WideWord) : WideWord where
  letters := w.letters.reverse
  ne_nil h := w.ne_nil (List.reverse_eq_nil_iff.mp h)
  no_underscore h := w.no_underscore (List.mem_reverse.mp h)

/-- What a left bigram tells of the left word: the last two letters, or the only one. -/
def lastLetters (w : WideWord) : List UInt32 := w.letters.drop (w.letters.length - 2)

/-- What a right bigram tells of the right word: the first two letters, or the only one. -/
def firstLetters (w : WideWord) : List UInt32 := w.letters.take 2

/-- The underscores that say on which side the neighbour is, and whether it has one letter. -/
def mark (w : WideWord) : List UInt32 :=
  if w.letters.length = 1 then [underscore, underscore] else [underscore]

theorem wideLBigram_eq (left word : WideWord) :
    wideLBigram left.letters word.letters = mark left ++ lastLetters left ++ word.letters := by
  have hpos := List.length_pos_iff.mpr left.ne_nil
  unfold wideLBigram mark lastLetters
  by_cases hone : left.letters.length = 1
  · simp [hone]
  · have hmore : left.letters.length > 1 := by omega
    simp [hone, hmore]

/-- **A right bigram is a left one read backwards.** -/
theorem wideRBigram_reverse (word right : WideWord) :
    wideRBigram word.letters right.letters
      = (wideLBigram right.reverse.letters word.reverse.letters).reverse := by
  have hpos := List.length_pos_iff.mpr right.ne_nil
  unfold wideRBigram wideLBigram WideWord.reverse
  by_cases hone : right.letters.length = 1
  · simp [hone]
  · have hmore : right.letters.length > 1 := by omega
    have htake : right.letters.length - (right.letters.length - 2) = 2 := by omega
    simp [hmore, List.drop_reverse, htake]

/-! ## What a bigram tells -/

theorem lastLetters_ne_nil (w : WideWord) : lastLetters w ≠ [] := by
  have hpos := List.length_pos_iff.mpr w.ne_nil
  intro h
  have hlength := congrArg List.length h
  simp only [lastLetters, List.length_drop, List.length_nil] at hlength
  omega

theorem underscore_notMem_lastLetters (w : WideWord) : underscore ∉ lastLetters w :=
  fun h => w.no_underscore (List.mem_of_mem_drop h)

theorem length_lastLetters (w : WideWord) :
    (lastLetters w).length = if w.letters.length = 1 then 1 else 2 := by
  have hpos := List.length_pos_iff.mpr w.ne_nil
  simp only [lastLetters, List.length_drop]
  split <;> omega

theorem head?_wideLBigram (left word : WideWord) :
    (wideLBigram left.letters word.letters).head? = some underscore := by
  rw [wideLBigram_eq]
  unfold mark
  split <;> rfl

theorem getLast?_wideLBigram (left word : WideWord) :
    (wideLBigram left.letters word.letters).getLast? = word.letters.getLast? := by
  rw [wideLBigram_eq, List.getLast?_append_of_ne_nil _ word.ne_nil]

theorem wideLBigram_ne_word (left word other : WideWord) :
    wideLBigram left.letters word.letters ≠ other.letters := by
  intro h
  apply other.no_underscore
  rw [← h]
  exact List.mem_of_mem_head? (head?_wideLBigram left word)

theorem wideLBigram_ne_wideRBigram (left word word' right : WideWord) :
    wideLBigram left.letters word.letters ≠ wideRBigram word'.letters right.letters := by
  intro h
  -- The last letter of a left bigram is one of the stop word's.
  have hlast : word.letters.getLast? = some underscore := by
    rw [← getLast?_wideLBigram left word, h, wideRBigram_reverse, List.getLast?_reverse]
    exact head?_wideLBigram right.reverse word'.reverse
  exact word.no_underscore (List.mem_of_getLast? hlast)

/-- The letters behind the mark begin with no underscore. -/
theorem lastLetters_append_ne (w : WideWord) (rest tail : List UInt32) :
    lastLetters w ++ rest ≠ underscore :: tail := by
  intro h
  obtain ⟨letter, letters, hletters⟩ := List.exists_cons_of_ne_nil (lastLetters_ne_nil w)
  rw [hletters, List.cons_append, List.cons.injEq] at h
  apply underscore_notMem_lastLetters w
  rw [hletters, h.1]
  exact List.mem_cons_self

/-- **The mark is read back**, then the letters, and then what stands behind them. -/
theorem mark_append_inj {left left' : WideWord} {rest rest' : List UInt32}
    (h : mark left ++ lastLetters left ++ rest = mark left' ++ lastLetters left' ++ rest') :
    (left.letters.length = 1 ↔ left'.letters.length = 1) ∧
      lastLetters left = lastLetters left' ∧ rest = rest' := by
  have hone : left.letters.length = 1 ↔ left'.letters.length = 1 := by
    by_cases hleft : left.letters.length = 1 <;> by_cases hleft' : left'.letters.length = 1
    · simp only [hleft, hleft']
    · simp only [mark, hleft, hleft', if_true, if_false, List.cons_append, List.nil_append,
        List.cons.injEq, true_and] at h
      exact absurd h.symm (lastLetters_append_ne left' rest' _)
    · simp only [mark, hleft, hleft', if_true, if_false, List.cons_append, List.nil_append,
        List.cons.injEq, true_and] at h
      exact absurd h (lastLetters_append_ne left rest _)
    · simp only [hleft, hleft']
  have hmark : mark left = mark left' := by simp only [mark, hone]
  have hlength : (lastLetters left).length = (lastLetters left').length := by
    rw [length_lastLetters, length_lastLetters]
    simp only [hone]
  rw [hmark, List.append_assoc, List.append_assoc, List.append_cancel_left_eq] at h
  obtain ⟨hletters, hrest⟩ := List.append_inj h hlength
  exact ⟨hone, hletters, hrest⟩

theorem wideLBigram_eq_iff (left word left' word' : WideWord) :
    wideLBigram left.letters word.letters = wideLBigram left'.letters word'.letters ↔
      word.letters = word'.letters ∧ (left.letters.length = 1 ↔ left'.letters.length = 1) ∧
        lastLetters left = lastLetters left' := by
  rw [wideLBigram_eq, wideLBigram_eq]
  constructor
  · intro h
    obtain ⟨hone, hletters, hword⟩ := mark_append_inj h
    exact ⟨hword, hone, hletters⟩
  · rintro ⟨hword, hone, hletters⟩
    simp only [mark, hword, hone, hletters]

theorem lastLetters_reverse (w : WideWord) : lastLetters w.reverse = (firstLetters w).reverse := by
  have htake : w.letters.length - (w.letters.length - 2) = min 2 w.letters.length := by omega
  simp only [lastLetters, firstLetters, WideWord.reverse, List.length_reverse, List.drop_reverse,
    htake]
  rw [← List.take_eq_take_min]

theorem wideRBigram_eq_iff (word right word' right' : WideWord) :
    wideRBigram word.letters right.letters = wideRBigram word'.letters right'.letters ↔
      word.letters = word'.letters ∧ (right.letters.length = 1 ↔ right'.letters.length = 1) ∧
        firstLetters right = firstLetters right' := by
  rw [wideRBigram_reverse, wideRBigram_reverse, List.reverse_inj, wideLBigram_eq_iff,
    lastLetters_reverse, lastLetters_reverse, List.reverse_inj]
  simp only [WideWord.reverse, List.length_reverse, List.reverse_inj]

/-- **Bigrams are unambiguous.** The two kinds and the plain words are apart, and each bigram
tells its stop word and as much of the neighbour as it is made of, and no more. -/
theorem bigrams_unambiguous :
    (∀ left word word' right : WideWord,
      wideLBigram left.letters word.letters ≠ wideRBigram word'.letters right.letters) ∧
    (∀ left word other : WideWord, wideLBigram left.letters word.letters ≠ other.letters) ∧
    (∀ word right other : WideWord, wideRBigram word.letters right.letters ≠ other.letters) ∧
    (∀ left word left' word' : WideWord,
      wideLBigram left.letters word.letters = wideLBigram left'.letters word'.letters ↔
        word.letters = word'.letters ∧ (left.letters.length = 1 ↔ left'.letters.length = 1) ∧
          lastLetters left = lastLetters left') ∧
    (∀ word right word' right' : WideWord,
      wideRBigram word.letters right.letters = wideRBigram word'.letters right'.letters ↔
        word.letters = word'.letters ∧ (right.letters.length = 1 ↔ right'.letters.length = 1) ∧
          firstLetters right = firstLetters right') := by
  refine ⟨wideLBigram_ne_wideRBigram, wideLBigram_ne_word, ?_, wideLBigram_eq_iff,
    wideRBigram_eq_iff⟩
  intro word right other h
  rw [wideRBigram_reverse, List.reverse_eq_iff] at h
  exact wideLBigram_ne_word right.reverse word.reverse other.reverse h

/-! ## The conversions in a UTF-8 locale -/

/-- `mbstowcs`: the letters up to the first NUL. Of bytes that are no UTF-8 nothing is said. -/
def mbstowcs (str : Bytes) : List UInt32 :=
  ((utf8Decode (str.takeWhile fun b => b != 0)).getD []).map Char.val

/-- `wcstombs` into `n` bytes: whole letters while they fit, and a NUL if there is room for it. It
ends at a NUL, and at a number that is no letter. -/
def wcstombs : List UInt32 → ℕ → Bytes
  | [], n => if 0 < n then [0] else []
  | w :: ws, n =>
    if w = 0 then if 0 < n then [0] else []
    else if h : w.isValidChar then
      let encoded := String.utf8EncodeChar ⟨w, h⟩
      if encoded.length ≤ n then encoded ++ wcstombs ws (n - encoded.length) else []
    else []

/-- The string made of the buffer ends at the first NUL. Where none has been stored it goes on
with what the memory holds `behind`. -/
def Codec.utf8 (behind : List UInt32 → ℕ → Bytes) : Codec where
  str2wstr := mbstowcs
  wstr2str ws aSize :=
    let lowStrC := wcstombs ws (aSize + 1)
    if lowStrC.contains 0 then lowStrC.takeWhile fun b => b != 0 else lowStrC ++ behind ws aSize

/-- The UTF-8 encoding of a wide string. -/
def encodeWide (ws : List UInt32) : Bytes := utf8 (ws.map fun w => Char.ofNat w.toNat)

theorem encodeWide_map_val (s : List Char) : encodeWide (s.map Char.val) = utf8 s := by
  unfold encodeWide
  rw [List.map_map]
  have hid : (fun w : UInt32 => Char.ofNat w.toNat) ∘ Char.val = id :=
    funext fun ch => Char.ofNat_toNat ch
  rw [hid, List.map_id]

theorem mbstowcs_utf8 (s : List Char) : mbstowcs (utf8 s) = (cPart s).map Char.val := by
  unfold mbstowcs
  rw [takeWhile_utf8, utf8Decode_utf8, Option.getD_some]

theorem wcstombs_map_val {s : List Char} (hnul : '\x00' ∉ s) : ∀ {n : ℕ},
    (utf8 s).length < n → wcstombs (s.map Char.val) n = utf8 s ++ [0] := by
  induction s with
  | nil =>
    intro n hroom
    simp only [List.map_nil, wcstombs]
    rw [if_pos (Nat.lt_of_le_of_lt (Nat.zero_le _) hroom)]
    rfl
  | cons ch s ih =>
    intro n hroom
    obtain ⟨hch, hs⟩ := not_or.mp (mt List.mem_cons.mpr hnul)
    have hval : ch.val ≠ 0 := fun h => hch (Char.ext h.symm)
    simp only [utf8_cons, List.length_append] at hroom
    simp only [List.map_cons, wcstombs]
    rw [if_neg hval, dif_pos ch.valid]
    show (if (String.utf8EncodeChar ch).length ≤ n then String.utf8EncodeChar ch
        ++ wcstombs (s.map Char.val) (n - (String.utf8EncodeChar ch).length) else []) = _
    rw [if_pos (by omega), ih hs (by omega), utf8_cons, List.append_assoc]

/-- What fits with its NUL comes back whole. -/
theorem wstr2str_utf8 (behind : List UInt32 → ℕ → Bytes) {s : List Char} (hnul : '\x00' ∉ s)
    {aSize : ℕ} (hroom : (utf8 s).length + 1 ≤ aSize) :
    (Codec.utf8 behind).wstr2str (s.map Char.val) aSize = utf8 s := by
  have hall : ∀ b ∈ utf8 s, (b != 0) = true := by
    intro b hb
    rw [bne_iff_ne]
    rintro rfl
    exact zero_notMem_utf8 hnul hb
  simp only [Codec.utf8]
  rw [wcstombs_map_val hnul (by omega), if_pos (by simp), List.takeWhile_append_of_pos hall]
  exact List.append_nil _

/-! ## Whether the bigram is whole -/

/-- The left bigram, with its NUL, is within the bytes reserved for it, and comes back whole. -/
def LBigramWhole (c : Codec) (leftWord word : Bytes) : Prop :=
  let bytes := encodeWide (wideLBigram (c.str2wstr leftWord) (c.str2wstr word))
  bytes.length + 1 ≤ word.length + 6 ∧ makeLBigram c leftWord word = some bytes

/-- The same of the right bigram. -/
def RBigramWhole (c : Codec) (word rightWord : Bytes) : Prop :=
  let bytes := encodeWide (wideRBigram (c.str2wstr word) (c.str2wstr rightWord))
  bytes.length + 1 ≤ word.length + 6 ∧ makeRBigram c word rightWord = some bytes

/-- There is room for the letters taken from the neighbour: four bytes for two letters, three for
one, and as many more as the stop word has from its first NUL on. -/
def Room (context word : List Char) : Prop :=
  (utf8 context).length ≤
    (if context.length > 1 then 4 else 3) + (utf8 (word.drop (cPart word).length)).length

/-- The two last letters, or the only one. -/
def lastTwo (s : List Char) : List Char := s.drop (s.length - 2)

/-- The underscores of a bigram with that context. -/
def underscores (context : List Char) : List Char :=
  if context.length > 1 then ['_'] else ['_', '_']

theorem wideLBigram_map_val {left : List Char} (hleft : left ≠ []) (word : List Char) :
    wideLBigram (left.map Char.val) (word.map Char.val)
      = (underscores (lastTwo left) ++ lastTwo left ++ word).map Char.val := by
  have hpos := List.length_pos_iff.mpr hleft
  unfold wideLBigram underscores lastTwo
  simp only [List.length_map, List.length_drop]
  by_cases hmore : left.length > 1
  · rw [if_pos hmore, if_pos (by omega)]
    simp
    rfl
  · have hone : left.length = 1 := by omega
    rw [if_neg hmore, if_neg (by omega)]
    simp [hone]
    rfl

theorem wideRBigram_map_val {right : List Char} (hright : right ≠ []) (word : List Char) :
    wideRBigram (word.map Char.val) (right.map Char.val)
      = (word ++ right.take 2 ++ underscores (right.take 2)).map Char.val := by
  have hpos := List.length_pos_iff.mpr hright
  unfold wideRBigram underscores
  simp only [List.length_map, List.length_take]
  by_cases hmore : right.length > 1
  · rw [if_pos hmore, if_pos (by omega)]
    simp
    rfl
  · have hone : right.length = 1 := by omega
    rw [if_neg hmore, if_neg (by omega)]
    simp [hone, List.take_of_length_le]
    rfl

/-- The bytes of the context, its underscores and the stop word, against those reserved. -/
theorem room_iff (context word : List Char) :
    (utf8 (underscores context)).length + (utf8 context).length + (utf8 (cPart word)).length + 1
        ≤ (utf8 word).length + 6 ↔ Room context word := by
  have hword : (utf8 word).length
      = (utf8 (cPart word)).length + (utf8 (word.drop (cPart word).length)).length := by
    rw [← List.length_append, ← utf8_append, cPart_append_drop]
  have hone : (utf8 ['_']).length = 1 := rfl
  have htwo : (utf8 ['_', '_']).length = 2 := rfl
  unfold Room underscores
  split <;> omega

theorem nul_notMem_underscores (context : List Char) : '\x00' ∉ underscores context := by
  unfold underscores
  split <;> decide

/-- A bigram of the right length is whole exactly if there is room for its context. -/
theorem bigramWhole_iff (behind : List UInt32 → ℕ → Bytes) {s context word : List Char}
    (hnul : '\x00' ∉ s)
    (hlength : (utf8 s).length
      = (utf8 (underscores context)).length + (utf8 context).length + (utf8 (cPart word)).length) :
    ((encodeWide (s.map Char.val)).length + 1 ≤ (utf8 word).length + 6 ∧
      some ((Codec.utf8 behind).wstr2str (s.map Char.val) ((utf8 word).length + 6))
        = some (encodeWide (s.map Char.val))) ↔ Room context word := by
  rw [encodeWide_map_val, ← room_iff, ← hlength]
  constructor
  · exact fun h => h.1
  · intro hfits
    exact ⟨hfits, congrArg some (wstr2str_utf8 behind hnul hfits)⟩

/-- **A left bigram comes back whole exactly if both words have a letter before any NUL and there
is room for the letters taken from the left word.** -/
theorem lBigramWhole_iff (behind : List UInt32 → ℕ → Bytes) (left word : List Char) :
    LBigramWhole (.utf8 behind) (utf8 left) (utf8 word) ↔
      cPart left ≠ [] ∧ cPart word ≠ [] ∧ Room (lastTwo (cPart left)) word := by
  have hread : ∀ s, (Codec.utf8 behind).str2wstr (utf8 s) = (cPart s).map Char.val := mbstowcs_utf8
  unfold LBigramWhole
  rw [makeLBigram_eq, hread, hread, List.isEmpty_map, List.isEmpty_map]
  by_cases hleft : cPart left = []
  · simp [hleft]
  by_cases hword : cPart word = []
  · simp [hword]
  rw [if_neg (by simp [hleft, hword]), wideLBigram_map_val hleft]
  have hnul : '\x00' ∉ underscores (lastTwo (cPart left)) ++ lastTwo (cPart left)
      ++ cPart word := by
    simp only [List.mem_append, not_or]
    exact ⟨⟨nul_notMem_underscores _, fun h => nul_notMem_cPart left (List.mem_of_mem_drop h)⟩,
      nul_notMem_cPart word⟩
  have hwhole : _ ↔ Room (lastTwo (cPart left)) word :=
    bigramWhole_iff behind hnul (by simp only [utf8_append, List.length_append])
  rw [hwhole]
  exact ⟨fun h => ⟨hleft, hword, h⟩, fun h => h.2.2⟩

theorem rBigramWhole_iff (behind : List UInt32 → ℕ → Bytes) (word right : List Char) :
    RBigramWhole (.utf8 behind) (utf8 word) (utf8 right) ↔
      cPart right ≠ [] ∧ cPart word ≠ [] ∧ Room ((cPart right).take 2) word := by
  have hread : ∀ s, (Codec.utf8 behind).str2wstr (utf8 s) = (cPart s).map Char.val := mbstowcs_utf8
  unfold RBigramWhole
  rw [makeRBigram_eq, hread, hread, List.isEmpty_map, List.isEmpty_map]
  by_cases hright : cPart right = []
  · simp [hright]
  by_cases hword : cPart word = []
  · simp [hword]
  rw [if_neg (by simp [hright, hword]), wideRBigram_map_val hright]
  have hnul : '\x00' ∉ cPart word ++ (cPart right).take 2
      ++ underscores ((cPart right).take 2) := by
    simp only [List.mem_append, not_or]
    exact ⟨⟨nul_notMem_cPart word, fun h => nul_notMem_cPart right (List.mem_of_mem_take h)⟩,
      nul_notMem_underscores _⟩
  have hwhole : _ ↔ Room ((cPart right).take 2) word :=
    bigramWhole_iff behind hnul (by simp only [utf8_append, List.length_append]; omega)
  rw [hwhole]
  exact ⟨fun h => ⟨hright, hword, h⟩, fun h => h.2.2⟩

/-- **Which bigrams are whole.** -/
theorem bigrams_whole_iff (behind : List UInt32 → ℕ → Bytes) (word neighbour : List Char) :
    (LBigramWhole (.utf8 behind) (utf8 neighbour) (utf8 word) ↔
      cPart neighbour ≠ [] ∧ cPart word ≠ [] ∧ Room (lastTwo (cPart neighbour)) word) ∧
    (RBigramWhole (.utf8 behind) (utf8 word) (utf8 neighbour) ↔
      cPart neighbour ≠ [] ∧ cPart word ≠ [] ∧ Room ((cPart neighbour).take 2) word) :=
  ⟨lBigramWhole_iff behind neighbour word, rBigramWhole_iff behind word neighbour⟩

/-- A neighbour of two letters of three bytes each: the bigrams of `the` with it need eleven bytes
with the NUL, and have nine. -/
theorem bigrams_not_whole :
    ¬ LBigramWhole (.utf8 fun _ _ => []) (utf8 ['日', '本']) (utf8 ['t', 'h', 'e']) ∧
      ¬ RBigramWhole (.utf8 fun _ _ => []) (utf8 ['t', 'h', 'e']) (utf8 ['日', '本']) := by
  rw [lBigramWhole_iff, rBigramWhole_iff]
  constructor
  · rintro ⟨-, -, hroom⟩
    exact absurd hroom (by unfold Room; decide)
  · rintro ⟨-, -, hroom⟩
    exact absurd hroom (by unfold Room; decide)

end Amigos.Common
