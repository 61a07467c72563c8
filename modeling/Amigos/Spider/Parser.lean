import Amigos.Lib.Regex
import Amigos.Spider.Section

/-!
# The subtitles of a stored file (`parser.py`, `html.unescape`)

`parseSub` finds the sections of a file, and in each its `<text>` elements. An element gives a line
of time and a line of text: newlines in it become blanks before the line is ended. But character
references are decoded afterwards, and a reference can stand for a newline.

Nothing that is done to the joined text matches a newline, so it is done line by line
(`parseSection_text`), and the lines are as many as the times exactly if no line has a newline after
all. For the indexer they are what it reads of the section (`Amigos.Spider.Section`): there they are
as many as the times exactly if there is no surplus of them, either (`parseSection_aligned_iff`).
-/

set_option autoImplicit false

namespace Amigos.Spider

open Amigos.Lib
open Amigos.Index

/-! ## `html.unescape` -/

def isDec (c : Char) : Bool := '0' ≤ c && c ≤ '9'

def isHex (c : Char) : Bool := isDec c || ('a' ≤ c && c ≤ 'f') || ('A' ≤ c && c ≤ 'F')

/-- `_charref`: decimal, hexadecimal, or a name of up to 32 characters. -/
def charref : Regex Char :=
  let semicolon : Regex Char := .opt (.lit [';'])
  let named : Regex Char :=
    .one fun c => !(['\t', '\n', '\x0c', ' ', '<', '&', '#', ';'].contains c)
  .seq (.lit ['&']) (.group 1 (.alt
    (.seq (.lit ['#']) (.seq (.plus (.one isDec)) semicolon))
    (.alt
      (.seq (.lit ['#']) (.seq (.one fun c => c == 'x' || c == 'X')
        (.seq (.plus (.one isHex)) semicolon)))
      (.seq named (.seq (.upTo named 31) semicolon)))))

/-- `int(s, base)`, of digits. -/
def intOf (base : ℕ) (s : Str) : ℕ :=
  s.foldl (fun n c => base * n +
    if isDec c then c.toNat - '0'.toNat
    else if c ≤ 'F' then c.toNat - 'A'.toNat + 10
    else c.toNat - 'a'.toNat + 10) 0

/-- `_invalid_charrefs` from 0x80 on. -/
def invalidCharrefs : List ℕ :=
  [0x20ac, 0x81, 0x201a, 0x192, 0x201e, 0x2026, 0x2020, 0x2021, 0x2c6, 0x2030, 0x160, 0x2039,
    0x152, 0x8d, 0x17d, 0x8f, 0x90, 0x2018, 0x2019, 0x201c, 0x201d, 0x2022, 0x2013, 0x2014, 0x2dc,
    0x2122, 0x161, 0x203a, 0x153, 0x9d, 0x17e, 0x178]

/-- `_invalid_codepoints`, as far as they are asked for. -/
def isInvalidCodepoint (n : ℕ) : Bool :=
  (1 ≤ n && n ≤ 8) || n == 0xb || (0xe ≤ n && n ≤ 0x1f) || (0x7f ≤ n && n ≤ 0x9f) ||
    (0xfdd0 ≤ n && n ≤ 0xfdef) || n % 0x10000 == 0xfffe || n % 0x10000 == 0xffff

/-- What a numeric reference stands for. -/
def numericCharref (n : ℕ) : Str :=
  if n = 0 then [Char.ofNat 0xfffd]
  else if n = 0xd then ['\r']
  else if 0x80 ≤ n ∧ n ≤ 0x9f then [Char.ofNat (invalidCharrefs.getD (n - 0x80) 0)]
  else if (0xd800 ≤ n ∧ n ≤ 0xdfff) ∨ 0x10ffff < n then [Char.ofNat 0xfffd]
  else if isInvalidCodepoint n then []
  else [Char.ofNat n]

/-- What a name stands for: itself, or the longest name that it begins with. -/
def namedCharref (html5 : Str → Option Str) (s : Str) : Str :=
  match html5 s with
  | some text => text
  | none =>
    (((List.range s.length).reverse.filter (1 < ·)).findSome? fun x =>
      (html5 (s.take x)).map (· ++ s.drop x)).getD ('&' :: s)

/-- `_replace_charref`. -/
def replaceCharref (html5 : Str → Option Str) (s : Str) : Str :=
  let digits (s : Str) := s.filter (· ≠ ';')
  match s with
  | '#' :: 'x' :: rest | '#' :: 'X' :: rest => numericCharref (intOf 16 (digits rest))
  | '#' :: rest => numericCharref (intOf 10 (digits rest))
  | _ => namedCharref html5 s

/-- `html.unescape`, by the table of names that it has. -/
def unescape (html5 : Str → Option Str) (s : Str) : Str :=
  sub charref (fun _ groups => replaceCharref html5 (groups.get 1)) s

/-- Both kinds of numbers, and the name at the beginning of a longer one. -/
example : unescape (fun s => if s = "lt".toList then some ['<'] else none)
    "&#65;&#x42;&lt3&;".toList = "AB<3&;".toList := by decide +kernel

/-! ## `parseSub` -/

/-- `str.replace`. -/
def replace (old new s : Str) : Str := sub (.lit old) (fun _ _ => new) s

/-- A section: three brackets, something in angle brackets, and a transcript. -/
def sectionPattern : Regex Char :=
  let spaces : Regex Char := .star true (.one isSpace)
  .seq (.group 1 (.rep (.seq (.lit ['[']) (.seq (.star true (.one (· ≠ ']'))) (.lit [']']))) 3))
    (.seq spaces (.seq (.lit ['<']) (.seq (.star false (.one fun _ => true)) (.seq (.lit ['>'])
      (.seq spaces (.seq (.lit "<transcript>".toList)
        (.seq (.lazy 2) (.lit "</transcript>".toList))))))))

/-- `<text start="(.*?)" dur="(.*?)">(.*?)</text>`. -/
def textPattern : Regex Char :=
  .seq (.lit "<text start=\"".toList) (.seq (.lazy 1) (.seq (.lit "\" dur=\"".toList)
    (.seq (.lazy 2) (.seq (.lit "\">".toList) (.seq (.lazy 3) (.lit "</text>".toList))))))

/-- `(и )?# 39; (\S)+`. -/
def apostrophePattern : Regex Char :=
  .seq (.opt (.group 1 (.lit "и ".toList)))
    (.seq (.lit "# 39; ".toList) (.plus (.group 2 (.one fun c => !isSpace c))))

/-- The elements of a transcript: start, duration and text are groups 1 to 3. -/
def elementsOf (data : Str) : List (Groups Char) := finditer textPattern data

/-- The line that an element gives to the time. -/
def timeLine (m : Groups Char) : Str := m.get 1 ++ [' '] ++ m.get 2

/-- The line that an element gives to the text. -/
def textLine (m : Groups Char) : Str :=
  replace "&amp;".toList ['&'] ((m.get 3).map fun c => if c = '\n' then ' ' else c)

def ru : Str := "ru".toList
def en : Str := "en".toList

/-- The substitution in a Russian text. -/
def dropApostrophes (lang text : Str) : Str :=
  if lang = ru then sub apostrophePattern (fun _ _ => []) text else text

/-- `result[lang]`. -/
structure Subtitles where
  type : ℕ
  timeInfo : Str
  text : Str
  deriving DecidableEq, Repr

/-- The body of the loop over the sections, once the type is known. -/
def parseSection (html5 : Str → Option Str) (lang : Str) (type : ℕ) (data : Str) : Subtitles :=
  let timeInfo := (elementsOf data).flatMap fun m => timeLine m ++ ['\n']
  let text := (elementsOf data).flatMap fun m => textLine m ++ ['\n']
  let text := dropApostrophes lang text
  { type, timeInfo := wrapCDATA timeInfo, text := wrapCDATA (unescape html5 text) }

/-- The language of a section, `info[1:3]`, and the name of its type, `info[5:9]`. -/
def langOf (info : Str) : Str := (info.drop 1).take 2
def typeOf (info : Str) : Str := (info.drop 5).take 4

/-- `result[lang] = v`, of a language that is there. -/
def setLang (lang : Str) (v : Option Subtitles) (result : List (Str × Option Subtitles)) :
    List (Str × Option Subtitles) :=
  result.map fun entry => if entry.1 = lang then (lang, v) else entry

/-- The loop over the sections; undefined is a `KeyError`. -/
def parseSections (html5 : Str → Option Str) (subsTypes : Str → Option ℕ) :
    List (Str × Option Subtitles) → List (Groups Char) → Option (List (Str × Option Subtitles))
  | result, [] => some result
  | result, m :: sections => do
    let lang := langOf (m.get 1)
    let type ← subsTypes (typeOf (m.get 1))
    if (result.lookup lang).isNone then none
    parseSections html5 subsTypes
      (setLang lang (some (parseSection html5 lang type (m.get 2))) result) sections

/-- `parseSub`; a language without a section has none. -/
def parseSub (html5 : Str → Option Str) (subsTypes : Str → Option ℕ) (langs : List Str)
    (text : Str) : Option (List (Str × Option Subtitles)) :=
  parseSections html5 subsTypes (langs.map fun lang => (lang, none)) (finditer sectionPattern text)

/-! ## The section of a language -/

/-- The last section of a language is the one whose subtitles remain. -/
def lastSection (lang : Str) (sections : List (Groups Char)) : Option (Groups Char) :=
  sections.reverse.find? fun m => langOf (m.get 1) = lang

theorem lookup_setLang_ne {lang lang' : Str} (hne : lang' ≠ lang) (v : Option Subtitles)
    (result : List (Str × Option Subtitles)) :
    (setLang lang v result).lookup lang' = result.lookup lang' := by
  induction result with
  | nil => rfl
  | cons entry result ih =>
    obtain ⟨l, w⟩ := entry
    rw [setLang] at ih
    rw [setLang, List.map_cons, List.lookup_cons]
    by_cases hl : l = lang
    · subst hl
      rw [if_pos rfl, List.lookup_cons, beq_eq_false_iff_ne.mpr hne]
      exact ih
    · rw [if_neg hl, List.lookup_cons, ih]

theorem lookup_setLang_self {lang : Str} (v : Option Subtitles)
    {result : List (Str × Option Subtitles)} (h : (result.lookup lang).isNone = false) :
    (setLang lang v result).lookup lang = some v := by
  induction result with
  | nil => cases h
  | cons entry result ih =>
    obtain ⟨l, w⟩ := entry
    rw [setLang, List.map_cons]
    by_cases hl : l = lang
    · rw [if_pos hl, List.lookup_cons, beq_self_eq_true]
    · have hbeq : (lang == l) = false := beq_eq_false_iff_ne.mpr fun heq => hl heq.symm
      rw [List.lookup_cons, hbeq] at h
      rw [if_neg hl, List.lookup_cons, hbeq]
      exact ih h

/-- **What the loop leaves for a language**: the subtitles of its last section, by induction on
the sections. -/
theorem parseSections_lookup {html5 : Str → Option Str} {subsTypes : Str → Option ℕ} {lang : Str}
    {sections : List (Groups Char)} : ∀ {result result' : List (Str × Option Subtitles)},
    parseSections html5 subsTypes result sections = some result' →
    (∀ m, lastSection lang sections = some m →
      ∃ type, result'.lookup lang = some (some (parseSection html5 lang type (m.get 2)))) ∧
    (lastSection lang sections = none → result'.lookup lang = result.lookup lang) := by
  induction sections with
  | nil =>
    intro result result' h
    cases h
    exact ⟨nofun, fun _ => rfl⟩
  | cons m sections ih =>
    intro result result' h
    simp only [parseSections, Option.bind_eq_bind, Option.bind_eq_some_iff] at h
    obtain ⟨type, -, h⟩ := h
    split at h
    · cases h
    rename_i hthere
    obtain ⟨hlater, hnone⟩ := ih h
    have hlast : lastSection lang (m :: sections) = (lastSection lang sections).or
        (if langOf (m.get 1) = lang then some m else none) := by
      rw [lastSection, List.reverse_cons, List.find?_append, ← lastSection, List.find?_singleton]
      simp only [decide_eq_true_eq]
    rw [hlast]
    cases hrest : lastSection lang sections with
    | some m' =>
      refine ⟨fun m'' hm'' => ?_, nofun⟩
      rw [Option.some_or, Option.some.injEq] at hm''
      exact hm'' ▸ hlater m' hrest
    | none =>
      rw [Option.none_or, hnone hrest]
      by_cases hlang : langOf (m.get 1) = lang
      · rw [if_pos hlang]
        rw [hlang] at hthere ⊢
        refine ⟨fun m'' hm'' => ⟨type, ?_⟩, nofun⟩
        rw [lookup_setLang_self _ (Bool.eq_false_of_not_eq_true hthere), Option.some.inj hm'']
      · rw [if_neg hlang]
        exact ⟨nofun, fun _ => lookup_setLang_ne (fun heq => hlang heq.symm) _ _⟩

/-! ## Lines -/

theorem count_wrapCDATA (s : Str) : (wrapCDATA s).count '\n' = s.count '\n' := by
  have hbegin : cdataBegin.count '\n' = 0 := by decide
  have hend : cdataEnd.count '\n' = 0 := by decide
  rw [wrapCDATA, List.count_append, List.count_append, hbegin, hend, Nat.zero_add, Nat.add_zero]

/-- A text of lines has as many newlines as lines exactly if no line has one of its own. -/
theorem count_joined_iff {ls : List Str} :
    (joined ls).count '\n' = ls.length ↔ ∀ line ∈ ls, '\n' ∉ line := by
  have hcons : ∀ (line : Str) (ls : List Str),
      (joined (line :: ls)).count '\n' = line.count '\n' + 1 + (joined ls).count '\n' := by
    intro line ls
    simp only [joined, List.flatMap_cons, List.count_append, List.count_singleton_self]
  have hle : ∀ ls : List Str, ls.length ≤ (joined ls).count '\n' := by
    intro ls
    induction ls with
    | nil => exact Nat.zero_le _
    | cons line ls ih =>
      rw [hcons, List.length_cons]
      omega
  induction ls with
  | nil => simp [joined]
  | cons line ls ih =>
    have hrest := hle ls
    have hnot : '\n' ∉ line ↔ line.count '\n' = 0 := List.count_eq_zero.symm
    rw [List.forall_mem_cons, hnot, hcons, List.length_cons]
    constructor
    · exact fun h => ⟨by omega, ih.mp (by omega)⟩
    · rintro ⟨hline, hlines⟩
      have := ih.mpr hlines
      omega

/-- The lines of a text, once their character references have been decoded. -/
def decodedLines (html5 : Str → Option Str) (lang data : Str) : List Str :=
  (elementsOf data).map fun m => unescape html5 (dropApostrophes lang (textLine m))

/-- **The text of a section, line by line.** -/
theorem parseSection_text (html5 : Str → Option Str) (lang : Str) (type : ℕ) (data : Str) :
    (parseSection html5 lang type data).text
      = wrapCDATA (joined (decodedLines html5 lang data)) := by
  have hdrop : ∀ ls : List Str, dropApostrophes lang (joined ls)
      = joined (ls.map (dropApostrophes lang)) := by
    intro ls
    by_cases hru : lang = ru
    · have heq : dropApostrophes lang = sub apostrophePattern fun _ _ => [] :=
        funext fun _ => if_pos hru
      rw [heq, joined, sub_lines (by decide), joined, List.flatMap_map]
    · have heq : dropApostrophes lang = id := funext fun _ => if_neg hru
      rw [heq, List.map_id]
      rfl
  have hunescape : ∀ ls : List Str, unescape html5 (joined ls)
      = joined (ls.map (unescape html5)) := by
    intro ls
    rw [unescape, joined, sub_lines (by decide), joined, List.flatMap_map]
    rfl
  have htext : (elementsOf data).flatMap (fun m => textLine m ++ ['\n'])
      = joined ((elementsOf data).map textLine) := by
    rw [joined, List.flatMap_map]
  simp only [parseSection]
  rw [htext, hdrop, hunescape, List.map_map, List.map_map]
  rfl

theorem parseSection_timeInfo (html5 : Str → Option Str) (lang : Str) (type : ℕ) (data : Str) :
    (parseSection html5 lang type data).timeInfo
      = wrapCDATA (joined ((elementsOf data).map timeLine)) := by
  rw [parseSection, joined, List.flatMap_map]

/-! ## Text and time -/

/-- The characters that numbers are written with. -/
def isNumeral (s : Str) : Bool := s.all fun c => isDec c || ['+', '-', '.', 'e', 'E'].contains c

/-- The start and the duration of every element are numbers. -/
def Numeric (data : Str) : Prop :=
  ∀ m ∈ elementsOf data, isNumeral (m.get 1) = true ∧ isNumeral (m.get 2) = true

instance (data : Str) : Decidable (Numeric data) := by unfold Numeric; infer_instance

/-- A document with these subtitles, as the indexer reads them. -/
structure BuiltFrom (s : Subtitles) (doc : RawDoc) : Prop where
  subtitles : (readSection s.text).map encode = some doc.subtitles
  time : (readSection s.timeInfo).map encode = some doc.time

/-- **The subtitles have as many lines as times**, and a document with them is not refused. -/
def Aligned (s : Subtitles) : Prop :=
  s.text.count '\n' = s.timeInfo.count '\n' ∧
    ∀ doc, BuiltFrom s doc → ∀ (τ : Type) [Zero τ] (stod : Bytes → Option τ)
      (res : List (Bytes × τ)), doc.getPhrases stod res ≠ .error lessTimeItems ∧
        doc.getPhrases stod res ≠ .error moreTimeItems

/-- **The lines remain what they are**: none has a newline once it has been decoded, and no more of
them are read, and no fewer. (Nothing is read of a section that is not closed in front of a NUL.) -/
structure KeepsLines (html5 : Str → Option Str) (lang data : Str) : Prop where
  newline : ∀ line ∈ decodedLines html5 lang data, '\n' ∉ line
  read : Unread (joined (decodedLines html5 lang data)) ∨
    surplus false (decodedLines html5 lang data) = 0

/-- A line of the time has only characters of numbers, and a blank. -/
theorem notMem_timeLine {m : Groups Char} (hstart : isNumeral (m.get 1) = true)
    (hdur : isNumeral (m.get 2) = true) {c : Char} (hc : c ∈ ['\n', '\r', '\x00', ']']) :
    c ∉ timeLine m := by
  have hchar : ∀ c ∈ ['\n', '\r', '\x00', ']'],
      (isDec c || ['+', '-', '.', 'e', 'E'].contains c) = false ∧ c ∉ [' '] := by
    simp only [List.forall_mem_cons, List.not_mem_nil, false_implies, implies_true, and_true]
    decide
  have hnumeral : ∀ {s : Str}, isNumeral s = true → c ∉ s := by
    intro s hs hmem
    have htrue := List.all_eq_true.mp hs c hmem
    rw [(hchar c hc).1] at htrue
    cases htrue
  rw [timeLine]
  exact List.not_mem_append (List.not_mem_append (hnumeral hstart) (hchar c hc).2) (hnumeral hdur)

/-- The times are read as they are, one line for each. -/
theorem readSection_times {data : Str} (hnumeric : Numeric data) : ∃ times,
    readSection (wrapCDATA (joined ((elementsOf data).map timeLine))) = some times ∧
      lineCount times = (elementsOf data).length := by
  have hnot : ∀ c ∈ ['\n', '\r', '\x00', ']'], ∀ line ∈ (elementsOf data).map timeLine,
      c ∉ line := by
    intro c hc
    rw [List.forall_mem_map]
    exact fun m hm => notMem_timeLine (hnumeric m hm).1 (hnumeric m hm).2 hc
  have hjoined : ∀ c ∈ ['\r', '\x00', ']'], c ∉ joined ((elementsOf data).map timeLine) := by
    intro c hc hmem
    obtain ⟨line, hline, hmem⟩ := List.mem_flatMap.mp hmem
    rcases List.mem_append.mp hmem with hmem | hmem
    · exact hnot c (List.mem_cons_of_mem _ hc) line hline hmem
    · rw [List.mem_singleton.mp hmem] at hc
      exact absurd hc (by decide)
  rcases readSection_cases (joined ((elementsOf data).map timeLine)) with
    ⟨hunread, -⟩ | ⟨-, htimes⟩
  · exact absurd hunread.1 (hjoined _ (by decide))
  · refine ⟨_, htimes, ?_⟩
    have hcount := lineCount_read (hnot '\n' (by decide)) false
    rw [surplus_eq_zero (hnot '\r' (by decide)) (hnot ']' (by decide)), List.length_map]
      at hcount
    exact_mod_cast hcount

/-- The documents with some subtitles: the lines that are read are as many as the times. -/
theorem documents_iff {s : Subtitles} {ls : List Str} {times : Str}
    (htext : s.text = wrapCDATA (joined ls)) (htimes : readSection s.timeInfo = some times)
    (hcount : lineCount times = ls.length) (hnewline : ∀ line ∈ ls, '\n' ∉ line) :
    (∀ doc, BuiltFrom s doc → ∀ (τ : Type) [Zero τ] (stod : Bytes → Option τ)
      (res : List (Bytes × τ)), doc.getPhrases stod res ≠ .error lessTimeItems ∧
        doc.getPhrases stod res ≠ .error moreTimeItems) ↔
      Unread (joined ls) ∨ surplus false ls = 0 := by
  have hlines : lineCount (TinyXml2.normalizeNewlines (cutEnd (joined ls))) = lineCount times ↔
      surplus false ls = 0 := by
    have hread : (lineCount (TinyXml2.normalizeNewlines (cutEnd (joined ls))) : ℤ)
        = ls.length + surplus false ls := lineCount_read hnewline false
    omega
  rcases readSection_cases (joined ls) with ⟨hunread, hnone⟩ | ⟨hnot, hsome⟩
  · -- Nothing is read, so there is no document.
    refine iff_of_true (fun doc hdoc => ?_) (.inl hunread)
    have hsubtitles := hdoc.subtitles
    rw [htext, hnone] at hsubtitles
    cases hsubtitles
  · rw [or_iff_right hnot, ← hlines]
    rw [← htext] at hsome
    constructor
    · intro hdocs
      by_contra hne
      obtain ⟨doc, hdoc⟩ : ∃ doc, doc = RawDoc.mk [] []
          (encode (TinyXml2.normalizeNewlines (cutEnd (joined ls)))) (encode times) := ⟨_, rfl⟩
      obtain ⟨hless, hmore⟩ := hdocs doc ⟨by rw [hsome, hdoc]; rfl, by rw [htimes, hdoc]; rfl⟩ ℕ
        (fun _ => some 0) []
      have hlen : (lines doc.subtitles).length ≠ (lines doc.time).length := by
        rw [hdoc]
        exact hne
      obtain ⟨e, he, hthrown⟩ := @RawDoc.getPhrases_of_length_ne ℕ _ (fun _ => some 0) doc
        (fun _ _ => nofun) hlen []
      simp only [List.mem_cons, List.not_mem_nil, or_false] at he
      rcases he with rfl | rfl
      · exact hmore hthrown
      · exact hless hthrown
    · intro heq doc hdoc τ _ stod res
      have hsubtitles := hdoc.subtitles
      have htime := hdoc.time
      rw [hsome, Option.map_some, Option.some.injEq] at hsubtitles
      rw [htimes, Option.map_some, Option.some.injEq] at htime
      have hlen : (lines doc.subtitles).length = (lines doc.time).length := by
        rw [← hsubtitles, ← htime]
        exact heq
      constructor
      · intro hthrown
        exact absurd (RawDoc.getPhrases_of_length hlen hthrown) (by decide)
      · intro hthrown
        exact absurd (RawDoc.getPhrases_of_length hlen hthrown) (by decide)

/-- **A section**: its subtitles are aligned exactly if its lines remain what they are. -/
theorem parseSection_aligned_iff (html5 : Str → Option Str) (lang : Str) (type : ℕ) {data : Str}
    (hnumeric : Numeric data) :
    Aligned (parseSection html5 lang type data) ↔ KeepsLines html5 lang data := by
  obtain ⟨times, htimes, hcountTimes⟩ := readSection_times hnumeric
  have hlength : (decodedLines html5 lang data).length = (elementsOf data).length :=
    List.length_map _
  have hcount : (parseSection html5 lang type data).text.count '\n'
      = (parseSection html5 lang type data).timeInfo.count '\n' ↔
        ∀ line ∈ decodedLines html5 lang data, '\n' ∉ line := by
    have htimeCount : (joined ((elementsOf data).map timeLine)).count '\n'
        = (elementsOf data).length := by
      rw [count_joined_iff.mpr, List.length_map]
      rw [List.forall_mem_map]
      exact fun m hm => notMem_timeLine (hnumeric m hm).1 (hnumeric m hm).2 (by decide)
    rw [parseSection_text, parseSection_timeInfo, count_wrapCDATA, count_wrapCDATA, htimeCount,
      ← hlength, count_joined_iff]
  rw [← parseSection_timeInfo html5 lang type] at htimes
  have hdocs := documents_iff (parseSection_text html5 lang type data) htimes
    (hcountTimes.trans hlength.symm)
  rw [Aligned, hcount]
  exact ⟨fun h => ⟨h.1, (hdocs h.1).mp h.2⟩, fun h => ⟨h.newline, (hdocs h.newline).mpr h.read⟩⟩

/-- **The subtitles of a file**, language by language: those of the last section of the language
are aligned exactly if its lines remain what they are. -/
theorem parseSub_aligned_iff {html5 : Str → Option Str} {subsTypes : Str → Option ℕ}
    {langs : List Str} {text : Str} {result : List (Str × Option Subtitles)}
    (h : parseSub html5 subsTypes langs text = some result) {lang : Str} {m : Groups Char}
    (hsection : lastSection lang (finditer sectionPattern text) = some m)
    (hnumeric : Numeric (m.get 2)) :
    ∃ s, result.lookup lang = some (some s) ∧
      (Aligned s ↔ KeepsLines html5 lang (m.get 2)) := by
  obtain ⟨type, hlookup⟩ := (parseSections_lookup h).1 m hsection
  exact ⟨_, hlookup, parseSection_aligned_iff html5 lang type hnumeric⟩

/-! ## A file with one line -/

/-- English subtitles with one line of a second. -/
def oneLine (line : Str) : Str :=
  "[en][orig][url]\n<?xml?><transcript><text start=\"0\" dur=\"1\">".toList ++ line ++
    "</text></transcript>".toList

/-- The types of subtitles that the converter begins with. -/
def initialTypes (name : Str) : Option ℕ :=
  if name = "auto".toList then some 0
  else if name = "tran".toList then some 1
  else if name = "orig".toList then some 2
  else none

/-- **A newline by reference**: one line of time, and two of text. -/
theorem not_aligned_reference :
    ¬ ∀ (html5 : Str → Option Str) (subsTypes : Str → Option ℕ) (langs : List Str) (text : Str)
      (result : List (Str × Option Subtitles)), parseSub html5 subsTypes langs text = some result →
      ∀ (lang : Str) (m : Groups Char),
        lastSection lang (finditer sectionPattern text) = some m →
        Numeric (m.get 2) →
        ∃ s, result.lookup lang = some (some s) ∧ Aligned s := by
  intro hclaim
  have heval : (parseSub (fun _ => none) initialTypes [ru, en] (oneLine "a&amp;#10;b".toList)).map
      (fun result => result.lookup en) = some (some (some
        { type := 2
          timeInfo := wrapCDATA "0 1\n".toList
          text := wrapCDATA "a\nb\n".toList })) := by
    decide +kernel
  have hsection : (lastSection en (finditer sectionPattern (oneLine "a&amp;#10;b".toList))).map
      (fun m => decide (Numeric (m.get 2))) = some true := by
    decide +kernel
  obtain ⟨result, hparse, hlookup⟩ := Option.map_eq_some_iff.mp heval
  obtain ⟨m, hm, hnumeric⟩ := Option.map_eq_some_iff.mp hsection
  obtain ⟨s, hs, haligned, -⟩ := hclaim _ _ _ _ result hparse en m hm (of_decide_eq_true hnumeric)
  rw [hlookup, Option.some.injEq, Option.some.injEq] at hs
  subst hs
  exact absurd haligned (by decide)

/-- A line with an apostrophe by reference, and one with a CR by reference at its end. -/
theorem parseSub_aligned_iff_apostrophe :
    ∃ result m, parseSub (fun _ => none) initialTypes [ru, en] (oneLine "it&amp;#39;s&#13;".toList)
        = some result ∧
      lastSection en (finditer sectionPattern (oneLine "it&amp;#39;s&#13;".toList)) = some m ∧
      ∃ s, result.lookup en = some (some s) ∧ Aligned s := by
  have heval : (parseSub (fun _ => none) initialTypes [ru, en]
      (oneLine "it&amp;#39;s&#13;".toList)).isSome = true := by
    decide +kernel
  have hsection : (lastSection en (finditer sectionPattern
      (oneLine "it&amp;#39;s&#13;".toList))).map (fun m => (decide (Numeric (m.get 2)),
        decodedLines (fun _ => none) en (m.get 2))) = some (true, ["it's\r".toList]) := by
    decide +kernel
  obtain ⟨result, hparse⟩ := Option.isSome_iff_exists.mp heval
  obtain ⟨m, hm, hfound⟩ := Option.map_eq_some_iff.mp hsection
  obtain ⟨hnumeric, hlines⟩ := Prod.mk.inj hfound
  obtain ⟨s, hs, haligned⟩ := parseSub_aligned_iff hparse hm (of_decide_eq_true hnumeric)
  refine ⟨result, m, hparse, hm, s, hs, haligned.mpr ⟨?_, .inr ?_⟩⟩
  · rw [hlines]
    decide
  · rw [hlines]
    decide

end Amigos.Spider
