import Amigos.Lib.Scan
import Amigos.Lib.Steps
import Amigos.Spider.Parser
import Amigos.Spider.Tags

/-!
# Subtitles, from the worker to the converter (`worker.py`, `parseSub`)

`getSubs` puts the kind of a track and its url in brackets before what has been downloaded, `save`
puts the language before that, and `parseSub` looks for three brackets in a row. A bracket ends at
its first `]`. The url has the name and the id of the track in it, as they stand in the list of
tracks: with a `]` in one of them the section is not found any more.

Without one it is (`parseSub_subsDump`): a language without a track leaves its bracket in front of
the next one, but then four stand in a row, and the search goes on to the next language. What
`getSubs` returns are tracks of this kind (`getSubs_tracks`), and if neither the list of tracks nor
what its url is made of has a `]`, they have none (`getSubs_noClose`).
-/

set_option autoImplicit false

namespace Amigos.Spider

open Amigos.Lib

/-! ## The source -/

/-- `sub_info`. -/
inductive SubInfo where
  | auto
  | orig
  | tran
  deriving DecidableEq, Repr

def SubInfo.name : SubInfo → Str
  | .auto => "auto".toList
  | .orig => "orig".toList
  | .tran => "tran".toList

/-- What of a page the urls are made of. -/
structure Params where
  asrLangs : Str
  expire : Str
  signature : Str
  v : Str

def apiTdtPfx : Str := "http://www.youtube.com/api/timedtext?".toList

def subsListUrl (params : Params) : Str :=
  apiTdtPfx ++ "asr_langs=".toList ++ params.asrLangs ++ "&asrs=1&caps=asr&expire=".toList ++
    params.expire ++ "&fmts=1&hl=&key=yttt1&signature=".toList ++ params.signature ++
    "&sparams=asr_langs%2Ccaps%2Cv%2Cexpire&tlangs=1&ts=&type=list&v=".toList ++ params.v

def autoSubUrl (params : Params) (lang : Str) : Str :=
  apiTdtPfx ++ "asr_langs=".toList ++ params.asrLangs ++ "&caps=asr&expire=".toList ++
    params.expire ++ "&format=1&hl=&key=yttt1&kind=asr&lang=".toList ++ lang ++
    "&name=&signature=".toList ++ params.signature ++
    "&sparams=asr_langs%2Ccaps%2Cv%2Cexpire&ts=&type=track&v=".toList ++ params.v

def origSubUrl (params : Params) (vId name lang : Str) : Str :=
  apiTdtPfx ++ "type=track=".toList ++ vId ++ "&name=".toList ++ name ++ "&lang=".toList ++ lang ++
    "&v=".toList ++ params.v

def subText (info : SubInfo) (url reply : Str) : Str :=
  ['['] ++ info.name ++ "][".toList ++ url ++ "]\n".toList ++ reply ++ ['\n']

/-- `result`, the last `sub_url`, and `downloaded_sub_cnt`. -/
structure Downloads where
  result : Str → Str
  subUrl : Str
  cnt : ℕ

/-- Where a track is downloaded from: without a name it has been made automatically. -/
def trackUrl (params : Params) (track name lang : Str) : Option (Str × SubInfo) :=
  if name = [] then some (autoSubUrl params lang, .auto)
  else do
    let vId ← getTagParamVal "id".toList track
    return (origSubUrl params vId name lang, .orig)

/-- One track. -/
def trackPass (getHtmlText : Str → Option Str) (params : Params) (d : Downloads) (track : Str) :
    Option Downloads := do
  let name ← getTagParamVal "name".toList track
  let lang ← getTagParamVal "lang_code".toList track
  if lang = ru ∨ lang = en then
    let (subUrl, info) ← trackUrl params track name lang
    let reply ← getHtmlText subUrl
    return { result := Function.update d.result lang (subText info subUrl reply)
             subUrl
             cnt := d.cnt + 1 }
  else return d

/-- A language without a track is translated. -/
def tranPass (getHtmlText : Str → Option Str) (subUrl : Str) (result : Str → Str) (lang : Str) :
    Option (Str → Str) :=
  if result lang = [] then do
    let tranSubUrl := subUrl ++ "&tlang=".toList ++ lang
    let reply ← getHtmlText tranSubUrl
    return Function.update result lang (subText .tran tranSubUrl reply)
  else some result

/-- `getSubs`, without the number of words; undefined is an exception, or no end. -/
def getSubs (fuel : ℕ) (getHtmlText : Str → Str → Option Str) (params : Params) :
    Option (List (Str × Str)) := do
  let subsList ← getHtmlText (subsListUrl params) "transcript_list".toList
  let tracks ← getTags fuel "track".toList subsList
  let getSub (url : Str) := getHtmlText url "text start".toList
  let d ← tracks.foldlM (fun d piece => trackPass getSub params d (piece.text subsList))
    { result := fun _ => [], subUrl := [], cnt := 0 }
  let result ←
    if 0 < d.cnt ∧ d.cnt < 2 then [ru, en].foldlM (tranPass getSub d.subUrl) d.result
    else some d.result
  return [ru, en].map fun lang => (lang, result lang)

/-- The file that `save` writes. -/
def subsDump (subs : List (Str × Str)) : Str :=
  subs.flatMap fun entry => ['['] ++ entry.1 ++ [']'] ++ entry.2

/-! ## Tracks -/

/-- An element of a transcript, and what is in front of it. -/
structure Element where
  before : Str
  start : Str
  dur : Str
  body : Str
  noMarkBefore : '<' ∉ before
  noQuoteStart : '"' ∉ start
  noMarkStart : '<' ∉ start
  noQuoteDur : '"' ∉ dur
  noMarkDur : '<' ∉ dur
  noMarkBody : '<' ∉ body

def Element.text (e : Element) : Str :=
  e.before ++ ("<text start=\"".toList ++ (e.start ++ ("\" dur=\"".toList ++ (e.dur ++
    ("\">".toList ++ (e.body ++ "</text>".toList))))))

/-- What is downloaded: an XML header, and a transcript. -/
structure Transcript where
  header : Str
  blank : Str
  elements : List Element
  behind : Str
  after : Str
  isDeclaration : header.head? = some '?'
  noMarkHeader : '<' ∉ header
  noEndHeader : '>' ∉ header
  isBlank : ∀ c ∈ blank, isSpace c = true
  noMarkBehind : '<' ∉ behind
  isBlankAfter : ∀ c ∈ after, isSpace c = true

/-- What stands inside of the transcript. -/
def Transcript.data (t : Transcript) : Str := t.elements.flatMap Element.text ++ t.behind

def Transcript.reply (t : Transcript) : Str :=
  '<' :: (t.header ++ '>' :: (t.blank ++ ("<transcript>".toList ++ (t.data ++
    ("</transcript>".toList ++ t.after)))))

structure Sub where
  info : SubInfo
  url : Str
  transcript : Transcript

/-- The text of a language, which may be empty. -/
def trackText : Option Sub → Str
  | none => []
  | some sub => subText sub.info sub.url sub.transcript.reply

/-- The starts and the durations of the elements. -/
def Transcript.times (t : Transcript) : Str :=
  t.elements.flatMap fun e => e.start ++ [' '] ++ e.dur ++ ['\n']

/-- What is found for a language is what its track says. -/
def Found (code : SubInfo → ℕ) : Option Sub → Option Subtitles → Prop
  | none, found => found = none
  | some sub, found => ∃ s, found = some s ∧ s.type = code sub.info ∧
      s.timeInfo = wrapCDATA sub.transcript.times

/-- **The tracks are recovered** from the file. -/
def Recovered (html5 : Str → Option Str) (subsTypes : Str → Option ℕ) (code : SubInfo → ℕ)
    (russian english : Option Sub) : Prop :=
  ∃ result, parseSub html5 subsTypes [ru, en]
      (subsDump [(ru, trackText russian), (en, trackText english)]) = some result ∧
    ∃ foundRu foundEn, result = [(ru, foundRu), (en, foundEn)] ∧ Found code russian foundRu ∧
      Found code english foundEn

/-! ## Tracks are what is returned -/

/-- Every language has the text of a track, and the url of a track is of some kind. -/
def HaveTracks (P : Str → Prop) (result : Str → Str) : Prop :=
  ∀ lang, ∃ track, result lang = trackText track ∧ ∀ sub ∈ track, P sub.url

theorem HaveTracks.update {P : Str → Prop} {result : Str → Str} (h : HaveTracks P result)
    (lang : Str) (sub : Sub) (hsub : P sub.url) :
    HaveTracks P (Function.update result lang (trackText (some sub))) := by
  intro lang'
  by_cases heq : lang' = lang
  · subst heq
    refine ⟨some sub, Function.update_self _ _ _, ?_⟩
    rintro _ ⟨rfl⟩
    exact hsub
  · rw [Function.update_of_ne heq]
    exact h lang'

/-- What is known behind some tracks: also the url that a translation is made from. -/
def Downloads.Holds (P : Str → Prop) (d : Downloads) : Prop :=
  HaveTracks P d.result ∧ (0 < d.cnt → P d.subUrl)

section

variable {P : Str → Prop} {getHtmlText : Str → Option Str}
  (hreply : ∀ url reply, getHtmlText url = some reply → ∃ t : Transcript, reply = t.reply)

include hreply

theorem trackPass_holds {params : Params} {d d' : Downloads} {track : Str}
    (hurl : ∀ name lang subUrl info, getTagParamVal "name".toList track = some name →
      lang = ru ∨ lang = en → trackUrl params track name lang = some (subUrl, info) → P subUrl)
    (hd : d.Holds P) (h : trackPass getHtmlText params d track = some d') : d'.Holds P := by
  simp only [trackPass, Option.bind_eq_bind, Option.bind_eq_some_iff] at h
  obtain ⟨name, hname, lang, -, h⟩ := h
  split at h
  · rename_i hlang
    simp only [Option.bind_eq_some_iff] at h
    obtain ⟨⟨subUrl, info⟩, htrack, reply, hget, h⟩ := h
    obtain ⟨t, rfl⟩ := hreply subUrl reply hget
    have hsub := hurl name lang subUrl info hname hlang htrack
    cases h
    exact ⟨hd.1.update lang ⟨info, subUrl, t⟩ hsub, fun _ => hsub⟩
  · cases h
    exact hd

theorem tranPass_haveTracks {subUrl : Str} {result result' : Str → Str} {lang : Str}
    (hurl : P (subUrl ++ "&tlang=".toList ++ lang)) (hresult : HaveTracks P result)
    (h : tranPass getHtmlText subUrl result lang = some result') : HaveTracks P result' := by
  rw [tranPass] at h
  split at h
  · simp only [Option.bind_eq_bind, Option.bind_eq_some_iff] at h
    obtain ⟨reply, hget, h⟩ := h
    obtain ⟨t, rfl⟩ := hreply _ reply hget
    cases h
    exact hresult.update lang ⟨.tran, _, t⟩ hurl
  · cases h
    exact hresult

end

/-- **What `getSubs` returns**, if only transcripts are downloaded: for each language a track, or
nothing. A property of urls that a list of tracks gives, and a translation keeps, is one of these
tracks. -/
theorem getSubs_tracks {P : Str → Prop} {fuel : ℕ} {getHtmlText : Str → Str → Option Str}
    {params : Params} {subs : List (Str × Str)}
    (hreply : ∀ url reply, getHtmlText url "text start".toList = some reply →
      ∃ t : Transcript, reply = t.reply)
    (hurl : ∀ subsList, getHtmlText (subsListUrl params) "transcript_list".toList = some subsList →
      ∀ (piece : TagPiece) name lang subUrl info,
      getTagParamVal "name".toList (piece.text subsList) = some name → lang = ru ∨ lang = en →
      trackUrl params (piece.text subsList) name lang = some (subUrl, info) → P subUrl)
    (htran : ∀ subUrl, P subUrl → ∀ lang, lang = ru ∨ lang = en →
      P (subUrl ++ "&tlang=".toList ++ lang))
    (h : getSubs fuel getHtmlText params = some subs) :
    ∃ russian english, subs = [(ru, trackText russian), (en, trackText english)] ∧
      (∀ sub ∈ russian, P sub.url) ∧ ∀ sub ∈ english, P sub.url := by
  simp only [getSubs, foldlM_eq_runFrom, Option.bind_eq_bind, Option.bind_eq_some_iff] at h
  obtain ⟨subsList, hlist, tracks, -, d, hd, h⟩ := h
  have hholds : d.Holds P := by
    refine runFrom_inv_of_forall (P := fun _ => True) (Downloads.Holds P) ?_ ?_
      (fun _ _ => trivial) hd
    · exact fun hs _ hstep => trackPass_holds hreply (hurl subsList hlist _) hs hstep
    · exact ⟨fun _ => ⟨none, rfl, nofun⟩, fun hcnt => absurd hcnt (Nat.lt_irrefl 0)⟩
  have hreturned : ∀ result : Str → Str, HaveTracks P result → ∃ russian english,
      [ru, en].map (fun lang => (lang, result lang))
        = [(ru, trackText russian), (en, trackText english)] ∧
      (∀ sub ∈ russian, P sub.url) ∧ ∀ sub ∈ english, P sub.url := by
    intro result hresult
    obtain ⟨russian, hru, hurlRu⟩ := hresult ru
    obtain ⟨english, hen, hurlEn⟩ := hresult en
    refine ⟨russian, english, ?_, hurlRu, hurlEn⟩
    rw [← hru, ← hen]
    rfl
  split at h
  · rename_i hcnt
    obtain ⟨result, hrun, h⟩ := Option.bind_eq_some_iff.mp h
    cases h
    refine hreturned result (runFrom_inv_of_forall (P := fun lang => lang = ru ∨ lang = en)
      (HaveTracks P) (fun hs hlang hstep => ?_) hholds.1 ?_ hrun)
    · exact tranPass_haveTracks hreply (htran d.subUrl (hholds.2 hcnt.1) _ hlang) hs hstep
    · intro lang hlang
      simpa using hlang
  · cases h
    exact hreturned d.result hholds.1

/-! ## The elements of a transcript -/

theorem textPattern_of_ne {a : Char} (h : a ≠ '<') (s : Str) : textPattern.ways (a :: s) = [] := by
  have hlit : "<text start=\"".toList = '<' :: "text start=\"".toList := by decide
  rw [textPattern, hlit]
  exact Regex.lit_seq_of_ne h _ s _

/-- What is found of an element. -/
def Element.groups (e : Element) : Groups Char := [(3, e.body), (2, e.dur), (1, e.start)]

/-- **An element is found** where it stands: each lazy group ends at the next quote or mark. -/
theorem textPattern_element (e : Element) (t : Str) :
    (textPattern.ways ("<text start=\"".toList ++ (e.start ++ ("\" dur=\"".toList ++ (e.dur ++
      ("\">".toList ++ (e.body ++ ("</text>".toList ++ t)))))))).head? = some (e.groups, t) := by
  have hdur : "\" dur=\"".toList = '"' :: " dur=\"".toList := by decide
  have hend : "\">".toList = '"' :: ">".toList := by decide
  have htext : "</text>".toList = '<' :: "/text>".toList := by decide
  have hbody : ((Regex.seq (.lazy 3) (.lit "</text>".toList)).ways
      (e.body ++ ("</text>".toList ++ t))).head? = some ([(3, e.body)], t) := by
    have hways := Regex.lit_ways "</text>".toList t
    have hbarren : Barren (.lit "</text>".toList) e.body ("</text>".toList ++ t) := by
      rw [htext]
      exact .lit e.noMarkBody _ _
    rw [Regex.head_lazy_seq 3 hbarren, hways]
    · rfl
    · rw [hways]
      exact List.cons_ne_nil _ _
  rw [textPattern, Regex.lit_seq, hdur, hend]
  exact Regex.head_lazy_lit 1 e.noQuoteStart (Regex.head_lazy_lit 2 e.noQuoteDur hbody)

theorem Element.text_append (e : Element) (t : Str) : e.text ++ t =
    e.before ++ ("<text start=\"".toList ++ (e.start ++ ("\" dur=\"".toList ++ (e.dur ++
      ("\">".toList ++ (e.body ++ ("</text>".toList ++ t))))))) := by
  simp only [Element.text, List.append_assoc]

/-- **The elements of a transcript are found**, in order. -/
theorem elementsOf_data (t : Transcript) : elementsOf t.data = t.elements.map Element.groups := by
  have hbarren : ∀ {v : Str}, '<' ∉ v → ∀ s, Barren textPattern v s := fun hv s =>
    .of_notMem (fun _ s h => textPattern_of_ne h s) hv s
  unfold Transcript.data elementsOf
  induction t.elements with
  | nil =>
    have hskip := finditer_skip (hbarren t.noMarkBehind [])
    rwa [List.append_nil] at hskip
  | cons e elements ih =>
    rw [List.flatMap_cons, List.append_assoc, Element.text_append,
      finditer_skip (hbarren e.noMarkBefore _), finditer_hit (textPattern_element e _), ih]
    · rfl
    · simp only [List.length_append]
      have hpos : 0 < "</text>".toList.length := by decide
      omega

/-! ## Sections -/

/-- A name in brackets. -/
def bracket (name : Str) : Str := '[' :: (name ++ [']'])

def bracketPattern : Regex Char :=
  .seq (.lit ['[']) (.seq (.star true (.one (· ≠ ']'))) (.lit [']']))

/-- The pattern behind the brackets. -/
def bodyPattern : Regex Char :=
  .seq (.star true (.one isSpace)) (.seq (.lit ['<']) (.seq .dots (.seq (.lit ['>'])
    (.seq (.star true (.one isSpace)) (.seq (.lit "<transcript>".toList)
      (.seq (.lazy 2) (.lit "</transcript>".toList)))))))

theorem sectionPattern_eq :
    sectionPattern = .seq (.group 1 (.rep bracketPattern 3)) bodyPattern := rfl

theorem bracketPattern_ways {name : Str} (h : ']' ∉ name) (t : Str) :
    bracketPattern.ways (bracket name ++ t) = [([], t)] := by
  have hshape : bracket name ++ t = ['['] ++ (name ++ (']' :: t)) := by
    simp [bracket]
  rw [hshape, bracketPattern, Regex.lit_seq, Regex.greedy_seq]
  · exact Regex.lit_ways [']'] t
  · intro a s ha
    refine Regex.lit_ways_of_not fun hprefix => ?_
    rw [← (List.cons_prefix_cons.mp hprefix).1] at ha
    cases ha
  · intro a ha
    apply decide_eq_true
    rintro rfl
    exact h ha
  · intro a ha
    cases ha
    rfl

theorem bracketPattern_of_ne {s : Str} (h : ∀ a ∈ s.head?, a ≠ '[') :
    bracketPattern.ways s = [] := by
  cases s with
  | nil => exact Regex.lit_seq_of_not (by simp) _
  | cons a s => exact Regex.lit_seq_of_ne (h a rfl) [] s _

theorem bracketPattern_nil : bracketPattern.ways [] = [] := bracketPattern_of_ne (by simp)

theorem bracketPattern_bracket {name : Str} (h : ']' ∉ name) :
    bracketPattern.ways (bracket name) = [([], [])] := by
  have hways := bracketPattern_ways h []
  rwa [List.append_nil] at hways

theorem sectionPattern_of_rep {s : Str} (h : (Regex.rep bracketPattern 3).ways s = []) :
    sectionPattern.ways s = [] := by
  rw [sectionPattern_eq]
  apply Regex.seq_of_nil
  rw [Regex.ways, h, List.map_nil]

theorem sectionPattern_of_ne {a : Char} (h : a ≠ '[') (s : Str) :
    sectionPattern.ways (a :: s) = [] := by
  have hbracket : bracketPattern.ways (a :: s) = [] := by
    apply bracketPattern_of_ne
    intro b hb
    cases hb
    exact h
  exact sectionPattern_of_rep (Regex.seq_of_nil hbracket _)

/-- Fewer brackets are not enough. -/
theorem sectionPattern_two {x y : Str} (hx : ']' ∉ x) (hy : ']' ∉ y) :
    sectionPattern.ways (bracket x ++ bracket y) = [] := by
  refine sectionPattern_of_rep ((Regex.seq_of_way (bracketPattern_ways hx _) _).trans ?_)
  exact (Regex.seq_of_way (bracketPattern_bracket hy) _).trans
    (Regex.seq_of_nil bracketPattern_nil _)

theorem sectionPattern_one {x : Str} (hx : ']' ∉ x) : sectionPattern.ways (bracket x) = [] :=
  sectionPattern_of_rep ((Regex.seq_of_way (bracketPattern_bracket hx) _).trans
    (Regex.seq_of_nil bracketPattern_nil _))

/-- Behind three of them stands the rest. -/
theorem sectionPattern_three {x y z : Str} (hx : ']' ∉ x) (hy : ']' ∉ y) (hz : ']' ∉ z) (t : Str) :
    sectionPattern.ways (bracket x ++ (bracket y ++ (bracket z ++ t)))
      = (bodyPattern.ways t).map
          fun w => (w.1 ++ [(1, bracket x ++ (bracket y ++ bracket z))], w.2) := by
  have hrep : (Regex.rep bracketPattern 3).ways (bracket x ++ (bracket y ++ (bracket z ++ t)))
      = [([], t)] := by
    refine (Regex.seq_of_way (bracketPattern_ways hx _) _).trans ?_
    refine (Regex.seq_of_way (bracketPattern_ways hy _) _).trans ?_
    exact (Regex.seq_of_way (bracketPattern_ways hz _) _).trans rfl
  have hgroup : (Regex.group 1 (Regex.rep bracketPattern 3)).ways
      (bracket x ++ (bracket y ++ (bracket z ++ t)))
        = [([(1, bracket x ++ (bracket y ++ bracket z))], t)] := by
    have hshape : bracket x ++ (bracket y ++ (bracket z ++ t))
        = (bracket x ++ (bracket y ++ bracket z)) ++ t := by
      simp only [List.append_assoc]
    rw [Regex.ways, hrep, List.map_singleton, hshape, List.length_append, Nat.add_sub_cancel,
      List.take_left]
  rw [sectionPattern_eq, Regex.seq_of_ways hgroup]

/-! ## What stands behind the brackets -/

/-- A blank does not begin a tag. -/
theorem tag_of_isSpace {a : Char} (ha : isSpace a = true) (l s : Str) (r : Regex Char) :
    (Regex.seq (.lit ('<' :: l)) r).ways (a :: s) = [] := by
  apply Regex.lit_seq_of_ne
  rintro rfl
  revert ha
  decide

theorem bodyPattern_bracket (name s : Str) : bodyPattern.ways (bracket name ++ s) = [] := by
  have hblank : ∀ a ∈ (bracket name ++ s).head?, isSpace a = false := by
    intro a ha
    cases ha
    decide
  refine (Regex.greedy_seq (v := []) (fun _ s ha => tag_of_isSpace ha [] s _) ?_ hblank).trans ?_
  · exact fun a ha => absurd ha List.not_mem_nil
  · exact Regex.lit_seq_of_ne (by decide) [] ((name ++ [']']) ++ s) _

/-- A tag of the transcript does not stand inside of it. -/
theorem barren_data {tag : Str}
    (hopen : ∀ s, ¬ '<' :: tag <+: "<text start=\"".toList ++ s)
    (hclose : ∀ s, ¬ '<' :: tag <+: "</text>".toList ++ s) (t : Transcript) (s : Str) :
    Barren (.lit ('<' :: tag)) t.data s := by
  have hclean : ∀ {v : Str}, '<' ∉ v → ∀ s, Barren (.lit ('<' :: tag)) v s :=
    fun hv s => .lit hv tag s
  have hmark : ∀ {v : Str}, '<' ∉ v → (∀ s, ¬ '<' :: tag <+: '<' :: v ++ s) →
      ∀ s, Barren (.lit ('<' :: tag)) ('<' :: v) s := fun hv hnot s =>
    .cons (Regex.lit_ways_of_not (hnot s)) (hclean hv s)
  have htext : "<text start=\"".toList = '<' :: "text start=\"".toList := by decide
  have hend : "</text>".toList = '<' :: "/text>".toList := by decide
  rw [htext] at hopen
  rw [hend] at hclose
  unfold Transcript.data
  induction t.elements with
  | nil => exact hclean t.noMarkBehind s
  | cons e elements ih =>
    rw [List.flatMap_cons, List.append_assoc, Element.text, htext, hend]
    refine .append ?_ ih
    refine .append (hclean e.noMarkBefore _) (.append (hmark (by decide) hopen _) ?_)
    refine .append (hclean e.noMarkStart _) (.append (hclean (by decide) _) ?_)
    refine .append (hclean e.noMarkDur _) (.append (hclean (by decide) _) ?_)
    exact .append (hclean e.noMarkBody _) (hmark (by decide) hclose _)

theorem barren_data_end (t : Transcript) (s : Str) :
    Barren (.lit "</transcript>".toList) t.data s := by
  have hlit : "</transcript>".toList = '<' :: '/' :: 't' :: 'r' :: "anscript>".toList := by decide
  have htext : "<text start=\"".toList = '<' :: 't' :: "ext start=\"".toList := by decide
  have hend : "</text>".toList = '<' :: '/' :: 't' :: 'e' :: "xt>".toList := by decide
  rw [hlit]
  apply barren_data
  · intro s
    rw [htext]
    simp
  · intro s
    rw [hend]
    simp

theorem bodyPattern_reply (t : Transcript) (s : Str) :
    (bodyPattern.ways ('\n' :: (t.reply ++ s))).head? = some ([(2, t.data)], t.after ++ s) := by
  have hshape : '\n' :: (t.reply ++ s) = ['\n'] ++ (['<'] ++ (t.header ++ (['>'] ++ (t.blank ++
      ("<transcript>".toList ++ (t.data ++ ("</transcript>".toList ++ (t.after ++ s)))))))) := by
    simp only [Transcript.reply, List.append_assoc, List.cons_append, List.nil_append]
  have htranscript : "<transcript>".toList = '<' :: "transcript>".toList := by decide
  have hends : ∀ l s : Str, ∀ a ∈ ('<' :: l ++ s).head?, isSpace a = false := by
    intro l s a ha
    cases ha
    decide
  have hdata : ((Regex.seq (.lazy 2) (.lit "</transcript>".toList)).ways
      (t.data ++ ("</transcript>".toList ++ (t.after ++ s)))).head?
        = some ([(2, t.data)], t.after ++ s) := by
    have hways := Regex.lit_ways "</transcript>".toList (t.after ++ s)
    rw [Regex.head_lazy_seq 2 (barren_data_end t _), hways]
    · rfl
    · rw [hways]
      exact List.cons_ne_nil _ _
  have hafter : ((Regex.seq (.star true (.one isSpace)) (.seq (.lit "<transcript>".toList)
      (.seq (.lazy 2) (.lit "</transcript>".toList)))).ways (t.blank ++ ("<transcript>".toList ++
        (t.data ++ ("</transcript>".toList ++ (t.after ++ s)))))).head?
          = some ([(2, t.data)], t.after ++ s) := by
    rw [htranscript, Regex.greedy_seq (fun _ s ha => tag_of_isSpace ha _ s _) t.isBlank
      (hends _ _), Regex.lit_seq, hdata]
  have hnewline : ∀ a ∈ ['\n'], isSpace a = true := List.forall_mem_singleton.mpr rfl
  rw [hshape, bodyPattern, Regex.greedy_seq (fun _ s ha => tag_of_isSpace ha _ s _) hnewline
    (hends [] _), Regex.lit_seq]
  exact Regex.head_dots_lit t.noEndHeader hafter

/-! ## The sections of a file -/

/-- The brackets of a track. -/
def Sub.brackets (lang : Str) (sub : Sub) : Str :=
  bracket lang ++ (bracket sub.info.name ++ bracket sub.url)

def Sub.groups (lang : Str) (sub : Sub) : Groups Char :=
  [(2, sub.transcript.data), (1, sub.brackets lang)]

theorem trackText_append (sub : Sub) (s : Str) : trackText (some sub) ++ s
    = bracket sub.info.name ++ (bracket sub.url ++
      ('\n' :: (sub.transcript.reply ++ ('\n' :: s)))) := by
  have hbrackets : "][".toList = [']', '['] := by decide
  have hend : "]\n".toList = [']', '\n'] := by decide
  simp [trackText, subText, bracket, hbrackets, hend]

theorem noClose_name (info : SubInfo) : ']' ∉ info.name := by
  cases info <;> decide

/-- **A track is found** behind its language. -/
theorem sectionPattern_track {lang : Str} {sub : Sub} (hlang : ']' ∉ lang) (hurl : ']' ∉ sub.url)
    (s : Str) : (sectionPattern.ways (bracket lang ++ (trackText (some sub) ++ s))).head?
      = some (sub.groups lang, sub.transcript.after ++ '\n' :: s) := by
  rw [trackText_append, sectionPattern_three hlang (noClose_name _) hurl, List.head?_map,
    bodyPattern_reply]
  rfl

theorem barren_of_noOpen {v : Str} (h : '[' ∉ v) (s : Str) : Barren sectionPattern v s :=
  .of_notMem (fun _ s ha => sectionPattern_of_ne ha s) h s

theorem noOpen_close {name : Str} (h : '[' ∉ name) : '[' ∉ name ++ [']'] := by
  rw [List.mem_append, not_or]
  exact ⟨h, by decide⟩

theorem finditer_track {lang : Str} {sub : Sub} (hlang : ']' ∉ lang) (hurl : ']' ∉ sub.url)
    (s : Str) : finditer sectionPattern (bracket lang ++ (trackText (some sub) ++ s))
      = sub.groups lang :: finditer sectionPattern s := by
  have hafter : '[' ∉ sub.transcript.after ++ ['\n'] := by
    rw [List.mem_append, List.mem_singleton]
    rintro (hmem | heq)
    · exact absurd (sub.transcript.isBlankAfter _ hmem) (by decide)
    · exact absurd heq (by decide)
  have hlt : (sub.transcript.after ++ '\n' :: s).length
      < (bracket lang ++ (trackText (some sub) ++ s)).length := by
    rw [trackText_append]
    simp only [bracket, Transcript.reply, List.length_append, List.length_cons]
    omega
  rw [finditer_hit (sectionPattern_track hlang hurl s) hlt, List.append_cons,
    finditer_skip (barren_of_noOpen hafter s)]

/-- What is found of a language. -/
def sectionsOf (lang : Str) : Option Sub → List (Groups Char)
  | none => []
  | some sub => [sub.groups lang]

/-- The url of a track has no closing bracket. -/
def NoClose (track : Option Sub) : Prop := ∀ sub ∈ track, ']' ∉ sub.url

/-- The last language of a file. -/
theorem finditer_last (lang : Str) (hlang : ']' ∉ lang) (hopen : '[' ∉ lang) {track : Option Sub}
    (h : NoClose track) : finditer sectionPattern (bracket lang ++ trackText track)
      = sectionsOf lang track := by
  cases track with
  | none =>
    have hbarren : Barren sectionPattern (bracket lang) [] := by
      refine .cons ?_ (barren_of_noOpen (noOpen_close hopen) [])
      rw [List.append_nil]
      exact sectionPattern_one hlang
    exact finditer_skip hbarren
  | some sub =>
    have hfound := finditer_track hlang (h sub rfl) []
    rwa [List.append_nil] at hfound

/-- **A language without a track** in front of the next one: three brackets stand in a row too
early. -/
theorem barren_bracket (lang lang' : Str) (hlang : ']' ∉ lang) (hopen : '[' ∉ lang)
    (hlang' : ']' ∉ lang') (track : Option Sub) :
    Barren sectionPattern (bracket lang) (bracket lang' ++ trackText track) := by
  refine .cons ?_ (barren_of_noOpen (noOpen_close hopen) _)
  show sectionPattern.ways (bracket lang ++ (bracket lang' ++ trackText track)) = []
  cases track with
  | none =>
    rw [trackText, List.append_nil]
    exact sectionPattern_two hlang hlang'
  | some sub =>
    have htext := trackText_append sub []
    rw [List.append_nil] at htext
    rw [htext, sectionPattern_three hlang hlang' (noClose_name _), bodyPattern_bracket,
      List.map_nil]

theorem subsDump_eq (russian english : Option Sub) :
    subsDump [(ru, trackText russian), (en, trackText english)]
      = bracket ru ++ (trackText russian ++ (bracket en ++ trackText english)) := by
  simp [subsDump, bracket]

/-- Without a Russian track the file begins with nothing that is a section. -/
theorem finditer_bracket_ru (english : Option Sub) :
    finditer sectionPattern (bracket ru ++ (bracket en ++ trackText english))
      = finditer sectionPattern (bracket en ++ trackText english) :=
  finditer_skip (barren_bracket ru en (by decide) (by decide) (by decide) english)

/-- **All sections of a file are found.** -/
theorem finditer_subsDump {russian english : Option Sub} (hru : NoClose russian)
    (hen : NoClose english) :
    finditer sectionPattern (subsDump [(ru, trackText russian), (en, trackText english)])
      = sectionsOf ru russian ++ sectionsOf en english := by
  have hlast := finditer_last en (by decide) (by decide) hen
  rw [subsDump_eq]
  cases russian with
  | none =>
    exact (finditer_bracket_ru english).trans hlast
  | some sub =>
    rw [finditer_track (by decide) (hru sub rfl), hlast]
    rfl

/-! ## What is read -/

theorem langOf_brackets {lang : Str} (h : lang.length = 2) (sub : Sub) :
    langOf (sub.brackets lang) = lang := by
  show ((lang ++ [']']) ++ (bracket sub.info.name ++ bracket sub.url)).take 2 = lang
  rw [List.append_assoc, List.take_left' h]

theorem typeOf_brackets {lang : Str} (h : lang.length = 2) (sub : Sub) :
    typeOf (sub.brackets lang) = sub.info.name := by
  have hlen : ('[' :: (lang ++ [']', '['])).length = 5 := by
    simp only [List.length_cons, List.length_append, h, List.length_nil]
  have hshape : sub.brackets lang = ('[' :: (lang ++ [']', '['])) ++
      (sub.info.name ++ (']' :: bracket sub.url)) := by
    simp [Sub.brackets, bracket]
  have hname : sub.info.name.length = 4 := by
    cases sub.info <;> rfl
  rw [typeOf, hshape, List.drop_left' hlen, List.take_left' hname]

/-- What is put down for a track. -/
def Sub.subtitles (html5 : Str → Option Str) (code : SubInfo → ℕ) (lang : Str) (sub : Sub) :
    Subtitles :=
  parseSection html5 lang (code sub.info) sub.transcript.data

/-- What the loop over the sections does with it. -/
def setTrack (html5 : Str → Option Str) (code : SubInfo → ℕ) (lang : Str) (track : Option Sub)
    (result : List (Str × Option Subtitles)) : List (Str × Option Subtitles) :=
  track.elim result fun sub => setLang lang (some (sub.subtitles html5 code lang)) result

theorem Transcript.timeInfo_data (html5 : Str → Option Str) (lang : Str) (type : ℕ)
    (t : Transcript) : (parseSection html5 lang type t.data).timeInfo = wrapCDATA t.times := by
  have htimes : (elementsOf t.data).flatMap (fun m => timeLine m ++ ['\n']) = t.times := by
    rw [elementsOf_data, List.flatMap_map]
    rfl
  rw [parseSection, htimes]

/-- **A track is put down** for its language. -/
theorem parseSections_track (html5 : Str → Option Str) {subsTypes : Str → Option ℕ}
    {code : SubInfo → ℕ} (hcode : ∀ info, subsTypes info.name = some (code info)) (lang : Str)
    (hlang : lang.length = 2) {result : List (Str × Option Subtitles)}
    (hthere : (result.lookup lang).isNone = false) (track : Option Sub)
    (sections : List (Groups Char)) :
    parseSections html5 subsTypes result (sectionsOf lang track ++ sections)
      = parseSections html5 subsTypes (setTrack html5 code lang track result) sections := by
  cases track with
  | none => rfl
  | some sub =>
    have hinfo : Groups.get (sub.groups lang) 1 = sub.brackets lang := rfl
    have hdata : Groups.get (sub.groups lang) 2 = sub.transcript.data := rfl
    rw [sectionsOf, List.singleton_append, parseSections, hinfo, hdata, langOf_brackets hlang,
      typeOf_brackets hlang, hcode, hthere]
    rfl

theorem found_subtitles (html5 : Str → Option Str) (code : SubInfo → ℕ) (lang : Str)
    (track : Option Sub) : Found code track (track.map (Sub.subtitles html5 code lang)) := by
  cases track with
  | none => rfl
  | some sub => exact ⟨_, rfl, rfl, sub.transcript.timeInfo_data html5 lang _⟩

/-- **Tracks are recovered** if no url has a closing bracket. -/
theorem parseSub_subsDump (html5 : Str → Option Str) {subsTypes : Str → Option ℕ}
    {code : SubInfo → ℕ} (hcode : ∀ info, subsTypes info.name = some (code info))
    {russian english : Option Sub} (hru : NoClose russian) (hen : NoClose english) :
    Recovered html5 subsTypes code russian english := by
  refine ⟨_, ?_, russian.map (Sub.subtitles html5 code ru),
    english.map (Sub.subtitles html5 code en), rfl, found_subtitles html5 code ru russian,
    found_subtitles html5 code en english⟩
  have hresult : setTrack html5 code en english (setTrack html5 code ru russian
      ([ru, en].map fun lang => (lang, none)))
        = [(ru, russian.map (Sub.subtitles html5 code ru)),
          (en, english.map (Sub.subtitles html5 code en))] := by
    cases russian <;> cases english <;> rfl
  have hthere : ((setTrack html5 code ru russian ([ru, en].map fun lang => (lang, none))).lookup
      en).isNone = false := by
    cases russian <;> rfl
  have hlast := parseSections_track html5 hcode en rfl hthere english []
  rw [List.append_nil, hresult] at hlast
  rw [parseSub, finditer_subsDump hru hen, parseSections_track html5 hcode ru rfl rfl, hlast]
  rfl

/-! ## Urls without a bracket -/

/-- What of a page the urls are made of has no closing bracket. -/
structure Params.NoClose (params : Params) : Prop where
  asrLangs : ']' ∉ params.asrLangs
  expire : ']' ∉ params.expire
  signature : ']' ∉ params.signature
  v : ']' ∉ params.v

theorem notMem_getTagParamVal {c : Char} {param tag value : Str} (h : c ∉ tag)
    (hvalue : getTagParamVal param tag = some value) : c ∉ value := by
  simp only [getTagParamVal, Option.bind_eq_bind, Option.bind_eq_some_iff] at hvalue
  obtain ⟨⟨start, stop⟩, -, hvalue⟩ := hvalue
  cases hvalue
  exact fun hmem => h (List.mem_of_mem_take (List.mem_of_mem_drop hmem))

theorem TagPiece.notMem_text {c : Char} {text : Str} (h : c ∉ text) (piece : TagPiece) :
    c ∉ piece.text text :=
  fun hmem => h (List.mem_of_mem_take (List.mem_of_mem_drop hmem))

theorem noClose_lang {lang : Str} (h : lang = ru ∨ lang = en) : ']' ∉ lang := by
  rcases h with rfl | rfl <;> decide

theorem noClose_autoSubUrl {params : Params} (hparams : params.NoClose) {lang : Str}
    (hlang : ']' ∉ lang) : ']' ∉ autoSubUrl params lang := by
  have hbegin : ']' ∉ apiTdtPfx ++ "asr_langs=".toList := by decide
  have hexpire : ']' ∉ "&caps=asr&expire=".toList := by decide
  have hformat : ']' ∉ "&format=1&hl=&key=yttt1&kind=asr&lang=".toList := by decide
  have hname : ']' ∉ "&name=&signature=".toList := by decide
  have hsparams : ']' ∉ "&sparams=asr_langs%2Ccaps%2Cv%2Cexpire&ts=&type=track&v=".toList := by
    decide
  have hfront := List.not_mem_append (List.not_mem_append hbegin hparams.asrLangs) hexpire
  have hmiddle := List.not_mem_append (List.not_mem_append hfront hparams.expire) hformat
  have hback := List.not_mem_append (List.not_mem_append hmiddle hlang) hname
  exact List.not_mem_append
    (List.not_mem_append (List.not_mem_append hback hparams.signature) hsparams) hparams.v

theorem noClose_origSubUrl {params : Params} (hparams : params.NoClose) {vId name lang : Str}
    (hvId : ']' ∉ vId) (hname : ']' ∉ name) (hlang : ']' ∉ lang) :
    ']' ∉ origSubUrl params vId name lang := by
  have hbegin : ']' ∉ apiTdtPfx ++ "type=track=".toList := by decide
  have hnameIs : ']' ∉ "&name=".toList := by decide
  have hlangIs : ']' ∉ "&lang=".toList := by decide
  have hvIs : ']' ∉ "&v=".toList := by decide
  have hfront := List.not_mem_append (List.not_mem_append hbegin hvId) hnameIs
  have hmiddle := List.not_mem_append (List.not_mem_append hfront hname) hlangIs
  exact List.not_mem_append (List.not_mem_append (List.not_mem_append hmiddle hlang) hvIs)
    hparams.v

/-- The url of a track, made of a list without a bracket. -/
theorem noClose_trackUrl {params : Params} (hparams : params.NoClose) {track : Str}
    (htrack : ']' ∉ track) {name lang subUrl : Str} {info : SubInfo} (hname : ']' ∉ name)
    (hlang : ']' ∉ lang) (h : trackUrl params track name lang = some (subUrl, info)) :
    ']' ∉ subUrl := by
  unfold trackUrl at h
  split at h
  · have hurl : autoSubUrl params lang = subUrl := congrArg Prod.fst (Option.some.inj h)
    exact hurl ▸ noClose_autoSubUrl hparams hlang
  · simp only [Option.bind_eq_bind, Option.bind_eq_some_iff] at h
    obtain ⟨vId, hid, h⟩ := h
    have hurl : origSubUrl params vId name lang = subUrl := congrArg Prod.fst (Option.some.inj h)
    exact hurl ▸ noClose_origSubUrl hparams (notMem_getTagParamVal htrack hid) hname hlang

/-- **What `getSubs` returns can be found again**, if the list of tracks has no bracket. -/
theorem getSubs_noClose {fuel : ℕ} {getHtmlText : Str → Str → Option Str} {params : Params}
    {subs : List (Str × Str)} (hparams : params.NoClose)
    (hlist : ∀ reply, getHtmlText (subsListUrl params) "transcript_list".toList = some reply →
      ']' ∉ reply)
    (hreply : ∀ url reply, getHtmlText url "text start".toList = some reply →
      ∃ t : Transcript, reply = t.reply)
    (h : getSubs fuel getHtmlText params = some subs) :
    ∃ russian english, subs = [(ru, trackText russian), (en, trackText english)] ∧
      NoClose russian ∧ NoClose english := by
  refine getSubs_tracks (P := fun url => ']' ∉ url) hreply ?_ ?_ h
  · intro subsList hget piece name lang subUrl info hname hlang htrack
    have hpiece := piece.notMem_text (hlist subsList hget)
    exact noClose_trackUrl hparams hpiece (notMem_getTagParamVal hpiece hname)
      (noClose_lang hlang) htrack
  · intro subUrl hsub lang hlang
    exact List.not_mem_append (List.not_mem_append hsub (by decide)) (noClose_lang hlang)

end Amigos.Spider
