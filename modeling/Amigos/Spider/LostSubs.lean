import Amigos.Spider.Subs

/-!
# A bracket that is lost

A `]` in the url of a track ends its bracket. Nothing in front of the transcript begins a section
then (`not_lost`), so the search goes on behind the mark of this transcript, and fewer sections are
found than there are tracks. This is so if the url has no `[` and no `<` of its own; a url with
brackets in the right places is read as if they were those of the track.
-/

set_option autoImplicit false

namespace Amigos.Spider

open Amigos.Lib

/-! ## The pattern -/

theorem bracketPattern_language {v : Str} (h : v ∈ bracketPattern.language) :
    ∃ z, ']' ∉ z ∧ v = bracket z := by
  obtain ⟨opening, hopening, rest, hrest, rfl⟩ := Language.mem_mul.mp h
  obtain ⟨z, hz, closing, hclosing, rfl⟩ := Language.mem_mul.mp hrest
  rw [Regex.language_lit hopening, Regex.language_lit hclosing]
  refine ⟨z, fun hmem => ?_, rfl⟩
  exact of_decide_eq_true (Regex.language_star_one hz _ hmem) rfl

/-- A bracket, whatever is in front of it, and the mark of a transcript behind it. -/
theorem sectionPattern_language {v : Str} (h : v ∈ sectionPattern.language) :
    ∃ w z blank more y, ']' ∉ z ∧ (∀ c ∈ blank, isSpace c = true) ∧
      v = (w ++ (bracket z ++ (blank ++ '<' :: more))) ++ ('<' :: "transcript>".toList ++ y) := by
  rw [sectionPattern_eq] at h
  obtain ⟨brackets, hbrackets, body, hbody, rfl⟩ := Language.mem_mul.mp h
  obtain ⟨x, -, yz, hyz, rfl⟩ := Language.mem_mul.mp hbrackets
  obtain ⟨y, -, zs, hzs, rfl⟩ := Language.mem_mul.mp hyz
  obtain ⟨z', hz, stop, rfl, rfl⟩ := Language.mem_mul.mp hzs
  obtain ⟨z, hclose, rfl⟩ := bracketPattern_language hz
  obtain ⟨blank, hblank, tag, htag, rfl⟩ := Language.mem_mul.mp hbody
  obtain ⟨opening, hopening, name, hname, rfl⟩ := Language.mem_mul.mp htag
  obtain ⟨dots, -, rest, hrest, rfl⟩ := Language.mem_mul.mp hname
  obtain ⟨closing, -, rest', hrest', rfl⟩ := Language.mem_mul.mp hrest
  obtain ⟨blank', -, transcript, htranscript, rfl⟩ := Language.mem_mul.mp hrest'
  obtain ⟨mark, hmark, data, -, rfl⟩ := Language.mem_mul.mp htranscript
  have hlit : "<transcript>".toList = '<' :: "transcript>".toList := by decide
  refine ⟨x ++ y, z, blank, dots ++ (closing ++ blank'), data, hclose,
    Regex.language_star_one hblank, ?_⟩
  rw [Regex.language_lit hopening, Regex.language_lit hmark, hlit]
  simp only [List.append_assoc, List.nil_append, List.cons_append]

/-! ## What is in front of a transcript -/

/-- The brackets of a track and the header of its transcript. -/
def Sub.front (lang : Str) (sub : Sub) : Str :=
  bracket lang ++ (bracket sub.info.name ++ (bracket sub.url ++
    ('\n' :: '<' :: (sub.transcript.header ++ '>' :: sub.transcript.blank))))

/-- A track whose url has a bracket that closes, and neither of the characters that would open a
bracket or a tag. -/
structure Sub.Closed (sub : Sub) : Prop where
  noOpen : '[' ∉ sub.url
  noMark : '<' ∉ sub.url
  close : ']' ∈ sub.url

theorem not_isSpace {c : Char} {blank : Str} (hblank : ∀ a ∈ blank, isSpace a = true)
    (hc : isSpace c = false) : c ∉ blank := fun hmem => by
  rw [hblank c hmem] at hc
  cases hc

theorem noMark_bracket {name : Str} (h : '<' ∉ name) : '<' ∉ bracket name := by
  rw [bracket, List.mem_cons, List.mem_append, List.mem_singleton]
  rintro (heq | hmem | heq)
  · exact absurd heq (by decide)
  · exact h hmem
  · exact absurd heq (by decide)

theorem noMark_name (info : SubInfo) : '<' ∉ info.name := by
  cases info <;> decide

/-- **No bracket reaches the header** but the one of the url, and that one ends too early. -/
theorem Sub.Closed.not_bracket {lang : Str} (hlang : '<' ∉ lang) {sub : Sub} (h : sub.Closed)
    {w z blank more : Str} (hz : ']' ∉ z) (hblank : ∀ c ∈ blank, isSpace c = true) :
    sub.front lang ≠ w ++ (bracket z ++ (blank ++ '<' :: more)) := by
  intro heq
  -- The `<` of the header is the only one.
  have hbrackets :
      '<' ∉ bracket lang ++ (bracket sub.info.name ++ (bracket sub.url ++ ['\n'])) := by
    simp only [List.mem_append, not_or]
    exact ⟨noMark_bracket hlang, noMark_bracket (noMark_name _), noMark_bracket h.noMark,
      by decide⟩
  have hheader : '<' ∉ sub.transcript.header ++ '>' :: sub.transcript.blank := by
    rw [List.mem_append, List.mem_cons]
    rintro (hmem | heq | hmem)
    · exact sub.transcript.noMarkHeader hmem
    · exact absurd heq (by decide)
    · exact not_isSpace sub.transcript.isBlank (by decide) hmem
  have hfront : (bracket lang ++ (bracket sub.info.name ++ (bracket sub.url ++ ['\n']))) ++
      '<' :: (sub.transcript.header ++ '>' :: sub.transcript.blank)
        = (w ++ (bracket z ++ blank)) ++ '<' :: more := by
    rw [Sub.front] at heq
    simpa using heq
  obtain ⟨hend, -, -⟩ := (List.append_cons_inj_of_notMem hbrackets hheader).mp hfront
  -- Only the bracket of the url can be the last one, but it has two ends.
  have hopen : '[' ∉ sub.url ++ [']', '\n'] := by
    rw [List.mem_append, not_or]
    exact ⟨h.noOpen, by decide⟩
  have hcount : ('[' :: (z ++ ']' :: blank)).count ']' = 1 := by
    have hblank' := List.count_eq_zero.mpr (not_isSpace hblank (c := ']') (by decide))
    simp [List.count_append, List.count_eq_zero.mpr hz, hblank']
  have hcount' : 2 ≤ ('[' :: (sub.url ++ [']', '\n'])).count ']' := by
    have hpos := List.count_pos_iff.mpr h.close
    have hone : [']', '\n'].count ']' = 1 := by decide
    rw [List.count_cons_of_ne (by decide), List.count_append, hone]
    exact Nat.succ_le_succ hpos
  have hsplit : w ++ '[' :: (z ++ ']' :: blank)
      = (bracket lang ++ bracket sub.info.name) ++ '[' :: (sub.url ++ [']', '\n']) := by
    simpa [bracket] using hend.symm
  have hsuffix : '[' :: (sub.url ++ [']', '\n']) <:+ '[' :: (z ++ ']' :: blank) := by
    rcases List.append_eq_append_iff.mp hsplit with ⟨v, -, hv⟩ | ⟨v, -, hv⟩
    · exact ⟨v, hv.symm⟩
    · cases v with
      | nil => exact ⟨[], hv⟩
      | cons a v =>
        refine absurd ?_ hopen
        rw [(List.cons.inj hv).2]
        exact List.mem_append_right v List.mem_cons_self
  have hle := hsuffix.sublist.count_le ']'
  omega

/-! ## Transcripts are counted -/

/-- The mark of a transcript. -/
def mark : Str := '<' :: "transcript>".toList

theorem mark_eq : mark = '<' :: 't' :: 'r' :: "anscript>".toList := by decide

theorem barren_noMark {v : Str} (h : '<' ∉ v) (t : Str) : Barren (.lit mark) v t := .lit h _ t

/-- A tag that begins with another character. -/
theorem barren_tag {c : Char} {v : Str} (hc : c ≠ 't') (h : '<' ∉ c :: v) (t : Str) :
    Barren (.lit mark) ('<' :: c :: v) t := by
  refine .cons (Regex.lit_ways_of_not fun hprefix => hc ?_) (barren_noMark h t)
  rw [mark_eq] at hprefix
  exact (List.cons_prefix_cons.mp (List.cons_prefix_cons.mp hprefix).2).1.symm

/-- Behind the mark of a transcript there is none until the transcript ends. -/
theorem occurrences_data (t : Transcript) (s : Str) :
    occurrences mark (t.data ++ ("</transcript>".toList ++ (t.after ++ '\n' :: s)))
      = occurrences mark s := by
  have hdata : ∀ s, Barren (.lit mark) t.data s := by
    intro s
    have htext : "<text start=\"".toList = '<' :: 't' :: "ext start=\"".toList := by decide
    have hend : "</text>".toList = '<' :: '/' :: "text>".toList := by decide
    rw [mark_eq]
    apply barren_data
    · intro s
      rw [htext]
      simp
    · intro s
      rw [hend]
      simp
  have hend : "</transcript>".toList = '<' :: '/' :: "transcript>".toList := by decide
  have hafter : '<' ∉ t.after ++ ['\n'] := by
    rw [List.mem_append, not_or]
    exact ⟨not_isSpace t.isBlankAfter (by decide), by decide⟩
  rw [occurrences_skip (hdata _), hend, occurrences_skip (barren_tag (by decide) (by decide) _),
    List.append_cons, occurrences_skip (barren_noMark hafter _)]

/-- The text of a track: its front, and a transcript. -/
theorem track_text (lang : Str) (sub : Sub) (s : Str) :
    bracket lang ++ (trackText (some sub) ++ s)
      = sub.front lang ++ (mark ++ (sub.transcript.data ++
        ("</transcript>".toList ++ (sub.transcript.after ++ '\n' :: s)))) := by
  have hmark : "<transcript>".toList = mark := by decide
  rw [trackText_append, Transcript.reply, Sub.front, hmark]
  simp only [List.append_assoc, List.cons_append]

/-- **A track that is not closed is lost**: what is found stands behind it. -/
theorem Sub.Closed.finditer_le {lang : Str} (hlang : '<' ∉ lang) {sub : Sub} (h : sub.Closed)
    (s : Str) : (finditer sectionPattern (bracket lang ++ (trackText (some sub) ++ s))).length
      ≤ occurrences mark s := by
  rw [track_text, ← occurrences_data sub.transcript s]
  refine finditer_lost (by decide) (fun word hword => ?_) _
  obtain ⟨w, z, blank, more, y, hz, hblank, rfl⟩ := sectionPattern_language hword
  refine ⟨_, y, rfl, ?_⟩
  rintro v ⟨front, hfront⟩ ⟨rest, hrest⟩
  have heq : sub.front lang
      = (front ++ w) ++ (bracket z ++ (blank ++ '<' :: (more ++ rest))) := by
    rw [← hfront, ← hrest]
    simp only [List.append_assoc, List.cons_append]
  exact h.not_bracket hlang hz hblank heq

theorem barren_front {lang : Str} (hlang : '<' ∉ lang) {sub : Sub} (h : '<' ∉ sub.url) (s : Str) :
    Barren (.lit mark) (sub.front lang) s := by
  have hheader : ∃ header, sub.transcript.header = '?' :: header := by
    have hdeclaration := sub.transcript.isDeclaration
    cases heq : sub.transcript.header with
    | nil =>
      rw [heq] at hdeclaration
      cases hdeclaration
    | cons c header =>
      rw [heq] at hdeclaration
      cases hdeclaration
      exact ⟨header, rfl⟩
  obtain ⟨header, hheader⟩ := hheader
  have hmark := sub.transcript.noMarkHeader
  rw [hheader] at hmark
  have hfront : sub.front lang = (bracket lang ++ (bracket sub.info.name ++ (bracket sub.url ++
      ['\n']))) ++ (('<' :: '?' :: header) ++ ('>' :: sub.transcript.blank)) := by
    rw [Sub.front, hheader]
    simp
  rw [hfront]
  refine .append (barren_noMark ?_ _) (.append (barren_tag (by decide) hmark _)
    (barren_noMark ?_ _))
  · simp only [List.mem_append, not_or]
    exact ⟨noMark_bracket hlang, noMark_bracket (noMark_name _), noMark_bracket h, by decide⟩
  · rw [List.mem_cons, not_or]
    exact ⟨by decide, not_isSpace sub.transcript.isBlank (by decide)⟩

/-- A track has one transcript. -/
theorem occurrences_track {lang : Str} (hlang : '<' ∉ lang) {track : Option Sub}
    (h : ∀ sub ∈ track, '<' ∉ sub.url) :
    occurrences mark (bracket lang ++ trackText track) = track.toList.length := by
  cases track with
  | none =>
    have hskip := occurrences_skip (barren_noMark (noMark_bracket hlang) [])
    rw [trackText, hskip]
    rfl
  | some sub =>
    have htext := track_text lang sub []
    have hrest : '<' ∉ "transcript>".toList := by decide
    rw [List.append_nil] at htext
    rw [htext, occurrences_skip (barren_front hlang (h sub rfl) _), mark, occurrences_lit, ← mark,
      occurrences_skip (barren_noMark hrest _), occurrences_data]
    rfl

/-! ## As many sections as tracks -/

/-- What is found for a language has been a section. -/
theorem exists_section {html5 : Str → Option Str} {subsTypes : Str → Option ℕ} {lang : Str}
    {sections : List (Groups Char)} {result result' : List (Str × Option Subtitles)}
    (hparse : parseSections html5 subsTypes result sections = some result')
    (hnone : result.lookup lang = some none) {s : Subtitles}
    (hs : result'.lookup lang = some (some s)) : ∃ m ∈ sections, langOf (m.get 1) = lang := by
  cases hlast : lastSection lang sections with
  | none =>
    rw [(parseSections_lookup hparse).2 hlast, hnone] at hs
    cases hs
  | some m =>
    rw [lastSection] at hlast
    have hlang := List.find?_some hlast
    exact ⟨m, List.mem_reverse.mp (List.mem_of_find?_eq_some hlast), of_decide_eq_true hlang⟩

/-- **Every track that is recovered has a section of its own.** -/
theorem Recovered.length_le {html5 : Str → Option Str} {subsTypes : Str → Option ℕ}
    {code : SubInfo → ℕ} {russian english : Option Sub}
    (h : Recovered html5 subsTypes code russian english) :
    russian.toList.length + english.toList.length ≤ (finditer sectionPattern
      (subsDump [(ru, trackText russian), (en, trackText english)])).length := by
  obtain ⟨result, hparse, foundRu, foundEn, rfl, hru, hen⟩ := h
  rw [parseSub] at hparse
  generalize finditer sectionPattern
    (subsDump [(ru, trackText russian), (en, trackText english)]) = sections at hparse ⊢
  have hsectionRu : ∀ sub, russian = some sub → ∃ m ∈ sections, langOf (m.get 1) = ru := by
    rintro sub rfl
    obtain ⟨s, rfl, -, -⟩ := hru
    exact exists_section hparse rfl rfl
  have hsectionEn : ∀ sub, english = some sub → ∃ m ∈ sections, langOf (m.get 1) = en := by
    rintro sub rfl
    obtain ⟨s, rfl, -, -⟩ := hen
    exact exists_section hparse rfl rfl
  cases russian with
  | none =>
    cases english with
    | none => exact Nat.zero_le _
    | some sub' =>
      obtain ⟨m, hm, -⟩ := hsectionEn sub' rfl
      exact List.length_pos_of_mem hm
  | some sub =>
    obtain ⟨m, hm, hlang⟩ := hsectionRu sub rfl
    cases english with
    | none => exact List.length_pos_of_mem hm
    | some sub' =>
      obtain ⟨m', hm', hlang'⟩ := hsectionEn sub' rfl
      have hne : m ≠ m' := by
        rintro rfl
        exact absurd (hlang.symm.trans hlang') (by decide)
      have hnodup : [m, m'].Nodup := by
        simpa using hne
      have hsubset : [m, m'] ⊆ sections := by
        simp [hm, hm']
      exact (hnodup.subperm hsubset).length_le

/-- The urls have neither of the characters that open a bracket or a tag. -/
def NoOpen (track : Option Sub) : Prop := ∀ sub ∈ track, '[' ∉ sub.url ∧ '<' ∉ sub.url

theorem Sub.closed_of_not {sub : Sub} (hopen : NoOpen (some sub)) (h : ¬ NoClose (some sub)) :
    sub.Closed := by
  refine ⟨(hopen sub rfl).1, (hopen sub rfl).2, ?_⟩
  by_contra hclose
  refine h fun sub' hsub => ?_
  cases hsub
  exact hclose

/-- **Too few sections**: a track that is closed is lost. -/
theorem length_finditer_lt_of_closed {russian english : Option Sub} (hru : NoOpen russian)
    (hen : NoOpen english) (h : ¬ (NoClose russian ∧ NoClose english)) :
    (finditer sectionPattern (subsDump [(ru, trackText russian), (en, trackText english)])).length
      < russian.toList.length + english.toList.length := by
  have hmarkRu : '<' ∉ ru := by decide
  have hmarkEn : '<' ∉ en := by decide
  have hlost : ∀ sub, english = some sub → sub.Closed →
      finditer sectionPattern (bracket en ++ trackText english) = [] := by
    rintro sub rfl hclosed
    have hle := hclosed.finditer_le hmarkEn []
    rw [List.append_nil] at hle
    exact List.length_eq_zero_iff.mp (Nat.le_zero.mp hle)
  rw [subsDump_eq]
  cases russian with
  | none =>
    cases english with
    | none => exact absurd ⟨nofun, nofun⟩ h
    | some sub =>
      have hclosed := Sub.closed_of_not hen fun hclose => h ⟨nofun, hclose⟩
      rw [trackText, List.nil_append, finditer_bracket_ru, hlost sub rfl hclosed]
      exact Nat.one_pos
  | some sub =>
    by_cases hclose : NoClose (some sub)
    · rw [finditer_track (by decide) (hclose sub rfl)]
      cases english with
      | none => exact absurd ⟨hclose, nofun⟩ h
      | some sub' =>
        have hclosed := Sub.closed_of_not hen fun hclose' => h ⟨hclose, hclose'⟩
        rw [hlost sub' rfl hclosed]
        exact Nat.one_lt_two
    · have hclosed := Sub.closed_of_not hru hclose
      have hle := hclosed.finditer_le hmarkRu (bracket en ++ trackText english)
      rw [occurrences_track hmarkEn fun sub hsub => (hen sub hsub).2] at hle
      exact Nat.lt_of_le_of_lt hle (Nat.lt_add_of_pos_left Nat.one_pos)

/-- **Tracks are recovered** if no url has a closing bracket; and if there is one, they are not,
unless a url has characters that open a bracket or a tag. -/
theorem parseSub_recovers (html5 : Str → Option Str) {subsTypes : Str → Option ℕ}
    {code : SubInfo → ℕ} (hcode : ∀ info, subsTypes info.name = some (code info))
    (russian english : Option Sub) :
    (NoClose russian ∧ NoClose english → Recovered html5 subsTypes code russian english) ∧
      (NoOpen russian → NoOpen english →
        (Recovered html5 subsTypes code russian english ↔ NoClose russian ∧ NoClose english)) := by
  have henough : NoClose russian ∧ NoClose english →
      Recovered html5 subsTypes code russian english :=
    fun h => parseSub_subsDump html5 hcode h.1 h.2
  refine ⟨henough, fun hru hen => ⟨fun hrecovered => ?_, henough⟩⟩
  by_contra h
  exact absurd hrecovered.length_le (Nat.not_le_of_lt (length_finditer_lt_of_closed hru hen h))

/-! ## A name with a bracket -/

/-- The types that the converter begins with. -/
def SubInfo.code : SubInfo → ℕ
  | .auto => 0
  | .orig => 2
  | .tran => 1

theorem initialTypes_name (info : SubInfo) : initialTypes info.name = some info.code := by
  cases info <;> rfl

def oneElement : Transcript where
  header := "?xml?".toList
  blank := []
  elements := [⟨[], "0".toList, "1".toList, "a".toList, by decide, by decide, by decide, by decide,
    by decide, by decide⟩]
  behind := []
  after := []
  isDeclaration := rfl
  noMarkHeader := by decide
  noEndHeader := by decide
  isBlank := fun _ h => absurd h List.not_mem_nil
  noMarkBehind := by decide
  isBlankAfter := fun _ h => absurd h List.not_mem_nil

/-- A track with a name. -/
def named (name : Str) : Sub where
  info := .orig
  url := origSubUrl ⟨[], [], [], "v".toList⟩ "0".toList name en
  transcript := oneElement

/-- English alone, with a bracket in its name and without one. -/
theorem parseSub_recovers_named :
    Recovered (fun _ => none) initialTypes SubInfo.code none (some (named "ab".toList)) ∧
      ¬ Recovered (fun _ => none) initialTypes SubInfo.code none (some (named "a]b".toList)) := by
  have hclose : NoClose (some (named "ab".toList)) := by
    intro sub hsub
    cases hsub
    decide
  have hopen : NoOpen (some (named "a]b".toList)) := by
    intro sub hsub
    cases hsub
    exact ⟨by decide, by decide⟩
  constructor
  · exact (parseSub_recovers _ initialTypes_name none _).1 ⟨nofun, hclose⟩
  · intro hrecovered
    have hnot := ((parseSub_recovers _ initialTypes_name none _).2 nofun hopen).mp hrecovered
    exact absurd (hnot.2 _ rfl) (by decide)

/-- **A bracket in a name**: the track is lost. -/
theorem not_parseSub_recovers :
    ¬ ∀ (html5 : Str → Option Str) (subsTypes : Str → Option ℕ) (code : SubInfo → ℕ),
      (∀ info, subsTypes info.name = some (code info)) → ∀ russian english : Option Sub,
        Recovered html5 subsTypes code russian english := by
  intro hclaim
  obtain ⟨result, hparse, foundRu, foundEn, rfl, -, s, rfl, -, -⟩ :=
    hclaim (fun _ => none) initialTypes SubInfo.code initialTypes_name none
      (some (named "a]b".toList))
  have heval : parseSub (fun _ => none) initialTypes [ru, en]
      (subsDump [(ru, trackText none), (en, trackText (some (named "a]b".toList)))])
        = some [(ru, none), (en, none)] := by
    decide +kernel
  rw [heval] at hparse
  cases hparse

/-! ## From the download to the record -/

/-- **What is downloaded is what the converter reads**, if no bracket comes from the page or from
the list of tracks: behind `save`, `parseSub` finds for each language the track that `getSubs` has
returned, or nothing where it has nothing. -/
theorem getSubs_recovered (html5 : Str → Option Str) {subsTypes : Str → Option ℕ}
    {code : SubInfo → ℕ} (hcode : ∀ info, subsTypes info.name = some (code info)) {fuel : ℕ}
    {getHtmlText : Str → Str → Option Str} {params : Params} {subs : List (Str × Str)}
    (hparams : params.NoClose)
    (hlist : ∀ reply, getHtmlText (subsListUrl params) "transcript_list".toList = some reply →
      ']' ∉ reply)
    (hreply : ∀ url reply, getHtmlText url "text start".toList = some reply →
      ∃ t : Transcript, reply = t.reply)
    (h : getSubs fuel getHtmlText params = some subs) :
    ∃ russian english, subs = [(ru, trackText russian), (en, trackText english)] ∧
      Recovered html5 subsTypes code russian english := by
  obtain ⟨russian, english, hsubs, hru, hen⟩ := getSubs_noClose hparams hlist hreply h
  exact ⟨russian, english, hsubs, parseSub_subsDump html5 hcode hru hen⟩

/-- A list with an English track, and one transcript for every url. -/
def oneTrack (_ check : Str) : Option Str :=
  if check = "transcript_list".toList then
    some "<track id=\"0\" name=\"ab\" lang_code=\"en\"/>".toList
  else some oneElement.reply

/-- The track is found, and so is its translation. -/
theorem getSubs_recovered_oneTrack : ∃ subs russian english,
    getSubs 100 oneTrack ⟨[], [], [], "v".toList⟩ = some subs ∧
      subs = [(ru, trackText russian), (en, trackText english)] ∧
      Recovered (fun _ => none) initialTypes SubInfo.code russian english := by
  have hsome : (getSubs 100 oneTrack ⟨[], [], [], "v".toList⟩).isSome = true := by
    decide +kernel
  obtain ⟨subs, hsubs⟩ := Option.isSome_iff_exists.mp hsome
  obtain ⟨russian, english, h⟩ := getSubs_recovered (fun _ => none) initialTypes_name
    ⟨by decide, by decide, by decide, by decide⟩
    (by
      rintro _ ⟨rfl⟩
      decide)
    (by
      rintro url reply ⟨rfl⟩
      exact ⟨oneElement, rfl⟩)
    hsubs
  exact ⟨subs, russian, english, hsubs, h⟩

end Amigos.Spider
