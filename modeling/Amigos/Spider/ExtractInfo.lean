import Amigos.Lib.Outcome
import Amigos.Spider.Parser
import Amigos.Spider.Related

/-!
# What a worker takes from a page (`parser.py`, `extractInfo`)

The parameters for the subtitles come from an address in the page, and the new tasks are the ids of
the related videos. Every search that finds nothing is a `ValueError`, also one in the generator of
the ids: the list is made of all of them, or there is none. The worker then drops the task.

So what is returned has been found whole (`extractInfo_total`): each parameter is what stands behind
its name in the address of the subtitles (`HasParam`), and the new tasks are ids of their items if
every item has a video.
-/

set_option autoImplicit false

namespace Amigos.Spider

open Amigos.Lib

/-! ## The source -/

/-- What `index` raises. -/
inductive ValueError where
  | substringNotFound
  deriving DecidableEq, Repr

/-- A search with `index`. -/
def found {α : Type} : Option α → Outcome ValueError α
  | some a => .ok a
  | none => .exception .substringNotFound

/-- `getTTSURL`. -/
def getTTSURL (html : Str) : Outcome ValueError Str := do
  let start ← found (findFrom html "\"ttsurl\"".toList 0)
  let start := start + "\"ttsurl\"".toList.length
  let (start, stop) ← found (search html ['"'] ['"'] start)
  return replace "\\u0026".toList ['&'] (replace "\\/".toList ['/'] (slice html start stop))

/-- `getUrlParamVal`. -/
def getUrlParamVal (url param : Str) : Outcome ValueError Str := do
  let start ← found (findFrom url ['?'] 0)
  let sPat := param ++ ['=']
  let start ← found (findFrom url sPat (start + 1))
  let start := start + sPat.length
  let stop := find url ['&'] start
  return slice url start (if stop = -1 then url.length else stop.toNat)

/-- The parameters that `getSubs` needs. -/
def subsParams : List Str := ["asr_langs", "expire", "signature", "v"].map String.toList

/-- The loop over the parameters. -/
def urlParams (url : Str) : List Str → Outcome ValueError (List (Str × Str))
  | [] => return []
  | param :: rest => do
    let val ← getUrlParamVal url param
    let params ← urlParams url rest
    return (param, val) :: params

/-- `[url for url in getRelatedVideos(html_page)]`. -/
def relatedVideos (fuel : ℕ) (htmlPage : Str) : Outcome ValueError (List Str) := do
  let (videos, ending) ← Outcome.ofOption (getRelatedVideos fuel htmlPage)
  match ending with
  | .returned => return videos.map Related.id
  | .valueError => .exception .substringNotFound

/-- `extractInfo`. -/
def extractInfo (fuel : ℕ) (htmlPage : Str) :
    Outcome ValueError (List (Str × Str) × List Str) := do
  let ttsurlVal ← getTTSURL htmlPage
  let params ← urlParams ttsurlVal subsParams
  let related ← relatedVideos fuel htmlPage
  return (params, related)

example : getUrlParamVal "http://w/api?v=x&expire=12".toList "expire".toList
    = .ok "12".toList := by decide +kernel

example : getUrlParamVal "http://w/api?v=x&expire=12".toList "v".toList
    = .ok "x".toList := by decide +kernel

/-! ## What is returned -/

theorem found_ne_undefined {α : Type} (x : Option α) : found x ≠ .undefined := by
  cases x <;> exact nofun

theorem getTTSURL_ne_undefined (html : Str) : getTTSURL html ≠ .undefined := by
  unfold getTTSURL
  refine Outcome.bind_ne_undefined (found_ne_undefined _) fun start => ?_
  refine Outcome.bind_ne_undefined (found_ne_undefined _) fun span => ?_
  exact nofun

theorem getUrlParamVal_ne_undefined (url param : Str) : getUrlParamVal url param ≠ .undefined := by
  unfold getUrlParamVal
  refine Outcome.bind_ne_undefined (found_ne_undefined _) fun start => ?_
  refine Outcome.bind_ne_undefined (found_ne_undefined _) fun start => ?_
  exact nofun

theorem found_eq_ok_iff {α : Type} {x : Option α} {a : α} : found x = .ok a ↔ x = some a := by
  cases x <;> simp [found]

/-- **The address of the subtitles** in a page: what the quotes behind the first `"ttsurl"` enclose,
without the escapes. -/
def SubsUrl (html url : Str) : Prop :=
  ∃ t q stop, FirstAt html "\"ttsurl\"".toList 0 t ∧
    FirstAt html ['"'] (t + "\"ttsurl\"".toList.length) q ∧ FirstAt html ['"'] (q + 1) stop ∧
    url = replace "\\u0026".toList ['&'] (replace "\\/".toList ['/'] (slice html (q + 1) stop))

theorem subsUrl_of_getTTSURL {html url : Str} (h : getTTSURL html = .ok url) :
    SubsUrl html url := by
  obtain ⟨t, ht, h⟩ := Outcome.bind_eq_ok h
  obtain ⟨⟨start, stop⟩, hspan, h⟩ := Outcome.bind_eq_ok h
  have hname := (findFrom_eq_some_iff html (by decide) 0 t).mp (found_eq_ok_iff.mp ht)
  rcases search_cases html (List.cons_ne_nil '"' []) (List.cons_ne_nil '"' [])
    (t + "\"ttsurl\"".toList.length) with ⟨hnone, -⟩ | ⟨q, stop', hsearch, hopen, hclose⟩
  · rw [hnone] at hspan
    cases hspan
  · rw [hsearch, found_eq_ok_iff, Option.some.injEq, Prod.mk.injEq] at hspan
    obtain ⟨rfl, rfl⟩ := hspan
    cases h
    exact ⟨t, q, stop', hname, hopen, hclose, rfl⟩

/-- **The value of a parameter** in an address: what stands behind the first `name=` that follows
the first `?`, up to the next `&`. -/
def HasParam (url name val : Str) : Prop :=
  ∃ q p, FirstAt url ['?'] 0 q ∧ FirstAt url (name ++ ['=']) (q + 1) p ∧
    val = (url.drop (p + (name ++ ['=']).length)).takeWhile (· ≠ '&')

theorem hasParam_of_getUrlParamVal {url name val : Str} (h : getUrlParamVal url name = .ok val) :
    HasParam url name val := by
  have hpat : name ++ ['='] ≠ [] := List.append_ne_nil_of_right_ne_nil _ (List.cons_ne_nil _ _)
  obtain ⟨q, hq, h⟩ := Outcome.bind_eq_ok h
  obtain ⟨p, hp, h⟩ := Outcome.bind_eq_ok h
  cases h
  have hname := (findFrom_eq_some_iff url hpat _ p).mp (found_eq_ok_iff.mp hp)
  refine ⟨q, p, (findFrom_eq_some_iff url (by decide) 0 q).mp (found_eq_ok_iff.mp hq), hname, ?_⟩
  have hend := hname.end_le hpat
  have hslice : slice url (p + (name ++ ['=']).length) url.length
      = url.drop (p + (name ++ ['=']).length) := by
    rw [slice, List.take_length]
  have htake := (paramEnds_find url (le_refl _)).takeWhile hend
  rw [List.take_length, ite_not, hslice] at htake
  exact htake.symm

/-- Every parameter has its value, or an exception is raised. -/
theorem urlParams_ends (url : Str) (names : List Str) :
    urlParams url names ≠ .undefined ∧
      ∀ params, urlParams url names = .ok params → params.map Prod.fst = names ∧
        ∀ param ∈ params, HasParam url param.1 param.2 := by
  induction names with
  | nil =>
    refine ⟨nofun, fun params h => ?_⟩
    cases h
    exact ⟨rfl, fun _ hmem => absurd hmem List.not_mem_nil⟩
  | cons param names ih =>
    constructor
    · refine Outcome.bind_ne_undefined (getUrlParamVal_ne_undefined url param) fun val => ?_
      exact Outcome.bind_ne_undefined ih.1 fun params => nofun
    · intro params h
      obtain ⟨val, hval, h⟩ := Outcome.bind_eq_ok h
      obtain ⟨rest, hrest, h⟩ := Outcome.bind_eq_ok h
      cases h
      obtain ⟨hnames, hvalues⟩ := ih.2 rest hrest
      exact ⟨congrArg (param :: ·) hnames,
        List.forall_mem_cons.mpr ⟨hasParam_of_getUrlParamVal hval, hvalues⟩⟩

/-- The list of all ids, or none if the generator has raised. -/
theorem relatedVideos_total (html : Str) : ∃ outcome,
    (∀ fuel, html.length < fuel → relatedVideos fuel html = outcome) ∧ outcome ≠ .undefined ∧
    ∀ tasks, outcome = .ok tasks → ItemsHaveVideos html →
      ∀ task ∈ tasks, ∃ item, OwnVideoId html ⟨item, task⟩ := by
  obtain ⟨⟨videos, ending⟩, hrun, hiff⟩ :=
    getRelatedVideos_yields html (Nat.lt_succ_self html.length)
  have hfuel : ∀ fuel, html.length < fuel →
      getRelatedVideos fuel html = some (videos, ending) := fun fuel hlt =>
    iterate_mono (fun _ _ h => h) hlt hrun
  cases ending with
  | returned =>
    refine ⟨.ok (videos.map Related.id), fun fuel hlt => ?_, nofun, ?_⟩
    · rw [relatedVideos, hfuel fuel hlt]
      rfl
    · intro tasks htasks hitems task htask
      cases htasks
      obtain ⟨video, hvideo, rfl⟩ := List.mem_map.mp htask
      exact ⟨video.item, hiff.mpr hitems video hvideo⟩
  | valueError =>
    refine ⟨.exception .substringNotFound, fun fuel hlt => ?_, nofun, ?_⟩
    · rw [relatedVideos, hfuel fuel hlt]
      rfl
    · exact nofun

/-- **`extractInfo` ends, with everything or with an exception**: each of the four parameters is what
stands behind its name in the address of the subtitles, and the new tasks are video ids if every
item has one. -/
theorem extractInfo_total (html : Str) : ∃ outcome,
    (∀ fuel, html.length < fuel → extractInfo fuel html = outcome) ∧ outcome ≠ .undefined ∧
    ∀ params tasks, outcome = .ok (params, tasks) →
      (∃ url, SubsUrl html url ∧ params.map Prod.fst = subsParams ∧
        ∀ param ∈ params, HasParam url param.1 param.2) ∧
      (ItemsHaveVideos html → ∀ task ∈ tasks, ∃ item, OwnVideoId html ⟨item, task⟩) := by
  obtain ⟨related, hrelated, hdefined, htasks⟩ := relatedVideos_total html
  refine ⟨do
    let ttsurlVal ← getTTSURL html
    let params ← urlParams ttsurlVal subsParams
    let related ← related
    return (params, related), fun fuel hlt => ?_, ?_, ?_⟩
  · rw [extractInfo, hrelated fuel hlt]
  · refine Outcome.bind_ne_undefined (getTTSURL_ne_undefined html) fun url => ?_
    refine Outcome.bind_ne_undefined (urlParams_ends url subsParams).1 fun params => ?_
    exact Outcome.bind_ne_undefined hdefined fun tasks => nofun
  · intro params tasks h
    obtain ⟨url, hurl, h⟩ := Outcome.bind_eq_ok h
    obtain ⟨params', hparams, h⟩ := Outcome.bind_eq_ok h
    obtain ⟨tasks', hrelated', h⟩ := Outcome.bind_eq_ok h
    cases h
    exact ⟨⟨url, subsUrl_of_getTTSURL hurl, (urlParams_ends url subsParams).2 params hparams⟩,
      htasks tasks hrelated'⟩

end Amigos.Spider
