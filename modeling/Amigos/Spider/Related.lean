import Amigos.Spider.Tags

/-!
# Related videos (`parser.py`, `getRelatedVideos`)

A page has a list of related videos. For every item of it `getRelatedVideos` looks for the `href`
behind its beginning, for the `v=` behind the opening quote, and for the `&` behind that. Only the
last one of these searches stops at the closing quote. Where the value of an `href` has no `v=`, one
that stands anywhere behind it is taken, and what is yielded is empty.

So the ids are those of their own items exactly if every item has one (`getRelatedVideos_own_iff`),
not counting the items where the search ends with an exception.
-/

set_option autoImplicit false

namespace Amigos.Spider

open Amigos.Lib

/-! ## The source -/

def listItem : Str := "video-list-item related-list-item".toList

def href : Str := "href=\"".toList

def vParam : Str := "v=".toList

/-- `text[start:stop]`. -/
def slice (text : Str) (start stop : ℕ) : Str := (text.take stop).drop start

/-- What is yielded: the id, and the position of the item that it has been found for. -/
structure Related where
  item : ℕ
  id : Str
  deriving DecidableEq, Repr

/-- How the generator ends. -/
inductive Ending where
  | returned
  | valueError
  deriving DecidableEq, Repr

/-- A round of the loop, from the position `stop`. -/
def relatedPass (html : Str) :
    ℕ × List Related → Option (Pass (ℕ × List Related) (List Related × Ending))
  | (stop, videos) =>
    let item := find html listItem stop
    if item = -1 then some (.leave (videos, .returned))
    else
      match search html href ['"'] item.toNat with
      | none => some (.leave (videos, .valueError))
      | some (start, stop) =>
        match findFrom html vParam start with
        | none => some (.leave (videos, .valueError))
        | some p =>
          let start := p + vParam.length
          let ampIdx := find (html.take stop) ['&'] start
          let stop := if ampIdx ≠ -1 then ampIdx.toNat else stop
          some (.again (stop, videos ++ [⟨item.toNat, slice html start stop⟩]))

/-- `getRelatedVideos`, to its end. -/
def getRelatedVideos (fuel : ℕ) (html : Str) : Option (List Related × Ending) :=
  iterate (relatedPass html) fuel (0, [])

/-! ## What the ids should be -/

/-- The quoted value of the `href` of an item. It ends before the next item begins. -/
structure HrefOf (html : Str) (item start stop : ℕ) : Prop where
  opens : ∃ p, FirstAt html href item p ∧ start = p + href.length
  closes : FirstAt html ['"'] start stop
  own : ∀ p, item < p → p < stop → ¬ listItem <+: html.drop p

/-- What follows the first `v=` of a value, up to the next `&` or to the end. -/
def videoIdOf (value : Str) : Option Str :=
  (findFrom value vParam 0).map fun p => (value.drop (p + vParam.length)).takeWhile (· ≠ '&')

/-- **An id of its own item**: it is not empty, and the one in the value of the item's `href`. -/
structure OwnVideoId (html : Str) (video : Related) : Prop where
  item : listItem <+: html.drop video.item
  nonempty : video.id ≠ []
  value : ∃ start stop, HrefOf html video.item start stop ∧
    videoIdOf (slice html start stop) = some video.id

/-- No search of the round for an item raises: there are an `href`, and a quote and a `v=` somewhere
behind its beginning. -/
def Passable (html : Str) (item : ℕ) : Prop :=
  ∃ p, FirstAt html href item p ∧ ['"'] <:+: html.drop (p + href.length) ∧
    vParam <:+: html.drop (p + href.length)

/-- The first `v=` behind the opening quote is in the value, and something other than `&` behind it
is so, too. -/
def HasVideo (html : Str) (item : ℕ) : Prop :=
  ∃ start stop p, HrefOf html item start stop ∧ FirstAt html vParam start p ∧
    p + vParam.length < stop ∧ html[p + vParam.length]? ≠ some '&'

/-- The condition: every item that the loop can pass has a video. -/
def ItemsHaveVideos (html : Str) : Prop :=
  ∀ item, listItem <+: html.drop item → Passable html item → HasVideo html item

/-! ## A round -/

/-- Where what follows a `v=` ends. -/
structure ParamEnds (html : Str) (start quote stop : ℕ) : Prop where
  le : stop ≤ quote
  free : ∀ i, start ≤ i → i < stop → html[i]? ≠ some '&'
  ends : stop = quote ∨ start ≤ stop ∧ html[stop]? = some '&'

/-- The positions that a round finds, with the item at `item`. -/
structure Finds (html : Str) (item quote v stop : ℕ) : Prop where
  opens : ∃ p, FirstAt html href item p ∧ FirstAt html ['"'] (p + href.length) quote ∧
    FirstAt html vParam (p + href.length) v
  ends : ParamEnds html (v + vParam.length) quote stop

theorem listItem_ne_nil : listItem ≠ [] := List.cons_ne_nil _ _

theorem href_ne_nil : href ≠ [] := List.cons_ne_nil _ _

theorem vParam_ne_nil : vParam ≠ [] := List.cons_ne_nil _ _

/-- What a round does. -/
inductive RelatedRound (html : Str) (stop : ℕ) (videos : List Related) :
    Option (Pass (ℕ × List Related) (List Related × Ending)) → Prop where
  | returned (hnone : ∀ p, stop ≤ p → ¬ listItem <+: html.drop p) :
    RelatedRound html stop videos (some (.leave (videos, .returned)))
  | raised {item : ℕ} (hitem : FirstAt html listItem stop item) (hnot : ¬ Passable html item) :
    RelatedRound html stop videos (some (.leave (videos, .valueError)))
  | video {item quote v stop' : ℕ} (hitem : FirstAt html listItem stop item)
    (hfinds : Finds html item quote v stop') :
    RelatedRound html stop videos (some (.again
      (stop', videos ++ [⟨item, slice html (v + vParam.length) stop'⟩])))

/-- The last search of a round, which stops at the closing quote. -/
theorem paramEnds_find (html : Str) {start quote : ℕ} (hquote : quote ≤ html.length) :
    ParamEnds html start quote
      (if find (html.take quote) ['&'] start ≠ -1 then (find (html.take quote) ['&'] start).toNat
        else quote) := by
  have htake : ∀ i, i < quote → (html.take quote)[i]? = html[i]? := fun i hi => by
    rw [List.getElem?_take, if_pos hi]
  rcases find_cases (html.take quote) (List.cons_ne_nil '&' []) start with
    ⟨hfind, hnone⟩ | ⟨p, hfind, hle, hstands, hfirst⟩
  · rw [hfind, if_neg (not_not.mpr rfl)]
    refine ⟨Nat.le_refl _, fun i hi hlt hamp => ?_, .inl rfl⟩
    refine hnone i hi (singleton_prefix_drop_iff.mpr ?_)
    rw [htake i hlt, hamp]
  · have hne : (p : ℤ) ≠ -1 := by omega
    rw [singleton_prefix_drop_iff] at hstands
    have hlt : p < quote := by
      have hlen := (List.getElem?_eq_some_iff.mp hstands).1
      rw [List.length_take] at hlen
      omega
    rw [hfind, if_pos hne, Int.toNat_natCast]
    refine ⟨Nat.le_of_lt hlt, fun i hi hip hamp => ?_, .inr ⟨hle, ?_⟩⟩
    · refine hfirst i hi hip (singleton_prefix_drop_iff.mpr ?_)
      rw [htake i (hip.trans hlt), hamp]
    · rw [← htake p hlt, hstands]

/-- What `search` finds, and when it raises. -/
theorem search_cases (text : Str) {startPattern endPattern : Str} (hstart : startPattern ≠ [])
    (hend : endPattern ≠ []) (pos : ℕ) :
    (search text startPattern endPattern pos = none ∧
      ∀ p, FirstAt text startPattern pos p →
        ¬ endPattern <:+: text.drop (p + startPattern.length)) ∨
    ∃ p q, search text startPattern endPattern pos = some (p + startPattern.length, q) ∧
      FirstAt text startPattern pos p ∧ FirstAt text endPattern (p + startPattern.length) q := by
  cases hp : findFrom text startPattern pos with
  | none =>
    refine .inl ⟨by rw [search, hp]; rfl, fun p hfirst => ?_⟩
    rw [(findFrom_eq_some_iff text hstart pos p).mpr hfirst] at hp
    cases hp
  | some p =>
    have hfirst := (findFrom_eq_some_iff text hstart pos p).mp hp
    cases hq : findFrom text endPattern (p + startPattern.length) with
    | none =>
      refine .inl ⟨?_, fun p' hp' => ?_⟩
      · simp only [search, hp, hq, Option.bind_eq_bind, Option.bind_some, Option.bind_none]
      · obtain rfl := hfirst.unique hp'
        exact (findFrom_eq_none_iff text hend _).mp hq
    | some q =>
      refine .inr ⟨p, q, ?_, hfirst, (findFrom_eq_some_iff text hend _ q).mp hq⟩
      simp only [search, hp, hq, Option.bind_eq_bind, Option.bind_some, Option.pure_def]

theorem relatedPass_round (html : Str) (stop : ℕ) (videos : List Related) :
    RelatedRound html stop videos (relatedPass html (stop, videos)) := by
  unfold relatedPass
  simp only
  rcases find_cases html listItem_ne_nil stop with
    ⟨hfind, hnone⟩ | ⟨item, hfind, hle, hstands, hfirst⟩
  · rw [hfind, if_pos rfl]
    exact .returned hnone
  · have hitem : FirstAt html listItem stop item := ⟨hle, hstands, hfirst⟩
    have hfound : (item : ℤ) ≠ -1 := by omega
    rw [hfind, if_neg hfound, Int.toNat_natCast]
    rcases search_cases html href_ne_nil (List.cons_ne_nil '"' []) item with
      ⟨hsearch, hnot⟩ | ⟨p, quote, hsearch, hp, hquote⟩
    · rw [hsearch]
      refine .raised hitem ?_
      rintro ⟨p, hp, hclosed, -⟩
      exact hnot p hp hclosed
    · rw [hsearch]
      simp only
      cases hv : findFrom html vParam (p + href.length) with
      | none =>
        refine .raised hitem ?_
        rintro ⟨p', hp', -, hparam⟩
        obtain rfl := hp.unique hp'
        exact (findFrom_eq_none_iff html vParam_ne_nil _).mp hv hparam
      | some v =>
        have hfirst := (findFrom_eq_some_iff html vParam_ne_nil _ v).mp hv
        have hlen := hquote.end_le (List.cons_ne_nil '"' [])
        refine .video hitem ⟨⟨p, hp, hquote, hfirst⟩, paramEnds_find html ?_⟩
        exact (Nat.le_add_right quote 1).trans hlen

/-! ## What is yielded -/

section

variable {html : Str} {item quote v stop : ℕ}

theorem getElem?_slice {i : ℕ} (start : ℕ) (hi : start + i < stop) :
    (slice html start stop)[i]? = html[start + i]? := by
  rw [slice, List.getElem?_drop, List.getElem?_take, if_pos hi]

theorem length_slice_le (start : ℕ) : (slice html start stop).length ≤ stop - start := by
  rw [slice, List.length_drop]
  exact Nat.sub_le_sub_right (List.length_take_le _ _) _

theorem slice_ne_nil_iff {start : ℕ} (hstop : stop ≤ html.length) :
    slice html start stop ≠ [] ↔ start < stop := by
  rw [slice, ← List.length_pos_iff_ne_nil, List.length_drop, List.length_take,
    Nat.min_eq_left hstop, Nat.sub_pos_iff_lt]

theorem slice_drop (start stop n : ℕ) :
    (slice html start stop).drop n = slice html (start + n) stop :=
  List.drop_drop

theorem slice_append {start mid : ℕ} (hstart : start ≤ mid) (hmid : mid ≤ stop) :
    slice html start mid ++ slice html mid stop = slice html start stop := by
  simp only [slice, List.drop_take]
  have hsplit : stop - start = (mid - start) + (stop - mid) := by omega
  rw [hsplit, List.take_add, List.drop_drop, Nat.add_sub_cancel' hstart]

/-- A search in a slice. -/
theorem firstAt_slice {pattern : Str} {start p : ℕ} (h : FirstAt html pattern start p)
    (hin : p + pattern.length ≤ stop) :
    FirstAt (slice html start stop) pattern 0 (p - start) := by
  refine ⟨Nat.zero_le _, ?_, fun i _ hi hstands => ?_⟩
  · rw [slice_drop, Nat.add_sub_cancel' h.le, slice, List.drop_take, List.prefix_take_iff]
    exact ⟨h.stands, by omega⟩
  · rw [slice_drop, slice, List.drop_take, List.prefix_take_iff] at hstands
    exact h.first (start + i) (Nat.le_add_right _ _) (by omega) hstands.1

/-- What stands in front of the `&`, or of the closing quote. -/
theorem ParamEnds.takeWhile {start : ℕ} (h : ParamEnds html start quote stop)
    (hstart : start ≤ quote) :
    (slice html start quote).takeWhile (· ≠ '&') = slice html start stop := by
  have hle : start ≤ stop := by
    rcases h.ends with heq | ⟨hle, -⟩
    · exact heq ▸ hstart
    · exact hle
  have hfree : ∀ c ∈ slice html start stop, decide (c ≠ '&') = true := by
    intro c hc
    obtain ⟨i, hget⟩ := List.mem_iff_getElem?.mp hc
    have hi : start + i < stop := by
      have hlen := (List.getElem?_eq_some_iff.mp hget).1
      have hslice := @length_slice_le html stop start
      omega
    rw [getElem?_slice start hi] at hget
    refine decide_eq_true fun hamp => ?_
    exact h.free (start + i) (Nat.le_add_right _ _) hi (hamp ▸ hget)
  have hrest : (slice html stop quote).takeWhile (· ≠ '&') = [] := by
    cases hslice : slice html stop quote with
    | nil => rfl
    | cons c rest =>
      have hlt : stop < quote := by
        have hlen := @length_slice_le html quote stop
        rw [hslice, List.length_cons] at hlen
        omega
      have hamp : html[stop]? = some '&' := (h.ends.resolve_left (Nat.ne_of_lt hlt)).2
      rw [← Nat.add_zero stop, ← getElem?_slice stop hlt, hslice] at hamp
      rw [Option.some.inj hamp]
      rfl
  rw [← slice_append hle h.le, List.takeWhile_append_of_pos hfree, hrest, List.append_nil]

/-- The value that a round has found is the only one. -/
theorem Finds.href_unique (h : Finds html item quote v stop) {start stop' : ℕ}
    (hhref : HrefOf html item start stop') :
    stop' = quote ∧ FirstAt html vParam start v := by
  obtain ⟨p, hp, hquote, hv⟩ := h.opens
  obtain ⟨p', hp', rfl⟩ := hhref.opens
  obtain rfl := hp.unique hp'
  exact ⟨hhref.closes.unique hquote, hv⟩

theorem Finds.quote_lt (h : Finds html item quote v stop) : quote < html.length := by
  obtain ⟨p, -, hquote, -⟩ := h.opens
  exact hquote.end_le (List.cons_ne_nil '"' [])

/-- The id in the value, where the value has one. -/
theorem Finds.videoIdOf_eq (h : Finds html item quote v stop) {start : ℕ}
    (hv : FirstAt html vParam start v) (hin : v + vParam.length < quote) :
    videoIdOf (slice html start quote) = some (slice html (v + vParam.length) stop) := by
  have hfirst : FirstAt (slice html start quote) vParam 0 (v - start) :=
    firstAt_slice hv (Nat.le_of_lt hin)
  have hstart : start + (v - start + vParam.length) = v + vParam.length := by
    have := hv.le
    omega
  rw [videoIdOf, (findFrom_eq_some_iff _ vParam_ne_nil 0 _).mpr hfirst, Option.map_some,
    slice_drop, hstart, h.ends.takeWhile (Nat.le_of_lt hin)]

/-- **What is yielded is the own id of the item** exactly if the item has one. -/
theorem Finds.own_iff (h : Finds html item quote v stop)
    (hitem : listItem <+: html.drop item) :
    OwnVideoId html ⟨item, slice html (v + vParam.length) stop⟩ ↔ HasVideo html item := by
  have hstop : stop ≤ html.length := h.ends.le.trans (Nat.le_of_lt h.quote_lt)
  constructor
  · intro hown
    have hlt := (slice_ne_nil_iff hstop).mp hown.nonempty
    obtain ⟨start, stop', hhref, -⟩ := hown.value
    obtain ⟨rfl, hv⟩ := h.href_unique hhref
    exact ⟨start, stop', v, hhref, hv, Nat.lt_of_lt_of_le hlt h.ends.le,
      h.ends.free _ (Nat.le_refl _) hlt⟩
  · rintro ⟨start, stop', v', hhref, hv', hlt, hamp⟩
    obtain ⟨rfl, hv⟩ := h.href_unique hhref
    obtain rfl := hv.unique hv'
    refine ⟨hitem, (slice_ne_nil_iff hstop).mpr ?_, start, stop', hhref, h.videoIdOf_eq hv hlt⟩
    rcases h.ends.ends with heq | ⟨hle, hends⟩
    · rwa [heq]
    · refine Nat.lt_of_le_of_ne hle fun heq => hamp ?_
      rw [heq, hends]

end

/-! ## All rounds -/

/-- A later item can only be passed if an earlier one can. -/
theorem Passable.mono {html : Str} {item item' : ℕ} (h : Passable html item') (hle : item ≤ item') :
    Passable html item := by
  obtain ⟨p', hp', hquote, hparam⟩ := h
  cases hfind : findFrom html href item with
  | none =>
    have hnone := (findFrom_eq_none_iff html href_ne_nil item).mp hfind
    exact absurd (infix_drop_iff.mpr ⟨p', hle.trans hp'.le, hp'.stands⟩) hnone
  | some p =>
    have hp := (findFrom_eq_some_iff html href_ne_nil item p).mp hfind
    have hpp' := hp.le_of_stands (hle.trans hp'.le) hp'.stands
    have hmono : ∀ {pattern : Str}, pattern <:+: html.drop (p' + href.length) →
        pattern <:+: html.drop (p + href.length) := by
      intro pattern hinside
      obtain ⟨q, hq, hstands⟩ := infix_drop_iff.mp hinside
      exact infix_drop_iff.mpr ⟨q, (Nat.add_le_add_right hpp' _).trans hq, hstands⟩
    exact ⟨p, hp, hmono hquote, hmono hparam⟩

/-- **What has been yielded** when the loop stands at `stop`: each id for an item, and if they all
are right, one for every item so far. -/
structure Yielded (html : Str) (stop : ℕ) (videos : List Related) : Prop where
  items : ∀ video ∈ videos, listItem <+: html.drop video.item ∧ Passable html video.item ∧
    (OwnVideoId html video ↔ HasVideo html video.item)
  all : (∀ video ∈ videos, OwnVideoId html video) → ∀ item < stop, listItem <+: html.drop item →
    ∃ video ∈ videos, video.item = item

theorem Finds.passable {html : Str} {item quote v stop : ℕ} (h : Finds html item quote v stop) :
    Passable html item := by
  obtain ⟨p, hp, hquote, hv⟩ := h.opens
  exact ⟨p, hp, infix_drop_iff.mpr ⟨quote, hquote.le, hquote.stands⟩,
    infix_drop_iff.mpr ⟨v, hv.le, hv.stands⟩⟩

/-- The position grows with every round. -/
theorem Finds.lt_stop {html : Str} {item quote v stop : ℕ} (h : Finds html item quote v stop) :
    item < stop := by
  obtain ⟨p, hp, hquote, hv⟩ := h.opens
  have hsix : href.length = 6 := rfl
  have hitem := hp.le
  have hquote' := hquote.le
  have hv' := hv.le
  rcases h.ends.ends with heq | ⟨hle, -⟩
  · omega
  · omega

/-- **A round** yields for the next item. -/
theorem Yielded.video {html : Str} {stop : ℕ} {videos : List Related}
    (h : Yielded html stop videos) {item quote v stop' : ℕ}
    (hitem : FirstAt html listItem stop item) (hfinds : Finds html item quote v stop') :
    Yielded html stop' (videos ++ [⟨item, slice html (v + vParam.length) stop'⟩]) := by
  have hown := hfinds.own_iff hitem.stands
  constructor
  · rw [List.forall_mem_append, List.forall_mem_singleton]
    exact ⟨h.items, hitem.stands, hfinds.passable, hown⟩
  · rw [List.forall_mem_append, List.forall_mem_singleton]
    rintro ⟨hold, hnew⟩ item' hlt hstands
    rcases Nat.lt_trichotomy item' item with hbefore | rfl | hbehind
    · have hstop : item' < stop :=
        Nat.lt_of_not_le fun hge => hitem.first item' hge hbefore hstands
      obtain ⟨video, hmem, heq⟩ := h.all hold item' hstop hstands
      exact ⟨video, List.mem_append_left _ hmem, heq⟩
    · exact ⟨_, List.mem_append_right _ (List.mem_singleton_self _), rfl⟩
    · -- An item that begins inside the value is not passed: the value would not be the own one.
      obtain ⟨start, quote', hhref, -⟩ := hnew.value
      obtain ⟨rfl, -⟩ := hfinds.href_unique hhref
      exact absurd hstands (hhref.own item' hbehind (Nat.lt_of_lt_of_le hlt hfinds.ends.le))

/-- Where no item is left that the loop can pass. -/
theorem Yielded.own_iff {html : Str} {stop : ℕ} {videos : List Related}
    (h : Yielded html stop videos)
    (hrest : ∀ item, stop ≤ item → listItem <+: html.drop item → ¬ Passable html item) :
    (∀ video ∈ videos, OwnVideoId html video) ↔ ItemsHaveVideos html := by
  constructor
  · intro hown item hstands hpass
    have hlt : item < stop := Nat.lt_of_not_le fun hge => hrest item hge hstands hpass
    obtain ⟨video, hmem, rfl⟩ := h.all hown item hlt hstands
    exact (h.items video hmem).2.2.mp (hown video hmem)
  · intro hitems video hmem
    obtain ⟨hstands, hpass, hiff⟩ := h.items video hmem
    exact hiff.mpr (hitems video.item hstands hpass)

/-- The ids of their own items, or an item without one. -/
theorem getRelatedVideos_yields (html : Str) {fuel : ℕ} (hfuel : html.length < fuel) :
    ∃ result, getRelatedVideos fuel html = some result ∧
      ((∀ video ∈ result.1, OwnVideoId html video) ↔ ItemsHaveVideos html) := by
  refine iterate_total (relatedPass html) (fun s => Yielded html s.1 s.2 ∧ s.1 ≤ html.length)
    (fun s => html.length - s.1)
    (fun result => (∀ video ∈ result.1, OwnVideoId html video) ↔ ItemsHaveVideos html) ?_ (0, []) ?_
    hfuel
  · rintro ⟨stop, videos⟩ ⟨hyielded, hin⟩
    have hround := relatedPass_round html stop videos
    generalize relatedPass html (stop, videos) = pass at hround
    cases hround with
    | returned hnone =>
      refine .inl ⟨_, rfl, hyielded.own_iff fun item hle hstands => ?_⟩
      exact absurd hstands (hnone item hle)
    | @raised item hitem hnot =>
      refine .inl ⟨_, rfl, hyielded.own_iff fun item' hle hstands hpass => ?_⟩
      exact hnot (hpass.mono (hitem.le_of_stands hle hstands))
    | @video item quote v stop' hitem hfinds =>
      have hgrow := hfinds.lt_stop
      have hlen := hfinds.ends.le.trans (Nat.le_of_lt hfinds.quote_lt)
      have hle := hitem.le
      exact .inr ⟨_, rfl, ⟨hyielded.video hitem hfinds, hlen⟩, by dsimp only; omega⟩
  · exact ⟨⟨fun _ h => absurd h List.not_mem_nil, fun _ _ h => absurd h (Nat.not_lt_zero _)⟩,
      Nat.zero_le _⟩

/-- **Every id is the one of its own item exactly if every item has one**, not counting the items
that the loop cannot pass. The loop ends in any case. -/
theorem getRelatedVideos_own_iff (html : Str) : ∃ (videos : List Related) (ending : Ending),
    (∀ fuel, html.length < fuel → getRelatedVideos fuel html = some (videos, ending)) ∧
    ((∀ video ∈ videos, OwnVideoId html video) ↔ ItemsHaveVideos html) := by
  obtain ⟨⟨videos, ending⟩, hrun, hiff⟩ :=
    getRelatedVideos_yields html (Nat.lt_succ_self html.length)
  refine ⟨videos, ending, fun fuel hfuel => ?_, hiff⟩
  exact iterate_mono (fun _ _ h => h) hfuel hrun

/-- A list of two items: a playlist, whose address has no `v`, and a video. -/
def playlistPage : Str :=
  ("<li class=\"video-list-item related-list-item\"><a href=\"/playlist?list=PL1\">" ++
    "<li class=\"video-list-item related-list-item\"><a href=\"/watch?v=abc&t=1\">").toList

/-- **The id of a playlist is empty**: the `v=` of the next item is taken, and it stands behind the
closing quote. -/
theorem not_getRelatedVideos_playlistPage : ¬ ∀ (html : Str) (fuel : ℕ) (videos : List Related)
    (ending : Ending), getRelatedVideos fuel html = some (videos, ending) →
    ∀ video ∈ videos, OwnVideoId html video := by
  intro hclaim
  have hrun : getRelatedVideos 4 playlistPage
      = some ([⟨11, []⟩, ⟨86, "abc".toList⟩], .returned) := by decide +kernel
  exact (hclaim playlistPage 4 _ _ hrun ⟨11, []⟩ List.mem_cons_self).nonempty rfl

end Amigos.Spider
