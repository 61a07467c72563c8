import Amigos.Lib.Delimited
import Amigos.Lib.Loop
import Amigos.Spider.Text

/-!
# Tags, one after the other (`parser.py`, `getTags`)

`getTags` looks for the beginning of a tag, then for the `/>` behind it, and goes on from there.
Whether there is a `/>` is not asked: a search that fails is -1, which with the length of `/>` is
the position 1. From there the same tag is found again, and again.

As long as every beginning has its `/>`, the position grows with every piece
(`getTags_enumerates_iff`).
-/

set_option autoImplicit false

namespace Amigos.Spider

open Amigos.Lib

/-! ## The source -/

/-- `str.find`. -/
def find (text pattern : Str) (pos : ℕ) : ℤ :=
  match findFrom text pattern pos with
  | some p => p
  | none => -1

def tagEnd : Str := "/>".toList

/-- What is yielded: `text[start:stop]`. -/
structure TagPiece where
  start : ℕ
  stop : ℕ
  deriving DecidableEq, Repr

def TagPiece.text (text : Str) (piece : TagPiece) : Str := (text.take piece.stop).drop piece.start

/-- A round of the loop, from the position `stop`. -/
def getTagsPass (tag text : Str) :
    ℕ × List TagPiece → Option (Pass (ℕ × List TagPiece) (List TagPiece))
  | (stop, pieces) =>
    let start := find text ('<' :: tag) stop
    if start = -1 then some (.leave pieces)
    else
      let stop := (find text tagEnd start.toNat + tagEnd.length).toNat
      some (.again (stop, pieces ++ [⟨start.toNat, stop⟩]))

/-- `getTags`, to its end. -/
def getTags (fuel : ℕ) (tag text : Str) : Option (List TagPiece) :=
  iterate (getTagsPass tag text) fuel (0, [])

/-- `search`; undefined is a `ValueError`. -/
def search (text startPattern endPattern : Str) (startPosition : ℕ) : Option (ℕ × ℕ) := do
  let start ← findFrom text startPattern startPosition
  let start := start + startPattern.length
  let stop ← findFrom text endPattern start
  return (start, stop)

def getTagParamVal (param tag : Str) : Option Str := do
  let (start, stop) ← search tag (param ++ "=\"".toList) ['"'] 0
  return (tag.take stop).drop start

example : getTagParamVal "name".toList "<track id=\"0\" name=\"a]b\"/>".toList
    = some "a]b".toList := by decide +kernel

/-! ## What the pieces should be -/

/-- The first `/>` from `start` on stands at `p`. -/
structure ClosesAt (text : Str) (start p : ℕ) : Prop where
  le : start ≤ p
  stands : tagEnd <+: text.drop p
  first : ∀ i, start ≤ i → i < p → ¬ tagEnd <+: text.drop i

/-- A piece is a tag: it begins as one, and ends at the first `/>`. -/
structure IsTag (tag text : Str) (piece : TagPiece) : Prop where
  nonempty : piece.text text ≠ []
  starts : '<' :: tag <+: piece.text text
  closes : ∃ p, piece.stop = p + 2 ∧ ClosesAt text piece.start p

/-- **The pieces are tags**, one behind the other. -/
structure Enumerates (tag text : Str) (pieces : List TagPiece) : Prop where
  tags : ∀ piece ∈ pieces, IsTag tag text piece
  behind : pieces.Pairwise fun a b => a.stop ≤ b.start

/-- A beginning of a tag, at `start`. -/
def Begins (tag text : Str) (start : ℕ) : Prop := '<' :: tag <+: text.drop start

/-! ## A round -/

theorem find_cases (text : Str) {pattern : Str} (hne : pattern ≠ []) (pos : ℕ) :
    (find text pattern pos = -1 ∧ ∀ p, pos ≤ p → ¬ pattern <+: text.drop p) ∨
    ∃ p : ℕ, find text pattern pos = p ∧ pos ≤ p ∧ pattern <+: text.drop p ∧
      ∀ i, pos ≤ i → i < p → ¬ pattern <+: text.drop i := by
  unfold find
  rcases findFrom_cases text hne pos with ⟨hnone, hnot⟩ | ⟨p, hsome, hle, -, hstands, hfirst⟩
  · exact .inl ⟨by rw [hnone], hnot⟩
  · exact .inr ⟨p, by rw [hsome], hle, hstands, hfirst⟩

/-- What a round does: it ends the loop, or finds a tag, or a beginning without an end. -/
inductive Round (tag text : Str) (stop : ℕ) (pieces : List TagPiece) :
    Option (Pass (ℕ × List TagPiece) (List TagPiece)) → Prop where
  | leave (hnone : ∀ s, stop ≤ s → ¬ Begins tag text s) :
    Round tag text stop pieces (some (.leave pieces))
  | tag {start p : ℕ} (hle : stop ≤ start) (hbegins : Begins tag text start)
    (hcloses : ClosesAt text start p) :
    Round tag text stop pieces (some (.again (p + 2, pieces ++ [⟨start, p + 2⟩])))
  | unclosed {start : ℕ} (hle : stop ≤ start) (hbegins : Begins tag text start)
    (hnone : ∀ p, start ≤ p → ¬ tagEnd <+: text.drop p) :
    Round tag text stop pieces (some (.again (1, pieces ++ [⟨start, 1⟩])))

theorem getTagsPass_round (tag text : Str) (stop : ℕ) (pieces : List TagPiece) :
    Round tag text stop pieces (getTagsPass tag text (stop, pieces)) := by
  unfold getTagsPass
  simp only
  rcases find_cases text (List.cons_ne_nil '<' tag) stop with
    ⟨hfind, hnone⟩ | ⟨start, hfind, hle, hbegins, -⟩
  · rw [hfind, if_pos rfl]
    exact .leave hnone
  · have hfound : (start : ℤ) ≠ -1 := by omega
    rw [hfind, if_neg hfound, Int.toNat_natCast]
    rcases find_cases text (show tagEnd ≠ [] by decide) start with
      ⟨hclose, hnone⟩ | ⟨p, hclose, hle', hstands, hfirst⟩
    · rw [hclose]
      exact .unclosed hle hbegins hnone
    · rw [hclose]
      exact .tag hle hbegins ⟨hle', hstands, hfirst⟩

theorem round_of_pass {tag text : Str} {stop : ℕ} {pieces : List TagPiece}
    {pass : Pass (ℕ × List TagPiece) (List TagPiece)}
    (h : getTagsPass tag text (stop, pieces) = some pass) :
    Round tag text stop pieces (some pass) :=
  h ▸ getTagsPass_round tag text stop pieces

/-! ## A piece -/

theorem ClosesAt.lt_length {text : Str} {start p : ℕ} (h : ClosesAt text start p) :
    p + 2 ≤ text.length := by
  have hlen := h.stands.length_le
  rw [List.length_drop] at hlen
  have htwo : tagEnd.length = 2 := rfl
  omega

theorem TagPiece.text_eq (text : Str) (piece : TagPiece) :
    piece.text text = (text.drop piece.start).take (piece.stop - piece.start) :=
  List.drop_take ..

theorem Begins.head {tag text : Str} {start : ℕ} (h : Begins tag text start) :
    text[start]? = some '<' := by
  have hget := h.getElem (Nat.succ_pos tag.length)
  rw [List.getElem_drop] at hget
  rw [List.getElem?_eq_some_iff]
  exact ⟨_, hget.symm⟩

theorem tagEnd_chars {text : Str} {p : ℕ} (h : tagEnd <+: text.drop p) :
    text[p]? = some '/' ∧ text[p + 1]? = some '>' := by
  obtain ⟨behind, hbehind⟩ := h
  have hget : ∀ i, text[p + i]? = (tagEnd ++ behind)[i]? := by
    intro i
    rw [hbehind, List.getElem?_drop]
  exact ⟨hget 0, hget 1⟩

/-- **A piece begins as a tag** exactly if the first `/>` is not inside its beginning. -/
theorem starts_iff {tag text : Str} {start p : ℕ} (hbegins : Begins tag text start)
    (hcloses : ClosesAt text start p) :
    '<' :: tag <+: TagPiece.text text ⟨start, p + 2⟩ ↔ ¬ tagEnd <:+: tag.dropLast := by
  have hbegins' : '<' :: tag <+: text.drop start := hbegins
  rw [TagPiece.text_eq, List.prefix_take_iff, and_iff_right hbegins', List.length_cons]
  show tag.length + 1 ≤ p + 2 - start ↔ ¬ tagEnd <:+: tag.dropLast
  have htag : tag <+: text.drop (start + 1) := by
    rw [← List.drop_drop]
    exact hbegins.drop 1
  have htwo : tagEnd.length = 2 := rfl
  constructor
  · rintro hlen ⟨before, behind, hinside⟩
    have hdrop : tag.drop before.length <+: text.drop (start + 1 + before.length) := by
      rw [← List.drop_drop]
      exact htag.drop before.length
    have hstands : tagEnd <+: tag.drop before.length := by
      refine List.IsPrefix.trans ?_ (tag.dropLast_prefix.drop before.length)
      rw [← hinside, List.append_assoc, List.drop_left]
      exact List.prefix_append tagEnd behind
    have hshort := congrArg List.length hinside
    rw [List.length_append, List.length_append, List.length_dropLast, htwo] at hshort
    have hfirst := hcloses.first (start + 1 + before.length) (by omega)
    exact hfirst (by omega) (hstands.trans hdrop)
  · intro hnot
    by_contra hlen
    -- The first `/>` is behind the `<`, and would end before the tag name does.
    have hne : p ≠ start := by
      intro heq
      have hslash := (tagEnd_chars hcloses.stands).1
      rw [heq, hbegins.head] at hslash
      cases hslash
    have hle := hcloses.le
    obtain ⟨k, hk⟩ : ∃ k, p = start + 1 + k := Nat.exists_eq_add_of_le (by omega)
    have hdrop : tag.drop k <+: text.drop p := by
      rw [hk, ← List.drop_drop]
      exact htag.drop k
    have hstands : tagEnd <+: tag.drop k := by
      apply List.prefix_of_prefix_length_le hcloses.stands hdrop
      rw [htwo, List.length_drop]
      omega
    have hinside : tagEnd <+: tag.dropLast.drop k := by
      rw [List.dropLast_eq_take, List.drop_take, List.prefix_take_iff, htwo]
      exact ⟨hstands, by omega⟩
    exact hnot (hinside.isInfix.trans (List.drop_suffix k _).isInfix)

/-! ## All rounds -/

/-- Every beginning of a tag in the text has its end, behind the tag name. -/
def TagsClosed (tag text : Str) : Prop :=
  ∀ s, Begins tag text s → tagEnd <:+: text.drop s ∧ ¬ tagEnd <:+: tag.dropLast

theorem isTag_of_begins {tag text : Str} (h : TagsClosed tag text) {start p : ℕ}
    (hbegins : Begins tag text start) (hcloses : ClosesAt text start p) :
    IsTag tag text ⟨start, p + 2⟩ := by
  have hstarts := (starts_iff hbegins hcloses).mpr (h start hbegins).2
  refine ⟨?_, hstarts, p, rfl, hcloses⟩
  intro hempty
  rw [hempty, List.prefix_nil] at hstarts
  cases hstarts

/-- **The loop ends, with tags.** What is left of the text becomes less with every round. -/
theorem getTags_enumerates {tag text : Str} (h : TagsClosed tag text) {fuel : ℕ}
    (hfuel : text.length < fuel) :
    ∃ pieces, getTags fuel tag text = some pieces ∧ Enumerates tag text pieces := by
  refine iterate_total (getTagsPass tag text)
    (fun s => Enumerates tag text s.2 ∧ (∀ piece ∈ s.2, piece.stop ≤ s.1) ∧ s.1 ≤ text.length)
    (fun s => text.length - s.1) (fun pieces => Enumerates tag text pieces) ?_ (0, []) ?_ hfuel
  · rintro ⟨stop, pieces⟩ ⟨henum, hstops, hin⟩
    have hround := getTagsPass_round tag text stop pieces
    generalize getTagsPass tag text (stop, pieces) = pass at hround
    cases hround with
    | leave => exact .inl ⟨pieces, rfl, henum⟩
    | @tag start p hle hbegins hcloses =>
      have hlen := hcloses.lt_length
      have hgrow := hcloses.le
      refine .inr ⟨_, rfl, ⟨⟨?_, ?_⟩, ?_, hlen⟩, by dsimp only; omega⟩
      · rw [List.forall_mem_append, List.forall_mem_singleton]
        exact ⟨henum.tags, isTag_of_begins h hbegins hcloses⟩
      · rw [List.pairwise_append]
        refine ⟨henum.behind, List.pairwise_singleton _ _, ?_⟩
        intro a ha b hb
        rw [List.mem_singleton.mp hb]
        exact (hstops a ha).trans hle
      · rw [List.forall_mem_append, List.forall_mem_singleton]
        refine ⟨fun a ha => ?_, Nat.le_refl _⟩
        have hstop := hstops a ha
        dsimp only at hstop ⊢
        omega
    | @unclosed start _ hbegins hnone =>
      obtain ⟨p, hp, hstands⟩ := infix_drop_iff.mp (h start hbegins).1
      exact absurd hstands (hnone p hp)
  · exact ⟨⟨fun _ h => absurd h List.not_mem_nil, List.Pairwise.nil⟩,
      fun _ h => absurd h List.not_mem_nil, Nat.zero_le _⟩

/-- Where there is a beginning, something is yielded. -/
theorem getTags_ne_nil {tag text : Str} {s : ℕ} (hbegins : Begins tag text s) {fuel : ℕ}
    {pieces : List TagPiece} (h : getTags fuel tag text = some pieces) : pieces ≠ [] := by
  refine iterate_inv (fun c => c.1 = 0 ∨ c.2 ≠ []) (fun pieces => pieces ≠ []) ?_ ?_ (.inl rfl) h
  · rintro ⟨stop, pieces⟩ c' _ hpass
    cases round_of_pass hpass with
    | tag => exact .inr (by simp)
    | unclosed => exact .inr (by simp)
  · rintro ⟨stop, pieces⟩ pieces' hsome hpass
    cases round_of_pass hpass with
    | leave hnone =>
      rcases hsome with rfl | hne
      · exact absurd hbegins (hnone s (Nat.zero_le s))
      · exact hne

/-- Where a beginning has no end, one of the pieces ends at 1, if the loop ends at all: no round
passes that beginning. -/
theorem getTags_unclosed {tag text : Str} {s : ℕ} (hbegins : Begins tag text s)
    (hnone : ∀ p, s ≤ p → ¬ tagEnd <+: text.drop p) {fuel : ℕ} {pieces : List TagPiece}
    (h : getTags fuel tag text = some pieces) : ∃ piece ∈ pieces, piece.stop = 1 := by
  refine iterate_inv (fun c => c.1 ≤ s ∨ ∃ piece ∈ c.2, piece.stop = 1)
    (fun pieces => ∃ piece ∈ pieces, piece.stop = 1) ?_ ?_ (.inl (Nat.zero_le s)) h
  · rintro ⟨stop, pieces⟩ c' hc hpass
    cases round_of_pass hpass with
    | @tag start p hle _ hcloses =>
      rcases hc with hc | ⟨piece, hpiece, hstop⟩
      · left
        obtain ⟨hslash, hangle⟩ := tagEnd_chars hcloses.stands
        have hlt : p < s := Nat.lt_of_not_le fun hge => hnone p hge hcloses.stands
        have hne : p + 1 ≠ s := by
          intro heq
          rw [heq, hbegins.head] at hangle
          cases hangle
        dsimp only
        omega
      · exact .inr ⟨piece, List.mem_append_left _ hpiece, hstop⟩
    | unclosed => exact .inr ⟨_, List.mem_append_right _ (List.mem_singleton_self _), rfl⟩
  · rintro ⟨stop, pieces⟩ pieces' hc hpass
    cases round_of_pass hpass with
    | leave hleave => exact hc.resolve_left fun hle => hleave s hle hbegins

/-- **The pieces are tags exactly if every beginning of a tag has its end.** -/
theorem getTags_enumerates_iff (tag text : Str) :
    (∃ fuel pieces, getTags fuel tag text = some pieces ∧ Enumerates tag text pieces) ↔
      TagsClosed tag text := by
  constructor
  · rintro ⟨fuel, pieces, hpieces, henum⟩ s hbegins
    constructor
    · by_contra hnot
      have hnone : ∀ p, s ≤ p → ¬ tagEnd <+: text.drop p := fun p hle hstands =>
        hnot (infix_drop_iff.mpr ⟨p, hle, hstands⟩)
      obtain ⟨piece, hpiece, hstop⟩ := getTags_unclosed hbegins hnone hpieces
      obtain ⟨p, hp, -⟩ := (henum.tags piece hpiece).closes
      omega
    · obtain ⟨piece, hpiece⟩ := List.exists_mem_of_ne_nil _ (getTags_ne_nil hbegins hpieces)
      obtain ⟨-, hstarts, p, hstop, hcloses⟩ := henum.tags piece hpiece
      obtain ⟨start, stop⟩ := piece
      subst hstop
      have hbegins' : Begins tag text start := by
        rw [TagPiece.text_eq] at hstarts
        exact hstarts.trans (List.take_prefix _ _)
      exact (starts_iff hbegins' hcloses).mp hstarts
  · intro h
    obtain ⟨pieces, hpieces, henum⟩ := getTags_enumerates h (Nat.lt_succ_self text.length)
    exact ⟨_, pieces, hpieces, henum⟩

/-- A list of tracks that has been cut off. -/
def cutOff : Str := "<transcript_list><track".toList

/-- **The enumeration does not end** where the text is cut off inside a tag: each round finds the
same beginning again. -/
theorem not_getTags_cutOff :
    ¬ ∃ fuel pieces, getTags fuel "track".toList cutOff = some pieces ∧
      Enumerates "track".toList cutOff pieces := by
  have hagain : ∀ stop ≤ 1, ∀ pieces, getTagsPass "track".toList cutOff (stop, pieces)
      = some (.again (1, pieces ++ [⟨17, 1⟩])) := by
    intro stop hstop pieces
    rcases Nat.le_one_iff_eq_zero_or_eq_one.mp hstop with rfl | rfl
    · rfl
    · rfl
  have hnever : ∀ fuel, ∀ stop ≤ 1, ∀ pieces,
      iterate (getTagsPass "track".toList cutOff) fuel (stop, pieces) = none := by
    intro fuel
    induction fuel with
    | zero => exact fun _ _ _ => rfl
    | succ fuel ih =>
      intro stop hstop pieces
      rw [iterate_again (hagain stop hstop pieces)]
      exact ih 1 (Nat.le_refl 1) _
  rintro ⟨fuel, pieces, hpieces, -⟩
  rw [getTags, hnever fuel 0 (Nat.zero_le 1)] at hpieces
  cases hpieces

end Amigos.Spider
