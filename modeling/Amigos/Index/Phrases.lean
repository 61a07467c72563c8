import Amigos.Index.Struct

/-!
# The phrases of a document (`RawDoc::getPhrases`)

The subtitles have a line for every phrase, and the time has a line for every phrase, which begins
with a number. The two are read side by side; a document in which one of them has more lines than
the other is refused.
-/

set_option autoImplicit false

namespace Amigos.Index

open Amigos.Lib

/-- The lines that `std::getline` delivers, one call after the other: the last one need not be
terminated, if it has a character. -/
def lines : Bytes → List Bytes
  | [] => []
  | b :: s =>
    if b = 10 then [] :: lines s
    else match lines s with
      | [] => [[b]]
      | line :: rest => (b :: line) :: rest

/-- What `getPhrases` throws: its own exceptions, and those of `std::stod`. -/
inductive PhrasesError where
  | exception (what : String)
  | stod
  deriving DecidableEq, Repr

def moreTimeItems : PhrasesError := .exception "There is more time items, than necessary"
def lessTimeItems : PhrasesError := .exception "There is less time items, than necessary"

/-- The loop, over the lines of the two streams. The pair that is pushed before the last `getline`
fails stays. -/
def phrasesLoop {τ : Type} [Zero τ] (stod : Bytes → Option τ) :
    List Bytes → List Bytes → Except PhrasesError (List (Bytes × τ))
  | [], [] => .ok [([], 0)]
  | [], _ :: _ => .error moreTimeItems
  | _ :: _, [] => .error lessTimeItems
  | phrase :: subs, tmpStr :: times =>
    match stod tmpStr with
    | none => .error .stod
    | some time => (phrasesLoop stod subs times).map ((phrase, time) :: ·)

/-- `getPhrases`, into a vector that holds `res` already. -/
def RawDoc.getPhrases {τ : Type} [Zero τ] (stod : Bytes → Option τ) (doc : RawDoc)
    (res : List (Bytes × τ)) : Except PhrasesError (List (Bytes × τ)) :=
  (phrasesLoop stod (lines doc.subtitles) (lines doc.time)).map (res ++ ·)

/-! ## Lines -/

theorem lines_terminated (line s : Bytes) (h : 10 ∉ line) :
    lines (line ++ 10 :: s) = line :: lines s := by
  induction line with
  | nil =>
    rw [List.nil_append, lines, if_pos rfl]
  | cons b line ih =>
    obtain ⟨hb, hline⟩ := not_or.mp (mt List.mem_cons.mpr h)
    rw [List.cons_append, lines, if_neg fun heq => hb heq.symm, ih hline]

/-- A text of terminated lines. -/
theorem lines_flatMap {ls : List Bytes} (h : ∀ line ∈ ls, 10 ∉ line) :
    lines (ls.flatMap fun line => line ++ [10]) = ls := by
  induction ls with
  | nil => rfl
  | cons line ls ih =>
    rw [List.flatMap_cons, List.append_assoc, List.singleton_append,
      lines_terminated line _ (h line List.mem_cons_self),
      ih fun l hl => h l (List.mem_cons_of_mem _ hl)]

/-! ## As many lines as times -/

/-- **With as many lines as times** nothing is thrown but what `std::stod` throws. -/
theorem phrasesLoop_of_length {τ : Type} [Zero τ] {stod : Bytes → Option τ} {subs : List Bytes} :
    ∀ {times : List Bytes}, subs.length = times.length → ∀ {e : PhrasesError},
      phrasesLoop stod subs times = .error e → e = .stod := by
  induction subs with
  | nil =>
    intro times hlen e h
    rw [List.length_eq_zero_iff.mp hlen.symm] at h
    cases h
  | cons phrase subs ih =>
    intro times hlen e h
    cases times with
    | nil => cases hlen
    | cons tmpStr times =>
      rw [phrasesLoop] at h
      split at h
      · cases h
        rfl
      · cases hrest : phrasesLoop stod subs times with
        | ok rest =>
          rw [hrest] at h
          cases h
        | error e' =>
          rw [hrest] at h
          cases h
          exact ih (Nat.succ.inj hlen) hrest

theorem RawDoc.getPhrases_of_length {τ : Type} [Zero τ] {stod : Bytes → Option τ} {doc : RawDoc}
    (hlen : (lines doc.subtitles).length = (lines doc.time).length) {res : List (Bytes × τ)}
    {e : PhrasesError} (h : doc.getPhrases stod res = .error e) : e = .stod := by
  rw [getPhrases] at h
  cases hloop : phrasesLoop stod (lines doc.subtitles) (lines doc.time) with
  | ok phrases =>
    rw [hloop] at h
    cases h
  | error e' =>
    rw [hloop] at h
    cases h
    exact phrasesLoop_of_length hlen hloop

/-! ## One pair for a line -/

/-- **The lines paired off**: an exception exactly if the subtitles and the time do not have the
same number of lines, otherwise one pair for each line of the subtitles, with its text and the
number of the line of the time. -/
structure PairsLines {τ : Type} (stod : Bytes → Option τ) (doc : RawDoc)
    (out : Except PhrasesError (List (Bytes × τ))) : Prop where
  throws : (∃ what, out = .error (.exception what)) ↔
    (lines doc.subtitles).length ≠ (lines doc.time).length
  pairs : ∀ phrases, out = .ok phrases → phrases.map Prod.fst = lines doc.subtitles ∧
    phrases.map (fun phrase => some phrase.2) = (lines doc.time).map stod

/-- The loop, where every line of the time begins with a number: the pairs and, behind them, the
one that no line has filled. By induction on the lines, with the cases of the loop. -/
theorem phrasesLoop_eq {τ : Type} [Zero τ] {stod : Bytes → Option τ} {subs : List Bytes} :
    ∀ {times : List Bytes}, (∀ tmpStr ∈ times, stod tmpStr ≠ none) →
      (subs.length ≠ times.length ∧ ∃ e ∈ [moreTimeItems, lessTimeItems],
        phrasesLoop stod subs times = .error e) ∨
      (subs.length = times.length ∧ ∃ phrases, phrasesLoop stod subs times
          = .ok (phrases ++ [([], 0)]) ∧ phrases.map Prod.fst = subs ∧
        phrases.map (fun phrase => some phrase.2) = times.map stod) := by
  induction subs with
  | nil =>
    intro times _
    cases times with
    | nil => exact .inr ⟨rfl, [], rfl, rfl, rfl⟩
    | cons tmpStr times => exact .inl ⟨(Nat.succ_ne_zero _).symm, _, List.mem_cons_self, rfl⟩
  | cons phrase subs ih =>
    intro times htimes
    cases times with
    | nil => exact .inl ⟨Nat.succ_ne_zero _, _, by simp, rfl⟩
    | cons tmpStr times =>
      obtain ⟨time, htime⟩ := Option.ne_none_iff_exists'.mp (htimes tmpStr List.mem_cons_self)
      rw [phrasesLoop, htime]
      rcases ih fun line hline => htimes line (List.mem_cons_of_mem _ hline) with
        ⟨hlen, e, he, hrest⟩ | ⟨hlen, phrases, hrest, htexts, hnumbers⟩
      · refine .inl ⟨fun h => hlen (Nat.succ.inj h), e, he, ?_⟩
        simp only [hrest, Except.map]
      · refine .inr ⟨congrArg Nat.succ hlen, (phrase, time) :: phrases, ?_, ?_, ?_⟩
        · simp only [hrest, Except.map, List.cons_append]
        · rw [List.map_cons, htexts]
        · rw [List.map_cons, hnumbers, List.map_cons, htime]

/-- One of the two exceptions, where the lines are not as many as the times. -/
theorem RawDoc.getPhrases_of_length_ne {τ : Type} [Zero τ] {stod : Bytes → Option τ} {doc : RawDoc}
    (hstod : ∀ tmpStr ∈ lines doc.time, stod tmpStr ≠ none)
    (hlen : (lines doc.subtitles).length ≠ (lines doc.time).length) (res : List (Bytes × τ)) :
    ∃ e ∈ [moreTimeItems, lessTimeItems], doc.getPhrases stod res = .error e := by
  rw [getPhrases]
  rcases @phrasesLoop_eq τ _ stod (lines doc.subtitles) _ hstod with ⟨-, e, he, hloop⟩ | ⟨heq, -⟩
  · rw [hloop]
    exact ⟨e, he, rfl⟩
  · exact absurd heq hlen

/-- **The lines are paired off exactly if they cannot be**: where nothing is thrown, there is a
pair more than there are lines. -/
theorem getPhrases_pairsLines_iff {τ : Type} [Zero τ] (stod : Bytes → Option τ) (doc : RawDoc)
    (hstod : ∀ tmpStr ∈ lines doc.time, stod tmpStr ≠ none) :
    PairsLines stod doc (doc.getPhrases stod []) ↔
      (lines doc.subtitles).length ≠ (lines doc.time).length := by
  rw [RawDoc.getPhrases]
  rcases @phrasesLoop_eq τ _ stod (lines doc.subtitles) _ hstod with
    ⟨hlen, e, he, hloop⟩ | ⟨hlen, phrases, hloop, htexts, -⟩
  · have hwhat : ∃ what, e = .exception what := by
      simp only [List.mem_cons, List.not_mem_nil, or_false] at he
      rcases he with rfl | rfl <;> exact ⟨_, rfl⟩
    obtain ⟨what, rfl⟩ := hwhat
    rw [hloop]
    refine ⟨fun _ => hlen, fun _ => ⟨⟨fun _ => hlen, fun _ => ⟨what, rfl⟩⟩, ?_⟩⟩
    intro phrases h
    cases h
  · rw [hloop]
    refine ⟨fun h => ?_, fun h => absurd hlen h⟩
    have hall : (phrases ++ [([], 0)]).map Prod.fst = lines doc.subtitles := (h.pairs _ rfl).1
    have hcount := congrArg List.length hall
    rw [List.map_append, htexts, List.length_append] at hcount
    exact absurd hcount (Nat.succ_ne_self _)

/-- The number at the beginning of a line, as `std::stod` reads one of ASCII digits. -/
def stodDigits (line : Bytes) : Option Nat :=
  match line.takeWhile fun ch => 48 ≤ ch && ch ≤ 57 with
  | [] => none
  | digits => some (digits.foldl (fun n ch => 10 * n + (ch.toNat - 48)) 0)

/-- One line of subtitles, `hi`, at time 1: there are two pairs. -/
theorem not_pairsLines_hi :
    ¬ ∀ doc : RawDoc, (∀ tmpStr ∈ lines doc.time, stodDigits tmpStr ≠ none) →
      PairsLines stodDigits doc (doc.getPhrases stodDigits []) := by
  intro hclaim
  have h := hclaim { title := [], videoId := [], subtitles := [104, 105, 10], time := [49, 10] }
    (by decide)
  have htwo : ([([104, 105], 1), ([], 0)] : List (Bytes × Nat)).map Prod.fst = [[104, 105]] :=
    (h.pairs _ rfl).1
  exact absurd htwo (by decide)

/-- The same with a line of the time too many. -/
theorem getPhrases_pairsLines_iff_hi :
    PairsLines stodDigits
        { title := [], videoId := [], subtitles := [104, 105], time := [49, 10, 50] }
        (RawDoc.getPhrases stodDigits
          { title := [], videoId := [], subtitles := [104, 105], time := [49, 10, 50] } []) ↔
      1 ≠ 2 :=
  getPhrases_pairsLines_iff stodDigits
    { title := [], videoId := [], subtitles := [104, 105], time := [49, 10, 50] } (by decide)

end Amigos.Index
