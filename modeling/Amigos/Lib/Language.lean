import Mathlib.Computability.Language
import Amigos.Lib.Regex

/-!
# What a pattern means

The language of a pattern, without the order of its alternatives and without its groups: whatever
way a matcher takes, it consumes a word of the language (`ways_language`).
-/

set_option autoImplicit false

namespace Amigos.Lib

open Computability

variable {α : Type}

namespace Regex

def language : Regex α → Language α
  | .nil => 1
  | .one p => {v | ∃ a, p a = true ∧ v = [a]}
  | .seq r r' => r.language * r'.language
  | .alt r r' => r.language + r'.language
  | .star _ r => r.language∗
  | .group _ r => r.language

/-! ## Abbreviations -/

theorem language_lit [DecidableEq α] {l v : List α} (h : v ∈ (lit l).language) : v = l := by
  induction l generalizing v with
  | nil => exact h
  | cons a l ih =>
    obtain ⟨x, ⟨b, hb, rfl⟩, y, hy, rfl⟩ := Language.mem_mul.mp h
    rw [ih hy, of_decide_eq_true hb]
    rfl

theorem language_star_one {greedy : Bool} {p : α → Bool} {v : List α}
    (h : v ∈ (star greedy (one p)).language) : ∀ a ∈ v, p a = true := by
  obtain ⟨words, rfl, hwords⟩ := Language.mem_kstar.mp h
  intro a ha
  obtain ⟨word, hword, ha⟩ := List.mem_flatten.mp ha
  obtain ⟨b, hb, rfl⟩ := hwords word hword
  rwa [List.mem_singleton.mp ha]

/-! ## What is consumed -/

theorem starLoop_language {greedy : Bool} {r : Regex α}
    (hr : ∀ {s : List α} {w : Groups α × List α}, w ∈ r.ways s →
      ∃ v ∈ r.language, v ++ w.2 = s) {n : Nat} :
    ∀ {s : List α} {w : Groups α × List α}, w ∈ starLoop greedy r.ways n s →
      ∃ v ∈ r.language∗, v ++ w.2 = s := by
  induction n with
  | zero =>
    intro s w hw
    obtain rfl := List.mem_singleton.mp hw
    exact ⟨[], Language.nil_mem_kstar _, rfl⟩
  | succ n ih =>
    intro s w hw
    have hmore : ∀ w ∈ (r.ways s).flatMap fun w => if w.2.length < s.length then
        (starLoop greedy r.ways n w.2).map fun w' => (w'.1 ++ w.1, w'.2) else [],
        ∃ v ∈ r.language∗, v ++ w.2 = s := by
      intro w hw
      obtain ⟨w₁, hw₁, hw⟩ := List.mem_flatMap.mp hw
      split at hw
      · obtain ⟨w₂, hw₂, rfl⟩ := List.mem_map.mp hw
        obtain ⟨v₁, hv₁, hs⟩ := hr hw₁
        obtain ⟨v₂, hv₂, hs₁⟩ := ih hw₂
        obtain ⟨words, rfl, hwords⟩ := Language.mem_kstar.mp hv₂
        refine ⟨v₁ ++ words.flatten, Language.mem_kstar.mpr ⟨v₁ :: words, rfl, ?_⟩, ?_⟩
        · exact fun y hy => (List.mem_cons.mp hy).elim (fun heq => heq ▸ hv₁) (hwords y)
        · rw [List.append_assoc, hs₁, hs]
      · exact absurd hw List.not_mem_nil
    have hstop : ∀ w ∈ [(([] : Groups α), s)], ∃ v ∈ r.language∗, v ++ w.2 = s := by
      intro w hw
      obtain rfl := List.mem_singleton.mp hw
      exact ⟨[], Language.nil_mem_kstar _, rfl⟩
    cases greedy with
    | true => exact (List.mem_append.mp hw).elim (hmore w) (hstop w)
    | false =>
      exact (List.mem_cons.mp hw).elim (fun h => hstop w (List.mem_singleton.mpr h)) (hmore w)

/-- **Whatever is consumed is a word of the language.** -/
theorem ways_language {r : Regex α} : ∀ {s : List α} {w : Groups α × List α},
    w ∈ r.ways s → ∃ v ∈ r.language, v ++ w.2 = s := by
  induction r with
  | nil =>
    intro s w hw
    obtain rfl := List.mem_singleton.mp hw
    exact ⟨[], rfl, rfl⟩
  | one p =>
    intro s w hw
    cases s with
    | nil => exact absurd hw List.not_mem_nil
    | cons a s =>
      rw [ways] at hw
      split at hw
      · rename_i ha
        obtain rfl := List.mem_singleton.mp hw
        exact ⟨[a], ⟨a, ha, rfl⟩, rfl⟩
      · exact absurd hw List.not_mem_nil
  | seq r r' ih ih' =>
    intro s w hw
    obtain ⟨w₁, hw₁, hw⟩ := List.mem_flatMap.mp hw
    obtain ⟨w₂, hw₂, rfl⟩ := List.mem_map.mp hw
    obtain ⟨v₁, hv₁, hs⟩ := ih hw₁
    obtain ⟨v₂, hv₂, hs₁⟩ := ih' hw₂
    refine ⟨v₁ ++ v₂, Language.append_mem_mul hv₁ hv₂, ?_⟩
    rw [List.append_assoc, hs₁, hs]
  | alt r r' ih ih' =>
    intro s w hw
    rcases List.mem_append.mp hw with hw | hw
    · obtain ⟨v, hv, hs⟩ := ih hw
      exact ⟨v, .inl hv, hs⟩
    · obtain ⟨v, hv, hs⟩ := ih' hw
      exact ⟨v, .inr hv, hs⟩
  | star greedy r ih => exact fun hw => starLoop_language ih hw
  | group n r ih =>
    intro s w hw
    obtain ⟨w₁, hw₁, rfl⟩ := List.mem_map.mp hw
    exact ih (w := w₁) hw₁

end Regex

end Amigos.Lib
