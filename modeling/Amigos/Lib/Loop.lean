/-!
# Loops, and the one rule that is used to reason about them

A `while` loop of an imperative program is a body applied until it says to leave. The body is
a function from the loop state to either a new state or a result, and it may also have no
meaning at all (an access out of range, an uninitialised read), which is `none`.

`iterate` runs such a body on a fuel, so that a loop is an executable definition whether it
terminates or not. Out of fuel is `none` as well, which is what makes `iterate_total` a *total*
correctness rule: a loop it applies to both stays defined and comes to an end, and every fuel
above the measure of the start state is enough.
-/

set_option autoImplicit false

namespace Amigos.Lib

universe u v

/-- One pass through a loop body: round again with a new state, or out with a result. -/
inductive Pass (σ : Type u) (β : Type v) where
  | again (s : σ)
  | leave (b : β)

/-- Run a loop body at most `fuel` times. `none` is an undefined pass or no fuel left. -/
def iterate {σ : Type u} {β : Type v} (body : σ → Option (Pass σ β)) : Nat → σ → Option β
  | 0, _ => none
  | fuel + 1, s =>
    match body s with
    | none => none
    | some (.leave b) => some b
    | some (.again s') => iterate body fuel s'

section Rules

variable {σ : Type u} {β : Type v} {body : σ → Option (Pass σ β)}

theorem iterate_leave {s : σ} {b : β} {fuel : Nat} (h : body s = some (.leave b)) :
    iterate body (fuel + 1) s = some b := by
  simp only [iterate, h]

theorem iterate_again {s s' : σ} {fuel : Nat} (h : body s = some (.again s')) :
    iterate body (fuel + 1) s = iterate body fuel s' := by
  simp only [iterate, h]

/-- Where the fuel is above some number, the last pass ends the loop. -/
theorem iterate_leave_of_lt {s : σ} {b : β} {m fuel : Nat} (hfuel : m < fuel)
    (h : body s = some (.leave b)) : iterate body fuel s = some b := by
  obtain ⟨fuel, rfl⟩ := Nat.exists_eq_succ_of_ne_zero (Nat.ne_zero_of_lt hfuel)
  exact iterate_leave h

/-- Where the fuel is above some number, it is still at least that number behind a pass. -/
theorem iterate_again_of_lt {s s' : σ} {m fuel : Nat} (hfuel : m < fuel)
    (h : body s = some (.again s')) :
    ∃ fuel', m ≤ fuel' ∧ iterate body fuel s = iterate body fuel' s' := by
  obtain ⟨fuel, rfl⟩ := Nat.exists_eq_succ_of_ne_zero (Nat.ne_zero_of_lt hfuel)
  exact ⟨fuel, Nat.le_of_lt_succ hfuel, iterate_again h⟩

/-- **The loop rule.** An invariant that every pass keeps, a measure that every pass lowers,
and a postcondition that the last pass establishes: then the loop ends, with any fuel above
the measure, in the postcondition. -/
theorem iterate_total (body : σ → Option (Pass σ β)) (Inv : σ → Prop) (μ : σ → Nat)
    (Post : β → Prop)
    (pass : ∀ s, Inv s →
      (∃ b, body s = some (.leave b) ∧ Post b) ∨
      ∃ s', body s = some (.again s') ∧ Inv s' ∧ μ s' < μ s)
    (s : σ) (hs : Inv s) {fuel : Nat} (hfuel : μ s < fuel) :
    ∃ b, iterate body fuel s = some b ∧ Post b := by
  induction fuel generalizing s with
  | zero => exact absurd hfuel (Nat.not_lt_zero _)
  | succ fuel ih =>
    rcases pass s hs with ⟨b, hb, hpost⟩ | ⟨s', hs', hinv, hlt⟩
    · exact ⟨b, iterate_leave hb, hpost⟩
    · rw [iterate_again hs']
      exact ih s' hinv (by omega)

/-- **The partial rule**: what every pass keeps holds of whatever the loop delivers. -/
theorem iterate_inv (Inv : σ → Prop) (Post : β → Prop)
    (again : ∀ s s', Inv s → body s = some (.again s') → Inv s')
    (leave : ∀ s b, Inv s → body s = some (.leave b) → Post b)
    {fuel : Nat} {s : σ} {b : β} (hs : Inv s) (h : iterate body fuel s = some b) : Post b := by
  induction fuel generalizing s with
  | zero => exact absurd h (by simp [iterate])
  | succ fuel ih =>
    cases hbody : body s with
    | none => simp [iterate, hbody] at h
    | some p =>
      cases p with
      | again s' => exact ih (again s s' hs hbody) (by rwa [iterate_again hbody] at h)
      | leave b' =>
        rw [iterate_leave hbody, Option.some.injEq] at h
        exact h ▸ leave s b' hs hbody

/-- A body that is defined at more states, and more fuel, change nothing about a result. -/
theorem iterate_mono {body' : σ → Option (Pass σ β)}
    (hbody : ∀ s p, body s = some p → body' s = some p) {fuel fuel' : Nat} (hle : fuel ≤ fuel')
    {s : σ} {b : β} (h : iterate body fuel s = some b) : iterate body' fuel' s = some b := by
  induction fuel generalizing fuel' s with
  | zero => exact absurd h (by simp [iterate])
  | succ fuel ih =>
    obtain ⟨fuel', rfl⟩ : ∃ n, fuel' = n + 1 := ⟨fuel' - 1, by omega⟩
    cases hpass : body s with
    | none => simp [iterate, hpass] at h
    | some p =>
      have hpass' := hbody s p hpass
      cases p with
      | again s' =>
        rw [iterate_again hpass] at h
        rw [iterate_again hpass']
        exact ih (by omega) h
      | leave b' =>
        rw [iterate_leave hpass] at h
        rw [iterate_leave hpass']
        exact h

/-- The states that a loop comes to from `s`, round after round. -/
inductive Rounds (body : σ → Option (Pass σ β)) (s : σ) : σ → Prop where
  | start : Rounds body s s
  | again {s' s'' : σ} (h : Rounds body s s') (hpass : body s' = some (.again s'')) :
    Rounds body s s''

/-- What every pass keeps holds in every round. -/
theorem Rounds.inv (Inv : σ → Prop)
    (again : ∀ s s', Inv s → body s = some (.again s') → Inv s') {s s' : σ} (hs : Inv s)
    (h : Rounds body s s') : Inv s' := by
  induction h with
  | start => exact hs
  | again _ hpass ih => exact again _ _ ih hpass

end Rules

/-! ## A loop over a list -/

/-- A checked step that is defined at every element is a map. -/
theorem mapM_eq_some_map {α β γ : Type} {f : β → Option γ} {t : α → β} {g : α → γ} {l : List α}
    (h : ∀ a ∈ l, f (t a) = some (g a)) : (l.map t).mapM f = some (l.map g) := by
  induction l with
  | nil => rfl
  | cons a l ih =>
    rw [List.map_cons, List.mapM_cons, h a List.mem_cons_self,
      ih (fun x hx => h x (List.mem_cons_of_mem _ hx))]
    rfl

theorem mapM_cons_eq_some {α β : Type} {f : α → Option β} {a : α} {l : List α} {r : List β}
    (h : (a :: l).mapM f = some r) : ∃ b r', f a = some b ∧ l.mapM f = some r' ∧ r = b :: r' := by
  simp only [List.mapM_cons, Option.bind_eq_bind, Option.bind_eq_some_iff, Option.pure_def,
    Option.some.injEq] at h
  obtain ⟨b, hb, r', hr', rfl⟩ := h
  exact ⟨b, r', hb, hr', rfl⟩

theorem length_of_mapM {α β : Type} {f : α → Option β} {l : List α} :
    ∀ {r : List β}, l.mapM f = some r → r.length = l.length := by
  induction l with
  | nil =>
    intro r h
    cases h
    rfl
  | cons a l ih =>
    intro r h
    obtain ⟨b, r', -, hr', rfl⟩ := mapM_cons_eq_some h
    rw [List.length_cons, List.length_cons, ih hr']

/-- A loop of checked steps is defined only if each of them is. -/
theorem defined_of_mapM {α β : Type} {f : α → Option β} {l : List α} :
    ∀ {r : List β}, l.mapM f = some r → ∀ {a : α}, a ∈ l → ∃ b, f a = some b := by
  induction l with
  | nil => exact fun _ _ ha => absurd ha List.not_mem_nil
  | cons a l ih =>
    intro r h x hx
    obtain ⟨b, r', hb, hr', rfl⟩ := mapM_cons_eq_some h
    rcases List.mem_cons.mp hx with rfl | hx
    · exact ⟨b, hb⟩
    · exact ih hr' hx

/-- What a loop of checked steps delivers. -/
theorem mem_of_mapM {α β : Type} {f : α → Option β} {l : List α} :
    ∀ {r : List β}, l.mapM f = some r → ∀ b, b ∈ r ↔ ∃ a ∈ l, f a = some b := by
  induction l with
  | nil =>
    intro r h b
    cases h
    simp
  | cons a l ih =>
    intro r h b
    obtain ⟨b', r', hb', hr', rfl⟩ := mapM_cons_eq_some h
    rw [List.mem_cons, ih hr']
    constructor
    · rintro (rfl | ⟨x, hx, hb⟩)
      · exact ⟨a, List.mem_cons_self, hb'⟩
      · exact ⟨x, List.mem_cons_of_mem _ hx, hb⟩
    · rintro ⟨x, hx, hb⟩
      rcases List.mem_cons.mp hx with rfl | hx
      · exact Or.inl (Option.some.inj (hb.symm.trans hb'))
      · exact Or.inr ⟨x, hx, hb⟩

end Amigos.Lib
