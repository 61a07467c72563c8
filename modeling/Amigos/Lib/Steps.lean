import Mathlib.Data.List.Basic

/-!
# Runs of a machine

A machine is a partial step function: `step s a` is the state behind the action `a`, and `none`
where the action is not possible in `s`. The actions of a run are the schedule: which thread moves
next, what its environment answers. So what holds behind every list of actions holds under every
interleaving.

`runFrom` is a run. `runFrom_inv` is the rule all invariants go through; it asks the step lemma only
for the actions that are `allowed`, so that a run can be restricted step by step.
-/

set_option autoImplicit false

namespace Amigos.Lib

universe u v

section Runs

variable {σ : Type u} {α : Type v} {step : σ → α → Option σ}

/-- The state behind some actions. -/
def runFrom (step : σ → α → Option σ) : σ → List α → Option σ
  | s, [] => some s
  | s, a :: as => (step s a).bind fun s' => runFrom step s' as

/-- Every action is allowed in the state that it is taken in. -/
def Allowed (step : σ → α → Option σ) (ok : σ → α → Prop) : σ → List α → Prop
  | _, [] => True
  | s, a :: as => ok s a ∧ ∀ s', step s a = some s' → Allowed step ok s' as

/-- A run can be checked. -/
instance Allowed.decidable (ok : σ → α → Prop) [∀ s a, Decidable (ok s a)] :
    ∀ s as, Decidable (Allowed step ok s as)
  | _, [] => isTrue trivial
  | s, a :: as =>
    match h : step s a with
    | none => decidable_of_iff (ok s a) ⟨fun hok => ⟨hok, fun _ h' => by cases h.symm.trans h'⟩,
        And.left⟩
    | some s₁ =>
      have := Allowed.decidable ok s₁ as
      decidable_of_iff (ok s a ∧ Allowed step ok s₁ as)
        ⟨fun hok => ⟨hok.1, fun _ h' => by cases h.symm.trans h'; exact hok.2⟩,
          fun hok => ⟨hok.1, hok.2 s₁ h⟩⟩

theorem runFrom_cons {s s' : σ} {a : α} {as : List α}
    (h : runFrom step s (a :: as) = some s') :
    ∃ s₁, step s a = some s₁ ∧ runFrom step s₁ as = some s' :=
  Option.bind_eq_some_iff.mp h

theorem runFrom_append (s : σ) (as bs : List α) :
    runFrom step s (as ++ bs) = (runFrom step s as).bind fun s' => runFrom step s' bs := by
  induction as generalizing s with
  | nil => rfl
  | cons a as ih =>
    rw [List.cons_append, runFrom, runFrom]
    cases step s a with
    | none => rfl
    | some s' => exact ih s'

/-- **The invariant rule**, by induction on the actions: what every allowed step keeps holds of
every state that a run of allowed steps reaches. -/
theorem runFrom_inv (ok : σ → α → Prop) (Inv : σ → Prop)
    (keeps : ∀ {s s' a}, Inv s → ok s a → step s a = some s' → Inv s') {as : List α} :
    ∀ {s s' : σ}, Inv s → Allowed step ok s as → runFrom step s as = some s' → Inv s' := by
  induction as with
  | nil =>
    intro s s' hs _ hrun
    cases hrun
    exact hs
  | cons a as ih =>
    intro s s' hs hok hrun
    obtain ⟨s₁, hstep, hrest⟩ := runFrom_cons hrun
    exact ih (keeps hs hok.1 hstep) (hok.2 s₁ hstep) hrest

/-- A condition on the actions alone. -/
theorem allowed_of_forall {ok : σ → α → Prop} {as : List α} (h : ∀ a ∈ as, ∀ s, ok s a) :
    ∀ s, Allowed step ok s as := by
  induction as with
  | nil => exact fun _ => trivial
  | cons a as ih =>
    exact fun s => ⟨h a List.mem_cons_self s,
      fun s' _ => ih (fun b hb => h b (List.mem_cons_of_mem _ hb)) s'⟩

/-- The rule for a run in which every action of a kind may be taken. -/
theorem runFrom_inv_of_forall {P : α → Prop} (Inv : σ → Prop)
    (keeps : ∀ {s s' a}, Inv s → P a → step s a = some s' → Inv s') {as : List α} {s s' : σ}
    (hs : Inv s) (has : ∀ a ∈ as, P a) (hrun : runFrom step s as = some s') : Inv s' :=
  runFrom_inv (fun _ a => P a) Inv keeps hs (allowed_of_forall (fun a ha _ => has a ha) s) hrun

/-- A loop that may fail is a run over its list. -/
theorem foldlM_eq_runFrom (as : List α) : ∀ s : σ, as.foldlM step s = runFrom step s as := by
  induction as with
  | nil => exact fun _ => rfl
  | cons a as ih =>
    intro s
    rw [List.foldlM_cons, runFrom]
    exact congrArg (step s a).bind (funext ih)

theorem Allowed.and {ok ok' : σ → α → Prop} {as : List α} :
    ∀ {s : σ}, Allowed step ok s as → Allowed step ok' s as →
      Allowed step (fun s a => ok s a ∧ ok' s a) s as := by
  induction as with
  | nil => exact fun _ _ => trivial
  | cons a as ih =>
    exact fun h h' => ⟨⟨h.1, h'.1⟩, fun s₁ hs₁ => ih (h.2 s₁ hs₁) (h'.2 s₁ hs₁)⟩

theorem Allowed.append {ok : σ → α → Prop} {as bs : List α} :
    ∀ {s s' : σ}, Allowed step ok s (as ++ bs) → runFrom step s as = some s' →
      Allowed step ok s as ∧ Allowed step ok s' bs := by
  induction as with
  | nil =>
    intro s s' hok hrun
    cases hrun
    exact ⟨trivial, hok⟩
  | cons a as ih =>
    intro s s' hok hrun
    obtain ⟨s₁, hstep, hrest⟩ := runFrom_cons hrun
    obtain ⟨has, hbs⟩ := ih (hok.2 s₁ hstep) hrest
    refine ⟨⟨hok.1, fun s₂ hs₂ => ?_⟩, hbs⟩
    cases hstep.symm.trans hs₂
    exact has

/-- A condition on the steps that says what they may log is one on the log of the run. -/
theorem allowed_iff_log {ε : Type} {ok : σ → α → Prop} (log : σ → List ε) (P : ε → Prop)
    (hlog : ∀ {s s' a}, step s a = some s' →
      ∃ es, log s' = log s ++ es ∧ (ok s a ↔ ∀ e ∈ es, P e)) {as : List α} :
    ∀ {s s' : σ}, runFrom step s as = some s' →
      ∃ es, log s' = log s ++ es ∧ (Allowed step ok s as ↔ ∀ e ∈ es, P e) := by
  induction as with
  | nil =>
    intro s s' hrun
    cases hrun
    exact ⟨[], (List.append_nil _).symm, by simp [Allowed]⟩
  | cons a as ih =>
    intro s s' hrun
    obtain ⟨s₁, hstep, hrest⟩ := runFrom_cons hrun
    obtain ⟨es₁, hlog₁, hok₁⟩ := hlog hstep
    obtain ⟨es₂, hlog₂, hok₂⟩ := ih hrest
    refine ⟨es₁ ++ es₂, by rw [hlog₂, hlog₁, List.append_assoc], ?_⟩
    rw [List.forall_mem_append, ← hok₁, ← hok₂, Allowed]
    refine and_congr_right fun _ => ⟨fun h => h s₁ hstep, fun h s₂ hs₂ => ?_⟩
    cases hstep.symm.trans hs₂
    exact h

end Runs

end Amigos.Lib
