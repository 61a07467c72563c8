import Mathlib.Data.List.Basic
import Mathlib.Data.List.Count
import Mathlib.Data.List.Perm.Basic
import Mathlib.Algebra.BigOperators.Group.Finset.Basic
import Mathlib.Data.Fintype.Basic
import Mathlib.Tactic.Ring

/-!
# Items that move between places

A machine that passes items around (queues, threads, local variables) logs events, and an event
takes some items from one place to another; `none` is outside. `Flow` says which. The books are
kept by counting: at every place, what is there and what has left is what has arrived
(`Flow.Balanced`). A step keeps the books when they agree for the events it logs
(`Flow.Balanced.append`), so each step is looked at once, and everything that can be said about
where an item is follows from the log. `Flow.Balanced.total` takes all places together: what has
entered and not gone is somewhere.
-/

set_option autoImplicit false

namespace Amigos.Lib

/-- Which items an event of type `ε` moves, and between which places. -/
structure Flow (ε π ι : Type) where
  source : ε → Option π
  target : ε → Option π
  items : ε → List ι

namespace Flow

variable {ε π ι : Type} (F : Flow ε π ι)

/-- What has come in from outside. -/
def entered (log : List ε) : List ι :=
  log.flatMap fun e => if F.source e = none ∧ F.target e ≠ none then F.items e else []

/-- What has gone outside. -/
def gone (log : List ε) : List ι :=
  log.flatMap fun e => if F.source e ≠ none ∧ F.target e = none then F.items e else []

theorem entered_cons (e : ε) (es : List ε) :
    F.entered (e :: es)
      = (if F.source e = none ∧ F.target e ≠ none then F.items e else []) ++ F.entered es := rfl

theorem gone_cons (e : ε) (es : List ε) :
    F.gone (e :: es)
      = (if F.source e ≠ none ∧ F.target e = none then F.items e else []) ++ F.gone es := rfl

variable [DecidableEq π]

/-- What has arrived at a place. -/
def arrived (log : List ε) (p : π) : List ι :=
  log.flatMap fun e => if F.target e = some p then F.items e else []

/-- What has left a place. -/
def left (log : List ε) (p : π) : List ι :=
  log.flatMap fun e => if F.source e = some p then F.items e else []

@[simp] theorem arrived_nil (p : π) : F.arrived [] p = [] := rfl

@[simp] theorem left_nil (p : π) : F.left [] p = [] := rfl

theorem arrived_append (log es : List ε) (p : π) :
    F.arrived (log ++ es) p = F.arrived log p ++ F.arrived es p := List.flatMap_append

theorem left_append (log es : List ε) (p : π) :
    F.left (log ++ es) p = F.left log p ++ F.left es p := List.flatMap_append

theorem arrived_cons (e : ε) (es : List ε) (p : π) :
    F.arrived (e :: es) p
      = (if F.target e = some p then F.items e else []) ++ F.arrived es p := rfl

theorem left_cons (e : ε) (es : List ε) (p : π) :
    F.left (e :: es) p
      = (if F.source e = some p then F.items e else []) ++ F.left es p := rfl

variable [BEq ι]

/-- From the contents `c` to `c'` exactly the items of these events have moved. -/
def Moves (es : List ε) (c c' : π → List ι) : Prop :=
  ∀ p x, (c p).count x + (F.arrived es p).count x = (c' p).count x + (F.left es p).count x

theorem Moves.of_perm {c c' : π → List ι} (h : ∀ p, (c' p).Perm (c p)) : F.Moves [] c c' := by
  intro p x
  rw [arrived_nil, left_nil, (h p).count_eq]

/-- **The books**: at every place, what is there and what has left is what has arrived. -/
def Balanced (log : List ε) (c : π → List ι) : Prop :=
  ∀ p x, (c p).count x + (F.left log p).count x = (F.arrived log p).count x

theorem Balanced.nil {c : π → List ι} (h : ∀ p, c p = []) : F.Balanced [] c := by
  intro p x
  rw [h p, left_nil, arrived_nil]
  rfl

/-- **A step keeps the books** when they agree for what it logs. -/
theorem Balanced.append {log es : List ε} {c c' : π → List ι} (h : F.Balanced log c)
    (hmove : F.Moves es c c') : F.Balanced (log ++ es) c' := by
  intro p x
  have hlog := h p x
  have hstep := hmove p x
  rw [arrived_append, left_append, List.count_append, List.count_append]
  omega

/-- What arrives somewhere has left some place or has entered. -/
theorem sum_arrived [Fintype π] (log : List ε) (x : ι) :
    (∑ p, (F.arrived log p).count x) + (F.gone log).count x
      = (∑ p, (F.left log p).count x) + (F.entered log).count x := by
  have hplaces : ∀ (o : Option π) (l : List ι),
      (∑ p, (if o = some p then l else []).count x) = if o = none then 0 else l.count x := by
    rintro (_ | p) l
    · simp
    · rw [Finset.sum_eq_single p (fun q _ hq => by simp [Ne.symm hq]) (by simp)]
      simp
  induction log with
  | nil => simp [entered, gone]
  | cons e es ih =>
    simp only [arrived_cons, left_cons, entered_cons, gone_cons, List.count_append,
      Finset.sum_add_distrib, hplaces]
    by_cases hsource : F.source e = none <;> by_cases htarget : F.target e = none <;>
      simp only [hsource, htarget, if_true, if_false, not_true_eq_false, not_false_eq_true, ne_eq,
        and_self, and_true, and_false, List.count_nil] <;> omega

/-- **Nothing is lost on the way**: what has entered is at some place or has gone. -/
theorem Balanced.total [Fintype π] {log : List ε} {c : π → List ι} (h : F.Balanced log c) (x : ι) :
    (∑ p, (c p).count x) + (F.gone log).count x = (F.entered log).count x := by
  have hsum : (∑ p, (c p).count x) + (∑ p, (F.left log p).count x)
      = ∑ p, (F.arrived log p).count x := by
    rw [← Finset.sum_add_distrib]
    exact Finset.sum_congr rfl fun p _ => h p x
  have hboth := F.sum_arrived log x
  omega

end Flow

/-- A list of events sorted out by kind: if every event counts under one of two kinds, so does the
list. -/
theorem count_flatMap_add {ε ι : Type} [BEq ι] {f g h : ε → List ι} {x : ι}
    (hadd : ∀ e, (f e).count x = (g e).count x + (h e).count x) (es : List ε) :
    (es.flatMap f).count x = (es.flatMap g).count x + (es.flatMap h).count x := by
  induction es with
  | nil => rfl
  | cons e es ih =>
    simp only [List.flatMap_cons, List.count_append, ih, hadd e]
    omega

theorem count_flatMap_le {ε ι : Type} [BEq ι] {f g : ε → List ι} {x : ι}
    (hle : ∀ e, (f e).count x ≤ (g e).count x) (es : List ε) :
    (es.flatMap f).count x ≤ (es.flatMap g).count x := by
  induction es with
  | nil => exact Nat.le_refl 0
  | cons e es ih =>
    simp only [List.flatMap_cons, List.count_append]
    exact Nat.add_le_add (hle e) ih

/-- What the elements of a list hold, when one of them is replaced. -/
theorem count_filterMap_set {α ι : Type} [BEq ι] (f : α → Option ι) {l : List α} {i : ℕ}
    {a : α} (hget : l[i]? = some a) (b : α) (x : ι) :
    ((l.set i b).filterMap f).count x + (f a).toList.count x
      = (l.filterMap f).count x + (f b).toList.count x := by
  obtain ⟨hi, rfl⟩ := List.getElem?_eq_some_iff.mp hget
  have hold := ((List.getElem_cons_eraseIdx_perm hi).filterMap f).count_eq x
  have hnew := ((List.set_perm_cons_eraseIdx hi b).filterMap f).count_eq x
  have hcons : ∀ c : α, ((c :: l.eraseIdx i).filterMap f).count x
      = (f c).toList.count x + ((l.eraseIdx i).filterMap f).count x := by
    intro c
    rw [← List.count_append, List.filterMap_cons]
    cases f c <;> rfl
  rw [hcons] at hold hnew
  omega

end Amigos.Lib
