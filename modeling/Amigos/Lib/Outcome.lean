/-!
# What a program with exceptions comes to

A computation ends normally, throws, or has no meaning at all: an access out of range, an aborted
process, a loop that does not end. `Outcome ε` keeps the three apart. Its `bind` goes on only after
a normal end, and the two inversion rules, `bind_eq_ok` and `bind_eq_exception`, take a sequence of
steps apart without unfolding it. `Ends` is for what holds in either case, and is carried forward
from step to step.
-/

set_option autoImplicit false

namespace Amigos.Lib

inductive Outcome (ε α : Type) where
  | ok (a : α)
  | exception (e : ε)
  | undefined
  deriving DecidableEq, Repr

namespace Outcome

variable {ε ε' α β : Type}

def bind (x : Outcome ε α) (f : α → Outcome ε β) : Outcome ε β :=
  match x with
  | .ok a => f a
  | .exception e => .exception e
  | .undefined => .undefined

instance : Monad (Outcome ε) where
  pure := .ok
  bind := bind

/-- A checked access. -/
def ofOption : Option α → Outcome ε α
  | some a => .ok a
  | none => .undefined

def ofExcept : Except ε α → Outcome ε α
  | .ok a => .ok a
  | .error e => .exception e

/-- `catch` and throw again, with something added. -/
def mapException (f : ε → ε') : Outcome ε α → Outcome ε' α
  | .ok a => .ok a
  | .exception e => .exception (f e)
  | .undefined => .undefined

@[simp] theorem pure_eq (a : α) : (pure a : Outcome ε α) = .ok a := rfl

@[simp] theorem ok_bind (a : α) (f : α → Outcome ε β) : (.ok a >>= f) = f a := rfl

@[simp] theorem exception_bind (e : ε) (f : α → Outcome ε β) :
    (.exception e >>= f) = .exception e := rfl

@[simp] theorem ofOption_some (a : α) : (ofOption (some a) : Outcome ε α) = .ok a := rfl

@[simp] theorem mapException_exception (f : ε → ε') (e : ε) :
    (.exception e : Outcome ε α).mapException f = .exception (f e) := rfl

/-- **A sequence of steps ends normally** only if each step does. -/
theorem bind_eq_ok {x : Outcome ε α} {f : α → Outcome ε β} {b : β} (h : (x >>= f) = .ok b) :
    ∃ a, x = .ok a ∧ f a = .ok b := by
  cases x with
  | ok a => exact ⟨a, rfl, h⟩
  | exception e => cases h
  | undefined => cases h

/-- **A sequence of steps throws** at one of them. -/
theorem bind_eq_exception {x : Outcome ε α} {f : α → Outcome ε β} {e : ε}
    (h : (x >>= f) = .exception e) :
    x = .exception e ∨ ∃ a, x = .ok a ∧ f a = .exception e := by
  cases x with
  | ok a => exact Or.inr ⟨a, rfl, h⟩
  | exception e' =>
    cases h
    exact Or.inl rfl
  | undefined => cases h

/-- A sequence of steps that means anything either throws at its first step or goes on. -/
theorem mapException_bind {x : Outcome ε α} {g : ε → ε'} {f : α → Outcome ε' β} {o : Outcome ε' β}
    (h : (x.mapException g >>= f) = o) (hdef : o ≠ .undefined) :
    (∃ e, x = .exception e ∧ o = .exception (g e)) ∨ ∃ a, x = .ok a ∧ f a = o := by
  cases x with
  | ok a => exact Or.inr ⟨a, rfl, h⟩
  | exception e => exact Or.inl ⟨e, rfl, h.symm⟩
  | undefined => exact absurd h.symm hdef

/-- A sequence of steps that all mean something does so. -/
theorem bind_ne_undefined {x : Outcome ε α} {f : α → Outcome ε β} (hx : x ≠ .undefined)
    (hf : ∀ a, f a ≠ .undefined) : (x >>= f) ≠ .undefined := by
  cases x with
  | ok a => exact hf a
  | exception e => exact fun h => nomatch h
  | undefined => exact absurd rfl hx

/-- A checked access that means anything finds something. -/
theorem ofOption_bind {x : Option α} {f : α → Outcome ε β} {o : Outcome ε β}
    (h : (ofOption x >>= f) = o) (hdef : o ≠ .undefined) : ∃ a, x = some a ∧ f a = o := by
  cases x with
  | none => exact absurd h.symm hdef
  | some a => exact ⟨a, rfl, h⟩

theorem ofOption_eq_ok {x : Option α} {a : α} (h : (ofOption x : Outcome ε α) = .ok a) :
    x = some a := by
  cases x with
  | none => cases h
  | some b =>
    cases h
    rfl

theorem ofOption_ne_exception {x : Option α} {e : ε} :
    (ofOption x : Outcome ε α) ≠ .exception e := by
  intro h
  cases x <;> cases h

theorem ofExcept_eq_ok {x : Except ε α} {a : α} (h : ofExcept x = .ok a) : x = .ok a := by
  cases x with
  | error e => cases h
  | ok b =>
    cases h
    rfl

theorem mapException_eq_ok {f : ε → ε'} {x : Outcome ε α} {a : α}
    (h : x.mapException f = .ok a) : x = .ok a := by
  cases x with
  | ok b =>
    cases h
    rfl
  | exception e => cases h
  | undefined => cases h

/-! ## Postconditions -/

/-- **A pair of postconditions**: a normal end in `P`, an exception in `Q`. -/
def Ends (P : α → Prop) (Q : ε → Prop) : Outcome ε α → Prop
  | .ok a => P a
  | .exception e => Q e
  | .undefined => True

variable {P : α → Prop} {Q : ε → Prop}

/-- What the first step ends in is what the second begins with. -/
theorem Ends.bind {R : β → Prop} {x : Outcome ε α} {f : α → Outcome ε β} (h : x.Ends P Q)
    (hf : ∀ a, P a → (f a).Ends R Q) : (x >>= f).Ends R Q := by
  cases x with
  | ok a => exact hf a h
  | exception e => exact h
  | undefined => trivial

theorem Ends.mapException {Q' : ε' → Prop} {x : Outcome ε α} {g : ε → ε'} (h : x.Ends P Q)
    (hg : ∀ e, Q e → Q' (g e)) : (x.mapException g).Ends P Q' := by
  cases x with
  | ok a => exact h
  | exception e => exact hg e h
  | undefined => trivial

end Outcome

end Amigos.Lib
