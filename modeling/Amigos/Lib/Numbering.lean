import Mathlib.Data.List.Nodup
import Mathlib.Data.List.Perm.Basic
import Mathlib.Data.List.Range
import Mathlib.Order.Basic

/-!
# Numbers given out on demand

A table that gives a new key the number of the keys that it has, and an old one the number it was
given. However such a table was filled, its numbers are those below its length, each of them for one
key (`Numbers.number`), and what was given out stays given out (`Extends`).

A computation that asks for numbers, and may throw, leaves a larger table behind. It is steady
(`Steady`) if over any table that is larger still it answers the same and asks for nothing new.
Steps that are steady make steady sequences, so what a program has answered on its way is what it
would answer with the table it ends with.
-/

set_option autoImplicit false

namespace Amigos.Lib

universe u

/-! ## Tables -/

section

variable {κ : Type u} [BEq κ]

/-- The number of a key, and the table behind it. -/
def number (key : κ) (table : List (κ × ℕ)) : ℕ × List (κ × ℕ) :=
  match table.lookup key with
  | some n => (n, table)
  | none => (table.length, table ++ [(key, table.length)])

/-- **The keys are numbered**, each one once, by the numbers below the length of the table. -/
structure Numbers (table : List (κ × ℕ)) : Prop where
  keys : (table.map Prod.fst).Nodup
  values : (table.map Prod.snd).Perm (List.range table.length)

/-- What has been given out stays given out. -/
def Extends (table table' : List (κ × ℕ)) : Prop :=
  ∀ key n, table.lookup key = some n → table'.lookup key = some n

theorem Extends.refl (table : List (κ × ℕ)) : Extends table table := fun _ _ h => h

theorem Extends.trans {table table' table'' : List (κ × ℕ)} (h : Extends table table')
    (h' : Extends table' table'') : Extends table table'' :=
  fun key n hlookup => h' key n (h key n hlookup)

theorem number_of_lookup {key : κ} {n : ℕ} {table : List (κ × ℕ)}
    (h : table.lookup key = some n) : number key table = (n, table) := by
  rw [number, h]

theorem extends_number (key : κ) (table : List (κ × ℕ)) : Extends table (number key table).2 := by
  intro key' n h
  cases hlookup : table.lookup key with
  | some _ =>
    rw [number_of_lookup hlookup]
    exact h
  | none => simp only [number, hlookup, List.lookup_append, h, Option.some_or]

variable [LawfulBEq κ]

theorem lookup_number_self (key : κ) (table : List (κ × ℕ)) :
    (number key table).2.lookup key = some (number key table).1 := by
  cases hlookup : table.lookup key with
  | some n =>
    rw [number_of_lookup hlookup]
    exact hlookup
  | none =>
    simp only [number, hlookup, List.lookup_append, List.lookup_cons, beq_self_eq_true,
      Option.none_or]

/-- A larger table gives the same number, and stays as it is. -/
theorem Extends.number {key : κ} {table table' : List (κ × ℕ)}
    (h : Extends (number key table).2 table') :
    Lib.number key table' = ((Lib.number key table).1, table') :=
  number_of_lookup (h key _ (lookup_number_self key table))

/-- **A key is given a number**, and the keys are numbered as before. -/
theorem Numbers.number {table : List (κ × ℕ)} (h : Numbers table) (key : κ) :
    Numbers (number key table).2 := by
  cases hlookup : table.lookup key with
  | some n =>
    rw [number_of_lookup hlookup]
    exact h
  | none =>
    have hnew : key ∉ table.map Prod.fst := by
      intro hmem
      obtain ⟨entry, hentry, rfl⟩ := List.mem_map.mp hmem
      have hne := List.lookup_eq_none_iff.mp hlookup entry hentry
      simp at hne
    simp only [Lib.number, hlookup]
    constructor
    · rw [List.map_append, List.map_singleton, List.nodup_append]
      refine ⟨h.keys, List.nodup_singleton _, ?_⟩
      rintro a ha b hb rfl
      rw [List.mem_singleton.mp hb] at ha
      exact hnew ha
    · rw [List.map_append, List.map_singleton, List.length_append, List.length_singleton,
        List.range_succ]
      exact h.values.append_right _

end

/-! ## Steady computations -/

section

variable {ε σ α β : Type u}

/-- What is looked up in the state, and does not change as it grows. -/
def reading (read : σ → Except ε α) : ExceptT ε (StateM σ) α := fun s => (read s, s)

/-- What a sequence does when its first step answers, and when that throws. -/
theorem bind_of_ok {x : ExceptT ε (StateM σ) α} {f : α → ExceptT ε (StateM σ) β} {s s₁ : σ} {a : α}
    (h : x s = (.ok a, s₁)) : (x >>= f) s = f a s₁ := by
  show ExceptT.bindCont f (x s).1 (x s).2 = _
  rw [h]
  rfl

theorem bind_of_error {x : ExceptT ε (StateM σ) α} {f : α → ExceptT ε (StateM σ) β} {s s₁ : σ}
    {e : ε} (h : x s = (.error e, s₁)) : (x >>= f) s = (.error e, s₁) := by
  show ExceptT.bindCont f (x s).1 (x s).2 = _
  rw [h]
  rfl

variable [Preorder σ] {I : σ → Prop}

/-- **The state grows**, under an invariant, and over any state that is larger still the computation
does the same and changes nothing. -/
structure Steady (I : σ → Prop) (x : ExceptT ε (StateM σ) α) : Prop where
  grows : ∀ s, s ≤ (x s).2
  keeps : ∀ s, I s → I (x s).2
  fixed : ∀ s s', (x s).2 ≤ s' → x s' = ((x s).1, s')

theorem Steady.reading {read : σ → Except ε α} (h : ∀ s s', s ≤ s' → read s' = read s) :
    Steady I (reading read) where
  grows := fun s => le_refl s
  keeps := fun _ hI => hI
  fixed := fun s s' hle => by rw [Lib.reading, Lib.reading, h s s' hle]

theorem Steady.pure (a : α) : Steady I (pure a : ExceptT ε (StateM σ) α) where
  grows := fun s => le_refl s
  keeps := fun _ hI => hI
  fixed := fun _ _ _ => rfl

/-- **A sequence of steady steps is steady.** -/
theorem Steady.bind {x : ExceptT ε (StateM σ) α} {f : α → ExceptT ε (StateM σ) β}
    (hx : Steady I x) (hf : ∀ a, Steady I (f a)) : Steady I (x >>= f) := by
  refine ⟨fun s => ?_, fun s hI => ?_, fun s s' hle => ?_⟩
  all_goals
    have hgrows := hx.grows s
    have hkeeps := hx.keeps s
    have hfixed := hx.fixed s
    cases hrun : x s with | mk answer s₁ => ?_
    rw [hrun] at hgrows hkeeps hfixed
    cases answer
  · rw [bind_of_error hrun]
    exact hgrows
  · rw [bind_of_ok hrun]
    exact hgrows.trans ((hf _).grows s₁)
  · rw [bind_of_error hrun]
    exact hkeeps hI
  · rw [bind_of_ok hrun]
    exact (hf _).keeps s₁ (hkeeps hI)
  · rw [bind_of_error hrun] at hle ⊢
    exact bind_of_error (hfixed s' hle)
  · rw [bind_of_ok hrun] at hle ⊢
    rw [bind_of_ok (hfixed s' (((hf _).grows s₁).trans hle))]
    exact (hf _).fixed s₁ s' hle

end

end Amigos.Lib
