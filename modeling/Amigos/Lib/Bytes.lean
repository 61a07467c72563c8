import Mathlib.Algebra.GroupWithZero.Nat
import Mathlib.Data.List.Basic

/-!
# Bytes, fixed-width numbers, and a file read through a cursor

`leBytes` and `beBytes` are the little- and big-endian encodings of a number in a given number
of bytes. A `Pod` is a type whose values are written as one such little-endian field; `writeTo`
and `readFrom` are the two directions at any `Pod`.

An `IStream` is an open file: its bytes and a position. The one thing the proofs need about it
is what is still `unread`: a reader is specified by `Decodes`, which says which value it
delivers when the unread part starts with given bytes, and that it stops right behind them.
-/

set_option autoImplicit false

namespace Amigos.Lib

/-- A string of bytes. -/
abbrev Bytes := List UInt8

/-! ## Fixed-width numbers -/

/-- The low `w` bytes of `n`, least significant first. -/
def leBytes : Nat → Nat → Bytes
  | 0, _ => []
  | w + 1, n => UInt8.ofNat n :: leBytes w (n / 256)

/-- The number that bytes stand for, least significant first. -/
def leNat : Bytes → Nat
  | [] => 0
  | b :: bs => b.toNat + 256 * leNat bs

@[simp] theorem length_leBytes (w n : Nat) : (leBytes w n).length = w := by
  induction w generalizing n with
  | zero => rfl
  | succ w ih => simp [leBytes, ih]

theorem leNat_leBytes (w n : Nat) : leNat (leBytes w n) = n % 256 ^ w := by
  induction w generalizing n with
  | zero => simp [leBytes, leNat, Nat.mod_one]
  | succ w ih =>
    have hpow : 256 ^ (w + 1) = 256 * 256 ^ w := Nat.pow_succ'
    simp only [leBytes, leNat, ih, UInt8.toNat_ofNat', hpow, Nat.mod_mul]

theorem leNat_leBytes_of_lt {w n : Nat} (h : n < 256 ^ w) : leNat (leBytes w n) = n := by
  rw [leNat_leBytes, Nat.mod_eq_of_lt h]

/-- The low `w` bytes of `n`, most significant first. -/
def beBytes : Nat → Nat → Bytes
  | 0, _ => []
  | w + 1, n => UInt8.ofNat (n / 256 ^ w) :: beBytes w (n % 256 ^ w)

@[simp] theorem length_beBytes (w n : Nat) : (beBytes w n).length = w := by
  induction w generalizing n with
  | zero => rfl
  | succ w ih => simp [beBytes, ih]

/-- **Big-endian numbers compare as their bytes do**, first difference first. -/
theorem beBytes_lt_iff {w m n : Nat} (hm : m < 256 ^ w) (hn : n < 256 ^ w) :
    beBytes w m < beBytes w n ↔ m < n := by
  induction w generalizing m n with
  | zero => simp only [Nat.pow_zero, Nat.lt_one_iff] at hm hn; simp [beBytes, hm, hn]
  | succ w ih =>
    have hpos : 0 < 256 ^ w := Nat.pow_pos (by decide)
    have hdiv : ∀ {k}, k < 256 ^ (w + 1) → k / 256 ^ w < 256 := fun hk =>
      Nat.div_lt_of_lt_mul (by rwa [Nat.pow_succ] at hk)
    have hbyte : ∀ {k}, k < 256 ^ (w + 1) → (UInt8.ofNat (k / 256 ^ w)).toNat = k / 256 ^ w :=
      fun hk => by rw [UInt8.toNat_ofNat', Nat.mod_eq_of_lt (hdiv hk)]
    have hm' := Nat.div_add_mod m (256 ^ w)
    have hn' := Nat.div_add_mod n (256 ^ w)
    have hrm := Nat.mod_lt m hpos
    have hrn := Nat.mod_lt n hpos
    rw [beBytes, beBytes, List.cons_lt_cons_iff, ih hrm hrn, UInt8.lt_iff_toNat_lt,
      ← UInt8.toNat_inj, hbyte hm, hbyte hn]
    constructor
    · rintro (hlt | ⟨heq, hlt⟩)
      · by_contra hge
        exact absurd hlt (Nat.not_lt.mpr (Nat.div_le_div_right (Nat.not_lt.mp hge)))
      · rw [← hm', ← hn', heq]
        exact Nat.add_lt_add_left hlt _
    · intro hlt
      rcases Nat.lt_or_ge (m / 256 ^ w) (n / 256 ^ w) with h | h
      · exact Or.inl h
      · have heq : m / 256 ^ w = n / 256 ^ w :=
          Nat.le_antisymm (Nat.div_le_div_right (Nat.le_of_lt hlt)) h
        refine Or.inr ⟨heq, ?_⟩
        rw [← hm', ← hn', heq] at hlt
        exact Nat.lt_of_add_lt_add_left hlt

/-- A type whose values are stored as one little-endian field of `width` bytes. -/
class Pod (α : Type) where
  width : Nat
  code : α → Nat
  decode : Nat → α
  code_lt : ∀ a, code a < 256 ^ width
  decode_code : ∀ a, decode (code a) = a

instance : Pod UInt8 where
  width := 1
  code := UInt8.toNat
  decode := UInt8.ofNat
  code_lt a := a.toNat_lt
  decode_code _ := UInt8.ofNat_toNat

instance : Pod UInt16 where
  width := 2
  code := UInt16.toNat
  decode := UInt16.ofNat
  code_lt a := a.toNat_lt
  decode_code _ := UInt16.ofNat_toNat

instance : Pod UInt32 where
  width := 4
  code := UInt32.toNat
  decode := UInt32.ofNat
  code_lt a := a.toNat_lt
  decode_code _ := UInt32.ofNat_toNat

instance : Pod UInt64 where
  width := 8
  code := UInt64.toNat
  decode := UInt64.ofNat
  code_lt a := a.toNat_lt
  decode_code _ := UInt64.ofNat_toNat

section Pod

variable {α : Type} [Pod α]

/-- The bytes of one field. -/
def podBytes (a : α) : Bytes := leBytes (Pod.width α) (Pod.code a)

@[simp] theorem length_podBytes (a : α) : (podBytes a).length = Pod.width α :=
  length_leBytes _ _

theorem decode_podBytes (a : α) : Pod.decode (leNat (podBytes a)) = a := by
  rw [podBytes, leNat_leBytes_of_lt (Pod.code_lt a), Pod.decode_code]

end Pod

@[simp] theorem width_UInt8 : Pod.width UInt8 = 1 := rfl
@[simp] theorem width_UInt16 : Pod.width UInt16 = 2 := rfl
@[simp] theorem width_UInt32 : Pod.width UInt32 = 4 := rfl
@[simp] theorem width_UInt64 : Pod.width UInt64 = 8 := rfl

/-! ## Output and input -/

/-- Append one field to what has been written. -/
def writeTo {α : Type} [Pod α] (ofs : Bytes) (val : α) : Bytes := ofs ++ podBytes val

/-- A file open for reading. -/
structure IStream where
  data : Bytes
  pos : Nat
  deriving DecidableEq, Repr

namespace IStream

/-- What the stream has not delivered yet. -/
def unread (s : IStream) : Bytes := s.data.drop s.pos

/-- Move the position, counted from the start of the file. -/
def seek (s : IStream) (pos : Nat) : IStream := { s with pos := pos }

/-- Read exactly `n` bytes. A read past the end leaves its target indeterminate: `none`. -/
def read (s : IStream) (n : Nat) : Option (Bytes × IStream) :=
  if n ≤ s.unread.length then some (s.unread.take n, s.seek (s.pos + n)) else none

/-- Read `n` bytes, or as many as there are. -/
def readUpTo (s : IStream) (n : Nat) : Bytes × IStream :=
  (s.unread.take n, s.seek (s.pos + (s.unread.take n).length))

@[simp] theorem data_seek (s : IStream) (p : Nat) : (s.seek p).data = s.data := rfl
@[simp] theorem pos_seek (s : IStream) (p : Nat) : (s.seek p).pos = p := rfl
@[simp] theorem seek_seek (s : IStream) (p q : Nat) : (s.seek p).seek q = s.seek q := rfl

theorem readUpTo_append {s : IStream} {a b : Bytes} (h : s.unread = a ++ b) :
    s.readUpTo a.length = (a, s.seek (s.pos + a.length)) := by
  simp [readUpTo, h]

theorem unread_mk (d : Bytes) : (IStream.mk d 0).unread = d := rfl

theorem unread_seek_append {s : IStream} {a b : Bytes} (h : s.unread = a ++ b) :
    (s.seek (s.pos + a.length)).unread = b := by
  simp only [unread, data_seek, pos_seek] at h ⊢
  rw [← List.drop_drop, h, List.drop_left]

/-- A position inside a file splits it: what stands there is what is unread after seeking. -/
theorem unread_seek_of_data {s : IStream} {a b : Bytes} (h : s.data = a ++ b) :
    (s.seek a.length).unread = b := by
  simp [unread, h]

end IStream

/-! ## Decoders

`Decodes rd bs a` is the whole specification of a reader: wherever it finds `bs` unread it
delivers `a` and stops right behind `bs`. Decoders compose by `Decodes.bind`, as the bytes
concatenate. -/

/-- Reading `bs` with `rd` yields `a`. -/
def Decodes {α : Type} (rd : IStream → Option (α × IStream)) (bs : Bytes) (a : α) : Prop :=
  ∀ s rest, s.unread = bs ++ rest → rd s = some (a, s.seek (s.pos + bs.length))

namespace Decodes

variable {α β : Type} {bs cs : Bytes}

theorem pure (a : α) : Decodes (fun s => some (a, s)) [] a := fun s _ _ => by
  simp [IStream.seek]

theorem bind {rd : IStream → Option (α × IStream)} {a : α}
    {f : α × IStream → Option (β × IStream)} {b : β} (h : Decodes rd bs a)
    (hf : Decodes (fun s => f (a, s)) cs b) : Decodes (fun s => (rd s).bind f) (bs ++ cs) b := by
  intro s rest hs
  rw [List.append_assoc] at hs
  simp only [h s _ hs, Option.bind_some]
  have hlast := hf _ _ (IStream.unread_seek_append hs)
  simpa [Nat.add_assoc] using hlast

/-- The last step of a decoder: nothing more is read. -/
theorem map {rd : IStream → Option (α × IStream)} {a : α} {f : α × IStream → β × IStream} {b : β}
    (h : Decodes rd bs a) (hf : ∀ s, f (a, s) = (b, s)) :
    Decodes (fun s => (rd s).bind fun p => some (f p)) bs b := by
  intro s rest hs
  simp only [h s _ hs, Option.bind_some, hf]

/-- **A decoder determines what it decodes**: of two encodings in front of the same bytes, both
are the same encoding of the same value. -/
theorem unique {rd : IStream → Option (α × IStream)} {a b : α} {rest rest' : Bytes}
    (ha : Decodes rd bs a) (hb : Decodes rd cs b) (h : bs ++ rest = cs ++ rest') :
    a = b ∧ rest = rest' := by
  have hread := (ha ⟨bs ++ rest, 0⟩ rest rfl).symm.trans (hb ⟨bs ++ rest, 0⟩ rest' h)
  simp only [IStream.seek, Nat.zero_add, Option.some.injEq, Prod.mk.injEq, IStream.mk.injEq,
    true_and] at hread
  exact ⟨hread.1, (List.append_inj h hread.2).2⟩

/-- A decoder's step, with the stream it leaves as one name. -/
theorem run {rd : IStream → Option (α × IStream)} {a : α} (h : Decodes rd bs a) {s : IStream}
    {rest : Bytes} (hs : s.unread = bs ++ rest) :
    ∃ s', rd s = some (a, s') ∧ s'.unread = rest :=
  ⟨_, h s rest hs, IStream.unread_seek_append hs⟩

/-- A decoder applied in the middle of a file. -/
theorem at_seek {rd : IStream → Option (α × IStream)} {a : α} (h : Decodes rd bs a)
    {s : IStream} {pre rest : Bytes} (hs : s.data = pre ++ (bs ++ rest)) :
    rd (s.seek pre.length) = some (a, s.seek (pre.length + bs.length)) := by
  rw [h _ _ (IStream.unread_seek_of_data hs)]
  rfl

end Decodes

/-- Exactly `n` raw bytes. -/
theorem decodes_read (bs : Bytes) : Decodes (fun s => s.read bs.length) bs bs :=
  fun s rest h => by simp [IStream.read, h]

/-- Read one field. -/
def readFrom {α : Type} [Pod α] (ifs : IStream) : Option (α × IStream) := do
  let (bs, ifs) ← ifs.read (Pod.width α)
  return (Pod.decode (leNat bs), ifs)

/-- Read `n` fields, one after the other. -/
def readMany {α : Type} [Pod α] : Nat → IStream → Option (List α × IStream)
  | 0, ifs => some ([], ifs)
  | n + 1, ifs => do
    let (a, ifs) ← readFrom ifs
    let (as, ifs) ← readMany n ifs
    return (a :: as, ifs)

section Pod

variable {α : Type} [Pod α]

/-- **Reading back what `writeTo` wrote.** -/
theorem decodes_readFrom (a : α) : Decodes readFrom (podBytes a) a := by
  intro s rest h
  have hr := decodes_read (podBytes a) s rest h
  rw [length_podBytes] at hr ⊢
  simp [readFrom, hr, decode_podBytes]

theorem decodes_readMany (as : List α) :
    Decodes (readMany as.length) (as.flatMap podBytes) as := by
  induction as with
  | nil => exact Decodes.pure []
  | cons a as ih =>
    exact (decodes_readFrom a).bind (ih.map (b := a :: as) fun _ => rfl)

theorem length_of_readMany {n : Nat} {s s' : IStream} {as : List α}
    (h : readMany n s = some (as, s')) : as.length = n := by
  induction n generalizing s s' as with
  | zero =>
    simp only [readMany, Option.some.injEq, Prod.mk.injEq] at h
    rw [← h.1, List.length_nil]
  | succ n ih =>
    simp only [readMany, Option.bind_eq_bind, Option.bind_eq_some_iff, Option.pure_def,
      Option.some.injEq, Prod.mk.injEq] at h
    obtain ⟨⟨a, s₁⟩, -, ⟨bs, s₂⟩, hmany, rfl, -⟩ := h
    rw [List.length_cons, ih hmany]

theorem length_flatMap_podBytes (as : List α) :
    (as.flatMap podBytes).length = as.length * Pod.width α := by
  induction as with
  | nil => simp
  | cons a as ih => simp [List.flatMap_cons, ih, Nat.add_mul, Nat.add_comm]

end Pod

end Amigos.Lib
