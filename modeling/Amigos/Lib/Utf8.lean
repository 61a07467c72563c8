import Amigos.Lib.Bytes
import Mathlib.Data.List.TakeWhile

/-!
# UTF-8 text as bytes, and the part of it that C sees

`utf8` is the encoding of a text, `utf8Decode` the way back. A C string ends at its first NUL:
`cPart` is what comes before it. The encoding of a character other than NUL has no byte 0, so
cutting the bytes at the first 0 and cutting the text at its first NUL are the same
(`cPart_utf8`).
-/

set_option autoImplicit false

namespace Amigos.Lib

/-- The UTF-8 encoding of a text. -/
def utf8 (s : List Char) : Bytes := s.flatMap String.utf8EncodeChar

@[simp] theorem utf8_nil : utf8 [] = [] := rfl

@[simp] theorem utf8_cons (ch : Char) (s : List Char) :
    utf8 (ch :: s) = String.utf8EncodeChar ch ++ utf8 s := rfl

@[simp] theorem utf8_append (s t : List Char) : utf8 (s ++ t) = utf8 s ++ utf8 t :=
  List.flatMap_append

/-- What bytes are the encoding of, if they are one. -/
def utf8Decode (bs : Bytes) : Option (List Char) :=
  (bs.toByteArray.utf8Decode?).map Array.toList

theorem utf8Decode_utf8 (s : List Char) : utf8Decode (utf8 s) = some s := by
  have h : (utf8 s).toByteArray = s.utf8Encode := rfl
  simp only [utf8Decode, h, List.utf8Decode?_utf8Encode, Option.map_some]

/-! ## NUL -/

/-- What C reads of a text: what stands before the first NUL. -/
def cPart (s : List Char) : List Char := s.takeWhile fun ch => ch != '\x00'

theorem nul_notMem_cPart (s : List Char) : '\x00' ∉ cPart s := by
  intro h
  have hne := List.mem_takeWhile_imp h
  simp at hne

theorem cPart_append_drop (s : List Char) : cPart s ++ s.drop (cPart s).length = s :=
  List.prefix_iff_eq_append.mp (List.takeWhile_prefix _)

theorem cPart_append {s : List Char} (h : '\x00' ∉ s) (t : List Char) :
    cPart (s ++ t) = s ++ cPart t := by
  apply List.takeWhile_append_of_pos
  intro ch hch
  rw [bne_iff_ne]
  rintro rfl
  exact h hch

/-- Behind a NUL nothing is seen. -/
theorem cPart_append_of_mem {s : List Char} (h : '\x00' ∈ s) (t : List Char) :
    cPart (s ++ t) = cPart s := by
  induction s with
  | nil => cases h
  | cons c s ih =>
    rw [cPart, cPart, List.cons_append, List.takeWhile_cons, List.takeWhile_cons]
    split
    · rename_i hc
      have hmem : '\x00' ∈ s := (List.mem_cons.mp h).resolve_left (bne_iff_ne.mp hc).symm
      exact congrArg (c :: ·) (ih hmem)
    · rfl

theorem cPart_eq {s : List Char} (h : '\x00' ∉ s) : cPart s = s := by
  have hcut : cPart (s ++ []) = s ++ [] := cPart_append h []
  rwa [List.append_nil] at hcut

theorem zero_notMem_utf8EncodeChar {ch : Char} (h : ch ≠ '\x00') :
    (0 : UInt8) ∉ String.utf8EncodeChar ch := by
  have hval : ch.val.toNat ≠ 0 := fun hzero => h (Char.ext (UInt32.toNat_inj.mp hzero))
  -- Apart from the one byte of an ASCII letter, every byte has its top bit set.
  have hbyte : ∀ n, n % 256 ≠ 0 → (0 : UInt8) ≠ UInt8.ofNat n := by
    intro n hn heq
    apply hn
    rw [← UInt8.toNat_ofNat', ← heq]
    rfl
  unfold String.utf8EncodeChar
  simp only
  split
  · simp only [List.mem_singleton]
    exact hbyte _ (by omega)
  split
  · simp only [List.mem_cons, List.not_mem_nil, or_false, not_or]
    exact ⟨hbyte _ (by omega), hbyte _ (by omega)⟩
  split
  · simp only [List.mem_cons, List.not_mem_nil, or_false, not_or]
    exact ⟨hbyte _ (by omega), hbyte _ (by omega), hbyte _ (by omega)⟩
  · simp only [List.mem_cons, List.not_mem_nil, or_false, not_or]
    exact ⟨hbyte _ (by omega), hbyte _ (by omega), hbyte _ (by omega), hbyte _ (by omega)⟩

theorem zero_notMem_utf8 {s : List Char} (h : '\x00' ∉ s) : (0 : UInt8) ∉ utf8 s := by
  unfold utf8
  simp only [List.mem_flatMap, not_exists, not_and]
  intro ch hch
  apply zero_notMem_utf8EncodeChar
  rintro rfl
  exact h hch

/-- **The bytes before the first byte 0 are those of the text before its first NUL.** -/
theorem takeWhile_utf8 (s : List Char) :
    (utf8 s).takeWhile (fun b => b != 0) = utf8 (cPart s) := by
  induction s with
  | nil => rfl
  | cons ch s ih =>
    by_cases hch : ch = '\x00'
    · subst hch
      rfl
    · have hall : ∀ b ∈ String.utf8EncodeChar ch, (b != 0) = true := by
        intro b hb
        rw [bne_iff_ne]
        rintro rfl
        exact zero_notMem_utf8EncodeChar hch hb
      have hcut : cPart (ch :: s) = ch :: cPart s :=
        List.takeWhile_cons_of_pos (bne_iff_ne.mpr hch)
      rw [utf8_cons, List.takeWhile_append_of_pos hall, ih, hcut, utf8_cons]

/-! ## Letters of two bytes -/

/-- The letter takes two bytes. -/
def TwoByte (ch : Char) : Prop := 128 ≤ ch.val.toNat ∧ ch.val.toNat < 2048

instance (ch : Char) : Decidable (TwoByte ch) := by unfold TwoByte; infer_instance

/-- The two bytes, and how one knows the first of them. -/
theorem utf8EncodeChar_twoByte {ch : Char} (h : TwoByte ch) : ∃ a b : UInt8,
    String.utf8EncodeChar ch = [a, b] ∧ 192 ≤ a.toNat ∧ a.toNat < 224 ∧ 128 ≤ b.toNat := by
  obtain ⟨hlow, hhigh⟩ := h
  have henc : String.utf8EncodeChar ch = [UInt8.ofNat (ch.val.toNat / 64 % 32 + 192),
      UInt8.ofNat (ch.val.toNat % 64 + 128)] := by
    unfold String.utf8EncodeChar
    simp only
    rw [if_neg (by omega), if_pos (by omega)]
  refine ⟨_, _, henc, ?_⟩
  simp only [UInt8.toNat_ofNat']
  omega

theorem twoByte_of_first {ch : Char} {a : UInt8} {bs : Bytes}
    (h : String.utf8EncodeChar ch = a :: bs) (hlow : 192 ≤ a.toNat) (hhigh : a.toNat < 224) :
    TwoByte ch := by
  have hval := ch.val.toNat_lt
  unfold String.utf8EncodeChar at h
  simp only at h
  unfold TwoByte
  split at h
  · obtain ⟨rfl, -⟩ := List.cons.inj h
    simp only [UInt8.toNat_ofNat'] at hlow
    omega
  split at h
  · omega
  split at h
  · obtain ⟨rfl, -⟩ := List.cons.inj h
    simp only [UInt8.toNat_ofNat'] at hhigh
    omega
  · obtain ⟨rfl, -⟩ := List.cons.inj h
    simp only [UInt8.toNat_ofNat'] at hhigh
    omega

theorem le_of_mem_utf8EncodeChar {ch : Char} (h : TwoByte ch) {b : UInt8}
    (hb : b ∈ String.utf8EncodeChar ch) : 128 ≤ b := by
  obtain ⟨a, b', henc, hlow, -, hb'⟩ := utf8EncodeChar_twoByte h
  rw [henc] at hb
  rcases List.mem_cons.mp hb with rfl | hb
  · exact UInt8.le_iff_toNat_le.mpr (Nat.le_trans (by decide) hlow)
  · rw [List.mem_singleton.mp hb]
    exact UInt8.le_iff_toNat_le.mpr hb'

theorem length_utf8_twoByte {s : List Char} (h : ∀ ch ∈ s, TwoByte ch) :
    (utf8 s).length = 2 * s.length := by
  induction s with
  | nil => rfl
  | cons ch s ih =>
    obtain ⟨hch, hs⟩ := List.forall_mem_cons.mp h
    obtain ⟨a, b, henc, -⟩ := utf8EncodeChar_twoByte hch
    rw [utf8_cons, henc, List.length_append, ih hs, List.length_cons, List.length_cons,
      List.length_cons, List.length_nil]
    omega

/-- **A text in front of two-byte letters is made of such letters**, since the first byte of a
letter says how many there are. -/
theorem twoByte_of_utf8_take {s t : List Char} {n : Nat} (h : ∀ ch ∈ s, TwoByte ch)
    (ht : utf8 t = (utf8 s).take n) : ∀ ch ∈ t, TwoByte ch := by
  induction t generalizing s n with
  | nil => exact fun ch hch => absurd hch List.not_mem_nil
  | cons c t ih =>
    cases s with
    | nil =>
      rw [utf8_nil, List.take_nil, utf8_cons, List.append_eq_nil_iff] at ht
      exact absurd ht.1 String.utf8EncodeChar_ne_nil
    | cons d s =>
      obtain ⟨hd, hs⟩ := List.forall_mem_cons.mp h
      obtain ⟨a, b, henc, hlow, hhigh, -⟩ := utf8EncodeChar_twoByte hd
      obtain ⟨a', bs, hc⟩ := List.exists_cons_of_ne_nil (@String.utf8EncodeChar_ne_nil c)
      rw [utf8_cons, utf8_cons, henc, hc] at ht
      cases n with
      | zero => cases ht
      | succ n =>
        have hfirst : a' = a := (List.cons.inj ht).1
        have hcTwo := twoByte_of_first (hfirst ▸ hc) hlow hhigh
        obtain ⟨a₁, b₁, henc₁, -⟩ := utf8EncodeChar_twoByte hcTwo
        rw [hc] at henc₁
        cases henc₁
        refine List.forall_mem_cons.mpr ⟨hcTwo, ?_⟩
        cases n with
        | zero => cases (List.cons.inj ht).2
        | succ n =>
          exact ih hs (List.cons.inj (List.cons.inj ht).2).2

end Amigos.Lib
