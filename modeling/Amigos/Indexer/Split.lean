import Mathlib.Algebra.Order.BigOperators.Group.List
import Mathlib.Algebra.Order.Group.Nat
import Mathlib.Data.List.Forall2
import Mathlib.Data.Nat.Bitwise
import Amigos.Indexer.Text

/-!
# Positions cut into zones, and put together again (`splitByZones`, `getFullPosting`)

`splitByZones` is given the positions of a token in the whole text and the number of words in
each zone. It cuts the positions at the zone borders, makes them relative, and keeps only the
zones that have any: a bit of the mask for each, and the sizes of the pieces in order.
`getFullPosting` walks over all zones with a cursor and takes a piece for each bit.

Both are put against `Places`, the zones with the places of the token in each of them:
`splitByZones_eq` says what the first makes of them, `getFullPosting_eq` that the second gets
them back from any file that has the pieces where the entry says.
-/

set_option autoImplicit false

namespace Amigos.Indexer

open Amigos.Lib
open Amigos.Index

/-! ## Places -/

/-- The zones of a text: the number of words, and the places of a token among them. -/
abbrev Places := List (Nat × List Nat)

namespace Places

def counts (zs : Places) : List Nat := zs.map Prod.fst

/-- The places, counted through all zones from `base` on. -/
def through (base : Nat) : Places → List Nat
  | [] => []
  | (cnt, ps) :: zs => ps.map (base + ·) ++ through (base + cnt) zs

/-- The zones that have a place. -/
def pieces (zs : Places) : List (List Nat) := (zs.map Prod.snd).filter (· ≠ [])

@[simp] theorem pieces_nil : pieces [] = [] := rfl

@[simp] theorem pieces_cons_nil (cnt : Nat) (zs : Places) : pieces ((cnt, []) :: zs) = pieces zs :=
  rfl

@[simp] theorem pieces_cons_cons (cnt p : Nat) (ps : List Nat) (zs : Places) :
    pieces ((cnt, p :: ps) :: zs) = (p :: ps) :: pieces zs := rfl

/-- The bits of these zones, the first one being number `k`. -/
def mask (k : Nat) : Places → UInt8
  | [] => 0
  | (_, ps) :: zs => (if ps = [] then 0 else (i2mask[k]?).getD 0) ||| mask (k + 1) zs

/-- What `getFullPosting` should deliver when the first piece stands at `po`. -/
def postings (po : Nat) : Places → List Posting
  | [] => []
  | (_, ps) :: zs => (if ps = [] then default else ⟨po, ps.length⟩) :: postings (po + ps.length) zs

/-- Every place is in its zone, and 16 bits are enough to count the words, 8 to count the
zones. -/
structure Fits (zs : Places) : Prop where
  lt : ∀ z ∈ zs, ∀ p ∈ z.2, p < z.1
  words : zs.counts.sum < 2 ^ 16
  zones : zs.length ≤ 8

end Places

/-- Numbers as the indexer stores them. -/
def narrow (ps : List Nat) : List UInt16 := ps.map UInt16.ofNat

@[simp] theorem narrow_cons (p : Nat) (ps : List Nat) :
    narrow (p :: ps) = UInt16.ofNat p :: narrow ps := rfl

@[simp] theorem narrow_append (ps qs : List Nat) : narrow (ps ++ qs) = narrow ps ++ narrow qs :=
  List.map_append

@[simp] theorem length_narrow (ps : List Nat) : (narrow ps).length = ps.length := List.length_map _

/-! ## Skipping zones -/

theorem sum_take_le (counts : List Nat) (k : Nat) : (counts.take k).sum ≤ counts.sum := by
  conv => rhs; rw [← List.take_append_drop k counts, List.sum_append]
  exact Nat.le_add_right _ _

theorem sum_take_succ {counts : List Nat} {k : Nat} (hk : k < counts.length) :
    (counts.take (k + 1)).sum = (counts.take k).sum + counts[k] := by
  rw [List.take_add_one, List.getElem?_eq_getElem hk, Option.toList_some, List.sum_append,
    List.sum_singleton]

/-- **What a pass can do**, with zones that a byte can count: the zone counter does not wrap, and
where the pass goes on the offset does not either. -/
theorem skipPass_cases {zwCnt : List UInt16} (hlen : zwCnt.length ≤ 255) {val : UInt16} {zi : UInt8}
    {offset : UInt16} {isNewZone : Bool}
    {pass : Pass (UInt8 × UInt16 × Bool) (UInt8 × UInt16 × Bool)}
    (h : skipPass zwCnt val (zi, offset, isNewZone) = some pass) :
    ∃ cnt, zwCnt[zi.toNat]? = some cnt ∧
      ((offset.toNat + cnt.toNat ≤ val.toNat ∧ pass = .again (zi + 1, offset + cnt, true) ∧
          (zi + 1).toNat = zi.toNat + 1 ∧ (offset + cnt).toNat = offset.toNat + cnt.toNat) ∨
        (val.toNat < offset.toNat + cnt.toNat ∧ pass = .leave (zi, offset, isNewZone))) := by
  simp only [skipPass, Option.bind_eq_bind, Option.bind_eq_some_iff] at h
  obtain ⟨cnt, hget, hpass⟩ := h
  refine ⟨cnt, hget, ?_⟩
  split at hpass
  · rename_i hle
    have hzi : zi.toNat < zwCnt.length := (List.getElem?_eq_some_iff.mp hget).1
    refine .inl ⟨hle, (Option.some.inj hpass).symm, ?_, ?_⟩
    · rw [UInt8.toNat_add]
      exact Nat.mod_eq_of_lt (show zi.toNat + 1 < 256 by omega)
    · rw [UInt16.toNat_add]
      exact Nat.mod_eq_of_lt (Nat.lt_of_le_of_lt hle (UInt16.toNat_lt val))
  · rename_i hlt
    exact .inr ⟨Nat.lt_of_not_le hlt, (Option.some.inj hpass).symm⟩

/-- One pass: at the word number `v` it goes on to the next zone, as long as the zones up to this
one end in front of it. -/
theorem skipPass_eq {counts : List Nat} (hlen : counts.length ≤ 255) (hsum : counts.sum < 2 ^ 16)
    {v j : Nat} (hv : v < 2 ^ 16) (hj : j < counts.length) (isNewZone : Bool) :
    skipPass (narrow counts) (UInt16.ofNat v)
        (UInt8.ofNat j, UInt16.ofNat (counts.take j).sum, isNewZone)
      = some (if (counts.take (j + 1)).sum ≤ v then
          .again (UInt8.ofNat (j + 1), UInt16.ofNat (counts.take (j + 1)).sum, true)
        else .leave (UInt8.ofNat j, UInt16.ofNat (counts.take j).sum, isNewZone)) := by
  have hsmall : ∀ {n : Nat}, n < 2 ^ 16 → (UInt16.ofNat n).toNat = n := fun hn => by
    rw [UInt16.toNat_ofNat', Nat.mod_eq_of_lt hn]
  have hj8 : (UInt8.ofNat j).toNat = j := by
    rw [UInt8.toNat_ofNat', Nat.mod_eq_of_lt (by omega)]
  have hget : (narrow counts)[j]? = some (UInt16.ofNat counts[j]) := by
    rw [narrow, List.getElem?_map, List.getElem?_eq_getElem hj, Option.map_some]
  have hcnt : (UInt16.ofNat counts[j]).toNat = counts[j] :=
    hsmall (Nat.lt_of_le_of_lt (List.le_sum_of_mem (List.getElem_mem hj)) hsum)
  have hoffset : (UInt16.ofNat (counts.take j).sum).toNat = (counts.take j).sum :=
    hsmall (Nat.lt_of_le_of_lt (sum_take_le counts j) hsum)
  simp only [skipPass, hj8, hget, Option.bind_eq_bind, Option.bind_some, hcnt, hoffset, hsmall hv,
    ← sum_take_succ hj, Option.pure_def]
  split
  · rw [UInt8.ofNat_add, sum_take_succ hj, UInt16.ofNat_add]
    rfl
  · rfl

/-- **The inner loop of `splitByZones`** goes from zone `j` to the zone that the value is in, by
induction on how far this is. -/
theorem skip_eq {counts : List Nat} (hlen : counts.length ≤ 255) (hsum : counts.sum < 2 ^ 16)
    {v k : Nat} (hk : k < counts.length) (hlo : (counts.take k).sum ≤ v)
    (hhi : v < (counts.take (k + 1)).sum) :
    ∀ (d j : Nat) (isNewZone : Bool) (fuel : Nat), j + d = k → d < fuel →
      iterate (skipPass (narrow counts) (UInt16.ofNat v)) fuel
        (UInt8.ofNat j, UInt16.ofNat (counts.take j).sum, isNewZone)
      = some (UInt8.ofNat k, UInt16.ofNat (counts.take k).sum, isNewZone || decide (0 < d)) := by
  have hv : v < 2 ^ 16 :=
    Nat.lt_trans hhi (Nat.lt_of_le_of_lt (sum_take_le counts (k + 1)) hsum)
  intro d
  induction d with
  | zero =>
    intro j isNewZone fuel hj hfuel
    obtain rfl : j = k := hj
    have hleave := skipPass_eq hlen hsum hv hk isNewZone
    rw [if_neg (Nat.not_le.mpr hhi)] at hleave
    rw [iterate_leave_of_lt hfuel hleave]
    simp
  | succ d ih =>
    intro j isNewZone fuel hj hfuel
    -- The zones up to `j` are among those in front of zone `k`.
    have hle : (counts.take (j + 1)).sum ≤ v := by
      refine Nat.le_trans ?_ hlo
      have htake : (counts.take k).take (j + 1) = counts.take (j + 1) := by
        rw [List.take_take, Nat.min_eq_left (by omega)]
      rw [← htake]
      exact sum_take_le _ _
    have hagain := skipPass_eq hlen hsum hv (show j < counts.length by omega) isNewZone
    rw [if_pos hle] at hagain
    obtain ⟨fuel', hfuel', hrun⟩ := iterate_again_of_lt hfuel hagain
    rw [hrun, ih (j + 1) true fuel' (by omega) (Nat.lt_of_succ_le hfuel')]
    simp

/-! ## Cutting -/

theorem splitVals_cons (fuel : Nat) (zwCnt : List UInt16) (s : Split) (val : UInt16)
    (posting : List UInt16) : splitVals fuel zwCnt s (val :: posting)
      = (splitVal fuel zwCnt s val).bind fun s' => splitVals fuel zwCnt s' posting := rfl

theorem splitVals_append (fuel : Nat) (zwCnt : List UInt16) (s : Split) (a b : List UInt16) :
    splitVals fuel zwCnt s (a ++ b) = (splitVals fuel zwCnt s a).bind
      fun s' => splitVals fuel zwCnt s' b := by
  induction a generalizing s with
  | nil => rfl
  | cons val a ih =>
    simp only [List.cons_append, splitVals_cons]
    cases splitVal fuel zwCnt s val with
    | none => rfl
    | some s' => exact ih s'

section

variable {counts : List Nat} (hlen : counts.length ≤ 8) (hsum : counts.sum < 2 ^ 16)
  {fuel : Nat} (hfuel : 255 < fuel)
include hlen hsum hfuel

/-- The first place of a zone opens a new piece. -/
theorem splitVal_new {s : Split} {j k p : Nat} (hk : k < counts.length) (hp : p < counts[k])
    (hj : j ≤ k) (hzi : s.zi = UInt8.ofNat j)
    (hoffset : s.offset = UInt16.ofNat (counts.take j).sum)
    (hnew : s.isNewZone = true ∨ j < k) :
    splitVal fuel (narrow counts) s (UInt16.ofNat ((counts.take k).sum + p)) = some
      { zi := UInt8.ofNat k, offset := UInt16.ofNat (counts.take k).sum, isNewZone := false
        splitPosting := s.splitPosting ++ [[UInt16.ofNat p]]
        inZone := s.inZone ||| (i2mask[k]?).getD 0 } := by
  have hskip := skip_eq (v := (counts.take k).sum + p) (by omega) hsum hk (Nat.le_add_right _ _)
    (by rw [sum_take_succ hk]; omega) (k - j) j s.isNewZone fuel (by omega) (by omega)
  have hopen : (s.isNewZone || decide (0 < k - j)) = true := by
    rcases hnew with h | h
    · rw [h, Bool.true_or]
    · rw [decide_eq_true (by omega), Bool.or_true]
  have hk8 : (UInt8.ofNat k).toNat = k := by
    rw [UInt8.toNat_ofNat', Nat.mod_eq_of_lt (by omega)]
  have hmask : i2mask[k]? = some ((i2mask[k]?).getD 0) := by
    have hk8' : k < i2mask.length := Nat.lt_of_lt_of_le hk hlen
    rw [List.getElem?_eq_getElem hk8', Option.getD_some]
  rw [hopen, ← hzi, ← hoffset] at hskip
  rw [splitVal, hskip]
  simp only [Option.bind_eq_bind, Option.bind_some, if_true, hk8, Option.pure_def]
  rw [hmask, Option.bind_some, Option.getD_some, UInt16.ofNat_add, UInt16.add_comm,
    UInt16.add_sub_cancel]

/-- A further place of the zone goes to the same piece. -/
theorem splitVal_same {s : Split} {k p : Nat} (hk : k < counts.length) (hp : p < counts[k])
    (hzi : s.zi = UInt8.ofNat k) (hoffset : s.offset = UInt16.ofNat (counts.take k).sum)
    (hnew : s.isNewZone = false) {pieces : List (List UInt16)} {piece : List UInt16}
    (hpieces : s.splitPosting = pieces ++ [piece]) :
    splitVal fuel (narrow counts) s (UInt16.ofNat ((counts.take k).sum + p))
      = some { s with splitPosting := pieces ++ [piece ++ [UInt16.ofNat p]] } := by
  have hskip := skip_eq (v := (counts.take k).sum + p) (by omega) hsum hk (Nat.le_add_right _ _)
    (by rw [sum_take_succ hk]; omega) 0 k false fuel rfl (by omega)
  have hback : s.splitPosting.getLast? = some piece := by simp [hpieces]
  have hfront : s.splitPosting.dropLast = pieces := by simp [hpieces]
  rw [← hzi, ← hoffset] at hskip
  rw [splitVal, hnew, hskip]
  simp only [Option.bind_eq_bind, Option.bind_some, Nat.lt_irrefl, decide_false, Bool.or_false,
    Bool.false_eq_true, if_false, hback, hfront, Option.pure_def]
  rw [hoffset, UInt16.ofNat_add, UInt16.add_comm, UInt16.add_sub_cancel]

theorem splitVals_same {k : Nat} (hk : k < counts.length) :
    ∀ (ps : List Nat) (s : Split) (pieces : List (List UInt16)) (piece : List UInt16),
      (∀ p ∈ ps, p < counts[k]) → s.zi = UInt8.ofNat k →
      s.offset = UInt16.ofNat (counts.take k).sum → s.isNewZone = false →
      s.splitPosting = pieces ++ [piece] →
      splitVals fuel (narrow counts) s (narrow (ps.map ((counts.take k).sum + ·)))
        = some { s with splitPosting := pieces ++ [piece ++ narrow ps] } := by
  intro ps
  induction ps with
  | nil =>
    intro s pieces piece _ _ _ _ hpieces
    simp [splitVals, narrow, ← hpieces]
  | cons p ps ih =>
    intro s pieces piece hps hzi hoffset hnew hpieces
    have hval := splitVal_same hlen hsum hfuel hk (hps p List.mem_cons_self) hzi hoffset hnew
      hpieces
    have hrest := ih { s with splitPosting := pieces ++ [piece ++ [UInt16.ofNat p]] } pieces
      (piece ++ [UInt16.ofNat p]) (fun q hq => hps q (List.mem_cons_of_mem _ hq)) hzi hoffset hnew
      rfl
    rw [List.map_cons, narrow_cons, splitVals_cons, hval, Option.bind_some]
    refine hrest.trans ?_
    rw [List.append_assoc]
    rfl

/-- Where `splitByZones` may stand in front of zone `k`: at a zone before it, or at zone `k` itself
if nothing has been cut off yet. -/
def At (counts : List Nat) (k : Nat) (s : Split) : Prop :=
  ∃ j, j ≤ k ∧ s.zi = UInt8.ofNat j ∧ s.offset = UInt16.ofNat (counts.take j).sum ∧
    (s.isNewZone = true ∨ j < k)

/-- **The places of the zones from `k` on are cut into their pieces**, by induction on the
zones. -/
theorem splitVals_places : ∀ (zs : Places) (k : Nat) (s : Split),
    counts.drop k = zs.counts → (∀ z ∈ zs, ∀ p ∈ z.2, p < z.1) → At counts k s →
    ∃ s', splitVals fuel (narrow counts) s (narrow (zs.through (counts.take k).sum)) = some s' ∧
      s'.splitPosting = s.splitPosting ++ zs.pieces.map narrow ∧
      s'.inZone = s.inZone ||| zs.mask k := by
  intro zs
  induction zs with
  | nil =>
    intro k s _ _ _
    exact ⟨s, rfl, by simp, by simp [Places.mask]⟩
  | cons z zs ih =>
    obtain ⟨cnt, ps⟩ := z
    intro k s hdrop hlt hat
    obtain ⟨j, hj, hzi, hoffset, hnew⟩ := hat
    have hk : k < counts.length := by
      have hpos : 0 < (counts.drop k).length := by rw [hdrop]; exact Nat.succ_pos _
      rw [List.length_drop] at hpos
      omega
    rw [List.drop_eq_getElem_cons hk] at hdrop
    have hcnt : counts[k] = cnt := (List.cons.inj hdrop).1
    have hdrop' : counts.drop (k + 1) = Places.counts zs := (List.cons.inj hdrop).2
    have hbehind : (counts.take (k + 1)).sum = (counts.take k).sum + cnt := by
      rw [sum_take_succ hk, hcnt]
    have hrest := ih (k + 1)
    rw [hbehind] at hrest
    have hzs : ∀ z ∈ zs, ∀ p ∈ z.2, p < z.1 := fun z hz => hlt z (List.mem_cons_of_mem _ hz)
    cases ps with
    | nil =>
      obtain ⟨s', hrun, hpieces, hmask⟩ := hrest s hdrop' hzs
        ⟨j, Nat.le_succ_of_le hj, hzi, hoffset, Or.inr (Nat.lt_succ_of_le hj)⟩
      refine ⟨s', hrun, hpieces, ?_⟩
      simpa [Places.mask] using hmask
    | cons p ps =>
      have hps : ∀ q ∈ p :: ps, q < counts[k] := by
        rw [hcnt]
        exact hlt _ List.mem_cons_self
      have hfirst := splitVal_new hlen hsum hfuel hk (hps p List.mem_cons_self) hj hzi hoffset hnew
      have hsame := splitVals_same hlen hsum hfuel hk ps
        { zi := UInt8.ofNat k, offset := UInt16.ofNat (counts.take k).sum, isNewZone := false
          splitPosting := s.splitPosting ++ [[UInt16.ofNat p]]
          inZone := s.inZone ||| (i2mask[k]?).getD 0 } s.splitPosting [UInt16.ofNat p]
        (fun q hq => hps q (List.mem_cons_of_mem _ hq)) rfl rfl rfl rfl
      obtain ⟨s', hrun, hpieces, hmask⟩ := hrest
        { zi := UInt8.ofNat k, offset := UInt16.ofNat (counts.take k).sum, isNewZone := false
          splitPosting := s.splitPosting ++ [[UInt16.ofNat p] ++ narrow ps]
          inZone := s.inZone ||| (i2mask[k]?).getD 0 } hdrop' hzs
        ⟨k, Nat.le_succ k, rfl, rfl, Or.inr (Nat.lt_succ_self k)⟩
      refine ⟨s', ?_, hpieces.trans ?_, hmask.trans ?_⟩
      · rw [Places.through, List.map_cons, narrow_append, narrow_cons, List.cons_append,
          splitVals_cons, hfirst, Option.bind_some, splitVals_append, hsame, Option.bind_some, hrun]
      · simp
      · simp [Places.mask, UInt8.or_assoc]

end

/-- **What `splitByZones` makes of places**: the pieces, a bit for each of them, and their
sizes. -/
theorem splitByZones_eq {zs : Places} (h : zs.Fits) {fuel : Nat} (hfuel : 255 < fuel) :
    splitByZones fuel (narrow (zs.through 0)) (narrow zs.counts)
      = some (zs.pieces.map narrow,
        { inZone := zs.mask 0
          postingOffset := 0
          postingSizes := zs.pieces.map fun piece => UInt16.ofNat piece.length }) := by
  have hzones : zs.counts.length ≤ 8 := by
    rw [Places.counts, List.length_map]
    exact h.zones
  obtain ⟨s', hrun, hpieces, hmask⟩ := splitVals_places hzones h.words hfuel zs 0
    { zi := 0, offset := 0, isNewZone := true, splitPosting := [], inZone := 0 } rfl h.lt
    ⟨0, Nat.le_refl 0, rfl, rfl, Or.inl rfl⟩
  rw [List.take_zero, List.sum_nil] at hrun
  rw [List.nil_append] at hpieces
  rw [UInt8.zero_or] at hmask
  simp only [splitByZones, hrun, Option.bind_eq_bind, Option.bind_some, Option.pure_def, hpieces,
    hmask, List.map_map, Function.comp_def, length_narrow]

/-! ## Bits -/

theorem toNat_i2mask : ∀ k < 8, ((i2mask[k]?).getD 0).toNat = 2 ^ k := by decide

theorem and_mask_ne_zero_iff {k : Nat} {mask : UInt8} (h : i2mask[k]? = some mask) (x : UInt8) :
    mask &&& x ≠ 0 ↔ x.toNat.testBit k = true := by
  have hmask : mask.toNat = 2 ^ k := by
    have hk : k < i2mask.length := (List.getElem?_eq_some_iff.mp h).1
    have hpow := toNat_i2mask k hk
    rwa [h, Option.getD_some] at hpow
  rw [Ne, ← UInt8.toNat_inj, UInt8.toNat_and, hmask, Nat.two_pow_and]
  cases x.toNat.testBit k <;> simp

/-- The bits of a mask are the zones that have a place. -/
theorem testBit_mask {zs : Places} : ∀ {k : Nat}, k + zs.length ≤ 8 → ∀ j,
    ((zs.mask k).toNat.testBit j = true ↔ ∃ i z, j = k + i ∧ zs[i]? = some z ∧ z.2 ≠ []) := by
  induction zs with
  | nil => intro k _ j; simp [Places.mask]
  | cons z zs ih =>
    intro k hk j
    rw [List.length_cons] at hk
    have hbit := toNat_i2mask k (by omega)
    have hfirst : (if z.2 = [] then 0 else (i2mask[k]?).getD 0).toNat.testBit j = true
        ↔ j = k ∧ z.2 ≠ [] := by
      split
      · simp_all
      · rw [hbit, Nat.testBit_two_pow, decide_eq_true_eq]
        exact ⟨fun h => ⟨h.symm, ‹_›⟩, fun h => h.1.symm⟩
    rw [Places.mask, UInt8.toNat_or, Nat.testBit_or, Bool.or_eq_true, hfirst, ih (by omega)]
    constructor
    · rintro (⟨rfl, hz⟩ | ⟨i, z', rfl, hget, hz⟩)
      · exact ⟨0, z, rfl, rfl, hz⟩
      · exact ⟨i + 1, z', by omega, hget, hz⟩
    · rintro ⟨i, z', rfl, hget, hz⟩
      cases i with
      | zero =>
        obtain rfl := Option.some.inj hget
        exact Or.inl ⟨rfl, hz⟩
      | succ i => exact Or.inr ⟨i, z', by omega, hget, hz⟩

/-! ## Putting together -/

/-- How many positions are kept. -/
def Places.size (zs : Places) : Nat := zs.pieces.flatten.length

theorem Places.size_cons (cnt : Nat) (ps : List Nat) (zs : Places) :
    Places.size ((cnt, ps) :: zs) = ps.length + Places.size zs := by
  cases ps with
  | nil => simp [Places.size]
  | cons p ps =>
    rw [Places.size, Places.pieces_cons_cons, List.flatten_cons, List.length_append]
    rfl

/-- The cursor counts positions, the file is addressed in bytes. -/
theorem posting_at {po size : Nat} (hpo : po < 2 ^ 63) (hsize : size < 2 ^ 16) :
    Posting.at (UInt64.ofNat po * 2) (UInt16.ofNat size) = ⟨po, size⟩ := by
  have hpo' : (UInt64.ofNat po).toNat = po := by
    rw [UInt64.toNat_ofNat', Nat.mod_eq_of_lt (by omega)]
  have htwice : (UInt64.ofNat po * 2).toNat = po * 2 := by
    rw [UInt64.toNat_mul, hpo']
    exact Nat.mod_eq_of_lt (show po * 2 < 2 ^ 64 by omega)
  rw [Posting.at, UInt64.toNat_div, htwice, UInt16.toNat_ofNat', Nat.mod_eq_of_lt hsize,
    show (2 : UInt64).toNat = 2 from rfl, Nat.mul_div_cancel _ Nat.two_pos]

/-- A zone that the mask does not have keeps its empty posting. -/
theorem fullPostingLoop_absent {inZone : UInt8} {n i : Nat} (hi : i < 8)
    (hbit : ¬ inZone.toNat.testBit i = true) (po : UInt64) (sizes : List UInt16)
    (done : List Posting) :
    fullPostingLoop inZone (n + 1) i po sizes (done ++ List.replicate (n + 1) default)
      = fullPostingLoop inZone n (i + 1) po sizes
        ((done ++ [default]) ++ List.replicate n default) := by
  have hget : i2mask[i]? = some i2mask[i] := List.getElem?_eq_getElem hi
  have hzero : ¬ i2mask[i] &&& inZone ≠ 0 := (and_mask_ne_zero_iff hget inZone).not.mpr hbit
  simp only [fullPostingLoop, hget, Option.bind_eq_bind, Option.bind_some]
  rw [if_neg hzero, List.replicate_succ, List.append_cons]

/-- A zone that the mask has takes the next size; its posting takes the place of the first one
that is still empty. -/
theorem fullPostingLoop_present {inZone : UInt8} {n i : Nat} (hi : i < 8)
    (hbit : inZone.toNat.testBit i = true) (po : UInt64) (size : UInt16) (sizes : List UInt16)
    {done : List Posting} (hdone : done.length = i) :
    fullPostingLoop inZone (n + 1) i po (size :: sizes) (done ++ List.replicate (n + 1) default)
      = fullPostingLoop inZone n (i + 1) (po + UInt64.ofNat (Posting.at (po * 2) size).size) sizes
        ((done ++ [Posting.at (po * 2) size]) ++ List.replicate n default) := by
  have hget : i2mask[i]? = some i2mask[i] := List.getElem?_eq_getElem hi
  have hone : i2mask[i] &&& inZone ≠ 0 := (and_mask_ne_zero_iff hget inZone).mpr hbit
  have hset : ∀ np : Posting, (done ++ List.replicate (n + 1) default).set i np
      = (done ++ [np]) ++ List.replicate n default := by
    intro np
    rw [← hdone, List.set_append_right _ _ (Nat.le_refl _), Nat.sub_self, List.replicate_succ,
      List.set_cons_zero, List.append_assoc]
    rfl
  simp only [fullPostingLoop, hget, Option.bind_eq_bind, Option.bind_some]
  rw [if_pos hone]
  simp only [hset]

/-- **The loop of `getFullPosting`** cuts a piece off for every zone that has one, by induction on
the zones. -/
theorem fullPostingLoop_places {inZone : UInt8} : ∀ (zs : Places) (k po : Nat)
    (done : List Posting), done.length = k → k + zs.length ≤ 8 →
    (∀ i z, zs[i]? = some z → (inZone.toNat.testBit (k + i) = true ↔ z.2 ≠ [])) →
    zs.size < 2 ^ 16 → po + zs.size < 2 ^ 63 →
    fullPostingLoop inZone zs.length k (UInt64.ofNat po)
        (zs.pieces.map fun piece => UInt16.ofNat piece.length)
        (done ++ List.replicate zs.length default)
      = some (done ++ zs.postings po) := by
  intro zs
  induction zs with
  | nil =>
    intro k po done _ _ _ _ _
    simp [fullPostingLoop, Places.postings]
  | cons z zs ih =>
    obtain ⟨cnt, ps⟩ := z
    intro k po done hdone hk hbits hsize hpo
    rw [List.length_cons] at hk ⊢
    rw [Places.size_cons] at hsize hpo
    have hk8 : k < 8 := by omega
    have hbit : inZone.toNat.testBit k = true ↔ ps ≠ [] := hbits 0 (cnt, ps) rfl
    have hrest := fun done' (hdone' : done'.length = k + 1) (po' : Nat) =>
      ih (k + 1) po' done' hdone' (by omega)
        (fun i z hz => by
          have := hbits (i + 1) z hz
          rwa [show k + (i + 1) = k + 1 + i by omega] at this) (by omega)
    cases ps with
    | nil =>
      rw [fullPostingLoop_absent hk8 (fun h => hbit.mp h rfl), Places.pieces_cons_nil,
        hrest (done ++ [default]) (by simp [hdone]) po (by simpa using hpo), List.append_assoc]
      rfl
    | cons p ps =>
      have hpiece := @posting_at po (p :: ps).length (by omega) (by omega)
      rw [Places.pieces_cons_cons, List.map_cons,
        fullPostingLoop_present hk8 (hbit.mpr (List.cons_ne_nil p ps)) _ _ _ hdone, hpiece,
        ← UInt64.ofNat_add, hrest _ (by simp [hdone]) (po + (p :: ps).length) (by omega),
        List.append_assoc]
      rfl

/-- **`getFullPosting` finds every piece again.** -/
theorem getFullPosting_eq {zs : Places} (h : zs.Fits) (hsize : zs.size < 2 ^ 16) {po : Nat}
    (hpo : po + zs.size < 2 ^ 63) (src : Bytes) (docIdOffset : UInt32) :
    PostingStorage.getFullPosting { src, tZonesCnt := UInt8.ofNat zs.length }
      { docIdOffset
        postingInfo :=
          { inZone := zs.mask 0
            postingOffset := UInt64.ofNat po
            postingSizes := zs.pieces.map fun piece => UInt16.ofNat piece.length } } []
      = some (zs.postings po) := by
  have hzones : (UInt8.ofNat zs.length).toNat = zs.length := by
    have := h.zones
    rw [UInt8.toNat_ofNat', Nat.mod_eq_of_lt (by omega)]
  have hbits : ∀ i z, zs[i]? = some z →
      ((zs.mask 0).toNat.testBit (0 + i) = true ↔ z.2 ≠ []) := by
    intro i z hz
    rw [testBit_mask (by simpa using h.zones)]
    constructor
    · rintro ⟨i', z', hi, hz', hne⟩
      obtain rfl : i = i' := by omega
      rw [hz] at hz'
      obtain rfl := Option.some.inj hz'
      exact hne
    · exact fun hne => ⟨i, z, rfl, hz, hne⟩
  have hloop := fullPostingLoop_places zs 0 po [] rfl (by simpa using h.zones) hbits hsize hpo
  simp only [PostingStorage.getFullPosting, hzones]
  simpa [resize] using hloop

/-- **What is read through the postings**: the places, in any file that has the pieces at `po`. -/
theorem read_postings {src : Bytes} : ∀ (zs : Places) (po : Nat) (before behind : Bytes),
    before.length = 2 * po →
    src = before ++ ((narrow zs.pieces.flatten).flatMap podBytes ++ behind) →
    List.Forall₂ (fun z posting => posting.read src = some (narrow z.2)) zs (zs.postings po) := by
  intro zs
  induction zs with
  | nil => exact fun _ _ _ _ _ => .nil
  | cons z zs ih =>
    obtain ⟨cnt, ps⟩ := z
    intro po before behind hbefore hsrc
    cases ps with
    | nil =>
      rw [Places.pieces_cons_nil] at hsrc
      exact .cons rfl (ih (po + 0) before behind hbefore hsrc)
    | cons p ps =>
      rw [Places.pieces_cons_cons, List.flatten_cons, narrow_append, List.flatMap_append,
        List.append_assoc] at hsrc
      have hread := (decodes_readMany (narrow (p :: ps))).at_seek (s := ⟨src, 0⟩) hsrc
      refine .cons ?_ (ih (po + (p :: ps).length) (before ++ (narrow (p :: ps)).flatMap podBytes)
        behind ?_ (by rw [List.append_assoc]; exact hsrc))
      · rw [length_narrow, hbefore] at hread
        rw [Posting.read, if_neg (List.cons_ne_nil p ps)]
        exact (congrArg (fun r => r.bind fun x => some x.1) hread)
      · rw [List.length_append, hbefore, length_flatMap_podBytes, width_UInt16, length_narrow]
        omega

/-! ## The entries of an item -/

/-- The zones of a text, with the places of a token. -/
def placesOf (t : UInt32) (zones : List (List Bytes)) : Places :=
  zones.map fun words => (words.length, tokenPositions t words)

theorem counts_placesOf (t : UInt32) (zones : List (List Bytes)) :
    (placesOf t zones).counts = zones.map List.length := by
  simp [Places.counts, placesOf]

/-- Counted through all zones, the places are those in the whole text. -/
theorem through_placesOf (t : UInt32) (zones : List (List Bytes)) (base : Nat) :
    (placesOf t zones).through base = zones.flatten.findIdxs (isToken t) base := by
  induction zones generalizing base with
  | nil => rfl
  | cons words zones ih =>
    have hstart : (tokenPositions t words).map (base + ·) = words.findIdxs (isToken t) base := by
      rw [tokenPositions, List.findIdxs_start (s := base)]
      exact List.map_congr_left fun i _ => Nat.add_comm base i
    rw [placesOf, List.map_cons, Places.through, hstart, List.flatten_cons, List.findIdxs_append]
    exact congrArg _ (ih (base + words.length))

theorem size_placesOf_le (t : UInt32) (zones : List (List Bytes)) :
    (placesOf t zones).size ≤ zones.flatten.length := by
  induction zones with
  | nil => simp [placesOf, Places.size]
  | cons words zones ih =>
    have hle : (tokenPositions t words).length ≤ words.length := by
      rw [tokenPositions, List.length_findIdxs]
      exact List.countP_le_length
    rw [placesOf, List.map_cons, Places.size_cons, List.flatten_cons, List.length_append]
    exact Nat.add_le_add hle ih

theorem fits_placesOf {zones : List (List Bytes)} (hzones : zones.length ≤ 8)
    (hwords : zones.flatten.length < 2 ^ 16) (t : UInt32) : (placesOf t zones).Fits where
  lt z hz p hp := by
    obtain ⟨words, -, rfl⟩ := List.mem_map.mp hz
    obtain ⟨hlt, -⟩ := List.mem_findIdxs_iff_exists_getElem_pos.mp hp
    exact hlt
  words := by rwa [counts_placesOf, ← List.length_flatten]
  zones := by rwa [placesOf, List.length_map]

/-- The counter of a posting store is that of its file. -/
def Tracks (st : DynPostingStore) : Prop :=
  ∃ n, st.commonSize = UInt32.ofNat n ∧ st.ofs.length = 2 * n

theorem Tracks.addTokenPosting {st : DynPostingStore} (h : Tracks st)
    (zonesPosting : List (List UInt16)) : Tracks (st.addTokenPosting zonesPosting).2 := by
  obtain ⟨n, hsize, hlen⟩ := h
  refine ⟨n + zonesPosting.flatten.length, ?_, ?_⟩
  · rw [DynPostingStore.addTokenPosting_eq, hsize, UInt32.ofNat_add]
  · rw [DynPostingStore.addTokenPosting_eq, List.length_append, hlen, length_flatMap_podBytes,
      width_UInt16]
    omega

/-- **What an entry is good for**: read through `src`, it gives for every zone the places of its
token among the words of the zone. -/
def ReadsBack (src : Bytes) (zones : List (List Bytes)) (r : UInt32 × Entry) : Prop :=
  ∃ res, PostingStorage.getFullPosting { src, tZonesCnt := UInt8.ofNat zones.length } r.2 []
      = some res ∧
    List.Forall₂ (fun words posting => posting.read src = some (narrow (tokenPositions r.1 words)))
      zones res

/-- The entry of a token whose first piece stands at `postingOffset`. -/
def entryFor (zones : List (List Bytes)) (docIdOffset : UInt32) (postingOffset : UInt64)
    (t : UInt32) : Entry :=
  { docIdOffset
    postingInfo :=
      { inZone := (placesOf t zones).mask 0
        postingOffset
        postingSizes := (placesOf t zones).pieces.map fun piece => UInt16.ofNat piece.length } }

/-- The recorded entry of a token, if the dictionary has its places. -/
theorem recordToken_eq {zones : List (List Bytes)} (hzones : zones.length ≤ 8)
    (hwords : zones.flatten.length < 2 ^ 16) {fuel : Nat} (hfuel : 255 < fuel)
    (docIdOffset : UInt32) (st : DynPostingStore) (t : UInt32) :
    recordToken fuel (narrow (zones.map List.length)) docIdOffset st
        (t, narrow ((placesOf t zones).through 0))
      = some ((t, entryFor zones docIdOffset st.commonSize.toUInt64 t),
        (st.addTokenPosting ((placesOf t zones).pieces.map narrow)).2) := by
  have hsplit := splitByZones_eq (fits_placesOf hzones hwords t) hfuel
  rw [counts_placesOf] at hsplit
  simp only [recordToken, hsplit, Option.bind_eq_bind, Option.bind_some, Option.pure_def, entryFor]
  rw [DynPostingStore.addTokenPosting_eq]

/-- The entry reads back from every file that begins with the postings file of the time. -/
theorem readsBack_entry {zones : List (List Bytes)} (hzones : zones.length ≤ 8)
    (hwords : zones.flatten.length < 2 ^ 16) (docIdOffset : UInt32) {st : DynPostingStore}
    (hst : Tracks st) (t : UInt32) {src behind : Bytes}
    (hsrc : src = (st.addTokenPosting ((placesOf t zones).pieces.map narrow)).2.ofs ++ behind)
    (hlen : src.length < 2 * 2 ^ 32) :
    ReadsBack src zones (t, entryFor zones docIdOffset st.commonSize.toUInt64 t) := by
  obtain ⟨n, hsize, hofs⟩ := hst
  have hpieces : ((placesOf t zones).pieces.map narrow).flatten
      = narrow (placesOf t zones).pieces.flatten := by
    rw [narrow, List.map_flatten]
    rfl
  rw [DynPostingStore.addTokenPosting_eq, hpieces, List.append_assoc] at hsrc
  have hn : n + (placesOf t zones).size < 2 ^ 32 := by
    have := congrArg List.length hsrc
    rw [List.length_append, List.length_append, length_flatMap_podBytes, length_narrow, hofs,
      width_UInt16] at this
    rw [Places.size]
    omega
  have hoffset : st.commonSize.toUInt64 = UInt64.ofNat n := by
    apply UInt64.toNat_inj.mp
    rw [hsize, UInt32.toNat_toUInt64, UInt32.toNat_ofNat', UInt64.toNat_ofNat',
      Nat.mod_eq_of_lt (by omega), Nat.mod_eq_of_lt (by omega)]
  have hread := read_postings (placesOf t zones) n st.ofs behind hofs hsrc
  rw [placesOf, List.forall₂_map_left_iff] at hread
  refine ⟨_, ?_, hread⟩
  have hcursor : n + (placesOf t zones).size < 2 ^ 63 := by omega
  have hfull := getFullPosting_eq (fits_placesOf hzones hwords t)
    (Nat.lt_of_le_of_lt (size_placesOf_le t zones) hwords) hcursor src docIdOffset
  rw [placesOf, List.length_map, ← placesOf] at hfull
  rw [entryFor, hoffset]
  exact hfull

/-- **All entries of an item read back**, from every file that begins with the postings file as
the item leaves it. By induction on the dictionary; what a later token writes stands behind. -/
theorem recordTokens_readsBack {zones : List (List Bytes)} (hzones : zones.length ≤ 8)
    (hwords : zones.flatten.length < 2 ^ 16) {fuel : Nat} (hfuel : 255 < fuel)
    (docIdOffset : UInt32) :
    ∀ (dict : List (UInt32 × List UInt16)) (st : DynPostingStore),
      (∀ pair ∈ dict, pair.2 = narrow ((placesOf pair.1 zones).through 0)) → Tracks st →
      ∃ recorded st',
        recordTokens fuel (narrow (zones.map List.length)) docIdOffset st dict
            = some (recorded, st') ∧
          st.ofs <+: st'.ofs ∧
          ∀ {src behind : Bytes}, src = st'.ofs ++ behind → src.length < 2 * 2 ^ 32 →
            ∀ r ∈ recorded, ReadsBack src zones r := by
  intro dict
  induction dict with
  | nil => exact fun st _ _ => ⟨[], st, rfl, List.prefix_rfl, by simp⟩
  | cons pair dict ih =>
    obtain ⟨t, ps⟩ := pair
    intro st hdict hst
    obtain rfl : ps = narrow ((placesOf t zones).through 0) := hdict _ List.mem_cons_self
    have htoken := recordToken_eq hzones hwords hfuel docIdOffset st t
    obtain ⟨recorded, st', hrun, hprefix, hback⟩ :=
      ih (st.addTokenPosting ((placesOf t zones).pieces.map narrow)).2
        (fun pair h => hdict pair (List.mem_cons_of_mem _ h)) (hst.addTokenPosting _)
    refine ⟨(t, entryFor zones docIdOffset st.commonSize.toUInt64 t) :: recorded, st', ?_, ?_, ?_⟩
    · simp only [recordTokens, htoken, hrun, Option.bind_eq_bind, Option.bind_some, Option.pure_def]
    · rw [DynPostingStore.addTokenPosting_eq] at hprefix
      exact (List.prefix_append _ _).trans hprefix
    · intro src behind hsrc hlen r hr
      rcases List.mem_cons.mp hr with rfl | hr
      · obtain ⟨added, hadded⟩ := hprefix
        have hsrc' := hsrc.trans (congrArg (· ++ behind) hadded.symm)
        rw [List.append_assoc] at hsrc'
        exact readsBack_entry hzones hwords docIdOffset hst t hsrc' hlen
      · exact hback hsrc hlen r hr

end Amigos.Indexer
