import Amigos.Index.InvertIndex

/-!
# Looking a word up (`findTknIdx`)

The binary search delivers the first position whose token is not below the hash of the word: the
position of the token if there is one, and otherwise of the next token. Behind the last token there
is none, and the table is read there all the same. So every hash above the largest token, and every
hash in an empty index, is looked up outside of the table (`findTknIdx_correct_iff`).
-/

set_option autoImplicit false

namespace Amigos.Index

open Amigos.Lib
open Amigos.Common

/-- **What `findTknIdx` should do**: read nothing outside of the table, and deliver the position of
the token of the word, or say that there is none. -/
def FindsToken (ii : InvertIndex) (word : Bytes) : Prop :=
  ∃ r, ii.findTknIdx word = some r ∧
    (∀ (i : Nat) (item : InvIdxItem), ii.invIdx[i]? = some item →
      item.tokId = murmurHash2 word → r.toNat = i) ∧
    ((∀ item ∈ ii.invIdx, item.tokId ≠ murmurHash2 word) → r = unexistingToken)

/-- In a strictly increasing table a token has one position. -/
theorem position_unique {a rest : List InvIdxItem} {first item : InvIdxItem} {t : UInt32} {i : Nat}
    (ha : ∀ item ∈ a, item.tokId < t) (hrest : ∀ item ∈ rest, t < item.tokId)
    (hitem : (a ++ first :: rest)[i]? = some item) (htok : item.tokId = t) :
    i = a.length ∧ item = first := by
  rcases Nat.lt_trichotomy i a.length with hi | rfl | hi
  · rw [List.getElem?_append_left hi] at hitem
    exact absurd htok (ne_of_lt (ha item (List.mem_of_getElem? hitem)))
  · rw [List.getElem?_append_right (Nat.le_refl _), Nat.sub_self] at hitem
    exact ⟨rfl, (Option.some.inj hitem).symm⟩
  · obtain ⟨k, rfl⟩ : ∃ k, i = a.length + (k + 1) := ⟨i - a.length - 1, by omega⟩
    rw [List.getElem?_append_right (Nat.le_add_right _ _), Nat.add_sub_cancel_left,
      List.getElem?_cons_succ] at hitem
    exact absurd htok (ne_of_gt (hrest item (List.mem_of_getElem? hitem)))

/-- Tokens that are all below a hash leave room for a position. -/
theorem length_lt_of_below {a : List InvIdxItem} {t : UInt32}
    (hinc : a.Pairwise fun x y => x.tokId < y.tokId) (ha : ∀ item ∈ a, item.tokId < t) :
    a.length < 2 ^ 32 := by
  have hle : a.length ≤ t.toNat := length_le_of_increasing
    (hinc.imp fun h => UInt32.lt_iff_toNat_lt.mp h)
    (fun item hitem => UInt32.lt_iff_toNat_lt.mp (ha item hitem))
  exact hle.trans_lt t.toNat_lt

/-- **Exactly if there is a token that is not below the hash** of the word. -/
theorem findTknIdx_correct_iff {ii : InvertIndex}
    (hinc : ii.invIdx.Pairwise fun a b => a.tokId < b.tokId) (word : Bytes) :
    FindsToken ii word ↔ ∃ item ∈ ii.invIdx, murmurHash2 word ≤ item.tokId := by
  obtain ⟨t, ht⟩ : ∃ t, t = murmurHash2 word := ⟨_, rfl⟩
  obtain ⟨a, b, hsplit, ha, hb⟩ := exists_partition
    (fun item : InvIdxItem => decide (item.tokId < t))
    (hinc.imp fun {x y} hxy hy => decide_eq_true (lt_trans hxy (of_decide_eq_true hy)))
  have hbelow : ∀ item ∈ a, item.tokId < t := fun item hitem => of_decide_eq_true (ha item hitem)
  have habove : ∀ item ∈ b, t ≤ item.tokId :=
    fun item hitem => not_lt.mp (of_decide_eq_false (hb item hitem))
  have hlen : a.length < 2 ^ 32 :=
    length_lt_of_below (hsplit ▸ hinc |>.sublist (List.sublist_append_left a b)) hbelow
  have hpos : (UInt32.ofNat a.length).toNat = a.length := by
    rw [UInt32.toNat_ofNat', Nat.mod_eq_of_lt hlen]
  have hfind : ii.findTknIdx word = ((a ++ b)[a.length]?).map fun item =>
      if item.tokId = t then UInt32.ofNat a.length else unexistingToken := by
    simp only [InvertIndex.findTknIdx, ← ht, hsplit, lowerBound_of_partition ha hb,
      Option.bind_eq_bind, Option.bind_some, hpos, Option.pure_def, Option.map_eq_bind]
    rfl
  rw [FindsToken, ← ht]
  cases b with
  | nil =>
    -- The search ends behind the table.
    constructor
    · rintro ⟨r, hr, -⟩
      rw [hfind, List.append_nil, List.getElem?_eq_none (Nat.le_refl _)] at hr
      cases hr
    · rintro ⟨item, hitem, hle⟩
      rw [hsplit, List.append_nil] at hitem
      exact absurd (hbelow item hitem) (not_lt.mpr hle)
  | cons first rest =>
    have hfirst : first ∈ ii.invIdx := by
      rw [hsplit]
      exact List.mem_append_right a List.mem_cons_self
    refine ⟨fun _ => ⟨first, hfirst, habove first List.mem_cons_self⟩, fun _ => ?_⟩
    have hget : (a ++ first :: rest)[a.length]? = some first := by
      rw [List.getElem?_append_right (Nat.le_refl _), Nat.sub_self]
      rfl
    rw [hget, Option.map_some] at hfind
    have hafter : ∀ item ∈ rest, t < item.tokId := by
      rw [hsplit] at hinc
      have hrest := (List.pairwise_cons.mp (List.pairwise_append.mp hinc).2.1).1
      exact fun item hitem =>
        lt_of_le_of_lt (habove first List.mem_cons_self) (hrest item hitem)
    refine ⟨_, hfind, fun i item hitem htok => ?_, fun hnone => ?_⟩
    -- The token can only stand where the search has ended.
    · rw [hsplit] at hitem
      obtain ⟨rfl, rfl⟩ := position_unique hbelow hafter hitem htok
      rw [if_pos htok, hpos]
    · exact if_neg (hnone first hfirst)

/-! ## An empty table -/

/-- The index without a word. -/
def emptyIndex : InvertIndex :=
  { invIdx := []
    invIdxStream := ⟨[], 0⟩
    postingStore := ⟨[], 0⟩
    docStore := { docIds := [], nZones := [], tZonesWCnt := [] } }

/-- **Any word is looked up outside of it.** -/
theorem not_findsToken_empty :
    ¬ ∀ (ii : InvertIndex), (ii.invIdx.Pairwise fun a b => a.tokId < b.tokId) →
      ∀ word : Bytes, FindsToken ii word := by
  intro hclaim
  obtain ⟨r, hr, -⟩ := hclaim emptyIndex List.Pairwise.nil [97]
  have heval : emptyIndex.findTknIdx [97] = none := by decide +kernel
  cases heval.symm.trans hr

/-- An index of `a` and `b`, and of the largest of all hashes. -/
def threeTokens : InvertIndex :=
  { emptyIndex with
    invIdx := [⟨murmurHash2 [98], 4, ⟨3, 1⟩⟩, ⟨murmurHash2 [97], 18, ⟨3, 1⟩⟩,
      ⟨0xFFFFFFFF, 32, ⟨3, 1⟩⟩] }

/-- The word `a` is looked up inside of it, and so is a word that is not indexed. -/
theorem findTknIdx_correct_iff_threeTokens :
    FindsToken threeTokens [97] ∧ FindsToken threeTokens [99] := by
  have hinc : threeTokens.invIdx.Pairwise fun a b => a.tokId < b.tokId := by decide
  have hlast : (⟨0xFFFFFFFF, 32, ⟨3, 1⟩⟩ : InvIdxItem) ∈ threeTokens.invIdx := by decide
  have hfinds : ∀ word, FindsToken threeTokens word := fun word =>
    (findTknIdx_correct_iff hinc word).mpr
      ⟨_, hlast, UInt32.le_iff_toNat_le.mpr (Nat.le_of_lt_succ (UInt32.toNat_lt _))⟩
  exact ⟨hfinds [97], hfinds [99]⟩

end Amigos.Index
