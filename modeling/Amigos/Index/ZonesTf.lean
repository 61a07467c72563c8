import Mathlib.Algebra.Field.Rat
import Amigos.Index.InvertIndex

/-!
# Term frequencies (`InvertIndex::getZonesTf`)

The posting sizes of an entry are stored for the zones in its mask only, one after the other. Two
functions walk over the zones and take them out again: `getFullPosting` goes to the next size at
every bit, and `getZonesTf` has a counter for it, `curZone`, that it never moves. The frequencies
are exact rationals here.
-/

set_option autoImplicit false

namespace Amigos.Index

open Amigos.Lib

/-- The loop of `getZonesTf` from zone `zi` on, for the `n` zones that are left. A word count of 0
has no quotient. -/
def zonesTfLoop (index : InvertIndex) (entry : Entry) (curZone : Nat) :
    (n zi : Nat) → (tfVec : List ℚ) → Option (List ℚ)
  | 0, _, tfVec => some tfVec
  | n + 1, zi, tfVec => do
    let mask ← i2mask[zi]?
    if mask &&& entry.postingInfo.inZone ≠ 0 then
      let size ← entry.postingInfo.postingSizes[curZone]?
      let wordsCnt ← index.docStore.getTZoneWCnt entry.docIdOffset (UInt8.ofNat zi)
      if wordsCnt = 0 then none
      zonesTfLoop index entry curZone n (zi + 1)
        (tfVec ++ [(size.toNat : ℚ) / (wordsCnt.toNat : ℚ)])
    else zonesTfLoop index entry curZone n (zi + 1) (tfVec ++ [0])

/-- `getZonesTf` appends to `tfVec`, a number for each text zone. -/
def InvertIndex.getZonesTf (index : InvertIndex) (config : Config) (entry : Entry)
    (tfVec : List ℚ) : Option (List ℚ) :=
  let curZone := 0
  zonesTfLoop index entry curZone config.textZones.length 0 tfVec

/-- The loop appends: what is in the vector stays, and nothing depends on it. -/
theorem zonesTfLoop_append (index : InvertIndex) (entry : Entry) (curZone : Nat) (old : List ℚ) :
    ∀ (n zi : Nat) (tfVec : List ℚ), zonesTfLoop index entry curZone n zi (old ++ tfVec)
      = (zonesTfLoop index entry curZone n zi tfVec).map (old ++ ·) := by
  intro n
  induction n with
  | zero => exact fun _ _ => rfl
  | succ n ih =>
    intro zi tfVec
    simp only [zonesTfLoop, Option.bind_eq_bind]
    cases i2mask[zi]? with
    | none => rfl
    | some mask =>
      simp only [Option.bind_some, List.append_assoc, ih]
      split
      · cases entry.postingInfo.postingSizes[curZone]? with
        | none => rfl
        | some size =>
          cases index.docStore.getTZoneWCnt entry.docIdOffset (UInt8.ofNat zi) with
          | none => rfl
          | some wordsCnt =>
            simp only [Option.bind_some]
            split <;> rfl
      · rfl

/-- It appends a number for each zone. -/
theorem length_zonesTfLoop {index : InvertIndex} {entry : Entry} {curZone : Nat} :
    ∀ {n zi : Nat} {tfVec res : List ℚ}, zonesTfLoop index entry curZone n zi tfVec = some res →
      res.length = tfVec.length + n := by
  intro n
  induction n with
  | zero =>
    intro zi tfVec res h
    cases h
    rfl
  | succ n ih =>
    intro zi tfVec res h
    simp only [zonesTfLoop, Option.bind_eq_bind, Option.bind_eq_some_iff] at h
    obtain ⟨mask, -, h⟩ := h
    split at h
    · simp only [Option.bind_eq_some_iff] at h
      obtain ⟨size, -, wordsCnt, -, h⟩ := h
      split at h
      · cases h
      · rw [ih h, List.length_append, List.length_singleton]
        omega
    · rw [ih h, List.length_append, List.length_singleton]
      omega

theorem InvertIndex.getZonesTf_append (index : InvertIndex) (config : Config) (entry : Entry)
    (old : List ℚ) : index.getZonesTf config entry old
      = (index.getZonesTf config entry []).map (old ++ ·) := by
  have h := zonesTfLoop_append index entry 0 old config.textZones.length 0 []
  rwa [List.append_nil] at h

theorem InvertIndex.length_getZonesTf {index : InvertIndex} {config : Config} {entry : Entry}
    {tf : List ℚ} (h : index.getZonesTf config entry [] = some tf) :
    tf.length = config.textZones.length := by
  have hlen := length_zonesTfLoop h
  rwa [List.length_nil, Nat.zero_add] at hlen

end Amigos.Index
