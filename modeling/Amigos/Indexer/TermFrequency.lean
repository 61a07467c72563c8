import Amigos.Index.ZonesTf
import Amigos.Indexer.Split

/-!
# The term frequencies of a recorded entry (`splitByZones`, `getZonesTf`, `getFullPosting`)

What `splitByZones` makes of any positions is described by the zones it has opened (`Opened`): they
rise, each has words, the mask has their bits and there is a piece for each of them. With that
both readers of an entry come to a closed form, zone by zone. `getFullPosting` gives a zone its own
size (`zoneSize`), `getZonesTf` divides the first size by the words of every zone; so the
frequencies are right exactly if all sizes of the entry are the same (`zonesTf_right_iff`).
-/

set_option autoImplicit false

namespace Amigos.Indexer

open Amigos.Lib
open Amigos.Index

/-! ## The zones that are opened -/

/-- The zones `zs` have been opened so far. Between two positions `isNewZone` only holds in front
of the first one. -/
structure Opened (zwCnt : List UInt16) (s : Split) (zs : List Nat) : Prop where
  pieces : s.splitPosting.length = zs.length
  increasing : zs.Pairwise (· < ·)
  behind : ∀ z ∈ zs, z ≤ s.zi.toNat
  isNew : s.isNewZone = true → zs = [] ∧ s.offset = 0
  words : ∀ z ∈ zs, ∃ cnt, zwCnt[z]? = some cnt ∧ cnt ≠ 0
  mask : ∀ j, s.inZone.toNat.testBit j = true ↔ j ∈ zs

/-- Where the inner loop stops: in a zone that ends behind the position, and either where it has
started or in a later zone, at a position that is not in front of it. -/
theorem skip_stops {zwCnt : List UInt16} (hlen : zwCnt.length ≤ 8) {val : UInt16} {fuel : Nat}
    {zi zi' : UInt8} {offset offset' : UInt16} {isNewZone isNewZone' : Bool}
    (h : iterate (skipPass zwCnt val) fuel (zi, offset, isNewZone)
      = some (zi', offset', isNewZone')) :
    (∃ cnt, zwCnt[zi'.toNat]? = some cnt ∧ val.toNat < offset'.toNat + cnt.toNat) ∧
      ((zi', offset', isNewZone') = (zi, offset, isNewZone) ∨
        (zi.toNat < zi'.toNat ∧ isNewZone' = true ∧ offset'.toNat ≤ val.toNat)) := by
  refine iterate_inv
    (fun s : UInt8 × UInt16 × Bool => s = (zi, offset, isNewZone) ∨
      (zi.toNat < s.1.toNat ∧ s.2.2 = true ∧ s.2.1.toNat ≤ val.toNat))
    (fun s : UInt8 × UInt16 × Bool =>
      (∃ cnt, zwCnt[s.1.toNat]? = some cnt ∧ val.toNat < s.2.1.toNat + cnt.toNat) ∧
        (s = (zi, offset, isNewZone) ∨
          (zi.toNat < s.1.toNat ∧ s.2.2 = true ∧ s.2.1.toNat ≤ val.toNat)))
    ?_ ?_ (.inl rfl) h
  · rintro ⟨z, ofs, isNew⟩ s' hinv hpass
    obtain ⟨cnt, -, ⟨hle, heq, hnext, hsum⟩ | ⟨-, heq⟩⟩ :=
      skipPass_cases (hlen.trans (by decide)) hpass
    · cases heq
      refine .inr ⟨?_, rfl, ?_⟩
      · show zi.toNat < (z + 1).toNat
        rw [hnext]
        rcases hinv with heq | ⟨hlt, -⟩
        · cases heq
          exact Nat.lt_succ_self _
        · exact Nat.lt_succ_of_lt hlt
      · show (ofs + cnt).toNat ≤ val.toNat
        rw [hsum]
        exact hle
    · cases heq
  · rintro ⟨z, ofs, isNew⟩ b hinv hpass
    obtain ⟨cnt, hget, ⟨-, heq, -⟩ | ⟨hlt, heq⟩⟩ := skipPass_cases (hlen.trans (by decide)) hpass
    · cases heq
    · cases heq
      exact ⟨⟨cnt, hget, hlt⟩, hinv⟩

/-- ORing the bit of a zone into the mask adds this zone. -/
theorem testBit_or_mask {zi : Nat} {mask : UInt8} (hmask : i2mask[zi]? = some mask)
    (inZone : UInt8) (j : Nat) : (inZone ||| mask).toNat.testBit j = true ↔
      inZone.toNat.testBit j = true ∨ j = zi := by
  have hpow := toNat_i2mask zi (List.getElem?_eq_some_iff.mp hmask).1
  rw [hmask, Option.getD_some] at hpow
  rw [UInt8.toNat_or, Nat.testBit_or, Bool.or_eq_true, hpow, Nat.testBit_two_pow,
    decide_eq_true_eq]
  exact or_congr_right eq_comm

/-- **One position** opens a zone or stays in the last one. -/
theorem Opened.splitVal {zwCnt : List UInt16} (hlen : zwCnt.length ≤ 8) {fuel : Nat}
    {s s' : Split} {zs : List Nat} {val : UInt16} (h : Opened zwCnt s zs)
    (hval : Indexer.splitVal fuel zwCnt s val = some s') :
    ∃ zs', Opened zwCnt s' zs' ∧ zs' ≠ [] := by
  simp only [Indexer.splitVal, Option.bind_eq_bind, Option.bind_eq_some_iff] at hval
  obtain ⟨⟨zi, offset, isNewZone⟩, hskip, hval⟩ := hval
  obtain ⟨⟨cnt, hget, hlt⟩, hstop⟩ := skip_stops hlen hskip
  split at hval
  · rename_i hopen
    simp only [Option.bind_eq_some_iff, Option.pure_def, Option.some.injEq] at hval
    obtain ⟨mask, hmask, rfl⟩ := hval
    -- The zone is a new one, and the position is in it.
    obtain ⟨hnew, hle⟩ : (∀ z ∈ zs, z < zi.toNat) ∧ offset.toNat ≤ val.toNat := by
      rcases hstop with heq | ⟨hmoved, -, hle⟩
      · cases heq
        obtain ⟨rfl, hzero⟩ := h.isNew hopen
        rw [hzero]
        exact ⟨fun z hz => absurd hz List.not_mem_nil, Nat.zero_le _⟩
      · exact ⟨fun z hz => Nat.lt_of_le_of_lt (h.behind z hz) hmoved, hle⟩
    have hcnt : cnt ≠ 0 := by
      rintro rfl
      exact absurd hlt (Nat.not_lt.mpr hle)
    refine ⟨zs ++ [zi.toNat], ⟨?_, ?_, ?_, ?_, ?_, ?_⟩, by simp⟩
    · rw [List.length_append, List.length_append, h.pieces]
      rfl
    · exact List.pairwise_append.mpr ⟨h.increasing, List.pairwise_singleton _ _,
        fun z hz z' hz' => by rw [List.mem_singleton.mp hz']; exact hnew z hz⟩
    · intro z hz
      rcases List.mem_append.mp hz with hz | hz
      · exact Nat.le_of_lt (hnew z hz)
      · exact Nat.le_of_eq (List.mem_singleton.mp hz)
    · exact fun hfalse => absurd hfalse Bool.false_ne_true
    · intro z hz
      rcases List.mem_append.mp hz with hz | hz
      · exact h.words z hz
      · rw [List.mem_singleton.mp hz]
        exact ⟨cnt, hget, hcnt⟩
    · intro j
      rw [testBit_or_mask hmask, h.mask, List.mem_append, List.mem_singleton]
  · rename_i hsame
    simp only [Option.bind_eq_some_iff, Option.pure_def, Option.some.injEq] at hval
    obtain ⟨back, hback, rfl⟩ := hval
    rcases hstop with heq | ⟨-, hopen, -⟩
    · cases heq
      have hpos : 0 < s.splitPosting.length :=
        List.length_pos_of_mem (List.mem_of_getLast? hback)
      refine ⟨zs, ⟨?_, h.increasing, h.behind, h.isNew, h.words, h.mask⟩, ?_⟩
      · rw [List.length_append, List.length_dropLast, List.length_singleton, ← h.pieces]
        omega
      · rw [h.pieces] at hpos
        exact List.ne_nil_of_length_pos hpos
    · exact absurd hopen hsame

theorem Opened.splitVals {zwCnt : List UInt16} (hlen : zwCnt.length ≤ 8) {fuel : Nat}
    {posting : List UInt16} : ∀ {s s' : Split} {zs : List Nat}, Opened zwCnt s zs →
      Indexer.splitVals fuel zwCnt s posting = some s' →
      ∃ zs', Opened zwCnt s' zs' ∧ (posting ≠ [] ∨ zs ≠ [] → zs' ≠ []) := by
  induction posting with
  | nil =>
    intro s s' zs h hvals
    cases hvals
    exact ⟨zs, h, fun hne => hne.resolve_left (not_not.mpr rfl)⟩
  | cons val posting ih =>
    intro s s' zs h hvals
    rw [splitVals_cons, Option.bind_eq_some_iff] at hvals
    obtain ⟨s₁, hval, hvals⟩ := hvals
    obtain ⟨zs₁, h₁, hne₁⟩ := h.splitVal hlen hval
    obtain ⟨zs', h', hne'⟩ := ih h₁ hvals
    exact ⟨zs', h', fun _ => hne' (.inr hne₁)⟩

/-- The zones of an entry: its mask has their bits, and there is a posting size for each. -/
structure ZonesOf (zwCnt : List UInt16) (info : PostingInfo) (zs : List Nat) : Prop where
  sizes : info.postingSizes.length = zs.length
  increasing : zs.Pairwise (· < ·)
  words : ∀ z ∈ zs, ∃ cnt, zwCnt[z]? = some cnt ∧ cnt ≠ 0
  mask : ∀ j, info.inZone.toNat.testBit j = true ↔ j ∈ zs

/-- **Every entry has its zones**, and a new one at least one of them. -/
theorem splitByZones_zonesOf {zwCnt : List UInt16} (hlen : zwCnt.length ≤ 8) {fuel : Nat}
    {posting : List UInt16} {fzpBuf : List (List UInt16)} {info : PostingInfo}
    (h : splitByZones fuel posting zwCnt = some (fzpBuf, info)) :
    ∃ zs, ZonesOf zwCnt info zs ∧ (posting ≠ [] → zs ≠ []) := by
  simp only [splitByZones, Option.bind_eq_bind, Option.bind_eq_some_iff, Option.pure_def,
    Option.some.injEq, Prod.mk.injEq] at h
  obtain ⟨s, hvals, rfl, rfl⟩ := h
  have hstart : Opened zwCnt
      { zi := 0, offset := 0, isNewZone := true, splitPosting := [], inZone := 0 } [] :=
    ⟨rfl, .nil, by simp, fun _ => ⟨rfl, rfl⟩, by simp, by simp⟩
  obtain ⟨zs, hopened, hne⟩ := hstart.splitVals hlen hvals
  refine ⟨zs, ⟨?_, hopened.increasing, hopened.words, hopened.mask⟩, fun h => hne (.inl h)⟩
  rw [List.length_map, hopened.pieces]

/-! ## The two readers -/

/-- The size that belongs to a zone. -/
def zoneSize (zs : List Nat) (sizes : List UInt16) (z : Nat) : Nat :=
  ((zs.zip sizes).lookup z).elim 0 UInt16.toNat

theorem zoneSize_cons_self (z : Nat) (zs : List Nat) (size : UInt16) (sizes : List UInt16) :
    zoneSize (z :: zs) (size :: sizes) z = size.toNat := by
  rw [zoneSize, List.zip_cons_cons, List.lookup_cons_self]
  rfl

theorem zoneSize_cons_of_ne {z z' : Nat} (h : z' ≠ z) (zs : List Nat) (size : UInt16)
    (sizes : List UInt16) : zoneSize (z :: zs) (size :: sizes) z' = zoneSize zs sizes z' := by
  rw [zoneSize, List.zip_cons_cons, List.lookup_cons, beq_eq_false_iff_ne.mpr h]
  rfl

theorem zoneSize_of_notMem {z : Nat} {zs : List Nat} : ∀ {sizes : List UInt16}, z ∉ zs →
    zoneSize zs sizes z = 0 := by
  induction zs with
  | nil => exact fun _ => rfl
  | cons z' zs ih =>
    intro sizes h
    cases sizes with
    | nil => rfl
    | cons size sizes =>
      obtain ⟨hne, hnot⟩ := not_or.mp (mt List.mem_cons.mpr h)
      rw [zoneSize_cons_of_ne hne]
      exact ih hnot

/-- The sizes are those of the zones. -/
theorem mem_sizes_iff {zs : List Nat} : ∀ {sizes : List UInt16}, sizes.length = zs.length →
    zs.Pairwise (· < ·) → ∀ n : Nat,
      (∃ size ∈ sizes, size.toNat = n) ↔ ∃ z ∈ zs, zoneSize zs sizes z = n := by
  induction zs with
  | nil =>
    intro sizes hlen _ n
    rw [List.length_eq_zero_iff.mp hlen]
    simp
  | cons z zs ih =>
    intro sizes hlen hinc n
    cases sizes with
    | nil => cases hlen
    | cons size sizes =>
      obtain ⟨hlt, hinc⟩ := List.pairwise_cons.mp hinc
      have hne : ∀ z' ∈ zs, zoneSize (z :: zs) (size :: sizes) z' = zoneSize zs sizes z' :=
        fun z' hz' => zoneSize_cons_of_ne (hlt z' hz').ne' _ _ _
      rw [List.exists_mem_cons_iff, List.exists_mem_cons_iff, zoneSize_cons_self,
        ih (Nat.succ.inj hlen) hinc]
      refine or_congr_right (exists_congr fun z' => and_congr_right fun hz' => ?_)
      rw [hne z' hz']

/-- The first of rising numbers that are not below `i`, if `i` is one of them. -/
theorem exists_cons_of_mem {i : Nat} {zs : List Nat} (hinc : zs.Pairwise (· < ·))
    (hge : ∀ z ∈ zs, i ≤ z) (hmem : i ∈ zs) : ∃ zs', zs = i :: zs' := by
  cases zs with
  | nil => cases hmem
  | cons z zs =>
    rcases List.mem_cons.mp hmem with rfl | hmem
    · exact ⟨zs, rfl⟩
    · have hlt := List.rel_of_pairwise_cons hinc hmem
      exact absurd (hge z List.mem_cons_self) (Nat.not_le.mpr hlt)

/-- **`getFullPosting` gives every zone its own size**, by induction on the zones that are
left. -/
theorem fullPostingLoop_sizes {inZone : UInt8} : ∀ (n i : Nat) (po : UInt64) (zs : List Nat)
    (sizes : List UInt16) (done : List Posting), i + n ≤ 8 → done.length = i →
    sizes.length = zs.length → zs.Pairwise (· < ·) → (∀ z ∈ zs, i ≤ z) →
    (∀ j, i ≤ j → (inZone.toNat.testBit j = true ↔ j ∈ zs)) →
    ∃ added, fullPostingLoop inZone n i po sizes (done ++ List.replicate n default)
        = some (done ++ added) ∧
      added.map Posting.size = (List.range' i n).map (zoneSize zs sizes) := by
  intro n
  induction n with
  | zero => exact fun _ _ _ _ _ _ _ _ _ _ _ => ⟨[], rfl, rfl⟩
  | succ n ih =>
    intro i po zs sizes done hi hdone hlen hinc hge hmask
    have hi8 : i < 8 := Nat.lt_of_lt_of_le (Nat.lt_add_of_pos_right (Nat.succ_pos n)) hi
    have hbit := hmask i (Nat.le_refl i)
    by_cases hmem : i ∈ zs
    · obtain ⟨zs, rfl⟩ := exists_cons_of_mem hinc hge hmem
      obtain ⟨hlt, hinc⟩ := List.pairwise_cons.mp hinc
      cases sizes with
      | nil => cases hlen
      | cons size sizes =>
        rw [fullPostingLoop_present hi8 (hbit.mpr hmem) po size sizes hdone]
        obtain ⟨added, hrun, hsizes⟩ := ih (i + 1)
          (po + UInt64.ofNat (Posting.at (po * 2) size).size) zs sizes
          (done ++ [Posting.at (po * 2) size]) (by omega) (by simp [hdone]) (Nat.succ.inj hlen)
          hinc hlt (fun j hj => (hmask j (Nat.le_of_succ_le hj)).trans
            (List.mem_cons.trans (or_iff_right (Nat.ne_of_gt hj))))
        refine ⟨Posting.at (po * 2) size :: added, ?_, ?_⟩
        · rw [hrun, List.append_assoc]
          rfl
        · rw [List.map_cons, List.range'_succ, List.map_cons, zoneSize_cons_self, hsizes]
          refine congrArg _ (List.map_congr_left fun j hj => ?_)
          exact (zoneSize_cons_of_ne (Nat.ne_of_gt (List.mem_range'_1.mp hj).1) _ _ _).symm
    · rw [fullPostingLoop_absent hi8 (hbit.not.mpr hmem)]
      have hgt : ∀ z ∈ zs, i + 1 ≤ z := fun z hz =>
        Nat.lt_of_le_of_ne (hge z hz) fun heq => hmem (heq ▸ hz)
      obtain ⟨added, hrun, hsizes⟩ := ih (i + 1) po zs sizes (done ++ [default]) (by omega)
        (by simp [hdone]) hlen hinc hgt (fun j hj => hmask j (Nat.le_of_succ_le hj))
      refine ⟨default :: added, ?_, ?_⟩
      · rw [hrun, List.append_assoc]
        rfl
      · rw [List.map_cons, List.range'_succ, List.map_cons, zoneSize_of_notMem hmem, hsizes]
        rfl

/-- **`getZonesTf` divides the first size** by the words of every zone. -/
theorem zonesTfLoop_eq {index : InvertIndex} {entry : Entry} {curZone : Nat} {first : UInt16}
    (hfirst : entry.postingInfo.postingSizes[curZone]? = some first) {words : Nat → UInt16} :
    ∀ (n i : Nat) (tfVec : List ℚ), i + n ≤ 8 →
      (∀ z, entry.postingInfo.inZone.toNat.testBit z = true → i ≤ z → z < i + n →
        index.docStore.getTZoneWCnt entry.docIdOffset (UInt8.ofNat z) = some (words z) ∧
          words z ≠ 0) →
      zonesTfLoop index entry curZone n i tfVec
        = some (tfVec ++ (List.range' i n).map fun z =>
          if entry.postingInfo.inZone.toNat.testBit z then
            (first.toNat : ℚ) / ((words z).toNat : ℚ) else 0) := by
  intro n
  induction n with
  | zero =>
    intro i tfVec _ _
    rw [zonesTfLoop]
    simp
  | succ n ih =>
    intro i tfVec hi hwords
    have hi8 : i < i2mask.length := Nat.lt_of_lt_of_le (Nat.lt_add_of_pos_right (Nat.succ_pos n)) hi
    have hget := List.getElem?_eq_getElem hi8
    have hbit := and_mask_ne_zero_iff hget entry.postingInfo.inZone
    have hrest := fun tfVec => ih (i + 1) tfVec (by omega)
      fun z hz hle hlt => hwords z hz (Nat.le_of_succ_le hle) (by omega)
    simp only [zonesTfLoop, hget, Option.bind_eq_bind, Option.bind_some]
    by_cases hz : entry.postingInfo.inZone.toNat.testBit i = true
    · obtain ⟨hcnt, hne⟩ := hwords i hz (Nat.le_refl i) (by omega)
      rw [if_pos (hbit.mpr hz), hfirst, hcnt]
      simp only [Option.bind_some, if_neg hne]
      rw [hrest, List.range'_succ, List.map_cons, if_pos hz, List.append_assoc]
      rfl
    · rw [if_neg (hbit.not.mpr hz), hrest, List.range'_succ, List.map_cons, if_neg hz,
        List.append_assoc]
      rfl

section

variable {zwCnt : List UInt16} (hzones : zwCnt.length ≤ 8) {entry : Entry} {zs : List Nat}
  (hof : ZonesOf zwCnt entry.postingInfo zs)
include hzones hof

theorem getFullPosting_sizes {st : PostingStorage} (hstore : st.tZonesCnt.toNat = zwCnt.length) :
    ∃ res, st.getFullPosting entry [] = some res ∧ res.map Posting.size
      = (List.range zwCnt.length).map (zoneSize zs entry.postingInfo.postingSizes) := by
  obtain ⟨res, hfull, hsizes⟩ := fullPostingLoop_sizes zwCnt.length 0
    entry.postingInfo.postingOffset zs entry.postingInfo.postingSizes [] (by rwa [Nat.zero_add]) rfl
    hof.sizes hof.increasing (fun z _ => Nat.zero_le z) (fun j _ => hof.mask j)
  refine ⟨res, ?_, by rwa [List.range_eq_range']⟩
  have hresize : resize zwCnt.length default ([] : List Posting)
      = [] ++ List.replicate zwCnt.length default := by
    rw [resize, List.take_nil]
    rfl
  rw [PostingStorage.getFullPosting, hstore, hresize, hfull, List.nil_append]

theorem getZonesTf_eq {first : UInt16}
    (hfirst : entry.postingInfo.postingSizes.head? = some first) {index : InvertIndex}
    {config : Config} (hconfig : config.textZones.length = zwCnt.length)
    (hcnt : ∀ z cnt, zwCnt[z]? = some cnt →
      index.docStore.getTZoneWCnt entry.docIdOffset (UInt8.ofNat z) = some cnt) (tfVec : List ℚ) :
    index.getZonesTf config entry tfVec = some (tfVec ++ (List.range zwCnt.length).map fun z =>
      if entry.postingInfo.inZone.toNat.testBit z then
        (first.toNat : ℚ) / ((zwCnt.getD z 0).toNat : ℚ) else 0) := by
  rw [InvertIndex.getZonesTf, hconfig, List.range_eq_range']
  refine zonesTfLoop_eq (List.head?_eq_getElem?.symm.trans hfirst) zwCnt.length 0 tfVec
    (by rwa [Nat.zero_add]) fun z hz _ _ => ?_
  obtain ⟨cnt, hget, hpos⟩ := hof.words z ((hof.mask z).mp hz)
  rw [List.getD_eq_getElem?_getD, hget]
  exact ⟨hcnt z cnt hget, hpos⟩

end

/-! ## The frequencies -/

/-- **The right term frequencies**: what `getZonesTf` appends for a text zone is the number of
positions that `getFullPosting` returns for it, by its words, and 0 for a zone the entry is not
in. -/
def TfRight (index : InvertIndex) (config : Config) (entry : Entry) (zwCnt : List UInt16) : Prop :=
  ∃ res, PostingStorage.getFullPosting index.postingStore entry [] = some res ∧
    ∀ tfVec, index.getZonesTf config entry tfVec = some (tfVec ++
      (List.range zwCnt.length).map fun z =>
        if entry.postingInfo.inZone.toNat.testBit z then
          ((res.getD z default).size : ℚ) / ((zwCnt.getD z 0).toNat : ℚ) else 0)

/-- The right frequencies, zone by zone: the first size is as good as the own one. -/
theorem tfRight_iff_zones {zwCnt : List UInt16} (hzones : zwCnt.length ≤ 8) {entry : Entry}
    {zs : List Nat} (hof : ZonesOf zwCnt entry.postingInfo zs) {first : UInt16}
    (hfirst : entry.postingInfo.postingSizes.head? = some first) {index : InvertIndex}
    {config : Config} (hconfig : config.textZones.length = zwCnt.length)
    (hstore : index.postingStore.tZonesCnt.toNat = zwCnt.length)
    (hcnt : ∀ z cnt, zwCnt[z]? = some cnt →
      index.docStore.getTZoneWCnt entry.docIdOffset (UInt8.ofNat z) = some cnt) :
    TfRight index config entry zwCnt ↔
      ∀ z ∈ zs, zoneSize zs entry.postingInfo.postingSizes z = first.toNat := by
  obtain ⟨res, hfull, hsizes⟩ := getFullPosting_sizes hzones hof hstore
  have hsize : ∀ z < zwCnt.length,
      (res.getD z default).size = zoneSize zs entry.postingInfo.postingSizes z := by
    intro z hz
    have hlen := congrArg List.length hsizes
    rw [List.length_map, List.length_map, List.length_range] at hlen
    have hget := congrArg (fun l => l.getD z 0) hsizes
    simpa [hlen, hz] using hget
  rw [TfRight, hfull]
  simp only [Option.some.injEq, exists_eq_left', getZonesTf_eq hzones hof hfirst hconfig hcnt,
    List.append_cancel_left_eq, forall_const, List.map_inj_left, List.mem_range]
  constructor
  · intro h z hz
    obtain ⟨cnt, hget, hpos⟩ := hof.words z hz
    have hlt := (List.getElem?_eq_some_iff.mp hget).1
    have hquot := h z hlt
    rw [if_pos ((hof.mask z).mpr hz), if_pos ((hof.mask z).mpr hz), hsize z hlt,
      List.getD_eq_getElem?_getD, hget, Option.getD_some] at hquot
    have hcast : (cnt.toNat : ℚ) ≠ 0 := by
      intro hzero
      exact hpos (UInt16.toNat_inj.mp (Nat.cast_eq_zero.mp hzero))
    exact (Nat.cast_inj.mp ((div_left_inj' hcast).mp hquot)).symm
  · intro h z hlt
    split
    · rename_i hz
      rw [hsize z hlt, h z ((hof.mask z).mp hz)]
    · rfl

/-- **When they are right**: exactly if all posting sizes of the entry are the first one. -/
theorem tfRight_iff {fuel : Nat} {posting zwCnt : List UInt16} {fzpBuf : List (List UInt16)}
    {info : PostingInfo} (hsplit : splitByZones fuel posting zwCnt = some (fzpBuf, info))
    (hne : posting ≠ []) (hzones : zwCnt.length ≤ 8) (index : InvertIndex) (config : Config)
    (hconfig : config.textZones.length = zwCnt.length)
    (hstore : index.postingStore.tZonesCnt.toNat = zwCnt.length) (docIdOffset : UInt32)
    (hcnt : ∀ z cnt, zwCnt[z]? = some cnt →
      index.docStore.getTZoneWCnt docIdOffset (UInt8.ofNat z) = some cnt)
    (postingOffset : UInt64) :
    TfRight index config { docIdOffset, postingInfo := { info with postingOffset } } zwCnt ↔
      ∀ size ∈ info.postingSizes, info.postingSizes.head? = some size := by
  obtain ⟨zs, hof, hopen⟩ := splitByZones_zonesOf hzones hsplit
  obtain ⟨first, rest, hsizes⟩ : ∃ first rest, info.postingSizes = first :: rest := by
    apply List.exists_cons_of_length_pos
    rw [hof.sizes]
    exact List.length_pos_of_ne_nil (hopen hne)
  have hfirst : info.postingSizes.head? = some first := by rw [hsizes, List.head?_cons]
  have hof' : ZonesOf zwCnt { info with postingOffset } zs :=
    ⟨hof.sizes, hof.increasing, hof.words, hof.mask⟩
  rw [tfRight_iff_zones hzones hof' hfirst hconfig hstore hcnt, hfirst]
  have hmem := mem_sizes_iff hof.sizes hof.increasing
  constructor
  · intro h size hsize
    obtain ⟨z, hz, hzone⟩ := (hmem size.toNat).mp ⟨size, hsize, rfl⟩
    exact congrArg some (UInt16.toNat_inj.mp ((h z hz).symm.trans hzone))
  · intro h z hz
    obtain ⟨size, hsize, hzone⟩ := (hmem _).mpr ⟨z, hz, rfl⟩
    show zoneSize zs info.postingSizes z = first.toNat
    rw [← hzone, Option.some.inj (h size hsize)]

/-! ## A title of one word and a description of two -/

/-- A configuration with these two text zones. -/
def titleDescConfig : Config where
  docIdTag := "id"
  invertIndexIPosFile := ""
  numZones := []
  textZones :=
    [{ name := "title", path := ["title"], isOptional := false, needSave := true },
      { name := "desc", path := ["desc"], isOptional := false, needSave := false }]
  trashZones := []

/-- The index of one document, `x` and `x x`, with the positions 0, 0, 1. -/
def titleDescIndex : InvertIndex where
  invIdx := []
  invIdxStream := ⟨[], 0⟩
  postingStore := { src := [0, 0, 0, 0, 1, 0], tZonesCnt := 2 }
  docStore := { docIds := [7], nZones := [], tZonesWCnt := [[1], [2]] }

theorem wordsCnt_titleDesc (z : Nat) (cnt : UInt16) (hget : ([1, 2] : List UInt16)[z]? = some cnt) :
    titleDescIndex.docStore.getTZoneWCnt 0 (UInt8.ofNat z) = some cnt := by
  rcases z with _ | _ | z
  · exact hget
  · exact hget
  · cases hget

/-- The word fills both zones; the description should get the frequency 1 and gets 1/2. -/
theorem not_tfRight_titleDesc : ¬ ∀ (fuel : Nat) (posting zwCnt : List UInt16)
    (fzpBuf : List (List UInt16)) (info : PostingInfo),
    splitByZones fuel posting zwCnt = some (fzpBuf, info) → posting ≠ [] → zwCnt.length ≤ 8 →
    ∀ (index : InvertIndex) (config : Config), config.textZones.length = zwCnt.length →
    index.postingStore.tZonesCnt.toNat = zwCnt.length → ∀ docIdOffset : UInt32,
    (∀ z cnt, zwCnt[z]? = some cnt →
      index.docStore.getTZoneWCnt docIdOffset (UInt8.ofNat z) = some cnt) →
    ∀ postingOffset : UInt64,
    TfRight index config { docIdOffset, postingInfo := { info with postingOffset } } zwCnt := by
  intro hclaim
  obtain ⟨res, hfull, htf⟩ := hclaim 256 [0, 1, 2] [1, 2] [[0], [0, 1]] ⟨3, 0, [1, 2]⟩ (by decide)
    (by decide) (by decide) titleDescIndex titleDescConfig rfl rfl 0 wordsCnt_titleDesc 0
  have hpostings : PostingStorage.getFullPosting titleDescIndex.postingStore
      ⟨0, ⟨3, 0, [1, 2]⟩⟩ [] = some [⟨0, 1⟩, ⟨1, 2⟩] := by decide
  cases hpostings.symm.trans hfull
  exact absurd (htf []) (by decide +kernel)

/-- The same document, in which the word is once in each zone. -/
theorem tfRight_iff_titleDesc :
    TfRight titleDescIndex titleDescConfig ⟨0, ⟨3, 0, [1, 1]⟩⟩ [1, 2] ↔
      ∀ size ∈ ([1, 1] : List UInt16), some 1 = some size :=
  tfRight_iff (show splitByZones 256 [0, 1] [1, 2] = some ([[0], [0]], ⟨3, 0, [1, 1]⟩) by decide)
    (by decide) (by decide) titleDescIndex titleDescConfig rfl rfl 0 wordsCnt_titleDesc 0

end Amigos.Indexer
