import Amigos.Lib.Outcome
import Amigos.Spider.UIdsStorage

/-!
# A flush that fails (`flushToDisk`, with `OSError`)

Every I/O call of a flush may raise. Until the merged file is written and closed, all that has
changed is a temporary file and the position of `bd_fd`, which no operation relies on. Then the old
file is closed, `ram_uids` is cleared, and only behind that the new file is put in place of the old
one. So a failed flush is harmless unless it is the renaming that failed: the uids that had been in
RAM are then nowhere (`failedFlush_unharmed_iff`).

A search that raises has moved `bd_fd` at most, and is left out. Closing `bd_fd` leaves it closed
even if it raises.
-/

set_option autoImplicit false

namespace Amigos.Spider

open Amigos.Lib

/-! ## Calls that raise -/

/-- The I/O calls of `flushToDisk`. -/
inductive IoCall where
  | seek
  | openTmp
  | read
  | write
  | closeTmp
  | closeBd
  | rename
  | reopen
  deriving DecidableEq, Repr

/-- The call that raises, and how many of the same kind succeed before it. -/
structure Fault where
  call : IoCall
  after : ℕ
  deriving DecidableEq, Repr

/-- What becomes of the fault at a call: `none` raises. Without a fault every call succeeds. -/
def Fault.pass (call : IoCall) : Option Fault → Option (Option Fault)
  | none => some none
  | some ⟨call', after⟩ =>
    if call' = call then
      match after with
      | 0 => none
      | after + 1 => some (some ⟨call', after⟩)
    else some (some ⟨call', after⟩)

/-- As many calls of one kind. -/
def Fault.passMany (call : IoCall) : ℕ → Option Fault → Option (Option Fault)
  | 0, fault => some fault
  | n + 1, fault => (Fault.pass call fault).bind (Fault.passMany call n)

/-! ## The storage and its file -/

deriving instance DecidableEq for UIdsStorage

/-- The object, the file that its path names, and whether `bd_fd` has been closed. -/
structure Machine where
  storage : UIdsStorage
  bdFile : Bytes
  closed : Bool
  deriving DecidableEq

inductive PyError where
  | osError
  | valueError
  deriving DecidableEq, Repr

/-- An exception, and what it leaves behind. -/
structure Raised where
  error : PyError
  machine : Machine
  deriving DecidableEq

namespace Machine

def init (uidSize : ℕ) (bdFile : Bytes) (maxCnt : ℤ) : Machine :=
  { storage := .init uidSize bdFile maxCnt, bdFile, closed := false }

def setFd (m : Machine) (bdFd : IStream) : Machine :=
  { m with storage := { m.storage with bdFd } }

/-- One call. -/
def call (m : Machine) (call : IoCall) (fault : Option Fault) : Outcome Raised (Option Fault) :=
  match Fault.pass call fault with
  | none => .exception ⟨.osError, m⟩
  | some fault => .ok fault

end Machine

/-- A pass of the merge. An exception leaves the position of `bd_fd` behind. -/
def flushPassIo (uidSize : ℕ) : UIdsStorage.Flush × Option Fault →
    Option (Pass (UIdsStorage.Flush × Option Fault)
      (Except IStream (Bytes × IStream × Option Fault)))
  | (f, fault) =>
    if f.hddUidBytes.isEmpty then do
      let rest ← f.ramUids.mapM (toBytes uidSize)
      match Fault.passMany .write (rest.length + 1) fault with
      | none => return .leave (.error f.bdFd)
      | some fault =>
        return .leave (.ok (f.outFd ++ f.ramUidBytes ++ rest.flatten, f.bdFd, fault))
    else
      match Fault.pass .write fault with
      | none => some (.leave (.error f.bdFd))
      | some fault =>
        if f.ramUidBytes ≤ f.hddUidBytes then
          let outFd := f.outFd ++ f.ramUidBytes
          match f.ramUids with
          -- `StopIteration`
          | [] =>
            match (Fault.pass .write fault).bind (Fault.pass .read) with
            | none => some (.leave (.error f.bdFd))
            | some fault =>
              let (rest, bdFd) := f.bdFd.readUpTo f.bdFd.unread.length
              match Fault.pass .write fault with
              | none => some (.leave (.error bdFd))
              | some fault => some (.leave (.ok (outFd ++ f.hddUidBytes ++ rest, bdFd, fault)))
          | uid :: ramUids => do
            let ramUidBytes ← toBytes uidSize uid
            return .again ({ f with outFd, ramUidBytes, ramUids }, fault)
        else
          match Fault.pass .read fault with
          | none => some (.leave (.error f.bdFd))
          | some fault =>
            let (hddUidBytes, bdFd) := f.bdFd.readUpTo uidSize
            some (.again ({ f with outFd := f.outFd ++ f.hddUidBytes, hddUidBytes, bdFd }, fault))

namespace Machine

/-- `flushToDisk` as far as the temporary file is written: `ramUids` are behind the first, `uid`. -/
def mergeTmp (fuel : ℕ) (m : Machine) (uid : ℕ) (ramUids : List ℕ) (fault : Option Fault) :
    Outcome Raised (Bytes × Machine × Option Fault) := do
  let fault ← m.call .seek fault
  let m := m.setFd (m.storage.bdFd.seek 0)
  let fault ← m.call .openTmp fault
  let fault ← m.call .read fault
  let (hddUidBytes, bdFd) := m.storage.bdFd.readUpTo m.storage.uidSize
  let ramUidBytes ← .ofOption (toBytes m.storage.uidSize uid)
  let merged ← .ofOption (iterate (flushPassIo m.storage.uidSize) fuel
    ({ outFd := [], ramUidBytes, ramUids, hddUidBytes, bdFd }, fault))
  match merged with
  | .error bdFd => .exception ⟨.osError, m.setFd bdFd⟩
  | .ok (tmpFile, bdFd, fault) =>
    let m := m.setFd bdFd
    let fault ← m.call .closeTmp fault
    return (tmpFile, m, fault)

/-- The rest of it: the temporary file takes the place of the old one. -/
def install (m : Machine) (tmpFile : Bytes) (fault : Option Fault) : Outcome Raised Machine := do
  let m := { m with closed := true }
  let fault ← m.call .closeBd fault
  let m := { m with storage := { m.storage with ramUids := ∅ } }
  let fault ← m.call .rename fault
  let m := { m with bdFile := tmpFile }
  let _ ← m.call .reopen fault
  return { m.setFd ⟨tmpFile, 0⟩ with closed := false }

/-- `flushToDisk`. A closed `bd_fd` raises `ValueError` when it is moved. -/
def flushToDisk (fuel : ℕ) (m : Machine) (fault : Option Fault) : Outcome Raised Machine :=
  match m.storage.ramUids.sort with
  | [] => .ok m
  | uid :: ramUids => do
    if m.closed then .exception ⟨.valueError, m⟩ else
    let (tmpFile, m, fault) ← m.mergeTmp fuel uid ramUids fault
    m.install tmpFile fault

/-- A search. The size is that of the file that the path names; a closed `bd_fd` raises when it is
to be read. -/
def searching (m : Machine) (uid : ℕ) (search : UIdsStorage → Option (Bool × UIdsStorage)) :
    Outcome Raised (Bool × Machine) :=
  if m.closed = true ∧ uid ∉ m.storage.procUids ∧ uid ∉ m.storage.ramUids ∧
      0 < m.bdFile.length / m.storage.uidSize then .exception ⟨.valueError, m⟩
  else do
    let (exist, storage) ← .ofOption
      (search { m.storage with bdFd := ⟨m.bdFile, m.storage.bdFd.pos⟩ })
    return (exist, { m with storage })

def contains (m : Machine) (uid : ℕ) : Outcome Raised (Bool × Machine) :=
  m.searching uid fun s => s.contains s.fuel uid

def add (m : Machine) (newUid : ℕ) : Outcome Raised (Bool × Machine) :=
  m.searching newUid fun s => s.add s.fuel newUid

def len (m : Machine) : ℕ := m.storage.ramUids.card + m.bdFile.length / m.storage.uidSize

def commit (m : Machine) (uid : ℕ) (fault : Option Fault) :
    Outcome Raised (UIdsStorage.CommitResult × Machine) :=
  if uid ∈ m.storage.procUids then do
    let m := { m with storage := { m.storage with
      procUids := m.storage.procUids.erase uid, ramUids := insert uid m.storage.ramUids } }
    let m ← if (m.storage.ramUids.card : ℤ) > m.storage.maxCnt then
        m.flushToDisk m.storage.fuel fault
      else .ok m
    return (.done, m)
  else .ok (.keyError, m)

/-- Any operation, with a fault for the flush that it may make. -/
def step (m : Machine) (op : Op) (fault : Option Fault) : Outcome Raised (Reply × Machine) :=
  match op with
  | .add uid => do
    let (result, m) ← m.add uid
    return (.bool result, m)
  | .commit uid => do
    let (result, m) ← m.commit uid fault
    return (match result with
      | .done => .none
      | .keyError => .keyError, m)
  | .flushToDisk => do
    let m ← m.flushToDisk m.storage.fuel fault
    return (.none, m)
  | .contains uid => do
    let (exist, m) ← m.contains uid
    return (.bool exist, m)
  | .len => .ok (.num m.len, m)

end Machine

/-! ## What a call does to the fault -/

/-- The call that the fault is about. -/
def kind (fault : Option Fault) : Option IoCall := fault.map Fault.call

theorem Fault.pass_cases (call : IoCall) (fault : Option Fault) :
    (Fault.pass call fault = none ∧ kind fault = some call) ∨
      ∃ fault', Fault.pass call fault = some fault' ∧ kind fault' = kind fault := by
  cases fault with
  | none => exact .inr ⟨none, rfl, rfl⟩
  | some fault =>
    obtain ⟨call', after⟩ := fault
    by_cases hcall : call' = call
    · subst hcall
      cases after with
      | zero => exact .inl ⟨if_pos rfl, rfl⟩
      | succ after => exact .inr ⟨some ⟨call', after⟩, if_pos rfl, rfl⟩
    · exact .inr ⟨some ⟨call', after⟩, if_neg hcall, rfl⟩

theorem Fault.passMany_cases (call : IoCall) : ∀ (n : ℕ) (fault : Option Fault),
    (Fault.passMany call n fault = none ∧ kind fault = some call) ∨
      ∃ fault', Fault.passMany call n fault = some fault' ∧ kind fault' = kind fault := by
  intro n
  induction n with
  | zero => exact fun fault => .inr ⟨fault, rfl, rfl⟩
  | succ n ih =>
    intro fault
    rcases Fault.pass_cases call fault with ⟨hnone, hkind⟩ | ⟨fault₁, hsome, hkind⟩
    · exact .inl ⟨by rw [Fault.passMany, hnone, Option.bind_none], hkind⟩
    · rw [Fault.passMany, hsome, Option.bind_some, ← hkind]
      exact ih fault₁

theorem Machine.call_cases (m : Machine) (call : IoCall) (fault : Option Fault) :
    (m.call call fault = .exception ⟨.osError, m⟩ ∧ kind fault = some call) ∨
      ∃ fault', m.call call fault = .ok fault' ∧ kind fault' = kind fault := by
  unfold Machine.call
  rcases Fault.pass_cases call fault with ⟨hnone, hkind⟩ | ⟨fault', hsome, hkind⟩
  · exact .inl ⟨by rw [hnone], hkind⟩
  · exact .inr ⟨fault', by rw [hsome], hkind⟩

theorem Machine.call_none (m : Machine) (call : IoCall) : m.call call none = .ok none := rfl

/-- A fault that is one of the merge. -/
def InMerge (fault : Option Fault) : Prop := kind fault = some .write ∨ kind fault = some .read

/-- What a pass that may raise has to do with the pass that does not. -/
inductive PassIo (w : ℕ) (f : UIdsStorage.Flush) (fault : Option Fault) :
    Option (Pass (UIdsStorage.Flush × Option Fault)
      (Except IStream (Bytes × IStream × Option Fault))) → Prop where
  | raised {fd : IStream} (hfd : fd.data = f.bdFd.data) (hkind : InMerge fault) :
    PassIo w f fault (some (.leave (.error fd)))
  | undefined (h : UIdsStorage.flushPass w f = none) : PassIo w f fault none
  | again {f' : UIdsStorage.Flush} {fault' : Option Fault}
    (h : UIdsStorage.flushPass w f = some (.again f')) (hfd : f'.bdFd.data = f.bdFd.data)
    (hkind : kind fault' = kind fault) : PassIo w f fault (some (.again (f', fault')))
  | leave {file : Bytes} {fd : IStream} {fault' : Option Fault}
    (h : UIdsStorage.flushPass w f = some (.leave file)) (hfd : fd.data = f.bdFd.data)
    (hkind : kind fault' = kind fault) : PassIo w f fault (some (.leave (.ok (file, fd, fault'))))

/-- **A pass does what it does without faults, or raises.** -/
theorem flushPassIo_cases (w : ℕ) (f : UIdsStorage.Flush) (fault : Option Fault) :
    PassIo w f fault (flushPassIo w (f, fault)) := by
  unfold flushPassIo
  simp only
  by_cases hempty : f.hddUidBytes.isEmpty = true
  · rw [if_pos hempty]
    cases hrest : f.ramUids.mapM (toBytes w) with
    | none =>
      apply PassIo.undefined
      simp [UIdsStorage.flushPass, hempty, hrest]
    | some rest =>
      rw [Option.bind_eq_bind, Option.bind_some]
      rcases Fault.passMany_cases .write (rest.length + 1) fault with
        ⟨hnone, hkind⟩ | ⟨fault', hsome, hkind⟩
      · rw [hnone]
        exact .raised rfl (.inl hkind)
      · rw [hsome]
        refine .leave ?_ rfl hkind
        simp [UIdsStorage.flushPass, hempty, hrest]
  · rw [if_neg hempty]
    rcases Fault.pass_cases .write fault with ⟨hnone, hkind⟩ | ⟨fault₁, hsome, hkind₁⟩
    · rw [hnone]
      exact .raised rfl (.inl hkind)
    rw [hsome]
    simp only
    by_cases hle : f.ramUidBytes ≤ f.hddUidBytes
    · rw [if_pos hle]
      cases hram : f.ramUids with
      | nil =>
        simp only
        rcases Fault.pass_cases .write fault₁ with ⟨hnone₁, hkind⟩ | ⟨fault₂, hsome₁, hkind₂⟩
        · rw [hnone₁, Option.bind_none]
          exact .raised rfl (.inl (hkind₁ ▸ hkind))
        rw [hsome₁, Option.bind_some]
        rcases Fault.pass_cases .read fault₂ with ⟨hnone₂, hkind⟩ | ⟨fault₃, hsome₂, hkind₃⟩
        · rw [hnone₂]
          exact .raised rfl (.inr (hkind₁ ▸ hkind₂ ▸ hkind))
        rw [hsome₂]
        simp only
        rcases Fault.pass_cases .write fault₃ with ⟨hnone₃, hkind⟩ | ⟨fault₄, hsome₃, hkind₄⟩
        · rw [hnone₃]
          exact .raised rfl (.inl (hkind₁ ▸ hkind₂ ▸ hkind₃ ▸ hkind))
        · rw [hsome₃]
          refine .leave ?_ rfl (hkind₄.trans (hkind₃.trans (hkind₂.trans hkind₁)))
          simp [UIdsStorage.flushPass, hempty, hle, hram, IStream.readUpTo]
      | cons uid ramUids =>
        simp only
        cases hbytes : toBytes w uid with
        | none =>
          apply PassIo.undefined
          simp [UIdsStorage.flushPass, hempty, hle, hram, hbytes]
        | some ramUidBytes =>
          refine .again ?_ rfl hkind₁
          simp [UIdsStorage.flushPass, hempty, hle, hram, hbytes]
    · rw [if_neg hle]
      rcases Fault.pass_cases .read fault₁ with ⟨hnone₁, hkind⟩ | ⟨fault₂, hsome₁, hkind₂⟩
      · rw [hnone₁]
        exact .raised rfl (.inr (hkind₁ ▸ hkind))
      · rw [hsome₁]
        refine .again ?_ rfl (hkind₂.trans hkind₁)
        simp [UIdsStorage.flushPass, hempty, hle]

/-- **The merge does what it does without faults, or raises.** -/
theorem iterate_flushPassIo {w : ℕ} (fuel : ℕ) : ∀ (f : UIdsStorage.Flush) (fault : Option Fault)
    {merged : Except IStream (Bytes × IStream × Option Fault)},
    iterate (flushPassIo w) fuel (f, fault) = some merged →
      (∃ fd, merged = .error fd ∧ fd.data = f.bdFd.data ∧ InMerge fault) ∨
      ∃ file fd fault', merged = .ok (file, fd, fault') ∧ fd.data = f.bdFd.data ∧
        kind fault' = kind fault ∧ iterate (UIdsStorage.flushPass w) fuel f = some file := by
  induction fuel with
  | zero =>
    intro f fault merged h
    cases h
  | succ fuel ih =>
    intro f fault merged h
    rw [iterate] at h
    have hcases := flushPassIo_cases w f fault
    generalize flushPassIo w (f, fault) = pass at h hcases
    cases hcases with
    | raised hfd hkind =>
      cases h
      exact .inl ⟨_, rfl, hfd, hkind⟩
    | undefined => cases h
    | again hpass hfd hkind =>
      rw [iterate_again hpass]
      unfold InMerge
      rw [← hfd, ← hkind]
      exact ih _ _ h
    | leave hpass hfd hkind =>
      cases h
      exact .inr ⟨_, _, _, rfl, hfd, hkind, iterate_leave hpass⟩

/-- Without a fault nothing raises. -/
theorem iterate_flushPassIo_none {w : ℕ} (fuel : ℕ) : ∀ (f : UIdsStorage.Flush) {file : Bytes},
    iterate (UIdsStorage.flushPass w) fuel f = some file →
      ∃ fd, iterate (flushPassIo w) fuel (f, none) = some (.ok (file, fd, none)) := by
  have hnone : ∀ {fault : Option Fault}, kind fault = kind none → fault = none := by
    intro fault hkind
    exact Option.map_eq_none_iff.mp hkind
  induction fuel with
  | zero =>
    intro f file h
    cases h
  | succ fuel ih =>
    intro f file h
    rw [iterate] at h
    have hcases := flushPassIo_cases w f none
    generalize hpassIo : flushPassIo w (f, none) = pass at hcases
    cases hcases with
    | raised _ hkind => rcases hkind with hkind | hkind <;> cases hkind
    | undefined hpass =>
      rw [hpass] at h
      cases h
    | again hpass _ hkind =>
      rw [hpass] at h
      rw [hnone hkind] at hpassIo
      rw [iterate_again hpassIo]
      exact ih _ h
    | leave hpass _ hkind =>
      rw [hpass] at h
      cases h
      rw [hnone hkind] at hpassIo
      exact ⟨_, iterate_leave hpassIo⟩

/-! ## What a flush leaves behind -/

/-- `bd_fd` is open, on the file that the path names. -/
structure Machine.Open (m : Machine) : Prop where
  closed : m.closed = false
  file : m.bdFile = m.storage.bdFd.data

/-- How the merge ends. -/
inductive MergeEnds (fuel : ℕ) (m : Machine) (fault : Option Fault) :
    Outcome Raised (Bytes × Machine × Option Fault) → Prop where
  | ok {tmpFile : Bytes} {fd : IStream} {fault' : Option Fault}
    (hfd : fd.data = m.storage.bdFd.data) (hkind : kind fault' = kind fault)
    (hflush : m.storage.flushToDisk fuel
      = some { m.storage with ramUids := ∅, bdFd := ⟨tmpFile, 0⟩ }) :
    MergeEnds fuel m fault (.ok (tmpFile, m.setFd fd, fault'))
  | raised {call : IoCall} {fd : IStream} (hfd : fd.data = m.storage.bdFd.data)
    (hkind : kind fault = some call)
    (hcall : call ≠ .closeBd ∧ call ≠ .rename ∧ call ≠ .reopen) :
    MergeEnds fuel m fault (.exception ⟨.osError, m.setFd fd⟩)
  | undefined : MergeEnds fuel m fault .undefined

/-- **The merge, call by call**: an exception leaves another position, and nothing else. -/
theorem Machine.mergeTmp_ends (fuel : ℕ) (m : Machine) {uid : ℕ} {ramUids : List ℕ}
    (hsort : m.storage.ramUids.sort = uid :: ramUids) (fault : Option Fault) :
    MergeEnds fuel m fault (m.mergeTmp fuel uid ramUids fault) := by
  unfold Machine.mergeTmp
  rcases m.call_cases .seek fault with ⟨hraised, hkind⟩ | ⟨fault₁, hok, hkind₁⟩
  · rw [hraised]
    exact @MergeEnds.raised _ _ _ _ m.storage.bdFd rfl hkind (by decide)
  rw [hok, Outcome.ok_bind]
  generalize hseek : m.setFd (m.storage.bdFd.seek 0) = m₁
  dsimp only
  rcases m₁.call_cases .openTmp fault₁ with ⟨hraised, hkind⟩ | ⟨fault₂, hok, hkind₂⟩
  · rw [hraised, ← hseek]
    exact .raised rfl (hkind₁ ▸ hkind) (by decide)
  rw [hok, Outcome.ok_bind]
  rcases m₁.call_cases .read fault₂ with ⟨hraised, hkind⟩ | ⟨fault₃, hok, hkind₃⟩
  · rw [hraised, ← hseek]
    exact .raised rfl (hkind₁ ▸ hkind₂ ▸ hkind) (by decide)
  rw [hok, Outcome.ok_bind, ← hseek]
  have hkind₃ : kind fault₃ = kind fault := hkind₃.trans (hkind₂.trans hkind₁)
  cases hbytes : toBytes m.storage.uidSize uid with
  | none =>
    simp only [Machine.setFd, hbytes]
    exact .undefined
  | some ramUidBytes =>
  simp only [Machine.setFd, hbytes, Outcome.ofOption_some, Outcome.ok_bind]
  generalize hstart : UIdsStorage.Flush.mk [] ramUidBytes ramUids
    ((m.storage.bdFd.seek 0).readUpTo m.storage.uidSize).1
    ((m.storage.bdFd.seek 0).readUpTo m.storage.uidSize).2 = start
  have hstartFd : start.bdFd.data = m.storage.bdFd.data := by
    rw [← hstart]
    rfl
  cases hloop : iterate (flushPassIo m.storage.uidSize) fuel (start, fault₃) with
  | none => exact .undefined
  | some merged =>
  rw [Outcome.ofOption_some, Outcome.ok_bind]
  rcases iterate_flushPassIo fuel start fault₃ hloop with
    ⟨fd, rfl, hfd, hkind⟩ | ⟨file, fd, fault₄, rfl, hfd, hkind₄, hmerge⟩
  · rcases hkind with hkind | hkind
    · exact .raised (hfd.trans hstartFd) (hkind₃ ▸ hkind) (by decide)
    · exact .raised (hfd.trans hstartFd) (hkind₃ ▸ hkind) (by decide)
  simp only
  rcases (m.setFd fd).call_cases .closeTmp fault₄ with ⟨hraised, hkind⟩ | ⟨fault₅, hok, hkind₅⟩
  · unfold Machine.setFd at hraised
    rw [hraised]
    exact .raised (hfd.trans hstartFd) (hkind₃ ▸ hkind₄ ▸ hkind) (by decide)
  unfold Machine.setFd at hok
  rw [hok, Outcome.ok_bind]
  refine .ok (hfd.trans hstartFd) (hkind₅.trans (hkind₄.trans hkind₃)) ?_
  unfold UIdsStorage.flushToDisk
  rw [hsort]
  simp only [hbytes, Option.bind_eq_bind, Option.bind_some, hstart, hmerge, Option.pure_def]

/-- What an exception leaves behind, by the call that raised it. -/
inductive Leaves (fuel : ℕ) (m : Machine) : Option IoCall → Machine → Prop where
  | before {call : IoCall} {fd : IStream} (hfd : fd.data = m.storage.bdFd.data)
    (hcall : call ≠ .closeBd ∧ call ≠ .rename ∧ call ≠ .reopen) :
    Leaves fuel m (some call) (m.setFd fd)
  | closeBd {fd : IStream} (hfd : fd.data = m.storage.bdFd.data) :
    Leaves fuel m (some .closeBd) { m.setFd fd with closed := true }
  | rename {fd : IStream} (hfd : fd.data = m.storage.bdFd.data) :
    Leaves fuel m (some .rename)
      { storage := { (m.setFd fd).storage with ramUids := ∅ }, bdFile := m.bdFile, closed := true }
  | reopen {fd : IStream} {tmpFile : Bytes} (hflush : m.storage.flushToDisk fuel
      = some { m.storage with ramUids := ∅, bdFd := ⟨tmpFile, 0⟩ }) :
    Leaves fuel m (some .reopen)
      { storage := { (m.setFd fd).storage with ramUids := ∅ }, bdFile := tmpFile, closed := true }

/-- How a flush ends. -/
inductive FlushEnds (fuel : ℕ) (m : Machine) (fault : Option Fault) :
    Outcome Raised Machine → Prop where
  | ok {s' : UIdsStorage} (hflush : m.storage.flushToDisk fuel = some s') :
    FlushEnds fuel m fault (.ok ⟨s', s'.bdFd.data, false⟩)
  | raised {m' : Machine} (hram : m.storage.ramUids ≠ ∅) (hleaves : Leaves fuel m (kind fault) m') :
    FlushEnds fuel m fault (.exception ⟨.osError, m'⟩)
  | undefined : FlushEnds fuel m fault .undefined

theorem Machine.install_ends {fuel : ℕ} {m : Machine} (hram : m.storage.ramUids ≠ ∅) {fd : IStream}
    (hfd : fd.data = m.storage.bdFd.data) {tmpFile : Bytes}
    (hflush : m.storage.flushToDisk fuel
      = some { m.storage with ramUids := ∅, bdFd := ⟨tmpFile, 0⟩ })
    {fault fault' : Option Fault} (hkind : kind fault' = kind fault) :
    FlushEnds fuel m fault ((m.setFd fd).install tmpFile fault') := by
  unfold Machine.install
  dsimp only
  rcases Machine.call_cases { m.setFd fd with closed := true } .closeBd fault' with
    ⟨hraised, hcall⟩ | ⟨fault₁, hok, hkind₁⟩
  · rw [hraised]
    apply FlushEnds.raised hram
    rw [← hkind, hcall]
    exact .closeBd hfd
  rw [hok, Outcome.ok_bind]
  rcases Machine.call_cases { m.setFd fd with
      storage := { (m.setFd fd).storage with ramUids := ∅ }, closed := true } .rename fault₁ with
    ⟨hraised, hcall⟩ | ⟨fault₂, hok, hkind₂⟩
  · rw [hraised]
    apply FlushEnds.raised hram
    rw [← hkind, ← hkind₁, hcall]
    exact .rename hfd
  rw [hok, Outcome.ok_bind]
  rcases Machine.call_cases { m.setFd fd with
      storage := { (m.setFd fd).storage with ramUids := ∅ }, bdFile := tmpFile, closed := true }
      .reopen fault₂ with ⟨hraised, hcall⟩ | ⟨fault₃, hok, -⟩
  · rw [hraised]
    apply FlushEnds.raised hram
    rw [← hkind, ← hkind₁, ← hkind₂, hcall]
    exact .reopen hflush
  rw [hok, Outcome.ok_bind]
  exact .ok hflush

/-- **How a flush ends**, if `bd_fd` is open. -/
theorem Machine.flushToDisk_ends {m : Machine} (h : m.Open) (fuel : ℕ) (fault : Option Fault) :
    FlushEnds fuel m fault (m.flushToDisk fuel fault) := by
  unfold Machine.flushToDisk
  cases hsort : m.storage.ramUids.sort with
  | nil =>
    have hm : m = ⟨m.storage, m.storage.bdFd.data, false⟩ := by
      rw [← h.file, ← h.closed]
    have hflush : m.storage.flushToDisk fuel = some m.storage := by
      unfold UIdsStorage.flushToDisk
      rw [hsort]
    have hends : FlushEnds fuel m fault (.ok ⟨m.storage, m.storage.bdFd.data, false⟩) :=
      .ok hflush
    rwa [← hm] at hends
  | cons uid ramUids =>
    have hram : m.storage.ramUids ≠ ∅ := by
      intro hempty
      rw [hempty, Finset.sort_empty] at hsort
      cases hsort
    simp only [h.closed, Bool.false_eq_true, if_false]
    have hends := m.mergeTmp_ends fuel hsort fault
    generalize m.mergeTmp fuel uid ramUids fault = merged at hends
    cases hends with
    | ok hfd hkind hflush =>
      rw [Outcome.ok_bind]
      exact Machine.install_ends hram hfd hflush hkind
    | raised hfd hkind hcall =>
      rw [Outcome.exception_bind]
      apply FlushEnds.raised hram
      rw [hkind]
      exact .before hfd hcall
    | undefined => exact .undefined

/-- Without a fault a flush that comes to an end comes to it here too. -/
theorem Machine.flushToDisk_none {m : Machine} (h : m.Open) {fuel : ℕ} {s' : UIdsStorage}
    (hflush : m.storage.flushToDisk fuel = some s') :
    m.flushToDisk fuel none = .ok ⟨s', s'.bdFd.data, false⟩ := by
  have hdefined : m.flushToDisk fuel none ≠ .undefined := by
    unfold UIdsStorage.flushToDisk at hflush
    unfold Machine.flushToDisk
    cases hsort : m.storage.ramUids.sort with
    | nil => exact fun h => by cases h
    | cons uid ramUids =>
      simp only [hsort, Option.bind_eq_bind, Option.bind_eq_some_iff] at hflush
      obtain ⟨ramUidBytes, hbytes, file, hloop, -⟩ := hflush
      obtain ⟨fd, hloop⟩ := iterate_flushPassIo_none fuel _ hloop
      simp only [h.closed, Bool.false_eq_true, if_false, Machine.mergeTmp, Machine.call_none,
        Outcome.ok_bind, Machine.setFd, hbytes, Outcome.ofOption_some, hloop]
      exact fun h => by cases h
  have hends := Machine.flushToDisk_ends h fuel none
  generalize m.flushToDisk fuel none = result at hends hdefined
  cases hends with
  | ok hflush' =>
    rw [hflush] at hflush'
    cases hflush'
    rfl
  | raised _ hleaves => cases hleaves
  | undefined => exact absurd rfl hdefined

/-! ## Every state that is reached -/

/-- A search moves the position of the file and no more. -/
theorem isAtHdd_data {s s' : UIdsStorage} {fuel uid : ℕ} {exist : Bool}
    (h : s.isAtHdd fuel uid = some (exist, s')) : s'.bdFd.data = s.bdFd.data := by
  simp only [UIdsStorage.isAtHdd, Option.bind_eq_bind, Option.bind_eq_some_iff, Option.pure_def,
    Option.some.injEq, Prod.mk.injEq] at h
  obtain ⟨val, -, ⟨exist', fd⟩, hsearch, -, rfl⟩ := h
  refine iterate_inv (fun c => c.2.2.data = s.bdFd.data) (fun r => r.2.data = s.bdFd.data) ?_ ?_
    rfl hsearch
  · rintro ⟨lPos, rPos, fd⟩ c' hfd hpass
    unfold UIdsStorage.isAtHddPass at hpass
    simp only at hpass
    split_ifs at hpass <;> cases hpass <;> exact hfd
  · rintro ⟨lPos, rPos, fd⟩ r hfd hpass
    unfold UIdsStorage.isAtHddPass at hpass
    simp only at hpass
    split_ifs at hpass <;> cases hpass <;> exact hfd

theorem contains_data {s s' : UIdsStorage} {fuel uid : ℕ} {exist : Bool}
    (h : s.contains fuel uid = some (exist, s')) :
    s'.bdFd.data = s.bdFd.data ∧ ∃ fd, s' = { s with bdFd := fd } := by
  unfold UIdsStorage.contains at h
  split_ifs at h
  · cases h
    exact ⟨rfl, _, rfl⟩
  · cases h
    exact ⟨rfl, _, rfl⟩
  · refine ⟨isAtHdd_data h, ?_⟩
    simp only [UIdsStorage.isAtHdd, Option.bind_eq_bind, Option.bind_eq_some_iff, Option.pure_def,
      Option.some.injEq, Prod.mk.injEq] at h
    obtain ⟨-, -, ⟨-, fd⟩, -, -, rfl⟩ := h
    exact ⟨fd, rfl⟩

theorem add_data {s s' : UIdsStorage} {fuel uid : ℕ} {result : Bool}
    (h : s.add fuel uid = some (result, s')) : s'.bdFd.data = s.bdFd.data := by
  simp only [UIdsStorage.add, Option.bind_eq_bind, Option.bind_eq_some_iff] at h
  obtain ⟨⟨exist, s₁⟩, hcontains, h⟩ := h
  obtain ⟨hdata, -⟩ := contains_data hcontains
  cases exist <;> cases h <;> exact hdata

/-- What holds of a machine between operations: once `bd_fd` is closed, nothing is asked. -/
def Machine.Sound (m : Machine) : Prop := m.closed = true ∨ (m.Open ∧ ∃ a, Refines m.storage a)

theorem Machine.Sound.init {uidSize : ℕ} (hsize : 1 ≤ uidSize) {hdd : List ℕ}
    (hinc : hdd.Pairwise (· < ·)) (hbelow : ∀ uid ∈ hdd, uid < 256 ^ uidSize) (maxCnt : ℤ) :
    (Machine.init uidSize (records uidSize hdd) maxCnt).Sound :=
  .inr ⟨⟨rfl, rfl⟩, _, init_refines hsize hinc hbelow maxCnt⟩

theorem Refines.setFd {s : UIdsStorage} {a : UIdSet} (h : Refines s a) {fd : IStream}
    (hfd : fd.data = s.bdFd.data) : Refines { s with bdFd := fd } a := by
  obtain ⟨hdd, hh, hadd, hcom⟩ := h
  exact ⟨hdd, hh.setFd (hfd.trans hh.file), hadd, hcom⟩

/-- An end in which the machine is sound, with an answer or with an exception. -/
def EndsSound {α : Type} (machine : α → Machine) (result : Outcome Raised α) : Prop :=
  result.Ends (fun r => (machine r).Sound) fun r => r.machine.Sound

theorem Machine.Sound.leaves {m m' : Machine} (h : m.Open) {a : UIdSet}
    (href : Refines m.storage a) {fuel : ℕ} {call : Option IoCall}
    (hleaves : Leaves fuel m call m') : m'.Sound := by
  cases hleaves with
  | before hfd _ => exact .inr ⟨⟨h.closed, h.file.trans hfd.symm⟩, a, href.setFd hfd⟩
  | closeBd => exact .inl rfl
  | rename => exact .inl rfl
  | reopen => exact .inl rfl

theorem Machine.Sound.flushToDisk {m : Machine} (h : m.Sound) (fault : Option Fault) :
    EndsSound id (m.flushToDisk m.storage.fuel fault) := by
  rcases h with hclosed | ⟨hopen, a, href⟩
  · unfold Machine.flushToDisk
    cases m.storage.ramUids.sort with
    | nil => exact .inl hclosed
    | cons uid ramUids =>
      simp only [hclosed, if_true]
      exact .inl hclosed
  · have hends := Machine.flushToDisk_ends hopen m.storage.fuel fault
    generalize m.flushToDisk m.storage.fuel fault = result at hends
    cases hends with
    | ok hflush => exact .inr ⟨⟨rfl, rfl⟩, a, href.flushToDisk hflush⟩
    | raised _ hleaves => exact Machine.Sound.leaves hopen href hleaves
    | undefined => trivial

/-- A search that leaves a storage of uids, on the same file. -/
theorem Machine.Sound.searching {m : Machine} (h : m.Sound) {uid : ℕ}
    {search : UIdsStorage → Option (Bool × UIdsStorage)}
    (hsearch : ∀ s a result s', Refines s a → search s = some (result, s') →
      s'.bdFd.data = s.bdFd.data ∧ ∃ a', Refines s' a') :
    EndsSound Prod.snd (m.searching uid search) := by
  unfold Machine.searching
  split_ifs with hraise
  · exact .inl hraise.1
  cases hfound : search { m.storage with bdFd := ⟨m.bdFile, m.storage.bdFd.pos⟩ } with
  | none => trivial
  | some found =>
    obtain ⟨result, s'⟩ := found
    rcases h with hclosed | ⟨hopen, a, href⟩
    · exact .inl hclosed
    · obtain ⟨hdata, a', href'⟩ := hsearch _ a _ _ (href.setFd hopen.file) hfound
      exact .inr ⟨⟨hopen.closed, hdata.symm⟩, a', href'⟩

theorem Machine.Sound.contains {m : Machine} (h : m.Sound) (uid : ℕ) :
    EndsSound Prod.snd (m.contains uid) := by
  apply h.searching
  intro s a exist s' href hfound
  obtain ⟨hdata, fd, rfl⟩ := contains_data hfound
  exact ⟨hdata, a, href.setFd hdata⟩

theorem Machine.Sound.add {m : Machine} (h : m.Sound) (uid : ℕ) :
    EndsSound Prod.snd (m.add uid) := by
  apply h.searching
  intro s a result s' href hfound
  exact ⟨add_data hfound, _, (href.add hfound).2⟩

theorem Machine.Sound.commit {m : Machine} (h : m.Sound) (uid : ℕ) (fault : Option Fault) :
    EndsSound Prod.snd (m.commit uid fault) := by
  unfold Machine.commit
  split_ifs with hproc
  · have hmoved : Machine.Sound { m with storage := { m.storage with
        procUids := m.storage.procUids.erase uid, ramUids := insert uid m.storage.ramUids } } := by
      rcases h with hclosed | ⟨hopen, a, hdd, hh, -, -⟩
      · exact .inl hclosed
      · exact .inr ⟨⟨hopen.closed, hopen.file⟩, ⟨_, _⟩, hdd, hh.commit hproc, rfl, rfl⟩
    dsimp only
    split_ifs
    · exact (hmoved.flushToDisk fault).bind fun _ hm => hm
    · exact hmoved
  · exact h

/-- **Every operation leaves a sound machine**, whether it raises or not. -/
theorem Machine.Sound.step {m : Machine} (h : m.Sound) (op : Op) (fault : Option Fault) :
    EndsSound Prod.snd (m.step op fault) := by
  cases op with
  | add uid => exact (h.add uid).bind fun _ hm => hm
  | commit uid => exact (h.commit uid fault).bind fun _ hm => hm
  | flushToDisk => exact (h.flushToDisk fault).bind fun _ hm => hm
  | contains uid => exact (h.contains uid).bind fun _ hm => hm
  | len => exact h

/-- The states that a storage on a file of increasing records comes to, through operations that
come to an end or raise. -/
inductive Reached : Machine → Prop where
  | init {uidSize : ℕ} (hsize : 1 ≤ uidSize) {hdd : List ℕ} (hinc : hdd.Pairwise (· < ·))
    (hbelow : ∀ uid ∈ hdd, uid < 256 ^ uidSize) (maxCnt : ℤ) :
    Reached (.init uidSize (records uidSize hdd) maxCnt)
  | step {m m' : Machine} (h : Reached m) {op : Op} {fault : Option Fault} {reply : Reply}
    (hstep : m.step op fault = .ok (reply, m')) : Reached m'
  | raised {m : Machine} (h : Reached m) {op : Op} {fault : Option Fault} {r : Raised}
    (hstep : m.step op fault = .exception r) : Reached r.machine

theorem Reached.sound {m : Machine} (h : Reached m) : m.Sound := by
  induction h with
  | init hsize hinc hbelow maxCnt => exact .init hsize hinc hbelow maxCnt
  | @step _ _ _ op fault _ hstep ih =>
    have hends := ih.step op fault
    rw [hstep] at hends
    exact hends
  | @raised _ _ op fault _ hstep ih =>
    have hends := ih.step op fault
    rw [hstep] at hends
    exact hends

/-! ## What a failed flush loses -/

/-- More fuel changes nothing about a flush. -/
theorem UIdsStorage.flushToDisk_mono {s s' : UIdsStorage} {fuel fuel' : ℕ} (hle : fuel ≤ fuel')
    (h : s.flushToDisk fuel = some s') : s.flushToDisk fuel' = some s' := by
  unfold UIdsStorage.flushToDisk at h ⊢
  cases hsort : s.ramUids.sort with
  | nil =>
    rw [hsort] at h
    exact h
  | cons uid ramUids =>
    simp only [hsort, Option.bind_eq_bind, Option.bind_eq_some_iff] at h ⊢
    obtain ⟨ramUidBytes, hbytes, file, hloop, h⟩ := h
    exact ⟨ramUidBytes, hbytes, file, iterate_mono (fun _ _ hpass => hpass) hle hloop, h⟩

/-- **A failed flush has done no harm**: the file and both sets in RAM are what they were, and a
later flush that succeeds writes the uids of the file, `hdd`, and those in `ram_uids`; if `bd_fd` is
open still, a flush without faults does succeed. -/
structure Unharmed (hdd : List ℕ) (m m' : Machine) : Prop where
  file : m'.bdFile = m.bdFile
  proc : m'.storage.procUids = m.storage.procUids
  ram : m'.storage.ramUids = m.storage.ramUids
  later : ∀ fuel fault m'', m'.flushToDisk fuel fault = .ok m'' →
    ∃ hdd', m''.bdFile = records m.storage.uidSize hdd' ∧ hdd'.Pairwise (· < ·) ∧
      hdd'.toFinset = m.storage.ramUids ∪ hdd.toFinset
  again : m'.closed = false → ∃ m'', m'.flushToDisk m'.storage.fuel none = .ok m''

/-- What a flush of an open machine writes. -/
theorem Machine.Open.written {m m' : Machine} (h : m.Open) {hdd : List ℕ}
    (hh : Holds m.storage hdd) {fuel : ℕ} {fault : Option Fault}
    (hflush : m.flushToDisk fuel fault = .ok m') :
    ∃ hdd', m'.bdFile = records m.storage.uidSize hdd' ∧ hdd'.Pairwise (· < ·) ∧
      hdd'.toFinset = m.storage.ramUids ∪ hdd.toFinset := by
  have hends := m.flushToDisk_ends h fuel fault
  rw [hflush] at hends
  cases hends with
  | @ok s' hstorage =>
    obtain ⟨s'', hdd', hmore, hh', -, hsize, -, hunion⟩ := flushToDisk_eq hh
      (Nat.lt_of_lt_of_le (Nat.lt_succ_self _) (Nat.le_add_left _ fuel))
    rw [UIdsStorage.flushToDisk_mono (Nat.le_add_right fuel _) hstorage, Option.some.injEq] at hmore
    subst hmore
    exact ⟨hdd', hsize ▸ hh'.file, hh'.increasing, hunion⟩

/-- An exception before `bd_fd` is closed does no harm. -/
theorem Unharmed.before {m : Machine} (h : m.Open) {hdd : List ℕ} (hh : Holds m.storage hdd)
    {fd : IStream} (hfd : fd.data = m.storage.bdFd.data) : Unharmed hdd m (m.setFd fd) := by
  have hopen : (m.setFd fd).Open := ⟨h.closed, h.file.trans hfd.symm⟩
  have hholds : Holds (m.setFd fd).storage hdd := hh.setFd (hfd.trans hh.file)
  have href : Refines (m.setFd fd).storage ⟨_, _⟩ := ⟨hdd, hholds, rfl, rfl⟩
  refine ⟨rfl, rfl, rfl, fun fuel fault m'' hflush => hopen.written hholds hflush, fun _ => ?_⟩
  obtain ⟨s', hflush, -, -⟩ := flushToDisk_refines href (href.fuel_gt 0).1
  exact ⟨_, Machine.flushToDisk_none hopen hflush⟩

/-- Nor does one while it is being closed, but nothing is flushed afterwards. -/
theorem Unharmed.closeBd {m : Machine} {hdd : List ℕ} (hram : m.storage.ramUids ≠ ∅)
    (fd : IStream) : Unharmed hdd m { m.setFd fd with closed := true } := by
  refine ⟨rfl, rfl, rfl, ?_, fun hopen => by cases hopen⟩
  intro fuel fault m'' hflush
  have hsort : m.storage.ramUids.sort ≠ [] := by
    intro hnil
    rw [← List.length_eq_zero_iff, Finset.length_sort, Finset.card_eq_zero] at hnil
    exact hram hnil
  obtain ⟨uid, ramUids, hcons⟩ := List.exists_cons_of_ne_nil hsort
  unfold Machine.flushToDisk Machine.setFd at hflush
  simp only [hcons, if_true] at hflush
  cases hflush

/-- **A failed flush does no harm exactly if it is not the renaming that fails**, or the opening
behind it. Before a flush in any state that is reached the file holds increasing records; where the
flush raises `OSError`, everything is as it was unless `ram_uids` had been cleared. -/
theorem failedFlush_unharmed_iff {m : Machine} (h : Reached m) {fuel : ℕ} {fault : Fault}
    {m' : Machine} (hfails : m.flushToDisk fuel (some fault) = .exception ⟨.osError, m'⟩) :
    ∃ hdd, m.bdFile = records m.storage.uidSize hdd ∧ hdd.Pairwise (· < ·) ∧
      (Unharmed hdd m m' ↔ fault.call ≠ .rename ∧ fault.call ≠ .reopen) := by
  rcases h.sound with hclosed | ⟨hopen, a, hdd, hh, -, -⟩
  · -- A closed `bd_fd` raises another exception.
    unfold Machine.flushToDisk at hfails
    cases hsort : m.storage.ramUids.sort with
    | nil => simp [hsort] at hfails
    | cons uid ramUids => simp [hsort, hclosed] at hfails
  refine ⟨hdd, hopen.file.trans hh.file, hh.increasing, ?_⟩
  have hends := m.flushToDisk_ends hopen fuel (some fault)
  rw [hfails] at hends
  cases hends with
  | raised hram hleaves =>
  have hkind : kind (some fault) = some fault.call := rfl
  rw [hkind] at hleaves
  generalize fault.call = call at hleaves
  cases hleaves with
  | before hfd hcall =>
    constructor
    · exact fun _ => hcall.2
    · exact fun _ => Unharmed.before hopen hh hfd
  | closeBd hfd =>
    constructor
    · exact fun _ => by decide
    · exact fun _ => Unharmed.closeBd hram _
  | rename hfd =>
    constructor
    · exact fun hunharmed => absurd hunharmed.ram.symm hram
    · exact fun hcall => absurd rfl hcall.1
  | reopen hflush =>
    constructor
    · exact fun hunharmed => absurd hunharmed.ram.symm hram
    · exact fun hcall => absurd rfl hcall.2

/-- Records of one byte: the uid 5 has been committed and is in RAM. -/
def fiveInRam : Machine where
  storage := { procUids := ∅, ramUids := {5}, maxCnt := 10, uidSize := 1, bdFd := ⟨[], 0⟩ }
  bdFile := []
  closed := false

theorem fiveInRam_reached : Reached fiveInRam := by
  have hadd : (Machine.init 1 (records 1 []) 10).step (.add 5) none
      = .ok (.bool true, { fiveInRam with storage :=
          { fiveInRam.storage with procUids := {5}, ramUids := ∅ } }) := by
    decide +kernel
  have hcommit : Machine.step { fiveInRam with storage :=
      { fiveInRam.storage with procUids := {5}, ramUids := ∅ } } (.commit 5) none
        = .ok (.none, fiveInRam) := by
    decide +kernel
  have hinit := Reached.init (Nat.le_refl 1) (List.Pairwise.nil (R := (· < ·)))
    (fun uid huid => absurd huid List.not_mem_nil) 10
  exact (hinit.step hadd).step hcommit

theorem fiveInRam_rename : fiveInRam.flushToDisk 100 (some ⟨.rename, 0⟩)
    = .exception ⟨.osError,
      { fiveInRam with storage := { fiveInRam.storage with ramUids := ∅ }, closed := true }⟩ := by
  decide +kernel

theorem failedFlush_unharmed_iff_five : ∃ m',
    fiveInRam.flushToDisk 100 (some ⟨.openTmp, 0⟩) = .exception ⟨.osError, m'⟩ ∧
      ∃ hdd, fiveInRam.bdFile = records 1 hdd ∧ hdd.Pairwise (· < ·) ∧
        (Unharmed hdd fiveInRam m' ↔ IoCall.openTmp ≠ .rename ∧ IoCall.openTmp ≠ .reopen) := by
  have hfails : fiveInRam.flushToDisk 100 (some ⟨.openTmp, 0⟩)
      = .exception ⟨.osError, fiveInRam⟩ := by
    decide +kernel
  exact ⟨_, hfails, failedFlush_unharmed_iff fiveInRam_reached hfails⟩

/-- Not every failed flush is harmless: where the renaming fails, the uid 5 is neither in the file
nor in RAM. -/
theorem not_failedFlush_unharmed : ¬ ∀ m, Reached m → ∀ fuel fault m',
    m.flushToDisk fuel (some fault) = .exception ⟨.osError, m'⟩ →
      ∃ hdd, m.bdFile = records m.storage.uidSize hdd ∧ Unharmed hdd m m' := by
  intro hall
  obtain ⟨hdd, -, hunharmed⟩ := hall fiveInRam fiveInRam_reached 100 _ _ fiveInRam_rename
  exact absurd hunharmed.ram (by decide)

end Amigos.Spider
