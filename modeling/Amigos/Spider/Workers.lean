import Amigos.Spider.System

/-!
# The list of workers (`Spider.putWorkersInOrder`)

The workers that have died are taken out of the list in place. A live one is moved to the front by
as many places as there are dead ones in front of it, and as many places are cut off at the end.

`Compacted` says what the list looks like in the middle of that loop: the live workers it has
passed, as many places that no longer matter as it has passed dead ones, and the rest as it was. The
machine takes a dead worker out of the list at once, which comes to the same
(`runFrom_putWorkersInOrder`).
-/

set_option autoImplicit false

namespace Amigos.Spider

open Amigos.Lib

/-! ## The source -/

section

variable {α : Type}

/-- The place that an index means; undefined is an `IndexError`. -/
def placeOf (xs : List α) (i : ℤ) : Option ℕ :=
  if 0 ≤ i ∧ i < xs.length then some i.toNat
  else if -xs.length ≤ i ∧ i < 0 then some (i + xs.length).toNat
  else none

/-- `xs[i]`. -/
def getItem (xs : List α) (i : ℤ) : Option α := do xs[← placeOf xs i]?

/-- `xs[i] = x`. -/
def setItem (xs : List α) (i : ℤ) (x : α) : Option (List α) := do
  return xs.set (← placeOf xs i) x

/-- `xs[-n:] = []`. -/
def cutLast (xs : List α) (n : ℕ) : List α := xs.take (xs.length - n)

/-- `self.workers` and `died_cnt`. -/
structure Compaction (α : Type) where
  workers : List α
  diedCnt : ℕ

/-- `self.workers` behind the first statement of a round. -/
def Compaction.shifted (c : Compaction α) (i : ℕ) : Option (List α) :=
  if c.diedCnt ≠ 0 then do
    let worker ← getItem c.workers i
    setItem c.workers ((i : ℤ) - c.diedCnt) worker
  else some c.workers

/-- A round of the first loop. -/
def compactRound (isAlive : α → Bool) (c : Compaction α) (i : ℕ) : Option (Compaction α) := do
  let workers ← c.shifted i
  let worker ← getItem workers i
  return { workers, diedCnt := if isAlive worker then c.diedCnt else c.diedCnt + 1 }

/-- What `putWorkersInOrder` does first. -/
def removeDied (isAlive : α → Bool) (workers : List α) : Option (List α) := do
  let c ← (List.range workers.length).foldlM (compactRound isAlive) ⟨workers, 0⟩
  return if c.diedCnt ≠ 0 then cutLast c.workers c.diedCnt else c.workers

end

namespace State

/-- `is_alive()`. -/
def isAlive (s : State) (worker : ℕ) : Bool := !s.hasEnded worker

/-- `self.tasks_queue.put('finish')`. -/
def putFinish (s : State) : State :=
  { s with tasksQueue := s.tasksQueue ++ [finish] }.emit .finishPut

/-- A new worker is appended and started. -/
def startWorker (s : State) : State :=
  { s with workers := s.workers ++ [s.threads.length], threads := s.threads ++ [.idle] }

/-- `putWorkersInOrder`, while no worker dies. -/
def putWorkersInOrder (s : State) (workersCnt : ℤ) : Option State := do
  let workers ← removeDied s.isAlive s.workers
  let s := { s with workers }
  if (workers.length : ℤ) > workersCnt then
    return putFinish^[((workers.length : ℤ) - workersCnt).toNat] s
  else return startWorker^[(workersCnt - (workers.length : ℤ)).toNat] s

end State

/-! ## The loop over the list -/

section

variable {α : Type} {isAlive : α → Bool}

theorem placeOf_lt {xs : List α} {i : ℕ} (hi : i < xs.length) : placeOf xs i = some i := by
  rw [placeOf, if_pos ⟨Int.natCast_nonneg i, Int.ofNat_lt.mpr hi⟩, Int.toNat_natCast]

theorem getItem_append {i : ℕ} (front back : List α) (x : α) (hi : i = front.length) :
    getItem (front ++ x :: back) i = some x := by
  have hlt : i < (front ++ x :: back).length := by simp [hi]
  show (placeOf (front ++ x :: back) i).bind ((front ++ x :: back)[·]?) = some x
  rw [placeOf_lt hlt, Option.bind_some, List.getElem?_append_right (Nat.le_of_eq hi.symm), hi,
    Nat.sub_self]
  rfl

theorem setItem_append {i : ℤ} (front back : List α) (x y : α) (hi : i = front.length) :
    setItem (front ++ x :: back) i y = some (front ++ y :: back) := by
  have hlt : front.length < (front ++ x :: back).length := by simp
  show (placeOf (front ++ x :: back) i).bind (fun j => some ((front ++ x :: back).set j y)) = _
  rw [hi, placeOf_lt hlt, Option.bind_some, List.set_append_right _ _ (Nat.le_refl _),
    Nat.sub_self]
  rfl

/-- **The loop has passed some workers**: the live ones of them are in front, and behind them as
many places as there were dead ones. -/
structure Compacted (isAlive : α → Bool) (passed rest : List α) (c : Compaction α)
    (places : List α) : Prop where
  workers : c.workers = passed.filter isAlive ++ places ++ rest
  diedCnt : c.diedCnt = places.length
  length : (passed.filter isAlive).length + places.length = passed.length

/-- Behind the first statement the next worker stands behind the live ones, and also where it
was. -/
theorem Compacted.shifted {passed rest places : List α} {worker : α} {c : Compaction α}
    (h : Compacted isAlive passed (worker :: rest) c places) :
    ∃ more : List α, more.length = places.length ∧
      c.shifted passed.length = some (passed.filter isAlive ++ worker :: (more ++ rest)) ∧
      getItem (passed.filter isAlive ++ worker :: (more ++ rest)) passed.length
        = some worker := by
  have hlen := h.length
  cases places with
  | nil =>
    refine ⟨[], rfl, ?_, getItem_append _ _ _ hlen.symm⟩
    have hzero : c.diedCnt = 0 := h.diedCnt
    rw [Compaction.shifted, if_neg (not_not.mpr hzero), h.workers, List.append_nil]
    rfl
  | cons place places =>
    refine ⟨places ++ [worker], List.length_append, ?_, ?_⟩
    · have hget : getItem c.workers passed.length = some worker := by
        rw [h.workers]
        exact getItem_append _ _ _ (by rw [List.length_append, hlen])
      have hindex : (passed.length : ℤ) - c.diedCnt = (passed.filter isAlive).length := by
        rw [h.diedCnt, ← hlen]
        omega
      have hne : c.diedCnt ≠ 0 := by
        rw [h.diedCnt]
        exact Nat.succ_ne_zero _
      rw [Compaction.shifted, if_pos hne, hget, Option.bind_eq_bind, Option.bind_some, h.workers,
        List.append_assoc, List.cons_append, setItem_append _ _ place worker hindex,
        List.append_assoc]
      rfl
    · have hsplit : passed.filter isAlive ++ worker :: (places ++ [worker] ++ rest)
          = (passed.filter isAlive ++ worker :: places) ++ worker :: rest := by simp
      rw [hsplit]
      exact getItem_append _ _ _ (by rw [List.length_append, ← hlen]; rfl)

/-- **A round** passes one worker more. -/
theorem Compacted.round {passed rest places : List α} {worker : α} {c : Compaction α}
    (h : Compacted isAlive passed (worker :: rest) c places) :
    ∃ c' places', compactRound isAlive c passed.length = some c' ∧
      Compacted isAlive (passed ++ [worker]) rest c' places' := by
  obtain ⟨more, hmore, hshifted, hget⟩ := h.shifted
  have hround : compactRound isAlive c passed.length = some
      { workers := passed.filter isAlive ++ worker :: (more ++ rest)
        diedCnt := if isAlive worker then c.diedCnt else c.diedCnt + 1 } := by
    rw [compactRound, hshifted, Option.bind_eq_bind, Option.bind_some, hget]
    rfl
  have hlen := h.length
  refine ⟨_, if isAlive worker then more else worker :: more, hround, ?_⟩
  by_cases halive : isAlive worker = true
  · rw [if_pos halive, if_pos halive]
    have hfilter : (passed ++ [worker]).filter isAlive = passed.filter isAlive ++ [worker] := by
      rw [List.filter_append, List.filter_cons_of_pos halive, List.filter_nil]
    refine ⟨by simp [hfilter], h.diedCnt.trans hmore.symm, ?_⟩
    rw [hfilter, List.length_append, List.length_append, hmore, List.length_singleton]
    omega
  · rw [if_neg halive, if_neg halive]
    have hfilter : (passed ++ [worker]).filter isAlive = passed.filter isAlive := by
      rw [List.filter_append, List.filter_cons_of_neg halive, List.filter_nil, List.append_nil]
    refine ⟨by simp [hfilter], ?_, ?_⟩
    · rw [h.diedCnt, List.length_cons, hmore]
    · rw [hfilter, List.length_append, List.length_cons, hmore, List.length_singleton]
      omega

/-- The loop, from any round on. -/
theorem Compacted.foldlM {rest : List α} : ∀ {passed places : List α} {c : Compaction α},
    Compacted isAlive passed rest c places →
    ∃ c' places', (List.range' passed.length rest.length).foldlM (compactRound isAlive) c
        = some c' ∧ Compacted isAlive (passed ++ rest) [] c' places' := by
  induction rest with
  | nil =>
    intro passed places c h
    exact ⟨c, places, rfl, by rwa [List.append_nil]⟩
  | cons worker rest ih =>
    intro passed places c h
    obtain ⟨c₁, places₁, hround, hnext⟩ := h.round
    obtain ⟨c', places', hrest, hc'⟩ := ih hnext
    refine ⟨c', places', ?_, by rwa [List.append_assoc] at hc'⟩
    rw [List.length_append, List.length_singleton] at hrest
    rw [List.length_cons, List.range'_succ, List.foldlM_cons, hround]
    exact hrest

/-- **The live workers are left, in their order.** -/
theorem removeDied_eq (isAlive : α → Bool) (workers : List α) :
    removeDied isAlive workers = some (workers.filter isAlive) := by
  have hstart : Compacted isAlive [] workers ⟨workers, 0⟩ [] := ⟨rfl, rfl, rfl⟩
  obtain ⟨c, places, hrun, hc⟩ := hstart.foldlM
  have hworkers : c.workers = workers.filter isAlive ++ places := by
    rw [hc.workers, List.append_nil, List.nil_append]
  have hrun' : (List.range workers.length).foldlM (compactRound isAlive) ⟨workers, 0⟩ = some c := by
    rw [List.range_eq_range']
    exact hrun
  have hcut : cutLast c.workers c.diedCnt = workers.filter isAlive := by
    rw [cutLast, hc.diedCnt, hworkers, List.length_append, Nat.add_sub_cancel, List.take_left]
  rw [removeDied, hrun', Option.bind_eq_bind, Option.bind_some]
  split
  · exact congrArg some hcut
  · rename_i hzero
    -- There are no places to be cut off.
    rw [cutLast, not_not.mp hzero, Nat.sub_zero, List.take_length] at hcut
    exact congrArg some hcut

end

/-! ## Marks and new workers -/

namespace State

theorem iterate_putFinish (n : ℕ) (s : State) : putFinish^[n] s =
    { s with
      tasksQueue := s.tasksQueue ++ List.replicate n finish
      log := s.log ++ List.replicate n .finishPut } := by
  induction n with
  | zero => simp
  | succ n ih =>
    rw [Function.iterate_succ_apply', ih, putFinish, emit]
    simp only [List.append_assoc, ← List.replicate_succ']

theorem iterate_startWorker (n : ℕ) (s : State) : startWorker^[n] s =
    { s with
      workers := s.workers ++ List.range' s.threads.length n
      threads := s.threads ++ List.replicate n .idle } := by
  induction n with
  | zero => simp
  | succ n ih =>
    rw [Function.iterate_succ_apply', ih, startWorker]
    simp only [List.append_assoc, ← List.replicate_succ', List.length_append, List.length_replicate,
      List.range'_1_concat]

/-- The live workers, in their order. -/
def alive (s : State) : List ℕ := s.workers.filter s.isAlive

/-- **The workers are in order**: the live ones and as many new ones as there are too few. For every
one there is too many a mark is put. -/
theorem putWorkersInOrder_correct (s : State) (workersCnt : ℤ) :
    s.putWorkersInOrder workersCnt = some { s with
      workers := s.alive ++
        List.range' s.threads.length (workersCnt - (s.alive.length : ℤ)).toNat
      threads := s.threads ++
        List.replicate (workersCnt - (s.alive.length : ℤ)).toNat .idle
      tasksQueue := s.tasksQueue ++
        List.replicate ((s.alive.length : ℤ) - workersCnt).toNat finish
      log := s.log ++
        List.replicate ((s.alive.length : ℤ) - workersCnt).toNat .finishPut } := by
  have hdied : removeDied s.isAlive s.workers = some s.alive := removeDied_eq s.isAlive s.workers
  rw [putWorkersInOrder, hdied, Option.bind_eq_bind, Option.bind_some]
  by_cases hmany : (s.alive.length : ℤ) > workersCnt
  · have hzero : (workersCnt - (s.alive.length : ℤ)).toNat = 0 := by omega
    rw [if_pos hmany, iterate_putFinish, hzero]
    simp
  · have hzero : ((s.alive.length : ℤ) - workersCnt).toNat = 0 := by omega
    rw [if_neg hmany, iterate_startWorker, hzero]
    simp

/-! ## The machine -/

/-- The main thread alone, through the loop over the list. -/
theorem runFrom_look (s : State) {rest : List ℕ} : ∀ kept : List ℕ,
    runFrom step { s with workers := kept ++ rest, ordering := some (.look kept.length) }
        (List.replicate rest.length .main)
      = some { s with
          workers := kept ++ rest.filter s.isAlive
          ordering := some (.look (kept ++ rest.filter s.isAlive).length) } := by
  induction rest with
  | nil => exact fun kept => by simp [runFrom]
  | cons worker rest ih =>
    intro kept
    have hget : (kept ++ worker :: rest)[kept.length]? = some worker := by simp
    rw [List.length_cons, List.replicate_succ, runFrom, step, mainStep, Option.bind_some, order,
      hget]
    by_cases hended : s.hasEnded worker = true
    · have halive : ¬ s.isAlive worker = true := by simp [isAlive, hended]
      have herase : (kept ++ worker :: rest).eraseIdx kept.length = kept ++ rest := by
        rw [List.eraseIdx_append_of_length_le (Nat.le_refl _), Nat.sub_self]
        rfl
      rw [List.filter_cons_of_neg halive, ← ih kept, ← herase]
      exact congrArg (runFrom step · _) (if_pos hended)
    · have halive : s.isAlive worker = true := by simp [isAlive, hended]
      have hnext := ih (kept ++ [worker])
      rw [List.append_assoc, List.append_assoc, List.length_append] at hnext
      rw [List.filter_cons_of_pos halive]
      refine Eq.trans ?_ hnext
      exact congrArg (runFrom step · _) (if_neg hended)

/-- It puts the marks, ... -/
theorem runFrom_putFinish (n : ℕ) : ∀ s : State,
    runFrom step { s with ordering := some (.putFinish n) } (List.replicate (n + 1) .main)
      = some { putFinish^[n] s with ordering := none } := by
  induction n with
  | zero => exact fun s => rfl
  | succ n ih => exact fun s => ih s.putFinish

/-- ... or starts the new workers. -/
theorem runFrom_startWorkers (n : ℕ) : ∀ s : State,
    runFrom step { s with ordering := some (.startWorkers n) } (List.replicate (n + 1) .main)
      = some { startWorker^[n] s with ordering := none } := by
  induction n with
  | zero => exact fun s => rfl
  | succ n ih => exact fun s => ih s.startWorker

/-- Behind the loop over the list it knows what is missing or too much. -/
theorem order_look_alive (s : State) (o : Option Ordering) :
    ({ s with workers := s.alive, ordering := o } : State).order (.look s.alive.length)
      = if s.alive.length > s.workersCnt then
          { s with
            workers := s.alive
            ordering := some (.putFinish (s.alive.length - s.workersCnt)) }
        else
          { s with
            workers := s.alive
            ordering := some (.startWorkers (s.workersCnt - s.alive.length)) } := by
  have hget : s.alive[s.alive.length]? = none := List.getElem?_length s.alive
  rw [order, hget]

/-- **The machine does what the source does**, if the main thread is alone. -/
theorem runFrom_putWorkersInOrder (s : State) (hordering : s.ordering = none) :
    ∃ n, runFrom step { s with ordering := some (.look 0) } (List.replicate n .main)
      = s.putWorkersInOrder s.workersCnt := by
  have hlook : runFrom step { s with ordering := some (.look 0) }
      (List.replicate s.workers.length .main)
      = some { s with workers := s.alive, ordering := some (.look s.alive.length) } :=
    @runFrom_look s s.workers []
  have hdied : removeDied s.isAlive s.workers = some s.alive := removeDied_eq s.isAlive s.workers
  have hreach : ∀ n : ℕ, runFrom step { s with ordering := some (.look 0) }
      (List.replicate (s.workers.length + (1 + n)) .main)
      = runFrom step (({ s with workers := s.alive, ordering := some (.look s.alive.length) } :
          State).order (.look s.alive.length)) (List.replicate n .main) := by
    intro n
    rw [List.replicate_add, List.replicate_add, runFrom_append, hlook]
    rfl
  rw [putWorkersInOrder, hdied, Option.bind_eq_bind, Option.bind_some]
  by_cases hmany : s.alive.length > s.workersCnt
  · refine ⟨_, (hreach (s.alive.length - s.workersCnt + 1)).trans ?_⟩
    have hcount : ((s.alive.length : ℤ) - s.workersCnt).toNat = s.alive.length - s.workersCnt := by
      omega
    rw [order_look_alive, if_pos hmany, if_pos (Int.ofNat_lt.mpr hmany), hcount,
      runFrom_putFinish _ { s with workers := s.alive }, iterate_putFinish, ← hordering]
    rfl
  · refine ⟨_, (hreach (s.workersCnt - s.alive.length + 1)).trans ?_⟩
    have hcount : ((s.workersCnt : ℤ) - s.alive.length).toNat = s.workersCnt - s.alive.length := by
      omega
    rw [order_look_alive, if_neg hmany, if_neg (mt Int.ofNat_lt.mp hmany), hcount,
      runFrom_startWorkers _ { s with workers := s.alive }, iterate_startWorker, ← hordering]
    rfl

/-- A state with three workers, of which the second has ended. -/
def secondDied : State :=
  { (Session.small 3 []).start with threads := [.idle, .ended, .idle], workers := [0, 1, 2] }

/-- The live workers move up, and a new one is behind them. -/
theorem runFrom_putWorkersInOrder_secondDied : ∃ n,
    runFrom step { secondDied with ordering := some (.look 0) } (List.replicate n .main)
      = secondDied.putWorkersInOrder 3 ∧
    (secondDied.putWorkersInOrder 3).map State.workers = some [0, 2, 3] := by
  obtain ⟨n, hrun⟩ := runFrom_putWorkersInOrder secondDied rfl
  exact ⟨n, hrun, by decide⟩

end State

end Amigos.Spider
