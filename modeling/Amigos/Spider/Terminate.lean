import Amigos.Spider.Once

/-!
# Finishing (`handleSIGTERM`)

The handler writes the tasks in the queue to the tasks file, and only then ends the workers and lets
`run` come to the end of the results. A task that gets into the queue behind that is lost: one that
a worker puts back behind the `'finish'` of another, or one that a result brings which is handled
while `run` comes to its end. `StopsCleanly` is a step that does neither.

A task that is put back in front of every `'finish'` is not lost: the worker that has put it back is
idle, and there are never more such tasks than idle workers (`Emptied`), so all are taken before the
last worker ends.
-/

set_option autoImplicit false

namespace Amigos.Spider

open Amigos.Lib

/-! ## The queue behind the loop that writes it -/

/-- What is in the queue when it has once been emptied: tasks that have been put back, not more than
there are idle workers, and behind them the `'finish'` of the handler. -/
def Emptied (s : State) : Prop :=
  ∃ tasks n, s.tasksQueue = tasks ++ List.replicate n finish ∧ (∀ task ∈ tasks, task ≠ finish) ∧
    tasks.length ≤ s.threads.count .idle ∧ (n = 0 ∨ .finishPut ∈ s.log)

section Emptied

variable {s s' : State}

theorem Emptied.of_same (h : Emptied s) (hqueue : s'.tasksQueue = s.tasksQueue)
    (hidle : s.threads.count .idle ≤ s'.threads.count .idle) (hlog : s.log <+: s'.log) :
    Emptied s' := by
  obtain ⟨tasks, n, htasks, hne, hle, hn⟩ := h
  exact ⟨tasks, n, hqueue.trans htasks, hne, hle.trans hidle, hn.imp_right (hlog.subset ·)⟩

/-- One thread goes on. -/
theorem count_idle_set {threads : List Worker} {i : ℕ} {w : Worker} (hget : threads[i]? = some w)
    (w' : Worker) : (threads.set i w').count .idle + (if w = .idle then 1 else 0)
      = threads.count .idle + (if w' = .idle then 1 else 0) := by
  obtain ⟨hi, rfl⟩ := List.getElem?_eq_some_iff.mp hget
  have hold := (List.getElem_cons_eraseIdx_perm hi).count_eq Worker.idle
  have hnew := (List.set_perm_cons_eraseIdx hi w').count_eq Worker.idle
  rw [List.count_cons] at hold hnew
  simp only [beq_iff_eq] at hold hnew
  omega

/-- A worker that takes from the front is idle no longer. -/
theorem Emptied.take (h : Emptied s) {task : Str} (hqueue : s.tasksQueue = task :: s'.tasksQueue)
    (hidle : s.threads.count .idle ≤ s'.threads.count .idle + 1) (hlog : s.log <+: s'.log) :
    Emptied s' := by
  obtain ⟨tasks, n, htasks, hne, hle, hn⟩ := h
  have hn' := hn.imp_right (hlog.subset ·)
  rw [hqueue] at htasks
  cases tasks with
  | nil =>
    refine ⟨[], n - 1, ?_, by simp, Nat.zero_le _, hn'.imp_left fun hzero => by rw [hzero]⟩
    cases n with
    | zero => cases htasks
    | succ n => exact (List.cons.inj htasks).2
  | cons t tasks =>
    rw [List.cons_append] at htasks
    rw [List.length_cons] at hle
    exact ⟨tasks, n, (List.cons.inj htasks).2, fun t' ht' => hne t' (List.mem_cons_of_mem _ ht'),
      by omega, hn'⟩

/-- A worker that puts its task back is idle again. -/
theorem Emptied.putBack (h : Emptied s) {task : Str} (hnone : .finishPut ∉ s.log)
    (hne : task ≠ finish) (hqueue : s'.tasksQueue = s.tasksQueue ++ [task])
    (hidle : s.threads.count .idle + 1 ≤ s'.threads.count .idle) : Emptied s' := by
  obtain ⟨tasks, n, htasks, hall, hle, hn⟩ := h
  obtain rfl : n = 0 := hn.resolve_right hnone
  refine ⟨tasks ++ [task], 0, ?_, fun t ht => ?_, ?_, Or.inl rfl⟩
  · rw [hqueue, htasks]
    simp
  · rcases List.mem_append.mp ht with ht | ht
    · exact hall t ht
    · exact List.mem_singleton.mp ht ▸ hne
  · rw [List.length_append, List.length_singleton]
    omega

theorem Emptied.move (h : Emptied s) {i : ℕ} {w : Worker} (hget : s.threads[i]? = some w)
    {action : WorkerAction} (hok : action = .getHtmlError → .finishPut ∉ s.log)
    (hmove : s.move i w action = some s') : Emptied s' := by
  have hset := count_idle_set hget
  have hlog : s.log <+: s'.log := by
    obtain ⟨es, hes, -⟩ := (move_frame hget hmove).log
    exact ⟨es, hes.symm⟩
  -- A worker that was not idle may be so now.
  have hgo : w ≠ .idle → ∀ w', s.threads.count .idle ≤ (s.threads.set i w').count .idle := by
    intro hw w'
    have := hset w'
    rw [if_neg hw] at this
    omega
  cases w with
  | idle =>
    cases action with
    | take =>
      simp only [State.move] at hmove
      split at hmove
      · cases hmove
      · rename_i task tasksQueue hqueue
        cases hmove
        have hidle := hset (.taken task)
        simp only [if_true, reduceCtorEq, if_false] at hidle
        exact h.take hqueue hidle.ge hlog
    | _ => cases hmove
  | taken task =>
    cases action with
    | nextProxy =>
      obtain ⟨s₁, hproxy, rfl⟩ := Option.map_eq_some_iff.mp hmove
      obtain ⟨proxiesQueue, rfl⟩ := nextProxy_eq hproxy
      by_cases isTask : task ≠ finish
      · rw [dif_pos isTask] at hlog ⊢
        exact h.of_same rfl (hgo (by simp) _) hlog
      · rw [dif_neg isTask] at hlog ⊢
        exact h.of_same rfl (hgo (by simp) _) hlog
    | _ => cases hmove
  | fetching task isTask =>
    cases action with
    | nextProxy =>
      obtain ⟨proxiesQueue, rfl⟩ := nextProxy_eq hmove
      exact h.of_same rfl (Nat.le_refl _) hlog
    | deliver page =>
      cases hmove
      exact h.of_same rfl (hgo (by simp) _) hlog
    | valueError =>
      cases hmove
      exact h.of_same rfl (hgo (by simp) _) hlog
    | getHtmlError =>
      cases hmove
      have hidle := hset .idle
      simp only [if_true, reduceCtorEq, if_false] at hidle
      exact h.putBack (hok rfl) isTask rfl hidle.ge
    | _ => cases hmove
  | saving task page =>
    cases action with
    | savePage =>
      cases hmove
      exact h.of_same rfl (hgo (by simp) _) hlog
    | saveError left =>
      cases hmove
      exact h.of_same rfl (hgo (by simp) _) hlog
    | _ => cases hmove
  | savingSubs task page =>
    cases action with
    | saveSubs =>
      cases hmove
      exact h.of_same rfl (hgo (by simp) _) hlog
    | saveError left =>
      cases hmove
      exact h.of_same rfl (hgo (by simp) _) hlog
    | _ => cases hmove
  | ended => cases hmove

/-- `putWorkersInOrder` puts behind what is there, or starts a worker. -/
theorem Emptied.order (h : Emptied s) (o : Ordering) : Emptied (s.order o) := by
  cases o with
  | look i =>
    simp only [State.order]
    split <;> split <;> exact h
  | putFinish k =>
    cases k with
    | zero => exact h
    | succ k =>
      obtain ⟨tasks, n, htasks, hne, hle, -⟩ := h
      refine ⟨tasks, n + 1, ?_, hne, hle, Or.inr (List.mem_append_right _ List.mem_cons_self)⟩
      show s.tasksQueue ++ [finish] = _
      rw [htasks, List.replicate_succ', List.append_assoc]
  | startWorkers k =>
    cases k with
    | zero => exact h
    | succ k =>
      refine h.of_same rfl ?_ (List.prefix_refl _)
      simp [State.order]

end Emptied

/-! ## The threads that are left -/

/-- Every thread that has not ended is one of these. -/
def LiveIn (s : State) (workers : List ℕ) : Prop :=
  ∀ i w, s.threads[i]? = some w → w ≠ .ended → i ∈ workers

section LiveIn

variable {s s' : State}

theorem LiveIn.nil_iff : LiveIn s [] ↔ ∀ w ∈ s.threads, w = .ended := by
  constructor
  · intro h w hw
    obtain ⟨i, hi⟩ := List.getElem?_of_mem hw
    by_contra hlive
    exact List.not_mem_nil (h i w hi hlive)
  · exact fun h i w hi hlive => absurd (h w (List.mem_of_getElem? hi)) hlive

/-- Only a live worker moves. -/
theorem LiveIn.move {workers : List ℕ} (h : LiveIn s workers) {i : ℕ} {w : Worker}
    (hget : s.threads[i]? = some w) {action : WorkerAction} (hmove : s.move i w action = some s') :
    LiveIn s' workers := by
  obtain ⟨w', hthreads⟩ := (move_frame hget hmove).threads
  intro j v hj hlive
  rw [hthreads] at hj
  by_cases hij : i = j
  · subst hij
    apply h i w hget
    intro hended
    rw [hended] at hmove
    cases hmove
  · rw [List.getElem?_set_ne hij] at hj
    exact h j v hj hlive

/-- A worker that has ended is not needed in the list. -/
theorem LiveIn.erase {workers : List ℕ} (h : LiveIn s workers) {k w : ℕ}
    (hget : workers[k]? = some w) (hended : s.hasEnded w) : LiveIn s (workers.eraseIdx k) := by
  intro i v hi hlive
  obtain ⟨hk, rfl⟩ := List.getElem?_eq_some_iff.mp hget
  have hmem := (List.getElem_cons_eraseIdx_perm hk).symm.subset (h i v hi hlive)
  refine (List.mem_cons.mp hmem).resolve_left ?_
  rintro rfl
  rw [State.hasEnded, hi] at hended
  exact hlive (by simpa using hended)

/-- `putWorkersInOrder` keeps every live thread in `self.workers`. -/
theorem LiveIn.order (h : LiveIn s s.workers) (o : Ordering) :
    LiveIn (s.order o) (s.order o).workers := by
  cases o with
  | look i =>
    simp only [State.order]
    split
    · split
      · exact h.erase ‹_› ‹_›
      · exact h
    · split <;> exact h
  | putFinish n =>
    cases n <;> exact h
  | startWorkers n =>
    cases n with
    | zero => exact h
    | succ n =>
      intro i w hi hlive
      show i ∈ s.workers ++ [s.threads.length]
      have hi' : (s.threads ++ [.idle])[i]? = some w := hi
      rw [List.getElem?_append] at hi'
      split at hi'
      · exact List.mem_append_left _ (h i w hi' hlive)
      · rename_i hlen
        have hlt := (List.getElem?_eq_some_iff.mp hi').1
        simp only [List.length_singleton] at hlt
        exact List.mem_append_right _ (List.mem_singleton.mpr (by omega))

/-- `self.workers` has every live thread, in every run. -/
theorem LiveIn.step (h : LiveIn s s.workers) {a : Action} (hstep : s.step a = some s') :
    LiveIn s' s'.workers := by
  cases a with
  | worker i action =>
    obtain ⟨w, hget, hmove⟩ := State.step_worker hstep
    rw [(move_frame hget hmove).workers]
    exact h.move hget hmove
  | main =>
    obtain ⟨o, -, rfl⟩ | ⟨-, cmd, main, -, hexec⟩ := State.mainStep_cases hstep
    · exact h.order o
    · have hframe := execute_frame hexec
      rw [hframe.workers]
      intro i w hi
      rw [hframe.threads] at hi
      exact h i w hi
  | signal sig =>
    obtain ⟨-, rfl⟩ := State.step_signal hstep
    exact h
  | newProxies lines =>
    cases hstep
    exact h

end LiveIn

/-! ## Without a SIGINT -/

/-- No task is drained. -/
structure NoDrain (s : State) : Prop where
  main : ∀ c ∈ s.main, ¬ c.Drains
  log : ∀ task, .drained task ∉ s.log

theorem NoDrain.step {s s' : State} (h : NoDrain s) {a : Action} (ha : a ≠ .signal .sigint)
    (hstep : s.step a = some s') : NoDrain s' := by
  cases a with
  | worker i action =>
    obtain ⟨w, hget, hmove⟩ := State.step_worker hstep
    have hframe := move_frame hget hmove
    obtain ⟨es, hlog, hes⟩ := hframe.log
    refine ⟨hframe.main ▸ h.main, fun task hmem => ?_⟩
    rw [hlog, List.mem_append] at hmem
    exact hmem.elim (h.log task) fun hmem => (hes _ hmem).1 trivial
  | main =>
    obtain ⟨o, -, rfl⟩ | ⟨-, cmd, main, hmain, hexec⟩ := State.mainStep_cases hstep
    · have hframe := order_frame (s := s) o
      refine ⟨hframe.main ▸ h.main, fun task hmem => ?_⟩
      rcases hframe.log with hlog | hlog
      · exact h.log task (hlog ▸ hmem)
      · rw [hlog, List.mem_append, List.mem_singleton] at hmem
        exact hmem.elim (h.log task) (by simp)
    · have hframe := execute_frame hexec
      have hcmd : ¬ cmd.Drains := h.main cmd (hmain ▸ List.mem_cons_self)
      obtain ⟨es, hlog, hes⟩ := hframe.log
      refine ⟨fun c hc => ?_, fun task hmem => ?_⟩
      · refine (hframe.drains.resolve_left hcmd c hc).elim (fun hc => ?_) id
        exact h.main c (hmain ▸ List.mem_cons_of_mem _ hc)
      · rw [hlog, List.mem_append] at hmem
        refine hmem.elim (h.log task) fun hmem => hcmd ?_
        obtain ⟨n, tmpTasks, rfl⟩ := (hes _ hmem).of_drained
        trivial
  | signal sig =>
    cases sig with
    | sigint => exact absurd rfl ha
    | sigterm =>
      obtain ⟨-, rfl⟩ := State.step_signal hstep
      have hhandler : ∀ c ∈ s.handler .sigterm, ¬ c.Drains := by simp [State.handler, Cmd.Drains]
      exact ⟨fun c hc => (List.mem_append.mp hc).elim (hhandler c) (h.main c), h.log⟩
  | newProxies lines =>
    cases hstep
    exact ⟨h.main, h.log⟩

/-! ## The condition -/

/-- The task that the main thread puts in its next step. -/
def State.nextPut (s : State) : Option Str :=
  match s.ordering, s.main with
  | none, .put task :: _ => some task
  | _, _ => none

/-- The step does not put a task where it is lost: no worker puts one back when the handler has
begun to put its `'finish'`, and the main thread puts none, new as it is, when the handler has
written the queue; nor does it ever put one that is called `'finish'`. -/
def StopsCleanly (s : State) : Action → Prop
  | .worker _ .getHtmlError => .finishPut ∉ s.log
  | .main => ∀ task ∈ s.nextPut, task ≠ finish ∧ .tasksWritten ∉ s.log
  | _ => True

instance (s : State) (a : Action) : Decidable (StopsCleanly s a) := by
  unfold StopsCleanly
  split <;> infer_instance

/-! ## The stages of the handler -/

/-- The commands that lead to one more pass of `run`. -/
def Cmd.GoesOn : Cmd → Prop
  | .run => True
  | .handleResult => True
  | .handle (.result _) => True
  | .endOfPass true => True
  | _ => False

/-- No worker is started any more. -/
def NoStart (s : State) : Prop :=
  s.workersCnt = 0 ∧ ∀ n, s.ordering ≠ some (.startWorkers (n + 1))

/-- What has been written is in the file. -/
def InFile (s : State) : Prop := ∀ task, .written task ∈ s.log → task ∈ s.tasksFile

/-- The tasks file has been written. -/
structure Closed (s : State) : Prop where
  file : InFile s
  emptied : Emptied s
  written : .tasksWritten ∈ s.log

/-- The handler behind the tasks file. -/
def closing : List Cmd := [.setWorkersCnt 0, .putWorkersInOrder, .joinWorkers, .putFinishResult]

/-- The stages of `handleSIGTERM`; `below` is what it has interrupted. -/
inductive Stopping (below : List Cmd) (s : State) : Prop
  | opening (main : s.main = .openTasksFile :: .writeTasks :: (closing ++ below))
      (ordering : s.ordering = none) (log : ∀ e ∈ s.log, ¬ e.OfHandler)
  | writing (main : s.main = .writeTasks :: (closing ++ below)) (ordering : s.ordering = none)
      (file : InFile s)
  | writingTask (main : s.main = .writeTask :: .writeTasks :: (closing ++ below))
      (ordering : s.ordering = none) (file : InFile s)
  | closed (main : s.main = closing ++ below) (ordering : s.ordering = none) (closed : Closed s)
  | noWorkers (main : s.main = .putWorkersInOrder :: .joinWorkers :: .putFinishResult :: below)
      (noStart : NoStart s) (ordering : s.ordering = none) (closed : Closed s)
  | ending (main : s.main = .joinWorkers :: .putFinishResult :: below) (noStart : NoStart s)
      (closed : Closed s)
  | joining (workers : List ℕ) (main : s.main = .join workers :: .putFinishResult :: below)
      (noStart : NoStart s) (ordering : s.ordering = none) (closed : Closed s)
      (live : LiveIn s workers)
  | joined (main : s.main = .putFinishResult :: below) (noStart : NoStart s)
      (ordering : s.ordering = none) (closed : Closed s) (live : LiveIn s [])

/-- **What `handleSIGTERM` leads to**: its stages, `run` on its way to the `'finish'` among the
results, and `run` behind that. -/
inductive Shutdown (s : State) : Prop
  | stopping (below : List Cmd) (plain : ∀ c ∈ below, ¬ c.OfHandler)
      (goesOn : ∃ c ∈ below, c.GoesOn) (results : .finish ∉ s.resultsQueue)
      (stage : Stopping below s)
  | stopped (results : List Message) (plain : ∀ c ∈ s.main, ¬ c.OfHandler)
      (goesOn : ∃ c ∈ s.main, c.GoesOn) (queue : s.resultsQueue = results ++ [.finish])
      (noFinish : .finish ∉ results) (noStart : NoStart s) (closed : Closed s)
      (live : LiveIn s [])
  | finished (plain : ∀ c ∈ s.main, ¬ c.OfHandler) (queue : s.resultsQueue = [])
      (noStart : NoStart s) (closed : Closed s) (live : LiveIn s [])
  | raised (error : s.error ≠ none)

section Shutdown

variable {below : List Cmd} {s s' : State}

theorem InFile.of_log (h : InFile s) {es : List Event} (htasksFile : s'.tasksFile = s.tasksFile)
    (hlog : s'.log = s.log ++ es) (hes : ∀ e ∈ es, ¬ e.OfHandler) : InFile s' := by
  intro task hmem
  rw [hlog, List.mem_append] at hmem
  rw [htasksFile]
  exact h task (hmem.resolve_right fun hmem => hes _ hmem trivial)

theorem Closed.of_log (h : Closed s) {es : List Event} (htasksFile : s'.tasksFile = s.tasksFile)
    (hlog : s'.log = s.log ++ es) (hes : ∀ e ∈ es, ¬ e.OfHandler) (hemptied : Emptied s') :
    Closed s' :=
  ⟨h.file.of_log htasksFile hlog hes, hemptied, hlog ▸ List.mem_append_left _ h.written⟩

theorem Closed.order (h : Closed s) (o : Ordering) : Closed (s.order o) := by
  have hframe := order_frame (s := s) o
  refine ⟨fun task hmem => ?_, h.emptied.order o, ?_⟩
  · rw [hframe.tasksFile]
    rcases hframe.log with hlog | hlog
    · exact h.file task (hlog ▸ hmem)
    · rw [hlog, List.mem_append, List.mem_singleton] at hmem
      exact h.file task (hmem.resolve_right (by simp))
  · rcases hframe.log with hlog | hlog
    · exact hlog ▸ h.written
    · exact hlog ▸ List.mem_append_left _ h.written

theorem NoStart.order (h : NoStart s) {o : Ordering} (ho : s.ordering = some o) :
    NoStart (s.order o) ∧ (s.order o).threads = s.threads := by
  obtain ⟨hcnt, hno⟩ := h
  cases o with
  | look i =>
    simp only [State.order]
    split
    · split
      · exact ⟨⟨hcnt, hno⟩, rfl⟩
      · exact ⟨⟨hcnt, by simp⟩, rfl⟩
    · split
      · exact ⟨⟨hcnt, by simp⟩, rfl⟩
      · exact ⟨⟨hcnt, by simp [hcnt]⟩, rfl⟩
  | putFinish n => cases n <;> exact ⟨⟨hcnt, by simp [State.order]⟩, rfl⟩
  | startWorkers n =>
    cases n with
    | zero => exact ⟨⟨hcnt, by simp [State.order]⟩, rfl⟩
    | succ n => exact absurd ho (hno n)

theorem Stopping.main_ne_nil (h : Stopping below s) : s.main ≠ [] := by
  cases h <;> simp_all [closing]

/-- The stages, while the main thread does nothing. -/
theorem Stopping.of_frame (h : Stopping below s) {es : List Event} (hmain : s'.main = s.main)
    (hordering : s'.ordering = s.ordering) (hworkersCnt : s'.workersCnt = s.workersCnt)
    (htasksFile : s'.tasksFile = s.tasksFile) (hlog : s'.log = s.log ++ es)
    (hes : ∀ e ∈ es, ¬ e.OfHandler) (hemptied : Emptied s → Emptied s')
    (hlive : ∀ {workers}, LiveIn s workers → LiveIn s' workers) : Stopping below s' := by
  have hnoStart : NoStart s → NoStart s' := fun h =>
    ⟨hworkersCnt.trans h.1, fun n => hordering ▸ h.2 n⟩
  have hclosed : Closed s → Closed s' := fun h =>
    h.of_log htasksFile hlog hes (hemptied h.emptied)
  cases h with
  | opening main ordering log =>
    refine .opening (hmain.trans main) (hordering.trans ordering) fun e he => ?_
    rw [hlog, List.mem_append] at he
    exact he.elim (log e) (hes e)
  | writing main ordering file =>
    exact .writing (hmain.trans main) (hordering.trans ordering) (file.of_log htasksFile hlog hes)
  | writingTask main ordering file =>
    exact .writingTask (hmain.trans main) (hordering.trans ordering)
      (file.of_log htasksFile hlog hes)
  | closed main ordering closed =>
    exact .closed (hmain.trans main) (hordering.trans ordering) (hclosed closed)
  | noWorkers main noStart ordering closed =>
    exact .noWorkers (hmain.trans main) (hnoStart noStart) (hordering.trans ordering)
      (hclosed closed)
  | ending main noStart closed =>
    exact .ending (hmain.trans main) (hnoStart noStart) (hclosed closed)
  | joining workers main noStart ordering closed live =>
    exact .joining workers (hmain.trans main) (hnoStart noStart) (hordering.trans ordering)
      (hclosed closed) (hlive live)
  | joined main noStart ordering closed live =>
    exact .joined (hmain.trans main) (hnoStart noStart) (hordering.trans ordering)
      (hclosed closed) (hlive live)

/-- **A worker's move**: when all have ended there is none. -/
theorem Shutdown.move (h : Shutdown s) {i : ℕ} {w : Worker} (hget : s.threads[i]? = some w)
    {action : WorkerAction} (hok : action = .getHtmlError → .finishPut ∉ s.log)
    (hmove : s.move i w action = some s') : Shutdown s' := by
  have hframe := move_frame hget hmove
  have hended : ¬ LiveIn s [] := fun hlive => by
    rw [LiveIn.nil_iff.mp hlive w (List.mem_of_getElem? hget)] at hmove
    cases hmove
  cases h with
  | stopping below plain goesOn results stage =>
    obtain ⟨es, hlog, hes⟩ := hframe.log
    refine .stopping below plain goesOn ?_ (stage.of_frame hframe.main hframe.ordering
      hframe.workersCnt hframe.tasksFile hlog (fun e he => (hes e he).1)
      (fun h => h.move hget hok hmove) (fun h => h.move hget hmove))
    rcases hframe.results with hsame | ⟨task, page, -, hresults⟩
    · exact hsame ▸ results
    · rw [hresults, List.mem_append, List.mem_singleton]
      exact not_or_intro results (by simp)
  | stopped _ _ _ _ _ _ _ live => exact absurd live hended
  | finished _ _ _ _ live => exact absurd live hended
  | raised error => exact .raised (hframe.error ▸ error)

/-- **A step of the handler**, by its stage. -/
theorem Stopping.main (h : Stopping below s) (plain : ∀ c ∈ below, ¬ c.OfHandler)
    (goesOn : ∃ c ∈ below, c.GoesOn) (results : .finish ∉ s.resultsQueue)
    (hlive : LiveIn s s.workers) (hstep : s.mainStep = some s') : Shutdown s' := by
  have hexec : ∀ {cmd main}, s.main = cmd :: main → s.ordering = none →
      ({ s with main } : State).execute cmd = some s' := by
    intro cmd main hmain hordering
    obtain ⟨o, ho, -⟩ | ⟨-, cmd', main', hmain', hexec⟩ := State.mainStep_cases hstep
    · cases ho.symm.trans hordering
    · cases hmain.symm.trans hmain'
      exact hexec
  cases h with
  | opening main ordering log =>
    cases hexec main ordering
    refine .stopping below plain goesOn results (.writing rfl ordering fun task hmem => ?_)
    exact absurd trivial (log _ hmem)
  | writing main ordering file =>
    have hwrite := hexec main ordering
    simp only [State.execute] at hwrite
    split at hwrite <;> rename_i hempty <;> cases hwrite
    · refine .stopping below plain goesOn results (.closed rfl ordering ⟨fun task hmem => ?_,
        ⟨[], 0, List.isEmpty_iff.mp hempty, by simp, Nat.zero_le _, Or.inl rfl⟩,
        List.mem_append_right _ List.mem_cons_self⟩)
      rw [State.emit, List.mem_append, List.mem_singleton] at hmem
      exact file task (hmem.resolve_right (by simp))
    · exact .stopping below plain goesOn results (.writingTask rfl ordering file)
  | writingTask main ordering file =>
    have hwrite := hexec main ordering
    simp only [State.execute] at hwrite
    split at hwrite <;> cases hwrite
    refine .stopping below plain goesOn results (.writing rfl ordering fun task hmem => ?_)
    rw [State.emit, List.mem_append, List.mem_singleton] at hmem
    rcases hmem with hmem | hmem
    · exact List.mem_append_left _ (file task hmem)
    · cases hmem
      exact List.mem_append_right _ List.mem_cons_self
  | closed main ordering closed =>
    cases hexec main ordering
    exact .stopping below plain goesOn results (.noWorkers rfl ⟨rfl, by simp [ordering]⟩ ordering
      ⟨closed.file, closed.emptied, closed.written⟩)
  | noWorkers main noStart ordering closed =>
    cases hexec main ordering
    exact .stopping below plain goesOn results (.ending rfl ⟨noStart.1, by simp⟩
      ⟨closed.file, closed.emptied, closed.written⟩)
  | ending main noStart closed =>
    obtain ⟨o, ho, rfl⟩ | ⟨hordering, -⟩ := State.mainStep_cases hstep
    · have hframe := order_frame (s := s) o
      exact .stopping below plain goesOn (hframe.resultsQueue ▸ results)
        (.ending (hframe.main.trans main) (noStart.order ho).1 (closed.order o))
    · cases hexec main hordering
      exact .stopping below plain goesOn results (.joining s.workers rfl noStart hordering
        ⟨closed.file, closed.emptied, closed.written⟩ hlive)
  | joining workers main noStart ordering closed live =>
    have hjoin := hexec main ordering
    cases workers with
    | nil =>
      cases hjoin
      exact .stopping below plain goesOn results (.joined rfl noStart ordering
        ⟨closed.file, closed.emptied, closed.written⟩ live)
    | cons w workers =>
      simp only [State.execute] at hjoin
      split at hjoin <;> rename_i hended <;> cases hjoin
      exact .stopping below plain goesOn results (.joining workers rfl noStart ordering
        ⟨closed.file, closed.emptied, closed.written⟩ (live.erase (k := 0) rfl hended))
  | joined main noStart ordering closed live =>
    cases hexec main ordering
    exact .stopped s.resultsQueue plain goesOn rfl results noStart
      ⟨closed.file, closed.emptied, closed.written⟩ live

/-- A pass of `run` leads to the next one, unless it takes the `'finish'`. -/
theorem execute_goesOn {cmd : Cmd} (hexec : s.execute cmd = some s')
    (hgo : cmd.GoesOn ∨ ∃ c ∈ s.main, c.GoesOn) :
    s'.error ≠ none ∨ (∃ c ∈ s'.main, c.GoesOn) ∨
      (cmd = .handleResult ∧ s.resultsQueue = .finish :: s'.resultsQueue) := by
  rcases hgo with hcmd | ⟨c, hc, hgo⟩
  · cases cmd with
    | run =>
      cases hexec
      exact Or.inr (Or.inl ⟨.handleResult, List.mem_cons_self, trivial⟩)
    | handleResult =>
      simp only [State.execute] at hexec
      split at hexec <;> cases hexec
      · exact Or.inr (Or.inr ⟨rfl, ‹_›⟩)
      · exact Or.inr (Or.inl ⟨.handle (.result _), List.mem_cons_self, trivial⟩)
    | handle data =>
      cases data with
      | finish => exact hcmd.elim
      | result data =>
        simp only [State.execute] at hexec
        split at hexec
        · obtain ⟨⟨r, uids⟩, -, rfl⟩ := Option.map_eq_some_iff.mp hexec
          cases r with
          | done => exact Or.inr (Or.inl ⟨.endOfPass true, by simp, trivial⟩)
          | keyError => exact Or.inl (by simp [State.raise])
        · cases hexec
          exact Or.inr (Or.inl ⟨.endOfPass true, by simp, trivial⟩)
    | endOfPass isAlive =>
      cases isAlive with
      | false => exact hcmd.elim
      | true =>
        simp only [State.execute] at hexec
        split at hexec <;> cases hexec <;>
          exact Or.inr (Or.inl ⟨.handleResult, by simp, trivial⟩)
    | _ => exact hcmd.elim
  · rcases (execute_frame hexec).stack with herror | ⟨cmds, hmain⟩
    · exact Or.inl herror
    · exact Or.inr (Or.inl ⟨c, hmain ▸ List.mem_append_right _ hc, hgo⟩)

/-- **A command of `run`** while the `'finish'` is on its way, or behind it. -/
theorem Shutdown.execute {cmd : Cmd} {main : List Cmd} (hmain : s.main = cmd :: main)
    (hordering : s.ordering = none) (plain : ∀ c ∈ s.main, ¬ c.OfHandler) (noStart : NoStart s)
    (closed : Closed s) (live : LiveIn s []) (hok : StopsCleanly s .main)
    (hexec : ({ s with main } : State).execute cmd = some s') :
    (∀ c ∈ s'.main, ¬ c.OfHandler) ∧ NoStart s' ∧ Closed s' ∧ LiveIn s' [] := by
  have hframe := execute_frame hexec
  have hmem : ∀ c ∈ cmd :: main, ¬ c.OfHandler := hmain ▸ plain
  have hcmd := hmem cmd List.mem_cons_self
  obtain ⟨es, hlog, hes⟩ := hframe.log
  -- A task that is put now would be lost.
  have hqueue : s'.tasksQueue = s.tasksQueue := by
    refine (hframe.tasksQueue.resolve_left hcmd).resolve_left ?_
    rintro ⟨task, rfl⟩
    exact (hok task (by simp [State.nextPut, hordering, hmain])).2 closed.written
  refine ⟨fun c hc => ?_, ⟨?_, fun n => ?_⟩, ?_, ?_⟩
  · exact (hframe.main.resolve_left hcmd c hc).elim
      (fun hc => hmem c (List.mem_cons_of_mem _ hc)) id
  · exact (hframe.workersCnt.resolve_left hcmd).trans noStart.1
  · rcases hframe.ordering with hsame | hlook
    · exact hsame ▸ noStart.2 n
    · simp [hlook]
  · exact closed.of_log (hframe.tasksFile.resolve_left hcmd) hlog
      (fun e he => (hes e he).not_ofHandler hcmd)
      (closed.emptied.of_same hqueue (hframe.threads ▸ Nat.le_refl _) ⟨es, hlog.symm⟩)
  · intro i w hi
    rw [hframe.threads] at hi
    exact live i w hi

/-- **A step of the main thread.** -/
theorem Shutdown.mainStep (h : Shutdown s) (hlive : LiveIn s s.workers)
    (hok : StopsCleanly s .main) (hstep : s.mainStep = some s') : Shutdown s' := by
  cases h with
  | stopping below plain goesOn results stage => exact stage.main plain goesOn results hlive hstep
  | stopped results plain goesOn queue noFinish noStart closed live =>
    obtain ⟨o, ho, rfl⟩ | ⟨hordering, cmd, main, hmain, hexec⟩ := State.mainStep_cases hstep
    · have hframe := order_frame (s := s) o
      obtain ⟨hnoStart, hthreads⟩ := noStart.order ho
      refine .stopped results (hframe.main ▸ plain) (hframe.main ▸ goesOn)
        (hframe.resultsQueue.trans queue) noFinish hnoStart (closed.order o) fun i w hi => ?_
      rw [hthreads] at hi
      exact live i w hi
    · have hframe := execute_frame hexec
      have hcmd := plain cmd (hmain ▸ List.mem_cons_self)
      obtain ⟨hplain', hnoStart', hclosed', hlive'⟩ :=
        Shutdown.execute hmain hordering plain noStart closed live hok hexec
      have hgo : cmd.GoesOn ∨ ∃ c ∈ main, c.GoesOn := by
        obtain ⟨c, hc, hgo⟩ := goesOn
        rw [hmain] at hc
        rcases List.mem_cons.mp hc with rfl | hc
        · exact Or.inl hgo
        · exact Or.inr ⟨c, hc, hgo⟩
      rcases execute_goesOn hexec hgo with herror | hgo' | ⟨-, htaken⟩
      · exact .raised herror
      · rcases hframe.results with hsame | ⟨rfl, m, hpop, -⟩ | ⟨rfl, -⟩
        · exact .stopped results hplain' hgo' (hsame.trans queue) noFinish hnoStart' hclosed' hlive'
        · cases results with
          | nil =>
            rw [queue] at hpop
            exact .finished hplain' (List.cons.inj hpop).2.symm hnoStart' hclosed' hlive'
          | cons m' results =>
            rw [queue] at hpop
            exact .stopped results hplain' hgo' (List.cons.inj hpop).2.symm
              (fun hmem => noFinish (List.mem_cons_of_mem _ hmem)) hnoStart' hclosed' hlive'
        · exact absurd trivial hcmd
      · cases results with
        | nil =>
          rw [queue] at htaken
          exact .finished hplain' (List.cons.inj htaken).2.symm hnoStart' hclosed' hlive'
        | cons m results =>
          rw [queue] at htaken
          exact absurd ((List.cons.inj htaken).1 ▸ List.mem_cons_self) noFinish
  | finished plain queue noStart closed live =>
    obtain ⟨o, ho, rfl⟩ | ⟨hordering, cmd, main, hmain, hexec⟩ := State.mainStep_cases hstep
    · have hframe := order_frame (s := s) o
      obtain ⟨hnoStart, hthreads⟩ := noStart.order ho
      refine .finished (hframe.main ▸ plain) (hframe.resultsQueue.trans queue) hnoStart
        (closed.order o) fun i w hi => ?_
      rw [hthreads] at hi
      exact live i w hi
    · have hframe := execute_frame hexec
      have hcmd := plain cmd (hmain ▸ List.mem_cons_self)
      obtain ⟨hplain', hnoStart', hclosed', hlive'⟩ :=
        Shutdown.execute hmain hordering plain noStart closed live hok hexec
      rcases hframe.results with hsame | ⟨rfl, m, hpop, -⟩ | ⟨rfl, -⟩
      · exact .finished hplain' (hsame.trans queue) hnoStart' hclosed' hlive'
      · cases queue.symm.trans hpop
      · exact absurd trivial hcmd
  | raised error =>
    obtain ⟨o, -, rfl⟩ | ⟨-, cmd, main, -, hexec⟩ := State.mainStep_cases hstep
    · exact .raised ((order_frame (s := s) o).error ▸ error)
    · exact .raised ((execute_frame hexec).error error)

/-- **One step** that is no signal, and puts no task where it is lost. -/
theorem Shutdown.step (h : Shutdown s) (hlive : LiveIn s s.workers) {a : Action}
    (ha : ¬ a.IsSignal) (hok : StopsCleanly s a) (hstep : s.step a = some s') : Shutdown s' := by
  cases a with
  | worker i action =>
    obtain ⟨w, hget, hmove⟩ := State.step_worker hstep
    exact h.move hget (fun heq => by subst heq; exact hok) hmove
  | main => exact h.mainStep hlive hok hstep
  | signal sig => exact absurd trivial ha
  | newProxies lines =>
    cases hstep
    have hnil := (List.append_nil s.log).symm
    cases h with
    | stopping below plain goesOn results stage =>
      exact .stopping below plain goesOn results
        (stage.of_frame rfl rfl rfl rfl hnil (by simp) id id)
    | stopped results plain goesOn queue noFinish noStart closed live =>
      exact .stopped results plain goesOn queue noFinish noStart
        ⟨closed.file, closed.emptied, closed.written⟩ live
    | finished plain queue noStart closed live =>
      exact .finished plain queue noStart ⟨closed.file, closed.emptied, closed.written⟩ live
    | raised error => exact .raised error

end Shutdown

/-! ## The whole run -/

/-- Before the signal: `run` goes on. -/
structure Running (s : State) : Prop where
  quiet : Quiet s
  results : .finish ∉ s.resultsQueue
  goesOn : s.error = none → ∃ c ∈ s.main, c.GoesOn

theorem Session.running (c : Session) : Running c.start where
  quiet := c.quiet
  results := List.not_mem_nil
  goesOn _ := ⟨.run, by simp [Session.start], trivial⟩

theorem Running.step {s s' : State} (h : Running s) {a : Action} (ha : ¬ a.IsSignal)
    (hstep : s.step a = some s') : Running s' := by
  have hquiet := h.quiet.step ha hstep
  cases a with
  | worker i action =>
    obtain ⟨w, hget, hmove⟩ := State.step_worker hstep
    have hframe := move_frame hget hmove
    refine ⟨hquiet, ?_, fun herror => hframe.main ▸ h.goesOn (hframe.error ▸ herror)⟩
    rcases hframe.results with hsame | ⟨task, page, -, hresults⟩
    · exact hsame ▸ h.results
    · rw [hresults, List.mem_append, List.mem_singleton]
      exact not_or_intro h.results (by simp)
  | main =>
    obtain ⟨o, -, rfl⟩ | ⟨-, cmd, main, hmain, hexec⟩ := State.mainStep_cases hstep
    · have hframe := order_frame (s := s) o
      exact ⟨hquiet, hframe.resultsQueue ▸ h.results,
        fun herror => hframe.main ▸ h.goesOn (hframe.error ▸ herror)⟩
    · have hframe := execute_frame hexec
      have hcmd := h.quiet.main cmd (hmain ▸ List.mem_cons_self)
      have hresults : .finish ∉ s'.resultsQueue := by
        rcases hframe.results with hsame | ⟨-, m, hpop, -⟩ | ⟨rfl, -⟩
        · exact hsame ▸ h.results
        · exact fun hmem => h.results (hpop ▸ List.mem_cons_of_mem _ hmem)
        · exact absurd trivial hcmd
      refine ⟨hquiet, hresults, fun herror => ?_⟩
      have hnone : s.error = none := by
        by_contra hraised
        exact hframe.error hraised herror
      obtain ⟨c, hc, hgo⟩ := h.goesOn hnone
      rw [hmain] at hc
      have hgo' : cmd.GoesOn ∨ ∃ c ∈ main, c.GoesOn := by
        rcases List.mem_cons.mp hc with rfl | hc
        · exact Or.inl hgo
        · exact Or.inr ⟨c, hc, hgo⟩
      rcases execute_goesOn hexec hgo' with hraised | hgo'' | ⟨-, htaken⟩
      · exact absurd herror hraised
      · exact hgo''
      · exact absurd (htaken ▸ List.mem_cons_self) h.results
  | signal sig => exact absurd trivial ha
  | newProxies lines =>
    cases hstep
    exact ⟨hquiet, h.results, h.goesOn⟩

/-- The signal. -/
theorem Running.sigterm {s s' : State} (h : Running s)
    (hstep : s.step (.signal .sigterm) = some s') : Shutdown s' := by
  obtain ⟨hint, rfl⟩ := State.step_signal hstep
  simp only [State.interruptible, Bool.and_eq_true, Option.isNone_iff_eq_none] at hint
  exact .stopping s.main h.quiet.main (h.goesOn hint.2) h.results
    (.opening rfl hint.1.2 h.quiet.log)

theorem Session.noDrain (c : Session) : NoDrain c.start where
  main := by simp [Session.start, Cmd.Drains]
  log _ := List.not_mem_nil

/-- No task is called `'finish'`. -/
def NamesTasks (s : State) : Prop := ∀ task, .queued task ∈ s.log → task ≠ finish

theorem NamesTasks.step {s s' : State} (h : NamesTasks s) {a : Action} (hok : StopsCleanly s a)
    (hstep : s.step a = some s') : NamesTasks s' := by
  have hsame : ∀ {es}, s'.log = s.log ++ es → (∀ task, .queued task ∉ es) → NamesTasks s' := by
    intro es hlog hes task hmem
    rw [hlog, List.mem_append] at hmem
    exact h task (hmem.resolve_right (hes task))
  cases a with
  | worker i action =>
    obtain ⟨w, hget, hmove⟩ := State.step_worker hstep
    obtain ⟨es, hlog, hes⟩ := (move_frame hget hmove).log
    exact hsame hlog fun task hmem => (hes _ hmem).2 trivial
  | main =>
    obtain ⟨o, -, rfl⟩ | ⟨hordering, cmd, main, hmain, hexec⟩ := State.mainStep_cases hstep
    · rcases (order_frame (s := s) o).log with hlog | hlog
      · exact hsame (hlog.trans (List.append_nil _).symm) (by simp)
      · exact hsame hlog (by simp)
    · obtain ⟨es, hlog, hes⟩ := (execute_frame hexec).log
      intro task hmem
      rw [hlog, List.mem_append] at hmem
      rcases hmem with hmem | hmem
      · exact h task hmem
      · obtain rfl := (hes _ hmem).of_queued
        exact (hok task (by simp [State.nextPut, hordering, hmain])).1
  | signal sig =>
    obtain ⟨-, rfl⟩ := State.step_signal hstep
    exact h
  | newProxies lines =>
    cases hstep
    exact h

section Accounts

variable {hdd : List ℕ} {s : State}

/-- What has been accepted, and does not wait for the main thread to be put, has been put: it is not
called `'finish'`. -/
theorem accepted_ne_finish (hsound : Sound hdd s) (herror : s.error = none) (hnames : NamesTasks s)
    (hputs : s.content .puts = []) {task : Str} (htask : task ∈ accepted s.log) :
    task ≠ finish := by
  have hlossless := hsound.lossless herror
  have hpos := List.count_pos_iff.mpr htask
  have hbooks := hsound.books .puts task
  rw [hputs, List.count_nil, Nat.zero_add, ← arrived_puts] at hbooks
  have hleft := List.count_pos_iff.mp (hbooks ▸ hpos)
  obtain ⟨e, he, hitem⟩ := List.mem_flatMap.mp hleft
  have hloss := hlossless e he
  cases e <;> simp [taskFlow] at hitem
  case queued task' => exact hitem ▸ hnames _ he
  case lostPuts tasks => exact absurd trivial hloss

/-- Where a task goes. -/
theorem accounted_of_gone (hsound : Sound hdd s) (herror : s.error = none) (hdrain : NoDrain s)
    (hfile : InFile s) {task : Str} (hfinish : task ≠ finish)
    (hgone : task ∈ taskFlow.gone s.log) : task ∈ (handled s.log).map Result.uid ∨
      .dropped task ∈ s.log ∨ task ∈ s.tasksFile := by
  obtain ⟨e, he, hitem⟩ := List.mem_flatMap.mp hgone
  have hloss := hsound.lossless herror e he
  cases e <;> simp [taskFlow] at hitem
  case ended => exact absurd hitem hfinish
  case dropped task' => exact Or.inr (Or.inl (hitem ▸ he))
  case passed data =>
    exact Or.inl (List.mem_map.mpr ⟨data, mem_handled.mpr (Or.inl he), hitem.symm⟩)
  case committed data =>
    exact Or.inl (List.mem_map.mpr ⟨data, mem_handled.mpr (Or.inr he), hitem.symm⟩)
  case written task' => exact Or.inr (Or.inr (hitem ▸ hfile _ he))
  case drained task' => exact absurd he (hdrain.log task')
  case lostPuts tasks => exact absurd trivial hloss
  case lostResults results => exact absurd trivial hloss

/-- All that a spider has accepted that has finished: it has been handled, dropped or written. -/
theorem Shutdown.all_accounted (h : Shutdown s) (hsound : Sound hdd s) (hdrain : NoDrain s)
    (hnames : NamesTasks s) (hreturned : s.Returned) :
    ∀ task ∈ accepted s.log, task ∈ (handled s.log).map Result.uid ∨ .dropped task ∈ s.log ∨
      task ∈ s.tasksFile := by
  obtain ⟨hmain, -, herror⟩ := hreturned
  intro task htask
  have hpos := List.count_pos_iff.mpr htask
  cases h with
  | stopping below plain goesOn results stage =>
    exact absurd hmain stage.main_ne_nil
  | stopped results plain goesOn =>
    obtain ⟨c, hc, -⟩ := goesOn
    rw [hmain] at hc
    cases hc
  | raised error => exact absurd herror error
  | finished plain queue noStart closed live =>
    have hputs : s.content .puts = [] := by simp [hmain]
    have hfinish := accepted_ne_finish hsound herror hnames hputs htask
    -- Nothing is left of it anywhere, so it has gone.
    have hqueue : (s.content .queue).count task = 0 := by
      obtain ⟨tasks, n, hqueue, -, hle, -⟩ := closed.emptied
      have hidle : s.threads.count .idle = 0 := List.count_eq_zero.mpr fun hidle => by
        cases LiveIn.nil_iff.mp live _ hidle
      have hnil : tasks = [] := List.eq_nil_of_length_eq_zero (by omega)
      rw [State.content, hqueue, hnil, List.nil_append, List.count_replicate, if_neg]
      simpa using hfinish.symm
    have hhands : (s.content .hands).count task = 0 := List.count_eq_zero.mpr fun hmem => by
      obtain ⟨w, hw, htask'⟩ := List.mem_filterMap.mp hmem
      rw [LiveIn.nil_iff.mp live w hw] at htask'
      cases htask'
    have htotal := hsound.total task
    have hunhandled : (s.content .unhandled).count task = 0 := by simp [queue]
    have hgot : (s.content .got).count task = 0 := by simp [hmain]
    rw [count_finishes s.log hfinish, hqueue, hhands, hunhandled, hputs, hgot, List.count_nil]
      at htotal
    have hgone : task ∈ taskFlow.gone s.log := List.count_pos_iff.mp (by omega)
    exact accounted_of_gone hsound herror hdrain closed.file hfinish hgone

end Accounts

/-- **No task is lost when the spider finishes.** In a run with one SIGTERM and no other signal, in
which no step puts a task where it is lost: when `run` has returned, every task that has been
accepted has a handled result, has been dropped by a worker, or is in the tasks file. -/
theorem handleSIGTERM_keeps_tasks (c : Session) {before after : List Action}
    (hsignals : ∀ a ∈ before ++ after, ¬ a.IsSignal) {s : State}
    (hrun : c.run (before ++ .signal .sigterm :: after) = some s)
    (hok : Allowed State.step StopsCleanly c.start (before ++ .signal .sigterm :: after))
    (hreturned : s.Returned) :
    ∀ task ∈ accepted s.log, task ∈ (handled s.log).map Result.uid ∨ .dropped task ∈ s.log ∨
      task ∈ s.tasksFile := by
  have hsound := c.sound_run hrun
  have hnoSigint : ∀ a ∈ before ++ .signal .sigterm :: after, a ≠ .signal .sigint := by
    rintro a ha rfl
    rcases List.mem_append.mp ha with ha | ha
    · exact hsignals _ (List.mem_append_left _ ha) trivial
    · exact hsignals _ (List.mem_append_right _ ((List.mem_cons.mp ha).resolve_left (by simp)))
        trivial
  have hdrain : NoDrain s :=
    runFrom_inv_of_forall NoDrain (fun h ha hstep => h.step ha hstep) c.noDrain hnoSigint hrun
  have hnames : NamesTasks s :=
    runFrom_inv StopsCleanly NamesTasks (fun h hok hstep => h.step hok hstep)
      (fun _ h => absurd h List.not_mem_nil) hok hrun
  refine Shutdown.all_accounted ?_ hsound hdrain hnames hreturned
  rw [Session.run, runFrom_append] at hrun
  obtain ⟨s₀, hbefore, hrun⟩ := Option.bind_eq_some_iff.mp hrun
  obtain ⟨s₁, hsignal, hafter⟩ := runFrom_cons hrun
  -- Up to the signal.
  have hrunning : Running s₀ ∧ LiveIn s₀ s₀.workers :=
    runFrom_inv_of_forall (fun s => Running s ∧ LiveIn s s.workers)
      (fun h ha hstep => ⟨h.1.step ha hstep, h.2.step hstep⟩)
      ⟨c.running, fun i w hi => by simp [Session.start] at hi⟩
      (fun a ha => hsignals a (List.mem_append_left _ ha)) hbefore
  -- Behind it.
  have hokAfter := ((hok.append hbefore).2.2 s₁ hsignal).and
    (allowed_of_forall (fun a ha _ => hsignals a (List.mem_append_right _ ha)) s₁)
  exact (runFrom_inv _ (fun s => Shutdown s ∧ LiveIn s s.workers)
    (fun h hok hstep => ⟨h.1.step h.2 hok.2 hok.1 hstep, h.2.step hstep⟩)
    ⟨hrunning.1.sigterm hsignal, hrunning.2.step hsignal⟩ hokAfter hafter).1

/-- One worker, which holds one of two tasks, puts it back before the handler puts its `'finish'`,
and takes it again. -/
theorem handleSIGTERM_keeps_tasks_two :
    let c := Session.small 1 ["a\n".toList, "b\n".toList]
    let before := List.replicate 12 Action.main ++ [.worker 0 .take, .worker 0 .nextProxy]
    let after := List.replicate 6 Action.main ++ [.worker 0 .getHtmlError] ++
      List.replicate 5 Action.main ++
      [.worker 0 .take, .worker 0 .nextProxy, .worker 0 (.deliver ⟨"p".toList, [], [], 3⟩),
        .worker 0 .savePage, .worker 0 .saveSubs, .worker 0 .take, .worker 0 .nextProxy] ++
      List.replicate 9 Action.main
    ∃ s, c.run (before ++ .signal .sigterm :: after) = some s ∧ s.Returned ∧
      ∀ task ∈ accepted s.log, task ∈ (handled s.log).map Result.uid ∨ .dropped task ∈ s.log ∨
        task ∈ s.tasksFile := by
  intro c before after
  have heval : (c.run (before ++ .signal .sigterm :: after)).map
      (fun s => decide s.Returned) = some true := by decide +kernel
  obtain ⟨s, hrun, hreturned⟩ := Option.map_eq_some_iff.mp heval
  have hsignals : ∀ a ∈ before ++ after, ¬ a.IsSignal := by decide
  have hok : Allowed State.step StopsCleanly c.start (before ++ .signal .sigterm :: after) := by
    decide +kernel
  exact ⟨s, hrun, of_decide_eq_true hreturned,
    handleSIGTERM_keeps_tasks c hsignals hrun hok (of_decide_eq_true hreturned)⟩

/-- One worker, which holds the only task and puts it back behind its own `'finish'`. -/
theorem handleSIGTERM_loses_task :
    ¬ ∀ (c : Session) (before after : List Action) (s : State),
      (∀ a ∈ before ++ after, ¬ a.IsSignal) →
      c.run (before ++ .signal .sigterm :: after) = some s → s.Returned →
      ∀ task ∈ accepted s.log, task ∈ (handled s.log).map Result.uid ∨ .dropped task ∈ s.log ∨
        task ∈ s.tasksFile := by
  intro hclaim
  let c := Session.small 1 ["a\n".toList]
  let before := List.replicate 10 Action.main ++ [.worker 0 .take, .worker 0 .nextProxy]
  let after := List.replicate 9 Action.main ++
    [.worker 0 .getHtmlError, .worker 0 .take, .worker 0 .nextProxy] ++ List.replicate 6 Action.main
  have heval : (c.run (before ++ .signal .sigterm :: after)).map (fun s =>
      (decide s.Returned, decide ("a".toList ∈ accepted s.log),
        decide ("a".toList ∈ (handled s.log).map Result.uid),
        decide (.dropped "a".toList ∈ s.log), decide ("a".toList ∈ s.tasksFile)))
      = some (true, true, false, false, false) := by decide +kernel
  obtain ⟨s, hrun, h⟩ := Option.map_eq_some_iff.mp heval
  simp only [Prod.mk.injEq, decide_eq_true_eq, decide_eq_false_iff_not] at h
  obtain ⟨hreturned, haccepted, hhandled, hdropped, hfile⟩ := h
  rcases hclaim c before after s (by decide) hrun hreturned _ haccepted with h | h | h
  · exact hhandled h
  · exact hdropped h
  · exact hfile h

end Amigos.Spider
