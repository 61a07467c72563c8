import Amigos.Spider.System

/-!
# What a step leaves as it is

A worker's move touches its own thread, the queues and the directories, and nothing that the main
thread keeps. A command of the main thread leaves the threads and the files of the workers as they
are; only the commands of the handlers change `workers_cnt` and the tasks file, and only they put
commands of their own onto the stack. So what a handler does can be followed on its own, with the
rest of the stack below it.
-/

set_option autoImplicit false

namespace Amigos.Spider

/-- The commands that only the handlers put onto the stack. -/
def Cmd.OfHandler : Cmd → Prop
  | .setWorkersCnt _ => True
  | .joinWorkers => True
  | .join _ => True
  | .openTasksFile => True
  | .writeTasks => True
  | .writeTask => True
  | .putFinishResult => True
  | .drainTasks _ _ => True
  | .drainTask _ _ => True
  | .clearProxies => True
  | .createEmptyDirs => True
  | .returnFromSIGINT => True
  | _ => False

/-- The commands of the loop that empties the queue in `handleSIGINT`. -/
def Cmd.Drains : Cmd → Prop
  | .drainTasks _ _ => True
  | .drainTask _ _ => True
  | _ => False

/-- What only a handler makes happen. -/
def Event.OfHandler : Event → Prop
  | .finishPut => True
  | .written _ => True
  | .tasksWritten => True
  | .drained _ => True
  | _ => False

/-- What only a worker makes happen. -/
def Event.OfWorker : Event → Prop
  | .taken _ => True
  | .ended => True
  | .putBack _ => True
  | .dropped _ => True
  | .delivered _ _ => True
  | .saved _ _ => True
  | .unsaved _ _ => True
  | _ => False

/-- What only the main thread makes happen. -/
def Event.OfMain : Event → Prop
  | .accepted _ => True
  | .queued _ => True
  | .got _ => True
  | .passed _ => True
  | .committed _ => True
  | .lostPuts _ => True
  | .lostResults _ => True
  | _ => False

/-- The events that a command may log in a state. -/
def Cmd.Logs (s : State) : Cmd → Event → Prop
  | .handleResult, .got _ => True
  | .handle (.result data), .passed data' => data' = data
  | .handle (.result data), .committed data' => data' = data ∧ State.minWordsCnt < data.wordsCnt
  | .setTasks _, .accepted _ => True
  | .put task, .queued task' => task' = task
  | .writeTasks, .tasksWritten => s.tasksQueue.isEmpty
  | .writeTask, .written task => s.tasksQueue.head? = some task
  | .drainTask _ _, .drained task => s.tasksQueue.head? = some task
  | _, .lostPuts _ => True
  | _, .lostResults _ => True
  | _, _ => False

theorem Cmd.Logs.not_ofWorker {s : State} {cmd : Cmd} {e : Event} (h : cmd.Logs s e) :
    ¬ e.OfWorker := by
  unfold Cmd.Logs at h
  split at h <;> first | exact id | exact h.elim

theorem Cmd.Logs.of_committed {s : State} {cmd : Cmd} {data : Result}
    (h : cmd.Logs s (.committed data)) :
    cmd = .handle (.result data) ∧ State.minWordsCnt < data.wordsCnt := by
  unfold Cmd.Logs at h
  split at h <;> grind

theorem Cmd.Logs.of_queued {s : State} {cmd : Cmd} {task : Str} (h : cmd.Logs s (.queued task)) :
    cmd = .put task := by
  unfold Cmd.Logs at h
  split at h <;> grind

theorem Cmd.Logs.of_drained {s : State} {cmd : Cmd} {task : Str} (h : cmd.Logs s (.drained task)) :
    ∃ workersCnt tmpTasks, cmd = .drainTask workersCnt tmpTasks := by
  unfold Cmd.Logs at h
  split at h <;> grind

theorem Cmd.Logs.not_ofHandler {s : State} {cmd : Cmd} {e : Event} (h : cmd.Logs s e)
    (hcmd : ¬ cmd.OfHandler) : ¬ e.OfHandler := by
  unfold Cmd.Logs at h
  split at h <;> first | exact id | exact h.elim | exact absurd trivial hcmd

/-- The files of all days. -/
def State.pages (s : State) : Dir := s.pagesDump ++ s.oldPages

def State.subs (s : State) : Dir := s.subsDump ++ s.oldSubs

/-- What a worker's move leaves as it is. -/
structure MoveFrame (i : ℕ) (s s' : State) : Prop where
  threads : ∃ w', s'.threads = s.threads.set i w'
  workers : s'.workers = s.workers
  workersCnt : s'.workersCnt = s.workersCnt
  main : s'.main = s.main
  ordering : s'.ordering = s.ordering
  error : s'.error = s.error
  tasksFile : s'.tasksFile = s.tasksFile
  results : s'.resultsQueue = s.resultsQueue ∨ ∃ task page, .delivered task page ∈ s'.log ∧
    s'.resultsQueue = s.resultsQueue ++ [.result (page.result task)]
  log : ∃ es, s'.log = s.log ++ es ∧ ∀ e ∈ es, ¬ e.OfHandler ∧ ¬ e.OfMain

/-- What a round of a loop of `putWorkersInOrder` leaves as it is. -/
structure OrderFrame (s s' : State) : Prop where
  threads : s'.threads = s.threads ∨ s'.threads = s.threads ++ [.idle]
  workersCnt : s'.workersCnt = s.workersCnt
  main : s'.main = s.main
  error : s'.error = s.error
  resultsQueue : s'.resultsQueue = s.resultsQueue
  tasksFile : s'.tasksFile = s.tasksFile
  pages : s'.pages = s.pages
  subs : s'.subs = s.subs
  log : s'.log = s.log ∨ s'.log = s.log ++ [.finishPut]

/-- What a command leaves as it is. -/
structure ExecuteFrame (cmd : Cmd) (s s' : State) : Prop where
  threads : s'.threads = s.threads
  workers : s'.workers = s.workers
  pages : s'.pages = s.pages
  subs : s'.subs = s.subs
  workersCnt : cmd.OfHandler ∨ s'.workersCnt = s.workersCnt
  ordering : s'.ordering = s.ordering ∨ s'.ordering = some (.look 0)
  tasksFile : cmd.OfHandler ∨ s'.tasksFile = s.tasksFile
  tasksQueue : cmd.OfHandler ∨ (∃ task, cmd = .put task) ∨ s'.tasksQueue = s.tasksQueue
  results : s'.resultsQueue = s.resultsQueue ∨
    (cmd = .handleResult ∧ ∃ m, s.resultsQueue = m :: s'.resultsQueue ∧
      s'.main = .handle m :: s.main) ∨
    (cmd = .putFinishResult ∧ s'.resultsQueue = s.resultsQueue ++ [.finish])
  main : cmd.OfHandler ∨ ∀ c ∈ s'.main, c ∈ s.main ∨ ¬ c.OfHandler
  drains : cmd.Drains ∨ ∀ c ∈ s'.main, c ∈ s.main ∨ ¬ c.Drains
  stack : s'.error ≠ none ∨ ∃ cmds, s'.main = cmds ++ s.main
  error : s.error ≠ none → s'.error ≠ none
  got : ∀ c ∈ s'.main, ∀ data ∈ c.got, c ∈ s.main ∨ .result data ∈ s.resultsQueue
  log : ∃ es, s'.log = s.log ++ es ∧ ∀ e ∈ es, cmd.Logs s e

section Frames

variable {s s' : State}

theorem nextProxy_eq (h : s.nextProxy = some s') :
    ∃ proxiesQueue, s' = { s with proxiesQueue } := by
  unfold State.nextProxy at h
  split at h
  · cases h
  · cases h
    exact ⟨_, rfl⟩

/-- A worker's move that delivers nothing. -/
theorem MoveFrame.of_set {i : ℕ} {w' : Worker} {es : List Event}
    (hthreads : s'.threads = s.threads.set i w') (hworkers : s'.workers = s.workers)
    (hworkersCnt : s'.workersCnt = s.workersCnt) (hmain : s'.main = s.main)
    (hordering : s'.ordering = s.ordering) (herror : s'.error = s.error)
    (htasksFile : s'.tasksFile = s.tasksFile) (hresults : s'.resultsQueue = s.resultsQueue)
    (hlog : s'.log = s.log ++ es) (hes : ∀ e ∈ es, ¬ e.OfHandler ∧ ¬ e.OfMain := by
      simp [Event.OfHandler, Event.OfMain]) : MoveFrame i s s' :=
  ⟨⟨w', hthreads⟩, hworkers, hworkersCnt, hmain, hordering, herror, htasksFile, Or.inl hresults,
    es, hlog, hes⟩

/-- **What a worker's move leaves as it is**, by where the worker is and what it does. -/
theorem move_frame {i : ℕ} {w : Worker} (hget : s.threads[i]? = some w) {action : WorkerAction}
    (h : s.move i w action = some s') : MoveFrame i s s' := by
  have hnil : s.log = s.log ++ [] := (List.append_nil _).symm
  have hset : s.threads = s.threads.set i w := by
    obtain ⟨hi, rfl⟩ := List.getElem?_eq_some_iff.mp hget
    exact List.set_getElem_self hi |>.symm
  unfold State.move at h
  split at h
  case h_1 =>
    split at h
    · cases h
    · cases h
      exact .of_set rfl rfl rfl rfl rfl rfl rfl rfl rfl
  case h_2 =>
    obtain ⟨s₁, hproxy, rfl⟩ := Option.map_eq_some_iff.mp h
    obtain ⟨proxiesQueue, rfl⟩ := nextProxy_eq hproxy
    split
    · exact .of_set rfl rfl rfl rfl rfl rfl rfl rfl hnil
    · exact .of_set rfl rfl rfl rfl rfl rfl rfl rfl rfl
  case h_3 =>
    obtain ⟨proxiesQueue, rfl⟩ := nextProxy_eq h
    exact .of_set hset rfl rfl rfl rfl rfl rfl rfl hnil
  case h_4 =>
    cases h
    refine ⟨⟨_, rfl⟩, rfl, rfl, rfl, rfl, rfl, rfl, Or.inr ⟨_, _, ?_, rfl⟩, _, rfl, ?_⟩
    · exact List.mem_append_right _ List.mem_cons_self
    · simp [Event.OfHandler, Event.OfMain]
  case h_7 =>
    cases h
    exact .of_set rfl rfl rfl rfl rfl rfl rfl rfl hnil
  all_goals
    cases h
    try exact .of_set rfl rfl rfl rfl rfl rfl rfl rfl rfl

theorem order_frame (o : Ordering) : OrderFrame s (s.order o) := by
  cases o with
  | look i =>
    simp only [State.order]
    split <;> split <;> exact ⟨Or.inl rfl, rfl, rfl, rfl, rfl, rfl, rfl, rfl, Or.inl rfl⟩
  | putFinish n =>
    cases n with
    | zero => exact ⟨Or.inl rfl, rfl, rfl, rfl, rfl, rfl, rfl, rfl, Or.inl rfl⟩
    | succ n => exact ⟨Or.inl rfl, rfl, rfl, rfl, rfl, rfl, rfl, rfl, Or.inr rfl⟩
  | startWorkers n =>
    cases n with
    | zero => exact ⟨Or.inl rfl, rfl, rfl, rfl, rfl, rfl, rfl, rfl, Or.inl rfl⟩
    | succ n => exact ⟨Or.inr rfl, rfl, rfl, rfl, rfl, rfl, rfl, rfl, Or.inl rfl⟩

/-- The stack behind some more commands. -/
theorem forall_push {P : Cmd → Prop} {cmds main : List Cmd} (hcmds : ∀ c ∈ cmds, P c) :
    ∀ c ∈ cmds ++ main, c ∈ main ∨ P c := fun c hc =>
  (List.mem_append.mp hc).elim (fun h => Or.inr (hcmds c h)) Or.inl

/-- A command that replaces itself by others, and may log something. -/
theorem ExecuteFrame.push {cmd : Cmd} (cmds : List Cmd) {es : List Event}
    (hthreads : s'.threads = s.threads) (hworkers : s'.workers = s.workers)
    (hpages : s'.pages = s.pages) (hsubs : s'.subs = s.subs)
    (hworkersCnt : s'.workersCnt = s.workersCnt) (hordering : s'.ordering = s.ordering)
    (htasksFile : s'.tasksFile = s.tasksFile) (hmain : s'.main = cmds ++ s.main)
    (hlog : s'.log = s.log ++ es)
    (hcmds : cmd.OfHandler ∨ ∀ c ∈ cmds, ¬ c.OfHandler := by simp [Cmd.OfHandler])
    (hresults : s'.resultsQueue = s.resultsQueue ∨
      (cmd = .handleResult ∧ ∃ m, s.resultsQueue = m :: s'.resultsQueue ∧
        s'.main = .handle m :: s.main) ∨
      (cmd = .putFinishResult ∧ s'.resultsQueue = s.resultsQueue ++ [.finish]) := by
      exact Or.inl rfl)
    (hgot : ∀ c ∈ cmds, ∀ data ∈ c.got, .result data ∈ s.resultsQueue := by simp [Cmd.got])
    (hes : ∀ e ∈ es, cmd.Logs s e := by simp [Cmd.Logs])
    (htasks : cmd.OfHandler ∨ (∃ task, cmd = .put task) ∨ s'.tasksQueue = s.tasksQueue := by
      simp [Cmd.OfHandler])
    (hdrains : cmd.Drains ∨ ∀ c ∈ cmds, ¬ c.Drains := by simp [Cmd.Drains])
    (herror : s'.error = s.error := by rfl) : ExecuteFrame cmd s s' where
  threads := hthreads
  workers := hworkers
  pages := hpages
  subs := hsubs
  workersCnt := Or.inr hworkersCnt
  ordering := Or.inl hordering
  tasksFile := Or.inr htasksFile
  tasksQueue := htasks
  results := hresults
  main := hcmds.imp id fun h => hmain ▸ forall_push h
  drains := hdrains.imp id fun h => hmain ▸ forall_push h
  stack := Or.inr ⟨cmds, hmain⟩
  error h := herror ▸ h
  got c hc data hdata := by
    rw [hmain, List.mem_append] at hc
    exact hc.elim (fun hc => Or.inr (hgot c hc data hdata)) Or.inl
  log := ⟨es, hlog, hes⟩

theorem raise_frame (s : State) (uids : UIdsStorage) (cmd : Cmd) (e : Error) :
    ExecuteFrame cmd s (({ s with uids } : State).raise cmd e) where
  threads := rfl
  workers := rfl
  pages := rfl
  subs := rfl
  workersCnt := Or.inr rfl
  ordering := Or.inl rfl
  tasksFile := Or.inr rfl
  tasksQueue := Or.inr (Or.inr rfl)
  results := Or.inl rfl
  main := by
    unfold State.raise
    split <;> simp [Cmd.OfHandler]
  drains := by
    unfold State.raise
    split <;> simp [Cmd.Drains]
  stack := Or.inl (by simp [State.raise])
  error _ := by simp [State.raise]
  got := by
    unfold State.raise
    split <;> simp [Cmd.got]
  log := ⟨_, rfl, by simp [Cmd.Logs]⟩

/-- **What a command leaves as it is**, by what it is. -/
theorem execute_frame {cmd : Cmd} (h : s.execute cmd = some s') : ExecuteFrame cmd s s' := by
  have hnil : s.log = s.log ++ [] := (List.append_nil _).symm
  have hsame : ExecuteFrame cmd s s := .push [] rfl rfl rfl rfl rfl rfl rfl rfl hnil
  cases cmd with
  | putWorkersInOrder =>
    cases h
    exact { hsame with
      ordering := Or.inr rfl }
  | handleResult =>
    simp only [State.execute] at h
    split at h <;> cases h
    · rename_i hresults
      exact .push _ rfl rfl rfl rfl rfl rfl rfl rfl hnil (by simp [Cmd.OfHandler])
        (Or.inr (Or.inl ⟨rfl, _, hresults, rfl⟩)) (by simp [Cmd.got])
    · rename_i hresults
      exact .push _ rfl rfl rfl rfl rfl rfl rfl rfl rfl (by simp [Cmd.OfHandler])
        (Or.inr (Or.inl ⟨rfl, _, hresults, rfl⟩)) (by simp [hresults, Cmd.got])
  | handle data =>
    cases data with
    | finish =>
      obtain ⟨uids, -, rfl⟩ := Option.map_eq_some_iff.mp h
      exact .push _ rfl rfl rfl rfl rfl rfl rfl rfl hnil
    | result data =>
      simp only [State.execute] at h
      split at h
      · rename_i hcnt
        obtain ⟨⟨r, uids⟩, -, rfl⟩ := Option.map_eq_some_iff.mp h
        cases r with
        | done =>
          refine .push _ rfl rfl rfl rfl rfl rfl rfl rfl rfl (by simp [Cmd.OfHandler])
            (Or.inl rfl) (by simp [Cmd.got]) fun e he => ?_
          cases List.mem_singleton.mp he
          exact ⟨rfl, hcnt⟩
        | keyError => exact raise_frame s uids _ _
      · cases h
        exact .push _ rfl rfl rfl rfl rfl rfl rfl rfl rfl
  | setTasks tasks =>
    cases tasks with
    | nil =>
      cases h
      exact .push [] rfl rfl rfl rfl rfl rfl rfl rfl hnil
    | cons task tasks =>
      simp only [State.execute] at h
      split at h <;> cases h
      · exact raise_frame s s.uids _ _
      · exact .push _ rfl rfl rfl rfl rfl rfl rfl rfl hnil
      · exact .push _ rfl rfl rfl rfl rfl rfl rfl rfl rfl
  | put task =>
    cases h
    exact .push [] rfl rfl rfl rfl rfl rfl rfl rfl rfl
  | endOfPass isAlive =>
    simp only [State.execute] at h
    split at h <;> cases h <;> cases isAlive <;> exact .push _ rfl rfl rfl rfl rfl rfl rfl rfl hnil
  | flushToDisk =>
    obtain ⟨uids, -, rfl⟩ := Option.map_eq_some_iff.mp h
    exact .push [] rfl rfl rfl rfl rfl rfl rfl rfl hnil
  | setWorkersCnt workersCnt =>
    cases h
    exact { hsame with
      workersCnt := Or.inl trivial }
  | join workers =>
    cases workers with
    | nil =>
      cases h
      exact .push [] rfl rfl rfl rfl rfl rfl rfl rfl hnil
    | cons w workers =>
      simp only [State.execute] at h
      split at h <;> cases h
      exact .push _ rfl rfl rfl rfl rfl rfl rfl rfl hnil
  | openTasksFile =>
    cases h
    exact { hsame with
      tasksFile := Or.inl trivial }
  | writeTasks =>
    simp only [State.execute] at h
    split at h <;> rename_i hempty <;> cases h
    · exact .push [] rfl rfl rfl rfl rfl rfl rfl rfl rfl (Or.inl trivial) (Or.inl rfl)
        (by simp) fun e he => List.mem_singleton.mp he ▸ hempty
    · exact .push _ rfl rfl rfl rfl rfl rfl rfl rfl hnil
  | writeTask =>
    simp only [State.execute] at h
    split at h <;> cases h
    rename_i task _ hqueue
    have hframe : ExecuteFrame .writeTask s (s.emit (.written task)) :=
      .push [] rfl rfl rfl rfl rfl rfl rfl rfl rfl (Or.inl trivial) (Or.inl rfl) (by simp)
        fun e he => List.mem_singleton.mp he ▸ congrArg List.head? hqueue
    exact { hframe with tasksFile := Or.inl trivial, tasksQueue := Or.inl trivial }
  | drainTasks workersCnt tmpTasks =>
    simp only [State.execute] at h
    split at h <;> cases h <;>
      exact .push _ rfl rfl rfl rfl rfl rfl rfl rfl hnil (Or.inl trivial) (Or.inl rfl)
        (by simp [State.restOfSIGINT, Cmd.got]) (by simp) (Or.inl trivial) (Or.inl trivial)
  | drainTask workersCnt tmpTasks =>
    simp only [State.execute] at h
    split at h <;> cases h
    rename_i task _ hqueue
    exact .push _ rfl rfl rfl rfl rfl rfl rfl rfl rfl (Or.inl trivial) (Or.inl rfl)
      (by simp [Cmd.got]) fun e he => List.mem_singleton.mp he ▸ congrArg List.head? hqueue
  | putFinishResult =>
    cases h
    exact .push [] rfl rfl rfl rfl rfl rfl rfl rfl hnil (Or.inl trivial)
      (Or.inr (Or.inr ⟨rfl, rfl⟩))
  | createEmptyDirs =>
    cases h
    exact .push [] rfl rfl rfl rfl rfl rfl rfl rfl hnil
  | loadTasks =>
    cases h
    exact .push _ rfl rfl rfl rfl rfl rfl rfl rfl hnil
  | run =>
    cases h
    exact .push _ rfl rfl rfl rfl rfl rfl rfl rfl hnil
  | joinWorkers =>
    cases h
    exact .push _ rfl rfl rfl rfl rfl rfl rfl rfl hnil
  | _ =>
    cases h
    exact .push [] rfl rfl rfl rfl rfl rfl rfl rfl hnil

end Frames

end Amigos.Spider
