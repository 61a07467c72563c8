import Amigos.Lib.Steps
import Amigos.Spider.Text
import Amigos.Spider.UIdsStorage

/-!
# The spider and its workers (`spider.py`, `worker.py`)

The main thread takes results from one queue and puts tasks into another; any number of worker
threads does the opposite. The machine below is that system. An action is a move of one worker,
of the main thread, or of the environment: a signal, a new list of proxies.

The operations of the queues are atomic, and so are those of the uid storage, which only the main
thread uses. Everything else may be interleaved. So the main thread is a stack of commands, each of
which does one such operation and puts what comes behind it back onto the stack. A signal puts its
handler on top of whatever the main thread is doing in `run`; only `putWorkersInOrder`, whose loop
is over a list that the handlers change, is gone through without being interrupted.

What the network answers to a worker is part of its action. The log is no part of the program: it
says what has happened to the tasks, and no step looks at it.
-/

set_option autoImplicit false

namespace Amigos.Spider

open Amigos.Lib

/-! ## The data -/

/-- The task that ends a worker, and the result that ends `run`. -/
def finish : Str := "finish".toList

/-- What a worker makes of a task: the page, its subtitles by language, the related videos, and
`words_cnt`. -/
structure Page where
  htmlPage : Str
  subs : List (Str × Str)
  newTasks : List Str
  wordsCnt : ℕ
  deriving DecidableEq, Repr

/-- `result` in `Worker.run`. -/
structure Result where
  uid : Str
  newTasks : List Str
  wordsCnt : ℕ
  deriving DecidableEq, Repr

def Page.result (page : Page) (task : Str) : Result :=
  { uid := task, newTasks := page.newTasks, wordsCnt := page.wordsCnt }

/-- An element of `results_queue`. -/
inductive Message where
  | result (data : Result)
  | finish
  deriving DecidableEq, Repr

/-- Where a worker is in `Worker.run`. -/
inductive Worker where
  /-- In front of `tasks_queue.get()`. -/
  | idle
  /-- In front of `getNextProxy`. -/
  | taken (task : Str)
  | fetching (task : Str) (isTask : task ≠ finish)
  /-- Behind `results_queue.put`. -/
  | saving (task : Str) (page : Page)
  /-- The page has been written. -/
  | savingSubs (task : Str) (page : Page)
  | ended
  deriving DecidableEq, Repr

/-- The files of a directory, the last one written first. -/
abbrev Dir := List (Str × Str)

/-- What `save` writes of the subtitles. -/
def subsText (subs : List (Str × Str)) : Str :=
  subs.flatMap fun lang => "[".toList ++ lang.1 ++ "]".toList ++ lang.2

/-- What `putWorkersInOrder` has still to do. -/
inductive Ordering where
  /-- The loop stands at this place of `workers`. -/
  | look (i : ℕ)
  | putFinish (n : ℕ)
  | startWorkers (n : ℕ)
  deriving DecidableEq, Repr

inductive Cmd where
  | putWorkersInOrder
  | loadTasks
  | loadProxies
  /-- The end of `__init__`. -/
  | run
  | handleResult
  | handle (data : Message)
  | setTasks (tasks : List Str)
  | put (task : Str)
  /-- What `run` does behind `handleResult`. -/
  | endOfPass (isAlive : Bool)
  | flushToDisk
  | setWorkersCnt (n : ℕ)
  | joinWorkers
  | join (workers : List ℕ)
  -- `handleSIGTERM`
  | openTasksFile
  | writeTasks
  | writeTask
  | putFinishResult
  -- `handleSIGINT`
  | drainTasks (workersCnt : ℕ) (tmpTasks : List Str)
  | drainTask (workersCnt : ℕ) (tmpTasks : List Str)
  | clearProxies
  | createEmptyDirs
  | returnFromSIGINT
  deriving DecidableEq, Repr

/-- What the main thread ends with. -/
inductive Error where
  | keyError
  | overflowError
  deriving DecidableEq, Repr

/-- What happens to tasks and results. -/
inductive Event where
  /-- `uids.add` was true of the task. -/
  | accepted (task : Str)
  /-- `setTasks` has put it. -/
  | queued (task : Str)
  /-- `putWorkersInOrder` has put `'finish'`. -/
  | finishPut
  | taken (task : Str)
  /-- A `'finish'` has ended the worker that took it. -/
  | ended
  /-- A worker has put the task back. -/
  | putBack (task : Str)
  /-- A worker has dropped the task with a `ValueError`. -/
  | dropped (task : Str)
  | delivered (task : Str) (page : Page)
  /-- `results_queue.get()` has returned. -/
  | got (data : Result)
  /-- The result has been handled; there are not words enough to commit it. -/
  | passed (data : Result)
  | committed (data : Result)
  /-- `handleSIGTERM` has written the task to the tasks file. -/
  | written (task : Str)
  /-- `handleSIGTERM` has found the queue empty. -/
  | tasksWritten
  /-- `handleSIGINT` has taken the task out of the queue. -/
  | drained (task : Str)
  /-- What an exception of the main thread has kept it from putting, and from handling. -/
  | lostPuts (tasks : List Str)
  | lostResults (results : List Result)
  | saved (task : Str) (page : Page)
  /-- `save` has raised. -/
  | unsaved (task : Str) (page : Page)
  deriving DecidableEq, Repr

structure State where
  uids : UIdsStorage
  tasksQueue : List Str
  resultsQueue : List Message
  proxiesQueue : List Str
  /-- Every thread that has been started, by number. -/
  threads : List Worker
  /-- `self.workers`, as such numbers. -/
  workers : List ℕ
  workersCnt : ℕ
  checkWorkersPeriod : ℤ
  handledPagesTmpCnt : ℕ
  main : List Cmd
  ordering : Option Ordering
  error : Option Error
  /-- The lines of the files. -/
  tasksFile : List Str
  proxiesFile : List Str
  pagesDump : Dir
  subsDump : Dir
  /-- The directories of earlier days. -/
  oldPages : Dir
  oldSubs : Dir
  log : List Event

/-! ## The workers -/

inductive WorkerAction where
  | take
  | nextProxy
  /-- `extractInfo` and `getSubs` have succeeded, and the result is put. -/
  | deliver (page : Page)
  | valueError
  | getHtmlError
  | savePage
  | saveSubs
  /-- `save` raises; a file that was open is left with this text. -/
  | saveError (left : Option Str)
  deriving DecidableEq, Repr

namespace State

@[simp] def emit (s : State) (event : Event) : State := { s with log := s.log ++ [event] }

@[simp] def setThread (s : State) (i : ℕ) (w : Worker) : State :=
  { s with threads := s.threads.set i w }

/-- The file that `save` was writing when it raised. -/
def leave (dir : Dir) (task : Str) : Option Str → Dir
  | none => dir
  | some text => (task, text) :: dir

/-- `getNextProxy`, which waits for a proxy. -/
def nextProxy (s : State) : Option State :=
  match s.proxiesQueue with
  | [] => none
  | proxy :: proxies => some { s with proxiesQueue := proxies ++ [proxy] }

/-- A move of the worker `i`, which is at `w`. -/
def move (s : State) (i : ℕ) : Worker → WorkerAction → Option State
  | .idle, .take =>
    match s.tasksQueue with
    | [] => none
    | task :: tasksQueue =>
      some (({ s with tasksQueue }.setThread i (.taken task)).emit (.taken task))
  | .taken task, .nextProxy =>
    s.nextProxy.map fun s =>
      if isTask : task ≠ finish then s.setThread i (.fetching task isTask)
      else (s.setThread i .ended).emit .ended
  | .fetching _ _, .nextProxy => s.nextProxy
  | .fetching task _, .deliver page =>
    let resultsQueue := s.resultsQueue ++ [.result (page.result task)]
    some (({ s with resultsQueue }.setThread i (.saving task page)).emit (.delivered task page))
  | .fetching task _, .valueError => some ((s.setThread i .idle).emit (.dropped task))
  | .fetching task _, .getHtmlError =>
    let tasksQueue := s.tasksQueue ++ [task]
    some (({ s with tasksQueue }.setThread i .idle).emit (.putBack task))
  | .saving task page, .savePage =>
    let pagesDump := (task, page.htmlPage) :: s.pagesDump
    some ({ s with pagesDump }.setThread i (.savingSubs task page))
  | .savingSubs task page, .saveSubs =>
    let subsDump := (task, subsText page.subs) :: s.subsDump
    some (({ s with subsDump }.setThread i .idle).emit (.saved task page))
  | .saving task page, .saveError left =>
    let pagesDump := leave s.pagesDump task left
    some (({ s with pagesDump }.setThread i .ended).emit (.unsaved task page))
  | .savingSubs task page, .saveError left =>
    let subsDump := leave s.subsDump task left
    some (({ s with subsDump }.setThread i .ended).emit (.unsaved task page))
  | _, _ => none

/-- `not is_alive()`. -/
def hasEnded (s : State) (i : ℕ) : Bool := s.threads[i]? == some .ended

end State

/-! ## The main thread -/

/-- A task that `setTasks` has accepted and not yet put. -/
def Cmd.puts : Cmd → List Str
  | .put task => [task]
  | _ => []

/-- A result that has been taken out of `results_queue` and not yet been handled. -/
def Cmd.got : Cmd → List Result
  | .handle (.result data) => [data]
  | _ => []

namespace State

/-- More commands for the main thread, in front of the others. -/
@[simp] def push (s : State) (cmds : List Cmd) : State := { s with main := cmds ++ s.main }

/-- An exception that nothing catches: `__main__` flushes and raises it again if it comes out of
`run`. The command that raised, `cmd`, is no longer on the stack. -/
def raise (s : State) (cmd : Cmd) (e : Error) : State :=
  { s with
    error := some e
    main := if s.main.contains .run then [] else [.flushToDisk]
    log := s.log ++ [.lostPuts ((cmd :: s.main).flatMap Cmd.puts),
      .lostResults ((cmd :: s.main).flatMap Cmd.got)] }

/-- One round of a loop of `putWorkersInOrder`. The source moves the live workers to the front and
cuts the list behind the loop; here a worker that has ended is taken out at once. -/
def order (s : State) : Ordering → State
  | .look i =>
    match s.workers[i]? with
    | some w =>
      if s.hasEnded w then { s with workers := s.workers.eraseIdx i }
      else { s with ordering := some (.look (i + 1)) }
    | none =>
      if s.workers.length > s.workersCnt then
        { s with ordering := some (.putFinish (s.workers.length - s.workersCnt)) }
      else { s with ordering := some (.startWorkers (s.workersCnt - s.workers.length)) }
  | .putFinish 0 => { s with ordering := none }
  | .putFinish (n + 1) =>
    let tasksQueue := s.tasksQueue ++ [finish]
    { s with tasksQueue, ordering := some (.putFinish n) }.emit .finishPut
  | .startWorkers 0 => { s with ordering := none }
  | .startWorkers (n + 1) =>
    { s with
      workers := s.workers ++ [s.threads.length]
      threads := s.threads ++ [.idle]
      ordering := some (.startWorkers n) }

/-- `min_words_cnt`. -/
def minWordsCnt : ℕ := 125 * 2

/-- What is on the stack of `handleSIGINT` behind the loop that empties the queue. -/
def restOfSIGINT (workersCnt : ℕ) (tmpTasks : List Str) : List Cmd :=
  [.setWorkersCnt 0, .putWorkersInOrder, .joinWorkers, .clearProxies, .loadProxies,
    .setTasks tmpTasks, .createEmptyDirs, .setWorkersCnt workersCnt, .putWorkersInOrder,
    .returnFromSIGINT]

/-- A command that has been taken from the stack; `none` while it waits. -/
def execute (s : State) : Cmd → Option State
  | .putWorkersInOrder => some { s with ordering := some (.look 0) }
  | .loadTasks => some (s.push [.setTasks (s.tasksFile.map strip)])
  | .loadProxies =>
    some { s with
      proxiesQueue := s.proxiesQueue ++ s.proxiesFile.map fun proxy =>
        "http://".toList ++ strip proxy }
  | .run => some (s.push [.handleResult])
  | .handleResult =>
    match s.resultsQueue with
    | [] => none
    | .finish :: resultsQueue => some ({ s with resultsQueue }.push [.handle .finish])
    | .result data :: resultsQueue =>
      some (({ s with resultsQueue }.push [.handle (.result data)]).emit (.got data))
  | .handle (.result data) =>
    if data.wordsCnt > minWordsCnt then
      (s.uids.commit s.uids.fuel (uidOf data.uid)).map fun
        | (.done, uids) =>
          ({ s with uids }.push [.setTasks data.newTasks, .endOfPass true]).emit (.committed data)
        | (.keyError, uids) => { s with uids }.raise (.handle (.result data)) .keyError
    else some ((s.push [.endOfPass true]).emit (.passed data))
  -- `data['uid']` of a string is a `TypeError`, which is caught.
  | .handle .finish =>
    (s.uids.flushToDisk s.uids.fuel).map fun uids => { s with uids }.push [.endOfPass false]
  | .setTasks [] => some s
  | .setTasks (task :: tasks) =>
    match s.uids.add s.uids.fuel (uidOf task) with
    | none => some (s.raise (.setTasks (task :: tasks)) .overflowError)
    | some (false, uids) => some ({ s with uids }.push [.setTasks tasks])
    | some (true, uids) =>
      some (({ s with uids }.push [.put task, .setTasks tasks]).emit (.accepted task))
  | .put task => some ({ s with tasksQueue := s.tasksQueue ++ [task] }.emit (.queued task))
  | .endOfPass isAlive =>
    let next : List Cmd := if isAlive then [.handleResult] else []
    if (s.handledPagesTmpCnt + 1 : ℤ) = s.checkWorkersPeriod then
      some ({ s with handledPagesTmpCnt := 0 }.push (.putWorkersInOrder :: next))
    else some ({ s with handledPagesTmpCnt := s.handledPagesTmpCnt + 1 }.push next)
  | .flushToDisk => (s.uids.flushToDisk s.uids.fuel).map fun uids => { s with uids }
  | .setWorkersCnt workersCnt => some { s with workersCnt }
  | .joinWorkers => some (s.push [.join s.workers])
  | .join [] => some s
  | .join (w :: workers) => if s.hasEnded w then some (s.push [.join workers]) else none
  | .openTasksFile => some { s with tasksFile := [] }
  | .writeTasks =>
    if s.tasksQueue.isEmpty then some (s.emit .tasksWritten)
    else some (s.push [.writeTask, .writeTasks])
  | .writeTask =>
    match s.tasksQueue with
    | [] => none
    | task :: tasksQueue =>
      let tasksFile := s.tasksFile ++ [task]
      some ({ s with tasksQueue, tasksFile }.emit (.written task))
  | .putFinishResult => some { s with resultsQueue := s.resultsQueue ++ [.finish] }
  | .drainTasks workersCnt tmpTasks =>
    if s.tasksQueue.isEmpty then some (s.push (restOfSIGINT workersCnt tmpTasks))
    else some (s.push [.drainTask workersCnt tmpTasks])
  | .drainTask workersCnt tmpTasks =>
    match s.tasksQueue with
    | [] => none
    | task :: tasksQueue =>
      let tmpTasks := tmpTasks ++ [task]
      some (({ s with tasksQueue }.push [.drainTasks workersCnt tmpTasks]).emit (.drained task))
  | .clearProxies => some { s with proxiesQueue := [] }
  | .createEmptyDirs =>
    some { s with
      pagesDump := []
      subsDump := []
      oldPages := s.pagesDump ++ s.oldPages
      oldSubs := s.subsDump ++ s.oldSubs }
  | .returnFromSIGINT => some s

def mainStep (s : State) : Option State :=
  match s.ordering with
  | some o => some (s.order o)
  | none =>
    match s.main with
    | [] => none
    | cmd :: main => { s with main }.execute cmd

theorem mainStep_cases {s s' : State} (h : s.mainStep = some s') :
    (∃ o, s.ordering = some o ∧ s' = s.order o) ∨
      (s.ordering = none ∧ ∃ cmd main, s.main = cmd :: main ∧
        ({ s with main } : State).execute cmd = some s') := by
  unfold mainStep at h
  cases hordering : s.ordering with
  | some o =>
    rw [hordering] at h
    exact Or.inl ⟨o, rfl, (Option.some.inj h).symm⟩
  | none =>
    rw [hordering] at h
    cases hmain : s.main with
    | nil =>
      rw [hmain] at h
      cases h
    | cons cmd main =>
      rw [hmain] at h
      exact Or.inr ⟨rfl, cmd, main, rfl, h⟩

/-! ## The system -/

end State

inductive Signal where
  | sigint
  | sigterm
  deriving DecidableEq, Repr

inductive Action where
  | worker (i : ℕ) (action : WorkerAction)
  | main
  | signal (sig : Signal)
  /-- The external worker writes the proxies file. -/
  | newProxies (lines : List Str)
  deriving DecidableEq, Repr

def Action.IsSignal : Action → Prop
  | .signal _ => True
  | _ => False

instance (a : Action) : Decidable a.IsSignal := by
  cases a <;> unfold Action.IsSignal <;> infer_instance

namespace State

/-- The handlers. -/
def handler (s : State) : Signal → List Cmd
  | .sigterm => [.openTasksFile, .writeTasks, .setWorkersCnt 0, .putWorkersInOrder, .joinWorkers,
      .putFinishResult]
  | .sigint => [.drainTasks s.workersCnt []]

/-- A handler runs when the main thread is in `run`. -/
def interruptible (s : State) : Bool :=
  s.main ≠ [] && !s.main.contains .run && s.ordering.isNone && s.error.isNone

def step (s : State) : Action → Option State
  | .worker i action => (s.threads[i]?).bind fun w => s.move i w action
  | .main => s.mainStep
  | .signal sig => if s.interruptible then some (s.push (s.handler sig)) else none
  | .newProxies lines => some { s with proxiesFile := lines }

/-- A worker that moves has been started. -/
theorem step_worker {s s' : State} {i : ℕ} {action : WorkerAction}
    (h : s.step (.worker i action) = some s') :
    ∃ w, s.threads[i]? = some w ∧ s.move i w action = some s' :=
  Option.bind_eq_some_iff.mp h

/-- A signal puts its handler on the stack. -/
theorem step_signal {s s' : State} {sig : Signal} (h : s.step (.signal sig) = some s') :
    s.interruptible = true ∧ s' = s.push (s.handler sig) := by
  simp only [step] at h
  split at h
  · rename_i hint
    exact ⟨hint, (Option.some.inj h).symm⟩
  · cases h

/-- `run` has returned. -/
def Returned (s : State) : Prop := s.main = [] ∧ s.ordering = none ∧ s.error = none

instance (s : State) : Decidable s.Returned := inferInstanceAs (Decidable (_ ∧ _ ∧ _))

end State

/-- What a session starts with. The file of the uids is one that an earlier session has left: the
uids of what it committed, in increasing order. -/
structure Session where
  uidSize : ℕ
  maxUidsOnRamCnt : ℤ
  uids : List ℕ
  workersCnt : ℕ
  checkWorkersPeriod : ℤ
  tasksFile : List Str
  proxiesFile : List Str
  sizePos : 1 ≤ uidSize
  increasing : uids.Pairwise (· < ·)
  below : ∀ uid ∈ uids, uid < 256 ^ uidSize

/-- `Spider.__init__`, up to its first call. -/
def Session.start (c : Session) : State :=
  { uids := .init c.uidSize (records c.uidSize c.uids) c.maxUidsOnRamCnt
    tasksQueue := []
    resultsQueue := []
    proxiesQueue := []
    threads := []
    workers := []
    workersCnt := c.workersCnt
    checkWorkersPeriod := c.checkWorkersPeriod
    handledPagesTmpCnt := 0
    main := [.putWorkersInOrder, .loadTasks, .loadProxies, .run]
    ordering := none
    error := none
    tasksFile := c.tasksFile
    proxiesFile := c.proxiesFile
    pagesDump := []
    subsDump := []
    oldPages := []
    oldSubs := []
    log := [] }

/-- A session with nothing on disk but one proxy and these tasks. -/
def Session.small (workersCnt : ℕ) (tasksFile : List Str) : Session where
  uidSize := 4
  maxUidsOnRamCnt := 10
  uids := []
  workersCnt := workersCnt
  checkWorkersPeriod := 1000
  tasksFile := tasksFile
  proxiesFile := ["proxy\n".toList]
  sizePos := by decide
  increasing := List.Pairwise.nil
  below := by simp

/-- The state behind some actions. -/
def Session.run (c : Session) (actions : List Action) : Option State :=
  runFrom State.step c.start actions

end Amigos.Spider
