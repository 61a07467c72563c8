import Mathlib.Data.Fintype.Defs
import Amigos.Lib.Flow
import Amigos.Spider.Frames

/-!
# Where a task is

A task is in `tasks_queue`, in the hands of a worker, in an unhandled result, or with the main
thread, which has accepted and not yet put it, or has taken its result and not yet handled it.
`taskFlow` says between which of these places an event takes it.

`step_effect` is the one look that is taken at the steps of the machine: what a step logs, that the
books agree with it, and what has become of the uid storage. `Sound` is what follows for every run,
whatever signals arrive: the books are balanced, the storage is the set that the log makes of it,
and no uid has been accepted twice.
-/

set_option autoImplicit false

namespace Amigos.Spider

open Amigos.Lib

/-! ## Places -/

inductive Place where
  | queue
  | hands
  | unhandled
  | puts
  | got
  deriving DecidableEq, Repr

instance : Fintype Place where
  elems := {.queue, .hands, .unhandled, .puts, .got}
  complete p := by cases p <;> decide

/-- The task that a worker holds. -/
@[simp] def Worker.task? : Worker → Option Str
  | .taken task => some task
  | .fetching task _ => some task
  | _ => none

@[simp] def Message.uid? : Message → Option Str
  | .result data => some data.uid
  | .finish => none

@[simp] def State.content (s : State) : Place → List Str
  | .queue => s.tasksQueue
  | .hands => s.threads.filterMap Worker.task?
  | .unhandled => s.resultsQueue.filterMap Message.uid?
  | .puts => s.main.flatMap Cmd.puts
  | .got => (s.main.flatMap Cmd.got).map Result.uid

@[simp] def Event.source : Event → Option Place
  | .queued _ => some .puts
  | .taken _ => some .queue
  | .ended => some .hands
  | .putBack _ => some .hands
  | .dropped _ => some .hands
  | .delivered _ _ => some .hands
  | .got _ => some .unhandled
  | .passed _ => some .got
  | .committed _ => some .got
  | .written _ => some .queue
  | .drained _ => some .queue
  | .lostPuts _ => some .puts
  | .lostResults _ => some .got
  | _ => none

@[simp] def Event.target : Event → Option Place
  | .accepted _ => some .puts
  | .queued _ => some .queue
  | .finishPut => some .queue
  | .taken _ => some .hands
  | .putBack _ => some .queue
  | .delivered _ _ => some .unhandled
  | .got _ => some .got
  | _ => none

@[simp] def Event.tasks : Event → List Str
  | .accepted task => [task]
  | .queued task => [task]
  | .finishPut => [finish]
  | .taken task => [task]
  | .ended => [finish]
  | .putBack task => [task]
  | .dropped task => [task]
  | .delivered task _ => [task]
  | .got data => [data.uid]
  | .passed data => [data.uid]
  | .committed data => [data.uid]
  | .written task => [task]
  | .drained task => [task]
  | .lostPuts tasks => tasks
  | .lostResults results => results.map Result.uid
  | _ => []

def taskFlow : Flow Event Place Str where
  source := Event.source
  target := Event.target
  items := Event.tasks

/-- One event, place by place. -/
theorem moves_single {e : Event} {c c' : Place → List Str}
    (h : ∀ p x, (c p).count x + (if e.target = some p then e.tasks else []).count x
      = (c' p).count x + (if e.source = some p then e.tasks else []).count x) :
    taskFlow.Moves [e] c c' := by
  intro p x
  simpa [Flow.arrived_cons, Flow.left_cons, taskFlow] using h p x

/-! ## Sorting out a log -/

def accepted (log : List Event) : List Str :=
  log.flatMap fun | .accepted task => [task] | _ => []

def committed (log : List Event) : List Result :=
  log.flatMap fun | .committed data => [data] | _ => []

/-- The set that the log makes of the uids in the file. -/
def known (hdd : List ℕ) (log : List Event) : UIdSet where
  added := hdd.toFinset ∪ ((accepted log).map uidOf).toFinset
  committed := hdd.toFinset ∪ ((committed log).map fun data => uidOf data.uid).toFinset

@[simp] theorem accepted_append (log es : List Event) :
    accepted (log ++ es) = accepted log ++ accepted es := List.flatMap_append

@[simp] theorem committed_append (log es : List Event) :
    committed (log ++ es) = committed log ++ committed es := List.flatMap_append

/-- The results that `handleResult` has been through with. -/
def handled (log : List Event) : List Result :=
  log.flatMap fun | .passed data => [data] | .committed data => [data] | _ => []

/-- The `'finish'` of `putWorkersInOrder`. -/
def finishes (log : List Event) : List Str :=
  log.flatMap fun | .finishPut => [finish] | _ => []

/-- What `setTasks` has put into the queue, and what the workers have put back. -/
def queuedBy (log : List Event) : List Str :=
  log.flatMap fun | .queued task => [task] | _ => []

def putBackBy (log : List Event) : List Str :=
  log.flatMap fun | .putBack task => [task] | _ => []

/-- What the workers have taken out of the queue, and the handlers. -/
def takenBy (log : List Event) : List Str :=
  log.flatMap fun | .taken task => [task] | _ => []

def drainedBy (log : List Event) : List Str :=
  log.flatMap fun | .drained task => [task] | _ => []

def writtenBy (log : List Event) : List Str :=
  log.flatMap fun | .written task => [task] | _ => []

theorem mem_accepted {log : List Event} {task : Str} :
    task ∈ accepted log ↔ Event.accepted task ∈ log := by
  simp only [accepted, List.mem_flatMap]
  constructor
  · rintro ⟨e, he, hmem⟩
    cases e <;> simp_all
  · exact fun h => ⟨_, h, List.mem_singleton.mpr rfl⟩

theorem mem_committed {log : List Event} {data : Result} :
    data ∈ committed log ↔ Event.committed data ∈ log := by
  simp only [committed, List.mem_flatMap]
  constructor
  · rintro ⟨e, he, hmem⟩
    cases e <;> simp_all
  · exact fun h => ⟨_, h, List.mem_singleton.mpr rfl⟩

theorem mem_handled {log : List Event} {data : Result} :
    data ∈ handled log ↔ Event.passed data ∈ log ∨ Event.committed data ∈ log := by
  simp only [handled, List.mem_flatMap]
  constructor
  · rintro ⟨e, he, hmem⟩
    cases e <;> simp_all
  · rintro (h | h) <;> exact ⟨_, h, List.mem_singleton.mpr rfl⟩

/-- Events that accept and commit nothing leave the set as it is. -/
theorem known_append {hdd : List ℕ} {log es : List Event} (haccepted : accepted es = [])
    (hcommitted : committed es = []) : known hdd (log ++ es) = known hdd log := by
  simp only [known, accepted_append, committed_append, haccepted, hcommitted, List.append_nil]

theorem known_accept (hdd : List ℕ) (log : List Event) (task : Str) :
    known hdd (log ++ [.accepted task]) = { known hdd log with
      added := insert (uidOf task) (known hdd log).added } := by
  simp [known, accepted, committed, List.toFinset_append, Finset.union_comm]

theorem known_commit (hdd : List ℕ) (log : List Event) (data : Result) :
    known hdd (log ++ [.committed data]) = { known hdd log with
      committed := insert (uidOf data.uid) (known hdd log).committed } := by
  simp [known, accepted, committed]

/-- The events that an exception of the main thread logs. -/
def Event.IsLoss : Event → Prop
  | .lostPuts _ => True
  | .lostResults _ => True
  | _ => False

/-- What a worker has fetched is not the end of its loop. -/
def Event.Proper : Event → Prop
  | .putBack task => task ≠ finish
  | .dropped task => task ≠ finish
  | .delivered task _ => task ≠ finish
  | _ => True

/-! ## What a step does -/

/-- **What a step does**, with what it logs. -/
structure Effect (hdd : List ℕ) (s s' : State) (es : List Event) : Prop where
  log : s'.log = s.log ++ es
  moves : taskFlow.Moves es s.content s'.content
  store : Refines s'.uids (known hdd s'.log)
  fresh : ∀ task, .accepted task ∈ es → es = [.accepted task] ∧ uidOf task ∉ (known hdd s.log).added
  proper : ∀ e ∈ es, e.Proper
  error : (s'.error = s.error ∧ ∀ e ∈ es, ¬ e.IsLoss) ∨ s'.error = some .overflowError ∨
    (s'.error = some .keyError ∧
      ∃ uid ∈ s.content .got, ¬ (known hdd s.log).Pending (uidOf uid))

section Effects

variable {hdd : List ℕ} {s s' : State}

/-- A step that moves no task. -/
theorem Effect.silent (hlog : s'.log = s.log) (hmoves : taskFlow.Moves [] s.content s'.content)
    (hstore : Refines s'.uids (known hdd s.log)) (herror : s'.error = s.error) :
    Effect hdd s s' [] where
  log := by rw [hlog, List.append_nil]
  moves := hmoves
  store := hlog ▸ hstore
  fresh _ h := absurd h List.not_mem_nil
  proper _ h := absurd h List.not_mem_nil
  error := Or.inl ⟨herror, fun _ h => absurd h List.not_mem_nil⟩

/-- A step that logs one event, and neither accepts nor commits. -/
theorem Effect.single {e : Event} (hlog : s'.log = s.log ++ [e])
    (hmoves : taskFlow.Moves [e] s.content s'.content)
    (hstore : Refines s'.uids (known hdd s.log)) (hproper : e.Proper)
    (herror : s'.error = s.error) (haccepted : accepted [e] = [] := by rfl)
    (hcommitted : committed [e] = [] := by rfl) (hloss : ¬ e.IsLoss := by exact id) :
    Effect hdd s s' [e] where
  log := hlog
  moves := hmoves
  store := by rw [hlog, known_append haccepted hcommitted]; exact hstore
  fresh task h := by
    rw [← List.mem_singleton.mp h] at haccepted
    cases haccepted
  proper e' h := List.mem_singleton.mp h ▸ hproper
  error := Or.inl ⟨herror, fun e' h => List.mem_singleton.mp h ▸ hloss⟩

/-- One worker goes on from `w` to `w'`: only the two queues and its own hands are concerned. -/
theorem moves_worker {i : ℕ} {w w' : Worker} {e : Event} (hget : s.threads[i]? = some w)
    (hthreads : s'.threads = s.threads.set i w') (hmain : s'.main = s.main)
    (houtside : ∀ p ∈ [e.source, e.target], p ≠ some .puts ∧ p ≠ some .got)
    (h : ∀ x,
      s.tasksQueue.count x + (if e.target = some .queue then e.tasks else []).count x
        = s'.tasksQueue.count x + (if e.source = some .queue then e.tasks else []).count x ∧
      w.task?.toList.count x + (if e.target = some .hands then e.tasks else []).count x
        = w'.task?.toList.count x + (if e.source = some .hands then e.tasks else []).count x ∧
      (s.content .unhandled).count x
          + (if e.target = some .unhandled then e.tasks else []).count x
        = (s'.content .unhandled).count x
          + (if e.source = some .unhandled then e.tasks else []).count x) :
    taskFlow.Moves [e] s.content s'.content := by
  apply moves_single
  intro p x
  obtain ⟨hqueue, hhands, hunhandled⟩ := h x
  have hsource := houtside e.source (by simp)
  have htarget := houtside e.target (by simp)
  cases p with
  | queue => exact hqueue
  | hands =>
    have hset := count_filterMap_set Worker.task? hget w' x
    rw [State.content, State.content, hthreads]
    omega
  | unhandled => exact hunhandled
  | puts => rw [if_neg hsource.1, if_neg htarget.1, State.content, State.content, hmain]
  | got => rw [if_neg hsource.2, if_neg htarget.2, State.content, State.content, hmain]

/-- A worker goes on with what it holds. -/
theorem hands_perm {i : ℕ} {w w' : Worker} (hget : s.threads[i]? = some w)
    (htask : w'.task? = w.task?) : ((s.threads.set i w').filterMap Worker.task?).Perm
      (s.threads.filterMap Worker.task?) := by
  apply List.perm_iff_count.mpr
  intro x
  have hset := count_filterMap_set Worker.task? hget w' x
  rw [htask] at hset
  omega

/-- A worker's move, by where it is and what it does. -/
theorem move_effect (hstore : Refines s.uids (known hdd s.log)) {i : ℕ} {w : Worker}
    (hget : s.threads[i]? = some w) {action : WorkerAction} (h : s.move i w action = some s') :
    ∃ es, Effect hdd s s' es := by
  cases w with
  | idle =>
    cases action with
    | take =>
      simp only [State.move] at h
      split at h
      · cases h
      · rename_i task tasksQueue hqueue
        cases h
        refine ⟨[.taken task], .single rfl (moves_worker hget rfl rfl (by simp) fun x => ?_)
          hstore trivial rfl⟩
        simp [hqueue, List.count_cons]
    | _ => cases h
  | taken task =>
    cases action with
    | nextProxy =>
      obtain ⟨s₁, hproxy, rfl⟩ := Option.map_eq_some_iff.mp h
      obtain ⟨proxiesQueue, rfl⟩ := nextProxy_eq hproxy
      split
      · refine ⟨[], .silent rfl (Flow.Moves.of_perm _ fun p => ?_) hstore rfl⟩
        cases p with
        | hands => exact hands_perm hget rfl
        | _ => exact List.Perm.refl _
      · rename_i hfinish
        obtain rfl : task = finish := not_not.mp hfinish
        refine ⟨[.ended], .single rfl (moves_worker hget rfl rfl (by simp) fun x => ?_)
          hstore trivial rfl⟩
        simp
    | _ => cases h
  | fetching task isTask =>
    cases action with
    | nextProxy =>
      obtain ⟨proxiesQueue, rfl⟩ := nextProxy_eq h
      exact ⟨[], .silent rfl (Flow.Moves.of_perm _ fun p => by cases p <;> rfl) hstore rfl⟩
    | deliver page =>
      cases h
      refine ⟨[.delivered task page], .single rfl (moves_worker hget rfl rfl (by simp) fun x => ?_)
        hstore isTask rfl⟩
      simp [Page.result]
    | valueError =>
      cases h
      refine ⟨[.dropped task], .single rfl (moves_worker hget rfl rfl (by simp) fun x => ?_)
        hstore isTask rfl⟩
      simp
    | getHtmlError =>
      cases h
      refine ⟨[.putBack task], .single rfl (moves_worker hget rfl rfl (by simp) fun x => ?_)
        hstore isTask rfl⟩
      simp
    | _ => cases h
  | saving task page =>
    cases action with
    | savePage =>
      cases h
      refine ⟨[], .silent rfl (Flow.Moves.of_perm _ fun p => ?_) hstore rfl⟩
      cases p with
      | hands => exact hands_perm hget rfl
      | _ => exact List.Perm.refl _
    | saveError left =>
      cases h
      refine ⟨[.unsaved task page], .single rfl (moves_worker hget rfl rfl (by simp) fun x => ?_)
        hstore trivial rfl⟩
      simp
    | _ => cases h
  | savingSubs task page =>
    cases action with
    | saveSubs =>
      cases h
      refine ⟨[.saved task page], .single rfl (moves_worker hget rfl rfl (by simp) fun x => ?_)
        hstore trivial rfl⟩
      simp
    | saveError left =>
      cases h
      refine ⟨[.unsaved task page], .single rfl (moves_worker hget rfl rfl (by simp) fun x => ?_)
        hstore trivial rfl⟩
      simp
    | _ => cases h
  | ended => cases h

/-- A command is replaced by some others, which may keep other tasks than it did. -/
theorem moves_main {main : List Cmd} (cmds : List Cmd) {cmd : Cmd} {es : List Event}
    (hmain : s.main = cmd :: main) (hmain' : s'.main = cmds ++ main)
    (hthreads : s'.threads = s.threads)
    (h : ∀ x,
      s.tasksQueue.count x + (taskFlow.arrived es .queue).count x
        = s'.tasksQueue.count x + (taskFlow.left es .queue).count x ∧
      (taskFlow.arrived es .hands).count x = (taskFlow.left es .hands).count x ∧
      (s.content .unhandled).count x + (taskFlow.arrived es .unhandled).count x
        = (s'.content .unhandled).count x + (taskFlow.left es .unhandled).count x ∧
      cmd.puts.count x + (taskFlow.arrived es .puts).count x
        = (cmds.flatMap Cmd.puts).count x + (taskFlow.left es .puts).count x ∧
      (cmd.got.map Result.uid).count x + (taskFlow.arrived es .got).count x
        = ((cmds.flatMap Cmd.got).map Result.uid).count x + (taskFlow.left es .got).count x) :
    taskFlow.Moves es s.content s'.content := by
  intro p x
  obtain ⟨hqueue, hhands, hunhandled, hputs, hgot⟩ := h x
  cases p with
  | queue => exact hqueue
  | hands =>
    rw [State.content, State.content, hthreads]
    omega
  | unhandled => exact hunhandled
  | puts =>
    simp only [State.content, hmain, hmain', List.flatMap_cons, List.flatMap_append,
      List.count_append]
    omega
  | got =>
    simp only [State.content, hmain, hmain', List.flatMap_cons, List.flatMap_append,
      List.map_append, List.count_append]
    omega

/-- A command that has nothing to do with tasks. -/
theorem moves_nothing {main : List Cmd} (cmds : List Cmd) {cmd : Cmd} (hmain : s.main = cmd :: main)
    (hmain' : s'.main = cmds ++ main) (hthreads : s'.threads = s.threads)
    (hqueue : s'.tasksQueue = s.tasksQueue) (hresults : s'.resultsQueue = s.resultsQueue)
    (hputs : cmd.puts = cmds.flatMap Cmd.puts) (hgot : cmd.got = cmds.flatMap Cmd.got) :
    taskFlow.Moves [] s.content s'.content :=
  moves_main cmds hmain hmain' hthreads fun x => by simp [hqueue, hresults, hputs, hgot]

/-- An exception that nothing catches: all that the main thread keeps is lost. -/
theorem raise_effect {main : List Cmd} {cmd : Cmd} {uids : UIdsStorage} {e : Error}
    (hmain : s.main = cmd :: main) (hstore : Refines uids (known hdd s.log))
    (herror : e = .overflowError ∨ (e = .keyError ∧
      ∃ uid ∈ s.content .got, ¬ (known hdd s.log).Pending (uidOf uid))) :
    Effect hdd s (({ s with main, uids } : State).raise cmd e)
      [.lostPuts (s.main.flatMap Cmd.puts), .lostResults (s.main.flatMap Cmd.got)] where
  log := by rw [hmain]; rfl
  moves := by
    intro p x
    have hrest : ∀ main' : List Cmd, (main' = [] ∨ main' = [.flushToDisk]) →
        main'.flatMap Cmd.puts = [] ∧ main'.flatMap Cmd.got = [] := by
      rintro main' (rfl | rfl) <;> exact ⟨rfl, rfl⟩
    obtain ⟨hputs, hgot⟩ := hrest (({ s with main, uids } : State).raise cmd e).main
      (by unfold State.raise; split <;> simp)
    cases p with
    | puts =>
      rw [State.content, State.content, hputs]
      simp [Flow.arrived_cons, Flow.left_cons, taskFlow]
    | got =>
      rw [State.content, State.content, hgot]
      simp [Flow.arrived_cons, Flow.left_cons, taskFlow]
    | _ => rfl
  store := by
    have hlog : (({ s with main, uids } : State).raise cmd e).log = s.log ++
        [.lostPuts (s.main.flatMap Cmd.puts), .lostResults (s.main.flatMap Cmd.got)] := by
      rw [hmain]; rfl
    rw [hlog, known_append rfl rfl]
    exact hstore
  fresh task h := by simp at h
  proper e' h := by
    simp only [List.mem_cons, List.not_mem_nil, or_false] at h
    rcases h with rfl | rfl <;> trivial
  error := by
    rcases herror with rfl | ⟨rfl, hgot⟩
    · exact Or.inr (Or.inl rfl)
    · exact Or.inr (Or.inr ⟨rfl, hgot⟩)

/-- A command that has been taken from the stack, by what it is. -/
theorem execute_effect (hstore : Refines s.uids (known hdd s.log)) {main : List Cmd} {cmd : Cmd}
    (hmain : s.main = cmd :: main) (h : ({ s with main } : State).execute cmd = some s') :
    ∃ es, Effect hdd s s' es := by
  cases cmd with
  | handleResult =>
    simp only [State.execute] at h
    split at h
    · cases h
    · rename_i resultsQueue hresults
      cases h
      refine ⟨[], .silent rfl (moves_main _ hmain rfl rfl fun x => ?_) hstore rfl⟩
      simp [hresults, List.filterMap_cons, Cmd.puts, Cmd.got]
    · rename_i data resultsQueue hresults
      cases h
      refine ⟨[.got data], .single rfl (moves_main _ hmain rfl rfl fun x => ?_) hstore trivial rfl⟩
      simp [hresults, Cmd.puts, Cmd.got, taskFlow, Flow.arrived_cons, Flow.left_cons,
        List.count_cons]
  | handle data =>
    cases data with
    | finish =>
      obtain ⟨uids, hflush, rfl⟩ := Option.map_eq_some_iff.mp h
      exact ⟨[], .silent rfl (moves_nothing _ hmain rfl rfl rfl rfl rfl rfl)
        (hstore.flushToDisk hflush) rfl⟩
    | result data =>
      simp only [State.execute] at h
      split at h
      · obtain ⟨⟨r, uids⟩, hcommit, hs'⟩ := Option.map_eq_some_iff.mp h
        rcases hstore.commit hcommit with ⟨rfl, hpending, hstore'⟩ | ⟨rfl, hpending, hstore'⟩
        · subst hs'
          refine ⟨[.committed data], rfl, moves_main _ hmain rfl rfl fun x => ?_, ?_, ?_, ?_, ?_⟩
          · simp [Cmd.puts, Cmd.got, taskFlow, Flow.arrived_cons, Flow.left_cons]
          · exact known_commit hdd s.log data ▸ hstore'
          · simp
          · simp [Event.Proper]
          · exact Or.inl ⟨rfl, by simp [Event.IsLoss]⟩
        · subst hs'
          refine ⟨_, raise_effect hmain hstore' (Or.inr ⟨rfl, data.uid, ?_, hpending⟩)⟩
          simp [hmain, Cmd.got]
      · cases h
        refine ⟨[.passed data], .single rfl (moves_main _ hmain rfl rfl fun x => ?_) hstore trivial
          rfl⟩
        simp [Cmd.puts, Cmd.got, taskFlow, Flow.arrived_cons, Flow.left_cons]
  | setTasks tasks =>
    cases tasks with
    | nil =>
      cases h
      exact ⟨[], .silent rfl (moves_nothing [] hmain rfl rfl rfl rfl rfl rfl) hstore rfl⟩
    | cons task tasks =>
      simp only [State.execute] at h
      split at h
      · cases h
        exact ⟨_, raise_effect hmain hstore (Or.inl rfl)⟩
      · rename_i uids hadd
        cases h
        obtain ⟨hknown, hstore'⟩ := hstore.add hadd
        rw [Finset.insert_eq_of_mem (by simpa using hknown)] at hstore'
        exact ⟨[], .silent rfl (moves_nothing _ hmain rfl rfl rfl rfl rfl rfl) hstore' rfl⟩
      · rename_i uids hadd
        cases h
        obtain ⟨hnew, hstore'⟩ := hstore.add hadd
        refine ⟨[.accepted task], rfl, moves_main _ hmain rfl rfl fun x => ?_, ?_, ?_, ?_, ?_⟩
        · simp [Cmd.puts, Cmd.got, taskFlow, Flow.arrived_cons, Flow.left_cons]
        · exact known_accept hdd s.log task ▸ hstore'
        · intro task' htask'
          cases List.mem_singleton.mp htask'
          exact ⟨rfl, by simpa using hnew⟩
        · simp [Event.Proper]
        · exact Or.inl ⟨rfl, by simp [Event.IsLoss]⟩
  | put task =>
    cases h
    refine ⟨[.queued task], .single rfl (moves_main [] hmain rfl rfl fun x => ?_) hstore
      trivial rfl⟩
    simp [Cmd.puts, Cmd.got, taskFlow, Flow.arrived_cons, Flow.left_cons]
  | endOfPass isAlive =>
    simp only [State.execute] at h
    split at h <;> cases h <;>
      exact ⟨[], .silent rfl (moves_nothing _ hmain rfl rfl rfl rfl (by cases isAlive <;> rfl)
        (by cases isAlive <;> rfl)) hstore rfl⟩
  | flushToDisk =>
    obtain ⟨uids, hflush, rfl⟩ := Option.map_eq_some_iff.mp h
    exact ⟨[], .silent rfl (moves_nothing [] hmain rfl rfl rfl rfl rfl rfl)
      (hstore.flushToDisk hflush) rfl⟩
  | join workers =>
    cases workers with
    | nil =>
      cases h
      exact ⟨[], .silent rfl (moves_nothing [] hmain rfl rfl rfl rfl rfl rfl) hstore rfl⟩
    | cons w workers =>
      simp only [State.execute] at h
      split at h
      · cases h
        exact ⟨[], .silent rfl (moves_nothing _ hmain rfl rfl rfl rfl rfl rfl) hstore rfl⟩
      · cases h
  | writeTasks =>
    simp only [State.execute] at h
    split at h
    · cases h
      refine ⟨[.tasksWritten], .single rfl (moves_main [] hmain rfl rfl fun x => ?_)
        hstore trivial rfl⟩
      simp [Cmd.puts, Cmd.got, taskFlow, Flow.arrived_cons, Flow.left_cons]
    · cases h
      exact ⟨[], .silent rfl (moves_nothing _ hmain rfl rfl rfl rfl rfl rfl) hstore rfl⟩
  | writeTask =>
    simp only [State.execute] at h
    split at h
    · cases h
    · rename_i task tasksQueue hqueue
      cases h
      refine ⟨[.written task], .single rfl (moves_main [] hmain rfl rfl fun x => ?_)
        hstore trivial rfl⟩
      simp [hqueue, Cmd.puts, Cmd.got, taskFlow, Flow.arrived_cons, Flow.left_cons,
        List.count_cons]
  | putFinishResult =>
    cases h
    refine ⟨[], .silent rfl (moves_main [] hmain rfl rfl fun x => ?_) hstore rfl⟩
    simp [List.filterMap_cons, Cmd.puts, Cmd.got]
  | drainTasks workersCnt tmpTasks =>
    simp only [State.execute] at h
    split at h <;> cases h <;>
      exact ⟨[], .silent rfl (moves_nothing _ hmain rfl rfl rfl rfl rfl rfl) hstore rfl⟩
  | drainTask workersCnt tmpTasks =>
    simp only [State.execute] at h
    split at h
    · cases h
    · rename_i task tasksQueue hqueue
      cases h
      refine ⟨[.drained task], .single rfl (moves_main _ hmain rfl rfl fun x => ?_) hstore trivial
        rfl⟩
      simp [hqueue, Cmd.puts, Cmd.got, taskFlow, Flow.arrived_cons, Flow.left_cons,
        List.count_cons]
  | loadTasks =>
    cases h
    exact ⟨[], .silent rfl (moves_nothing _ hmain rfl rfl rfl rfl rfl rfl) hstore rfl⟩
  | run =>
    cases h
    exact ⟨[], .silent rfl (moves_nothing _ hmain rfl rfl rfl rfl rfl rfl) hstore rfl⟩
  | joinWorkers =>
    cases h
    exact ⟨[], .silent rfl (moves_nothing _ hmain rfl rfl rfl rfl rfl rfl) hstore rfl⟩
  | _ =>
    cases h
    exact ⟨[], .silent rfl (moves_nothing [] hmain rfl rfl rfl rfl rfl rfl) hstore rfl⟩

/-- A round of a loop of `putWorkersInOrder`: it puts `'finish'`, or starts a worker. -/
theorem order_effect (hstore : Refines s.uids (known hdd s.log)) (o : Ordering) :
    ∃ es, Effect hdd s (s.order o) es := by
  have hsilent : ∀ {s' : State}, s'.log = s.log → (∀ p, (s'.content p).Perm (s.content p)) →
      s'.uids = s.uids → s'.error = s.error → ∃ es, Effect hdd s s' es :=
    fun hlog hcontent huids herror =>
      ⟨[], .silent hlog (Flow.Moves.of_perm _ hcontent) (huids ▸ hstore) herror⟩
  cases o with
  | look i =>
    simp only [State.order]
    split <;> split <;> exact hsilent rfl (fun p => by cases p <;> rfl) rfl rfl
  | putFinish n =>
    cases n with
    | zero => exact hsilent rfl (fun p => by cases p <;> rfl) rfl rfl
    | succ n =>
      refine ⟨[.finishPut], .single rfl (moves_single fun p x => ?_) hstore trivial rfl⟩
      cases p <;> simp [State.order]
  | startWorkers n =>
    cases n with
    | zero => exact hsilent rfl (fun p => by cases p <;> rfl) rfl rfl
    | succ n =>
      refine hsilent rfl (fun p => ?_) rfl rfl
      cases p with
      | hands => simp [State.order, List.filterMap_cons]
      | _ => exact List.Perm.refl _

/-- Neither handler has accepted a task or taken a result when it begins. -/
theorem handler_keeps (s : State) (sig : Signal) :
    (s.handler sig).flatMap Cmd.puts = [] ∧ (s.handler sig).flatMap Cmd.got = [] := by
  cases sig <;> exact ⟨rfl, rfl⟩

/-- **What a step does**, whatever the action is. -/
theorem step_effect (hstore : Refines s.uids (known hdd s.log)) {a : Action}
    (h : s.step a = some s') : ∃ es, Effect hdd s s' es := by
  cases a with
  | worker i action =>
    obtain ⟨w, hget, hmove⟩ := State.step_worker h
    exact move_effect hstore hget hmove
  | main =>
    obtain ⟨o, -, rfl⟩ | ⟨-, cmd, main, hmain, hexec⟩ := State.mainStep_cases h
    · exact order_effect hstore o
    · exact execute_effect hstore hmain hexec
  | signal sig =>
    obtain ⟨-, rfl⟩ := State.step_signal h
    obtain ⟨hputs, hgot⟩ := handler_keeps s sig
    refine ⟨[], .silent rfl (Flow.Moves.of_perm _ fun p => ?_) hstore rfl⟩
    cases p with
    | puts => simp [hputs]
    | got => simp [hgot]
    | _ => exact List.Perm.refl _
  | newProxies lines =>
    cases h
    exact ⟨[], .silent rfl (Flow.Moves.of_perm _ fun p => by cases p <;> rfl) hstore rfl⟩

end Effects

/-! ## What holds in every run -/

/-- What comes in from outside is accepted, or a `'finish'`. -/
theorem count_entered (log : List Event) (x : Str) :
    (taskFlow.entered log).count x = (accepted log).count x + (finishes log).count x :=
  count_flatMap_add (fun e => by cases e <;> simp [taskFlow]) log

theorem count_finishes (log : List Event) {x : Str} (hx : x ≠ finish) :
    (finishes log).count x = 0 := by
  refine List.count_eq_zero.mpr fun hmem => hx ?_
  obtain ⟨e, -, he⟩ := List.mem_flatMap.mp hmem
  cases e <;> simp at he
  exact he

/-- A handled result has left the main thread, and is gone. -/
theorem count_handled_le (log : List Event) (x : Str) :
    ((handled log).map Result.uid).count x ≤ (taskFlow.left log .got).count x ∧
      ((handled log).map Result.uid).count x ≤ (taskFlow.gone log).count x := by
  rw [handled, List.map_flatMap]
  exact ⟨count_flatMap_le (fun e => by cases e <;> simp [taskFlow]) log,
    count_flatMap_le (fun e => by cases e <;> simp [taskFlow]) log⟩

theorem committed_sublist (log : List Event) : (committed log).Sublist (handled log) := by
  induction log with
  | nil => exact List.Sublist.refl _
  | cons e log ih =>
    rw [committed, handled, List.flatMap_cons, List.flatMap_cons]
    refine List.Sublist.append ?_ ih
    cases e <;> simp

theorem arrived_puts (log : List Event) : accepted log = taskFlow.arrived log .puts :=
  List.flatMap_congr fun e _ => by cases e <;> rfl

theorem arrived_got (log : List Event) :
    taskFlow.arrived log .got = taskFlow.left log .unhandled :=
  List.flatMap_congr fun e _ => by cases e <;> rfl

theorem count_left_queue (log : List Event) (x : Str) : (taskFlow.left log .queue).count x
    = (takenBy log).count x + ((drainedBy log).count x + (writtenBy log).count x) := by
  let out : Event → List Str := fun | .drained task => [task] | .written task => [task] | _ => []
  have hout : (log.flatMap out).count x = (drainedBy log).count x + (writtenBy log).count x :=
    count_flatMap_add (fun e => by cases e <;> simp [out]) log
  rw [← hout]
  exact count_flatMap_add (fun e => by cases e <;> simp [taskFlow, out]) log

theorem count_arrived_queue (log : List Event) {x : Str} (hx : x ≠ finish) :
    (taskFlow.arrived log .queue).count x = (queuedBy log).count x + (putBackBy log).count x :=
  count_flatMap_add (fun e => by cases e <;> simp [taskFlow, hx.symm]) log

/-- No `'finish'` gets into a result. -/
theorem finish_notMem_arrived {log : List Event} (hproper : ∀ e ∈ log, e.Proper) :
    finish ∉ taskFlow.arrived log .unhandled := by
  intro hmem
  obtain ⟨e, he, hitems⟩ := List.mem_flatMap.mp hmem
  have := hproper e he
  cases e <;> simp [taskFlow] at hitems
  exact this hitems.symm

/-- **What holds in every run**, whatever signals arrive. -/
structure Sound (hdd : List ℕ) (s : State) : Prop where
  books : taskFlow.Balanced s.log s.content
  store : Refines s.uids (known hdd s.log)
  once : ((accepted s.log).map uidOf).Nodup
  fresh : ∀ task ∈ accepted s.log, uidOf task ∉ hdd
  proper : ∀ e ∈ s.log, e.Proper
  lossless : s.error = none → ∀ e ∈ s.log, ¬ e.IsLoss
  noKeyError : s.error ≠ some .keyError

namespace Sound

variable {hdd : List ℕ} {s s' : State}

/-- Every task is at one place, or gone. -/
theorem total (h : Sound hdd s) (x : Str) :
    (s.content .queue).count x + (s.content .hands).count x + (s.content .unhandled).count x
        + (s.content .puts).count x + (s.content .got).count x + (taskFlow.gone s.log).count x
      = (accepted s.log).count x + (finishes s.log).count x := by
  have hsum := h.books.total taskFlow x
  have hplaces : (Finset.univ : Finset Place) = {.queue, .hands, .unhandled, .puts, .got} := rfl
  rw [count_entered, hplaces, Finset.sum_insert (by decide), Finset.sum_insert (by decide),
    Finset.sum_insert (by decide), Finset.sum_insert (by decide), Finset.sum_singleton] at hsum
  omega

/-- Accepted tasks with the same uid are the same. -/
theorem inj (h : Sound hdd s) {task task' : Str} (ht : task ∈ accepted s.log)
    (ht' : task' ∈ accepted s.log) (huid : uidOf task = uidOf task') : task = task' :=
  List.inj_on_of_nodup_map h.once ht ht' huid

theorem count_accepted_le (h : Sound hdd s) (x : Str) : (accepted s.log).count x ≤ 1 :=
  List.nodup_iff_count_le_one.mp h.once.of_map x

/-- No result is that of a `'finish'`. -/
theorem got_ne_finish (h : Sound hdd s) {uid : Str} (huid : uid ∈ taskFlow.arrived s.log .got) :
    uid ≠ finish := by
  rintro rfl
  have hnone := List.count_eq_zero.mpr (finish_notMem_arrived h.proper)
  have hunhandled := h.books .unhandled finish
  rw [arrived_got] at huid
  have hpos := List.count_pos_iff.mpr huid
  omega

/-- A handled result is that of an accepted task, which is gone. -/
theorem gone_of_handled (h : Sound hdd s) {data : Result} (hdata : data ∈ handled s.log) :
    data.uid ∈ accepted s.log ∧ (taskFlow.gone s.log).count data.uid = 1 ∧
      ∀ p, data.uid ∉ s.content p := by
  obtain ⟨hleft, hgone⟩ := count_handled_le s.log data.uid
  have hpos := List.count_pos_iff.mpr (List.mem_map_of_mem (f := Result.uid) hdata)
  have hgot := h.books .got data.uid
  have htotal := h.total data.uid
  have hle := h.count_accepted_le data.uid
  rw [count_finishes s.log (h.got_ne_finish (List.count_pos_iff.mp (by omega)))] at htotal
  refine ⟨List.count_pos_iff.mp (by omega), by omega, fun p => List.count_eq_zero.mp ?_⟩
  cases p <;> omega

/-- No uid is handled twice. -/
theorem handled_once (h : Sound hdd s) :
    ((handled s.log).map fun data => uidOf data.uid).Nodup := by
  have hsubperm : ((handled s.log).map Result.uid).Subperm (accepted s.log) := by
    apply List.subperm_ext_iff.mpr
    intro uid huid
    obtain ⟨data, hdata, rfl⟩ := List.mem_map.mp huid
    obtain ⟨hacc, hgone, -⟩ := h.gone_of_handled hdata
    have hle := (count_handled_le s.log data.uid).2
    have hpos := List.count_pos_iff.mpr hacc
    omega
  obtain ⟨l, hperm, hsub⟩ := hsubperm
  have hl : (l.map uidOf).Nodup := (hsub.map uidOf).nodup h.once
  have hnodup := (hperm.map uidOf).nodup_iff.mp hl
  rwa [List.map_map] at hnodup

/-- What the main thread has taken can be committed. -/
theorem pending (h : Sound hdd s) {uid : Str} (huid : uid ∈ s.content .got) :
    (known hdd s.log).Pending (uidOf uid) := by
  have htotal := h.total uid
  have hpos := List.count_pos_iff.mpr huid
  have hgot := h.books .got uid
  rw [count_finishes s.log (h.got_ne_finish (List.count_pos_iff.mp (by omega)))] at htotal
  have hacc : uid ∈ accepted s.log := List.count_pos_iff.mp (by omega)
  refine ⟨?_, fun hcom => ?_⟩
  · simp only [known, Finset.mem_union, List.mem_toFinset, List.mem_map]
    exact Or.inr ⟨uid, hacc, rfl⟩
  · simp only [known, Finset.mem_union, List.mem_toFinset, List.mem_map] at hcom
    rcases hcom with hcom | ⟨data, hdata, hsame⟩
    · exact h.fresh uid hacc hcom
    · -- A committed result of the same uid is one of the same task, which is gone.
      have hgone := h.gone_of_handled ((committed_sublist s.log).subset hdata)
      exact hgone.2.2 .got (h.inj hgone.1 hacc hsame ▸ huid)

end Sound

theorem Session.sound (c : Session) : Sound c.uids c.start where
  books := Flow.Balanced.nil _ fun p => by cases p <;> rfl
  store := by
    have hinit := init_refines c.sizePos c.increasing c.below c.maxUidsOnRamCnt
    simpa [known, accepted, committed, Session.start] using hinit
  once := List.nodup_nil
  fresh _ h := absurd h List.not_mem_nil
  proper _ h := absurd h List.not_mem_nil
  lossless _ _ h := absurd h List.not_mem_nil
  noKeyError := by simp [Session.start]

/-- **One step** keeps all of it. -/
theorem Sound.step {hdd : List ℕ} {s s' : State} (h : Sound hdd s) {a : Action}
    (hstep : s.step a = some s') : Sound hdd s' := by
  obtain ⟨es, he⟩ := step_effect h.store hstep
  have haccepted : accepted es = [] ∨ ∃ task, es = [.accepted task] := by
    by_cases hes : accepted es = []
    · exact Or.inl hes
    · obtain ⟨task, htask⟩ := List.exists_mem_of_ne_nil _ hes
      exact Or.inr ⟨task, (he.fresh task (mem_accepted.mp htask)).1⟩
  refine ⟨?_, he.store, ?_, ?_, ?_, ?_, ?_⟩
  · rw [he.log]
    exact h.books.append taskFlow he.moves
  · rw [he.log, accepted_append]
    rcases haccepted with hes | ⟨task, rfl⟩
    · rw [hes, List.append_nil]
      exact h.once
    · have hnew := (he.fresh task List.mem_cons_self).2
      rw [known, Finset.notMem_union, List.mem_toFinset, List.mem_toFinset] at hnew
      rw [List.map_append, List.nodup_append]
      refine ⟨h.once, List.nodup_singleton _, ?_⟩
      rintro uid huid uid' huid' rfl
      rw [List.mem_singleton.mp huid'] at huid
      exact hnew.2 huid
  · intro task htask
    rw [he.log, accepted_append, List.mem_append] at htask
    rcases htask with htask | htask
    · exact h.fresh task htask
    · have hnew := (he.fresh task (mem_accepted.mp htask)).2
      rw [known, Finset.notMem_union, List.mem_toFinset] at hnew
      exact hnew.1
  · intro e hmem
    rw [he.log, List.mem_append] at hmem
    exact hmem.elim (h.proper e) (he.proper e)
  · intro hnone e hmem
    rw [he.log, List.mem_append] at hmem
    rcases he.error with ⟨hsame, hes⟩ | herr | ⟨herr, -⟩
    · exact hmem.elim (h.lossless (hsame ▸ hnone) e) (hes e)
    · rw [herr] at hnone; cases hnone
    · rw [herr] at hnone; cases hnone
  · intro hkey
    rcases he.error with ⟨hsame, -⟩ | herr | ⟨-, uid, huid, hpending⟩
    · exact h.noKeyError (hsame ▸ hkey)
    · rw [herr] at hkey; cases hkey
    · exact hpending (h.pending huid)

/-- **Every run**. -/
theorem Sound.run {hdd : List ℕ} {s s' : State} (h : Sound hdd s) {actions : List Action}
    (hrun : runFrom State.step s actions = some s') : Sound hdd s' :=
  runFrom_inv_of_forall (P := fun _ => True) (Sound hdd) (fun hs _ hstep => hs.step hstep) h
    (fun _ _ => trivial) hrun

/-- The log only grows. -/
theorem Sound.log_prefix_step {hdd : List ℕ} {s s' : State} (h : Sound hdd s) {a : Action}
    (hstep : s.step a = some s') : s.log <+: s'.log := by
  obtain ⟨es, he⟩ := step_effect h.store hstep
  exact ⟨es, he.log.symm⟩

theorem Sound.log_prefix {hdd : List ℕ} {s s' : State} (h : Sound hdd s) {actions : List Action}
    (hrun : runFrom State.step s actions = some s') : s.log <+: s'.log :=
  (runFrom_inv_of_forall (P := fun _ => True) (fun s₁ => Sound hdd s₁ ∧ s.log <+: s₁.log)
    (fun hs _ hstep => ⟨hs.1.step hstep, hs.2.trans (hs.1.log_prefix_step hstep)⟩)
    ⟨h, List.prefix_refl _⟩ (fun _ _ => trivial) hrun).2

theorem Session.sound_run (c : Session) {actions : List Action} {s : State}
    (hrun : c.run actions = some s) : Sound c.uids s := c.sound.run hrun

end Amigos.Spider
