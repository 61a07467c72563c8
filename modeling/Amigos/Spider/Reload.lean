import Amigos.Spider.Tasks

/-!
# Loading new proxies (`handleSIGINT`)

The handler takes all tasks out of the queue and gives them to `setTasks` when the workers have
ended. But `setTasks` only puts tasks that are new, and these are not: what it is given back is in
`proc_uids` since it was first accepted. `Reloading` follows the handler through its stages; it
puts no task back into the queue, so the queue has lost what the handler took out of it.
-/

set_option autoImplicit false

namespace Amigos.Spider

open Amigos.Lib

/-- The task is known, or a `'finish'`. -/
def IsKnown (log : List Event) (task : Str) : Prop := task = finish ∨ task ∈ accepted log

/-- The commands of `handleSIGINT` behind the loop that empties the queue. -/
def Cmd.Reloads (log : List Event) : Cmd → Prop
  | .setWorkersCnt _ => True
  | .putWorkersInOrder => True
  | .joinWorkers => True
  | .join _ => True
  | .clearProxies => True
  | .loadProxies => True
  | .setTasks tasks => ∀ task ∈ tasks, IsKnown log task
  | .put task => task = finish
  | .createEmptyDirs => True
  | _ => False

/-- What the log may hold while the handler runs. -/
def Event.OfReload : Event → Prop
  | .queued task => task = finish
  | .written _ => False
  | _ => True

/-- The stages of `handleSIGINT`; `below` is what it has interrupted. -/
inductive Reloading (below : List Cmd) (s : State) : Prop
  | draining (workersCnt : ℕ) (tmpTasks : List Str)
      (main : s.main = .drainTasks workersCnt tmpTasks :: below)
      (known : ∀ task ∈ tmpTasks, IsKnown s.log task)
  | taking (workersCnt : ℕ) (tmpTasks : List Str)
      (main : s.main = .drainTask workersCnt tmpTasks :: below)
      (known : ∀ task ∈ tmpTasks, IsKnown s.log task)
  | reloading (cmds : List Cmd) (main : s.main = cmds ++ .returnFromSIGINT :: below)
      (reloads : ∀ c ∈ cmds, c.Reloads s.log)
  | raised (main : s.main = [] ∨ s.main = [.flushToDisk])

/-- The handler has come to its end. -/
def AtReturn (below : List Cmd) (s : State) : Prop :=
  s.main = .returnFromSIGINT :: below ∧ s.ordering = none

/-- A step while the handler runs. -/
def Within (below : List Cmd) (s : State) (a : Action) : Prop :=
  ¬ a.IsSignal ∧ (AtReturn below s → a ≠ .main)

instance (below : List Cmd) (s : State) : Decidable (AtReturn below s) :=
  inferInstanceAs (Decidable (_ ∧ _))

instance (below : List Cmd) (s : State) (a : Action) : Decidable (Within below s a) :=
  inferInstanceAs (Decidable (_ ∧ _))

section Reload

variable {hdd : List ℕ} {below : List Cmd} {s s' : State}

theorem IsKnown.mono {log es : List Event} {task : Str} (h : IsKnown log task) :
    IsKnown (log ++ es) task :=
  h.imp_right fun h => by rw [accepted_append]; exact List.mem_append_left _ h

theorem Cmd.Reloads.mono {log es : List Event} {c : Cmd} (h : c.Reloads log) :
    c.Reloads (log ++ es) := by
  cases c with
  | setTasks tasks => exact fun task htask => (h task htask).mono
  | _ => exact h

theorem Cmd.Reloads.logs {log : List Event} {c : Cmd} (h : c.Reloads log) {e : Event}
    (he : c.Logs s e) : e.OfReload := by
  cases c <;> cases e <;> first | trivial | exact h.elim | exact he.elim | exact he.trans h

/-- Nothing but the log has changed. -/
theorem Reloading.mono (h : Reloading below s) {es : List Event} (hmain : s'.main = s.main)
    (hlog : s'.log = s.log ++ es) : Reloading below s' := by
  cases h with
  | draining n tmpTasks main known =>
    exact .draining n tmpTasks (hmain.trans main) fun task ht => hlog ▸ (known task ht).mono
  | taking n tmpTasks main known =>
    exact .taking n tmpTasks (hmain.trans main) fun task ht => hlog ▸ (known task ht).mono
  | reloading cmds main reloads =>
    exact .reloading cmds (hmain.trans main) fun c hc => hlog ▸ (reloads c hc).mono
  | raised main => exact .raised (main.imp hmain.trans hmain.trans)

/-- What is in the queue is known. -/
theorem Sound.isKnown (h : Sound hdd s) {task : Str} (htask : task ∈ s.tasksQueue) :
    IsKnown s.log task := by
  by_cases hfinish : task = finish
  · exact Or.inl hfinish
  · have htotal := h.total task
    have hpos : 0 < (s.content .queue).count task := List.count_pos_iff.mpr htask
    rw [count_finishes s.log hfinish] at htotal
    exact Or.inr (List.count_pos_iff.mp (by omega))

/-- `setTasks` takes no known task but a `'finish'`. -/
theorem add_known (hstore : Refines s.uids (known hdd s.log)) {task : Str}
    (hknown : IsKnown s.log task) {uids : UIdsStorage}
    (hadd : s.uids.add s.uids.fuel (uidOf task) = some (true, uids)) : task = finish := by
  obtain ⟨hnew, -⟩ := hstore.add hadd
  apply hknown.resolve_right
  intro hacc
  have hmem : uidOf task ∈ (known hdd s.log).added :=
    Finset.mem_union_right _ (List.mem_toFinset.mpr (List.mem_map_of_mem hacc))
  simp [hmem] at hnew

/-- A command of the handler leaves commands of the handler. -/
theorem Cmd.Reloads.execute {c : Cmd} {main : List Cmd} (h : c.Reloads s.log)
    (hstore : Refines s.uids (known hdd s.log))
    (hexec : ({ s with main } : State).execute c = some s') :
    (∃ cmds, s'.main = cmds ++ main ∧ ∀ c' ∈ cmds, c'.Reloads s'.log) ∨
      s'.main = [] ∨ s'.main = [.flushToDisk] := by
  cases c with
  | setTasks tasks =>
    cases tasks with
    | nil =>
      cases hexec
      exact Or.inl ⟨[], rfl, by simp⟩
    | cons task tasks =>
      simp only [State.execute] at hexec
      split at hexec <;> cases hexec
      · refine Or.inr ?_
        unfold State.raise
        split
        · exact Or.inl rfl
        · exact Or.inr rfl
      · refine Or.inl ⟨[.setTasks tasks], rfl, fun c' hc' => ?_⟩
        cases List.mem_singleton.mp hc'
        exact fun t ht => h t (List.mem_cons_of_mem _ ht)
      · rename_i uids hadd
        have hfinish := add_known hstore (h task List.mem_cons_self) hadd
        refine Or.inl ⟨[.put task, .setTasks tasks], rfl, fun c' hc' => ?_⟩
        rcases List.mem_cons.mp hc' with rfl | hc'
        · exact hfinish
        · cases List.mem_singleton.mp hc'
          exact fun t ht => (h t (List.mem_cons_of_mem _ ht)).mono
  | join workers =>
    cases workers with
    | nil =>
      cases hexec
      exact Or.inl ⟨[], rfl, by simp⟩
    | cons w workers =>
      simp only [State.execute] at hexec
      split at hexec <;> cases hexec
      exact Or.inl ⟨[.join workers], rfl, by simp [Cmd.Reloads]⟩
  | joinWorkers =>
    cases hexec
    exact Or.inl ⟨[.join s.workers], rfl, by simp [Cmd.Reloads]⟩
  | putWorkersInOrder | setWorkersCnt | clearProxies | loadProxies | put | createEmptyDirs =>
    cases hexec
    exact Or.inl ⟨[], rfl, by simp⟩
  | _ => exact h.elim

/-- **A command of the handler**, by its stage. -/
theorem Reloading.execute (h : Reloading below s) (hsound : Sound hdd s) {cmd : Cmd}
    {main : List Cmd} (hmain : s.main = cmd :: main) (hne : s.main ≠ .returnFromSIGINT :: below)
    (hexec : ({ s with main } : State).execute cmd = some s') :
    Reloading below s' ∧ ∃ es, s'.log = s.log ++ es ∧ ∀ e ∈ es, e.OfReload := by
  obtain ⟨es, hlog, hes⟩ := (execute_frame hexec).log
  cases h with
  | draining n tmpTasks hm known =>
    cases hmain.symm.trans hm
    refine ⟨?_, es, hlog, fun e he => ?_⟩
    · simp only [State.execute] at hexec
      split at hexec <;> cases hexec
      · refine .reloading (State.restOfSIGINT n tmpTasks).dropLast rfl ?_
        simpa [State.restOfSIGINT, Cmd.Reloads] using known
      · exact .taking n tmpTasks rfl known
    · have := hes e he
      cases e <;> trivial
  | taking n tmpTasks hm known =>
    cases hmain.symm.trans hm
    refine ⟨?_, es, hlog, fun e he => ?_⟩
    · simp only [State.execute] at hexec
      split at hexec
      · cases hexec
      · rename_i task tasksQueue hqueue
        cases hexec
        refine .draining n (tmpTasks ++ [task]) rfl fun t ht => ?_
        rcases List.mem_append.mp ht with ht | ht
        · exact (known t ht).mono
        · cases List.mem_singleton.mp ht
          exact (hsound.isKnown (by rw [hqueue]; exact List.mem_cons_self)).mono
    · have := hes e he
      cases e <;> trivial
  | reloading cmds hm reloads =>
    cases cmds with
    | nil => exact absurd hm hne
    | cons c cmds =>
      cases hmain.symm.trans hm
      have hc := reloads cmd List.mem_cons_self
      refine ⟨?_, es, hlog, fun e he => hc.logs (hes e he)⟩
      rcases hc.execute hsound.store hexec with ⟨cmds', hm', hcmds'⟩ | hraised
      · refine .reloading (cmds' ++ cmds) (hm'.trans (List.append_assoc ..).symm) fun c' hc' => ?_
        rcases List.mem_append.mp hc' with hc' | hc'
        · exact hcmds' c' hc'
        · exact hlog ▸ (reloads c' (List.mem_cons_of_mem _ hc')).mono
      · exact .raised hraised
  | raised hm =>
    rcases hm with hm | hm
    · cases hmain.symm.trans hm
    · cases hmain.symm.trans hm
      obtain ⟨uids, -, rfl⟩ := Option.map_eq_some_iff.mp hexec
      refine ⟨.raised (Or.inl rfl), es, hlog, fun e he => ?_⟩
      have := hes e he
      cases e <;> trivial

/-- **One step** while the handler runs. -/
theorem Reloading.step (h : Reloading below s) (hsound : Sound hdd s) {a : Action}
    (hwithin : Within below s a) (hstep : s.step a = some s') :
    Reloading below s' ∧ ∃ es, s'.log = s.log ++ es ∧ ∀ e ∈ es, e.OfReload := by
  cases a with
  | worker i action =>
    obtain ⟨w, hget, hmove⟩ := State.step_worker hstep
    have hframe := move_frame hget hmove
    obtain ⟨es, hlog, hes⟩ := hframe.log
    refine ⟨h.mono hframe.main hlog, es, hlog, fun e he => ?_⟩
    obtain ⟨hhandler, hmain⟩ := hes e he
    cases e <;> first | trivial | exact absurd trivial hhandler | exact absurd trivial hmain
  | main =>
    obtain ⟨o, -, rfl⟩ | ⟨hordering, cmd, main, hmain, hexec⟩ := State.mainStep_cases hstep
    · have hframe := order_frame (s := s) o
      rcases hframe.log with hlog | hlog
      · have hnil := hlog.trans (List.append_nil _).symm
        exact ⟨h.mono hframe.main hnil, [], hnil, by simp⟩
      · exact ⟨h.mono hframe.main hlog, _, hlog, by simp [Event.OfReload]⟩
    · exact h.execute hsound hmain (fun hm => hwithin.2 ⟨hm, hordering⟩ rfl) hexec
  | signal sig => exact absurd trivial hwithin.1
  | newProxies lines =>
    cases hstep
    have hnil := (List.append_nil s.log).symm
    exact ⟨h.mono rfl hnil, [], hnil, by simp⟩

/-- **The whole handler.** -/
theorem Reloading.run (h : Reloading below s) (hsound : Sound hdd s) {actions : List Action}
    (hwithin : Allowed State.step (Within below) s actions)
    (hrun : runFrom State.step s actions = some s') :
    ∃ es, s'.log = s.log ++ es ∧ ∀ e ∈ es, e.OfReload := by
  refine (runFrom_inv (Within below) (fun s₁ => Sound hdd s₁ ∧ Reloading below s₁ ∧
    ∃ es, s₁.log = s.log ++ es ∧ ∀ e ∈ es, e.OfReload) ?_
    ⟨hsound, h, [], (List.append_nil _).symm, by simp⟩ hwithin hrun).2.2
  rintro s₁ s₂ a ⟨hsound₁, h₁, es, hlog, hes⟩ hok hstep
  obtain ⟨h₂, es', hlog', hes'⟩ := h₁.step hsound₁ hok hstep
  refine ⟨hsound₁.step hstep, h₂, es ++ es', by rw [hlog', hlog, List.append_assoc], ?_⟩
  exact List.forall_mem_append.mpr ⟨hes, hes'⟩

end Reload

/-! ## What becomes of the queue -/

/-- The queue behind some events of a handler. -/
theorem count_queue {hdd : List ℕ} {s s' : State} (h : Sound hdd s) (h' : Sound hdd s')
    {es : List Event} (hlog : s'.log = s.log ++ es) (hes : ∀ e ∈ es, e.OfReload) {task : Str}
    (htask : task ≠ finish) :
    s'.tasksQueue.count task + (takenBy es).count task + (drainedBy es).count task
      = s.tasksQueue.count task + (putBackBy es).count task := by
  have hbooks := h.books .queue task
  have hbooks' := h'.books .queue task
  rw [hlog, Flow.left_append, Flow.arrived_append, List.count_append, List.count_append] at hbooks'
  have hwritten : writtenBy es = [] := List.flatMap_eq_nil_iff.mpr fun e he => by
    have := hes e he
    cases e <;> first | rfl | exact this.elim
  have hqueued : (queuedBy es).count task = 0 := List.count_eq_zero.mpr fun hmem => by
    obtain ⟨e, he, hitem⟩ := List.mem_flatMap.mp hmem
    have := hes e he
    cases e <;> simp at hitem
    exact htask (hitem.trans this)
  have hleft := count_left_queue es task
  have harrived := count_arrived_queue es htask
  rw [hwritten] at hleft
  simp only [State.content, List.count_nil] at hbooks hbooks' hleft
  omega

/-- The handler takes nothing out of the queue but a `'finish'`. -/
def DrainsFinish (s : State) (a : Action) : Prop :=
  a = .main → s.ordering = none → ∀ workersCnt tmpTasks main,
    s.main = .drainTask workersCnt tmpTasks :: main → ∀ task ∈ s.tasksQueue.head?, task = finish

/-- Whether it does is seen in the log. -/
theorem drainsFinish_iff {s s' : State} {a : Action} (h : s.step a = some s') :
    ∃ es, s'.log = s.log ++ es ∧
      (DrainsFinish s a ↔ ∀ e ∈ es, ∀ task, e = .drained task → task = finish) := by
  have hnone : ∀ es : List Event, (∀ e ∈ es, ∀ task, e ≠ .drained task) → DrainsFinish s a →
      (DrainsFinish s a ↔ ∀ e ∈ es, ∀ task, e = .drained task → task = finish) :=
    fun es hes hok => ⟨fun _ e he task heq => absurd heq (hes e he task), fun _ => hok⟩
  cases a with
  | worker i action =>
    obtain ⟨w, hget, hmove⟩ := State.step_worker h
    obtain ⟨es, hlog, hes⟩ := (move_frame hget hmove).log
    refine ⟨es, hlog, hnone es (fun e he task heq => ?_) fun heq => by cases heq⟩
    exact (hes e he).1 (heq ▸ trivial)
  | main =>
    obtain ⟨o, ho, rfl⟩ | ⟨hordering, cmd, main, hmain, hexec⟩ := State.mainStep_cases h
    · have hok : DrainsFinish s .main := fun _ hordering => by cases ho.symm.trans hordering
      rcases (order_frame (s := s) o).log with hlog | hlog
      · exact ⟨[], hlog.trans (List.append_nil _).symm, hnone [] (by simp) hok⟩
      · exact ⟨_, hlog, hnone _ (by simp) hok⟩
    · by_cases hcmd : ∃ n tmpTasks, cmd = .drainTask n tmpTasks
      · obtain ⟨n, tmpTasks, rfl⟩ := hcmd
        simp only [State.execute] at hexec
        split at hexec
        · cases hexec
        · rename_i task tasksQueue hqueue
          cases hexec
          refine ⟨[.drained task], rfl, fun hok e he task' heq => ?_, fun hes _ _ _ _ _ _ => ?_⟩
          · cases List.mem_singleton.mp (heq ▸ he)
            exact hok rfl hordering _ _ _ hmain task (by rw [hqueue]; rfl)
          · rw [hqueue]
            intro task' htask'
            cases Option.mem_some.mp htask'
            exact hes _ List.mem_cons_self task rfl
      · obtain ⟨es, hlog, hes⟩ := (execute_frame hexec).log
        refine ⟨es, hlog, hnone es (fun e he task heq => ?_) fun _ _ n tmpTasks main' hm => ?_⟩
        · have hlogs := hes e he
          rw [heq] at hlogs
          exact hcmd hlogs.of_drained
        · cases hmain.symm.trans hm
          exact absurd ⟨n, tmpTasks, rfl⟩ hcmd
  | signal sig =>
    obtain ⟨-, rfl⟩ := State.step_signal h
    exact ⟨[], (List.append_nil _).symm, hnone [] (by simp) fun heq => by cases heq⟩
  | newProxies lines =>
    cases h
    exact ⟨[], (List.append_nil _).symm, hnone [] (by simp) fun heq => by cases heq⟩

/-- **Reloading the proxies.** Up to the return of `handleSIGINT`, and so behind it, the real tasks
that are pending are those that were when it began, less what the workers have taken and with what
they have put back, exactly if the handler has taken no real task out of the queue itself. -/
theorem handleSIGINT_keeps_pending (c : Session) {before during : List Action}
    {s s₁ s' : State} (hbefore : c.run before = some s)
    (hsignal : s.step (.signal .sigint) = some s₁)
    (hduring : runFrom State.step s₁ during = some s')
    (hwithin : Allowed State.step (Within s.main) s₁ during) :
    ∃ es, s'.log = s.log ++ es ∧
      ((∀ task, task ≠ finish → s'.tasksQueue.count task + (takenBy es).count task
        = s.tasksQueue.count task + (putBackBy es).count task) ↔
      Allowed State.step DrainsFinish s₁ during) := by
  have hsound := c.sound_run hbefore
  have hsound₁ := hsound.step hsignal
  obtain ⟨-, rfl⟩ := State.step_signal hsignal
  have hreloading : Reloading s.main (s.push (s.handler .sigint)) :=
    .draining s.workersCnt [] rfl (by simp)
  obtain ⟨es, hlog, hes⟩ := hreloading.run hsound₁ hwithin hduring
  obtain ⟨es', hlog', hok⟩ := allowed_iff_log State.log _ drainsFinish_iff hduring
  obtain rfl : es = es' := List.append_cancel_left (hlog.symm.trans hlog')
  refine ⟨es, hlog, ?_⟩
  have hcount := fun task (htask : task ≠ finish) =>
    count_queue hsound (hsound₁.run hduring) hlog hes htask
  rw [hok]
  constructor
  · intro hkeeps e he task heq
    by_contra hfinish
    have hpos : 0 < (drainedBy es).count task :=
      List.count_pos_iff.mpr (List.mem_flatMap.mpr ⟨e, he, by rw [heq]; exact List.mem_cons_self⟩)
    have := hcount task hfinish
    have := hkeeps task hfinish
    omega
  · intro hdrains task hfinish
    have hzero : (drainedBy es).count task = 0 := by
      refine List.count_eq_zero.mpr fun hmem => hfinish ?_
      obtain ⟨e, he, hitem⟩ := List.mem_flatMap.mp hmem
      cases e <;> simp at hitem
      exact hitem ▸ hdrains _ he _ rfl
    have := hcount task hfinish
    omega

/-- One worker, which has the only task and delivers it while the handler waits. -/
theorem handleSIGINT_keeps_pending_empty :
    let c := Session.small 1 ["a\n".toList]
    let during := List.replicate 8 Action.main ++
      [.worker 0 .nextProxy, .worker 0 (.deliver ⟨"p".toList, [], [], 300⟩), .worker 0 .savePage,
        .worker 0 .saveSubs, .worker 0 .take, .worker 0 .nextProxy] ++ List.replicate 12 Action.main
    ∃ s s₁ s', c.run (List.replicate 10 .main ++ [.worker 0 .take]) = some s ∧
      s.step (.signal .sigint) = some s₁ ∧ runFrom State.step s₁ during = some s' ∧
      AtReturn s.main s' ∧ ∃ es, s'.log = s.log ++ es ∧
        ((∀ task, task ≠ finish → s'.tasksQueue.count task + (takenBy es).count task
          = s.tasksQueue.count task + (putBackBy es).count task) ↔
        Allowed State.step DrainsFinish s₁ during) := by
  intro c during
  have heval : ((c.run (List.replicate 10 .main ++ [.worker 0 .take])).bind fun s =>
      (s.step (.signal .sigint)).bind fun s₁ => (runFrom State.step s₁ during).map fun s' =>
        (decide (Allowed State.step (Within s.main) s₁ during), decide (AtReturn s.main s')))
      = some (true, true) := by decide +kernel
  obtain ⟨s, hbefore, h⟩ := Option.bind_eq_some_iff.mp heval
  obtain ⟨s₁, hsignal, h⟩ := Option.bind_eq_some_iff.mp h
  obtain ⟨s', hduring, h⟩ := Option.map_eq_some_iff.mp h
  obtain ⟨hwithin, hreturn⟩ := Prod.mk.inj h
  exact ⟨s, s₁, s', hbefore, hsignal, hduring, of_decide_eq_true hreturn,
    handleSIGINT_keeps_pending c hbefore hsignal hduring (of_decide_eq_true hwithin)⟩

/-- A second task is in the queue: the handler takes it out, and `setTasks` does not put it back. -/
theorem handleSIGINT_loses_pending :
    ¬ ∀ (c : Session) (before during : List Action) (s s₁ s' : State), c.run before = some s →
      s.step (.signal .sigint) = some s₁ → runFrom State.step s₁ during = some s' →
      Allowed State.step (Within s.main) s₁ during → AtReturn s.main s' →
      ∃ es, s'.log = s.log ++ es ∧
        ∀ task, task ≠ finish → s'.tasksQueue.count task + (takenBy es).count task
          = s.tasksQueue.count task + (putBackBy es).count task := by
  intro hclaim
  let c := Session.small 1 ["a\n".toList, "b\n".toList]
  let during := List.replicate 10 Action.main ++
    [.worker 0 .nextProxy, .worker 0 (.deliver ⟨"p".toList, [], [], 300⟩), .worker 0 .savePage,
      .worker 0 .saveSubs, .worker 0 .take, .worker 0 .nextProxy] ++ List.replicate 13 Action.main
  have heval : ((c.run (List.replicate 12 .main ++ [.worker 0 .take])).bind fun s =>
      (s.step (.signal .sigint)).bind fun s₁ => (runFrom State.step s₁ during).map fun s' =>
        (decide (Allowed State.step (Within s.main) s₁ during), decide (AtReturn s.main s'),
          s.tasksQueue.count "b".toList, s'.tasksQueue.count "b".toList,
          (takenBy (s'.log.drop s.log.length)).count "b".toList))
      = some (true, true, 1, 0, 0) := by decide +kernel
  obtain ⟨s, hbefore, h⟩ := Option.bind_eq_some_iff.mp heval
  obtain ⟨s₁, hsignal, h⟩ := Option.bind_eq_some_iff.mp h
  obtain ⟨s', hduring, h⟩ := Option.map_eq_some_iff.mp h
  simp only [Prod.mk.injEq] at h
  obtain ⟨hwithin, hreturn, hqueue, hqueue', htaken⟩ := h
  obtain ⟨es, hlog, hkeeps⟩ := hclaim c _ during s s₁ s' hbefore hsignal hduring
    (of_decide_eq_true hwithin) (of_decide_eq_true hreturn)
  have hb := hkeeps "b".toList (by decide)
  rw [hlog, List.drop_left] at htaken
  omega

end Amigos.Spider
