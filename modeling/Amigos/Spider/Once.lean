import Amigos.Spider.Tasks

/-!
# Every task goes round once

Without signals there is never a worker too many, so no `'finish'` is put, and all that is ever in
the queues, in the hands of the workers or with the main thread are tasks that `setTasks` has
accepted, each of them once.
-/

set_option autoImplicit false

namespace Amigos.Spider

open Amigos.Lib

/-- The part of `putWorkersInOrder` that starts workers, when there are that many. -/
def Ordering.Starts (workers workersCnt : ℕ) : Ordering → Prop
  | .look _ => True
  | .putFinish _ => False
  | .startWorkers n => workers + n ≤ workersCnt

/-- A spider that no signal has reached. -/
structure Quiet (s : State) : Prop where
  main : ∀ cmd ∈ s.main, ¬ cmd.OfHandler
  workers : s.workers.length ≤ s.workersCnt
  ordering : ∀ o, s.ordering = some o → o.Starts s.workers.length s.workersCnt
  log : ∀ e ∈ s.log, ¬ e.OfHandler

namespace Quiet

variable {s s' : State}

theorem order (h : Quiet s) {o : Ordering} (ho : s.ordering = some o) : Quiet (s.order o) := by
  have hstarts := h.ordering o ho
  cases o with
  | look i =>
    simp only [State.order]
    split
    · split
      · exact { h with
          workers := (List.length_eraseIdx_le _ _).trans h.workers
          ordering := fun o' ho' => by cases ho.symm.trans ho'; trivial }
      · exact { h with ordering := fun o' ho' => by cases ho'; trivial }
    · rw [if_neg (Nat.not_lt.mpr h.workers)]
      refine { h with ordering := fun o' ho' => ?_ }
      cases ho'
      exact (Nat.add_sub_of_le h.workers).le
  | putFinish n => exact hstarts.elim
  | startWorkers n =>
    cases n with
    | zero => exact { h with ordering := fun o' ho' => by cases ho' }
    | succ n =>
      have hlen : (s.workers ++ [s.threads.length]).length + n ≤ s.workersCnt := by
        rw [List.length_append]
        have : s.workers.length + (n + 1) ≤ s.workersCnt := hstarts
        simp only [List.length_singleton]
        omega
      exact { h with
        workers := (Nat.le_add_right _ n).trans hlen
        ordering := fun o' ho' => by cases ho'; exact hlen }

/-- **One step** that is no signal keeps a spider quiet. -/
theorem step (h : Quiet s) {a : Action} (ha : ¬ a.IsSignal) (hstep : s.step a = some s') :
    Quiet s' := by
  cases a with
  | worker i action =>
    obtain ⟨w, hget, hmove⟩ := State.step_worker hstep
    have hframe := move_frame hget hmove
    obtain ⟨es, hlog, hes⟩ := hframe.log
    refine ⟨hframe.main ▸ h.main, ?_, ?_, ?_⟩
    · rw [hframe.workers, hframe.workersCnt]
      exact h.workers
    · rw [hframe.ordering, hframe.workers, hframe.workersCnt]
      exact h.ordering
    · rw [hlog]
      exact fun e he => (List.mem_append.mp he).elim (h.log e) fun he => (hes e he).1
  | main =>
    obtain ⟨o, ho, rfl⟩ | ⟨hordering, cmd, main, hmain, hexec⟩ := State.mainStep_cases hstep
    · exact h.order ho
    · have hmem : ∀ c ∈ cmd :: main, ¬ c.OfHandler := hmain ▸ h.main
      have hcmd := hmem cmd List.mem_cons_self
      have hframe := execute_frame hexec
      have hworkersCnt := hframe.workersCnt.resolve_left hcmd
      refine ⟨fun c hc => ?_, ?_, ?_, ?_⟩
      · exact (hframe.main.resolve_left hcmd c hc).elim
          (fun hc => hmem c (List.mem_cons_of_mem _ hc)) id
      · rw [hframe.workers, hworkersCnt]
        exact h.workers
      · rw [hframe.workers, hworkersCnt]
        intro o ho
        rcases hframe.ordering with hsame | hlook
        · cases hordering.symm.trans (hsame.symm.trans ho)
        · cases hlook.symm.trans ho
          trivial
      · obtain ⟨es, hlog, hes⟩ := hframe.log
        rw [hlog]
        exact fun e he => (List.mem_append.mp he).elim (h.log e)
          fun he => (hes e he).not_ofHandler hcmd
  | signal sig => exact absurd trivial ha
  | newProxies lines =>
    cases hstep
    exact { h with }

end Quiet

theorem Session.quiet (c : Session) : Quiet c.start where
  main := by simp [Session.start, Cmd.OfHandler]
  workers := Nat.zero_le _
  ordering _ h := by cases h
  log _ h := absurd h List.not_mem_nil

/-- All that there is has been accepted. -/
theorem Quiet.perm {s : State} (h : Quiet s) {hdd : List ℕ} (hsound : Sound hdd s) :
    (s.content .queue ++ s.content .hands ++ s.content .unhandled ++ s.content .puts
      ++ s.content .got ++ taskFlow.gone s.log).Perm (accepted s.log) := by
  apply List.perm_iff_count.mpr
  intro x
  have hnone : finishes s.log = [] := by
    apply List.flatMap_eq_nil_iff.mpr
    intro e he
    cases e with
    | finishPut => exact absurd trivial (h.log _ he)
    | _ => rfl
  have htotal := hsound.total x
  rw [hnone] at htotal
  simpa only [List.count_append, List.count_nil, Nat.add_zero] using htotal

/-- **Every task goes round once.** In a run without signals, whatever the tasks file and the pages
are: no two tasks that are queued, held by a worker or in an unhandled result have the same uid,
nor have two handled results, and each of these is that of an accepted task; `commit` never raises;
and a uid that has been committed, in this session or an earlier one, is never again that of a task
that is queued, or held, or that has a result to be handled. -/
theorem tasks_once (c : Session) {actions more : List Action}
    (hactions : ∀ a ∈ actions ++ more, ¬ a.IsSignal) {s s' : State}
    (hrun : c.run actions = some s) (hmore : runFrom State.step s more = some s') :
    ((s.content .queue ++ s.content .hands ++ s.content .unhandled).map uidOf).Nodup ∧
    ((handled s.log).map fun data => uidOf data.uid).Nodup ∧
    (∀ data ∈ handled s.log, data.uid ∈ accepted s.log) ∧
    s.error ≠ some .keyError ∧
    ∀ uid ∈ c.uids ++ (committed s.log).map fun data => uidOf data.uid,
      ∀ p, uid ∉ (s'.content p).map uidOf := by
  have hsound := c.sound_run hrun
  have hsound' := hsound.run hmore
  have hquiet : Quiet s := runFrom_inv_of_forall Quiet (fun hs ha hstep => hs.step ha hstep)
    c.quiet (fun a ha => hactions a (List.mem_append_left _ ha)) hrun
  have hquiet' : Quiet s' := runFrom_inv_of_forall Quiet (fun hs ha hstep => hs.step ha hstep)
    hquiet (fun a ha => hactions a (List.mem_append_right _ ha)) hmore
  refine ⟨?_, hsound.handled_once, fun data hdata => (hsound.gone_of_handled hdata).1,
    hsound.noKeyError, ?_⟩
  · have hnodup := ((hquiet.perm hsound).map uidOf).nodup_iff.mpr hsound.once
    rw [List.map_append, List.map_append, List.map_append] at hnodup
    exact hnodup.of_append_left.of_append_left.of_append_left
  · intro uid huid p hmem
    obtain ⟨task, htask, rfl⟩ := List.mem_map.mp hmem
    have hacc : task ∈ accepted s'.log := by
      refine (hquiet'.perm hsound').subset ?_
      simp only [List.mem_append]
      cases p <;> simp only [htask, true_or, or_true]
    rcases List.mem_append.mp huid with huid | huid
    · exact hsound'.fresh task hacc huid
    · obtain ⟨data, hdata, hsame⟩ := List.mem_map.mp huid
      obtain ⟨es, hes⟩ := hsound.log_prefix hmore
      have hdata' : data ∈ handled s'.log := by
        refine (committed_sublist _).subset ?_
        rw [← hes, committed_append]
        exact List.mem_append_left _ hdata
      obtain ⟨hacc', -, hnot⟩ := hsound'.gone_of_handled hdata'
      exact hnot p (hsound'.inj hacc' hacc hsame ▸ htask)

/-- One worker, and one task, whose page has words enough and finds the task again. -/
theorem tasks_once_commit :
    let actions := List.replicate 10 Action.main ++
      [.worker 0 .take, .worker 0 .nextProxy, .worker 0 (.deliver ⟨[], [], ["a".toList], 300⟩)] ++
      List.replicate 5 Action.main
    ∃ s, (Session.small 1 ["a\n".toList]).run actions = some s ∧
      ∀ p, uidOf "a".toList ∉ (s.content p).map uidOf := by
  intro actions
  have heval : ((Session.small 1 ["a\n".toList]).run actions).map (fun s => committed s.log)
      = some [⟨"a".toList, ["a".toList], 300⟩] := by decide +kernel
  obtain ⟨s, hrun, hlog⟩ := Option.map_eq_some_iff.mp heval
  refine ⟨s, hrun, ?_⟩
  have hactions : ∀ a ∈ actions ++ [], ¬ a.IsSignal := by decide
  obtain ⟨-, -, -, -, h⟩ := tasks_once _ hactions hrun rfl
  exact h _ (by rw [hlog]; simp)

end Amigos.Spider
