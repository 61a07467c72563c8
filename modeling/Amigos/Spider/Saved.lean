import Amigos.Spider.Tasks

/-!
# A committed video and its files

A worker puts the result first and saves the page behind that, so the main thread may commit a uid
whose files are not yet there; when `save` raises they never are. `Worker.saves?` is what a worker
has still to save, and `saveFlow` keeps the books of it. No task is ever delivered twice, so no file
is written over.
-/

set_option autoImplicit false

namespace Amigos.Spider

open Amigos.Lib

/-! ## What is saved -/

/-- What a worker has delivered and not yet saved. -/
@[simp] def Worker.saves? : Worker → Option (Str × Page)
  | .saving task page => some (task, page)
  | .savingSubs task page => some (task, page)
  | _ => none

def State.saves (s : State) : List (Str × Page) := s.threads.filterMap Worker.saves?

@[simp] def Event.saveSource : Event → Option Unit
  | .saved _ _ => some ()
  | .unsaved _ _ => some ()
  | _ => none

@[simp] def Event.saveTarget : Event → Option Unit
  | .delivered _ _ => some ()
  | _ => none

@[simp] def Event.page : Event → List (Str × Page)
  | .delivered task page => [(task, page)]
  | .saved task page => [(task, page)]
  | .unsaved task page => [(task, page)]
  | _ => []

def saveFlow : Flow Event Unit (Str × Page) where
  source := Event.saveSource
  target := Event.saveTarget
  items := Event.page

/-- The files of the task are there, with all that the worker had for them. -/
def State.HasFiles (s : State) (task : Str) : Prop :=
  ∃ page, .delivered task page ∈ s.log ∧ s.pages.lookup task = some page.htmlPage ∧
    s.subs.lookup task = some (subsText page.subs)

/-- A `save` that raises is one of a page that has not words enough to be committed. -/
def SavesEnough (s : State) : Action → Prop
  | .worker i (.saveError _) =>
    ∀ x ∈ (s.threads[i]?).bind Worker.saves?, x.2.wordsCnt ≤ State.minWordsCnt
  | _ => True

instance (s : State) (a : Action) : Decidable (SavesEnough s a) := by
  unfold SavesEnough
  split <;> infer_instance

/-- What has been saved, and whose results are with the main thread. -/
structure Saved (s : State) : Prop where
  books : saveFlow.Balanced s.log fun _ => s.saves
  unsaved : ∀ task page, .unsaved task page ∈ s.log → page.wordsCnt ≤ State.minWordsCnt
  pages : ∀ task page, .savingSubs task page ∈ s.threads ∨ .saved task page ∈ s.log →
    s.pages.lookup task = some page.htmlPage
  subs : ∀ task page, .saved task page ∈ s.log → s.subs.lookup task = some (subsText page.subs)

/-- Every result that the main thread meets has been delivered. -/
structure Delivered (s : State) : Prop where
  results : ∀ data, .result data ∈ s.resultsQueue →
    ∃ page, .delivered data.uid page ∈ s.log ∧ data.wordsCnt = page.wordsCnt
  got : ∀ c ∈ s.main, ∀ data ∈ c.got,
    ∃ page, .delivered data.uid page ∈ s.log ∧ data.wordsCnt = page.wordsCnt
  committed : ∀ data, .committed data ∈ s.log → State.minWordsCnt < data.wordsCnt ∧
    ∃ page, .delivered data.uid page ∈ s.log ∧ data.wordsCnt = page.wordsCnt

section

variable {hdd : List ℕ} {s s' : State}

/-! ## Nothing is delivered twice -/

theorem map_arrived (log : List Event) :
    (saveFlow.arrived log ()).map Prod.fst = taskFlow.arrived log .unhandled := by
  rw [Flow.arrived, List.map_flatMap]
  exact List.flatMap_congr fun e _ => by cases e <;> rfl

theorem Sound.delivered_once (h : Sound hdd s) :
    ((saveFlow.arrived s.log ()).map Prod.fst).Nodup := by
  rw [map_arrived]
  apply List.nodup_iff_count_le_one.mpr
  intro task
  by_cases hfinish : task = finish
  · rw [hfinish, List.count_eq_zero.mpr (finish_notMem_arrived h.proper)]
    exact Nat.zero_le 1
  · have hunhandled := h.books .unhandled task
    have hgot := h.books .got task
    have hle := h.count_accepted_le task
    have htotal := h.total task
    have hgone : (taskFlow.left s.log .got).count task ≤ (taskFlow.gone s.log).count task :=
      count_flatMap_le (fun e => by cases e <;> simp [taskFlow]) s.log
    rw [count_finishes s.log hfinish] at htotal
    rw [arrived_got] at hgot
    omega

/-- What is still to be saved is not what has been saved, or not been. -/
theorem Saved.once (h : Saved s) (hsound : Sound hdd s) :
    ((s.saves ++ saveFlow.left s.log ()).map Prod.fst).Nodup := by
  have hperm : (s.saves ++ saveFlow.left s.log ()).Perm (saveFlow.arrived s.log ()) :=
    List.perm_iff_count.mpr fun x => by rw [List.count_append]; exact h.books () x
  exact (hperm.map Prod.fst).nodup_iff.mpr hsound.delivered_once

/-- The task of a worker is saved by no one else. -/
theorem Saved.others (h : Saved s) (hsound : Sound hdd s) {i : ℕ} {w : Worker} {task : Str}
    {page : Page} (hget : s.threads[i]? = some w) (hw : w.saves? = some (task, page)) :
    (∀ w' ∈ s.threads.eraseIdx i, ∀ task' page', w'.saves? = some (task', page') →
      task' ≠ task) ∧ ∀ task' page', .saved task' page' ∈ s.log → task' ≠ task := by
  obtain ⟨hi, hwi⟩ := List.getElem?_eq_some_iff.mp hget
  have hperm : s.saves.Perm ((task, page) :: (s.threads.eraseIdx i).filterMap Worker.saves?) := by
    have hcons := (List.getElem_cons_eraseIdx_perm hi).filterMap Worker.saves?
    rw [hwi, List.filterMap_cons, hw] at hcons
    exact hcons.symm
  have hnodup := ((hperm.append_right (saveFlow.left s.log ())).map Prod.fst).nodup_iff.mp
    (h.once hsound)
  rw [List.cons_append, List.map_cons, List.nodup_cons] at hnodup
  refine ⟨fun w' hw' task' page' hsaves heq => hnodup.1 ?_, fun task' page' hsaved heq =>
    hnodup.1 ?_⟩
  · exact List.mem_map.mpr ⟨(task', page'), List.mem_append_left _
      (List.mem_filterMap.mpr ⟨w', hw', hsaves⟩), heq⟩
  · refine List.mem_map.mpr ⟨(task', page'), List.mem_append_right _ ?_, heq⟩
    exact List.mem_flatMap.mpr ⟨_, hsaved, by simp [saveFlow]⟩

/-! ## The workers -/

/-- A worker goes on from `w` to `w'`; only the files of the task that it saves may change. -/
theorem Saved.of_move (h : Saved s) (hsound : Sound hdd s) {i : ℕ} {w w' : Worker}
    {es : List Event} (hget : s.threads[i]? = some w) (hthreads : s'.threads = s.threads.set i w')
    (hlog : s'.log = s.log ++ es)
    (hmoves : ∀ x, w.saves?.toList.count x + (saveFlow.arrived es ()).count x
      = w'.saves?.toList.count x + (saveFlow.left es ()).count x)
    (hunsaved : ∀ task page, .unsaved task page ∈ es → page.wordsCnt ≤ State.minWordsCnt)
    (hpages : ∀ task page, w' = .savingSubs task page ∨ .saved task page ∈ es →
      s'.pages.lookup task = some page.htmlPage)
    (hsubs : ∀ task page, .saved task page ∈ es →
      s'.subs.lookup task = some (subsText page.subs))
    (hold : ∀ task, (∀ task' page, w.saves? = some (task', page) → task ≠ task') →
      s'.pages.lookup task = s.pages.lookup task ∧ s'.subs.lookup task = s.subs.lookup task) :
    Saved s' := by
  have hi : i < s.threads.length := (List.getElem?_eq_some_iff.mp hget).1
  have hsaved : ∀ {task page}, .saved task page ∈ s.log →
      s'.pages.lookup task = s.pages.lookup task ∧ s'.subs.lookup task = s.subs.lookup task :=
    fun hmem => hold _ fun task' page' hw => (h.others hsound hget hw).2 _ _ hmem
  refine ⟨?_, fun task page hmem => ?_, fun task page hmem => ?_, fun task page hmem => ?_⟩
  · rw [hlog]
    apply h.books.append saveFlow
    intro _ x
    have hset := count_filterMap_set Worker.saves? hget w' x
    have hmove := hmoves x
    show (s.threads.filterMap Worker.saves?).count x + (saveFlow.arrived es ()).count x
      = (s'.threads.filterMap Worker.saves?).count x + (saveFlow.left es ()).count x
    rw [hthreads]
    omega
  · rw [hlog, List.mem_append] at hmem
    exact hmem.elim (h.unsaved task page) (hunsaved task page)
  · rw [hlog, List.mem_append, hthreads, (List.set_perm_cons_eraseIdx hi w').mem_iff,
      List.mem_cons] at hmem
    rcases hmem with (hnew | hother) | hmem | hnew
    · exact hpages task page (Or.inl hnew.symm)
    · rw [(hold task fun task' page' hw =>
        (h.others hsound hget hw).1 _ hother task page rfl).1]
      exact h.pages task page (Or.inl (List.eraseIdx_subset hother))
    · rw [(hsaved hmem).1]
      exact h.pages task page (Or.inr hmem)
    · exact hpages task page (Or.inr hnew)
  · rw [hlog, List.mem_append] at hmem
    rcases hmem with hmem | hnew
    · rw [(hsaved hmem).2]
      exact h.subs task page hmem
    · exact hsubs task page hnew

/-- A worker's move, when what it does is not to save. -/
theorem Saved.of_quiet_move (h : Saved s) (hsound : Sound hdd s) {i : ℕ} {w w' : Worker}
    {es : List Event} (hget : s.threads[i]? = some w) (hthreads : s'.threads = s.threads.set i w')
    (hlog : s'.log = s.log ++ es) (hw : w.saves? = none) (hw' : w'.saves? = none)
    (hes : ∀ e ∈ es, e.page = []) (hpages : s'.pages = s.pages) (hsubs : s'.subs = s.subs) :
    Saved s' := by
  have hnone : ∀ o : Event → Option Unit,
      (es.flatMap fun e => if o e = some () then e.page else []) = [] := fun o =>
    List.flatMap_eq_nil_iff.mpr fun e he => by rw [hes e he, ite_self]
  refine h.of_move hsound hget hthreads hlog (fun x => ?_) (fun task page hmem => ?_)
    (fun task page hmem => ?_) (fun task page hmem => ?_) fun task _ => ?_
  · rw [hw, hw']
    exact congrArg _ (congrArg _ ((hnone _).trans (hnone _).symm))
  · cases hes _ hmem
  · rcases hmem with rfl | hmem
    · cases hw'
    · cases hes _ hmem
  · cases hes _ hmem
  · rw [hpages, hsubs]
    exact ⟨rfl, rfl⟩

theorem lookup_cons_of_ne {dir : Dir} {task task' : Str} {text : Str} (h : task ≠ task') :
    List.lookup task ((task', text) :: dir) = List.lookup task dir := by
  rw [List.lookup_cons, beq_false_of_ne h]

theorem Saved.move (h : Saved s) (hsound : Sound hdd s) {i : ℕ} {w : Worker}
    (hget : s.threads[i]? = some w) {action : WorkerAction}
    (henough : SavesEnough s (.worker i action)) (hmove : s.move i w action = some s') :
    Saved s' := by
  cases w with
  | idle =>
    cases action with
    | take =>
      simp only [State.move] at hmove
      split at hmove
      · cases hmove
      · cases hmove
        exact h.of_quiet_move hsound hget rfl rfl rfl rfl (by simp) rfl rfl
    | _ => cases hmove
  | taken task =>
    cases action with
    | nextProxy =>
      obtain ⟨s₁, hproxy, rfl⟩ := Option.map_eq_some_iff.mp hmove
      obtain ⟨proxiesQueue, rfl⟩ := nextProxy_eq hproxy
      split
      · exact h.of_quiet_move hsound hget rfl (List.append_nil _).symm rfl rfl (by simp) rfl rfl
      · exact h.of_quiet_move hsound hget rfl rfl rfl rfl (by simp) rfl rfl
    | _ => cases hmove
  | fetching task isTask =>
    cases action with
    | nextProxy =>
      obtain ⟨proxiesQueue, rfl⟩ := nextProxy_eq hmove
      exact { h with }
    | deliver page =>
      cases hmove
      refine h.of_move hsound hget rfl rfl (fun x => ?_) (by simp)
        (by simp) (by simp) fun task' _ => ⟨rfl, rfl⟩
      simp [saveFlow, Flow.arrived_cons, Flow.left_cons]
    | valueError =>
      cases hmove
      exact h.of_quiet_move hsound hget rfl rfl rfl rfl (by simp) rfl rfl
    | getHtmlError =>
      cases hmove
      exact h.of_quiet_move hsound hget rfl rfl rfl rfl (by simp) rfl rfl
    | _ => cases hmove
  | saving task page =>
    cases action with
    | savePage =>
      cases hmove
      refine h.of_move hsound hget rfl (List.append_nil _).symm (fun x => ?_) (by simp)
        (fun task' page' hmem => ?_) (by simp) fun task' hne => ⟨?_, rfl⟩
      · simp
      · simp only [Worker.savingSubs.injEq, List.not_mem_nil, or_false] at hmem
        obtain ⟨rfl, rfl⟩ := hmem
        simp [State.pages]
      · exact lookup_cons_of_ne (hne task page rfl)
    | saveError left =>
      cases hmove
      refine h.of_move hsound hget rfl rfl (fun x => ?_)
        (fun task' page' hmem => ?_) (by simp) (by simp) fun task' hne => ⟨?_, rfl⟩
      · simp [saveFlow, Flow.arrived_cons, Flow.left_cons]
      · cases List.mem_singleton.mp hmem
        exact henough (task, page) (by rw [hget]; rfl)
      · cases left with
        | none => rfl
        | some text => exact lookup_cons_of_ne (hne task page rfl)
    | _ => cases hmove
  | savingSubs task page =>
    cases action with
    | saveSubs =>
      cases hmove
      refine h.of_move hsound hget rfl rfl (fun x => ?_) (by simp)
        (fun task' page' hmem => ?_) (fun task' page' hmem => ?_) fun task' hne => ⟨rfl, ?_⟩
      · simp [saveFlow, Flow.arrived_cons, Flow.left_cons]
      · simp only [reduceCtorEq, List.mem_singleton, Event.saved.injEq, false_or] at hmem
        obtain ⟨rfl, rfl⟩ := hmem
        exact h.pages task' page' (Or.inl (List.mem_of_getElem? hget))
      · cases List.mem_singleton.mp hmem
        simp [State.subs]
      · exact lookup_cons_of_ne (hne task page rfl)
    | saveError left =>
      cases hmove
      refine h.of_move hsound hget rfl rfl (fun x => ?_)
        (fun task' page' hmem => ?_) (by simp) (by simp) fun task' hne => ⟨rfl, ?_⟩
      · simp [saveFlow, Flow.arrived_cons, Flow.left_cons]
      · cases List.mem_singleton.mp hmem
        exact henough (task, page) (by rw [hget]; rfl)
      · cases left with
        | none => rfl
        | some text => exact lookup_cons_of_ne (hne task page rfl)
    | _ => cases hmove
  | ended => cases hmove

/-! ## The main thread -/

/-- The main thread changes no file of a worker. -/
theorem Saved.of_main (h : Saved s) {es : List Event}
    (hthreads : s'.threads = s.threads ∨ s'.threads = s.threads ++ [.idle])
    (hpages : s'.pages = s.pages) (hsubs : s'.subs = s.subs) (hlog : s'.log = s.log ++ es)
    (hes : ∀ e ∈ es, ¬ e.OfWorker) : Saved s' := by
  have hsaves : s'.saves = s.saves := by
    rcases hthreads with hsame | hnew
    · rw [State.saves, hsame, State.saves]
    · rw [State.saves, hnew, List.filterMap_append]
      exact List.append_nil _
  have hmem : ∀ {w : Worker}, w ∈ s'.threads → w ∈ s.threads ∨ w = .idle := fun hw => by
    rcases hthreads with hsame | hnew
    · exact Or.inl (hsame ▸ hw)
    · exact (List.mem_append.mp (hnew ▸ hw)).imp_right List.mem_singleton.mp
  have hnone : ∀ {e : Event}, e ∈ s'.log → e.OfWorker → e ∈ s.log := fun he hof => by
    rw [hlog, List.mem_append] at he
    exact he.resolve_right fun he => hes _ he hof
  have hpage : ∀ o : Event → Option Unit,
      (es.flatMap fun e => if o e = some () then e.page else []) = [] := fun o =>
    List.flatMap_eq_nil_iff.mpr fun e he => by
      have := hes e he
      cases e <;> first | exact ite_self _ | exact absurd trivial this
  refine ⟨?_, fun task page hun => h.unsaved task page (hnone hun trivial),
    fun task page hsub => ?_, fun task page hsaved => ?_⟩
  · rw [hlog, hsaves]
    apply h.books.append saveFlow
    intro _ x
    exact congrArg (s.saves.count x + List.count x ·) ((hpage _).trans (hpage _).symm)
  · rw [hpages]
    refine h.pages task page (hsub.imp (fun hw => ?_) fun he => hnone he trivial)
    exact (hmem hw).resolve_right (by simp)
  · rw [hsubs]
    exact h.subs task page (hnone hsaved trivial)

/-- **One step**, in which no `save` of a page with words enough raises. -/
theorem Saved.step (h : Saved s) (hsound : Sound hdd s) {a : Action} (henough : SavesEnough s a)
    (hstep : s.step a = some s') : Saved s' := by
  cases a with
  | worker i action =>
    obtain ⟨w, hget, hmove⟩ := State.step_worker hstep
    exact h.move hsound hget henough hmove
  | main =>
    obtain ⟨o, -, rfl⟩ | ⟨-, cmd, main, -, hexec⟩ := State.mainStep_cases hstep
    · have hframe := order_frame (s := s) o
      rcases hframe.log with hlog | hlog
      · exact h.of_main hframe.threads hframe.pages hframe.subs
          (hlog.trans (List.append_nil _).symm) (by simp)
      · exact h.of_main hframe.threads hframe.pages hframe.subs hlog (by simp [Event.OfWorker])
    · have hframe := execute_frame hexec
      obtain ⟨es, hlog, hes⟩ := hframe.log
      exact h.of_main (Or.inl hframe.threads) hframe.pages hframe.subs hlog
        fun e he => (hes e he).not_ofWorker
  | signal sig =>
    obtain ⟨-, rfl⟩ := State.step_signal hstep
    exact { h with }
  | newProxies lines =>
    cases hstep
    exact { h with }

/-! ## The results -/

/-- A step that only adds to the log keeps what has been delivered. -/
theorem Delivered.step (h : Delivered s) {a : Action} (hlog : s.log <+: s'.log)
    (hstep : s.step a = some s') : Delivered s' := by
  have hmono : ∀ {data : Result},
      (∃ page, .delivered data.uid page ∈ s.log ∧ data.wordsCnt = page.wordsCnt) →
      ∃ page, .delivered data.uid page ∈ s'.log ∧ data.wordsCnt = page.wordsCnt :=
    fun ⟨page, hpage, hcnt⟩ => ⟨page, hlog.subset hpage, hcnt⟩
  have hsame : s'.resultsQueue = s.resultsQueue → s'.main = s.main →
      (∀ data, .committed data ∈ s'.log → .committed data ∈ s.log) → Delivered s' :=
    fun hresults hmain hcommitted =>
      ⟨fun data hdata => hmono (h.results data (hresults ▸ hdata)),
        fun c hc data hdata => hmono (h.got c (hmain ▸ hc) data hdata),
        fun data hdata => (h.committed data (hcommitted data hdata)).imp_right hmono⟩
  cases a with
  | worker i action =>
    obtain ⟨w, hget, hmove⟩ := State.step_worker hstep
    have hframe := move_frame hget hmove
    have hcommitted : ∀ data, .committed data ∈ s'.log → .committed data ∈ s.log := by
      intro data hdata
      obtain ⟨es, hes, hnot⟩ := hframe.log
      rw [hes, List.mem_append] at hdata
      exact hdata.resolve_right fun he => (hnot _ he).2 trivial
    rcases hframe.results with hresults | ⟨task, page, hpage, hresults⟩
    · exact hsame hresults hframe.main hcommitted
    · refine ⟨fun data hdata => ?_, fun c hc data hdata => hmono (h.got c (hframe.main ▸ hc) data
        hdata), fun data hdata => (h.committed data (hcommitted data hdata)).imp_right hmono⟩
      rw [hresults, List.mem_append, List.mem_singleton] at hdata
      rcases hdata with hdata | hdata
      · exact hmono (h.results data hdata)
      · cases hdata
        exact ⟨page, hpage, rfl⟩
  | main =>
    obtain ⟨o, -, rfl⟩ | ⟨-, cmd, main, hmain, hexec⟩ := State.mainStep_cases hstep
    · have hframe := order_frame (s := s) o
      apply hsame hframe.resultsQueue hframe.main
      intro data hdata
      rcases hframe.log with heq | heq
      · rwa [heq] at hdata
      · rw [heq, List.mem_append, List.mem_singleton] at hdata
        exact hdata.resolve_right (by simp)
    · have hframe := execute_frame hexec
      refine ⟨fun data hdata => ?_, fun c hc data hdata => ?_, fun data hdata => ?_⟩
      · refine hmono (h.results data ?_)
        rcases hframe.results with hsame | ⟨-, m, hresults, -⟩ | ⟨-, hresults⟩
        · exact hsame ▸ hdata
        · exact hresults ▸ List.mem_cons_of_mem _ hdata
        · exact (List.mem_append.mp (hresults ▸ hdata)).resolve_right (by simp)
      · rcases hframe.got c hc data hdata with hc | hdata
        · exact hmono (h.got c (hmain ▸ List.mem_cons_of_mem _ hc) data ‹_›)
        · exact hmono (h.results data hdata)
      · obtain ⟨es, hes, hlogs⟩ := hframe.log
        rw [hes, List.mem_append] at hdata
        rcases hdata with hdata | hdata
        · exact (h.committed data hdata).imp_right hmono
        · obtain ⟨rfl, hcnt⟩ := (hlogs _ hdata).of_committed
          have hgot := h.got _ (hmain ▸ List.mem_cons_self) data List.mem_cons_self
          exact ⟨hcnt, hmono hgot⟩
  | signal sig =>
    obtain ⟨-, rfl⟩ := State.step_signal hstep
    refine ⟨h.results, fun c hc data hdata => ?_, h.committed⟩
    rcases List.mem_append.mp hc with hc | hc
    · have hnone := List.flatMap_eq_nil_iff.mp (handler_keeps s sig).2 c hc
      rw [hnone] at hdata
      cases hdata
    · exact h.got c hc data hdata
  | newProxies lines =>
    cases hstep
    exact hsame rfl rfl fun _ => id

end

theorem Session.saved (c : Session) : Saved c.start where
  books := Flow.Balanced.nil _ fun _ => rfl
  unsaved _ _ h := absurd h List.not_mem_nil
  pages _ _ h := absurd h (by simp [Session.start])
  subs _ _ h := absurd h List.not_mem_nil

theorem Session.delivered (c : Session) : Delivered c.start where
  results _ h := absurd h List.not_mem_nil
  got := by simp [Session.start, Cmd.got]
  committed _ h := absurd h List.not_mem_nil

/-- **A committed video has its files.** Whatever the workers and the main thread do, and whatever
signals arrive: if no `save` raises of a page with more than 250 words, then when all workers have
ended every video that the session has committed has its page file and its subtitle file. -/
theorem committed_hasFiles (c : Session) {actions : List Action}
    (henough : Allowed State.step SavesEnough c.start actions) {s : State}
    (hrun : c.run actions = some s) (hended : ∀ w ∈ s.threads, w = .ended) :
    ∀ data ∈ committed s.log, s.HasFiles data.uid := by
  intro data hdata
  obtain ⟨hsound, hsaved, hdelivered⟩ :=
    runFrom_inv SavesEnough (fun s => Sound c.uids s ∧ Saved s ∧ Delivered s)
      (fun ⟨hsound, hsaved, hdelivered⟩ hok hstep =>
        ⟨hsound.step hstep, hsaved.step hsound hok hstep,
          hdelivered.step (hsound.log_prefix_step hstep) hstep⟩)
      ⟨c.sound, c.saved, c.delivered⟩ henough hrun
  obtain ⟨hcnt, page, hpage, hwords⟩ := hdelivered.committed data (mem_committed.mp hdata)
  -- No worker is left that could still have it to save, and `save` has not raised of it.
  have hnone : s.saves = [] := List.filterMap_eq_nil_iff.mpr fun w hw => by rw [hended w hw]; rfl
  have harrived : (data.uid, page) ∈ saveFlow.arrived s.log () :=
    List.mem_flatMap.mpr ⟨_, hpage, by simp [saveFlow]⟩
  have hbooks := hsaved.books () (data.uid, page)
  rw [hnone] at hbooks
  have hpos := List.count_pos_iff.mpr harrived
  have hleft : (data.uid, page) ∈ saveFlow.left s.log () :=
    List.count_pos_iff.mp (by simpa [← hbooks] using hpos)
  obtain ⟨e, he, hitem⟩ := List.mem_flatMap.mp hleft
  cases e <;> simp [saveFlow] at hitem
  case saved task page' =>
    obtain ⟨rfl, rfl⟩ := hitem
    exact ⟨page, hpage, hsaved.pages _ _ (Or.inr he), hsaved.subs _ _ he⟩
  case unsaved task page' =>
    obtain ⟨rfl, rfl⟩ := hitem
    have hfew := hsaved.unsaved _ _ he
    omega

/-- Two workers: one saves its page, the other raises on one that is too short. -/
theorem committed_hasFiles_short :
    let actions := List.replicate 13 Action.main ++
      [.worker 0 .take, .worker 0 .nextProxy, .worker 0 (.deliver ⟨"p".toList, [], [], 300⟩),
        .worker 1 .take, .worker 1 .nextProxy, .worker 1 (.deliver ⟨"q".toList, [], [], 9⟩),
        .worker 0 .savePage, .worker 0 .saveSubs, .worker 1 (.saveError none), .signal .sigterm] ++
      List.replicate 10 Action.main ++ [.worker 0 .take, .worker 0 .nextProxy] ++
      List.replicate 13 Action.main
    ∃ s, (Session.small 2 ["a\n".toList, "b\n".toList]).run actions = some s ∧
      s.HasFiles "a".toList := by
  intro actions
  have heval : ((Session.small 2 ["a\n".toList, "b\n".toList]).run actions).map
      (fun s => (committed s.log, s.threads))
      = some ([⟨"a".toList, [], 300⟩], [.ended, .ended]) := by decide +kernel
  obtain ⟨s, hrun, hs⟩ := Option.map_eq_some_iff.mp heval
  obtain ⟨hlog, hthreads⟩ := Prod.mk.injEq .. ▸ hs
  have henough : Allowed State.step SavesEnough
      (Session.small 2 ["a\n".toList, "b\n".toList]).start actions := by decide +kernel
  refine ⟨s, hrun, ?_⟩
  exact committed_hasFiles _ henough hrun (by rw [hthreads]; decide) ⟨"a".toList, [], 300⟩
    (by rw [hlog]; exact List.mem_cons_self)

/-- One worker that raises when it saves: the main thread has committed the video by then. -/
theorem committed_not_hasFiles :
    ¬ ∀ (c : Session) (actions : List Action) (s : State), c.run actions = some s →
      (∀ w ∈ s.threads, w = .ended) → ∀ data ∈ committed s.log, s.HasFiles data.uid := by
  intro hclaim
  have heval : ((Session.small 1 ["a\n".toList]).run (List.replicate 10 Action.main ++
      [.worker 0 .take, .worker 0 .nextProxy, .worker 0 (.deliver ⟨"p".toList, [], [], 300⟩),
        .main, .main, .worker 0 (.saveError none)])).map
      (fun s => (committed s.log, s.threads, s.pages))
      = some ([⟨"a".toList, [], 300⟩], [.ended], []) := by decide +kernel
  obtain ⟨s, hrun, hs⟩ := Option.map_eq_some_iff.mp heval
  obtain ⟨hlog, hthreads, hpages⟩ : committed s.log = _ ∧ s.threads = _ ∧ s.pages = _ := by
    simpa using hs
  obtain ⟨page, -, hpage, -⟩ := hclaim _ _ s hrun (by rw [hthreads]; decide)
    ⟨"a".toList, [], 300⟩ (by rw [hlog]; exact List.mem_cons_self)
  rw [hpages] at hpage
  cases hpage

end Amigos.Spider
