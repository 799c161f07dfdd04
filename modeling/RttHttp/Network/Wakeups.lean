import RttHttp.Network.Pool
import Mathlib.Algebra.Order.BigOperators.Group.List
import Mathlib.Algebra.Order.Group.Multiset
import Mathlib.Algebra.Order.Group.Nat
import Mathlib.Tactic.Abel

/-! # No lost wake-up and no lost task

Every task that is enqueued wakes one sleeping thread, and a thread goes to sleep
only when the queue is empty. So threads sleep beside a waiting task only as long as
enough others are awake for it. Closing the pool is the only other way out of the
queue, and it leaves no thread behind.
-/

namespace RttHttp.Network

namespace NetworkPool

variable {Task : Type}

/-- All threads have ended. -/
def Joined (s : NetworkPool Task) : Prop := ∀ worker ∈ s.threads, worker = .exited

/-- What the program point of the owner says about the pool. -/
def Phase (s : NetworkPool Task) : Owner → Prop
  | .constructing => s.closing = false ∧ s.queue = []
  | .opened | .callback _ | .close _ => s.closing = true → s.Joined
  | .notify _ => s.closing = true
  | .join _ thread =>
      s.closing = true ∧ thread ≤ s.threads.length ∧
        (∀ j < thread, s.threads[j]? = some .exited) ∧ ∀ worker ∈ s.threads, worker ≠ .asleep
  | .threw | .destroyed => s.closing = true ∧ s.Joined

/-- What holds in every state of a pool. -/
structure Invariant (s : NetworkPool Task) : Prop where
  bounded : s.queue.length ≤ s.cap
  emptied : s.closing = true → s.queue = []
  width : s.threads.length ≤ s.width
  alive : s.closing = false → ∀ worker ∈ s.threads, worker ≠ .exited
  wakeful : s.closing = false → s.threads.countP Worker.isAsleep = 0 ∨
    s.queue.length ≤ s.threads.countP Worker.isLooking
  phase : s.Phase s.owner

theorem invariant_construct (width cap : Nat) :
    Invariant (construct width cap : NetworkPool Task) where
  bounded := Nat.zero_le _
  emptied := fun _ => rfl
  width := Nat.zero_le _
  alive := fun _ _ hworker => absurd hworker List.not_mem_nil
  wakeful := fun _ => .inl rfl
  phase := ⟨rfl, rfl⟩

variable {s next : NetworkPool Task}

/-- The threads around one of them, and what becomes of them when it moves. -/
theorem exists_split {threads : List (Worker Task)} {w : Nat} {before : Worker Task}
    (hw : threads[w]? = some before) (after : Worker Task) :
    ∃ left right, threads = left ++ before :: right ∧
      threads.set w after = left ++ after :: right := by
  obtain ⟨hlength, hget⟩ := List.getElem?_eq_some_iff.mp hw
  obtain ⟨left, right, hbefore, -, hafter⟩ := @List.exists_of_set _ w after _ hlength
  exact ⟨left, right, by rw [← hget]; exact hbefore, hafter⟩

/-- A pool in which a thread has not ended is not joined. -/
theorem Joined.not_of_getElem? {w : Nat} {worker : Worker Task}
    (hw : s.threads[w]? = some worker) (hworker : worker ≠ .exited) : ¬ s.Joined :=
  fun hjoined => hworker (hjoined worker (List.mem_of_getElem? hw))

/-- The move of one thread, which may take a task off the queue. -/
theorem Invariant.move (h : s.Invariant) {w : Nat} {before after : Worker Task}
    {queue : List Task} (hw : s.threads[w]? = some before) (hbefore : before ≠ .exited)
    (hqueue : queue.Sublist s.queue)
    (hclosing : s.closing = true → after ≠ .asleep)
    (hopen : s.closing = false → after ≠ .exited)
    (hwakeful : s.closing = false → (s.threads.set w after).countP Worker.isAsleep = 0 ∨
      queue.length ≤ (s.threads.set w after).countP Worker.isLooking) :
    Invariant { s with queue := queue, threads := s.threads.set w after } where
  bounded := hqueue.length_le.trans h.bounded
  emptied hclosed := by
    have hempty := h.emptied hclosed
    rw [hempty] at hqueue
    exact List.sublist_nil.mp hqueue
  width := by simpa using h.width
  alive hopened worker hworker := by
    rcases List.mem_or_eq_of_mem_set hworker with hold | rfl
    · exact h.alive hopened worker hold
    · exact hopen hopened
  wakeful := hwakeful
  phase := by
    have hphase := h.phase
    have hjoined : ¬ s.Joined := Joined.not_of_getElem? hw hbefore
    cases howner : s.owner with
    | constructing =>
        rw [howner] at hphase
        refine ⟨hphase.1, ?_⟩
        rw [hphase.2] at hqueue
        exact List.sublist_nil.mp hqueue
    | opened | callback | close =>
        rw [howner] at hphase
        exact fun hclosed => absurd (hphase hclosed) hjoined
    | notify =>
        rw [howner] at hphase
        exact hphase
    | join cause thread =>
        rw [howner] at hphase
        obtain ⟨hclosed, hlength, hexited, hawake⟩ := hphase
        refine ⟨hclosed, by simpa using hlength, ?_, ?_⟩
        · intro j hj
          have hne : w ≠ j := by
            rintro rfl
            exact hbefore (Option.some.inj (hw.symm.trans (hexited w hj)))
          rw [List.getElem?_set_ne hne]
          exact hexited j hj
        · intro worker hworker
          rcases List.mem_or_eq_of_mem_set hworker with hold | rfl
          · exact hawake worker hold
          · exact hclosing hclosed
    | threw | destroyed =>
        rw [howner] at hphase
        exact absurd hphase.2 hjoined

theorem Invariant.worker (h : s.Invariant) {w : Nat} {action : WorkerAction Task}
    (hstep : WorkerStep s w action next) : next.Invariant := by
  cases hstep with
  | @take task rest hpc hopen hqueue =>
      refine h.move hpc (by simp) (by rw [hqueue]; exact List.sublist_cons_self task rest)
        (fun _ => by simp) (fun _ => by simp) fun _ => ?_
      obtain ⟨left, right, hbefore, hafter⟩ := exists_split hpc (.running task)
      have hwakeful := h.wakeful hopen
      rw [hafter]
      simp only [hqueue, hbefore, List.countP_append, List.countP_cons, Worker.isAsleep,
        Worker.isLooking, List.length_cons] at hwakeful ⊢
      simp only [Bool.false_eq_true, if_false, if_true] at hwakeful ⊢
      omega
  | sleep hpc hopen hqueue =>
      refine h.move hpc (by simp) (List.Sublist.refl _) (fun hclosed => ?_) (fun _ => by simp)
        fun _ => .inr ?_
      · rw [hopen] at hclosed
        cases hclosed
      · rw [hqueue]
        exact Nat.zero_le _
  | exit hpc hclosing =>
      refine h.move hpc (by simp) (List.Sublist.refl _) (fun _ => by simp) (fun hopened => ?_)
        fun hopened => ?_
      all_goals
        rw [hclosing] at hopened
        cases hopened
  | wake hpc =>
      refine h.move hpc (by simp) (List.Sublist.refl _) (fun _ => by simp) (fun _ => by simp)
        fun hopened => ?_
      obtain ⟨left, right, hbefore, hafter⟩ := exists_split hpc .looking
      have hwakeful := h.wakeful hopened
      rw [hafter]
      simp only [hbefore, List.countP_append, List.countP_cons, Worker.isAsleep,
        Worker.isLooking] at hwakeful ⊢
      simp only [Bool.false_eq_true, if_false, if_true] at hwakeful ⊢
      omega
  | @finish task threw hpc =>
      refine h.move hpc (by simp) (List.Sublist.refl _) (fun _ => by simp) (fun _ => by simp)
        fun hopened => ?_
      obtain ⟨left, right, hbefore, hafter⟩ := exists_split hpc .looking
      have hwakeful := h.wakeful hopened
      rw [hafter]
      simp only [hbefore, List.countP_append, List.countP_cons, Worker.isAsleep,
        Worker.isLooking] at hwakeful ⊢
      simp only [Bool.false_eq_true, if_false, if_true] at hwakeful ⊢
      omega

/-- An enqueued task finds a sleeping thread for itself, if any thread sleeps. -/
theorem Invariant.accepted (h : s.Invariant) {task : Task} {woken : Option Nat}
    {threads : List (Worker Task)} (husable : s.owner.usable = true) (hopen : s.closing = false)
    (hroom : s.queue.length < s.cap) (hnotified : Notified s.threads woken threads) :
    Invariant { s with queue := s.queue ++ [task], threads := threads } := by
  have hwakeful := h.wakeful hopen
  have hphase : s.Phase s.owner := h.phase
  have hlength : threads.length = s.threads.length := by cases hnotified <;> simp
  refine ⟨by simpa [Nat.succ_le_iff] using hroom, fun hclosed => ?_, hlength ▸ h.width, fun hopened worker hworker => ?_,
    fun hopened => ?_, ?_⟩
  · rw [hopen] at hclosed
    cases hclosed
  · cases hnotified with
    | nobody => exact h.alive hopened worker hworker
    | one hasleep =>
        rcases List.mem_or_eq_of_mem_set hworker with hold | rfl
        · exact h.alive hopened worker hold
        · simp
  · cases hnotified with
    | nobody hawake =>
        refine .inl (List.countP_eq_zero.mpr fun worker hworker => ?_)
        simp [hawake worker hworker]
    | @one w hasleep =>
        -- One sleeper less, one task and one waking thread more.
        obtain ⟨left, right, hbefore, hafter⟩ := exists_split hasleep .looking
        rw [hafter]
        simp only [hbefore, List.countP_append, List.countP_cons, Worker.isAsleep,
          Worker.isLooking, List.length_append, List.length_singleton] at hwakeful ⊢
        simp only [Bool.false_eq_true, if_false, if_true] at hwakeful ⊢
        omega
  · cases howner : s.owner with
    | opened | callback | close =>
        intro hclosed
        rw [hopen] at hclosed
        cases hclosed
    | notify =>
        rw [howner] at hphase
        cases hopen.symm.trans hphase
    | join =>
        rw [howner] at hphase
        cases hopen.symm.trans hphase.1
    | constructing | threw | destroyed =>
        rw [howner] at husable
        cases husable

theorem Worker.notified_ne_asleep (worker : Worker Task) : worker.notified ≠ .asleep := by
  cases worker <;> simp [Worker.notified]

/-- Every thread has been joined when the last one has. -/
theorem joined_of_join {thread : Nat} (hall : thread = s.threads.length)
    (hexited : ∀ j < thread, s.threads[j]? = some .exited) : s.Joined := by
  intro worker hworker
  obtain ⟨j, hj, hget⟩ := List.mem_iff_getElem.mp hworker
  have hsome := hexited j (hall ▸ hj)
  rw [List.getElem?_eq_getElem hj, hget] at hsome
  exact Option.some.inj hsome

theorem Invariant.step (h : s.Invariant) {action : Action Task} (hstep : Step s action next) :
    next.Invariant := by
  have hphase := h.phase
  cases hstep with
  | create howner hroom =>
      rw [howner] at hphase
      refine ⟨h.bounded, h.emptied, by simpa [Nat.succ_le_iff] using hroom, fun hopen worker hworker => ?_, fun hopen => ?_, ?_⟩
      · rcases List.mem_append.mp hworker with hold | hnew
        · exact h.alive hopen worker hold
        · rw [List.mem_singleton.mp hnew]
          simp
      · have hwakeful := h.wakeful hopen
        simp only [List.countP_append, List.countP_singleton, Worker.isAsleep, Worker.isLooking,
          Bool.false_eq_true, if_false, if_true]
        omega
      · rw [howner]
        exact hphase
  | createFailed howner =>
      rw [howner] at hphase
      refine { h with phase := fun hclosed => ?_ }
      cases hphase.1.symm.trans hclosed
  | constructed howner =>
      rw [howner] at hphase
      refine { h with phase := fun hclosed => ?_ }
      cases hphase.1.symm.trans hclosed
  | accepted husable hopen hroom hnotified => exact h.accepted husable hopen hroom hnotified
  | refused => exact h
  | enqueueThrew => exact h
  | shutdown howner | destroy howner | callback howner =>
      rw [howner] at hphase
      exact { h with phase := hphase }
  | close howner =>
      exact ⟨Nat.zero_le _, fun _ => rfl, h.width, nofun, nofun, rfl⟩
  | notify howner =>
      rw [howner] at hphase
      have hclosing : s.closing = true := hphase
      refine ⟨h.bounded, h.emptied, by simpa using h.width, fun hopen => ?_, fun hopen => ?_,
        hclosing, Nat.zero_le _, nofun, ?_⟩
      · cases hclosing.symm.trans hopen
      · cases hclosing.symm.trans hopen
      · intro worker hworker
        obtain ⟨before, -, rfl⟩ := List.mem_map.mp hworker
        exact Worker.notified_ne_asleep before
  | @joined cause thread howner hexited =>
      rw [howner] at hphase
      obtain ⟨hclosing, hlength, hbefore, hawake⟩ := hphase
      obtain ⟨hthread, -⟩ := List.getElem?_eq_some_iff.mp hexited
      refine { h with phase := ⟨hclosing, hthread, fun j hj => ?_, hawake⟩ }
      rcases Nat.lt_succ_iff_lt_or_eq.mp hj with hlt | rfl
      · exact hbefore j hlt
      · exact hexited
  | @returned cause howner =>
      rw [howner] at hphase
      obtain ⟨hclosing, -, hexited, -⟩ := hphase
      have hjoined := joined_of_join rfl hexited
      refine { h with phase := ?_ }
      cases cause with
      | user => exact fun _ => hjoined
      | constructor | destructor => exact ⟨hclosing, hjoined⟩
  | worker hworker => exact h.worker hworker

/-! ## What becomes of a task -/

end NetworkPool

namespace Action

variable {Task : Type}

/-- The task that `enqueue` has taken in. -/
def accepted : Action Task → List Task
  | .enqueue task .accepted _ => [task]
  | _ => []

/-- The task that a thread starts. -/
def started : Action Task → List Task
  | .worker _ (.take task) => [task]
  | _ => []

/-- The task that a thread has run to its end. -/
def finished : Action Task → List Task
  | .worker _ (.finish task _) => [task]
  | _ => []

/-- The tasks that are destroyed before they have run. -/
def dropped : Action Task → List Task
  | .close dropped => dropped
  | _ => []

end Action

namespace NetworkPool

variable {Task : Type} [DecidableEq Task] {s next : NetworkPool Task} {action : Action Task}

/-- The queue of a pool. -/
def taskQueue (Task : Type) [DecidableEq Task] :
    Machine.Queue (@step Task _) Task where
  content := queue
  enters := Action.accepted
  leaves := fun action => action.started ++ action.dropped
  balance := by
    intro s action next hstep
    cases step_cases hstep with
    | worker hworker =>
        cases hworker with
        | take _ _ hqueue => simp [Action.accepted, Action.started, Action.dropped, hqueue]
        | _ => simp [Action.accepted, Action.started, Action.dropped]
    | _ => simp [Action.accepted, Action.started, Action.dropped]

section RunningTasks

omit [DecidableEq Task]

variable {threads : List (Worker Task)}

/-- A thread that moves changes the running tasks by the task it had and the one it has. -/
theorem runningTasks_set {w : Nat} {before : Worker Task} (hw : threads[w]? = some before)
    (after : Worker Task) :
    (runningTasks threads ++ after.task?.toList).Perm
      (before.task?.toList ++ runningTasks (threads.set w after)) := by
  obtain ⟨left, right, hbefore, hafter⟩ := exists_split hw after
  have htask : ∀ worker : Worker Task, (worker :: right).filterMap Worker.task? =
      worker.task?.toList ++ right.filterMap Worker.task? := by
    intro worker
    cases hworker : worker.task? <;> simp [hworker]
  rw [hafter, runningTasks, runningTasks, hbefore, List.filterMap_append, List.filterMap_append,
    htask, htask]
  apply Multiset.coe_eq_coe.mp
  simp only [← Multiset.coe_add]
  abel

theorem runningTasks_map_notified :
    runningTasks (threads.map Worker.notified) = runningTasks threads := by
  rw [runningTasks, List.filterMap_map]
  apply List.filterMap_congr
  intro worker _
  cases worker <;> rfl

theorem runningTasks_notified {woken : Option Nat} {after : List (Worker Task)}
    (hnotified : Notified threads woken after) :
    (runningTasks threads).Perm (runningTasks after) := by
  cases hnotified with
  | nobody => exact .refl _
  | one hasleep => simpa [Worker.task?] using runningTasks_set hasleep .looking

end RunningTasks

/-- The tasks that are running. -/
def taskBag (Task : Type) [DecidableEq Task] : Machine.Bag (@step Task _) Task where
  content := fun s => runningTasks s.threads
  enters := Action.started
  leaves := Action.finished
  balance := by
    intro s action next hstep
    cases step_cases hstep with
    | create =>
        have hnew : runningTasks [(.looking : Worker Task)] = [] := rfl
        simp only [Action.started, Action.finished, runningTasks, List.filterMap_append,
          List.append_nil, List.nil_append] at hnew ⊢
        rw [hnew, List.append_nil]
    | accepted _ _ _ hnotified =>
        simpa [Action.started, Action.finished] using runningTasks_notified hnotified
    | notify => simp [Action.started, Action.finished, runningTasks_map_notified]
    | worker hworker =>
        cases hworker with
        | @take task _ hpc =>
            have hset := runningTasks_set hpc (.running task)
            exact hset
        | finish hpc =>
            simpa [Action.started, Action.finished, Worker.task?] using
              runningTasks_set hpc .looking
        | sleep hpc =>
            simpa [Action.started, Action.finished, Worker.task?] using
              runningTasks_set hpc .asleep
        | wake hpc =>
            simpa [Action.started, Action.finished, Worker.task?] using
              runningTasks_set hpc .looking
        | exit hpc =>
            simpa [Action.started, Action.finished, Worker.task?] using
              runningTasks_set hpc .exited
    | _ => simp [Action.started, Action.finished]

/-! ## Runs of a pool -/

theorem invariant_of_run {actions : List (Action Task)} (h : s.Invariant)
    (hrun : Machine.run step s actions = some next) : next.Invariant :=
  Machine.run_invariant (fun _ _ _ h hstep => h.step (step_cases hstep)) h hrun

omit [DecidableEq Task] in
/-- The size of the pool is fixed. -/
theorem size_of_step (hstep : Step s action next) : next.width = s.width ∧ next.cap = s.cap := by
  cases hstep with
  | worker hworker => cases hworker <;> exact ⟨rfl, rfl⟩
  | _ => exact ⟨rfl, rfl⟩

theorem size_of_run {actions : List (Action Task)}
    (hrun : Machine.run step s actions = some next) : next.width = s.width ∧ next.cap = s.cap := by
  have hstep : ∀ (t : NetworkPool Task) action after, (t.width = s.width ∧ t.cap = s.cap) →
      step t action = some after → after.width = s.width ∧ after.cap = s.cap := by
    intro t action after ht hstep
    obtain ⟨hwidth, hcap⟩ := size_of_step (step_cases hstep)
    exact ⟨hwidth.trans ht.1, hcap.trans ht.2⟩
  exact Machine.run_invariant hstep ⟨rfl, rfl⟩ hrun

omit [DecidableEq Task] in
/-- A closing pool stays so; it neither takes in nor starts anything. -/
theorem quiet_of_step (hclosing : s.closing = true) (hstep : Step s action next) :
    next.closing = true ∧ action.accepted = [] ∧ action.started = [] := by
  cases hstep with
  | accepted _ hopen =>
      rw [hclosing] at hopen
      cases hopen
  | worker hworker =>
      cases hworker with
      | take _ hopen =>
          rw [hclosing] at hopen
          cases hopen
      | _ => exact ⟨hclosing, rfl, rfl⟩
  | close => exact ⟨rfl, rfl, rfl⟩
  | _ => exact ⟨hclosing, rfl, rfl⟩

theorem quiet_of_run {actions : List (Action Task)} (hclosing : s.closing = true)
    (hrun : Machine.run step s actions = some next) :
    actions.flatMap Action.accepted = [] ∧ actions.flatMap Action.started = [] := by
  induction actions generalizing s with
  | nil => exact ⟨rfl, rfl⟩
  | cons action rest ih =>
      obtain ⟨mid, hmid, hrest⟩ := Option.bind_eq_some_iff.mp hrun
      obtain ⟨hstill, haccepted, hstarted⟩ := quiet_of_step hclosing (step_cases hmid)
      obtain ⟨hacceptedRest, hstartedRest⟩ := ih hstill hrest
      rw [List.flatMap_cons, List.flatMap_cons, haccepted, hstarted, hacceptedRest, hstartedRest]
      exact ⟨rfl, rfl⟩

/-- `shutdown()` has returned, whoever called it. -/
def Returned (s : NetworkPool Task) : Prop :=
  s.closing = true ∧ (s.owner = .opened ∨ s.owner = .threw ∨ s.owner = .destroyed)

omit [DecidableEq Task] in
theorem Invariant.joined_of_returned (h : s.Invariant) (hreturned : s.Returned) : s.Joined := by
  obtain ⟨hclosing, howner⟩ := hreturned
  have hphase := h.phase
  rcases howner with howner | howner | howner <;> rw [howner] at hphase
  · exact hphase hclosing
  · exact hphase.2
  · exact hphase.2

omit [DecidableEq Task] in
theorem runningTasks_of_joined (hjoined : s.Joined) : runningTasks s.threads = [] := by
  rw [runningTasks, List.filterMap_eq_nil_iff]
  intro worker hworker
  rw [hjoined worker hworker]
  rfl

/-- What the pool has made of the tasks of a run: it takes them in within its capacity,
starts them in the order in which they came, runs each one that it has started to its
end, and destroys the others when it closes. -/
structure Accounts (width cap : Nat) (actions : List (Action Task)) (s : NetworkPool Task) :
    Prop where
  bounded : s.queue.length ≤ cap
  parallel : (runningTasks s.threads).length ≤ width
  ordered : actions.flatMap Action.accepted =
    actions.flatMap (fun action => action.started ++ action.dropped) ++ s.queue
  run : (actions.flatMap Action.started).Perm
    (actions.flatMap Action.finished ++ runningTasks s.threads)
  refused : ∀ before after task woken, actions = before ++ .enqueue task .refused woken :: after →
    ∃ mid, Machine.run step (construct width cap) before = some mid ∧
      (mid.closing = true ∨ mid.queue.length = cap)
  closed : ∀ before after dropped, actions = before ++ .close dropped :: after →
    after.flatMap Action.accepted = [] ∧ after.flatMap Action.started = []
  returned : s.Returned → s.Joined ∧ (actions.flatMap Action.accepted).Perm
    (actions.flatMap Action.finished ++ actions.flatMap Action.dropped)

omit [DecidableEq Task] in
/-- Tasks that are started one at a time, between tasks that are dropped together. -/
theorem departed_perm (actions : List (Action Task)) :
    (actions.flatMap fun action => action.started ++ action.dropped).Perm
      (actions.flatMap Action.started ++ actions.flatMap Action.dropped) := by
  induction actions with
  | nil => exact .refl _
  | cons action rest ih =>
      simp only [List.flatMap_cons]
      refine (ih.append_left _).trans ?_
      apply Multiset.coe_eq_coe.mp
      simp only [← Multiset.coe_add]
      abel

/-- No task is lost, started out of turn or run twice, in any interleaving of enqueuing
threads, pool threads and the owner of the pool. -/
theorem pool_accounts (width cap : Nat) (actions : List (Action Task)) (s : NetworkPool Task)
    (hrun : Machine.run step (construct width cap) actions = some s) :
    Accounts width cap actions s := by
  have h := invariant_of_run (invariant_construct width cap) hrun
  have hwidth : s.width = width := (size_of_run hrun).1
  have hcap : s.cap = cap := (size_of_run hrun).2
  have hqueue := (taskQueue Task).run hrun
  have hbag := (taskBag Task).run hrun
  refine {
    bounded := hcap ▸ h.bounded
    parallel := (List.length_filterMap_le _ _).trans (hwidth ▸ h.width)
    ordered := hqueue
    run := hbag
    refused := fun before after task woken hsplit => ?_
    closed := fun before after dropped hsplit => ?_
    returned := fun hreturned => ?_ }
  · subst hsplit
    obtain ⟨mid, next, hmid, hstep, -⟩ := Machine.run_split hrun
    refine ⟨mid, hmid, ?_⟩
    have hinvariant := invariant_of_run (invariant_construct width cap) hmid
    cases step_cases hstep with
    | refused _ hfull =>
        refine hfull.imp_right fun hlength => ?_
        have hmidCap : mid.cap = cap := (size_of_run hmid).2
        have hbounded := hinvariant.bounded
        omega
  · subst hsplit
    obtain ⟨mid, next, -, hstep, hafter⟩ := Machine.run_split hrun
    cases step_cases hstep with
    | close => exact quiet_of_run rfl hafter
  · have hjoined := h.joined_of_returned hreturned
    refine ⟨hjoined, ?_⟩
    have hempty : s.queue = [] := h.emptied hreturned.1
    rw [show actions.flatMap Action.accepted = _ from hqueue]
    refine (List.Perm.of_eq (congrArg _ hempty)).trans ?_
    rw [List.append_nil]
    refine (departed_perm actions).trans (List.Perm.append_right _ ?_)
    have hstarted : (actions.flatMap Action.started).Perm
        (actions.flatMap Action.finished ++ runningTasks s.threads) := hbag
    rwa [runningTasks_of_joined hjoined, List.append_nil] at hstarted

/-! ## Liveness of a pool -/

/-- A call of `shutdown()` is under way. -/
def ShuttingDown (s : NetworkPool Task) : Prop :=
  match s.owner with
  | .callback _ | .close _ | .notify _ | .join _ _ => True
  | .constructing | .opened | .threw | .destroyed => False

end NetworkPool

/-- Steps that shut a pool down, but for the ends of tasks. -/
def Action.closes {Task : Type} : Action Task → Bool
  | .callback | .close _ | .notify | .joined | .returned | .worker _ .exit => true
  | _ => false

def Action.enqueues {Task : Type} : Action Task → Bool
  | .enqueue _ _ _ => true
  | _ => false

namespace NetworkPool

variable {Task : Type} [DecidableEq Task] {s next : NetworkPool Task} {action : Action Task}

/-- The steps that a thread can still take when the pool is closing. -/
def Worker.rank : Worker Task → Nat
  | .running _ | .asleep => 2
  | .looking => 1
  | .exited => 0

/-- The steps that the owner can still take in a call of `shutdown()` that has closed
the pool. -/
def Owner.rank (threads : Nat) : Owner → Nat
  | .notify _ => threads + 2
  | .join _ thread => threads - thread + 1
  | _ => 0

/-- A bound on the steps of a closing pool. -/
def rank (s : NetworkPool Task) : Nat :=
  (s.threads.map Worker.rank).sum + Owner.rank s.threads.length s.owner

omit [DecidableEq Task] in
theorem rank_set {w : Nat} {before after : Worker Task} (hw : s.threads[w]? = some before)
    (hrank : Worker.rank after + 1 ≤ Worker.rank before) :
    rank { s with threads := s.threads.set w after } + 1 ≤ s.rank := by
  obtain ⟨left, right, hbefore, hafter⟩ := exists_split hw after
  rw [rank, rank, hafter, hbefore]
  simp only [List.map_append, List.map_cons, List.sum_append, List.sum_cons, List.length_append,
    List.length_cons]
  omega

omit [DecidableEq Task] in
theorem rank_notified (threads : List (Worker Task)) :
    ((threads.map Worker.notified).map Worker.rank).sum ≤ (threads.map Worker.rank).sum := by
  rw [List.map_map]
  apply List.sum_le_sum
  intro worker _
  cases worker <;> simp [Worker.notified, Worker.rank]

omit [DecidableEq Task] in
theorem rank_le (s : NetworkPool Task) : s.rank ≤ 3 * s.threads.length + 2 := by
  have hthreads : (s.threads.map Worker.rank).sum ≤ s.threads.length * 2 := by
    rw [← List.length_map (f := Worker.rank)]
    refine List.sum_le_card_nsmul _ 2 fun rank hrank => ?_
    obtain ⟨worker, -, rfl⟩ := List.mem_map.mp hrank
    cases worker <;> simp [Worker.rank]
  have howner : Owner.rank s.threads.length s.owner ≤ s.threads.length + 2 := by
    cases s.owner <;> simp [Owner.rank]
    omega
  rw [rank]
  omega

/-- The pool has been closed, and no later call of `shutdown()` has begun. -/
def Closed (s : NetworkPool Task) : Prop :=
  s.closing = true ∧ ∀ cause, s.owner ≠ .callback cause ∧ s.owner ≠ .close cause

omit [DecidableEq Task] in
/-- A closing pool without a new call pays for each of its steps. -/
theorem rank_of_step (h : s.Invariant) (hclosed : s.Closed)
    (hcalls : action ≠ .shutdown ∧ action ≠ .destroy) (hstep : Step s action next) :
    next.rank + (if !action.enqueues then 1 else 0) ≤ s.rank := by
  obtain ⟨hclosing, hpast⟩ := hclosed
  cases hstep with
  | create hconstructing | createFailed hconstructing | constructed hconstructing =>
      have hphase := h.phase
      rw [hconstructing] at hphase
      cases hphase.1.symm.trans hclosing
  | accepted _ hopen => cases hopen.symm.trans hclosing
  | refused | enqueueThrew => simp [Action.enqueues]
  | shutdown => exact absurd rfl hcalls.1
  | destroy => exact absurd rfl hcalls.2
  | @callback cause hcallback => exact absurd hcallback (hpast cause).1
  | @close cause hclose => exact absurd hclose (hpast cause).2
  | notify hnotify =>
      have hthreads := rank_notified s.threads
      simp only [rank, hnotify, Owner.rank, Action.enqueues, List.length_map, Bool.not_false,
        if_true]
      omega
  | @joined cause thread hjoin hexited =>
      obtain ⟨hlength, -⟩ := List.getElem?_eq_some_iff.mp hexited
      simp only [rank, hjoin, Owner.rank, Action.enqueues, Bool.not_false, if_true]
      omega
  | @returned cause hjoin =>
      have hafter : Owner.rank s.threads.length cause.after = 0 := by cases cause <;> rfl
      simp only [rank, hjoin, hafter, Action.enqueues, Bool.not_false, if_true]
      simp only [Owner.rank]
      omega
  | worker hworker =>
      simp only [Action.enqueues, Bool.not_false, if_true]
      cases hworker with
      | take _ hopen | sleep _ hopen => cases hopen.symm.trans hclosing
      | exit hpc => exact rank_set hpc (by simp [Worker.rank])
      | wake hpc => exact rank_set hpc (by simp [Worker.rank])
      | finish hpc => exact rank_set hpc (by simp [Worker.rank])

omit [DecidableEq Task] in
theorem Closed.step (hclosed : s.Closed) (h : s.Invariant)
    (hcalls : action ≠ .shutdown ∧ action ≠ .destroy) (hstep : Step s action next) :
    next.Closed := by
  refine ⟨(quiet_of_step hclosed.1 hstep).1, ?_⟩
  cases hstep with
  | createFailed howner =>
      have hphase := h.phase
      rw [howner] at hphase
      cases hphase.1.symm.trans hclosed.1
  | @callback cause howner => exact absurd howner (hclosed.2 cause).1
  | close | notify | joined | constructed => simp
  | @returned cause => cases cause <;> simp [Cause.after]
  | shutdown => exact absurd rfl hcalls.1
  | destroy => exact absurd rfl hcalls.2
  | worker hworker => cases hworker <;> exact hclosed.2
  | _ => exact hclosed.2

/-- What a pool promises about its next steps. While it is open, a waiting task has a
thread that can take it, unless every thread is busy with another task. A call of
`shutdown()` always goes on, unless it joins a thread whose task is still running; and
once the pool is closed, there are few steps left, whatever the schedule. -/
structure Live (s : NetworkPool Task) : Prop where
  awake : s.closing = false → s.threads.countP Worker.isAsleep = 0 ∨
    s.queue.length ≤ s.threads.countP Worker.isLooking
  served : s.closing = false → s.queue ≠ [] →
    (∃ w task, (s.step (.worker w (.take task))).isSome = true) ∨
      ∀ worker ∈ s.threads, ∃ task, worker = .running task
  moving : s.ShuttingDown → (∃ action, action.closes = true ∧ (s.step action).isSome = true) ∨
    ∃ cause w task, s.owner = .join cause w ∧ s.threads[w]? = some (.running task)
  bounded : s.Closed → ∀ actions final, (∀ action ∈ actions, action ≠ .shutdown ∧ action ≠ .destroy) →
    Machine.run step s actions = some final →
      actions.countP (fun action => !action.enqueues) ≤ 3 * s.threads.length + 2

theorem Invariant.served (h : s.Invariant) (hopen : s.closing = false) (hqueue : s.queue ≠ []) :
    (∃ w task, (s.step (.worker w (.take task))).isSome = true) ∨
      ∀ worker ∈ s.threads, ∃ task, worker = .running task := by
  obtain ⟨task, rest, hfront⟩ := List.exists_cons_of_ne_nil hqueue
  by_cases hlooking : ∃ worker ∈ s.threads, worker.isLooking = true
  · obtain ⟨worker, hmem, hworker⟩ := hlooking
    obtain ⟨w, hw⟩ := List.getElem?_of_mem hmem
    cases worker with
    | looking =>
        exact .inl ⟨w, task, by simp [NetworkPool.step, workerStep, hw, hopen, hfront]⟩
    | _ => cases hworker
  · -- Nobody looks, so nobody may sleep beside the waiting task.
    right
    have hnone : s.threads.countP Worker.isLooking = 0 :=
      List.countP_eq_zero.mpr fun worker hmem htrue => hlooking ⟨worker, hmem, htrue⟩
    have hasleep : s.threads.countP Worker.isAsleep = 0 := by
      rcases h.wakeful hopen with hzero | hlength
      · exact hzero
      · rw [hnone, hfront] at hlength
        cases hlength
    intro worker hmem
    cases hworker : worker with
    | running task => exact ⟨task, rfl⟩
    | looking => exact absurd ⟨worker, hmem, by rw [hworker]; rfl⟩ hlooking
    | asleep => exact absurd (by rw [hworker]; rfl) (List.countP_eq_zero.mp hasleep worker hmem)
    | exited => exact absurd hworker (h.alive hopen worker hmem)

theorem Invariant.moving (h : s.Invariant) (hdown : s.ShuttingDown) :
    (∃ action, action.closes = true ∧ (s.step action).isSome = true) ∨
      ∃ cause w task, s.owner = .join cause w ∧ s.threads[w]? = some (.running task) := by
  have hphase := h.phase
  cases howner : s.owner with
  | constructing | opened | threw | destroyed =>
      rw [ShuttingDown, howner] at hdown
      exact hdown.elim
  | callback cause => exact .inl ⟨.callback, rfl, by simp [NetworkPool.step, howner]⟩
  | close cause => exact .inl ⟨.close s.queue, rfl, by simp [NetworkPool.step, howner]⟩
  | notify cause => exact .inl ⟨.notify, rfl, by simp [NetworkPool.step, howner]⟩
  | join cause thread =>
      rw [howner] at hphase
      obtain ⟨hclosing, hlength, -, hawake⟩ := hphase
      cases hthread : s.threads[thread]? with
      | none =>
          have hall : thread = s.threads.length :=
            Nat.le_antisymm hlength (List.getElem?_eq_none_iff.mp hthread)
          exact .inl ⟨.returned, rfl, by simp [NetworkPool.step, howner, hall]⟩
      | some worker =>
          cases worker with
          | running task => exact .inr ⟨cause, thread, task, rfl, hthread⟩
          | looking =>
              exact .inl ⟨.worker thread .exit, rfl,
                by simp [NetworkPool.step, workerStep, hthread, hclosing]⟩
          | asleep => exact absurd rfl (hawake _ (List.mem_of_getElem? hthread))
          | exited => exact .inl ⟨.joined, rfl, by simp [NetworkPool.step, howner, hthread]⟩

/-- No wake-up is lost, and shutting down ends when the running tasks do, in every
interleaving of enqueuing threads, pool threads and the owner of the pool. -/
theorem pool_live (width cap : Nat) (actions : List (Action Task)) (s : NetworkPool Task)
    (hrun : Machine.run step (construct width cap) actions = some s) : Live s := by
  have h := invariant_of_run (invariant_construct width cap) hrun
  refine ⟨h.wakeful, h.served, h.moving, fun hclosed actions final hcalls hlater => ?_⟩
  have hpays : ∀ (t : NetworkPool Task) action next, (Invariant t ∧ t.Closed) →
      (action ≠ Action.shutdown ∧ action ≠ .destroy) → t.step action = some next →
      (next.Invariant ∧ next.Closed) ∧
        next.rank + (if !action.enqueues then 1 else 0) ≤ t.rank := by
    intro t action next ht hcall hstep
    have hcases := step_cases hstep
    exact ⟨⟨ht.1.step hcases, ht.2.step ht.1 hcall hcases⟩, rank_of_step ht.1 ht.2 hcall hcases⟩
  have hrank := (Machine.run_countP_le_rank hpays ⟨h, hclosed⟩ hcalls hlater).2
  have hbound := rank_le s
  omega

/-- Two threads, three tasks, and a pool that closes before the last of them. -/
def closingRun : List (Action Nat) :=
  [.create, .create, .constructed, .worker 0 .sleep, .worker 1 .sleep,
    .enqueue 7 .accepted (some 0), .worker 0 (.take 7), .enqueue 8 .accepted (some 1),
    .enqueue 9 .accepted none, .worker 1 (.take 8), .shutdown, .callback, .close [9],
    .enqueue 10 .refused none]

/-- The rest of the shutdown. -/
def joiningRun : List (Action Nat) :=
  [.worker 0 (.finish 7 true), .notify, .worker 0 .exit, .joined, .worker 1 (.finish 8 false),
    .worker 1 .exit, .joined, .returned]

theorem pool_accounts_joiningRun :
    ∃ s, Machine.run step (construct 2 3) (closingRun ++ joiningRun) = some s ∧ s.Returned ∧
      Accounts 2 3 (closingRun ++ joiningRun) s := by
  have hrun : Machine.run step (construct 2 3) (closingRun ++ joiningRun) =
      some ⟨2, 3, true, [], [.exited, .exited], .opened⟩ := by decide
  exact ⟨_, hrun, ⟨rfl, .inl rfl⟩, pool_accounts 2 3 _ _ hrun⟩

theorem pool_live_closingRun :
    ∃ s, Machine.run step (construct 2 3) closingRun = some s ∧ s.Closed ∧ Live s := by
  have hrun : Machine.run step (construct 2 3) closingRun =
      some ⟨2, 3, true, [], [.running 7, .running 8], .notify .user⟩ := by decide
  exact ⟨_, hrun, ⟨rfl, fun cause => by simp⟩, pool_live 2 3 _ _ hrun⟩

end NetworkPool

end RttHttp.Network
