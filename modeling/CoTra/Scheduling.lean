import CoTra.Token

/-! The queues of one thread: a query in its post stage is queued once, a paused one is
not and has nothing left to do; it is handed to the caller once, on its origin. One hole:
a query that is started late may find work that a SYNC brought before, and no candidate,
and pauses with it. -/
namespace CoTra.Scheduling
open Runs Priority SubQuery Spread SubQueryTotals SubQueryDrain SubQueryEffects Roster CountedWork Token

variable {n : Nat} {D : Type} [Distance D]

section Silence

def each : Weight n D :=
  ⟨fun _ _ => 1,fun _ _ => 1,fun _ _ => 1,fun _ _ => 1,fun _ _ => 1,fun _ _ => 1,fun _ _ => 1,fun _ _ => 1,
    fun _ _ => 1,fun _ _ => 1⟩

variable {x : Index n D} {cfg : Config n D} {me : Fin n} [Zero D]

/- Where nothing is, nothing happens before searchSub. -/
theorem silentEffect {m m' : Machine n D} (effect : Effect x cfg me m m') (quiet : ∀ w, total w me m = 0)
    (before : Untouched m.toQueryMsg) :
    (∀ w, total w me m' = 0) ∧ m'.localTask = m.localTask ∧ m'.localMicroTask = m.localMicroTask ∨
      me = cfg.originMachine ∧ m'.isNew = false := by
  have empty := quiet each
  have asleep := before.coro
  cases effect with
  | moves ok =>
    refine .inl ⟨fun w => (ok.same w).trans (quiet w),?_,?_⟩
    · rw [ok.query]
    · rw [ok.query]
  | swaps query emptied sched same =>
    refine .inl ⟨fun w => (same w).trans (quiet w),?_,?_⟩
    · rw [query]
    · rw [query]
  | waits msgs origin new idle outside forks query sched gain => exact .inr ⟨origin,by rw [query]; rfl⟩
  | opens msgs origin new idle inside forks query sched gain => exact .inr ⟨origin,by rw [query]; rfl⟩
  | merges f running query sched loss =>
    have one : total each me m' + 1 = total each me m := loss each
    omega
  | syncs msg running query sched loss =>
    have one : total each me m' + 1 = total each me m := loss each
    omega
  | nodeSyncs ms running query sched loss =>
    cases ms with
    | nil =>
      refine .inl ⟨fun w => ?_,?_,?_⟩
      · have kept := loss w
        rw [sumNil,quiet] at kept
        exact kept
      · rw [query]
        simp [nodeSynced]
      · rw [query]
        simp [nodeSynced]
    | cons msg rest =>
      have one : total each me m' + sumOf (each.nodeSync me) (msg :: rest) = total each me m := loss each
      have first : sumOf ((each : Weight n D).nodeSync me) (msg :: rest) = 1 + sumOf (each.nodeSync me) rest := sumCons _ _ _
      omega
  | wakes running query sched same =>
    have kept : ∀ q : QueryMsg n D, (woken q).localTask = q.localTask ∧ (woken q).localMicroTask = q.localMicroTask := by
      intro q
      unfold woken
      split <;> exact ⟨rfl,rfl⟩
    refine .inl ⟨fun w => (same w).trans (quiet w),?_,?_⟩
    · rw [query,(kept _).1]
    · rw [query,(kept _).2]
  | starts new queued query sched same =>
    rw [before.queue] at queued
    cases queued
  | returns old queued query sched same =>
    rw [before.queue] at queued
    cases queued
  | nodeTask t found other queued slice query sched change =>
    have one : 1 ≤ total each me m := queued each
    omega
  | task t found other queued slice query sched change =>
    have one : 1 ≤ total each me m := queued each
    omega
  | ownTask t own queued =>
    have one : 1 ≤ total each me m := queued each
    omega
  | chunk t found queued slice query sched change =>
    have one : 1 ≤ total each me m := queued each
    omega
  | nodeResult r running queued query sched change =>
    have one : 1 ≤ total each me m := queued each
    omega
  | resumes search suspended queued query sched changed idle loss => rw [suspended] at asleep; cases asleep
  | overruns finished queued query sched same => rw [finished] at asleep; cases asleep
  | rests top noneLeft waiting query sched same => rw [top] at asleep; cases asleep
  | idles top noneLeft notPost query sched same => rw [top] at asleep; cases asleep
  | expands micro large add step lb msgs sent top some' query sched plain posted gain routed => rw [top] at asleep; cases asleep
  | pauses leaves several without query sched same => rw [leaves.top] at asleep; cases asleep
  | passes leaves several holder going query sched gain => rw [leaves.top] at asleep; cases asleep
  | ends f cands ending query fewer sched fork gain => rw [ending.leaves.top] at asleep; cases asleep

end Silence

section Phases

/- Where a query stands on a machine. Between searchSub or procQuery and the first
suspension, and after a resume, its coroutine runs. -/
inductive Phase (q : QueryMsg n D) (h : Schedule) : Prop
  | early (coro : q.coro = .none ∨ q.coro = .waiting) (state : q.state ≠ .postStage ∧ q.state ≠ .pause)
      (nowhere : h.subqueryQueue = 0 ∧ h.nextSubqueryQueue = 0)
  | running (coro : q.coro = .top) (state : q.state = .postStage ∨ q.state = .ended)
      (nowhere : h.subqueryQueue = 0 ∧ h.nextSubqueryQueue = 0)
      (work : q.state = .postStage → q.localTask = [] ∧ q.localMicroTask = [] ∨ (nextGroup q).1 ≠ [])
  | queued (coro : q.coro = .yielded) (state : q.state = .postStage) (once : h.subqueryQueue + h.nextSubqueryQueue = 1)
  | paused (coro : q.coro = .yielded) (state : q.state = .pause)
      (nowhere : h.subqueryQueue = 0 ∧ h.nextSubqueryQueue = 0) (token : q.hasToken = false)
      (tasks : q.localTask = [] ∧ q.localMicroTask = []) (even : allResultRecved q = true)
  | leaving (coro : q.coro = .yielded ∨ q.coro = .finished) (state : q.state = .ended)
      (few : h.subqueryQueue + h.nextSubqueryQueue ≤ 1)
      (last : q.coro = .finished → h.subqueryQueue = 0 ∧ h.nextSubqueryQueue = 0)

variable {x : Index n D} {cfg : Config n D} {me : Fin n}

/- Messages find the query awake or wake it. -/
theorem wokenPhase {q : QueryMsg n D} (q' : QueryMsg n D) {h : Schedule} (phase : Phase q h) (running : q.coro ≠ .top)
    (coro : q'.coro = q.coro) (state : q'.state = q.state) : Phase (woken q') (wokenSchedule q h) := by
  unfold woken wokenSchedule
  rw [state]
  cases phase with
  | early coro' state' nowhere =>
    rw [if_neg state'.2,if_neg state'.2]
    refine .early ?_ ?_ nowhere
    · rw [coro]
      exact coro'
    · rw [state]
      exact state'
  | running coro' state' nowhere work => exact absurd coro' running
  | queued coro' state' once =>
    rw [state',if_neg QueryState.noConfusion,if_neg QueryState.noConfusion]
    exact .queued (coro.trans coro') (state.trans state') once
  | paused coro' state' nowhere token tasks even =>
    rw [if_pos state',if_pos state']
    refine .queued (coro.trans coro') rfl ?_
    simp only [nowhere]
  | leaving coro' state' few last =>
    rw [state',if_neg QueryState.noConfusion,if_neg QueryState.noConfusion]
    refine .leaving ?_ (state.trans state') few ?_
    · rw [coro]
      exact coro'
    · rw [coro]
      exact last

theorem nodeSyncedPhase {q : QueryMsg n D} {h : Schedule} (ms : List (NonCoreSyncMsg n)) (phase : Phase q h)
    (running : q.coro ≠ .top) : Phase (nodeSynced ms q) (if ms = [] then h else wokenSchedule q h) := by
  cases ms with
  | nil =>
    have same : nodeSynced [] q = q := by simp [nodeSynced]
    rw [same,if_pos rfl]
    exact phase
  | cons msg rest =>
    rw [if_neg (List.cons_ne_nil _ _)]
    have step := wokenPhase { q with
      localMicroTask := q.localMicroTask ++ (msg :: rest).flatMap NonCoreSyncMsg.coreMicroNgh
      localTask := q.localTask ++ (msg :: rest).flatMap (fun msg => msg.coreLargeNgh.map (fun e => ⟨e.2,e.1,true⟩)) }
      phase running rfl rfl
    unfold nodeSynced woken
    unfold woken at step
    rw [if_neg (List.cons_ne_nil _ _)]
    split
    · rename_i asleep
      rw [if_pos asleep] at step
      exact step
    · rename_i awake
      rw [if_neg awake] at step
      exact step

/- A coroutine that does not stand at a suspension is not queued. -/
theorem nowhereQueued {q : QueryMsg n D} {h : Schedule} (phase : Phase q h)
    (coro : q.coro ≠ .yielded) : h.subqueryQueue = 0 ∧ h.nextSubqueryQueue = 0 := by
  cases phase with
  | early coro' state nowhere => exact nowhere
  | running coro' state nowhere work => exact nowhere
  | queued coro' state once => exact absurd coro' coro
  | paused coro' state nowhere token tasks even => exact nowhere
  | leaving coro' state few last => exact last (coro'.resolve_left coro)

theorem runningPhase {q : QueryMsg n D} {h : Schedule} (phase : Phase q h) (top : q.coro = .top) :
    (q.state = .postStage ∨ q.state = .ended) ∧
      (q.state = .postStage → q.localTask = [] ∧ q.localMicroTask = [] ∨ (nextGroup q).1 ≠ []) := by
  cases phase with
  | early coro' state nowhere => rcases coro' with no | no <;> rw [top] at no <;> cases no
  | running coro' state nowhere work => exact ⟨state,work⟩
  | queued coro' state once => rw [top] at coro'; cases coro'
  | paused coro' state nowhere token tasks even => rw [top] at coro'; cases coro'
  | leaving coro' state few last => rcases coro' with no | no <;> rw [top] at no <;> cases no

variable [Zero D]

/- What the other machines and the caller promise about machine me. -/
structure Expects (me : Fin n) (m : Machine n D) : Prop where
  noOwn : ∀ t : ComputeTask n D, t.machineId = me → ¬∀ w, w.task me t ≤ total w me m
  asleep : m.isNew = true → m.coro = .none
  forks : ∀ f : QueryFork n D, (∀ w, w.query me f ≤ total w me m) → f.state = .ended ∨ f.state = .preStage ∧ m.coro = .none

theorem phaseStep {m m' : Machine n D} (effect : Effect x cfg me m m') (expects : Expects me m)
    (clean : me = cfg.originMachine → m.isNew = true → m.localTask = [] ∧ m.localMicroTask = [])
    (ready : m.isNew = true → 0 < m.queryQueue → m'.coro = .top →
      m.localTask = [] ∧ m.localMicroTask = [] ∨ (nextGroup m.toQueryMsg).1 ≠ [])
    (phase : Phase m.toQueryMsg m.toSchedule) : Phase m'.toQueryMsg m'.toSchedule := by
  have started : m.coro = .none → m.subqueryQueue = 0 ∧ m.nextSubqueryQueue = 0 :=
    fun none' => nowhereQueued phase (by rw [none']; exact Coro.noConfusion)
  have current : m.coro = .top → m.subqueryQueue = 0 ∧ m.nextSubqueryQueue = 0 :=
    fun top => nowhereQueued phase (by rw [top]; exact Coro.noConfusion)
  cases effect with
  | moves ok =>
    rw [ok.query,ok.sched]
    exact phase
  | swaps query emptied sched same =>
    rw [query,sched]
    cases phase with
    | early coro state nowhere => exact .early coro state ⟨nowhere.2,rfl⟩
    | running coro state nowhere work => exact .running coro state ⟨nowhere.2,rfl⟩ work
    | queued coro state once => exact .queued coro state (by rw [emptied] at once; simpa using once)
    | paused coro state nowhere token tasks even => exact .paused coro state ⟨nowhere.2,rfl⟩ token tasks even
    | leaving coro state few last =>
      exact .leaving coro state (by rw [emptied] at few; simpa using few) (fun done' => ⟨(last done').2,rfl⟩)
  | waits msgs origin new idle outside forks query sched gain =>
    rw [query,sched]
    exact .early (.inr rfl) ⟨QueryState.noConfusion,QueryState.noConfusion⟩ (started idle)
  | opens msgs origin new idle inside forks query sched gain =>
    rw [query,sched]
    exact .running rfl (.inl rfl) (started idle) (fun _ => .inl (clean origin new))
  | merges f running query sched loss =>
    rw [query,sched]
    rcases expects.forks f (fun w => (Nat.le_add_left _ _).trans (loss w).le) with ended | ⟨forked,none'⟩
    · cases phase with
      | early coro state nowhere =>
        refine .early coro ?_ nowhere
        rw [merged,ended]
        exact ⟨QueryState.noConfusion,QueryState.noConfusion⟩
      | running coro state nowhere work => exact absurd coro running
      | queued coro state once =>
        refine .leaving (.inl coro) ended once.le (fun no => ?_)
        rw [merged,coro] at no
        cases no
      | paused coro state nowhere token tasks even =>
        exact .leaving (.inl coro) ended (by rw [nowhere.1,nowhere.2]; exact Nat.zero_le _) (fun _ => nowhere)
      | leaving coro state few last => exact .leaving coro ended few last
    · refine .early (.inl none') ?_ (started none')
      rw [merged,forked]
      exact ⟨QueryState.noConfusion,QueryState.noConfusion⟩
  | syncs msg running query sched loss =>
    rw [query,sched]
    exact wokenPhase _ phase running rfl rfl
  | nodeSyncs ms running query sched loss =>
    rw [query,sched]
    exact nodeSyncedPhase ms phase running
  | wakes running query sched same =>
    rw [query,sched]
    exact wokenPhase _ phase running rfl rfl
  | starts new queued query sched same =>
    have top : m'.coro = .top := by rw [query]; rfl
    rw [query,sched]
    exact .running rfl (.inl rfl) (started (expects.asleep new)) (fun _ => ready new queued top)
  | returns old queued query sched same =>
    rw [query,sched]
    cases phase with
    | early coro state nowhere => exact .early coro state nowhere
    | running coro state nowhere work => exact .running coro state nowhere work
    | queued coro state once => exact .queued coro state once
    | paused coro state nowhere token tasks even => exact .paused coro state nowhere token tasks even
    | leaving coro state few last => exact .leaving coro state few last
  | nodeTask t found other queued slice query sched change =>
    rw [query,sched]
    exact phase
  | task t found other queued slice query sched change =>
    rw [query,sched]
    exact phase
  | ownTask t own queued => exact absurd queued (expects.noOwn t own)
  | chunk t found queued slice query sched change =>
    rw [query,sched]
    exact phase
  | nodeResult r running queued query sched change =>
    rw [query,sched]
    exact wokenPhase _ phase running rfl rfl
  | resumes search suspended queued query sched changed idle loss =>
    rw [query,sched]
    cases phase with
    | early coro state nowhere => rcases coro with no | no <;> rw [suspended] at no <;> cases no
    | running coro state nowhere work => rw [suspended] at coro; cases coro
    | queued coro state once =>
      refine .running rfl (.inl state) ⟨?_,?_⟩ (fun _ => .inl ⟨rfl,rfl⟩)
      · dsimp only
        omega
      · dsimp only
        omega
    | paused coro state nowhere token tasks even =>
      rw [nowhere.1] at queued
      cases queued
    | leaving coro state few last =>
      refine .running rfl (.inr state) ⟨?_,?_⟩ (fun _ => .inl ⟨rfl,rfl⟩)
      · dsimp only
        omega
      · dsimp only
        omega
  | overruns finished queued query sched same =>
    have none' := (nowhereQueued phase (by rw [finished]; exact Coro.noConfusion)).1
    rw [none'] at queued
    cases queued
  | rests top noneLeft waiting query sched same =>
    rw [query,sched]
    obtain ⟨sub,next⟩ := current top
    rcases (runningPhase phase top).1 with post | ended
    · refine .queued rfl post ?_
      simp only [sub,next]
    · refine .leaving (.inl rfl) ended ?_ (fun no => by cases no)
      simp only [sub,next]
      exact le_rfl
  | idles top noneLeft notPost query sched same =>
    rw [query,sched]
    have ended := (runningPhase phase top).1.resolve_left notPost
    obtain ⟨sub,next⟩ := current top
    exact .leaving (.inl rfl) ended (by rw [sub,next]; exact Nat.zero_le _) (fun no => by cases no)
  | expands micro large add step lb msgs sent top some' query sched plain posted gain routed =>
    rw [query,sched]
    obtain ⟨sub,next⟩ := current top
    rcases (runningPhase phase top).1 with post | ended
    · refine .queued rfl post ?_
      simp only [post,if_true,sub,next]
    · refine .leaving (.inl rfl) ended ?_ (fun no => by cases no)
      simp only [ended,sub,next]
      exact Nat.zero_le _
  | pauses leaves several without query sched same =>
    rw [query,sched]
    have tasks := ((runningPhase phase leaves.top).2 leaves.post).resolve_right (fun some' => some' leaves.noneLeft)
    exact .paused rfl rfl (current leaves.top) without tasks leaves.allRecved
  | passes leaves several holder going query sched gain =>
    rw [query,sched]
    have tasks := ((runningPhase phase leaves.top).2 leaves.post).resolve_right (fun some' => some' leaves.noneLeft)
    exact .paused rfl rfl (current leaves.top) rfl tasks leaves.allRecved
  | ends f cands ending query fewer sched fork gain =>
    have nowhere := current ending.leaves.top
    have kept : m'.subqueryQueue = 0 ∧ m'.nextSubqueryQueue = 0 := by
      rw [sched]
      split <;> exact nowhere
    rw [query]
    exact .leaving (.inr rfl) rfl (by rw [kept.1,kept.2]; exact Nat.zero_le _) (fun _ => kept)

end Phases

section Returns

variable (cfg : Config n D) (me : Fin n)

/- What a step does to the things that hand the query to the caller. -/
inductive ReturnStep (m m' : Machine n D) : Prop
  | keeps (ret : m'.ret = m.ret ∧ m'.curQueryNum = m.curQueryNum) (new : m'.isNew = m.isNew)
      (queue : m'.queryQueue = m.queryQueue) (coro : m'.coro = .finished ↔ m.coro = .finished)
      (totals : ∀ f, total (queryWeight f) me m' = total (queryWeight f) me m)
  | opens (origin : me = cfg.originMachine) (new : m.isNew = true) (old : m'.isNew = false)
      (ret : m'.ret = m.ret ∧ m'.curQueryNum = m.curQueryNum + 1) (queue : m'.queryQueue = m.queryQueue)
      (coro : m'.coro ≠ .finished)
      (totals : total (queryWeight (queryTo me)) me m' = total (queryWeight (queryTo me)) me m)
  | merges (g : QueryFork n D) (ret : m'.ret = m.ret ∧ m'.curQueryNum = m.curQueryNum) (new : m'.isNew = m.isNew)
      (queue : m'.queryQueue = m.queryQueue + 1) (coro : m'.coro = m.coro)
      (totals : ∀ f, total (queryWeight f) me m' + f me g = total (queryWeight f) me m)
  | starts (new : m.isNew = true) (queued : 0 < m.queryQueue)
      (ret : m'.ret = m.ret ∧ m'.curQueryNum = m.curQueryNum) (coro : m'.coro ≠ .finished)
      (totals : ∀ f, total (queryWeight f) me m' = total (queryWeight f) me m)
  | returns (old : m.isNew = false) (queued : 0 < m.queryQueue)
      (ret : m'.ret = m.ret + 1 ∧ m'.curQueryNum = m.curQueryNum - 1) (new : m'.isNew = m.isNew)
      (queue : m'.queryQueue = m.queryQueue - 1) (coro : m'.coro = m.coro)
      (totals : ∀ f, total (queryWeight f) me m' = total (queryWeight f) me m)
  | ends (g : QueryFork n D) (ending : Ends me m.toQueryMsg)
      (ret : m'.ret = m.ret ∧ m'.curQueryNum = m.curQueryNum ∨ ¬(m.leaderMachine = me ∧ me ≠ cfg.originMachine) ∧
        m'.ret = m.ret + 1 ∧ m'.curQueryNum = m.curQueryNum - 1)
      (new : m'.isNew = m.isNew) (queue : m'.queryQueue = m.queryQueue) (coro : m'.coro = .finished)
      (totals : ∀ f, total (queryWeight f) me m' = total (queryWeight f) me m +
        if m.leaderMachine = me ∧ me ≠ cfg.originMachine then f cfg.originMachine g else 0)

variable {cfg me} {x : Index n D} [Zero D]

theorem returnStep {m m' : Machine n D} (effect : Effect x cfg me m m') (phase : Phase m.toQueryMsg m.toSchedule)
    (noOwn : ∀ t : ComputeTask n D, t.machineId = me → ¬∀ w, w.task me t ≤ total w me m) : ReturnStep cfg me m m' := by
  have wokenRet : ∀ (q : QueryMsg n D) (h : Schedule), (wokenSchedule q h).ret = h.ret ∧
      (wokenSchedule q h).curQueryNum = h.curQueryNum := by
    intro q h
    unfold wokenSchedule
    split <;> exact ⟨rfl,rfl⟩
  have wokenQuery : ∀ q : QueryMsg n D, (woken q).isNew = q.isNew ∧ (woken q).queryQueue = q.queryQueue ∧
      (woken q).coro = q.coro := by
    intro q
    unfold woken
    split <;> exact ⟨rfl,rfl,rfl⟩
  have away : ∀ msgs : List (Fin n × QueryFork n D), Forks x cfg me msgs →
      sumOf (fun e => queryTo me e.1 e.2) msgs = 0 := by
    intro msgs forks
    refine queryToNone (fun e member => ?_)
    have place : e.1 ∈ cfg.coreMachine.filter (· ≠ me) := by
      rw [← forks.1]
      exact List.mem_map_of_mem member
    exact of_decide_eq_true (List.mem_filter.mp place).2
  have still : m.coro ≠ .finished → m'.coro ≠ .finished → (m'.coro = .finished ↔ m.coro = .finished) :=
    fun before after => ⟨fun no => absurd no after,fun no => absurd no before⟩
  have going : m.coro = .top → m'.coro = .yielded → (m'.coro = .finished ↔ m.coro = .finished) :=
    fun top after => still (by rw [top]; exact Coro.noConfusion) (by rw [after]; exact Coro.noConfusion)
  cases effect with
  | moves ok =>
    exact .keeps (by rw [ok.sched]; exact ⟨rfl,rfl⟩) (by rw [ok.query]) (by rw [ok.query]) (by rw [ok.query]) (fun f => ok.same _)
  | swaps query emptied sched same =>
    exact .keeps (by rw [sched]; exact ⟨rfl,rfl⟩) (by rw [query]) (by rw [query]) (by rw [query]) (fun f => same _)
  | waits msgs origin new idle outside forks query sched gain =>
    refine .opens origin new (by rw [query]; rfl) (by rw [sched]; exact ⟨rfl,rfl⟩) (by rw [query]; rfl)
      (by rw [query]; exact Coro.noConfusion) ?_
    rw [gain]
    exact congrArg _ (away msgs forks)
  | opens msgs origin new idle inside forks query sched gain =>
    refine .opens origin new (by rw [query]; rfl) (by rw [sched]; exact ⟨rfl,rfl⟩) (by rw [query]; rfl)
      (by rw [query]; exact Coro.noConfusion) ?_
    rw [gain]
    exact congrArg _ (away msgs forks)
  | merges f running query sched loss =>
    exact .merges f (by rw [sched]; exact ⟨rfl,rfl⟩) (by rw [query]; rfl) (by rw [query]; rfl) (by rw [query]; rfl)
      (fun g => loss (queryWeight g))
  | syncs msg running query sched loss =>
    obtain ⟨new,queue,coro⟩ := wokenQuery (updateSubQuery cfg me msg m.toQueryMsg)
    exact .keeps (by rw [sched]; exact wokenRet _ _) (by rw [query,new]; rfl) (by rw [query,queue]; rfl)
      (by rw [query,coro]; rfl) (fun f => loss (queryWeight f))
  | nodeSyncs ms running query sched loss =>
    obtain ⟨same,coro⟩ := nodeSyncedRoster ms m.toQueryMsg
    simp only [roster,Prod.mk.injEq] at same
    refine .keeps ?_ (by rw [query,same.1]) (by rw [query,same.2.1]) (by rw [query,coro]) (fun f => ?_)
    · rw [sched]
      split
      · exact ⟨rfl,rfl⟩
      · exact wokenRet _ _
    · have change := loss (queryWeight f)
      rwa [show sumOf ((queryWeight f).nodeSync me) ms = 0 from sumNone (fun _ _ => rfl),Nat.add_zero] at change
  | wakes running query sched same =>
    obtain ⟨new,queue,coro⟩ := wokenQuery m.toQueryMsg
    exact .keeps (by rw [sched]; exact wokenRet _ _) (by rw [query,new]) (by rw [query,queue]) (by rw [query,coro])
      (fun f => same _)
  | starts new queued query sched same =>
    exact .starts new queued (by rw [sched]; exact ⟨rfl,rfl⟩) (by rw [query]; exact Coro.noConfusion) (fun f => same _)
  | returns old queued query sched same =>
    exact .returns old queued (by rw [sched]; exact ⟨rfl,rfl⟩) (by rw [query]) (by rw [query]) (by rw [query]) (fun f => same _)
  | nodeTask t found other queued slice query sched change =>
    refine .keeps (by rw [sched]; exact ⟨rfl,rfl⟩) (by rw [query]) (by rw [query]) (by rw [query]) (fun f => ?_)
    have changed := change (queryWeight f)
    rwa [nodeNone] at changed
  | task t found other queued slice query sched change =>
    exact .keeps (by rw [sched]; exact ⟨rfl,rfl⟩) (by rw [query]) (by rw [query]) (by rw [query])
      (fun f => change (queryWeight f))
  | ownTask t own queued => exact absurd queued (noOwn t own)
  | chunk t found queued slice query sched change =>
    exact .keeps (by rw [sched]; exact ⟨rfl,rfl⟩) (by rw [query]) (by rw [query]) (by rw [query])
      (fun f => change (queryWeight f))
  | nodeResult r running queued query sched change =>
    obtain ⟨new,queue,coro⟩ := wokenQuery { m.toQueryMsg with nocorePost := m.nocorePost + r.postCnt }
    exact .keeps (by rw [sched]; exact wokenRet _ _) (by rw [query,new]) (by rw [query,queue]) (by rw [query,coro])
      (fun f => change (queryWeight f))
  | resumes search suspended queued query sched changed idle loss =>
    refine .keeps (by rw [sched]; exact ⟨rfl,rfl⟩) (by rw [query]) (by rw [query]) (still ?_ ?_) (fun f => ?_)
    · rw [suspended]
      exact Coro.noConfusion
    · rw [query]
      exact Coro.noConfusion
    · have change := loss (queryWeight f)
      rwa [consumedNone,Nat.add_zero] at change
  | overruns finished queued query sched same =>
    have none' := (nowhereQueued phase (by rw [finished]; exact Coro.noConfusion)).1
    rw [none'] at queued
    cases queued
  | rests top noneLeft waiting query sched same =>
    exact .keeps (by rw [sched]; exact ⟨rfl,rfl⟩) (by rw [query]) (by rw [query]) (going top (by rw [query]))
      (fun f => same _)
  | idles top noneLeft notPost query sched same =>
    exact .keeps (by rw [sched]; exact ⟨rfl,rfl⟩) (by rw [query]) (by rw [query]) (going top (by rw [query]))
      (fun f => same _)
  | expands micro large add step lb msgs sent top some' query sched plain posted gain routed =>
    refine .keeps (by rw [sched]; exact ⟨rfl,rfl⟩) (by rw [query]) (by rw [query]) (going top (by rw [query]))
      (fun f => ?_)
    have change := gain (queryWeight f)
    rwa [expandNone,show sumOf (fun e => (queryWeight f).sync e.1 (syncMsg sent e.2 false)) msgs = 0 from
      sumNone (fun _ _ => rfl)] at change
  | pauses leaves several without query sched same =>
    exact .keeps (by rw [sched]; exact ⟨rfl,rfl⟩) (by rw [query]) (by rw [query]) (going leaves.top (by rw [query]))
      (fun f => same _)
  | passes leaves several holder on' query sched gain =>
    refine .keeps (by rw [sched]; exact ⟨rfl,rfl⟩) (by rw [query]; rfl) (by rw [query]; rfl)
      (going leaves.top (by rw [query]; rfl)) (fun f => ?_)
    have change := gain (queryWeight f)
    rwa [show sumOf (fun e => (queryWeight f).sync e.1 (syncMsg m.toQueryMsg e.2 (taintOf me m.toQueryMsg)))
      (SubQueryTotals.syncs me (nxtPropM me m.coreMachine) true true m.coreMachine) = 0 from
      sumNone (fun _ _ => rfl)] at change
  | ends f cands ending query fewer sched fork gain =>
    refine .ends f ending ?_ (by rw [query]) (by rw [query]) (by rw [query]) (fun g => gain (queryWeight g))
    rw [sched]
    split
    · exact .inl ⟨rfl,rfl⟩
    · rename_i neither
      exact .inr ⟨fun migrates => neither (.inl migrates),rfl,rfl⟩

end Returns

section Invariant

variable (x : Index n D) (cfg : Config n D)

structure Scheduled (s : Net n D) : Prop where
  counted : Counted x cfg s
  silent : (s cfg.originMachine).isNew = true →
    (∀ w, totalAll w s = 0) ∧ ∀ p, (s p).localTask = [] ∧ (s p).localMicroTask = []
  phase : ∀ p, Phase (s p).toQueryMsg (s p).toSchedule
  wide : live (s cfg.originMachine).coro = true → cfg.coreMachine.length ≤ (s cfg.originMachine).coreMachine.length
  others : ∀ p, p ≠ cfg.originMachine → (s p).ret = 0 ∧ (s p).curQueryNum = 0
  num : (s cfg.originMachine).curQueryNum + (s cfg.originMachine).ret = if (s cfg.originMachine).isNew then 0 else 1
  once : (s cfg.originMachine).ret + (s cfg.originMachine).queryQueue + coming s cfg.originMachine ≤
    if (s cfg.leaderMachine).coro = .finished then 1 else 0

theorem startScheduled : Scheduled x cfg (start cfg) where
  counted := startCounted x cfg
  silent _ := ⟨startTotal cfg,fun _ => ⟨rfl,rfl⟩⟩
  phase _ := .early (.inl rfl) ⟨QueryState.noConfusion,QueryState.noConfusion⟩ ⟨rfl,rfl⟩
  wide no := by cases no
  others _ _ := ⟨rfl,rfl⟩
  num := rfl
  once := by
    rw [coming,startTotal]
    exact Nat.zero_le _

variable {x cfg} {s t : Net n D}

/- Only the leader ends. -/
theorem endsLeader (ok : Scheduled x cfg s) {a : Fin n} (ending : Ends a (s a).toQueryMsg) : cfg.leaderMachine = a := by
  have alive : live (s a).coro = true := by
    rw [ending.leaves.top]
    rfl
  obtain ⟨_,known,core⟩ := runningKnown ok.counted.rostered alive
  have wide : cfg.coreMachine.length ≤ (s a).coreMachine.length := by
    rcases eq_or_ne a cfg.originMachine with rfl | other
    · exact ok.wide alive
    · rw [core (.inl other)]
  by_cases several : 1 < cfg.coreMachine.length
  · rw [← known.leader]
    exact (ending.second (several.trans_le wide)).2.1
  · exact onlyCore several cfg.leaderCore known.inside

theorem expectations (ok : Scheduled x cfg s) (a : Fin n) : Expects a (s a) where
  noOwn := noOwnTask ok.counted a
  asleep new := newAsleep ok.counted.rostered new
  forks f queued := by
    have right := queued (queryWeight (wrongQuery x cfg))
    rw [wrongTotal ok.counted.rostered.right a] at right
    have correct : wrongQuery x cfg a f = 0 := Nat.le_zero.mp right
    unfold wrongQuery at correct
    split at correct
    · split at correct
      · rename_i fits
        exact .inl fits.2.2
      · cases correct
    · rename_i other
      split at correct
      · rename_i fits
        obtain ⟨_,result,rfl⟩ := fits
        refine .inr ⟨rfl,?_⟩
        -- it is still to come, so the machine has nothing of the query
        have one : queryTo a a (forked x cfg a result) ≤ total (queryWeight (queryTo a)) a (s a) := queued (queryWeight (queryTo a))
        rw [queryTo,if_pos rfl] at one
        have some' : 1 ≤ coming s a := one.trans (Finset.single_le_sum
          (f := fun p => total (queryWeight (queryTo a)) p (s p)) (fun _ _ => Nat.zero_le _) (Finset.mem_univ a))
        cases ok.counted.rostered.others a other with
        | untouched h one => exact h.coro
        | received new coro queue known core all => omega
        | running old alive queue known core all => omega
      · cases correct

/- When procQuery starts the coroutine, the work that came before it finds a candidate. -/
def Ready (s : Net n D) (act : Act n) : Prop :=
  ∀ a, act = .host a .procQuery → (s a).isNew = true →
    (s a).localTask = [] ∧ (s a).localMicroTask = [] ∨ (nextGroup (s a).toQueryMsg).1 ≠ []

theorem hostWide (ok : Scheduled x cfg s) {a : Fin n} {m' : Machine n D} (step : RosterStep x cfg a (s a) m')
    (alive : live (Function.update s a m' cfg.originMachine).coro = true) :
    cfg.coreMachine.length ≤ (Function.update s a m' cfg.originMachine).coreMachine.length := by
  rcases eq_or_ne cfg.originMachine a with rfl | away
  · rw [Function.update_self] at alive ⊢
    cases step with
    | keeps same coro totals =>
      simp only [roster,Prod.mk.injEq] at same
      rw [same.2.2.1]
      refine ok.wide ?_
      rcases coro with kept | moved
      · rw [← kept]
        exact alive
      · exact moved.1
    | opens msgs origin new idle forks after coro totals =>
      simp only [roster,Prod.mk.injEq] at after
      rw [after.2.2.1]
    | merges g coro after totals =>
      simp only [roster,Prod.mk.injEq] at after
      rw [after.2.2.1,List.length_append]
      exact (ok.wide (by rw [← coro]; exact alive)).trans (Nat.le_add_right _ _)
    | starts new queued coro after totals =>
      have none' := (ok.counted.rostered.first new cfg.originMachine).1.queue
      omega
    | returns old queued coro after totals =>
      simp only [roster,Prod.mk.injEq] at after
      rw [after.2.2.1]
      exact ok.wide (by rw [← coro]; exact alive)
    | ends g running coro same fork totals =>
      simp only [roster,Prod.mk.injEq] at same
      rw [same.2.2.1]
      exact ok.wide (by rw [running]; rfl)
  · rw [Function.update_of_ne away] at alive ⊢
    exact ok.wide alive

/- Away from its origin the query is never handed out. -/
theorem hostOthers (ok : Scheduled x cfg s) {a : Fin n} {m' : Machine n D} (step : ReturnStep cfg a (s a) m')
    (p : Fin n) (other : p ≠ cfg.originMachine) :
    (Function.update s a m' p).ret = 0 ∧ (Function.update s a m' p).curQueryNum = 0 := by
  have before := ok.others p other
  rcases eq_or_ne p a with rfl | away
  · rw [Function.update_self]
    cases step with
    | keeps ret new queue coro totals =>
      rw [ret.1,ret.2]
      exact before
    | opens origin new old ret queue coro totals => exact absurd origin other
    | merges g ret new queue coro totals =>
      rw [ret.1,ret.2]
      exact before
    | starts new queued ret coro totals =>
      rw [ret.1,ret.2]
      exact before
    | returns old queued ret new queue coro totals =>
      cases ok.counted.rostered.others p other with
      | untouched h one =>
        rw [h.queue] at queued
        cases queued
      | received new' coro' queue' known core all =>
        rw [old] at new'
        cases new'
      | running old' alive queue' known core all =>
        rw [queue'] at queued
        cases queued
    | ends g ending ret new queue coro totals =>
      have leads : (s p).leaderMachine = p := by
        rw [(runningKnown ok.counted.rostered (p := p) (by rw [ending.leaves.top]; rfl)).2.1.leader]
        exact endsLeader ok ending
      rcases ret with kept | ⟨stays,_⟩
      · rw [kept.1,kept.2]
        exact before
      · exact absurd ⟨leads,other⟩ stays
  · rw [Function.update_of_ne away]
    exact before

/- What is counted of the query at its origin: started, and not handed out yet. -/
theorem hostNum (ok : Scheduled x cfg s) {a : Fin n} {m' : Machine n D} (step : ReturnStep cfg a (s a) m') :
    (Function.update s a m' cfg.originMachine).curQueryNum + (Function.update s a m' cfg.originMachine).ret =
      if (Function.update s a m' cfg.originMachine).isNew then 0 else 1 := by
  have before := ok.num
  rcases eq_or_ne cfg.originMachine a with rfl | away
  · rw [Function.update_self]
    cases step with
    | keeps ret new queue coro totals =>
      rw [ret.1,ret.2,new]
      exact before
    | opens origin new old ret queue coro totals =>
      rw [new] at before
      rw [ret.1,ret.2,old]
      simp only [if_true,Bool.false_eq_true,if_false] at before ⊢
      omega
    | merges g ret new queue coro totals =>
      rw [ret.1,ret.2,new]
      exact before
    | starts new queued ret coro totals =>
      have none' := (ok.counted.rostered.first new cfg.originMachine).1.queue
      omega
    | returns old queued ret new queue coro totals =>
      rw [ret.1,ret.2,new]
      omega
    | ends g ending ret new queue coro totals =>
      rw [new]
      rcases ret with kept | ⟨_,more,less⟩
      · rw [kept.1,kept.2]
        exact before
      · rw [more,less]
        omega
  · rw [Function.update_of_ne away]
    exact before

/- The query stands in one place of the way back to the caller, behind its end. -/
theorem hostOnce (ok : Scheduled x cfg s) {a : Fin n} {m' : Machine n D} (step : ReturnStep cfg a (s a) m')
    (stays : (s cfg.leaderMachine).coro = .finished → (Function.update s a m' cfg.leaderMachine).coro = .finished) :
    (Function.update s a m' cfg.originMachine).ret + (Function.update s a m' cfg.originMachine).queryQueue +
      coming (Function.update s a m') cfg.originMachine ≤
      if (Function.update s a m' cfg.leaderMachine).coro = .finished then 1 else 0 := by
  have before := ok.once
  have change := comingUpdate s a m' cfg.originMachine
  have bound : (if (s cfg.leaderMachine).coro = .finished then 1 else 0) ≤
      if (Function.update s a m' cfg.leaderMachine).coro = .finished then 1 else 0 := by
    split
    · rename_i finished
      rw [if_pos (stays finished)]
    · exact Nat.zero_le _
  have elsewhere : cfg.originMachine ≠ a → (Function.update s a m' cfg.originMachine).ret = (s cfg.originMachine).ret ∧
      (Function.update s a m' cfg.originMachine).queryQueue = (s cfg.originMachine).queryQueue := by
    intro away
    rw [Function.update_of_ne away]
    exact ⟨rfl,rfl⟩
  cases step with
  | keeps ret new queue coro totals =>
    rw [totals] at change
    rcases eq_or_ne cfg.originMachine a with rfl | away
    · rw [Function.update_self,ret.1,queue]
      omega
    · obtain ⟨ret',queue'⟩ := elsewhere away
      omega
  | opens origin new old ret queue coro totals =>
    subst origin
    rw [totals] at change
    rw [Function.update_self,ret.1,queue]
    omega
  | merges g ret new queue coro totals =>
    have taken := totals (queryTo cfg.originMachine)
    rcases eq_or_ne cfg.originMachine a with rfl | away
    · rw [queryTo,if_pos rfl] at taken
      rw [Function.update_self,ret.1,queue]
      omega
    · rw [queryTo,if_neg (Ne.symm away)] at taken
      obtain ⟨ret',queue'⟩ := elsewhere away
      omega
  | starts new queued ret coro totals =>
    rw [totals] at change
    have away : cfg.originMachine ≠ a := by
      rintro rfl
      have none' := (ok.counted.rostered.first new cfg.originMachine).1.queue
      omega
    obtain ⟨ret',queue'⟩ := elsewhere away
    omega
  | returns old queued ret new queue coro totals =>
    rw [totals] at change
    rcases eq_or_ne cfg.originMachine a with rfl | away
    · rw [Function.update_self,ret.1,queue]
      omega
    · obtain ⟨ret',queue'⟩ := elsewhere away
      omega
  | ends g ending ret new queue coro totals =>
    have leads := endsLeader ok ending
    subst leads
    rw [ending.leaves.top,if_neg Coro.noConfusion] at before
    rw [Function.update_self,coro,if_pos rfl]
    have gain := totals (queryTo cfg.originMachine)
    rcases eq_or_ne cfg.originMachine cfg.leaderMachine with home | away
    · rw [if_neg (fun migrates => migrates.2 home.symm)] at gain
      rw [home] at before ⊢
      rw [Function.update_self,queue]
      rw [home] at gain change
      rcases ret with kept | ⟨_,more,_⟩
      · omega
      · omega
    · obtain ⟨ret',queue'⟩ := elsewhere away
      split at gain
      · rw [queryTo,if_pos rfl] at gain
        omega
      · omega

variable [Zero D]

theorem hostPhase (ok : Scheduled x cfg s) {a : Fin n} {m' : Machine n D} {op : Op}
    (performed : perform x cfg a (s a) op = some m') (ready : Ready s (.host a op)) (p : Fin n) :
    Phase (Function.update s a m' p).toQueryMsg (Function.update s a m' p).toSchedule := by
  rcases eq_or_ne p a with rfl | away
  · rw [Function.update_self]
    refine phaseStep (performEffect performed) (expectations ok p) ?_ ?_ (ok.phase p)
    · intro home new
      subst home
      exact (ok.silent new).2 _
    · intro new queued running
      have asleep := newAsleep ok.counted.rostered new
      have other : p ≠ cfg.originMachine := by
        intro home
        subst home
        have none' := (ok.counted.rostered.first new cfg.originMachine).1.queue
        omega
      rcases startOp performed asleep other with rfl | still
      · exact ready p rfl new
      · rw [running] at still
        cases still
  · rw [Function.update_of_ne away]
    exact ok.phase p

theorem hostSilent (ok : Scheduled x cfg s) {a : Fin n} {m' : Machine n D} (effect : Effect x cfg a (s a) m')
    (new : (Function.update s a m' cfg.originMachine).isNew = true) (before : (s cfg.originMachine).isNew = true) :
    (∀ w, totalAll w (Function.update s a m') = 0) ∧
      ∀ p, (Function.update s a m' p).localTask = [] ∧ (Function.update s a m' p).localMicroTask = [] := by
  obtain ⟨quiet,empty⟩ := ok.silent before
  rcases silentEffect effect (fun w => totalAt (quiet w) a) (ok.counted.rostered.first before a).1 with
    ⟨totals,tasks,micro⟩ | ⟨home,old⟩
  · refine ⟨fun w => ?_,fun p => ?_⟩
    · refine hostZero (quiet w) ?_
      rw [totals]
      exact Nat.zero_le _
    · rcases eq_or_ne p a with rfl | away
      · rw [Function.update_self,tasks,micro]
        exact empty p
      · rw [Function.update_of_ne away]
        exact empty p
  · rw [← home,Function.update_self,old] at new
    cases new

theorem stepScheduled {act : Act n} (ready : Ready s act) (done' : step x cfg s act = some t)
    (ok : Scheduled x cfg s) : Scheduled x cfg t := by
  have counted := stepCounted done' ok.counted
  cases act with
  | host a op =>
    obtain ⟨m',performed,rfl⟩ := Option.map_eq_some_iff.mp done'
    have effect := performEffect performed
    have noOwn := noOwnTask ok.counted a
    have roster : RosterStep x cfg a (s a) m' := by
      rcases rosterStep effect with step | ⟨t,own,queued⟩
      · exact step
      · exact absurd queued (noOwn t own)
    have returns := returnStep effect (ok.phase a) noOwn
    refine ⟨counted,fun new => ?_,hostPhase ok performed ready,hostWide ok roster,hostOthers ok returns,
      hostNum ok returns,hostOnce ok returns (finishedStays ok.counted.rostered roster)⟩
    refine hostSilent ok effect new ?_
    rcases eq_or_ne cfg.originMachine a with rfl | away
    · rw [Function.update_self] at new
      cases returns with
      | keeps ret same queue coro totals => rw [← same,new]
      | opens origin before old ret queue coro totals => exact before
      | merges g ret same queue coro totals => rw [← same,new]
      | starts before queued ret coro totals => exact before
      | returns old queued ret same queue coro totals => rw [← same,new]
      | ends g ending ret same queue coro totals => rw [← same,new]
    · rwa [Function.update_of_ne away] at new
  | deliver a p =>
    have same := deliverSame done'
    have totals : ∀ w, totalAll w t = totalAll w s := fun w => deliverTotal w done'
    have field : ∀ b, (t b).toQueryMsg = (s b).toQueryMsg := fun b => (same b).1
    have sched : ∀ b, (t b).toSchedule = (s b).toSchedule := fun b => (same b).2
    refine ⟨counted,?_,?_,?_,?_,?_,?_⟩
    · intro new
      simp only [field,totals] at new ⊢
      exact ok.silent new
    · intro b
      rw [field,sched]
      exact ok.phase b
    · rw [field]
      exact ok.wide
    · intro b other
      rw [sched]
      exact ok.others b other
    · rw [field,sched]
      exact ok.num
    · rw [coming,totals,field,field,sched]
      exact ok.once

theorem runScheduled {acts : List (Act n)} (ready : Along (step x cfg) Ready (start cfg) acts)
    (ok : run (step x cfg) (start cfg) acts = some s) : Scheduled x cfg s := by
  refine runInvariantAlong (fun _ _ _ good done' before => ?_) ready ok (startScheduled x cfg)
  exact stepScheduled good done' before

end Invariant

section Results

variable {x : Index n D} {cfg : Config n D} {s : Net n D}

/- A paused query: nothing resumes it, and it has nothing to do. -/
structure Asleep (m : Machine n D) : Prop where
  nowhere : m.subqueryQueue = 0 ∧ m.nextSubqueryQueue = 0
  tasks : m.localTask = [] ∧ m.localMicroTask = []
  arrived : m.localRes = [] ∧ m.recvAsyncReadQueue = []
  token : m.hasToken = false

theorem pausedAsleep (ok : Scheduled x cfg s) {p : Fin n} (state : (s p).state = .pause) : Asleep (s p) := by
  cases ok.phase p with
  | early coro state' nowhere => exact absurd state state'.2
  | running coro state' nowhere work => rcases state' with no | no <;> rw [state] at no <;> cases no
  | queued coro state' once => rw [state] at state'; cases state'
  | leaving coro state' few last => rw [state] at state'; cases state'
  | paused coro state' nowhere token tasks even =>
    obtain ⟨core,nocore⟩ := of_decide_eq_true even
    have counted := ok.counted.core p
    have spawn := spawnedWhenEven ok.counted core
    have cores := (totalAbsent _).mp (totalAt (show outstanding p s = 0 by omega) p)
    have nocores := (totalAbsent _).mp (totalAt (show spawned p s = 0 by omega) p)
    refine ⟨nowhere,tasks,⟨?_,?_⟩,token⟩
    · refine List.eq_nil_iff_forall_not_mem.mpr (fun r member => ?_)
      exact countedOnce (cores.localRes r member) (nocores.localRes r member)
    · refine List.eq_nil_iff_forall_not_mem.mpr (fun r member => ?_)
      exact absurd ((if_pos rfl).symm.trans (cores.recvAsyncReadQueue r member)) Nat.one_ne_zero

variable [Zero D]

/- The queues between two calls of the scheduler; while the coroutine itself runs (top)
it has been taken out of them. -/
theorem queuedOnce {acts : List (Act n)} (ready : Along (step x cfg) Ready (start cfg) acts)
    (ok : run (step x cfg) (start cfg) acts = some s) :
    (∀ p, (s p).state = .postStage → (s p).coro ≠ .top → (s p).subqueryQueue + (s p).nextSubqueryQueue = 1) ∧
    (∀ p, (s p).state = .pause → Asleep (s p)) ∧
    (∀ p, (s p).ret ≤ if p = cfg.originMachine then 1 else 0) ∧
    ∀ p, (s p).curQueryNum + (s p).ret = if p = cfg.originMachine ∧ (s p).isNew = false then 1 else 0 := by
  have scheduled := runScheduled ready ok
  refine ⟨fun p state away => ?_,fun p state => pausedAsleep scheduled state,fun p => ?_,fun p => ?_⟩
  · cases scheduled.phase p with
    | early coro state' nowhere => exact absurd state state'.1
    | running coro state' nowhere work => exact absurd coro away
    | queued coro state' once => exact once
    | paused coro state' nowhere token tasks even => rw [state] at state'; cases state'
    | leaving coro state' few last => rw [state] at state'; cases state'
  · split
    · rename_i home
      subst home
      have once := scheduled.once
      split at once <;> omega
    · rename_i other
      rw [(scheduled.others p other).1]
  · split
    · rename_i started
      obtain ⟨rfl,old⟩ := started
      have num := scheduled.num
      rwa [old] at num
    · rename_i other
      rcases eq_or_ne p cfg.originMachine with rfl | away
      · have num := scheduled.num
        cases new : (s cfg.originMachine).isNew with
        | true => rwa [new] at num
        | false => exact absurd ⟨rfl,new⟩ other
      · rw [(scheduled.others p away).1,(scheduled.others p away).2]
        rfl

/- Only procQuery has to be ready. -/
theorem readyOtherwise {acts : List (Act n)} (free : ∀ a, .host a .procQuery ∉ acts) (s : Net n D) :
    Along (step x cfg) Ready s acts := by
  induction acts generalizing s with
  | nil => trivial
  | cons act rest ih =>
    refine ⟨fun a same => ?_,fun t _ => ih (fun a later => free a (List.mem_cons_of_mem _ later)) t⟩
    subst same
    exact absurd List.mem_cons_self (free a)

/- The second core machine reads the token before it starts; it has a candidate of its own,
expands it and gives the token on. -/
def wakeRun : List (Act 3) :=
  [.deliver 0 1,.deliver 0 1,.host 1 (.poll .query),.host 1 (.poll .sync)]

def passRun : List (Act 3) :=
  [.host 1 .procQuery,.host 1 .loopTop,.host 1 .swapTaskQueue,.host 1 .procSubquery,.host 1 .loopTop]

theorem queuedOnceRing : ∃ s, Along (step ringIndex ringConfig) Ready (start ringConfig) ((ringRun ++ wakeRun) ++ passRun) ∧
    run (step ringIndex ringConfig) (start ringConfig) ((ringRun ++ wakeRun) ++ passRun) = some s ∧
    (s 1).state = .pause ∧ Asleep (s 1) ∧ (s 0).ret ≤ 1 ∧ (s 0).curQueryNum + (s 0).ret = 1 := by
  have before : (run (step ringIndex ringConfig) (start ringConfig) (ringRun ++ wakeRun)).map
      (fun s => ((s 1).localTask.length,(s 1).localMicroTask.length)) = some (0,0) := by decide +kernel
  have last : (run (step ringIndex ringConfig) (start ringConfig) ((ringRun ++ wakeRun) ++ passRun)).map
      (fun s => ((s 1).state,(s 0).isNew)) = some (.pause,false) := by decide +kernel
  obtain ⟨s,first,none'⟩ := Option.map_eq_some_iff.mp before
  obtain ⟨t,ok,value⟩ := Option.map_eq_some_iff.mp last
  simp only [Prod.mk.injEq] at none' value
  have empty : (s 1).localTask = [] ∧ (s 1).localMicroTask = [] :=
    ⟨List.length_eq_zero_iff.mp none'.1,List.length_eq_zero_iff.mp none'.2⟩
  have ready : Along (step ringIndex ringConfig) Ready (start ringConfig) ((ringRun ++ wakeRun) ++ passRun) := by
    refine alongJoin (readyOtherwise (by decide) _) first ⟨fun a same new => ?_,fun u _ => readyOtherwise (by decide) u⟩
    cases same
    exact .inl empty
  obtain ⟨_,paused,once,num⟩ := queuedOnce ready ok
  have count := num 0
  rw [if_pos ⟨rfl,value.2⟩] at count
  exact ⟨t,ready,ok,value.1,paused 1 value.1,once 0,count⟩

/- A chain of vertices 0 to 3 on machine 0, ever closer; the neighbour of the last one, 5,
is on machine 1, whose own candidate is 4. Machine 2 holds nothing. -/
def chainIndex : Index 3 Nat where
  getMachineId v := if v < 4 then 0 else 1
  block v := if v < 3 then [.localNgh 1 (v + 1)] else if v = 3 then [.micro 1 [5]] else []
  nghPtr _ ofs _ := [ofs]
  dist v := [10,5,4,3,11,2].getD v 0
  kmeansPosLabelMap v := v
  foreign v r member := by
    split at member
    · rw [List.mem_singleton.mp member]
      simp [Record.remote]
    · split at member
      · rename_i last
        rw [List.mem_singleton.mp member,last]
        decide
      · cases member

def chainConfig : Config 3 Nat where
  ef := 2
  resKnn := 2
  originMachine := 0
  leaderMachine := 0
  coreMachine := [0,1]
  coreNodup := bothOnce
  leaderCore := firstLeads
  enterpoint := (10,0)
  evaluated := [(11,4)]
  once := by decide
  unset := 0

/- The fourth group sends the SYNC. Machine 1 reads it in the same poll as the query. -/
def chainRun : List (Act 3) :=
  .host 0 .searchSub :: (List.replicate 3 [.host 0 .loopTop,.host 0 .swapTaskQueue,.host 0 .procSubquery]).flatten ++
    [.host 0 .loopTop,.deliver 0 1,.deliver 0 1,.host 1 (.poll .query),.host 1 (.poll .sync),.host 1 .procQuery,
      .host 1 .loopTop]

theorem pausedWithWork : ∃ s, run (step chainIndex chainConfig) (start chainConfig) chainRun = some s ∧
    (s 1).state = .pause ∧ (s 1).localMicroTask = [5] ∧ ¬Asleep (s 1) := by
  have last : (run (step chainIndex chainConfig) (start chainConfig) chainRun).map
      (fun s => ((s 1).state,(s 1).localMicroTask)) = some (.pause,[5]) := by decide +kernel
  obtain ⟨s,ok,value⟩ := Option.map_eq_some_iff.mp last
  simp only [Prod.mk.injEq] at value
  refine ⟨s,ok,value.1,value.2,fun asleep => ?_⟩
  have none' := asleep.tasks.2
  rw [value.2] at none'
  cases none'

end Results

end CoTra.Scheduling
