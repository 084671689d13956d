import CoTra.SubQueryDrain

/-! What the operations of a machine do, one case for each kind of effect. The
invariants of the search are proved over these cases; what they leave out is read off
`Performed`. -/
namespace CoTra.SubQueryEffects
open Priority SubQuery Spread SubQueryTotals SubQueryDrain

variable {n : Nat} {D : Type} [Distance D]
variable (x : Index n D) (cfg : Config n D) (me : Fin n)

def woken (q : QueryMsg n D) : QueryMsg n D := if q.state = .pause then { q with state := .postStage } else q

def wokenSchedule (q : QueryMsg n D) (h : Schedule) : Schedule :=
  if q.state = .pause then { h with subqueryQueue := h.subqueryQueue + 1 } else h

def returned (h : Schedule) : Schedule := { h with ret := h.ret + 1, curQueryNum := h.curQueryNum - 1 }

/- What searchSub makes of the query, and the copy for machine p. -/
def opened (q : QueryMsg n D) : QueryMsg n D :=
  { q with
    state := .preStage
    isNew := false
    search := { q.search with lowerBound := (preStage cfg).lowerBound, topCandidates := (preStage cfg).preTopCand }
    leaderMachine := cfg.leaderMachine
    coreMachine := cfg.coreMachine
    isCoreMachine := coreFlags cfg.coreMachine }

def forked (p : Fin n) (result : List (D × Nat)) : QueryFork n D :=
  ⟨.preStage,(preStage cfg).lowerBound,cfg.leaderMachine,cfg.coreMachine,(preStage cfg).preTopCand.elems,
    filterred x cfg p,result⟩

def openedCore (q : QueryMsg n D) : QueryMsg n D :=
  let candidates := pushAll q.search.candidateSet ((filterred x cfg me).map (fun c => (OrderDual.toDual c.1,c.2)))
  enterPostStage { opened cfg q with
    search := { (opened cfg q).search with candidateSet := candidates }
    hasToken := q.hasToken || decide (cfg.leaderMachine = me) }

/- What deserialize makes of it. -/
def merged (f : QueryFork n D) (q : QueryMsg n D) : QueryMsg n D :=
  { q with
    state := f.state
    search := { q.search with
      lowerBound := f.lowerBound
      topCandidates := pushAll empty f.topCandidates
      candidateSet := pushAll empty (f.candidateSet.map (fun c => (OrderDual.toDual c.1,c.2))) }
    leaderMachine := f.leaderMachine
    coreMachine := q.coreMachine ++ f.coreMachine
    isCoreMachine := fun p => q.isCoreMachine p || coreFlags f.coreMachine p
    queryQueue := q.queryQueue + 1 }

def nodeSynced (ms : List (NonCoreSyncMsg n)) (q : QueryMsg n D) : QueryMsg n D :=
  { (if ms = [] then q else woken q) with
    localMicroTask := q.localMicroTask ++ ms.flatMap NonCoreSyncMsg.coreMicroNgh
    localTask := q.localTask ++ ms.flatMap (fun msg => msg.coreLargeNgh.map (fun e => ⟨e.2,e.1,true⟩)) }

theorem nodeSyncedSearch (ms : List (NonCoreSyncMsg n)) (q : QueryMsg n D) : (nodeSynced ms q).search = q.search := by
  simp only [nodeSynced,woken]
  split <;> try rfl
  split <;> rfl

def nextGroup (q : QueryMsg n D) : List Nat × PQueue Dᵒᵈ Nat :=
  popGroup q.search.lowerBound candGroupSize q.search.candidateSet

theorem popGroupMem (bound : D) (k : Nat) (q : PQueue Dᵒᵈ Nat) :
    (∀ v ∈ (popGroup bound k q).1, ∃ c ∈ q.elems, c.2 = v) ∧ ∀ c ∈ (popGroup bound k q).2.elems, c ∈ q.elems := by
  induction k generalizing q with
  | zero => exact ⟨fun v member => absurd member List.not_mem_nil,fun c member => member⟩
  | succ k ih =>
    unfold popGroup
    split
    · exact ⟨fun v member => absurd member List.not_mem_nil,fun c member => member⟩
    · rename_i d v first
      split
      · exact ⟨fun v member => absurd member List.not_mem_nil,fun c member => member⟩
      · obtain ⟨vs,rest⟩ := ih (pop q)
        refine ⟨fun u member => ?_,fun c member => memPop (rest c member)⟩
        rcases List.mem_cons.mp member with rfl | later
        · exact ⟨_,topMem first,rfl⟩
        · obtain ⟨c,among,same⟩ := vs u later
          exact ⟨c,memPop among,same⟩

/- A coroutine that finds no candidate has none within the bound. -/
theorem noneWithin {q : QueryMsg n D} (noneLeft : (nextGroup q).1 = []) :
    ∀ c ∈ q.search.candidateSet.elems, q.search.lowerBound < OrderDual.ofDual c.1 := by
  intro c member
  unfold nextGroup candGroupSize popGroup at noneLeft
  split at noneLeft
  · rename_i none'
    rw [topNone none'] at member
    cases member
  · rename_i d v first
    split at noneLeft
    · rename_i beyond
      have largest : c.1 ≤ d := topLargest first c member
      exact beyond.trans_le largest
    · cases noneLeft

/- The coroutine finds no candidate and leaves the inner loop. -/
structure Leaves (q : QueryMsg n D) : Prop where
  top : q.coro = .top
  noneLeft : (nextGroup q).1 = []
  allRecved : allResultRecved q = true
  post : q.state = .postStage

instance (q : QueryMsg n D) : Decidable (Leaves q) :=
  decidable_of_iff (q.coro = .top ∧ (nextGroup q).1 = [] ∧ allResultRecved q = true ∧ q.state = .postStage)
    ⟨fun h => ⟨h.1,h.2.1,h.2.2.1,h.2.2.2⟩,fun h => ⟨h.top,h.noneLeft,h.allRecved,h.post⟩⟩

/- The query after the token was given away. -/
def passed (last : Bool) (q : QueryMsg n D) : QueryMsg n D :=
  { q with
    search := { q.search with procIsBlack := false, localAddCand := [] }
    coreMicroNgh := fun _ => []
    coreLargeNgh := fun _ => []
    hasToken := false
    tokenIsBlack := false
    lastIsWhite := last
    syncStep := 0
    state := .pause
    coro := .yielded }

def failed (q : QueryMsg n D) : Bool := q.tokenIsBlack || q.search.procIsBlack

/- The colour of the token that machine me gives away, and its last_is_white then. -/
def taintOf (q : QueryMsg n D) : Bool := if q.leaderMachine = me then false else failed q
def lastOf (q : QueryMsg n D) : Bool := if q.leaderMachine = me then !failed q else q.lastIsWhite

/- When the coroutine that leaves the loop ends. -/
structure Ends (q : QueryMsg n D) : Prop where
  leaves : Leaves q
  second : 1 < q.coreMachine.length →
    q.hasToken = true ∧ q.leaderMachine = me ∧ q.lastIsWhite = true ∧ failed q = false

instance (q : QueryMsg n D) : Decidable (Ends me q) :=
  decidable_of_iff (Leaves q ∧ (1 < q.coreMachine.length →
    q.hasToken = true ∧ q.leaderMachine = me ∧ q.lastIsWhite = true ∧ failed q = false))
    ⟨fun h => ⟨h.1,h.2⟩,fun h => ⟨h.leaves,h.second⟩⟩

/- The forks of searchSub. -/
def Forks (msgs : List (Fin n × QueryFork n D)) : Prop :=
  msgs.map Prod.fst = cfg.coreMachine.filter (· ≠ me) ∧ ∀ e ∈ msgs, ∃ result, e.2 = forked x cfg e.1 result

/- What goes out with a group of candidates: nothing, or a sync to every other core. -/
inductive Periodic (q : QueryMsg n D) (add : List (D × Nat)) : QueryMsg n D → List (Fin n × Bool) → Prop
  | none (early : q.syncStep + 1 < syncBar) (kept : add = q.search.localAddCand) (sent : QueryMsg n D) :
      Periodic q add sent []
  | sync (due : syncBar ≤ q.syncStep + 1) (cleared : add = []) (sent : QueryMsg n D) (msgs : List (Fin n × Bool))
      (cands : sent.search.localAddCand = q.search.localAddCand) (bound : sent.syncLowerBound = q.search.lowerBound)
      (every : ∀ p ∈ q.coreMachine, p ≠ me → ∃ e ∈ msgs, e.1 = p) (only : ∀ e ∈ msgs, e.1 ∈ q.coreMachine) :
      Periodic q add sent msgs

variable [Zero D]

inductive Effect (m m' : Machine n D) : Prop
  | moves (ok : Moves me m m')
  | swaps (query : m'.toQueryMsg = m.toQueryMsg) (emptied : m.subqueryQueue = 0)
      (sched : m'.toSchedule = { m.toSchedule with subqueryQueue := m.nextSubqueryQueue, nextSubqueryQueue := 0 })
      (same : ∀ w, total w me m' = total w me m)
  | waits (msgs : List (Fin n × QueryFork n D)) (origin : me = cfg.originMachine) (new : m.isNew = true)
      (idle : m.coro = .none) (outside : me ∉ cfg.coreMachine) (forks : Forks x cfg me msgs)
      (query : m'.toQueryMsg = { opened cfg m.toQueryMsg with coro := .waiting })
      (sched : m'.toSchedule = { m.toSchedule with curQueryNum := m.curQueryNum + 1, resumed := false })
      (gain : ∀ w, total w me m' = total w me m + sumOf (fun e => w.query e.1 e.2) msgs)
  | opens (msgs : List (Fin n × QueryFork n D)) (origin : me = cfg.originMachine) (new : m.isNew = true)
      (idle : m.coro = .none) (inside : me ∈ cfg.coreMachine) (forks : Forks x cfg me msgs)
      (query : m'.toQueryMsg = openedCore x cfg me m.toQueryMsg)
      (sched : m'.toSchedule = { m.toSchedule with curQueryNum := m.curQueryNum + 1, resumed := false })
      (gain : ∀ w, total w me m' = total w me m + sumOf (fun e => w.query e.1 e.2) msgs)
  | merges (f : QueryFork n D) (running : m.coro ≠ .top) (query : m'.toQueryMsg = merged f m.toQueryMsg)
      (sched : m'.toSchedule = m.toSchedule) (loss : ∀ w, total w me m' + w.query me f = total w me m)
  | syncs (msg : SyncMsg n D) (running : m.coro ≠ .top)
      (query : m'.toQueryMsg = woken (updateSubQuery cfg me msg m.toQueryMsg))
      (sched : m'.toSchedule = wokenSchedule m.toQueryMsg m.toSchedule)
      (loss : ∀ w, total w me m' + w.sync me msg = total w me m)
  | nodeSyncs (ms : List (NonCoreSyncMsg n)) (running : m.coro ≠ .top)
      (query : m'.toQueryMsg = nodeSynced ms m.toQueryMsg)
      (sched : m'.toSchedule = if ms = [] then m.toSchedule else wokenSchedule m.toQueryMsg m.toSchedule)
      (loss : ∀ w, total w me m' + sumOf (w.nodeSync me) ms = total w me m)
  | wakes (running : m.coro ≠ .top) (query : m'.toQueryMsg = woken m.toQueryMsg)
      (sched : m'.toSchedule = wokenSchedule m.toQueryMsg m.toSchedule)
      (same : ∀ w, total w me m' = total w me m)
  | starts (new : m.isNew = true) (queued : 0 < m.queryQueue)
      (query : m'.toQueryMsg = enterPostStage { m.toQueryMsg with
        queryQueue := m.queryQueue - 1
        isNew := false
        hasToken := m.hasToken || decide (m.leaderMachine = me) })
      (sched : m'.toSchedule = { m.toSchedule with resumed := false })
      (same : ∀ w, total w me m' = total w me m)
  | returns (old : m.isNew = false) (queued : 0 < m.queryQueue)
      (query : m'.toQueryMsg = { m.toQueryMsg with queryQueue := m.queryQueue - 1 })
      (sched : m'.toSchedule = returned m.toSchedule)
      (same : ∀ w, total w me m' = total w me m)
  | nodeTask (t : NodeTask n) (found : List (D × Nat)) (other : t.machineId ≠ me)
      (queued : ∀ w, w.nodeTask me t ≤ total w me m)
      (slice : ∀ c ∈ found, ∃ deg ofs, .localNgh deg ofs ∈ x.block t.nodeId ∧ c.2 ∈ x.nghPtr me ofs deg)
      (query : m'.toQueryMsg = m.toQueryMsg) (sched : m'.toSchedule = m.toSchedule)
      (change : ∀ w, total w me m' + w.nodeTask me t = total w me m + nodeGain w t (x.block t.nodeId) +
        w.nodeResult t.machineId ⟨nodePosts t (x.block t.nodeId),found,t.nodeId⟩)
  | task (t : ComputeTask n D) (found : List (D × Nat)) (other : t.machineId ≠ me)
      (queued : ∀ w, w.task me t ≤ total w me m)
      (slice : ∀ c ∈ found, c.2 ∈ nghIds x me t.ngh)
      (query : m'.toQueryMsg = m.toQueryMsg) (sched : m'.toSchedule = m.toSchedule)
      (change : ∀ w, total w me m' + w.task me t = total w me m + w.result t.machineId (taskResult t found))
  | ownTask (t : ComputeTask n D) (own : t.machineId = me) (queued : ∀ w, w.task me t ≤ total w me m)
  | chunk (t : LocalTask) (found : List (D × Nat)) (queued : ∀ w, w.localTask me t ≤ total w me m)
      (slice : ∀ c ∈ found, c.2 ∈ x.nghPtr me t.offset t.deg)
      (query : m'.toQueryMsg = m.toQueryMsg) (sched : m'.toSchedule = m.toSchedule)
      (change : ∀ w, total w me m' + w.localTask me t = total w me m + w.chunk me ⟨t.isCount,found⟩)
  | nodeResult (r : NodeResult D) (running : m.coro ≠ .top) (queued : ∀ w, w.nodeResult me r ≤ total w me m)
      (query : m'.toQueryMsg = woken { m.toQueryMsg with nocorePost := m.nocorePost + r.postCnt })
      (sched : m'.toSchedule = wokenSchedule m.toQueryMsg m.toSchedule)
      (change : ∀ w, total w me m' + w.nodeResult me r = total w me m + w.result me ⟨1,0,rfl,r.res,some r.node⟩)
  | resumes (search : Search D) (suspended : m.coro = .yielded) (queued : 0 < m.subqueryQueue)
      (query : m'.toQueryMsg = { m.toQueryMsg with
        search := search
        recvCnt := m.recvCnt + received m
        nocoreRecv := m.nocoreRecv + sumOf ResultMsg.nocoreCnt m.localRes
        localTask := []
        localMicroTask := []
        coro := .top })
      (sched : m'.toSchedule = { m.toSchedule with subqueryQueue := m.subqueryQueue - 1, resumed := true })
      (changed : ByCandidates cfg (Offered x me m) m.search search) (idle : Idle m → search = m.search)
      (loss : ∀ w, total w me m' + consumed me w m = total w me m)
  | overruns (finished : m.coro = .finished) (queued : 0 < m.subqueryQueue) (query : m'.toQueryMsg = m.toQueryMsg)
      (sched : m'.toSchedule = returned { m.toSchedule with subqueryQueue := m.subqueryQueue - 1 })
      (same : ∀ w, total w me m' = total w me m)
  | rests (top : m.coro = .top) (noneLeft : (nextGroup m.toQueryMsg).1 = [])
      (waiting : allResultRecved m.toQueryMsg = false)
      (query : m'.toQueryMsg = { m.toQueryMsg with coro := .yielded })
      (sched : m'.toSchedule = { m.toSchedule with nextSubqueryQueue := m.nextSubqueryQueue + 1 })
      (same : ∀ w, total w me m' = total w me m)
  | idles (top : m.coro = .top) (noneLeft : (nextGroup m.toQueryMsg).1 = []) (notPost : m.state ≠ .postStage)
      (query : m'.toQueryMsg = { m.toQueryMsg with coro := .yielded })
      (sched : m'.toSchedule = m.toSchedule)
      (same : ∀ w, total w me m' = total w me m)
  | expands (micro : Fin n → List Nat) (large : Fin n → List (Nat × Nat)) (add : List (D × Nat)) (step : Nat) (lb : D)
      (msgs : List (Fin n × Bool)) (sent : QueryMsg n D) (top : m.coro = .top)
      (some' : (nextGroup m.toQueryMsg).1 ≠ [])
      (query : m'.toQueryMsg = { m.toQueryMsg with
        search := { m.search with candidateSet := (nextGroup m.toQueryMsg).2, localAddCand := add }
        coreMicroNgh := micro
        coreLargeNgh := large
        postCnt := m.postCnt + sumOf (expandGain ones x cfg me m.toQueryMsg) (nextGroup m.toQueryMsg).1
        syncStep := step
        syncLowerBound := lb
        coro := .yielded })
      (sched : m'.toSchedule = { m.toSchedule with
        nextSubqueryQueue := if m.state = .postStage then m.nextSubqueryQueue + 1 else m.nextSubqueryQueue })
      (plain : ∀ e ∈ msgs, e.2 = false) (posted : Periodic me m.toQueryMsg add sent msgs)
      (gain : ∀ w, total w me m' = total w me m +
        sumOf (expandGain w x cfg me m.toQueryMsg) (nextGroup m.toQueryMsg).1 +
        sumOf (fun e => w.sync e.1 (syncMsg sent e.2 false)) msgs)
      (routed : Routed x (nextGroup m.toQueryMsg).1 m.toQueryMsg m'.toQueryMsg ∧
        Routed x (nextGroup m.toQueryMsg).1 m.toQueryMsg sent)
  | pauses (leaves : Leaves m.toQueryMsg) (several : 1 < m.coreMachine.length) (without : m.hasToken = false)
      (query : m'.toQueryMsg = { m.toQueryMsg with state := .pause, coro := .yielded })
      (sched : m'.toSchedule = m.toSchedule)
      (same : ∀ w, total w me m' = total w me m)
  | passes (leaves : Leaves m.toQueryMsg) (several : 1 < m.coreMachine.length) (holder : m.hasToken = true)
      (going : ¬Ends me m.toQueryMsg) (query : m'.toQueryMsg = passed (lastOf me m.toQueryMsg) m.toQueryMsg)
      (sched : m'.toSchedule = m.toSchedule)
      (gain : ∀ w, total w me m' = total w me m +
        sumOf (fun e => w.sync e.1 (syncMsg m.toQueryMsg e.2 (taintOf me m.toQueryMsg)))
          (SubQueryTotals.syncs me (nxtPropM me m.coreMachine) true true m.coreMachine))
  | ends (f : QueryFork n D) (cands : PQueue Dᵒᵈ Nat) (ending : Ends me m.toQueryMsg)
      (query : m'.toQueryMsg = { m.toQueryMsg with
        search := { m.search with topCandidates := empty, candidateSet := cands }
        globalTerm := true
        state := .ended
        coro := .finished })
      (fewer : ∀ c ∈ cands.elems, c ∈ m.search.candidateSet.elems)
      (sched : m'.toSchedule = if (m.leaderMachine = me ∧ me ≠ cfg.originMachine) ∨ m.resumed = false
        then m.toSchedule else returned m.toSchedule)
      (fork : f.leaderMachine = m.leaderMachine ∧ f.coreMachine = m.coreMachine ∧ f.state = .ended ∧
        ∀ c ∈ f.candidateSet, (OrderDual.toDual c.1,c.2) ∈ m.search.candidateSet.elems ∧ c.1 < m.search.lowerBound)
      (gain : ∀ w, total w me m' = total w me m +
        if m.leaderMachine = me ∧ me ≠ cfg.originMachine then w.query cfg.originMachine f else 0)

omit [Zero D] in
theorem wakeQuery (m : Machine n D) : (wake m).toQueryMsg = woken m.toQueryMsg := by
  unfold wake woken
  split <;> rfl

omit [Zero D] in
theorem wakeSchedule (m : Machine n D) : (wake m).toSchedule = wokenSchedule m.toQueryMsg m.toSchedule := by
  unfold wake wokenSchedule
  split <;> rfl

omit [Zero D] in
theorem wakeTotal (w : Weight n D) (m : Machine n D) : total w me (wake m) = total w me m := by
  unfold wake
  split <;> rfl

-- A read, and a result, that is moved from one queue of the machine to another.
omit [Zero D] in
theorem recvTotal (w : Weight n D) {m : Machine n D} {r : BufferCache n} {rest : List (BufferCache n)}
    (queue : m.recvList = r :: rest) :
    total w me (wake { m with recvList := rest, recvAsyncReadQueue := m.recvAsyncReadQueue ++ [r] }) = total w me m := by
  rw [wakeTotal]
  simp only [total,readTotal,queue,sumAppend,sumCons,sumNil]
  omega

omit [Zero D] in
theorem resultTotal (w : Weight n D) {m : Machine n D} {r : ResultMsg D} {rest : List (ResultMsg D)}
    (queue : m.resultQueue me = r :: rest) : total w me (wake { m with
      resultQueue := Function.update m.resultQueue me rest
      localRes := m.localRes ++ [r] }) = total w me m := by
  have taken := spreadUpdate w.result m.resultQueue me rest
  rw [queue,sumCons] at taken
  rw [wakeTotal]
  simp only [total,readTotal,sumAppend,sumCons,sumNil]
  omega

omit [Zero D] in
theorem forkQueries (ps : List (Fin n)) (m : Machine n D) : ∃ msgs : List (Fin n × QueryFork n D),
    (msgs.map Prod.fst = ps ∧ ∀ e ∈ msgs, ∃ result, e.2 = ⟨m.state,m.search.lowerBound,m.leaderMachine,
      m.coreMachine,m.search.topCandidates.elems,filterred x cfg e.1,result⟩) ∧
    (ps.foldl (forkQuery x cfg) m).toQueryMsg = m.toQueryMsg ∧
    (ps.foldl (forkQuery x cfg) m).toSchedule = m.toSchedule ∧
    ∀ w : Weight n D, total w me (ps.foldl (forkQuery x cfg) m) = total w me m + sumOf (fun e => w.query e.1 e.2) msgs := by
  induction ps generalizing m with
  | nil => exact ⟨[],⟨rfl,fun e member => absurd member List.not_mem_nil⟩,rfl,rfl,fun _ => rfl⟩
  | cons p rest ih =>
    obtain ⟨msgs,⟨places,forks⟩,query,sched,gain⟩ := ih (forkQuery x cfg m p)
    refine ⟨(p,⟨m.state,m.search.lowerBound,m.leaderMachine,m.coreMachine,m.search.topCandidates.elems,
      filterred x cfg p,m.result⟩) :: msgs,⟨by rw [List.map_cons,places],?_⟩,query,sched,fun w => ?_⟩
    · intro e member
      rcases List.mem_cons.mp member with rfl | later
      · exact ⟨m.result,rfl⟩
      · exact forks e later
    · have change := spreadPush (messageWeight w) m.wire p [.query
        ⟨m.state,m.search.lowerBound,m.leaderMachine,m.coreMachine,m.search.topCandidates.elems,filterred x cfg p,
          m.result⟩]
      simp only [sumCons,sumNil,messageWeight] at change
      rw [List.foldl_cons,gain]
      simp only [forkQuery,total,readTotal,sumCons]
      omega

omit [Zero D] in
theorem nodeSyncsFold (ms : List (NonCoreSyncMsg n)) (m : Machine n D) :
    (ms.foldl (fun m msg => wake { m with toQueryMsg := updateSubQueryFromNoncore m.toQueryMsg msg }) m).toQueryMsg =
      nodeSynced ms m.toQueryMsg ∧
    (ms.foldl (fun m msg => wake { m with toQueryMsg := updateSubQueryFromNoncore m.toQueryMsg msg }) m).toSchedule =
      (if ms = [] then m.toSchedule else wokenSchedule m.toQueryMsg m.toSchedule) ∧
    ∀ w : Weight n D, total w me (ms.foldl (fun m msg => wake { m with
      toQueryMsg := updateSubQueryFromNoncore m.toQueryMsg msg }) m) = total w me m := by
  induction ms generalizing m with
  | nil => exact ⟨by simp [nodeSynced],rfl,fun _ => rfl⟩
  | cons msg rest ih =>
    obtain ⟨query,sched,same⟩ := ih (wake { m with toQueryMsg := updateSubQueryFromNoncore m.toQueryMsg msg })
    -- the first message wakes the query, the others find it awake
    refine ⟨?_,?_,fun w => ?_⟩
    · rw [List.foldl_cons,query,wakeQuery]
      unfold nodeSynced woken
      rw [if_neg (List.cons_ne_nil _ _)]
      by_cases paused : m.state = .pause
      · simp [updateSubQueryFromNoncore,paused]
      · simp [updateSubQueryFromNoncore,paused]
    · rw [List.foldl_cons,sched,wakeSchedule,wakeQuery,if_neg (List.cons_ne_nil _ _)]
      unfold wokenSchedule woken
      by_cases paused : m.state = .pause
      · simp [updateSubQueryFromNoncore,paused]
      · simp [updateSubQueryFromNoncore,paused]
    · rw [List.foldl_cons,same,wakeTotal]
      rfl

omit [Zero D] in
theorem pollTotal (w : Weight n D) {k : Control} {msg : Message n D} {rest : List (Message n D)} {m : Machine n D}
    (queue : m.rbuf k = msg :: rest) :
    total w me { m with rbuf := Function.update m.rbuf k rest } + messageWeight w me msg = total w me m := by
  have change := spreadUpdate (fun _ => messageWeight w me) m.rbuf k rest
  rw [queue,sumCons] at change
  simp only [total,readTotal]
  omega

variable {x cfg me}

theorem searchSubEffect {m m' : Machine n D} (ok : searchSub x cfg me m = some m') : Effect x cfg me m m' := by
  unfold searchSub at ok
  split at ok <;> try contradiction
  rename_i first
  obtain ⟨msgs,forks,query,sched,gain⟩ := forkQueries x cfg me (cfg.coreMachine.filter (· ≠ me)) { m with
    toQueryMsg := opened cfg m.toQueryMsg
    toSchedule := { m.toSchedule with curQueryNum := m.curQueryNum + 1, resumed := false }
    visitHash := [] }
  simp only [opened] at query
  simp only at sched
  simp only at ok
  split at ok
  · rename_i inside
    cases Option.some.inj ok
    refine .opens msgs first.1 first.2.1 first.2.2 inside forks ?_ sched gain
    simp only [query,openedCore,opened]
  · rename_i outside
    cases Option.some.inj ok
    refine .waits msgs first.1 first.2.1 first.2.2 outside forks ?_ sched gain
    simp only [query,opened]

theorem pollEffect {k : Control} {m : Machine n D} {msg : Message n D} {rest : List (Message n D)} (running : m.coro ≠ .top)
    (queue : m.rbuf k = msg :: rest) :
    Effect x cfg me m (deserialize cfg me { m with rbuf := Function.update m.rbuf k rest } msg) := by
  have taken := fun w : Weight n D => pollTotal me w queue
  cases msg with
  | query f => exact .merges f running rfl rfl taken
  | sync msg =>
    refine .syncs msg running (wakeQuery _) (wakeSchedule _) (fun w => ?_)
    rw [← taken w]
    exact congrArg (· + w.sync me msg) (wakeTotal me w _)
  | nodeSync ms =>
    obtain ⟨query,sched,same⟩ := nodeSyncsFold me ms { m with rbuf := Function.update m.rbuf k rest }
    refine .nodeSyncs ms running query sched (fun w => ?_)
    rw [← taken w]
    exact congrArg (· + sumOf (w.nodeSync me) ms) (same w)
  | task ts ns =>
    refine .moves ⟨rfl,rfl,fun w => ?_⟩
    rw [← taken w]
    simp only [deserialize,total,readTotal,sumAppend,messageWeight]
    omega
  | result rs =>
    refine .moves ⟨rfl,rfl,fun w => ?_⟩
    have put := spreadPush w.result m.resultQueue me rs
    rw [← taken w]
    simp only [deserialize,total,readTotal,messageWeight]
    omega
  | nodeResult rs =>
    refine .moves ⟨rfl,rfl,fun w => ?_⟩
    have put := spreadPush w.nodeResult m.nodeResultQueue me rs
    rw [← taken w]
    simp only [deserialize,total,readTotal,messageWeight]
    omega

theorem procQueryEffect {m m' : Machine n D} (ok : procQuery me m = some m') : Effect x cfg me m m' := by
  unfold procQuery at ok
  split at ok <;> try contradiction
  rename_i k queue
  have queued : 0 < m.queryQueue := by omega
  have left : m.queryQueue - 1 = k := by omega
  split at ok
  · rename_i new
    cases Option.some.inj ok
    exact .starts new queued (by rw [left]) rfl (fun _ => rfl)
  · rename_i old
    cases Option.some.inj ok
    exact .returns (Bool.not_eq_true _ ▸ old) queued (by rw [left]; rfl) rfl (fun _ => rfl)

-- The posts that procNodeTask and procTask make of a full queue.
omit [Zero D] in
theorem mergedNodeResultMoves (me p : Fin n) (e : Machine n D) :
    Moves me e (if postResMerge ≤ (e.nodeResultQueue p).length then postNodeResult p e else e) := by
  split
  · exact postNodeResultMoves _ e
  · exact movesRefl e

omit [Zero D] in
theorem mergedNodeSyncMoves (me p : Fin n) (e : Machine n D) :
    Moves me e (if postNodesyncMerge ≤ (e.noncoreSyncMsg p).length then postNodeSync p e else e) := by
  split
  · exact postNodeSyncMoves _ e
  · exact movesRefl e

omit [Zero D] in
theorem mergedResultMoves (me p : Fin n) (e : Machine n D) :
    Moves me e (if postResMerge ≤ (e.resultQueue p).length then postRemoteResult p e else e) := by
  split
  · exact postRemoteResultMoves _ e
  · exact movesRefl e

theorem procNodeTaskEffect {m m' : Machine n D} (ok : procNodeTask x me m = some m') : Effect x cfg me m m' := by
  unfold procNodeTask at ok
  split at ok <;> try contradiction
  rename_i t rest queue
  split at ok <;> try contradiction
  rename_i other
  obtain ⟨found,slice,query,sched,gain⟩ := expandNodeTaskEffect x me t { m with curNodeQueue := rest }
  have moved := (mergedNodeResultMoves me t.machineId (expandNodeTask x me t { m with curNodeQueue := rest })).trans
    (mergedNodeSyncMoves me t.machineId _)
  cases Option.some.inj ok
  have taken : ∀ w : Weight n D, total w me { m with curNodeQueue := rest } + w.nodeTask me t = total w me m := by
    intro w
    simp only [total,readTotal,queue,sumCons]
    omega
  refine .nodeTask t found other (fun w => by rw [← taken w]; exact Nat.le_add_left _ _) slice
    (moved.query.trans query) (moved.sched.trans sched) (fun w => ?_)
  rw [moved.same,gain,← taken w]
  omega

theorem procNodeResEffect {m : Machine n D} {r : NodeResult D} {rest : List (NodeResult D)} (running : m.coro ≠ .top)
    (queue : m.nodeResultQueue me = r :: rest) : Effect x cfg me m (wake { m with
      nodeResultQueue := Function.update m.nodeResultQueue me rest
      nocorePost := m.nocorePost + r.postCnt
      localRes := m.localRes ++ [⟨1,0,rfl,r.res,some r.node⟩] }) := by
  have taken : ∀ w : Weight n D, spread w.nodeResult (Function.update m.nodeResultQueue me rest) +
      w.nodeResult me r = spread w.nodeResult m.nodeResultQueue := by
    intro w
    have change := spreadUpdate w.nodeResult m.nodeResultQueue me rest
    rw [queue,sumCons] at change
    omega
  refine .nodeResult r running (fun w => ?_) (wakeQuery _) (wakeSchedule _) (fun w => ?_)
  · have here := taken w
    simp only [total]
    omega
  · have here := taken w
    rw [wakeTotal]
    simp only [total,readTotal,sumAppend,sumCons,sumNil]
    omega

theorem procTaskEffect {m m' : Machine n D} (ok : procTask x cfg me m = some m') : Effect x cfg me m m' := by
  unfold procTask at ok
  split at ok <;> try contradiction
  rename_i t rest queue
  have taken : ∀ w : Weight n D, total w me { m with curTaskQueue := rest } + w.task me t = total w me m := by
    intro w
    simp only [total,readTotal,queue,sumCons]
    omega
  split at ok
  · rename_i own
    exact .ownTask t own (fun w => by rw [← taken w]; exact Nat.le_add_left _ _)
  · rename_i other
    have moved := mergedResultMoves me t.machineId (computeTask x me t { m with curTaskQueue := rest })
    cases Option.some.inj ok
    refine .task t (visit x (nghIds x me t.ngh) m.visitHash).1 other
      (fun w => by rw [← taken w]; exact Nat.le_add_left _ _) (fun c member => visitFound x member) moved.query
      moved.sched (fun w => ?_)
    have put := spreadPush w.result m.resultQueue t.machineId
      [taskResult t (visit x (nghIds x me t.ngh) m.visitHash).1]
    simp only [sumCons,sumNil] at put
    have here := taken w
    rw [moved.same]
    simp only [computeTask,total,readTotal] at here ⊢
    omega

theorem pushChunkEffect {m : Machine n D} {t : LocalTask} {rest : List LocalTask} (queue : m.stolen = t :: rest) :
    Effect x cfg me m { m with
      stolen := rest
      visitHash := (doTask x me t m.visitHash).2
      conTaskQueue := m.conTaskQueue ++ [(doTask x me t m.visitHash).1] } := by
  refine .chunk t (visit x (x.nghPtr me t.offset t.deg) m.visitHash).1 (fun w => ?_)
    (fun c member => visitFound x member) rfl rfl (fun w => ?_)
  · simp only [total,queue,sumCons]
    omega
  · simp only [total,readTotal,queue,sumAppend,sumCons,sumNil,doTask]
    omega

theorem procSubqueryEffect {k : Nat} {m m' : Machine n D} (queue : m.subqueryQueue = k+1)
    (ok : resumeCoro x cfg me { m with subqueryQueue := k } = some m') : Effect x cfg me m m' := by
  have queued : 0 < m.subqueryQueue := by omega
  have left : m.subqueryQueue - 1 = k := by omega
  unfold resumeCoro at ok
  split at ok <;> try contradiction
  · rename_i suspended
    cases Option.some.inj ok
    obtain ⟨search,hash,shape,changed,idle⟩ := drainShape x cfg me { m with subqueryQueue := k }
    have loss := fun w : Weight n D => drainTotal x cfg me w { m with subqueryQueue := k }
    generalize drain x cfg me { m with subqueryQueue := k } = d at shape loss ⊢
    refine .resumes search suspended queued ?_ ?_ changed
      (fun quiet => idle ⟨quiet.1,quiet.2,quiet.3,quiet.4,quiet.5,quiet.6⟩) loss
    · rw [shape]
      rfl
    · rw [shape,left]
  · rename_i finished
    cases Option.some.inj ok
    exact .overruns finished queued rfl (by rw [left]; rfl) (fun _ => rfl)

section Loop

omit [Zero D]

variable (me)

theorem plainSyncs (nxt : Fin n) (held : Bool) (ps : List (Fin n)) :
    ∀ e ∈ SubQueryTotals.syncs me nxt false held ps, e.2 = false := by
  intro e member
  cases token : e.2 with
  | false => rfl
  | true => exact absurd ((syncsTo me member).2.2 token).1 Bool.false_ne_true

theorem postSyncsSchedule (nxt : Fin n) (propToken taint : Bool) (ps : List (Fin n)) (m : Machine n D) :
    (ps.foldl (postSync me nxt propToken taint) m).toSchedule = m.toSchedule := by
  induction ps generalizing m with
  | nil => rfl
  | cons p rest ih =>
    rw [List.foldl_cons,ih]
    unfold postSync
    split <;> rfl

theorem syncsEvery {nxt : Fin n} {propToken held : Bool} {ps : List (Fin n)} {p : Fin n} (member : p ∈ ps)
    (other : p ≠ me) : ∃ e ∈ SubQueryTotals.syncs me nxt propToken held ps, e.1 = p := by
  induction ps generalizing held with
  | nil => cases member
  | cons q rest ih =>
    simp only [SubQueryTotals.syncs]
    split
    · rename_i own
      rcases List.mem_cons.mp member with rfl | later
      · exact absurd own other
      · exact ih later
    · rcases List.mem_cons.mp member with rfl | later
      · exact ⟨_,List.mem_cons_self,rfl⟩
      · obtain ⟨e,among,at'⟩ := ih later
        exact ⟨e,List.mem_cons_of_mem _ among,at'⟩

theorem periodicSyncEffect (m : Machine n D) :
    ∃ add micro large step lb, ∃ msgs : List (Fin n × Bool), ∃ sent : QueryMsg n D,
      (periodicSync me { m with syncStep := m.syncStep + 1 }).toQueryMsg = { m.toQueryMsg with
        search := { m.search with localAddCand := add }
        coreMicroNgh := micro
        coreLargeNgh := large
        syncStep := step
        syncLowerBound := lb } ∧
      (periodicSync me { m with syncStep := m.syncStep + 1 }).toSchedule = m.toSchedule ∧
      (∀ e ∈ msgs, e.2 = false) ∧ Periodic me m.toQueryMsg add sent msgs ∧
      ((∀ (x : Index n D) vs, Routed x vs m.toQueryMsg
        (periodicSync me { m with syncStep := m.syncStep + 1 }).toQueryMsg) ∧
        sent.coreMicroNgh = m.coreMicroNgh ∧ sent.coreLargeNgh = m.coreLargeNgh) ∧
      ∀ w : Weight n D, total w me (periodicSync me { m with syncStep := m.syncStep + 1 }) = total w me m +
        sumOf (fun e => w.sync e.1 (syncMsg sent e.2 false)) msgs := by
  unfold periodicSync
  split
  · rename_i due
    have query := postSyncsQuery me (nxtPropM me m.coreMachine) false false m.coreMachine
      { m with syncStep := m.syncStep + 1, syncLowerBound := m.search.lowerBound }
    have sched := postSyncsSchedule me (nxtPropM me m.coreMachine) false false m.coreMachine
      { m with syncStep := m.syncStep + 1, syncLowerBound := m.search.lowerBound }
    have plain := plainSyncs me (nxtPropM me m.coreMachine) m.hasToken m.coreMachine
    have noToken : (SubQueryTotals.syncs me (nxtPropM me m.coreMachine) false m.hasToken m.coreMachine).any
        Prod.snd = false := List.any_eq_false.mpr (fun e member => by rw [plain e member]; exact Bool.false_ne_true)
    simp only [noToken,Bool.not_false,Bool.and_true] at query
    refine ⟨[],fun _ => [],fun _ => [],0,m.search.lowerBound,_,
      { m.toQueryMsg with syncStep := m.syncStep + 1, syncLowerBound := m.search.lowerBound },?_,sched,plain,
      .sync due rfl _ _ rfl rfl (fun p member other => syncsEvery me member other) (fun e member => (syncsTo me member).2.1),
      ⟨fun x vs => ?_,rfl,rfl⟩,
      fun w => postSyncsTotal w me (nxtPropM me m.coreMachine) false false m.coreMachine
        { m with syncStep := m.syncStep + 1, syncLowerBound := m.search.lowerBound }⟩
    · simp only [clearSync,postSubquerySync,query]
    · exact ⟨fun p v member => absurd member List.not_mem_nil,fun p e member => absurd member List.not_mem_nil⟩
  · rename_i early
    exact ⟨m.search.localAddCand,m.coreMicroNgh,m.coreLargeNgh,m.syncStep + 1,m.syncLowerBound,[],m.toQueryMsg,rfl,rfl,
      fun e member => absurd member List.not_mem_nil,.none (Nat.not_le.mp early) rfl _,
      ⟨fun x vs => routedSame x rfl rfl,rfl,rfl⟩,fun w => rfl⟩

/- Both ways to give the token away: the leader's, which has settled the colours
before, and the others'. -/
theorem propTokenEffect (last taint : Bool) {m : Machine n D} (holder : m.hasToken = true)
    (colour : (m.search.procIsBlack || m.tokenIsBlack) = taint) (kept : m.lastIsWhite = last) :
    (pauseQuery (propToken me m)).toQueryMsg = passed last m.toQueryMsg ∧
      (pauseQuery (propToken me m)).toSchedule = m.toSchedule ∧
      ∀ w : Weight n D, total w me (pauseQuery (propToken me m)) = total w me m +
        sumOf (fun e => w.sync e.1 (syncMsg m.toQueryMsg e.2 taint))
          (SubQueryTotals.syncs me (nxtPropM me m.coreMachine) true true m.coreMachine) := by
  have query := postSyncsQuery me (nxtPropM me m.coreMachine) true taint m.coreMachine
    { m with search := { m.search with procIsBlack := false }, tokenIsBlack := false }
  have sched := postSyncsSchedule me (nxtPropM me m.coreMachine) true taint m.coreMachine
    { m with search := { m.search with procIsBlack := false }, tokenIsBlack := false }
  have gain := fun w : Weight n D => postSyncsTotal w me (nxtPropM me m.coreMachine) true taint m.coreMachine
    { m with search := { m.search with procIsBlack := false }, tokenIsBlack := false }
  simp only [holder] at gain sched
  simp only [holder,kept] at query
  refine ⟨?_,?_,fun w => ?_⟩
  · simp only [pauseQuery,propToken,clearSync,postSubquerySync,colour,holder,query,passed,kept]
  · simp only [pauseQuery,propToken,clearSync,postSubquerySync,colour,holder,sched]
  · simp only [pauseQuery,propToken,clearSync,postSubquerySync,colour,holder]
    exact gain w

variable {me}

end Loop

theorem expandGroupEffect {m : Machine n D} (top : m.coro = .top) (some' : (nextGroup m.toQueryMsg).1 ≠ []) :
    Effect x cfg me m (expandGroup x cfg me (nextGroup m.toQueryMsg).1
      { m with search := { m.search with candidateSet := (nextGroup m.toQueryMsg).2 } }) := by
  have grows := expandNodesGrows x cfg me (nextGroup m.toQueryMsg).1
    { m with search := { m.search with candidateSet := (nextGroup m.toQueryMsg).2 } }
  have routed := expandNodesRouted x cfg me (nextGroup m.toQueryMsg).1
    { m with search := { m.search with candidateSet := (nextGroup m.toQueryMsg).2 } }
  have posts := expandNodesPosts x cfg me (nextGroup m.toQueryMsg).1
    { m with search := { m.search with candidateSet := (nextGroup m.toQueryMsg).2 } }
  have kept := expandNodesFrame x cfg me Machine.toSchedule (fun _ _ _ _ _ _ _ _ => rfl) (nextGroup m.toQueryMsg).1
    { m with search := { m.search with candidateSet := (nextGroup m.toQueryMsg).2 } }
  have gain := fun w : Weight n D => expandNodesTotal w x cfg me (nextGroup m.toQueryMsg).1
    { m with search := { m.search with candidateSet := (nextGroup m.toQueryMsg).2 } }
  generalize expanded : (nextGroup m.toQueryMsg).1.foldl (expandNode x cfg me)
    { m with search := { m.search with candidateSet := (nextGroup m.toQueryMsg).2 } } = e at grows routed posts kept gain
  have moved : Moves me e (postRemoteTask me e) := postRemoteTaskMoves e
  obtain ⟨add,micro,large,step,lb,msgs,sent,query,sched,plain,periodic,⟨cleared,sentMicro,sentLarge⟩,syncs⟩ :=
    periodicSyncEffect me (postRemoteTask me e)
  obtain ⟨micro',large',cnt,shape⟩ := grows
  rw [shape] at posts
  simp only at posts
  rw [posts] at shape
  have same : ∀ w : Weight n D, total w me (expandGroup x cfg me (nextGroup m.toQueryMsg).1
      { m with search := { m.search with candidateSet := (nextGroup m.toQueryMsg).2 } }) =
      total w me (periodicSync me { postRemoteTask me e with syncStep := (postRemoteTask me e).syncStep + 1 }) := by
    rw [expandGroup,expanded]
    exact fun _ => rfl
  have state : (periodicSync me { postRemoteTask me e with syncStep := (postRemoteTask me e).syncStep + 1 }).state =
      m.state := by
    rw [query]
    simp only [moved.query,shape]
  have rest : (expandGroup x cfg me (nextGroup m.toQueryMsg).1
      { m with search := { m.search with candidateSet := (nextGroup m.toQueryMsg).2 } }).toQueryMsg =
      { (periodicSync me { postRemoteTask me e with
        syncStep := (postRemoteTask me e).syncStep + 1 }).toQueryMsg with coro := .yielded } := by
    rw [expandGroup,expanded]
  have queues : (expandGroup x cfg me (nextGroup m.toQueryMsg).1
      { m with search := { m.search with candidateSet := (nextGroup m.toQueryMsg).2 } }).toSchedule =
      let next := periodicSync me { postRemoteTask me e with syncStep := (postRemoteTask me e).syncStep + 1 }
      { next.toSchedule with nextSubqueryQueue :=
          if next.state = .postStage then next.toSchedule.nextSubqueryQueue + 1 else next.toSchedule.nextSubqueryQueue } := by
    rw [expandGroup,expanded]
  simp only at queues
  have started : Routed x (nextGroup m.toQueryMsg).1 m.toQueryMsg (postRemoteTask me e).toQueryMsg := by
    rw [moved.query]
    refine Routed.trans ?_ routed
    exact routedSame x rfl rfl
  refine .expands micro large add step lb msgs sent top some' ?_ ?_ plain ?_ (fun w => ?_) ⟨?_,?_⟩
  · rw [rest,query]
    simp only [moved.query,shape]
    rfl
  · rw [queues,state,sched]
    simp only [moved.sched,kept]
  · cases periodic with
    | none early unchanged sent =>
      refine .none ?_ (unchanged.trans ?_) sent
      · simpa only [moved.query,shape] using early
      · simp only [moved.query,shape]
    | sync due cleared sent msgs cands bound every only =>
      refine .sync ?_ cleared sent msgs (cands.trans ?_) (bound.trans ?_) (fun p member other => every p ?_ other)
        (fun e member => ?_)
      · simpa only [moved.query,shape] using due
      · simp only [moved.query,shape]
      · simp only [moved.query,shape]
      · simpa only [moved.query,shape] using member
      · simpa only [moved.query,shape] using only e member
  · rw [same,syncs,moved.same,gain]
    rfl
  · rw [rest]
    exact started.trans ((cleared x _).trans (routedSame x rfl rfl))
  · exact started.trans (routedSame x sentMicro sentLarge)

theorem endQueryEffect {m e : Machine n D} (ending : Ends me m.toQueryMsg)
    (query : e.toQueryMsg = { m.toQueryMsg with globalTerm := true }) (sched : e.toSchedule = m.toSchedule)
    (same : ∀ w : Weight n D, total w me e = total w me m) : Effect x cfg me m (endQuery x cfg me e) := by
  have leader : e.leaderMachine = m.leaderMachine := by rw [query]
  have core : e.coreMachine = m.coreMachine := by rw [query]
  have search : e.search = m.search := by rw [query]
  have again : e.resumed = m.resumed := by rw [sched]
  simp only [endQuery,leader,again]
  split
  · rename_i migrates
    refine .ends (endFork { e.toQueryMsg with
        state := .ended, coro := .finished, search := { e.search with topCandidates := empty } }
        (e.result ++ labelled x cfg e.search.topCandidates)) empty ending ?_
      (fun c member => absurd member notMemEmpty) ?_ ⟨leader,core,rfl,?_⟩ (fun w => ?_)
    · simp only [query]
    · rw [if_pos (.inl migrates)]
      exact sched
    · intro c member
      obtain ⟨d,inside,rfl⟩ := List.mem_map.mp member
      obtain ⟨among,below⟩ := List.mem_filter.mp inside
      rw [← search]
      exact ⟨among,of_decide_eq_true below⟩
    · have sent := spreadPush (messageWeight w) e.wire cfg.originMachine [.query (endFork { e.toQueryMsg with
        state := .ended, coro := .finished, search := { e.search with topCandidates := empty } }
        (e.result ++ labelled x cfg e.search.topCandidates))]
      simp only [sumCons,sumNil,messageWeight] at sent
      rw [if_pos migrates,← same]
      simp only [total,readTotal,leader] at sent ⊢
      rw [sent]
      omega
  · rename_i stays
    have fork : ∀ c ∈ (endFork e.toQueryMsg []).candidateSet,
        (OrderDual.toDual c.1,c.2) ∈ m.search.candidateSet.elems ∧ c.1 < m.search.lowerBound := by
      intro c member
      obtain ⟨d,inside,rfl⟩ := List.mem_map.mp member
      obtain ⟨among,below⟩ := List.mem_filter.mp inside
      rw [← search]
      exact ⟨among,of_decide_eq_true below⟩
    split
    · rename_i looked
      refine .ends (endFork e.toQueryMsg []) m.search.candidateSet ending ?_ (fun c member => member) ?_
        ⟨leader,core,rfl,fork⟩ (fun w => ?_)
      · simp only [pushRet,query]
      · rw [if_neg (not_or.mpr ⟨stays,by rw [looked]; exact Bool.noConfusion⟩)]
        simp only [pushRet,sched,returned]
      · rw [if_neg stays,← same]
        rfl
    · rename_i unseen
      refine .ends (endFork e.toQueryMsg []) m.search.candidateSet ending ?_ (fun c member => member) ?_
        ⟨leader,core,rfl,fork⟩ (fun w => ?_)
      · simp only [query]
      · rw [if_pos (.inr (Bool.not_eq_true _ ▸ unseen))]
        exact sched
      · rw [if_neg stays,← same]
        rfl

theorem leaderTokenEffect {m : Machine n D} (leaves : Leaves m.toQueryMsg) (several : 1 < m.coreMachine.length)
    (holder : m.hasToken = true) (leader : m.leaderMachine = me) : Effect x cfg me m (leaderToken x cfg me m) := by
  unfold leaderToken
  simp only
  split
  · rename_i second
    simp only [Bool.and_eq_true,Bool.not_eq_true',Bool.or_eq_false_iff] at second
    refine endQueryEffect ⟨leaves,fun _ => ⟨holder,leader,second.1,?_⟩⟩ ?_ rfl (fun _ => rfl)
    · rw [failed,second.2.1,second.2.2]
      rfl
    · have search : ({ m.search with procIsBlack := false } : Search D) = m.search :=
        congrArg (fun b => ({ m.search with procIsBlack := b } : Search D)) second.2.2.symm
      exact congrArg₂ (fun s b => ({ m.toQueryMsg with search := s, tokenIsBlack := b, globalTerm := true } :
        QueryMsg n D)) search second.2.1.symm
  · rename_i going
    have taint : taintOf me m.toQueryMsg = false := if_pos leader
    have last : lastOf me m.toQueryMsg = !failed m.toQueryMsg := if_pos leader
    obtain ⟨query,sched,gain⟩ := propTokenEffect me (lastOf me m.toQueryMsg) (taintOf me m.toQueryMsg) (m := { m with
      search := { m.search with procIsBlack := false }
      tokenIsBlack := false
      lastIsWhite := !(m.tokenIsBlack || m.search.procIsBlack) }) holder taint.symm last.symm
    refine .passes leaves several holder (fun ending => ?_) query sched gain
    obtain ⟨_,_,white,clean⟩ := ending.second several
    rw [failed] at clean
    simp [white,clean] at going

theorem leaveEffect {m : Machine n D} (leaves : Leaves m.toQueryMsg) : Effect x cfg me m (leave x cfg me m) := by
  unfold leave
  split
  · rename_i several
    split
    · rename_i holder
      split
      · rename_i leader
        exact leaderTokenEffect leaves several holder leader
      · rename_i other
        have same : taintOf me m.toQueryMsg = failed m.toQueryMsg := if_neg other
        have last : lastOf me m.toQueryMsg = m.lastIsWhite := if_neg other
        obtain ⟨query,sched,gain⟩ := propTokenEffect me (lastOf me m.toQueryMsg) (taintOf me m.toQueryMsg) holder
          (by rw [same,failed,Bool.or_comm]) last.symm
        exact .passes leaves several holder (fun ending => other (ending.second several).2.1) query sched gain
    · rename_i without
      exact .pauses leaves several (Bool.not_eq_true _ ▸ without) rfl rfl (fun _ => rfl)
  · rename_i single
    exact endQueryEffect ⟨leaves,fun several => absurd several single⟩ rfl rfl (fun _ => rfl)

theorem loopTopEffect {m : Machine n D} (top : m.coro = .top) : Effect x cfg me m (loopTop x cfg me m) := by
  unfold loopTop
  simp only
  split
  · rename_i none'
    have noneLeft : (nextGroup m.toQueryMsg).1 = [] := List.isEmpty_iff.mp none'
    split
    · rename_i all
      split
      · rename_i post
        exact leaveEffect ⟨top,noneLeft,all,post⟩
      · rename_i notPost
        exact .idles top noneLeft notPost rfl rfl (fun _ => rfl)
    · rename_i waiting
      exact .rests top noneLeft (Bool.not_eq_true _ ▸ waiting) rfl rfl (fun _ => rfl)
  · rename_i some'
    exact expandGroupEffect top (fun none' => some' (List.isEmpty_iff.mpr none'))

theorem performEffect {op : Op} {m m' : Machine n D} (ok : perform x cfg me m op = some m') : Effect x cfg me m m' := by
  cases performed ok with
  | searchSub _ ok => exact searchSubEffect ok
  | poll running queue => exact pollEffect running queue
  | pollRead running queue => exact .wakes running (wakeQuery _) (wakeSchedule _) (fun w => recvTotal me w queue)
  | procQuery _ ok => exact procQueryEffect ok
  | procNodeTask _ _ ok => exact procNodeTaskEffect ok
  | postRemoteResTaskSync => exact .moves (postRemoteResTaskSyncMoves m)
  | procNodeRes running queue => exact procNodeResEffect running queue
  | procTask _ _ ok => exact procTaskEffect ok
  | postRemoteResult => exact .moves (postRemoteResultMoves _ m)
  | procResult running queue => exact .wakes running (wakeQuery _) (wakeSchedule _) (fun w => resultTotal me w queue)
  | procSubquery _ queue ok => exact procSubqueryEffect queue ok
  | swapTaskQueue _ idle => exact .swaps rfl idle.1 rfl (fun _ => rfl)
  | loopTop top => exact loopTopEffect top
  | stealTask queue => exact .moves (stealTaskMoves queue)
  | pushChunk queue => exact pushChunkEffect queue
  | completeRead found => exact .moves (completeReadMoves found)

/- Which operations move the coroutine: from the top of its loop only the loop. -/
theorem topOp {op : Op} {m m' : Machine n D} (ok : perform x cfg me m op = some m') (top : m.coro = .top) :
    op = .loopTop ∨ m'.toQueryMsg = m.toQueryMsg := by
  cases performed ok with
  | loopTop => exact .inl rfl
  | stealTask => exact .inr rfl
  | completeRead => exact .inr rfl
  | pushChunk => exact .inr rfl
  | _ => simp [perform,top] at ok

omit [Zero D] in
theorem wakeCoro (m : Machine n D) : (wake m).coro = m.coro := by
  unfold wake
  split <;> rfl

omit [Zero D] in
theorem deserializeCoro (m : Machine n D) (msg : Message n D) : (deserialize cfg me m msg).coro = m.coro := by
  cases msg with
  | sync msg => exact wakeCoro _
  | nodeSync ms =>
    simp only [deserialize]
    induction ms generalizing m with
    | nil => rfl
    | cons msg rest ih =>
      rw [List.foldl_cons,ih,wakeCoro]
      rfl
  | _ => rfl

/- The operations that run the coroutine. -/
def drives : Op → Bool
  | .searchSub => true
  | .procQuery => true
  | .procTask => true
  | .procSubquery => true
  | .loopTop => true
  | _ => false

theorem coroKept {op : Op} {m m' : Machine n D} (ok : perform x cfg me m op = some m') (other : drives op = false) :
    m'.coro = m.coro := by
  cases performed ok with
  | searchSub => cases other
  | procQuery => cases other
  | procTask => cases other
  | procSubquery => cases other
  | loopTop => cases other
  | stealTask => rfl
  | completeRead => rfl
  | pushChunk => rfl
  | poll => exact deserializeCoro _ _
  | pollRead => exact wakeCoro _
  | procNodeTask _ _ ok =>
    unfold procNodeTask at ok
    split at ok <;> try contradiction
    rename_i t rest queue
    split at ok <;> try contradiction
    obtain ⟨_,_,query,_,_⟩ := expandNodeTaskEffect x me t { m with curNodeQueue := rest }
    have moved := (mergedNodeResultMoves me t.machineId (expandNodeTask x me t { m with curNodeQueue := rest })).trans
      (mergedNodeSyncMoves me t.machineId _)
    cases Option.some.inj ok
    rw [moved.query,query]
  | postRemoteResTaskSync => rw [(postRemoteResTaskSyncMoves m : Moves me m _).query]
  | procNodeRes => exact wakeCoro _
  | postRemoteResult => rw [(postRemoteResultMoves _ m : Moves me m _).query]
  | procResult => exact wakeCoro _
  | swapTaskQueue => rfl

omit [Zero D] in
theorem procTaskCoro {m m' : Machine n D} (ok : procTask x cfg me m = some m') :
    (∃ t rest, m.curTaskQueue = t :: rest ∧ t.machineId = me ∧
      resumeCoro x cfg me { m with curTaskQueue := rest } = some m') ∨ m'.coro = m.coro := by
  unfold procTask at ok
  split at ok <;> try contradiction
  rename_i t rest queue
  split at ok
  · rename_i own
    exact .inl ⟨t,rest,queue,own,ok⟩
  · have moved := mergedResultMoves me t.machineId (computeTask x me t { m with curTaskQueue := rest })
    cases Option.some.inj ok
    right
    rw [moved.query]
    rfl

/- A coroutine that was never run is started by searchSub, which is for the origin, or
by procQuery. -/
theorem startOp {op : Op} {m m' : Machine n D} (ok : perform x cfg me m op = some m') (asleep : m.coro = .none)
    (away : me ≠ cfg.originMachine) : op = .procQuery ∨ m'.coro = .none := by
  have running : m.coro ≠ .top := by
    rw [asleep]
    exact Coro.noConfusion
  cases op with
  | procQuery => exact .inl rfl
  | searchSub => simp [perform,asleep,searchSub,away] at ok
  | loopTop => simp [perform,asleep] at ok
  | procTask =>
    simp only [perform,if_neg running] at ok
    rcases procTaskCoro ok with ⟨t,rest,_,_,resumed⟩ | same
    · simp [resumeCoro,asleep] at resumed
    · exact .inr (same.trans asleep)
  | procSubquery =>
    simp only [perform,if_neg running,procSubquery] at ok
    split at ok <;> try contradiction
    simp [resumeCoro,asleep] at ok
  | _ => exact .inr ((coroKept ok rfl).trans asleep)

/- A suspended coroutine goes on from the subquery queue, or with a task of its own. -/
theorem resumeOp {op : Op} {m m' : Machine n D} (ok : perform x cfg me m op = some m') (suspended : m.coro = .yielded)
    (old : m.isNew = false) (runs : m'.coro = .top) : op = .procSubquery ∨ ∃ t ∈ m.curTaskQueue, t.machineId = me := by
  have running : m.coro ≠ .top := by
    rw [suspended]
    exact Coro.noConfusion
  cases op with
  | procSubquery => exact .inl rfl
  | searchSub => simp [perform,suspended,searchSub] at ok
  | loopTop => simp [perform,suspended] at ok
  | procTask =>
    simp only [perform,if_neg running] at ok
    rcases procTaskCoro ok with ⟨t,rest,queue,own,_⟩ | same
    · exact .inr ⟨t,by rw [queue]; exact List.mem_cons_self,own⟩
    · exact absurd (same.symm.trans runs) running
  | procQuery =>
    simp only [perform,if_neg running,procQuery] at ok
    split at ok <;> try contradiction
    rw [old,if_neg Bool.false_ne_true] at ok
    cases Option.some.inj ok
    exact absurd runs running
  | _ => exact absurd ((coroKept ok rfl).symm.trans runs) running

/- Items that only the two decoders make. -/
structure Decoded (w : Weight n D) : Prop where
  query : ∀ p f, w.query p f = 0
  sync : ∀ p msg, w.sync p msg = 0
  result : ∀ p r, w.result p r = 0
  nodeResult : ∀ p r, w.nodeResult p r = 0
  chunk : ∀ p c, w.chunk p c = 0

/- Such items, and the chunks that the local tasks become. -/
structure Made (w : Weight n D) : Prop where
  query : ∀ p f, w.query p f = 0
  sync : ∀ p msg, w.sync p msg = 0
  result : ∀ p r, w.result p r = 0
  nodeResult : ∀ p r, w.nodeResult p r = 0
  chunk : ∀ p t found, w.chunk p ⟨t.isCount,found⟩ ≤ w.localTask p t

theorem madeLe {w : Weight n D} (kind : Made w) {m m' : Machine n D} (effect : Effect x cfg me m m')
    (noOwn : ∀ t : ComputeTask n D, t.machineId = me → ¬∀ w, w.task me t ≤ total w me m)
    (nodes : ∀ t : NodeTask n, (∀ w, w.nodeTask me t ≤ total w me m) → nodeGain w t (x.block t.nodeId) = 0)
    (expands : m.coro = .top → ∀ v, expandGain w x cfg me m.toQueryMsg v = 0) : total w me m' ≤ total w me m := by
  cases effect with
  | moves ok => exact (ok.same w).le
  | swaps query emptied sched same => exact (same w).le
  | waits msgs origin new idle outside forks query sched gain =>
    rw [gain,sumNone (fun e _ => kind.query _ _),Nat.add_zero]
  | opens msgs origin new idle inside forks query sched gain =>
    rw [gain,sumNone (fun e _ => kind.query _ _),Nat.add_zero]
  | merges g running query sched loss => rw [← loss w]; exact Nat.le_add_right _ _
  | syncs msg running query sched loss => rw [← loss w]; exact Nat.le_add_right _ _
  | nodeSyncs ms running query sched loss => rw [← loss w]; exact Nat.le_add_right _ _
  | wakes running query sched same => exact (same w).le
  | starts new queued query sched same => exact (same w).le
  | returns old queued query sched same => exact (same w).le
  | nodeTask t found other queued slice query sched change =>
    have changed := change w
    rw [nodes t queued,kind.nodeResult] at changed
    omega
  | task t found other queued slice query sched change =>
    have changed := change w
    rw [kind.result] at changed
    omega
  | ownTask t own queued => exact absurd queued (noOwn t own)
  | chunk t found queued slice query sched change =>
    have changed := change w
    have less := kind.chunk me t found
    omega
  | nodeResult r running queued query sched change =>
    have changed := change w
    rw [kind.result] at changed
    omega
  | resumes search suspended queued query sched changed idle loss => rw [← loss w]; exact Nat.le_add_right _ _
  | overruns finished queued query sched same => exact (same w).le
  | rests top noneLeft waiting query sched same => exact (same w).le
  | idles top noneLeft notPost query sched same => exact (same w).le
  | expands micro large add step lb msgs sent top some' query sched plain posted gain routed =>
    rw [gain,sumNone (fun v _ => expands top v),sumNone (fun e _ => kind.sync _ _),Nat.add_zero]
  | pauses leaves several without query sched same => exact (same w).le
  | passes leaves several holder going query sched gain => rw [gain,sumNone (fun e _ => kind.sync _ _),Nat.add_zero]
  | ends f cands ending query fewer sched fork gain => rw [gain,kind.query,ite_self,Nat.add_zero]

theorem decodedLe {w : Weight n D} (kind : Decoded w) {m m' : Machine n D} (effect : Effect x cfg me m m')
    (noOwn : ∀ t : ComputeTask n D, t.machineId = me → ¬∀ w, w.task me t ≤ total w me m)
    (nodes : ∀ t : NodeTask n, (∀ w, w.nodeTask me t ≤ total w me m) → nodeGain w t (x.block t.nodeId) = 0)
    (expands : m.coro = .top → ∀ v, expandGain w x cfg me m.toQueryMsg v = 0) : total w me m' ≤ total w me m :=
  madeLe ⟨kind.query,kind.sync,kind.result,kind.nodeResult,fun p _ _ => by rw [kind.chunk]; exact Nat.zero_le _⟩ effect
    noOwn nodes expands

omit [Zero D] in
theorem deliverSame {s t : Net n D} {a p : Fin n} (ok : deliver s a p = some t) (q : Fin n) :
    (t q).toQueryMsg = (s q).toQueryMsg ∧ (t q).toSchedule = (s q).toSchedule := by
  unfold deliver at ok
  split at ok <;> try contradiction
  split at ok <;> try contradiction
  rename_i other
  cases Option.some.inj ok
  rcases eq_or_ne q p with rfl | notP
  · rw [Function.update_self,Function.update_of_ne (Ne.symm other)]
    exact ⟨rfl,rfl⟩
  · rw [Function.update_of_ne notP]
    rcases eq_or_ne q a with rfl | notA
    · rw [Function.update_self]
      exact ⟨rfl,rfl⟩
    · rw [Function.update_of_ne notA]
      exact ⟨rfl,rfl⟩

/- A step of the net: an operation of one machine, or a delivery that no machine's
query and no total sees. -/
theorem stepCases {s t : Net n D} {act : Act n} (ok : step x cfg s act = some t) :
    (∃ a m', t = Function.update s a m' ∧ Effect x cfg a (s a) m') ∨
      ((∀ p, (t p).toQueryMsg = (s p).toQueryMsg ∧ (t p).toSchedule = (s p).toSchedule) ∧
        ∀ w : Weight n D, totalAll w t = totalAll w s) := by
  cases act with
  | host a op =>
    obtain ⟨m',done,rfl⟩ := Option.map_eq_some_iff.mp ok
    exact .inl ⟨a,m',rfl,performEffect done⟩
  | deliver a p => exact .inr ⟨deliverSame ok,fun w => deliverTotal w ok⟩

end CoTra.SubQueryEffects
