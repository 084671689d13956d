import CoTra.Token

/-! What a SYNC carries of the candidates that its sender accepted since the SYNC
before. SyncMsg::serialize leaves out what is above sync_msg.lower_bound; the
periodic sync sets this bound, the sync with the token uses the old one. -/
namespace CoTra.SyncFilter
open Runs Priority SubQuery Spread SubQueryTotals SubQueryDrain SubQueryEffects Roster CountedWork Token

variable {n : Nat} {D : Type} [Distance D]

/- The two calls of post_subquery_sync. -/
structure PostsPeriodic (q : QueryMsg n D) : Prop where
  top : q.coro = .top
  some' : (nextGroup q).1 ≠ []
  due : syncBar ≤ q.syncStep + 1

structure PostsToken (me : Fin n) (q : QueryMsg n D) : Prop where
  leaves : Leaves q
  several : 1 < q.coreMachine.length
  holder : q.hasToken = true
  going : ¬Ends me q

/- Every other core machine is sent what was accepted and is not beyond the bound. -/
def Shared (me : Fin n) (m m' : Machine n D) : Prop :=
  ∀ p ∈ m.coreMachine, p ≠ me → ∃ msgs msg, m'.wire p = m.wire p ++ msgs ∧ .sync msg ∈ msgs ∧
    ∀ c ∈ m.search.localAddCand, c.1 ≤ m.search.lowerBound → c ∈ msg.localAddCand

/- An accepted candidate between the bound of the last periodic sync and the bound now. -/
def Withheld (q : QueryMsg n D) : Prop :=
  ∃ c ∈ q.search.localAddCand, q.syncLowerBound < c.1 ∧ c.1 ≤ q.search.lowerBound

section Wire

variable (x : Index n D) (cfg : Config n D) (me : Fin n)

theorem postRemoteTaskWire (m : Machine n D) (p : Fin n) : ∃ msgs,
    (postRemoteTask me m).wire p = m.wire p ++ msgs := by
  simp only [postRemoteTask,postNodeRemoteTask]
  split
  · exact ⟨_,rfl⟩
  · exact ⟨[],(List.append_nil _).symm⟩

theorem postSyncsWire (nxt : Fin n) (propToken taint : Bool) (ps : List (Fin n)) (m : Machine n D) (p : Fin n) :
    (ps.foldl (postSync me nxt propToken taint) m).wire p = m.wire p ++
      ((syncs me nxt propToken m.hasToken ps).filter (fun e => e.1 = p)).map
        (fun e => .sync (syncMsg m.toQueryMsg e.2 taint)) := by
  induction ps generalizing m with
  | nil => simp [syncs]
  | cons q rest ih =>
    rw [List.foldl_cons,ih]
    simp only [postSync,syncs]
    split
    · rfl
    · rcases eq_or_ne q p with rfl | away
      · simp [List.append_assoc,syncMsg]
      · simp [Function.update_of_ne (Ne.symm away),away,syncMsg]

/- What the syncs to p carry, and that there is one. -/
theorem syncsShared (nxt : Fin n) (propToken held : Bool) {ps : List (Fin n)} {p : Fin n} (q : QueryMsg n D)
    (taint : Bool) (member : p ∈ ps) (other : p ≠ me) : ∃ e,
    Message.sync (syncMsg q e taint) ∈ ((syncs me nxt propToken held ps).filter (fun e => e.1 = p)).map
      (fun e => .sync (syncMsg q e.2 taint)) := by
  have every : ∃ e ∈ syncs me nxt propToken held ps, e.1 = p := syncsEvery me member other
  obtain ⟨e,among,at'⟩ := every
  exact ⟨e.2,List.mem_map_of_mem (List.mem_filter.mpr ⟨among,decide_eq_true at'⟩)⟩

end Wire

section Calls

variable {x : Index n D} {cfg : Config n D} {me : Fin n}

theorem periodicShared {m : Machine n D} (posts : PostsPeriodic m.toQueryMsg) : Shared me m (loopTop x cfg me m) := by
  have group : loopTop x cfg me m = expandGroup x cfg me (nextGroup m.toQueryMsg).1
      { m with search := { m.search with candidateSet := (nextGroup m.toQueryMsg).2 } } :=
    if_neg (fun none' => posts.some' (List.isEmpty_iff.mp none'))
  have grows := expandNodesGrows x cfg me (nextGroup m.toQueryMsg).1
    { m with search := { m.search with candidateSet := (nextGroup m.toQueryMsg).2 } }
  have wire := expandNodesFrame x cfg me Machine.wire (fun _ _ _ _ _ _ _ _ => rfl) (nextGroup m.toQueryMsg).1
    { m with search := { m.search with candidateSet := (nextGroup m.toQueryMsg).2 } }
  rw [group]
  simp only [expandGroup]
  generalize (nextGroup m.toQueryMsg).1.foldl (expandNode x cfg me)
    { m with search := { m.search with candidateSet := (nextGroup m.toQueryMsg).2 } } = e at grows wire ⊢
  have query : (postRemoteTask me e).toQueryMsg = e.toQueryMsg := (postRemoteTaskMoves e).query
  obtain ⟨micro,large,cnt,shape⟩ := grows
  rw [shape] at query
  have due : syncBar ≤ (postRemoteTask me e).syncStep + 1 := by
    rw [query]
    exact posts.due
  intro p member other
  obtain ⟨tasks,sent⟩ := postRemoteTaskWire me e p
  have last := postSyncsWire me (nxtPropM me (postRemoteTask me e).coreMachine) false false
    (postRemoteTask me e).coreMachine { postRemoteTask me e with
      syncStep := (postRemoteTask me e).syncStep + 1
      syncLowerBound := (postRemoteTask me e).search.lowerBound } p
  have inside : p ∈ (postRemoteTask me e).coreMachine := by
    rw [query]
    exact member
  obtain ⟨token,among⟩ := syncsShared me (nxtPropM me (postRemoteTask me e).coreMachine) false
    (postRemoteTask me e).hasToken { (postRemoteTask me e).toQueryMsg with
      syncStep := (postRemoteTask me e).syncStep + 1
      syncLowerBound := (postRemoteTask me e).search.lowerBound } false inside other
  refine ⟨_,_,?_,List.mem_append_right tasks among,fun c accepted within => ?_⟩
  · simp only [periodicSync,if_pos due,clearSync,postSubquerySync]
    rw [last,sent,wire,List.append_assoc]
  · refine List.mem_filter.mpr ⟨?_,decide_eq_true ?_⟩
    · rw [query]
      exact accepted
    · rw [query]
      exact within

theorem propTokenWire {m : Machine n D} (holder : m.hasToken = true) (p : Fin n) :
    (pauseQuery (propToken me m)).wire p = m.wire p ++
      ((syncs me (nxtPropM me m.coreMachine) true true m.coreMachine).filter (fun e => e.1 = p)).map
        (fun e => .sync (syncMsg m.toQueryMsg e.2 (m.search.procIsBlack || m.tokenIsBlack))) := by
  have wire := postSyncsWire me (nxtPropM me m.coreMachine) true (m.search.procIsBlack || m.tokenIsBlack) m.coreMachine
    { m with search := { m.search with procIsBlack := false }, tokenIsBlack := false } p
  simp only [holder] at wire
  simp only [pauseQuery,propToken,clearSync,postSubquerySync,holder,wire]
  rfl

/- The sync with the token, the leader's or another machine's. -/
theorem tokenWire (x : Index n D) (cfg : Config n D) {m : Machine n D} (posts : PostsToken me m.toQueryMsg) : ∃ q : QueryMsg n D, ∃ taint,
    q.search.localAddCand = m.search.localAddCand ∧ q.syncLowerBound = m.syncLowerBound ∧
    ∀ p, (loopTop x cfg me m).wire p = m.wire p ++
      ((syncs me (nxtPropM me m.coreMachine) true true m.coreMachine).filter (fun e => e.1 = p)).map
        (fun e => .sync (syncMsg q e.2 taint)) := by
  obtain ⟨leaves,several,holder,going⟩ := posts
  have left : loopTop x cfg me m = leave x cfg me m := by
    unfold loopTop
    simp only [show (popGroup m.search.lowerBound candGroupSize m.search.candidateSet).1 = [] from leaves.noneLeft,
      List.isEmpty_nil,if_true,leaves.allRecved,leaves.post]
  rw [left]
  simp only [leave,if_pos several,holder,if_true]
  split
  · rename_i leader
    refine ⟨{ m.toQueryMsg with
      search := { m.search with procIsBlack := false }
      tokenIsBlack := false
      lastIsWhite := !(m.tokenIsBlack || m.search.procIsBlack) },false,rfl,rfl,fun p => ?_⟩
    unfold leaderToken
    simp only
    split
    · rename_i second
      simp only [Bool.and_eq_true,Bool.not_eq_true'] at second
      exact absurd ⟨leaves,fun _ => ⟨holder,leader,second.1,second.2⟩⟩ going
    · exact propTokenWire (m := { m with
        search := { m.search with procIsBlack := false }
        tokenIsBlack := false
        lastIsWhite := !(m.tokenIsBlack || m.search.procIsBlack) }) holder p
  · exact ⟨m.toQueryMsg,_,rfl,rfl,propTokenWire holder⟩

theorem tokenShared {m : Machine n D} (posts : PostsToken me m.toQueryMsg) (peer : ∃ p ∈ m.coreMachine, p ≠ me) :
    Shared me m (loopTop x cfg me m) ↔ ¬Withheld m.toQueryMsg := by
  obtain ⟨q,taint,cands,bound,wire⟩ := tokenWire x cfg posts
  constructor
  · rintro shared ⟨c,accepted,above,within⟩
    obtain ⟨p,member,other⟩ := peer
    obtain ⟨msgs,msg,sent,among,all⟩ := shared p member other
    rw [wire p] at sent
    rw [← List.append_cancel_left sent] at among
    obtain ⟨e,_,same⟩ := List.mem_map.mp among
    cases same
    have below := of_decide_eq_true (List.mem_filter.mp (all c accepted within)).2
    rw [bound] at below
    exact absurd above (not_lt.mpr below)
  · intro none' p member other
    obtain ⟨token,among⟩ := syncsShared me (nxtPropM me m.coreMachine) true true q taint member other
    refine ⟨_,_,wire p,among,fun c accepted within => List.mem_filter.mpr ⟨?_,decide_eq_true ?_⟩⟩
    · rw [cands]
      exact accepted
    · rw [bound]
      by_contra above
      exact none' ⟨c,accepted,not_le.mp above,within⟩

theorem wokenSearch (q : QueryMsg n D) : (woken q).search = q.search := by
  unfold woken
  split <;> rfl

theorem candidateKept (cfg : Config n D) (add : List (D × Nat)) {s : Search D} (c : D × Nat)
    (kept : add <+: s.localAddCand) : add <+: (postProcCandidate cfg s c).localAddCand := by
  unfold postProcCandidate
  split
  · exact kept.trans (List.prefix_append _ _)
  · exact kept

variable [Zero D]

/- local_add_cand is the list of what was accepted since the last sync. -/
theorem acceptedKept {m m' : Machine n D} (effect : Effect x cfg me m m') (periodic : ¬PostsPeriodic m.toQueryMsg)
    (token : ¬PostsToken me m.toQueryMsg)
    (noOwn : ∀ t : ComputeTask n D, t.machineId = me → ¬∀ w, w.task me t ≤ total w me m) :
    m.search.localAddCand <+: m'.search.localAddCand := by
  have same : m'.search.localAddCand = m.search.localAddCand → m.search.localAddCand <+: m'.search.localAddCand := by
    intro same
    rw [same]
  cases effect with
  | moves ok => exact same (by rw [ok.query])
  | swaps query emptied sched total => exact same (by rw [query])
  | waits msgs origin new idle outside forks query sched gain => exact same (by rw [query]; rfl)
  | opens msgs origin new idle inside forks query sched gain => exact same (by rw [query]; rfl)
  | merges g running query sched loss => exact same (by rw [query]; rfl)
  | syncs msg running query sched loss => exact same (by rw [query,wokenSearch]; rfl)
  | nodeSyncs ms running query sched loss => exact same (by rw [query,nodeSyncedSearch])
  | wakes running query sched total => exact same (by rw [query,wokenSearch])
  | starts new queued query sched total => exact same (by rw [query]; rfl)
  | returns old queued query sched total => exact same (by rw [query])
  | nodeTask t found other queued slice query sched change => exact same (by rw [query])
  | task t found other queued slice query sched change => exact same (by rw [query])
  | ownTask t own queued => exact absurd queued (noOwn t own)
  | chunk t found queued slice query sched change => exact same (by rw [query])
  | nodeResult r running queued query sched change => exact same (by rw [query,wokenSearch])
  | resumes search suspended queued query sched changed idle loss =>
    rw [query]
    exact changed (fun t => m.search.localAddCand <+: t.localAddCand) (fun t c _ => candidateKept cfg _ c)
      (List.prefix_refl _)
  | overruns finished queued query sched total => exact same (by rw [query])
  | rests top noneLeft waiting query sched total => exact same (by rw [query])
  | idles top noneLeft notPost query sched total => exact same (by rw [query])
  | expands micro large add step lb msgs sent top some' query sched plain posted gain routed =>
    cases posted with
    | none early kept sent => exact same (by rw [query,kept])
    | sync due cleared sent msgs cands bound every => exact absurd ⟨top,some',due⟩ periodic
  | pauses leaves several without query sched total => exact same (by rw [query])
  | passes leaves several holder going query sched gain => exact absurd ⟨leaves,several,holder,going⟩ token
  | ends f cands ending query fewer sched fork gain => exact same (by rw [query])

end Calls

section Exact

variable {x : Index n D} {cfg : Config n D} {s t : Net n D} [Zero D]

theorem peerOf {core : List (Fin n)} (once : core.Nodup) (several : 1 < core.length) (a : Fin n) :
    ∃ p ∈ core, p ≠ a := by
  match core with
  | [] => exact absurd several (Nat.not_lt_zero 1)
  | [_] => exact absurd several (Nat.lt_irrefl 1)
  | p :: q :: rest =>
    rcases eq_or_ne p a with rfl | other
    · have apart := (List.nodup_cons.mp once).1
      refine ⟨q,List.mem_cons_of_mem _ List.mem_cons_self,fun same => apart ?_⟩
      rw [← same]
      exact List.mem_cons_self
    · exact ⟨p,List.mem_cons_self,other⟩

/- Between two syncs of a machine nothing is lost from local_add_cand, and a sync gives
all of it that is not beyond the bound to every other core machine, unless it is the
sync with the token and something lies between the two bounds. -/
theorem sharedExact {acts : List (Act n)} (ok : run (step x cfg) (start cfg) acts = some s) (a : Fin n) :
    (∀ act t, step x cfg s act = some t →
      ¬PostsPeriodic (s a).toQueryMsg → ¬PostsToken a (s a).toQueryMsg →
        (s a).search.localAddCand <+: (t a).search.localAddCand) ∧
    (PostsPeriodic (s a).toQueryMsg ∨ PostsToken a (s a).toQueryMsg → ∃ t, step x cfg s (.host a .loopTop) = some t ∧
      (Shared a (s a) (t a) ↔ (PostsToken a (s a).toQueryMsg → ¬Withheld (s a).toQueryMsg))) := by
  have passed := runPassed ok
  refine ⟨fun act t next periodic token => ?_,fun posts => ?_⟩
  · rcases stepCases next with ⟨b,m',rfl,effect⟩ | ⟨same,totals⟩
    · rcases eq_or_ne a b with rfl | away
      · rw [Function.update_self]
        exact acceptedKept effect periodic token (noOwnTask passed.counted a)
      · rw [Function.update_of_ne away]
    · rw [(same a).1]
  · have top : (s a).coro = .top := by
      rcases posts with posts | posts
      · exact posts.top
      · exact posts.leaves.top
    refine ⟨Function.update s a (loopTop x cfg a (s a)),?_,?_⟩
    · simp only [step,perform,top,if_true,Option.map_some]
    · rw [Function.update_self]
      rcases posts with posts | posts
      · have none' : ¬PostsToken a (s a).toQueryMsg := fun token => posts.some' token.leaves.noneLeft
        exact ⟨fun _ token => absurd token none',fun _ => periodicShared posts⟩
      · obtain ⟨_,core⟩ := holderCore passed top posts.holder
        have several := posts.several
        rw [core] at several
        have peer := peerOf cfg.coreNodup several a
        rw [← core] at peer
        rw [tokenShared posts peer]
        exact ⟨fun none' _ => none',fun none' => none' posts⟩

/- A chain 0, 2, 4, 6, 8 on the leader; the candidate 1 makes machine 1 a core, and machine 2
holds nothing. The fourth group brings the periodic sync, with the bound 5; then the bound
grows to 9 and the token takes vertex 8 along. -/
def chainIndex : Index 3 Nat where
  getMachineId v := if v % 2 = 0 then 0 else 1
  block v := if v < 8 then [.localNgh 1 (v + 2)] else []
  nghPtr _ ofs _ := [ofs]
  dist v := [5,1,4,0,3,0,2,0,9].getD v 0
  kmeansPosLabelMap v := v
  foreign v r member := by
    rcases Nat.lt_or_ge v 8 with small | large
    · rw [if_pos small] at member
      rw [List.mem_singleton.mp member]
      intro no
      cases no
    · rw [if_neg (Nat.not_lt.mpr large)] at member
      cases member

def chainConfig : Config 3 Nat where
  ef := 100
  resKnn := 2
  originMachine := 0
  leaderMachine := 0
  coreMachine := [0,1]
  coreNodup := bothOnce
  leaderCore := firstLeads
  enterpoint := (5,0)
  evaluated := [(1,1)]
  once := by decide
  unset := 0

def nextTurn : List (Act 3) := [.host 0 .loopTop,.host 0 .swapTaskQueue,.host 0 .procSubquery]

def chainRun : List (Act 3) := .host 0 .searchSub :: (nextTurn ++ nextTurn ++ nextTurn ++ nextTurn ++ nextTurn)

theorem sharedExactChain : ∃ s t, run (step chainIndex chainConfig) (start chainConfig)
      (.host 0 .searchSub :: (nextTurn ++ nextTurn ++ nextTurn)) = some s ∧
    step chainIndex chainConfig s (.host 0 .loopTop) = some t ∧ PostsPeriodic (s 0).toQueryMsg ∧
    Shared 0 (s 0) (t 0) := by
  have control : (run (step chainIndex chainConfig) (start chainConfig)
      (.host 0 .searchSub :: (nextTurn ++ nextTurn ++ nextTurn))).map (fun s =>
        ((s 0).coro,(nextGroup (s 0).toQueryMsg).1,(s 0).syncStep)) = some (.top,[6],3) := by decide +kernel
  obtain ⟨s,ok,value⟩ := Option.map_eq_some_iff.mp control
  simp only [Prod.mk.injEq] at value
  obtain ⟨top,group,steps⟩ := value
  have posts : PostsPeriodic (s 0).toQueryMsg := by
    refine ⟨top,?_,?_⟩
    · rw [group]
      decide
    · rw [steps]
      decide
  obtain ⟨t,next,exact'⟩ := (sharedExact ok 0).2 (.inl posts)
  exact ⟨s,t,ok,next,posts,exact'.mpr (fun token => absurd token.leaves.noneLeft posts.some')⟩

theorem tokenWithholds : ∃ s t, run (step chainIndex chainConfig) (start chainConfig) chainRun = some s ∧
    step chainIndex chainConfig s (.host 0 .loopTop) = some t ∧ PostsToken 0 (s 0).toQueryMsg ∧
    ¬Shared 0 (s 0) (t 0) := by
  have control : (run (step chainIndex chainConfig) (start chainConfig) chainRun).map (fun s =>
      ((s 0).coro,(nextGroup (s 0).toQueryMsg).1,allResultRecved (s 0).toQueryMsg,(s 0).state)) =
      some (.top,[],true,.postStage) := by decide +kernel
  have roster : (run (step chainIndex chainConfig) (start chainConfig) chainRun).map (fun s =>
      ((s 0).coreMachine,(s 0).hasToken,failed (s 0).toQueryMsg)) = some ([0,1],true,true) := by decide +kernel
  have bounds : (run (step chainIndex chainConfig) (start chainConfig) chainRun).map (fun s =>
      ((s 0).search.localAddCand,(s 0).syncLowerBound,(s 0).search.lowerBound)) = some ([(9,8)],5,9) := by decide +kernel
  obtain ⟨s,ok,value⟩ := Option.map_eq_some_iff.mp control
  simp only [ok,Option.map_some,Option.some.injEq,Prod.mk.injEq] at roster bounds value
  obtain ⟨top,none',all,post⟩ := value
  obtain ⟨core,holder,black⟩ := roster
  obtain ⟨cands,old,now⟩ := bounds
  have several : 1 < (s 0).coreMachine.length := by
    rw [core]
    decide
  have posts : PostsToken 0 (s 0).toQueryMsg := by
    refine ⟨⟨top,none',all,post⟩,several,holder,fun ending => ?_⟩
    have clean := (ending.second several).2.2.2
    rw [black] at clean
    cases clean
  refine ⟨s,Function.update s 0 (loopTop chainIndex chainConfig 0 (s 0)),ok,?_,posts,fun shared => ?_⟩
  · simp only [step,perform,top,if_true,Option.map_some]
  · rw [Function.update_self] at shared
    refine (tokenShared posts ⟨1,?_,by decide⟩).mp shared ⟨(9,8),?_,?_,?_⟩
    · rw [core]
      decide
    · rw [cands]
      exact List.mem_cons_self
    · rw [old]
      decide
    · rw [now]

end Exact

end CoTra.SyncFilter
