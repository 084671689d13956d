import CoTra.Token
import CoTra.Quiescence
import CoTra.ForkSync
import CoTra.Forwarding

/-! The end of a query with several core machines. The leader ends it when the token has
come back white twice. A machine is coloured when it accepts a candidate, so a white
machine has had nothing to do since it gave the token away; what was sent to it before
and has not arrived is seen by no colour. -/
namespace CoTra.Termination
open Runs Priority SubQuery Spread SubQueryTotals SubQueryDrain SubQueryEffects Roster CountedWork Token

variable {n : Nat} {D : Type} [Distance D]

/- A SYNC or NODE_SYNC for d with something for d. -/
def syncContent (d p : Fin n) (msg : SyncMsg n D) : Nat :=
  if p = d ∧ ¬(msg.localAddCand = [] ∧ msg.coreMicroNgh p = [] ∧ msg.coreLargeNgh p = []) then 1 else 0

def nodeContent (d p : Fin n) (msg : NonCoreSyncMsg n) : Nat :=
  if p = d ∧ ¬(msg.coreMicroNgh = [] ∧ msg.coreLargeNgh = []) then 1 else 0

def nodeWeight (g : Fin n → NonCoreSyncMsg n → Nat) : Weight n D := { blank with nodeSync := g }

-- Queued for d, on the wire to d, or in a receive queue of d.
def content (d : Fin n) (s : Net n D) : Nat :=
  totalAll (syncWeight (syncContent d)) s + totalAll (nodeWeight (nodeContent d)) s

variable (cfg : Config n D)

/- A white machine passes a white token on: the leader to start the second round, the
others in it. -/
structure PassesWhite (c : Fin n) (s : Net n D) : Prop where
  leaves : Leaves (s c).toQueryMsg
  several : 1 < (s c).coreMachine.length
  holder : (s c).hasToken = true
  white : failed (s c).toQueryMsg = false
  second : c = cfg.leaderMachine ∨ (s cfg.leaderMachine).lastIsWhite = true
  going : ¬Ends c (s c).toQueryMsg

instance (c : Fin n) (s : Net n D) : Decidable (PassesWhite cfg c s) :=
  decidable_of_iff (Leaves (s c).toQueryMsg ∧ 1 < (s c).coreMachine.length ∧ (s c).hasToken = true ∧
    failed (s c).toQueryMsg = false ∧ (c = cfg.leaderMachine ∨ (s cfg.leaderMachine).lastIsWhite = true) ∧
    ¬Ends c (s c).toQueryMsg) ⟨fun h => ⟨h.1,h.2.1,h.2.2.1,h.2.2.2.1,h.2.2.2.2.1,h.2.2.2.2.2⟩,
      fun h => ⟨h.leaves,h.several,h.holder,h.white,h.second,h.going⟩⟩

def Flushed (s : Net n D) : Act n → Prop
  | .host c .loopTop => PassesWhite cfg c s → content c s = 0
  | _ => True

theorem flushedIff (s : Net n D) (act : Act n) :
    (∀ c, act = .host c .loopTop → PassesWhite cfg c s → content c s = 0) ↔ Flushed cfg s act := by
  cases act with
  | deliver a p => simp [Flushed]
  | host c op => cases op <;> simp [Flushed]

instance (s : Net n D) (act : Act n) : Decidable (Flushed cfg s act) := decidable_of_iff _ (flushedIff cfg s act)

/- A message to p that brings nothing for the query. -/
def Workless (p : Fin n) : Message n D → Prop
  | .query _ => True
  | .sync msg => msg.localAddCand = [] ∧ msg.coreMicroNgh p = [] ∧ msg.coreLargeNgh p = []
  | .nodeSync ms => ∀ msg ∈ ms, msg.coreMicroNgh = [] ∧ msg.coreLargeNgh = []
  | .task ts ns => ts = [] ∧ ns = []
  | .result rs => rs = []
  | .nodeResult rs => rs = []

/- The search is over on all machines. -/
structure Terminated (s : Net n D) : Prop where
  candidates : ∀ d ∈ cfg.coreMachine, ∀ c ∈ (s d).search.candidateSet.elems,
    (s d).search.lowerBound < OrderDual.ofDual c.1
  locals : ∀ d ∈ cfg.coreMachine, (s d).localTask = [] ∧ (s d).localMicroTask = [] ∧ (s d).localRes = []
  wire : ∀ a p, ∀ msg ∈ (s a).wire p, Workless p msg
  rbuf : ∀ p k, ∀ msg ∈ (s p).rbuf k, Workless p msg
  tasks : ∀ a p, (s a).taskQueue p = [] ∧ (s a).nodeTaskQueue p = []
  results : ∀ a p, (s a).resultQueue p = [] ∧ (s a).nodeResultQueue p = []
  syncs : ∀ a p, ∀ msg ∈ (s a).noncoreSyncMsg p, msg.coreMicroNgh = [] ∧ msg.coreLargeNgh = []
  received : ∀ a, (s a).curTaskQueue = [] ∧ (s a).curNodeQueue = []

section Order

/- How many machines have had the token in a round before it is at c. The round starts
and ends with l. -/
def rank (core : List (Fin n)) (l c : Fin n) : Nat :=
  if core.idxOf l ≤ core.idxOf c then core.idxOf c - core.idxOf l else core.idxOf c + core.length - core.idxOf l

def place (core : List (Fin n)) (l c : Fin n) : Nat := if c = l then core.length else rank core l c

variable {core : List (Fin n)} {l a b : Fin n}

theorem rankLess (start : l ∈ core) (inside : a ∈ core) : rank core l a < core.length := by
  have bound := List.idxOf_lt_length_of_mem inside
  have bound' := List.idxOf_lt_length_of_mem start
  unfold rank
  split <;> omega

theorem rankInj (start : l ∈ core) (inside : a ∈ core) (inside' : b ∈ core) (same : rank core l a = rank core l b) :
    a = b := by
  have bound := List.idxOf_lt_length_of_mem inside
  have bound' := List.idxOf_lt_length_of_mem inside'
  have bound'' := List.idxOf_lt_length_of_mem start
  have index : core.idxOf a = core.idxOf b := by
    unfold rank at same
    split at same <;> split at same <;> omega
  rw [← List.getElem_idxOf bound,← List.getElem_idxOf bound']
  simp only [index]

theorem nextIdx (once : core.Nodup) (inside : a ∈ core) :
    nxtPropM a core ∈ core ∧ core.idxOf (nxtPropM a core) = (core.idxOf a + 1) % core.length := by
  have bound := List.idxOf_lt_length_of_mem inside
  have next : (core.idxOf a + 1) % core.length < core.length := Nat.mod_lt _ (by omega)
  have at' : nxtPropM a core = core[(core.idxOf a + 1) % core.length] := by
    rw [nxtPropM,List.getD_eq_getElem?_getD,List.getElem?_eq_getElem next]
    rfl
  rw [at']
  exact ⟨List.getElem_mem next,List.Nodup.idxOf_getElem once _ next⟩

-- The token goes to the machine behind, and from the last one back to l.
theorem placeNext (once : core.Nodup) (start : l ∈ core) (inside : a ∈ core) :
    place core l (nxtPropM a core) = rank core l a + 1 := by
  obtain ⟨member,index⟩ := nextIdx once inside
  have bound := List.idxOf_lt_length_of_mem inside
  have bound' := List.idxOf_lt_length_of_mem start
  have wraps : (core.idxOf a + 1) % core.length = if core.idxOf a + 1 = core.length then 0 else core.idxOf a + 1 := by
    split
    · rename_i last
      rw [last,Nat.mod_self]
    · exact Nat.mod_eq_of_lt (by omega)
  rw [wraps] at index
  unfold place
  split
  · rename_i back
    rw [back] at index
    unfold rank
    split at index <;> split <;> omega
  · rename_i away
    have apart : core.idxOf (nxtPropM a core) ≠ core.idxOf l := by
      intro same
      apply away
      rw [← List.getElem_idxOf (List.idxOf_lt_length_of_mem member),← List.getElem_idxOf bound']
      simp only [same]
    unfold rank
    split at index <;> split <;> split <;> omega

end Order

section Bound

variable {cfg}

/- The bound is not below a top candidate, and as long as there is room for candidates
none of them is behind all top candidates. -/
structure Bounded (cfg : Config n D) (s : Search D) : Prop where
  top : ∀ t ∈ s.topCandidates.elems, t.1 ≤ s.lowerBound
  room : size s.topCandidates < cfg.ef → ∀ c ∈ s.candidateSet.elems,
    ∃ t ∈ s.topCandidates.elems, OrderDual.ofDual c.1 ≤ t.1

/- No candidate is left within the bound, and none can come within it when it grows. -/
structure Rested (cfg : Config n D) (s : Search D) : Prop where
  beyond : ∀ c ∈ s.candidateSet.elems, s.lowerBound < OrderDual.ofDual c.1
  few : size s.topCandidates < cfg.ef → s.candidateSet.elems = []
  cands : s.localAddCand = []

theorem topBoundLargest {q : PQueue D Nat} {old : D} {c : D × Nat} (member : c ∈ q.elems) : c.1 ≤ topBound q old := by
  unfold topBound
  split
  · rename_i first at'
    exact topLargest at' c member
  · rename_i none'
    rw [topNone none'] at member
    cases member

theorem topBoundLe {q : PQueue D Nat} {old bound : D} (all : ∀ c ∈ q.elems, c.1 ≤ bound) (le : old ≤ bound) :
    topBound q old ≤ bound := by
  unfold topBound
  split
  · rename_i first at'
    exact all first (topMem at')
  · exact le

-- With room left nothing was dropped.
theorem popToRoom {k : Nat} {q : PQueue D Nat} (room : size (popTo k q) < k) : size q < k ∧ popTo k q = q := by
  rw [sizePopTo] at room
  have less : size q < k := by omega
  exact ⟨less,popToAll less.le⟩

theorem candidateBounded {s : Search D} (ok : Bounded cfg s) (c : D × Nat) : Bounded cfg (postProcCandidate cfg s c) := by
  unfold postProcCandidate
  split
  · refine ⟨fun t member => topBoundLargest member,fun room => ?_⟩
    obtain ⟨less,whole⟩ := popToRoom room
    rw [sizePush] at less
    simp only [whole]
    intro d member
    rcases memPush.mp member with rfl | old
    · exact ⟨c,memPush.mpr (.inl rfl),le_rfl⟩
    · obtain ⟨t,among,le⟩ := ok.room (by omega) d old
      exact ⟨t,memPush.mpr (.inr among),le⟩
  · exact ok

theorem restedWhenNone {s : Search D} (ok : Bounded cfg s)
    (beyond : ∀ c ∈ s.candidateSet.elems, s.lowerBound < OrderDual.ofDual c.1) (cands : s.localAddCand = []) :
    Rested cfg s := by
  refine ⟨beyond,fun room => List.eq_nil_iff_forall_not_mem.mpr (fun c member => ?_),cands⟩
  obtain ⟨t,among,le⟩ := ok.room room c member
  exact absurd ((beyond c member).trans_le (le.trans (ok.top t among))) (lt_irrefl _)

theorem mergeKeeps (bound : D) (cs : List (D × Nat)) {q : PQueue D Nat} {z : D × Nat} (member : z ∈ q.elems) :
    z ∈ (ForkSync.merge cfg cs bound q).elems := by
  induction cs generalizing q with
  | nil => exact member
  | cons c rest ih =>
    have step : ForkSync.merge cfg (c :: rest) bound q = ForkSync.merge cfg rest bound (addCand cfg c bound q) := rfl
    rw [step]
    refine ih ?_
    unfold addCand
    split
    · exact memPush.mpr (.inr member)
    · exact member

/- What a SYNC does to the search. -/
def synced (cfg : Config n D) (cs : List (D × Nat)) (s : Search D) : Search D :=
  let topCandidates := popTo cfg.ef (ForkSync.merge cfg cs s.lowerBound s.topCandidates)
  { s with topCandidates := topCandidates, lowerBound := topBound topCandidates s.lowerBound }

theorem syncedBounded {s : Search D} (ok : Bounded cfg s) (cs : List (D × Nat)) : Bounded cfg (synced cfg cs s) := by
  refine ⟨fun t member => topBoundLargest member,fun room => ?_⟩
  obtain ⟨less,whole⟩ := popToRoom room
  have grows := ForkSync.mergeGrows cfg s.lowerBound cs s.topCandidates
  intro c member
  obtain ⟨t,among,le⟩ := ok.room (by omega) c member
  simp only [synced,whole]
  exact ⟨t,mergeKeeps _ cs among,le⟩

/- A full queue lets the bound only shrink, and without candidates it may grow. -/
theorem syncedRested {s : Search D} (ok : Bounded cfg s) (rested : Rested cfg s) (cs : List (D × Nat)) :
    Rested cfg (synced cfg cs s) := by
  have grows := ForkSync.mergeGrows cfg s.lowerBound cs s.topCandidates
  rcases Nat.lt_or_ge (size s.topCandidates) cfg.ef with room | full
  · have none' := rested.few room
    refine ⟨fun c member => ?_,fun _ => none',rested.cands⟩
    simp only [synced,none'] at member
    cases member
  · have below : ∀ t ∈ (popTo cfg.ef (ForkSync.merge cfg cs s.lowerBound s.topCandidates)).elems, t.1 ≤ s.lowerBound := by
      intro t member
      have inside := memPopTo member
      rw [ForkSync.mergeFull full,memPushAll] at inside
      rcases inside with old | new
      · exact ok.top t old
      · exact (of_decide_eq_true (List.mem_filter.mp new).2).le
    refine ⟨fun c member => ?_,fun room => ?_,rested.cands⟩
    · exact (topBoundLe below le_rfl).trans_lt (rested.beyond c member)
    · obtain ⟨less,_⟩ := popToRoom room
      omega

-- Without a candidate within the bound none is popped.
theorem restedNone {q : QueryMsg n D} (rested : Rested cfg q.search) : (nextGroup q).1 = [] := by
  unfold nextGroup candGroupSize popGroup
  split
  · rfl
  · rename_i d v first
    rw [if_pos (rested.beyond (d,v) (topMem first))]

theorem preStageTop : ∀ t ∈ (preStage cfg).preTopCand.elems, t.1 ≤ (preStage cfg).lowerBound := by
  have all : ∀ (cs : List (D × Nat)) (s : PreStage D), (∀ t ∈ s.preTopCand.elems, t.1 ≤ s.lowerBound) →
      ∀ t ∈ (cs.foldl (topProcCandidate cfg.ef) s).preTopCand.elems,
        t.1 ≤ (cs.foldl (topProcCandidate cfg.ef) s).lowerBound := by
    intro cs
    induction cs with
    | nil => exact fun s ok => ok
    | cons c rest ih =>
      refine fun s ok => ih _ ?_
      unfold topProcCandidate
      split
      · exact fun t member => topBoundLargest member
      · exact ok
  refine all _ _ (fun t member => ?_)
  rcases memPush.mp member with rfl | none'
  · exact le_rfl
  · exact absurd none' notMemEmpty

theorem filterredTop (x : Index n D) {p : Fin n} {c : D × Nat} (member : c ∈ filterred x cfg p) :
    c ∈ (preStage cfg).preTopCand.elems := by
  unfold filterred at member
  split at member
  · rcases List.mem_append.mp member with own | other
    · exact List.mem_of_mem_filter own
    · obtain ⟨q,_,inside⟩ := List.mem_flatMap.mp other
      exact List.mem_of_mem_filter inside
  · exact List.mem_of_mem_filter member

/- What the origin makes of the search, and what a fork makes of it. -/
theorem openedBounded (s : Search D) (cands : PQueue Dᵒᵈ Nat)
    (among : ∀ c ∈ cands.elems, (OrderDual.ofDual c.1,c.2) ∈ (preStage cfg).preTopCand.elems) :
    Bounded cfg { s with
      lowerBound := (preStage cfg).lowerBound, topCandidates := (preStage cfg).preTopCand, candidateSet := cands } :=
  ⟨preStageTop,fun _ c member => ⟨_,among c member,le_rfl⟩⟩

theorem forkedBounded (x : Index n D) (p : Fin n) (result : List (D × Nat)) (q : QueryMsg n D) :
    Bounded cfg (merged (forked x cfg p result) q).search := by
  refine ⟨fun t member => ?_,fun _ c member => ?_⟩
  · rcases memPushAll.mp member with none' | inside
    · exact absurd none' notMemEmpty
    · exact preStageTop t inside
  · rcases memPushAll.mp member with none' | inside
    · exact absurd none' notMemEmpty
    · obtain ⟨d,own,rfl⟩ := List.mem_map.mp inside
      exact ⟨d,memPushAll.mpr (.inr (filterredTop x own)),le_rfl⟩

end Bound

section Steps

variable (x : Index n D) (me : Fin n) [Zero D]

/- What the token and the coming work depend on, apart from the search. -/
def protocol (q : QueryMsg n D) : (Fin n → List Nat) × (Fin n → List (Nat × Nat)) × List LocalTask × List Nat ×
    Bool × Bool × Bool :=
  (q.coreMicroNgh,q.coreLargeNgh,q.localTask,q.localMicroTask,q.hasToken,q.tokenIsBlack,q.lastIsWhite)

inductive TermStep (m m' : Machine n D) : Prop
  | keeps (search : m'.search = m.search) (same : protocol m'.toQueryMsg = protocol m.toQueryMsg)
      (counts : counters m'.toQueryMsg = counters m.toQueryMsg ∨ ∃ r : NodeResult D, ∀ w, w.nodeResult me r ≤ total w me m)
      (new : m'.isNew = m.isNew) (coro : m'.coro = m.coro ∨ live m.coro = true ∧ m'.coro = .yielded)
      (syncs : ∀ f, total (syncWeight f) me m' = total (syncWeight f) me m)
      (nodes : ∀ g, total (nodeWeight g) me m' = total (nodeWeight g) me m)
  | begins (new : m.isNew = true) (old : m'.isNew = false) (black : m'.search.procIsBlack = m.search.procIsBlack)
      (last : m'.lastIsWhite = m.lastIsWhite ∧ m'.tokenIsBlack = m.tokenIsBlack)
      (token : m'.hasToken = m.hasToken ∨ me = cfg.leaderMachine ∨ 0 < m.queryQueue ∧ m.leaderMachine = me)
      (bounded : Bounded cfg m.search → (me = cfg.originMachine → m.search.candidateSet.elems = []) →
        Bounded cfg m'.search)
      (syncs : ∀ f, total (syncWeight f) me m' = total (syncWeight f) me m)
      (nodes : ∀ g, total (nodeWeight g) me m' = total (nodeWeight g) me m)
  | merges (g : QueryFork n D) (queued : ∀ w, w.query me g ≤ total w me m)
      (search : m'.search = (merged g m.toQueryMsg).search) (same : protocol m'.toQueryMsg = protocol m.toQueryMsg)
      (new : m'.isNew = m.isNew) (coro : m'.coro = m.coro)
      (syncs : ∀ f, total (syncWeight f) me m' = total (syncWeight f) me m)
      (nodes : ∀ g, total (nodeWeight g) me m' = total (nodeWeight g) me m)
  | receives (msg : SyncMsg n D) (running : m.coro ≠ .top)
      (query : m'.toQueryMsg = woken (updateSubQuery cfg me msg m.toQueryMsg))
      (syncs : ∀ f, total (syncWeight f) me m' + f me msg = total (syncWeight f) me m)
      (nodes : ∀ g, total (nodeWeight g) me m' = total (nodeWeight g) me m)
  | fetches (ms : List (NonCoreSyncMsg n)) (running : m.coro ≠ .top)
      (query : m'.toQueryMsg = nodeSynced ms m.toQueryMsg)
      (syncs : ∀ f, total (syncWeight f) me m' = total (syncWeight f) me m)
      (nodes : ∀ g, total (nodeWeight g) me m' + sumOf (g me) ms = total (nodeWeight g) me m)
  | delegated (t : NodeTask n) (queued : ∀ w, w.nodeTask me t ≤ total w me m) (query : m'.toQueryMsg = m.toQueryMsg)
      (syncs : ∀ f, total (syncWeight f) me m' = total (syncWeight f) me m)
      (nodes : ∀ g, total (nodeWeight g) me m' =
        total (nodeWeight g) me m + nodeGain (nodeWeight g : Weight n D) t (x.block t.nodeId))
  | resumes (search : Search D) (suspended : m.coro = .yielded)
      (query : m'.toQueryMsg = { m.toQueryMsg with
        search := search
        recvCnt := m.recvCnt + received m
        nocoreRecv := m.nocoreRecv + sumOf ResultMsg.nocoreCnt m.localRes
        localTask := []
        localMicroTask := []
        coro := .top })
      (changed : ByCandidates cfg (Offered x me m) m.search search) (idle : Idle m → search = m.search)
      (loss : ∀ w, total w me m' + consumed me w m = total w me m)
  | expands (sent : QueryMsg n D) (msgs : List (Fin n × Bool)) (top : m.coro = .top) (coro : m'.coro = .yielded)
      (some' : (nextGroup m.toQueryMsg).1 ≠ [])
      (search : ∃ add, m'.search = { m.search with candidateSet := (nextGroup m.toQueryMsg).2, localAddCand := add })
      (token : m'.hasToken = m.hasToken ∧ m'.tokenIsBlack = m.tokenIsBlack ∧ m'.lastIsWhite = m.lastIsWhite)
      (new : m'.isNew = m.isNew) (plain : ∀ e ∈ msgs, e.2 = false) (only : ∀ e ∈ msgs, e.1 ∈ m.coreMachine)
      (syncs : ∀ f, total (syncWeight f) me m' = total (syncWeight f) me m +
        sumOf (fun e => f e.1 (syncMsg sent e.2 false)) msgs)
      (nodes : ∀ g, total (nodeWeight g) me m' = total (nodeWeight g) me m)
  | passes (leaves : Leaves m.toQueryMsg) (several : 1 < m.coreMachine.length) (holder : m.hasToken = true)
      (going : ¬Ends me m.toQueryMsg) (query : m'.toQueryMsg = passed (lastOf me m.toQueryMsg) m.toQueryMsg)
      (syncs : ∀ f, total (syncWeight f) me m' = total (syncWeight f) me m +
        sumOf (fun e => f e.1 (syncMsg m.toQueryMsg e.2 (taintOf me m.toQueryMsg)))
          (SubQueryTotals.syncs me (nxtPropM me m.coreMachine) true true m.coreMachine))
      (nodes : ∀ g, total (nodeWeight g) me m' = total (nodeWeight g) me m)
  | ends (ending : Ends me m.toQueryMsg) (coro : m'.coro = .finished) (new : m'.isNew = m.isNew)
      (syncs : ∀ f, total (syncWeight f) me m' = total (syncWeight f) me m)
      (nodes : ∀ g, total (nodeWeight g) me m' = total (nodeWeight g) me m)

variable {cfg x me}

theorem keepsQuery {m m' : Machine n D} {q : QueryMsg n D} (query : m'.toQueryMsg = q) (search : q.search = m.search)
    (same : protocol q = protocol m.toQueryMsg) (counts : counters q = counters m.toQueryMsg) (new : q.isNew = m.isNew)
    (coro : q.coro = m.coro ∨ live m.coro = true ∧ q.coro = .yielded)
    (syncs : ∀ f, total (syncWeight f) me m' = total (syncWeight f) me m)
    (nodes : ∀ g, total (nodeWeight g) me m' = total (nodeWeight g) me m) : TermStep cfg x me m m' := by
  subst query
  exact .keeps search same (.inl counts) new coro syncs nodes

omit [Zero D] in
theorem wokenProtocol (q : QueryMsg n D) : (woken q).search = q.search ∧ protocol (woken q) = protocol q ∧
    counters (woken q) = counters q ∧ (woken q).isNew = q.isNew ∧ (woken q).coro = q.coro := by
  unfold woken
  split <;> exact ⟨rfl,rfl,rfl,rfl,rfl⟩

omit [Zero D] in
theorem expandsNoNode (g : Fin n → NonCoreSyncMsg n → Nat) (q : QueryMsg n D) (vs : List Nat) :
    sumOf (expandGain (nodeWeight g) x cfg me q) vs = 0 := by
  refine sumNone (fun v _ => ?_)
  unfold expandGain
  split
  · rfl
  · exact lbGainZero me (fun _ _ _ => rfl) (fun _ _ _ _ _ _ => rfl) (fun _ _ _ _ _ => rfl)

theorem termStep {m m' : Machine n D} (effect : Effect x cfg me m m')
    (noOwn : ∀ t : ComputeTask n D, t.machineId = me → ¬∀ w, w.task me t ≤ total w me m) : TermStep cfg x me m m' := by
  cases effect with
  | moves ok =>
    exact keepsQuery ok.query rfl rfl rfl rfl (.inl rfl) (fun f => ok.same _) (fun g => ok.same _)
  | swaps query emptied sched same =>
    exact keepsQuery query rfl rfl rfl rfl (.inl rfl) (fun f => same _) (fun g => same _)
  | waits msgs origin new idle outside forks query sched gain =>
    refine .begins new (by rw [query]; rfl) (by rw [query]; rfl) (by rw [query]; exact ⟨rfl,rfl⟩)
      (.inl (by rw [query]; rfl)) (fun _ fresh' => ?_) (fun f => ?_) (fun g => ?_)
    · rw [query]
      refine openedBounded m.search m.search.candidateSet (fun c member => ?_)
      rw [fresh' origin] at member
      cases member
    · rw [gain]
      exact congrArg _ (sumNone (fun _ _ => rfl))
    · rw [gain]
      exact congrArg _ (sumNone (fun _ _ => rfl))
  | opens msgs origin new idle inside forks query sched gain =>
    have token : m'.hasToken = m.hasToken ∨ me = cfg.leaderMachine := by
      rcases eq_or_ne cfg.leaderMachine me with leader | other
      · exact .inr leader.symm
      · rw [query]
        simp [openedCore,enterPostStage,other]
    refine .begins new (by rw [query]; rfl) (by rw [query]; rfl) (by rw [query]; exact ⟨rfl,rfl⟩)
      (token.imp_right .inl) (fun _ fresh' => ?_) (fun f => ?_) (fun g => ?_)
    · rw [query]
      refine openedBounded m.search _ (fun c member => ?_)
      rcases memPushAll.mp member with old | own
      · rw [fresh' origin] at old
        cases old
      · obtain ⟨d,among,rfl⟩ := List.mem_map.mp own
        exact filterredTop x among
    · rw [gain]
      exact congrArg _ (sumNone (fun _ _ => rfl))
    · rw [gain]
      exact congrArg _ (sumNone (fun _ _ => rfl))
  | merges g running query sched loss =>
    refine .merges g (fun w => ?_) (by rw [query]) (by rw [query]; rfl) (by rw [query]; rfl) (by rw [query]; rfl)
      (fun f => loss (syncWeight f)) (fun g' => loss (nodeWeight g'))
    rw [← loss w]
    exact Nat.le_add_left _ _
  | syncs msg running query sched loss =>
    exact .receives msg running query (fun f => loss (syncWeight f)) (fun g => loss (nodeWeight g))
  | nodeSyncs ms running query sched loss =>
    refine .fetches ms running query (fun f => ?_) (fun g => loss (nodeWeight g))
    have change := loss (syncWeight f)
    rwa [show sumOf ((syncWeight f).nodeSync me) ms = 0 from sumNone (fun _ _ => rfl),Nat.add_zero] at change
  | wakes running query sched same =>
    obtain ⟨search,rest,counts,new,coro⟩ := wokenProtocol m.toQueryMsg
    exact keepsQuery query search rest counts new (.inl coro) (fun f => same _) (fun g => same _)
  | starts new queued query sched same =>
    have token : m'.hasToken = m.hasToken ∨ m.leaderMachine = me := by
      rcases eq_or_ne m.leaderMachine me with leader | other
      · exact .inr leader
      · rw [query]
        simp [enterPostStage,other]
    exact .begins new (by rw [query]; rfl) (by rw [query]; rfl) (by rw [query]; exact ⟨rfl,rfl⟩)
      (token.imp_right (fun leader => .inr ⟨queued,leader⟩)) (fun bounded _ => by rw [query]; exact bounded)
      (fun f => same _) (fun g => same _)
  | returns old queued query sched same =>
    exact keepsQuery query rfl rfl rfl rfl (.inl rfl) (fun f => same _) (fun g => same _)
  | nodeTask t found other queued slice query sched change =>
    refine .delegated t queued query (fun f => ?_) (fun g => change (nodeWeight g))
    have changed := change (syncWeight f)
    rwa [nodeNoSync] at changed
  | task t found other queued slice query sched change =>
    exact keepsQuery query rfl rfl rfl rfl (.inl rfl) (fun f => change (syncWeight f)) (fun g => change (nodeWeight g))
  | ownTask t own queued => exact absurd queued (noOwn t own)
  | chunk t found queued slice query sched change =>
    exact keepsQuery query rfl rfl rfl rfl (.inl rfl) (fun f => change (syncWeight f)) (fun g => change (nodeWeight g))
  | nodeResult r running queued query sched change =>
    obtain ⟨search,rest,counts,new,coro⟩ := wokenProtocol { m.toQueryMsg with nocorePost := m.nocorePost + r.postCnt }
    refine .keeps ?_ ?_ (.inr ⟨r,queued⟩) ?_ (.inl ?_) (fun f => change (syncWeight f)) (fun g => change (nodeWeight g))
    · rw [query,search]
    · rw [query,rest]
      rfl
    · rw [query,new]
    · rw [query,coro]
  | resumes search suspended queued query sched changed idle loss =>
    exact .resumes search suspended query changed idle loss
  | overruns finished queued query sched same =>
    exact keepsQuery query rfl rfl rfl rfl (.inl rfl) (fun f => same _) (fun g => same _)
  | rests top noneLeft waiting query sched same =>
    exact keepsQuery query rfl rfl rfl rfl (.inr ⟨by rw [top]; rfl,rfl⟩) (fun f => same _) (fun g => same _)
  | idles top noneLeft notPost query sched same =>
    exact keepsQuery query rfl rfl rfl rfl (.inr ⟨by rw [top]; rfl,rfl⟩) (fun f => same _) (fun g => same _)
  | expands micro large add step lb msgs sent top some' query sched plain posted gain routed =>
    refine .expands sent msgs top (by rw [query]) some' ⟨add,by rw [query]⟩ ?_ (by rw [query]) plain ?_
      (fun f => ?_) (fun g => ?_)
    · rw [query]
      exact ⟨rfl,rfl,rfl⟩
    · cases posted with
      | none early kept sent => exact fun e member => absurd member List.not_mem_nil
      | sync due cleared sent msgs cands bound every only => exact only
    · rw [gain,expandsNoSync,Nat.add_zero]
      rfl
    · rw [gain,expandsNoNode,Nat.add_zero]
      exact congrArg _ (sumNone (fun _ _ => rfl))
  | pauses leaves several without query sched same =>
    exact keepsQuery query rfl rfl rfl rfl (.inr ⟨by rw [leaves.top]; rfl,rfl⟩) (fun f => same _) (fun g => same _)
  | passes leaves several holder going query sched gain =>
    refine .passes leaves several holder going query (fun f => gain _) (fun g => ?_)
    rw [gain]
    exact congrArg _ (sumNone (fun _ _ => rfl))
  | ends f cands ending query fewer sched fork gain =>
    refine .ends ending (by rw [query]) (by rw [query]) (fun f => ?_) (fun g => ?_)
    · rw [gain]
      exact congrArg _ (ite_self 0)
    · rw [gain]
      exact congrArg _ (ite_self 0)

end Steps

section Invariant

variable (x : Index n D)

structure Passive (q : QueryMsg n D) : Prop where
  rested : Rested cfg q.search
  lists : ∀ p, q.coreMicroNgh p = [] ∧ q.coreLargeNgh p = []
  even : q.recvCnt = q.postCnt ∧ q.nocorePost = q.nocoreRecv

-- A white token at c, or on its way to c.
def whiteTo (c p : Fin n) (msg : SyncMsg n D) : Nat :=
  if p = c then (msg.updateTerm && (msg.hasToken && !msg.tokenIsBlack)).toNat else 0

def whiteAt (c : Fin n) (s : Net n D) : Nat :=
  ((s c).hasToken && !(s c).tokenIsBlack).toNat + totalAll (syncWeight (whiteTo c)) s

/- The second round can still succeed: the token is white at c or coming to it, and so is
every machine that it has not left yet. -/
structure Final (c : Fin n) (s : Net n D) : Prop where
  second : (s cfg.leaderMachine).lastIsWhite = true
  leader : (s cfg.leaderMachine).search.procIsBlack = false
  token : whiteAt c s ≠ 0
  rest : ∀ e ∈ cfg.coreMachine, place cfg.coreMachine cfg.leaderMachine c ≤ rank cfg.coreMachine cfg.leaderMachine e →
    (s e).search.procIsBlack = false

/- What is true of a machine that the token has left. -/
structure Clean (d : Fin n) (s : Net n D) : Prop where
  white : (s d).search.procIsBlack = false
  tasks : (s d).localTask = [] ∧ (s d).localMicroTask = []
  content : content d s = 0

/- A white machine has nothing to do; when it runs, it has looked at all that came. -/
structure Sound (me : Fin n) (q : QueryMsg n D) : Prop where
  bounded : Bounded cfg q.search
  unopened : me = cfg.originMachine → q.isNew = true → q.search.candidateSet.elems = []
  passive : q.search.procIsBlack = false → live q.coro = true ∧ Passive cfg q
  emptied : q.coro = .top → q.search.procIsBlack = false → q.localTask = [] ∧ q.localMicroTask = []

/- Until the leader ends. -/
structure Searching (s : Net n D) : Prop where
  sound : ∀ a, Sound cfg a (s a).toQueryMsg
  outside : ∀ d, d ∉ cfg.coreMachine → content d s = 0
  second : ∀ c ∈ cfg.coreMachine, Final cfg c s → ∀ d ∈ cfg.coreMachine,
    rank cfg.coreMachine cfg.leaderMachine d < place cfg.coreMachine cfg.leaderMachine c → Clean d s

-- A NodeTask that takes a machine for a core machine that is none.
open Classical in
noncomputable def strayFlag : Weight n D :=
  { blank with nodeTask := fun _ t => if ∃ p, t.isCoreMachine p = true ∧ p ∉ cfg.coreMachine then 1 else 0 }

structure Guarded (s : Net n D) : Prop where
  passed : Passed x cfg s
  allCounted : totalAll Quiescence.uncountedWeight s = 0
  flags : totalAll (strayFlag cfg) s = 0
  searching : (s cfg.leaderMachine).coro ≠ .finished → Searching cfg s

variable {x cfg} {s t : Net n D}

/- No core machine has work: nothing is outstanding anywhere. -/
theorem noWork (counted : Counted x cfg s) (even : ∀ e ∈ cfg.coreMachine,
    (s e).recvCnt = (s e).postCnt ∧ (s e).nocorePost = (s e).nocoreRecv) (c : Fin n) :
    outstanding c s = 0 ∧ spawned c s = 0 := by
  have equal : (s c).recvCnt = (s c).postCnt ∧ (s c).nocorePost = (s c).nocoreRecv := by
    by_cases inside : c ∈ cfg.coreMachine
    · exact even c inside
    · have dead : live (s c).coro = false := by
        cases alive : live (s c).coro with
        | false => rfl
        | true => exact absurd (runningKnown counted.rostered alive).2.1.inside inside
      have zero := counted.idle c dead
      simp only [counters,Prod.mk.injEq] at zero
      exact ⟨zero.2.1.trans zero.1.symm,zero.2.2.1.trans zero.2.2.2.symm⟩
  have core := counted.core c
  have nocore := spawnedWhenEven counted equal.1
  exact ⟨by omega,by omega⟩

theorem noNodeTask {a : Fin n} (none' : ∀ c, outstanding c s = 0) (t : NodeTask n) :
    ¬∀ w : Weight n D, w.nodeTask a t ≤ total w a (s a) := by
  intro queued
  have one := queued (coreWeight t.machineId)
  rw [totalAt (none' t.machineId) a] at one
  have weight : (coreWeight t.machineId : Weight n D).nodeTask a t = 1 := if_pos rfl
  omega

theorem allWhite (ok : Searching cfg s) {c : Fin n} (inside : c ∈ cfg.coreMachine) (final : Final cfg c s) :
    ∀ e ∈ cfg.coreMachine, (s e).search.procIsBlack = false := by
  intro e member
  rcases Nat.lt_or_ge (rank cfg.coreMachine cfg.leaderMachine e) (place cfg.coreMachine cfg.leaderMachine c) with
    less | more
  · exact (ok.second c inside final e member less).white
  · exact final.rest e member more

theorem whiteNoWork (counted : Counted x cfg s) (ok : Searching cfg s)
    (white : ∀ e ∈ cfg.coreMachine, (s e).search.procIsBlack = false) (c : Fin n) :
    outstanding c s = 0 ∧ spawned c s = 0 :=
  noWork counted (fun e inside => ((ok.sound e).passive (white e inside)).2.even) c

/- A machine with nothing outstanding takes nothing when it is resumed. -/
theorem idleMachine (allCounted : totalAll (Quiescence.uncountedWeight : Weight n D) s = 0) {a : Fin n}
    (core : outstanding a s = 0) (nocore : spawned a s = 0) (tasks : (s a).localTask = [] ∧ (s a).localMicroTask = []) :
    Idle (s a) := by
  have cores := (totalAbsent _).mp (totalAt core a)
  have nocores := (totalAbsent _).mp (totalAt nocore a)
  have locals := (totalAbsent _).mp (totalAt allCounted a)
  refine ⟨tasks.1,tasks.2,?_,?_,?_,?_⟩
  · refine List.eq_nil_iff_forall_not_mem.mpr (fun t member => ?_)
    exact Quiescence.noLocal (cores.baTaskQueue t member) (locals.baTaskQueue t member)
  · refine List.eq_nil_iff_forall_not_mem.mpr (fun ch member => ?_)
    exact Quiescence.noLocal (cores.conTaskQueue ch member) (locals.conTaskQueue ch member)
  · refine List.eq_nil_iff_forall_not_mem.mpr (fun r member => ?_)
    exact absurd ((if_pos rfl).symm.trans (cores.recvAsyncReadQueue r member)) Nat.one_ne_zero
  · refine List.eq_nil_iff_forall_not_mem.mpr (fun r member => ?_)
    exact countedOnce (cores.localRes r member) (nocores.localRes r member)

end Invariant

section Machines

variable (x : Index n D) (me : Fin n)

/- What the rest of the system promises a machine while the leader has not ended. -/
structure Context (m : Machine n D) : Prop where
  newAsleep : m.isNew = true → m.coro = .none
  forks : ∀ g : QueryFork n D, (∀ w, w.query me g ≤ total w me m) →
    me ≠ cfg.originMachine ∧ m.coro = .none ∧ ∃ p result, g = forked x cfg p result
  calm : Passive cfg m.toQueryMsg → total (coreWeight me) me m = 0 ∧ total (nocoreWeight me) me m = 0
  leader : Ends me m.toQueryMsg → me = cfg.leaderMachine

variable {cfg x me} {m m' : Machine n D}

theorem soundSame {q q' : QueryMsg n D} (ok : Sound cfg me q) (search : q'.search = q.search)
    (same : protocol q' = protocol q) (counts : counters q' = counters q) (new : q'.isNew = q.isNew)
    (coro : q'.coro = q.coro ∨ live q.coro = true ∧ q'.coro = .yielded) : Sound cfg me q' := by
  simp only [protocol,Prod.mk.injEq] at same
  obtain ⟨micro,large,tasks,micros,_⟩ := same
  simp only [counters,Prod.mk.injEq] at counts
  obtain ⟨post,recv,nocorePost,nocoreRecv⟩ := counts
  refine ⟨by rw [search]; exact ok.bounded,fun home untouched => ?_,fun white => ?_,fun top white => ?_⟩
  · rw [search]
    exact ok.unopened home (by rw [← new]; exact untouched)
  · obtain ⟨alive,rested,lists,even⟩ := ok.passive (by rw [← search]; exact white)
    refine ⟨?_,by rw [search]; exact rested,by rw [micro,large]; exact lists,by rw [post,recv,nocorePost,nocoreRecv]; exact even⟩
    rcases coro with kept | moved
    · rw [kept]
      exact alive
    · rw [moved.2]
      rfl
  · rw [tasks,micros]
    rcases coro with kept | moved
    · exact ok.emptied (by rw [← kept]; exact top) (by rw [← search]; exact white)
    · rw [moved.2] at top
      cases top

/- A machine that was never run is black. -/
theorem asleepBlack (ok : Sound cfg me m.toQueryMsg) (asleep : m.coro = .none) : m.search.procIsBlack ≠ false := by
  intro white
  have alive := (ok.passive white).1
  rw [asleep] at alive
  cases alive

omit [Distance D] in
theorem eitherSearch [Distance D] {ok : D × Nat → Prop} {s s' : Search D} (changed : ByCandidates cfg ok s s') :
    s'.procIsBlack = true ∨ s' = s := by
  refine changed (fun t => t.procIsBlack = true ∨ t = s) (fun t c _ before => ?_) (.inr rfl)
  unfold postProcCandidate
  split
  · exact .inl rfl
  · exact before

variable [Zero D]

omit [Zero D] in
theorem receivesSound (ok : Sound cfg me m.toQueryMsg) (msg : SyncMsg n D) (running : m.coro ≠ .top) :
    Sound cfg me (woken (updateSubQuery cfg me msg m.toQueryMsg)) := by
  obtain ⟨search,same,counts,new,coro⟩ := wokenProtocol (updateSubQuery cfg me msg m.toQueryMsg)
  refine soundSame ?_ search same counts new (.inl coro)
  have merged' : (updateSubQuery cfg me msg m.toQueryMsg).search = synced cfg msg.localAddCand m.search := rfl
  refine ⟨by rw [merged']; exact syncedBounded ok.bounded _,ok.unopened,fun white => ?_,fun top => absurd top running⟩
  obtain ⟨alive,rested,lists,even⟩ := ok.passive white
  exact ⟨alive,by rw [merged']; exact syncedRested ok.bounded rested _,lists,even⟩

omit [Zero D] in
theorem fetchesSound (ok : Sound cfg me m.toQueryMsg) (ms : List (NonCoreSyncMsg n)) (running : m.coro ≠ .top) :
    Sound cfg me (nodeSynced ms m.toQueryMsg) := by
  have awake : Sound cfg me (if ms = [] then m.toQueryMsg else woken m.toQueryMsg) ∧
      (if ms = [] then m.toQueryMsg else woken m.toQueryMsg).coro = m.coro := by
    split
    · exact ⟨ok,rfl⟩
    · obtain ⟨search,same,counts,new,coro⟩ := wokenProtocol m.toQueryMsg
      exact ⟨soundSame ok search same counts new (.inl coro),coro⟩
  obtain ⟨sound,coro⟩ := awake
  refine ⟨sound.bounded,sound.unopened,fun white => ?_,fun top => ?_⟩
  · obtain ⟨alive,rested,lists,even⟩ := sound.passive white
    exact ⟨alive,rested,lists,even⟩
  · exact absurd (coro.symm.trans top) running

theorem soundStep (step : TermStep cfg x me m m') (context : Context cfg x me m)
    (still : me = cfg.leaderMachine → m'.coro ≠ .finished) (ok : Sound cfg me m.toQueryMsg) :
    Sound cfg me m'.toQueryMsg := by
  cases step with
  | keeps search same counts new coro syncs nodes =>
    rcases counts with kept | ⟨r,queued⟩
    · exact soundSame ok search same kept new coro
    · -- a NODE_RESULT for a machine that waits for nothing
      have noPassive : ¬Passive cfg m.toQueryMsg := by
        intro passive
        have one := queued (coreWeight me)
        rw [(context.calm passive).1] at one
        have weight : (coreWeight me : Weight n D).nodeResult me r = 1 := if_pos rfl
        omega
      have black : ∀ {P : Prop}, m'.search.procIsBlack = false → P := by
        intro P white
        exact absurd (ok.passive (by rw [← search]; exact white)).2 noPassive
      refine ⟨by rw [search]; exact ok.bounded,fun home untouched => ?_,black,fun _ => black⟩
      rw [search]
      exact ok.unopened home (by rw [← new]; exact untouched)
  | begins new old black last token bounded syncs nodes =>
    have dark := asleepBlack ok (context.newAsleep new)
    refine ⟨bounded ok.bounded (fun home => ok.unopened home new),fun _ untouched => ?_,fun white => ?_,fun _ white => ?_⟩
    · rw [old] at untouched
      cases untouched
    · exact absurd (black.symm.trans white) dark
    · exact absurd (black.symm.trans white) dark
  | merges g queued search same new coro syncs nodes =>
    obtain ⟨away,asleep,p,result,rfl⟩ := context.forks g queued
    have dark := asleepBlack ok asleep
    have black : m'.search.procIsBlack = m.search.procIsBlack := by rw [search]; rfl
    refine ⟨by rw [search]; exact forkedBounded x p result m.toQueryMsg,fun home => absurd home away,fun white => ?_,
      fun _ white => ?_⟩
    · exact absurd (black.symm.trans white) dark
    · exact absurd (black.symm.trans white) dark
  | receives msg running query syncs nodes =>
    rw [query]
    exact receivesSound ok msg running
  | fetches ms running query syncs nodes =>
    rw [query]
    exact fetchesSound ok ms running
  | delegated t queued query syncs nodes =>
    rw [query]
    exact ok
  | resumes search suspended query changed idle loss =>
    have bounded : Bounded cfg search := changed (Bounded cfg) (fun t c _ before => candidateBounded before c) ok.bounded
    rw [query]
    refine ⟨bounded,fun _ untouched => ?_,fun white => ⟨rfl,?_⟩,fun _ _ => ⟨rfl,rfl⟩⟩
    · have asleep := context.newAsleep untouched
      rw [suspended] at asleep
      cases asleep
    · -- nothing was accepted, and nothing was outstanding
      have kept : search = m.search := (eitherSearch changed).resolve_left (fun dark => by rw [white] at dark; cases dark)
      obtain ⟨alive,passive⟩ := ok.passive (by rw [← kept]; exact white)
      obtain ⟨core,nocore⟩ := context.calm passive
      have lossCore := loss (coreWeight me)
      have lossNocore := loss (nocoreWeight me)
      rw [consumedCore] at lossCore
      rw [consumedNocore] at lossNocore
      simp only [share,if_pos] at lossCore lossNocore
      obtain ⟨rested,lists,even,evenNocore⟩ := passive
      refine ⟨?_,lists,?_,?_⟩
      · rw [kept]
        exact rested
      · simp only
        omega
      · simp only
        omega
  | expands sent msgs top coro some' search token new plain only syncs nodes =>
    obtain ⟨add,search⟩ := search
    have busy : m.search.procIsBlack ≠ false := by
      intro white
      exact some' (restedNone (ok.passive white).2.rested)
    have black : m'.search.procIsBlack = m.search.procIsBlack := by rw [search]
    refine ⟨?_,fun _ untouched => ?_,fun white => ?_,fun _ white => ?_⟩
    · rw [search]
      exact ⟨ok.bounded.top,fun room c member => ok.bounded.room room c ((popGroupMem _ _ _).2 c member)⟩
    · have asleep := context.newAsleep (by rw [← new]; exact untouched)
      rw [top] at asleep
      cases asleep
    · exact absurd (black.symm.trans white) busy
    · exact absurd (black.symm.trans white) busy
  | passes leaves several holder going query syncs nodes =>
    obtain ⟨even,evenNocore⟩ : m.recvCnt = m.postCnt ∧ m.nocorePost = m.nocoreRecv := of_decide_eq_true leaves.allRecved
    have settled : Bounded cfg { m.search with procIsBlack := false, localAddCand := [] } :=
      ⟨ok.bounded.top,ok.bounded.room⟩
    rw [query]
    refine ⟨settled,fun _ untouched => ?_,fun _ => ⟨rfl,?_,fun _ => ⟨rfl,rfl⟩,even,evenNocore⟩,?_⟩
    · have asleep := context.newAsleep untouched
      rw [leaves.top] at asleep
      cases asleep
    · exact restedWhenNone settled (noneWithin leaves.noneLeft) rfl
    · intro top
      cases top
  | ends ending coro new syncs nodes => exact absurd coro (still (context.leader ending))

end Machines

section Steps

variable {x : Index n D} {cfg : Config n D} [Zero D] {s t : Net n D} {a : Fin n} {m' : Machine n D}

omit [Zero D] in
theorem context (counted : Counted x cfg s) (searching : (s cfg.leaderMachine).coro ≠ .finished) (a : Fin n) :
    Context cfg x a (s a) := by
  refine ⟨newAsleep counted.rostered,fun g queued => ?_,fun passive => ?_,fun ending => ?_⟩
  · have right : wrongQuery x cfg a g = 0 := by
      have le := queued (queryWeight (wrongQuery x cfg))
      rw [wrongTotal counted.rostered.right a] at le
      exact Nat.le_zero.mp le
    have comes : coming s a ≠ 0 := by
      have le := queued (queryWeight (queryTo a))
      have one : (queryWeight (queryTo a) : Weight n D).query a g = 1 := if_pos rfl
      intro none'
      rw [totalAt none' a] at le
      omega
    rcases eq_or_ne a cfg.originMachine with rfl | other
    · cases counted.rostered.home with
      | untouched h none' => exact absurd none' comes
      | running old alive known rest => exact absurd (rest searching).2.2 comes
      | waiting old coro outside rest => exact absurd (rest searching).2 comes
    · have fork : ∃ result, g = forked x cfg a result := by
        by_contra no
        rw [wrongQuery,if_neg other,if_neg (fun yes => no yes.2)] at right
        cases right
      cases counted.rostered.others a other with
      | untouched h one => exact ⟨other,h.coro,a,fork⟩
      | received new coro queue known core all => exact absurd all comes
      | running old alive queue known core all => exact absurd all comes
  · have core := counted.core a
    have nocore := spawnedWhenEven counted passive.even.1
    have even := passive.even
    exact ⟨totalAt (by rw [outstanding] at core; omega) a,totalAt (by rw [spawned] at nocore; omega) a⟩
  · obtain ⟨_,known,core⟩ := runningKnown counted.rostered (p := a) (by rw [ending.leaves.top]; rfl)
    by_cases several : 1 < cfg.coreMachine.length
    · rw [← known.leader]
      exact (ending.second (by rw [core (.inr searching)]; exact several)).2.1.symm
    · exact onlyCore several known.inside cfg.leaderCore

theorem flagsKept (ok : Guarded cfg x s) (effect : Effect x cfg a (s a) m') :
    totalAll (strayFlag cfg) (Function.update s a m') = 0 := by
  refine hostZero ok.flags (decodedLe ⟨fun _ _ => rfl,fun _ _ => rfl,fun _ _ => rfl,fun _ _ => rfl,fun _ _ => rfl⟩
    effect (noOwnTask ok.passed.counted a) (fun t queued => ?_) (fun top v => ?_))
  · exact nodeGainZero (fun _ _ _ _ _ _ => rfl) (fun _ _ _ _ _ _ _ => rfl)
  · unfold expandGain
    split
    · obtain ⟨_,known,_⟩ := runningKnown ok.passed.counted.rostered (p := a) (by rw [top]; rfl)
      refine if_neg (fun stray => ?_)
      obtain ⟨p,flag,outside⟩ := stray
      rw [known.flags] at flag
      exact outside (of_decide_eq_true flag)
    · exact lbGainZero a (fun _ _ _ => rfl) (fun _ _ _ _ _ _ => rfl) (fun _ _ _ _ _ => rfl)

/- Where a message with something for d comes from. -/
inductive Sends (d me : Fin n) (m : Machine n D) : Prop
  | group (top : m.coro = .top) (some' : (nextGroup m.toQueryMsg).1 ≠ []) (inside : d ∈ m.coreMachine)
  | token (top : m.coro = .top) (inside : d ∈ m.coreMachine)
      (some' : ¬(m.search.localAddCand = [] ∧ ∀ p, m.coreMicroNgh p = [] ∧ m.coreLargeNgh p = []))
  | node (t : NodeTask n) (queued : ∀ w : Weight n D, w.nodeTask me t ≤ total w me m) (flag : t.isCoreMachine d = true)

theorem contentStep (d : Fin n) (step : TermStep cfg x a (s a) m') :
    content d (Function.update s a m') ≤ content d s ∨ Sends d a (s a) := by
  have syncs' := hostTotal (syncWeight (syncContent d)) s a m'
  have nodes' := hostTotal (nodeWeight (nodeContent d)) s a m'
  have fewer : total (syncWeight (syncContent d)) a m' ≤ total (syncWeight (syncContent d)) a (s a) →
      total (nodeWeight (nodeContent d)) a m' ≤ total (nodeWeight (nodeContent d)) a (s a) →
      content d (Function.update s a m') ≤ content d s := by
    intro first second
    rw [content,content]
    omega
  cases step with
  | keeps search same counts new coro syncs nodes => exact .inl (fewer (syncs _).le (nodes _).le)
  | begins new old black last token bounded syncs nodes => exact .inl (fewer (syncs _).le (nodes _).le)
  | merges g queued search same new coro syncs nodes => exact .inl (fewer (syncs _).le (nodes _).le)
  | receives msg running query syncs nodes =>
    exact .inl (fewer (by rw [← syncs (syncContent d)]; exact Nat.le_add_right _ _) (nodes _).le)
  | fetches ms running query syncs nodes =>
    exact .inl (fewer (syncs _).le (by rw [← nodes (nodeContent d)]; exact Nat.le_add_right _ _))
  | delegated t queued query syncs nodes =>
    cases flag : t.isCoreMachine d with
    | true => exact .inr (.node t queued flag)
    | false =>
      refine .inl (fewer (syncs _).le ?_)
      have none' : nodeGain (nodeWeight (nodeContent d) : Weight n D) t (x.block t.nodeId) = 0 := by
        refine nodeGainZero (fun _ _ _ _ _ _ => rfl) (fun r _ pid micro large _ flag' => if_neg (fun its => ?_))
        rw [its.1,flag] at flag'
        cases flag'
      rw [nodes,none']
      exact Nat.le_refl _
  | resumes search suspended query changed idle loss =>
    refine .inl (fewer ?_ ?_)
    · rw [← loss (syncWeight (syncContent d))]
      exact Nat.le_add_right _ _
    · rw [← loss (nodeWeight (nodeContent d))]
      exact Nat.le_add_right _ _
  | expands sent msgs top coro some' search token new plain only syncs nodes =>
    by_cases inside : d ∈ (s a).coreMachine
    · exact .inr (.group top some' inside)
    · refine .inl (fewer ?_ (nodes _).le)
      have none' : sumOf (fun e => syncContent d e.1 (syncMsg sent e.2 false)) msgs = 0 := by
        refine sumNone (fun e member => if_neg (fun its => ?_))
        exact inside (its.1 ▸ only e member)
      rw [syncs,none']
      exact Nat.le_refl _
  | passes leaves several holder going query syncs nodes =>
    by_cases sends : d ∈ (s a).coreMachine ∧
        ¬((s a).search.localAddCand = [] ∧ ∀ p, (s a).coreMicroNgh p = [] ∧ (s a).coreLargeNgh p = [])
    · exact .inr (.token leaves.top sends.1 sends.2)
    · refine .inl (fewer ?_ (nodes _).le)
      have none' : sumOf (fun e => syncContent d e.1 (syncMsg (s a).toQueryMsg e.2 (taintOf a (s a).toQueryMsg)))
          (SubQueryTotals.syncs a (nxtPropM a (s a).coreMachine) true true (s a).coreMachine) = 0 := by
        refine sumNone (fun e member => if_neg (fun its => sends ⟨?_,fun empty' => its.2 ?_⟩))
        · rw [← its.1]
          exact (syncsTo a member).2.1
        · simp only [syncMsg,empty'.1,List.filter_nil,empty'.2,and_self]
      rw [syncs,none']
      exact Nat.le_refl _
  | ends ending coro new syncs nodes => exact .inl (fewer (syncs _).le (nodes _).le)

/- While every core machine is white nothing with work is sent. -/
omit [Zero D] in
theorem silent (counted : Counted x cfg s) (ok : Searching cfg s)
    (white : ∀ e ∈ cfg.coreMachine, (s e).search.procIsBlack = false) (d : Fin n) : ¬Sends d a (s a) := by
  have passive : (s a).coro = .top → Passive cfg (s a).toQueryMsg := by
    intro top
    obtain ⟨_,known,_⟩ := runningKnown counted.rostered (p := a) (by rw [top]; rfl)
    exact ((ok.sound a).passive (white a known.inside)).2
  intro sends
  cases sends with
  | group top some' inside => exact some' (restedNone (passive top).rested)
  | token top inside some' => exact some' ⟨(passive top).rested.cands,(passive top).lists⟩
  | node t queued flag => exact noNodeTask (fun c => (whiteNoWork counted ok white c).1) t queued

omit [Zero D] [Distance D] in
theorem syncContentNone {d : Fin n} {msg : SyncMsg n D} (none' : syncContent d d msg = 0) :
    msg.localAddCand = [] ∧ msg.coreMicroNgh d = [] ∧ msg.coreLargeNgh d = [] := by
  by_contra some'
  exact absurd ((if_pos ⟨rfl,some'⟩).symm.trans none') Nat.one_ne_zero

omit [Zero D] [Distance D] in
theorem nodeContentNone {d : Fin n} {msg : NonCoreSyncMsg n} (none' : nodeContent d d msg = 0) :
    msg.coreMicroNgh = [] ∧ msg.coreLargeNgh = [] := by
  by_contra some'
  exact absurd ((if_pos ⟨rfl,some'⟩).symm.trans none') Nat.one_ne_zero

omit [Zero D] in
theorem contentAt {d : Fin n} (none' : content d s = 0) (b : Fin n) :
    total (syncWeight (syncContent d)) b (s b) = 0 ∧ total (nodeWeight (nodeContent d)) b (s b) = 0 :=
  ⟨totalAt (Nat.add_eq_zero_iff.mp none').1 b,totalAt (Nat.add_eq_zero_iff.mp none').2 b⟩

/- A machine that the token has left stays as it is. -/
theorem cleanKept (ok : Guarded cfg x s) (searching : Searching cfg s) (step : TermStep cfg x a (s a) m')
    (context : Context cfg x a (s a)) (still : a = cfg.leaderMachine → m'.coro ≠ .finished)
    (white : ∀ e ∈ cfg.coreMachine, (s e).search.procIsBlack = false) (clean : Clean a s) :
    m'.search.procIsBlack = false ∧ m'.localTask = [] ∧ m'.localMicroTask = [] := by
  obtain ⟨bright,tasks,none'⟩ := clean
  cases step with
  | keeps search same counts new coro syncs nodes =>
    simp only [protocol,Prod.mk.injEq] at same
    rw [search,same.2.2.1,same.2.2.2.1]
    exact ⟨bright,tasks⟩
  | begins new old black last token bounded syncs nodes =>
    exact absurd bright (asleepBlack (searching.sound a) (context.newAsleep new))
  | merges g queued search same new coro syncs nodes =>
    simp only [protocol,Prod.mk.injEq] at same
    rw [search,same.2.2.1,same.2.2.2.1]
    exact ⟨bright,tasks⟩
  | receives msg running query syncs nodes =>
    have taken := syncs (syncContent a)
    rw [(contentAt none' a).1] at taken
    have nothing : syncContent a a msg = 0 := by omega
    obtain ⟨_,micro,large⟩ := syncContentNone nothing
    obtain ⟨search,same,_⟩ := wokenProtocol (updateSubQuery cfg a msg (s a).toQueryMsg)
    simp only [protocol,Prod.mk.injEq] at same
    rw [query,search,same.2.2.1,same.2.2.2.1]
    simp only [updateSubQuery,micro,large,List.map_nil,List.append_nil]
    exact ⟨bright,tasks⟩
  | fetches ms running query syncs nodes =>
    have taken := nodes (nodeContent a)
    rw [(contentAt none' a).2] at taken
    have nothing : sumOf (nodeContent a a) ms = 0 := by omega
    have empty' : ∀ msg ∈ ms, msg.coreMicroNgh = [] ∧ msg.coreLargeNgh = [] :=
      fun msg member => nodeContentNone (sumZero nothing msg member)
    have micros : ms.flatMap NonCoreSyncMsg.coreMicroNgh = [] :=
      List.flatMap_eq_nil_iff.mpr (fun msg member => (empty' msg member).1)
    have larges : ms.flatMap (fun msg => msg.coreLargeNgh.map (fun e => (⟨e.2,e.1,true⟩ : LocalTask))) = [] :=
      List.flatMap_eq_nil_iff.mpr (fun msg member => by rw [(empty' msg member).2,List.map_nil])
    have search : (nodeSynced ms (s a).toQueryMsg).search = (s a).search := by
      unfold nodeSynced
      split
      · rfl
      · exact (wokenProtocol _).1
    rw [query,search]
    simp only [nodeSynced,micros,larges,List.append_nil]
    exact ⟨bright,tasks⟩
  | delegated t queued query syncs nodes =>
    rw [query]
    exact ⟨bright,tasks⟩
  | resumes search suspended query changed idle loss =>
    obtain ⟨core,nocore⟩ := whiteNoWork ok.passed.counted searching white a
    rw [query]
    exact ⟨(congrArg _ (idle (idleMachine ok.allCounted core nocore tasks))).trans bright,rfl,rfl⟩
  | expands sent msgs top coro some' search token new plain only syncs nodes =>
    exact absurd (restedNone ((searching.sound a).passive bright).2.rested) some'
  | passes leaves several holder going query syncs nodes =>
    rw [query]
    exact ⟨rfl,tasks⟩
  | ends ending coro new syncs nodes => exact absurd coro (still (context.leader ending))

/- What a step that does not pass the token on leaves as it is for the second round. -/
structure Onward (me : Fin n) (m m' : Machine n D) : Prop where
  last : m'.lastIsWhite = m.lastIsWhite
  white : m'.search.procIsBlack = false → m.search.procIsBlack = false
  token : ∀ c, (if me = c then (m'.hasToken && !m'.tokenIsBlack).toNat else 0) + total (syncWeight (whiteTo c)) me m' ≤
    (if me = c then (m.hasToken && !m.tokenIsBlack).toNat else 0) + total (syncWeight (whiteTo c)) me m

structure Passing (me : Fin n) (m m' : Machine n D) : Prop where
  leaves : Leaves m.toQueryMsg
  several : 1 < m.coreMachine.length
  holder : m.hasToken = true
  going : ¬Ends me m.toQueryMsg
  query : m'.toQueryMsg = passed (lastOf me m.toQueryMsg) m.toQueryMsg
  syncs : ∀ f, total (syncWeight f) me m' = total (syncWeight f) me m +
    sumOf (fun e => f e.1 (syncMsg m.toQueryMsg e.2 (taintOf me m.toQueryMsg)))
      (SubQueryTotals.syncs me (nxtPropM me m.coreMachine) true true m.coreMachine)

omit [Zero D] in
theorem onwardSame {m : Machine n D} (last : m'.lastIsWhite = m.lastIsWhite)
    (white : m'.search.procIsBlack = false → m.search.procIsBlack = false)
    (token : m'.hasToken = m.hasToken ∧ m'.tokenIsBlack = m.tokenIsBlack)
    (totals : ∀ c, total (syncWeight (whiteTo c)) a m' ≤ total (syncWeight (whiteTo c)) a m) : Onward a m m' := by
  refine ⟨last,white,fun c => ?_⟩
  rw [token.1,token.2]
  exact Nat.add_le_add_left (totals c) _

/- A leader that begins is black; what a machine has of the token it took from a message. -/
theorem onward (counted : Counted x cfg s) (searching : Searching cfg s) (step : TermStep cfg x a (s a) m')
    (context : Context cfg x a (s a)) (still : a = cfg.leaderMachine → m'.coro ≠ .finished)
    (bright : a = cfg.leaderMachine → m'.search.procIsBlack = false) :
    Onward a (s a) m' ∨ Passing a (s a) m' := by
  cases step with
  | keeps search same counts new coro syncs nodes =>
    simp only [protocol,Prod.mk.injEq] at same
    obtain ⟨_,_,_,_,token,black,last⟩ := same
    exact .inl (onwardSame last (by rw [search]; exact id) ⟨token,black⟩ (fun c => (syncs _).le))
  | begins new old black last token bounded syncs nodes =>
    have away : a ≠ cfg.leaderMachine := by
      intro leads
      exact asleepBlack (searching.sound a) (context.newAsleep new) (black.symm.trans (bright leads))
    have token' : m'.hasToken = (s a).hasToken := by
      rcases token with same | leads | ⟨queued,leads⟩
      · exact same
      · exact absurd leads away
      · exact absurd (leads.symm.trans (startsKnown counted.rostered new queued)) away
    exact .inl (onwardSame last.1 (by rw [black]; exact id) ⟨token',last.2⟩ (fun c => (syncs _).le))
  | merges g queued search same new coro syncs nodes =>
    simp only [protocol,Prod.mk.injEq] at same
    obtain ⟨_,_,_,_,token,black,last⟩ := same
    exact .inl (onwardSame last (by rw [search]; exact id) ⟨token,black⟩ (fun c => (syncs _).le))
  | receives msg running query syncs nodes =>
    obtain ⟨search,same,_⟩ := wokenProtocol (updateSubQuery cfg a msg (s a).toQueryMsg)
    simp only [protocol,Prod.mk.injEq] at same
    obtain ⟨_,_,_,_,token,black,last⟩ := same
    refine .inl ⟨by rw [query,last]; rfl,by rw [query,search]; exact id,fun c => ?_⟩
    have taken := syncs (whiteTo c)
    rw [query,token,black]
    simp only [updateSubQuery]
    cases term : msg.updateTerm with
    | false =>
      simp only [Bool.false_eq_true,if_false]
      omega
    | true =>
      have weight : whiteTo c a msg = if a = c then (msg.hasToken && !msg.tokenIsBlack).toNat else 0 := by
        rw [whiteTo,term,Bool.true_and]
      simp only [if_true]
      omega
  | fetches ms running query syncs nodes =>
    have same : (nodeSynced ms (s a).toQueryMsg).search = (s a).search ∧
        (nodeSynced ms (s a).toQueryMsg).hasToken = (s a).hasToken ∧
        (nodeSynced ms (s a).toQueryMsg).tokenIsBlack = (s a).tokenIsBlack ∧
        (nodeSynced ms (s a).toQueryMsg).lastIsWhite = (s a).lastIsWhite := by
      unfold nodeSynced
      split
      · exact ⟨rfl,rfl,rfl,rfl⟩
      · obtain ⟨search,same,_⟩ := wokenProtocol (s a).toQueryMsg
        simp only [protocol,Prod.mk.injEq] at same
        exact ⟨search,same.2.2.2.2⟩
    obtain ⟨search,token,black,last⟩ := same
    exact .inl (onwardSame (by rw [query,last]) (by rw [query,search]; exact id)
      ⟨by rw [query,token],by rw [query,black]⟩ (fun c => (syncs _).le))
  | delegated t queued query syncs nodes =>
    exact .inl (onwardSame (by rw [query]) (by rw [query]; exact id) ⟨by rw [query],by rw [query]⟩
      (fun c => (syncs _).le))
  | resumes search suspended query changed idle loss =>
    refine .inl (onwardSame (by rw [query]) (fun white => ?_) ⟨by rw [query],by rw [query]⟩ (fun c => ?_))
    · rw [query] at white
      rcases eitherSearch changed with black | same
      · exact absurd (white.symm.trans black) Bool.false_ne_true
      · exact same ▸ white
    · rw [← loss (syncWeight (whiteTo c))]
      exact Nat.le_add_right _ _
  | expands sent msgs top coro some' search token new plain only syncs nodes =>
    obtain ⟨add,search⟩ := search
    refine .inl (onwardSame token.2.2 (by rw [search]; exact id) ⟨token.1,token.2.1⟩ (fun c => ?_))
    have none' : sumOf (fun e => whiteTo c e.1 (syncMsg sent e.2 false)) msgs = 0 := by
      refine sumNone (fun e member => ?_)
      rw [whiteTo,plain e member]
      exact ite_self 0
    rw [syncs,none']
    exact Nat.le_refl _
  | passes leaves several holder going query syncs nodes =>
    exact .inr ⟨leaves,several,holder,going,query,syncs⟩
  | ends ending coro new syncs nodes => exact absurd coro (still (context.leader ending))

omit [Zero D] in
theorem finalBefore (on : Onward a (s a) m') {c : Fin n} (final : Final cfg c (Function.update s a m')) :
    Final cfg c s := by
  have white : ∀ e, (Function.update s a m' e).search.procIsBlack = false → (s e).search.procIsBlack = false := by
    intro e bright
    rcases eq_or_ne e a with rfl | away
    · rw [Function.update_self] at bright
      exact on.white bright
    · rwa [Function.update_of_ne away] at bright
  refine ⟨?_,white _ final.leader,fun none' => final.token ?_,fun e inside behind => white e (final.rest e inside behind)⟩
  · have second := final.second
    rcases eq_or_ne cfg.leaderMachine a with leads | away
    · rw [leads,Function.update_self,on.last] at second
      rw [leads]
      exact second
    · rwa [Function.update_of_ne away] at second
  · have change := hostTotal (syncWeight (whiteTo c)) s a m'
    have token := on.token c
    rw [whiteAt] at none' ⊢
    rcases eq_or_ne a c with rfl | away
    · simp only [if_true] at token
      rw [Function.update_self]
      omega
    · simp only [if_neg away] at token
      rw [Function.update_of_ne away.symm]
      omega

/- After the token was passed on, the next machine has it, and it is white only when
the machine that gave it was. -/
omit [Zero D] in
theorem finalPassed (ok : Passed x cfg s) (pass : Passing a (s a) m') {c : Fin n}
    (final : Final cfg c (Function.update s a m')) :
    c = nxtPropM a cfg.coreMachine ∧ failed (s a).toQueryMsg = false := by
  obtain ⟨inside,core⟩ := holderCore ok pass.leaves.top pass.holder
  obtain ⟨_,known,_⟩ := runningKnown ok.counted.rostered (p := a) (by rw [pass.leaves.top]; rfl)
  have few := fewTokens ok
  have one := heldOne (s := s) a
  rw [tokens] at few
  rw [pass.holder,Bool.toNat_true] at one
  have nowhere : totalAll (syncWeight (whiteTo c)) s = 0 := by
    have none' : totalAll (syncWeight carries) s = 0 := by omega
    refine totalEverywhere (fun b => (totalAbsent _).mpr ?_)
    have absent := (totalAbsent _).mp (totalAt none' b)
    have plain : ∀ p (msg : Message n D), messageWeight (syncWeight carries) p msg = 0 →
        messageWeight (syncWeight (whiteTo c)) p msg = 0 := by
      intro p msg zero
      cases msg with
      | sync m =>
        have term : m.updateTerm = false := by
          cases term : m.updateTerm with
          | false => rfl
          | true => exact absurd ((congrArg Bool.toNat term).symm.trans zero) Nat.one_ne_zero
        have white : whiteTo c p m = 0 := by
          rw [whiteTo,term]
          exact ite_self 0
        exact white
      | query q => rfl
      | nodeSync ms => exact sumNone (fun _ _ => rfl)
      | task ts ns => exact Nat.add_eq_zero_iff.mpr ⟨sumNone (fun _ _ => rfl),sumNone (fun _ _ => rfl)⟩
      | result rs => exact sumNone (fun _ _ => rfl)
      | nodeResult rs => exact sumNone (fun _ _ => rfl)
    constructor
    case wire => exact fun q msg member => plain q msg (absent.wire q msg member)
    case rbuf => exact fun k msg member => plain b msg (absent.rbuf k msg member)
    all_goals intros; rfl
  have without : (Function.update s a m' c).hasToken = false := by
    rcases eq_or_ne c a with rfl | away
    · rw [Function.update_self,pass.query]
      rfl
    · rw [Function.update_of_ne away]
      have pair := heldPair (s := s) away
      rw [pass.holder,Bool.toNat_true] at pair
      cases token : (s c).hasToken with
      | false => rfl
      | true =>
        rw [token,Bool.toNat_true] at pair
        omega
  have sent : ∃ e ∈ SubQueryTotals.syncs a (nxtPropM a (s a).coreMachine) true true (s a).coreMachine,
      whiteTo c e.1 (syncMsg (s a).toQueryMsg e.2 (taintOf a (s a).toQueryMsg)) ≠ 0 := by
    by_contra no
    have change := hostTotal (syncWeight (whiteTo c)) s a m'
    rw [pass.syncs,sumNone (fun e member => by_contra (fun some' => no ⟨e,member,some'⟩)),nowhere] at change
    refine final.token ?_
    rw [whiteAt,without,Bool.false_and,Bool.toNat_false]
    omega
  obtain ⟨e,member,some'⟩ := sent
  rw [whiteTo] at some'
  split at some'
  · rename_i its
    cases token : e.2 with
    | false =>
      rw [token] at some'
      exact absurd rfl some'
    | true =>
      obtain ⟨_,_,carried⟩ := syncsTo a member
      refine ⟨by rw [← its,(carried token).2.1,core],?_⟩
      rcases eq_or_ne cfg.leaderMachine a with leads | away
      · have second := final.second
        rw [leads,Function.update_self,pass.query] at second
        have last : lastOf a (s a).toQueryMsg = !failed (s a).toQueryMsg := if_pos (known.leader.trans leads)
        simpa [passed,last] using second
      · have taint : taintOf a (s a).toQueryMsg = failed (s a).toQueryMsg :=
          if_neg (fun leads => away (known.leader.symm.trans leads))
        simpa [syncMsg,token,taint] using some'
  · exact absurd rfl some'

theorem cleanStep (ok : Guarded cfg x s) (searching : Searching cfg s) (step : TermStep cfg x a (s a) m')
    (context : Context cfg x a (s a)) (still : a = cfg.leaderMachine → m'.coro ≠ .finished)
    (white : ∀ e ∈ cfg.coreMachine, (s e).search.procIsBlack = false) {d : Fin n} (clean : Clean d s) :
    Clean d (Function.update s a m') := by
  have less := (contentStep d step).resolve_right (silent ok.passed.counted searching white d)
  have none' : content d (Function.update s a m') = 0 := by
    rw [clean.content] at less
    exact Nat.le_zero.mp less
  rcases eq_or_ne d a with rfl | away
  · obtain ⟨bright,tasks⟩ := cleanKept ok searching step context still white clean
    exact ⟨by rw [Function.update_self]; exact bright,by rw [Function.update_self]; exact tasks,none'⟩
  · refine ⟨?_,?_,none'⟩
    · rw [Function.update_of_ne away]
      exact clean.white
    · rw [Function.update_of_ne away]
      exact clean.tasks

theorem secondKept (ok : Guarded cfg x s) (searching : Searching cfg s) (step : TermStep cfg x a (s a) m')
    (context : Context cfg x a (s a)) (still : a = cfg.leaderMachine → m'.coro ≠ .finished)
    (flushed : Passing a (s a) m' → PassesWhite cfg a s → content a s = 0) {c d : Fin n} (inside : c ∈ cfg.coreMachine)
    (final : Final cfg c (Function.update s a m')) (member : d ∈ cfg.coreMachine)
    (less : rank cfg.coreMachine cfg.leaderMachine d < place cfg.coreMachine cfg.leaderMachine c) :
    Clean d (Function.update s a m') := by
  have bright : a = cfg.leaderMachine → m'.search.procIsBlack = false := by
    intro leads
    have leader := final.leader
    rwa [← leads,Function.update_self] at leader
  rcases onward ok.passed.counted searching step context still bright with on | pass
  · have before := finalBefore on final
    exact cleanStep ok searching step context still (allWhite searching inside before)
      (searching.second c inside before d member less)
  · obtain ⟨rfl,white⟩ := finalPassed ok.passed pass final
    obtain ⟨here,core⟩ := holderCore ok.passed pass.leaves.top pass.holder
    obtain ⟨unmarked,own⟩ : (s a).tokenIsBlack = false ∧ (s a).search.procIsBlack = false :=
      Bool.or_eq_false_iff.mp white
    rw [placeNext cfg.coreNodup cfg.leaderCore here] at less
    -- those behind a are still white
    have rest : ∀ e ∈ cfg.coreMachine, rank cfg.coreMachine cfg.leaderMachine a ≤ rank cfg.coreMachine cfg.leaderMachine e →
        (s e).search.procIsBlack = false := by
      intro e among behind
      rcases eq_or_ne e a with rfl | away
      · exact own
      · have apart : rank cfg.coreMachine cfg.leaderMachine e ≠ rank cfg.coreMachine cfg.leaderMachine a :=
          fun same => away (rankInj cfg.leaderCore among here same)
        have bright' := final.rest e among (by rw [placeNext cfg.coreNodup cfg.leaderCore here]; omega)
        rwa [Function.update_of_ne away] at bright'
    have start' : rank cfg.coreMachine cfg.leaderMachine cfg.leaderMachine = 0 := by
      rw [rank,if_pos (Nat.le_refl _),Nat.sub_self]
    -- the second round is on at a already, unless a is the leader that starts it
    have before : a ≠ cfg.leaderMachine → Final cfg a s := by
      intro away
      have second := final.second
      have leader := final.leader
      rw [Function.update_of_ne away.symm] at second leader
      refine ⟨second,leader,?_,fun e among behind => rest e among ?_⟩
      · rw [whiteAt,pass.holder,unmarked]
        exact Nat.succ_add _ _ ▸ Nat.succ_ne_zero _
      · rwa [place,if_neg away] at behind
    have white' : ∀ e ∈ cfg.coreMachine, (s e).search.procIsBlack = false := by
      rcases eq_or_ne a cfg.leaderMachine with leads | away
      · intro e among
        exact rest e among (by rw [leads,start']; exact Nat.zero_le _)
      · exact allWhite searching here (before away)
    refine cleanStep ok searching step context still white' ?_
    rcases eq_or_ne d a with rfl | apart
    · refine ⟨own,(searching.sound d).emptied pass.leaves.top own,flushed pass ?_⟩
      refine ⟨pass.leaves,pass.several,pass.holder,white,?_,pass.going⟩
      rcases eq_or_ne d cfg.leaderMachine with leads | away
      · exact .inl leads
      · exact .inr (before away).second
    · have other : rank cfg.coreMachine cfg.leaderMachine d ≠ rank cfg.coreMachine cfg.leaderMachine a :=
        fun same => apart (rankInj cfg.leaderCore member here same)
      have away : a ≠ cfg.leaderMachine := by
        intro leads
        rw [leads,start'] at less other
        omega
      refine searching.second a here (before away) d member ?_
      rw [place,if_neg away]
      omega

theorem searchingKept (ok : Guarded cfg x s) (searching : Searching cfg s) (step : TermStep cfg x a (s a) m')
    (context : Context cfg x a (s a)) (still : a = cfg.leaderMachine → m'.coro ≠ .finished)
    (going : (s cfg.leaderMachine).coro ≠ .finished)
    (flushed : Passing a (s a) m' → PassesWhite cfg a s → content a s = 0) : Searching cfg (Function.update s a m') := by
  refine ⟨fun b => ?_,fun d outside => ?_,fun c inside final d member less =>
    secondKept ok searching step context still flushed inside final member less⟩
  · rcases eq_or_ne b a with rfl | away
    · rw [Function.update_self]
      exact soundStep step context still (searching.sound b)
    · rw [Function.update_of_ne away]
      exact searching.sound b
  · have before := searching.outside d outside
    have noCore : (s a).coro = .top → d ∉ (s a).coreMachine := by
      intro top
      obtain ⟨_,_,core⟩ := runningKnown ok.passed.counted.rostered (p := a) (by rw [top]; rfl)
      rw [core (.inr going)]
      exact outside
    rcases contentStep d step with less | sends
    · rw [before] at less
      exact Nat.le_zero.mp less
    · cases sends with
      | group top some' inside => exact absurd inside (noCore top)
      | token top inside some' => exact absurd inside (noCore top)
      | node t queued flag =>
        have one := queued (strayFlag cfg)
        rw [totalAt ok.flags a] at one
        have weight : (strayFlag cfg : Weight n D).nodeTask a t = 1 := if_pos ⟨d,flag,outside⟩
        omega

theorem hostGuarded {op : Op} (ok : Guarded cfg x s) (flushed : Flushed cfg s (.host a op))
    (done' : perform x cfg a (s a) op = some m') : Guarded cfg x (Function.update s a m') := by
  have effect := performEffect done'
  have counted := ok.passed.counted
  have noOwn := noOwnTask counted a
  have roster : RosterStep x cfg a (s a) m' := by
    rcases rosterStep effect with step | ⟨t,own,queued⟩
    · exact step
    · exact absurd queued (noOwn t own)
  have stepped : step x cfg s (.host a op) = some (Function.update s a m') := by
    simp only [step,done',Option.map_some]
  refine ⟨stepPassed stepped ok.passed,hostZero ok.allCounted (Quiescence.uncountedLe effect noOwn),flagsKept ok effect,
    fun after => ?_⟩
  have going : (s cfg.leaderMachine).coro ≠ .finished := fun no => after (finishedStays counted.rostered roster no)
  refine searchingKept ok (ok.searching going) (termStep effect noOwn) (context counted going a) (fun leads => ?_) going
    (fun pass white => ?_)
  · rwa [← leads,Function.update_self] at after
  · rcases topOp done' pass.leaves.top with rfl | same
    · exact flushed white
    · rw [pass.query] at same
      have coro := congrArg QueryMsg.coro same
      rw [pass.leaves.top] at coro
      cases coro

end Steps

section Runs

variable {x : Index n D} {cfg : Config n D} {s t : Net n D}

theorem startGuarded : Guarded cfg x (start cfg) where
  passed := startPassed x cfg
  allCounted := startTotal cfg _
  flags := startTotal cfg _
  searching _ := by
    have empty' : Bounded cfg (fresh cfg : Machine n D).search :=
      ⟨fun t none' => absurd none' notMemEmpty,fun _ c none' => absurd none' notMemEmpty⟩
    refine ⟨fun a => ⟨empty',fun _ _ => emptyElems,fun white => Bool.noConfusion white,fun top => Coro.noConfusion top⟩,
      fun d _ => ?_,fun c _ final => Bool.noConfusion final.leader⟩
    rw [content,startTotal,startTotal]

/- A delivery moves a message from the wire to a receive queue. -/
theorem searchingSame (field : ∀ b, (t b).toQueryMsg = (s b).toQueryMsg)
    (totals : ∀ w : Weight n D, totalAll w t = totalAll w s) (ok : Searching cfg s) : Searching cfg t := by
  have there : ∀ d, content d t = content d s := fun d => by rw [content,content,totals,totals]
  refine ⟨fun a => ?_,fun d outside => ?_,fun c inside final d member less => ?_⟩
  · rw [field]
    exact ok.sound a
  · rw [there]
    exact ok.outside d outside
  · have before : Final cfg c s := by
      obtain ⟨second,leader,token,rest⟩ := final
      rw [whiteAt,totals,field] at token
      rw [field] at second leader
      simp only [field] at rest
      exact ⟨second,leader,token,rest⟩
    obtain ⟨white,tasks,none'⟩ := ok.second c inside before d member less
    exact ⟨by rw [field]; exact white,by rw [field]; exact tasks,(there d).trans none'⟩

theorem stepGuarded [Zero D] {act : Act n} (flushed : Flushed cfg s act) (done' : step x cfg s act = some t)
    (ok : Guarded cfg x s) : Guarded cfg x t := by
  cases act with
  | host a op =>
    obtain ⟨m',performed,rfl⟩ := Option.map_eq_some_iff.mp done'
    exact hostGuarded ok flushed performed
  | deliver a p =>
    have field : ∀ b, (t b).toQueryMsg = (s b).toQueryMsg := fun b => (deliverSame done' b).1
    have totals : ∀ w : Weight n D, totalAll w t = totalAll w s := fun w => deliverTotal w done'
    refine ⟨stepPassed done' ok.passed,?_,?_,fun going => ?_⟩
    · rw [totals]
      exact ok.allCounted
    · rw [totals]
      exact ok.flags
    · rw [field] at going
      exact searchingSame field totals (ok.searching going)

/- The second round came back: every core machine is clean. -/
theorem allClean (ok : Guarded cfg x s) {a : Fin n} (ending : Ends a (s a).toQueryMsg)
    (several : 1 < (s a).coreMachine.length) : Searching cfg s ∧ ∀ d ∈ cfg.coreMachine, Clean d s := by
  obtain ⟨holder,leads,second,white⟩ := ending.second several
  obtain ⟨unmarked,own⟩ : (s a).tokenIsBlack = false ∧ (s a).search.procIsBlack = false := Bool.or_eq_false_iff.mp white
  obtain ⟨_,known,_⟩ := runningKnown ok.passed.counted.rostered (p := a) (by rw [ending.leaves.top]; rfl)
  have leader : a = cfg.leaderMachine := leads.symm.trans known.leader
  subst leader
  have searching := ok.searching (by rw [ending.leaves.top]; exact Coro.noConfusion)
  have full : place cfg.coreMachine cfg.leaderMachine cfg.leaderMachine = cfg.coreMachine.length := if_pos rfl
  have final : Final cfg cfg.leaderMachine s := by
    refine ⟨second,own,?_,fun e inside behind => ?_⟩
    · rw [whiteAt,holder,unmarked]
      exact Nat.succ_add _ _ ▸ Nat.succ_ne_zero _
    · have less := rankLess cfg.leaderCore inside
      omega
  refine ⟨searching,fun d inside => searching.second _ cfg.leaderCore final d inside ?_⟩
  rw [full]
  exact rankLess cfg.leaderCore inside

omit [Distance D] in
theorem workless {p : Fin n} {msg : Message n D} (core : ∀ c, messageWeight (coreWeight c) p msg = 0)
    (nocore : ∀ c, messageWeight (nocoreWeight c) p msg = 0)
    (syncs : messageWeight (syncWeight (syncContent p)) p msg = 0)
    (nodes : messageWeight (nodeWeight (nodeContent p)) p msg = 0) : Workless p msg := by
  cases msg with
  | query q => trivial
  | sync m => exact syncContentNone syncs
  | nodeSync ms => exact fun msg member => nodeContentNone (sumZero nodes msg member)
  | task ts ns =>
    refine ⟨List.eq_nil_iff_forall_not_mem.mpr (fun t member => ?_),
      List.eq_nil_iff_forall_not_mem.mpr (fun t member => ?_)⟩
    · have tasks := sumZero (Nat.add_eq_zero_iff.mp (core t.machineId)).1 t member
      exact Quiescence.noTask tasks (sumZero (Nat.add_eq_zero_iff.mp (nocore t.machineId)).1 t member) rfl
    · exact Quiescence.noNodeTask (sumZero (Nat.add_eq_zero_iff.mp (core t.machineId)).2 t member) rfl
  | result rs =>
    refine List.eq_nil_iff_forall_not_mem.mpr (fun r member => ?_)
    exact countedOnce (sumZero (core p) r member) (sumZero (nocore p) r member)
  | nodeResult rs =>
    refine List.eq_nil_iff_forall_not_mem.mpr (fun r member => ?_)
    exact absurd ((if_pos rfl).symm.trans (sumZero (core p) r member)) Nat.one_ne_zero

/- Only the end of the search sets global_term. -/
theorem setsTerm [Zero D] {a : Fin n} {m m' : Machine n D} (effect : Effect x cfg a m m')
    (noOwn : ∀ t : ComputeTask n D, t.machineId = a → ¬∀ w, w.task a t ≤ total w a m) (before : m.globalTerm = false)
    (sets : m'.globalTerm = true) : Ends a m.toQueryMsg ∧ protocol m'.toQueryMsg = protocol m.toQueryMsg ∧
      m'.search.lowerBound = m.search.lowerBound ∧
      (∀ c ∈ m'.search.candidateSet.elems, c ∈ m.search.candidateSet.elems) ∧
      ∀ w : Weight n D, (∀ p f, w.query p f = 0) → total w a m' = total w a m := by
  have kept : ∀ {q : QueryMsg n D} {P : Prop}, m'.toQueryMsg = q → q.globalTerm = m.globalTerm → P := by
    intro q P query same
    rw [query,same,before] at sets
    cases sets
  have woken' : ∀ q : QueryMsg n D, (woken q).globalTerm = q.globalTerm := by
    intro q
    unfold woken
    split <;> rfl
  cases effect with
  | moves ok => exact kept ok.query rfl
  | swaps query emptied sched same => exact kept query rfl
  | waits msgs origin new idle outside forks query sched gain => exact kept query rfl
  | opens msgs origin new idle inside forks query sched gain => exact kept query rfl
  | merges g running query sched loss => exact kept query rfl
  | syncs msg running query sched loss => exact kept query (woken' _)
  | nodeSyncs ms running query sched loss =>
    refine kept query ?_
    unfold nodeSynced
    split
    · rfl
    · exact woken' _
  | wakes running query sched same => exact kept query (woken' _)
  | starts new queued query sched same => exact kept query rfl
  | returns old queued query sched same => exact kept query rfl
  | nodeTask t found other queued slice query sched change => exact kept query rfl
  | task t found other queued slice query sched change => exact kept query rfl
  | ownTask t own queued => exact absurd queued (noOwn t own)
  | chunk t found queued slice query sched change => exact kept query rfl
  | nodeResult r running queued query sched change => exact kept query (woken' _)
  | resumes search suspended queued query sched changed idle loss => exact kept query rfl
  | overruns finished queued query sched same => exact kept query rfl
  | rests top noneLeft waiting query sched same => exact kept query rfl
  | idles top noneLeft notPost query sched same => exact kept query rfl
  | expands micro large add step lb msgs sent top some' query sched plain posted gain routed => exact kept query rfl
  | pauses leaves several without query sched same => exact kept query rfl
  | passes leaves several holder going query sched gain => exact kept query rfl
  | ends f cands ending query fewer sched fork gain =>
    refine ⟨ending,by rw [query]; rfl,by rw [query],by rw [query]; exact fewer,fun w free => ?_⟩
    rw [gain,free,ite_self,Nat.add_zero]

theorem terminated (rested : ∀ d ∈ cfg.coreMachine, ∀ c ∈ (s d).search.candidateSet.elems,
      (s d).search.lowerBound < OrderDual.ofDual c.1)
    (tasks : ∀ d ∈ cfg.coreMachine, (s d).localTask = [] ∧ (s d).localMicroTask = [])
    (cores : ∀ c b, Absent (coreWeight c) b (s b)) (nocores : ∀ c b, Absent (nocoreWeight c) b (s b))
    (syncs : ∀ d b, Absent (syncWeight (syncContent d)) b (s b))
    (nodes : ∀ d b, Absent (nodeWeight (nodeContent d)) b (s b)) : Terminated cfg s := by
  refine ⟨rested,fun d inside => ⟨(tasks d inside).1,(tasks d inside).2,?_⟩,fun b p msg member => ?_,
    fun p k msg member => ?_,fun b p => ⟨?_,?_⟩,fun b p => ⟨?_,?_⟩,fun b p msg member => ?_,fun b => ⟨?_,?_⟩⟩
  · refine List.eq_nil_iff_forall_not_mem.mpr (fun r member => ?_)
    exact countedOnce ((cores d d).localRes r member) ((nocores d d).localRes r member)
  · exact workless (fun c => (cores c b).wire p msg member) (fun c => (nocores c b).wire p msg member)
      ((syncs p b).wire p msg member) ((nodes p b).wire p msg member)
  · exact workless (fun c => (cores c p).rbuf k msg member) (fun c => (nocores c p).rbuf k msg member)
      ((syncs p p).rbuf k msg member) ((nodes p p).rbuf k msg member)
  · refine List.eq_nil_iff_forall_not_mem.mpr (fun r member => ?_)
    exact Quiescence.noTask ((cores _ b).taskQueue p r member) ((nocores _ b).taskQueue p r member) rfl
  · refine List.eq_nil_iff_forall_not_mem.mpr (fun r member => ?_)
    exact Quiescence.noNodeTask ((cores _ b).nodeTaskQueue p r member) rfl
  · refine List.eq_nil_iff_forall_not_mem.mpr (fun r member => ?_)
    exact countedOnce ((cores p b).resultQueue p r member) ((nocores p b).resultQueue p r member)
  · refine List.eq_nil_iff_forall_not_mem.mpr (fun r member => ?_)
    exact absurd ((if_pos rfl).symm.trans ((cores p b).nodeResultQueue p r member)) Nat.one_ne_zero
  · exact nodeContentNone ((nodes p b).noncoreSyncMsg p msg member)
  · refine List.eq_nil_iff_forall_not_mem.mpr (fun r member => ?_)
    exact Quiescence.noTask ((cores _ b).curTaskQueue r member) ((nocores _ b).curTaskQueue r member) rfl
  · refine List.eq_nil_iff_forall_not_mem.mpr (fun r member => ?_)
    exact Quiescence.noNodeTask ((cores _ b).curNodeQueue r member) rfl

/- In a run where a white machine passes a white token on only when nothing for it is on
its way, the search is over on all machines when global_term is set. -/
theorem terminatedOnEnd [Zero D] {acts : List (Act n)} {act : Act n} {a : Fin n}
    (along : Along (step x cfg) (Flushed cfg) (start cfg) acts) (ok : run (step x cfg) (start cfg) acts = some s)
    (last : step x cfg s act = some t) (before : (s a).globalTerm = false) (sets : (t a).globalTerm = true)
    (several : 1 < (s a).coreMachine.length) : Terminated cfg t := by
  have guarded : Guarded cfg x s := by
    refine runInvariantAlong (fun _ _ _ good done' inv => ?_) along ok startGuarded
    exact stepGuarded good done' inv
  have counted := guarded.passed.counted
  rcases stepCases last with ⟨b,m',rfl,effect⟩ | ⟨same,_⟩
  · have here : a = b := by
      by_contra away
      rw [Function.update_of_ne away,before] at sets
      cases sets
    subst here
    rw [Function.update_self] at sets
    obtain ⟨ending,lists,bound,fewer,totals⟩ := setsTerm effect (noOwnTask counted a) before sets
    obtain ⟨searching,clean⟩ := allClean guarded ending several
    have white : ∀ d ∈ cfg.coreMachine, (s d).search.procIsBlack = false := fun d inside => (clean d inside).white
    have none' : ∀ d, content d s = 0 := by
      intro d
      by_cases inside : d ∈ cfg.coreMachine
      · exact (clean d inside).content
      · exact searching.outside d inside
    -- what is zero before the step is zero after it
    have zero : ∀ w : Weight n D, (∀ p f, w.query p f = 0) → totalAll w s = 0 →
        ∀ b, Absent w b (Function.update s a m' b) := by
      intro w free none' b
      exact (totalAbsent _).mp (totalAt (hostZero none' (totals w free).le) b)
    refine terminated (fun d inside c member => ?_) (fun d inside => ?_)
      (fun c => zero (coreWeight c) (fun _ _ => rfl) (whiteNoWork counted searching white c).1)
      (fun c => zero (nocoreWeight c) (fun _ _ => rfl) (whiteNoWork counted searching white c).2)
      (fun d => zero (syncWeight (syncContent d)) (fun _ _ => rfl) (Nat.add_eq_zero_iff.mp (none' d)).1)
      (fun d => zero (nodeWeight (nodeContent d)) (fun _ _ => rfl) (Nat.add_eq_zero_iff.mp (none' d)).2)
    · have beyond := ((searching.sound d).passive (white d inside)).2.rested.beyond
      rcases eq_or_ne d a with rfl | away
      · rw [Function.update_self] at member ⊢
        rw [bound]
        exact beyond c (fewer c member)
      · rw [Function.update_of_ne away] at member ⊢
        exact beyond c member
    · have tasks := (clean d inside).tasks
      rcases eq_or_ne d a with rfl | away
      · simp only [protocol,Prod.mk.injEq] at lists
        rw [Function.update_self,lists.2.2.1,lists.2.2.2.1]
        exact tasks
      · rw [Function.update_of_ne away]
        exact tasks
  · rw [(same a).1,before] at sets
    cases sets

end Runs

section Late
open Forwarding

/- The NODE_SYNC arrives before the leader gives its token away: machine 1 finds vertex 5
and sends it to machine 0, and the token comes back white twice after that. -/
def inTime : List (Act 3) :=
  lateExpand ++ [.deliver 2 1,.host 1 (.poll .nodeSync)] ++ tokenHop 0 1 ++ again 1 ++ again 1 ++ again 1 ++ again 1 ++
    tokenHop 1 0 ++ tokenHop 1 0 ++ again 0 ++ tokenHop 0 1 ++ tokenHop 1 0 ++ tokenHop 0 1 ++
    [.deliver 1 0,.host 0 (.poll .sync),.host 0 .procSubquery]

theorem terminatedOnEndInTime : ∃ s t, Along (step lateIndex lateConfig) (Flushed lateConfig) (start lateConfig) inTime ∧
    run (step lateIndex lateConfig) (start lateConfig) inTime = some s ∧
    step lateIndex lateConfig s (.host 0 .loopTop) = some t ∧ (s 0).globalTerm = false ∧ (t 0).globalTerm = true ∧
    (s 0).visitHash = [5,7,6,0] ∧ Terminated lateConfig t := by
  have along : Along (step lateIndex lateConfig) (Flushed lateConfig) (start lateConfig) inTime := by decide +kernel
  have last : (run (step lateIndex lateConfig) (start lateConfig) inTime).map (fun s =>
      ((s 0).globalTerm,(step lateIndex lateConfig s (.host 0 .loopTop)).map (fun t => (t 0).globalTerm),
        (s 0).coreMachine,(s 0).visitHash)) = some (false,some true,[0,1],[5,7,6,0]) := by decide +kernel
  obtain ⟨s,ok,value⟩ := Option.map_eq_some_iff.mp last
  simp only [Prod.mk.injEq] at value
  obtain ⟨before,after,core,visited⟩ := value
  obtain ⟨t,ends,sets⟩ := Option.map_eq_some_iff.mp after
  refine ⟨s,t,along,ok,ends,before,sets,visited,?_⟩
  exact terminatedOnEnd along ok ends before sets (by rw [core]; decide)

def bringsWork : Message n D → Bool
  | .nodeSync ms => ms.any (fun msg => !msg.coreMicroNgh.isEmpty)
  | _ => false

-- The leader ends with the NODE_SYNC for machine 1 still on the wire.
theorem terminatedTooEarly : ∃ s t, run (step lateIndex lateConfig) (start lateConfig) lateEnd.dropLast = some s ∧
    step lateIndex lateConfig s (.host 0 .loopTop) = some t ∧ (s 0).globalTerm = false ∧ (t 0).globalTerm = true ∧
    1 < (s 0).coreMachine.length ∧ ¬Terminated lateConfig t := by
  have last : (run (step lateIndex lateConfig) (start lateConfig) lateEnd.dropLast).map (fun s =>
      ((s 0).globalTerm,(step lateIndex lateConfig s (.host 0 .loopTop)).map (fun t =>
        ((t 0).globalTerm,((t 2).wire 1).any bringsWork)),(s 0).coreMachine)) =
      some (false,some (true,true),[0,1]) := by decide +kernel
  obtain ⟨s,ok,value⟩ := Option.map_eq_some_iff.mp last
  simp only [Prod.mk.injEq] at value
  obtain ⟨before,after,core⟩ := value
  obtain ⟨t,ends,both⟩ := Option.map_eq_some_iff.mp after
  obtain ⟨sets,sent⟩ := Prod.mk.inj both
  refine ⟨s,t,ok,ends,before,sets,by rw [core]; decide,fun over' => ?_⟩
  obtain ⟨msg,member,found⟩ := List.any_eq_true.mp sent
  have idle := over'.wire 2 1 msg member
  cases msg with
  | nodeSync ms =>
    obtain ⟨e,inside,work⟩ := List.any_eq_true.mp found
    rw [(idle e inside).1] at work
    exact absurd work Bool.false_ne_true
  | _ => exact absurd found Bool.false_ne_true

end Late

end CoTra.Termination
