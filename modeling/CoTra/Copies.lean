import CoTra.Visits
import CoTra.Roster

/-! The copies of a distance that are in top_candidates of one machine or can still get
there, and what each operation adds to them: nothing, unless it marks the vertex in its
visit hash. The fork of a query brings the candidates of the pre-stage. -/
namespace CoTra.Copies
open Priority SubQuery Spread SubQueryTotals SubQueryDrain SubQueryEffects Roster Visits

variable {n : Nat} {D : Type} [Distance D]

section Copies

variable (v : Nat) (c : Fin n)

/- Distances of v that are on their way to top_candidates of machine c, straight or
through the SYNC of another machine. -/
def claimWeight : Weight n D :=
  { blank with
    result := fun _ r => times v r.res
    nodeResult := fun _ r => times v r.res
    chunk := fun _ ch => times v ch.elems
    sync := fun p msg => if p = c then times v msg.localAddCand else 0
    query := fun p f => if p = c then times v f.topCandidates else 0 }

def held (a : Fin n) (s : Search D) : Nat :=
  if a = c then times v s.topCandidates.elems else times v s.localAddCand

def copies (a : Fin n) (m : Machine n D) : Nat := total (claimWeight v c) a m + held v c a m.search

/- What an operation leaves alone unless it evaluates something. -/
def memo (m : Machine n D) : List Nat × List (D × Nat) := (m.visitHash,m.result)

/- An operation pays for every new distance of v with a mark in its visit hash. -/
structure Spends (me : Fin n) (vs : List Nat) (m m' : Machine n D) : Prop where
  less : copies v c me m' + seen v m.visitHash ≤ copies v c me m + seen v m'.visitHash
  keeps : ∀ w ∈ m.visitHash, w ∈ m'.visitHash
  source : ∀ w ∈ m'.visitHash, w ∈ m.visitHash ∨ w ∈ vs
  result : m'.result = m.result
  forks : ∀ f, total (queryWeight f) me m' ≤ total (queryWeight f) me m

variable {v c} {x : Index n D} {cfg : Config n D} {me : Fin n} {m m' : Machine n D}

theorem chargedHeld {k : Nat} {s s' : Search D} (charged : Charged v k s s') (a : Fin n) :
    held v c a s' ≤ held v c a s + k := by
  unfold held
  split
  · exact charged.1
  · exact charged.2

theorem plainSpends (less : copies v c me m' ≤ copies v c me m) (same : memo m' = memo m)
    (forks : ∀ f, total (queryWeight f) me m' ≤ total (queryWeight f) me m) : Spends v c me [] m m' := by
  obtain ⟨hash,result⟩ := Prod.mk.inj same
  refine ⟨?_,fun w marked => by rw [hash]; exact marked,fun w marked => .inl (by rw [← hash]; exact marked),result,forks⟩
  rw [hash]
  exact Nat.add_le_add_right less _

theorem sameSpends (search : m'.search = m.search) (totals : ∀ w : Weight n D, total w me m' = total w me m)
    (same : memo m' = memo m) : Spends v c me [] m m' := by
  refine plainSpends ?_ same (fun f => (totals _).le)
  rw [copies,copies,totals,search]

theorem movesSpends (moves : Moves me m m') (same : memo m' = memo m) : Spends v c me [] m m' :=
  sameSpends (by rw [moves.query]) moves.same same

theorem memoFold {β : Type} {f : Machine n D → β → Machine n D} (each : ∀ m b, memo (f m b) = memo m) (bs : List β)
    (m : Machine n D) : memo (bs.foldl f m) = memo m :=
  List.foldlRecOn (motive := fun m' => memo m' = memo m) bs f rfl (fun m' same b _ => (each m' b).trans same)

theorem wakeMemo (m : Machine n D) : memo (wake m) = memo m := by
  unfold wake
  split <;> rfl

theorem wakeSearch (m : Machine n D) : (wake m).search = m.search := by
  unfold wake
  split <;> rfl

theorem postNodeResultMemo (p : Fin n) (m : Machine n D) : memo (postNodeResult p m) = memo m := by
  unfold postNodeResult
  split <;> rfl

theorem postNodeSyncMemo (p : Fin n) (m : Machine n D) : memo (postNodeSync p m) = memo m := by
  unfold postNodeSync
  split <;> rfl

theorem postRemoteResultMemo (p : Fin n) (m : Machine n D) : memo (postRemoteResult p m) = memo m := by
  unfold postRemoteResult
  split <;> rfl

theorem drainSpends (m : Machine n D) : Spends v c me (waiting x me m) m (drain x cfg me m) := by
  have walked := drainWalked (v := v) x cfg me m
  obtain ⟨k,charged,count⟩ := walked.charged
  refine ⟨?_,walked.keeps,walked.source,walked.result,fun f => ?_⟩
  · have loss := drainTotal x cfg me (claimWeight v c) m
    have kept := chargedHeld (c := c) charged me
    have waits : consumed me (claimWeight v c) m = pending v m := by
      have tasks : sumOf ((claimWeight v c : Weight n D).localTask me) m.baTaskQueue = 0 := sumNone (fun _ _ => rfl)
      have reads : sumOf ((claimWeight v c : Weight n D).read me) m.recvAsyncReadQueue = 0 := sumNone (fun _ _ => rfl)
      rw [consumed,tasks,reads,Nat.zero_add,Nat.add_zero]
      rfl
    rw [waits] at loss
    rw [copies,copies]
    omega
  · rw [← drainTotal x cfg me (queryWeight f) m]
    exact Nat.le_add_right _ _

theorem procQuerySpends (ok : procQuery me m = some m') : Spends v c me [] m m' := by
  unfold procQuery at ok
  split at ok <;> try contradiction
  split at ok
  · cases Option.some.inj ok
    exact sameSpends rfl (fun _ => rfl) rfl
  · cases Option.some.inj ok
    exact sameSpends rfl (fun _ => rfl) rfl

theorem procNodeResSpends {r : NodeResult D} {rest : List (NodeResult D)} (queue : m.nodeResultQueue me = r :: rest) :
    Spends v c me [] m (wake { m with
      nodeResultQueue := Function.update m.nodeResultQueue me rest
      nocorePost := m.nocorePost + r.postCnt
      localRes := m.localRes ++ [⟨1,0,rfl,r.res,some r.node⟩] }) := by
  have taken := fun w : Weight n D => spreadUpdate w.nodeResult m.nodeResultQueue me rest
  refine plainSpends ?_ (wakeMemo _) (fun f => ?_)
  · have change := taken (claimWeight v c)
    rw [queue,sumCons] at change
    rw [copies,copies,wakeTotal,wakeSearch]
    simp only [total,readTotal,sumAppend,sumCons,sumNil]
    simp only [claimWeight] at change ⊢
    omega
  · have change := taken (queryWeight f)
    rw [queue,sumCons] at change
    rw [wakeTotal]
    simp only [total,readTotal,sumAppend,sumCons,sumNil]
    simp only [queryWeight,blank] at change ⊢
    omega

theorem postRemoteResTaskSyncSpends (m : Machine n D) : Spends v c me [] m (postRemoteResTaskSync me m) :=
  movesSpends (postRemoteResTaskSyncMoves m)
    ((memoFold (fun m p => postNodeSyncMemo p m) (others me) _).trans
      (memoFold (fun m p => postNodeResultMemo p m) (others me) m))

theorem postRemoteResultSpends (p : Fin n) (m : Machine n D) : Spends v c me [] m (postRemoteResult p m) :=
  movesSpends (postRemoteResultMoves p m) (postRemoteResultMemo p m)

/- A SYNC is merged without a look at what is in top_candidates. -/
theorem mergeTimes (bound : D) (cs : List (D × Nat)) (top : PQueue D Nat) :
    times v (cs.foldl (fun top c => addCand cfg c bound top) top).elems ≤ times v top.elems + times v cs := by
  induction cs generalizing top with
  | nil => exact Nat.le_refl _
  | cons d rest ih =>
    have one : times v (addCand cfg d bound top).elems ≤ times v top.elems + if d.2 = v then 1 else 0 := by
      unfold addCand
      split
      · exact (pushTimes top d).le
      · exact Nat.le_add_right _ _
    have later := ih (addCand cfg d bound top)
    rw [timesCons,List.foldl_cons]
    omega

theorem updateHeld (msg : SyncMsg n D) (q : QueryMsg n D) :
    held v c me (updateSubQuery cfg me msg q).search ≤
      held v c me q.search + (claimWeight v c).sync me msg := by
  simp only [held,claimWeight]
  split
  · exact (popTimes cfg.ef _).trans (mergeTimes q.search.lowerBound msg.localAddCand q.search.topCandidates)
  · exact Nat.le_refl _

theorem nodeSyncsFoldMemo (ms : List (NonCoreSyncMsg n)) (m : Machine n D) :
    memo (ms.foldl (fun m msg => wake { m with toQueryMsg := updateSubQueryFromNoncore m.toQueryMsg msg }) m) = memo m := by
  refine memoFold (fun m msg => ?_) ms m
  exact wakeMemo _

/- A received message that is not the query itself. -/
theorem deserializeSpends {k : Control} {msg : Message n D} {rest : List (Message n D)} (queue : m.rbuf k = msg :: rest)
    (other : msg.control ≠ .query) :
    Spends v c me [] m (deserialize cfg me { m with rbuf := Function.update m.rbuf k rest } msg) := by
  have taken := fun w : Weight n D => pollTotal me w queue
  cases msg with
  | query f => exact absurd rfl other
  | sync msg =>
    have totals := fun w : Weight n D => wakeTotal me w { m with
      rbuf := Function.update m.rbuf k rest, toQueryMsg := updateSubQuery cfg me msg m.toQueryMsg }
    refine plainSpends ?_ (wakeMemo _) (fun f => ?_)
    · have loss : total (claimWeight v c) me { m with rbuf := Function.update m.rbuf k rest } +
          (claimWeight v c).sync me msg = total (claimWeight v c) me m := taken _
      have gain : held v c me (updateSubQuery cfg me msg m.toQueryMsg).search ≤
          held v c me m.search + (claimWeight v c).sync me msg := updateHeld msg m.toQueryMsg
      have same : total (claimWeight v c) me { m with
          rbuf := Function.update m.rbuf k rest, toQueryMsg := updateSubQuery cfg me msg m.toQueryMsg } =
          total (claimWeight v c) me { m with rbuf := Function.update m.rbuf k rest } := rfl
      simp only [deserialize,copies]
      rw [totals,wakeSearch,same]
      dsimp only
      omega
    · rw [← taken]
      simp only [deserialize]
      rw [totals]
      exact Nat.le_add_right _ _
  | nodeSync ms =>
    obtain ⟨query,_,same⟩ := nodeSyncsFold me ms { m with rbuf := Function.update m.rbuf k rest }
    refine plainSpends ?_ (nodeSyncsFoldMemo ms _) (fun f => ?_)
    · have loss := taken (claimWeight v c)
      simp only [deserialize,copies]
      rw [same,query,nodeSyncedSearch,← loss]
      dsimp only
      omega
    · rw [← taken]
      simp only [deserialize]
      rw [same]
      exact Nat.le_add_right _ _
  | task ts ns =>
    refine sameSpends rfl (fun w => ?_) rfl
    rw [← taken w]
    simp only [deserialize,total,readTotal,sumAppend,messageWeight]
    omega
  | result rs =>
    refine sameSpends rfl (fun w => ?_) rfl
    have put := spreadPush w.result m.resultQueue me rs
    rw [← taken w]
    simp only [deserialize,total,readTotal,messageWeight]
    omega
  | nodeResult rs =>
    refine sameSpends rfl (fun w => ?_) rfl
    have put := spreadPush w.nodeResult m.nodeResultQueue me rs
    rw [← taken w]
    simp only [deserialize,total,readTotal,messageWeight]
    omega

/- Distances found against the visit hash, as one new item. -/
theorem visitSpends (vs : List Nat) (copied : copies v c me m' ≤ copies v c me m + times v (visit x vs m.visitHash).1)
    (hash : m'.visitHash = (visit x vs m.visitHash).2) (result : m'.result = m.result)
    (forks : ∀ f, total (queryWeight f) me m' ≤ total (queryWeight f) me m) : Spends v c me vs m m' := by
  have count := visitTimes (v := v) x vs m.visitHash
  refine ⟨?_,fun w marked => ?_,fun w marked => ?_,result,forks⟩
  · rw [hash]
    omega
  · rw [hash]
    exact (visitMarks x vs m.visitHash w).mpr (.inl marked)
  · rw [hash] at marked
    exact (visitMarks x vs m.visitHash w).mp marked

theorem pushChunkSpends {t : LocalTask} {rest : List LocalTask} (queue : m.stolen = t :: rest) :
    Spends v c me (slice x me t) m { m with
      stolen := rest
      visitHash := (doTask x me t m.visitHash).2
      conTaskQueue := m.conTaskQueue ++ [(doTask x me t m.visitHash).1] } := by
  refine visitSpends (slice x me t) ?_ rfl rfl (fun f => ?_)
  · simp only [copies,total,readTotal,queue,sumAppend,sumCons,sumNil,slice,doTask]
    simp only [claimWeight,blank]
    omega
  · simp only [total,readTotal,queue,sumAppend,sumCons,sumNil]
    simp only [queryWeight,blank]
    omega

theorem computeTaskSpends {t : ComputeTask n D} {rest : List (ComputeTask n D)} (queue : m.curTaskQueue = t :: rest) :
    Spends v c me (nghIds x me t.ngh) m (computeTask x me t { m with curTaskQueue := rest }) := by
  have put := fun w : Weight n D => spreadPush w.result m.resultQueue t.machineId
    [taskResult t (visit x (nghIds x me t.ngh) m.visitHash).1]
  refine visitSpends (nghIds x me t.ngh) ?_ rfl rfl (fun f => ?_)
  · have added := put (claimWeight v c)
    have fewer : times v (taskResult t (visit x (nghIds x me t.ngh) m.visitHash).1).res ≤
        times v (visit x (nghIds x me t.ngh) m.visitHash).1 := timesLe List.filter_sublist
    simp only [sumCons,sumNil] at added
    simp only [copies,computeTask,total,readTotal,queue,sumCons]
    simp only [claimWeight,blank] at added ⊢
    omega
  · have added := put (queryWeight f)
    simp only [sumCons,sumNil] at added
    simp only [computeTask,total,readTotal,queue,sumCons]
    simp only [queryWeight,blank] at added ⊢
    omega

theorem Spends.trans {vs ws : List Nat} {b d : Machine n D} (first : Spends v c me vs m b) (second : Spends v c me ws b d) :
    Spends v c me (vs ++ ws) m d := by
  have less := first.less
  have less' := second.less
  refine ⟨by omega,fun w old => second.keeps w (first.keeps w old),fun w marked => ?_,second.result.trans first.result,
    fun f => (second.forks f).trans (first.forks f)⟩
  rcases second.source w marked with old | late
  · exact (first.source w old).imp_right (List.mem_append_left _)
  · exact .inr (List.mem_append_right _ late)

-- A full queue is posted at once.
theorem mergedSpends {vs : List Nat} {e : Machine n D} (spends : Spends v c me vs m e) {full : Prop} [Decidable full]
    {post : Machine n D → Machine n D} (posts : Spends v c me [] e (post e)) :
    Spends v c me vs m (if full then post e else e) := by
  split
  · have both := spends.trans posts
    rwa [List.append_nil] at both
  · exact spends

variable (x me) in
/- The slice that a NodeTask looks at. -/
def localSlice : List (Record n) → List Nat
  | [] => []
  | .localNgh deg ofs :: _ => x.nghPtr me ofs deg
  | .micro _ _ :: rest => localSlice rest
  | .large _ _ _ :: rest => localSlice rest

-- What goes out with a SYNC does not stay for the next one.
variable (me) in
theorem syncsPlaces (nxt : Fin n) (propToken taken : Bool) (ps : List (Fin n)) :
    (SubQueryTotals.syncs me nxt propToken taken ps).map Prod.fst = ps.filter (· ≠ me) := by
  induction ps generalizing taken with
  | nil => rfl
  | cons p rest ih =>
    simp only [SubQueryTotals.syncs]
    split
    · rename_i own
      rw [ih,List.filter_cons_of_neg (by simp [own])]
    · rename_i other
      rw [List.map_cons,ih,List.filter_cons_of_pos (by simp [other])]

theorem clearedHeld {q : QueryMsg n D} {s : Search D} {nxt : Fin n} {propToken taint taken : Bool} {ps : List (Fin n)}
    (once : ps.Nodup) (top : s.topCandidates = q.search.topCandidates) (cleared : s.localAddCand = []) :
    held v c me s + sumOf (fun e => (claimWeight v c).sync e.1 (syncMsg q e.2 taint))
      (SubQueryTotals.syncs me nxt propToken taken ps) ≤ held v c me q.search := by
  have places := syncsPlaces me nxt propToken taken ps
  unfold held
  split
  · rename_i here
    have none' : sumOf (fun e => (claimWeight v c).sync e.1 (syncMsg q e.2 taint))
        (SubQueryTotals.syncs me nxt propToken taken ps) = 0 := by
      refine sumNone (fun e member => if_neg (fun at' => ?_))
      exact (syncsTo me member).1 (at'.trans here.symm)
    rw [none',top]
    exact Nat.le_refl _
  · rw [cleared]
    have one : sumOf (fun e => (claimWeight v c).sync e.1 (syncMsg q e.2 taint))
        (SubQueryTotals.syncs me nxt propToken taken ps) ≤ times v q.search.localAddCand := by
      have unique : ((SubQueryTotals.syncs me nxt propToken taken ps).map Prod.fst).Nodup := by
        rw [places]
        exact once.filter _
      refine sumOnce c unique (fun e _ away => if_neg away) (fun e _ => ?_)
      simp only [claimWeight]
      split
      · exact timesLe List.filter_sublist
      · exact Nat.zero_le _
    simp only [times,List.countP_nil,Nat.zero_add] at one ⊢
    exact one

theorem postSyncMemo (nxt : Fin n) (propToken taint : Bool) (m : Machine n D) (p : Fin n) :
    memo (postSync me nxt propToken taint m p) = memo m := by
  unfold postSync
  split <;> rfl

theorem syncedSpends {nxt : Fin n} {propToken taint : Bool} (once : m.coreMachine.Nodup)
    (totals : ∀ w : Weight n D, total w me m' =
      total w me (m.coreMachine.foldl (postSync me nxt propToken taint) m))
    (same : memo m' = memo (m.coreMachine.foldl (postSync me nxt propToken taint) m))
    (top : m'.search.topCandidates = m.search.topCandidates) (cleared : m'.search.localAddCand = []) :
    Spends v c me [] m m' := by
  refine plainSpends ?_ (same.trans (memoFold (postSyncMemo nxt propToken taint) _ m)) (fun f => ?_)
  · have kept : held v c me m'.search + sumOf (fun e => (claimWeight v c).sync e.1 (syncMsg m.toQueryMsg e.2 taint))
        (SubQueryTotals.syncs me nxt propToken m.hasToken m.coreMachine) ≤ held v c me m.search :=
      clearedHeld once top cleared
    rw [copies,copies,totals,postSyncsTotal]
    omega
  · have none' : sumOf (fun e => (queryWeight f).sync e.1 (syncMsg m.toQueryMsg e.2 taint))
        (SubQueryTotals.syncs me nxt propToken m.hasToken m.coreMachine) = 0 := sumNone (fun _ _ => rfl)
    rw [totals,postSyncsTotal,none']
    exact Nat.le_refl _

theorem periodicSyncSpends (once : m.coreMachine.Nodup) : Spends v c me [] m (periodicSync me m) := by
  unfold periodicSync
  split
  · have query := postSyncsQuery me (nxtPropM me m.coreMachine) false false m.coreMachine
      { m with syncLowerBound := m.search.lowerBound }
    have first : Spends v c me [] m { m with syncLowerBound := m.search.lowerBound } :=
      sameSpends rfl (fun _ => rfl) rfl
    refine first.trans (syncedSpends once (fun _ => rfl) rfl ?_ rfl)
    simp only [clearSync,postSubquerySync,query]
  · exact sameSpends rfl (fun _ => rfl) rfl

theorem propTokenSpends (once : m.coreMachine.Nodup) : Spends v c me [] m (pauseQuery (propToken me m)) := by
  have first : Spends v c me [] m { m with
      search := { m.search with procIsBlack := false }, tokenIsBlack := false } :=
    plainSpends (Nat.le_refl _) rfl (fun _ => Nat.le_refl _)
  have query := postSyncsQuery me (nxtPropM me m.coreMachine) true (m.search.procIsBlack || m.tokenIsBlack) m.coreMachine
    { m with search := { m.search with procIsBlack := false }, tokenIsBlack := false }
  have top : (pauseQuery (propToken me m)).search.topCandidates = m.search.topCandidates := by
    simp only [pauseQuery,propToken,clearSync,postSubquerySync,query]
  exact first.trans (syncedSpends once (fun _ => rfl) rfl top rfl)

theorem claimExpand (q : QueryMsg n D) (vs : List Nat) : sumOf (expandGain (claimWeight v c) x cfg me q) vs = 0 := by
  refine sumNone (fun u _ => ?_)
  unfold expandGain
  split
  · rfl
  · exact lbGainZero me (fun _ _ _ => rfl) (fun _ _ _ _ _ _ => rfl) (fun _ _ _ _ _ => rfl)

theorem expandNodesSpends (vs : List Nat) (m : Machine n D) :
    Spends v c me [] m (vs.foldl (expandNode x cfg me) m) := by
  obtain ⟨_,_,_,grown⟩ := expandNodesGrows x cfg me vs m
  refine plainSpends ?_ (expandNodesFrame x cfg me memo (fun _ _ _ _ _ _ _ _ => rfl) vs m) (fun f => ?_)
  · rw [copies,copies,expandNodesTotal,claimExpand,grown]
    exact Nat.le_refl _
  · rw [expandNodesTotal,expandNone]
    exact Nat.le_refl _

theorem expandGroupSpends (vs : List Nat) (once : m.coreMachine.Nodup) :
    Spends v c me [] m (expandGroup x cfg me vs m) := by
  obtain ⟨_,_,_,grown⟩ := expandNodesGrows x cfg me vs m
  have moved : Moves me (vs.foldl (expandNode x cfg me) m) (postRemoteTask me (vs.foldl (expandNode x cfg me) m)) :=
    postRemoteTaskMoves _
  have posted : Spends v c me [] m (postRemoteTask me (vs.foldl (expandNode x cfg me) m)) :=
    (expandNodesSpends vs m).trans (movesSpends moved rfl)
  have core : (postRemoteTask me (vs.foldl (expandNode x cfg me) m)).coreMachine = m.coreMachine := by
    rw [moved.query,grown]
  unfold expandGroup
  generalize postRemoteTask me (vs.foldl (expandNode x cfg me) m) = e at posted core ⊢
  rw [← core] at once
  have ticked : Spends v c me [] e { e with syncStep := e.syncStep + 1 } := sameSpends rfl (fun _ => rfl) rfl
  have synced : Spends v c me [] e (periodicSync me { e with syncStep := e.syncStep + 1 }) :=
    ticked.trans (periodicSyncSpends once)
  exact (posted.trans synced).trans (sameSpends rfl (fun _ => rfl) rfl)

/- The end of the search, which empties top_candidates. -/
structure Finishes (me : Fin n) (m m' : Machine n D) : Prop where
  top : m.coro = .top
  coro : m'.coro = .finished
  leader : 1 < m.coreMachine.length → m.leaderMachine = me

theorem endQueryCoro (m : Machine n D) : (endQuery x cfg me m).coro = .finished := by
  unfold endQuery
  simp only
  split
  · rfl
  · split <;> rfl

theorem leaderTokenSpends (once : m.coreMachine.Nodup) (top : m.coro = .top) (leader : m.leaderMachine = me) :
    Spends v c me [] m (leaderToken x cfg me m) ∨ Finishes me m (leaderToken x cfg me m) := by
  unfold leaderToken
  simp only
  split
  · exact .inr ⟨top,endQueryCoro _,fun _ => leader⟩
  · have first : Spends v c me [] m { m with
        search := { m.search with procIsBlack := false }, tokenIsBlack := false
        lastIsWhite := !(m.tokenIsBlack || m.search.procIsBlack) } :=
      plainSpends (Nat.le_refl _) rfl (fun _ => Nat.le_refl _)
    exact .inl (first.trans (propTokenSpends once))

theorem leaveSpends (once : m.coreMachine.Nodup) (top : m.coro = .top) :
    Spends v c me [] m (leave x cfg me m) ∨ Finishes me m (leave x cfg me m) := by
  unfold leave
  split
  · split
    · split
      · rename_i leader
        exact leaderTokenSpends once top leader
      · exact .inl (propTokenSpends once)
    · exact .inl (sameSpends rfl (fun _ => rfl) rfl)
  · rename_i single
    exact .inr ⟨top,endQueryCoro _,fun several => absurd several single⟩

theorem loopTopSpends (once : m.coreMachine.Nodup) (top : m.coro = .top) :
    Spends v c me [] m (loopTop x cfg me m) ∨ Finishes me m (loopTop x cfg me m) := by
  unfold loopTop
  simp only
  split
  · split
    · split
      · exact leaveSpends once top
      · exact .inl (sameSpends rfl (fun _ => rfl) rfl)
    · exact .inl (sameSpends rfl (fun _ => rfl) rfl)
  · have first : Spends v c me [] m { m with search := { m.search with
        candidateSet := (popGroup m.search.lowerBound candGroupSize m.search.candidateSet).2 } } :=
      plainSpends (Nat.le_refl _) rfl (fun _ => Nat.le_refl _)
    exact .inl (first.trans (expandGroupSpends _ once))

variable (x me) in
/- The vertices that a resumed coroutine looks at. -/
def atResume (m : Machine n D) : List Nat := if m.coro = .yielded then waiting x me m else []

/- The queues that resumeCoro finds are those of m, less the item that was taken. -/
theorem resumeCoroSpends {b : Machine n D} (ok : resumeCoro x cfg me b = some m') (first : Spends v c me [] m b)
    (same : atResume x me b = atResume x me m) : Spends v c me (atResume x me m) m m' := by
  unfold resumeCoro at ok
  rw [← same]
  split at ok <;> try contradiction
  · rename_i suspended
    cases Option.some.inj ok
    rw [atResume,if_pos suspended]
    have drained : Spends v c me (waiting x me b) b (drain x cfg me b) := drainSpends b
    generalize drain x cfg me b = d at drained ⊢
    have topped : Spends v c me [] d { d with coro := .top, resumed := true } := sameSpends rfl (fun _ => rfl) rfl
    have all := (first.trans drained).trans topped
    rw [List.append_nil] at all
    exact all
  · rename_i finished
    cases Option.some.inj ok
    have none' : atResume x me b = [] := if_neg (by rw [finished]; exact Coro.noConfusion)
    rw [none']
    exact first.trans (sameSpends rfl (fun _ => rfl) rfl)

theorem procSubquerySpends {k : Nat} (ok : resumeCoro x cfg me { m with subqueryQueue := k } = some m') :
    Spends v c me (atResume x me m) m m' := by
  have first : Spends v c me [] m { m with subqueryQueue := k } := sameSpends rfl (fun _ => rfl) rfl
  have same : atResume x me { m with subqueryQueue := k } = atResume x me m := by
    simp only [atResume,waiting]
  exact resumeCoroSpends ok first same

theorem procTaskSpends {t : ComputeTask n D} {rest : List (ComputeTask n D)} (queue : m.curTaskQueue = t :: rest)
    (ok : procTask x cfg me m = some m') :
    Spends v c me (if t.machineId = me then atResume x me m else nghIds x me t.ngh) m m' := by
  have taken : ∀ w : Weight n D, total w me { m with curTaskQueue := rest } ≤ total w me m := by
    intro w
    simp only [total,readTotal,queue,sumCons]
    omega
  simp only [procTask,queue] at ok
  split at ok
  · rename_i own
    rw [if_pos own]
    exact resumeCoroSpends ok (plainSpends (Nat.add_le_add_right (taken _) _) rfl (fun _ => taken _)) rfl
  · rename_i other
    rw [if_neg other]
    cases Option.some.inj ok
    exact mergedSpends (computeTaskSpends queue) (postRemoteResultSpends t.machineId _)

variable [Zero D]

variable (x me) in
theorem nodetaskSlice (t : NodeTask n) (rs : List (Record n)) {e : NodeExpansion n D} (none' : e.slice = none) :
    sliceFound x me (getNodetaskMsg t rs e) = visit x (localSlice x me rs) e.machine.visitHash ∧
      memo (getNodetaskMsg t rs e).machine = memo e.machine := by
  induction rs generalizing e with
  | nil =>
    refine ⟨?_,rfl⟩
    simp only [getNodetaskMsg,sliceFound,none']
    rfl
  | cons r rest ih =>
    cases r with
    | localNgh deg ofs => exact ⟨rfl,rfl⟩
    | micro pid ids =>
      simp only [getNodetaskMsg]
      split
      · exact ih none'
      · exact ih none'
    | large pid ofs deg =>
      simp only [getNodetaskMsg]
      split
      · exact ih none'
      · exact ih none'

theorem expandNodeTaskSpends {t : NodeTask n} {rest : List (NodeTask n)} (queue : m.curNodeQueue = t :: rest) :
    Spends v c me (localSlice x me (x.block t.nodeId)) m (expandNodeTask x me t { m with curNodeQueue := rest }) := by
  obtain ⟨query,_,_,gain⟩ := getNodetaskMsgEffect me t (x.block t.nodeId) ⟨{ m with curNodeQueue := rest },0,none⟩
  obtain ⟨found,same⟩ := nodetaskSlice x me t (x.block t.nodeId)
    (e := ⟨{ m with curNodeQueue := rest },0,none⟩) rfl
  obtain ⟨_,result⟩ := Prod.mk.inj same
  have put := fun w : Weight n D => spreadPush w.nodeResult
    (getNodetaskMsg t (x.block t.nodeId) ⟨{ m with curNodeQueue := rest },0,none⟩).machine.nodeResultQueue t.machineId
    [⟨(getNodetaskMsg t (x.block t.nodeId) ⟨{ m with curNodeQueue := rest },0,none⟩).postCnt,
      (visit x (localSlice x me (x.block t.nodeId)) m.visitHash).1,t.nodeId⟩]
  have quiet : ∀ w : Weight n D, (∀ p t, w.task p t = 0) → (∀ p msg, w.nodeSync p msg = 0) →
      nodeGain w t (x.block t.nodeId) = 0 :=
    fun w tasks syncs => nodeGainZero (fun _ _ _ _ _ _ => tasks _ _) (fun _ _ _ _ _ _ _ => syncs _ _)
  refine visitSpends (x := x) (localSlice x me (x.block t.nodeId)) ?_ ?_ result (fun f => ?_)
  · have added := put (claimWeight v c)
    have moved := gain (claimWeight v c)
    rw [quiet _ (fun _ _ => rfl) (fun _ _ => rfl)] at moved
    simp only [sumCons,sumNil] at added
    simp only [copies,expandNodeTask,found,query]
    simp only [total,readTotal,queue,sumCons] at moved ⊢
    simp only [claimWeight,blank] at added moved ⊢
    omega
  · rw [expandNodeTask,found]
  · have added := put (queryWeight f)
    have moved := gain (queryWeight f)
    rw [quiet _ (fun _ _ => rfl) (fun _ _ => rfl)] at moved
    simp only [sumCons,sumNil] at added
    simp only [expandNodeTask,found]
    simp only [total,readTotal,queue,sumCons] at moved ⊢
    simp only [queryWeight,blank] at added moved ⊢
    omega

theorem procNodeTaskSpends {t : NodeTask n} {rest : List (NodeTask n)} (queue : m.curNodeQueue = t :: rest)
    (ok : procNodeTask x me m = some m') : Spends v c me (localSlice x me (x.block t.nodeId)) m m' := by
  simp only [procNodeTask,queue] at ok
  split at ok <;> try contradiction
  cases Option.some.inj ok
  have expanded : Spends v c me (localSlice x me (x.block t.nodeId)) m
      (expandNodeTask x me t { m with curNodeQueue := rest }) := expandNodeTaskSpends queue
  generalize expandNodeTask x me t { m with curNodeQueue := rest } = e at expanded ⊢
  have posted : Spends v c me (localSlice x me (x.block t.nodeId)) m
      (if postResMerge ≤ (e.nodeResultQueue t.machineId).length then postNodeResult t.machineId e else e) :=
    mergedSpends expanded (movesSpends (postNodeResultMoves t.machineId e) (postNodeResultMemo t.machineId e))
  exact mergedSpends posted (movesSpends (postNodeSyncMoves t.machineId _) (postNodeSyncMemo t.machineId _))

end Copies

section Books

variable {v : Nat} {c : Fin n} {x : Index n D} {cfg : Config n D} {me : Fin n} {m m' : Machine n D}

-- The labels that a fork carries.
def carried (_ : Fin n) (f : QueryFork n D) : Nat := f.result.length

/- The visit hash starts empty on the origin, while every core machine has the
candidates of the pre-stage in top_candidates. -/
structure Opens (v : Nat) (c : Fin n) (cfg : Config n D) (me : Fin n) (m m' : Machine n D) : Prop where
  origin : me = cfg.originMachine
  new : m.isNew = true
  old : m'.isNew = false
  copied : copies v c me m' ≤ copies v c me m + times v (preStage cfg).preTopCand.elems
  result : m.result = [] → m'.result = [] ∧ total (queryWeight carried) me m' = total (queryWeight carried) me m

structure Merges (v : Nat) (c me : Fin n) (f : QueryFork n D) (m m' : Machine n D) : Prop where
  queued : ∀ w, w.query me f ≤ total w me m
  copied : copies v c me m' ≤ copies v c me m
  keeps : ∀ w ∈ m.visitHash, w ∈ m'.visitHash
  new : m'.isNew = m.isNew
  result : m'.result = f.result
  forks : ∀ g, total (queryWeight g) me m' ≤ total (queryWeight g) me m

variable (x cfg me) in
theorem forkResults (ps : List (Fin n)) (m : Machine n D) (none' : m.result = []) :
    (ps.foldl (forkQuery x cfg) m).result = [] ∧
      total (queryWeight carried) me (ps.foldl (forkQuery x cfg) m) = total (queryWeight carried) me m := by
  induction ps generalizing m with
  | nil => exact ⟨none',rfl⟩
  | cons p rest ih =>
    obtain ⟨result,same⟩ := ih (forkQuery x cfg m p) rfl
    refine ⟨result,same.trans ?_⟩
    have sent := spreadPush (messageWeight (queryWeight carried)) m.wire p [.query
      ⟨m.state,m.search.lowerBound,m.leaderMachine,m.coreMachine,m.search.topCandidates.elems,filterred x cfg p,m.result⟩]
    simp only [sumCons,sumNil,messageWeight,queryWeight,carried,none',List.length_nil] at sent
    simp only [forkQuery,total,readTotal,queryWeight,none'] at sent ⊢
    omega

theorem forksClaimed {msgs : List (Fin n × QueryFork n D)} (places : msgs.map Prod.fst = cfg.coreMachine.filter (· ≠ me))
    (copy : ∀ e ∈ msgs, e.2.topCandidates = (preStage cfg).preTopCand.elems) :
    sumOf (fun e => (claimWeight v c).query e.1 e.2) msgs ≤
      if me = c then 0 else times v (preStage cfg).preTopCand.elems := by
  split
  · rename_i here
    refine (sumNone (fun e member => if_neg (fun at' => ?_))).le
    have inside : e.1 ∈ cfg.coreMachine.filter (· ≠ me) := places ▸ List.mem_map_of_mem member
    exact of_decide_eq_true (List.mem_filter.mp inside).2 (at'.trans here.symm)
  · have unique : (msgs.map Prod.fst).Nodup := by
      rw [places]
      exact cfg.coreNodup.filter _
    refine sumOnce c unique (fun e _ away => if_neg away) (fun e member => ?_)
    simp only [claimWeight,copy e member]
    split
    · exact Nat.le_refl _
    · exact Nat.zero_le _

theorem searchSubOpens (ok : searchSub x cfg me m = some m') : Opens v c cfg me m m' := by
  unfold searchSub at ok
  split at ok <;> try contradiction
  rename_i first
  obtain ⟨msgs,⟨places,each⟩,query,_,gain⟩ := forkQueries x cfg me (cfg.coreMachine.filter (· ≠ me)) { m with
    toQueryMsg := opened cfg m.toQueryMsg
    toSchedule := { m.toSchedule with curQueryNum := m.curQueryNum + 1, resumed := false }
    visitHash := [] }
  have empty := forkResults x cfg me (cfg.coreMachine.filter (· ≠ me)) { m with
    toQueryMsg := opened cfg m.toQueryMsg
    toSchedule := { m.toSchedule with curQueryNum := m.curQueryNum + 1, resumed := false }
    visitHash := [] }
  have sent : sumOf (fun e => (claimWeight v c).query e.1 e.2) msgs ≤
      if me = c then 0 else times v (preStage cfg).preTopCand.elems := by
    refine forksClaimed places (fun e member => ?_)
    obtain ⟨result,shape⟩ := each e member
    rw [shape]
    rfl
  have copied : ∀ m' : Machine n D, total (claimWeight v c) me m' =
        total (claimWeight v c) me m + sumOf (fun e => (claimWeight v c).query e.1 e.2) msgs →
      m'.search.topCandidates = (preStage cfg).preTopCand → m'.search.localAddCand = m.search.localAddCand →
      copies v c me m' ≤ copies v c me m + times v (preStage cfg).preTopCand.elems := by
    intro m' totals top add
    rw [copies,copies,totals,held,held,top,add]
    split at sent
    · rename_i here
      rw [if_pos here,if_pos here]
      omega
    · rename_i away
      rw [if_neg away,if_neg away]
      omega
  simp only [opened] at query
  simp only at ok
  split at ok
  · cases Option.some.inj ok
    refine ⟨first.1,first.2.1,?_,copied _ (gain _) ?_ ?_,empty⟩
    · simp only [enterPostStage,query]
    · simp only [enterPostStage,query]
    · simp only [enterPostStage,query]
  · cases Option.some.inj ok
    refine ⟨first.1,first.2.1,?_,copied _ (gain _) ?_ ?_,empty⟩
    · simp only [query]
    · simp only [query]
    · simp only [query]

theorem deserializeMerges {k : Control} {f : QueryFork n D} {rest : List (Message n D)}
    (queue : m.rbuf k = .query f :: rest) :
    Merges v c me f m (deserialize cfg me { m with rbuf := Function.update m.rbuf k rest } (.query f)) := by
  have taken := fun w : Weight n D => pollTotal me w queue
  refine ⟨fun w => ?_,?_,fun w marked => List.mem_append_right _ marked,rfl,rfl,fun g => ?_⟩
  · rw [← taken]
    exact Nat.le_add_left _ _
  · have loss : total (claimWeight v c) me { m with rbuf := Function.update m.rbuf k rest } +
        (claimWeight v c).query me f = total (claimWeight v c) me m := taken _
    have same : total (claimWeight v c) me (deserializeAndMerge f { m with rbuf := Function.update m.rbuf k rest }) =
        total (claimWeight v c) me { m with rbuf := Function.update m.rbuf k rest } := rfl
    have pushed : times v (pushAll empty f.topCandidates).elems = times v f.topCandidates :=
      timesPerm (pushAllEmpty f.topCandidates)
    simp only [deserialize,copies]
    rw [same]
    simp only [claimWeight,held,deserializeAndMerge] at loss ⊢
    split
    · rename_i here
      rw [if_pos here] at loss
      omega
    · omega
  · rw [← taken]
    exact Nat.le_add_right _ _

variable (x me) in
/- The vertices whose distance an operation computes unless they are in the visit hash. -/
def walked (m : Machine n D) : Op → List Nat
  | .pushChunk =>
    match m.stolen with
    | t :: _ => slice x me t
    | [] => []
  | .procNodeTask =>
    match m.curNodeQueue with
    | t :: _ => localSlice x me (x.block t.nodeId)
    | [] => []
  | .procTask =>
    match m.curTaskQueue with
    | t :: _ => if t.machineId = me then atResume x me m else nghIds x me t.ngh
    | [] => []
  | .procSubquery => atResume x me m
  | _ => []

/- What an operation does to the books of vertex v. -/
inductive Books (v : Nat) (c : Fin n) (x : Index n D) (cfg : Config n D) (me : Fin n) (op : Op) (m m' : Machine n D) : Prop
  | spends (paid : Spends v c me (walked x me m op) m m')
  | finishes (done : Finishes me m m')
  | opens (first : Opens v c cfg me m m')
  | merges (f : QueryFork n D) (received : Merges v c me f m m')

theorem performBooks [Zero D] {op : Op} (ok : perform x cfg me m op = some m')
    (once : m.coro = .top → m.coreMachine.Nodup) : Books v c x cfg me op m m' := by
  cases performed ok with
  | searchSub _ ok => exact .opens (searchSubOpens ok)
  | @poll k msg rest _ queue =>
    cases msg with
    | query f => exact .merges f (deserializeMerges queue)
    | _ => exact .spends (deserializeSpends queue Control.noConfusion)
  | pollRead _ queue => exact .spends (sameSpends (wakeSearch _) (fun w => recvTotal me w queue) (wakeMemo _))
  | procQuery _ ok => exact .spends (procQuerySpends ok)
  | procNodeTask _ queue ok =>
    refine .spends ?_
    simp only [walked,queue]
    exact procNodeTaskSpends queue ok
  | postRemoteResTaskSync => exact .spends (postRemoteResTaskSyncSpends m)
  | procNodeRes _ queue => exact .spends (procNodeResSpends queue)
  | procTask _ queue ok =>
    refine .spends ?_
    simp only [walked,queue]
    exact procTaskSpends queue ok
  | postRemoteResult => exact .spends (postRemoteResultSpends _ m)
  | procResult _ queue => exact .spends (sameSpends (wakeSearch _) (fun w => resultTotal me w queue) (wakeMemo _))
  | procSubquery _ _ ok => exact .spends (procSubquerySpends ok)
  | swapTaskQueue => exact .spends (sameSpends rfl (fun _ => rfl) rfl)
  | loopTop top =>
    rcases loopTopSpends (once top) top with paid | done
    · exact .spends paid
    · exact .finishes done
  | stealTask queue => exact .spends (movesSpends (stealTaskMoves queue) rfl)
  | pushChunk queue =>
    refine .spends ?_
    simp only [walked,queue]
    exact pushChunkSpends queue
  | completeRead found => exact .spends (movesSpends (completeReadMoves found) rfl)

end Books

end CoTra.Copies
