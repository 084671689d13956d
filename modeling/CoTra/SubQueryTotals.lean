import CoTra.SubQuery
import CoTra.Spread

/-! What every operation does to the items of a query. A weight counts items by kind
and place: an item in a send queue or on the wire is at its destination. For each
function there is one equation between the totals before and after. -/
namespace CoTra.SubQueryTotals
open Priority SubQuery Spread

variable {n : Nat} {D : Type} [Distance D]

structure Weight (n : Nat) (D : Type) where
  task : Fin n → ComputeTask n D → Nat
  nodeTask : Fin n → NodeTask n → Nat
  result : Fin n → ResultMsg D → Nat
  nodeResult : Fin n → NodeResult D → Nat
  nodeSync : Fin n → NonCoreSyncMsg n → Nat
  sync : Fin n → SyncMsg n D → Nat
  query : Fin n → QueryFork n D → Nat
  localTask : Fin n → LocalTask → Nat
  chunk : Fin n → Chunk D → Nat
  read : Fin n → BufferCache n → Nat

def blank : Weight n D :=
  ⟨fun _ _ => 0,fun _ _ => 0,fun _ _ => 0,fun _ _ => 0,fun _ _ => 0,fun _ _ => 0,fun _ _ => 0,fun _ _ => 0,
    fun _ _ => 0,fun _ _ => 0⟩

variable (w : Weight n D)

def messageWeight (p : Fin n) : Message n D → Nat
  | .query q => w.query p q
  | .sync m => w.sync p m
  | .nodeSync ms => sumOf (w.nodeSync p) ms
  | .task ts ns => sumOf (w.task p) ts + sumOf (w.nodeTask p) ns
  | .result rs => sumOf (w.result p) rs
  | .nodeResult rs => sumOf (w.nodeResult p) rs

def readTotal (me : Fin n) (m : Machine n D) : Nat :=
  sumOf (w.read me) m.asyncReadQueue + sumOf (w.read me) m.posted + sumOf (w.read me) m.recvList +
    sumOf (w.read me) m.recvAsyncReadQueue

def total (me : Fin n) (m : Machine n D) : Nat :=
  spread w.task m.taskQueue + spread w.nodeTask m.nodeTaskQueue + spread w.nodeResult m.nodeResultQueue +
  spread w.nodeSync m.noncoreSyncMsg + spread w.result m.resultQueue + spread (messageWeight w) m.wire +
  spread (fun _ => messageWeight w me) m.rbuf + sumOf (w.task me) m.curTaskQueue +
  sumOf (w.nodeTask me) m.curNodeQueue + sumOf (w.result me) m.localRes + sumOf (w.localTask me) m.baTaskQueue +
  sumOf (w.localTask me) m.stolen + sumOf (w.chunk me) m.conTaskQueue + readTotal w me m

def totalAll (s : Net n D) : Nat := ∑ m, total w m (s m)

/- Nothing that counts is at a machine or on its way from it. -/
structure Absent (me : Fin n) (m : Machine n D) : Prop where
  taskQueue : ∀ p, ∀ t ∈ m.taskQueue p, w.task p t = 0
  nodeTaskQueue : ∀ p, ∀ t ∈ m.nodeTaskQueue p, w.nodeTask p t = 0
  nodeResultQueue : ∀ p, ∀ r ∈ m.nodeResultQueue p, w.nodeResult p r = 0
  noncoreSyncMsg : ∀ p, ∀ msg ∈ m.noncoreSyncMsg p, w.nodeSync p msg = 0
  resultQueue : ∀ p, ∀ r ∈ m.resultQueue p, w.result p r = 0
  wire : ∀ p, ∀ msg ∈ m.wire p, messageWeight w p msg = 0
  rbuf : ∀ k, ∀ msg ∈ m.rbuf k, messageWeight w me msg = 0
  curTaskQueue : ∀ t ∈ m.curTaskQueue, w.task me t = 0
  curNodeQueue : ∀ t ∈ m.curNodeQueue, w.nodeTask me t = 0
  localRes : ∀ r ∈ m.localRes, w.result me r = 0
  baTaskQueue : ∀ t ∈ m.baTaskQueue, w.localTask me t = 0
  stolen : ∀ t ∈ m.stolen, w.localTask me t = 0
  conTaskQueue : ∀ c ∈ m.conTaskQueue, w.chunk me c = 0
  asyncReadQueue : ∀ r ∈ m.asyncReadQueue, w.read me r = 0
  posted : ∀ r ∈ m.posted, w.read me r = 0
  recvList : ∀ r ∈ m.recvList, w.read me r = 0
  recvAsyncReadQueue : ∀ r ∈ m.recvAsyncReadQueue, w.read me r = 0

theorem totalAbsent {me : Fin n} {m : Machine n D} : total w me m = 0 ↔ Absent w me m := by
  simp only [total,readTotal,Nat.add_eq_zero_iff,sumZeroIff,spreadZeroIff]
  constructor
  · rintro ⟨⟨⟨⟨⟨⟨⟨⟨⟨⟨⟨⟨⟨task,nodeTask⟩,nodeResult⟩,nodeSync⟩,result⟩,wire⟩,rbuf⟩,curTask⟩,curNode⟩,localRes⟩,ba⟩,
      stolen⟩,con⟩,⟨⟨⟨async,posted⟩,completed⟩,received⟩⟩
    exact ⟨task,nodeTask,nodeResult,nodeSync,result,wire,rbuf,curTask,curNode,localRes,ba,stolen,con,async,posted,
      completed,received⟩
  · rintro ⟨task,nodeTask,nodeResult,nodeSync,result,wire,rbuf,curTask,curNode,localRes,ba,stolen,con,async,posted,
      completed,received⟩
    exact ⟨⟨⟨⟨⟨⟨⟨⟨⟨⟨⟨⟨⟨task,nodeTask⟩,nodeResult⟩,nodeSync⟩,result⟩,wire⟩,rbuf⟩,curTask⟩,curNode⟩,localRes⟩,ba⟩,
      stolen⟩,con⟩,⟨⟨⟨async,posted⟩,completed⟩,received⟩⟩

theorem totalFresh (cfg : Config n D) (me : Fin n) : total w me (fresh cfg) = 0 := by
  simp [total,fresh,spreadNil,readTotal]

theorem hostTotal (s : Net n D) (a : Fin n) (m : Machine n D) :
    totalAll w (Function.update s a m) + total w a (s a) = totalAll w s + total w a m :=
  sumUpdate (total w) s a m

theorem deliverTotal {s t : Net n D} {a p : Fin n} (h : deliver s a p = some t) : totalAll w t = totalAll w s := by
  unfold deliver at h
  split at h <;> try contradiction
  rename_i msg rest wire
  split at h <;> try contradiction
  rename_i other
  cases Option.some.inj h
  have sent := hostTotal w s a { s a with wire := Function.update (s a).wire p rest }
  have received := hostTotal w (Function.update s a { s a with wire := Function.update (s a).wire p rest }) p
    { s p with rbuf := Function.update (s p).rbuf msg.control ((s p).rbuf msg.control ++ [msg]) }
  have atP : Function.update s a { s a with wire := Function.update (s a).wire p rest } p = s p :=
    Function.update_of_ne (Ne.symm other) _ _
  have taken : total w a { s a with wire := Function.update (s a).wire p rest } + messageWeight w p msg =
      total w a (s a) := by
    have change := spreadUpdate (messageWeight w) (s a).wire p rest
    rw [wire,sumCons] at change
    simp only [total,readTotal]
    omega
  have put : total w p { s p with rbuf := Function.update (s p).rbuf msg.control ((s p).rbuf msg.control ++ [msg]) } =
      total w p (s p) + messageWeight w p msg := by
    have change := spreadPush (fun _ => messageWeight w p) (s p).rbuf msg.control [msg]
    simp only [sumCons,sumNil] at change
    simp only [total,readTotal]
    omega
  rw [atP] at received ⊢
  omega

section Moves

variable (me : Fin n)

/- The query and the place of every item stay as they are. -/
structure Moves (m m' : Machine n D) : Prop where
  query : m'.toQueryMsg = m.toQueryMsg
  sched : m'.toSchedule = m.toSchedule
  same : ∀ w : Weight n D, total w me m' = total w me m

variable {me}

theorem movesRefl (m : Machine n D) : Moves me m m := ⟨rfl,rfl,fun _ => rfl⟩

theorem Moves.trans {a b c : Machine n D} (first : Moves me a b) (second : Moves me b c) : Moves me a c :=
  ⟨second.query.trans first.query,second.sched.trans first.sched,fun w => (second.same w).trans (first.same w)⟩

theorem foldlMoves {β : Type} {f : Machine n D → β → Machine n D} (each : ∀ m b, Moves me m (f m b))
    (bs : List β) (m : Machine n D) : Moves me m (bs.foldl f m) :=
  bs.foldlRecOn f (movesRefl m) (fun m' moved b _ => moved.trans (each m' b))

theorem postNodeResultMoves (p : Fin n) (m : Machine n D) : Moves me m (postNodeResult p m) := by
  unfold postNodeResult
  split
  · exact movesRefl m
  · refine ⟨rfl,rfl,fun w => ?_⟩
    have taken := spreadUpdate w.nodeResult m.nodeResultQueue p []
    have sent := spreadPush (messageWeight w) m.wire p [.nodeResult (m.nodeResultQueue p)]
    simp only [sumNil,sumCons,messageWeight] at taken sent
    simp only [total,readTotal]
    omega

theorem postNodeSyncMoves (p : Fin n) (m : Machine n D) : Moves me m (postNodeSync p m) := by
  unfold postNodeSync
  split
  · exact movesRefl m
  · refine ⟨rfl,rfl,fun w => ?_⟩
    have taken := spreadUpdate w.nodeSync m.noncoreSyncMsg p []
    have sent := spreadPush (messageWeight w) m.wire p [.nodeSync (m.noncoreSyncMsg p)]
    simp only [sumNil,sumCons,messageWeight] at taken sent
    simp only [total,readTotal]
    omega

theorem postRemoteResultMoves (p : Fin n) (m : Machine n D) : Moves me m (postRemoteResult p m) := by
  unfold postRemoteResult
  split
  · exact movesRefl m
  · refine ⟨rfl,rfl,fun w => ?_⟩
    have taken := spreadUpdate w.result m.resultQueue p []
    have sent := spreadPush (messageWeight w) m.wire p [.result (m.resultQueue p)]
    simp only [sumNil,sumCons,messageWeight] at taken sent
    simp only [total,readTotal]
    omega

theorem postNodeRemoteTaskMoves (m : Machine n D) : Moves me m (postNodeRemoteTask me m) := by
  refine ⟨rfl,rfl,fun w => ?_⟩
  -- machine by machine: what leaves the two queues is in the message
  have each : ∀ p, sumOf (messageWeight w p) ((postNodeRemoteTask me m).wire p) +
      sumOf (w.task p) ((postNodeRemoteTask me m).taskQueue p) +
      sumOf (w.nodeTask p) ((postNodeRemoteTask me m).nodeTaskQueue p) =
      sumOf (messageWeight w p) (m.wire p) + sumOf (w.task p) (m.taskQueue p) +
      sumOf (w.nodeTask p) (m.nodeTaskQueue p) := by
    intro p
    simp only [postNodeRemoteTask]
    split
    · simp only [sumAppend,sumCons,sumNil,messageWeight]
      omega
    · rfl
  have all := Finset.sum_congr (rfl : (Finset.univ : Finset (Fin n)) = Finset.univ) (fun p _ => each p)
  simp only [Finset.sum_add_distrib] at all
  simp only [total,readTotal,spread]
  simp only [postNodeRemoteTask] at all ⊢
  omega

theorem postRemoteTaskMoves (m : Machine n D) : Moves me m (postRemoteTask me m) := by
  have queued : Moves me m { m with posted := m.posted ++ m.asyncReadQueue, asyncReadQueue := [] } := by
    refine ⟨rfl,rfl,fun w => ?_⟩
    simp only [total,readTotal,sumAppend,sumNil]
    omega
  exact queued.trans (postNodeRemoteTaskMoves _)

theorem postRemoteResTaskSyncMoves (m : Machine n D) : Moves me m (postRemoteResTaskSync me m) :=
  ((foldlMoves (fun m p => postNodeResultMoves p m) (others me) m).trans
    (foldlMoves (fun m p => postNodeSyncMoves p m) (others me) _)).trans (postNodeRemoteTaskMoves _)

theorem stealTaskMoves {m : Machine n D} {t : LocalTask} {rest : List LocalTask} (queue : m.baTaskQueue = t :: rest) :
    Moves me m { m with baTaskQueue := rest, stolen := m.stolen ++ [t] } := by
  refine ⟨rfl,rfl,fun w => ?_⟩
  simp only [total,readTotal,queue,sumAppend,sumCons,sumNil]
  omega

theorem completeReadMoves {i : Nat} {m : Machine n D} {r : BufferCache n} (found : m.posted[i]? = some r) :
    Moves me m { m with posted := m.posted.eraseIdx i, recvList := m.recvList ++ [r] } := by
  refine ⟨rfl,rfl,fun w => ?_⟩
  have taken := sumErase (w.read me) found
  simp only [total,readTotal,sumAppend,sumCons,sumNil]
  omega

end Moves

section Gains

variable (x : Index n D) (cfg : Config n D) (me : Fin n)

omit [Distance D] in
theorem visitFound {vs hash : List Nat} {c : D × Nat} (found : c ∈ (visit x vs hash).1) : c.2 ∈ vs := by
  induction vs generalizing hash with
  | nil => cases found
  | cons v rest ih =>
    unfold visit at found
    split at found
    · exact List.mem_cons_of_mem _ (ih found)
    · rcases List.mem_cons.mp found with rfl | later
      · exact List.mem_cons_self
      · exact List.mem_cons_of_mem _ (ih later)

/- What the decoders add: for a vertex of the machine itself, and for a NodeTask. -/
def lbGain (core : Fin n → Bool) (lb : D) (efFill : Bool) : List (Record n) → Nat
  | [] => 0
  | .localNgh deg ofs :: _ => w.localTask me ⟨deg,ofs,true⟩
  | .micro pid ids :: rest =>
    (if core pid then 0 else sumOf (fun v => w.read me ⟨pid,v⟩) ids) + lbGain core lb efFill rest
  | .large pid ofs deg :: rest =>
    (if core pid then 0 else w.task pid ⟨me,.stored ofs deg,lb,efFill,1,0,countedCore⟩) + lbGain core lb efFill rest

def nodeGain [Zero D] (t : NodeTask n) : List (Record n) → Nat
  | [] => 0
  | .localNgh _ _ :: _ => 0
  | .micro pid ids :: rest =>
    (if t.isCoreMachine pid then w.nodeSync pid ⟨ids,[],t.machineId,t.nodeId⟩
      else w.task pid ⟨t.machineId,.packed ids,0,false,0,1,countedNocore⟩) + nodeGain t rest
  | .large pid ofs deg :: rest =>
    (if t.isCoreMachine pid then w.nodeSync pid ⟨[],[(ofs,deg)],t.machineId,t.nodeId⟩
      else w.task pid ⟨t.machineId,.stored ofs deg,0,false,0,1,countedNocore⟩) + nodeGain t rest

def ones : Weight n D :=
  ⟨fun _ _ => 1,fun _ _ => 1,fun _ _ => 1,fun _ _ => 1,fun _ _ => 1,fun _ _ => 1,fun _ _ => 1,fun _ _ => 1,fun _ _ => 1,fun _ _ => 1⟩

omit [Distance D] in
theorem lbGainCongr {w w' : Weight n D} {core : Fin n → Bool} {lb : D} {efFill : Bool}
    (locals : ∀ t : LocalTask, t.isCount = true → w.localTask me t = w'.localTask me t)
    (reads : ∀ r, w.read me r = w'.read me r)
    (tasks : ∀ pid ofs deg, w.task pid ⟨me,.stored ofs deg,lb,efFill,1,0,rfl⟩ =
      w'.task pid ⟨me,.stored ofs deg,lb,efFill,1,0,rfl⟩) (rs : List (Record n)) :
    lbGain w me core lb efFill rs = lbGain w' me core lb efFill rs := by
  induction rs with
  | nil => rfl
  | cons r rest ih => cases r <;> simp only [lbGain,locals,reads,tasks,ih]

omit [Distance D] in
theorem lbGainZero {w : Weight n D} {core : Fin n → Bool} {lb : D} {efFill : Bool} {rs : List (Record n)}
    (locals : ∀ deg ofs, .localNgh deg ofs ∈ rs → w.localTask me ⟨deg,ofs,true⟩ = 0)
    (reads : ∀ pid ids, .micro pid ids ∈ rs → core pid = false → ∀ v ∈ ids, w.read me ⟨pid,v⟩ = 0)
    (tasks : ∀ pid ofs deg, .large pid ofs deg ∈ rs → core pid = false →
      w.task pid ⟨me,.stored ofs deg,lb,efFill,1,0,rfl⟩ = 0) :
    lbGain w me core lb efFill rs = 0 := by
  induction rs with
  | nil => rfl
  | cons r rest ih =>
    have later := ih (fun deg ofs among => locals deg ofs (List.mem_cons_of_mem _ among))
      (fun pid ids among => reads pid ids (List.mem_cons_of_mem _ among))
      (fun pid ofs deg among => tasks pid ofs deg (List.mem_cons_of_mem _ among))
    cases r with
    | localNgh deg ofs => exact locals deg ofs List.mem_cons_self
    | micro pid ids =>
      simp only [lbGain,later,Nat.add_zero]
      split
      · rfl
      · rename_i outside
        exact sumNone (reads pid ids List.mem_cons_self (Bool.not_eq_true _ ▸ outside))
    | large pid ofs deg =>
      simp only [lbGain,later,Nat.add_zero]
      split
      · rfl
      · rename_i outside
        exact tasks pid ofs deg List.mem_cons_self (Bool.not_eq_true _ ▸ outside)

omit [Distance D] in
theorem nodeGainNone [Zero D] {w : Weight n D} {t : NodeTask n} {rs : List (Record n)}
    (micros : ∀ pid ids, .micro pid ids ∈ rs → (if t.isCoreMachine pid then w.nodeSync pid ⟨ids,[],t.machineId,t.nodeId⟩
      else w.task pid ⟨t.machineId,.packed ids,0,false,0,1,rfl⟩) = 0)
    (larges : ∀ pid ofs deg, .large pid ofs deg ∈ rs →
      (if t.isCoreMachine pid then w.nodeSync pid ⟨[],[(ofs,deg)],t.machineId,t.nodeId⟩
        else w.task pid ⟨t.machineId,.stored ofs deg,0,false,0,1,rfl⟩) = 0) :
    nodeGain w t rs = 0 := by
  induction rs with
  | nil => rfl
  | cons r rest ih =>
    have later := ih (fun pid ids among => micros pid ids (List.mem_cons_of_mem _ among))
      (fun pid ofs deg among => larges pid ofs deg (List.mem_cons_of_mem _ among))
    cases r with
    | localNgh deg ofs => rfl
    | micro pid ids => rw [nodeGain,later,micros pid ids List.mem_cons_self]
    | large pid ofs deg => rw [nodeGain,later,larges pid ofs deg List.mem_cons_self]

omit [Distance D] in
theorem nodeGainZero [Zero D] {w : Weight n D} {t : NodeTask n} {rs : List (Record n)}
    (tasks : ∀ r ∈ rs, ∀ pid ngh, r.remote = some pid → t.isCoreMachine pid = false →
      w.task pid ⟨t.machineId,ngh,0,false,0,1,rfl⟩ = 0)
    (syncs : ∀ r ∈ rs, ∀ pid micro large, r.remote = some pid → t.isCoreMachine pid = true →
      w.nodeSync pid ⟨micro,large,t.machineId,t.nodeId⟩ = 0) :
    nodeGain w t rs = 0 := by
  refine nodeGainNone (fun pid ids among => ?_) (fun pid ofs deg among => ?_)
  · split
    · rename_i inside
      exact syncs _ among pid _ _ rfl inside
    · rename_i outside
      exact tasks _ among pid _ rfl (Bool.not_eq_true _ ▸ outside)
  · split
    · rename_i inside
      exact syncs _ among pid _ _ rfl inside
    · rename_i outside
      exact tasks _ among pid _ rfl (Bool.not_eq_true _ ▸ outside)

def efFilled (q : QueryMsg n D) : Bool := size q.search.topCandidates < cfg.ef

def expandGain (q : QueryMsg n D) (v : Nat) : Nat :=
  if x.getMachineId v ≠ me then w.nodeTask (x.getMachineId v) ⟨me,v,q.isCoreMachine⟩
  else lbGain w me q.isCoreMachine q.search.lowerBound (efFilled cfg q) (x.block v)

/- Of a query only the lists for the next sync and post_cnt change while a group of
vertices is expanded. -/
def Grows (a b : QueryMsg n D) : Prop :=
  ∃ micro large cnt, b = { a with coreMicroNgh := micro, coreLargeNgh := large, postCnt := cnt }

theorem growsRefl (a : QueryMsg n D) : Grows a a := ⟨a.coreMicroNgh,a.coreLargeNgh,a.postCnt,rfl⟩

theorem Grows.trans {a b c : QueryMsg n D} (first : Grows a b) (second : Grows b c) : Grows a c := by
  obtain ⟨_,_,_,rfl⟩ := first
  obtain ⟨micro,large,cnt,rfl⟩ := second
  exact ⟨micro,large,cnt,rfl⟩

theorem getSubqueryTaskLbTotal (lb : D) (efFill : Bool) (rs : List (Record n)) (m : Machine n D) :
    total w me (getSubqueryTaskLb me lb efFill rs m).1 =
      total w me m + lbGain w me m.isCoreMachine lb efFill rs := by
  induction rs generalizing m with
  | nil => rfl
  | cons r rest ih =>
    cases r with
    | localNgh deg ofs =>
      simp only [getSubqueryTaskLb,lbGain,total,readTotal,sumAppend,sumCons,sumNil]
      omega
    | micro pid ids =>
      simp only [getSubqueryTaskLb,lbGain]
      split
      · rw [ih]
        simp only [total,readTotal]
        omega
      · rw [ih]
        simp only [total,readTotal,sumAppend,sumMap]
        omega
    | large pid ofs deg =>
      simp only [getSubqueryTaskLb,lbGain]
      split
      · rw [ih]
        simp only [total,readTotal]
        omega
      · rw [ih]
        have change := spreadPush w.task m.taskQueue pid [⟨me,.stored ofs deg,lb,efFill,1,0,rfl⟩]
        simp only [sumCons,sumNil] at change
        simp only [total,readTotal]
        omega

theorem getSubqueryTaskLbPosts (lb : D) (efFill : Bool) (rs : List (Record n)) (m : Machine n D) :
    (getSubqueryTaskLb me lb efFill rs m).2 = lbGain ones me m.isCoreMachine lb efFill rs ∧
      (getSubqueryTaskLb me lb efFill rs m).1.postCnt = m.postCnt := by
  induction rs generalizing m with
  | nil => exact ⟨rfl,rfl⟩
  | cons r rest ih =>
    cases r with
    | localNgh deg ofs => exact ⟨rfl,rfl⟩
    | micro pid ids =>
      simp only [getSubqueryTaskLb,lbGain]
      split
      · rw [Nat.zero_add]
        exact ih _
      · obtain ⟨posts,kept⟩ := ih { m with asyncReadQueue := m.asyncReadQueue ++ ids.map (fun v => ⟨pid,v⟩) }
        exact ⟨by rw [posts,ones,sumOnes],kept⟩
    | large pid ofs deg =>
      simp only [getSubqueryTaskLb,lbGain]
      split
      · rw [Nat.zero_add]
        exact ih _
      · obtain ⟨posts,kept⟩ := ih { m with
          taskQueue := Function.update m.taskQueue pid (m.taskQueue pid ++ [⟨me,.stored ofs deg,lb,efFill,1,0,rfl⟩]) }
        exact ⟨by rw [posts,ones],kept⟩

theorem getSubqueryTaskLbGrows (lb : D) (efFill : Bool) (rs : List (Record n)) (m : Machine n D) :
    Grows m.toQueryMsg (getSubqueryTaskLb me lb efFill rs m).1.toQueryMsg := by
  induction rs generalizing m with
  | nil => exact growsRefl _
  | cons r rest ih =>
    cases r with
    | localNgh deg ofs => exact growsRefl _
    | micro pid ids =>
      simp only [getSubqueryTaskLb]
      split
      · refine Grows.trans ?_ (ih _)
        exact ⟨_,_,_,rfl⟩
      · refine Grows.trans ?_ (ih _)
        exact ⟨_,_,_,rfl⟩
    | large pid ofs deg =>
      simp only [getSubqueryTaskLb]
      split
      · refine Grows.trans ?_ (ih _)
        exact ⟨_,_,_,rfl⟩
      · refine Grows.trans ?_ (ih _)
        exact ⟨_,_,_,rfl⟩

/- The lists for the next sync: what they held, and neighbours of expanded vertices under
the machine that the record names. -/
structure Routed (x : Index n D) (vs : List Nat) (a b : QueryMsg n D) : Prop where
  micro : ∀ p, ∀ v ∈ b.coreMicroNgh p, v ∈ a.coreMicroNgh p ∨ ∃ u ∈ vs, ∃ ids, .micro p ids ∈ x.block u ∧ v ∈ ids
  large : ∀ p, ∀ e ∈ b.coreLargeNgh p, e ∈ a.coreLargeNgh p ∨ ∃ u ∈ vs, .large p e.1 e.2 ∈ x.block u

theorem routedSame {vs : List Nat} {a b : QueryMsg n D} (micro : b.coreMicroNgh = a.coreMicroNgh)
    (large : b.coreLargeNgh = a.coreLargeNgh) : Routed x vs a b :=
  ⟨fun p v member => .inl (by rw [← micro]; exact member),fun p e member => .inl (by rw [← large]; exact member)⟩

variable {x} in
theorem Routed.trans {vs : List Nat} {a b c : QueryMsg n D} (first : Routed x vs a b) (second : Routed x vs b c) :
    Routed x vs a c where
  micro p v member := (second.micro p v member).elim (first.micro p v) .inr
  large p e member := (second.large p e member).elim (first.large p e) .inr

variable {x} in
theorem Routed.mono {vs vs' : List Nat} {a b : QueryMsg n D} (routed : Routed x vs a b) (more : ∀ v ∈ vs, v ∈ vs') :
    Routed x vs' a b where
  micro p v member := (routed.micro p v member).imp_right (fun ⟨u,among,found⟩ => ⟨u,more u among,found⟩)
  large p e member := (routed.large p e member).imp_right (fun ⟨u,among,found⟩ => ⟨u,more u among,found⟩)

theorem getSubqueryTaskLbRouted (lb : D) (efFill : Bool) {u : Nat} {rs : List (Record n)}
    (part : ∀ r ∈ rs, r ∈ x.block u) (m : Machine n D) :
    Routed x [u] m.toQueryMsg (getSubqueryTaskLb me lb efFill rs m).1.toQueryMsg := by
  induction rs generalizing m with
  | nil => exact routedSame x rfl rfl
  | cons r rest ih =>
    have later := ih (fun r' among => part r' (List.mem_cons_of_mem _ among))
    have first := part r List.mem_cons_self
    cases r with
    | localNgh deg ofs => exact routedSame x rfl rfl
    | micro pid ids =>
      simp only [getSubqueryTaskLb]
      split
      · refine Routed.trans ?_ (later _)
        refine ⟨fun p v member => ?_,fun p e member => .inl member⟩
        simp only at member
        rcases eq_or_ne p pid with rfl | other
        · rw [Function.update_self] at member
          exact (List.mem_append.mp member).imp_right (fun new => ⟨u,List.mem_singleton_self u,ids,first,new⟩)
        · rw [Function.update_of_ne other] at member
          exact .inl member
      · refine Routed.trans ?_ (later _)
        exact routedSame x rfl rfl
    | large pid ofs deg =>
      simp only [getSubqueryTaskLb]
      split
      · refine Routed.trans ?_ (later _)
        refine ⟨fun p v member => .inl member,fun p e member => ?_⟩
        simp only at member
        rcases eq_or_ne p pid with rfl | other
        · rw [Function.update_self] at member
          refine (List.mem_append.mp member).imp_right (fun new => ⟨u,List.mem_singleton_self u,?_⟩)
          rw [List.mem_singleton.mp new]
          exact first
        · rw [Function.update_of_ne other] at member
          exact .inl member
      · refine Routed.trans ?_ (later _)
        exact routedSame x rfl rfl

theorem expandNodeRemote {m : Machine n D} {v : Nat} (remote : x.getMachineId v ≠ me) :
    expandNode x cfg me m v = { m with
      nodeTaskQueue := Function.update m.nodeTaskQueue (x.getMachineId v)
        (m.nodeTaskQueue (x.getMachineId v) ++ [⟨me,v,m.isCoreMachine⟩])
      postCnt := m.postCnt + 1 } :=
  if_pos remote

theorem expandNodeLocal {m : Machine n D} {v : Nat} (here : x.getMachineId v = me) :
    expandNode x cfg me m v =
      let r := getSubqueryTaskLb me m.search.lowerBound (efFilled cfg m.toQueryMsg) (x.block v) m
      { r.1 with postCnt := r.1.postCnt + r.2 } :=
  if_neg (not_not.mpr here)

theorem expandNodeGrows (m : Machine n D) (v : Nat) :
    Grows m.toQueryMsg (expandNode x cfg me m v).toQueryMsg := by
  rcases eq_or_ne (x.getMachineId v) me with here | remote
  · rw [expandNodeLocal x cfg me here]
    refine Grows.trans (getSubqueryTaskLbGrows me m.search.lowerBound (efFilled cfg m.toQueryMsg) (x.block v) m) ?_
    exact ⟨_,_,_,rfl⟩
  · rw [expandNodeRemote x cfg me remote]
    exact ⟨_,_,_,rfl⟩

theorem expandNodeTotal (m : Machine n D) (v : Nat) :
    total w me (expandNode x cfg me m v) = total w me m + expandGain w x cfg me m.toQueryMsg v := by
  unfold expandGain
  rcases eq_or_ne (x.getMachineId v) me with here | remote
  · rw [expandNodeLocal x cfg me here,if_neg (not_not.mpr here)]
    exact getSubqueryTaskLbTotal w me m.search.lowerBound (efFilled cfg m.toQueryMsg) (x.block v) m
  · rw [expandNodeRemote x cfg me remote,if_pos remote]
    have change := spreadPush w.nodeTask m.nodeTaskQueue (x.getMachineId v) [⟨me,v,m.isCoreMachine⟩]
    simp only [sumCons,sumNil] at change
    simp only [total,readTotal]
    omega

theorem Grows.syncStep {a b : QueryMsg n D} (grows : Grows a b) : b.syncStep = a.syncStep := by
  obtain ⟨_,_,_,rfl⟩ := grows
  rfl

theorem Grows.gain {a b : QueryMsg n D} (grows : Grows a b) :
    expandGain w x cfg me b = expandGain w x cfg me a := by
  obtain ⟨_,_,_,rfl⟩ := grows
  rfl

theorem expandNodesGrows (vs : List Nat) (m : Machine n D) :
    Grows m.toQueryMsg (vs.foldl (expandNode x cfg me) m).toQueryMsg := by
  induction vs generalizing m with
  | nil => exact growsRefl _
  | cons v rest ih => exact (expandNodeGrows x cfg me m v).trans (ih _)

theorem expandNodesRouted (vs : List Nat) (m : Machine n D) :
    Routed x vs m.toQueryMsg (vs.foldl (expandNode x cfg me) m).toQueryMsg := by
  induction vs generalizing m with
  | nil => exact routedSame x rfl rfl
  | cons v rest ih =>
    refine Routed.trans ?_ ((ih _).mono (fun u among => List.mem_cons_of_mem _ among))
    refine Routed.mono ?_ (fun u among => List.mem_cons.mpr (.inl (List.mem_singleton.mp among)))
    rcases eq_or_ne (x.getMachineId v) me with here | remote
    · rw [expandNodeLocal x cfg me here]
      have routed := getSubqueryTaskLbRouted x me m.search.lowerBound (efFilled cfg m.toQueryMsg)
        (fun r (among : r ∈ x.block v) => among) m
      exact routed.trans (routedSame x rfl rfl)
    · rw [expandNodeRemote x cfg me remote]
      exact routedSame x rfl rfl

theorem expandNodePosts (m : Machine n D) (v : Nat) :
    (expandNode x cfg me m v).postCnt = m.postCnt + expandGain ones x cfg me m.toQueryMsg v := by
  unfold expandGain
  rcases eq_or_ne (x.getMachineId v) me with here | remote
  · obtain ⟨posts,kept⟩ :=
      getSubqueryTaskLbPosts me m.search.lowerBound (efFilled cfg m.toQueryMsg) (x.block v) m
    rw [expandNodeLocal x cfg me here,if_neg (not_not.mpr here)]
    simp only [posts,kept]
  · rw [expandNodeRemote x cfg me remote,if_pos remote]
    rfl

theorem expandNodesPosts (vs : List Nat) (m : Machine n D) :
    (vs.foldl (expandNode x cfg me) m).postCnt = m.postCnt + sumOf (expandGain ones x cfg me m.toQueryMsg) vs := by
  induction vs generalizing m with
  | nil => rfl
  | cons v rest ih =>
    rw [List.foldl_cons,ih,(expandNodeGrows x cfg me m v).gain,expandNodePosts,sumCons,Nat.add_assoc]

section Frame

variable {β : Type} (f : Machine n D → β) (same : ∀ (m : Machine n D) micro large cnt ba reads tasks nodes, f { m with
  coreMicroNgh := micro, coreLargeNgh := large, postCnt := cnt, baTaskQueue := ba, asyncReadQueue := reads,
  taskQueue := tasks, nodeTaskQueue := nodes } = f m)
include same

theorem getSubqueryTaskLbFrame (lb : D) (efFill : Bool) (rs : List (Record n)) (m : Machine n D) :
    f (getSubqueryTaskLb me lb efFill rs m).1 = f m := by
  induction rs generalizing m with
  | nil => rfl
  | cons r rest ih =>
    cases r with
    | localNgh deg ofs => exact same m m.coreMicroNgh m.coreLargeNgh m.postCnt _ m.asyncReadQueue m.taskQueue m.nodeTaskQueue
    | micro pid ids =>
      simp only [getSubqueryTaskLb]
      split
      · exact (ih _).trans
          (same m _ m.coreLargeNgh m.postCnt m.baTaskQueue m.asyncReadQueue m.taskQueue m.nodeTaskQueue)
      · exact (ih _).trans
          (same m m.coreMicroNgh m.coreLargeNgh m.postCnt m.baTaskQueue _ m.taskQueue m.nodeTaskQueue)
    | large pid ofs deg =>
      simp only [getSubqueryTaskLb]
      split
      · exact (ih _).trans
          (same m m.coreMicroNgh _ m.postCnt m.baTaskQueue m.asyncReadQueue m.taskQueue m.nodeTaskQueue)
      · exact (ih _).trans
          (same m m.coreMicroNgh m.coreLargeNgh m.postCnt m.baTaskQueue m.asyncReadQueue _ m.nodeTaskQueue)

/- What is not part of the lists that an expansion fills is left as it was. -/
theorem expandNodesFrame (vs : List Nat) (m : Machine n D) : f (vs.foldl (expandNode x cfg me) m) = f m := by
  induction vs generalizing m with
  | nil => rfl
  | cons v rest ih =>
    rw [List.foldl_cons,ih]
    rcases eq_or_ne (x.getMachineId v) me with here | remote
    · have kept := getSubqueryTaskLbFrame me f same m.search.lowerBound (efFilled cfg m.toQueryMsg) (x.block v) m
      rw [expandNodeLocal x cfg me here]
      refine Eq.trans ?_ kept
      exact same _ _ _ _ _ _ _ _
    · rw [expandNodeRemote x cfg me remote]
      exact same m m.coreMicroNgh m.coreLargeNgh _ m.baTaskQueue m.asyncReadQueue m.taskQueue _

end Frame

theorem expandNodesTotal (vs : List Nat) (m : Machine n D) :
    total w me (vs.foldl (expandNode x cfg me) m) =
      total w me m + sumOf (expandGain w x cfg me m.toQueryMsg) vs := by
  induction vs generalizing m with
  | nil => rfl
  | cons v rest ih =>
    rw [List.foldl_cons,ih,(expandNodeGrows x cfg me m v).gain,expandNodeTotal,sumCons,Nat.add_assoc]

/- The messages of post_subquery_sync: to whom, and whether the token is in it. -/
def syncs (nxt : Fin n) (propToken : Bool) : Bool → List (Fin n) → List (Fin n × Bool)
  | _, [] => []
  | held, p :: rest =>
    if p = me then syncs nxt propToken held rest
    else
      let token := propToken && decide (nxt = p) && held
      (p,token) :: syncs nxt propToken (held && !token) rest

theorem postSyncsTotal (nxt : Fin n) (propToken taint : Bool) (ps : List (Fin n)) (m : Machine n D) :
    total w me (ps.foldl (postSync me nxt propToken taint) m) = total w me m +
      sumOf (fun e => w.sync e.1 (syncMsg m.toQueryMsg e.2 taint)) (syncs me nxt propToken m.hasToken ps) := by
  induction ps generalizing m with
  | nil => rfl
  | cons p rest ih =>
    rw [List.foldl_cons,ih]
    simp only [postSync,syncs]
    split
    · rfl
    · have change := spreadPush (messageWeight w) m.wire p
        [.sync (syncMsg m.toQueryMsg (propToken && decide (nxt = p) && m.hasToken) taint)]
      simp only [sumCons,sumNil,messageWeight] at change
      simp only [total,readTotal,sumCons]
      rw [change]
      simp only [syncMsg]
      omega

theorem postSyncsQuery (nxt : Fin n) (propToken taint : Bool) (ps : List (Fin n)) (m : Machine n D) :
    (ps.foldl (postSync me nxt propToken taint) m).toQueryMsg =
      { m.toQueryMsg with hasToken := m.hasToken && !(syncs me nxt propToken m.hasToken ps).any Prod.snd } := by
  induction ps generalizing m with
  | nil => simp [syncs]
  | cons p rest ih =>
    rw [List.foldl_cons,ih]
    simp only [postSync,syncs]
    split
    · rfl
    · simp [Bool.and_assoc]

theorem syncsTo {nxt : Fin n} {propToken held : Bool} {ps : List (Fin n)} {e : Fin n × Bool}
    (member : e ∈ syncs me nxt propToken held ps) :
    e.1 ≠ me ∧ e.1 ∈ ps ∧ (e.2 = true → propToken = true ∧ e.1 = nxt ∧ held = true) := by
  induction ps generalizing held with
  | nil => cases member
  | cons p rest ih =>
    simp only [syncs] at member
    split at member
    · obtain ⟨other,inside,token⟩ := ih member
      exact ⟨other,List.mem_cons_of_mem _ inside,token⟩
    · rename_i other
      rcases List.mem_cons.mp member with rfl | later
      · refine ⟨other,List.mem_cons_self,fun token => ?_⟩
        simp only [Bool.and_eq_true,decide_eq_true_eq] at token
        exact ⟨token.1.1,token.1.2.symm,token.2⟩
      · obtain ⟨other',inside,token⟩ := ih later
        refine ⟨other',List.mem_cons_of_mem _ inside,fun carried => ?_⟩
        have fact := token carried
        simp only [Bool.and_eq_true] at fact
        exact ⟨fact.1,fact.2.1,fact.2.2.1⟩

theorem syncsOne (nxt : Fin n) (propToken held : Bool) (ps : List (Fin n)) :
    sumOf (fun e => e.2.toNat) (syncs me nxt propToken held ps) ≤ held.toNat := by
  induction ps generalizing held with
  | nil => exact Nat.zero_le _
  | cons p rest ih =>
    simp only [syncs]
    split
    · exact ih held
    · rw [sumCons]
      cases token : (propToken && decide (nxt = p) && held) with
      | false =>
        have later := ih (held && !false)
        simp only [Bool.not_false,Bool.and_true] at later
        simpa only [token,Bool.toNat_false,Nat.zero_add,Bool.not_false,Bool.and_true] using later
      | true =>
        simp only [Bool.and_eq_true] at token
        have later := ih (held && !true)
        simp only [Bool.not_true,Bool.and_false,Bool.toNat_false] at later
        simp only [token.2,Bool.not_true,Bool.and_false,Bool.toNat_true]
        omega

def nodePosts (t : NodeTask n) : List (Record n) → Nat
  | [] => 0
  | .localNgh _ _ :: _ => 0
  | .micro pid _ :: rest => (if t.isCoreMachine pid then 0 else 1) + nodePosts t rest
  | .large pid _ _ :: rest => (if t.isCoreMachine pid then 0 else 1) + nodePosts t rest

theorem addNodeSyncTotal (t : NodeTask n) (pid : Fin n) (micro : List Nat) (large : List (Nat × Nat))
    (m : Machine n D) : total w me (addNodeSync t pid micro large m) =
      total w me m + w.nodeSync pid ⟨micro,large,t.machineId,t.nodeId⟩ := by
  have change := spreadPush w.nodeSync m.noncoreSyncMsg pid [⟨micro,large,t.machineId,t.nodeId⟩]
  simp only [sumCons,sumNil] at change
  simp only [addNodeSync,total,readTotal]
  omega

variable [Zero D]

theorem addNodeRemoteTotal (t : NodeTask n) (pid : Fin n) (ngh : Ngh) (m : Machine n D) :
    total w me (addNodeRemote t pid ngh m) = total w me m + w.task pid ⟨t.machineId,ngh,0,false,0,1,rfl⟩ := by
  have change := spreadPush w.task m.taskQueue pid [⟨t.machineId,ngh,0,false,0,1,rfl⟩]
  simp only [sumCons,sumNil] at change
  simp only [addNodeRemote,total,readTotal]
  omega

theorem getNodetaskMsgEffect (t : NodeTask n) (rs : List (Record n)) (e : NodeExpansion n D) :
    (getNodetaskMsg t rs e).machine.toQueryMsg = e.machine.toQueryMsg ∧
      (getNodetaskMsg t rs e).machine.toSchedule = e.machine.toSchedule ∧
      (getNodetaskMsg t rs e).postCnt = e.postCnt + nodePosts t rs ∧
      ∀ w : Weight n D, total w me (getNodetaskMsg t rs e).machine = total w me e.machine + nodeGain w t rs := by
  induction rs generalizing e with
  | nil => exact ⟨rfl,rfl,rfl,fun _ => rfl⟩
  | cons r rest ih =>
    cases r with
    | localNgh deg ofs => exact ⟨rfl,rfl,rfl,fun _ => rfl⟩
    | micro pid ids =>
      simp only [getNodetaskMsg,nodePosts,nodeGain]
      split
      · obtain ⟨query,sched,posts,gain⟩ := ih { e with machine := addNodeSync t pid ids [] e.machine }
        exact ⟨query,sched,by rw [posts,Nat.zero_add],fun w => by rw [gain,addNodeSyncTotal,Nat.add_assoc]⟩
      · obtain ⟨query,sched,posts,gain⟩ := ih
          { e with machine := addNodeRemote t pid (.packed ids) e.machine, postCnt := e.postCnt + 1 }
        exact ⟨query,sched,by rw [posts,Nat.add_assoc],fun w => by rw [gain,addNodeRemoteTotal,Nat.add_assoc]⟩
    | large pid ofs deg =>
      simp only [getNodetaskMsg,nodePosts,nodeGain]
      split
      · obtain ⟨query,sched,posts,gain⟩ := ih { e with machine := addNodeSync t pid [] [(ofs,deg)] e.machine }
        exact ⟨query,sched,by rw [posts,Nat.zero_add],fun w => by rw [gain,addNodeSyncTotal,Nat.add_assoc]⟩
      · obtain ⟨query,sched,posts,gain⟩ := ih
          { e with machine := addNodeRemote t pid (.stored ofs deg) e.machine, postCnt := e.postCnt + 1 }
        exact ⟨query,sched,by rw [posts,Nat.add_assoc],fun w => by rw [gain,addNodeRemoteTotal,Nat.add_assoc]⟩

theorem nodeSlice (t : NodeTask n) (rs : List (Record n)) (e : NodeExpansion n D) {ofs deg : Nat}
    (found : (getNodetaskMsg t rs e).slice = some (ofs,deg)) :
    e.slice = some (ofs,deg) ∨ .localNgh deg ofs ∈ rs := by
  induction rs generalizing e with
  | nil => exact .inl found
  | cons r rest ih =>
    cases r with
    | localNgh deg' ofs' =>
      cases found
      exact .inr List.mem_cons_self
    | micro pid ids =>
      simp only [getNodetaskMsg] at found
      split at found <;> exact (ih _ found).imp_right (List.mem_cons_of_mem _)
    | large pid ofs' deg' =>
      simp only [getNodetaskMsg] at found
      split at found <;> exact (ih _ found).imp_right (List.mem_cons_of_mem _)

theorem sliceFoundIn {t : NodeTask n} {rs : List (Record n)} {m : Machine n D} {c : D × Nat}
    (found : c ∈ (sliceFound x me (getNodetaskMsg t rs ⟨m,0,none⟩)).1) :
    ∃ deg ofs, .localNgh deg ofs ∈ rs ∧ c.2 ∈ x.nghPtr me ofs deg := by
  have inside := visitFound x found
  split at inside
  · rename_i ofs deg here
    rcases nodeSlice t rs _ here with none' | among
    · cases none'
    · exact ⟨deg,ofs,among,inside⟩
  · cases inside

theorem expandNodeTaskEffect (t : NodeTask n) (m : Machine n D) : ∃ found,
    (∀ c ∈ found, ∃ deg ofs, .localNgh deg ofs ∈ x.block t.nodeId ∧ c.2 ∈ x.nghPtr me ofs deg) ∧
    (expandNodeTask x me t m).toQueryMsg = m.toQueryMsg ∧
      (expandNodeTask x me t m).toSchedule = m.toSchedule ∧
      ∀ w : Weight n D, total w me (expandNodeTask x me t m) = total w me m + nodeGain w t (x.block t.nodeId) +
        w.nodeResult t.machineId ⟨nodePosts t (x.block t.nodeId),found,t.nodeId⟩ := by
  obtain ⟨query,sched,posts,gain⟩ := getNodetaskMsgEffect me t (x.block t.nodeId) ⟨m,0,none⟩
  rw [Nat.zero_add] at posts
  refine ⟨(sliceFound x me (getNodetaskMsg t (x.block t.nodeId) ⟨m,0,none⟩)).1,fun c member => sliceFoundIn x me member,query,sched,
    fun w => ?_⟩
  have added := gain w
  have change := spreadPush w.nodeResult (getNodetaskMsg t (x.block t.nodeId) ⟨m,0,none⟩).machine.nodeResultQueue
    t.machineId [⟨nodePosts t (x.block t.nodeId),
      (sliceFound x me (getNodetaskMsg t (x.block t.nodeId) ⟨m,0,none⟩)).1,t.nodeId⟩]
  simp only [sumCons,sumNil] at change
  simp only [expandNodeTask,total,readTotal,posts] at added ⊢
  omega

end Gains

end CoTra.SubQueryTotals
