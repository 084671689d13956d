import CoTra.CountedWork

/-! When a coroutine leaves its loop. The counters cover tasks, reads, chunks and
results; a NODE_SYNC that brings neighbours back to the machine that sent the NodeTask
is covered by nothing, only by the NODE_RESULT of the same vertex. -/
namespace CoTra.Quiescence
open Runs Priority SubQuery Spread SubQueryTotals SubQueryDrain SubQueryEffects Roster CountedWork

variable {n : Nat} {D : Type} [Distance D]

/- The NODE_SYNC entries for c that come from its own NodeTask for vertex v. -/
def Returns (c : Fin n) (v : Nat) (msg : NonCoreSyncMsg n) : Prop :=
  msg.cause = c ∧ msg.node = v ∧ (msg.coreMicroNgh ≠ [] ∨ msg.coreLargeNgh ≠ [])

instance (c : Fin n) (v : Nat) (msg : NonCoreSyncMsg n) : Decidable (Returns c v msg) :=
  inferInstanceAs (Decidable (_ ∧ _ ∧ _))

def returnWeight (c : Fin n) (v : Nat) : Weight n D :=
  { blank with nodeSync := fun p msg => if p = c ∧ Returns c v msg then 1 else 0 }

-- The result of the NodeTask itself.
def toldWeight (c : Fin n) (v : Nat) : Weight n D :=
  { blank with
    result := fun p r => if p = c ∧ r.node = some v then 1 else 0
    nodeResult := fun p r => if p = c ∧ r.node = v then 1 else 0 }

-- A local task that post_cnt does not count.
def uncountedWeight : Weight n D :=
  { blank with
    localTask := fun _ t => (!t.isCount).toNat
    chunk := fun _ t => (!t.isCount).toNat }

def returning (c : Fin n) (v : Nat) (s : Net n D) : Nat := totalAll (returnWeight c v) s
def told (c : Fin n) (v : Nat) (s : Net n D) : Nat := totalAll (toldWeight c v) s

/- The coroutine of c takes the result of a NodeTask only when the neighbours that the
same NodeTask sends back to c have been taken in. -/
def InOrder (s : Net n D) : Act n → Prop
  | .host c .procSubquery => ∀ r ∈ (s c).localRes, ∀ v ∈ r.node, returning c v s = 0
  | _ => True

theorem inOrderIff (s : Net n D) (act : Act n) : (∀ c, act = .host c .procSubquery →
    ∀ r ∈ (s c).localRes, ∀ v ∈ r.node, returning c v s = 0) ↔ InOrder s act := by
  cases act with
  | deliver a p => simp [InOrder]
  | host c op => cases op <;> simp [InOrder]

instance (s : Net n D) (act : Act n) : Decidable (InOrder s act) := decidable_of_iff _ (inOrderIff s act)

/- A message to p without work that c caused and that comes back to c. -/
def Clear (c p : Fin n) : Message n D → Prop
  | .query _ => True
  | .sync _ => True
  | .nodeSync ms => p = c → ∀ msg ∈ ms, ∀ v, ¬Returns c v msg
  | .task ts ns => (∀ t ∈ ts, t.machineId ≠ c) ∧ ∀ t ∈ ns, t.machineId ≠ c
  | .result rs => p = c → rs = []
  | .nodeResult rs => p = c → rs = []

/- Nothing that an expansion of c started is still on its way back to c or waits there.
The first run of the coroutine comes before its first expansion. -/
structure Quiet (c : Fin n) (s : Net n D) : Prop where
  taskQueue : ∀ a p, ∀ t ∈ (s a).taskQueue p, t.machineId ≠ c
  nodeTaskQueue : ∀ a p, ∀ t ∈ (s a).nodeTaskQueue p, t.machineId ≠ c
  curTaskQueue : ∀ a, ∀ t ∈ (s a).curTaskQueue, t.machineId ≠ c
  curNodeQueue : ∀ a, ∀ t ∈ (s a).curNodeQueue, t.machineId ≠ c
  resultQueue : ∀ a, (s a).resultQueue c = [] ∧ (s a).nodeResultQueue c = []
  noncoreSyncMsg : ∀ a, ∀ msg ∈ (s a).noncoreSyncMsg c, ∀ v, ¬Returns c v msg
  wire : ∀ a p, ∀ msg ∈ (s a).wire p, Clear c p msg
  rbuf : ∀ p k, ∀ msg ∈ (s p).rbuf k, Clear c p msg
  reads : (s c).asyncReadQueue = [] ∧ (s c).posted = [] ∧ (s c).recvList = [] ∧ (s c).recvAsyncReadQueue = []
  locals : (s c).baTaskQueue = [] ∧ (s c).stolen = [] ∧ (s c).conTaskQueue = []
  localRes : (s c).localRes = []
  lists : (s c).resumed = true → (s c).localTask = [] ∧ (s c).localMicroTask = []

section Steps

variable {x : Index n D} {cfg : Config n D} [Zero D] {me : Fin n}

omit [Distance D] in
theorem returnNode {c : Fin n} {v : Nat} {t : NodeTask n} {rs : List (Record n)}
    (other : ¬(t.machineId = c ∧ t.nodeId = v)) : nodeGain (returnWeight c v : Weight n D) t rs = 0 :=
  nodeGainZero (fun _ _ _ _ _ _ => rfl) (fun _ _ _ _ _ _ _ => if_neg (fun yes => other ⟨yes.2.1,yes.2.2.1⟩))

omit [Zero D] in
variable (x cfg me) in
theorem orderExpands (c : Fin n) (v : Nat) (q : QueryMsg n D) (vs : List Nat) :
    sumOf (expandGain (returnWeight c v) x cfg me q) vs = 0 ∧ sumOf (expandGain (toldWeight c v) x cfg me q) vs = 0 := by
  have zero : ∀ w : Weight n D, (∀ p t, w.nodeTask p t = 0) → (∀ p t, w.localTask p t = 0) → (∀ p r, w.read p r = 0) →
      (∀ p t, w.task p t = 0) → sumOf (expandGain w x cfg me q) vs = 0 := by
    intro w nodes locals reads tasks
    refine sumNone (fun u _ => ?_)
    unfold expandGain
    split
    · exact nodes _ _
    · exact lbGainZero me (fun _ _ _ => locals _ _) (fun _ _ _ _ _ _ => reads _ _) (fun _ _ _ _ _ => tasks _ _)
  exact ⟨zero _ (fun _ _ => rfl) (fun _ _ => rfl) (fun _ _ => rfl) (fun _ _ => rfl),
    zero _ (fun _ _ => rfl) (fun _ _ => rfl) (fun _ _ => rfl) (fun _ _ => rfl)⟩

/- What a step does to the two counts: neighbours on their way back come with a result,
and only a resumed coroutine takes results away. -/
inductive OrderStep (c : Fin n) (v : Nat) (me : Fin n) (m m' : Machine n D) : Prop
  | keeps (fewer : total (returnWeight c v) me m' ≤ total (returnWeight c v) me m)
      (same : total (toldWeight c v) me m' = total (toldWeight c v) me m)
  | makes (one : total (toldWeight c v) me m < total (toldWeight c v) me m')
  | takes (suspended : m.coro = .yielded) (runs : m'.coro = .top)
      (same : total (returnWeight c v) me m' = total (returnWeight c v) me m)
      (loss : total (toldWeight c v) me m' + sumOf ((toldWeight c v : Weight n D).result me) m.localRes =
        total (toldWeight c v) me m)

omit [Zero D] in
theorem orderSame {c : Fin n} {v : Nat} {m m' : Machine n D} (same : ∀ w : Weight n D, (∀ p f, w.query p f = 0) →
    (∀ p msg, w.sync p msg = 0) → total w me m' = total w me m) : OrderStep c v me m m' :=
  .keeps (same _ (fun _ _ => rfl) (fun _ _ => rfl)).le (same _ (fun _ _ => rfl) (fun _ _ => rfl))

theorem orderStep (c : Fin n) (v : Nat) {m m' : Machine n D} (effect : Effect x cfg me m m')
    (noOwn : ∀ t : ComputeTask n D, t.machineId = me → ¬∀ w, w.task me t ≤ total w me m) : OrderStep c v me m m' := by
  cases effect with
  | moves ok => exact orderSame (fun w _ _ => ok.same w)
  | swaps query emptied sched same => exact orderSame (fun w _ _ => same w)
  | waits msgs origin new idle outside forks query sched gain =>
    exact orderSame (fun w free _ => by rw [gain,sumNone (fun e _ => free e.1 e.2),Nat.add_zero])
  | opens msgs origin new idle inside forks query sched gain =>
    exact orderSame (fun w free _ => by rw [gain,sumNone (fun e _ => free e.1 e.2),Nat.add_zero])
  | merges g running query sched loss =>
    exact orderSame (fun w free _ => by rw [← loss w,free,Nat.add_zero])
  | syncs msg running query sched loss =>
    exact orderSame (fun w _ free => by rw [← loss w,free,Nat.add_zero])
  | nodeSyncs ms running query sched loss =>
    have result := loss (toldWeight c v)
    have fewer := loss (returnWeight c v)
    have silent : sumOf ((toldWeight c v : Weight n D).nodeSync me) ms = 0 := sumNone (fun _ _ => rfl)
    exact .keeps (by omega) (by omega)
  | wakes running query sched same => exact orderSame (fun w _ _ => same w)
  | starts new queued query sched same => exact orderSame (fun w _ _ => same w)
  | returns old queued query sched same => exact orderSame (fun w _ _ => same w)
  | nodeTask t found other queued slice query sched change =>
    have made := change (returnWeight c v)
    have result := change (toldWeight c v)
    have silent : nodeGain (toldWeight c v : Weight n D) t (x.block t.nodeId) = 0 :=
      nodeGainZero (fun _ _ _ _ _ _ => rfl) (fun _ _ _ _ _ _ _ => rfl)
    have free : (toldWeight c v : Weight n D).nodeTask me t = 0 := rfl
    rw [silent,free] at result
    by_cases its : t.machineId = c ∧ t.nodeId = v
    · have one : (toldWeight c v : Weight n D).nodeResult t.machineId
        ⟨nodePosts t (x.block t.nodeId),found,t.nodeId⟩ = 1 := if_pos its
      exact .makes (by omega)
    · have none' : (toldWeight c v : Weight n D).nodeResult t.machineId
        ⟨nodePosts t (x.block t.nodeId),found,t.nodeId⟩ = 0 := if_neg its
      have plain : (returnWeight c v : Weight n D).nodeResult t.machineId
        ⟨nodePosts t (x.block t.nodeId),found,t.nodeId⟩ = 0 := rfl
      rw [returnNode its,plain] at made
      exact .keeps (by omega) (by omega)
  | task t found other queued slice query sched change =>
    have made := change (returnWeight c v)
    have result := change (toldWeight c v)
    have none' : (toldWeight c v : Weight n D).result t.machineId (taskResult t found) = 0 :=
      if_neg (fun yes => absurd yes.2 (Option.some_ne_none v).symm)
    have free : (toldWeight c v : Weight n D).task me t = 0 := rfl
    have plain : (returnWeight c v : Weight n D).result t.machineId (taskResult t found) = 0 := rfl
    exact .keeps (by omega) (by omega)
  | ownTask t own queued => exact absurd queued (noOwn t own)
  | chunk t found queued slice query sched change =>
    have made := change (returnWeight c v)
    have result := change (toldWeight c v)
    exact .keeps (Nat.le_of_eq made) result
  | nodeResult r running queued query sched change =>
    have made := change (returnWeight c v)
    have result := change (toldWeight c v)
    have moved : (toldWeight c v : Weight n D).result me ⟨1,0,rfl,r.res,some r.node⟩ =
        (toldWeight c v : Weight n D).nodeResult me r := by
      simp only [toldWeight,Option.some.injEq]
    have plain : (returnWeight c v : Weight n D).result me ⟨1,0,rfl,r.res,some r.node⟩ = 0 := rfl
    exact .keeps (by omega) (by omega)
  | resumes search suspended queued query sched changed idle loss =>
    have made := loss (returnWeight c v)
    have result := loss (toldWeight c v)
    have still : consumed me (returnWeight c v) m = 0 := by simp [consumed,returnWeight,blank,sumNone]
    have taken : consumed me (toldWeight c v) m = sumOf ((toldWeight c v : Weight n D).result me) m.localRes := by
      simp [consumed,toldWeight,blank,sumNone]
    exact .takes suspended (by rw [query]) (by omega) (by omega)
  | overruns finished queued query sched same => exact orderSame (fun w _ _ => same w)
  | rests top noneLeft waiting query sched same => exact orderSame (fun w _ _ => same w)
  | idles top noneLeft notPost query sched same => exact orderSame (fun w _ _ => same w)
  | expands micro large add step lb msgs sent top some' query sched plain posted gain routed =>
    obtain ⟨noReturn,noResult⟩ := orderExpands x cfg me c v m.toQueryMsg (nextGroup m.toQueryMsg).1
    have made := gain (returnWeight c v)
    have result := gain (toldWeight c v)
    have plain₁ : sumOf (fun e => (returnWeight c v : Weight n D).sync e.1 (syncMsg sent e.2 false)) msgs = 0 :=
      sumNone (fun _ _ => rfl)
    have plain₂ : sumOf (fun e => (toldWeight c v : Weight n D).sync e.1 (syncMsg sent e.2 false)) msgs = 0 :=
      sumNone (fun _ _ => rfl)
    exact .keeps (by omega) (by omega)
  | pauses leaves several without query sched same => exact orderSame (fun w _ _ => same w)
  | passes leaves several holder going query sched gain =>
    exact orderSame (fun w _ free => by rw [gain,sumNone (fun e _ => free e.1 _),Nat.add_zero])
  | ends f cands ending query fewer sched fork gain =>
    exact orderSame (fun w free _ => by rw [gain,free,ite_self,Nat.add_zero])

-- A coroutine that was resumed has emptied the lists of the query.
def Drained (m : Machine n D) : Prop :=
  m.coro = .top → m.resumed = true → m.localTask = [] ∧ m.localMicroTask = []

omit [Zero D] in
theorem drainedSame {m m' : Machine n D} (before : Drained m) (query : m'.toQueryMsg = m.toQueryMsg)
    (sched : m'.resumed = m.resumed) : Drained m' := by
  intro top resumed
  rw [query] at top ⊢
  exact before top (by rw [← sched]; exact resumed)

omit [Zero D] in
theorem drainedOther {m m' : Machine n D} (running : m.coro ≠ .top) (coro : m'.coro = m.coro) : Drained m' :=
  fun top => absurd (coro.symm.trans top) running

theorem drainedStep {m m' : Machine n D} (effect : Effect x cfg me m m')
    (noOwn : ∀ t : ComputeTask n D, t.machineId = me → ¬∀ w, w.task me t ≤ total w me m) (before : Drained m) :
    Drained m' := by
  have away : ∀ c : Coro, c ≠ .top → m'.coro = c → Drained m' := fun c other coro top => absurd (coro.symm.trans top) other
  cases effect with
  | moves ok => exact drainedSame before ok.query (by rw [ok.sched])
  | swaps query emptied sched same => exact drainedSame before query (by rw [sched])
  | waits msgs origin new idle outside forks query sched gain =>
    exact away .waiting Coro.noConfusion (by rw [query])
  | opens msgs origin new idle inside forks query sched gain =>
    intro _ resumed
    rw [sched] at resumed
    exact absurd resumed Bool.false_ne_true
  | merges g running query sched loss => exact drainedOther running (by rw [query]; rfl)
  | syncs msg running query sched loss => exact drainedOther running (by rw [query,(wokenRoster _).2]; rfl)
  | nodeSyncs ms running query sched loss => exact drainedOther running (by rw [query,(nodeSyncedRoster _ _).2])
  | wakes running query sched same => exact drainedOther running (by rw [query,(wokenRoster _).2])
  | starts new queued query sched same =>
    intro _ resumed
    rw [sched] at resumed
    exact absurd resumed Bool.false_ne_true
  | returns old queued query sched same =>
    intro top resumed
    rw [query] at top ⊢
    exact before top (by rw [sched] at resumed; exact resumed)
  | nodeTask t found other queued slice query sched change => exact drainedSame before query (by rw [sched])
  | task t found other queued slice query sched change => exact drainedSame before query (by rw [sched])
  | ownTask t own queued => exact absurd queued (noOwn t own)
  | chunk t found queued slice query sched change => exact drainedSame before query (by rw [sched])
  | nodeResult r running queued query sched change => exact drainedOther running (by rw [query,(wokenRoster _).2])
  | resumes search suspended queued query sched changed idle loss =>
    intro _ _
    rw [query]
    exact ⟨rfl,rfl⟩
  | overruns finished queued query sched same => exact away .finished Coro.noConfusion (by rw [query,finished])
  | rests top noneLeft waiting query sched same => exact away .yielded Coro.noConfusion (by rw [query])
  | idles top noneLeft notPost query sched same => exact away .yielded Coro.noConfusion (by rw [query])
  | expands micro large add step lb msgs sent top some' query sched plain posted gain routed =>
    exact away .yielded Coro.noConfusion (by rw [query])
  | pauses leaves several without query sched same => exact away .yielded Coro.noConfusion (by rw [query])
  | passes leaves several holder going query sched gain => exact away .yielded Coro.noConfusion (by rw [query]; rfl)
  | ends f cands ending query fewer sched fork gain => exact away .finished Coro.noConfusion (by rw [query])

theorem uncountedLe {m m' : Machine n D} (effect : Effect x cfg me m m')
    (noOwn : ∀ t : ComputeTask n D, t.machineId = me → ¬∀ w, w.task me t ≤ total w me m) :
    total uncountedWeight me m' ≤ total uncountedWeight me m := by
  refine madeLe ⟨fun _ _ => rfl,fun _ _ => rfl,fun _ _ => rfl,fun _ _ => rfl,fun _ _ _ => Nat.le_refl _⟩ effect noOwn
    (fun t _ => nodeGainZero (fun _ _ _ _ _ _ => rfl) (fun _ _ _ _ _ _ _ => rfl)) (fun top v => ?_)
  unfold expandGain
  split
  · rfl
  · exact lbGainZero me (fun _ _ _ => rfl) (fun _ _ _ _ _ _ => rfl) (fun _ _ _ _ _ => rfl)

end Steps

section Invariant

variable (x : Index n D) (cfg : Config n D)

structure Ordered (s : Net n D) : Prop where
  counted : Counted x cfg s
  allCounted : totalAll uncountedWeight s = 0
  announced : ∀ c v, returning c v s ≠ 0 → told c v s ≠ 0
  drained : ∀ c, Drained (s c)

theorem startOrdered : Ordered x cfg (start cfg) where
  counted := startCounted x cfg
  allCounted := startTotal cfg _
  announced _ _ some' := absurd (startTotal cfg _) some'
  drained _ top := Coro.noConfusion top

variable {x cfg} [Zero D] {s t : Net n D}

theorem hostOrdered {a : Fin n} {op : Op} {m' : Machine n D} (ok : Ordered x cfg s) (order : InOrder s (.host a op))
    (done' : perform x cfg a (s a) op = some m') : Ordered x cfg (Function.update s a m') := by
  have effect := performEffect done'
  have noOwn := noOwnTask ok.counted a
  refine ⟨hostCounted ok.counted effect,hostZero ok.allCounted (uncountedLe effect noOwn),?_,?_⟩
  · intro c v some'
    have before := ok.announced c v
    have returned' := hostTotal (returnWeight c v) s a m'
    have results := hostTotal (toldWeight c v) s a m'
    simp only [returning,told] at before some' ⊢
    cases orderStep c v effect noOwn with
    | keeps fewer same => omega
    | makes one => omega
    | takes suspended runs same loss =>
      -- the results it takes are of vertices with nothing on the way back
      have old := (runningKnown ok.counted.rostered (by rw [suspended]; rfl : live (s a).coro = true)).1
      rcases resumeOp done' suspended old runs with rfl | ⟨t,among,own⟩
      · by_cases its : ∃ r ∈ (s a).localRes, a = c ∧ r.node = some v
        · obtain ⟨r,among,rfl,node⟩ := its
          have none' := order r among v node
          rw [returning] at none'
          omega
        · have nothing : sumOf ((toldWeight c v : Weight n D).result a) (s a).localRes = 0 :=
            sumNone (fun r among => if_neg (fun yes => its ⟨r,among,yes⟩))
          omega
      · have zero := ((totalAbsent _).mp (totalAt ok.counted.noOwn a)).curTaskQueue t among
        have one : (ownWeight : Weight n D).task a t = 1 := if_pos own
        omega
  · intro c
    rcases eq_or_ne c a with rfl | away
    · rw [Function.update_self]
      exact drainedStep effect noOwn (ok.drained c)
    · rw [Function.update_of_ne away]
      exact ok.drained c

theorem stepOrdered {act : Act n} (order : InOrder s act) (done' : step x cfg s act = some t)
    (ok : Ordered x cfg s) : Ordered x cfg t := by
  cases act with
  | host a op =>
    obtain ⟨m',performed,rfl⟩ := Option.map_eq_some_iff.mp done'
    exact hostOrdered ok order performed
  | deliver a p =>
    have same := deliverSame done'
    refine ⟨stepCounted done' ok.counted,?_,fun c v => ?_,fun c => ?_⟩
    · rw [deliverTotal _ done']
      exact ok.allCounted
    · rw [returning,told,deliverTotal _ done',deliverTotal _ done']
      exact ok.announced c v
    · exact drainedSame (ok.drained c) (same c).1 (by rw [(same c).2])

end Invariant

section Results

variable {x : Index n D} {cfg : Config n D} {s : Net n D} {c : Fin n}

/- What both pairs of counters leave out is not there. -/
omit [Distance D] in
theorem noTask {p : Fin n} {t : ComputeTask n D} (core : (coreWeight c : Weight n D).task p t = 0)
    (nocore : (nocoreWeight c : Weight n D).task p t = 0) : t.machineId ≠ c := by
  intro its
  have first : t.coreCnt = 0 := (if_pos its).symm.trans core
  have second : t.nocoreCnt = 0 := (if_pos its).symm.trans nocore
  have one := t.once
  omega

omit [Distance D] in
theorem noNodeTask {p : Fin n} {t : NodeTask n} (core : (coreWeight c : Weight n D).nodeTask p t = 0) :
    t.machineId ≠ c :=
  fun its => absurd ((if_pos its).symm.trans core) Nat.one_ne_zero

omit [Distance D] in
theorem noReturn {v : Nat} {msg : NonCoreSyncMsg n} (zero : (returnWeight c v : Weight n D).nodeSync c msg = 0) :
    ¬Returns c v msg :=
  fun yes => absurd ((if_pos ⟨rfl,yes⟩).symm.trans zero) Nat.one_ne_zero

omit [Distance D] in
theorem noLocal {counted : Bool} (core : (if c = c then counted.toNat else 0) = 0) (rest : (!counted).toNat = 0) :
    False := by
  rw [if_pos rfl] at core
  cases counted
  · exact absurd rest Nat.one_ne_zero
  · exact absurd core Nat.one_ne_zero

-- A result that has arrived would be counted.
theorem toldZero (core : outstanding c s = 0) (nocore : spawned c s = 0) (v : Nat) : told c v s = 0 := by
  refine totalEverywhere (fun a => (totalAbsent _).mpr ?_)
  have cores := (totalAbsent _).mp (totalAt core a)
  have nocores := (totalAbsent _).mp (totalAt nocore a)
  have results : ∀ p (r : ResultMsg D), (coreWeight c : Weight n D).result p r = 0 →
      (nocoreWeight c : Weight n D).result p r = 0 → (toldWeight c v : Weight n D).result p r = 0 := by
    intro p r first second
    refine if_neg (fun yes => ?_)
    obtain ⟨rfl,_⟩ := yes
    exact countedOnce first second
  have nodes : ∀ p (r : NodeResult D), (coreWeight c : Weight n D).nodeResult p r = 0 →
      (toldWeight c v : Weight n D).nodeResult p r = 0 := by
    intro p r first
    refine if_neg (fun yes => ?_)
    exact absurd ((if_pos yes.1).symm.trans first) Nat.one_ne_zero
  have silent : ∀ p (msg : Message n D), messageWeight (coreWeight c) p msg = 0 →
      messageWeight (nocoreWeight c) p msg = 0 → messageWeight (toldWeight c v) p msg = 0 := by
    intro p msg first second
    cases msg with
    | result rs => exact sumNone (fun r member => results p r (sumZero first r member) (sumZero second r member))
    | nodeResult rs => exact sumNone (fun r member => nodes p r (sumZero first r member))
    | query q => rfl
    | sync m => rfl
    | nodeSync ms => exact sumNone (fun _ _ => rfl)
    | task ts ns => exact Nat.add_eq_zero_iff.mpr ⟨sumNone (fun _ _ => rfl),sumNone (fun _ _ => rfl)⟩
  constructor
  case resultQueue => exact fun p r member => results p r (cores.resultQueue p r member) (nocores.resultQueue p r member)
  case nodeResultQueue => exact fun p r member => nodes p r (cores.nodeResultQueue p r member)
  case localRes => exact fun r member => results a r (cores.localRes r member) (nocores.localRes r member)
  case wire => exact fun p msg member => silent p msg (cores.wire p msg member) (nocores.wire p msg member)
  case rbuf => exact fun k msg member => silent a msg (cores.rbuf k msg member) (nocores.rbuf k msg member)
  all_goals intros; rfl

omit [Distance D] in
theorem clearMessage {p : Fin n} {msg : Message n D} (core : messageWeight (coreWeight c) p msg = 0)
    (nocore : messageWeight (nocoreWeight c) p msg = 0) (back : ∀ v, messageWeight (returnWeight c v) p msg = 0) :
    Clear c p msg := by
  cases msg with
  | query q => trivial
  | sync m => trivial
  | nodeSync ms =>
    rintro rfl msg member v
    exact noReturn (sumZero (back v) msg member)
  | task ts ns =>
    obtain ⟨tasks,nodes⟩ := Nat.add_eq_zero_iff.mp core
    obtain ⟨tasks',_⟩ := Nat.add_eq_zero_iff.mp nocore
    exact ⟨fun t member => noTask (sumZero tasks t member) (sumZero tasks' t member),
      fun t member => noNodeTask (sumZero nodes t member)⟩
  | result rs =>
    rintro rfl
    refine List.eq_nil_iff_forall_not_mem.mpr (fun r member => ?_)
    exact countedOnce (sumZero core r member) (sumZero nocore r member)
  | nodeResult rs =>
    rintro rfl
    refine List.eq_nil_iff_forall_not_mem.mpr (fun r member => ?_)
    exact absurd ((if_pos rfl).symm.trans (sumZero core r member)) Nat.one_ne_zero

theorem quiet (ok : Ordered x cfg s) (top : (s c).coro = .top) (core : outstanding c s = 0)
    (nocore : spawned c s = 0) : Quiet c s := by
  have cores := fun a => (totalAbsent _).mp (totalAt core a)
  have nocores := fun a => (totalAbsent _).mp (totalAt nocore a)
  have locals := (totalAbsent _).mp (totalAt ok.allCounted c)
  have none' : ∀ v, returning c v s = 0 := by
    intro v
    by_contra some'
    exact ok.announced c v some' (toldZero core nocore v)
  have back := fun v a => (totalAbsent _).mp (totalAt (none' v) a)
  have empty : ∀ {α : Type} {f : α → Nat} {xs : List α}, (∀ r ∈ xs, f r = 0) → (∀ r, f r = 1) → xs = [] := by
    intro α f xs zero one
    refine List.eq_nil_iff_forall_not_mem.mpr (fun r member => ?_)
    exact absurd ((one r).symm.trans (zero r member)) Nat.one_ne_zero
  have read : ∀ r : BufferCache n, (coreWeight c : Weight n D).read c r = 1 := fun r => if_pos rfl
  refine ⟨?_,?_,?_,?_,?_,?_,?_,?_,?_,?_,?_,ok.drained c top⟩
  · exact fun a p t member => noTask ((cores a).taskQueue p t member) ((nocores a).taskQueue p t member)
  · exact fun a p t member => noNodeTask ((cores a).nodeTaskQueue p t member)
  · exact fun a t member => noTask ((cores a).curTaskQueue t member) ((nocores a).curTaskQueue t member)
  · exact fun a t member => noNodeTask ((cores a).curNodeQueue t member)
  · exact (noResults core nocore).queued
  · exact fun a msg member v => noReturn ((back v a).noncoreSyncMsg c msg member)
  · exact fun a p msg member => clearMessage ((cores a).wire p msg member) ((nocores a).wire p msg member)
      (fun v => (back v a).wire p msg member)
  · exact fun p k msg member => clearMessage ((cores p).rbuf k msg member) ((nocores p).rbuf k msg member)
      (fun v => (back v p).rbuf k msg member)
  · exact ⟨empty (cores c).asyncReadQueue read,empty (cores c).posted read,empty (cores c).recvList read,
      empty (cores c).recvAsyncReadQueue read⟩
  · refine ⟨?_,?_,?_⟩
    · refine List.eq_nil_iff_forall_not_mem.mpr (fun t member => ?_)
      exact noLocal ((cores c).baTaskQueue t member) (locals.baTaskQueue t member)
    · refine List.eq_nil_iff_forall_not_mem.mpr (fun t member => ?_)
      exact noLocal ((cores c).stolen t member) (locals.stolen t member)
    · refine List.eq_nil_iff_forall_not_mem.mpr (fun ch member => ?_)
      exact noLocal ((cores c).conTaskQueue ch member) (locals.conTaskQueue ch member)
  · refine List.eq_nil_iff_forall_not_mem.mpr (fun r member => ?_)
    exact countedOnce ((cores c).localRes r member) ((nocores c).localRes r member)

/- A coroutine that leaves its loop has nothing of its own left, as long as neighbours
never come back behind the result of their NodeTask. -/
theorem quietWhenLeaving [Zero D] {acts : List (Act n)} (order : Along (step x cfg) InOrder (start cfg) acts)
    (ok : run (step x cfg) (start cfg) acts = some s) (c : Fin n) (leaves : Leaves (s c).toQueryMsg) : Quiet c s := by
  have ordered : Ordered x cfg s := by
    refine runInvariantAlong (fun _ _ _ good done' before => ?_) order ok (startOrdered x cfg)
    exact stepOrdered good done' before
  obtain ⟨even,evenNocore⟩ : (s c).recvCnt = (s c).postCnt ∧ (s c).nocorePost = (s c).nocoreRecv :=
    of_decide_eq_true leaves.allRecved
  have core := ordered.counted.core c
  have nocore := spawnedWhenEven ordered.counted even
  exact quiet ordered leaves.top (by omega) (by omega)

/- The enter point is on machine 1, its neighbour 1 on machine 0, whose candidates 2 and 3
make it the only core. -/
def backIndex : Index 2 Nat where
  getMachineId v := if v = 0 then 1 else 0
  block v := if v = 0 then [.micro 0 [1]] else []
  nghPtr _ _ _ := []
  dist v := [1,0,2,3].getD v 0
  kmeansPosLabelMap v := v
  foreign v r member := by
    rcases eq_or_ne v 0 with rfl | other
    · rw [if_pos rfl] at member
      rw [List.mem_singleton.mp member]
      decide
    · rw [if_neg other] at member
      cases member

def backConfig : Config 2 Nat where
  ef := 4
  resKnn := 2
  originMachine := 0
  leaderMachine := 0
  coreMachine := [0]
  coreNodup := aloneOnce
  leaderCore := aloneLeads
  enterpoint := (1,0)
  evaluated := [(2,2),(3,3)]
  once := by decide
  unset := 0

-- Machine 1 expands it and posts the NODE_RESULT, then the NODE_SYNC.
def backRun : List (Act 2) :=
  [.host 0 .searchSub,.host 0 .loopTop,.deliver 0 1,.host 1 (.poll .task),.host 1 .procNodeTask,
    .host 1 .postRemoteResTaskSync,.deliver 1 0,.host 0 (.poll .nodeResult),.host 0 .procNodeRes]

def backResume : List (Act 2) := [.host 0 .swapTaskQueue,.host 0 .procSubquery]

theorem quietWhenLeavingBack : ∃ s,
    Along (step backIndex backConfig) InOrder (start backConfig)
      (backRun ++ [.deliver 1 0,.host 0 (.poll .nodeSync)] ++ backResume ++ [.host 0 .loopTop] ++ backResume) ∧
    run (step backIndex backConfig) (start backConfig)
      (backRun ++ [.deliver 1 0,.host 0 (.poll .nodeSync)] ++ backResume ++ [.host 0 .loopTop] ++ backResume) = some s ∧
    Leaves (s 0).toQueryMsg ∧ (s 0).visitHash = [1] ∧ Quiet 0 s := by
  have order : Along (step backIndex backConfig) InOrder (start backConfig)
      (backRun ++ [.deliver 1 0,.host 0 (.poll .nodeSync)] ++ backResume ++ [.host 0 .loopTop] ++ backResume) := by
    decide +kernel
  have last : (run (step backIndex backConfig) (start backConfig)
      (backRun ++ [.deliver 1 0,.host 0 (.poll .nodeSync)] ++ backResume ++ [.host 0 .loopTop] ++ backResume)).map
        (fun s => (decide (Leaves (s 0).toQueryMsg),(s 0).visitHash)) = some (true,[1]) := by decide +kernel
  obtain ⟨s,ok,value⟩ := Option.map_eq_some_iff.mp last
  obtain ⟨leaves,visited⟩ := Prod.mk.inj value
  exact ⟨s,order,ok,of_decide_eq_true leaves,visited,quietWhenLeaving order ok 0 (of_decide_eq_true leaves)⟩

def returnsIn (c : Fin n) (v : Nat) : Message n D → Bool
  | .nodeSync ms => ms.any (fun msg => decide (Returns c v msg))
  | _ => false

-- Without the NODE_SYNC the search of machine 0 is over, and vertex 1 is never looked at.
theorem leavesTooEarly : ∃ s, run (step backIndex backConfig) (start backConfig) (backRun ++ backResume) = some s ∧
    Leaves (s 0).toQueryMsg ∧ Ends 0 (s 0).toQueryMsg ∧ ¬Quiet 0 s := by
  have last : (run (step backIndex backConfig) (start backConfig) (backRun ++ backResume)).map
      (fun s => (decide (Leaves (s 0).toQueryMsg),decide (Ends 0 (s 0).toQueryMsg),
        ((s 1).wire 0).any (returnsIn 0 0))) = some (true,true,true) := by decide +kernel
  obtain ⟨s,ok,value⟩ := Option.map_eq_some_iff.mp last
  simp only [Prod.mk.injEq] at value
  obtain ⟨leaves,ends,back⟩ := value
  refine ⟨s,ok,of_decide_eq_true leaves,of_decide_eq_true ends,fun quiet => ?_⟩
  obtain ⟨msg,member,found⟩ := List.any_eq_true.mp back
  have clear := quiet.wire 1 0 msg member
  cases msg with
  | nodeSync ms =>
    obtain ⟨e,inside,returns⟩ := List.any_eq_true.mp found
    exact clear rfl e inside 0 (of_decide_eq_true returns)
  | _ => exact absurd found Bool.false_ne_true

end Results

end CoTra.Quiescence
