import CoTra.Roster

/-! The two pairs of counters of a core machine. post_cnt and recv_cnt count what the
machine sent out itself; nocore_post and nocore_recv the tasks that other machines
sent on its behalf, which it learns of with their NODE_RESULT. -/
namespace CoTra.CountedWork
open Runs Priority SubQuery Spread SubQueryTotals SubQueryDrain SubQueryEffects Roster

variable {n : Nat} {D : Type} [Distance D]

/- The counted items of machine c: its local tasks and chunks, reads, ComputeTasks and
NodeTasks, and their results until they are consumed. -/
def coreWeight (c : Fin n) : Weight n D where
  task _ t := if t.machineId = c then t.coreCnt else 0
  nodeTask _ t := if t.machineId = c then 1 else 0
  result p r := if p = c then r.coreCnt else 0
  nodeResult p _ := if p = c then 1 else 0
  nodeSync _ _ := 0
  sync _ _ := 0
  query _ _ := 0
  localTask p t := if p = c then t.isCount.toNat else 0
  chunk p t := if p = c then t.isCount.toNat else 0
  read p _ := if p = c then 1 else 0

/- The tasks that were sent for c by the machines that expanded its NodeTasks. -/
def nocoreWeight (c : Fin n) : Weight n D where
  task _ t := if t.machineId = c then t.nocoreCnt else 0
  nodeTask _ _ := 0
  result p r := if p = c then r.nocoreCnt else 0
  nodeResult _ _ := 0
  nodeSync _ _ := 0
  sync _ _ := 0
  query _ _ := 0
  localTask _ _ := 0
  chunk _ _ := 0
  read _ _ := 0

-- What the NODE_RESULTs on their way to c will add to nocore_post.
def announceWeight (c : Fin n) : Weight n D where
  task _ _ := 0
  nodeTask _ _ := 0
  result _ _ := 0
  nodeResult p r := if p = c then r.postCnt else 0
  nodeSync _ _ := 0
  sync _ _ := 0
  query _ _ := 0
  localTask _ _ := 0
  chunk _ _ := 0
  read _ _ := 0

def outstanding (c : Fin n) (s : Net n D) : Nat := totalAll (coreWeight c) s
def spawned (c : Fin n) (s : Net n D) : Nat := totalAll (nocoreWeight c) s
def announced (c : Fin n) (s : Net n D) : Nat := totalAll (announceWeight c) s

def share (c a : Fin n) (k : Nat) : Nat := if a = c then k else 0

theorem shareAdd (c a : Fin n) (j k : Nat) : share c a (j + k) = share c a j + share c a k := by
  unfold share
  split <;> rfl

def counters (q : QueryMsg n D) : Nat × Nat × Nat × Nat := (q.postCnt,q.recvCnt,q.nocorePost,q.nocoreRecv)

section Gains

variable (x : Index n D) (cfg : Config n D) (c me : Fin n)

theorem coreExpand (q : QueryMsg n D) (v : Nat) :
    expandGain (coreWeight c) x cfg me q v = share c me (expandGain ones x cfg me q v) := by
  unfold expandGain share
  rcases eq_or_ne me c with rfl | other
  · rw [if_pos rfl]
    split
    · exact if_pos rfl
    · refine lbGainCongr me (fun t counted => ?_) (fun r => if_pos rfl) (fun pid ofs deg => if_pos rfl) _
      exact (if_pos rfl).trans (by rw [counted]; rfl)
  · rw [if_neg other]
    split
    · exact if_neg other
    · exact lbGainZero me (fun _ _ _ => if_neg other) (fun _ _ _ _ _ _ => if_neg other)
        (fun _ _ _ _ _ => if_neg other)

theorem coreExpands (q : QueryMsg n D) (vs : List Nat) :
    sumOf (expandGain (coreWeight c) x cfg me q) vs = share c me (sumOf (expandGain ones x cfg me q) vs) := by
  induction vs with
  | nil => simp [share]
  | cons v rest ih =>
    rw [sumCons,sumCons,ih,coreExpand]
    unfold share
    split <;> rfl

theorem nocoreExpands (q : QueryMsg n D) (vs : List Nat) : sumOf (expandGain (nocoreWeight c) x cfg me q) vs = 0 := by
  refine sumNone (fun v _ => ?_)
  unfold expandGain
  split
  · rfl
  · exact lbGainZero me (fun _ _ _ => rfl) (fun _ _ _ _ _ _ => rfl) (fun _ _ _ _ _ => ite_self _)

theorem announceExpands (q : QueryMsg n D) (vs : List Nat) :
    sumOf (expandGain (announceWeight c) x cfg me q) vs = 0 := by
  refine sumNone (fun v _ => ?_)
  unfold expandGain
  split
  · rfl
  · exact lbGainZero me (fun _ _ _ => rfl) (fun _ _ _ _ _ _ => rfl) (fun _ _ _ _ _ => rfl)

variable [Zero D]

omit [Distance D] in
theorem coreNode (t : NodeTask n) (rs : List (Record n)) : nodeGain (coreWeight c : Weight n D) t rs = 0 :=
  nodeGainZero (fun _ _ _ _ _ _ => ite_self _) (fun _ _ _ _ _ _ _ => rfl)

omit [Distance D] in
theorem announceNode (t : NodeTask n) (rs : List (Record n)) : nodeGain (announceWeight c : Weight n D) t rs = 0 :=
  nodeGainZero (fun _ _ _ _ _ _ => rfl) (fun _ _ _ _ _ _ _ => rfl)

omit [Distance D] in
theorem nocoreNode (t : NodeTask n) (rs : List (Record n)) :
    nodeGain (nocoreWeight c : Weight n D) t rs = share c t.machineId (nodePosts t rs) := by
  induction rs with
  | nil => simp [nodeGain,nodePosts,share]
  | cons r rest ih =>
    cases r with
    | localNgh deg ofs => simp [nodeGain,nodePosts,share]
    | micro pid ids =>
      simp only [nodeGain,nodePosts,ih]
      unfold share nocoreWeight
      split <;> split <;> simp_all
    | large pid ofs deg =>
      simp only [nodeGain,nodePosts,ih]
      unfold share nocoreWeight
      split <;> split <;> simp_all

end Gains

section Balance

variable {x : Index n D} {cfg : Config n D} {me : Fin n}

/- The change of a machine and the change of what is outstanding agree. -/
structure Balanced (c me : Fin n) (m m' : Machine n D) : Prop where
  core : share c me m'.postCnt + share c me m.recvCnt + total (coreWeight c) me m =
    share c me m.postCnt + share c me m'.recvCnt + total (coreWeight c) me m'
  nocore : share c me m'.nocorePost + share c me m.nocoreRecv + total (announceWeight c) me m' +
    total (nocoreWeight c) me m = share c me m.nocorePost + share c me m'.nocoreRecv +
    total (announceWeight c) me m + total (nocoreWeight c) me m'

theorem balancedSame {c : Fin n} {m m' : Machine n D} (same : counters m'.toQueryMsg = counters m.toQueryMsg)
    (core : total (coreWeight c) me m' = total (coreWeight c) me m)
    (announce : total (announceWeight c) me m' = total (announceWeight c) me m)
    (nocore : total (nocoreWeight c) me m' = total (nocoreWeight c) me m) : Balanced c me m m' := by
  simp only [counters,Prod.mk.injEq] at same
  obtain ⟨post,recv,nocorePost,nocoreRecv⟩ := same
  exact ⟨by rw [post,recv,core],by rw [nocorePost,nocoreRecv,announce,nocore]⟩

theorem wokenCounters (q : QueryMsg n D) : counters (woken q) = counters q := by
  unfold woken
  split <;> rfl

theorem nodeSyncedCounters (ms : List (NonCoreSyncMsg n)) (q : QueryMsg n D) :
    counters (nodeSynced ms q) = counters q := by
  unfold nodeSynced
  split
  · rfl
  · exact wokenCounters q

theorem consumedCore (c : Fin n) (m : Machine n D) : consumed me (coreWeight c) m = share c me (received m) := by
  unfold consumed received share
  rcases eq_or_ne me c with rfl | other
  · simp only [coreWeight,if_pos,sumOnes]
  · simp only [coreWeight,if_neg other]
    simp [sumNone]

theorem consumedNocore (c : Fin n) (m : Machine n D) :
    consumed me (nocoreWeight c) m = share c me (sumOf ResultMsg.nocoreCnt m.localRes) := by
  unfold consumed share
  rcases eq_or_ne me c with rfl | other
  · simp only [nocoreWeight,if_pos]
    simp [sumNone]
  · simp only [nocoreWeight,if_neg other]
    simp [sumNone]

theorem consumedAnnounce (c : Fin n) (m : Machine n D) : consumed me (announceWeight c) m = 0 := by
  simp [consumed,announceWeight,sumNone]

variable [Zero D]

theorem balanced (c : Fin n) {m m' : Machine n D} (effect : Effect x cfg me m m')
    (noOwn : ∀ t : ComputeTask n D, t.machineId = me → ¬∀ w, w.task me t ≤ total w me m)
    (zero : m.coro = .none → counters m.toQueryMsg = (0,0,0,0)) (idle : m.isNew = true → m.coro = .none) :
    Balanced c me m m' := by
  cases effect with
  | moves ok => exact balancedSame (by rw [ok.query]) (ok.same _) (ok.same _) (ok.same _)
  | swaps query emptied sched same => exact balancedSame (by rw [query]) (same _) (same _) (same _)
  | waits msgs origin new idle outside forks query sched gain =>
    have none' : ∀ w : Weight n D, (∀ p f, w.query p f = 0) → total w me m' = total w me m := by
      intro w free
      rw [gain,sumNone (fun e _ => free e.1 e.2),Nat.add_zero]
    exact balancedSame (by rw [query]; rfl) (none' _ (fun _ _ => rfl)) (none' _ (fun _ _ => rfl)) (none' _ (fun _ _ => rfl))
  | opens msgs origin new idle inside forks query sched gain =>
    have none' : ∀ w : Weight n D, (∀ p f, w.query p f = 0) → total w me m' = total w me m := by
      intro w free
      rw [gain,sumNone (fun e _ => free e.1 e.2),Nat.add_zero]
    exact balancedSame (by rw [query,zero idle]; rfl) (none' _ (fun _ _ => rfl)) (none' _ (fun _ _ => rfl))
      (none' _ (fun _ _ => rfl))
  | merges g running query sched loss =>
    exact balancedSame (by rw [query]; rfl) (loss (coreWeight c)) (loss (announceWeight c)) (loss (nocoreWeight c))
  | syncs msg running query sched loss =>
    refine balancedSame ?_ (loss (coreWeight c)) (loss (announceWeight c)) (loss (nocoreWeight c))
    rw [query,wokenCounters]
    rfl
  | nodeSyncs ms running query sched loss =>
    have none' : ∀ w : Weight n D, (∀ msg, w.nodeSync me msg = 0) → total w me m' = total w me m := by
      intro w free
      have change := loss w
      rwa [sumNone (fun msg _ => free msg),Nat.add_zero] at change
    refine balancedSame ?_ (none' _ (fun _ => rfl)) (none' _ (fun _ => rfl)) (none' _ (fun _ => rfl))
    rw [query,nodeSyncedCounters]
  | wakes running query sched same =>
    refine balancedSame ?_ (same _) (same _) (same _)
    rw [query,wokenCounters]
  | starts new queued query sched same =>
    exact balancedSame (by rw [query,zero (idle new)]; rfl) (same _) (same _) (same _)
  | returns old queued query sched same => exact balancedSame (by rw [query]; rfl) (same _) (same _) (same _)
  | nodeTask t found other queued slice query sched change =>
    have core := change (coreWeight c)
    have announce := change (announceWeight c)
    have nocore := change (nocoreWeight c)
    rw [coreNode] at core
    rw [announceNode] at announce
    rw [nocoreNode] at nocore
    refine ⟨?_,?_⟩
    · rw [query]
      simp only [coreWeight] at core ⊢
      omega
    · rw [query]
      simp only [announceWeight,nocoreWeight,share] at announce nocore ⊢
      omega
  | task t found other queued slice query sched change =>
    have core := change (coreWeight c)
    have announce := change (announceWeight c)
    have nocore := change (nocoreWeight c)
    refine ⟨?_,?_⟩
    · rw [query]
      simp only [coreWeight,taskResult] at core ⊢
      omega
    · rw [query]
      simp only [announceWeight,nocoreWeight,taskResult] at announce nocore ⊢
      omega
  | ownTask t own queued => exact absurd queued (noOwn t own)
  | chunk t found queued slice query sched change =>
    have core := change (coreWeight c)
    refine balancedSame (by rw [query]) ?_ (change (announceWeight c)) (change (nocoreWeight c))
    simp only [coreWeight] at core ⊢
    omega
  | nodeResult r running queued query sched change =>
    have core := change (coreWeight c)
    have announce := change (announceWeight c)
    have nocore := change (nocoreWeight c)
    have after : counters m'.toQueryMsg = (m.postCnt,m.recvCnt,m.nocorePost + r.postCnt,m.nocoreRecv) := by
      rw [query,wokenCounters]
      rfl
    simp only [counters,Prod.mk.injEq] at after
    obtain ⟨post,recv,nocorePost,nocoreRecv⟩ := after
    refine ⟨?_,?_⟩
    · rw [post,recv]
      simp only [coreWeight] at core ⊢
      omega
    · have told : (announceWeight c : Weight n D).nodeResult me r = share c me r.postCnt := rfl
      have none' : (announceWeight c : Weight n D).result me ⟨1,0,rfl,r.res,some r.node⟩ = 0 := rfl
      have free : (nocoreWeight c : Weight n D).nodeResult me r = 0 := rfl
      have plain : (nocoreWeight c : Weight n D).result me ⟨1,0,rfl,r.res,some r.node⟩ = 0 := ite_self 0
      rw [nocorePost,nocoreRecv,shareAdd]
      omega
  | resumes search suspended queued query sched changed idle loss =>
    have core := loss (coreWeight c)
    have announce := loss (announceWeight c)
    have nocore := loss (nocoreWeight c)
    rw [consumedCore] at core
    rw [consumedAnnounce] at announce
    rw [consumedNocore] at nocore
    refine ⟨?_,?_⟩
    · rw [query]
      simp only [shareAdd]
      omega
    · rw [query]
      simp only [shareAdd]
      omega
  | overruns finished queued query sched same => exact balancedSame (by rw [query]) (same _) (same _) (same _)
  | rests top noneLeft waiting query sched same => exact balancedSame (by rw [query]; rfl) (same _) (same _) (same _)
  | idles top noneLeft notPost query sched same => exact balancedSame (by rw [query]; rfl) (same _) (same _) (same _)
  | expands micro large add step lb msgs sent top some' query sched plain posted gain routed =>
    have core := gain (coreWeight c)
    have announce := gain (announceWeight c)
    have nocore := gain (nocoreWeight c)
    have free : ∀ w : Weight n D, (∀ p msg, w.sync p msg = 0) →
        sumOf (fun e => w.sync e.1 (syncMsg sent e.2 false)) msgs = 0 := fun w none' => sumNone (fun e _ => none' _ _)
    rw [coreExpands,free _ (fun _ _ => rfl)] at core
    rw [announceExpands,free _ (fun _ _ => rfl)] at announce
    rw [nocoreExpands,free _ (fun _ _ => rfl)] at nocore
    refine ⟨?_,?_⟩
    · rw [query]
      simp only [shareAdd]
      omega
    · rw [query]
      simp only
      omega
  | pauses leaves several without query sched same => exact balancedSame (by rw [query]; rfl) (same _) (same _) (same _)
  | passes leaves several holder going query sched gain =>
    have none' : ∀ w : Weight n D, (∀ p msg, w.sync p msg = 0) → total w me m' = total w me m := by
      intro w free
      rw [gain,sumNone (fun e _ => free e.1 _),Nat.add_zero]
    exact balancedSame (by rw [query]; rfl) (none' _ (fun _ _ => rfl)) (none' _ (fun _ _ => rfl)) (none' _ (fun _ _ => rfl))
  | ends f cands ending query fewer sched fork gain =>
    have none' : ∀ w : Weight n D, (∀ p g, w.query p g = 0) → total w me m' = total w me m := by
      intro w free
      rw [gain,free,ite_self,Nat.add_zero]
    exact balancedSame (by rw [query]; rfl) (none' _ (fun _ _ => rfl)) (none' _ (fun _ _ => rfl)) (none' _ (fun _ _ => rfl))

end Balance

section Invariant

variable (x : Index n D) (cfg : Config n D)

-- A ComputeTask that came back to the machine that sent it.
def ownWeight : Weight n D := { blank with task := fun p t => if t.machineId = p then 1 else 0 }

-- A NodeTask whose sender is not marked as a core machine in it.
def unflaggedWeight : Weight n D :=
  { blank with nodeTask := fun _ t => if t.isCoreMachine t.machineId then 0 else 1 }

structure Counted (s : Net n D) : Prop where
  rostered : Rostered x cfg s
  noOwn : totalAll ownWeight s = 0
  flagged : totalAll unflaggedWeight s = 0
  core : ∀ c, (s c).postCnt = (s c).recvCnt + outstanding c s
  nocore : ∀ c, (s c).nocorePost + announced c s = (s c).nocoreRecv + spawned c s
  idle : ∀ c, live (s c).coro = false → counters (s c).toQueryMsg = (0,0,0,0)
  finished : ∀ c, (s c).coro = .finished →
    (s c).recvCnt = (s c).postCnt ∧ (s c).nocorePost = (s c).nocoreRecv

theorem startTotal (w : Weight n D) : totalAll w (start cfg) = 0 :=
  Finset.sum_eq_zero (fun p _ => totalFresh w cfg p)

theorem startCounted : Counted x cfg (start cfg) where
  rostered := startRostered x cfg
  noOwn := startTotal cfg _
  flagged := startTotal cfg _
  core c := by rw [outstanding,startTotal]; rfl
  nocore c := by rw [announced,spawned,startTotal,startTotal]; rfl
  idle c _ := rfl
  finished c no := Coro.noConfusion no

variable {x cfg} {s t : Net n D}

theorem totalAt {w : Weight n D} (zero : totalAll w s = 0) (a : Fin n) : total w a (s a) = 0 :=
  Finset.sum_eq_zero_iff.mp zero a (Finset.mem_univ a)

theorem totalEverywhere {w : Weight n D} (zero : ∀ a, total w a (s a) = 0) : totalAll w s = 0 :=
  Finset.sum_eq_zero (fun a _ => zero a)

theorem hostZero {w : Weight n D} (zero : totalAll w s = 0) {a : Fin n} {m' : Machine n D}
    (le : total w a m' ≤ total w a (s a)) : totalAll w (Function.update s a m') = 0 := by
  have change := hostTotal w s a m'
  have here := totalAt zero a
  omega

theorem noOwnTask (ok : Counted x cfg s) (a : Fin n) :
    ∀ t : ComputeTask n D, t.machineId = a → ¬∀ w, w.task a t ≤ total w a (s a) := by
  intro t own queued
  have one := queued ownWeight
  rw [totalAt ok.noOwn a] at one
  have weight : (ownWeight : Weight n D).task a t = 1 := if_pos own
  omega

theorem isCoreSelf (ok : Counted x cfg s) {a : Fin n} (alive : live (s a).coro = true) :
    (s a).isCoreMachine a = true := by
  obtain ⟨_,known,_⟩ := runningKnown ok.rostered alive
  rw [known.flags]
  exact decide_eq_true known.inside

-- A machine whose counters agree has no NODE_RESULT to come.
theorem noneTold (ok : Counted x cfg s) {c : Fin n} (even : (s c).recvCnt = (s c).postCnt) (r : NodeResult D) :
    ¬∀ w, w.nodeResult c r ≤ total w c (s c) := by
  intro queued
  have one := queued (coreWeight c)
  have weight : (coreWeight c : Weight n D).nodeResult c r = 1 := if_pos rfl
  have all := ok.core c
  have none' : total (coreWeight c) c (s c) = 0 := by
    refine totalAt ?_ c
    rw [outstanding] at all
    omega
  omega

variable [Zero D]

theorem noOwnKept (ok : Counted x cfg s) {a : Fin n} {m' : Machine n D} (effect : Effect x cfg a (s a) m') :
    totalAll ownWeight (Function.update s a m') = 0 := by
  refine hostZero ok.noOwn (decodedLe ⟨fun _ _ => rfl,fun _ _ => rfl,fun _ _ => rfl,fun _ _ => rfl,fun _ _ => rfl⟩
    effect (noOwnTask ok a) (fun t queued => ?_) (fun top v => ?_))
  · -- the sender of a NodeTask is a core machine in it, its tasks go to the others
    have flagged := queued unflaggedWeight
    rw [totalAt ok.flagged a] at flagged
    refine nodeGainZero (fun r _ pid ngh _ outside => if_neg (fun same => ?_)) (fun _ _ _ _ _ _ _ => rfl)
    subst same
    have weight : (unflaggedWeight : Weight n D).nodeTask a t = 1 := if_neg (by rw [outside]; exact Bool.false_ne_true)
    omega
  · unfold expandGain
    split
    · rfl
    · rename_i here
      refine lbGainZero a (fun _ _ _ => rfl) (fun _ _ _ _ _ _ => rfl) (fun pid ofs deg among _ => if_neg ?_)
      intro same
      subst same
      exact x.foreign v _ among (congrArg some (not_not.mp here).symm)

theorem flaggedKept (ok : Counted x cfg s) {a : Fin n} {m' : Machine n D} (effect : Effect x cfg a (s a) m') :
    totalAll unflaggedWeight (Function.update s a m') = 0 := by
  refine hostZero ok.flagged (decodedLe ⟨fun _ _ => rfl,fun _ _ => rfl,fun _ _ => rfl,fun _ _ => rfl,fun _ _ => rfl⟩
    effect (noOwnTask ok a) (fun t queued => ?_) (fun top v => ?_))
  · exact nodeGainZero (fun _ _ _ _ _ _ => rfl) (fun _ _ _ _ _ _ _ => rfl)
  · unfold expandGain
    split
    · exact if_pos (isCoreSelf ok (by rw [top]; rfl))
    · exact lbGainZero a (fun _ _ _ => rfl) (fun _ _ _ _ _ _ => rfl) (fun _ _ _ _ _ => rfl)

inductive CoroStep (me : Fin n) (m m' : Machine n D) : Prop
  | keeps (coro : m'.coro = m.coro) (same : counters m'.toQueryMsg = counters m.toQueryMsg)
  | told (r : NodeResult D) (queued : ∀ w, w.nodeResult me r ≤ total w me m) (coro : m'.coro = m.coro)
  | waits (coro : m'.coro = .waiting) (before : m.coro = .none)
      (same : counters m'.toQueryMsg = counters m.toQueryMsg)
  | runs (alive : live m'.coro = true) (going : m'.coro ≠ .finished)
  | ends (coro : m'.coro = .finished) (all : allResultRecved m.toQueryMsg = true)
      (same : counters m'.toQueryMsg = counters m.toQueryMsg)

theorem coroStep {me : Fin n} {m m' : Machine n D} (effect : Effect x cfg me m m')
    (noOwn : ∀ t : ComputeTask n D, t.machineId = me → ¬∀ w, w.task me t ≤ total w me m) : CoroStep me m m' := by
  cases effect with
  | moves ok => exact .keeps (by rw [ok.query]) (by rw [ok.query])
  | swaps query emptied sched same => exact .keeps (by rw [query]) (by rw [query])
  | waits msgs origin new idle outside forks query sched gain =>
    exact .waits (by rw [query]) idle (by rw [query]; rfl)
  | opens msgs origin new idle inside forks query sched gain =>
    exact .runs (by rw [query]; rfl) (by rw [query]; exact Coro.noConfusion)
  | merges g running query sched loss => exact .keeps (by rw [query]; rfl) (by rw [query]; rfl)
  | syncs msg running query sched loss =>
    refine .keeps ?_ ?_
    · rw [query,(wokenRoster _).2]
      rfl
    · rw [query,wokenCounters]
      rfl
  | nodeSyncs ms running query sched loss =>
    exact .keeps (by rw [query,(nodeSyncedRoster _ _).2]) (by rw [query,nodeSyncedCounters])
  | wakes running query sched same => exact .keeps (by rw [query,(wokenRoster _).2]) (by rw [query,wokenCounters])
  | starts new queued query sched same =>
    exact .runs (by rw [query]; rfl) (by rw [query]; exact Coro.noConfusion)
  | returns old queued query sched same => exact .keeps (by rw [query]) (by rw [query]; rfl)
  | nodeTask t found other queued slice query sched change => exact .keeps (by rw [query]) (by rw [query])
  | task t found other queued slice query sched change => exact .keeps (by rw [query]) (by rw [query])
  | ownTask t own queued => exact absurd queued (noOwn t own)
  | chunk t found queued slice query sched change => exact .keeps (by rw [query]) (by rw [query])
  | nodeResult r running queued query sched change =>
    refine .told r queued ?_
    rw [query,(wokenRoster _).2]
  | resumes search suspended queued query sched changed idle loss =>
    exact .runs (by rw [query]; rfl) (by rw [query]; exact Coro.noConfusion)
  | overruns finished queued query sched same => exact .keeps (by rw [query]) (by rw [query])
  | rests top noneLeft waiting query sched same =>
    exact .runs (by rw [query]; rfl) (by rw [query]; exact Coro.noConfusion)
  | idles top noneLeft notPost query sched same =>
    exact .runs (by rw [query]; rfl) (by rw [query]; exact Coro.noConfusion)
  | expands micro large add step lb msgs sent top some' query sched plain posted gain routed =>
    exact .runs (by rw [query]; rfl) (by rw [query]; exact Coro.noConfusion)
  | pauses leaves several without query sched same =>
    exact .runs (by rw [query]; rfl) (by rw [query]; exact Coro.noConfusion)
  | passes leaves several holder going query sched gain =>
    exact .runs (by rw [query]; rfl) (by rw [query]; exact Coro.noConfusion)
  | ends f cands ending query fewer sched fork gain =>
    exact .ends (by rw [query]) ending.leaves.allRecved (by rw [query]; rfl)

theorem hostCounted (ok : Counted x cfg s) {a : Fin n} {m' : Machine n D} (effect : Effect x cfg a (s a) m') :
    Counted x cfg (Function.update s a m') := by
  have noOwn := noOwnTask ok a
  have roster : RosterStep x cfg a (s a) m' := by
    rcases rosterStep effect with step | ⟨t,own,queued⟩
    · exact step
    · exact absurd queued (noOwn t own)
  have newIdle := newAsleep ok.rostered (a := a)
  have balance := fun c => balanced c effect noOwn (fun none' => ok.idle a (by rw [none']; rfl)) newIdle
  have coro := coroStep effect noOwn
  refine ⟨rosterKept ok.rostered roster,noOwnKept ok effect,flaggedKept ok effect,?_,?_,?_,?_⟩
  · intro c
    have change := hostTotal (coreWeight c) s a m'
    have before := ok.core c
    have moved := (balance c).core
    rw [outstanding] at before ⊢
    rcases eq_or_ne c a with rfl | away
    · rw [Function.update_self]
      simp only [share,if_pos] at moved
      omega
    · rw [Function.update_of_ne away]
      simp only [share,if_neg (Ne.symm away)] at moved
      omega
  · intro c
    have announce := hostTotal (announceWeight c) s a m'
    have spawn := hostTotal (nocoreWeight c) s a m'
    have before := ok.nocore c
    have moved := (balance c).nocore
    rw [announced,spawned] at before ⊢
    rcases eq_or_ne c a with rfl | away
    · rw [Function.update_self]
      simp only [share,if_pos] at moved
      omega
    · rw [Function.update_of_ne away]
      simp only [share,if_neg (Ne.symm away)] at moved
      omega
  · intro c dead
    rcases eq_or_ne c a with rfl | away
    · rw [Function.update_self] at dead ⊢
      cases coro with
      | keeps coro same => rw [same]; exact ok.idle c (by rw [← coro]; exact dead)
      | told r queued coro =>
        have zero := ok.idle c (by rw [← coro]; exact dead)
        simp only [counters,Prod.mk.injEq] at zero
        exact absurd queued (noneTold ok (zero.2.1.trans zero.1.symm) r)
      | waits coro before same => rw [same]; exact ok.idle c (by rw [before]; rfl)
      | runs alive going => rw [alive] at dead; cases dead
      | ends coro all same => rw [coro] at dead; cases dead
    · rw [Function.update_of_ne away] at dead ⊢
      exact ok.idle c dead
  · intro c done'
    rcases eq_or_ne c a with rfl | away
    · rw [Function.update_self] at done' ⊢
      cases coro with
      | keeps coro same =>
        have before := ok.finished c (by rw [← coro]; exact done')
        simp only [counters,Prod.mk.injEq] at same
        rw [same.1,same.2.1,same.2.2.1,same.2.2.2]
        exact before
      | told r queued coro =>
        have before := ok.finished c (by rw [← coro]; exact done')
        exact absurd queued (noneTold ok before.1 r)
      | waits coro before same => rw [coro] at done'; cases done'
      | runs alive going => exact absurd done' going
      | ends coro all same =>
        simp only [counters,Prod.mk.injEq] at same
        rw [same.1,same.2.1,same.2.2.1,same.2.2.2]
        exact of_decide_eq_true all
    · rw [Function.update_of_ne away] at done' ⊢
      exact ok.finished c done'

theorem stepCounted {act : Act n} (done' : step x cfg s act = some t) (ok : Counted x cfg s) : Counted x cfg t := by
  rcases stepCases done' with ⟨a,m',rfl,effect⟩ | ⟨same,totals⟩
  · exact hostCounted ok effect
  · have field : ∀ p, (t p).toQueryMsg = (s p).toQueryMsg := fun p => (same p).1
    have comes : ∀ p, coming t p = coming s p := fun p => totals _
    refine ⟨⟨?_,?_,?_,?_⟩,?_,?_,?_,?_,?_,?_⟩
    · rw [totals]
      exact ok.rostered.right
    · intro p other
      rw [field,comes]
      exact ok.rostered.others p other
    · rw [field,field,comes]
      exact ok.rostered.home
    · intro new p
      rw [field] at new
      rw [field,comes]
      exact ok.rostered.first new p
    · rw [totals]
      exact ok.noOwn
    · rw [totals]
      exact ok.flagged
    · intro c
      rw [field,outstanding,totals]
      exact ok.core c
    · intro c
      rw [field,announced,spawned,totals,totals]
      exact ok.nocore c
    · intro c dead
      rw [field] at dead ⊢
      exact ok.idle c dead
    · intro c finished
      rw [field] at finished ⊢
      exact ok.finished c finished

theorem runCounted {acts : List (Act n)} (ok : run (step x cfg) (start cfg) acts = some s) : Counted x cfg s :=
  runInvariant (fun _ _ _ done' before => stepCounted done' before) ok (startCounted x cfg)

end Invariant

section Results

variable {x : Index n D} {cfg : Config n D} {s : Net n D}

/- The NODE_RESULTs to come are outstanding themselves. -/
theorem announcedZero {c : Fin n} (core : outstanding c s = 0) : announced c s = 0 := by
  refine totalEverywhere (fun a => (totalAbsent _).mpr ?_)
  have absent := (totalAbsent _).mp (totalAt core a)
  have away : ∀ p (r : NodeResult D), (coreWeight c : Weight n D).nodeResult p r = 0 →
      (announceWeight c : Weight n D).nodeResult p r = 0 := by
    intro p r zero
    rcases eq_or_ne p c with rfl | other
    · exact absurd ((if_pos rfl).symm.trans zero) Nat.one_ne_zero
    · exact if_neg other
  have silent : ∀ p (msg : Message n D), messageWeight (coreWeight c) p msg = 0 →
      messageWeight (announceWeight c) p msg = 0 := by
    intro p msg zero
    cases msg with
    | nodeResult rs => exact sumNone (fun r member => away p r (sumZero zero r member))
    | query q => rfl
    | sync m => rfl
    | nodeSync ms => exact sumNone (fun _ _ => rfl)
    | task ts ns => exact Nat.add_eq_zero_iff.mpr ⟨sumNone (fun _ _ => rfl),sumNone (fun _ _ => rfl)⟩
    | result rs => exact sumNone (fun _ _ => rfl)
  constructor
  case nodeResultQueue => exact fun p r member => away p r (absent.nodeResultQueue p r member)
  case wire => exact fun p msg member => silent p msg (absent.wire p msg member)
  case rbuf => exact fun k msg member => silent a msg (absent.rbuf k msg member)
  all_goals intros; rfl

theorem spawnedWhenEven (ok : Counted x cfg s) {c : Fin n} (even : (s c).recvCnt = (s c).postCnt) :
    (s c).nocorePost = (s c).nocoreRecv + spawned c s := by
  have core := ok.core c
  have nocore := ok.nocore c
  have none' : outstanding c s = 0 := by omega
  have silent := announcedZero none'
  omega

def resultItems : Message n D → Nat
  | .result rs => rs.length
  | .nodeResult rs => rs.length
  | _ => 0

/- No result for machine c is on its way to it or waits to be read. -/
structure NoResults (c : Fin n) (s : Net n D) : Prop where
  wire : ∀ a, ∀ msg ∈ (s a).wire c, resultItems msg = 0
  rbuf : ∀ k, ∀ msg ∈ (s c).rbuf k, resultItems msg = 0
  queued : ∀ a, (s a).resultQueue c = [] ∧ (s a).nodeResultQueue c = []

/- A result is counted by one of the two pairs of counters. -/
omit [Distance D] in
theorem countedOnce {c : Fin n} {r : ResultMsg D} (core : (coreWeight c : Weight n D).result c r = 0)
    (nocore : (nocoreWeight c : Weight n D).result c r = 0) : False := by
  have first : r.coreCnt = 0 := (if_pos rfl).symm.trans core
  have second : r.nocoreCnt = 0 := (if_pos rfl).symm.trans nocore
  have one := r.once
  omega

omit [Distance D] in
theorem noItems {c : Fin n} {msg : Message n D} (core : messageWeight (coreWeight c) c msg = 0)
    (nocore : messageWeight (nocoreWeight c) c msg = 0) : resultItems msg = 0 := by
  cases msg with
  | result rs =>
    refine List.length_eq_zero_iff.mpr (List.eq_nil_iff_forall_not_mem.mpr (fun r member => ?_))
    exact countedOnce (sumZero core r member) (sumZero nocore r member)
  | nodeResult rs =>
    refine List.length_eq_zero_iff.mpr (List.eq_nil_iff_forall_not_mem.mpr (fun r member => ?_))
    exact absurd ((if_pos rfl).symm.trans (sumZero core r member)) Nat.one_ne_zero
  | _ => rfl

theorem noResults {c : Fin n} (core : outstanding c s = 0) (nocore : spawned c s = 0) : NoResults c s := by
  have cores := fun a => (totalAbsent _).mp (totalAt core a)
  have nocores := fun a => (totalAbsent _).mp (totalAt nocore a)
  refine ⟨fun a msg member => ?_,fun k msg member => ?_,fun a => ⟨?_,?_⟩⟩
  · exact noItems ((cores a).wire c msg member) ((nocores a).wire c msg member)
  · exact noItems ((cores c).rbuf k msg member) ((nocores c).rbuf k msg member)
  · refine List.eq_nil_iff_forall_not_mem.mpr (fun r member => ?_)
    exact countedOnce ((cores a).resultQueue c r member) ((nocores a).resultQueue c r member)
  · refine List.eq_nil_iff_forall_not_mem.mpr (fun r member => ?_)
    exact absurd ((if_pos rfl).symm.trans ((cores a).nodeResultQueue c r member)) Nat.one_ne_zero

/- The two pairs of counters in every reachable state. Behind the end of a machine's
coroutine no result for it is left anywhere, so none can arrive at the leader. -/
theorem countedWork [Zero D] {acts : List (Act n)} (ok : run (step x cfg) (start cfg) acts = some s) :
    (∀ c, (s c).postCnt = (s c).recvCnt + outstanding c s ∧
      ((s c).recvCnt = (s c).postCnt → (s c).nocorePost = (s c).nocoreRecv + spawned c s)) ∧
    ((s cfg.leaderMachine).coro = .finished → NoResults cfg.leaderMachine s) := by
  have counted := runCounted ok
  refine ⟨fun c => ⟨counted.core c,spawnedWhenEven counted⟩,fun finished => ?_⟩
  obtain ⟨even,evenNocore⟩ := counted.finished _ finished
  have core := counted.core cfg.leaderMachine
  have nocore := spawnedWhenEven counted even
  exact noResults (by omega) (by omega)

/- Vertex 0 on core machine 0, its neighbours 1, 2, 3 on machine 1: a task, then NodeTasks. -/
def pairIndex : Index 2 Nat where
  getMachineId v := if v = 0 then 0 else 1
  block v := if v = 0 then [.large 1 0 3] else []
  nghPtr p _ _ := if p = 1 then [1,2,3] else []
  dist v := 4 - v
  kmeansPosLabelMap v := v
  foreign v r member := by
    rcases eq_or_ne v 0 with rfl | other
    · rw [if_pos rfl] at member
      rw [List.mem_singleton.mp member]
      decide
    · rw [if_neg other] at member
      cases member

def pairConfig : Config 2 Nat where
  ef := 4
  resKnn := 2
  originMachine := 0
  leaderMachine := 0
  coreMachine := [0]
  coreNodup := aloneOnce
  leaderCore := aloneLeads
  enterpoint := (4,0)
  evaluated := []
  once := by decide
  unset := 0

def pairRun : List (Act 2) :=
  [.host 0 .searchSub,.host 0 .loopTop,.deliver 0 1,.host 1 (.poll .task),.host 1 .procTask,
    .host 1 (.postRemoteResult 0),.deliver 1 0,.host 0 (.poll .result),.host 0 .procResult,.host 0 .swapTaskQueue,
    .host 0 .procSubquery,.host 0 .loopTop,.deliver 0 1,.host 1 (.poll .task),.host 1 .procNodeTask,
    .host 1 .procNodeTask,.host 1 .procNodeTask,.host 1 .postRemoteResTaskSync,.deliver 1 0,
    .host 0 (.poll .nodeResult),.host 0 .procNodeRes,.host 0 .procNodeRes,.host 0 .procNodeRes,
    .host 0 .swapTaskQueue,.host 0 .procSubquery,.host 0 .loopTop]

theorem countedWorkPair : ∃ s, run (step pairIndex pairConfig) (start pairConfig) pairRun = some s ∧
    (s 0).coro = .finished ∧ (s 0).postCnt = 4 ∧ (s 0).nocorePost = (s 0).nocoreRecv + spawned 0 s ∧ NoResults 0 s := by
  have last : (run (step pairIndex pairConfig) (start pairConfig) pairRun).map
      (fun s => ((s 0).coro,(s 0).postCnt,(s 0).recvCnt)) = some (.finished,4,4) := by decide +kernel
  obtain ⟨s,ok,value⟩ := Option.map_eq_some_iff.mp last
  simp only [Prod.mk.injEq] at value
  obtain ⟨coro,post,recv⟩ := value
  obtain ⟨counts,after⟩ := countedWork ok
  exact ⟨s,ok,coro,post,(counts 0).2 (recv.trans post.symm),after coro⟩

end Results

end CoTra.CountedWork
