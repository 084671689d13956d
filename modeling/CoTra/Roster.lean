import CoTra.SubQueryEffects

/-! How the query reaches its core machines: the origin opens it and forks it once to
every other core machine, and only the leader sends it back. What a machine knows
about the core machines is the same from its fork to the end. -/
namespace CoTra.Roster
open Runs Priority SubQuery Spread SubQueryTotals SubQueryEffects

variable {n : Nat} {D : Type} [Distance D]

-- The coroutine for the core machines has started.
def live : Coro → Bool
  | .none => false
  | .waiting => false
  | .yielded => true
  | .top => true
  | .finished => true

def queryWeight (f : Fin n → QueryFork n D → Nat) : Weight n D := { blank with query := f }

def roster (q : QueryMsg n D) : Bool × Nat × List (Fin n) × (Fin n → Bool) × Fin n :=
  (q.isNew,q.queryQueue,q.coreMachine,q.isCoreMachine,q.leaderMachine)

section Weights

variable (x : Index n D) (cfg : Config n D) (me : Fin n) (f : Fin n → QueryFork n D → Nat)

theorem expandNone (q : QueryMsg n D) (vs : List Nat) : sumOf (expandGain (queryWeight f) x cfg me q) vs = 0 := by
  refine sumNone (fun v _ => ?_)
  unfold expandGain
  split
  · rfl
  · exact lbGainZero me (fun _ _ _ => rfl) (fun _ _ _ _ _ _ => rfl) (fun _ _ _ _ _ => rfl)

omit [Distance D] in
theorem nodeNone [Zero D] (t : NodeTask n) (rs : List (Record n)) : nodeGain (queryWeight f : Weight n D) t rs = 0 :=
  nodeGainZero (fun _ _ _ _ _ _ => rfl) (fun _ _ _ _ _ _ _ => rfl)

theorem consumedNone (m : Machine n D) : SubQueryDrain.consumed me (queryWeight f) m = 0 := by
  simp [SubQueryDrain.consumed,queryWeight,blank,sumNone]

end Weights

section Steps

variable (x : Index n D) (cfg : Config n D) (me : Fin n) [Zero D]

inductive RosterStep (m m' : Machine n D) : Prop
  | keeps (same : roster m'.toQueryMsg = roster m.toQueryMsg)
      (coro : m'.coro = m.coro ∨ live m.coro = true ∧ live m'.coro = true ∧ m.coro ≠ .finished)
      (totals : ∀ f, total (queryWeight f) me m' = total (queryWeight f) me m)
  | opens (msgs : List (Fin n × QueryFork n D)) (origin : me = cfg.originMachine) (new : m.isNew = true)
      (idle : m.coro = .none) (forks : Forks x cfg me msgs)
      (after : roster m'.toQueryMsg = (false,m.queryQueue,cfg.coreMachine,coreFlags cfg.coreMachine,cfg.leaderMachine))
      (coro : me ∈ cfg.coreMachine ∧ m'.coro = .top ∨ me ∉ cfg.coreMachine ∧ m'.coro = .waiting)
      (totals : ∀ f, total (queryWeight f) me m' = total (queryWeight f) me m + sumOf (fun e => f e.1 e.2) msgs)
  | merges (g : QueryFork n D) (coro : m'.coro = m.coro)
      (after : roster m'.toQueryMsg = (m.isNew,m.queryQueue + 1,m.coreMachine ++ g.coreMachine,
        fun p => m.isCoreMachine p || coreFlags g.coreMachine p,g.leaderMachine))
      (totals : ∀ f, total (queryWeight f) me m' + f me g = total (queryWeight f) me m)
  | starts (new : m.isNew = true) (queued : 0 < m.queryQueue) (coro : m'.coro = .top)
      (after : roster m'.toQueryMsg = (false,m.queryQueue - 1,m.coreMachine,m.isCoreMachine,m.leaderMachine))
      (totals : ∀ f, total (queryWeight f) me m' = total (queryWeight f) me m)
  | returns (old : m.isNew = false) (queued : 0 < m.queryQueue) (coro : m'.coro = m.coro)
      (after : roster m'.toQueryMsg = (m.isNew,m.queryQueue - 1,m.coreMachine,m.isCoreMachine,m.leaderMachine))
      (totals : ∀ f, total (queryWeight f) me m' = total (queryWeight f) me m)
  | ends (g : QueryFork n D) (running : m.coro = .top) (coro : m'.coro = .finished)
      (same : roster m'.toQueryMsg = roster m.toQueryMsg)
      (fork : g.leaderMachine = m.leaderMachine ∧ g.coreMachine = m.coreMachine ∧ g.state = .ended)
      (totals : ∀ f, total (queryWeight f) me m' = total (queryWeight f) me m +
        if m.leaderMachine = me ∧ me ≠ cfg.originMachine then f cfg.originMachine g else 0)

variable {x cfg me}

omit [Zero D] in
theorem wokenRoster (q : QueryMsg n D) : roster (woken q) = roster q ∧ (woken q).coro = q.coro := by
  unfold woken
  split <;> exact ⟨rfl,rfl⟩

omit [Zero D] in
theorem nodeSyncedRoster (ms : List (NonCoreSyncMsg n)) (q : QueryMsg n D) :
    roster (nodeSynced ms q) = roster q ∧ (nodeSynced ms q).coro = q.coro := by
  unfold nodeSynced
  split
  · exact ⟨rfl,rfl⟩
  · exact wokenRoster q

theorem rosterStep {m m' : Machine n D} (effect : Effect x cfg me m m') :
    RosterStep x cfg me m m' ∨ ∃ t : ComputeTask n D, t.machineId = me ∧ ∀ w, w.task me t ≤ total w me m := by
  cases effect with
  | moves ok => exact .inl (.keeps (by rw [ok.query]) (.inl (by rw [ok.query])) (fun f => ok.same _))
  | swaps query emptied sched same => exact .inl (.keeps (by rw [query]) (.inl (by rw [query])) (fun f => same _))
  | waits msgs origin new idle outside forks query sched gain =>
    exact .inl (.opens msgs origin new idle forks (by rw [query]; rfl) (.inr ⟨outside,by rw [query]⟩) (fun f => gain _))
  | opens msgs origin new idle inside forks query sched gain =>
    exact .inl (.opens msgs origin new idle forks (by rw [query]; rfl) (.inl ⟨inside,by rw [query]; rfl⟩) (fun f => gain _))
  | merges g running query sched loss =>
    exact .inl (.merges g (by rw [query]; rfl) (by rw [query]; rfl) (fun f => loss _))
  | syncs msg running query sched loss =>
    refine .inl (.keeps ?_ (.inl ?_) (fun f => loss (queryWeight f)))
    · rw [query,(wokenRoster _).1]
      rfl
    · rw [query,(wokenRoster _).2]
      rfl
  | nodeSyncs ms running query sched loss =>
    refine .inl (.keeps ?_ (.inl ?_) (fun f => ?_))
    · rw [query,(nodeSyncedRoster _ _).1]
    · rw [query,(nodeSyncedRoster _ _).2]
    · have change := loss (queryWeight f)
      rwa [show sumOf ((queryWeight f).nodeSync me) ms = 0 from sumNone (fun _ _ => rfl),Nat.add_zero] at change
  | wakes running query sched same =>
    exact .inl (.keeps (by rw [query,(wokenRoster _).1]) (.inl (by rw [query,(wokenRoster _).2])) (fun f => same _))
  | starts new queued query sched same =>
    exact .inl (.starts new queued (by rw [query]; rfl) (by rw [query]; rfl) (fun f => same _))
  | returns old queued query sched same =>
    exact .inl (.returns old queued (by rw [query]) (by rw [query]; rfl) (fun f => same _))
  | nodeTask t found other queued slice query sched change =>
    refine .inl (.keeps (by rw [query]) (.inl (by rw [query])) (fun f => ?_))
    have changed := change (queryWeight f)
    rwa [nodeNone] at changed
  | task t found other queued slice query sched change =>
    exact .inl (.keeps (by rw [query]) (.inl (by rw [query])) (fun f => change (queryWeight f)))
  | ownTask t own queued => exact .inr ⟨t,own,queued⟩
  | chunk t found queued slice query sched change =>
    exact .inl (.keeps (by rw [query]) (.inl (by rw [query])) (fun f => change (queryWeight f)))
  | nodeResult r running queued query sched change =>
    refine .inl (.keeps ?_ (.inl ?_) (fun f => change (queryWeight f)))
    · rw [query,(wokenRoster _).1]
      rfl
    · rw [query,(wokenRoster _).2]
  | resumes search suspended queued query sched changed idle loss =>
    refine .inl (.keeps (by rw [query]; rfl) (.inr ⟨by rw [suspended]; rfl,by rw [query]; rfl,?_⟩) (fun f => ?_))
    · rw [suspended]
      exact Coro.noConfusion
    · have change := loss (queryWeight f)
      rwa [consumedNone,Nat.add_zero] at change
  | overruns finished queued query sched same =>
    exact .inl (.keeps (by rw [query]) (.inl (by rw [query])) (fun f => same _))
  | rests top noneLeft waiting query sched same =>
    exact .inl (.keeps (by rw [query]; rfl) (.inr ⟨by rw [top]; rfl,by rw [query]; rfl,by rw [top]; exact Coro.noConfusion⟩)
      (fun f => same _))
  | idles top noneLeft notPost query sched same =>
    exact .inl (.keeps (by rw [query]; rfl) (.inr ⟨by rw [top]; rfl,by rw [query]; rfl,by rw [top]; exact Coro.noConfusion⟩)
      (fun f => same _))
  | expands micro large add step lb msgs sent top some' query sched plain posted gain routed =>
    refine .inl (.keeps (by rw [query]; rfl) (.inr ⟨by rw [top]; rfl,by rw [query]; rfl,?_⟩) (fun f => ?_))
    · rw [top]
      exact Coro.noConfusion
    · have change := gain (queryWeight f)
      rwa [expandNone,show sumOf (fun e => (queryWeight f).sync e.1 (syncMsg sent e.2 false)) msgs = 0 from
        sumNone (fun _ _ => rfl)] at change
  | pauses leaves several without query sched same =>
    exact .inl (.keeps (by rw [query]; rfl) (.inr ⟨by rw [leaves.top]; rfl,by rw [query]; rfl,
      by rw [leaves.top]; exact Coro.noConfusion⟩) (fun f => same _))
  | passes leaves several holder going query sched gain =>
    refine .inl (.keeps (by rw [query]; rfl) (.inr ⟨by rw [leaves.top]; rfl,by rw [query]; rfl,?_⟩) (fun f => ?_))
    · rw [leaves.top]
      exact Coro.noConfusion
    · have change := gain (queryWeight f)
      rwa [show sumOf (fun e => (queryWeight f).sync e.1 (syncMsg m.toQueryMsg e.2 (taintOf me m.toQueryMsg)))
        (SubQueryTotals.syncs me (nxtPropM me m.coreMachine) true true m.coreMachine) = 0 from
        sumNone (fun _ _ => rfl)] at change
  | ends g cands ending query fewer sched fork gain =>
    exact .inl (.ends g ending.leaves.top (by rw [query]) (by rw [query]; rfl) ⟨fork.1,fork.2.1,fork.2.2.1⟩
      (fun f => gain _))

end Steps

section Invariant

variable (x : Index n D) (cfg : Config n D)

structure Untouched (q : QueryMsg n D) : Prop where
  new : q.isNew = true
  coro : q.coro = .none
  queue : q.queryQueue = 0
  core : q.coreMachine = []
  flags : ∀ p, q.isCoreMachine p = false

structure Known (p : Fin n) (q : QueryMsg n D) : Prop where
  inside : p ∈ cfg.coreMachine
  leader : q.leaderMachine = cfg.leaderMachine
  flags : q.isCoreMachine = coreFlags cfg.coreMachine

/- A machine other than the origin, with the number of forks on their way to it. -/
inductive Station (p : Fin n) (q : QueryMsg n D) (coming : Nat) : Prop
  | untouched (before : Untouched q) (one : coming ≤ 1)
  | received (new : q.isNew = true) (coro : q.coro = .none) (queue : q.queryQueue = 1) (known : Known cfg p q)
      (core : q.coreMachine = cfg.coreMachine) (all : coming = 0)
  | running (old : q.isNew = false) (alive : live q.coro = true) (queue : q.queryQueue = 0) (known : Known cfg p q)
      (core : q.coreMachine = cfg.coreMachine) (all : coming = 0)

/- The origin; the query comes back when the leader has finished. -/
inductive Home (q : QueryMsg n D) (coming : Nat) (ended : Prop) : Prop
  | untouched (before : Untouched q) (none' : coming = 0)
  | running (old : q.isNew = false) (alive : live q.coro = true) (known : Known cfg cfg.originMachine q)
      (rest : ¬ended → q.queryQueue = 0 ∧ q.coreMachine = cfg.coreMachine ∧ coming = 0)
  | waiting (old : q.isNew = false) (coro : q.coro = .waiting) (outside : cfg.originMachine ∉ cfg.coreMachine)
      (rest : ¬ended → q.queryQueue = 0 ∧ coming = 0)

open Classical in
noncomputable def wrongQuery (p : Fin n) (f : QueryFork n D) : Nat :=
  if p = cfg.originMachine then
    if f.leaderMachine = cfg.leaderMachine ∧ f.coreMachine = cfg.coreMachine ∧ f.state = .ended then 0 else 1
  else if p ∈ cfg.coreMachine ∧ ∃ result, f = forked x cfg p result then 0 else 1

def queryTo (p q : Fin n) (_ : QueryFork n D) : Nat := if q = p then 1 else 0

def coming (s : Net n D) (p : Fin n) : Nat := totalAll (queryWeight (queryTo p)) s

structure Rostered (s : Net n D) : Prop where
  right : totalAll (queryWeight (wrongQuery x cfg)) s = 0
  others : ∀ p, p ≠ cfg.originMachine → Station cfg p (s p).toQueryMsg (coming s p)
  home : Home cfg (s cfg.originMachine).toQueryMsg (coming s cfg.originMachine) ((s cfg.leaderMachine).coro = .finished)
  first : (s cfg.originMachine).isNew = true → ∀ p, Untouched (s p).toQueryMsg ∧ coming s p = 0

theorem startRostered : Rostered x cfg (start cfg) := by
  have none' : ∀ w : Weight n D, totalAll w (start cfg) = 0 := by
    intro w
    refine Finset.sum_eq_zero (fun p _ => ?_)
    exact totalFresh w cfg p
  have clean : Untouched (fresh cfg : Machine n D).toQueryMsg := ⟨rfl,rfl,rfl,rfl,fun _ => rfl⟩
  exact ⟨none' _,fun p _ => .untouched clean (by rw [coming,none']; exact Nat.zero_le 1),.untouched clean (none' _),
    fun _ p => ⟨clean,none' _⟩⟩

variable {x cfg} {s : Net n D} {a : Fin n} {m' : Machine n D}

theorem comingUpdate (s : Net n D) (a : Fin n) (m' : Machine n D) (p : Fin n) :
    coming (Function.update s a m') p + total (queryWeight (queryTo p)) a (s a) =
      coming s p + total (queryWeight (queryTo p)) a m' :=
  hostTotal _ s a m'

omit [Distance D] in
theorem queryToNone {p : Fin n} {msgs : List (Fin n × QueryFork n D)} (away : ∀ e ∈ msgs, e.1 ≠ p) :
    sumOf (fun e => queryTo p e.1 e.2) msgs = 0 :=
  sumNone (fun e member => if_neg (away e member))

omit [Distance D] in
theorem queryToOne (p : Fin n) {msgs : List (Fin n × QueryFork n D)} (once : (msgs.map Prod.fst).Nodup) :
    sumOf (fun e => queryTo p e.1 e.2) msgs ≤ 1 := by
  induction msgs with
  | nil => exact Nat.zero_le 1
  | cons e rest ih =>
    rw [List.map_cons,List.nodup_cons] at once
    rw [sumCons]
    rcases eq_or_ne e.1 p with here | away
    · have none' : sumOf (fun e => queryTo p e.1 e.2) rest = 0 := by
        refine queryToNone (fun e' member at' => once.1 ?_)
        rw [here,← at']
        exact List.mem_map_of_mem member
      rw [none',queryTo,if_pos here]
    · rw [queryTo,if_neg away,Nat.zero_add]
      exact ih once.2

-- Where nothing of the roster changes but the point at which the coroutine is.
theorem stationKept {p : Fin n} {q q' : QueryMsg n D} {k : Nat} (same : roster q' = roster q)
    (coro : q'.coro = q.coro ∨ live q.coro = true ∧ live q'.coro = true) (before : Station cfg p q k) :
    Station cfg p q' k := by
  simp only [roster,Prod.mk.injEq] at same
  obtain ⟨new,queue,core,flags,leader⟩ := same
  cases before with
  | untouched h one =>
    have idle : q'.coro = .none := by
      rcases coro with same | moved
      · rw [same,h.coro]
      · rw [h.coro] at moved
        cases moved.1
    exact .untouched ⟨by rw [new,h.new],idle,by rw [queue,h.queue],by rw [core,h.core],by rw [flags]; exact h.flags⟩ one
  | received new' coro' queue' known core' all =>
    have idle : q'.coro = .none := by
      rcases coro with same | moved
      · rw [same,coro']
      · rw [coro'] at moved
        cases moved.1
    exact .received (by rw [new,new']) idle (by rw [queue,queue'])
      ⟨known.inside,by rw [leader,known.leader],by rw [flags,known.flags]⟩ (by rw [core,core']) all
  | running old alive queue' known core' all =>
    have still : live q'.coro = true := by
      rcases coro with same | moved
      · rw [same,alive]
      · exact moved.2
    exact .running (by rw [new,old]) still (by rw [queue,queue'])
      ⟨known.inside,by rw [leader,known.leader],by rw [flags,known.flags]⟩ (by rw [core,core']) all

theorem homeKept {q q' : QueryMsg n D} {k : Nat} {ended ended' : Prop} (same : roster q' = roster q)
    (coro : q'.coro = q.coro ∨ live q.coro = true ∧ live q'.coro = true) (more : ended → ended')
    (before : Home cfg q k ended) : Home cfg q' k ended' := by
  simp only [roster,Prod.mk.injEq] at same
  obtain ⟨new,queue,core,flags,leader⟩ := same
  cases before with
  | untouched h none' =>
    have idle : q'.coro = .none := by
      rcases coro with same | moved
      · rw [same,h.coro]
      · rw [h.coro] at moved
        cases moved.1
    exact .untouched ⟨by rw [new,h.new],idle,by rw [queue,h.queue],by rw [core,h.core],by rw [flags]; exact h.flags⟩ none'
  | running old alive known rest =>
    have still : live q'.coro = true := by
      rcases coro with same | moved
      · rw [same,alive]
      · exact moved.2
    refine .running (by rw [new,old]) still ⟨known.inside,by rw [leader,known.leader],by rw [flags,known.flags]⟩ ?_
    intro going
    rw [queue,core]
    exact rest (fun finished => going (more finished))
  | waiting old coro' outside rest =>
    have still : q'.coro = .waiting := by
      rcases coro with same | moved
      · rw [same,coro']
      · rw [coro'] at moved
        cases moved.1
    refine .waiting (by rw [new,old]) still outside (fun going => ?_)
    rw [queue]
    exact rest (fun finished => going (more finished))

theorem wrongTotal (good : totalAll (queryWeight (wrongQuery x cfg)) s = 0) (p : Fin n) :
    total (queryWeight (wrongQuery x cfg)) p (s p) = 0 :=
  Finset.sum_eq_zero_iff.mp good p (Finset.mem_univ p)

theorem finishedStays [Zero D] (ok : Rostered x cfg s) (step : RosterStep x cfg a (s a) m')
    (finished : (s cfg.leaderMachine).coro = .finished) :
    (Function.update s a m' cfg.leaderMachine).coro = .finished := by
  rcases eq_or_ne cfg.leaderMachine a with rfl | away
  · rw [Function.update_self]
    cases step with
    | keeps same coro totals =>
      rcases coro with kept | moved
      · rw [kept,finished]
      · exact absurd finished moved.2.2
    | opens msgs origin new idle forks after coro totals => rw [idle] at finished; cases finished
    | merges g coro after totals => rw [coro,finished]
    | starts new queued coro after totals =>
      have idle : (s cfg.leaderMachine).coro = .none := by
        rcases eq_or_ne cfg.leaderMachine cfg.originMachine with home | other
        · exact ((ok.first (by rw [← home]; exact new)) cfg.leaderMachine).1.coro
        · cases ok.others _ other with
          | untouched h one => exact h.coro
          | received new' coro' queue known core all => exact coro'
          | running old alive queue known core all => rw [old] at new; cases new
      rw [idle] at finished
      cases finished
    | returns old queued coro after totals => rw [coro,finished]
    | ends g running coro same fork totals => exact coro
  · rw [Function.update_of_ne away]
    exact finished

theorem rosterKeeps [Zero D] (ok : Rostered x cfg s) (same : roster m'.toQueryMsg = roster (s a).toQueryMsg)
    (coro : m'.coro = (s a).coro ∨ live (s a).coro = true ∧ live m'.coro = true)
    (stays : (s cfg.leaderMachine).coro = .finished → (Function.update s a m' cfg.leaderMachine).coro = .finished)
    (totals : ∀ f, total (queryWeight f) a m' = total (queryWeight f) a (s a)) :
    Rostered x cfg (Function.update s a m') := by
  have count : ∀ p, coming (Function.update s a m') p = coming s p := by
    intro p
    have change := comingUpdate s a m' p
    rw [totals] at change
    omega
  have all : totalAll (queryWeight (wrongQuery x cfg)) (Function.update s a m') = 0 := by
    have change := hostTotal (queryWeight (wrongQuery x cfg)) s a m'
    rw [totals,ok.right] at change
    omega
  refine ⟨all,?_,?_,?_⟩
  · intro p other
    rw [count]
    rcases eq_or_ne p a with rfl | away
    · rw [Function.update_self]
      exact stationKept same coro (ok.others p other)
    · rw [Function.update_of_ne away]
      exact ok.others p other
  · rw [count]
    rcases eq_or_ne cfg.originMachine a with rfl | away
    · rw [Function.update_self]
      exact homeKept same coro stays ok.home
    · rw [Function.update_of_ne away]
      exact homeKept rfl (.inl rfl) stays ok.home
  · intro new p
    rw [count]
    have before : (s cfg.originMachine).isNew = true := by
      rcases eq_or_ne cfg.originMachine a with rfl | away
      · rw [Function.update_self] at new
        have field := congrArg Prod.fst same
        simp only [roster] at field
        rw [← field]
        exact new
      · rwa [Function.update_of_ne away] at new
    obtain ⟨h,none'⟩ := ok.first before p
    refine ⟨?_,none'⟩
    rcases eq_or_ne p a with rfl | away
    · rw [Function.update_self]
      have old : Station cfg p (s p).toQueryMsg 0 := .untouched h (Nat.zero_le 1)
      cases stationKept same coro old with
      | untouched after one => exact after
      | received new' coro' queue known core all =>
        have field := congrArg (fun r => r.2.1) same
        simp only [roster,queue,h.queue] at field
        cases field
      | running old alive queue known core all =>
        have field := congrArg Prod.fst same
        simp only [roster,old,h.new] at field
        cases field
    · rw [Function.update_of_ne away]
      exact h

theorem rosterOpens [Zero D] (ok : Rostered x cfg s) {msgs : List (Fin n × QueryFork n D)}
    (origin : a = cfg.originMachine) (new : (s a).isNew = true) (forks : Forks x cfg a msgs)
    (after : roster m'.toQueryMsg =
      (false,(s a).queryQueue,cfg.coreMachine,coreFlags cfg.coreMachine,cfg.leaderMachine))
    (coro : a ∈ cfg.coreMachine ∧ m'.coro = .top ∨ a ∉ cfg.coreMachine ∧ m'.coro = .waiting)
    (totals : ∀ f, total (queryWeight f) a m' = total (queryWeight f) a (s a) + sumOf (fun e => f e.1 e.2) msgs) :
    Rostered x cfg (Function.update s a m') := by
  subst origin
  have before := ok.first new
  simp only [roster,Prod.mk.injEq] at after
  obtain ⟨old,queue,core,flags,leader⟩ := after
  have places : ∀ e ∈ msgs, e.1 ∈ cfg.coreMachine ∧ e.1 ≠ cfg.originMachine := by
    intro e member
    have among : e.1 ∈ cfg.coreMachine.filter (· ≠ cfg.originMachine) := by
      rw [← forks.1]
      exact List.mem_map_of_mem member
    obtain ⟨inside,other⟩ := List.mem_filter.mp among
    exact ⟨inside,of_decide_eq_true other⟩
  have count : ∀ p, coming (Function.update s cfg.originMachine m') p = sumOf (fun e => queryTo p e.1 e.2) msgs := by
    intro p
    have change := comingUpdate s cfg.originMachine m' p
    rw [totals,(before p).2] at change
    omega
  refine ⟨?_,?_,?_,?_⟩
  · have change := hostTotal (queryWeight (wrongQuery x cfg)) s cfg.originMachine m'
    have none' : sumOf (fun e => wrongQuery x cfg e.1 e.2) msgs = 0 := by
      refine sumNone (fun e member => ?_)
      rw [wrongQuery,if_neg (places e member).2,if_pos ⟨(places e member).1,forks.2 e member⟩]
    rw [totals,ok.right,none'] at change
    omega
  · intro p other
    rw [count,Function.update_of_ne other]
    refine .untouched (before p).1 (queryToOne p ?_)
    rw [forks.1]
    exact cfg.coreNodup.filter _
  · rw [count,queryToNone (fun e member => (places e member).2),Function.update_self]
    rw [(before _).1.queue] at queue
    rcases coro with ⟨inside,top⟩ | ⟨outside,waiting⟩
    · exact .running old (by rw [top]; rfl) ⟨inside,leader,flags⟩ (fun _ => ⟨queue,core,rfl⟩)
    · exact .waiting old waiting outside (fun _ => ⟨queue,rfl⟩)
  · intro again
    rw [Function.update_self,old] at again
    cases again

theorem rosterMerges [Zero D] (ok : Rostered x cfg s) {g : QueryFork n D} (coro : m'.coro = (s a).coro)
    (after : roster m'.toQueryMsg = ((s a).isNew,(s a).queryQueue + 1,(s a).coreMachine ++ g.coreMachine,
      fun p => (s a).isCoreMachine p || coreFlags g.coreMachine p,g.leaderMachine))
    (stays : (s cfg.leaderMachine).coro = .finished → (Function.update s a m' cfg.leaderMachine).coro = .finished)
    (totals : ∀ f, total (queryWeight f) a m' + f a g = total (queryWeight f) a (s a)) :
    Rostered x cfg (Function.update s a m') := by
  simp only [roster,Prod.mk.injEq] at after
  obtain ⟨new,queue,core,flags,leader⟩ := after
  have right := wrongTotal ok.right a
  have correct : wrongQuery x cfg a g = 0 := by
    have change := totals (wrongQuery x cfg)
    omega
  have count : ∀ p, coming (Function.update s a m') p + queryTo p a g = coming s p := by
    intro p
    have change := comingUpdate s a m' p
    rw [← totals (queryTo p)] at change
    omega
  have away : ∀ p, p ≠ a → coming (Function.update s a m') p = coming s p := by
    intro p other
    have change := count p
    rwa [queryTo,if_neg (Ne.symm other)] at change
  have here : coming (Function.update s a m') a + 1 = coming s a := by
    have change := count a
    rwa [queryTo,if_pos rfl] at change
  have late : (s cfg.originMachine).isNew = false := by
    cases fresh : (s cfg.originMachine).isNew with
    | false => rfl
    | true =>
      have none' := (ok.first fresh a).2
      omega
  refine ⟨?_,?_,?_,?_⟩
  · have change := hostTotal (queryWeight (wrongQuery x cfg)) s a m'
    have own := totals (wrongQuery x cfg)
    rw [ok.right] at change
    omega
  · intro p other
    rcases eq_or_ne p a with rfl | notA
    · rw [Function.update_self]
      cases ok.others p other with
      | untouched h one =>
        rw [wrongQuery,if_neg other] at correct
        split at correct
        · rename_i fits
          obtain ⟨inside,result,rfl⟩ := fits
          refine .received (by rw [new,h.new]) (by rw [coro,h.coro]) (by rw [queue,h.queue])
            ⟨inside,leader,?_⟩ (by rw [core,h.core]; rfl) (by omega)
          rw [flags]
          funext q
          rw [h.flags]
          rfl
        · cases correct
      | received new' coro' queue' known core' all => omega
      | running old alive queue' known core' all => omega
    · rw [away p notA,Function.update_of_ne notA]
      exact ok.others p other
  · rcases eq_or_ne cfg.originMachine a with rfl | notA
    · rw [Function.update_self]
      rw [wrongQuery,if_pos rfl] at correct
      split at correct
      · rename_i fits
        cases ok.home with
        | untouched h none' => omega
        | running old alive known rest =>
          have finished : (s cfg.leaderMachine).coro = .finished := by
            by_contra going
            have facts := rest going
            omega
          refine .running (by rw [new,old]) (by rw [coro,alive]) ⟨known.inside,by rw [leader,fits.1],?_⟩
            (fun going => absurd (stays finished) going)
          rw [flags,known.flags,fits.2.1]
          funext q
          exact Bool.or_self _
        | waiting old coro' outside rest =>
          have finished : (s cfg.leaderMachine).coro = .finished := by
            by_contra going
            have facts := rest going
            omega
          exact .waiting (by rw [new,old]) (by rw [coro,coro']) outside (fun going => absurd (stays finished) going)
      · cases correct
    · rw [away _ notA,Function.update_of_ne notA]
      exact homeKept rfl (.inl rfl) stays ok.home
  · intro again
    rcases eq_or_ne cfg.originMachine a with rfl | notA
    · rw [Function.update_self,new,late] at again
      cases again
    · rw [Function.update_of_ne notA,late] at again
      cases again

-- No message moves: only the station of the machine itself changes.
theorem rosterLocal [Zero D] (ok : Rostered x cfg s)
    (totals : ∀ f, total (queryWeight f) a m' = total (queryWeight f) a (s a))
    (late : (s cfg.originMachine).isNew = false) (home : a = cfg.originMachine → m'.isNew = false)
    (station : a ≠ cfg.originMachine → Station cfg a m'.toQueryMsg (coming s a))
    (stays : (s cfg.leaderMachine).coro = .finished → (Function.update s a m' cfg.leaderMachine).coro = .finished)
    (origin : a = cfg.originMachine → Home cfg m'.toQueryMsg (coming s a)
      ((Function.update s a m' cfg.leaderMachine).coro = .finished)) :
    Rostered x cfg (Function.update s a m') := by
  have count : ∀ p, coming (Function.update s a m') p = coming s p := by
    intro p
    have change := comingUpdate s a m' p
    rw [totals] at change
    omega
  refine ⟨?_,?_,?_,?_⟩
  · have change := hostTotal (queryWeight (wrongQuery x cfg)) s a m'
    rw [totals,ok.right] at change
    omega
  · intro p other
    rw [count]
    rcases eq_or_ne p a with rfl | away
    · rw [Function.update_self]
      exact station other
    · rw [Function.update_of_ne away]
      exact ok.others p other
  · rw [count]
    rcases eq_or_ne a cfg.originMachine with rfl | away
    · rw [Function.update_self]
      exact origin rfl
    · rw [Function.update_of_ne (Ne.symm away)]
      exact homeKept rfl (.inl rfl) stays ok.home
  · intro again
    rcases eq_or_ne a cfg.originMachine with rfl | away
    · rw [Function.update_self,home rfl] at again
      cases again
    · rw [Function.update_of_ne (Ne.symm away),late] at again
      cases again

theorem rosterStarts [Zero D] (ok : Rostered x cfg s) (new : (s a).isNew = true) (queued : 0 < (s a).queryQueue)
    (coro : m'.coro = .top)
    (after : roster m'.toQueryMsg =
      (false,(s a).queryQueue - 1,(s a).coreMachine,(s a).isCoreMachine,(s a).leaderMachine))
    (stays : (s cfg.leaderMachine).coro = .finished → (Function.update s a m' cfg.leaderMachine).coro = .finished)
    (totals : ∀ f, total (queryWeight f) a m' = total (queryWeight f) a (s a)) :
    Rostered x cfg (Function.update s a m') := by
  simp only [roster,Prod.mk.injEq] at after
  obtain ⟨old,queue,core,flags,leader⟩ := after
  have late : (s cfg.originMachine).isNew = false := by
    cases fresh : (s cfg.originMachine).isNew with
    | false => rfl
    | true =>
      have none' := (ok.first fresh a).1.queue
      omega
  refine rosterLocal ok totals late (fun _ => old) ?_ stays ?_
  · intro other
    cases ok.others a other with
    | untouched h one =>
      rw [h.queue] at queued
      cases queued
    | received new' coro' queue' known core' all =>
      exact .running old (by rw [coro]; rfl) (by rw [queue,queue'])
        ⟨known.inside,by rw [leader,known.leader],by rw [flags,known.flags]⟩ (by rw [core,core']) all
    | running old' alive queue' known core' all =>
      rw [old'] at new
      cases new
  · intro home
    rw [home,late] at new
    cases new

theorem rosterReturns [Zero D] (ok : Rostered x cfg s) (old : (s a).isNew = false) (queued : 0 < (s a).queryQueue)
    (coro : m'.coro = (s a).coro)
    (after : roster m'.toQueryMsg =
      ((s a).isNew,(s a).queryQueue - 1,(s a).coreMachine,(s a).isCoreMachine,(s a).leaderMachine))
    (stays : (s cfg.leaderMachine).coro = .finished → (Function.update s a m' cfg.leaderMachine).coro = .finished)
    (totals : ∀ f, total (queryWeight f) a m' = total (queryWeight f) a (s a)) :
    Rostered x cfg (Function.update s a m') := by
  simp only [roster,Prod.mk.injEq] at after
  obtain ⟨new,queue,core,flags,leader⟩ := after
  have late : (s cfg.originMachine).isNew = false := by
    cases fresh : (s cfg.originMachine).isNew with
    | false => rfl
    | true =>
      have none' := (ok.first fresh a).1.queue
      omega
  refine rosterLocal ok totals late (fun _ => by rw [new,old]) ?_ stays ?_
  · intro other
    cases ok.others a other with
    | untouched h one =>
      rw [h.queue] at queued
      cases queued
    | received new' coro' queue' known core' all =>
      rw [old] at new'
      cases new'
    | running old' alive queue' known core' all =>
      rw [queue'] at queued
      cases queued
  · intro home
    subst home
    cases ok.home with
    | untouched h none' =>
      rw [h.queue] at queued
      cases queued
    | running old' alive known rest =>
      have finished : (s cfg.leaderMachine).coro = .finished := by
        by_contra going
        have facts := rest going
        omega
      exact .running (by rw [new,old]) (by rw [coro,alive])
        ⟨known.inside,by rw [leader,known.leader],by rw [flags,known.flags]⟩ (fun going => absurd (stays finished) going)
    | waiting old' coro' outside rest =>
      have finished : (s cfg.leaderMachine).coro = .finished := by
        by_contra going
        have facts := rest going
        omega
      exact .waiting (by rw [new,old]) (by rw [coro,coro']) outside (fun going => absurd (stays finished) going)

/- What every running machine knows. -/
theorem runningKnown (ok : Rostered x cfg s) {p : Fin n} (alive : live (s p).coro = true) :
    (s p).isNew = false ∧ Known cfg p (s p).toQueryMsg ∧
      (p ≠ cfg.originMachine ∨ (s cfg.leaderMachine).coro ≠ .finished → (s p).coreMachine = cfg.coreMachine) := by
  rcases eq_or_ne p cfg.originMachine with rfl | other
  · cases ok.home with
    | untouched h none' =>
      rw [h.coro] at alive
      cases alive
    | running old alive' known rest =>
      exact ⟨old,known,fun either => (rest (either.resolve_left (fun no => no rfl))).2.1⟩
    | waiting old coro outside rest =>
      rw [coro] at alive
      cases alive
  · cases ok.others p other with
    | untouched h one =>
      rw [h.coro] at alive
      cases alive
    | received new coro queue known core all =>
      rw [coro] at alive
      cases alive
    | running old alive' queue known core all => exact ⟨old,known,fun _ => core⟩

-- A query that is new has no coroutine.
theorem newAsleep (ok : Rostered x cfg s) {a : Fin n} (new : (s a).isNew = true) : (s a).coro = .none := by
  rcases eq_or_ne a cfg.originMachine with rfl | other
  · exact (ok.first new cfg.originMachine).1.coro
  · cases ok.others a other with
    | untouched h one => exact h.coro
    | received new' coro queue known core all => exact coro
    | running old alive queue known core all =>
      rw [old] at new
      cases new

theorem rosterEnds [Zero D] (ok : Rostered x cfg s) {g : QueryFork n D} (running : (s a).coro = .top)
    (coro : m'.coro = .finished) (same : roster m'.toQueryMsg = roster (s a).toQueryMsg)
    (fork : g.leaderMachine = (s a).leaderMachine ∧ g.coreMachine = (s a).coreMachine ∧ g.state = .ended)
    (stays : (s cfg.leaderMachine).coro = .finished → (Function.update s a m' cfg.leaderMachine).coro = .finished)
    (totals : ∀ f, total (queryWeight f) a m' = total (queryWeight f) a (s a) +
      if (s a).leaderMachine = a ∧ a ≠ cfg.originMachine then f cfg.originMachine g else 0) :
    Rostered x cfg (Function.update s a m') := by
  have alive : live (s a).coro = true := by rw [running]; rfl
  obtain ⟨old,known,core⟩ := runningKnown ok alive
  have moved : m'.coro = (s a).coro ∨ live (s a).coro = true ∧ live m'.coro = true :=
    .inr ⟨alive,by rw [coro]; rfl⟩
  by_cases migrates : (s a).leaderMachine = a ∧ a ≠ cfg.originMachine
  · simp only [if_pos migrates] at totals
    have leader : cfg.leaderMachine = a := by rw [← known.leader,migrates.1]
    have finished : (Function.update s a m' cfg.leaderMachine).coro = .finished := by
      rw [leader,Function.update_self,coro]
    have count : ∀ p, coming (Function.update s a m') p = coming s p + queryTo p cfg.originMachine g := by
      intro p
      have change := comingUpdate s a m' p
      rw [totals] at change
      omega
    have late : (s cfg.originMachine).isNew = false := by
      cases fresh : (s cfg.originMachine).isNew with
      | false => rfl
      | true =>
        rw [(ok.first fresh a).1.coro] at running
        cases running
    refine ⟨?_,?_,?_,?_⟩
    · have change := hostTotal (queryWeight (wrongQuery x cfg)) s a m'
      have right : wrongQuery x cfg cfg.originMachine g = 0 := by
        rw [wrongQuery,if_pos rfl,if_pos ⟨by rw [fork.1,known.leader],by rw [fork.2.1,core (.inl migrates.2)],fork.2.2⟩]
      rw [totals,ok.right,right] at change
      omega
    · intro p other
      rw [count,queryTo,if_neg (Ne.symm other),Nat.add_zero]
      rcases eq_or_ne p a with rfl | away
      · rw [Function.update_self]
        exact stationKept same moved (ok.others p other)
      · rw [Function.update_of_ne away]
        exact ok.others p other
    · rw [Function.update_of_ne (Ne.symm migrates.2)]
      cases ok.home with
      | untouched h none' =>
        rw [h.new] at late
        cases late
      | running old' alive' known' rest => exact .running old' alive' known' (fun going => absurd finished going)
      | waiting old' coro' outside rest => exact .waiting old' coro' outside (fun going => absurd finished going)
    · intro again
      rw [Function.update_of_ne (Ne.symm migrates.2),late] at again
      cases again
  · simp only [if_neg migrates,Nat.add_zero] at totals
    exact rosterKeeps ok same moved stays totals

theorem rosterKept [Zero D] (ok : Rostered x cfg s) (step : RosterStep x cfg a (s a) m') :
    Rostered x cfg (Function.update s a m') := by
  have stays := finishedStays ok step
  cases step with
  | keeps same coro totals => exact rosterKeeps ok same (coro.imp_right (fun h => ⟨h.1,h.2.1⟩)) stays totals
  | opens msgs origin new idle forks after coro totals => exact rosterOpens ok origin new forks after coro totals
  | merges g coro after totals => exact rosterMerges ok coro after stays totals
  | starts new queued coro after totals => exact rosterStarts ok new queued coro after stays totals
  | returns old queued coro after totals => exact rosterReturns ok old queued coro after stays totals
  | ends g running coro same fork totals => exact rosterEnds ok running coro same fork stays totals

end Invariant

end CoTra.Roster
