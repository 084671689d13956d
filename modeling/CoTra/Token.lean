import CoTra.CountedWork

/-! The token of a query with several core machines. It lies at a machine (has_token)
or in a SYNC with update_term, and it goes around in the order of core_machine. -/
namespace CoTra.Token
open Runs Priority SubQuery Spread SubQueryTotals SubQueryDrain SubQueryEffects Roster CountedWork

variable {n : Nat} {D : Type} [Distance D]

def syncWeight (f : Fin n → SyncMsg n D → Nat) : Weight n D := { blank with sync := f }

def carries (_ : Fin n) (msg : SyncMsg n D) : Nat := msg.updateTerm.toNat

def held (s : Net n D) : Nat := ∑ p, (s p).hasToken.toNat

-- The tokens at machines and in messages that are posted and not yet read.
def tokens (s : Net n D) : Nat := held s + totalAll (syncWeight carries) s

section Weights

variable (x : Index n D) (cfg : Config n D) (me : Fin n) (f : Fin n → SyncMsg n D → Nat)

theorem expandsNoSync (q : QueryMsg n D) (vs : List Nat) : sumOf (expandGain (syncWeight f) x cfg me q) vs = 0 := by
  refine sumNone (fun v _ => ?_)
  unfold expandGain
  split
  · rfl
  · exact lbGainZero me (fun _ _ _ => rfl) (fun _ _ _ _ _ _ => rfl) (fun _ _ _ _ _ => rfl)

omit [Distance D] in
theorem nodeNoSync [Zero D] (t : NodeTask n) (rs : List (Record n)) : nodeGain (syncWeight f : Weight n D) t rs = 0 :=
  nodeGainZero (fun _ _ _ _ _ _ => rfl) (fun _ _ _ _ _ _ _ => rfl)

theorem consumedNoSync (m : Machine n D) : consumed me (syncWeight f) m = 0 := by
  simp [consumed,syncWeight,blank,sumNone]

end Weights

section Steps

variable (x : Index n D) (cfg : Config n D) (me : Fin n) [Zero D]

/- What a step does to the syncs of a query and to its token. -/
inductive SyncStep (m m' : Machine n D) : Prop
  | keeps (token : m'.hasToken = m.hasToken) (new : m'.isNew = true → m.isNew = true)
      (coro : m'.coro = .finished → m.coro = .finished ∨ Ends me m.toQueryMsg)
      (totals : ∀ f, total (syncWeight f) me m' = total (syncWeight f) me m)
  | creates (new : m.isNew = true) (old : m'.isNew = false) (leader : m'.leaderMachine = me) (coro : m'.coro = .top)
      (known : m.leaderMachine = me ∧ 0 < m.queryQueue ∨ cfg.leaderMachine = me)
      (totals : ∀ f, total (syncWeight f) me m' = total (syncWeight f) me m)
  | receives (msg : SyncMsg n D) (new : m'.isNew = m.isNew) (coro : m'.coro = m.coro)
      (token : m'.hasToken = if msg.updateTerm then msg.hasToken else m.hasToken)
      (totals : ∀ f, total (syncWeight f) me m' + f me msg = total (syncWeight f) me m)
  | expands (sent : QueryMsg n D) (msgs : List (Fin n × Bool)) (plain : ∀ e ∈ msgs, e.2 = false)
      (token : m'.hasToken = m.hasToken) (new : m'.isNew = m.isNew) (coro : m'.coro = .yielded)
      (totals : ∀ f, total (syncWeight f) me m' = total (syncWeight f) me m +
        sumOf (fun e => f e.1 (syncMsg sent e.2 false)) msgs)
  | passes (taint : Bool) (top : m.coro = .top) (several : 1 < m.coreMachine.length) (holder : m.hasToken = true)
      (token : m'.hasToken = false) (new : m'.isNew = m.isNew) (coro : m'.coro = .yielded)
      (totals : ∀ f, total (syncWeight f) me m' = total (syncWeight f) me m +
        sumOf (fun e => f e.1 (syncMsg m.toQueryMsg e.2 taint))
          (syncs me (nxtPropM me m.coreMachine) true true m.coreMachine))

variable {x cfg me}

omit [Zero D] in
theorem wokenToken (q : QueryMsg n D) :
    (woken q).hasToken = q.hasToken ∧ (woken q).isNew = q.isNew ∧ (woken q).coro = q.coro := by
  unfold woken
  split <;> exact ⟨rfl,rfl,rfl⟩

omit [Zero D] in
theorem nodeSyncedToken (ms : List (NonCoreSyncMsg n)) (q : QueryMsg n D) :
    (nodeSynced ms q).hasToken = q.hasToken ∧ (nodeSynced ms q).isNew = q.isNew ∧ (nodeSynced ms q).coro = q.coro := by
  unfold nodeSynced
  split
  · exact ⟨rfl,rfl,rfl⟩
  · exact wokenToken q

omit [Zero D] in
theorem keepsSame {m m' : Machine n D} {q : QueryMsg n D} (query : m'.toQueryMsg = q)
    (same : q.hasToken = m.hasToken ∧ q.isNew = m.isNew ∧ q.coro = m.coro)
    (totals : ∀ f, total (syncWeight f) me m' = total (syncWeight f) me m) : SyncStep cfg me m m' := by
  refine .keeps ?_ ?_ ?_ totals
  · rw [query,same.1]
  · rw [query,same.2.1]
    exact id
  · rw [query,same.2.2]
    exact .inl

theorem syncStep {m m' : Machine n D} (effect : Effect x cfg me m m') :
    SyncStep cfg me m m' ∨ ∃ t : ComputeTask n D, t.machineId = me ∧ ∀ w, w.task me t ≤ total w me m := by
  cases effect with
  | moves ok => exact .inl (keepsSame ok.query ⟨rfl,rfl,rfl⟩ (fun f => ok.same _))
  | swaps query emptied sched same => exact .inl (keepsSame query ⟨rfl,rfl,rfl⟩ (fun f => same _))
  | waits msgs origin new idle outside forks query sched gain =>
    refine .inl (.keeps (by rw [query]; rfl) (fun _ => new) (fun no => ?_) (fun f => ?_))
    · rw [query] at no
      cases no
    · rw [gain]
      exact congrArg _ (sumNone (fun _ _ => rfl))
  | opens msgs origin new idle inside forks query sched gain =>
    have totals : ∀ f, total (syncWeight f) me m' = total (syncWeight f) me m := by
      intro f
      rw [gain]
      exact congrArg _ (sumNone (fun _ _ => rfl))
    rcases eq_or_ne cfg.leaderMachine me with leader | other
    · exact .inl (.creates new (by rw [query]; rfl) (by rw [query]; exact leader) (by rw [query]; rfl) (.inr leader) totals)
    · refine .inl (.keeps ?_ (fun _ => new) (fun no => ?_) totals)
      · rw [query]
        simp [openedCore,enterPostStage,other]
      · rw [query] at no
        cases no
  | merges g running query sched loss => exact .inl (keepsSame query ⟨rfl,rfl,rfl⟩ (fun f => loss (syncWeight f)))
  | syncs msg running query sched loss =>
    obtain ⟨token,new,coro⟩ := wokenToken (updateSubQuery cfg me msg m.toQueryMsg)
    exact .inl (.receives msg (by rw [query,new]; rfl) (by rw [query,coro]; rfl) (by rw [query,token]; rfl)
      (fun f => loss (syncWeight f)))
  | nodeSyncs ms running query sched loss =>
    refine .inl (keepsSame query (nodeSyncedToken ms m.toQueryMsg) (fun f => ?_))
    have change := loss (syncWeight f)
    rwa [show sumOf ((syncWeight f).nodeSync me) ms = 0 from sumNone (fun _ _ => rfl),Nat.add_zero] at change
  | wakes running query sched same => exact .inl (keepsSame query (wokenToken m.toQueryMsg) (fun f => same _))
  | starts new queued query sched same =>
    rcases eq_or_ne m.leaderMachine me with leader | other
    · exact .inl (.creates new (by rw [query]; rfl) (by rw [query]; exact leader) (by rw [query]; rfl)
        (.inl ⟨leader,queued⟩) (fun f => same _))
    · refine .inl (.keeps ?_ (fun _ => new) (fun no => ?_) (fun f => same _))
      · rw [query]
        simp [enterPostStage,other]
      · rw [query] at no
        cases no
  | returns old queued query sched same => exact .inl (keepsSame query ⟨rfl,rfl,rfl⟩ (fun f => same _))
  | nodeTask t found other queued slice query sched change =>
    refine .inl (keepsSame query ⟨rfl,rfl,rfl⟩ (fun f => ?_))
    have changed := change (syncWeight f)
    rwa [nodeNoSync] at changed
  | task t found other queued slice query sched change =>
    exact .inl (keepsSame query ⟨rfl,rfl,rfl⟩ (fun f => change (syncWeight f)))
  | ownTask t own queued => exact .inr ⟨t,own,queued⟩
  | chunk t found queued slice query sched change =>
    exact .inl (keepsSame query ⟨rfl,rfl,rfl⟩ (fun f => change (syncWeight f)))
  | nodeResult r running queued query sched change =>
    exact .inl (keepsSame query (wokenToken _) (fun f => change (syncWeight f)))
  | resumes search suspended queued query sched changed idle loss =>
    refine .inl (.keeps (by rw [query]) (by rw [query]; exact id) (fun no => ?_) (fun f => ?_))
    · rw [query] at no
      cases no
    · have change := loss (syncWeight f)
      rwa [consumedNoSync,Nat.add_zero] at change
  | overruns finished queued query sched same => exact .inl (keepsSame query ⟨rfl,rfl,rfl⟩ (fun f => same _))
  | rests top noneLeft waiting query sched same =>
    refine .inl (.keeps (by rw [query]) (by rw [query]; exact id) (fun no => ?_) (fun f => same _))
    rw [query] at no
    cases no
  | idles top noneLeft notPost query sched same =>
    refine .inl (.keeps (by rw [query]) (by rw [query]; exact id) (fun no => ?_) (fun f => same _))
    rw [query] at no
    cases no
  | expands micro large add step lb msgs sent top some' query sched plain posted gain routed =>
    refine .inl (.expands sent msgs plain (by rw [query]) (by rw [query]) (by rw [query]) (fun f => ?_))
    rw [gain,expandsNoSync,Nat.add_zero]
    rfl
  | pauses leaves several without query sched same =>
    refine .inl (.keeps (by rw [query]) (by rw [query]; exact id) (fun no => ?_) (fun f => same _))
    rw [query] at no
    cases no
  | passes leaves several holder going query sched gain =>
    exact .inl (.passes _ leaves.top several holder (by rw [query]; rfl) (by rw [query]; rfl) (by rw [query]; rfl)
      (fun f => gain _))
  | ends f cands ending query fewer sched fork gain =>
    refine .inl (.keeps (by rw [query]) (by rw [query]; exact id) (fun _ => .inr ending) (fun f => ?_))
    rw [gain]
    exact congrArg _ (ite_self 0)

end Steps

section Invariant

variable (x : Index n D) (cfg : Config n D)

/- A token that machine a gives to a machine that is not behind it. -/
def crossed (a p : Fin n) (msg : SyncMsg n D) : Nat :=
  if p = a ∨ a ∈ cfg.coreMachine ∧ p = nxtPropM a cfg.coreMachine then 0 else msg.updateTerm.toNat

structure Passed (s : Net n D) : Prop where
  counted : Counted x cfg s
  few : tokens s ≤ if (s cfg.leaderMachine).isNew then 0 else 1
  kept : 1 < cfg.coreMachine.length → (s cfg.leaderMachine).coro = .finished →
    (s cfg.leaderMachine).hasToken = true
  hops : ∀ a, total (syncWeight (crossed cfg a)) a (s a) = 0

theorem startPassed : Passed x cfg (start cfg) where
  counted := startCounted x cfg
  few := by
    have held' : held (start cfg : Net n D) = 0 := Finset.sum_eq_zero (fun p _ => rfl)
    rw [tokens,held',startTotal]
    exact Nat.zero_le _
  kept _ no := Coro.noConfusion no
  hops a := totalFresh _ cfg a

variable {x cfg} {s t : Net n D}

theorem heldUpdate (s : Net n D) (a : Fin n) (m' : Machine n D) :
    held (Function.update s a m') + (s a).hasToken.toNat = held s + m'.hasToken.toNat :=
  sumUpdate (fun _ m => m.hasToken.toNat) s a m'

theorem heldPair {a b : Fin n} (other : a ≠ b) : (s a).hasToken.toNat + (s b).hasToken.toNat ≤ held s := by
  have pair := Finset.sum_le_sum_of_subset (f := fun p => (s p).hasToken.toNat) (Finset.subset_univ ({a,b} : Finset (Fin n)))
  rwa [Finset.sum_pair other] at pair

theorem heldOne (a : Fin n) : (s a).hasToken.toNat ≤ held s :=
  Finset.single_le_sum (f := fun p => (s p).hasToken.toNat) (fun _ _ => Nat.zero_le _) (Finset.mem_univ a)

theorem tokensUpdate (s : Net n D) (a : Fin n) (m' : Machine n D) :
    tokens (Function.update s a m') + ((s a).hasToken.toNat + total (syncWeight carries) a (s a)) =
      tokens s + (m'.hasToken.toNat + total (syncWeight carries) a m') := by
  have tokens' := heldUpdate s a m'
  have flight := hostTotal (syncWeight carries) s a m'
  rw [tokens,tokens]
  omega

theorem fewTokens (ok : Passed x cfg s) : tokens s ≤ 1 := by
  have few := ok.few
  split at few <;> omega

omit [Distance D] in
theorem onlyCore {a b : Fin n} (single : ¬1 < cfg.coreMachine.length) (first : a ∈ cfg.coreMachine)
    (second : b ∈ cfg.coreMachine) : a = b := by
  match list : cfg.coreMachine with
  | [] => rw [list] at first; cases first
  | [c] =>
    rw [list,List.mem_singleton] at first second
    rw [first,second]
  | c :: d :: rest =>
    rw [list] at single
    exact absurd (by rw [List.length_cons,List.length_cons]; omega) single

/- The machine that runs with the token has the list of core machines as the origin
made it: the leader has not finished. -/
theorem holderCore (ok : Passed x cfg s) {a : Fin n} (top : (s a).coro = .top) (holder : (s a).hasToken = true) :
    a ∈ cfg.coreMachine ∧ (s a).coreMachine = cfg.coreMachine := by
  obtain ⟨_,known,core⟩ := runningKnown ok.counted.rostered (p := a) (by rw [top]; rfl)
  refine ⟨known.inside,core (.inr (fun finished => ?_))⟩
  have other : a ≠ cfg.leaderMachine := by
    intro same
    rw [same,finished] at top
    cases top
  have several : 1 < cfg.coreMachine.length := by
    by_contra single
    exact other (onlyCore single known.inside cfg.leaderCore)
  have leader := ok.kept several finished
  have pair := heldPair (s := s) other
  have few := fewTokens ok
  rw [holder,leader] at pair
  rw [tokens] at few
  simp only [Bool.toNat_true] at pair
  omega

theorem startsKnown (ok : Rostered x cfg s) {a : Fin n} (new : (s a).isNew = true) (queued : 0 < (s a).queryQueue) :
    (s a).leaderMachine = cfg.leaderMachine := by
  rcases eq_or_ne a cfg.originMachine with rfl | other
  · have none' := (ok.first new cfg.originMachine).1.queue
    omega
  · cases ok.others a other with
    | untouched h one =>
      have none' := h.queue
      omega
    | received new' coro queue known core all => exact known.leader
    | running old alive queue known core all =>
      rw [old] at new
      cases new

theorem hostFew (ok : Passed x cfg s) {a : Fin n} {m' : Machine n D} (step : SyncStep cfg a (s a) m') :
    tokens (Function.update s a m') ≤ if (Function.update s a m' cfg.leaderMachine).isNew then 0 else 1 := by
  have change := tokensUpdate s a m'
  have few := ok.few
  -- no step but the creation makes a token, and no machine becomes new
  have smaller : m'.hasToken.toNat + total (syncWeight carries) a m' ≤
      (s a).hasToken.toNat + total (syncWeight carries) a (s a) → (m'.isNew = true → (s a).isNew = true) →
      tokens (Function.update s a m') ≤ if (Function.update s a m' cfg.leaderMachine).isNew then 0 else 1 := by
    intro less new
    have less' : tokens (Function.update s a m') ≤ tokens s := by omega
    refine less'.trans (few.trans ?_)
    rcases eq_or_ne cfg.leaderMachine a with rfl | away
    · rw [Function.update_self]
      cases after : m'.isNew with
      | true => rw [new after]
      | false => split <;> decide
    · rw [Function.update_of_ne away]
  cases step with
  | keeps token new coro totals =>
    refine smaller ?_ new
    rw [token,totals]
  | creates new old leader coro known totals =>
    have here : cfg.leaderMachine = a := by
      rcases known with ⟨leads,queued⟩ | leads
      · rw [← leads,startsKnown ok.counted.rostered new queued]
      · exact leads
    subst here
    rw [Function.update_self,old]
    rw [new,if_pos rfl] at few
    rw [totals] at change
    have one := Bool.toNat_le m'.hasToken
    simp only [Bool.false_eq_true,if_false]
    omega
  | receives msg new coro token totals =>
    refine smaller ?_ (by rw [new]; exact id)
    have taken := totals carries
    rw [token]
    cases term : msg.updateTerm with
    | true =>
      have weight : carries a msg = 1 := by rw [carries,term]; rfl
      have one := Bool.toNat_le msg.hasToken
      simp only [if_true]
      omega
    | false =>
      simp only [Bool.false_eq_true,if_false]
      omega
  | expands sent msgs plain token new coro totals =>
    refine smaller ?_ (by rw [new]; exact id)
    have none' : sumOf (fun e : Fin n × Bool => carries e.1 (syncMsg sent e.2 false)) msgs = 0 := by
      refine sumNone (fun e member => ?_)
      rw [carries,plain e member]
      rfl
    rw [token,totals,none',Nat.add_zero]
  | passes taint top several holder token new coro totals =>
    refine smaller ?_ (by rw [new]; exact id)
    have one := syncsOne a (nxtPropM a (s a).coreMachine) true true (s a).coreMachine
    rw [token,holder,totals]
    simp only [Bool.toNat_true,Bool.toNat_false] at one ⊢
    simp only [carries,syncMsg]
    omega

theorem hostKept (ok : Passed x cfg s) {a : Fin n} {m' : Machine n D} (step : SyncStep cfg a (s a) m')
    (several : 1 < cfg.coreMachine.length) (finished : (Function.update s a m' cfg.leaderMachine).coro = .finished) :
    (Function.update s a m' cfg.leaderMachine).hasToken = true := by
  rcases eq_or_ne cfg.leaderMachine a with rfl | away
  · rw [Function.update_self] at finished ⊢
    cases step with
    | keeps token new coro totals =>
      rw [token]
      rcases coro finished with before | ending
      · exact ok.kept several before
      · refine (ending.second ?_).1
        obtain ⟨_,_,core⟩ := runningKnown ok.counted.rostered (p := cfg.leaderMachine) (by rw [ending.leaves.top]; rfl)
        rw [core (.inr (by rw [ending.leaves.top]; exact Coro.noConfusion))]
        exact several
    | creates new old leader coro known totals => rw [coro] at finished; cases finished
    | receives msg new coro token totals =>
      have before := ok.kept several (by rw [← coro]; exact finished)
      cases term : msg.updateTerm with
      | false => rw [token,term]; exact before
      | true =>
        -- a second token would be in the message
        have taken := totals carries
        have weight : carries cfg.leaderMachine msg = 1 := by rw [carries,term]; rfl
        have here : total (syncWeight carries) cfg.leaderMachine (s cfg.leaderMachine) ≤ totalAll (syncWeight carries) s :=
          Finset.single_le_sum (f := fun p => total (syncWeight carries) p (s p)) (fun _ _ => Nat.zero_le _)
            (Finset.mem_univ _)
        have one := heldOne (s := s) cfg.leaderMachine
        have few := fewTokens ok
        rw [tokens] at few
        rw [before,Bool.toNat_true] at one
        omega
    | expands sent msgs plain token new coro totals => rw [coro] at finished; cases finished
    | passes taint top several holder token new coro totals => rw [coro] at finished; cases finished
  · rw [Function.update_of_ne away] at finished ⊢
    exact ok.kept several finished

theorem hostHops (ok : Passed x cfg s) {a : Fin n} {m' : Machine n D} (step : SyncStep cfg a (s a) m') :
    total (syncWeight (crossed cfg a)) a m' = 0 := by
  have before := ok.hops a
  cases step with
  | keeps token new coro totals => rw [totals,before]
  | creates new old leader coro known totals => rw [totals,before]
  | receives msg new coro token totals =>
    have taken := totals (crossed cfg a)
    omega
  | expands sent msgs plain token new coro totals =>
    rw [totals,before,Nat.zero_add]
    refine sumNone (fun e member => ?_)
    rw [crossed,plain e member]
    split <;> rfl
  | passes taint top several holder token new coro totals =>
    obtain ⟨inside,core⟩ := holderCore ok top holder
    rw [totals,before,Nat.zero_add]
    refine sumNone (fun e member => ?_)
    obtain ⟨_,_,carried⟩ := syncsTo a member
    rw [crossed]
    split
    · rfl
    · rename_i elsewhere
      cases token' : e.2 with
      | false => rfl
      | true =>
        rw [core] at carried
        exact absurd (.inr ⟨inside,(carried token').2.1⟩) elsewhere

theorem deliverWire {a p : Fin n} (ok : deliver s a p = some t) (b q : Fin n) :
    ∀ msg ∈ (t b).wire q, msg ∈ (s b).wire q := by
  unfold deliver at ok
  split at ok <;> try contradiction
  rename_i first rest wire
  split at ok <;> try contradiction
  rename_i other
  cases Option.some.inj ok
  intro msg member
  have sent : msg ∈ (Function.update s a { s a with wire := Function.update (s a).wire p rest } b).wire q := by
    rcases eq_or_ne b p with rfl | away
    · rwa [Function.update_self] at member
    · rwa [Function.update_of_ne away] at member
  rcases eq_or_ne b a with rfl | away
  · rw [Function.update_self] at sent
    rcases eq_or_ne q p with rfl | elsewhere
    · rw [wire]
      exact List.mem_cons_of_mem _ (by simpa using sent)
    · simpa [elsewhere] using sent
  · rwa [Function.update_of_ne away] at sent

theorem deliverHops (ok : Passed x cfg s) {a p : Fin n} (done' : deliver s a p = some t) (b : Fin n) :
    total (syncWeight (crossed cfg b)) b (t b) = 0 := by
  have before := (totalAbsent _).mp (ok.hops b)
  refine (totalAbsent _).mpr ?_
  have here : ∀ msg : Message n D, messageWeight (syncWeight (crossed cfg b)) b msg = 0 := by
    intro msg
    cases msg with
    | sync m => exact if_pos (.inl rfl)
    | query q => rfl
    | nodeSync ms => exact sumNone (fun _ _ => rfl)
    | task ts ns => exact Nat.add_eq_zero_iff.mpr ⟨sumNone (fun _ _ => rfl),sumNone (fun _ _ => rfl)⟩
    | result rs => exact sumNone (fun _ _ => rfl)
    | nodeResult rs => exact sumNone (fun _ _ => rfl)
  constructor
  case wire => exact fun q msg member => before.wire q msg (deliverWire done' b q msg member)
  case rbuf => exact fun k msg _ => here msg
  all_goals intros; rfl

variable [Zero D]

theorem stepPassed {act : Act n} (done' : step x cfg s act = some t) (ok : Passed x cfg s) : Passed x cfg t := by
  have counted := stepCounted done' ok.counted
  cases act with
  | host a op =>
    obtain ⟨m',performed,rfl⟩ := Option.map_eq_some_iff.mp done'
    rcases syncStep (performEffect performed) with step | ⟨t,own,queued⟩
    · refine ⟨counted,hostFew ok step,hostKept ok step,fun b => ?_⟩
      rcases eq_or_ne b a with rfl | away
      · rw [Function.update_self]
        exact hostHops ok step
      · rw [Function.update_of_ne away]
        exact ok.hops b
    · exact absurd queued (noOwnTask ok.counted a t own)
  | deliver a p =>
    have field : ∀ b, (t b).toQueryMsg = (s b).toQueryMsg := fun b => (deliverSame done' b).1
    have same : tokens t = tokens s := by
      simp only [tokens,held,field]
      rw [deliverTotal _ done']
    refine ⟨counted,?_,?_,deliverHops ok done'⟩
    · rw [same,field]
      exact ok.few
    · rw [field]
      exact ok.kept

theorem runPassed {acts : List (Act n)} (ok : run (step x cfg) (start cfg) acts = some s) : Passed x cfg s :=
  runInvariant (fun _ _ _ done' before => stepPassed done' before) ok (startPassed x cfg)

-- A SYNC with the token.
def isToken : Message n D → Bool
  | .sync msg => msg.updateTerm
  | _ => false

/- From core_machine[i] to core_machine[(i + 1) % n]. -/
def Hop (core : List (Fin n)) (a p : Fin n) : Prop :=
  ∃ i < core.length, core[i]? = some a ∧ core[(i + 1) % core.length]? = some p

theorem nextHop {core : List (Fin n)} {a : Fin n} (inside : a ∈ core) : Hop core a (nxtPropM a core) := by
  have bound := List.idxOf_lt_length_of_mem inside
  have next : (core.idxOf a + 1) % core.length < core.length := Nat.mod_lt _ (by omega)
  refine ⟨core.idxOf a,bound,?_,?_⟩
  · rw [List.getElem?_eq_getElem bound,List.getElem_idxOf]
  · rw [nxtPropM,List.getD_eq_getElem?_getD,List.getElem?_eq_getElem next]
    rfl

/- At most one token; a SYNC without it changes nothing of it; the token goes on in
the order of the core machines. -/
theorem tokenUnique {acts : List (Act n)} (ok : run (step x cfg) (start cfg) acts = some s) :
    tokens s ≤ 1 ∧
    (∀ p, ∀ msg : SyncMsg n D, msg.updateTerm = false →
      (deserialize cfg p (s p) (.sync msg)).hasToken = (s p).hasToken ∧
        (deserialize cfg p (s p) (.sync msg)).tokenIsBlack = (s p).tokenIsBlack) ∧
    ∀ a p, p ≠ a → ∀ msg ∈ (s a).wire p, isToken msg = true → Hop cfg.coreMachine a p := by
  have passed := runPassed ok
  refine ⟨fewTokens passed,fun p msg plain => ?_,fun a p away msg sent term => ?_⟩
  · have query := wakeQuery { s p with toQueryMsg := updateSubQuery cfg p msg (s p).toQueryMsg }
    have same : ∀ q : QueryMsg n D, (woken q).hasToken = q.hasToken ∧ (woken q).tokenIsBlack = q.tokenIsBlack := by
      intro q
      unfold woken
      split <;> exact ⟨rfl,rfl⟩
    simp only [deserialize,query,same]
    simp [updateSubQuery,plain]
  · cases msg with
    | sync m =>
      have weight : crossed cfg a p m = 0 := ((totalAbsent _).mp (passed.hops a)).wire p _ sent
      unfold crossed at weight
      split at weight
      · rename_i behind
        obtain ⟨inside,rfl⟩ := behind.resolve_left away
        exact nextHop inside
      · rw [show m.updateTerm = true from term] at weight
        cases weight
    | _ => cases term

/- Two core machines without neighbours, and one that holds no candidate: the leader gives
its first token away. -/
def ringIndex : Index 3 Nat where
  getMachineId v := if v = 0 then 0 else 1
  block _ := []
  nghPtr _ _ _ := []
  dist v := v
  kmeansPosLabelMap v := v
  foreign _ _ member := absurd member List.not_mem_nil

theorem twoEntries : ([(0,0),(1,1)].map Prod.snd : List Nat).Nodup := by decide

def ringConfig : Config 3 Nat where
  ef := 4
  resKnn := 2
  originMachine := 0
  leaderMachine := 0
  coreMachine := [0,1]
  coreNodup := bothOnce
  leaderCore := firstLeads
  enterpoint := (0,0)
  evaluated := [(1,1)]
  once := twoEntries
  unset := 0

def ringRun : List (Act 3) :=
  [.host 0 .searchSub,.host 0 .loopTop,.host 0 .swapTaskQueue,.host 0 .procSubquery,.host 0 .loopTop]

theorem tokenUniqueRing : ∃ s, run (step ringIndex ringConfig) (start ringConfig) ringRun = some s ∧ tokens s ≤ 1 ∧
    ((s 0).wire 1).any isToken = true ∧ Hop ringConfig.coreMachine 0 1 := by
  have last : (run (step ringIndex ringConfig) (start ringConfig) ringRun).map (fun s => ((s 0).wire 1).any isToken) =
      some true := by decide +kernel
  obtain ⟨s,ok,value⟩ := Option.map_eq_some_iff.mp last
  obtain ⟨few,_,hops⟩ := tokenUnique ok
  obtain ⟨msg,sent,term⟩ := List.any_eq_true.mp value
  exact ⟨s,ok,few,value,hops 0 1 (by decide) msg sent term⟩

end Invariant

end CoTra.Token
