import CoTra.Copies
import CoTra.Scheduling
import CoTra.Termination

/-! No label twice. The machines share no visit hash, the origin forgets what its pre-stage
has seen, and a SYNC is merged unchecked. So a vertex is in the result once if the machine
that evaluates it is the first to do so. -/
namespace CoTra.Duplicates
open Runs Priority SubQuery Spread SubQueryTotals SubQueryDrain SubQueryEffects Roster CountedWork Visits Copies

variable {n : Nat} {D : Type} [Distance D]

section PreStage

variable (cfg : Config n D) {v : Nat}

/- The vertices that the pre-stage leaves in top_candidates. -/
def preIds : List Nat := (preStage cfg).preTopCand.elems.map Prod.snd

omit [Distance D] in
theorem timesCount (cs : List (D × Nat)) : times v cs = (cs.map Prod.snd).count v := by
  rw [times,List.count,List.countP_map]
  refine List.countP_congr (fun c _ => ?_)
  simp

theorem topProcTimes (ef : Nat) (cs : List (D × Nat)) (s : PreStage D) :
    times v (cs.foldl (topProcCandidate ef) s).preTopCand.elems ≤ times v s.preTopCand.elems + times v cs := by
  induction cs generalizing s with
  | nil => exact Nat.le_refl _
  | cons d rest ih =>
    have one : times v (topProcCandidate ef s d).preTopCand.elems ≤
        times v s.preTopCand.elems + if d.2 = v then 1 else 0 := by
      unfold topProcCandidate
      split
      · exact (popTimes ef _).trans (pushTimes s.preTopCand d).le
      · exact Nat.le_add_right _ _
    have later := ih (topProcCandidate ef s d)
    rw [timesCons,List.foldl_cons]
    omega

theorem preOnce : times v (preStage cfg).preTopCand.elems ≤ 1 := by
  have all := topProcTimes (v := v) cfg.ef cfg.evaluated ⟨cfg.enterpoint.1,push empty cfg.enterpoint⟩
  have unique : times v (cfg.enterpoint :: cfg.evaluated) ≤ 1 := by
    rw [timesCount]
    exact List.nodup_iff_count_le_one.mp cfg.once v
  have first : times v (push (empty : PQueue D Nat) cfg.enterpoint).elems = times v [cfg.enterpoint] :=
    congrArg (times v) (pushEmpty cfg.enterpoint)
  rw [timesCons] at unique first
  simp only [times,List.countP_nil,Nat.add_zero] at all unique first
  rw [preStage]
  simp only [times]
  omega

theorem preNone (outside : v ∉ preIds cfg) : times v (preStage cfg).preTopCand.elems = 0 := by
  rw [timesCount]
  exact List.count_eq_zero.mpr outside

end PreStage

section Invariant

variable (x : Index n D) (cfg : Config n D)

/- The copies of v that are at the leader or can get there. -/
def load (v : Nat) (s : Net n D) : Nat := ∑ a, copies v cfg.leaderMachine a (s a)

/- A vertex whose distance a machine computes is none that the pre-stage left, and no
machine has it in its visit hash. -/
def Once (s : Net n D) : Act n → Prop
  | .host a op => ∀ v ∈ walked x a (s a) op, v ∈ (s a).visitHash ∨ v ∉ preIds cfg ∧ ∀ b, v ∉ (s b).visitHash
  | .deliver _ _ => True

instance (s : Net n D) (act : Act n) : Decidable (Once x cfg s act) :=
  match act with
  | .host a op => inferInstanceAs
      (Decidable (∀ v ∈ walked x a (s a) op, v ∈ (s a).visitHash ∨ v ∉ preIds cfg ∧ ∀ b, v ∉ (s b).visitHash))
  | .deliver _ _ => .isTrue trivial

/- Before searchSub no machine has anything to do. -/
structure Unopened (s : Net n D) : Prop where
  silent : ∀ w, totalAll w s = 0
  hash : (s cfg.originMachine).visitHash = []
  pre : ∀ v ∈ preIds cfg, load cfg v s = 0

structure Single (s : Net n D) : Prop where
  load : ∀ v, load cfg v s ≤ 1
  marked : ∀ v, Duplicates.load cfg v s ≠ 0 → v ∈ preIds cfg ∨ ∃ b, v ∈ (s b).visitHash
  result : ∀ a, (s a).result = []
  forks : totalAll (queryWeight carried) s = 0

structure Booked (s : Net n D) : Prop where
  counted : Counted x cfg s
  unopened : (s cfg.originMachine).isNew = true → Unopened cfg s
  single : (s cfg.leaderMachine).coro ≠ .finished → Single cfg s

theorem startLoad (v : Nat) : load cfg v (start cfg) = 0 := by
  refine Finset.sum_eq_zero (fun a _ => ?_)
  rw [copies,start,totalFresh,Nat.zero_add,held]
  split
  · exact congrArg (times v) emptyElems
  · rfl

theorem startBooked : Booked x cfg (start cfg) where
  counted := startCounted x cfg
  unopened _ := ⟨startTotal cfg,rfl,fun v _ => startLoad cfg v⟩
  single _ := ⟨fun v => by rw [startLoad]; exact Nat.zero_le 1,fun v some' => absurd (startLoad cfg v) some',fun _ => rfl,
    startTotal cfg _⟩

variable {x cfg} {s t : Net n D} {a : Fin n} {op : Op} {m' : Machine n D} {v : Nat}

variable (cfg) in
theorem hostLoad (s : Net n D) (a : Fin n) (m' : Machine n D) (v : Nat) :
    load cfg v (Function.update s a m') + copies v cfg.leaderMachine a (s a) =
      load cfg v s + copies v cfg.leaderMachine a m' :=
  sumUpdate (copies v cfg.leaderMachine) s a m'

theorem markedElsewhere {b : Fin n} (keeps : ∀ w ∈ (s a).visitHash, w ∈ m'.visitHash) (marked : v ∈ (s b).visitHash) :
    v ∈ (Function.update s a m' b).visitHash := by
  rcases eq_or_ne b a with rfl | away
  · rw [Function.update_self]
    exact keeps v marked
  · rw [Function.update_of_ne away]
    exact marked

/- An operation that pays: no new copy, or the first one. -/
theorem spendsLoad (paid : Spends v cfg.leaderMachine a (walked x a (s a) op) (s a) m') (once : Once x cfg s (.host a op)) :
    load cfg v (Function.update s a m') ≤ load cfg v s ∨
      load cfg v (Function.update s a m') ≤ load cfg v s + 1 ∧ v ∈ m'.visitHash ∧ v ∉ preIds cfg ∧
        ∀ b, v ∉ (s b).visitHash := by
  have change := hostLoad cfg s a m' v
  have less := paid.less
  by_cases old : v ∈ (s a).visitHash
  · have marked := paid.keeps v old
    rw [seen,seen,if_pos old,if_pos marked] at less
    exact .inl (by omega)
  · rw [seen,seen,if_neg old] at less
    split at less
    · rename_i marked
      rcases paid.source v marked with before | walked
      · exact absurd before old
      · have first := (once v walked).resolve_left old
        exact .inr ⟨by omega,marked,first⟩
    · exact .inl (by omega)

theorem emptyQueue {α : Type} {xs : List α} (none' : ∀ y ∈ xs, (1 : Nat) = 0) : xs = [] :=
  List.eq_nil_iff_forall_not_mem.mpr (fun y member => absurd (none' y member) Nat.one_ne_zero)

theorem walkedNone {m : Machine n D} (silent : ∀ w, total w a m = 0) (asleep : m.coro = .none) :
    walked x a m op = [] := by
  have absent := (totalAbsent ones).mp (silent ones)
  have resume : atResume x a m = [] := if_neg (by rw [asleep]; exact Coro.noConfusion)
  cases op with
  | pushChunk =>
    simp only [walked]
    rw [emptyQueue absent.stolen]
  | procNodeTask =>
    simp only [walked]
    rw [emptyQueue absent.curNodeQueue]
  | procTask =>
    simp only [walked]
    rw [emptyQueue absent.curTaskQueue]
  | procSubquery => exact resume
  | _ => rfl

variable [Zero D]

-- Nothing makes a query new again.
omit [Zero D] in
theorem newBefore (step : RosterStep x cfg a (s a) m') (new : m'.isNew = true) : (s a).isNew = true := by
  cases step with
  | keeps same coro totals =>
    simp only [roster,Prod.mk.injEq] at same
    rw [← same.1,new]
  | opens msgs origin before idle forks after coro totals => exact before
  | merges g coro after totals =>
    simp only [roster,Prod.mk.injEq] at after
    rw [← after.1,new]
  | starts before queued coro after totals => exact before
  | returns old queued coro after totals =>
    simp only [roster,Prod.mk.injEq] at after
    rw [← after.1,new]
  | ends g running coro same fork totals =>
    simp only [roster,Prod.mk.injEq] at same
    rw [← same.1,new]

theorem hostUnopened (booked : Booked x cfg s) (once : Once x cfg s (.host a op)) (effect : Effect x cfg a (s a) m')
    (books : ∀ v, Books v cfg.leaderMachine x cfg a op (s a) m') (before : (s cfg.originMachine).isNew = true)
    (new : (Function.update s a m' cfg.originMachine).isNew = true) : Unopened cfg (Function.update s a m') := by
  have unopened := booked.unopened before
  have silent : ∀ w, total w a (s a) = 0 := fun w => totalAt (unopened.silent w) a
  have untouched := (booked.counted.rostered.first before a).1
  have paid : ∀ v, Spends v cfg.leaderMachine a (walked x a (s a) op) (s a) m' := by
    intro v
    cases books v with
    | spends paid => exact paid
    | finishes done' =>
      have asleep := untouched.coro
      rw [done'.top] at asleep
      cases asleep
    | opens first =>
      rw [← first.origin,Function.update_self,first.old] at new
      cases new
    | merges f received =>
      have one := received.queued ones
      rw [silent] at one
      exact absurd one (Nat.not_succ_le_zero 0)
  refine ⟨?_,?_,fun v inside => ?_⟩
  · rcases Scheduling.silentEffect effect silent untouched with ⟨totals,_⟩ | ⟨home,old⟩
    · refine fun w => hostZero (unopened.silent w) ?_
      rw [totals]
      exact Nat.zero_le _
    · rw [← home,Function.update_self,old] at new
      cases new
  · rcases eq_or_ne cfg.originMachine a with here | away
    · rw [here,Function.update_self]
      refine List.eq_nil_iff_forall_not_mem.mpr (fun w marked => ?_)
      rcases (paid 0).source w marked with old | found
      · rw [← here,unopened.hash] at old
        cases old
      · rw [walkedNone silent untouched.coro] at found
        cases found
    · rw [Function.update_of_ne away]
      exact unopened.hash
  · rcases spendsLoad (paid v) once with less | ⟨_,_,outside,_⟩
    · have none' := unopened.pre v inside
      omega
    · exact absurd inside outside

omit [Zero D] in
theorem hostLoadOnce (booked : Booked x cfg s) (single : Single cfg s) (once : Once x cfg s (.host a op))
    (books : Books v cfg.leaderMachine x cfg a op (s a) m') (running : ¬Finishes a (s a) m') :
    load cfg v (Function.update s a m') ≤ 1 ∧ (load cfg v (Function.update s a m') ≠ 0 →
      v ∈ preIds cfg ∨ ∃ b, v ∈ (Function.update s a m' b).visitHash) := by
  have change := hostLoad cfg s a m' v
  have before := single.load v
  -- what was marked stays marked, except on the origin in searchSub
  have kept : (∀ w ∈ (s a).visitHash, w ∈ m'.visitHash) → load cfg v (Function.update s a m') ≤ load cfg v s →
      load cfg v (Function.update s a m') ≤ 1 ∧ (load cfg v (Function.update s a m') ≠ 0 →
        v ∈ preIds cfg ∨ ∃ b, v ∈ (Function.update s a m' b).visitHash) := by
    intro keeps less
    refine ⟨by omega,fun some' => ?_⟩
    rcases single.marked v (by omega) with pre | ⟨b,marked⟩
    · exact .inl pre
    · exact .inr ⟨b,markedElsewhere keeps marked⟩
  cases books with
  | spends paid =>
    rcases spendsLoad paid once with less | ⟨more,marked,outside,first⟩
    · exact kept paid.keeps less
    · have none' : load cfg v s = 0 := by
        by_contra some'
        rcases single.marked v some' with pre | ⟨b,marked⟩
        · exact outside pre
        · exact first b marked
      exact ⟨by omega,fun _ => .inr ⟨a,by rw [Function.update_self]; exact marked⟩⟩
  | finishes done' => exact absurd done' running
  | opens first =>
    have copied := first.copied
    have origin := first.origin
    have unopened := booked.unopened (by rw [← origin]; exact first.new)
    by_cases inside : v ∈ preIds cfg
    · have none' := unopened.pre v inside
      have one := preOnce cfg (v := v)
      exact ⟨by omega,fun _ => .inl inside⟩
    · rw [preNone cfg inside] at copied
      refine kept (fun w marked => ?_) (by omega)
      rw [origin,unopened.hash] at marked
      cases marked
  | merges f received =>
    have copied := received.copied
    exact kept received.keeps (by omega)

omit [Zero D] in
theorem finishesLeader (counted : Counted x cfg s) (going : (s cfg.leaderMachine).coro ≠ .finished)
    (done' : Finishes a (s a) m') : a = cfg.leaderMachine := by
  obtain ⟨_,known,core⟩ := runningKnown counted.rostered (p := a) (by rw [done'.top]; rfl)
  by_cases several : 1 < cfg.coreMachine.length
  · rw [← known.leader]
    exact (done'.leader (by rw [core (.inr going)]; exact several)).symm
  · exact Token.onlyCore several known.inside cfg.leaderCore

theorem hostSingle (booked : Booked x cfg s) (once : Once x cfg s (.host a op)) (performed : perform x cfg a (s a) op = some m')
    (before : (s cfg.leaderMachine).coro ≠ .finished) (going : (Function.update s a m' cfg.leaderMachine).coro ≠ .finished) :
    Single cfg (Function.update s a m') := by
  have single := booked.single before
  have books : ∀ v, Books v cfg.leaderMachine x cfg a op (s a) m' := by
    refine fun v => performBooks performed (fun top => ?_)
    obtain ⟨_,_,core⟩ := runningKnown booked.counted.rostered (p := a) (by rw [top]; rfl)
    rw [core (.inr before)]
    exact cfg.coreNodup
  have running : ¬Finishes a (s a) m' := by
    intro done'
    rw [← finishesLeader booked.counted before done',Function.update_self] at going
    exact going done'.coro
  have carriedNow : m'.result = [] ∧ total (queryWeight carried) a m' ≤ total (queryWeight carried) a (s a) := by
    cases books 0 with
    | spends paid => exact ⟨paid.result.trans (single.result a),paid.forks carried⟩
    | finishes done' => exact absurd done' running
    | opens first =>
      obtain ⟨result,same⟩ := first.result (single.result a)
      exact ⟨result,same.le⟩
    | merges f received =>
      have none' : f.result.length = 0 := by
        have le : f.result.length ≤ total (queryWeight carried) a (s a) := received.queued (queryWeight carried)
        rw [totalAt single.forks] at le
        exact Nat.le_zero.mp le
      exact ⟨received.result.trans (List.eq_nil_of_length_eq_zero none'),received.forks carried⟩
  refine ⟨fun v => (hostLoadOnce booked single once (books v) running).1,
    fun v => (hostLoadOnce booked single once (books v) running).2,fun b => ?_,hostZero single.forks carriedNow.2⟩
  rcases eq_or_ne b a with rfl | away
  · rw [Function.update_self]
    exact carriedNow.1
  · rw [Function.update_of_ne away]
    exact single.result b

theorem hostBooked (booked : Booked x cfg s) (once : Once x cfg s (.host a op)) (performed : perform x cfg a (s a) op = some m') :
    Booked x cfg (Function.update s a m') := by
  have effect := performEffect performed
  have roster : RosterStep x cfg a (s a) m' := by
    rcases rosterStep effect with step | ⟨t,own,queued⟩
    · exact step
    · exact absurd queued (noOwnTask booked.counted a t own)
  refine ⟨hostCounted booked.counted effect,fun new => ?_,fun going => ?_⟩
  · have before : (s cfg.originMachine).isNew = true := by
      rcases eq_or_ne cfg.originMachine a with here | away
      · rw [here,Function.update_self] at new
        rw [here]
        exact newBefore roster new
      · rwa [Function.update_of_ne away] at new
    refine hostUnopened booked once effect (fun v => performBooks performed (fun top => ?_)) before new
    have asleep := (booked.counted.rostered.first before a).1.coro
    rw [top] at asleep
    cases asleep
  · refine hostSingle booked once performed (fun finished => going ?_) going
    exact finishedStays booked.counted.rostered roster finished

-- A delivery moves a message and nothing else.
omit [Zero D] in
theorem deliverMemo {p : Fin n} (ok : deliver s a p = some t) (q : Fin n) : memo (t q) = memo (s q) := by
  unfold deliver at ok
  split at ok <;> try contradiction
  split at ok <;> try contradiction
  rename_i other
  cases Option.some.inj ok
  rcases eq_or_ne q p with rfl | notP
  · rw [Function.update_self,Function.update_of_ne (Ne.symm other)]
    rfl
  · rw [Function.update_of_ne notP]
    rcases eq_or_ne q a with rfl | notA
    · rw [Function.update_self]
      rfl
    · rw [Function.update_of_ne notA]

omit [Zero D] in
theorem deliverLoad {p : Fin n} (ok : deliver s a p = some t) (v : Nat) : load cfg v t = load cfg v s := by
  have totals : ∑ q, total (claimWeight v cfg.leaderMachine) q (t q) =
      ∑ q, total (claimWeight v cfg.leaderMachine) q (s q) := deliverTotal _ ok
  simp only [load,copies,Finset.sum_add_distrib,totals,(deliverSame ok _).1]

theorem stepBooked {act : Act n} (once : Once x cfg s act) (done' : step x cfg s act = some t) (booked : Booked x cfg s) :
    Booked x cfg t := by
  cases act with
  | host a op =>
    obtain ⟨m',performed,rfl⟩ := Option.map_eq_some_iff.mp done'
    exact hostBooked booked once performed
  | deliver a p =>
    have field : ∀ b, (t b).toQueryMsg = (s b).toQueryMsg := fun b => (deliverSame done' b).1
    have hash : ∀ b, (t b).visitHash = (s b).visitHash := fun b => (Prod.mk.inj (deliverMemo done' b)).1
    have result : ∀ b, (t b).result = (s b).result := fun b => (Prod.mk.inj (deliverMemo done' b)).2
    have totals : ∀ w : Weight n D, totalAll w t = totalAll w s := fun w => deliverTotal w done'
    have loads : ∀ v, load cfg v t = load cfg v s := deliverLoad done'
    refine ⟨stepCounted done' booked.counted,fun new => ?_,fun going => ?_⟩
    · rw [field] at new
      have unopened := booked.unopened new
      exact ⟨fun w => (totals w).trans (unopened.silent w),(hash _).trans unopened.hash,
        fun v inside => (loads v).trans (unopened.pre v inside)⟩
    · rw [field] at going
      have single := booked.single going
      refine ⟨fun v => (loads v).trans_le (single.load v),fun v some' => ?_,fun b => (result b).trans (single.result b),
        (totals _).trans single.forks⟩
      rw [loads] at some'
      simp only [hash]
      exact single.marked v some'

theorem runBooked {acts : List (Act n)} (along : Along (step x cfg) (Once x cfg) (start cfg) acts)
    (ok : run (step x cfg) (start cfg) acts = some s) : Booked x cfg s := by
  refine runInvariantAlong (fun _ _ _ good done' before => ?_) along ok (startBooked x cfg)
  exact stepBooked good done' before

end Invariant

section Results

variable {x : Index n D} {cfg : Config n D} {s t : Net n D} {a : Fin n}

/- The result that an end leaves on a machine, or sends to the origin. -/
inductive Placed (cfg : Config n D) (m : Machine n D) (res : List (D × Nat)) : Prop
  | here (own : m.result = res)
  | sent (rest : List (Message n D)) (q : QueryFork n D) (wire : m.wire cfg.originMachine = rest ++ [.query q])
      (result : q.result = res)

theorem endPlaced (e : Machine n D) :
    Placed cfg (endQuery x cfg a e) (e.result ++ labelled x cfg e.search.topCandidates) := by
  unfold endQuery
  simp only
  split
  · refine .sent (e.wire cfg.originMachine) (endFork { e.toQueryMsg with
        state := .ended, coro := .finished, search := { e.search with topCandidates := empty } }
        (e.result ++ labelled x cfg e.search.topCandidates)) ?_ rfl
    exact Function.update_self cfg.originMachine _ e.wire
  · refine .here ?_
    split <;> rfl

variable (x cfg) in
theorem loopTopEnds {m : Machine n D} (ending : Ends a m.toQueryMsg) : ∃ e, loopTop x cfg a m = endQuery x cfg a e ∧
    e.search.topCandidates = m.search.topCandidates ∧ e.result = m.result := by
  obtain ⟨⟨_,noneLeft,all,post⟩,second⟩ := ending
  have none' : (popGroup m.search.lowerBound candGroupSize m.search.candidateSet).1.isEmpty = true :=
    List.isEmpty_iff.mpr noneLeft
  simp only [loopTop,none',all,post,if_true,leave]
  split
  · rename_i several
    obtain ⟨holder,leader,white,clean⟩ := second several
    rw [failed] at clean
    simp only [if_pos holder,if_pos leader,leaderToken,white,clean]
    exact ⟨_,rfl,rfl,rfl⟩
  · exact ⟨_,rfl,rfl,rfl⟩

/- In a run where every vertex is evaluated once, the labels that the end of the search
places are distinct. -/
theorem labelsOnce [Zero D] {acts : List (Act n)} {act : Act n}
    (along : Along (step x cfg) (Once x cfg) (start cfg) acts) (ok : run (step x cfg) (start cfg) acts = some s)
    (last : step x cfg s act = some t) (before : (s cfg.leaderMachine).globalTerm = false)
    (sets : (t cfg.leaderMachine).globalTerm = true) :
    ∃ res, Placed cfg (t cfg.leaderMachine) res ∧ res = labelled x cfg (s cfg.leaderMachine).search.topCandidates ∧
      ((s cfg.leaderMachine).search.topCandidates.elems.map Prod.snd).Nodup ∧
      (Function.Injective x.kmeansPosLabelMap → (res.map Prod.snd).Nodup) := by
  have booked := runBooked along ok
  cases act with
  | deliver a p =>
    rw [(deliverSame last _).1,before] at sets
    cases sets
  | host b op =>
    obtain ⟨m',performed,rfl⟩ := Option.map_eq_some_iff.mp last
    have here : cfg.leaderMachine = b := by
      by_contra away
      rw [Function.update_of_ne away,before] at sets
      cases sets
    subst here
    rw [Function.update_self] at sets ⊢
    obtain ⟨ending,_⟩ := Termination.setsTerm (performEffect performed) (noOwnTask booked.counted _) before sets
    have top := ending.leaves.top
    have loops : m' = loopTop x cfg cfg.leaderMachine (s cfg.leaderMachine) := by
      rcases topOp performed top with rfl | same
      · simp only [perform,if_pos top] at performed
        exact (Option.some.inj performed).symm
      · rw [same,before] at sets
        cases sets
    have single := booked.single (by rw [top]; exact Coro.noConfusion)
    obtain ⟨e,shape,cands,result⟩ := loopTopEnds x cfg ending
    have placed : Placed cfg m' (e.result ++ labelled x cfg e.search.topCandidates) := by
      rw [loops,shape]
      exact endPlaced e
    rw [result,single.result,List.nil_append,cands] at placed
    -- what is in top_candidates is among the copies
    have nodup : ((s cfg.leaderMachine).search.topCandidates.elems.map Prod.snd).Nodup := by
      refine List.nodup_iff_count_le_one.mpr (fun v => ?_)
      have one := single.load v
      have part : copies v cfg.leaderMachine cfg.leaderMachine (s cfg.leaderMachine) ≤ load cfg v s :=
        Finset.single_le_sum (f := fun b => copies v cfg.leaderMachine b (s b)) (fun _ _ => Nat.zero_le _)
          (Finset.mem_univ cfg.leaderMachine)
      rw [copies,held,if_pos rfl] at part
      rw [← timesCount]
      omega
    refine ⟨_,placed,rfl,nodup,fun injective => ?_⟩
    have vertices : ((popTo cfg.resKnn (s cfg.leaderMachine).search.topCandidates).elems.map Prod.snd).Nodup :=
      nodup.sublist ((popToSublist _ _).map _)
    have labels : (labelled x cfg (s cfg.leaderMachine).search.topCandidates).map Prod.snd =
        ((popTo cfg.resKnn (s cfg.leaderMachine).search.topCandidates).elems.map Prod.snd).map x.kmeansPosLabelMap := by
      rw [labelled,List.map_map,List.map_map]
      rfl
    rw [labels]
    exact vertices.map injective

theorem labelsOncePair : ∃ s t, run (step pairIndex pairConfig) (start pairConfig) pairRun.dropLast = some s ∧
    step pairIndex pairConfig s (.host 0 .loopTop) = some t ∧
    ∃ res, Placed pairConfig (t 0) res ∧ (res.map Prod.snd).Nodup := by
  have last : ((run (step pairIndex pairConfig) (start pairConfig) pairRun.dropLast).bind (fun s =>
      (step pairIndex pairConfig s (.host 0 .loopTop)).map (fun t => ((s 0).globalTerm,(t 0).globalTerm)))) =
      some (false,true) := by decide +kernel
  obtain ⟨s,ok,value⟩ := Option.bind_eq_some_iff.mp last
  obtain ⟨t,done',value⟩ := Option.map_eq_some_iff.mp value
  obtain ⟨before,sets⟩ := Prod.mk.inj value
  have along : Along (step pairIndex pairConfig) (Once pairIndex pairConfig) (start pairConfig) pairRun.dropLast := by
    decide +kernel
  obtain ⟨res,placed,_,_,labels⟩ := labelsOnce along ok done' before sets
  exact ⟨s,t,ok,done',res,placed,labels (fun _ _ same => same)⟩

/- Two vertices of the origin, each the only neighbour of the other. The pre-stage sees
both and the origin forgets it. -/
def twinIndex : Index 2 Nat where
  getMachineId _ := 0
  block v := [.localNgh 1 v]
  nghPtr _ ofs _ := [1 - ofs]
  dist v := v
  kmeansPosLabelMap v := v
  foreign v r member := by
    rw [List.mem_singleton.mp member]
    exact nofun

def twinConfig : Config 2 Nat where
  ef := 4
  resKnn := 4
  originMachine := 0
  leaderMachine := 0
  coreMachine := [0]
  coreNodup := aloneOnce
  leaderCore := aloneLeads
  enterpoint := (0,0)
  evaluated := [(1,1)]
  once := Token.twoEntries
  unset := 0

def twinRun : List (Act 2) :=
  [.host 0 .searchSub,.host 0 .loopTop,.host 0 .swapTaskQueue,.host 0 .procSubquery,.host 0 .loopTop,
    .host 0 .swapTaskQueue,.host 0 .procSubquery]

theorem labelsTwice : ∃ s t, run (step twinIndex twinConfig) (start twinConfig) twinRun = some s ∧
    step twinIndex twinConfig s (.host 0 .loopTop) = some t ∧ (s 0).globalTerm = false ∧ (t 0).globalTerm = true ∧
    Function.Injective twinIndex.kmeansPosLabelMap ∧ ¬((t 0).result.map Prod.snd).Nodup := by
  have last : ((run (step twinIndex twinConfig) (start twinConfig) twinRun).bind (fun s =>
      (step twinIndex twinConfig s (.host 0 .loopTop)).map (fun t =>
        ((s 0).globalTerm,(t 0).globalTerm,(t 0).result.map Prod.snd)))) = some (false,true,[1,1,0,0]) := by
    decide +kernel
  obtain ⟨s,ok,value⟩ := Option.bind_eq_some_iff.mp last
  obtain ⟨t,done',value⟩ := Option.map_eq_some_iff.mp value
  simp only [Prod.mk.injEq] at value
  obtain ⟨before,sets,labels⟩ := value
  refine ⟨s,t,ok,done',before,sets,fun _ _ same => same,?_⟩
  rw [labels]
  decide

end Results

end CoTra.Duplicates
