import CoTra.CountedWork

/-! The acceptance test of a core machine, split over two machines: a ComputeTask
carries the bound and ef_fill, and the machine that evaluates its neighbours filters
them. The sender sets ef_fill while top_candidates is not full; the filter keeps
everything when ef_fill is not set. -/
namespace CoTra.RemoteFilter
open Runs Priority SubQuery Spread SubQueryTotals SubQueryEffects CountedWork

variable {n : Nat} {D : Type} [Distance D]
variable (x : Index n D) (cfg : Config n D) (me : Fin n)

/- The test of post_proc_candidate. -/
def Accepts (q : QueryMsg n D) (c : D × Nat) : Prop := size q.search.topCandidates < cfg.ef ∨ c.1 < q.search.lowerBound

instance (q : QueryMsg n D) (c : D × Nat) : Decidable (Accepts cfg q c) := inferInstanceAs (Decidable (_ ∨ _))

theorem acceptsChanges {q : QueryMsg n D} {c : D × Nat} (no : ¬Accepts cfg q c) :
    postProcCandidate cfg q.search c = q.search := if_neg no

theorem acceptsPushed {q : QueryMsg n D} {c : D × Nat} (yes : Accepts cfg q c) :
    (OrderDual.toDual c.1,c.2) ∈ (postProcCandidate cfg q.search c).candidateSet.elems := by
  unfold Accepts at yes
  unfold postProcCandidate
  rw [if_pos yes]
  exact memPush.mpr (.inl rfl)

/- What the task carries of the state it is created in. -/
structure Stamped (q : QueryMsg n D) (t : ComputeTask n D) : Prop where
  bound : t.lowerBound = q.search.lowerBound
  fill : t.efFill = efFilled cfg q
  back : t.machineId = me

theorem getSubqueryTaskLbStamped {q : QueryMsg n D} (rs : List (Record n)) (m : Machine n D) (p : Fin n) :
    ∃ added, (getSubqueryTaskLb me q.search.lowerBound (efFilled cfg q) rs m).1.taskQueue p = m.taskQueue p ++ added ∧
      ∀ t ∈ added, Stamped cfg me q t := by
  have same : ∃ added, m.taskQueue p = m.taskQueue p ++ added ∧ ∀ t ∈ added, Stamped cfg me q t :=
    ⟨[],(List.append_nil _).symm,fun t member => absurd member List.not_mem_nil⟩
  induction rs generalizing m with
  | nil => exact same
  | cons r rest ih =>
    cases r with
    | localNgh deg ofs => exact same
    | micro pid ids =>
      simp only [getSubqueryTaskLb]
      split
      · exact ih _ same
      · exact ih _ same
    | large pid ofs deg =>
      simp only [getSubqueryTaskLb]
      split
      · exact ih _ same
      · obtain ⟨added,queue,stamped⟩ := ih { m with
          taskQueue := Function.update m.taskQueue pid (m.taskQueue pid ++
            [⟨me,.stored ofs deg,q.search.lowerBound,efFilled cfg q,1,0,rfl⟩]) }
          ⟨[],(List.append_nil _).symm,fun t member => absurd member List.not_mem_nil⟩
        simp only at queue ⊢
        rcases eq_or_ne p pid with rfl | other
        · rw [Function.update_self,List.append_assoc] at queue
          refine ⟨_,queue,fun t member => ?_⟩
          rcases List.mem_append.mp member with first | later
          · rw [List.mem_singleton.mp first]
            exact ⟨rfl,rfl,rfl⟩
          · exact stamped t later
        · rw [Function.update_of_ne other] at queue
          exact ⟨added,queue,stamped⟩

theorem expandNodeStamped (m : Machine n D) (v : Nat) (p : Fin n) :
    ∃ added, (expandNode x cfg me m v).taskQueue p = m.taskQueue p ++ added ∧
      ∀ t ∈ added, Stamped cfg me m.toQueryMsg t := by
  rcases eq_or_ne (x.getMachineId v) me with here | remote
  · rw [expandNodeLocal x cfg me here]
    exact getSubqueryTaskLbStamped cfg me (x.block v) m p
  · rw [expandNodeRemote x cfg me remote]
    exact ⟨[],(List.append_nil _).symm,fun t member => absurd member List.not_mem_nil⟩

/- The neighbours that the machine p evaluates for a task, with its visit hash. -/
def evaluatedNgh (p : Fin n) (hash : List Nat) (t : ComputeTask n D) : List (D × Nat) :=
  (visit x (nghIds x p t.ngh) hash).1

/- The answer of p holds every neighbour that the sender would have accepted. -/
def Lossless (q : QueryMsg n D) (p : Fin n) (hash : List Nat) (t : ComputeTask n D) : Prop :=
  ∀ c ∈ evaluatedNgh x p hash t, Accepts cfg q c → c ∈ (taskResult t (evaluatedNgh x p hash t)).res

instance (q : QueryMsg n D) (p : Fin n) (hash : List Nat) (t : ComputeTask n D) : Decidable (Lossless x cfg q p hash t) :=
  inferInstanceAs (Decidable (∀ c ∈ _, Accepts cfg q c → _))

theorem computeTaskAnswers (t : ComputeTask n D) (p : Fin n) (m : Machine n D) :
    (computeTask x p t m).resultQueue t.machineId =
      m.resultQueue t.machineId ++ [taskResult t (evaluatedNgh x p m.visitHash t)] :=
  Function.update_self _ _ _

/- The tasks of every expansion: their answers are lossless if top_candidates was full,
or if nothing was at the bound or beyond it. -/
theorem losslessExact (m : Machine n D) (v : Nat) (p : Fin n) :
    ∃ added, (expandNode x cfg me m v).taskQueue p = m.taskQueue p ++ added ∧ ∀ t ∈ added, ∀ hash,
      Lossless x cfg m.toQueryMsg p hash t ↔
        cfg.ef ≤ size m.search.topCandidates ∨ ∀ c ∈ evaluatedNgh x p hash t, c.1 < m.search.lowerBound := by
  obtain ⟨added,queue,stamped⟩ := expandNodeStamped x cfg me m v p
  refine ⟨added,queue,fun t member hash => ?_⟩
  obtain ⟨bound,fill,_⟩ := stamped t member
  constructor
  · intro lossless
    rcases Nat.lt_or_ge (size m.search.topCandidates) cfg.ef with open' | full
    · refine .inr (fun c found => ?_)
      have kept := (List.mem_filter.mp (lossless c found (.inl open'))).2
      rw [fill,bound,efFilled] at kept
      simpa [open'] using kept
    · exact .inl full
  · intro either c found accepts
    refine List.mem_filter.mpr ⟨found,?_⟩
    rw [fill,bound,efFilled]
    rcases either with full | below
    · simp [not_lt.mpr full]
    · simp [below c found]

/- The pair of machines with the three neighbours at distance 5, beyond the bound 4 of the
only candidate; ef is 4, so the core machine would take them. -/
def farIndex : Index 2 Nat := { pairIndex with dist := fun v => if v = 0 then 4 else 5 }

theorem farLost : ∃ s, run (step farIndex pairConfig) (start pairConfig) [.host 0 .searchSub] = some s ∧
    ∃ t ∈ (expandNode farIndex pairConfig 0 (s 0) 0).taskQueue 1, ¬Lossless farIndex pairConfig (s 0).toQueryMsg 1 [] t := by
  have lost : (run (step farIndex pairConfig) (start pairConfig) [.host 0 .searchSub]).map (fun s =>
      ((expandNode farIndex pairConfig 0 (s 0) 0).taskQueue 1).any
        (fun t => !decide (Lossless farIndex pairConfig (s 0).toQueryMsg 1 [] t))) = some true := by decide +kernel
  obtain ⟨s,ok,value⟩ := Option.map_eq_some_iff.mp lost
  obtain ⟨t,member,no⟩ := List.any_eq_true.mp value
  exact ⟨s,ok,t,member,by simpa using no⟩

end CoTra.RemoteFilter
