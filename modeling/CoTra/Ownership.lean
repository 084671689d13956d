import CoTra.CountedWork
import CoTra.V3Index

/-! Who works on a vertex. A core machine has candidates of its own partition and of
machines that are not core, so its NodeTasks go to machines that are not core, and what
a SYNC brings to a machine is in its own partition. The decoders find every vertex in
the range they check. -/
namespace CoTra.Ownership
open Runs Priority SubQuery Spread SubQueryTotals SubQueryDrain SubQueryEffects Roster CountedWork
open V3Index (GraphParts cumupsize judgePartition nghs)

variable {n : Nat} {D : Type}

/- x is the index of the partitioned graph g: get_machine_id searches the cumulated sizes,
and the block of a vertex groups its row by machine, inlined or as an array in the file
of that machine. -/
structure Indexes (g : GraphParts n) (x : Index n D) : Prop where
  machine : ∀ v < cumupsize g.partitionSize n, judgePartition g v = some (x.getMachineId v)
  slice : ∀ p pre row post, g.rows p = pre ++ row :: post → ∀ deg ofs,
    .localNgh deg ofs ∈ x.block (cumupsize g.partitionSize p + pre.length) → x.nghPtr p ofs deg = nghs g row p
  micro : ∀ p pre row post, g.rows p = pre ++ row :: post → ∀ pid ids,
    .micro pid ids ∈ x.block (cumupsize g.partitionSize p + pre.length) → ids = nghs g row pid
  large : ∀ p pre row post, g.rows p = pre ++ row :: post → ∀ pid ofs deg,
    .large pid ofs deg ∈ x.block (cumupsize g.partitionSize p + pre.length) → x.nghPtr pid ofs deg = nghs g row pid

section Partition

variable (g : GraphParts n) (x : Index n D)

-- A vertex of the partition of p.
def Local (p : Fin n) (v : Nat) : Prop := v < cumupsize g.partitionSize n ∧ x.getMachineId v = p

variable {g x}

theorem nghsLocal (indexes : Indexes g x) {p q : Fin n} {row : List Nat} (member : row ∈ g.rows p) :
    ∀ v ∈ nghs g row q, Local g x q v := by
  intro v inside
  have known := g.target p row member v (List.mem_filter.mp inside).1
  have owner := V3Index.nghsOwner inside
  rw [indexes.machine v known] at owner
  exact ⟨known,Option.some.inj owner⟩

/- The range of scala_graph_v3_get_subquery_task_lb. -/
theorem localRange (indexes : Indexes g x) {p : Fin n} {v : Nat} (own : Local g x p v) :
    cumupsize g.partitionSize p ≤ v ∧ v < cumupsize g.partitionSize p + g.partitionSize p := by
  have owner := indexes.machine v own.1
  rw [own.2] at owner
  refine ⟨V3Index.ownerAbove owner,?_⟩
  have below := V3Index.ownerBelow owner
  rwa [cumupsize,dif_pos p.isLt] at below

theorem vertexRow (indexes : Indexes g x) {u : Nat} (known : u < cumupsize g.partitionSize n) :
    ∃ pre row post, g.rows (x.getMachineId u) = pre ++ row :: post ∧
      u = cumupsize g.partitionSize (x.getMachineId u) + pre.length := by
  obtain ⟨p,pre,row,post,owner,part,place⟩ := V3Index.vertexRow g known
  rw [indexes.machine u known] at owner
  cases Option.some.inj owner
  exact ⟨pre,row,post,part,place⟩

theorem sliceLocal (indexes : Indexes g x) {p : Fin n} {u : Nat} (own : Local g x p u) {deg ofs : Nat}
    (record : .localNgh deg ofs ∈ x.block u) : ∀ v ∈ x.nghPtr p ofs deg, Local g x p v := by
  obtain ⟨pre,row,post,part,place⟩ := vertexRow indexes own.1
  rw [own.2] at part place
  rw [place] at record
  rw [indexes.slice p pre row post part deg ofs record]
  exact nghsLocal indexes (part ▸ List.mem_append_right _ List.mem_cons_self)

theorem microLocal (indexes : Indexes g x) {u : Nat} (known : u < cumupsize g.partitionSize n) {pid : Fin n}
    {ids : List Nat} (record : .micro pid ids ∈ x.block u) : ∀ v ∈ ids, Local g x pid v := by
  obtain ⟨pre,row,post,part,place⟩ := vertexRow indexes known
  rw [place] at record
  rw [indexes.micro _ pre row post part pid ids record]
  exact nghsLocal indexes (part ▸ List.mem_append_right _ List.mem_cons_self)

theorem largeLocal (indexes : Indexes g x) {u : Nat} (known : u < cumupsize g.partitionSize n) {pid : Fin n}
    {ofs deg : Nat} (record : .large pid ofs deg ∈ x.block u) : ∀ v ∈ x.nghPtr pid ofs deg, Local g x pid v := by
  obtain ⟨pre,row,post,part,place⟩ := vertexRow indexes known
  rw [place] at record
  rw [indexes.large _ pre row post part pid ofs deg record]
  exact nghsLocal indexes (part ▸ List.mem_append_right _ List.mem_cons_self)

end Partition

section Weights

variable [Distance D] (g : GraphParts n) (x : Index n D) (cfg : Config n D)

/- What may be a candidate of machine p. -/
def Mine (p : Fin n) (v : Nat) : Prop :=
  v < cumupsize g.partitionSize n ∧ (x.getMachineId v = p ∨ x.getMachineId v ∉ cfg.coreMachine)

/- The lists of a SYNC: under every machine what is local to it. -/
def Listed (micro : Fin n → List Nat) (large : Fin n → List (Nat × Nat)) : Prop :=
  ∀ p, (∀ v ∈ micro p, Local g x p v) ∧ ∀ e ∈ large p, ∀ v ∈ x.nghPtr p e.1 e.2, Local g x p v

/- A NodeTask goes to the owner of its vertex, which is not core, from a core machine. -/
structure NodeFits (p : Fin n) (t : NodeTask n) : Prop where
  owner : Local g x p t.nodeId
  outside : p ∉ cfg.coreMachine
  sender : t.machineId ∈ cfg.coreMachine
  flags : t.isCoreMachine = coreFlags cfg.coreMachine

open Classical in
noncomputable def stray (fits : Prop) : Nat := if fits then 0 else 1

theorem strayZero {fits : Prop} : stray fits = 0 ↔ fits := by
  unfold stray
  split
  · rename_i holds
    exact ⟨fun _ => holds,fun _ => rfl⟩
  · rename_i fails
    exact ⟨fun no => absurd no Nat.one_ne_zero,fun holds => absurd holds fails⟩

noncomputable def strayWeight : Weight n D where
  task p t := stray (p ∉ cfg.coreMachine ∧ ∀ v ∈ nghIds x p t.ngh, Local g x p v)
  nodeTask p t := stray (NodeFits g x cfg p t)
  result p r := stray (∀ c ∈ r.res, Mine g x cfg p c.2)
  nodeResult p r := stray (∀ c ∈ r.res, Mine g x cfg p c.2)
  nodeSync p msg := stray ((∀ v ∈ msg.coreMicroNgh, Local g x p v) ∧
    ∀ e ∈ msg.coreLargeNgh, ∀ v ∈ x.nghPtr p e.1 e.2, Local g x p v)
  sync _ msg := stray (Listed g x msg.coreMicroNgh msg.coreLargeNgh)
  query p f := stray (∀ c ∈ f.candidateSet, Mine g x cfg p c.2)
  localTask p t := stray (∀ v ∈ x.nghPtr p t.offset t.deg, Local g x p v)
  chunk p c := stray (∀ e ∈ c.elems, Mine g x cfg p e.2)
  read p r := stray (Mine g x cfg p r.vectorId)

variable {g x cfg}

omit [Distance D] in
theorem localMine {p : Fin n} {v : Nat} (own : Local g x p v) : Mine g x cfg p v := ⟨own.1,.inl own.2⟩

omit [Distance D] in
theorem outsideMine {p q : Fin n} {v : Nat} (own : Local g x q v) (outside : q ∉ cfg.coreMachine) : Mine g x cfg p v :=
  ⟨own.1,.inr (by rw [own.2]; exact outside)⟩

omit [Distance D] in
theorem mineElsewhere {p : Fin n} {v : Nat} (mine : Mine g x cfg p v) (remote : x.getMachineId v ≠ p) :
    x.getMachineId v ∉ cfg.coreMachine := mine.2.resolve_left remote

theorem preStageKnown (known : Nat → Prop) (all : ∀ c ∈ cfg.enterpoint :: cfg.evaluated, known c.2) :
    ∀ c ∈ (preStage cfg).preTopCand.elems, known c.2 := by
  have fold : ∀ (cs : List (D × Nat)) (s : PreStage D), (∀ c ∈ cs, known c.2) →
      (∀ c ∈ s.preTopCand.elems, known c.2) →
      ∀ c ∈ (cs.foldl (topProcCandidate cfg.ef) s).preTopCand.elems, known c.2 := by
    intro cs
    induction cs with
    | nil => exact fun s _ before => before
    | cons c rest ih =>
      intro s found before
      refine ih _ (fun d later => found d (List.mem_cons_of_mem _ later)) ?_
      unfold topProcCandidate
      split
      · intro d member
        rcases memPush.mp (memPopTo member) with rfl | old
        · exact found _ List.mem_cons_self
        · exact before d old
      · exact before
  refine fold cfg.evaluated _ (fun c later => all c (List.mem_cons_of_mem _ later)) ?_
  intro c member
  rcases memPush.mp member with rfl | old
  · exact all _ List.mem_cons_self
  · exact absurd old notMemEmpty

theorem filterredMine (all : ∀ c ∈ cfg.enterpoint :: cfg.evaluated, c.2 < cumupsize g.partitionSize n) {p : Fin n} :
    ∀ c ∈ filterred x cfg p, Mine g x cfg p c.2 := by
  intro c member
  have part : ∀ q, c ∈ (preStage cfg).preTopCand.elems.filter (fun c => x.getMachineId c.2 = q) → Local g x q c.2 := by
    intro q inside
    obtain ⟨among,owner⟩ := List.mem_filter.mp inside
    exact ⟨preStageKnown (· < cumupsize g.partitionSize n) all c among,of_decide_eq_true owner⟩
  simp only [filterred] at member
  split at member
  · rcases List.mem_append.mp member with own | other
    · exact localMine (part p own)
    · obtain ⟨q,outside,inside⟩ := List.mem_flatMap.mp other
      exact outsideMine (part q inside) (of_decide_eq_true (List.mem_filter.mp outside).2)
  · exact localMine (part p member)

end Weights

section Steps

variable [Distance D] (g : GraphParts n) (x : Index n D) (cfg : Config n D)

structure Kept (p : Fin n) (q : QueryMsg n D) : Prop where
  cands : ∀ c ∈ q.search.candidateSet.elems, Mine g x cfg p c.2
  tasks : ∀ t ∈ q.localTask, ∀ v ∈ x.nghPtr p t.offset t.deg, Local g x p v
  micro : ∀ v ∈ q.localMicroTask, Local g x p v
  lists : Listed g x q.coreMicroNgh q.coreLargeNgh

variable {g x cfg} {me : Fin n}

theorem keptWoken {p : Fin n} {q : QueryMsg n D} (kept : Kept g x cfg p q) : Kept g x cfg p (woken q) := by
  unfold woken
  split <;> exact ⟨kept.cands,kept.tasks,kept.micro,kept.lists⟩

theorem groupMine {q : QueryMsg n D} (kept : Kept g x cfg me q) : ∀ v ∈ (nextGroup q).1, Mine g x cfg me v := by
  intro v member
  obtain ⟨c,among,rfl⟩ := (popGroupMem _ _ _).1 v member
  exact kept.cands c among

theorem listedRouted (indexes : Indexes g x) {q q' : QueryMsg n D} (kept : Kept g x cfg me q)
    (routed : Routed x (nextGroup q).1 q q') : Listed g x q'.coreMicroNgh q'.coreLargeNgh := by
  refine fun p => ⟨fun v member => ?_,fun e member => ?_⟩
  · rcases routed.micro p v member with old | ⟨u,among,ids,record,inside⟩
    · exact (kept.lists p).1 v old
    · exact microLocal indexes (groupMine kept u among).1 record v inside
  · rcases routed.large p e member with old | ⟨u,among,record⟩
    · exact (kept.lists p).2 e old
    · exact largeLocal indexes (groupMine kept u among).1 record

/- The emissions of the two decoders fit. -/
theorem expandFits (indexes : Indexes g x) {q : QueryMsg n D} (inside : me ∈ cfg.coreMachine)
    (flags : q.isCoreMachine = coreFlags cfg.coreMachine) {v : Nat} (mine : Mine g x cfg me v) :
    expandGain (strayWeight g x cfg) x cfg me q v = 0 := by
  unfold expandGain
  split
  · rename_i remote
    exact strayZero.mpr ⟨⟨mine.1,rfl⟩,mineElsewhere mine remote,inside,flags⟩
  · rename_i here
    have own : Local g x me v := ⟨mine.1,not_not.mp here⟩
    have outside : ∀ pid, q.isCoreMachine pid = false → pid ∉ cfg.coreMachine := by
      intro pid no
      rw [flags] at no
      exact of_decide_eq_false no
    refine lbGainZero me (fun deg ofs record => ?_) (fun pid ids record other u among => ?_)
      (fun pid ofs deg record other => ?_)
    · exact strayZero.mpr (sliceLocal indexes own record)
    · exact strayZero.mpr (outsideMine (microLocal indexes own.1 record u among) (outside pid other))
    · exact strayZero.mpr ⟨outside pid other,largeLocal indexes own.1 record⟩

omit [Distance D] in
theorem nodeFits [Zero D] (indexes : Indexes g x) {t : NodeTask n} (fits : NodeFits g x cfg me t) :
    nodeGain (strayWeight g x cfg) t (x.block t.nodeId) = 0 := by
  have outside : ∀ pid, t.isCoreMachine pid ≠ true → pid ∉ cfg.coreMachine := by
    intro pid no among
    rw [fits.flags] at no
    exact no (decide_eq_true among)
  refine nodeGainNone (fun pid ids record => ?_) (fun pid ofs deg record => ?_)
  · have own := microLocal indexes fits.owner.1 record
    split
    · exact strayZero.mpr ⟨own,fun e member => absurd member List.not_mem_nil⟩
    · rename_i other
      exact strayZero.mpr ⟨outside pid other,own⟩
  · have own := largeLocal indexes fits.owner.1 record
    split
    · refine strayZero.mpr ⟨fun v member => absurd member List.not_mem_nil,fun e member => ?_⟩
      rw [List.mem_singleton.mp member]
      exact own
    · rename_i other
      exact strayZero.mpr ⟨outside pid other,own⟩

/- What waits for the coroutine may become a candidate. -/
theorem offeredMine {m : Machine n D} (kept : Kept g x cfg me m.toQueryMsg)
    (absent : Absent (strayWeight g x cfg) me m) {c : D × Nat} (offered : Offered x me m c) : Mine g x cfg me c.2 := by
  rcases offered with ⟨t,among,inside⟩ | ⟨t,among,inside⟩ | ⟨ch,among,inside⟩ | inside | ⟨r,among,same⟩ | ⟨r,among,inside⟩
  · exact localMine (kept.tasks t among c.2 inside)
  · exact localMine (strayZero.mp (absent.baTaskQueue t among) c.2 inside)
  · exact strayZero.mp (absent.conTaskQueue ch among) c inside
  · exact localMine (kept.micro c.2 inside)
  · rw [same]
    exact strayZero.mp (absent.recvAsyncReadQueue r among)
  · exact strayZero.mp (absent.localRes r among) c inside

theorem resumedMine {m : Machine n D} {search : Search D} (kept : Kept g x cfg me m.toQueryMsg)
    (absent : Absent (strayWeight g x cfg) me m) (changed : ByCandidates cfg (Offered x me m) m.search search) :
    ∀ c ∈ search.candidateSet.elems, Mine g x cfg me c.2 := by
  refine changed (fun s => ∀ c ∈ s.candidateSet.elems, Mine g x cfg me c.2) ?_ kept.cands
  intro s d offered before
  unfold postProcCandidate
  split
  · intro c member
    rcases memPush.mp member with rfl | old
    · exact offeredMine kept absent offered
    · exact before c old
  · exact before

theorem forksFit {msgs : List (Fin n × QueryFork n D)}
    (all : ∀ c ∈ cfg.enterpoint :: cfg.evaluated, c.2 < cumupsize g.partitionSize n) (forks : Forks x cfg me msgs) :
    sumOf (fun e => (strayWeight g x cfg).query e.1 e.2) msgs = 0 := by
  refine sumNone (fun e member => ?_)
  obtain ⟨result,same⟩ := forks.2 e member
  rw [same]
  exact strayZero.mpr (filterredMine all)

theorem keptSynced {q : QueryMsg n D} (kept : Kept g x cfg me q) {micro : List Nat} {large : List (Nat × Nat)}
    (listed : (∀ v ∈ micro, Local g x me v) ∧ ∀ e ∈ large, ∀ v ∈ x.nghPtr me e.1 e.2, Local g x me v) :
    (∀ t ∈ q.localTask ++ large.map (fun e => ⟨e.2,e.1,true⟩), ∀ v ∈ x.nghPtr me t.offset t.deg, Local g x me v) ∧
      ∀ v ∈ q.localMicroTask ++ micro, Local g x me v := by
  refine ⟨fun t member => ?_,fun v member => ?_⟩
  · rcases List.mem_append.mp member with old | new
    · exact kept.tasks t old
    · obtain ⟨e,among,rfl⟩ := List.mem_map.mp new
      exact listed.2 e among
  · rcases List.mem_append.mp member with old | new
    · exact kept.micro v old
    · exact listed.1 v new

theorem keptNodeSynced {ms : List (NonCoreSyncMsg n)} {q : QueryMsg n D} (kept : Kept g x cfg me q)
    (fits : ∀ msg ∈ ms, (strayWeight g x cfg).nodeSync me msg = 0) : Kept g x cfg me (nodeSynced ms q) := by
  have before : Kept g x cfg me (if ms = [] then q else woken q) := by
    split
    · exact kept
    · exact keptWoken kept
  refine ⟨before.cands,?_,?_,before.lists⟩
  · intro t member
    rcases List.mem_append.mp member with old | new
    · exact kept.tasks t old
    · obtain ⟨msg,among,inside⟩ := List.mem_flatMap.mp new
      obtain ⟨e,listed,rfl⟩ := List.mem_map.mp inside
      exact (strayZero.mp (fits msg among)).2 e listed
  · intro v member
    rcases List.mem_append.mp member with old | new
    · exact kept.micro v old
    · obtain ⟨msg,among,inside⟩ := List.mem_flatMap.mp new
      exact (strayZero.mp (fits msg among)).1 v inside

theorem syncFits {q : QueryMsg n D} (lists : Listed g x q.coreMicroNgh q.coreLargeNgh) (p : Fin n) (token taint : Bool) :
    (strayWeight g x cfg).sync p (syncMsg q token taint) = 0 := strayZero.mpr lists

variable [Zero D]

theorem ownedEffect (indexes : Indexes g x)
    (all : ∀ c ∈ cfg.enterpoint :: cfg.evaluated, c.2 < cumupsize g.partitionSize n) {m m' : Machine n D}
    (effect : Effect x cfg me m m')
    (noOwn : ∀ t : ComputeTask n D, t.machineId = me → ¬∀ w, w.task me t ≤ total w me m)
    (running : m.coro = .top → me ∈ cfg.coreMachine ∧ m.isCoreMachine = coreFlags cfg.coreMachine)
    (kept : Kept g x cfg me m.toQueryMsg) (right : total (strayWeight g x cfg) me m = 0) :
    Kept g x cfg me m'.toQueryMsg ∧ total (strayWeight g x cfg) me m' = 0 := by
  cases effect with
  | moves ok =>
    rw [ok.query,ok.same]
    exact ⟨kept,right⟩
  | swaps query emptied sched same =>
    rw [query,same]
    exact ⟨kept,right⟩
  | waits msgs origin new idle outside forks query sched gain =>
    rw [query,gain,right,forksFit all forks]
    exact ⟨⟨kept.cands,kept.tasks,kept.micro,kept.lists⟩,rfl⟩
  | opens msgs origin new idle inside forks query sched gain =>
    rw [query,gain,right,forksFit all forks]
    refine ⟨⟨fun c member => ?_,kept.tasks,kept.micro,kept.lists⟩,rfl⟩
    rcases memPushAll.mp member with old | new
    · exact kept.cands c old
    · obtain ⟨d,among,rfl⟩ := List.mem_map.mp new
      exact filterredMine all d among
  | merges f running query sched loss =>
    have change := loss (strayWeight g x cfg)
    have fits : (strayWeight g x cfg).query me f = 0 := by omega
    rw [query]
    refine ⟨⟨fun c member => ?_,kept.tasks,kept.micro,kept.lists⟩,by omega⟩
    rcases memPushAll.mp member with old | new
    · exact absurd old notMemEmpty
    · obtain ⟨d,among,rfl⟩ := List.mem_map.mp new
      exact strayZero.mp fits d among
  | syncs msg running query sched loss =>
    have change := loss (strayWeight g x cfg)
    have fits : (strayWeight g x cfg).sync me msg = 0 := by omega
    rw [query]
    obtain ⟨tasks,micro⟩ := keptSynced kept (strayZero.mp fits me)
    exact ⟨keptWoken ⟨kept.cands,tasks,micro,kept.lists⟩,by omega⟩
  | nodeSyncs ms running query sched loss =>
    have change := loss (strayWeight g x cfg)
    rw [query]
    exact ⟨keptNodeSynced kept (sumZero (by omega)),by omega⟩
  | wakes running query sched same =>
    rw [query,same]
    exact ⟨keptWoken kept,right⟩
  | starts new queued query sched same =>
    rw [query,same]
    exact ⟨⟨kept.cands,kept.tasks,kept.micro,kept.lists⟩,right⟩
  | returns old queued query sched same =>
    rw [query,same]
    exact ⟨⟨kept.cands,kept.tasks,kept.micro,kept.lists⟩,right⟩
  | nodeTask t found other queued slice query sched change =>
    have changed := change (strayWeight g x cfg)
    have held := queued (strayWeight g x cfg)
    have fits : NodeFits g x cfg me t := strayZero.mp (Nat.le_zero.mp (held.trans right.le))
    have answer : (strayWeight g x cfg).nodeResult t.machineId ⟨nodePosts t (x.block t.nodeId),found,t.nodeId⟩ = 0 := by
      refine strayZero.mpr (fun c member => ?_)
      obtain ⟨deg,ofs,record,inside⟩ := slice c member
      exact outsideMine (sliceLocal indexes fits.owner record c.2 inside) fits.outside
    rw [nodeFits indexes fits,answer] at changed
    rw [query]
    exact ⟨kept,by omega⟩
  | task t found other queued slice query sched change =>
    have changed := change (strayWeight g x cfg)
    have held := queued (strayWeight g x cfg)
    obtain ⟨outside,ids⟩ := strayZero.mp (Nat.le_zero.mp (held.trans right.le))
    have answer : (strayWeight g x cfg).result t.machineId (taskResult t found) = 0 := by
      refine strayZero.mpr (fun c member => ?_)
      exact outsideMine (ids c.2 (slice c (List.mem_filter.mp member).1)) outside
    rw [answer] at changed
    rw [query]
    exact ⟨kept,by omega⟩
  | ownTask t own queued => exact absurd queued (noOwn t own)
  | chunk t found queued slice query sched change =>
    have changed := change (strayWeight g x cfg)
    have held := queued (strayWeight g x cfg)
    have ids := strayZero.mp (Nat.le_zero.mp (held.trans right.le))
    have fits : (strayWeight g x cfg).chunk me ⟨t.isCount,found⟩ = 0 :=
      strayZero.mpr (fun c member => localMine (ids c.2 (slice c member)))
    rw [fits] at changed
    rw [query]
    exact ⟨kept,by omega⟩
  | nodeResult r running queued query sched change =>
    have changed := change (strayWeight g x cfg)
    have held := queued (strayWeight g x cfg)
    have same : (strayWeight g x cfg).result me ⟨1,0,rfl,r.res,some r.node⟩ = (strayWeight g x cfg).nodeResult me r := rfl
    rw [same] at changed
    rw [query]
    exact ⟨keptWoken ⟨kept.cands,kept.tasks,kept.micro,kept.lists⟩,by omega⟩
  | resumes search suspended queued query sched changed idle loss =>
    have change := loss (strayWeight g x cfg)
    have cands := resumedMine kept ((totalAbsent _).mp right) changed
    rw [query]
    refine ⟨⟨cands,?_,?_,kept.lists⟩,by omega⟩
    · exact fun t member => absurd member List.not_mem_nil
    · exact fun v member => absurd member List.not_mem_nil
  | overruns finished queued query sched same =>
    rw [query,same]
    exact ⟨kept,right⟩
  | rests top noneLeft waiting query sched same =>
    rw [query,same]
    exact ⟨⟨kept.cands,kept.tasks,kept.micro,kept.lists⟩,right⟩
  | idles top noneLeft notPost query sched same =>
    rw [query,same]
    exact ⟨⟨kept.cands,kept.tasks,kept.micro,kept.lists⟩,right⟩
  | expands micro large add step lb msgs sent top some' query sched plain posted gain routed =>
    obtain ⟨inside,flags⟩ := running top
    have lists := listedRouted indexes kept routed.1
    have sentLists := listedRouted indexes kept routed.2
    rw [gain,right,sumNone (fun v member => expandFits indexes inside flags (groupMine kept v member)),
      sumNone (fun e _ => syncFits sentLists e.1 e.2 false)]
    refine ⟨⟨?_,?_,?_,lists⟩,rfl⟩
    · rw [query]
      exact fun c member => kept.cands c ((popGroupMem _ _ _).2 c member)
    · rw [query]
      exact kept.tasks
    · rw [query]
      exact kept.micro
  | pauses leaves several without query sched same =>
    rw [query,same]
    exact ⟨⟨kept.cands,kept.tasks,kept.micro,kept.lists⟩,right⟩
  | passes leaves several holder going query sched gain =>
    rw [query,gain,right,sumNone (fun e _ => syncFits kept.lists e.1 e.2 _)]
    refine ⟨⟨kept.cands,kept.tasks,kept.micro,fun p => ⟨?_,?_⟩⟩,rfl⟩
    · exact fun v member => absurd member List.not_mem_nil
    · exact fun e member => absurd member List.not_mem_nil
  | ends f cands ending query fewer sched fork gain =>
    -- what goes back to the origin has no candidates left
    have fits : (strayWeight g x cfg).query cfg.originMachine f = 0 := by
      refine strayZero.mpr (fun c member => ?_)
      obtain ⟨among,below⟩ := fork.2.2.2 c member
      exact absurd (noneWithin ending.leaves.noneLeft _ among) (not_lt.mpr below.le)
    rw [query,gain,right,fits,ite_self]
    exact ⟨⟨fun c member => kept.cands c (fewer c member),kept.tasks,kept.micro,kept.lists⟩,rfl⟩

end Steps

section Invariant

variable [Distance D] (g : GraphParts n) (x : Index n D) (cfg : Config n D)

structure Owned (s : Net n D) : Prop where
  counted : Counted x cfg s
  kept : ∀ p, Kept g x cfg p (s p).toQueryMsg
  right : totalAll (strayWeight g x cfg) s = 0

theorem startOwned : Owned g x cfg (start cfg) where
  counted := startCounted x cfg
  kept _ := by
    refine ⟨?_,?_,?_,fun p => ⟨?_,?_⟩⟩
    · exact fun c member => absurd member notMemEmpty
    · exact fun t member => absurd member List.not_mem_nil
    · exact fun v member => absurd member List.not_mem_nil
    · exact fun v member => absurd member List.not_mem_nil
    · exact fun e member => absurd member List.not_mem_nil
  right := startTotal cfg _

variable {g x cfg} {s t : Net n D} [Zero D]

theorem stepOwned (indexes : Indexes g x)
    (all : ∀ c ∈ cfg.enterpoint :: cfg.evaluated, c.2 < cumupsize g.partitionSize n) {act : Act n}
    (done' : step x cfg s act = some t) (ok : Owned g x cfg s) : Owned g x cfg t := by
  have counted := stepCounted done' ok.counted
  rcases stepCases done' with ⟨a,m',rfl,effect⟩ | ⟨same,totals⟩
  · have running : (s a).coro = .top → a ∈ cfg.coreMachine ∧ (s a).isCoreMachine = coreFlags cfg.coreMachine := by
      intro top
      obtain ⟨_,known,_⟩ := runningKnown ok.counted.rostered (p := a) (by rw [top]; rfl)
      exact ⟨known.inside,known.flags⟩
    obtain ⟨kept,right⟩ := ownedEffect indexes all effect (noOwnTask ok.counted a) running (ok.kept a) (totalAt ok.right a)
    refine ⟨counted,fun p => ?_,hostZero ok.right ?_⟩
    · rcases eq_or_ne p a with rfl | away
      · rw [Function.update_self]
        exact kept
      · rw [Function.update_of_ne away]
        exact ok.kept p
    · rw [right]
      exact Nat.zero_le _
  · refine ⟨counted,fun p => ?_,by rw [totals]; exact ok.right⟩
    rw [(same p).1]
    exact ok.kept p

theorem runOwned (indexes : Indexes g x)
    (all : ∀ c ∈ cfg.enterpoint :: cfg.evaluated, c.2 < cumupsize g.partitionSize n) {acts : List (Act n)}
    (ok : run (step x cfg) (start cfg) acts = some s) : Owned g x cfg s := by
  refine runInvariant (fun _ _ _ done' before => ?_) ok (startOwned g x cfg)
  exact stepOwned indexes all done' before

end Invariant

section Results

variable [Distance D] [Zero D] {g : GraphParts n} {x : Index n D} {cfg : Config n D} {s : Net n D}

def nodeTasks : Message n D → List (NodeTask n)
  | .task _ ns => ns
  | _ => []

omit [Distance D] [Zero D] in
theorem nodeTasksFit {p : Fin n} {msg : Message n D} (right : messageWeight (strayWeight g x cfg) p msg = 0) :
    ∀ t ∈ nodeTasks msg, NodeFits g x cfg p t := by
  cases msg with
  | task ts ns => exact fun t member => strayZero.mp (sumZero (Nat.add_eq_zero_iff.mp right).2 t member)
  | _ => exact fun t member => absurd member List.not_mem_nil

/- Who works on a vertex, in every reachable state: the candidates, the NodeTasks from
their queue to their execution, the tasks that other core machines gave. Neither abort
is reached: the decoder is called for vertices in its range, and no machine receives a
NodeTask of its own. -/
theorem ownership (indexes : Indexes g x)
    (all : ∀ c ∈ cfg.enterpoint :: cfg.evaluated, c.2 < cumupsize g.partitionSize n) {acts : List (Act n)}
    (ok : run (step x cfg) (start cfg) acts = some s) :
    (∀ p, ∀ c ∈ (s p).search.candidateSet.elems, x.getMachineId c.2 = p ∨ x.getMachineId c.2 ∉ cfg.coreMachine) ∧
    (∀ a p, ∀ t ∈ (s a).nodeTaskQueue p ++ ((s a).wire p).flatMap nodeTasks, p ∉ cfg.coreMachine ∧ p ≠ t.machineId) ∧
    (∀ p, ∀ t ∈ (s p).localTask, ∀ v ∈ x.nghPtr p t.offset t.deg, x.getMachineId v = p) ∧
    (∀ p, ∀ v ∈ (s p).localMicroTask, x.getMachineId v = p) ∧
    (∀ p, ∀ v ∈ (nextGroup (s p).toQueryMsg).1, x.getMachineId v = p →
      cumupsize g.partitionSize p ≤ v ∧ v < cumupsize g.partitionSize p + g.partitionSize p) ∧
    ∀ p, (s p).curNodeQueue ≠ [] → ∃ m', procNodeTask x p (s p) = some m' := by
  have owned := runOwned indexes all ok
  have absent := fun a => (totalAbsent _).mp (totalAt owned.right a)
  have apart : ∀ p t, NodeFits g x cfg p t → p ≠ t.machineId := by
    intro p t fits same
    rw [same] at fits
    exact fits.outside fits.sender
  refine ⟨fun p c member => ((owned.kept p).cands c member).2,fun a p t member => ?_,
    fun p t member v inside => ((owned.kept p).tasks t member v inside).2,
    fun p v member => ((owned.kept p).micro v member).2,fun p v member own => ?_,fun p some' => ?_⟩
  · have fits : NodeFits g x cfg p t := by
      rcases List.mem_append.mp member with queued | sent
      · exact strayZero.mp ((absent a).nodeTaskQueue p t queued)
      · obtain ⟨msg,among,inside⟩ := List.mem_flatMap.mp sent
        exact nodeTasksFit ((absent a).wire p msg among) t inside
    exact ⟨fits.outside,apart p t fits⟩
  · exact localRange indexes ⟨(groupMine (owned.kept p) v member).1,own⟩
  · unfold procNodeTask
    split
    · rename_i t rest queue
      have fits : NodeFits g x cfg p t := strayZero.mp ((absent p).curNodeQueue t (by rw [queue]; exact List.mem_cons_self))
      rw [if_neg (Ne.symm (apart p t fits))]
      exact ⟨_,rfl⟩
    · rename_i none'
      exact absurd none' some'

/- Vertex 0 on machine 0 with the neighbours 1, 2, 3 on machine 1. -/
def pairGraph : GraphParts 2 where
  partitionSize p := if p = 0 then 1 else 3
  maxDegree := 3
  medoid := 0
  rows p := if p = 0 then [[1,2,3]] else [[],[],[]]
  rowsLength := by decide
  degree := by decide
  target := by decide
  total := by decide

theorem pairBlock {p : Fin 2} {pre post : List (List Nat)} {row : List Nat} {r : Record 2}
    (part : pairGraph.rows p = pre ++ row :: post)
    (record : r ∈ pairIndex.block (cumupsize pairGraph.partitionSize p + pre.length)) : row = [1,2,3] ∧ r = .large 1 0 3 := by
  have size := congrArg List.length part
  rw [pairGraph.rowsLength,List.length_append,List.length_cons] at size
  rcases Fin.exists_fin_two.mp ⟨p,rfl⟩ with rfl | rfl
  · have first : pre = [] := by
      have one : pairGraph.partitionSize 0 = 1 := rfl
      exact List.length_eq_zero_iff.mp (by omega)
    subst first
    exact ⟨(List.cons.inj part).1.symm,List.mem_singleton.mp record⟩
  · -- the vertices of machine 1 have no neighbours
    have later : cumupsize pairGraph.partitionSize (1 : Fin 2) + pre.length ≠ 0 := by
      have one : cumupsize pairGraph.partitionSize (1 : Fin 2) = 1 := rfl
      omega
    have alone : pairIndex.block (cumupsize pairGraph.partitionSize (1 : Fin 2) + pre.length) = [] := if_neg later
    rw [alone] at record
    cases record

theorem pairIndexes : Indexes pairGraph pairIndex := by
  refine ⟨by decide,?_,?_,?_⟩
  · intro p pre row post part deg ofs record
    cases (pairBlock part record).2
  · intro p pre row post part pid ids record
    cases (pairBlock part record).2
  · intro p pre row post part pid ofs deg record
    obtain ⟨rfl,same⟩ := pairBlock part record
    cases same
    decide

theorem ownershipPair : ∃ s, run (step pairIndex pairConfig) (start pairConfig) (pairRun.take 12) = some s ∧
    ((s 0).nodeTaskQueue 1 ++ ((s 0).wire 1).flatMap nodeTasks).map NodeTask.nodeId = [3,2,1] ∧
    ∀ t ∈ (s 0).nodeTaskQueue 1 ++ ((s 0).wire 1).flatMap nodeTasks, (1 : Fin 2) ∉ pairConfig.coreMachine ∧ 1 ≠ t.machineId := by
  have last : (run (step pairIndex pairConfig) (start pairConfig) (pairRun.take 12)).map
      (fun s => ((s 0).nodeTaskQueue 1 ++ ((s 0).wire 1).flatMap nodeTasks).map NodeTask.nodeId) = some [3,2,1] := by
    decide +kernel
  obtain ⟨s,ok,value⟩ := Option.map_eq_some_iff.mp last
  exact ⟨s,ok,value,(ownership pairIndexes (by decide) ok).2.1 0 1⟩

end Results

end CoTra.Ownership
