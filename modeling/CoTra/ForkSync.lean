import CoTra.SubQueryEffects

/-! A fork and a SYNC that reach a core machine on different channels. The fork sets
top_candidates and lowerBound, the SYNC merges into them, so what a SYNC brought
before the fork is gone. -/
namespace CoTra.ForkSync
open Runs Priority SubQuery Spread SubQueryTotals SubQueryEffects

variable {n : Nat} {D : Type} [Distance D] (cfg : Config n D)

/- The same candidates, bound and pending tasks in both orders. -/
def Commutes (p : Fin n) (m : Machine n D) (f : QueryFork n D) (msg : SyncMsg n D) : Prop :=
  let late := deserialize cfg p (deserialize cfg p m (.sync msg)) (.query f)
  let early := deserialize cfg p (deserialize cfg p m (.query f)) (.sync msg)
  (popTo cfg.ef late.search.topCandidates).elems.Perm (popTo cfg.ef early.search.topCandidates).elems ∧
    late.search.lowerBound = early.search.lowerBound ∧ late.localTask = early.localTask ∧
    late.localMicroTask = early.localMicroTask

/- The SYNC brings nothing that the fork's candidates would make room for. -/
def Rejected (msg : SyncMsg n D) : Prop :=
  cfg.ef = 0 ∨ ∀ c ∈ msg.localAddCand,
    cfg.ef ≤ size (preStage cfg).preTopCand ∧ (preStage cfg).lowerBound ≤ c.1

section PreStage

/- The bound is the distance of the farthest candidate. -/
structure Bounded (s : PreStage D) : Prop where
  top : ∃ c, top s.preTopCand = some c ∧ c.1 = s.lowerBound
  few : size s.preTopCand ≤ cfg.ef

variable {cfg}

theorem topSome {q : PQueue D Nat} (pos : 0 < size q) : ∃ c, top q = some c := by
  cases first : top q with
  | some c => exact ⟨c,rfl⟩
  | none =>
    have none' := topNone first
    rw [size,none'] at pos
    cases pos

theorem topProcBounded (pos : 0 < cfg.ef) {s : PreStage D} (c : D × Nat) (ok : Bounded cfg s) :
    Bounded cfg (topProcCandidate cfg.ef s c) := by
  unfold topProcCandidate
  split
  · have few : size (popTo cfg.ef (push s.preTopCand c)) = min (size s.preTopCand + 1) cfg.ef := by
      rw [sizePopTo,sizePush]
    obtain ⟨first,at'⟩ := topSome (q := popTo cfg.ef (push s.preTopCand c)) (by omega)
    exact ⟨⟨first,at',by simp [topBound,at']⟩,by simp only [few]; omega⟩
  · exact ok

theorem preStageBounded (pos : 0 < cfg.ef) : Bounded cfg (preStage cfg) := by
  have all : ∀ (cs : List (D × Nat)) (s : PreStage D), Bounded cfg s →
      Bounded cfg (cs.foldl (topProcCandidate cfg.ef) s) := by
    intro cs
    induction cs with
    | nil => exact fun s ok => ok
    | cons c rest ih => exact fun s ok => ih _ (topProcBounded pos c ok)
  have few : size (push empty cfg.enterpoint) ≤ cfg.ef := by
    rw [size,pushEmpty]
    exact pos
  exact all _ _ ⟨⟨cfg.enterpoint,topPushEmpty cfg.enterpoint,rfl⟩,few⟩

end PreStage

section Orders

def merge (cs : List (D × Nat)) (bound : D) (q : PQueue D Nat) : PQueue D Nat :=
  cs.foldl (fun top c => addCand cfg c bound top) q

theorem mergeGrows (bound : D) (cs : List (D × Nat)) (q : PQueue D Nat) : size q ≤ size (merge cfg cs bound q) := by
  induction cs generalizing q with
  | nil => exact le_rfl
  | cons c rest ih =>
    have step : merge cfg (c :: rest) bound q = merge cfg rest bound (addCand cfg c bound q) := rfl
    rw [step]
    refine le_trans ?_ (ih _)
    unfold addCand
    split
    · rw [sizePush]
      omega
    · exact le_rfl

theorem wakePending (m : Machine n D) : (wake m).search = m.search ∧ (wake m).localTask = m.localTask ∧
    (wake m).localMicroTask = m.localMicroTask := by
  unfold wake
  split <;> exact ⟨rfl,rfl,rfl⟩

variable {cfg}

theorem lateMerge (cfg : Config n D) (p : Fin n) (m : Machine n D) (f : QueryFork n D) (msg : SyncMsg n D) :
    let late := deserialize cfg p (deserialize cfg p m (.sync msg)) (.query f)
    late.search.topCandidates = pushAll empty f.topCandidates ∧ late.search.lowerBound = f.lowerBound ∧
      late.localTask = m.localTask ++ (msg.coreLargeNgh p).map (fun e => ⟨e.2,e.1,true⟩) ∧
      late.localMicroTask = m.localMicroTask ++ msg.coreMicroNgh p := by
  obtain ⟨_,tasks,micro⟩ := wakePending { m with toQueryMsg := updateSubQuery cfg p msg m.toQueryMsg }
  exact ⟨rfl,rfl,tasks,micro⟩

theorem earlyMerge (cfg : Config n D) (p : Fin n) (m : Machine n D) (f : QueryFork n D) (msg : SyncMsg n D) :
    let early := deserialize cfg p (deserialize cfg p m (.query f)) (.sync msg)
    early.search.topCandidates =
        popTo cfg.ef (merge cfg msg.localAddCand f.lowerBound (pushAll empty f.topCandidates)) ∧
      early.search.lowerBound = topBound early.search.topCandidates f.lowerBound ∧
      early.localTask = m.localTask ++ (msg.coreLargeNgh p).map (fun e => ⟨e.2,e.1,true⟩) ∧
      early.localMicroTask = m.localMicroTask ++ msg.coreMicroNgh p := by
  obtain ⟨search,tasks,micro⟩ := wakePending { deserializeAndMerge f m with
    toQueryMsg := updateSubQuery cfg p msg (deserializeAndMerge f m).toQueryMsg }
  simp only [deserialize,search]
  exact ⟨rfl,rfl,tasks,micro⟩

/- A full queue takes what is below the bound. -/
theorem mergeFull {q : PQueue D Nat} (full : cfg.ef ≤ size q) (bound : D) (cs : List (D × Nat)) :
    merge cfg cs bound q = pushAll q (cs.filter (fun c => c.1 < bound)) := by
  induction cs generalizing q with
  | nil => rfl
  | cons c rest ih =>
    have step : merge cfg (c :: rest) bound q = merge cfg rest bound (addCand cfg c bound q) := rfl
    rw [step]
    unfold addCand
    rcases lt_or_ge c.1 bound with below | above
    · rw [if_pos (.inr below),ih (by rw [sizePush]; omega),List.filter_cons,if_pos (decide_eq_true below)]
      rfl
    · rw [if_neg (not_or.mpr ⟨Nat.not_lt.mpr full,not_lt.mpr above⟩),ih full,List.filter_cons,
        if_neg (by rw [decide_eq_true_eq]; exact not_lt.mpr above)]

/- A queue with room takes the first candidate. -/
theorem mergeRoom {q : PQueue D Nat} (room : size q < cfg.ef) (bound : D) {cs : List (D × Nat)} (some' : cs ≠ []) :
    size q < size (merge cfg cs bound q) := by
  cases cs with
  | nil => exact absurd rfl some'
  | cons c rest =>
    have step : merge cfg (c :: rest) bound q = merge cfg rest bound (addCand cfg c bound q) := rfl
    have first : addCand cfg c bound q = push q c := if_pos (.inl room)
    have more := mergeGrows cfg bound rest (push q c)
    rw [step,first]
    rw [sizePush] at more
    omega

/- Below the farthest element a push drives one of the farthest out. -/
theorem drivenOut {q : PQueue D Nat} {c : D × Nat} (first : top q = some c) {cs : List (D × Nat)}
    (below : ∀ e ∈ cs, e.1 < c.1) (some' : cs ≠ []) (bound : Nat) (full : size q = bound) :
    ¬q.elems.Perm (popTo bound (pushAll q cs)).elems := by
  intro same
  have perm := pushAllPerm q cs
  have far : (pushAll q cs).elems.countP (fun e => e.1 = c.1) = q.elems.countP (fun e => e.1 = c.1) := by
    rw [perm.countP_eq,List.countP_append]
    have none' : cs.countP (fun e => decide (e.1 = c.1)) = 0 := by
      refine List.countP_eq_zero.mpr (fun e member => ?_)
      rw [decide_eq_true_eq]
      exact (below e member).ne
    omega
  -- the front of the longer queue is as far as before, and it is dropped
  have inside : c ∈ (pushAll q cs).elems := by
    rw [perm.mem_iff]
    exact List.mem_append_left _ (topMem first)
  have length : (pushAll q cs).elems.length = bound + cs.length := by
    rw [perm.length_eq,List.length_append,← full]
    rfl
  have kept : (popTo bound (pushAll q cs)).elems = (pushAll q cs).elems.drop cs.length := by
    rw [popToElems,length,Nat.add_sub_cancel_left]
  have pos : 0 < cs.length := List.length_pos_iff.mpr some'
  cases shape : (pushAll q cs).elems with
  | nil =>
    rw [shape] at inside
    cases inside
  | cons e rest =>
    have largest : e.1 = c.1 := by
      refine le_antisymm ?_ (topLargest (q := pushAll q cs) (by rw [topHead,shape]; rfl) c inside)
      have among : e ∈ q.elems ++ cs := by
        rw [← perm.mem_iff,shape]
        exact List.mem_cons_self
      rcases List.mem_append.mp among with old | new
      · exact topLargest first e old
      · exact (below e new).le
    have counts := same.countP_eq (fun e => decide (e.1 = c.1))
    rw [kept,← far,shape] at counts
    have split := congrArg (List.countP (fun e => decide (e.1 = c.1))) (List.take_append_drop cs.length (e :: rest))
    rw [List.countP_append] at split
    have one : 0 < ((e :: rest).take cs.length).countP (fun e => decide (e.1 = c.1)) := by
      refine List.countP_pos_iff.mpr ⟨e,?_,decide_eq_true largest⟩
      cases count : cs.length with
      | zero => omega
      | succ k => exact List.mem_cons_self
    omega

/- The candidates that the fork brings, as the receiver holds them. -/
theorem forkedBounded (pos : 0 < cfg.ef) :
    let held := pushAll empty (preStage cfg).preTopCand.elems
    size held = size (preStage cfg).preTopCand ∧ size held ≤ cfg.ef ∧
      ∃ c, top held = some c ∧ c.1 = (preStage cfg).lowerBound := by
  have perm : (pushAll empty (preStage cfg).preTopCand.elems).elems.Perm (preStage cfg).preTopCand.elems :=
    pushAllEmpty (preStage cfg).preTopCand.elems
  obtain ⟨⟨far,first,bound⟩,few⟩ := preStageBounded pos
  have same : size (pushAll empty (preStage cfg).preTopCand.elems) = size (preStage cfg).preTopCand := perm.length_eq
  have some' : 0 < size (preStage cfg).preTopCand := List.length_pos_of_mem (topMem first)
  obtain ⟨c,at'⟩ := topSome (q := pushAll empty (preStage cfg).preTopCand.elems) (by omega)
  refine ⟨same,by omega,c,at',?_⟩
  rw [← bound]
  exact le_antisymm (topLargest first c (perm.mem_iff.mp (topMem at')))
    (topLargest at' far (perm.mem_iff.mpr (topMem first)))

theorem forkSyncExact (x : Index n D) (p : Fin n) (m : Machine n D) (result : List (D × Nat)) (msg : SyncMsg n D) :
    Commutes cfg p m (forked x cfg p result) msg ↔ Rejected cfg msg := by
  obtain ⟨lateTop,lateBound,lateTask,lateMicro⟩ := lateMerge cfg p m (forked x cfg p result) msg
  obtain ⟨earlyTop,earlyBound,earlyTask,earlyMicro⟩ := earlyMerge cfg p m (forked x cfg p result) msg
  simp only [Commutes]
  rw [earlyBound,lateTop,lateBound,lateTask,lateMicro,earlyTop,earlyTask,earlyMicro]
  simp only [forked,and_self,and_true]
  rcases Nat.eq_zero_or_pos cfg.ef with zero | pos
  · refine ⟨fun _ => .inl zero,fun _ => ⟨?_,?_⟩⟩
    · rw [zero,popToZero,popToZero]
    · rw [zero,topBound,topHead,popToZero]
      rfl
  obtain ⟨same,few,c,first,bound⟩ := forkedBounded pos
  generalize pushAll empty (preStage cfg).preTopCand.elems = held at same few first ⊢
  have short : popTo cfg.ef held = held := popToAll few
  have again : ∀ q : PQueue D Nat, popTo cfg.ef (popTo cfg.ef q) = popTo cfg.ef q :=
    fun q => popToAll (by rw [sizePopTo]; omega)
  rw [again,short]
  constructor
  · rintro ⟨perm,_⟩
    refine .inr (fun e member => ?_)
    have full : cfg.ef ≤ size held := by
      by_contra room
      have more := mergeRoom (Nat.not_le.mp room) (preStage cfg).lowerBound (List.ne_nil_of_mem member)
      have length : size held = size (popTo cfg.ef (merge cfg msg.localAddCand (preStage cfg).lowerBound held)) :=
        perm.length_eq
      rw [sizePopTo] at length
      omega
    refine ⟨by omega,?_⟩
    by_contra below
    rw [mergeFull full] at perm
    refine drivenOut first (fun e' among => ?_) ?_ cfg.ef (by omega) perm
    · rw [bound]
      exact of_decide_eq_true (List.mem_filter.mp among).2
    · exact List.ne_nil_of_mem (List.mem_filter.mpr ⟨member,decide_eq_true (not_le.mp below)⟩)
  · intro rejected
    have all := rejected.resolve_left (by omega)
    have kept : merge cfg msg.localAddCand (preStage cfg).lowerBound held = held := by
      cases cands : msg.localAddCand with
      | nil => rfl
      | cons e rest =>
        rw [cands] at all
        have full : cfg.ef ≤ size held := by
          rw [same]
          exact (all e List.mem_cons_self).1
        rw [mergeFull full,List.filter_eq_nil_iff.mpr (fun e' member => ?_)]
        · rfl
        · rw [decide_eq_true_eq]
          exact not_lt.mpr (all e' member).2
    rw [kept,short]
    refine ⟨List.Perm.refl _,?_⟩
    simp only [topBound,first,bound]

/- The origin 0 is no core machine; the leader 1 expands the chain 1, 3, 5, 7 and sends
its periodic SYNC to machine 2 while the fork for 2 is still on its way. -/
def lateIndex : Index 3 Nat where
  getMachineId v := if v = 0 then 0 else if v % 2 = 1 then 1 else 2
  block v := if v % 2 = 1 ∧ v < 9 then [.localNgh 1 (v + 2)] else []
  nghPtr _ ofs _ := [ofs]
  dist v := if v = 2 then 6 else 5 - v / 2
  kmeansPosLabelMap v := v
  foreign v r member := by
    by_cases chain : v % 2 = 1 ∧ v < 9
    · rw [if_pos chain] at member
      rw [List.mem_singleton.mp member]
      intro no
      cases no
    · rw [if_neg chain] at member
      cases member

def lateConfig : Config 3 Nat where
  ef := 10
  resKnn := 2
  originMachine := 0
  leaderMachine := 1
  coreMachine := [1,2]
  coreNodup := by decide
  leaderCore := by decide
  enterpoint := (5,1)
  evaluated := [(6,2)]
  once := by decide
  unset := 0

def leaderTurn : List (Act 3) := [.host 1 .loopTop,.host 1 .swapTaskQueue,.host 1 .procSubquery]

def lateRun : List (Act 3) :=
  [.host 0 .searchSub,.deliver 0 1,.host 1 (.poll .query),.host 1 .procQuery] ++
    (leaderTurn ++ leaderTurn ++ leaderTurn ++ [.host 1 .loopTop,.deliver 1 2,.deliver 0 2])

-- What is on top at machine 2 after the two messages.
def topAfter (order : List (Act 3)) : Option (List (Nat × Nat)) :=
  (run (step lateIndex lateConfig) (start lateConfig) (lateRun ++ order)).map
    (fun s => (popTo lateConfig.ef (s 2).search.topCandidates).elems)

theorem syncLost : ∃ early late, topAfter [.host 2 (.poll .query),.host 2 (.poll .sync)] = some early ∧
    topAfter [.host 2 (.poll .sync),.host 2 (.poll .query)] = some late ∧
    (2,7) ∈ early ∧ (2,7) ∉ late ∧ ¬late.Perm early := by
  have first : topAfter [.host 2 (.poll .query),.host 2 (.poll .sync)] = some [(6,2),(5,1),(4,3),(3,5),(2,7)] := by
    decide +kernel
  have second : topAfter [.host 2 (.poll .sync),.host 2 (.poll .query)] = some [(6,2),(5,1)] := by decide +kernel
  refine ⟨_,_,first,second,by decide,by decide,fun same => ?_⟩
  have length := same.length_eq
  exact absurd length (by decide)

end Orders

end CoTra.ForkSync
