import CoTra.Runs
import CoTra.Spread
import CoTra.Smallest
import Mathlib.Data.List.FinRange

/-! The kmeans batch search (scala_search.h: dispatch_kmeans_query_start, b2_deal_local,
localSearchKnn; rdma_comm.h: post_b2_end, poll_b2_end): one thread of the machine `me`
sends its queries out and merges what comes back. exec_query.h calls b2_deal_local right
after a dispatch, so the local search is done before the thread polls again. What the
members find (`reportOf`) and what the local search finds (`found`) are arbitrary. -/
namespace CoTra.B2Merge
open Runs Priority Spread Smallest

-- std::pair<dist_t, labeltype>, ordered by distance and then by label
abbrev Res (D : Type) := D ×ₗ Nat

variable {n : Nat} {D : Type} [LinearOrder D] [Queue D] [Queue (Res D)]

/- `sent` are the machines it went to, `reports` the lists that were merged; no operation
reads them. -/
structure B2Query (n : Nat) (D : Type) [LinearOrder D] [Queue (Res D)] where
  dispatched : Bool
  b2DispatchedNum : Nat
  b2RecvNum : Nat
  ongoing : Bool
  result : PQueue (Res D) Unit
  sent : List (Fin n)
  reports : List (List (Res D))

/- The thread, and what is under way: B2_START to every member, its searches' B2_END. -/
structure State (n : Nat) (D : Type) [LinearOrder D] [Queue (Res D)] where
  query : Nat → B2Query n D
  b2QueryQueue : List Nat
  b2EndQueue : List (Nat × List (Res D))
  b2FinishedQueue : List Nat
  ret : List Nat
  starts : Fin n → List Nat
  ends : Fin n → List (Nat × List (Res D))

variable (me : Fin n) (k : Nat) (getExternalLabel : Nat → Nat) (found : Nat → PQueue D Nat)
  (reportOf : Fin n → Nat → List (Res D))

def setQuery (s : State n D) (qid : Nat) (b : B2Query n D) : State n D :=
  { s with query := Function.update s.query qid b }

/- One machine of the loop; `bar` selects the machines, in the source all of them. -/
def dispatchTo (qid : Nat) (bar : Fin n → Bool) (s : State n D) (m : Fin n) : State n D :=
  if bar m then
    let b := s.query qid
    let s := setQuery s qid { b with b2DispatchedNum := b.b2DispatchedNum + 1, sent := b.sent ++ [m] }
    if m = me then { s with b2QueryQueue := s.b2QueryQueue ++ [qid] }
    else { s with starts := Function.update s.starts m (s.starts m ++ [qid]) }
  else s

def dispatchKmeansQueryStart (qid : Nat) (bar : Fin n → Bool) (s : State n D) : Option (State n D) :=
  if s.b2QueryQueue = [] ∧ (s.query qid).dispatched = false then
    let b := s.query qid
    some ((List.finRange n).foldl (dispatchTo me qid bar)
      (setQuery s qid { b with dispatched := true, ongoing := true, b2DispatchedNum := 0, b2RecvNum := 0 }))
  else none

def push' (b : B2Query n D) (report : List (Res D)) : B2Query n D :=
  { b with result := pushAll b.result (report.map (fun r => (r,()))), reports := b.reports ++ [report] }

/- b2_recv_num++, and the test for the last report. -/
def received (s : State n D) (qid : Nat) : State n D :=
  let b := s.query qid
  let b := { b with b2RecvNum := b.b2RecvNum + 1 }
  if b.b2RecvNum = b.b2DispatchedNum then
    { setQuery s qid { b with ongoing := false } with b2FinishedQueue := s.b2FinishedQueue ++ [qid] }
  else setQuery s qid b

/- localSearchKnn: `found` is what searchBaseLayerST gives. -/
def localReport (qid : Nat) : List (Res D) :=
  (popTo k (found qid)).elems.map (fun c => toLex (c.1,getExternalLabel c.2))

def report (m : Fin n) (qid : Nat) : List (Res D) :=
  if m = me then localReport k getExternalLabel found qid else reportOf m qid

-- One query of the loop of b2_deal_local.
def b2DealLocal (s : State n D) : Option (State n D) :=
  match s.b2QueryQueue with
  | qid :: rest =>
    let s := setQuery { s with b2QueryQueue := rest } qid (push' (s.query qid) (localReport k getExternalLabel found qid))
    if (s.query qid).ongoing then some (received s qid) else none
  | [] => none

-- One message of poll_b2_end.
def pollB2End (s : State n D) : Option (State n D) :=
  match s.b2EndQueue with
  | (qid,report) :: rest =>
    if s.b2QueryQueue = [] then
      let b := push' (s.query qid) report
      some (received (setQuery { s with b2EndQueue := rest } qid { b with result := popTo k b.result }) qid)
    else none
  | [] => none

def takeFinished (s : State n D) : State n D := { s with ret := s.ret ++ s.b2FinishedQueue, b2FinishedQueue := [] }

-- A member searches for its next query and posts the report.
def member (m : Fin n) (s : State n D) : Option (State n D) :=
  match s.starts m with
  | qid :: rest => some { s with
      starts := Function.update s.starts m rest
      ends := Function.update s.ends m (s.ends m ++ [(qid,reportOf m qid)]) }
  | [] => none

def deliver (m : Fin n) (s : State n D) : Option (State n D) :=
  match s.ends m with
  | msg :: rest => some { s with ends := Function.update s.ends m rest, b2EndQueue := s.b2EndQueue ++ [msg] }
  | [] => none

inductive Act (n : Nat) where
  | dispatch (qid : Nat) (bar : Fin n → Bool)
  | dealLocal
  | pollEnd
  | takeFinished
  | member (m : Fin n)
  | deliver (m : Fin n)

def step (s : State n D) : Act n → Option (State n D)
  | .dispatch qid bar => dispatchKmeansQueryStart me qid bar s
  | .dealLocal => b2DealLocal k getExternalLabel found s
  | .pollEnd => pollB2End k s
  | .takeFinished => some (takeFinished s)
  | .member m => member reportOf m s
  | .deliver m => deliver m s

def fresh : B2Query n D := ⟨false,0,0,false,empty,[],[]⟩

def start : State n D := ⟨fun _ => fresh,[],[],[],[],fun _ => [],fun _ => []⟩

section Pending

variable (q : Nat)

def isQid (p : Nat) : Nat := if p = q then 1 else 0

-- The reports of a query that are still to come, each with its weight.
def pending (s : State n D) (f : List (Res D) → Nat) : Nat :=
  sumOf (fun p => isQid q p * f (localReport k getExternalLabel found p)) s.b2QueryQueue +
    spread (fun m p => isQid q p * f (reportOf m p)) s.starts + spread (fun _ e => isQid q e.1 * f e.2) s.ends +
    sumOf (fun e => isQid q e.1 * f e.2) s.b2EndQueue

def pushes (s : State n D) : Nat := (s.b2FinishedQueue ++ s.ret).count q

end Pending

section Invariant

/- One query: the lists its machines report, how many of them are queued at the thread
itself and which are under way, and how often it was pushed to the finished queue. -/
structure QueryOk (k : Nat) (b : B2Query n D) (lists : List (List (Res D))) (queued : Nat)
    (pend : (List (Res D) → Nat) → Nat) (times : Nat) : Prop where
  fresh : b.dispatched = false → b.ongoing = false ∧ b.sent = []
  sizes : lists.length = b.sent.length
  sent : b.b2DispatchedNum = b.sent.length
  count : ∀ f, sumOf f b.reports + pend f = sumOf f lists
  reports : b.reports.length = b.b2RecvNum
  pushed : times = if 0 < b.b2DispatchedNum ∧ b.b2RecvNum = b.b2DispatchedNum then 1 else 0
  ongoing : b.dispatched = true → (b.ongoing = true ↔ times = 0)
  smallest : IsSmallest k (b.reports.flatten : Multiset (Res D)) (keys b.result)
  first : 0 < queued → b.b2RecvNum = 0
  single : queued ≤ 1

def Merged (s : State n D) : Prop :=
  ∀ q, QueryOk k (s.query q) ((s.query q).sent.map (fun m => report me k getExternalLabel found reportOf m q))
    (sumOf (isQid q) s.b2QueryQueue) (pending k getExternalLabel found reportOf q s) (pushes q s)

variable {me k getExternalLabel found reportOf} {s t : State n D} {b : B2Query n D}
  {lists : List (List (Res D))} {queued times : Nat} {pend pend' : (List (Res D) → Nat) → Nat}

theorem isQidSelf (q : Nat) : isQid q q = 1 := if_pos rfl

theorem isQidOther {p q : Nat} (other : p ≠ q) : isQid q p = 0 := if_neg other

theorem startMerged : Merged me k getExternalLabel found reportOf (start : State n D) := by
  intro q
  have none' : keys (empty : PQueue (Res D) Unit) = 0 := by rw [keys,emptyElems]; rfl
  have smallest : IsSmallest k (0 : Multiset (Res D)) (keys (empty : PQueue (Res D) Unit)) := by
    rw [none']
    exact smallestSelf (Nat.zero_le k)
  refine ⟨fun _ => ⟨rfl,rfl⟩,rfl,rfl,fun f => ?_,rfl,rfl,?_,smallest,?_,Nat.zero_le 1⟩
  · simp only [pending,start,fresh,sumNil,spreadNil,List.map_nil]
  · intro no
    cases no
  · intro no
    exact absurd no (lt_irrefl 0)

omit [Queue D] in
theorem QueryOk.total (ok : QueryOk k b lists queued pend times) :
    b.b2RecvNum + pend (fun _ => 1) = b.b2DispatchedNum := by
  have count := ok.count (fun _ => 1)
  rw [sumOnes,sumOnes,ok.reports,ok.sizes,← ok.sent] at count
  exact count

/- A report for the query is merged. -/
omit [Queue D] in
theorem reportedOk (ok : QueryOk k b lists queued pend times) (result : PQueue (Res D) Unit)
    {found' : List (Res D)} (taken : ∀ f, pend f = pend' f + f found')
    (smallest : IsSmallest k ((b.reports ++ [found']).flatten : Multiset (Res D)) (keys result)) :
    QueryOk k { b with
      result := result
      reports := b.reports ++ [found']
      b2RecvNum := b.b2RecvNum + 1
      ongoing := if b.b2RecvNum + 1 = b.b2DispatchedNum then false else b.ongoing } lists 0 pend'
      (times + if b.b2RecvNum + 1 = b.b2DispatchedNum then 1 else 0) := by
  have total := ok.total
  rw [taken] at total
  have before : times = 0 := by
    rw [ok.pushed,if_neg]
    omega
  refine ⟨fun new => ?_,ok.sizes,ok.sent,fun f => ?_,?_,?_,fun old => ?_,smallest,fun no => ?_,Nat.zero_le 1⟩
  · have none' := (ok.fresh new).2
    have sent := ok.sent
    rw [none',List.length_nil] at sent
    omega
  · have count := ok.count f
    rw [taken] at count
    simp only [sumAppend,sumCons,sumNil]
    omega
  · rw [List.length_append,ok.reports]
    rfl
  · simp only [before]
    split
    · rw [if_pos ⟨by omega,by assumption⟩]
    · rw [if_neg (fun both => by omega)]
  · have running := (ok.ongoing old).mpr before
    simp only [before]
    split <;> simp [running]
  · cases no

omit [Queue D] in
theorem localSmallest (ok : QueryOk k b lists queued pend times) (first : b.b2RecvNum = 0)
    {found' : List (Res D)} (few : found'.length ≤ k) :
    IsSmallest k ((b.reports ++ [found']).flatten : Multiset (Res D)) (keys (push' b found').result) := by
  have none' : b.reports = [] := List.length_eq_zero_iff.mp (ok.reports.trans first)
  have empty' : keys b.result = 0 := by
    have count := ok.smallest.count
    rw [none'] at count
    exact Multiset.card_eq_zero.mp (count.trans (Nat.min_zero k))
  have same : keys (push' b found').result = (found' : Multiset (Res D)) := by
    rw [push',keysPushAll,empty',zero_add,List.map_map]
    exact congrArg _ (List.map_id found')
  rw [same,none',List.nil_append,List.flatten_singleton]
  exact smallestSelf few

omit [Queue D] in
theorem remoteSmallest (ok : QueryOk k b lists queued pend times) (found' : List (Res D)) :
    IsSmallest k ((b.reports ++ [found']).flatten : Multiset (Res D)) (keys (popTo k (push' b found').result)) := by
  have cut := popToSmallest k (push' b found').result
  have same : keys (push' b found').result = keys b.result + (found' : Multiset (Res D)) := by
    rw [push',keysPushAll,List.map_map]
    exact congrArg (fun xs : List (Res D) => keys b.result + (xs : Multiset (Res D))) (List.map_id found')
  rw [same] at cut
  rw [List.flatten_append,List.flatten_singleton,← Multiset.coe_add]
  exact ok.smallest.add cut

omit [Queue D] in
/- What received does to every query. -/
theorem receivedShape (s : State n D) (qid : Nat) :
    (received s qid).query = Function.update s.query qid { s.query qid with
      b2RecvNum := (s.query qid).b2RecvNum + 1
      ongoing := if (s.query qid).b2RecvNum + 1 = (s.query qid).b2DispatchedNum then false else (s.query qid).ongoing } ∧
    (received s qid).b2QueryQueue = s.b2QueryQueue ∧ ∀ q, pushes q (received s qid) = pushes q s +
      if q = qid ∧ (s.query qid).b2RecvNum + 1 = (s.query qid).b2DispatchedNum then 1 else 0 := by
  unfold received
  simp only
  split
  · rename_i last
    refine ⟨rfl,rfl,fun q => ?_⟩
    simp only [pushes,setQuery,List.count_append,List.count_singleton,last,and_true]
    rcases eq_or_ne q qid with rfl | other
    · simp
      omega
    · simp [other,Ne.symm other]
  · rename_i more
    refine ⟨rfl,rfl,fun q => ?_⟩
    rw [if_neg (fun both => more both.2)]
    rfl

theorem receivedPending (s : State n D) (qid q : Nat) :
    pending k getExternalLabel found reportOf q (received s qid) = pending k getExternalLabel found reportOf q s := by
  unfold received
  simp only
  split <;> rfl

/- A step that changes one query only. -/
theorem mergedAt (merged : Merged me k getExternalLabel found reportOf s) (qid : Nat)
    (same : ∀ q, q ≠ qid → t.query q = s.query q ∧
      sumOf (isQid q) t.b2QueryQueue = sumOf (isQid q) s.b2QueryQueue ∧
      pending k getExternalLabel found reportOf q t = pending k getExternalLabel found reportOf q s ∧
      pushes q t = pushes q s)
    (here : QueryOk k (t.query qid)
      ((t.query qid).sent.map (fun m => report me k getExternalLabel found reportOf m qid))
      (sumOf (isQid qid) t.b2QueryQueue) (pending k getExternalLabel found reportOf qid t) (pushes qid t)) :
    Merged me k getExternalLabel found reportOf t := by
  intro q
  rcases eq_or_ne q qid with rfl | other
  · exact here
  · obtain ⟨query,queued,pend,times⟩ := same q other
    rw [query,queued,pend,times]
    exact merged q

end Invariant

section Steps

variable {me k getExternalLabel found reportOf} {s t : State n D}

structure Dispatching (me : Fin n) (k : Nat) (getExternalLabel : Nat → Nat) (found : Nat → PQueue D Nat)
    (reportOf : Fin n → Nat → List (Res D)) (qid : Nat) (left : List (Fin n)) (s : State n D) : Prop where
  merged : Merged me k getExternalLabel found reportOf s
  dispatched : (s.query qid).dispatched = true
  none : (s.query qid).b2RecvNum = 0
  own : me ∈ left → sumOf (isQid qid) s.b2QueryQueue = 0

omit [Queue D] in
theorem dispatchedOne {b : B2Query n D} {lists : List (List (Res D))} {queued queued' times : Nat}
    {pend pend' : (List (Res D) → Nat) → Nat} (ok : QueryOk k b lists queued pend times) (m : Fin n)
    {found' : List (Res D)} (more : ∀ f, pend' f = pend f + f found')
    (dispatched : b.dispatched = true) (none' : b.b2RecvNum = 0) (single : queued' ≤ 1) :
    QueryOk k { b with b2DispatchedNum := b.b2DispatchedNum + 1, sent := b.sent ++ [m] } (lists ++ [found'])
      queued' pend' times := by
  have before : times = 0 := by
    rw [ok.pushed,if_neg]
    omega
  refine ⟨fun new => ?_,?_,?_,fun f => ?_,ok.reports,?_,ok.ongoing,ok.smallest,fun _ => none',single⟩
  · exact absurd (new.symm.trans dispatched) Bool.false_ne_true
  · rw [List.length_append,List.length_append,ok.sizes]
    rfl
  · rw [List.length_append,← ok.sent]
    rfl
  · have count := ok.count f
    rw [more,sumAppend,sumCons,sumNil,← count]
    simp only
    omega
  · rw [before,if_neg]
    simp only
    omega

theorem dispatchToKeeps {qid : Nat} (bar : Fin n → Bool) {m : Fin n} {left : List (Fin n)} (fresh' : m ∉ left)
    (before : Dispatching me k getExternalLabel found reportOf qid (m :: left) s) :
    Dispatching me k getExternalLabel found reportOf qid left (dispatchTo me qid bar s m) := by
  unfold dispatchTo
  split
  · simp only
    split
    · rename_i here
      have queued := before.own (by rw [here]; exact List.mem_cons_self)
      refine ⟨mergedAt before.merged qid (fun q other => ?_) ?_,?_,?_,fun later => ?_⟩
      · refine ⟨Function.update_of_ne other _ _,?_,?_,rfl⟩
        · simp [setQuery,isQidOther (Ne.symm other)]
        · funext f
          simp [pending,setQuery,isQidOther (Ne.symm other)]
      · simp only [setQuery,Function.update_self,List.map_append,List.map_cons,List.map_nil]
        refine dispatchedOne (before.merged qid) m (fun f => ?_) before.dispatched before.none ?_
        · simp only [pending,sumAppend,sumCons,sumNil,isQidSelf,report,here,if_pos]
          omega
        · rw [sumAppend,queued,sumCons,isQidSelf,sumNil]
      · simp [setQuery,before.dispatched]
      · simp [setQuery,before.none]
      · rw [← here] at later
        exact absurd later fresh'
    · rename_i other
      refine ⟨mergedAt before.merged qid (fun q differ => ?_) ?_,?_,?_,fun later => ?_⟩
      · refine ⟨Function.update_of_ne differ _ _,rfl,?_,rfl⟩
        funext f
        simp [pending,setQuery,spreadPush,isQidOther (Ne.symm differ)]
      · simp only [setQuery,Function.update_self,List.map_append,List.map_cons,List.map_nil]
        refine dispatchedOne (before.merged qid) m (fun f => ?_) before.dispatched before.none
          (before.merged qid).single
        simp only [pending,spreadPush,sumCons,sumNil,isQidSelf,report,if_neg other]
        omega
      · simp [setQuery,before.dispatched]
      · simp [setQuery,before.none]
      · exact before.own (List.mem_cons_of_mem m later)
  · exact ⟨before.merged,before.dispatched,before.none,fun later => before.own (List.mem_cons_of_mem m later)⟩

theorem dispatchAllKeeps {qid : Nat} (bar : Fin n → Bool) {left : List (Fin n)} (nodup : left.Nodup)
    (before : Dispatching me k getExternalLabel found reportOf qid left s) :
    Dispatching me k getExternalLabel found reportOf qid [] (left.foldl (dispatchTo me qid bar) s) := by
  induction left generalizing s with
  | nil => exact before
  | cons m rest ih =>
    have parts := List.nodup_cons.mp nodup
    exact ih parts.2 (dispatchToKeeps bar parts.1 before)

theorem dispatchKeeps {qid : Nat} {bar : Fin n → Bool} (h : dispatchKmeansQueryStart me qid bar s = some t)
    (merged : Merged me k getExternalLabel found reportOf s) : Merged me k getExternalLabel found reportOf t := by
  unfold dispatchKmeansQueryStart at h
  split at h <;> try contradiction
  rename_i guard
  obtain ⟨idle,new⟩ := guard
  cases Option.some.inj h
  have ok := merged qid
  have none' := (ok.fresh new).2
  have zero : (s.query qid).b2DispatchedNum = 0 := by
    rw [ok.sent,none',List.length_nil]
  have total := ok.total
  refine (dispatchAllKeeps bar (List.nodup_finRange n) ⟨mergedAt merged qid (fun q other => ?_) ?_,?_,?_,?_⟩).merged
  · exact ⟨Function.update_of_ne other _ _,rfl,rfl,rfl⟩
  · have times : pushes qid s = 0 := by
      rw [ok.pushed,if_neg]
      omega
    have times' : pushes qid (setQuery s qid { s.query qid with
        dispatched := true, ongoing := true, b2DispatchedNum := 0, b2RecvNum := 0 }) = 0 := times
    rw [times']
    simp only [setQuery,Function.update_self]
    refine ⟨fun no => ?_,ok.sizes,?_,fun f => ok.count f,?_,rfl,fun _ => ⟨fun _ => rfl,fun _ => rfl⟩,ok.smallest,
      fun _ => rfl,ok.single⟩
    · cases no
    · rw [none']
      rfl
    · have reports := ok.reports
      simp only
      omega
  · simp [setQuery]
  · simp [setQuery]
  · intro _
    simp only [setQuery,idle,sumNil]

/- The state before received, with the report taken off a queue and its result merged. -/
theorem receivedKeeps {qid : Nat} {rest : State n D} {found' : List (Res D)} {result : PQueue (Res D) Unit}
    (merged : Merged me k getExternalLabel found reportOf s) (same : ∀ q, q ≠ qid → rest.query q = s.query q ∧
      sumOf (isQid q) rest.b2QueryQueue = sumOf (isQid q) s.b2QueryQueue ∧
      pending k getExternalLabel found reportOf q rest = pending k getExternalLabel found reportOf q s)
    (times : ∀ q, pushes q rest = pushes q s)
    (here : rest.query qid =
      { s.query qid with result := result, reports := (s.query qid).reports ++ [found'] })
    (queued : sumOf (isQid qid) rest.b2QueryQueue = 0)
    (taken : ∀ f, pending k getExternalLabel found reportOf qid s f =
      pending k getExternalLabel found reportOf qid rest f + f found')
    (smallest : IsSmallest k (((s.query qid).reports ++ [found']).flatten : Multiset (Res D)) (keys result)) :
    Merged me k getExternalLabel found reportOf (received rest qid) := by
  obtain ⟨query,queue,counts⟩ := receivedShape rest qid
  refine mergedAt merged qid (fun q other => ?_) ?_
  · obtain ⟨sameQuery,sameQueued,samePending⟩ := same q other
    refine ⟨?_,?_,(receivedPending rest qid q).trans samePending,?_⟩
    · rw [query,Function.update_of_ne other,sameQuery]
    · rw [queue,sameQueued]
    · rw [counts,if_neg (fun both => other both.1),times]
      rfl
  · rw [query,queue,receivedPending,counts,Function.update_self,queued,times,here]
    simp only [true_and]
    exact reportedOk (merged qid) result taken smallest

theorem dealLocalKeeps (h : b2DealLocal k getExternalLabel found s = some t)
    (merged : Merged me k getExternalLabel found reportOf s) : Merged me k getExternalLabel found reportOf t := by
  unfold b2DealLocal at h
  split at h <;> try contradiction
  rename_i qid rest queue
  simp only at h
  split at h <;> try contradiction
  cases Option.some.inj h
  have ok := merged qid
  have queued : sumOf (isQid qid) s.b2QueryQueue = 1 + sumOf (isQid qid) rest := by
    rw [queue,sumCons,isQidSelf]
  have single := ok.single
  have first := ok.first (by omega)
  have few : (localReport k getExternalLabel found qid).length ≤ k := by
    rw [localReport,List.length_map,popToElems,List.length_drop]
    omega
  refine receivedKeeps merged (fun q other => ⟨?_,?_,?_⟩) (fun q => rfl) ?_ ?_ (fun f => ?_) (localSmallest ok first few)
  · exact Function.update_of_ne other _ _
  · simp [setQuery,queue,isQidOther (Ne.symm other)]
  · funext f
    simp [pending,setQuery,queue,isQidOther (Ne.symm other)]
  · simp only [setQuery,Function.update_self,push']
  · simp only [setQuery]
    omega
  · simp only [pending,setQuery,queue,sumCons,isQidSelf]
    omega

theorem pollEndKeeps (h : pollB2End k s = some t) (merged : Merged me k getExternalLabel found reportOf s) :
    Merged me k getExternalLabel found reportOf t := by
  unfold pollB2End at h
  split at h <;> try contradiction
  rename_i qid found' rest queue
  split at h <;> try contradiction
  rename_i idle
  cases Option.some.inj h
  refine receivedKeeps merged (fun q other => ⟨?_,rfl,?_⟩) (fun q => rfl) ?_ ?_ (fun f => ?_)
    (remoteSmallest (merged qid) found')
  · exact Function.update_of_ne other _ _
  · funext f
    simp [pending,setQuery,queue,isQidOther (Ne.symm other)]
  · simp only [setQuery,Function.update_self,push']
  · simp only [setQuery,idle,sumNil]
  · simp only [pending,setQuery,queue,sumCons,isQidSelf]
    omega

/- The other acts only move ids and reports. -/
theorem mergedMoved (merged : Merged me k getExternalLabel found reportOf s) (query : t.query = s.query)
    (queue : t.b2QueryQueue = s.b2QueryQueue)
    (pend : ∀ q f, pending k getExternalLabel found reportOf q t f = pending k getExternalLabel found reportOf q s f)
    (times : ∀ q, pushes q t = pushes q s) : Merged me k getExternalLabel found reportOf t := by
  intro q
  rw [query,queue,funext (pend q),times]
  exact merged q

theorem memberKeeps {m : Fin n} (h : member reportOf m s = some t)
    (merged : Merged me k getExternalLabel found reportOf s) : Merged me k getExternalLabel found reportOf t := by
  unfold member at h
  split at h <;> try contradiction
  rename_i qid rest starts
  cases Option.some.inj h
  refine mergedMoved merged rfl rfl (fun q f => ?_) (fun q => rfl)
  have taken := spreadUpdate (fun m p => isQid q p * f (reportOf m p)) s.starts m rest
  rw [starts,sumCons] at taken
  simp only [pending,spreadPush,sumCons,sumNil]
  omega

theorem deliverKeeps {m : Fin n} (h : deliver m s = some t)
    (merged : Merged me k getExternalLabel found reportOf s) : Merged me k getExternalLabel found reportOf t := by
  unfold deliver at h
  split at h <;> try contradiction
  rename_i msg rest ends
  cases Option.some.inj h
  refine mergedMoved merged rfl rfl (fun q f => ?_) (fun q => rfl)
  have taken := spreadUpdate (fun _ e => isQid q e.1 * f e.2) s.ends m rest
  rw [ends,sumCons] at taken
  simp only [pending,sumAppend,sumCons,sumNil]
  omega

theorem takeFinishedKeeps (merged : Merged me k getExternalLabel found reportOf s) :
    Merged me k getExternalLabel found reportOf (takeFinished s) := by
  refine mergedMoved merged rfl rfl (fun q f => rfl) (fun q => ?_)
  simp only [pushes,takeFinished,List.nil_append,List.count_append]
  omega

theorem stepKeeps {a : Act n} (done : step me k getExternalLabel found reportOf s a = some t)
    (merged : Merged me k getExternalLabel found reportOf s) : Merged me k getExternalLabel found reportOf t := by
  cases a with
  | dispatch qid bar => exact dispatchKeeps done merged
  | dealLocal => exact dealLocalKeeps done merged
  | pollEnd => exact pollEndKeeps done merged
  | takeFinished =>
    cases Option.some.inj done
    exact takeFinishedKeeps merged
  | member m => exact memberKeeps done merged
  | deliver m => exact deliverKeeps done merged

theorem runMerged {acts : List (Act n)} (ok : run (step me k getExternalLabel found reportOf) start acts = some t) :
    Merged me k getExternalLabel found reportOf t :=
  runInvariant (fun _ _ _ done merged => stepKeeps done merged) ok startMerged

end Steps

section Result

variable {me k getExternalLabel found reportOf} {s : State n D}

theorem flattenOfSums {α : Type} [DecidableEq α] {xs ys : List (List α)} (same : ∀ f, sumOf f xs = sumOf f ys) :
    (xs.flatten : Multiset α) = ys.flatten := by
  refine Multiset.ext.mpr (fun x => ?_)
  rw [Multiset.coe_count,Multiset.coe_count,List.count_flatten,List.count_flatten]
  exact same (List.count x)

omit [Queue D] in
/- With every report merged, they are the lists of the machines it was sent to. -/
theorem QueryOk.allReports {b : B2Query n D} {lists : List (List (Res D))} {queued times : Nat}
    {pend : (List (Res D) → Nat) → Nat} (ok : QueryOk k b lists queued pend times)
    (none' : ∀ f, pend f = 0) : (b.reports.flatten : Multiset (Res D)) = lists.flatten := by
  refine flattenOfSums (fun f => ?_)
  have count := ok.count f
  rwa [none',Nat.add_zero] at count

theorem nothingPending {q : Nat} (zero : pending k getExternalLabel found reportOf q s (fun _ => 1) = 0)
    (f : List (Res D) → Nat) : pending k getExternalLabel found reportOf q s f = 0 := by
  simp only [pending,Nat.mul_one] at zero ⊢
  simp only [Nat.add_eq_zero_iff,spreadZeroIff,sumZeroIff] at zero ⊢
  obtain ⟨⟨⟨queue,starts⟩,ends⟩,received⟩ := zero
  refine ⟨⟨⟨fun p member => ?_,fun m p member => ?_⟩,fun m e member => ?_⟩,fun e member => ?_⟩
  · rw [queue p member,Nat.zero_mul]
  · rw [starts m p member,Nat.zero_mul]
  · rw [ends m e member,Nat.zero_mul]
  · rw [received e member,Nat.zero_mul]

theorem b2Merge {acts : List (Act n)} (ok : run (step me k getExternalLabel found reportOf) start acts = some s)
    (q : Nat) :
    pushes q s ≤ 1 ∧
    (pushes q s = 1 ↔ 0 < (s.query q).b2DispatchedNum ∧ (s.query q).reports.length = (s.query q).b2DispatchedNum) ∧
    ((s.query q).dispatched = true → ((s.query q).ongoing = false ↔ pushes q s = 1)) ∧
    (q ∈ s.b2QueryQueue → (s.query q).ongoing = true) ∧
    (s.query q).b2DispatchedNum = (s.query q).sent.length ∧
    (pushes q s = 1 → keys (s.query q).result =
      ((((s.query q).sent.map (fun m => report me k getExternalLabel found reportOf m q)).flatten :
        Multiset (Res D)).sort (· ≤ ·)).take k) := by
  have merged := runMerged ok q
  have total := merged.total
  have pushed := merged.pushed
  refine ⟨?_,?_,fun dispatched => ?_,fun queued => ?_,merged.sent,fun once => ?_⟩
  · split at pushed <;> omega
  · rw [merged.reports,pushed]
    split <;> simp_all
  · have running := merged.ongoing dispatched
    rw [← Bool.not_eq_true,running]
    split at pushed <;> omega
  · have some' : 0 < sumOf (isQid q) s.b2QueryQueue := by
      refine Nat.pos_of_ne_zero (fun zero => ?_)
      have no := sumZero zero q queued
      rw [isQidSelf] at no
      omega
    have first := merged.first some'
    have left : 0 < pending k getExternalLabel found reportOf q s (fun _ => 1) := by
      simp only [pending,Nat.mul_one]
      have same : sumOf (fun p => isQid q p) s.b2QueryQueue = sumOf (isQid q) s.b2QueryQueue := rfl
      omega
    have dispatched : (s.query q).dispatched = true := by
      by_contra never
      have none' := (merged.fresh (Bool.not_eq_true _ ▸ never)).2
      have sent := merged.sent
      rw [none',List.length_nil] at sent
      omega
    refine (merged.ongoing dispatched).mpr ?_
    rw [pushed,if_neg]
    omega
  · have last : 0 < (s.query q).b2DispatchedNum ∧ (s.query q).b2RecvNum = (s.query q).b2DispatchedNum := by
      by_contra other
      rw [if_neg other] at pushed
      omega
    have all := merged.allReports (nothingPending (by omega))
    have smallest := merged.smallest
    rw [all] at smallest
    exact smallestUnique smallest (sortedSmallest k _)

instance : Queue (Res Nat) := lastFirst (Res Nat)

def reportTwo : Fin 2 → Nat → List (Res Nat) := fun _ _ => [toLex (3,7),toLex (1,4)]

def foundTwo : Nat → PQueue Nat Nat := fun _ => pushAll empty [(2,0),(5,1)]

def actsTwo : List (Act 2) := [.dispatch 0 (fun _ => true),.member 1,.deliver 1,.dealLocal,.pollEnd]

theorem b2MergeTwo : ∃ s : State 2 Nat, run (step 0 2 id foundTwo reportTwo) start actsTwo = some s ∧
    pushes 0 s = 1 ∧ (s.query 0).sent = [0,1] ∧ keys (s.query 0).result =
      ((((s.query 0).sent.map (fun m => report 0 2 id foundTwo reportTwo m 0)).flatten :
        Multiset (Res Nat)).sort (· ≤ ·)).take 2 := by
  have runs : (run (step (0 : Fin 2) 2 id foundTwo reportTwo) start actsTwo).map
      (fun s => (pushes 0 s,(s.query 0).sent)) = some (1,[0,1]) := by decide +kernel
  obtain ⟨s,ok,values⟩ := Option.map_eq_some_iff.mp runs
  obtain ⟨once,sent⟩ := Prod.mk.inj values
  exact ⟨s,ok,once,sent,(b2Merge ok 0).2.2.2.2.2 once⟩

end Result

end CoTra.B2Merge
