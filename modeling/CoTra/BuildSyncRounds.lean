import CoTra.BuildSync

/-! Rounds of the build barrier. A machine leaves its call r only after every
machine has entered its own, unconditionally. That an early message waits for its
own call rests on the comparison of residues: it fails for the message of call
r + 1 met by a machine in call r when r + 1 is a multiple of 2^32, and only there. -/
namespace CoTra.BuildSyncRounds
open Runs BuildSync

variable {n : Nat}

structure Exact (s : Net n) : Prop where
  safe : Safe s
  account : ∀ a b, a ≠ b → ∀ k, held s a b k = due s a b k
  rounds : ∀ a, ∀ entry ∈ (s.machine a).counted, entry.1 = entry.2.round
  logged : ∀ a b, a ≠ b → ∀ k, (s.machine a).counted.count (k,⟨k,b⟩) =
    if k < returned (s.machine a) then 1 else seenCount (s.machine a) b k

theorem startExact : Exact (start 0 : Net n) := by
  refine ⟨startSafe 0,?_,?_,?_⟩
  · intro a b _ k
    simp [held,onTheWay,due,start,unsentCount,seenCount]
  · intro a entry member
    exact absurd member List.not_mem_nil
  · intro a b _ k
    simp [start,returned,seenCount]

theorem updateExact {s : Net n} (valid : Exact s) {a : Fin n} {m : Machine n} (flight : Fin n → List BuildSyncMessage)
    (safe : Safe { put s a m with inFlight := flight }) (balanced : Balanced s { put s a m with inFlight := flight })
    (rounds : ∀ entry ∈ m.counted, entry.1 = entry.2.round)
    (logged : ∀ b, a ≠ b → ∀ k, m.counted.count (k,⟨k,b⟩) = if k < returned m then 1 else seenCount m b k) :
    Exact { put s a m with inFlight := flight } := by
  refine ⟨safe,?_,?_,?_⟩
  · intro x y apart k
    have before := valid.account x y apart k
    have change := balanced x y apart k
    omega
  · intro x
    show ∀ entry ∈ ((put s a m).machine x).counted, _
    by_cases here : x = a
    · subst x; rwa [putSelf]
    · rw [putOther s _ here]; exact valid.rounds x
  · intro x
    show ∀ b, x ≠ b → ∀ k, ((put s a m).machine x).counted.count _ =
      if k < returned ((put s a m).machine x) then 1 else seenCount ((put s a m).machine x) b k
    by_cases here : x = a
    · subst x; rwa [putSelf]
    · rw [putOther s _ here]; exact valid.logged x

theorem enterExact {s : Net n} (valid : Exact s) {a : Fin n} (idle : (s.machine a).call = none) :
    Exact (put s a (beginCall a (s.machine a))) := by
  refine updateExact valid s.inFlight (enterSafe valid.safe idle) (enterBalanced valid.safe idle)
    (valid.rounds a) ?_
  intro b apart k
  have old := valid.logged a b apart k
  simpa [beginCall,returned,seenCount,idle,Ne.symm apart] using old

theorem sendExact {s : Net n} (valid : Exact s) {a m : Fin n} {c : Call n} {rest}
    (inside : (s.machine a).call = some c) (next : c.unsent = m :: rest) :
    Exact { put s a { s.machine a with call := some { c with unsent := rest } } with
      inFlight := Function.update s.inFlight m (s.inFlight m ++ [⟨c.round,a⟩]) } := by
  refine updateExact valid _ (sendSafe valid.safe inside next) (sendBalanced valid.safe inside next) (valid.rounds a) ?_
  intro b apart k
  have old := valid.logged a b apart k
  simpa [returned,seenCount,inside] using old

theorem deliverExact {s : Net n} (valid : Exact s) {a : Fin n} {i : Nat} {msg}
    (arrived : (s.inFlight a)[i]? = some msg) :
    Exact { put s a { s.machine a with buildSyncQueue := (s.machine a).buildSyncQueue ++ [msg] } with
      inFlight := Function.update s.inFlight a ((s.inFlight a).eraseIdx i) } :=
  updateExact valid _ (deliverSafe valid.safe arrived) (deliverBalanced arrived) (valid.rounds a) (valid.logged a)

/- The scan never frees a message while the condition holds, and it only shortens
or rotates the queue, so the condition lasts for the whole loop. -/
theorem scanHeadExact {s : Net n} {a : Fin n} {m'} (valid : Exact s ∧ WrapFree s (.scan a))
    (h : scanHead (s.machine a) = some m') : Exact (put s a m') ∧ WrapFree (put s a m') (.scan a) := by
  obtain ⟨valid,free⟩ := valid
  have safe := scanHeadSafe valid.safe h
  obtain ⟨c,msg,rest,b,inside,queue,sender,apart,branch⟩ := scanHeadEffect valid.safe h
  have back := returnedIn inside
  have current := valid.safe.current a c inside
  rcases branch with ⟨rfl,balanced⟩ | ⟨round,fresh,rfl,balanced⟩ | ⟨next,wrapped,_,_⟩
  · refine ⟨updateExact valid s.inFlight safe balanced (valid.rounds a) (valid.logged a),?_⟩
    intro d now wrap other member
    rw [putSelf] at now member
    exact free d now wrap other (by rw [queue]; simpa [or_comm] using member)
  · constructor
    · refine updateExact valid s.inFlight safe balanced ?_ ?_
      · intro entry member
        rcases List.mem_append.mp member with old | new
        · exact valid.rounds a entry old
        · rw [List.mem_singleton.mp new]; exact round.symm
      · intro y away k
        have old := valid.logged a y away k
        have same : returned { s.machine a with
            buildSyncQueue := rest
            call := some { c with seen := Function.update c.seen b true, syncCnt := c.syncCnt + 1 }
            counted := (s.machine a).counted ++ [(c.round,msg)] } = returned (s.machine a) := by
          simp [returned,inside]
        rw [same,List.count_append,old,back]
        simp only [seenCount,inside]
        by_cases hit : c.round = k ∧ y = b
        · obtain ⟨rfl,rfl⟩ := hit
          have passed : ¬c.round < (s.machine a).buildSyncRound - 1 := by omega
          rw [messageOf msg y sender,round]
          simp [passed,fresh]
        · have different : (c.round,msg) ≠ (k,⟨k,y⟩) := by
            rw [messageOf msg b sender,round]
            intro e
            simp only [Prod.mk.injEq,BuildSyncMessage.mk.injEq] at e
            exact hit ⟨e.1,(Fin.ext e.2.2).symm⟩
          simp only [List.count_cons_of_ne different,List.count_nil,Nat.add_zero]
          by_cases now : c.round = k
          · have other : y ≠ b := fun e => hit ⟨now,e⟩
            simp [other]
          · simp [now]
    · intro d now wrap other member
      rw [putSelf] at now member
      cases Option.some.inj now
      exact free c inside wrap other (by rw [queue]; exact List.mem_cons_of_mem _ member)
  · exact absurd next (free c inside wrapped msg (by rw [queue]; exact List.mem_cons_self))

theorem retExact {s : Net n} (valid : Exact s) {a : Fin n} {c : Call n} (inside : (s.machine a).call = some c)
    (posted : c.unsent = []) (enough : ¬c.syncCnt < n) :
    Exact (put s a { s.machine a with call := none }) := by
  have all := tallyAll (valid.safe.tally a c inside) enough
  have current := valid.safe.current a c inside
  refine updateExact valid s.inFlight (retSafe valid.safe inside posted enough)
    (retBalanced valid.safe inside posted all) (valid.rounds a) ?_
  intro b apart k
  have old := valid.logged a b apart k
  rw [returnedIn inside] at old
  simp only [seenCount,inside,all,and_true] at old
  have idle := returnedIdle (n := n) (m := { s.machine a with call := none }) rfl
  simp only [idle,seenCount]
  rw [old]
  split_ifs <;> omega

theorem stepExact {s t : Net n} {act} (free : WrapFree s act) (h : step s act = some t) (valid : Exact s) :
    Exact t := by
  cases stepSource h with
  | enter idle => exact enterExact valid idle
  | send inside next => exact sendExact valid inside next
  | deliver arrived => exact deliverExact valid arrived
  | @scan a c m inside posted few scanned =>
    exact (scanQueueKeeps (fun u => Exact u ∧ WrapFree u (.scan a)) (fun u m' => scanHeadExact) scanned
      (by rw [putSame]; exact ⟨valid,free⟩)).1
  | ret inside posted enough => exact retExact valid inside posted enough

/- A message of an earlier call, or of a machine already seen, leaves sync_cnt. -/
theorem scanHeadIdle {m m' : Machine n} {c : Call n} {msg rest} (inside : m.call = some c)
    (h : scanHead { m with buildSyncQueue := msg :: rest } = some m')
    (stale : (msg.round < c.round ∧ c.round < msg.round + 2 ^ 32) ∨
      ∃ b : Fin n, msg.machineId = b ∧ c.seen b = true) :
    ∃ c', m'.call = some c' ∧ c'.syncCnt = c.syncCnt := by
  obtain ⟨d,other,tail,b,now,queue,sender,branch⟩ := scanHeadSource h
  cases Option.some.inj (inside.symm.trans now)
  cases queue
  rcases branch with ⟨_,rfl⟩ | ⟨equal,fresh,_⟩ | ⟨_,_,rfl⟩
  · exact ⟨c,inside,rfl⟩
  · exfalso
    rcases stale with ⟨older,near⟩ | ⟨b',sender',seen⟩
    · unfold wire at equal
      omega
    · have same : b' = b := Fin.ext (sender'.symm.trans sender)
      rw [same,fresh] at seen
      cases seen
  · exact ⟨c,inside,rfl⟩

/- Each message of call k is in one place until the receiver counts it, in its own
call k; whoever has returned from call k has counted all of them. -/
theorem buildSyncBarrier {n : Nat} (acts : List (Act n)) {s : Net n}
    (along : Along step WrapFree (start 0) acts) (ok : run step (start 0) acts = some s) :
    (∀ a b r, r < returned (s.machine a) → r < (s.machine b).buildSyncRound) ∧
    (∀ a b, a ≠ b → ∀ k, onTheWay s a b k + (s.machine a).counted.count (k,⟨k,b⟩) =
      if k < (s.machine b).buildSyncRound then 1 else 0) ∧
    (∀ a b, a ≠ b → ∀ k < returned (s.machine a), (k,⟨k,b⟩) ∈ (s.machine a).counted) ∧
    (∀ a, ∀ entry ∈ (s.machine a).counted, entry.1 = entry.2.round) ∧
    (∀ a c, (s.machine a).call = some c →
      c.syncCnt = (Finset.univ.filter (fun b => c.seen b = true)).card ∧
      (∀ msg ∈ s.inFlight a ++ (s.machine a).buildSyncQueue, c.round ≤ msg.round) ∧
      ∀ msg rest m', scanHead { s.machine a with buildSyncQueue := msg :: rest } = some m' →
        ((msg.round < c.round ∧ c.round < msg.round + 2 ^ 32) ∨
          ∃ b : Fin n, msg.machineId = b ∧ c.seen b = true) →
        ∃ c', m'.call = some c' ∧ c'.syncCnt = c.syncCnt) := by
  have valid := runInvariantAlong (fun _ _ _ => stepExact) along ok startExact
  refine ⟨?_,?_,?_,valid.rounds,?_⟩
  · intro a b r left
    exact lt_of_lt_of_le left (valid.safe.barrier a b)
  · intro a b apart k
    have one := valid.account a b apart k
    have log := valid.logged a b apart k
    have back := valid.safe.barrier a b
    unfold held due at one
    rw [log]
    split_ifs at one ⊢ <;> omega
  · intro a b apart k left
    have log := valid.logged a b apart k
    rw [if_pos left] at log
    exact List.count_pos_iff.mp (by omega)
  · intro a c inside
    refine ⟨valid.safe.tally a c inside,?_,fun msg rest m' h stale => scanHeadIdle inside h stale⟩
    intro msg member
    obtain ⟨b,apart,sender⟩ := valid.safe.known a msg member
    refine (queuedRound valid.safe (Ne.symm apart) inside (k := msg.round) ?_).1
    have present := List.count_pos_iff.mpr member
    rw [List.count_append] at present
    unfold held onTheWay
    rw [← messageOf msg b sender]
    omega

theorem stepRoundLe {s t : Net n} {act} (h : step s act = some t) (a : Fin n) :
    (t.machine a).buildSyncRound ≤ (s.machine a).buildSyncRound + 1 := by
  rcases stepRounds h a with ⟨_,_,_,more⟩ | ⟨_,_,_,same⟩ | ⟨_,_,_,same⟩ <;> omega

/- Runs that are too short to reach the wrap meet the condition throughout. -/
theorem shortWrapFree {s : Net n} {acts : List (Act n)} (valid : Safe s)
    (short : ∀ a, (s.machine a).buildSyncRound + acts.length < 2 ^ 32) : Along step WrapFree s acts := by
  induction acts generalizing s with
  | nil => trivial
  | cons act rest ih =>
    simp only [List.length_cons] at short
    refine ⟨?_,?_⟩
    · cases act with
      | scan a =>
        intro c inside wrap
        have current := valid.current a c inside
        have few := short a
        unfold wire at wrap
        omega
      | _ => trivial
    · intro t h
      refine ih (stepSafe h valid) (fun a => ?_)
      have next := stepRoundLe h a
      have few := short a
      omega

def duo (m₀ m₁ : Machine 2) (f₀ f₁ : List BuildSyncMessage) : Net 2 :=
  ⟨fun a => if a = 0 then m₀ else m₁,fun a => if a = 0 then f₀ else f₁⟩

theorem updateZero {α : Type} (x y z : α) :
    Function.update (fun a : Fin 2 => if a = 0 then x else y) 0 z = fun a => if a = 0 then z else y := by
  funext a
  by_cases h : a = 0 <;> simp [h]

theorem updateOne {α : Type} (x y z : α) :
    Function.update (fun a : Fin 2 => if a = 0 then x else y) 1 z = fun a => if a = 0 then x else z := by
  funext a
  match a with
  | 0 => rfl
  | 1 => rfl

theorem plainZero {α : Type} (x z : α) :
    Function.update (fun _ : Fin 2 => x) 0 z = fun a => if a = 0 then z else x := by
  simpa using updateZero x x z

theorem plainOne {α : Type} (x z : α) :
    Function.update (fun _ : Fin 2 => x) 1 z = fun a => if a = 0 then x else z := by
  simpa using updateOne x x z

theorem othersZero : (List.finRange 2).filter (fun m => !decide (m = 0)) = [1] := rfl

theorem othersOne : (List.finRange 2).filter (fun m => !decide (m = 1)) = [0] := rfl

def barrierRound : List (Act 2) :=
  [.enter 0,.enter 1,.send 0,.send 1,.deliver 0 0,.deliver 1 0,.scan 0,.scan 1,.ret 0,.ret 1]

theorem barrierRoundRun (k : Nat) (log₀ log₁ : List (Nat × BuildSyncMessage)) :
    run step (duo ⟨k,none,[],log₀⟩ ⟨k,none,[],log₁⟩ [] []) barrierRound =
      some (duo ⟨k + 1,none,[],log₀ ++ [(k,⟨k,1⟩)]⟩ ⟨k + 1,none,[],log₁ ++ [(k,⟨k,0⟩)]⟩ [] []) := by
  simp [barrierRound,run,step,duo,updateZero,updateOne,plainZero,plainOne,beginCall,scanQueue,scanHead,
    othersZero,othersOne]

theorem startDuo (k : Nat) : (start k : Net 2) = duo ⟨k,none,[],[]⟩ ⟨k,none,[],[]⟩ [] [] := by
  simp [start,duo]

theorem buildSyncBarrierOneRound : ∃ s, run step (start 0) barrierRound = some s ∧
    returned (s.machine 0) = 1 ∧ (0,⟨0,1⟩) ∈ (s.machine 0).counted := by
  have ok := barrierRoundRun 0 [] []
  rw [← startDuo] at ok
  have along : Along step WrapFree (start 0) barrierRound := by
    refine shortWrapFree (startSafe 0) (fun a => ?_)
    simp [start,barrierRound]
  have left : returned ((duo ⟨1,none,[],[(0,⟨0,1⟩)]⟩ ⟨1,none,[],[(0,⟨0,0⟩)]⟩ [] []).machine 0) = 1 := rfl
  exact ⟨_,ok,left,(buildSyncBarrier _ along ok).2.2.1 0 1 (by decide) 0 (by decide)⟩

/- Two machines in lockstep, before call k. -/
def Between (k : Nat) (s : Net 2) : Prop := ∃ log₀ log₁, (∀ entry ∈ log₀, entry.1 < k) ∧
  s = duo ⟨k,none,[],log₀⟩ ⟨k,none,[],log₁⟩ [] []

theorem betweenNext {k s} (valid : Between k s) : ∃ t, run step s barrierRound = some t ∧ Between (k + 1) t := by
  obtain ⟨log₀,log₁,early,rfl⟩ := valid
  refine ⟨_,barrierRoundRun k log₀ log₁,_,_,?_,rfl⟩
  intro entry member
  rcases List.mem_append.mp member with old | new
  · exact Nat.lt_succ_of_lt (early entry old)
  · rw [List.mem_singleton.mp new]; exact Nat.lt_succ_self k

/- Machine 1 returns and enters the next call while machine 0 has not yet scanned. -/
def overtake : List (Act 2) :=
  [.enter 0,.enter 1,.send 0,.send 1,.deliver 1 0,.scan 1,.ret 1,.enter 1,.send 1,.deliver 0 0,.deliver 0 0,.scan 0]

theorem overtakeRun {k : Nat} (wrap : wire (k + 1) = 0) (log₀ log₁ : List (Nat × BuildSyncMessage)) :
    ∃ s, run step (duo ⟨k,none,[],log₀⟩ ⟨k,none,[],log₁⟩ [] []) overtake = some s ∧
      (s.machine 1).buildSyncRound = k + 2 ∧ returned (s.machine 0) = k ∧
      onTheWay s 0 1 (k + 1) = 0 ∧ (s.machine 0).counted = log₀ ++ [(k,⟨k,1⟩)] := by
  have last : 0 < wire k := by unfold wire at *; omega
  refine ⟨duo ⟨k + 1,some ⟨k,[],Function.update (Function.update (fun _ => false) 0 true) 1 true,2⟩,[],
      log₀ ++ [(k,⟨k,1⟩)]⟩
    ⟨k + 2,some ⟨k + 1,[],Function.update (fun _ => false) 1 true,1⟩,[],log₁ ++ [(k,⟨k,0⟩)]⟩ [] [],?_,rfl,rfl,?_,rfl⟩
  · simp [overtake,run,step,duo,updateZero,updateOne,plainZero,plainOne,beginCall,scanQueue,scanHead,
      othersZero,othersOne,wrap,last.ne]
  · simp [onTheWay,duo,unsentCount]

theorem earlyMessageFreed : ∃ acts s, run step (start 0 : Net 2) acts = some s ∧
    2 ^ 32 < (s.machine 1).buildSyncRound ∧ returned (s.machine 0) = 2 ^ 32 - 1 ∧
    onTheWay s 0 1 (2 ^ 32) = 0 ∧ (2 ^ 32,⟨2 ^ 32,1⟩) ∉ (s.machine 0).counted := by
  obtain ⟨_,t,ok,log₀,log₁,early,rfl⟩ := repeatRun (fun _ _ => True) Between (m := 2 ^ 32 - 1)
    (fun k s _ valid => ⟨alongTrue _ _ _,betweenNext valid⟩) (2 ^ 32 - 1) 0 (by omega)
    ⟨[],[],by simp,startDuo 0⟩
  obtain ⟨s,last,entered,left,lost,log⟩ := overtakeRun (k := 0 + (2 ^ 32 - 1)) (by decide) log₀ log₁
  refine ⟨_,s,runJoin ok last,by omega,by omega,lost,?_⟩
  rw [log,List.mem_append,List.mem_singleton]
  rintro (old | new)
  · have := early _ old
    omega
  · have := congrArg Prod.fst new
    omega

end CoTra.BuildSyncRounds
