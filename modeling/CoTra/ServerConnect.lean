import CoTra.Progress
import Mathlib.Data.Fin.Basic

/-! How the machines find each other over the metadata service (server_connect.cc: ServerConnect and
its barrier, as establish_connection in rdma_comm.cc calls them). The service starts with serverNum 0 and
answers one request a move. A schedule is the list of the machines that move, each with whether the
deadline of what it waits for has passed there. -/
namespace CoTra.ServerConnect
open Runs Progress

variable {α : Type}

structure ExchangeMeta (α : Type) where
  thd_msg : Nat → α
  machine_id : Nat

/- The machines, by their machine ids; what a thread of one has for another is opaque. -/
structure Site (α : Type) where
  max_machine : Nat
  activeThreads : Nat → Nat
  local_mr_msg : Nat → Nat → Nat → α
  zero : α

inductive Pc where
  | register
  | publish
  | self
  | look
  | loop (k serverNum : Nat)
  | ask (k serverNum : Nat)
  | put (k serverNum m : Nat)
  | get (k serverNum : Nat)
  | add
  | incr
  | wait
  | ready
  | thrown
  deriving DecidableEq, Repr

/- The keys of the service (serverNum, Machine-id-k, a-b and the barrier) and what each machine has;
`registered` and `entered` are history: the machines that have incremented serverNum and the barrier. -/
structure State (α : Type) where
  serverNum : Nat
  machineIds : Nat → Option Nat
  metas : Nat → Nat → Option (ExchangeMeta α)
  barrier : Option Nat
  pc : Nat → Pc
  my_id : Nat → Nat
  cur_machine_num : Nat → Nat
  remote_mr_msg : Nat → Nat → Nat → α
  registered : Nat → Bool
  entered : Nat → Bool

variable (E : Site α)

def begin' : State α :=
  ⟨0,fun _ => none,fun _ _ => none,none,fun _ => .register,fun _ => 0,fun _ => 0,fun _ _ _ => E.zero,fun _ => false,
    fun _ => false⟩

def goto (s : State α) (j : Nat) (pc : Pc) : State α := { s with pc := Function.update s.pc j pc }

def setDataToRemote (j m : Nat) : ExchangeMeta α :=
  ⟨fun t => if t < E.activeThreads j then E.local_mr_msg j t m else E.zero,j⟩

def setDataFromRemote (s : State α) (j : Nat) (remoteMeta : ExchangeMeta α) : State α :=
  { s with
    remote_mr_msg := Function.update s.remote_mr_msg j (fun t m =>
      if t < E.activeThreads j ∧ m = remoteMeta.machine_id then remoteMeta.thd_msg t else s.remote_mr_msg j t m) }

def addMachine (s : State α) (j : Nat) : State α :=
  { s with
    serverNum := s.serverNum + 1
    my_id := Function.update s.my_id j s.serverNum
    registered := Function.update s.registered j true }

def setMachineId (s : State α) (k m : Nat) : State α :=
  { s with machineIds := Function.update s.machineIds k (some m) }

def setMeta (s : State α) (a b : Nat) (meta' : ExchangeMeta α) : State α :=
  { s with metas := Function.update s.metas a (Function.update (s.metas a) b (some meta')) }

def setCur (s : State α) (j n : Nat) : State α := { s with cur_machine_num := Function.update s.cur_machine_num j n }

def enter (s : State α) (j c : Nat) : State α :=
  { s with barrier := some (c + 1), entered := Function.update s.entered j true }

def move (s : State α) (j : Nat) (late : Bool) : State α :=
  match s.pc j with
  | .register =>
    if late then goto s j .thrown
    else goto (addMachine s j) j (if s.serverNum + 1 > E.max_machine then .thrown else .publish)
  | .publish => if late then goto s j .thrown else goto (setMachineId s (s.my_id j) j) j .self
  | .self => goto (setDataFromRemote E s j (setDataToRemote E j j)) j .look
  | .look =>
    if late then goto s j .thrown
    else goto s j (if s.serverNum > E.max_machine then .thrown else .loop (s.cur_machine_num j) s.serverNum)
  | .loop k n =>
    if k < n then goto s j (if k ≠ s.my_id j then .ask k n else .loop (k + 1) n)
    else goto (setCur s j n) j (if n < E.max_machine then (if late then .thrown else .look) else .add)
  | .ask k n =>
    if late then goto s j .thrown
    else
      match s.machineIds k with
      | none => s
      | some m => goto s j (if E.max_machine ≤ m then .thrown else .put k n m)
  | .put k n m => if late then goto s j .thrown else goto (setMeta s (s.my_id j) k (setDataToRemote E j m)) j (.get k n)
  | .get k n =>
    if late then goto s j .thrown
    else
      match s.metas k (s.my_id j) with
      | none => s
      | some remoteMeta =>
        if E.max_machine ≤ remoteMeta.machine_id then goto s j .thrown
        else goto (setDataFromRemote E s j remoteMeta) j (.loop (k + 1) n)
  | .add => if late then goto s j .thrown else goto { s with barrier := some (s.barrier.getD 0) } j .incr
  | .incr =>
    if late then goto s j .thrown
    else
      match s.barrier with
      | none => s
      | some c => goto (enter s j c) j .wait
  | .wait =>
    if late then goto s j .thrown
    else
      match s.barrier with
      | none => s
      | some c => if c = E.max_machine then goto s j .ready else if c > E.max_machine then goto s j .thrown else s
  | .ready | .thrown => s

def step (s : State α) (a : Nat × Bool) : Option (State α) := if a.1 < E.max_machine then some (move E s a.1 a.2) else none

/- What machine j has for machine m is what m's threads have for j. -/
def Right (s : State α) (j m : Nat) : Prop :=
  ∀ t, t < E.activeThreads j →
    s.remote_mr_msg j t m = if t < E.activeThreads m then E.local_mr_msg m t j else E.zero

def ones (f : Nat → Bool) (j : Nat) : Nat := (f j).toNat

/- The service's side. -/
structure Books (s : State α) : Prop where
  count : s.serverNum = total E.max_machine (ones s.registered)
  distinct : ∀ i j, i < E.max_machine → j < E.max_machine → s.registered i = true → s.registered j = true →
    s.my_id i = s.my_id j → i = j
  orders : ∀ j, j < E.max_machine → s.registered j = true → s.my_id j < s.serverNum
  taken : ∀ k, k < s.serverNum → ∃ j, j < E.max_machine ∧ s.registered j = true ∧ s.my_id j = k
  ids : ∀ k m, s.machineIds k = some m → m < E.max_machine ∧ s.registered m = true ∧ s.my_id m = k
  metas : ∀ a b meta', s.metas a b = some meta' → ∃ j m, j < E.max_machine ∧ m < E.max_machine ∧ s.registered j = true ∧
    s.my_id j = a ∧ s.registered m = true ∧ s.my_id m = b ∧ meta' = setDataToRemote E j m
  entries : s.barrier.getD 0 = total E.max_machine (ones s.entered)

-- A machine that others can find, before the barrier.
structure Begun (s : State α) (j : Nat) : Prop where
  registered : s.registered j = true
  published : s.machineIds (s.my_id j) = some j
  before : s.entered j = false
  own : Right E s j j

/- Machine j has exchanged with every machine whose order is below p. -/
def Linked (s : State α) (j p : Nat) : Prop :=
  ∀ m, m < E.max_machine → s.registered m = true → s.my_id m < p →
    (m ≠ j → (s.metas (s.my_id j) (s.my_id m)).isSome = true) ∧ Right E s j m

def Complete (s : State α) (j : Nat) : Prop :=
  s.machineIds (s.my_id j) = some j ∧ ∀ m, m < E.max_machine → s.registered m = true ∧
    (m ≠ j → (s.metas (s.my_id j) (s.my_id m)).isSome = true) ∧ Right E s j m

def Local (s : State α) (j : Nat) : Pc → Prop
  | .register => s.registered j = false ∧ s.entered j = false ∧ s.cur_machine_num j = 0
  | .publish => s.registered j = true ∧ s.entered j = false ∧ s.cur_machine_num j = 0
  | .self => s.registered j = true ∧ s.machineIds (s.my_id j) = some j ∧ s.entered j = false ∧ s.cur_machine_num j = 0
  | .look => Begun E s j ∧ s.cur_machine_num j ≤ s.serverNum ∧ s.cur_machine_num j < E.max_machine ∧
      Linked E s j (s.cur_machine_num j)
  | .loop k n => Begun E s j ∧ k ≤ n ∧ n ≤ s.serverNum ∧ Linked E s j k
  | .ask k n => Begun E s j ∧ k < n ∧ n ≤ s.serverNum ∧ k ≠ s.my_id j ∧ Linked E s j k
  | .put k n m => Begun E s j ∧ k < n ∧ n ≤ s.serverNum ∧ k ≠ s.my_id j ∧ Linked E s j k ∧ s.machineIds k = some m
  | .get k n => Begun E s j ∧ k < n ∧ n ≤ s.serverNum ∧ k ≠ s.my_id j ∧ Linked E s j k ∧
      (s.metas (s.my_id j) k).isSome = true
  | .add => Begun E s j ∧ Complete E s j
  | .incr => Begun E s j ∧ Complete E s j ∧ s.barrier.isSome = true
  | .wait => s.entered j = true ∧ Complete E s j ∧ s.barrier.isSome = true
  | .ready => s.entered j = true ∧ Complete E s j ∧ ∀ i, i < E.max_machine → s.entered i = true
  | .thrown => s.entered j = true → Complete E s j

structure Safe (s : State α) : Prop where
  books : Books E s
  each : ∀ j, j < E.max_machine → Local E s j (s.pc j)

variable {E} {s u : State α} {i j k n p : Nat} {q : Pc}

section Stays

/- What the moves of others may do, as machine i sees it. -/
structure Grows (s u : State α) (i : Nat) : Prop where
  serverNum : s.serverNum ≤ u.serverNum
  old : ∀ m, u.registered m = true → u.my_id m < s.serverNum → s.registered m = true ∧ u.my_id m = s.my_id m
  kept : ∀ m, s.registered m = true → u.registered m = true ∧ u.my_id m = s.my_id m
  ids : ∀ k m, s.machineIds k = some m → u.machineIds k = some m
  metas : ∀ a b, (s.metas a b).isSome = true → (u.metas a b).isSome = true
  barrier : s.barrier.isSome = true → u.barrier.isSome = true
  entered : ∀ m, s.entered m = true → u.entered m = true
  registered : u.registered i = s.registered i
  my_id : u.my_id i = s.my_id i
  cur : u.cur_machine_num i = s.cur_machine_num i
  waits : u.entered i = s.entered i
  remote : u.remote_mr_msg i = s.remote_mr_msg i

theorem rightGrows (grows : Grows s u i) {m : Nat} (right : Right E s i m) : Right E u i m := by
  intro t inside
  rw [grows.remote]
  exact right t inside

theorem begunGrows (grows : Grows s u i) (begun : Begun E s i) : Begun E u i :=
  ⟨grows.registered.trans begun.registered,by rw [grows.my_id]; exact grows.ids _ _ begun.published,
    grows.waits.trans begun.before,rightGrows grows begun.own⟩

theorem linkedGrows (grows : Grows s u i) (le : p ≤ s.serverNum) (linked : Linked E s i p) : Linked E u i p := by
  intro m known has less
  obtain ⟨before,same⟩ := grows.old m has (by omega)
  obtain ⟨sent,right⟩ := linked m known before (by omega)
  refine ⟨fun other => ?_,rightGrows grows right⟩
  rw [grows.my_id,same]
  exact grows.metas _ _ (sent other)

theorem completeGrows (grows : Grows s u i) (complete : Complete E s i) : Complete E u i := by
  refine ⟨by rw [grows.my_id]; exact grows.ids _ _ complete.1,fun m known => ?_⟩
  obtain ⟨has,sent,right⟩ := complete.2 m known
  obtain ⟨has',same⟩ := grows.kept m has
  refine ⟨has',fun other => ?_,rightGrows grows right⟩
  rw [grows.my_id,same]
  exact grows.metas _ _ (sent other)

theorem localGrows (grows : Grows s u i) (here : Local E s i q) : Local E u i q := by
  have up := grows.serverNum
  cases q with
  | register => exact ⟨grows.registered.trans here.1,grows.waits.trans here.2.1,grows.cur.trans here.2.2⟩
  | publish => exact ⟨grows.registered.trans here.1,grows.waits.trans here.2.1,grows.cur.trans here.2.2⟩
  | self =>
    exact ⟨grows.registered.trans here.1,by rw [grows.my_id]; exact grows.ids _ _ here.2.1,grows.waits.trans here.2.2.1,
      grows.cur.trans here.2.2.2⟩
  | look =>
    obtain ⟨begun,le,less,linked⟩ := here
    unfold Local
    rw [grows.cur]
    exact ⟨begunGrows grows begun,by omega,less,linkedGrows grows le linked⟩
  | loop k n =>
    obtain ⟨begun,le,known,linked⟩ := here
    exact ⟨begunGrows grows begun,le,by omega,linkedGrows grows (by omega) linked⟩
  | ask k n =>
    obtain ⟨begun,less,known,other,linked⟩ := here
    exact ⟨begunGrows grows begun,less,by omega,grows.my_id.symm ▸ other,linkedGrows grows (by omega) linked⟩
  | put k n m =>
    obtain ⟨begun,less,known,other,linked,found⟩ := here
    exact ⟨begunGrows grows begun,less,by omega,grows.my_id.symm ▸ other,linkedGrows grows (by omega) linked,
      grows.ids _ _ found⟩
  | get k n =>
    obtain ⟨begun,less,known,other,linked,sent⟩ := here
    exact ⟨begunGrows grows begun,less,by omega,grows.my_id.symm ▸ other,linkedGrows grows (by omega) linked,
      by rw [grows.my_id]; exact grows.metas _ _ sent⟩
  | add => exact ⟨begunGrows grows here.1,completeGrows grows here.2⟩
  | incr => exact ⟨begunGrows grows here.1,completeGrows grows here.2.1,grows.barrier here.2.2⟩
  | wait => exact ⟨grows.waits.trans here.1,completeGrows grows here.2.1,grows.barrier here.2.2⟩
  | ready =>
    exact ⟨grows.waits.trans here.1,completeGrows grows here.2.1,fun m known => grows.entered m (here.2.2 m known)⟩
  | thrown => exact fun gone => completeGrows grows (here (grows.waits.symm.trans gone))

-- A machine that gives up leaves what it has done.
theorem localThrown (here : Local E s j q) : Local E s j .thrown := by
  intro gone
  cases q with
  | register | publish => exact absurd (here.2.1.symm.trans gone) Bool.false_ne_true
  | self => exact absurd (here.2.2.1.symm.trans gone) Bool.false_ne_true
  | look | loop _ _ | ask _ _ | put _ _ _ | get _ _ | add | incr =>
    exact absurd (here.1.before.symm.trans gone) Bool.false_ne_true
  | wait | ready => exact here.2.1
  | thrown => exact here gone

theorem gotoPc (s : State α) (j : Nat) (q : Pc) : (goto s j q).pc j = q := Function.update_self ..

theorem gotoPcOther (s : State α) (q : Pc) (other : i ≠ j) : (goto s j q).pc i = s.pc i := Function.update_of_ne other ..

theorem growsSame (s : State α) (i : Nat) : Grows s s i :=
  ⟨Nat.le_refl _,fun _ has _ => ⟨has,rfl⟩,fun _ has => ⟨has,rfl⟩,fun _ _ found => found,fun _ _ found => found,
    fun found => found,fun _ gone => gone,rfl,rfl,rfl,rfl,rfl⟩

theorem growsGoto (grows : Grows s u i) : Grows s (goto u j q) i :=
  ⟨grows.serverNum,grows.old,grows.kept,grows.ids,grows.metas,grows.barrier,grows.entered,grows.registered,grows.my_id,
    grows.cur,grows.waits,grows.remote⟩

theorem safeGoto (safe : Safe E s) (books : Books E u) (pcs : u.pc = s.pc)
    (grows : ∀ i, i < E.max_machine → i ≠ j → Grows s u i) (here : Local E u j q) : Safe E (goto u j q) where
  books := ⟨books.count,books.distinct,books.orders,books.taken,books.ids,books.metas,books.entries⟩
  each i known := by
    rcases eq_or_ne i j with rfl | other
    · rw [gotoPc]
      exact localGrows (growsGoto (growsSame u i)) here
    · rw [gotoPcOther u q other,pcs]
      exact localGrows (growsGoto (grows i known other)) (safe.each i known)

theorem safeStay (safe : Safe E s) (here : Local E s j q) : Safe E (goto s j q) :=
  safeGoto safe safe.books rfl (fun i _ _ => growsSame s i) here

end Stays

section Moves

theorem registeredMost (books : Books E s) : s.serverNum ≤ E.max_machine := by
  rw [books.count]
  exact (totalBound (fun k _ => Bool.toNat_le _)).trans (Nat.le_of_eq (Nat.mul_one _))

theorem onesTurn {f : Nat → Bool} {N : Nat} (inside : j < N) (off : f j = false) :
    total N (ones (Function.update f j true)) = total N (ones f) + 1 := by
  have turned := @totalChange (ones f) (ones (Function.update f j true)) N j inside
    (fun k other => by simp only [ones,Function.update_of_ne other])
  simp only [ones,Function.update_self,off,Bool.toNat_true,Bool.toNat_false,Nat.add_zero] at turned
  exact turned

theorem onesFull {f : Nat → Bool} {N : Nat} (full : total N (ones f) = N) (i : Nat) (known : i < N) : f i = true := by
  have one : (f i).toNat = 1 := totalFull (fun k => Bool.toNat_le _) full i known
  cases has : f i with
  | true => rfl
  | false =>
    rw [has] at one
    exact absurd one (by decide)

theorem onesAll {f : Nat → Bool} {N : Nat} (all : ∀ i, i < N → f i = true) : total N (ones f) = N := by
  induction N with
  | zero => rfl
  | succ N ih =>
    rw [totalNext,ih (fun i known => all i (Nat.lt_succ_of_lt known)),ones,all N (Nat.lt_succ_self N)]
    rfl

theorem registerSafe (safe : Safe E s) (known : j < E.max_machine) (here : s.pc j = .register) {q : Pc}
    (goes : q = .thrown ∨ q = .publish) : Safe E (goto (addMachine s j) j q) := by
  have now := safe.each j known
  rw [here] at now
  obtain ⟨fresh,before,cur⟩ := now
  have apart : ∀ m, s.registered m = true → m ≠ j := fun m has => by
    rintro rfl
    exact Bool.false_ne_true (fresh.symm.trans has)
  have selfId : (addMachine s j).my_id j = s.serverNum := Function.update_self ..
  have selfHas : (addMachine s j).registered j = true := Function.update_self ..
  have otherId : ∀ m, m ≠ j → (addMachine s j).my_id m = s.my_id m := fun m other => Function.update_of_ne other ..
  have otherHas : ∀ m, m ≠ j → (addMachine s j).registered m = s.registered m := fun m other => Function.update_of_ne other ..
  have books := safe.books
  refine safeGoto safe ?_ rfl (fun i _ other => ?_) ?_
  · refine ⟨?_,fun a b first second hasA hasB same => ?_,fun a inside has => ?_,fun k less => ?_,fun k m found => ?_,
      fun a b meta' found => ?_,books.entries⟩
    · exact ((onesTurn known fresh).trans (congrArg (· + 1) books.count.symm)).symm
    · rcases eq_or_ne a j with rfl | otherA
      · rcases eq_or_ne b a with rfl | otherB
        · rfl
        · rw [otherHas b otherB] at hasB
          have := books.orders b second hasB
          rw [selfId,otherId b otherB] at same
          omega
      · rw [otherHas a otherA] at hasA
        have := books.orders a first hasA
        rcases eq_or_ne b j with rfl | otherB
        · rw [selfId,otherId a otherA] at same
          omega
        · rw [otherHas b otherB] at hasB
          rw [otherId a otherA,otherId b otherB] at same
          exact books.distinct a b first second hasA hasB same
    · rcases eq_or_ne a j with rfl | other
      · rw [selfId]
        exact Nat.lt_succ_self _
      · rw [otherHas a other] at has
        rw [otherId a other]
        exact Nat.lt_succ_of_lt (books.orders a inside has)
    · rcases Nat.lt_or_eq_of_le (Nat.le_of_lt_succ less) with old | rfl
      · obtain ⟨m,inside,has,same⟩ := books.taken k old
        exact ⟨m,inside,(otherHas m (apart m has)).trans has,(otherId m (apart m has)).trans same⟩
      · exact ⟨j,known,selfHas,selfId⟩
    · obtain ⟨inside,has,same⟩ := books.ids k m found
      exact ⟨inside,(otherHas m (apart m has)).trans has,(otherId m (apart m has)).trans same⟩
    · obtain ⟨c,m,inC,inM,hasC,idC,hasM,idM,same⟩ := books.metas a b meta' found
      exact ⟨c,m,inC,inM,(otherHas c (apart c hasC)).trans hasC,(otherId c (apart c hasC)).trans idC,
        (otherHas m (apart m hasM)).trans hasM,(otherId m (apart m hasM)).trans idM,same⟩
  · refine ⟨Nat.le_succ _,fun m has less => ?_,fun m has => ?_,fun _ _ found => found,fun _ _ found => found,
      fun found => found,fun _ gone => gone,otherHas i other,otherId i other,rfl,rfl,rfl⟩
    · have other' : m ≠ j := by
        rintro rfl
        rw [selfId] at less
        omega
      exact ⟨(otherHas m other').symm.trans has,otherId m other'⟩
    · exact ⟨(otherHas m (apart m has)).trans has,otherId m (apart m has)⟩
  · rcases goes with rfl | rfl
    · exact fun gone => absurd (before.symm.trans gone) Bool.false_ne_true
    · exact ⟨selfHas,before,cur⟩

theorem publishSafe (safe : Safe E s) (known : j < E.max_machine) (here : s.pc j = .publish) :
    Safe E (goto (setMachineId s (s.my_id j) j) j .self) := by
  have now := safe.each j known
  rw [here] at now
  obtain ⟨has,before,cur⟩ := now
  have books := safe.books
  have self' : (setMachineId s (s.my_id j) j).machineIds (s.my_id j) = some j := Function.update_self ..
  have other' : ∀ k, k ≠ s.my_id j → (setMachineId s (s.my_id j) j).machineIds k = s.machineIds k :=
    fun k other => Function.update_of_ne other ..
  refine safeGoto safe ⟨books.count,books.distinct,books.orders,books.taken,fun k m found => ?_,books.metas,books.entries⟩ rfl
    (fun i _ _ => { growsSame s i with ids := fun k m found => ?_ }) ⟨has,self',before,cur⟩
  · rcases eq_or_ne k (s.my_id j) with rfl | other
    · cases self'.symm.trans found
      exact ⟨known,has,rfl⟩
    · exact books.ids k m ((other' k other).symm.trans found)
  · rcases eq_or_ne k (s.my_id j) with rfl | other
    · obtain ⟨inside,has',same⟩ := books.ids _ m found
      rw [self',books.distinct j m known inside has has' same.symm]
    · exact (other' k other).trans found

theorem fromRemoteSelf {meta' : ExchangeMeta α} (known : meta'.machine_id = i)
    (sent : meta' = setDataToRemote E i j) : Right E (setDataFromRemote E s j meta') j i := by
  intro t inside
  simp only [setDataFromRemote,Function.update_self]
  rw [if_pos ⟨inside,known.symm⟩,sent]
  rfl

theorem fromRemoteOther {meta' : ExchangeMeta α} {m : Nat} (other : m ≠ meta'.machine_id) (right : Right E s j m) :
    Right E (setDataFromRemote E s j meta') j m := by
  intro t inside
  simp only [setDataFromRemote,Function.update_self]
  rw [if_neg (fun both => other both.2)]
  exact right t inside

theorem growsRemote (meta' : ExchangeMeta α) (other : i ≠ j) : Grows s (setDataFromRemote E s j meta') i :=
  { growsSame s i with remote := Function.update_of_ne other .. }

theorem selfSafe (safe : Safe E s) (known : j < E.max_machine) (here : s.pc j = .self) :
    Safe E (goto (setDataFromRemote E s j (setDataToRemote E j j)) j .look) := by
  have now := safe.each j known
  rw [here] at now
  obtain ⟨has,published,before,cur⟩ := now
  have books := safe.books
  have low : (setDataFromRemote E s j (setDataToRemote E j j)).cur_machine_num j = 0 := cur
  refine safeGoto safe ⟨books.count,books.distinct,books.orders,books.taken,books.ids,books.metas,books.entries⟩ rfl
    (fun i _ other => growsRemote _ other) ⟨⟨has,published,before,fromRemoteSelf rfl rfl⟩,?_,?_,fun m _ _ less => ?_⟩
  · rw [low]
    exact Nat.zero_le _
  · rw [low]
    omega
  · rw [low] at less
    exact absurd less (Nat.not_lt_zero _)

/- The machines below the next order: one more, or the machine itself. -/
theorem linkedNext (books : Books E s) (known : j < E.max_machine) (has : s.registered j = true) (own : s.my_id j = k)
    (linked : Linked E s j k) (right : Right E s j j) : Linked E s j (k + 1) := by
  intro m inside has' less
  rcases Nat.lt_or_eq_of_le (Nat.le_of_lt_succ less) with before | same
  · exact linked m inside has' before
  · have here := books.distinct m j inside known has' has (same.trans own.symm)
    exact ⟨fun other => absurd here other,here ▸ right⟩

theorem allRegistered (books : Books E s) (full : s.serverNum = E.max_machine) (i : Nat) (known : i < E.max_machine) :
    s.registered i = true := by
  exact onesFull (books.count.symm.trans full) i known

theorem loopSafe (safe : Safe E s) (known : j < E.max_machine) (here : s.pc j = .loop k n) (late : Bool) :
    Safe E (move E s j late) := by
  have now := safe.each j known
  rw [here] at now
  obtain ⟨begun,le,below,linked⟩ := now
  have books := safe.books
  unfold move
  rw [here]
  simp only
  split
  · rename_i more
    refine safeStay safe ?_
    split
    · rename_i other
      exact ⟨begun,more,below,other,linked⟩
    · rename_i same
      rw [not_not] at same
      exact ⟨begun,more,below,linkedNext books known begun.registered same.symm linked begun.own⟩
  · rename_i done
    have at' : k = n := by omega
    subst at'
    have cur : (setCur s j k).cur_machine_num j = k := Function.update_self ..
    have begun' : Begun E (setCur s j k) j := ⟨begun.registered,begun.published,begun.before,begun.own⟩
    refine safeGoto safe ⟨books.count,books.distinct,books.orders,books.taken,books.ids,books.metas,books.entries⟩ rfl
      (fun i _ other => { growsSame s i with cur := Function.update_of_ne other .. }) ?_
    split
    · rename_i less
      have look : Local E (setCur s j k) j .look := by
        unfold Local
        rw [cur]
        exact ⟨begun',below,less,linked⟩
      split
      · exact localThrown look
      · exact look
    · rename_i all
      have most := registeredMost books
      refine ⟨begun',begun.published,fun m inside => ?_⟩
      have has := allRegistered books (by omega) m inside
      have order := books.orders m inside has
      obtain ⟨sent,right⟩ := linked m inside has (by omega)
      exact ⟨has,sent,right⟩

theorem askSafe (safe : Safe E s) (known : j < E.max_machine) (here : s.pc j = .ask k n) (late : Bool) :
    Safe E (move E s j late) := by
  have now := safe.each j known
  rw [here] at now
  obtain ⟨begun,less,below,other,linked⟩ := now
  unfold move
  rw [here]
  simp only
  split
  · exact safeStay safe (localThrown (q := .ask k n) ⟨begun,less,below,other,linked⟩)
  · split
    · exact safe
    · rename_i m found
      refine safeStay safe ?_
      split
      · exact localThrown (q := .ask k n) ⟨begun,less,below,other,linked⟩
      · exact ⟨begun,less,below,other,linked,found⟩

theorem putSafe {m : Nat} (safe : Safe E s) (known : j < E.max_machine) (here : s.pc j = .put k n m) :
    Safe E (goto (setMeta s (s.my_id j) k (setDataToRemote E j m)) j (.get k n)) := by
  have now := safe.each j known
  rw [here] at now
  obtain ⟨begun,less,below,other,linked,found⟩ := now
  have books := safe.books
  obtain ⟨inside,has,same⟩ := books.ids k m found
  have put : (setMeta s (s.my_id j) k (setDataToRemote E j m)).metas (s.my_id j) k = some (setDataToRemote E j m) := by
    simp only [setMeta,Function.update_self]
  have others : ∀ a b, ¬(a = s.my_id j ∧ b = k) →
      (setMeta s (s.my_id j) k (setDataToRemote E j m)).metas a b = s.metas a b := by
    intro a b apart
    simp only [setMeta]
    rcases eq_or_ne a (s.my_id j) with rfl | first
    · rw [Function.update_self,Function.update_of_ne (fun second => apart ⟨rfl,second⟩)]
    · rw [Function.update_of_ne first]
  have more : ∀ a b, (s.metas a b).isSome = true → ((setMeta s (s.my_id j) k (setDataToRemote E j m)).metas a b).isSome = true := by
    intro a b sent
    by_cases at' : a = s.my_id j ∧ b = k
    · rw [at'.1,at'.2,put]
      rfl
    · rw [others a b at']
      exact sent
  refine safeGoto safe ⟨books.count,books.distinct,books.orders,books.taken,books.ids,fun a b meta' sent => ?_,books.entries⟩
    rfl (fun i _ _ => { growsSame s i with metas := more }) ⟨⟨begun.registered,begun.published,begun.before,begun.own⟩,
      less,below,other,fun m' inside' has' less' => ?_,Option.isSome_iff_exists.mpr ⟨_,put⟩⟩
  · by_cases at' : a = s.my_id j ∧ b = k
    · rw [at'.1,at'.2,put] at sent
      exact ⟨j,m,known,inside,begun.registered,at'.1.symm,has,same.trans at'.2.symm,(Option.some.inj sent).symm⟩
    · rw [others a b at'] at sent
      exact books.metas a b meta' sent
  · obtain ⟨sent,right⟩ := linked m' inside' has' less'
    exact ⟨fun apart => more _ _ (sent apart),right⟩

theorem getSafe (safe : Safe E s) (known : j < E.max_machine) (here : s.pc j = .get k n) (late : Bool) :
    Safe E (move E s j late) := by
  have now := safe.each j known
  rw [here] at now
  obtain ⟨begun,less,below,other,linked,sent⟩ := now
  have thrown : Local E s j .thrown := localThrown (q := .get k n) ⟨begun,less,below,other,linked,sent⟩
  have books := safe.books
  unfold move
  rw [here]
  simp only
  split
  · exact safeStay safe thrown
  · split
    · exact safe
    · rename_i meta' found
      split
      · exact safeStay safe thrown
      · obtain ⟨c,m,inC,inM,hasC,idC,hasM,idM,same⟩ := books.metas _ _ meta' found
        have self' := books.distinct m j inM known hasM begun.registered idM
        subst self'
        have who : meta'.machine_id = c := by rw [same]; rfl
        have apart : m ≠ c := by
          rintro rfl
          exact other idC.symm
        refine safeGoto safe ⟨books.count,books.distinct,books.orders,books.taken,books.ids,books.metas,books.entries⟩ rfl
          (fun i _ other => growsRemote _ other) ⟨⟨begun.registered,begun.published,begun.before,
            fromRemoteOther (by rw [who]; exact apart) begun.own⟩,less,below,fun b inside has less' => ?_⟩
        rcases Nat.lt_or_eq_of_le (Nat.le_of_lt_succ less') with before | at'
        · obtain ⟨sent',right⟩ := linked b inside has before
          refine ⟨sent',fromRemoteOther ?_ right⟩
          rw [who]
          rintro rfl
          exact absurd (idC ▸ before) (Nat.lt_irrefl _)
        · have here' := books.distinct b c inside inC has hasC (at'.trans idC.symm)
          subst here'
          refine ⟨fun _ => ?_,fromRemoteSelf who same⟩
          rw [show (setDataFromRemote E s m meta').my_id b = k from at']
          exact sent

theorem addSafe (safe : Safe E s) (known : j < E.max_machine) (here : s.pc j = .add) :
    Safe E (goto { s with barrier := some (s.barrier.getD 0) } j .incr) := by
  have now := safe.each j known
  rw [here] at now
  have books := safe.books
  exact safeGoto safe ⟨books.count,books.distinct,books.orders,books.taken,books.ids,books.metas,books.entries⟩ rfl
    (fun i _ _ => { growsSame s i with barrier := fun _ => rfl })
    ⟨⟨now.1.registered,now.1.published,now.1.before,now.1.own⟩,now.2,rfl⟩

theorem incrSafe {c : Nat} (safe : Safe E s) (known : j < E.max_machine) (here : s.pc j = .incr) (found : s.barrier = some c) :
    Safe E (goto (enter s j c) j .wait) := by
  have now := safe.each j known
  rw [here] at now
  obtain ⟨begun,complete,-⟩ := now
  have books := safe.books
  have entries := books.entries
  rw [found] at entries
  refine safeGoto safe ⟨books.count,books.distinct,books.orders,books.taken,books.ids,books.metas,?_⟩ rfl
    (fun i _ other => { growsSame s i with
      barrier := fun _ => rfl
      entered := fun m gone => ?_
      waits := Function.update_of_ne other .. }) ⟨Function.update_self ..,complete,rfl⟩
  · exact ((onesTurn known begun.before).trans (congrArg (· + 1) entries.symm)).symm
  · rcases eq_or_ne m j with rfl | other'
    · exact Function.update_self ..
    · exact (Function.update_of_ne other' ..).trans gone

theorem waitSafe (safe : Safe E s) (known : j < E.max_machine) (here : s.pc j = .wait) (late : Bool) :
    Safe E (move E s j late) := by
  have now := safe.each j known
  rw [here] at now
  have thrown : Local E s j .thrown := localThrown (q := .wait) now
  unfold move
  rw [here]
  simp only
  split
  · exact safeStay safe thrown
  · split
    · exact safe
    · rename_i c found
      split
      · rename_i full
        have entries := safe.books.entries
        rw [found] at entries
        refine safeStay safe ⟨now.1,now.2.1,fun i inside => ?_⟩
        exact onesFull (entries.symm.trans full) i inside
      · split
        · exact safeStay safe thrown
        · exact safe

theorem moveSafe (safe : Safe E s) (known : j < E.max_machine) (late : Bool) : Safe E (move E s j late) := by
  have now := safe.each j known
  have thrown : Safe E (goto s j .thrown) := safeStay safe (localThrown now)
  cases here : s.pc j with
  | register =>
    unfold move
    rw [here]
    simp only
    split
    · exact thrown
    · refine registerSafe safe known here ?_
      split
      · exact Or.inl rfl
      · exact Or.inr rfl
  | publish =>
    unfold move
    rw [here]
    simp only
    split
    · exact thrown
    · exact publishSafe safe known here
  | self =>
    unfold move
    rw [here]
    exact selfSafe safe known here
  | look =>
    unfold move
    rw [here]
    rw [here] at now
    simp only
    split
    · exact thrown
    · refine safeStay safe ?_
      split
      · exact localThrown (q := .look) now
      · exact ⟨now.1,now.2.1,Nat.le_refl _,now.2.2.2⟩
  | loop k n => exact loopSafe safe known here late
  | ask k n => exact askSafe safe known here late
  | put k n m =>
    unfold move
    rw [here]
    simp only
    split
    · exact thrown
    · exact putSafe safe known here
  | get k n => exact getSafe safe known here late
  | add =>
    unfold move
    rw [here]
    simp only
    split
    · exact thrown
    · exact addSafe safe known here
  | incr =>
    unfold move
    rw [here]
    simp only
    split
    · exact thrown
    · split
      · exact safe
      · rename_i c found
        exact incrSafe safe known here found
  | wait => exact waitSafe safe known here late
  | ready | thrown =>
    unfold move
    rw [here]
    exact safe

theorem beginSafe (E : Site α) : Safe E (begin' E) where
  books := by
    have none' : total E.max_machine (ones (fun _ => false)) = 0 :=
      Nat.le_zero.mp ((totalBound (fun _ _ => Nat.le_refl 0)).trans (Nat.le_of_eq (Nat.mul_zero _)))
    exact ⟨none'.symm,fun _ _ _ _ no => absurd no Bool.false_ne_true,fun _ _ no => absurd no Bool.false_ne_true,
      fun k no => absurd no (Nat.not_lt_zero k),fun _ _ no => (by cases no),fun _ _ _ no => (by cases no),none'.symm⟩
  each _ _ := ⟨rfl,rfl,rfl⟩

theorem stepSafe {a : Nat × Bool} (h : step E s a = some u) (safe : Safe E s) : Safe E u := by
  unfold step at h
  split at h
  · cases h
    exact moveSafe safe ‹_› a.2
  · cases h

theorem runSafe {schedule : List (Nat × Bool)} (ok : run (step E) (begin' E) schedule = some s) : Safe E s :=
  runInvariant (fun _ _ _ h safe => stepSafe h safe) ok (beginSafe E)

/- Whatever the order of the requests and whoever gives up, the orders of the machines are distinct, and
once a machine is out of establish_connection every machine has, for each of its threads and every
machine, what that thread of that machine has for it. -/
theorem rendezvousExact {E : Site α} {s : State α} (schedule : List (Nat × Bool))
    (ok : run (step E) (begin' E) schedule = some s) :
    (∀ i j, i < E.max_machine → j < E.max_machine → s.registered i = true → s.registered j = true →
      s.my_id i = s.my_id j → i = j) ∧
    ∀ j, j < E.max_machine → s.pc j = .ready → ∀ i m, i < E.max_machine → m < E.max_machine → Right E s i m := by
  have safe := runSafe ok
  refine ⟨safe.books.distinct,fun j known here i m first second => ?_⟩
  have now := safe.each j known
  rw [here] at now
  have gone := now.2.2 i first
  exact ((localThrown (safe.each i first) gone).2 m second).2.2

def twoMachines : Site Nat := ⟨2,fun _ => 1,fun j t m => 100 * j + 10 * t + m,0⟩

def inTurns (n : Nat) : List (Nat × Bool) := (List.replicate n [(0,false),(1,false)]).flatten

theorem rendezvousExactTwo : ∃ s, run (step twoMachines) (begin' twoMachines) (inTurns 14) = some s ∧
    s.remote_mr_msg 1 0 0 = 1 ∧ (∀ i j, i < 2 → j < 2 → s.registered i = true → s.registered j = true →
      s.my_id i = s.my_id j → i = j) ∧
    ∀ j, j < 2 → s.pc j = .ready → ∀ i m, i < 2 → m < 2 → Right twoMachines s i m := by
  have ends : (run (step twoMachines) (begin' twoMachines) (inTurns 14)).map (fun s => s.remote_mr_msg 1 0 0) = some 1 := by
    decide
  obtain ⟨s,ok,sent⟩ := Option.map_eq_some_iff.mp ends
  exact ⟨s,ok,sent,rendezvousExact (inTurns 14) ok⟩

end Moves

section Ends

def leftOf (N cur : Nat) : Pc → Nat
  | .register => 7 * N + 20
  | .publish => 7 * N + 19
  | .self => 7 * N + 18
  | .look => 7 * (N - cur) + 7
  | .loop k n => 7 * (N - k) + if k < n then 6 else 8
  | .ask k _ => 7 * (N - k) + 5
  | .put k _ _ => 7 * (N - k) + 4
  | .get k _ => 7 * (N - k) + 3
  | .add => 3
  | .incr => 2
  | .wait => 1
  | .ready | .thrown => 0

def left (E : Site α) (s : State α) (j : Nat) : Nat := leftOf E.max_machine (s.cur_machine_num j) (s.pc j)

/- What a machine waits for is there. -/
def Free (E : Site α) (s : State α) (j : Nat) : Prop :=
  match s.pc j with
  | .look => s.cur_machine_num j < s.serverNum
  | .ask k _ => (s.machineIds k).isSome = true
  | .get k _ => (s.metas k (s.my_id j)).isSome = true
  | .wait => s.barrier = some E.max_machine
  | .ready | .thrown => False
  | _ => True

theorem movePcOther (late : Bool) (other : i ≠ j) :
    (move E s j late).pc i = s.pc i ∧ (move E s j late).cur_machine_num i = s.cur_machine_num i := by
  have goes : ∀ {u : State α} {q : Pc}, u.pc = s.pc → u.cur_machine_num i = s.cur_machine_num i →
      (goto u j q).pc i = s.pc i ∧ (goto u j q).cur_machine_num i = s.cur_machine_num i :=
    fun pcs cur => ⟨(gotoPcOther _ _ other).trans (congrFun pcs i),cur⟩
  unfold move
  cases here : s.pc j with
  | ready | thrown => exact ⟨rfl,rfl⟩
  | self => exact goes rfl rfl
  | register | publish | look | put _ _ _ | add =>
    simp only
    split <;> exact goes rfl rfl
  | loop k n =>
    simp only
    split
    · exact goes rfl rfl
    · exact goes rfl (Function.update_of_ne other ..)
  | ask _ _ | incr =>
    simp only
    split
    · exact goes rfl rfl
    · split
      · exact ⟨rfl,rfl⟩
      · exact goes rfl rfl
  | get _ _ =>
    simp only
    split
    · exact goes rfl rfl
    · split
      · exact ⟨rfl,rfl⟩
      · split <;> exact goes rfl rfl
  | wait =>
    simp only
    split
    · exact goes rfl rfl
    · split
      · exact ⟨rfl,rfl⟩
      · split
        · exact goes rfl rfl
        · split
          · exact goes rfl rfl
          · exact ⟨rfl,rfl⟩

/- A machine that is free goes on, nearer to the end. -/
theorem freeMoves (safe : Safe E s) (known : j < E.max_machine) (free : Free E s j) :
    (move E s j false).pc j ≠ .thrown ∧ left E (move E s j false) j < left E s j := by
  have now := safe.each j known
  have books := safe.books
  have most := registeredMost books
  have goes : ∀ {v : State α} {q : Pc}, q ≠ .thrown → leftOf E.max_machine (v.cur_machine_num j) q < left E s j →
      (goto v j q).pc j ≠ .thrown ∧ left E (goto v j q) j < left E s j := by
    intro v q apart less
    unfold left
    rw [gotoPc]
    exact ⟨apart,less⟩
  unfold Free at free
  unfold move
  cases here : s.pc j with
  | ready | thrown =>
    rw [here] at free
    exact free.elim
  | register =>
    have more := registeredMost (registerSafe safe known here (Or.inr rfl)).books
    change s.serverNum + 1 ≤ E.max_machine at more
    simp only [Bool.false_eq_true,if_false]
    rw [if_neg (by omega)]
    refine goes Pc.noConfusion ?_
    rw [left,here,leftOf,leftOf]
    omega
  | publish =>
    simp only [Bool.false_eq_true,if_false]
    refine goes Pc.noConfusion ?_
    rw [left,here,leftOf,leftOf]
    omega
  | self =>
    rw [here] at now
    simp only
    refine goes Pc.noConfusion ?_
    rw [left,here,leftOf,leftOf]
    omega
  | look =>
    rw [here] at free now
    simp only [Bool.false_eq_true,if_false]
    rw [if_neg (by omega)]
    refine goes Pc.noConfusion ?_
    rw [left,here,leftOf,leftOf,if_pos free]
    omega
  | loop k n =>
    rw [here] at now
    obtain ⟨-,le,below,-⟩ := now
    simp only [Bool.false_eq_true,if_false]
    split
    · rename_i more
      split
      · refine goes Pc.noConfusion ?_
        rw [left,here,leftOf,leftOf,if_pos more]
        omega
      · refine goes Pc.noConfusion ?_
        rw [left,here,leftOf,leftOf,if_pos more]
        split <;> omega
    · rename_i done
      have at' : k = n := by omega
      subst at'
      have cur : (setCur s j k).cur_machine_num j = k := Function.update_self ..
      split
      · refine goes Pc.noConfusion ?_
        rw [left,here,cur,leftOf,leftOf,if_neg (Nat.lt_irrefl k)]
        omega
      · refine goes Pc.noConfusion ?_
        rw [left,here,leftOf,leftOf,if_neg (Nat.lt_irrefl k)]
        omega
  | ask k n =>
    rw [here] at free now
    obtain ⟨m,found⟩ := Option.isSome_iff_exists.mp free
    have inside := (books.ids k m found).1
    simp only [Bool.false_eq_true,if_false,found]
    rw [if_neg (by omega)]
    refine goes Pc.noConfusion ?_
    rw [left,here,leftOf,leftOf]
    omega
  | put k n m =>
    simp only [Bool.false_eq_true,if_false]
    refine goes Pc.noConfusion ?_
    rw [left,here,leftOf,leftOf]
    omega
  | get k n =>
    rw [here] at free now
    obtain ⟨-,less,below,-⟩ := now
    obtain ⟨meta',found⟩ := Option.isSome_iff_exists.mp free
    obtain ⟨c,m,inC,-,-,-,-,-,same⟩ := books.metas _ _ meta' found
    have inside : meta'.machine_id < E.max_machine := by rw [same]; exact inC
    simp only [Bool.false_eq_true,if_false,found]
    rw [if_neg (by omega)]
    refine goes Pc.noConfusion ?_
    rw [left,here,leftOf,leftOf]
    split <;> omega
  | add =>
    simp only [Bool.false_eq_true,if_false]
    refine goes Pc.noConfusion ?_
    rw [left,here,leftOf,leftOf]
    decide
  | incr =>
    rw [here] at now
    obtain ⟨c,found⟩ := Option.isSome_iff_exists.mp now.2.2
    simp only [Bool.false_eq_true,if_false,found]
    refine goes Pc.noConfusion ?_
    rw [left,here,leftOf,leftOf]
    decide
  | wait =>
    rw [here] at free
    simp only [Bool.false_eq_true,if_false,free,if_true]
    refine goes Pc.noConfusion ?_
    rw [left,here,leftOf,leftOf]
    decide

-- The places where a machine may have to wait for others, or has left.
def waiting : Pc → Bool
  | .look | .ask _ _ | .get _ _ | .wait | .ready | .thrown => true
  | _ => false

theorem freeUnlessWaiting (apart : waiting (s.pc j) = false) : Free E s j := by
  unfold Free
  cases here : s.pc j with
  | look | ask _ _ | get _ _ | wait | ready | thrown =>
    rw [here] at apart
    exact Bool.noConfusion apart
  | register | publish | self | loop _ _ | put _ _ _ | add | incr => trivial

section Everyone

-- Nobody has given up, and everybody is at a place where one may have to wait.
variable (safe : Safe E s) (stays : ∀ j, j < E.max_machine → s.pc j ≠ .thrown)
  (all : ∀ j, j < E.max_machine → waiting (s.pc j) = true)

include safe stays all

theorem waitingPublished (known : j < E.max_machine) : s.registered j = true ∧ s.machineIds (s.my_id j) = some j := by
  have now := safe.each j known
  have here := all j known
  have there := stays j known
  generalize s.pc j = q at now here there
  cases q with
  | look | ask _ _ | get _ _ => exact ⟨now.1.registered,now.1.published⟩
  | wait | ready => exact ⟨(now.2.1.2 j known).1,now.2.1.1⟩
  | thrown => exact absurd rfl there
  | register | publish | self | loop _ _ | put _ _ _ | add | incr => exact Bool.noConfusion here

theorem waitingFull : s.serverNum = E.max_machine := by
  rw [safe.books.count]
  exact onesAll (fun i known => (waitingPublished safe stays all known).1)

theorem lookFree (known : j < E.max_machine) (here : s.pc j = .look) : Free E s j := by
  have now := safe.each j known
  rw [here] at now
  have full := waitingFull safe stays all
  have less := now.2.2.1
  unfold Free
  rw [here]
  simp only
  omega

theorem askFree (known : j < E.max_machine) (here : s.pc j = .ask k n) : Free E s j := by
  have now := safe.each j known
  rw [here] at now
  obtain ⟨-,less,below,-⟩ := now
  obtain ⟨m,inside,-,same⟩ := safe.books.taken k (by omega)
  unfold Free
  rw [here]
  exact Option.isSome_iff_exists.mpr ⟨m,same ▸ (waitingPublished safe stays all inside).2⟩

/- Of two machines that wait for each other's order the one with less before it is not the first to wait. -/
theorem getFree (known : j < E.max_machine) (here : s.pc j = .get k n) :
    ∃ i, i < E.max_machine ∧ Free E s i := by
  -- on the two orders together
  induction size : s.my_id j + k using Nat.strongRecOn generalizing j k n with
  | ind _ ih =>
    have now := safe.each j known
    rw [here] at now
    obtain ⟨begun,less,below,other,-⟩ := now
    cases sent : s.metas k (s.my_id j) with
    | some meta' =>
      refine ⟨j,known,?_⟩
      unfold Free
      rw [here]
      exact Option.isSome_iff_exists.mpr ⟨meta',sent⟩
    | none =>
      obtain ⟨m,inside,has,same⟩ := safe.books.taken k (by omega)
      have apart : j ≠ m := by
        rintro rfl
        exact other same.symm
      have missing : ¬(s.metas (s.my_id m) (s.my_id j)).isSome = true := by
        rw [same,sent]
        exact Bool.false_ne_true
      have now' := safe.each m inside
      cases there : s.pc m with
      | look => exact ⟨m,inside,lookFree safe stays all inside there⟩
      | ask k' n' => exact ⟨m,inside,askFree safe stays all inside there⟩
      | get k' n' =>
        rw [there] at now'
        obtain ⟨-,-,-,-,linked,own⟩ := now'
        refine ih _ ?_ inside there rfl
        rcases Nat.lt_trichotomy k' (s.my_id j) with before | at' | after
        · omega
        · rw [at'] at own
          exact absurd own missing
        · exact absurd ((linked j known begun.registered after).1 apart) missing
      | wait | ready =>
        rw [there] at now'
        exact absurd ((now'.2.1.2 j known).2.1 apart) missing
      | thrown => exact absurd there (stays m inside)
      | register | publish | self | loop _ _ | put _ _ _ | add | incr =>
        have stuck := all m inside
        rw [there] at stuck
        exact Bool.noConfusion stuck

end Everyone

theorem someFree (safe : Safe E s) (stays : ∀ j, j < E.max_machine → s.pc j ≠ .thrown)
    (within : ¬∀ j, j < E.max_machine → s.pc j = .ready) : ∃ j, j < E.max_machine ∧ Free E s j := by
  by_cases all : ∀ j, j < E.max_machine → waiting (s.pc j) = true
  · push Not at within
    obtain ⟨j,known,unready⟩ := within
    have now := safe.each j known
    cases here : s.pc j with
    | look => exact ⟨j,known,lookFree safe stays all known here⟩
    | ask k n => exact ⟨j,known,askFree safe stays all known here⟩
    | get k n => exact getFree safe stays all known here
    | ready => exact absurd here unready
    | thrown => exact absurd here (stays j known)
    | register | publish | self | loop _ _ | put _ _ _ | add | incr =>
      have stuck := all j known
      rw [here] at stuck
      exact Bool.noConfusion stuck
    | wait =>
      -- either everybody has come to the barrier, or somebody is on the way to it
      by_cases entered : ∀ i, i < E.max_machine → s.entered i = true
      · refine ⟨j,known,?_⟩
        rw [here] at now
        obtain ⟨c,found⟩ := Option.isSome_iff_exists.mp now.2.2
        have entries := safe.books.entries
        rw [found] at entries
        unfold Free
        rw [here,found,show c = E.max_machine from entries.trans (onesAll entered)]
      · push Not at entered
        obtain ⟨i,inside,away⟩ := entered
        have now' := safe.each i inside
        cases there : s.pc i with
        | look => exact ⟨i,inside,lookFree safe stays all inside there⟩
        | ask k n => exact ⟨i,inside,askFree safe stays all inside there⟩
        | get k n => exact getFree safe stays all inside there
        | wait | ready =>
          rw [there] at now'
          exact absurd now'.1 away
        | thrown => exact absurd there (stays i inside)
        | register | publish | self | loop _ _ | put _ _ _ | add | incr =>
          have stuck := all i inside
          rw [there] at stuck
          exact Bool.noConfusion stuck
  · push Not at all
    obtain ⟨j,known,apart⟩ := all
    exact ⟨j,known,freeUnlessWaiting (Bool.not_eq_true _ ▸ apart)⟩

/- As long as nobody has given up all machines can get out of establish_connection. -/
theorem rendezvousReturns {E : Site α} {s : State α} (schedule : List (Nat × Bool))
    (ok : run (step E) (begin' E) schedule = some s) (stays : ∀ j, j < E.max_machine → s.pc j ≠ .thrown) :
    ∃ more u, run (step E) s more = some u ∧ ∀ j, j < E.max_machine → u.pc j = .ready := by
  have nearer : ∀ v, (Safe E v ∧ ∀ j, j < E.max_machine → v.pc j ≠ .thrown) → (¬∀ j, j < E.max_machine → v.pc j = .ready) →
      ∃ (a : Nat × Bool) (w : State α), step E v a = some w ∧ (Safe E w ∧ ∀ j, j < E.max_machine → w.pc j ≠ .thrown) ∧
        total E.max_machine (left E w) < total E.max_machine (left E v) := by
    rintro v ⟨safe,stays'⟩ within
    obtain ⟨j,known,free⟩ := someFree safe stays' within
    obtain ⟨apart,less⟩ := freeMoves safe known free
    refine ⟨(j,false),move E v j false,if_pos known,⟨moveSafe safe known false,fun i inside => ?_⟩,
      totalLess known less (fun i other => ?_)⟩
    · rcases eq_or_ne i j with rfl | other
      · exact apart
      · rw [(movePcOther false other).1]
        exact stays' i inside
    · obtain ⟨pcs,cur⟩ := @movePcOther α E v i j false other
      unfold left
      rw [pcs,cur]
  obtain ⟨more,u,ok',-,all⟩ := reachesEnd (fun v => total E.max_machine (left E v)) nearer ⟨runSafe ok,stays⟩
  exact ⟨more,u,ok',all⟩

theorem rendezvousReturnsTwo : ∃ s, run (step twoMachines) (begin' twoMachines) (inTurns 5) = some s ∧
    ∃ more u, run (step twoMachines) s more = some u ∧ ∀ j, j < 2 → u.pc j = .ready := by
  have ends : (run (step twoMachines) (begin' twoMachines) (inTurns 5)).map
      (fun s : State Nat => (s.pc 0,s.pc 1)) = some (.loop 1 2,.ask 0 2) := by decide
  obtain ⟨s,ok,pcs⟩ := Option.map_eq_some_iff.mp ends
  obtain ⟨first,second⟩ := Prod.mk.inj pcs
  refine ⟨s,ok,rendezvousReturns (inTurns 5) ok ?_⟩
  intro j known
  obtain rfl | rfl : j = 0 ∨ j = 1 := by
    have two : j < 2 := known
    omega
  · rw [first]
    exact Pc.noConfusion
  · rw [second]
    exact Pc.noConfusion

end Ends

end CoTra.ServerConnect
