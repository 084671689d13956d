import CoTra.Progress
import CoTra.SplitTree

/-! The thread pool (threadpool.cpp): the cascade that wakes the threads of a run, the work, the
decascade that collects them, and poolPause and poolContiue around it. A schedule is the list of
the calls of the main thread, thread 0, and of the threads that move, one access of a shared
field a move. -/
namespace CoTra.ThreadPool
open Runs Progress SplitTree

-- `false` is the left child of a thread and `true` its right child.
inductive Pc where
  | outside
  | starting
  | joining
  | paused
  | init
  | asleep
  | exited
  | cascade
  | setBegin (right : Bool)
  | setEnd (right : Bool)
  | wake (right : Bool)
  | work
  | working (job : Nat) (stops : Bool)
  | decascade
  | await (right : Bool)
  | setDone
  | clear
  | crashed
  deriving DecidableEq, Repr

/- `asked`, `woken` and `ran` are history: the calls of run, last first, with whether the work
throws shutdown_ty, the threads that the last one woke, and the work each thread has done. A signal
that is not registered yet counts as one that is not done. -/
structure State where
  pc : Nat → Pc
  wbegin : Nat → Nat
  wend : Nat → Nat
  done : Nat → Bool
  work : Option (Nat × Bool)
  asked : List (Nat × Bool)
  woken : Nat → Bool
  ran : Nat → List Nat

inductive Action where
  | run (num : Nat)
  | poolPause
  | poolContiue
  | move (t : Nat)
  deriving DecidableEq, Repr

-- ThreadPool(): the first thread is initialised there, the others start.
def construct : State :=
  ⟨fun t => if t = 0 then .starting else .init,fun _ => 0,fun _ => 0,fun t => t = 0,none,[],fun _ => false,fun _ => []⟩

def midpoint (wbegin wend : Nat) : Nat := wbegin + (1 + wend - wbegin) / 2

def goto (s : State) (t : Nat) (pc : Pc) : State := { s with pc := Function.update s.pc t pc }

def setWbegin (s : State) (t b : Nat) : State := { s with wbegin := Function.update s.wbegin t b }

def setWend (s : State) (t e : Nat) : State := { s with wend := Function.update s.wend t e }

def setDone (s : State) (t : Nat) : State := { s with done := Function.update s.done t true }

def wakeup (s : State) (t : Nat) : State :=
  { s with done := Function.update s.done t false, woken := Function.update s.woken t true }

def worked (s : State) (t job : Nat) : State := { s with ran := Function.update s.ran t (job :: s.ran t) }

def child (s : State) (t : Nat) (right : Bool) : Nat :=
  if right then midpoint (s.wbegin t) (s.wend t) else s.wbegin t

def childEnd (s : State) (t : Nat) (right : Bool) : Nat :=
  if right then s.wend t else midpoint (s.wbegin t) (s.wend t)

-- Behind the left child: the right one, if there is one.
def next (s : State) (t : Nat) (right : Bool) (there : Bool → Pc) (last : Pc) : Pc :=
  if right = false ∧ midpoint (s.wbegin t) (s.wend t) < s.wend t then there true else last

def move (P : Nat) (s : State) (t : Nat) : State :=
  match s.pc t with
  | .outside | .paused | .exited | .crashed => s
  | .starting => if ∀ k, k < P → s.done k = true then goto s t .outside else s
  | .joining => if ∀ k, k < P → 0 < k → s.pc k = .exited then goto s t .paused else s
  | .init => goto (setDone s t) t .asleep
  | .asleep => if s.done t then s else goto s t .cascade
  | .cascade => if s.wbegin t = s.wend t then goto s t .work else goto s t (.setBegin false)
  | .setBegin right => goto (setWbegin s (child s t right) (child s t right + 1)) t (.setEnd right)
  | .setEnd right => goto (setWend s (child s t right) (childEnd s t right)) t (.wake right)
  | .wake right => goto (wakeup s (child s t right)) t (next s t right .setBegin .work)
  | .work =>
    match s.work with
    | some (job,stops) => goto s t (.working job stops)
    | none => goto s t .crashed
  | .working job stops =>
    goto (worked s t job) t (if stops then (if t = 0 then .joining else .exited) else .decascade)
  | .decascade => if s.wbegin t = s.wend t then goto s t .setDone else goto s t (.await false)
  | .await right => if s.done (child s t right) then goto s t (next s t right .await .setDone) else s
  | .setDone => goto (setDone s t) t (if t = 0 then .clear else .asleep)
  | .clear => goto { s with work := none } t .outside

-- run and the head of mainThread.
def call (s : State) (num : Nat) (stops : Bool) : State :=
  { goto (setWend (setWbegin s 0 1) 0 num) 0 .cascade with
    work := some (s.asked.length,stops), asked := (num,stops) :: s.asked, woken := fun t => t = 0 }

-- initThread of the main thread, and the threads that are started anew.
def poolContiue (P : Nat) (s : State) : State :=
  { s with
    pc := fun t => if t = 0 then .starting else if t < P then .init else s.pc t
    done := fun t => if t = 0 then true else if t < P then false else s.done t }

def threadsEmpty (P : Nat) (s : State) : Bool := s.pc 0 = .paused || P ≤ 1

def step (P : Nat) (s : State) : Action → Option State
  | .run num => if s.pc 0 = .outside ∧ 0 < num ∧ num ≤ P then some (call s num false) else none
  | .poolPause =>
    if s.pc 0 = .outside ∨ s.pc 0 = .paused then some (if threadsEmpty P s then s else call s P true) else none
  | .poolContiue =>
    if s.pc 0 = .outside ∨ s.pc 0 = .paused then some (if threadsEmpty P s then poolContiue P s else s) else none
  | .move t => if t < P then some (move P s t) else none

/- The calls that ask for thread t, last first. -/
def due (t : Nat) : List (Nat × Bool) → List Nat
  | [] => []
  | call :: rest => if t < call.1 then rest.length :: due t rest else due t rest

-- The order of the places of a run.
def rank : Pc → Nat
  | .asleep => 1
  | .cascade => 2
  | .setBegin right => 3 + 3 * right.toNat
  | .setEnd right => 4 + 3 * right.toNat
  | .wake right => 5 + 3 * right.toNat
  | .work => 9
  | .working _ _ => 10
  | .decascade => 11
  | .await right => 12 + right.toNat
  | .setDone => 14
  | .clear => 15
  | .exited | .joining => 16
  | .outside | .starting | .paused | .init | .crashed => 17

def place (pc : Pc) (done : Bool) : Nat := if pc = .asleep ∧ done then 15 else rank pc

/- How far a thread is in the run that is going on: 0 before it is woken, 15 when it is done and
16 when it has left on shutdown_ty. -/
def stage (s : State) (t : Nat) : Nat := if s.woken t then place (s.pc t) (s.done t) else 0

def mid (t e : Nat) : Nat := midpoint (t + 1) e

theorem midSplits : Splits mid := by
  intro t e more
  unfold mid midpoint
  omega

-- The children that a thread is about to write to, to wake or to wait for.
def facing : Pc → Option Bool
  | .setBegin right | .setEnd right | .wake right | .await right => some right
  | _ => none

/- The main thread is in a call of run, with num threads. -/
structure Inside (P : Nat) (s : State) (num : Nat) (stops : Bool) (rest : List (Nat × Bool)) : Prop where
  asked : s.asked = (num,stops) :: rest
  work : s.work = some (rest.length,stops)
  positive : 0 < num
  most : num ≤ P
  everyone : stops = true → num = P
  main : s.woken 0 = true ∧ s.pc 0 ≠ .asleep ∧ s.pc 0 ≠ .exited
  workers : ∀ t, t < P → 0 < t → s.pc t ≠ .clear ∧ s.pc t ≠ .joining
  known : ∀ t, t < P → stage s t ≤ if stops then 16 else 15
  halted : ∀ t, t < P → stops = true → stage s t ≤ 10 ∨ stage s t = 16
  quiet : ∀ t, t < P → s.woken t = false → s.pc t = .asleep ∧ s.done t = true
  doneLast : ∀ t, t < P → 0 < t → s.woken t = true → s.done t = true → s.pc t = .asleep
  few : ∀ t, num ≤ t → s.woken t = false
  root : s.wbegin 0 = 1 ∧ s.wend 0 = num
  woke : ∀ t e right, Node mid num t e → HasKid mid t e right →
    (s.woken (kid mid t e right) = true ↔ 6 + 3 * right.toNat ≤ stage s t)
  begun : ∀ t e right, Node mid num t e → HasKid mid t e right → 4 + 3 * right.toNat ≤ stage s t →
    s.wbegin (kid mid t e right) = kid mid t e right + 1
  ended : ∀ t e right, Node mid num t e → HasKid mid t e right → 5 + 3 * right.toNat ≤ stage s t →
    s.wend (kid mid t e right) = kidEnd mid t e right
  faces : ∀ t right, t < P → s.woken t = true → facing (s.pc t) = some right → HasKid mid t (s.wend t) right
  gathered : ∀ t e right, Node mid num t e → HasKid mid t e right → 13 + right.toNat ≤ stage s t →
    stage s t ≤ 15 → stage s (kid mid t e right) = 15
  works : ∀ t job b, t < P → s.woken t = true → s.pc t = .working job b → job = rest.length ∧ b = stops
  ran : ∀ t, t < P → s.ran t = if 11 ≤ stage s t then rest.length :: due t rest else due t rest

-- Every thread of the pool has done what it was asked for.
def Booked (P : Nat) (s : State) : Prop := ∀ t, t < P → s.ran t = due t s.asked

structure Ready (P : Nat) (s : State) : Prop where
  main : s.pc 0 = .outside
  workers : ∀ t, t < P → 0 < t → s.pc t = .asleep ∧ s.done t = true
  booked : Booked P s

structure Starting (P : Nat) (s : State) : Prop where
  main : s.pc 0 = .starting
  mainDone : s.done 0 = true
  workers : ∀ t, t < P → 0 < t → s.pc t = .init ∧ s.done t = false ∨ s.pc t = .asleep ∧ s.done t = true
  booked : Booked P s

structure Paused (P : Nat) (s : State) : Prop where
  main : s.pc 0 = .paused
  workers : ∀ t, t < P → 0 < t → s.pc t = .exited
  booked : Booked P s

def Safe (P : Nat) (s : State) : Prop :=
  Starting P s ∨ Ready P s ∨ Paused P s ∨ ∃ num stops rest, Inside P s num stops rest

variable {P : Nat} {s : State} {num : Nat} {stops : Bool} {rest : List (Nat × Bool)} {t e : Nat} {right : Bool}

section Ranges

/- A thread that is awake knows the range it has. -/
theorem ranges (safe : Inside P s num stops rest) (node : Node mid num t e) (awake : s.woken t = true) :
    s.wbegin t = t + 1 ∧ s.wend t = e := by
  cases node with
  | root => exact safe.root
  | @under p f right parent has =>
    have told := (safe.woke p f right parent has).mp awake
    exact ⟨safe.begun p f right parent has (by omega),safe.ended p f right parent has (by omega)⟩

theorem wokenNode (safe : Inside P s num stops rest) (awake : s.woken t = true) : Node mid num t (s.wend t) := by
  have inside : t < num := by
    by_contra out
    exact Bool.false_ne_true ((safe.few t (by omega)).symm.trans awake)
  obtain ⟨e,node⟩ := nodeOf midSplits inside
  exact (ranges safe node awake).2 ▸ node

theorem childKid (safe : Inside P s num stops rest) (awake : s.woken t = true) (right : Bool) :
    child s t right = kid mid t (s.wend t) right ∧ childEnd s t right = kidEnd mid t (s.wend t) right := by
  have range := ranges safe (wokenNode safe awake) awake
  unfold child childEnd kid kidEnd mid
  rw [range.1]
  exact ⟨rfl,rfl⟩

end Ranges

section Places

/- A thread goes to a place, and its done flag and its work are what it left there. -/
def moved (s : State) (t : Nat) (q : Pc) (d : Bool) (l : List Nat) : State :=
  { s with pc := Function.update s.pc t q, done := Function.update s.done t d, ran := Function.update s.ran t l }

theorem gotoPc (s : State) (t : Nat) (q : Pc) : (goto s t q).pc t = q := Function.update_self ..

theorem gotoPcOther (s : State) (q : Pc) {t k : Nat} (other : k ≠ t) : (goto s t q).pc k = s.pc k :=
  Function.update_of_ne other ..

theorem gotoMoved (s : State) (t : Nat) (q : Pc) : goto s t q = moved s t q (s.done t) (s.ran t) := by
  unfold moved goto
  rw [Function.update_eq_self,Function.update_eq_self]

theorem doneMoved (s : State) (t : Nat) (q : Pc) : goto (setDone s t) t q = moved s t q true (s.ran t) := by
  unfold moved goto setDone
  rw [Function.update_eq_self]

theorem workedMoved (s : State) (t : Nat) (q : Pc) (job : Nat) :
    goto (worked s t job) t q = moved s t q (s.done t) (job :: s.ran t) := by
  unfold moved goto worked
  rw [Function.update_eq_self]

variable {q : Pc} {d : Bool} {l : List Nat} {k : Nat}

theorem movedPc : (moved s t q d l).pc t = q := Function.update_self ..

theorem movedPcOther (other : k ≠ t) : (moved s t q d l).pc k = s.pc k := Function.update_of_ne other ..

theorem movedDone : (moved s t q d l).done t = d := Function.update_self ..

theorem movedDoneOther (other : k ≠ t) : (moved s t q d l).done k = s.done k := Function.update_of_ne other ..

theorem movedRan : (moved s t q d l).ran t = l := Function.update_self ..

theorem movedRanOther (other : k ≠ t) : (moved s t q d l).ran k = s.ran k := Function.update_of_ne other ..

theorem stageMoved (awake : s.woken t = true) : stage (moved s t q d l) t = place q d := by
  unfold stage
  rw [movedPc,movedDone]
  exact if_pos awake

theorem stageMovedOther (other : k ≠ t) : stage (moved s t q d l) k = stage s k := by
  unfold stage
  rw [movedPcOther other,movedDoneOther other]
  rfl

/- What a thread may do without waking another. -/
structure Allowed (s : State) (num : Nat) (stops : Bool) (rest : List (Nat × Bool)) (t : Nat) (q : Pc) (d : Bool)
    (l : List Nat) : Prop where
  early : stage s t < 15
  known : place q d ≤ if stops then 16 else 15
  halted : stops = true → place q d ≤ 10 ∨ place q d = 16
  main : t = 0 → q ≠ .asleep ∧ q ≠ .exited
  workers : 0 < t → q ≠ .clear ∧ q ≠ .joining
  doneLast : 0 < t → d = true → q = .asleep
  woke : ∀ right, HasKid mid t (s.wend t) right → (6 + 3 * right.toNat ≤ stage s t ↔ 6 + 3 * right.toNat ≤ place q d)
  begun : ∀ right, HasKid mid t (s.wend t) right → 4 + 3 * right.toNat ≤ place q d →
    4 + 3 * right.toNat ≤ stage s t ∨ s.wbegin (kid mid t (s.wend t) right) = kid mid t (s.wend t) right + 1
  ended : ∀ right, HasKid mid t (s.wend t) right → 5 + 3 * right.toNat ≤ place q d →
    5 + 3 * right.toNat ≤ stage s t ∨ s.wend (kid mid t (s.wend t) right) = kidEnd mid t (s.wend t) right
  faces : ∀ right, facing q = some right → HasKid mid t (s.wend t) right
  gathered : ∀ right, HasKid mid t (s.wend t) right → 13 + right.toNat ≤ place q d → place q d ≤ 15 →
    13 + right.toNat ≤ stage s t ∨ stage s (kid mid t (s.wend t) right) = 15
  works : ∀ job b, q = .working job b → job = rest.length ∧ b = stops
  ran : l = if 11 ≤ place q d then rest.length :: due t rest else due t rest

theorem insideMoved (safe : Inside P s num stops rest) (inside : t < P) (awake : s.woken t = true)
    (allowed : Allowed s num stops rest t q d l) : Inside P (moved s t q d l) num stops rest where
  asked := safe.asked
  work := safe.work
  positive := safe.positive
  most := safe.most
  everyone := safe.everyone
  main := by
    refine ⟨safe.main.1,?_⟩
    rcases eq_or_ne 0 t with rfl | other
    · rw [movedPc]
      exact allowed.main rfl
    · rw [movedPcOther other]
      exact safe.main.2
  workers k known positive := by
    rcases eq_or_ne k t with rfl | other
    · rw [movedPc]
      exact allowed.workers positive
    · rw [movedPcOther other]
      exact safe.workers k known positive
  known k known := by
    rcases eq_or_ne k t with rfl | other
    · rw [stageMoved awake]
      exact allowed.known
    · rw [stageMovedOther other]
      exact safe.known k known
  halted k known halts := by
    rcases eq_or_ne k t with rfl | other
    · rw [stageMoved awake]
      exact allowed.halted halts
    · rw [stageMovedOther other]
      exact safe.halted k known halts
  quiet k known sleeps := by
    have other : k ≠ t := by
      rintro rfl
      exact Bool.false_ne_true (sleeps.symm.trans awake)
    rw [movedPcOther other,movedDoneOther other]
    exact safe.quiet k known sleeps
  doneLast k known positive up last := by
    rcases eq_or_ne k t with rfl | other
    · rw [movedPc]
      exact allowed.doneLast positive (movedDone.symm.trans last)
    · rw [movedPcOther other]
      exact safe.doneLast k known positive up ((movedDoneOther other).symm.trans last)
  few := safe.few
  root := safe.root
  woke p e right node has := by
    rcases eq_or_ne p t with rfl | other
    · have range := ranges safe node awake
      rw [stageMoved awake]
      exact (safe.woke p e right node has).trans (allowed.woke right (range.2 ▸ has))
    · rw [stageMovedOther other]
      exact safe.woke p e right node has
  begun p e right node has told := by
    rcases eq_or_ne p t with rfl | other
    · have range := ranges safe node awake
      rw [stageMoved awake] at told
      rcases allowed.begun right (range.2 ▸ has) told with before | now
      · exact safe.begun p e right node has before
      · exact range.2 ▸ now
    · rw [stageMovedOther other] at told
      exact safe.begun p e right node has told
  ended p e right node has told := by
    rcases eq_or_ne p t with rfl | other
    · have range := ranges safe node awake
      rw [stageMoved awake] at told
      rcases allowed.ended right (range.2 ▸ has) told with before | now
      · exact safe.ended p e right node has before
      · exact range.2 ▸ now
    · rw [stageMovedOther other] at told
      exact safe.ended p e right node has told
  faces k right known up toward := by
    rcases eq_or_ne k t with rfl | other
    · rw [movedPc] at toward
      exact allowed.faces right toward
    · rw [movedPcOther other] at toward
      exact safe.faces k right known up toward
  gathered p e right node has told inside' := by
    have below := kidPositive midSplits safe.positive node has
    have kidOther : kid mid p e right = t → stage s p < 13 + right.toNat ∨ 15 < stage s p := by
      intro here
      by_contra waits
      have last := safe.gathered p e right node has (by omega) (by omega)
      rw [here] at last
      have := allowed.early
      omega
    rcases eq_or_ne p t with rfl | other
    · have range := ranges safe node awake
      rw [stageMoved awake] at told inside'
      rw [stageMovedOther (by omega)]
      rcases allowed.gathered right (range.2 ▸ has) told inside' with before | now
      · have := allowed.early
        exact safe.gathered p e right node has before (by omega)
      · exact range.2 ▸ now
    · rw [stageMovedOther other] at told inside'
      rw [stageMovedOther (fun here => by have := kidOther here; omega)]
      exact safe.gathered p e right node has told inside'
  works k job b known up here := by
    rcases eq_or_ne k t with rfl | other
    · exact allowed.works job b (movedPc.symm.trans here)
    · exact safe.works k job b known up ((movedPcOther other).symm.trans here)
  ran k known := by
    rcases eq_or_ne k t with rfl | other
    · rw [stageMoved awake,movedRan]
      exact allowed.ran
    · rw [stageMovedOther other,movedRanOther other]
      exact safe.ran k known

end Places

section Writes

variable {c v : Nat}

theorem setWbeginSelf : (setWbegin s c v).wbegin c = v := Function.update_self ..

theorem setWendSelf : (setWend s c v).wend c = v := Function.update_self ..

theorem setWbeginOther {k : Nat} (other : k ≠ c) : (setWbegin s c v).wbegin k = s.wbegin k :=
  Function.update_of_ne other ..

theorem setWendOther {k : Nat} (other : k ≠ c) : (setWend s c v).wend k = s.wend k := Function.update_of_ne other ..

/- The parent writes where the range of a child begins. -/
theorem insideSetWbegin (safe : Inside P s num stops rest) (positive : 0 < c) :
    Inside P (setWbegin s c (c + 1)) num stops rest :=
  { safe with
    root := ⟨(setWbeginOther (by omega)).trans safe.root.1,safe.root.2⟩
    begun := by
      intro t e right node has told
      rcases eq_or_ne (kid mid t e right) c with here | other
      · rw [here,setWbeginSelf]
      · rw [setWbeginOther other]
        exact safe.begun t e right node has told }

theorem insideSetWend (safe : Inside P s num stops rest) (awake : s.woken t = true)
    (has : HasKid mid t (s.wend t) right) (sleeps : s.woken (kid mid t (s.wend t) right) = false) :
    Inside P (setWend s (kid mid t (s.wend t) right) (kidEnd mid t (s.wend t) right)) num stops rest := by
  have node := wokenNode safe awake
  have below := kidPositive midSplits safe.positive node has
  refine { safe with root := ⟨safe.root.1,(setWendOther (by omega)).trans safe.root.2⟩, ended := ?_, faces := ?_ }
  · intro p e side node' has' told
    rcases eq_or_ne (kid mid p e side) (kid mid t (s.wend t) right) with here | other
    · obtain ⟨rfl,rfl⟩ := oneParent midSplits safe.positive node' node has' has here
      rw [oneEnd midSplits safe.positive node' node,setWendSelf]
    · rw [setWendOther other]
      exact safe.ended p e side node' has' told
  · intro k side known up toward
    rw [setWendOther (by rintro rfl; exact Bool.false_ne_true (sleeps.symm.trans up))]
    exact safe.faces k side known up toward

theorem wakeupWoken : (wakeup s c).woken c = true := Function.update_self ..

theorem wakeupWokenOther {k : Nat} (other : k ≠ c) : (wakeup s c).woken k = s.woken k := Function.update_of_ne other ..

theorem wakeupDone : (wakeup s c).done c = false := Function.update_self ..

theorem wakeupDoneOther {k : Nat} (other : k ≠ c) : (wakeup s c).done k = s.done k := Function.update_of_ne other ..

theorem stageWakeup (asleep : s.pc c = .asleep) : stage (wakeup s c) c = 1 := by
  unfold stage
  rw [wakeupWoken,wakeupDone]
  exact (congrArg (place · false) asleep)

theorem stageWakeupOther {k : Nat} (other : k ≠ c) : stage (wakeup s c) k = stage s k := by
  unfold stage
  rw [wakeupWokenOther other,wakeupDoneOther other]
  rfl

end Writes

section Wakeups

/- Where a thread is right after it has woken the child on one side. -/
def behindWake (s : State) (t : Nat) (right : Bool) : Pc := next s t right .setBegin .work

theorem behindWakeCases (safe : Inside P s num stops rest) (awake : s.woken t = true)
    (has : HasKid mid t (s.wend t) right) :
    behindWake s t right = .work ∧ (HasKid mid t (s.wend t) true → right = true) ∨
      right = false ∧ HasKid mid t (s.wend t) true ∧ behindWake s t right = .setBegin true := by
  have range := ranges safe (wokenNode safe awake) awake
  unfold behindWake next
  rw [range.1]
  by_cases left : right = false
  · by_cases more : mid t (s.wend t) < s.wend t
    · exact Or.inr ⟨left,⟨has.1,fun _ => more⟩,if_pos ⟨left,more⟩⟩
    · exact Or.inl ⟨if_neg (fun both => more both.2),fun other => absurd (other.2 rfl) more⟩
  · exact Or.inl ⟨if_neg (fun both => left both.1),fun _ => Bool.not_eq_false _ ▸ left⟩

/- Behind the wakeup on one side exactly the children up to that side are awake. -/
theorem wakeOrder (safe : Inside P s num stops rest) (awake : s.woken t = true)
    (has : HasKid mid t (s.wend t) right) {side : Bool} (has' : HasKid mid t (s.wend t) side) :
    6 + 3 * side.toNat ≤ rank (behindWake s t right) ↔ side = right ∨ 6 + 3 * side.toNat ≤ 5 + 3 * right.toNat := by
  rcases behindWakeCases safe awake has with ⟨work,only⟩ | ⟨rfl,-,begin'⟩
  · rw [work]
    cases side with
    | false => cases right <;> simp [rank]
    | true => simp [rank,only has']
  · rw [begin']
    cases side <;> simp [rank]

theorem reachedWake (safe : Inside P s num stops rest) (awake : s.woken t = true)
    (has : HasKid mid t (s.wend t) right) {side : Bool} (has' : HasKid mid t (s.wend t) side)
    (told : 4 + 3 * side.toNat ≤ rank (behindWake s t right)) : side.toNat ≤ right.toNat := by
  rcases behindWakeCases safe awake has with ⟨work,only⟩ | ⟨rfl,-,begin'⟩
  · cases side with
    | false => exact Nat.zero_le _
    | true => rw [only has']
  · rw [begin'] at told
    cases side with
    | false => exact Nat.zero_le _
    | true => exact absurd told (by decide)

theorem rankWake (safe : Inside P s num stops rest) (awake : s.woken t = true)
    (has : HasKid mid t (s.wend t) right) : rank (behindWake s t right) ≤ 9 := by
  rcases behindWakeCases safe awake has with ⟨work,-⟩ | ⟨-,-,begin'⟩
  · rw [work]; decide
  · rw [begin']; decide

theorem placeWake (here : s.pc t = .wake right) (awake : s.woken t = true) : stage s t = 5 + 3 * right.toNat := by
  unfold stage
  rw [here,if_pos awake]
  rfl

theorem sleepingChild (safe : Inside P s num stops rest) (inside : t < P) (awake : s.woken t = true)
    (here : s.pc t = .wake right) : s.woken (kid mid t (s.wend t) right) = false ∧
      s.pc (kid mid t (s.wend t) right) = .asleep ∧ s.done (kid mid t (s.wend t) right) = true := by
  have node := wokenNode safe awake
  have has : HasKid mid t (s.wend t) right := safe.faces t right inside awake (by rw [here]; rfl)
  have below := kidPositive midSplits safe.positive node has
  have sleeps : s.woken (kid mid t (s.wend t) right) = false := by
    rw [← Bool.not_eq_true,safe.woke t _ right node has,placeWake here awake]
    omega
  exact ⟨sleeps,safe.quiet _ (by have := safe.most; omega) sleeps⟩

theorem wakeStages {c : Nat} (apart : t ≠ c) (awake : s.woken t = true) (asleep : s.pc c = .asleep)
    (busy : behindWake s t right ≠ .asleep) :
    stage (goto (wakeup s c) t (behindWake s t right)) t = rank (behindWake s t right) ∧
      stage (goto (wakeup s c) t (behindWake s t right)) c = 1 ∧
      ∀ k, k ≠ t → k ≠ c → stage (goto (wakeup s c) t (behindWake s t right)) k = stage s k := by
  have up : (wakeup s c).woken t = true := (wakeupWokenOther apart).trans awake
  rw [gotoMoved]
  refine ⟨?_,?_,fun k one two => ?_⟩
  · rw [stageMoved up,wakeupDoneOther apart,place,if_neg (fun both => busy both.1)]
  · rw [stageMovedOther (Ne.symm apart),stageWakeup asleep]
  · rw [stageMovedOther one,stageWakeupOther two]

theorem insideWake (safe : Inside P s num stops rest) (inside : t < P) (awake : s.woken t = true)
    (here : s.pc t = .wake right) :
    Inside P (goto (wakeup s (kid mid t (s.wend t) right)) t (behindWake s t right)) num stops rest := by
  have node := wokenNode safe awake
  have has : HasKid mid t (s.wend t) right := safe.faces t right inside awake (by rw [here]; rfl)
  have below := kidPositive midSplits safe.positive node has
  have at' := placeWake here awake
  obtain ⟨sleeps,asleep⟩ := sleepingChild safe inside awake here
  generalize child' : kid mid t (s.wend t) right = c at below sleeps asleep
  have apart : t ≠ c := by omega
  have up : (wakeup s c).woken t = true := (wakeupWokenOther apart).trans awake
  have notThere : behindWake s t right = .work ∨ behindWake s t right = .setBegin true :=
    (behindWakeCases safe awake has).imp (·.1) (·.2.2)
  have busy : behindWake s t right ≠ .asleep := by
    rcases notThere with work | begin'
    · rw [work]; decide
    · rw [begin']; decide
  obtain ⟨selfStage,childStage,otherStage⟩ := wakeStages apart awake asleep.1 busy
  have selfPc : (goto (wakeup s c) t (behindWake s t right)).pc t = behindWake s t right := Function.update_self ..
  have otherPc : ∀ k, k ≠ t → (goto (wakeup s c) t (behindWake s t right)).pc k = s.pc k :=
    fun k other => Function.update_of_ne other ..
  have low := rankWake safe awake has
  have zero : stage s c = 0 := by
    unfold stage
    rw [sleeps]
    rfl
  have kidOnly : ∀ p e side, Node mid num p e → HasKid mid p e side → kid mid p e side = c → p = t ∧ side = right := by
    intro p e side node' has' same
    exact oneParent midSplits safe.positive node' node has' has (same.trans child'.symm)
  exact {
    asked := safe.asked
    work := safe.work
    positive := safe.positive
    most := safe.most
    everyone := safe.everyone
    main := by
      refine ⟨(wakeupWokenOther (by omega)).trans safe.main.1,?_⟩
      rcases eq_or_ne 0 t with rfl | other
      · rw [selfPc]
        rcases notThere with work | begin'
        · rw [work]; decide
        · rw [begin']; decide
      · rw [otherPc 0 other]
        exact safe.main.2
    workers := by
      intro k known positive
      rcases eq_or_ne k t with rfl | other
      · rw [selfPc]
        rcases notThere with work | begin'
        · rw [work]; decide
        · rw [begin']; decide
      · rw [otherPc k other]
        exact safe.workers k known positive
    known := by
      intro k known
      rcases eq_or_ne k t with rfl | other
      · rw [selfStage]
        split <;> omega
      · rcases eq_or_ne k c with rfl | apart'
        · rw [childStage]
          split <;> omega
        · rw [otherStage k other apart']
          exact safe.known k known
    halted := by
      intro k known halts
      rcases eq_or_ne k t with rfl | other
      · rw [selfStage]
        omega
      · rcases eq_or_ne k c with rfl | apart'
        · rw [childStage]
          omega
        · rw [otherStage k other apart']
          exact safe.halted k known halts
    quiet := by
      intro k known sleeps'
      have two : k ≠ c := by
        rintro rfl
        exact Bool.false_ne_true (sleeps'.symm.trans wakeupWoken)
      have one : k ≠ t := by
        rintro rfl
        exact Bool.false_ne_true (sleeps'.symm.trans up)
      rw [otherPc k one]
      have before := safe.quiet k known ((wakeupWokenOther two).symm.trans sleeps')
      exact ⟨before.1,(wakeupDoneOther two).trans before.2⟩
    doneLast := by
      intro k known positive up' last
      have two : k ≠ c := by
        rintro rfl
        exact Bool.false_ne_true (wakeupDone.symm.trans last)
      have asleep' := safe.doneLast k known positive ((wakeupWokenOther two).symm.trans up')
        ((wakeupDoneOther two).symm.trans last)
      rw [otherPc k (by rintro rfl; exact absurd (here.symm.trans asleep') Pc.noConfusion)]
      exact asleep'
    few := fun k beyond => (wakeupWokenOther (by omega)).trans (safe.few k beyond)
    root := safe.root
    woke := by
      intro p e side node' has'
      rcases eq_or_ne p t with rfl | other
      · have range := ranges safe node' awake
        rw [selfStage,wakeOrder safe awake has (range.2 ▸ has')]
        rcases eq_or_ne side right with rfl | apart'
        · rw [← range.2,child']
          exact iff_of_true wakeupWoken (Or.inl rfl)
        · rw [or_iff_right apart',← at',← safe.woke p e side node' has']
          show (wakeup s c).woken _ = true ↔ _
          rw [wakeupWokenOther (fun same => apart' (kidOnly p e side node' has' same).2)]
      · have apart' : kid mid p e side ≠ c := fun same => other (kidOnly p e side node' has' same).1
        show (wakeup s c).woken _ = true ↔ _
        rw [wakeupWokenOther apart',safe.woke p e side node' has']
        rcases eq_or_ne p c with rfl | two
        · rw [zero,childStage]
          omega
        · rw [otherStage p other two]
    begun := by
      intro p e side node' has' told
      rcases eq_or_ne p t with rfl | other
      · have range := ranges safe node' awake
        rw [selfStage] at told
        have := reachedWake safe awake has (range.2 ▸ has') told
        exact safe.begun p e side node' has' (by omega)
      · rcases eq_or_ne p c with rfl | two
        · rw [childStage] at told
          omega
        · rw [otherStage p other two] at told
          exact safe.begun p e side node' has' told
    ended := by
      intro p e side node' has' told
      rcases eq_or_ne p t with rfl | other
      · have range := ranges safe node' awake
        rw [selfStage] at told
        have := reachedWake safe awake has (range.2 ▸ has') (Nat.le_of_succ_le (by omega))
        exact safe.ended p e side node' has' (by omega)
      · rcases eq_or_ne p c with rfl | two
        · rw [childStage] at told
          omega
        · rw [otherStage p other two] at told
          exact safe.ended p e side node' has' told
    faces := by
      intro k side known up' toward
      rcases eq_or_ne k t with rfl | other
      · rw [selfPc] at toward
        rcases behindWakeCases safe awake has with ⟨work,-⟩ | ⟨-,more,begin'⟩
        · rw [work] at toward
          exact absurd toward (by simp [facing])
        · rw [begin'] at toward
          cases toward
          exact more
      · rw [otherPc k other] at toward
        rcases eq_or_ne k c with rfl | two
        · rw [asleep.1] at toward
          exact absurd toward (by simp [facing])
        · exact safe.faces k side known ((wakeupWokenOther two).symm.trans up') toward
    gathered := by
      intro p e side node' has' told inside'
      rcases eq_or_ne p t with rfl | other
      · rw [selfStage] at told
        omega
      · rcases eq_or_ne p c with rfl | two
        · rw [childStage] at told
          omega
        · rw [otherStage p other two] at told inside'
          have last := safe.gathered p e side node' has' told inside'
          rw [otherStage _ (by rintro rfl; omega) (by intro same; rw [same] at last; omega)]
          exact last
    works := by
      intro k job b known up' here'
      rcases eq_or_ne k t with rfl | other
      · rw [selfPc] at here'
        rcases notThere with work | begin'
        · rw [work] at here'
          exact Pc.noConfusion here'
        · rw [begin'] at here'
          exact Pc.noConfusion here'
      · rw [otherPc k other] at here'
        rcases eq_or_ne k c with rfl | two
        · exact absurd (asleep.1.symm.trans here') Pc.noConfusion
        · exact safe.works k job b known ((wakeupWokenOther two).symm.trans up') here'
    ran := by
      intro k known
      show s.ran k = _
      rw [safe.ran k known]
      rcases eq_or_ne k t with rfl | other
      · rw [selfStage,if_neg (by have := right.toNat_le; omega),if_neg (by omega)]
      · rcases eq_or_ne k c with rfl | two
        · rw [childStage,zero]
          rfl
        · rw [otherStage k other two] }

end Wakeups

section Moves

theorem placeRank {q : Pc} {d : Bool} (busy : q ≠ .asleep) : place q d = rank q := by
  unfold place
  rw [if_neg (fun both => busy both.1)]

theorem stageRank (awake : s.woken t = true) (busy : s.pc t ≠ .asleep) : stage s t = rank (s.pc t) := by
  unfold stage
  rw [if_pos awake,placeRank busy]

theorem busyNotDone (safe : Inside P s num stops rest) (inside : t < P) (awake : s.woken t = true)
    (busy : s.pc t ≠ .asleep) : 0 < t → s.done t = true → False :=
  fun positive last => busy (safe.doneLast t inside positive awake last)

/- A thread goes on inside the run, its done flag as it was. -/
theorem allowedBusy (safe : Inside P s num stops rest) (inside : t < P) (awake : s.woken t = true) {q : Pc}
    {l : List Nat} (busy : s.pc t ≠ .asleep) (busy' : q ≠ .asleep) (early : rank (s.pc t) < 15)
    (known : rank q ≤ if stops then 16 else 15) (halted : stops = true → rank q ≤ 10 ∨ rank q = 16)
    (main : t = 0 → q ≠ .exited) (workers : 0 < t → q ≠ .clear ∧ q ≠ .joining)
    (faces : ∀ side, facing q = some side → HasKid mid t (s.wend t) side)
    (works : ∀ job b, q = .working job b → job = rest.length ∧ b = stops)
    (ran : l = if 11 ≤ rank q then rest.length :: due t rest else due t rest)
    (kids : ∀ side, HasKid mid t (s.wend t) side →
      (6 + 3 * side.toNat ≤ rank (s.pc t) ↔ 6 + 3 * side.toNat ≤ rank q) ∧
      (4 + 3 * side.toNat ≤ rank q → 4 + 3 * side.toNat ≤ rank (s.pc t) ∨
        s.wbegin (kid mid t (s.wend t) side) = kid mid t (s.wend t) side + 1) ∧
      (5 + 3 * side.toNat ≤ rank q → 5 + 3 * side.toNat ≤ rank (s.pc t) ∨
        s.wend (kid mid t (s.wend t) side) = kidEnd mid t (s.wend t) side) ∧
      (13 + side.toNat ≤ rank q → rank q ≤ 15 → 13 + side.toNat ≤ rank (s.pc t) ∨
        stage s (kid mid t (s.wend t) side) = 15)) : Allowed s num stops rest t q (s.done t) l := by
  have at' := stageRank awake busy
  have there : place q (s.done t) = rank q := placeRank busy'
  exact {
    early := at' ▸ early
    known := there ▸ known
    halted := there ▸ halted
    main := fun zero => ⟨busy',main zero⟩
    workers := workers
    doneLast := fun positive last => absurd last (fun last' => busyNotDone safe inside awake busy positive last')
    woke := fun side has => by rw [at',there]; exact (kids side has).1
    begun := fun side has => by rw [at',there]; exact (kids side has).2.1
    ended := fun side has => by rw [at',there]; exact (kids side has).2.2.1
    faces := faces
    gathered := fun side has => by rw [at',there]; exact (kids side has).2.2.2
    works := works
    ran := there ▸ ran }

theorem ranBefore (safe : Inside P s num stops rest) (inside : t < P) (early : stage s t < 11) :
    s.ran t = due t rest := by
  rw [safe.ran t inside,if_neg (by omega)]

theorem ranBehind (safe : Inside P s num stops rest) (inside : t < P) (late : 11 ≤ stage s t) :
    s.ran t = rest.length :: due t rest := by
  rw [safe.ran t inside,if_pos late]

theorem noKids (alone : t + 1 = s.wend t) {side : Bool} : ¬HasKid mid t (s.wend t) side := fun has => has.1 alone

-- Along a stretch where no child is woken, written to or waited for.
theorem sameKids {x y : Nat} (le : x ≤ y) (flat : ∀ b : Bool, (y < 6 + 3 * b.toNat ∨ 6 + 3 * b.toNat ≤ x) ∧
    (y < 4 + 3 * b.toNat ∨ 4 + 3 * b.toNat ≤ x) ∧ (y < 5 + 3 * b.toNat ∨ 5 + 3 * b.toNat ≤ x) ∧
    (y < 13 + b.toNat ∨ 13 + b.toNat ≤ x ∨ 15 < y)) (side : Bool) {A B C : Prop} :
    (6 + 3 * side.toNat ≤ x ↔ 6 + 3 * side.toNat ≤ y) ∧ (4 + 3 * side.toNat ≤ y → 4 + 3 * side.toNat ≤ x ∨ A) ∧
      (5 + 3 * side.toNat ≤ y → 5 + 3 * side.toNat ≤ x ∨ B) ∧
      (13 + side.toNat ≤ y → y ≤ 15 → 13 + side.toNat ≤ x ∨ C) := by
  have bounds := flat side
  refine ⟨by omega,fun told => Or.inl (by omega),fun told => Or.inl (by omega),fun told inside => Or.inl (by omega)⟩

theorem sameSide {a b : Bool} (same : a.toNat = b.toNat) : a = b := by
  cases a <;> cases b <;> first | rfl | exact absurd same (by decide)

theorem rankWorking (job : Nat) (b : Bool) : rank (.working job b) = 10 := rfl

theorem startCascade (safe : Inside P s num stops rest) (inside : t < P) (awake : s.woken t = true)
    (here : s.pc t = .asleep) (up : s.done t = false) : Inside P (goto s t .cascade) num stops rest := by
  have at' : stage s t = 1 := by
    unfold stage
    rw [if_pos awake,here,up]
    rfl
  rw [gotoMoved]
  refine insideMoved safe inside awake {
    early := by omega
    known := by rw [placeRank (by decide)]; cases stops <;> decide
    halted := fun _ => by rw [placeRank (by decide)]; decide
    main := fun _ => by decide
    workers := fun _ => by decide
    doneLast := fun _ last => absurd (up.symm.trans last) Bool.false_ne_true
    woke := fun side _ => by rw [placeRank (by decide),rank]; omega
    begun := fun side _ told => by rw [placeRank (by decide),rank] at told; omega
    ended := fun side _ told => by rw [placeRank (by decide),rank] at told; omega
    faces := fun side toward => absurd toward (by simp [facing])
    gathered := fun side _ told _ => by rw [placeRank (by decide),rank] at told; omega
    works := fun _ _ => Pc.noConfusion
    ran := by
      rw [placeRank (by decide),rank,if_neg (by decide)]
      exact ranBefore safe inside (by omega) }

theorem cascadeMoves (safe : Inside P s num stops rest) (inside : t < P) (awake : s.woken t = true)
    (here : s.pc t = .cascade) :
    Inside P (if s.wbegin t = s.wend t then goto s t .work else goto s t (.setBegin false)) num stops rest := by
  have range := ranges safe (wokenNode safe awake) awake
  have busy : s.pc t ≠ .asleep := by rw [here]; decide
  have at' := stageRank awake busy
  rw [here,rank] at at'
  have same := ranBefore safe inside (by rw [at']; decide)
  split
  · rename_i alone
    rw [range.1] at alone
    rw [gotoMoved]
    exact insideMoved safe inside awake (allowedBusy safe inside awake busy (by decide) (by rw [here]; decide)
      (by cases stops <;> decide) (fun _ => by decide) (fun _ => by decide) (fun _ => by decide)
      (fun _ toward => absurd toward (by simp [facing])) (fun _ _ => Pc.noConfusion) (same.trans (if_neg (by decide)).symm)
      (fun side has => absurd has (noKids alone)))
  · rename_i more
    rw [range.1] at more
    rw [gotoMoved]
    refine insideMoved safe inside awake (allowedBusy safe inside awake busy (by decide) (by rw [here]; decide)
      (by cases stops <;> decide) (fun _ => by decide) (fun _ => by decide) (fun _ => by decide)
      (fun side toward => ?_) (fun _ _ => Pc.noConfusion) (same.trans (if_neg (by decide)).symm) (fun side has => ?_))
    · cases toward
      exact ⟨more,fun no => absurd no Bool.false_ne_true⟩
    · rw [here]
      exact sameKids (by decide) (by decide) side

theorem setBeginMoves (safe : Inside P s num stops rest) (inside : t < P) (awake : s.woken t = true)
    (here : s.pc t = .setBegin right) :
    Inside P (goto (setWbegin s (child s t right) (child s t right + 1)) t (.setEnd right)) num stops rest := by
  have has : HasKid mid t (s.wend t) right := safe.faces t right inside awake (by rw [here]; rfl)
  have below := kidPositive midSplits safe.positive (wokenNode safe awake) has
  have busy : s.pc t ≠ .asleep := by rw [here]; exact Pc.noConfusion
  have at' := stageRank awake busy
  rw [here,rank] at at'
  have short := right.toNat_le
  rw [(childKid safe awake right).1]
  have wrote := insideSetWbegin safe (Nat.zero_lt_of_lt below.1)
  rw [gotoMoved]
  refine insideMoved wrote inside awake (allowedBusy wrote inside awake busy Pc.noConfusion ?_ ?_ (fun _ => ?_)
    (fun _ => Pc.noConfusion) (fun _ => ⟨Pc.noConfusion,Pc.noConfusion⟩) (fun side toward => ?_) (fun _ _ => Pc.noConfusion)
    ?_ (fun side has' => ?_))
  · show rank (s.pc t) < 15
    rw [here,rank]; omega
  · rw [rank]; split <;> omega
  · rw [rank]; omega
  · cases toward
    exact has
  · rw [rank,if_neg (by omega)]
    exact ranBefore wrote inside (show stage s t < 11 by omega)
  · have short' := side.toNat_le
    show (_ ≤ rank (s.pc t) ↔ _) ∧ (_ → _ ≤ rank (s.pc t) ∨ _) ∧ (_ → _ ≤ rank (s.pc t) ∨ _) ∧ (_ → _ → _ ≤ rank (s.pc t) ∨ _)
    rw [here,rank,rank]
    refine ⟨by omega,fun told => ?_,fun told => Or.inl (by omega),fun told => by omega⟩
    rcases Nat.lt_or_eq_of_le (show side.toNat ≤ right.toNat by omega) with less | same
    · exact Or.inl (by omega)
    · rw [sameSide same]
      exact Or.inr setWbeginSelf

theorem setEndMoves (safe : Inside P s num stops rest) (inside : t < P) (awake : s.woken t = true)
    (here : s.pc t = .setEnd right) :
    Inside P (goto (setWend s (child s t right) (childEnd s t right)) t (.wake right)) num stops rest := by
  have has : HasKid mid t (s.wend t) right := safe.faces t right inside awake (by rw [here]; rfl)
  have below := kidPositive midSplits safe.positive (wokenNode safe awake) has
  have busy : s.pc t ≠ .asleep := by rw [here]; exact Pc.noConfusion
  have at' := stageRank awake busy
  rw [here,rank] at at'
  have short := right.toNat_le
  have sleeps : s.woken (kid mid t (s.wend t) right) = false := by
    rw [← Bool.not_eq_true,safe.woke t _ right (wokenNode safe awake) has]
    omega
  rw [(childKid safe awake right).1,(childKid safe awake right).2]
  have wrote := insideSetWend safe awake has sleeps
  have own : (setWend s (kid mid t (s.wend t) right) (kidEnd mid t (s.wend t) right)).wend t = s.wend t :=
    setWendOther (by omega)
  rw [gotoMoved]
  refine insideMoved wrote inside awake (allowedBusy wrote inside awake busy Pc.noConfusion ?_ ?_ (fun _ => ?_)
    (fun _ => Pc.noConfusion) (fun _ => ⟨Pc.noConfusion,Pc.noConfusion⟩) (fun side toward => ?_) (fun _ _ => Pc.noConfusion)
    ?_ (fun side has' => ?_))
  · show rank (s.pc t) < 15
    rw [here,rank]; omega
  · rw [rank]; split <;> omega
  · rw [rank]; omega
  · cases toward
    rw [own]
    exact has
  · rw [rank,if_neg (by omega)]
    exact ranBefore wrote inside (show stage s t < 11 by omega)
  · have short' := side.toNat_le
    show (_ ≤ rank (s.pc t) ↔ _) ∧ (_ → _ ≤ rank (s.pc t) ∨ _) ∧ (_ → _ ≤ rank (s.pc t) ∨ _) ∧ (_ → _ → _ ≤ rank (s.pc t) ∨ _)
    rw [here,rank,rank]
    refine ⟨by omega,fun told => Or.inl (by omega),fun told => ?_,fun told => by omega⟩
    rcases Nat.lt_or_eq_of_le (show side.toNat ≤ right.toNat by omega) with less | same
    · exact Or.inl (by omega)
    · rw [sameSide same,own]
      exact Or.inr setWendSelf

theorem workMoves (safe : Inside P s num stops rest) (inside : t < P) (awake : s.woken t = true)
    (here : s.pc t = .work) : Inside P (goto s t (.working rest.length stops)) num stops rest := by
  have busy : s.pc t ≠ .asleep := by rw [here]; decide
  have at' := stageRank awake busy
  rw [here,rank] at at'
  have same := ranBefore safe inside (by rw [at']; decide)
  rw [gotoMoved]
  refine insideMoved safe inside awake (allowedBusy safe inside awake busy Pc.noConfusion (by rw [here]; decide)
    (by rw [rankWorking]; cases stops <;> decide) (fun _ => Or.inl (by rw [rankWorking])) (fun _ => Pc.noConfusion)
    (fun _ => ⟨Pc.noConfusion,Pc.noConfusion⟩) (fun _ toward => absurd toward (by simp [facing])) (fun job b same' => ?_)
    (same.trans (if_neg (by rw [rankWorking]; decide)).symm) (fun side has => ?_))
  · cases same'
    exact ⟨rfl,rfl⟩
  · rw [here,rankWorking]
    exact sameKids (by decide) (by decide) side

theorem workingMoves (safe : Inside P s num stops rest) (inside : t < P) (awake : s.woken t = true) {job : Nat} {b : Bool}
    (here : s.pc t = .working job b) :
    Inside P (goto (worked s t job) t (if b then (if t = 0 then .joining else .exited) else .decascade)) num stops rest := by
  obtain ⟨rfl,rfl⟩ := safe.works t job b inside awake here
  have busy : s.pc t ≠ .asleep := by rw [here]; exact Pc.noConfusion
  have at' := stageRank awake busy
  rw [here,rank] at at'
  have same := ranBefore safe inside (by rw [at']; decide)
  rw [workedMoved,same]
  cases b with
  | true =>
    have last : rank (if t = 0 then .joining else .exited) = 16 := by split <;> rfl
    simp only [if_true]
    refine insideMoved safe inside awake (allowedBusy safe inside awake busy (by split <;> decide) (by rw [here,rankWorking]; decide)
      (by rw [last]; decide) (fun _ => Or.inr last) (fun zero => ?_) (fun positive => ?_) (fun side toward => ?_)
      (fun _ _ same' => ?_) (by rw [last]; rfl) (fun side has => ?_))
    · rw [if_pos zero]
      decide
    · rw [if_neg (by omega)]
      decide
    · split at toward <;> exact absurd toward (by simp [facing])
    · split at same' <;> exact Pc.noConfusion same'
    · rw [here,last,rankWorking]
      exact sameKids (by decide) (by decide) side
  | false =>
    simp only [Bool.false_eq_true,if_false]
    refine insideMoved safe inside awake (allowedBusy safe inside awake busy (by decide) (by rw [here,rankWorking]; decide)
      (by decide) (fun no => absurd no Bool.false_ne_true) (fun _ => by decide) (fun _ => by decide)
      (fun side toward => absurd toward (by simp [facing])) (fun _ _ => Pc.noConfusion) rfl (fun side has => ?_))
    rw [here,rankWorking]
    exact sameKids (by decide) (by decide) side

theorem decascadeMoves (safe : Inside P s num stops rest) (inside : t < P) (awake : s.woken t = true)
    (here : s.pc t = .decascade) :
    Inside P (if s.wbegin t = s.wend t then goto s t .setDone else goto s t (.await false)) num stops rest := by
  have range := ranges safe (wokenNode safe awake) awake
  have busy : s.pc t ≠ .asleep := by rw [here]; decide
  have at' := stageRank awake busy
  rw [here,rank] at at'
  have same := ranBehind safe inside (by rw [at'])
  have going : stops = false := by
    rw [← Bool.not_eq_true]
    intro halts
    have := safe.halted t inside halts
    omega
  subst going
  split
  · rename_i alone
    rw [range.1] at alone
    rw [gotoMoved]
    exact insideMoved safe inside awake (allowedBusy safe inside awake busy (by decide) (by rw [here]; decide)
      (by decide) (fun no => absurd no Bool.false_ne_true) (fun _ => by decide) (fun _ => by decide)
      (fun _ toward => absurd toward (by simp [facing])) (fun _ _ => Pc.noConfusion) (same.trans (if_pos (by decide)).symm)
      (fun side has => absurd has (noKids alone)))
  · rename_i more
    rw [range.1] at more
    rw [gotoMoved]
    refine insideMoved safe inside awake (allowedBusy safe inside awake busy (by decide) (by rw [here]; decide)
      (by decide) (fun no => absurd no Bool.false_ne_true) (fun _ => by decide) (fun _ => by decide)
      (fun side toward => ?_) (fun _ _ => Pc.noConfusion) (same.trans (if_pos (by decide)).symm) (fun side has => ?_))
    · cases toward
      exact ⟨more,fun no => absurd no Bool.false_ne_true⟩
    · rw [here]
      exact sameKids (by decide) (by decide) side

/- A child that is awake and done has left the run. -/
theorem doneStage (safe : Inside P s num stops rest) (node : Node mid num t e) (has : HasKid mid t e right)
    (told : 6 + 3 * right.toNat ≤ stage s t) (last : s.done (kid mid t e right) = true) :
    stage s (kid mid t e right) = 15 := by
  have below := kidPositive midSplits safe.positive node has
  have up := (safe.woke t e right node has).mpr told
  have asleep := safe.doneLast _ (by have := safe.most; omega) (by omega) up last
  unfold stage place
  rw [if_pos up,if_pos ⟨asleep,last⟩]

theorem awaitMoves (safe : Inside P s num stops rest) (inside : t < P) (awake : s.woken t = true)
    (here : s.pc t = .await right) (last : s.done (child s t right) = true) :
    Inside P (goto s t (next s t right .await .setDone)) num stops rest := by
  have node := wokenNode safe awake
  have range := ranges safe node awake
  have has : HasKid mid t (s.wend t) right := safe.faces t right inside awake (by rw [here]; rfl)
  have busy : s.pc t ≠ .asleep := by rw [here]; exact Pc.noConfusion
  have short := right.toNat_le
  have at' := stageRank awake busy
  rw [here,rank] at at'
  rw [(childKid safe awake right).1] at last
  have left := doneStage safe node has (by omega) last
  have same := ranBehind safe inside (show 11 ≤ stage s t by omega)
  have going : stops = false := by
    rw [← Bool.not_eq_true]
    intro halts
    have := safe.halted t inside halts
    omega
  subst going
  unfold next
  rw [range.1,gotoMoved]
  split
  · rename_i both
    obtain ⟨rfl,more⟩ := both
    refine insideMoved safe inside awake (allowedBusy safe inside awake busy (by decide) (by rw [here]; decide)
      (by decide) (fun no => absurd no Bool.false_ne_true) (fun _ => by decide) (fun _ => by decide)
      (fun side toward => ?_) (fun _ _ => Pc.noConfusion) (same.trans (if_pos (by decide)).symm) (fun side has' => ?_))
    · cases toward
      exact ⟨has.1,fun _ => more⟩
    · rw [here]
      cases side with
      | false => exact ⟨by decide,fun _ => Or.inl (by decide),fun _ => Or.inl (by decide),fun _ _ => Or.inr left⟩
      | true =>
        exact ⟨by decide,fun _ => Or.inl (by decide),fun _ => Or.inl (by decide),fun told _ => absurd told (by decide)⟩
  · rename_i alone
    refine insideMoved safe inside awake (allowedBusy safe inside awake busy (by decide) ?_
      (by decide) (fun no => absurd no Bool.false_ne_true) (fun _ => by decide) (fun _ => by decide)
      (fun _ toward => absurd toward (by simp [facing])) (fun _ _ => Pc.noConfusion) (same.trans (if_pos (by decide)).symm)
      (fun side has' => ?_))
    · rw [here,rank]
      omega
    · have short' := side.toNat_le
      rw [here,rank,rank]
      refine ⟨by omega,fun _ => Or.inl (by omega),fun _ => Or.inl (by omega),fun told _ => ?_⟩
      rcases Nat.lt_trichotomy side.toNat right.toNat with before | same' | after
      · exact Or.inl (by omega)
      · rw [sameSide same']
        exact Or.inr left
      · have both : right = false ∧ side = true := by
          cases right <;> cases side <;> first | exact ⟨rfl,rfl⟩ | exact absurd after (by decide)
        exact absurd ⟨both.1,has'.2 both.2⟩ alone

theorem setDoneMoves (safe : Inside P s num stops rest) (inside : t < P) (awake : s.woken t = true)
    (here : s.pc t = .setDone) :
    Inside P (goto (setDone s t) t (if t = 0 then .clear else .asleep)) num stops rest := by
  have busy : s.pc t ≠ .asleep := by rw [here]; decide
  have at' := stageRank awake busy
  rw [here,rank] at at'
  have same := ranBehind safe inside (show 11 ≤ stage s t by omega)
  have last : place (if t = 0 then Pc.clear else .asleep) true = 15 := by split <;> rfl
  have going : stops = false := by
    rw [← Bool.not_eq_true]
    intro halts
    have := safe.halted t inside halts
    omega
  subst going
  rw [doneMoved]
  exact insideMoved safe inside awake {
    early := by omega
    known := by rw [last]; decide
    halted := fun no => absurd no Bool.false_ne_true
    main := fun zero => by rw [if_pos zero]; decide
    workers := fun positive => by rw [if_neg (by omega)]; decide
    doneLast := fun positive _ => by rw [if_neg (by omega)]
    woke := fun side _ => by have := side.toNat_le; omega
    begun := fun side _ _ => Or.inl (by have := side.toNat_le; omega)
    ended := fun side _ _ => Or.inl (by have := side.toNat_le; omega)
    faces := fun side toward => by split at toward <;> exact absurd toward (by simp [facing])
    gathered := fun side _ _ _ => Or.inl (by have := side.toNat_le; omega)
    works := fun _ _ same' => by split at same' <;> exact Pc.noConfusion same'
    ran := by rw [last]; exact same }

/- When the main thread is done every thread of the run is. -/
theorem allDone (safe : Inside P s num stops rest) (last : stage s 0 = 15) (inside : t < num) : stage s t = 15 := by
  obtain ⟨e,node⟩ := nodeOf midSplits inside
  clear inside
  induction node with
  | root => exact last
  | @under p f right parent has ih =>
    have := right.toNat_le
    exact safe.gathered p f right parent has (by omega) (by omega)

theorem bookedInside (safe : Inside P s num stops rest) (all : ∀ t, t < num → 11 ≤ stage s t) : Booked P s := by
  intro t inside
  rw [safe.ran t inside,safe.asked]
  by_cases known : t < num
  · rw [if_pos (all t known),due,if_pos known]
  · have out : stage s t = 0 := by
      unfold stage
      rw [safe.few t (by omega)]
      rfl
    rw [out,if_neg (by decide),due,if_neg known]

theorem clearMoves (safe : Inside P s num stops rest) (here : s.pc 0 = .clear) :
    Ready P (goto { s with work := none } 0 .outside) := by
  have at' := stageRank safe.main.1 (by rw [here]; decide)
  rw [here,rank] at at'
  have booked : Booked P s := bookedInside safe (fun t known => by rw [allDone safe at' known]; decide)
  refine ⟨gotoPc ..,fun t inside positive => ?_,booked⟩
  · rw [gotoPcOther _ _ (by omega)]
    rcases Bool.eq_false_or_eq_true (s.woken t) with awake | sleeps
    · have known : t < num := by
        by_contra out
        exact Bool.false_ne_true ((safe.few t (by omega)).symm.trans awake)
      have last := allDone safe at' known
      unfold stage place at last
      rw [if_pos awake] at last
      split at last
      · assumption
      · have apart := safe.workers t inside positive
        generalize s.pc t = q at last apart
        cases q <;> simp only [rank] at last <;> first | omega | exact absurd rfl apart.1 | skip
        all_goals exact absurd last (by cases ‹Bool› <;> decide)
    · exact safe.quiet t inside sleeps

theorem joinedMoves (safe : Inside P s num stops rest) (here : s.pc 0 = .joining)
    (all : ∀ k, k < P → 0 < k → s.pc k = .exited) : Paused P (goto s 0 .paused) := by
  have booked : Booked P s := by
    refine bookedInside safe (fun t known => ?_)
    have within : t < P := by have := safe.most; omega
    have gone : s.pc t = .exited ∨ s.pc t = .joining := by
      rcases Nat.eq_zero_or_pos t with rfl | positive
      · exact Or.inr here
      · exact Or.inl (all t within positive)
    have awake : s.woken t = true := by
      rw [← Bool.not_eq_false]
      intro sleeps
      have asleep := (safe.quiet t within sleeps).1
      rcases gone with exited | joining
      · exact Pc.noConfusion (exited.symm.trans asleep)
      · exact Pc.noConfusion (joining.symm.trans asleep)
    have busy : s.pc t ≠ .asleep := by
      rcases gone with exited | joining
      · rw [exited]; decide
      · rw [joining]; decide
    rw [stageRank awake busy]
    rcases gone with exited | joining
    · rw [exited]; decide
    · rw [joining]; decide
  refine ⟨gotoPc ..,fun t inside positive => ?_,booked⟩
  rw [gotoPcOther _ _ (by omega)]
  exact all t inside positive

-- The run goes on, or the main thread has left it.
def Onward (P : Nat) (num : Nat) (stops : Bool) (rest : List (Nat × Bool)) (u : State) : Prop :=
  Inside P u num stops rest ∨ u.asked = (num,stops) :: rest ∧ (Ready P u ∨ Paused P u)

theorem moveInside (safe : Inside P s num stops rest) (inside : t < P) : Onward P num stops rest (move P s t) := by
  have stays : ∀ {u}, Inside P u num stops rest → Onward P num stops rest u := Or.inl
  rcases Bool.eq_false_or_eq_true (s.woken t) with awake | sleeps
  · have weird : s.pc t ≠ .asleep → rank (s.pc t) ≤ 16 := fun busy => by
      have := safe.known t inside
      rw [stageRank awake busy] at this
      split at this <;> omega
    unfold move
    cases here : s.pc t with
    | outside | paused | exited | crashed => exact stays safe
    | starting | init => exact absurd (weird (by rw [here]; decide)) (by rw [here]; decide)
    | joining =>
      have zero : t = 0 := by
        by_contra other
        exact (safe.workers t inside (by omega)).2 here
      subst zero
      simp only
      split
      · rename_i all
        exact Or.inr ⟨safe.asked,Or.inr (joinedMoves safe here all)⟩
      · exact stays safe
    | asleep =>
      simp only
      split
      · exact stays safe
      · rename_i up
        exact stays (startCascade safe inside awake here (Bool.not_eq_true _ ▸ up))
    | cascade => exact stays (cascadeMoves safe inside awake here)
    | setBegin right => exact stays (setBeginMoves safe inside awake here)
    | setEnd right => exact stays (setEndMoves safe inside awake here)
    | wake right =>
      have woke := insideWake safe inside awake here
      rw [← (childKid safe awake right).1] at woke
      exact stays woke
    | work =>
      simp only [safe.work]
      exact stays (workMoves safe inside awake here)
    | working job b => exact stays (workingMoves safe inside awake here)
    | decascade => exact stays (decascadeMoves safe inside awake here)
    | await right =>
      simp only
      split
      · rename_i last
        exact stays (awaitMoves safe inside awake here last)
      · exact stays safe
    | setDone => exact stays (setDoneMoves safe inside awake here)
    | clear =>
      have zero : t = 0 := by
        by_contra other
        exact (safe.workers t inside (by omega)).1 here
      subst zero
      exact Or.inr ⟨safe.asked,Or.inl (clearMoves safe here)⟩
  · -- a thread that was not woken still sleeps
    have asleep := safe.quiet t inside sleeps
    unfold move
    rw [asleep.1]
    simp only
    rw [if_pos asleep.2]
    exact stays safe

end Moves

section Pools

theorem callInside {num : Nat} {stops : Bool} (ready : Ready P s) (positive : 0 < num) (most : num ≤ P)
    (everyone : stops = true → num = P) : Inside P (call s num stops) num stops s.asked := by
  have self' : stage (call s num stops) 0 = 2 := rfl
  have other : ∀ t, 0 < t → stage (call s num stops) t = 0 := fun t positive => by
    unfold stage
    rw [if_neg]
    exact fun same => absurd (of_decide_eq_true same) (by omega)
  have low : ∀ t, stage (call s num stops) t ≤ 2 := fun t => by
    rcases Nat.eq_zero_or_pos t with rfl | positive'
    · rw [self']
    · rw [other t positive']
      omega
  have sleeps : ∀ t, 0 < t → (call s num stops).woken t = false := fun t positive => decide_eq_false (by omega)
  have pcs : ∀ t, 0 < t → (call s num stops).pc t = s.pc t := fun t positive => Function.update_of_ne (by omega) ..
  have only : ∀ t, (call s num stops).woken t = true → t = 0 := fun t up => of_decide_eq_true up
  exact {
    asked := rfl
    work := rfl
    positive := positive
    most := most
    everyone := everyone
    main := ⟨rfl,Pc.noConfusion,Pc.noConfusion⟩
    workers := fun t inside positive' => by
      rw [pcs t positive',(ready.workers t inside positive').1]
      decide
    known := fun t _ => (low t).trans (by split <;> decide)
    halted := fun t _ _ => Or.inl ((low t).trans (by decide))
    quiet := fun t inside sleeps' => by
      have positive' : 0 < t := Nat.pos_of_ne_zero (fun zero => absurd sleeps' (by rw [zero]; exact Bool.noConfusion))
      rw [pcs t positive']
      exact ready.workers t inside positive'
    doneLast := fun t _ positive' up _ => absurd (only t up) (by omega)
    few := fun t beyond => sleeps t (by omega)
    root := ⟨rfl,rfl⟩
    woke := fun t e right node has => by
      have below := kidPositive midSplits positive node has
      have := low t
      rw [sleeps _ (by omega)]
      exact iff_of_false Bool.false_ne_true (by omega)
    begun := fun t e right _ _ told => by have := low t; omega
    ended := fun t e right _ _ told => by have := low t; omega
    faces := fun t right _ up toward => by
      rw [only t up] at toward
      exact absurd toward (by simp [call,goto,facing])
    gathered := fun t e right _ _ told _ => by have := low t; omega
    works := fun t job b _ up here => by
      rw [only t up] at here
      exact Pc.noConfusion here
    ran := fun t inside => by
      rw [if_neg (by have := low t; omega)]
      exact ready.booked t inside }

theorem moveStarting (starting : Starting P s) (inside : t < P) :
    (Starting P (move P s t) ∨ Ready P (move P s t)) ∧ (move P s t).asked = s.asked := by
  unfold move
  rcases Nat.eq_zero_or_pos t with rfl | positive
  · rw [starting.main]
    simp only
    split
    · rename_i all
      refine ⟨Or.inr ⟨gotoPc ..,fun k known positive => ?_,starting.booked⟩,rfl⟩
      rw [gotoPcOther _ _ (by omega)]
      rcases starting.workers k known positive with init | asleep
      · exact absurd ((all k known).symm.trans init.2) Bool.true_eq_false.mp
      · exact asleep
    · exact ⟨Or.inl starting,rfl⟩
  · rcases starting.workers t inside positive with init | asleep
    · rw [init.1]
      refine ⟨Or.inl ⟨(gotoPcOther _ _ (by omega)).trans starting.main,?_,fun k known positive' => ?_,starting.booked⟩,rfl⟩
      · exact (Function.update_of_ne (by omega) ..).trans starting.mainDone
      · rcases eq_or_ne k t with rfl | other
        · exact Or.inr ⟨gotoPc ..,Function.update_self ..⟩
        · rw [gotoPcOther _ _ other]
          have same : (goto (setDone s t) t .asleep).done k = s.done k := Function.update_of_ne other ..
          rw [same]
          exact starting.workers k known positive'
    · rw [asleep.1]
      simp only
      rw [if_pos asleep.2]
      exact ⟨Or.inl starting,rfl⟩

theorem moveReady (ready : Ready P s) (inside : t < P) : move P s t = s := by
  unfold move
  rcases Nat.eq_zero_or_pos t with rfl | positive
  · rw [ready.main]
  · rw [(ready.workers t inside positive).1]
    exact if_pos (ready.workers t inside positive).2

theorem movePaused (paused : Paused P s) (inside : t < P) : move P s t = s := by
  unfold move
  rcases Nat.eq_zero_or_pos t with rfl | positive
  · rw [paused.main]
  · rw [paused.workers t inside positive]

theorem continueStarting (booked : Booked P s) : Starting P (poolContiue P s) where
  main := rfl
  mainDone := rfl
  workers t inside positive := Or.inl (by
    unfold poolContiue
    simp only
    rw [if_neg (by omega),if_pos inside,if_neg (by omega),if_pos inside]
    exact ⟨rfl,rfl⟩)
  booked := booked

theorem constructStarting (P : Nat) : Starting P construct where
  main := rfl
  mainDone := rfl
  workers t _ positive := Or.inl ⟨if_neg (by omega),decide_eq_false (by omega)⟩
  booked _ _ := rfl

theorem insideMain (safe : Inside P s num stops rest) : s.pc 0 ≠ .outside ∧ s.pc 0 ≠ .paused ∧ s.pc 0 ≠ .starting := by
  have within : 0 < P := by have := safe.positive; have := safe.most; omega
  have bound := safe.known 0 within
  rw [stageRank safe.main.1 safe.main.2.1] at bound
  have most : rank (s.pc 0) ≤ 16 := by split at bound <;> omega
  refine ⟨fun here => ?_,fun here => ?_,fun here => ?_⟩ <;> rw [here] at most <;> exact absurd most (by decide)

theorem stepSafe {a : Action} {u : State} (h : step P s a = some u) (safe : Safe P s) : Safe P u := by
  cases a with
  | run num =>
    simp only [step] at h
    split at h
    · rename_i may
      cases h
      rcases safe with starting | ready | paused | ⟨_,_,_,inside⟩
      · exact Pc.noConfusion (starting.main.symm.trans may.1)
      · exact Or.inr (Or.inr (Or.inr ⟨_,_,_,callInside ready may.2.1 may.2.2 (fun no => absurd no Bool.false_ne_true)⟩))
      · exact Pc.noConfusion (paused.main.symm.trans may.1)
      · exact absurd may.1 (insideMain inside).1
    · cases h
  | poolPause =>
    simp only [step] at h
    split at h
    · rename_i may
      cases h
      split
      · exact safe
      · rename_i threads
        have apart : s.pc 0 ≠ .paused ∧ 1 < P := by simpa [threadsEmpty] using threads
        rcases safe with starting | ready | paused | ⟨_,_,_,inside⟩
        · rcases may with out | out <;> exact Pc.noConfusion (starting.main.symm.trans out)
        · exact Or.inr (Or.inr (Or.inr ⟨_,_,_,callInside ready (by omega) (Nat.le_refl P) (fun _ => rfl)⟩))
        · exact absurd paused.main apart.1
        · rcases may with out | out
          · exact absurd out (insideMain inside).1
          · exact absurd out (insideMain inside).2.1
    · cases h
  | poolContiue =>
    simp only [step] at h
    split at h
    · rename_i may
      cases h
      split
      · rcases safe with starting | ready | paused | ⟨_,_,_,inside⟩
        · rcases may with out | out <;> exact Pc.noConfusion (starting.main.symm.trans out)
        · exact Or.inl (continueStarting ready.booked)
        · exact Or.inl (continueStarting paused.booked)
        · rcases may with out | out
          · exact absurd out (insideMain inside).1
          · exact absurd out (insideMain inside).2.1
      · exact safe
    · cases h
  | move t =>
    simp only [step] at h
    split at h
    · rename_i known
      cases h
      rcases safe with starting | ready | paused | ⟨num,stops,rest,inside⟩
      · rcases (moveStarting starting known).1 with starting' | ready
        · exact Or.inl starting'
        · exact Or.inr (Or.inl ready)
      · rw [moveReady ready known]
        exact Or.inr (Or.inl ready)
      · rw [movePaused paused known]
        exact Or.inr (Or.inr (Or.inl paused))
      · rcases moveInside inside known with inside' | ⟨-,ready | paused⟩
        · exact Or.inr (Or.inr (Or.inr ⟨num,stops,rest,inside'⟩))
        · exact Or.inr (Or.inl ready)
        · exact Or.inr (Or.inr (Or.inl paused))
    · cases h

theorem runSafe {schedule : List Action} (ok : run (step P) construct schedule = some s) : Safe P s :=
  runInvariant (fun _ _ _ h safe => stepSafe h safe) ok (Or.inl (constructStarting P))

/- Whatever the threads' order, a thread at work does the work of the call that goes on, which asked
for it, a thread has done the work of every earlier call that asked for it exactly once, in order, and
no other, and when run or poolPause has returned that holds of the last call too. -/
theorem poolExact {P : Nat} {s : State} (schedule : List Action) (ok : run (step P) construct schedule = some s)
    {t : Nat} (inside : t < P) :
    (s.pc 0 = .outside ∨ s.pc 0 = .paused → s.ran t = due t s.asked) ∧
      (s.ran t = due t s.asked ∨ s.ran t = due t s.asked.tail) ∧ s.pc t ≠ .crashed ∧
      ∀ job b, s.pc t = .working job b → job + 1 = s.asked.length ∧ s.ran t = due t s.asked.tail ∧
        (∃ call ∈ s.asked.head?, t < call.1 ∧ call.2 = b) ∧ s.pc 0 ≠ .outside ∧ s.pc 0 ≠ .paused := by
  have quiet : ∀ {main : Pc}, s.pc 0 = main → main ≠ .crashed ∧ (∀ job b, main ≠ .working job b) →
      (∀ k, k < P → 0 < k → s.pc k = .init ∨ s.pc k = .asleep ∨ s.pc k = .exited) →
      s.pc t ≠ .crashed ∧ ∀ job b, s.pc t ≠ .working job b := by
    intro main here apart others
    rcases Nat.eq_zero_or_pos t with rfl | positive
    · rw [here]
      exact apart
    · rcases others t inside positive with at' | at' | at' <;> rw [at'] <;> exact ⟨Pc.noConfusion,fun _ _ => Pc.noConfusion⟩
  rcases runSafe ok with starting | ready | paused | ⟨num,stops,rest,safe⟩
  · have calm := quiet starting.main ⟨Pc.noConfusion,fun _ _ => Pc.noConfusion⟩
      (fun k known positive => (starting.workers k known positive).imp (·.1) (Or.inl ·.1))
    exact ⟨fun _ => starting.booked t inside,Or.inl (starting.booked t inside),calm.1,fun job b at' => absurd at' (calm.2 job b)⟩
  · have calm := quiet ready.main ⟨Pc.noConfusion,fun _ _ => Pc.noConfusion⟩
      (fun k known positive => Or.inr (Or.inl (ready.workers k known positive).1))
    exact ⟨fun _ => ready.booked t inside,Or.inl (ready.booked t inside),calm.1,fun job b at' => absurd at' (calm.2 job b)⟩
  · have calm := quiet paused.main ⟨Pc.noConfusion,fun _ _ => Pc.noConfusion⟩
      (fun k known positive => Or.inr (Or.inr (paused.workers k known positive)))
    exact ⟨fun _ => paused.booked t inside,Or.inl (paused.booked t inside),calm.1,fun job b at' => absurd at' (calm.2 job b)⟩
  · have main := insideMain safe
    have awakeOf : ∀ {q}, s.pc t = q → q ≠ .asleep → s.woken t = true := fun here busy => by
      rw [← Bool.not_eq_false]
      exact fun sleeps => busy (here.symm.trans (safe.quiet t inside sleeps).1)
    refine ⟨fun out => ?_,?_,fun crashed => ?_,fun job b at' => ?_⟩
    · rcases out with out | out
      · exact absurd out main.1
      · exact absurd out main.2.1
    · rw [safe.ran t inside,safe.asked]
      split
      · rename_i late
        have known : t < num := by
          by_contra out
          unfold stage at late
          rw [safe.few t (by omega)] at late
          exact absurd late (show ¬11 ≤ 0 by decide)
        exact Or.inl (by rw [due,if_pos known])
      · exact Or.inr rfl
    · have bound := safe.known t inside
      rw [stageRank (awakeOf crashed (by decide)) (by rw [crashed]; decide),crashed] at bound
      split at bound <;> exact absurd bound (by decide)
    · have awake := awakeOf at' Pc.noConfusion
      have place' : stage s t = 10 := by rw [stageRank awake (by rw [at']; exact Pc.noConfusion),at',rankWorking]
      obtain ⟨rfl,rfl⟩ := safe.works t job b inside awake at'
      rw [safe.asked,ranBefore safe inside (by omega)]
      refine ⟨rfl,rfl,⟨_,rfl,?_,rfl⟩,main.1,main.2.1⟩
      by_contra out
      exact Bool.false_ne_true ((safe.few t (by omega)).symm.trans awake)

def twoThreads : List Action :=
  [.move 1,.move 0,.run 2] ++ List.replicate 6 (.move 0) ++ List.replicate 6 (.move 1) ++ List.replicate 4 (.move 0)

theorem poolExactTwo : ∃ s, run (step 2) construct twoThreads = some s ∧ s.asked = [(2,false)] ∧ s.ran 1 = due 1 s.asked :=
  ⟨_,rfl,rfl,(poolExact twoThreads rfl Nat.one_lt_two).1 (Or.inl rfl)⟩

end Pools

section Returns

theorem placeLe (q : Pc) (d : Bool) : place q d ≤ 17 := by
  unfold place
  split
  · decide
  · cases q with
    | setBegin right | setEnd right | wake right | await right => cases right <;> decide
    | _ => exact Nat.le_of_ble_eq_true rfl

theorem stageLe (s : State) (t : Nat) : stage s t ≤ 17 := by
  unfold stage
  split
  · exact placeLe _ _
  · omega

-- A thread that only goes on itself.
theorem stagesMoved {q : Pc} {d : Bool} {l : List Nat} (awake : s.woken t = true) (more : stage s t < place q d) :
    stage s t < stage (moved s t q d l) t ∧ ∀ k, stage s k ≤ stage (moved s t q d l) k := by
  have self' := stageMoved (q := q) (d := d) (l := l) awake
  refine ⟨by omega,fun k => ?_⟩
  rcases eq_or_ne k t with rfl | other
  · omega
  · rw [stageMovedOther other]

theorem moveStages (safe : Inside P s num stops rest) (inside : t < P) (awake : s.woken t = true)
    (early : stage s t < 15) (free : ∀ right, s.pc t = .await right → s.done (child s t right) = true) :
    stage s t < stage (move P s t) t ∧ ∀ k, stage s k ≤ stage (move P s t) k := by
  have ranked : s.pc t ≠ .asleep → stage s t = rank (s.pc t) := stageRank awake
  unfold move
  cases here : s.pc t with
  | outside | starting | joining | paused | init | exited | clear | crashed =>
    rw [ranked (by rw [here]; decide),here] at early
    exact absurd early (by decide)
  | asleep =>
    have at' : stage s t = place .asleep (s.done t) := by
      unfold stage
      rw [if_pos awake,here]
    have up : s.done t = false := by
      rw [← Bool.not_eq_true]
      intro last
      rw [at',last] at early
      exact absurd early (by decide)
    simp only
    rw [if_neg (by rw [up]; exact Bool.false_ne_true),gotoMoved]
    exact stagesMoved awake (by rw [at',up]; decide)
  | cascade =>
    have at' := ranked (by rw [here]; decide)
    simp only
    split
    all_goals
      rw [gotoMoved]
      exact stagesMoved awake (by rw [at',here,placeRank (by decide)]; decide)
  | setBegin right =>
    have at' := ranked (by rw [here]; exact Pc.noConfusion)
    simp only
    rw [gotoMoved]
    refine @stagesMoved (setWbegin s _ _) t _ _ _ awake ?_
    show stage s t < _
    rw [at',here,placeRank Pc.noConfusion,rank,rank]
    omega
  | setEnd right =>
    have at' := ranked (by rw [here]; exact Pc.noConfusion)
    simp only
    rw [gotoMoved]
    refine @stagesMoved (setWend s _ _) t _ _ _ awake ?_
    show stage s t < _
    rw [at',here,placeRank Pc.noConfusion,rank,rank]
    omega
  | wake right =>
    have has : HasKid mid t (s.wend t) right := safe.faces t right inside awake (by rw [here]; rfl)
    have below := kidPositive midSplits safe.positive (wokenNode safe awake) has
    obtain ⟨sleeps,asleep⟩ := sleepingChild safe inside awake here
    have order := (wakeOrder safe awake has has).mpr (Or.inl rfl)
    have busy : behindWake s t right ≠ .asleep := fun sleeps' => by
      rw [sleeps',rank] at order
      omega
    obtain ⟨self',child',other'⟩ := wakeStages (by omega) awake asleep.1 busy
    have at' := placeWake here awake
    simp only
    rw [(childKid safe awake right).1]
    show _ < stage (goto _ t (behindWake s t right)) t ∧ ∀ k, _ ≤ stage (goto _ t (behindWake s t right)) k
    refine ⟨by omega,fun k => ?_⟩
    rcases eq_or_ne k t with rfl | one
    · omega
    · rcases eq_or_ne k (kid mid t (s.wend t) right) with rfl | two
      · have zero : stage s (kid mid t (s.wend t) right) = 0 := by
          unfold stage
          rw [sleeps]
          rfl
        omega
      · rw [other' k one two]
  | work =>
    have at' := ranked (by rw [here]; decide)
    simp only [safe.work]
    rw [gotoMoved]
    exact stagesMoved awake (by rw [at',here,placeRank Pc.noConfusion,rankWorking]; decide)
  | working job b =>
    have at' := ranked (by rw [here]; exact Pc.noConfusion)
    simp only
    rw [workedMoved]
    refine stagesMoved awake ?_
    rw [at',here,rankWorking]
    split
    · split <;> exact (by decide : 10 < 16)
    · exact (by decide : 10 < 11)
  | decascade =>
    have at' := ranked (by rw [here]; decide)
    simp only
    split
    all_goals
      rw [gotoMoved]
      exact stagesMoved awake (by rw [at',here,placeRank (by decide)]; decide)
  | await right =>
    have at' := ranked (by rw [here]; exact Pc.noConfusion)
    simp only
    rw [if_pos (free right here),gotoMoved]
    refine stagesMoved awake ?_
    rw [at',here,rank,next]
    split
    · rename_i both
      rw [both.1]
      exact (by decide : 12 < 13)
    · have := right.toNat_le
      exact (by omega : 12 + right.toNat < 14)
  | setDone =>
    have at' := ranked (by rw [here]; decide)
    simp only
    rw [doneMoved]
    refine stagesMoved awake ?_
    rw [at',here]
    split <;> exact (by decide : 14 < 15)

theorem rankClear {q : Pc} (last : rank q = 15) : q = .clear := by
  cases q <;> simp only [rank] at last <;> first | rfl | omega | exact absurd last (by cases ‹Bool› <;> decide)

theorem rankJoining {q : Pc} (late : 15 ≤ rank q) (most : rank q ≤ 16) (apart : q ≠ .clear) (stays : q ≠ .exited) :
    q = .joining := by
  cases q <;> simp only [rank] at late most <;>
    first | rfl | omega | exact absurd rfl apart | exact absurd rfl stays | exact absurd late (by cases ‹Bool› <;> decide)

/- A thread that can go on, or the main thread where it leaves the run. -/
def Mover (P : Nat) (s : State) (t : Nat) : Prop :=
  t < P ∧ s.woken t = true ∧
    (stage s t < 15 ∧ (∀ right, s.pc t = .await right → s.done (child s t right) = true) ∨
      t = 0 ∧ (s.pc 0 = .clear ∨ s.pc 0 = .joining ∧ ∀ k, k < P → 0 < k → s.pc k = .exited))

/- Below a thread that is not done somebody can go on: it or one of those it waits for. -/
theorem moverBelow (safe : Inside P s num stops rest) (inside : t < num) (awake : s.woken t = true)
    (early : stage s t < 15) : ∃ k, Mover P s k := by
  -- on the threads behind t
  induction left : num - t using Nat.strongRecOn generalizing t with
  | ind _ ih =>
    have within : t < P := by have := safe.most; omega
    by_cases free : ∀ right, s.pc t = .await right → s.done (child s t right) = true
    · exact ⟨t,within,awake,Or.inl ⟨early,free⟩⟩
    · push Not at free
      obtain ⟨right,here,waits⟩ := free
      have node := wokenNode safe awake
      have has : HasKid mid t (s.wend t) right := safe.faces t right within awake (by rw [here]; rfl)
      have below := kidPositive midSplits safe.positive node has
      have at' := stageRank awake (by rw [here]; exact Pc.noConfusion)
      rw [here,rank] at at'
      have short := right.toNat_le
      rw [(childKid safe awake right).1] at waits
      have kidWithin : kid mid t (s.wend t) right < P := by have := safe.most; omega
      have up : s.woken (kid mid t (s.wend t) right) = true := (safe.woke t _ right node has).mpr (by omega)
      have going : stops = false := by
        rw [← Bool.not_eq_true]
        intro halts
        have := safe.halted t within halts
        omega
      subst going
      have most := safe.known _ kidWithin
      have unfinished : stage s (kid mid t (s.wend t) right) ≠ 15 := by
        intro last
        unfold stage place at last
        rw [if_pos up] at last
        split at last
        · rename_i both
          exact waits both.2
        · have apart := safe.workers _ kidWithin (by omega)
          generalize s.pc (kid mid t (s.wend t) right) = q at last apart
          exact apart.1 (rankClear last)
      exact ih _ (by omega) (by omega) up (by rw [if_neg Bool.false_ne_true] at most; omega) rfl

theorem moverThere (safe : Inside P s num stops rest) : ∃ t, Mover P s t := by
  have within : 0 < P := by have := safe.positive; have := safe.most; omega
  have at' := stageRank safe.main.1 safe.main.2.1
  have bound := safe.known 0 within
  rcases Nat.lt_or_ge (stage s 0) 15 with early | late
  · exact moverBelow safe safe.positive safe.main.1 early
  · by_cases last : s.pc 0 = .clear
    · exact ⟨0,within,safe.main.1,Or.inr ⟨rfl,Or.inl last⟩⟩
    · have here : s.pc 0 = .joining := by
        rw [at'] at late bound
        have most : rank (s.pc 0) ≤ 16 := by split at bound <;> omega
        exact rankJoining late most last safe.main.2.2
      have halts : stops = true := by
        rw [← Bool.not_eq_false]
        rintro rfl
        rw [at',here] at bound
        exact absurd bound (by decide)
      by_cases all : ∀ k, k < P → 0 < k → s.pc k = .exited
      · exact ⟨0,within,safe.main.1,Or.inr ⟨rfl,Or.inr ⟨here,all⟩⟩⟩
      · -- the first worker that has not left was woken by a thread that has
        push Not at all
        have first := Nat.find_spec all
        have early : ∀ k, k < Nat.find all → 0 < k → s.pc k = .exited := by
          intro k less positive
          by_contra stays
          exact Nat.find_min all less ⟨by have := first.1; omega,positive,stays⟩
        generalize Nat.find all = t at first early
        obtain ⟨known,positive,stays⟩ := first
        have known' : t < num := (safe.everyone halts).symm ▸ known
        obtain ⟨e,node⟩ := nodeOf midSplits known'
        have awake : s.woken t = true := by
          cases node with
          | root => exact safe.main.1
          | @under p f right parent has =>
            have below := kidPositive midSplits safe.positive parent has
            refine (safe.woke p f right parent has).mpr ?_
            have gone : stage s p = 16 := by
              rcases Nat.eq_zero_or_pos p with rfl | positive'
              · rw [at',here]
                rfl
              · have exited := early p below.1 positive'
                have up : s.woken p = true := by
                  rw [← Bool.not_eq_false]
                  exact fun sleeps =>
                    Pc.noConfusion (exited.symm.trans (safe.quiet p (by omega) sleeps).1)
                rw [stageRank up (by rw [exited]; decide),exited]
                rfl
            have := right.toNat_le
            omega
        have notLast : stage s t ≠ 16 := by
          intro last
          have busy : s.pc t ≠ .asleep := by
            intro asleep
            unfold stage place at last
            rw [if_pos awake,asleep] at last
            split at last <;> exact absurd last (by decide)
          rw [stageRank awake busy] at last
          exact (safe.workers t known positive).2 (rankJoining (by omega) (by omega)
            (safe.workers t known positive).1 stays)
        have := safe.halted t known halts
        exact moverBelow safe known' awake (by omega)

def Out (s : State) : Prop := s.pc 0 = .outside ∨ s.pc 0 = .paused

instance outDecidable (s : State) : Decidable (Out s) := inferInstanceAs (Decidable (_ ∨ _))

def runWeight (P : Nat) (s : State) : Nat := if Out s then 0 else 1 + total P (fun k => 17 - stage s k)

theorem insideNearer {u : State} (onward : Onward P num stops rest u) (within : ¬Out u) :
    ∃ t v, step P u (.move t) = some v ∧ Onward P num stops rest v ∧ runWeight P v < runWeight P u := by
  rcases onward with safe | ⟨-,ready | paused⟩
  · obtain ⟨t,inside,awake,goes⟩ := moverThere safe
    have next' := moveInside safe inside
    refine ⟨t,move P u t,if_pos inside,next',?_⟩
    by_cases out : Out (move P u t)
    · rw [runWeight,runWeight,if_pos out,if_neg within]
      omega
    · rw [runWeight,runWeight,if_neg out,if_neg within]
      refine Nat.add_lt_add_left ?_ 1
      rcases goes with ⟨early,free⟩ | ⟨rfl,leaves⟩
      · obtain ⟨more,most⟩ := moveStages safe inside awake early free
        refine totalDrops inside (by have := stageLe (move P u t) t; omega) (fun k => ?_)
        have := most k
        omega
      · refine absurd ?_ out
        unfold move
        rcases leaves with clear' | ⟨joining,all⟩
        · rw [clear']
          exact Or.inl (gotoPc ..)
        · rw [joining]
          simp only
          rw [if_pos all]
          exact Or.inr (gotoPc ..)
  · exact absurd (Or.inl ready.main) within
  · exact absurd (Or.inr paused.main) within

def startWeight (P : Nat) (s : State) : Nat :=
  if Out s then 0 else 1 + total P (fun k => if s.pc k = .init then 1 else 0)

theorem startNearer {u : State} (asked : List (Nat × Bool)) (positive : 0 < P)
    (starts : (Starting P u ∨ Ready P u) ∧ u.asked = asked) (within : ¬Out u) :
    ∃ t v, step P u (.move t) = some v ∧ ((Starting P v ∨ Ready P v) ∧ v.asked = asked) ∧ startWeight P v < startWeight P u := by
  rcases starts with ⟨starting | ready,same⟩
  · by_cases all : ∀ k, k < P → u.done k = true
    · have moved' := moveStarting starting positive
      refine ⟨0,move P u 0,if_pos positive,⟨moved'.1,moved'.2.trans same⟩,?_⟩
      have out : Out (move P u 0) := by
        unfold move
        rw [starting.main]
        simp only
        rw [if_pos all]
        exact Or.inl (gotoPc ..)
      rw [startWeight,startWeight,if_pos out,if_neg within]
      omega
    · push Not at all
      obtain ⟨t,inside,waits⟩ := all
      have apart : t ≠ 0 := by
        rintro rfl
        exact waits starting.mainDone
      have here : u.pc t = .init := by
        rcases starting.workers t inside (by omega) with init | asleep
        · exact init.1
        · exact absurd asleep.2 waits
      have moved' := moveStarting starting inside
      refine ⟨t,move P u t,if_pos inside,⟨moved'.1,moved'.2.trans same⟩,?_⟩
      have at' : move P u t = goto (setDone u t) t .asleep := by
        unfold move
        rw [here]
      by_cases out : Out (move P u t)
      · rw [startWeight,startWeight,if_pos out,if_neg within]
        omega
      · rw [startWeight,startWeight,if_neg out,if_neg within]
        refine Nat.add_lt_add_left (totalLess inside ?_ (fun k other => ?_)) 1
        · rw [at',gotoPc,here]
          decide
        · rw [at',gotoPcOther _ _ other]
          rfl
  · exact absurd (Or.inl ready.main) within

/- Wherever the threads are, they can go on, with no new call, until the main thread is out of run and
of poolPause again. -/
theorem poolReturns {P : Nat} {s : State} (schedule : List Action) (ok : run (step P) construct schedule = some s)
    (positive : 0 < P) :
    ∃ (moves : List Nat) (u : State), run (step P) s (moves.map .move) = some u ∧ Out u ∧ u.asked = s.asked := by
  rcases runSafe ok with starting | ready | paused | ⟨num,stops,rest,safe⟩
  · obtain ⟨moves,u,ok',⟨-,same⟩,out⟩ := reachesEnd (startWeight P) (fun u => startNearer s.asked positive)
      ⟨Or.inl starting,rfl⟩
    exact ⟨moves,u,(runMap ..).trans ok',out,same⟩
  · exact ⟨[],s,rfl,Or.inl ready.main,rfl⟩
  · exact ⟨[],s,rfl,Or.inr paused.main,rfl⟩
  · obtain ⟨moves,u,ok',onward,out⟩ := reachesEnd (runWeight P) (fun u => insideNearer) (Or.inl safe)
    refine ⟨moves,u,(runMap ..).trans ok',out,?_⟩
    rcases onward with inside | ⟨same,-⟩
    · exact inside.asked.trans safe.asked.symm
    · exact same.trans safe.asked.symm

theorem poolReturnsThree : ∃ s, run (step 3) construct [.move 2,.move 1,.move 0,.poolPause,.move 0] = some s ∧ ¬Out s ∧
    ∃ (moves : List Nat) (u : State), run (step 3) s (moves.map .move) = some u ∧ Out u ∧ u.asked = s.asked :=
  ⟨_,rfl,by decide,poolReturns [.move 2,.move 1,.move 0,.poolPause,.move 0] rfl (Nat.succ_pos 2)⟩

end Returns

end CoTra.ThreadPool
