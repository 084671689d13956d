import CoTra.Progress
import Mathlib.Data.Fin.Basic

/-! The barrier of the thread pool (barrier_mcs.cpp: MCSBarrier). A schedule is the list of the
threads that move, one atomic read or write a move; a thread that is outside calls wait when it
moves. The tree of the nodes is fixed by the number of threads. -/
namespace CoTra.McsBarrier
open Runs Progress

-- Where a thread stands in wait.
inductive Pc where
  | outside
  | look (j : Fin 4)
  | rearm (j : Fin 4)
  | signal
  | spin
  | wake (j : Fin 2)
  | flip
  deriving DecidableEq, Repr

/- What _reinit stores in a node: nodes are named by their thread. -/
def haveChild (P i : Nat) (j : Fin 4) : Bool := 4 * i + j + 1 < P

def parentPointer (i : Nat) : Option (Nat × Fin 4) :=
  if i = 0 then none else some ((i - 1) / 4,⟨(i - 1) % 4,Nat.mod_lt _ (Nat.succ_pos 3)⟩)

def childPointer (P i : Nat) (j : Fin 2) : Option Nat :=
  if P ≤ 2 * i + j + 1 then none else some (2 * i + j + 1)

/- `waits` is a history field: the calls of wait a thread began. -/
structure State where
  pc : Nat → Pc
  waits : Nat → Nat
  childNotReady : Nat → Fin 4 → Bool
  parentSense : Nat → Bool
  sense : Nat → Bool

def reinit (P : Nat) : State :=
  ⟨fun _ => .outside,fun _ => 0,haveChild P,fun _ => false,fun _ => true⟩

def setChildNotReady (s : State) (i : Nat) (j : Fin 4) (b : Bool) : State :=
  { s with childNotReady := Function.update s.childNotReady i (Function.update (s.childNotReady i) j b) }

def setParentSense (s : State) (i : Nat) (b : Bool) : State :=
  { s with parentSense := Function.update s.parentSense i b }

def beginWait (s : State) (i : Nat) : State := { s with waits := Function.update s.waits i (s.waits i + 1) }

def turnSense (s : State) (i : Nat) : State := { s with sense := Function.update s.sense i (!s.sense i) }

def goto (s : State) (i : Nat) (pc : Pc) : State := { s with pc := Function.update s.pc i pc }

-- Behind the last store to childnotready.
def afterRearm (i : Nat) : Pc := if (parentPointer i).isSome then .signal else .wake 0

def afterLook (j : Fin 4) : Pc := if h : j.val + 1 < 4 then .look ⟨j.val + 1,h⟩ else .rearm 0

def move (P : Nat) (s : State) (i : Nat) : State :=
  match s.pc i with
  | .outside => goto (beginWait s i) i (.look 0)
  | .look j => if s.childNotReady i j then goto s i (.look 0) else goto s i (afterLook j)
  | .rearm j =>
    goto (setChildNotReady s i j (haveChild P i j)) i
      (if h : j.val + 1 < 4 then .rearm ⟨j.val + 1,h⟩ else afterRearm i)
  | .signal =>
    match parentPointer i with
    | some (p,j) => goto (setChildNotReady s p j false) i .spin
    | none => goto s i (.wake 0)
  | .spin => if s.parentSense i ≠ s.sense i then s else goto s i (.wake 0)
  | .wake j =>
    let next := if j = 0 then .wake 1 else .flip
    match childPointer P i j with
    | some c => goto (setParentSense s c (s.sense i)) i next
    | none => goto s i next
  | .flip => goto (turnSense s i) i .outside

def step (P : Nat) (s : State) (i : Nat) : Option State := if i < P then some (move P s i) else none

-- The order of the places; the four reads of the first loop are one place.
def rank : Pc → Nat
  | .outside => 0
  | .look _ => 1
  | .rearm j => 2 + j
  | .signal => 6
  | .spin => 7
  | .wake j => 8 + j
  | .flip => 10

/- The calls of wait in which a thread came behind place t. Behind place 6 it has told its
parent, behind place 7 it was woken, and behind place 10 it has returned. -/
def past (s : State) (t i : Nat) : Nat :=
  s.waits i - if 0 < rank (s.pc i) ∧ rank (s.pc i) ≤ t then 1 else 0

def returned (s : State) (i : Nat) : Nat := past s 10 i

structure Safe (P : Nat) (s : State) : Prop where
  started : ∀ i, s.pc i ≠ .outside → 0 < s.waits i
  root : s.pc 0 ≠ .signal ∧ s.pc 0 ≠ .spin
  flags : ∀ i j, s.childNotReady i j =
    (haveChild P i j && decide (past s 6 (4 * i + j + 1) = past s (2 + j) i))
  ahead : ∀ i, ∀ j : Fin 4, 4 * i + j + 1 < P → past s (2 + j) i ≤ past s 6 (4 * i + j + 1)
  behind : ∀ i, ∀ j : Fin 4, 4 * i + j + 1 < P → past s 6 (4 * i + j + 1) ≤ past s (2 + j) i + 1
  gathered : ∀ i, ∀ j : Fin 4, 4 * i + j + 1 < P → past s 1 i ≤ past s 6 (4 * i + j + 1)
  looked : ∀ i k, ∀ j : Fin 4, s.pc i = .look k → j < k → 4 * i + j + 1 < P → s.waits i ≤ past s 6 (4 * i + j + 1)
  senses : ∀ i, s.sense i = decide (past s 10 i % 2 = 0)
  parents : ∀ i, ∀ j : Fin 2, 2 * i + j + 1 < P → s.parentSense (2 * i + j + 1) = decide (past s (8 + j) i % 2 = 1)
  woken : ∀ i, ∀ j : Fin 2, 2 * i + j + 1 < P → past s 7 (2 * i + j + 1) ≤ past s (8 + j) i

variable {P : Nat} {s : State} {i : Nat}

section Places

theorem pastAnti (s : State) (i : Nat) {t t' : Nat} (le : t ≤ t') : past s t' i ≤ past s t i := by
  unfold past
  split <;> split <;> omega

theorem pastWaits (s : State) (t i : Nat) : past s t i ≤ s.waits i := Nat.sub_le _ _

theorem pastInside {t : Nat} (inside : 0 < rank (s.pc i)) (le : rank (s.pc i) ≤ t) : past s t i = s.waits i - 1 := by
  unfold past
  rw [if_pos ⟨inside,le⟩]

theorem pastBehind {t : Nat} (lt : t < rank (s.pc i)) : past s t i = s.waits i := by
  unfold past
  rw [if_neg (by omega)]
  rfl

theorem pastOutside (outside : s.pc i = .outside) (t : Nat) : past s t i = s.waits i := by
  unfold past
  rw [outside,if_neg (by simp [rank])]
  rfl

@[simp] theorem gotoPc (s : State) (i : Nat) (q : Pc) : (goto s i q).pc i = q := Function.update_self ..

theorem gotoOther (s : State) (q : Pc) {i k : Nat} (other : k ≠ i) : (goto s i q).pc k = s.pc k :=
  Function.update_of_ne other ..

@[simp] theorem gotoWaits (s : State) (i : Nat) (q : Pc) : (goto s i q).waits = s.waits := rfl

@[simp] theorem gotoChildNotReady (s : State) (i : Nat) (q : Pc) : (goto s i q).childNotReady = s.childNotReady := rfl

@[simp] theorem gotoParentSense (s : State) (i : Nat) (q : Pc) : (goto s i q).parentSense = s.parentSense := rfl

@[simp] theorem gotoSense (s : State) (i : Nat) (q : Pc) : (goto s i q).sense = s.sense := rfl

theorem beginWaitSelf (s : State) (i : Nat) : (beginWait s i).waits i = s.waits i + 1 := Function.update_self ..

theorem beginWaitOther (s : State) {i k : Nat} (other : k ≠ i) : (beginWait s i).waits k = s.waits k :=
  Function.update_of_ne other ..

theorem turnSenseSelf (s : State) (i : Nat) : (turnSense s i).sense i = !s.sense i := Function.update_self ..

theorem turnSenseOther (s : State) {i k : Nat} (other : k ≠ i) : (turnSense s i).sense k = s.sense k :=
  Function.update_of_ne other ..

theorem childNotReadySelf (s : State) (i : Nat) (j : Fin 4) (b : Bool) :
    (setChildNotReady s i j b).childNotReady i j = b := by
  simp only [setChildNotReady,Function.update_self]

theorem childNotReadyOther (s : State) (b : Bool) {i k : Nat} {j l : Fin 4} (other : ¬(k = i ∧ l = j)) :
    (setChildNotReady s i j b).childNotReady k l = s.childNotReady k l := by
  simp only [setChildNotReady]
  rcases eq_or_ne k i with rfl | apart
  · rw [Function.update_self,Function.update_of_ne (fun same => other ⟨rfl,same⟩)]
  · rw [Function.update_of_ne apart]

-- A thread comes behind the places from lo to hi.
def Advance (s t : State) (i lo hi : Nat) : Prop :=
  ∀ place k, past t place k = past s place k + if k = i ∧ lo ≤ place ∧ place < hi then 1 else 0

theorem gotoAdvance {q : Pc} (started : 0 < s.waits i) (inside : 0 < rank (s.pc i)) (le : rank (s.pc i) ≤ rank q) :
    Advance s (goto s i q) i (rank (s.pc i)) (rank q) := by
  intro place k
  rcases eq_or_ne k i with rfl | other
  · unfold past
    simp only [gotoPc,gotoWaits,true_and]
    split <;> split <;> split <;> omega
  · unfold past
    simp only [gotoOther s q other,gotoWaits,other,false_and,if_false,Nat.add_zero]

theorem advanceLe {t : State} {lo hi : Nat} (advance : Advance s t i lo hi) (place k : Nat) :
    past s place k ≤ past t place k := by
  rw [advance]
  exact Nat.le_add_right _ _

theorem advanceOther {t : State} {lo hi : Nat} (advance : Advance s t i lo hi) (place : Nat) {k : Nat} (other : k ≠ i) :
    past t place k = past s place k := by
  rw [advance,if_neg (fun same => other same.1),Nat.add_zero]

theorem advanceOut {t : State} {lo hi : Nat} (advance : Advance s t i lo hi) (place : Nat)
    (out : ¬(lo ≤ place ∧ place < hi)) (k : Nat) : past t place k = past s place k := by
  rw [advance,if_neg (fun same => out same.2),Nat.add_zero]

end Places

section Trees

variable (safe : Safe P s)

include safe

/- Behind place 6 of the root every thread has told its parent. -/
theorem rootGathers (c : Nat) (inside : c < P) : past s 6 0 ≤ past s 6 c := by
  -- up the tree of arrivals: the parent has a smaller number
  induction c using Nat.strongRecOn with
  | ind c ih =>
    rcases Nat.eq_zero_or_pos c with rfl | positive
    · exact le_rfl
    · have place : 4 * ((c - 1) / 4) + (c - 1) % 4 + 1 = c := by omega
      have parent := ih ((c - 1) / 4) (by omega) (by omega)
      have told := safe.gathered ((c - 1) / 4) ⟨(c - 1) % 4,Nat.mod_lt _ (by omega)⟩ (by simp only; omega)
      simp only [place] at told
      exact parent.trans ((pastAnti s _ (by omega)).trans told)

theorem rootArrived : past s 7 0 = past s 6 0 := by
  have elsewhere : rank (s.pc 0) ≠ 7 := by
    intro same
    cases pc : s.pc 0 with
    | spin => exact safe.root.2 pc
    | _ => rw [pc] at same; simp only [rank] at same; omega
  unfold past
  split <;> split <;> omega

/- A thread is woken after the root was. -/
theorem rootWakes (c : Nat) (inside : c < P) : past s 7 c ≤ past s 6 0 := by
  -- up the tree of wakeups
  induction c using Nat.strongRecOn with
  | ind c ih =>
    rcases Nat.eq_zero_or_pos c with rfl | positive
    · exact (rootArrived safe).le
    · have place : 2 * ((c - 1) / 2) + (c - 1) % 2 + 1 = c := by omega
      have parent := ih ((c - 1) / 2) (by omega) (by omega)
      have woke := safe.woken ((c - 1) / 2) ⟨(c - 1) % 2,Nat.mod_lt _ (by omega)⟩ (by simp only; omega)
      simp only [place] at woke
      exact woke.trans ((pastAnti s _ (by omega)).trans parent)

theorem everyArrived {c d : Nat} (known : c < P) (known' : d < P) : past s 7 c ≤ past s 6 d :=
  (rootWakes safe c known).trans (rootGathers safe d known')

theorem returnedEntered {c d : Nat} (known : c < P) (known' : d < P) : returned s c ≤ s.waits d :=
  (pastAnti s c (by omega)).trans ((everyArrived safe known known').trans (pastWaits s 6 d))

end Trees

section Moves

theorem reinitSafe (P : Nat) : Safe P (reinit P) where
  started := fun i inside => absurd rfl inside
  root := ⟨Pc.noConfusion,Pc.noConfusion⟩
  flags := fun i j => by simp [reinit,past]
  ahead := fun i j _ => by simp [reinit,past]
  behind := fun i j _ => by simp [reinit,past]
  gathered := fun i j _ => by simp [reinit,past]
  looked := fun i k j inside => by cases inside
  senses := fun i => by simp [reinit,past]
  parents := fun i j _ => by simp [reinit,past]
  woken := fun i j _ => by simp [reinit,past]

/- A move that keeps the counters of the calls and goes on behind the first loop: what is left
is what the move says about the flags and senses. -/
theorem movedSafe {t : State} {q : Pc} (safe : Safe P s) (pcs : t.pc = Function.update s.pc i q)
    (waits : t.waits = s.waits) (inside : s.pc i ≠ .outside) (next : i = 0 → q ≠ .signal ∧ q ≠ .spin)
    (later : ∀ k, q ≠ .look k) (told : ∀ k, past s 6 k ≤ past t 6 k)
    (flags : ∀ i j, t.childNotReady i j = (haveChild P i j && decide (past t 6 (4 * i + j + 1) = past t (2 + j) i)))
    (ahead : ∀ i, ∀ j : Fin 4, 4 * i + j + 1 < P → past t (2 + j) i ≤ past t 6 (4 * i + j + 1))
    (behind : ∀ i, ∀ j : Fin 4, 4 * i + j + 1 < P → past t 6 (4 * i + j + 1) ≤ past t (2 + j) i + 1)
    (gathered : ∀ i, ∀ j : Fin 4, 4 * i + j + 1 < P → past t 1 i ≤ past t 6 (4 * i + j + 1))
    (senses : ∀ i, t.sense i = decide (past t 10 i % 2 = 0))
    (parents : ∀ i, ∀ j : Fin 2, 2 * i + j + 1 < P →
      t.parentSense (2 * i + j + 1) = decide (past t (8 + j) i % 2 = 1))
    (woken : ∀ i, ∀ j : Fin 2, 2 * i + j + 1 < P → past t 7 (2 * i + j + 1) ≤ past t (8 + j) i) : Safe P t := by
  refine ⟨fun k here => ?_,?_,flags,ahead,behind,gathered,fun k l j here less known => ?_,senses,parents,woken⟩
  · rw [waits]
    rcases eq_or_ne k i with rfl | other
    · exact safe.started k inside
    · rw [pcs,Function.update_of_ne other] at here
      exact safe.started k here
  · rw [pcs]
    rcases eq_or_ne 0 i with rfl | other
    · rw [Function.update_self]
      exact next rfl
    · rw [Function.update_of_ne other]
      exact safe.root
  · rw [pcs] at here
    rcases eq_or_ne k i with rfl | other
    · rw [Function.update_self] at here
      exact absurd here (later l)
    · rw [Function.update_of_ne other] at here
      rw [waits]
      exact (safe.looked k l j here less known).trans (told _)

/- The store to childnotready: the child has told, and only for the call that goes on. -/
theorem rearmKeeps (safe : Safe P s) {j : Fin 4} (here : s.pc i = .rearm j) {q : Pc}
    (next : (rank q = 3 + j ∧ ∀ k, q ≠ .look k) ∨ (j = 3 ∧ i = 0 ∧ q = .wake 0)) (root : i = 0 → q ≠ .signal ∧ q ≠ .spin) :
    Safe P (goto (setChildNotReady s i j (haveChild P i j)) i q) := by
  have started := safe.started i (by rw [here]; exact Pc.noConfusion)
  have place : rank (s.pc i) = 2 + j := by rw [here]; rfl
  have last : 3 + j.val ≤ rank q ∧ rank q ≤ 8 ∧ (i ≠ 0 → rank q ≤ 6) ∧ (j.val < 3 → rank q = 3 + j.val) ∧
      ∀ k, q ≠ .look k := by
    rcases next with ⟨same,other⟩ | ⟨rfl,rfl,rfl⟩
    · exact ⟨same.ge,by omega,fun _ => by omega,fun _ => same,other⟩
    · exact ⟨by decide,by decide,fun no => absurd rfl no,fun no => absurd no (by decide),fun k => Pc.noConfusion⟩
  obtain ⟨lower,upper,other,exact',later⟩ := last
  have advance : Advance s (goto (setChildNotReady s i j (haveChild P i j)) i q) i (2 + j) (rank q) := by
    have moved := @gotoAdvance s i q started (by rw [place]; omega) (by rw [place]; omega)
    rw [place] at moved
    exact moved
  have here' : ∀ place, 2 + j.val ≤ place → past s place i = s.waits i - 1 := fun place' le =>
    pastInside (by rw [place]; omega) (by rw [place]; exact le)
  have gathered : past s 1 i = s.waits i := pastBehind (by rw [place]; omega)
  have child : ∀ k, ∀ l : Fin 4, past (goto (setChildNotReady s i j (haveChild P i j)) i q) 6 (4 * k + l + 1) =
      past s 6 (4 * k + l + 1) := by
    intro k l
    rw [advance,if_neg (fun same => ?_),Nat.add_zero]
    have := other (by omega)
    omega
  have slot : ∀ k, ∀ l : Fin 4, past (goto (setChildNotReady s i j (haveChild P i j)) i q) (2 + l) k =
      past s (2 + l) k + if k = i ∧ l = j then 1 else 0 := by
    intro k l
    rw [advance]
    congr 1
    refine if_congr (and_congr_right (fun _ => ⟨fun bounds => ?_,fun same => ?_⟩)) rfl rfl
    · refine Fin.ext ?_
      rcases Nat.lt_or_ge j.val 3 with few | _
      · have := exact' few
        omega
      · omega
    · rw [same]
      omega
  refine movedSafe safe rfl rfl (by rw [here]; exact Pc.noConfusion) root later (advanceLe advance 6) (fun k l => ?_) (fun k l known => ?_)
    (fun k l known => ?_) (fun k l known => ?_) (fun k => ?_) (fun k l known => ?_) (fun k l known => ?_)
  · rw [child,slot]
    by_cases same : k = i ∧ l = j
    · obtain ⟨rfl,rfl⟩ := same
      rw [gotoChildNotReady,childNotReadySelf,if_pos ⟨rfl,rfl⟩]
      cases have' : haveChild P k l with
      | false => rfl
      | true =>
        have known : 4 * k + l + 1 < P := of_decide_eq_true have'
        have told := safe.gathered k l known
        have behind := safe.behind k l known
        have before := here' (2 + l) le_rfl
        rw [Bool.true_and]
        exact (decide_eq_true (by omega)).symm
    · rw [gotoChildNotReady,childNotReadyOther s _ same,if_neg same,Nat.add_zero]
      exact safe.flags k l
  · have ahead := safe.ahead k l known
    rw [child,slot]
    split
    · rename_i same
      obtain ⟨rfl,rfl⟩ := same
      have told := safe.gathered k l known
      have before := here' (2 + l) le_rfl
      omega
    · exact ahead
  · have behind := safe.behind k l known
    rw [child,slot]
    omega
  · have told := safe.gathered k l known
    rw [advanceOut advance 1 (by omega),child]
    exact told
  · rw [advanceOut advance 10 (by omega)]
    exact safe.senses k
  · rw [advanceOut advance (8 + l) (by omega)]
    exact safe.parents k l known
  · have woken := safe.woken k l known
    rw [advanceOut advance (8 + l) (by omega),advance,if_neg (fun same => ?_)]
    · exact woken
    · have := other (by omega)
      omega

/- A thread tells its parent; the parent has stored the flag of this call. -/
theorem signalKeeps (safe : Safe P s) (known : i < P) (here : s.pc i = .signal) {p : Nat} {j : Fin 4}
    (parent : 4 * p + j + 1 = i) : Safe P (goto (setChildNotReady s p j false) i .spin) := by
  have started := safe.started i (by rw [here]; exact Pc.noConfusion)
  have place : rank (s.pc i) = 6 := by rw [here]; rfl
  have advance : Advance s (goto (setChildNotReady s p j false) i .spin) i 6 7 := by
    have moved := @gotoAdvance s i .spin started (by rw [place]; omega) (by rw [place]; decide)
    rw [place] at moved
    exact moved
  have told : past s 6 i = s.waits i - 1 := pastInside (by rw [place]; omega) place.le
  have asleep : past s 7 i = s.waits i - 1 := pastInside (by rw [place]; omega) (by rw [place]; omega)
  have rearmed : past s 6 p ≤ past s (2 + j) p := pastAnti s p (by omega)
  have arrived := everyArrived safe known (show p < P by omega)
  refine movedSafe safe rfl rfl (by rw [here]; exact Pc.noConfusion) (fun zero => by omega) (fun k => Pc.noConfusion)
    (advanceLe advance 6) (fun k l => ?_) (fun k l inside => ?_) (fun k l inside => ?_) (fun k l inside => ?_)
    (fun k => ?_) (fun k l inside => ?_) (fun k l inside => ?_)
  · rw [advanceOut advance (2 + l) (by omega)]
    by_cases same : k = p ∧ l = j
    · obtain ⟨rfl,rfl⟩ := same
      have ahead := safe.ahead k l (by omega)
      rw [parent] at ahead
      rw [gotoChildNotReady,childNotReadySelf,parent,advance,if_pos ⟨rfl,le_rfl,by omega⟩,
        decide_eq_false (by omega),Bool.and_false]
    · have apart : 4 * k + l + 1 ≠ i := fun equal => same ⟨by omega,Fin.ext (by omega)⟩
      rw [gotoChildNotReady,childNotReadyOther s _ same,advanceOther advance 6 apart]
      exact safe.flags k l
  · have ahead := safe.ahead k l inside
    rw [advanceOut advance (2 + l) (by omega),advance]
    omega
  · have behind := safe.behind k l inside
    rw [advanceOut advance (2 + l) (by omega),advance]
    split
    · rename_i same
      have slot : k = p ∧ l = j := ⟨by omega,Fin.ext (by omega)⟩
      obtain ⟨rfl,rfl⟩ := slot
      rw [same.1]
      omega
    · exact behind
  · have gathered := safe.gathered k l inside
    rw [advanceOut advance 1 (by omega),advance]
    omega
  · rw [advanceOut advance 10 (by omega)]
    exact safe.senses k
  · rw [advanceOut advance (8 + l) (by omega)]
    exact safe.parents k l inside
  · rw [advanceOut advance 7 (by omega),advanceOut advance (8 + l) (by omega)]
    exact safe.woken k l inside

/- The sense a thread reads was stored in this call or in the one before, and only the first
makes it go on. -/
theorem spinKeeps (safe : Safe P s) (known : i < P) (here : s.pc i = .spin) (same : s.parentSense i = s.sense i) :
    Safe P (goto s i (.wake 0)) := by
  have started := safe.started i (by rw [here]; exact Pc.noConfusion)
  have place : rank (s.pc i) = 7 := by rw [here]; rfl
  have advance : Advance s (goto s i (.wake 0)) i 7 8 := by
    have moved := @gotoAdvance s i (.wake 0) started (by rw [place]; omega) (by rw [place]; decide)
    rw [place] at moved
    exact moved
  have positive : i ≠ 0 := fun zero => safe.root.2 (zero ▸ here)
  have asleep : past s 7 i = s.waits i - 1 := pastInside (by rw [place]; omega) place.le
  have left : past s 10 i = s.waits i - 1 := pastInside (by rw [place]; omega) (by rw [place]; omega)
  have told : past s 6 i = s.waits i := pastBehind (by rw [place]; omega)
  refine movedSafe safe rfl rfl (by rw [here]; exact Pc.noConfusion) (fun zero => absurd zero positive)
    (fun k => Pc.noConfusion) (advanceLe advance 6) (fun k l => ?_) (fun k l inside => ?_) (fun k l inside => ?_)
    (fun k l inside => ?_) (fun k => ?_) (fun k l inside => ?_) (fun k l inside => ?_)
  · rw [advanceOut advance 6 (by omega),advanceOut advance (2 + l) (by omega)]
    exact safe.flags k l
  · rw [advanceOut advance 6 (by omega),advanceOut advance (2 + l) (by omega)]
    exact safe.ahead k l inside
  · rw [advanceOut advance 6 (by omega),advanceOut advance (2 + l) (by omega)]
    exact safe.behind k l inside
  · rw [advanceOut advance 6 (by omega),advanceOut advance 1 (by omega)]
    exact safe.gathered k l inside
  · rw [advanceOut advance 10 (by omega)]
    exact safe.senses k
  · rw [advanceOut advance (8 + l) (by omega)]
    exact safe.parents k l inside
  · have woken := safe.woken k l inside
    rw [advanceOut advance (8 + l) (by omega),advance]
    split
    · rename_i child
      have stored := safe.parents k l inside
      have arrived := everyArrived safe (show k < P by omega) known
      have woke : past s (8 + l) k ≤ past s 7 k := pastAnti s k (by omega)
      rw [child.1,same,safe.senses i,left,decide_eq_decide] at stored
      rw [child.1] at woken ⊢
      omega
    · exact woken

/- The store to a child's parentsense. -/
theorem wakeKeeps (safe : Safe P s) {j : Fin 2} (here : s.pc i = .wake j) {t : State}
    (stored : (∃ c, 2 * i + j + 1 = c ∧ t = setParentSense s c (s.sense i)) ∨ (P ≤ 2 * i + j + 1 ∧ t = s)) {q : Pc}
    (next : rank q = 9 + j) : Safe P (goto t i q) := by
  have started := safe.started i (by rw [here]; exact Pc.noConfusion)
  have place : rank (s.pc i) = 8 + j := by rw [here]; rfl
  have same : t.waits = s.waits ∧ t.pc = s.pc ∧ t.childNotReady = s.childNotReady ∧ t.sense = s.sense := by
    rcases stored with ⟨c,_,rfl⟩ | ⟨_,rfl⟩
    · exact ⟨rfl,rfl,rfl,rfl⟩
    · exact ⟨rfl,rfl,rfl,rfl⟩
  obtain ⟨waits,pcs,flags,senses⟩ := same
  have advance : Advance s (goto t i q) i (8 + j) (9 + j) := by
    have moved := @gotoAdvance s i q started (by rw [place]; omega) (by rw [place]; omega)
    rw [place,next] at moved
    intro place' k
    rw [← moved place' k]
    unfold past goto
    rw [waits,pcs]
  have left : past s 10 i = s.waits i - 1 := pastInside (by rw [place]; omega) (by rw [place]; omega)
  have waking : past s (8 + j) i = s.waits i - 1 := pastInside (by rw [place]; omega) place.le
  have elsewhere : (∀ k, q ≠ .look k) ∧ q ≠ .signal ∧ q ≠ .spin := by
    refine ⟨fun k no => ?_,fun no => ?_,fun no => ?_⟩ <;> rw [no] at next <;> simp only [rank] at next <;> omega
  refine movedSafe safe (by rw [← pcs]; rfl) waits (by rw [here]; exact Pc.noConfusion) (fun _ => elsewhere.2)
    elsewhere.1 (advanceLe advance 6) (fun k l => ?_) (fun k l inside => ?_) (fun k l inside => ?_)
    (fun k l inside => ?_) (fun k => ?_) (fun k l inside => ?_) (fun k l inside => ?_)
  · rw [advanceOut advance 6 (by omega),advanceOut advance (2 + l) (by omega),gotoChildNotReady,flags]
    exact safe.flags k l
  · rw [advanceOut advance 6 (by omega),advanceOut advance (2 + l) (by omega)]
    exact safe.ahead k l inside
  · rw [advanceOut advance 6 (by omega),advanceOut advance (2 + l) (by omega)]
    exact safe.behind k l inside
  · rw [advanceOut advance 6 (by omega),advanceOut advance 1 (by omega)]
    exact safe.gathered k l inside
  · rw [advanceOut advance 10 (by omega),gotoSense,senses]
    exact safe.senses k
  · rw [gotoParentSense]
    by_cases child : k = i ∧ l = j
    · obtain ⟨rfl,rfl⟩ := child
      rcases stored with ⟨c,rfl,rfl⟩ | ⟨no,_⟩
      · have now : (setParentSense s (2 * k + l + 1) (s.sense k)).parentSense (2 * k + l + 1) = s.sense k :=
          Function.update_self ..
        rw [now,advance,if_pos ⟨rfl,le_rfl,by omega⟩,safe.senses,left,decide_eq_decide]
        omega
      · exact absurd inside (Nat.not_lt.mpr no)
    · have kept : t.parentSense (2 * k + l + 1) = s.parentSense (2 * k + l + 1) := by
        rcases stored with ⟨c,rfl,rfl⟩ | ⟨_,rfl⟩
        · exact Function.update_of_ne (fun equal => child ⟨by omega,Fin.ext (by omega)⟩) _ _
        · rfl
      rw [kept,safe.parents k l inside,advance,if_neg (fun equal => child ⟨equal.1,Fin.ext (by omega)⟩),Nat.add_zero]
  · have woken := safe.woken k l inside
    rw [advanceOut advance 7 (by omega),advance]
    omega

theorem lookedAt (safe : Safe P s) {j : Fin 4} (here : s.pc i = .look j) (ready : s.childNotReady i j = false)
    (inside : 4 * i + j + 1 < P) : s.waits i ≤ past s 6 (4 * i + j + 1) := by
  have have' : haveChild P i j = true := decide_eq_true inside
  have flag := safe.flags i j
  rw [ready,have',Bool.true_and] at flag
  have apart := of_decide_eq_false flag.symm
  have ahead := safe.ahead i j inside
  have before : past s (2 + j) i = s.waits i - 1 := pastInside (by rw [here]; exact Nat.one_pos) (by rw [here]; simp only [rank]; omega)
  omega

/- A read of the first loop: the thread starts again, goes on, or leaves the loop. -/
theorem lookKeeps (safe : Safe P s) {j : Fin 4} (here : s.pc i = .look j) {q : Pc}
    (next : q = .look 0 ∨ (s.childNotReady i j = false ∧ q = afterLook j)) : Safe P (goto s i q) := by
  have started := safe.started i (by rw [here]; exact Pc.noConfusion)
  have place : rank (s.pc i) = 1 := by rw [here]; rfl
  have bounds : 1 ≤ rank q ∧ rank q ≤ 2 ∧ q ≠ .outside ∧ q ≠ .signal ∧ q ≠ .spin := by
    rcases next with rfl | ⟨_,rfl⟩
    · exact ⟨by decide,by decide,Pc.noConfusion,Pc.noConfusion,Pc.noConfusion⟩
    · unfold afterLook
      split
      · exact ⟨by simp [rank],by simp [rank],Pc.noConfusion,Pc.noConfusion,Pc.noConfusion⟩
      · exact ⟨by decide,by decide,Pc.noConfusion,Pc.noConfusion,Pc.noConfusion⟩
  have advance : Advance s (goto s i q) i 1 (rank q) := by
    have moved := @gotoAdvance s i q started (by rw [place]; omega) (by rw [place]; exact bounds.1)
    rw [place] at moved
    exact moved
  have before : past s 1 i = s.waits i - 1 := pastInside (by rw [place]; omega) place.le
  refine ⟨fun k inside => ?_,?_,fun k l => ?_,fun k l known => ?_,fun k l known => ?_,fun k l known => ?_,
    fun k m l inside less known => ?_,fun k => ?_,fun k l known => ?_,fun k l known => ?_⟩
  · rcases eq_or_ne k i with rfl | other
    · exact started
    · rw [gotoOther s q other] at inside
      exact safe.started k inside
  · rcases eq_or_ne 0 i with rfl | other
    · rw [gotoPc]
      exact bounds.2.2.2
    · rw [gotoOther s q other]
      exact safe.root
  · rw [advanceOut advance 6 (by omega),advanceOut advance (2 + l) (by omega)]
    exact safe.flags k l
  · rw [advanceOut advance 6 (by omega),advanceOut advance (2 + l) (by omega)]
    exact safe.ahead k l known
  · rw [advanceOut advance 6 (by omega),advanceOut advance (2 + l) (by omega)]
    exact safe.behind k l known
  · have gathered := safe.gathered k l known
    rw [advanceOut advance 6 (by omega),advance]
    split
    · rename_i leaves
      obtain ⟨rfl,_,two⟩ := leaves
      -- the fourth read was the last: all four children have told
      have last : j = 3 ∧ s.childNotReady k j = false := by
        rcases next with rfl | ⟨ready,rfl⟩
        · exact absurd two (by decide)
        · refine ⟨Fin.ext ?_,ready⟩
          unfold afterLook at two
          split at two
          · exact absurd two (by simp [rank])
          · show j.val = 3
            omega
      have waits : s.waits k ≤ past s 6 (4 * k + l + 1) := by
        by_cases same : l = j
        · rw [same] at known ⊢
          exact lookedAt safe here last.2 known
        · exact safe.looked k j l here (by omega) known
      omega
    · exact gathered
  · rcases eq_or_ne k i with rfl | other
    · rw [gotoPc] at inside
      rw [gotoWaits,advanceOut advance 6 (by omega)]
      rcases next with rfl | ⟨ready,rfl⟩
      · cases inside
        exact absurd less (by simp)
      · unfold afterLook at inside
        split at inside
        · cases inside
          by_cases same : l = j
          · rw [same] at known ⊢
            exact lookedAt safe here ready known
          · refine safe.looked k j l here ?_ known
            have := Fin.lt_def.mp less
            simp only at this
            omega
        · cases inside
    · rw [gotoOther s q other] at inside
      rw [gotoWaits,advanceOut advance 6 (by omega)]
      exact safe.looked k m l inside less known
  · rw [advanceOut advance 10 (by omega)]
    exact safe.senses k
  · rw [advanceOut advance (8 + l) (by omega)]
    exact safe.parents k l known
  · rw [advanceOut advance 7 (by omega),advanceOut advance (8 + l) (by omega)]
    exact safe.woken k l known

/- A call of wait begins. -/
theorem enterKeeps (safe : Safe P s) (here : s.pc i = .outside) :
    Safe P (goto (beginWait s i) i (.look 0)) := by
  have places : ∀ place k, 0 < place →
      past (goto (beginWait s i) i (.look 0)) place k = past s place k := by
    intro place k positive
    rcases eq_or_ne k i with rfl | other
    · rw [pastOutside here]
      unfold past
      rw [gotoPc,if_pos ⟨Nat.one_pos,positive⟩,gotoWaits,beginWaitSelf]
      rfl
    · unfold past
      rw [gotoOther _ _ other,gotoWaits,beginWaitOther s other]
      rfl
  refine ⟨fun k inside => ?_,?_,fun k l => ?_,fun k l known => ?_,fun k l known => ?_,fun k l known => ?_,
    fun k m l inside less known => ?_,fun k => ?_,fun k l known => ?_,fun k l known => ?_⟩
  · rw [gotoWaits]
    rcases eq_or_ne k i with rfl | other
    · rw [beginWaitSelf]
      exact Nat.succ_pos _
    · rw [beginWaitOther s other]
      rw [gotoOther _ _ other] at inside
      exact safe.started k inside
  · rcases eq_or_ne 0 i with rfl | other
    · rw [gotoPc]
      exact ⟨Pc.noConfusion,Pc.noConfusion⟩
    · rw [gotoOther _ _ other]
      exact safe.root
  · rw [places 6 _ (by omega),places (2 + l) k (by omega)]
    exact safe.flags k l
  · rw [places 6 _ (by omega),places (2 + l) k (by omega)]
    exact safe.ahead k l known
  · rw [places 6 _ (by omega),places (2 + l) k (by omega)]
    exact safe.behind k l known
  · rw [places 6 _ (by omega),places 1 k (by omega)]
    exact safe.gathered k l known
  · rcases eq_or_ne k i with rfl | other
    · rw [gotoPc] at inside
      cases inside
      exact absurd less (by simp)
    · rw [gotoOther _ _ other] at inside
      rw [places 6 _ (by omega),gotoWaits,beginWaitOther s other]
      exact safe.looked k m l inside less known
  · rw [places 10 k (by omega)]
    exact safe.senses k
  · rw [places (8 + l) k (by omega)]
    exact safe.parents k l known
  · rw [places 7 _ (by omega),places (8 + l) k (by omega)]
    exact safe.woken k l known

/- A thread turns its sense and returns. -/
theorem flipKeeps (safe : Safe P s) (here : s.pc i = .flip) :
    Safe P (goto (turnSense s i) i .outside) := by
  have started := safe.started i (by rw [here]; exact Pc.noConfusion)
  have place : rank (s.pc i) = 10 := by rw [here]; rfl
  have places : ∀ place k, place < 10 →
      past (goto (turnSense s i) i .outside) place k = past s place k := by
    intro place' k less
    rcases eq_or_ne k i with rfl | other
    · rw [pastOutside (gotoPc _ _ _)]
      exact (pastBehind (by rw [place]; exact less)).symm
    · unfold past
      rw [gotoOther _ _ other]
      rfl
  refine movedSafe safe rfl rfl (by rw [here]; exact Pc.noConfusion) (fun _ => ⟨Pc.noConfusion,Pc.noConfusion⟩)
    (fun k => Pc.noConfusion) (fun k => (places 6 k (by omega)).ge) (fun k l => ?_) (fun k l known => ?_)
    (fun k l known => ?_) (fun k l known => ?_) (fun k => ?_) (fun k l known => ?_) (fun k l known => ?_)
  · rw [places 6 _ (by omega),places (2 + l) k (by omega)]
    exact safe.flags k l
  · rw [places 6 _ (by omega),places (2 + l) k (by omega)]
    exact safe.ahead k l known
  · rw [places 6 _ (by omega),places (2 + l) k (by omega)]
    exact safe.behind k l known
  · rw [places 6 _ (by omega),places 1 k (by omega)]
    exact safe.gathered k l known
  · rw [gotoSense]
    rcases eq_or_ne k i with rfl | other
    · have left : past s 10 k = s.waits k - 1 := pastInside (by rw [place]; omega) place.le
      rw [turnSenseSelf,pastOutside (gotoPc _ _ _),safe.senses k,left,gotoWaits,← decide_not,decide_eq_decide]
      show ¬(s.waits k - 1) % 2 = 0 ↔ s.waits k % 2 = 0
      omega
    · rw [turnSenseOther s other,safe.senses k]
      unfold past
      rw [gotoOther _ _ other]
      rfl
  · rw [places (8 + l) k (by omega)]
    exact safe.parents k l known
  · rw [places 7 _ (by omega),places (8 + l) k (by omega)]
    exact safe.woken k l known

theorem afterRearmRoot (i : Nat) : (i = 0 ∧ afterRearm i = .wake 0) ∨ (i ≠ 0 ∧ afterRearm i = .signal) := by
  rcases eq_or_ne i 0 with rfl | other
  · exact .inl ⟨rfl,rfl⟩
  · refine .inr ⟨other,?_⟩
    rw [afterRearm,parentPointer,if_neg other]
    rfl

theorem parentPlace {p : Nat} {j : Fin 4} (parent : parentPointer i = some (p,j)) : 4 * p + j + 1 = i := by
  unfold parentPointer at parent
  split at parent
  · cases parent
  · cases parent
    simp only
    omega

theorem childPlace {j : Fin 2} :
    (∃ c, 2 * i + j + 1 = c ∧ childPointer P i j = some c) ∨ (P ≤ 2 * i + j + 1 ∧ childPointer P i j = none) := by
  unfold childPointer
  split
  · rename_i none'
    exact .inr ⟨none',rfl⟩
  · exact .inl ⟨_,rfl,rfl⟩

theorem moveKeeps (safe : Safe P s) (known : i < P) : Safe P (move P s i) := by
  unfold move
  cases here : s.pc i with
  | outside => exact enterKeeps safe here
  | look j =>
    simp only
    split
    · exact lookKeeps safe here (.inl rfl)
    · rename_i ready
      exact lookKeeps safe here (.inr ⟨Bool.eq_false_iff.mpr ready,rfl⟩)
  | rearm j =>
    simp only
    split
    · exact rearmKeeps safe here (.inl ⟨by simp only [rank]; omega,fun k => Pc.noConfusion⟩)
        (fun _ => ⟨Pc.noConfusion,Pc.noConfusion⟩)
    · rename_i last
      have three : j = 3 := Fin.ext (by show j.val = 3; omega)
      rcases afterRearmRoot i with ⟨zero,same⟩ | ⟨other,same⟩
      · rw [same]
        exact rearmKeeps safe here (.inr ⟨three,zero,rfl⟩) (fun _ => ⟨Pc.noConfusion,Pc.noConfusion⟩)
      · rw [same]
        exact rearmKeeps safe here (.inl ⟨by rw [three]; rfl,fun k => Pc.noConfusion⟩) (fun zero => absurd zero other)
  | signal =>
    simp only
    cases parent : parentPointer i with
    | some slot => exact signalKeeps safe known here (parentPlace parent)
    | none =>
      have zero : i = 0 := by
        by_contra other
        rw [parentPointer,if_neg other] at parent
        cases parent
      exact absurd (zero ▸ here) safe.root.1
  | spin =>
    simp only
    split
    · exact safe
    · rename_i same
      exact spinKeeps safe known here (not_not.mp same)
  | wake j =>
    have next : rank (if j = 0 then Pc.wake 1 else Pc.flip) = 9 + j := by
      split
      · rename_i zero
        rw [zero]
        rfl
      · have := Fin.val_ne_of_ne ‹j ≠ 0›
        simp only [rank]
        simp only [Fin.val_zero] at this
        omega
    rcases @childPlace P i j with ⟨c,child,found⟩ | ⟨none',found⟩
    · simp only [found]
      exact wakeKeeps safe here (.inl ⟨c,child,rfl⟩) next
    · simp only [found]
      exact wakeKeeps safe here (.inr ⟨none',rfl⟩) next
  | flip => exact flipKeeps safe here

theorem stepKeeps {t : State} (h : step P s i = some t) (safe : Safe P s) : Safe P t := by
  unfold step at h
  split at h
  · cases Option.some.inj h
    exact moveKeeps safe (by assumption)
  · cases h

theorem runSafe {t : State} {schedule : List Nat} (ok : run (step P) (reinit P) schedule = some t) : Safe P t :=
  runInvariant (fun _ _ _ h safe => stepKeeps h safe) ok (reinitSafe P)

/- No thread returns from its r-th call before every thread has begun its r-th. -/
theorem barrierSafe {P : Nat} {t : State} (schedule : List Nat) (ok : run (step P) (reinit P) schedule = some t)
    {i j : Nat} (first : i < P) (second : j < P) : returned t i ≤ t.waits j :=
  returnedEntered (runSafe ok) first second

theorem barrierSafeTwo :
    ∃ t, run (step 2) (reinit 2) (0 :: List.replicate 10 1 ++ List.replicate 11 0) = some t ∧
      returned t 0 = 1 ∧ returned t 0 ≤ t.waits 1 :=
  ⟨_,rfl,rfl,barrierSafe (0 :: List.replicate 10 1 ++ List.replicate 11 0) rfl
    (show 0 < 2 from Nat.zero_lt_two) Nat.one_lt_two⟩

end Moves

section Ends

-- The moves that a thread has before it in its call, when every read lets it go on.
def left : Pc → Nat
  | .outside => 0
  | .look j => 13 - j
  | .rearm j => 9 - j
  | .signal => 5
  | .spin => 4
  | .wake j => 3 - j
  | .flip => 1

-- A read that makes the thread read again.
def Blocked (s : State) (i : Nat) : Prop :=
  (∃ j, s.pc i = .look j ∧ s.childNotReady i j = true) ∨ (s.pc i = .spin ∧ s.parentSense i ≠ s.sense i)

/- A thread inside that is not blocked has a move less to go. -/
theorem moveLeft (P : Nat) (inside : s.pc i ≠ .outside) (free : ¬Blocked s i) :
    left ((move P s i).pc i) < left (s.pc i) ∧ (∀ k, k ≠ i → (move P s i).pc k = s.pc k) ∧
      (move P s i).waits = s.waits := by
  unfold move
  cases here : s.pc i with
  | outside => exact absurd here inside
  | look j =>
    have ready : s.childNotReady i j ≠ true := fun busy => free (.inl ⟨j,here,busy⟩)
    simp only [if_neg ready]
    refine ⟨?_,fun k other => gotoOther s _ other,rfl⟩
    rw [gotoPc]
    unfold afterLook
    split
    · simp only [left]
      omega
    · simp only [left]
      omega
  | rearm j =>
    simp only
    refine ⟨?_,fun k other => gotoOther _ _ other,rfl⟩
    rw [gotoPc]
    split
    · simp only [left]
      omega
    · rcases afterRearmRoot i with ⟨_,same⟩ | ⟨_,same⟩ <;> rw [same] <;> simp only [left] <;> omega
  | signal =>
    simp only
    split <;> exact ⟨by rw [gotoPc]; decide,fun k other => gotoOther _ _ other,rfl⟩
  | spin =>
    have same : ¬s.parentSense i ≠ s.sense i := fun apart => free (.inr ⟨here,apart⟩)
    simp only [if_neg same]
    exact ⟨by rw [gotoPc]; decide,fun k other => gotoOther _ _ other,rfl⟩
  | wake j =>
    have less : left (if j = 0 then Pc.wake 1 else Pc.flip) < left (Pc.wake j) := by
      split
      · rename_i zero
        rw [zero]
        decide
      · simp only [left]
        omega
    simp only
    split <;> exact ⟨by rw [gotoPc]; exact less,fun k other => gotoOther _ _ other,rfl⟩
  | flip => exact ⟨by rw [gotoPc]; decide,fun k other => gotoOther _ _ other,rfl⟩

/- While the root has not gathered call r, the last thread that has not told can move. -/
theorem gatheringMoves (safe : Safe P s) {r : Nat} (entered : ∀ i, i < P → r ≤ s.waits i) (few : past s 6 0 < r)
    (some' : 0 < P) : ∃ i, i < P ∧ s.pc i ≠ .outside ∧ ¬Blocked s i := by
  have told := Nat.findGreatest_spec (P := fun i => i < P ∧ past s 6 i < r) (Nat.zero_le P) ⟨some',few⟩
  have last : ∀ c, c < P → Nat.findGreatest (fun i => i < P ∧ past s 6 i < r) P < c → r ≤ past s 6 c := by
    intro c known less
    by_contra more
    exact Nat.findGreatest_is_greatest less known.le ⟨known,by omega⟩
  generalize Nat.findGreatest (fun i => i < P ∧ past s 6 i < r) P = i at told last
  obtain ⟨known,behind⟩ := told
  have calls := entered i known
  have place : 0 < rank (s.pc i) ∧ rank (s.pc i) ≤ 6 := by
    by_contra out
    unfold past at behind
    rw [if_neg out] at behind
    omega
  refine ⟨i,known,fun outside => ?_,?_⟩
  · rw [outside] at place
    exact absurd place.1 (by decide)
  · rintro (⟨j,here,busy⟩ | ⟨here,_⟩)
    · have flag := safe.flags i j
      rw [busy,eq_comm,Bool.and_eq_true] at flag
      have child : 4 * i + j + 1 < P := of_decide_eq_true flag.1
      have same := of_decide_eq_true flag.2
      have before : past s (2 + j) i = s.waits i - 1 := pastInside place.1 (by rw [here]; simp only [rank]; omega)
      have mine : past s 6 i = s.waits i - 1 := pastInside place.1 place.2
      have more := last _ child (by omega)
      omega
    · rw [here] at place
      exact absurd place.2 (by decide)

/- Behind that the first thread that has not returned can move. -/
theorem wakingMoves (safe : Safe P s) {r : Nat} (entered : ∀ i, i < P → r ≤ s.waits i) (gathered : r ≤ past s 6 0)
    (late : ∃ i, i < P ∧ returned s i < r) : ∃ i, i < P ∧ s.pc i ≠ .outside ∧ ¬Blocked s i := by
  have first := Nat.find_spec late
  have early : ∀ p, p < Nat.find late → r ≤ returned s p := by
    intro p less
    by_contra more
    exact Nat.find_min late less ⟨less.trans first.1,by omega⟩
  generalize Nat.find late = i at first early
  obtain ⟨known,behind⟩ := first
  have calls := entered i known
  have told := (rootGathers safe i known)
  have place : 6 < rank (s.pc i) ∧ rank (s.pc i) ≤ 10 ∧ s.waits i = r := by
    unfold returned past at behind
    split at behind
    · rename_i inside
      by_contra out
      have asleep : past s 6 i = s.waits i - 1 := pastInside inside.1 (by omega)
      omega
    · omega
  have left : past s 10 i = r - 1 := by rw [pastInside (by omega) place.2.1,place.2.2]
  refine ⟨i,known,fun outside => ?_,?_⟩
  · rw [outside] at place
    exact absurd place.1 (by decide)
  · rintro (⟨j,here,_⟩ | ⟨here,apart⟩)
    · rw [here] at place
      exact absurd place.1 (by simp [rank])
    · -- the parent of the wakeups has returned, so it has stored this thread's sense
      have positive : i ≠ 0 := fun zero => safe.root.2 (zero ▸ here)
      have number : 2 * ((i - 1) / 2) + (i - 1) % 2 + 1 = i := by omega
      have parent := early ((i - 1) / 2) (by omega)
      have stored := safe.parents ((i - 1) / 2) ⟨(i - 1) % 2,Nat.mod_lt _ (by omega)⟩ (by simp only; omega)
      simp only [number] at stored
      have woke : returned s ((i - 1) / 2) ≤ past s (8 + (i - 1) % 2) ((i - 1) / 2) := pastAnti s _ (by omega)
      have woken : past s (8 + (i - 1) % 2) ((i - 1) / 2) ≤ past s 7 ((i - 1) / 2) := pastAnti s _ (by omega)
      have arrived := everyArrived safe (show (i - 1) / 2 < P by omega) known
      have most := pastWaits s 6 i
      refine apart ?_
      rw [stored,safe.senses i,left,decide_eq_decide]
      omega

theorem mover (safe : Safe P s) {r : Nat} (entered : ∀ i, i < P → r ≤ s.waits i)
    (late : ¬∀ i, i < P → r ≤ returned s i) : ∃ i, i < P ∧ s.pc i ≠ .outside ∧ ¬Blocked s i := by
  push Not at late
  obtain ⟨c,known,few⟩ := late
  rcases Nat.lt_or_ge (past s 6 0) r with less | gathered
  · exact gatheringMoves safe entered less (by omega)
  · exact wakingMoves safe entered gathered ⟨c,known,few⟩

/- When every thread has begun its r-th call they can all return from it, with no new call. -/
theorem barrierReturns {P : Nat} {s : State} (schedule : List Nat) (ok : run (step P) (reinit P) schedule = some s)
    {r : Nat} (entered : ∀ i, i < P → r ≤ s.waits i) :
    ∃ more t, run (step P) s more = some t ∧ t.waits = s.waits ∧ ∀ i, i < P → r ≤ returned t i := by
  have nearer : ∀ u, (Safe P u ∧ u.waits = s.waits) → (¬∀ i, i < P → r ≤ returned u i) → ∃ i t, step P u i = some t ∧
      (Safe P t ∧ t.waits = s.waits) ∧ total P (fun i => left (t.pc i)) < total P (fun i => left (u.pc i)) := by
    rintro u ⟨safe,waits⟩ late
    obtain ⟨i,inside,within,free⟩ := mover safe (fun i inside => waits ▸ entered i inside) late
    obtain ⟨less,others,kept⟩ := moveLeft P within free
    refine ⟨i,move P u i,if_pos inside,⟨moveKeeps safe inside,kept.trans waits⟩,totalLess inside less (fun k other => ?_)⟩
    simp only [others k other]
  obtain ⟨more,t,ok',⟨_,waits⟩,all⟩ := reachesEnd _ nearer ⟨runSafe ok,rfl⟩
  exact ⟨more,t,ok',waits,all⟩

theorem barrierReturnsThree :
    ∃ s, run (step 3) (reinit 3) [2,0,1,0] = some s ∧ returned s 0 = 0 ∧
      ∃ more t, run (step 3) s more = some t ∧ t.waits = s.waits ∧ ∀ i, i < 3 → 1 ≤ returned t i :=
  ⟨_,rfl,by decide,@barrierReturns 3 _ [2,0,1,0] rfl 1 (by decide)⟩

end Ends

end CoTra.McsBarrier
