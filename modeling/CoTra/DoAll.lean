import CoTra.Progress
import CoTra.Spans

/-! The stealing loop over a range (do_all.h, do_all_standby.h, range.h). A critical section of a
work_mutex is one move, and so is a read of m_size without it. A schedule is the list of the
threads that move, each with whether a try_lock fails there: it may fail whenever it likes. -/
namespace CoTra.DoAll
open Runs Progress Spans

inductive StealAmt where
  | HALF
  | FULL
  deriving DecidableEq, Repr

structure ThreadContext where
  shared_beg : Nat
  shared_end : Nat
  m_size : Nat
  deriving DecidableEq, Repr

def hasWorkWeak (c : ThreadContext) : Bool := 0 < c.m_size

/- What the thread gets, and the context that is left. -/
def getWork (c : ThreadContext) (chunk_size : Nat) : Option (Nat × Nat × ThreadContext) :=
  if hasWorkWeak c then
    if c.m_size ≤ chunk_size then some (c.shared_beg,c.shared_end,⟨c.shared_end,c.shared_end,0⟩)
    else some (c.shared_beg,c.shared_beg + chunk_size,⟨c.shared_beg + chunk_size,c.shared_end,c.m_size - chunk_size⟩)
  else none

def stealWork (c : ThreadContext) (amount : StealAmt) (chunk_size : Nat) : Option (Nat × Nat × Nat × ThreadContext) :=
  if hasWorkWeak c then
    let steal_size := if amount = .HALF ∧ chunk_size < c.m_size then c.m_size / 2 else c.m_size
    if c.m_size ≤ steal_size then some (c.shared_beg,c.shared_end,c.m_size,⟨c.shared_end,c.shared_end,0⟩)
    else some (c.shared_beg,c.shared_beg + steal_size,steal_size,
      ⟨c.shared_beg + steal_size,c.shared_end,c.m_size - steal_size⟩)
  else none

/- The loop and the machine it runs on. -/
structure Exec where
  activeThreads : Nat
  maxThreads : Nat
  maxSockets : Nat
  getSocket : Nat → Nat
  isLeader : Nat → Bool
  chunk_size : Nat
  num : Nat

variable (E : Exec)

-- RangeIterator: what on_each leaves a thread.
def localBegin (t : Nat) : Nat := min ((E.num / E.activeThreads + 1) * t) E.num

def localEnd (t : Nat) : Nat := min (min E.num ((E.num / E.activeThreads + 1) * (t + 1))) E.num

def withinSocket (id : Nat) : List Nat :=
  let per_pack := E.maxThreads / E.maxSockets
  let pack_beg := E.getSocket id * per_pack
  let pack_end := (E.getSocket id + 1) * per_pack
  ((List.range' 1 (pack_end - 1)).map (fun i => (id + i) % per_pack + pack_beg)).filter (· < E.activeThreads)

def outsideSocket (id : Nat) : List Nat :=
  ((List.range E.activeThreads).map (fun i => (id + i) % E.activeThreads)).filter (fun t => E.getSocket t ≠ E.getSocket id)

/- The rounds of trySteal. -/
def trySteal (id : Nat) : List (List Nat × StealAmt) :=
  (withinSocket E id,.HALF) :: (if E.isLeader id then [(outsideSocket E id,.HALF)] else []) ++ [(outsideSocket E id,.HALF)]

/- `scan` has the threads that the round still goes to, whether it saw work, and the rounds behind it. -/
inductive Pc where
  | init
  | barrier
  | get
  | work (beg stop : Nat)
  | scan (victims : List Nat) (amount : StealAmt) (sawWork : Bool) (later : List (List Nat × StealAmt))
  | steal (rich : Nat) (victims : List Nat) (amount : StealAmt) (later : List (List Nat × StealAmt))
  | assign (beg stop size : Nat)
  | standby
  | exited
  deriving DecidableEq, Repr

/- `executed` is history: what a thread has called func with, last first. -/
structure State where
  pc : Nat → Pc
  workers : Nat → ThreadContext
  executed : Nat → List Nat

def begin' : State := ⟨fun _ => .init,fun _ => ⟨0,0,0⟩,fun _ => []⟩

def goto (s : State) (t : Nat) (pc : Pc) : State := { s with pc := Function.update s.pc t pc }

def setWorker (s : State) (t : Nat) (c : ThreadContext) : State := { s with workers := Function.update s.workers t c }

def called (s : State) (t i : Nat) : State := { s with executed := Function.update s.executed t (i :: s.executed t) }

def startRound : List (List Nat × StealAmt) → Pc
  | [] => .standby
  | round :: later => .scan round.1 round.2 false later

def move (s : State) (t : Nat) (busy : Bool) : State :=
  match s.pc t with
  | .init => goto (setWorker s t ⟨localBegin E t,localEnd E t,localEnd E t - localBegin E t⟩) t .barrier
  | .barrier => if ∀ k, k < E.activeThreads → s.pc k ≠ .init then goto s t .get else s
  | .get =>
    match getWork (s.workers t) E.chunk_size with
    | some (beg,stop,c) => goto (setWorker s t c) t (.work beg stop)
    | none => goto s t (startRound (trySteal E t))
  | .work beg stop => if beg ≠ stop then goto (called s t beg) t (.work (beg + 1) stop) else goto s t .get
  | .scan [] _ sawWork later => goto s t (if sawWork then .get else startRound later)
  | .scan (rich :: victims) amount sawWork later =>
    goto s t (if hasWorkWeak (s.workers rich) then .steal rich victims amount later else .scan victims amount sawWork later)
  | .steal rich victims amount later =>
    match if busy then none else stealWork (s.workers rich) amount E.chunk_size with
    | some (beg,stop,size,c) => goto (setWorker s rich c) t (.assign beg stop size)
    | none => goto s t (.scan victims amount true later)
  | .assign beg stop size => goto (setWorker s t ⟨beg,stop,size⟩) t .get
  | .standby => goto s t .exited
  | .exited => s

def step (s : State) (a : Nat × Bool) : Option State := if a.1 < E.activeThreads then some (move E s a.1 a.2) else none

-- What a thread has in its hands beside its context.
def carried (t : Nat) : Pc → Nat → Nat
  | .init,x => inRange (localBegin E t) (localEnd E t) x
  | .work beg stop,x => inRange beg stop x
  | .assign beg stop _,x => inRange beg stop x
  | _,_ => 0

/- How often an index is with a thread: done by it, in its context or in its hands. -/
def holds (s : State) (t x : Nat) : Nat :=
  (s.executed t).count x + inRange (s.workers t).shared_beg (s.workers t).shared_end x + carried E t (s.pc t) x

def executions (s : State) (x : Nat) : Nat := total E.activeThreads (fun t => (s.executed t).count x)

-- The places where a thread has nothing left of its own.
def empty : Pc → Bool
  | .scan .. | .steal .. | .assign .. | .standby | .exited => true
  | _ => false

def Fits (c : ThreadContext) : Prop := c.shared_beg ≤ c.shared_end ∧ c.m_size = c.shared_end - c.shared_beg

structure Safe (s : State) : Prop where
  fits : ∀ t, Fits (s.workers t)
  idle : ∀ t, E.activeThreads ≤ t → (s.workers t).m_size = 0
  fresh : ∀ t, s.pc t = .init → (s.workers t).m_size = 0
  emptied : ∀ t, empty (s.pc t) = true → (s.workers t).m_size = 0
  works : ∀ t beg stop, s.pc t = .work beg stop → beg ≤ stop
  assigns : ∀ t beg stop size, s.pc t = .assign beg stop size → beg ≤ stop ∧ size = stop - beg
  once : ∀ x, total E.activeThreads (fun t => holds E s t x) = if x < E.num then 1 else 0

theorem fitsMk {beg stop size : Nat} : Fits ⟨beg,stop,size⟩ ↔ beg ≤ stop ∧ size = stop - beg := Iff.rfl

section Ranges

/- The ranges of the threads are the range of the loop, cut in pieces. -/
theorem localRanges (x k : Nat) : total k (fun t => inRange (localBegin E t) (localEnd E t) x) =
    inRange 0 (min ((E.num / E.activeThreads + 1) * k) E.num) x := by
  induction k with
  | zero => exact (inRangeEmpty (by simp) x).symm
  | succ k ih =>
    rw [totalNext,ih]
    simp only [localBegin,localEnd,Nat.mul_succ]
    exact inRangeUpTo ..

theorem allRanges (threads : 0 < E.activeThreads) (x : Nat) :
    total E.activeThreads (fun t => inRange (localBegin E t) (localEnd E t) x) = if x < E.num then 1 else 0 := by
  have enough : E.num ≤ (E.num / E.activeThreads + 1) * E.activeThreads := by
    have parts := Nat.div_add_mod E.num E.activeThreads
    have less := Nat.mod_lt E.num threads
    rw [Nat.add_mul,Nat.mul_comm]
    omega
  rw [localRanges,Nat.min_eq_right enough]
  unfold inRange
  split <;> split <;> omega

theorem localLe (t : Nat) : localBegin E t ≤ localEnd E t := by
  simp only [localBegin,localEnd,Nat.mul_succ]
  generalize E.num / E.activeThreads + 1 = len
  omega

/- The front of a context was taken from it. -/
structure Taken (c : ThreadContext) (beg stop : Nat) (rest : ThreadContext) : Prop where
  first : beg = c.shared_beg
  upTo : stop = rest.shared_beg
  last : rest.shared_end = c.shared_end
  le : beg ≤ stop
  fits : Fits rest

variable {c rest : ThreadContext} {beg stop size chunk : Nat}

theorem takenRange (taken : Taken c beg stop rest) (x : Nat) : inRange c.shared_beg c.shared_end x =
    inRange beg stop x + inRange rest.shared_beg rest.shared_end x := by
  rw [← taken.first,← taken.last,← taken.upTo]
  exact inRangeSplit taken.le (taken.upTo ▸ taken.fits.1) x

theorem fitsEmpty (fits : Fits c) (none' : c.m_size = 0) (x : Nat) : inRange c.shared_beg c.shared_end x = 0 :=
  inRangeEmpty (by have := fits.1; have := fits.2; omega) x

theorem getWorkTaken (fits : Fits c) (found : getWork c chunk = some (beg,stop,rest)) : Taken c beg stop rest := by
  unfold Fits at fits
  unfold getWork hasWorkWeak at found
  split at found
  · split at found
    all_goals
      cases found
      exact ⟨rfl,rfl,rfl,by omega,fitsMk.mpr (by omega)⟩
  · cases found

theorem getWorkNone (none' : getWork c chunk = none) : c.m_size = 0 := by
  unfold getWork hasWorkWeak at none'
  split at none'
  · split at none' <;> cases none'
  · rename_i idle
    rw [decide_eq_true_eq] at idle
    omega

theorem stealWorkTaken {amount : StealAmt} (fits : Fits c) (found : stealWork c amount chunk = some (beg,stop,size,rest)) :
    Taken c beg stop rest ∧ size = stop - beg ∧ 0 < c.m_size := by
  unfold Fits at fits
  unfold stealWork hasWorkWeak at found
  split at found
  · rename_i work
    rw [decide_eq_true_eq] at work
    simp only at found
    generalize (if amount = .HALF ∧ chunk < c.m_size then c.m_size / 2 else c.m_size) = steal_size at found
    split at found
    all_goals
      cases found
      exact ⟨⟨rfl,rfl,rfl,by omega,fitsMk.mpr (by omega)⟩,by omega,work⟩
  · cases found

end Ranges

section Moves

variable {E} {s : State} {t : Nat} {q : Pc} {c : ThreadContext}

theorem gotoPc (s : State) (t : Nat) (q : Pc) : (goto s t q).pc t = q := Function.update_self ..

theorem gotoPcOther (s : State) (q : Pc) {k : Nat} (other : k ≠ t) : (goto s t q).pc k = s.pc k :=
  Function.update_of_ne other ..

theorem setWorkerSelf (s : State) (t : Nat) (c : ThreadContext) : (setWorker s t c).workers t = c := Function.update_self ..

theorem setWorkerOther (s : State) (c : ThreadContext) {k : Nat} (other : k ≠ t) :
    (setWorker s t c).workers k = s.workers k := Function.update_of_ne other ..

theorem calledSelf (s : State) (t i : Nat) : (called s t i).executed t = i :: s.executed t := Function.update_self ..

theorem calledOther (s : State) (i : Nat) {k : Nat} (other : k ≠ t) : (called s t i).executed k = s.executed k :=
  Function.update_of_ne other ..

/- A thread changes its own context, its calls and its place, and holds what it held. -/
theorem safeOwn {u : State} (safe : Safe E s) (inside : t < E.activeThreads)
    (pcs : ∀ k, k ≠ t → u.pc k = s.pc k) (workers : ∀ k, k ≠ t → u.workers k = s.workers k)
    (calls : ∀ k, k ≠ t → u.executed k = s.executed k) (fits : Fits (u.workers t))
    (nothing : u.pc t = .init ∨ empty (u.pc t) = true → (u.workers t).m_size = 0)
    (works : ∀ beg stop, u.pc t = .work beg stop → beg ≤ stop)
    (assigns : ∀ beg stop size, u.pc t = .assign beg stop size → beg ≤ stop ∧ size = stop - beg)
    (same : ∀ x, holds E u t x = holds E s t x) : Safe E u where
  fits k := by
    rcases eq_or_ne k t with rfl | other
    · exact fits
    · exact workers k other ▸ safe.fits k
  idle k beyond := workers k (by omega) ▸ safe.idle k beyond
  fresh k here := by
    rcases eq_or_ne k t with rfl | other
    · exact nothing (Or.inl here)
    · exact workers k other ▸ safe.fresh k ((pcs k other).symm.trans here)
  emptied k here := by
    rcases eq_or_ne k t with rfl | other
    · exact nothing (Or.inr here)
    · rw [pcs k other] at here
      exact workers k other ▸ safe.emptied k here
  works k beg stop here := by
    rcases eq_or_ne k t with rfl | other
    · exact works beg stop here
    · exact safe.works k beg stop ((pcs k other).symm.trans here)
  assigns k beg stop size here := by
    rcases eq_or_ne k t with rfl | other
    · exact assigns beg stop size here
    · exact safe.assigns k beg stop size ((pcs k other).symm.trans here)
  once x := by
    rw [← safe.once x]
    refine congrArg (total E.activeThreads) (funext fun k => ?_)
    rcases eq_or_ne k t with rfl | other
    · exact same x
    · unfold holds
      rw [calls k other,workers k other,pcs k other]

theorem safeGoto (safe : Safe E s) (inside : t < E.activeThreads)
    (nothing : q = .init ∨ empty q = true → (s.workers t).m_size = 0)
    (works : ∀ beg stop, q = .work beg stop → beg ≤ stop)
    (assigns : ∀ beg stop size, q = .assign beg stop size → beg ≤ stop ∧ size = stop - beg)
    (same : ∀ x, carried E t q x = carried E t (s.pc t) x) : Safe E (goto s t q) := by
  refine safeOwn safe inside (fun k other => gotoPcOther s q other) (fun _ _ => rfl) (fun _ _ => rfl) (safe.fits t)
    (fun here => nothing (gotoPc s t q ▸ here)) (fun beg stop here => works beg stop ((gotoPc s t q).symm.trans here))
    (fun beg stop size here => assigns beg stop size ((gotoPc s t q).symm.trans here)) (fun x => ?_)
  unfold holds
  rw [gotoPc,same]
  rfl

theorem safeSetWorker (safe : Safe E s) (inside : t < E.activeThreads) (fits : Fits c)
    (nothing : q = .init ∨ empty q = true → c.m_size = 0)
    (works : ∀ beg stop, q = .work beg stop → beg ≤ stop)
    (assigns : ∀ beg stop size, q = .assign beg stop size → beg ≤ stop ∧ size = stop - beg)
    (same : ∀ x, inRange c.shared_beg c.shared_end x + carried E t q x =
      inRange (s.workers t).shared_beg (s.workers t).shared_end x + carried E t (s.pc t) x) :
    Safe E (goto (setWorker s t c) t q) := by
  have own : (goto (setWorker s t c) t q).workers t = c := setWorkerSelf s t c
  refine safeOwn safe inside (fun k other => gotoPcOther _ q other) (fun k other => setWorkerOther s c other)
    (fun _ _ => rfl) (own.symm ▸ fits) (fun here => own.symm ▸ nothing (gotoPc _ t q ▸ here))
    (fun beg stop here => works beg stop ((gotoPc _ t q).symm.trans here))
    (fun beg stop size here => assigns beg stop size ((gotoPc _ t q).symm.trans here)) (fun x => ?_)
  unfold holds
  rw [gotoPc,own,Nat.add_assoc,same,← Nat.add_assoc]
  rfl

/- A thread takes from the context of another what it then carries. -/
theorem safeSteal {rich beg stop size : Nat} (safe : Safe E s) (inside : t < E.activeThreads)
    (own : empty (s.pc t) = true) (plain : ∀ x, carried E t (s.pc t) x = 0)
    (taken : Taken (s.workers rich) beg stop c) (sized : size = stop - beg) (some' : 0 < (s.workers rich).m_size) :
    Safe E (goto (setWorker s rich c) t (.assign beg stop size)) := by
  have apart : t ≠ rich := by
    rintro rfl
    have := safe.emptied t own
    omega
  have known : rich < E.activeThreads := by
    by_contra out
    have := safe.idle rich (by omega)
    omega
  have active : s.pc rich ≠ .init ∧ empty (s.pc rich) ≠ true :=
    ⟨fun here => by have := safe.fresh rich here; omega,fun here => by have := safe.emptied rich here; omega⟩
  have pcs : ∀ k, k ≠ t → (goto (setWorker s rich c) t (.assign beg stop size)).pc k = s.pc k :=
    fun k other => gotoPcOther _ _ other
  have here : (goto (setWorker s rich c) t (.assign beg stop size)).pc t = .assign beg stop size := gotoPc ..
  have rest : (goto (setWorker s rich c) t (.assign beg stop size)).workers rich = c := setWorkerSelf s rich c
  have others : ∀ k, k ≠ rich → (goto (setWorker s rich c) t (.assign beg stop size)).workers k = s.workers k :=
    fun k other => setWorkerOther s c other
  exact {
    fits := fun k => by
      rcases eq_or_ne k rich with rfl | other
      · rw [rest]
        exact taken.fits
      · rw [others k other]
        exact safe.fits k
    idle := fun k beyond => by
      rw [others k (by omega)]
      exact safe.idle k beyond
    fresh := fun k fresh => by
      rcases eq_or_ne k t with rfl | other
      · exact Pc.noConfusion (here.symm.trans fresh)
      · rw [pcs k other] at fresh
        rw [others k (by rintro rfl; exact active.1 fresh)]
        exact safe.fresh k fresh
    emptied := fun k gone => by
      rcases eq_or_ne k t with rfl | other
      · rw [others k apart]
        exact safe.emptied k own
      · rw [pcs k other] at gone
        rw [others k (by rintro rfl; exact active.2 gone)]
        exact safe.emptied k gone
    works := fun k b e at' => by
      rcases eq_or_ne k t with rfl | other
      · exact Pc.noConfusion (here.symm.trans at')
      · exact safe.works k b e ((pcs k other).symm.trans at')
    assigns := fun k b e n at' => by
      rcases eq_or_ne k t with rfl | other
      · cases here.symm.trans at'
        exact ⟨taken.le,sized⟩
      · exact safe.assigns k b e n ((pcs k other).symm.trans at')
    once := fun x => by
      rw [← safe.once x]
      refine totalHanded inside known apart (fun k one two => ?_) ?_
      · unfold holds
        rw [others k two,pcs k one]
        rfl
      · unfold holds
        rw [others t apart,here,rest,pcs rich (Ne.symm apart),plain,takenRange taken x]
        show (s.executed t).count x + _ + inRange beg stop x + ((s.executed rich).count x + _ + _) = _
        omega }

theorem moveSafe (safe : Safe E s) (inside : t < E.activeThreads) (busy : Bool) : Safe E (move E s t busy) := by
  have nowork : ∀ {q : Pc}, (∀ b e, q ≠ .work b e) → ∀ beg stop, q = .work beg stop → beg ≤ stop :=
    fun apart beg stop same => absurd same (apart beg stop)
  have noassign : ∀ {q : Pc}, (∀ b e n, q ≠ .assign b e n) → ∀ beg stop size, q = .assign beg stop size →
      beg ≤ stop ∧ size = stop - beg := fun apart beg stop size same => absurd same (apart beg stop size)
  have simple : ∀ {q : Pc}, (∀ x, carried E t (s.pc t) x = 0) → (∀ x, carried E t q x = 0) → (∀ b e, q ≠ .work b e) →
      (∀ b e n, q ≠ .assign b e n) → (q = .init ∨ empty q = true → (s.workers t).m_size = 0) → Safe E (goto s t q) :=
    fun before after work assign nothing =>
      safeGoto safe inside nothing (nowork work) (noassign assign) (fun x => (after x).trans (before x).symm)
  unfold move
  cases here : s.pc t with
  | init =>
    refine safeSetWorker safe inside (fitsMk.mpr ⟨localLe E t,rfl⟩) (fun no => ?_) (nowork (fun _ _ => Pc.noConfusion))
      (noassign (fun _ _ _ => Pc.noConfusion)) (fun x => ?_)
    · rcases no with no | no <;> cases no
    · rw [here,fitsEmpty (safe.fits t) (safe.fresh t here) x,Nat.zero_add]
      rfl
  | barrier =>
    simp only
    split
    · exact simple (fun x => by rw [here]; rfl) (fun _ => rfl) (fun _ _ => Pc.noConfusion) (fun _ _ _ => Pc.noConfusion)
        (fun no => by rcases no with no | no <;> cases no)
    · exact safe
  | get =>
    simp only
    split
    · rename_i beg stop c found
      have taken := getWorkTaken (safe.fits t) found
      refine safeSetWorker safe inside taken.fits (fun no => ?_) (fun b e same => ?_)
        (noassign (fun _ _ _ => Pc.noConfusion)) (fun x => ?_)
      · rcases no with no | no <;> cases no
      · cases same
        exact taken.le
      · rw [here,takenRange taken x]
        show _ + inRange beg stop x = _ + 0
        omega
    · rename_i none'
      exact simple (fun x => by rw [here]; rfl) (fun _ => rfl) (fun _ _ => Pc.noConfusion) (fun _ _ _ => Pc.noConfusion)
        (fun _ => getWorkNone none')
  | work beg stop =>
    have le := safe.works t beg stop here
    simp only
    split
    · rename_i more
      have own : (goto (called s t beg) t (.work (beg + 1) stop)).executed t = beg :: s.executed t := calledSelf ..
      refine safeOwn safe inside (fun k other => gotoPcOther _ _ other) (fun _ _ => rfl)
        (fun k other => calledOther s beg other) (safe.fits t) (fun no => ?_) (fun b e same => ?_)
        (fun _ _ _ same => Pc.noConfusion ((gotoPc _ t _).symm.trans same)) (fun x => ?_)
      · rw [gotoPc] at no
        rcases no with no | no <;> cases no
      · cases (gotoPc _ t _).symm.trans same
        omega
      · unfold holds
        rw [own,gotoPc,here,List.count_cons]
        show _ + _ + _ + inRange (beg + 1) stop x = _ + _ + inRange beg stop x
        rw [inRangeFirst (by omega : beg < stop) x]
        simp only [beq_iff_eq]
        show _ + _ + inRange (s.workers t).shared_beg (s.workers t).shared_end x + _ = _
        omega
    · rename_i done
      refine safeGoto safe inside (fun no => ?_) (nowork (fun _ _ => Pc.noConfusion)) (noassign (fun _ _ _ => Pc.noConfusion))
        (fun x => ?_)
      · rcases no with no | no <;> cases no
      · rw [here]
        exact (inRangeEmpty (by omega) x).symm
  | scan victims amount sawWork later =>
    have nothing := safe.emptied t (by rw [here]; rfl)
    cases victims with
    | nil =>
      simp only
      split
      · exact simple (fun x => by rw [here]; rfl) (fun _ => rfl) (fun _ _ => Pc.noConfusion) (fun _ _ _ => Pc.noConfusion)
          (fun _ => nothing)
      · cases later with
        | nil =>
          exact simple (fun x => by rw [here]; rfl) (fun _ => rfl) (fun _ _ => Pc.noConfusion)
            (fun _ _ _ => Pc.noConfusion) (fun _ => nothing)
        | cons round later =>
          exact simple (fun x => by rw [here]; rfl) (fun _ => rfl) (fun _ _ => Pc.noConfusion)
            (fun _ _ _ => Pc.noConfusion) (fun _ => nothing)
    | cons rich victims =>
      simp only
      split
      all_goals
        exact simple (fun x => by rw [here]; rfl) (fun _ => rfl) (fun _ _ => Pc.noConfusion)
          (fun _ _ _ => Pc.noConfusion) (fun _ => nothing)
  | steal rich victims amount later =>
    have nothing := safe.emptied t (by rw [here]; rfl)
    simp only
    split
    · rename_i beg stop size c found
      split at found
      · cases found
      · obtain ⟨taken,sized,some'⟩ := stealWorkTaken (safe.fits rich) found
        exact safeSteal safe inside (by rw [here]; rfl) (fun x => by rw [here]; rfl) taken sized some'
    · exact simple (fun x => by rw [here]; rfl) (fun _ => rfl) (fun _ _ => Pc.noConfusion) (fun _ _ _ => Pc.noConfusion)
        (fun _ => nothing)
  | assign beg stop size =>
    have whole := safe.assigns t beg stop size here
    refine safeSetWorker safe inside (fitsMk.mpr whole) (fun no => ?_) (nowork (fun _ _ => Pc.noConfusion))
      (noassign (fun _ _ _ => Pc.noConfusion)) (fun x => ?_)
    · rcases no with no | no <;> cases no
    · rw [here,fitsEmpty (safe.fits t) (safe.emptied t (by rw [here]; rfl)) x,Nat.zero_add]
      rfl
  | standby =>
    exact simple (fun x => by rw [here]; rfl) (fun _ => rfl) (fun _ _ => Pc.noConfusion) (fun _ _ _ => Pc.noConfusion)
      (fun _ => safe.emptied t (by rw [here]; rfl))
  | exited => exact safe

theorem beginSafe (threads : 0 < E.activeThreads) : Safe E begin' where
  fits _ := fitsMk.mpr ⟨Nat.le_refl 0,rfl⟩
  idle _ _ := rfl
  fresh _ _ := rfl
  emptied _ _ := rfl
  works _ _ _ := Pc.noConfusion
  assigns _ _ _ _ := Pc.noConfusion
  once x := by
    rw [← allRanges E threads x]
    refine congrArg (total E.activeThreads) (funext fun k => ?_)
    show 0 + inRange 0 0 x + _ = _
    rw [inRangeEmpty (Nat.le_refl 0),Nat.zero_add]
    rfl

theorem runSafe (threads : 0 < E.activeThreads) {schedule : List (Nat × Bool)}
    (ok : run (step E) begin' schedule = some s) : Safe E s :=
  runInvariant (fun u a v h safe => by
    unfold step at h
    split at h
    · cases h
      exact moveSafe safe ‹_› a.2
    · cases h) ok (beginSafe threads)

theorem executionsAtMost (safe : Safe E s) (x : Nat) : executions E s x ≤ if x < E.num then 1 else 0 := by
  rw [← safe.once x]
  refine totalMono (fun k => ?_)
  unfold holds
  omega

theorem executionsExited (safe : Safe E s) (all : ∀ t, t < E.activeThreads → s.pc t = .exited) (x : Nat) :
    executions E s x = if x < E.num then 1 else 0 := by
  refine Nat.le_antisymm (executionsAtMost safe x) ?_
  rw [← safe.once x]
  refine totalMonoBelow (fun k known => ?_)
  have nothing := safe.emptied k (by rw [all k known]; rfl)
  unfold holds
  rw [fitsEmpty (safe.fits k) nothing x,all k known]
  exact Nat.le_refl _

end Moves

section Ends

def roundsRank : List (List Nat × StealAmt) → Nat
  | [] => 1
  | round :: later => round.1.length + 1 + roundsRank later

-- The rank of the place where a thread asks for work of its own.
def getRank (t : Nat) : Nat := roundsRank (trySteal E t) + 1

/- The moves that thread t has before it when it goes alone and executes nothing. -/
def idleMoves (s : State) (t : Nat) : Pc → Nat
  | .exited => 0
  | .standby => 1
  | .get => getRank E t
  | .init | .barrier | .work _ _ | .assign _ _ _ => getRank E t + 1
  | .scan victims _ sawWork later =>
    if sawWork then getRank E t + 1 + victims.length else victims.length + 1 + roundsRank later
  | .steal rich victims _ _ => if hasWorkWeak (s.workers rich) then 0 else getRank E t + 2 + victims.length

def handed : Pc → Nat
  | .work beg stop => stop - beg
  | .assign _ _ size => 3 * size
  | _ => 0

def shared (s : State) (t k : Nat) : Nat := if k = t then 0 else (s.workers k).m_size

/- An index weighs less the nearer it is to being done by thread t. -/
def pending (s : State) (t : Nat) : Nat :=
  4 * total E.activeThreads (shared s t) + 2 * (s.workers t).m_size + handed (s.pc t)

def aloneWeight (s : State) (t : Nat) : Nat := pending E s t * (getRank E t + 2) + idleMoves E s t (s.pc t)

variable {E} {s : State} {t : Nat} {q : Pc} {c : ThreadContext}

theorem weightWork {a b C r r' : Nat} (less : a < b) (low : r' < C) : a * C + r' < b * C + r := by
  have := Nat.mul_le_mul_right C less
  rw [Nat.succ_mul] at this
  omega

theorem getWorkSize {c rest : ThreadContext} {beg stop chunk : Nat} (fits : Fits c) (chunked : 0 < chunk)
    (found : getWork c chunk = some (beg,stop,rest)) : beg < stop ∧ rest.m_size + (stop - beg) = c.m_size := by
  unfold Fits at fits
  unfold getWork hasWorkWeak at found
  split at found
  · rename_i work
    rw [decide_eq_true_eq] at work
    split at found
    · cases found
      simp only
      omega
    · cases found
      simp only
      omega
  · cases found

theorem stealWorkSize {c rest : ThreadContext} {beg stop size chunk : Nat} {amount : StealAmt} (chunked : 0 < chunk)
    (found : stealWork c amount chunk = some (beg,stop,size,rest)) : 0 < size ∧ rest.m_size + size = c.m_size := by
  unfold stealWork hasWorkWeak at found
  split at found
  · rename_i work
    rw [decide_eq_true_eq] at work
    simp only at found
    have some' : 0 < (if amount = .HALF ∧ chunk < c.m_size then c.m_size / 2 else c.m_size) := by
      split <;> omega
    generalize (if amount = .HALF ∧ chunk < c.m_size then c.m_size / 2 else c.m_size) = steal_size at found some'
    split at found
    · cases found
      simp only
      omega
    · cases found
      simp only
      omega
  · cases found

theorem stealWorkSome {c : ThreadContext} {chunk : Nat} {amount : StealAmt} (work : hasWorkWeak c = true) :
    (stealWork c amount chunk).isSome = true := by
  unfold stealWork
  rw [if_pos work]
  simp only
  generalize (if amount = .HALF ∧ chunk < c.m_size then c.m_size / 2 else c.m_size) = steal_size
  split <;> rfl

-- The thread only goes to another place, with less before it.
theorem lessIdle {u : State} (workers : u.workers = s.workers) (same : handed (u.pc t) = handed (s.pc t))
    (less : idleMoves E u t (u.pc t) < idleMoves E s t (s.pc t)) : aloneWeight E u t < aloneWeight E s t := by
  have equal : pending E u t = pending E s t := by
    unfold pending shared
    rw [workers,same]
  unfold aloneWeight
  rw [equal]
  omega

theorem sharedSame {u : State} (workers : ∀ k, k ≠ t → u.workers k = s.workers k) : shared u t = shared s t := by
  funext k
  unfold shared
  split
  · rfl
  · rw [workers k ‹_›]

theorem startRoundRank (t : Nat) (rounds : List (List Nat × StealAmt)) (s : State) :
    idleMoves E s t (startRound rounds) = roundsRank rounds ∧ handed (startRound rounds) = 0 := by
  cases rounds with
  | nil => exact ⟨rfl,rfl⟩
  | cons round later => exact ⟨rfl,rfl⟩

theorem aloneLess (safe : Safe E s) (chunked : 0 < E.chunk_size) (inside : t < E.activeThreads)
    (started : ∀ k, k < E.activeThreads → s.pc k ≠ .init) (within : s.pc t ≠ .exited) :
    aloneWeight E (move E s t false) t < aloneWeight E s t := by
  have goes : ∀ {q : Pc}, handed q = handed (s.pc t) → idleMoves E s t q < idleMoves E s t (s.pc t) →
      aloneWeight E (goto s t q) t < aloneWeight E s t := fun {q} same less =>
    lessIdle rfl (by rw [gotoPc]; exact same) (by rw [gotoPc]; exact less)
  unfold move
  cases here : s.pc t with
  | init => exact absurd here (started t inside)
  | barrier =>
    simp only
    rw [if_pos started]
    exact goes (by rw [here]; rfl) (by rw [here]; exact Nat.lt_succ_self _)
  | get =>
    simp only
    split
    · rename_i beg stop c found
      obtain ⟨some',sized⟩ := getWorkSize (safe.fits t) chunked found
      refine weightWork ?_ ?_
      · have own : (goto (setWorker s t c) t (.work beg stop)).workers t = c := setWorkerSelf s t c
        unfold pending
        rw [sharedSame (u := goto (setWorker s t c) t (.work beg stop)) (fun k other => setWorkerOther s c other),own,gotoPc,here]
        show _ + (stop - beg) < _ + 0
        omega
      · rw [gotoPc]
        exact Nat.lt_succ_self _
    · have rounds := @startRoundRank E t (trySteal E t) s
      exact goes (by rw [here,rounds.2]; rfl) (by rw [here,rounds.1]; exact Nat.lt_succ_self _)
  | work beg stop =>
    have le := safe.works t beg stop here
    simp only
    split
    · refine weightWork ?_ ?_
      · unfold pending
        rw [gotoPc,here]
        show 4 * total E.activeThreads (shared s t) + 2 * (s.workers t).m_size + (stop - (beg + 1)) < _ + (stop - beg)
        omega
      · rw [gotoPc]
        exact Nat.lt_succ_self _
    · exact goes (by rw [here]; show 0 = stop - beg; omega) (by rw [here]; exact Nat.lt_succ_self _)
  | scan victims amount sawWork later =>
    cases victims with
    | nil =>
      simp only
      split
      · rename_i saw
        exact goes (by rw [here]; rfl) (by rw [here,saw]; exact Nat.lt_succ_self _)
      · rename_i saw
        rw [Bool.not_eq_true] at saw
        have rounds := @startRoundRank E t later s
        refine goes (by rw [here,rounds.2]; rfl) ?_
        rw [here,rounds.1,saw]
        show _ < 0 + 1 + _
        omega
    | cons rich victims =>
      simp only
      split
      · rename_i work
        refine goes (by rw [here]; rfl) ?_
        rw [here]
        show (if hasWorkWeak (s.workers rich) then 0 else _) < if sawWork then _ else _
        rw [if_pos work]
        split <;> omega
      · refine goes (by rw [here]; rfl) ?_
        rw [here]
        show (if sawWork then _ else _) < if sawWork then _ else _
        rw [List.length_cons]
        split <;> omega
  | steal rich victims amount later =>
    have nothing := safe.emptied t (by rw [here]; rfl)
    simp only
    split
    · rename_i beg stop size c found
      rw [if_neg Bool.false_ne_true] at found
      obtain ⟨some',sized⟩ := stealWorkSize chunked found
      have known : rich < E.activeThreads := by
        by_contra out
        have := safe.idle rich (by omega)
        omega
      have apart : rich ≠ t := by
        rintro rfl
        omega
      have own : (goto (setWorker s rich c) t (.assign beg stop size)).workers t = s.workers t :=
        setWorkerOther s c (Ne.symm apart)
      have less : total E.activeThreads (shared (goto (setWorker s rich c) t (.assign beg stop size)) t) +
          shared s t rich = total E.activeThreads (shared s t) +
          shared (goto (setWorker s rich c) t (.assign beg stop size)) t rich := by
        refine totalChange known (fun k other => ?_)
        unfold shared
        rw [show (goto (setWorker s rich c) t (.assign beg stop size)).workers k = s.workers k from setWorkerOther s c other]
      have rest : (goto (setWorker s rich c) t (.assign beg stop size)).workers rich = c := setWorkerSelf s rich c
      have before : shared s t rich = (s.workers rich).m_size := if_neg apart
      have after : shared (goto (setWorker s rich c) t (.assign beg stop size)) t rich = c.m_size := by
        unfold shared
        rw [if_neg apart,rest]
      refine weightWork ?_ ?_
      · unfold pending
        rw [own,gotoPc,here]
        show _ + 3 * size < _ + 0
        omega
      · rw [gotoPc]
        exact Nat.lt_succ_self _
    · rename_i none'
      rw [if_neg Bool.false_ne_true] at none'
      have idle : ¬hasWorkWeak (s.workers rich) = true := fun work => by
        have := @stealWorkSome _ E.chunk_size amount work
        rw [none'] at this
        exact Bool.false_ne_true this
      refine goes (by rw [here]; rfl) ?_
      rw [here]
      show getRank E t + 1 + victims.length < if hasWorkWeak (s.workers rich) then _ else _
      rw [if_neg idle]
      omega
  | assign beg stop size =>
    have nothing := safe.emptied t (by rw [here]; rfl)
    have own : (goto (setWorker s t ⟨beg,stop,size⟩) t .get).workers t = ⟨beg,stop,size⟩ := setWorkerSelf ..
    have pended : pending E (goto (setWorker s t ⟨beg,stop,size⟩) t .get) t + size = pending E s t := by
      unfold pending
      rw [sharedSame (u := goto (setWorker s t ⟨beg,stop,size⟩) t .get) (fun k other => setWorkerOther s _ other),own,gotoPc,here,
        nothing]
      show _ + 2 * size + 0 + size = _ + 3 * size
      omega
    show aloneWeight E (goto (setWorker s t ⟨beg,stop,size⟩) t .get) t < _
    unfold aloneWeight
    rw [gotoPc,here]
    rcases Nat.eq_zero_or_pos size with rfl | some'
    · rw [← pended]
      exact Nat.lt_succ_self _
    · exact weightWork (by omega) (Nat.lt_succ_of_lt (Nat.lt_succ_self _))
  | standby => exact goes (by rw [here]; rfl) (by rw [here]; exact Nat.zero_lt_one)
  | exited => exact absurd here within

theorem movePcOther (busy : Bool) {k : Nat} (other : k ≠ t) : (move E s t busy).pc k = s.pc k := by
  unfold move
  split
  all_goals first | exact gotoPcOther _ _ other | (split <;> first | exact gotoPcOther _ _ other | rfl) | rfl

theorem startRoundStarted (rounds : List (List Nat × StealAmt)) : startRound rounds ≠ .init := by
  cases rounds <;> exact Pc.noConfusion

theorem moveStarted (s : State) (t : Nat) (busy : Bool) : (move E s t busy).pc t ≠ .init := by
  unfold move
  cases here : s.pc t with
  | init | assign _ _ _ | standby =>
    simp only
    rw [gotoPc]
    exact Pc.noConfusion
  | exited =>
    rw [here]
    exact Pc.noConfusion
  | barrier | work _ _ =>
    simp only
    split
    · rw [gotoPc]
      exact Pc.noConfusion
    · first | (rw [gotoPc]; exact Pc.noConfusion) | (rw [here]; exact Pc.noConfusion)
  | get | steal _ _ _ _ =>
    simp only
    split
    · rw [gotoPc]
      exact Pc.noConfusion
    · rw [gotoPc]
      exact Pc.noConfusion
  | scan victims _ _ later =>
    cases victims with
    | nil =>
      simp only
      rw [gotoPc]
      split
      · exact Pc.noConfusion
      · exact startRoundStarted _
    | cons rich victims =>
      simp only
      rw [gotoPc]
      split <;> exact Pc.noConfusion

theorem stepMove (inside : t < E.activeThreads) (busy : Bool) : step E s (t,busy) = some (move E s t busy) := if_pos inside

/- The threads before j can all come to the barrier. -/
theorem reachBarrier (safe : Safe E s) (j : Nat) (le : j ≤ E.activeThreads) :
    ∃ acts u, run (step E) s acts = some u ∧ Safe E u ∧ ∀ k, k < j → u.pc k ≠ .init := by
  induction j with
  | zero => exact ⟨[],s,rfl,safe,fun k no => absurd no (Nat.not_lt_zero k)⟩
  | succ j ih =>
    obtain ⟨acts,u,ok,safe',before⟩ := ih (by omega)
    refine ⟨acts ++ [(j,false)],move E u j false,runJoin ok ((runCons (stepMove le false) []).trans rfl),
      moveSafe safe' le false,fun k known => ?_⟩
    rcases eq_or_ne k j with rfl | other
    · exact moveStarted u k false
    · rw [movePcOther false other]
      exact before k (by omega)

theorem aloneExits (safe : Safe E s) (chunked : 0 < E.chunk_size) (inside : t < E.activeThreads)
    (started : ∀ k, k < E.activeThreads → s.pc k ≠ .init) :
    ∃ acts u, run (step E) s acts = some u ∧ Safe E u ∧ u.pc t = .exited ∧ ∀ k, k ≠ t → u.pc k = s.pc k := by
  have nearer : ∀ u, (Safe E u ∧ (∀ k, k < E.activeThreads → u.pc k ≠ .init) ∧ ∀ k, k ≠ t → u.pc k = s.pc k) →
      ¬u.pc t = .exited → ∃ (a : Nat × Bool) (v : State), step E u a = some v ∧
        (Safe E v ∧ (∀ k, k < E.activeThreads → v.pc k ≠ .init) ∧ ∀ k, k ≠ t → v.pc k = s.pc k) ∧
        aloneWeight E v t < aloneWeight E u t := by
    rintro u ⟨safe',started',others⟩ within
    refine ⟨(t,false),move E u t false,stepMove inside false,⟨moveSafe safe' inside false,fun k known => ?_,fun k other => ?_⟩,
      aloneLess safe' chunked inside started' within⟩
    · rcases eq_or_ne k t with rfl | other
      · exact moveStarted u k false
      · rw [movePcOther false other]
        exact started' k known
    · rw [movePcOther false other]
      exact others k other
  obtain ⟨acts,u,ok,⟨safe',-,others⟩,out⟩ := reachesEnd (fun u => aloneWeight E u t) nearer ⟨safe,started,fun _ _ => rfl⟩
  exact ⟨acts,u,ok,safe',out,others⟩

theorem exitBelow (safe : Safe E s) (chunked : 0 < E.chunk_size)
    (started : ∀ k, k < E.activeThreads → s.pc k ≠ .init) (j : Nat) (le : j ≤ E.activeThreads) :
    ∃ acts u, run (step E) s acts = some u ∧ Safe E u ∧ (∀ k, k < j → u.pc k = .exited) ∧
      ∀ k, k < E.activeThreads → u.pc k ≠ .init := by
  induction j with
  | zero => exact ⟨[],s,rfl,safe,fun k no => absurd no (Nat.not_lt_zero k),started⟩
  | succ j ih =>
    obtain ⟨acts,u,ok,safe',before,started'⟩ := ih (by omega)
    obtain ⟨acts',v,ok',safe'',out,others⟩ := aloneExits safe' chunked le started'
    refine ⟨acts ++ acts',v,runJoin ok ok',safe'',fun k known => ?_,fun k known => ?_⟩
    all_goals rcases eq_or_ne k j with rfl | other
    · exact out
    · exact (others k other).trans (before k (by omega))
    · rw [out]
      exact Pc.noConfusion
    · rw [others k other]
      exact started' k known

/- Whatever the threads' order and whichever try_lock fails, no index is executed twice and none outside
the range; from wherever they are the threads can all leave, and when they have, every index of the
range has been executed exactly once. -/
theorem stealingExact {E : Exec} {s : State} (threads : 0 < E.activeThreads) (chunked : 0 < E.chunk_size)
    (schedule : List (Nat × Bool)) (ok : run (step E) begin' schedule = some s) :
    (∀ x, executions E s x ≤ if x < E.num then 1 else 0) ∧
      ((∀ t, t < E.activeThreads → s.pc t = .exited) → ∀ x, executions E s x = if x < E.num then 1 else 0) ∧
      ∃ more u, run (step E) s more = some u ∧ ∀ t, t < E.activeThreads → u.pc t = .exited := by
  have safe := runSafe threads ok
  refine ⟨executionsAtMost safe,executionsExited safe,?_⟩
  obtain ⟨acts,u,ok',safe',started⟩ := reachBarrier safe E.activeThreads (Nat.le_refl _)
  obtain ⟨acts',v,ok'',-,all,-⟩ := exitBelow safe' chunked started E.activeThreads (Nat.le_refl _)
  exact ⟨acts ++ acts',v,runJoin ok' ok'',all⟩

def twoThreads : Exec := ⟨2,2,1,fun _ => 0,fun t => t = 0,1,3⟩

def oneSteals : List (Nat × Bool) := [(0,false),(1,false),(0,false)] ++ List.replicate 7 (1,false)

theorem stealingExactTwo : ∃ s, run (step twoThreads) begin' oneSteals = some s ∧ s.pc 1 = .assign 0 1 1 ∧
    (∀ x, executions twoThreads s x ≤ if x < 3 then 1 else 0) ∧
    ((∀ t, t < 2 → s.pc t = .exited) → ∀ x, executions twoThreads s x = if x < 3 then 1 else 0) ∧
    ∃ more u, run (step twoThreads) s more = some u ∧ ∀ t, t < 2 → u.pc t = .exited :=
  ⟨_,rfl,rfl,stealingExact (by decide) (by decide) oneSteals rfl⟩

end Ends

end CoTra.DoAll
