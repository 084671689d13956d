import CoTra.SubQuery
import Mathlib.Algebra.BigOperators.Fin
import Mathlib.Algebra.Order.BigOperators.Group.Finset
import Mathlib.Algebra.Order.Field.Rat

/-! How the origin chooses the core machines (coro_sub_query_v5, behind the pre-stage).
The candidates are counted by machine, the machine with the most leads, and those
above the average are core machines; the candidates of the others go to the leader.
The ratios are exact. `none`: no machine leads, or a vector is appended to itself. -/
namespace CoTra.CoreSelection
open Priority SubQuery

variable {n : Nat} {D : Type} (getMachineId : Nat → Fin n)

structure Filter (n : Nat) (D : Type) where
  filterred : Fin n → List (D × Nat)
  filterNum : Fin n → Nat

def filterCand (s : Filter n D) (cand : D × Nat) : Filter n D :=
  let mid := getMachineId cand.2
  { filterred := Function.update s.filterred mid (s.filterred mid ++ [cand])
    filterNum := Function.update s.filterNum mid (s.filterNum mid + 1) }

def filterCands (cands : List (D × Nat)) : Filter n D :=
  cands.foldl (filterCand getMachineId) ⟨fun _ => [],fun _ => 0⟩

structure Count (n : Nat) where
  suCnt : Nat
  mxCnt : Nat
  mxMid : Option (Fin n)

def countMachine (filterNum : Fin n → Nat) (c : Count n) (m : Fin n) : Count n :=
  let c := { c with suCnt := c.suCnt + filterNum m }
  if c.mxCnt < filterNum m then { c with mxCnt := filterNum m, mxMid := some m } else c

def countMachines (filterNum : Fin n → Nat) : Count n := (List.finRange n).foldl (countMachine filterNum) ⟨0,0,none⟩

structure Dispatch (n : Nat) (D : Type) where
  coreMachine : List (Fin n)
  filterred : Fin n → List (D × Nat)

def isCore (filterNum : Fin n → Nat) (suCnt : Nat) (m : Fin n) : Bool := (1 : ℚ) / n < filterNum m / suCnt

def selectMachine (filterNum : Fin n → Nat) (suCnt : Nat) (mxMid : Fin n) (d : Dispatch n D) (m : Fin n) :
    Option (Dispatch n D) :=
  if isCore filterNum suCnt m then some { d with coreMachine := d.coreMachine ++ [m] }
  else if m = mxMid ∧ d.filterred m ≠ [] then none
  else some { d with filterred := Function.update d.filterred mxMid (d.filterred mxMid ++ d.filterred m) }

/- The leader, the core machines, and what each of them is given. -/
def dispatch (cands : List (D × Nat)) : Option (Fin n × Dispatch n D) := do
  let f := filterCands getMachineId cands
  let c := countMachines f.filterNum
  let mxMid ← c.mxMid
  let d ← (List.finRange n).foldlM (selectMachine f.filterNum c.suCnt mxMid) ⟨[],f.filterred⟩
  some (mxMid,d)

section Counting

/- The candidates of machine m, in their order. -/
def ownedBy (cands : List (D × Nat)) (m : Fin n) : List (D × Nat) := cands.filter (fun c => getMachineId c.2 = m)

theorem filterCandsFrom (cands : List (D × Nat)) (s : Filter n D) (m : Fin n) :
    (cands.foldl (filterCand getMachineId) s).filterred m = s.filterred m ++ ownedBy getMachineId cands m ∧
      (cands.foldl (filterCand getMachineId) s).filterNum m = s.filterNum m + (ownedBy getMachineId cands m).length := by
  induction cands generalizing s with
  | nil => simp [ownedBy]
  | cons c rest ih =>
    obtain ⟨lists,nums⟩ := ih (filterCand getMachineId s c)
    rw [List.foldl_cons,lists,nums]
    rcases eq_or_ne (getMachineId c.2) m with rfl | other
    · simp [filterCand,ownedBy,Nat.add_assoc,Nat.add_comm 1]
    · simp [filterCand,ownedBy,other,Function.update_of_ne (Ne.symm other)]

theorem filterCandsOwned (cands : List (D × Nat)) (m : Fin n) :
    (filterCands getMachineId cands).filterred m = ownedBy getMachineId cands m ∧
      (filterCands getMachineId cands).filterNum m = (ownedBy getMachineId cands m).length := by
  obtain ⟨lists,nums⟩ := filterCandsFrom getMachineId cands ⟨fun _ => [],fun _ => 0⟩ m
  exact ⟨lists,by rw [filterCands,nums]; exact Nat.zero_add _⟩

/- The first machine with the largest number, if one has any. -/
structure Finds (filterNum : Fin n → Nat) (ms : List (Fin n)) (c : Count n) : Prop where
  sum : c.suCnt = (ms.map filterNum).sum
  most : ∀ m ∈ ms, filterNum m ≤ c.mxCnt
  found : ∀ m, c.mxMid = some m → m ∈ ms ∧ filterNum m = c.mxCnt ∧ 0 < c.mxCnt
  none' : c.mxMid = none → c.mxCnt = 0

theorem countStep {filterNum : Fin n → Nat} {ms : List (Fin n)} {c : Count n} (m : Fin n)
    (ok : Finds filterNum ms c) : Finds filterNum (ms ++ [m]) (countMachine filterNum c m) := by
  have sum : c.suCnt + filterNum m = ((ms ++ [m]).map filterNum).sum := by
    rw [ok.sum]
    simp
  unfold countMachine
  simp only
  split
  · rename_i more
    refine ⟨sum,fun m' member => ?_,fun m' at' => ?_,fun no => by cases no⟩
    · rcases List.mem_append.mp member with before | last
      · have most := ok.most m' before
        simp only
        omega
      · rw [List.mem_singleton.mp last]
    · cases Option.some.inj at'
      exact ⟨List.mem_append_right _ List.mem_cons_self,rfl,Nat.lt_of_le_of_lt (Nat.zero_le _) more⟩
  · rename_i less
    refine ⟨sum,fun m' member => ?_,fun m' at' => ?_,ok.none'⟩
    · rcases List.mem_append.mp member with before | last
      · exact ok.most m' before
      · rw [List.mem_singleton.mp last]
        exact Nat.not_lt.mp less
    · obtain ⟨before,same⟩ := ok.found m' at'
      exact ⟨List.mem_append_left _ before,same⟩

theorem countMachinesFinds (filterNum : Fin n → Nat) :
    Finds filterNum (List.finRange n) (countMachines filterNum) := by
  have all : ∀ (ms done' : List (Fin n)) (c : Count n), Finds filterNum done' c →
      Finds filterNum (done' ++ ms) (ms.foldl (countMachine filterNum) c) := by
    intro ms
    induction ms with
    | nil =>
      intro done' c ok
      rw [List.append_nil]
      exact ok
    | cons m rest ih =>
      intro done' c ok
      have next := ih (done' ++ [m]) _ (countStep m ok)
      rwa [List.append_assoc] at next
  exact all (List.finRange n) [] ⟨0,0,none⟩
    ⟨rfl,fun m no => absurd no List.not_mem_nil,(fun m no => by cases no),fun _ => rfl⟩

theorem isCoreIff {filterNum : Fin n → Nat} {suCnt : Nat} (pos : 0 < suCnt) (m : Fin n) :
    isCore filterNum suCnt m = true ↔ suCnt < n * filterNum m := by
  have machines : (0 : ℚ) < n := Nat.cast_pos.mpr (Nat.lt_of_le_of_lt (Nat.zero_le _) m.isLt)
  have some' : (0 : ℚ) < suCnt := Nat.cast_pos.mpr pos
  rw [isCore,decide_eq_true_eq,div_lt_div_iff₀ machines some']
  rw [one_mul,← Nat.cast_mul,Nat.cast_lt,Nat.mul_comm]

end Counting

section Selection

variable {getMachineId}

/- After the machines ms: the core machines among them, and the rest's candidates
behind those of the leader. -/
def selected (core : Fin n → Bool) (owned : Fin n → List (D × Nat)) (mxMid : Fin n) (ms : List (Fin n)) :
    Dispatch n D where
  coreMachine := ms.filter core
  filterred := Function.update owned mxMid (owned mxMid ++ (ms.filter (fun m => !core m)).flatMap owned)

theorem selectStep {filterNum : Fin n → Nat} {suCnt : Nat} {mxMid : Fin n} (owned : Fin n → List (D × Nat))
    (leads : isCore filterNum suCnt mxMid = true) (ms : List (Fin n)) (m : Fin n) :
    selectMachine filterNum suCnt mxMid (selected (isCore filterNum suCnt) owned mxMid ms) m =
      some (selected (isCore filterNum suCnt) owned mxMid (ms ++ [m])) := by
  unfold selectMachine
  cases core : isCore filterNum suCnt m with
  | true => simp [selected,core]
  | false =>
    have other : m ≠ mxMid := by
      rintro rfl
      rw [leads] at core
      cases core
    simp [selected,core,other]

theorem selectAll {filterNum : Fin n → Nat} {suCnt : Nat} {mxMid : Fin n} (owned : Fin n → List (D × Nat))
    (leads : isCore filterNum suCnt mxMid = true) (ms done' : List (Fin n)) :
    ms.foldlM (selectMachine filterNum suCnt mxMid) (selected (isCore filterNum suCnt) owned mxMid done') =
      some (selected (isCore filterNum suCnt) owned mxMid (done' ++ ms)) := by
  induction ms generalizing done' with
  | nil => rw [List.append_nil]; rfl
  | cons m rest ih =>
    rw [List.foldlM_cons,selectStep owned leads]
    have next := ih (done' ++ [m])
    rw [List.append_assoc] at next
    exact next

/- Where the leader is no core machine its vector is appended to itself. -/
theorem selectNone {filterNum : Fin n → Nat} {suCnt : Nat} {mxMid : Fin n}
    (none' : ∀ m, isCore filterNum suCnt m = false) {ms : List (Fin n)} (member : mxMid ∈ ms) {d : Dispatch n D}
    (some' : d.filterred mxMid ≠ []) : ms.foldlM (selectMachine filterNum suCnt mxMid) d = none := by
  induction ms generalizing d with
  | nil => cases member
  | cons m rest ih =>
    rw [List.foldlM_cons]
    unfold selectMachine
    rw [none' m]
    rcases eq_or_ne m mxMid with rfl | other
    · simp [some']
    · simp only [Bool.false_eq_true,if_false,other,false_and]
      refine ih ((List.mem_cons.mp member).resolve_left (Ne.symm other)) ?_
      simp [some']

end Selection

section Exact

/- Some machine is core, the leader is, and every candidate is given to one of them. -/
structure Covers (cands : List (D × Nat)) (leader : Fin n) (d : Dispatch n D) : Prop where
  some' : d.coreMachine ≠ []
  leads : leader ∈ d.coreMachine
  once : ∀ c ∈ cands, ∃! m, m ∈ d.coreMachine ∧ c ∈ d.filterred m

variable {getMachineId}

theorem ownedMem {cands : List (D × Nat)} {m : Fin n} {c : D × Nat} :
    c ∈ ownedBy getMachineId cands m ↔ c ∈ cands ∧ getMachineId c.2 = m := by
  rw [ownedBy,List.mem_filter,decide_eq_true_eq]

theorem selectedCovers {core : Fin n → Bool} {cands : List (D × Nat)} {mxMid : Fin n} (leads : core mxMid = true) :
    Covers cands mxMid (selected core (ownedBy getMachineId cands) mxMid (List.finRange n)) := by
  have among : ∀ m, m ∈ (selected core (ownedBy getMachineId cands) mxMid (List.finRange n)).coreMachine ↔
      core m = true := fun m => by simp [selected]
  have given : ∀ m c, c ∈ (selected core (ownedBy getMachineId cands) mxMid (List.finRange n)).filterred m ↔
      c ∈ cands ∧ (getMachineId c.2 = m ∨ m = mxMid ∧ core (getMachineId c.2) = false) := by
    intro m c
    rcases eq_or_ne m mxMid with rfl | other
    · simp only [selected,Function.update_self,List.mem_append,List.mem_flatMap,List.mem_filter,List.mem_finRange,
        true_and,ownedMem,Bool.not_eq_true']
      constructor
      · rintro (⟨inside,here⟩ | ⟨m',away,inside,here⟩)
        · exact ⟨inside,.inl here⟩
        · exact ⟨inside,.inr (by rw [here]; exact away)⟩
      · rintro ⟨inside,here | away⟩
        · exact .inl ⟨inside,here⟩
        · exact .inr ⟨_,away,inside,rfl⟩
    · simp only [selected,Function.update_of_ne other,ownedMem,other,false_and,or_false]
  refine ⟨List.ne_nil_of_mem ((among mxMid).mpr leads),(among mxMid).mpr leads,fun c member => ?_⟩
  cases own : core (getMachineId c.2) with
  | true =>
    refine ⟨getMachineId c.2,⟨(among _).mpr own,(given _ c).mpr ⟨member,.inl rfl⟩⟩,?_⟩
    rintro m ⟨_,inside⟩
    rcases ((given m c).mp inside).2 with here | ⟨_,away⟩
    · exact here.symm
    · rw [own] at away
      cases away
  | false =>
    refine ⟨mxMid,⟨(among _).mpr leads,(given _ c).mpr ⟨member,.inr ⟨rfl,own⟩⟩⟩,?_⟩
    rintro m ⟨inCore,inside⟩
    rcases ((given m c).mp inside).2 with here | ⟨here,_⟩
    · rw [here,(among m).mp inCore] at own
      cases own
    · exact here

theorem someOwned (getMachineId : Nat → Fin n) {cands : List (D × Nat)} (some' : cands ≠ []) :
    ∃ m, 0 < (ownedBy getMachineId cands m).length := by
  obtain ⟨c,member⟩ := List.exists_mem_of_ne_nil cands some'
  exact ⟨getMachineId c.2,List.length_pos_of_mem (ownedMem.mpr ⟨member,rfl⟩)⟩

/- The machine with the most is above the average, unless all have the same. -/
theorem leaderAbove {f : Fin n → Nat} {mx : Fin n} (most : ∀ m, f m ≤ f mx) (uneven : ∃ a b, f a ≠ f b) :
    ∑ m, f m < n * f mx := by
  obtain ⟨a,b,differ⟩ := uneven
  have less : ∃ m, f m < f mx := by
    by_contra none'
    have all : ∀ m, f m = f mx := fun m => le_antisymm (most m) (Nat.not_lt.mp (fun less => none' ⟨m,less⟩))
    exact differ ((all a).trans (all b).symm)
  obtain ⟨m,below⟩ := less
  calc ∑ m, f m < ∑ _m : Fin n, f mx := Finset.sum_lt_sum (fun m _ => most m) ⟨m,Finset.mem_univ m,below⟩
    _ = n * f mx := by rw [Finset.sum_const,Finset.card_fin,smul_eq_mul]

theorem evenSum {f : Fin n → Nat} (even : ∀ a b, f a = f b) (m : Fin n) : ∑ p, f p = n * f m := by
  rw [Finset.sum_congr rfl (fun p _ => even p m),Finset.sum_const,Finset.card_fin,smul_eq_mul]

/- What the counting loop finds for a query with candidates. -/
structure Leader (num : Fin n → Nat) (mx : Fin n) : Prop where
  found : (countMachines num).mxMid = some mx
  most : ∀ m, num m ≤ num mx
  pos : 0 < num mx
  sum : (countMachines num).suCnt = ∑ m, num m

theorem leaderFound {num : Fin n → Nat} (some' : ∃ m, 0 < num m) : ∃ mx, Leader num mx := by
  have counts := countMachinesFinds num
  obtain ⟨o,held⟩ := some'
  cases found : (countMachines num).mxMid with
  | none =>
    have most := counts.most o (List.mem_finRange o)
    rw [counts.none' found] at most
    omega
  | some mx =>
    obtain ⟨_,largest,_⟩ := counts.found mx found
    have most : ∀ m, num m ≤ num mx := by
      intro m
      rw [largest]
      exact counts.most m (List.mem_finRange m)
    exact ⟨mx,found,most,Nat.lt_of_lt_of_le held (most o),by rw [counts.sum,Fin.sum_univ_def]⟩

theorem Leader.isCore {num : Fin n → Nat} {mx : Fin n} (leader : Leader num mx) (m : Fin n) :
    isCore num (countMachines num).suCnt m = true ↔ ∑ p, num p < n * num m := by
  have one := Finset.single_le_sum (f := num) (fun _ _ => Nat.zero_le _) (Finset.mem_univ mx)
  have pos := leader.pos
  rw [isCoreIff (by rw [leader.sum]; omega),leader.sum]

theorem filterredEq (cands : List (D × Nat)) :
    (filterCands getMachineId cands).filterred = ownedBy getMachineId cands :=
  funext (fun m => (filterCandsOwned getMachineId cands m).1)

theorem filterNumEq (cands : List (D × Nat)) :
    (filterCands getMachineId cands).filterNum = fun m => (ownedBy getMachineId cands m).length :=
  funext (fun m => (filterCandsOwned getMachineId cands m).2)

theorem dispatchFrom {cands : List (D × Nat)} {mx : Fin n}
    (leader : Leader (fun m => (ownedBy getMachineId cands m).length) mx) :
    dispatch getMachineId cands = ((List.finRange n).foldlM
      (selectMachine (fun m => (ownedBy getMachineId cands m).length)
        (countMachines (fun m => (ownedBy getMachineId cands m).length)).suCnt mx)
      ⟨[],ownedBy getMachineId cands⟩).bind (fun d => some (mx,d)) := by
  simp only [dispatch,filterredEq,filterNumEq,leader.found]
  rfl

theorem dispatchUneven {cands : List (D × Nat)} {mx : Fin n}
    (leader : Leader (fun m => (ownedBy getMachineId cands m).length) mx)
    (uneven : ∃ a b, (ownedBy getMachineId cands a).length ≠ (ownedBy getMachineId cands b).length) :
    ∃ core, core mx = true ∧
      dispatch getMachineId cands = some (mx,selected core (ownedBy getMachineId cands) mx (List.finRange n)) := by
  have leads := (leader.isCore mx).mpr (leaderAbove leader.most uneven)
  refine ⟨_,leads,?_⟩
  have first : ∀ core, (⟨[],ownedBy getMachineId cands⟩ : Dispatch n D) =
      selected core (ownedBy getMachineId cands) mx [] := fun core => by simp [selected]
  rw [dispatchFrom leader,first,selectAll (ownedBy getMachineId cands) leads (List.finRange n) []]
  rfl

theorem dispatchEven {cands : List (D × Nat)} {mx : Fin n}
    (leader : Leader (fun m => (ownedBy getMachineId cands m).length) mx)
    (even : ∀ a b, (ownedBy getMachineId cands a).length = (ownedBy getMachineId cands b).length) :
    dispatch getMachineId cands = none := by
  have none' : ∀ m, isCore (fun m => (ownedBy getMachineId cands m).length)
      (countMachines (fun m => (ownedBy getMachineId cands m).length)).suCnt m = false := by
    intro m
    refine Bool.not_eq_true _ ▸ (fun core => ?_)
    have above := (leader.isCore m).mp core
    rw [evenSum even m] at above
    exact lt_irrefl _ above
  rw [dispatchFrom leader,selectNone none' (List.mem_finRange mx) (List.ne_nil_of_length_pos leader.pos)]
  rfl

/- The dispatch covers the candidates exactly when the machines do not all have the
same number of them; otherwise, as on a single machine, none is above the average. -/
theorem coversExact (getMachineId : Nat → Fin n) {cands : List (D × Nat)} (some' : cands ≠ []) :
    (∃ leader d, dispatch getMachineId cands = some (leader,d) ∧ Covers cands leader d) ↔
      ∃ a b, (ownedBy getMachineId cands a).length ≠ (ownedBy getMachineId cands b).length := by
  obtain ⟨mx,leader⟩ := leaderFound (someOwned getMachineId some')
  constructor
  · rintro ⟨leads,d,done',covers⟩
    by_contra even
    have all : ∀ a b, (ownedBy getMachineId cands a).length = (ownedBy getMachineId cands b).length := by
      intro a b
      by_contra differ
      exact even ⟨a,b,differ⟩
    rw [dispatchEven leader all] at done'
    cases done'
  · intro uneven
    obtain ⟨core,leads,done'⟩ := dispatchUneven leader uneven
    exact ⟨mx,_,done',selectedCovers leads⟩

/- Three candidates on two machines, and one on each. -/
def parity (v : Nat) : Fin 2 := if v % 2 = 0 then 0 else 1

theorem coversThree : ∃ leader d, dispatch parity [(1,0),(2,2),(3,1)] = some (leader,d) ∧
    Covers [(1,0),(2,2),(3,1)] leader d :=
  (coversExact parity (by decide)).mpr ⟨0,1,by decide⟩

theorem oneEachLost : (List.finRange 2).filter (isCore (filterCands parity [(1,0),(2,1)]).filterNum 2) = [] ∧
    ¬∃ leader d, dispatch parity [(1,0),(2,1)] = some (leader,d) ∧ Covers [(1,0),(2,1)] leader d := by
  have none' : (dispatch parity [(1,0),(2,1)]).isNone = true := by decide +kernel
  refine ⟨by decide +kernel,?_⟩
  rintro ⟨leader,d,done',_⟩
  rw [done'] at none'
  cases none'

/- What the machines are given is what the search starts from. -/
theorem dispatchFilterred [Distance D] {x : Index n D} {cfg : Config n D} {d : Dispatch n D}
    (done' : dispatch x.getMachineId (preStage cfg).preTopCand.elems = some (cfg.leaderMachine,d))
    (core : d.coreMachine = cfg.coreMachine) (p : Fin n) : d.filterred p = SubQuery.filterred x cfg p := by
  have some' : (preStage cfg).preTopCand.elems ≠ [] := by
    intro none'
    rw [none'] at done'
    obtain ⟨c,found,_⟩ := Option.bind_eq_some_iff.mp done'
    obtain ⟨_,same,pos⟩ := (countMachinesFinds _).found c found
    rw [← same] at pos
    exact absurd pos (lt_irrefl 0)
  obtain ⟨mx,leader⟩ := leaderFound (someOwned x.getMachineId some')
  have uneven : ∃ a b, (ownedBy x.getMachineId (preStage cfg).preTopCand.elems a).length ≠
      (ownedBy x.getMachineId (preStage cfg).preTopCand.elems b).length := by
    by_contra even
    rw [dispatchEven leader (fun a b => not_not.mp (fun differ => even ⟨a,b,differ⟩))] at done'
    cases done'
  obtain ⟨isCore,_,shape⟩ := dispatchUneven leader uneven
  rw [shape] at done'
  cases Option.some.inj done'
  have outside : (List.finRange n).filter (fun m => !isCore m) = (List.finRange n).filter (· ∉ cfg.coreMachine) := by
    refine List.filter_congr (fun m _ => ?_)
    rw [← core]
    simp [selected]
  rcases eq_or_ne p cfg.leaderMachine with rfl | other
  · simp only [selected,Function.update_self,outside,SubQuery.filterred,if_true]
    rfl
  · simp only [selected,Function.update_of_ne other,SubQuery.filterred,if_neg other]
    rfl

end Exact

end CoTra.CoreSelection
