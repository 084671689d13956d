import CoTra.ShardPartition

/-! The first centre of a point when the balance term is the same for all centres
(math_utils.cc: the block functions for the closest centres, with and without balance, and
with replicas; math_utils.h: ComputeLambda). The weight is a factor for float data and a
summand otherwise; a factor of zero makes the first centre the closest of all. -/
namespace CoTra.NearestCenter
open ShardPartition

variable {m : Nat}

def balanceWeight (lambda : ℚ) (count : Nat) (d : ℚ) : ℚ := d * (lambda * count / (lambda * count + 1))

def norpWeight (floatData : Bool) (lambda : ℚ) (count : Nat) (d : ℚ) : ℚ :=
  if floatData then balanceWeight lambda count d else d + lambda * count

/- One point of compute_closest_centers_in_block with k = 1. -/
def closestCenter (d : Fin m → ℚ) : Option (Fin m) := closest d

/- One point of compute_balance_closest_centers_in_block with k = 1. -/
def balanceClosestCenter (lambda : ℚ) (counts : Fin m → Nat) (d : Fin m → ℚ) : Option (Fin m) :=
  closest (fun j => balanceWeight lambda (counts j) (d j))

/- The first centre of a point in compute_balance_norp_rp_closest_centers_in_block. -/
def norpClosestCenter (floatData : Bool) (lambda : ℚ) (counts : Fin m → Nat) (d : Fin m → ℚ) : Option (Fin m) :=
  closest (fun j => norpWeight floatData lambda (counts j) (d j))

/- A centre is chosen, and it is as near as the one that is chosen without balance. -/
def Nearest (choice : Option (Fin m)) (d : Fin m → ℚ) : Prop :=
  ∀ b, closestCenter d = some b → ∃ a, choice = some a ∧ d a = d b

/- The balance term is the same for all centres. -/
def Equal (lambda : ℚ) (counts : Fin m → Nat) : Prop := lambda = 0 ∨ ∀ i j, counts i = counts j

-- No distance is below FLT_MAX, so that no centre is chosen at all.
def NoneBelow (d : Fin m → ℚ) : Prop := ∀ j, maxFloat ≤ d j

def FirstNearest (d : Fin m → ℚ) : Prop := ∀ i j : Fin m, i.val = 0 → d i ≤ d j

def Weighs (lambda : ℚ) (counts : Fin m → Nat) : Prop := lambda ≠ 0 ∧ ∀ j, counts j ≠ 0

/- When a factor chooses a nearest centre, and when a summand does. -/
def FactorKeeps (lambda : ℚ) (counts : Fin m → Nat) (d : Fin m → ℚ) : Prop :=
  Weighs lambda counts ∨ FirstNearest d ∨ NoneBelow d

def SummandKeeps (lambda : ℚ) (counts : Fin m → Nat) (d : Fin m → ℚ) : Prop :=
  (∃ j, d j + lambda * counts j < maxFloat) ∨ NoneBelow d

section Argmin

variable {weight : Fin m → ℚ}

/- The loop keeps the first of the least weights that are below what it starts from. -/
theorem foldLeast (weight : Fin m → ℚ) {js : List (Fin m)} (order : js.Pairwise (· < ·)) (best : ℚ × Option (Fin m)) :
    (js.foldl (fun best j => if weight j < best.1 then (weight j,some j) else best) best = best ∧
        ∀ j ∈ js, best.1 ≤ weight j) ∨
      ∃ k ∈ js, js.foldl (fun best j => if weight j < best.1 then (weight j,some j) else best) best = (weight k,some k) ∧
        weight k < best.1 ∧ (∀ i ∈ js, weight k ≤ weight i) ∧ ∀ i ∈ js, i < k → weight k < weight i := by
  induction js generalizing best with
  | nil => exact .inl ⟨rfl,fun j no => absurd no List.not_mem_nil⟩
  | cons j rest ih =>
    obtain ⟨first,order⟩ := List.pairwise_cons.mp order
    rw [List.foldl_cons]
    by_cases less : weight j < best.1
    · rw [if_pos less]
      refine .inr ?_
      rcases ih order (weight j,some j) with ⟨same,least⟩ | ⟨k,later,same,below,least,strict⟩
      · refine ⟨j,List.mem_cons_self,same,less,fun i member => ?_,fun i member before => ?_⟩
        · rcases List.mem_cons.mp member with rfl | inside
          · exact le_rfl
          · exact least i inside
        · rcases List.mem_cons.mp member with rfl | inside
          · exact absurd before (lt_irrefl _)
          · exact absurd before (first i inside).not_gt
      · refine ⟨k,List.mem_cons_of_mem j later,same,below.trans less,fun i member => ?_,fun i member before => ?_⟩
        · rcases List.mem_cons.mp member with rfl | inside
          · exact below.le
          · exact least i inside
        · rcases List.mem_cons.mp member with rfl | inside
          · exact below
          · exact strict i inside before
    · rw [if_neg less]
      have above := not_lt.mp less
      rcases ih order best with ⟨same,least⟩ | ⟨k,later,same,below,least,strict⟩
      · refine .inl ⟨same,fun i member => ?_⟩
        rcases List.mem_cons.mp member with rfl | inside
        · exact above
        · exact least i inside
      · refine .inr ⟨k,List.mem_cons_of_mem j later,same,below,fun i member => ?_,fun i member before => ?_⟩
        · rcases List.mem_cons.mp member with rfl | inside
          · exact (below.trans_le above).le
          · exact least i inside
        · rcases List.mem_cons.mp member with rfl | inside
          · exact below.trans_le above
          · exact strict i inside before

theorem closestCases (weight : Fin m → ℚ) : (closest weight = none ∧ ∀ j, maxFloat ≤ weight j) ∨
    ∃ a, closest weight = some a ∧ weight a < maxFloat ∧ (∀ i, weight a ≤ weight i) ∧ ∀ i < a, weight a < weight i := by
  have order : (List.finRange m).Pairwise (· < ·) := List.pairwise_lt_finRange m
  rcases foldLeast weight order (maxFloat,none) with ⟨same,least⟩ | ⟨a,_,same,below,least,strict⟩
  · exact .inl ⟨congrArg Prod.snd same,fun j => least j (List.mem_finRange j)⟩
  · exact .inr ⟨a,congrArg Prod.snd same,below,fun i => least i (List.mem_finRange i),
      fun i before => strict i (List.mem_finRange i) before⟩

theorem closestLeast {a : Fin m} (chosen : closest weight = some a) :
    weight a < maxFloat ∧ (∀ i, weight a ≤ weight i) ∧ ∀ i < a, weight a < weight i := by
  rcases closestCases weight with ⟨none',_⟩ | ⟨b,chosen',facts⟩
  · rw [none'] at chosen
    cases chosen
  · cases Option.some.inj (chosen'.symm.trans chosen)
    exact facts

theorem closestBelow {j : Fin m} (below : weight j < maxFloat) : ∃ a, closest weight = some a := by
  rcases closestCases weight with ⟨_,above⟩ | ⟨a,chosen,_⟩
  · exact absurd below (above j).not_gt
  · exact ⟨a,chosen⟩

end Argmin

section Choice

variable {weight d : Fin m → ℚ} {lambda : ℚ} {counts : Fin m → Nat}

theorem noneChosen (none' : NoneBelow d) (choice : Option (Fin m)) : Nearest choice d := by
  intro b chosen
  exact absurd (closestLeast chosen).1 (none' b).not_gt

/- A weight that orders the centres as their distances do chooses a nearest one. -/
theorem orderedNearest (order : ∀ i j, weight i ≤ weight j → d i ≤ d j) :
    Nearest (closest weight) d ↔ (∃ j, weight j < maxFloat) ∨ NoneBelow d := by
  constructor
  · intro nearest
    rcases closestCases d with ⟨_,none'⟩ | ⟨b,chosen,_⟩
    · exact .inr none'
    · obtain ⟨a,first,_⟩ := nearest b chosen
      exact .inl ⟨a,(closestLeast first).1⟩
  · rintro (⟨j,below⟩ | none')
    · intro b chosen
      obtain ⟨a,first⟩ := closestBelow below
      exact ⟨a,first,le_antisymm (order a b ((closestLeast first).2.1 b)) ((closestLeast chosen).2.1 a)⟩
    · exact noneChosen none' _

/- Weights that are all zero choose the first centre. -/
theorem zeroNearest (zero : ∀ j, weight j = 0) : Nearest (closest weight) d ↔ FirstNearest d ∨ NoneBelow d := by
  constructor
  · intro nearest
    rcases closestCases d with ⟨_,none'⟩ | ⟨b,chosen,_,least,_⟩
    · exact .inr none'
    · refine .inl (fun i j first => ?_)
      obtain ⟨a,chosen',same⟩ := nearest b chosen
      have front : a = i := by
        by_contra apart
        have before : i < a := by
          rw [Fin.lt_def]
          have differ := Fin.val_ne_of_ne apart
          omega
        have strict := (closestLeast chosen').2.2 i before
        rw [zero,zero] at strict
        exact lt_irrefl 0 strict
      rw [← front,same]
      exact least j
  · rintro (first | none')
    · intro b chosen
      have positive : 0 < maxFloat := by norm_num [maxFloat]
      have below : weight b < maxFloat := by rw [zero]; exact positive
      obtain ⟨a,chosen'⟩ := closestBelow below
      have front : a.val = 0 := by
        by_contra later
        have before : (⟨0,by omega⟩ : Fin m) < a := by
          rw [Fin.lt_def]
          exact Nat.pos_of_ne_zero later
        have strict := (closestLeast chosen').2.2 _ before
        rw [zero,zero] at strict
        exact lt_irrefl 0 strict
      exact ⟨a,chosen',le_antisymm (first a b front) ((closestLeast chosen).2.1 a)⟩
    · exact noneChosen none' _

theorem factorNearest (nonneg : 0 ≤ lambda) (equal : Equal lambda counts) (dist : ∀ j, 0 ≤ d j) :
    Nearest (balanceClosestCenter lambda counts d) d ↔ FactorKeeps lambda counts d := by
  by_cases weighs : Weighs lambda counts
  · obtain ⟨lambda',counts'⟩ := weighs
    refine iff_of_true ?_ (.inl ⟨lambda',counts'⟩)
    have same := equal.resolve_left lambda'
    have product : ∀ j, 0 < lambda * counts j := fun j =>
      mul_pos (lt_of_le_of_ne nonneg lambda'.symm) (Nat.cast_pos.mpr (Nat.pos_of_ne_zero (counts' j)))
    refine (orderedNearest (fun i j le => ?_)).mpr ?_
    · rw [balanceWeight,balanceWeight,same i j] at le
      exact le_of_mul_le_mul_right le (div_pos (product j) (add_pos (product j) one_pos))
    · rcases closestCases d with ⟨_,none'⟩ | ⟨b,_,below,_⟩
      · exact .inr none'
      · refine .inl ⟨b,lt_of_le_of_lt (mul_le_of_le_one_right (dist b) ?_) below⟩
        exact (div_le_one (add_pos (product b) one_pos)).mpr (le_add_of_nonneg_right zero_le_one)
  · have zero : ∀ j, balanceWeight lambda (counts j) (d j) = 0 := by
      intro j
      have product : lambda * counts j = 0 := by
        rcases equal with none' | same
        · rw [none',zero_mul]
        · by_contra some'
          obtain ⟨lambda',count⟩ := mul_ne_zero_iff.mp some'
          exact weighs ⟨lambda',fun i => by rw [same i j]; exact Nat.cast_ne_zero.mp count⟩
      rw [balanceWeight,product,zero_div,mul_zero]
    exact (zeroNearest zero).trans (or_iff_right weighs).symm

theorem summandNearest (equal : Equal lambda counts) :
    Nearest (norpClosestCenter false lambda counts d) d ↔ SummandKeeps lambda counts d := by
  refine orderedNearest (fun i j le => ?_)
  have le : d i + lambda * counts i ≤ d j + lambda * counts j := le
  rcases equal with none' | same
  · rwa [none',zero_mul,zero_mul,add_zero,add_zero] at le
  · rw [same i j] at le
    exact le_of_add_le_add_right le

/- With the same balance term for all centres the first centre is a nearest one exactly
under these conditions. -/
theorem nearestIff (nonneg : 0 ≤ lambda) (equal : Equal lambda counts) (dist : ∀ j, 0 ≤ d j) :
    (Nearest (balanceClosestCenter lambda counts d) d ↔ FactorKeeps lambda counts d) ∧
      (Nearest (norpClosestCenter true lambda counts d) d ↔ FactorKeeps lambda counts d) ∧
      (Nearest (norpClosestCenter false lambda counts d) d ↔ SummandKeeps lambda counts d) :=
  ⟨factorNearest nonneg equal dist,factorNearest nonneg equal dist,summandNearest equal⟩

def fiveThree : Fin 2 → ℚ := fun j => if j = 0 then 5 else 3

theorem nearestFiveThree : 0 ≤ (1 / 2 : ℚ) ∧ Equal (1 / 2) (fun _ : Fin 2 => 7) ∧ (∀ j, 0 ≤ fiveThree j) ∧
    (Nearest (norpClosestCenter true (1 / 2) (fun _ => 7) fiveThree) fiveThree ↔
      FactorKeeps (1 / 2) (fun _ => 7) fiveThree) := by
  have nonneg : 0 ≤ (1 / 2 : ℚ) := by norm_num
  have equal : Equal (1 / 2) (fun _ : Fin 2 => 7) := .inr (fun _ _ => rfl)
  have dist : ∀ j, 0 ≤ fiveThree j := by decide
  exact ⟨nonneg,equal,dist,(nearestIff nonneg equal dist).2.1⟩

end Choice

section FirstBlock

/- Before the first block no centre has a point. -/
theorem lambdaZero (sqrt : ℚ → ℚ) {clusters : List ClusterInfo} (none' : ∀ c ∈ clusters, c.count = 0) :
    computeLambda sqrt clusters = 0 := by
  have zero : total clusters = 0 := by
    refine List.sum_eq_zero (fun q member => ?_)
    obtain ⟨c,inside,rfl⟩ := List.mem_map.mp member
    rw [none' c inside,Nat.cast_zero]
  unfold computeLambda
  simp only [zero,if_true,zero_mul]
  decide +kernel

/- Centre 0 is chosen, at distance 5. -/
theorem firstBlockFar :
    ¬Nearest (norpClosestCenter true (computeLambda id [noInfo,noInfo]) (fun _ => 0) fiveThree) fiveThree := by
  intro nearest
  have none' : ∀ c ∈ [noInfo,noInfo], c.count = 0 := by decide
  rw [lambdaZero id none'] at nearest
  obtain ⟨a,chosen,same⟩ := nearest 1 (by decide +kernel)
  have front : norpClosestCenter true 0 (fun _ => 0) fiveThree = some 0 := by decide +kernel
  cases Option.some.inj (front.symm.trans chosen)
  exact absurd same (by decide)

variable {cfg : Config m} {s t : State m}

theorem blockLambda {centerIndex : Nat → List (Fin m)} {acts : List (Act m)}
    (ok : Runs.run (step cfg) (start cfg centerIndex) acts = some s) : s.block = 0 → s.norpLambda = 0 := by
  refine @Runs.runInvariant _ _ (step cfg) (fun s => s.block = 0 → s.norpLambda = 0) (fun s act t done before => ?_) _ _ _
    ok (fun _ => lambdaZero _ (fun c member => ?_))
  · cases act with
    | point c norpSeen rpSeen ranked =>
      simp only [step,procPoint] at done
      split at done <;> try contradiction
      obtain ⟨centers,_,rfl⟩ := Option.map_eq_some_iff.mp done
      exact before
    | commit c =>
      simp only [step,commit] at done
      split at done <;> try contradiction
      cases Option.some.inj done
      exact before
    | endBlock =>
      simp only [step,endBlock] at done
      split at done <;> try contradiction
      cases Option.some.inj done
      exact fun no => absurd no (Nat.succ_ne_zero _)
  · obtain ⟨j,rfl⟩ := (List.mem_ofFn' _ _).mp member
    rfl

/- In the first block every point of float data goes to centre 0, wherever it lies. -/
theorem firstBlock {centerIndex : Nat → List (Fin m)} {acts : List (Act m)} {c : Nat} {norpSeen rpSeen : Fin m → Nat}
    {ranked : List (Fin m)} (ok : Runs.run (step cfg) (start cfg centerIndex) acts = some s) (block : s.block = 0)
    (float : cfg.floatData = true) (done : procPoint cfg s c norpSeen rpSeen ranked = some t) :
    ∃ first : Fin m, first.val = 0 ∧ (t.centerIndex (s.chunk c).next).head? = some first := by
  unfold procPoint at done
  simp only at done
  split at done <;> try contradiction
  obtain ⟨centers,chosen,rfl⟩ := Option.map_eq_some_iff.mp done
  obtain ⟨first,closest',rest⟩ := Option.bind_eq_some_iff.mp chosen
  split at rest <;> try contradiction
  cases Option.some.inj rest
  refine ⟨first,?_,by simp only [Function.update_self,List.head?_cons]⟩
  by_contra later
  have strict := (closestLeast closest').2.2 ⟨0,by omega⟩ (Fin.lt_def.mpr (Nat.pos_of_ne_zero later))
  simp only [weightedDist,float,if_true,blockLambda ok block,zero_mul,zero_div,mul_zero,lt_irrefl] at strict

end FirstBlock

end CoTra.NearestCenter
