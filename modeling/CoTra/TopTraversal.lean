import CoTra.SubQuery

/-! The search on the top index that comes before the sub-queries (scala_search.h:
coro_sub_query_v5, dispatch_kmeans_query_start; top_index.h). A block is its degree, its
neighbours and unused words. The loop runs over ngh_arr[0] words from the first one on,
so it takes the degree for a vertex and leaves out the last neighbour. -/
namespace CoTra.TopTraversal
open Priority SubQuery

variable {D : Type} [Distance D]

/- A block as the builder writes it, in words of 32 bits. -/
structure Block where
  ngh : List Nat
  unused : List Nat

def Block.words (b : Block) : List Nat := b.ngh.length :: b.ngh ++ b.unused

/- A loaded top index, and the distance of its vectors to the query. -/
structure TopIndex (D : Type) where
  blocks : Nat → Block
  getGlobalId : Nat → Nat
  dist : Nat → D

def TopIndex.getNghArr (t : TopIndex D) (vid : Nat) : List Nat := (t.blocks vid).words

/- for (d = 0; d < ngh_arr[0]; d++): the ids are ngh_arr[d]. -/
def considered (nghArr : List Nat) : List Nat := (List.range (nghArr.getD 0 0)).map (fun d => nghArr.getD d 0)

/- The state of the loop. `evaluated` and `expanded` record what it did; it does not read them. -/
structure Walk (D : Type) [Distance D] where
  lowerBound : D
  preTopCand : PQueue D Nat
  preCandSet : PQueue Dᵒᵈ Nat
  visitHash : List Nat
  evaluated : List (D × Nat)
  expanded : List (Nat × List Nat)

variable (t : TopIndex D) (ef : Nat)

def procCandidate (s : Walk D) (cand : D × Nat) : Walk D :=
  if size s.preTopCand < ef ∨ cand.1 < s.lowerBound then
    let preTopCand := popTo ef (push s.preTopCand cand)
    { s with
      preCandSet := push s.preCandSet (OrderDual.toDual cand.1,cand.2)
      preTopCand := preTopCand
      lowerBound := topBound preTopCand s.lowerBound }
  else s

def consider (s : Walk D) (v : Nat) : Walk D :=
  let gtId := t.getGlobalId v
  if gtId ∈ s.visitHash then s
  else procCandidate ef { s with visitHash := gtId :: s.visitHash, evaluated := s.evaluated ++ [(t.dist v,v)] } (t.dist v,v)

def expand (s : Walk D) (v : Nat) : Walk D :=
  let ids := considered (t.getNghArr v)
  { ids.foldl (consider t ef) s with expanded := s.expanded ++ [(v,ids)] }

/- The while loop; fuel counts the candidates that are popped. -/
def walk : Nat → Walk D → Walk D
  | 0, s => s
  | k+1, s =>
    match top s.preCandSet with
    | none => s
    | some (d,v) =>
      if s.lowerBound < OrderDual.ofDual d then s
      else walk k (expand t ef { s with preCandSet := pop s.preCandSet } v)

def enter (enterpoint : Nat) : Walk D where
  lowerBound := t.dist enterpoint
  preTopCand := push empty (t.dist enterpoint,enterpoint)
  preCandSet := push empty (OrderDual.toDual (t.dist enterpoint),enterpoint)
  visitHash := [t.getGlobalId enterpoint]
  evaluated := []
  expanded := []

-- Both traversals start at vertex 0.
def traversal (fuel : Nat) : Walk D := walk t ef fuel (enter t 0)

section Words

theorem wordsDegree (b : Block) : b.words.getD 0 0 = b.ngh.length := rfl

/- The words the loop takes: the degree, and all neighbours but the last. -/
theorem consideredWords (b : Block) : considered b.words = (b.ngh.length :: b.ngh).take b.ngh.length := by
  have inside : b.ngh.length ≤ b.words.length := by
    simp only [Block.words,List.cons_append,List.length_cons,List.length_append]
    omega
  have range : considered b.words = b.words.take b.ngh.length := by
    refine List.ext_getElem ?_ (fun i low high => ?_)
    · simp only [considered,wordsDegree,List.length_map,List.length_range,List.length_take]
      omega
    · simp only [considered,wordsDegree,List.length_map,List.length_range] at low
      simp only [considered,List.getElem_map,List.getElem_range,List.getElem_take]
      rw [List.getD_eq_getElem?_getD,List.getElem?_eq_getElem (by omega)]
      rfl
  rw [range,Block.words,List.take_append_of_le_length (by rw [List.length_cons]; omega)]

/- When the shift does no harm: no neighbours, or the degree is a neighbour, and the last
neighbour is the degree or stands before as well. -/
def Harmless (b : Block) : Prop :=
  b.ngh = [] ∨ b.ngh.length ∈ b.ngh ∧ ∃ last ∈ b.ngh.getLast?, last = b.ngh.length ∨ last ∈ b.ngh.dropLast

/- An expansion considers the stored neighbours and nothing else. -/
def Exact (b : Block) (ids : List Nat) : Prop := ∀ v, v ∈ ids ↔ v ∈ b.ngh

theorem shiftHarmless (init : List Nat) (last deg : Nat) :
    (∀ v, v ∈ deg :: init ↔ v ∈ init ++ [last]) ↔ deg ∈ init ++ [last] ∧ (last = deg ∨ last ∈ init) := by
  constructor
  · intro exact'
    have final := (exact' last).mpr (List.mem_append_right _ (List.mem_singleton_self _))
    exact ⟨(exact' deg).mp List.mem_cons_self,List.mem_cons.mp final⟩
  · rintro ⟨degree,place⟩ v
    constructor
    · intro taken
      rcases List.mem_cons.mp taken with rfl | inside
      · exact degree
      · exact List.mem_append_left _ inside
    · intro stored
      rcases List.mem_append.mp stored with inside | final
      · exact List.mem_cons_of_mem _ inside
      · rw [List.mem_singleton.mp final]
        exact List.mem_cons.mpr place

theorem exactHarmless (b : Block) : Exact b (considered b.words) ↔ Harmless b := by
  rw [consideredWords]
  rcases b.ngh.eq_nil_or_concat with none' | ⟨init,last,shape⟩
  · simp [Exact,Harmless,none']
  · rw [List.concat_eq_append] at shape
    have taken : (b.ngh.length :: b.ngh).take b.ngh.length = b.ngh.length :: init := by
      rw [shape,List.length_append,List.length_singleton,List.take_succ_cons,List.take_left]
    have some' : b.ngh ≠ [] := by
      rw [shape]
      exact List.append_ne_nil_of_right_ne_nil _ (List.cons_ne_nil _ _)
    have final : b.ngh.getLast? = some last := by rw [shape,List.getLast?_concat]
    have before : b.ngh.dropLast = init := by rw [shape,List.dropLast_concat]
    have shifted := shiftHarmless init last b.ngh.length
    rw [← shape] at shifted
    rw [taken,Exact,shifted,Harmless,final,before]
    constructor
    · exact fun ⟨degree,place⟩ => .inr ⟨degree,last,rfl,place⟩
    · rintro (none' | ⟨degree,last',same,place⟩)
      · exact absurd none' some'
      · cases Option.some.inj same
        exact ⟨degree,place⟩

end Words

section Runs

variable {t ef}

/- What the loop takes for the neighbours of a vertex are the shifted words of its block. -/
theorem walkExpanded (fuel : Nat) {s : Walk D} (before : ∀ e ∈ s.expanded, e.2 = considered (t.getNghArr e.1)) :
    ∀ e ∈ (walk t ef fuel s).expanded, e.2 = considered (t.getNghArr e.1) := by
  induction fuel generalizing s with
  | zero => exact before
  | succ k ih =>
    unfold walk
    split
    · exact before
    · split
      · exact before
      · refine ih (fun e member => ?_)
        rcases List.mem_append.mp member with old | new
        · exact before e old
        · rw [List.mem_singleton.mp new]

/- Every expansion of both traversals, on every top index and for every query. -/
theorem expansionExact (t : TopIndex D) (ef fuel : Nat) :
    ∀ e ∈ (traversal t ef fuel).expanded, Exact (t.blocks e.1) e.2 ↔ Harmless (t.blocks e.1) := by
  intro e member
  rw [walkExpanded fuel (fun e none' => absurd none' List.not_mem_nil) e member]
  exact exactHarmless (t.blocks e.1)

/- Vertex 0 has the neighbours 1 and 3, and the loop considers 2 and 1. Vertex 1 has the
neighbours 0 and 2. -/
def shiftedTop : TopIndex Nat where
  blocks v := if v = 0 then ⟨[1,3],[]⟩ else if v = 1 then ⟨[0,2],[]⟩ else ⟨[],[0,0]⟩
  getGlobalId v := v
  dist v := v

theorem expansionExactInner : (traversal shiftedTop 4 2).expanded = [(0,[2,1]),(1,[2,0])] ∧
    Exact (shiftedTop.blocks 1) [2,0] := by
  have both : (traversal shiftedTop 4 2).expanded = [(0,[2,1]),(1,[2,0])] := by decide +kernel
  have harmless : Harmless (shiftedTop.blocks 1) := .inr ⟨by decide,2,by decide,.inl (by decide)⟩
  refine ⟨both,(expansionExact shiftedTop 4 2 (1,[2,0]) ?_).mpr harmless⟩
  rw [both]
  exact List.mem_cons_of_mem _ List.mem_cons_self

theorem shiftedExpansion : (traversal shiftedTop 4 1).expanded = [(0,[2,1])] ∧ ¬Exact (shiftedTop.blocks 0) [2,1] := by
  refine ⟨by decide +kernel,fun exact' => ?_⟩
  have missed := (exact' 3).mpr (by decide)
  exact absurd missed (by decide)

end Runs

section PreStage

variable {n : Nat} (f : Nat → Nat)

/- The pre-stage of the sub-query model sees global ids. -/
structure Mirrors (s : Walk D) (p : PreStage D) : Prop where
  bound : p.lowerBound = s.lowerBound
  cands : p.preTopCand = rename f s.preTopCand

theorem mirrorsProc (ef : Nat) {s : Walk D} {p : PreStage D} (mirrors : Mirrors f s p) (c : D × Nat) :
    Mirrors f (procCandidate ef s c) (topProcCandidate ef p (renamed f c)) := by
  have same : size p.preTopCand = size s.preTopCand := by rw [mirrors.cands,renameSize]
  have test : (size p.preTopCand < ef ∨ (renamed f c).1 < p.lowerBound) ↔ (size s.preTopCand < ef ∨ c.1 < s.lowerBound) := by
    rw [same,mirrors.bound]
    rfl
  unfold procCandidate topProcCandidate
  by_cases taken : size s.preTopCand < ef ∨ c.1 < s.lowerBound
  · rw [if_pos taken,if_pos (test.mpr taken)]
    have cands : popTo ef (push p.preTopCand (renamed f c)) = rename f (popTo ef (push s.preTopCand c)) := by
      rw [mirrors.cands,← renamePush,renamePopTo]
    refine ⟨?_,cands⟩
    simp only [topBound,cands,topHead,renameElems,List.head?_map,mirrors.bound]
    cases (popTo ef (push s.preTopCand c)).elems.head? <;> rfl
  · rw [if_neg taken,if_neg (fun yes => taken (test.mp yes))]
    exact mirrors

variable (t : TopIndex D) (ef : Nat)

/- What was evaluated, in order, explains the state of the loop. -/
structure Traversed (first : PreStage D) (s : Walk D) : Prop where
  mirrors : Mirrors t.getGlobalId s ((s.evaluated.map (renamed t.getGlobalId)).foldl (topProcCandidate ef) first)
  hash : s.visitHash = (s.evaluated.map (fun c => t.getGlobalId c.2)).reverse ++ [t.getGlobalId 0]
  once : s.visitHash.Nodup

theorem procRecords (s : Walk D) (c : D × Nat) :
    (procCandidate ef s c).evaluated = s.evaluated ∧ (procCandidate ef s c).visitHash = s.visitHash := by
  unfold procCandidate
  split <;> exact ⟨rfl,rfl⟩

theorem considerTraversed {first : PreStage D} {s : Walk D} (ok : Traversed t ef first s) (v : Nat) :
    Traversed t ef first (consider t ef s v) := by
  unfold consider
  simp only
  split
  · exact ok
  · rename_i fresh
    have records := procRecords ef { s with
      visitHash := t.getGlobalId v :: s.visitHash, evaluated := s.evaluated ++ [(t.dist v,v)] } (t.dist v,v)
    refine ⟨?_,?_,?_⟩
    · rw [records.1,List.map_append,List.foldl_append]
      have kept : Mirrors t.getGlobalId { s with
          visitHash := t.getGlobalId v :: s.visitHash, evaluated := s.evaluated ++ [(t.dist v,v)] }
          ((s.evaluated.map (renamed t.getGlobalId)).foldl (topProcCandidate ef) first) :=
        ⟨ok.mirrors.bound,ok.mirrors.cands⟩
      exact mirrorsProc t.getGlobalId ef kept (t.dist v,v)
    · rw [records.1,records.2]
      simp only [List.map_append,List.map_cons,List.map_nil,List.reverse_append,List.reverse_cons,List.reverse_nil,
        List.nil_append,List.cons_append]
      rw [ok.hash]
    · rw [records.2]
      exact List.nodup_cons.mpr ⟨fresh,ok.once⟩

theorem walkTraversed {first : PreStage D} (fuel : Nat) {s : Walk D} (ok : Traversed t ef first s) :
    Traversed t ef first (walk t ef fuel s) := by
  have considers : ∀ (vs : List Nat) (s : Walk D), Traversed t ef first s →
      Traversed t ef first (vs.foldl (consider t ef) s) := by
    intro vs
    induction vs with
    | nil => exact fun s before => before
    | cons v rest ih => exact fun s before => ih _ (considerTraversed t ef before v)
  induction fuel generalizing s with
  | zero => exact ok
  | succ k ih =>
    unfold walk
    split
    · exact ok
    · split
      · exact ok
      · rename_i d v first' near
        have after := considers (considered (t.getNghArr v)) { s with preCandSet := pop s.preCandSet }
          ⟨⟨ok.mirrors.bound,ok.mirrors.cands⟩,ok.hash,ok.once⟩
        exact ih ⟨⟨after.mirrors.bound,after.mirrors.cands⟩,after.hash,after.once⟩

theorem traversed (fuel : Nat) :
    Traversed t ef ⟨t.dist 0,push empty (t.dist 0,t.getGlobalId 0)⟩ (traversal t ef fuel) := by
  have entered : push empty (t.dist 0,t.getGlobalId 0) = rename t.getGlobalId (enter t 0).preTopCand := by
    rw [enter,renamePush,renameEmpty]
    rfl
  exact walkTraversed t ef fuel ⟨⟨rfl,entered⟩,rfl,List.nodup_singleton _⟩

theorem evaluatedOnce (fuel : Nat) : (((t.dist 0,t.getGlobalId 0) :: (traversal t ef fuel).evaluated.map
    (renamed t.getGlobalId)).map Prod.snd).Nodup := by
  have ok := traversed t ef fuel
  have once := ok.once
  rw [ok.hash,← List.reverse_cons,List.nodup_reverse] at once
  rw [List.map_cons,List.map_map]
  exact once

/- The configuration that a traversal gives the sub-query search. -/
def topConfig (fuel resKnn : Nat) (originMachine leaderMachine : Fin n) (coreMachine : List (Fin n))
    (coreNodup : coreMachine.Nodup) (leaderCore : leaderMachine ∈ coreMachine) (unset : D) : Config n D where
  ef := ef
  resKnn := resKnn
  originMachine := originMachine
  leaderMachine := leaderMachine
  coreMachine := coreMachine
  coreNodup := coreNodup
  leaderCore := leaderCore
  enterpoint := (t.dist 0,t.getGlobalId 0)
  evaluated := (traversal t ef fuel).evaluated.map (renamed t.getGlobalId)
  once := evaluatedOnce t ef fuel
  unset := unset

/- The pre-stage of the sub-query model is this traversal, in global ids. -/
theorem preStageTraversal (fuel resKnn : Nat) (originMachine leaderMachine : Fin n) (coreMachine : List (Fin n))
    (coreNodup : coreMachine.Nodup) (leaderCore : leaderMachine ∈ coreMachine) (unset : D) :
    Mirrors t.getGlobalId (traversal t ef fuel)
      (preStage (topConfig t ef fuel resKnn originMachine leaderMachine coreMachine coreNodup leaderCore unset)) :=
  (traversed t ef fuel).mirrors

end PreStage

end CoTra.TopTraversal
