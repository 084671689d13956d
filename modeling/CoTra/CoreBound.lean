import CoTra.ForkSync
import CoTra.Smallest

/-! The candidates and the bound of a core machine under post_proc_candidate and
update_sub_query. Both keep the bound at the farthest candidate; update_sub_query tests a
whole batch against the bound before it, so candidates behind the ones that fill the
queue can be turned away too early. -/
namespace CoTra.CoreBound
open Runs Priority SubQuery ForkSync Smallest

variable {n : Nat} {D : Type} [Distance D]

inductive Call (n : Nat) (D : Type) where
  | post (cand : D × Nat)
  | update (msg : SyncMsg n D)

variable (cfg : Config n D) (me : Fin n)

def call (q : QueryMsg n D) : Call n D → QueryMsg n D
  | .post cand => { q with search := postProcCandidate cfg q.search cand }
  | .update msg => updateSubQuery cfg me msg q

def calls (q : QueryMsg n D) (cs : List (Call n D)) : QueryMsg n D := cs.foldl (call cfg me) q

def offer : Call n D → List (D × Nat)
  | .post cand => [cand]
  | .update msg => msg.localAddCand

def offered (cs : List (Call n D)) : List (D × Nat) := cs.flatMap offer

def dists (cands : List (D × Nat)) : Multiset D := cands.map Prod.fst

/- At most ef candidates, and the bound is the distance of the farthest. -/
structure Held (s : Search D) : Prop where
  few : size s.topCandidates ≤ cfg.ef
  bound : ∀ c, top s.topCandidates = some c → c.1 = s.lowerBound

/- What is promised of the state that some calls lead to. -/
structure Right (q : QueryMsg n D) (cs : List (Call n D)) : Prop where
  held : Held cfg (calls cfg me q cs).search
  falls : cfg.ef ≤ size (calls cfg me q cs).search.topCandidates → ∀ more,
    (calls cfg me q (cs ++ more)).search.lowerBound ≤ (calls cfg me q cs).search.lowerBound
  part : ((calls cfg me q cs).search.topCandidates.elems : Multiset (D × Nat)) ≤ q.search.topCandidates.elems + offered cs
  smallest : IsSmallest cfg.ef (keys q.search.topCandidates + dists (offered cs))
    (keys (calls cfg me q cs).search.topCandidates)

/- The candidates of a batch that find room, whatever their distance, and the others. -/
def filling (s : Search D) (cands : List (D × Nat)) : List (D × Nat) := cands.take (cfg.ef - size s.topCandidates)

def behind (s : Search D) (cands : List (D × Nat)) : List (D × Nat) := cands.drop (cfg.ef - size s.topCandidates)

/- What a call takes, and what it turns away. -/
def accepted (q : QueryMsg n D) : Call n D → Multiset D
  | .post cand => if size q.search.topCandidates < cfg.ef ∨ cand.1 < q.search.lowerBound then {cand.1} else 0
  | .update msg => (filling cfg q.search msg.localAddCand).map Prod.fst +
    ((behind cfg q.search msg.localAddCand).filter (fun c => c.1 < q.search.lowerBound)).map Prod.fst

def dropped (q : QueryMsg n D) : Call n D → Multiset D
  | .post cand => if size q.search.topCandidates < cfg.ef ∨ cand.1 < q.search.lowerBound then 0 else {cand.1}
  | .update msg => ((behind cfg q.search msg.localAddCand).filter (fun c => ¬c.1 < q.search.lowerBound)).map Prod.fst

/- For a candidate that is turned away, the filling ones that are farther are at most as
many as the ones that drive candidates out again. -/
def Fits (q : QueryMsg n D) : Call n D → Prop
  | .post _ => True
  | .update msg => ∀ c ∈ behind cfg q.search msg.localAddCand, q.search.lowerBound ≤ c.1 →
    (filling cfg q.search msg.localAddCand).countP (fun e => c.1 < e.1) ≤
      (behind cfg q.search msg.localAddCand).countP (fun e => e.1 < q.search.lowerBound)

instance (q : QueryMsg n D) (c : Call n D) : Decidable (Fits cfg q c) := by
  cases c <;> unfold Fits <;> infer_instance

section Steps

variable {cfg me} {s s' : Search D} {q : QueryMsg n D} {accepted' dropped' : Multiset D}

theorem keysCard (q : PQueue D Nat) : (keys q).card = size q := List.length_map _

theorem heldBelow (held : Held cfg s) : ∀ a ∈ keys s.topCandidates, a ≤ s.lowerBound := by
  intro a inside
  obtain ⟨z,member,rfl⟩ := List.mem_map.mp (Multiset.mem_coe.mp inside)
  obtain ⟨c,first⟩ := topSome (q := s.topCandidates) (List.length_pos_of_mem member)
  rw [← held.bound c first]
  exact topLargest first z member

theorem mergeSplit (cands : List (D × Nat)) (bound : D) (q : PQueue D Nat) :
    merge cfg cands bound q = pushAll (pushAll q (cands.take (cfg.ef - size q)))
      ((cands.drop (cfg.ef - size q)).filter (fun c => c.1 < bound)) := by
  induction cands generalizing q with
  | nil => simp [merge,pushAll]
  | cons c rest ih =>
    rcases Nat.lt_or_ge (size q) cfg.ef with room | full
    · have step : merge cfg (c :: rest) bound q = merge cfg rest bound (push q c) := by
        have first : addCand cfg c bound q = push q c := if_pos (.inl room)
        exact congrArg (merge cfg rest bound) first
      have more : cfg.ef - size q = cfg.ef - size (push q c) + 1 := by
        rw [sizePush]
        omega
      rw [step,ih,more,List.take_succ_cons,List.drop_succ_cons]
      rfl
    · rw [mergeFull full,Nat.sub_eq_zero_of_le full]
      rfl

structure Outcome (cfg : Config n D) (s s' : Search D) (accepted dropped : Multiset D) : Prop where
  kept : IsSmallest cfg.ef (keys s.topCandidates + accepted) (keys s'.topCandidates)
  full : dropped ≠ 0 → cfg.ef ≤ (keys s.topCandidates + accepted).card
  near : cfg.ef ≤ size s.topCandidates → ∀ a ∈ accepted, a ≤ s.lowerBound
  bound : s'.lowerBound = topBound s'.topCandidates s.lowerBound

/- When something is behind them, the filling candidates fill the queue. -/
theorem fillingCard (held : Held cfg s) {cands : List (D × Nat)} (more : behind cfg s cands ≠ []) :
    size s.topCandidates + (filling cfg s cands).length = cfg.ef := by
  have few := held.few
  have long : 0 < (behind cfg s cands).length := List.length_pos_iff.mpr more
  rw [behind,List.length_drop] at long
  rw [filling,List.length_take]
  omega

theorem offerSplit (q : QueryMsg n D) (c : Call n D) :
    dists (offer c) = accepted cfg q c + dropped cfg q c := by
  cases c with
  | post cand =>
    simp only [accepted,dropped,offer,dists]
    by_cases takes : size q.search.topCandidates < cfg.ef ∨ cand.1 < q.search.lowerBound
    · rw [if_pos takes,if_pos takes,add_zero]
      rfl
    · rw [if_neg takes,if_neg takes,zero_add]
      rfl
  | update msg =>
    have whole : filling cfg q.search msg.localAddCand ++ behind cfg q.search msg.localAddCand = msg.localAddCand :=
      List.take_append_drop _ _
    have parts := Multiset.filter_add_not (fun c : D × Nat => c.1 < q.search.lowerBound)
      (behind cfg q.search msg.localAddCand : Multiset (D × Nat))
    rw [accepted,dropped,offer,dists,add_assoc]
    conv_lhs => rw [← whole]
    rw [List.map_append,← Multiset.coe_add]
    congr 1
    rw [← Multiset.map_coe,← Multiset.map_coe,← Multiset.map_coe,← Multiset.map_add]
    congr 1
    exact parts.symm

theorem postOutcome (held : Held cfg q.search) (cand : D × Nat) :
    Outcome cfg q.search (call cfg me q (.post cand)).search (accepted cfg q (.post cand)) (dropped cfg q (.post cand)) := by
  simp only [accepted,dropped,call,postProcCandidate]
  by_cases takes : size q.search.topCandidates < cfg.ef ∨ cand.1 < q.search.lowerBound
  · rw [if_pos takes,if_pos takes,if_pos takes]
    refine ⟨?_,fun none' => absurd rfl none',fun full a inside => ?_,rfl⟩
    · have pushed : keys (push q.search.topCandidates cand) = keys q.search.topCandidates + {cand.1} :=
        keysPushAll q.search.topCandidates [cand]
      rw [← pushed]
      exact popToSmallest _ _
    · cases Multiset.mem_singleton.mp inside
      exact (takes.resolve_left (Nat.not_lt.mpr full)).le
  · rw [if_neg takes,if_neg takes,if_neg takes]
    obtain ⟨full,_⟩ := not_or.mp takes
    refine ⟨?_,fun _ => ?_,fun _ a inside => absurd inside (Multiset.notMem_zero a),?_⟩
    · rw [add_zero]
      exact smallestSelf (by rw [keysCard]; exact held.few)
    · rw [add_zero,keysCard]
      exact Nat.le_of_not_lt full
    · unfold topBound
      split
      · rename_i c first
        exact (held.bound c first).symm
      · rfl

theorem updateOutcome (held : Held cfg q.search) (msg : SyncMsg n D) :
    Outcome cfg q.search (call cfg me q (.update msg)).search (accepted cfg q (.update msg))
      (dropped cfg q (.update msg)) := by
  have merged : (call cfg me q (.update msg)).search.topCandidates =
      popTo cfg.ef (merge cfg msg.localAddCand q.search.lowerBound q.search.topCandidates) := rfl
  refine ⟨?_,fun some' => ?_,fun full a inside => ?_,rfl⟩
  · rw [merged,mergeSplit,accepted,← add_assoc,← keysPushAll,← keysPushAll]
    exact popToSmallest _ _
  · obtain ⟨x,inside⟩ := Multiset.exists_mem_of_ne_zero some'
    obtain ⟨c,late,_⟩ := List.mem_map.mp (Multiset.mem_coe.mp inside)
    have filled := fillingCard held (List.ne_nil_of_mem (List.mem_of_mem_filter late))
    rw [accepted,Multiset.card_add,Multiset.card_add,keysCard,Multiset.coe_card,List.length_map]
    omega
  · rw [accepted,filling,Nat.sub_eq_zero_of_le full,List.take_zero,List.map_nil,Multiset.coe_nil,zero_add] at inside
    obtain ⟨c,late,rfl⟩ := List.mem_map.mp (Multiset.mem_coe.mp inside)
    exact (of_decide_eq_true (List.mem_filter.mp late).2).le

theorem outcome (me : Fin n) (held : Held cfg q.search) (c : Call n D) :
    Outcome cfg q.search (call cfg me q c).search (accepted cfg q c) (dropped cfg q c) := by
  cases c with
  | post cand => exact postOutcome held cand
  | update msg => exact updateOutcome held msg

/- Every candidate in the queue was in it or has been offered. -/
theorem partNext (q : QueryMsg n D) (c : Call n D) :
    ((call cfg me q c).search.topCandidates.elems : Multiset (D × Nat)) ≤ q.search.topCandidates.elems + offer c := by
  have popped : ∀ p : PQueue D Nat, ((popTo cfg.ef p).elems : Multiset (D × Nat)) ≤ p.elems := fun p =>
    Multiset.coe_le.mpr (popToSublist cfg.ef p).subperm
  have pushed : ∀ (p : PQueue D Nat) (xs : List (D × Nat)), ((pushAll p xs).elems : Multiset (D × Nat)) = p.elems + xs :=
    fun p xs => Multiset.coe_eq_coe.mpr (pushAllPerm p xs)
  cases c with
  | post cand =>
    simp only [call,postProcCandidate,offer]
    split
    · rw [← pushed]
      exact popped _
    · exact Multiset.le_add_right _ _
  | update msg =>
    have taken : (filling cfg q.search msg.localAddCand ++
        (behind cfg q.search msg.localAddCand).filter (fun c => c.1 < q.search.lowerBound)).Sublist msg.localAddCand := by
      have part := (List.Sublist.refl (filling cfg q.search msg.localAddCand)).append
        (List.filter_sublist (l := behind cfg q.search msg.localAddCand) (p := fun c => decide (c.1 < q.search.lowerBound)))
      rwa [show filling cfg q.search msg.localAddCand ++ behind cfg q.search msg.localAddCand = msg.localAddCand from
        List.take_append_drop _ _] at part
    calc ((call cfg me q (.update msg)).search.topCandidates.elems : Multiset (D × Nat))
        ≤ (merge cfg msg.localAddCand q.search.lowerBound q.search.topCandidates).elems := popped _
      _ = q.search.topCandidates.elems + (filling cfg q.search msg.localAddCand ++
            (behind cfg q.search msg.localAddCand).filter (fun c => c.1 < q.search.lowerBound) : List (D × Nat)) := by
          rw [mergeSplit,pushed,pushed,← Multiset.coe_add,add_assoc]
          rfl
      _ ≤ q.search.topCandidates.elems + msg.localAddCand := add_le_add_right (Multiset.coe_le.mpr taken.subperm) _

theorem heldNext (done : Outcome cfg s s' accepted' dropped') : Held cfg s' := by
  refine ⟨?_,fun c first => ?_⟩
  · rw [← keysCard,done.kept.count]
    exact min_le_left _ _
  · rw [done.bound,topBound,first]

/- A full queue stays full, and its bound does not rise. -/
theorem fallsNext (held : Held cfg s) (done : Outcome cfg s s' accepted' dropped') (full : cfg.ef ≤ size s.topCandidates) :
    cfg.ef ≤ size s'.topCandidates ∧ s'.lowerBound ≤ s.lowerBound := by
  constructor
  · rw [← keysCard,done.kept.count,Multiset.card_add,keysCard]
    omega
  · rw [done.bound,topBound]
    split
    · rename_i c first
      have inside : c.1 ∈ keys s'.topCandidates := Multiset.mem_coe.mpr (List.mem_map_of_mem (topMem first))
      rcases Multiset.mem_add.mp (Multiset.mem_of_le done.kept.part inside) with old | new
      · exact heldBelow held c.1 old
      · exact done.near full c.1 new
    · exact le_rfl

theorem smallestNext {all : Multiset D} (before : IsSmallest cfg.ef all (keys s.topCandidates))
    (done : Outcome cfg s s' accepted' dropped') :
    IsSmallest cfg.ef (all + (accepted' + dropped')) (keys s'.topCandidates) ↔
      ∀ x ∈ dropped', cfg.ef ≤ (keys s.topCandidates + accepted').countP (· ≤ x) := by
  constructor
  · intro after x turned
    have full : cfg.ef ≤ (keys s.topCandidates + accepted').card :=
      done.full (fun none' => Multiset.notMem_zero x (none' ▸ turned))
    rw [← done.kept.boundIff full]
    rw [← add_assoc] at after
    exact after.extraFar (done.kept.part.trans (add_le_add_left before.part _)) x turned
  · intro far
    refine before.add ?_
    rw [← add_assoc]
    rcases eq_or_ne dropped' 0 with none' | some'
    · rw [none',add_zero]
      exact done.kept
    · exact done.kept.extra (done.full some') (fun x turned => (done.kept.boundIff (done.full some') x).mpr (far x turned))

/- The condition of a call counts the candidates that are at least as near as one that is
turned away. -/
theorem fitsIff (held : Held cfg q.search) (c : Call n D) :
    (∀ x ∈ dropped cfg q c, cfg.ef ≤ (keys q.search.topCandidates + accepted cfg q c).countP (· ≤ x)) ↔ Fits cfg q c := by
  cases c with
  | post cand =>
    refine iff_of_true (fun x turned => ?_) trivial
    rw [dropped] at turned
    split at turned
    · exact absurd turned (Multiset.notMem_zero x)
    · rename_i rejected
      cases Multiset.mem_singleton.mp turned
      have full : cfg.ef ≤ (keys q.search.topCandidates).card := by
        rw [keysCard]
        exact Nat.le_of_not_lt (not_or.mp rejected).1
      refine full.trans (le_of_eq ?_)
      rw [accepted,if_neg rejected,add_zero]
      refine (Multiset.countP_eq_card.mpr (fun a inside => ?_)).symm
      exact (heldBelow held a inside).trans (not_lt.mp (not_or.mp rejected).2)
  | update msg =>
    have counted : ∀ d ∈ behind cfg q.search msg.localAddCand, q.search.lowerBound ≤ d.1 →
        (cfg.ef ≤ (keys q.search.topCandidates + accepted cfg q (.update msg)).countP (· ≤ d.1) ↔
          (filling cfg q.search msg.localAddCand).countP (fun e => d.1 < e.1) ≤
            (behind cfg q.search msg.localAddCand).countP (fun e => e.1 < q.search.lowerBound)) := by
      intro d late far
      have filled := fillingCard held (List.ne_nil_of_mem late)
      have old : (keys q.search.topCandidates).countP (· ≤ d.1) = size q.search.topCandidates := by
        rw [← keysCard]
        exact Multiset.countP_eq_card.mpr (fun a inside => (heldBelow held a inside).trans far)
      have near : ((behind cfg q.search msg.localAddCand).filter (fun e => e.1 < q.search.lowerBound)).countP
          (fun e => e.1 ≤ d.1) = (behind cfg q.search msg.localAddCand).countP (fun e => e.1 < q.search.lowerBound) := by
        rw [List.countP_eq_length_filter (p := fun e : D × Nat => decide (e.1 < q.search.lowerBound)),
          List.countP_eq_length]
        intro e member
        exact decide_eq_true ((of_decide_eq_true (List.mem_filter.mp member).2).le.trans far)
      have either := List.length_eq_countP_add_countP (fun e : D × Nat => decide (e.1 ≤ d.1))
        (l := filling cfg q.search msg.localAddCand)
      have farther : (filling cfg q.search msg.localAddCand).countP (fun e => ¬decide (e.1 ≤ d.1)) =
          (filling cfg q.search msg.localAddCand).countP (fun e => d.1 < e.1) := by
        refine List.countP_congr (fun e _ => ?_)
        simp
      rw [accepted,Multiset.countP_add,Multiset.countP_add,old,Multiset.coe_countP,Multiset.coe_countP,List.countP_map,
        List.countP_map]
      simp only [Function.comp_def]
      rw [near]
      omega
    constructor
    · intro enough d late far
      refine (counted d late far).mp (enough d.1 ?_)
      refine Multiset.mem_coe.mpr (List.mem_map_of_mem (List.mem_filter.mpr ⟨late,?_⟩))
      exact decide_eq_true (not_lt.mpr far)
    · intro fits x turned
      obtain ⟨d,kept,rfl⟩ := List.mem_map.mp (Multiset.mem_coe.mp turned)
      obtain ⟨late,far⟩ := List.mem_filter.mp kept
      have far : q.search.lowerBound ≤ d.1 := not_lt.mp (of_decide_eq_true far)
      exact (counted d late far).mpr (fits d late far)

end Steps

section Calls

variable {cfg me} {q : QueryMsg n D}

omit [Distance D] in
theorem offeredKeys (all : Multiset D) (c : Call n D) (cs : List (Call n D)) :
    all + dists (offered (c :: cs)) = all + dists (offer c) + dists (offered cs) := by
  rw [offered,List.flatMap_cons,dists,List.map_append,← Multiset.coe_add,← add_assoc]
  rfl

theorem partCalls (q : QueryMsg n D) (cs : List (Call n D)) :
    ((calls cfg me q cs).search.topCandidates.elems : Multiset (D × Nat)) ≤
      q.search.topCandidates.elems + offered cs := by
  induction cs generalizing q with
  | nil => exact Multiset.le_add_right _ _
  | cons c rest ih =>
    have whole : (offered (c :: rest) : Multiset (D × Nat)) = offer c + offered rest := rfl
    rw [whole,← add_assoc]
    exact (ih (call cfg me q c)).trans (add_le_add_left (partNext q c) _)

theorem heldCalls (held : Held cfg q.search) (cs : List (Call n D)) : Held cfg (calls cfg me q cs).search := by
  induction cs generalizing q with
  | nil => exact held
  | cons c rest ih => exact ih (heldNext (outcome me held c))

theorem fallsCalls (held : Held cfg q.search) (full : cfg.ef ≤ size q.search.topCandidates) (cs : List (Call n D)) :
    (calls cfg me q cs).search.lowerBound ≤ q.search.lowerBound := by
  induction cs generalizing q with
  | nil => exact le_rfl
  | cons c rest ih =>
    have done := outcome me held c
    obtain ⟨full',below⟩ := fallsNext held done full
    exact (ih (heldNext done) full').trans below

theorem smallestCalls {all : Multiset D} (held : Held cfg q.search)
    (before : IsSmallest cfg.ef all (keys q.search.topCandidates)) (cs : List (Call n D)) :
    (∀ first, first <+: cs → IsSmallest cfg.ef (all + dists (offered first))
        (keys (calls cfg me q first).search.topCandidates)) ↔
      Along (fun q c => some (call cfg me q c)) (Fits cfg) q cs := by
  have none' : ∀ {all kept : Multiset D}, IsSmallest cfg.ef (all + dists (offered ([] : List (Call n D)))) kept ↔
      IsSmallest cfg.ef all kept := by
    intro all kept
    rw [offered,List.flatMap_nil,dists,List.map_nil,Multiset.coe_nil,add_zero]
  induction cs generalizing q all with
  | nil =>
    refine iff_of_true (fun first part => ?_) trivial
    cases List.prefix_nil.mp part
    exact none'.mpr before
  | cons c rest ih =>
    have done := outcome me held c
    have one := smallestNext before done
    rw [← offerSplit,fitsIff held c] at one
    constructor
    · intro every
      have first : IsSmallest cfg.ef (all + dists (offer c)) (keys (call cfg me q c).search.topCandidates) := by
        have after := every [c] (List.cons_prefix_cons.mpr ⟨rfl,List.nil_prefix⟩)
        rwa [offeredKeys,none'] at after
      refine ⟨one.mp first,fun t same => ?_⟩
      cases Option.some.inj same
      refine (ih (heldNext done) first).mp (fun later part => ?_)
      have after := every (c :: later) (List.cons_prefix_cons.mpr ⟨rfl,part⟩)
      rwa [offeredKeys] at after
    · rintro ⟨fits,along⟩ first part
      cases first with
      | nil =>
        exact none'.mpr before
      | cons d later =>
        obtain ⟨rfl,within⟩ := List.cons_prefix_cons.mp part
        rw [offeredKeys]
        exact (ih (heldNext done) (one.mpr fits)).mpr (along _ rfl) later within

/- The queue and its bound are right after every call exactly when no batch turns a
candidate away too early. -/
theorem boundInvariant (held : Held cfg q.search) (cs : List (Call n D)) :
    (∀ first, first <+: cs → Right cfg me q first) ↔ Along (fun q c => some (call cfg me q c)) (Fits cfg) q cs := by
  have start : IsSmallest cfg.ef (keys q.search.topCandidates) (keys q.search.topCandidates) :=
    smallestSelf (by rw [keysCard]; exact held.few)
  rw [← smallestCalls held start cs]
  refine forall₂_congr (fun first _ => ⟨Right.smallest,fun smallest =>
    ⟨heldCalls held first,fun full more => ?_,partCalls q first,smallest⟩⟩)
  rw [calls,List.foldl_append]
  exact fallsCalls (heldCalls held first) full more

def twoConfig : Config 3 Nat := { lateConfig with ef := 2 }

/- A query with one candidate, at distance 5. -/
def oneHeld : QueryMsg 3 Nat := { (fresh twoConfig).toQueryMsg with search := ⟨5,push empty (5,0),empty,[],true⟩ }

def bringing (cands : List (Nat × Nat)) : Call 3 Nat := .update ⟨false,false,false,cands,fun _ => [],fun _ => []⟩

theorem oneHeldHeld : Held twoConfig oneHeld.search := by
  refine ⟨by decide,fun c first => ?_⟩
  cases Option.some.inj first
  rfl

theorem boundInvariantOne : (∀ first, first <+: [Call.post (3,1),bringing [(4,2),(9,3)]] →
    Right twoConfig 1 oneHeld first) ↔
      Along (fun q c => some (call twoConfig 1 q c)) (Fits twoConfig) oneHeld [.post (3,1),bringing [(4,2),(9,3)]] :=
  boundInvariant oneHeldHeld _

/- The batch 10, 7 fills the queue with 10 and turns 7 away. -/
theorem staleBound : ¬∀ first, first <+: [bringing [(10,1),(7,2)]] → Right twoConfig 1 oneHeld first := by
  intro every
  have smallest := (every _ List.prefix_rfl).smallest
  have kept : 10 ∈ keys (calls twoConfig 1 oneHeld [bringing [(10,1),(7,2)]]).search.topCandidates := by decide
  have left : 7 ∈ keys oneHeld.search.topCandidates + dists (offered [bringing [(10,1),(7,2)]]) -
      keys (calls twoConfig 1 oneHeld [bringing [(10,1),(7,2)]]).search.topCandidates := by decide
  exact absurd (smallest.below 10 kept 7 left) (by decide)

end Calls

end CoTra.CoreBound
