import CoTra.V3Files

/-! Dispatch over the files of a finished build: every emission of a decoder, read
at the machine it is sent to, stands for neighbours of the decoded vertex that live
there, and all emissions together for all of them. An array of 2^32 ids or more is
lost in the exchange, whose receiver keeps the count in 32 bits. -/
namespace CoTra.V3Dispatch
open Runs Memory V3Index V3Layout V3Decode V3Files NghExchange

variable {n : Nat} {g : GraphParts n}

section Emissions

variable {dist : Type} (g)

def graphs (file : Fin n → Mem) (p : Nat) : ScalaGraph := loadIndex (if h : p < n then file ⟨p,h⟩ else fun _ => 0)

theorem graphsAt (file : Fin n → Mem) (p : Fin n) : graphs file p = loadIndex (file p) := by
  simp [graphs]

def emitted (file : Fin n → Mem) (own : Nat) (e : Emit dist) : List Nat :=
  (emitIds (cumupsize g.partitionSize) (graphs file) own e).getD []

/- Every emission can be read at its destination and holds vertices of it; together
they are `ids`. -/
def Exact (file : Fin n → Mem) (own : Nat) (pushed : List (Emit dist)) (ids : List Nat) : Prop :=
  (∀ e ∈ pushed, ∃ found, emitIds (cumupsize g.partitionSize) (graphs file) own e = some found ∧
    ∀ v ∈ found, (judgePartition g v).map Fin.val = some (emitPid own e)) ∧
  pushed.flatMap (emitted g file own) = ids

variable {g} {file : Fin n → Mem} {own : Nat}

theorem exactAppend {xs ys : List (Emit dist)} {a b : List Nat} (first : Exact g file own xs a)
    (second : Exact g file own ys b) : Exact g file own (xs ++ ys) (a ++ b) := by
  obtain ⟨readFirst,rfl⟩ := first
  obtain ⟨readSecond,rfl⟩ := second
  constructor
  · intro e member
    rcases List.mem_append.mp member with here | later
    · exact readFirst e here
    · exact readSecond e later
  · rw [List.flatMap_append]

theorem exactOne {e : Emit dist} {row : List Nat} {q : Fin n} (pid : emitPid own e = q)
    (found : emitIds (cumupsize g.partitionSize) (graphs file) own e = some (nghs g row q)) :
    Exact g file own [e] (nghs g row q) := by
  constructor
  · intro x member
    rw [List.mem_singleton.mp member]
    refine ⟨_,found,fun v inside => ?_⟩
    rw [nghsOwner inside,pid]
    rfl
  · simp [emitted,found]

theorem exactEach {push : Nat → Emit dist} {row : List Nat} {q : Fin n} (pid : ∀ v, emitPid own (push v) = q)
    (found : ∀ v ∈ nghs g row q, emitIds (cumupsize g.partitionSize) (graphs file) own (push v) = some [v]) :
    Exact g file own ((nghs g row q).map push) (nghs g row q) := by
  constructor
  · intro e member
    obtain ⟨v,inside,rfl⟩ := List.mem_map.mp member
    refine ⟨_,found v inside,fun w here => ?_⟩
    rw [List.mem_singleton.mp here,nghsOwner inside,pid]
    rfl
  · rw [List.flatMap_map]
    have each : ∀ v ∈ nghs g row q, emitted g file own (push v) = [v] := by
      intro v inside
      rw [emitted,found v inside,Option.getD_some]
    rw [List.flatMap_congr each]
    simp

theorem microCombineIds {ids : List Nat} (few : ids.length ≤ inlineDegBar) (small : ∀ v ∈ ids, v < 2^32) :
    (List.range ids.length).map (fun d => microCombine ids / 2^(32*d) % 2^32) = ids := by
  match ids with
  | [] => rfl
  | [v] =>
    have low := small v (by simp)
    simp [microCombine]
    omega
  | [v,w] =>
    have low := small v (by simp)
    have high := small w (by simp)
    have packed : microCombine [v,w] = w*2^32 + v := by
      simp only [microCombine,List.zipIdx_cons,List.zipIdx_nil,List.foldl_cons,List.foldl_nil]
      rw [Nat.zero_or,Nat.zero_mul,Nat.shiftLeft_zero,Nat.mod_eq_of_lt (by omega),Nat.zero_add,Nat.one_mul,
        Nat.mod_eq_of_lt (by rw [Nat.shiftLeft_eq]; omega),Nat.or_comm,← Nat.shiftLeft_add_eq_or_of_lt low,
        Nat.shiftLeft_eq]
    simp [packed,List.range_succ]
    omega
  | _ :: _ :: _ :: _ => simp [inlineDegBar] at few

theorem rowSmall {p : Fin n} {pre post : List (List Nat)} {row : List Nat} (part : g.rows p = pre ++ row :: post) :
    ∀ v ∈ row, v < 2^32 := by
  intro v inside
  exact lt_trans (g.target p row (by rw [part]; simp) v inside) g.total

theorem writtenLe {p q : Fin n} {pre post : List (List Nat)} {row : List Nat} (part : g.rows p = pre ++ row :: post) :
    (writtenBefore (g := g) p pre q).length ≤ (outRemoteNgh g p q).length := by
  rw [outRemoteNgh,part,List.flatMap_append,List.length_append]
  exact Nat.le_add_right _ _

/- What a decoder must push for each kind of record. -/
structure Sound (d : Deployment g) (file : Fin n → Mem) (emit : Emitter dist) (p : Fin n) (pre : List (List Nat))
    (row : List Nat) : Prop where
  onLocal : ∀ ofs, ofs ≤ localNghSize g p → Stored (file p) (indexMetaLen + ofs) (wordBytes (nghs g row p)) →
    Exact g file p (emit.onLocal (nghs g row p).length ofs) (nghs g row p)
  onMicro : ∀ q, q ≠ p → (nghs g row q).length ≤ inlineDegBar →
    Exact g file p (emit.onMicro q (nghs g row q)) (nghs g row q)
  onLarge : ∀ q, q ≠ p → inlineDegBar < (nghs g row q).length →
    Exact g file p (emit.onLarge q (outRemoteNghStartOfs g p (d.table p) q +
      4*(writtenBefore (g := g) p pre q).length) (nghs g row q).length) (nghs g row q)

/- The result of a decoder for the vertex of `row`. -/
def Dispatched (d : Deployment g) (file : Fin n → Mem) (p : Fin n) (pre : List (List Nat)) (row : List Nat)
    (decoded : Option (List (Emit dist) × Nat)) : Prop :=
  ∃ emits stop ids, decoded = some (emits,stop) ∧ Exact g file p emits ids ∧ ids.Perm row ∧
    stop + 4*(nghs g row p).length = localNghEleSize g * pre.length + (d.block p pre row).length

theorem slotExact {d : Deployment g} {emit : Emitter dist} {p : Fin n} {pre : List (List Nat)} {row : List Nat}
    (sound : Sound d file emit p pre row) {qs : List (Fin n)} (lastLocal : ∀ q ∈ qs.dropLast, q ≠ p) {ofs : Nat}
    (stored : Stored (file p) (indexMetaLen + ofs)
      (slotBytes g p (outRemoteNghStartOfs g p (d.table p)) (writtenBefore (g := g) p pre) row qs))
    (inside : ofs + (slotBytes g p (outRemoteNghStartOfs g p (d.table p)) (writtenBefore (g := g) p pre) row qs).length ≤
      localNghSize g p) :
    Exact g file p (slotEmits g p (outRemoteNghStartOfs g p (d.table p)) (writtenBefore (g := g) p pre) row emit ofs qs)
      (qs.flatMap (nghs g row)) := by
  induction qs generalizing ofs with
  | nil => exact ⟨fun _ member => absurd member List.not_mem_nil,rfl⟩
  | cons q rest ih =>
    rw [slotBytes,storedAppend] at stored
    rw [slotBytes,List.length_append] at inside
    by_cases own : q = p
    · have empty : rest = [] := by
        cases rest with
        | nil => rfl
        | cons r more => exact absurd own (lastLocal q (by simp))
      subst own empty
      have record := stored.1
      rw [recordBytes,if_neg (by simp),storedAppend,leBytesLength] at record
      rw [recordBytes,if_neg (by simp),List.length_append,leBytesLength] at inside
      simpa [slotEmits] using sound.onLocal (ofs+2) (by omega) record.2
    · have later := ih (fun r member => lastLocal r (by
        rw [List.dropLast_cons_of_ne_nil (List.ne_nil_of_mem (List.mem_of_mem_dropLast member))]
        exact List.mem_cons_of_mem _ member)) (by rw [← Nat.add_assoc]; exact stored.2) (by omega)
      rw [slotEmits,if_neg own,List.flatMap_cons]
      refine exactAppend ?_ later
      split
      · exact sound.onMicro q own (by assumption)
      · exact sound.onLarge q own (by omega)

theorem partIdsLastLocal {p : Fin n} {row : List Nat} : ∀ q ∈ (partIds g p row).dropLast, q ≠ p := by
  intro q member
  unfold partIds at member
  split at member
  · rw [List.dropLast_concat] at member
    exact (of_decide_eq_true (List.mem_filter.mp member).2).2
  · rw [List.append_nil] at member
    exact (of_decide_eq_true (List.mem_filter.mp (List.mem_of_mem_dropLast member)).2).2

theorem partIdsSome {p : Fin n} {row : List Nat} (known : ∀ v ∈ row, v < cumupsize g.partitionSize n)
    (some' : row ≠ []) : partIds g p row ≠ [] := by
  intro empty
  have perm := groupsPerm g p known
  rw [empty] at perm
  exact some' (List.nil_perm.mp perm)

variable {d : Deployment g} (few : n ≤ 64) (degree : g.maxDegree ≤ 96) (bounded : ∀ q, inSum g q n ≤ 2^38)
include few degree bounded

theorem ptrRead (kept : Kept d file) {q : Fin n} {ofs : Nat} {ids : List Nat} (inside : ofs ≤ localNghSize g q + 4*inSum g q n)
    (small : ∀ v ∈ ids, v < 2^32) (stored : Stored (file q) (indexMetaLen + ofs) (wordBytes ids)) :
    scalaGraphV3GetNghPtr (graphs file q) ofs ids.length = some ids := by
  obtain ⟨_,_,_,size⟩ := loadedHeader kept few degree bounded q
  rw [graphsAt,scalaGraphV3GetNghPtr,size,if_neg (by omega)]
  have words : readWords (loadIndex (file q)).degNgh ofs ids.length = ids :=
    readWordsStored (storedShift.mpr stored) small
  rw [words]

theorem largeRead (finished : Finished d file) {p q : Fin n} (apart : q ≠ p) {pre post : List (List Nat)} {row : List Nat}
    (part : g.rows p = pre ++ row :: post) (many : inlineDegBar < (nghs g row q).length) :
    scalaGraphV3GetNghPtr (graphs file q) (outRemoteNghStartOfs g p (d.table p) q +
      4*(writtenBefore (g := g) p pre q).length) (nghs g row q).length = some (nghs g row q) := by
  have stored := groupInFile finished (Ne.symm apart) part many
  refine ptrRead few degree bounded finished.kept ?_ (fun v inside => rowSmall part v (List.mem_of_mem_filter inside)) stored
  have start : outRemoteNghStartOfs g p (d.table p) q = localNghSize g q + 4*inSum g q p :=
    outStartSum g (d.delivered p) q
  have next := inSumNext (g := g) q p.isLt
  have before := writtenLe (q := q) part
  omega

theorem subquerySound (finished : Finished d file) (isCoreMachine : Nat → Bool) (qid : Nat) (lb : dist) (efFill : Bool) {p : Fin n}
    {pre post : List (List Nat)} {row : List Nat} (part : g.rows p = pre ++ row :: post) :
    Sound d file (subqueryEmitter isCoreMachine (cumupsize g.partitionSize) p qid lb efFill) p pre row := by
  have small : ∀ q, ∀ v ∈ nghs g row q, v < 2^32 := fun q v inside => rowSmall part v (List.mem_of_mem_filter inside)
  constructor
  · intro ofs inside stored
    exact exactOne rfl (ptrRead few degree bounded finished.kept (by omega) (small p) stored)
  · intro q apart len
    unfold subqueryEmitter
    dsimp only
    split
    · exact exactEach (fun _ => rfl) (fun _ _ => rfl)
    · refine exactEach (fun _ => rfl) (fun v inside => ?_)
      have above := ownerAbove (nghsOwner inside)
      simp only [emitIds]
      congr 2
      omega
  · intro q apart many
    have read := largeRead few degree bounded finished apart part many
    unfold subqueryEmitter
    dsimp only
    split
    · exact exactOne rfl read
    · refine exactOne rfl ?_
      simp only [emitIds,taskNgh]
      rw [if_neg (by omega)]
      exact read

theorem nodetaskSound [Zero dist] (finished : Finished d file) (isCoreMachine : Nat → Bool) (machineId qid : Nat) {p : Fin n}
    {pre post : List (List Nat)} {row : List Nat} (part : g.rows p = pre ++ row :: post) :
    Sound d file (nodetaskEmitter isCoreMachine machineId qid : Emitter dist) p pre row := by
  have small : ∀ q, ∀ v ∈ nghs g row q, v < 2^32 := fun q v inside => rowSmall part v (List.mem_of_mem_filter inside)
  constructor
  · intro ofs inside stored
    exact exactOne rfl (ptrRead few degree bounded finished.kept (by omega) (small p) stored)
  · intro q apart len
    unfold nodetaskEmitter
    dsimp only
    split
    · exact exactOne rfl rfl
    · refine exactOne rfl ?_
      simp only [emitIds,taskNgh]
      rw [if_pos len,microCombineIds len (small q)]
  · intro q apart many
    have read := largeRead few degree bounded finished apart part many
    unfold nodetaskEmitter
    dsimp only
    split
    · exact exactOne rfl read
    · refine exactOne rfl ?_
      simp only [emitIds,taskNgh]
      rw [if_neg (by omega)]
      exact read

/- A decoder started at a slot walks its records. -/
theorem decodeBlock (kept : Kept d file) (emit : Emitter dist) {p : Fin n} {pre post : List (List Nat)}
    {row : List Nat} (part : g.rows p = pre ++ row :: post) (some' : row ≠ []) {fuel : Nat} (enough : n ≤ fuel) :
    ∃ stop, decodeLoop emit (loadIndex (file p)).degNgh fuel (localNghEleSize g * pre.length) =
      some (slotEmits g p (outRemoteNghStartOfs g p (d.table p)) (writtenBefore (g := g) p pre) row emit
        (localNghEleSize g * pre.length) (partIds g p row),stop) ∧
      stop + 4*(nghs g row p).length = localNghEleSize g * pre.length + (d.block p pre row).length := by
  have member : row ∈ g.rows p := by rw [part]; simp
  have stored := slotInFile kept part
  rw [Nat.mul_comm] at stored
  have far : ∀ q, outRemoteNghStartOfs g p (d.table p) q + 4*(writtenBefore (g := g) p pre q).length < 2^64 := by
    intro q
    have start : outRemoteNghStartOfs g p (d.table p) q = g.partitionSize q * localNghEleSize g + 4*inSum g q p :=
      outStartSum g (d.delivered p) q
    have slots := Nat.mul_le_mul (lt_of_le_of_lt (partLeTotal g q) g.total).le
      (show localNghEleSize g ≤ 512 by unfold localNghEleSize; omega)
    have next := inSumNext (g := g) q p.isLt
    have bound := bounded q
    have before := writtenLe (q := q) part
    omega
  have lengths : ∀ q ∈ partIds g p row, (nghs g row q).length < 256 := by
    intro q _
    have all := List.length_filter_le (fun v => decide (judgePartition g v = some q)) row
    have := g.degree p row member
    unfold nghs
    omega
  have parts : (partIds g p row).length ≤ fuel := by
    have card : (partIds g p row).length ≤ n := by simpa using (partIdsNodup g p row).length_le_card
    omega
  obtain ⟨stop,decoded,ends⟩ := decodeSlot few emit (rowSmall part) far lengths partIdsLastLocal
    (partIdsSome (g.target p row member) some') parts (storedShift.mpr stored)
  refine ⟨stop,decoded,?_⟩
  by_cases own : p ∈ partIds g p row
  · rw [if_pos own] at ends
    exact ends
  · rw [if_neg own] at ends
    rw [memPartIds] at own
    have none' : (nghs g row p).length = 0 := by omega
    rw [none']
    exact ends

theorem decodeExact (finished : Finished d file) {emit : Emitter dist} {p : Fin n} {pre post : List (List Nat)}
    {row : List Nat} (part : g.rows p = pre ++ row :: post) (some' : row ≠ []) (sound : Sound d file emit p pre row)
    {fuel : Nat} (enough : n ≤ fuel) : Dispatched d file p pre row
      (decodeLoop emit (loadIndex (file p)).degNgh fuel (localNghEleSize g * pre.length)) := by
  have member : row ∈ g.rows p := by rw [part]; simp
  have stored := slotInFile finished.kept part
  rw [Nat.mul_comm] at stored
  obtain ⟨stop,decoded,ends⟩ := decodeBlock few degree bounded finished.kept emit part some' enough
  have room := Nat.mul_le_mul_left (localNghEleSize g) (slotCount part)
  rw [Nat.mul_add,Nat.mul_one] at room
  have fits : (d.block p pre row).length ≤ localNghEleSize g := slotFits g p member _ _
  have inside : localNghEleSize g * pre.length + (d.block p pre row).length ≤ localNghSize g p := by
    rw [localNghSize,Nat.mul_comm (g.partitionSize p)]
    omega
  exact ⟨_,stop,_,decoded,slotExact sound partIdsLastLocal stored inside,groupsPerm g p (g.target p row member),ends⟩

end Emissions

/- Both decoders, for every vertex of every machine, on the files of every finished
exchange. -/
theorem dispatchExact {dist : Type} [Zero dist] {n : Nat} {g : GraphParts n} (few : n ≤ 64) (degree : g.maxDegree ≤ 96)
    (nonempty : ∀ p, ∀ row ∈ g.rows p, row ≠ []) (short : ∀ p q, outRemoteNghNum g p q < 2^32) (d : Deployment g)
    {acts : List (Act n)} {s : Net n} (ok : run (step d.exchange) (start d.index (BuildSync.start 0)) acts = some s)
    (finish : ∀ a, (s.proc a).stage = .done) (isCoreMachine : Nat → Bool) (p : Fin n) {pre post : List (List Nat)}
    {row : List Nat} (part : g.rows p = pre ++ row :: post) (machineId qid : Nat) (lb : dist) (efFill : Bool)
    {fuel : Nat} (enough : n ≤ fuel) :
    Dispatched d (fun m => (s.proc m).index) p pre row (scalaGraphV3GetSubqueryTaskLb isCoreMachine
      (cumupsize g.partitionSize) (loadIndex (s.proc p).index) fuel (cumupsize g.partitionSize p + pre.length)
      qid lb efFill) ∧
    Dispatched d (fun m => (s.proc m).index) p pre row (scalaGraphV3GetNodetaskMsg isCoreMachine
      (cumupsize g.partitionSize) (loadIndex (s.proc p).index) fuel machineId qid
      (cumupsize g.partitionSize p + pre.length) : Option (List (Emit dist) × Nat)) := by
  have finished := exchangeFinished d short ok finish
  have bounded : ∀ q, inSum g q n ≤ 2^38 := fun q =>
    le_trans (inSumBound short q n) (Nat.mul_le_mul_right (2^32) few)
  obtain ⟨pid,vecs,ele,_⟩ := loadedHeader finished.kept few degree bounded p
  have some' := nonempty p row (by rw [part]; simp)
  have mine := slotCount part
  constructor
  · unfold scalaGraphV3GetSubqueryTaskLb
    dsimp only
    rw [pid,vecs,ele,if_neg (by omega),Nat.add_sub_cancel_left]
    exact decodeExact few degree bounded finished part some'
      (subquerySound few degree bounded finished isCoreMachine qid lb efFill part) enough
  · unfold scalaGraphV3GetNodetaskMsg
    rw [pid,ele,Nat.add_sub_cancel_left]
    exact decodeExact few degree bounded finished part some'
      (nodetaskSound few degree bounded finished isCoreMachine machineId qid part) enough

def threeDeploy : Deployment threeRemote :=
  deploy threeRemote (fun m => if m = 0 then [1] else [0]) threeArrivals (fun _ _ => 0) 0

-- The stored group of machine 0 is read in the file of machine 1.
theorem dispatchExactThree : ∃ acts s,
    run (step threeDeploy.exchange) (start threeDeploy.index (BuildSync.start 0)) acts = some s ∧
    Dispatched threeDeploy (fun m => (s.proc m).index) 0 [] [1,2,3] (scalaGraphV3GetSubqueryTaskLb (fun _ => true)
      (cumupsize threeRemote.partitionSize) (loadIndex (s.proc 0).index) 2 (cumupsize threeRemote.partitionSize 0 + 0)
      7 (0 : Nat) false) := by
  have ends : (run (step threeDeploy.exchange) (start threeDeploy.index (BuildSync.start 0))
      ([.begin 0,.begin 1,.post 0,.post 0,.post 0,.post 0,.deliver 0 1,.take 1,.leave 1] ++ barrierActs ++
        [.leave 0,.post 1,.post 1,.post 1] ++ barrierActs)).map
      (fun s => ((s.proc 0).stage,(s.proc 1).stage)) = some (.done,.done) := by rfl
  obtain ⟨s,ok,stages⟩ := Option.map_eq_some_iff.mp ends
  obtain ⟨first,second⟩ := Prod.mk.inj stages
  have finish : ∀ a, (s.proc a).stage = .done := by
    intro a
    match a with
    | 0 => exact first
    | 1 => exact second
  exact ⟨_,s,ok,(dispatchExact (by decide) (by decide) (by decide) (by decide) threeDeploy ok finish (fun _ => true) 0
    (show threeRemote.rows 0 = [] ++ [1,2,3] :: [] from rfl) 0 7 (0 : Nat) false (by decide)).1⟩

/- A machine with 2^26 vertices, each with the same 64 neighbours on the other machine:
its array has 2^32 ids, and expect_num is 0 there. -/
def longSize : Nat := 2^26

def longRow : List Nat := List.range' longSize 64

theorem longLengths (p : Fin 2) : (if p = 0 then List.replicate longSize longRow else List.replicate 64 [0]).length =
    if p = 0 then longSize else 64 := by
  split <;> rw [List.length_replicate]

theorem longDegrees (p : Fin 2) : ∀ row ∈ (if p = 0 then List.replicate longSize longRow else List.replicate 64 [0]),
    row.length ≤ 64 := by
  intro row member
  split at member
  · rw [List.eq_of_mem_replicate member,longRow,List.length_range']
  · rw [List.eq_of_mem_replicate member]
    decide

theorem longTargets (p : Fin 2) : ∀ row ∈ (if p = 0 then List.replicate longSize longRow else List.replicate 64 [0]),
    ∀ v ∈ row, v < cumupsize (fun p : Fin 2 => if p = 0 then longSize else 64) 2 := by
  intro row member v inside
  split at member
  · rw [List.eq_of_mem_replicate member,longRow,List.mem_range'_1] at inside
    simp only [cumupsize]
    simp
    omega
  · rw [List.eq_of_mem_replicate member,List.mem_singleton] at inside
    simp [cumupsize,inside]

theorem longTotal : cumupsize (fun p : Fin 2 => if p = 0 then longSize else 64) 2 < 2^32 := by
  simp only [cumupsize]
  simp [longSize]

def longGraph : GraphParts 2 where
  partitionSize := fun p => if p = 0 then longSize else 64
  maxDegree := 64
  medoid := 0
  rows := fun p => if p = 0 then List.replicate longSize longRow else List.replicate 64 [0]
  rowsLength := longLengths
  degree := longDegrees
  target := longTargets
  total := longTotal

theorem longOwner {v : Nat} (low : longSize ≤ v) (high : v < longSize + 64) : judgePartition longGraph v = some 1 := by
  have first : ¬v < cumupsize longGraph.partitionSize 1 := by
    simp [cumupsize,longGraph]
    omega
  have second : v < cumupsize longGraph.partitionSize 2 := by
    simp [cumupsize,longGraph]
    omega
  simp [judgePartition,List.finRange_succ,first,second]

theorem longZero : judgePartition longGraph 0 = some 0 := by
  have first : 0 < cumupsize longGraph.partitionSize 1 := by
    simp only [cumupsize,longGraph]
    exact Nat.two_pow_pos 26
  simp [judgePartition,List.finRange_succ,first]

theorem longNghs : nghs longGraph longRow 1 = longRow ∧ nghs longGraph longRow 0 = [] := by
  have owners : ∀ v ∈ longRow, judgePartition longGraph v = some 1 := by
    intro v member
    rw [longRow,List.mem_range'_1] at member
    exact longOwner member.1 member.2
  constructor
  · exact List.filter_eq_self.mpr (fun v member => by simp [owners v member])
  · exact List.filter_eq_nil_iff.mpr (fun v member => by simp [owners v member])

theorem longRowLength : longRow.length = 64 := List.length_range'

theorem longParts : partIds longGraph 0 longRow = [1] := by
  simp [partIds,List.finRange_succ,longNghs,longRowLength]

theorem longRowsOther : longGraph.rows 1 = List.replicate 64 [0] := by
  show (if (1 : Fin 2) = 0 then List.replicate longSize longRow else List.replicate 64 [0]) = _
  exact if_neg (by decide)

theorem longRows : longGraph.rows 0 = [] ++ longRow :: List.replicate (longSize-1) longRow := by
  have rows : longGraph.rows 0 = List.replicate longSize longRow := by
    show (if (0 : Fin 2) = 0 then List.replicate longSize longRow else List.replicate 64 [0]) = _
    exact if_pos rfl
  rw [rows,← List.replicate_succ,Nat.sub_add_cancel (by unfold longSize; omega)]
  rfl

theorem longOut : (outRemoteNgh longGraph 0 1).length = 2^32 ∧ outRemoteNgh longGraph 1 0 = [] := by
  have group : remoteNgh longGraph 0 longRow 1 = longRow := by
    simp [remoteNgh,longNghs,longRowLength,inlineDegBar]
  have single : remoteNgh longGraph 1 [0] 0 = [] := by
    have few := List.length_filter_le (fun v => decide (judgePartition longGraph v = some 0)) [0]
    simp only [List.length_singleton] at few
    rw [remoteNgh,if_neg]
    unfold nghs inlineDegBar
    omega
  constructor
  · rw [outRemoteNgh,longRows,List.nil_append,← List.replicate_succ,List.length_flatMap,List.map_replicate,group,List.sum_replicate,longRowLength]
    rfl
  · rw [outRemoteNgh,longRowsOther]
    refine List.flatMap_eq_nil_iff.mpr (fun row member => ?_)
    rw [List.eq_of_mem_replicate member,single]

/- Two machines with nothing in their queues. -/
def pairNet (first second : Stage) (index : Fin 2 → Mem) (channel : Fin 2 → Fin 2 → List (Chunk 2))
    (barrier : BuildSync.Net 2) : Net 2 :=
  ⟨fun m => ⟨if m = 0 then first else second,index m,[]⟩,channel,barrier⟩

theorem pairIndex (first second : Stage) (index channel barrier) (m : Fin 2) :
    ((pairNet first second index channel barrier).proc m).index = index m := rfl

theorem pairSetFirst (first second stage : Stage) (index channel barrier) :
    setStage (pairNet first second index channel barrier) 0 stage = pairNet stage second index channel barrier := by
  unfold setStage pairNet
  congr 1
  funext m
  match m with
  | 0 => rfl
  | 1 => rfl

theorem pairSetSecond (first second stage : Stage) (index channel barrier) :
    setStage (pairNet first second index channel barrier) 1 stage = pairNet first stage index channel barrier := by
  unfold setStage pairNet
  congr 1
  funext m
  match m with
  | 0 => rfl
  | 1 => rfl

/- The sending loop of machine 0 at peer 1 ends, whatever the length. -/
theorem pairPosts (x : Exchange 2) (second : Stage) (index : Fin 2 → Mem) (barrier : BuildSync.Net 2)
    (left sendCnt : Nat) (rest : (x.out 0 1).length - sendCnt ≤ left) (channel : Fin 2 → Fin 2 → List (Chunk 2)) :
    ∃ k channel', run (step x) (pairNet (.send 1 sendCnt) second index channel barrier) (List.replicate k (.post 0)) =
      some (pairNet (.send 2 0) second index channel' barrier) := by
  have next : step x (pairNet (.send 1 sendCnt) second index channel barrier) (.post 0) =
      some (postNext x (pairNet (.send 1 sendCnt) second index channel barrier) 0 1 sendCnt) := rfl
  have other : (⟨1,by decide⟩ : Fin 2) ≠ 0 := by decide
  unfold postNext at next
  rw [dif_pos (by decide),if_neg other] at next
  simp only [Fin.mk_one] at next
  by_cases more : sendCnt < (x.out 0 1).length
  · cases left with
    | zero => omega
    | succ left =>
      have count : 0 < maxTransNum ((x.out 0 1).length - sendCnt) := by
        unfold maxTransNum maxQuerybufferSize
        omega
      rw [if_pos more,pairSetFirst] at next
      obtain ⟨k,channel',ok⟩ := pairPosts x second index barrier left
        (sendCnt + maxTransNum ((x.out 0 1).length - sendCnt)) (by omega) _
      exact ⟨k+1,channel',(runCons next _).trans ok⟩
  · rw [if_neg more,pairSetFirst] at next
    exact ⟨1,channel,runCons next _⟩

theorem pairExt {s : Net 2} {first second : Stage} {index channel barrier}
    (seen : (s.proc 0,s.proc 1,s.channel,s.barrier) = (⟨first,index 0,[]⟩,⟨second,index 1,[]⟩,channel,barrier)) :
    s = pairNet first second index channel barrier := by
  cases s with
  | mk proc channel' barrier' =>
    simp only [Prod.mk.injEq] at seen
    obtain ⟨zero,one,rfl,rfl⟩ := seen
    unfold pairNet
    congr 1
    funext m
    match m with
    | 0 => exact zero
    | 1 => exact one

def syncActs : List (BuildSync.Act 2) :=
  [.enter 0,.enter 1,.send 0,.send 1,.deliver 0 0,.deliver 1 0,.scan 0,.scan 1,.ret 0,.ret 1]

def afterSync (b : BuildSync.Net 2) : BuildSync.Net 2 := (run BuildSync.step b syncActs).getD b

theorem pairSync (x : Exchange 2) (index channel) :
    run (step x) (pairNet (.sync 0) (.sync 0) index channel (BuildSync.start 0)) barrierActs =
      some (pairNet (.recv 1 0) (.send 0 0) index channel (afterSync (BuildSync.start 0))) := by
  have ends : (run (step x) (pairNet (.sync 0) (.sync 0) index channel (BuildSync.start 0)) barrierActs).map
      (fun s => (s.proc 0,s.proc 1,s.channel,s.barrier)) =
      some (⟨.recv 1 0,index 0,[]⟩,⟨.send 0 0,index 1,[]⟩,channel,afterSync (BuildSync.start 0)) := by rfl
  obtain ⟨s,ok,seen⟩ := Option.map_eq_some_iff.mp ends
  rw [ok,pairExt seen]

theorem pairSyncLast (x : Exchange 2) (index channel) :
    run (step x) (pairNet (.sync 1) (.sync 1) index channel (afterSync (BuildSync.start 0))) barrierActs =
      some (pairNet .done .done index channel (afterSync (afterSync (BuildSync.start 0)))) := by
  have ends : (run (step x) (pairNet (.sync 1) (.sync 1) index channel (afterSync (BuildSync.start 0)))
      barrierActs).map (fun s => (s.proc 0,s.proc 1,s.channel,s.barrier)) =
      some (⟨.done,index 0,[]⟩,⟨.done,index 1,[]⟩,channel,afterSync (afterSync (BuildSync.start 0))) := by rfl
  obtain ⟨s,ok,seen⟩ := Option.map_eq_some_iff.mp ends
  rw [ok,pairExt seen]

theorem leaveAt (x : Exchange n) {s : Net n} {a : Fin n} {p cnt : Nat} (stage : (s.proc a).stage = .recv p cnt)
    (known : p < n) (enough : ¬cnt < expectNum x a ⟨p,known⟩) : step x s (.leave a) = some (setStage s a (.sync p)) := by
  simp only [step,stage]
  rw [dif_pos known,if_neg enough]

theorem postAt (x : Exchange n) {s : Net n} {a : Fin n} {m cnt : Nat} (stage : (s.proc a).stage = .send m cnt) :
    step x s (.post a) = some (postNext x s a m cnt) := by
  simp only [step,stage]

/- All of machine 0's array is posted and none of it is stored: machine 1 expects
nothing. -/
theorem longRun (x : Exchange 2) (index : Fin 2 → Mem) (long : (x.out 0 1).length = 2^32) (none' : x.out 1 0 = [])
    (round : x.round = 0) : ∃ acts channel barrier,
    run (step x) (start index (BuildSync.start 0)) acts = some (pairNet .done .done index channel barrier) := by
  have begun : start index (BuildSync.start 0) = pairNet .before .before index (fun _ _ => []) (BuildSync.start 0) :=
    pairExt rfl
  have first : ∀ second channel, step x (pairNet .before second index channel (BuildSync.start 0)) (.begin 0) =
      some (pairNet (.send 0 0) second index channel (BuildSync.start 0)) := by
    intro second channel
    unfold step
    dsimp only
    rw [if_pos ⟨rfl,rfl,round.symm⟩,pairSetFirst]
    rfl
  have second : ∀ first channel, step x (pairNet first .before index channel (BuildSync.start 0)) (.begin 1) =
      some (pairNet first (.recv 0 0) index channel (BuildSync.start 0)) := by
    intro first channel
    unfold step
    dsimp only
    rw [if_pos ⟨rfl,rfl,round.symm⟩,pairSetSecond]
    rfl
  have skip : ∀ first channel, step x (pairNet first (.recv 0 0) index channel (BuildSync.start 0)) (.leave 1) =
      some (pairNet first (.sync 0) index channel (BuildSync.start 0)) := by
    intro first channel
    have zero : ¬0 < expectNum x 1 0 := by simp [expectNum,long]
    rw [leaveAt x rfl (by decide) zero,pairSetSecond]
  have own : ∀ second channel, step x (pairNet (.send 0 0) second index channel (BuildSync.start 0)) (.post 0) =
      some (pairNet (.send 1 0) second index channel (BuildSync.start 0)) := by
    intro second channel
    exact (congrArg some (pairSetFirst _ _ _ _ _ _) : some (setStage _ 0 (.send 1 0)) = _)
  obtain ⟨k,channel,posts⟩ := pairPosts x (.sync 0) index (BuildSync.start 0) (x.out 0 1).length 0 (by omega)
    (fun _ _ => [])
  have ended : step x (pairNet (.send 2 0) (.sync 0) index channel (BuildSync.start 0)) (.post 0) =
      some (pairNet (.sync 0) (.sync 0) index channel (BuildSync.start 0)) :=
    (congrArg some (pairSetFirst _ _ _ _ _ _) : some (setStage _ 0 (.sync 0)) = _)
  have skipped : step x (pairNet (.recv 1 0) (.send 0 0) index channel (afterSync (BuildSync.start 0))) (.leave 0) =
      some (pairNet (.sync 1) (.send 0 0) index channel (afterSync (BuildSync.start 0))) := by
    have zero : ¬0 < expectNum x 0 1 := by simp [expectNum,none']
    rw [leaveAt x rfl (by decide) zero,pairSetFirst]
  have nothing : step x (pairNet (.sync 1) (.send 0 0) index channel (afterSync (BuildSync.start 0))) (.post 1) =
      some (pairNet (.sync 1) (.send 1 0) index channel (afterSync (BuildSync.start 0))) := by
    have empty : ¬0 < (x.out 1 0).length := by simp [none']
    rw [postAt x rfl]
    unfold postNext
    rw [dif_pos (by decide),if_neg (by decide),Fin.zero_eta,if_neg empty,pairSetSecond]
  have self : step x (pairNet (.sync 1) (.send 1 0) index channel (afterSync (BuildSync.start 0))) (.post 1) =
      some (pairNet (.sync 1) (.send 2 0) index channel (afterSync (BuildSync.start 0))) :=
    (congrArg some (pairSetSecond _ _ _ _ _ _) : some (setStage _ 1 (.send 2 0)) = _)
  have closed : step x (pairNet (.sync 1) (.send 2 0) index channel (afterSync (BuildSync.start 0))) (.post 1) =
      some (pairNet (.sync 1) (.sync 1) index channel (afterSync (BuildSync.start 0))) :=
    (congrArg some (pairSetSecond _ _ _ _ _ _) : some (setStage _ 1 (.sync 1)) = _)
  have opening : run (step x) (pairNet .before .before index (fun _ _ => []) (BuildSync.start 0))
      [.begin 0,.begin 1,.leave 1,.post 0] =
      some (pairNet (.send 1 0) (.sync 0) index (fun _ _ => []) (BuildSync.start 0)) := by
    rw [runCons (first _ _),runCons (second _ _),runCons (skip _ _),runCons (own _ _),runNil]
  have closing : run (step x) (pairNet (.recv 1 0) (.send 0 0) index channel (afterSync (BuildSync.start 0)))
      [.leave 0,.post 1,.post 1,.post 1] =
      some (pairNet (.sync 1) (.sync 1) index channel (afterSync (BuildSync.start 0))) := by
    rw [runCons skipped,runCons nothing,runCons self,runCons closed,runNil]
  rw [begun]
  exact ⟨_,channel,_,runJoin opening (runJoin posts (runJoin (runCons ended []) (runJoin (pairSync x index channel)
    (runJoin closing (pairSyncLast x index channel)))))⟩

def longDeploy : Deployment longGraph :=
  deploy longGraph (fun m => if m = 0 then [1] else [0]) threeArrivals (fun _ _ => 0) 0

theorem inSumTwo {g : GraphParts 2} {q : Fin 2} {a b : Nat} (first : inNum g q 0 = a) (second : inNum g q 1 = b) :
    inSum g q 2 = a+b := by
  rw [inSum,inSum,inSum,first,second,Nat.zero_add]

theorem longBounded (q : Fin 2) : inSum longGraph q 2 ≤ 2^38 := by
  have zero : inSum longGraph 0 2 = 0+0 :=
    inSumTwo (inNumOwn longGraph 0) ((inNumAt (g := longGraph) 0 1).trans (congrArg List.length longOut.2))
  have one : inSum longGraph 1 2 = 2^32+0 :=
    inSumTwo ((inNumAt (g := longGraph) 1 0).trans longOut.1) (inNumOwn longGraph 1)
  rcases Fin.exists_fin_two.mp ⟨q,rfl⟩ with rfl | rfl
  · exact zero.trans_le (by decide)
  · exact one.trans_le (by decide)

theorem longDegree : longGraph.maxDegree ≤ 96 := by
  unfold longGraph
  dsimp only
  decide

theorem longEmits {ofs : Nat} {startOfs : Fin 2 → Nat} {out : Fin 2 → List Nat} :
    slotEmits longGraph 0 startOfs out longRow (subqueryEmitter (fun _ => true) (cumupsize longGraph.partitionSize)
      0 7 (0 : Nat) false) ofs (partIds longGraph 0 longRow) =
    [.coreLargeNgh 1 (startOfs 1 + 4*(out 1).length) 64] := by
  rw [longParts,slotEmits,if_neg (by decide),longNghs.1,longRowLength,if_neg (by decide)]
  rfl

/- The file of machine 1 still has the zeros of malloc where machine 0's group should be. -/
theorem longRead (ofs : Nat) (beyond : localNghSize longGraph 1 ≤ ofs) :
    readLe (loadIndex (longDeploy.index 1)).degNgh ofs 4 = 0 := by
  have zero : ∀ i, ofs ≤ i → (loadIndex (longDeploy.index 1)).degNgh i = 0 := by
    intro i later
    exact indexBeyond longDeploy 1 (i := indexMetaLen + i) (by omega)
  simp only [readLe,zero ofs le_rfl,zero (ofs+1) (by omega),zero (ofs+1+1) (by omega),zero (ofs+1+1+1) (by omega)]

theorem longArrayLost : ∃ acts s,
    run (step longDeploy.exchange) (start longDeploy.index (BuildSync.start 0)) acts = some s ∧
    (∀ a, (s.proc a).stage = .done) ∧ longGraph.maxDegree ≤ 96 ∧ (∀ p, ∀ row ∈ longGraph.rows p, row ≠ []) ∧
    longGraph.rows 0 = [] ++ longRow :: List.replicate (longSize-1) longRow ∧
    ¬Dispatched longDeploy (fun m => (s.proc m).index) 0 [] longRow (scalaGraphV3GetSubqueryTaskLb (fun _ => true)
      (cumupsize longGraph.partitionSize) (loadIndex (s.proc 0).index) 2 (cumupsize longGraph.partitionSize 0 + 0)
      7 (0 : Nat) false) := by
  obtain ⟨acts,channel,barrier,ok⟩ := longRun longDeploy.exchange longDeploy.index
    (by rw [exchangeOut]; exact longOut.1) (by rw [exchangeOut]; exact longOut.2) rfl
  refine ⟨acts,_,ok,?_,?_,?_,longRows,?_⟩
  · intro a
    match a with
    | 0 => rfl
    | 1 => rfl
  · exact longDegree
  · intro p row member
    match p with
    | 0 =>
      rw [longRows,List.nil_append,← List.replicate_succ] at member
      rw [List.eq_of_mem_replicate member]
      exact List.ne_nil_of_length_pos (by rw [longRowLength]; decide)
    | 1 =>
      rw [longRowsOther] at member
      rw [List.eq_of_mem_replicate member]
      exact List.cons_ne_nil 0 []
  · simp only [pairIndex]
    rintro ⟨emits,stop,ids,decoded,⟨read,_⟩,_⟩
    have kept : Kept longDeploy longDeploy.index := fun _ _ _ => rfl
    have some' : longRow ≠ [] := List.ne_nil_of_length_pos (by rw [longRowLength]; decide)
    obtain ⟨pid,vecs,ele,_⟩ := loadedHeader kept (by decide) longDegree longBounded 0
    obtain ⟨stop',block,_⟩ := decodeBlock (by decide) longDegree longBounded kept
      (subqueryEmitter (fun _ => true) (cumupsize longGraph.partitionSize) 0 7 (0 : Nat) false) longRows some'
      (le_refl 2)
    have mine := slotCount longRows
    have own : (loadIndex (longDeploy.index 0)).partitionId = 0 := pid
    rw [scalaGraphV3GetSubqueryTaskLb,own,vecs,ele,if_neg (by simp only [List.length_nil] at mine; omega),Nat.add_sub_cancel_left] at decoded
    obtain ⟨rfl,_⟩ := Prod.mk.inj (Option.some.inj (block.symm.trans decoded))
    rw [longEmits] at read
    obtain ⟨found,ids',owners⟩ := read _ (List.mem_singleton.mpr rfl)
    have file : graphs (fun m => longDeploy.index m) 1 = loadIndex (longDeploy.index 1) := graphsAt _ 1
    rw [emitIds,file,scalaGraphV3GetNghPtr] at ids'
    split at ids'
    · cases ids'
    · have start := outStartSum longGraph (longDeploy.delivered 0) 1
      have zero := longRead (outRemoteNghStartOfs longGraph 0 (longDeploy.table 0) 1 +
        4*(writtenBefore (g := longGraph) 0 [] 1).length) (by
          unfold localNghSize Deployment.table
          omega)
      have member := readWordsHead (loadIndex (longDeploy.index 1)).degNgh
        (outRemoteNghStartOfs longGraph 0 (longDeploy.table 0) 1 +
          4*(writtenBefore (g := longGraph) 0 [] 1).length) (show 0 < 64 by decide)
      rw [Option.some.inj ids',zero] at member
      have owner := owners 0 member
      rw [longZero] at owner
      exact absurd (Option.some.inj owner) Nat.zero_ne_one

end CoTra.V3Dispatch
