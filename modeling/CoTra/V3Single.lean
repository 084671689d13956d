import CoTra.V3Files

/-! The single-machine V3 conversion (scala_graph.h: transfer_b1_to_scala_v3). It
reads the whole kmeans B1 graph, whose elements have room for 48 neighbours, and
writes the files of all partitions in one pass: slots of partition p go to its own
file, stored groups to the running end of the other's. -/
namespace CoTra.V3Single
open Indices Memory Runs V3Index V3Layout V3Files NghExchange

-- max_deg; also maxM0_ of the 332-byte element.
def maxDeg : Nat := 48

def eleSize (n : Nat) : Nat := maxDeg*4 + n*2

variable {n : Nat} (g : GraphParts n)

/- data_level0_memory_: the neighbours of every position, partition after partition. -/
def wholeGraph : List (List Nat) := (List.finRange n).flatMap g.rows

def countVertex (num : Fin n → Nat) (v : List Nat × Nat) : Fin n → Nat := fun p =>
  if inlineDegBar < cnt g v.1 p ∧ judgePartition g v.2 ≠ some p then num p + cnt g v.1 p else num p

def remoteNghNum (data : List (List Nat)) : Fin n → Nat := data.zipIdx.foldl (countVertex g) (fun _ => 0)

def remoteBase (p : Fin n) : Nat := indexMetaLen + g.partitionSize p * eleSize n

def expectSize (data : List (List Nat)) (p : Fin n) : Nat := remoteBase g p + remoteNghNum g data p * 4

structure Conv (n : Nat) where
  indexPtr : Fin n → Mem
  localNghOfs : Fin n → Nat
  remoteNghOfs : Fin n → Nat

def setIndex (s : Conv n) (p : Fin n) (mem : Mem) : Conv n :=
  { s with indexPtr := Function.update s.indexPtr p mem }

-- The group goes behind what the file of q holds already.
def storeRemote (s : Conv n) (q : Fin n) (ids : List Nat) : Conv n :=
  { s with
    indexPtr := Function.update s.indexPtr q (memcpy (s.indexPtr q) (s.remoteNghOfs q) (wordBytes ids))
    remoteNghOfs := Function.update s.remoteNghOfs q (s.remoteNghOfs q + 4*ids.length) }

/- One record of a vertex of p, at local_ofs. -/
def writeNgh (p : Fin n) (row : List Nat) (last : Bool) (q : Fin n) (s : Conv n) (localOfs : Nat) :
    Option (Conv n × Nat) :=
  let ids := nghs g row q
  let head := memcpy (s.indexPtr p) localOfs (leBytes 2 (recordMsg last p q ids.length))
  let next : Conv n × Nat :=
    if q ≠ p then
      if ids.length ≤ inlineDegBar then (setIndex s p (memcpy head (localOfs+2) (wordBytes ids)),localOfs+2+4*ids.length)
      else (storeRemote (setIndex s p (memcpy head (localOfs+2) (leBytes 8 (s.remoteNghOfs q - indexMetaLen)))) q ids,
        localOfs+2+8)
    else (setIndex s p (memcpy head (localOfs+2) (wordBytes ids)),localOfs+2+4*ids.length)
  if s.localNghOfs p + eleSize n < next.2 then none else some next

def writeNghs (p : Fin n) (row : List Nat) : List (Fin n) → Conv n → Nat → Option (Conv n × Nat)
  | [], s, localOfs => some (s,localOfs)
  | q :: rest, s, localOfs =>
    (writeNgh g p row rest.isEmpty q s localOfs).bind (fun next => writeNghs p row rest next.1 next.2)

def writeVertex (p : Fin n) (s : Conv n) (row : List Nat) : Option (Conv n) := do
  let next ← writeNghs g p row (partIds g p row) s (s.localNghOfs p)
  some { next.1 with localNghOfs := Function.update next.1.localNghOfs p (next.1.localNghOfs p + eleSize n) }

def metaBytes (enterpointNode num : Nat) (p : Fin n) : List Nat :=
  leBytes 4 p ++ leBytes 4 n ++ leBytes 4 (g.partitionSize p) ++ leBytes 4 (eleSize n) ++
    leBytes 8 enterpointNode ++ leBytes 8 num

def writeMeta (data : List (List Nat)) (enterpointNode : Nat) (s : Conv n) (p : Fin n) : Conv n :=
  { setIndex s p (memcpy (s.indexPtr p) (s.localNghOfs p) (metaBytes g enterpointNode (remoteNghNum g data p) p)) with
    localNghOfs := Function.update s.localNghOfs p (s.localNghOfs p + indexMetaLen) }

-- vid from cumupsize[p] to cumupsize[p + 1].
def partRows (data : List (List Nat)) (p : Fin n) : List (List Nat) :=
  (data.drop (cumupsize g.partitionSize p)).take (cumupsize g.partitionSize (p+1) - cumupsize g.partitionSize p)

def writePart (data : List (List Nat)) (enterpointNode : Nat) (s : Conv n) (p : Fin n) : Option (Conv n) :=
  (partRows g data p).foldlM (writeVertex g p) (writeMeta g data enterpointNode s p)

def transferB1ToScalaV3 (data : List (List Nat)) (enterpointNode : Nat) (malloc : Fin n → Mem) : Option (Conv n) := do
  let s ← (List.finRange n).foldlM (writePart g data enterpointNode) ⟨malloc,fun _ => 0,remoteBase g⟩
  if ∀ p, s.remoteNghOfs p = expectSize g data p then some s else none

/- The position of a vertex tells its partition. -/
theorem judgeAt {p : Fin n} {i : Nat} (inside : i < g.partitionSize p) :
    judgePartition g (cumupsize g.partitionSize p + i) = some p := by
  have upper : cumupsize g.partitionSize (p+1) = cumupsize g.partitionSize p + g.partitionSize p := by
    rw [cumupsize,dif_pos p.isLt]
  have known : cumupsize g.partitionSize p + i < cumupsize g.partitionSize n :=
    lt_of_lt_of_le (by omega) (cumupsizeMono g.partitionSize (show p.val+1 ≤ n from p.isLt))
  obtain ⟨q,owner⟩ := judgeKnown g known
  have below := ownerAbove owner
  have above := ownerBelow owner
  rcases lt_trichotomy q p with less | rfl | more
  · have mono := cumupsizeMono g.partitionSize (show q.val+1 ≤ p.val from less)
    omega
  · exact owner
  · have mono := cumupsizeMono g.partitionSize (show p.val+1 ≤ q.val from more)
    omega

def wholeBefore (k : Nat) : List (List Nat) := ((List.finRange n).take k).flatMap g.rows

theorem wholeBeforeNext {k : Nat} (known : k < n) : wholeBefore g (k+1) = wholeBefore g k ++ g.rows ⟨k,known⟩ :=
  joinedNext g.rows known

theorem wholeBeforeLength {k : Nat} (known : k ≤ n) : (wholeBefore g k).length = cumupsize g.partitionSize k := by
  induction k with
  | zero => rfl
  | succ k ih => rw [wholeBeforeNext g known,List.length_append,ih (by omega),g.rowsLength,cumupsize,dif_pos (show k < n from known)]

theorem wholeSplit (k : Nat) : wholeGraph g = wholeBefore g k ++ ((List.finRange n).drop k).flatMap g.rows :=
  joinedSplit g.rows k

/- The loop over the positions of p meets the rows of p. -/
theorem partRowsWhole (p : Fin n) : partRows g (wholeGraph g) p = g.rows p := by
  have size : cumupsize g.partitionSize (p+1) - cumupsize g.partitionSize p = (g.rows p).length := by
    rw [cumupsize,dif_pos p.isLt,g.rowsLength,Nat.add_sub_cancel_left]
  have place : cumupsize g.partitionSize p = (wholeBefore g p).length := (wholeBeforeLength g p.isLt.le).symm
  rw [partRows,size,place,wholeSplit g (p+1),wholeBeforeNext g p.isLt,List.append_assoc,List.drop_left,List.take_left]

theorem countPart (p : Fin n) (num : Fin n → Nat) :
    ((g.rows p).zipIdx (cumupsize g.partitionSize p)).foldl (countVertex g) num = (g.rows p).foldl (countRow g p) num := by
  have upTo : ∀ (pre rows : List (List Nat)) (num : Fin n → Nat), pre ++ rows = g.rows p →
      (rows.zipIdx (cumupsize g.partitionSize p + pre.length)).foldl (countVertex g) num = rows.foldl (countRow g p) num := by
    intro pre rows
    induction rows generalizing pre with
    | nil => intro num _; rfl
    | cons row rest ih =>
      intro num split
      have inside : pre.length < g.partitionSize p := by
        rw [← g.rowsLength,← split]
        simp
      have same : countVertex g num (row,cumupsize g.partitionSize p + pre.length) = countRow g p num row := by
        funext q
        simp only [countVertex,countRow,judgeAt g inside,ne_eq,Option.some.injEq,eq_comm (a := p)]
      have later := ih (pre ++ [row]) (countRow g p num row) (by simpa using split)
      rw [List.length_append,List.length_singleton,← Nat.add_assoc] at later
      rw [List.zipIdx_cons,List.foldl_cons,List.foldl_cons,same,later]
  exact upTo [] (g.rows p) num rfl

/- The whole graph is counted as the machines count together. -/
theorem remoteNghNumSum (q : Fin n) : remoteNghNum g (wholeGraph g) q = inSum g q n := by
  have upTo : ∀ k, k ≤ n → ((wholeBefore g k).zipIdx.foldl (countVertex g) (fun _ => 0)) q = inSum g q k := by
    intro k
    induction k with
    | zero => intro _; rfl
    | succ k ih =>
      intro known
      rw [wholeBeforeNext g known,List.zipIdx_append,List.foldl_append,Nat.zero_add,wholeBeforeLength g (by omega),
        countPart g ⟨k,known⟩,countFold,ih (by omega),inSum,inNumAt q ⟨k,known⟩]
      rfl
  have all := upTo n le_rfl
  rwa [wholeBefore,List.take_of_length_le (by simp)] at all

theorem memcpyAppend (mem : Mem) (ofs : Nat) (xs ys : List Nat) :
    memcpy (memcpy mem ofs xs) (ofs+xs.length) ys = memcpy mem ofs (xs ++ ys) := by
  funext i
  unfold memcpy
  by_cases before : ofs ≤ i
  · by_cases inside : i < ofs+xs.length
    · have first : ¬ofs+xs.length ≤ i := by omega
      have place : i-ofs < xs.length := by omega
      simp [before,first,List.getD_eq_getElem?_getD,List.getElem?_append_left place]
    · have second : ofs+xs.length ≤ i := by omega
      have behind : xs.length ≤ i-ofs := by omega
      have place : i-(ofs+xs.length) = i-ofs-xs.length := by omega
      simp [before,second,place,List.getD_eq_getElem?_getD,List.getElem?_append_right behind,List.getElem?_eq_none behind]
  · have early : ¬ofs+xs.length ≤ i := by omega
    simp [before,early]

theorem memcpyNil (mem : Mem) (ofs : Nat) : memcpy mem ofs [] = mem := by
  funext i
  simp [memcpy]

theorem storeNothing (s : Conv n) (q : Fin n) : storeRemote s q [] = s := by
  simp [storeRemote,wordBytes,memcpyNil]

/- A record of p: the same bytes as on machine p, with the end of the other's file as
offset. -/
def recordAt (s : Conv n) (p : Fin n) (row : List Nat) (last : Bool) (q : Fin n) : List Nat :=
  recordBytes g p (fun q => s.remoteNghOfs q - indexMetaLen) (fun _ => []) row last q

theorem writeNghSpec {p q : Fin n} {row last localOfs} {s : Conv n}
    (fits : localOfs + (recordAt g s p row last q).length ≤ s.localNghOfs p + eleSize n) :
    writeNgh g p row last q s localOfs =
      some (storeRemote (setIndex s p (memcpy (s.indexPtr p) localOfs (recordAt g s p row last q))) q
        (remoteNgh g p row q),localOfs + (recordAt g s p row last q).length) := by
  unfold recordAt recordBytes remoteNgh at *
  unfold writeNgh
  by_cases own : q = p
  · subst q
    simp only [ne_eq,not_true_eq_false,and_false,if_false,List.length_append,leBytesLength,wordBytesLength] at fits ⊢
    rw [if_neg (by omega)]
    rw [storeNothing,← memcpyAppend,leBytesLength,Nat.add_assoc]
  · by_cases small : (nghs g row q).length ≤ inlineDegBar
    · have few : ¬inlineDegBar < (nghs g row q).length := by omega
      simp only [ne_eq,own,not_false_eq_true,if_true,small,few,false_and,if_false,List.length_append,leBytesLength,
        wordBytesLength] at fits ⊢
      rw [if_neg (by omega)]
      rw [storeNothing,← memcpyAppend,leBytesLength,Nat.add_assoc]
    · have many : inlineDegBar < (nghs g row q).length := by omega
      simp only [ne_eq,own,not_false_eq_true,if_true,small,many,and_true,if_false,List.length_append,leBytesLength,
        List.length_nil,Nat.mul_zero,Nat.add_zero] at fits ⊢
      rw [if_neg (by omega),← memcpyAppend,leBytesLength,Nat.add_assoc]

def slotAt (s : Conv n) (p : Fin n) (row : List Nat) (qs : List (Fin n)) : List Nat :=
  slotBytes g p (fun q => s.remoteNghOfs q - indexMetaLen) (fun _ => []) row qs

theorem remoteOwn (p : Fin n) (row : List Nat) : remoteNgh g p row p = [] := by
  simp [remoteNgh]

/- What writing the records of one vertex of p does: its bytes are in the file of p, and
every other file grows at its end. -/
structure Grown (p : Fin n) (bytes : List Nat) (localOfs : Nat) (ids : Fin n → List Nat) (s t : Conv n) : Prop where
  own : t.indexPtr p = memcpy (s.indexPtr p) localOfs bytes
  other : ∀ q, q ≠ p → t.indexPtr q = memcpy (s.indexPtr q) (s.remoteNghOfs q) (wordBytes (ids q))
  localNghOfs : t.localNghOfs = s.localNghOfs
  remoteNghOfs : ∀ q, t.remoteNghOfs q = s.remoteNghOfs q + 4*(ids q).length

theorem recordGrown (s : Conv n) (p q : Fin n) (row : List Nat) (localOfs : Nat) (bytes : List Nat) :
    Grown p bytes localOfs (fun x => if x = q then remoteNgh g p row x else []) s
      (storeRemote (setIndex s p (memcpy (s.indexPtr p) localOfs bytes)) q (remoteNgh g p row q)) := by
  constructor
  · by_cases own : q = p
    · subst q
      rw [remoteOwn,storeNothing]
      simp [setIndex]
    · simp [storeRemote,setIndex,Ne.symm own]
  · intro x other
    by_cases here : x = q
    · subst x
      simp [storeRemote,setIndex,other]
    · simp [storeRemote,setIndex,other,here,wordBytes,memcpyNil]
  · rfl
  · intro x
    by_cases here : x = q
    · subst x
      simp [storeRemote,setIndex]
    · simp [storeRemote,setIndex,here]

theorem writeNghsSpec {p : Fin n} {row : List Nat} {qs : List (Fin n)} (distinct : qs.Nodup) {s : Conv n} {localOfs : Nat}
    (fits : localOfs + (slotAt g s p row qs).length ≤ s.localNghOfs p + eleSize n) :
    ∃ t, writeNghs g p row qs s localOfs = some (t,localOfs + (slotAt g s p row qs).length) ∧
      Grown p (slotAt g s p row qs) localOfs (fun q => if q ∈ qs then remoteNgh g p row q else []) s t := by
  induction qs generalizing s localOfs with
  | nil =>
    refine ⟨s,rfl,?_,?_,rfl,?_⟩
    · rw [slotAt,slotBytes,memcpyNil]
    · intro q _
      simp [wordBytes,memcpyNil]
    · intro q
      simp
  | cons q rest ih =>
    obtain ⟨fresh,distinct⟩ := List.nodup_cons.mp distinct
    have whole : slotAt g s p row (q :: rest) = recordAt g s p row rest.isEmpty q ++ slotAt g s p row rest := rfl
    rw [whole,List.length_append] at fits ⊢
    have grown := recordGrown g s p q row localOfs (recordAt g s p row rest.isEmpty q)
    have later : slotAt g (storeRemote (setIndex s p (memcpy (s.indexPtr p) localOfs
        (recordAt g s p row rest.isEmpty q))) q (remoteNgh g p row q)) p row rest = slotAt g s p row rest := by
      refine slotBytesOffset g (fun x member => ?_)
      rw [grown.remoteNghOfs,if_neg (ne_of_mem_of_not_mem member fresh)]
      rfl
    have room : localOfs + (recordAt g s p row rest.isEmpty q).length + (slotAt g (storeRemote (setIndex s p
        (memcpy (s.indexPtr p) localOfs (recordAt g s p row rest.isEmpty q))) q (remoteNgh g p row q)) p row rest).length ≤
        s.localNghOfs p + eleSize n := by
      rw [later]
      omega
    obtain ⟨t,ok,more⟩ := ih distinct room
    rw [later] at ok more
    refine ⟨t,?_,?_,?_,?_,?_⟩
    · rw [writeNghs,writeNghSpec g (by omega),Option.bind_some,ok,Nat.add_assoc]
    · rw [more.own,grown.own,memcpyAppend]
    · intro x other
      rw [more.other x other,grown.other x other,grown.remoteNghOfs]
      by_cases here : x = q
      · subst x
        simp [fresh,wordBytes,memcpyNil]
      · simp [here,wordBytes,memcpyNil]
    · rw [more.localNghOfs,grown.localNghOfs]
    · intro x
      rw [more.remoteNghOfs,grown.remoteNghOfs]
      by_cases here : x = q
      · subst x
        simp [fresh]
      · simp [here]

theorem slotRoom {p : Fin n} {row : List Nat} (short : row.length ≤ maxDeg) (known : row ∈ g.rows p) (s : Conv n) :
    (slotAt g s p row (partIds g p row)).length ≤ eleSize n := by
  have bytes := slotLength g p (fun q => s.remoteNghOfs q - indexMetaLen) (fun _ => []) row (partIds g p row)
  have parts : (partIds g p row).length ≤ n := by
    simpa using (partIdsNodup g p row).length_le_card
  have ids := (groupsPerm g p (g.target p row known)).length_eq
  unfold slotAt eleSize
  omega

theorem writeVertexSpec {p : Fin n} {row : List Nat} (short : row.length ≤ maxDeg) (known : row ∈ g.rows p) (s : Conv n) :
    ∃ t, writeVertex g p s row =
        some { t with localNghOfs := Function.update s.localNghOfs p (s.localNghOfs p + eleSize n) } ∧
      Grown p (slotAt g s p row (partIds g p row)) (s.localNghOfs p) (remoteNgh g p row) s t := by
  have room : s.localNghOfs p + (slotAt g s p row (partIds g p row)).length ≤ s.localNghOfs p + eleSize n :=
    Nat.add_le_add_left (slotRoom g short known s) _
  obtain ⟨t,ok,grown⟩ := writeNghsSpec g (partIdsNodup g p row) room
  have all : (fun q => if q ∈ partIds g p row then remoteNgh g p row q else []) = remoteNgh g p row := by
    funext q
    exact @remoteAll n g p row q []
  rw [all] at grown
  refine ⟨t,?_,grown⟩
  unfold writeVertex
  rw [ok]
  simp only [Option.bind_eq_bind,Option.bind_some,grown.localNghOfs]

/- What a machine's file says of a vertex, when slots have `ele` bytes. -/
def slotOf (ele : Nat) (p : Fin n) (pre : List (List Nat)) (row : List Nat) : List Nat :=
  slotBytes g p (fun q => g.partitionSize q * ele + 4*inSum g q p) (writtenBefore (g := g) p pre) row (partIds g p row)

/- What writing some rows of p does. -/
structure Appended (p : Fin n) (rows : List (List Nat)) (s t : Conv n) : Prop where
  other : ∀ q, q ≠ p →
    t.indexPtr q = memcpy (s.indexPtr q) (s.remoteNghOfs q) (wordBytes (writtenBefore (g := g) p rows q))
  remoteNghOfs : ∀ q, t.remoteNghOfs q = s.remoteNghOfs q + 4*(writtenBefore (g := g) p rows q).length
  otherOfs : ∀ q, q ≠ p → t.localNghOfs q = s.localNghOfs q
  outside : ∀ i, i < s.localNghOfs p ∨ s.localNghOfs p + rows.length*eleSize n ≤ i → t.indexPtr p i = s.indexPtr p i
  slots : ∀ pre row post, rows = pre ++ row :: post → Stored (t.indexPtr p) (s.localNghOfs p + pre.length*eleSize n)
    (slotBytes g p (fun q => s.remoteNghOfs q - indexMetaLen) (writtenBefore (g := g) p pre) row (partIds g p row))

theorem writeVerticesSpec {p : Fin n} {rows : List (List Nat)} (short : ∀ row ∈ rows, row.length ≤ maxDeg)
    (known : ∀ row ∈ rows, row ∈ g.rows p) {s : Conv n} (above : ∀ q, indexMetaLen ≤ s.remoteNghOfs q) :
    ∃ t, rows.foldlM (writeVertex g p) s = some t ∧ Appended g p rows s t := by
  induction rows generalizing s with
  | nil =>
    refine ⟨s,rfl,?_,?_,?_,?_,?_⟩
    · intro q _
      simp [writtenBefore,wordBytes,memcpyNil]
    · intro q
      simp [writtenBefore]
    · intro q _
      rfl
    · intro i _
      rfl
    · intro pre row post split
      simp at split
  | cons first rest ih =>
    obtain ⟨u,ok,grown⟩ := writeVertexSpec g (short first List.mem_cons_self) (known first List.mem_cons_self) s
    have room := slotRoom g (short first List.mem_cons_self) (known first List.mem_cons_self) s
    obtain ⟨t,more,rows⟩ := ih (fun row member => short row (List.mem_cons_of_mem _ member))
      (fun row member => known row (List.mem_cons_of_mem _ member))
      (s := { u with localNghOfs := Function.update s.localNghOfs p (s.localNghOfs p + eleSize n) }) (by
        intro q
        have := above q
        dsimp only
        rw [grown.remoteNghOfs]
        omega)
    have written : ∀ (pre : List (List Nat)) q, writtenBefore (g := g) p (first :: pre) q =
        remoteNgh g p first q ++ writtenBefore (g := g) p pre q := fun _ _ => List.flatMap_cons
    have next : ({ u with localNghOfs := Function.update s.localNghOfs p (s.localNghOfs p + eleSize n) } :
        Conv n).localNghOfs p = s.localNghOfs p + eleSize n := Function.update_self _ _ _
    refine ⟨t,?_,?_,?_,?_,?_,?_⟩
    · rw [List.foldlM_cons,ok]
      exact more
    · intro q other
      rw [rows.other q other,written,wordBytesAppend,← memcpyAppend,wordBytesLength]
      dsimp only
      rw [grown.other q other,grown.remoteNghOfs]
    · intro q
      rw [rows.remoteNghOfs,written,List.length_append]
      dsimp only
      rw [grown.remoteNghOfs]
      omega
    · intro q other
      rw [rows.otherOfs q other]
      exact Function.update_of_ne other _ _
    · intro i away
      rw [List.length_cons,Nat.add_mul,Nat.one_mul] at away
      rw [rows.outside i (by rw [next]; omega)]
      dsimp only
      rw [grown.own]
      exact memcpyOutside (by omega)
    · intro pre row post split
      cases pre with
      | nil =>
        obtain ⟨rfl,rfl⟩ := List.cons.inj split
        have here : Stored (u.indexPtr p) (s.localNghOfs p) (slotAt g s p first (partIds g p first)) := by
          rw [grown.own]
          exact storedMemcpy _ _ _
        rw [List.length_nil,Nat.zero_mul,Nat.add_zero]
        refine storedAgree here (fun i _ inside => ?_)
        have length : (slotBytes g p (fun q => s.remoteNghOfs q - indexMetaLen) (writtenBefore (g := g) p []) first
          (partIds g p first)).length ≤ eleSize n := room
        exact rows.outside i (.inl (by rw [next]; omega))
      | cons top pre =>
        obtain ⟨rfl,tail⟩ := List.cons.inj split
        have later := rows.slots pre row post tail
        rw [next] at later
        have same : slotBytes g p (fun q => u.remoteNghOfs q - indexMetaLen) (writtenBefore (g := g) p pre) row
            (partIds g p row) = slotBytes g p (fun q => s.remoteNghOfs q - indexMetaLen)
            (writtenBefore (g := g) p (first :: pre)) row (partIds g p row) := by
          refine slotBytesOffset g (fun q _ => ?_)
          have := above q
          rw [written,List.length_append,grown.remoteNghOfs]
          omega
        rw [← same,List.length_cons,Nat.add_mul,Nat.one_mul,Nat.add_comm (pre.length*eleSize n),← Nat.add_assoc]
        exact later

theorem slotOfLength {p : Fin n} {pre post : List (List Nat)} {row : List Nat} (part : g.rows p = pre ++ row :: post)
    (short : row.length ≤ maxDeg) : pre.length*eleSize n + (slotOf g (eleSize n) p pre row).length ≤
      g.partitionSize p * eleSize n := by
  have bytes := slotLength g p (fun q => g.partitionSize q * eleSize n + 4*inSum g q p) (writtenBefore (g := g) p pre) row
    (partIds g p row)
  have parts : (partIds g p row).length ≤ n := by
    simpa using (partIdsNodup g p row).length_le_card
  have ids := (groupsPerm g p (g.target p row (by rw [part]; simp))).length_eq
  have room := Nat.mul_le_mul_right (eleSize n) (slotCount part)
  rw [Nat.add_mul,Nat.one_mul] at room
  have size : (slotOf g (eleSize n) p pre row).length ≤ eleSize n := by
    unfold slotOf eleSize
    unfold eleSize at bytes
    omega
  omega

theorem metaLength (enterpointNode num : Nat) (p : Fin n) : (metaBytes g enterpointNode num p).length = indexMetaLen := by
  simp [metaBytes,indexMetaLen]

/- The files when the first k partitions are through. -/
structure Converted (enterpointNode k : Nat) (s : Conv n) : Prop where
  remoteNghOfs : ∀ q, s.remoteNghOfs q = remoteBase g q + 4*inSum g q k
  localNghOfs : ∀ q : Fin n, k ≤ q → s.localNghOfs q = 0
  regions : ∀ q r : Fin n, r.val < k → r ≠ q →
    Stored (s.indexPtr q) (remoteBase g q + 4*inSum g q r) (wordBytes (outRemoteNgh g r q))
  header : ∀ p : Fin n, p.val < k → Stored (s.indexPtr p) 0 (metaBytes g enterpointNode (inSum g p n) p)
  slots : ∀ p : Fin n, p.val < k → ∀ pre row post, g.rows p = pre ++ row :: post →
    Stored (s.indexPtr p) (indexMetaLen + pre.length*eleSize n) (slotOf g (eleSize n) p pre row)

/- What writing partition p does. -/
structure PartWritten (enterpointNode : Nat) (p : Fin n) (s t : Conv n) : Prop where
  other : ∀ q, q ≠ p → t.indexPtr q = memcpy (s.indexPtr q) (s.remoteNghOfs q) (wordBytes (outRemoteNgh g p q))
  remoteNghOfs : ∀ q, t.remoteNghOfs q = s.remoteNghOfs q + 4*(outRemoteNgh g p q).length
  otherOfs : ∀ q, q ≠ p → t.localNghOfs q = s.localNghOfs q
  beyond : ∀ i, remoteBase g p ≤ i → t.indexPtr p i = s.indexPtr p i
  header : Stored (t.indexPtr p) 0 (metaBytes g enterpointNode (inSum g p n) p)
  slots : ∀ pre row post, g.rows p = pre ++ row :: post → Stored (t.indexPtr p) (indexMetaLen + pre.length*eleSize n)
    (slotBytes g p (fun q => s.remoteNghOfs q - indexMetaLen) (writtenBefore (g := g) p pre) row (partIds g p row))

variable (bounded : ∀ p, ∀ row ∈ g.rows p, row.length ≤ maxDeg)
include bounded

theorem writePartSpec (enterpointNode : Nat) {p : Fin n} {s : Conv n} (fresh : s.localNghOfs p = 0)
    (above : ∀ q, indexMetaLen ≤ s.remoteNghOfs q) :
    ∃ t, writePart g (wholeGraph g) enterpointNode s p = some t ∧ PartWritten g enterpointNode p s t := by
  have ofs : (writeMeta g (wholeGraph g) enterpointNode s p).localNghOfs p = indexMetaLen := by
    simp [writeMeta,fresh]
  have own : (writeMeta g (wholeGraph g) enterpointNode s p).indexPtr p =
      memcpy (s.indexPtr p) 0 (metaBytes g enterpointNode (inSum g p n) p) := by
    rw [writeMeta,fresh,remoteNghNumSum]
    exact Function.update_self _ _ _
  have others : ∀ q, q ≠ p → (writeMeta g (wholeGraph g) enterpointNode s p).indexPtr q = s.indexPtr q :=
    fun q other => Function.update_of_ne other _ _
  have length := metaLength g enterpointNode (inSum g p n) p
  obtain ⟨t,ok,rows⟩ := writeVerticesSpec g (bounded p) (fun _ member => member)
    (s := writeMeta g (wholeGraph g) enterpointNode s p) above
  have outside := rows.outside
  rw [ofs,g.rowsLength] at outside
  refine ⟨t,?_,?_,?_,?_,?_,?_,?_⟩
  · rw [writePart,partRowsWhole]
    exact ok
  · intro q other
    rw [rows.other q other,others q other]
    rfl
  · exact rows.remoteNghOfs
  · intro q other
    rw [rows.otherOfs q other]
    exact Function.update_of_ne other _ _
  · intro i behind
    unfold remoteBase at behind
    rw [outside i (.inr behind),own]
    exact memcpyOutside (.inr (by omega))
  · have stored := storedMemcpy (s.indexPtr p) 0 (metaBytes g enterpointNode (inSum g p n) p)
    rw [← own] at stored
    exact storedAgree stored (fun i _ inside => outside i (.inl (by omega)))
  · intro pre row post part
    have stored := rows.slots pre row post part
    rw [ofs] at stored
    exact stored

theorem convertedNext {enterpointNode k : Nat} {s : Conv n} (before : Converted g enterpointNode k s) (known : k < n) :
    ∃ t, writePart g (wholeGraph g) enterpointNode s ⟨k,known⟩ = some t ∧ Converted g enterpointNode (k+1) t := by
  have behind : ∀ q, remoteBase g q ≤ s.remoteNghOfs q := by
    intro q
    rw [before.remoteNghOfs]
    omega
  obtain ⟨t,ok,part⟩ := writePartSpec g bounded enterpointNode (p := ⟨k,known⟩) (before.localNghOfs ⟨k,known⟩ le_rfl)
    (fun q => le_trans (Nat.le_add_right _ _) (behind q))
  have kept : ∀ q, q ≠ ⟨k,known⟩ → ∀ {ofs : Nat} {bytes : List Nat}, Stored (s.indexPtr q) ofs bytes →
      ofs + bytes.length ≤ s.remoteNghOfs q → Stored (t.indexPtr q) ofs bytes := by
    intro q other ofs bytes stored below
    rw [part.other q other]
    exact storedFrame stored (.inr below)
  have earlier : ∀ {q : Fin n}, q.val < k+1 → q ≠ ⟨k,known⟩ → q.val < k := by
    intro q below other
    exact lt_of_le_of_ne (Nat.le_of_lt_succ below) (fun e => other (Fin.ext e))
  refine ⟨t,ok,?_,?_,?_,?_,?_⟩
  · intro q
    rw [part.remoteNghOfs,before.remoteNghOfs,inSum,inNumAt q ⟨k,known⟩]
    omega
  · intro q later
    rw [part.otherOfs q (fun e => by rw [e] at later; simp at later)]
    exact before.localNghOfs q (by omega)
  · intro q r below apart
    by_cases mine : q = ⟨k,known⟩
    · subst q
      refine storedAgree (before.regions ⟨k,known⟩ r (earlier below apart) apart) (fun i low _ => ?_)
      exact part.beyond i (by omega)
    · by_cases now : r = ⟨k,known⟩
      · subst r
        rw [part.other q mine,before.remoteNghOfs]
        exact storedMemcpy _ _ _
      · have place := earlier below now
        have next := inSumNext (g := g) q place
        refine kept q mine (before.regions q r place apart) ?_
        rw [wordBytesLength,before.remoteNghOfs]
        omega
  · intro p below
    by_cases mine : p = ⟨k,known⟩
    · subst p
      exact part.header
    · refine kept p mine (before.header p (earlier below mine)) ?_
      rw [metaLength]
      exact le_trans (by unfold remoteBase; omega) (behind p)
  · intro p below pre row post split
    by_cases mine : p = ⟨k,known⟩
    · subst p
      have same : slotOf g (eleSize n) ⟨k,known⟩ pre row = slotBytes g ⟨k,known⟩ (fun q => s.remoteNghOfs q - indexMetaLen)
          (writtenBefore (g := g) ⟨k,known⟩ pre) row (partIds g ⟨k,known⟩ row) := by
        refine slotBytesOffset g (fun q _ => ?_)
        have sum : inSum g q (⟨k,known⟩ : Fin n) = inSum g q k := rfl
        rw [before.remoteNghOfs,remoteBase,sum]
        omega
      rw [same]
      exact part.slots pre row post split
    · refine kept p mine (before.slots p (earlier below mine) pre row post split) ?_
      have room := slotOfLength g split (bounded p row (by rw [split]; simp))
      have base := behind p
      unfold remoteBase at base
      omega

theorem convertedAll (enterpointNode : Nat) (malloc : Fin n → Mem) : ∃ s,
    transferB1ToScalaV3 g (wholeGraph g) enterpointNode malloc = some s ∧ Converted g enterpointNode n s := by
  have upTo : ∀ k, k ≤ n → ∃ s, ((List.finRange n).take k).foldlM (writePart g (wholeGraph g) enterpointNode)
      ⟨malloc,fun _ => 0,remoteBase g⟩ = some s ∧ Converted g enterpointNode k s := by
    intro k
    induction k with
    | zero =>
      intro _
      refine ⟨_,rfl,fun q => rfl,fun _ _ => rfl,?_,?_,?_⟩
      · intro q r none'
        exact absurd none' (Nat.not_lt_zero _)
      · intro p none'
        exact absurd none' (Nat.not_lt_zero _)
      · intro p none'
        exact absurd none' (Nat.not_lt_zero _)
    | succ k ih =>
      intro known
      obtain ⟨s,ok,before⟩ := ih (by omega)
      obtain ⟨t,next,after⟩ := convertedNext g bounded before known
      refine ⟨t,?_,after⟩
      have last : (List.finRange n)[k]? = some ⟨k,known⟩ := by
        rw [List.getElem?_eq_getElem (by rw [List.length_finRange]; exact known),List.getElem_finRange]
        rfl
      rw [List.take_add_one,List.foldlM_append,ok,last]
      simpa using next
  obtain ⟨s,ok,all⟩ := upTo n le_rfl
  rw [List.take_of_length_le (by simp)] at ok
  refine ⟨s,?_,all⟩
  have sizes : ∀ p, s.remoteNghOfs p = expectSize g (wholeGraph g) p := by
    intro p
    rw [all.remoteNghOfs,expectSize,remoteNghNumSum,Nat.mul_comm]
  unfold transferB1ToScalaV3
  rw [ok]
  simp only [Option.bind_eq_bind,Option.bind_some]
  exact if_pos sizes

omit bounded

/- The V3 file of partition p, whoever wrote it, when slots have `ele` bytes: a header,
of which the entry point is left open, one slot for each vertex and the stored groups of
every other partition. -/
structure Laid (ele : Nat) (p : Fin n) (file : Mem) : Prop where
  header : Stored file 0 (leBytes 4 p ++ leBytes 4 n ++ leBytes 4 (g.partitionSize p) ++ leBytes 4 ele)
  remoteNghNum : Stored file 24 (leBytes 8 (inSum g p n))
  slots : ∀ pre row post, g.rows p = pre ++ row :: post →
    Stored file (indexMetaLen + pre.length*ele) (slotOf g ele p pre row)
  regions : ∀ r, r ≠ p →
    Stored file (indexMetaLen + g.partitionSize p * ele + 4*inSum g p r) (wordBytes (outRemoteNgh g r p))

theorem convertedLaid {enterpointNode : Nat} {s : Conv n} (all : Converted g enterpointNode n s) (p : Fin n) :
    Laid g (eleSize n) p (s.indexPtr p) := by
  have header := all.header p p.isLt
  simp only [metaBytes,storedAppend,List.length_append,leBytesLength] at header
  refine ⟨?_,header.2,?_,?_⟩
  · simp only [storedAppend,List.length_append,leBytesLength]
    exact header.1.1
  · exact fun pre row post part => all.slots p p.isLt pre row post part
  · exact fun r apart => all.regions p r r.isLt apart

theorem finishedLaid {g : GraphParts n} {d : Deployment g} {file : Fin n → Mem} (finished : Finished d file) (p : Fin n) :
    Laid g (localNghEleSize g) p (file p) := by
  have header := headerInFile finished.kept p
  have allIn : d.allIn p = inSum g p n := by
    have counted := d.counted p
    rw [allInSum g (d.delivered p)] at counted
    exact (Option.some.inj counted).symm
  rw [allIn] at header
  simp only [headerBytes,storedAppend,List.length_append,leBytesLength] at header
  refine ⟨?_,header.2,?_,?_⟩
  · simp only [storedAppend,List.length_append,leBytesLength]
    exact header.1.1
  · intro pre row post part
    have start : outRemoteNghStartOfs g p (d.table p) = fun q => g.partitionSize q * localNghEleSize g + 4*inSum g q p :=
      funext (fun q => outStartSum g (d.delivered p) q)
    have stored := slotInFile finished.kept part
    rwa [Deployment.block,start] at stored
  · exact fun r apart => finished.regions r p apart

/- Bytes of a slot that hold records; the rest is padding. -/
def usedBytes (p : Fin n) (row : List Nat) : Nat := ((partIds g p row).map (fun q =>
  2 + if inlineDegBar < (nghs g row q).length ∧ q ≠ p then 8 else 4*(nghs g row q).length)).sum

theorem usedLength (p : Fin n) (startOfs : Fin n → Nat) (out : Fin n → List Nat) (row : List Nat) :
    (slotBytes g p startOfs out row (partIds g p row)).length = usedBytes g p row := by
  unfold usedBytes
  induction partIds g p row with
  | nil => rfl
  | cons q rest ih =>
    rw [slotBytes,List.length_append,ih,List.map_cons,List.sum_cons,recordBytes,List.length_append,leBytesLength]
    congr 2
    split
    · rw [leBytesLength]
    · rw [wordBytesLength]

/- The two files of partition p agree: slot size and file size, header but for the entry
point, the records of every vertex and the stored groups. -/
structure Agree (p : Fin n) (single distributed : Mem) : Prop where
  slotSize : eleSize n = localNghEleSize g
  fileSize : expectSize g (wholeGraph g) p = expectIndexSize g p (inSum g p n)
  header : ∀ i < indexMetaLen, i < 16 ∨ 24 ≤ i → single i = distributed i
  slots : ∀ pre row post, g.rows p = pre ++ row :: post → ∀ i < usedBytes g p row,
    single (indexMetaLen + pre.length*eleSize n + i) = distributed (indexMetaLen + pre.length*localNghEleSize g + i)
  remoteNgh : ∀ i < 4*inSum g p n, single (indexMetaLen + g.partitionSize p * eleSize n + i) =
    distributed (indexMetaLen + g.partitionSize p * localNghEleSize g + i)

theorem storedSame {m m' : Mem} {ofs : Nat} {bytes : List Nat} (h : Stored m ofs bytes) (h' : Stored m' ofs bytes)
    {i : Nat} (inside : i < bytes.length) : m (ofs+i) = m' (ofs+i) := by
  rw [storedGet.mp h i inside,storedGet.mp h' i inside]

theorem laidAgree {p : Fin n} {single distributed : Mem} (size : eleSize n = localNghEleSize g)
    (first : Laid g (eleSize n) p single) (second : Laid g (localNghEleSize g) p distributed) :
    Agree g p single distributed := by
  rw [← size] at second
  refine ⟨size,?_,?_,?_,?_⟩
  · rw [expectSize,expectIndexSize,remoteBase,remoteNghNumSum,localNghSize,size]
  · intro i inside away
    rcases away with low | high
    · have same := storedSame first.header second.header (i := i) (by simpa using low)
      rwa [Nat.zero_add] at same
    · have same := storedSame first.remoteNghNum second.remoteNghNum (i := i-24) (by
        rw [leBytesLength]
        unfold indexMetaLen at inside
        omega)
      rwa [show 24+(i-24) = i by omega] at same
  · intro pre row post part i inside
    rw [← size]
    exact storedSame (first.slots pre row post part) (second.slots pre row post part) (by rwa [slotOf,usedLength])
  · intro i inside
    obtain ⟨r,known,low,high⟩ := regionCovers g p inside
    have apart : (⟨r,known⟩ : Fin n) ≠ p := by
      rintro rfl
      have zero : inNum g ⟨r,known⟩ r = 0 := inNumOwn g ⟨r,known⟩
      omega
    have count := inNumAt (g := g) p ⟨r,known⟩
    dsimp only at count
    have same := storedSame (first.regions ⟨r,known⟩ apart) (second.regions ⟨r,known⟩ apart) (i := i-4*inSum g p r) (by
      rw [wordBytesLength]
      omega)
    rw [← size]
    dsimp only at same
    rwa [Nat.add_assoc,show 4*inSum g p r + (i-4*inSum g p r) = i by omega] at same

/- Every graph of degree at most 48: the conversion succeeds, both files are laid out in
the same way, each with its own slot size, and they agree exactly when max_degree is 48. -/
theorem buildersAgree {n : Nat} (g : GraphParts n) (bounded : ∀ p, ∀ row ∈ g.rows p, row.length ≤ maxDeg)
    (short : ∀ p q, outRemoteNghNum g p q < 2^32) (d : Deployment g) {acts : List (Act n)} {net : Net n}
    (ok : run (step d.exchange) (start d.index (BuildSync.start 0)) acts = some net)
    (finish : ∀ a, (net.proc a).stage = .done) (enterpointNode : Nat) (malloc : Fin n → Mem) :
    ∃ s, transferB1ToScalaV3 g (wholeGraph g) enterpointNode malloc = some s ∧
      ∀ p, Laid g (eleSize n) p (s.indexPtr p) ∧ Laid g (localNghEleSize g) p (net.proc p).index ∧
        (Agree g p (s.indexPtr p) (net.proc p).index ↔ g.maxDegree = maxDeg) := by
  obtain ⟨s,done,all⟩ := convertedAll g bounded enterpointNode malloc
  have finished := exchangeFinished d short ok finish
  refine ⟨s,done,fun p => ⟨convertedLaid g all p,finishedLaid finished p,?_⟩⟩
  constructor
  · intro agree
    have size := agree.slotSize
    unfold eleSize localNghEleSize at size
    omega
  · intro degree
    have size : eleSize n = localNghEleSize g := by
      rw [eleSize,localNghEleSize,degree]
    exact laidAgree g size (convertedLaid g all p) (finishedLaid finished p)

/- One vertex on machine 0 with three neighbours, all on machine 1, built by both. -/
def threeGraph (maxDegree : Nat) (room : 3 ≤ maxDegree) : GraphParts 2 where
  partitionSize := fun p => if p = 0 then 1 else 3
  maxDegree := maxDegree
  medoid := 0
  rows := fun p => if p = 0 then [[1,2,3]] else [[0],[0],[0]]
  rowsLength := threeLengths
  degree := fun p row member => le_trans (threeDegrees p row member) room
  target := threeTargets
  total := threeTotal

def threeBuild (maxDegree : Nat) (room : 3 ≤ maxDegree) : Deployment (threeGraph maxDegree room) :=
  deploy (threeGraph maxDegree room) (fun m => if m = 0 then [1] else [0]) threeArrivals (fun _ _ => 0) 0

def threeActs : List (Act 2) :=
  [.begin 0,.begin 1,.post 0,.post 0,.post 0,.post 0,.deliver 0 1,.take 1,.leave 1] ++ barrierActs ++
    [.leave 0,.post 1,.post 1,.post 1] ++ barrierActs

theorem buildersAgreeThree : ∃ s net, transferB1ToScalaV3 (threeGraph 48 (by decide)) [[1,2,3],[0],[0],[0]] 2 (fun _ _ => 7) =
      some s ∧ run (step (threeBuild 48 (by decide)).exchange) (start (threeBuild 48 (by decide)).index (BuildSync.start 0))
      threeActs = some net ∧ ∀ p, Agree (threeGraph 48 (by decide)) p (s.indexPtr p) (net.proc p).index := by
  have ends : (run (step (threeBuild 48 (by decide)).exchange) (start (threeBuild 48 (by decide)).index (BuildSync.start 0))
      threeActs).map (fun s => ((s.proc 0).stage,(s.proc 1).stage)) = some (.done,.done) := by rfl
  obtain ⟨net,ok,stages⟩ := Option.map_eq_some_iff.mp ends
  obtain ⟨first,second⟩ := Prod.mk.inj stages
  have finish : ∀ a, (net.proc a).stage = .done := by
    intro a
    match a with
    | 0 => exact first
    | 1 => exact second
  obtain ⟨s,done,all⟩ := buildersAgree (threeGraph 48 (by decide)) (by decide) (by decide) (threeBuild 48 (by decide)) ok
    finish 2 (fun _ _ => 7)
  exact ⟨s,net,done,ok,fun p => (all p).2.2.mpr rfl⟩

-- max_degree 32: the slots of the distributed builder have 132 bytes, the others 196.
theorem slotSizeDiffers : ∃ s net, transferB1ToScalaV3 (threeGraph 32 (by decide)) [[1,2,3],[0],[0],[0]] 0 (fun _ _ => 0) =
      some s ∧ run (step (threeBuild 32 (by decide)).exchange) (start (threeBuild 32 (by decide)).index (BuildSync.start 0))
      threeActs = some net ∧ (∀ a, (net.proc a).stage = .done) ∧ readLe (s.indexPtr 0) 12 4 = 196 ∧
      readLe (net.proc 0).index 12 4 = 132 ∧ ∀ p, ¬Agree (threeGraph 32 (by decide)) p (s.indexPtr p) (net.proc p).index := by
  have ends : (run (step (threeBuild 32 (by decide)).exchange) (start (threeBuild 32 (by decide)).index (BuildSync.start 0))
      threeActs).map (fun s => ((s.proc 0).stage,(s.proc 1).stage,readLe (s.proc 0).index 12 4)) =
      some (.done,.done,132) := by rfl
  have converts : (transferB1ToScalaV3 (threeGraph 32 (by decide)) [[1,2,3],[0],[0],[0]] 0 (fun _ _ => 0)).map
      (fun s => readLe (s.indexPtr 0) 12 4) = some 196 := by rfl
  obtain ⟨net,ok,stages⟩ := Option.map_eq_some_iff.mp ends
  obtain ⟨s,done,size⟩ := Option.map_eq_some_iff.mp converts
  obtain ⟨first,rest⟩ := Prod.mk.inj stages
  obtain ⟨second,field⟩ := Prod.mk.inj rest
  refine ⟨s,net,done,ok,?_,size,field,?_⟩
  · intro a
    match a with
    | 0 => exact first
    | 1 => exact second
  · intro p agree
    exact absurd agree.slotSize (by decide)

end CoTra.V3Single
