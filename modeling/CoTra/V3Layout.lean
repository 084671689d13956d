import CoTra.V3Index
import CoTra.Runs
import Mathlib.Data.Fintype.Card

/-! Sender and receiver lay out the same file. Both offsets of a region are the
slots of the receiver plus the counts of all machines below the sender; the own
row of a table is never one of them, or it is a count that is zero anyway. -/
namespace CoTra.V3Layout
open Memory V3Index

variable {n : Nat} (g : GraphParts n)

-- Every other machine's SCALA_META has been taken from the queue, in some order.
def Delivered (me : Fin n) (arrivals : List (Fin n)) : Prop :=
  arrivals.Perm ((List.finRange n).filter (· ≠ me))
instance (me : Fin n) (arrivals) : Decidable (Delivered me arrivals) :=
  inferInstanceAs (Decidable (arrivals.Perm ((List.finRange n).filter (· ≠ me))))

/- The neighbours of a row that are stored in the file of q. -/
def remoteNgh (me : Fin n) (row : List Nat) (q : Fin n) : List Nat :=
  if inlineDegBar < (nghs g row q).length ∧ q ≠ me then nghs g row q else []

def outRemoteNgh (me q : Fin n) : List Nat := (g.rows me).flatMap (fun row => remoteNgh g me row q)

theorem countFold (me q : Fin n) (rows : List (List Nat)) (num : Fin n → Nat) :
    (rows.foldl (countRow g me) num) q = num q + (rows.flatMap (fun row => remoteNgh g me row q)).length := by
  induction rows generalizing num with
  | nil => simp
  | cons row rest ih =>
    rw [List.foldl_cons,ih,List.flatMap_cons,List.length_append,← Nat.add_assoc]
    congr 1
    unfold countRow remoteNgh
    rw [nghsLength]
    split
    · rw [nghsLength]
    · simp

/- The counting pass and the writing pass agree. -/
theorem outNumLength (me q : Fin n) : outRemoteNghNum g me q = (outRemoteNgh g me q).length := by
  rw [outRemoteNghNum,countFold,Nat.zero_add]
  rfl

theorem outNumOwn (me : Fin n) : outRemoteNghNum g me me = 0 := by
  have empty : outRemoteNgh g me me = [] := by simp [outRemoteNgh,remoteNgh]
  rw [outNumLength,empty,List.length_nil]

theorem recvFold (arrivals : List (Fin n)) (table : Fin n → List Nat) (r : Fin n) :
    arrivals.foldl (fun t m => recvScalaMeta t m (List.ofFn (outRemoteNghNum g m))) table r =
      table r ++ (List.replicate (arrivals.count r) (List.ofFn (outRemoteNghNum g r))).flatten := by
  induction arrivals generalizing table with
  | nil => simp
  | cons m rest ih =>
    rw [List.foldl_cons,ih]
    by_cases same : r = m
    · subst m
      simp [recvScalaMeta,List.replicate_succ]
    · simp [recvScalaMeta,same,Ne.symm same]

/- The row of every other machine is its own count; the own row is zeros. -/
theorem tableRow {me r : Fin n} {arrivals} (delivered : Delivered me arrivals) :
    swapScalaIndexMetaInfo g me arrivals r =
      if r = me then List.replicate n 0 else List.ofFn (outRemoteNghNum g r) := by
  have times : arrivals.count r = if r = me then 0 else 1 := by
    rw [delivered.count_eq r]
    split
    · rename_i same
      exact List.count_eq_zero.mpr (fun member => by simpa [same] using (List.mem_filter.mp member).2)
    · rename_i other
      rw [List.count_filter (by simpa using other)]
      exact List.count_finRange r
  rw [swapScalaIndexMetaInfo,recvFold,times]
  split
  · rename_i same
    simp [same]
  · rename_i other
    simp [other]

def inNum (q : Fin n) (r : Nat) : Nat := if h : r < n then outRemoteNghNum g ⟨r,h⟩ q else 0

theorem inNumOwn (q : Fin n) : inNum g q q = 0 := by
  simp [inNum,outNumOwn]

theorem cellOther {me : Fin n} {arrivals} (delivered : Delivered me arrivals) {r : Nat} {q : Fin n}
    (real : r ≠ me ∨ q = me) : cell (swapScalaIndexMetaInfo g me arrivals) r q = inNum g q r := by
  unfold cell inNum
  split
  · rename_i known
    rw [tableRow g delivered]
    split
    · rename_i own
      have column : q = me := by
        rcases real with other | column
        · exact absurd (congrArg Fin.val own) other
        · exact column
      subst column
      rw [own,outNumOwn]
      simp [List.getD_eq_getElem?_getD]
    · simp [List.getD_eq_getElem?_getD]
  · rfl

def inSum (q : Fin n) : Nat → Nat
  | 0 => 0
  | r+1 => inSum q r + inNum g q r

theorem inSumMono (q : Fin n) {a b : Nat} (le : a ≤ b) : inSum g q a ≤ inSum g q b :=
  monotone_nat_of_le_succ (fun _ => Nat.le_add_right _ _) le

theorem outStartSum {me : Fin n} {arrivals} (delivered : Delivered me arrivals) (q : Fin n) :
    outRemoteNghStartOfs g me (swapScalaIndexMetaInfo g me arrivals) q =
      g.partitionSize q * localNghEleSize g + 4*inSum g q me := by
  have upTo : ∀ k, k ≤ me.val → (List.range k).foldl
      (fun ofs r => ofs + cell (swapScalaIndexMetaInfo g me arrivals) r q * 4)
      (g.partitionSize q * localNghEleSize g) = g.partitionSize q * localNghEleSize g + 4*inSum g q k := by
    intro k
    induction k with
    | zero => intro _; simp [inSum]
    | succ k ih =>
      intro below
      rw [List.range_succ,List.foldl_append,ih (by omega),List.foldl_cons,List.foldl_nil,
        cellOther g delivered (.inl (by omega)),inSum]
      omega
  exact upTo me le_rfl

theorem inStartSum {me : Fin n} {arrivals} (delivered : Delivered me arrivals) (r : Nat) :
    inRemoteNghStartOfs g me (swapScalaIndexMetaInfo g me arrivals) r =
      indexMetaLen + g.partitionSize me * localNghEleSize g + 4*inSum g me r := by
  induction r with
  | zero => simp [inRemoteNghStartOfs,inSum]
  | succ r ih =>
    rw [inRemoteNghStartOfs,ih,cellOther g delivered (.inr rfl),inSum]
    omega

theorem finRangeSum (f : Nat → Nat) : ((List.finRange n).map (fun i : Fin n => f i)).sum = ((List.range n).map f).sum := by
  rw [← List.map_coe_finRange_eq_range,List.map_map]
  rfl

theorem inSumRange (q : Fin n) (k : Nat) : ((List.range k).map (inNum g q)).sum = inSum g q k := by
  induction k with
  | zero => rfl
  | succ k ih => simp [List.range_succ,inSum,ih]

theorem allInSum {me : Fin n} {arrivals} (delivered : Delivered me arrivals) :
    allInRemoteNghNum me (swapScalaIndexMetaInfo g me arrivals) = some (inSum g me n) := by
  have fold : ∀ (xs : List (Fin n)) (total : Nat), xs.foldlM (fun total (i : Fin n) =>
      if i = me then
        (if cell (swapScalaIndexMetaInfo g me arrivals) i i ≠ 0 then none else some total)
      else some (total + cell (swapScalaIndexMetaInfo g me arrivals) i me)) total =
      some (total + (xs.map (fun i : Fin n => inNum g me i)).sum) := by
    intro xs
    induction xs with
    | nil => intro total; simp
    | cons i rest ih =>
      intro total
      rw [List.foldlM_cons,List.map_cons,List.sum_cons]
      by_cases own : i = me
      · subst i
        rw [if_pos rfl,cellOther g delivered (.inr rfl),inNumOwn,if_neg (by simp)]
        simpa using ih total
      · rw [if_neg own,cellOther g delivered (.inr rfl)]
        have next := ih (total + inNum g me i)
        rw [Nat.add_assoc] at next
        exact next
  rw [allInRemoteNghNum,fold,Nat.zero_add,finRangeSum (inNum g me),inSumRange]

theorem actualSum {me : Fin n} {arrivals} (delivered : Delivered me arrivals) (ofs : Nat) :
    actualSize me (swapScalaIndexMetaInfo g me arrivals) ofs = ofs + 4*inSum g me n := by
  have fold : ∀ (xs : List (Fin n)) (ofs : Nat), xs.foldl
      (fun ofs (p : Fin n) => ofs + cell (swapScalaIndexMetaInfo g me arrivals) p me * 4) ofs =
      ofs + 4*(xs.map (fun i : Fin n => inNum g me i)).sum := by
    intro xs
    induction xs with
    | nil => intro ofs; simp
    | cons i rest ih =>
      intro ofs
      rw [List.foldl_cons,ih,cellOther g delivered (.inr rfl),List.map_cons,List.sum_cons]
      omega
  rw [actualSize,fold,finRangeSum (inNum g me),inSumRange]

/- A place behind the slots lies in the region of some machine. -/
theorem regionCovers (q : Fin n) {i k : Nat} (inside : i < 4*inSum g q k) :
    ∃ r < k, 4*inSum g q r ≤ i ∧ i < 4*inSum g q r + 4*inNum g q r := by
  induction k with
  | zero => simp [inSum] at inside
  | succ k ih =>
    by_cases below : i < 4*inSum g q k
    · obtain ⟨r,small,spot⟩ := ih below
      exact ⟨r,by omega,spot⟩
    · rw [inSum] at inside
      exact ⟨k,by omega,by omega,by omega⟩

/- The bytes of one record, given how much of each out array is written before. -/
def recordBytes (me : Fin n) (startOfs : Fin n → Nat) (out : Fin n → List Nat) (row : List Nat) (last : Bool)
    (q : Fin n) : List Nat :=
  leBytes 2 (recordMsg last me q (nghs g row q).length) ++
    if inlineDegBar < (nghs g row q).length ∧ q ≠ me then leBytes 8 (startOfs q + 4*(out q).length)
    else wordBytes (nghs g row q)

def slotBytes (me : Fin n) (startOfs : Fin n → Nat) (out : Fin n → List Nat) (row : List Nat) :
    List (Fin n) → List Nat
  | [] => []
  | q :: rest => recordBytes g me startOfs out row rest.isEmpty q ++ slotBytes me startOfs out row rest

theorem writeRecordSpec {me : Fin n} {startOfs row last q} {w : Slot n}
    (fits : w.bytes.length + (recordBytes g me startOfs w.out row last q).length ≤ localNghEleSize g) :
    writeRecord g me startOfs row last q w = some ⟨w.bytes ++ recordBytes g me startOfs w.out row last q,
      Function.update w.out q (w.out q ++ remoteNgh g me row q)⟩ := by
  unfold recordBytes remoteNgh at *
  unfold writeRecord
  by_cases own : q = me
  · subst q
    have room : ¬localNghEleSize g < (w.bytes ++ leBytes 2 (recordMsg last me me (nghs g row me).length) ++
        wordBytes (nghs g row me)).length := by
      simpa [Nat.add_assoc] using fits
    simp only [ne_eq,not_true_eq_false,if_false,and_false]
    rw [if_neg room]
    simp [List.append_assoc]
  · by_cases small : (nghs g row q).length ≤ inlineDegBar
    · have few : ¬inlineDegBar < (nghs g row q).length := by omega
      have room : ¬localNghEleSize g < (w.bytes ++ leBytes 2 (recordMsg last me q (nghs g row q).length) ++
          wordBytes (nghs g row q)).length := by
        simpa [few,Nat.add_assoc] using fits
      simp only [ne_eq,own,not_false_eq_true,if_true,small,few,and_true,if_false]
      rw [if_neg room]
      simp [List.append_assoc]
    · have many : inlineDegBar < (nghs g row q).length := by omega
      have room : ¬localNghEleSize g < (w.bytes ++ leBytes 2 (recordMsg last me q (nghs g row q).length) ++
          leBytes 8 (startOfs q + 4*(w.out q).length)).length := by
        simpa [many,own,Nat.add_assoc] using fits
      simp only [ne_eq,own,not_false_eq_true,if_true,small,many,and_true,if_false]
      rw [if_neg room]
      simp [List.append_assoc]

theorem slotBytesOffset {p : Fin n} {startOfs startOfs' : Fin n → Nat} {out out' : Fin n → List Nat} {row : List Nat}
    {qs : List (Fin n)} (same : ∀ q ∈ qs, startOfs q + 4*(out q).length = startOfs' q + 4*(out' q).length) :
    slotBytes g p startOfs out row qs = slotBytes g p startOfs' out' row qs := by
  induction qs with
  | nil => rfl
  | cons q rest ih =>
    rw [slotBytes,slotBytes,ih (fun x member => same x (List.mem_cons_of_mem _ member)),recordBytes,recordBytes,
      same q List.mem_cons_self]

theorem writeRecordsSpec {me : Fin n} (startOfs : Fin n → Nat) {row} {qs : List (Fin n)} (distinct : qs.Nodup) {w : Slot n}
    (fits : w.bytes.length + (slotBytes g me startOfs w.out row qs).length ≤ localNghEleSize g) :
    writeRecords g me startOfs row qs w = some ⟨w.bytes ++ slotBytes g me startOfs w.out row qs,
      fun q => if q ∈ qs then w.out q ++ remoteNgh g me row q else w.out q⟩ := by
  induction qs generalizing w with
  | nil => simp [writeRecords,slotBytes]
  | cons q rest ih =>
    obtain ⟨fresh,distinct⟩ := List.nodup_cons.mp distinct
    rw [slotBytes,List.length_append] at fits
    rw [writeRecords,writeRecordSpec g (by omega),Option.bind_some]
    have later : slotBytes g me startOfs (Function.update w.out q (w.out q ++ remoteNgh g me row q)) row rest =
        slotBytes g me startOfs w.out row rest :=
      slotBytesOffset g (fun x member => by rw [Function.update_of_ne (ne_of_mem_of_not_mem member fresh)])
    rw [ih distinct (by rw [later,List.length_append]; omega),later,slotBytes]
    simp only [List.append_assoc,Option.some.injEq,Slot.mk.injEq,true_and]
    funext x
    by_cases here : x = q
    · subst x; simp [fresh]
    · simp [here]

/- A record takes two bytes and at most four for each neighbour: the offset of a
stored group is shorter than the group. -/
theorem slotLength (me : Fin n) (startOfs : Fin n → Nat) (out : Fin n → List Nat) (row : List Nat)
    (qs : List (Fin n)) : (slotBytes g me startOfs out row qs).length ≤
      2*qs.length + 4*(qs.flatMap (nghs g row)).length := by
  induction qs with
  | nil => simp [slotBytes]
  | cons q rest ih =>
    rw [slotBytes,List.length_append,List.flatMap_cons,List.length_append,List.length_cons]
    have head : (recordBytes g me startOfs out row rest.isEmpty q).length ≤ 2 + 4*(nghs g row q).length := by
      unfold recordBytes
      rw [List.length_append,leBytesLength]
      split
      · rename_i many
        have := many.1
        unfold inlineDegBar at this
        rw [leBytesLength]
        omega
      · rw [wordBytesLength]
    omega

theorem slotFits (me : Fin n) {p : Fin n} {row} (member : row ∈ g.rows p) (startOfs : Fin n → Nat) (out : Fin n → List Nat) :
    (slotBytes g me startOfs out row (partIds g me row)).length ≤ localNghEleSize g := by
  have bytes := slotLength g me startOfs out row (partIds g me row)
  have parts : (partIds g me row).length ≤ n := by
    simpa using (partIdsNodup g me row).length_le_card
  have ids := (groupsPerm g me (g.target p row member)).length_eq
  have degree := g.degree p row member
  unfold localNghEleSize
  omega

theorem remoteAll {me : Fin n} {row : List Nat} (q : Fin n) (out : List Nat) :
    (if q ∈ partIds g me row then out ++ remoteNgh g me row q else out) = out ++ remoteNgh g me row q := by
  split
  · rfl
  · rename_i absent
    rw [memPartIds] at absent
    have none' : ¬inlineDegBar < (nghs g row q).length := by omega
    simp [remoteNgh,none']

/- One vertex: the slot is written, its stored groups are appended. -/
theorem writeRowSpec {me p : Fin n} {row} (member : row ∈ g.rows p) (startOfs : Fin n → Nat) (b : Build n) :
    writeRow g me startOfs b row = some
      ⟨memcpy b.index b.localNghOfs (slotBytes g me startOfs b.out row (partIds g me row)),
        b.localNghOfs + localNghEleSize g,fun q => b.out q ++ remoteNgh g me row q⟩ := by
  have fits := slotFits g me member startOfs b.out
  have written := writeRecordsSpec g startOfs (partIdsNodup g me row) (w := ⟨[],b.out⟩)
    (by simpa using fits)
  unfold writeRow
  rw [written]
  simp [remoteAll]

theorem writeRowsSpec (me : Fin n) {p : Fin n} (startOfs : Fin n → Nat) {rows : List (List Nat)}
    (part : ∀ row ∈ rows, row ∈ g.rows p) (b : Build n) :
    ∃ c, rows.foldlM (writeRow g me startOfs) b = some c ∧
      c.localNghOfs = b.localNghOfs + rows.length*localNghEleSize g ∧
      ∀ q, c.out q = b.out q ++ rows.flatMap (fun row => remoteNgh g me row q) := by
  induction rows generalizing b with
  | nil => exact ⟨b,rfl,by simp,by simp⟩
  | cons row rest ih =>
    obtain ⟨c,ok,ofs,out⟩ := ih (fun x later => part x (List.mem_cons_of_mem _ later))
      ⟨memcpy b.index b.localNghOfs (slotBytes g me startOfs b.out row (partIds g me row)),
        b.localNghOfs + localNghEleSize g,fun q => b.out q ++ remoteNgh g me row q⟩
    refine ⟨c,?_,?_,?_⟩
    · rw [List.foldlM_cons,writeRowSpec g (part row List.mem_cons_self)]
      exact ok
    · rw [ofs,List.length_cons,Nat.add_mul]
      dsimp only
      omega
    · intro q
      rw [out q,List.flatMap_cons,List.append_assoc]

theorem writeLocalSpec (me : Fin n) (table : Fin n → List Nat) (allIn : Nat) (malloc : Mem) :
    ∃ b, writeLocal g me table allIn malloc = some b ∧
      b.localNghOfs = indexMetaLen + localNghSize g me ∧ ∀ q, b.out q = outRemoteNgh g me q := by
  obtain ⟨b,ok,ofs,out⟩ := writeRowsSpec g me (p := me) (outRemoteNghStartOfs g me table)
    (fun _ member => member) (writeHeader g me allIn malloc)
  refine ⟨b,ok,?_,?_⟩
  · rw [ofs,g.rowsLength]
    rfl
  · intro q
    rw [out q]
    rfl

/- The layout of the file of q as both sides compute it, and the two passes of p. -/
theorem remoteLayout {n : Nat} (g : GraphParts n) (malloc : Mem) {p q : Fin n} (apart : p ≠ q) {ap aq}
    (atP : Delivered p ap) (atQ : Delivered q aq) :
    outRemoteNghStartOfs g p (swapScalaIndexMetaInfo g p ap) q =
      inRemoteNghStartOfs g q (swapScalaIndexMetaInfo g q aq) p - indexMetaLen ∧
    (∃ allIn, allInRemoteNghNum q (swapScalaIndexMetaInfo g q aq) = some allIn ∧
      (∀ r r' : Fin n, r ≠ q → r' ≠ q → r < r' →
        inRemoteNghStartOfs g q (swapScalaIndexMetaInfo g q aq) r +
          4*cell (swapScalaIndexMetaInfo g q aq) r q ≤
        inRemoteNghStartOfs g q (swapScalaIndexMetaInfo g q aq) r') ∧
      (∀ r : Fin n, r ≠ q →
        indexMetaLen + localNghSize g q ≤ inRemoteNghStartOfs g q (swapScalaIndexMetaInfo g q aq) r ∧
        inRemoteNghStartOfs g q (swapScalaIndexMetaInfo g q aq) r +
          4*cell (swapScalaIndexMetaInfo g q aq) r q ≤ expectIndexSize g q allIn) ∧
      (∀ i, indexMetaLen + localNghSize g q ≤ i → i < expectIndexSize g q allIn → ∃ r : Fin n, r ≠ q ∧
        inRemoteNghStartOfs g q (swapScalaIndexMetaInfo g q aq) r ≤ i ∧
        i < inRemoteNghStartOfs g q (swapScalaIndexMetaInfo g q aq) r +
          4*cell (swapScalaIndexMetaInfo g q aq) r q)) ∧
    (∃ allIn b, allInRemoteNghNum p (swapScalaIndexMetaInfo g p ap) = some allIn ∧
      writeLocal g p (swapScalaIndexMetaInfo g p ap) allIn malloc = some b ∧
      (wordBytes (b.out q)).length = 4*outRemoteNghNum g p q ∧
      (sizeCheck g p (swapScalaIndexMetaInfo g p ap) allIn b).isSome) := by
  refine ⟨?_,⟨inSum g q n,allInSum g atQ,?_,?_,?_⟩,?_⟩
  · rw [outStartSum g atP,inStartSum g atQ]
    omega
  · intro r r' _ _ below
    rw [inStartSum g atQ,inStartSum g atQ,cellOther g atQ (.inr rfl)]
    have next := inSumMono g q (show r.val+1 ≤ r'.val from below)
    rw [inSum] at next
    omega
  · intro r _
    rw [inStartSum g atQ,cellOther g atQ (.inr rfl)]
    have next := inSumMono g q (show r.val+1 ≤ n from r.isLt)
    rw [inSum] at next
    unfold expectIndexSize localNghSize
    omega
  · intro i behind inside
    unfold expectIndexSize at inside
    obtain ⟨r,small,low,high⟩ := regionCovers g q (i := i - (indexMetaLen + localNghSize g q)) (k := n) (by omega)
    have other : (⟨r,small⟩ : Fin n) ≠ q := by
      rintro rfl
      have zero : inNum g ⟨r,small⟩ r = 0 := inNumOwn g ⟨r,small⟩
      omega
    refine ⟨⟨r,small⟩,other,?_⟩
    rw [inStartSum g atQ,cellOther g atQ (.inr rfl)]
    unfold localNghSize at *
    exact ⟨by simp only; omega,by simp only; omega⟩
  · obtain ⟨b,ok,ofs,out⟩ := writeLocalSpec g p (swapScalaIndexMetaInfo g p ap) (inSum g p n) malloc
    refine ⟨inSum g p n,b,allInSum g atP,ok,?_,?_⟩
    · rw [out,wordBytesLength,outNumLength]
    · unfold sizeCheck
      rw [actualSum g atP,ofs]
      have same : indexMetaLen + localNghSize g p + 4*inSum g p n = expectIndexSize g p (inSum g p n) := by
        unfold expectIndexSize
        omega
      simp [same]

-- One vertex on machine 0 with three neighbours, all on machine 1.
theorem threeLengths : ∀ p : Fin 2, (if p = 0 then [[1,2,3]] else [[0],[0],[0]] : List (List Nat)).length =
    if p = 0 then 1 else 3 := by
  decide

theorem threeDegrees : ∀ p : Fin 2, ∀ row ∈ (if p = 0 then [[1,2,3]] else [[0],[0],[0]] : List (List Nat)),
    row.length ≤ 3 := by
  decide

theorem threeTargets : ∀ p : Fin 2, ∀ row ∈ (if p = 0 then [[1,2,3]] else [[0],[0],[0]] : List (List Nat)), ∀ v ∈ row,
    v < cumupsize (fun p : Fin 2 => if p = 0 then 1 else 3) 2 := by
  decide

theorem threeTotal : cumupsize (fun p : Fin 2 => if p = 0 then 1 else 3) 2 < 2^32 := by decide

theorem threeArrivals : ∀ m : Fin 2, Delivered m (if m = 0 then [1] else [0]) := by decide

def threeRemote : GraphParts 2 where
  partitionSize := fun p => if p = 0 then 1 else 3
  maxDegree := 3
  medoid := 0
  rows := fun p => if p = 0 then [[1,2,3]] else [[0],[0],[0]]
  rowsLength := threeLengths
  degree := threeDegrees
  target := threeTargets
  total := threeTotal

theorem remoteLayoutThree : outRemoteNghNum threeRemote 0 1 = 3 ∧
    outRemoteNghStartOfs threeRemote 0 (swapScalaIndexMetaInfo threeRemote 0 [1]) 1 =
      inRemoteNghStartOfs threeRemote 1 (swapScalaIndexMetaInfo threeRemote 1 [0]) 0 - indexMetaLen :=
  ⟨by decide,(remoteLayout threeRemote (fun _ => 0) (p := 0) (q := 1) (by decide)
    (show Delivered 0 [1] by decide) (show Delivered 1 [0] by decide)).1⟩

end CoTra.V3Layout
