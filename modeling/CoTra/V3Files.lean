import CoTra.V3Decode

/-! The files of a finished build. The slots a machine writes before the exchange
lie outside every region and are kept, the exchange fills the regions, and an offset
in a slot of p points at the same place of the file of q as the region of p there. -/
namespace CoTra.V3Files
open Runs Memory V3Index V3Layout V3Decode NghExchange

variable {n : Nat} (g : GraphParts n)

/- The builders of all machines up to the exchange. -/
structure Deployment where
  arrivals : Fin n → List (Fin n)
  delivered : ∀ m, Delivered m (arrivals m)
  malloc : Fin n → Mem
  allIn : Fin n → Nat
  counted : ∀ m, allInRemoteNghNum m (swapScalaIndexMetaInfo g m (arrivals m)) = some (allIn m)
  build : Fin n → Build n
  built : ∀ m, writeLocal g m (swapScalaIndexMetaInfo g m (arrivals m)) (allIn m) (malloc m) = some (build m)
  round : Nat

variable {g}

def Deployment.table (d : Deployment g) (m : Fin n) : Fin n → List Nat :=
  swapScalaIndexMetaInfo g m (d.arrivals m)

def Deployment.index (d : Deployment g) (m : Fin n) : Mem := (d.build m).index

theorem buildOut (d : Deployment g) (p q : Fin n) : (d.build p).out q = outRemoteNgh g p q := by
  obtain ⟨b,ok,_,out⟩ := writeLocalSpec g p (d.table p) (d.allIn p) (d.malloc p)
  have built := d.built p
  rw [Deployment.table] at ok
  rw [ok] at built
  cases built
  exact out q

theorem startSum (d : Deployment g) (m p : Fin n) : inRemoteNghStartOfs g m (d.table m) p =
    indexMetaLen + localNghSize g m + 4*inSum g m p := inStartSum g (d.delivered m) p

theorem inNumAt (m p : Fin n) : inNum g m p = (outRemoteNgh g p m).length := by
  simp [inNum,outNumLength]

theorem inSumNext (m : Fin n) {p : Fin n} {k : Nat} (below : p.val < k) :
    inSum g m p + (outRemoteNgh g p m).length ≤ inSum g m k := by
  have next := inSumMono g m (show p.val+1 ≤ k from below)
  rwa [inSum,inNumAt] at next

def Deployment.exchange (d : Deployment g) : Exchange n where
  out := fun p q => (d.build p).out q
  startOfs := fun m p => inRemoteNghStartOfs g m (d.table m) p
  round := d.round
  apart := by
    intro m p q _ _ apart
    rw [buildOut,buildOut,startSum,startSum]
    rcases lt_or_gt_of_ne apart with below | above
    · have next := inSumNext (g := g) m below
      exact .inl (by omega)
    · have next := inSumNext (g := g) m above
      exact .inr (by omega)

theorem exchangeOut (d : Deployment g) (p q : Fin n) : d.exchange.out p q = outRemoteNgh g p q := buildOut d p q

/- What p has put into the arrays before the row behind `pre`. -/
def writtenBefore (p : Fin n) (pre : List (List Nat)) (q : Fin n) : List Nat :=
  pre.flatMap (fun row => remoteNgh g p row q)

def Deployment.block (d : Deployment g) (p : Fin n) (pre : List (List Nat)) (row : List Nat) : List Nat :=
  slotBytes g p (outRemoteNghStartOfs g p (d.table p)) (writtenBefore (g := g) p pre) row (partIds g p row)

/- Writing rows keeps what lies before them and puts every row in its slot. -/
theorem rowsKeep {me p : Fin n} {startOfs : Fin n → Nat} {rows : List (List Nat)}
    (part : ∀ row ∈ rows, row ∈ g.rows p) {b c : Build n} (ok : rows.foldlM (writeRow g me startOfs) b = some c)
    {i : Nat} (below : i < b.localNghOfs) : c.index i = b.index i := by
  induction rows generalizing b with
  | nil => cases ok; rfl
  | cons row rest ih =>
    rw [List.foldlM_cons,writeRowSpec g (part row List.mem_cons_self)] at ok
    rw [ih (fun x later => part x (List.mem_cons_of_mem _ later)) ok (by dsimp only; omega)]
    exact memcpyOutside (.inl below)

theorem rowsStored {me p : Fin n} {startOfs : Fin n → Nat} {pre post : List (List Nat)} {row : List Nat}
    (part : ∀ r ∈ pre ++ row :: post, r ∈ g.rows p) {b c : Build n}
    (ok : (pre ++ row :: post).foldlM (writeRow g me startOfs) b = some c) :
    Stored c.index (b.localNghOfs + pre.length*localNghEleSize g)
      (slotBytes g me startOfs (fun q => b.out q ++ writtenBefore (g := g) me pre q) row (partIds g me row)) := by
  induction pre generalizing b with
  | nil =>
    rw [List.nil_append,List.foldlM_cons,writeRowSpec g (part row (by simp))] at ok
    have fits := slotFits g me (part row (by simp)) startOfs b.out
    have here := storedMemcpy b.index b.localNghOfs (slotBytes g me startOfs b.out row (partIds g me row))
    have same : (fun q => b.out q ++ writtenBefore (g := g) me [] q) = b.out := by
      funext q
      exact List.append_nil _
    rw [same,List.length_nil,Nat.zero_mul,Nat.add_zero]
    refine storedAgree here (fun i _ inside => ?_)
    exact rowsKeep (fun x later => part x (by simp [later])) ok (by dsimp only; omega)
  | cons first rest ih =>
    rw [List.cons_append,List.foldlM_cons,writeRowSpec g (part first (by simp))] at ok
    have later := ih (fun x member => part x (List.mem_cons_of_mem _ member)) ok
    simp only [writtenBefore,List.flatMap_cons,List.append_assoc,List.length_cons,Nat.add_mul,Nat.one_mul] at later ⊢
    rwa [Nat.add_assoc,Nat.add_comm (localNghEleSize g)] at later

theorem rowsBeyond {me p : Fin n} {startOfs : Fin n → Nat} {rows : List (List Nat)}
    (part : ∀ row ∈ rows, row ∈ g.rows p) {b c : Build n} (ok : rows.foldlM (writeRow g me startOfs) b = some c)
    {i : Nat} (beyond : b.localNghOfs + rows.length*localNghEleSize g ≤ i) : c.index i = b.index i := by
  induction rows generalizing b with
  | nil => cases ok; rfl
  | cons row rest ih =>
    rw [List.length_cons,Nat.add_mul,Nat.one_mul] at beyond
    rw [List.foldlM_cons,writeRowSpec g (part row List.mem_cons_self)] at ok
    rw [ih (fun x later => part x (List.mem_cons_of_mem _ later)) ok (by dsimp only; omega)]
    have fits := slotFits g me (part row List.mem_cons_self) startOfs b.out
    exact memcpyOutside (.inr (by omega))

theorem indexBeyond (d : Deployment g) (m : Fin n) {i : Nat} (beyond : indexMetaLen + localNghSize g m ≤ i) :
    d.index m i = d.malloc m i := by
  have rows : indexMetaLen + (g.rows m).length*localNghEleSize g ≤ i := by
    rw [g.rowsLength]
    exact beyond
  have written : d.index m i = (writeHeader g m (d.allIn m) (d.malloc m)).index i :=
    rowsBeyond (p := m) (fun _ member => member) (d.built m) rows
  rw [written,writeHeader]
  dsimp only
  refine memcpyOutside (.inr ?_)
  simp only [List.length_append,leBytesLength]
  unfold indexMetaLen at beyond
  omega

/- The files the builders save when the exchange is over: the exchange keeps header and
slots, and fills the regions. -/
def Kept (d : Deployment g) (file : Fin n → Mem) : Prop :=
  ∀ m i, i < indexMetaLen + localNghSize g m → file m i = d.index m i

structure Finished (d : Deployment g) (file : Fin n → Mem) : Prop where
  kept : Kept d file
  regions : ∀ p m, p ≠ m →
    Stored (file m) (indexMetaLen + localNghSize g m + 4*inSum g m p) (wordBytes (outRemoteNgh g p m))

theorem exchangeFinished (d : Deployment g) (short : ∀ p q, outRemoteNghNum g p q < 2^32) {acts : List (Act n)}
    {s : Net n} (ok : run (step d.exchange) (start d.index (BuildSync.start 0)) acts = some s)
    (finish : ∀ a, (s.proc a).stage = .done) : Finished d (fun m => (s.proc m).index) := by
  have fits : Short d.exchange := by
    intro p m
    have few := short p m
    rw [outNumLength] at few
    simpa only [Deployment.exchange,buildOut] using few
  obtain ⟨regions,outside,_⟩ := (exchangeExact d.exchange fits d.index acts ok).2 finish
  constructor
  · intro m i inside
    refine outside m i (fun p _ => .inl ?_)
    simp only [Deployment.exchange,startSum]
    omega
  · intro p m apart
    have stored := regions p m apart
    simpa only [Deployment.exchange,startSum,buildOut] using stored

theorem slotCount {p : Fin n} {pre post : List (List Nat)} {row : List Nat} (part : g.rows p = pre ++ row :: post) :
    pre.length + 1 ≤ g.partitionSize p := by
  rw [← g.rowsLength,part]
  simp

theorem partLeTotal (g : GraphParts n) (p : Fin n) : g.partitionSize p ≤ cumupsize g.partitionSize n := by
  have upTo := cumupsizeMono g.partitionSize (show p.val+1 ≤ n from p.isLt)
  rw [cumupsize,dif_pos p.isLt] at upTo
  exact le_trans (Nat.le_add_left _ _) upTo

theorem inSumBound (short : ∀ p q, outRemoteNghNum g p q < 2^32) (q : Fin n) (k : Nat) : inSum g q k ≤ k*2^32 := by
  induction k with
  | zero => simp [inSum]
  | succ k ih =>
    have one : inNum g q k ≤ 2^32 := by
      unfold inNum
      split
      · exact (short _ q).le
      · exact Nat.zero_le _
    rw [inSum]
    omega

def headerBytes (g : GraphParts n) (p : Fin n) (allIn : Nat) : List Nat :=
  leBytes 4 p ++ leBytes 4 n ++ leBytes 4 (g.partitionSize p) ++ leBytes 4 (localNghEleSize g) ++
    leBytes 8 g.medoid ++ leBytes 8 allIn

section Files

variable {d : Deployment g} {file : Fin n → Mem} (kept : Kept d file)
include kept

theorem slotInFile {p : Fin n} {pre post : List (List Nat)} {row : List Nat} (part : g.rows p = pre ++ row :: post) :
    Stored (file p) (indexMetaLen + pre.length*localNghEleSize g) (d.block p pre row) := by
  have built := d.built p
  rw [writeLocal,part] at built
  have written : Stored (d.build p).index (indexMetaLen + pre.length*localNghEleSize g) (d.block p pre row) :=
    rowsStored (p := p) (by rw [part]; exact fun _ member => member) built
  refine storedAgree written (fun i _ inside => kept p i ?_)
  have fits : (d.block p pre row).length ≤ localNghEleSize g := slotFits g p (by rw [part]; simp) _ _
  have room := Nat.mul_le_mul_right (localNghEleSize g) (slotCount part)
  rw [Nat.add_mul,Nat.one_mul] at room
  unfold localNghSize
  omega

theorem headerInFile (p : Fin n) : Stored (file p) 0 (headerBytes g p (d.allIn p)) := by
  have written : Stored (d.build p).index 0 (headerBytes g p (d.allIn p)) := by
    refine storedAgree (storedMemcpy (d.malloc p) 0 _) (fun i _ inside => ?_)
    exact rowsKeep (p := p) (fun _ member => member) (d.built p) (by simpa [headerBytes,writeHeader,indexMetaLen] using inside)
  refine storedAgree written (fun i _ inside => kept p i ?_)
  simp only [headerBytes,List.length_append,leBytesLength] at inside
  unfold indexMetaLen
  omega

/- What load_index reads from the header. -/
theorem loadedHeader (few : n ≤ 64) (degree : g.maxDegree ≤ 96) (bounded : ∀ q, inSum g q n ≤ 2^38) (p : Fin n) :
    (loadIndex (file p)).partitionId = p ∧ (loadIndex (file p)).localVecNum = g.partitionSize p ∧
    (loadIndex (file p)).localNghEleSize = localNghEleSize g ∧
    (loadIndex (file p)).degNghSize = localNghSize g p + 4*inSum g p n := by
  have header := headerInFile kept p
  simp only [headerBytes,storedAppend,List.length_append,leBytesLength,and_assoc] at header
  obtain ⟨pid,_,vecs,ele,_,remote⟩ := header
  have allIn : d.allIn p = inSum g p n := by
    have counted := d.counted p
    rw [allInSum g (d.delivered p)] at counted
    exact (Option.some.inj counted).symm
  have size : g.partitionSize p < 256^4 := lt_of_le_of_lt (partLeTotal g p) g.total
  have slot : localNghEleSize g < 256^4 := by
    unfold localNghEleSize
    omega
  have total : inSum g p n < 256^8 := lt_of_le_of_lt (bounded p) (by decide)
  have pidRead := readStored pid
  have vecsRead := readStored vecs
  have eleRead := readStored ele
  have remoteRead := readStored remote
  rw [Nat.mod_eq_of_lt (by omega)] at pidRead
  rw [Nat.mod_eq_of_lt size] at vecsRead
  rw [Nat.mod_eq_of_lt slot] at eleRead
  rw [allIn,Nat.mod_eq_of_lt total] at remoteRead
  refine ⟨pidRead,vecsRead,eleRead,?_⟩
  have vecs' : readLe (file p) 8 4 = g.partitionSize p := vecsRead
  have ele' : readLe (file p) 12 4 = localNghEleSize g := eleRead
  have remote' : readLe (file p) 24 8 = inSum g p n := remoteRead
  rw [loadIndex,vecs',ele',remote',localNghSize,Nat.mul_comm (g.partitionSize p),Nat.mul_comm 4]

omit kept in
/- An offset in a slot of p leads to the group in the file of q. -/
theorem groupInFile (finished : Finished d file) {p q : Fin n} (apart : p ≠ q) {pre post : List (List Nat)} {row : List Nat}
    (part : g.rows p = pre ++ row :: post) (many : inlineDegBar < (nghs g row q).length) :
    Stored (file q) (indexMetaLen + (outRemoteNghStartOfs g p (d.table p) q +
      4*(writtenBefore (g := g) p pre q).length)) (wordBytes (nghs g row q)) := by
  have region := finished.regions p q apart
  have whole : outRemoteNgh g p q = writtenBefore (g := g) p pre q ++ (nghs g row q ++
      writtenBefore (g := g) p post q) := by
    have here : remoteNgh g p row q = nghs g row q := if_pos ⟨many,Ne.symm apart⟩
    rw [outRemoteNgh,part,List.flatMap_append,List.flatMap_cons,here]
    rfl
  rw [whole,wordBytesAppend,wordBytesAppend,storedAppend,storedAppend,wordBytesLength] at region
  have start : outRemoteNghStartOfs g p (d.table p) q = localNghSize g q + 4*inSum g q p :=
    outStartSum g (d.delivered p) q
  rw [start,← Nat.add_assoc,← Nat.add_assoc]
  exact region.2.1

end Files

theorem writeLocalSome (m : Fin n) (table : Fin n → List Nat) (allIn : Nat) (malloc : Mem) :
    (writeLocal g m table allIn malloc).isSome := by
  obtain ⟨b,ok,_⟩ := writeLocalSpec g m table allIn malloc
  rw [ok]
  rfl

/- No builder aborts before the exchange. -/
def deploy (g : GraphParts n) (arrivals : Fin n → List (Fin n)) (delivered : ∀ m, Delivered m (arrivals m))
    (malloc : Fin n → Mem) (round : Nat) : Deployment g where
  arrivals := arrivals
  delivered := delivered
  malloc := malloc
  allIn := fun m => inSum g m n
  counted := fun m => allInSum g (delivered m)
  build := fun m => (writeLocal g m (swapScalaIndexMetaInfo g m (arrivals m)) (inSum g m n) (malloc m)).get
    (writeLocalSome m _ _ _)
  built := fun _ => (Option.some_get _).symm
  round := round

end CoTra.V3Files
