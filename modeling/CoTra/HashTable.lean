import CoTra.Runs
import Mathlib.Data.List.Sort
import Mathlib.Data.Nat.Bitwise

/-! The visited set of a search: two blocks of slots, at most m_maxLoop slots tried in
each, and a table of twice the size when both are taken. Slots hold the id plus one.
Calls are as deep as the fuel; a call that returns does so with some fuel. -/
namespace CoTra.HashTable
open Runs

structure OptHashPosVector where
  secondHash : Bool
  exp : Nat
  poolSize : Nat
  hashTable : Nat → Nat

def maxLoop : Nat := 8

/- Unsigned 32-bit arithmetic. -/
def rotl (x n : Nat) : Nat := x <<< n % 2 ^ 32 ||| x >>> (32 - n)

def hashFunc2 (idx poolSize loop : Nat) : Nat := (idx + loop) % 2 ^ 32 &&& poolSize

def hashFunc (idx poolSize : Nat) : Nat := (idx * 99991 % 2 ^ 32 + rotl idx 2 + 101) % 2 ^ 32 &&& poolSize

/- What the loop over one block finds: an empty slot, the id, or neither. -/
inductive Probe where
  | empty (slot : Nat)
  | hit
  | full
  deriving DecidableEq

def probeFrom (table : Nat → Nat) (poolSize base idx : Nat) : List Nat → Nat → Probe
  | [], _ => .full
  | loop :: rest, index =>
    if table (base + index) = 0 then .empty (base + index)
    else if table (base + index) = idx then .hit
    else probeFrom table poolSize base idx rest (hashFunc2 index poolSize loop)

def probe (table : Nat → Nat) (poolSize base idx : Nat) : Probe :=
  probeFrom table poolSize base idx (List.range maxLoop) (hashFunc idx poolSize)

/- The first and the second block. The table after it, whether the second block was used,
and what is returned; `none` when both blocks are full. -/
def tryBlocks (table : Nat → Nat) (poolSize idx : Nat) : Option ((Nat → Nat) × Bool × Nat) :=
  match probe table poolSize 0 idx with
  | .empty slot => some (Function.update table slot idx,false,1)
  | .hit => some (table,false,0)
  | .full =>
    match probe table poolSize (poolSize + 1) idx with
    | .empty slot => some (Function.update table slot idx,true,1)
    | .hit => some (table,true,0)
    | .full => none

/- The number of slots that an int can still count. -/
def maxSlots : Nat := 2 ^ 31 - 1

mutual

/- The pointer is m_hashTable, or the new table of a DoubleSize that is running. -/
def checkAndSetAt : Nat → OptHashPosVector → Option (Nat → Nat) → Nat → Nat →
    Option (OptHashPosVector × Option (Nat → Nat) × Nat)
  | 0, _, _, _, _ => none
  | fuel + 1, h, fresh, poolSize, idx =>
    match tryBlocks (fresh.getD h.hashTable) poolSize idx with
    | some (table,second,ret) =>
      let h := { h with secondHash := h.secondHash || second }
      match fresh with
      | some _ => some (h,some table,ret)
      | none => some ({ h with hashTable := table },none,ret)
    | none =>
      -- DoubleSize works on m_hashTable, and so does the call behind it
      (doubleSize fuel { h with secondHash := true }).bind (fun h =>
        (checkAndSetAt fuel h none h.poolSize idx).map (fun r => (r.1,fresh,r.2.2)))

def doubleSize : Nat → OptHashPosVector → Option OptHashPosVector
  | 0, _ => none
  | fuel + 1, h =>
    let newPoolSize := (h.poolSize + 1) <<< 1 - 1
    if maxSlots < (newPoolSize + 1) * 2 then none
    else
      ((List.range (newPoolSize + 1)).foldlM (fun (s : OptHashPosVector × Option (Nat → Nat)) i =>
        if s.1.hashTable i ≠ 0 then
          (checkAndSetAt fuel s.1 s.2 newPoolSize (s.1.hashTable i)).map (fun r => (r.1,r.2.1))
        else some s) ({ h with secondHash := false },some (fun _ => 0))).map (fun s =>
          { s.1 with exp := s.1.exp + 1, poolSize := newPoolSize, hashTable := s.2.getD s.1.hashTable })

end

-- The index inside is id + 1, and the call says whether the id was there.
def checkAndSet (fuel : Nat) (h : OptHashPosVector) (id : Nat) : Option (OptHashPosVector × Bool) :=
  (checkAndSetAt fuel h none h.poolSize (id + 1)).map (fun r => (r.1,decide (r.2.2 = 0)))

def clear (h : OptHashPosVector) : OptHashPosVector :=
  if !h.secondHash then { h with hashTable := fun i => if i < h.poolSize + 1 then 0 else h.hashTable i }
  else { h with
    secondHash := false
    hashTable := fun i => if i < 2 * (h.poolSize + 1) then 0 else h.hashTable i }

-- while (size != 0) { ex++; size >>= 1; } for an int.
def exponentOf : Nat → Nat → Nat
  | 0, _ => 0
  | bits + 1, size => if size = 0 then 0 else exponentOf bits (size >>> 1) + 1

def init (size exp : Nat) (memory : Nat → Nat) : OptHashPosVector :=
  clear ⟨true,exp,1 <<< (exponentOf 32 size + exp) - 1,memory⟩

-- What new leaves in the slots is cleared.
def newTable (memory : Nat → Nat) : OptHashPosVector := init 8191 1 memory

-- id + 1 is an int and not 0.
abbrev Id := Fin (2 ^ 31 - 1)

instance rowNotZero : NeZero (2 ^ 31 - 1) := ⟨by decide⟩

inductive Call where
  | checkAndSet (id : Id)
  | clear

/- The table and the answers so far. -/
def perform (fuel : Nat) (s : OptHashPosVector × List Bool) : Call → Option (OptHashPosVector × List Bool)
  | .checkAndSet id => (checkAndSet fuel s.1 id).map (fun r => (r.1,s.2 ++ [r.2]))
  | .clear => some (clear s.1,s.2)

/- The answers of a set that starts with `seen`. -/
def answers : List (Id) → List Call → List Bool
  | _, [] => []
  | seen, .checkAndSet id :: rest => decide (id ∈ seen) :: answers (id :: seen) rest
  | _, .clear :: rest => answers [] rest

section Blocks

variable {t : Nat → Nat} {P base idx slot v : Nat}

theorem indexInside : hashFunc idx P ≤ P := Nat.and_le_right

theorem nextInside {index loop : Nat} : hashFunc2 index P loop ≤ P := Nat.and_le_right

theorem probeFromEmpty {loops : List Nat} {index : Nat} (inside : index ≤ P)
    (found : probeFrom t P base idx loops index = .empty slot) : t slot = 0 ∧ base ≤ slot ∧ slot ≤ base + P := by
  induction loops generalizing index with
  | nil => cases found
  | cons loop rest ih =>
    unfold probeFrom at found
    split at found
    · rename_i vacant
      cases found
      exact ⟨vacant,Nat.le_add_right _ _,Nat.add_le_add_left inside _⟩
    · split at found
      · cases found
      · exact ih nextInside found

theorem probeFromHit {loops : List Nat} {index : Nat} (inside : index ≤ P)
    (found : probeFrom t P base idx loops index = .hit) : ∃ s, base ≤ s ∧ s ≤ base + P ∧ t s = idx ∧ t s ≠ 0 := by
  induction loops generalizing index with
  | nil => cases found
  | cons loop rest ih =>
    unfold probeFrom at found
    split at found
    · cases found
    · rename_i taken
      split at found
      · rename_i same
        exact ⟨base + index,Nat.le_add_right _ _,Nat.add_le_add_left inside _,same,taken⟩
      · exact ih nextInside found

/- A slot that was empty is on no part of a chain that ends behind it. -/
theorem probeFromKept {loops : List Nat} {index : Nat} {r : Probe} (vacant : t slot = 0)
    (found : probeFrom t P base idx loops index = r) (other : ∀ s, r ≠ .empty s) :
    probeFrom (Function.update t slot v) P base idx loops index = r := by
  induction loops generalizing index with
  | nil => exact found
  | cons loop rest ih =>
    unfold probeFrom at found ⊢
    split at found
    · exact absurd found.symm (other _)
    · rename_i taken
      have apart : base + index ≠ slot := fun same => taken (same ▸ vacant)
      rw [Function.update_of_ne apart,if_neg taken]
      split at found
      · rename_i same
        rw [if_pos same]
        exact found
      · rename_i different
        rw [if_neg different]
        exact ih found

theorem probeFromSet {loops : List Nat} {index : Nat} (inside : index ≤ P) (some' : idx ≠ 0)
    (found : probeFrom t P base idx loops index = .empty slot) :
    probeFrom (Function.update t slot idx) P base idx loops index = .hit := by
  induction loops generalizing index with
  | nil => cases found
  | cons loop rest ih =>
    have vacant := (probeFromEmpty inside found).1
    unfold probeFrom at found ⊢
    split at found
    · cases found
      rw [Function.update_self,if_neg some',if_pos rfl]
    · rename_i taken
      have apart : base + index ≠ slot := fun same => taken (same ▸ vacant)
      rw [Function.update_of_ne apart,if_neg taken]
      split at found
      · cases found
      · rename_i different
        rw [if_neg different]
        exact ih nextInside found

/- The id is in the first block, or in the second one with its first chain full. -/
def Found (t : Nat → Nat) (P idx : Nat) : Prop :=
  probe t P 0 idx = .hit ∨ probe t P 0 idx = .full ∧ probe t P (P + 1) idx = .hit

theorem foundSlot (found : Found t P idx) : ∃ s, s < 2 * (P + 1) ∧ t s = idx ∧ t s ≠ 0 := by
  rcases found with first | ⟨_,second⟩
  · obtain ⟨s,_,below,same,taken⟩ := probeFromHit indexInside first
    exact ⟨s,by omega,same,taken⟩
  · obtain ⟨s,_,below,same,taken⟩ := probeFromHit indexInside second
    exact ⟨s,by omega,same,taken⟩

theorem foundKept (vacant : t slot = 0) (found : Found t P idx) : Found (Function.update t slot v) P idx := by
  rcases found with first | ⟨first,second⟩
  · exact .inl (probeFromKept vacant first (fun _ => Probe.noConfusion))
  · exact .inr ⟨probeFromKept vacant first (fun _ => Probe.noConfusion),
      probeFromKept vacant second (fun _ => Probe.noConfusion)⟩

/- What a call does when it finds a place: the id was there, or it is put into an empty
slot, of the second block only when it says so. -/
inductive Tried (t : Nat → Nat) (P idx : Nat) : (Nat → Nat) × Bool × Nat → Prop
  | hit (second : Bool) (found : Found t P idx) : Tried t P idx (t,second,0)
  | set (slot : Nat) (second : Bool) (absent : ¬Found t P idx) (vacant : t slot = 0) (inside : slot < 2 * (P + 1))
      (first : second = false → slot < P + 1) (found : idx ≠ 0 → Found (Function.update t slot idx) P idx) :
      Tried t P idx (Function.update t slot idx,second,1)

theorem tried {r : (Nat → Nat) × Bool × Nat} (ok : tryBlocks t P idx = some r) : Tried t P idx r := by
  unfold tryBlocks at ok
  split at ok
  · rename_i slot found
    obtain ⟨vacant,_,below⟩ := probeFromEmpty indexInside found
    cases Option.some.inj ok
    have absent : ¬Found t P idx := by
      rintro (first | ⟨first,_⟩) <;> rw [first] at found <;> cases found
    exact .set slot false absent vacant (by omega) (fun _ => by omega)
      (fun some' => .inl (probeFromSet indexInside some' found))
  · rename_i found
    cases Option.some.inj ok
    exact .hit false (.inl found)
  · rename_i full
    split at ok
    · rename_i slot found
      obtain ⟨vacant,above,below⟩ := probeFromEmpty indexInside found
      cases Option.some.inj ok
      have absent : ¬Found t P idx := by
        rintro (first | ⟨_,second⟩)
        · rw [first] at full
          cases full
        · rw [second] at found
          cases found
      refine .set slot true absent vacant (by omega) Bool.noConfusion
        (fun some' => .inr ⟨?_,probeFromSet indexInside some' found⟩)
      exact probeFromKept vacant full (fun _ => Probe.noConfusion)
    · rename_i found
      cases Option.some.inj ok
      exact .hit true (.inr ⟨full,found⟩)
    · cases ok

end Blocks

section Tables

/- The table holds exactly the values of S, and the second block only when it was used. -/
structure Holds (t : Nat → Nat) (P : Nat) (second : Bool) (S : Set Nat) : Prop where
  found : ∀ v ∈ S, Found t P v
  only : ∀ s < 2 * (P + 1), t s ≠ 0 → t s ∈ S
  unused : second = false → ∀ s, P + 1 ≤ s → s < 2 * (P + 1) → t s = 0

variable {t t' : Nat → Nat} {P idx ret : Nat} {b second : Bool} {S : Set Nat}

theorem triedHolds (ok : Holds t P b S) (some' : idx ≠ 0) (done : Tried t P idx (t',second,ret)) :
    Holds t' P (b || second) (insert idx S) ∧ (ret = 0 ↔ idx ∈ S) := by
  cases done with
  | hit second found =>
    obtain ⟨s,inside,same,taken⟩ := foundSlot found
    have member : idx ∈ S := same ▸ ok.only s inside taken
    rw [Set.insert_eq_of_mem member]
    refine ⟨⟨ok.found,ok.only,fun unused => ?_⟩,iff_of_true rfl member⟩
    exact ok.unused (Bool.or_eq_false_iff.mp unused).1
  | set slot second absent vacant inside first found =>
    have absent : idx ∉ S := fun member => absent (ok.found idx member)
    refine ⟨⟨fun v member => ?_,fun s below taken => ?_,fun unused s above below => ?_⟩,iff_of_false Nat.one_ne_zero absent⟩
    · rcases member with rfl | old
      · exact found some'
      · exact foundKept vacant (ok.found v old)
    · rcases eq_or_ne s slot with rfl | away
      · rw [Function.update_self]
        exact .inl rfl
      · rw [Function.update_of_ne away] at taken ⊢
        exact .inr (ok.only s below taken)
    · obtain ⟨old,new⟩ := Bool.or_eq_false_iff.mp unused
      have apart : s ≠ slot := by
        have below := first new
        omega
      rw [Function.update_of_ne apart]
      exact ok.unused old s above below

/- A table that was cleared or is new. -/
theorem emptyHolds (zero : ∀ s < 2 * (P + 1), t s = 0) : Holds t P false ∅ where
  found _ none' := absurd none' (Set.notMem_empty _)
  only s below taken := absurd (zero s below) taken
  unused _ s _ below := zero s below

theorem clearHolds {h : OptHashPosVector} (ok : Holds h.hashTable h.poolSize h.secondHash S) :
    (clear h).poolSize = h.poolSize ∧ Holds (clear h).hashTable h.poolSize (clear h).secondHash ∅ := by
  unfold clear
  split
  · rename_i unused
    have unused : h.secondHash = false := Bool.not_eq_true' _ ▸ unused
    refine ⟨rfl,?_⟩
    rw [unused]
    refine emptyHolds (fun s below => ?_)
    simp only
    split
    · rfl
    · exact ok.unused unused s (by omega) below
  · exact ⟨rfl,emptyHolds (fun s below => if_pos below)⟩

end Tables

section Doubling

/- The slots of m_hashTable go into the new table one after the other. -/
def putSlot (h : OptHashPosVector) (newPoolSize : Nat) (s : (Nat → Nat) × Bool) (i : Nat) : Option ((Nat → Nat) × Bool) :=
  if h.hashTable i ≠ 0 then
    (tryBlocks s.1 newPoolSize (h.hashTable i)).map (fun r => (r.1,s.2 || r.2.1))
  else some s

def newPool (h : OptHashPosVector) : Nat := (h.poolSize + 1) <<< 1 - 1

def refill (h : OptHashPosVector) : Option ((Nat → Nat) × Bool) :=
  (List.range (newPool h + 1)).foldlM (putSlot h (newPool h)) (fun _ => 0,false)

/- What DoubleSize makes of the table when every element finds a slot. -/
def doubled (h : OptHashPosVector) : Option OptHashPosVector :=
  if maxSlots < (newPool h + 1) * 2 then none
  else (refill h).map (fun r => ⟨r.2,h.exp + 1,newPool h,r.1⟩)

variable {h h' : OptHashPosVector} {fuel : Nat}

theorem newPoolSucc (h : OptHashPosVector) : newPool h + 1 = 2 * (h.poolSize + 1) := by
  unfold newPool
  rw [Nat.shiftLeft_eq,pow_one]
  omega

/- The loop of DoubleSize. An element without a slot makes it call itself. -/
def refillSlot (fuel newPoolSize : Nat) (s : OptHashPosVector × Option (Nat → Nat)) (i : Nat) :
    Option (OptHashPosVector × Option (Nat → Nat)) :=
  if s.1.hashTable i ≠ 0 then
    (checkAndSetAt fuel s.1 s.2 newPoolSize (s.1.hashTable i)).map (fun r => (r.1,r.2.1))
  else some s

theorem refillSlotPut {t : Nat → Nat} {b : Bool} {P i : Nat} {r : (Nat → Nat) × Bool} (put : putSlot h P (t,b) i = some r) :
    refillSlot (fuel + 1) P ({ h with secondHash := b },some t) i = some ({ h with secondHash := r.2 },some r.1) := by
  unfold putSlot at put
  unfold refillSlot
  split at put
  · rename_i taken
    obtain ⟨e,found,rfl⟩ := Option.map_eq_some_iff.mp put
    simp only [if_pos taken,checkAndSetAt,Option.getD_some,found,Option.map_some]
  · rename_i vacant
    cases Option.some.inj put
    rw [if_neg vacant]

theorem refillSlotSame {t : Nat → Nat} {b : Bool} {P i : Nat} {r : (Nat → Nat) × Bool}
    {s : OptHashPosVector × Option (Nat → Nat)} (put : putSlot h P (t,b) i = some r)
    (ok : refillSlot fuel P ({ h with secondHash := b },some t) i = some s) :
    s = ({ h with secondHash := r.2 },some r.1) := by
  cases fuel with
  | succ fuel =>
    rw [refillSlotPut put] at ok
    exact (Option.some.inj ok).symm
  | zero =>
    unfold putSlot at put
    unfold refillSlot at ok
    split at put
    · rename_i taken
      rw [if_pos taken] at ok
      cases ok
    · rename_i vacant
      rw [if_neg vacant] at ok
      cases Option.some.inj put
      exact (Option.some.inj ok).symm

theorem refillSlotNone {t : Nat → Nat} {b : Bool} {P i : Nat} (put : putSlot h P (t,b) i = none)
    (nested : ∀ f < fuel, ∀ b, doubleSize f { h with secondHash := b } = none) :
    refillSlot fuel P ({ h with secondHash := b },some t) i = none := by
  unfold putSlot at put
  unfold refillSlot
  split at put
  · rename_i taken
    have full := Option.map_eq_none_iff.mp put
    rw [if_pos taken]
    cases fuel with
    | zero => rfl
    | succ fuel =>
      simp only [checkAndSetAt,Option.getD_some,full,nested fuel (Nat.lt_succ_self _),Option.bind_none,Option.map_none]
  · cases put

theorem refillFoldPut (is : List Nat) {P : Nat} {s r : (Nat → Nat) × Bool}
    (put : is.foldlM (putSlot h P) s = some r) :
    is.foldlM (refillSlot (fuel + 1) P) ({ h with secondHash := s.2 },some s.1) =
      some ({ h with secondHash := r.2 },some r.1) := by
  induction is generalizing s with
  | nil =>
    cases Option.some.inj put
    rfl
  | cons i rest ih =>
    rw [List.foldlM_cons] at put ⊢
    obtain ⟨u,first,rest'⟩ := Option.bind_eq_some_iff.mp put
    rw [refillSlotPut first]
    exact ih rest'

theorem refillFoldSame (is : List Nat) {P : Nat} {s r : (Nat → Nat) × Bool} {e : OptHashPosVector × Option (Nat → Nat)}
    (put : is.foldlM (putSlot h P) s = some r)
    (ok : is.foldlM (refillSlot fuel P) ({ h with secondHash := s.2 },some s.1) = some e) :
    e = ({ h with secondHash := r.2 },some r.1) := by
  induction is generalizing s with
  | nil =>
    cases Option.some.inj put
    exact (Option.some.inj ok).symm
  | cons i rest ih =>
    rw [List.foldlM_cons] at put ok
    obtain ⟨u,first,rest'⟩ := Option.bind_eq_some_iff.mp put
    obtain ⟨v,first',last⟩ := Option.bind_eq_some_iff.mp ok
    rw [refillSlotSame first first'] at last
    exact ih rest' last

theorem refillFoldNone (is : List Nat) {P : Nat} {s : (Nat → Nat) × Bool}
    (put : is.foldlM (putSlot h P) s = none)
    (nested : ∀ f < fuel, ∀ b, doubleSize f { h with secondHash := b } = none) :
    is.foldlM (refillSlot fuel P) ({ h with secondHash := s.2 },some s.1) = none := by
  induction is generalizing s with
  | nil => cases put
  | cons i rest ih =>
    rw [List.foldlM_cons] at put ⊢
    cases first : putSlot h P s i with
    | none =>
      rw [refillSlotNone first nested]
      rfl
    | some u =>
      rw [first] at put
      cases first' : refillSlot fuel P ({ h with secondHash := s.2 },some s.1) i with
      | none => rfl
      | some v =>
        rw [refillSlotSame first first']
        exact ih put

theorem doubleSizeEq (fuel : Nat) (h : OptHashPosVector) : doubleSize (fuel + 1) h =
    if maxSlots < (newPool h + 1) * 2 then none
    else ((List.range (newPool h + 1)).foldlM (refillSlot fuel (newPool h))
      ({ h with secondHash := false },some (fun _ => 0))).map (fun s =>
        { s.1 with exp := s.1.exp + 1, poolSize := newPool h, hashTable := s.2.getD s.1.hashTable }) := by
  simp only [doubleSize]
  rfl

/- When an element finds no slot, the DoubleSize inside starts from the same m_hashTable,
and so on. -/
theorem neverReturns (stuck : refill h = none) (fuel : Nat) (b : Bool) :
    doubleSize fuel { h with secondHash := b } = none := by
  induction fuel using Nat.strong_induction_on generalizing b with
  | _ fuel ih =>
    cases fuel with
    | zero => rfl
    | succ fuel =>
      rw [doubleSizeEq]
      split
      · rfl
      · have fold := @refillFoldNone h fuel _ (newPool h) _ stuck (fun f less b => ih f (by omega) b)
        exact Option.map_eq_none_iff.mpr fold

theorem doubleSizeDoubled (ok : doubleSize fuel h = some h') : doubled h = some h' := by
  cases fuel with
  | zero => cases ok
  | succ fuel =>
    cases filled : refill h with
    | none =>
      have never := neverReturns filled (fuel + 1) h.secondHash
      rw [ok] at never
      cases never
    | some r =>
      rw [doubleSizeEq] at ok
      unfold doubled
      split at ok <;> try contradiction
      rename_i fits
      obtain ⟨e,fold,rfl⟩ := Option.map_eq_some_iff.mp ok
      rw [if_neg fits,filled,refillFoldSame _ filled fold]
      rfl

theorem doubledDoubleSize (ok : doubled h = some h') (fuel : Nat) : doubleSize (fuel + 2) h = some h' := by
  unfold doubled at ok
  split at ok <;> try contradiction
  rename_i fits
  obtain ⟨r,filled,rfl⟩ := Option.map_eq_some_iff.mp ok
  rw [doubleSizeEq,if_neg fits,refillFoldPut _ filled]
  rfl

theorem refillHolds {S : Set Nat} (is : List Nat) {P : Nat} {s r : (Nat → Nat) × Bool} (ok : Holds s.1 P s.2 S)
    (put : is.foldlM (putSlot h P) s = some r) :
    Holds r.1 P r.2 (S ∪ { v | ∃ i ∈ is, h.hashTable i ≠ 0 ∧ h.hashTable i = v }) := by
  induction is generalizing s S with
  | nil =>
    cases Option.some.inj put
    simpa using ok
  | cons i rest ih =>
    rw [List.foldlM_cons] at put
    obtain ⟨u,first,rest'⟩ := Option.bind_eq_some_iff.mp put
    unfold putSlot at first
    split at first
    · rename_i taken
      obtain ⟨e,found,rfl⟩ := Option.map_eq_some_iff.mp first
      have more := ih (triedHolds ok taken (tried found)).1 rest'
      have same : insert (h.hashTable i) S ∪ { v | ∃ j ∈ rest, h.hashTable j ≠ 0 ∧ h.hashTable j = v } =
          S ∪ { v | ∃ j ∈ i :: rest, h.hashTable j ≠ 0 ∧ h.hashTable j = v } := by
        ext v
        simp only [Set.mem_union,Set.mem_insert_iff,Set.mem_ofPred_eq,List.mem_cons,exists_eq_or_imp]
        grind
      rwa [same] at more
    · rename_i vacant
      cases Option.some.inj first
      have more := ih ok rest'
      have same : S ∪ { v | ∃ j ∈ rest, h.hashTable j ≠ 0 ∧ h.hashTable j = v } =
          S ∪ { v | ∃ j ∈ i :: rest, h.hashTable j ≠ 0 ∧ h.hashTable j = v } := by
        ext v
        simp only [Set.mem_union,Set.mem_ofPred_eq,List.mem_cons,exists_eq_or_imp]
        grind
      rwa [same] at more

/- All elements of both blocks are in the doubled table, and no others. -/
theorem doubledHolds {S : Set Nat} (ok : Holds h.hashTable h.poolSize h.secondHash S) (done : doubled h = some h') :
    Holds h'.hashTable h'.poolSize h'.secondHash S := by
  unfold doubled at done
  split at done <;> try contradiction
  obtain ⟨r,filled,rfl⟩ := Option.map_eq_some_iff.mp done
  have holds := refillHolds (h := h) _ (emptyHolds (fun _ _ => rfl)) filled
  have same : (∅ : Set Nat) ∪ { v | ∃ i ∈ List.range (newPool h + 1), h.hashTable i ≠ 0 ∧ h.hashTable i = v } = S := by
    ext v
    rw [Set.empty_union,Set.mem_ofPred_eq]
    constructor
    · rintro ⟨i,among,taken,rfl⟩
      rw [List.mem_range,newPoolSucc] at among
      exact ok.only i among taken
    · intro member
      obtain ⟨i,inside,rfl,taken⟩ := foundSlot (ok.found v member)
      exact ⟨i,List.mem_range.mpr (by rw [newPoolSucc]; exact inside),taken,rfl⟩
  rwa [same] at holds

end Doubling

section Answers

variable {h h' : OptHashPosVector} {fuel : Nat} {S : Set Nat}

theorem checkAndSetAtHolds (ok : Holds h.hashTable h.poolSize h.secondHash S) {idx : Nat} (some' : idx ≠ 0)
    {t : Option (Nat → Nat)} {ret : Nat} (done : checkAndSetAt fuel h none h.poolSize idx = some (h',t,ret)) :
    Holds h'.hashTable h'.poolSize h'.secondHash (insert idx S) ∧ (ret = 0 ↔ idx ∈ S) := by
  induction fuel generalizing h h' t ret with
  | zero => cases done
  | succ fuel ih =>
    simp only [checkAndSetAt,Option.getD_none] at done
    cases blocks : tryBlocks h.hashTable h.poolSize idx with
    | some r =>
      rw [blocks] at done
      cases Option.some.inj done
      exact triedHolds ok some' (tried blocks)
    | none =>
      rw [blocks] at done
      obtain ⟨g,doubles,rest⟩ := Option.bind_eq_some_iff.mp done
      obtain ⟨r,again,last⟩ := Option.map_eq_some_iff.mp rest
      cases last
      refine ih (doubledHolds ?_ (doubleSizeDoubled doubles)) again
      exact ⟨ok.found,ok.only,fun unused => Bool.noConfusion unused⟩

theorem newTableHolds (memory : Nat → Nat) :
    Holds (newTable memory).hashTable (newTable memory).poolSize (newTable memory).secondHash ∅ := by
  exact emptyHolds (fun s below => if_pos below)

-- The slots of the ids that were passed.
def stored (seen : List (Id)) : Set Nat := { v | ∃ id ∈ seen, v = id.val + 1 }

theorem storedMem {seen : List (Id)} {id : Id} : id.val + 1 ∈ stored seen ↔ id ∈ seen := by
  constructor
  · rintro ⟨other,among,same⟩
    have equal : id = other := Fin.ext (Nat.succ.inj same)
    exact equal ▸ among
  · exact fun among => ⟨id,among,rfl⟩

theorem storedCons (seen : List (Id)) (id : Id) :
    insert (id.val + 1) (stored seen) = stored (id :: seen) := by
  ext v
  simp only [stored,Set.mem_insert_iff,Set.mem_ofPred_eq,List.mem_cons,exists_eq_or_imp]

theorem performAnswers {calls : List Call} {s s' : OptHashPosVector × List Bool} {seen : List (Id)}
    (ok : run (perform fuel) s calls = some s') (holds : Holds s.1.hashTable s.1.poolSize s.1.secondHash (stored seen)) :
    s'.2 = s.2 ++ answers seen calls := by
  induction calls generalizing s seen with
  | nil =>
    cases Option.some.inj ok
    exact (List.append_nil _).symm
  | cons call rest ih =>
    obtain ⟨u,first,later⟩ := runConsSource ok
    cases call with
    | checkAndSet id =>
      obtain ⟨r,checked,rfl⟩ := Option.map_eq_some_iff.mp first
      obtain ⟨e,called,rfl⟩ := Option.map_eq_some_iff.mp checked
      obtain ⟨after,found⟩ := checkAndSetAtHolds holds (Nat.succ_ne_zero _) called
      rw [storedCons] at after
      rw [ih later after,answers,List.append_assoc]
      simp only [found,storedMem,List.cons_append,List.nil_append]
    | clear =>
      cases Option.some.inj first
      obtain ⟨size,after⟩ := clearHolds holds
      have none' : stored [] = ∅ := by simp [stored]
      rw [answers]
      exact ih (s := (clear s.1,s.2)) later (by rw [size,none']; exact after)

/- The table answers like a set, whatever chains, blocks and rehashes the calls go through. -/
theorem answersRight {memory : Nat → Nat} {calls : List Call} {h : OptHashPosVector} {outs : List Bool}
    (ok : run (perform fuel) (newTable memory,[]) calls = some (h,outs)) : outs = answers [] calls := by
  have holds : Holds (newTable memory).hashTable (newTable memory).poolSize (newTable memory).secondHash (stored []) := by
    have none' : stored [] = ∅ := by simp [stored]
    rw [none']
    exact newTableHolds memory
  exact performAnswers ok holds

-- The calls of the test, and a clear.
def testCalls : List Call := [.checkAndSet 1,.checkAndSet 1,.checkAndSet 2,.clear,.checkAndSet 1]

theorem answersRightTest : ∃ h, run (perform 1) (newTable (fun _ => 7),[]) testCalls =
    some (h,[false,true,false,false]) ∧ [false,true,false,false] = answers [] testCalls := by
  have last : (run (perform 1) (newTable (fun _ => 7),[]) testCalls).map Prod.snd = some [false,true,false,false] := by
    decide +kernel
  obtain ⟨⟨h,outs⟩,ok,value⟩ := Option.map_eq_some_iff.mp last
  obtain rfl : outs = [false,true,false,false] := value
  exact ⟨h,ok,answersRight ok⟩

end Answers

section Returning

variable {h h' : OptHashPosVector} {fuel : Nat}

def step (fuel : Nat) (h : OptHashPosVector) (id : Id) : Option OptHashPosVector := (checkAndSet fuel h id).map Prod.fst

/- The element of slot i finds both of its chains full when its turn comes in DoubleSize. -/
def Crowded (h : OptHashPosVector) (i : Nat) : Prop :=
  h.hashTable i ≠ 0 ∧ ∃ s, (List.range i).foldlM (putSlot h (newPool h)) (fun _ => 0,false) = some s ∧
    tryBlocks s.1 (newPool h) (h.hashTable i) = none

/- What DoubleSize needs: an int for the new size, and a slot for every element. -/
structure Grows (h : OptHashPosVector) : Prop where
  fits : (newPool h + 1) * 2 ≤ maxSlots
  refits : ∀ i ≤ newPool h, ¬Crowded h i

/- The table after k doublings that one call makes because the chains of idx are full. -/
def after (idx : Nat) : Nat → OptHashPosVector → Option OptHashPosVector
  | 0, h => some h
  | k + 1, h => if tryBlocks h.hashTable h.poolSize idx = none then (doubled h).bind (after idx k) else none

def Roomy (h : OptHashPosVector) (idx : Nat) : Prop :=
  ∀ k g, after idx k h = some g → tryBlocks g.hashTable g.poolSize idx = none → Grows g

theorem foldRangeNone {σ : Type} {body : σ → Nat → Option σ} {s : σ} {n : Nat} :
    (List.range n).foldlM body s = none ↔ ∃ i < n, ∃ t, (List.range i).foldlM body s = some t ∧ body t i = none := by
  induction n with
  | zero => exact ⟨fun none' => (nomatch none'),fun ⟨i,below,_⟩ => absurd below (Nat.not_lt_zero i)⟩
  | succ n ih =>
    rw [List.range_succ,List.foldlM_append]
    cases first : (List.range n).foldlM body s with
    | none =>
      obtain ⟨i,below,rest⟩ := ih.mp first
      exact iff_of_true rfl ⟨i,Nat.lt_succ_of_lt below,rest⟩
    | some t =>
      have one : ([n].foldlM body t) = body t n := List.foldlM_cons.trans (bind_pure _)
      constructor
      · intro last
        exact ⟨n,Nat.lt_succ_self n,t,first,one ▸ last⟩
      · rintro ⟨i,below,u,before,stuck⟩
        rcases Nat.lt_succ_iff_lt_or_eq.mp below with earlier | rfl
        · have never := ih.mpr ⟨i,earlier,u,before,stuck⟩
          rw [first] at never
          cases never
        · cases Option.some.inj (first.symm.trans before)
          exact one.trans stuck

theorem refillNone : refill h = none ↔ ∃ i ≤ newPool h, Crowded h i := by
  unfold refill
  rw [foldRangeNone]
  constructor
  · rintro ⟨i,below,s,before,stuck⟩
    unfold putSlot at stuck
    split at stuck <;> try contradiction
    rename_i taken
    exact ⟨i,Nat.le_of_lt_succ below,taken,s,before,Option.map_eq_none_iff.mp stuck⟩
  · rintro ⟨i,below,taken,s,before,full⟩
    refine ⟨i,Nat.lt_succ_of_le below,s,before,?_⟩
    unfold putSlot
    rw [if_pos taken,full]
    rfl

theorem doublesIff : (doubled h).isSome ↔ Grows h := by
  unfold doubled
  constructor
  · intro some'
    split at some' <;> try contradiction
    rename_i fits
    rw [Option.isSome_map] at some'
    refine ⟨Nat.le_of_not_lt fits,fun i below crowded => ?_⟩
    rw [refillNone.mpr ⟨i,below,crowded⟩] at some'
    cases some'
  · intro grows
    rw [if_neg (Nat.not_lt_of_le grows.fits),Option.isSome_map,Option.isSome_iff_ne_none]
    intro none'
    obtain ⟨i,below,crowded⟩ := refillNone.mp none'
    exact grows.refits i below crowded

theorem doubledPool (ok : doubled h = some h') : h.poolSize < h'.poolSize ∧ h'.poolSize ≤ maxSlots := by
  unfold doubled at ok
  split at ok <;> try contradiction
  rename_i fits
  obtain ⟨r,_,rfl⟩ := Option.map_eq_some_iff.mp ok
  have size := newPoolSucc h
  simp only
  omega

/- DoubleSize starts with m_secondHash reset. -/
theorem doubledFlag (b : Bool) : doubled { h with secondHash := b } = doubled h := rfl

theorem roomyLater {idx : Nat} (room : Roomy h idx) (full : tryBlocks h.hashTable h.poolSize idx = none)
    (doubles : doubled h = some h') : Roomy h' idx := by
  intro k g later
  refine room (k + 1) g ?_
  rw [after,if_pos full,doubles]
  exact later

theorem roomyEarlier {idx : Nat} (full : tryBlocks h.hashTable h.poolSize idx = none) (doubles : doubled h = some h')
    (room : Roomy h' idx) : Roomy h idx := by
  intro k g later
  cases k with
  | zero =>
    cases Option.some.inj later
    exact fun _ => doublesIff.mp (doubles ▸ rfl)
  | succ k =>
    rw [after,if_pos full,doubles] at later
    exact room k g later

theorem roomyPlaced {idx : Nat} (placed : tryBlocks h.hashTable h.poolSize idx ≠ none) : Roomy h idx := by
  intro k g later
  cases k with
  | zero =>
    cases Option.some.inj later
    exact fun full => absurd full placed
  | succ k =>
    rw [after,if_neg placed] at later
    cases later

theorem callFull {idx : Nat} (full : tryBlocks h.hashTable h.poolSize idx = none) (fuel : Nat) :
    checkAndSetAt (fuel + 1) h none h.poolSize idx =
      (doubleSize fuel { h with secondHash := true }).bind (fun g =>
        (checkAndSetAt fuel g none g.poolSize idx).map (fun r => (r.1,none,r.2.2))) := by
  rw [checkAndSetAt,Option.getD_none,full]

/- A call that finds both chains full returns through the doubled table. -/
theorem callDoubled {idx : Nat} {r : OptHashPosVector × Option (Nat → Nat) × Nat}
    (full : tryBlocks h.hashTable h.poolSize idx = none)
    (ok : checkAndSetAt (fuel + 1) h none h.poolSize idx = some r) :
    ∃ g e, doubled h = some g ∧ checkAndSetAt fuel g none g.poolSize idx = some e ∧ r = (e.1,none,e.2.2) := by
  rw [callFull full] at ok
  obtain ⟨g,doubles,rest⟩ := Option.bind_eq_some_iff.mp ok
  obtain ⟨e,again,rfl⟩ := Option.map_eq_some_iff.mp rest
  exact ⟨g,e,(doubledFlag true).symm.trans (doubleSizeDoubled doubles),again,rfl⟩

theorem returnedRoomy {idx : Nat} {r : OptHashPosVector × Option (Nat → Nat) × Nat}
    (ok : checkAndSetAt fuel h none h.poolSize idx = some r) : Roomy h idx := by
  induction fuel generalizing h r with
  | zero => cases ok
  | succ fuel ih =>
    by_cases full : tryBlocks h.hashTable h.poolSize idx = none
    · obtain ⟨g,e,doubles,again,_⟩ := callDoubled full ok
      exact roomyEarlier full doubles (ih again)
    · exact roomyPlaced full

/- Fuel decides whether a call returns, not what it returns. -/
theorem sameReturn {idx fuel' : Nat} {r r' : OptHashPosVector × Option (Nat → Nat) × Nat}
    (ok : checkAndSetAt fuel h none h.poolSize idx = some r)
    (ok' : checkAndSetAt fuel' h none h.poolSize idx = some r') : r = r' := by
  induction fuel generalizing fuel' h r r' with
  | zero => cases ok
  | succ fuel ih =>
    cases fuel' with
    | zero => cases ok'
    | succ fuel' =>
      by_cases full : tryBlocks h.hashTable h.poolSize idx = none
      · obtain ⟨g,e,doubles,again,rfl⟩ := callDoubled full ok
        obtain ⟨g',e',doubles',again',rfl⟩ := callDoubled full ok'
        cases Option.some.inj (doubles.symm.trans doubles')
        rw [ih again again']
      · obtain ⟨e,blocks⟩ := Option.ne_none_iff_exists'.mp full
        simp only [checkAndSetAt,Option.getD_none,blocks] at ok ok'
        exact Option.some.inj (ok.symm.trans ok')

/- Every doubling makes the table larger, and its size stays an int. -/
theorem roomyReturns {idx : Nat} (room : Roomy h idx) :
    ∃ enough r, ∀ fuel ≥ enough, checkAndSetAt fuel h none h.poolSize idx = some r := by
  generalize left : maxSlots - h.poolSize = m
  induction m using Nat.strong_induction_on generalizing h with
  | _ m ih =>
    cases blocks : tryBlocks h.hashTable h.poolSize idx with
    | some e =>
      refine ⟨1,({ h with secondHash := h.secondHash || e.2.1, hashTable := e.1 },none,e.2.2),fun fuel enough => ?_⟩
      obtain ⟨f,rfl⟩ := Nat.exists_eq_succ_of_ne_zero (Nat.pos_iff_ne_zero.mp enough)
      simp only [checkAndSetAt,Option.getD_none,blocks]
    | none =>
      obtain ⟨g,doubles⟩ := Option.isSome_iff_exists.mp (doublesIff.mpr (room 0 h rfl blocks))
      have size := doubledPool doubles
      obtain ⟨enough,r,returns⟩ := ih _ (by omega) (roomyLater room blocks doubles) rfl
      refine ⟨enough + 3,(r.1,none,r.2.2),fun fuel more => ?_⟩
      obtain ⟨f,rfl⟩ := Nat.exists_eq_add_of_le (show 3 ≤ fuel by omega)
      have inner : doubleSize (f + 2) { h with secondHash := true } = some g :=
        doubledDoubleSize ((doubledFlag true).trans doubles) f
      rw [Nat.add_comm 3 f,callFull blocks,inner,Option.bind_some,returns (f + 2) (by omega),Option.map_some]

theorem stepReturned {id : Id} (ok : step fuel h id = some h') :
    ∃ r, checkAndSetAt fuel h none h.poolSize (id.val + 1) = some r ∧ h' = r.1 := by
  obtain ⟨e,checked,rfl⟩ := Option.map_eq_some_iff.mp ok
  obtain ⟨r,called,rfl⟩ := Option.map_eq_some_iff.mp checked
  exact ⟨r,called,rfl⟩

theorem sameStep {fuel' : Nat} {id : Id} {g : OptHashPosVector} (ok : step fuel h id = some h')
    (ok' : step fuel' h id = some g) : h' = g := by
  obtain ⟨r,called,rfl⟩ := stepReturned ok
  obtain ⟨r',called',rfl⟩ := stepReturned ok'
  rw [sameReturn called called']

theorem roomyStep {id : Id} (room : Roomy h (id.val + 1)) : ∃ enough h', ∀ fuel ≥ enough, step fuel h id = some h' := by
  obtain ⟨enough,r,returns⟩ := roomyReturns room
  refine ⟨enough,r.1,fun fuel more => ?_⟩
  unfold step checkAndSet
  rw [returns fuel more]
  rfl

theorem roomyRun {ids : List Id} {start : Nat}
    (along : ∀ fuel ≥ start, Along (step fuel) (fun h id => Roomy h (id.val + 1)) h ids) :
    ∃ enough h', ∀ fuel ≥ enough, run (step fuel) h ids = some h' := by
  induction ids generalizing h start with
  | nil => exact ⟨0,h,fun _ _ => rfl⟩
  | cons id rest ih =>
    obtain ⟨enough,g,first⟩ := roomyStep (along start (le_refl _)).1
    have later : ∀ fuel ≥ max start enough, Along (step fuel) (fun h id => Roomy h (id.val + 1)) g rest :=
      fun fuel more => (along fuel (by omega)).2 g (first fuel (by omega))
    obtain ⟨more,last,returns⟩ := ih later
    refine ⟨max enough more,last,fun fuel below => ?_⟩
    rw [runCons (first fuel (by omega))]
    exact returns fuel (by omega)

theorem runRoomy {ids : List Id} (ok : run (step fuel) h ids = some h') (fuel' : Nat) :
    Along (step fuel') (fun h id => Roomy h (id.val + 1)) h ids := by
  induction ids generalizing h with
  | nil => trivial
  | cons id rest ih =>
    obtain ⟨g,first,later⟩ := runConsSource ok
    obtain ⟨r,called,_⟩ := stepReturned first
    refine ⟨returnedRoomy called,fun g' first' => ?_⟩
    rw [← sameStep first first']
    exact ih later

/- The calls of a run return exactly when every doubling has the size and the slots that
it needs. -/
theorem returnsIff (memory : Nat → Nat) (ids : List Id) :
    (∃ fuel, run (step fuel) (newTable memory) ids ≠ none) ↔
      ∀ fuel, Along (step fuel) (fun h id => Roomy h (id.val + 1)) (newTable memory) ids := by
  constructor
  · rintro ⟨fuel,returned⟩ fuel'
    obtain ⟨h',ok⟩ := Option.ne_none_iff_exists'.mp returned
    exact runRoomy ok fuel'
  · intro along
    have from0 : ∀ fuel ≥ 0, Along (step fuel) (fun h id => Roomy h (id.val + 1)) (newTable memory) ids :=
      fun fuel _ => along fuel
    obtain ⟨enough,h',returns⟩ := roomyRun from0
    exact ⟨enough,by rw [returns enough (le_refl _)]; exact Option.some_ne_none h'⟩

/- Where a call puts an id that is not in the table. -/
def slotOf (t : Nat → Nat) (P idx : Nat) : Option Nat :=
  match probe t P 0 idx,probe t P (P + 1) idx with
  | .empty slot,_ => some slot
  | .full,.empty slot => some slot
  | _,_ => none

theorem slotOfStep {id : Id} {slot : Nat} (found : slotOf h.hashTable h.poolSize (id.val + 1) = some slot) :
    ∃ b, step (fuel + 1) h id =
      some { h with secondHash := b, hashTable := Function.update h.hashTable slot (id.val + 1) } := by
  unfold slotOf at found
  split at found
  · rename_i first
    cases Option.some.inj found
    simp only [step,checkAndSet,checkAndSetAt,Option.getD_none,tryBlocks,first,Option.map_some]
    exact ⟨_,rfl⟩
  · rename_i full second
    cases Option.some.inj found
    simp only [step,checkAndSet,checkAndSetAt,Option.getD_none,tryBlocks,full,second,Option.map_some]
    exact ⟨_,rfl⟩
  · cases found

def place : List (Nat × Id) → (Nat → Nat) → Nat → Nat
  | [], t => t
  | (slot,id) :: rest, t => place rest (Function.update t slot (id.val + 1))

def Places (P : Nat) : List (Nat × Id) → (Nat → Nat) → Prop
  | [], _ => True
  | (slot,id) :: rest, t =>
    slotOf t P (id.val + 1) = some slot ∧ Places P rest (Function.update t slot (id.val + 1))

instance placesDecidable (P : Nat) : ∀ placed t, Decidable (Places P placed t)
  | [], _ => .isTrue trivial
  | (slot,id) :: rest, t =>
    have := placesDecidable P rest (Function.update t slot (id.val + 1))
    inferInstanceAs (Decidable (_ ∧ _))

theorem runPlaces {placed : List (Nat × Id)} (fits : Places h.poolSize placed h.hashTable) (fuel : Nat) :
    ∃ b, run (step (fuel + 1)) h (placed.map Prod.snd) =
      some { h with secondHash := b, hashTable := place placed h.hashTable } := by
  induction placed generalizing h with
  | nil => exact ⟨h.secondHash,rfl⟩
  | cons p rest ih =>
    obtain ⟨b,first⟩ : ∃ b, step (fuel + 1) h p.2 =
        some { h with secondHash := b, hashTable := Function.update h.hashTable p.1 (p.2.val + 1) } := slotOfStep fits.1
    obtain ⟨c,later⟩ := @ih { h with secondHash := b, hashTable := Function.update h.hashTable p.1 (p.2.val + 1) } fits.2
    refine ⟨c,?_⟩
    rw [List.map_cons,runCons first]
    exact later

theorem placeTaken {placed : List (Nat × Id)} {t : Nat → Nat} {i : Nat} :
    place placed t i ≠ 0 ↔ t i ≠ 0 ∨ i ∈ placed.map Prod.fst := by
  induction placed generalizing t with
  | nil => simp [place]
  | cons p rest ih =>
    rw [place,ih,List.map_cons,List.mem_cons]
    rcases eq_or_ne i p.1 with same | away
    · rw [same,Function.update_self]
      exact iff_of_true (.inl (Nat.succ_ne_zero _)) (.inr (.inl rfl))
    · rw [Function.update_of_ne away]
      simp [away]

/- Only the taken slots matter to DoubleSize. -/
theorem refillTaken (h : OptHashPosVector) : refill h =
    ((List.range (newPool h + 1)).filter (fun i => decide (h.hashTable i ≠ 0))).foldlM (putSlot h (newPool h))
      (fun _ => 0,false) := by
  rw [List.foldlM_filter]
  unfold refill
  congr 1
  funext s i
  unfold putSlot
  by_cases taken : h.hashTable i ≠ 0
  · rw [if_pos taken,if_pos (decide_eq_true taken)]
  · rw [if_neg taken,if_neg (by rwa [decide_eq_true_eq])]
    rfl

theorem fullNeverReturns {idx : Nat} (full : tryBlocks h.hashTable h.poolSize idx = none) (stuck : refill h = none)
    (fuel : Nat) : checkAndSetAt fuel h none h.poolSize idx = none := by
  cases fuel with
  | zero => rfl
  | succ fuel => rw [callFull full,neverReturns stuck,Option.bind_none]

/- Fifteen ids that share a chain, in the order in which they are put. Their chain starts in
the last slots, so that most of them are in the first slots and stand in the way of one
another when the table is doubled. -/
def sharing : List (Nat × Id) :=
  [(16383,19309),(0,52077),(2,84845),(5,117613),(9,150381),(14,183149),(20,215917),(21,29308),(32767,248685),
    (16384,281453),(16386,314221),(16389,346989),(16393,379757),(16398,412525),(16404,445293)]

theorem sharingStuck : refill { newTable (fun _ => 0) with hashTable := place sharing (newTable (fun _ => 0)).hashTable } =
    none := by
  rw [refillTaken]
  have slots : (List.range (2 * (16383 + 1))).filter (fun i =>
      decide (place sharing (newTable (fun _ => 0)).hashTable i ≠ 0)) =
        [0,2,5,9,14,20,21,16383,16384,16386,16389,16393,16398,16404,32767] := by
    refine (List.pairwise_lt_range.filter _).eq_of_mem_iff (by decide) (fun i => ?_)
    rw [List.mem_filter,decide_eq_true_eq,placeTaken,List.mem_range]
    have zero : (newTable (fun _ => 0)).hashTable i = 0 := by
      simp [newTable,init,clear]
    rw [zero]
    simp [sharing]
    omega
  have pool : newPool { newTable (fun _ => 0) with hashTable := place sharing (newTable (fun _ => 0)).hashTable } + 1 =
      2 * (16383 + 1) := by decide
  rw [pool,slots]
  exact Option.isNone_iff_eq_none.mp (by decide +kernel)

/- The sixteenth id of the chain never comes back. -/
theorem sixteenthNeverReturns :
    ¬∃ fuel, run (step fuel) (newTable (fun _ => 0)) (sharing.map Prod.snd ++ [478061]) ≠ none := by
  rintro ⟨fuel,returned⟩
  refine returned ?_
  cases fuel with
  | zero => rfl
  | succ fuel =>
    have fits : Places (newTable (fun _ => 0)).poolSize sharing (newTable (fun _ => 0)).hashTable := by decide +kernel
    obtain ⟨b,first⟩ := runPlaces fits fuel
    have full : tryBlocks (place sharing (newTable (fun _ => 0)).hashTable) (newTable (fun _ => 0)).poolSize 478062 =
        none := Option.isNone_iff_eq_none.mp (by decide +kernel)
    rw [runAppend,first,Option.bind_some,run,step,checkAndSet]
    have never := @fullNeverReturns { newTable (fun _ => 0) with
      secondHash := b, hashTable := place sharing (newTable (fun _ => 0)).hashTable } 478062 full sharingStuck (fuel + 1)
    rw [show (478061 : Id).val + 1 = 478062 from rfl,never]
    rfl

end Returning

end CoTra.HashTable
