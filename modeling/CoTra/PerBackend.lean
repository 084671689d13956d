import CoTra.Progress
import CoTra.Spans

/-! The offsets of the per-thread storage (backend.cpp: PerBackend). A schedule is the list of the
calls and of the threads that move; a move is one access of nextLoc, or what is done under the lock
of the free offsets. `none` is a call that stops the program. -/
namespace CoTra.PerBackend
open Runs Progress Spread Spans

def MAX_SIZE : Nat := 32

def MIN_SIZE : Nat := 7

def nextLog2From (size : Nat) : Nat → Nat → Nat
  | 0,i => i
  | fuel + 1,i => if 2 ^ i < size then nextLog2From size fuel (i + 1) else i

-- No size is tried behind MAX_SIZE, where the code aborts.
def nextLog2 (size : Nat) : Nat := nextLog2From size (MAX_SIZE - MIN_SIZE) MIN_SIZE

inductive Pc where
  | idle
  | load (size : Nat)
  | bump (size : Nat)
  | locked (size : Nat)
  | recover (offset size : Nat)
  | push (offset size : Nat)
  deriving DecidableEq, Repr

/- `held` is history: the offsets that were returned and not given back, with the size asked for. -/
structure State where
  nextLoc : Nat
  freeOffsets : Nat → List Nat
  pc : Nat → Pc
  held : List (Nat × Nat)

inductive Action where
  | allocOffset (t sz : Nat)
  | deallocOffset (t offset sz : Nat)
  | move (t : Nat)
  deriving DecidableEq, Repr

def begin' : State := ⟨0,fun _ => [],fun _ => .idle,[]⟩

def goto (s : State) (t : Nat) (pc : Pc) : State := { s with pc := Function.update s.pc t pc }

def setFree (s : State) (i : Nat) (offsets : List Nat) : State :=
  { s with freeOffsets := Function.update s.freeOffsets i offsets }

def pushFree (s : State) (i offset : Nat) : State := setFree s i (offset :: s.freeOffsets i)

def handOut (s : State) (offset sz : Nat) : State := { s with held := (offset,sz) :: s.held }

/- The vending machine change: what is left of a bigger piece, in pieces that get smaller. -/
def change (start stop : Nat) : Nat → State → State
  | 0,s => s
  | i + 1,s => if start < stop then change (start + 2 ^ i) stop i (pushFree s i start) else s

-- A bigger piece, or one of the right size.
def firstFree (s : State) (ll : Nat) : Option Nat :=
  (List.range' ll (MAX_SIZE - ll)).find? (fun index => (s.freeOffsets index).isEmpty = false)

def vend (s : State) (sz : Nat) : Option (Nat × State) :=
  let ll := nextLog2 sz
  match firstFree s ll with
  | none => none
  | some index =>
    match s.freeOffsets index with
    | [] => none
    | offset :: rest => some (offset,change (offset + 2 ^ ll) (offset + 2 ^ index) index (setFree s index rest))

def move (ptAllocSize : Nat) (s : State) (t : Nat) : Option State :=
  match s.pc t with
  | .idle => some s
  | .load sz =>
    some (goto s t (if (s.nextLoc + 2 ^ nextLog2 sz) % 2 ^ 32 ≤ ptAllocSize then .bump sz else .locked sz))
  | .bump sz =>
    let size := 2 ^ nextLog2 sz
    let offset := s.nextLoc
    let s := { s with nextLoc := (s.nextLoc + size) % 2 ^ 32 }
    some (if (offset + size) % 2 ^ 32 ≤ ptAllocSize then goto (handOut s offset sz) t .idle else goto s t (.locked sz))
  | .locked sz =>
    match vend s sz with
    | some (offset,s) => some (goto (handOut s offset sz) t .idle)
    | none => none
  | .recover offset sz =>
    some (if s.nextLoc = (offset + 2 ^ nextLog2 sz) % 2 ^ 32 then goto { s with nextLoc := offset } t .idle
      else goto s t (.push offset sz))
  | .push offset sz => some (goto (pushFree s (nextLog2 sz) offset) t .idle)

def step (threads ptAllocSize : Nat) (s : State) : Action → Option State
  | .allocOffset t sz =>
    if t < threads ∧ s.pc t = .idle ∧ nextLog2 sz < MAX_SIZE then some (goto s t (.load sz)) else none
  | .deallocOffset t offset sz =>
    if t < threads ∧ s.pc t = .idle ∧ (offset,sz) ∈ s.held then
      some (goto { s with held := s.held.erase (offset,sz) } t (.recover offset sz))
    else none
  | .move t => if t < threads then move ptAllocSize s t else none

def covered (offset ll x : Nat) : Nat := inRange offset (offset + 2 ^ ll) x

-- A block that a thread gives back.
def carried (x : Nat) : Pc → Nat
  | .recover offset sz | .push offset sz => covered offset (nextLog2 sz) x
  | _ => 0

def reserved : Pc → Nat
  | .bump sz => 2 ^ nextLog2 sz
  | _ => 0

def heldCover (s : State) (x : Nat) : Nat := sumOf (fun b => covered b.1 (nextLog2 b.2) x) s.held

def freeAt (s : State) (x i : Nat) : Nat := sumOf (fun offset => covered offset i x) (s.freeOffsets i)

def freeCover (s : State) (x : Nat) : Nat := total MAX_SIZE (freeAt s x)

def carriedCover (threads : Nat) (s : State) (x : Nat) : Nat := total threads (fun t => carried x (s.pc t))

def sizeOf' : Pc → Option Nat
  | .load sz | .bump sz | .locked sz | .recover _ sz | .push _ sz => some sz
  | .idle => none

structure Safe (threads ptAllocSize most : Nat) (s : State) : Prop where
  once : ∀ x, heldCover s x + freeCover s x + carriedCover threads s x ≤ if x < s.nextLoc then 1 else 0
  heldIn : ∀ b ∈ s.held, b.1 + 2 ^ nextLog2 b.2 ≤ ptAllocSize ∧ nextLog2 b.2 < MAX_SIZE ∧ 2 ^ nextLog2 b.2 ≤ most
  freeIn : ∀ i, i < MAX_SIZE → ∀ offset ∈ s.freeOffsets i, offset + 2 ^ i ≤ ptAllocSize
  carriedIn : ∀ t offset sz, s.pc t = .recover offset sz ∨ s.pc t = .push offset sz →
    offset + 2 ^ nextLog2 sz ≤ ptAllocSize
  sizes : ∀ t sz, sizeOf' (s.pc t) = some sz → nextLog2 sz < MAX_SIZE ∧ 2 ^ nextLog2 sz ≤ most
  budget : s.nextLoc + total threads (fun t => reserved (s.pc t)) ≤ ptAllocSize + threads * most

section Sizes

theorem nextLog2FromFits (size fuel i : Nat) (inside : nextLog2From size fuel i < i + fuel) :
    size ≤ 2 ^ nextLog2From size fuel i := by
  induction fuel generalizing i with
  | zero => exact absurd inside (by simp [nextLog2From])
  | succ fuel ih =>
    unfold nextLog2From at inside ⊢
    split
    · rename_i small
      rw [if_pos small] at inside
      exact ih (i + 1) (by omega)
    · omega

theorem nextLog2Fits {size : Nat} (inside : nextLog2 size < MAX_SIZE) : size ≤ 2 ^ nextLog2 size :=
  nextLog2FromFits size (MAX_SIZE - MIN_SIZE) MIN_SIZE inside

end Sizes

section Pieces

variable {s : State} {i offset : Nat}

theorem setFreeCover (inside : i < MAX_SIZE) (offsets : List Nat) (x : Nat) :
    freeCover (setFree s i offsets) x + freeAt s x i = freeCover s x + sumOf (fun offset => covered offset i x) offsets := by
  have own : freeAt (setFree s i offsets) x i = sumOf (fun offset => covered offset i x) offsets := by
    simp only [freeAt,setFree,Function.update_self]
  rw [← own]
  refine totalChange inside (fun k other => ?_)
  simp only [freeAt,setFree,Function.update_of_ne other]

theorem pushFreeCover (inside : i < MAX_SIZE) (offset x : Nat) :
    freeCover (pushFree s i offset) x = freeCover s x + covered offset i x := by
  have change' := @setFreeCover s i inside (offset :: s.freeOffsets i) x
  rw [sumCons] at change'
  unfold pushFree
  unfold freeAt at change'
  omega

theorem setFreeOther {k : Nat} (offsets : List Nat) (other : k ≠ i) : (setFree s i offsets).freeOffsets k = s.freeOffsets k :=
  Function.update_of_ne other ..

theorem setFreeSelf (offsets : List Nat) : (setFree s i offsets).freeOffsets i = offsets := Function.update_self ..

/- The pieces that are pushed are what is left of the bigger one. -/
structure Changed (s u : State) (start stop : Nat) : Prop where
  nextLoc : u.nextLoc = s.nextLoc
  pc : u.pc = s.pc
  held : u.held = s.held
  cover : ∀ x, freeCover u x = freeCover s x + inRange start stop x
  pieces : ∀ k, ∀ offset ∈ u.freeOffsets k, offset ∈ s.freeOffsets k ∨ offset + 2 ^ k ≤ stop

theorem changeChanged {ll : Nat} (start stop i : Nat) (s : State) (most : i ≤ MAX_SIZE) (le : ll ≤ i)
    (rest : start + 2 ^ i = stop + 2 ^ ll) : Changed s (change start stop i s) start stop := by
  induction i generalizing start s with
  | zero =>
    have none' : start = stop := by
      have : ll = 0 := by omega
      subst this
      omega
    subst none'
    refine ⟨rfl,rfl,rfl,fun x => ?_,fun k offset member => Or.inl member⟩
    rw [inRangeEmpty (Nat.le_refl _),Nat.add_zero,change]
  | succ i ih =>
    unfold change
    rcases Nat.eq_or_lt_of_le le with same | less
    · have none' : start = stop := by
        subst same
        omega
      rw [if_neg (by omega)]
      refine ⟨rfl,rfl,rfl,fun x => ?_,fun k offset member => Or.inl member⟩
      rw [inRangeEmpty (Nat.le_of_eq none'.symm),Nat.add_zero]
    · have half : 2 ^ (i + 1) = 2 ^ i + 2 ^ i := by rw [Nat.pow_succ]; omega
      have small : 2 ^ ll ≤ 2 ^ i := Nat.pow_le_pow_right (by decide) (by omega)
      have some' := Nat.two_pow_pos i
      rw [if_pos (by omega)]
      have later := ih (start + 2 ^ i) (pushFree s i start) (by omega) (by omega) (by omega)
      refine ⟨later.nextLoc,later.pc,later.held,fun x => ?_,fun k offset member => ?_⟩
      · rw [later.cover,pushFreeCover (by omega),Nat.add_assoc]
        unfold covered
        rw [← inRangeSplit (Nat.le_add_right _ _) (by omega)]
      · rcases later.pieces k offset member with before | fits
        · rcases eq_or_ne k i with rfl | other
          · unfold pushFree at before
            rw [setFreeSelf] at before
            rcases List.mem_cons.mp before with rfl | before
            · exact Or.inr (by omega)
            · exact Or.inl before
          · unfold pushFree at before
            rw [setFreeOther _ other] at before
            exact Or.inl before
        · exact Or.inr fits

/- What is handed out and what is left of it were one free block. -/
structure Vended (pt : Nat) (s u : State) (offset ll : Nat) : Prop where
  nextLoc : u.nextLoc = s.nextLoc
  pc : u.pc = s.pc
  held : u.held = s.held
  cover : ∀ x, freeCover u x + covered offset ll x = freeCover s x
  inside : offset + 2 ^ ll ≤ pt
  pieces : ∀ i, i < MAX_SIZE → ∀ offset ∈ u.freeOffsets i, offset + 2 ^ i ≤ pt

theorem vendVended {pt sz : Nat} {u : State} (inside : ∀ i, i < MAX_SIZE → ∀ offset ∈ s.freeOffsets i, offset + 2 ^ i ≤ pt)
    (found : vend s sz = some (offset,u)) : Vended pt s u offset (nextLog2 sz) := by
  simp only [vend] at found
  split at found
  · cases found
  · rename_i index at'
    have member := List.mem_of_find?_eq_some at'
    rw [List.mem_range'_1] at member
    split at found
    · cases found
    · rename_i first rest top
      cases found
      have known : index < MAX_SIZE := by omega
      have first' := inside index known offset (by rw [top]; exact List.mem_cons_self)
      have small : 2 ^ nextLog2 sz ≤ 2 ^ index := Nat.pow_le_pow_right (by decide) member.1
      have changed := changeChanged (offset + 2 ^ nextLog2 sz) (offset + 2 ^ index) index (setFree s index rest)
        (by omega) member.1 (by omega)
      refine ⟨changed.nextLoc,changed.pc,changed.held,fun x => ?_,by omega,fun i known' offset' member' => ?_⟩
      · have took := @setFreeCover s index known rest x
        rw [freeAt,top,sumCons] at took
        have whole : covered offset index x = covered offset (nextLog2 sz) x +
            inRange (offset + 2 ^ nextLog2 sz) (offset + 2 ^ index) x :=
          inRangeSplit (Nat.le_add_right _ _) (Nat.add_le_add_left small _) x
        rw [changed.cover]
        omega
      · rcases changed.pieces i offset' member' with before | fits
        · rcases eq_or_ne i index with rfl | other
          · rw [setFreeSelf] at before
            exact inside i known' offset' (by rw [top]; exact List.mem_cons_of_mem _ before)
          · rw [setFreeOther _ other] at before
            exact inside i known' offset' before
        · omega

end Pieces

section Moves

variable {threads pt most : Nat} {s u : State} {t : Nat} {q : Pc}

theorem reservedLe (sizes : ∀ t sz, sizeOf' (s.pc t) = some sz → nextLog2 sz < MAX_SIZE ∧ 2 ^ nextLog2 sz ≤ most) (t : Nat) :
    reserved (s.pc t) ≤ most := by
  cases here : s.pc t with
  | bump sz => exact (sizes t sz (by rw [here]; rfl)).2
  | idle | load _ | locked _ | recover _ _ | push _ _ => exact Nat.zero_le _

theorem totalTurn (f : Pc → Nat) (inside : t < threads) (pcs : u.pc = Function.update s.pc t q) :
    total threads (fun k => f (u.pc k)) + f (s.pc t) = total threads (fun k => f (s.pc k)) + f q := by
  have self' : u.pc t = q := by rw [pcs,Function.update_self]
  have turned := @totalChange (fun k => f (s.pc k)) (fun k => f (u.pc k)) threads t inside
    (fun k other => by simp only [pcs,Function.update_of_ne other])
  simp only [self'] at turned
  exact turned

-- The block at the end of what was given out.
theorem coveredEnd (loc ll x : Nat) :
    covered loc ll x + (if x < loc then 1 else 0) = if x < loc + 2 ^ ll then 1 else 0 := by
  have := Nat.two_pow_pos ll
  unfold covered inRange
  split <;> split <;> split <;> omega

/- One thread moves, and what the others carry and have reserved stays. -/
theorem safeMoved (safe : Safe threads pt most s) (inside : t < threads) (pcs : u.pc = Function.update s.pc t q)
    (once : ∀ x others, heldCover s x + freeCover s x + (others + carried x (s.pc t)) ≤ (if x < s.nextLoc then 1 else 0) →
      heldCover u x + freeCover u x + (others + carried x q) ≤ if x < u.nextLoc then 1 else 0)
    (heldIn : ∀ b ∈ u.held, b.1 + 2 ^ nextLog2 b.2 ≤ pt ∧ nextLog2 b.2 < MAX_SIZE ∧ 2 ^ nextLog2 b.2 ≤ most)
    (freeIn : ∀ i, i < MAX_SIZE → ∀ offset ∈ u.freeOffsets i, offset + 2 ^ i ≤ pt)
    (carriedIn : ∀ offset sz, q = .recover offset sz ∨ q = .push offset sz → offset + 2 ^ nextLog2 sz ≤ pt)
    (sizes : ∀ sz, sizeOf' q = some sz → nextLog2 sz < MAX_SIZE ∧ 2 ^ nextLog2 sz ≤ most)
    (budget : ∀ others, others + reserved q ≤ threads * most → s.nextLoc + (others + reserved (s.pc t)) ≤ pt + threads * most →
      u.nextLoc + (others + reserved q) ≤ pt + threads * most) : Safe threads pt most u := by
  have self' : u.pc t = q := by rw [pcs,Function.update_self]
  have other' : ∀ k, k ≠ t → u.pc k = s.pc k := fun k other => by rw [pcs,Function.update_of_ne other]
  have sizes' : ∀ k sz, sizeOf' (u.pc k) = some sz → nextLog2 sz < MAX_SIZE ∧ 2 ^ nextLog2 sz ≤ most := by
    intro k sz has
    rcases eq_or_ne k t with rfl | other
    · exact sizes sz (self' ▸ has)
    · exact safe.sizes k sz (other' k other ▸ has)
  refine ⟨fun x => ?_,heldIn,freeIn,fun k offset sz has => ?_,sizes',?_⟩
  · have changed : carriedCover threads u x + carried x (s.pc t) = carriedCover threads s x + carried x q :=
      totalTurn (carried x) inside pcs
    have least : carried x (s.pc t) ≤ carriedCover threads s x := totalLeast inside (fun t => carried x (s.pc t))
    have := once x (carriedCover threads s x - carried x (s.pc t)) (by
      rw [Nat.sub_add_cancel least]
      exact safe.once x)
    rw [show carriedCover threads u x = carriedCover threads s x - carried x (s.pc t) + carried x q by omega]
    exact this
  · rcases eq_or_ne k t with rfl | other
    · exact carriedIn offset sz (self' ▸ has)
    · exact safe.carriedIn k offset sz (other' k other ▸ has)
  · have changed := totalTurn reserved inside pcs
    have least : reserved (s.pc t) ≤ total threads (fun k => reserved (s.pc k)) :=
      totalLeast inside (fun t => reserved (s.pc t))
    have bound : total threads (fun k => reserved (u.pc k)) ≤ threads * most := totalBound (fun k _ => reservedLe sizes' k)
    have before := safe.budget
    have := budget (total threads (fun k => reserved (s.pc k)) - reserved (s.pc t)) (by omega) (by omega)
    omega

theorem nextLocLess (safe : Safe threads pt most s) (room : pt + (threads + 1) * most < 2 ^ 32) :
    s.nextLoc + most < 2 ^ 32 := by
  have := safe.budget
  rw [Nat.succ_mul] at room
  omega

theorem bumpSafe {sz : Nat} (safe : Safe threads pt most s) (room : pt + (threads + 1) * most < 2 ^ 32)
    (inside : t < threads) (here : s.pc t = .bump sz) {v : State} (h : move pt s t = some v) : Safe threads pt most v := by
  have small := nextLocLess safe room
  have sized := safe.sizes t sz (by rw [here]; rfl)
  have plain : (s.nextLoc + 2 ^ nextLog2 sz) % 2 ^ 32 = s.nextLoc + 2 ^ nextLog2 sz := Nat.mod_eq_of_lt (by omega)
  have all : ∀ others, others + 0 ≤ threads * most → s.nextLoc + (others + 2 ^ nextLog2 sz) ≤ pt + threads * most →
      s.nextLoc + 2 ^ nextLog2 sz + (others + 0) ≤ pt + threads * most := fun others _ before => by omega
  simp only [move,here,plain] at h
  cases h
  split
  · rename_i fits
    refine safeMoved safe inside rfl (fun x others before => ?_) (fun b member => ?_) safe.freeIn
      (fun _ _ no => by rcases no with no | no <;> cases no) (fun _ no => by cases no) (fun others most' before => ?_)
    · rw [here] at before
      show sumOf _ ((s.nextLoc,sz) :: s.held) + freeCover s x + (others + 0) ≤ if x < s.nextLoc + 2 ^ nextLog2 sz then 1 else 0
      rw [sumCons,← coveredEnd]
      change heldCover s x + freeCover s x + (others + 0) ≤ _ at before
      show covered s.nextLoc (nextLog2 sz) x + heldCover s x + freeCover s x + (others + 0) ≤ _
      omega
    · rcases List.mem_cons.mp member with rfl | member
      · exact ⟨fits,sized⟩
      · exact safe.heldIn b member
    · rw [here] at before
      exact all others most' before
  · refine safeMoved safe inside rfl (fun x others before => ?_) safe.heldIn safe.freeIn
      (fun _ _ no => by rcases no with no | no <;> cases no) (fun sz' same => ?_) (fun others most' before => ?_)
    · rw [here] at before
      refine before.trans ?_
      show _ ≤ if x < s.nextLoc + 2 ^ nextLog2 sz then 1 else 0
      rw [← coveredEnd]
      exact Nat.le_add_left _ _
    · cases same
      exact sized
    · rw [here] at before
      exact all others most' before

/- A thread that changes neither nextLoc nor what it has reserved, and covers nothing new. -/
theorem quietSafe (safe : Safe threads pt most s) (inside : t < threads) (pcs : u.pc = Function.update s.pc t q)
    (nextLoc : u.nextLoc = s.nextLoc) (unreserved : reserved q = 0)
    (once : ∀ x, heldCover u x + freeCover u x + carried x q = heldCover s x + freeCover s x + carried x (s.pc t))
    (heldIn : ∀ b ∈ u.held, b.1 + 2 ^ nextLog2 b.2 ≤ pt ∧ nextLog2 b.2 < MAX_SIZE ∧ 2 ^ nextLog2 b.2 ≤ most)
    (freeIn : ∀ i, i < MAX_SIZE → ∀ offset ∈ u.freeOffsets i, offset + 2 ^ i ≤ pt)
    (carriedIn : ∀ offset sz, q = .recover offset sz ∨ q = .push offset sz → offset + 2 ^ nextLog2 sz ≤ pt)
    (sizes : ∀ sz, sizeOf' q = some sz → nextLog2 sz < MAX_SIZE ∧ 2 ^ nextLog2 sz ≤ most) : Safe threads pt most u := by
  refine safeMoved safe inside pcs (fun x others before => ?_) heldIn freeIn carriedIn sizes (fun others _ before => ?_)
  · rw [nextLoc]
    have := once x
    omega
  · rw [nextLoc,unreserved]
    omega

theorem loadSafe {sz : Nat} (safe : Safe threads pt most s) (room : pt + (threads + 1) * most < 2 ^ 32)
    (inside : t < threads) (here : s.pc t = .load sz) {v : State} (h : move pt s t = some v) : Safe threads pt most v := by
  have small := nextLocLess safe room
  have sized := safe.sizes t sz (by rw [here]; rfl)
  have plain : (s.nextLoc + 2 ^ nextLog2 sz) % 2 ^ 32 = s.nextLoc + 2 ^ nextLog2 sz := Nat.mod_eq_of_lt (by omega)
  simp only [move,here,plain] at h
  cases h
  split
  · rename_i fits
    refine safeMoved safe inside rfl (fun x others before => ?_) safe.heldIn safe.freeIn
      (fun _ _ no => by rcases no with no | no <;> cases no) (fun sz' same => ?_) (fun others bound before => ?_)
    · rw [here] at before
      exact before
    · cases same
      exact sized
    · rw [reserved] at bound ⊢
      show s.nextLoc + _ ≤ _
      omega
  · refine quietSafe safe inside rfl rfl rfl (fun x => by rw [here]; rfl) safe.heldIn safe.freeIn
      (fun _ _ no => by rcases no with no | no <;> cases no) (fun sz' same => ?_)
    cases same
    exact sized

theorem lockedSafe {sz : Nat} (safe : Safe threads pt most s) (inside : t < threads) (here : s.pc t = .locked sz) {v : State}
    (h : move pt s t = some v) : Safe threads pt most v := by
  have sized := safe.sizes t sz (by rw [here]; rfl)
  simp only [move,here] at h
  split at h
  · rename_i offset u found
    cases h
    have vended := vendVended safe.freeIn found
    have pcs : (goto (handOut u offset sz) t .idle).pc = Function.update s.pc t .idle := by
      rw [← vended.pc]
      rfl
    refine quietSafe safe inside pcs vended.nextLoc rfl (fun x => ?_) (fun b member => ?_) vended.pieces
      (fun _ _ no => by rcases no with no | no <;> cases no) (fun _ no => by cases no)
    · rw [here,← vended.cover x]
      show sumOf _ ((offset,sz) :: u.held) + freeCover u x + 0 = heldCover s x + (freeCover u x + covered offset (nextLog2 sz) x) + 0
      rw [sumCons,vended.held]
      show covered offset (nextLog2 sz) x + heldCover s x + freeCover u x + 0 = _
      omega
    · rcases List.mem_cons.mp member with rfl | member
      · exact ⟨vended.inside,sized⟩
      · rw [vended.held] at member
        exact safe.heldIn b member
  · cases h

theorem recoverSafe {offset sz : Nat} (safe : Safe threads pt most s) (room : pt + (threads + 1) * most < 2 ^ 32)
    (inside : t < threads) (here : s.pc t = .recover offset sz) {v : State} (h : move pt s t = some v) :
    Safe threads pt most v := by
  have sized := safe.sizes t sz (by rw [here]; rfl)
  have fits := safe.carriedIn t offset sz (Or.inl here)
  have plain : (offset + 2 ^ nextLog2 sz) % 2 ^ 32 = offset + 2 ^ nextLog2 sz := Nat.mod_eq_of_lt (by omega)
  simp only [move,here,plain] at h
  cases h
  split
  · rename_i last
    have pcs : (goto { s with nextLoc := offset } t .idle).pc = Function.update s.pc t .idle := rfl
    refine safeMoved safe inside pcs (fun x others before => ?_) safe.heldIn safe.freeIn
      (fun _ _ no => by rcases no with no | no <;> cases no) (fun _ no => by cases no) (fun others _ before => ?_)
    · rw [here,last,← coveredEnd] at before
      change heldCover s x + freeCover s x + (others + covered offset (nextLog2 sz) x) ≤ _ at before
      show heldCover s x + freeCover s x + (others + 0) ≤ if x < offset then 1 else 0
      omega
    · rw [here] at before
      change s.nextLoc + (others + 0) ≤ _ at before
      show offset + (others + 0) ≤ _
      have := Nat.two_pow_pos (nextLog2 sz)
      omega
  · refine quietSafe safe inside rfl rfl rfl (fun x => by rw [here]; rfl) safe.heldIn safe.freeIn
      (fun offset' sz' same => ?_) (fun sz' same => ?_)
    · rcases same with same | same
      · cases same
      · cases same
        exact fits
    · cases same
      exact sized

theorem pushSafe {offset sz : Nat} (safe : Safe threads pt most s) (inside : t < threads) (here : s.pc t = .push offset sz)
    {v : State} (h : move pt s t = some v) : Safe threads pt most v := by
  have sized := safe.sizes t sz (by rw [here]; rfl)
  have fits := safe.carriedIn t offset sz (Or.inr here)
  simp only [move,here] at h
  cases h
  refine quietSafe safe inside rfl rfl rfl (fun x => ?_) safe.heldIn (fun i known offset' member => ?_)
    (fun _ _ no => by rcases no with no | no <;> cases no) (fun _ no => by cases no)
  · have pushed := @pushFreeCover s (nextLog2 sz) sized.1 offset x
    rw [here]
    show heldCover s x + freeCover (pushFree s (nextLog2 sz) offset) x + 0 =
      heldCover s x + freeCover s x + covered offset (nextLog2 sz) x
    omega
  · change offset' ∈ (pushFree s (nextLog2 sz) offset).freeOffsets i at member
    rcases eq_or_ne i (nextLog2 sz) with rfl | other
    · unfold pushFree at member
      rw [setFreeSelf] at member
      rcases List.mem_cons.mp member with rfl | member
      · exact fits
      · exact safe.freeIn _ known offset' member
    · unfold pushFree at member
      rw [setFreeOther _ other] at member
      exact safe.freeIn i known offset' member

theorem sumErased {b : Nat × Nat} {held : List (Nat × Nat)} (f : Nat × Nat → Nat) (member : b ∈ held) :
    sumOf f (held.erase b) + f b = sumOf f held := by
  have found := List.getElem?_idxOf member
  rw [List.erase_eq_eraseIdx_of_idxOf rfl]
  exact sumErase f found

-- The sizes that are asked for, with their rounding.
def sized (most : Nat) : Action → Bool
  | .allocOffset _ sz => 2 ^ nextLog2 sz ≤ most
  | _ => true

theorem stepSafe {a : Action} (room : pt + (threads + 1) * most < 2 ^ 32) (small : sized most a = true)
    (h : step threads pt s a = some u) (safe : Safe threads pt most s) : Safe threads pt most u := by
  cases a with
  | allocOffset t sz =>
    simp only [step] at h
    split at h
    · rename_i may
      cases h
      refine quietSafe safe may.1 rfl rfl rfl (fun x => by rw [may.2.1]; rfl) safe.heldIn safe.freeIn
        (fun _ _ no => by rcases no with no | no <;> cases no) (fun sz' same => ?_)
      cases same
      exact ⟨may.2.2,of_decide_eq_true small⟩
    · cases h
  | deallocOffset t offset sz =>
    simp only [step] at h
    split at h
    · rename_i may
      cases h
      have known := safe.heldIn _ may.2.2
      refine quietSafe safe may.1 rfl rfl rfl (fun x => ?_) (fun b member => safe.heldIn b (List.mem_of_mem_erase member))
        safe.freeIn (fun offset' sz' same => ?_) (fun sz' same => ?_)
      · have erased := sumErased (fun b => covered b.1 (nextLog2 b.2) x) may.2.2
        rw [may.2.1]
        show sumOf _ (s.held.erase (offset,sz)) + freeCover s x + covered offset (nextLog2 sz) x =
          sumOf _ s.held + freeCover s x + 0
        simp only at erased
        omega
      · rcases same with same | same
        · cases same
          exact known.1
        · cases same
      · cases same
        exact known.2
    · cases h
  | move t =>
    simp only [step] at h
    split at h
    · rename_i inside
      cases here : s.pc t with
      | idle =>
        simp only [move,here] at h
        cases h
        exact safe
      | load sz => exact loadSafe safe room inside here h
      | bump sz => exact bumpSafe safe room inside here h
      | locked sz => exact lockedSafe safe inside here h
      | recover offset sz => exact recoverSafe safe room inside here h
      | push offset sz => exact pushSafe safe inside here h
    · cases h

theorem beginSafe (threads pt most : Nat) : Safe threads pt most begin' where
  once x := by
    have free : freeCover begin' x = 0 := Nat.le_zero.mp (Nat.le_trans (totalBound (fun _ _ => Nat.le_refl 0)) (by omega))
    have carried' : carriedCover threads begin' x = 0 :=
      Nat.le_zero.mp (Nat.le_trans (totalBound (fun _ _ => Nat.le_refl 0)) (by omega))
    rw [free,carried']
    exact Nat.zero_le _
  heldIn _ member := absurd member List.not_mem_nil
  freeIn _ _ _ member := absurd member List.not_mem_nil
  carriedIn _ _ _ no := by rcases no with no | no <;> cases no
  sizes _ _ no := by cases no
  budget := by
    have none' : total threads (fun t => reserved (begin'.pc t)) ≤ threads * 0 := totalBound (fun _ _ => Nat.le_refl 0)
    show 0 + _ ≤ _
    omega

/- Whatever the order of the threads, what is handed out and not given back lies in the storage of a
thread, as large as it was asked for, and no two of them meet. -/
theorem offsetsApart {threads pt most : Nat} {s : State} (schedule : List Action)
    (ok : run (step threads pt) begin' schedule = some s) (small : ∀ a ∈ schedule, sized most a = true)
    (room : pt + (threads + 1) * most < 2 ^ 32) :
    (∀ b ∈ s.held, b.1 + b.2 ≤ pt) ∧ s.held.Pairwise (fun a b => a.1 + a.2 ≤ b.1 ∨ b.1 + b.2 ≤ a.1) := by
  have safe : Safe threads pt most s := runEach (fun _ _ _ small h safe => stepSafe room small h safe) small ok (beginSafe ..)
  have fits : ∀ b ∈ s.held, b.2 ≤ 2 ^ nextLog2 b.2 := fun b member => nextLog2Fits (safe.heldIn b member).2.1
  have once : ∀ x, covering (·.1) (fun b : Nat × Nat => b.1 + 2 ^ nextLog2 b.2) s.held x ≤ 1 := fun x => by
    have all := safe.once x
    have one : (if x < s.nextLoc then 1 else 0) ≤ 1 := by split <;> omega
    change heldCover s x ≤ 1
    omega
  have apart := coveringApart once (fun b _ => by have := Nat.two_pow_pos (nextLog2 b.2); omega)
  refine ⟨fun b member => ?_,apart.imp_of_mem (fun {a b} first second away => ?_)⟩
  · have := (safe.heldIn b member).1
    have := fits b member
    omega
  · have := fits a first
    have := fits b second
    omega

-- Two threads that bump at once, one past the end, and the storage that is given back and cut.
def twoThreads : List Action :=
  [.allocOffset 0 100,.allocOffset 1 300,.move 0,.move 1,.move 1,.move 0,.deallocOffset 1 0 300,.move 1,.move 1,
    .allocOffset 0 60,.move 0,.move 0,.allocOffset 1 200,.move 1,.move 1]

theorem offsetsApartTwo : ∃ s, run (step 2 640) begin' twoThreads = some s ∧ s.held = [(128,200),(0,60),(512,100)] ∧
    (∀ b ∈ s.held, b.1 + b.2 ≤ 640) ∧ s.held.Pairwise (fun a b => a.1 + a.2 ≤ b.1 ∨ b.1 + b.2 ≤ a.1) := by
  have ends : (run (step 2 640) begin' twoThreads).map State.held = some [(128,200),(0,60),(512,100)] := by decide
  obtain ⟨s,ok,held⟩ := Option.map_eq_some_iff.mp ends
  exact ⟨s,ok,held,@offsetsApart 2 640 512 s twoThreads ok (by decide) (by decide)⟩

end Moves

end CoTra.PerBackend
