import CoTra.WriteBuffer

/-! Every buffer id of a link is in exactly one place. The four places are the
sender's free list, an un-received message that is not CLEAR, the peer's release
list and the payload of an un-received RELEASE or CLEAR of the peer. -/
namespace CoTra.CreditConservation
open Runs WriteBuffer

variable {n : Nat}

def heldIds (msgs : List Message) : List Nat :=
  (msgs.filter (fun m => m.control ≠ .clear)).map Message.bufId

def payload (msg : Message) : List Nat := if Releasing msg.control then releasedIds msg.words else []

def payloadIds (msgs : List Message) : List Nat := msgs.flatMap payload

def credits (s : Net n) (l : Link n) (id : Nat) : Nat :=
  (s.buffIdList l).count id + (heldIds (s.channel l)).count id +
    (s.releaseIdList l.swap).count id + (payloadIds (s.channel l.swap)).count id

@[simp] theorem heldAppend (xs ys : List Message) : heldIds (xs ++ ys) = heldIds xs ++ heldIds ys := by
  simp [heldIds]

@[simp] theorem payloadAppend (xs ys : List Message) :
    payloadIds (xs ++ ys) = payloadIds xs ++ payloadIds ys := by
  simp [payloadIds]

@[simp] theorem payloadCons (m : Message) (ms : List Message) :
    payloadIds (m :: ms) = payload m ++ payloadIds ms := rfl

@[simp] theorem payloadNil : payloadIds [] = [] := rfl

@[simp] theorem heldNil : heldIds [] = [] := rfl

theorem heldCons (m : Message) (ms : List Message) :
    heldIds (m :: ms) = if m.control = .clear then heldIds ms else m.bufId :: heldIds ms := by
  by_cases h : m.control = .clear <;> simp [heldIds,h]

@[simp] theorem releasedWritten (ids : List Nat) : releasedIds (ids.length :: ids) = ids := by
  simp [releasedIds]

theorem swapNe {l : Link n} (apart : l.1 ≠ l.2) : l.swap ≠ l := by
  intro same
  exact apart (by simpa using (congrArg Prod.snd same))

/- A link that no operation on l touches. -/
theorem untouched {k l : Link n} (a : k ≠ l) (b : k ≠ l.swap) : k.swap ≠ l ∧ k.swap ≠ l.swap := by
  constructor
  · intro h; exact b (by rw [← h,Prod.swap_swap])
  · intro h; exact a (Prod.swap_injective h)

theorem sendCredits {s t : Net n} {l control data} (apart : l.1 ≠ l.2) (normal : ¬Releasing control)
    (h : sendNormal s l control data = some t) (k : Link n) (id : Nat) :
    credits t k id = credits s k id := by
  obtain ⟨b,tail,ids,_,rfl⟩ := sendNormalSource h
  have notClear : control ≠ .clear := fun e => normal (.inr e)
  have ne := swapNe apart
  by_cases first : k = l
  · subst k
    simp [credits,postWriteSend,ids,heldCons,notClear,ne,List.count_cons]
    omega
  · by_cases second : k = l.swap
    · subst k
      simp [credits,postWriteSend,payload,normal,ne]
    · obtain ⟨c,d⟩ := untouched first second
      simp [credits,postWriteSend,first,c]

theorem postReleaseCredits {s t : Net n} {control pop l} (apart : l.1 ≠ l.2)
    (kind : (control = .release ∧ pop = true) ∨ (control = .clear ∧ pop = false))
    (h : postRelease control pop s l = some t) (k : Link n) (id : Nat) :
    credits t k id = credits s k id := by
  obtain ⟨b,tail,ids,rfl⟩ := postReleaseSource h
  have releasing : Releasing control := by
    rcases kind with ⟨e,_⟩ | ⟨e,_⟩
    · exact .inl e
    · exact .inr e
  have ne := swapNe apart
  by_cases first : k = l
  · subst k
    rcases kind with ⟨rfl,rfl⟩ | ⟨rfl,rfl⟩
    · simp [credits,postWriteSend,ids,heldCons,ne,List.count_cons]
      omega
    · simp [credits,postWriteSend,ids,heldCons,ne,List.count_cons]
  · by_cases second : k = l.swap
    · subst k
      simp [credits,postWriteSend,payload,releasing,ne]
      omega
    · obtain ⟨c,d⟩ := untouched first second
      simp [credits,postWriteSend,first,c]

/- Receiving moves the id of a message that is not CLEAR to the receiver's release
list and the ids of its payload, read as written, to the receiver's free list. -/
theorem takeHeadCredits {reading} {s : Net n} {l : Link n} {msg rest} (apart : l.1 ≠ l.2)
    (head : s.channel l = msg :: rest)
    (faithful : Releasing msg.control → releasedIds (readWords reading s l msg) = releasedIds msg.words)
    (k : Link n) (id : Nat) :
    credits (if msg.control = .clear then takeHead reading s l msg rest
      else pushRelease (takeHead reading s l msg rest) l.swap msg.bufId) k id = credits s k id := by
  have ne := swapNe apart
  by_cases first : k = l
  · subst k
    by_cases c : msg.control = .clear
    · simp [credits,takeHead,head,heldCons,c,ne,Ne.symm ne]
    · by_cases r : Releasing msg.control <;>
        simp [credits,takeHead,pushRelease,head,heldCons,c,r,ne,Ne.symm ne,List.count_cons] <;> omega
  · by_cases second : k = l.swap
    · subst k
      by_cases r : Releasing msg.control
      · have f := faithful r
        by_cases c : msg.control = .clear
        · simp [credits,takeHead,head,c,ne,payload,f]; omega
        · simp [credits,takeHead,pushRelease,head,c,r,ne,Ne.symm ne,payload,f]; omega
      · have c : msg.control ≠ .clear := fun e => r (.inr e)
        simp [credits,takeHead,pushRelease,head,c,r,ne,Ne.symm ne,payload]
    · obtain ⟨c,d⟩ := untouched first second
      by_cases r : Releasing msg.control <;> by_cases e : msg.control = .clear <;>
        simp [credits,takeHead,pushRelease,r,e,first,second,c,d]

/- The slots of a machine for itself are never used: nothing is posted on (r,r). -/
structure Conserved (s : Net n) : Prop where
  own : ∀ r, s.channel (r,r) = [] ∧ s.releaseIdList (r,r) = []
  credit : ∀ l id, credits s l id = if id < maxWriteNum then 1 else 0

theorem channelApart {s : Net n} {l : Link n} {msg rest} (own : ∀ r, s.channel (r,r) = [] ∧ s.releaseIdList (r,r) = [])
    (head : s.channel l = msg :: rest) : l.1 ≠ l.2 := by
  intro same
  have e : l = (l.1,l.1) := Prod.ext rfl same.symm
  rw [e,(own l.1).1] at head
  contradiction

theorem releaseApart {s : Net n} {l : Link n} (own : ∀ r, s.channel (r,r) = [] ∧ s.releaseIdList (r,r) = [])
    (some' : s.releaseIdList l ≠ []) : l.1 ≠ l.2 := by
  intro same
  have e : l = (l.1,l.1) := Prod.ext rfl same.symm
  exact some' (by rw [e,(own l.1).2])

theorem linkNeOwn {l : Link n} (apart : l.1 ≠ l.2) (r : Fin n) : (r,r) ≠ l := by
  rintro rfl
  exact apart rfl

theorem initConserved : Conserved (comWriteInit n) := by
  constructor
  · intro r; exact ⟨rfl,rfl⟩
  · intro l id
    simp [credits,comWriteInit,List.count_range]

theorem postReleaseConserved {s t : Net n} {control pop l} (apart : l.1 ≠ l.2)
    (kind : (control = .release ∧ pop = true) ∨ (control = .clear ∧ pop = false))
    (h : postRelease control pop s l = some t) (valid : Conserved s) : Conserved t := by
  refine ⟨?_,fun k id => (postReleaseCredits apart kind h k id).trans (valid.credit k id)⟩
  obtain ⟨b,tail,ids,rfl⟩ := postReleaseSource h
  intro r
  simpa [postWriteSend,linkNeOwn apart r] using valid.own r

theorem sendConserved {s t : Net n} {l control data} (apart : l.1 ≠ l.2) (normal : ¬Releasing control)
    (h : sendNormal s l control data = some t) (valid : Conserved s) : Conserved t := by
  refine ⟨?_,fun k id => (sendCredits apart normal h k id).trans (valid.credit k id)⟩
  obtain ⟨b,tail,ids,_,rfl⟩ := sendNormalSource h
  intro r
  simpa [postWriteSend,linkNeOwn apart r] using valid.own r

theorem clearConserved {s t : Net n} {r : Fin n} (h : clearWriteRelease s r = some t)
    (valid : Conserved s) : Conserved t := by
  refine foldlMInvariant Conserved ?_ h valid
  intro s m t body valid
  rcases clearToSource body with ⟨_,rfl⟩ | posted
  · exact valid
  · by_cases empty : s.releaseIdList (r,m) = []
    · simp [clearWriteReleaseTo,empty] at body
      exact body ▸ valid
    · exact postReleaseConserved (releaseApart valid.own empty) (.inr ⟨rfl,rfl⟩) posted valid

/- The ids a receiver takes out of a slot are the ids that were posted in it. -/
def Faithful (reading : Reading) (s : Net n) : Prop :=
  ∀ l msg rest, s.channel l = msg :: rest → Releasing msg.control →
    releasedIds (readWords reading s l msg) = releasedIds msg.words

theorem takeConserved {reading} {s : Net n} {l : Link n} {msg rest} (head : s.channel l = msg :: rest)
    (faithful : Faithful reading s) (valid : Conserved s) :
    Conserved (if msg.control = .clear then takeHead reading s l msg rest
      else pushRelease (takeHead reading s l msg rest) l.swap msg.bufId) := by
  have apart := channelApart valid.own head
  have swapped : l.swap.1 ≠ l.swap.2 := fun e => apart e.symm
  refine ⟨?_,fun k id => (takeHeadCredits apart head (faithful l msg rest head) k id).trans (valid.credit k id)⟩
  intro r
  have a := linkNeOwn apart r
  have b := linkNeOwn swapped r
  split <;> simpa [takeHead,pushRelease,a,b] using valid.own r

theorem recvConserved {reading} {s t : Net n} {l} (h : pollRecv reading s l = some t)
    (faithful : Faithful reading s) (valid : Conserved s) : Conserved t := by
  obtain ⟨msg,rest,head,cases'⟩ := pollRecvSource h
  have apart := channelApart valid.own head
  have taken := takeConserved head faithful valid
  rcases cases' with ⟨clear,rfl⟩ | ⟨other,released⟩
  · rwa [if_pos clear] at taken
  · rw [if_neg other] at taken
    rcases sendWriteReleaseSource released with ⟨rfl,_⟩ | ⟨_,posted⟩
    · exact taken
    · exact postReleaseConserved (fun e => apart e.symm) (.inl ⟨rfl,rfl⟩) posted taken

theorem stepConserved {reading} {s t : Net n} {a} (h : step reading s a = some t)
    (faithful : Faithful reading s) (valid : Conserved s) : Conserved t := by
  cases a with
  | send l control data =>
    simp only [step] at h
    split at h <;> try contradiction
    rename_i guard
    exact sendConserved guard.1 guard.2 h valid
  | recv l => exact recvConserved h faithful valid
  | clear r => exact clearConserved h valid

theorem postedFaithful (s : Net n) : Faithful .posted s := fun _ _ _ _ _ => rfl

theorem runConserved {s : Net n} {acts} (ok : run (step .posted) (comWriteInit n) acts = some s) :
    Conserved s :=
  runInvariant (fun s _ _ h => stepConserved h (postedFaithful s)) ok initConserved

/- A full free list has every id once: the test of reset_sendrecv cannot be met
by duplicates. -/
theorem fullFreeList {s : Net n} (valid : Conserved s) {l : Link n}
    (full : resetWaits s l = false) : (s.buffIdList l).Perm (List.range maxWriteNum) := by
  have sub : (s.buffIdList l).Subperm (List.range maxWriteNum) := by
    refine List.subperm_ext_iff.mpr ?_
    intro id _
    have one := valid.credit l id
    simp only [credits] at one
    rw [List.count_range]
    omega
  refine sub.perm_of_length_le ?_
  simpa [resetWaits] using full

theorem creditConservation {n : Nat} (acts : List (Act n)) {s : Net n}
    (ok : run (step .posted) (comWriteInit n) acts = some s) (l : Link n) :
    (∀ id < maxWriteNum, (s.buffIdList l).count id + (heldIds (s.channel l)).count id +
      (s.releaseIdList l.swap).count id + (payloadIds (s.channel l.swap)).count id = 1) ∧
    (∀ id, maxWriteNum ≤ id → (s.buffIdList l).count id + (heldIds (s.channel l)).count id +
      (s.releaseIdList l.swap).count id + (payloadIds (s.channel l.swap)).count id = 0) ∧
    (resetWaits s l = false → (s.buffIdList l).Perm (List.range maxWriteNum)) := by
  have valid := runConserved ok
  refine ⟨?_,?_,fullFreeList valid⟩
  · intro id known
    exact (valid.credit l id).trans (if_pos known)
  · intro id unknown
    exact (valid.credit l id).trans (if_neg (by omega))

-- One TASK from machine 0 to machine 1, received there: id 0 waits in 1's release list.
theorem creditConservationOneTask : ∃ s,
    run (step .posted) (comWriteInit 2) [.send (0,1) .task [7],.recv (0,1)] = some s ∧
    s.releaseIdList (1,0) = [0] ∧
    ∀ id < maxWriteNum, (s.buffIdList (0,1)).count id + (heldIds (s.channel (0,1))).count id +
      (s.releaseIdList (1,0)).count id + (payloadIds (s.channel (1,0))).count id = 1 := by
  have ids : (comWriteInit 2).buffIdList (0,1) = 0 :: List.range' 1 511 := by
    rw [comWriteInit,maxWriteNum,List.range_eq_range',List.range'_succ]
  have sent := sendReady .posted (by decide) ids (by simp [ids,releaseBlock,maxWriteNum])
    .task (by decide) [7]
  have head : (postWriteSend { comWriteInit 2 with
      buffIdList := Function.update (comWriteInit 2).buffIdList (0,1) (List.range' 1 511) } (0,1)
      ⟨.task,0,[7],((comWriteInit 2).buffIdList (0,1)).length⟩).channel (0,1) =
      [⟨.task,0,[7],((comWriteInit 2).buffIdList (0,1)).length⟩] := by
    simp only [postWriteSend,Function.update_self]
    rfl
  have received := pollRecvKeeps .posted head (by decide)
    (by simp [postWriteSend,comWriteInit,releaseBlock,maxWriteNum])
  have ok : run (step .posted) (comWriteInit 2) [.send (0,1) .task [7],.recv (0,1)] = some _ :=
    (runCons sent _).trans ((runCons received []).trans (runNil _ _))
  exact ⟨_,ok,by simp [postWriteSend,comWriteInit],(creditConservation _ ok (0,1)).1⟩

end CoTra.CreditConservation
