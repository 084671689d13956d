import CoTra.Runs
import Mathlib.Data.List.Perm.Basic
import Mathlib.Data.List.FinRange
import Mathlib.Data.List.Count
import Mathlib.Data.Prod.Basic

/-! Send-buffer credits of the RDMA write channel (rdma_comm.cc: poll_recv,
send_write_release, clear_write_release, get_write_send_buf, reset_sendrecv).
One thread of every machine is modelled; a link (a,b) carries what a posts to b.
Every posted write lands in the peer's slot of the same id, so a slot that is
used again before the peer polls is overwritten; `Reading` says whether a
receiver is given the words that were posted or the words now in the slot. -/
namespace CoTra.WriteBuffer
open Runs

def maxWriteNum : Nat := 512
def releaseBlock : Nat := maxWriteNum >>> 2

inductive ControlType where
  | b2Start | b2End | partInfo | buildSync | dispatchMeta | dispatchId | dispatchNgh
  | scalaMeta | scalaNgh | task | result | nodeResult | nodeSync | compute | query
  | coreInfo | schedule | sync | release | termination | clear
  deriving DecidableEq, Repr

/- `free` is a history field: the length of the free list the id was taken
from. It is not on the wire and no operation reads it. -/
structure Message where
  control : ControlType
  bufId : Nat
  words : List Nat
  free : Nat
  deriving DecidableEq, Repr

abbrev Link (n : Nat) := Fin n × Fin n

structure Net (n : Nat) where
  buffIdList : Link n → List Nat
  releaseIdList : Link n → List Nat
  channel : Link n → List Message
  buffer : Link n → Nat → List Nat

def comWriteInit (n : Nat) : Net n :=
  ⟨fun _ => List.range maxWriteNum,fun _ => [],fun _ => [],fun _ _ => []⟩

/- A normal send polls until more than RELEASE_BLOCK ids are free, so `none` is
"still polling"; with sendRelease `none` is the exit of "expect sbuf always
avaliable". Without `pop` the id is moved from the front to the back. -/
def getWriteSendBuf (sendRelease pop : Bool) (ids : List Nat) : Option (Nat × List Nat) :=
  if !sendRelease && decide (ids.length ≤ releaseBlock) then none else
    match ids with
    | [] => none
    | id :: rest => some (id,if pop then rest else rest ++ [id])

variable {n : Nat}

def postWriteSend (s : Net n) (l : Link n) (msg : Message) : Net n :=
  { s with
    channel := Function.update s.channel l (s.channel l ++ [msg])
    buffer := Function.update s.buffer l (Function.update (s.buffer l) msg.bufId
      (msg.words ++ (s.buffer l msg.bufId).drop msg.words.length)) }

def sendNormal (s : Net n) (l : Link n) (control : ControlType) (data : List Nat) : Option (Net n) := do
  let (id,rest) ← getWriteSendBuf false true (s.buffIdList l)
  some (postWriteSend { s with buffIdList := Function.update s.buffIdList l rest } l
    ⟨control,id,data,(s.buffIdList l).length⟩)

/- Shared body of send_write_release and clear_write_release: take a buffer,
move the whole release list into it, post it. -/
def postRelease (control : ControlType) (pop : Bool) (s : Net n) (l : Link n) : Option (Net n) := do
  let (id,rest) ← getWriteSendBuf true pop (s.buffIdList l)
  some (postWriteSend { s with
      buffIdList := Function.update s.buffIdList l rest
      releaseIdList := Function.update s.releaseIdList l [] } l
    ⟨control,id,(s.releaseIdList l).length :: s.releaseIdList l,(s.buffIdList l).length⟩)

def pushRelease (s : Net n) (l : Link n) (bufId : Nat) : Net n :=
  { s with releaseIdList := Function.update s.releaseIdList l (s.releaseIdList l ++ [bufId]) }

def sendWriteRelease (s : Net n) (l : Link n) (bufId : Nat) : Option (Net n) :=
  let t := pushRelease s l bufId
  if releaseBlock ≤ (t.releaseIdList l).length then postRelease .release true t l else some t

def clearWriteReleaseTo (s : Net n) (l : Link n) : Option (Net n) :=
  if 0 < (s.releaseIdList l).length then postRelease .clear false s l else some s

def clearWriteRelease (s : Net n) (machineId : Fin n) : Option (Net n) :=
  (List.finRange n).foldlM (fun t m => clearWriteReleaseTo t (machineId,m)) s

inductive Reading where
  | posted | memory
  deriving DecidableEq, Repr

def readWords (reading : Reading) (s : Net n) (l : Link n) (msg : Message) : List Nat :=
  match reading with
  | .posted => msg.words
  | .memory => s.buffer l msg.bufId

-- release_ptr[0] is the number of ids, the ids follow.
def releasedIds (words : List Nat) : List Nat := (words.drop 1).take (words.headD 0)

def Releasing (control : ControlType) : Prop := control = .release ∨ control = .clear
instance (control) : Decidable (Releasing control) :=
  inferInstanceAs (Decidable (control = .release ∨ control = .clear))

@[simp] theorem releasingRelease : Releasing .release := .inl rfl
@[simp] theorem releasingClear : Releasing .clear := .inr rfl

-- The head of a channel is completed: its slot is read, released ids come back.
def takeHead (reading : Reading) (s : Net n) (l : Link n) (msg : Message) (rest : List Message) : Net n :=
  { s with
    channel := Function.update s.channel l rest
    buffIdList := if Releasing msg.control then
        Function.update s.buffIdList l.swap (s.buffIdList l.swap ++ releasedIds (readWords reading s l msg))
      else s.buffIdList }

-- One completion of poll_recv at l.2, for a message posted by l.1.
def pollRecv (reading : Reading) (s : Net n) (l : Link n) : Option (Net n) :=
  match s.channel l with
  | [] => none
  | msg :: rest =>
    let t := takeHead reading s l msg rest
    if msg.control = .clear then some t else sendWriteRelease t l.swap msg.bufId

-- The do-while test of reset_sendrecv for peer l.2.
def resetWaits (s : Net n) (l : Link n) : Bool := decide ((s.buffIdList l).length < maxWriteNum)

inductive Act (n : Nat) where
  | send (l : Link n) (control : ControlType) (data : List Nat)
  | recv (l : Link n)
  | clear (machineId : Fin n)
  deriving DecidableEq, Repr

def step (reading : Reading) (s : Net n) : Act n → Option (Net n)
  | .send l control data =>
      if l.1 ≠ l.2 ∧ ¬Releasing control then sendNormal s l control data else none
  | .recv l => pollRecv reading s l
  | .clear machineId => clearWriteRelease s machineId

/- What an operation did, with every guard it passed. All later proofs start
from these and never unfold the operations again. -/
theorem sendBufSource {sendRelease pop ids id rest}
    (h : getWriteSendBuf sendRelease pop ids = some (id,rest)) :
    ∃ tail, ids = id :: tail ∧ (rest = if pop then tail else tail ++ [id]) ∧
      (sendRelease = false → releaseBlock < ids.length) := by
  unfold getWriteSendBuf at h
  split at h <;> try contradiction
  rename_i open'
  split at h <;> try contradiction
  rename_i head tail
  cases Option.some.inj h
  refine ⟨tail,rfl,rfl,?_⟩
  intro normal
  simpa [normal] using open'

theorem sendNormalSource {s t : Net n} {l control data} (h : sendNormal s l control data = some t) :
    ∃ id tail, s.buffIdList l = id :: tail ∧ releaseBlock < (s.buffIdList l).length ∧
      t = postWriteSend { s with buffIdList := Function.update s.buffIdList l tail } l
        ⟨control,id,data,(s.buffIdList l).length⟩ := by
  obtain ⟨⟨id,rest⟩,hb,last⟩ := Option.bind_eq_some_iff.mp h
  obtain ⟨tail,ids,hr,many⟩ := sendBufSource hb
  cases Option.some.inj last
  rw [if_pos rfl] at hr
  exact ⟨id,tail,ids,many rfl,by rw [hr]⟩

theorem postReleaseSource {control pop} {s t : Net n} {l} (h : postRelease control pop s l = some t) :
    ∃ id tail, s.buffIdList l = id :: tail ∧
      t = postWriteSend { s with
          buffIdList := Function.update s.buffIdList l (if pop then tail else tail ++ [id])
          releaseIdList := Function.update s.releaseIdList l [] } l
        ⟨control,id,(s.releaseIdList l).length :: s.releaseIdList l,(s.buffIdList l).length⟩ := by
  obtain ⟨⟨id,rest⟩,hb,last⟩ := Option.bind_eq_some_iff.mp h
  obtain ⟨tail,ids,hr,_⟩ := sendBufSource hb
  cases Option.some.inj last
  exact ⟨id,tail,ids,by rw [hr]⟩

theorem sendWriteReleaseSource {s t : Net n} {l bufId} (h : sendWriteRelease s l bufId = some t) :
    (t = pushRelease s l bufId ∧ ((pushRelease s l bufId).releaseIdList l).length < releaseBlock) ∨
    (releaseBlock ≤ ((pushRelease s l bufId).releaseIdList l).length ∧
      postRelease .release true (pushRelease s l bufId) l = some t) := by
  unfold sendWriteRelease at h
  dsimp only at h
  split at h
  · exact .inr ⟨by assumption,h⟩
  · exact .inl ⟨(Option.some.inj h).symm,by omega⟩

theorem pollRecvSource {reading} {s t : Net n} {l} (h : pollRecv reading s l = some t) :
    ∃ msg rest, s.channel l = msg :: rest ∧
      ((msg.control = .clear ∧ t = takeHead reading s l msg rest) ∨
       (msg.control ≠ .clear ∧
        sendWriteRelease (takeHead reading s l msg rest) l.swap msg.bufId = some t)) := by
  unfold pollRecv at h
  split at h <;> try contradiction
  rename_i msg rest hc
  refine ⟨msg,rest,hc,?_⟩
  dsimp only at h
  split at h
  · exact .inl ⟨by assumption,(Option.some.inj h).symm⟩
  · exact .inr ⟨by assumption,h⟩

theorem clearToSource {s t : Net n} {l} (h : clearWriteReleaseTo s l = some t) :
    (s.releaseIdList l = [] ∧ t = s) ∨ postRelease .clear false s l = some t := by
  unfold clearWriteReleaseTo at h
  split at h
  · exact .inr h
  · rename_i short
    exact .inl ⟨List.length_eq_zero_iff.mp (by omega),(Option.some.inj h).symm⟩

/- The same operations forwards, for runs that are written down. -/
theorem sendReady (reading : Reading) {s : Net n} {l : Link n} {id tail} (apart : l.1 ≠ l.2)
    (ids : s.buffIdList l = id :: tail) (many : releaseBlock < (s.buffIdList l).length)
    (control : ControlType) (normal : ¬Releasing control) (data : List Nat) :
    step reading s (.send l control data) = some (postWriteSend
      { s with buffIdList := Function.update s.buffIdList l tail } l
      ⟨control,id,data,(s.buffIdList l).length⟩) := by
  rw [ids] at many
  have wide : ¬(tail.length + 1 ≤ releaseBlock) := by simpa using many
  simp [step,apart,normal,sendNormal,getWriteSendBuf,ids,wide]

theorem pollRecvKeeps (reading : Reading) {s : Net n} {l : Link n} {msg rest} (head : s.channel l = msg :: rest)
    (normal : ¬Releasing msg.control) (short : (s.releaseIdList l.swap).length + 1 < releaseBlock) :
    pollRecv reading s l = some { s with
      channel := Function.update s.channel l rest
      releaseIdList := Function.update s.releaseIdList l.swap (s.releaseIdList l.swap ++ [msg.bufId]) } := by
  have notClear : msg.control ≠ .clear := fun e => normal (.inr e)
  have few : ¬releaseBlock ≤ (s.releaseIdList l.swap).length + 1 := by omega
  simp [pollRecv,head,notClear,takeHead,normal,sendWriteRelease,pushRelease,few]

theorem clearToPosts {s : Net n} {l : Link n} {id tail} (ids : s.buffIdList l = id :: tail)
    (waiting : s.releaseIdList l ≠ []) :
    clearWriteReleaseTo s l = some (postWriteSend { s with
        buffIdList := Function.update s.buffIdList l (tail ++ [id])
        releaseIdList := Function.update s.releaseIdList l [] } l
      ⟨.clear,id,(s.releaseIdList l).length :: s.releaseIdList l,(s.buffIdList l).length⟩) := by
  simp [clearWriteReleaseTo,List.length_pos_iff.mpr waiting,postRelease,getWriteSendBuf,ids]

end CoTra.WriteBuffer
