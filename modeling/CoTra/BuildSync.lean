import CoTra.Runs
import Mathlib.Data.List.FinRange
import Mathlib.Data.List.Count
import Mathlib.Data.Fintype.Card

/-! The build barrier (rdma_comm.cc: build_sync, and the BUILD_SYNC branch of
poll_recv). A call is numbered by how many calls the machine made before; the
counter of the source and the round in a message are that number modulo 2^32, and
every comparison is made on the residues. Messages reach a machine in any order. -/
namespace CoTra.BuildSync
open Runs

def wire (round : Nat) : Nat := round % 2 ^ 32

structure BuildSyncMessage where
  round : Nat
  machineId : Nat
  deriving DecidableEq, Repr

structure Call (n : Nat) where
  round : Nat
  unsent : List (Fin n)
  seen : Fin n → Bool
  syncCnt : Nat

/- `counted` is a history field: the call in which each message raised sync_cnt. -/
structure Machine (n : Nat) where
  buildSyncRound : Nat
  call : Option (Call n)
  buildSyncQueue : List BuildSyncMessage
  counted : List (Nat × BuildSyncMessage)

structure Net (n : Nat) where
  machine : Fin n → Machine n
  inFlight : Fin n → List BuildSyncMessage

variable {n : Nat}

def start (round : Nat) : Net n := ⟨fun _ => ⟨round,none,[],[]⟩,fun _ => []⟩

def beginCall (a : Fin n) (m : Machine n) : Machine n :=
  { m with
    buildSyncRound := m.buildSyncRound + 1
    call := some ⟨m.buildSyncRound,(List.finRange n).filter (· ≠ a),Function.update (fun _ => false) a true,1⟩ }

/- One pass of the for loop: the front of the queue is counted, pushed to the back
or freed. `none` is the abort on an unknown machine id. -/
def scanHead (m : Machine n) : Option (Machine n) :=
  match m.call, m.buildSyncQueue with
  | some c, msg :: rest =>
    if known : msg.machineId < n then
      if wire c.round < wire msg.round then some { m with buildSyncQueue := rest ++ [msg] }
      else if wire msg.round = wire c.round ∧ c.seen ⟨msg.machineId,known⟩ = false then
        some { m with
          buildSyncQueue := rest
          call := some { c with
            seen := Function.update c.seen ⟨msg.machineId,known⟩ true
            syncCnt := c.syncCnt + 1 }
          counted := m.counted ++ [(c.round,msg)] }
      else some { m with buildSyncQueue := rest }
    else none
  | _, _ => none

def scanQueue : Nat → Machine n → Option (Machine n)
  | 0, m => some m
  | left + 1, m => (scanHead m).bind (scanQueue left)

inductive Act (n : Nat) where
  | enter (a : Fin n)
  | send (a : Fin n)
  | deliver (a : Fin n) (i : Nat)
  | scan (a : Fin n)
  | ret (a : Fin n)
  deriving DecidableEq, Repr

def step (s : Net n) : Act n → Option (Net n)
  | .enter a =>
    match (s.machine a).call with
    | none => some { s with machine := Function.update s.machine a (beginCall a (s.machine a)) }
    | some _ => none
  | .send a =>
    match (s.machine a).call with
    | some c =>
      match c.unsent with
      | m :: rest => some {
          machine := Function.update s.machine a { s.machine a with call := some { c with unsent := rest } }
          inFlight := Function.update s.inFlight m (s.inFlight m ++ [⟨c.round,a⟩]) }
      | [] => none
    | none => none
  | .deliver a i =>
    match (s.inFlight a)[i]? with
    | some msg => some {
        machine := Function.update s.machine a
          { s.machine a with buildSyncQueue := (s.machine a).buildSyncQueue ++ [msg] }
        inFlight := Function.update s.inFlight a ((s.inFlight a).eraseIdx i) }
    | none => none
  | .scan a =>
    match (s.machine a).call with
    | some c =>
      if c.unsent = [] ∧ c.syncCnt < n then
        (scanQueue (s.machine a).buildSyncQueue.length (s.machine a)).map
          (fun m => { s with machine := Function.update s.machine a m })
      else none
    | none => none
  | .ret a =>
    match (s.machine a).call with
    | some c =>
      if c.unsent = [] ∧ ¬c.syncCnt < n then
        some { s with machine := Function.update s.machine a { s.machine a with call := none } }
      else none
    | none => none

-- Calls a machine has returned from.
def returned (m : Machine n) : Nat := m.buildSyncRound - if m.call.isSome then 1 else 0

def unsentCount (m : Machine n) (a : Fin n) (k : Nat) : Nat :=
  match m.call with
  | some c => if c.round = k then c.unsent.count a else 0
  | none => 0

def seenCount (m : Machine n) (b : Fin n) (k : Nat) : Nat :=
  match m.call with
  | some c => if c.round = k ∧ c.seen b = true then 1 else 0
  | none => 0

/- The message of call k of b for a: still to be posted, in flight or queued. -/
def onTheWay (s : Net n) (a b : Fin n) (k : Nat) : Nat :=
  unsentCount (s.machine b) a k + (s.inFlight a).count ⟨k,b⟩ + (s.machine a).buildSyncQueue.count ⟨k,b⟩

def held (s : Net n) (a b : Fin n) (k : Nat) : Nat := onTheWay s a b k + seenCount (s.machine a) b k

-- The calls of b whose message a has not used up.
def due (s : Net n) (a b : Fin n) (k : Nat) : Nat :=
  if returned (s.machine a) ≤ k ∧ k < (s.machine b).buildSyncRound then 1 else 0

structure Safe (s : Net n) : Prop where
  current : ∀ a c, (s.machine a).call = some c → c.round + 1 = (s.machine a).buildSyncRound
  own : ∀ a c, (s.machine a).call = some c → a ∉ c.unsent ∧ c.seen a = true
  tally : ∀ a c, (s.machine a).call = some c → c.syncCnt = (Finset.univ.filter (fun b => c.seen b = true)).card
  known : ∀ a, ∀ msg ∈ s.inFlight a ++ (s.machine a).buildSyncQueue, ∃ b : Fin n, b ≠ a ∧ msg.machineId = b
  account : ∀ a b, a ≠ b → ∀ k, held s a b k ≤ due s a b k
  barrier : ∀ a b, returned (s.machine a) ≤ (s.machine b).buildSyncRound

theorem startSafe (round : Nat) : Safe (start round : Net n) := by
  constructor
  · intro a c inside; cases inside
  · intro a c inside; cases inside
  · intro a c inside; cases inside
  · intro a msg member; exact absurd member List.not_mem_nil
  · intro a b _ k
    simp [held,onTheWay,start,unsentCount,seenCount]
  · intro a b; exact le_rfl

theorem scanHeadSource {m m' : Machine n} (h : scanHead m = some m') :
    ∃ c msg rest, ∃ b : Fin n, m.call = some c ∧ m.buildSyncQueue = msg :: rest ∧ msg.machineId = b ∧
      ((wire c.round < wire msg.round ∧ m' = { m with buildSyncQueue := rest ++ [msg] }) ∨
       (wire msg.round = wire c.round ∧ c.seen b = false ∧ m' = { m with
          buildSyncQueue := rest
          call := some { c with seen := Function.update c.seen b true, syncCnt := c.syncCnt + 1 }
          counted := m.counted ++ [(c.round,msg)] }) ∨
       (wire msg.round ≤ wire c.round ∧ ¬(wire msg.round = wire c.round ∧ c.seen b = false) ∧
          m' = { m with buildSyncQueue := rest })) := by
  unfold scanHead at h
  split at h <;> try contradiction
  rename_i c msg rest call queue
  split at h <;> try contradiction
  rename_i known
  refine ⟨c,msg,rest,⟨msg.machineId,known⟩,call,queue,rfl,?_⟩
  split at h
  · exact .inl ⟨by assumption,(Option.some.inj h).symm⟩
  · split at h
    · rename_i hit
      exact .inr (.inl ⟨hit.1,hit.2,(Option.some.inj h).symm⟩)
    · exact .inr (.inr ⟨by omega,by assumption,(Option.some.inj h).symm⟩)

def put (s : Net n) (a : Fin n) (m : Machine n) : Net n :=
  { s with machine := Function.update s.machine a m }

@[simp] theorem putSelf (s : Net n) (a : Fin n) (m : Machine n) : (put s a m).machine a = m := by
  simp [put]

theorem putOther (s : Net n) {a b : Fin n} (m : Machine n) (other : b ≠ a) :
    (put s a m).machine b = s.machine b := by
  simp [put,other]

@[simp] theorem putInFlight (s : Net n) (a : Fin n) (m : Machine n) : (put s a m).inFlight = s.inFlight := rfl

/- Every message a step moves is still accounted for, unless the step frees it. -/
def Balanced (s t : Net n) : Prop :=
  ∀ a b, a ≠ b → ∀ k, held t a b k + due s a b k = held s a b k + due t a b k

def Lossy (s t : Net n) : Prop :=
  ∀ a b, a ≠ b → ∀ k, held t a b k + due s a b k ≤ held s a b k + due t a b k

theorem returnedIdle {m : Machine n} (idle : m.call = none) : returned m = m.buildSyncRound := by
  simp [returned,idle]

theorem returnedIn {m : Machine n} {c} (inside : m.call = some c) : returned m = m.buildSyncRound - 1 := by
  simp [returned,inside]

theorem enterBalanced {s : Net n} (valid : Safe s) {a : Fin n} (idle : (s.machine a).call = none) :
    Balanced s (put s a (beginCall a (s.machine a))) := by
  intro x y apart k
  have past := valid.barrier x a
  by_cases first : x = a
  · subst x
    simp [held,onTheWay,due,putOther s _ (Ne.symm apart),unsentCount,seenCount,beginCall,idle,returned,apart.symm]
  · by_cases second : y = a
    · subst y
      have once : ((List.finRange n).filter (fun z => z ≠ a)).count x = 1 := by
        rw [List.count_filter (by simpa using first)]
        exact List.count_finRange x
      simp only [held,onTheWay,due,putOther s _ first,putSelf,putInFlight,unsentCount,seenCount,beginCall,idle,once]
      split_ifs <;> omega
    · simp [held,onTheWay,due,putOther s _ first,putOther s _ second]

theorem fromOther {a b : Fin n} (apart : b ≠ a) (round k : Nat) (msgs : List BuildSyncMessage) :
    (msgs ++ [(⟨round,a⟩ : BuildSyncMessage)]).count ⟨k,b⟩ = msgs.count ⟨k,b⟩ := by
  have different : (⟨round,a⟩ : BuildSyncMessage) ≠ ⟨k,b⟩ := by
    intro same
    exact apart (Fin.ext (congrArg BuildSyncMessage.machineId same).symm)
  simp [List.count_append,different]

@[simp] theorem returnedQueue (m : Machine n) (queue : List BuildSyncMessage) :
    returned { m with buildSyncQueue := queue } = returned m := rfl

@[simp] theorem seenQueue (m : Machine n) (queue : List BuildSyncMessage) (b : Fin n) (k : Nat) :
    seenCount { m with buildSyncQueue := queue } b k = seenCount m b k := rfl

@[simp] theorem unsentQueue (m : Machine n) (queue : List BuildSyncMessage) (a : Fin n) (k : Nat) :
    unsentCount { m with buildSyncQueue := queue } a k = unsentCount m a k := rfl

/- Posting changes only the unsent list of the sender and one list in flight. -/
theorem sendBalanced {s : Net n} {a m : Fin n} {c : Call n} {rest} (valid : Safe s)
    (inside : (s.machine a).call = some c) (next : c.unsent = m :: rest) :
    Balanced s { put s a { s.machine a with call := some { c with unsent := rest } } with
      inFlight := Function.update s.inFlight m (s.inFlight m ++ [⟨c.round,a⟩]) } := by
  have notSelf : m ≠ a := by
    rintro rfl
    exact (valid.own m c inside).1 (by simp [next])
  intro x y apart k
  by_cases sender : y = a
  · subst y
    by_cases receiver : x = m
    · subst x
      simp only [held,onTheWay,due,put,Function.update_self,Function.update_of_ne notSelf,unsentCount,inside,next,
        List.count_append,List.count_cons,List.count_nil,returned]
      by_cases same : c.round = k
      · simp [same]; omega
      · simp [same]
    · simp [held,onTheWay,due,put,receiver,Function.update_of_ne apart,unsentCount,inside,next,Ne.symm receiver]
  · have flight : (Function.update s.inFlight m (s.inFlight m ++ [⟨c.round,a⟩]) x).count ⟨k,y⟩ =
        (s.inFlight x).count ⟨k,y⟩ := by
      by_cases receiver : x = m
      · subst x; rw [Function.update_self,fromOther sender]
      · rw [Function.update_of_ne receiver]
    by_cases self : x = a
    · subst x
      simp [held,onTheWay,due,put,flight,sender,seenCount,inside,returned]
    · simp [held,onTheWay,due,put,flight,sender,self]

theorem deliverBalanced {s : Net n} {a : Fin n} {i : Nat} {msg} (arrived : (s.inFlight a)[i]? = some msg) :
    Balanced s { put s a { s.machine a with buildSyncQueue := (s.machine a).buildSyncQueue ++ [msg] } with
      inFlight := Function.update s.inFlight a ((s.inFlight a).eraseIdx i) } := by
  have moved : ∀ other, ((s.inFlight a).eraseIdx i).count other + [msg].count other =
      (s.inFlight a).count other := by
    intro other
    obtain ⟨inside,rfl⟩ := List.getElem?_eq_some_iff.mp arrived
    rw [← (List.getElem_cons_eraseIdx_perm inside).count_eq other]
    simp [List.count_cons]
  intro x y apart k
  by_cases receiver : x = a
  · subst x
    have := moved ⟨k,y⟩
    simp only [held,onTheWay,due,put,Function.update_self,Function.update_of_ne (Ne.symm apart),seenQueue,
      returnedQueue,List.count_append]
    omega
  · by_cases sender : y = a
    · subst y
      simp [held,onTheWay,due,put,receiver]
    · simp [held,onTheWay,due,put,receiver,sender]

theorem retBalanced {s : Net n} (valid : Safe s) {a : Fin n} {c : Call n} (inside : (s.machine a).call = some c)
    (posted : c.unsent = []) (all : ∀ b, c.seen b = true) :
    Balanced s (put s a { s.machine a with call := none }) := by
  have now := valid.current a c inside
  intro x y apart k
  by_cases first : x = a
  · subst x
    have accounted := valid.account a y apart k
    simp only [held,onTheWay,due,seenCount,inside,returnedIn inside,all] at accounted ⊢
    simp only [putSelf,putInFlight,putOther s _ (Ne.symm apart),returned,Option.isSome_none]
    by_cases same : c.round = k
    · simp [same] at accounted ⊢
      split_ifs at accounted ⊢ <;> omega
    · simp only [same,false_and,if_false]
      split_ifs <;> omega
  · by_cases second : y = a
    · subst y
      simp [held,onTheWay,due,putOther s _ first,unsentCount,inside,posted]
    · simp [held,onTheWay,due,putOther s _ first,putOther s _ second]

theorem enteredLe (m : Machine n) : m.buildSyncRound ≤ returned m + 1 := by
  unfold returned
  split_ifs <;> omega

/- A queued message belongs to the receiver's current call or to the next one. -/
theorem queuedRound {s : Net n} (valid : Safe s) {a b : Fin n} (apart : a ≠ b) {c : Call n}
    (inside : (s.machine a).call = some c) {k : Nat} (queued : 0 < held s a b k) :
    c.round ≤ k ∧ k ≤ c.round + 1 := by
  have now := valid.current a c inside
  have accounted := valid.account a b apart k
  have ahead := valid.barrier b a
  have entered := enteredLe (s.machine b)
  have back := returnedIn inside
  unfold due at accounted
  split_ifs at accounted with window
  · omega
  · omega

/- The scan of a machine in call r frees a message of call r + 1 unread when the
residue of r + 1 is 0. -/
def WrapFree (s : Net n) (act : Act n) : Prop :=
  match act with
  | .scan a => ∀ c, (s.machine a).call = some c → wire (c.round + 1) = 0 →
      ∀ msg ∈ (s.machine a).buildSyncQueue, msg.round ≠ c.round + 1
  | _ => True

theorem wireSame {r k : Nat} (low : r ≤ k) (high : k ≤ r + 1) (same : wire k = wire r) : k = r := by
  unfold wire at same
  omega

theorem wireWrap {r k : Nat} (low : r ≤ k) (high : k ≤ r + 1) (less : wire k ≤ wire r) (other : k ≠ r) :
    k = r + 1 ∧ wire (r + 1) = 0 := by
  have next : k = r + 1 := by omega
  subst next
  unfold wire at *
  omega

theorem messageOf (msg : BuildSyncMessage) (b : Fin n) (sender : msg.machineId = b) :
    msg = ⟨msg.round,b⟩ := by
  cases msg; simpa using sender

theorem headHeld {s : Net n} {a b : Fin n} {msg rest} (queue : (s.machine a).buildSyncQueue = msg :: rest)
    (sender : msg.machineId = b) : 0 < held s a b msg.round := by
  have : 0 < (s.machine a).buildSyncQueue.count ⟨msg.round,b⟩ := by
    rw [queue,messageOf msg b sender]
    simp
  unfold held onTheWay
  omega

/- Counting the message of the current call moves it from the queue to `seen`. -/
theorem countBalanced {s : Net n} {a b : Fin n} {c : Call n} {msg rest log}
    (inside : (s.machine a).call = some c) (queue : (s.machine a).buildSyncQueue = msg :: rest)
    (sender : msg.machineId = b) (round : msg.round = c.round) (fresh : c.seen b = false) :
    Balanced s (put s a { s.machine a with
      buildSyncQueue := rest
      call := some { c with seen := Function.update c.seen b true, syncCnt := c.syncCnt + 1 }
      counted := log }) := by
  have message := messageOf msg b sender
  intro x y apart k
  by_cases first : x = a
  · subst x
    simp only [held,onTheWay,due,putSelf,putInFlight,putOther s _ (Ne.symm apart),queue,seenCount,inside,returned,
      Option.isSome_some]
    by_cases from' : y = b
    · subst y
      rw [message,round]
      by_cases same : c.round = k
      · simp [same,fresh]; omega
      · simp [same]
    · have different : msg ≠ ⟨k,y⟩ := by
        rw [message]
        intro e
        exact from' (Fin.ext (congrArg BuildSyncMessage.machineId e).symm)
      simp [different,from']
  · by_cases second : y = a
    · subst y
      simp [held,onTheWay,due,putOther s _ first,unsentCount,inside]
    · simp [held,onTheWay,due,putOther s _ first,putOther s _ second]

theorem requeueBalanced {s : Net n} {a : Fin n} {queue : List BuildSyncMessage}
    (same : ∀ msg, queue.count msg = (s.machine a).buildSyncQueue.count msg) :
    Balanced s (put s a { s.machine a with buildSyncQueue := queue }) := by
  intro x y apart k
  by_cases first : x = a
  · subst x
    simp [held,onTheWay,due,putOther s _ (Ne.symm apart),same]
  · by_cases second : y = a
    · subst y; simp [held,onTheWay,due,putOther s _ first]
    · simp [held,onTheWay,due,putOther s _ first,putOther s _ second]

theorem dropLossy {s : Net n} {a : Fin n} {msg rest} (queue : (s.machine a).buildSyncQueue = msg :: rest) :
    Lossy s (put s a { s.machine a with buildSyncQueue := rest }) := by
  intro x y apart k
  by_cases first : x = a
  · subst x
    simp only [held,onTheWay,due,putSelf,putInFlight,putOther s _ (Ne.symm apart),queue,List.count_cons,seenQueue,
      returnedQueue]
    omega
  · by_cases second : y = a
    · subst y; simp [held,onTheWay,due,putOther s _ first]
    · simp [held,onTheWay,due,putOther s _ first,putOther s _ second]

/- What one pass of the scan does to the accounts, and to the call. -/
theorem scanHeadEffect {s : Net n} (valid : Safe s) {a : Fin n} {m'} (h : scanHead (s.machine a) = some m') :
    ∃ c msg rest, ∃ b : Fin n, (s.machine a).call = some c ∧ (s.machine a).buildSyncQueue = msg :: rest ∧
      msg.machineId = b ∧ b ≠ a ∧
      ((m' = { s.machine a with buildSyncQueue := rest ++ [msg] } ∧ Balanced s (put s a m')) ∨
       (msg.round = c.round ∧ c.seen b = false ∧ m' = { s.machine a with
          buildSyncQueue := rest
          call := some { c with seen := Function.update c.seen b true, syncCnt := c.syncCnt + 1 }
          counted := (s.machine a).counted ++ [(c.round,msg)] } ∧ Balanced s (put s a m')) ∨
       (msg.round = c.round + 1 ∧ wire (c.round + 1) = 0 ∧
          m' = { s.machine a with buildSyncQueue := rest } ∧ Lossy s (put s a m'))) := by
  obtain ⟨c,msg,rest,b,inside,queue,sender,branch⟩ := scanHeadSource h
  obtain ⟨b',apart,sender'⟩ := valid.known a msg (by rw [queue]; simp)
  have same : b' = b := Fin.ext (sender'.symm.trans sender)
  subst same
  have positive := headHeld queue sender
  obtain ⟨low,high⟩ := queuedRound valid (Ne.symm apart) inside positive
  refine ⟨c,msg,rest,b',inside,queue,sender,apart,?_⟩
  rcases branch with ⟨_,rfl⟩ | ⟨equal,fresh,rfl⟩ | ⟨less,notNow,rfl⟩
  · exact .inl ⟨rfl,requeueBalanced (fun m => by simp [queue,List.count_append,List.count_cons])⟩
  · have round := wireSame low high equal
    exact .inr (.inl ⟨round,fresh,rfl,countBalanced inside queue sender round fresh⟩)
  · have other : msg.round ≠ c.round := by
      intro round
      have twice : c.seen b' = true := by
        by_contra unseen
        exact notNow ⟨by rw [round],by simpa using unseen⟩
      have accounted := valid.account a b' (Ne.symm apart) msg.round
      have queued : 0 < (s.machine a).buildSyncQueue.count ⟨msg.round,b'⟩ := by
        rw [queue,messageOf msg b' sender]
        simp
      have one : due s a b' msg.round ≤ 1 := by unfold due; split_ifs <;> omega
      simp only [held,onTheWay,seenCount,inside,round,twice,and_self,if_true] at accounted queued
      rw [round] at one
      omega
    obtain ⟨next,wrapped⟩ := wireWrap low high less other
    exact .inr (.inr ⟨next,wrapped,rfl,dropLossy queue⟩)

theorem lossyOfBalanced {s t : Net n} (h : Balanced s t) : Lossy s t :=
  fun a b apart k => (h a b apart k).le

theorem accountOfLossy {s t : Net n} (valid : Safe s) (h : Lossy s t) :
    ∀ a b, a ≠ b → ∀ k, held t a b k ≤ due t a b k := by
  intro a b apart k
  have before := valid.account a b apart k
  have change := h a b apart k
  omega

theorem tallyAll {c : Call n} (tally : c.syncCnt = (Finset.univ.filter (fun b => c.seen b = true)).card)
    (enough : ¬c.syncCnt < n) (b : Fin n) : c.seen b = true := by
  have full : Finset.univ.filter (fun b => c.seen b = true) = Finset.univ := by
    refine Finset.eq_univ_of_card _ ?_
    have := Finset.card_filter_le Finset.univ (fun b => c.seen b = true)
    rw [Finset.card_univ,Fintype.card_fin] at this
    rw [Fintype.card_fin]
    omega
  have member : b ∈ Finset.univ.filter (fun b => c.seen b = true) := by rw [full]; exact Finset.mem_univ b
  exact (Finset.mem_filter.mp member).2

theorem tallyCount {c : Call n} (tally : c.syncCnt = (Finset.univ.filter (fun b => c.seen b = true)).card)
    {b : Fin n} (fresh : c.seen b = false) :
    c.syncCnt + 1 = (Finset.univ.filter (fun x => Function.update c.seen b true x = true)).card := by
  have more : Finset.univ.filter (fun x => Function.update c.seen b true x = true) =
      insert b (Finset.univ.filter (fun x => c.seen x = true)) := by
    ext x
    by_cases same : x = b <;> simp [same]
  rw [more,Finset.card_insert_of_notMem (by simp [fresh]),tally]

structure InCall (a : Fin n) (m : Machine n) (c : Call n) : Prop where
  current : c.round + 1 = m.buildSyncRound
  own : a ∉ c.unsent ∧ c.seen a = true
  tally : c.syncCnt = (Finset.univ.filter (fun b => c.seen b = true)).card

theorem safeCall {s : Net n} (valid : Safe s) {a : Fin n} {c} (inside : (s.machine a).call = some c) :
    InCall a (s.machine a) c :=
  ⟨valid.current a c inside,valid.own a c inside,valid.tally a c inside⟩

theorem queueCall {a : Fin n} {m : Machine n} {c : Call n} (h : InCall a m c) (queue : List BuildSyncMessage) :
    InCall a { m with buildSyncQueue := queue } c :=
  ⟨h.current,h.own,h.tally⟩

/- A step of one machine: its own call, the messages it may see, the accounts and
the counters are all there is to check. -/
theorem updateSafe {s : Net n} (valid : Safe s) {a : Fin n} {m : Machine n} (flight : Fin n → List BuildSyncMessage)
    (call : ∀ c, m.call = some c → InCall a m c)
    (known : ∀ x, ∀ msg ∈ flight x ++ ((put s a m).machine x).buildSyncQueue,
      ∃ b : Fin n, b ≠ x ∧ msg.machineId = b)
    (lossy : Lossy s { put s a m with inFlight := flight })
    (later : (s.machine a).buildSyncRound ≤ m.buildSyncRound)
    (back : ∀ y, returned m ≤ (s.machine y).buildSyncRound) : Safe { put s a m with inFlight := flight } := by
  have all : ∀ x c, ((put s a m).machine x).call = some c → InCall x ((put s a m).machine x) c := by
    intro x c inside
    by_cases here : x = a
    · subst x
      rw [putSelf] at inside ⊢
      exact call c inside
    · rw [putOther s _ here] at inside ⊢
      exact safeCall valid inside
  refine ⟨fun x c h => (all x c h).current,fun x c h => (all x c h).own,fun x c h => (all x c h).tally,
    known,accountOfLossy valid lossy,?_⟩
  intro x y
  show returned ((put s a m).machine x) ≤ ((put s a m).machine y).buildSyncRound
  have old := valid.barrier x y
  by_cases first : x = a <;> by_cases second : y = a
  · subst x y
    rw [putSelf]
    exact Nat.sub_le _ _
  · subst x
    rw [putSelf,putOther s _ second]
    exact back y
  · subst y
    rw [putSelf,putOther s _ first]
    exact le_trans old later
  · rwa [putOther s _ first,putOther s _ second]

theorem enterSafe {s : Net n} (valid : Safe s) {a : Fin n} (idle : (s.machine a).call = none) :
    Safe (put s a (beginCall a (s.machine a))) := by
  refine updateSafe valid s.inFlight ?_ ?_ (lossyOfBalanced (enterBalanced valid idle))
    (Nat.le_succ _) ?_
  · intro c inside
    cases Option.some.inj inside
    refine ⟨rfl,by simp,?_⟩
    have only : Finset.univ.filter (fun b => Function.update (fun _ => false) a true b = true) = {a} := by
      ext b
      by_cases same : b = a <;> simp [same]
    rw [only,Finset.card_singleton]
  · intro x msg member
    refine valid.known x msg ?_
    by_cases here : x = a
    · subst x; simpa [beginCall] using member
    · simpa [putOther s _ here] using member
  · intro y
    have same : returned (beginCall a (s.machine a)) = returned (s.machine a) := by
      simp [returned,beginCall,idle]
    exact same ▸ valid.barrier a y

theorem sendSafe {s : Net n} (valid : Safe s) {a m : Fin n} {c : Call n} {rest}
    (inside : (s.machine a).call = some c) (next : c.unsent = m :: rest) :
    Safe { put s a { s.machine a with call := some { c with unsent := rest } } with
      inFlight := Function.update s.inFlight m (s.inFlight m ++ [⟨c.round,a⟩]) } := by
  obtain ⟨current,⟨notOwn,seen⟩,tally⟩ := safeCall valid inside
  rw [next] at notOwn
  refine updateSafe valid _ ?_ ?_ (lossyOfBalanced (sendBalanced valid inside next)) le_rfl ?_
  · intro d now
    cases Option.some.inj now
    exact ⟨current,⟨fun member => notOwn (List.mem_cons_of_mem _ member),seen⟩,tally⟩
  · intro x msg member
    have queue : ((put s a { s.machine a with call := some { c with unsent := rest } }).machine x).buildSyncQueue =
        (s.machine x).buildSyncQueue := by
      by_cases here : x = a
      · subst x; rw [putSelf]
      · rw [putOther s _ here]
    rw [queue] at member
    by_cases receiver : x = m
    · subst x
      rw [Function.update_self,List.append_assoc,List.mem_append,List.mem_append,List.mem_singleton] at member
      rcases member with old | rfl | old
      · exact valid.known m msg (List.mem_append_left _ old)
      · exact ⟨a,fun e => notOwn (e ▸ List.mem_cons_self),rfl⟩
      · exact valid.known m msg (List.mem_append_right _ old)
    · rw [Function.update_of_ne receiver] at member
      exact valid.known x msg member
  · intro y
    have same : returned { s.machine a with call := some { c with unsent := rest } } = returned (s.machine a) := by
      simp [returned,inside]
    exact same ▸ valid.barrier a y

theorem deliverSafe {s : Net n} (valid : Safe s) {a : Fin n} {i : Nat} {msg}
    (arrived : (s.inFlight a)[i]? = some msg) :
    Safe { put s a { s.machine a with buildSyncQueue := (s.machine a).buildSyncQueue ++ [msg] } with
      inFlight := Function.update s.inFlight a ((s.inFlight a).eraseIdx i) } := by
  refine updateSafe valid _ (fun c inside => queueCall (safeCall valid inside) _) ?_
    (lossyOfBalanced (deliverBalanced arrived)) le_rfl (valid.barrier a)
  intro x other member
  refine valid.known x other ?_
  by_cases here : x = a
  · subst x
    rw [putSelf,Function.update_self,← List.append_assoc,List.mem_append,List.mem_append,List.mem_singleton] at member
    rcases member with (old | queued) | rfl
    · exact List.mem_append_left _ (List.mem_of_mem_eraseIdx old)
    · exact List.mem_append_right _ queued
    · exact List.mem_append_left _ (List.mem_of_getElem? arrived)
  · rwa [putOther s _ here,Function.update_of_ne here] at member

theorem scanHeadSafe {s : Net n} (valid : Safe s) {a : Fin n} {m'} (h : scanHead (s.machine a) = some m') :
    Safe (put s a m') := by
  obtain ⟨c,msg,rest,b,inside,queue,sender,apart,branch⟩ := scanHeadEffect valid h
  have known : ∀ q, (∀ x ∈ q, x ∈ (s.machine a).buildSyncQueue) → m'.buildSyncQueue = q →
      ∀ x, ∀ y ∈ s.inFlight x ++ ((put s a m').machine x).buildSyncQueue, ∃ b : Fin n, b ≠ x ∧ y.machineId = b := by
    intro q sub is x y member
    refine valid.known x y ?_
    by_cases here : x = a
    · subst x
      rw [putSelf,is,List.mem_append] at member
      rcases member with old | queued
      · exact List.mem_append_left _ old
      · exact List.mem_append_right _ (sub y queued)
    · rwa [putOther s _ here] at member
  have old := safeCall valid inside
  rcases branch with ⟨rfl,balanced⟩ | ⟨_,fresh,rfl,balanced⟩ | ⟨_,_,rfl,lossy⟩
  · exact updateSafe valid _ (fun _ now => queueCall (safeCall valid now) _) (known _ (by simp [queue,or_comm]) rfl)
      (lossyOfBalanced balanced) le_rfl (valid.barrier a)
  · refine updateSafe valid _ ?_ (known _ (by simp +contextual [queue]) rfl) (lossyOfBalanced balanced) le_rfl ?_
    · intro d now
      cases Option.some.inj now
      refine ⟨old.current,⟨old.own.1,?_⟩,tallyCount old.tally fresh⟩
      by_cases self : a = b <;> simp [self,old.own.2]
    · intro y
      have back := valid.barrier a y
      rw [returnedIn inside] at back
      simpa [returned] using back
  · exact updateSafe valid _ (fun _ now => queueCall (safeCall valid now) _) (known _ (by simp +contextual [queue]) rfl)
      lossy le_rfl (valid.barrier a)

theorem retSafe {s : Net n} (valid : Safe s) {a : Fin n} {c : Call n} (inside : (s.machine a).call = some c)
    (posted : c.unsent = []) (enough : ¬c.syncCnt < n) :
    Safe (put s a { s.machine a with call := none }) := by
  have old := safeCall valid inside
  have all := tallyAll old.tally enough
  refine updateSafe valid s.inFlight (fun _ now => nomatch now) ?_
    (lossyOfBalanced (retBalanced valid inside posted all)) le_rfl ?_
  · intro x msg member
    refine valid.known x msg ?_
    by_cases here : x = a
    · subst x; simpa using member
    · simpa [putOther s _ here] using member
  · intro y
    have current := old.current
    by_cases self : y = a
    · subst y; exact Nat.sub_le _ _
    · have accounted := valid.account a y (Ne.symm self) c.round
      simp only [held,seenCount,inside,all,and_self,if_true] at accounted
      unfold due at accounted
      split_ifs at accounted with window
      · simp only [returned,Option.isSome_none]
        simp
        omega
      · omega

theorem putPut (s : Net n) (a : Fin n) (m m' : Machine n) : put (put s a m) a m' = put s a m' := by
  simp [put]

theorem putSame (s : Net n) (a : Fin n) : put s a (s.machine a) = s := by
  simp [put]

/- The whole for loop, given what one pass keeps. -/
theorem scanQueueKeeps {s : Net n} {a : Fin n} (inv : Net n → Prop)
    (keep : ∀ t m', inv t → scanHead (t.machine a) = some m' → inv (put t a m'))
    {left : Nat} {m m' : Machine n} (h : scanQueue left m = some m') (before : inv (put s a m)) :
    inv (put s a m') := by
  induction left generalizing m with
  | zero => cases Option.some.inj h; exact before
  | succ left ih =>
    obtain ⟨mid,head,rest⟩ := Option.bind_eq_some_iff.mp h
    refine ih rest ?_
    have next := keep (put s a m) mid before (by rwa [putSelf])
    rwa [putPut] at next

inductive Effect (s : Net n) : Act n → Net n → Prop where
  | enter {a} (idle : (s.machine a).call = none) : Effect s (.enter a) (put s a (beginCall a (s.machine a)))
  | send {a c m rest} (inside : (s.machine a).call = some c) (next : c.unsent = m :: rest) :
      Effect s (.send a) { put s a { s.machine a with call := some { c with unsent := rest } } with
        inFlight := Function.update s.inFlight m (s.inFlight m ++ [⟨c.round,a⟩]) }
  | deliver {a i msg} (arrived : (s.inFlight a)[i]? = some msg) :
      Effect s (.deliver a i)
        { put s a { s.machine a with buildSyncQueue := (s.machine a).buildSyncQueue ++ [msg] } with
          inFlight := Function.update s.inFlight a ((s.inFlight a).eraseIdx i) }
  | scan {a c m} (inside : (s.machine a).call = some c) (posted : c.unsent = []) (few : c.syncCnt < n)
      (scanned : scanQueue (s.machine a).buildSyncQueue.length (s.machine a) = some m) :
      Effect s (.scan a) (put s a m)
  | ret {a c} (inside : (s.machine a).call = some c) (posted : c.unsent = []) (enough : ¬c.syncCnt < n) :
      Effect s (.ret a) (put s a { s.machine a with call := none })

theorem stepSource {s t : Net n} {act} (h : step s act = some t) : Effect s act t := by
  cases act with
  | enter a =>
    simp only [step] at h
    split at h <;> try contradiction
    cases Option.some.inj h
    exact .enter (by assumption)
  | send a =>
    simp only [step] at h
    split at h <;> try contradiction
    split at h <;> try contradiction
    cases Option.some.inj h
    exact .send (by assumption) (by assumption)
  | deliver a i =>
    simp only [step] at h
    split at h <;> try contradiction
    cases Option.some.inj h
    exact .deliver (by assumption)
  | scan a =>
    simp only [step] at h
    split at h <;> try contradiction
    split at h <;> try contradiction
    rename_i guard
    obtain ⟨m,scanned,rfl⟩ := Option.map_eq_some_iff.mp h
    exact .scan (by assumption) guard.1 guard.2 scanned
  | ret a =>
    simp only [step] at h
    split at h <;> try contradiction
    split at h <;> try contradiction
    rename_i guard
    cases Option.some.inj h
    exact .ret (by assumption) guard.1 guard.2

theorem stepSafe {s t : Net n} {act} (h : step s act = some t) (valid : Safe s) : Safe t := by
  cases stepSource h with
  | enter idle => exact enterSafe valid idle
  | send inside next => exact sendSafe valid inside next
  | deliver arrived => exact deliverSafe valid arrived
  | scan inside posted few scanned =>
    exact scanQueueKeeps Safe (fun t m' ok head => scanHeadSafe ok head) scanned (by rwa [putSame])
  | ret inside posted enough => exact retSafe valid inside posted enough

theorem scanQueueRounds {left : Nat} {m m' : Machine n} (h : scanQueue left m = some m') :
    m'.buildSyncRound = m.buildSyncRound ∧ m'.call.isSome = m.call.isSome := by
  induction left generalizing m with
  | zero => cases Option.some.inj h; exact ⟨rfl,rfl⟩
  | succ left ih =>
    obtain ⟨mid,head,rest⟩ := Option.bind_eq_some_iff.mp h
    obtain ⟨c,msg,tail,b,inside,_,_,branch⟩ := scanHeadSource head
    rw [(ih rest).1,(ih rest).2]
    rcases branch with ⟨_,rfl⟩ | ⟨_,_,rfl⟩ | ⟨_,_,rfl⟩ <;> simp [inside]

/- What a step does to the calls of every machine. -/
theorem stepRounds {s t : Net n} {act} (h : step s act = some t) (x : Fin n) :
    (act = .enter x ∧ (s.machine x).call = none ∧ (t.machine x).call.isSome ∧
      (t.machine x).buildSyncRound = (s.machine x).buildSyncRound + 1) ∨
    (act = .ret x ∧ (s.machine x).call.isSome ∧ (t.machine x).call = none ∧
      (t.machine x).buildSyncRound = (s.machine x).buildSyncRound) ∨
    (act ≠ .enter x ∧ act ≠ .ret x ∧ (t.machine x).call.isSome = (s.machine x).call.isSome ∧
      (t.machine x).buildSyncRound = (s.machine x).buildSyncRound) := by
  have quiet : ∀ a m, m.buildSyncRound = (s.machine a).buildSyncRound →
      m.call.isSome = (s.machine a).call.isSome →
      ((put s a m).machine x).call.isSome = (s.machine x).call.isSome ∧
        ((put s a m).machine x).buildSyncRound = (s.machine x).buildSyncRound := by
    intro a m round call
    by_cases here : x = a
    · subst x; rw [putSelf]; exact ⟨call,round⟩
    · rw [putOther s _ here]; exact ⟨rfl,rfl⟩
  cases stepSource h with
  | @enter a idle =>
    by_cases here : x = a
    · subst x
      exact .inl ⟨rfl,idle,by simp [beginCall],by simp [beginCall]⟩
    · exact .inr (.inr ⟨by simpa using Ne.symm here,by simp,by rw [putOther s _ here],by rw [putOther s _ here]⟩)
  | @send a c m rest inside next =>
    exact .inr (.inr ⟨by simp,by simp,quiet a _ rfl (by simp [inside])⟩)
  | deliver arrived => exact .inr (.inr ⟨by simp,by simp,quiet _ _ rfl rfl⟩)
  | scan inside posted few scanned =>
    exact .inr (.inr ⟨by simp,by simp,quiet _ _ (scanQueueRounds scanned).1 (scanQueueRounds scanned).2⟩)
  | @ret a c inside posted enough =>
    by_cases here : x = a
    · subst x
      exact .inr (.inl ⟨rfl,by simp [inside],by simp,by simp⟩)
    · exact .inr (.inr ⟨by simp,by simpa using Ne.symm here,by rw [putOther s _ here],by rw [putOther s _ here]⟩)

end CoTra.BuildSync
