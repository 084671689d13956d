import CoTra.SubQueryEffects
import CoTra.CoreSelection

/-! Neighbours on their way to a core machine. A history goes along with the search: what
each machine has ever put into the lists for p, what p has taken into its own queues,
and who sent the messages in its receive buffers. No operation reads it. -/
namespace CoTra.Forwarding
open Runs Priority SubQuery Spread SubQueryTotals SubQueryDrain SubQueryEffects

variable {n : Nat} {D : Type} [Distance D]

/- A neighbour id, or an (offset, deg) entry. -/
inductive Item where
  | id (v : Nat)
  | range (ofs deg : Nat)
  deriving DecidableEq, Repr

def entries (micro : List Nat) (large : List (Nat × Nat)) : List Item :=
  micro.map Item.id ++ large.map (fun e => Item.range e.1 e.2)

def nodeEntries (ms : List (NonCoreSyncMsg n)) : List Item :=
  ms.flatMap (fun msg => entries msg.coreMicroNgh msg.coreLargeNgh)

-- Of a SYNC only the slot of the receiver.
def addressed (p : Fin n) : Message n D → List Item
  | .sync m => entries (m.coreMicroNgh p) (m.coreLargeNgh p)
  | .nodeSync ms => nodeEntries ms
  | _ => []

/- In sync_msg, in noncore_sync_msg and in posted messages of a machine. -/
def waiting (m : Machine n D) (p : Fin n) : List Item := entries (m.coreMicroNgh p) (m.coreLargeNgh p)
def queued (m : Machine n D) (p : Fin n) : List Item := nodeEntries (m.noncoreSyncMsg p)
def flying (m : Machine n D) (p : Fin n) : List Item := (m.wire p).flatMap (addressed p)

structure Tracked (n : Nat) (D : Type) [Distance D] where
  net : Net n D
  put : Fin n → Fin n → List Item
  handed : Fin n → Fin n → List Item
  senders : Fin n → Control → List (Fin n)

variable (x : Index n D) (cfg : Config n D) [Zero D]

/- The machine after the decoders, before anything is posted. -/
def decoded (a : Fin n) (m : Machine n D) : Machine n D :=
  (nextGroup m.toQueryMsg).1.foldl (expandNode x cfg a)
    { m with search := { m.search with candidateSet := (nextGroup m.toQueryMsg).2 } }

def putBy (a : Fin n) (m : Machine n D) (p : Fin n) : Op → List Item
  | .loopTop => entries (((decoded x cfg a m).coreMicroNgh p).drop (m.coreMicroNgh p).length)
      (((decoded x cfg a m).coreLargeNgh p).drop (m.coreLargeNgh p).length)
  | .procNodeTask =>
    match m.curNodeQueue with
    | t :: rest => nodeEntries (((expandNodeTask x a t { m with curNodeQueue := rest }).noncoreSyncMsg p).drop
        (m.noncoreSyncMsg p).length)
    | [] => []
  | _ => []

/- What a step adds to local_micro_task and local_task. -/
def gained (m m' : Machine n D) : List Item :=
  entries (m'.localMicroTask.drop m.localMicroTask.length)
    ((m'.localTask.drop m.localTask.length).map (fun t => (t.offset,t.deg)))

def polledFrom (senders : Control → List (Fin n)) : Op → Option (Fin n)
  | .poll k => (senders k).head?
  | _ => none

def sendersLeft (senders : Control → List (Fin n)) : Op → Control → List (Fin n)
  | .poll k => Function.update senders k (senders k).tail
  | _ => senders

def track (t : Tracked n D) : Act n → Option (Tracked n D)
  | .host a op => (perform x cfg a (t.net a) op).map (fun m => {
      net := Function.update t.net a m
      put := Function.update t.put a (fun p => t.put a p ++ putBy x cfg a (t.net a) p op)
      handed := fun s => match polledFrom (t.senders a) op with
        | some q => if s = q then Function.update (t.handed s) a (t.handed s a ++ gained (t.net a) m) else t.handed s
        | none => t.handed s
      senders := Function.update t.senders a (sendersLeft (t.senders a) op) })
  | .deliver a p =>
    match (t.net a).wire p with
    | msg :: _ => (deliver t.net a p).map (fun net => { t with
        net := net
        senders := Function.update t.senders p
          (Function.update (t.senders p) msg.control (t.senders p msg.control ++ [a])) })
    | [] => none

def trackStart : Tracked n D := ⟨start cfg,fun _ _ => [],fun _ _ => [],fun _ _ => []⟩

-- The history is only carried along.
theorem trackNet (t : Tracked n D) (act : Act n) : (track x cfg t act).map Tracked.net = step x cfg t.net act := by
  cases act with
  | host a op =>
    simp only [track,step,Option.map_map]
    rfl
  | deliver a p =>
    simp only [track,step]
    split
    · simp only [Option.map_map]
      exact Option.map_id_apply
    · rename_i none'
      simp [deliver,none']

theorem trackRun {t t' : Tracked n D} {acts : List (Act n)} (ok : run (track x cfg) t acts = some t') :
    run (step x cfg) t.net acts = some t'.net := by
  induction acts generalizing t with
  | nil =>
    cases Option.some.inj ok
    rfl
  | cons act rest ih =>
    obtain ⟨u,first,later⟩ := runConsSource ok
    have one : step x cfg t.net act = some u.net := by
      rw [← trackNet,first]
      rfl
    rw [runCons one]
    exact ih later

/- From s, in p's receive buffers and not yet processed. -/
def fromSender (s p : Fin n) (senders : List (Fin n)) (msgs : List (Message n D)) : List Item :=
  (senders.zip msgs).flatMap (fun e => if e.1 = s then addressed p e.2 else [])

def receivedFrom (t : Tracked n D) (s p : Fin n) (k : Control) : List Item :=
  fromSender s p (t.senders p k) ((t.net p).rbuf k)

/- The search posts a SYNC to every core. -/
def Syncs (a : Fin n) (q : QueryMsg n D) : Prop :=
  ((nextGroup q).1 ≠ [] ∧ syncBar ≤ q.syncStep+1) ∨
  (Leaves q ∧ 1 < q.coreMachine.length ∧ q.hasToken = true ∧ ¬Ends a q)

instance (a : Fin n) (q : QueryMsg n D) : Decidable (Syncs a q) := inferInstanceAs (Decidable (_ ∨ _))

/- The next SYNC of a may have something for p. -/
def HasFor (a p : Fin n) (q : QueryMsg n D) : Prop :=
  q.coreMicroNgh p ≠ [] ∨ q.coreLargeNgh p ≠ [] ∨
    ∃ v ∈ (nextGroup q).1, x.getMachineId v = a ∧ ∃ r ∈ x.block v, r.remote = some p

instance (a p : Fin n) (q : QueryMsg n D) : Decidable (HasFor x a p q) := inferInstanceAs (Decidable (_ ∨ _ ∨ _))

/- A machine that posts a SYNC with something for p has p once in core_machine. -/
def Single (t : Tracked n D) : Act n → Prop
  | .host a .loopTop => Syncs a (t.net a).toQueryMsg → ∀ p, p ≠ a → HasFor x a p (t.net a).toQueryMsg →
      (t.net a).coreMachine.count p ≤ 1
  | _ => True

omit [Zero D] in
theorem singleIff (t : Tracked n D) (act : Act n) : (∀ a, act = .host a .loopTop → Syncs a (t.net a).toQueryMsg →
    ∀ p, p ≠ a → HasFor x a p (t.net a).toQueryMsg → (t.net a).coreMachine.count p ≤ 1) ↔ Single x t act := by
  cases act with
  | deliver a p => simp [Single]
  | host a op => cases op <;> simp [Single]

instance (t : Tracked n D) (act : Act n) : Decidable (Single x t act) := decidable_of_iff _ (singleIff x t act)

section Keeps

variable {x cfg}

omit [Distance D] [Zero D] in
theorem sentFlying (wire : Fin n → List (Message n D)) (p q : Fin n) (msg : Message n D) :
    ((Function.update wire p (wire p ++ [msg])) q).flatMap (addressed q) =
      (wire q).flatMap (addressed q) ++ if q = p then addressed q msg else [] := by
  rcases eq_or_ne q p with rfl | other
  · simp
  · simp [other]

/- A step that puts nothing into the lists for the core machines: what lies in the queue
of NODE_SYNC and what is posted are only exchanged. -/
structure Keeps (m m' : Machine n D) : Prop where
  core : m'.coreMachine = m.coreMachine
  flags : m'.isCoreMachine = m.isCoreMachine
  micro : m'.coreMicroNgh = m.coreMicroNgh
  large : m'.coreLargeNgh = m.coreLargeNgh
  rbuf : m'.rbuf = m.rbuf
  asleep : m'.coro = .none → m.coro = .none
  out : ∀ p i, (queued m' p).count i + (flying m' p).count i = (queued m p).count i + (flying m p).count i

omit [Zero D] in
theorem keepsRefl (m : Machine n D) : Keeps m m := ⟨rfl,rfl,rfl,rfl,rfl,id,fun _ _ => rfl⟩

omit [Zero D] in
theorem Keeps.trans {a b c : Machine n D} (first : Keeps a b) (second : Keeps b c) : Keeps a c where
  core := second.core.trans first.core
  flags := second.flags.trans first.flags
  micro := second.micro.trans first.micro
  large := second.large.trans first.large
  rbuf := second.rbuf.trans first.rbuf
  asleep := fun none' => first.asleep (second.asleep none')
  out := fun p i => (second.out p i).trans (first.out p i)

omit [Zero D] in
theorem foldlKeeps {β : Type} {f : Machine n D → β → Machine n D} (each : ∀ m b, Keeps m (f m b))
    (bs : List β) (m : Machine n D) : Keeps m (bs.foldl f m) :=
  bs.foldlRecOn f (keepsRefl m) (fun m' kept b _ => kept.trans (each m' b))

omit [Zero D] in
theorem wakeKeeps (m : Machine n D) : Keeps m (wake m) := by
  unfold wake
  split
  · exact ⟨rfl,rfl,rfl,rfl,rfl,id,fun _ _ => rfl⟩
  · exact keepsRefl m

omit [Zero D] in
theorem postNodeResultKeeps (p : Fin n) (m : Machine n D) : Keeps m (postNodeResult p m) := by
  unfold postNodeResult
  split
  · exact keepsRefl m
  · refine ⟨rfl,rfl,rfl,rfl,rfl,id,fun q i => ?_⟩
    simp only [queued,flying,sentFlying,addressed,ite_self,List.append_nil]

omit [Zero D] in
theorem postRemoteResultKeeps (p : Fin n) (m : Machine n D) : Keeps m (postRemoteResult p m) := by
  unfold postRemoteResult
  split
  · exact keepsRefl m
  · refine ⟨rfl,rfl,rfl,rfl,rfl,id,fun q i => ?_⟩
    simp only [queued,flying,sentFlying,addressed,ite_self,List.append_nil]

-- The queue for p becomes one message.
omit [Zero D] in
theorem postNodeSyncKeeps (p : Fin n) (m : Machine n D) : Keeps m (postNodeSync p m) := by
  unfold postNodeSync
  split
  · exact keepsRefl m
  · refine ⟨rfl,rfl,rfl,rfl,rfl,id,fun q i => ?_⟩
    simp only [queued,flying,sentFlying,addressed]
    rcases eq_or_ne q p with rfl | other
    · simp [nodeEntries,Nat.add_comm]
    · simp [other]

omit [Zero D] in
theorem postNodeRemoteTaskKeeps (me : Fin n) (m : Machine n D) : Keeps m (postNodeRemoteTask me m) := by
  refine ⟨rfl,rfl,rfl,rfl,rfl,id,fun q i => ?_⟩
  simp only [queued,flying,postNodeRemoteTask]
  split
  · simp [addressed]
  · rfl

omit [Zero D] in
theorem postRemoteResTaskSyncKeeps (me : Fin n) (m : Machine n D) : Keeps m (postRemoteResTaskSync me m) :=
  ((foldlKeeps (fun m p => postNodeResultKeeps p m) (others me) m).trans
    (foldlKeeps (fun m p => postNodeSyncKeeps p m) (others me) _)).trans (postNodeRemoteTaskKeeps me _)

omit [Zero D] in
theorem postRemoteTaskKeeps (me : Fin n) (m : Machine n D) : Keeps m (postRemoteTask me m) := by
  have reads : Keeps m { m with posted := m.posted ++ m.asyncReadQueue, asyncReadQueue := [] } :=
    ⟨rfl,rfl,rfl,rfl,rfl,id,fun _ _ => rfl⟩
  exact reads.trans (postNodeRemoteTaskKeeps me _)

omit [Zero D] in
theorem resumeCoroKeeps {me : Fin n} {m m' : Machine n D} (ok : resumeCoro x cfg me m = some m') : Keeps m m' := by
  unfold resumeCoro at ok
  split at ok <;> try contradiction
  · cases Option.some.inj ok
    obtain ⟨search,hash,shape,_⟩ := drainShape x cfg me m
    rw [shape]
    exact ⟨rfl,rfl,rfl,rfl,rfl,fun none' => (nomatch none'),fun _ _ => rfl⟩
  · cases Option.some.inj ok
    exact ⟨rfl,rfl,rfl,rfl,rfl,id,fun _ _ => rfl⟩

omit [Zero D] in
theorem procTaskKeeps {me : Fin n} {m m' : Machine n D} (ok : procTask x cfg me m = some m') : Keeps m m' := by
  unfold procTask at ok
  split at ok <;> try contradiction
  rename_i t rest queue
  split at ok
  · refine Keeps.trans ?_ (resumeCoroKeeps ok)
    exact ⟨rfl,rfl,rfl,rfl,rfl,id,fun _ _ => rfl⟩
  · have computed : Keeps m (computeTask x me t { m with curTaskQueue := rest }) :=
      ⟨rfl,rfl,rfl,rfl,rfl,id,fun _ _ => rfl⟩
    cases Option.some.inj ok
    split
    · exact computed.trans (postRemoteResultKeeps t.machineId _)
    · exact computed

omit [Zero D] in
theorem procQueryKeeps {me : Fin n} {m m' : Machine n D} (ok : procQuery me m = some m') : Keeps m m' := by
  unfold procQuery at ok
  split at ok <;> try contradiction
  split at ok
  · cases Option.some.inj ok
    exact ⟨rfl,rfl,rfl,rfl,rfl,fun none' => (nomatch none'),fun _ _ => rfl⟩
  · cases Option.some.inj ok
    exact ⟨rfl,rfl,rfl,rfl,rfl,id,fun _ _ => rfl⟩

/- The operations that neither expand a vertex, nor receive, nor open the query. -/
def Plain : Op → Prop
  | .searchSub => False
  | .poll _ => False
  | .procNodeTask => False
  | .loopTop => False
  | _ => True

theorem performKeeps {me : Fin n} {m m' : Machine n D} {op : Op} (plain : Plain op)
    (ok : perform x cfg me m op = some m') : Keeps m m' := by
  cases performed ok with
  | searchSub => exact plain.elim
  | poll => exact plain.elim
  | procNodeTask => exact plain.elim
  | loopTop => exact plain.elim
  | stealTask => exact ⟨rfl,rfl,rfl,rfl,rfl,id,fun _ _ => rfl⟩
  | pushChunk => exact ⟨rfl,rfl,rfl,rfl,rfl,id,fun _ _ => rfl⟩
  | completeRead => exact ⟨rfl,rfl,rfl,rfl,rfl,id,fun _ _ => rfl⟩
  | pollRead =>
    refine Keeps.trans ?_ (wakeKeeps _)
    exact ⟨rfl,rfl,rfl,rfl,rfl,id,fun _ _ => rfl⟩
  | procQuery _ ok => exact procQueryKeeps ok
  | postRemoteResTaskSync => exact postRemoteResTaskSyncKeeps me m
  | procNodeRes =>
    refine Keeps.trans ?_ (wakeKeeps _)
    exact ⟨rfl,rfl,rfl,rfl,rfl,id,fun _ _ => rfl⟩
  | procTask _ _ ok => exact procTaskKeeps ok
  | postRemoteResult => exact postRemoteResultKeeps _ m
  | procResult =>
    refine Keeps.trans ?_ (wakeKeeps _)
    exact ⟨rfl,rfl,rfl,rfl,rfl,id,fun _ _ => rfl⟩
  | procSubquery _ _ ok =>
    refine Keeps.trans ?_ (resumeCoroKeeps ok)
    exact ⟨rfl,rfl,rfl,rfl,rfl,id,fun _ _ => rfl⟩
  | swapTaskQueue => exact ⟨rfl,rfl,rfl,rfl,rfl,id,fun _ _ => rfl⟩

end Keeps

section Known

variable {x cfg}

/- The roster covers the flags and the lists; a query that does not run has empty lists. -/
structure Known (m : Machine n D) : Prop where
  flags : ∀ p, m.isCoreMachine p = true → p ∈ m.coreMachine
  lists : ∀ p, p ∉ m.coreMachine → waiting m p = []
  asleep : m.coro = .none → ∀ p, waiting m p = []

/- What machine m still holds for p, or has on the way to p. -/
def held (m : Machine n D) (p : Fin n) (i : Item) : Nat :=
  (waiting m p).count i + ((queued m p).count i + (flying m p).count i)

omit [Zero D] in
theorem Keeps.waiting {m m' : Machine n D} (keeps : Keeps m m') (p : Fin n) : waiting m' p = waiting m p := by
  unfold Forwarding.waiting
  rw [keeps.micro,keeps.large]

omit [Zero D] in
theorem Keeps.held {m m' : Machine n D} (keeps : Keeps m m') (p : Fin n) (i : Item) : held m' p i = held m p i := by
  unfold Forwarding.held
  rw [keeps.waiting,keeps.out]

omit [Zero D] in
theorem Keeps.known {m m' : Machine n D} (keeps : Keeps m m') (known : Known m) : Known m' where
  flags p flag := by
    rw [keeps.core]
    exact known.flags p (by rw [← keeps.flags]; exact flag)
  lists p outside := by
    rw [keeps.waiting]
    exact known.lists p (by rw [← keeps.core]; exact outside)
  asleep none' p := by
    rw [keeps.waiting]
    exact known.asleep (keeps.asleep none') p

omit [Zero D] in
theorem forkQueryKeeps (m : Machine n D) (p : Fin n) : Keeps m (forkQuery x cfg m p) := by
  refine ⟨rfl,rfl,rfl,rfl,rfl,id,fun q i => ?_⟩
  simp only [forkQuery,queued,flying,sentFlying,addressed,ite_self,List.append_nil]

omit [Zero D] in
theorem searchSubKeeps {me : Fin n} {m m' : Machine n D} (ok : searchSub x cfg me m = some m') : m.coro = .none ∧
    Keeps { m with coreMachine := cfg.coreMachine, isCoreMachine := coreFlags cfg.coreMachine } m' := by
  unfold searchSub at ok
  split at ok <;> try contradiction
  rename_i first
  refine ⟨first.2.2,?_⟩
  have forks : Keeps { m with coreMachine := cfg.coreMachine, isCoreMachine := coreFlags cfg.coreMachine }
      ((cfg.coreMachine.filter (· ≠ me)).foldl (forkQuery x cfg) { m with
        state := .preStage
        isNew := false
        search := { m.search with lowerBound := (preStage cfg).lowerBound, topCandidates := (preStage cfg).preTopCand }
        visitHash := []
        curQueryNum := m.curQueryNum + 1
        resumed := false
        leaderMachine := cfg.leaderMachine
        coreMachine := cfg.coreMachine
        isCoreMachine := coreFlags cfg.coreMachine }) := by
    refine Keeps.trans ?_ (foldlKeeps (fun m p => forkQueryKeeps m p) _ _)
    exact ⟨rfl,rfl,rfl,rfl,rfl,id,fun _ _ => rfl⟩
  split at ok
  · cases Option.some.inj ok
    refine forks.trans ?_
    exact ⟨rfl,rfl,rfl,rfl,rfl,fun none' => (nomatch none'),fun _ _ => rfl⟩
  · cases Option.some.inj ok
    refine forks.trans ?_
    exact ⟨rfl,rfl,rfl,rfl,rfl,fun none' => (nomatch none'),fun _ _ => rfl⟩

-- The core machines that a message names.
def brought : Message n D → List (Fin n)
  | .query q => q.coreMachine
  | _ => []

def joined (m : Machine n D) (cores : List (Fin n)) : Machine n D :=
  { m with coreMachine := m.coreMachine ++ cores, isCoreMachine := fun p => m.isCoreMachine p || coreFlags cores p }

omit [Zero D] in
theorem joinedNone (m : Machine n D) : Keeps (joined m []) m :=
  ⟨(List.append_nil _).symm,funext (fun p => by simp [joined,coreFlags]),rfl,rfl,rfl,id,fun _ _ => rfl⟩

omit [Zero D] in
variable (cfg) in
theorem deserializeKeeps (me : Fin n) (m : Machine n D) (msg : Message n D) :
    Keeps (joined m (brought msg)) (deserialize cfg me m msg) := by
  cases msg with
  | query q => exact ⟨rfl,rfl,rfl,rfl,rfl,id,fun _ _ => rfl⟩
  | sync msg =>
    refine (joinedNone m).trans (Keeps.trans ?_ (wakeKeeps _))
    exact ⟨rfl,rfl,rfl,rfl,rfl,id,fun _ _ => rfl⟩
  | nodeSync ms =>
    refine (joinedNone m).trans (foldlKeeps (fun m msg => Keeps.trans ?_ (wakeKeeps _)) ms m)
    exact ⟨rfl,rfl,rfl,rfl,rfl,id,fun _ _ => rfl⟩
  | task ts ns => exact (joinedNone m).trans ⟨rfl,rfl,rfl,rfl,rfl,id,fun _ _ => rfl⟩
  | result rs => exact (joinedNone m).trans ⟨rfl,rfl,rfl,rfl,rfl,id,fun _ _ => rfl⟩
  | nodeResult rs => exact (joinedNone m).trans ⟨rfl,rfl,rfl,rfl,rfl,id,fun _ _ => rfl⟩

omit [Zero D] in
theorem joinedKnown {m : Machine n D} (known : Known m) (cores : List (Fin n)) : Known (joined m cores) where
  flags p flag := by
    rcases Bool.or_eq_true_iff.mp flag with old | new
    · exact List.mem_append_left _ (known.flags p old)
    · exact List.mem_append_right _ (of_decide_eq_true new)
  lists p outside := known.lists p (fun member => outside (List.mem_append_left _ member))
  asleep none' := known.asleep none'

/- The receiver takes its own slot. -/
omit [Distance D] [Zero D] in
theorem entriesCount (i : Item) (micro micro' : List Nat) (large large' : List (Nat × Nat)) :
    (entries (micro ++ micro') (large ++ large')).count i =
      (entries micro large).count i + (entries micro' large').count i := by
  simp only [entries,List.map_append,List.count_append]
  omega

theorem nodeEntriesCount (i : Item) (ms : List (NonCoreSyncMsg n)) :
    (nodeEntries ms).count i =
      (entries (ms.flatMap NonCoreSyncMsg.coreMicroNgh) (ms.flatMap NonCoreSyncMsg.coreLargeNgh)).count i := by
  induction ms with
  | nil => rfl
  | cons msg rest ih =>
    simp only [nodeEntries,List.flatMap_cons,List.count_append,entriesCount] at ih ⊢
    rw [ih]

omit [Zero D] in
theorem wakeLocal (m : Machine n D) : (wake m).localMicroTask = m.localMicroTask ∧ (wake m).localTask = m.localTask := by
  unfold wake
  split <;> exact ⟨rfl,rfl⟩

omit [Zero D] in
variable (cfg) in
theorem gainedAddressed (me : Fin n) (m : Machine n D) (msg : Message n D) (i : Item) :
    (gained m (deserialize cfg me m msg)).count i = (addressed me msg).count i := by
  have nothing : (gained m m).count i = 0 := by simp [gained,entries]
  cases msg with
  | query q => exact nothing
  | sync msg =>
    simp only [gained,deserialize,addressed,wakeLocal,updateSubQuery,List.drop_left,List.map_map]
    simp [Function.comp_def]
  | nodeSync ms =>
    have query := (nodeSyncsFold me ms m).1
    have micro := congrArg QueryMsg.localMicroTask query
    have large := congrArg QueryMsg.localTask query
    simp only [gained,deserialize,addressed,nodeEntriesCount]
    rw [micro,large]
    simp only [nodeSynced,List.drop_left,List.map_flatMap,List.map_map]
    simp [Function.comp_def]
  | task ts ns => exact nothing
  | result rs => exact nothing
  | nodeResult rs => exact nothing

end Known

section Puts

variable {x cfg} {me : Fin n}

/- What a step that does not receive does to the lists of machine me. -/
structure Puts (x : Index n D) (cfg : Config n D) (me : Fin n) (op : Op) (m m' : Machine n D) : Prop where
  rbuf : m'.rbuf = m.rbuf
  known : Known m'
  held : ∀ p, p ≠ me → ∀ i, held m' p i = held m p i + (putBy x cfg me m p op).count i

def grown (m : Machine n D) (added : Fin n → List (NonCoreSyncMsg n)) : Machine n D :=
  { m with noncoreSyncMsg := fun p => m.noncoreSyncMsg p ++ added p }

omit [Zero D] in
theorem grownHeld (m : Machine n D) (added : Fin n → List (NonCoreSyncMsg n)) (p : Fin n) (i : Item) :
    held (grown m added) p i = held m p i + (nodeEntries (added p)).count i := by
  simp only [held,waiting,queued,flying,grown,nodeEntries,List.flatMap_append,List.count_append]
  omega

theorem getNodetaskMsgAdds (t : NodeTask n) (rs : List (Record n)) (e : NodeExpansion n D) : ∃ added,
    (getNodetaskMsg t rs e).machine.noncoreSyncMsg = (grown e.machine added).noncoreSyncMsg ∧
      Keeps (grown e.machine added) (getNodetaskMsg t rs e).machine := by
  have nothing : ∀ m : Machine n D, m = grown m (fun _ => []) := by
    intro m
    simp [grown]
  -- a queue that gets one message, and what the rest of the block adds
  have push : ∀ (m : Machine n D) pid micro large added,
      grown (addNodeSync t pid micro large m) added =
        grown m (fun p => (if p = pid then [⟨micro,large,t.machineId,t.nodeId⟩] else []) ++ added p) := by
    intro m pid micro large added
    have queues : ∀ p, (addNodeSync t pid micro large m).noncoreSyncMsg p = m.noncoreSyncMsg p ++
        if p = pid then [⟨micro,large,t.machineId,t.nodeId⟩] else [] := by
      intro p
      rcases eq_or_ne p pid with rfl | other
      · simp [addNodeSync]
      · simp [addNodeSync,other]
    unfold grown
    simp only [queues,List.append_assoc]
    rfl
  induction rs generalizing e with
  | nil => exact ⟨fun _ => [],by rw [← nothing]; exact ⟨rfl,keepsRefl _⟩⟩
  | cons r rest ih =>
    cases r with
    | localNgh deg ofs => exact ⟨fun _ => [],by rw [← nothing]; exact ⟨rfl,keepsRefl _⟩⟩
    | micro pid ids =>
      simp only [getNodetaskMsg]
      split
      · obtain ⟨added,same,keeps⟩ := ih { e with machine := addNodeSync t pid ids [] e.machine }
        rw [push] at same keeps
        exact ⟨_,same,keeps⟩
      · obtain ⟨added,same,keeps⟩ := ih { e with
          machine := addNodeRemote t pid (.packed ids) e.machine, postCnt := e.postCnt + 1 }
        refine ⟨added,same,Keeps.trans ?_ keeps⟩
        exact ⟨rfl,rfl,rfl,rfl,rfl,id,fun _ _ => rfl⟩
    | large pid ofs deg =>
      simp only [getNodetaskMsg]
      split
      · obtain ⟨added,same,keeps⟩ := ih { e with machine := addNodeSync t pid [] [(ofs,deg)] e.machine }
        rw [push] at same keeps
        exact ⟨_,same,keeps⟩
      · obtain ⟨added,same,keeps⟩ := ih { e with
          machine := addNodeRemote t pid (.stored ofs deg) e.machine, postCnt := e.postCnt + 1 }
        refine ⟨added,same,Keeps.trans ?_ keeps⟩
        exact ⟨rfl,rfl,rfl,rfl,rfl,id,fun _ _ => rfl⟩

omit [Zero D] in
theorem mergedKeeps (p : Fin n) (e : Machine n D) :
    Keeps e (if postResMerge ≤ (e.nodeResultQueue p).length then postNodeResult p e else e) ∧
    Keeps e (if postNodesyncMerge ≤ (e.noncoreSyncMsg p).length then postNodeSync p e else e) := by
  constructor
  · split
    · exact postNodeResultKeeps p e
    · exact keepsRefl e
  · split
    · exact postNodeSyncKeeps p e
    · exact keepsRefl e

theorem procNodeTaskPuts {m m' : Machine n D} (known : Known m) (ok : procNodeTask x me m = some m') :
    Puts x cfg me .procNodeTask m m' := by
  unfold procNodeTask at ok
  split at ok <;> try contradiction
  rename_i t rest queue
  split at ok <;> try contradiction
  obtain ⟨added,same,decoded⟩ := getNodetaskMsgAdds t (x.block t.nodeId) ⟨{ m with curNodeQueue := rest },0,none⟩
  have expanded : Keeps (grown m added) (expandNodeTask x me t { m with curNodeQueue := rest }) := by
    refine Keeps.trans (Keeps.trans ?_ decoded) ?_
    · exact ⟨rfl,rfl,rfl,rfl,rfl,id,fun _ _ => rfl⟩
    · exact ⟨rfl,rfl,rfl,rfl,rfl,id,fun _ _ => rfl⟩
  have posted := (expanded.trans (mergedKeeps t.machineId _).1).trans (mergedKeeps t.machineId _).2
  have put : ∀ p, putBy x cfg me m p .procNodeTask = nodeEntries (added p) := by
    intro p
    have list : (expandNodeTask x me t { m with curNodeQueue := rest }).noncoreSyncMsg p = m.noncoreSyncMsg p ++ added p :=
      congrFun same p
    simp only [putBy,queue,list,List.drop_left]
  cases Option.some.inj ok
  refine ⟨posted.rbuf,posted.known ⟨known.flags,known.lists,known.asleep⟩,fun p _ i => ?_⟩
  rw [posted.held,grownHeld,put]

/- The lists for the next SYNC after the decoders. -/
def fed (m : Machine n D) (micro : Fin n → List Nat) (large : Fin n → List (Nat × Nat)) : Machine n D :=
  { m with
    coreMicroNgh := fun p => m.coreMicroNgh p ++ micro p
    coreLargeNgh := fun p => m.coreLargeNgh p ++ large p }

-- They grow for machines that `may` names only.
def Feeds (may : Fin n → Prop) (m m' : Machine n D) : Prop :=
  ∃ micro large, Keeps (fed m micro large) m' ∧ ∀ p, ¬may p → micro p = [] ∧ large p = []

omit [Zero D] in
theorem feedsKeeps (may : Fin n → Prop) {m m' : Machine n D} (keeps : Keeps m m') : Feeds may m m' := by
  refine ⟨fun _ => [],fun _ => [],?_,fun _ _ => ⟨rfl,rfl⟩⟩
  have same : fed m (fun _ => []) (fun _ => []) = m := by simp [fed]
  rw [same]
  exact keeps

omit [Zero D] in
theorem Feeds.trans {may : Fin n → Prop} {a b c : Machine n D} (first : Feeds may a b) (second : Feeds may b c) :
    Feeds may a c := by
  obtain ⟨micro,large,keeps,only⟩ := first
  obtain ⟨micro',large',keeps',only'⟩ := second
  refine ⟨fun p => micro p ++ micro' p,fun p => large p ++ large' p,Keeps.trans ?_ keeps',fun p no => ?_⟩
  · refine ⟨keeps.core,keeps.flags,?_,?_,keeps.rbuf,keeps.asleep,keeps.out⟩
    · simp only [fed,keeps.micro,List.append_assoc]
    · simp only [fed,keeps.large,List.append_assoc]
  · obtain ⟨none₁,none₂⟩ := only p no
    obtain ⟨none₃,none₄⟩ := only' p no
    simp only [none₁,none₂,none₃,none₄,List.append_nil,and_self]

omit [Zero D] in
theorem Feeds.mono {may may' : Fin n → Prop} {m m' : Machine n D} (feeds : Feeds may m m')
    (more : ∀ p, may p → may' p) : Feeds may' m m' := by
  obtain ⟨micro,large,keeps,only⟩ := feeds
  exact ⟨micro,large,keeps,fun p no => only p (fun yes => no (more p yes))⟩

omit [Zero D] in
theorem Feeds.flags {may : Fin n → Prop} {m m' : Machine n D} (feeds : Feeds may m m') :
    m'.isCoreMachine = m.isCoreMachine := by
  obtain ⟨_,_,keeps,_⟩ := feeds
  exact keeps.flags

omit [Zero D] in
theorem pushMicroFeeds (may : Fin n → Prop) {pid : Fin n} (here : may pid) (ids : List Nat) (m : Machine n D) :
    Feeds may m { m with coreMicroNgh := Function.update m.coreMicroNgh pid (m.coreMicroNgh pid ++ ids) } := by
  refine ⟨fun p => if p = pid then ids else [],fun _ => [],⟨rfl,rfl,?_,by simp [fed],rfl,id,fun _ _ => rfl⟩,?_⟩
  · funext p
    rcases eq_or_ne p pid with rfl | other
    · simp [fed]
    · simp [fed,other]
  · intro p no
    have other : p ≠ pid := fun same => no (same ▸ here)
    exact ⟨if_neg other,rfl⟩

omit [Zero D] in
theorem pushLargeFeeds (may : Fin n → Prop) {pid : Fin n} (here : may pid) (e : Nat × Nat) (m : Machine n D) :
    Feeds may m { m with coreLargeNgh := Function.update m.coreLargeNgh pid (m.coreLargeNgh pid ++ [e]) } := by
  refine ⟨fun _ => [],fun p => if p = pid then [e] else [],⟨rfl,rfl,by simp [fed],?_,rfl,id,fun _ _ => rfl⟩,?_⟩
  · funext p
    rcases eq_or_ne p pid with rfl | other
    · simp [fed]
    · simp [fed,other]
  · intro p no
    have other : p ≠ pid := fun same => no (same ▸ here)
    exact ⟨rfl,if_neg other⟩

omit [Zero D] in
theorem getSubqueryTaskLbFeeds (me : Fin n) (lb : D) (efFill : Bool) (rs : List (Record n)) (m : Machine n D) :
    Feeds (fun p => m.isCoreMachine p = true ∧ ∃ r ∈ rs, r.remote = some p) m
      (getSubqueryTaskLb me lb efFill rs m).1 := by
  induction rs generalizing m with
  | nil => exact feedsKeeps _ (keepsRefl m)
  | cons r rest ih =>
    have later : ∀ p, (m.isCoreMachine p = true ∧ ∃ r ∈ rest, r.remote = some p) →
        m.isCoreMachine p = true ∧ ∃ r' ∈ r :: rest, r'.remote = some p :=
      fun p ⟨flag,r',among,at'⟩ => ⟨flag,r',List.mem_cons_of_mem _ among,at'⟩
    cases r with
    | localNgh deg ofs => exact feedsKeeps _ ⟨rfl,rfl,rfl,rfl,rfl,id,fun _ _ => rfl⟩
    | micro pid ids =>
      simp only [getSubqueryTaskLb]
      split
      · rename_i flag
        exact (pushMicroFeeds _ ⟨flag,_,List.mem_cons_self,rfl⟩ ids m).trans ((ih _).mono later)
      · refine Feeds.trans (feedsKeeps _ ?_) ((ih _).mono later)
        exact ⟨rfl,rfl,rfl,rfl,rfl,id,fun _ _ => rfl⟩
    | large pid ofs deg =>
      simp only [getSubqueryTaskLb]
      split
      · rename_i flag
        exact (pushLargeFeeds _ ⟨flag,_,List.mem_cons_self,rfl⟩ (ofs,deg) m).trans ((ih _).mono later)
      · refine Feeds.trans (feedsKeeps _ ?_) ((ih _).mono later)
        exact ⟨rfl,rfl,rfl,rfl,rfl,id,fun _ _ => rfl⟩

omit [Zero D] in
theorem expandNodesFeeds (vs : List Nat) (m : Machine n D) :
    Feeds (fun p => m.isCoreMachine p = true ∧ ∃ v ∈ vs, x.getMachineId v = me ∧ ∃ r ∈ x.block v, r.remote = some p) m
      (vs.foldl (expandNode x cfg me) m) := by
  induction vs generalizing m with
  | nil => exact feedsKeeps _ (keepsRefl m)
  | cons v rest ih =>
    have first : Feeds (fun p => m.isCoreMachine p = true ∧
        ∃ u ∈ v :: rest, x.getMachineId u = me ∧ ∃ r ∈ x.block u, r.remote = some p) m (expandNode x cfg me m v) := by
      rcases eq_or_ne (x.getMachineId v) me with here | remote
      · rw [expandNodeLocal x cfg me here]
        have block := getSubqueryTaskLbFeeds me m.search.lowerBound (efFilled cfg m.toQueryMsg) (x.block v) m
        refine Feeds.trans (block.mono ?_) (feedsKeeps _ ?_)
        · exact fun p ⟨flag,found⟩ => ⟨flag,v,List.mem_cons_self,here,found⟩
        · exact ⟨rfl,rfl,rfl,rfl,rfl,id,fun _ _ => rfl⟩
      · rw [expandNodeRemote x cfg me remote]
        exact feedsKeeps _ ⟨rfl,rfl,rfl,rfl,rfl,id,fun _ _ => rfl⟩
    refine first.trans ((ih _).mono ?_)
    intro p ⟨flag,u,among,found⟩
    rw [first.flags] at flag
    exact ⟨flag,u,List.mem_cons_of_mem _ among,found⟩

omit [Zero D] in
theorem fedHeld (m : Machine n D) (micro : Fin n → List Nat) (large : Fin n → List (Nat × Nat)) (p : Fin n) (i : Item) :
    held (fed m micro large) p i = held m p i + (entries (micro p) (large p)).count i := by
  simp only [held,waiting,queued,flying,fed,entriesCount]
  omega

/- sync_msg goes to every other machine of the roster and is cleared. -/
structure Clears (me : Fin n) (m m' : Machine n D) : Prop where
  core : m'.coreMachine = m.coreMachine
  flags : m'.isCoreMachine = m.isCoreMachine
  cleared : ∀ p, waiting m' p = []
  rbuf : m'.rbuf = m.rbuf
  out : ∀ p, p ≠ me → ∀ i, (queued m' p).count i + (flying m' p).count i =
    (queued m p).count i + (flying m p).count i + m.coreMachine.count p * (waiting m p).count i

omit [Zero D] in
theorem Clears.known {m m' : Machine n D} (clears : Clears me m m') (known : Known m) : Known m' where
  flags p flag := by
    rw [clears.core]
    exact known.flags p (by rw [← clears.flags]; exact flag)
  lists p _ := clears.cleared p
  asleep _ p := clears.cleared p

-- One copy for p, or nothing to copy.
omit [Zero D] in
theorem Clears.held {m m' : Machine n D} (clears : Clears me m m') (known : Known m) {p : Fin n} (other : p ≠ me)
    (single : waiting m p ≠ [] → m.coreMachine.count p ≤ 1) (i : Item) : held m' p i = held m p i := by
  have out := clears.out p other i
  simp only [Forwarding.held,clears.cleared,List.count_nil]
  by_cases empty : waiting m p = []
  · simp only [empty,List.count_nil,Nat.mul_zero] at out ⊢
    omega
  · have member : p ∈ m.coreMachine := by
      by_contra outside
      exact empty (known.lists p outside)
    have once : m.coreMachine.count p = 1 := Nat.le_antisymm (single empty) (List.count_pos_iff.mpr member)
    rw [once,Nat.one_mul] at out
    omega

omit [Zero D] in
theorem Clears.keeps {a b c : Machine n D} (clears : Clears me a b) (keeps : Keeps b c) : Clears me a c where
  core := keeps.core.trans clears.core
  flags := keeps.flags.trans clears.flags
  cleared p := (keeps.waiting p).trans (clears.cleared p)
  rbuf := keeps.rbuf.trans clears.rbuf
  out p other i := (keeps.out p i).trans (clears.out p other i)

omit [Zero D] in
theorem Keeps.clears {a b c : Machine n D} (keeps : Keeps a b) (clears : Clears me b c) : Clears me a c where
  core := clears.core.trans keeps.core
  flags := clears.flags.trans keeps.flags
  cleared := clears.cleared
  rbuf := clears.rbuf.trans keeps.rbuf
  out p other i := by rw [clears.out p other,keeps.out,keeps.core,keeps.waiting]

omit [Zero D] in
theorem postSyncsOut (me nxt : Fin n) (propToken taint : Bool) (ps : List (Fin n)) (m : Machine n D) :
    let m' := ps.foldl (postSync me nxt propToken taint) m
    m'.rbuf = m.rbuf ∧ m'.noncoreSyncMsg = m.noncoreSyncMsg ∧ ∀ p, p ≠ me → ∀ i,
      (flying m' p).count i = (flying m p).count i + ps.count p * (waiting m p).count i := by
  induction ps generalizing m with
  | nil => exact ⟨rfl,rfl,fun p other i => by simp⟩
  | cons q rest ih =>
    obtain ⟨rbuf,noncore,out⟩ := ih (postSync me nxt propToken taint m q)
    rw [List.foldl_cons]
    rcases eq_or_ne q me with rfl | away
    · have same : postSync q nxt propToken taint m q = m := if_pos rfl
      simp only [same] at rbuf noncore out ⊢
      refine ⟨rbuf,noncore,fun p other i => ?_⟩
      rw [out p other,List.count_cons_of_ne (Ne.symm other)]
    · have posted : postSync me nxt propToken taint m q = { m with
          wire := Function.update m.wire q (m.wire q ++
            [.sync (syncMsg m.toQueryMsg (propToken && decide (nxt = q) && m.hasToken) taint)])
          hasToken := m.hasToken && !(propToken && decide (nxt = q) && m.hasToken) } := if_neg away
      simp only [posted] at rbuf noncore out ⊢
      refine ⟨rbuf,noncore,fun p other i => ?_⟩
      rw [out p other]
      simp only [flying,waiting,sentFlying,List.count_append]
      rcases eq_or_ne p q with rfl | elsewhere
      · rw [if_pos rfl,List.count_cons_self,Nat.add_mul,Nat.one_mul]
        simp only [addressed,syncMsg]
        omega
      · rw [if_neg elsewhere,List.count_cons_of_ne (Ne.symm elsewhere),List.count_nil,Nat.add_zero]

omit [Zero D] in
theorem clearedSync (propToken taint : Bool) (m : Machine n D) :
    Clears me m (clearSync (postSubquerySync me propToken taint m)) := by
  obtain ⟨rbuf,noncore,out⟩ := postSyncsOut me (nxtPropM me m.coreMachine) propToken taint m.coreMachine m
  have query := postSyncsQuery me (nxtPropM me m.coreMachine) propToken taint m.coreMachine m
  have core := congrArg QueryMsg.coreMachine query
  have flags := congrArg QueryMsg.isCoreMachine query
  refine ⟨core,flags,fun p => rfl,rbuf,fun p other i => ?_⟩
  · have queue : queued (clearSync (postSubquerySync me propToken taint m)) p = queued m p :=
      congrArg nodeEntries (congrFun noncore p)
    have posted := out p other i
    rw [queue]
    simp only [flying,clearSync,postSubquerySync] at posted ⊢
    omega

omit [Zero D] in
variable (x cfg me) in
theorem decodedFeeds (m : Machine n D) : Feeds (fun p => m.isCoreMachine p = true ∧
    ∃ v ∈ (nextGroup m.toQueryMsg).1, x.getMachineId v = me ∧ ∃ r ∈ x.block v, r.remote = some p) m
      (decoded x cfg me m) := by
  refine Feeds.trans (feedsKeeps _ ?_) (expandNodesFeeds _ _)
  exact ⟨rfl,rfl,rfl,rfl,rfl,id,fun _ _ => rfl⟩

variable (x cfg me) in
theorem decodedPuts {m : Machine n D} (known : Known m) (top : m.coro = .top) :
    Puts x cfg me .loopTop m (decoded x cfg me m) ∧ (decoded x cfg me m).coreMachine = m.coreMachine ∧
      ∀ p, waiting (decoded x cfg me m) p ≠ [] → HasFor x me p m.toQueryMsg := by
  obtain ⟨micro,large,keeps,only⟩ := decodedFeeds x cfg me m
  have fedKnown : Known (fed m micro large) := by
    refine ⟨known.flags,fun p outside => ?_,fun none' => absurd (top.symm.trans none') (by decide)⟩
    obtain ⟨noMicro,noLarge⟩ := only p (fun may => outside (known.flags p may.1))
    simp only [waiting,fed,noMicro,noLarge,List.append_nil]
    exact known.lists p outside
  refine ⟨⟨keeps.rbuf,keeps.known fedKnown,fun p _ i => ?_⟩,keeps.core,fun p some' => ?_⟩
  · rw [keeps.held,fedHeld]
    simp only [putBy,keeps.micro,keeps.large,fed,List.drop_left]
  · by_contra nothing
    simp only [HasFor,not_or,not_not] at nothing
    obtain ⟨noMicro,noLarge⟩ := only p (fun may => nothing.2.2 may.2)
    apply some'
    rw [keeps.waiting]
    simp only [waiting,fed,noMicro,noLarge,nothing.1,nothing.2.1]
    rfl

theorem Puts.keeps {op : Op} {a b c : Machine n D} (puts : Puts x cfg me op a b) (keeps : Keeps b c) :
    Puts x cfg me op a c :=
  ⟨keeps.rbuf.trans puts.rbuf,keeps.known puts.known,fun p other i => (keeps.held p i).trans (puts.held p other i)⟩

theorem Puts.clears {op : Op} {a b c : Machine n D} (puts : Puts x cfg me op a b) (clears : Clears me b c)
    (single : ∀ p, p ≠ me → waiting b p ≠ [] → b.coreMachine.count p ≤ 1) : Puts x cfg me op a c :=
  ⟨clears.rbuf.trans puts.rbuf,clears.known puts.known,
    fun p other i => (clears.held puts.known other (single p other) i).trans (puts.held p other i)⟩

omit [Zero D] in
variable (x cfg me) in
theorem decodedNone {m : Machine n D} (noneLeft : (nextGroup m.toQueryMsg).1 = []) : Keeps (decoded x cfg me m) m := by
  unfold decoded
  rw [noneLeft]
  exact ⟨rfl,rfl,rfl,rfl,rfl,id,fun _ _ => rfl⟩

omit [Zero D] in
theorem endQueryKeeps (m : Machine n D) : Keeps m (endQuery x cfg me m) := by
  unfold endQuery
  simp only
  split
  · refine ⟨rfl,rfl,rfl,rfl,rfl,fun none' => (nomatch none'),fun q i => ?_⟩
    simp only [queued,flying,sentFlying,addressed,ite_self,List.append_nil]
  · split
    · exact ⟨rfl,rfl,rfl,rfl,rfl,fun none' => (nomatch none'),fun _ _ => rfl⟩
    · exact ⟨rfl,rfl,rfl,rfl,rfl,fun none' => (nomatch none'),fun _ _ => rfl⟩

omit [Zero D] in
theorem propTokenClears (m : Machine n D) : Clears me m (pauseQuery (propToken me m)) := by
  have settled : Keeps m { m with search := { m.search with procIsBlack := false }, tokenIsBlack := false } :=
    ⟨rfl,rfl,rfl,rfl,rfl,id,fun _ _ => rfl⟩
  refine (settled.clears (clearedSync true (m.search.procIsBlack || m.tokenIsBlack) _)).keeps ?_
  exact ⟨rfl,rfl,rfl,rfl,rfl,fun none' => (nomatch none'),fun _ _ => rfl⟩

omit [Zero D] in
theorem periodicClears {m : Machine n D} (due : syncBar ≤ m.syncStep) : Clears me m (periodicSync me m) := by
  unfold periodicSync
  rw [if_pos due]
  have bounded : Keeps m { m with syncLowerBound := m.search.lowerBound } :=
    ⟨rfl,rfl,rfl,rfl,rfl,id,fun _ _ => rfl⟩
  refine (bounded.clears (clearedSync false false _)).keeps ?_
  exact ⟨rfl,rfl,rfl,rfl,rfl,id,fun _ _ => rfl⟩

omit [Zero D] in
theorem keepsTurn (m : Machine n D) (turn : Nat) : Keeps m { m with nextSubqueryQueue := turn, coro := .yielded } := by
  refine ⟨rfl,rfl,rfl,rfl,rfl,?_,fun _ _ => rfl⟩
  intro none'
  cases none'

theorem leavePuts {m : Machine n D} (known : Known m) (leaves : Leaves m.toQueryMsg)
    (single : Syncs me m.toQueryMsg → ∀ p, p ≠ me → HasFor x me p m.toQueryMsg → m.coreMachine.count p ≤ 1) :
    Puts x cfg me .loopTop m (leave x cfg me m) := by
  obtain ⟨decodedPut,core,has⟩ := decodedPuts x cfg me known leaves.top
  have idle := decodedPut.keeps (decodedNone x cfg me leaves.noneLeft)
  have clears : 1 < m.coreMachine.length → m.hasToken = true → ¬Ends me m.toQueryMsg → ∀ m', Clears me m m' →
      Puts x cfg me .loopTop m m' := by
    intro several holder going m' clears
    refine idle.clears clears (fun p other some' => single (.inr ⟨leaves,several,holder,going⟩) p other ?_)
    exact has p (by rw [← (decodedNone x cfg me leaves.noneLeft).waiting]; exact some')
  unfold leave
  split
  · rename_i several
    split
    · rename_i holder
      split
      · rename_i leader
        unfold leaderToken
        simp only
        split
        · refine idle.keeps (Keeps.trans ?_ (endQueryKeeps _))
          exact ⟨rfl,rfl,rfl,rfl,rfl,id,fun _ _ => rfl⟩
        · rename_i going
          refine clears several holder (fun ending => ?_) _ (Keeps.clears ?_ (propTokenClears _))
          · obtain ⟨_,_,white,clean⟩ := ending.second several
            rw [failed] at clean
            simp [white,clean] at going
          · exact ⟨rfl,rfl,rfl,rfl,rfl,id,fun _ _ => rfl⟩
      · rename_i other
        exact clears several holder (fun ending => other (ending.second several).2.1) _ (propTokenClears m)
    · refine idle.keeps ⟨rfl,rfl,rfl,rfl,rfl,?_,fun _ _ => rfl⟩
      intro none'
      cases none'
  · refine idle.keeps (Keeps.trans ?_ (endQueryKeeps _))
    exact ⟨rfl,rfl,rfl,rfl,rfl,id,fun _ _ => rfl⟩

theorem expandGroupPuts {m : Machine n D} (known : Known m) (top : m.coro = .top)
    (some' : (nextGroup m.toQueryMsg).1 ≠ [])
    (single : Syncs me m.toQueryMsg → ∀ p, p ≠ me → HasFor x me p m.toQueryMsg → m.coreMachine.count p ≤ 1) :
    Puts x cfg me .loopTop m (expandGroup x cfg me (nextGroup m.toQueryMsg).1
      { m with search := { m.search with candidateSet := (nextGroup m.toQueryMsg).2 } }) := by
  obtain ⟨decodedPut,core,has⟩ := decodedPuts x cfg me known top
  have posted : Keeps (decoded x cfg me m) { postRemoteTask me (decoded x cfg me m) with
      syncStep := (postRemoteTask me (decoded x cfg me m)).syncStep + 1 } := by
    refine (postRemoteTaskKeeps me _).trans ?_
    exact ⟨rfl,rfl,rfl,rfl,rfl,id,fun _ _ => rfl⟩
  have step : (postRemoteTask me (decoded x cfg me m)).syncStep = m.syncStep := by
    have kept : (decoded x cfg me m).syncStep = m.syncStep :=
      (expandNodesGrows x cfg me (nextGroup m.toQueryMsg).1
        { m with search := { m.search with candidateSet := (nextGroup m.toQueryMsg).2 } }).syncStep
    rw [postRemoteTask,postNodeRemoteTask]
    exact kept
  have synced : Puts x cfg me .loopTop m (periodicSync me { postRemoteTask me (decoded x cfg me m) with
      syncStep := (postRemoteTask me (decoded x cfg me m)).syncStep + 1 }) := by
    by_cases due : syncBar ≤ m.syncStep + 1
    · refine decodedPut.clears (posted.clears (periodicClears (by simp only [step]; exact due))) (fun p other holds => ?_)
      rw [core]
      exact single (.inl ⟨some',due⟩) p other (has p holds)
    · have early : ¬syncBar ≤ (postRemoteTask me (decoded x cfg me m)).syncStep + 1 := by rw [step]; exact due
      rw [periodicSync,if_neg early]
      exact decodedPut.keeps posted
  exact synced.keeps (keepsTurn _ _)

theorem loopTopPuts {m : Machine n D} (known : Known m) (top : m.coro = .top)
    (single : Syncs me m.toQueryMsg → ∀ p, p ≠ me → HasFor x me p m.toQueryMsg → m.coreMachine.count p ≤ 1) :
    Puts x cfg me .loopTop m (loopTop x cfg me m) := by
  unfold loopTop
  simp only
  split
  · rename_i none'
    have noneLeft : (nextGroup m.toQueryMsg).1 = [] := List.isEmpty_iff.mp none'
    have idle := (decodedPuts x cfg me known top).1.keeps (decodedNone x cfg me noneLeft)
    split
    · rename_i all
      split
      · rename_i post
        exact leavePuts known ⟨top,noneLeft,all,post⟩ single
      · exact idle.keeps (keepsTurn m m.nextSubqueryQueue)
    · exact idle.keeps (keepsTurn m _)
  · rename_i some'
    exact expandGroupPuts known top (fun none' => some' (List.isEmpty_iff.mpr none')) single

end Puts

section Account

variable {x cfg}

theorem performPuts {me : Fin n} {m m' : Machine n D} {op : Op} (known : Known m) (sends : ∀ k, op ≠ .poll k)
    (single : op = .loopTop → Syncs me m.toQueryMsg → ∀ p, p ≠ me → HasFor x me p m.toQueryMsg →
      m.coreMachine.count p ≤ 1) (ok : perform x cfg me m op = some m') : Puts x cfg me op m m' := by
  have plain : Plain op → (∀ p, putBy x cfg me m p op = []) → Puts x cfg me op m m' := by
    intro yes none'
    have keeps := performKeeps yes ok
    exact ⟨keeps.rbuf,keeps.known known,fun p _ i => by rw [keeps.held,none',List.count_nil,Nat.add_zero]⟩
  cases performed ok with
  | @poll k _ _ _ _ => exact absurd rfl (sends k)
  | searchSub _ ok =>
    obtain ⟨idle,keeps⟩ := searchSubKeeps ok
    refine ⟨keeps.rbuf,keeps.known ⟨fun p flag => of_decide_eq_true flag,fun p _ => known.asleep idle p,known.asleep⟩,?_⟩
    intro p _ i
    rw [keeps.held]
    rfl
  | procNodeTask _ _ ok => exact procNodeTaskPuts known ok
  | loopTop top => exact loopTopPuts known top (single rfl)
  | _ => exact plain trivial (fun _ => rfl)

omit [Distance D] [Zero D] in
theorem fromSenderPush (s p a : Fin n) {senders : List (Fin n)} {msgs : List (Message n D)}
    (paired : senders.length = msgs.length) (msg : Message n D) :
    fromSender s p (senders ++ [a]) (msgs ++ [msg]) =
      fromSender s p senders msgs ++ if a = s then addressed p msg else [] := by
  simp [fromSender,List.zip_append paired]

omit [Distance D] [Zero D] in
theorem fromSenderCons (s p q : Fin n) (senders : List (Fin n)) (msg : Message n D) (msgs : List (Message n D)) :
    fromSender s p (q :: senders) (msg :: msgs) =
      (if q = s then addressed p msg else []) ++ fromSender s p senders msgs := by
  simp [fromSender]

/- Whatever s has put into its lists for p is still there, on its way, or with p. -/
structure Accounted (t : Tracked n D) : Prop where
  known : ∀ a, Known (t.net a)
  paired : ∀ p k, (t.senders p k).length = ((t.net p).rbuf k).length
  balance : ∀ s p, s ≠ p → ∀ i, (t.put s p).count i =
    held (t.net s) p i + ∑ k, (receivedFrom t s p k).count i + (t.handed s p).count i

omit [Zero D] in
theorem startAccounted : Accounted (trackStart cfg) where
  known _ := ⟨fun _ flag => absurd flag Bool.false_ne_true,fun _ _ => rfl,fun _ _ => rfl⟩
  paired _ _ := rfl
  balance _ _ _ i := by simp [trackStart,held,waiting,queued,flying,start,fresh,receivedFrom,fromSender,entries,nodeEntries]

theorem sendAccounted {t t' : Tracked n D} {a : Fin n} {op : Op} (before : Accounted t) (sends : ∀ k, op ≠ .poll k)
    (single : Single x t (.host a op)) (ok : track x cfg t (.host a op) = some t') : Accounted t' := by
  obtain ⟨m',done,rfl⟩ := Option.map_eq_some_iff.mp ok
  have puts := performPuts (before.known a) sends (fun top => by subst top; exact single) done
  have left : sendersLeft (t.senders a) op = t.senders a := by
    cases op <;> first | rfl | exact absurd rfl (sends _)
  have nobody : polledFrom (t.senders a) op = none := by
    cases op <;> first | rfl | exact absurd rfl (sends _)
  have buffers : ∀ p, (Function.update t.net a m' p).rbuf = (t.net p).rbuf := by
    intro p
    rcases eq_or_ne p a with rfl | other
    · rw [Function.update_self]
      exact puts.rbuf
    · rw [Function.update_of_ne other]
  simp only [left,nobody,Function.update_eq_self]
  refine ⟨fun p => ?_,fun p k => ?_,fun s p other i => ?_⟩
  · rcases eq_or_ne p a with rfl | other
    · simp only [Function.update_self]
      exact puts.known
    · simp only [Function.update_of_ne other]
      exact before.known p
  · simp only [buffers]
    exact before.paired p k
  · have balance := before.balance s p other i
    simp only [receivedFrom,buffers] at balance ⊢
    rcases eq_or_ne s a with rfl | elsewhere
    · simp only [Function.update_self,List.count_append]
      rw [puts.held p (Ne.symm other),balance]
      omega
    · simp only [Function.update_of_ne elsewhere]
      exact balance

theorem pollAccounted {t t' : Tracked n D} {a : Fin n} {k : Control} (before : Accounted t)
    (ok : track x cfg t (.host a (.poll k)) = some t') : Accounted t' := by
  obtain ⟨m',done,rfl⟩ := Option.map_eq_some_iff.mp ok
  cases performed done
  rename_i msg rest _ buffer
  have keeps := deserializeKeeps cfg a { t.net a with rbuf := Function.update (t.net a).rbuf k rest } msg
  have gain := gainedAddressed cfg a { t.net a with rbuf := Function.update (t.net a).rbuf k rest } msg
  generalize deserialize cfg a { t.net a with rbuf := Function.update (t.net a).rbuf k rest } msg = m' at keeps gain
  have paired := before.paired a k
  rw [buffer] at paired
  obtain ⟨q,left,sender⟩ := List.exists_cons_of_length_eq_add_one paired
  have polled : polledFrom (t.senders a) (.poll k) = some q := by
    simp only [polledFrom,sender,List.head?_cons]
  have leaving : sendersLeft (t.senders a) (.poll k) = Function.update (t.senders a) k left := by
    simp only [sendersLeft,sender,List.tail_cons]
  simp only [polled,leaving]
  -- one message less, all of its entries from q
  have taken : ∀ s i, (∑ j, (fromSender s a (Function.update (t.senders a) k left j) (m'.rbuf j)).count i) +
      (if q = s then addressed a msg else []).count i =
      ∑ j, (fromSender s a (t.senders a j) ((t.net a).rbuf j)).count i := by
    intro s i
    have same : ∀ j, j ≠ k → (fromSender s a (Function.update (t.senders a) k left j) (m'.rbuf j)).count i =
        (fromSender s a (t.senders a j) ((t.net a).rbuf j)).count i := by
      intro j other
      rw [keeps.rbuf,Function.update_of_ne other]
      simp only [joined,Function.update_of_ne other]
    have change := sumChange same
    have here : fromSender s a (t.senders a k) ((t.net a).rbuf k) =
        (if q = s then addressed a msg else []) ++ fromSender s a left (m'.rbuf k) := by
      rw [sender,buffer,fromSenderCons,keeps.rbuf]
      simp only [joined,Function.update_self]
    rw [here,Function.update_self,List.count_append] at change
    omega
  refine ⟨fun p => ?_,fun p j => ?_,fun s p other i => ?_⟩
  · rcases eq_or_ne p a with rfl | other
    · simp only [Function.update_self]
      refine keeps.known (joinedKnown ?_ _)
      exact ⟨(before.known p).flags,(before.known p).lists,(before.known p).asleep⟩
    · simp only [Function.update_of_ne other]
      exact before.known p
  · rcases eq_or_ne p a with rfl | other
    · simp only [Function.update_self,keeps.rbuf,joined]
      rcases eq_or_ne j k with rfl | kept
      · simp only [Function.update_self]
        exact Nat.succ.inj ((congrArg List.length sender).symm.trans paired)
      · simp only [Function.update_of_ne kept]
        exact before.paired p j
    · simp only [Function.update_of_ne other]
      exact before.paired p j
  · have balance := before.balance s p other i
    rcases eq_or_ne p a with rfl | elsewhere
    · have fromS := taken s i
      simp only [receivedFrom,Function.update_self,Function.update_of_ne other] at balance ⊢
      rcases eq_or_ne s q with rfl | away
      · simp only [if_true,Function.update_self,List.count_append] at fromS ⊢
        have count := gain i
        simp only [gained] at count ⊢
        omega
      · simp only [if_neg away,if_neg (Ne.symm away),List.count_nil] at fromS ⊢
        omega
    · have handed : (if s = q then Function.update (t.handed s) a (t.handed s a ++ gained (t.net a) m')
          else t.handed s) p = t.handed s p := by
        split
        · rw [Function.update_of_ne elsewhere]
        · rfl
      simp only [receivedFrom,handed,Function.update_of_ne elsewhere] at balance ⊢
      rcases eq_or_ne s a with rfl | away
      · simp only [Function.update_self,putBy,List.append_nil]
        rw [keeps.held]
        exact balance
      · simp only [Function.update_of_ne away]
        exact balance

theorem deliverAccounted {t t' : Tracked n D} {a p : Fin n} (before : Accounted t)
    (ok : track x cfg t (.deliver a p) = some t') : Accounted t' := by
  simp only [track] at ok
  split at ok <;> try contradiction
  rename_i msg rest wire
  obtain ⟨net,done,rfl⟩ := Option.map_eq_some_iff.mp ok
  unfold deliver at done
  rw [wire] at done
  simp only at done
  split at done <;> try contradiction
  rename_i apart
  cases Option.some.inj done
  have atP : Function.update t.net a { t.net a with wire := Function.update (t.net a).wire p rest } p = t.net p :=
    Function.update_of_ne (Ne.symm apart) _ _
  rw [atP]
  -- the head of the wire is one more message in the buffer
  have sent : ∀ q i, held { t.net a with wire := Function.update (t.net a).wire p rest } q i +
      (if q = p then (addressed p msg).count i else 0) = held (t.net a) q i := by
    intro q i
    simp only [held,waiting,queued,flying]
    rcases eq_or_ne q p with rfl | other
    · simp only [Function.update_self,wire,List.flatMap_cons,List.count_append,if_true]
      omega
    · simp only [Function.update_of_ne other,if_neg other,Nat.add_zero]
  have arrived : ∀ s i, (∑ j, (fromSender s p
      (Function.update (t.senders p) msg.control (t.senders p msg.control ++ [a]) j)
      (Function.update (t.net p).rbuf msg.control ((t.net p).rbuf msg.control ++ [msg]) j)).count i) =
      (∑ j, (fromSender s p (t.senders p j) ((t.net p).rbuf j)).count i) +
        (if a = s then (addressed p msg).count i else 0) := by
    intro s i
    have same : ∀ j, j ≠ msg.control → (fromSender s p
        (Function.update (t.senders p) msg.control (t.senders p msg.control ++ [a]) j)
        (Function.update (t.net p).rbuf msg.control ((t.net p).rbuf msg.control ++ [msg]) j)).count i =
        (fromSender s p (t.senders p j) ((t.net p).rbuf j)).count i := by
      intro j other
      rw [Function.update_of_ne other,Function.update_of_ne other]
    have change := sumChange same
    rw [Function.update_self,Function.update_self,fromSenderPush s p a (before.paired p msg.control),
      List.count_append] at change
    split at change
    · rw [if_pos ‹_›]
      omega
    · rw [if_neg ‹_›]
      rw [List.count_nil] at change
      omega
  refine ⟨fun q => ?_,fun q j => ?_,fun s q other i => ?_⟩
  · rcases eq_or_ne q p with rfl | notP
    · simp only [Function.update_self]
      exact ⟨(before.known q).flags,(before.known q).lists,(before.known q).asleep⟩
    · rcases eq_or_ne q a with rfl | notA
      · simp only [Function.update_of_ne notP,Function.update_self]
        exact ⟨(before.known q).flags,(before.known q).lists,(before.known q).asleep⟩
      · simp only [Function.update_of_ne notP,Function.update_of_ne notA]
        exact before.known q
  · rcases eq_or_ne q p with rfl | notP
    · simp only [Function.update_self]
      rcases eq_or_ne j msg.control with rfl | kept
      · simp only [Function.update_self,List.length_append,before.paired]
        rfl
      · simp only [Function.update_of_ne kept]
        exact before.paired q j
    · rcases eq_or_ne q a with rfl | notA
      · simp only [Function.update_of_ne notP,Function.update_self]
        exact before.paired q j
      · simp only [Function.update_of_ne notP,Function.update_of_ne notA]
        exact before.paired q j
  · have balance := before.balance s q other i
    rcases eq_or_ne q p with rfl | notP
    · have fromS := arrived s i
      simp only [receivedFrom,Function.update_self,Function.update_of_ne other] at balance ⊢
      rcases eq_or_ne s a with rfl | notA
      · have gone := sent q i
        simp only [Function.update_self,if_true] at gone fromS ⊢
        omega
      · simp only [Function.update_of_ne notA,if_neg (Ne.symm notA)] at fromS ⊢
        omega
    · have buffers : (Function.update t.net a
          { t.net a with wire := Function.update (t.net a).wire p rest } q).rbuf = (t.net q).rbuf := by
        rcases eq_or_ne q a with rfl | notA
        · rw [Function.update_self]
        · rw [Function.update_of_ne notA]
      simp only [receivedFrom,buffers,Function.update_of_ne notP] at balance ⊢
      rcases eq_or_ne s p with rfl | fromOther
      · simp only [Function.update_self]
        exact balance
      · rcases eq_or_ne s a with rfl | notA
        · have gone := sent q i
          simp only [Function.update_self,Function.update_of_ne fromOther,if_neg notP,Nat.add_zero] at gone ⊢
          rw [gone]
          exact balance
        · simp only [Function.update_of_ne fromOther,Function.update_of_ne notA]
          exact balance

theorem trackAccounted {t t' : Tracked n D} {act : Act n} (single : Single x t act) (ok : track x cfg t act = some t')
    (before : Accounted t) : Accounted t' := by
  cases act with
  | deliver a p => exact deliverAccounted before ok
  | host a op =>
    by_cases polls : ∃ k, op = .poll k
    · obtain ⟨k,rfl⟩ := polls
      exact pollAccounted before ok
    · exact sendAccounted before (fun k is => polls ⟨k,is⟩) single ok

/- Forwarded neighbours are neither lost nor duplicated. -/
theorem forwardedOnce {acts : List (Act n)} {t : Tracked n D}
    (single : Along (track x cfg) (Single x) (trackStart cfg) acts) (ok : run (track x cfg) (trackStart cfg) acts = some t)
    (s p : Fin n) (other : s ≠ p) : (t.put s p : Multiset Item) =
      waiting (t.net s) p + queued (t.net s) p + flying (t.net s) p + ∑ k, (receivedFrom t s p k : Multiset Item) +
        t.handed s p := by
  have valid : Accounted t :=
    runInvariantAlong (fun _ _ _ good done before => trackAccounted good done before) single ok startAccounted
  ext i
  simp only [Multiset.count_add,Multiset.count_sum',Multiset.coe_count]
  rw [valid.balance s p other i,held]
  omega

end Account

section Late

/- Two cores, with two candidates each that have no neighbours, and a machine that only
holds the enter point. Vertex 1 is a neighbour of it that machine 1 owns; vertex 5, at the
end of the chain from 1, belongs to machine 0. -/
def lateIndex : Index 3 Nat where
  getMachineId v := if v = 0 then 2 else if v < 5 ∨ 8 ≤ v then 1 else 0
  block v := if v = 0 then [.micro 1 [1]] else if v < 4 then [.localNgh 1 (v+1)] else if v = 4 then [.micro 0 [5]] else []
  nghPtr _ ofs _ := [ofs]
  dist v := if v = 0 then 10 else if v < 6 then 6 - v else 11
  kmeansPosLabelMap v := v
  foreign v r member := by
    split at member
    · rename_i first
      rw [List.mem_singleton.mp member,if_pos first]
      decide
    · split at member
      · rw [List.mem_singleton.mp member]
        exact Option.some_ne_none _ |>.symm
      · split at member
        · rename_i last
          rw [List.mem_singleton.mp member,last]
          decide
        · cases member

def lateConfig : Config 3 Nat where
  ef := 5
  resKnn := 2
  originMachine := 1
  leaderMachine := 0
  coreMachine := [0,1]
  coreNodup := by decide
  leaderCore := by decide
  enterpoint := (10,0)
  evaluated := [(11,6),(11,8),(11,7),(11,9)]
  once := by decide
  unset := 0

-- The dispatch chooses these cores.
example : (CoreSelection.dispatch lateIndex.getMachineId (preStage lateConfig).preTopCand.elems).map
    (fun d => (d.1,d.2.coreMachine)) = some (0,[0,1]) := by decide +kernel

def again (p : Fin 3) : List (Act 3) := [.host p .swapTaskQueue,.host p .procSubquery,.host p .loopTop]

-- The vertex of machine 2 is expanded there; its NODE_SYNC to machine 1 is not delivered.
def lateExpand : List (Act 3) :=
  [.host 1 .searchSub,.host 1 .loopTop] ++ again 1 ++
    [.deliver 1 0,.host 0 (.poll .query),.host 0 .procQuery,.host 0 .loopTop,
      .deliver 0 2,.host 2 (.poll .task),.host 2 .procNodeTask,.host 2 .postRemoteResTaskSync,
      .deliver 2 0,.host 0 (.poll .nodeResult),.host 0 .procNodeRes] ++ again 0

def tokenHop (a p : Fin 3) : List (Act 3) := [.deliver a p,.host p (.poll .sync),.host p .procSubquery,.host p .loopTop]

def tokenRounds : List (Act 3) := (List.replicate 3 (tokenHop 0 1 ++ tokenHop 1 0)).flatten

-- Three rounds of the token, and the leader has ended.
def lateEnd : List (Act 3) := lateExpand ++ tokenRounds

-- Now machine 1 gets its neighbour and goes on.
def lateSearch : List (Act 3) :=
  lateEnd ++ [.deliver 2 1,.host 1 (.poll .nodeSync),.host 1 .procSubquery,.host 1 .loopTop] ++ again 1 ++ again 1

theorem forwardedOnceLate : ∃ t,
    Along (track lateIndex lateConfig) (Single lateIndex) (trackStart lateConfig)
      (lateSearch ++ again 1 ++ [.deliver 1 0,.host 0 (.poll .sync)]) ∧
    run (track lateIndex lateConfig) (trackStart lateConfig)
      (lateSearch ++ again 1 ++ [.deliver 1 0,.host 0 (.poll .sync)]) = some t ∧
    t.put 1 0 = [.id 5] ∧ t.handed 1 0 = [.id 5] ∧ (t.put 1 0 : Multiset Item) =
      waiting (t.net 1) 0 + queued (t.net 1) 0 + flying (t.net 1) 0 + ∑ k, (receivedFrom t 1 0 k : Multiset Item) +
        t.handed 1 0 := by
  have along : Along (track lateIndex lateConfig) (Single lateIndex) (trackStart lateConfig)
      (lateSearch ++ again 1 ++ [.deliver 1 0,.host 0 (.poll .sync)]) := by decide +kernel
  have last : (run (track lateIndex lateConfig) (trackStart lateConfig)
      (lateSearch ++ again 1 ++ [.deliver 1 0,.host 0 (.poll .sync)])).map (fun t => (t.put 1 0,t.handed 1 0)) =
      some ([.id 5],[.id 5]) := by decide +kernel
  obtain ⟨t,ok,value⟩ := Option.map_eq_some_iff.mp last
  obtain ⟨put,handed⟩ := Prod.mk.inj value
  exact ⟨t,along,ok,put,handed,forwardedOnce along ok 1 0 (by decide)⟩

-- The end QUERY of the leader doubles core_machine of machine 1, and the next SYNC goes out twice.
theorem forwardedTwice : ∃ t, run (track lateIndex lateConfig) (trackStart lateConfig)
      (lateSearch ++ [.deliver 0 1,.host 1 (.poll .query)] ++ again 1) = some t ∧
    (t.net 1).coreMachine = [0,1,0,1] ∧ (t.put 1 0 : Multiset Item) ≠
      waiting (t.net 1) 0 + queued (t.net 1) 0 + flying (t.net 1) 0 + ∑ k, (receivedFrom t 1 0 k : Multiset Item) +
        t.handed 1 0 := by
  have last : (run (track lateIndex lateConfig) (trackStart lateConfig)
      (lateSearch ++ [.deliver 0 1,.host 1 (.poll .query)] ++ again 1)).map
        (fun t => ((t.net 1).coreMachine,t.put 1 0,flying (t.net 1) 0)) =
      some ([0,1,0,1],[.id 5],[.id 5,.id 5]) := by decide +kernel
  obtain ⟨t,ok,value⟩ := Option.map_eq_some_iff.mp last
  simp only [Prod.mk.injEq] at value
  obtain ⟨core,put,out⟩ := value
  refine ⟨t,ok,core,fun balanced => ?_⟩
  have counts := congrArg (Multiset.count (Item.id 5)) balanced
  simp only [put,out,Multiset.count_add,Multiset.coe_count] at counts
  simp only [List.count_cons_self,List.count_nil] at counts
  omega

end Late

end CoTra.Forwarding
