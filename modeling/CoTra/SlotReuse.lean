import CoTra.CreditConservation

/-! When the slot of an un-received message is used again (clear_write_release,
get_write_send_buf with pop = false). A CLEAR keeps its id in the free list, at
the back; every later post on the link moves it one place to the front. It is
handed out again by the post number `free`, the length of the list it was taken
from, unless the peer has polled the CLEAR before. -/
namespace CoTra.SlotReuse
open Runs WriteBuffer CreditConservation

variable {n : Nat}

/- Fewer posts since an un-received CLEAR than there were free ids for it, the
next post included. -/
def Spaced : List Message → Prop
  | [] => True
  | c :: later => (c.control = .clear → later.length + 1 < c.free) ∧ Spaced later

def spacedDecidable : (msgs : List Message) → Decidable (Spaced msgs)
  | [] => .isTrue trivial
  | c :: later =>
    have := spacedDecidable later
    inferInstanceAs (Decidable ((c.control = .clear → later.length + 1 < c.free) ∧ Spaced later))
instance (msgs) : Decidable (Spaced msgs) := spacedDecidable msgs

-- The links an action posts a message on.
def Posts (s : Net n) (a : Act n) (l : Link n) : Prop :=
  match a with
  | .send k _ _ => l = k
  | .recv k => l = k.swap ∧ releaseBlock ≤ (s.releaseIdList l).length + 1 ∧
      ∃ msg ∈ (s.channel k).head?, msg.control ≠ .clear
  | .clear machineId => l.1 = machineId ∧ s.releaseIdList l ≠ []

def PostsSpaced (s : Net n) (a : Act n) : Prop := ∀ l, Posts s a l → Spaced (s.channel l)

/- Where the free list holds the id of an un-received CLEAR. -/
def Placed (ids : List Nat) : List Message → Prop
  | [] => True
  | c :: later => (c.control = .clear → later.length < c.free ∧
      ids[c.free - 1 - later.length]? = some c.bufId) ∧ Placed ids later

theorem placedGrow {ids more : List Nat} {msgs} (valid : Placed ids msgs) : Placed (ids ++ more) msgs := by
  induction msgs with
  | nil => trivial
  | cons c later ih =>
    refine ⟨?_,ih valid.2⟩
    intro clear
    obtain ⟨few,at'⟩ := valid.1 clear
    obtain ⟨inside,_⟩ := List.getElem?_eq_some_iff.mp at'
    exact ⟨few,by rw [List.getElem?_append_left inside,at']⟩

theorem placedPost {id tail extra msgs m} (valid : Placed (id :: tail) msgs) (spaced : Spaced msgs)
    (rotates : m.control = .clear → m.bufId = id ∧ m.free = tail.length + 1 ∧ extra = [id]) :
    Placed (tail ++ extra) (msgs ++ [m]) := by
  induction msgs with
  | nil =>
    refine ⟨?_,trivial⟩
    intro clear
    obtain ⟨same,free,rfl⟩ := rotates clear
    simp [same,free]
  | cons c later ih =>
    refine ⟨?_,ih valid.2 spaced.2⟩
    intro clear
    obtain ⟨_,at'⟩ := valid.1 clear
    have more := spaced.1 clear
    have index : c.free - 1 - later.length = (c.free - 1 - (later ++ [m]).length) + 1 := by
      simp only [List.length_append,List.length_singleton]
      omega
    rw [index,List.getElem?_cons_succ] at at'
    obtain ⟨inside,_⟩ := List.getElem?_eq_some_iff.mp at'
    exact ⟨by simpa using more,(List.getElem?_append_left inside).trans at'⟩

theorem placedBehind {id tail msgs m} (valid : Placed (id :: tail) msgs) (spaced : Spaced msgs)
    (member : m ∈ msgs) (clear : m.control = .clear) : m.bufId ∈ tail := by
  induction msgs with
  | nil => contradiction
  | cons c later ih =>
    rcases List.mem_cons.mp member with rfl | behind
    · obtain ⟨_,at'⟩ := valid.1 clear
      have more := spaced.1 clear
      have index : m.free - 1 - later.length = (m.free - 2 - later.length) + 1 := by omega
      rw [index,List.getElem?_cons_succ] at at'
      exact List.mem_of_getElem? at'
    · exact ih valid.2 spaced.2 behind

/- Un-received messages of a link lie in different slots, and each slot still
starts with what was posted in it. -/
structure Intact (s : Net n) : Prop where
  conserved : Conserved s
  placed : ∀ l, Placed (s.buffIdList l) (s.channel l)
  apart : ∀ l, ((s.channel l).map Message.bufId).Nodup
  kept : ∀ l, ∀ msg ∈ s.channel l, (s.buffer l msg.bufId).take msg.words.length = msg.words
  counted : ∀ l, ∀ msg ∈ s.channel l, Releasing msg.control → ∃ ids, msg.words = ids.length :: ids

theorem initIntact : Intact (comWriteInit n) :=
  ⟨initConserved,fun _ => trivial,fun _ => List.nodup_nil,
    fun _ _ member => absurd member List.not_mem_nil,fun _ _ member => absurd member List.not_mem_nil⟩

theorem releasedKept {words slot ids : List Nat} (kept : slot.take words.length = words)
    (counted : words = ids.length :: ids) : releasedIds slot = releasedIds words := by
  subst words
  cases slot with
  | nil => simp at kept
  | cons w rest =>
    simp only [List.length_cons,List.take_succ_cons,List.cons.injEq] at kept
    obtain ⟨rfl,same⟩ := kept
    simp [releasedIds,same]

theorem intactFaithful {s : Net n} (valid : Intact s) : Faithful .memory s := by
  intro l msg rest head releasing
  have member : msg ∈ s.channel l := by rw [head]; exact List.mem_cons_self
  obtain ⟨ids,words⟩ := valid.counted l msg member releasing
  exact releasedKept (valid.kept l msg member) words

/- The id at the front of the free list belongs to no un-received message: a
message that is not CLEAR holds its id alone, a CLEAR holds one further back. -/
theorem frontFresh {s : Net n} (valid : Intact s) {l id tail} (ids : s.buffIdList l = id :: tail)
    (spaced : Spaced (s.channel l)) : id ∉ (s.channel l).map Message.bufId := by
  intro used
  obtain ⟨msg,member,same⟩ := List.mem_map.mp used
  have one := valid.conserved.credit l id
  simp only [credits,ids,List.count_cons_self] at one
  by_cases clear : msg.control = .clear
  · have behind := placedBehind (ids ▸ valid.placed l) spaced member clear
    have := List.count_pos_iff.mpr (same ▸ behind)
    split at one <;> omega
  · have held : id ∈ heldIds (s.channel l) := by
      simp only [heldIds,List.mem_map,List.mem_filter,decide_eq_true_eq]
      exact ⟨msg,⟨member,clear⟩,same⟩
    have := List.count_pos_iff.mpr held
    split at one <;> omega

theorem postIntact {s : Net n} {l id tail extra rels msg} (valid : Intact s)
    (ids : s.buffIdList l = id :: tail) (spaced : Spaced (s.channel l)) (taken : msg.bufId = id)
    (rotates : msg.control = .clear → msg.free = tail.length + 1 ∧ extra = [id])
    (counted : Releasing msg.control → ∃ out, msg.words = out.length :: out)
    (conserved : Conserved (postWriteSend { s with
      buffIdList := Function.update s.buffIdList l (tail ++ extra), releaseIdList := rels } l msg)) :
    Intact (postWriteSend { s with
      buffIdList := Function.update s.buffIdList l (tail ++ extra), releaseIdList := rels } l msg) := by
  have fresh := frontFresh valid ids spaced
  refine ⟨conserved,?_,?_,?_,?_⟩ <;> intro k <;> by_cases here : k = l
  · subst k
    simpa [postWriteSend] using placedPost (ids ▸ valid.placed l) spaced (fun c => ⟨taken,rotates c⟩)
  · simpa [postWriteSend,here] using valid.placed k
  · subst k
    simpa [postWriteSend,List.nodup_append,taken] using
      ⟨valid.apart l,fun m member same => fresh (List.mem_map.mpr ⟨m,member,same⟩)⟩
  · simpa [postWriteSend,here] using valid.apart k
  · subst k
    intro m member
    simp only [postWriteSend,Function.update_self,List.mem_append,List.mem_singleton] at member ⊢
    rcases member with old | rfl
    · have other : m.bufId ≠ msg.bufId := by
        rw [taken]
        exact fun same => fresh (List.mem_map.mpr ⟨m,old,same⟩)
      rw [Function.update_of_ne other]
      exact valid.kept l m old
    · simp
  · simpa [postWriteSend,here] using valid.kept k
  · subst k
    intro m member
    simp only [postWriteSend,Function.update_self,List.mem_append,List.mem_singleton] at member
    rcases member with old | rfl
    · exact valid.counted l m old
    · exact counted
  · simpa [postWriteSend,here] using valid.counted k

theorem sendIntact {s t : Net n} {l control data} (apart : l.1 ≠ l.2) (normal : ¬Releasing control)
    (h : sendNormal s l control data = some t) (spaced : Spaced (s.channel l)) (valid : Intact s) :
    Intact t := by
  have conserved := sendConserved apart normal h valid.conserved
  obtain ⟨id,tail,ids,_,rfl⟩ := sendNormalSource h
  rw [← List.append_nil tail] at conserved ⊢
  exact postIntact valid ids spaced rfl (fun c => absurd (Or.inr c) normal)
    (fun r => absurd r normal) conserved

theorem postReleaseIntact {s t : Net n} {control pop l} (apart : l.1 ≠ l.2)
    (kind : (control = .release ∧ pop = true) ∨ (control = .clear ∧ pop = false))
    (h : postRelease control pop s l = some t) (spaced : Spaced (s.channel l)) (valid : Intact s) :
    Intact t := by
  have conserved := postReleaseConserved apart kind h valid.conserved
  obtain ⟨id,tail,ids,rfl⟩ := postReleaseSource h
  rcases kind with ⟨rfl,rfl⟩ | ⟨rfl,rfl⟩
  · rw [if_pos rfl,← List.append_nil tail] at conserved ⊢
    exact postIntact valid ids spaced rfl (fun c => nomatch c) (fun _ => ⟨_,rfl⟩) conserved
  · rw [if_neg Bool.false_ne_true] at conserved ⊢
    exact postIntact valid ids spaced rfl (fun _ => ⟨by simp [ids],rfl⟩) (fun _ => ⟨_,rfl⟩) conserved

/- Receiving only shortens a channel and lengthens a free list at its back. -/
theorem takeIntact {s : Net n} {l : Link n} {msg rest} (head : s.channel l = msg :: rest) (valid : Intact s) :
    Intact (if msg.control = .clear then takeHead .memory s l msg rest
      else pushRelease (takeHead .memory s l msg rest) l.swap msg.bufId) := by
  have conserved := takeConserved head (intactFaithful valid) valid.conserved
  have apart := channelApart valid.conserved.own head
  have ne := swapNe apart
  have shorter : ∀ k, (takeHead .memory s l msg rest).channel k <:+ s.channel k := by
    intro k
    by_cases here : k = l
    · subst k; simp [takeHead,head]
    · simp [takeHead,here]
  have placed : ∀ k, Placed ((takeHead .memory s l msg rest).buffIdList k)
      ((takeHead .memory s l msg rest).channel k) := by
    intro k
    by_cases here : k = l
    · subst k
      have old := valid.placed l
      rw [head] at old
      have same : (takeHead .memory s l msg rest).buffIdList l = s.buffIdList l := by
        simp only [takeHead]
        split <;> simp [Ne.symm ne]
      rw [same]
      simpa [takeHead] using old.2
    · have chan : (takeHead .memory s l msg rest).channel k = s.channel k := by simp [takeHead,here]
      rw [chan]
      by_cases back : k = l.swap
      · subst k
        simp only [takeHead]
        split
        · simpa using placedGrow (valid.placed l.swap)
        · exact valid.placed l.swap
      · have same : (takeHead .memory s l msg rest).buffIdList k = s.buffIdList k := by
          simp only [takeHead]
          split <;> simp [back]
        rw [same]
        exact valid.placed k
  split at conserved
  all_goals
    rename_i control
    simp only [control,if_true,if_false]
    exact ⟨conserved,placed,fun k => (valid.apart k).sublist ((shorter k).sublist.map _),
      fun k m member => valid.kept k m ((shorter k).mem member),
      fun k m member => valid.counted k m ((shorter k).mem member)⟩

theorem recvIntact {s t : Net n} {l} (h : pollRecv .memory s l = some t)
    (spaced : PostsSpaced s (.recv l)) (valid : Intact s) : Intact t := by
  obtain ⟨msg,rest,head,cases'⟩ := pollRecvSource h
  have apart := channelApart valid.conserved.own head
  have taken := takeIntact head valid
  rcases cases' with ⟨clear,rfl⟩ | ⟨other,released⟩
  · rwa [if_pos clear] at taken
  · rw [if_neg other] at taken
    rcases sendWriteReleaseSource released with ⟨rfl,_⟩ | ⟨full,posted⟩
    · exact taken
    · refine postReleaseIntact (fun e => apart e.symm) (.inl ⟨rfl,rfl⟩) posted ?_ taken
      have long : releaseBlock ≤ (s.releaseIdList l.swap).length + 1 := by
        simpa [pushRelease,takeHead] using full
      simpa [pushRelease,takeHead,swapNe apart] using
        spaced l.swap ⟨rfl,long,msg,by rw [head]; rfl,other⟩

/- Each pass of the loop empties the release list it posts from, so the links
still to be visited are as they were before the call. -/
theorem clearIntact {s t : Net n} {r : Fin n} (h : clearWriteRelease s r = some t)
    (spaced : PostsSpaced s (.clear r)) (valid : Intact s) : Intact t := by
  have start : Intact s ∧ PostsSpaced s (.clear r) := ⟨valid,spaced⟩
  refine (foldlMInvariant (fun u => Intact u ∧ PostsSpaced u (.clear r)) ?_ h start).1
  intro s m t body ⟨valid,spaced⟩
  rcases clearToSource body with ⟨_,rfl⟩ | posted
  · exact ⟨valid,spaced⟩
  by_cases empty : s.releaseIdList (r,m) = []
  · simp [clearWriteReleaseTo,empty] at body
    exact body ▸ ⟨valid,spaced⟩
  · have kept := postReleaseIntact (releaseApart valid.conserved.own empty) (.inr ⟨rfl,rfl⟩) posted
      (spaced (r,m) ⟨rfl,empty⟩) valid
    refine ⟨kept,?_⟩
    obtain ⟨id,tail,ids,rfl⟩ := postReleaseSource posted
    intro l posts
    by_cases here : l = (r,m)
    · subst l
      exact absurd (by simp [postWriteSend]) posts.2
    · have before : Posts s (.clear r) l := by simpa [Posts,postWriteSend,here] using posts
      simpa [postWriteSend,here] using spaced l before

theorem stepIntact {s t : Net n} {a} (spaced : PostsSpaced s a) (h : step .memory s a = some t)
    (valid : Intact s) : Intact t := by
  cases a with
  | send l control data =>
    simp only [step] at h
    split at h <;> try contradiction
    rename_i guard
    exact sendIntact guard.1 guard.2 h (spaced l rfl) valid
  | recv l => exact recvIntact h spaced valid
  | clear r => exact clearIntact h spaced valid

/- In every run whose posts are spaced, un-received messages never share an id and
the peer reads every one of them, CLEAR lists included, as it was written. -/
theorem unreadIntact {n : Nat} (acts : List (Act n)) {s : Net n}
    (along : Along (step .memory) PostsSpaced (comWriteInit n) acts)
    (ok : run (step .memory) (comWriteInit n) acts = some s) (l : Link n) :
    ((s.channel l).map Message.bufId).Nodup ∧
    (∀ msg ∈ s.channel l, (readWords .memory s l msg).take msg.words.length = msg.words) ∧
    (∀ msg ∈ s.channel l, Releasing msg.control →
      releasedIds (readWords .memory s l msg) = releasedIds msg.words) := by
  have valid := runInvariantAlong (fun _ _ _ => stepIntact) along ok initIntact
  refine ⟨valid.apart l,valid.kept l,?_⟩
  intro msg member releasing
  obtain ⟨ids,words⟩ := valid.counted l msg member releasing
  exact releasedKept (valid.kept l msg member) words

/- Machine 0 has posted 384 messages and is in reset_sendrecv; machine 1 has
polled one of them. Machine 1 then posts one message at a time, and 0 polls it
and clears: 0 has 128 free ids, and its CLEAR number 129 takes the id of the
first, which machine 1 has not polled. -/
def floodRound : List (Act 2) := [.send (1,0) .task [],.recv (1,0),.clear 0]

def resetFlood : List (Act 2) :=
  (List.replicate 384 [.send (0,1) .task []]).flatten ++
    ([.recv (0,1)] ++ ((List.replicate 128 floodRound).flatten ++ floodRound))

def Bounded (s : Net 2) (_ : Act 2) : Prop := ∀ l, (s.channel l).length ≤ maxWriteNum

structure Filled (k : Nat) (s : Net 2) : Prop where
  free : s.buffIdList (0,1) = List.range' k (512 - k)
  back : s.buffIdList (1,0) = List.range' 0 512
  chan : s.channel (0,1) = (List.range' 0 k).map (fun i => ⟨.task,i,[],512 - i⟩)
  others : ∀ l, l ≠ (0,1) → s.channel l = []
  waiting : ∀ l, s.releaseIdList l = []

theorem filledInit : Filled 0 (comWriteInit 2) := by
  have ids : ∀ l, (comWriteInit 2).buffIdList l = List.range' 0 512 := by
    intro l
    rw [comWriteInit,maxWriteNum,List.range_eq_range']
  exact ⟨ids _,ids _,rfl,fun _ _ => rfl,fun _ => rfl⟩

theorem filledBounded {k s} (few : k ≤ 512) (valid : Filled k s) (a : Act 2) : Bounded s a := by
  intro l
  by_cases here : l = (0,1)
  · subst l; simpa [valid.chan,maxWriteNum] using few
  · simp [valid.others l here]

theorem filledRound {k s} (few : k < 384) (valid : Filled k s) :
    Along (step .memory) Bounded s [.send (0,1) .task []] ∧
      ∃ t, run (step .memory) s [.send (0,1) .task []] = some t ∧ Filled (k + 1) t := by
  have ids : s.buffIdList (0,1) = k :: List.range' (k + 1) (511 - k) := by
    rw [valid.free,show 512 - k = (511 - k) + 1 by omega,List.range'_succ]
  have many : releaseBlock < (s.buffIdList (0,1)).length := by
    simp [valid.free,releaseBlock,maxWriteNum]
    omega
  refine ⟨⟨filledBounded (by omega) valid _,fun _ _ => trivial⟩,_,
    (runCons (sendReady _ (by decide) ids many _ (by decide) []) []).trans (runNil _ _),?_⟩
  refine ⟨?_,?_,?_,?_,?_⟩
  · simp [postWriteSend]
  · simpa [postWriteSend] using valid.back
  · simp [postWriteSend,valid.chan,valid.free,List.range'_1_concat]
  · intro l other
    simpa [postWriteSend,other] using valid.others l other
  · simpa [postWriteSend] using valid.waiting

/- After j rounds of the flood. -/
structure Flooded (j : Nat) (s : Net 2) : Prop where
  free : s.buffIdList (0,1) = List.range' (384 + j) (128 - j) ++ List.range' 384 j
  back : s.buffIdList (1,0) = List.range' j (512 - j)
  chan : s.channel (0,1) = (List.range' 1 383).map (fun i => ⟨.task,i,[],512 - i⟩) ++
    (List.range' 0 j).map (fun i => ⟨.clear,384 + i,[1,i],128⟩)
  others : ∀ l, l ≠ (0,1) → s.channel l = []
  waiting : ∀ l, l ≠ (1,0) → s.releaseIdList l = []

theorem floodedBounded {j s} (few : j ≤ 129) (valid : Flooded j s) (a : Act 2) : Bounded s a := by
  intro l
  by_cases here : l = (0,1)
  · subst l
    simp [valid.chan,maxWriteNum]
    omega
  · simp [valid.others l here]

theorem floodStart {s} (valid : Filled 384 s) :
    ∃ t, step .memory s (.recv (0,1)) = some t ∧ Flooded 0 t := by
  have head : s.channel (0,1) = ⟨.task,0,[],512⟩ :: (List.range' 1 383).map (fun i => ⟨.task,i,[],512 - i⟩) := by
    rw [valid.chan,List.range'_succ,List.map_cons]
  refine ⟨_,pollRecvKeeps _ head (by decide) (by simp [valid.waiting,releaseBlock,maxWriteNum]),?_⟩
  refine ⟨by simpa using valid.free,by simpa using valid.back,by simp,?_,?_⟩
  · intro l other
    simpa [other] using valid.others l other
  · intro l other
    simpa [other] using valid.waiting l

theorem clearZero {s t : Net 2} (own : s.releaseIdList (0,0) = [])
    (posted : clearWriteReleaseTo s (0,1) = some t) : clearWriteRelease s 0 = some t := by
  have skipped : clearWriteReleaseTo s (0,0) = some s := by simp [clearWriteReleaseTo,own]
  have two : List.finRange 2 = [0,1] := rfl
  simp [clearWriteRelease,two,skipped,posted]

/- One round: a message of machine 1 is posted and polled, and the CLEAR of machine
0 takes `id` from the front of its free list. -/
theorem floodSteps {s : Net 2} {j back id tail} (own : s.buffIdList (1,0) = j :: back)
    (many : releaseBlock < (s.buffIdList (1,0)).length) (ids : s.buffIdList (0,1) = id :: tail)
    (none' : ∀ l, l ≠ (0,1) → s.channel l = []) (idle : ∀ l, l ≠ (1,0) → s.releaseIdList l = []) :
    ∃ u v t, step .memory s (.send (1,0) .task []) = some u ∧
      step .memory u (.recv (1,0)) = some v ∧ step .memory v (.clear 0) = some t ∧
      u.channel = Function.update s.channel (1,0) [⟨.task,j,[],(s.buffIdList (1,0)).length⟩] ∧
      u.releaseIdList = s.releaseIdList ∧
      v.channel = Function.update s.channel (1,0) [] ∧
      t.buffIdList (0,1) = tail ++ [id] ∧ t.buffIdList (1,0) = back ∧
      t.channel (0,1) = s.channel (0,1) ++ [⟨.clear,id,[1,j],(s.buffIdList (0,1)).length⟩] ∧
      (∀ l, l ≠ (0,1) → t.channel l = []) ∧ (∀ l, l ≠ (1,0) → t.releaseIdList l = []) ∧
      t.buffer (0,1) id = [1,j] ++ (s.buffer (0,1) id).drop 2 := by
  have sent := sendReady .memory (by decide) own many .task (by decide) []
  generalize hu : postWriteSend { s with buffIdList := Function.update s.buffIdList (1,0) back } (1,0)
    ⟨.task,j,[],(s.buffIdList (1,0)).length⟩ = u at sent
  have uchan : u.channel = Function.update s.channel (1,0) [⟨.task,j,[],(s.buffIdList (1,0)).length⟩] := by
    simp [← hu,postWriteSend,none']
  have uwait : u.releaseIdList = s.releaseIdList := by simp [← hu,postWriteSend]
  have uids : u.buffIdList = Function.update s.buffIdList (1,0) back := by simp [← hu,postWriteSend]
  have ubuf : u.buffer (0,1) = s.buffer (0,1) := by simp [← hu,postWriteSend]
  have received := pollRecvKeeps .memory
    (show u.channel (1,0) = [_] by simpa using congrFun uchan (1,0)) (show ¬Releasing .task by decide)
    (by simp [uwait,idle,releaseBlock,maxWriteNum])
  generalize hv : ({ u with
    channel := Function.update u.channel (1,0) []
    releaseIdList := Function.update u.releaseIdList (1,0).swap (u.releaseIdList (1,0).swap ++ [j]) } : Net 2)
    = v at received
  have vchan : v.channel = Function.update s.channel (1,0) [] := by simp [← hv,uchan]
  have vwait : v.releaseIdList = Function.update s.releaseIdList (0,1) [j] := by
    simp [← hv,uwait,idle]
  have vids : v.buffIdList (0,1) = id :: tail := by simp [← hv,uids,ids]
  have vback : v.buffIdList (1,0) = back := by simp [← hv,uids]
  have vbuf : v.buffer (0,1) = s.buffer (0,1) := by simp [← hv,ubuf]
  have cleared := clearZero (s := v) (by simpa [vwait] using idle (0,0) (by decide))
    (clearToPosts vids (by simp [vwait]))
  refine ⟨u,v,_,sent,received,cleared,uchan,uwait,vchan,by simp [postWriteSend],
    by simpa [postWriteSend] using vback,by simp [postWriteSend,vchan,vwait,vids,ids],?_,?_,
    by simp [postWriteSend,vwait,vbuf]⟩
  · intro l other
    by_cases back' : l = (1,0)
    · subst l; simp [postWriteSend,vchan]
    · simpa [postWriteSend,other,vchan,back'] using none' l other
  · intro l other
    by_cases here : l = (0,1)
    · subst l; simp [postWriteSend]
    · simpa [postWriteSend,here,vwait] using idle l other

theorem floodRoundRun {j s id tail} (few : j ≤ 128) (valid : Flooded j s)
    (ids : s.buffIdList (0,1) = id :: tail) :
    Along (step .memory) Bounded s floodRound ∧
    ∃ t, run (step .memory) s floodRound = some t ∧
      t.buffIdList (0,1) = tail ++ [id] ∧ t.buffIdList (1,0) = List.range' (j + 1) (511 - j) ∧
      t.channel (0,1) = s.channel (0,1) ++ [⟨.clear,id,[1,j],128⟩] ∧
      (∀ l, l ≠ (0,1) → t.channel l = []) ∧ (∀ l, l ≠ (1,0) → t.releaseIdList l = []) ∧
      t.buffer (0,1) id = [1,j] ++ (s.buffer (0,1) id).drop 2 := by
  have own : s.buffIdList (1,0) = j :: List.range' (j + 1) (511 - j) := by
    rw [valid.back,show 512 - j = (511 - j) + 1 by omega,List.range'_succ]
  have many : releaseBlock < (s.buffIdList (1,0)).length := by
    simp [valid.back,releaseBlock,maxWriteNum]
    omega
  have total : (s.buffIdList (0,1)).length = 128 := by simp [valid.free]; omega
  have bound := floodedBounded (by omega) valid
  have shortBack : ∀ (w : Net 2) msgs, w.channel = Function.update s.channel (1,0) msgs → msgs.length ≤ 1 →
      ∀ a, Bounded w a := by
    intro w msgs chan short a l
    by_cases back : l = (1,0)
    · subst l; simp [chan,maxWriteNum]; omega
    · simpa [chan,back] using bound a l
  obtain ⟨u,v,t,sent,received,cleared,uchan,_,vchan,rest⟩ := floodSteps own many ids valid.others valid.waiting
  rw [total] at rest
  refine ⟨⟨bound _,?_⟩,t,(runCons sent _).trans ((runCons received _).trans ((runCons cleared []).trans (runNil _ _))),
    rest⟩
  intro u' hu
  cases Option.some.inj (sent.symm.trans hu)
  refine ⟨shortBack u _ uchan (by simp) _,?_⟩
  intro v' hv
  cases Option.some.inj (received.symm.trans hv)
  exact ⟨shortBack v _ vchan (by simp) _,fun _ _ => trivial⟩

theorem floodedRound {j s} (few : j < 128) (valid : Flooded j s) :
    Along (step .memory) Bounded s floodRound ∧
      ∃ t, run (step .memory) s floodRound = some t ∧ Flooded (j + 1) t := by
  have ids : s.buffIdList (0,1) = (384 + j) :: (List.range' (384 + (j + 1)) (127 - j) ++ List.range' 384 j) := by
    rw [valid.free,show 128 - j = (127 - j) + 1 by omega,List.range'_succ]
    rfl
  obtain ⟨along,t,ok,free,back,chan,others,waiting,_⟩ := floodRoundRun (by omega) valid ids
  refine ⟨along,t,ok,?_,by rw [back]; congr 1; omega,?_,others,waiting⟩
  · rw [free,show 128 - (j + 1) = 127 - j by omega,List.range'_1_concat,List.append_assoc]
  · rw [chan,valid.chan,List.range'_1_concat (s := 0) (n := j)]
    simp

theorem slotReusedBeforePoll : ∃ s,
    run (step .memory) (comWriteInit 2) resetFlood = some s ∧
    Along (step .memory) Bounded (comWriteInit 2) resetFlood ∧
    (∀ l, (s.channel l).length ≤ maxWriteNum) ∧
    ¬((s.channel (0,1)).map Message.bufId).Nodup ∧
    ∃ msg ∈ s.channel (0,1), msg.control = .clear ∧ releasedIds msg.words = [0] ∧
      releasedIds (readWords .memory s (0,1) msg) = [128] := by
  obtain ⟨along₁,s₁,ok₁,filled⟩ := repeatRun Bounded Filled (m := 384)
    (fun j s few valid => filledRound few valid) 384 0 (by omega) filledInit
  obtain ⟨s₂,ok₂,flooded⟩ := floodStart filled
  have along₂ : Along (step .memory) Bounded s₁ [.recv (0,1)] :=
    ⟨filledBounded (by omega) filled _,fun _ _ => trivial⟩
  have ran₂ : run (step .memory) s₁ [.recv (0,1)] = some s₂ := (runCons ok₂ []).trans (runNil _ _)
  obtain ⟨along₃,s₃,ok₃,full⟩ := repeatRun Bounded Flooded (m := 128)
    (fun j s few valid => floodedRound few valid) 128 0 (by omega) flooded
  have ids : s₃.buffIdList (0,1) = 384 :: List.range' 385 127 := by
    rw [full.free]
    simp [List.range'_succ]
  obtain ⟨along₄,s₄,ok₄,_,_,chan,others,_,slot⟩ := floodRoundRun (by omega) full ids
  have first : (⟨.clear,384,[1,0],128⟩ : Message) ∈ s₃.channel (0,1) := by
    rw [full.chan]
    refine List.mem_append_right _ (List.mem_map.mpr ⟨0,?_,rfl⟩)
    simp
  refine ⟨s₄,runJoin ok₁ (runJoin ran₂ (runJoin ok₃ ok₄)),
    alongJoin along₁ ok₁ (alongJoin along₂ ran₂ (alongJoin along₃ ok₃ along₄)),?_,?_,
    ⟨.clear,384,[1,0],128⟩,by rw [chan]; exact List.mem_append_left _ first,rfl,rfl,?_⟩
  · intro l
    by_cases here : l = (0,1)
    · subst l
      simp [chan,full.chan,maxWriteNum]
    · simp [others l here]
  · intro distinct
    rw [chan,List.map_append,List.nodup_append] at distinct
    exact distinct.2.2 384 (List.mem_map.mpr ⟨_,first,rfl⟩) 384 (by simp) rfl
  · simp [readWords,slot,releasedIds]

-- A CLEAR taken from a list of one id, with nothing posted since, is not spaced.
example : ¬Spaced [⟨.clear,5,[1,0],1⟩] := by decide

-- Machine 0 sends on while machine 1 has not polled its CLEAR of one id.
theorem unreadIntactAfterClear : ∃ s,
    run (step .memory) (comWriteInit 2) (floodRound ++ [.send (0,1) .task [8]]) = some s ∧
    (s.channel (0,1)).map Message.control = [.clear,.task] ∧
    ((s.channel (0,1)).map Message.bufId).Nodup := by
  have ids : ∀ l, (comWriteInit 2).buffIdList l = 0 :: List.range' 1 511 := by
    intro l
    rw [comWriteInit,maxWriteNum,List.range_eq_range',List.range'_succ]
  obtain ⟨u,v,t,sent,received,cleared,uchan,uwait,vchan,tids,_,tchan,_⟩ :=
    floodSteps (ids _) (by simp [ids,releaseBlock,maxWriteNum]) (ids _) (fun _ _ => rfl) (fun _ _ => rfl)
  have ids' : t.buffIdList (0,1) = 1 :: (List.range' 2 510 ++ [0]) := by rw [tids,List.range'_succ]; rfl
  have again := sendReady .memory (by decide) ids' (by simp [ids',releaseBlock,maxWriteNum])
    .task (by decide) [8]
  have ok := (runCons sent _).trans ((runCons received _).trans ((runCons cleared _).trans
    ((runCons again []).trans (runNil _ _))))
  have clearOnly : Spaced (t.channel (0,1)) := by
    rw [tchan,ids]
    simp [comWriteInit,Spaced]
  have along : Along (step .memory) PostsSpaced (comWriteInit 2) (floodRound ++ [.send (0,1) .task [8]]) := by
    refine ⟨fun _ _ => trivial,fun u' hu => ?_⟩
    cases Option.some.inj (sent.symm.trans hu)
    refine ⟨?_,fun v' hv => ?_⟩
    · rintro l ⟨rfl,long,_⟩
      simp [uwait,comWriteInit,releaseBlock,maxWriteNum] at long
    cases Option.some.inj (received.symm.trans hv)
    refine ⟨?_,fun t' ht => ?_⟩
    · intro l _
      rw [vchan]
      by_cases back : l = (1,0) <;> simp [back,comWriteInit,Spaced]
    cases Option.some.inj (cleared.symm.trans ht)
    refine ⟨?_,fun _ _ => trivial⟩
    rintro l rfl
    exact clearOnly
  exact ⟨_,ok,by simp [postWriteSend,tchan,comWriteInit],(unreadIntact _ along ok (0,1)).1⟩

end CoTra.SlotReuse
