import CoTra.SlotReuse
import CoTra.WriteRuns

/-! The reserve kept for RELEASE messages (get_write_send_buf with send_release).
A normal send leaves RELEASE_BLOCK free ids, so only a run of RELEASEs can go
below. Each of them carries RELEASE_BLOCK ids of the peer, which the peer lacks
until it receives them, and the peer has MAX_WRITE_NUM ids in all. The argument
is carried by the cuts of the reverse channel: a cut is the moment at which the
peer had posted just those messages. It stands on lists that are read as they were
posted; where a slot is used again too early, ids are lost and the reserve runs out. -/
namespace CoTra.ReleaseReserve
open Runs WriteBuffer CreditConservation SlotReuse WriteRuns

def kinds (msgs : List Message) : List ControlType := (msgs.map Message.control).filter (· ≠ .clear)

/- What the owner of a free list knows about the peer at a cut: y messages were
posted that the peer had not received then, z of them RELEASE with w ids. -/
def Cut (free waiting run : Nat) (cut : List Message) : Prop :=
  ∃ y z w, maxWriteNum < free + (payloadIds cut).length + y + releaseBlock ∧ releaseBlock * z ≤ w ∧
    waiting + (heldIds cut).length + w ≤ maxWriteNum ∧ (y ≤ z ∨ run ≤ z)

/- `run` RELEASEs have been posted in a row, CLEARs apart. -/
def Reserve (free waiting : Nat) (out back : List Message) : Prop :=
  ∃ run, releaseBlock ≤ free + run ∧ (∀ kind ∈ (kinds out).reverse.take run, kind = .release) ∧
    ∀ cut, cut <+: back → Cut free waiting run cut

theorem kindsAppend (xs ys : List Message) : kinds (xs ++ ys) = kinds xs ++ kinds ys := by
  simp [kinds]

theorem kindsLength (msgs : List Message) : (kinds msgs).length = (heldIds msgs).length := by
  simp [kinds,heldIds,List.filter_map,Function.comp_def]

theorem reserveInit : Reserve maxWriteNum 0 [] [] := by
  refine ⟨0,by decide,by simp,?_⟩
  intro cut empty
  rw [List.prefix_nil.mp empty]
  exact ⟨0,0,0,by decide,by decide,by decide,.inl le_rfl⟩

theorem reserveNormal {free waiting out back m} (valid : Reserve (free + 1) waiting out back)
    (many : releaseBlock ≤ free) : Reserve free waiting (out ++ [m]) back := by
  obtain ⟨run,_,_,cuts⟩ := valid
  refine ⟨0,by omega,by simp,?_⟩
  intro cut known
  obtain ⟨y,z,w,a,b,c,_⟩ := cuts cut known
  exact ⟨y + 1,z,w,by omega,b,c,.inr (by omega)⟩

theorem reserveRelease {free waiting out back m} (valid : Reserve (free + 1) waiting out back)
    (full : releaseBlock ≤ waiting) (release : m.control = .release) :
    Reserve free 0 (out ++ [m]) back := by
  obtain ⟨run,many,last,cuts⟩ := valid
  refine ⟨run + 1,by omega,?_,?_⟩
  · have kind : kinds [m] = [.release] := by simp [kinds,release]
    simpa [kindsAppend,kind] using last
  · intro cut known
    obtain ⟨y,z,w,a,b,c,d⟩ := cuts cut known
    exact ⟨y + 1,z + 1,w + waiting,by omega,by rw [Nat.mul_succ]; omega,by omega,by omega⟩

theorem reserveClear {free waiting out back m} (valid : Reserve free waiting out back)
    (clear : m.control = .clear) : Reserve free 0 (out ++ [m]) back := by
  obtain ⟨run,many,last,cuts⟩ := valid
  refine ⟨run,many,?_,?_⟩
  · have kind : kinds [m] = [] := by simp [kinds,clear]
    simpa [kindsAppend,kind] using last
  · intro cut known
    obtain ⟨y,z,w,a,b,c,d⟩ := cuts cut known
    exact ⟨y,z,w + waiting,a,by omega,by omega,d⟩

/- The owner receives: the first cut is over, its ids are free or wait to be released. -/
theorem reserveTake {free waiting out back m} (valid : Reserve free waiting out (m :: back)) :
    Reserve (free + (payload m).length) (waiting + (heldIds [m]).length) out back := by
  obtain ⟨run,many,last,cuts⟩ := valid
  refine ⟨run,by omega,last,?_⟩
  intro cut known
  obtain ⟨y,z,w,a,b,c,d⟩ := cuts (m :: cut) (List.cons_prefix_cons.mpr ⟨rfl,known⟩)
  have held : (heldIds (m :: cut)).length = (heldIds [m]).length + (heldIds cut).length := by
    rw [← List.singleton_append,heldAppend,List.length_append]
  rw [payloadCons,List.length_append] at a
  exact ⟨y,z,w,by omega,b,by omega,d⟩

theorem reservePeerTake {free waiting out back m} (valid : Reserve free waiting (m :: out) back) :
    Reserve free waiting out back := by
  obtain ⟨run,many,last,cuts⟩ := valid
  refine ⟨run,many,?_,cuts⟩
  intro kind member
  refine last kind ?_
  rw [← List.singleton_append,kindsAppend,List.reverse_append,List.take_append]
  exact List.mem_append_left _ member

/- Every un-received RELEASE holds a full block. -/
def Blocks (msgs : List Message) : Prop :=
  ∀ msg ∈ msgs, msg.control = .release → releaseBlock ≤ (payload msg).length

theorem blocksHeld {msgs : List Message} (blocks : Blocks msgs) :
    releaseBlock * (kinds msgs).count .release ≤ (payloadIds msgs).length := by
  induction msgs with
  | nil => simp [kinds]
  | cons m rest ih =>
    have tail := ih (fun x member => blocks x (List.mem_cons_of_mem _ member))
    rw [← List.singleton_append,kindsAppend,payloadAppend,List.count_append,List.length_append,Nat.mul_add]
    have head : releaseBlock * (kinds [m]).count .release ≤ (payloadIds [m]).length := by
      by_cases release : m.control = .release
      · simpa [kinds,release] using blocks m List.mem_cons_self release
      · have none' : (kinds [m]).count .release = 0 := by
          rw [List.count_eq_zero]
          simp [kinds,Ne.symm release]
        simp [none']
    omega

theorem lastReleases {run : Nat} {out : List Message}
    (last : ∀ kind ∈ (kinds out).reverse.take run, kind = .release) :
    (kinds out).length ≤ (kinds out).count .release ∨ run ≤ (kinds out).count .release := by
  have all := List.count_eq_length.mpr (fun kind member => (last kind member).symm)
  have part := (List.take_sublist run (kinds out).reverse).count_le .release
  rw [all,List.count_reverse,List.length_take,List.length_reverse] at part
  omega

/- The peer posts: a new cut, at which it has all of `out` still to receive. -/
theorem reservePeerPost {free waiting peerFree peerWaiting out back m} (valid : Reserve free waiting out back)
    (blocks : Blocks out) (short : peerWaiting < releaseBlock)
    (credit : free + (heldIds out).length + peerWaiting + (payloadIds (back ++ [m])).length = maxWriteNum)
    (peerCredit : peerFree + (heldIds (back ++ [m])).length + waiting + (payloadIds out).length = maxWriteNum) :
    Reserve free waiting out (back ++ [m]) := by
  obtain ⟨run,many,last,cuts⟩ := valid
  refine ⟨run,many,last,?_⟩
  intro cut known
  rcases List.prefix_concat_iff.mp known with rfl | old
  · have ended := lastReleases last
    rw [kindsLength] at ended
    exact ⟨(heldIds out).length,(kinds out).count .release,(payloadIds out).length,by omega,blocksHeld blocks,
      by omega,ended⟩
  · exact cuts cut old

theorem reserveFloor {free waiting out back} (valid : Reserve free waiting out back) : 124 ≤ free := by
  obtain ⟨run,many,_,cuts⟩ := valid
  obtain ⟨y,z,w,a,b,c,d⟩ := cuts [] (List.nil_prefix)
  simp only [releaseBlock,maxWriteNum,payloadNil,heldNil,List.length_nil,Nat.shiftRight_eq_div_pow] at many a b c
  omega

variable {n : Nat}

/- All four places of a link together hold MAX_WRITE_NUM ids. -/
theorem creditTotal {s : Net n} (valid : Conserved s) (l : Link n) :
    (s.buffIdList l).length + (heldIds (s.channel l)).length + (s.releaseIdList l.swap).length +
      (payloadIds (s.channel l.swap)).length = maxWriteNum := by
  have same : (s.buffIdList l ++ heldIds (s.channel l) ++ s.releaseIdList l.swap ++
      payloadIds (s.channel l.swap)).Perm (List.range maxWriteNum) := by
    refine List.perm_iff_count.mpr (fun id => ?_)
    simpa [credits,List.count_append,List.count_range,Nat.add_assoc] using valid.credit l id
  simpa [Nat.add_assoc] using same.length_eq

def LinkReserve (s : Net n) (l : Link n) : Prop :=
  Reserve (s.buffIdList l).length (s.releaseIdList l).length (s.channel l) (s.channel l.swap)

structure Reserved (s : Net n) : Prop where
  conserved : Conserved s
  waiting : ∀ l, (s.releaseIdList l).length < releaseBlock
  blocks : ∀ l, Blocks (s.channel l)
  reserve : ∀ l, l.1 ≠ l.2 → LinkReserve s l

theorem initReserved : Reserved (comWriteInit n) := by
  refine ⟨initConserved,?_,?_,?_⟩
  · intro l; exact (by decide : 0 < releaseBlock)
  · intro l msg member; exact absurd member List.not_mem_nil
  · intro l _
    simpa [LinkReserve,comWriteInit] using reserveInit

/- The link in the other direction sees the post as a new cut. -/
theorem peerPost {s t : Net n} {l m} (conserved : Conserved t) (waiting : (t.releaseIdList l).length < releaseBlock)
    (blocks : Blocks (t.channel l.swap)) (old : LinkReserve s l.swap)
    (free : t.buffIdList l.swap = s.buffIdList l.swap) (rel : t.releaseIdList l.swap = s.releaseIdList l.swap)
    (out : t.channel l.swap = s.channel l.swap) (posted : t.channel l = s.channel l ++ [m]) :
    LinkReserve t l.swap := by
  have credit := creditTotal conserved l.swap
  have peerCredit := creditTotal conserved l
  unfold LinkReserve at old ⊢
  rw [Prod.swap_swap] at old credit ⊢
  rw [free,out,posted] at credit
  rw [rel,out,posted] at peerCredit
  rw [free,rel,out,posted]
  exact reservePeerPost old (out ▸ blocks) waiting credit peerCredit

/- Reserved but for the length of one release list, as between the receipt of a
message and the RELEASE it triggers. -/
structure Nearly (s : Net n) (l : Link n) : Prop where
  conserved : Conserved s
  waiting : ∀ k, k ≠ l → (s.releaseIdList k).length < releaseBlock
  blocks : ∀ k, Blocks (s.channel k)
  reserve : ∀ k, k.1 ≠ k.2 → LinkReserve s k

theorem reservedNearly {s : Net n} (valid : Reserved s) (l : Link n) : Nearly s l :=
  ⟨valid.conserved,fun k _ => valid.waiting k,valid.blocks,valid.reserve⟩

theorem nearlyReserved {s : Net n} {l : Link n} (valid : Nearly s l)
    (short : (s.releaseIdList l).length < releaseBlock) : Reserved s := by
  refine ⟨valid.conserved,?_,valid.blocks,valid.reserve⟩
  intro k
  by_cases here : k = l
  · exact here ▸ short
  · exact valid.waiting k here

theorem postReserved {s : Net n} {l : Link n} (ids rels : List Nat) {m} (apart : l.1 ≠ l.2) (valid : Nearly s l)
    (short : rels.length < releaseBlock) (block : m.control = .release → releaseBlock ≤ (payload m).length)
    (own : Reserve ids.length rels.length (s.channel l ++ [m]) (s.channel l.swap))
    (conserved : Conserved (postWriteSend { s with
      buffIdList := Function.update s.buffIdList l ids
      releaseIdList := Function.update s.releaseIdList l rels } l m)) :
    Reserved (postWriteSend { s with
      buffIdList := Function.update s.buffIdList l ids
      releaseIdList := Function.update s.releaseIdList l rels } l m) := by
  have ne := swapNe apart
  refine ⟨conserved,?_,?_,?_⟩ <;> intro k
  · by_cases here : k = l
    · subst k; simpa [postWriteSend] using short
    · simpa [postWriteSend,here] using valid.waiting k here
  · by_cases here : k = l
    · subst k
      intro msg member
      simp only [postWriteSend,Function.update_self,List.mem_append,List.mem_singleton] at member
      rcases member with old | rfl
      · exact valid.blocks l msg old
      · exact block
    · simpa [postWriteSend,here] using valid.blocks k
  · intro kApart
    by_cases here : k = l
    · subst k
      simpa [LinkReserve,postWriteSend,ne] using own
    by_cases back : k = l.swap
    · subst k
      refine peerPost (s := s) (m := m) conserved ?_ ?_ (valid.reserve l.swap kApart) ?_ ?_ ?_ ?_
      · simpa [postWriteSend] using short
      · simpa [postWriteSend,ne] using valid.blocks l.swap
      all_goals simp [postWriteSend,ne]
    · obtain ⟨c,_⟩ := untouched here back
      simpa [LinkReserve,postWriteSend,here,c] using valid.reserve k kApart

theorem sendReserved {s t : Net n} {l control data} (apart : l.1 ≠ l.2) (normal : ¬Releasing control)
    (h : sendNormal s l control data = some t) (valid : Reserved s) : Reserved t := by
  have conserved := sendConserved apart normal h valid.conserved
  obtain ⟨id,tail,ids,many,rfl⟩ := sendNormalSource h
  have old := valid.reserve l apart
  rw [LinkReserve,ids,List.length_cons] at old
  rw [ids,List.length_cons] at many
  have result := postReserved tail (s.releaseIdList l)
    (m := ⟨control,id,data,(s.buffIdList l).length⟩) apart (reservedNearly valid l) (valid.waiting l)
    (fun release => absurd (Or.inl release) normal) (reserveNormal old (by omega))
  rw [Function.update_eq_self] at result
  exact result conserved

theorem releaseReserved {s t : Net n} {l} (apart : l.1 ≠ l.2)
    (h : postRelease .release true s l = some t) (full : releaseBlock ≤ (s.releaseIdList l).length)
    (valid : Nearly s l) : Reserved t := by
  have conserved := postReleaseConserved apart (.inl ⟨rfl,rfl⟩) h valid.conserved
  obtain ⟨id,tail,ids,rfl⟩ := postReleaseSource h
  have old := valid.reserve l apart
  rw [LinkReserve,ids,List.length_cons] at old
  rw [if_pos rfl] at conserved ⊢
  exact postReserved _ _ apart valid (by decide) (fun _ => by simpa [payload] using full)
    (reserveRelease old full rfl) conserved

theorem clearReserved {s t : Net n} {l} (apart : l.1 ≠ l.2)
    (h : postRelease .clear false s l = some t) (valid : Reserved s) : Reserved t := by
  have conserved := postReleaseConserved apart (.inr ⟨rfl,rfl⟩) h valid.conserved
  obtain ⟨id,tail,ids,rfl⟩ := postReleaseSource h
  have old := valid.reserve l apart
  rw [LinkReserve,ids] at old
  rw [if_neg Bool.false_ne_true] at conserved ⊢
  refine postReserved _ _ apart (reservedNearly valid l) (by decide) (fun release => nomatch release) ?_ conserved
  simpa using reserveClear (m := ⟨.clear,id,_,_⟩) old rfl

def taken (reading : Reading) (s : Net n) (l : Link n) (msg : Message) (rest : List Message) : Net n :=
  if msg.control = .clear then takeHead reading s l msg rest
  else pushRelease (takeHead reading s l msg rest) l.swap msg.bufId

theorem takenParts {reading} {s : Net n} {l : Link n} {msg rest} (head : s.channel l = msg :: rest)
    (faithful : Faithful reading s) :
    (taken reading s l msg rest).channel = Function.update s.channel l rest ∧
    (taken reading s l msg rest).buffIdList =
      Function.update s.buffIdList l.swap (s.buffIdList l.swap ++ payload msg) ∧
    (taken reading s l msg rest).releaseIdList =
      Function.update s.releaseIdList l.swap (s.releaseIdList l.swap ++ heldIds [msg]) := by
  have read := faithful l msg rest head
  by_cases clear : msg.control = .clear
  · simp [taken,takeHead,clear,payload,heldCons,read (.inr clear)]
  · by_cases releasing : Releasing msg.control
    · simp [taken,takeHead,pushRelease,clear,releasing,payload,heldCons,read releasing]
    · simp [taken,takeHead,pushRelease,clear,releasing,payload,heldCons]

/- Receiving takes the first cut from the receiver's free list and the head from
what the sender has out. -/
theorem takeNearly {reading} {s : Net n} {l : Link n} {msg rest} (head : s.channel l = msg :: rest)
    (faithful : Faithful reading s) (valid : Reserved s) : Nearly (taken reading s l msg rest) l.swap := by
  have apart := channelApart valid.conserved.own head
  have ne := swapNe apart
  obtain ⟨chan,ids,rels⟩ := takenParts head faithful
  refine ⟨takeConserved head faithful valid.conserved,?_,?_,?_⟩ <;> intro k
  · intro other
    simpa [rels,other] using valid.waiting k
  · by_cases here : k = l
    · subst k
      intro m member
      refine valid.blocks l m ?_
      rw [head]
      exact List.mem_cons_of_mem _ (by simpa [chan] using member)
    · simpa [chan,here] using valid.blocks k
  · intro kApart
    have old := valid.reserve k kApart
    by_cases here : k = l
    · subst k
      rw [LinkReserve,head] at old
      simpa [LinkReserve,chan,ids,rels,ne,Ne.symm ne] using reservePeerTake old
    by_cases back : k = l.swap
    · subst k
      rw [LinkReserve,Prod.swap_swap,head] at old
      simpa [LinkReserve,chan,ids,rels,ne] using reserveTake old
    · obtain ⟨c,_⟩ := untouched here back
      simpa [LinkReserve,chan,ids,rels,here,back,c] using old

theorem recvReserved {reading} {s t : Net n} {l} (h : pollRecv reading s l = some t)
    (faithful : Faithful reading s) (valid : Reserved s) : Reserved t := by
  obtain ⟨msg,rest,head,cases'⟩ := pollRecvSource h
  have apart := channelApart valid.conserved.own head
  have near := takeNearly head faithful valid
  rcases cases' with ⟨clear,rfl⟩ | ⟨other,released⟩
  · have short := valid.waiting l.swap
    rw [taken,if_pos clear] at near
    exact nearlyReserved near short
  · rw [taken,if_neg other] at near
    rcases sendWriteReleaseSource released with ⟨rfl,short⟩ | ⟨full,posted⟩
    · exact nearlyReserved near short
    · exact releaseReserved (fun e => apart e.symm) posted full near

theorem stepReserved {reading} {s t : Net n} {a} (h : step reading s a = some t)
    (faithful : Faithful reading s) (valid : Reserved s) : Reserved t := by
  cases a with
  | send l control data =>
    simp only [step] at h
    split at h <;> try contradiction
    rename_i guard
    exact sendReserved guard.1 guard.2 h valid
  | recv l => exact recvReserved h faithful valid
  | clear r =>
    refine foldlMInvariant Reserved ?_ h valid
    intro s m t body valid
    by_cases empty : s.releaseIdList (r,m) = []
    · simp [clearWriteReleaseTo,empty] at body
      exact body ▸ valid
    · rcases clearToSource body with ⟨_,rfl⟩ | posted
      · exact valid
      · exact clearReserved (releaseApart valid.conserved.own empty) posted valid

theorem runReserved {s : Net n} {acts} (along : Along (step .memory) PostsSpaced (comWriteInit n) acts)
    (ok : run (step .memory) (comWriteInit n) acts = some s) : Reserved s := by
  have keep : ∀ (s : Net n) a t, PostsSpaced s a → step .memory s a = some t →
      Intact s ∧ Reserved s → Intact t ∧ Reserved t := by
    intro s a t spaced ok ⟨intact,valid⟩
    exact ⟨stepIntact spaced ok intact,stepReserved ok (intactFaithful intact) valid⟩
  exact (runInvariantAlong keep along ok ⟨initIntact,initReserved⟩).2

/- In every run whose posts are spaced, whatever message is polled next: the free
list send_write_release takes from is not empty and the poll goes through. -/
theorem releaseNeverStarves {n : Nat} (acts : List (Act n)) {s : Net n}
    (along : Along (step .memory) PostsSpaced (comWriteInit n) acts)
    (ok : run (step .memory) (comWriteInit n) acts = some s) (l : Link n) {msg rest}
    (head : s.channel l = msg :: rest) :
    124 ≤ ((takeHead .memory s l msg rest).buffIdList l.swap).length ∧
    (getWriteSendBuf true true ((takeHead .memory s l msg rest).buffIdList l.swap)).isSome ∧
    (pollRecv .memory s l).isSome := by
  have valid := runReserved along ok
  have apart : l.swap.1 ≠ l.swap.2 := fun e => channelApart valid.conserved.own head e.symm
  have floor : 124 ≤ ((takeHead .memory s l msg rest).buffIdList l.swap).length := by
    have before := reserveFloor (valid.reserve l.swap apart)
    simp only [takeHead]
    split
    · simp only [Function.update_self,List.length_append]
      omega
    · exact before
  obtain ⟨id,tail,ids⟩ := List.exists_cons_of_length_pos (Nat.lt_of_lt_of_le (by decide : 0 < 124) floor)
  refine ⟨floor,by simp [getWriteSendBuf,ids],?_⟩
  unfold pollRecv
  rw [head]
  dsimp only
  split
  · rfl
  · unfold sendWriteRelease
    dsimp only
    split
    · have same : (pushRelease (takeHead .memory s l msg rest) l.swap msg.bufId).buffIdList l.swap = id :: tail := ids
      simp [postRelease,getWriteSendBuf,same]
    · rfl

/- Without clear_write_release nothing has to be spaced. -/
def Uncleared (s : Net n) : Prop := ∀ l, ∀ msg ∈ s.channel l, msg.control ≠ .clear

theorem spacedUncleared {msgs : List Message} (none' : ∀ msg ∈ msgs, msg.control ≠ .clear) : Spaced msgs := by
  induction msgs with
  | nil => trivial
  | cons c later ih =>
    exact ⟨fun clear => absurd clear (none' c List.mem_cons_self),
      ih (fun msg member => none' msg (List.mem_cons_of_mem _ member))⟩

theorem postUncleared {s : Net n} {l : Link n} {msg : Message} (ids rels : Link n → List Nat)
    (old : Uncleared s) (other : msg.control ≠ .clear) :
    Uncleared (postWriteSend { s with buffIdList := ids, releaseIdList := rels } l msg) := by
  intro k m member
  by_cases here : k = l
  · subst k
    simp only [postWriteSend,Function.update_self,List.mem_append,List.mem_singleton] at member
    rcases member with before | rfl
    · exact old l m before
    · exact other
  · exact old k m (by simpa [postWriteSend,here] using member)

theorem stepUncleared {s t : Net n} {a} (other : ∀ r, a ≠ .clear r) (h : step .memory s a = some t)
    (old : Uncleared s) : Uncleared t := by
  cases a with
  | send l control data =>
    simp only [step] at h
    split at h <;> try contradiction
    rename_i guard
    obtain ⟨id,tail,_,_,rfl⟩ := sendNormalSource h
    exact postUncleared _ _ old (fun clear => guard.2 (.inr clear))
  | recv l =>
    obtain ⟨msg,rest,head,cases'⟩ := pollRecvSource h
    have taken : Uncleared (takeHead .memory s l msg rest) := by
      intro k m member
      by_cases here : k = l
      · subst k
        refine old l m ?_
        rw [head]
        exact List.mem_cons_of_mem _ (by simpa [takeHead] using member)
      · exact old k m (by simpa [takeHead,here] using member)
    rcases cases' with ⟨_,rfl⟩ | ⟨_,released⟩
    · exact taken
    · rcases sendWriteReleaseSource released with ⟨rfl,_⟩ | ⟨_,posted⟩
      · exact taken
      · obtain ⟨id,tail,_,rfl⟩ := postReleaseSource posted
        exact postUncleared (s := pushRelease _ _ _) _ _ taken (fun clear => ControlType.noConfusion clear)
  | clear r => exact absurd rfl (other r)

theorem unclearedSpaced {acts : List (Act n)} (none' : ∀ r, Act.clear r ∉ acts) {s : Net n} (old : Uncleared s) :
    Along (step .memory) PostsSpaced s acts := by
  induction acts generalizing s with
  | nil => trivial
  | cons a rest ih =>
    refine ⟨fun l _ => spacedUncleared (old l),fun t ok => ?_⟩
    refine ih (fun r member => none' r (List.mem_cons_of_mem _ member)) (stepUncleared ?_ ok old)
    rintro r rfl
    exact none' r List.mem_cons_self

-- Machine 0 has posted one TASK and machine 1 polls it.
theorem releaseNeverStarvesOneTask : ∃ s msg,
    run (step .memory) (comWriteInit 2) [.send (0,1) .task [7]] = some s ∧ s.channel (0,1) = [msg] ∧
    (pollRecv .memory s (0,1)).isSome := by
  have ids : (comWriteInit 2).buffIdList (0,1) = 0 :: List.range' 1 511 := by
    rw [comWriteInit,maxWriteNum,List.range_eq_range',List.range'_succ]
  have sent := sendReady .memory (by decide) ids (by simp [ids,releaseBlock,maxWriteNum])
    .task (by decide) [7]
  have ok := (runCons sent []).trans (runNil _ _)
  have head : (postWriteSend { comWriteInit 2 with
      buffIdList := Function.update (comWriteInit 2).buffIdList (0,1) (List.range' 1 511) } (0,1)
      ⟨.task,0,[7],((comWriteInit 2).buffIdList (0,1)).length⟩).channel (0,1) =
      [⟨.task,0,[7],((comWriteInit 2).buffIdList (0,1)).length⟩] := by
    simp only [postWriteSend,Function.update_self]
    rfl
  have clear : ∀ r, Act.clear r ∉ [Act.send ((0 : Fin 2),(1 : Fin 2)) .task [7]] := by simp
  have spaced := unclearedSpaced clear
    (s := comWriteInit 2) (fun _ _ member => absurd member List.not_mem_nil)
  exact ⟨_,_,ok,head,(releaseNeverStarves _ spaced ok (0,1) head).2.2⟩

/- Machine 0 has posted 384 TASKs, machine 1 has polled one of them, and 0 is in
reset_sendrecv with 128 free ids. Each TASK of machine 1 is polled and cleared at
once: CLEAR number 129 takes the slot of the first, which machine 1 has not
polled, with the ids 128, 129 and 130. Machine 1 finds them in both and has them
twice from then on. -/
def tasks (l : Link 2) (count : Nat) : List (Act 2) := List.replicate count (.send l .task [])

def polls (l : Link 2) (count : Nat) : List (Act 2) := List.replicate count (.recv l)

def echo (count : Nat) : List (Act 2) := tasks (1,0) count ++ (polls (1,0) count ++ [.clear 0])

def flooding : List (Act 2) :=
  tasks (0,1) 384 ++ (polls (0,1) 1 ++ ((List.replicate 128 (echo 1)).flatten ++ echo 3))

def catchingUp : List (Act 2) :=
  polls (0,1) 383 ++ (polls (0,1) 129 ++ (polls (1,0) 3 ++ ([.clear 0] ++ polls (0,1) 1)))

/- In the next batch three RELEASEs of machine 1 go out in the slots 128, 129 and
130, and SYNCs of query 0, whose first word is the query's id, take the same
slots before machine 0 polls them: it finds no id in the three RELEASEs, has lost
384 of its 512 ids, and keeps the 128 that a normal send leaves. -/
def round : List (Act 2) := polls (1,0) 128 ++ polls (0,1) 1

def posting : List (Act 2) := tasks (1,0) 378 ++ (tasks (0,1) 384 ++ polls (0,1) 384)

def losing : List (Act 2) :=
  round ++ (List.replicate 131 (.send (1,0) .sync [0]) ++ (round ++ (round ++ round)))

/- Each 128 messages that machine 0 polls take one id for a RELEASE. Their own ids
come back after 128 of them, which is one too late. -/
def draining : List (Act 2) :=
  (List.replicate 123 (tasks (1,0) 128 ++ round)).flatten ++
    ((tasks (1,0) 128 ++ polls (1,0) 128) ++ (tasks (1,0) 128 ++ polls (1,0) 127))

def starvingRun : List (Act 2) := flooding ++ (catchingUp ++ (posting ++ (losing ++ draining)))

theorem taskNormal : ¬Releasing .task := by decide

theorem syncNormal : ¬Releasing .sync := by decide

theorem releasesOther {msgs : List Message} (kinds : ∀ msg ∈ msgs, msg.control = .release) :
    ∀ msg ∈ msgs, msg.control ≠ .clear := by
  intro msg member clear
  rw [kinds msg member] at clear
  exact ControlType.noConfusion clear

theorem echoShows {s : Net 2} {own back} (shows' : Shows s (0,1) own back) {id left sent more}
    (free : own.free = id :: left) (none' : own.waiting = []) (empty : back.chan = [])
    (ids : back.free = sent ++ more) (many : releaseBlock ≤ more.length) (some' : sent ≠ [])
    (few : sent.length < releaseBlock) :
    ∃ t, run (step .memory) s (echo sent.length) = some t ∧
      Shows t (0,1) (({ own with waiting := sent } : Half).released .clear id (left ++ [id]))
        { back with free := more } := by
  obtain ⟨t,ok₁,next₁⟩ := sendsShow taskNormal [] more many sent (showsSwap shows') ids
  have chan : (back.sent .task [] sent more).chan = posts .task [] sent more.length ++ [] := by
    simp [Half.sent,empty]
  obtain ⟨u,ok₂,next₂⟩ := recvsShow _ _ next₁ chan (by simpa [postsHeld taskNormal,none'] using few)
  rw [postsLength] at ok₂
  have own' : own.received (back.sent .task [] sent more).slot (posts .task [] sent more.length) =
      { own with waiting := sent } := by
    simp [Half.received,postsReturned taskNormal,postsHeld taskNormal,none']
  have back' : ({ back.sent .task [] sent more with chan := [] } : Half) = { back with free := more } := by
    simp [Half.sent,empty]
  rw [own',back'] at next₂
  have still : ({ own with waiting := sent } : Half).free = id :: left := free
  obtain ⟨v,ok₃,next₃⟩ := clearShows (showsSwap next₂) still some'
  exact ⟨v,runJoin ok₁ (runJoin ok₂ ((runCons ok₃ []).trans (runNil _ _))),next₃⟩

def flooded (j : Nat) : Half :=
  ⟨List.range' (384 + j) (128 - j) ++ List.range' 384 j,[],
    posts .task [] (List.range' 1 383) 128 ++ (List.range' 0 j).map (fun i => ⟨.clear,384 + i,[1,i],128⟩),
    fun id => if 384 ≤ id ∧ id < 384 + j then [1,id - 384] else []⟩

def answering (j : Nat) : Half := ⟨List.range' j (512 - j),[0],[],fun _ => []⟩

theorem floodedNext {s : Net 2} {j} (few : j < 128) (shows' : Shows s (0,1) (flooded j) (answering j)) :
    ∃ t, run (step .memory) s (echo 1) = some t ∧ Shows t (0,1) (flooded (j + 1)) (answering (j + 1)) := by
  have free : (flooded j).free = (384 + j) :: (List.range' (384 + (j + 1)) (127 - j) ++ List.range' 384 j) := by
    have more : 128 - j = (127 - j) + 1 := by omega
    rw [flooded,more,List.range'_succ]
    rfl
  have ids : (answering j).free = [j] ++ List.range' (j + 1) (511 - j) := by
    have more : 512 - j = (511 - j) + 1 := by omega
    rw [answering,more,List.range'_succ]
    rfl
  obtain ⟨t,ok,next⟩ := echoShows shows' free rfl rfl ids
    (by simp [releaseBlock,maxWriteNum]; omega) (by simp) (by simp [releaseBlock,maxWriteNum])
  refine ⟨t,ok,?_⟩
  have total : (flooded j).free.length = 128 := by simp [flooded]; omega
  convert next using 1
  · simp only [Half.released,total]
    simp only [flooded,Half.mk.injEq,true_and]
    refine ⟨?_,?_,?_⟩
    · have fewer : 128 - (j + 1) = 127 - j := by omega
      rw [fewer,List.range'_1_concat,List.append_assoc]
    · rw [List.range'_1_concat (s := 0) (n := j)]
      simp
    · funext id
      by_cases here : id = 384 + j
      · subst here
        simp [fill]
      · have same : id < 384 + (j + 1) ↔ id < 384 + j := by omega
        simp [here,same]
  · simp [answering]

/- A block of TASKs is polled, and its ids fill a RELEASE. -/
theorem tasksReleased {s : Net 2} {l own back} (shows' : Shows s l own back) {data ids : List Nat} {k rest}
    (chan : own.chan = posts .task data ids k ++ rest) (short : back.waiting.length < releaseBlock)
    (full : (back.waiting ++ ids).length = releaseBlock) {id left} (free : back.free = id :: left) :
    ∃ t, run (step .memory) s (polls l ids.length) = some t ∧
      Shows t l { own with chan := rest }
        (({ back with waiting := back.waiting ++ ids } : Half).released .release id left) := by
  have plain : returned own.slot (posts .task data ids k) = [] := postsReturned taskNormal own.slot data ids k
  rw [List.length_append] at full
  obtain ⟨t,ok,next⟩ := blockShows (postsOther taskNormal) shows' chan short (by rw [postsLength]; exact full)
    (by rw [plain,List.append_nil]; exact free)
  rw [postsLength] at ok
  refine ⟨t,ok,?_⟩
  rwa [Half.received,plain,List.append_nil,postsHeld taskNormal] at next

/- 384 TASKs make three RELEASEs, whose ids are the next free ones. -/
theorem threeReleases {s : Net 2} {l own back} (shows' : Shows s l own back) {ids : List Nat} {k rest}
    (chan : own.chan = posts .task [] ids k ++ rest) (short : back.waiting.length < releaseBlock)
    (full : back.waiting.length + ids.length = 3 * releaseBlock) {a b c left}
    (free : back.free = a :: b :: c :: left) (apart : [a,b,c].Nodup) :
    ∃ t msgs slot, run (step .memory) s (polls l ids.length) = some t ∧
      Shows t l { own with chan := rest } ⟨left,[],back.chan ++ msgs,slot⟩ ∧
      msgs.map Message.bufId = [a,b,c] ∧ (∀ msg ∈ msgs, msg.control = .release) ∧
      (returned slot msgs).length = 3 * releaseBlock := by
  obtain ⟨x,y,z,rfl,lx,ly,lz⟩ : ∃ x y z, ids = x ++ (y ++ z) ∧ (back.waiting ++ x).length = releaseBlock ∧
      y.length = releaseBlock ∧ z.length = releaseBlock := by
    refine ⟨ids.take (releaseBlock - back.waiting.length),
      (ids.drop (releaseBlock - back.waiting.length)).take releaseBlock,
      (ids.drop (releaseBlock - back.waiting.length)).drop releaseBlock,?_,?_,?_,?_⟩
    · rw [List.take_append_drop,List.take_append_drop]
    all_goals
      simp only [List.length_append,List.length_take,List.length_drop]
      omega
  rw [postsAppend,postsAppend,List.append_assoc,List.append_assoc] at chan
  have none' : ([] : List Nat).length < releaseBlock := by decide
  obtain ⟨t,ok₁,next₁⟩ := tasksReleased shows' chan short lx free
  obtain ⟨u,ok₂,next₂⟩ := tasksReleased next₁ rfl none' ly rfl
  obtain ⟨v,ok₃,next₃⟩ := tasksReleased next₂ rfl none' lz rfl
  simp only [Half.released,List.append_assoc,List.cons_append,List.nil_append] at next₃
  refine ⟨v,_,_,?_,next₃,rfl,?_,?_⟩
  · rw [polls,List.length_append,List.length_append,List.replicate_add,List.replicate_add]
    exact runJoin ok₁ (runJoin ok₂ ok₃)
  · simp
  · obtain ⟨⟨ab,ac⟩,bc⟩ : (a ≠ b ∧ a ≠ c) ∧ b ≠ c := by simpa using apart
    simp only [returned,List.flatMap_cons,List.flatMap_nil,List.append_nil,releasingRelease,if_true,
      Function.update_self,Function.update_of_ne ab,Function.update_of_ne ac,Function.update_of_ne bc,releasedFilled]
    rw [List.length_append,lx,List.length_append,ly,lz]
    rfl

def clears : List Message :=
  (List.range' 0 128).map (fun i => ⟨.clear,384 + i,[1,i],128⟩) ++ [⟨.clear,384,[3,128,129,130],128⟩]

def overwritten : Half :=
  ⟨List.range' 385 127 ++ [384],[],posts .task [] (List.range' 1 383) 128 ++ clears,
    Function.update (flooded 128).slot 384 [3,128,129,130]⟩

theorem floodEnds : ∃ s, run (step .memory) (comWriteInit 2) flooding = some s ∧
    Shows s (0,1) overwritten ⟨List.range' 131 381,[0],[],fun _ => []⟩ := by
  have start : Shows (comWriteInit 2) (0,1) ⟨List.range' 0 512,[],[],fun _ => []⟩ ⟨List.range' 0 512,[],[],fun _ => []⟩ := by
    refine ⟨by decide,?_,?_,fun _ _ _ => rfl⟩ <;>
      simp [half,comWriteInit,maxWriteNum,List.range_eq_range']
  have sent : List.range' 0 512 = List.range' 0 384 ++ List.range' 384 128 :=
    (List.range'_append_1 (s := 0) (m := 384) (n := 128)).symm
  obtain ⟨s₁,ok₁,next₁⟩ := sendsShow taskNormal [] (List.range' 384 128)
    (by simp [releaseBlock,maxWriteNum]) (List.range' 0 384) start sent
  obtain ⟨s₂,ok₂,next₂⟩ := recvsShow [⟨.task,0,[],512⟩] (posts .task [] (List.range' 1 383) 128) next₁
    (by simp only [Half.sent,List.range'_succ (s := 0) (n := 383),posts]; simp)
    (by simp [heldCons,releaseBlock,maxWriteNum])
  have stage : Shows s₂ (0,1) (flooded 0) (answering 0) := by
    convert next₂ using 1
    · simp only [flooded,Half.sent,fillNothing,ite_self,Half.mk.injEq]
      refine ⟨by simp,trivial,by simp,?_⟩
      funext id
      exact if_neg (by omega)
    · simp [answering,Half.received,returned,heldCons,taskNormal]
  obtain ⟨s₃,ok₃,next₃⟩ := (repeatRun (fun _ _ => True) (fun j s => Shows s (0,1) (flooded j) (answering j))
    (m := 128) (fun j s few shown => ⟨alongTrue _ _ _,floodedNext few shown⟩) 128 0 (by omega) stage).2
  have ids : (answering 128).free = [128,129,130] ++ List.range' 131 381 := by
    simp [answering,List.range'_succ (s := 128),List.range'_succ (s := 129),List.range'_succ (s := 130)]
  have free : (flooded 128).free = 384 :: List.range' 385 127 := by simp [flooded,List.range'_succ (s := 384)]
  obtain ⟨s₄,ok₄,next₄⟩ := echoShows next₃ free rfl rfl ids (by simp [releaseBlock,maxWriteNum]) (by simp) (by decide)
  rw [List.length_range'] at ok₁
  refine ⟨s₄,runJoin ok₁ (runJoin ok₂ (runJoin ok₃ ok₄)),?_⟩
  convert next₄ using 1
  · have total : (flooded 128).free.length = 128 := by simp [flooded]
    simp only [overwritten,Half.released,total,clears,Nat.zero_add]
    simp [flooded,fill]
  · rfl

/- Machine 0 has nothing to send back but the RELEASEs its polls make. -/
def Resting (s : Net 2) (free : Nat) (back : Half) : Prop :=
  ∃ own, Shows s (0,1) own back ∧ own.free.length = free ∧ own.waiting = [] ∧ own.chan = []

theorem clearsHeld : heldIds clears = [] := by decide +kernel

theorem clearsReturned : returned overwritten.slot clears = [128,129,130] ++ List.range' 1 130 := by decide +kernel

theorem doubled {s : Net 2} (shows' : Shows s (0,1) overwritten ⟨List.range' 131 381,[0],[],fun _ => []⟩) :
    ∃ t slot, run (step .memory) s catchingUp = some t ∧
      Resting t 512 ⟨List.range' 134 378 ++ ([128,129,130] ++ List.range' 1 133),[],[],slot⟩ := by
  have tasksFirst : overwritten.chan = posts .task [] (List.range' 1 383) 128 ++ clears := rfl
  have first : List.range' 131 381 = 131 :: 132 :: 133 :: List.range' 134 378 := by
    rw [List.range'_succ,List.range'_succ,List.range'_succ]
  obtain ⟨s₁,releases,slot,ok₁,next₁,ids,kinds,total⟩ := threeReleases shows' tasksFirst
    (by decide) (by simp [releaseBlock,maxWriteNum]) first (by decide)
  obtain ⟨s₂,ok₂,next₂⟩ := recvsShow clears [] next₁ (List.append_nil _).symm
    (by rw [clearsHeld]; simp [releaseBlock,maxWriteNum])
  have held : heldIds releases = [131,132,133] := (heldOthers (releasesOther kinds)).trans ids
  obtain ⟨s₃,ok₃,next₃⟩ := recvsShow releases [] (showsSwap next₂) (List.append_nil _).symm
    (by rw [held]; simp [overwritten,releaseBlock,maxWriteNum])
  have back : (⟨List.range' 134 378,[],[] ++ releases,slot⟩ : Half).received overwritten.slot clears =
      ⟨List.range' 134 378 ++ ([128,129,130] ++ List.range' 1 130),[],releases,slot⟩ := by
    simp [Half.received,clearsReturned,clearsHeld]
  rw [back] at next₃
  generalize hown : ({ overwritten with chan := [] } : Half).received slot releases = own at next₃
  have free : own.free.length = 512 := by
    rw [← hown]
    simp [Half.received,overwritten,total,releaseBlock,maxWriteNum]
  obtain ⟨id,left,ids'⟩ := List.exists_cons_of_length_pos (by omega : 0 < own.free.length)
  have waiting : own.waiting = [131,132,133] := by
    rw [← hown,Half.received,held]
    rfl
  have chan : own.chan = [] := by rw [← hown]; rfl
  obtain ⟨s₄,ok₄,next₄⟩ := clearShows (showsSwap next₃) ids' (by rw [waiting]; exact List.cons_ne_nil _ _)
  obtain ⟨s₅,ok₅,next₅⟩ := recvsShow [⟨.clear,id,own.waiting.length :: own.waiting,own.free.length⟩] [] next₄
    (by simp [Half.released,chan]) (by simp [heldCons,releaseBlock,maxWriteNum])
  have more : List.range' 1 130 ++ [131,132,133] = List.range' 1 133 := by decide +kernel
  simp only [Half.received,Half.released,returned,List.flatMap_cons,List.flatMap_nil,releasingClear,if_true,
    Function.update_self,releasedFilled,waiting,heldCons,List.append_nil,List.append_assoc,more] at next₅
  rw [List.length_range'] at ok₁
  have len : releases.length = 3 := (List.length_map _).symm.trans (congrArg List.length ids)
  rw [len] at ok₃
  have lenClears : clears.length = 129 := by simp [clears]
  rw [lenClears] at ok₂
  refine ⟨s₅,slot,?_,_,next₅,?_,rfl,?_⟩
  · exact runJoin ok₁ (runJoin ok₂ (runJoin ok₃ (runJoin ((runCons ok₄ []).trans (runNil _ _)) ok₅)))
  · rw [ids'] at free
    simpa using free
  · rfl

/- 128 messages that bring nothing back cost machine 0 one id, and machine 1 gets
128 from the RELEASE. -/
theorem roundShows {s : Net 2} {free back} (block rest : List Message) (rests : Resting s (free + 1) back)
    (chan : back.chan = block ++ rest) (other : ∀ msg ∈ block, msg.control ≠ .clear)
    (size : block.length = releaseBlock) (dry : returned back.slot block = [])
    (short : back.waiting.length + 1 < releaseBlock) :
    ∃ t id ids, run (step .memory) s round = some t ∧ ids.length = releaseBlock ∧
      Resting t free { back with free := back.free ++ ids, waiting := back.waiting ++ [id], chan := rest } := by
  obtain ⟨own,shows',count,none',empty⟩ := rests
  obtain ⟨id,left,ids⟩ := List.exists_cons_of_length_pos (by omega : 0 < own.free.length)
  obtain ⟨t,ok₁,next₁⟩ := blockShows other (showsSwap shows') chan (by rw [none']; decide)
    (by rw [none',size]; rfl) (by rw [dry,List.append_nil]; exact ids)
  have held : heldIds block = block.map Message.bufId := heldOthers other
  have filled : (heldIds block).length = releaseBlock := by rw [held,List.length_map,size]
  simp only [Half.received,dry,List.append_nil,none',List.nil_append] at next₁
  obtain ⟨u,ok₂,next₂⟩ := recvsShow
    [⟨.release,id,(heldIds block).length :: heldIds block,own.free.length⟩] [] (showsSwap next₁)
    (by simp [Half.released,empty]) (by simpa [heldCons] using short)
  rw [size] at ok₁
  simp only [Half.received,Half.released,returned,List.flatMap_cons,List.flatMap_nil,releasingRelease,if_true,
    Function.update_self,releasedFilled,heldCons,List.append_nil,heldNil] at next₂
  refine ⟨u,id,heldIds block,runJoin ok₁ ok₂,filled,_,next₂,?_,rfl,rfl⟩
  rw [ids,List.length_cons] at count
  exact Nat.succ.inj count

/- A drain round sends the messages first. -/
theorem drainShows {s : Net 2} {free back} (rests : Resting s (free + 1) back) (empty : back.chan = [])
    (many : 2 * releaseBlock ≤ back.free.length) (short : back.waiting.length + 1 < releaseBlock) :
    ∃ t back', run (step .memory) s (tasks (1,0) 128 ++ round) = some t ∧ Resting t free back' ∧
      back'.chan = [] ∧ back'.free.length = back.free.length ∧ back'.waiting.length = back.waiting.length + 1 := by
  obtain ⟨own,shows',count,none',quiet⟩ := rests
  have size : (back.free.take releaseBlock).length = releaseBlock := by
    rw [List.length_take]
    omega
  obtain ⟨t,ok₁,next₁⟩ := sendsShow taskNormal [] (back.free.drop releaseBlock)
    (by rw [List.length_drop]; omega) (back.free.take releaseBlock) (showsSwap shows')
    (List.take_append_drop _ _).symm
  obtain ⟨u,id,ids,ok₂,many',next₂⟩ := roundShows
    (posts .task [] (back.free.take releaseBlock) (back.free.drop releaseBlock).length) []
    ⟨own,showsSwap next₁,count,none',quiet⟩ (by simp [Half.sent,empty]) (postsOther taskNormal)
    (by rw [postsLength]; exact size) (postsReturned taskNormal _ _ _ _) short
  rw [size] at ok₁
  refine ⟨u,_,runJoin ok₁ ok₂,next₂,rfl,?_,?_⟩
  · simp only [Half.sent,List.length_append,List.length_drop,many']
    omega
  · simp [Half.sent]

/- RELEASEs whose slots begin with 0 by now bring nothing back. -/
theorem overwrittenDry {slot : Nat → List Nat} {msgs : List Message}
    (zero : ∀ msg ∈ msgs, ∃ old, slot msg.bufId = fill [0] old) : returned slot msgs = [] := by
  refine List.flatMap_eq_nil_iff.mpr (fun msg member => ?_)
  obtain ⟨old,same⟩ := zero msg member
  simp [same,fill,releasedIds]

theorem lossPosted {s : Net 2} {slot}
    (rests : Resting s 512 ⟨List.range' 134 378 ++ ([128,129,130] ++ List.range' 1 133),[],[],slot⟩) :
    ∃ t releases slot', run (step .memory) s posting = some t ∧
      Resting t 128 ⟨List.range' 1 133,[],posts .task [] (List.range' 134 378) 136 ++ releases,slot'⟩ ∧
      releases.map Message.bufId = [128,129,130] ∧ ∀ msg ∈ releases, msg.control = .release := by
  obtain ⟨own,shows',count,none',empty⟩ := rests
  obtain ⟨s₁,ok₁,next₁⟩ := sendsShow taskNormal [] _ (by simp [releaseBlock,maxWriteNum]) _ (showsSwap shows') rfl
  have size : (own.free.take 384).length = 384 := by simp [count]
  obtain ⟨s₂,ok₂,next₂⟩ := sendsShow taskNormal [] (own.free.drop 384)
    (by simp [count,releaseBlock,maxWriteNum]) (own.free.take 384) (showsSwap next₁) (List.take_append_drop _ _).symm
  have chan : (own.sent .task [] (own.free.take 384) (own.free.drop 384)).chan =
      posts .task [] (own.free.take 384) (own.free.drop 384).length ++ [] := by
    rw [Half.sent,empty,List.nil_append,List.append_nil]
  have first : [128,129,130] ++ List.range' 1 133 = 128 :: 129 :: 130 :: List.range' 1 133 := rfl
  obtain ⟨s₃,releases,slot',ok₃,next₃,ids,kinds,_⟩ := threeReleases next₂ chan
    (by simp [Half.sent,releaseBlock,maxWriteNum])
    (by rw [size]; simp [Half.sent,releaseBlock,maxWriteNum]) first (by decide)
  have left : ([128,129,130] ++ List.range' 1 133).length = 136 := by simp
  rw [List.length_range'] at ok₁
  rw [size] at ok₂ ok₃
  simp only [Half.sent,List.nil_append,left] at next₃
  exact ⟨s₃,releases,slot',runJoin ok₁ (runJoin ok₂ ok₃),⟨_,next₃,by simp [count],none',rfl⟩,ids,kinds⟩

theorem lossTaken {s : Net 2} {releases slot}
    (rests : Resting s 128 ⟨List.range' 1 133,[],posts .task [] (List.range' 134 378) 136 ++ releases,slot⟩)
    (ids : releases.map Message.bufId = [128,129,130]) (kinds : ∀ msg ∈ releases, msg.control = .release) :
    ∃ t back, run (step .memory) s losing = some t ∧
      Resting t 124 back ∧ back.chan = [] ∧ back.free.length = 514 ∧ back.waiting.length = 4 := by
  have first : List.range' 134 378 = List.range' 134 128 ++ (List.range' 262 128 ++ List.range' 390 122) := by
    decide +kernel
  have second : List.range' 1 131 = List.range' 1 3 ++ List.range' 4 128 := by decide +kernel
  have three : releases.length = 3 := (List.length_map _).symm.trans (congrArg List.length ids)
  rw [first,postsAppend,postsAppend,List.append_assoc,List.append_assoc] at rests
  obtain ⟨s₁,id₁,ids₁,ok₁,many₁,rests₁⟩ := roundShows _ _ rests rfl (postsOther taskNormal)
    (by simp [releaseBlock,maxWriteNum]) (postsReturned taskNormal _ _ _ _) (by simp [releaseBlock,maxWriteNum])
  obtain ⟨own,shows',count,none',empty⟩ := rests₁
  have free : List.range' 1 133 ++ ids₁ = List.range' 1 131 ++ ([132,133] ++ ids₁) := by
    rw [← List.append_assoc]
    congr 1
  obtain ⟨s₂,ok₂,next₂⟩ := sendsShow syncNormal [0] ([132,133] ++ ids₁)
    (by rw [List.length_append,many₁]; omega) (List.range' 1 131) (showsSwap shows') free
  simp only [Half.sent,second,postsAppend,List.append_assoc] at next₂
  obtain ⟨s₃,id₃,ids₃,ok₃,many₃,rests₃⟩ := roundShows _ _ ⟨own,showsSwap next₂,count,none',empty⟩ rfl
    (postsOther taskNormal)
    (by simp [releaseBlock,maxWriteNum]) (postsReturned taskNormal _ _ _ _) (by simp [releaseBlock,maxWriteNum])
  have mixed : ∀ k k', ∀ msg ∈ posts .task [] (List.range' 390 122) k ++
      (releases ++ posts .sync [0] (List.range' 1 3) k'), msg.control ≠ .clear := by
    intro k k' msg member
    rcases List.mem_append.mp member with task | rest
    · exact postsOther taskNormal msg task
    · rcases List.mem_append.mp rest with release | task
      · exact releasesOther kinds msg release
      · exact postsOther syncNormal msg task
  have dry : ∀ k k', returned (fun id => if id ∈ List.range' 1 3 ++ List.range' 4 128 then fill [0] (slot id) else slot id)
      (posts .task [] (List.range' 390 122) k ++ (releases ++ posts .sync [0] (List.range' 1 3) k')) = [] := by
    intro k k'
    rw [returnedAppend,returnedAppend,postsReturned taskNormal,postsReturned syncNormal,List.nil_append,
      List.append_nil]
    refine overwrittenDry (fun msg member => ⟨slot msg.bufId,if_pos ?_⟩)
    have taken : msg.bufId ∈ [128,129,130] := ids ▸ List.mem_map_of_mem member
    rw [← second]
    simp only [List.mem_cons,List.not_mem_nil,or_false] at taken
    rcases taken with same | same | same <;> simp [same]
  obtain ⟨s₄,id₄,ids₄,ok₄,many₄,rests₄⟩ := roundShows
    (posts .task [] (List.range' 390 122) 136 ++
      (releases ++ posts .sync [0] (List.range' 1 3) ((List.range' 4 128).length + ([132,133] ++ ids₁).length)))
    (posts .sync [0] (List.range' 4 128) ([132,133] ++ ids₁).length) rests₃ (by simp only [List.append_assoc])
    (mixed _ _) (by simp [three,releaseBlock,maxWriteNum]) (dry _ _) (by simp [releaseBlock,maxWriteNum])
  obtain ⟨s₅,id₅,ids₅,ok₅,many₅,rests₅⟩ := roundShows _ [] rests₄ (List.append_nil _).symm (postsOther syncNormal)
    (by simp [releaseBlock,maxWriteNum]) (postsReturned syncNormal _ _ _ _) (by simp [releaseBlock,maxWriteNum])
  rw [List.length_range'] at ok₂
  refine ⟨s₅,_,runJoin ok₁ (runJoin ok₂ (runJoin ok₃ (runJoin ok₄ ok₅))),rests₅,rfl,?_,by simp⟩
  simp [many₁,many₃,many₄,many₅,releaseBlock,maxWriteNum]

/- The last id of machine 0 goes into a RELEASE that machine 1 has not polled when
the next one is due. -/
theorem lastShows {s : Net 2} {back} (rests : Resting s 1 back) (empty : back.chan = [])
    (many : 2 * releaseBlock ≤ back.free.length) :
    ∃ t own back', run (step .memory) s (tasks (1,0) 128 ++ polls (1,0) 128) = some t ∧ Shows t (0,1) own back' ∧
      own.free = [] ∧ own.waiting = [] ∧ back'.chan = [] ∧ back'.free.length + releaseBlock = back.free.length := by
  obtain ⟨own,shows',count,none',quiet⟩ := rests
  obtain ⟨id,ids⟩ := List.length_eq_one_iff.mp count
  have size : (back.free.take releaseBlock).length = releaseBlock := by
    rw [List.length_take]
    omega
  obtain ⟨t,ok₁,next₁⟩ := sendsShow taskNormal [] (back.free.drop releaseBlock)
    (by rw [List.length_drop]; omega) (back.free.take releaseBlock) (showsSwap shows')
    (List.take_append_drop _ _).symm
  have chan : (back.sent .task [] (back.free.take releaseBlock) (back.free.drop releaseBlock)).chan =
      posts .task [] (back.free.take releaseBlock) (back.free.drop releaseBlock).length ++ [] := by
    simp [Half.sent,empty]
  obtain ⟨u,ok₂,next₂⟩ := tasksReleased next₁ chan
    (by rw [none']; decide) (by rw [none',List.nil_append,size]) ids
  rw [size] at ok₁ ok₂
  refine ⟨u,_,_,runJoin ok₁ ok₂,showsSwap next₂,rfl,rfl,rfl,?_⟩
  simp only [Half.sent,List.length_drop]
  omega

theorem starved {s : Net 2} {own back} (shows' : Shows s (0,1) own back) (none' : own.free = [])
    (quiet : own.waiting = []) (empty : back.chan = []) (many : 2 * releaseBlock ≤ back.free.length) :
    ∃ t msg, run (step .memory) s (tasks (1,0) 128 ++ polls (1,0) 127) = some t ∧ t.channel (1,0) = [msg] ∧
      msg.control = .task ∧ t.buffIdList (0,1) = [] ∧ (t.releaseIdList (0,1)).length + 1 = releaseBlock ∧
      step .memory t (.recv (1,0)) = none := by
  obtain ⟨id,left,ids⟩ := List.exists_cons_of_length_pos (l := back.free.drop 127)
    (by rw [List.length_drop]; simp only [releaseBlock,maxWriteNum,Nat.shiftRight_eq_div_pow] at many; omega)
  have size : (back.free.take 127).length = 127 := by
    rw [List.length_take]
    simp only [releaseBlock,maxWriteNum,Nat.shiftRight_eq_div_pow] at many
    omega
  have split : back.free = (back.free.take 127 ++ [id]) ++ left := by
    rw [List.append_assoc,List.singleton_append,← ids,List.take_append_drop]
  obtain ⟨t,ok₁,next₁⟩ := sendsShow taskNormal [] left
    (by have := congrArg List.length split; simp only [List.length_append,size,List.length_singleton] at this
        simp only [releaseBlock,maxWriteNum,Nat.shiftRight_eq_div_pow] at many ⊢
        omega) (back.free.take 127 ++ [id]) (showsSwap shows') split
  have chan : (back.sent .task [] (back.free.take 127 ++ [id]) left).chan =
      posts .task [] (back.free.take 127) ([id].length + left.length) ++ posts .task [] [id] left.length := by
    simp only [Half.sent,empty,List.nil_append,postsAppend]
  have held : heldIds (posts .task [] (back.free.take 127) ([id].length + left.length)) = back.free.take 127 :=
    postsHeld taskNormal _ _ _
  obtain ⟨u,ok₂,next₂⟩ := recvsShow _ _ next₁ chan
    (by rw [held,quiet,List.nil_append,size]; decide)
  rw [postsLength,size] at ok₂
  rw [List.length_append,size] at ok₁
  have dry : ∀ slot ids k, returned slot (posts .task [] ids k) = [] :=
    fun slot ids k => postsReturned taskNormal slot [] ids k
  have last : posts .task [] [id] left.length = [⟨.task,id,[],0 + 1 + left.length⟩] := rfl
  have stops := (releaseShows next₂ last
    (fun clear => ControlType.noConfusion clear) (by simp only [Half.received,quiet,held,List.nil_append,size]; rfl)).1
    (List.append_eq_nil_iff.mpr ⟨by simp only [Half.received,none',dry,List.append_nil],dry _ [id] left.length⟩)
  refine ⟨u,_,runJoin ok₁ ok₂,congrArg Half.chan next₂.own,rfl,?_,?_,stops⟩
  · have free : u.buffIdList (0,1) = own.free ++ returned _ _ := congrArg Half.free next₂.back
    rw [free,none',dry]
    rfl
  · have waiting := congrArg Half.waiting next₂.back
    simp only [half,Half.received,quiet,held,List.nil_append] at waiting
    have ids : u.releaseIdList (0,1) = back.free.take 127 := waiting
    rw [ids,size]
    rfl

/- After `j` drain rounds. -/
def Draining (j : Nat) (s : Net 2) : Prop :=
  ∃ back, Resting s (124 - j) back ∧ back.chan = [] ∧ back.free.length = 514 ∧ back.waiting.length = 4 + j

theorem drainsNext {s : Net 2} {j} (few : j < 123) (drains : Draining j s) :
    ∃ t, run (step .memory) s (tasks (1,0) 128 ++ round) = some t ∧ Draining (j + 1) t := by
  obtain ⟨back,rests,empty,count,waiting⟩ := drains
  have more : 124 - j = (123 - j) + 1 := by omega
  have fewer : 124 - (j + 1) = 123 - j := by omega
  rw [more] at rests
  obtain ⟨t,back',ok,rests',empty',count',waiting'⟩ := drainShows rests empty (by rw [count]; decide)
    (by rw [waiting]; simp only [releaseBlock,maxWriteNum,Nat.shiftRight_eq_div_pow]; omega)
  exact ⟨t,ok,back',by rwa [fewer],empty',by omega,by omega⟩

/- send_write_release finds no free id: the exit of "expect sbuf always avaliable". -/
theorem releaseStarves : ∃ s msg, run (step .memory) (comWriteInit 2) starvingRun = some s ∧
    s.channel (1,0) = [msg] ∧ msg.control = .task ∧ (s.releaseIdList (0,1)).length + 1 = releaseBlock ∧
    getWriteSendBuf true true ((takeHead .memory s (1,0) msg []).buffIdList (0,1)) = none ∧
    pollRecv .memory s (1,0) = none := by
  obtain ⟨s₁,ok₁,next₁⟩ := floodEnds
  obtain ⟨s₂,slot,ok₂,rests₂⟩ := doubled next₁
  obtain ⟨s₃,releases,slot',ok₃,rests₃,ids,kinds⟩ := lossPosted rests₂
  obtain ⟨s₄,back,ok₄,rests₄,empty,count,waiting⟩ := lossTaken rests₃ ids kinds
  obtain ⟨s₅,ok₅,back',rests₅,empty',count',_⟩ := (repeatRun (fun _ _ => True) Draining (m := 123)
    (fun j s few drains => ⟨alongTrue _ _ _,drainsNext few drains⟩) 123 0 (by omega)
    ⟨back,rests₄,empty,count,waiting⟩).2
  obtain ⟨s₆,own,back₆,ok₆,next₆,none₆,quiet₆,empty₆,count₆⟩ := lastShows rests₅ empty' (by rw [count']; decide)
  obtain ⟨s₇,msg,ok₇,chan,task,free,long,stops⟩ := starved next₆ none₆ quiet₆ empty₆
    (by simp only [releaseBlock,maxWriteNum,Nat.shiftRight_eq_div_pow] at count₆ ⊢; omega)
  refine ⟨s₇,msg,runJoin ok₁ (runJoin ok₂ (runJoin ok₃ (runJoin ok₄ (runJoin ok₅ (runJoin ok₆ ok₇))))),chan,task,
    long,?_,stops⟩
  have normal : ¬Releasing msg.control := by rw [task]; exact taskNormal
  simp [takeHead,normal,getWriteSendBuf,free]

end CoTra.ReleaseReserve
