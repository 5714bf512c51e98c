import IdearNiu.Socket.Sockets

namespace IdearNiu.Socket

/-- Where a ready event comes from. The listener was registered through data.fd, which
leaves the upper half of the union as it was; a connection through data.ptr. -/
inductive Source where
  | listener (upper : BitVec 32)
  | connection (ptr : BitVec 64) (readStatistics : Nat)
deriving DecidableEq

/-- An event of a batch, with its EPOLLIN and EPOLLOUT flags. -/
structure Ready where
  source : Source
  input : Bool
  output : Bool
deriving DecidableEq

/-- An entry of the events array, with the statistics of the connection behind it. -/
structure EpollEvent where
  data : BitVec 64
  input : Bool
  output : Bool
  readStatistics : Nat
deriving DecidableEq

def Ready.entry (listenSock : BitVec 32) (r : Ready) : EpollEvent :=
  match r.source with
  | .listener upper => ⟨upper++listenSock,r.input,r.output,0⟩
  | .connection ptr stats => ⟨ptr,r.input,r.output,stats⟩

/-- data.fd, the low half of the union. -/
def EpollEvent.fd (e : EpollEvent) : BitVec 32 := e.data.setWidth 32

/-- The answers of the system calls to the iteration t when it is at the event i. -/
structure Calls where
  accept : Nat → Nat → Bool
  recv : Nat → Nat → RecvResult
  sends : Nat → Nat → List SendResult

inductive Action where
  | accept
  | recv (ptr : BitVec 64)
  | skipped
  | passed
deriving DecidableEq

/-- The end of one iteration: the next index, with the entry as it was left. -/
inductive Iteration where
  | next (i : Nat) (e : EpollEvent) (action : Action)
  | aborted
  | waiting

/-- One iteration of the loop over the ready events. -/
def iteration (listenSock : BitVec 32) (calls : Calls) (t i : Nat) (e : EpollEvent) :
    Iteration :=
  if e.fd=listenSock then
    if calls.accept t i then .next (i+1) e .accept else .aborted
  else if e.input then
    if e.fd.toInt≤0 then .next (i+1) e .skipped
    else if e.data≠0 then
      match calls.recv t i with
      | .data nr _ _ =>
        let e := { e with readStatistics := e.readStatistics+nr }
        -- The bytes are printed by a loop over the same index i, which leaves it at nr.
        match sockWriteBytes (calls.sends t i) (replyLength e.readStatistics) with
        | .wrote _ => .next (nr+1) e (.recv e.data)
        | .aborted => .aborted
        | .waiting => .waiting
      | .shutdown => .next (i+1) { e with data := 0 } (.recv e.data)
      | .again => .next (i+1) e (.recv e.data)
      | .failed => .next (i+1) { e with data := 0 } (.recv e.data)
    else .next (i+1) e .skipped
  else .next (i+1) e .passed

/-- The end of a pass over a batch, with the events visited and what was done. -/
inductive Pass where
  | finished (trace : List (Nat × Action))
  | aborted
  | waiting
  | running
deriving DecidableEq

def Pass.visit (v : Nat × Action) : Pass → Pass
  | .finished trace => .finished (v::trace)
  | p => p

/-- The loop from the index i on, for at most fuel iterations. -/
def passLoop (listenSock : BitVec 32) (calls : Calls) :
    Nat → Nat → Nat → List EpollEvent → Pass
  | 0,_,_,_ => .running
  | fuel+1,t,i,events =>
    match events[i]? with
    | none => .finished []
    | some e =>
      match iteration listenSock calls t i e with
      | .next j e' action =>
        (passLoop listenSock calls fuel (t+1) j (events.set i e')).visit (i,action)
      | .aborted => .aborted
      | .waiting => .waiting

/-- What the event asks for. -/
def Ready.expected (r : Ready) : Action :=
  match r.source with
  | .listener _ => .accept
  | .connection ptr _ => if r.input then .recv ptr else .passed

/-- A pass over the batch ends, visits every event exactly once and does what it asks for. -/
def HandlesEachOnce (listenSock : BitVec 32) (calls : Calls) (batch : List Ready) : Prop :=
  ∃ fuel trace,
    passLoop listenSock calls fuel 0 0 (batch.map (Ready.entry listenSock))=.finished trace ∧
    (trace.map Prod.fst).Perm (List.range batch.length) ∧
    ∀ i action,(i,action)∈trace → ∀ r,batch[i]?=some r → action=r.expected

/-- The low half of a connection's address is not the listening descriptor, and for input
it is positive as an int. -/
def Ready.tagged (listenSock : BitVec 32) (r : Ready) : Prop :=
  match r.source with
  | .listener _ => True
  | .connection ptr _ =>
    ptr.setWidth 32≠listenSock ∧ (r.input=true → 0<(ptr.setWidth 32).toInt)

/-- The index that follows an event: one more than its own, or than the number of bytes
received for it; none when the accept fails or the reply is not sent. -/
def Ready.follow (calls : Calls) (t i : Nat) (r : Ready) : Option Nat :=
  match r.source with
  | .listener _ => if calls.accept t i then some (i+1) else none
  | .connection _ stats =>
    if r.input then
      match calls.recv t i with
      | .data nr _ _ =>
        match sockWriteBytes (calls.sends t i) (replyLength (stats+nr)) with
        | .wrote _ => some (nr+1)
        | _ => none
      | _ => some (i+1)
    else some (i+1)

/-- The events in this order lead each to the next one, the last one out of the batch. -/
def LinedUp (calls : Calls) (batch : List Ready) : Nat → Nat → List Nat → Prop
  | _,i,[] => batch.length ≤ i
  | t,i,j::order => i=j ∧ ∃ r k,batch[j]?=some r ∧ r.follow calls t j=some k ∧
      LinedUp calls batch (t+1) k order

theorem Ready.entry_listener (listenSock : BitVec 32) (r : Ready) (upper : BitVec 32)
    (h : r.source=.listener upper) : (r.entry listenSock).fd=listenSock := by
  rw [Ready.entry,EpollEvent.fd]
  rw [h]
  exact BitVec.setWidth_append_eq_right

theorem Ready.entry_connection (listenSock : BitVec 32) (r : Ready) (ptr : BitVec 64)
    (stats : Nat) (h : r.source=.connection ptr stats) :
    r.entry listenSock=⟨ptr,r.input,r.output,stats⟩ := by
  rw [Ready.entry]
  rw [h]

/-- An input event of a well tagged connection is received from, and the loop then goes on
at the index that follows, unless the reply ends it. -/
theorem iteration_received (listenSock : BitVec 32) (calls : Calls) (t i : Nat) (r : Ready)
    (ptr : BitVec 64) (stats : Nat) (hs : r.source=.connection ptr stats)
    (hin : r.input=true) (hfd : ptr.setWidth 32≠listenSock)
    (hpos : 0<(ptr.setWidth 32).toInt) :
    (∀ j,r.follow calls t i=some j →
      ∃ e,iteration listenSock calls t i (r.entry listenSock)=.next j e (.recv ptr)) ∧
    (∀ j e action,iteration listenSock calls t i (r.entry listenSock)=.next j e action →
      r.follow calls t i=some j) := by
  have hz : ptr≠0 := by
    intro heq
    subst heq
    revert hpos
    decide
  rw [r.entry_connection listenSock ptr stats hs,Ready.follow,iteration]
  simp only [hs,hin,if_true,EpollEvent.fd]
  rw [if_neg hfd,if_neg (by omega),if_pos hz]
  cases hr : calls.recv t i with
  | data nr pos fits =>
    simp only
    cases hw : sockWriteBytes (calls.sends t i) (replyLength (stats+nr)) with
    | wrote n =>
      constructor
      · intro j hj
        injection hj with hj
        exact ⟨_,by rw [hj]⟩
      · intro j e action h
        injection h with hj
        rw [hj]
    | aborted | waiting =>
      constructor
      · intro j hj
        cases hj
      · intro j e action h
        cases h
  | shutdown | again | failed =>
    constructor
    · intro j hj
      injection hj with hj
      exact ⟨_,by rw [hj]⟩
    · intro j e action h
      injection h with hj
      rw [hj]

/-- An iteration that does what its event asks for found the event well tagged. -/
theorem iteration_expected (listenSock : BitVec 32) (calls : Calls) (t i j : Nat) (r : Ready)
    (e : EpollEvent)
    (h : iteration listenSock calls t i (r.entry listenSock)=.next j e r.expected) :
    r.tagged listenSock ∧ r.follow calls t i=some j := by
  cases hs : r.source with
  | listener upper =>
    rw [Ready.tagged,Ready.follow,hs]
    refine ⟨trivial,?_⟩
    rw [iteration,if_pos (r.entry_listener listenSock upper hs)] at h
    by_cases ha : calls.accept t i=true
    · rw [if_pos ha] at h
      injection h with hj
      simp only [ha,if_true,hj]
    · rw [if_neg ha] at h
      cases h
  | connection ptr stats =>
    have hexp : r.expected=if r.input then .recv ptr else .passed := by
      rw [Ready.expected]
      rw [hs]
    have hstep := h
    rw [r.entry_connection listenSock ptr stats hs,iteration] at hstep
    simp only [EpollEvent.fd,hexp] at hstep
    have hfd : ptr.setWidth 32≠listenSock := by
      intro hfd
      rw [if_pos hfd] at hstep
      split_ifs at hstep
      all_goals
        injection hstep with _ _ ha
        cases ha
    rw [if_neg hfd] at hstep
    by_cases hin : r.input=true
    · have hpos : 0<(ptr.setWidth 32).toInt := by
        by_contra hneg
        rw [if_pos hin,if_pos (by omega),if_pos hin] at hstep
        injection hstep with _ _ ha
        cases ha
      refine ⟨?_,(iteration_received listenSock calls t i r ptr stats hs hin hfd hpos).2 _ _ _ h⟩
      rw [Ready.tagged,hs]
      exact ⟨hfd,fun _ => hpos⟩
    · rw [if_neg hin] at hstep
      injection hstep with hj
      rw [Ready.tagged,Ready.follow,hs]
      refine ⟨⟨hfd,fun hin' => absurd hin' hin⟩,?_⟩
      simp only
      rw [if_neg hin,hj]

theorem iteration_tagged (listenSock : BitVec 32) (calls : Calls) (t i j : Nat) (r : Ready)
    (htag : r.tagged listenSock) (h : r.follow calls t i=some j) :
    ∃ e,iteration listenSock calls t i (r.entry listenSock)=.next j e r.expected := by
  rw [Ready.expected]
  cases hs : r.source with
  | listener upper =>
    rw [Ready.follow,hs] at h
    simp only at h
    split_ifs at h with ha
    injection h with hj
    rw [iteration,if_pos (r.entry_listener listenSock upper hs),if_pos ha,hj]
    exact ⟨_,rfl⟩
  | connection ptr stats =>
    rw [Ready.tagged,hs] at htag
    simp only at htag ⊢
    by_cases hin : r.input=true
    · rw [if_pos hin]
      exact (iteration_received listenSock calls t i r ptr stats hs hin htag.1
        (htag.2 hin)).1 j h
    · rw [Ready.follow,hs] at h
      simp only at h
      rw [if_neg hin] at h
      injection h with hj
      rw [r.entry_connection listenSock ptr stats hs,iteration]
      simp only [EpollEvent.fd]
      rw [if_neg htag.1,if_neg hin,if_neg hin,hj]
      exact ⟨_,rfl⟩

/-- The entries at these indices are still those of the batch. -/
def Untouched (listenSock : BitVec 32) (batch : List Ready) (events : List EpollEvent)
    (indices : List Nat) : Prop :=
  events.length=batch.length ∧
  ∀ j∈indices,events[j]?=(batch[j]?).map (Ready.entry listenSock)

theorem Untouched.set {listenSock : BitVec 32} {batch : List Ready} {events : List EpollEvent}
    {i : Nat} {indices : List Nat} (h : Untouched listenSock batch events (i::indices))
    (hi : i∉indices) (e : EpollEvent) :
    Untouched listenSock batch (events.set i e) indices := by
  refine ⟨by rw [List.length_set]; exact h.1,?_⟩
  intro j hj
  have hne : i≠j := fun he => hi (he ▸ hj)
  rw [List.getElem?_set_ne hne]
  exact h.2 j (List.mem_cons_of_mem i hj)

/-- A finished pass that visits each event at most once and does what it asks for walks
along an order that lines up. -/
theorem passLoop_linedUp (listenSock : BitVec 32) (calls : Calls) (batch : List Ready)
    (fuel t i : Nat) (events : List EpollEvent) (trace : List (Nat × Action))
    (hrun : passLoop listenSock calls fuel t i events=.finished trace)
    (hnodup : (trace.map Prod.fst).Nodup)
    (hevents : Untouched listenSock batch events (trace.map Prod.fst))
    (hdone : ∀ i action,(i,action)∈trace → ∀ r,batch[i]?=some r → action=r.expected) :
    LinedUp calls batch t i (trace.map Prod.fst) ∧
    ∀ j∈trace.map Prod.fst,∀ r,batch[j]?=some r → r.tagged listenSock := by
  induction fuel generalizing t i events trace with
  | zero => cases hrun
  | succ fuel ih =>
    unfold passLoop at hrun
    cases he : events[i]? with
    | none =>
      rw [he] at hrun
      injection hrun with htrace
      subst htrace
      refine ⟨?_,by simp⟩
      have := List.getElem?_eq_none_iff.mp he
      rw [hevents.1] at this
      exact this
    | some e =>
      rw [he] at hrun
      simp only at hrun
      cases hit : iteration listenSock calls t i e with
      | aborted | waiting =>
        rw [hit] at hrun
        cases hrun
      | next j e' action =>
        rw [hit] at hrun
        simp only at hrun
        cases hrest : passLoop listenSock calls fuel (t+1) j (events.set i e') with
        | aborted | waiting | running =>
          rw [hrest] at hrun
          cases hrun
        | finished rest =>
          rw [hrest] at hrun
          injection hrun with htrace
          subst htrace
          simp only [List.map_cons] at hnodup hevents ⊢
          obtain ⟨hi,hnodup⟩ := List.nodup_cons.mp hnodup
          obtain ⟨hlined,htagged⟩ := ih (t+1) j (events.set i e') rest hrest hnodup
            (hevents.set hi e') (fun k a hk => hdone k a (List.mem_cons_of_mem _ hk))
          have hentry := hevents.2 i List.mem_cons_self
          rw [he] at hentry
          obtain ⟨r,hr,hre⟩ := Option.map_eq_some_iff.mp hentry.symm
          have haction := hdone i action List.mem_cons_self r hr
          rw [← hre,haction] at hit
          obtain ⟨htag,hfollow⟩ := iteration_expected listenSock calls t i j r e' hit
          refine ⟨⟨rfl,r,j,hr,hfollow,hlined⟩,?_⟩
          intro k hk r' hr'
          rcases List.mem_cons.mp hk with rfl|hk
          · rw [hr] at hr'
            injection hr' with hr'
            exact hr' ▸ htag
          · exact htagged k hk r' hr'

theorem passLoop_of_linedUp (listenSock : BitVec 32) (calls : Calls) (batch : List Ready)
    (order : List Nat) (t i : Nat) (events : List EpollEvent) (hnodup : order.Nodup)
    (hevents : Untouched listenSock batch events order)
    (hlined : LinedUp calls batch t i order)
    (htag : ∀ r∈batch,r.tagged listenSock) :
    ∃ trace,passLoop listenSock calls (order.length+1) t i events=.finished trace ∧
      trace.map Prod.fst=order ∧
      ∀ i action,(i,action)∈trace → ∀ r,batch[i]?=some r → action=r.expected := by
  induction order generalizing t i events with
  | nil =>
    refine ⟨[],?_,rfl,by simp⟩
    have hnone : events[i]?=none := by
      rw [List.getElem?_eq_none_iff,hevents.1]
      exact hlined
    simp only [passLoop,hnone]
  | cons j order ih =>
    obtain ⟨rfl,r,k,hr,hfollow,hrest⟩ := hlined
    obtain ⟨hi,hnodup⟩ := List.nodup_cons.mp hnodup
    have hentry := hevents.2 i List.mem_cons_self
    rw [hr,Option.map_some] at hentry
    obtain ⟨e,hit⟩ := iteration_tagged listenSock calls t i k r
      (htag r (List.mem_of_getElem? hr)) hfollow
    obtain ⟨trace,hrun,hmap,hdone⟩ := ih (t+1) k (events.set i e) hnodup
      (hevents.set hi e) hrest
    refine ⟨(i,r.expected)::trace,?_,by rw [List.map_cons,hmap],?_⟩
    · rw [List.length_cons,passLoop,hentry]
      simp only [hit,hrun,Pass.visit]
    · intro i' action hmem r' hr'
      rcases List.mem_cons.mp hmem with heq|hmem
      · injection heq with h1 h2
        rw [h1,hr] at hr'
        injection hr' with hr'
        rw [h2,hr']
      · exact hdone i' action hmem r' hr'

/-- A pass handles every event of the batch exactly once if and only if no connection's
address is mistaken and the received byte counts happen to lead from event to event. -/
theorem epollPass_handles_iff (listenSock : BitVec 32) (calls : Calls) (batch : List Ready) :
    HandlesEachOnce listenSock calls batch ↔
      (∀ r∈batch,r.tagged listenSock) ∧
      ∃ order : List Nat,order.Perm (List.range batch.length) ∧
        LinedUp calls batch 0 0 order := by
  have hstart (indices : List Nat) :
      Untouched listenSock batch (batch.map (Ready.entry listenSock)) indices :=
    ⟨List.length_map _,fun j _ => List.getElem?_map⟩
  constructor
  · intro hgiven
    obtain ⟨fuel,trace,hrun,hperm,hdone⟩ := hgiven
    obtain ⟨hlined,htagged⟩ := passLoop_linedUp listenSock calls batch fuel 0 0 _ trace hrun
      (hperm.nodup_iff.mpr List.nodup_range) (hstart _) hdone
    refine ⟨?_,trace.map Prod.fst,hperm,hlined⟩
    intro r hr
    obtain ⟨j,hj⟩ := List.mem_iff_getElem?.mp hr
    have hlt := (List.getElem?_eq_some_iff.mp hj).1
    exact htagged j (hperm.mem_iff.mpr (List.mem_range.mpr hlt)) r hj
  · intro hgiven
    obtain ⟨htag,order,hperm,hlined⟩ := hgiven
    obtain ⟨trace,hrun,hmap,hdone⟩ := passLoop_of_linedUp listenSock calls batch order 0 0 _
      (hperm.nodup_iff.mpr List.nodup_range) (hstart _) hlined htag
    exact ⟨order.length+1,trace,hrun,by rw [hmap]; exact hperm,hdone⟩

/-- Two connections, five bytes on the first and none on the second. -/
def fiveBytes : Calls where
  accept _ _ := true
  recv _ i := if i=0 then .data 5 (by decide) (by decide) else .shutdown
  sends _ _ := [.sent 17]

def twoConnections : List Ready :=
  [⟨.connection 0x55550010 0,true,false⟩,⟨.connection 0x55550020 0,true,false⟩]

/-- The index is left at six, past the second event, which gets no recv. -/
theorem second_event_is_skipped : ¬HandlesEachOnce 3 fiveBytes twoConnections := by
  intro hgiven
  obtain ⟨fuel,trace,hrun,hperm,_⟩ := hgiven
  match fuel with
  | 0 => cases hrun
  | 1 =>
    have hpass : passLoop 3 fiveBytes 1 0 0 (twoConnections.map (Ready.entry 3))=.running :=
      rfl
    rw [hpass] at hrun
    cases hrun
  | fuel+2 =>
    have hpass : passLoop 3 fiveBytes (fuel+2) 0 0 (twoConnections.map (Ready.entry 3))=
        .finished [(0,.recv 0x55550010)] := rfl
    rw [hpass] at hrun
    injection hrun with htrace
    subst htrace
    exact absurd hperm.length_eq (by decide)

end IdearNiu.Socket
