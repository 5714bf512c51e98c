import IdearNiu.Socket.EdgeTriggered

namespace IdearNiu.Socket.EdgeTriggered

/-- An event of the connection is still to be looked at. -/
def Awaited (j : Nat) : Phase → Prop
  | .blocked => False
  | .handling _ seen events => ∃ k e,seen≤k ∧ events[k]?=some (e,.peer j)
  | .stopped => True

/-- The entry of an event still leads to its connection, or to nothing once that is cleaned. -/
def EntryOk (listenSock : BitVec 32) (peers : List Peer) (e : EpollEvent) : Origin → Prop
  | .listener => e.fd=listenSock
  | .peer j => ∃ p,peers[j]?=some p ∧ e.input=true ∧ e.data=if p.live then p.ptr else 0

def PhaseOk (listenSock : BitVec 32) (peers : List Peer) : Phase → Prop
  | .handling i seen events => (i ≤ seen ∨ events.length ≤ seen) ∧
    (events.map Prod.snd).Nodup ∧
    ∀ (k : Nat) (e : EpollEvent) (o : Origin),events[k]?=some (e,o) → EntryOk listenSock peers e o
  | _ => True

/-- Queued bytes are announced by an edge or by an event still to be looked at. -/
structure Inv (s : Server) : Prop where
  announced : ∀ j p,s.peers[j]?=some p → p.live=true → 0<p.sock.queued →
    p.edge=true ∨ Awaited j s.phase
  phase : PhaseOk s.listenSock s.peers s.phase

theorem EntryOk.mono {listenSock : BitVec 32} {peers : List Peer} {e : EpollEvent} {o : Origin}
    (h : EntryOk listenSock peers e o) (peers' : List Peer)
    (hkeep : ∀ (j : Nat) p,peers[j]?=some p →
      ∃ p' : Peer,peers'[j]?=some p' ∧ p'.live=p.live ∧ p'.ptr=p.ptr) :
    EntryOk listenSock peers' e o := by
  cases o with
  | listener => exact h
  | peer j =>
    obtain ⟨p,hp,hin,hdata⟩ := h
    obtain ⟨p',hp',hlive,hptr⟩ := hkeep j p hp
    exact ⟨p',hp',hin,by rw [hlive,hptr]; exact hdata⟩

theorem PhaseOk.mono {listenSock : BitVec 32} {peers : List Peer} {phase : Phase}
    (h : PhaseOk listenSock peers phase) (peers' : List Peer)
    (hkeep : ∀ (j : Nat) p,peers[j]?=some p →
      ∃ p' : Peer,peers'[j]?=some p' ∧ p'.live=p.live ∧ p'.ptr=p.ptr) :
    PhaseOk listenSock peers' phase := by
  cases phase with
  | handling i seen events =>
    obtain ⟨hi,hnd,hentry⟩ := h
    exact ⟨hi,hnd,fun k e o hk => (hentry k e o hk).mono peers' hkeep⟩
  | blocked => trivial
  | stopped => trivial

theorem start_inv (listenSock upper : BitVec 32) : Inv (start listenSock upper) :=
  ⟨fun j p h => absurd h (by simp [start]),trivial⟩

theorem Inv.drained {s : Server} (h : Inv s) : Drained s := by
  intro hblocked hedge p hp hlive
  obtain ⟨j,hj⟩ := List.getElem?_of_mem hp
  by_contra hne
  rcases h.announced j p hj hlive (by omega) with he | he
  · have hpending : edgePending s=true := by
      rw [edgePending,Bool.or_eq_true]
      exact Or.inr (List.any_eq_true.mpr ⟨p,hp,by rw [hlive,he]; rfl⟩)
    rw [hedge] at hpending
    exact absurd hpending (by simp)
  · cases hphase : s.phase with
    | blocked =>
      rw [hphase] at he
      exact he
    | _ =>
      rw [hphase] at hblocked
      exact absurd hblocked (by simp [Phase.isBlocked])

section

variable {s : Server}

theorem arrive_queued (k : Sock) (a : Arrival) (h : 0<(k.arrive a).queued) :
    0<k.queued ∨ k.news a=true := by
  cases a with
  | bytes n =>
    by_cases hc : (k.eof || k.reset)=true
    · simp only [Sock.arrive,if_pos hc] at h
      exact Or.inl h
    · simp only [Sock.arrive,if_neg hc] at h
      by_cases hn : 0<n
      · exact Or.inr (by simp only [Sock.news,decide_eq_true hn,Bool.true_and]; simpa using hc)
      · exact Or.inl (by omega)
  | shutdown => exact Or.inl h
  | reset => exact Or.inl h

theorem arrive_inv (h : Inv s) (j : Nat) (a : Arrival) : Inv (step s (.arrive j a)) := by
  constructor
  · intro i p hp hlive hq
    simp only [step,List.getElem?_modify] at hp
    by_cases hij : j=i
    · obtain ⟨p₀,hp₀,rfl⟩ := Option.map_eq_some_iff.mp hp
      simp only [if_pos hij] at hlive hq ⊢
      rcases arrive_queued p₀.sock a hq with hq | hn
      · rcases h.announced i p₀ hp₀ hlive hq with he | he
        · exact Or.inl (by rw [Peer.arrive,he]; rfl)
        · exact Or.inr he
      · exact Or.inl (by rw [Peer.arrive,hn,Bool.or_true])
    · obtain ⟨p₀,hp₀,rfl⟩ := Option.map_eq_some_iff.mp hp
      simp only [if_neg hij] at hlive hq ⊢
      exact h.announced i p₀ hp₀ hlive hq
  · refine h.phase.mono _ (fun i p hp => ⟨if j=i then p.arrive a else p,?_,?_,?_⟩)
    · change (s.peers.modify j (Peer.arrive a))[i]?=_
      rw [List.getElem?_modify,hp]
      rfl
    · split <;> rfl
    · split <;> rfl

theorem connect_inv (h : Inv s) : Inv (step s .connect) := ⟨h.announced,h.phase⟩

theorem early_inv (h : Inv s) (b : Nat) (a : Arrival) : Inv (step s (.early b a)) :=
  ⟨h.announced,h.phase⟩

theorem reports_some (batch : List Origin) (events : List (EpollEvent × Origin))
    (h : reports s batch=some events) :
    events.map Prod.snd=batch ∧ ∀ x∈events,report s x.2=some x.1 := by
  induction batch generalizing events with
  | nil =>
    rw [reports,Option.some_inj] at h
    rw [← h]
    simp
  | cons o batch ih =>
    simp only [reports,Option.bind_eq_bind,Option.bind_eq_some_iff,Option.pure_def] at h
    obtain ⟨e,he,rest,hrest,hevents⟩ := h
    rw [← Option.some_inj.mp hevents]
    obtain ⟨hmap,hall⟩ := ih rest hrest
    refine ⟨by rw [List.map_cons,hmap],fun x hx => ?_⟩
    rcases List.mem_cons.mp hx with rfl | hx
    · exact he
    · exact hall x hx

theorem report_peer (j : Nat) (e : EpollEvent) (h : report s (.peer j)=some e) :
    ∃ p,s.peers[j]?=some p ∧ p.live=true ∧ p.edge=true ∧ e.data=p.ptr ∧ e.input=true := by
  rw [report] at h
  cases hp : s.peers[j]? with
  | none =>
    rw [hp] at h
    exact absurd h (by simp)
  | some p =>
    simp only [hp] at h
    by_cases hc : (p.live && p.edge)=true
    · rw [if_pos hc,Option.some_inj] at h
      obtain ⟨hlive,hedge⟩ := Bool.and_eq_true_iff.mp hc
      exact ⟨p,rfl,hlive,hedge,by rw [← h]; rfl,by rw [← h]; rfl⟩
    · rw [if_neg hc] at h
      exact absurd h (by simp)

theorem report_listener (e : EpollEvent) (h : report s .listener=some e) :
    e.fd=s.listenSock := by
  rw [report] at h
  by_cases hc : s.listenEdge=true
  · rw [if_pos hc,Option.some_inj] at h
    rw [← h]
    exact Ready.entry_listener _ _ s.upper rfl
  · rw [if_neg hc] at h
    exact absurd h (by simp)

/-- The edges that epoll_wait lowers are the events of the new batch. -/
theorem wait_inv (h : Inv s) (batch : List Origin) : Inv (step s (.wait batch)) := by
  cases hs : s.phase with
  | handling i seen events =>
    simp only [step,hs]
    exact h
  | stopped =>
    simp only [step,hs]
    exact h
  | blocked =>
    simp only [step,hs,epollWait]
    cases hr : reports s batch with
    | none => exact h
    | some events =>
      simp only
      by_cases hc : batch.Nodup ∧ batch.length ≤ maxEpollFds
      · rw [if_pos hc]
        obtain ⟨hmap,hall⟩ := reports_some batch events hr
        constructor
        · intro j p hp hlive hq
          rw [List.getElem?_mapIdx] at hp
          obtain ⟨p₀,hp₀,rfl⟩ := Option.map_eq_some_iff.mp hp
          by_cases hmem : .peer j∈batch
          · rw [← hmap] at hmem
            obtain ⟨x,hx,hxj⟩ := List.mem_map.mp hmem
            obtain ⟨k,hk⟩ := List.getElem?_of_mem hx
            exact Or.inr ⟨k,x.1,Nat.zero_le k,by rw [hk,← hxj]⟩
          · simp only [lower,if_neg hmem] at hlive hq ⊢
            rcases h.announced j p₀ hp₀ hlive hq with he | he
            · exact Or.inl he
            · rw [hs] at he
              exact absurd he not_false
        · refine ⟨Or.inl le_rfl,by rw [hmap]; exact hc.1,fun k e o hk => ?_⟩
          have hreport := hall (e,o) (List.mem_of_getElem? hk)
          cases o with
          | listener => exact report_listener (s := s) e hreport
          | peer j =>
            obtain ⟨p,hp,hlive,-,hdata,hin⟩ := report_peer j e hreport
            refine ⟨lower batch j p,?_,hin,?_⟩
            · rw [List.getElem?_mapIdx,hp]
              rfl
            · have hsame : (lower batch j p).live=p.live ∧ (lower batch j p).ptr=p.ptr := by
                rw [lower]
                split <;> exact ⟨rfl,rfl⟩
              rw [hsame.1,hsame.2,hlive,if_pos rfl,hdata]
      · rw [if_neg hc]
        exact h

/-- The loop has looked at event i and goes on at i', past no event it has not looked at. -/
theorem advance_inv (h : Inv s) {i seen : Nat} {events : List (EpollEvent × Origin)}
    (hs : s.phase=.handling i seen events) {e : EpollEvent} {o : Origin}
    (hi : events[i]?=some (e,o)) (s₁ : Server) (i' : Nat) (e' : EpollEvent)
    (hsock : s₁.listenSock=s.listenSock)
    (hnext : i' ≤ max seen (i+1) ∨ events.length ≤ max seen (i+1))
    (hentry : EntryOk s.listenSock s₁.peers e' o)
    (hothers : ∀ j p,.peer j≠o → s.peers[j]?=some p → s₁.peers[j]?=some p)
    (hann : ∀ j p,s₁.peers[j]?=some p → p.live=true → 0<p.sock.queued →
      p.edge=true ∨ (.peer j≠o ∧ s.peers[j]?=some p)) :
    Inv { s₁ with phase := .handling i' (max seen (i+1)) (events.set i (e',o)) } := by
  have hphase := h.phase
  rw [hs] at hphase
  obtain ⟨hbound,hnd,hentries⟩ := hphase
  have hlt : i<events.length := (List.getElem?_eq_some_iff.mp hi).1
  have hdiff : ∀ (k : Nat) (x : EpollEvent × Origin),events[k]?=some x → k≠i → x.2≠o := by
    intro k x hk hki heq
    have hk' : (events.map Prod.snd)[k]?=some o := by rw [List.getElem?_map,hk,← heq]; rfl
    have hi' : (events.map Prod.snd)[i]?=some o := by rw [List.getElem?_map,hi]; rfl
    have hinj := List.getElem?_inj (j := i) (List.getElem?_eq_some_iff.mp hk').1 hnd
    exact hki (hinj.mp (hk'.trans hi'.symm))
  constructor
  · intro j p hp hlive hq
    rcases hann j p hp hlive hq with he | ⟨hjo,hold⟩
    · exact Or.inl he
    · rcases h.announced j p hold hlive hq with he | he
      · exact Or.inl he
      · rw [hs] at he
        obtain ⟨k,e₀,hk,hevent⟩ := he
        have hki : k≠i := by
          intro hrefl
          subst hrefl
          rw [hi,Option.some_inj,Prod.mk.injEq] at hevent
          exact hjo hevent.2.symm
        have hklt := (List.getElem?_eq_some_iff.mp hevent).1
        refine Or.inr ⟨k,e₀,by omega,?_⟩
        rw [List.getElem?_set_ne (Ne.symm hki)]
        exact hevent
  · refine ⟨by rw [List.length_set]; exact hnext,?_,fun k x o' hk => ?_⟩
    · have hsame : (events.set i (e',o)).map Prod.snd=events.map Prod.snd := by
        rw [List.map_set]
        apply List.ext_getElem?
        intro k
        by_cases hki : i=k
        · rw [← hki,List.getElem?_set_self (by rw [List.length_map]; exact hlt),
            List.getElem?_map,hi]
          rfl
        · rw [List.getElem?_set_ne hki]
      rw [hsame]
      exact hnd
    · rw [hsock]
      by_cases hki : k=i
      · rw [hki,List.getElem?_set_self hlt,Option.some_inj,Prod.mk.injEq] at hk
        rw [← hk.1,← hk.2]
        exact hentry
      · rw [List.getElem?_set_ne (Ne.symm hki)] at hk
        have hok := hentries k x o' hk
        have hne := hdiff k (x,o') hk hki
        cases o' with
        | listener => exact hok
        | peer j =>
          obtain ⟨p,hp,hin,hdata⟩ := hok
          exact ⟨p,hothers j p hne hp,hin,hdata⟩

/-- The batch is at its end and nothing in it was left out. -/
theorem leave_inv (h : Inv s) {i seen : Nat} {events : List (EpollEvent × Origin)}
    (hs : s.phase=.handling i seen events) (hi : events[i]?=none) :
    Inv { s with phase := .blocked } := by
  have hphase := h.phase
  rw [hs] at hphase
  have hend := List.getElem?_eq_none_iff.mp hi
  refine ⟨fun j p hp hlive hq => ?_,trivial⟩
  rcases h.announced j p hp hlive hq with he | he
  · exact Or.inl he
  · rw [hs] at he
    obtain ⟨k,e,hk,hevent⟩ := he
    have hklt := (List.getElem?_eq_some_iff.mp hevent).1
    have := hphase.1
    omega

theorem stop_inv : Inv { s with phase := .stopped } :=
  ⟨fun _ _ _ _ _ => Or.inr trivial,trivial⟩

/-- What an iteration does at the listener or at a cleaned connection. -/
theorem iteration_quiet (listenSock : BitVec 32) (calls : Calls) (t i : Nat) (e : EpollEvent)
    (h : e.fd=listenSock ∨ e.data=0 ∧ e.input=true) :
    iteration listenSock calls t i e=.next (i+1) e .accept ∨
    iteration listenSock calls t i e=.next (i+1) e .skipped ∨
    iteration listenSock calls t i e=.aborted := by
  rw [iteration]
  by_cases hfd : e.fd=listenSock
  · rw [if_pos hfd]
    split
    · exact Or.inl rfl
    · exact Or.inr (Or.inr rfl)
  · obtain ⟨hdata,hin⟩ := h.resolve_left hfd
    have hneg : e.fd.toInt≤0 := by rw [EpollEvent.fd,hdata]; decide
    rw [if_neg hfd,if_pos hin,if_pos hneg]
    exact Or.inr (Or.inl rfl)

theorem perform_peers (o : Origin) (e : EpollEvent) (ptr : BitVec 64) (added : Bool)
    (action : Action) (hact : action=.accept ∨ action=.skipped) :
    (perform s o e ptr added action).listenSock=s.listenSock ∧
    (∀ (j : Nat) p,s.peers[j]?=some p →
      (perform s o e ptr added action).peers[j]?=some p) ∧
    ∀ (j : Nat) p,(perform s o e ptr added action).peers[j]?=some p → 0<p.sock.queued →
      p.edge=true ∨ s.peers[j]?=some p := by
  rcases hact with rfl | rfl
  · cases hb : s.backlog with
    | nil =>
      simp only [perform,hb]
      exact ⟨trivial,fun _ _ hp => hp,fun _ _ hp _ => Or.inr hp⟩
    | cons k backlog =>
      simp only [perform,hb]
      refine ⟨trivial,fun j p hp => ?_,fun j p hp hq => ?_⟩
      · rw [List.getElem?_append_left (List.getElem?_eq_some_iff.mp hp).1]
        exact hp
      · by_cases hj : j < s.peers.length
        · rw [List.getElem?_append_left hj] at hp
          exact Or.inr hp
        · rw [List.getElem?_append_right (by omega)] at hp
          have hnew := List.mem_singleton.mp (List.mem_of_getElem? hp)
          rw [hnew] at hq ⊢
          exact Or.inl (by simp only [Sock.ready,decide_eq_true hq,Bool.true_or])
  · exact ⟨rfl,fun _ _ hp => hp,fun _ _ hp _ => Or.inr hp⟩

/-- At the listener and at a cleaned connection the loop takes the next event. -/
theorem quiet_inv (h : Inv s) {i seen : Nat} {events : List (EpollEvent × Origin)}
    (hs : s.phase=.handling i seen events) {e : EpollEvent} {o : Origin}
    (hi : events[i]?=some (e,o)) (ptr : BitVec 64) (added : Bool) (action : Action)
    (hact : action=.accept ∨ action=.skipped) (hentry : EntryOk s.listenSock s.peers e o)
    (hgone : ∀ j p,.peer j=o → s.peers[j]?=some p → p.live=false) :
    Inv { perform s o e ptr added action with
      phase := .handling (i+1) (max seen (i+1)) (events.set i (e,o)) } := by
  obtain ⟨hsock,hkeep,hnew⟩ := perform_peers (s := s) o e ptr added action hact
  refine advance_inv h hs hi _ _ _ hsock (Or.inl (Nat.le_max_right _ _)) ?_
    (fun j p _ hp => hkeep j p hp) ?_
  · exact hentry.mono _ (fun j p hp => ⟨p,hkeep j p hp,rfl,rfl⟩)
  · intro j p hp hlive hq
    rcases hnew j p hp hq with he | hold
    · exact Or.inl he
    · refine Or.inr ⟨fun hjo => ?_,hold⟩
      rw [hgone j p hjo hold] at hlive
      exact absurd hlive (by simp)

/-- The recv() for an event of connection j, whatever it gives, goes with what becomes of the
connection. -/
theorem received_inv (h : Inv s) {i seen : Nat} {events : List (EpollEvent × Origin)}
    (hs : s.phase=.handling i seen events) {e : EpollEvent} {j : Nat}
    (hi : events[i]?=some (e,.peer j)) (ptr ptr' : BitVec 64) (added : Bool) (p : Peer)
    (hp : s.peers[j]?=some p) (i' : Nat) (e' : EpollEvent)
    (hnext : i' ≤ max seen (i+1) ∨ events.length ≤ max seen (i+1))
    (hin : e'.input=true)
    (hdata : e'.data=if (p.received e').live then (p.received e').ptr else 0)
    (hleft : (p.received e').live=true → 0<(p.received e').sock.queued →
      (p.received e').edge=true) :
    Inv { perform s (.peer j) e' ptr added (.recv ptr') with
      phase := .handling i' (max seen (i+1)) (events.set i (e',.peer j)) } := by
  have hget : ∀ k : Nat,(s.peers.modify j (Peer.received e'))[k]?=
      (s.peers[k]?).map fun q => if j=k then q.received e' else q :=
    fun k => List.getElem?_modify _ _ _ _
  refine advance_inv h hs hi (perform s (.peer j) e' ptr added (.recv ptr')) i' e' rfl hnext
    ?_ ?_ ?_
  · refine ⟨p.received e',?_,hin,hdata⟩
    change (s.peers.modify j (Peer.received e'))[j]?=_
    rw [hget,hp,Option.map_some,if_pos rfl]
  · intro k q hk hq
    change (s.peers.modify j (Peer.received e'))[k]?=_
    rw [hget,hq,Option.map_some,if_neg (fun hjk => hk (by rw [hjk]))]
  · intro k q hq hlive hqueued
    change (s.peers.modify j (Peer.received e'))[k]?=_ at hq
    rw [hget] at hq
    obtain ⟨q₀,hq₀,rfl⟩ := Option.map_eq_some_iff.mp hq
    by_cases hjk : j=k
    · subst hjk
      rw [hp,Option.some_inj] at hq₀
      subst hq₀
      rw [if_pos rfl] at hlive hqueued ⊢
      exact Or.inl (hleft hlive hqueued)
    · rw [if_neg hjk] at hlive hqueued ⊢
      exact Or.inr ⟨fun hk => hjk (Origin.peer.inj hk).symm,hq₀⟩

/-- A recv() that ends the connection: it is cleaned, and its entry with it. -/
theorem gone_inv (h : Inv s) {i seen : Nat} {events : List (EpollEvent × Origin)}
    (hs : s.phase=.handling i seen events) {e : EpollEvent} {j : Nat}
    (hi : events[i]?=some (e,.peer j)) (ptr ptr' : BitVec 64) (added : Bool) (p : Peer)
    (hp : s.peers[j]?=some p) (hin : e.input=true)
    (hrec : ∀ e',p.received e'={ p with live := false }) :
    Inv { perform s (.peer j) { e with data := 0 } ptr added (.recv ptr') with
      phase := .handling (i+1) (max seen (i+1)) (events.set i ({ e with data := 0 },.peer j)) } := by
  refine received_inv h hs hi ptr ptr' added p hp _ _ (Or.inl (Nat.le_max_right _ _)) hin ?_ ?_
  · rw [hrec]
    rfl
  · rw [hrec]
    intro hlive
    exact absurd hlive (by simp)

theorem received_data (p : Peer) (e : EpollEvent) (nr : Nat) (hpos : 0<nr) (hfits : nr≤1500)
    (h : p.sock.recv=.data nr hpos hfits) : p.received e={ p with
      readStatistics := e.readStatistics
      sock := { p.sock with queued := p.sock.queued-nr } } := by
  simp only [Peer.received,h]

theorem recv_data (k : Sock) (nr : Nat) (hpos : 0<nr) (hfits : nr≤1500)
    (h : k.recv=.data nr hpos hfits) : nr=min k.queued 1500 ∧ 0<k.queued := by
  rw [Sock.recv] at h
  split at h
  · rename_i hq
    injection h with h
    exact ⟨h.symm,hq⟩
  · split at h
    · cases h
    · split at h <;> cases h

theorem recv_again (k : Sock) (h : k.recv=.again) : k.queued=0 := by
  rw [Sock.recv] at h
  split at h
  · cases h
  · omega

/-- An iteration at a connection that its event leads to. -/
theorem live_inv (h : Inv s) {i seen : Nat} {events : List (EpollEvent × Origin)}
    (hs : s.phase=.handling i seen events) {e : EpollEvent} {j : Nat}
    (hi : events[i]?=some (e,.peer j)) (p : Peer) (hp : s.peers[j]?=some p)
    (hlive : p.live=true) (hin : e.input=true) (hdata : e.data=p.ptr)
    (hdrains : drains s.listenSock p i seen events.length=true) (ptr : BitVec 64)
    (added : Bool) (sends : List SendResult) : Inv (turn s ptr added sends) := by
  simp only [drains,tagged,Bool.and_eq_true,Bool.or_eq_true,decide_eq_true_eq] at hdrains
  obtain ⟨⟨⟨hfd,hpos⟩,hfew⟩,hindex⟩ := hdrains
  have hne : p.ptr≠0 := by
    intro h0
    rw [h0] at hpos
    exact absurd hpos (by decide)
  have hfd' : ¬e.fd=s.listenSock := by rw [EpollEvent.fd,hdata]; exact hfd
  have hpos' : ¬e.fd.toInt≤0 := by rw [EpollEvent.fd,hdata]; omega
  simp only [turn,hs,hi,recvOf,hp]
  rw [iteration,if_neg hfd',if_pos hin,if_neg hpos',if_pos (by rw [hdata]; exact hne)]
  cases hr : p.sock.recv with
  | data nr hnr hfits =>
    obtain ⟨hmin,hq⟩ := recv_data p.sock nr hnr hfits hr
    simp only
    cases hw : sockWriteBytes sends (replyLength (e.readStatistics+nr)) with
    | wrote t =>
      simp only
      have hrec := received_data p { e with readStatistics := e.readStatistics+nr } nr hnr hfits hr
      refine received_inv h hs hi ptr _ added p hp _ _ ?_ hin ?_ ?_
      · rw [hmin]
        omega
      · rw [hrec,hlive,if_pos rfl]
        exact hdata
      · rw [hrec]
        intro _ hleft
        have hleft' : 0<p.sock.queued-nr := hleft
        exact hfew.resolve_left (by omega)
    | aborted => exact stop_inv
    | waiting => exact stop_inv
  | shutdown =>
    simp only
    exact gone_inv h hs hi ptr _ added p hp hin (fun e' => by simp only [Peer.received,hr])
  | failed =>
    simp only
    exact gone_inv h hs hi ptr _ added p hp hin (fun e' => by simp only [Peer.received,hr])
  | again =>
    have hrec : p.received e=p := by simp only [Peer.received,hr]
    have hq := recv_again p.sock hr
    simp only
    refine received_inv h hs hi ptr _ added p hp _ _ (Or.inl (Nat.le_max_right _ _)) hin ?_ ?_
    · rw [hrec,hlive,if_pos rfl]
      exact hdata
    · rw [hrec]
      intro _ hleft
      omega

/-- A turn at an event that leads to no live connection. -/
theorem quiet_turn_inv (h : Inv s) {i seen : Nat} {events : List (EpollEvent × Origin)}
    (hs : s.phase=.handling i seen events) {e : EpollEvent} {o : Origin}
    (hi : events[i]?=some (e,o)) (hentry : EntryOk s.listenSock s.peers e o)
    (hquiet : e.fd=s.listenSock ∨ e.data=0 ∧ e.input=true)
    (hgone : ∀ j p,.peer j=o → s.peers[j]?=some p → p.live=false) (ptr : BitVec 64)
    (added : Bool) (sends : List SendResult) : Inv (turn s ptr added sends) := by
  simp only [turn,hs,hi]
  rcases iteration_quiet s.listenSock
    ⟨fun _ _ => !s.backlog.isEmpty,fun _ _ => recvOf s o,fun _ _ => sends⟩ 0 i e hquiet
    with hit | hit | hit
  · rw [hit]
    exact quiet_inv h hs hi ptr added .accept (Or.inl rfl) hentry hgone
  · rw [hit]
    exact quiet_inv h hs hi ptr added .skipped (Or.inr rfl) hentry hgone
  · rw [hit]
    exact stop_inv

theorem turn_inv (h : Inv s) (ptr : BitVec 64) (added : Bool) (sends : List SendResult)
    (hord : orderly s (.turn ptr added sends)=true) : Inv (turn s ptr added sends) := by
  cases hs : s.phase with
  | blocked =>
    simp only [turn,hs]
    exact h
  | stopped =>
    simp only [turn,hs]
    exact h
  | handling i seen events =>
    cases hi : events[i]? with
    | none =>
      simp only [turn,hs,hi]
      exact leave_inv h hs hi
    | some x =>
      obtain ⟨e,o⟩ := x
      have hphase := h.phase
      rw [hs] at hphase
      have hentry := hphase.2.2 i e o hi
      cases o with
      | listener =>
        refine quiet_turn_inv h hs hi hentry (Or.inl hentry) ?_ ptr added sends
        intro j p hj
        exact absurd hj (by simp)
      | peer j =>
        obtain ⟨p,hp,hin,hdata⟩ := hentry
        cases hlive : p.live with
        | false =>
          rw [hlive,if_neg (by simp)] at hdata
          refine quiet_turn_inv h hs hi (hphase.2.2 i e _ hi) (Or.inr ⟨hdata,hin⟩) ?_
            ptr added sends
          intro k q hk hq
          rw [Origin.peer.inj hk,hp,Option.some_inj] at hq
          rw [← hq]
          exact hlive
        | true =>
          rw [hlive,if_pos rfl] at hdata
          simp only [orderly,hs,hi,hp,hlive,Bool.not_true,Bool.false_or] at hord
          exact live_inv h hs hi p hp hlive hin hdata hord ptr added sends

theorem step_inv (h : Inv s) (x : Input) (hord : orderly s x=true) : Inv (step s x) := by
  cases x with
  | connect => exact connect_inv h
  | early b a => exact early_inv h b a
  | arrive j a => exact arrive_inv h j a
  | wait batch => exact wait_inv h batch
  | turn ptr added sends => exact turn_inv h ptr added sends hord

theorem run_inv (h : Inv s) (inputs : List Input) (hord : allOrderly s inputs=true) :
    Inv (run s inputs) := by
  induction inputs generalizing s with
  | nil => exact h
  | cons x inputs ih =>
    obtain ⟨hx,hrest⟩ := Bool.and_eq_true_iff.mp hord
    exact ih (step_inv h x hx) hrest

end

/-- In a run whose turns are orderly no input is left behind when the server waits. -/
theorem epoll_drained_of_orderly (listenSock upper : BitVec 32) (inputs : List Input)
    (hord : allOrderly (start listenSock upper) inputs=true) :
    Drained (run (start listenSock upper) inputs) :=
  (run_inv (start_inv listenSock upper) inputs hord).drained

/-- A client connects, is accepted, and sends n bytes in one burst, which its event is then
handled for. -/
def burst (n : Nat) : List Input :=
  [.connect,.wait [.listener],.turn 0x55555a2b0010 true [],.turn 0 true [],.arrive 0 (.bytes n),
    .wait [.peer 0],.turn 0 true [.sent 100],.turn 0 true []]

theorem epoll_drained_of_orderly_buffer :
    allOrderly (start 3 0) (burst 1500)=true ∧ Drained (run (start 3 0) (burst 1500)) ∧
    (run (start 3 0) (burst 1500)).phase.isBlocked=true :=
  ⟨by decide,epoll_drained_of_orderly 3 0 (burst 1500) (by decide),
    by decide⟩

/-- Of a burst of 2000 bytes the last 500 stay behind. -/
theorem epoll_strands_input :
    (run (start 3 0) (burst 2000)).peers.map (fun p => (p.live,p.sock.queued))=[(true,500)] ∧
    ¬Drained (run (start 3 0) (burst 2000)) := by
  have hpeers : (run (start 3 0) (burst 2000)).peers.map (fun p => (p.live,p.sock.queued))=
      [(true,500)] := by decide
  refine ⟨hpeers,fun h => ?_⟩
  have hmem : (true,500)∈(run (start 3 0) (burst 2000)).peers.map
      (fun p => (p.live,p.sock.queued)) := by
    rw [hpeers]
    exact List.mem_singleton_self _
  obtain ⟨p,hp,hpair⟩ := List.mem_map.mp hmem
  obtain ⟨hlive,hqueued⟩ := Prod.mk.inj hpair
  have hempty := h (by decide) (by decide) p hp hlive
  omega

end IdearNiu.Socket.EdgeTriggered
