import IdearNiu.Tls.SslRecv

namespace IdearNiu.Tls

open Memory SharedCell

section

variable {κ σ : Type}

/-- The bytes that the results of mbedtls_ssl_read have placed in the buffer. -/
def placed (results : List Int) : Int := (results.filter (0<·)).sum

/-- What a caller may rely on: a negative value, or the number of bytes placed. -/
def InRange (len : Nat) (results : List Int) (ret : Int) : Prop :=
  ret<0 ∨ (ret=placed results ∧ ret≤len)

/-- The state of the connections and net_status after earlier calls. -/
def history [DecidableEq κ] (tls : Mbedtls σ) (fuel : Nat) :
    (κ → σ) → Int → List (κ × Request) → Option ((κ → σ) × Int)
  | conns,netStatus,[] => some (conns,netStatus)
  | conns,netStatus,(k,req)::calls =>
    match sslRecv tls fuel (conns k) req netStatus with
    | none => none
    | some o => history tls fuel (Function.update conns k o.conn) o.netStatus calls

theorem history_isStatus [DecidableEq κ] (tls : Mbedtls σ) (fuel : Nat) (conns conns' : κ → σ)
    (s s' : Int) (calls : List (κ × Request)) (hs : isStatus s)
    (h : history tls fuel conns s calls=some (conns',s')) : isStatus s' := by
  induction calls generalizing conns s with
  | nil =>
    rw [history,Option.some_inj,Prod.mk.injEq] at h
    exact h.2 ▸ hs
  | cons c calls ih =>
    obtain ⟨k,req⟩ := c
    rw [history,sslRecv,sslRecvLoop_eq] at h
    cases hr : readsLoop tls req.len fuel (tls.confReadTimeout (conns k) req.timeout)
        req.buf 0 with
    | none => simp [hr] at h
    | some r =>
      rw [hr,Option.map_some] at h
      exact ih _ _ (foldl_mark_isStatus r.results s hs) h

theorem placed_cons (ret : Int) (results : List Int) (h : 0<ret) :
    placed (ret::results)=ret+placed results := by
  simp only [placed,List.filter_cons,h,decide_true,if_true,List.sum_cons]

/-- The counter follows the bytes placed and stays within the request. -/
theorem readsLoop_placed (tls : Mbedtls σ) (hb : Bounded tls) (len fuel : Nat) (conn : σ)
    (buf : List Byte) (n : Nat) (r : Reading σ) (hlen : len<4294967296) (hn : n≤len)
    (h : readsLoop tls len fuel conn buf n=some r) :
    (r.readLen : Int)=n+placed r.results ∧ r.readLen≤len := by
  induction fuel generalizing conn buf n r with
  | zero => cases h
  | succ fuel ih =>
    have hret := hb conn (len-n)
    rcases readsLoop_pass tls len fuel conn buf n r h with
      ⟨_,rfl⟩|⟨hlt,ret,buf',conn',hread,⟨hpos,rfl⟩|⟨hpos,t,ht,rfl⟩⟩
    · simp [placed,hn]
    · simp [placed,hpos,hn]
    · rw [hread] at hret
      rw [Nat.mod_eq_of_lt (by omega)] at ht
      obtain ⟨hlength,hle⟩ := ih _ _ _ t (by omega) ht
      refine ⟨?_,hle⟩
      rw [placed_cons ret t.results hpos,hlength]
      omega

/-- A pause gives the number of bytes read, a failure a negative value. -/
theorem answer_other (buf : List Byte) (n : Nat) (conn : σ) (ret s : Int) (hpos : ¬0<ret)
    (hclose : ret≠errPeerCloseNotify) (hzero : ret≠0) :
    answer ⟨[ret],buf,n,conn⟩ s<0 ∨ answer ⟨[ret],buf,n,conn⟩ s=n := by
  cases hsoft : readComplete ret with
  | true => exact Or.inr (answer_soft _ _ _ ret s hsoft)
  | false =>
    left
    rw [answer_fail _ _ _ ret s hpos hclose hzero hsoft]
    norm_num

/-- Once the call has data and a cleared status, it returns their number or fails. -/
theorem answer_after_data (tls : Mbedtls σ) (hb : Bounded tls) (len fuel : Nat) (conn : σ)
    (buf : List Byte) (n : Nat) (r : Reading σ) (hlen : len<4294967296) (hn : n≤len)
    (hpos : 0<n) (h : readsLoop tls len fuel conn buf n=some r) :
    answer r 0<0 ∨ answer r 0=r.readLen := by
  induction fuel generalizing conn buf n r with
  | zero => cases h
  | succ fuel ih =>
    have hret := hb conn (len-n)
    rcases readsLoop_pass tls len fuel conn buf n r h with
      ⟨_,rfl⟩|⟨hlt,ret,buf',conn',hread,⟨hp,rfl⟩|⟨hp,t,ht,rfl⟩⟩
    · right
      simp [answer,lengthOrStatus,hpos]
    · by_cases hzero : ret=0
      · rw [hzero,answer_end]
        exact Or.inr rfl
      by_cases hclose : ret=errPeerCloseNotify
      · right
        simp [hclose,answer,errPeerCloseNotify,lengthOrStatus,hpos]
      exact answer_other _ n _ ret 0 hp hclose hzero
    · rw [hread] at hret
      rw [Nat.mod_eq_of_lt (by omega)] at ht
      rw [answer_data t ret 0 hp]
      exact ih _ _ _ t (by omega) (by omega) ht

/-- The first result of mbedtls_ssl_read in a call. -/
def firstRead (tls : Mbedtls σ) (conn : σ) (req : Request) : Int :=
  (tls.sslRead (tls.confReadTimeout conn req.timeout) req.len).1

/-- The call does not end by handing out net_status as a length. -/
def NoStatusReturned (tls : Mbedtls σ) (conn : σ) (req : Request) (netStatus : Int) : Prop :=
  if req.len=0 then netStatus=0
  else firstRead tls conn req≠errPeerCloseNotify ∧
    (firstRead tls conn req=0 → netStatus≠-2)

theorem answer_inRange_iff (tls : Mbedtls σ) (hb : Bounded tls) (conn : σ) (req : Request)
    (s : Int) (r : Reading σ) (hs : isStatus s) (hlen : req.len<2^31)
    (h : reads tls (req.len+1) conn req=some r) :
    InRange req.len r.results (answer r s) ↔ NoStatusReturned tls conn req s := by
  obtain ⟨hp,hle⟩ := readsLoop_placed tls hb req.len _ _ _ 0 r (by omega) (Nat.zero_le _) h
  have hret := hb (tls.confReadTimeout conn req.timeout) req.len
  have hrange : answer r s<0 ∨ answer r s=r.readLen → InRange req.len r.results (answer r s) := by
    intro ha
    rcases ha with ha|ha
    · exact Or.inl ha
    · right
      rw [ha,hp]
      omega
  rw [NoStatusReturned]
  rcases readsLoop_pass tls req.len req.len _ _ 0 r h with
    ⟨hz,rfl⟩|⟨hlt,ret,buf',conn',hread,hpass⟩
  · -- Nothing is read, and the status is what is returned.
    obtain hz : req.len=0 := by omega
    have hans : answer (⟨[],req.buf,0,tls.confReadTimeout conn req.timeout⟩ : Reading σ) s=
        unsigned s := rfl
    rw [if_pos hz,hans]
    rcases hs with hs|hs|hs <;> subst hs <;> simp [InRange,placed,unsigned,hz]
  have hfirst : firstRead tls conn req=ret := hread
  rw [if_neg (by omega),hfirst]
  rw [show req.len-0=req.len from rfl] at hread
  rw [hread] at hret
  rcases hpass with ⟨hpos,rfl⟩|⟨hpos,t,ht,rfl⟩
  · by_cases hzero : ret=0
    · subst hzero
      rw [answer_end]
      rcases hs with hs|hs|hs <;> subst hs <;>
        simp [InRange,placed,unsigned,errPeerCloseNotify]
    by_cases hclose : ret=errPeerCloseNotify
    · subst hclose
      apply iff_of_false
      · simp [InRange,placed,answer,lengthOrStatus,errPeerCloseNotify,mark,unsigned]
      · exact fun hn => hn.1 rfl
    · apply iff_of_true
      · apply hrange
        exact answer_other _ _ _ ret s hpos hclose hzero
      · exact ⟨hclose,fun h0 => absurd h0 hzero⟩
  · apply iff_of_true
    · apply hrange
      rw [Nat.zero_add,Nat.mod_eq_of_lt (by omega)] at ht
      rw [answer_data t ret s hpos]
      exact answer_after_data tls hb req.len _ _ _ ret.toNat t (by omega) (by omega) (by omega) ht
    · exact ⟨by rw [errPeerCloseNotify]; omega,fun h0 => by omega⟩

/-- After every history a call returns, and its value is in range exactly when the call does
not end by handing out the status. -/
theorem ssl_recv_result_range_iff [DecidableEq κ] (tls : Mbedtls σ) (hb : Bounded tls)
    (fuel : Nat) (conns conns' : κ → σ) (s : Int) (earlier : List (κ × Request)) (k : κ)
    (req : Request) (hlen : req.len<2^31)
    (h : history tls fuel conns 0 earlier=some (conns',s)) :
    ∃ o r, sslRecv tls (req.len+1) (conns' k) req s=some o ∧
      reads tls (req.len+1) (conns' k) req=some r ∧
      (InRange req.len r.results o.ret ↔ NoStatusReturned tls (conns' k) req s) := by
  have hs := history_isStatus tls fuel conns conns' 0 s earlier (Or.inl rfl) h
  have hsome := readsLoop_returns tls hb req.len (req.len+1)
    (tls.confReadTimeout (conns' k) req.timeout) req.buf 0 (by omega) (Nat.zero_le _) (by omega)
  obtain ⟨r,hr⟩ := Option.isSome_iff_exists.mp hsome
  refine ⟨⟨answer r s,r.buf,r.conn,r.results.foldl mark s⟩,r,?_,hr,?_⟩
  · rw [sslRecv,sslRecvLoop_eq,hr,Option.map_some]
  · exact answer_inRange_iff tls hb (conns' k) req s r hs hlen hr

theorem scripted_bounded : Bounded scripted := by
  intro conn n
  cases conn with
  | nil => simp [scripted,errTimeout]
  | cons i rest =>
    cases i with
    | data bytes =>
      simp only [scripted]
      split_ifs with hl
      · exact Int.ofNat_le.mpr hl
      · exact le_refl _
    | eof => simp [scripted]
    | closeNotify => simp [scripted,errPeerCloseNotify]

/-- Two bytes after a closing alert on the other connection. -/
theorem ssl_recv_result_range_two :
    ∃ o r, sslRecv scripted 3 (twoPeers true) ⟨[0,0],2,1000⟩ (-2)=some o ∧
      reads scripted 3 (twoPeers true) ⟨[0,0],2,1000⟩=some r ∧ InRange 2 r.results o.ret := by
  obtain ⟨o,r,ho,hr,hi⟩ := ssl_recv_result_range_iff scripted scripted_bounded 2 twoPeers
    (Function.update twoPeers false []) (-2) [(false,⟨[0],1,1000⟩)] true ⟨[0,0],2,1000⟩
    (by norm_num) (by
      rw [history]
      have hc : sslRecv scripted 2 (twoPeers false) ⟨[0],1,1000⟩ 0=
          some ⟨4294967294,[0],[],-2⟩ := by rfl
      rw [hc]
      rfl)
  refine ⟨o,r,ho,hr,hi.mpr ?_⟩
  rw [NoStatusReturned,if_neg (by norm_num)]
  decide

/-- The closing alert of the peer comes out as 4294967294 bytes. -/
theorem ssl_recv_status_as_length :
    Bounded scripted ∧ ∃ o r, sslRecv scripted 2 [Item.closeNotify] ⟨[0],1,1000⟩ 0=some o ∧
      reads scripted 2 [Item.closeNotify] ⟨[0],1,1000⟩=some r ∧
      o.ret=4294967294 ∧ ¬InRange 1 r.results o.ret := by
  refine ⟨scripted_bounded,⟨4294967294,[0],[],-2⟩,⟨[errPeerCloseNotify],[0],0,[]⟩,rfl,rfl,rfl,?_⟩
  simp [InRange,placed,errPeerCloseNotify]

end

end IdearNiu.Tls
