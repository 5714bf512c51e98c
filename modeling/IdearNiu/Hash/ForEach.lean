import IdearNiu.Hash.Refinement

namespace IdearNiu.Hash

open Cyclic

/-- What the function mapped over the entries does when it is called: whether it removes the
entry it is given, whether it asks to stop, and the state behind arg afterwards. -/
structure Reaction (σ : Type) where
  remove : Bool
  stop : Bool
  arg : σ

/-- The state of hash_table_for_each, with the entries the function was called on, and for
each removal the cells before it and the cell of the entry. -/
structure Mapping (σ : Type) where
  ht : HashTable
  arg : σ
  called : List Cell
  removals : List (List Cell × Nat)
  stopped : Bool

section

variable {σ : Type}

/-- One call of the function on the entry of cell c. -/
def callOn (fn : σ → Cell → Reaction σ) (c : Nat) (s : Mapping σ) : Except Fault (Mapping σ) :=
  let entry := cellAt s.ht.cells c
  let r := fn s.arg entry
  if r.remove then do
    let (_,ht) ← hashTableRemove s.ht entry.key
    return ⟨ht,r.arg,s.called++[entry],s.removals++[(s.ht.cells,c)],r.stop⟩
  else .ok ⟨s.ht,r.arg,s.called++[entry],s.removals,r.stop⟩

/-- The code from the label repeat on, at cell c. -/
def repeatAt (fn : σ → Cell → Reaction σ) (c : Nat) :
    Nat → Mapping σ → Except Fault (Mapping σ)
  | 0,_ => .error .diverges
  | fuel+1,s => do
    let key := (cellAt s.ht.cells c).key
    let s' ← callOn fn c s
    if s'.stopped then return s'
    else if (cellAt s'.ht.cells c).key≠key ∧ occupied (cellAt s'.ht.cells c) then
      repeatAt fn c fuel s'
    else return s'

/-- The loop over the cells from c on, with left of them to go. -/
def forEachFrom (fn : σ → Cell → Reaction σ) : Nat → Nat → Mapping σ → Except Fault (Mapping σ)
  | 0,_,s => .ok s
  | left+1,c,s =>
    if occupied (cellAt s.ht.cells c) then do
      let s' ← repeatAt fn c s.ht.size s
      if s'.stopped then return s' else forEachFrom fn left (c+1) s'
    else forEachFrom fn left (c+1) s

def hashTableForEach (ht : HashTable) (fn : σ → Cell → Reaction σ) (arg : σ) :
    Except Fault (Mapping σ) :=
  forEachFrom fn ht.size 0 ⟨ht,arg,[],[],false⟩

end

/-- No probe leads over cell h: each entry stands at h or before it, seen from its home. -/
def Cut (hash : Ptr → BitVec 64) (n : Nat) (cells : List Cell) (h : Nat) : Prop :=
  ∀ i,i<n → occ cells i=true →
    dist n (hashPosition hash n (cellAt cells i).key) i≤
      dist n (hashPosition hash n (cellAt cells i).key) h

/-- Some cell from c to the end of the array lies on no probe. -/
def Separable (hash : Ptr → BitVec 64) (cells : List Cell) (c : Nat) : Prop :=
  ∃ h,c≤h ∧ h<cells.length ∧ Cut hash cells.length cells h

/-- The walk has one hole z behind q: the cells beyond it are as they were before the removal,
and it has not been moved over any cell that no probe led over. -/
structure Hole (hash : Ptr → BitVec 64) (old : List Cell) (n p : Nat) (cells : List Cell)
    (q z : Nat) : Prop where
  z_lt : z<n
  behind : dist n p z<dist n p q
  empty : occ cells z=false
  full : ∀ y,y<n → dist n p y<dist n p q → y≠z → occ cells y=true
  same : ∀ y,y<n → dist n p z<dist n p y → cellAt cells y=cellAt old y
  first : ∀ h,h<n → Cut hash n old h → dist n p z≤dist n p h

section

variable {hash : Ptr → BitVec 64} {test : Ptr → Ptr → Bool} {old cells : List Cell}
  {n p e q z : Nat}

theorem Hole.start (hlen : old.length=n) (hp : p<n) (hq : dist n p (next n p)=1) :
    Hole hash old n p (clearCell old p) (next n p) p where
  z_lt := hp
  behind := by rw [dist_self,hq]; exact Nat.zero_lt_one
  empty := occ_clearCell_self old p (by rw [hlen]; exact hp)
  full := by
    intro y hy hd hne
    rw [hq] at hd
    exact absurd (dist_eq_zero n p y hp hy (by omega)).symm hne
  same := by
    intro y hy hd
    apply cellAt_clearCell_ne
    intro bad
    rw [bad,dist_self] at hd
    exact lt_irrefl _ hd
  first := by
    intro h _ _
    rw [dist_self]
    exact Nat.zero_le _

theorem Hole.keep (hole : Hole hash old n p cells q z) (w : Walking hash test n p e cells q)
    (ho : occ cells q=true) : Hole hash old n p cells (next n q) z := by
  have hnext := (w.advance ho).1
  have hbehind := hole.behind
  refine ⟨hole.z_lt,by omega,hole.empty,?_,hole.same,hole.first⟩
  intro y hy hd hne
  by_cases hyq : y=q
  · rw [hyq]
    exact ho
  · have hdist : dist n p y≠dist n p q := fun h => hyq (dist_inj n p y q w.p_lt hy w.q_lt h)
    exact hole.full y hy (by omega) hne

/-- The key that is moved fills the hole, and leaves one behind. -/
theorem Hole.move (hole : Hole hash old n p cells q z) (w : Walking hash test n p e cells q)
    (ho : occ cells q=true) (x : Nat) (hx : x<n) (hox : occ cells x=false)
    (hxq : dist n (hashPosition hash n (cellAt cells q).key) x<
      dist n (hashPosition hash n (cellAt cells q).key) q) :
    Hole hash old n p (clearCell (cells.set x (cellAt cells q)) q) (next n q) q := by
  have hnext := (w.advance ho).1
  have hbehind := hole.behind
  have hxz : x=z := by
    by_contra hne
    have := hole.full x hx (w.holes q w.q_lt ho x hx hxq hox) hne
    rw [hox] at this
    cases this
  subst hxz
  have hne : x≠q := by
    intro bad
    rw [bad,ho] at hox
    cases hox
  have hlx : x<cells.length := by rw [w.length]; exact hx
  have hlq : q<cells.length := by rw [w.length]; exact w.q_lt
  refine ⟨w.q_lt,by omega,?_,?_,?_,?_⟩
  · exact occ_clearCell_self _ q (by rw [List.length_set]; exact hlq)
  · intro y hy hd hyq
    by_cases hyx : y=x
    · rw [hyx,occ,cellAt_moved hne hlx]
      exact ho
    · have hdist : dist n p y≠dist n p q := fun h => hyq (dist_inj n p y q w.p_lt hy w.q_lt h)
      exact occ_moved hne hlx ho hyq (hole.full y hy (by omega) hyx)
  · intro y hy hd
    have hyx : y≠x := by
      intro bad
      rw [bad] at hd
      omega
    have hyq : y≠q := by
      intro bad
      rw [bad] at hd
      exact lt_irrefl _ hd
    rw [cellAt_moved_ne hyx hyq]
    exact hole.same y hy (by omega)
  · intro h hh hcut
    by_contra hlow
    have hfirst := hole.first h hh hcut
    have hsame := hole.same q w.q_lt hbehind
    have hs := hashPosition_lt hash n (cellAt cells q).key (by omega)
    have hcross := dist_cross n p x h q _ w.p_lt hx hh w.q_lt hs hfirst (by omega) hxq
    have hq := hcut q w.q_lt (by rw [occ,← hsame]; exact ho)
    rw [← hsame] at hq
    omega

/-- The walk ends with one hole before the end of the cluster. -/
theorem Hole.run (refl : ∀ a,test a a=true) (fuel : Nat) (hole : Hole hash old n p cells q z)
    (w : Walking hash test n p e cells q) (hf : dist n q e<fuel) :
    ∃ cells',rehashFollowing hash n fuel cells q=.ok cells' ∧
      Probed hash test cells' n ∧ (entries cells').Perm (entries cells) ∧
      ∃ z',Hole hash old n p cells' e z' := by
  apply w.run_invariant refl (fun cells q => ∃ z,Hole hash old n p cells q z) _ _ fuel q
    ⟨z,hole⟩ hf
  · intro cells q w ho ⟨z,hole⟩
    exact ⟨z,hole.keep w ho⟩
  · intro cells q x w ho hx hox hxq ⟨z,hole⟩
    exact ⟨q,hole.move w ho x hx hox hxq⟩

/-- No probe led over the cell that ends up as the hole. -/
theorem Hole.cut (hole : Hole hash old n p cells e z) (hold : Probed hash test old n)
    (hnew : Probed hash test cells n) (hp : p<n) (he : e<n) (hempty : occ old e=false) :
    Cut hash n old z := by
  intro i hi ho
  by_contra hover
  have hs := hashPosition_lt hash n (cellAt old i).key hold.pos
  have hz := hole.z_lt
  rcases Nat.lt_or_ge (dist n p z) (dist n p i) with hlt|hge
  · -- beyond the hole nothing was moved, and there every path is whole
    have hsame := hole.same i hi hlt
    have hocc : occ cells i=true := by rw [occ,hsame]; exact ho
    have hfull := hnew.reach i hi hocc z hz (by rw [hsame]; omega)
    rw [hole.empty] at hfull
    cases hfull
  · -- before it a probe over the hole would come round over the end of the cluster
    have hbehind := hole.behind
    have hne : dist n z i≠0 := by
      intro h0
      rw [dist_eq_zero n z i hz hi h0] at hover
      exact hover le_rfl
    have hround : dist n z e<dist n z i := by
      have d1 := dist_spec n p z hp hz
      have d2 := dist_spec n p e hp he
      have d3 := dist_spec n p i hp hi
      have d4 := dist_spec n z e hz he
      have d5 := dist_spec n z i hz hi
      omega
    have hself := dist_self n z
    have hcross := dist_cross n z z e i _ hz hz he hi hs (by omega) (by omega) (by omega)
    have hfull := hold.reach i hi ho e he hcross
    rw [hempty] at hfull
    cases hfull

theorem entries_split (cells : List Cell) (c : Nat) :
    entries cells=entries (cells.take c)++entries (cells.drop c) := by
  rw [entries,entries,entries,← List.filter_append,List.take_append_drop]

theorem take_eq_of_cellAt (hlen : cells.length=old.length) (c : Nat)
    (h : ∀ y,y<c → y<old.length → cellAt cells y=cellAt old y) :
    cells.take c=old.take c := by
  apply List.ext_getElem
  · rw [List.length_take,List.length_take,hlen]
  · intro y hy hy'
    rw [List.length_take] at hy'
    have heq := h y (by omega) (by omega)
    rw [cellAt_eq cells y (by omega),cellAt_eq old y (by omega)] at heq
    rw [List.getElem_take,List.getElem_take,heq]

theorem entries_full (c : Nat)
    (h : ∀ y,c≤y → y<cells.length → occ cells y=true) : entries (cells.drop c)=cells.drop c := by
  apply List.filter_eq_self.mpr
  intro a ha
  obtain ⟨i,hi,rfl⟩ := List.getElem_of_mem ha
  rw [List.length_drop] at hi
  have hocc := h (c+i) (by omega) (by omega)
  rw [occ,cellAt_eq cells (c+i) (by omega)] at hocc
  rw [List.getElem_drop]
  exact hocc

/-- Removing the entry of cell p. When some cell from p on lies on no probe, the other entries
from p on stay there and none comes from before; otherwise one comes round the end. -/
theorem Probed.remove_split (refl : ∀ a,test a a=true) (h : Probed hash test old n)
    (hp : p<n) (ho : occ old p=true) (hroom : (entries old).length<n) :
    ∃ cells',rehashFollowing hash n n (clearCell old p) (next n p)=.ok cells' ∧
      (cellAt old p::entries cells').Perm (entries old) ∧
      (Separable hash old p →
        (cellAt old p::entries (cells'.drop p)).Perm (entries (old.drop p))) ∧
      (¬Separable hash old p →
        (entries (old.drop p)).length ≤ (entries (cells'.drop p)).length) := by
  obtain ⟨e,w⟩ := h.startWalk p hp hroom ho
  have hpe : p≠e := by
    intro bad
    have hb := w.bounded
    have hs := w.started
    rw [← bad,dist_self] at hb
    omega
  have hempty : occ old e=false := by
    rw [← occ_clearCell_ne old p e hpe]
    exact w.stop
  have hone : dist n p (next n p)=1 := by
    have d1 := dist_next_left n p e hp w.e_lt hpe
    have d2 := dist_spec n p e hp w.e_lt
    have d3 := dist_spec n p (next n p) hp w.q_lt
    have d4 := next_spec n p hp
    have d5 := w.started
    omega
  obtain ⟨cells',hrun,hprobed,hperm,z,hole⟩ := (Hole.start h.length hp hone).run refl n w
    (dist_spec n _ e w.q_lt w.e_lt).1
  have hall : (cellAt old p::entries cells').Perm (entries old) :=
    (hperm.cons _).trans (entries_clear old p (by rw [h.length]; exact hp) ho)
  have hz := dist_spec n p z hp hole.z_lt
  refine ⟨cells',hrun,hall,?_,?_⟩
  · intro hgiven
    obtain ⟨k,hpk,hk,hcut⟩ := hgiven
    rw [h.length] at hk hcut
    have hfirst := hole.first k hk hcut
    have hk' := dist_spec n p k hp hk
    have htake : cells'.take p=old.take p := by
      apply take_eq_of_cellAt (by rw [hprobed.length,h.length])
      intro y hy _
      have hy' := dist_spec n p y hp (by omega)
      exact hole.same y (by omega) (by omega)
    rw [entries_split cells' p,entries_split old p,htake] at hall
    exact (List.perm_append_left_iff _).mp (List.perm_middle.trans hall)
  · intro hno
    have hzp : z<p := by
      by_contra hge
      apply hno
      refine ⟨z,by omega,by rw [h.length]; exact hole.z_lt,?_⟩
      rw [h.length]
      exact hole.cut h hprobed hp w.e_lt hempty
    have hfull : entries (cells'.drop p)=cells'.drop p := by
      apply entries_full
      intro y hpy hy
      rw [hprobed.length] at hy
      have hy' := dist_spec n p y hp hy
      have hbehind := hole.behind
      exact hole.full y hy (by omega) (by omega)
    have hle : (entries (old.drop p)).length ≤ (old.drop p).length := List.length_filter_le _ _
    rw [hfull,List.length_drop,hprobed.length]
    rwa [List.length_drop,h.length] at hle

end

/-- Removing the entry of a cell from a table in order. -/
theorem Sound.remove_entry {ht : HashTable} {m : List Cell} (h : Sound ht m) (c : Nat)
    (hc : c<ht.size) (ho : occ ht.cells c=true) :
    ∃ cells,hashTableRemove ht (cellAt ht.cells c).key=
        .ok (true,{ ht with cells := cells, count := ht.count-1 }) ∧
      (∃ m',Sound { ht with cells := cells, count := ht.count-1 } m') ∧
      (cellAt ht.cells c::entries cells).Perm (entries ht.cells) ∧
      (Separable ht.hashFunction ht.cells c →
        (cellAt ht.cells c::entries (cells.drop c)).Perm (entries (ht.cells.drop c))) ∧
      (¬Separable ht.hashFunction ht.cells c →
        (entries (ht.cells.drop c)).length ≤ (entries (cells.drop c)).length) := by
  obtain ⟨cells,hwalk,hall,hsplit⟩ := h.probed.remove_split h.law.refl hc ho h.entries_lt
  have hrefl := h.law.refl (cellAt ht.cells c).key
  have hrun : hashTableRemove ht (cellAt ht.cells c).key=
      .ok (true,{ ht with cells := cells, count := ht.count-1 }) := by
    obtain ⟨x,hx,hfind,⟨hox,htest,_⟩|⟨_,_,hfresh,_⟩⟩ := h.findCell (cellAt ht.cells c).key
    · have hxc := h.probed.distinct c x hc hx ho hox htest
      subst hxc
      simp [hashTableRemove,hfind,hwalk,bind,Except.bind,pure,Except.pure,occupied_cellAt,ho]
    · have hmem := cellAt_mem_entries ht.cells c (by rw [h.probed.length]; exact hc) ho
      rw [hfresh _ (h.bindings.mem_iff.mp hmem)] at hrefl
      cases hrefl
  obtain ⟨ht',hrun',_,hsound⟩ := h.remove (cellAt ht.cells c).key
  rw [hrun] at hrun'
  obtain ⟨_,rfl⟩ := Prod.mk.inj (Except.ok.inj hrun')
  exact ⟨cells,hrun,⟨_,hsound⟩,hall,hsplit⟩

/-- No other entry has the key of the one removed. -/
theorem Sound.removed_key {ht : HashTable} {m : List Cell} (h : Sound ht m) (c : Nat)
    (cells : List Cell) (hlen : c<cells.length)
    (hperm : (cellAt ht.cells c::entries cells).Perm (entries ht.cells))
    (ho : occ cells c=true) : (cellAt cells c).key≠(cellAt ht.cells c).key := by
  intro heq
  have hd : KeyedMap.Distinct Cell.key ht.testFunction (cellAt ht.cells c::entries cells) :=
    h.probed.entries_distinct.perm h.law.toLawful hperm.symm
  have hfalse := (List.pairwise_cons.mp hd).1 _ (cellAt_mem_entries cells c hlen ho)
  rw [heq,h.law.refl] at hfalse
  cases hfalse

section

variable {σ : Type} {ht0 : HashTable} (fn : σ → Cell → Reaction σ)

/-- What holds when the loop stands at cell c. As long as every removal left some cell from its
own on that no probe led over, the entries called and those from c on are the ones at the
start; otherwise there are more of them. -/
structure Tracked (ht0 : HashTable) (s : Mapping σ) (c : Nat) : Prop where
  sound : ∃ m,Sound s.ht m
  size : s.ht.size=ht0.size
  hash : s.ht.hashFunction=ht0.hashFunction
  once : (∀ r∈s.removals,Separable ht0.hashFunction r.1 r.2) →
    (s.called++entries (s.ht.cells.drop c)).Perm (entries ht0.cells)
  more : ¬(∀ r∈s.removals,Separable ht0.hashFunction r.1 r.2) →
    (entries ht0.cells).length < s.called.length+(entries (s.ht.cells.drop c)).length

theorem entries_drop (cells : List Cell) (c : Nat) (hc : c<cells.length) :
    entries (cells.drop c)=
      if occ cells c then cellAt cells c::entries (cells.drop (c+1))
      else entries (cells.drop (c+1)) := by
  rw [List.drop_eq_getElem_cons hc,entries,List.filter_cons,occ,cellAt_eq cells c hc]
  rfl

theorem Tracked.skip {s : Mapping σ} {c : Nat} (t : Tracked ht0 s c) (hc : c<ht0.size)
    (ho : occ s.ht.cells c=false) : Tracked ht0 s (c+1) := by
  obtain ⟨m,hs⟩ := t.sound
  have hlen : c < s.ht.cells.length := by rw [hs.probed.length,t.size]; exact hc
  have hdrop := entries_drop s.ht.cells c hlen
  rw [ho,if_neg Bool.false_ne_true] at hdrop
  refine ⟨t.sound,t.size,t.hash,?_,?_⟩
  · rw [← hdrop]
    exact t.once
  · rw [← hdrop]
    exact t.more

theorem callOn_kept (s : Mapping σ) (c : Nat)
    (h : (fn s.arg (cellAt s.ht.cells c)).remove=false) :
    callOn fn c s=.ok ⟨s.ht,(fn s.arg (cellAt s.ht.cells c)).arg,
      s.called++[cellAt s.ht.cells c],s.removals,(fn s.arg (cellAt s.ht.cells c)).stop⟩ := by
  simp [callOn,h]

theorem callOn_removed (s : Mapping σ) (c : Nat) (ht : HashTable)
    (h : (fn s.arg (cellAt s.ht.cells c)).remove=true)
    (hrun : hashTableRemove s.ht (cellAt s.ht.cells c).key=.ok (true,ht)) :
    callOn fn c s=.ok ⟨ht,(fn s.arg (cellAt s.ht.cells c)).arg,
      s.called++[cellAt s.ht.cells c],s.removals++[(s.ht.cells,c)],
      (fn s.arg (cellAt s.ht.cells c)).stop⟩ := by
  simp [callOn,h,hrun,bind,Except.bind,pure,Except.pure]

/-- One call: the entry stays, and the loop will go on to the next cell, or it is removed, and
the cell holds another entry or none. -/
theorem Tracked.call {s : Mapping σ} {c : Nat} (t : Tracked ht0 s c) (hc : c<ht0.size)
    (ho : occ s.ht.cells c=true) :
    ∃ s',callOn fn c s=.ok s' ∧
      ((s'.ht=s.ht ∧ Tracked ht0 s' (c+1)) ∨
       (Tracked ht0 s' c ∧ (entries s'.ht.cells).length < (entries s.ht.cells).length ∧
        (occ s'.ht.cells c=true →
          (cellAt s'.ht.cells c).key≠(cellAt s.ht.cells c).key))) := by
  obtain ⟨m,hs⟩ := t.sound
  have hlen : c < s.ht.cells.length := by rw [hs.probed.length,t.size]; exact hc
  cases hr : (fn s.arg (cellAt s.ht.cells c)).remove with
  | false =>
    have hdrop := entries_drop s.ht.cells c hlen
    rw [ho,if_pos rfl] at hdrop
    refine ⟨_,callOn_kept fn s c hr,Or.inl ⟨rfl,t.sound,t.size,t.hash,?_,?_⟩⟩
    · intro hall
      have hp := t.once hall
      rw [hdrop] at hp
      simpa using hp
    · intro hno
      have hlt := t.more hno
      rw [hdrop,List.length_cons] at hlt
      simp only [List.length_append,List.length_cons,List.length_nil]
      omega
  | true =>
    obtain ⟨cells,hrun,⟨m',hsound⟩,hall,hsep,hnot⟩ :=
      hs.remove_entry c (by rw [t.size]; exact hc) ho
    have hlen' : c<cells.length := by
      have := hsound.probed.length
      simp only at this
      rw [this,t.size]
      exact hc
    refine ⟨_,callOn_removed fn s c _ hr hrun,Or.inr ⟨⟨⟨m',hsound⟩,t.size,t.hash,?_,?_⟩,?_,?_⟩⟩
    · intro hsafe
      simp only [List.mem_append,List.mem_singleton] at hsafe
      have hnow := hsep (by
        rw [t.hash]
        exact hsafe (s.ht.cells,c) (Or.inr rfl))
      have hbefore := t.once (fun r hr => hsafe r (Or.inl hr))
      simpa using (hnow.append_left s.called).trans hbefore
    · intro hunsafe
      have hshrink : (entries (s.ht.cells.drop c)).length ≤ (entries (cells.drop c)).length+1 := by
        by_cases hnow : Separable s.ht.hashFunction s.ht.cells c
        · have := (hsep hnow).length_eq
          rw [List.length_cons] at this
          omega
        · have := hnot hnow
          omega
      simp only [List.length_append,List.length_cons,List.length_nil]
      by_cases hbefore : ∀ r∈s.removals,Separable ht0.hashFunction r.1 r.2
      · have hnow : ¬Separable s.ht.hashFunction s.ht.cells c := by
          intro hsafe
          apply hunsafe
          intro r hr
          rcases List.mem_append.mp hr with hr|hr
          · exact hbefore r hr
          · rw [List.mem_singleton.mp hr,← t.hash]
            exact hsafe
        have hle := hnot hnow
        have heq := (t.once hbefore).length_eq
        rw [List.length_append] at heq
        omega
      · have hlt := t.more hbefore
        omega
    · have := hall.length_eq
      rw [List.length_cons] at this
      simp only
      omega
    · exact hs.removed_key c cells hlen' hall

/-- The repetitions at one cell end: each removes an entry. -/
theorem Tracked.repeated {c : Nat} (hc : c<ht0.size) (fuel : Nat) (s : Mapping σ)
    (t : Tracked ht0 s c) (ho : occ s.ht.cells c=true)
    (hf : (entries s.ht.cells).length<fuel) :
    ∃ s',repeatAt fn c fuel s=.ok s' ∧ (s'.stopped=false → Tracked ht0 s' (c+1)) := by
  induction fuel generalizing s with
  | zero => omega
  | succ fuel ih =>
    obtain ⟨s',hcall,hcase⟩ := t.call fn hc ho
    rw [repeatAt]
    simp only [hcall,bind,Except.bind,pure,Except.pure]
    cases hstop : s'.stopped with
    | true => exact ⟨s',rfl,fun h => by rw [hstop] at h; cases h⟩
    | false =>
      rw [if_neg Bool.false_ne_true]
      rcases hcase with ⟨hsame,hnext⟩|⟨hnext,hless,hkey⟩
      · rw [hsame,if_neg (fun h => h.1 rfl)]
        exact ⟨s',rfl,fun _ => hnext⟩
      · cases hocc : occ s'.ht.cells c with
        | true =>
          rw [if_pos ⟨hkey hocc,hocc⟩]
          exact ih s' hnext hocc (by omega)
        | false =>
          rw [if_neg (fun h => by rw [occupied_cellAt,hocc] at h; cases h.2)]
          exact ⟨s',rfl,fun _ => hnext.skip hc hocc⟩

theorem Tracked.forEach (left c : Nat) (s : Mapping σ) (t : Tracked ht0 s c)
    (hleft : c+left=ht0.size) :
    ∃ s',forEachFrom fn left c s=.ok s' ∧ (s'.stopped=false → Tracked ht0 s' ht0.size) := by
  induction left generalizing c s with
  | zero =>
    rw [Nat.add_zero] at hleft
    exact ⟨s,rfl,fun _ => hleft ▸ t⟩
  | succ left ih =>
    have hc : c<ht0.size := by omega
    rw [forEachFrom]
    cases ho : occ s.ht.cells c with
    | true =>
      obtain ⟨m,hs⟩ := t.sound
      obtain ⟨s',hrun,hnext⟩ := t.repeated fn hc s.ht.size s ho hs.entries_lt
      simp only [occupied_cellAt,ho,if_true,hrun,bind,Except.bind,pure,Except.pure]
      cases hstop : s'.stopped with
      | true => exact ⟨s',rfl,fun h => by rw [hstop] at h; cases h⟩
      | false =>
        rw [if_neg Bool.false_ne_true]
        exact ih (c+1) s' (hnext hstop) (by omega)
    | false =>
      simp only [occupied_cellAt,ho,Bool.false_eq_true,if_false]
      exact ih (c+1) s (t.skip hc ho) (by omega)

end

/-- A mapping over a table, with a function that may remove the entry it is given, ends. If it
is not stopped, the function is called on every entry of the start exactly once just when each
removal left a cell, from the one removed to the end of the array, that no probe led over. -/
theorem hash_table_for_each_once_iff {σ : Type} (hash : Ptr → BitVec 64)
    (test : Ptr → Ptr → Bool) (law : LawfulKeys hash test) (items : Int) (ops : List Op)
    (hops : ∀ op∈ops,op.valid) (ht : HashTable) (answers : List Answer)
    (hrun : runTable hash test items ops=.ok (ht,answers)) (fn : σ → Cell → Reaction σ)
    (arg : σ) :
    ∃ s,hashTableForEach ht fn arg=.ok s ∧
      (s.stopped=false → (s.called.Perm (entries ht.cells) ↔
        ∀ r∈s.removals,Separable ht.hashFunction r.1 r.2)) := by
  obtain ⟨m,hs⟩ := runTable_reached law items ops hops ht answers hrun
  have hstart : Tracked ht (⟨ht,arg,[],[],false⟩ : Mapping σ) 0 := by
    refine ⟨⟨m,hs⟩,rfl,rfl,fun _ => by simp,fun hno => ?_⟩
    exact absurd (fun r hr => by cases hr) hno
  obtain ⟨s,hmap,hend⟩ := hstart.forEach fn ht.size 0 _ (Nat.zero_add _)
  refine ⟨s,hmap,fun hgo => ?_⟩
  have t := hend hgo
  obtain ⟨m',hs'⟩ := t.sound
  have hnil : s.ht.cells.drop ht.size=[] := by
    rw [← t.size,← hs'.probed.length,List.drop_length]
  constructor
  · intro hperm
    by_contra hno
    have hlt := t.more hno
    have heq := hperm.length_eq
    rw [hnil,show entries []=[] from rfl,List.length_nil] at hlt
    omega
  · intro hall
    have hperm := t.once hall
    rwa [hnil,show entries []=[] from rfl,List.append_nil] at hperm

/-- A function that removes the entry of one key and asks for nothing else. -/
def removing (key : Ptr) : Unit → Cell → Reaction Unit := fun _ c => ⟨c.key==key,false,()⟩

/-- A mapping after a run of calls: the entries called, whether it was stopped, and the entries
at the start. -/
def mapAfter (ops : List Op) (key : Ptr) : Option (List Cell × Bool × List Cell) :=
  match runTable id (fun a b => a==b) 0 ops with
  | .error _ => none
  | .ok (ht,_) =>
    match hashTableForEach ht (removing key) () with
    | .error _ => none
    | .ok s => some (s.called,s.stopped,entries ht.cells)

theorem mapAfter_runs (ops : List Op) (key : Ptr) (called start : List Cell) (stopped : Bool)
    (h : mapAfter ops key=some (called,stopped,start)) :
    ∃ ht answers s,runTable id (fun a b => a==b) 0 ops=.ok (ht,answers) ∧
      hashTableForEach ht (removing key) ()=.ok s ∧ s.called=called ∧ s.stopped=stopped ∧
      entries ht.cells=start := by
  rw [mapAfter] at h
  split at h
  · cases h
  · next ht answers hrun =>
    split at h
    · cases h
    · next s hmap =>
      cases h
      exact ⟨ht,answers,s,hrun,hmap,rfl,rfl,rfl⟩

/-- Keys 0 and 13 in cells 0 and 1: the removal of 0 moves 13 into its cell, and it is called
there, once. -/
theorem hash_table_for_each_once_colliding :
    ∃ ht answers s,runTable id (fun a b => a==b) 0 [.put 0 1,.put 13 2]=.ok (ht,answers) ∧
      hashTableForEach ht (removing 0) ()=.ok s ∧ s.called.Perm (entries ht.cells) ∧
      ∀ r∈s.removals,Separable ht.hashFunction r.1 r.2 := by
  have hall : mapAfter [.put 0 1,.put 13 2] 0=
      some ([⟨0,1⟩,⟨13,2⟩],false,[⟨0,1⟩,⟨13,2⟩]) := by decide
  obtain ⟨ht,answers,s,hrun,hmap,hcalled,hstop,hstart⟩ := mapAfter_runs _ _ _ _ _ hall
  obtain ⟨s',hmap',hiff⟩ := hash_table_for_each_once_iff id (fun a b => a==b) lawful_pointers 0
    [.put 0 1,.put 13 2] (by simp [Op.valid,invalidPtr]) ht answers hrun (removing 0) ()
  rw [hmap] at hmap'
  cases hmap'
  have hperm : s.called.Perm (entries ht.cells) := by rw [hcalled,hstart]
  exact ⟨ht,answers,s,hrun,hmap,hperm,(hiff hstop).mp hperm⟩

/-- Keys 12 and 25 in cells 12 and 0: the removal of 12 moves 25, already called, back to cell
12, and it is called again. -/
theorem hash_table_for_each_calls_twice :
    ∃ ht answers s,runTable id (fun a b => a==b) 0 [.put 12 1,.put 25 2]=.ok (ht,answers) ∧
      hashTableForEach ht (removing 12) ()=.ok s ∧ s.stopped=false ∧
      entries ht.cells=[⟨25,2⟩,⟨12,1⟩] ∧ s.called=[⟨25,2⟩,⟨12,1⟩,⟨25,2⟩] ∧
      ¬s.called.Perm (entries ht.cells) := by
  have hall : mapAfter [.put 12 1,.put 25 2] 12=
      some ([⟨25,2⟩,⟨12,1⟩,⟨25,2⟩],false,[⟨25,2⟩,⟨12,1⟩]) := by decide
  obtain ⟨ht,answers,s,hrun,hmap,hcalled,hstop,hstart⟩ := mapAfter_runs _ _ _ _ _ hall
  refine ⟨ht,answers,s,hrun,hmap,hstop,hstart,hcalled,fun hperm => ?_⟩
  have hlen := hperm.length_eq
  rw [hcalled,hstart] at hlen
  simp at hlen

end IdearNiu.Hash
