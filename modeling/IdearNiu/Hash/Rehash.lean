import IdearNiu.Hash.Probing

namespace IdearNiu.Hash

open Cyclic

section

variable {hash : Ptr → BitVec 64} {test : Ptr → Ptr → Bool} {cells : List Cell} {n : Nat}

/-- State of the walk behind a removed cell p, with e the empty cell that ends the
cluster and q the next cell to look at. Holes lie only between p and q, and only
the keys from q on may still have one on their path. -/
structure Walking (hash : Ptr → BitVec 64) (test : Ptr → Ptr → Bool)
    (n p e : Nat) (cells : List Cell) (q : Nat) : Prop where
  length : cells.length=n
  p_lt : p<n
  e_lt : e<n
  q_lt : q<n
  started : 0<dist n p q
  bounded : dist n p q≤dist n p e
  stop : occ cells e=false
  ahead : ∀ y,y<n → dist n p q≤dist n p y → dist n p y<dist n p e → occ cells y=true
  holes : ∀ i,i<n → occ cells i=true → ∀ x,x<n →
    dist n (hashPosition hash n (cellAt cells i).key) x<
      dist n (hashPosition hash n (cellAt cells i).key) i →
    occ cells x=false → dist n p x<dist n p q
  settled : ∀ i,i<n → occ cells i=true → (dist n p i<dist n p q ∨ dist n p e<dist n p i) →
    ∀ x,x<n → dist n (hashPosition hash n (cellAt cells i).key) x<
      dist n (hashPosition hash n (cellAt cells i).key) i → occ cells x=true
  distinct : ∀ i j,i<n → j<n → occ cells i=true → occ cells j=true →
    test (cellAt cells i).key (cellAt cells j).key=true → i=j

/-- The cluster behind an occupied cell ends at an empty one. -/
theorem exists_cluster_end (p : Nat) (hp : p<n) (hempty : ∃ e,e<n ∧ occ cells e=false) :
    ∃ e,e<n ∧ occ cells e=false ∧
      ∀ y,y<n → dist n p y<dist n p e → occ cells y=true := by
  obtain ⟨e,he,hemp⟩ := hempty
  obtain ⟨x,hx,_,hstop,hbefore⟩ := foreachOccupiedAdjacent_spec cells n (fun _ => false)
    e he hemp n p hp (dist_spec n p e hp he).1
  refine ⟨x,hx,?_,fun y hy hd => (hbefore y hy hd).1⟩
  by_contra bad
  have := hstop (by simpa using bad)
  simp at this

/-- Clearing a cell of a probed table starts a walk at the cell behind it. -/
theorem Probed.startWalk (h : Probed hash test cells n) (p : Nat) (hp : p<n)
    (hroom : (entries cells).length<n) (ho : occ cells p=true) :
    ∃ e,Walking hash test n p e (clearCell cells p) (next n p) := by
  obtain ⟨e,he,hemp,hcluster⟩ := exists_cluster_end p hp
    (by simpa [h.length] using exists_empty cells (by rw [h.length]; exact hroom))
  have hl : p<cells.length := by rw [h.length]; exact hp
  have hpe : p≠e := by
    intro bad
    subst bad
    simp [ho] at hemp
  have hn := next_spec n p hp
  have hd := dist_spec n p (next n p) hp hn.1
  have hde := dist_next_left n p e hp he hpe
  have hself := occ_clearCell_self cells p hl
  have back : ∀ y,occ (clearCell cells p) y=true → p≠y ∧ occ cells y=true := by
    intro y hy
    have hne : p≠y := by
      intro bad
      subst bad
      simp [hself] at hy
    rw [occ_clearCell_ne cells p y hne] at hy
    exact ⟨hne,hy⟩
  have hone : dist n p (next n p)=1 := by
    have hd' := dist_spec n p e hp he
    omega
  refine ⟨e,⟨by rw [length_clearCell,h.length],hp,he,hn.1,by omega,by omega,?_,?_,?_,?_,?_⟩⟩
  · rw [occ_clearCell_ne cells p e hpe]
    exact hemp
  · intro y hy hlo hhi
    have hne : p≠y := by
      intro bad
      subst bad
      rw [dist_self] at hlo
      omega
    rw [occ_clearCell_ne cells p y hne]
    exact hcluster y hy hhi
  · intro i hi hoi x hx hpath hox
    obtain ⟨hne,hoi'⟩ := back i hoi
    rw [cellAt_clearCell_ne cells p i hne] at hpath
    have hfull := h.reach i hi hoi' x hx hpath
    have hpx : p=x := by
      by_contra bad
      rw [occ_clearCell_ne cells p x bad,hfull] at hox
      simp at hox
    rw [hpx,dist_self,← hpx]
    omega
  · intro i hi hoi hside x hx hpath
    obtain ⟨hne,hoi'⟩ := back i hoi
    rw [cellAt_clearCell_ne cells p i hne] at hpath
    have hfull := h.reach i hi hoi'
    by_cases hpx : p=x
    · -- a path over p to a cell behind e would cross e
      subst hpx
      have hs := hashPosition_lt hash n (cellAt cells i).key h.pos
      have hzero : dist n p i≠0 := fun hz => hne (dist_eq_zero n p i hp hi hz)
      have hpp := dist_self n p
      have hcross := dist_cross n p p e i _ hp hp he hi hs (by omega) (by omega) hpath
      have : occ cells e=true := hfull e he hcross
      simp [this] at hemp
    · rw [occ_clearCell_ne cells p x hpx]
      exact hfull x hx hpath
  · intro i j hi hj hoi hoj ht
    obtain ⟨hnei,hoi'⟩ := back i hoi
    obtain ⟨hnej,hoj'⟩ := back j hoj
    rw [cellAt_clearCell_ne cells p i hnei,cellAt_clearCell_ne cells p j hnej] at ht
    exact h.distinct i j hi hj hoi' hoj' ht

theorem Walking.reached {p e q : Nat} (w : Walking hash test n p e cells q)
    (ho : occ cells q=false) : q=e := by
  apply dist_inj n p q e w.p_lt w.q_lt w.e_lt
  by_contra bad
  have hb := w.bounded
  have := w.ahead q w.q_lt le_rfl (by omega)
  rw [ho] at this
  cases this

/-- At the end of the cluster every path is whole again. -/
theorem Walking.finish {p e q : Nat} (w : Walking hash test n p e cells q)
    (ho : occ cells q=false) : Probed hash test cells n := by
  have hqe : dist n p q=dist n p e := by rw [w.reached ho]
  refine ⟨w.length,by have := w.p_lt; omega,?_,w.distinct⟩
  intro i hi hoi
  apply w.settled i hi hoi
  have hne : dist n p i≠dist n p e := by
    intro heq
    have := dist_inj n p i e w.p_lt hi w.e_lt heq
    subst this
    have := w.stop
    simp [hoi] at this
  omega

theorem Walking.advance {p e q : Nat} (w : Walking hash test n p e cells q)
    (ho : occ cells q=true) :
    dist n p (next n q)=dist n p q+1 ∧ dist n p q<dist n p e := by
  have hlt : dist n p q<dist n p e := by
    rcases lt_or_eq_of_le w.bounded with h|h
    · exact h
    · have := dist_inj n p q e w.p_lt w.q_lt w.e_lt h
      subst this
      have := w.stop
      simp [ho] at this
  refine ⟨dist_next_right n p q w.p_lt w.q_lt ?_,hlt⟩
  intro bad
  have hs := next_spec n q w.q_lt
  have d1 := dist_spec n p q w.p_lt w.q_lt
  have d2 := dist_spec n p e w.p_lt w.e_lt
  omega

/-- A key whose path is whole stays where it is. -/
theorem Walking.keep {p e q : Nat} (w : Walking hash test n p e cells q)
    (ho : occ cells q=true)
    (hpath : ∀ x,x<n → dist n (hashPosition hash n (cellAt cells q).key) x<
      dist n (hashPosition hash n (cellAt cells q).key) q → occ cells x=true) :
    Walking hash test n p e cells (next n q) := by
  obtain ⟨hnext,hlt⟩ := w.advance ho
  refine ⟨w.length,w.p_lt,w.e_lt,(next_spec n q w.q_lt).1,by omega,by omega,w.stop,
    ?_,?_,?_,w.distinct⟩
  · intro y hy hlo hhi
    exact w.ahead y hy (by omega) hhi
  · intro i hi hoi x hx hd hox
    have := w.holes i hi hoi x hx hd hox
    omega
  · intro i hi hoi hside x hx hd
    by_cases hiq : i=q
    · subst hiq
      exact hpath x hx hd
    · have hne : dist n p i≠dist n p q := fun h =>
        hiq (dist_inj n p i q w.p_lt hi w.q_lt h)
      exact w.settled i hi hoi (by omega) x hx hd

section Move

variable {q x : Nat}

/-- The cells after the key of q has been moved to x. -/
theorem cellAt_moved (hne : x≠q) (hlx : x<cells.length) :
    cellAt (clearCell (cells.set x (cellAt cells q)) q) x=cellAt cells q := by
  rw [cellAt_clearCell_ne _ q x hne.symm,cellAt_set_self cells x _ hlx]

theorem cellAt_moved_ne {y : Nat} (hyx : y≠x) (hyq : y≠q) :
    cellAt (clearCell (cells.set x (cellAt cells q)) q) y=cellAt cells y := by
  rw [cellAt_clearCell_ne _ q y hyq.symm,cellAt_set_ne cells x y _ hyx.symm]

theorem occ_moved {y : Nat} (hne : x≠q) (hlx : x<cells.length) (ho : occ cells q=true)
    (hyq : y≠q) (hy : occ cells y=true) :
    occ (clearCell (cells.set x (cellAt cells q)) q) y=true := by
  by_cases hyx : y=x
  · subst hyx
    rw [occ,cellAt_moved hne hlx]
    exact ho
  · rw [occ,cellAt_moved_ne hyx hyq]
    exact hy

/-- An occupied cell now is x with the moved key, or one that was occupied before. -/
theorem occ_moved_cases {i : Nat} (hlq : q<cells.length)
    (hi : occ (clearCell (cells.set x (cellAt cells q)) q) i=true) :
    i≠q ∧ (i=x ∨ (i≠x ∧ occ cells i=true)) := by
  have hiq : i≠q := by
    intro bad
    subst bad
    rw [occ_clearCell_self _ i (by simpa using hlq)] at hi
    cases hi
  refine ⟨hiq,?_⟩
  by_cases hix : i=x
  · exact Or.inl hix
  · rw [occ,cellAt_moved_ne hix hiq] at hi
    exact Or.inr ⟨hix,hi⟩

end Move

/-- A path that meets an empty cell x sends its key there and leaves a hole at q. -/
theorem Walking.move {p e q x : Nat} (w : Walking hash test n p e cells q)
    (ho : occ cells q=true) (hx : x<n) (hox : occ cells x=false)
    (hxq : dist n (hashPosition hash n (cellAt cells q).key) x<
      dist n (hashPosition hash n (cellAt cells q).key) q)
    (hpath : ∀ y,y<n → dist n (hashPosition hash n (cellAt cells q).key) y<
      dist n (hashPosition hash n (cellAt cells q).key) x → occ cells y=true) :
    Walking hash test n p e (clearCell (cells.set x (cellAt cells q)) q) (next n q) := by
  obtain ⟨hnext,hlt⟩ := w.advance ho
  have hxp := w.holes q w.q_lt ho x hx hxq hox
  have hne : x≠q := by
    intro bad
    subst bad
    simp [ho] at hox
  have hxe : x≠e := by
    intro bad
    subst bad
    omega
  have hqe : q≠e := by
    intro bad
    subst bad
    omega
  have hlx : x<cells.length := by rw [w.length]; exact hx
  have hlq : q<cells.length := by rw [w.length]; exact w.q_lt
  have atx := cellAt_moved hne hlx
  refine ⟨by rw [length_clearCell,List.length_set,w.length],w.p_lt,w.e_lt,
    (next_spec n q w.q_lt).1,by omega,by omega,?_,?_,?_,?_,?_⟩
  · rw [occ,cellAt_moved_ne hxe.symm hqe.symm]
    exact w.stop
  · intro y hy hlo hhi
    apply occ_moved hne hlx ho
    · intro bad
      subst bad
      omega
    · exact w.ahead y hy (by omega) hhi
  · intro i hi hoi y hy hd hoy
    obtain ⟨hiq,hcase⟩ := occ_moved_cases hlq hoi
    by_cases hyq : y=q
    · subst hyq
      omega
    · have hoy' : occ cells y=false := by
        by_contra bad
        rw [occ_moved hne hlx ho hyq (by simpa using bad)] at hoy
        simp at hoy
      rcases hcase with hix|⟨hix,hoi'⟩
      · subst hix
        rw [atx] at hd
        rw [hpath y hy hd] at hoy'
        simp at hoy'
      · rw [cellAt_moved_ne hix hiq] at hd
        have := w.holes i hi hoi' y hy hd hoy'
        omega
  · intro i hi hoi hside y hy hd
    obtain ⟨hiq,hcase⟩ := occ_moved_cases hlq hoi
    have hne' : dist n p i≠dist n p q := fun h => hiq (dist_inj n p i q w.p_lt hi w.q_lt h)
    rcases hcase with hix|⟨hix,hoi'⟩
    · subst hix
      rw [atx] at hd
      apply occ_moved hne hlx ho _ (hpath y hy hd)
      intro bad
      subst bad
      omega
    · rw [cellAt_moved_ne hix hiq] at hd
      have hwhole := w.settled i hi hoi' (by omega)
      apply occ_moved hne hlx ho _ (hwhole y hy hd)
      -- a whole path over q to a cell outside the rest of the cluster would cross e
      intro bad
      subst bad
      have hs := hashPosition_lt hash n (cellAt cells i).key (by have := w.p_lt; omega)
      have hcross := dist_cross n p y e i _ w.p_lt hy w.e_lt hi hs hlt.le (by omega) hd
      have hfull := hwhole e w.e_lt hcross
      have := w.stop
      simp [hfull] at this
  · intro i j hi hj hoi hoj ht
    obtain ⟨hiq,hci⟩ := occ_moved_cases hlq hoi
    obtain ⟨hjq,hcj⟩ := occ_moved_cases hlq hoj
    rcases hci with hix|⟨hix,hoi'⟩ <;> rcases hcj with hjx|⟨hjx,hoj'⟩
    · omega
    · subst hix
      rw [atx,cellAt_moved_ne hjx hjq] at ht
      exact absurd (w.distinct q j w.q_lt hj ho hoj' ht).symm hjq
    · subst hjx
      rw [atx,cellAt_moved_ne hix hiq] at ht
      exact absurd (w.distinct i q hi w.q_lt hoi' ho ht) hiq
    · rw [cellAt_moved_ne hix hiq,cellAt_moved_ne hjx hjq] at ht
      exact w.distinct i j hi hj hoi' hoj' ht

/-- Moving a binding to an empty cell keeps the bindings. -/
theorem entries_move {q x : Nat} (hq : q<cells.length) (hx : x<cells.length)
    (ho : occ cells q=true) (hox : occ cells x=false) :
    (entries (clearCell (cells.set x (cellAt cells q)) q)).Perm (entries cells) := by
  have hne : x≠q := by
    intro bad
    subst bad
    simp [ho] at hox
  have hfill := entries_fill cells x (cellAt cells q) hx hox ho
  have hkeep := cellAt_set_ne cells x q (cellAt cells q) hne
  have hclear := entries_clear (cells.set x (cellAt cells q)) q (by simpa using hq)
    (by rw [occ_set_ne cells x q _ hne]; exact ho)
  rw [hkeep] at hclear
  exact (List.perm_cons _).mp (hclear.trans hfill)

/-- One step of the walk: the key of q has a whole path and stays, or it goes to the first
empty cell of its path. -/
theorem Walking.step (refl : ∀ a,test a a=true) {p e q : Nat}
    (w : Walking hash test n p e cells q) (ho : occ cells q=true) (fuel : Nat) :
    (rehashFollowing hash n (fuel+1) cells q=rehashFollowing hash n fuel cells (next n q) ∧
      ∀ y,y<n → dist n (hashPosition hash n (cellAt cells q).key) y<
        dist n (hashPosition hash n (cellAt cells q).key) q → occ cells y=true) ∨
    ∃ x,x<n ∧ occ cells x=false ∧
      dist n (hashPosition hash n (cellAt cells q).key) x<
        dist n (hashPosition hash n (cellAt cells q).key) q ∧
      (∀ y,y<n → dist n (hashPosition hash n (cellAt cells q).key) y<
        dist n (hashPosition hash n (cellAt cells q).key) x → occ cells y=true) ∧
      rehashFollowing hash n (fuel+1) cells q=
        rehashFollowing hash n fuel (clearCell (cells.set x (cellAt cells q)) q) (next n q) := by
  have hpos : 0<n := by have := w.p_lt; omega
  have hs := hashPosition_lt hash n (cellAt cells q).key hpos
  obtain ⟨x,hx,hrun,hstop,hbefore⟩ := foreachOccupiedAdjacent_spec cells n
    (fun d => d.key==(cellAt cells q).key) e w.e_lt w.stop n _ hs
    (dist_spec n _ e hs w.e_lt).1
  rw [rehashFollowing]
  simp only [occupied_cellAt,ho,if_true,hrun,bind,Except.bind]
  by_cases hox : occ cells x=true
  · have heq : (cellAt cells x).key=(cellAt cells q).key := by simpa using hstop hox
    have hxq : x=q := w.distinct x q hx w.q_lt hox ho (by rw [heq]; exact refl _)
    subst hxq
    rw [if_pos hox]
    exact Or.inl ⟨rfl,fun y hy hd => (hbefore y hy hd).1⟩
  · have hox' : occ cells x=false := by simpa using hox
    rw [if_neg hox]
    refine Or.inr ⟨x,hx,hox',?_,fun y hy hd => (hbefore y hy hd).1,rfl⟩
    rcases Nat.lt_trichotomy (dist n (hashPosition hash n (cellAt cells q).key) x)
      (dist n (hashPosition hash n (cellAt cells q).key) q) with h|h|h
    · exact h
    · have := dist_inj n _ x q hs hx w.q_lt h
      subst this
      exact absurd ho hox
    · have := (hbefore q w.q_lt h).2
      simp at this

theorem Walking.stopped {p e q : Nat} (w : Walking hash test n p e cells q)
    (ho : occ cells q=false) (fuel : Nat) :
    rehashFollowing hash n (fuel+1) cells q=.ok cells ∧ Probed hash test cells n := by
  refine ⟨?_,w.finish ho⟩
  rw [rehashFollowing]
  simp only [occupied_cellAt,ho,Bool.false_eq_true,if_false]

theorem Walking.closer {p e q : Nat} (w : Walking hash test n p e cells q)
    (ho : occ cells q=true) : dist n q e=dist n (next n q) e+1 := by
  apply dist_next_left n q e w.q_lt w.e_lt
  intro bad
  have := (w.advance ho).2
  rw [bad] at this
  exact lt_irrefl _ this

/-- The walk ends with every path whole and the bindings as they were, and with whatever its
two kinds of steps keep. -/
theorem Walking.run_invariant (refl : ∀ a,test a a=true) {p e : Nat}
    (Q : List Cell → Nat → Prop)
    (hkeep : ∀ cells q,Walking hash test n p e cells q → occ cells q=true → Q cells q →
      Q cells (next n q))
    (hmove : ∀ cells q x,Walking hash test n p e cells q → occ cells q=true → x<n →
      occ cells x=false → dist n (hashPosition hash n (cellAt cells q).key) x<
        dist n (hashPosition hash n (cellAt cells q).key) q → Q cells q →
      Q (clearCell (cells.set x (cellAt cells q)) q) (next n q))
    (fuel q : Nat) (w : Walking hash test n p e cells q) (hQ : Q cells q)
    (hf : dist n q e<fuel) :
    ∃ cells',rehashFollowing hash n fuel cells q=.ok cells' ∧
      Probed hash test cells' n ∧ (entries cells').Perm (entries cells) ∧ Q cells' e := by
  induction fuel generalizing cells q with
  | zero => omega
  | succ fuel ih =>
    by_cases ho : occ cells q=true
    · have hstep := w.closer ho
      rcases w.step refl ho fuel with ⟨hrun,hpath⟩|⟨x,hx,hox,hxq,hpath,hrun⟩
      · rw [hrun]
        exact ih (next n q) (w.keep ho hpath) (hkeep cells q w ho hQ) (by omega)
      · obtain ⟨cells',hrun',hp,he,hend⟩ := ih (next n q) (w.move ho hx hox hxq hpath)
          (hmove cells q x w ho hx hox hxq hQ) (by omega)
        refine ⟨cells',by rw [hrun,hrun'],hp,he.trans (entries_move ?_ ?_ ho hox),hend⟩
        · rw [w.length]; exact w.q_lt
        · rw [w.length]; exact hx
    · have ho' : occ cells q=false := by simpa using ho
      obtain ⟨hrun,hp⟩ := w.stopped ho' fuel
      exact ⟨cells,hrun,hp,List.Perm.refl _,w.reached ho' ▸ hQ⟩

theorem Walking.run (refl : ∀ a,test a a=true) {p e : Nat} (fuel q : Nat)
    (w : Walking hash test n p e cells q) (hf : dist n q e<fuel) :
    ∃ cells',rehashFollowing hash n fuel cells q=.ok cells' ∧
      Probed hash test cells' n ∧ (entries cells').Perm (entries cells) := by
  obtain ⟨cells',hrun,hp,he,_⟩ := w.run_invariant refl (fun _ _ => True)
    (fun _ _ _ _ _ => trivial) (fun _ _ _ _ _ _ _ _ _ => trivial) fuel q trivial hf
  exact ⟨cells',hrun,hp,he⟩

end

end IdearNiu.Hash
