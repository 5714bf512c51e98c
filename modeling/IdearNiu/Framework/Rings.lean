import Mathlib.Tactic
import Mathlib.Data.List.Chain

namespace IdearNiu.Rings

/-- The two pointers of every node. -/
structure Links (α : Type) where
  next : α → α
  prev : α → α

section

variable {α : Type}

/-- q is the node after p, seen from both. -/
def Adjacent (k : Links α) (p q : α) : Prop := k.next p=q ∧ k.prev q=p

def Linked (k : Links α) (l : List α) : Prop := l.IsChain (Adjacent k)

/-- The nodes of a list in a circle, the first after the last. -/
def Ring (k : Links α) (c : List α) : Prop :=
  Linked k c ∧ ∀ p∈c.getLast?,∀ q∈c.head?,Adjacent k p q

/-- A chain only depends on the pointers between its nodes. -/
theorem linked_frame (k k' : Links α) (l : List α) (h : Linked k l)
    (hn : ∀ x∈l.dropLast,k'.next x=k.next x) (hp : ∀ x∈l.tail,k'.prev x=k.prev x) :
    Linked k' l := by
  induction l with
  | nil => exact List.IsChain.nil
  | cons x l ih =>
    cases l with
    | nil => exact List.IsChain.singleton x
    | cons y l =>
      obtain ⟨hxy,hl⟩ := List.isChain_cons_cons.mp h
      apply List.isChain_cons_cons.mpr
      refine ⟨⟨?_,?_⟩,?_⟩
      · rw [hn x (by simp [List.dropLast])]
        exact hxy.1
      · rw [hp y (by simp)]
        exact hxy.2
      · apply ih hl
        · intro z hz
          exact hn z (by simp only [List.dropLast,List.mem_cons]; exact Or.inr hz)
        · intro z hz
          exact hp z (List.mem_cons_of_mem y hz)

/-- A ring can be read from any of its nodes on. -/
theorem ring_rotate (k : Links α) (a b : List α) (h : Ring k (a++b)) : Ring k (b++a) := by
  cases a with
  | nil => simpa using h
  | cons x a =>
    cases b with
    | nil => simpa using h
    | cons y b =>
      obtain ⟨hl,hc⟩ := h
      obtain ⟨ha,hb,hab⟩ := List.isChain_append.mp hl
      refine ⟨List.isChain_append.mpr ⟨hb,ha,?_⟩,?_⟩
      · intro p hp q hq
        apply hc p _ q
        · simpa using hq
        · rw [List.getLast?_append]
          rw [Option.mem_def] at hp ⊢
          rw [hp]
          rfl
      · intro p hp q hq
        apply hab p _ q
        · simpa using hq
        · rw [List.getLast?_append] at hp
          rw [Option.mem_def] at hp ⊢
          rw [List.getLast?_cons] at hp ⊢
          simpa using hp

theorem ring_cons (k : Links α) (x : α) (l : List α) :
    Ring k (x::l) ↔ Linked k (x::l++[x]) := by
  rw [Linked,List.isChain_append]
  constructor
  · intro hgiven
    obtain ⟨hl,hc⟩ := hgiven
    exact ⟨hl,List.IsChain.singleton x,fun p hp q hq => hc p hp q (by simpa using hq)⟩
  · intro hgiven
    obtain ⟨hl,-,hc⟩ := hgiven
    exact ⟨hl,fun p hp q hq => hc p hp q (by simpa using hq)⟩

/-- What a ring says at its first node. -/
theorem ring_first (k : Links α) (x q : α) (b : List α) (h : Ring k (x::q::b)) :
    k.next x=q ∧ k.prev q=x :=
  (List.isChain_cons_cons.mp h.1).1

theorem ring_last (k : Links α) (x p : α) (a : List α) (h : Ring k (x::a++[p])) :
    k.next p=x ∧ k.prev x=p :=
  h.2 p (by rw [List.getLast?_concat]; rfl) x rfl

theorem ring_singleton (k : Links α) (x : α) : Ring k [x] ↔ k.next x=x ∧ k.prev x=x := by
  constructor
  · exact fun h => h.2 x rfl x rfl
  · intro h
    refine ⟨List.IsChain.singleton x,?_⟩
    intro p hp q hq
    rw [List.getLast?_singleton,Option.mem_def,Option.some.injEq] at hp
    rw [List.head?_cons,Option.mem_def,Option.some.injEq] at hq
    rw [← hp,← hq]
    exact h

theorem ring_frame (k k' : Links α) (c : List α) (h : Ring k c)
    (hf : ∀ x∈c,k'.next x=k.next x ∧ k'.prev x=k.prev x) : Ring k' c := by
  refine ⟨linked_frame k k' c h.1 (fun x hx => (hf x (List.mem_of_mem_dropLast hx)).1)
    (fun x hx => (hf x (List.mem_of_mem_tail hx)).2),?_⟩
  intro p hp q hq
  obtain ⟨h1,h2⟩ := h.2 p hp q hq
  refine ⟨?_,?_⟩
  · rw [(hf p (List.mem_of_getLast? hp)).1]
    exact h1
  · rw [(hf q (List.mem_of_head? hq)).2]
    exact h2

/-- The pointers of a ring stay inside it and undo each other. -/
theorem ring_mem (k : Links α) (c : List α) (h : Ring k c) (x : α) (hx : x∈c) :
    k.next x∈c ∧ k.prev x∈c ∧ k.prev (k.next x)=x ∧ k.next (k.prev x)=x := by
  obtain ⟨a,b,rfl⟩ := List.append_of_mem hx
  have hr : Ring k (x::(b++a)) := ring_rotate k a (x::b) h
  have hmem : ∀ y∈b++a,y∈a++x::b := by
    intro y hy
    simp only [List.mem_append,List.mem_cons] at hy ⊢
    tauto
  have hnext : k.next x∈a++x::b ∧ k.prev (k.next x)=x := by
    match hl : b++a with
    | [] =>
      rw [hl] at hr
      obtain ⟨h1,h2⟩ := (ring_singleton k x).mp hr
      rw [h1]
      exact ⟨hx,h2⟩
    | q::l =>
      rw [hl] at hr
      obtain ⟨h1,h2⟩ := ring_first k x q l hr
      rw [h1]
      exact ⟨hmem q (by rw [hl]; exact List.mem_cons_self),h2⟩
  have hprev : k.prev x∈a++x::b ∧ k.next (k.prev x)=x := by
    rcases List.eq_nil_or_concat (b++a) with hl|⟨l,p,hl⟩
    · rw [hl] at hr
      obtain ⟨h1,h2⟩ := (ring_singleton k x).mp hr
      rw [h2]
      exact ⟨hx,h1⟩
    · rw [hl] at hr
      obtain ⟨h1,h2⟩ := ring_last k x p l (by simpa using hr)
      rw [h2]
      exact ⟨hmem p (by rw [hl]; simp),h1⟩
  exact ⟨hnext.1,hprev.1,hnext.2,hprev.2⟩

end

section

variable {α : Type} [DecidableEq α]

def setNext (k : Links α) (x y : α) : Links α := ⟨Function.update k.next x y,k.prev⟩

def setPrev (k : Links α) (x y : α) : Links α := ⟨k.next,Function.update k.prev x y⟩

/-- Make q follow p. -/
def link (k : Links α) (p q : α) : Links α := setNext (setPrev k q p) p q

@[simp] theorem link_next (k : Links α) (p q x : α) :
    (link k p q).next x=if x=p then q else k.next x := by
  simp only [link,setNext,setPrev,Function.update_apply]

@[simp] theorem link_prev (k : Links α) (p q x : α) :
    (link k p q).prev x=if x=q then p else k.prev x := by
  simp only [link,setNext,setPrev,Function.update_apply]

theorem link_adjacent (k : Links α) (p q : α) : Adjacent (link k p q) p q := by
  simp [Adjacent]

theorem adjacent_link (k : Links α) (p q x y : α) (h : Adjacent k x y) (hx : x≠p) (hy : y≠q) :
    Adjacent (link k p q) x y := by
  simp only [Adjacent,link_next,link_prev,if_neg hx,if_neg hy]
  exact h

theorem linked_link (k : Links α) (p q : α) (l : List α) (h : Linked k l)
    (hp : p∉l.dropLast) (hq : q∉l.tail) : Linked (link k p q) l := by
  apply linked_frame k _ l h
  · intro x hx
    rw [link_next,if_neg (ne_of_mem_of_not_mem hx hp)]
  · intro x hx
    rw [link_prev,if_neg (ne_of_mem_of_not_mem hx hq)]

/-- Linking the end of one chain to the start of another one makes one chain. -/
theorem linked_join (k : Links α) (a b : List α) (p q : α) (ha : Linked k (a++[p]))
    (hb : Linked k (q::b)) (hpa : p∉a) (hpb : p∉(q::b).dropLast) (hqa : q∉(a++[p]).tail)
    (hqb : q∉b) : Linked (link k p q) (a++[p]++q::b) := by
  apply List.isChain_append.mpr
  refine ⟨?_,?_,?_⟩
  · exact linked_link k p q _ ha (by rw [List.dropLast_concat]; exact hpa) hqa
  · exact linked_link k p q _ hb hpb hqb
  · intro x hx y hy
    rw [List.getLast?_concat,Option.mem_def,Option.some.injEq] at hx
    rw [List.head?_cons,Option.mem_def,Option.some.injEq] at hy
    rw [← hx,← hy]
    exact link_adjacent k p q

/-- A new node between the last node of a ring and its first. -/
theorem ring_insert (k : Links α) (x n : α) (t : List α) (h : Ring k (x::t))
    (hd : (x::t).Nodup) (hn : n∉x::t) :
    Ring (link (link k n x) (k.prev x) n) (x::t++[n]) := by
  obtain ⟨a,p,hl⟩ := (List.eq_nil_or_concat' (x::t)).resolve_left (by simp)
  have hp : k.prev x=p := by
    have hlast := h.2 p (by rw [hl,List.getLast?_concat]; rfl) x rfl
    exact hlast.2
  have hxt : x∉t := (List.nodup_cons.mp hd).1
  have hpa : p∉a := by
    rw [hl] at hd
    exact fun hm => (List.disjoint_of_nodup_append hd) hm (by simp)
  have hnp : n≠p := fun e => hn (by rw [hl,e]; simp)
  have hnx : n≠x := fun e => hn (by rw [e]; simp)
  have h1 : Linked (link k n x) (x::t) :=
    linked_link k n x _ h.1 (fun hm => hn (List.mem_of_mem_dropLast hm)) hxt
  rw [hp]
  refine ⟨?_,?_⟩
  · rw [hl] at h1 hn ⊢
    exact linked_join _ a [] p n h1 (List.IsChain.singleton n) hpa (by simp)
      (fun hm => hn (List.mem_of_mem_tail hm)) (by simp)
  · intro y hy z hz
    rw [List.getLast?_concat,Option.mem_def,Option.some.injEq] at hy
    rw [List.cons_append,List.head?_cons,Option.mem_def,Option.some.injEq] at hz
    rw [← hy,← hz]
    exact adjacent_link _ p n n x (link_adjacent k n x) hnp (Ne.symm hnx)

/-- The ring without its first node. -/
theorem ring_remove (k : Links α) (e : α) (t : List α) (h : Ring k (e::t)) (hd : t.Nodup)
    (ht : t≠[]) : Ring (link k (k.prev e) (k.next e)) t := by
  obtain ⟨a,p,hl⟩ := (List.eq_nil_or_concat' t).resolve_left ht
  obtain ⟨q,b,hb⟩ := List.exists_cons_of_ne_nil ht
  have hp : k.prev e=p := (ring_last k e p a (by rw [List.cons_append,← hl]; exact h)).2
  have hq : k.next e=q := (ring_first k e q b (by rw [← hb]; exact h)).1
  have hpa : p∉a := by
    rw [hl] at hd
    exact fun hm => (List.disjoint_of_nodup_append hd) hm (by simp)
  have hqb : q∉b := by
    rw [hb] at hd
    exact (List.nodup_cons.mp hd).1
  rw [hp,hq]
  refine ⟨?_,?_⟩
  · apply linked_link k p q t (List.IsChain.tail h.1)
    · rw [hl,List.dropLast_concat]
      exact hpa
    · rw [hb]
      exact hqb
  · intro y hy z hz
    rw [hl,List.getLast?_concat,Option.mem_def,Option.some.injEq] at hy
    rw [hb,List.head?_cons,Option.mem_def,Option.some.injEq] at hz
    rw [← hy,← hz]
    exact link_adjacent k p q

/-- A new node in the place of the first one. -/
theorem ring_replace (k : Links α) (x n : α) (t : List α) (h : Ring k (x::t))
    (hd : t.Nodup) (hn : n∉t) (ht : t≠[]) :
    Ring (link (link k n (k.next x)) (k.prev x) n) (n::t) := by
  obtain ⟨a,p,hl⟩ := (List.eq_nil_or_concat' t).resolve_left ht
  obtain ⟨q,b,hb⟩ := List.exists_cons_of_ne_nil ht
  have hp : k.prev x=p := (ring_last k x p a (by rw [List.cons_append,← hl]; exact h)).2
  have hq : k.next x=q := (ring_first k x q b (by rw [← hb]; exact h)).1
  have hpa : p∉a := by
    rw [hl] at hd
    exact fun hm => (List.disjoint_of_nodup_append hd) hm (by simp)
  have hqb : q∉b := by
    rw [hb] at hd
    exact (List.nodup_cons.mp hd).1
  have hnp : p≠n := fun e => hn (by rw [hl,e]; simp)
  have h1 : Linked (link k n q) (n::t) := by
    have hj := linked_join k [] b n q (List.IsChain.singleton n)
      (by rw [← hb]; exact List.IsChain.tail h.1) (by simp)
      (fun hm => hn (by rw [hb]; exact List.mem_of_mem_dropLast hm)) (by simp) hqb
    rw [hb]
    exact hj
  rw [hp,hq]
  refine ⟨?_,?_⟩
  · apply linked_link _ p n _ h1
    · rw [hl,← List.cons_append,List.dropLast_concat]
      simp only [List.mem_cons,not_or]
      exact ⟨hnp,hpa⟩
    · exact hn
  · intro y hy z hz
    rw [hl,← List.cons_append,List.getLast?_concat,Option.mem_def,Option.some.injEq] at hy
    rw [List.head?_cons,Option.mem_def,Option.some.injEq] at hz
    rw [← hy,← hz]
    exact link_adjacent _ p n

/-- A ring cut in two: the nodes after x up to e go to the ring of a new node n. -/
theorem ring_cut (k : Links α) (x e n : α) (a b : List α) (h : Ring k (x::(a++[e]++b)))
    (hd : (x::(a++[e]++b)).Nodup) (hn : n∉x::(a++[e]++b)) :
    Ring (link (link (link k n (k.next x)) e n) x (k.next e)) (n::(a++[e])) ∧
      Ring (link (link (link k n (k.next x)) e n) x (k.next e)) (x::b) := by
  obtain ⟨f,c,hf⟩ := List.exists_cons_of_ne_nil (show a++[e]≠[] by simp)
  obtain ⟨g,d,hg⟩ := List.exists_cons_of_ne_nil (show b++[x]≠[] by simp)
  have hall : Linked k (x::((a++[e])++(b++[x]))) := by
    rw [ring_cons] at h
    simpa only [List.cons_append,List.append_assoc] using h
  obtain ⟨hleft,hright,hmid⟩ := List.isChain_append.mp (List.IsChain.tail hall)
  have hnextx : k.next x=f := by
    rw [hf] at hall
    exact (List.isChain_cons_cons.mp hall).1.1
  have hnexte : k.next e=g := (hmid e (by rw [List.getLast?_concat]; rfl) g (by rw [hg]; rfl)).1
  have hperm : (x::(a++[e]++b)).Perm ((a++[e])++(b++[x])) := by
    rw [← List.append_assoc]
    exact (List.perm_append_singleton x _).symm
  obtain ⟨hu,hv,huv⟩ := List.nodup_append.mp (hperm.nodup_iff.mp hd)
  have hnu : n∉a++[e] := fun hm => hn (hperm.mem_iff.mpr (List.mem_append_left _ hm))
  have hnv : n∉b++[x] := fun hm => hn (hperm.mem_iff.mpr (List.mem_append_right _ hm))
  have heu : e∈a++[e] := by simp
  have hxv : x∈b++[x] := by simp
  have hfu : f∈a++[e] := by
    rw [hf]
    exact List.mem_cons_self
  have hgv : g∈b++[x] := by
    rw [hg]
    exact List.mem_cons_self
  have hgn : g≠n := ne_of_mem_of_not_mem hgv hnv
  have hxn : x≠n := ne_of_mem_of_not_mem hxv hnv
  have hea : e∉a := fun hm => (List.disjoint_of_nodup_append hu) hm (by simp)
  have hxb : x∉b := fun hm => (List.disjoint_of_nodup_append hv) hm (by simp)
  have hfc : f∉c := by
    rw [hf] at hu
    exact (List.nodup_cons.mp hu).1
  have hgd : g∉d := by
    rw [hg] at hv
    exact (List.nodup_cons.mp hv).1
  rw [hnextx,hnexte]
  -- the first link: n before the part cut off
  have hl1 : Linked (link k n f) (n::(a++[e])) := by
    rw [hf] at hleft hnu ⊢
    exact linked_join k [] c n f (List.IsChain.singleton n) hleft (by simp)
      (fun hm => hnu (List.mem_of_mem_dropLast hm)) (by simp) hfc
  have hr1 : Linked (link k n f) (b++[x]) := by
    apply linked_link k n f _ hright (fun hm => hnv (List.mem_of_mem_dropLast hm))
    exact fun hm => huv f hfu f (List.mem_of_mem_tail hm) rfl
  -- the second one closes the new ring
  have hl2 : Linked (link (link k n f) e n) (n::(a++[e])) := by
    apply linked_link _ e n _ hl1
    · rw [← List.cons_append,List.dropLast_concat]
      simp only [List.mem_cons,not_or]
      exact ⟨ne_of_mem_of_not_mem heu hnu,hea⟩
    · exact hnu
  have hr2 : Linked (link (link k n f) e n) (b++[x]) := by
    apply linked_link _ e n _ hr1
    · exact fun hm => huv e heu e (List.mem_of_mem_dropLast hm) rfl
    · exact fun hm => hnv (List.mem_of_mem_tail hm)
  -- and the third the old one
  refine ⟨⟨?_,?_⟩,?_⟩
  · apply linked_link _ x g _ hl2
    · rw [← List.cons_append,List.dropLast_concat]
      simp only [List.mem_cons,not_or]
      exact ⟨hxn,fun hm => huv x (List.mem_append_left _ hm) x hxv rfl⟩
    · exact fun hm => huv g hm g hgv rfl
  · intro y hy z hz
    rw [← List.cons_append,List.getLast?_concat,Option.mem_def,Option.some.injEq] at hy
    rw [List.head?_cons,Option.mem_def,Option.some.injEq] at hz
    rw [← hy,← hz]
    exact adjacent_link _ x g e n (link_adjacent _ e n) (huv e heu x hxv) (Ne.symm hgn)
  · rw [ring_cons,List.cons_append,hg]
    rw [hg] at hr2
    apply linked_join _ [] d x g (List.IsChain.singleton x) hr2 (by simp) _ (by simp) hgd
    rw [← hg,List.dropLast_concat]
    exact hxb

/-- Follow a pointer until a node comes up again; the fuel bounds the steps. -/
def walk (f : α → α) (stop : α) : Nat → α → Option (List α)
  | 0,_ => none
  | n+1,pos => if pos=stop then some [] else (walk f stop n (f pos)).map (pos::·)

theorem walk_linked (k : Links α) (l : List α) (x : α) (n : Nat) (h : Linked k (l++[x]))
    (hx : x∉l) (hn : l.length<n) :
    ∀ y∈(l++[x]).head?,walk k.next x n y=some l := by
  induction l generalizing n with
  | nil =>
    intro y hy
    obtain ⟨n,rfl⟩ := Nat.exists_eq_succ_of_ne_zero (Nat.ne_zero_of_lt hn)
    rw [List.nil_append,List.head?_cons,Option.mem_def,Option.some.injEq] at hy
    rw [walk,if_pos hy.symm]
  | cons z l ih =>
    intro y hy
    obtain ⟨n,rfl⟩ := Nat.exists_eq_succ_of_ne_zero (Nat.ne_zero_of_lt hn)
    rw [List.cons_append,List.head?_cons,Option.mem_def,Option.some.injEq] at hy
    have hzx : z≠x := fun e => hx (e ▸ List.mem_cons_self)
    have htail : Linked k (l++[x]) := List.IsChain.tail h
    have hnext : k.next z∈(l++[x]).head? := by
      cases l with
      | nil =>
        have hz := (List.isChain_cons_cons.mp h).1.1
        rw [hz]
        rfl
      | cons w l =>
        have hz := (List.isChain_cons_cons.mp h).1.1
        rw [hz]
        rfl
    rw [walk,← hy,if_neg hzx,
      ih n htail (fun hm => hx (List.mem_cons_of_mem z hm)) (by simpa using hn) _ hnext]
    rfl

/-- Following the next pointers from the first node gives the others in order. -/
theorem walk_ring (k : Links α) (x : α) (l : List α) (n : Nat) (h : Ring k (x::l))
    (hx : x∉l) (hn : l.length<n) : walk k.next x n (k.next x)=some l := by
  rw [ring_cons] at h
  apply walk_linked k l x n (List.IsChain.tail h) hx hn
  cases l with
  | nil =>
    rw [(List.isChain_cons_cons.mp h).1.1]
    rfl
  | cons y l =>
    rw [(List.isChain_cons_cons.mp h).1.1]
    rfl

omit [DecidableEq α] in
theorem ring_reverse (k : Links α) (x : α) (l : List α) (h : Ring k (x::l)) :
    Ring ⟨k.prev,k.next⟩ (x::l.reverse) := by
  rw [ring_cons] at h ⊢
  have hrev : x::l.reverse++[x]=(x::l++[x]).reverse := by simp
  rw [hrev,Linked,List.isChain_reverse]
  apply List.IsChain.imp _ h
  intro a b hab
  exact ⟨hab.2,hab.1⟩

theorem walk_ring_prev (k : Links α) (x : α) (l : List α) (n : Nat) (h : Ring k (x::l))
    (hx : x∉l) (hn : l.length<n) : walk k.prev x n (k.prev x)=some l.reverse :=
  walk_ring ⟨k.prev,k.next⟩ x l.reverse n (ring_reverse k x l h) (by simpa using hx)
    (by simpa using hn)

end

end IdearNiu.Rings
