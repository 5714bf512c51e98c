import Mathlib.Tactic

namespace IdearNiu.SlotTables

section

variable {σ κ : Type} [DecidableEq κ] (key : σ → Option κ)

/-- A fixed array of slots, each empty or held by a key. -/
def holds (k : κ) (s : σ) : Bool := key s==some k

/-- The first slot that a key holds; the length of the table if there is none. -/
def first (k : κ) (l : List σ) : Nat := l.findIdx (holds key k)

/-- The first empty slot. -/
def firstFree (l : List σ) : Nat := l.findIdx (fun s => (key s).isNone)

/-- No key holds two slots. -/
def Distinct (l : List σ) : Prop :=
  ∀ (i j : Nat) (s t : σ) (k : κ),l[i]?=some s → l[j]?=some t →
    key s=some k → key t=some k → i=j

variable {key}

theorem holds_iff (k : κ) (s : σ) : holds key k s=true ↔ key s=some k := by
  rw [holds,beq_iff_eq]

theorem first_spec {k : κ} {l : List σ} (h : first key k l<l.length) :
    ∃ s,l[first key k l]?=some s ∧ key s=some k := by
  refine ⟨l[first key k l],List.getElem?_eq_getElem h,?_⟩
  exact (holds_iff k _).mp (List.findIdx_getElem (w := h))

omit [DecidableEq κ] in
theorem firstFree_spec {l : List σ} (h : firstFree key l<l.length) :
    ∃ s,l[firstFree key l]?=some s ∧ key s=none := by
  refine ⟨l[firstFree key l],List.getElem?_eq_getElem h,?_⟩
  exact Option.isNone_iff_eq_none.mp
    (List.findIdx_getElem (p := fun s => (key s).isNone) (w := h))

theorem first_lt {k : κ} {l : List σ} {i : Nat} {s : σ} (hi : l[i]?=some s)
    (hk : key s=some k) : first key k l<l.length :=
  List.findIdx_lt_length_of_exists ⟨s,List.mem_of_getElem? hi,(holds_iff k s).mpr hk⟩

theorem first_eq {l : List σ} (h : Distinct key l) {k : κ} {i : Nat} {s : σ}
    (hi : l[i]?=some s) (hk : key s=some k) : first key k l=i := by
  obtain ⟨t,ht,hkt⟩ := first_spec (first_lt hi hk)
  exact h _ _ t s k ht hi hkt hk

/-- Writing a slot that k neither held nor takes leaves where k is found. -/
theorem first_set {k : κ} {l : List σ} {i : Nat} {old new : σ} (hi : l[i]?=some old)
    (hold : key old≠some k) (hnew : key new≠some k) :
    first key k (l.set i new)=first key k l := by
  induction l generalizing i with
  | nil => simp at hi
  | cons a l ih =>
    cases i with
    | zero =>
      obtain rfl : a=old := by simpa using hi
      have ha : holds key k a=false := by simpa [holds] using hold
      have hn : holds key k new=false := by simpa [holds] using hnew
      simp only [first,List.set_cons_zero,List.findIdx_cons,ha,hn]
    | succ i =>
      have hl : l[i]?=some old := by simpa using hi
      have htail := ih hl
      simp only [first] at htail
      simp only [first,List.set_cons_succ,List.findIdx_cons,htail]

theorem get_set {l : List σ} {i j : Nat} {s new : σ} (h : (l.set i new)[j]?=some s) :
    (j=i ∧ s=new) ∨ (j≠i ∧ l[j]?=some s) := by
  by_cases hj : j=i
  · subst hj
    rw [List.getElem?_set_self'] at h
    cases hl : l[j]? with
    | none => rw [hl] at h; simp at h
    | some t =>
      rw [hl] at h
      exact Or.inl ⟨rfl,by simpa using h.symm⟩
  · rw [List.getElem?_set_ne (Ne.symm hj)] at h
    exact Or.inr ⟨hj,h⟩

omit [DecidableEq κ] in
/-- Emptying a slot, or giving it to a key that holds none, keeps the keys distinct. -/
theorem Distinct.set {l : List σ} (h : Distinct key l) (i : Nat) (new : σ)
    (hfresh : ∀ (j : Nat) (s : σ) (k : κ),key new=some k → l[j]?=some s → key s≠some k) :
    Distinct key (l.set i new) := by
  intro a b s t k ha hb hs ht
  rcases get_set ha with ⟨hai,rfl⟩|⟨hai,hla⟩ <;> rcases get_set hb with ⟨hbi,rfl⟩|⟨hbi,hlb⟩
  · exact hai.trans hbi.symm
  · exact absurd ht (hfresh b t k hs hlb)
  · exact absurd hs (hfresh a s k ht hla)
  · exact h a b s t k hla hlb hs ht

end

end IdearNiu.SlotTables
