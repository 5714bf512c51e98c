import Mathlib.Tactic
import Mathlib.Data.List.Perm.Basic

namespace IdearNiu.KeyedMap

variable {β κ : Type} (key : β → κ) (same : κ → κ → Bool)

/-- Finite maps up to a key comparison: a list of bindings in any order, at most one
for each class of equal keys. The key of a binding is a projection. -/
def lookup (k : κ) (m : List β) : Option β := m.find? (fun b => same k (key b))

def erase (k : κ) (m : List β) : List β := m.filter (fun b => !same k (key b))

def insert (b : β) (m : List β) : List β := b::erase key same (key b) m

/-- No two bindings have equal keys. -/
def Distinct (m : List β) : Prop := m.Pairwise (fun a b => same (key a) (key b)=false)

/-- What the comparison must satisfy. -/
structure Lawful (same : κ → κ → Bool) : Prop where
  refl : ∀ a, same a a=true
  symm : ∀ a b, same a b=true → same b a=true
  trans : ∀ a b c, same a b=true → same b c=true → same a c=true

variable {key same}

theorem Lawful.false_symm (law : Lawful same) {a b : κ} (h : same a b=false) :
    same b a=false := by
  by_contra bad
  have hb : same b a=true := by simpa using bad
  simp [law.symm b a hb] at h

theorem Distinct.perm (law : Lawful same) {m n : List β} (hp : m.Perm n)
    (h : Distinct key same m) : Distinct key same n :=
  (hp.pairwise_iff (fun hab => law.false_symm hab)).mp h

/-- In a distinct map the binding with an equal key is the one that is found. -/
theorem lookup_eq_some (law : Lawful same) {m : List β} (h : Distinct key same m)
    {k : κ} {b : β} (hb : b∈m) (hk : same k (key b)=true) :
    lookup key same k m=some b := by
  induction m with
  | nil => simp at hb
  | cons a m ih =>
    have hd := List.pairwise_cons.mp h
    rw [lookup]
    rcases List.mem_cons.mp hb with rfl|hm
    · simp [hk]
    · have hab := hd.1 b hm
      have hka : same k (key a)=false := by
        by_contra bad
        have ha : same k (key a)=true := by simpa using bad
        have := law.trans (key a) k (key b) (law.symm k (key a) ha) hk
        simp [this] at hab
      rw [List.find?_cons,hka]
      exact ih hd.2 hm

theorem lookup_eq_none {m : List β} {k : κ} (h : ∀ b∈m,same k (key b)=false) :
    lookup key same k m=none := by
  apply List.find?_eq_none.mpr
  intro b hb
  simp [h b hb]

/-- Removing an equal binding from a distinct map leaves exactly the others. -/
theorem erase_of_perm_cons (law : Lawful same) {m n : List β} {b : β} {k : κ}
    (hp : m.Perm (b::n)) (h : Distinct key same m) (hk : same k (key b)=true) :
    (erase key same k m).Perm n := by
  have hd := List.pairwise_cons.mp (h.perm law hp)
  have hf : (erase key same k m).Perm (erase key same k (b::n)) := hp.filter _
  have hn : erase key same k (b::n)=n := by
    rw [erase]
    rw [List.filter_cons]
    simp only [hk,Bool.not_true,Bool.false_eq_true,if_false]
    apply List.filter_eq_self.mpr
    intro a ha
    have hba := hd.1 a ha
    have hka : same k (key a)=false := by
      by_contra bad
      have hka : same k (key a)=true := by simpa using bad
      have := law.trans (key b) k (key a) (law.symm k (key b) hk) hka
      simp [this] at hba
    simp [hka]
  rwa [hn] at hf

theorem erase_of_none {m : List β} {k : κ} (h : ∀ b∈m,same k (key b)=false) :
    erase key same k m=m := by
  apply List.filter_eq_self.mpr
  intro b hb
  simp [h b hb]

/-- Writing position i of a list exchanges the old element for the new one. -/
theorem set_perm {l : List β} {i : Nat} (hi : i<l.length) (b : β) :
    (l[i]::l.set i b).Perm (b::l) := by
  induction l generalizing i with
  | nil => simp at hi
  | cons a l ih =>
    cases i with
    | zero => exact List.Perm.swap _ _ _
    | succ i =>
      have hl : i<l.length := by simpa using hi
      simp only [List.getElem_cons_succ,List.set_cons_succ]
      exact (List.Perm.swap a l[i] _).trans (((ih hl).cons a).trans (List.Perm.swap b a l))

end IdearNiu.KeyedMap
