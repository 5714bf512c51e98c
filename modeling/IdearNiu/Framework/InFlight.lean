import Mathlib.Algebra.BigOperators.Group.Multiset.Basic
import Mathlib.Algebra.Order.BigOperators.Group.Multiset
import Mathlib.Logic.Relation
import Mathlib.Tactic

namespace IdearNiu.InFlight

section

variable {σ π : Type}

/-- Calls that run at once over shared cells. A call may begin in a state, which it may
change; each of its turns acts on the cells and leaves the rest of the call, if any. -/
structure Machine (σ π : Type) where
  call : σ → Multiset π → σ → Option π → Prop
  turn : π → σ → σ → Option π → Prop

/-- The calls in flight after one of them has moved or begun. -/
def joined (p : Option π) (rest : Multiset π) : Multiset π :=
  match p with
  | some p => p::ₘrest
  | none => rest

inductive Machine.Step (m : Machine σ π) : σ × Multiset π → σ × Multiset π → Prop
  | call {s s' : σ} {p : Option π} {ops : Multiset π} (h : m.call s ops s' p) :
      Machine.Step m (s,ops) (s',joined p ops)
  | turn {s s' : σ} {p : π} {q : Option π} {rest : Multiset π} (h : m.turn p s s' q) :
      Machine.Step m (s,p::ₘrest) (s',joined q rest)

def Machine.Reaches (m : Machine σ π) : σ × Multiset π → σ × Multiset π → Prop :=
  Relation.ReflTransGen m.Step

/-- What the begin of every call and every turn keep holds in every order of them. -/
theorem Machine.reaches_invariant {m : Machine σ π} (inv : σ → Multiset π → Prop)
    (hcall : ∀ s ops s' p,inv s ops → m.call s ops s' p → inv s' (joined p ops))
    (hturn : ∀ p s s' q rest,inv s (p::ₘrest) → m.turn p s s' q → inv s' (joined q rest))
    {s s' : σ × Multiset π} (hrun : m.Reaches s s') (h : inv s.1 s.2) : inv s'.1 s'.2 := by
  induction hrun with
  | refl => exact h
  | tail _ hstep ih =>
    cases hstep with
    | call hc => exact hcall _ _ _ _ ih hc
    | turn ht => exact hturn _ _ _ _ _ ih ht

/-- The sum of a weight over the calls in flight. -/
def total (w : π → Nat) (ops : Multiset π) : Nat := (ops.map w).sum

@[simp] theorem total_zero (w : π → Nat) : total w 0=0 := rfl

@[simp] theorem total_cons (w : π → Nat) (p : π) (ops : Multiset π) :
    total w (p::ₘops)=w p+total w ops := by
  rw [total,Multiset.map_cons,Multiset.sum_cons,total]

@[simp] theorem total_one (ops : Multiset π) : total (fun _ => 1) ops=ops.card := by
  rw [total,Multiset.map_const',Multiset.sum_replicate,smul_eq_mul,mul_one]

theorem le_total {w : π → Nat} {p : π} {ops : Multiset π} (h : p∈ops) : w p≤total w ops := by
  obtain ⟨rest,rfl⟩ := Multiset.exists_cons_of_mem h
  rw [total_cons]
  exact Nat.le_add_right _ _

/-- A weight that stays below another call by call does so in sum. -/
theorem total_le_total {w v : π → Nat} (h : ∀ p,w p≤v p) (ops : Multiset π) :
    total w ops≤total v ops := by
  induction ops using Multiset.induction_on with
  | empty => exact Nat.le_refl 0
  | cons p ops ih =>
    rw [total_cons,total_cons]
    exact Nat.add_le_add (h p) ih

end

end IdearNiu.InFlight
