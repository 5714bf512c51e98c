import Mathlib.Tactic

namespace IdearNiu.Windows

/-- Positions less than n apart have different slots. -/
theorem slot_ne (n c p q : Nat) (hpq : p<q) (hqp : q<p+n) : (p+c)%n≠(q+c)%n := by
  intro h
  have hd : n∣(q+c)-(p+c) := (Nat.modEq_iff_dvd' (by omega)).mp h
  have := Nat.le_of_dvd (by omega) hd
  omega

section

variable {α : Type}

/-- The cells hold a stream from position lo on, position p in slot (p+c)%n. -/
structure Window (cells : List α) (c lo : Nat) (stream : List α) : Prop where
  within : stream.length≤lo+cells.length
  cell : ∀ p,lo≤p → p < stream.length → cells[(p+c)%cells.length]?=stream[p]?

theorem Window.advance {cells : List α} {c lo : Nat} {stream : List α}
    (h : Window cells c lo stream) (lo' : Nat) (hlo : lo≤lo') :
    Window cells c lo' stream :=
  ⟨by have := h.within; omega,fun p hp => h.cell p (by omega)⟩

/-- With a slot to spare the next element takes it and displaces none of the window. -/
theorem Window.push {cells : List α} {c lo : Nat} {stream : List α}
    (h : Window cells c lo stream) (hroom : stream.length<lo+cells.length)
    (hlo : lo ≤ stream.length) (x : α) :
    Window (cells.set ((stream.length+c)%cells.length) x) c lo (stream++[x]) := by
  have hslot : (stream.length+c)%cells.length<cells.length := Nat.mod_lt _ (by omega)
  refine ⟨by rw [List.length_append,List.length_set]; exact hroom,fun p hp hlt => ?_⟩
  rw [List.length_set]
  rw [List.length_append] at hlt
  by_cases hnew : p=stream.length
  · rw [hnew,List.getElem?_set_self hslot]
    simp
  · have hold : p < stream.length := by simp only [List.length_singleton] at hlt; omega
    have hne := slot_ne cells.length c p stream.length hold (by omega)
    rw [List.getElem?_set_ne (Ne.symm hne),List.getElem?_append_left hold]
    exact h.cell p hp hold

/-- A window with nothing in it may be counted from anywhere. -/
theorem Window.shift {cells : List α} {c lo : Nat} {stream : List α}
    (h : Window cells c lo stream) (hempty : stream.length=lo) (c' : Nat) :
    Window cells c' lo stream :=
  ⟨h.within,fun _ hp hlt => by omega⟩

end

/-- Each slot is marked with the position stored there last. -/
structure Marked (marks : List (Option Nat)) (c lo hi : Nat) : Prop where
  live : ∀ p,lo≤p → p<hi → marks[(p+c)%marks.length]?=some (some p)
  owner : ∀ x p,marks[x]?=some (some p) → p<lo ∨ p<hi ∧ (p+c)%marks.length=x

section

variable {marks : List (Option Nat)} {c lo hi : Nat}

theorem Marked.advance (h : Marked marks c lo hi) (lo' : Nat) (hlo : lo≤lo') :
    Marked marks c lo' hi := by
  refine ⟨fun p hp => h.live p (by omega),fun x p hm => ?_⟩
  rcases h.owner x p hm with hp | hp
  · exact Or.inl (by omega)
  · exact Or.inr hp

theorem Marked.push (h : Marked marks c lo hi) (hroom : hi<lo+marks.length) (hlo : lo≤hi) :
    Marked (marks.set ((hi+c)%marks.length) (some hi)) c lo (hi+1) := by
  have hslot : (hi+c)%marks.length < marks.length := Nat.mod_lt _ (by omega)
  constructor
  · intro p hp hlt
    rw [List.length_set]
    by_cases hnew : p=hi
    · rw [hnew,List.getElem?_set_self hslot]
    · have hne := slot_ne marks.length c p hi (by omega) (by omega)
      rw [List.getElem?_set_ne (Ne.symm hne)]
      exact h.live p hp (by omega)
  · intro x p hm
    rw [List.length_set]
    by_cases hx : (hi+c)%marks.length=x
    · rw [← hx,List.getElem?_set_self hslot,Option.some_inj,Option.some_inj] at hm
      exact Or.inr ⟨by omega,by rw [← hm,hx]⟩
    · rw [List.getElem?_set_ne hx] at hm
      rcases h.owner x p hm with hp | ⟨hp,hpx⟩
      · exact Or.inl hp
      · exact Or.inr ⟨by omega,hpx⟩

theorem Marked.shift (h : Marked marks c lo hi) (hempty : hi=lo) (c' : Nat) :
    Marked marks c' lo hi := by
  refine ⟨fun p hp hlt => by omega,fun x p hm => ?_⟩
  rcases h.owner x p hm with hp | hp
  · exact Or.inl hp
  · exact Or.inl (by omega)

/-- The slot the next position takes was marked last by a position before the window. -/
theorem Marked.next_free (h : Marked marks c lo hi) (hroom : hi<lo+marks.length)
    (p : Nat) (hm : marks[(hi+c)%marks.length]?=some (some p)) : p<lo := by
  rcases h.owner _ p hm with hp | ⟨hp,hslot⟩
  · exact hp
  · by_contra hge
    exact slot_ne marks.length c p hi hp (by omega) hslot

end

end IdearNiu.Windows
