import Mathlib.Tactic

namespace IdearNiu.Cursor

variable {α : Type}

/-- A block seen through a moving pointer: the cells around its start, the offset of the
pointer, and every offset read or written so far. -/
structure Cursor (α : Type) where
  cells : Int → α
  pos : Int
  touched : List Int

/-- `*p++ = a`. -/
def put (c : Cursor α) (a : α) : Cursor α :=
  ⟨Function.update c.cells c.pos a,c.pos+1,c.pos::c.touched⟩

def putAll (c : Cursor α) (t : List α) : Cursor α := t.foldl put c

/-- `p[-1]` and the cursor after the read. -/
def last (c : Cursor α) : α × Cursor α :=
  (c.cells (c.pos-1),{c with touched := (c.pos-1)::c.touched})

/-- `p--`. -/
def back (c : Cursor α) : Cursor α := {c with pos := c.pos-1}

theorem putAll_append (c : Cursor α) (s t : List α) :
    putAll c (s++t)=putAll (putAll c s) t := List.foldl_append

theorem putAll_cons (c : Cursor α) (a : α) (t : List α) :
    putAll c (a::t)=putAll (put c a) t := rfl

@[simp] theorem putAll_pos (c : Cursor α) (t : List α) :
    (putAll c t).pos=c.pos+t.length := by
  induction t generalizing c with
  | nil => simp [putAll]
  | cons a t ih =>
    rw [putAll_cons,ih]
    simp only [put,List.length_cons]
    push_cast
    ring

theorem putAll_outside (c : Cursor α) (t : List α) (i : Int)
    (h : i<c.pos ∨ c.pos+t.length ≤ i) : (putAll c t).cells i=c.cells i := by
  induction t generalizing c with
  | nil => rfl
  | cons a t ih =>
    simp only [List.length_cons] at h
    push_cast at h
    rw [putAll_cons,ih _ (by simp only [put]; omega)]
    exact Function.update_of_ne (by omega) _ _

theorem putAll_inside (c : Cursor α) (t : List α) (k : Nat) (h : k<t.length) :
    (putAll c t).cells (c.pos+k)=t[k] := by
  induction t generalizing c k with
  | nil => cases h
  | cons a t ih =>
    rw [putAll_cons]
    cases k with
    | zero =>
      rw [putAll_outside _ _ _ (Or.inl (by simp only [put]; omega))]
      simp [put]
    | succ k =>
      have hk := ih (put c a) k (by simpa using h)
      have he : (put c a).pos+(k : Int)=c.pos+((k+1 : Nat) : Int) := by
        simp only [put]; push_cast; ring
      rw [← he,hk]
      rfl

/-- Every access so far is to one of the first n cells. -/
def Within (n : Int) (c : Cursor α) : Prop := ∀ i∈c.touched, 0 ≤ i ∧ i<n

theorem Within.put (n : Int) (c : Cursor α) (a : α) (h : Within n c) (h0 : 0≤c.pos)
    (hn : c.pos<n) : Within n (put c a) := by
  intro i hi
  rcases List.mem_cons.mp hi with he|hm
  · subst he; exact ⟨h0,hn⟩
  · exact h i hm

theorem Within.putAll (n : Int) (c : Cursor α) (t : List α) (h : Within n c) (h0 : 0≤c.pos)
    (hn : c.pos+t.length ≤ n) : Within n (putAll c t) := by
  induction t generalizing c with
  | nil => exact h
  | cons a t ih =>
    simp only [List.length_cons] at hn
    push_cast at hn
    rw [putAll_cons]
    apply ih
    · exact h.put n c a h0 (by omega)
    · simp only [Cursor.put]; omega
    · simp only [Cursor.put]; omega

theorem Within.last (n : Int) (c : Cursor α) (h : Within n c) (h0 : 0<c.pos)
    (hn : c.pos ≤ n) : Within n (last c).2 := by
  intro i hi
  rcases List.mem_cons.mp hi with he|hm
  · subst he; omega
  · exact h i hm

section Strings

variable [DecidableEq α]

/-- The text from a cell on, up to a terminator among the next n cells. -/
def stringAt (z : α) (cells : Int → α) (i : Int) : Nat → Option (List α)
  | 0 => none
  | n+1 => if cells i=z then some [] else (stringAt z cells (i+1) n).map (cells i::·)

theorem stringAt_isSome (z : α) (cells : Int → α) (i : Int) (n k : Nat) (hk : k<n)
    (h : cells (i+k)=z) : (stringAt z cells i n).isSome := by
  induction n generalizing i k with
  | zero => omega
  | succ n ih =>
    rw [stringAt]
    by_cases hz : cells i=z
    · rw [if_pos hz]; rfl
    · rw [if_neg hz,Option.isSome_map]
      cases k with
      | zero => exact absurd (by simpa only [Nat.cast_zero,add_zero] using h) hz
      | succ k =>
        apply ih (i+1) k (by omega)
        rw [← h]
        congr 1
        push_cast
        ring

theorem stringAt_eq (z : α) (cells : Int → α) (i : Int) (n : Nat) (t : List α)
    (hn : t.length<n) (ht : ∀ (k : Nat) (h : k<t.length), cells (i+k)=t[k]) (hz : z∉t)
    (he : cells (i+t.length)=z) : stringAt z cells i n=some t := by
  induction t generalizing i n with
  | nil =>
    obtain ⟨m,hm⟩ := Nat.exists_eq_succ_of_ne_zero (by simp at hn; omega : n≠0)
    subst hm
    simp only [List.length_nil,Nat.cast_zero,add_zero] at he
    rw [stringAt,if_pos he]
  | cons a t ih =>
    simp only [List.length_cons] at hn
    obtain ⟨m,hm⟩ := Nat.exists_eq_succ_of_ne_zero (by omega : n≠0)
    subst hm
    have h0 : cells i=a := by
      have hs := ht 0 (by simp)
      rwa [Nat.cast_zero,add_zero] at hs
    rw [List.mem_cons,not_or] at hz
    have hr : stringAt z cells (i+1) m=some t := by
      apply ih (i+1) m (by omega)
      · intro k hk
        have hs := ht (k+1) (by simpa using hk)
        rw [show i+1+(k : Int)=i+((k+1 : Nat) : Int) by push_cast; ring,hs]
        rfl
      · exact hz.2
      · rw [← he]
        congr 1
        simp only [List.length_cons]
        push_cast
        ring
    rw [stringAt,if_neg (by rw [h0]; exact Ne.symm hz.1),hr,h0]
    rfl

end Strings

end IdearNiu.Cursor
