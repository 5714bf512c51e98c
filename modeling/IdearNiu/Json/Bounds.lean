import IdearNiu.Json.CJson

namespace IdearNiu.CJson

/-! Every call of the parser leaves no more text than it was given, so the bound that
cJSON_Parse starts with is enough for every text. -/

theorem skip_length (text : List Byte) : (skip text).length≤text.length :=
  List.length_dropWhile_le _ _

theorem after_length (c : Byte) (text : List Byte) : (after c text).2.length≤text.length := by
  rw [after]
  split <;> simp

theorem readDigits_length (n : Nat) (text : List Byte) :
    (readDigits n text).2.2.length≤text.length := by
  induction text generalizing n with
  | nil => exact Nat.le_refl _
  | cons c text ih =>
    rw [readDigits]
    split
    · exact (ih (n*10+(c.toNat-0x30))).trans (Nat.le_succ _)
    · exact Nat.le_refl _

theorem readExponent_length (text : List Byte) : (readExponent text).2.length≤text.length := by
  cases text with
  | nil => exact Nat.le_refl _
  | cons e text =>
    have hplus := after_length 0x2b text
    have hminus := after_length minus (after 0x2b text).2
    simp only [readExponent]
    split
    · refine Nat.le_trans ?_ (Nat.le_succ _)
      split
      · exact (readDigits_length 0 _).trans hplus
      · exact (readDigits_length 0 _).trans (hminus.trans hplus)
    · exact Nat.le_refl _

theorem parseNumber_length (f : Fields) (num : List Byte) :
    (parseNumber f num).2.length≤num.length := by
  have hminus := after_length minus num
  have hzero := after_length 0x30 (after minus num).2
  simp only [parseNumber]
  refine (readExponent_length _).trans ?_
  refine Nat.le_trans ?_ (hzero.trans hminus)
  have hfraction (n count : Nat) (num : List Byte) :
      (if num.head?=some point ∧ num.tail.head?.any isDigit then readDigits n num.tail
        else (n,count,num)).2.2.length≤num.length := by
    split
    · refine (readDigits_length n num.tail).trans ?_
      simp
    · exact Nat.le_refl _
  refine (hfraction _ _ _).trans ?_
  split
  · exact readDigits_length 0 _
  · exact Nat.le_refl _

/-- A parse that ends, in a failure or in a result that leaves no more than n characters. -/
def Bounded {α : Type} (rest : α → List Byte) (n : Nat) : Except Failure α → Prop
  | .ok a => (rest a).length≤n
  | .error e => e≠.outOfFuel

theorem Bounded.bind {α β : Type} (rest : α → List Byte) (rest' : β → List Byte) (n m : Nat)
    (x : Except Failure α) (k : α → Except Failure β) (hx : Bounded rest n x)
    (hk : ∀ a,(rest a).length≤n → Bounded rest' m (k a)) : Bounded rest' m (x >>= k) := by
  cases x with
  | error e => exact hx
  | ok a => exact hk a hx

theorem scanString_bounded (len : Int) (text : List Byte) :
    Bounded (fun _ => []) 0 (scanString len text) := by
  fun_induction scanString len text with
  | case1 => exact Nat.le_refl _
  | case2 => exact Nat.le_refl _
  | case3 => exact Nat.le_refl _
  | case4 => exact Failure.noConfusion
  | case5 _ _ _ _ _ _ ih => exact ih
  | case6 _ _ _ _ _ _ _ ih => exact ih

theorem unescape_bounded (uc uc2 : Option Word) (text : List Byte) :
    Bounded Prod.snd text.length (unescape uc uc2 text) := by
  have hweaken (x : Except Failure (List Byte × List Byte)) (n m : Nat)
      (h : Bounded Prod.snd n x) (hle : n ≤ m) : Bounded Prod.snd m x := by
    cases x with
    | error e => exact h
    | ok a => exact Nat.le_trans h hle
  fun_induction unescape uc uc2 text
  case case1 | case2 => exact Nat.le_refl _
  case case4 | case6 | case9 | case12 | case15 => exact Failure.noConfusion
  case case3 | case5 | case11 | case14 =>
    rename_i ih
    refine ih.bind _ _ _ _ _ _ ?_
    intro a ha
    refine Nat.le_trans ha ?_
    simp only [List.length_cons]
    omega
  case case7 | case8 | case10 | case13 =>
    rename_i ih
    refine hweaken _ _ _ ih ?_
    simp only [List.length_cons]
    omega

variable (malloc : Nat → Bool)

theorem parseString_bounded (f : Fields) (str : List Byte) :
    Bounded Prod.snd (str.length-1) (parseString malloc f str) := by
  rw [parseString]
  split
  · exact Failure.noConfusion
  · refine (scanString_bounded 0 str.tail).bind _ _ _ _ _ _ ?_
    intro len _
    dsimp only
    split
    · refine (unescape_bounded none none str.tail).bind _ _ _ _ _ _ ?_
      intro r hptr
      obtain ⟨out,ptr⟩ := r
      rw [List.length_tail] at hptr
      dsimp only
      split
      · exact (after_length quote ptr).trans hptr
      · exact Failure.noConfusion
    · exact Failure.noConfusion

/-- What each of the five functions is bounded by, with three units of fuel for a character. -/
structure ParseBounded (fuel : Nat) : Prop where
  value : ∀ f text,3*text.length<fuel →
    Bounded (·.2.2) text.length (parseValue malloc fuel f text)
  array : ∀ f text,text≠[] → 3*text.length≤fuel →
    Bounded (·.2.2) text.length (parseArray malloc fuel f text)
  elements : ∀ text,3*text.length+1<fuel →
    Bounded (·.2) text.length (parseElements malloc fuel text)
  object : ∀ f text,text≠[] → 3*text.length≤fuel →
    Bounded (·.2.2) text.length (parseObject malloc fuel f text)
  members : ∀ text,3*text.length+1<fuel →
    Bounded (·.2) text.length (parseMembers malloc fuel text)

theorem parseValue_bounded (fuel : Nat) (h : ParseBounded malloc fuel) (f : Fields)
    (text : List Byte) (hfuel : 3*text.length<fuel+1) :
    Bounded (·.2.2) text.length (parseValue malloc (fuel+1) f text) := by
  have hne (c : Byte) (hc : text.head?=some c) : text≠[] := by
    intro heq
    subst heq
    cases hc
  rw [parseValue]
  have hdrop (n : Nat) : (text.drop n).length≤text.length := by
    rw [List.length_drop]
    exact Nat.sub_le _ _
  split
  · exact hdrop 4
  split
  · exact hdrop 5
  split
  · exact hdrop 4
  split
  · refine (parseString_bounded malloc f text).bind _ _ _ _ _ _ ?_
    intro a ha
    exact ha.trans (Nat.sub_le _ _)
  split
  · exact parseNumber_length f text
  split
  next hc => exact h.array f text (hne _ hc) (by omega)
  split
  next hc => exact h.object f text (hne _ hc) (by omega)
  exact Failure.noConfusion

theorem parseElements_bounded (fuel : Nat) (h : ParseBounded malloc fuel)
    (text : List Byte) (hfuel : 3*text.length+1<fuel+1) :
    Bounded (·.2) text.length (parseElements malloc (fuel+1) text) := by
  have hskip := skip_length text
  rw [parseElements]
  split
  · refine (h.value newItem (skip text) (by omega)).bind _ _ _ _ _ _ ?_
    intro r hrest
    obtain ⟨f,child,rest⟩ := r
    have hrest' := skip_length rest
    simp only at hrest ⊢
    split
    next hc =>
      obtain ⟨tail,htail⟩ := List.head?_eq_some_iff.mp hc
      rw [htail] at hrest' ⊢
      simp only [List.length_cons,List.tail_cons] at hrest' ⊢
      refine (h.elements tail (by omega)).bind _ _ _ _ _ _ ?_
      intro a ha
      exact ha.trans (by omega)
    next =>
      exact hrest'.trans (hrest.trans hskip)
  · exact Failure.noConfusion

/-- Items between brackets, read by either parser. -/
theorem bracketed_bounded (items : List Byte → Except Failure (Item × List Byte))
    (close : Byte) (f : Fields) (text : List Byte) (hne : text≠[])
    (hitems : ∀ value : List Byte,value.length+1≤text.length →
      Bounded (·.2) value.length (items value)) :
    Bounded (·.2.2) text.length
      (if (skip text.tail).head?=some close then .ok (f,.null,(skip text.tail).tail)
      else do
        let (child,value) ← items (skip text.tail)
        if value.head?=some close then .ok (f,child,value.tail) else .error .null) := by
  have hskip := skip_length text.tail
  have hpos := List.length_pos_iff.mpr hne
  rw [List.length_tail] at hskip
  split
  · have htail := (skip text.tail).length_tail
    exact (show (skip text.tail).tail.length≤text.length by omega)
  · refine (hitems (skip text.tail) (by omega)).bind _ _ _ _ _ _ ?_
    intro r hrest
    obtain ⟨child,rest⟩ := r
    simp only at hrest ⊢
    split
    · have htail := rest.length_tail
      exact (show rest.tail.length≤text.length by omega)
    · exact Failure.noConfusion

theorem parseArray_bounded (fuel : Nat) (h : ParseBounded malloc fuel) (f : Fields)
    (text : List Byte) (hne : text≠[]) (hfuel : 3*text.length≤fuel+1) :
    Bounded (·.2.2) text.length (parseArray malloc (fuel+1) f text) := by
  rw [parseArray]
  exact bracketed_bounded (parseElements malloc fuel) closeArray _ text hne
    (fun value hvalue => h.elements value (by omega))

theorem parseMembers_bounded (fuel : Nat) (h : ParseBounded malloc fuel)
    (text : List Byte) (hfuel : 3*text.length+1<fuel+1) :
    Bounded (·.2) text.length (parseMembers malloc (fuel+1) text) := by
  have hskip := skip_length text
  rw [parseMembers]
  split
  · refine (parseString_bounded malloc newItem (skip text)).bind _ _ _ _ _ _ ?_
    intro r hvalue
    obtain ⟨f,value⟩ := r
    have hvalue' := skip_length value
    simp only at hvalue ⊢
    split
    next =>
      have htail := (skip value).length_tail
      have hskip' := skip_length (skip value).tail
      refine (h.value _ (skip (skip value).tail) (by omega)).bind _ _ _ _ _ _ ?_
      intro r hrest
      obtain ⟨f,child,rest⟩ := r
      have hrest' := skip_length rest
      simp only at hrest ⊢
      split
      next hc =>
        obtain ⟨tail,htail⟩ := List.head?_eq_some_iff.mp hc
        rw [htail] at hrest' ⊢
        simp only [List.length_cons,List.tail_cons] at hrest' ⊢
        refine (h.members tail (by omega)).bind _ _ _ _ _ _ ?_
        intro a ha
        exact ha.trans (by omega)
      next => exact (show (skip rest).length≤text.length by omega)
    next => exact Failure.noConfusion
  · exact Failure.noConfusion

theorem parseObject_bounded (fuel : Nat) (h : ParseBounded malloc fuel) (f : Fields)
    (text : List Byte) (hne : text≠[]) (hfuel : 3*text.length≤fuel+1) :
    Bounded (·.2.2) text.length (parseObject malloc (fuel+1) f text) := by
  rw [parseObject]
  exact bracketed_bounded (parseMembers malloc fuel) closeObject _ text hne
    (fun value hvalue => h.members value (by omega))

theorem parse_bounded (fuel : Nat) : ParseBounded malloc fuel := by
  induction fuel with
  | zero =>
    refine ⟨?_,?_,?_,?_,?_⟩
    · intro f text hfuel
      omega
    · intro f text hne hfuel
      exact absurd (List.length_eq_zero_iff.mp (by omega)) hne
    · intro text hfuel
      omega
    · intro f text hne hfuel
      exact absurd (List.length_eq_zero_iff.mp (by omega)) hne
    · intro text hfuel
      omega
  | succ fuel ih =>
    exact ⟨parseValue_bounded malloc fuel ih,parseArray_bounded malloc fuel ih,
      parseElements_bounded malloc fuel ih,parseObject_bounded malloc fuel ih,
      parseMembers_bounded malloc fuel ih⟩

/-- cJSON_Parse ends on every text before the bound it starts with is used up. -/
theorem cJSONParse_ends (text : List Byte) : cJSONParse malloc text≠.error .outOfFuel := by
  rw [cJSONParse]
  split
  · have hskip := skip_length text
    have h := (parse_bounded malloc (parseFuel text)).value newItem (skip text)
      (by rw [parseFuel]; omega)
    revert h
    generalize parseValue malloc (parseFuel text) newItem (skip text)=r
    intro h
    cases r with
    | error e =>
      intro he
      injection he with he
      exact h he
    | ok a =>
      intro he
      cases he
  · exact fun h => by injection h with h; cases h

end IdearNiu.CJson
