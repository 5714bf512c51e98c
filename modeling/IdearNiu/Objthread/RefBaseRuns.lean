import IdearNiu.Objthread.RefBase

namespace IdearNiu.Objthread

open InFlight

/-- What a call under way counts for in mStrong. -/
def strongUnits : Pc → Nat
  | .firstRef _ => 1
  | .decStrong => 1
  | .fixRead => 1
  | .fixTry _ => 1
  | _ => 0

/-- What a call under way counts for in mWeak. -/
def weakUnits : Pc → Nat
  | .incStrong _ => 0
  | .incWeak _ => 0
  | .lastWeak => 0
  | .attempt => 0
  | .attemptWeakRead => 0
  | .attemptWeakTry _ => 0
  | _ => 1

/-- The calls that stand where the bias of a new object has been taken off. -/
def unbiased : Pc → Nat
  | .incStrong .strong => 1
  | .incStrongCount .strong => 1
  | .incWeak .strong => 1
  | .decStrong => 1
  | .lastStrong => 1
  | .fixTry curCount => if curCount < initialStrongValue then 1 else 0
  | _ => 0

/-- The calls that only the creator of the object makes. -/
def creators : Pc → Nat
  | .incStrong owner => if owner=.strong then 0 else 1
  | .incStrongCount owner => if owner=.strong then 0 else 1
  | .firstRef _ => 1
  | .incWeak owner => if owner=.raw then 1 else 0
  | _ => 0

def deleting : Pc → Nat
  | .lastStrong => 1
  | _ => 0

def freeing : Pc → Nat
  | .lastWeak => 1
  | _ => 0

def reviving : Pc → Nat
  | .attemptRevive => 1
  | _ => 0

/-- A count read for the last correction that is the bare bias. -/
def unread : Pc → Nat
  | .fixTry curCount => if curCount=initialStrongValue then 1 else 0
  | _ => 0

/-- The state once references are shared: the counters are the references held and under way,
mStrong with the bias on top as long as no strong reference has been completed. -/
structure Shared (extended : Bool) (r : Refs) (ops : Multiset Pc) : Prop where
  raw : r.raw=false
  noCreator : total creators ops=0
  weak : r.mWeak=r.strongHeld+r.weakHeld+total weakUnits ops
  strong : r.mStrong=r.strongHeld+total strongUnits ops ∨
    (r.mStrong=r.strongHeld+total strongUnits ops+268435456 ∧ r.strongHeld=0 ∧
      total unbiased ops=0)
  strongOwned : total (owned .strong) ops=0 ∨ 0<r.strongHeld
  weakOwned : total (owned .weak) ops=0 ∨ 0<r.weakHeld
  room : r.strongHeld+r.weakHeld+ops.card < 268435456
  freed : (r.mWeak=0 ∧ total freeing ops+r.refsDeletes=1) ∨
    (0<r.mWeak ∧ total freeing ops+r.refsDeletes=0)
  extendedDeleted : extended=true → r.objDeletes=r.refsDeletes
  deleted : extended=false →
    (r.mStrong=0 ∧ total deleting ops+r.objDeletes=1) ∨
    (0<r.mStrong ∧ r.mStrong < 268435456 ∧ total deleting ops+r.objDeletes=0) ∨
    (268435456≤r.mStrong ∧ r.objDeletes=r.refsDeletes)
  noRevival : extended=false → total reviving ops=0
  noBareBias : total unread ops=0

theorem strong_le_weak (ops : Multiset Pc) : total strongUnits ops≤total weakUnits ops := by
  refine total_le_total (fun p => ?_) ops
  cases p <;> simp [strongUnits,weakUnits]

theorem strong_le_card (ops : Multiset Pc) : total strongUnits ops≤ops.card := by
  rw [← total_one ops]
  refine total_le_total (fun p => ?_) ops
  cases p <;> simp [strongUnits]

theorem deleting_le_unbiased (ops : Multiset Pc) : total deleting ops≤total unbiased ops := by
  refine total_le_total (fun p => ?_) ops
  cases p <;> simp [deleting,unbiased]

section

variable {extended : Bool} {r : Refs} {p : Pc} {rest : Multiset Pc}

/-- The facts about a state with a call p under way, its own share split off. -/
theorem Shared.split (h : Shared extended r (p::ₘrest)) :
    creators p=0 ∧ total creators rest=0 ∧
      r.mWeak=r.strongHeld+r.weakHeld+weakUnits p+total weakUnits rest ∧
      (r.mStrong=r.strongHeld+strongUnits p+total strongUnits rest ∨
        (r.mStrong=r.strongHeld+strongUnits p+total strongUnits rest+268435456 ∧
          r.strongHeld=0 ∧ unbiased p=0 ∧ total unbiased rest=0)) ∧
      (owned .strong p+total (owned .strong) rest=0 ∨ 0 < r.strongHeld) ∧
      (owned .weak p+total (owned .weak) rest=0 ∨ 0 < r.weakHeld) ∧
      r.strongHeld+r.weakHeld+rest.card+1 < 268435456 ∧
      ((r.mWeak=0 ∧ freeing p+total freeing rest+r.refsDeletes=1) ∨
        (0 < r.mWeak ∧ freeing p+total freeing rest+r.refsDeletes=0)) ∧
      (extended=false →
        (r.mStrong=0 ∧ deleting p+total deleting rest+r.objDeletes=1) ∨
        (0 < r.mStrong ∧ r.mStrong < 268435456 ∧
          deleting p+total deleting rest+r.objDeletes=0) ∨
        (268435456≤r.mStrong ∧ r.objDeletes=r.refsDeletes)) ∧
      (extended=false → reviving p=0 ∧ total reviving rest=0) ∧
      unread p=0 ∧ total unread rest=0 ∧
      total strongUnits rest≤total weakUnits rest ∧ total strongUnits rest≤rest.card ∧
      total deleting rest≤total unbiased rest := by
  obtain ⟨_,hcreators,hweak,hstrong,hso,hwo,hroom,hfreed,_,hdel,hrev,hunread⟩ := h
  simp only [total_cons,Multiset.card_cons] at *
  refine ⟨by omega,by omega,by omega,by omega,hso,hwo,by omega,hfreed,hdel,fun he => ?_,
    by omega,by omega,strong_le_weak rest,strong_le_card rest,deleting_le_unbiased rest⟩
  have hrev := hrev he
  omega

/-- A turn that leaves the counters alone. -/
theorem Shared.quiet (h : Shared extended r (p::ₘrest)) (p' : Pc)
    (hstrong : strongUnits p'=strongUnits p) (hweak : weakUnits p'=weakUnits p)
    (hcreators : creators p'=0) (hso : owned .strong p'≤owned .strong p)
    (hwo : owned .weak p'≤owned .weak p) (hfree : freeing p'=freeing p)
    (hdel : extended=false → deleting p'=deleting p) (hrev : extended=false → reviving p'=0)
    (hunread : unread p'=0) (hbias : unbiased p'=0 ∨ r.mStrong < 268435456) :
    Shared extended r (p'::ₘrest) := by
  obtain ⟨_,hc,hw,hs,ho,hv,hroom,hfreed,hd,hr,_,hu,_,_,_⟩ := h.split
  refine ⟨h.raw,?_,?_,?_,?_,?_,?_,?_,h.extendedDeleted,fun he => ?_,fun he => ?_,?_⟩
  all_goals simp only [total_cons,Multiset.card_cons]
  case refine_8 =>
    have hd := hd he
    have hdel := hdel he
    omega
  case refine_9 =>
    have hr := (hr he).2
    have hrev := hrev he
    omega
  all_goals omega

/-- A turn after which the call stands for what it did before. -/
theorem Shared.waits (h : Shared extended r (p::ₘrest)) (p' : Pc)
    (hsame : (strongUnits p',weakUnits p',owned .strong p',owned .weak p',freeing p',deleting p')=
      (strongUnits p,weakUnits p,owned .strong p,owned .weak p,freeing p,deleting p))
    (hplain : creators p'+reviving p'+unread p'+unbiased p'=0) :
    Shared extended r (p'::ₘrest) := by
  simp only [Prod.mk.injEq] at hsame
  obtain ⟨hstrong,hweak,hso,hwo,hfree,hdel⟩ := hsame
  apply h.quiet p' hstrong hweak
  · omega
  · exact hso.le
  · exact hwo.le
  · exact hfree
  · exact fun _ => hdel
  · intro _
    omega
  · omega
  · left
    omega

/-- A call that was refused gives back the weak reference it had counted. -/
theorem Shared.refused (h : Shared extended r (p::ₘrest)) (hweak : weakUnits p=1)
    (hplain : strongUnits p+owned .strong p+freeing p+deleting p=0) :
    Shared extended r (Pc.decWeak::ₘrest) := by
  have hunits : strongUnits .decWeak=0 ∧ weakUnits .decWeak=1 ∧ owned .strong .decWeak=0 ∧
      owned .weak .decWeak=0 ∧ freeing .decWeak=0 ∧ deleting .decWeak=0 := by decide
  apply h.quiet .decWeak
  · omega
  · omega
  · rfl
  · omega
  · omega
  · omega
  · intro _
    omega
  · exact fun _ => rfl
  · rfl
  · exact Or.inl rfl

/-- A weak reference is counted at the start of a call that keeps one. -/
theorem Shared.weakCounted (h : Shared extended r (p::ₘrest)) (p' : Pc)
    (hsame : (strongUnits p',weakUnits p',owned .strong p',owned .weak p',deleting p',unbiased p')=
      (strongUnits p,weakUnits p+1,owned .strong p,owned .weak p,deleting p,unbiased p))
    (hkept : owned .strong p+owned .weak p=1)
    (hplain : freeing p+creators p'+freeing p'+reviving p'+unread p'=0) :
    Shared extended { r with mWeak := r.mWeak+1 } (p'::ₘrest) := by
  simp only [Prod.mk.injEq] at hsame
  obtain ⟨hstrong,hweak,hso,hwo,hdel,hbias⟩ := hsame
  obtain ⟨_,hc,hw,hs,ho,hv,hroom,hfreed,hd,hr,_,hu,_,_,_⟩ := h.split
  refine ⟨h.raw,?_,?_,?_,?_,?_,?_,?_,h.extendedDeleted,fun he => ?_,fun he => ?_,?_⟩
  all_goals simp only [total_cons,Multiset.card_cons]
  case refine_8 =>
    have hd := hd he
    omega
  case refine_9 =>
    have hr := (hr he).2
    omega
  all_goals omega

/-- A strong reference is taken and the correction of the bias is still to come. -/
theorem Shared.taken (h : Shared extended r (p::ₘrest)) (hweak : weakUnits p=1)
    (hwo : owned .weak p=1) (hplain : strongUnits p+owned .strong p+freeing p+deleting p=0)
    (halive : 0 < r.mStrong ∨ extended=true) :
    Shared extended { r with mStrong := r.mStrong+1 } (Pc.fixRead::ₘrest) := by
  obtain ⟨_,hc,hw,hs,ho,hv,hroom,hfreed,hd,hr,_,hu,hsw,hsc,hdu⟩ := h.split
  have hfix : strongUnits .fixRead=1 ∧ weakUnits .fixRead=1 ∧ creators .fixRead=0 ∧
      owned .strong .fixRead=0 ∧ owned .weak .fixRead=1 ∧ freeing .fixRead=0 ∧
      deleting .fixRead=0 ∧ reviving .fixRead=0 ∧ unread .fixRead=0 ∧ unbiased .fixRead=0 := by
    decide
  refine ⟨h.raw,?_,?_,?_,?_,?_,?_,?_,h.extendedDeleted,fun he => ?_,fun he => ?_,?_⟩
  all_goals simp only [total_cons,Multiset.card_cons]
  case refine_8 =>
    have hd := hd he
    have halive := halive.resolve_right (by rw [he]; exact Bool.false_ne_true)
    omega
  case refine_9 =>
    have hr := (hr he).2
    omega
  all_goals omega

/-- A strong reference is handed out; mStrong loses what was not the share of the call. -/
theorem Shared.returned (h : Shared extended r (p::ₘrest)) (count : Int)
    (hweak : weakUnits p=1) (hfree : freeing p=0) (hdel : deleting p=0)
    (hcount : (r.mStrong < 268435456 ∧ 0 < r.mStrong ∧ count=r.mStrong+1-strongUnits p) ∨
      (268435456 < r.mStrong ∧ strongUnits p=1 ∧ count=r.mStrong-268435456)) :
    Shared extended { r with mStrong := count, strongHeld := r.strongHeld+1 } rest := by
  obtain ⟨_,hc,hw,hs,ho,hv,hroom,hfreed,hd,hr,_,hu,hsw,hsc,hdu⟩ := h.split
  refine ⟨h.raw,?_,?_,?_,?_,?_,?_,?_,h.extendedDeleted,fun he => ?_,fun he => (hr he).2,?_⟩
  case refine_8 =>
    have hd := hd he
    dsimp only
    omega
  all_goals try dsimp only
  all_goals omega

/-- A weak reference is handed out to a caller who keeps one. -/
theorem Shared.weakReturned (h : Shared extended r (p::ₘrest))
    (hkept : owned .strong p+owned .weak p=1)
    (hplain : strongUnits p+weakUnits p+freeing p+deleting p=0) :
    Shared extended { r with mWeak := r.mWeak+1, weakHeld := r.weakHeld+1 } rest := by
  obtain ⟨_,hc,hw,hs,ho,hv,hroom,hfreed,hd,hr,_,hu,hsw,hsc,hdu⟩ := h.split
  refine ⟨h.raw,?_,?_,?_,?_,?_,?_,?_,h.extendedDeleted,fun he => ?_,fun he => (hr he).2,?_⟩
  case refine_8 =>
    have hd := hd he
    dsimp only
    omega
  all_goals try dsimp only
  all_goals omega

theorem Shared.decStrong_turn (h : Shared extended r (Pc.decStrong::ₘrest)) :
    Shared extended { r with mStrong := r.mStrong-1 }
      ((if r.mStrong=1 then Pc.lastStrong else Pc.decWeak)::ₘrest) := by
  obtain ⟨_,hc,hw,hs,ho,hv,hroom,hfreed,hd,hr,_,hu,hsw,hsc,hdu⟩ := h.split
  simp only [weakUnits,strongUnits,unbiased,owned,Pc.owner,freeing,deleting,reduceCtorEq,
    if_false] at hw hs ho hv hfreed hd
  split_ifs with hlast
  all_goals
    refine ⟨h.raw,?_,?_,?_,?_,?_,?_,?_,h.extendedDeleted,fun he => ?_,fun he => ?_,?_⟩
    all_goals simp only [total_cons,Multiset.card_cons,creators,weakUnits,strongUnits,unbiased,
      owned,Pc.owner,freeing,deleting,reviving,unread,reduceCtorEq,if_false]
    case refine_8 =>
      have hd := hd he
      omega
    case refine_9 =>
      have hr := (hr he).2
      omega
    all_goals omega

/-- The object of a plain lifetime goes with its last strong reference. -/
theorem Shared.lastStrong_turn (h : Shared false r (Pc.lastStrong::ₘrest)) :
    Shared false (r.destroy false) (Pc.decWeak::ₘrest) := by
  obtain ⟨_,hc,hw,hs,ho,hv,hroom,hfreed,hd,hr,_,hu,hsw,hsc,hdu⟩ := h.split
  have hd := hd rfl
  have hr := (hr rfl).2
  simp only [weakUnits,strongUnits,unbiased,owned,Pc.owner,freeing,deleting,reduceCtorEq,
    false_and,and_false,or_false,if_false] at hw hs ho hv hfreed hd
  have hbias : r.mStrong≠initialStrongValue := by
    rw [initialStrongValue]
    omega
  rw [Refs.destroy,if_neg hbias,if_neg Bool.false_ne_true]
  refine ⟨h.raw,?_,?_,?_,?_,?_,?_,?_,fun he => absurd he Bool.false_ne_true,fun _ => ?_,
    fun _ => ?_,?_⟩
  all_goals simp only [total_cons,Multiset.card_cons,creators,weakUnits,strongUnits,unbiased,
    owned,Pc.owner,freeing,deleting,reviving,unread,reduceCtorEq,if_false]
  all_goals omega

theorem Shared.decWeak_turn (h : Shared extended r (Pc.decWeak::ₘrest)) :
    Shared extended { r with mWeak := r.mWeak-1 }
      (joined (if r.mWeak≠1 then none else some Pc.lastWeak) rest) := by
  obtain ⟨_,hc,hw,hs,ho,hv,hroom,hfreed,hd,hr,_,hu,hsw,hsc,hdu⟩ := h.split
  simp only [weakUnits,strongUnits,unbiased,owned,Pc.owner,freeing,deleting,reduceCtorEq,
    if_false] at hw hs ho hv hfreed hd
  split_ifs with hmore
  all_goals
    refine ⟨h.raw,?_,?_,?_,?_,?_,?_,?_,h.extendedDeleted,fun he => ?_,fun he => ?_,?_⟩
    all_goals simp only [joined,total_cons,Multiset.card_cons,creators,weakUnits,strongUnits,
      unbiased,owned,Pc.owner,freeing,deleting,reviving,unread,reduceCtorEq,if_false]
    case refine_8 =>
      have hd := hd he
      omega
    case refine_9 =>
      have hr := (hr he).2
      omega
    all_goals omega

/-- The counters, and the object if it is still there, go with the last weak reference. -/
theorem Shared.lastWeak_turn (h : Shared extended r (Pc.lastWeak::ₘrest)) (agrees : Bool) :
    Shared extended (exec extended agrees .lastWeak r).1 rest := by
  obtain ⟨_,hc,hw,hs,ho,hv,hroom,hfreed,hd,hr,_,hu,hsw,hsc,hdu⟩ := h.split
  have hext := h.extendedDeleted
  simp only [weakUnits,strongUnits,unbiased,owned,Pc.owner,freeing,deleting,reduceCtorEq,
    if_false] at hw hs ho hv hfreed hd
  have hzero : r.mWeak=0 := by omega
  have hdone : (exec extended agrees .lastWeak r).1={ r with
      refsDeletes := r.refsDeletes+1
      objDeletes := if extended=true ∨ r.mStrong=268435456 then r.objDeletes+1
        else r.objDeletes } := by
    rw [exec]
    cases extended with
    | true =>
      simp only [if_true,Refs.destroy,hzero,true_or]
      split_ifs <;> rfl
    | false =>
      by_cases hfirst : r.mStrong=268435456
      · simp [Refs.destroy,hfirst,initialStrongValue]
      · simp [hfirst,initialStrongValue]
  rw [hdone]
  refine ⟨h.raw,?_,?_,?_,?_,?_,?_,?_,fun he => ?_,fun he => ?_,fun he => (hr he).2,?_⟩
  case refine_8 =>
    have hext := hext he
    simp only [he,true_or,if_true]
    omega
  case refine_9 =>
    have hd := hd he
    simp only [he,Bool.false_eq_true,false_or]
    split_ifs <;> omega
  all_goals try dsimp only
  all_goals omega

theorem Shared.unbiased_below (h : Shared extended r (p::ₘrest)) (hp : unbiased p=1) :
    0≤r.mStrong ∧ r.mStrong < 268435456 := by
  obtain ⟨_,hc,hw,hs,ho,hv,hroom,hfreed,hd,hr,_,hu,hsw,hsc,hdu⟩ := h.split
  have hsu : strongUnits p≤1 := by cases p <;> simp [strongUnits]
  omega

/-- A call that leaves nothing behind. -/
theorem Shared.gone (h : Shared extended r (p::ₘrest))
    (hplain : strongUnits p+weakUnits p+freeing p+deleting p=0) : Shared extended r rest := by
  obtain ⟨_,hc,hw,hs,ho,hv,hroom,hfreed,hd,hr,_,hu,hsw,hsc,hdu⟩ := h.split
  refine ⟨h.raw,hc,?_,?_,?_,?_,?_,?_,h.extendedDeleted,fun he => ?_,fun he => (hr he).2,hu⟩
  case refine_7 =>
    have hd := hd he
    omega
  all_goals omega

/-- Every turn of every call keeps the counters at what is held and under way. -/
theorem Shared.turn {agrees : Bool} {r' : Refs} {q : Option Pc}
    (h : Shared extended r (p::ₘrest)) (hp : exec extended agrees p r=(r',q)) :
    Shared extended r' (joined q rest) := by
  obtain ⟨hcreator,-,-,hs,-,-,hroom,-,-,hrevive,hbare,-,-,hsc,-⟩ := h.split
  cases p with
  | incStrong owner =>
    cases owner with
    | strong =>
      obtain ⟨rfl,rfl⟩ := Prod.mk.inj hp
      exact h.weakCounted (.incStrongCount .strong) rfl rfl rfl
    | raw => cases hcreator
    | weak => cases hcreator
  | incStrongCount owner =>
    cases owner with
    | strong =>
      obtain ⟨hlow,hhigh⟩ := h.unbiased_below rfl
      have hheld : 0 < r.strongHeld := h.strongOwned.resolve_left (by
        rw [total_cons]
        exact Nat.ne_of_gt (Nat.lt_add_right _ Nat.one_pos))
      have hne : r.mStrong≠initialStrongValue := by
        rw [initialStrongValue]
        omega
      rw [exec,if_pos hne] at hp
      obtain ⟨rfl,rfl⟩ := Prod.mk.inj hp
      exact h.returned (r.mStrong+1) rfl rfl rfl (Or.inl ⟨hhigh,by omega,(Int.sub_zero _).symm⟩)
    | raw => cases hcreator
    | weak => cases hcreator
  | firstRef owner => cases hcreator
  | decStrong =>
    obtain ⟨rfl,rfl⟩ := Prod.mk.inj hp
    exact h.decStrong_turn
  | lastStrong =>
    cases extended with
    | true =>
      obtain ⟨rfl,rfl⟩ := Prod.mk.inj hp
      exact h.quiet .decWeak rfl rfl rfl (Nat.le_refl _) (Nat.le_refl _) rfl (fun he => by cases he)
        (fun _ => rfl) rfl (Or.inl rfl)
    | false =>
      obtain ⟨rfl,rfl⟩ := Prod.mk.inj hp
      exact h.lastStrong_turn
  | incWeak owner =>
    cases owner with
    | strong =>
      obtain ⟨rfl,rfl⟩ := Prod.mk.inj hp
      exact h.weakReturned rfl rfl
    | weak =>
      obtain ⟨rfl,rfl⟩ := Prod.mk.inj hp
      exact h.weakReturned rfl rfl
    | raw => cases hcreator
  | decWeak =>
    obtain ⟨rfl,rfl⟩ := Prod.mk.inj hp
    exact h.decWeak_turn
  | lastWeak =>
    have hnone : q=none := by
      rw [exec] at hp
      split_ifs at hp <;> exact (Prod.mk.inj hp).2.symm
    subst hnone
    rw [← show (exec extended agrees .lastWeak r).1=r' from congrArg Prod.fst hp]
    exact h.lastWeak_turn agrees
  | attempt =>
    obtain ⟨rfl,rfl⟩ := Prod.mk.inj hp
    exact h.weakCounted .attemptRead rfl rfl rfl
  | attemptRead =>
    obtain ⟨rfl,rfl⟩ := Prod.mk.inj hp
    exact h.waits (.attemptTry r.mStrong) rfl rfl
  | attemptTry curCount =>
    rw [exec] at hp
    split_ifs at hp with hcommon heq hext hagrees hzero
    · obtain ⟨rfl,rfl⟩ := Prod.mk.inj hp
      subst heq
      exact h.taken rfl rfl rfl (Or.inl hcommon.1)
    · obtain ⟨rfl,rfl⟩ := Prod.mk.inj hp
      exact h.waits .attemptRead rfl rfl
    · obtain ⟨rfl,rfl⟩ := Prod.mk.inj hp
      exact h.quiet .attemptRevive rfl rfl rfl (Nat.le_refl _) (Nat.le_refl _) rfl (fun _ => rfl)
        (fun he => absurd (he.symm.trans hext) Bool.false_ne_true) rfl (Or.inl rfl)
    all_goals
      obtain ⟨rfl,rfl⟩ := Prod.mk.inj hp
    · exact h.refused rfl rfl
    · exact h.refused rfl rfl
    · exact h.waits (.attemptFirst curCount) rfl rfl
  | attemptFirst curCount =>
    rw [exec] at hp
    split_ifs at hp with hpos heq
    all_goals obtain ⟨rfl,rfl⟩ := Prod.mk.inj hp
    · subst heq
      exact h.taken rfl rfl rfl (Or.inl hpos)
    · exact h.waits .attemptFirstRead rfl rfl
    · exact h.refused rfl rfl
  | attemptFirstRead =>
    obtain ⟨rfl,rfl⟩ := Prod.mk.inj hp
    exact h.waits (.attemptFirst r.mStrong) rfl rfl
  | attemptRevive =>
    have hext : extended=true := by
      by_contra he
      cases (hrevive (Bool.eq_false_iff.mpr he)).1
    obtain ⟨rfl,rfl⟩ := Prod.mk.inj hp
    exact h.taken rfl rfl rfl (Or.inr hext)
  | fixRead =>
    obtain ⟨rfl,rfl⟩ := Prod.mk.inj hp
    have hsu : strongUnits .fixRead=1 := rfl
    have hread : unread (.fixTry r.mStrong)=0 := by
      rw [unread,if_neg]
      rw [initialStrongValue]
      omega
    refine h.quiet (.fixTry r.mStrong) rfl rfl rfl (Nat.le_refl _) (Nat.le_refl _) rfl
      (fun _ => rfl) (fun _ => rfl) hread ?_
    rw [unbiased,initialStrongValue]
    split_ifs with hlow
    · exact Or.inr hlow
    · exact Or.inl rfl
  | fixTry curCount =>
    have hsu : strongUnits (.fixTry curCount)=1 := rfl
    have hne : curCount≠268435456 := by
      intro heq
      rw [unread,initialStrongValue,if_pos heq] at hbare
      cases hbare
    rw [exec,initialStrongValue] at hp
    split_ifs at hp with hhigh heq
    all_goals obtain ⟨rfl,rfl⟩ := Prod.mk.inj hp
    · exact h.returned (curCount-268435456) rfl rfl rfl (Or.inr ⟨by omega,rfl,by rw [heq]⟩)
    · exact h.waits .fixRead rfl rfl
    · obtain ⟨hlow,hbelow⟩ := h.unbiased_below (by
        rw [unbiased,initialStrongValue,if_pos (by omega)])
      have hcount := h.returned r.mStrong rfl rfl rfl (Or.inl ⟨hbelow,by omega,by
        rw [hsu]
        omega⟩)
      exact hcount
  | attemptWeakRead =>
    obtain ⟨rfl,rfl⟩ := Prod.mk.inj hp
    exact h.waits (.attemptWeakTry r.mWeak) rfl rfl
  | attemptWeakTry curCount =>
    rw [exec] at hp
    split_ifs at hp with hpos heq
    all_goals obtain ⟨rfl,rfl⟩ := Prod.mk.inj hp
    · subst heq
      exact h.weakReturned rfl rfl
    · exact h.waits .attemptWeakRead rfl rfl
    · exact h.gone rfl

end

/-- A call that begins with the tokens it takes. -/
theorem Shared.begun {extended : Bool} {r : Refs} {ops : Multiset Pc} (h : Shared extended r ops)
    (p : Pc) (hroom : Room r ops)
    (hplain : strongUnits p+weakUnits p+creators p+freeing p+deleting p+reviving p+unread p=0)
    (hso : owned .strong p=0 ∨ 0 < r.strongHeld) (hwo : owned .weak p=0 ∨ 0 < r.weakHeld)
    (hbias : unbiased p=0 ∨ 0 < r.strongHeld) :
    Shared extended r (p::ₘops) := by
  obtain ⟨hraw,hc,hw,hs,ho,hv,_,hfreed,hext,hd,hr,hu⟩ := h
  rw [Room,initialStrongValue] at hroom
  refine ⟨hraw,?_,?_,?_,?_,?_,?_,?_,hext,fun he => ?_,fun he => ?_,?_⟩
  all_goals simp only [total_cons,Multiset.card_cons]
  case refine_8 =>
    have hd := hd he
    omega
  case refine_9 =>
    have hr := hr he
    omega
  all_goals omega

/-- A reference is given back; what it counted for goes over to the call that drops it. -/
theorem Shared.given {extended : Bool} {r : Refs} {ops : Multiset Pc} (h : Shared extended r ops)
    (p : Pc) (strong weak : Nat) (hstrong : strong+strongUnits p=r.strongHeld)
    (hweak : strong+weak+1=r.strongHeld+r.weakHeld) (hcount : weakUnits p=1)
    (hplain : creators p+owned .strong p+owned .weak p+freeing p+deleting p+reviving p+unread p=0)
    (hbias : unbiased p=0 ∨ 0 < r.strongHeld)
    (hso : 0 < strong ∨ strong=r.strongHeld ∨ total (owned .strong) ops=0)
    (hwo : 0 < weak ∨ weak=r.weakHeld ∨ total (owned .weak) ops=0) :
    Shared extended { r with strongHeld := strong, weakHeld := weak } (p::ₘops) := by
  obtain ⟨hraw,hc,hw,hs,ho,hv,hroom,hfreed,hext,hd,hr,hu⟩ := h
  refine ⟨hraw,?_,?_,?_,?_,?_,?_,?_,hext,fun he => ?_,fun he => ?_,?_⟩
  all_goals simp only [total_cons,Multiset.card_cons]
  case refine_8 =>
    have hd := hd he
    omega
  case refine_9 =>
    have hr := hr he
    omega
  all_goals omega

theorem total_owned_zero {owner : Owner} {ops : Multiset Pc}
    (h : ∀ p∈ops,p.owner≠some owner) : total (owned owner) ops=0 := by
  induction ops using Multiset.induction_on with
  | empty => rfl
  | cons p ops ih =>
    rw [total_cons,owned,if_neg (h p (Multiset.mem_cons_self p ops)),Nat.zero_add]
    exact ih fun p' hp' => h p' (Multiset.mem_cons_of_mem hp')

theorem Shared.call {extended : Bool} {r r' : Refs} {ops : Multiset Pc} {q : Option Pc}
    (h : Shared extended r ops) (hcall : Call extended r ops r' q) :
    Shared extended r' (joined q ops) := by
  cases hcall with
  | incStrong hheld room =>
    exact h.begun (.incStrong .strong) room rfl (Or.inr hheld) (Or.inl rfl) (Or.inr hheld)
  | incWeakStrong hheld room =>
    exact h.begun (.incWeak .strong) room rfl (Or.inr hheld) (Or.inl rfl) (Or.inr hheld)
  | incWeak hheld room =>
    exact h.begun (.incWeak .weak) room rfl (Or.inl rfl) (Or.inr hheld) (Or.inl rfl)
  | attemptIncStrong hheld room =>
    exact h.begun .attempt room rfl (Or.inl rfl) (Or.inr hheld) (Or.inl rfl)
  | attemptIncWeak hheld room =>
    exact h.begun .attemptWeakRead room rfl (Or.inl rfl) (Or.inr hheld) (Or.inl rfl)
  | firstStrong hnew => exact absurd (h.raw.symm.trans hnew) Bool.false_ne_true
  | createWeak hnew => exact absurd (h.raw.symm.trans hnew) Bool.false_ne_true
  | delete hnew => exact absurd (h.raw.symm.trans hnew) Bool.false_ne_true
  | decStrong hheld free =>
    have hlast := free.imp_right total_owned_zero
    apply h.given .decStrong (r.strongHeld-1) r.weakHeld (Nat.sub_add_cancel hheld) (by omega)
    · rfl
    · rfl
    · exact Or.inr hheld
    · omega
    · exact Or.inr (Or.inl rfl)
  | decWeak hheld free =>
    have hlast := free.imp_right total_owned_zero
    apply h.given .decWeak r.strongHeld (r.weakHeld-1) rfl (by omega)
    · rfl
    · rfl
    · exact Or.inl rfl
    · exact Or.inr (Or.inl rfl)
    · omega

/-- The object before its first reference is complete: only its creator is at work. -/
def New (r : Refs) (ops : Multiset Pc) : Prop :=
  (r=Refs.initial ∧ ops=0) ∨
    ∃ p,ops={p} ∧
      (((p=.incStrong .raw ∨ p=.incWeak .raw) ∧ r={ Refs.initial with raw := false }) ∨
        (p=.incStrongCount .raw ∧ r={ Refs.initial with raw := false, mWeak := 1 }) ∨
        (p=.firstRef .raw ∧
          r={ Refs.initial with
            raw := false
            mWeak := 1
            mStrong := initialStrongValue+1 }))

theorem New.call {extended : Bool} {r r' : Refs} {ops : Multiset Pc} {q : Option Pc}
    (h : New r ops) (hcall : Call extended r ops r' q) :
    New r' (joined q ops) ∨ Shared extended r' (joined q ops) := by
  have hheld : r.strongHeld=0 ∧ r.weakHeld=0 := by
    rcases h with ⟨rfl,_⟩|⟨p,_,⟨_,rfl⟩|⟨_,rfl⟩|⟨_,rfl⟩⟩ <;> exact ⟨rfl,rfl⟩
  have hnew : r.raw=true → r=Refs.initial ∧ ops=0 := by
    intro hraw
    rcases h with h|⟨p,_,⟨_,rfl⟩|⟨_,rfl⟩|⟨_,rfl⟩⟩
    · exact h
    all_goals cases hraw
  cases hcall with
  | firstStrong hraw =>
    obtain ⟨rfl,rfl⟩ := hnew hraw
    exact Or.inl (Or.inr ⟨.incStrong .raw,rfl,Or.inl ⟨Or.inl rfl,rfl⟩⟩)
  | createWeak hraw =>
    obtain ⟨rfl,rfl⟩ := hnew hraw
    exact Or.inl (Or.inr ⟨.incWeak .raw,rfl,Or.inl ⟨Or.inr rfl,rfl⟩⟩)
  | delete hraw =>
    obtain ⟨rfl,rfl⟩ := hnew hraw
    right
    have hdone : Refs.initial.destroy extended=⟨initialStrongValue,0,1,1,true,0,0⟩ := by
      rw [Refs.destroy,if_pos (show Refs.initial.mStrong=initialStrongValue from rfl)]
      rfl
    rw [hdone]
    exact ⟨rfl,rfl,rfl,Or.inr ⟨rfl,rfl,rfl⟩,Or.inl rfl,Or.inl rfl,by decide,Or.inl ⟨rfl,rfl⟩,
      fun _ => rfl,fun _ => Or.inr (Or.inr ⟨by decide,rfl⟩),fun _ => rfl,rfl⟩
  | incStrong h => omega
  | decStrong h => omega
  | incWeakStrong h => omega
  | incWeak h => omega
  | decWeak h => omega
  | attemptIncStrong h => omega
  | attemptIncWeak h => omega

theorem New.turn {extended agrees : Bool} {p : Pc} {r r' : Refs} {rest : Multiset Pc}
    {q : Option Pc} (h : New r (p::ₘrest)) (hp : exec extended agrees p r=(r',q)) :
    New r' (joined q rest) ∨ Shared extended r' (joined q rest) := by
  rcases h with ⟨_,hnone⟩|⟨p',hone,hcase⟩
  · exact absurd hnone (Multiset.cons_ne_zero)
  · obtain ⟨rfl,rfl⟩ := (Multiset.singleton_eq_cons_iff _).mp hone.symm
    rcases hcase with ⟨rfl|rfl,rfl⟩|⟨rfl,rfl⟩|⟨rfl,rfl⟩
    · obtain ⟨rfl,rfl⟩ := Prod.mk.inj hp
      exact Or.inl (Or.inr ⟨.incStrongCount .raw,rfl,Or.inr (Or.inl ⟨rfl,rfl⟩)⟩)
    · obtain ⟨rfl,rfl⟩ := Prod.mk.inj hp
      right
      exact ⟨rfl,rfl,rfl,Or.inr ⟨rfl,rfl,rfl⟩,Or.inl rfl,Or.inl rfl,by decide,
        Or.inr ⟨by decide,rfl⟩,fun _ => rfl,fun _ => Or.inr (Or.inr ⟨by decide,rfl⟩),
        fun _ => rfl,rfl⟩
    · obtain ⟨rfl,rfl⟩ := Prod.mk.inj hp
      exact Or.inl (Or.inr ⟨.firstRef .raw,rfl,Or.inr (Or.inr ⟨rfl,rfl⟩)⟩)
    · obtain ⟨rfl,rfl⟩ := Prod.mk.inj hp
      right
      exact ⟨rfl,rfl,rfl,Or.inl rfl,Or.inl rfl,Or.inl rfl,by decide,Or.inr ⟨by decide,rfl⟩,
        fun _ => rfl,fun _ => Or.inr (Or.inl ⟨by decide,by decide,rfl⟩),fun _ => rfl,rfl⟩

/-- Every call under way rests on the counters. -/
theorem Pc.rests (p : Pc) :
    1≤weakUnits p+owned .strong p+owned .weak p+freeing p+creators p := by
  cases p with
  | incStrong owner => cases owner <;> decide
  | incWeak owner => cases owner <;> decide
  | incStrongCount owner => cases owner <;> decide
  | firstRef owner => cases owner <;> decide
  | _ => exact Nat.succ_le_succ (Nat.zero_le _)

theorem Shared.asserted {extended : Bool} {r : Refs} {ops : Multiset Pc}
    (h : Shared extended r ops) : ∀ p∈ops,p.Asserted r := by
  intro p hp
  obtain ⟨rest,rfl⟩ := Multiset.exists_cons_of_mem hp
  obtain ⟨hcreator,-,hw,hs,ho,-,-,-,-,-,hbare,-,-,-,-⟩ := h.split
  cases p with
  | incStrongCount owner =>
    cases owner with
    | strong =>
      have hsu : owned .strong (.incStrongCount .strong)=1 := rfl
      change r.mStrong>0
      omega
    | raw => cases hcreator
    | weak => cases hcreator
  | decStrong =>
    have hsu : strongUnits .decStrong=1 := rfl
    change r.mStrong≥1
    omega
  | decWeak =>
    have hwu : weakUnits .decWeak=1 := rfl
    change r.mWeak≥1
    omega
  | fixTry curCount =>
    intro hhigh
    rw [unread] at hbare
    by_contra hlow
    rw [if_pos (by omega)] at hbare
    cases hbare
  | incStrong owner =>
    change r.mWeak≥0
    omega
  | incWeak owner =>
    change r.mWeak≥0
    omega
  | attempt =>
    change r.mWeak≥0
    omega
  | attemptRead =>
    change r.mStrong≥0
    omega
  | attemptWeakRead =>
    change r.mWeak≥0
    omega
  | _ => trivial

theorem Shared.safe {extended : Bool} {r : Refs} {ops : Multiset Pc}
    (h : Shared extended r ops) : Safe extended r ops := by
  have hsw := strong_le_weak ops
  have hsc := strong_le_card ops
  have hasserted := h.asserted
  obtain ⟨hraw,hc,hw,hs,ho,hv,hroom,hfreed,hext,hd,hr,hu⟩ := h
  have hrefs : ops≠0 ∨ r.raw=true ∨ 0 < r.strongHeld ∨ 0 < r.weakHeld → r.refsDeletes=0 := by
    rintro (hops|hnew|hheld)
    · obtain ⟨p,hp⟩ := Multiset.exists_mem_of_ne_zero hops
      have hrests := p.rests
      have h1 : weakUnits p≤total weakUnits ops := le_total hp
      have h2 : owned .strong p≤total (owned .strong) ops := le_total hp
      have h3 : owned .weak p≤total (owned .weak) ops := le_total hp
      have h4 : freeing p≤total freeing ops := le_total hp
      have h5 : creators p≤total creators ops := le_total hp
      omega
    · exact absurd (hraw.symm.trans hnew) Bool.false_ne_true
    · omega
  have hdu := deleting_le_unbiased ops
  have hobj : extended=false → r.objDeletes≤1 ∧ (0 < r.strongHeld → r.objDeletes=0) ∧
      (r.mWeak=0 → total freeing ops=0 → total deleting ops=0 → r.objDeletes=1) := by
    intro he
    have hd := hd he
    omega
  refine ⟨?_,by omega,hrefs,?_,fun he hheld => ?_,?_,?_,?_,?_,hasserted⟩
  · cases extended with
    | true =>
      rw [hext rfl]
      omega
    | false => exact (hobj rfl).1
  · rintro (hnew|hheld)
    · exact absurd (hraw.symm.trans hnew) Bool.false_ne_true
    · cases extended with
      | true =>
        rw [hext rfl]
        exact hrefs (Or.inr (Or.inr (Or.inl hheld)))
      | false => exact (hobj rfl).2.1 hheld
  · rw [hext he]
    exact hrefs (Or.inr (Or.inr (Or.inr hheld)))
  · rintro rfl _ hstrong hweak
    simp only [total_zero] at hw hfreed
    have hfreed' : r.refsDeletes=1 := by omega
    refine ⟨?_,hfreed'⟩
    cases extended with
    | true => rw [hext rfl,hfreed']
    | false => exact (hobj rfl).2.2 (by omega) rfl rfl
  · rintro rfl
    simpa using hw
  · rintro rfl hstrong
    simp only [total_zero] at hs
    omega
  · rintro rfl hnone
    rw [initialStrongValue]
    simp only [total_zero] at hs
    omega

theorem New.safe {extended : Bool} {r : Refs} {ops : Multiset Pc} (h : New r ops) :
    Safe extended r ops := by
  have hdeletes : r.objDeletes=0 ∧ r.refsDeletes=0 := by
    rcases h with ⟨rfl,_⟩|⟨p,_,⟨_,rfl⟩|⟨_,rfl⟩|⟨_,rfl⟩⟩ <;> exact ⟨rfl,rfl⟩
  have hrest : ops=0 → r=Refs.initial := by
    intro hops
    rcases h with ⟨hnew,_⟩|⟨p,rfl,_⟩
    · exact hnew
    · exact absurd hops (Multiset.singleton_ne_zero p)
  obtain ⟨hobj,hrefs⟩ := hdeletes
  refine ⟨by omega,by omega,fun _ => hrefs,fun _ => hobj,fun _ _ => hobj,?_,?_,?_,?_,?_⟩
  · intro hops hraw
    rw [hrest hops] at hraw
    cases hraw
  · intro hops
    rw [hrest hops]
    rfl
  · intro hops hpos
    rw [hrest hops] at hpos
    cases hpos
  · intro hops _
    rw [hrest hops]
    exact Or.inr rfl
  · rcases h with ⟨_,rfl⟩|⟨p,rfl,hcase⟩
    · intro p hp
      exact absurd hp (Multiset.notMem_zero p)
    · intro p' hp
      obtain rfl := Multiset.mem_singleton.mp hp
      rcases hcase with ⟨rfl|rfl,rfl⟩|⟨rfl,rfl⟩|⟨rfl,rfl⟩
      · exact Int.le_refl 0
      · exact Int.le_refl 0
      · change initialStrongValue>0
        decide
      · trivial

theorem refs_invariant {extended : Bool} {s : Refs × Multiset Pc}
    (h : (refBase extended).Reaches (Refs.initial,0) s) :
    New s.1 s.2 ∨ Shared extended s.1 s.2 := by
  refine Machine.reaches_invariant (fun r ops => New r ops ∨ Shared extended r ops)
    ?_ ?_ h (Or.inl (Or.inl ⟨rfl,rfl⟩))
  · rintro r ops r' q (hinv|hinv) hcall
    · exact hinv.call hcall
    · exact Or.inr (hinv.call hcall)
  · rintro p r r' q rest (hinv|hinv) ⟨agrees,hp⟩
    · exact hinv.turn hp
    · exact Or.inr (hinv.turn hp)

/-- Whatever calls run at once: no counter is used once it is freed, no object goes while a
strong reference is held, both go exactly once, and the counters are right when all is quiet. -/
theorem refBase_safe (extended : Bool) (s : Refs × Multiset Pc)
    (h : (refBase extended).Reaches (Refs.initial,0) s) : Safe extended s.1 s.2 := by
  rcases refs_invariant h with hnew|hshared
  · exact hnew.safe
  · exact hshared.safe

theorem reaches_turn {extended : Bool} (agrees : Bool) {s : Refs × Multiset Pc} {p : Pc}
    {r r' : Refs} {q : Option Pc} {rest : Multiset Pc} (h : (refBase extended).Reaches s (r,p::ₘrest))
    (hp : exec extended agrees p r=(r',q)) :
    (refBase extended).Reaches s (r',joined q rest) :=
  h.tail (Machine.Step.turn ⟨agrees,hp⟩)

theorem reaches_call {extended : Bool} {s : Refs × Multiset Pc} {r r' : Refs} {q : Option Pc}
    {ops : Multiset Pc} (h : (refBase extended).Reaches s (r,ops))
    (hc : Call extended r ops r' q) : (refBase extended).Reaches s (r',joined q ops) :=
  h.tail (Machine.Step.call hc)

/-- The creator's first reference, after its three turns. -/
theorem first_reached : (refBase false).Reaches (Refs.initial,0) (⟨1,1,0,0,false,1,0⟩,0) := by
  have hcall : Call false Refs.initial 0 ⟨initialStrongValue,0,0,0,false,0,0⟩
      (some (.incStrong .raw)) := Call.firstStrong rfl
  have hcalled : (refBase false).Reaches (Refs.initial,0)
      (⟨initialStrongValue,0,0,0,false,0,0⟩,Pc.incStrong .raw::ₘ0) :=
    reaches_call Relation.ReflTransGen.refl hcall
  have hentered : (refBase false).Reaches (Refs.initial,0)
      (⟨initialStrongValue,1,0,0,false,0,0⟩,Pc.incStrongCount .raw::ₘ0) :=
    reaches_turn true hcalled rfl
  have hcounted : (refBase false).Reaches (Refs.initial,0)
      (⟨initialStrongValue+1,1,0,0,false,0,0⟩,Pc.firstRef .raw::ₘ0) :=
    reaches_turn true hentered rfl
  exact reaches_turn true hcounted rfl

/-- A turn of the second of two calls. -/
theorem reaches_second {extended : Bool} (agrees : Bool) {s : Refs × Multiset Pc} {p p' : Pc}
    {r r' : Refs} {q : Option Pc} (h : (refBase extended).Reaches s (r,p'::ₘp::ₘ0))
    (hp : exec extended agrees p r=(r',q)) :
    (refBase extended).Reaches s (r',joined q (p'::ₘ0)) := by
  rw [Multiset.cons_swap] at h
  exact reaches_turn agrees h hp

/-- Besides the strong reference a weak one is held; one caller wants to make it strong while
another one drops the strong reference. -/
theorem race_reached : (refBase false).Reaches (Refs.initial,0)
    (⟨1,2,0,0,false,0,1⟩,Pc.decStrong::ₘPc.attempt::ₘ0) := by
  have hroom : Room ⟨1,1,0,0,false,1,0⟩ 0 := by decide
  have hcalled : Call false ⟨1,1,0,0,false,1,0⟩ 0 ⟨1,1,0,0,false,1,0⟩
      (some (.incWeak .strong)) := Call.incWeakStrong Nat.one_pos hroom
  have hweak : (refBase false).Reaches (Refs.initial,0)
      (⟨1,1,0,0,false,1,0⟩,Pc.incWeak .strong::ₘ0) := reaches_call first_reached hcalled
  have hheld : (refBase false).Reaches (Refs.initial,0) (⟨1,2,0,0,false,1,1⟩,0) :=
    reaches_turn true hweak rfl
  have hroom' : Room ⟨1,2,0,0,false,1,1⟩ 0 := by decide
  have hattempt : (refBase false).Reaches (Refs.initial,0)
      (⟨1,2,0,0,false,1,1⟩,Pc.attempt::ₘ0) :=
    reaches_call hheld (Call.attemptIncStrong Nat.one_pos hroom')
  have hfree : ∀ p∈(Pc.attempt::ₘ0 : Multiset Pc),p.owner≠some .strong := by decide
  exact reaches_call hattempt (Call.decStrong Nat.one_pos (Or.inr hfree))

/-- The count that the attempt has read is gone when it wants to raise it, and so is the
object; the weak reference stays. -/
theorem race_ends :
    (refBase false).Reaches (Refs.initial,0) (⟨0,1,1,0,false,0,1⟩,0) := by
  have hcounted : (refBase false).Reaches (Refs.initial,0)
      (⟨1,3,0,0,false,0,1⟩,Pc.attemptRead::ₘPc.decStrong::ₘ0) :=
    reaches_second true race_reached rfl
  have hread : (refBase false).Reaches (Refs.initial,0)
      (⟨1,3,0,0,false,0,1⟩,Pc.attemptTry 1::ₘPc.decStrong::ₘ0) :=
    reaches_turn true hcounted rfl
  have hdropped : (refBase false).Reaches (Refs.initial,0)
      (⟨0,3,0,0,false,0,1⟩,Pc.lastStrong::ₘPc.attemptTry 1::ₘ0) :=
    reaches_second true hread rfl
  have hfailed : (refBase false).Reaches (Refs.initial,0)
      (⟨0,3,0,0,false,0,1⟩,Pc.attemptRead::ₘPc.lastStrong::ₘ0) :=
    reaches_second true hdropped rfl
  have hdeleted : (refBase false).Reaches (Refs.initial,0)
      (⟨0,3,1,0,false,0,1⟩,Pc.decWeak::ₘPc.attemptRead::ₘ0) :=
    reaches_second true hfailed rfl
  have hgiven : (refBase false).Reaches (Refs.initial,0)
      (⟨0,2,1,0,false,0,1⟩,Pc.attemptRead::ₘ0) :=
    reaches_turn true hdeleted rfl
  have hreread : (refBase false).Reaches (Refs.initial,0)
      (⟨0,2,1,0,false,0,1⟩,Pc.attemptTry 0::ₘ0) :=
    reaches_turn true hgiven rfl
  have hended : (refBase false).Reaches (Refs.initial,0)
      (⟨0,2,1,0,false,0,1⟩,Pc.decWeak::ₘ0) :=
    reaches_turn true hreread rfl
  exact reaches_turn true hended rfl

theorem refBase_race_safe :
    (∃ r : Refs,r.strongHeld=0 ∧
      (refBase false).Reaches (Refs.initial,0) (r,Pc.decStrong::ₘPc.attempt::ₘ0)) ∧
    Safe false ⟨0,1,1,0,false,0,1⟩ 0 := by
  constructor
  · exact ⟨_,rfl,race_reached⟩
  · exact refBase_safe false (⟨0,1,1,0,false,0,1⟩,0) race_ends

end IdearNiu.Objthread
