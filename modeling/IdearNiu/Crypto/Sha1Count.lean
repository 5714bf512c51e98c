import IdearNiu.Crypto.Sha1Stream

namespace IdearNiu.Sha1

/-- The number that the two words of the counter hold. -/
def Sha1Ctx.count (context : Sha1Ctx) : Nat := context.count1.toNat*2^32+context.count0.toNat

/-- Calls of SHA1Update, each with its data and len. -/
def sha1Updates (context : Sha1Ctx) (calls : List (List Byte × Word)) : Sha1Ctx :=
  calls.foldl (fun context call => sha1Update context call.1 call.2) context

def total (calls : List (List Byte × Word)) : Nat := (calls.map (fun call => call.2.toNat)).sum

theorem total_snoc (calls : List (List Byte × Word)) (call : List Byte × Word) :
    total (calls++[call])=total calls+call.2.toNat := by
  simp [total]

theorem sha1Updates_snoc (context : Sha1Ctx) (calls : List (List Byte × Word))
    (call : List Byte × Word) :
    sha1Updates context (calls++[call])=
      sha1Update (sha1Updates context calls) call.1 call.2 := by
  simp [sha1Updates]

theorem sha1Update_count (context : Sha1Ctx) (data : List Byte) (len : Word) :
    (sha1Update context data len).count0=context.count0+(len<<<3) ∧
    (sha1Update context data len).count1=
      if context.count0+(len<<<3)<context.count0 then context.count1+((len>>>29)+1)
      else context.count1 := by
  simp only [sha1Update]
  split_ifs
  · exact ⟨rfl,rfl⟩
  · exact ⟨rfl,rfl⟩
  · exact ⟨rfl,rfl⟩
  · exact ⟨rfl,rfl⟩

/-- The low word is right after every run. -/
theorem low_run (buffer : List Byte) (calls : List (List Byte × Word)) :
    (sha1Updates (sha1Init buffer) calls).count0.toNat=8*total calls%2^32 := by
  induction calls using List.reverseRecOn with
  | nil => rfl
  | append_singleton calls call ih =>
    rw [sha1Updates_snoc,(sha1Update_count _ _ _).1,low_update _ _ _ ih,total_snoc]

/-- A call whose length has no high part, or that carries into the high word. -/
def Carried (n : Nat) (len : Word) : Prop :=
  len.toNat<2^29 ∨ 2^32≤8*n%2^32+8*len.toNat%2^32

/-- The high part of the length is added in the branch of the carry only. -/
theorem high_step (c0 c1 len : Word) (n : Nat) (h0 : c0.toNat=8*n%2^32)
    (h1 : c1.toNat=8*n/2^32%2^32) :
    (if c0+(len<<<3)<c0 then c1+((len>>>29)+1) else c1).toNat=8*(n+len.toNat)/2^32%2^32 ↔
      Carried n len := by
  have hlow := low_update c0 len n h0
  have hshift : ((len>>>29)+1).toNat=len.toNat/2^29+1 := by
    rw [BitVec.toNat_add,BitVec.toNat_ushiftRight,Nat.shiftRight_eq_div_pow,
      show (1:Word).toNat=1 from rfl]
    omega
  have hlen := len.isLt
  rw [Carried]
  split
  · next h =>
    rw [BitVec.lt_def,hlow,h0] at h
    rw [BitVec.toNat_add,hshift,h1]
    omega
  · next h =>
    rw [BitVec.lt_def,hlow,h0] at h
    rw [h1]
    omega

theorem count_iff (context : Sha1Ctx) (n : Nat) (h : context.count0.toNat=8*n%2^32) :
    context.count=8*n%2^64 ↔ context.count1.toNat=8*n/2^32%2^32 := by
  have hhigh := context.count1.isLt
  rw [Sha1Ctx.count,h]
  omega

theorem count_init (buffer : List Byte) :
    (sha1Updates (sha1Init buffer) []).count=8*total []%2^64 := by
  simp [sha1Updates,sha1Init,Sha1Ctx.count,total]

theorem count_step (buffer : List Byte) (calls : List (List Byte × Word))
    (call : List Byte × Word)
    (h : (sha1Updates (sha1Init buffer) calls).count=8*total calls%2^64) :
    (sha1Updates (sha1Init buffer) (calls++[call])).count=8*total (calls++[call])%2^64 ↔
      Carried (total calls) call.2 := by
  have hlow := low_run buffer calls
  rw [count_iff _ _ hlow] at h
  rw [count_iff _ _ (low_run buffer (calls++[call])),sha1Updates_snoc,
    (sha1Update_count _ _ _).2,total_snoc]
  exact high_step _ _ call.2 (total calls) hlow h

/-- The counter is right in every state of a run exactly when no call has a length of 2^29
bytes or more without a carry out of the low word. -/
theorem sha1_count_iff (buffer : List Byte) (calls : List (List Byte × Word)) :
    (∀ pre,pre<+:calls → (sha1Updates (sha1Init buffer) pre).count=8*total pre%2^64) ↔
      ∀ pre call,pre++[call]<+:calls → Carried (total pre) call.2 := by
  constructor
  · intro h pre call hpre
    have hold := h pre ((List.prefix_append pre [call]).trans hpre)
    exact (count_step buffer pre call hold).mp (h (pre++[call]) hpre)
  · intro h pre
    induction pre using List.reverseRecOn with
    | nil => exact fun _ => count_init buffer
    | append_singleton pre call ih =>
      intro hpre
      have hold := ih ((List.prefix_append pre [call]).trans hpre)
      exact (count_step buffer pre call hold).mpr (h pre call hpre)

/-- A call with 2^29 zero bytes. -/
def hugeCall : List Byte × Word := (List.replicate (2^29) 0,0x20000000)

/-- As the first call it leaves the counter at zero. -/
theorem sha1_count_loses_high_part :
    ¬∀ (buffer : List Byte) (calls : List (List Byte × Word)),
      (sha1Updates (sha1Init buffer) calls).count=8*total calls%2^64 := by
  intro h
  have hbad := h [] ([]++[hugeCall])
  rcases (count_step [] [] hugeCall (count_init [])).mp hbad with hc|hc
  · exact absurd hc (by decide)
  · exact absurd hc (by decide)

end IdearNiu.Sha1
