import Mathlib.Tactic

namespace IdearNiu.Tls

section

variable {ρ : Type}

/-- The stores of the loop in order, each with its index of output. rand gives the next
number and state; rngoffset is an uint8_t. -/
def sslRandomLoop (rand : ρ → BitVec 32 × ρ) : Nat → BitVec 8 → ρ → List (Nat × BitVec 8)
  | 0,_,_ => []
  | rnglen+1,rngoffset,s =>
    let (high,s) := rand s
    let (low,s) := rand s
    (rngoffset.toNat,(high<<<16+low).setWidth 8)::
      sslRandomLoop rand rnglen (rngoffset+1) s

/-- The value returned and the stores; rnglen is an uint32_t. -/
def sslRandom (rand : ρ → BitVec 32 × ρ) (s : ρ) (outputLen : Nat) :
    Int × List (Nat × BitVec 8) :=
  (0,sslRandomLoop rand (outputLen%2^32) 0 s)

/-- Every index of the buffer has a store, and there is no other store. -/
def Fills (n : Nat) (stores : List (Nat × BitVec 8)) : Prop :=
  (∀ i<n, ∃ v, (i,v)∈stores) ∧ ∀ i v, (i,v)∈stores → i<n

/-- The stores go round the first 256 indices. -/
theorem sslRandomLoop_indices (rand : ρ → BitVec 32 × ρ) (n : Nat) (off : BitVec 8) (s : ρ) :
    (sslRandomLoop rand n off s).map Prod.fst=
      (List.range n).map (fun k => (off.toNat+k)%256) := by
  induction n generalizing off s with
  | zero => rfl
  | succ n ih =>
    have hoff := off.isLt
    have hone : (1 : BitVec 8).toNat=1 := rfl
    rw [sslRandomLoop,List.map_cons,ih,List.range_succ_eq_map,List.map_cons,List.map_map]
    congr 1
    · omega
    · apply List.map_congr_left
      intro k _
      simp only [Function.comp_apply,BitVec.toNat_add,hone]
      omega

theorem mem_sslRandomLoop (rand : ρ → BitVec 32 × ρ) (n i : Nat) (s : ρ) :
    (∃ v, (i,v)∈sslRandomLoop rand n 0 s) ↔ ∃ k<n, k%256=i := by
  have h := sslRandomLoop_indices rand n 0 s
  have hmem : (∃ v, (i,v)∈sslRandomLoop rand n 0 s) ↔
      i∈(sslRandomLoop rand n 0 s).map Prod.fst := by
    simp
  rw [hmem,h]
  simp

/-- The buffer is filled exactly up to 256 bytes: a longer one keeps its bytes from index
256 on. -/
theorem ssl_random_fills_iff (rand : ρ → BitVec 32 × ρ) (s : ρ) (outputLen : Nat)
    (h : outputLen<2^32) : Fills outputLen (sslRandom rand s outputLen).2 ↔ outputLen≤256 := by
  rw [sslRandom,Nat.mod_eq_of_lt h]
  constructor
  · intro hf
    by_contra hn
    obtain ⟨k,_,hk⟩ := (mem_sslRandomLoop rand outputLen 256 s).mp (hf.1 256 (by omega))
    omega
  · intro hle
    refine ⟨?_,?_⟩
    · intro i hi
      exact (mem_sslRandomLoop rand outputLen i s).mpr ⟨i,hi,by omega⟩
    · intro i v hm
      obtain ⟨k,hk,he⟩ := (mem_sslRandomLoop rand outputLen i s).mp ⟨v,hm⟩
      omega

end

/-- rand() of a counter, for the tests below. -/
def countingRand (s : BitVec 32) : BitVec 32 × BitVec 32 := (s,s+1)

/-- The 32 bytes of a hello message. -/
theorem ssl_random_fills_hello : Fills 32 (sslRandom countingRand 0 32).2 :=
  (ssl_random_fills_iff countingRand 0 32 (by norm_num)).mpr (by norm_num)

/-- Of 257 bytes the last one is never written. -/
theorem ssl_random_leaves_last :
    ¬∀ outputLen<2^32, Fills outputLen (sslRandom countingRand 0 outputLen).2 := by
  intro h
  obtain ⟨v,hv⟩ := (h 257 (by norm_num)).1 256 (by norm_num)
  obtain ⟨k,_,hk⟩ := (mem_sslRandomLoop countingRand 257 256 0).mp ⟨v,hv⟩
  omega

end IdearNiu.Tls
