import Mathlib.Tactic

namespace IdearNiu.Chaining

variable {α : Type}

/-- Cipher block chaining: every block is mixed with the cipher block before it. -/
def chain (mix : α → α → α) (encipher : α → α) (reg : α) : List α → List α
  | [] => []
  | p::ps =>
    let c := encipher (mix reg p)
    c::chain mix encipher c ps

def unchain (mix : α → α → α) (decipher : α → α) (reg : α) : List α → List α
  | [] => []
  | c::cs => mix (decipher c) reg::unchain mix decipher c cs

/-- Unchaining undoes chaining on blocks of a class that the register never leaves. -/
theorem unchain_chain (mix mix' : α → α → α) (encipher decipher : α → α) (good : α → Prop)
    (hgood : ∀ x,good (encipher x)) (hmix : ∀ x y,good (mix x y))
    (hinv : ∀ x,good x → decipher (encipher x)=x)
    (hcancel : ∀ x y,good x → good y → mix' (mix x y) x=y)
    (reg : α) (hreg : good reg) (ps : List α) (hps : ∀ p∈ps,good p) :
    unchain mix' decipher reg (chain mix encipher reg ps)=ps := by
  induction ps generalizing reg with
  | nil => rfl
  | cons p ps ih =>
    simp only [chain,unchain]
    rw [hinv _ (hmix reg p),hcancel reg p hreg (hps p (by simp)),
      ih _ (hgood _) (fun x hx => hps x (by simp [hx]))]

theorem chain_length (mix : α → α → α) (encipher : α → α) (reg : α) (ps : List α) :
    (chain mix encipher reg ps).length=ps.length := by
  induction ps generalizing reg with
  | nil => rfl
  | cons p ps ih => simp only [chain,List.length_cons,ih]

theorem chain_good (mix : α → α → α) (encipher : α → α) (good : α → Prop)
    (hgood : ∀ x,good (encipher x)) (reg : α) (ps : List α) :
    ∀ c∈chain mix encipher reg ps,good c := by
  induction ps generalizing reg with
  | nil => simp [chain]
  | cons p ps ih =>
    simp only [chain,List.mem_cons]
    intro c hcase
    rcases hcase with rfl|hc
    · exact hgood _
    · exact ih _ c hc

/-- The last block is mixed with the cipher block before it, or with the register. -/
theorem unchain_concat (mix : α → α → α) (decipher : α → α) (reg : α) (cs : List α) (c : α) :
    unchain mix decipher reg (cs++[c])=
      unchain mix decipher reg cs++[mix (decipher c) (cs.getLastD reg)] := by
  induction cs generalizing reg with
  | nil => rfl
  | cons d cs ih =>
    simp only [List.cons_append,unchain,ih]
    cases cs <;> rfl

theorem unchain_good (mix : α → α → α) (decipher : α → α) (good : α → Prop)
    (hgood : ∀ x y,good (mix x y)) (reg : α) (cs : List α) :
    ∀ p∈unchain mix decipher reg cs,good p := by
  induction cs generalizing reg with
  | nil => simp [unchain]
  | cons c cs ih =>
    simp only [unchain,List.mem_cons]
    intro p hcase
    rcases hcase with rfl|hp
    · exact hgood _ _
    · exact ih c p hp

theorem unchain_length (mix : α → α → α) (decipher : α → α) (reg : α) (cs : List α) :
    (unchain mix decipher reg cs).length=cs.length := by
  induction cs generalizing reg with
  | nil => rfl
  | cons c cs ih => simp only [unchain,List.length_cons,ih]

/-- The first n blocks of k elements. -/
def chunks (k : Nat) : Nat → List α → List (List α)
  | 0,_ => []
  | n+1,l => l.take k::chunks k n (l.drop k)

theorem chunks_length (k n : Nat) (l : List α) : (chunks k n l).length=n := by
  induction n generalizing l with
  | zero => rfl
  | succ n ih => simp only [chunks,List.length_cons,ih]

theorem chunks_sizes (k n : Nat) (l : List α) (hl : k*n≤l.length) :
    ∀ b∈chunks k n l,b.length=k := by
  induction n generalizing l with
  | zero => simp [chunks]
  | succ n ih =>
    rw [Nat.mul_succ] at hl
    simp only [chunks,List.mem_cons]
    intro b hcase
    rcases hcase with rfl|hb
    · rw [List.length_take]
      omega
    · exact ih (l.drop k) (by rw [List.length_drop]; omega) b hb

theorem chunks_flatten (k n : Nat) (l : List α) : (chunks k n l).flatten=l.take (k*n) := by
  induction n generalizing l with
  | zero => simp [chunks]
  | succ n ih =>
    simp only [chunks,List.flatten_cons,ih]
    rw [Nat.mul_succ,Nat.add_comm,List.take_add]

/-- Blocks of equal size are read back from their concatenation. -/
theorem chunks_of_flatten (k : Nat) (bs : List (List α)) (hbs : ∀ b∈bs,b.length=k)
    (rest : List α) : chunks k bs.length (bs.flatten++rest)=bs := by
  induction bs with
  | nil => rfl
  | cons b bs ih =>
    have hb : b.length=k := hbs b (by simp)
    simp only [List.length_cons,chunks,List.flatten_cons,List.append_assoc]
    rw [List.take_left' hb,List.drop_left' hb,ih (fun x hx => hbs x (by simp [hx]))]

theorem chunks_append (k m n : Nat) (a b : List α) (ha : a.length=k*m) :
    chunks k (m+n) (a++b)=chunks k m a++chunks k n b := by
  induction m generalizing a with
  | zero =>
    rw [Nat.mul_zero,List.length_eq_zero_iff] at ha
    rw [ha,Nat.zero_add]
    rfl
  | succ m ih =>
    rw [Nat.mul_succ] at ha
    rw [Nat.succ_add]
    simp only [chunks,List.cons_append]
    rw [List.take_append_of_le_length (by omega),List.drop_append_of_le_length (by omega),
      ih (a.drop k) (by rw [List.length_drop]; omega)]

/-- The full blocks of k elements of a list; what is left over at its end is not among them. -/
def blocks (k : Nat) (l : List α) : List (List α) := chunks k (l.length/k) l

theorem blocks_short (k : Nat) (l : List α) (h : l.length<k) : blocks k l=[] := by
  rw [blocks,Nat.div_eq_of_lt h]
  rfl

theorem blocks_single (k : Nat) (hk : 0<k) (l : List α) (h : l.length=k) : blocks k l=[l] := by
  rw [blocks,h,Nat.div_self hk]
  simp only [chunks]
  rw [List.take_of_length_le (by omega)]

/-- A list whose length is a multiple of the block size is cut into blocks by itself. -/
theorem blocks_append (k : Nat) (hk : 0<k) (a b : List α) (ha : a.length%k=0) :
    blocks k (a++b)=blocks k a++blocks k b := by
  have hm : a.length=k*(a.length/k) := (Nat.mul_div_cancel' (Nat.dvd_of_mod_eq_zero ha)).symm
  have hn : (a++b).length/k=a.length/k+b.length/k := by
    rw [List.length_append]
    conv_lhs => rw [hm]
    rw [Nat.mul_add_div hk]
  rw [blocks,hn,chunks_append k _ _ a b hm]
  rfl

theorem blocks_cons (k : Nat) (hk : 0<k) (l : List α) (h : k≤l.length) :
    blocks k l=l.take k::blocks k (l.drop k) := by
  have hlen : (l.take k).length=k := by
    rw [List.length_take]
    omega
  conv_lhs => rw [← List.take_append_drop k l]
  rw [blocks_append k hk _ _ (by rw [hlen,Nat.mod_self]),blocks_single k hk _ hlen]
  rfl

end IdearNiu.Chaining
