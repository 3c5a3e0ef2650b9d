import Mathlib

/-! Little-endian numbers in lists of bytes. -/

set_option autoImplicit false

namespace ByteCodec

open List

/-- The low `k` bytes of a number, the lowest first. -/
def toLe : Nat → Nat → List Nat
  | 0,_ => []
  | k + 1,x => x % 256 :: toLe k (x / 256)

def ofLe : List Nat → Nat
  | [] => 0
  | b :: bs => b + 256 * ofLe bs

@[simp] theorem length_toLe (k x : Nat) : (toLe k x).length = k := by
  induction k generalizing x with
  | zero => rfl
  | succ k ih => simp [toLe,ih]

theorem toLe_lt {k x b : Nat} (h : b ∈ toLe k x) : b < 256 := by
  induction k generalizing x with
  | zero => simp [toLe] at h
  | succ k ih =>
    rcases mem_cons.mp h with rfl | h
    · exact Nat.mod_lt _ (by decide)
    · exact ih h

theorem toLe_ofLe {k : Nat} {bs : List Nat} (hlen : bs.length ≤ k) (hbytes : ∀ b ∈ bs,b < 256) :
    toLe k (ofLe bs) = bs ++ List.replicate (k - bs.length) 0 := by
  induction k generalizing bs with
  | zero => simp [toLe,eq_nil_of_length_eq_zero (Nat.le_zero.mp hlen)]
  | succ k ih =>
    cases bs with
    | nil =>
      have hnil : toLe k (ofLe []) = [] ++ List.replicate (k - 0) 0 := ih (by simp) (by simp)
      simpa [toLe,ofLe,replicate_succ] using hnil
    | cons b bs =>
      have hb : b < 256 := hbytes b mem_cons_self
      have hrest : toLe k (ofLe bs) = bs ++ List.replicate (k - bs.length) 0 :=
        ih (by simpa using hlen) (fun c hc => hbytes c (mem_cons_of_mem b hc))
      have hmod : (b + 256 * ofLe bs) % 256 = b := by omega
      have hdiv : (b + 256 * ofLe bs) / 256 = ofLe bs := by omega
      simp only [toLe,ofLe,hmod,hdiv,hrest,cons_append,length_cons,Nat.add_sub_add_right]

end ByteCodec
