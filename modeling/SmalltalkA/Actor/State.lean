import Mathlib

/-! Lifecycle states of actors and futures (`actor.h`, `future.h`) and their 32-bit counters. -/

set_option autoImplicit false

namespace SmalltalkA

inductive ActorState where
  | created | ready | running | suspended | terminated
  deriving DecidableEq,Repr

inductive FutureState where
  | pending | resolved | failed | timedOut | resolving | failing
  deriving DecidableEq,Repr

/-- One more and one less as a `uint32_t`. -/
def inc32 (n : Nat) : Nat := (n + 1) % 2 ^ 32

def dec32 (n : Nat) : Nat := (n + (2 ^ 32 - 1)) % 2 ^ 32

theorem inc32_of_lt {n : Nat} (h : n + 1 < 2 ^ 32) : inc32 n = n + 1 := Nat.mod_eq_of_lt h

theorem dec32_of_pos {n : Nat} (h : 0 < n) (hlt : n < 2 ^ 32) : dec32 n = n - 1 := by
  unfold dec32
  omega

/-- The root actor, made by `sta_vm_create` in state READY and run by the main thread. -/
def rootActor : Nat := 1

end SmalltalkA
