import Mathlib.Algebra.Group.Nat.Defs
import Mathlib.Logic.Function.Basic

/-!
The two functions `memmove`, of `string.c` in the kernel and of `ulib.c` for the programs. A pointer is a number below
2^32, and one that is moved on wraps around.
-/

namespace Xv6.Memmove

abbrev Memory := Nat → UInt8

def uint (k : Nat) : Nat :=
  k % 2 ^ 32

-- `while(n-- > 0) *d++ = *s++;`
def copyUp (d s : Nat) : Nat → Memory → Memory
  | 0, m => m
  | n + 1, m => copyUp (uint (d + 1)) (uint (s + 1)) n (Function.update m d (m s))

-- `while(n-- > 0) *--d = *--s;`
def copyDown (d s : Nat) : Nat → Memory → Memory
  | 0, m => m
  | n + 1, m =>
    let d := uint (d + 2 ^ 32 - 1)
    let s := uint (s + 2 ^ 32 - 1)
    copyDown d s n (Function.update m d (m s))

-- `string.c`, where `n` is a `uint`
def kernelMemmove (d s n : Nat) (m : Memory) : Memory :=
  if s < d ∧ uint (s + n) > d then copyDown (uint (d + n)) (uint (s + n)) n m else copyUp d s n m

-- `ulib.c`, where `n` is an `int`
def ulibMemmove (d s : Nat) (n : Int) (m : Memory) : Memory :=
  copyUp d s n.toNat m

end Xv6.Memmove
