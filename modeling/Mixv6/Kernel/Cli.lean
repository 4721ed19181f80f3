import Mathlib.Algebra.Ring.Nat

/-!
# Nested disabling of interrupts

`pushcli` and `popcli` of `kernel/lock.c`, with the two 16-bit counters of
`struct user` they use and the interrupt flag of the processor.
-/

namespace Mixv6.Kernel

/-- The interrupt enable bit of `eflags`. -/
def FL_IF : ℕ := 0x200

/-- The interrupt flag, `user.ncli` and `user.intena`. -/
structure Cli where
  intf : Bool
  ncli : ℕ
  intena : ℕ
  deriving DecidableEq, Repr

namespace Cli

/-- `leflags() & FL_IF`. -/
def leflags (c : Cli) : ℕ := if c.intf then FL_IF else 0

/-- `pushcli`: the flag is read before it is cleared, and kept by the outermost call. -/
def pushcli (c : Cli) : Cli where
  intf := false
  ncli := (c.ncli + 1) % 65536
  intena := if c.ncli = 0 then c.leflags else c.intena

/-- `popcli`; `none` is its panic.  The counter is unsigned, so the second test of the
source, `user.ncli < 0`, is never true and is left out. -/
def popcli (c : Cli) : Option Cli :=
  let c := { c with ncli := (c.ncli + 65535) % 65536 }
  if c.intf then none
  else if c.ncli = 0 ∧ c.intena ≠ 0 then some { c with intena := 0, intf := true }
  else some c

/-- Outside every section: nothing is pushed and no flag is kept. -/
def idle (intf : Bool) : Cli := ⟨intf, 0, 0⟩

/-- A section around another one changes nothing for it. -/
theorem popcli_pushcli_inner {c : Cli} (hif : c.intf = false) (h0 : c.ncli ≠ 0)
    (hlt : c.ncli + 1 < 65536) : c.pushcli.popcli = some c := by
  obtain ⟨intf, ncli, intena⟩ := c
  have h1 : (ncli + 1) % 65536 = ncli + 1 := Nat.mod_eq_of_lt hlt
  have h2 : (ncli + 1 + 65535) % 65536 = ncli := by simp only at hlt; omega
  simp only at hif h0
  simp [pushcli, popcli, h0, h1, h2, hif]

/-- The outermost section ends with the flag it began with. -/
@[simp] theorem popcli_pushcli_idle (intf : Bool) :
    (idle intf).pushcli.popcli = some (idle intf) := by
  cases intf <;> simp [idle, pushcli, popcli, leflags, FL_IF]

end Cli
end Mixv6.Kernel
