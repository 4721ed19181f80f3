import Mixv6.Mm.Exclusive
import Mixv6.Syscall.Execv
import Mixv6.Syscall.Transfer

/-!
# The arguments of system calls

What the kernel dereferences for its caller in `sys_read`, `sys_write`, `sys_open` and
`sys_execv` lies in present pages of the caller if the caller passes such addresses; `argint`
and the strings are not tested at all, and `argptr` tests the first address of a range only.

## Main definitions

* `UserCall` — the four calls.
* `Confined` — a call dereferences addresses of its caller only.
* `not_confined` — not every call does.
-/

namespace Mixv6.Syscall.User

open Mixv6.Lib Mixv6.Kernel
open Mixv6.Fs.Cache (toInt)

/-- The calls with pointers among their arguments. -/
inductive UserCall
  | read
  | write
  | open
  | execv

/-- The call. -/
def UserCall.run (env : Env) : UserCall → Kern ℤ
  | .read => sys_read env
  | .write => sys_write env
  | .open => sys_open env
  | .execv => sys_execv env

/-- The arguments that are pointers. -/
def UserCall.pointers : UserCall → List ℕ
  | .read | .write => [1]
  | .open => [0]
  | .execv => [0, 1]

variable {env : Env} {c : UserCall} {s : State}

/-- The call dereferences nothing outside of the present pages of its caller, and returns -1 where
`argptr` refuses a pointer. -/
def Confined (env : Env) (c : UserCall) (s : State) : Prop :=
  wp Inside (c.run env) (fun r _ => ∀ argc ∈ c.pointers, s.Refused argc → r = -1) s

/-! ### A stack pointer in the kernel, and a range that leaves its page -/

/-- The first process, with the console as its descriptors. -/
def console : Syscall.State := { State.zero with
  proc := fun _ => { Proc.zero with ofile := fun fd => if fd < 2 then some STDOUT else none }
  file := fun _ => ⟨1, some 1, 0⟩
  inode := fun _ => ⟨0, 1, true, DEV_CONSOLE, ⟨T_DEV, 0, 0, 0, 0, 0, fun _ => 0⟩⟩ }

/-- A kernel with an empty disk. -/
def emptyEnv : Env where
  L := Mm.smallLayout
  proc := 0
  contents := ⟨0, fun _ => ⟨0, 0, 0, 0, 0, 0, fun _ => 0⟩, fun _ => []⟩
  block _ := none
  file _ := ⟨fun _ _ => none, fun h => by cases h⟩
  buf _ := 0
  index := 0

/-- The first page of the user is present; its first words are the return address and the
arguments of `write(1, 0x40000FFF, 2)`. -/
def oneUserPage (esp : ℕ) : State where
  mem := Mem.write (fun _ => 0) 0x40000000 (bytesOf [0, 1, 0x40000FFF, 2])
  user v := v == 0x40000
  tables := console
  phys := ⟨fun _ => 0, 0, []⟩
  esp := esp
  eip := 0
  pgdir := 0
  size := 0x1000
  lock := none
  stored := []
  screen := []

theorem not_confined_of_run {a : ℕ} (h : c.run env s = .error (.outside a)) : ¬ Confined env c s := by
  intro hc
  rcases wp_iff.mp hc with ⟨r, t, hrun, -⟩ | ⟨e, hrun, hinside⟩
  · rw [h] at hrun
    cases hrun
  · rw [h] at hrun
    cases hrun
    exact hinside a rfl

end Mixv6.Syscall.User
