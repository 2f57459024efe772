import Hallucinate.Mm.Kmalloc
import Hallucinate.Proc.ElfLoad
import Hallucinate.Proc.Stack
import Hallucinate.Vfs.Path

/-!
# Replacing a program (`process_execve` in `kernel/proc/process.c`)

`process_execve` copies the path and the two vectors from user memory, reads the file, builds a new
address space with the program and its stack, and only then gives up the old one. Its scratch
buffers are on the heap, and the heap and the page tables take their frames from one allocator.

User memory is read through the page tables of the process (`kernel/proc/uaccess.c`). The file
system is given by what reading a file comes to (`FileRead`): it changes neither the heap nor the
frames, but for the buffer. The bytes that are read, the copies of the vectors and the scratch page
are values here and not contents of the heap. A panic, a failed `KASSERT` and a read outside of the
image are `panic`. Left out: the switch to the new page tables, since the memory is the same.

`processExecve` is the whole call, `execImage` what it does before it gives up the old image.
-/

namespace Hallucinate.Proc

open Lib Mm
open Gfs (CStr)

/-- The errors that `process_execve` returns. -/
inductive ExecErr
  | enomem | efault | enametoolong | e2big | enoexec
  /-- An error of the file system. -/
  | file (e : Vfs.Errno)
  deriving DecidableEq, Repr

/-- The byte at a user address. -/
def userByte (s : Machine) (pml4 va : Nat) : UInt8 :=
  match (pagingLookup s pml4 va).2 with
  | some phys => s.mem (phys / 4096) (phys % 4096)
  | none => 0

end Hallucinate.Proc
