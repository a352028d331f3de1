import SystemsProjects.IoBounds
import SystemsProjects.VmState

/-!
# The page that `sys_read` and `sys_write` copy through

Both calls allocate a page, move the bytes through it and free it before their last `return`.
Neither compares the number of bytes with the size of the page, and where a copy, `do_read` or
`do_write` fails they return without freeing it. The copies to and from the memory of the process
are arguments here, and so is the answer of a device, which moves as many bytes as it says.
-/
namespace SystemsProjects.TransferBuffers
open CallOutcomes VfsState RamfsOperations FileCalls VfsCalls FileReferences OpenDescriptors
  IoBounds
open PathCallSafety
open VmState (Errno)

variable {s : VState} {cur f v : ℕ} {fd : ℤ} {x : File} {vn : Vnode} {m : UserMemory} {a : IoArgs}
  {arg : ℕ} {device : Option ℤ}

end SystemsProjects.TransferBuffers
