/-
Program images: `do_execve` (`src/core/cpu/exec.c`) and the image that `user_task_create` (`src/core/cpu/user.c`)
builds.

The embedded programs, the disk and the memory around the file buffer are parameters. `path[64]` is not cleared before
the path is copied to it, and a short path is copied without its NUL, so what the stack held before (`stale`) follows
it; the last byte is set to 0. The image found on the disk is the file buffer, whose pages do not change while it is
loaded.

A page taken for a flat image or for the stack is not checked for 0 (`Stop.wild`, see `mapPage`) and not cleared.

The kernel stack of the task is a memory of its own. `do_execve` writes the frame of the trampoline to its top and
switches to it: from there on the task runs the new image (`ExecResult.launched`).
-/
import Uix.Cpu.Elf
import Uix.Fs.Uixfs
import Uix.Memory.MapPage

namespace Uix

open Pmm (pageIdx pageAddr)

/-- `USER_CODE_BASE` -/
def userCodeBase : U64 := 0x400000#64

/-- `USER_STACK_TOP` -/
def userStackTop : U64 := 0x800000#64

/-- the values of `va` in the loops over the stack: from the top down, `USER_STACK_SIZE` bytes -/
def stackPages : List U64 := (List.range 64).map fun i => userStackTop - BitVec.ofNat 64 ((i + 1) * pageSize)

namespace Kern

/-! ## Reading and writing the active space -/

/-- a byte read by the kernel -/
def readByte (k : Kern) (va : U64) : Except Stop (BitVec 8) :=
  if ¬ Canonical va then .error (.panic .unhandled) else
  match mmuWalk k.mem 3 (frame k.cr3) (idx va) with
  | some t => pure (byteAt k.mem (t.physAddr va))
  | none => .error (.panic .unhandled)

/-- bytes stored by the kernel, from `va` on -/
def writeBytes : List (BitVec 8) → U64 → Kern → Except Stop Kern
  | [], _, k => pure k
  | b :: bs, va, k => do
    let k ← k.write false va b
    writeBytes bs (va + 1) k

/-! ## Filling a new space -/

/-- the offsets in the loop over a flat image -/
def flatOffsets (len : U64) : List ℕ := (List.range ((len.toNat + pageSize - 1) / pageSize)).map (· * pageSize)

/-- a page of a flat image -/
def loadFlatPage (img : Image) (k : Kern) (off : ℕ) : Except Stop Kern := do
  let (_, k) ← k.mapPage (userCodeBase + BitVec.ofNat 64 off) pageFlags
  let chunk := img.len.toNat - off
  let chunk := if pageSize < chunk then pageSize else chunk
  img.copyIn chunk (userCodeBase + BitVec.ofNat 64 off) (BitVec.ofNat 64 off) k

def loadFlat (img : Image) (k : Kern) : Except Stop Kern := (flatOffsets img.len).foldlM (loadFlatPage img) k

def mapStack (k : Kern) : Except Stop Kern :=
  stackPages.foldlM (fun k va => do
    let (_, k) ← k.mapPage va pageFlags
    pure k) k

/-- the bytes of a word -/
def wordBytes (w : U64) : List (BitVec 8) := (List.range 8).map fun i => (w >>> (8 * i)).setWidth 8

/-- the bytes for `AT_RANDOM` -/
def randomBytes : List (BitVec 8) := (List.range 16).map fun i => BitVec.ofNat 8 (i * 7 + 0x5A)

/-- `build_user_stack`: `rsp`, and the space with the strings and the words of the initial stack in it -/
def buildUserStack (path : List (BitVec 8)) (k : Kern) : Except Stop (U64 × Kern) := do
  let top := userStackTop - 64
  let argv0 := top - BitVec.ofNat 64 (path.length + 1)
  let k ← writeBytes (path ++ [0]) argv0 k
  let random := (argv0 - 16) &&& ~~~ 0xF#64
  let k ← writeBytes randomBytes random k
  let auxv : List U64 := [6, 4096, 25, random, 0, 0]
  let frameWords := 1 + 2 + 1 + auxv.length + 1
  let rsp := (random - BitVec.ofNat 64 (frameWords * 8)) &&& ~~~ 0xF#64
  let k ← writeBytes (([1, argv0, 0, 0] ++ auxv).flatMap wordBytes) rsp k
  pure (rsp, k)

/-- the image part of `user_task_create`: the new space, filled; then the kernel's own space is active again -/
def userTaskImage (img : Image) (k : Kern) : Except Stop (PAddr × Kern) := do
  let (cr3, k) ← k.vmmCreateSpace
  let k ← loadFlat img (k.vmmSwitch cr3)
  let k ← mapStack k
  pure (cr3, k.vmmSwitch k.kernelCr3)

/-! ## Leaving the old space -/

/-- an entry of the loop of `free_user_tables`, with the call it makes one level down -/
def freeEntry (below : ℕ → Kern → Except Stop Kern) (level f : ℕ) (k : Kern) (i : Fin 512) : Except Stop Kern :=
  let e := k.mem f i
  if !has e vmmPresent then pure k else
  if 0 < level then do
    let k ← below (frame e) k
    k.pmmFree (e &&& pteMask)
  else k.pmmUnref (e &&& pteMask)

/-- `free_user_tables` -/
def freeUserTables : ℕ → ℕ → Kern → Except Stop Kern
  | 0, f, k => (List.finRange 512).foldlM (freeEntry (fun _ k => pure k) 0 f) k
  | level + 1, f, k => (List.finRange 512).foldlM (freeEntry (freeUserTables level) (level + 1) f) k

/-- the teardown in `do_execve`: the old space is active, and stays so after its PML4 is given back -/
def teardown (cr3 : PAddr) (k : Kern) : Except Stop Kern :=
  if cr3 = 0 then pure k else do
    let k ← lowerHalf.foldlM (freeEntry (freeUserTables 2) 3 (pageIdx cr3)) (k.vmmSwitch cr3)
    k.pmmFree cr3

end Kern

/-! ## `do_execve` -/

/-- the programs and the memory that the kernel finds -/
structure ExecEnv where
  sh : Image
  hello2 : Image
  disk : Disk
  /-- the memory around the file: what is read at an offset from the buffer that is not in the file -/
  stray : U64 → Option (BitVec 8)
  /-- the bytes in `path` before the copy -/
  stale : ℕ → BitVec 8

/-- the fields of `struct task` that `do_execve` uses, and the memory of the task's kernel stack -/
structure ExecTask where
  cr3 : PAddr
  rsp : U64
  kstack : U64
  kstackSize : U64
  stack : U64 → U64

structure ExecState where
  kern : Kern
  fs : Uixfs
  task : ExecTask

/-- a call that fails returns a number, and has printed a line -/
inductive ExecResult where
  | failed (r : ℤ) (printed : List (BitVec 8))
  | launched (entry rsp : U64)
  deriving DecidableEq, Repr

namespace Exec

/-- `"/sh"` -/
def shName : List (BitVec 8) := [0x2F, 0x73, 0x68]

/-- `"/hello2"` -/
def hello2Name : List (BitVec 8) := [0x2F, 0x68, 0x65, 0x6C, 0x6C, 0x6F, 0x32]

/-- the loop that copies the path, with `n` bytes of room left -/
def copyPath (k : Kern) : ℕ → U64 → Except Stop (List (BitVec 8))
  | 0, _ => pure []
  | n + 1, upath => do
    let b ← k.readByte upath
    if b = 0 then pure [] else
    let rest ← copyPath k n (upath + 1)
    pure (b :: rest)

/-- the string in `path` after the copy -/
def pathString (stale : ℕ → BitVec 8) (copied : List (BitVec 8)) : List (BitVec 8) :=
  ((List.range 63).map fun i => copied.getD i (stale i)).takeWhile (· ≠ 0)

def text (s : String) : List (BitVec 8) := s.toList.map fun c => BitVec.ofNat 8 c.toNat

/-- `kprintf(KLOG_ERR "execve: .. '%s'\n", path)` -/
def complaint (what : String) (path : List (BitVec 8)) : List (BitVec 8) :=
  text ("[err ] execve: " ++ what ++ " '") ++ path ++ text "'\n"

/-- the file buffer as an image -/
def diskImage (env : ExecEnv) (k : Kern) (buf : PAddr) (size : ℕ) : Image where
  len := BitVec.ofNat 64 size
  byte off := if off.toNat < size then some (byteAt k.mem (buf.toNat + off.toNat)) else env.stray off

/-- `strcmp(path, name) == 0` -/
def named (path name : List (BitVec 8)) : Bool := strcmp (fun i => path.getD i 0) 0 name = 0

/-- the image of the program, and whether it is in the file buffer -/
def findProgram (env : ExecEnv) (path : List (BitVec 8)) (s : ExecState) :
    Except Stop (Option (Image × Bool) × ExecState) :=
  if named path shName then pure (some (env.sh, false), s) else
  if named path hello2Name then pure (some (env.hello2, false), s) else do
    let (r, buf, fs, k) ← Uixfs.uixfsRead env.disk path s.fs s.kern
    let s := { s with fs := fs, kern := k }
    match buf with
    | some buf => if r < 0 then pure (none, s) else pure (some (diskImage env k buf r.toNat, true), s)
    | none => pure (none, s)

/-- `len >= 4 && img[0] == 0x7F && img[1] == 'E'` -/
def isElf (img : Image) : Except Stop Bool := do
  if img.len.toNat < 4 then pure false else
  let b0 ← img.get 0
  if b0 ≠ 0x7F then pure false else
  let b1 ← img.get 1
  pure (b1 = 0x45)

/-- the old user half is given back, and a new space is active -/
def newSpace (s : ExecState) : Except Stop ExecState := do
  let k ← Kern.teardown s.task.cr3 s.kern
  let (cr3, k) ← k.vmmCreateSpace
  pure { s with kern := k.vmmSwitch cr3, task := { s.task with cr3 := cr3 } }

/-- the words of the trampoline's frame, from the top of the kernel stack down -/
def launchFrame (trampoline entry rsp : U64) : List U64 := [trampoline, 0, 0, entry, rsp, 0x202, 0]

/-- `sp -= 8; *(u64 *)sp = w` for each word -/
def pushWords (sp : U64) (stack : U64 → U64) : List U64 → U64 × (U64 → U64)
  | [] => (sp, stack)
  | w :: ws => pushWords (sp - 8) (Function.update stack (sp - 8) w) ws

/-- the address of `user_launch_trampoline` is a parameter -/
def launch (trampoline entry rsp : U64) (t : ExecTask) : ExecTask :=
  let (sp, stack) := pushWords ((t.kstack + t.kstackSize) &&& ~~~ 0xF#64) t.stack (launchFrame trampoline entry rsp)
  { t with rsp := sp, stack := stack }

/-- the image and the stack, in the new space: `none` for an ELF image that `elf_load` refuses -/
def loadImage (img : Image) (path : List (BitVec 8)) (k : Kern) : Except Stop (Option (U64 × U64) × Kern) := do
  if ← isElf img then do
    let (entry, l) ← Elf.elfLoad img k
    if entry = 0 then pure (none, l.kern) else
    let k ← l.kern.mapStack
    let (rsp, k) ← Kern.buildUserStack path k
    pure (some (entry, rsp), k)
  else do
    let k ← Kern.loadFlat img k
    let k ← k.mapStack
    pure (some (userCodeBase, userStackTop - 16), k)

/-- `do_execve` -/
def doExecve (env : ExecEnv) (trampoline upath : U64) (s : ExecState) : Except Stop (ExecResult × ExecState) := do
  let copied ← copyPath s.kern 63 upath
  let path := pathString env.stale copied
  match ← findProgram env path s with
  | (none, s) => pure (.failed (-2) (complaint "no such program" path), s)
  | (some (img, fromDisk), s) => do
    let s ← newSpace s
    match ← loadImage img path s.kern with
    | (none, k) => pure (.failed (-8) (complaint "bad ELF" path), { s with kern := k })
    | (some (entry, rsp), k) => do
      let (fs, k) ← if fromDisk then s.fs.fileBufFree k else pure (s.fs, k)
      pure (.launched entry rsp, ⟨k, fs, launch trampoline entry rsp s.task⟩)

end Exec

end Uix
