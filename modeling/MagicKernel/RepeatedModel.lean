import Mathlib.Algebra.Ring.Nat
import MagicKernel.BlockHeap
import MagicKernel.FaultMachine

/-! The device of `repeated.c`. Each of its minors has a string, which a read delivers over and over, and a
size, which writes add to and no read goes beyond. The strings lie in kernel memory; the position belongs
to the open file.

Calls run one at a time, and user memory does not change during a call. Whether `kmalloc` succeeds and
where, and which accesses to user memory succeed, comes with the call. A read through `module_string`
may go outside the block it points to: then it yields what happens to lie there, if anything is mapped. That
comes with the call too, and may be a byte of another string. -/

namespace MagicKernel.Repeated

open FaultMachine BlockHeap

def EBADF : Int := 9

def ENOMEM : Int := 12

def EFAULT : Int := 14

def EINVAL : Int := 22

def ENOTTY : Int := 25

/-- `_IOW('r', 0, char*)`. -/
def SET_STRING : UInt32 := 0x40047200

/-- `_IO('r', 1)`. -/
def RESET : UInt32 := 0x00007201

/-- The largest block that `kmalloc` yields. -/
def kmallocMax : Nat := 131072

/-- An index into `OurData`, which has `MAX_MINORS` entries. -/
abbrev Minor := Fin 256

abbrev FileId := Nat

/-- `Data_t`. -/
structure Data where
  flag : Int32
  moduleString : Addr
  maxSize : Int32
  stringSize : Int32
  deriving DecidableEq

/-- An open file; `minor` is what its `private_data` points to. -/
structure File where
  minor : Minor
  fPos : Int64
  deriving DecidableEq

structure State where
  ourData : Minor → Data
  heap : Heap (List UInt8)
  file : FileId → Option File

inductive Fault where
  /-- A loop that never ends. -/
  | hang
  /-- `kfree` of a pointer to no block. -/
  | badFree (a : Addr)
  /-- A call on a file that is not open. -/
  | notOpen
  deriving DecidableEq, Repr

def initModule : State where
  ourData _ := ⟨0, 0, 0, 0⟩
  heap := .empty
  file _ := none

def State.modData (s : State) (m : Minor) (f : Data → Data) : State :=
  { s with ourData := Function.update s.ourData m (f (s.ourData m)) }

def State.setPos (s : State) (f : FileId) (fPos : Int64) : State :=
  { s with file := Function.update s.file f ((s.file f).map fun file => { file with fPos := fPos }) }

/-! ### Opening and closing -/

/-- `my_open` of the minor `m`; `memory` says whether the `kmalloc` for the private data succeeds. -/
def myOpen (f : FileId) (m : Minor) (memory : Bool) (s : State) : Int × State :=
  let s := s.modData m fun d => if d.flag ≠ 1 then { d with flag := 1 } else d
  if memory = false then (-ENOMEM, s)
  else (0, { s with file := Function.update s.file f (some ⟨m, 0⟩) })

def myRelease (f : FileId) (s : State) : Int × State :=
  (0, { s with file := Function.update s.file f none })

/-! ### Reading -/

/-- The user buffer of a read: whether `access_ok` accepts it for the count of the call, and which of its
bytes can be written. -/
structure UserBuf where
  accessOk : Bool
  writable : Nat → Bool

/-- One `copy_to_user`: the index into the string, and the byte delivered unless the copy failed. -/
structure Copy where
  stringPos : Int32
  byte : Option UInt8
  deriving DecidableEq

/-- `p[i]`; `stray` is what lies outside the block, be it a byte of another block. -/
def peek (h : Heap (List UInt8)) (stray : Int32 → Option UInt8) (p : Addr) (i : Int32) : Option UInt8 :=
  match h.cells p with
  | none => stray i
  | some bytes => if 0 ≤ i ∧ i.toNatClampNeg < bytes.length then bytes[i.toNatClampNeg]? else stray i

/-- `while (leftover >= string_size) leftover -= string_size;`, for at most as many rounds as there is fuel. -/
def reduce (stringSize : Int32) : Nat → Int32 → Option Int32
  | 0, _ => none
  | fuel + 1, leftover =>
    if leftover ≥ stringSize then reduce stringSize fuel (leftover - stringSize) else some leftover

/-- `copy_to_user` of one byte: it fails if the byte cannot be written, or cannot be read. -/
def copyToUser (writable : Bool) (byte : Option UInt8) : Option UInt8 := if writable then byte else none

/-- `string_pos++; if (string_pos >= string_size) string_pos = 0;` -/
def nextPos (stringSize stringPos : Int32) : Int32 := if stringPos + 1 ≥ stringSize then 0 else stringPos + 1

/-- The copying loop of `my_read`. It yields the bytes read, or nothing if a copy failed. -/
def copyLoop (string : Int32 → Option UInt8) (writable : Nat → Bool) (stringSize allowedBytes : Int32)
    (count : UInt32) : Nat → Int32 → Int32 → Option (Option Int32 × List Copy)
  | 0, _, _ => none
  | fuel + 1, bytesRead, stringPos =>
    -- The second comparison is between an `int` and a `size_t`.
    if bytesRead < allowedBytes ∧ bytesRead.toUInt32 < count then
      match copyToUser (writable bytesRead.toNatClampNeg) (string stringPos) with
      | none => some (none, [⟨stringPos, none⟩])
      | some byte => do
        let (r, copies) ← copyLoop string writable stringSize allowedBytes count fuel (bytesRead + 1)
          (nextPos stringSize stringPos)
        return (r, ⟨stringPos, some byte⟩ :: copies)
    else some (some bytesRead, [])

/-- `my_read`: its result, the position afterwards and the copies it made. -/
def myRead (fuel : Nat) (d : Data) (string : Int32 → Option UInt8) (buf : Option UserBuf) (count : UInt32)
    (fPos : Int64) : Option (Int × Int64 × List Copy) :=
  match buf with
  | none => some (-EFAULT, fPos, [])
  | some buf =>
    if buf.accessOk = false then some (-EBADF, fPos, [])
    else do
      let allowedBytes := (d.maxSize.toInt64 - fPos).toInt32
      let stringPos ← reduce d.stringSize fuel fPos.toInt32
      match ← copyLoop string buf.writable d.stringSize allowedBytes count fuel 0 stringPos with
      | (none, copies) => return (-EBADF, fPos, copies)
      | (some bytesRead, copies) => return (bytesRead.toInt, fPos + bytesRead.toInt64, copies)

/-- Rounds enough for either loop, if it ends at all. -/
def loopBound : Nat := 2 ^ 31

/-! ### Writing and seeking -/

def myWrite (count : UInt32) (d : Data) : Int × Data :=
  -- The sum of an `int` and a `size_t` is a `size_t`.
  let newSize := d.maxSize.toUInt32 + count
  (count.toInt32.toInt, { d with maxSize := newSize.toInt32 })

/-- `my_llseek`, which does not look at its mode. -/
def myLlseek (d : Data) (fPos shift : Int64) : Int64 :=
  let newpos := fPos + shift
  let newpos := if newpos ≥ d.maxSize.toInt64 then d.maxSize.toInt64 else newpos
  if newpos ≤ 0 then 0 else newpos

/-! ### Controls -/

/-- A NUL-terminated string in user memory, and whether `copy_from_user` can copy it. With its NUL it lies
between the null pointer and the end of the address space. -/
structure UserString where
  chars : List UInt8
  noNul : 0 ∉ chars
  fits : chars.length + 1 < 2 ^ 32
  readable : Bool

/-- `while (new_string[i] != '\0') i++;`, with `chars` left before the NUL. -/
def scan (i : Int32) : List UInt8 → Int32
  | [] => i
  | _ :: chars => scan (i + 1) chars

def kfree (a : Addr) (h : Heap (List UInt8)) : Except Fault (Heap (List UInt8)) :=
  match h.cells a with
  | none => .error (.badFree a)
  | some _ => .ok (h.free a)

/-- `if (module_string != NULL) { kfree(module_string); module_string = NULL; }` -/
def freeString (m : Minor) (s : State) : Except Fault State :=
  if (s.ourData m).moduleString ≠ 0 then do
    let heap ← kfree (s.ourData m).moduleString s.heap
    return { s with heap := heap }.modData m fun d => { d with moduleString := 0 }
  else .ok s

/-- The size asked for with `kmalloc`. -/
def UserString.allocSize (newString : UserString) : Nat := (scan 0 newString.chars + 1).toUInt32.toNat

/-- A block into which `n` characters have been copied, with a NUL after them. -/
def fill (chars : List UInt8) (n : Nat) (bytes : List UInt8) : List UInt8 :=
  (chars.take n ++ bytes.drop n).set n 0

/-- `my_ioctl` with `SET_STRING`; `mem` is what `kmalloc` yields, and `junk` what lies there. -/
def setString (m : Minor) (newString : Option UserString) (mem : Addr) (junk : Nat → UInt8) (s : State) :
    Except Fault (Int × State) :=
  match newString with
  | none => .ok (-EINVAL, s)
  | some newString => do
    let s ← freeString m s
    let stringSize := scan 0 newString.chars
    let s := { s with heap := s.heap.alloc mem ((List.range newString.allocSize).map junk) }
    let s := s.modData m fun d => { d with moduleString := mem }
    if mem = 0 then return (-ENOMEM, s.modData m fun d => { d with stringSize := 0 })
    else if newString.readable = false then
      let heap ← kfree mem s.heap
      let s := { s with heap := heap }
      return (-EBADF, s.modData m fun d => { d with moduleString := 0, stringSize := 0 })
    else
      let s := { s with heap := s.heap.modify mem (fill newString.chars stringSize.toNatClampNeg) }
      return (0, s.modData m fun d => { d with stringSize := stringSize })

/-- `my_ioctl` with `RESET`. -/
def reset (m : Minor) (s : State) : Except Fault (Int × State) := do
  let s := s.modData m fun d => { d with maxSize := 0, stringSize := 0 }
  let s ← freeString m s
  return (0, s)

def myIoctl (m : Minor) (cmd : UInt32) (newString : Option UserString) (mem : Addr) (junk : Nat → UInt8)
    (s : State) : Except Fault (Int × State) :=
  if cmd = SET_STRING then setString m newString mem junk s
  else if cmd = RESET then reset m s
  else .ok (-ENOTTY, s)

/-! ### Unloading -/

/-- One round of the loop of `cleanup_module`, which leaves the pointers as they are. -/
def cleanupMinor (m : Minor) (s : State) : Except Fault State :=
  if (s.ourData m).moduleString ≠ 0 then do
    let heap ← kfree (s.ourData m).moduleString s.heap
    return { s with heap := heap }
  else .ok s

/-- The loop of `cleanup_module` over the minors `ms`. -/
def cleanupLoop : List Minor → State → Except Fault State
  | [], s => .ok s
  | m :: ms, s => do cleanupLoop ms (← cleanupMinor m s)

def cleanupModule (s : State) : Except Fault State := cleanupLoop (List.finRange 256) s

/-! ### The device as a machine -/

/-- A call on an open file. `pread` is `sys_pread`, which has `my_read` work on a position of its own. -/
inductive Call where
  | read (buf : Option UserBuf) (count : UInt32) (stray : Int32 → Option UInt8)
  | pread (buf : Option UserBuf) (count : UInt32) (pos : Int64) (stray : Int32 → Option UInt8)
  | write (count : UInt32)
  | llseek (shift : Int64) (mode : Int32)
  | ioctl (cmd : UInt32) (newString : Option UserString) (mem : Addr) (junk : Nat → UInt8)
  | release

inductive Event where
  | opening (f : FileId) (m : Minor) (memory : Bool)
  | call (f : FileId) (c : Call)

/-- What the caller sees of a call. -/
structure Reply where
  ret : Int
  copies : List Copy
  deriving DecidableEq

def State.string (s : State) (m : Minor) (stray : Int32 → Option UInt8) : Int32 → Option UInt8 :=
  peek s.heap stray (s.ourData m).moduleString

def Call.run (c : Call) (f : FileId) (file : File) (s : State) : Except Fault (Reply × State) :=
  match c with
  | .read buf count stray =>
    match myRead loopBound (s.ourData file.minor) (s.string file.minor stray) buf count file.fPos with
    | none => .error .hang
    | some (ret, fPos, copies) => .ok (⟨ret, copies⟩, s.setPos f fPos)
  | .pread buf count pos stray =>
    if pos < 0 then .ok (⟨-EINVAL, []⟩, s)
    else match myRead loopBound (s.ourData file.minor) (s.string file.minor stray) buf count pos with
      | none => .error .hang
      | some (ret, _, copies) => .ok (⟨ret, copies⟩, s)
  | .write count =>
    .ok (⟨(myWrite count (s.ourData file.minor)).1, []⟩, s.modData file.minor fun d => (myWrite count d).2)
  | .llseek shift _ =>
    let newpos := myLlseek (s.ourData file.minor) file.fPos shift
    .ok (⟨newpos.toInt, []⟩, s.setPos f newpos)
  | .ioctl cmd newString mem junk => do
    let (ret, s) ← myIoctl file.minor cmd newString mem junk s
    return (⟨ret, []⟩, s)
  | .release =>
    let (ret, s) := myRelease f s
    .ok (⟨ret, []⟩, s)

def call (s : State) : Event → Except Fault (Reply × State)
  | .opening f m memory =>
    let (ret, s) := myOpen f m memory s
    .ok (⟨ret, []⟩, s)
  | .call f c =>
    match s.file f with
    | none => .error .notOpen
    | some file => c.run f file s

def step (s : State) (e : Event) : Except Fault State := do return (← call s e).2

/-- What `kmalloc` may yield for a string of the minor `m`, whose old string is freed first. -/
def State.Yields (s : State) (m : Minor) (newString : Option UserString) (mem : Addr) : Prop :=
  mem = 0 ∨ (s.heap.free (s.ourData m).moduleString).cells mem = none ∧
    ∀ arg ∈ newString, arg.allocSize ≤ kmallocMax

instance (s : State) (m : Minor) (newString : Option UserString) (mem : Addr) :
    Decidable (s.Yields m newString mem) :=
  inferInstanceAs (Decidable (_ ∨ _ ∧ _))

def Enabled (s : State) : Event → Prop
  | .opening f _ _ => s.file f = none
  | .call f c =>
    match s.file f with
    | none => False
    | some file =>
      match c with
      | .ioctl _ newString mem _ => s.Yields file.minor newString mem
      | _ => True

instance (s : State) (e : Event) : Decidable (Enabled s e) :=
  match e with
  | .opening f _ _ => inferInstanceAs (Decidable (s.file f = none))
  | .call f c =>
    match hfile : s.file f with
    | none => .isFalse (by rw [Enabled, hfile]; exact not_false)
    | some file =>
      match c with
      | .ioctl _ newString mem _ =>
        decidable_of_iff (s.Yields file.minor newString mem) (by rw [Enabled, hfile])
      | .read _ _ _ | .pread _ _ _ _ | .write _ | .llseek _ _ | .release =>
        .isTrue (by rw [Enabled, hfile]; trivial)

def machine : Machine State Event Fault where
  enabled := Enabled
  step := step

instance (s : State) (e : Event) : Decidable (machine.enabled s e) :=
  inferInstanceAs (Decidable (Enabled s e))

end MagicKernel.Repeated
