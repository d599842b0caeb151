import MagicKernel.BlockHeap
import MagicKernel.FaultMachine

/-! The wand subsystem: the wand system calls, the additions to `do_fork` and `do_exit`, and
`release_task`, over an explicit heap.

Kernel memory is a heap of blocks with `kmalloc` and `kfree`; the address a `kmalloc` yields and the
bytes it finds there come with the call. A dereference of a pointer to no block of the kind expected
there is a fault, and so is a string function that runs past the end of a block. System calls run one
at a time. The buffer of `sys_magic_get_wand` is read where it lies in user memory, four times over. -/

namespace MagicKernel.Wand

open FaultMachine BlockHeap

def secretMaxsize : Nat := 32

def hz : UInt32 := 512

def EPERM : Int := 1

def ESRCH : Int := 3

def ENOMEM : Int := 12

def EFAULT : Int := 14

def EEXIST : Int := 17

def EINVAL : Int := 22

def ECONNREFUSED : Int := 111

def EHOSTDOWN : Int := 112

/-! ### Kernel memory -/

/-- A block: a `struct list_head`, a `struct secrets_list`, or a string. -/
inductive Block where
  | head (link : Link)
  | node (link : Link) (secret : List UInt8)
  | string (bytes : List UInt8)
  deriving DecidableEq

def Block.link : Block → Option Link
  | .head l => some l
  | .node l _ => some l
  | .string _ => none

def Block.setLink (l : Link) : Block → Block
  | .head _ => .head l
  | .node _ secret => .node l secret
  | .string bytes => .string bytes

instance : Linked Block where
  link := Block.link
  setLink := Block.setLink
  link_setLink := by
    intro l b hb
    cases b with
    | head l' => rfl
    | node l' secret => rfl
    | string bytes => cases hb

inductive Fault where
  /-- A dereference of a pointer to no block of the kind expected there. -/
  | access (a : Addr)
  /-- `kfree` of a pointer to no block. -/
  | badFree (a : Addr)
  /-- A string function reads past the end of a block. -/
  | overread
  /-- `strcpy` writes past the end of its destination. -/
  | overrun
  /-- A walk through a list never comes back to its head. -/
  | endless
  /-- `panic("Attempted to kill the idle task!")`. -/
  | killedIdle
  /-- `panic("Attempted to kill init!")`. -/
  | killedInit
  deriving DecidableEq, Repr

/-- `kfree`, which does nothing to the null pointer. -/
def kfree (a : Addr) (h : Heap Block) : Except Fault (Heap Block) :=
  if a = 0 then .ok h
  else match h.cells a with
    | none => .error (.badFree a)
    | some _ => .ok (h.free a)

def loadNext (h : Heap Block) (a : Addr) : Except Fault Addr :=
  match h.next a with
  | none => .error (.access a)
  | some n => .ok n

/-- `list_entry(a)->secret`. -/
def loadSecret (h : Heap Block) (a : Addr) : Except Fault (List UInt8) :=
  match h.cells a with
  | some (.node _ secret) => .ok secret
  | _ => .error (.access a)

def loadString (h : Heap Block) (a : Addr) : Except Fault (List UInt8) :=
  match h.cells a with
  | some (.string bytes) => .ok bytes
  | _ => .error (.access a)

/-! ### Strings -/

/-- What a string function reads, byte by byte; `none` past the end of a block. -/
abbrev Bytes := Nat → Option UInt8

def ofBlock (bytes : List UInt8) : Bytes := fun i => bytes[i]?

/-- User memory, read where it lies. -/
def ofUser (bytes : Nat → UInt8) : Bytes := fun i => some (bytes i)

/-- `strcpy` into a block with the given contents, up to and including the first NUL of the source. -/
def strcpy : List UInt8 → Bytes → Except Fault (List UInt8)
  | [], src =>
    match src 0 with
    | none => .error .overread
    | some _ => .error .overrun
  | _ :: dst, src =>
    match src 0 with
    | none => .error .overread
    | some c => if c = 0 then .ok (0 :: dst) else do return c :: (← strcpy dst fun i => src (i + 1))

/-- Whether `strcmp` of a block and a string is 0. -/
def strcmp : List UInt8 → Bytes → Except Fault Bool
  | [], _ => .error .overread
  | c :: cs, ct =>
    match ct 0 with
    | none => .error .overread
    | some d =>
      if c ≠ d then .ok false
      else if c = 0 then .ok true
      else strcmp cs fun i => ct (i + 1)

/-- The length that `sys_magic_get_wand` allocates: the bytes up to and including the first NUL, and at
most `SECRET_MAXSIZE`. -/
def secretLen (secret : Nat → UInt8) : Nat :=
  match (List.range secretMaxsize).find? fun i => secret i = 0 with
  | some i => i + 1
  | none => secretMaxsize

/-! ### Tasks -/

abbrev TaskId := Nat

/-- The part of `task_struct` that the wand subsystem uses. `exited` is `TASK_ZOMBIE`. -/
structure Task where
  pid : Int32
  exited : Bool
  holdingWand : Bool
  health : Int32
  power : Int32
  mySecret : Addr
  secretsPtr : Addr
  magicTime : UInt32
  magicCallTime : UInt32

/-- `inUse` tells which task structures are allocated; `pidhash` has the chains of the hash table. -/
structure State where
  task : TaskId → Task
  inUse : TaskId → Bool
  pidhash : Int32 → List TaskId
  heap : Heap Block

def State.modTask (s : State) (p : TaskId) (f : Task → Task) : State :=
  { s with task := Function.update s.task p (f (s.task p)) }

def pidHashfn (pid : Int32) : Int32 := ((pid >>> 8) ^^^ pid) &&& 1023

def hashPid (p : TaskId) (s : State) : State :=
  let k := pidHashfn (s.task p).pid
  { s with pidhash := Function.update s.pidhash k (p :: s.pidhash k) }

def unhashPid (p : TaskId) (s : State) : State :=
  let k := pidHashfn (s.task p).pid
  { s with pidhash := Function.update s.pidhash k ((s.pidhash k).filter (· ≠ p)) }

def findTaskByPid (s : State) (pid : Int32) : Option TaskId :=
  (s.pidhash (pidHashfn pid)).find? fun p => (s.task p).pid = pid

/-! ### System calls -/

/-- The user buffer as the four reads of it find it. -/
structure SecretReads where
  first : UInt8
  scan : Nat → UInt8
  copy : Nat → UInt8
  compare : Nat → UInt8

/-- `sys_magic_get_wand` by `p`; `mem` is what `kmalloc` yields, with the bytes `junk` in it. -/
def sysMagicGetWand (p : TaskId) (power : Int32) (secret : Option SecretReads) (mem : Addr)
    (junk : Nat → UInt8) (s : State) : Except Fault (Int × State) :=
  if (s.task p).holdingWand then .ok (-EEXIST, s)
  else match secret with
    | none => .ok (-EFAULT, s)
    | some r =>
      if r.first = 0 then .ok (-EINVAL, s)
      else do
        let fresh := (List.range (secretLen r.scan)).map junk
        let s := { s with heap := s.heap.alloc mem (.string fresh) }
        let s := s.modTask p fun t => { t with mySecret := mem }
        if mem = 0 then return (-ENOMEM, s)
        else
          let bytes ← strcpy fresh (ofUser r.copy)
          let s := { s with heap := s.heap.modify mem fun _ => .string bytes }
          if ← strcmp bytes (ofUser r.compare) then
            return (0, s.modTask p fun t => { t with power := power, holdingWand := true, health := 100 })
          else
            let heap ← kfree mem s.heap
            return (-EFAULT, { s with heap := heap })

/-- The search of a list of stolen secrets for the secret at `secret`. -/
def secretStolen (h : Heap Block) (secrets secret : Addr) : Except Fault Bool := do
  let first ← loadNext h secrets
  let found ← h.walk secrets .access .endless (fun pos => do
    let theirs ← loadSecret h pos
    let mine ← loadString h secret
    return if ← strcmp theirs (ofBlock mine) then some () else none) h.top first
  return found.isSome

def sysMagicAttack (attacker : TaskId) (pid : Int32) (s : State) : Except Fault (Int × State) :=
  match findTaskByPid s pid with
  | none => .ok (-ESRCH, s)
  | some target =>
    if (s.task attacker).holdingWand = false ∨ (s.task target).holdingWand = false then
      .ok (-EPERM, s)
    else if (s.task attacker).health = 0 ∨ (s.task target).health = 0 then .ok (-EHOSTDOWN, s)
    else if attacker = target then .ok (-ECONNREFUSED, s)
    else do
      if ← secretStolen s.heap (s.task target).secretsPtr (s.task attacker).mySecret then
        return (-ECONNREFUSED, s)
      else
        let left := (s.task target).health - (s.task attacker).power
        let health := if left > 0 then left else 0
        return (health.toInt, s.modTask target fun t => { t with health := health })

def sysMagicLegilimens (attacker : TaskId) (pid : Int32) (mem : Addr) (junk : Nat → UInt8) (s : State) :
    Except Fault (Int × State) :=
  match findTaskByPid s pid with
  | none => .ok (-ESRCH, s)
  | some target =>
    if target = attacker then .ok (0, s)
    else if (s.task attacker).holdingWand = false ∨ (s.task target).holdingWand = false then
      .ok (-EPERM, s)
    else do
      if ← secretStolen s.heap (s.task attacker).secretsPtr (s.task target).mySecret then
        return (-EEXIST, s)
      else if mem = 0 then return (-ENOMEM, s)
      else
        let fresh := (List.range secretMaxsize).map junk
        let mine ← loadString s.heap (s.task target).mySecret
        let secret ← strcpy fresh (ofBlock mine)
        let heap := s.heap.alloc mem (.node ⟨0, 0⟩ secret)
        match heap.listAddTail mem (s.task attacker).secretsPtr with
        | none => .error (.access (s.task attacker).secretsPtr)
        | some heap => return (0, { s with heap := heap })

/-- A write to the user's array of secrets: bytes copied to an entry, or an entry made empty. -/
inductive UserWrite where
  | copy (i : Nat) (bytes : List UInt8)
  | pad (i : Nat)
  deriving DecidableEq

/-- The copying loop of `sys_magic_list_secrets`, with `counter` secrets left at `ptr`. Of `secrets[i]`
`copy_to_user` can store `room i` bytes. It yields the number of secrets copied, or nothing if
`copy_to_user` failed, which leaves the last secret there in part. -/
def copySecrets (h : Heap Block) (room : Nat → Nat) (size listLen : Nat) :
    Nat → Nat → Addr → List UserWrite → Except Fault (Option Nat × List UserWrite)
  | 0, i, _, out =>
    if i < size then .ok (some i, out ++ (List.range' listLen (size - listLen)).map .pad)
    else .ok (some i, out)
  | counter + 1, i, ptr, out =>
    if i < size then do
      let secret ← loadSecret h ptr
      let out := out ++ [.copy i (secret.take (room i))]
      if room i < secretMaxsize then return (none, out)
      else
        let ptr ← loadNext h ptr
        copySecrets h room size listLen counter (i + 1) ptr out
    else .ok (some i, out)

/-- The entries of a list, as `list_for_each` meets them. -/
def listEntries (h : Heap Block) (head : Addr) : Nat → Addr → Except Fault (List Addr)
  | 0, pos => if pos = head then .ok [] else .error .endless
  | fuel + 1, pos =>
    if pos = head then .ok []
    else do
      let n ← loadNext h pos
      return pos :: (← listEntries h head fuel n)

/-- `sys_magic_list_secrets` by `p`. The user's array has room for so many bytes of each entry, or is
`NULL`; the entries that are only made empty have room for that. -/
def sysMagicListSecrets (p : TaskId) (secrets : Option (Nat → Nat)) (size : Nat) (s : State) :
    Except Fault (Int × List UserWrite) :=
  if (s.task p).holdingWand = false then .ok (-EPERM, [])
  else do
    let first ← loadNext s.heap (s.task p).secretsPtr
    -- The loop that prints every secret.
    let _ ← s.heap.walk (s.task p).secretsPtr .access .endless (fun pos => do
      let secret ← loadSecret s.heap pos
      if 0 ∈ secret then return (none : Option Unit) else .error .overread) s.heap.top first
    let entries ← listEntries s.heap (s.task p).secretsPtr s.heap.top first
    if size = 0 then return (entries.length, [])
    else match secrets with
      | none => return (-EFAULT, [])
      | some room =>
        match ← copySecrets s.heap room size entries.length entries.length 0 first [] with
        | (none, out) => return (-EFAULT, out)
        | (some stolen, out) => return ((entries.length : Int) - stolen, out)

/-- `sys_magic_clock` by `p`, at the tick `jiffies`. -/
def sysMagicClock (p : TaskId) (seconds jiffies : UInt32) (s : State) : Int × State :=
  if (s.task p).holdingWand = false then (-EPERM, s)
  else (0, s.modTask p fun t => { t with magicTime := seconds * hz, magicCallTime := jiffies })

/-! ### Processes -/

/-- The part of a `do_fork` by `parent` up to the hashing of `child`; `mem` is what `kmalloc` yields for
the list head. A failure there leaves the new structure allocated. -/
def doFork (parent child : TaskId) (pid : Int32) (mem : Addr) (s : State) : Int × State :=
  let s := { s with
    inUse := Function.update s.inUse child true
    task := Function.update s.task child
      { s.task parent with
        pid := pid, exited := false, holdingWand := false, mySecret := 0, magicTime := 0, magicCallTime := 0 } }
  if mem = 0 then (-ENOMEM, s)
  else
    let s := { s with heap := s.heap.alloc mem (.head ⟨mem, mem⟩) }
    let s := s.modTask child fun t => { t with secretsPtr := mem }
    (pid.toInt, hashPid child s)

/-- The loop of `do_exit` that empties the list of stolen secrets. -/
def freeSecrets (head : Addr) : Nat → Addr → Heap Block → Except Fault (Heap Block)
  | 0, pos, h => if pos = head then .ok h else .error .endless
  | fuel + 1, pos, h =>
    if pos = head then .ok h
    else do
      let n ← loadNext h pos
      match h.listDel pos with
      | none => .error (.access pos)
      | some h =>
        let h ← kfree pos h
        freeSecrets head fuel n h

/-- `do_exit` by `p`, which leaves a zombie. -/
def doExit (p : TaskId) (s : State) : Except Fault State := do
  let heap ← kfree (s.task p).mySecret s.heap
  let first ← loadNext heap (s.task p).secretsPtr
  let heap ← freeSecrets (s.task p).secretsPtr heap.top first heap
  let heap ← kfree (s.task p).secretsPtr heap
  if (s.task p).pid = 0 then .error .killedIdle
  else if (s.task p).pid = 1 then .error .killedInit
  else return { s with heap := heap }.modTask p fun t => { t with exited := true }

def releaseTask (p : TaskId) (s : State) : State :=
  let s := (unhashPid p s).modTask p fun t => { t with pid := 0 }
  { s with inUse := Function.update s.inUse p false }

/-! ### The machine -/

inductive Call where
  | fork (child : TaskId) (pid : Int32) (mem : Addr)
  | getWand (power : Int32) (secret : Option SecretReads) (mem : Addr) (junk : Nat → UInt8)
  | attack (pid : Int32)
  | legilimens (pid : Int32) (mem : Addr) (junk : Nat → UInt8)
  | listSecrets (secrets : Option (Nat → Nat)) (size : Nat)
  | magicClock (seconds jiffies : UInt32)
  | exit
  | release (p : TaskId)

/-- A call made by the task `current`. -/
structure Event where
  current : TaskId
  call : Call

/-- A task is visible while it is hashed. -/
def State.Visible (s : State) (p : TaskId) : Prop := p ∈ s.pidhash (pidHashfn (s.task p).pid)

/-- `kmalloc` yields memory that is not in use, or fails. `get_pid` yields a positive process number
that no visible task has. -/
def Call.Enabled (s : State) (current : TaskId) : Call → Prop
  | .fork child pid mem =>
    s.inUse child = false ∧ 0 < pid ∧ findTaskByPid s pid = none ∧ s.heap.cells mem = none
  | .getWand _ _ mem _ => s.heap.cells mem = none
  | .attack _ => True
  | .legilimens _ mem _ => s.heap.cells mem = none
  | .listSecrets _ _ => True
  | .magicClock _ _ => True
  | .exit => True
  | .release p => s.Visible p ∧ (s.task p).exited = true ∧ p ≠ current

/-- Calls are made by visible tasks that have not exited. -/
def Enabled (s : State) (e : Event) : Prop :=
  s.Visible e.current ∧ (s.task e.current).exited = false ∧ e.call.Enabled s e.current

instance (s : State) (p : TaskId) : Decidable (s.Visible p) :=
  inferInstanceAs (Decidable (p ∈ s.pidhash (pidHashfn (s.task p).pid)))

instance (s : State) (current : TaskId) : (c : Call) → Decidable (c.Enabled s current)
  | .fork child pid mem => inferInstanceAs (Decidable (s.inUse child = false ∧ 0 < pid ∧
      findTaskByPid s pid = none ∧ s.heap.cells mem = none))
  | .getWand _ _ mem _ => inferInstanceAs (Decidable (s.heap.cells mem = none))
  | .attack _ => .isTrue trivial
  | .legilimens _ mem _ => inferInstanceAs (Decidable (s.heap.cells mem = none))
  | .listSecrets _ _ => .isTrue trivial
  | .magicClock _ _ => .isTrue trivial
  | .exit => .isTrue trivial
  | .release p => inferInstanceAs (Decidable (s.Visible p ∧ (s.task p).exited = true ∧ p ≠ current))

def step (s : State) (e : Event) : Except Fault State :=
  match e.call with
  | .fork child pid mem => .ok (doFork e.current child pid mem s).2
  | .getWand power secret mem junk => do return (← sysMagicGetWand e.current power secret mem junk s).2
  | .attack pid => do return (← sysMagicAttack e.current pid s).2
  | .legilimens pid mem junk => do return (← sysMagicLegilimens e.current pid mem junk s).2
  | .listSecrets secrets size => do
    let _ ← sysMagicListSecrets e.current secrets size s
    return s
  | .magicClock seconds jiffies => .ok (sysMagicClock e.current seconds jiffies s).2
  | .exit => doExit e.current s
  | .release p => .ok (releaseTask p s)

def machine : Machine State Event Fault where
  enabled := Enabled
  step := step

instance (s : State) (e : Event) : Decidable (machine.enabled s e) :=
  inferInstanceAs (Decidable (s.Visible e.current ∧ (s.task e.current).exited = false ∧
    e.call.Enabled s e.current))

end MagicKernel.Wand
