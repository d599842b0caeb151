import MagicKernel.RepeatedRead

/-! The device with calls that sleep. An access to user memory may have to wait for its page, and meanwhile
other processes run. So a `my_read` is cut at every `copy_to_user`, and a `SET_STRING` at every character that
it scans and at its `copy_from_user`; no other call touches user memory. Any number of calls may be asleep at
once, and an undisturbed call does what it does in the model without sleep. -/

namespace MagicKernel.Repeated

open FaultMachine BlockHeap

/-! ### Calls in progress -/

abbrev Pid := Nat

/-- A `my_read` at a `copy_to_user`. The string and the sizes it has read into local variables. -/
structure Reading where
  f : FileId
  /-- Whether `f_pos` is that of the file: a `sys_pread` has one of its own. -/
  shared : Bool
  buf : UserBuf
  count : UInt32
  moduleString : Addr
  stringSize : Int32
  allowedBytes : Int32
  bytesRead : Int32
  stringPos : Int32
  copies : List Copy

/-- The arguments of a `SET_STRING`. -/
structure Setting where
  f : FileId
  minor : Minor
  newString : UserString

inductive Progress where
  | reading (r : Reading)
  /-- About to look at `new_string[i]`, with `chars` left before the NUL. -/
  | scanning (c : Setting) (i : Int32) (chars : List UInt8)
  /-- In `copy_from_user`, which copies to `dst`. -/
  | copying (c : Setting) (i : Int32) (dst : Addr)

def Progress.file : Progress → FileId
  | .reading r => r.f
  | .scanning c _ _ => c.f
  | .copying c _ _ => c.f

/-- How far a call has come. -/
inductive Stage where
  | asleep (c : Progress)
  | done (reply : Reply)

inductive Trap where
  | device (fault : Fault)
  /-- A write through a pointer to no block, or beyond the end of its block. -/
  | badWrite (a : Addr)

/-- What a call that goes on meets: what `kmalloc` yields and what lies there, what lies outside the block that is
read, and how much a `copy_from_user` copies before it fails. -/
structure Chance where
  mem : Addr
  junk : Nat → UInt8
  stray : Int32 → Option UInt8
  copied : Nat

/-- What matters to a read. -/
def Chance.reads (stray : Int32 → Option UInt8) : Chance := ⟨0, fun _ => 0, stray, 0⟩

/-- What matters to a `SET_STRING`. -/
def Chance.sets (mem : Addr) (junk : Nat → UInt8) : Chance := ⟨mem, junk, fun _ => none, 0⟩

/-! ### Reading -/

/-- `*f_pos += bytes_read`, at the position that the file has by then. -/
def State.advance (s : State) (f : FileId) (bytesRead : Int32) : State :=
  let file := (s.file f).map fun file => { file with fPos := file.fPos + bytesRead.toInt64 }
  { s with file := Function.update s.file f file }

/-- The test of the copying loop. -/
def Reading.test (r : Reading) (s : State) : Stage × State :=
  if More r.allowedBytes r.count r.bytesRead then (.asleep (.reading r), s)
  else (.done ⟨r.bytesRead.toInt, r.copies⟩, if r.shared then s.advance r.f r.bytesRead else s)

/-- `my_read` up to its first copy. -/
def startRead (f : FileId) (shared : Bool) (d : Data) (buf : Option UserBuf) (count : UInt32) (fPos : Int64)
    (s : State) : Except Trap (Stage × State) :=
  match buf with
  | none => .ok (.done ⟨-EFAULT, []⟩, s)
  | some buf =>
    if buf.accessOk = false then .ok (.done ⟨-EBADF, []⟩, s)
    else match reduce d.stringSize loopBound fPos.toInt32 with
      | none => .error (.device .hang)
      | some stringPos =>
        let r : Reading := ⟨f, shared, buf, count, d.moduleString, d.stringSize, allowed d fPos, 0, stringPos, []⟩
        .ok (r.test s)

/-- The copy is made, and the loop goes round. -/
def Reading.resume (r : Reading) (stray : Int32 → Option UInt8) (s : State) : Stage × State :=
  let byte := copyToUser (r.buf.writable r.bytesRead.toNatClampNeg) (peek s.heap stray r.moduleString r.stringPos)
  let copies := r.copies ++ [⟨r.stringPos, byte⟩]
  match byte with
  | none => (.done ⟨-EBADF, copies⟩, s)
  | some _ =>
    { r with
      bytesRead := r.bytesRead + 1
      stringPos := nextPos r.stringSize r.stringPos
      copies := copies }.test s

/-! ### Setting the string -/

/-- `SET_STRING` up to its first look at the new string. -/
def startSet (f : FileId) (m : Minor) (newString : Option UserString) (s : State) : Except Fault (Stage × State) :=
  match newString with
  | none => .ok (.done ⟨-EINVAL, []⟩, s)
  | some newString => do
    let s ← freeString m s
    return (.asleep (.scanning ⟨f, m, newString⟩ 0 newString.chars), s)

/-- A character is looked at; behind the last one a block is allocated for the string. -/
def Setting.scan (c : Setting) (ch : Chance) (i : Int32) (chars : List UInt8) (s : State) : Stage × State :=
  match chars with
  | _ :: chars => (.asleep (.scanning c (i + 1) chars), s)
  | [] =>
    let s := { s with heap := s.heap.alloc ch.mem ((List.range (i + 1).toUInt32.toNat).map ch.junk) }
    let s := s.modData c.minor fun d => { d with moduleString := ch.mem }
    if ch.mem = 0 then (.done ⟨-ENOMEM, []⟩, s.modData c.minor fun d => { d with stringSize := 0 })
    else (.asleep (.copying c i ch.mem), s)

/-- The bytes `new` are written to the block at `dst`, from the index `i` on. -/
def store (dst : Addr) (i : Nat) (new : List UInt8) (h : Heap (List UInt8)) : Except Trap (Heap (List UInt8)) :=
  match h.cells dst with
  | none => .error (.badWrite dst)
  | some bytes =>
    if i + new.length ≤ bytes.length then
      .ok (h.modify dst fun bytes => bytes.take i ++ new ++ bytes.drop (i + new.length))
    else .error (.badWrite dst)

/-- What a `copy_from_user` that fails leaves of `n` characters: those it copied, and zeros. -/
def cutOff (chars : List UInt8) (n copied : Nat) : List UInt8 :=
  (chars.take n).take copied ++ List.replicate (n - copied) 0

/-- The rest of `SET_STRING`. What follows the copy works on the block that `module_string` then points to. -/
def Setting.copy (c : Setting) (ch : Chance) (i : Int32) (dst : Addr) (s : State) : Except Trap (Stage × State) := do
  let n := i.toNatClampNeg
  if c.newString.readable = false then
    let heap ← store dst 0 (cutOff c.newString.chars n ch.copied) s.heap
    -- `kfree` of a null pointer does nothing.
    let s ← (freeString c.minor { s with heap := heap }).mapError .device
    return (.done ⟨-EBADF, []⟩, s.modData c.minor fun d => { d with stringSize := 0 })
  else
    let heap ← store dst 0 (c.newString.chars.take n) s.heap
    let heap ← store (s.ourData c.minor).moduleString n [0] heap
    return (.done ⟨0, []⟩, { s with heap := heap }.modData c.minor fun d => { d with stringSize := i })

/-! ### The device as a machine -/

/-- A call without an access to user memory. -/
def whole (s : State) (e : Event) : Except Trap (Stage × State) := do
  let (reply, s) ← (call s e).mapError .device
  return (.done reply, s)

def Call.start (c : Call) (f : FileId) (file : File) (s : State) : Except Trap (Stage × State) :=
  match c with
  | .read buf count _ => startRead f true (s.ourData file.minor) buf count file.fPos s
  | .pread buf count pos _ =>
    if pos < 0 then .ok (.done ⟨-EINVAL, []⟩, s)
    else startRead f false (s.ourData file.minor) buf count pos s
  | .ioctl cmd newString mem junk =>
    if cmd = SET_STRING then (startSet f file.minor newString s).mapError .device
    else whole s (.call f (.ioctl cmd newString mem junk))
  | .write count => whole s (.call f (.write count))
  | .llseek shift mode => whole s (.call f (.llseek shift mode))
  | .release => whole s (.call f .release)

/-- A call is made, and runs until it sleeps or returns. -/
def start (s : State) : Event → Except Trap (Stage × State)
  | .opening f m memory => whole s (.opening f m memory)
  | .call f c =>
    match s.file f with
    | none => .error (.device .notOpen)
    | some file => c.start f file s

theorem start_call {s : State} {f : FileId} {file : File} (hfile : s.file f = some file) (c : Call) :
    start s (.call f c) = c.start f file s := by
  rw [start, hfile]

/-- A call that was asleep goes on until it sleeps again or returns. -/
def Progress.resume (c : Progress) (ch : Chance) (s : State) : Except Trap (Stage × State) :=
  match c with
  | .reading r => .ok (r.resume ch.stray s)
  | .scanning c i chars => .ok (c.scan ch i chars s)
  | .copying c i dst => c.copy ch i dst s

/-- The device and the calls that are asleep. -/
structure World where
  state : State
  asleep : List (Pid × Progress)

inductive Act where
  | start (p : Pid) (e : Event)
  | resume (p : Pid) (ch : Chance)

def Act.pid : Act → Pid
  | .start p _ => p
  | .resume p _ => p

/-- The process `p` has run to where its call is now. -/
def World.settle (w : World) (p : Pid) : Stage × State → World
  | (.asleep c, s) => ⟨s, (p, c) :: w.asleep.filter (·.1 ≠ p)⟩
  | (.done _, s) => ⟨s, w.asleep.filter (·.1 ≠ p)⟩

def World.step (w : World) : Act → Except Trap World
  | .start p e => do return w.settle p (← start w.state e)
  | .resume p ch =>
    match w.asleep.lookup p with
    | none => .ok w
    | some c => do return w.settle p (← c.resume ch w.state)

/-- Whether the call may be made; a file is not released while a call on it is asleep. -/
def World.Admits (w : World) : Event → Prop
  | .opening f _ _ => w.state.file f = none
  | .call f .release => w.state.file f ≠ none ∧ ∀ x ∈ w.asleep, x.2.file ≠ f
  | .call f _ => w.state.file f ≠ none

/-- What `kmalloc` may yield for `size` bytes. -/
def State.Provides (s : State) (mem : Addr) (size : Nat) : Prop :=
  mem = 0 ∨ s.heap.cells mem = none ∧ size ≤ kmallocMax

/-- What a call that goes on may meet. -/
def World.Allows (w : World) (ch : Chance) : Progress → Prop
  | .scanning _ i [] => w.state.Provides ch.mem (i + 1).toUInt32.toNat
  | _ => True

def World.Enabled (w : World) : Act → Prop
  | .start p e => w.asleep.lookup p = none ∧ w.Admits e
  | .resume p ch => ∃ c, w.asleep.lookup p = some c ∧ w.Allows ch c

instance (w : World) (e : Event) : Decidable (w.Admits e) :=
  match e with
  | .opening f _ _ => inferInstanceAs (Decidable (w.state.file f = none))
  | .call f .release => inferInstanceAs (Decidable (_ ∧ ∀ x ∈ w.asleep, x.2.file ≠ f))
  | .call f (.read _ _ _) | .call f (.pread _ _ _ _) | .call f (.write _) | .call f (.llseek _ _)
  | .call f (.ioctl _ _ _ _) => inferInstanceAs (Decidable (w.state.file f ≠ none))

instance (s : State) (mem : Addr) (size : Nat) : Decidable (s.Provides mem size) :=
  inferInstanceAs (Decidable (_ ∨ _ ∧ _))

instance (w : World) (ch : Chance) (c : Progress) : Decidable (w.Allows ch c) :=
  match c with
  | .scanning _ i [] => inferInstanceAs (Decidable (w.state.Provides ch.mem (i + 1).toUInt32.toNat))
  | .scanning _ _ (_ :: _) | .reading _ | .copying _ _ _ => .isTrue trivial

instance (w : World) (a : Act) : Decidable (w.Enabled a) :=
  match a with
  | .start p e => inferInstanceAs (Decidable (w.asleep.lookup p = none ∧ w.Admits e))
  | .resume p ch =>
    match hp : w.asleep.lookup p with
    | none => .isFalse (by rintro ⟨c, hc, -⟩; rw [hp] at hc; cases hc)
    | some c => decidable_of_iff (w.Allows ch c) (by rw [World.Enabled, hp]; simp)

def sleeping : Machine World Act Trap where
  enabled := World.Enabled
  step := World.step

instance (w : World) (a : Act) : Decidable (sleeping.enabled w a) :=
  inferInstanceAs (Decidable (w.Enabled a))

/-- The module has been loaded, and no call has been made. -/
def idle : World := ⟨initModule, []⟩

/-! ### Calls that are not disturbed -/

section Undisturbed

variable {s t : State} {p : Pid} {rest : List (Pid × Progress)}

/-- A process that sleeps in no other call. -/
def Awake (p : Pid) (rest : List (Pid × Progress)) : Prop := ∀ x ∈ rest, x.1 ≠ p

theorem Awake.filter (hawake : Awake p rest) : rest.filter (·.1 ≠ p) = rest := by
  apply List.filter_eq_self.2
  intro x hx
  exact decide_eq_true (hawake x hx)

theorem Awake.lookup (hawake : Awake p rest) : rest.lookup p = none := by
  apply List.lookup_eq_none_iff.2
  intro x hx
  exact bne_iff_ne.2 (Ne.symm (hawake x hx))

/-- What the process slept in before makes no difference to where it is now. -/
theorem settle_cons (c : Progress) (x : Stage × State) :
    (World.mk s ((p, c) :: rest)).settle p x = (World.mk t rest).settle p x := by
  have hfilter : ((p, c) :: rest).filter (·.1 ≠ p) = rest.filter (·.1 ≠ p) := by
    rw [List.filter_cons, if_neg (by simp)]
  obtain ⟨stage, u⟩ := x
  cases stage with
  | asleep c' => rw [World.settle, World.settle, hfilter]
  | done reply => rw [World.settle, World.settle, hfilter]

theorem Awake.settle_done (hawake : Awake p rest) (reply : Reply) :
    (World.mk s rest).settle p (.done reply, t) = ⟨t, rest⟩ := by
  rw [World.settle, hawake.filter]

theorem Awake.settle_asleep (hawake : Awake p rest) (c : Progress) :
    (World.mk s rest).settle p (.asleep c, t) = ⟨t, (p, c) :: rest⟩ := by
  rw [World.settle, hawake.filter]

/-- Acts of the process `p` alone take one world to the other. -/
def Reaches (p : Pid) (w w' : World) : Prop := ∃ acts, (∀ a ∈ acts, a.pid = p) ∧ sleeping.Run w acts w'

theorem Reaches.refl (p : Pid) (w : World) : Reaches p w w :=
  ⟨[], fun _ ha => absurd ha List.not_mem_nil, .nil w⟩

theorem Reaches.head {w w' w'' : World} {a : Act} (hpid : a.pid = p) (hstep : sleeping.Step w a w')
    (hrest : Reaches p w' w'') : Reaches p w w'' := by
  obtain ⟨acts, hacts, hrun⟩ := hrest
  refine ⟨a :: acts, fun b hb => ?_, .cons hstep hrun⟩
  rcases List.mem_cons.1 hb with rfl | hb
  · exact hpid
  · exact hacts b hb

/-- A call in progress takes its next step. -/
theorem reaches_resume (c : Progress) (ch : Chance) {x : Stage × State} {w : World}
    (hallows : (World.mk s ((p, c) :: rest)).Allows ch c) (hresume : c.resume ch s = .ok x)
    (hreaches : Reaches p ((World.mk s rest).settle p x) w) : Reaches p ⟨s, (p, c) :: rest⟩ w := by
  have hlookup : ((p, c) :: rest).lookup p = some c := List.lookup_cons_self
  refine .head (a := .resume p ch) rfl ⟨⟨c, hlookup, hallows⟩, ?_⟩ hreaches
  change World.step ⟨s, (p, c) :: rest⟩ (.resume p ch) = _
  unfold World.step
  dsimp only
  rw [hlookup]
  dsimp only
  rw [hresume, ok_bind]
  exact congrArg Except.ok (settle_cons c x)

/-- The rounds of a read, one after the other. -/
theorem reaches_copyLoop (hawake : Awake p rest) {stray : Int32 → Option UInt8} {fuel : Nat} (r : Reading)
    {res : Option Int32} {copies : List Copy}
    (hcopies : copyLoop (peek s.heap stray r.moduleString) r.buf.writable r.stringSize r.allowedBytes r.count fuel
      r.bytesRead r.stringPos = some (res, copies)) :
    Reaches p ((World.mk s rest).settle p (r.test s))
      ⟨res.elim s fun n => if r.shared then s.advance r.f n else s, rest⟩ := by
  induction fuel generalizing r copies with
  | zero => cases hcopies
  | succ fuel ih =>
      rcases copyLoop_cases hcopies with ⟨hmore, rfl, -⟩ | ⟨hmore, rfl, -, hcopy⟩ |
        ⟨byte, copies, hmore, -, hcopy, hcopies⟩
      · rw [Reading.test, if_neg hmore, hawake.settle_done]
        exact .refl p _
      · rw [Reading.test, if_pos hmore, hawake.settle_asleep]
        apply reaches_resume (.reading r) (.reads stray) (x := r.resume stray s) trivial rfl
        rw [Reading.resume, hcopy]
        dsimp only
        rw [hawake.settle_done]
        exact .refl p _
      · rw [Reading.test, if_pos hmore, hawake.settle_asleep]
        apply reaches_resume (.reading r) (.reads stray) (x := r.resume stray s) trivial rfl
        rw [Reading.resume, hcopy]
        exact ih _ hcopies

theorem advance_eq {f : FileId} {file : File} (hfile : s.file f = some file) (n : Int32) :
    s.advance f n = s.setPos f (file.fPos + n.toInt64) := by
  rw [State.advance, State.setPos, hfile]
  rfl

theorem setPos_self {f : FileId} {file : File} (hfile : s.file f = some file) : s.setPos f file.fPos = s := by
  have hsame : (s.file f).map (fun file' => { file' with fPos := file.fPos }) = s.file f := by
    rw [hfile]
    rfl
  rw [State.setPos, hsame, Function.update_eq_self]

/-- A read from where it starts. -/
theorem reaches_startRead (hawake : Awake p rest) (f : FileId) (shared : Bool) {d : Data}
    {stray : Int32 → Option UInt8} {buf : Option UserBuf} {count : UInt32} {fPos fPos' : Int64} {ret : Int}
    {copies : List Copy}
    (hread : myRead loopBound d (peek s.heap stray d.moduleString) buf count fPos = some (ret, fPos', copies)) :
    ∃ x n, startRead f shared d buf count fPos s = .ok x ∧ fPos' = Option.elim n fPos (fPos + ·.toInt64) ∧
      Reaches p ((World.mk s rest).settle p x) ⟨n.elim s fun n => if shared then s.advance f n else s, rest⟩ := by
  unfold startRead
  cases buf with
  | none =>
      cases hread
      refine ⟨_, none, rfl, rfl, ?_⟩
      rw [hawake.settle_done]
      exact .refl p _
  | some buf =>
      dsimp only
      by_cases haccess : buf.accessOk = false
      · rw [myRead, if_pos haccess] at hread
        cases hread
        rw [if_pos haccess]
        refine ⟨_, none, rfl, rfl, ?_⟩
        rw [hawake.settle_done]
        exact .refl p _
      · rw [if_neg haccess]
        cases hreduce : reduce d.stringSize loopBound fPos.toInt32 with
        | none => cases hread.symm.trans (myRead_of_hang haccess hreduce)
        | some stringPos =>
            obtain ⟨⟨res, copies'⟩, hcopies, houtcome⟩ :=
              Option.map_eq_some_iff.1 ((myRead_of_reduce haccess hreduce).symm.trans hread)
            refine ⟨_, res, rfl, ?_, reaches_copyLoop hawake _ hcopies⟩
            cases res with
            | none =>
                cases houtcome
                rfl
            | some n =>
                cases houtcome
                rfl

theorem freeable_of_freeString {m : Minor} (h : freeString m s = .ok t) :
    (s.ourData m).moduleString = 0 ∨ ∃ bytes, s.heap.cells (s.ourData m).moduleString = some bytes := by
  unfold freeString at h
  by_cases hnull : (s.ourData m).moduleString = 0
  · exact Or.inl hnull
  · rw [if_pos hnull, kfree] at h
    cases hcell : s.heap.cells (s.ourData m).moduleString with
    | none =>
        rw [hcell] at h
        cases h
    | some bytes => exact Or.inr ⟨bytes, rfl⟩

theorem store_alloc {h : Heap (List UInt8)} {mem : Addr} (hmem : mem ≠ 0) {i : Nat} {new bytes : List UInt8}
    (hfits : i + new.length ≤ bytes.length) : store mem i new (h.alloc mem bytes) =
      .ok (h.alloc mem (bytes.take i ++ new ++ bytes.drop (i + new.length))) := by
  have hcell : (h.alloc mem bytes).cells mem = some bytes := by rw [Heap.cells_alloc hmem, Function.update_self]
  rw [store, hcell]
  dsimp only
  rw [if_pos hfits, Heap.modify_alloc hmem]

/-- The characters of the new string, one after the other. -/
theorem reaches_scan (hawake : Awake p rest) (c : Setting) {i : Int32} {chars : List UInt8} {w : World}
    (hreaches : Reaches p ⟨s, (p, .scanning c (scan i chars) []) :: rest⟩ w) :
    Reaches p ⟨s, (p, .scanning c i chars) :: rest⟩ w := by
  induction chars generalizing i with
  | nil => exact hreaches
  | cons char chars ih =>
      apply reaches_resume (.scanning c i (char :: chars)) (.sets 0 fun _ => 0) trivial rfl
      change Reaches p ((World.mk s rest).settle p (.asleep (.scanning c (i + 1) chars), s)) w
      rw [hawake.settle_asleep]
      exact ih hreaches

theorem length_cutOff (chars : List UInt8) (copied : Nat) :
    (cutOff chars chars.length copied).length = chars.length := by
  rw [cutOff, List.length_append, List.length_take, List.take_length, List.length_replicate]
  omega

section Copy

variable (c : Setting) {ch : Chance} {i : Int32} {h : Heap (List UInt8)} {mem : Addr} {bytes : List UInt8}
  (hmem : mem ≠ 0) (hheap : s.heap = h.alloc mem bytes) (hstring : (s.ourData c.minor).moduleString = mem)
  (hlen : i.toNatClampNeg = c.newString.chars.length) (hbytes : bytes.length = c.newString.chars.length + 1)

include hmem hheap hstring hlen hbytes

/-- The copy to a block that is still the minor's. -/
theorem Setting.copy_readable (hreadable : c.newString.readable ≠ false) : c.copy ch i mem s =
    .ok (.done ⟨0, []⟩, { s with heap := h.alloc mem (fill c.newString.chars c.newString.chars.length bytes) }.modData
      c.minor fun d => { d with stringSize := i }) := by
  have hend : bytes.drop (c.newString.chars.length + 1) = [] := List.drop_eq_nil_of_le (by omega)
  have hstored : ∀ old : List UInt8, old = c.newString.chars ++ bytes.drop c.newString.chars.length →
      old.take c.newString.chars.length ++ [0] ++ old.drop (c.newString.chars.length + 1) =
        c.newString.chars ++ [0] := by
    rintro old rfl
    calc
      _ = c.newString.chars ++ [0] ++ (bytes.drop c.newString.chars.length).drop 1 := by
        rw [List.take_left, List.drop_append, List.drop_eq_nil_of_le (Nat.le_succ _), Nat.add_sub_cancel_left,
          List.nil_append]
      _ = c.newString.chars ++ [0] ++ bytes.drop (c.newString.chars.length + 1) := by rw [List.drop_drop]
      _ = c.newString.chars ++ [0] := by rw [hend, List.append_nil]
  unfold Setting.copy
  dsimp only
  rw [if_neg hreadable, hlen, List.take_length, hheap, hstring, store_alloc hmem (by omega), ok_bind,
    store_alloc hmem (by simp; omega), ok_bind, fill_eq hbytes, List.length_singleton, hstored]
  · rfl
  · rw [List.take_zero, List.nil_append, Nat.zero_add]

theorem Setting.copy_unreadable (hreadable : c.newString.readable = false) : c.copy ch i mem s =
    .ok (.done ⟨-EBADF, []⟩, { s with heap := (h.alloc mem bytes).free mem }.modData c.minor
      fun d => { d with moduleString := 0, stringSize := 0 }) := by
  have hfits : 0 + (cutOff c.newString.chars c.newString.chars.length ch.copied).length ≤ bytes.length := by
    rw [length_cutOff]
    omega
  have hfree : ∀ new, freeString c.minor { s with heap := h.alloc mem new } =
      .ok ({ s with heap := (h.alloc mem bytes).free mem }.modData c.minor fun d => { d with moduleString := 0 }) := by
    intro new
    have hcell : (h.alloc mem new).cells mem = some new := by rw [Heap.cells_alloc hmem, Function.update_self]
    rw [freeString_eq (Or.inr ⟨new, by rw [hstring]; exact hcell⟩)]
    dsimp only
    rw [hstring, Heap.free_alloc_congr h mem new bytes]
  unfold Setting.copy
  dsimp only
  rw [if_pos hreadable, hlen, hheap, store_alloc hmem hfits, ok_bind, hfree]
  exact congrArg (fun u => Except.ok (Stage.done ⟨-EBADF, []⟩, u)) (modData_modData _ _ _ _)

end Copy

/-- A `SET_STRING` from where it starts. -/
theorem reaches_startSet (hawake : Awake p rest) (f : FileId) {m : Minor} {newString : Option UserString}
    {mem : Addr} {junk : Nat → UInt8} {ret : Int} (hyields : s.Yields m newString mem)
    (hset : setString m newString mem junk s = .ok (ret, t)) :
    ∃ x, startSet f m newString s = .ok x ∧ Reaches p ((World.mk s rest).settle p x) ⟨t, rest⟩ := by
  cases newString with
  | none =>
      cases hset
      refine ⟨_, rfl, ?_⟩
      rw [hawake.settle_done]
      exact .refl p _
  | some arg =>
      obtain ⟨u, hfree, hset⟩ := bind_eq_ok.1 hset
      let c : Setting := ⟨f, m, arg⟩
      refine ⟨(.asleep (.scanning c 0 arg.chars), u), ?_, ?_⟩
      · rw [startSet, hfree]
        rfl
      rw [hawake.settle_asleep]
      apply reaches_scan hawake
      have hheap : u.heap = s.heap.free (s.ourData m).moduleString := by
        rw [freeString_eq (freeable_of_freeString hfree)] at hfree
        rw [← Except.ok.inj hfree]
        rfl
      have hprovides : u.Provides mem arg.allocSize := by
        rw [State.Provides, hheap]
        exact hyields.imp_right fun h => ⟨h.1, h.2 arg rfl⟩
      apply reaches_resume (.scanning c (scan 0 arg.chars) []) (.sets mem junk) hprovides rfl
      let bytes := (List.range arg.allocSize).map junk
      let v := { u with heap := u.heap.alloc mem bytes }.modData m fun d => { d with moduleString := mem }
      change Reaches p ((World.mk u rest).settle p (if mem = 0 then (.done ⟨-ENOMEM, []⟩,
        v.modData m fun d => { d with stringSize := 0 }) else (.asleep (.copying c (scan 0 arg.chars) mem), v))) _
      by_cases hmem : mem = 0
      · rw [if_pos hmem] at hset ⊢
        cases hset
        rw [hawake.settle_done]
        exact .refl p _
      · rw [if_neg hmem] at hset ⊢
        rw [hawake.settle_asleep]
        have hsize : arg.chars.length + 1 ≤ kmallocMax := arg.allocSize_eq ▸ (hprovides.resolve_left hmem).2
        have hlen : (scan 0 arg.chars).toNatClampNeg = arg.chars.length := by
          rw [Int32.toNatClampNeg, toInt_scan hsize, Int.toNat_natCast]
        have hbytes : bytes.length = arg.chars.length + 1 := by
          rw [List.length_map, List.length_range, arg.allocSize_eq]
        have hstring : (v.ourData m).moduleString = mem := by
          rw [modData_ourData, Function.update_self]
        apply reaches_resume (.copying c (scan 0 arg.chars) mem) (.sets mem junk) trivial
          (x := (.done ⟨ret, []⟩, t)) ?_ (by rw [hawake.settle_done]; exact .refl p _)
        change c.copy (.sets mem junk) (scan 0 arg.chars) mem v = _
        by_cases hreadable : arg.readable = false
        · rw [c.copy_unreadable hmem rfl hstring hlen hbytes hreadable]
          rw [if_pos hreadable] at hset
          obtain ⟨heap, hkfree, hdone⟩ := bind_eq_ok.1 hset
          have hcell : v.heap.cells mem = some bytes := by
            rw [show v.heap = u.heap.alloc mem bytes from rfl, Heap.cells_alloc hmem, Function.update_self]
          change kfree mem v.heap = .ok heap at hkfree
          rw [kfree, hcell] at hkfree
          cases hkfree
          cases hdone
          rfl
        · rw [c.copy_readable hmem rfl hstring hlen hbytes hreadable]
          rw [if_neg hreadable, hlen] at hset
          cases hset
          rw [← Heap.modify_alloc hmem bytes (fill c.newString.chars c.newString.chars.length)]
          rfl

/-- The device of the model without sleep is part of this one: a call that returns there is made here by acts of
one process, and leaves the device in the same state. -/
theorem reaches_call (hawake : Awake p rest) {e : Event} {reply : Reply} (henabled : Enabled s e)
    (hfiles : ∀ f, e = .call f .release → ∀ x ∈ rest, x.2.file ≠ f) (hcall : call s e = .ok (reply, t)) :
    Reaches p ⟨s, rest⟩ ⟨t, rest⟩ := by
  have hstart : ∀ {x : Stage × State}, (World.mk s rest).Admits e → start s e = .ok x →
      Reaches p ((World.mk s rest).settle p x) ⟨t, rest⟩ → Reaches p ⟨s, rest⟩ ⟨t, rest⟩ := by
    intro x hadmits hx hreaches
    refine .head (a := .start p e) rfl ⟨⟨hawake.lookup, hadmits⟩, ?_⟩ hreaches
    change (do return (World.mk s rest).settle p (← start s e)) = _
    rw [hx]
    rfl
  have hwhole : (World.mk s rest).Admits e → start s e = whole s e → Reaches p ⟨s, rest⟩ ⟨t, rest⟩ := by
    intro hadmits heq
    apply hstart (x := (.done reply, t)) hadmits
    · rw [heq, whole, hcall]
      rfl
    · rw [hawake.settle_done]
      exact .refl p _
  cases e with
  | opening f m memory => exact hwhole henabled rfl
  | call f c =>
      dsimp only [Enabled] at henabled
      cases hfile : s.file f with
      | none =>
          rw [hfile] at henabled
          exact henabled.elim
      | some file =>
          have hopen : s.file f ≠ none := by
            rw [hfile]
            exact Option.some_ne_none _
          rw [hfile] at henabled
          rw [call_of_file hfile] at hcall
          rw [start_call hfile] at hstart hwhole
          cases c with
          | read buf count stray =>
              dsimp only [Call.run] at hcall
              split at hcall
              · cases hcall
              · rename_i ret fPos copies hread
                cases hcall
                obtain ⟨x, n, hx, rfl, hreaches⟩ := reaches_startRead hawake f true hread
                apply hstart hopen hx
                cases n with
                | none =>
                    change Reaches p _ ⟨s.setPos f file.fPos, rest⟩
                    rw [setPos_self hfile]
                    exact hreaches
                | some n =>
                    change Reaches p _ ⟨s.setPos f (file.fPos + n.toInt64), rest⟩
                    rw [← advance_eq hfile]
                    exact hreaches
          | pread buf count pos stray =>
              dsimp only [Call.run] at hcall
              split at hcall
              · rename_i hneg
                cases hcall
                apply hstart hopen (if_pos hneg)
                rw [hawake.settle_done]
                exact .refl p _
              · rename_i hneg
                split at hcall
                · cases hcall
                · rename_i ret fPos copies hread
                  cases hcall
                  obtain ⟨x, n, hx, -, hreaches⟩ := reaches_startRead hawake f false hread
                  apply hstart hopen ((if_neg hneg).trans hx)
                  cases n with
                  | none => exact hreaches
                  | some n => exact hreaches
          | write count => exact hwhole hopen rfl
          | llseek shift mode => exact hwhole hopen rfl
          | ioctl cmd newString mem junk =>
              by_cases hcmd : cmd = SET_STRING
              · subst hcmd
                obtain ⟨⟨ret, u⟩, hset, hdone⟩ := bind_eq_ok.1 hcall
                cases hdone
                obtain ⟨x, hx, hreaches⟩ := reaches_startSet hawake f henabled hset
                refine hstart hopen (x := x) ?_ hreaches
                rw [Call.start, if_pos rfl, hx]
                rfl
              · exact hwhole hopen (if_neg hcmd)
          | release => exact hwhole ⟨hopen, hfiles f rfl⟩ rfl

end Undisturbed

end MagicKernel.Repeated
