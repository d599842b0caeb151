import MagicKernel.RepeatedSizes

/-! The blocks of the strings, from `init_module` to `cleanup_module`. Between two calls a minor has no string,
or a block that holds the argument of its latest `SET_STRING` and a NUL. The calls of `kmalloc` and `kfree`
that the device makes for its strings are logged: at every address they alternate, and after
`cleanup_module` every `kmalloc` has its `kfree`. -/

namespace MagicKernel.Repeated

open FaultMachine BlockHeap

/-! ### The device with a log -/

structure Logged where
  state : State
  log : List Traffic

namespace Logged

def modState (x : Logged) (f : State → State) : Logged := { x with state := f x.state }

def kmalloc (mem : Addr) (bytes : List UInt8) (x : Logged) : Logged where
  state := { x.state with heap := x.state.heap.alloc mem bytes }
  log := if mem = 0 then x.log else x.log ++ [.kmalloc mem]

def kfree (a : Addr) (x : Logged) : Except Fault Logged := do
  let heap ← Repeated.kfree a x.state.heap
  return { state := { x.state with heap := heap }, log := x.log ++ [.kfree a] }

/-- `freeString`, logged. -/
def freeString (m : Minor) (x : Logged) : Except Fault Logged :=
  if (x.state.ourData m).moduleString ≠ 0 then do
    let x ← x.kfree (x.state.ourData m).moduleString
    return x.modState fun s => s.modData m fun d => { d with moduleString := 0 }
  else .ok x

/-- `setString`, logged. -/
def setString (m : Minor) (newString : Option UserString) (mem : Addr) (junk : Nat → UInt8) (x : Logged) :
    Except Fault (Int × Logged) :=
  match newString with
  | none => .ok (-EINVAL, x)
  | some newString => do
    let x ← x.freeString m
    let stringSize := scan 0 newString.chars
    let x := x.kmalloc mem ((List.range newString.allocSize).map junk)
    let x := x.modState fun s => s.modData m fun d => { d with moduleString := mem }
    if mem = 0 then
      return (-ENOMEM, x.modState fun s => s.modData m fun d => { d with stringSize := 0 })
    else if newString.readable = false then
      let x ← x.kfree mem
      return (-EBADF, x.modState fun s => s.modData m fun d => { d with moduleString := 0, stringSize := 0 })
    else
      let x := x.modState fun s =>
        { s with heap := s.heap.modify mem (fill newString.chars stringSize.toNatClampNeg) }
      return (0, x.modState fun s => s.modData m fun d => { d with stringSize := stringSize })

/-- `reset`, logged. -/
def reset (m : Minor) (x : Logged) : Except Fault (Int × Logged) := do
  let x := x.modState fun s => s.modData m fun d => { d with maxSize := 0, stringSize := 0 }
  let x ← x.freeString m
  return (0, x)

/-- `myIoctl`, logged. -/
def myIoctl (m : Minor) (cmd : UInt32) (newString : Option UserString) (mem : Addr) (junk : Nat → UInt8)
    (x : Logged) : Except Fault (Int × Logged) :=
  if cmd = SET_STRING then x.setString m newString mem junk
  else if cmd = RESET then x.reset m
  else .ok (-ENOTTY, x)

/-- A call, logged; only controls allocate and free strings. -/
def call (x : Logged) (e : Event) : Except Fault (Reply × Logged) :=
  match e with
  | .call f (.ioctl cmd newString mem junk) =>
    match x.state.file f with
    | none => .error .notOpen
    | some file => do
      let (ret, x) ← x.myIoctl file.minor cmd newString mem junk
      return (⟨ret, []⟩, x)
  | e => do
    let (r, s) ← Repeated.call x.state e
    return (r, { x with state := s })

def cleanupMinor (m : Minor) (x : Logged) : Except Fault Logged :=
  if (x.state.ourData m).moduleString ≠ 0 then x.kfree (x.state.ourData m).moduleString else .ok x

def cleanupLoop : List Minor → Logged → Except Fault Logged
  | [], x => .ok x
  | m :: ms, x => do cleanupLoop ms (← x.cleanupMinor m)

/-- `cleanupModule`, logged. -/
def cleanupModule (x : Logged) : Except Fault Logged := x.cleanupLoop (List.finRange 256)

/-! ### The log changes nothing -/

/-- A logged result is the other one and its log. -/
def Erases {α : Type} (y : α × Logged) (z : α × State) : Prop := y.1 = z.1 ∧ y.2.state = z.2

variable {x : Logged} {m : Minor}

theorem kfree_erases (a : Addr) (x : Logged) :
    Paired (fun y h => y.state = { x.state with heap := h }) (x.kfree a) (Repeated.kfree a x.state.heap) := by
  unfold Logged.kfree
  cases Repeated.kfree a x.state.heap with
  | ok h => exact .ok rfl
  | error f => exact .error f

theorem freeString_erases (m : Minor) (x : Logged) :
    Paired (fun y s => y.state = s) (x.freeString m) (Repeated.freeString m x.state) := by
  unfold Logged.freeString Repeated.freeString
  split
  · refine (kfree_erases _ x).bind fun y h hy => .ok ?_
    rw [modState, hy]
  · exact .ok rfl

theorem setString_erases (m : Minor) (newString : Option UserString) (mem : Addr) (junk : Nat → UInt8) (x : Logged) :
    Paired Erases (x.setString m newString mem junk) (Repeated.setString m newString mem junk x.state) := by
  cases newString with
  | none => exact .ok ⟨rfl, rfl⟩
  | some arg =>
      unfold Logged.setString Repeated.setString
      dsimp only
      refine (freeString_erases m x).bind fun y s hy => ?_
      subst hy
      split
      · exact .ok ⟨rfl, rfl⟩
      · split
        · refine (kfree_erases mem _).bind fun z h hz => .ok ⟨rfl, ?_⟩
          dsimp only [modState]
          rw [hz]
          rfl
        · exact .ok ⟨rfl, rfl⟩

theorem reset_erases (m : Minor) (x : Logged) : Paired Erases (x.reset m) (Repeated.reset m x.state) := by
  unfold Logged.reset Repeated.reset
  dsimp only
  refine (freeString_erases m _).bind fun y s hy => .ok ⟨rfl, hy⟩

theorem myIoctl_erases (m : Minor) (cmd : UInt32) (newString : Option UserString) (mem : Addr) (junk : Nat → UInt8)
    (x : Logged) :
    Paired Erases (x.myIoctl m cmd newString mem junk) (Repeated.myIoctl m cmd newString mem junk x.state) := by
  unfold Logged.myIoctl Repeated.myIoctl
  split
  · exact setString_erases m newString mem junk x
  · split
    · exact reset_erases m x
    · exact .ok ⟨rfl, rfl⟩

/-- Without its log a logged call is the call. -/
theorem call_erases (x : Logged) (e : Event) : Paired Erases (x.call e) (Repeated.call x.state e) := by
  have hother : ∀ y : Except Fault (Reply × State), Paired Erases
      (do let (r, s) ← y; return (r, { x with state := s })) y := by
    intro y
    cases y with
    | ok z => exact .ok ⟨rfl, rfl⟩
    | error f => exact .error f
  cases e with
  | opening f m memory => exact hother _
  | call f c =>
      cases c with
      | ioctl cmd newString mem junk =>
          unfold Logged.call Repeated.call
          dsimp only
          cases x.state.file f with
          | none => exact .error _
          | some file =>
              refine (myIoctl_erases file.minor cmd newString mem junk x).bind fun y z hy => .ok ?_
              exact ⟨congrArg (fun r : Int => Reply.mk r []) hy.1, hy.2⟩
      | read buf count stray => exact hother _
      | pread buf count pos stray => exact hother _
      | write count => exact hother _
      | llseek shift mode => exact hother _
      | release => exact hother _

theorem cleanupLoop_erases (ms : List Minor) (x : Logged) :
    Paired (fun y s => y.state = s) (x.cleanupLoop ms) (Repeated.cleanupLoop ms x.state) := by
  induction ms generalizing x with
  | nil => exact .ok rfl
  | cons m ms ih =>
      unfold Logged.cleanupLoop Repeated.cleanupLoop
      refine Paired.bind (R := fun y s => y.state = s) ?_ fun y s hy => hy ▸ ih y
      unfold Logged.cleanupMinor Repeated.cleanupMinor
      split
      · have hkfree := kfree_erases (x.state.ourData m).moduleString x
        cases hfree : Repeated.kfree (x.state.ourData m).moduleString x.state.heap with
        | ok h =>
            rw [hfree] at hkfree
            generalize x.kfree (x.state.ourData m).moduleString = y at hkfree
            cases hkfree with
            | ok hy => exact .ok hy
        | error f =>
            rw [hfree] at hkfree
            generalize x.kfree (x.state.ourData m).moduleString = y at hkfree
            cases hkfree with
            | error => exact .error f
      · exact .ok rfl

/-! ### The log alternates -/

/-- At every address the log alternates, and the blocks that are live are those of the heap. -/
def Balanced (x : Logged) : Prop := ∀ a, Alternates a x.log (x.state.heap.cells a).isSome

theorem Balanced.of_cells (h : Balanced x) {y : Logged} (hlog : y.log = x.log)
    (hcells : ∀ a, (y.state.heap.cells a).isSome = (x.state.heap.cells a).isSome) : Balanced y := by
  intro a
  rw [hlog, hcells]
  exact h a

theorem Balanced.kmalloc (h : Balanced x) {mem : Addr} (hfree : x.state.heap.cells mem = none) (bytes : List UInt8) :
    Balanced (x.kmalloc mem bytes) := by
  by_cases hmem : mem = 0
  · refine h.of_cells (if_pos hmem) fun a => ?_
    rw [Logged.kmalloc, Heap.alloc, dif_pos hmem]
  · intro a
    rw [Logged.kmalloc]
    dsimp only
    rw [if_neg hmem, Heap.cells_alloc hmem]
    have ha := h a
    by_cases heq : a = mem
    · subst heq
      rw [hfree] at ha
      rw [Function.update_self]
      exact ha.kmalloc
    · rw [Function.update_of_ne heq]
      exact ha.other (Ne.symm heq)

/-- A `kfree` that does not fault frees a block that is live. -/
theorem Balanced.kfree (h : Balanced x) {a : Addr} {y : Logged} (hfree : x.kfree a = .ok y) : Balanced y := by
  obtain ⟨heap, hheap, heq⟩ := bind_eq_ok.1 hfree
  cases heq
  rw [Repeated.kfree] at hheap
  split at hheap
  · cases hheap
  · rename_i bytes hcell
    cases hheap
    intro b
    have hb := h b
    show Alternates b (x.log ++ [.kfree a]) (Function.update x.state.heap.cells a none b).isSome
    by_cases heq : b = a
    · subst heq
      rw [hcell] at hb
      rw [Function.update_self]
      exact hb.kfree
    · rw [Function.update_of_ne heq]
      exact hb.other (Ne.symm heq)

theorem Balanced.modData (h : Balanced x) (m : Minor) (f : Data → Data) :
    Balanced (x.modState fun s => s.modData m f) :=
  h.of_cells rfl fun _ => rfl

theorem Balanced.modify (h : Balanced x) (a : Addr) (f : List UInt8 → List UInt8) :
    Balanced (x.modState fun s => { s with heap := s.heap.modify a f }) := by
  refine h.of_cells (y := x.modState fun s => { s with heap := s.heap.modify a f }) rfl fun b => ?_
  show (Function.update x.state.heap.cells a _ b).isSome = _
  by_cases hb : b = a
  · rw [hb, Function.update_self, Option.isSome_map]
  · rw [Function.update_of_ne hb]

theorem Balanced.freeString (h : Balanced x) {y : Logged} (hfree : x.freeString m = .ok y) : Balanced y := by
  rw [Logged.freeString] at hfree
  split at hfree
  · obtain ⟨z, hz, heq⟩ := bind_eq_ok.1 hfree
    cases heq
    exact (h.kfree hz).modData m _
  · cases hfree
    exact h

/-- What is left of the heap once the old string is freed. -/
theorem heap_freeString (hkept : Kept x.state) {y : Logged} (hfree : x.freeString m = .ok y) :
    y.state.heap = x.state.heap.free (x.state.ourData m).moduleString := by
  have herases := freeString_erases m x
  rw [hfree, freeString_eq (hkept.freeable m)] at herases
  rw [herases.of_ok rfl rfl]
  rfl

theorem Balanced.setString (h : Balanced x) (hkept : Kept x.state) {newString : Option UserString} {mem : Addr}
    (hyields : x.state.Yields m newString mem) {junk : Nat → UInt8} {r : Int} {y : Logged}
    (hset : x.setString m newString mem junk = .ok (r, y)) : Balanced y := by
  cases newString with
  | none =>
      cases hset
      exact h
  | some arg =>
      unfold Logged.setString at hset
      obtain ⟨z, hz, hset⟩ := bind_eq_ok.1 hset
      have hcell : z.state.heap.cells mem = none := by
        rw [heap_freeString hkept hz]
        rcases hyields with rfl | ⟨hfree, -⟩
        · exact (x.state.heap.free _).null
        · exact hfree
      have hbalanced := ((h.freeString hz).kmalloc hcell ((List.range arg.allocSize).map junk)).modData m
        fun d => { d with moduleString := mem }
      dsimp only at hset
      split at hset
      · cases hset
        exact hbalanced.modData m _
      · split at hset
        · obtain ⟨u, hu, hset⟩ := bind_eq_ok.1 hset
          cases hset
          exact (hbalanced.kfree hu).modData m _
        · cases hset
          exact (hbalanced.modify mem _).modData m _

theorem Balanced.reset (h : Balanced x) {r : Int} {y : Logged} (hreset : x.reset m = .ok (r, y)) : Balanced y := by
  unfold Logged.reset at hreset
  obtain ⟨z, hz, heq⟩ := bind_eq_ok.1 hreset
  cases heq
  exact (h.modData m _).freeString hz

theorem Balanced.myIoctl (h : Balanced x) (hkept : Kept x.state) {cmd : UInt32} {newString : Option UserString}
    {mem : Addr} (hyields : x.state.Yields m newString mem) {junk : Nat → UInt8} {r : Int} {y : Logged}
    (hioctl : x.myIoctl m cmd newString mem junk = .ok (r, y)) : Balanced y := by
  rw [Logged.myIoctl] at hioctl
  split at hioctl
  · exact h.setString hkept hyields hioctl
  · split at hioctl
    · exact h.reset hioctl
    · cases hioctl
      exact h

/-- A call that is no control leaves the blocks alone. -/
theorem Balanced.of_move (h : Balanced x) {e : Event} {reply : Reply} {t : State} (hmove : Move x.state e reply t)
    (hioctl : ∀ f cmd newString mem junk, e ≠ .call f (.ioctl cmd newString mem junk)) :
    Balanced { x with state := t } := by
  have hheap : t.heap = x.state.heap := by
    cases hmove with
    | opening m memory _ => exact (myOpen_frame x.state _ m memory).1
    | read => rfl
    | pread => rfl
    | write => rfl
    | llseek => rfl
    | setString => exact absurd rfl (hioctl _ _ _ _ _)
    | reset => exact absurd rfl (hioctl _ _ _ _ _)
    | unknown => rfl
    | release => rfl
  exact h.of_cells rfl fun a => by rw [hheap]

theorem Balanced.call (h : Balanced x) (hkept : Kept x.state) {e : Event} (henabled : Enabled x.state e) {r : Reply}
    {y : Logged} (hcall : x.call e = .ok (r, y)) : Balanced y := by
  have hother : (∀ f cmd newString mem junk, e ≠ .call f (.ioctl cmd newString mem junk)) →
      (do let (r, s) ← Repeated.call x.state e; return (r, { x with state := s })) = Except.ok (r, y) → Balanced y := by
    intro hioctl hcall
    obtain ⟨⟨reply, t⟩, ht, heq⟩ := bind_eq_ok.1 hcall
    cases heq
    exact h.of_move ((call_moves hkept henabled).of_ok ht) hioctl
  cases e with
  | opening f m memory => exact hother (fun _ _ _ _ _ he => by cases he) hcall
  | call f c =>
      cases c with
      | ioctl cmd newString mem junk =>
          unfold Logged.call at hcall
          unfold Enabled at henabled
          dsimp only at hcall henabled
          cases hfile : x.state.file f with
          | none =>
              rw [hfile] at hcall
              cases hcall
          | some file =>
              rw [hfile] at hcall henabled
              obtain ⟨⟨ret, z⟩, hz, heq⟩ := bind_eq_ok.1 hcall
              cases heq
              exact h.myIoctl hkept henabled hz
      | read buf count stray => exact hother (fun _ _ _ _ _ he => by cases he) hcall
      | pread buf count pos stray => exact hother (fun _ _ _ _ _ he => by cases he) hcall
      | write count => exact hother (fun _ _ _ _ _ he => by cases he) hcall
      | llseek shift mode => exact hother (fun _ _ _ _ _ he => by cases he) hcall
      | release => exact hother (fun _ _ _ _ _ he => by cases he) hcall

end Logged

/-! ### The latest string -/

/-- The minor has no string, or the argument of its latest successful `SET_STRING`. -/
def Represents (m : Minor) (s : State) (b : Book) : Prop :=
  Bare (s.ourData m) ∨ Stores s.heap (s.ourData m) (b.latest m)

section Represents

variable {m : Minor} {s t : State} {b b' : Book}

theorem Represents.of_same (h : Represents m s b) (hheap : t.heap = s.heap)
    (hstring : (t.ourData m).moduleString = (s.ourData m).moduleString)
    (hsize : (t.ourData m).stringSize = (s.ourData m).stringSize) (hlatest : b'.latest m = b.latest m) :
    Represents m t b' := by
  rw [Represents, Bare, hstring, hsize, hheap, hlatest]
  rcases h with hbare | hstores
  · exact Or.inl hbare
  · refine Or.inr ⟨?_, ?_, hstores.noNul⟩
    · rw [hstring]
      exact hstores.cell
    · rw [hsize]
      exact hstores.size

theorem Represents.modData (h : Represents m s b) (m' : Minor) {f : Data → Data}
    (hstring : ∀ d, (f d).moduleString = d.moduleString) (hsize : ∀ d, (f d).stringSize = d.stringSize)
    (hlatest : b'.latest m = b.latest m) : Represents m (s.modData m' f) b' := by
  by_cases hm : m = m'
  · subst hm
    have hdata : (s.modData m f).ourData m = f (s.ourData m) := Function.update_self _ _ _
    exact h.of_same rfl (by rw [hdata, hstring]) (by rw [hdata, hsize]) hlatest
  · have hdata : (s.modData m' f).ourData m = s.ourData m := Function.update_of_ne hm _ _
    exact h.of_same rfl (by rw [hdata]) (by rw [hdata]) hlatest

/-- The string of a minor is replaced or lost. -/
theorem Represents.settle (h : Represents m s b) (hkept : Kept s) {m' : Minor} {d : Data} {c : Option (List UInt8)}
    (hset : Settles s t m' d c) (hself : m = m' → Bare d ∨ Stores t.heap d (b'.latest m))
    (hother : m ≠ m' → b'.latest m = b.latest m ∧
      (d.moduleString ≠ 0 → (s.ourData m).moduleString ≠ d.moduleString)) : Represents m t b' := by
  by_cases hm : m = m'
  · have hdata : t.ourData m = d := by rw [hset.data, hm, Function.update_self]
    rw [Represents, hdata]
    exact hself hm
  · obtain ⟨hlatest, hunused⟩ := hother hm
    have hdata : t.ourData m = s.ourData m := by rw [hset.data, Function.update_of_ne hm]
    rw [Represents, hlatest]
    rcases h with hbare | hstores
    · rw [hdata]
      exact Or.inl hbare
    · exact Or.inr (hset.stores_other hkept hm (fun heq => hunused (heq ▸ hstores.ne_zero) heq) hstores)

theorem Represents.setString (h : Represents m s b) (hkept : Kept s) {f : FileId} {m' : Minor}
    {newString : Option UserString} {mem : Addr} {junk : Nat → UInt8} {r : Int} (hyields : s.Yields m' newString mem)
    (hresult : SetResult s m' newString mem r t) :
    Represents m t (b.enter m' f (.ioctl SET_STRING newString mem junk) ⟨r, []⟩) := by
  cases hresult with
  | null harg =>
      subst harg
      exact h
  | lost harg hr hset =>
      subst harg
      rw [enter_failed hr]
      exact h.settle hkept hset (fun _ => Or.inl ⟨rfl, rfl⟩) fun _ => ⟨rfl, fun hne => absurd rfl hne⟩
  | @stored arg _ harg hmem hsize hset =>
      subst harg
      rw [enter_stored]
      refine h.settle hkept hset (fun hm => Or.inr ?_) fun hm => ⟨Function.update_of_ne hm _ _, fun _ => ?_⟩
      · subst hm
        show Stores t.heap _ (Function.update b.latest m arg.chars m)
        rw [Function.update_self]
        exact hset.stores (toInt_scan hsize) arg.noNul
      · exact hkept.unused hmem (hyields.resolve_left hmem).1 hm

theorem Represents.step (h : Represents m s b) (hkept : Kept s) {e : Event} (hstep : machine.Step s e t) :
    Represents m t (note s e b) := by
  obtain ⟨reply, hcall, hmove⟩ := move_of_step hkept hstep
  cases hmove with
  | @opening f m' memory hfree =>
      have hframe := myOpen_frame s f m' memory
      exact h.of_same hframe.1 (hframe.2 m).1 (hframe.2 m).2.2 rfl
  | read hfile hread =>
      rw [note_call hfile hcall]
      exact h.of_same rfl rfl rfl rfl
  | pread buf count pos stray _ hfile =>
      rw [note_call hfile hcall]
      exact h
  | @write f file count hfile =>
      rw [note_call hfile hcall]
      exact h.modData file.minor (fun _ => rfl) (fun _ => rfl) rfl
  | llseek shift mode hfile =>
      rw [note_call hfile hcall]
      exact h.of_same rfl rfl rfl rfl
  | setString hfile hyields hresult =>
      rw [note_call hfile hcall]
      exact h.setString hkept hyields hresult
  | reset hfile hset =>
      rw [note_call hfile hcall]
      exact h.settle hkept hset (fun _ => Or.inl ⟨rfl, rfl⟩) fun _ => ⟨rfl, fun hne => absurd rfl hne⟩
  | unknown newString mem junk hfile hnotset hnotreset =>
      rw [note_call hfile hcall]
      unfold Book.enter
      dsimp only
      rw [if_neg hnotset, if_neg hnotreset]
      exact h
  | release hfile =>
      rw [note_call hfile hcall]
      exact h.of_same rfl rfl rfl rfl

end Represents

/-! ### No block is lost -/

/-- Every block is the string of a minor. -/
def Owned (s : State) : Prop := ∀ a, s.heap.cells a ≠ none → ∃ m, (s.ourData m).moduleString = a

section Owned

variable {s t : State}

theorem Owned.of_same (h : Owned s) (hheap : t.heap = s.heap)
    (hstring : ∀ m, (t.ourData m).moduleString = (s.ourData m).moduleString) : Owned t := by
  intro a ha
  rw [hheap] at ha
  obtain ⟨m, hm⟩ := h a ha
  exact ⟨m, (hstring m).trans hm⟩

theorem Owned.settle (h : Owned s) {m : Minor} {d : Data} {c : Option (List UInt8)} (hset : Settles s t m d c) :
    Owned t := by
  intro a ha
  rw [hset.cells] at ha
  by_cases hnew : a = d.moduleString
  · refine ⟨m, ?_⟩
    rw [hset.data, Function.update_self, hnew]
  · rw [Function.update_of_ne hnew] at ha
    by_cases hold : a = (s.ourData m).moduleString
    · rw [hold, Function.update_self] at ha
      exact absurd rfl ha
    · rw [Function.update_of_ne hold] at ha
      obtain ⟨m', hm'⟩ := h a ha
      have hne : m' ≠ m := by
        rintro rfl
        exact hold hm'.symm
      refine ⟨m', ?_⟩
      rw [hset.data, Function.update_of_ne hne, hm']

theorem Owned.move (h : Owned s) {e : Event} {reply : Reply} (hmove : Move s e reply t) : Owned t := by
  cases hmove with
  | @opening f m memory _ =>
      have hframe := myOpen_frame s f m memory
      exact h.of_same hframe.1 fun m' => (hframe.2 m').1
  | read => exact h.of_same rfl fun _ => rfl
  | pread => exact h
  | @write f file count _ =>
      refine h.of_same rfl fun m => ?_
      rw [modData_ourData, Function.update_apply]
      split
      · rename_i hm
        rw [hm]
        rfl
      · rfl
  | llseek => exact h.of_same rfl fun _ => rfl
  | setString _ _ hresult =>
      cases hresult with
      | null => exact h
      | lost _ _ hset => exact h.settle hset
      | stored _ _ _ hset => exact h.settle hset
  | reset _ hset => exact h.settle hset
  | unknown => exact h
  | release => exact h.of_same rfl fun _ => rfl

end Owned

/-! ### Unloading -/

section Cleanup

variable {x : Logged}

theorem cleanupMinor_frees {m : Minor} (hfree : (x.state.ourData m).moduleString = 0 ∨
      ∃ bytes, x.state.heap.cells (x.state.ourData m).moduleString = some bytes) (hbalanced : x.Balanced) :
    ∃ y, x.cleanupMinor m = .ok y ∧ y.Balanced ∧
      y.state = { x.state with heap := x.state.heap.free (x.state.ourData m).moduleString } := by
  rw [Logged.cleanupMinor]
  by_cases hnull : (x.state.ourData m).moduleString = 0
  · rw [if_neg (not_not.2 hnull), hnull, Heap.free_zero]
    exact ⟨x, rfl, hbalanced, rfl⟩
  · obtain ⟨bytes, hcell⟩ := hfree.resolve_left hnull
    have hkfree : ∃ y, x.kfree (x.state.ourData m).moduleString = .ok y ∧
        y.state = { x.state with heap := x.state.heap.free (x.state.ourData m).moduleString } := by
      rw [Logged.kfree, kfree, hcell]
      exact ⟨_, rfl, rfl⟩
    obtain ⟨y, hy, hstate⟩ := hkfree
    rw [if_pos hnull]
    exact ⟨y, hy, hbalanced.kfree hy, hstate⟩

/-- The loop frees the strings of the minors that it has left, and no other block. -/
theorem cleanupLoop_frees {ms : List Minor} (hnodup : ms.Nodup) (hbalanced : x.Balanced)
    (hfree : ∀ m ∈ ms, (x.state.ourData m).moduleString = 0 ∨
      ∃ bytes, x.state.heap.cells (x.state.ourData m).moduleString = some bytes)
    (hapart : ∀ m m', (x.state.ourData m).moduleString = (x.state.ourData m').moduleString →
      (x.state.ourData m).moduleString ≠ 0 → m = m') :
    ∃ y, x.cleanupLoop ms = .ok y ∧ y.Balanced ∧ ∀ a, y.state.heap.cells a ≠ none →
      x.state.heap.cells a ≠ none ∧ ∀ m ∈ ms, (x.state.ourData m).moduleString ≠ a := by
  induction ms generalizing x with
  | nil => exact ⟨x, rfl, hbalanced, fun a ha => ⟨ha, fun m hm => absurd hm List.not_mem_nil⟩⟩
  | cons m ms ih =>
      obtain ⟨hnotin, hnodup⟩ := List.nodup_cons.1 hnodup
      obtain ⟨y, hy, hbalanced', hstate⟩ := cleanupMinor_frees (hfree m List.mem_cons_self) hbalanced
      have hdata : y.state.ourData = x.state.ourData := by rw [hstate]
      have hcells : y.state.heap.cells = Function.update x.state.heap.cells (x.state.ourData m).moduleString none := by
        rw [hstate]
        rfl
      have hfree' : ∀ m' ∈ ms, (y.state.ourData m').moduleString = 0 ∨
          ∃ bytes, y.state.heap.cells (y.state.ourData m').moduleString = some bytes := by
        intro m' hm'
        rw [hdata, hcells]
        rcases hfree m' (List.mem_cons_of_mem m hm') with hnull | hcell
        · exact Or.inl hnull
        · by_cases hnull : (x.state.ourData m').moduleString = 0
          · exact Or.inl hnull
          · have hne : (x.state.ourData m').moduleString ≠ (x.state.ourData m).moduleString := by
              intro heq
              exact hnotin (hapart m' m heq hnull ▸ hm')
            rw [Function.update_of_ne hne]
            exact Or.inr hcell
      obtain ⟨z, hz, hbalanced'', hleft⟩ := ih hnodup hbalanced' hfree' (hdata ▸ hapart)
      refine ⟨z, ?_, hbalanced'', fun a ha => ?_⟩
      · rw [Logged.cleanupLoop, hy, ok_bind, hz]
      · obtain ⟨hcell, hothers⟩ := hleft a ha
        rw [hdata] at hothers
        have hne : a ≠ (x.state.ourData m).moduleString := by
          intro heq
          rw [hcells, heq, Function.update_self] at hcell
          exact hcell rfl
        rw [hcells, Function.update_of_ne hne] at hcell
        exact ⟨hcell, List.forall_mem_cons.2 ⟨Ne.symm hne, hothers⟩⟩

/-- `cleanup_module` frees every block. -/
theorem cleanupModule_frees (hkept : Kept x.state) (howned : Owned x.state) (hbalanced : x.Balanced) :
    ∃ y, x.cleanupModule = .ok y ∧ y.Balanced ∧ ∀ a, y.state.heap.cells a = none := by
  obtain ⟨y, hy, hbalanced', hleft⟩ := cleanupLoop_frees (List.nodup_finRange 256) hbalanced
    (fun m _ => hkept.freeable m) hkept.apart
  refine ⟨y, hy, hbalanced', fun a => ?_⟩
  by_contra ha
  obtain ⟨hcell, hothers⟩ := hleft a ha
  obtain ⟨m, hm⟩ := howned a hcell
  exact hothers m (List.mem_finRange m) hm

end Cleanup

/-! ### Runs -/

/-- The log after a call. -/
def ledger (s : State) (e : Event) (log : List Traffic) : List Traffic :=
  match Logged.call ⟨s, log⟩ e with
  | .ok (_, x) => x.log
  | .error _ => log

/-- The device with its history and its log. -/
def loggedMachine : Machine (State × Book × List Traffic) Event Fault :=
  machine.record fun s e x => (note s e x.1, ledger s e x.2)

theorem balanced_step {s t : State} {e : Event} {log : List Traffic} (hkept : Kept s) (hstep : machine.Step s e t)
    (h : Logged.Balanced ⟨s, log⟩) : Logged.Balanced ⟨t, ledger s e log⟩ := by
  obtain ⟨reply, hcall, -⟩ := move_of_step hkept hstep
  have herases := Logged.call_erases ⟨s, log⟩ e
  rw [hcall] at herases
  rw [ledger]
  cases hlogged : Logged.call ⟨s, log⟩ e with
  | error f =>
      rw [hlogged] at herases
      cases herases
  | ok y =>
      rw [hlogged] at herases
      have hstate : y.2.state = t := (herases.of_ok rfl rfl).2
      have hbalanced := h.call hkept hstep.1 hlogged
      subst hstate
      exact hbalanced

structure Accounted (x : State × Book × List Traffic) : Prop where
  kept : Kept x.1
  owned : Owned x.1
  represents : ∀ m, Represents m x.1 x.2.1
  balanced : Logged.Balanced ⟨x.1, x.2.2⟩

theorem accounted_of_reachable {x : State × Book × List Traffic}
    (hreach : loggedMachine.Reachable (· = (initModule, .blank, [])) x) : Accounted x := by
  refine hreach.invariant (I := Accounted) ?_ ?_
  · rintro x rfl
    refine ⟨initModule_kept, fun a ha => absurd rfl ha, fun m => Or.inl ⟨rfl, rfl⟩, fun a => ⟨0, rfl⟩⟩
  · intro x e y _ h hstep
    obtain ⟨hstep, hhistory⟩ := Machine.record_step.1 hstep
    obtain ⟨reply, -, hmove⟩ := move_of_step h.kept hstep
    refine ⟨hmove.kept h.kept, h.owned.move hmove, fun m => ?_, ?_⟩
    · rw [hhistory]
      exact (h.represents m).step h.kept hstep
    · rw [hhistory]
      exact balanced_step h.kept hstep h.balanced

/-- The representation invariant. After every sequence of calls each minor has no string, or the argument of
its latest successful `SET_STRING` in a block of its length and one; no call frees what is not allocated;
and `cleanup_module` then leaves no block, each `kmalloc` of the run having been followed by its `kfree`. -/
theorem strings_accounted {s : State} {b : Book} {log : List Traffic}
    (hreach : loggedMachine.Reachable (· = (initModule, .blank, [])) (s, b, log)) :
    (∀ m, Bare (s.ourData m) ∨ Stores s.heap (s.ourData m) (b.latest m)) ∧
    (∀ e f, machine.enabled s e → machine.step s e = .error f → f = .hang) ∧
    ∃ y, Logged.cleanupModule ⟨s, log⟩ = .ok y ∧ cleanupModule s = .ok y.state ∧
      (∀ a, y.state.heap.cells a = none) ∧
      ∀ a, ∃ n, y.log.filter (fun t => t.addr = a) = (List.replicate n [Traffic.kmalloc a, .kfree a]).flatten := by
  have h := accounted_of_reachable hreach
  obtain ⟨y, hy, hbalanced, hempty⟩ := cleanupModule_frees h.kept h.owned h.balanced
  refine ⟨h.represents, fun e f henabled hstep => ?_, y, hy, ?_, hempty, fun a => ?_⟩
  · have houtcome : Outcome (· = .hang) (fun _ => True) (step s e) :=
      (call_moves h.kept henabled).bind fun _ _ => .ok trivial
    exact houtcome.of_error hstep
  · have herases := Logged.cleanupLoop_erases (List.finRange 256) ⟨s, log⟩
    rw [Logged.cleanupModule] at hy
    rw [hy] at herases
    rw [cleanupModule]
    generalize cleanupLoop (List.finRange 256) s = z at herases
    cases herases with
    | ok hstate => rw [hstate]
  · obtain ⟨n, hn⟩ := hbalanced a
    refine ⟨n, ?_⟩
    rw [hn, hempty]
    exact List.append_nil _

instance (x : State × Book × List Traffic) (e : Event) : Decidable (loggedMachine.enabled x e) :=
  inferInstanceAs (Decidable (machine.enabled x.1 e))

/-- Strings that come and go on two minors, with controls that fail: a null pointer, no memory, a string that
cannot be copied. -/
def churnEvents : List Event :=
  [.opening 0 firstMinor true, .opening 1 secondMinor true,
    .call 0 (.ioctl SET_STRING (some abc) 1 fun _ => 9), .call 0 (.ioctl SET_STRING none 0 fun _ => 9),
    .call 1 (.ioctl SET_STRING (some { abc with readable := false }) 2 fun _ => 9),
    .call 1 (.ioctl SET_STRING (some abc) 2 fun _ => 9), .call 0 (.ioctl SET_STRING (some abc) 0 fun _ => 9),
    .call 0 (.ioctl SET_STRING (some abc) 1 fun _ => 9), .call 0 (.ioctl RESET none 0 fun _ => 9)]

def churn : State × Book × List Traffic := loggedMachine.after (initModule, .blank, []) churnEvents

theorem strings_accounted_churn :
    loggedMachine.Run (initModule, .blank, []) churnEvents churn ∧
      churn.2.2 = [.kmalloc 1, .kmalloc 2, .kfree 2, .kmalloc 2, .kfree 1, .kmalloc 1, .kfree 1] ∧
      ∃ y, Logged.cleanupModule ⟨churn.1, churn.2.2⟩ = .ok y ∧ ∀ a, y.state.heap.cells a = none := by
  have hrun : loggedMachine.Run (initModule, .blank, []) churnEvents churn := Machine.run_after (by decide +kernel)
  have hlog : churn.2.2 = [.kmalloc 1, .kmalloc 2, .kfree 2, .kmalloc 2, .kfree 1, .kmalloc 1, .kfree 1] := by
    decide +kernel
  generalize churn = x at hrun hlog
  obtain ⟨-, -, y, hy, -, hempty, -⟩ := strings_accounted ⟨_, _, rfl, hrun⟩
  exact ⟨hrun, hlog, y, hy, hempty⟩

end MagicKernel.Repeated
