import MagicKernel.RepeatedIsolation

/-! What a failing control leaves behind. A `SET_STRING` without a string and an unknown command change
nothing. A `SET_STRING` that has freed the old string before `kmalloc` or `copy_from_user` fails leaves the
minor without a string, and says so in `string_size`; the sizes, the files and the other minors stay as they
are. -/

namespace MagicKernel.Repeated

open FaultMachine BlockHeap

/-! ### States that a minor cannot tell apart -/

section SameLater

variable {i : Minor} {s t u : State}

/-- What is left of a state when all that concerns the other minors is deleted. -/
def State.only (s : State) (i : Minor) : State where
  ourData := Function.update initModule.ourData i (s.ourData i)
  heap :=
    match s.heap.cells (s.ourData i).moduleString with
    | none => .empty
    | some bytes => Heap.empty.alloc (s.ourData i).moduleString bytes
  file f := (s.file f).filter fun file => file.minor = i

theorem Alike.of_same (h : Alike i s u) (hkept : Kept t) (hdata : t.ourData i = s.ourData i)
    (hcell : t.heap.cells (s.ourData i).moduleString = s.heap.cells (s.ourData i).moduleString)
    (hfile : t.file = s.file) : Alike i t u where
  kept := hkept
  kept' := h.kept'
  data := by rw [h.data, hdata]
  file := by
    rw [hfile]
    exact h.file
  cell := by rw [hdata, h.cell, hcell]
  others := by
    rw [hdata]
    exact h.others

end SameLater

/-! ### Failing controls -/

/-- The minor has no string any more, and nothing else has changed. -/
structure Loses (s t : State) (m : Minor) : Prop where
  file : t.file = s.file
  data : t.ourData = Function.update s.ourData m { s.ourData m with moduleString := 0, stringSize := 0 }
  cells : t.heap.cells = Function.update s.heap.cells (s.ourData m).moduleString none

section Loses

variable {i m : Minor} {s t : State}

end Loses

/-- What a control does when it fails. -/
inductive Failed (s : State) (m : Minor) (cmd : UInt32) (newString : Option UserString) (mem : Addr) :
    Int → State → Prop
  | unknown (hset : cmd ≠ SET_STRING) (hreset : cmd ≠ RESET) : Failed s m cmd newString mem (-ENOTTY) s
  | null (hset : cmd = SET_STRING) (harg : newString = none) : Failed s m cmd newString mem (-EINVAL) s
  | noMemory {t : State} (hset : cmd = SET_STRING) (harg : newString ≠ none) (hmem : mem = 0) (hloses : Loses s t m) :
      Failed s m cmd newString mem (-ENOMEM) t
  | notCopied {t : State} (hset : cmd = SET_STRING) (hmem : mem ≠ 0)
      (hreadable : ∃ arg, newString = some arg ∧ arg.readable = false) (hloses : Loses s t m) :
      Failed s m cmd newString mem (-EBADF) t

section Failed

variable {s t : State} {m : Minor} {cmd : UInt32} {newString : Option UserString} {mem : Addr} {junk : Nat → UInt8}
  {ret : Int}

end Failed

end MagicKernel.Repeated
