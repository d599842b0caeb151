import MagicKernel.RepeatedSizes
import MagicKernel.Unwinding

/-! How far the minors are isolated from one another. The calls use the minor that `my_open` recorded in the
file, and its entry of `OurData` only; no call moves any file but its own. What the files of one minor see of
an interleaving of calls is thus what they see when the calls on all other files are deleted, as long as no
read hangs, and none goes before its string, where the string of another minor may lie. -/

namespace MagicKernel.Repeated

open FaultMachine BlockHeap MachineInts

/-- The minor that a call concerns. -/
def minorOf (s : State) : Event → Option Minor
  | .opening _ m _ => some m
  | .call f _ => (s.file f).map File.minor

abbrev Concerns (i : Minor) (s : State) (e : Event) : Prop := minorOf s e = some i

def fileOf : Event → FileId
  | .opening f _ _ => f
  | .call f _ => f

/-- What the caller gets, if the call returns. -/
def reply (s : State) (e : Event) : Option Reply :=
  match call s e with
  | .ok (r, _) => some r
  | .error _ => none

theorem reply_of_call {s t : State} {e : Event} {r : Reply} (h : call s e = .ok (r, t)) : reply s e = some r := by
  rw [reply, h]

theorem step_of_call {s t : State} {e : Event} {r : Reply} (h : call s e = .ok (r, t)) : step s e = .ok t := by
  rw [step, h]
  rfl

/-! ### A device with one minor -/

/-- `s'` is what is left of `s` without the other minors. -/
structure Alike (i : Minor) (s s' : State) : Prop where
  kept : Kept s
  kept' : Kept s'
  data : s'.ourData i = s.ourData i
  file : ∀ f file, s'.file f = some file ↔ s.file f = some file ∧ file.minor = i
  cell : s'.heap.cells (s.ourData i).moduleString = s.heap.cells (s.ourData i).moduleString
  others : ∀ a, a ≠ (s.ourData i).moduleString → s'.heap.cells a = none

section Alike

variable {i : Minor} {s s' t t' : State} {e : Event}

theorem initModule_alike (i : Minor) : Alike i initModule initModule where
  kept := initModule_kept
  kept' := initModule_kept
  data := rfl
  file f file := by
    constructor
    · intro h
      cases h
    · rintro ⟨h, -⟩
      cases h
  cell := rfl
  others _ _ := rfl

/-- A deleted call on another minor that leaves the blocks alone. -/
theorem Alike.hide (h : Alike i s s') (hkept : Kept t) (hheap : t.heap = s.heap) (hdata : t.ourData i = s.ourData i)
    (hfile : ∀ f file, file.minor = i → (t.file f = some file ↔ s.file f = some file)) : Alike i t s' where
  kept := hkept
  kept' := h.kept'
  data := by rw [hdata, h.data]
  file f file := by
    rw [h.file]
    constructor
    · rintro ⟨hf, hm⟩
      exact ⟨(hfile f file hm).2 hf, hm⟩
    · rintro ⟨hf, hm⟩
      exact ⟨(hfile f file hm).1 hf, hm⟩
  cell := by rw [hdata, hheap, h.cell]
  others := by
    rw [hdata]
    exact h.others

/-- A deleted call that changes the string of another minor. -/
theorem Alike.hide_settles (h : Alike i s s') (hkept : Kept t) {m : Minor} (hm : i ≠ m) {d : Data}
    {c : Option (List UInt8)} (hset : Settles s t m d c)
    (hunused : d.moduleString ≠ 0 → (s.ourData i).moduleString ≠ d.moduleString) : Alike i t s' := by
  have hdata : t.ourData i = s.ourData i := by rw [hset.data, Function.update_of_ne hm]
  have hcell : t.heap.cells (s.ourData i).moduleString = s.heap.cells (s.ourData i).moduleString := by
    by_cases hnull : (s.ourData i).moduleString = 0
    · rw [hnull, t.heap.null, s.heap.null]
    · have hold : (s.ourData i).moduleString ≠ (s.ourData m).moduleString :=
        fun heq => hm (h.kept.apart i m heq hnull)
      have hnew : (s.ourData i).moduleString ≠ d.moduleString := fun heq => hunused (heq ▸ hnull) heq
      rw [hset.cells, Function.update_of_ne hnew, Function.update_of_ne hold]
  refine ⟨hkept, h.kept', by rw [hdata, h.data], ?_, by rw [hdata, hcell, h.cell], ?_⟩
  · rw [hset.file]
    exact h.file
  · rw [hdata]
    exact h.others

theorem Alike.hide_setString (h : Alike i s s') {m : Minor} (hm : i ≠ m) {newString : Option UserString} {mem : Addr}
    {r : Int} (hyields : s.Yields m newString mem) (hresult : SetResult s m newString mem r t) : Alike i t s' := by
  have hkept := hresult.kept h.kept hyields
  cases hresult with
  | null harg => exact h
  | lost harg hr hset => exact h.hide_settles hkept hm hset fun hne => absurd rfl hne
  | stored harg hmem hsize hset =>
      exact h.hide_settles hkept hm hset fun _ => h.kept.unused hmem (hyields.resolve_left hmem).1 hm

theorem setPos_file_of_minor {f : FileId} {file : File} (hfile : s.file f = some file) (hm : file.minor ≠ i)
    (fPos : Int64) (g : FileId) (file' : File) (hm' : file'.minor = i) :
    (s.setPos f fPos).file g = some file' ↔ s.file g = some file' := by
  by_cases hg : g = f
  · subst hg
    constructor
    · intro h
      rcases setPos_file h with hold | ⟨-, file₀, hfile₀, rfl⟩
      · exact hold
      · rw [hfile] at hfile₀
        cases hfile₀
        exact absurd hm' hm
    · intro h
      rw [hfile] at h
      cases h
      exact absurd hm' hm
  · have hother : (s.setPos f fPos).file g = s.file g := Function.update_of_ne hg _ _
    rw [hother]

/-- The relation survives a deleted call. -/
theorem Alike.hidden (h : Alike i s s') (hstep : machine.Step s e t) (hhidden : minorOf s e ≠ some i) :
    Alike i t s' := by
  obtain ⟨r, -, hmove⟩ := move_of_step h.kept hstep
  have hkept := hmove.kept h.kept
  have hminor : ∀ {f : FileId} {c : Call} {file : File}, e = .call f c → s.file f = some file → i ≠ file.minor := by
    rintro f c file rfl hfile rfl
    apply hhidden
    rw [minorOf, hfile]
    rfl
  cases hmove with
  | @opening f m memory hfree =>
      have hm : i ≠ m := fun heq => hhidden (by rw [minorOf, heq])
      refine h.hide hkept (myOpen_frame s f m memory).1 ?_ fun g file hi => ⟨fun hg => ?_, fun hg => ?_⟩
      · unfold myOpen
        dsimp only
        split <;> exact Function.update_of_ne hm _ _
      · rcases myOpen_file hg with hold | ⟨-, rfl⟩
        · exact hold
        · exact absurd hi.symm hm
      · have hgf : g ≠ f := by
          rintro rfl
          rw [hfree] at hg
          cases hg
        unfold myOpen
        dsimp only
        split
        · exact hg
        · exact (Function.update_of_ne hgf _ _).trans hg
  | read hfile hread =>
      exact h.hide hkept rfl rfl (setPos_file_of_minor hfile (hminor rfl hfile).symm _)
  | pread => exact h
  | write count hfile =>
      exact h.hide hkept rfl (Function.update_of_ne (hminor rfl hfile) _ _) fun _ _ _ => Iff.rfl
  | llseek shift mode hfile =>
      exact h.hide hkept rfl rfl (setPos_file_of_minor hfile (hminor rfl hfile).symm _)
  | setString hfile hyields hresult => exact h.hide_setString (hminor rfl hfile) hyields hresult
  | reset hfile hset => exact h.hide_settles hkept (hminor rfl hfile) hset fun hne => absurd rfl hne
  | unknown => exact h
  | @release f file hfile =>
      refine h.hide hkept rfl rfl fun g file' hi => ?_
      show Function.update s.file f none g = some file' ↔ _
      by_cases hg : g = f
      · subst hg
        rw [Function.update_self, hfile]
        constructor
        · intro hnone
          cases hnone
        · intro heq
          cases heq
          exact absurd hi.symm (hminor rfl hfile)
      · rw [Function.update_of_ne hg]

/-! ### The calls that are left -/

theorem Alike.string_eq (h : Alike i s s') (stray : Int32 → Option UInt8) : s'.string i stray = s.string i stray := by
  funext k
  rw [State.string, State.string, h.data, peek, peek, h.cell]

theorem Alike.setPos (h : Alike i s s') {f : FileId} {file : File} (hfile : s.file f = some file)
    (hm : file.minor = i) (fPos : Int64) : Alike i (s.setPos f fPos) (s'.setPos f fPos) where
  kept := h.kept.of_same rfl (fun _ => rfl) fun _ => rfl
  kept' := h.kept'.of_same rfl (fun _ => rfl) fun _ => rfl
  data := h.data
  file g file' := by
    show Function.update s'.file f _ g = some file' ↔ Function.update s.file f _ g = some file' ∧ _
    by_cases hg : g = f
    · rw [hg, Function.update_self, Function.update_self, (h.file f file).2 ⟨hfile, hm⟩, hfile]
      constructor
      · intro heq
        refine ⟨heq, ?_⟩
        cases heq
        exact hm
      · exact fun heq => heq.1
    · rw [Function.update_of_ne hg, Function.update_of_ne hg]
      exact h.file g file'
  cell := h.cell
  others := h.others

theorem Alike.modData (h : Alike i s s') {f : Data → Data} (hstring : ∀ d, (f d).moduleString = d.moduleString)
    (hsize : ∀ d, (f d).stringSize = d.stringSize) : Alike i (s.modData i f) (s'.modData i f) := by
  have hdata : (s.modData i f).ourData i = f (s.ourData i) := Function.update_self _ _ _
  have hdata' : (s'.modData i f).ourData i = f (s'.ourData i) := Function.update_self _ _ _
  refine ⟨h.kept.modData hstring hsize, h.kept'.modData hstring hsize, ?_, h.file, ?_, ?_⟩
  · rw [hdata, hdata', h.data]
  · rw [hdata, hstring]
    exact h.cell
  · rw [hdata, hstring]
    exact h.others

theorem Alike.settles (h : Alike i s s') (hkept : Kept t) (hkept' : Kept t') {d : Data} {c : Option (List UInt8)}
    (hset : Settles s t i d c) (hset' : Settles s' t' i d c) : Alike i t t' := by
  have hdata : t.ourData i = d := by rw [hset.data, Function.update_self]
  refine ⟨hkept, hkept', ?_, ?_, ?_, ?_⟩
  · rw [hdata, hset'.data, Function.update_self]
  · rw [hset.file, hset'.file]
    exact h.file
  · rw [hdata, hset.cells, hset'.cells, Function.update_self, Function.update_self]
  · rw [hdata]
    intro a ha
    rw [hset'.cells, Function.update_of_ne ha, h.data]
    by_cases hold : a = (s.ourData i).moduleString
    · rw [hold, Function.update_self]
    · rw [Function.update_of_ne hold]
      exact h.others a hold

theorem Alike.opening (h : Alike i s s') {f : FileId} (hfree : s.file f = none) (hfree' : s'.file f = none)
    (memory : Bool) : Alike i (myOpen f i memory s).2 (myOpen f i memory s').2 := by
  have hmod := h.modData (f := fun d => if d.flag ≠ 1 then { d with flag := 1 } else d)
    (fun d => by split <;> rfl) (fun d => by split <;> rfl)
  have hkept := (Move.opening i memory hfree).kept h.kept
  have hkept' := (Move.opening i memory hfree').kept h.kept'
  cases memory with
  | false => exact hmod
  | true =>
      refine ⟨hkept, hkept', hmod.data, fun g file => ?_, hmod.cell, hmod.others⟩
      show Function.update s'.file f (some ⟨i, 0⟩) g = some file ↔
        Function.update s.file f (some ⟨i, 0⟩) g = some file ∧ _
      by_cases hg : g = f
      · rw [hg, Function.update_self, Function.update_self]
        constructor
        · intro heq
          refine ⟨heq, ?_⟩
          cases heq
          rfl
        · exact fun heq => heq.1
      · rw [Function.update_of_ne hg, Function.update_of_ne hg]
        exact h.file g file

theorem Alike.release (h : Alike i s s') (f : FileId) : Alike i (myRelease f s).2 (myRelease f s').2 where
  kept := h.kept.of_same rfl (fun _ => rfl) fun _ => rfl
  kept' := h.kept'.of_same rfl (fun _ => rfl) fun _ => rfl
  data := h.data
  file g file := by
    show Function.update s'.file f none g = some file ↔ Function.update s.file f none g = some file ∧ _
    by_cases hg : g = f
    · rw [hg, Function.update_self, Function.update_self]
      constructor
      · intro hnone
        cases hnone
      · rintro ⟨hnone, -⟩
        cases hnone
    · rw [Function.update_of_ne hg, Function.update_of_ne hg]
      exact h.file g file
  cell := h.cell
  others := h.others

/-- What a `SET_STRING` returns is decided by its argument and by `kmalloc`. -/
def setReply (newString : Option UserString) (mem : Addr) : Int :=
  match newString with
  | none => -EINVAL
  | some arg => if mem = 0 then -ENOMEM else if arg.readable = false then -EBADF else 0

theorem setString_ret {m : Minor} {newString : Option UserString} {mem : Addr} {junk : Nat → UInt8} {r : Int}
    (h : setString m newString mem junk s = .ok (r, t)) : r = setReply newString mem := by
  cases newString with
  | none =>
      cases h
      rfl
  | some arg =>
      unfold setString at h
      obtain ⟨s₁, -, h⟩ := bind_eq_ok.1 h
      dsimp only at h
      rw [setReply]
      split at h
      · rename_i hmem
        cases h
        exact (if_pos hmem).symm
      · rename_i hmem
        rw [if_neg hmem]
        split at h
        · rename_i hreadable
          obtain ⟨h₁, -, h⟩ := bind_eq_ok.1 h
          cases h
          exact (if_pos hreadable).symm
        · rename_i hreadable
          cases h
          exact (if_neg hreadable).symm

theorem Alike.setResult (h : Alike i s s') (hkept : Kept t) (hkept' : Kept t') {newString : Option UserString}
    {mem : Addr} {r : Int} (hresult : SetResult s i newString mem r t) (hresult' : SetResult s' i newString mem r t') :
    Alike i t t' := by
  have hlost : ∀ {r : Int}, r = -ENOMEM ∨ r = -EBADF → r ≠ -EINVAL ∧ r ≠ 0 := by
    rintro r (rfl | rfl) <;> decide
  cases hresult with
  | null harg =>
      generalize hr : (-EINVAL) = r at hresult'
      cases hresult' with
      | null _ => exact h
      | lost _ hr' _ => exact absurd hr.symm (hlost hr').1
      | stored harg' => exact absurd hr (by decide)
  | lost harg hr hset =>
      cases hresult' with
      | null _ => exact absurd rfl (hlost hr).1
      | lost _ _ hset' =>
          rw [h.data] at hset'
          exact h.settles hkept hkept' hset hset'
      | stored => exact absurd rfl (hlost hr).2
  | stored harg hmem hsize hset =>
      generalize hr : (0 : Int) = r at hresult'
      cases hresult' with
      | null _ => exact absurd hr (by decide)
      | lost _ hr' _ => exact absurd hr.symm (hlost hr').2
      | stored harg' _ _ hset' =>
          rw [harg] at harg'
          cases harg'
          rw [h.data] at hset'
          exact h.settles hkept hkept' hset hset'

theorem Alike.yields (h : Alike i s s') {newString : Option UserString} {mem : Addr}
    (hyields : s.Yields i newString mem) :
    s'.Yields i newString mem := by
  refine hyields.imp_right fun hmem => ⟨?_, hmem.2⟩
  rw [h.data]
  show Function.update s'.heap.cells (s.ourData i).moduleString none mem = none
  by_cases hold : mem = (s.ourData i).moduleString
  · rw [hold, Function.update_self]
  · rw [Function.update_of_ne hold]
    exact h.others mem hold

theorem Alike.ioctl (h : Alike i s s') {f : FileId} {file : File} (hfile : s.file f = some file) (hm : file.minor = i)
    {cmd : UInt32} {newString : Option UserString} {mem : Addr} {junk : Nat → UInt8}
    (hyields : s.Yields i newString mem) {r : Reply}
    (hcall : call s (.call f (.ioctl cmd newString mem junk)) = .ok (r, t)) :
    ∃ t', call s' (.call f (.ioctl cmd newString mem junk)) = .ok (r, t') ∧ Alike i t t' := by
  have hfile' : s'.file f = some file := (h.file f file).2 ⟨hfile, hm⟩
  subst hm
  have hyields' := h.yields hyields
  obtain ⟨⟨ret, u⟩, hret, hmove⟩ := (myIoctl_moves h.kept hfile cmd junk hyields).exists_ok
  obtain ⟨⟨ret', u'⟩, hret', hmove'⟩ := (myIoctl_moves h.kept' hfile' cmd junk hyields').exists_ok
  have hcall' := call_ioctl hfile' hret'
  cases hcall.symm.trans (call_ioctl hfile hret)
  have hkept := hmove.kept h.kept
  have hkept' := hmove'.kept h.kept'
  have heq : ret' = ret ∧ Alike file.minor t u' := by
    rw [myIoctl] at hret hret'
    dsimp only at hmove hmove'
    split at hret
    · rename_i hcmd
      rw [if_pos hcmd] at hret'
      have hr := (setString_ret hret').trans (setString_ret hret).symm
      refine ⟨hr, ?_⟩
      subst hr
      have hresult := (setString_result h.kept hyields).of_ok hret
      have hresult' := (setString_result h.kept' hyields').of_ok hret'
      exact h.setResult hkept hkept' hresult hresult'
    · rename_i hcmd
      rw [if_neg hcmd] at hret'
      split at hret
      · rename_i hreset
        rw [if_pos hreset] at hret'
        obtain ⟨hr, hset⟩ := (reset_result h.kept).of_ok hret
        obtain ⟨hr', hset'⟩ := (reset_result h.kept').of_ok hret'
        rw [h.data] at hset'
        exact ⟨hr'.trans hr.symm, h.settles hkept hkept' hset hset'⟩
      · rename_i hreset
        rw [if_neg hreset] at hret'
        cases hret
        cases hret'
        exact ⟨rfl, h⟩
  rw [heq.1] at hcall'
  exact ⟨u', hcall', heq.2⟩

theorem Alike.read (h : Alike i s s') {f : FileId} {file : File} (hfile : s.file f = some file) (hm : file.minor = i)
    {buf : Option UserBuf} {count : UInt32} {stray : Int32 → Option UInt8} {r : Reply}
    (hcall : call s (.call f (.read buf count stray)) = .ok (r, t)) :
    ∃ t', call s' (.call f (.read buf count stray)) = .ok (r, t') ∧ Alike i t t' := by
  have hfile' : s'.file f = some file := (h.file f file).2 ⟨hfile, hm⟩
  subst hm
  rw [call_of_file hfile] at hcall
  rw [call_of_file hfile']
  unfold Call.run at hcall ⊢
  dsimp only at hcall ⊢
  rw [h.data, h.string_eq stray]
  split at hcall
  · cases hcall
  · rename_i hread
    cases hcall
    exact ⟨_, rfl, h.setPos hfile rfl _⟩

theorem Alike.pread (h : Alike i s s') {f : FileId} {file : File} (hfile : s.file f = some file) (hm : file.minor = i)
    {buf : Option UserBuf} {count : UInt32} {pos : Int64} {stray : Int32 → Option UInt8} {r : Reply}
    (hcall : call s (.call f (.pread buf count pos stray)) = .ok (r, t)) :
    ∃ t', call s' (.call f (.pread buf count pos stray)) = .ok (r, t') ∧ Alike i t t' := by
  have hfile' : s'.file f = some file := (h.file f file).2 ⟨hfile, hm⟩
  subst hm
  rw [call_of_file hfile] at hcall
  rw [call_of_file hfile']
  unfold Call.run at hcall ⊢
  dsimp only at hcall ⊢
  rw [h.data, h.string_eq stray]
  split at hcall
  · rename_i hneg
    cases hcall
    exact ⟨_, if_pos hneg, h⟩
  · rename_i hneg
    rw [if_neg hneg]
    split at hcall
    · cases hcall
    · cases hcall
      exact ⟨_, rfl, h⟩

/-- A call on the minor can be made in what is left. -/
theorem Alike.enabled (h : Alike i s s') (henabled : Enabled s e) (hvisible : minorOf s e = some i) :
    Enabled s' e := by
  cases e with
  | opening f m memory =>
      have hfree : s.file f = none := henabled
      show s'.file f = none
      by_contra hne
      obtain ⟨file, hfile⟩ := Option.ne_none_iff_exists'.1 hne
      rw [((h.file f file).1 hfile).1] at hfree
      cases hfree
  | call f c =>
      obtain ⟨file, hfile, hm⟩ := Option.map_eq_some_iff.1 hvisible
      have hfile' : s'.file f = some file := (h.file f file).2 ⟨hfile, hm⟩
      subst hm
      rw [Enabled, hfile']
      cases c with
      | ioctl cmd newString mem junk =>
          dsimp only [Enabled] at henabled
          rw [hfile] at henabled
          exact h.yields henabled
      | _ => trivial

/-- A call on the minor does the same to what is left, and replies the same. -/
theorem Alike.shown (h : Alike i s s') (henabled : Enabled s e) {r : Reply} (hcall : call s e = .ok (r, t))
    (hvisible : minorOf s e = some i) :
    minorOf s' e = some i ∧ Enabled s' e ∧ ∃ t', call s' e = .ok (r, t') ∧ Alike i t t' := by
  have henabled' := h.enabled henabled hvisible
  cases e with
  | opening f m memory =>
      cases hvisible
      cases hcall
      refine ⟨rfl, henabled', _, ?_, h.opening henabled henabled' memory⟩
      cases memory <;> rfl
  | call f c =>
      obtain ⟨file, hfile, hm⟩ := Option.map_eq_some_iff.1 hvisible
      have hfile' : s'.file f = some file := (h.file f file).2 ⟨hfile, hm⟩
      have hvisible' : minorOf s' (.call f c) = some i := by
        rw [minorOf, hfile', ← hm]
        rfl
      refine ⟨hvisible', henabled', ?_⟩
      subst hm
      have hdata := h.data
      cases c with
      | read buf count stray => exact h.read hfile rfl hcall
      | pread buf count pos stray => exact h.pread hfile rfl hcall
      | write count =>
          rw [call_of_file hfile] at hcall
          rw [call_of_file hfile']
          cases hcall
          refine ⟨_, ?_, h.modData (fun _ => rfl) fun _ => rfl⟩
          unfold Call.run
          dsimp only
          rw [hdata]
      | llseek shift mode =>
          rw [call_of_file hfile] at hcall
          rw [call_of_file hfile']
          obtain ⟨rfl, rfl⟩ := Prod.mk.inj (Except.ok.inj hcall)
          refine ⟨_, ?_, h.setPos hfile rfl _⟩
          unfold Call.run
          dsimp only
          rw [hdata]
      | ioctl cmd newString mem junk =>
          dsimp only [Enabled] at henabled
          rw [hfile] at henabled
          exact h.ioctl hfile rfl henabled hcall
      | release =>
          rw [call_of_file hfile] at hcall
          rw [call_of_file hfile']
          cases hcall
          exact ⟨_, rfl, h.release f⟩

end Alike

theorem unwinds_alike (i : Minor) : machine.Unwinds (Concerns i) reply (Alike i) where
  hidden s s' e t h hstep hhidden := h.hidden hstep hhidden
  shown s s' e t h hstep hvisible := by
    obtain ⟨r, hcall, -⟩ := move_of_step h.kept hstep
    obtain ⟨hvisible', henabled', t', hcall', halike⟩ := h.shown hstep.1 hcall hvisible
    refine ⟨hvisible', ?_, t', ⟨henabled', step_of_call hcall'⟩, halike⟩
    rw [reply_of_call hcall, reply_of_call hcall']

/-! ### Reads that stay in the string -/

/-- A read that returns, and delivers nothing that lies outside the string. -/
def Heeds (d : Data) (buf : Option UserBuf) (count : UInt32) (fPos : Int64) : Prop :=
  Refused buf ∨
    if fPos.toInt % 2 ^ 32 < 2 ^ 31 then d.stringSize ≠ 0
    -- As an `int` the position is negative: nothing may be copied.
    else count = 0 ∨ (fPos.toInt - d.maxSize.toInt) % 2 ^ 32 ≤ 2 ^ 31 ∨ ∀ b ∈ buf, b.writable 0 = false

instance (d : Data) (buf : Option UserBuf) (count : UInt32) (fPos : Int64) : Decidable (Heeds d buf count fPos) :=
  inferInstanceAs (Decidable (_ ∨ ite _ _ _))

/-- The call is no read, or a read that heeds its string. -/
def Heedful (s : State) : Event → Prop
  | .call f (.read buf count _) => ∀ file ∈ s.file f, Heeds (s.ourData file.minor) buf count file.fPos
  | .call f (.pread buf count pos _) => ∀ file ∈ s.file f, pos < 0 ∨ Heeds (s.ourData file.minor) buf count pos
  | _ => True

instance (s : State) (e : Event) : Decidable (Heedful s e) :=
  match e with
  | .call f (.read buf count _) =>
    inferInstanceAs (Decidable (∀ file ∈ s.file f, Heeds (s.ourData file.minor) buf count file.fPos))
  | .call f (.pread buf count pos _) =>
    inferInstanceAs (Decidable (∀ file ∈ s.file f, pos < 0 ∨ Heeds (s.ourData file.minor) buf count pos))
  | .opening _ _ _ | .call _ (.write _) | .call _ (.llseek _ _) | .call _ (.ioctl _ _ _ _) | .call _ .release =>
    .isTrue trivial

/-- The same call, which may find something else in memory outside its string. -/
inductive SameButStray : Event → Event → Prop
  | same (e : Event) : SameButStray e e
  | read (f : FileId) (buf : Option UserBuf) (count : UInt32) (stray stray' : Int32 → Option UInt8) :
      SameButStray (.call f (.read buf count stray)) (.call f (.read buf count stray'))
  | pread (f : FileId) (buf : Option UserBuf) (count : UInt32) (pos : Int64) (stray stray' : Int32 → Option UInt8) :
      SameButStray (.call f (.pread buf count pos stray)) (.call f (.pread buf count pos stray'))

section Heedful

variable {s t : State} {e e' : Event}

/-- The loop looks at the string only where it has been started. -/
theorem copyLoop_congr {string string' : Int32 → Option UInt8} {stringSize : Int32}
    (hsame : ∀ i : Int32, 0 ≤ i.toInt → i.toInt < stringSize.toInt → string' i = string i) (writable : Nat → Bool)
    (allowedBytes : Int32) (count : UInt32) (fuel : Nat) (bytesRead stringPos : Int32) (hpos : 0 ≤ stringPos.toInt)
    (hlt : stringPos.toInt < stringSize.toInt) :
    copyLoop string' writable stringSize allowedBytes count fuel bytesRead stringPos =
      copyLoop string writable stringSize allowedBytes count fuel bytesRead stringPos := by
  induction fuel generalizing bytesRead stringPos with
  | zero => rfl
  | succ fuel ih =>
      have hnext := toInt_nextPos hpos hlt
      have hsize : 0 < stringSize.toInt := by omega
      rw [copyLoop, copyLoop, hsame stringPos hpos hlt, ih _ _ (by rw [hnext]; exact Int.emod_nonneg _ (by omega))
        (by rw [hnext]; exact Int.emod_lt_of_pos _ hsize)]

/-- From a position that is negative as an `int` the loop starts there, and ends at its first copy at the latest. -/
theorem myRead_before {d : Data} (hsize : 0 ≤ d.stringSize.toInt) {buf : UserBuf} (haccess : buf.accessOk ≠ false)
    {count : UInt32} {fPos : Int64} (hneg : fPos.toInt32.toInt < 0)
    (hnone : count = 0 ∨ (fPos.toInt - d.maxSize.toInt) % 2 ^ 32 ≤ 2 ^ 31 ∨ buf.writable 0 = false) :
    ∃ x, ∀ string, myRead loopBound d string (some buf) count fPos = some x := by
  have hreduce : reduce d.stringSize loopBound fPos.toInt32 = some fPos.toInt32 :=
    reduce_of_lt (Int.lt_of_lt_of_le hneg hsize) _
  by_cases hmore : More (allowed d fPos) count 0
  · obtain ⟨hallowed, hcount⟩ := (more_zero_iff d fPos count).1 hmore
    have hwritable : buf.writable 0 = false := (hnone.resolve_left hcount).resolve_left (Int.not_le.2 hallowed)
    refine ⟨outcome fPos (none, [⟨fPos.toInt32, none⟩]), fun string => ?_⟩
    have hcopy : copyToUser (buf.writable (0 : Int32).toNatClampNeg) (string fPos.toInt32) = none := by
      rw [show (0 : Int32).toNatClampNeg = 0 from rfl, hwritable]
      rfl
    exact (myRead_of_reduce haccess hreduce).trans (congrArg _ (copyLoop_fail hmore hcopy _))
  · refine ⟨outcome fPos (some 0, []), fun string => ?_⟩
    exact (myRead_of_reduce haccess hreduce).trans (congrArg _ (copyLoop_stop hmore _))

/-- From any other position it stays in the string, if there is one. -/
theorem myRead_inside (hkept : Kept s) {m : Minor} (hstring : (s.ourData m).stringSize ≠ 0) {buf : UserBuf}
    (haccess : buf.accessOk ≠ false) {count : UInt32} {fPos : Int64} (hpos : 0 ≤ fPos.toInt32.toInt) :
    ∃ x, ∀ stray, myRead loopBound (s.ourData m) (s.string m stray) (some buf) count fPos = some x := by
  obtain ⟨chars, hstores⟩ := hkept.stores hstring
  have hsize := hkept.size_pos hstring
  obtain ⟨stringPos, hreduce, -, hmod⟩ := reduce_position hsize fPos.toInt32
  have hmod := hmod hpos
  have hends : ∃ x, myRead loopBound (s.ourData m) (s.string m fun _ => none) (some buf) count fPos = some x :=
    myRead_ends (hkept.size_nonneg m) (Or.inr (Or.inl hstring))
  obtain ⟨x, hx⟩ := hends
  refine ⟨x, fun stray => ?_⟩
  rw [myRead_of_reduce haccess hreduce] at hx ⊢
  rw [← hx]
  congr 1
  refine copyLoop_congr (fun i hi hlt => ?_) _ _ _ _ _ _ ?_ ?_
  · rw [State.string, State.string, hstores.peek _ hi hlt, hstores.peek _ hi hlt]
  · rw [hmod]
    exact Int.emod_nonneg _ (by omega)
  · rw [hmod]
    exact Int.emod_lt_of_pos _ hsize

/-- A read that heeds its string returns, and the same whatever lies outside the string. -/
theorem myRead_of_heeds (hkept : Kept s) {m : Minor} {buf : Option UserBuf} {count : UInt32} {fPos : Int64}
    (h : Heeds (s.ourData m) buf count fPos) :
    ∃ x, ∀ stray, myRead loopBound (s.ourData m) (s.string m stray) buf count fPos = some x := by
  by_cases hrefused : Refused buf
  · cases buf with
    | none => exact ⟨_, fun _ => rfl⟩
    | some buf => exact ⟨_, fun _ => if_pos hrefused⟩
  · have h := h.resolve_left hrefused
    cases buf with
    | none => exact absurd trivial hrefused
    | some buf =>
        split at h
        · rename_i hpos
          exact myRead_inside hkept h hrefused ((toInt32_nonneg_iff fPos).2 hpos)
        · rename_i hneg
          obtain ⟨x, hx⟩ := myRead_before (hkept.size_nonneg m) hrefused
            (Int.not_le.1 fun hpos => hneg ((toInt32_nonneg_iff fPos).1 hpos))
            (h.imp_right fun h => h.imp_right fun h => h buf rfl)
          exact ⟨x, fun stray => hx _⟩

/-- What lies outside the string makes no difference to a call that heeds it. -/
theorem call_of_stray (hkept : Kept s) (h : Heedful s e) (hsame : SameButStray e e') : call s e' = call s e := by
  cases hsame with
  | same => rfl
  | read f buf count stray stray' =>
      cases hfile : s.file f with
      | none =>
          unfold call
          dsimp only
          rw [hfile]
      | some file =>
          obtain ⟨x, hx⟩ := myRead_of_heeds hkept (h file hfile)
          rw [call_of_file hfile, call_of_file hfile]
          unfold Call.run
          dsimp only
          rw [hx, hx]
  | pread f buf count pos stray stray' =>
      cases hfile : s.file f with
      | none =>
          unfold call
          dsimp only
          rw [hfile]
      | some file =>
          rw [call_of_file hfile, call_of_file hfile]
          unfold Call.run
          dsimp only
          rcases h file hfile with hneg | hheeds
          · rw [if_pos hneg, if_pos hneg]
          · obtain ⟨x, hx⟩ := myRead_of_heeds hkept hheeds
            rw [hx, hx]

theorem minorOf_of_stray (hsame : SameButStray e e') : minorOf s e' = minorOf s e := by
  cases hsame with
  | same => rfl
  | read => rfl
  | pread => rfl

theorem enabled_of_stray (henabled : Enabled s e) (hsame : SameButStray e e') : Enabled s e' := by
  cases hsame with
  | same => exact henabled
  | read => exact henabled
  | pread => exact henabled

/-- A run of calls that heed their strings is a run, and replies the same, whatever lies outside the strings. -/
theorem run_of_stray {es es' : List Event} (hrun : (machine.restrict Heedful).Run s es t) (hkept : Kept s)
    (hsame : List.Forall₂ SameButStray es es') (i : Minor) :
    machine.Run s es' t ∧ machine.observed (Concerns i) reply s es' = machine.observed (Concerns i) reply s es := by
  induction hrun generalizing es' with
  | nil s =>
      cases hsame
      exact ⟨.nil s, rfl⟩
  | @cons s u t e es hstep hrest ih =>
      cases hsame with
      | @cons _ e' _ es' he hes =>
          obtain ⟨hheedful, hstep⟩ := Machine.restrict_step.1 hstep
          obtain ⟨r, hcall, hmove⟩ := move_of_step hkept hstep
          have hcall' : call s e' = .ok (r, u) := (call_of_stray hkept hheedful he).trans hcall
          have hstep' : machine.Step s e' u := ⟨enabled_of_stray hstep.1 he, step_of_call hcall'⟩
          obtain ⟨hrun', hobserved⟩ := ih (hmove.kept hkept) hes
          refine ⟨.cons hstep' hrun', ?_⟩
          by_cases hvisible : Concerns i s e
          · have hvisible' : Concerns i s e' := (minorOf_of_stray he).trans hvisible
            rw [Machine.observed_of_visible hstep.2 hvisible, Machine.observed_of_visible hstep'.2 hvisible',
              reply_of_call hcall, reply_of_call hcall', hobserved]
          · have hvisible' : ¬Concerns i s e' := fun h => hvisible ((minorOf_of_stray he).symm.trans h)
            rw [Machine.observed_of_hidden hstep.2 hvisible, Machine.observed_of_hidden hstep'.2 hvisible', hobserved]

/-- A call that heeds its string is carried out. -/
theorem step_of_heedful (hkept : Kept s) (henabled : Enabled s e) (h : Heedful s e) : ∃ t, machine.Step s e t := by
  have hreturns : ∃ r t, call s e = .ok (r, t) := by
    cases e with
    | opening f m memory => exact ⟨_, _, rfl⟩
    | call f c =>
        dsimp only [Enabled] at henabled
        cases hfile : s.file f with
        | none =>
            rw [hfile] at henabled
            exact henabled.elim
        | some file =>
            rw [hfile] at henabled
            cases c with
            | read buf count stray =>
                obtain ⟨x, hx⟩ := myRead_of_heeds hkept (h file hfile)
                exact ⟨_, _, call_read hfile (hx stray)⟩
            | pread buf count pos stray =>
                rw [call_of_file hfile]
                unfold Call.run
                dsimp only
                split
                · exact ⟨_, _, rfl⟩
                · rename_i hpos
                  obtain ⟨x, hx⟩ := myRead_of_heeds hkept ((h file hfile).resolve_left hpos)
                  rw [hx]
                  exact ⟨_, _, rfl⟩
            | write count => exact ⟨_, _, call_of_file hfile _⟩
            | llseek shift mode => exact ⟨_, _, call_of_file hfile _⟩
            | ioctl cmd newString mem junk =>
                obtain ⟨x, hx, -⟩ := (myIoctl_moves hkept hfile cmd junk henabled).exists_ok
                exact ⟨_, _, call_ioctl hfile hx⟩
            | release => exact ⟨_, _, call_of_file hfile _⟩
  obtain ⟨r, t, hcall⟩ := hreturns
  exact ⟨t, henabled, step_of_call hcall⟩

theorem Alike.heedful {i : Minor} {s' : State} (halike : Alike i s s') (h : Heedful s e) : Heedful s' e := by
  have hheeds : ∀ {f : FileId} {file : File}, s'.file f = some file →
      s.file f = some file ∧ s'.ourData file.minor = s.ourData file.minor := by
    intro f file hfile
    obtain ⟨hfile, rfl⟩ := (halike.file f file).1 hfile
    exact ⟨hfile, halike.data⟩
  cases e with
  | opening => trivial
  | call f c =>
      cases c with
      | read buf count stray =>
          intro file hfile
          obtain ⟨hfile, hdata⟩ := hheeds hfile
          rw [hdata]
          exact h file hfile
      | pread buf count pos stray =>
          intro file hfile
          obtain ⟨hfile, hdata⟩ := hheeds hfile
          rw [hdata]
          exact h file hfile
      | _ => trivial

end Heedful

/-! ### Isolation -/

theorem file_of_ne {s t : State} {e : Event} (hkept : Kept s) (hstep : machine.Step s e t) {g : FileId}
    (hg : g ≠ fileOf e) : t.file g = s.file g := by
  obtain ⟨r, -, hmove⟩ := move_of_step hkept hstep
  cases hmove with
  | opening m memory hfree =>
      unfold myOpen
      dsimp only
      split
      · rfl
      · exact Function.update_of_ne hg _ _
  | read hfile hread => exact Function.update_of_ne hg _ _
  | pread => rfl
  | write => rfl
  | llseek shift mode hfile => exact Function.update_of_ne hg _ _
  | setString hfile hyields hresult =>
      cases hresult with
      | null => rfl
      | lost _ _ hset => rw [hset.file]
      | stored harg hmem hsize hset => rw [hset.file]
  | reset hfile hset => rw [hset.file]
  | unknown => rfl
  | release hfile => exact Function.update_of_ne hg _ _

/-- Isolation of the minors. Take any run of calls in which every read heeds its string, and delete every call on
the files of the minors other than `i`: what is left is a run, whatever now lies in memory outside the strings,
and the calls on `i` have the same replies in both, bytes delivered included. A call moves no file but its own.
No interleaving is left out: a call that meets the condition is carried out. -/
theorem minor_isolation (i : Minor) {es : List Event} {t : State}
    (hrun : (machine.restrict Heedful).Run initModule es t) :
    (∀ es', List.Forall₂ SameButStray (machine.purge (Concerns i) initModule es) es' →
      ∃ t', machine.Run initModule es' t' ∧
        machine.observed (Concerns i) reply initModule es' = machine.observed (Concerns i) reply initModule es) ∧
    (∀ e u, machine.Step t e u → ∀ g, g ≠ fileOf e → u.file g = t.file g) ∧
    ∀ e, (machine.restrict Heedful).enabled t e → ∃ u, machine.Step t e u := by
  have hkept : Kept t := kept_of_reachable ⟨_, _, rfl, hrun.of_restrict⟩
  have hunwinds := (unwinds_alike i).restrict (C := Heedful) fun s s' e h _ hheedful => h.heedful hheedful
  obtain ⟨t', hrun', -, hobserved⟩ := hunwinds.run hrun (initModule_alike i)
  rw [Machine.purge_restrict] at hrun' hobserved
  rw [Machine.observed_restrict, Machine.observed_restrict] at hobserved
  refine ⟨fun es' hsame => ?_, fun e u hstep g hg => file_of_ne hkept hstep hg, fun e he => ?_⟩
  · obtain ⟨hstray, hreplies⟩ := run_of_stray hrun' initModule_kept hsame i
    exact ⟨t', hstray, hreplies.trans hobserved⟩
  · exact step_of_heedful hkept he.1 he.2

/-- Two minors in turn, with a failed `SET_STRING` and a file number that is used again for the other minor. -/
def mixedEvents : List Event :=
  [.opening 0 firstMinor true, .opening 1 secondMinor true, .call 1 (.ioctl SET_STRING (some aha) 1 fun _ => 9),
    .call 0 (.ioctl SET_STRING (some abc) 2 fun _ => 9), .call 1 (.write 9), .call 0 (.write 4),
    .call 1 (.read (some openBuf) 2 fun _ => none), .call 0 (.read (some openBuf) 2 fun _ => none),
    .call 1 (.ioctl SET_STRING (some { aha with readable := false }) 3 fun _ => 9), .call 1 .release,
    .opening 1 firstMinor true, .call 1 (.read (some openBuf) 9 fun _ => none)]

/-- The second file reads the four bytes of its new minor. -/
theorem minor_isolation_mixed :
    (machine.restrict Heedful).Run initModule mixedEvents ((machine.restrict Heedful).after initModule mixedEvents) ∧
    machine.observed (Concerns firstMinor) reply initModule mixedEvents =
      [some ⟨0, []⟩, some ⟨0, []⟩, some ⟨4, []⟩, some ⟨2, [⟨0, some 65⟩, ⟨1, some 66⟩]⟩, some ⟨0, []⟩,
        some ⟨4, [⟨0, some 65⟩, ⟨1, some 66⟩, ⟨2, some 67⟩, ⟨0, some 65⟩]⟩] ∧
    ∀ es', List.Forall₂ SameButStray (machine.purge (Concerns firstMinor) initModule mixedEvents) es' →
      ∃ t', machine.Run initModule es' t' ∧
        machine.observed (Concerns firstMinor) reply initModule es' =
          machine.observed (Concerns firstMinor) reply initModule mixedEvents := by
  have hrun : (machine.restrict Heedful).Run initModule mixedEvents
      ((machine.restrict Heedful).after initModule mixedEvents) := Machine.run_after (by decide +kernel)
  exact ⟨hrun, by decide +kernel, (minor_isolation firstMinor hrun).1⟩

/-! ### A string next to another one -/

/-- What lies around the string of a minor, if the blocks are 32 bytes apart and the rest of memory is zero. -/
def State.nearby (s : State) (m : Minor) (i : Int32) : Option UInt8 :=
  let a := ((s.ourData m).moduleString + i.toInt).toNat
  match s.heap.cells (a / 32 * 32) with
  | none => some 0
  | some bytes => some (bytes.getD (a % 32) 0)

/-- The string of the second minor comes to lie right before that of the first. -/
def adjoiningEvents : List Event :=
  [.opening 0 firstMinor true, .opening 1 secondMinor true, .call 1 (.ioctl SET_STRING (some aha) 32 fun _ => 9),
    .call 0 (.ioctl SET_STRING (some abc) 64 fun _ => 9), .call 0 (.write 7)]

def adjoining : State := machine.after initModule adjoiningEvents

/-- The same without the calls on the second minor. -/
def solitary : State := machine.after initModule (machine.purge (Concerns firstMinor) initModule adjoiningEvents)

/-- A position of 2 ^ 32 - 32 is -32 as an `int`. -/
def prying (s : State) : Event := .call 0 (.pread (some openBuf) 3 4294967264 (s.nearby firstMinor))

/-- A `pread` of the first minor delivers the string of the second. -/
theorem adjoining_string_read :
    machine.Run initModule adjoiningEvents adjoining ∧
    machine.Run initModule (machine.purge (Concerns firstMinor) initModule adjoiningEvents) solitary ∧
    (call adjoining (prying adjoining)).map Prod.fst =
      .ok ⟨3, [⟨-32, some 65⟩, ⟨-31, some 104⟩, ⟨-30, some 97⟩]⟩ ∧
    (call solitary (prying solitary)).map Prod.fst = .ok ⟨3, [⟨-32, some 0⟩, ⟨-31, some 0⟩, ⟨-30, some 0⟩]⟩ :=
  ⟨Machine.run_after (by decide +kernel), Machine.run_after (by decide +kernel), by decide +kernel,
    by decide +kernel⟩

end MagicKernel.Repeated
