import MagicKernel.RepeatedHistory

/-! The size of a minor and the positions of its files. Writes add to `max_size`, which is an `int`: as long
as the sum fits, it is what has been written since the last `RESET`. The positions stay between 0 and
`max_size` as long as `max_size` does not go below one of them, which a `RESET` or an overflow can do to files
that are open. -/

namespace MagicKernel.Repeated

open FaultMachine BlockHeap MachineInts

/-! ### What changes the size -/

/-- The call writes `count` bytes to `m`. -/
def Writes (m : Minor) (s : State) (e : Event) (count : UInt32) : Prop :=
  ∃ f file, e = .call f (.write count) ∧ s.file f = some file ∧ file.minor = m

/-- The call is a `RESET` of `m`. -/
def Resets (m : Minor) (s : State) (e : Event) : Prop :=
  ∃ f file newString mem junk, e = .call f (.ioctl RESET newString mem junk) ∧ s.file f = some file ∧ file.minor = m

/-- What a call does to the size of `m`, and to the sum of what has been written. -/
inductive Sized (m : Minor) (s : State) (b : Book) (e : Event) (t : State) (b' : Book) : Prop
  | write {count : UInt32} (hwrites : Writes m s e count)
      (hsize : (t.ourData m).maxSize = ((s.ourData m).maxSize.toUInt32 + count).toInt32)
      (htotal : b'.total m = b.total m + count.toNat) : Sized m s b e t b'
  | reset (hresets : Resets m s e) (hsize : (t.ourData m).maxSize = 0) (htotal : b'.total m = 0) : Sized m s b e t b'
  | same (hwrites : ∀ count, ¬Writes m s e count) (hresets : ¬Resets m s e)
      (hsize : (t.ourData m).maxSize = (s.ourData m).maxSize) (htotal : b'.total m = b.total m) : Sized m s b e t b'

section Sized

variable {m : Minor} {s t : State} {b : Book} {e : Event}

theorem not_writes_of_minor {f : FileId} {file : File} {count : UInt32} (hfile : s.file f = some file)
    (hm : m ≠ file.minor) (count' : UInt32) : ¬Writes m s (.call f (.write count)) count' := by
  rintro ⟨f', file', he, hfile', hm'⟩
  cases he
  rw [hfile] at hfile'
  cases hfile'
  exact hm hm'.symm

theorem not_resets_of_minor {f : FileId} {file : File} {cmd : UInt32} {newString : Option UserString} {mem : Addr}
    {junk : Nat → UInt8} (hfile : s.file f = some file) (h : cmd ≠ RESET ∨ m ≠ file.minor) :
    ¬Resets m s (.call f (.ioctl cmd newString mem junk)) := by
  rintro ⟨f', file', newString', mem', junk', he, hfile', hm'⟩
  cases he
  rw [hfile] at hfile'
  cases hfile'
  rcases h with hcmd | hm
  · exact hcmd rfl
  · exact hm hm'.symm

/-- A call that is neither a write nor a control. -/
theorem Sized.of_other {b' : Book} (hwrite : ∀ f count, e ≠ .call f (.write count))
    (hioctl : ∀ f cmd newString mem junk, e ≠ .call f (.ioctl cmd newString mem junk))
    (hsize : (t.ourData m).maxSize = (s.ourData m).maxSize) (htotal : b'.total m = b.total m) :
    Sized m s b e t b' := by
  refine .same ?_ ?_ hsize htotal
  · rintro count ⟨f, file, he, -⟩
    exact hwrite f count he
  · rintro ⟨f, file, newString, mem, junk, he, -⟩
    exact hioctl f RESET newString mem junk he

theorem enter_setString_total (b : Book) (m' m : Minor) (f : FileId) (newString : Option UserString) (mem : Addr)
    (junk : Nat → UInt8) (reply : Reply) :
    (b.enter m' f (.ioctl SET_STRING newString mem junk) reply).total m = b.total m := by
  unfold Book.enter
  dsimp only
  rw [if_pos rfl]
  cases newString with
  | none => rfl
  | some arg =>
      dsimp only
      split <;> rfl

theorem SetResult.maxSize {m' : Minor} {newString : Option UserString} {mem : Addr} {r : Int}
    (hresult : SetResult s m' newString mem r t) : (t.ourData m).maxSize = (s.ourData m).maxSize := by
  have hupdate : ∀ {d : Data} {c : Option (List UInt8)}, Settles s t m' d c →
      d.maxSize = (s.ourData m').maxSize → (t.ourData m).maxSize = (s.ourData m).maxSize := by
    intro d c hset hd
    rw [hset.data]
    by_cases hm : m = m'
    · rw [hm, Function.update_self, hd]
    · rw [Function.update_of_ne hm]
  cases hresult with
  | null harg => rfl
  | lost harg hr hset => exact hupdate hset rfl
  | stored harg hmem hsize hset => exact hupdate hset rfl

theorem sized_of_step (hkept : Kept s) (hstep : machine.Step s e t) : Sized m s b e t (note s e b) := by
  obtain ⟨reply, hcall, hmove⟩ := move_of_step hkept hstep
  cases hmove with
  | opening m' memory hfree =>
      refine .of_other (fun _ _ he => ?_) (fun _ _ _ _ _ he => ?_) ((myOpen_frame s _ m' memory).2 m).2.1 rfl
      · cases he
      · cases he
  | read hfile hread =>
      rw [note_call hfile hcall]
      refine .of_other (fun _ _ he => ?_) (fun _ _ _ _ _ he => ?_) rfl rfl
      · cases he
      · cases he
  | pread buf count pos stray _ hfile =>
      rw [note_call hfile hcall]
      refine .of_other (fun _ _ he => ?_) (fun _ _ _ _ _ he => ?_) rfl rfl
      · cases he
      · cases he
  | @write f file count hfile =>
      rw [note_call hfile hcall]
      by_cases hm : m = file.minor
      · subst hm
        refine .write ⟨f, file, rfl, hfile, rfl⟩ ?_ (Function.update_self _ _ _)
        rw [modData_ourData, Function.update_self]
        rfl
      · refine .same (not_writes_of_minor hfile hm) ?_ ?_ (Function.update_of_ne hm _ _)
        · rintro ⟨f', file', newString, mem, junk, he, -⟩
          cases he
        · rw [modData_ourData, Function.update_of_ne hm]
  | llseek shift mode hfile =>
      rw [note_call hfile hcall]
      refine .of_other (fun _ _ he => ?_) (fun _ _ _ _ _ he => ?_) rfl rfl
      · cases he
      · cases he
  | setString hfile hyields hresult =>
      rw [note_call hfile hcall]
      refine .same ?_ (not_resets_of_minor hfile (Or.inl (by decide))) hresult.maxSize
        (enter_setString_total _ _ _ _ _ _ _ _)
      rintro count ⟨f', file', he, -⟩
      cases he
  | @reset f file newString mem junk _ hfile hset =>
      rw [note_call hfile hcall]
      have hdata := congrFun hset.data m
      by_cases hm : m = file.minor
      · subst hm
        refine .reset ⟨f, file, newString, mem, junk, rfl, hfile, rfl⟩ ?_ (Function.update_self _ _ _)
        rw [hdata, Function.update_self]
      · refine .same ?_ (not_resets_of_minor hfile (Or.inr hm)) ?_ (Function.update_of_ne hm _ _)
        · rintro count ⟨f', file', he, -⟩
          cases he
        · rw [hdata, Function.update_of_ne hm]
  | unknown newString mem junk hfile hset hreset =>
      rw [note_call hfile hcall]
      refine .same ?_ (not_resets_of_minor hfile (Or.inl hreset)) rfl ?_
      · rintro count ⟨f', file', he, -⟩
        cases he
      · unfold Book.enter
        dsimp only
        rw [if_neg hset, if_neg hreset]
  | release hfile =>
      rw [note_call hfile hcall]
      refine .of_other (fun _ _ he => ?_) (fun _ _ _ _ _ he => ?_) rfl rfl
      · cases he
      · cases he

end Sized

/-! ### The sum of the writes -/

/-- The writes to `m` add up to less than 2 ^ 31 since its last `RESET`. -/
def SumFits (m : Minor) (x : State × Book) (e : Event) : Prop :=
  ∀ count, Writes m x.1 e count → x.2.total m + count.toNat < 2 ^ 31

theorem kept_of_history {C : State × Book → Event → Prop} {x : State × Book}
    (hreach : (historyMachine.restrict C).Reachable (· = (initModule, .blank)) x) : Kept x.1 := by
  refine hreach.invariant (I := fun x => Kept x.1) ?_ ?_
  · rintro x rfl
    exact initModule_kept
  · intro x e y _ hkept hstep
    obtain ⟨hstep, -⟩ := Machine.record_step.1 (Machine.restrict_step.1 hstep).2
    obtain ⟨reply, -, hmove⟩ := move_of_step hkept hstep
    exact hmove.kept hkept

/-- A step keeps the account if and only if the sum still fits. -/
theorem total_step {m : Minor} {x y : State × Book} {e : Event} (hkept : Kept x.1)
    (htotal : (x.1.ourData m).maxSize.toInt = x.2.total m) (hstep : historyMachine.Step x e y) :
    (y.1.ourData m).maxSize.toInt = y.2.total m ↔ SumFits m x e := by
  obtain ⟨hstep, hnote⟩ := Machine.record_step.1 hstep
  rw [hnote]
  cases sized_of_step (m := m) (b := x.2) hkept hstep with
  | @write count hwrites hsize hbook =>
      rw [hsize, hbook]
      constructor
      · intro heq count' hwrites'
        obtain ⟨f, file, he, -⟩ := hwrites
        obtain ⟨f', file', he', -⟩ := hwrites'
        rw [he] at he'
        cases he'
        have hlt := ((x.1.ourData m).maxSize.toUInt32 + count).toInt32.toInt_lt
        omega
      · intro hfits
        have hsum := hfits count hwrites
        rw [toInt_add_unsigned (by omega) (by omega), htotal, Int.natCast_add]
  | reset hresets hsize hbook =>
      rw [hsize, hbook]
      obtain ⟨f, file, newString, mem, junk, rfl, -⟩ := hresets
      refine iff_of_true rfl ?_
      rintro count ⟨f', file', he, -⟩
      cases he
  | same hwrites hresets hsize hbook =>
      rw [hsize, hbook]
      exact iff_of_true htotal fun count hw => absurd hw (hwrites count)

/-- Write accounting. In every run in which the sums fit, `max_size` is the sum of the counts written by all
files since the last `RESET`, and it goes down with a `RESET` only. The first write whose sum does not fit
breaks the account. -/
theorem writes_accounted {m : Minor} {x : State × Book}
    (hreach : (historyMachine.restrict (SumFits m)).Reachable (· = (initModule, .blank)) x) :
    (x.1.ourData m).maxSize.toInt = x.2.total m ∧ 0 ≤ (x.1.ourData m).maxSize ∧
    ∀ e y, historyMachine.Step x e y →
      ((y.1.ourData m).maxSize.toInt = y.2.total m ↔ SumFits m x e) ∧
      (SumFits m x e → ¬Resets m x.1 e → (x.1.ourData m).maxSize ≤ (y.1.ourData m).maxSize) := by
  have hkept := kept_of_history hreach
  have htotal : (x.1.ourData m).maxSize.toInt = x.2.total m := by
    refine hreach.invariant (I := fun x => (x.1.ourData m).maxSize.toInt = x.2.total m) ?_ ?_
    · rintro x rfl
      rfl
    · intro x e y hreach htotal hstep
      obtain ⟨hfits, hstep⟩ := Machine.restrict_step.1 hstep
      exact (total_step (kept_of_history hreach) htotal hstep).2 hfits
  refine ⟨htotal, ?_, ?_⟩
  · rw [Int32.le_iff_toInt_le, htotal]
    exact Int.natCast_nonneg _
  · intro e y hstep
    have hiff := total_step hkept htotal hstep
    refine ⟨hiff, fun hfits hresets => ?_⟩
    obtain ⟨hstep', hnote⟩ := Machine.record_step.1 hstep
    rw [Int32.le_iff_toInt_le, htotal, hiff.2 hfits, hnote]
    cases sized_of_step (m := m) (b := x.2) hkept hstep' with
    | write hwrites hsize hbook =>
        rw [hbook]
        omega
    | reset hresets' hsize hbook => exact absurd hresets' hresets
    | same hwrites hresets' hsize hbook => rw [hbook]

instance (m : Minor) (x : State × Book) (e : Event) : Decidable (SumFits m x e) :=
  match e with
  | .call f (.write count) =>
    decidable_of_iff (∀ file ∈ x.1.file f, file.minor = m → x.2.total m + count.toNat < 2 ^ 31)
      ⟨fun h count' hwrites => (by
          obtain ⟨f', file, he, hfile, hm⟩ := hwrites
          cases he
          exact h file hfile hm),
        fun h file hfile hm => h count ⟨f, file, rfl, hfile, hm⟩⟩
  | .opening _ _ _ | .call _ (.read _ _ _) | .call _ (.pread _ _ _ _) | .call _ (.llseek _ _)
  | .call _ (.ioctl _ _ _ _) | .call _ .release =>
    .isTrue fun _ hwrites => (by
      obtain ⟨_, _, he, _⟩ := hwrites
      cases he)

/-- Two files of one minor write; there is a `RESET` in between. -/
def writingEvents : List Event :=
  [.opening 0 firstMinor true, .opening 1 firstMinor true, .call 0 (.write 2147483647),
    .call 1 (.ioctl RESET none 0 fun _ => 0), .call 1 (.write 5), .call 0 (.ioctl SET_STRING (some abc) 1 fun _ => 9),
    .call 1 (.read (some openBuf) 3 fun _ => none), .call 0 (.write 2)]

def written : State × Book := (historyMachine.restrict (SumFits firstMinor)).after (initModule, .blank) writingEvents

theorem writes_accounted_written :
    (historyMachine.restrict (SumFits firstMinor)).Run (initModule, .blank) writingEvents written ∧
      written.2.total firstMinor = 7 ∧ (written.1.ourData firstMinor).maxSize.toInt = 7 := by
  have hrun : (historyMachine.restrict (SumFits firstMinor)).Run (initModule, .blank) writingEvents written :=
    Machine.run_after (by decide +kernel)
  have htotal : written.2.total firstMinor = 7 := by decide +kernel
  refine ⟨hrun, htotal, ?_⟩
  rw [(writes_accounted ⟨_, _, rfl, hrun⟩).1, htotal]
  rfl

/-- Two writes of 2 ^ 30 bytes, both of which report success. -/
def overfullEvents : List Event :=
  [.opening 0 firstMinor true, .call 0 (.write 1073741824), .call 0 (.write 1073741824)]

def overfull : State × Book := historyMachine.after (initModule, .blank) overfullEvents

theorem overfull_not_accounted :
    historyMachine.Run (initModule, .blank) overfullEvents overfull ∧ overfull.2.total firstMinor = 2147483648 ∧
      (overfull.1.ourData firstMinor).maxSize.toInt = -2147483648 ∧ (overfull.1.ourData firstMinor).maxSize < 0 :=
  ⟨Machine.run_after (by decide +kernel), by decide +kernel, by decide +kernel, by decide +kernel⟩

/-! ### The positions -/

/-- Every open file of `m` stands between 0 and `max_size`. -/
def Positioned (m : Minor) (s : State) : Prop :=
  ∀ f file, s.file f = some file → file.minor = m →
    0 ≤ file.fPos.toInt ∧ file.fPos.toInt ≤ (s.ourData m).maxSize.toInt

/-- A `RESET` of `m` finds all its open files at 0; a write to `m` does not overflow, or so far that no open
file is left behind. -/
def KeepsRange (m : Minor) (s : State) (e : Event) : Prop :=
  (Resets m s e → ∀ f file, s.file f = some file → file.minor = m → file.fPos = 0) ∧
  ∀ count, Writes m s e count → (s.ourData m).maxSize.toInt + count.toNat < 2 ^ 31 ∨
    (2 ^ 32 ≤ (s.ourData m).maxSize.toInt + count.toNat ∧ ∀ f file, s.file f = some file → file.minor = m →
      file.fPos.toInt + 2 ^ 32 ≤ (s.ourData m).maxSize.toInt + count.toNat)

section Positioned

variable {m : Minor} {s t : State} {e : Event}

theorem myRead_within {d : Data} {string : Int32 → Option UInt8} {buf : Option UserBuf} {count : UInt32}
    {fPos fPos' : Int64} {ret : Int} {copies : List Copy} (hpos : 0 ≤ fPos.toInt) (hle : fPos.toInt ≤ d.maxSize.toInt)
    (hread : myRead loopBound d string buf count fPos = some (ret, fPos', copies)) :
    0 ≤ fPos'.toInt ∧ fPos'.toInt ≤ d.maxSize.toInt := by
  have hlt := d.maxSize.toInt_lt
  have hw : d.maxSize.toInt = d.maxSize.toInt.toNat := by omega
  have hq : fPos.toInt = fPos.toInt.toNat := by omega
  rcases myRead_cases hread with ⟨hneg, rfl⟩ | ⟨writable, stringPos, bytesRead, hcopies, -, rfl⟩
  · exact ⟨hpos, hle⟩
  · obtain ⟨hge, hmax⟩ := copyLoop_returned 0 stringPos (Int.le_refl 0) hcopies
    have hallowed := toInt_allowed hw hq (by omega)
    have hzero : (0 : Int32).toInt = 0 := rfl
    have hbytes : bytesRead.toInt = bytesRead.toInt.toNat := by omega
    have hsum := toInt_add_bytes hq (by omega) hbytes
    omega

/-- A seek ends between 0 and `max_size`, also when its sum overflows. -/
theorem myLlseek_within {d : Data} (fPos shift : Int64) (hmax : 0 ≤ d.maxSize.toInt) :
    0 ≤ (myLlseek d fPos shift).toInt ∧ (myLlseek d fPos shift).toInt ≤ d.maxSize.toInt := by
  have hend : d.maxSize.toInt64.toInt = d.maxSize.toInt := Int32.toInt_toInt64 _
  have hzero : (0 : Int64).toInt = 0 := rfl
  rw [myLlseek]
  simp only [ge_iff_le, Int64.le_iff_toInt_le, hend, hzero]
  split
  · rw [hend]
    split
    · rw [hzero]
      omega
    · omega
  · split
    · rw [hzero]
      omega
    · omega

theorem setPos_file {f g : FileId} {fPos : Int64} {file' : File} (h : (s.setPos f fPos).file g = some file') :
    s.file g = some file' ∨ (g = f ∧ ∃ file, s.file f = some file ∧ file' = { file with fPos := fPos }) := by
  change Function.update s.file f _ g = some file' at h
  by_cases hg : g = f
  · rw [hg, Function.update_self] at h
    obtain ⟨file, hfile, heq⟩ := Option.map_eq_some_iff.1 h
    exact Or.inr ⟨hg, file, hfile, heq.symm⟩
  · rw [Function.update_of_ne hg] at h
    exact Or.inl h

/-- A file that is not where it was has been moved within the range, and the size has not changed. -/
theorem fPos_step (hkept : Kept s) (hmax : 0 ≤ (s.ourData m).maxSize.toInt) (hpositioned : Positioned m s)
    (hstep : machine.Step s e t) (g : FileId) (file' : File) (hg : t.file g = some file') (hm : file'.minor = m) :
    s.file g = some file' ∨ ((t.ourData m).maxSize = (s.ourData m).maxSize ∧
      0 ≤ file'.fPos.toInt ∧ file'.fPos.toInt ≤ (s.ourData m).maxSize.toInt) := by
  obtain ⟨reply, -, hmove⟩ := move_of_step hkept hstep
  cases hmove with
  | @opening f m' memory hfree =>
      rcases myOpen_file hg with hold | ⟨rfl, rfl⟩
      · exact Or.inl hold
      · exact Or.inr ⟨((myOpen_frame s _ m' memory).2 m).2.1, Int.le_refl 0, hmax⟩
  | read hfile hread =>
      rcases setPos_file hg with hold | ⟨-, file, hfile', rfl⟩
      · exact Or.inl hold
      · rw [hfile] at hfile'
        cases hfile'
        obtain ⟨hpos, hle⟩ := hpositioned _ _ hfile hm
        subst hm
        exact Or.inr ⟨rfl, myRead_within hpos hle hread⟩
  | pread => exact Or.inl hg
  | write count hfile => exact Or.inl hg
  | llseek shift mode hfile =>
      rcases setPos_file hg with hold | ⟨-, file, hfile', rfl⟩
      · exact Or.inl hold
      · rw [hfile] at hfile'
        cases hfile'
        subst hm
        exact Or.inr ⟨rfl, myLlseek_within _ _ hmax⟩
  | setString hfile hyields hresult =>
      have hsame : t.file = s.file := by
        cases hresult with
        | null => rfl
        | lost harg hr hset => exact hset.file
        | stored harg hmem hsize hset => exact hset.file
      rw [hsame] at hg
      exact Or.inl hg
  | reset hfile hset =>
      rw [hset.file] at hg
      exact Or.inl hg
  | unknown => exact Or.inl hg
  | release hfile =>
      change Function.update s.file _ none g = some file' at hg
      rw [Function.update_apply] at hg
      split at hg
      · cases hg
      · exact Or.inl hg

/-- Writes and controls leave the files alone. -/
theorem file_of_writes (hkept : Kept s) (hstep : machine.Step s e t)
    (h : (∃ count, Writes m s e count) ∨ Resets m s e) : t.file = s.file := by
  obtain ⟨reply, -, hmove⟩ := move_of_step hkept hstep
  rcases h with ⟨count, f, file, rfl, -⟩ | ⟨f, file, newString, mem, junk, rfl, -⟩
  · cases hmove with
    | write count hfile => rfl
  · generalize hcmd : RESET = cmd at hmove
    cases hmove with
    | setString => exact absurd hcmd (by decide)
    | reset hfile hset => exact hset.file
    | unknown => rfl

theorem keepsRange_write {count : UInt32} (hwrites : Writes m s e count) :
    KeepsRange m s e ↔ (s.ourData m).maxSize.toInt + count.toNat < 2 ^ 31 ∨
      (2 ^ 32 ≤ (s.ourData m).maxSize.toInt + count.toNat ∧ ∀ f file, s.file f = some file → file.minor = m →
        file.fPos.toInt + 2 ^ 32 ≤ (s.ourData m).maxSize.toInt + count.toNat) := by
  obtain ⟨f, file, rfl, hf, hm⟩ := hwrites
  constructor
  · exact fun h => h.2 count ⟨f, file, rfl, hf, hm⟩
  · refine fun h => ⟨?_, ?_⟩
    · rintro ⟨f', file', newString, mem, junk, he, -⟩
      cases he
    · rintro count' ⟨f', file', he, -⟩
      cases he
      exact h

/-- What a write does to the range of the files, which do not move. -/
theorem positioned_write {count : UInt32} (hmax : 0 ≤ (s.ourData m).maxSize.toInt) (hpositioned : Positioned m s)
    (hwrites : Writes m s e count) (hfile : t.file = s.file)
    (hsize : (t.ourData m).maxSize = ((s.ourData m).maxSize.toUInt32 + count).toInt32) :
    (Positioned m t ↔ KeepsRange m s e) ∧ (KeepsRange m s e → 0 ≤ (t.ourData m).maxSize.toInt) := by
  have hnew := toInt_add_unsigned_eq count hmax
  rw [← hsize] at hnew
  have hlt := (s.ourData m).maxSize.toInt_lt
  have hcount := count.toNat_lt
  -- the sum is stored as it is, or less 2 ^ 32
  have hstored : ((s.ourData m).maxSize.toInt + count.toNat < 2 ^ 31 ∧
      (t.ourData m).maxSize.toInt = (s.ourData m).maxSize.toInt + count.toNat) ∨
      (2 ^ 31 ≤ (s.ourData m).maxSize.toInt + count.toNat ∧
        (t.ourData m).maxSize.toInt = (s.ourData m).maxSize.toInt + count.toNat - 2 ^ 32) := by
    rw [hnew, Int.bmod_def]
    split <;> omega
  rw [keepsRange_write hwrites]
  refine ⟨⟨fun hpos => ?_, fun h f file hf hm => ?_⟩, fun h => ?_⟩
  · rcases hstored with ⟨hsmall, -⟩ | ⟨hlarge, hsum⟩
    · exact Or.inl hsmall
    · obtain ⟨f, file, rfl, hf, hm⟩ := hwrites
      have hsame : ∀ g file', s.file g = some file' → file'.minor = m → file'.fPos.toInt + 2 ^ 32 ≤
          (s.ourData m).maxSize.toInt + count.toNat := by
        intro g file' hg hm'
        have hin := hpos g file' (by rw [hfile]; exact hg) hm'
        omega
      have hself := hsame f file hf hm
      have hnonneg := (hpositioned f file hf hm).1
      exact Or.inr ⟨by omega, hsame⟩
  · rw [hfile] at hf
    have hin := hpositioned f file hf hm
    rcases h with hsmall | ⟨hlarge, hall⟩
    · rcases hstored with ⟨-, hsum⟩ | ⟨hlarge, -⟩ <;> omega
    · have hbound := hall f file hf hm
      rcases hstored with ⟨hsmall, -⟩ | ⟨-, hsum⟩ <;> omega
  · rcases h with hsmall | ⟨hlarge, -⟩ <;> rcases hstored with ⟨h1, hsum⟩ | ⟨h1, hsum⟩ <;> omega

/-- A reset leaves in range only the files at the start. -/
theorem positioned_reset (hresets : Resets m s e) (hfile : t.file = s.file) (hsize : (t.ourData m).maxSize = 0) :
    (Positioned m t ↔ KeepsRange m s e) ∧ (KeepsRange m s e → 0 ≤ (t.ourData m).maxSize.toInt) := by
  have hzero : (t.ourData m).maxSize.toInt = 0 := by
    rw [hsize]
    rfl
  refine ⟨⟨fun hpos => ⟨fun _ f file hf hm => ?_, fun count hwrites => ?_⟩, fun h f file hf hm => ?_⟩,
    fun _ => Int.le_of_eq hzero.symm⟩
  · obtain ⟨hge, hle⟩ := hpos f file (by rw [hfile]; exact hf) hm
    apply Int64.toInt_inj.1
    rw [hzero] at hle
    exact Int.le_antisymm hle hge
  · obtain ⟨f, file, newString, mem, junk, rfl, -⟩ := hresets
    obtain ⟨f', file', he, -⟩ := hwrites
    cases he
  · rw [hfile] at hf
    rw [h.1 hresets f file hf hm, hzero]
    exact ⟨Int.le_refl 0, Int.le_refl 0⟩

/-- A step leaves every file of `m` between 0 and `max_size` if and only if the condition holds. -/
theorem positioned_step (hkept : Kept s) (hmax : 0 ≤ (s.ourData m).maxSize.toInt) (hpositioned : Positioned m s)
    (hstep : machine.Step s e t) :
    (Positioned m t ↔ KeepsRange m s e) ∧ (KeepsRange m s e → 0 ≤ (t.ourData m).maxSize.toInt) := by
  have hmoved := fPos_step hkept hmax hpositioned hstep
  cases sized_of_step (m := m) (b := .blank) hkept hstep with
  | @write count hwrites hsize _ =>
      have hfile := file_of_writes hkept hstep (Or.inl ⟨count, hwrites⟩)
      exact positioned_write hmax hpositioned hwrites hfile hsize
  | reset hresets hsize _ =>
      have hfile := file_of_writes hkept hstep (Or.inr hresets)
      exact positioned_reset hresets hfile hsize
  | same hwrites hresets hsize _ =>
      have hkeeps : KeepsRange m s e := ⟨fun h => absurd h hresets, fun count h => absurd h (hwrites count)⟩
      rw [hsize]
      refine ⟨iff_of_true (fun f file hf hm => ?_) hkeeps, fun _ => hmax⟩
      rw [hsize]
      rcases hmoved f file hf hm with hold | ⟨-, hin⟩
      · exact hpositioned f file hold hm
      · exact hin

end Positioned

/-- The position invariant. In every run whose resets and writes meet the condition, every open file of the
minor stands between 0 and `max_size`, and what a read may deliver to it is what lies between the two; a
step that does not meet the condition breaks the invariant. -/
theorem positions_in_range {m : Minor} {s : State}
    (hreach : (machine.restrict (KeepsRange m)).Reachable (· = initModule) s) :
    Positioned m s ∧
    (∀ f file, s.file f = some file → file.minor = m →
      (allowed (s.ourData m) file.fPos).toInt = (s.ourData m).maxSize.toInt - file.fPos.toInt) ∧
    ∀ e t, machine.Step s e t → (Positioned m t ↔ KeepsRange m s e) := by
  have hinv : 0 ≤ (s.ourData m).maxSize.toInt ∧ Positioned m s := by
    refine hreach.invariant (I := fun s => 0 ≤ (s.ourData m).maxSize.toInt ∧ Positioned m s) ?_ ?_
    · rintro s rfl
      refine ⟨Int.le_refl 0, fun f file hfile => ?_⟩
      cases hfile
    · rintro s e t hreach ⟨hmax, hpositioned⟩ hstep
      obtain ⟨hkeeps, hstep⟩ := Machine.restrict_step.1 hstep
      have hiff := positioned_step (kept_of_reachable hreach.of_restrict) hmax hpositioned hstep
      exact ⟨hiff.2 hkeeps, hiff.1.2 hkeeps⟩
  obtain ⟨hmax, hpositioned⟩ := hinv
  refine ⟨hpositioned, fun f file hfile hm => ?_, fun e t hstep => ?_⟩
  · obtain ⟨hpos, hle⟩ := hpositioned f file hfile hm
    have hlt := (s.ourData m).maxSize.toInt_lt
    have hw : (s.ourData m).maxSize.toInt = (s.ourData m).maxSize.toInt.toNat := by omega
    have hq : file.fPos.toInt = file.fPos.toInt.toNat := by omega
    rw [toInt_allowed hw hq (by omega), ← hw, ← hq]
  · exact (positioned_step (kept_of_reachable hreach.of_restrict) hmax hpositioned hstep).1

/-- Calls that need not look at the files: no `RESET`, and only writes that do not overflow. -/
def Growing (m : Minor) (s : State) : Event → Prop
  | .call _ (.write count) => (s.ourData m).maxSize.toInt + count.toNat < 2 ^ 31
  | .call _ (.ioctl cmd _ _ _) => cmd ≠ RESET
  | _ => True

instance (m : Minor) (s : State) (e : Event) : Decidable (Growing m s e) :=
  match e with
  | .call _ (.write count) => inferInstanceAs (Decidable ((s.ourData m).maxSize.toInt + count.toNat < 2 ^ 31))
  | .call _ (.ioctl cmd _ _ _) => inferInstanceAs (Decidable (cmd ≠ RESET))
  | .opening _ _ _ | .call _ (.read _ _ _) | .call _ (.pread _ _ _ _) | .call _ (.llseek _ _)
  | .call _ .release => .isTrue trivial

theorem Growing.keepsRange {m : Minor} {s : State} {e : Event} (h : Growing m s e) : KeepsRange m s e := by
  constructor
  · rintro ⟨f, file, newString, mem, junk, rfl, -⟩
    exact absurd rfl h
  · rintro count ⟨f, file, rfl, -⟩
    exact Or.inl h

/-- Two files of one minor: the second reads and seeks. -/
def seekingEvents : List Event :=
  [.opening 0 firstMinor true, .opening 1 firstMinor true, .call 0 (.ioctl SET_STRING (some abc) 1 fun _ => 9),
    .call 0 (.write 5), .call 1 (.read (some openBuf) 3 fun _ => none), .call 0 (.llseek 9 0), .call 1 (.write 2)]

def seeking : State := (machine.restrict (Growing firstMinor)).after initModule seekingEvents

theorem positions_in_range_seeking :
    (machine.restrict (KeepsRange firstMinor)).Run initModule seekingEvents seeking ∧
      seeking.file 0 = some ⟨firstMinor, 5⟩ ∧ seeking.file 1 = some ⟨firstMinor, 3⟩ ∧
      Positioned firstMinor seeking := by
  have hgrowing : (machine.restrict (Growing firstMinor)).Run initModule seekingEvents seeking :=
    Machine.run_after (by decide +kernel)
  have hrun := hgrowing.restrict_mono fun s e h => Growing.keepsRange h
  exact ⟨hrun, by decide +kernel, by decide +kernel, (positions_in_range ⟨_, _, rfl, hrun⟩).1⟩

/-- A file that has read is left behind by a `RESET`, and gets nothing of what is then written. -/
def strandedEvents : List Event :=
  [.opening 0 firstMinor true, .call 0 (.ioctl SET_STRING (some abc) 1 fun _ => 9), .call 0 (.write 7),
    .call 0 (.read (some openBuf) 3 fun _ => none), .call 0 (.ioctl RESET none 0 fun _ => 0),
    .call 0 (.ioctl SET_STRING (some abc) 1 fun _ => 9), .call 0 (.write 2)]

def stranded : State := machine.after initModule strandedEvents

theorem stranded_not_positioned :
    machine.Run initModule strandedEvents stranded ∧ ¬Positioned firstMinor stranded ∧
      (stranded.ourData firstMinor).maxSize = 2 ∧
      (call stranded (.call 0 (.read (some openBuf) 2 fun _ => none))).map Prod.fst = .ok ⟨0, []⟩ := by
  have hfile : stranded.file 0 = some ⟨firstMinor, 3⟩ := by decide +kernel
  have hsize : (stranded.ourData firstMinor).maxSize = 2 := by decide +kernel
  refine ⟨Machine.run_after (by decide +kernel), fun hpositioned => ?_, hsize, by decide +kernel⟩
  have hin := hpositioned 0 _ hfile rfl
  rw [hsize] at hin
  exact absurd hin.2 (by decide)

end MagicKernel.Repeated
