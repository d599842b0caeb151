import MagicKernel.RepeatedModel

/-! The strings of the device: a minor has none, or a block of its own with a string that ends where
`string_size` says. The calls are described by what they do to the data and to the blocks. -/

namespace MagicKernel.Repeated

open FaultMachine BlockHeap

/-! ### The length of a new string -/

theorem scan_eq (i : Int32) (chars : List UInt8) : scan i chars = i + Int32.ofNat chars.length := by
  induction chars generalizing i with
  | nil => exact (Int32.add_zero i).symm
  | cons c chars ih =>
      rw [scan, ih, List.length_cons, Int32.ofNat_add, Int32.add_comm (Int32.ofNat chars.length),
        ← Int32.add_assoc]
      rfl

theorem scan_zero (chars : List UInt8) : scan 0 chars = Int32.ofNat chars.length := by
  rw [scan_eq, Int32.zero_add]

theorem UserString.allocSize_eq (newString : UserString) : newString.allocSize = newString.chars.length + 1 := by
  have hsum : (scan 0 newString.chars + 1).toUInt32 = UInt32.ofNat (newString.chars.length + 1) := by
    rw [scan_zero, UInt32.ofNat_add]
    rfl
  rw [allocSize, hsum, UInt32.toNat_ofNat_of_lt' newString.fits]

/-- The length of a string that a block can hold is an `int`. -/
theorem toInt_scan {chars : List UInt8} (h : chars.length + 1 ≤ kmallocMax) :
    (scan 0 chars).toInt = chars.length := by
  have hlt : chars.length < 2 ^ 31 := by
    unfold kmallocMax at h
    omega
  rw [scan_zero, Int32.toInt_ofNat_of_lt hlt]

theorem fill_eq {chars bytes : List UInt8} (h : bytes.length = chars.length + 1) :
    fill chars chars.length bytes = chars ++ [0] := by
  obtain ⟨c, hc⟩ : ∃ c, bytes.drop chars.length = [c] :=
    List.length_eq_one_iff.1 (by rw [List.length_drop]; omega)
  rw [fill, hc, List.take_length, List.set_append_right _ _ (Nat.le_refl _), Nat.sub_self]
  rfl

/-! ### The string of a minor -/

/-- The minor has no string. -/
def Bare (d : Data) : Prop := d.moduleString = 0 ∧ d.stringSize = 0

/-- The string of the minor is `chars`, in a block with a NUL after them. -/
structure Stores (h : Heap (List UInt8)) (d : Data) (chars : List UInt8) : Prop where
  cell : h.cells d.moduleString = some (chars ++ [0])
  size : d.stringSize.toInt = chars.length
  noNul : 0 ∉ chars

/-- Every minor has no string or one in a block of its own. -/
structure Kept (s : State) : Prop where
  string : ∀ m, Bare (s.ourData m) ∨ ∃ chars, Stores s.heap (s.ourData m) chars
  apart : ∀ m m', (s.ourData m).moduleString = (s.ourData m').moduleString →
    (s.ourData m).moduleString ≠ 0 → m = m'

section Kept

variable {s t : State} {m : Minor}

theorem Stores.ne_zero {h : Heap (List UInt8)} {d : Data} {chars : List UInt8} (hstores : Stores h d chars) :
    d.moduleString ≠ 0 := by
  intro hzero
  have hcell := hstores.cell
  rw [hzero, h.null] at hcell
  cases hcell

theorem Kept.stores (hkept : Kept s) (hsize : (s.ourData m).stringSize ≠ 0) :
    ∃ chars, Stores s.heap (s.ourData m) chars := by
  rcases hkept.string m with hbare | hstores
  · exact absurd hbare.2 hsize
  · exact hstores

theorem Kept.size_nonneg (hkept : Kept s) (m : Minor) : 0 ≤ (s.ourData m).stringSize.toInt := by
  rcases hkept.string m with hbare | ⟨chars, hstores⟩
  · rw [hbare.2]
    exact Int.le_refl 0
  · rw [hstores.size]
    exact Int.natCast_nonneg _

theorem Kept.size_pos (hkept : Kept s) (hsize : (s.ourData m).stringSize ≠ 0) :
    0 < (s.ourData m).stringSize.toInt := by
  have hne : (s.ourData m).stringSize.toInt ≠ 0 := fun heq => hsize (Int32.toInt_inj.1 heq)
  have hnonneg := hkept.size_nonneg m
  omega

/-- A call that leaves the blocks and the strings of the minors as they are. -/
theorem Kept.of_same (hkept : Kept s) (hheap : t.heap = s.heap)
    (hstring : ∀ m, (t.ourData m).moduleString = (s.ourData m).moduleString)
    (hsize : ∀ m, (t.ourData m).stringSize = (s.ourData m).stringSize) : Kept t where
  string m := by
    rw [Bare, hstring, hsize, hheap]
    rcases hkept.string m with hbare | ⟨chars, hstores⟩
    · exact Or.inl hbare
    · refine Or.inr ⟨chars, ?_, ?_, hstores.noNul⟩
      · rw [hstring]
        exact hstores.cell
      · rw [hsize]
        exact hstores.size
  apart m m' := by
    rw [hstring, hstring]
    exact hkept.apart m m'

theorem modData_field {α : Type} (s : State) (m : Minor) {f : Data → Data} (g : Data → α) (hg : ∀ d, g (f d) = g d)
    (m' : Minor) : g ((s.modData m f).ourData m') = g (s.ourData m') := by
  by_cases hm : m' = m
  · rw [hm]
    exact (congrArg g (Function.update_self _ _ _)).trans (hg _)
  · exact congrArg g (Function.update_of_ne hm _ _)

theorem Kept.modData (hkept : Kept s) {f : Data → Data} (hstring : ∀ d, (f d).moduleString = d.moduleString)
    (hsize : ∀ d, (f d).stringSize = d.stringSize) : Kept (s.modData m f) :=
  hkept.of_same rfl (modData_field s m _ hstring) (modData_field s m _ hsize)

/-- The strings of the minors stay apart when `m` gets one that no other has. -/
theorem apart_change {strings strings' : Minor → Addr}
    (hapart : ∀ m m', strings m = strings m' → strings m ≠ 0 → m = m') (hsame : ∀ m' ≠ m, strings' m' = strings m')
    (hother : strings' m ≠ 0 → ∀ m' ≠ m, strings m' ≠ strings' m) (m₁ m₂ : Minor)
    (heq : strings' m₁ = strings' m₂)
    (hne : strings' m₁ ≠ 0) : m₁ = m₂ := by
  by_cases h₁ : m₁ = m
  · subst h₁
    by_contra h₂
    rw [hsame m₂ (Ne.symm h₂)] at heq
    exact hother hne m₂ (Ne.symm h₂) heq.symm
  · rw [hsame m₁ h₁] at heq hne
    by_cases h₂ : m₂ = m
    · rw [h₂] at heq
      exact absurd heq (hother (heq ▸ hne) m₁ h₁)
    · rw [hsame m₂ h₂] at heq
      exact hapart m₁ m₂ heq hne

/-- The old string of `m` is freed, its data become `d`, and the block that these point to holds `c`. -/
structure Settles (s t : State) (m : Minor) (d : Data) (c : Option (List UInt8)) : Prop where
  file : t.file = s.file
  data : t.ourData = Function.update s.ourData m d
  cells : t.heap.cells =
    Function.update (Function.update s.heap.cells (s.ourData m).moduleString none) d.moduleString c

/-- The address is not that of another minor's string. -/
theorem Kept.unused (hkept : Kept s) {mem : Addr} (hmem : mem ≠ 0)
    (hfree : (s.heap.free (s.ourData m).moduleString).cells mem = none) {m' : Minor} (hne : m' ≠ m) :
    (s.ourData m').moduleString ≠ mem := by
  rintro rfl
  rcases hkept.string m' with hbare | ⟨chars, hstores⟩
  · exact hmem hbare.1
  · have hother : (s.ourData m').moduleString ≠ (s.ourData m).moduleString :=
      fun heq => hne (hkept.apart m' m heq hmem)
    have hcell : (s.heap.free (s.ourData m).moduleString).cells (s.ourData m').moduleString =
        some (chars ++ [0]) := (Function.update_of_ne hother _ _).trans hstores.cell
    rw [hfree] at hcell
    cases hcell

/-- The other minors keep their strings. -/
theorem Settles.stores_other {d : Data} {c : Option (List UInt8)} (hset : Settles s t m d c) (hkept : Kept s)
    {m' : Minor} (hne : m' ≠ m) (hother : (s.ourData m').moduleString ≠ d.moduleString) {chars : List UInt8}
    (hstores : Stores s.heap (s.ourData m') chars) : Stores t.heap (t.ourData m') chars := by
  have hold : (s.ourData m').moduleString ≠ (s.ourData m).moduleString :=
    fun heq => hne (hkept.apart m' m heq hstores.ne_zero)
  rw [hset.data, Function.update_of_ne hne]
  refine ⟨?_, hstores.size, hstores.noNul⟩
  rw [hset.cells, Function.update_of_ne hother, Function.update_of_ne hold]
  exact hstores.cell

/-- The minor itself gets the string that the block holds. -/
theorem Settles.stores {d : Data} {chars : List UInt8} (hset : Settles s t m d (some (chars ++ [0])))
    (hsize : d.stringSize.toInt = chars.length) (hnul : 0 ∉ chars) : Stores t.heap d chars := by
  refine ⟨?_, hsize, hnul⟩
  rw [hset.cells, Function.update_self]

theorem Settles.kept {d : Data} {c : Option (List UInt8)} (hset : Settles s t m d c) (hkept : Kept s)
    (hother : d.moduleString ≠ 0 → ∀ m' ≠ m, (s.ourData m').moduleString ≠ d.moduleString)
    (hstring : Bare d ∨ ∃ chars, Stores t.heap d chars) : Kept t := by
  refine ⟨fun m' => ?_, fun m₁ m₂ heq hne => ?_⟩
  · by_cases hm : m' = m
    · rw [hm, hset.data, Function.update_self]
      exact hstring
    · rcases hkept.string m' with hbare | ⟨chars, hstores⟩
      · rw [hset.data, Function.update_of_ne hm]
        exact Or.inl hbare
      · refine Or.inr ⟨chars, hset.stores_other hkept hm (fun heq => ?_) hstores⟩
        exact hother (heq ▸ hstores.ne_zero) m' hm heq
  · have hsame : ∀ m' ≠ m, (t.ourData m').moduleString = (s.ourData m').moduleString := by
      intro m' hm
      rw [hset.data, Function.update_of_ne hm]
    have hself : t.ourData m = d := by rw [hset.data, Function.update_self]
    exact apart_change hkept.apart hsame (fun hne m' hm => by rw [hself] at hne ⊢; exact hother hne m' hm) m₁ m₂ heq hne

theorem Kept.freeable (hkept : Kept s) (m : Minor) :
    (s.ourData m).moduleString = 0 ∨ ∃ bytes, s.heap.cells (s.ourData m).moduleString = some bytes := by
  rcases hkept.string m with hbare | ⟨chars, hstores⟩
  · exact Or.inl hbare.1
  · exact Or.inr ⟨_, hstores.cell⟩

end Kept

/-! ### The controls -/

section Controls

variable {s t : State} {m : Minor}

theorem modData_ourData (s : State) (m : Minor) (f : Data → Data) :
    (s.modData m f).ourData = Function.update s.ourData m (f (s.ourData m)) := rfl

theorem modData_of_eq {f : Data → Data} (h : f (s.ourData m) = s.ourData m) : s.modData m f = s := by
  rw [State.modData, h, Function.update_eq_self]

theorem modData_modData (s : State) (m : Minor) (f g : Data → Data) :
    (s.modData m f).modData m g = s.modData m fun d => g (f d) := by
  simp only [State.modData, Function.update_self, Function.update_idem]

/-- The freed block is no block if there was none. -/
theorem freeString_eq (hfree : (s.ourData m).moduleString = 0 ∨
      ∃ bytes, s.heap.cells (s.ourData m).moduleString = some bytes) :
    freeString m s = .ok ({ s with heap := s.heap.free (s.ourData m).moduleString }.modData m
      fun d => { d with moduleString := 0 }) := by
  unfold freeString
  by_cases hnull : (s.ourData m).moduleString = 0
  · have hdata : { s.ourData m with moduleString := 0 } = s.ourData m := by rw [← hnull]
    rw [if_neg (not_not.2 hnull), hnull, Heap.free_zero]
    exact congrArg Except.ok (modData_of_eq (f := fun d => { d with moduleString := 0 }) hdata).symm
  · obtain ⟨bytes, hcell⟩ := hfree.resolve_left hnull
    rw [if_pos hnull, kfree, hcell]
    rfl

/-- How a `SET_STRING` may end. -/
inductive SetResult (s : State) (m : Minor) (newString : Option UserString) (mem : Addr) : Int → State → Prop
  | null (harg : newString = none) : SetResult s m newString mem (-EINVAL) s
  | lost {arg : UserString} {r : Int} {t : State} (harg : newString = some arg) (hr : r = -ENOMEM ∨ r = -EBADF)
      (hset : Settles s t m { s.ourData m with moduleString := 0, stringSize := 0 } none) :
      SetResult s m newString mem r t
  | stored {arg : UserString} {t : State} (harg : newString = some arg) (hmem : mem ≠ 0)
      (hsize : arg.chars.length + 1 ≤ kmallocMax)
      (hset : Settles s t m { s.ourData m with moduleString := mem, stringSize := scan 0 arg.chars }
        (some (arg.chars ++ [0]))) :
      SetResult s m newString mem 0 t

theorem setString_result (hkept : Kept s) {newString : Option UserString} {mem : Addr} {junk : Nat → UInt8}
    (hyields : s.Yields m newString mem) :
    Outcome (fun _ => False) (fun x => SetResult s m newString mem x.1 x.2)
      (setString m newString mem junk s) := by
  cases newString with
  | none => exact .ok (.null rfl)
  | some arg =>
      unfold setString
      dsimp only
      rw [freeString_eq (hkept.freeable m), ok_bind]
      -- What is left of the heap once the old string is freed.
      let h := s.heap.free (s.ourData m).moduleString
      have hnull : Function.update h.cells 0 none = h.cells := Heap.update_none h.null
      by_cases hmem : mem = 0
      · subst hmem
        rw [if_pos rfl]
        refine .ok (.lost rfl (Or.inl rfl) ⟨rfl, ?_, hnull.symm⟩)
        simp only [modData_ourData, Function.update_self, Function.update_idem]
      · obtain ⟨hfree, hsize⟩ := hyields.resolve_left hmem
        replace hsize : arg.chars.length + 1 ≤ kmallocMax := arg.allocSize_eq ▸ hsize arg rfl
        have hlen : (scan 0 arg.chars).toNatClampNeg = arg.chars.length := by
          rw [Int32.toNatClampNeg, toInt_scan hsize, Int.toNat_natCast]
        rw [if_neg hmem]
        split
        · have hcell : (h.alloc mem ((List.range arg.allocSize).map junk)).cells mem ≠ none := by
            rw [Heap.cells_alloc hmem, Function.update_self]
            exact Option.some_ne_none _
          obtain ⟨bytes, hbytes⟩ := Option.ne_none_iff_exists'.1 hcell
          have hkfree : kfree mem (h.alloc mem ((List.range arg.allocSize).map junk)) =
              .ok ((h.alloc mem ((List.range arg.allocSize).map junk)).free mem) := by rw [kfree, hbytes]
          refine Outcome.bind (Q := fun x => x.cells = h.cells) ?_ fun x hx => ?_
          · exact hkfree ▸ .ok (Heap.cells_free_alloc hmem hfree _)
          · refine .ok (.lost rfl (Or.inr rfl) ⟨rfl, ?_, hx.trans hnull.symm⟩)
            simp only [modData_ourData, Function.update_self, Function.update_idem]
        · refine .ok (.stored rfl hmem hsize ⟨rfl, ?_, ?_⟩)
          · simp only [modData_ourData, Function.update_self, Function.update_idem]
          · have hfill : fill arg.chars arg.chars.length ((List.range arg.allocSize).map junk) =
                arg.chars ++ [0] := fill_eq (by rw [List.length_map, List.length_range, arg.allocSize_eq])
            show ((h.alloc mem _).modify mem _).cells = Function.update h.cells mem _
            rw [Heap.modify_alloc hmem, Heap.cells_alloc hmem, hlen, hfill]

theorem reset_eq (hfree : (s.ourData m).moduleString = 0 ∨
      ∃ bytes, s.heap.cells (s.ourData m).moduleString = some bytes) :
    reset m s = .ok (0, { s with heap := s.heap.free (s.ourData m).moduleString }.modData m
      fun d => { d with moduleString := 0, maxSize := 0, stringSize := 0 }) := by
  have hstring : ((s.modData m fun d => { d with maxSize := 0, stringSize := 0 }).ourData m).moduleString =
      (s.ourData m).moduleString := by
    rw [modData_ourData, Function.update_self]
  unfold reset
  dsimp only
  rw [freeString_eq (by rw [hstring]; exact hfree), ok_bind, hstring]
  exact congrArg (fun t => Except.ok (0, t))
    (modData_modData { s with heap := s.heap.free (s.ourData m).moduleString } m
    (fun d => { d with maxSize := 0, stringSize := 0 }) fun d => { d with moduleString := 0 })

theorem reset_result (hkept : Kept s) : Outcome (fun _ => False)
    (fun x => x.1 = 0 ∧ Settles s x.2 m { s.ourData m with moduleString := 0, maxSize := 0, stringSize := 0 } none)
    (reset m s) := by
  rw [reset_eq (hkept.freeable m)]
  exact .ok ⟨rfl, rfl, rfl, (Heap.update_none (s.heap.free (s.ourData m).moduleString).null).symm⟩

end Controls

/-! ### All calls -/

/-- What a call replies and does, if it returns. -/
inductive Move (s : State) : Event → Reply → State → Prop
  | opening {f : FileId} (m : Minor) (memory : Bool) (hfree : s.file f = none) :
      Move s (.opening f m memory) ⟨(myOpen f m memory s).1, []⟩ (myOpen f m memory s).2
  | read {f : FileId} {file : File} {buf : Option UserBuf} {count : UInt32} {stray : Int32 → Option UInt8} {ret : Int}
      {fPos : Int64} {copies : List Copy} (hfile : s.file f = some file)
      (hread : myRead loopBound (s.ourData file.minor) (s.string file.minor stray) buf count file.fPos =
        some (ret, fPos, copies)) :
      Move s (.call f (.read buf count stray)) ⟨ret, copies⟩ (s.setPos f fPos)
  | pread {f : FileId} {file : File} (buf : Option UserBuf) (count : UInt32) (pos : Int64)
      (stray : Int32 → Option UInt8) (reply : Reply) (hfile : s.file f = some file) :
      Move s (.call f (.pread buf count pos stray)) reply s
  | write {f : FileId} {file : File} (count : UInt32) (hfile : s.file f = some file) :
      Move s (.call f (.write count)) ⟨(myWrite count (s.ourData file.minor)).1, []⟩
        (s.modData file.minor fun d => (myWrite count d).2)
  | llseek {f : FileId} {file : File} (shift : Int64) (mode : Int32) (hfile : s.file f = some file) :
      Move s (.call f (.llseek shift mode)) ⟨(myLlseek (s.ourData file.minor) file.fPos shift).toInt, []⟩
        (s.setPos f (myLlseek (s.ourData file.minor) file.fPos shift))
  | setString {f : FileId} {file : File} {newString : Option UserString} {mem : Addr} {junk : Nat → UInt8} {r : Int}
      {t : State} (hfile : s.file f = some file) (hyields : s.Yields file.minor newString mem)
      (hresult : SetResult s file.minor newString mem r t) :
      Move s (.call f (.ioctl SET_STRING newString mem junk)) ⟨r, []⟩ t
  | reset {f : FileId} {file : File} {newString : Option UserString} {mem : Addr} {junk : Nat → UInt8} {t : State}
      (hfile : s.file f = some file)
      (hset : Settles s t file.minor
        { s.ourData file.minor with moduleString := 0, maxSize := 0, stringSize := 0 } none) :
      Move s (.call f (.ioctl RESET newString mem junk)) ⟨0, []⟩ t
  | unknown {f : FileId} {file : File} {cmd : UInt32} (newString : Option UserString) (mem : Addr)
      (junk : Nat → UInt8) (hfile : s.file f = some file) (hset : cmd ≠ SET_STRING) (hreset : cmd ≠ RESET) :
      Move s (.call f (.ioctl cmd newString mem junk)) ⟨-ENOTTY, []⟩ s
  | release {f : FileId} {file : File} (hfile : s.file f = some file) :
      Move s (.call f .release) ⟨0, []⟩ (myRelease f s).2

section Calls

variable {s t : State}

theorem call_of_file {f : FileId} {file : File} (hfile : s.file f = some file) (c : Call) :
    call s (.call f c) = c.run f file s := by
  rw [call, hfile]

theorem call_read {f : FileId} {file : File} (hfile : s.file f = some file) {buf : Option UserBuf} {count : UInt32}
    {stray : Int32 → Option UInt8} {ret : Int} {fPos : Int64} {copies : List Copy}
    (hread : myRead loopBound (s.ourData file.minor) (s.string file.minor stray) buf count file.fPos =
      some (ret, fPos, copies)) :
    call s (.call f (.read buf count stray)) = .ok (⟨ret, copies⟩, s.setPos f fPos) := by
  rw [call_of_file hfile]
  unfold Call.run
  dsimp only
  rw [hread]

theorem call_read_hangs {f : FileId} {file : File} (hfile : s.file f = some file) {buf : Option UserBuf}
    {count : UInt32} {stray : Int32 → Option UInt8}
    (hread : myRead loopBound (s.ourData file.minor) (s.string file.minor stray) buf count file.fPos = none) :
    call s (.call f (.read buf count stray)) = .error .hang := by
  rw [call_of_file hfile]
  unfold Call.run
  dsimp only
  rw [hread]

theorem call_ioctl {f : FileId} {file : File} (hfile : s.file f = some file) {cmd : UInt32}
    {newString : Option UserString} {mem : Addr} {junk : Nat → UInt8} {ret : Int}
    (hioctl : myIoctl file.minor cmd newString mem junk s = .ok (ret, t)) :
    call s (.call f (.ioctl cmd newString mem junk)) = .ok (⟨ret, []⟩, t) := by
  rw [call_of_file hfile]
  unfold Call.run
  dsimp only
  rw [hioctl]
  rfl

theorem myIoctl_moves (hkept : Kept s) {f : FileId} {file : File} (hfile : s.file f = some file) (cmd : UInt32)
    {newString : Option UserString} {mem : Addr} (junk : Nat → UInt8)
    (hyields : s.Yields file.minor newString mem) : Outcome (fun _ => False)
      (fun x => Move s (.call f (.ioctl cmd newString mem junk)) ⟨x.1, []⟩ x.2)
      (myIoctl file.minor cmd newString mem junk s) := by
  unfold myIoctl
  split
  · rename_i hcmd
    subst hcmd
    exact (setString_result hkept hyields).imp (fun _ h => h) fun x hx => .setString hfile hyields hx
  · rename_i hset
    split
    · rename_i hcmd
      subst hcmd
      apply (reset_result hkept).imp (fun _ h => h)
      intro x hx
      obtain ⟨ret, t⟩ := x
      obtain ⟨rfl, hsettles⟩ := hx
      exact .reset hfile hsettles
    · rename_i hreset
      exact .ok (.unknown newString mem junk hfile hset hreset)

/-- No call faults, but that a read may hang. -/
theorem call_moves (hkept : Kept s) {e : Event} (henabled : Enabled s e) :
    Outcome (· = .hang) (fun x => Move s e x.1 x.2) (call s e) := by
  cases e with
  | opening f m memory => exact .ok (.opening m memory henabled)
  | call f c =>
      dsimp only [Enabled] at henabled
      dsimp only [call]
      cases hfile : s.file f with
      | none =>
          rw [hfile] at henabled
          exact henabled.elim
      | some file =>
          rw [hfile] at henabled
          cases c with
          | read buf count stray =>
              unfold Call.run
              dsimp only
              split
              · exact .error rfl
              · rename_i hread
                exact .ok (.read hfile hread)
          | pread buf count pos stray =>
              unfold Call.run
              dsimp only
              split
              · exact .ok (.pread buf count pos stray _ hfile)
              · split
                · exact .error rfl
                · exact .ok (.pread buf count pos stray _ hfile)
          | write count => exact .ok (.write count hfile)
          | llseek shift mode => exact .ok (.llseek shift mode hfile)
          | ioctl cmd newString mem junk =>
              have hmoves := myIoctl_moves hkept hfile cmd junk henabled
              exact (hmoves.imp (fun _ h => h.elim) fun x hx => hx).bind fun x hx => .ok hx
          | release => exact .ok (.release hfile)

theorem move_of_step (hkept : Kept s) {e : Event} (hstep : machine.Step s e t) :
    ∃ reply, call s e = .ok (reply, t) ∧ Move s e reply t := by
  obtain ⟨⟨reply, u⟩, hcall, heq⟩ := bind_eq_ok.1 hstep.2
  cases heq
  exact ⟨reply, hcall, (call_moves hkept hstep.1).of_ok hcall⟩

/-- Opening touches no string and no size. -/
theorem myOpen_frame (s : State) (f : FileId) (m : Minor) (memory : Bool) :
    (myOpen f m memory s).2.heap = s.heap ∧ ∀ m',
      ((myOpen f m memory s).2.ourData m').moduleString = (s.ourData m').moduleString ∧
      ((myOpen f m memory s).2.ourData m').maxSize = (s.ourData m').maxSize ∧
      ((myOpen f m memory s).2.ourData m').stringSize = (s.ourData m').stringSize := by
  have hdata : (myOpen f m memory s).2.heap = s.heap ∧ (myOpen f m memory s).2.ourData =
      Function.update s.ourData m (if (s.ourData m).flag ≠ 1 then { s.ourData m with flag := 1 } else s.ourData m) := by
    unfold myOpen
    dsimp only
    split
    · exact ⟨rfl, rfl⟩
    · exact ⟨rfl, rfl⟩
  refine ⟨hdata.1, fun m' => ?_⟩
  rw [hdata.2]
  by_cases hm : m' = m
  · subst hm
    rw [Function.update_self]
    split
    · exact ⟨rfl, rfl, rfl⟩
    · exact ⟨rfl, rfl, rfl⟩
  · rw [Function.update_of_ne hm]
    exact ⟨rfl, rfl, rfl⟩

/-- The file of a successful opening starts at 0. -/
theorem myOpen_file {f : FileId} {m : Minor} {memory : Bool} {g : FileId} {file : File}
    (h : (myOpen f m memory s).2.file g = some file) : s.file g = some file ∨ (g = f ∧ file = ⟨m, 0⟩) := by
  unfold myOpen at h
  dsimp only at h
  split at h
  · exact Or.inl h
  · change Function.update s.file f (some ⟨m, 0⟩) g = some file at h
    by_cases hg : g = f
    · rw [hg, Function.update_self] at h
      exact Or.inr ⟨hg, (Option.some.inj h).symm⟩
    · rw [Function.update_of_ne hg] at h
      exact Or.inl h

theorem SetResult.kept {m : Minor} {newString : Option UserString} {mem : Addr} {r : Int}
    (hresult : SetResult s m newString mem r t) (hkept : Kept s) (hyields : s.Yields m newString mem) : Kept t := by
  cases hresult with
  | null => exact hkept
  | lost _ _ hset => exact hset.kept hkept (fun hne => absurd rfl hne) (Or.inl ⟨rfl, rfl⟩)
  | @stored arg _ harg hmem hsize hset =>
      refine hset.kept hkept (fun _ m' hne => ?_) (Or.inr ⟨arg.chars, hset.stores (toInt_scan hsize) arg.noNul⟩)
      exact hkept.unused hmem (hyields.resolve_left hmem).1 hne

theorem Move.kept {e : Event} {reply : Reply} (hmove : Move s e reply t) (hkept : Kept s) : Kept t := by
  cases hmove with
  | @opening f m memory _ =>
      have hframe := myOpen_frame s f m memory
      exact hkept.of_same hframe.1 (fun m' => (hframe.2 m').1) fun m' => (hframe.2 m').2.2
  | read _ _ => exact hkept.of_same rfl (fun _ => rfl) fun _ => rfl
  | pread => exact hkept
  | write count hfile => exact hkept.modData (fun _ => rfl) fun _ => rfl
  | llseek _ _ _ => exact hkept.of_same rfl (fun _ => rfl) fun _ => rfl
  | setString hfile hyields hresult => exact hresult.kept hkept hyields
  | reset _ hset => exact hset.kept hkept (fun hne => absurd rfl hne) (Or.inl ⟨rfl, rfl⟩)
  | unknown => exact hkept
  | release _ => exact hkept.of_same rfl (fun _ => rfl) fun _ => rfl

end Calls

theorem initModule_kept : Kept initModule where
  string _ := Or.inl ⟨rfl, rfl⟩
  apart _ _ _ hne := absurd rfl hne

theorem kept_of_reachable {s : State} (hreach : machine.Reachable (· = initModule) s) : Kept s := by
  apply hreach.invariant (I := Kept) (by rintro s rfl; exact initModule_kept)
  intro s e t _ hkept hstep
  obtain ⟨reply, -, hmove⟩ := move_of_step hkept hstep
  exact hmove.kept hkept

end MagicKernel.Repeated
