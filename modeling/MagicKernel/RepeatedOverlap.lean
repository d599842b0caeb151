import MagicKernel.RepeatedSleep

/-! What sleeping calls may do to each other. A read copies byte after byte through the pointer it has found at its
start, and a `SET_STRING` frees the old string, and later gives the minor the new block, long before it stores
the new size. -/

namespace MagicKernel.Repeated

open FaultMachine BlockHeap

/-! ### Reads in progress -/

/-- The byte that the read copies next lies in an allocated block. -/
def Reading.Inside (r : Reading) (h : Heap (List UInt8)) : Prop :=
  ∃ bytes, h.cells r.moduleString = some bytes ∧ 0 ≤ r.stringPos ∧ r.stringPos.toNatClampNeg < bytes.length

/-- What other processes find while calls are asleep. No act both frees a block and allocates one, so that a block
that is allocated all the time is the same block. -/
structure World.Guarded (w : World) : Prop where
  inside : ∀ p r, (p, .reading r) ∈ w.asleep → r.Inside w.state.heap
  cleared : ∀ m, (w.state.ourData m).moduleString = 0 → (w.state.ourData m).stringSize = 0

def Progress.Holds (a : Addr) : Progress → Prop
  | .reading r => r.moduleString = a
  | _ => False

instance (a : Addr) (c : Progress) : Decidable (c.Holds a) :=
  match c with
  | .reading r => inferInstanceAs (Decidable (r.moduleString = a))
  | .scanning _ _ _ | .copying _ _ _ => .isFalse not_false

/-- A read of another process than `p` is asleep that copies from the block. -/
def World.Borrowed (w : World) (p : Pid) (a : Addr) : Prop := ∃ x ∈ w.asleep, x.1 ≠ p ∧ x.2.Holds a

/-- A read that has something to copy does not start at a position that is negative as an `int`. -/
def Starts (d : Data) (buf : Option UserBuf) (count : UInt32) (fPos : Int64) : Prop :=
  ¬Refused buf → More (allowed d fPos) count 0 → 0 ≤ fPos.toInt32.toInt

/-- The condition on a call that is made. -/
def World.Opens (w : World) (p : Pid) (d : Data) (fPos : Int64) : Call → Prop
  | .read buf count _ => Starts d buf count fPos
  | .pread buf count pos _ => 0 ≤ pos → Starts d buf count pos
  | .ioctl cmd newString _ _ =>
    (cmd = SET_STRING → newString.isSome → d.stringSize = 0 ∧ ¬w.Borrowed p d.moduleString) ∧
      (cmd = RESET → ¬w.Borrowed p d.moduleString)
  | _ => True

/-- The condition on a call that goes on. -/
def World.Proceeds (w : World) (p : Pid) : Progress → Prop
  | .copying c _ _ => c.newString.readable = false → ¬w.Borrowed p (w.state.ourData c.minor).moduleString
  | _ => True

/-- No string is freed that is being read, a new one is set only where the old one is empty, and reads start inside. -/
def World.Gentle (w : World) : Act → Prop
  | .start _ (.opening _ _ _) => True
  | .start p (.call f c) => ∀ file ∈ w.state.file f, w.Opens p (w.state.ourData file.minor) file.fPos c
  | .resume p _ => ∀ c ∈ w.asleep.lookup p, w.Proceeds p c

/-- The call is in its `copy_from_user`, for the minor `m`, and its string with a NUL needs more than `room` bytes. -/
def Progress.Exceeds (m : Minor) (room : Nat) : Progress → Prop
  | .copying c i _ => c.minor = m ∧ (room : Int) ≤ i.toInt
  | _ => False

/-- Such a call of another process than `p` is asleep. -/
def World.Strands (w : World) (p : Pid) (m : Minor) (room : Nat) : Prop :=
  ∃ x ∈ w.asleep, x.1 ≠ p ∧ x.2.Exceeds m room

/-- The call takes its string from a minor to which another `SET_STRING` is copying. -/
def World.Takes (w : World) (p : Pid) (m : Minor) : Call → Prop
  | .ioctl cmd newString _ _ => (cmd = SET_STRING ∧ newString.isSome ∨ cmd = RESET) ∧ w.Strands p m 0
  | _ => False

/-- The call that goes on leaves the minor a block that is too short for the string that the minor has got
meanwhile, or for one that another `SET_STRING` is copying; or it takes the string away, as above. -/
def World.Cramps (w : World) (p : Pid) (ch : Chance) : Progress → Prop
  | .scanning c i [] =>
    (ch.mem ≠ 0 ∧ (i + 1).toUInt32.toNat < (w.state.ourData c.minor).stringSize.toInt) ∨
      w.Strands p c.minor (if ch.mem = 0 then 0 else (i + 1).toUInt32.toNat)
  | .copying c _ _ => c.newString.readable = false ∧ w.Strands p c.minor 0
  | _ => False

/-- The act leaves a block that is too short, or none, to calls that will rely on it. -/
def World.Undermines (w : World) : Act → Prop
  | .start _ (.opening _ _ _) => False
  | .start p (.call f c) => ∃ file ∈ w.state.file f, w.Takes p file.minor c
  | .resume p ch => ∃ c ∈ w.asleep.lookup p, w.Cramps p ch c

def World.Careful (w : World) (a : Act) : Prop := w.Gentle a ∧ ¬w.Undermines a

instance (w : World) (p : Pid) (a : Addr) : Decidable (w.Borrowed p a) :=
  inferInstanceAs (Decidable (∃ x ∈ w.asleep, _ ∧ _))

instance (d : Data) (buf : Option UserBuf) (count : UInt32) (fPos : Int64) : Decidable (Starts d buf count fPos) :=
  inferInstanceAs (Decidable (_ → _ → _))

instance (w : World) (p : Pid) (d : Data) (fPos : Int64) (c : Call) : Decidable (w.Opens p d fPos c) :=
  match c with
  | .read buf count _ => inferInstanceAs (Decidable (Starts d buf count fPos))
  | .pread buf count pos _ => inferInstanceAs (Decidable (0 ≤ pos → Starts d buf count pos))
  | .ioctl _ _ _ _ => inferInstanceAs (Decidable ((_ → _ → _ ∧ _) ∧ (_ → _)))
  | .write _ | .llseek _ _ | .release => .isTrue trivial

instance (w : World) (p : Pid) (c : Progress) : Decidable (w.Proceeds p c) :=
  match c with
  | .copying _ _ _ => inferInstanceAs (Decidable (_ → _))
  | .reading _ | .scanning _ _ _ => .isTrue trivial

instance (m : Minor) (room : Nat) (c : Progress) : Decidable (c.Exceeds m room) :=
  match c with
  | .copying c i _ => inferInstanceAs (Decidable (c.minor = m ∧ (room : Int) ≤ i.toInt))
  | .reading _ | .scanning _ _ _ => .isFalse not_false

instance (w : World) (p : Pid) (m : Minor) (room : Nat) : Decidable (w.Strands p m room) :=
  inferInstanceAs (Decidable (∃ x ∈ w.asleep, _ ∧ _))

instance (w : World) (p : Pid) (m : Minor) (c : Call) : Decidable (w.Takes p m c) :=
  match c with
  | .ioctl _ _ _ _ => inferInstanceAs (Decidable ((_ ∧ _ ∨ _) ∧ _))
  | .read _ _ _ | .pread _ _ _ _ | .write _ | .llseek _ _ | .release => .isFalse not_false

instance (w : World) (p : Pid) (ch : Chance) (c : Progress) : Decidable (w.Cramps p ch c) :=
  match c with
  | .scanning _ _ [] => inferInstanceAs (Decidable ((_ ∧ _) ∨ _))
  | .copying _ _ _ => inferInstanceAs (Decidable (_ ∧ _))
  | .scanning _ _ (_ :: _) | .reading _ => .isFalse not_false

instance (w : World) (a : Act) : Decidable (w.Careful a) :=
  match a with
  | .start _ (.opening _ _ _) => .isTrue ⟨trivial, not_false⟩
  | .start p (.call f c) =>
    inferInstanceAs (Decidable ((∀ file ∈ w.state.file f, w.Opens p (w.state.ourData file.minor) file.fPos c) ∧
      ¬∃ file ∈ w.state.file f, w.Takes p file.minor c))
  | .resume p ch =>
    inferInstanceAs (Decidable ((∀ c ∈ w.asleep.lookup p, w.Proceeds p c) ∧
      ¬∃ c ∈ w.asleep.lookup p, w.Cramps p ch c))

/-! ### The invariant -/

/-- The lengths of the blocks. -/
def State.lens (s : State) : Addr → Option Nat := s.heap.contents List.length

/-- Every minor has no string or a block of its own, which is not shorter than `string_size`. -/
structure Housed (s : State) : Prop where
  string : ∀ m, Bare (s.ourData m) ∨ ∃ n : Nat, s.lens (s.ourData m).moduleString = some n ∧
    0 ≤ (s.ourData m).stringSize.toInt ∧ (s.ourData m).stringSize.toInt ≤ n
  apart : ∀ m m', (s.ourData m).moduleString = (s.ourData m').moduleString →
    (s.ourData m).moduleString ≠ 0 → m = m'

/-- The block at `a` has a byte behind its first `i`. -/
def State.Room (s : State) (a : Addr) (i : Int32) : Prop := ∃ n : Nat, s.lens a = some n ∧ i.toInt < n

/-- A string of `i` characters may be copied to `dst` and ended with a NUL in what the minor `m` has. -/
structure State.Receives (s : State) (m : Minor) (i : Int32) (dst : Addr) : Prop where
  index : 0 ≤ i.toInt
  block : s.Room dst i
  string : s.Room (s.ourData m).moduleString i
  own : ∀ m', (s.ourData m').moduleString = dst → m' = m

/-- What is known of a call that is asleep. -/
def Progress.Fits (s : State) : Progress → Prop
  | .reading r => ∃ n : Nat, s.lens r.moduleString = some n ∧ 0 ≤ r.stringPos.toInt ∧
      r.stringPos.toInt < r.stringSize.toInt ∧ r.stringSize.toInt ≤ n
  | .scanning c i chars => scan i chars = scan 0 c.newString.chars
  | .copying c i dst => s.Receives c.minor i dst

structure Sound (w : World) : Prop where
  housed : Housed w.state
  asleep : ∀ x ∈ w.asleep, x.2.Fits w.state

theorem lens_eq_some {s : State} {a : Addr} {n : Nat} :
    s.lens a = some n ↔ ∃ bytes, s.heap.cells a = some bytes ∧ bytes.length = n := Option.map_eq_some_iff

theorem lens_zero (s : State) : s.lens 0 = none := by
  rw [State.lens, Heap.contents, s.heap.null]
  rfl

theorem Sound.guarded {w : World} (hsound : Sound w) : w.Guarded := by
  constructor
  · intro p r hr
    obtain ⟨n, hlens, hpos, hlt, hle⟩ := hsound.asleep _ hr
    obtain ⟨bytes, hcell, hlength⟩ := lens_eq_some.1 hlens
    have hcast := Int32.cast_toNatClampNeg r.stringPos (Int32.le_iff_toInt_le.2 hpos)
    exact ⟨bytes, hcell, Int32.le_iff_toInt_le.2 hpos, by omega⟩
  · intro m hnull
    rcases hsound.housed.string m with hbare | ⟨n, hlens, -⟩
    · exact hbare.2
    · rw [hnull, lens_zero] at hlens
      cases hlens

theorem Housed.size_nonneg {s : State} (hhoused : Housed s) (m : Minor) : 0 ≤ (s.ourData m).stringSize.toInt := by
  rcases hhoused.string m with hbare | ⟨n, -, hnonneg, -⟩
  · rw [hbare.2]
    exact Int.le_refl 0
  · exact hnonneg

theorem initModule_housed : Housed initModule where
  string _ := Or.inl ⟨rfl, rfl⟩
  apart _ _ _ hne := absurd rfl hne

/-! ### What a step keeps -/

/-- The strings are housed as before, and the calls that are asleep find what they need. -/
structure Keeps (w : World) (p : Pid) (x : Stage × State) : Prop where
  housed : Housed x.2
  others : ∀ y ∈ w.asleep, y.1 ≠ p → y.2.Fits x.2
  own : ∀ c, x.1 = .asleep c → c.Fits x.2

theorem Keeps.settle {w : World} {p : Pid} {x : Stage × State} (hkeeps : Keeps w p x) : Sound (w.settle p x) := by
  obtain ⟨stage, s⟩ := x
  cases stage with
  | asleep c =>
      refine ⟨hkeeps.housed, fun y hy => ?_⟩
      rcases List.mem_cons.1 hy with rfl | hy
      · exact hkeeps.own c rfl
      · obtain ⟨hy, hne⟩ := List.mem_filter.1 hy
        exact hkeeps.others y hy (of_decide_eq_true hne)
  | done reply =>
      refine ⟨hkeeps.housed, fun y hy => ?_⟩
      obtain ⟨hy, hne⟩ := List.mem_filter.1 hy
      exact hkeeps.others y hy (of_decide_eq_true hne)

section Keeps

variable {w : World} {p : Pid} {s t : State} {m : Minor}

/-- The step is about the minor `m`, and leaves the others their blocks. -/
theorem Housed.change (hhoused : Housed s)
    (hstring : ∀ m' ≠ m, (t.ourData m').moduleString = (s.ourData m').moduleString)
    (hsize : ∀ m' ≠ m, (t.ourData m').stringSize = (s.ourData m').stringSize)
    (hlens : ∀ m' ≠ m, (s.ourData m').moduleString ≠ 0 →
      t.lens (s.ourData m').moduleString = s.lens (s.ourData m').moduleString)
    (hown : Bare (t.ourData m) ∨ ∃ n : Nat, t.lens (t.ourData m).moduleString = some n ∧
      0 ≤ (t.ourData m).stringSize.toInt ∧ (t.ourData m).stringSize.toInt ≤ n)
    (hother : (t.ourData m).moduleString ≠ 0 → ∀ m' ≠ m, (s.ourData m').moduleString ≠ (t.ourData m).moduleString) :
    Housed t := by
  constructor
  · intro m'
    by_cases hm : m' = m
    · rw [hm]
      exact hown
    · rw [Bare, hstring m' hm, hsize m' hm]
      rcases hhoused.string m' with hbare | ⟨n, hn, hrange⟩
      · exact Or.inl hbare
      · have hne : (s.ourData m').moduleString ≠ 0 := by
          intro hzero
          rw [hzero, lens_zero] at hn
          cases hn
        exact Or.inr ⟨n, (hlens m' hm hne).trans hn, hrange⟩
  · exact apart_change hhoused.apart hstring hother

theorem Housed.of_same (hhoused : Housed s) (hlens : t.lens = s.lens)
    (hstring : ∀ m, (t.ourData m).moduleString = (s.ourData m).moduleString)
    (hsize : ∀ m, (t.ourData m).stringSize = (s.ourData m).stringSize) : Housed t := by
  constructor
  · intro m
    rw [Bare, hstring, hsize, hlens]
    exact hhoused.string m
  · intro m m'
    rw [hstring, hstring]
    exact hhoused.apart m m'

/-- A call that is asleep does not notice what leaves all lengths and strings alone. -/
theorem Progress.Fits.congr {c : Progress} (hfits : c.Fits s) (hlens : t.lens = s.lens)
    (hstring : ∀ m, (t.ourData m).moduleString = (s.ourData m).moduleString) : c.Fits t := by
  cases c with
  | reading r =>
      obtain ⟨n, hn, hrange⟩ := hfits
      exact ⟨n, (congrFun hlens _).trans hn, hrange⟩
  | scanning c i chars => exact hfits
  | copying c i dst =>
      obtain ⟨hindex, ⟨n, hn, hlt⟩, ⟨n', hn', hlt'⟩, hown⟩ := hfits
      refine ⟨hindex, ⟨n, (congrFun hlens _).trans hn, hlt⟩, ⟨n', ?_, hlt'⟩, fun m' => ?_⟩
      · rw [hstring, hlens]
        exact hn'
      · rw [hstring]
        exact hown m'

/-- A step that leaves all lengths, strings and sizes alone. -/
theorem Sound.quiet (hsound : Sound w) {stage : Stage} (hlens : t.lens = w.state.lens)
    (hstring : ∀ m, (t.ourData m).moduleString = (w.state.ourData m).moduleString)
    (hsize : ∀ m, (t.ourData m).stringSize = (w.state.ourData m).stringSize)
    (hown : ∀ c, stage = .asleep c → c.Fits w.state) : Keeps w p (stage, t) where
  housed := hsound.housed.of_same hlens hstring hsize
  others y hy _ := (hsound.asleep y hy).congr hlens hstring
  own c hc := (hown c hc).congr hlens hstring

theorem modData_other (s : State) {m m' : Minor} (hne : m' ≠ m) (f : Data → Data) :
    (s.modData m f).ourData m' = s.ourData m' := Function.update_of_ne hne _ _

theorem modData_self (s : State) (m : Minor) (f : Data → Data) : (s.modData m f).ourData m = f (s.ourData m) :=
  Function.update_self _ _ _

theorem Housed.lens_ne_none (hhoused : Housed s) (hne : (s.ourData m).moduleString ≠ 0) :
    s.lens (s.ourData m).moduleString ≠ none := by
  rcases hhoused.string m with hbare | ⟨n, hn, -⟩
  · exact absurd hbare.1 hne
  · rw [hn]
    exact Option.some_ne_none n

theorem State.Room.ne_zero {a : Addr} {i : Int32} (hroom : s.Room a i) : a ≠ 0 := by
  rintro rfl
  obtain ⟨n, hn, -⟩ := hroom
  rw [lens_zero] at hn
  cases hn

theorem State.Room.mono {a : Addr} {i : Int32} (hroom : s.Room a i) (hlens : t.lens a = s.lens a) : t.Room a i := by
  obtain ⟨n, hn, hlt⟩ := hroom
  exact ⟨n, hlens.trans hn, hlt⟩

/-- The string of `m` is freed. No read that is asleep copies from it, and no `SET_STRING` copies to the minor. -/
theorem Sound.frees (hsound : Sound w) {stage : Stage} {f : Data → Data}
    (hborrowed : ¬w.Borrowed p (w.state.ourData m).moduleString) (hstrands : ¬w.Strands p m 0)
    (hbare : Bare (f (w.state.ourData m))) (hown : ∀ c, stage = .asleep c → ∀ t, c.Fits t) :
    Keeps w p (stage, { w.state with heap := w.state.heap.free (w.state.ourData m).moduleString }.modData m f) := by
  generalize ht : { w.state with heap := w.state.heap.free (w.state.ourData m).moduleString }.modData m f = t
  have hlens : ∀ a, a ≠ (w.state.ourData m).moduleString → t.lens a = w.state.lens a := by
    intro a ha
    subst ht
    calc State.lens _ a = (w.state.heap.free (w.state.ourData m).moduleString).contents List.length a := rfl
      _ = Function.update w.state.lens (w.state.ourData m).moduleString none a := by
        rw [Heap.contents_free]
        rfl
      _ = w.state.lens a := Function.update_of_ne ha _ _
  have hself : t.ourData m = f (w.state.ourData m) := ht ▸ modData_self _ _ _
  have hother : ∀ m' ≠ m, t.ourData m' = w.state.ourData m' := fun m' hm => ht ▸ modData_other _ hm f
  have happart : ∀ m' ≠ m, (w.state.ourData m').moduleString ≠ 0 →
      (w.state.ourData m').moduleString ≠ (w.state.ourData m).moduleString :=
    fun m' hm hne heq => hm (hsound.housed.apart m' m heq hne)
  refine ⟨?_, fun y hy hne => ?_, fun c hc => hown c hc _⟩
  · apply hsound.housed.change (m := m)
    · exact fun m' hm => congrArg Data.moduleString (hother m' hm)
    · exact fun m' hm => congrArg Data.stringSize (hother m' hm)
    · exact fun m' hm hne => hlens _ (happart m' hm hne)
    · left
      rw [hself]
      exact hbare
    · rw [hself]
      exact fun hne => absurd hbare.1 hne
  · have hfits := hsound.asleep y hy
    obtain ⟨q, c⟩ := y
    cases c with
    | reading r =>
        obtain ⟨n, hn, hrange⟩ := hfits
        refine ⟨n, (hlens _ ?_).trans hn, hrange⟩
        intro heq
        exact hborrowed ⟨_, hy, hne, heq⟩
    | scanning c i chars => exact hfits
    | copying c i dst =>
        obtain ⟨hindex, hblock, hstring, hsole⟩ := hfits
        have hminor : c.minor ≠ m := fun heq => hstrands ⟨_, hy, hne, heq, hindex⟩
        refine ⟨hindex, hblock.mono (hlens _ ?_), ?_, fun m' heq => ?_⟩
        · rintro rfl
          exact hminor (hsole m rfl).symm
        · rw [hother _ hminor]
          exact hstring.mono (hlens _ (happart _ hminor hstring.ne_zero))
        · by_cases hm : m' = m
          · subst hm
            rw [hself, hbare.1] at heq
            exact absurd heq.symm hblock.ne_zero
          · rw [hother m' hm] at heq
            exact hsole m' heq

theorem Housed.freeable (hhoused : Housed s) (m : Minor) :
    (s.ourData m).moduleString = 0 ∨ ∃ bytes, s.heap.cells (s.ourData m).moduleString = some bytes := by
  rcases hhoused.string m with hbare | ⟨n, hn, -⟩
  · exact Or.inl hbare.1
  · obtain ⟨bytes, hcell, -⟩ := lens_eq_some.1 hn
    exact Or.inr ⟨bytes, hcell⟩

/-! ### Reads -/

theorem Sound.test (hsound : Sound w) (r : Reading)
    (hfits : More r.allowedBytes r.count r.bytesRead → (Progress.reading r).Fits w.state) :
    Keeps w p (r.test w.state) := by
  unfold Reading.test
  split
  · rename_i hmore
    apply hsound.quiet rfl (fun _ => rfl) fun _ => rfl
    rintro c ⟨⟩
    exact hfits hmore
  · split
    · exact hsound.quiet rfl (fun _ => rfl) (fun _ => rfl) fun c hc => by cases hc
    · exact hsound.quiet rfl (fun _ => rfl) (fun _ => rfl) fun c hc => by cases hc

theorem Sound.startRead (hsound : Sound w) (f : FileId) (shared : Bool) (m : Minor) {buf : Option UserBuf}
    {count : UInt32} {fPos : Int64} (hstarts : Starts (w.state.ourData m) buf count fPos) :
    Outcome (· = .device .hang) (Keeps w p) (startRead f shared (w.state.ourData m) buf count fPos w.state) := by
  have hsame : ∀ reply, Keeps w p (.done reply, w.state) :=
    fun reply => hsound.quiet rfl (fun _ => rfl) (fun _ => rfl) fun c hc => by cases hc
  unfold Repeated.startRead
  cases buf with
  | none => exact .ok (hsame _)
  | some buf =>
      dsimp only
      split
      · exact .ok (hsame _)
      · rename_i haccess
        split
        · exact .error rfl
        · rename_i stringPos hreduce
          refine .ok (hsound.test _ fun hmore => ?_)
          have hpos := hstarts haccess hmore
          rcases hsound.housed.string m with hbare | ⟨n, hn, hnonneg, hle⟩
          · rw [hbare.2, reduce_zero hpos] at hreduce
            cases hreduce
          · have hne : (w.state.ourData m).stringSize.toInt ≠ 0 := by
              intro hzero
              rw [show (w.state.ourData m).stringSize = 0 from Int32.toInt_inj.1 hzero, reduce_zero hpos] at hreduce
              cases hreduce
            have hsize : 0 < (w.state.ourData m).stringSize.toInt := by omega
            obtain ⟨q, hq, -, hmod⟩ := reduce_position hsize fPos.toInt32
            cases hreduce.symm.trans hq
            have hge := Int.emod_nonneg fPos.toInt32.toInt hne
            have hlt := Int.emod_lt_of_pos fPos.toInt32.toInt hsize
            rw [← hmod hpos] at hge hlt
            exact ⟨n, hn, hge, hlt, hle⟩

theorem Sound.resume_reading (hsound : Sound w) {r : Reading} (hfits : (Progress.reading r).Fits w.state)
    (stray : Int32 → Option UInt8) : Keeps w p (r.resume stray w.state) := by
  unfold Reading.resume
  dsimp only
  split
  · exact hsound.quiet rfl (fun _ => rfl) (fun _ => rfl) fun c hc => by cases hc
  · apply hsound.test
    intro _
    obtain ⟨n, hn, hpos, hlt, hle⟩ := hfits
    have hnext := toInt_nextPos hpos hlt
    have hge := Int.emod_nonneg (r.stringPos.toInt + 1) (show r.stringSize.toInt ≠ 0 by omega)
    have hmod := Int.emod_lt_of_pos (r.stringPos.toInt + 1) (show 0 < r.stringSize.toInt by omega)
    rw [← hnext] at hge hmod
    exact ⟨n, hn, hge, hmod, hle⟩

/-! ### Setting the string -/

theorem Sound.startSet (hsound : Sound w) (f : FileId) {newString : Option UserString}
    (hfree : newString.isSome → (w.state.ourData m).stringSize = 0 ∧
      ¬w.Borrowed p (w.state.ourData m).moduleString) (hstrands : newString.isSome → ¬w.Strands p m 0) :
    Outcome (fun _ => False) (Keeps w p) (startSet f m newString w.state) := by
  cases newString with
  | none => exact .ok (hsound.quiet rfl (fun _ => rfl) (fun _ => rfl) fun c hc => by cases hc)
  | some arg =>
      obtain ⟨hsize, hborrowed⟩ := hfree rfl
      unfold Repeated.startSet
      dsimp only
      rw [freeString_eq (hsound.housed.freeable m), ok_bind]
      refine .ok (hsound.frees hborrowed (hstrands rfl) ⟨rfl, hsize⟩ ?_)
      rintro c ⟨⟩ t
      exact rfl

/-- A fresh block, or none, takes the place of what the minor had. Its size is enough for the string that the minor
has, and for those that are being copied to it. -/
theorem Sound.gives (hsound : Sound w) {stage : Stage} {mem : Addr} {bytes : List UInt8} {f : Data → Data}
    (hfree : mem = 0 ∨ w.state.heap.cells mem = none) (hstring : (f (w.state.ourData m)).moduleString = mem)
    (hsize : mem = 0 → (f (w.state.ourData m)).stringSize = 0)
    (hrange : mem ≠ 0 → 0 ≤ (f (w.state.ourData m)).stringSize.toInt ∧
      (f (w.state.ourData m)).stringSize.toInt ≤ bytes.length)
    (hstrands : ¬w.Strands p m (if mem = 0 then 0 else bytes.length))
    (hown : ∀ c, stage = .asleep c → mem ≠ 0 ∧ ∃ c' i, c = .copying c' i mem ∧ c'.minor = m ∧ 0 ≤ i.toInt ∧
      i.toInt < bytes.length) :
    Keeps w p (stage, { w.state with heap := w.state.heap.alloc mem bytes }.modData m f) := by
  generalize ht : { w.state with heap := w.state.heap.alloc mem bytes }.modData m f = t
  have hnone : mem ≠ 0 → w.state.lens mem = none := by
    intro hmem
    rw [State.lens, Heap.contents, hfree.resolve_left hmem]
    rfl
  have hlens : ∀ a, w.state.lens a ≠ none → t.lens a = w.state.lens a := by
    intro a ha
    subst ht
    change (w.state.heap.alloc mem bytes).contents List.length a = _
    by_cases hmem : mem = 0
    · rw [Heap.alloc, dif_pos hmem]
      rfl
    · have hne : a ≠ mem := by
        rintro rfl
        exact ha (hnone hmem)
      rw [Heap.contents_alloc hmem, Function.update_of_ne hne]
      rfl
  have hfresh : mem ≠ 0 → t.lens mem = some bytes.length := by
    intro hmem
    subst ht
    change (w.state.heap.alloc mem bytes).contents List.length mem = _
    rw [Heap.contents_alloc hmem, Function.update_self]
  have hself : (t.ourData m).moduleString = mem := ht ▸ (congrArg Data.moduleString (modData_self _ _ _)).trans hstring
  have hother : ∀ m' ≠ m, t.ourData m' = w.state.ourData m' := fun m' hm => ht ▸ modData_other _ hm f
  -- no minor has had a string at the new address
  have hunused : ∀ m', (w.state.ourData m').moduleString = mem → mem = 0 := by
    rintro m' rfl
    by_contra hmem
    exact hsound.housed.lens_ne_none hmem (hnone hmem)
  refine ⟨?_, fun y hy hne => ?_, fun c hc => ?_⟩
  · apply hsound.housed.change (m := m)
    · exact fun m' hm => congrArg Data.moduleString (hother m' hm)
    · exact fun m' hm => congrArg Data.stringSize (hother m' hm)
    · exact fun m' hm hne => hlens _ (hsound.housed.lens_ne_none hne)
    · have hdata : t.ourData m = f (w.state.ourData m) := ht ▸ modData_self _ _ _
      rw [hself, hdata]
      by_cases hmem : mem = 0
      · exact Or.inl ⟨hstring.trans hmem, hsize hmem⟩
      · exact Or.inr ⟨bytes.length, hfresh hmem, hrange hmem⟩
    · rw [hself]
      exact fun hmem m' _ heq => hmem (hunused m' heq)
  · have hfits := hsound.asleep y hy
    obtain ⟨q, c⟩ := y
    have hroom : ∀ {a i}, w.state.Room a i → t.Room a i := by
      rintro a i ⟨n, hn, hlt⟩
      exact ⟨n, (hlens a (by rw [hn]; exact Option.some_ne_none n)).trans hn, hlt⟩
    cases c with
    | reading r =>
        obtain ⟨n, hn, hrange⟩ := hfits
        exact ⟨n, (hlens _ (by rw [hn]; exact Option.some_ne_none n)).trans hn, hrange⟩
    | scanning c i chars => exact hfits
    | copying c i dst =>
        obtain ⟨hindex, hblock, hold, hsole⟩ := hfits
        refine ⟨hindex, hroom hblock, ?_, fun m' heq => ?_⟩
        · by_cases hm : c.minor = m
          · have hlt : i.toInt < ((if mem = 0 then 0 else bytes.length : Nat) : Int) := by
              rw [← Int.not_le]
              exact fun hle => hstrands ⟨_, hy, hne, hm, hle⟩
            split at hlt
            · omega
            · rename_i hmem
              rw [hm, hself]
              exact ⟨bytes.length, hfresh hmem, hlt⟩
          · rw [hother _ hm]
            exact hroom hold
        · by_cases hm : m' = m
          · subst hm
            rw [hself] at heq
            subst heq
            have hmem := hblock.ne_zero
            obtain ⟨n, hn, -⟩ := hblock
            rw [hnone hmem] at hn
            cases hn
          · rw [hother m' hm] at heq
            exact hsole m' heq
  · obtain ⟨hmem, c', i, rfl, rfl, hindex, hlt⟩ := hown c hc
    have hroom : t.Room mem i := ⟨bytes.length, hfresh hmem, hlt⟩
    refine ⟨hindex, hroom, by rw [hself]; exact hroom, fun m' heq => ?_⟩
    by_contra hm
    rw [hother m' hm] at heq
    exact hmem (hunused m' heq)

theorem Sound.scan (hsound : Sound w) (c : Setting) {ch : Chance} {i : Int32} {chars : List UInt8}
    (hfits : (Progress.scanning c i chars).Fits w.state) (hallows : w.Allows ch (.scanning c i chars))
    (hcramps : ¬w.Cramps p ch (.scanning c i chars)) : Keeps w p (c.scan ch i chars w.state) := by
  cases chars with
  | cons char chars =>
      apply hsound.quiet rfl (fun _ => rfl) fun _ => rfl
      rintro c' ⟨⟩
      exact hfits
  | nil =>
      change i = Repeated.scan 0 c.newString.chars at hfits
      obtain ⟨hshort, hstrands⟩ := not_or.1 hcramps
      unfold Setting.scan
      dsimp only
      split
      · rename_i hmem
        rw [modData_modData]
        rw [if_pos hmem] at hstrands
        exact hsound.gives (Or.inl hmem) rfl (fun _ => rfl) (fun h => absurd hmem h)
          (by rw [if_pos hmem]; exact hstrands)
          fun c' hc => by cases hc
      · rename_i hmem
        obtain ⟨hfree, hsize⟩ := hallows.resolve_left hmem
        have hlength : ((List.range (i + 1).toUInt32.toNat).map ch.junk).length = (i + 1).toUInt32.toNat := by
          rw [List.length_map, List.length_range]
        have halloc : (i + 1).toUInt32.toNat = c.newString.chars.length + 1 := by
          calc (i + 1).toUInt32.toNat = c.newString.allocSize := by rw [hfits, UserString.allocSize]
            _ = c.newString.chars.length + 1 := c.newString.allocSize_eq
        have hindex : i.toInt = c.newString.chars.length := by rw [hfits, toInt_scan (halloc ▸ hsize)]
        apply hsound.gives (Or.inr hfree) rfl (fun h => absurd h hmem)
        · intro _
          refine ⟨hsound.housed.size_nonneg c.minor, ?_⟩
          rw [hlength]
          exact Int.not_lt.1 fun hlt => hshort ⟨hmem, hlt⟩
        · rw [hlength]
          exact hstrands
        · rintro c' ⟨⟩
          refine ⟨hmem, c, i, rfl, rfl, ?_, ?_⟩
          · rw [hindex]
            exact Int.natCast_nonneg _
          · rw [hlength, halloc, hindex]
            exact Int.lt_succ _

/-- A write inside a block changes no length. -/
theorem store_outcome (dst : Addr) (i : Nat) (new : List UInt8) (h : Heap (List UInt8)) :
    Outcome (fun _ => ∀ n, h.contents List.length dst = some n → n < i + new.length)
      (fun h' => h'.contents List.length = h.contents List.length) (store dst i new h) := by
  unfold store
  split
  · rename_i hcell
    refine .error fun n hn => ?_
    rw [Heap.contents, hcell] at hn
    cases hn
  · rename_i bytes hcell
    split
    · have hlength : (bytes.take i ++ new ++ bytes.drop (i + new.length)).length = bytes.length := by
        simp only [List.length_append, List.length_take, List.length_drop]
        omega
      refine .ok (Heap.contents_modify ?_)
      rintro old hold
      cases hcell.symm.trans hold
      exact hlength
    · rename_i hlong
      refine .error fun n hn => ?_
      rw [Heap.contents, hcell] at hn
      cases hn
      exact Nat.not_le.1 hlong

/-- There is room for what is written. -/
theorem store_room {E : Trap → Prop} {i : Int32} {dst : Addr} {k : Nat} {new : List UInt8} (hroom : s.Room dst i)
    (hfits : ((k + new.length : Nat) : Int) ≤ i.toInt + 1) :
    Outcome E (fun h => h.contents List.length = s.lens) (store dst k new s.heap) := by
  refine (store_outcome dst k new s.heap).imp (fun _ hshort => ?_) fun _ h => h
  obtain ⟨n, hn, hlt⟩ := hroom
  have hshort := hshort n hn
  omega

theorem length_cutOff_le (chars : List UInt8) (n copied : Nat) : (cutOff chars n copied).length ≤ n := by
  rw [cutOff, List.length_append, List.length_take, List.length_take, List.length_replicate]
  omega

theorem Sound.copy (hsound : Sound w) (c : Setting) {ch : Chance} {i : Int32} {dst : Addr}
    (hfits : (Progress.copying c i dst).Fits w.state) (hproceeds : w.Proceeds p (.copying c i dst))
    (hcramps : ¬w.Cramps p ch (.copying c i dst)) :
    Outcome (fun _ => False) (Keeps w p) (c.copy ch i dst w.state) := by
  obtain ⟨hindex, hblock, hstring, hown⟩ := hfits
  have hcast := Int32.cast_toNatClampNeg i (Int32.le_iff_toInt_le.2 hindex)
  unfold Setting.copy
  dsimp only
  split
  · rename_i hreadable
    have hlength := length_cutOff_le c.newString.chars i.toNatClampNeg ch.copied
    refine (store_room hblock ?_).bind fun heap hlens => ?_
    · omega
    -- the device after the copy that has failed
    let v : World := ⟨{ w.state with heap := heap }, w.asleep⟩
    have hv : Sound v := by
      refine ⟨hsound.housed.of_same hlens (fun _ => rfl) fun _ => rfl, fun y hy => ?_⟩
      exact (hsound.asleep y hy).congr hlens fun _ => rfl
    rw [freeString_eq (hv.housed.freeable c.minor)]
    refine .ok ?_
    rw [modData_modData]
    have hkeeps : Keeps v p (.done ⟨-EBADF, []⟩, { v.state with
        heap := v.state.heap.free (v.state.ourData c.minor).moduleString }.modData c.minor
          fun d => { d with moduleString := 0, stringSize := 0 }) :=
      hv.frees (hproceeds hreadable) (fun hstrands => hcramps ⟨hreadable, hstrands⟩) ⟨rfl, rfl⟩
        fun c' hc => by cases hc
    exact ⟨hkeeps.housed, hkeeps.others, hkeeps.own⟩
  · have hlength := List.length_take_le i.toNatClampNeg c.newString.chars
    refine (store_room hblock ?_).bind fun heap hlens => ?_
    · omega
    let u : State := { w.state with heap := heap }
    have hstring' : u.Room (u.ourData c.minor).moduleString i := hstring.mono (congrFun hlens _)
    refine (store_room hstring' ?_).bind fun heap' hlens' => ?_
    · rw [List.length_singleton]
      omega
    have hsame : ∀ f, ({ w.state with heap := heap' }.modData c.minor f).lens = w.state.lens :=
      fun f => hlens'.trans hlens
    have hkept := modData_field { w.state with heap := heap' } c.minor (f := fun d => { d with stringSize := i })
      Data.moduleString fun _ => rfl
    obtain ⟨n, hn, hlt⟩ := hstring
    refine .ok ⟨?_, fun y hy _ => (hsound.asleep y hy).congr (hsame _) hkept, fun c' hc => by cases hc⟩
    have hother : ∀ m' ≠ c.minor, ({ w.state with heap := heap' }.modData c.minor
        fun d => { d with stringSize := i }).ourData m' = w.state.ourData m' :=
      fun m' hm => modData_other _ hm _
    apply hsound.housed.change (m := c.minor)
    · exact fun m' _ => hkept m'
    · exact fun m' hm => congrArg Data.stringSize (hother m' hm)
    · exact fun m' _ _ => congrFun (hsame _) _
    · rw [modData_self]
      refine Or.inr ⟨n, (congrFun (hsame _) _).trans hn, hindex, ?_⟩
      change i.toInt ≤ n
      omega
    · rw [modData_self]
      intro hne m' hm heq
      exact hm (hsound.housed.apart m' c.minor heq (heq ▸ hne))

/-! ### All steps -/

theorem whole_keeps {E : Trap → Prop} {e : Event} {reply : Reply} (hcall : call w.state e = .ok (reply, t))
    (hkeeps : Keeps w p (.done reply, t)) : Outcome E (Keeps w p) (whole w.state e) := by
  rw [whole, hcall]
  exact .ok hkeeps

theorem Sound.call_start (hsound : Sound w) {f : FileId} {file : File} (hfile : w.state.file f = some file) {c : Call}
    (hopens : w.Opens p (w.state.ourData file.minor) file.fPos c) (htakes : ¬w.Takes p file.minor c) :
    Outcome (· = .device .hang) (Keeps w p) (c.start f file w.state) := by
  cases c with
  | read buf count stray => exact hsound.startRead f true file.minor hopens
  | pread buf count pos stray =>
      unfold Call.start
      dsimp only
      split
      · exact .ok (hsound.quiet rfl (fun _ => rfl) (fun _ => rfl) fun c hc => by cases hc)
      · rename_i hneg
        exact hsound.startRead f false file.minor (hopens (Int64.not_lt.1 hneg))
  | write count =>
      apply whole_keeps (call_of_file hfile _)
      have hstring := modData_field w.state file.minor
        (f := fun d => (myWrite count d).2) Data.moduleString fun _ => rfl
      have hsize := modData_field w.state file.minor (f := fun d => (myWrite count d).2) Data.stringSize fun _ => rfl
      exact hsound.quiet rfl hstring hsize fun c hc => by cases hc
  | llseek shift mode =>
      apply whole_keeps (call_of_file hfile _)
      exact hsound.quiet rfl (fun _ => rfl) (fun _ => rfl) fun c hc => by cases hc
  | ioctl cmd newString mem junk =>
      unfold Call.start
      dsimp only
      split
      · rename_i hcmd
        refine (hsound.startSet f (hopens.1 hcmd) fun hsome hstrands => ?_).mapError fun _ h => h.elim
        exact htakes ⟨Or.inl ⟨hcmd, hsome⟩, hstrands⟩
      · rename_i hset
        by_cases hreset : cmd = RESET
        · have hcall : call w.state (.call f (.ioctl cmd newString mem junk)) = .ok (⟨0, []⟩,
              { w.state with heap := w.state.heap.free (w.state.ourData file.minor).moduleString }.modData file.minor
                fun d => { d with moduleString := 0, maxSize := 0, stringSize := 0 }) := by
            rw [call_of_file hfile, Call.run, myIoctl, if_neg hset, if_pos hreset,
              reset_eq (hsound.housed.freeable file.minor)]
            rfl
          apply whole_keeps hcall
          exact hsound.frees (hopens.2 hreset) (fun hstrands => htakes ⟨Or.inr hreset, hstrands⟩) ⟨rfl, rfl⟩
            fun c hc => by cases hc
        · have hcall : call w.state (.call f (.ioctl cmd newString mem junk)) = .ok (⟨-ENOTTY, []⟩, w.state) := by
            rw [call_of_file hfile, Call.run, myIoctl, if_neg hset, if_neg hreset]
            rfl
          apply whole_keeps hcall
          exact hsound.quiet rfl (fun _ => rfl) (fun _ => rfl) fun c hc => by cases hc
  | release =>
      apply whole_keeps (call_of_file hfile _)
      exact hsound.quiet rfl (fun _ => rfl) (fun _ => rfl) fun c hc => by cases hc

theorem Sound.start (hsound : Sound w) {e : Event} (hadmits : w.Admits e) (hcareful : w.Careful (.start p e)) :
    Outcome (· = .device .hang) (Keeps w p) (start w.state e) := by
  cases e with
  | opening f m memory =>
      have hcall : call w.state (.opening f m memory) = .ok (⟨(myOpen f m memory w.state).1, []⟩,
        (myOpen f m memory w.state).2) := rfl
      apply whole_keeps hcall
      have hframe := myOpen_frame w.state f m memory
      refine hsound.quiet ?_ (fun m' => (hframe.2 m').1) (fun m' => (hframe.2 m').2.2) fun c hc => by cases hc
      rw [State.lens, hframe.1]
      rfl
  | call f c =>
      have hopen : w.state.file f ≠ none := by
        cases c with
        | release => exact hadmits.1
        | read | pread | write | llseek | ioctl => exact hadmits
      obtain ⟨file, hfile⟩ := Option.ne_none_iff_exists'.1 hopen
      rw [start_call hfile]
      exact hsound.call_start hfile (hcareful.1 file hfile) fun htakes => hcareful.2 ⟨file, hfile, htakes⟩

theorem mem_of_lookup {c : Progress} (hp : w.asleep.lookup p = some c) : (p, c) ∈ w.asleep := by
  obtain ⟨l₁, l₂, hl, -⟩ := List.lookup_eq_some_iff.1 hp
  rw [hl]
  exact List.mem_append_right _ List.mem_cons_self

theorem Sound.resume (hsound : Sound w) {ch : Chance} {c : Progress} (hp : w.asleep.lookup p = some c)
    (hallows : w.Allows ch c) (hcareful : w.Careful (.resume p ch)) :
    Outcome (fun _ => False) (Keeps w p) (c.resume ch w.state) := by
  have hfits := hsound.asleep _ (mem_of_lookup hp)
  have hcramps : ¬w.Cramps p ch c := fun h => hcareful.2 ⟨c, hp, h⟩
  cases c with
  | reading r => exact .ok (hsound.resume_reading hfits ch.stray)
  | scanning c i chars => exact .ok (hsound.scan c hfits hallows hcramps)
  | copying c i dst => exact hsound.copy c hfits (hcareful.1 _ hp) hcramps

/-- An act that meets the condition is carried out, unless it is a read that never returns. -/
theorem step_sound {a : Act} (hsound : Sound w) (henabled : w.Enabled a) (hcareful : w.Careful a) :
    Outcome (· = .device .hang) Sound (w.step a) := by
  cases a with
  | start p e => exact (hsound.start henabled.2 hcareful).bind fun x hx => .ok hx.settle
  | resume p ch =>
      obtain ⟨c, hp, hallows⟩ := henabled
      rw [World.step, hp]
      have hresume := hsound.resume hp hallows hcareful
      exact (hresume.imp (fun _ h => h.elim) fun x hx => hx).bind fun x hx => .ok hx.settle

end Keeps

/-! ### The condition is needed -/

section Needed

variable {w w' : World} {p : Pid} {m : Minor}

theorem mem_settle {x : Stage × State} {y : Pid × Progress} (hy : y ∈ w.asleep) (hne : y.1 ≠ p) :
    y ∈ (w.settle p x).asleep := by
  have hfilter : y ∈ w.asleep.filter (·.1 ≠ p) := List.mem_filter.2 ⟨hy, decide_eq_true hne⟩
  obtain ⟨stage, t⟩ := x
  cases stage with
  | asleep c => exact List.mem_cons_of_mem _ hfilter
  | done reply => exact hfilter

theorem settle_state (w : World) (p : Pid) (x : Stage × State) : (w.settle p x).state = x.2 := by
  obtain ⟨stage, t⟩ := x
  cases stage with
  | asleep c => rfl
  | done reply => rfl

/-- A block that has been freed was being read by no other process. -/
theorem not_borrowed_of_free {x : Stage × State} (hguarded : (w.settle p x).Guarded) {a : Addr}
    (hfree : x.2.heap.cells a = none) : ¬w.Borrowed p a := by
  rintro ⟨⟨q, c⟩, hy, hne, hholds⟩
  cases c with
  | reading r =>
      obtain ⟨bytes, hcell, -⟩ := hguarded.inside q r (mem_settle hy hne)
      rw [settle_state, show r.moduleString = a from hholds, hfree] at hcell
      cases hcell
  | scanning c i chars => exact hholds
  | copying c i dst => exact hholds

theorem starts_of_guarded (hsound : Sound w) {f : FileId} {shared : Bool} {buf : Option UserBuf} {count : UInt32}
    {fPos : Int64} {x : Stage × State}
    (hstart : startRead f shared (w.state.ourData m) buf count fPos w.state = .ok x)
    (hguarded : (w.settle p x).Guarded) : Starts (w.state.ourData m) buf count fPos := by
  intro hrefused hmore
  cases buf with
  | none => exact absurd trivial hrefused
  | some buf =>
      by_contra hneg
      have hlt : fPos.toInt32.toInt < (w.state.ourData m).stringSize.toInt := by
        have hnonneg := hsound.housed.size_nonneg m
        omega
      have haccess : buf.accessOk ≠ false := hrefused
      have hreduce : reduce (w.state.ourData m).stringSize loopBound fPos.toInt32 = some fPos.toInt32 :=
        reduce_of_lt hlt _
      rw [startRead, if_neg haccess, hreduce] at hstart
      dsimp only at hstart
      rw [Reading.test, if_pos hmore] at hstart
      cases hstart
      obtain ⟨bytes, -, hpos, -⟩ := hguarded.inside p _ List.mem_cons_self
      exact hneg (Int32.le_iff_toInt_le.1 hpos)

theorem opens_of_guarded (hsound : Sound w) {f : FileId} {file : File} (hfile : w.state.file f = some file) {c : Call}
    {x : Stage × State} (hstart : c.start f file w.state = .ok x) (hguarded : (w.settle p x).Guarded) :
    w.Opens p (w.state.ourData file.minor) file.fPos c := by
  cases c with
  | read buf count stray => exact starts_of_guarded hsound hstart hguarded
  | pread buf count pos stray =>
      intro hpos
      exact starts_of_guarded hsound ((if_neg (Int64.not_lt.2 hpos)).symm.trans hstart) hguarded
  | ioctl cmd newString mem junk =>
      constructor
      · rintro rfl hsome
        obtain ⟨arg, rfl⟩ := Option.isSome_iff_exists.1 hsome
        rw [Call.start, if_pos rfl, startSet, freeString_eq (hsound.housed.freeable file.minor)] at hstart
        cases hstart
        refine ⟨?_, not_borrowed_of_free hguarded (Function.update_self _ _ _)⟩
        have hcleared := hguarded.cleared file.minor
        rw [settle_state, modData_self] at hcleared
        exact hcleared rfl
      · rintro rfl
        rw [Call.start, if_neg (by decide), whole, call_of_file hfile] at hstart
        dsimp only [Call.run] at hstart
        rw [myIoctl, if_neg (by decide), if_pos rfl, reset_eq (hsound.housed.freeable file.minor)] at hstart
        cases hstart
        exact not_borrowed_of_free hguarded (Function.update_self _ _ _)
  | write count => trivial
  | llseek shift mode => trivial
  | release => trivial

theorem proceeds_of_guarded (hsound : Sound w) {ch : Chance} {c : Progress} {x : Stage × State}
    (hresume : c.resume ch w.state = .ok x) (hguarded : (w.settle p x).Guarded) : w.Proceeds p c := by
  cases c with
  | reading r => trivial
  | scanning c i chars => trivial
  | copying c i dst =>
      intro hreadable
      change c.copy ch i dst w.state = .ok x at hresume
      unfold Setting.copy at hresume
      dsimp only at hresume
      rw [if_pos hreadable] at hresume
      obtain ⟨heap, hstore, hfree⟩ := bind_eq_ok.1 hresume
      have hlens := ((store_outcome dst 0 _ w.state.heap).of_ok hstore)
      have hhoused : Housed { w.state with heap := heap } :=
        hsound.housed.of_same hlens (fun _ => rfl) fun _ => rfl
      rw [freeString_eq (hhoused.freeable c.minor)] at hfree
      cases hfree
      exact not_borrowed_of_free hguarded (Function.update_self _ _ _)

theorem gentle_of_guarded {a : Act} (hsound : Sound w) (hstep : sleeping.Step w a w') (hguarded : w'.Guarded) :
    w.Gentle a := by
  cases a with
  | start p e =>
      obtain ⟨x, hx, hdone⟩ := bind_eq_ok.1 hstep.2
      cases hdone
      cases e with
      | opening f m memory => trivial
      | call f c =>
          intro file hfile
          rw [start_call hfile] at hx
          exact opens_of_guarded hsound hfile hx hguarded
  | resume p ch =>
      intro c hp
      have hrun := hstep.2
      change World.step w (.resume p ch) = .ok w' at hrun
      rw [World.step, show w.asleep.lookup p = some c from hp] at hrun
      obtain ⟨x, hx, hdone⟩ := bind_eq_ok.1 hrun
      cases hdone
      exact proceeds_of_guarded hsound hx hguarded

end Needed

/-- Reads and controls that overlap. In every run whose acts meet the condition, a read that is asleep copies its next
byte from an allocated block, and a minor without a block has the size 0. The next act that meets it is carried
out, unless it is a read that never returns. An act that does not meet it breaks the two properties, unless it
undermines calls that follow. -/
theorem reads_survive {w : World} (hreach : (sleeping.restrict World.Careful).Reachable (· = idle) w) :
    w.Guarded ∧
    (∀ a, sleeping.enabled w a → w.Careful a →
      (∃ w', sleeping.Step w a w') ∨ sleeping.step w a = .error (.device .hang)) ∧
    ∀ a w', sleeping.Step w a w' → ¬w.Undermines a → (w'.Guarded ↔ w.Careful a) := by
  have hsound : Sound w := by
    refine hreach.invariant ?_ fun w a w' _ hsound hstep => ?_
    · rintro w rfl
      exact ⟨initModule_housed, fun x hx => absurd hx List.not_mem_nil⟩
    · obtain ⟨hcareful, hstep⟩ := Machine.restrict_step.1 hstep
      exact (step_sound hsound hstep.1 hcareful).of_ok hstep.2
  refine ⟨hsound.guarded, fun a henabled hcareful => ?_, fun a w' hstep hundermines =>
    ⟨fun hguarded => ?_, fun hcareful => ?_⟩⟩
  · have houtcome := step_sound hsound henabled hcareful
    cases hstep : w.step a with
    | error f => exact Or.inr (hstep.trans (congrArg Except.error (houtcome.of_error hstep)))
    | ok w' => exact Or.inl ⟨w', henabled, hstep⟩
  · exact ⟨gentle_of_guarded hsound hstep hguarded, hundermines⟩
  · exact ((step_sound hsound hstep.1 hcareful).of_ok hstep.2).guarded

/-- The read that the process is asleep in. -/
def World.reading (w : World) (p : Pid) : Option Reading :=
  match w.asleep.lookup p with
  | some (.reading r) => some r
  | _ => none

theorem mem_of_reading {w : World} {p : Pid} {r : Reading} (h : w.reading p = some r) : (p, .reading r) ∈ w.asleep := by
  unfold World.reading at h
  split at h
  · rename_i hp
    cases h
    exact mem_of_lookup hp
  · cases h

/-- The string is set and a read of it begins while the other process writes; one byte has been copied. -/
def overlapActs : List Act :=
  [.start 1 (.opening 0 firstMinor true), .start 1 (.call 0 (.ioctl SET_STRING (some abc) 0 fun _ => 0)),
    .start 2 (.opening 1 firstMinor true), .resume 1 (.sets 0 fun _ => 0), .start 2 (.call 1 (.write 5)),
    .resume 1 (.sets 0 fun _ => 0), .resume 1 (.sets 0 fun _ => 0), .resume 1 (.sets 1 fun _ => 9),
    .start 2 (.call 1 (.llseek 1 0)), .resume 1 (.sets 0 fun _ => 0),
    .start 2 (.call 1 (.read (some openBuf) 3 fun _ => none)), .start 1 (.call 0 (.write 2)),
    .resume 2 (.reads fun _ => none)]

def overlap : World := (sleeping.restrict World.Careful).after idle overlapActs

theorem reads_survive_overlap :
    (sleeping.restrict World.Careful).Run idle overlapActs overlap ∧
    (overlap.reading 2).map Reading.stringPos = some 2 ∧
      overlap.Guarded := by
  have hrun : (sleeping.restrict World.Careful).Run idle overlapActs overlap := Machine.run_after (by decide +kernel)
  exact ⟨hrun, by decide +kernel, (reads_survive ⟨_, _, rfl, hrun⟩).1⟩

/-- The first process sets the string again, while the read is asleep. -/
def clashActs : List Act := overlapActs ++ [.start 1 (.call 0 (.ioctl SET_STRING (some abc) 0 fun _ => 0))]

def clash : World := sleeping.after idle clashActs

/-- The read goes on with a block that is free, and the minor has a size without a string. -/
theorem clash_not_guarded : sleeping.Run idle clashActs clash ∧
    (∃ r, (2, .reading r) ∈ clash.asleep ∧ clash.state.heap.cells r.moduleString = none) ∧
    (clash.state.ourData firstMinor).moduleString = 0 ∧ (clash.state.ourData firstMinor).stringSize = 3 ∧
    ¬clash.Guarded := by
  have hread : (clash.reading 2).map (fun r => clash.state.heap.cells r.moduleString) = some none := by decide +kernel
  obtain ⟨r, hr, hfree⟩ := Option.map_eq_some_iff.1 hread
  refine ⟨Machine.run_after (by decide +kernel), ⟨r, mem_of_reading hr, hfree⟩, by decide +kernel, by decide +kernel,
    fun hguarded => ?_⟩
  obtain ⟨bytes, hcell, -⟩ := hguarded.inside 2 r (mem_of_reading hr)
  rw [hfree] at hcell
  cases hcell

end MagicKernel.Repeated
