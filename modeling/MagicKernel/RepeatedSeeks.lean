import MagicKernel.RepeatedSizes

/-! Seeks. A seek goes to the sum of the position and the shift, or to the nearer end of the range, as long as
the sum is a `loff_t`. The first clamp looks at the sum as it has come out: one that has overflowed is
negative, and the seek goes to 0 instead of `max_size`. -/

namespace MagicKernel.Repeated

open FaultMachine MachineInts

/-- The position `x`, or the nearer end of what lies between 0 and `w`. -/
def clamp (w x : Int) : Int := max 0 (min x w)

section Clamp

variable {w x a b : Int}

/-- Shifts in one direction may be clamped one by one. -/
theorem clamp_clamp_add (hx : 0 ≤ x) (hxw : x ≤ w) (hsign : (0 ≤ a ∧ 0 ≤ b) ∨ (a ≤ 0 ∧ b ≤ 0)) :
    clamp w (clamp w (x + a) + b) = clamp w (x + (a + b)) := by
  simp only [clamp]
  rcases hsign with ⟨ha, hb⟩ | ⟨ha, hb⟩
  · omega
  · omega

end Clamp

section Seek

variable {d : Data} {fPos shift : Int64}

/-- A sum that overflows comes out negative. -/
theorem toInt_add_overflow (hpos : 0 ≤ fPos.toInt) (hle : fPos.toInt < 2 ^ 62)
    (hsum : 2 ^ 63 ≤ fPos.toInt + shift.toInt) :
    (fPos + shift).toInt < 0 := by
  have hlt := shift.toInt_lt
  rw [Int64.toInt_add, Int.bmod_def]
  split <;> omega

theorem myLlseek_overflow (hpos : 0 ≤ fPos.toInt) (hle : fPos.toInt ≤ d.maxSize.toInt)
    (hsum : 2 ^ 63 ≤ fPos.toInt + shift.toInt) : (myLlseek d fPos shift).toInt = 0 := by
  have hlt := d.maxSize.toInt_lt
  have hneg := toInt_add_overflow hpos (by omega) hsum
  have hend : d.maxSize.toInt64.toInt = d.maxSize.toInt := Int32.toInt_toInt64 _
  have hzero : (0 : Int64).toInt = 0 := rfl
  rw [myLlseek]
  simp only [ge_iff_le, Int64.le_iff_toInt_le, hend, hzero]
  have hbelow : ¬d.maxSize.toInt ≤ (fPos + shift).toInt := by omega
  rw [if_neg hbelow, if_pos (Int.le_of_lt hneg)]
  exact hzero

theorem myLlseek_clamp (hpos : 0 ≤ fPos.toInt) (hle : fPos.toInt ≤ d.maxSize.toInt)
    (hsum : fPos.toInt + shift.toInt < 2 ^ 63) :
    (myLlseek d fPos shift).toInt = clamp d.maxSize.toInt (fPos.toInt + shift.toInt) := by
  have hmax : d.maxSize.toInt = d.maxSize.toInt.toNat := by omega
  have hq : fPos.toInt = fPos.toInt.toNat := by omega
  have hshift := shift.le_toInt
  rw [clamp, toInt_myLlseek hmax hq (by omega) (by omega), ← hq, ← hmax]

/-- Where a seek goes, in either case. -/
theorem toInt_myLlseek_eq (shift : Int64) (hpos : 0 ≤ fPos.toInt) (hle : fPos.toInt ≤ d.maxSize.toInt) :
    (myLlseek d fPos shift).toInt =
      if fPos.toInt + shift.toInt < 2 ^ 63 then clamp d.maxSize.toInt (fPos.toInt + shift.toInt) else 0 := by
  split
  · rename_i hsum
    exact myLlseek_clamp hpos hle hsum
  · rename_i hsum
    exact myLlseek_overflow hpos hle (Int.not_lt.1 hsum)

theorem myLlseek_clamp_iff (hpos : 0 ≤ fPos.toInt) (hle : fPos.toInt ≤ d.maxSize.toInt) :
    (myLlseek d fPos shift).toInt = clamp d.maxSize.toInt (fPos.toInt + shift.toInt) ↔
      fPos.toInt + shift.toInt < 2 ^ 63 := by
  refine ⟨fun heq => ?_, myLlseek_clamp hpos hle⟩
  by_contra hsum
  rw [myLlseek_overflow hpos hle (Int.not_lt.1 hsum), clamp] at heq
  have hlt := shift.toInt_lt
  have hmax := d.maxSize.toInt_lt
  omega

/-- Two seeks and one. If the sum of both shifts overflows, the one seek goes to 0, and the two do so only if
the second of them overflows or has nothing to add. -/
theorem myLlseek_twice_iff {a b c : Int64} (hpos : 0 ≤ fPos.toInt) (hle : fPos.toInt ≤ d.maxSize.toInt)
    (hsign : (0 ≤ a.toInt ∧ 0 ≤ b.toInt) ∨ (a.toInt ≤ 0 ∧ b.toInt ≤ 0)) (hc : c.toInt = a.toInt + b.toInt) :
    myLlseek d (myLlseek d fPos a) b = myLlseek d fPos c ↔
      fPos.toInt + a.toInt + b.toInt < 2 ^ 63 ∨ b = 0 ∨
        (fPos.toInt + a.toInt < 2 ^ 63 ∧ 2 ^ 63 ≤ min (fPos.toInt + a.toInt) d.maxSize.toInt + b.toInt) := by
  have hw : 0 ≤ d.maxSize.toInt := Int.le_trans hpos hle
  obtain ⟨hfirst, hfirst'⟩ := myLlseek_within fPos a hw
  have hone := toInt_myLlseek_eq c hpos hle
  have htwo := toInt_myLlseek_eq b hfirst hfirst'
  have hmid := toInt_myLlseek_eq a hpos hle
  have hblt := b.toInt_lt
  have hclt := c.toInt_lt
  have hmax := d.maxSize.toInt_lt
  have hb : b = 0 ↔ b.toInt = 0 := by
    rw [← Int64.toInt_inj]
    exact Iff.rfl
  rw [← Int64.toInt_inj, hone, htwo, hc, hb]
  have hmerge := clamp_clamp_add (w := d.maxSize.toInt) hpos hle hsign
  simp only [clamp] at hmid hmerge ⊢
  by_cases hsum : fPos.toInt + (a.toInt + b.toInt) < 2 ^ 63
  · -- no sum overflows
    have ha : fPos.toInt + a.toInt < 2 ^ 63 := by omega
    rw [if_pos ha] at hmid
    rw [if_pos hsum, if_pos (by omega), hmid]
    exact iff_of_true hmerge (Or.inl (by omega))
  · have hright : 0 < fPos.toInt ∧ 0 ≤ a.toInt ∧ 0 ≤ b.toInt := by omega
    rw [if_neg hsum]
    by_cases ha : fPos.toInt + a.toInt < 2 ^ 63
    · rw [if_pos ha] at hmid
      rw [hmid]
      split <;> omega
    · rw [if_neg ha] at hmid
      rw [hmid, if_pos (by omega)]
      omega

end Seek

/-! ### Seeks of an open file -/

/-- A seek leaves the file at `x`, and returns it. -/
def SeeksTo (s : State) (f : FileId) (shift : Int64) (mode : Int32) (x : Int) : Prop :=
  ∃ t file, call s (.call f (.llseek shift mode)) = .ok (⟨x, []⟩, t) ∧ t.file f = some file ∧ file.fPos.toInt = x

section Files

variable {s : State} {f : FileId} {file : File}

theorem call_llseek (hfile : s.file f = some file) (shift : Int64) (mode : Int32) :
    call s (.call f (.llseek shift mode)) =
      .ok (⟨(myLlseek (s.ourData file.minor) file.fPos shift).toInt, []⟩,
        s.setPos f (myLlseek (s.ourData file.minor) file.fPos shift)) := by
  rw [call_of_file hfile]
  rfl

theorem setPos_file_self (hfile : s.file f = some file) (fPos : Int64) :
    (s.setPos f fPos).file f = some { file with fPos := fPos } := by
  show Function.update s.file f _ f = _
  rw [Function.update_self, hfile]
  rfl

theorem step_llseek (hfile : s.file f = some file) (shift : Int64) (mode : Int32) :
    machine.Step s (.call f (.llseek shift mode)) (s.setPos f (myLlseek (s.ourData file.minor) file.fPos shift)) := by
  constructor
  · show Enabled s (.call f (.llseek shift mode))
    rw [Enabled, hfile]
    trivial
  · show step s (.call f (.llseek shift mode)) = _
    rw [step, call_llseek hfile]
    rfl

theorem seeksTo_iff (hfile : s.file f = some file) (shift : Int64) (mode : Int32) (x : Int) :
    SeeksTo s f shift mode x ↔ (myLlseek (s.ourData file.minor) file.fPos shift).toInt = x := by
  rw [SeeksTo, call_llseek hfile]
  constructor
  · rintro ⟨t, file', hcall, -, -⟩
    obtain ⟨hreply, -⟩ := Prod.mk.inj (Except.ok.inj hcall)
    exact (Reply.mk.inj hreply).1
  · rintro rfl
    exact ⟨_, _, rfl, setPos_file_self hfile _, rfl⟩

end Files

/-- Seeks of a file within the range. One leaves the file at the exact sum, or at the nearer end, and returns
that, if and only if the sum does not overflow. Two in one direction come to the same as one if the sum of
all three does not; otherwise the one goes to 0, and so do the two only if the second also overflows or has
nothing to add. -/
theorem seeks_saturate_iff {s : State} {f : FileId} {file : File} (hfile : s.file f = some file)
    (hpos : 0 ≤ file.fPos.toInt) (hle : file.fPos.toInt ≤ (s.ourData file.minor).maxSize.toInt) :
    (∀ shift mode, SeeksTo s f shift mode
        (clamp (s.ourData file.minor).maxSize.toInt (file.fPos.toInt + shift.toInt)) ↔
      file.fPos.toInt + shift.toInt < 2 ^ 63) ∧
    ∀ (a b c : Int64) (mode mode' mode'' : Int32),
      (0 ≤ a.toInt ∧ 0 ≤ b.toInt) ∨ (a.toInt ≤ 0 ∧ b.toInt ≤ 0) → c.toInt = a.toInt + b.toInt →
      ∃ u v, machine.Run s [.call f (.llseek a mode), .call f (.llseek b mode')] u ∧
        machine.Run s [.call f (.llseek c mode'')] v ∧
        (u.file f = v.file f ↔ file.fPos.toInt + a.toInt + b.toInt < 2 ^ 63 ∨ b = 0 ∨
          (file.fPos.toInt + a.toInt < 2 ^ 63 ∧
            2 ^ 63 ≤ min (file.fPos.toInt + a.toInt) (s.ourData file.minor).maxSize.toInt + b.toInt)) := by
  refine ⟨fun shift mode => ?_, fun a b c mode mode' mode'' hsign hc => ?_⟩
  · rw [seeksTo_iff hfile]
    exact myLlseek_clamp_iff hpos hle
  · let d := s.ourData file.minor
    let mid := s.setPos f (myLlseek d file.fPos a)
    have hmid : mid.file f = some { file with fPos := myLlseek d file.fPos a } := setPos_file_self hfile _
    refine ⟨mid.setPos f (myLlseek d (myLlseek d file.fPos a) b), s.setPos f (myLlseek d file.fPos c),
      .cons (step_llseek hfile a mode) (.cons (step_llseek hmid b mode') (.nil _)),
      .cons (step_llseek hfile c mode'') (.nil _), ?_⟩
    rw [setPos_file_self hmid, setPos_file_self hfile, ← myLlseek_twice_iff hpos hle hsign hc]
    constructor
    · intro heq
      exact congrArg File.fPos (Option.some.inj heq)
    · intro heq
      rw [heq]

/-- Seven bytes are written, and the file stands at 3. -/
def soughtEvents : List Event := abcEvents ++ [.call 0 (.llseek 3 0)]

def sought : State := machine.after initModule soughtEvents

theorem sought_reachable : machine.Reachable (· = initModule) sought :=
  ⟨initModule, _, rfl, Machine.run_after (by decide +kernel)⟩

theorem seeks_saturate_iff_sought :
    machine.Reachable (· = initModule) sought ∧ sought.file 0 = some ⟨firstMinor, 3⟩ ∧
      (sought.ourData firstMinor).maxSize = 7 ∧ SeeksTo sought 0 (-10) 1 0 ∧ SeeksTo sought 0 9223372036854775804 0 7 ∧
      ∃ u v, machine.Run sought [.call 0 (.llseek 2 0), .call 0 (.llseek 9 0)] u ∧
        machine.Run sought [.call 0 (.llseek 11 0)] v ∧ u.file 0 = v.file 0 := by
  have hfile : sought.file 0 = some ⟨firstMinor, 3⟩ := by decide +kernel
  have hmax : (sought.ourData firstMinor).maxSize = 7 := by decide +kernel
  have hle : (3 : Int64).toInt ≤ (sought.ourData firstMinor).maxSize.toInt := by
    rw [hmax]
    decide
  obtain ⟨hone, htwo⟩ := seeks_saturate_iff hfile (by decide) hle
  refine ⟨sought_reachable, hfile, hmax, ?_, ?_, ?_⟩
  · have hback := (hone (-10) 1).2 (by decide)
    rw [hmax] at hback
    exact hback
  · have hfar := (hone 9223372036854775804 0).2 (by decide)
    rw [hmax] at hfar
    exact hfar
  · obtain ⟨u, v, hu, hv, hiff⟩ := htwo 2 9 11 0 0 0 (Or.inl (by decide)) (by decide)
    exact ⟨u, v, hu, hv, hiff.2 (Or.inl (by decide))⟩

/-- A seek by the largest shift goes back to the start, where one to the end of the range would do. -/
theorem sought_wraps :
    machine.Reachable (· = initModule) sought ∧ sought.file 0 = some ⟨firstMinor, 3⟩ ∧
      (sought.ourData firstMinor).maxSize = 7 ∧
      clamp (sought.ourData firstMinor).maxSize.toInt (3 + (9223372036854775807 : Int64).toInt) = 7 ∧
      SeeksTo sought 0 9223372036854775807 0 0 ∧ ¬SeeksTo sought 0 9223372036854775807 0 7 ∧
      ∃ u v, machine.Run sought [.call 0 (.llseek 9223372036854775804 0), .call 0 (.llseek 3 0)] u ∧
        machine.Run sought [.call 0 (.llseek 9223372036854775807 0)] v ∧
        u.file 0 = some ⟨firstMinor, 7⟩ ∧ v.file 0 = some ⟨firstMinor, 0⟩ := by
  have hfile : sought.file 0 = some ⟨firstMinor, 3⟩ := by decide +kernel
  have hmax : (sought.ourData firstMinor).maxSize = 7 := by decide +kernel
  refine ⟨sought_reachable, hfile, hmax, ?_, ?_, ?_, ?_⟩
  · rw [hmax]
    decide
  · rw [seeksTo_iff hfile]
    decide +kernel
  · rw [seeksTo_iff hfile]
    decide +kernel
  · exact ⟨_, _, Machine.run_after (M := machine) (by decide +kernel),
      Machine.run_after (M := machine) (by decide +kernel), by decide +kernel, by decide +kernel⟩

end MagicKernel.Repeated
