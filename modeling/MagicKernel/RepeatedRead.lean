import MagicKernel.MachineInts
import MagicKernel.RepeatedStrings

/-! The two loops of `my_read`: when they end, and which bytes of the string they go through. The first finds
the position within the string by subtraction, and never ends if the string is empty; both work on a
position narrowed from 64 to 32 bits. -/

namespace MagicKernel.Repeated

open FaultMachine BlockHeap MachineInts

/-! ### The position within the string -/

section Reduce

variable {stringSize leftover : Int32}

theorem reduce_of_lt (h : leftover.toInt < stringSize.toInt) (fuel : Nat) :
    reduce stringSize (fuel + 1) leftover = some leftover := by
  rw [reduce, if_neg]
  intro hge
  exact absurd (Int32.le_iff_toInt_le.1 hge) (Int.not_le.2 h)

/-- Nothing is subtracted in any round. -/
theorem reduce_zero (h : 0 ≤ leftover.toInt) (fuel : Nat) : reduce 0 fuel leftover = none := by
  induction fuel with
  | zero => rfl
  | succ fuel ih =>
      have hge : leftover ≥ 0 := Int32.le_iff_toInt_le.2 h
      rw [reduce, if_pos hge, Int32.sub_zero]
      exact ih

theorem reduce_mod {fuel : Nat} (leftover : Int32) (hsize : 0 < stringSize.toInt) (hpos : 0 ≤ leftover.toInt)
    (hfuel : leftover.toInt < fuel) :
    ∃ r, reduce stringSize fuel leftover = some r ∧ r.toInt = leftover.toInt % stringSize.toInt := by
  induction fuel generalizing leftover with
  | zero => omega
  | succ fuel ih =>
      by_cases hge : stringSize.toInt ≤ leftover.toInt
      · have hlt := leftover.toInt_lt
        have hsub : (leftover - stringSize).toInt = leftover.toInt - stringSize.toInt :=
          toInt_sub32 (by omega) (by omega)
        obtain ⟨r, hr, hmod⟩ := ih (leftover - stringSize) (by omega) (by omega)
        refine ⟨r, ?_, ?_⟩
        · rw [reduce, if_pos (Int32.le_iff_toInt_le.2 hge)]
          exact hr
        · rw [hmod, hsub, Int.sub_emod_right]
      · refine ⟨leftover, reduce_of_lt (Int.not_le.1 hge) fuel, ?_⟩
        exact (Int.emod_eq_of_lt hpos (Int.not_le.1 hge)).symm

/-- The first loop ends unless the string is empty. -/
theorem reduce_ends {fuel : Nat} (hsize : 0 ≤ stringSize.toInt) (h : stringSize ≠ 0 ∨ leftover.toInt < 0)
    (hfuel : 0 < fuel) (hbound : leftover.toInt < fuel) : ∃ r, reduce stringSize fuel leftover = some r := by
  by_cases hneg : leftover.toInt < 0
  · obtain ⟨fuel, rfl⟩ := Nat.exists_eq_succ_of_ne_zero (Nat.ne_of_gt hfuel)
    exact ⟨leftover, reduce_of_lt (Int.lt_of_lt_of_le hneg hsize) fuel⟩
  · have hne : stringSize.toInt ≠ 0 := fun heq => h.resolve_right hneg (Int32.toInt_inj.1 heq)
    have hpos : 0 < stringSize.toInt := by omega
    obtain ⟨r, hr, -⟩ := reduce_mod leftover hpos (Int.not_lt.1 hneg) hbound
    exact ⟨r, hr⟩

end Reduce

/-! ### The copies -/

section Copies

variable {string : Int32 → Option UInt8} {writable : Nat → Bool} {stringSize allowedBytes : Int32} {count : UInt32}
  {bytesRead stringPos : Int32}

/-- Whether there is another byte to copy. -/
abbrev More (allowedBytes : Int32) (count : UInt32) (bytesRead : Int32) : Prop :=
  bytesRead < allowedBytes ∧ bytesRead.toUInt32 < count

theorem copyLoop_stop (h : ¬More allowedBytes count bytesRead) (fuel : Nat) :
    copyLoop string writable stringSize allowedBytes count (fuel + 1) bytesRead stringPos =
      some (some bytesRead, []) := if_neg h

theorem copyLoop_fail (h : More allowedBytes count bytesRead)
    (hcopy : copyToUser (writable bytesRead.toNatClampNeg) (string stringPos) = none) (fuel : Nat) :
    copyLoop string writable stringSize allowedBytes count (fuel + 1) bytesRead stringPos =
      some (none, [⟨stringPos, none⟩]) := by
  unfold copyLoop
  rw [if_pos h, hcopy]

theorem copyLoop_next (h : More allowedBytes count bytesRead) {byte : UInt8}
    (hcopy : copyToUser (writable bytesRead.toNatClampNeg) (string stringPos) = some byte) (fuel : Nat) :
    copyLoop string writable stringSize allowedBytes count (fuel + 1) bytesRead stringPos =
      (copyLoop string writable stringSize allowedBytes count fuel (bytesRead + 1) (nextPos stringSize stringPos)).map
        fun x => (x.1, ⟨stringPos, some byte⟩ :: x.2) := by
  rw [copyLoop, if_pos h, hcopy]
  dsimp only [bind, Option.bind]
  split
  · rename_i hrest
    rw [hrest]
    rfl
  · rename_i hrest
    rw [hrest]
    rfl

/-- What a round of the loop does, if the loop ends. -/
theorem copyLoop_cases {fuel : Nat} {r : Option Int32} {copies : List Copy}
    (h : copyLoop string writable stringSize allowedBytes count (fuel + 1) bytesRead stringPos = some (r, copies)) :
    (¬More allowedBytes count bytesRead ∧ r = some bytesRead ∧ copies = []) ∨
    (More allowedBytes count bytesRead ∧ r = none ∧ copies = [⟨stringPos, none⟩] ∧
      copyToUser (writable bytesRead.toNatClampNeg) (string stringPos) = none) ∨
    ∃ byte rest, More allowedBytes count bytesRead ∧ copies = ⟨stringPos, some byte⟩ :: rest ∧
      copyToUser (writable bytesRead.toNatClampNeg) (string stringPos) = some byte ∧
      copyLoop string writable stringSize allowedBytes count fuel (bytesRead + 1) (nextPos stringSize stringPos) =
        some (r, rest) := by
  by_cases hmore : More allowedBytes count bytesRead
  · cases hcopy : copyToUser (writable bytesRead.toNatClampNeg) (string stringPos) with
    | none =>
        rw [copyLoop_fail hmore hcopy] at h
        cases h
        exact Or.inr (Or.inl ⟨hmore, rfl, rfl, rfl⟩)
    | some byte =>
        rw [copyLoop_next hmore hcopy] at h
        obtain ⟨x, hrest, hx⟩ := Option.map_eq_some_iff.1 h
        cases hx
        exact Or.inr (Or.inr ⟨byte, x.2, hmore, rfl, rfl, hrest⟩)
  · rw [copyLoop_stop hmore] at h
    cases h
    exact Or.inl ⟨hmore, rfl, rfl⟩

theorem toInt_nextPos (hpos : 0 ≤ stringPos.toInt) (hlt : stringPos.toInt < stringSize.toInt) :
    (nextPos stringSize stringPos).toInt = (stringPos.toInt + 1) % stringSize.toInt := by
  have hmax := stringSize.toInt_lt
  have hsucc : (stringPos + 1).toInt = stringPos.toInt + 1 := toInt_succ32 (by omega)
  rw [nextPos]
  split
  · rename_i hge
    have hle := Int32.le_iff_toInt_le.1 hge
    have hend : stringPos.toInt + 1 = stringSize.toInt := by omega
    rw [hend, Int.emod_self]
    rfl
  · rename_i hge
    have hnot : ¬stringSize.toInt ≤ (stringPos + 1).toInt := fun hle => hge (Int32.le_iff_toInt_le.2 hle)
    rw [hsucc, Int.emod_eq_of_lt (by omega) (by omega)]

/-- From a position inside the string the loop goes on inside it, and no further than it is allowed. -/
theorem copyLoop_inside {fuel : Nat} (bytesRead stringPos : Int32) {r : Option Int32} {copies : List Copy}
    (hread : 0 ≤ bytesRead.toInt) (hpos : 0 ≤ stringPos.toInt) (hlt : stringPos.toInt < stringSize.toInt)
    (h : copyLoop string writable stringSize allowedBytes count fuel bytesRead stringPos = some (r, copies))
    {k : Nat} {c : Copy} (hk : copies[k]? = some c) :
    0 ≤ c.stringPos.toInt ∧ c.stringPos.toInt < stringSize.toInt ∧ bytesRead.toInt + k < allowedBytes.toInt := by
  induction fuel generalizing bytesRead stringPos copies k with
  | zero => cases h
  | succ fuel ih =>
      have hmax := allowedBytes.toInt_lt
      rcases copyLoop_cases h with ⟨-, -, rfl⟩ | ⟨hmore, -, rfl, -⟩ | ⟨byte, rest, hmore, rfl, -, hrest⟩
      · cases hk
      · have hallowed := Int32.lt_iff_toInt_lt.1 hmore.1
        cases k with
        | zero =>
            cases hk
            exact ⟨hpos, hlt, by omega⟩
        | succ k => cases hk
      · have hallowed := Int32.lt_iff_toInt_lt.1 hmore.1
        cases k with
        | zero =>
            cases hk
            exact ⟨hpos, hlt, by omega⟩
        | succ k =>
            have hsucc : (bytesRead + 1).toInt = bytesRead.toInt + 1 := toInt_succ32 (by omega)
            have hnext := toInt_nextPos hpos hlt
            have hle := Int.emod_nonneg (stringPos.toInt + 1) (show stringSize.toInt ≠ 0 by omega)
            have hmod := Int.emod_lt_of_pos (stringPos.toInt + 1) (show 0 < stringSize.toInt by omega)
            obtain ⟨hge, hin, hbound⟩ := ih (bytesRead + 1) (nextPos stringSize stringPos) (by omega) (by omega)
              (by omega) hrest hk
            exact ⟨hge, hin, by omega⟩

/-- The first copy is made from where the loop starts. -/
theorem copyLoop_first {fuel : Nat} {r : Option Int32} {copies : List Copy}
    (h : copyLoop string writable stringSize allowedBytes count fuel bytesRead stringPos = some (r, copies))
    (hmore : More allowedBytes count bytesRead) :
    copies[0]? = some ⟨stringPos, copyToUser (writable bytesRead.toNatClampNeg) (string stringPos)⟩ := by
  cases fuel with
  | zero => cases h
  | succ fuel =>
      rcases copyLoop_cases h with ⟨hnot, -⟩ | ⟨-, -, rfl, hcopy⟩ | ⟨byte, rest, -, rfl, hcopy, -⟩
      · exact absurd hmore hnot
      · rw [hcopy]
        rfl
      · rw [hcopy]
        rfl

theorem copyLoop_of_not_more {fuel : Nat} {r : Option Int32} {copies : List Copy}
    (h : copyLoop string writable stringSize allowedBytes count fuel bytesRead stringPos = some (r, copies))
    (hmore : ¬More allowedBytes count bytesRead) : copies = [] := by
  cases fuel with
  | zero => cases h
  | succ fuel =>
      rw [copyLoop_stop hmore] at h
      cases h
      rfl

theorem copyLoop_unwritable {fuel : Nat} {r : Option Int32} {copies : List Copy}
    (h : copyLoop string writable stringSize allowedBytes count fuel bytesRead stringPos = some (r, copies))
    (hwritable : writable bytesRead.toNatClampNeg = false) {k : Nat} {c : Copy} (hk : copies[k]? = some c) :
    c = ⟨stringPos, none⟩ := by
  have hcopy : copyToUser (writable bytesRead.toNatClampNeg) (string stringPos) = none := by
    rw [hwritable]
    rfl
  cases fuel with
  | zero => cases h
  | succ fuel =>
      rcases copyLoop_cases h with ⟨-, -, rfl⟩ | ⟨-, -, rfl, -⟩ | ⟨byte, rest, -, -, hbyte, -⟩
      · cases hk
      · exact List.mem_singleton.1 (List.mem_of_getElem? hk)
      · rw [hcopy] at hbyte
        cases hbyte

theorem copyLoop_ends {fuel : Nat} (bytesRead stringPos : Int32) (hread : 0 ≤ bytesRead.toInt)
    (hfuel : allowedBytes.toInt < bytesRead.toInt + fuel) (hpos : 0 < fuel) :
    ∃ r copies, copyLoop string writable stringSize allowedBytes count fuel bytesRead stringPos = some (r, copies) := by
  induction fuel generalizing bytesRead stringPos with
  | zero => omega
  | succ fuel ih =>
      by_cases hmore : More allowedBytes count bytesRead
      · have hlt := Int32.lt_iff_toInt_lt.1 hmore.1
        have hmax := allowedBytes.toInt_lt
        have hsucc : (bytesRead + 1).toInt = bytesRead.toInt + 1 := toInt_succ32 (by omega)
        cases hcopy : copyToUser (writable bytesRead.toNatClampNeg) (string stringPos) with
        | none => exact ⟨_, _, copyLoop_fail hmore hcopy fuel⟩
        | some byte =>
            obtain ⟨r, copies, hrest⟩ :=
              ih (bytesRead + 1) (nextPos stringSize stringPos) (by omega) (by omega) (by omega)
            exact ⟨_, _, (copyLoop_next hmore hcopy fuel).trans (congrArg _ hrest)⟩
      · exact ⟨_, _, copyLoop_stop hmore fuel⟩

end Copies

/-! ### The whole call -/

/-- `my_read` returns before it comes to its loops. -/
def Refused : Option UserBuf → Prop
  | none => True
  | some buf => buf.accessOk = false

instance (buf : Option UserBuf) : Decidable (Refused buf) :=
  match buf with
  | none => .isTrue trivial
  | some buf => inferInstanceAs (Decidable (buf.accessOk = false))

/-- What the call makes of the result of its copying loop. -/
def outcome (fPos : Int64) : Option Int32 × List Copy → Int × Int64 × List Copy
  | (none, copies) => (-EBADF, fPos, copies)
  | (some bytesRead, copies) => (bytesRead.toInt, fPos + bytesRead.toInt64, copies)

/-- The bytes that the call may still deliver, as it computes them. -/
def allowed (d : Data) (fPos : Int64) : Int32 := (d.maxSize.toInt64 - fPos).toInt32

section Read

variable {fuel : Nat} {d : Data} {string : Int32 → Option UInt8} {count : UInt32} {fPos : Int64}

theorem myRead_of_refused {buf : Option UserBuf} (h : Refused buf) :
    ∃ ret, myRead fuel d string buf count fPos = some (ret, fPos, []) ∧ ret < 0 := by
  cases buf with
  | none => exact ⟨_, rfl, by decide⟩
  | some buf => exact ⟨_, if_pos h, by decide⟩

theorem myRead_of_hang {buf : UserBuf} (h : buf.accessOk ≠ false)
    (hreduce : reduce d.stringSize fuel fPos.toInt32 = none) : myRead fuel d string (some buf) count fPos = none := by
  unfold myRead
  dsimp only
  rw [if_neg h, hreduce]
  rfl

theorem myRead_of_reduce {buf : UserBuf} (h : buf.accessOk ≠ false) {stringPos : Int32}
    (hreduce : reduce d.stringSize fuel fPos.toInt32 = some stringPos) :
    myRead fuel d string (some buf) count fPos =
      (copyLoop string buf.writable d.stringSize (allowed d fPos) count fuel 0 stringPos).map (outcome fPos) := by
  unfold myRead
  dsimp only
  rw [if_neg h, hreduce]
  show (copyLoop string buf.writable d.stringSize (allowed d fPos) count fuel 0 stringPos).bind _ = _
  cases copyLoop string buf.writable d.stringSize (allowed d fPos) count fuel 0 stringPos with
  | none => rfl
  | some x =>
      obtain ⟨r, copies⟩ := x
      cases r with
      | none => rfl
      | some bytesRead => rfl

/-- A read that returns has failed and moved nothing, or reports the bytes its loop has copied. -/
theorem myRead_cases {buf : Option UserBuf} {ret : Int} {fPos' : Int64} {copies : List Copy}
    (h : myRead fuel d string buf count fPos = some (ret, fPos', copies)) :
    (ret < 0 ∧ fPos' = fPos) ∨ ∃ writable stringPos bytesRead,
      copyLoop string writable d.stringSize (allowed d fPos) count fuel 0 stringPos = some (some bytesRead, copies) ∧
        ret = bytesRead.toInt ∧ fPos' = fPos + bytesRead.toInt64 := by
  by_cases hrefused : Refused buf
  · obtain ⟨ret', hread, hneg⟩ := myRead_of_refused hrefused
    cases h.symm.trans hread
    exact Or.inl ⟨hneg, rfl⟩
  · cases buf with
    | none => exact absurd trivial hrefused
    | some buf =>
        cases hreduce : reduce d.stringSize fuel fPos.toInt32 with
        | none => cases h.symm.trans (myRead_of_hang hrefused hreduce)
        | some stringPos =>
            obtain ⟨⟨r, copies'⟩, hcopies, houtcome⟩ :=
              Option.map_eq_some_iff.1 ((myRead_of_reduce hrefused hreduce).symm.trans h)
            cases r with
            | none =>
                cases houtcome
                exact Or.inl ⟨by decide, rfl⟩
            | some bytesRead =>
                cases houtcome
                exact Or.inr ⟨buf.writable, stringPos, bytesRead, hcopies, rfl, rfl⟩

/-- The rounds of the model are enough. -/
theorem myRead_ends {buf : Option UserBuf} (hsize : 0 ≤ d.stringSize.toInt)
    (h : Refused buf ∨ d.stringSize ≠ 0 ∨ fPos.toInt32.toInt < 0) :
    ∃ x, myRead loopBound d string buf count fPos = some x := by
  by_cases hrefused : Refused buf
  · obtain ⟨ret, hread, -⟩ := myRead_of_refused hrefused
    exact ⟨_, hread⟩
  · cases buf with
    | none => exact absurd trivial hrefused
    | some buf =>
        have hbound : fPos.toInt32.toInt < (loopBound : Int) := fPos.toInt32.toInt_lt
        have hallowed : (allowed d fPos).toInt < (0 : Int32).toInt + (loopBound : Int) := (allowed d fPos).toInt_lt
        obtain ⟨stringPos, hreduce⟩ := reduce_ends hsize (h.resolve_left hrefused) (by decide) hbound
        obtain ⟨r, copies, hcopies⟩ := copyLoop_ends 0 stringPos (Int.le_refl 0) hallowed (by decide)
        exact ⟨_, (myRead_of_reduce hrefused hreduce).trans (congrArg _ hcopies)⟩

theorem myRead_hangs {buf : Option UserBuf}
    (h : ¬(Refused buf ∨ d.stringSize ≠ 0 ∨ fPos.toInt32.toInt < 0)) :
    myRead fuel d string buf count fPos = none := by
  rw [not_or, not_or, not_not, Int.not_lt] at h
  obtain ⟨hrefused, hsize, hpos⟩ := h
  cases buf with
  | none => exact absurd trivial hrefused
  | some buf =>
      apply myRead_of_hang hrefused
      rw [hsize]
      exact reduce_zero hpos fuel

end Read

/-- A read returns, given enough rounds, if and only if it is refused at once, or the minor has a string
that is not empty, or the position as an `int` is negative. -/
theorem read_ends_iff {s : State} (hreach : machine.Reachable (· = initModule) s) (m : Minor)
    (string : Int32 → Option UInt8) (buf : Option UserBuf) (count : UInt32) (fPos : Int64) :
    (∃ fuel, myRead fuel (s.ourData m) string buf count fPos ≠ none) ↔
      Refused buf ∨ (s.ourData m).stringSize ≠ 0 ∨ 2 ^ 31 ≤ fPos.toInt % 2 ^ 32 := by
  have hneg : 2 ^ 31 ≤ fPos.toInt % 2 ^ 32 ↔ fPos.toInt32.toInt < 0 := by
    rw [← Int.not_lt, ← toInt32_nonneg_iff, Int.not_le]
  rw [hneg]
  constructor
  · rintro ⟨fuel, hends⟩
    by_contra h
    exact hends (myRead_hangs h)
  · intro h
    obtain ⟨x, hx⟩ := myRead_ends ((kept_of_reachable hreach).size_nonneg m) h
    exact ⟨loopBound, hx ▸ Option.some_ne_none x⟩

def abc : UserString where
  chars := [65, 66, 67]
  noNul := by decide
  fits := by decide
  readable := true

/-- A buffer that can be written everywhere. -/
def openBuf : UserBuf where
  accessOk := true
  writable _ := true

abbrev firstMinor : Minor := 0

abbrev secondMinor : Minor := 1

/-- The device is opened, given a string, and seven bytes are written to it. -/
def abcEvents : List Event :=
  [.opening 0 firstMinor true, .call 0 (.ioctl SET_STRING (some abc) 1 fun _ => 9), .call 0 (.write 7)]

def abcState : State := machine.after initModule abcEvents

theorem abcState_reachable : machine.Reachable (· = initModule) abcState :=
  ⟨initModule, _, rfl, Machine.run_after (by decide +kernel)⟩

theorem read_ends_iff_abc :
    machine.Reachable (· = initModule) abcState ∧
      ∃ fuel, myRead fuel (abcState.ourData firstMinor) (abcState.string firstMinor fun _ => none)
        (some openBuf) 20 5 ≠ none := by
  refine ⟨abcState_reachable, (read_ends_iff abcState_reachable firstMinor _ _ _ _).2 (Or.inr (Or.inl ?_))⟩
  decide +kernel

def freshState : State := machine.after initModule [.opening 0 firstMinor true]

/-- A minor that has only been opened has no string, and a read of it never returns. -/
theorem fresh_read_hangs :
    machine.Reachable (· = initModule) freshState ∧ freshState.file 0 = some ⟨firstMinor, 0⟩ ∧
      ∀ fuel, myRead fuel (freshState.ourData firstMinor) (freshState.string firstMinor fun _ => none)
        (some openBuf) 1 0 = none := by
  have hsize : (freshState.ourData firstMinor).stringSize = 0 := by decide +kernel
  refine ⟨⟨initModule, _, rfl, Machine.run_after (by decide +kernel)⟩, by decide +kernel, fun fuel => ?_⟩
  apply myRead_hangs
  rw [hsize]
  decide

/-! ### Reading within the string -/

/-- Every index into the string lies in it, and no byte is delivered for a position from `max_size` on. -/
def Confined (d : Data) (fPos : Int64) (copies : List Copy) : Prop :=
  ∀ (k : Nat) (c : Copy), copies[k]? = some c → 0 ≤ c.stringPos.toInt ∧ c.stringPos.toInt < d.stringSize.toInt ∧
    (c.byte ≠ none → fPos.toInt + k < d.maxSize.toInt)

theorem Stores.peek {h : Heap (List UInt8)} {d : Data} {chars : List UInt8} (hstores : Stores h d chars)
    (stray : Int32 → Option UInt8) {i : Int32} (hpos : 0 ≤ i.toInt) (hlt : i.toInt < d.stringSize.toInt) :
    peek h stray d.moduleString i = chars[i.toNatClampNeg]? := by
  have hsize := hstores.size
  have hi := Int32.cast_toNatClampNeg i (Int32.le_iff_toInt_le.2 hpos)
  have hin : i.toNatClampNeg < chars.length := by omega
  have hblock : 0 ≤ i ∧ i.toNatClampNeg < (chars ++ [0]).length :=
    ⟨Int32.le_iff_toInt_le.2 hpos, by rw [List.length_append]; omega⟩
  rw [Repeated.peek, hstores.cell]
  dsimp only
  rw [if_pos hblock, List.getElem?_append_left hin]

theorem reduce_position {stringSize : Int32} (hsize : 0 < stringSize.toInt) (leftover : Int32) :
    ∃ stringPos, reduce stringSize loopBound leftover = some stringPos ∧
      (leftover.toInt < 0 → stringPos = leftover) ∧
      (0 ≤ leftover.toInt → stringPos.toInt = leftover.toInt % stringSize.toInt) := by
  by_cases hneg : leftover.toInt < 0
  · refine ⟨leftover, reduce_of_lt (Int.lt_trans hneg hsize) _, fun _ => rfl, fun hpos => ?_⟩
    exact absurd hneg (Int.not_lt.2 hpos)
  · obtain ⟨r, hr, hmod⟩ := reduce_mod leftover hsize (Int.not_lt.1 hneg) leftover.toInt_lt
    exact ⟨r, hr, fun h => absurd h hneg, fun _ => hmod⟩

/-- How a read that is not refused goes, of a string that is not empty. -/
theorem myRead_copies {d : Data} (hsize : 0 < d.stringSize.toInt) {buf : UserBuf} (haccess : buf.accessOk ≠ false)
    (string : Int32 → Option UInt8) (count : UInt32) (fPos : Int64) :
    ∃ stringPos r copies,
      myRead loopBound d string (some buf) count fPos = some (outcome fPos (r, copies)) ∧
      copyLoop string buf.writable d.stringSize (allowed d fPos) count loopBound 0 stringPos = some (r, copies) ∧
      (fPos.toInt32.toInt < 0 → stringPos = fPos.toInt32) ∧
      (0 ≤ fPos.toInt32.toInt → stringPos.toInt = fPos.toInt32.toInt % d.stringSize.toInt) := by
  have hallowed : (allowed d fPos).toInt < (0 : Int32).toInt + (loopBound : Int) := (allowed d fPos).toInt_lt
  obtain ⟨stringPos, hreduce, hneg, hmod⟩ := reduce_position hsize fPos.toInt32
  obtain ⟨r, copies, hcopies⟩ := copyLoop_ends 0 stringPos (Int.le_refl 0) hallowed (by decide)
  exact ⟨stringPos, r, copies, (myRead_of_reduce haccess hreduce).trans (congrArg _ hcopies), hcopies, hneg, hmod⟩

theorem copies_outcome (fPos : Int64) (x : Option Int32 × List Copy) : (outcome fPos x).2.2 = x.2 := by
  obtain ⟨r, copies⟩ := x
  cases r with
  | none => rfl
  | some bytesRead => rfl

section Confined

variable {d : Data} {string : Int32 → Option UInt8} {writable : Nat → Bool} {count : UInt32} {fPos : Int64}
  {stringPos : Int32} {r : Option Int32} {copies : List Copy}

theorem allowed_pos_iff (d : Data) (fPos : Int64) :
    0 < (allowed d fPos).toInt ↔ 2 ^ 31 < (fPos.toInt - d.maxSize.toInt) % 2 ^ 32 := by
  rw [allowed, toInt32_sub_pos_iff, Int32.toInt_toInt64]

theorem more_zero_iff (d : Data) (fPos : Int64) (count : UInt32) :
    More (allowed d fPos) count 0 ↔ 2 ^ 31 < (fPos.toInt - d.maxSize.toInt) % 2 ^ 32 ∧ count ≠ 0 := by
  rw [← allowed_pos_iff]
  exact and_congr Int32.lt_iff_toInt_lt UInt32.pos_iff_ne_zero

variable (hcopies : copyLoop string writable d.stringSize (allowed d fPos) count loopBound 0 stringPos =
  some (r, copies))

include hcopies

/-- The first copy already tells whether the call stays within bounds. -/
theorem not_confined (hneg : fPos.toInt32.toInt < 0 → stringPos = fPos.toInt32)
    (hstring : ∀ i : Int32, 0 ≤ i.toInt → i.toInt < d.stringSize.toInt → string i ≠ none)
    (hmore : More (allowed d fPos) count 0) (hbeyond : d.maxSize.toInt ≤ fPos.toInt)
    (hfirst : fPos.toInt32.toInt < 0 ∨ writable 0 = true) : ¬Confined d fPos copies := by
  intro hconfined
  obtain ⟨hpos, hlt, hbyte⟩ := hconfined 0 _ (copyLoop_first hcopies hmore)
  by_cases hn : fPos.toInt32.toInt < 0
  · rw [hneg hn] at hpos
    exact Int.not_lt.2 hpos hn
  · have hwritable : writable (0 : Int32).toNatClampNeg = true := hfirst.resolve_left hn
    have hcopy : copyToUser (writable (0 : Int32).toNatClampNeg) (string stringPos) ≠ none := by
      rw [hwritable]
      exact hstring stringPos hpos hlt
    have hend := hbyte hcopy
    omega

/-- A position before `max_size` is small enough to be narrowed. -/
theorem confined_of_lt (hsize : 0 < d.stringSize.toInt)
    (hmod : 0 ≤ fPos.toInt32.toInt → stringPos.toInt = fPos.toInt32.toInt % d.stringSize.toInt)
    (hpos : 0 ≤ fPos.toInt) (hlt : fPos.toInt < d.maxSize.toInt) : Confined d fPos copies := by
  have hmax := d.maxSize.toInt_lt
  have hnarrow : fPos.toInt32.toInt = fPos.toInt := toInt_toInt32_of_fits (by omega) (by omega)
  have hallowed : (allowed d fPos).toInt = d.maxSize.toInt - fPos.toInt := by
    rw [allowed, toInt_toInt32_sub_of_fits, Int32.toInt_toInt64] <;> rw [Int32.toInt_toInt64] <;> omega
  have hstart := hmod (by omega)
  have hge := Int.emod_nonneg fPos.toInt32.toInt (Int.ne_of_gt hsize)
  have hin := Int.emod_lt_of_pos fPos.toInt32.toInt hsize
  intro k c hk
  obtain ⟨hcpos, hclt, hbound⟩ :=
    copyLoop_inside 0 stringPos (Int.le_refl 0) (by omega) (by omega) hcopies hk
  have hzero : (0 : Int32).toInt = 0 := rfl
  exact ⟨hcpos, hclt, fun _ => by omega⟩

theorem confined_of_unwritable (hsize : 0 < d.stringSize.toInt)
    (hmod : 0 ≤ fPos.toInt32.toInt → stringPos.toInt = fPos.toInt32.toInt % d.stringSize.toInt)
    (hpos : 0 ≤ fPos.toInt32.toInt) (hwritable : writable 0 = false) : Confined d fPos copies := by
  have hge := Int.emod_nonneg fPos.toInt32.toInt (Int.ne_of_gt hsize)
  have hin := Int.emod_lt_of_pos fPos.toInt32.toInt hsize
  have hstart := hmod hpos
  intro k c hk
  obtain rfl : c = ⟨stringPos, none⟩ := copyLoop_unwritable hcopies hwritable hk
  refine ⟨?_, ?_, fun h => absurd rfl h⟩
  · rw [hstart]
    exact hge
  · rw [hstart]
    exact hin

theorem confined_iff (hsize : 0 < d.stringSize.toInt)
    (hneg : fPos.toInt32.toInt < 0 → stringPos = fPos.toInt32)
    (hmod : 0 ≤ fPos.toInt32.toInt → stringPos.toInt = fPos.toInt32.toInt % d.stringSize.toInt)
    (hpos : 0 ≤ fPos.toInt)
    (hstring : ∀ i : Int32, 0 ≤ i.toInt → i.toInt < d.stringSize.toInt → string i ≠ none) :
    Confined d fPos copies ↔ count = 0 ∨ fPos.toInt < d.maxSize.toInt ∨
      (fPos.toInt - d.maxSize.toInt) % 2 ^ 32 ≤ 2 ^ 31 ∨
      (fPos.toInt % 2 ^ 32 < 2 ^ 31 ∧ writable 0 = false) := by
  have hnonneg := toInt32_nonneg_iff fPos
  constructor
  · intro hconfined
    by_contra h
    rw [not_or, not_or, not_or, not_and_or, Int.not_lt, Int.not_le, Bool.not_eq_false, ← hnonneg, Int.not_le] at h
    obtain ⟨hcount, hbeyond, hallowed, hfirst⟩ := h
    have hmore := (more_zero_iff d fPos count).2 ⟨hallowed, hcount⟩
    exact not_confined hcopies hneg hstring hmore hbeyond hfirst hconfined
  · rintro (hcount | hlt | hallowed | ⟨hlow, hwritable⟩)
    · have hmore : ¬More (allowed d fPos) count 0 := fun h => ((more_zero_iff d fPos count).1 h).2 hcount
      rw [copyLoop_of_not_more hcopies hmore]
      exact fun k c hk => by cases hk
    · exact confined_of_lt hcopies hsize hmod hpos hlt
    · have hmore : ¬More (allowed d fPos) count 0 :=
        fun h => absurd ((more_zero_iff d fPos count).1 h).1 (Int.not_lt.2 hallowed)
      rw [copyLoop_of_not_more hcopies hmore]
      exact fun k c hk => by cases hk
    · exact confined_of_unwritable hcopies hsize hmod (hnonneg.2 hlow) hwritable

end Confined

/-- A read of a minor with a string stays in the string and before `max_size` if and only if one of these
holds: it is refused, asks for nothing, or starts before `max_size`; it starts so far beyond that what is
left does not come out positive as an `int`; or its first copy, from within the string, fails. -/
theorem read_confined_iff {s : State} (hreach : machine.Reachable (· = initModule) s) {m : Minor}
    (hstring : (s.ourData m).stringSize ≠ 0) (buf : Option UserBuf) (count : UInt32) {fPos : Int64}
    (hpos : 0 ≤ fPos) (stray : Int32 → Option UInt8) :
    (∃ ret fPos' copies,
      myRead loopBound (s.ourData m) (s.string m stray) buf count fPos = some (ret, fPos', copies) ∧
        Confined (s.ourData m) fPos copies) ↔
      Refused buf ∨ count = 0 ∨ fPos.toInt < (s.ourData m).maxSize.toInt ∨
        (fPos.toInt - (s.ourData m).maxSize.toInt) % 2 ^ 32 ≤ 2 ^ 31 ∨
        (fPos.toInt % 2 ^ 32 < 2 ^ 31 ∧ ∀ b ∈ buf, b.writable 0 = false) := by
  have hkept := kept_of_reachable hreach
  obtain ⟨chars, hstores⟩ := hkept.stores hstring
  have hsize := hkept.size_pos hstring
  by_cases hrefused : Refused buf
  · obtain ⟨ret, hread, -⟩ := myRead_of_refused hrefused
    exact iff_of_true ⟨ret, fPos, [], hread, fun k c hk => by cases hk⟩ (Or.inl hrefused)
  · cases buf with
    | none => exact absurd trivial hrefused
    | some buf =>
        obtain ⟨stringPos, r, copies, hread, hcopies, hneg, hmod⟩ :=
          myRead_copies hsize hrefused (s.string m stray) count fPos
        have hbytes : ∀ i : Int32, 0 ≤ i.toInt → i.toInt < (s.ourData m).stringSize.toInt →
            s.string m stray i ≠ none := by
          intro i hge hlt
          have hsome := hstores.size
          have hi := Int32.cast_toNatClampNeg i (Int32.le_iff_toInt_le.2 hge)
          rw [State.string, hstores.peek stray hge hlt, List.getElem?_eq_getElem (by omega)]
          exact Option.some_ne_none _
        have hiff := confined_iff hcopies hsize hneg hmod (Int64.le_iff_toInt_le.1 hpos) hbytes
        have hfirst : (∀ b ∈ some buf, b.writable 0 = false) ↔ buf.writable 0 = false := by
          simp only [Option.mem_def, Option.some.injEq, forall_eq']
        rw [or_iff_right hrefused, hfirst, ← hiff]
        constructor
        · rintro ⟨ret, fPos', copies', hread', hconfined⟩
          rw [hread] at hread'
          have hsame : (outcome fPos (r, copies)).2.2 = copies' := by rw [Option.some.inj hread']
          obtain rfl : copies = copies' := (copies_outcome fPos (r, copies)).symm.trans hsame
          exact hconfined
        · intro hconfined
          let x := outcome fPos (r, copies)
          refine ⟨x.1, x.2.1, x.2.2, hread, ?_⟩
          rw [copies_outcome]
          exact hconfined

/-- A read from the fifth byte on. -/
theorem read_confined_iff_abc :
    (abcState.ourData firstMinor).stringSize ≠ 0 ∧ ∃ ret fPos' copies,
      myRead loopBound (abcState.ourData firstMinor) (abcState.string firstMinor fun _ => none) (some openBuf) 20 5 =
          some (ret, fPos', copies) ∧
        Confined (abcState.ourData firstMinor) 5 copies := by
  have hstring : (abcState.ourData firstMinor).stringSize ≠ 0 := by decide +kernel
  refine ⟨hstring, (read_confined_iff abcState_reachable hstring (some openBuf) 20 (by decide) _).2 ?_⟩
  refine Or.inr (Or.inr (Or.inl ?_))
  decide +kernel

/-- A position of 2 ^ 32 - 1 is -1 as an `int`: the byte before the string is delivered first. -/
theorem pread_reads_before :
    machine.Reachable (· = initModule) abcState ∧ (abcState.ourData firstMinor).stringSize ≠ 0 ∧
      (call abcState (.call 0 (.pread (some openBuf) 2 4294967295 fun _ => some 42))).map Prod.fst =
        .ok ⟨2, [⟨-1, some 42⟩, ⟨0, some 65⟩]⟩ ∧
      ¬Confined (abcState.ourData firstMinor) 4294967295 [⟨-1, some 42⟩, ⟨0, some 65⟩] := by
  refine ⟨abcState_reachable, by decide +kernel, by decide +kernel, fun hconfined => ?_⟩
  have hpos := (hconfined 0 ⟨-1, some 42⟩ rfl).1
  revert hpos
  decide

end MagicKernel.Repeated
