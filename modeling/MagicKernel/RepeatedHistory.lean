import MagicKernel.RepeatedRead

/-! What a read delivers, told from the calls made before it. The string is the argument of the latest
`SET_STRING` that succeeded, repeated without end; a file reads on from its own position, up to the sum of
the counts written by all files since the last `RESET`. -/

namespace MagicKernel.Repeated

open FaultMachine BlockHeap MachineInts

/-! ### The bytes of a read -/

/-- The string, repeated without end. -/
def repetition (chars : List UInt8) (i : Nat) : UInt8 := chars.getD (i % chars.length) 0

/-- The copies of `n` bytes of the repeated string, from its byte `p` on. -/
def served (chars : List UInt8) (p n : Nat) : List Copy :=
  (List.range n).map fun i => ⟨Int32.ofNat ((p + i) % chars.length), some (repetition chars (p + i))⟩

theorem served_succ (chars : List UInt8) (p n : Nat) : served chars p (n + 1) =
    ⟨Int32.ofNat (p % chars.length), some (repetition chars p)⟩ :: served chars (p + 1) n := by
  rw [served, List.range_succ_eq_map, List.map_cons, List.map_map, served]
  refine congrArg₂ List.cons rfl (List.map_congr_left fun i _ => ?_)
  have hi : p + (i + 1) = p + 1 + i := by omega
  show Copy.mk _ _ = Copy.mk _ _
  rw [Nat.succ_eq_add_one, hi]

theorem bytes_served (chars : List UInt8) (p n : Nat) :
    (served chars p n).map Copy.byte = (List.range n).map fun i => some (repetition chars (p + i)) := by
  rw [served, List.map_map]
  rfl

section Served

variable {chars : List UInt8} {string : Int32 → Option UInt8} {writable : Nat → Bool}
  {stringSize allowedBytes : Int32} {count : UInt32}

/-- The loop with `k` of `n` bytes delivered and `left` more to come, at the byte `p` of the repeated string. -/
theorem copyLoop_served {fuel n left : Nat} (bytesRead stringPos : Int32) (k p : Nat) (hlength : 0 < chars.length)
    (hsize : stringSize.toInt = chars.length)
    (hstring : ∀ i : Int32, 0 ≤ i.toInt → i.toInt < stringSize.toInt → string i = chars[i.toNatClampNeg]?)
    (hn : min allowedBytes.toInt.toNat count.toNat = n) (hwritable : ∀ i < n, writable i = true)
    (hread : bytesRead.toInt = k) (hpos : stringPos.toInt = (p % chars.length : Nat)) (hleft : k + left = n)
    (hfuel : left < fuel) :
    copyLoop string writable stringSize allowedBytes count fuel bytesRead stringPos =
      some (some (Int32.ofNat n), served chars p left) := by
  have hmax := allowedBytes.toInt_lt
  induction left generalizing bytesRead stringPos p k fuel with
  | zero =>
      obtain ⟨fuel, rfl⟩ := Nat.exists_eq_succ_of_ne_zero (Nat.ne_of_gt hfuel)
      have hmore : ¬More allowedBytes count bytesRead := by
        rintro ⟨hallowed, hless⟩
        have hallowed := Int32.lt_iff_toInt_lt.1 hallowed
        have hless := UInt32.lt_iff_toNat_lt.1 hless
        have hnat := toNat_toUInt32 (show 0 ≤ bytesRead.toInt by omega)
        omega
      have hend : bytesRead = Int32.ofNat n := by
        apply Int32.toInt_inj.1
        rw [hread, Int32.toInt_ofNat_of_lt (by omega)]
        omega
      rw [copyLoop_stop hmore fuel, hend]
      rfl
  | succ left ih =>
      obtain ⟨fuel, rfl⟩ := Nat.exists_eq_succ_of_ne_zero (Nat.ne_of_gt (Nat.lt_of_le_of_lt (Nat.zero_le _) hfuel))
      have hnat := toNat_toUInt32 (show 0 ≤ bytesRead.toInt by omega)
      have hmore : More allowedBytes count bytesRead :=
        ⟨Int32.lt_iff_toInt_lt.2 (by omega), UInt32.lt_iff_toNat_lt.2 (by omega)⟩
      have hin : p % chars.length < chars.length := Nat.mod_lt p hlength
      have hinside : 0 ≤ stringPos.toInt ∧ stringPos.toInt < stringSize.toInt := by
        rw [hpos, hsize]
        exact ⟨Int.natCast_nonneg _, Int.ofNat_lt.2 hin⟩
      have hindex : stringPos.toNatClampNeg = p % chars.length := by
        rw [Int32.toNatClampNeg, hpos, Int.toNat_natCast]
      have hbyte : string stringPos = some (repetition chars p) := by
        rw [hstring stringPos hinside.1 hinside.2, hindex, repetition, List.getD_eq_getElem?_getD,
          List.getElem?_eq_getElem hin]
        rfl
      have hslot : bytesRead.toNatClampNeg = k := by rw [Int32.toNatClampNeg, hread, Int.toNat_natCast]
      have hcopy : copyToUser (writable bytesRead.toNatClampNeg) (string stringPos) = some (repetition chars p) := by
        rw [hslot, hwritable k (by omega), hbyte]
        rfl
      have hsucc : (bytesRead + 1).toInt = bytesRead.toInt + 1 := toInt_succ32 (by omega)
      have hnext : (nextPos stringSize stringPos).toInt = ((p + 1) % chars.length : Nat) := by
        rw [toInt_nextPos hinside.1 hinside.2, hpos, hsize, ← Nat.mod_add_mod p chars.length 1]
        exact (Int.natCast_emod (p % chars.length + 1) chars.length).symm
      have hrest := ih (bytesRead + 1) (nextPos stringSize stringPos) (k + 1) (p + 1) (by omega) hnext
        (by omega) (Nat.lt_of_succ_lt_succ hfuel)
      have hstart : stringPos = Int32.ofNat (p % chars.length) := by
        apply Int32.toInt_inj.1
        have hlimit := stringSize.toInt_lt
        rw [hpos, Int32.toInt_ofNat_of_lt (by omega)]
      rw [copyLoop_next hmore hcopy fuel, hrest, served_succ, ← hstart]
      rfl

/-- The bytes that a loop reports lie between none and all that were allowed. -/
theorem copyLoop_returned {fuel : Nat} (bytesRead stringPos : Int32) {r : Int32} {copies : List Copy}
    (hread : 0 ≤ bytesRead.toInt)
    (h : copyLoop string writable stringSize allowedBytes count fuel bytesRead stringPos = some (some r, copies)) :
    bytesRead.toInt ≤ r.toInt ∧ r.toInt ≤ max bytesRead.toInt allowedBytes.toInt := by
  induction fuel generalizing bytesRead stringPos copies with
  | zero => cases h
  | succ fuel ih =>
      have hmax := allowedBytes.toInt_lt
      rcases copyLoop_cases h with ⟨-, hr, -⟩ | ⟨-, hr, -⟩ | ⟨byte, rest, hmore, -, -, hrest⟩
      · cases hr
        omega
      · cases hr
      · have hallowed := Int32.lt_iff_toInt_lt.1 hmore.1
        have hsucc : (bytesRead + 1).toInt = bytesRead.toInt + 1 := toInt_succ32 (by omega)
        obtain ⟨hge, hle⟩ := ih (bytesRead + 1) (nextPos stringSize stringPos) (by omega) hrest
        omega

end Served

section Position

variable {d : Data} {string : Int32 → Option UInt8} {count : UInt32} {fPos : Int64} {q w : Nat}

theorem toInt_allowed (hmax : d.maxSize.toInt = w) (hpos : fPos.toInt = q) (hq : q < 2 ^ 31) :
    (allowed d fPos).toInt = (w : Int) - q := by
  have hlt := d.maxSize.toInt_lt
  rw [allowed, toInt_toInt32_sub_of_fits, Int32.toInt_toInt64, hmax, hpos] <;>
    rw [Int32.toInt_toInt64, hmax, hpos] <;> omega

theorem toInt_add_bytes (hpos : fPos.toInt = q) (hq : q < 2 ^ 31) {bytesRead : Int32} {n : Nat}
    (hbytes : bytesRead.toInt = n) : (fPos + bytesRead.toInt64).toInt = (q + n : Nat) := by
  have hlt := bytesRead.toInt_lt
  rw [toInt_add64, Int32.toInt_toInt64, hpos, hbytes, Int.natCast_add] <;>
    rw [Int32.toInt_toInt64, hpos, hbytes] <;> omega

/-- A read moves its position by the bytes it reports, and not beyond `max_size`. -/
theorem myRead_advances (hmax : d.maxSize.toInt = w) (hpos : fPos.toInt = q) (hq : q < 2 ^ 31)
    {buf : Option UserBuf} {ret : Int} {fPos' : Int64} {copies : List Copy}
    (hread : myRead loopBound d string buf count fPos = some (ret, fPos', copies)) :
    fPos'.toInt = (q + ret.toNat : Nat) ∧ q + ret.toNat < 2 ^ 31 := by
  rcases myRead_cases hread with ⟨hneg, rfl⟩ | ⟨writable, stringPos, bytesRead, hcopies, rfl, rfl⟩
  · rw [Int.toNat_of_nonpos (Int.le_of_lt hneg), Nat.add_zero]
    exact ⟨hpos, hq⟩
  · obtain ⟨hge, hle⟩ := copyLoop_returned 0 stringPos (Int.le_refl 0) hcopies
    have hallowed := toInt_allowed hmax hpos hq
    have hlt := d.maxSize.toInt_lt
    have hzero : (0 : Int32).toInt = 0 := rfl
    refine ⟨toInt_add_bytes hpos hq (by omega), by omega⟩

/-- A read of `chars`, up to `w`, whose copies succeed. -/
theorem myRead_served {chars : List UInt8} (count : UInt32) (hlength : 0 < chars.length)
    (hsize : d.stringSize.toInt = chars.length)
    (hstring : ∀ i : Int32, 0 ≤ i.toInt → i.toInt < d.stringSize.toInt → string i = chars[i.toNatClampNeg]?)
    (hmax : d.maxSize.toInt = w) (hpos : fPos.toInt = q) (hq : q < 2 ^ 31) {buf : UserBuf}
    (haccess : buf.accessOk = true) {n : Nat} (hn : min (q + count.toNat) w - q = n)
    (hwritable : ∀ i < n, buf.writable i = true) :
    myRead loopBound d string (some buf) count fPos = some ((n : Int), Int64.ofNat (q + n), served chars q n) := by
  have hallowed := toInt_allowed hmax hpos hq
  have hlt := d.maxSize.toInt_lt
  have hnarrow : fPos.toInt32.toInt = q := by
    rw [toInt_toInt32_of_fits, hpos] <;> omega
  obtain ⟨stringPos, hreduce, -, hmod⟩ := reduce_position (show 0 < d.stringSize.toInt by omega) fPos.toInt32
  have hstart : stringPos.toInt = (q % chars.length : Nat) := by
    rw [hmod (by omega), hnarrow, hsize]
    rfl
  have hrounds : min (allowed d fPos).toInt.toNat count.toNat = n := by omega
  have hcopies := copyLoop_served 0 stringPos 0 q hlength hsize hstring hrounds hwritable rfl hstart
    (Nat.zero_add n) (show n < loopBound by unfold loopBound; omega)
  have hbytes : (Int32.ofNat n).toInt = n := Int32.toInt_ofNat_of_lt (by omega)
  have hend : fPos + (Int32.ofNat n).toInt64 = Int64.ofNat (q + n) := by
    apply Int64.toInt_inj.1
    rw [toInt_add_bytes hpos hq hbytes, Int64.toInt_ofNat_of_lt (by omega)]
  rw [myRead_of_reduce (ne_false_of_eq_true haccess) hreduce, hcopies, ← hbytes, ← hend]
  rfl

/-- A seek whose sum does not overflow goes to the sum, or to the nearer end. -/
theorem toInt_myLlseek (hmax : d.maxSize.toInt = w) (hpos : fPos.toInt = q) {shift : Int64}
    (hle : -2 ^ 63 ≤ (q : Int) + shift.toInt) (hlt : (q : Int) + shift.toInt < 2 ^ 63) :
    (myLlseek d fPos shift).toInt = max 0 (min ((q : Int) + shift.toInt) w) := by
  have hsum : (fPos + shift).toInt = (q : Int) + shift.toInt := by
    rw [toInt_add64, hpos] <;> rw [hpos] <;> assumption
  have hend : d.maxSize.toInt64.toInt = w := by rw [Int32.toInt_toInt64, hmax]
  have hzero : (0 : Int64).toInt = 0 := rfl
  rw [myLlseek]
  simp only [ge_iff_le, Int64.le_iff_toInt_le, hsum, hend, hzero]
  split
  · rw [hend]
    split <;> omega
  · rw [hsum]
    split <;> omega

end Position

/-! ### What has been done -/

/-- The calls made so far, as far as reads depend on them. -/
structure Book where
  /-- The argument of the latest successful `SET_STRING` of a minor. -/
  latest : Minor → List UInt8
  /-- It has not been dropped since by a `RESET`, or by a `SET_STRING` that got as far as freeing it and failed. -/
  standing : Minor → Bool
  /-- The sum of the counts written to a minor since its last `RESET`. -/
  total : Minor → Nat
  /-- Where the reads and seeks of a file have brought it. -/
  position : FileId → Nat

def Book.blank : Book where
  latest _ := []
  standing _ := false
  total _ := 0
  position _ := 0

/-- A call on the file `f` of the minor `m`, and the reply to it. -/
def Book.enter (b : Book) (m : Minor) (f : FileId) (c : Call) (reply : Reply) : Book :=
  match c with
  | .read _ _ _ => { b with position := Function.update b.position f (b.position f + reply.ret.toNat) }
  | .write count => { b with total := Function.update b.total m (b.total m + count.toNat) }
  | .llseek shift _ =>
    let newpos : Int := max 0 (min (b.position f + shift.toInt) (b.total m))
    { b with position := Function.update b.position f newpos.toNat }
  | .ioctl cmd newString _ _ =>
    if cmd = SET_STRING then
      match newString with
      | some arg =>
        if reply.ret = 0 then
          { b with latest := Function.update b.latest m arg.chars, standing := Function.update b.standing m true }
        else { b with standing := Function.update b.standing m false }
      | none => b
    else if cmd = RESET then
      { b with total := Function.update b.total m 0, standing := Function.update b.standing m false }
    else b
  | .pread _ _ _ _ | .release => b

def note (s : State) (e : Event) (b : Book) : Book :=
  match e with
  | .opening f _ _ => { b with position := Function.update b.position f 0 }
  | .call f c =>
    match s.file f, call s e with
    | some file, .ok (reply, _) => b.enter file.minor f c reply
    | _, _ => b

def historyMachine : Machine (State × Book) Event Fault := machine.record note

instance (x : State × Book) (e : Event) : Decidable (historyMachine.enabled x e) :=
  inferInstanceAs (Decidable (machine.enabled x.1 e))

/-- The writes to `m` add up to less than 2 ^ 31 since its last `RESET`, and no seek of its files overflows. -/
def Within (m : Minor) (x : State × Book) : Event → Prop
  | .call f (.write count) => ∀ file ∈ x.1.file f, file.minor = m → x.2.total m + count.toNat < 2 ^ 31
  | .call f (.llseek shift _) => ∀ file ∈ x.1.file f, file.minor = m →
      -2 ^ 63 ≤ (x.2.position f : Int) + shift.toInt ∧ (x.2.position f : Int) + shift.toInt < 2 ^ 63
  | _ => True

instance (m : Minor) (x : State × Book) (e : Event) : Decidable (Within m x e) :=
  match e with
  | .opening _ _ _ => .isTrue trivial
  | .call f (.write count) =>
    inferInstanceAs (Decidable (∀ file ∈ x.1.file f, file.minor = m → x.2.total m + count.toNat < 2 ^ 31))
  | .call f (.llseek shift _) =>
    inferInstanceAs (Decidable (∀ file ∈ x.1.file f, file.minor = m →
      -2 ^ 63 ≤ (x.2.position f : Int) + shift.toInt ∧ (x.2.position f : Int) + shift.toInt < 2 ^ 63))
  | .call _ (.read _ _ _) | .call _ (.pread _ _ _ _) | .call _ (.ioctl _ _ _ _) | .call _ .release => .isTrue trivial

/-- The device is where the calls have brought it. -/
structure Tracks (m : Minor) (s : State) (b : Book) : Prop where
  kept : Kept s
  total : (s.ourData m).maxSize.toInt = b.total m
  position : ∀ f file, s.file f = some file → file.minor = m →
    file.fPos.toInt = b.position f ∧ b.position f < 2 ^ 31
  string : b.standing m = true → Stores s.heap (s.ourData m) (b.latest m)
  bare : b.standing m = false → (s.ourData m).stringSize = 0

section Tracks

variable {m : Minor} {s t : State} {b b' : Book}

theorem note_call {f : FileId} {file : File} {c : Call} {reply : Reply} (hfile : s.file f = some file)
    (hcall : call s (.call f c) = .ok (reply, t)) (b : Book) :
    note s (.call f c) b = b.enter file.minor f c reply := by
  rw [note, hfile, hcall]

/-- Nothing that concerns the minor changes but positions. -/
theorem Tracks.of_same (htracks : Tracks m s b) (hkept : Kept t) (hheap : t.heap = s.heap)
    (hdata : (t.ourData m).moduleString = (s.ourData m).moduleString ∧ (t.ourData m).maxSize = (s.ourData m).maxSize ∧
      (t.ourData m).stringSize = (s.ourData m).stringSize)
    (hbook : b'.total m = b.total m ∧ b'.latest m = b.latest m ∧ b'.standing m = b.standing m)
    (hposition : ∀ f file, t.file f = some file → file.minor = m →
      file.fPos.toInt = b'.position f ∧ b'.position f < 2 ^ 31) : Tracks m t b' where
  kept := hkept
  total := by rw [hdata.2.1, hbook.1, htracks.total]
  position := hposition
  string := by
    intro hstanding
    rw [hbook.2.2] at hstanding
    obtain ⟨hcell, hlength, hnul⟩ := htracks.string hstanding
    refine ⟨?_, ?_, hbook.2.1 ▸ hnul⟩
    · rw [hheap, hdata.1, hbook.2.1]
      exact hcell
    · rw [hdata.2.2, hbook.2.1]
      exact hlength
  bare := by
    rw [hbook.2.2, hdata.2.2]
    exact htracks.bare

theorem Tracks.setPos (htracks : Tracks m s b) {f : FileId} {file : File} (hfile : s.file f = some file) {fPos : Int64}
    {q : Nat} (hpos : file.minor = m → fPos.toInt = q ∧ q < 2 ^ 31) :
    Tracks m (s.setPos f fPos) { b with position := Function.update b.position f q } := by
  refine htracks.of_same (htracks.kept.of_same rfl (fun _ => rfl) fun _ => rfl) rfl ⟨rfl, rfl, rfl⟩ ⟨rfl, rfl, rfl⟩ ?_
  intro g file' hg hm
  by_cases hgf : g = f
  · subst hgf
    have hset : (s.setPos g fPos).file g = some { file with fPos := fPos } := by
      show Function.update s.file g _ g = _
      rw [Function.update_self, hfile]
      rfl
    cases hg.symm.trans hset
    show fPos.toInt = (Function.update b.position g q g : Nat) ∧ Function.update b.position g q g < 2 ^ 31
    rw [Function.update_self]
    exact hpos hm
  · have hother : s.file g = some file' := (Function.update_of_ne hgf _ _).symm.trans hg
    show file'.fPos.toInt = (Function.update b.position f q g : Nat) ∧ Function.update b.position f q g < 2 ^ 31
    rw [Function.update_of_ne hgf]
    exact htracks.position g file' hother hm

/-- What happens to the string of another minor. -/
theorem Tracks.settle_other (htracks : Tracks m s b) (hkept : Kept t) {m' : Minor} (hne : m ≠ m') {d : Data}
    {c : Option (List UInt8)} (hset : Settles s t m' d c)
    (hunused : d.moduleString ≠ 0 → (s.ourData m).moduleString ≠ d.moduleString)
    (htotal : b'.total m = b.total m) (hlatest : b'.latest m = b.latest m)
    (hstanding : b'.standing m = b.standing m) (hposition : b'.position = b.position) : Tracks m t b' := by
  have hdata : t.ourData m = s.ourData m := by rw [hset.data, Function.update_of_ne hne]
  refine ⟨hkept, ?_, ?_, ?_, ?_⟩
  · rw [hdata, htotal, htracks.total]
  · rw [hset.file, hposition]
    exact htracks.position
  · rw [hdata, hlatest, hstanding]
    intro hstood
    have hstores := htracks.string hstood
    have hother : (s.ourData m).moduleString ≠ d.moduleString :=
      fun heq => hunused (heq ▸ hstores.ne_zero) heq
    exact hdata ▸ hset.stores_other htracks.kept hne hother hstores
  · rw [hdata, hstanding]
    exact htracks.bare

theorem Tracks.opening (htracks : Tracks m s b) {f : FileId} (m' : Minor) (memory : Bool) (hfree : s.file f = none) :
    Tracks m (myOpen f m' memory s).2 { b with position := Function.update b.position f 0 } := by
  have hkept : Kept (myOpen f m' memory s).2 := (Move.opening m' memory hfree).kept htracks.kept
  have hframe := myOpen_frame s f m' memory
  refine htracks.of_same hkept hframe.1 (hframe.2 m) ⟨rfl, rfl, rfl⟩ ?_
  intro g file hg hm
  show file.fPos.toInt = (Function.update b.position f 0 g : Nat) ∧ Function.update b.position f 0 g < 2 ^ 31
  rcases myOpen_file hg with hold | ⟨rfl, rfl⟩
  · have hgf : g ≠ f := by
      rintro rfl
      cases hfree.symm.trans hold
    rw [Function.update_of_ne hgf]
    exact htracks.position g file hold hm
  · rw [Function.update_self]
    exact ⟨rfl, by decide⟩

theorem Tracks.read (htracks : Tracks m s b) {f : FileId} {file : File} (hfile : s.file f = some file)
    {string : Int32 → Option UInt8} {buf : Option UserBuf} {count : UInt32} {ret : Int} {fPos : Int64}
    {copies : List Copy}
    (hread : myRead loopBound (s.ourData file.minor) string buf count file.fPos = some (ret, fPos, copies)) :
    Tracks m (s.setPos f fPos) { b with position := Function.update b.position f (b.position f + ret.toNat) } := by
  apply htracks.setPos hfile
  intro hm
  obtain ⟨hpos, hlt⟩ := htracks.position f file hfile hm
  subst hm
  exact myRead_advances htracks.total hpos hlt hread

theorem Tracks.llseek (htracks : Tracks m s b) {f : FileId} {file : File} (hfile : s.file f = some file) {shift : Int64}
    (hsum : file.minor = m →
      -2 ^ 63 ≤ (b.position f : Int) + shift.toInt ∧ (b.position f : Int) + shift.toInt < 2 ^ 63) :
    Tracks m (s.setPos f (myLlseek (s.ourData file.minor) file.fPos shift)) { b with
      position := Function.update b.position f
        (max 0 (min ((b.position f : Int) + shift.toInt) (b.total file.minor))).toNat } := by
  apply htracks.setPos hfile
  intro hm
  obtain ⟨hpos, -⟩ := htracks.position f file hfile hm
  obtain ⟨hle, hlt⟩ := hsum hm
  subst hm
  have hmax := htracks.total
  have hlimit := (s.ourData file.minor).maxSize.toInt_lt
  rw [toInt_myLlseek hmax hpos hle hlt]
  omega

theorem Tracks.write (htracks : Tracks m s b) (m' : Minor) {count : UInt32}
    (hsum : m' = m → b.total m + count.toNat < 2 ^ 31) :
    Tracks m (s.modData m' fun d => (myWrite count d).2)
      { b with total := Function.update b.total m' (b.total m' + count.toNat) } := by
  have hkept : Kept (s.modData m' fun d => (myWrite count d).2) :=
    htracks.kept.modData (fun _ => rfl) fun _ => rfl
  by_cases hm : m = m'
  · subst hm
    have hdata : (s.modData m fun d => (myWrite count d).2).ourData m = (myWrite count (s.ourData m)).2 :=
      Function.update_self _ _ _
    have hsum' := hsum rfl
    have htotal := htracks.total
    refine ⟨hkept, ?_, htracks.position, ?_, ?_⟩
    · rw [hdata]
      show ((s.ourData m).maxSize.toUInt32 + count).toInt32.toInt = (Function.update b.total m _ m : Nat)
      rw [Function.update_self, toInt_add_unsigned (by omega) (by omega), htotal, Int.natCast_add]
    · rw [hdata]
      intro hstood
      obtain ⟨hcell, hlength, hnul⟩ := htracks.string hstood
      exact ⟨hcell, hlength, hnul⟩
    · rw [hdata]
      exact htracks.bare
  · have hdata : (s.modData m' fun d => (myWrite count d).2).ourData m = s.ourData m := Function.update_of_ne hm _ _
    refine htracks.of_same hkept rfl ?_ ⟨Function.update_of_ne hm _ _, rfl, rfl⟩ htracks.position
    rw [hdata]
    exact ⟨rfl, rfl, rfl⟩

/-- The string of the minor itself is lost; `max_size` may be too. -/
theorem Tracks.settle_lost (htracks : Tracks m s b) (hkept : Kept t) {d : Data} {c : Option (List UInt8)}
    (hset : Settles s t m d c) (hsize : d.stringSize = 0) (htotal : d.maxSize.toInt = b'.total m)
    (hstanding : b'.standing m = false) (hposition : b'.position = b.position) : Tracks m t b' := by
  have hdata : t.ourData m = d := by rw [hset.data, Function.update_self]
  refine ⟨hkept, ?_, ?_, ?_, ?_⟩
  · rw [hdata, htotal]
  · rw [hset.file, hposition]
    exact htracks.position
  · rw [hstanding]
    exact fun hstood => absurd hstood Bool.false_ne_true
  · rw [hdata]
    exact fun _ => hsize

theorem enter_failed {r : Int} (hr : r = -ENOMEM ∨ r = -EBADF) {b : Book} {m : Minor} {f : FileId}
    {arg : UserString} {mem : Addr} {junk : Nat → UInt8} :
    b.enter m f (.ioctl SET_STRING (some arg) mem junk) ⟨r, []⟩ =
      { b with standing := Function.update b.standing m false } := by
  have hne : r ≠ 0 := by
    rcases hr with rfl | rfl
    · decide
    · decide
  unfold Book.enter
  dsimp only
  rw [if_pos rfl]
  exact if_neg hne

theorem enter_stored (b : Book) (m : Minor) (f : FileId) (arg : UserString) (mem : Addr) (junk : Nat → UInt8) :
    b.enter m f (.ioctl SET_STRING (some arg) mem junk) ⟨0, []⟩ =
      { b with latest := Function.update b.latest m arg.chars, standing := Function.update b.standing m true } := rfl

theorem Tracks.setString (htracks : Tracks m s b) {f : FileId} {m' : Minor} {newString : Option UserString} {mem : Addr}
    {junk : Nat → UInt8} {r : Int} (hyields : s.Yields m' newString mem)
    (hresult : SetResult s m' newString mem r t) :
    Tracks m t (b.enter m' f (.ioctl SET_STRING newString mem junk) ⟨r, []⟩) := by
  have hkept := hresult.kept htracks.kept hyields
  cases hresult with
  | null harg =>
      subst harg
      exact htracks
  | lost harg hr hset =>
      subst harg
      rw [enter_failed hr]
      by_cases hm : m = m'
      · subst hm
        exact htracks.settle_lost hkept hset rfl htracks.total (Function.update_self _ _ _) rfl
      · exact htracks.settle_other hkept hm hset (fun hne => absurd rfl hne) rfl rfl (Function.update_of_ne hm _ _) rfl
  | @stored arg _ harg hmem hsize hset =>
      subst harg
      rw [enter_stored]
      by_cases hm : m = m'
      · subst hm
        have hdata := congrFun hset.data m
        rw [Function.update_self] at hdata
        refine ⟨hkept, ?_, ?_, ?_, ?_⟩
        · rw [hdata]
          exact htracks.total
        · rw [hset.file]
          exact htracks.position
        · intro _
          show Stores t.heap (t.ourData m) (Function.update b.latest m arg.chars m)
          rw [hdata, Function.update_self]
          exact hset.stores (toInt_scan hsize) arg.noNul
        · show Function.update b.standing m true m = false → _
          rw [Function.update_self]
          exact fun hstood => absurd hstood.symm Bool.false_ne_true
      · have hunused := htracks.kept.unused hmem (hyields.resolve_left hmem).1 hm
        exact htracks.settle_other hkept hm hset (fun _ => hunused) rfl (Function.update_of_ne hm _ _)
          (Function.update_of_ne hm _ _) rfl

theorem Tracks.reset (htracks : Tracks m s b) {m' : Minor} (hkept : Kept t)
    (hset : Settles s t m' { s.ourData m' with moduleString := 0, maxSize := 0, stringSize := 0 } none) :
    Tracks m t { b with total := Function.update b.total m' 0, standing := Function.update b.standing m' false } := by
  by_cases hm : m = m'
  · subst hm
    refine htracks.settle_lost hkept hset rfl ?_ (Function.update_self _ _ _) rfl
    show (0 : Int32).toInt = (Function.update b.total m 0 m : Nat)
    rw [Function.update_self]
    rfl
  · exact htracks.settle_other hkept hm hset (fun hne => absurd rfl hne) (Function.update_of_ne hm _ _) rfl
      (Function.update_of_ne hm _ _) rfl

theorem Tracks.release (htracks : Tracks m s b) (f : FileId) : Tracks m (myRelease f s).2 b := by
  refine htracks.of_same (htracks.kept.of_same rfl (fun _ => rfl) fun _ => rfl) rfl ⟨rfl, rfl, rfl⟩ ⟨rfl, rfl, rfl⟩ ?_
  intro g file hg hm
  change Function.update s.file f none g = some file at hg
  by_cases hgf : g = f
  · rw [hgf, Function.update_self] at hg
    cases hg
  · rw [Function.update_of_ne hgf] at hg
    exact htracks.position g file hg hm

/-- What a call does is what the book says. -/
theorem Tracks.step (htracks : Tracks m s b) {e : Event} (hwithin : Within m (s, b) e) (hstep : machine.Step s e t) :
    Tracks m t (note s e b) := by
  obtain ⟨reply, hcall, hmove⟩ := move_of_step htracks.kept hstep
  have hkept := hmove.kept htracks.kept
  cases hmove with
  | opening m' memory hfree => exact htracks.opening m' memory hfree
  | read hfile hread =>
      rw [note_call hfile hcall]
      exact htracks.read hfile hread
  | pread buf count pos stray _ hfile =>
      rw [note_call hfile hcall]
      exact htracks
  | write count hfile =>
      rw [note_call hfile hcall]
      exact htracks.write _ (hwithin _ hfile)
  | llseek shift mode hfile =>
      rw [note_call hfile hcall]
      exact htracks.llseek hfile (hwithin _ hfile)
  | setString hfile hyields hresult =>
      rw [note_call hfile hcall]
      exact htracks.setString hyields hresult
  | reset hfile hset =>
      rw [note_call hfile hcall]
      exact htracks.reset hkept hset
  | unknown newString mem junk hfile hset hreset =>
      rw [note_call hfile hcall]
      unfold Book.enter
      dsimp only
      rw [if_neg hset, if_neg hreset]
      exact htracks
  | release hfile =>
      rw [note_call hfile hcall]
      exact htracks.release _

end Tracks

theorem tracks_of_reachable {m : Minor} {x : State × Book}
    (hreach : (historyMachine.restrict (Within m)).Reachable (· = (initModule, .blank)) x) : Tracks m x.1 x.2 := by
  refine hreach.invariant (I := fun x => Tracks m x.1 x.2) ?_ ?_
  · rintro x rfl
    exact ⟨initModule_kept, rfl, fun f file hfile => (by cases hfile),
      fun hstood => absurd hstood Bool.false_ne_true, fun _ => rfl⟩
  · intro x e y _ htracks hstep
    obtain ⟨hwithin, hstep⟩ := Machine.restrict_step.1 hstep
    obtain ⟨hstep, hnote⟩ := Machine.record_step.1 hstep
    rw [hnote]
    exact htracks.step hwithin hstep

/-- Whatever has been done to a minor through any of its files, a file stands where its own reads and seeks have
brought it, and a read of it, up to what has been written since the last `RESET`, delivers the latest string
repeated from there, moves this file by the bytes it delivers, and nothing else: if and only if the latest
string has not been dropped. If it has, the read never returns. -/
theorem read_repeats {m : Minor} {x : State × Book}
    (hreach : (historyMachine.restrict (Within m)).Reachable (· = (initModule, .blank)) x) {f : FileId} {file : File}
    (hfile : x.1.file f = some file) (hminor : file.minor = m) (hlatest : x.2.latest m ≠ [])
    {buf : UserBuf} (count : UInt32) (stray : Int32 → Option UInt8) {n : Nat}
    (hn : n = min (x.2.position f + count.toNat) (x.2.total m) - x.2.position f) (haccess : buf.accessOk = true)
    (hwritable : ∀ i < n, buf.writable i = true) :
    file.fPos.toInt = x.2.position f ∧
    ((∃ copies, call x.1 (.call f (.read (some buf) count stray)) =
        .ok (⟨n, copies⟩, x.1.setPos f (Int64.ofNat (x.2.position f + n))) ∧
      copies.map Copy.byte = (List.range n).map fun i => some (repetition (x.2.latest m) (x.2.position f + i))) ↔
      x.2.standing m = true) ∧
    (x.2.standing m = false → call x.1 (.call f (.read (some buf) count stray)) = .error .hang) := by
  have htracks := tracks_of_reachable hreach
  obtain ⟨hpos, hlt⟩ := htracks.position f file hfile hminor
  subst hminor
  have hdropped : x.2.standing file.minor = false →
      call x.1 (.call f (.read (some buf) count stray)) = .error .hang := by
    intro hstood
    refine call_read_hangs hfile (myRead_hangs ?_)
    have hnonneg := (toInt32_nonneg_iff file.fPos).2 (by omega)
    rw [not_or, not_or, not_not]
    exact ⟨ne_false_of_eq_true haccess, htracks.bare hstood, Int.not_lt.2 hnonneg⟩
  refine ⟨hpos, ⟨?_, fun hstood => ?_⟩, hdropped⟩
  · rintro ⟨copies, hok, -⟩
    by_contra hstood
    have hhang := hdropped (Bool.eq_false_of_not_eq_true hstood)
    rw [hok] at hhang
    cases hhang
  · have hstores := htracks.string hstood
    have hread := myRead_served count (List.length_pos_of_ne_nil hlatest) hstores.size (fun i => hstores.peek stray)
      htracks.total hpos hlt haccess hn.symm hwritable
    exact ⟨served (x.2.latest file.minor) (x.2.position f) n, call_read hfile hread, bytes_served _ _ _⟩

def aha : UserString where
  chars := [65, 104, 97]
  noNul := by decide
  fits := by decide
  readable := true

/-- Two files of one minor: the second reads three bytes of the first string and goes back by two, and a
failed `SET_STRING` of an unreadable string comes before the second string. -/
def sharedEvents : List Event :=
  [.opening 0 firstMinor true, .opening 1 firstMinor true, .call 0 (.ioctl SET_STRING (some abc) 1 fun _ => 9),
    .call 0 (.write 5), .call 1 (.read (some openBuf) 3 fun _ => none),
    .call 0 (.ioctl SET_STRING (some { abc with readable := false }) 2 fun _ => 9),
    .call 0 (.ioctl SET_STRING (some aha) 3 fun _ => 9), .call 1 (.llseek (.ofInt (-2)) 1), .call 1 (.write 2)]

def shared : State × Book := (historyMachine.restrict (Within firstMinor)).after (initModule, .blank) sharedEvents

/-- The second file then reads on in the second string, from its second byte up to the seventh. -/
theorem read_repeats_shared :
    (historyMachine.restrict (Within firstMinor)).Run (initModule, .blank) sharedEvents shared ∧
      shared.2.position 0 = 0 ∧ shared.2.position 1 = 1 ∧ ∃ copies t,
        call shared.1 (.call 1 (.read (some openBuf) 12 fun _ => none)) = .ok (⟨6, copies⟩, t) ∧
        copies.map Copy.byte = [some 104, some 97, some 65, some 104, some 97, some 65] := by
  have hrun : (historyMachine.restrict (Within firstMinor)).Run (initModule, .blank) sharedEvents shared :=
    Machine.run_after (by decide +kernel)
  have hfile : shared.1.file 1 = some ⟨firstMinor, 1⟩ := by decide +kernel
  have hstood : shared.2.standing firstMinor = true := by decide +kernel
  have hzero : shared.2.position 0 = 0 := by decide +kernel
  have hone : shared.2.position 1 = 1 := by decide +kernel
  have htotal : shared.2.total firstMinor = 7 := by decide +kernel
  have hlatest : shared.2.latest firstMinor = [65, 104, 97] := by decide +kernel
  generalize shared = x at *
  refine ⟨hrun, hzero, hone, ?_⟩
  have hn : 6 = min (x.2.position 1 + (12 : UInt32).toNat) (x.2.total firstMinor) - x.2.position 1 := by
    rw [hone, htotal]
    rfl
  have hne : x.2.latest firstMinor ≠ [] := by
    rw [hlatest]
    exact List.cons_ne_nil _ _
  obtain ⟨-, hreads, -⟩ :=
    read_repeats ⟨_, _, rfl, hrun⟩ hfile rfl hne 12 (fun _ => none) hn (show openBuf.accessOk = true from rfl)
      fun _ _ => rfl
  obtain ⟨copies, hcall, hbytes⟩ := hreads.2 hstood
  refine ⟨copies, _, hcall, hbytes.trans ?_⟩
  rw [hone, hlatest]
  decide

/-- The string is set, seven bytes are written, and a second `SET_STRING` finds no memory. -/
def droppedEvents : List Event :=
  [.opening 0 firstMinor true, .call 0 (.ioctl SET_STRING (some abc) 1 fun _ => 9), .call 0 (.write 7),
    .call 0 (.ioctl SET_STRING (some aha) 0 fun _ => 9)]

def dropped : State × Book := (historyMachine.restrict (Within firstMinor)).after (initModule, .blank) droppedEvents

/-- The latest string that was set is not empty, and seven bytes of it are to be read; but the read never returns. -/
theorem dropped_read_hangs :
    (historyMachine.restrict (Within firstMinor)).Run (initModule, .blank) droppedEvents dropped ∧
      dropped.1.file 0 = some ⟨firstMinor, 0⟩ ∧ dropped.2.latest firstMinor = [65, 66, 67] ∧
      dropped.2.total firstMinor = 7 ∧ dropped.2.position 0 = 0 ∧
      call dropped.1 (.call 0 (.read (some openBuf) 7 fun _ => none)) = .error .hang ∧
      ∀ fuel, myRead fuel (dropped.1.ourData firstMinor) (dropped.1.string firstMinor fun _ => none)
        (some openBuf) 7 0 = none := by
  have hfile : dropped.1.file 0 = some ⟨firstMinor, 0⟩ := by decide +kernel
  have hsize : (dropped.1.ourData firstMinor).stringSize = 0 := by decide +kernel
  have hhang : ∀ fuel, myRead fuel (dropped.1.ourData firstMinor) (dropped.1.string firstMinor fun _ => none)
      (some openBuf) 7 0 = none := by
    intro fuel
    apply myRead_hangs
    rw [hsize]
    decide
  refine ⟨Machine.run_after (by decide +kernel), hfile, by decide +kernel, by decide +kernel, by decide +kernel, ?_,
    hhang⟩
  exact call_read_hangs hfile (hhang loopBound)

end MagicKernel.Repeated
