import MagicKernel.FaultingStores
import MagicKernel.WandListing

/-! The user's array of `sys_magic_list_secrets`, at its address. The secrets get there with
`copy_to_user`, which checks the address and survives a page fault; the empty strings behind them are
stored without either. A store at a kernel address then succeeds, and a store to a page that is not
mapped, or read-only, is an oops, which the call does not survive. What a store at a kernel address does
to the kernel is not followed any further. -/

namespace MagicKernel.Wand

open FaultMachine BlockHeap FaultingStores

/-! ### The call, with addresses -/

/-- `PAGE_OFFSET`, where kernel memory begins: the `addr_limit` of a process. -/
def pageOffset : UInt32 := 0xC0000000

/-- `access_ok` for `n` bytes at `dst`. The sum is computed with its carry. -/
def accessOk (dst : UInt32) (n : Nat) : Bool := dst.toNat + n ≤ pageOffset.toNat

/-- `copy_to_user` of a secret: the number of bytes not copied, and the stores made. The bytes of `mem` are
those that the kernel can store to, at once or after `do_page_fault` has seen to it. -/
def copyToUser (mem : Space) (dst : UInt32) (src : List UInt8) : Nat × List Store :=
  if accessOk dst secretMaxsize then copyWords mem (secretMaxsize / 4) dst src else (secretMaxsize, [])

/-- The address of `secrets[i]`. -/
def entryAddr (secrets : UInt32) (i : Nat) : UInt32 := secrets + UInt32.ofNat (secretMaxsize * i)

/-- The loop that makes the entries from `j` on empty; it does not get past a page fault. -/
def padSecrets (mem : Space) (secrets : UInt32) : Nat → Nat → Bool × List Store
  | 0, _ => (true, [])
  | n + 1, j =>
    if mem (entryAddr secrets j) then
      let rest := padSecrets mem secrets n (j + 1)
      (rest.1, (entryAddr secrets j, 0) :: rest.2)
    else (false, [])

/-- The copying loop, with `counter` secrets left at `ptr`: what the call returns, unless it ends in an
oops, and the stores made. -/
def copySecretsAt (h : Heap Block) (mem : Space) (secrets : UInt32) (size listLen : Nat) :
    Nat → Nat → Addr → Except Fault (Option Int × List Store)
  | 0, i, _ =>
    if i < size then
      let padded := padSecrets mem secrets (size - listLen) listLen
      .ok (if padded.1 then some ((listLen : Int) - i) else none, padded.2)
    else .ok (some ((listLen : Int) - i), [])
  | counter + 1, i, ptr =>
    if i < size then do
      let secret ← loadSecret h ptr
      let copied := copyToUser mem (entryAddr secrets i) secret
      if copied.1 ≠ 0 then return (some (-EFAULT), copied.2)
      else
        let ptr ← loadNext h ptr
        let rest ← copySecretsAt h mem secrets size listLen counter (i + 1) ptr
        return (rest.1, copied.2 ++ rest.2)
    else .ok (some ((listLen : Int) - i), [])

/-- `sys_magic_list_secrets` by `p`, for an array at the address `secrets`. -/
def sysMagicListSecretsAt (p : TaskId) (mem : Space) (secrets size : UInt32) (s : State) :
    Except Fault (Option Int × List Store) :=
  if (s.task p).holdingWand = false then .ok (some (-EPERM), [])
  else do
    let first ← loadNext s.heap (s.task p).secretsPtr
    -- The loop that prints every secret.
    let _ ← s.heap.walk (s.task p).secretsPtr .access .endless (fun pos => do
      let secret ← loadSecret s.heap pos
      if 0 ∈ secret then return (none : Option Unit) else .error .overread) s.heap.top first
    let entries ← listEntries s.heap (s.task p).secretsPtr s.heap.top first
    if size = 0 then return (some (entries.length : Int), [])
    else if secrets = 0 then return (some (-EFAULT), [])
    else copySecretsAt s.heap mem secrets size.toNat entries.length entries.length 0 first

/-! ### One entry -/

/-- The byte is user memory, and can be written. -/
def UserWritable (mem : Space) (a : UInt32) : Prop := a < pageOffset ∧ mem a = true

/-- All bytes of `secrets[i]` are writable user memory. -/
def EntryWritable (mem : Space) (secrets : UInt32) (i : Nat) : Prop :=
  ∀ k < secretMaxsize, UserWritable mem (entryAddr secrets i + UInt32.ofNat k)

instance (mem : Space) (secrets : UInt32) (i : Nat) : Decidable (EntryWritable mem secrets i) :=
  inferInstanceAs (Decidable (∀ k < secretMaxsize, _ ∧ _))

/-- All stores are in user memory. -/
def InUser (xs : List Store) : Prop := ∀ x ∈ xs, x.1 < pageOffset

theorem inUser_append {xs ys : List Store} : InUser (xs ++ ys) ↔ InUser xs ∧ InUser ys :=
  List.forall_mem_append

section Entry

variable {mem : Space} {dst secrets : UInt32} {i : Nat} {src : List UInt8}

/-- What `access_ok` admits lies below the kernel. -/
theorem lt_pageOffset_of_accessOk (hok : accessOk dst secretMaxsize = true) {k : Nat} (hk : k < secretMaxsize) :
    dst + UInt32.ofNat k < pageOffset := by
  have hsum : dst.toNat + secretMaxsize ≤ pageOffset.toNat := of_decide_eq_true hok
  have hlimit : pageOffset.toNat < 2 ^ 32 := by decide
  rw [UInt32.lt_iff_toNat_lt, toNat_add_offset (by omega)]
  omega

theorem accessOk_of_entryWritable (h : EntryWritable mem secrets i) :
    accessOk (entryAddr secrets i) secretMaxsize = true := by
  have hfirst := (h 0 (by decide)).1
  have hlast := (h 31 (by decide)).1
  rw [UInt32.lt_iff_toNat_lt] at hfirst hlast
  rw [toNat_add_offset (by have := UInt32.toNat_lt (entryAddr secrets i); omega)] at hfirst
  have hlimit : pageOffset.toNat + 32 < 2 ^ 32 := by decide
  rw [toNat_add_offset (by omega)] at hlast
  refine decide_eq_true ?_
  show (entryAddr secrets i).toNat + 32 ≤ pageOffset.toNat
  omega

/-- `copy_to_user` succeeds exactly on writable user memory. -/
theorem copyToUser_eq_zero : (copyToUser mem (entryAddr secrets i) src).1 = 0 ↔ EntryWritable mem secrets i := by
  rw [copyToUser]
  split
  · rename_i hok
    rw [copyWords_eq_zero]
    exact ⟨fun hall k hk => ⟨lt_pageOffset_of_accessOk hok hk, hall k hk⟩, fun h k hk => (h k hk).2⟩
  · rename_i hok
    exact iff_of_false (by decide) fun h => hok (accessOk_of_entryWritable h)

/-- Complete or not, `copy_to_user` writes user memory only. -/
theorem inUser_copyToUser : InUser (copyToUser mem dst src).2 := by
  intro x hx
  rw [copyToUser] at hx
  split at hx
  · rename_i hok
    obtain ⟨k, hk, haddr⟩ := mem_copyWords hx
    rw [haddr]
    exact lt_pageOffset_of_accessOk hok hk
  · cases hx

/-- The first byte of a writable entry. -/
theorem EntryWritable.first (h : EntryWritable mem secrets i) : UserWritable mem (entryAddr secrets i) := by
  have hzero := h 0 (by decide)
  have haddr : entryAddr secrets i + UInt32.ofNat 0 = entryAddr secrets i := UInt32.add_zero _
  rw [haddr] at hzero
  exact hzero

/-- Entries that are all writable user memory are padded there. -/
theorem padSecrets_of_writable {n j : Nat} (h : ∀ i, j ≤ i → i < j + n → EntryWritable mem secrets i) :
    (padSecrets mem secrets n j).1 = true ∧ InUser (padSecrets mem secrets n j).2 := by
  induction n generalizing j with
  | zero => exact ⟨rfl, fun x hx => absurd hx List.not_mem_nil⟩
  | succ n ih =>
      obtain ⟨huser, hmem⟩ := (h j (Nat.le_refl j) (by omega)).first
      obtain ⟨hrest, hstores⟩ := ih (j := j + 1) fun i hi hlt => h i (by omega) (by omega)
      rw [padSecrets, if_pos hmem]
      refine ⟨hrest, fun x hx => ?_⟩
      rcases List.mem_cons.1 hx with rfl | hx
      · exact huser
      · exact hstores x hx

end Entry

/-! ### The loops -/

section Loops

variable {h : Heap Block} {t : Task} {ys : List Addr} {mem : Space} {secrets : UInt32} {size : Nat}

/-- The copying loop, with `i` secrets copied and the entries `zs` left: it fails in user memory at an entry
that is not writable, or copies what it can and goes on to the padding. -/
theorem copySecretsAt_chain (mem : Space) (secrets : UInt32) {c head pos : Addr} {zs : List Addr} {i : Nat}
    (hkeeps : Keeps h t ys) (hzs : ∀ a ∈ zs, a ∈ ys) (hchain : Heap.Chain h.next h.prev c zs head)
    (hpos : h.next c = some pos) (hi : i ≤ size) :
    ∃ x, copySecretsAt h mem secrets size (i + zs.length) zs.length i pos = .ok x ∧
      ((∃ j, i ≤ j ∧ j < min (i + zs.length) size ∧ ¬EntryWritable mem secrets j) →
        x.1 = some (-EFAULT) ∧ InUser x.2) ∧
      ((∀ j, i ≤ j → j < min (i + zs.length) size → EntryWritable mem secrets j) →
        ∃ cs, InUser cs ∧ x.2 = cs ++ (padSecrets mem secrets (size - (i + zs.length)) (i + zs.length)).2 ∧
          x.1 = if (padSecrets mem secrets (size - (i + zs.length)) (i + zs.length)).1 then
            some (((i + zs.length : Nat) : Int) - (min (i + zs.length) size : Nat)) else none) := by
  induction zs generalizing c pos i with
  | nil =>
      rw [List.length_nil, Nat.add_zero, Nat.min_eq_left hi, copySecretsAt]
      split
      · refine ⟨_, rfl, fun ⟨j, hj, hlt, _⟩ => absurd hlt (Nat.not_lt.2 hj), fun _ => ?_⟩
        exact ⟨[], fun x hx => absurd hx List.not_mem_nil, rfl, rfl⟩
      · have hnone : size - i = 0 := by omega
        rw [hnone]
        refine ⟨_, rfl, fun ⟨j, hj, hlt, _⟩ => absurd hlt (Nat.not_lt.2 hj), fun _ => ?_⟩
        exact ⟨[], fun x hx => absurd hx List.not_mem_nil, rfl, rfl⟩
  | cons z zs ih =>
      obtain ⟨hnext, -, hrest⟩ := hchain
      obtain rfl : z = pos := Option.some.inj (hnext.symm.trans hpos)
      obtain ⟨x, hx⟩ := Heap.chain_exists_next hrest List.mem_cons_self
      have hlen : i + (zs.length + 1) = i + 1 + zs.length := by omega
      rw [List.length_cons, hlen, copySecretsAt]
      split
      · rename_i hlt
        rw [(loadSecret_of_keeps hkeeps (hzs z List.mem_cons_self)).1, ok_bind]
        dsimp only
        have hcopied : InUser (copyToUser mem (entryAddr secrets i) (secretAt h z)).2 := inUser_copyToUser
        by_cases hentry : EntryWritable mem secrets i
        · obtain ⟨y, hy, hbad, hgood⟩ := ih (fun a ha => hzs a (List.mem_cons_of_mem z ha)) hrest hx hlt
          rw [if_neg (not_not.2 (copyToUser_eq_zero.2 hentry)), loadNext, hx, ok_bind, hy, ok_bind]
          refine ⟨_, rfl, ?_, fun hall => ?_⟩
          · rintro ⟨j, hj, hjlt, hjbad⟩
            have hne : j ≠ i := by
              rintro rfl
              exact hjbad hentry
            obtain ⟨hreply, hstores⟩ := hbad ⟨j, by omega, hjlt, hjbad⟩
            exact ⟨hreply, inUser_append.2 ⟨hcopied, hstores⟩⟩
          · obtain ⟨cs, hcs, hstores, hreply⟩ := hgood fun j hj hjlt => hall j (by omega) hjlt
            refine ⟨_ ++ cs, inUser_append.2 ⟨hcopied, hcs⟩, ?_, hreply⟩
            dsimp only
            rw [hstores, List.append_assoc]
        · rw [if_pos fun hzero => hentry (copyToUser_eq_zero.1 hzero)]
          refine ⟨_, rfl, fun _ => ⟨rfl, hcopied⟩, fun hall => ?_⟩
          exact absurd (hall i (Nat.le_refl i) (by omega)) hentry
      · obtain rfl : i = size := by omega
        have hfull : min (i + 1 + zs.length) i = i := by omega
        have hnone : i - (i + 1 + zs.length) = 0 := by omega
        rw [hfull, hnone]
        refine ⟨_, rfl, fun ⟨j, hj, hlt, _⟩ => absurd hlt (Nat.not_lt.2 hj), fun _ => ?_⟩
        exact ⟨[], fun x hx => absurd hx List.not_mem_nil, rfl, rfl⟩

/-- A caller with a wand and a sound list comes to the checks of `size` and `secrets`. -/
theorem sysMagicListSecretsAt_eq {s : State} {p : TaskId} {first : Addr} (hkeeps : Keeps s.heap (s.task p) ys)
    (hwand : (s.task p).holdingWand ≠ false) (hfirst : s.heap.next (s.task p).secretsPtr = some first)
    (size : UInt32) :
    sysMagicListSecretsAt p mem secrets size s =
      if size = 0 then .ok (some (ys.length : Int), [])
      else if secrets = 0 then .ok (some (-EFAULT), [])
      else copySecretsAt s.heap mem secrets size.toNat ys.length ys.length 0 first := by
  have hload : loadNext s.heap (s.task p).secretsPtr = .ok first := by rw [loadNext, hfirst]
  unfold sysMagicListSecretsAt
  rw [if_neg hwand, hload, ok_bind, printSecrets_keeps hkeeps hfirst, ok_bind, listEntries_keeps hkeeps hfirst,
    ok_bind]
  rfl

end Loops

/-! ### The call with entries -/

/-- How many bytes `copy_to_user` can store in `secrets[i]`. -/
def entryRoom (mem : Space) (secrets : UInt32) (i : Nat) : Nat :=
  secretMaxsize - (copyToUser mem (entryAddr secrets i) []).1

/-- The array at `secrets` as its entries: `NULL`, or the room in each of them. -/
def userArray (mem : Space) (secrets : UInt32) : Option (Nat → Nat) :=
  if secrets = 0 then none else some (entryRoom mem secrets)

/-- The stores of a write to an entry. -/
def UserWrite.stores (secrets : UInt32) : UserWrite → List Store
  | .copy i bytes => FaultingStores.stores (entryAddr secrets i) bytes
  | .pad i => [(entryAddr secrets i, 0)]

/-- How a call with addresses ends, beside the same call with entries: it makes the same writes and returns
the same, or an oops cuts it short in the padding. -/
inductive Refines (secrets : UInt32) : Option Int × List Store → Int × List UserWrite → Prop
  | returns (r : Int) (out : List UserWrite) : Refines secrets (some r, out.flatMap (·.stores secrets)) (r, out)
  | oops (r : Int) (out : List UserWrite) {xs : List Store} (h : xs <+: out.flatMap (·.stores secrets)) :
      Refines secrets (none, xs) (r, out)

section Refines

variable {h : Heap Block} {t : Task} {ys : List Addr} {mem : Space} {secrets : UInt32} {size : Nat}

theorem Refines.cons {x : Option Int × List Store} {r : Int} {out : List UserWrite} (hx : Refines secrets x (r, out))
    (w : UserWrite) : Refines secrets (x.1, w.stores secrets ++ x.2) (r, w :: out) := by
  cases hx with
  | returns r out => exact .returns r (w :: out)
  | oops r out hbegins => exact .oops r (w :: out) ((List.prefix_append_right_inj _).2 hbegins)

/-- The padding stores what it should, up to a page fault. -/
theorem padSecrets_stores (mem : Space) (secrets : UInt32) (n j : Nat) :
    (padSecrets mem secrets n j).2 <+: (pads j n).flatMap (·.stores secrets) ∧
      ((padSecrets mem secrets n j).1 = true →
        (padSecrets mem secrets n j).2 = (pads j n).flatMap (·.stores secrets)) := by
  induction n generalizing j with
  | zero => exact ⟨List.prefix_refl [], fun _ => rfl⟩
  | succ n ih =>
      have hpads : (pads j (n + 1)).flatMap (·.stores secrets) =
          (entryAddr secrets j, 0) :: (pads (j + 1) n).flatMap (·.stores secrets) := rfl
      rw [padSecrets, hpads]
      split
      · obtain ⟨hbegins, hall⟩ := ih (j + 1)
        exact ⟨List.cons_prefix_cons.2 ⟨rfl, hbegins⟩, fun hok => congrArg (List.cons _) (hall hok)⟩
      · exact ⟨List.nil_prefix, fun hok => absurd hok Bool.false_ne_true⟩

theorem copyToUser_left (mem : Space) (dst : UInt32) (src src' : List UInt8) :
    (copyToUser mem dst src).1 = (copyToUser mem dst src').1 := by
  rw [copyToUser, copyToUser]
  split
  · exact copyWords_left _ _ _ _
  · rfl

theorem entryRoom_lt {i : Nat} : entryRoom mem secrets i < secretMaxsize ↔ ¬EntryWritable mem secrets i := by
  have hpos : 0 < secretMaxsize := by decide
  have hzero : (copyToUser mem (entryAddr secrets i) []).1 = 0 ↔ EntryWritable mem secrets i := copyToUser_eq_zero
  rw [← hzero, entryRoom]
  omega

/-- A secret is stored as far as there is room. -/
theorem copyToUser_stores {i : Nat} {src : List UInt8} (hlength : src.length = secretMaxsize) :
    (copyToUser mem (entryAddr secrets i) src).2 =
      (UserWrite.copy i (src.take (entryRoom mem secrets i))).stores secrets := by
  rw [entryRoom, copyToUser_left mem _ [] src, copyToUser]
  split
  · exact copyWords_stores (n := secretMaxsize / 4) hlength
  · rw [Nat.sub_self, List.take_zero]
    rfl

theorem copySecretsAt_refines (mem : Space) (secrets : UInt32) (size listLen : Nat) {c head pos : Addr}
    {zs : List Addr} {i : Nat} (out : List UserWrite)
    (hkeeps : Keeps h t ys) (hzs : ∀ a ∈ zs, a ∈ ys) (hchain : Heap.Chain h.next h.prev c zs head)
    (hpos : h.next c = some pos) :
    ∃ x stolen more, copySecretsAt h mem secrets size listLen zs.length i pos = .ok x ∧
      copySecrets h (entryRoom mem secrets) size listLen zs.length i pos out =
        .ok (stolen, out ++ more) ∧
      Refines secrets x (stolen.elim (-EFAULT) fun k => (listLen : Int) - k, more) := by
  induction zs generalizing c pos i out with
  | nil =>
      rw [List.length_nil, copySecretsAt, copySecrets]
      split
      · refine ⟨_, some i, pads listLen (size - listLen), rfl, rfl, ?_⟩
        obtain ⟨hbegins, hall⟩ := padSecrets_stores mem secrets (size - listLen) listLen
        split
        · rename_i hok
          rw [hall hok]
          exact .returns _ _
        · exact .oops _ _ hbegins
      · refine ⟨_, some i, [], rfl, ?_, .returns _ []⟩
        rw [List.append_nil]
  | cons z zs ih =>
      obtain ⟨hnext, -, hrest⟩ := hchain
      obtain rfl : z = pos := Option.some.inj (hnext.symm.trans hpos)
      obtain ⟨x, hx⟩ := Heap.chain_exists_next hrest List.mem_cons_self
      have hload := (loadSecret_of_keeps hkeeps (hzs z List.mem_cons_self)).1
      rw [List.length_cons, copySecretsAt, copySecrets]
      split
      · rw [hload, ok_bind, ok_bind]
        dsimp only
        have hstores : (copyToUser mem (entryAddr secrets i) (secretAt h z)).2 =
            (UserWrite.copy i ((secretAt h z).take (entryRoom mem secrets i))).stores secrets :=
          copyToUser_stores (length_secretAt hkeeps (hzs z List.mem_cons_self))
        generalize hcopied : UserWrite.copy i ((secretAt h z).take (entryRoom mem secrets i)) = w at hstores
        by_cases hentry : EntryWritable mem secrets i
        · obtain ⟨y, stolen, more, hy, hcopy, hrefines⟩ := ih (i := i + 1) (out ++ [w])
            (fun a ha => hzs a (List.mem_cons_of_mem z ha)) hrest hx
          rw [if_neg (not_not.2 (copyToUser_eq_zero.2 hentry)), if_neg fun hlt => entryRoom_lt.1 hlt hentry,
            loadNext, hx,
            ok_bind, ok_bind, hy, ok_bind, hcopy, hstores, List.append_assoc]
          exact ⟨_, stolen, w :: more, rfl, rfl, hrefines.cons _⟩
        · rw [if_pos fun hzero => hentry (copyToUser_eq_zero.1 hzero), if_pos (entryRoom_lt.2 hentry), hstores]
          have hreturns : Refines secrets _ (-EFAULT, [w]) := .returns (-EFAULT) [w]
          rw [List.flatMap_singleton] at hreturns
          exact ⟨_, none, [w], rfl, rfl, hreturns⟩
      · refine ⟨_, some i, [], rfl, ?_, .returns _ []⟩
        rw [List.append_nil]

/-- The call with addresses does what the call with entries says, or is cut short. -/
theorem sysMagicListSecretsAt_refines {s : State} {p : TaskId} (hkeeps : Keeps s.heap (s.task p) ys)
    (mem : Space) (secrets size : UInt32) :
    ∃ x y, sysMagicListSecretsAt p mem secrets size s = .ok x ∧
      sysMagicListSecrets p (userArray mem secrets) size.toNat s = .ok y ∧ Refines secrets x y := by
  by_cases hwand : (s.task p).holdingWand = false
  · refine ⟨(some (-EPERM), []), (-EPERM, []), ?_, ?_, .returns _ []⟩
    · rw [sysMagicListSecretsAt, if_pos hwand]
    · rw [sysMagicListSecrets, if_pos hwand]
  obtain ⟨first, hfirst⟩ := Heap.chain_exists_next hkeeps.ring.chain List.mem_cons_self
  have hload : loadNext s.heap (s.task p).secretsPtr = .ok first := by rw [loadNext, hfirst]
  unfold sysMagicListSecrets
  rw [sysMagicListSecretsAt_eq hkeeps hwand hfirst, if_neg hwand, hload, ok_bind, printSecrets_keeps hkeeps hfirst,
    ok_bind, listEntries_keeps hkeeps hfirst, ok_bind]
  by_cases hsize : size = 0
  · subst hsize
    exact ⟨_, _, rfl, rfl, .returns _ []⟩
  have hsize' : size.toNat ≠ 0 := fun hzero => hsize (UInt32.toNat_inj.1 hzero)
  rw [if_neg hsize, if_neg hsize', userArray]
  by_cases hnull : secrets = 0
  · rw [if_pos hnull, if_pos hnull]
    exact ⟨_, _, rfl, rfl, .returns _ []⟩
  rw [if_neg hnull, if_neg hnull]
  obtain ⟨x, stolen, more, hx, hcopy, hrefines⟩ := copySecretsAt_refines mem secrets size.toNat ys.length
    (i := 0) [] hkeeps (fun a ha => ha) hkeeps.ring.chain hfirst
  rw [hx]
  dsimp only
  rw [hcopy, ok_bind]
  cases stolen with
  | none => exact ⟨x, _, rfl, rfl, hrefines⟩
  | some k => exact ⟨x, _, rfl, rfl, hrefines⟩

end Refines

/-! ### Bad buffers -/

/-- The call reports a bad buffer of `size` entries, and keeps its stores within user memory. -/
def Reports (mem : Space) (secrets size : UInt32) (x : Option Int × List Store) : Prop :=
  ((∃ i < size.toNat, ¬EntryWritable mem secrets i) → x.1 = some (-EFAULT)) ∧ InUser x.2

/-- When every secret has been copied, the entries to be padded decide. -/
theorem reports_padded_iff {mem : Space} {secrets size : UInt32} {listLen : Nat} {x : Option Int × List Store}
    {cs : List Store} (hcs : InUser cs) (hwritable : ∀ i < min listLen size.toNat, EntryWritable mem secrets i)
    (hstores : x.2 = cs ++ (padSecrets mem secrets (size.toNat - listLen) listLen).2)
    (hreply : x.1 = if (padSecrets mem secrets (size.toNat - listLen) listLen).1 then
      some ((listLen : Int) - (min listLen size.toNat : Nat)) else none) :
    Reports mem secrets size x ↔ ∀ j, listLen ≤ j → j < size.toNat → EntryWritable mem secrets j := by
  constructor
  · rintro ⟨hreports, -⟩
    by_contra hpads
    have hfault : x.1 = some (-EFAULT) := by
      apply hreports
      by_contra hall
      refine hpads fun j _ hj => ?_
      by_contra hentry
      exact hall ⟨j, hj, hentry⟩
    -- The number returned by a call that comes to the padding is not negative.
    rw [hreply] at hfault
    split at hfault
    · have hcount := Option.some.inj hfault
      have hle : min listLen size.toNat ≤ listLen := Nat.min_le_left _ _
      have hneg : -EFAULT < 0 := by decide
      omega
    · cases hfault
  · intro hpads
    constructor
    · rintro ⟨i, hi, hentry⟩
      by_cases hlt : i < listLen
      · exact absurd (hwritable i (Nat.lt_min.2 ⟨hlt, hi⟩)) hentry
      · exact absurd (hpads i (Nat.not_lt.1 hlt) hi) hentry
    · obtain ⟨-, hpadded⟩ := padSecrets_of_writable (n := size.toNat - listLen) (j := listLen)
        fun j hj hlt => hpads j hj (by omega)
      rw [hstores]
      exact inUser_append.2 ⟨hcs, hpadded⟩

/-- `sys_magic_list_secrets` by a task with a wand and the stolen list `ys`, for an array of `size` entries.
It reports a bad buffer if the buffer is `NULL`, or an entry is bad that gets a secret, or none is that is
only padded; if the only bad entries are padded ones it does not. -/
theorem list_secrets_reports_iff {s : State} {p : TaskId} {ys : List Addr} (hkeeps : Keeps s.heap (s.task p) ys)
    (hwand : (s.task p).holdingWand = true) (mem : Space) (secrets : UInt32) {size : UInt32} (hsize : 0 < size) :
    ∃ x, sysMagicListSecretsAt p mem secrets size s = .ok x ∧
      (Reports mem secrets size x ↔ secrets = 0 ∨
        (∃ i < min ys.length size.toNat, ¬EntryWritable mem secrets i) ∨
        ∀ j, ys.length ≤ j → j < size.toNat → EntryWritable mem secrets j) := by
  obtain ⟨first, hfirst⟩ := Heap.chain_exists_next hkeeps.ring.chain List.mem_cons_self
  have hnonzero : size ≠ 0 := UInt32.pos_iff_ne_zero.1 hsize
  rw [sysMagicListSecretsAt_eq hkeeps (ne_false_of_eq_true hwand) hfirst, if_neg hnonzero]
  by_cases hnull : secrets = 0
  · rw [if_pos hnull]
    exact ⟨_, rfl, iff_of_true ⟨fun _ => rfl, fun x hx => absurd hx List.not_mem_nil⟩ (Or.inl hnull)⟩
  rw [if_neg hnull]
  obtain ⟨x, hx, hbad, hgood⟩ := copySecretsAt_chain mem secrets hkeeps (fun a ha => ha)
    hkeeps.ring.chain hfirst (Nat.zero_le size.toNat)
  rw [Nat.zero_add] at hx hbad hgood
  refine ⟨x, hx, ?_⟩
  by_cases hcopied : ∃ i < min ys.length size.toNat, ¬EntryWritable mem secrets i
  · obtain ⟨i, hi, hentry⟩ := hcopied
    obtain ⟨hreply, hstores⟩ := hbad ⟨i, Nat.zero_le i, hi, hentry⟩
    exact iff_of_true ⟨fun _ => hreply, hstores⟩ (Or.inr (Or.inl ⟨i, hi, hentry⟩))
  · have hwritable : ∀ i < min ys.length size.toNat, EntryWritable mem secrets i := by
      intro i hi
      by_contra hentry
      exact hcopied ⟨i, hi, hentry⟩
    obtain ⟨cs, hcs, hstores, hreply⟩ := hgood fun j _ hj => hwritable j hj
    rw [reports_padded_iff hcs hwritable hstores hreply, or_iff_right hnull, or_iff_right hcopied]

section Boot

/-- The second task has stolen the secret of the first. -/
def robbed : State :=
  (machine.restrict CleanExit).after boot (armedEvents ++ [⟨2, .legilimens 1 5 fun _ => 7⟩])

/-- A page of user memory that can be written. -/
def userPage : Space := fun a => 0x08049000 ≤ a ∧ a < 0x0804A000

/-- An array that begins 16 bytes before the end of the page. -/
theorem list_secrets_reports_iff_robbed : (machine.restrict CleanExit).Reachable Initial robbed ∧
    ∃ x, sysMagicListSecretsAt 2 userPage 0x08049FF0 2 robbed = .ok x ∧ x.1 = some (-EFAULT) ∧ InUser x.2 := by
  have hreach : (machine.restrict CleanExit).Reachable Initial robbed :=
    ⟨boot, _, boot_initial, Machine.run_after (by decide +kernel)⟩
  have hlive : robbed.Live 2 := ⟨by decide +kernel, by decide +kernel⟩
  have hwand : (robbed.task 2).holdingWand = true := by decide +kernel
  have hlist : robbed.heap.next (robbed.task 2).secretsPtr = some 5 ∧
      listEntries robbed.heap (robbed.task 2).secretsPtr robbed.heap.top 5 = .ok [5] := by decide +kernel
  obtain ⟨xs, howns⟩ := owns_of_reachable hreach
  have hkeeps := howns.keeps 2 hlive
  have hys := (listEntries_keeps hkeeps hlist.1).symm.trans hlist.2
  rw [Except.ok.inj hys] at hkeeps
  have hbad : ¬EntryWritable userPage 0x08049FF0 0 := by decide +kernel
  obtain ⟨x, hx, hreports⟩ := list_secrets_reports_iff hkeeps hwand userPage 0x08049FF0
    (show (0 : UInt32) < 2 by decide)
  obtain ⟨hreply, hstores⟩ := hreports.2 (Or.inr (Or.inl ⟨0, by decide, hbad⟩))
  exact ⟨hreach, x, hx, hreply ⟨0, by decide, hbad⟩, hstores⟩

/-- The first task, with an empty list, passes a kernel address for one entry. -/
theorem armed_padding_unchecked : machine.Reachable Initial armed ∧ (armed.task 1).holdingWand = true ∧
    sysMagicListSecretsAt 1 (fun a => pageOffset ≤ a) 0xC0100000 1 armed = .ok (some 0, [(0xC0100000, 0)]) ∧
    ¬Reports (fun a => pageOffset ≤ a) 0xC0100000 1 (some 0, [(0xC0100000, 0)]) := by
  refine ⟨⟨boot, _, boot_initial, armed_run⟩, by decide +kernel, by decide +kernel, ?_⟩
  rintro ⟨-, hstores⟩
  exact absurd (hstores _ List.mem_cons_self) (by decide)

end Boot

end MagicKernel.Wand
