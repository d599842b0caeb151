import MagicKernel.WandTheft

/-! What `sys_magic_list_secrets` does to the user's array: the first entries get the stolen secrets in the
order of the list, the rest up to the given size become empty strings, and nothing else is written. -/

namespace MagicKernel.Wand

open FaultMachine BlockHeap

/-! ### The user's array -/

/-- A write to the array: the first bytes of an entry, or its first byte. -/
def UserWrite.apply (buf : Nat → List UInt8) : UserWrite → Nat → List UInt8
  | .copy i bytes => Function.update buf i (bytes ++ (buf i).drop bytes.length)
  | .pad i => Function.update buf i ((buf i).set 0 0)

/-- The array after some writes. -/
def written (out : List UserWrite) (buf : Nat → List UInt8) : Nat → List UInt8 := out.foldl UserWrite.apply buf

theorem written_append (out out' : List UserWrite) (buf : Nat → List UInt8) :
    written (out ++ out') buf = written out' (written out buf) := List.foldl_append

theorem text_set_zero (cs : List UInt8) : text (cs.set 0 0) = [] := by
  cases cs with
  | nil => rfl
  | cons c cs => exact text_zero cs

/-- What lies behind the NUL does not matter. -/
theorem text_append_of_mem {cs : List UInt8} (hzero : 0 ∈ cs) (ds : List UInt8) : text (cs ++ ds) = text cs := by
  induction cs with
  | nil => cases hzero
  | cons c cs ih =>
      rw [List.cons_append]
      by_cases hc : c = 0
      · subst hc
        rw [text_zero, text_zero]
      · rw [text_cons hc, text_cons hc, ih (mem_tail_of_ne hzero hc)]

/-- Copies of the secrets `ws` to the entries from `k` on. -/
def copies (k : Nat) (ws : List (List UInt8)) : List UserWrite := (ws.zipIdx k).map fun x => .copy x.2 x.1

theorem copies_cons (k : Nat) (w : List UInt8) (ws : List (List UInt8)) :
    copies k (w :: ws) = .copy k w :: copies (k + 1) ws := rfl

theorem written_copies_of_lt {k j : Nat} (hj : j < k) (ws : List (List UInt8)) (buf : Nat → List UInt8) :
    written (copies k ws) buf j = buf j := by
  induction ws generalizing k buf with
  | nil => rfl
  | cons w ws ih =>
      have hne : j ≠ k := Nat.ne_of_lt hj
      rw [copies_cons]
      exact (ih (Nat.lt_succ_of_lt hj) _).trans (Function.update_of_ne hne ..)

theorem written_copies (k i : Nat) (ws : List (List UInt8)) (buf : Nat → List UInt8) :
    written (copies k ws) buf (k + i) =
      (ws[i]?).elim (buf (k + i)) fun w => w ++ (buf (k + i)).drop w.length := by
  induction ws generalizing k i buf with
  | nil => rfl
  | cons w ws ih =>
      rw [copies_cons]
      cases i with
      | zero => exact (written_copies_of_lt (Nat.lt_succ_self k) ws _).trans (Function.update_self ..)
      | succ i =>
          have hne : k + (i + 1) ≠ k := by omega
          have hidx : k + (i + 1) = k + 1 + i := by omega
          have hrest := ih (k + 1) i (UserWrite.apply buf (.copy k w))
          rw [← hidx] at hrest
          apply hrest.trans
          rw [List.getElem?_cons_succ, UserWrite.apply, Function.update_of_ne hne]

/-- Empty strings in `m` entries from `k` on. -/
def pads (k m : Nat) : List UserWrite := (List.range' k m).map .pad

theorem written_pads (k m : Nat) (buf : Nat → List UInt8) (j : Nat) :
    written (pads k m) buf j = if k ≤ j ∧ j < k + m then (buf j).set 0 0 else buf j := by
  induction m generalizing k buf with
  | zero =>
      rw [if_neg (by omega)]
      rfl
  | succ m ih =>
      have hpads : pads k (m + 1) = .pad k :: pads (k + 1) m := rfl
      rw [hpads]
      apply (ih (k + 1) _).trans
      by_cases hj : j = k
      · subst hj
        rw [if_neg (by omega), if_pos (by omega)]
        exact Function.update_self ..
      · rw [UserWrite.apply, Function.update_of_ne hj]
        by_cases hin : k + 1 ≤ j ∧ j < k + 1 + m
        · rw [if_pos hin, if_pos (by omega)]
        · rw [if_neg hin, if_neg (by omega)]

/-! ### The loops -/

section Loops

variable {h : Heap Block} {t : Task} {ys : List Addr}

/-- The secrets of a list, with all bytes of their entries. -/
def secrets (h : Heap Block) (xs : List Addr) : List (List UInt8) := xs.map (secretAt h)

theorem loadSecret_of_keeps (hkeeps : Keeps h t ys) {a : Addr} (ha : a ∈ ys) :
    loadSecret h a = .ok (secretAt h a) ∧ 0 ∈ secretAt h a := by
  obtain ⟨secret, hsecret, hzero, -⟩ := hkeeps.entry a ha
  obtain ⟨l, hcell⟩ := cells_of_node hsecret
  rw [secretAt_of_node hsecret, loadSecret, hcell]
  exact ⟨rfl, hzero⟩

theorem length_secretAt (hkeeps : Keeps h t ys) {a : Addr} (ha : a ∈ ys) :
    (secretAt h a).length = secretMaxsize := by
  obtain ⟨secret, hsecret, -, hlength⟩ := hkeeps.entry a ha
  rw [secretAt_of_node hsecret]
  exact hlength

theorem listEntries_chain {c head pos : Addr} {zs : List Addr} {fuel : Nat}
    (hchain : Heap.Chain h.next h.prev c zs head) (hhead : head ∉ zs) (hfuel : zs.length ≤ fuel)
    (hpos : h.next c = some pos) : listEntries h head fuel pos = .ok zs := by
  induction zs generalizing c fuel pos with
  | nil =>
      obtain rfl : head = pos := Option.some.inj (hchain.1.symm.trans hpos)
      cases fuel with
      | zero => rw [listEntries, if_pos rfl]
      | succ fuel => rw [listEntries, if_pos rfl]
  | cons z zs ih =>
      obtain ⟨hnext, -, hrest⟩ := hchain
      obtain rfl : z = pos := Option.some.inj (hnext.symm.trans hpos)
      have hne : z ≠ head := by
        rintro rfl
        exact hhead List.mem_cons_self
      cases fuel with
      | zero => exact absurd hfuel (Nat.not_succ_le_zero _)
      | succ fuel =>
          obtain ⟨x, hx⟩ := Heap.chain_exists_next hrest List.mem_cons_self
          rw [listEntries, if_neg hne, loadNext, hx]
          dsimp only [bind, Except.bind]
          rw [ih hrest (fun hmem => hhead (List.mem_cons_of_mem z hmem)) (Nat.le_of_succ_le_succ hfuel) hx]
          rfl

/-- The copying loop, with `i` secrets copied and the entries `zs` left. -/
theorem copySecrets_chain {c head pos : Addr} {zs : List Addr} {room : Nat → Nat} {size i : Nat}
    (out : List UserWrite) (hkeeps : Keeps h t ys) (hzs : ∀ a ∈ zs, a ∈ ys)
    (hchain : Heap.Chain h.next h.prev c zs head) (hpos : h.next c = some pos) (hi : i ≤ size)
    (hroom : ∀ j < size, secretMaxsize ≤ room j) :
    copySecrets h room size (i + zs.length) zs.length i pos out =
      .ok (some (min (i + zs.length) size), out ++ copies i ((secrets h zs).take (size - i)) ++
        pads (i + zs.length) (size - (i + zs.length))) := by
  induction zs generalizing c pos i out with
  | nil =>
      have hstolen : min i size = i := Nat.min_eq_left hi
      have hcopies : copies i ((secrets h []).take (size - i)) = [] := by
        rw [secrets, List.map_nil, List.take_nil]
        rfl
      rw [hcopies, List.append_nil, List.length_nil, Nat.add_zero, hstolen, copySecrets]
      split
      · rfl
      · have hnone : size - i = 0 := by omega
        rw [hnone]
        exact congrArg (fun o => Except.ok (some i, o)) (List.append_nil out).symm
  | cons z zs ih =>
      obtain ⟨hnext, -, hrest⟩ := hchain
      obtain rfl : z = pos := Option.some.inj (hnext.symm.trans hpos)
      obtain ⟨x, hx⟩ := Heap.chain_exists_next hrest List.mem_cons_self
      rw [List.length_cons, copySecrets]
      split
      · rename_i hlt
        have hlen : i + (zs.length + 1) = i + 1 + zs.length := by omega
        have htake : size - i = size - (i + 1) + 1 := by omega
        have hmore := ih (out ++ [.copy i (secretAt h z)])
          (fun a ha => hzs a (List.mem_cons_of_mem z ha)) hrest hx hlt
        have hwhole : (secretAt h z).take (room i) = secretAt h z := by
          rw [List.take_of_length_le]
          exact (length_secretAt hkeeps (hzs z List.mem_cons_self)).trans_le (hroom i hlt)
        rw [(loadSecret_of_keeps hkeeps (hzs z List.mem_cons_self)).1]
        dsimp only [bind, Except.bind]
        rw [if_neg (Nat.not_lt.2 (hroom i hlt)), loadNext, hx, hwhole]
        dsimp only
        rw [hlen, hmore, htake]
        simp only [secrets, List.map_cons, List.take_succ_cons, copies_cons, List.append_assoc, List.cons_append,
          List.nil_append]
      · have hfull : i = size := by omega
        subst hfull
        have hstolen : min (i + (zs.length + 1)) i = i := Nat.min_eq_right (Nat.le_add_right _ _)
        have hnone : i - (i + (zs.length + 1)) = 0 := by omega
        rw [hstolen, hnone, Nat.sub_self, List.take_zero]
        apply congrArg (fun o => Except.ok (some i, o))
        exact ((List.append_nil _).trans (List.append_nil _)).symm

theorem printSecrets_keeps {first : Addr} (hkeeps : Keeps h t ys) (hfirst : h.next t.secretsPtr = some first) :
    h.walk t.secretsPtr .access .endless (fun pos => do
      let secret ← loadSecret h pos
      if 0 ∈ secret then return (none : Option Unit) else .error .overread) h.top first = .ok none := by
  rw [hkeeps.ring.walk_eq hfirst, Heap.visit_eq_findSome (f := fun _ => none)]
  · rw [List.findSome?_eq_none_iff.2 fun _ _ => rfl]
  · intro a ha
    obtain ⟨hload, hzero⟩ := loadSecret_of_keeps hkeeps ha
    rw [hload]
    exact if_pos hzero

theorem listEntries_keeps {first : Addr} (hkeeps : Keeps h t ys) (hfirst : h.next t.secretsPtr = some first) :
    listEntries h t.secretsPtr h.top first = .ok ys :=
  listEntries_chain hkeeps.ring.chain (List.nodup_cons.1 hkeeps.ring.nodup).1 hkeeps.ring.length_le_top hfirst

end Loops

/-- `sys_magic_list_secrets` by a task with a wand, with room for `size` secrets. -/
theorem sysMagicListSecrets_eq {s : State} {p : TaskId} {ys : List Addr} (hkeeps : Keeps s.heap (s.task p) ys)
    (hwand : (s.task p).holdingWand = true) {array : Option (Nat → Nat)} {size : Nat}
    (harray : size ≠ 0 → ∃ room, array = some room ∧ ∀ i < size, secretMaxsize ≤ room i) :
    sysMagicListSecrets p array size s = .ok ((ys.length : Int) - (min ys.length size : Nat),
      copies 0 ((secrets s.heap ys).take size) ++ pads ys.length (size - ys.length)) := by
  obtain ⟨first, hfirst⟩ := Heap.chain_exists_next hkeeps.ring.chain List.mem_cons_self
  have hload : loadNext s.heap (s.task p).secretsPtr = .ok first := by rw [loadNext, hfirst]
  unfold sysMagicListSecrets
  rw [if_neg (ne_false_of_eq_true hwand), hload, ok_bind, printSecrets_keeps hkeeps hfirst,
    ok_bind, listEntries_keeps hkeeps hfirst, ok_bind]
  by_cases hsize : size = 0
  · subst hsize
    rw [if_pos rfl, Nat.min_zero, List.take_zero, Nat.zero_sub]
    exact congrArg (fun n : Int => Except.ok (n, _)) (Int.sub_zero _).symm
  · obtain ⟨room, rfl, hroom⟩ := harray hsize
    have hcopy := copySecrets_chain [] hkeeps (fun a ha => ha) hkeeps.ring.chain hfirst
      (Nat.zero_le size) hroom
    rw [Nat.zero_add, List.nil_append, Nat.sub_zero] at hcopy
    rw [if_neg hsize]
    dsimp only
    rw [hcopy]
    rfl

/-! ### The array afterwards -/

section Written

variable (h : Heap Block) (ys : List Addr) (size : Nat) (buf : Nat → List UInt8)

/-- The array after a listing of the entries `ys`. -/
def listed : Nat → List UInt8 :=
  written (copies 0 ((secrets h ys).take size) ++ pads ys.length (size - ys.length)) buf

variable {h ys size buf}

theorem listed_of_lt {i : Nat} (hi : i < ys.length) (hzero : 0 ∈ secretAt h ys[i]) (hsize : i < size) :
    text (listed h ys size buf i) = text (secretAt h ys[i]) := by
  have hcopy := written_copies 0 i ((secrets h ys).take size) buf
  rw [Nat.zero_add] at hcopy
  rw [listed, written_append, written_pads, if_neg (by omega), hcopy, List.getElem?_take_of_lt hsize, secrets,
    List.getElem?_map, List.getElem?_eq_getElem hi]
  exact text_append_of_mem hzero _

theorem listed_pad {i : Nat} (hi : ys.length ≤ i) (hsize : i < size) : text (listed h ys size buf i) = [] := by
  rw [listed, written_append, written_pads, if_pos (by omega)]
  exact text_set_zero _

theorem listed_of_le {i : Nat} (hi : size ≤ i) : listed h ys size buf i = buf i := by
  have hcopy := written_copies 0 i ((secrets h ys).take size) buf
  rw [Nat.zero_add] at hcopy
  rw [listed, written_append, written_pads, if_neg (by omega), hcopy, List.getElem?_eq_none]
  · rfl
  · rw [List.length_take]
    omega

theorem length_takeWhile_range {p : Nat → Bool} {m k : Nat} (hpos : ∀ i < m, p i = true)
    (hneg : 0 < k → p m = false) : ((List.range (m + k)).takeWhile p).length = m := by
  rw [List.range_add, List.takeWhile_append_of_pos fun i hi => hpos i (List.mem_range.1 hi), List.length_append,
    List.length_range]
  cases k with
  | zero => rfl
  | succ k =>
      have hstop : ¬ p (m + 0) = true := ne_true_of_eq_false (hneg (Nat.succ_pos k))
      rw [List.range_succ_eq_map, List.map_cons, List.takeWhile_cons_of_neg hstop]
      rfl

/-- With entries that are not empty, the first empty string stands after the last secret copied. -/
theorem length_takeWhile_listed (hzero : ∀ a ∈ ys, 0 ∈ secretAt h a) (hne : ∀ a ∈ ys, text (secretAt h a) ≠ []) :
    ((List.range size).takeWhile fun i => text (listed h ys size buf i) ≠ []).length = min ys.length size := by
  have hsize : size = min ys.length size + (size - ys.length) := by omega
  have hcount := length_takeWhile_range (p := fun i => decide (text (listed h ys size buf i) ≠ []))
    (m := min ys.length size) (k := size - ys.length) ?_ ?_
  · rw [← hsize] at hcount
    exact hcount
  · intro i hi
    have hlen : i < ys.length := by omega
    apply decide_eq_true
    rw [listed_of_lt hlen (hzero _ (List.getElem_mem hlen)) (by omega)]
    exact hne _ (List.getElem_mem hlen)
  · intro hmore
    refine decide_eq_false (not_not_intro ?_)
    exact listed_pad (by omega) (by omega)

end Written

end MagicKernel.Wand
